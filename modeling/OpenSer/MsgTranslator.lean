import OpenSer.DataLump

/-!
# Building a message from its lumps

The functions of `msg_translator.c` that turn a message and its lumps into the buffer that is sent: `lumps_len` computes
by how much the length changes, and repairs overlapping lumps in place; `process_lumps` copies the message and applies
the lumps; `build_req_buf_from_sip_req` allocates what the first says and lets the second write.

The lumps for `Via`, `received`, `rport` and `Content-Length`, which the builder adds before, are further calls of
`data_lump.c`.
-/

namespace OpenSer

/-- The results of the coming calls of `rand`. -/
abbrev Rand : Type := Nat → Nat

def afInet : Nat := 2

def sipPort : Nat := 5060

def randMax : Nat := 2147483647

def transportParam : List Char := ";transport=".toList

def ipAddrCmp (ip1 ip2 : IpAddr) : Bool := ip1.af == ip2.af && ip1.addr.take ip1.len == ip2.addr.take ip1.len

variable (msg : SipMsg) (sendSock : Option SocketInfo)

/-! ## Conditions -/

def SipMsg.rcvIp : IpAddr := (msg.rcv.bindAddress.map (·.address)).getD msg.rcv.dstIp

def SipMsg.rcvPort : Nat := (msg.rcv.bindAddress.map (·.portNo)).getD msg.rcv.dstPort

def SipMsg.rcvProto : Proto := (msg.rcv.bindAddress.map (·.proto)).getD msg.rcv.proto

def lumpCheckOpt (c : LumpConditions) (rs : Rand) : Bool × Rand :=
  match c, sendSock with
  | .never, _ => (false, rs)
  | .always, _ => (true, rs)
  | .ifRand, _ => (randMax / 2 ≤ rs 0, fun n => rs (n + 1))
  | _, none => (true, rs)
  | .ifDiffRealms, some snd =>
    (!(msg.rcvPort == snd.portNo && msg.rcvProto == snd.proto && ipAddrCmp msg.rcvIp snd.address), rs)
  | .ifDiffAf, some snd => (msg.rcvIp.af != snd.address.af, rs)
  | .ifDiffProto, some snd => (msg.rcvProto != snd.proto, rs)
  | .ifDiffPort, some snd => (msg.rcvPort != snd.portNo, rs)
  | .ifDiffIp, some snd => (!ipAddrCmp msg.rcvIp snd.address, rs)

/-! ## Substitutions -/

def sendAddressStr (snd : SocketInfo) : List Char :=
  if msg.setGlobalAddress.length ≠ 0 then msg.setGlobalAddress else snd.addressStr

def sendPortStr (snd : SocketInfo) : List Char :=
  if msg.setGlobalPort.length ≠ 0 then msg.setGlobalPort else snd.portNoStr

/-- The brackets of an IPv6 address, counted. -/
def bracketsLen (bracketed : Bool) : Nat := if bracketed then 2 else 0

def protoLen : Proto → Nat
  | .none | .udp | .tcp | .tls => 3
  | .sctp => 4
  | .other _ => 0

/-- The length of a transport parameter; `udp` is the default. -/
def transportLen : Proto → Nat
  | .none | .udp | .other _ => 0
  | .tcp | .tls => transportParam.length + 3
  | .sctp => transportParam.length + 4

def substLumpLen (subst : LumpSubst) : Nat :=
  match subst with
  | .rcvIp => msg.rcv.bindAddress.elim 0 fun b => b.addressStr.length + bracketsLen (b.address.af != afInet)
  | .rcvPort => msg.rcv.bindAddress.elim 0 fun b => b.portNoStr.length
  | .rcvProto => msg.rcv.bindAddress.elim 0 fun b => protoLen b.proto
  | .rcvAll => msg.rcv.bindAddress.elim 0 fun b =>
    b.addressStr.length + bracketsLen (b.address.af != afInet) +
      (if b.portNo ≠ sipPort then 1 + b.portNoStr.length else 0) + transportLen b.proto
  | .sndIp => sendSock.elim 0 fun s =>
    (sendAddressStr msg s).length + bracketsLen (s.address.af != afInet && msg.setGlobalAddress.length == 0)
  | .sndPort => sendSock.elim 0 fun s => (sendPortStr msg s).length
  | .sndProto => sendSock.elim 0 fun s => protoLen s.proto
  | .sndAll => sendSock.elim 0 fun s =>
    (sendAddressStr msg s).length + bracketsLen (s.address.af != afInet && msg.setGlobalAddress.length == 0) +
      (if s.portNo ≠ sipPort ∨ msg.setGlobalPort.length ≠ 0 then 1 + (sendPortStr msg s).length else 0) +
      transportLen s.proto
  | .nop => 0

def bracketed (brackets : Bool) (address : List Char) : List Char :=
  (if brackets then ['['] else []) ++ address ++ if brackets then [']'] else []

def protoName : Proto → List Char
  | .none | .udp => "udp".toList
  | .tcp => "tcp".toList
  | .tls => "tls".toList
  | .sctp => "sctp".toList
  | .other _ => []

def transportText : Proto → List Char
  | .none | .udp | .other _ => []
  | .tcp => transportParam ++ "tcp".toList
  | .tls => transportParam ++ "tls".toList
  | .sctp => transportParam ++ "sctp".toList

def substLump (subst : LumpSubst) : List Char :=
  match subst with
  | .rcvIp => msg.rcv.bindAddress.elim [] fun b => bracketed (b.address.af != afInet) b.addressStr
  | .rcvPort => msg.rcv.bindAddress.elim [] fun b => b.portNoStr
  | .rcvAll => msg.rcv.bindAddress.elim [] fun b =>
    bracketed (b.address.af != afInet) b.addressStr ++
      (if b.portNo ≠ sipPort then ':' :: b.portNoStr else []) ++ transportText b.proto
  | .sndIp => sendSock.elim [] fun s =>
    bracketed (s.address.af != afInet && msg.setGlobalAddress.length == 0) (sendAddressStr msg s)
  | .sndPort => sendSock.elim [] fun s => sendPortStr msg s
  | .sndAll => sendSock.elim [] fun s =>
    bracketed (s.address.af != afInet && msg.setGlobalAddress.length == 0) (sendAddressStr msg s) ++
      (if s.portNo ≠ sipPort ∨ msg.setGlobalPort.length ≠ 0 then ':' :: sendPortStr msg s else []) ++
      transportText s.proto
  | .rcvProto => msg.rcv.bindAddress.elim [] fun b => protoName b.proto
  | .sndProto => sendSock.elim [] fun s => protoName s.proto
  | .nop => []

/-! ## The length -/

/-- The lumps of a chain, from a pointer on. -/
def Hung.chain (dir : Dir) : Hung → List LumpOp
  | .null => []
  | .lump op _ b a => op :: match dir with
    | .before => b.chain dir
    | .after => a.chain dir

/-- The loops over `before` and `after` in `lumps_len`. A condition that does not hold ends the chain. -/
def chainLen : List LumpOp → Nat → Rand → Nat × Rand
  | [], newLen, rs => (newLen, rs)
  | .add value :: ops, newLen, rs => chainLen ops (u32add newLen value.length) rs
  | .addSubst subst :: ops, newLen, rs => chainLen ops (u32add newLen (substLumpLen msg sendSock subst)) rs
  | .addOpt c :: ops, newLen, rs =>
    if (lumpCheckOpt msg sendSock c rs).1 then chainLen ops newLen (lumpCheckOpt msg sendSock c rs).2
    else (newLen, (lumpCheckOpt msg sendSock c rs).2)
  | .nop _ _ :: ops, newLen, rs => chainLen ops newLen rs
  | .del _ _ :: ops, newLen, rs => chainLen ops newLen rs

/-- The `switch` of `lumps_len`: the lump as it is repaired, `s_offset` and `new_len`. -/
def mainLen (op : LumpOp) (sOffset newLen : Nat) : LumpOp × Nat × Nat :=
  match op with
  | .add value => (op, sOffset, u32add newLen value.length)
  | .addSubst subst => (op, sOffset, u32add newLen (substLumpLen msg sendSock subst))
  | .addOpt _ => (op, sOffset, newLen)
  | .del offset len =>
    -- fix overlapping deleted zones
    if offset < sOffset then
      let len := if sOffset - offset < len then len - (sOffset - offset) else 0
      (.del sOffset len, u32add sOffset len, u32sub newLen len)
    else (op, u32add offset len, u32sub newLen len)
  | .nop offset len =>
    -- fix offset if overlapping on a deleted zone
    if offset < sOffset then (.nop sOffset len, sOffset, newLen) else (op, offset, newLen)

def lumpsLenLoop : List Lump → Nat → Nat → Rand → List Lump × Nat × Rand
  | [], _, newLen, rs => ([], newLen, rs)
  | t :: ts, sOffset, newLen, rs =>
    let check := match t.op with
      | .addOpt c => lumpCheckOpt msg sendSock c rs
      | _ => (true, rs)
    if !check.1 then
      let rest := lumpsLenLoop ts sOffset newLen check.2
      (t :: rest.1, rest.2)
    else
      let before := chainLen msg sendSock (t.before.chain .before) newLen check.2
      let main := mainLen msg sendSock t.op sOffset before.1
      let after := chainLen msg sendSock (t.after.chain .after) main.2.2 before.2
      let rest := lumpsLenLoop ts main.2.1 after.1 after.2
      ({ t with op := main.1 } :: rest.1, rest.2)

/-- `lumps_len`: the lumps as they are repaired, and the change of the length. -/
def lumpsLen (lumps : List Lump) (rs : Rand) : List Lump × Nat × Rand := lumpsLenLoop msg sendSock lumps 0 0 rs

/-! ## The text -/

/-- What `process_lumps` has written, and how far it has read. -/
structure Copied where
  newBuf : List Char
  sOffset : Nat
  rs : Rand

/-- The loops over `before` and `after` in `process_lumps`. -/
def chainCopy : List LumpOp → List Char → Rand → List Char × Rand
  | [], newBuf, rs => (newBuf, rs)
  | .add value :: ops, newBuf, rs => chainCopy ops (newBuf ++ value) rs
  | .addSubst subst :: ops, newBuf, rs => chainCopy ops (newBuf ++ substLump msg sendSock subst) rs
  | .addOpt c :: ops, newBuf, rs =>
    if (lumpCheckOpt msg sendSock c rs).1 then chainCopy ops newBuf (lumpCheckOpt msg sendSock c rs).2
    else (newBuf, (lumpCheckOpt msg sendSock c rs).2)
  | .nop _ _ :: ops, newBuf, rs => chainCopy ops newBuf rs
  | .del _ _ :: ops, newBuf, rs => chainCopy ops newBuf rs

/-- A lump of the list that only adds. -/
def copyAdd (t : Lump) (main : List Char) (st : Copied) : Copied :=
  let before := chainCopy msg sendSock (t.before.chain .before) st.newBuf st.rs
  let after := chainCopy msg sendSock (t.after.chain .after) (before.1 ++ main) before.2
  { st with newBuf := after.1, rs := after.2 }

/-- A `LUMP_NOP` or, with the number of bytes to skip, a `LUMP_DEL`. No result means that bytes outside of the message
are read. -/
def copyAt (t : Lump) (offset skip : Nat) (st : Copied) : Option Copied :=
  if offset < st.sOffset then some st
  else
    let size := offset - st.sOffset
    if size ≠ 0 ∧ msg.buf.length < offset then none
    else
      let newBuf := st.newBuf ++ (msg.buf.drop st.sOffset).take size
      let before := chainCopy msg sendSock (t.before.chain .before) newBuf st.rs
      let after := chainCopy msg sendSock (t.after.chain .after) before.1 before.2
      some ⟨after.1, u32add offset skip, after.2⟩

def processLumps : List Lump → Copied → Option Copied
  | [], st => some st
  | t :: ts, st =>
    match t.op with
    | .add value => processLumps ts (copyAdd msg sendSock t value st)
    | .addSubst subst => processLumps ts (copyAdd msg sendSock t (substLump msg sendSock subst) st)
    | .addOpt c =>
      let check := lumpCheckOpt msg sendSock c st.rs
      if check.1 then processLumps ts (copyAdd msg sendSock t [] { st with rs := check.2 })
      else processLumps ts { st with rs := check.2 }
    | .nop offset _ => (copyAt msg sendSock t offset 0 st).bind (processLumps ts)
    | .del offset len => (copyAt msg sendSock t offset len st).bind (processLumps ts)

/-! ## The message -/

/-- What `build_req_buf_from_sip_req` leaves: the length it returns, the bytes it has written, and the message with its
lumps repaired. -/
structure Built where
  returnedLen : Nat
  newBuf : List Char
  msg : SipMsg

/-- `build_req_buf_from_sip_req`, when all lumps are there. No result means that bytes outside of the message are
read. -/
def buildReqBufFromSipReq (newUri : Option (List Char)) (rs : Rand) : Option Built :=
  let bodyLumps := lumpsLen msg sendSock msg.bodyLumps rs
  let addRm := lumpsLen msg sendSock msg.addRm bodyLumps.2.2
  let newLen := u32add (u32add msg.buf.length bodyLumps.2.1) addRm.2.1
  let start : Nat × Copied := match newUri with
    | none => (newLen, ⟨[], 0, addRm.2.2⟩)
    | some newUri => (u32add (u32sub newLen msg.uriLen) newUri.length,
      ⟨msg.buf.take msg.uri ++ newUri, msg.uri + msg.uriLen, addRm.2.2⟩)
  ((processLumps msg sendSock addRm.1 start.2).bind (processLumps msg sendSock bodyLumps.1)).bind fun st =>
    if msg.buf.length < st.sOffset then none
    else some ⟨start.1, st.newBuf ++ msg.buf.drop st.sOffset, { msg with addRm := addRm.1, bodyLumps := bodyLumps.1 }⟩

end OpenSer
