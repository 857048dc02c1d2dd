import Mathlib.Tactic

/-!
# Data lumps

The changes to a message that are collected while it is processed (`data_lump.c`, `lump_struct.h`). A list of lumps
marks places of the message (`LUMP_NOP`) and ranges to delete (`LUMP_DEL`), by increasing offset. Texts hang on a lump
by its `before` and `after` pointers; so a hung lump is the root of a tree, of which one side is the rest of its chain.

* `delLump`, `anchorLump`: the calls that extend a list.
* `Hung.hang`: the calls that hang a text, a substitution or a condition on a lump.
* `delFlagedLumps`: the removal of flagged lumps.
-/

namespace OpenSer

def u32add (a b : Nat) : Nat := (a + b) % 2 ^ 32

def u32sub (a b : Nat) : Nat := (a + 2 ^ 32 - b) % 2 ^ 32

theorem u32add_of_lt {a b : Nat} (h : a + b < 2 ^ 32) : u32add a b = a + b := Nat.mod_eq_of_lt h

/-! ## Lumps -/

inductive LumpSubst where
  | nop
  | rcvIp
  | sndIp
  | rcvPort
  | sndPort
  | rcvProto
  | sndProto
  | rcvAll
  | sndAll
  deriving DecidableEq

inductive LumpConditions where
  | never
  | always
  | ifDiffRealms
  | ifDiffAf
  | ifDiffProto
  | ifDiffPort
  | ifDiffIp
  | ifRand
  deriving DecidableEq

/-- `enum lump_op`, with what the union `u` and `len` hold for it. -/
inductive LumpOp where
  | nop (offset len : Nat)
  | del (offset len : Nat)
  | add (value : List Char)
  | addSubst (subst : LumpSubst)
  | addOpt (cond : LumpConditions)
  deriving DecidableEq

/-- A lump that hangs on another one, or a null pointer. -/
inductive Hung where
  | null
  | lump (op : LumpOp) (flags : Nat) (before after : Hung)
  deriving DecidableEq

structure Lump where
  op : LumpOp
  flags : Nat
  before : Hung
  after : Hung
  deriving DecidableEq

/-- `u.offset`, of the lumps that have one. -/
def LumpOp.offset? : LumpOp → Option Nat
  | .nop offset _ => some offset
  | .del offset _ => some offset
  | _ => none

def lumpflagBranch : Nat := 4

/-! ## Messages -/

structure IpAddr where
  af : Nat
  len : Nat
  addr : List Nat
  deriving DecidableEq

/-- The protocols a socket may have. -/
inductive Proto where
  | none
  | udp
  | tcp
  | tls
  | sctp
  | other (n : Nat)
  deriving DecidableEq

structure SocketInfo where
  address : IpAddr
  addressStr : List Char
  portNo : Nat
  portNoStr : List Char
  proto : Proto
  deriving DecidableEq

structure ReceiveInfo where
  dstIp : IpAddr
  dstPort : Nat
  proto : Proto
  bindAddress : Option SocketInfo
  deriving DecidableEq

/-- `struct sip_msg`: the buffer, where its headers end and its request URI lies, and the lumps. -/
structure SipMsg where
  buf : List Char
  len_lt : buf.length < 2 ^ 32
  eoh : Option Nat
  uri : Nat
  uriLen : Nat
  uri_le : uri + uriLen ≤ buf.length
  rcv : ReceiveInfo
  setGlobalAddress : List Char
  setGlobalPort : List Char
  addRm : List Lump
  bodyLumps : List Lump
  deriving DecidableEq

/-! ## Extending a list -/

/-- Puts the lump before the first `LUMP_DEL` or `LUMP_NOP` of a larger offset. -/
def insertLump (offset : Nat) (tmp : Lump) : List Lump → List Lump
  | [] => [tmp]
  | t :: ts => if t.op.offset?.any (offset < ·) then tmp :: t :: ts else t :: insertLump offset tmp ts

namespace SipMsg

def inBody (msg : SipMsg) (offset : Nat) : Bool := msg.eoh.any (· < offset)

/-- Links a new lump into the list of its offset. `pkg` says whether `pkg_malloc` succeeds. -/
def linkLump (msg : SipMsg) (pkg : Bool) (initLumpFlags offset : Nat) (op : LumpOp) : SipMsg :=
  if !pkg then msg
  else if msg.inBody offset then
    { msg with bodyLumps := insertLump offset ⟨op, initLumpFlags, .null, .null⟩ msg.bodyLumps }
  else { msg with addRm := insertLump offset ⟨op, initLumpFlags, .null, .null⟩ msg.addRm }

/-- `del_lump`. No result means that it aborts. -/
def delLump (msg : SipMsg) (pkg : Bool) (initLumpFlags : Nat) (offset len : UInt32) : Option SipMsg :=
  if msg.buf.length < offset.toNat then none
  else if msg.buf.length < u32add offset.toNat len.toNat then none
  else some (msg.linkLump pkg initLumpFlags offset.toNat (.del offset.toNat len.toNat))

def anchorLump (msg : SipMsg) (pkg : Bool) (initLumpFlags : Nat) (offset len : UInt32) : Option SipMsg :=
  if msg.buf.length < offset.toNat then none
  else some (msg.linkLump pkg initLumpFlags offset.toNat (.nop offset.toNat len.toNat))

end SipMsg

/-! ## Hanging lumps on lumps -/

/-- The pointers a lump hangs by. -/
inductive Dir where
  | before
  | after
  deriving DecidableEq

/-- `insert_{new,subst,cond}_lump_{before,after}` on a lump with the two pointers. -/
def hangOn (dir : Dir) (op : LumpOp) (flags : Nat) (before after : Hung) : Hung × Hung :=
  match dir with
  | .before => (.lump op flags before .null, after)
  | .after => (before, .lump op flags .null after)

/-- The same on a lump further down, which the path leads to. -/
def Hung.hang (dir : Dir) (op : LumpOp) (flags : Nat) : List Dir → Hung → Hung
  | _, .null => .null
  | [], .lump o f b a => .lump o f (hangOn dir op flags b a).1 (hangOn dir op flags b a).2
  | .before :: path, .lump o f b a => .lump o f (b.hang dir op flags path) a
  | .after :: path, .lump o f b a => .lump o f b (a.hang dir op flags path)

/-- The same on a lump of a list or on one that hangs on it. -/
def Lump.hang (dir : Dir) (op : LumpOp) (flags : Nat) (t : Lump) : List Dir → Lump
  | [] =>
    { t with before := (hangOn dir op flags t.before t.after).1, after := (hangOn dir op flags t.before t.after).2 }
  | .before :: path => { t with before := t.before.hang dir op flags path }
  | .after :: path => { t with after := t.after.hang dir op flags path }

/-- Where a lump is: the list, the place in it, and the pointers from there. -/
structure Handle where
  body : Bool
  index : Nat
  path : List Dir
  deriving DecidableEq

inductive LumpCall where
  | anchorLump (offset len : UInt32)
  | delLump (offset len : UInt32)
  | insertNewLump (dir : Dir) (target : Handle) (newHdr : List Char)
  | insertSubstLump (dir : Dir) (target : Handle) (subst : LumpSubst)
  | insertCondLump (dir : Dir) (target : Handle) (c : LumpConditions)
  deriving DecidableEq

/-- A call, with the state of the process it is made in. -/
structure LumpStep where
  pkg : Bool
  initLumpFlags : Nat
  call : LumpCall
  deriving DecidableEq

namespace SipMsg

/-- `insert_*_lump_*`. A target that is not there changes nothing. -/
def insertHung (msg : SipMsg) (pkg : Bool) (flags : Nat) (dir : Dir) (target : Handle) (op : LumpOp) : SipMsg :=
  if !pkg then msg
  else if target.body then
    { msg with bodyLumps := msg.bodyLumps.modify target.index (·.hang dir op flags target.path) }
  else { msg with addRm := msg.addRm.modify target.index (·.hang dir op flags target.path) }

/-- One call. No result means that it aborts. -/
def exec (msg : SipMsg) (st : LumpStep) : Option SipMsg :=
  match st.call with
  | .anchorLump offset len => msg.anchorLump st.pkg st.initLumpFlags offset len
  | .delLump offset len => msg.delLump st.pkg st.initLumpFlags offset len
  | .insertNewLump dir target newHdr => some (msg.insertHung st.pkg st.initLumpFlags dir target (.add newHdr))
  | .insertSubstLump dir target subst => some (msg.insertHung st.pkg st.initLumpFlags dir target (.addSubst subst))
  | .insertCondLump dir target c => some (msg.insertHung st.pkg st.initLumpFlags dir target (.addOpt c))

end SipMsg

/-! ## Removing flagged lumps -/

/-- Removes the flagged lumps of a chain. What else hangs on such a lump goes with it. -/
def Hung.delFlaged (flags : Nat) (dir : Dir) : Hung → Hung
  | .null => .null
  | .lump op fl b a =>
    match dir with
    | .before => if fl &&& flags ≠ 0 then b.delFlaged flags dir else .lump op fl (b.delFlaged flags dir) a
    | .after => if fl &&& flags ≠ 0 then a.delFlaged flags dir else .lump op fl b (a.delFlaged flags dir)

def delFlagedLumps (flags : Nat) : List Lump → List Lump
  | [] => []
  | t :: ts =>
    if t.flags &&& flags ≠ 0 then delFlagedLumps flags ts
    else { t with after := t.after.delFlaged flags .after, before := t.before.delFlaged flags .before } ::
      delFlagedLumps flags ts

end OpenSer
