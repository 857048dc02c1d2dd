import OpenSer.LumpRewrite
import OpenSer.Parser.ParseHname2

/-!
# Record-Route

How the proxy puts itself into the Record-Route set of a request (`record.c`): `record_route` adds one header field, or
two of which one is there only when the request leaves on another socket than it came in; `record_route_preset` adds one
with a given URI; `add_rr_param` adds a parameter to these header fields. A parameter that comes before the header field
waits in a buffer of the process; one that comes later is hung into the lumps of the header field.

* `TypedLump`: lumps with the type `add_rr_param` finds them by; without it they are those of `data_lump.c`.
* `recordRoute`, `recordRoutePreset`, `addRrParam`: the functions of the module.
* `RrRequest.handle`: all calls for one request.
-/

namespace OpenSer.Rr

open OpenSer.Parser.Hname2 (HdrType)

/-! ## Lumps and their types -/

inductive TypedHung where
  | null
  | lump (op : LumpOp) (type : HdrType) (flags : Nat) (before after : TypedHung)
  deriving DecidableEq

structure TypedLump where
  op : LumpOp
  type : HdrType
  flags : Nat
  before : TypedHung
  after : TypedHung
  deriving DecidableEq

namespace TypedHung

def forget : TypedHung → Hung
  | null => .null
  | lump op _ flags b a => .lump op flags b.forget a.forget

def chain (dir : OpenSer.Dir) : TypedHung → List (LumpOp × HdrType)
  | null => []
  | lump op type _ b a => (op, type) :: match dir with
    | .before => b.chain dir
    | .after => a.chain dir

/-- `insert_*_lump_*` on the last lump of a chain. -/
def snoc (dir : OpenSer.Dir) (op : LumpOp) (type : HdrType) (flags : Nat) : TypedHung → TypedHung
  | null => .lump op type flags .null .null
  | lump o ty fl b a => match dir with
    | .before => .lump o ty fl (b.snoc dir op type flags) a
    | .after => .lump o ty fl b (a.snoc dir op type flags)

/-- `insert_new_lump_before`, on a lump further down the `before` chain. -/
def hangBefore (op : LumpOp) (type : HdrType) (flags : Nat) : Nat → TypedHung → TypedHung
  | _, null => .null
  | 0, lump o ty fl b a => .lump o ty fl (.lump op type flags b .null) a
  | n + 1, lump o ty fl b a => .lump o ty fl (b.hangBefore op type flags n) a

end TypedHung

namespace TypedLump

def forget (t : TypedLump) : Lump := ⟨t.op, t.flags, t.before.forget, t.after.forget⟩

def anchor (offset : Nat) (type : HdrType) (flags : Nat) : TypedLump := ⟨.nop offset 0, type, flags, .null, .null⟩

end TypedLump

def upTo (offset : Nat) (ts : List TypedLump) : List TypedLump := ts.takeWhile fun t => !t.op.offset?.any (offset < ·)

/-- The lumps from the first one of a larger offset on. -/
def behindOf (offset : Nat) (ts : List TypedLump) : List TypedLump := ts.dropWhile fun t =>
    !t.op.offset?.any (offset < ·)

def link (offset : Nat) (t : TypedLump) (ts : List TypedLump) : List TypedLump :=
  upTo offset ts ++ t :: behindOf offset ts

/-! ## The module -/

def rrPrefix : List Char := "Record-Route: <sip:".toList
def rrLr : List Char := ";lr".toList
def rrLrFull : List Char := ";lr=on".toList
def rrFromtag : List Char := ";ftag=".toList
def rrR2 : List Char := ";r2=on".toList
def rrTerm : List Char := ">\r\n".toList

def rrParamBufSize : Nat := 512

structure RrConfig where
  appendFromtag : Bool
  enableDoubleRr : Bool
  enableFullLr : Bool
  addUsername : Bool
  deriving DecidableEq

/-- What the functions change: the buffer of the process with the id of the message it is for, and the lumps of the
request. -/
structure RrState where
  rrParamBuf : List Char
  rrParamMsg : Nat
  addRm : List TypedLump
  deriving DecidableEq

/-- The lump adds a text of a Record-Route header field. -/
def isRrText : LumpOp × HdrType → Bool
  | (.add _, .recordRoute) => true
  | _ => false

/-- **A request** before it is record-routed: its id, where its first header field begins, what `get_username` and
`parse_from_header` find, and its lumps. -/
structure RrRequest where
  msg : SipMsg
  id : Nat
  headers : Nat
  user : Option (List Char)
  fromTag : Option (List Char)
  addRm : List TypedLump
  addRm_eq : msg.addRm = addRm.map TypedLump.forget
  uri_le : msg.uri + msg.uriLen ≤ headers
  headers_le : headers ≤ msg.buf.length
  not_inBody : msg.inBody headers = false
  lumps : ∀ t ∈ msg.addRm ++ msg.bodyLumps, t.op.Within msg.buf.length ∧ t.NoRand
  body : ∀ u ∈ msg.bodyLumps, headers ≤ u.op.range.1 ∧ ∀ t ∈ msg.addRm, t.op.range.1 + t.op.range.2 ≤ u.op.range.1
  unrecorded : ∀ t ∈ addRm, ∀ x ∈ t.before.chain .before, isRrText x = false

def atUser (user : List Char) : List Char := if user.length ≠ 0 then user ++ ['@'] else []

def lrParam (cfg : RrConfig) : List Char := if cfg.enableFullLr then rrLrFull else rrLr

def ftagParamOf (tag : List Char) : List Char := if tag.length ≠ 0 then rrFromtag ++ tag else []

/-- The user name for the header field. No result means that there is an error. -/
def RrRequest.userOf (req : RrRequest) (cfg : RrConfig) : Option (List Char) :=
  if cfg.addUsername then req.user else some []

def RrRequest.tagOf (req : RrRequest) (cfg : RrConfig) : Option (List Char) :=
  if cfg.appendFromtag then req.fromTag else some []

/-! ## `record_route` -/

variable (cfg : RrConfig)

/-- Whether the calls of `pkg_malloc` for one header field succeed. -/
structure HeaderMem where
  anchor : Bool := true
  anchor2 : Bool := true
  cond : Bool := true
  cond2 : Bool := true
  prefixText : Bool := true
  suffixText : Bool := true
  termText : Bool := true
  r2Text : Bool := true
  prefixLump : Bool := true
  substLump : Bool := true
  condLump : Bool := true
  r2Lump : Bool := true
  suffixLump : Bool := true
  paramValue : Bool := true
  paramLump : Bool := true
  termLump : Bool := true
  deriving DecidableEq

/-- A lump that is hung on the `after` chain of the first anchor or on the `before` chain of the second one. -/
structure Insertion where
  pkg : Bool
  dir : OpenSer.Dir
  op : LumpOp
  type : HdrType
  deriving DecidableEq

/-- Hangs lumps one after the other, until memory runs out. -/
def insertAll (flags : Nat) : List Insertion → TypedLump × TypedLump → Bool × TypedLump × TypedLump
  | [], ls => (true, ls)
  | i :: is, (l, l2) =>
    if !i.pkg then (false, l, l2)
    else match i.dir with
      | .after => insertAll flags is ({ l with after := l.after.snoc .after i.op i.type flags }, l2)
      | .before => insertAll flags is (l, { l2 with before := l2.before.snoc .before i.op i.type flags })

/-- The lumps of `build_rr`. -/
def rrInsertions (mem : HeaderMem) (rrParamBuf user tag params : List Char) (inbound : Bool) :
    List Insertion :=
  [⟨mem.prefixLump, .after, .add (rrPrefix ++ atUser user), .other⟩,
    ⟨mem.substLump, .after, .addSubst (if inbound then .rcvAll else .sndAll), .other⟩] ++
  (if cfg.enableDoubleRr then
    [⟨mem.condLump, .after, .addOpt .ifDiffRealms, .other⟩, ⟨mem.r2Lump, .after, .add rrR2, .other⟩]
  else []) ++
  [⟨mem.suffixLump, .before, .add (lrParam cfg ++ ftagParamOf tag ++ params), .recordRoute⟩] ++
  (if rrParamBuf.length ≠ 0 then [⟨mem.paramValue && mem.paramLump, .before, .add rrParamBuf, .recordRoute⟩] else []) ++
  [⟨mem.termLump, .before, .add rrTerm, .other⟩]

/-- `build_rr`: what it returns, and the two anchors with their texts. -/
def buildRr (mem : HeaderMem) (flags : Nat) (rrParamBuf user tag params : List Char) (inbound : Bool)
    (ls : TypedLump × TypedLump) : Int × TypedLump × TypedLump :=
  if !(mem.prefixText && mem.suffixText && mem.termText && mem.r2Text) then (-3, ls)
  else
    let inserted := insertAll flags (rrInsertions cfg mem rrParamBuf user tag params inbound) ls
    (if inserted.1 then 0 else -4, inserted.2)

def anchors (offset flags : Nat) : TypedLump × TypedLump :=
  (.anchor offset .recordRoute flags, .anchor offset .other flags)

/-- Links the anchors that could be allocated. Their texts are there already, which makes no difference: nothing looks
at the list while the texts are hung. -/
def linkAnchors (offset : Nat) (mem : HeaderMem) (ls : TypedLump × TypedLump) (ts : List TypedLump) : List TypedLump :=
  let ts := if mem.anchor then link offset ls.1 ts else ts
  if mem.anchor2 then link offset ls.2 ts else ts

/-- The condition in front of the texts of the outbound header field. -/
def insertConds (mem : HeaderMem) (flags : Nat) (ls : TypedLump × TypedLump) : TypedLump × TypedLump :=
  (if mem.cond then { ls.1 with after := ls.1.after.snoc .after (.addOpt .ifDiffRealms) .other flags } else ls.1,
    if mem.cond2 then { ls.2 with before := ls.2.before.snoc .before (.addOpt .ifDiffRealms) .other flags } else ls.2)

def outboundRr (mem : HeaderMem) (offset flags : Nat) (rrParamBuf user tag params : List Char)
    (ts : List TypedLump) : Int × List TypedLump :=
  if !(mem.anchor && mem.anchor2) then (-5, linkAnchors offset mem (anchors offset flags) ts)
  else
    let ls := insertConds mem flags (anchors offset flags)
    if !(mem.cond && mem.cond2) then (-6, linkAnchors offset mem ls ts)
    else
      let built := buildRr cfg mem flags rrParamBuf user tag params false ls
      (if built.1 < 0 then -7 else 0, linkAnchors offset mem built.2 ts)

def inboundRr (mem : HeaderMem) (offset flags : Nat) (rrParamBuf user tag params : List Char)
    (ts : List TypedLump) : Int × List TypedLump :=
  if !(mem.anchor && mem.anchor2) then (-3, linkAnchors offset mem (anchors offset flags) ts)
  else
    let built := buildRr cfg mem flags rrParamBuf user tag params true (anchors offset flags)
    (if built.1 < 0 then -4 else 0, linkAnchors offset mem built.2 ts)

def recordRoute (req : RrRequest) (params : List Char) (out inb : HeaderMem) (flags : Nat)
    (st : RrState) : Int × RrState :=
  match req.userOf cfg with
  | none => (-1, st)
  | some user =>
    match req.tagOf cfg with
    | none => (-2, st)
    | some tag =>
      -- parameters of a different message are dropped
      let buf := if st.rrParamBuf.length ≠ 0 ∧ st.rrParamMsg ≠ req.id then [] else st.rrParamBuf
      let first := if cfg.enableDoubleRr then outboundRr cfg out req.headers flags buf user tag params st.addRm
        else (0, st.addRm)
      if first.1 < 0 then (first.1, { st with rrParamBuf := buf, addRm := first.2 })
      else
        let second := inboundRr cfg inb req.headers flags buf user tag params first.2
        if second.1 < 0 then (second.1, { st with rrParamBuf := buf, addRm := second.2 })
        else (0, { st with rrParamBuf := [], addRm := second.2 })

/-! ## `record_route_preset` -/

/-- Whether the calls of `pkg_malloc` in `record_route_preset` succeed. -/
structure PresetMem where
  anchor : Bool := true
  hdr : Bool := true
  lump : Bool := true
  deriving DecidableEq

/-- The header field up to its end. -/
def presetHdr (user tag data : List Char) : List Char :=
  rrPrefix ++ atUser user ++ data ++ ftagParamOf tag ++ lrParam cfg

def recordRoutePreset (req : RrRequest) (data : List Char) (mem : PresetMem) (flags : Nat)
    (st : RrState) : Int × RrState :=
  match req.userOf cfg with
  | none => (-1, st)
  | some user =>
    match req.tagOf cfg with
    | none => (-2, st)
    | some tag =>
      let l := TypedLump.anchor req.headers .recordRoute flags
      if !mem.anchor then (-3, st)
      else if !mem.hdr then (-4, { st with addRm := link req.headers l st.addRm })
      else if !mem.lump then (-5, { st with addRm := link req.headers l st.addRm })
      else
        let hdr := presetHdr cfg user tag data ++ rrTerm
        (1, { st with
          addRm := link req.headers { l with after := l.after.snoc .after (.add hdr) .other flags } st.addRm })

/-! ## `add_rr_param` -/

/-- The last text of a Record-Route header field on a `before` chain, by its depth. -/
def lastRrText : TypedHung → Nat → Option Nat → Option Nat
  | .null, _, last => last
  | .lump op type _ b _, depth, last => lastRrText b (depth + 1) (if isRrText (op, type) then some depth else last)

/-- `get_rr_param_lump`, on the part of a list from `root` on: the lump it finds, as the place in the list and the
depth, and where `root` is left. -/
def getRrParamLump : List TypedLump → Nat → Option (Nat × Nat) × Nat
  | [], root => (none, root)
  | crt :: rest, root => match lastRrText crt.before 0 none with
    | some depth => (some (root, depth), root + 1)
    | none => getRrParamLump rest (root + 1)

/-- `insert_rr_param_lump`, once memory is there. -/
def insertRrParamLump (flags : Nat) (param : List Char) (before : Nat × Nat) (ts : List TypedLump) : List TypedLump :=
  ts.modify before.1 fun t => { t with before := t.before.hangBefore (.add param) .recordRoute flags before.2 }

/-- A call of `add_rr_param`, with what `pkg_malloc` returns for the one and for the other header field. -/
structure AddCall where
  param : List Char
  flags : Nat := 0
  value : Bool := true
  lump : Bool := true
  value2 : Bool := true
  lump2 : Bool := true
  deriving DecidableEq

def addRrParam (id : Nat) (c : AddCall) (st : RrState) : Int × RrState :=
  match getRrParamLump st.addRm 0 with
  | (some last, root) =>
    if !(c.value && c.lump) then (-1, st)
    else
      let ts := insertRrParamLump c.flags c.param last st.addRm
      if !cfg.enableDoubleRr then (0, { st with addRm := ts })
      else match getRrParamLump (ts.drop root) root with
        | (none, _) => (-1, { st with addRm := ts })
        | (some last, _) =>
          if !(c.value2 && c.lump2) then (-1, { st with addRm := ts })
          else (0, { st with addRm := insertRrParamLump c.flags c.param last ts })
  | (none, _) =>
    let st := if st.rrParamMsg ≠ id then { st with rrParamBuf := [], rrParamMsg := id } else st
    if rrParamBufSize < st.rrParamBuf.length + c.param.length then (-1, st)
    else (0, { st with rrParamBuf := st.rrParamBuf ++ c.param })

/-- Calls of `add_rr_param` one after the other, each with what it returns. -/
def addRrParams (cfg : RrConfig) (id : Nat) : List AddCall → RrState → List (AddCall × Int) × RrState
  | [], st => ([], st)
  | c :: cs, st =>
    let added := addRrParam cfg id c st
    let rest := addRrParams cfg id cs added.2
    ((c, added.1) :: rest.1, rest.2)

/-! ## All calls for one request -/

inductive RecordCall where
  | recordRoute (params : List Char) (out inb : HeaderMem) (flags : Nat)
  | recordRoutePreset (data : List Char) (mem : PresetMem) (flags : Nat)
  deriving DecidableEq

def RecordCall.exec (cfg : RrConfig) (req : RrRequest) (st : RrState) : RecordCall → Int × RrState
  | .recordRoute params out inb flags => OpenSer.Rr.recordRoute cfg req params out inb flags st
  | .recordRoutePreset data mem flags => OpenSer.Rr.recordRoutePreset cfg req data mem flags st

/-- The calls for one request: parameters before and after it is record-routed. -/
structure RrCalls where
  before : List AddCall
  record : RecordCall
  after : List AddCall
  deriving DecidableEq

/-- What comes of the calls. -/
structure RrOutcome where
  before : List (AddCall × Int)
  record : Int
  after : List (AddCall × Int)
  addRm : List TypedLump
  deriving DecidableEq

/-- **All calls for one request**, in a process whose buffer holds what other messages have left. -/
def RrRequest.handle (req : RrRequest) (cfg : RrConfig) (buf : List Char) (bufMsg : Nat) (calls : RrCalls) :
    RrOutcome :=
  let before := addRrParams cfg req.id calls.before ⟨buf, bufMsg, req.addRm⟩
  let recorded := calls.record.exec cfg req before.2
  let after := addRrParams cfg req.id calls.after recorded.2
  ⟨before.1, recorded.1, after.1, after.2.addRm⟩

def RrRequest.carrying (req : RrRequest) (ts : List TypedLump) : SipMsg :=
  { req.msg with addRm := ts.map TypedLump.forget }

end OpenSer.Rr
