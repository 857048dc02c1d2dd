import OpenSer.Lib.Scanner
import OpenSer.Parser.PrintRr

/-!
# To and From bodies

`parse_to` and `parse_to_param` of `parse_to.c`: two automata with the same kind of states. Both save a state at the end
of a line and take it up again if the next line is a continuation. Places are counted from the beginning of the buffer.
Memory for the parameters does not run out.

* `ToStatus`: the states.
* `paramStep`, `parseToParam`: the parameters.
* `toStep`, `parseTo`: the display name and the URI; the first semicolon hands over to `parse_to_param`.
-/

namespace OpenSer.Parser

open Lib

/-- The states of `parse_to` and of `parse_to_param`. -/
inductive ToStatus
  | startTo | displayQuoted | eDisplayQuoted | displayToken | displayToken2 | sUriEnclosed | uriEnclosed | eUriEnclosed
  | uriOrToken | maybeUriEnd | finished | fCr | fLf | fCrlf
  | sParaName | paraName | sEqual | sParaValue | tag1 | tag2 | tag3 | paraValueToken | paraValueQuoted | eParaValue
  deriving Repr, DecidableEq

/-- `str`: a place, if it is set, and a length. -/
structure Str where
  s : Option Nat
  len : Int
  deriving Repr, DecidableEq

def Str.null : Str := ⟨none, 0⟩

/-- The length up to a place: `tmp - s`. -/
def Str.upTo (x : Str) (tmp : Nat) : Int := tmp - x.s.getD 0

inductive ToParamType
  | tagParam | generalParam
  deriving Repr, DecidableEq

structure ToParam where
  type : ToParamType
  name : Str
  value : Str
  deriving Repr, DecidableEq

structure ToBody where
  body : Str
  uri : Str
  display : Str
  tagValue : Str
  params : List ToParam
  deriving Repr, DecidableEq

def ToBody.null : ToBody := ⟨.null, .null, .null, .null, []⟩

def ToBody.add (b : ToBody) (p : ToParam) : ToBody :=
  { b with
    params := b.params ++ [p]
    tagValue := if p.type = .tagParam then p.value else b.tagValue }

/-! ## Parameters -/

structure ParamState where
  status : ToStatus
  saved : ToStatus
  param : Option ToParam
  toB : ToBody
  deriving Repr, DecidableEq

namespace ParamState

variable (st : ParamState) (tmp : Nat)

def enter (next : ToStatus) : ParamState := { st with status := next }

def setTag : ParamState := { st with param := st.param.map fun p => { p with type := .tagParam } }

def beginName : ParamState :=
  { st with param := st.param.map fun p => { p with name := { p.name with s := some tmp } } }

def endName : ParamState :=
  { st with param := st.param.map fun p => { p with name := { p.name with len := p.name.upTo tmp } } }

def beginValue : ParamState :=
  { st with param := st.param.map fun p => { p with value := { p.value with s := some tmp } } }

/-- `param->value.len = tmp - param->value.s - cut`. -/
def endValue (cut : Int) : ParamState :=
  { st with param := st.param.map fun p => { p with value := { p.value with len := p.value.upTo tmp - cut } } }

def clearValue : ParamState := { st with param := st.param.map fun p => { p with value := .null } }

def addParam : ParamState := { st with toB := st.param.elim st.toB st.toB.add, param := none }

def newParam : ParamState := { st with param := some ⟨.generalParam, .null, .null⟩ }

def isTag : Bool := st.param.any fun p => p.type = .tagParam

end ParamState

section
variable (tmp : Nat) (st : ParamState)

def paramBlank : ParamState :=
  match st.status with
  | .tag3 => (st.setTag.endName tmp).enter .sEqual
  | .paraName | .tag1 | .tag2 => (st.endName tmp).enter .sEqual
  | .paraValueToken => ((st.endValue tmp 0).enter .eParaValue).addParam
  | .fCrlf | .fLf | .fCr => st.enter st.saved
  | _ => st

/-- The end of a line, where `\n` and `\r` do the same: the state is saved. -/
def paramLineEnd (mark : ToStatus) (tmp : Nat) (st : ParamState) : Answer ParamState :=
  match st.status with
  | .sParaName | .sEqual | .sParaValue | .eParaValue => .go ({ st with saved := st.status }.enter mark)
  | .tag3 => .go ({ st.setTag.endName tmp with saved := .sEqual }.enter mark)
  | .paraName | .tag1 | .tag2 => .go ({ st.endName tmp with saved := .sEqual }.enter mark)
  | .paraValueToken => .go ({ st.endValue tmp 0 with saved := .eParaValue }.enter mark).addParam
  | _ => .fail

def paramLf : Answer ParamState :=
  match st.status with
  | .fCr => .go (st.enter .fCrlf)
  | .fCrlf | .fLf => .stop (st.enter st.saved)
  | _ => paramLineEnd .fLf tmp st

def paramCr : Answer ParamState :=
  match st.status with
  | .fCrlf | .fCr | .fLf => .stop (st.enter st.saved)
  | _ => paramLineEnd .fCr tmp st

/-- A parameter without a value is added, with an empty one. -/
def paramNoValue : Option ParamState :=
  if st.isTag then none else some (((st.beginValue tmp).endValue tmp 0).addParam)

/-- Where the state is saved and the header ends. -/
def paramEnd : Answer ParamState := .stop { st with status := .eParaValue, saved := .eParaValue }

def paramNul : Answer ParamState :=
  match st.status with
  | .paraName => (paramNoValue tmp (st.endName tmp)).elim .fail paramEnd
  | .sEqual | .sParaValue => (paramNoValue tmp st).elim .fail paramEnd
  | .paraValueToken => paramEnd (st.endValue tmp 0).addParam
  | .eParaValue => paramEnd st
  | _ => .fail

/-- `"`. The length of a quoted value is one less than what is between the quotes. -/
def paramQuote : Answer ParamState :=
  match st.status with
  | .sParaValue => .go ((st.beginValue (tmp + 1)).enter .paraValueQuoted)
  | .paraValueQuoted => .go ((st.endValue tmp 1).addParam.enter .eParaValue)
  | .fCrlf | .fLf | .fCr => .stop st
  | _ => .fail

def paramBegin : Answer ParamState := .go (st.newParam.enter .sParaName)

def paramSemicolon : Answer ParamState :=
  match st.status with
  | .paraValueQuoted => .go st
  | .paraName => (paramNoValue tmp (st.endName tmp)).elim .fail paramBegin
  | .sEqual | .sParaValue => (paramNoValue tmp st).elim .fail paramBegin
  | .paraValueToken => paramBegin (st.endValue tmp 0).addParam
  | .eParaValue => paramBegin st
  | .fCrlf | .fLf | .fCr => .stop st
  | _ => .fail

def paramEqual : Answer ParamState :=
  match st.status with
  | .paraValueQuoted => .go st
  | .tag3 => .go ((st.setTag.endName tmp).enter .sParaValue)
  | .paraName | .tag1 | .tag2 => .go ((st.endName tmp).enter .sParaValue)
  | .sEqual => .go (st.enter .sParaValue)
  | .fCrlf | .fLf | .fCr => .stop st
  | _ => .fail

/-- A character of a name or a value. The letters of the word `tag` differ in the states they lead to. -/
def paramChar (first : ToStatus) (tag : ToStatus → ToStatus) (tmp : Nat) (st : ParamState) : Answer ParamState :=
  match st.status with
  | .paraValueQuoted | .paraValueToken | .paraName => .go st
  | .sParaName => .go ((st.beginName tmp).enter first)
  | .sParaValue => .go ((st.beginValue tmp).enter .paraValueToken)
  | .tag1 | .tag2 | .tag3 => .go (st.enter (tag st.status))
  | .fCrlf | .fLf | .fCr => .stop st
  | _ => .fail

def paramT : Nat → ParamState → Answer ParamState := paramChar .tag1 fun _ => .paraName

def paramA : Nat → ParamState → Answer ParamState := paramChar .paraName fun st =>
    if st = .tag1 then .tag2 else .paraName

def paramG : Nat → ParamState → Answer ParamState := paramChar .paraName fun st =>
    if st = .tag2 then .tag3 else .paraName

def paramDefault : Nat → ParamState → Answer ParamState := paramChar .paraName fun _ => .paraName

end

/-- One turn of the loop of `parse_to_param`. A backslash is an error in every state: in quotes it falls through. -/
def paramStep (tmp : Nat) (c : Char) (st : ParamState) : Answer ParamState :=
  if c = ' ' ∨ c = '\t' then .go (paramBlank tmp st)
  else if c = '\n' then paramLf tmp st
  else if c = '\r' then paramCr tmp st
  else if c = '\x00' then paramNul tmp st
  else if c = '\\' then .fail
  else if c = '"' then paramQuote tmp st
  else if c = ';' then paramSemicolon tmp st
  else if c = 'T' ∨ c = 't' then paramT tmp st
  else if c = 'A' ∨ c = 'a' then paramA tmp st
  else if c = 'G' ∨ c = 'g' then paramG tmp st
  else if c = '=' then paramEqual tmp st
  else paramDefault tmp st

/-- `endofheader` of `parse_to_param`: the body, and the state that is returned. -/
def ParamState.endOfHeader (st : ParamState) : Option (ToBody × ToStatus) :=
  if st.param.isSome ∧ (st.saved = .sEqual ∨ st.saved = .sParaValue) then
    if st.isTag then none
    else some (st.clearValue.addParam.toB, .eParaValue)
  else some (st.toB, st.saved)

/-- `parse_to_param`: the body, the state that is returned, and the place. -/
def parseToParam (tmp : Nat) (cs : List Char) (b : ToBody) : Option (ToBody × ToStatus × Nat) :=
  (Lib.scan paramStep tmp cs ⟨.eParaValue, .eParaValue, none, b⟩).bind fun (st, tmp, _) =>
    st.endOfHeader.map fun (b, status) => (b, status, tmp)

/-! ## Display name and URI -/

/-- The variables of `parse_to`, and whether it has come to the parameters. -/
structure ToState where
  status : ToStatus
  saved : ToStatus
  endMark : Nat
  atParams : Bool
  toB : ToBody
  deriving Repr, DecidableEq

namespace ToState

variable (st : ToState) (tmp : Nat)

def enter (next : ToStatus) : ToState := { st with status := next }

def mark : ToState := { st with endMark := tmp }

def endUri : ToState :=
  { st with toB := { st.toB with uri := { st.toB.uri with len := st.toB.uri.upTo tmp } } }

def beginUri : ToState :=
  { st with toB := { st.toB with uri := { st.toB.uri with s := some tmp } } }

def beginDisplay : ToState :=
  { st with toB := { st.toB with display := { st.toB.display with s := some tmp } } }

def endDisplay : ToState :=
  { st with toB := { st.toB with display := { st.toB.display with len := st.toB.display.upTo tmp } } }

def beginBody : ToState :=
  { st with toB := { st.toB with body := { st.toB.body with s := some tmp } } }

def endBody : ToState :=
  { st with toB := { st.toB with body := { st.toB.body with len := st.toB.body.upTo tmp } } }

end ToState

section
variable (tmp : Nat) (st : ToState)

def toBlank : ToState :=
  match st.status with
  | .fCrlf | .fLf | .fCr => st.enter st.saved
  | .uriEnclosed => (st.endUri tmp).enter .eUriEnclosed
  | .uriOrToken => (st.mark tmp).enter .maybeUriEnd
  | .displayToken => (st.mark tmp).enter .displayToken2
  | _ => st

/-- The end of a line, where `\n` and `\r` do the same: the state is saved. -/
def toLineEnd (mark : ToStatus) (tmp : Nat) (st : ToState) : Answer ToState :=
  match st.status with
  | .uriOrToken => .go ({ st.mark tmp with saved := .maybeUriEnd }.enter mark)
  | .maybeUriEnd | .displayToken | .displayToken2 | .eDisplayQuoted | .finished =>
    .go ({ st with saved := st.status }.enter mark)
  | _ => .fail

def toLf : Answer ToState :=
  match st.status with
  | .fCr => .go (st.enter .fCrlf)
  | .fCrlf | .fLf => .stop (st.enter st.saved)
  | _ => toLineEnd .fLf tmp st

def toCr : Answer ToState :=
  match st.status with
  | .fCrlf | .fCr | .fLf => .stop (st.enter st.saved)
  | _ => toLineEnd .fCr tmp st

def toNul : Answer ToState :=
  match st.status with
  | .uriOrToken | .maybeUriEnd => .stop { st.endUri tmp with status := .finished, saved := .finished }
  | .finished => .stop { st with saved := .finished }
  | _ => .fail

/-- A backslash: in quotes the next character is jumped over. -/
def toBackslash : Answer ToState :=
  match st.status with
  | .displayQuoted => .jump st
  | _ => .fail

def toOpen : Answer ToState :=
  match st.status with
  | .startTo => .go ((st.beginBody tmp).enter .sUriEnclosed)
  | .displayQuoted => .go st
  | .eDisplayQuoted => .go (st.enter .sUriEnclosed)
  | .uriOrToken | .displayToken => .go (((st.mark tmp).endDisplay tmp).enter .sUriEnclosed)
  | .displayToken2 | .maybeUriEnd => .go ((st.endDisplay st.endMark).enter .sUriEnclosed)
  | .fCrlf | .fLf | .fCr => .stop st
  | _ => .fail

def toClose : Answer ToState :=
  match st.status with
  | .displayQuoted => .go st
  | .uriEnclosed => .go ((st.endUri tmp).enter .finished)
  | .eUriEnclosed => .go (st.enter .finished)
  | .fCrlf | .fLf | .fCr => .stop st
  | _ => .fail

def toQuote : Answer ToState :=
  match st.status with
  | .startTo => .go (((st.beginBody tmp).beginDisplay tmp).enter .displayQuoted)
  | .displayQuoted => .go ((st.endDisplay (tmp + 1)).enter .eDisplayQuoted)
  | .fCrlf | .fLf | .fCr => .stop st
  | _ => .fail

/-- `;`: the parameters begin. -/
def toSemicolon : Answer ToState :=
  match st.status with
  | .displayQuoted | .uriEnclosed => .go st
  | .uriOrToken => .stop { ((st.mark tmp).endUri tmp).endBody tmp with atParams := true }
  | .maybeUriEnd => .stop { (st.endUri st.endMark).endBody tmp with atParams := true }
  | .finished => .stop { st.endBody tmp with atParams := true }
  | .fCrlf | .fLf | .fCr => .stop st
  | _ => .fail

def toDefault : Answer ToState :=
  match st.status with
  | .startTo => .go ((((st.beginBody tmp).beginUri tmp).beginDisplay tmp).enter .uriOrToken)
  | .sUriEnclosed => .go ((st.beginUri tmp).enter .uriEnclosed)
  | .maybeUriEnd | .displayToken2 => .go (st.enter .displayToken)
  | .displayQuoted | .displayToken | .uriEnclosed | .uriOrToken => .go st
  | .fCrlf | .fLf | .fCr => .stop st
  | _ => .fail

end

def toStep (tmp : Nat) (c : Char) (st : ToState) : Answer ToState :=
  if c = ' ' ∨ c = '\t' then .go (toBlank tmp st)
  else if c = '\n' then toLf tmp st
  else if c = '\r' then toCr tmp st
  else if c = '\x00' then toNul tmp st
  else if c = '\\' then toBackslash st
  else if c = '<' then toOpen tmp st
  else if c = '>' then toClose tmp st
  else if c = '"' then toQuote tmp st
  else if c = ';' then toSemicolon tmp st
  else toDefault tmp st

/-- `endofheader` of `parse_to`, in the state `status`. -/
def ToState.endOfHeader (st : ToState) (tmp : Nat) (status : ToStatus) : Option ToBody :=
  let b := { st.toB with display := if st.toB.display.len = 0 then { st.toB.display with s := none }
    else st.toB.display }
  let st := { st with toB := b }
  match status with
  | .maybeUriEnd => some ((st.endUri st.endMark).endBody tmp).toB
  | .finished => some (st.endBody tmp).toB
  | .eParaValue => some st.toB
  | _ => none

def ToState.init : ToState := ⟨.startTo, .startTo, 0, false, .null⟩

/-- `parse_to`, on a body that is cleared: the body, if there is no error, and the place that is returned. -/
def parseTo (cs : List Char) : Option (ToBody × Nat) :=
  (Lib.scan toStep 0 cs .init).bind fun (st, tmp, rest) =>
    if st.atParams then
      (parseToParam tmp rest st.toB).bind fun (b, status, tmp) =>
        (ToState.endOfHeader { st with toB := b } tmp status).map fun b => (b, tmp)
    else (st.endOfHeader tmp st.saved).map fun b => (b, tmp)

end OpenSer.Parser
