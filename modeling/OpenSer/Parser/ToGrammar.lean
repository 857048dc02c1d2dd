import OpenSer.Parser.ParseTo

/-!
# The texts of To and From bodies

A body is an address, with or without a display name, and parameters, with white space between them that may be folded.
The texts are given by their parts, so that it is known where each part is.

* `ToText`: a body by its parts, and its text.
* `Exact`: a result of `parse_to` has the parts of a text.
* `ToText.plain`: the texts for which `parse_to` gives that.
-/

namespace OpenSer.Parser

/-! ## White space and words -/

inductive Blank
  | space | tab
  deriving Repr, DecidableEq

def Blank.char : Blank → Char
  | .space => ' '
  | .tab => '\t'

/-- White space: a blank, or the end of a line with the blank that continues it. -/
inductive Ws
  | blank (b : Blank)
  | fold (b : Blank)
  deriving Repr, DecidableEq

def Ws.text : Ws → List Char
  | .blank b => [b.char]
  | .fold b => ['\r', '\n', b.char]

def wsText (ws : List Ws) : List Char := ws.flatMap Ws.text

/-- The characters of a URI in angle brackets, among others. -/
def isUriChar (c : Char) : Bool :=
  !(c = ' ' || c = '\t' || c = '\r' || c = '\n' || c = '\x00' || c = '\\' || c = '"' || c = '<' || c = '>')

/-- The characters of a URI without angle brackets, among others. -/
def isSpecChar (c : Char) : Bool := isUriChar c && c ≠ ';'

/-- The characters of tokens and hosts, among others. -/
def isTokenChar (c : Char) : Bool := isSpecChar c && c ≠ '='

def isQuotedChar (c : Char) : Bool := !(c = '\r' || c = '\n' || c = '\x00' || c = '\\' || c = '"')

/-- Words of such characters are not empty. -/
structure Word (p : Char → Bool) where
  first : Char
  others : List Char
  ok : ∀ c ∈ first :: others, p c = true

def Word.text {p : Char → Bool} (w : Word p) : List Char := w.first :: w.others

/-- What a quoted string is made of: a character, one behind a backslash, or folded white space. -/
inductive Quoted
  | char (c : Char) (ok : isQuotedChar c = true)
  | escaped (c : Char)
  | fold (b : Blank)

def Quoted.text : Quoted → List Char
  | .char c _ => [c]
  | .escaped c => ['\\', c]
  | .fold b => ['\r', '\n', b.char]

def quotedText (qs : List Quoted) : List Char := qs.flatMap Quoted.text

def Quoted.isFold : Quoted → Bool
  | .fold _ => true
  | _ => false

def Quoted.isChar : Quoted → Bool
  | .char _ _ => true
  | _ => false

/-! ## Parameters -/

inductive Value
  | token (t : Word isTokenChar)
  | quoted (qs : List Quoted)

def Value.text : Value → List Char
  | .token t => t.text
  | .quoted qs => '"' :: quotedText qs ++ ['"']

/-- `=` and a value, with white space on both sides of `=`. -/
structure Valued where
  before : List Ws
  after : List Ws
  value : Value

def Valued.text (v : Valued) : List Char := wsText v.before ++ '=' :: wsText v.after ++ v.value.text

/-- `;`, with white space on both sides, a name, and maybe a value. -/
structure GenParam where
  before : List Ws
  after : List Ws
  name : Word isTokenChar
  value : Option Valued

def GenParam.inner (p : GenParam) : List Char := wsText p.after ++ p.name.text ++ p.value.elim [] Valued.text

def GenParam.text (p : GenParam) : List Char := wsText p.before ++ ';' :: p.inner

def GenParam.nameAt (p : GenParam) : Nat := (wsText p.before).length + 1 + (wsText p.after).length

def GenParam.valueAt (p : GenParam) (v : Valued) : Nat :=
  p.nameAt + p.name.text.length + (wsText v.before).length + 1 + (wsText v.after).length

def GenParam.isTag (p : GenParam) : Bool := p.name.text.map Char.toLower = ['t', 'a', 'g']

def GenParam.isTagPrefix (p : GenParam) : Bool :=
  p.name.text.map Char.toLower = ['t'] || p.name.text.map Char.toLower = ['t', 'a']

def GenParam.type (p : GenParam) : ToParamType := if p.isTag then .tagParam else .generalParam

def paramsText (ps : List GenParam) : List Char := ps.flatMap GenParam.text

/-- The parameters with the places where they begin. -/
def placed : Nat → List GenParam → List (Nat × GenParam)
  | _, [] => []
  | o, p :: ps => (o, p) :: placed (o + p.text.length) ps

def lastTag (ps : List (Nat × GenParam)) : Option (Nat × GenParam) := (ps.filter fun q => q.2.isTag).getLast?

/-! ## Addresses -/

/-- A token of a display name behind another one. -/
structure NextToken where
  ws : Ws
  more : List Ws
  token : Word isTokenChar

def NextToken.text (t : NextToken) : List Char := t.ws.text ++ wsText t.more ++ t.token.text

/-- The display name, with the white space behind it. -/
inductive Display
  | none
  | quoted (qs : List Quoted) (ws : List Ws)
  | tokens (t : Word isTokenChar) (ts : List NextToken) (ws : List Ws)

def Display.name : Display → List Char
  | .none => []
  | .quoted qs _ => '"' :: quotedText qs ++ ['"']
  | .tokens t ts _ => t.text ++ ts.flatMap NextToken.text

def Display.ws : Display → List Ws
  | .none => []
  | .quoted _ ws => ws
  | .tokens _ _ ws => ws

def Display.text (d : Display) : List Char := d.name ++ wsText d.ws

/-- An address. A URI in angle brackets does not begin with a semicolon. -/
inductive Addr
  | nameAddr (d : Display) (uri : Word isUriChar) (first : uri.first ≠ ';')
  | addrSpec (uri : Word isSpecChar)

def Addr.text : Addr → List Char
  | .nameAddr d uri _ => d.text ++ '<' :: uri.text ++ ['>']
  | .addrSpec uri => uri.text

def Addr.display : Addr → Str
  | .nameAddr .none _ _ => .null
  | .nameAddr d _ _ => ⟨some 0, d.name.length⟩
  | .addrSpec _ => .null

def Addr.uri : Addr → Str
  | .nameAddr d uri _ => ⟨some (d.text.length + 1), uri.text.length⟩
  | .addrSpec uri => ⟨some 0, uri.text.length⟩

/-- A body: an address, parameters, and white space at the end. -/
structure ToText where
  addr : Addr
  params : List GenParam
  trail : List Ws

def ToText.text (b : ToText) : List Char := b.addr.text ++ paramsText b.params ++ wsText b.trail

/-- What is behind a body: the end of the line, and then nothing or the beginning of a line that does not continue
it. -/
inductive HeaderEnd : List Char → Prop
  | cr : HeaderEnd ['\r']
  | crlf (next : List Char) : (∀ c ∈ next.head?, c ≠ ' ' ∧ c ≠ '\t' ∧ c ≠ '\x00' ∧ c ≠ '\\') →
      HeaderEnd ('\r' :: '\n' :: next)

/-! ## What the result should be -/

/-- The value of a parameter that begins at `o`. A quoted value is all that is between the quotes. -/
def GenParam.ValueIs (o : Nat) (p : GenParam) (x : Str) : Prop :=
  match p.value with
  | none => x.len = 0
  | some v =>
    match v.value with
    | .token t => x = ⟨some (o + p.valueAt v), t.text.length⟩
    | .quoted qs => x = ⟨some (o + p.valueAt v + 1), (quotedText qs).length⟩

def GenParam.nameStr (o : Nat) (p : GenParam) : Str := ⟨some (o + p.nameAt), p.name.text.length⟩

/-- The parameter that begins at `o`. -/
structure GenParam.Is (o : Nat) (p : GenParam) (x : ToParam) : Prop where
  type : x.type = p.type
  name : x.name = p.nameStr o
  value : p.ValueIs o x.value

/-- **The result has the parts of the text.** -/
structure Exact (b : ToText) (out : ToBody) : Prop where
  display : out.display = b.addr.display
  uri : out.uri = b.addr.uri
  params : List.Forall₂ (fun x q => q.2.Is q.1 x) out.params (placed b.addr.text.length b.params)
  tag : (lastTag (placed b.addr.text.length b.params)).elim (out.tagValue = .null) fun q => q.2.ValueIs q.1 out.tagValue

/-! ## The texts for which it is -/

def Ws.isFold : Ws → Bool
  | .fold _ => true
  | _ => false

/-- A quoted display name is not folded. Behind two or more tokens, the white space does not begin with the end of a
line. -/
def Display.plain : Display → Bool
  | .none => true
  | .quoted qs _ => qs.all fun q => !q.isFold
  | .tokens _ ts ws => ts.isEmpty || !ws.head?.any Ws.isFold

def Addr.plain : Addr → Bool
  | .nameAddr d _ _ => d.plain
  | .addrSpec _ => true

/-- A parameter without a value is not named `tag`. If it is named `t` or `ta`, there is no semicolon right behind
it. -/
def GenParam.flagOk (p : GenParam) (semicolon : Bool) : Bool :=
  p.value.isSome || !(p.isTag || p.isTagPrefix && semicolon)

def GenParam.unquoted (p : GenParam) : Bool :=
  match p.value with
  | some ⟨_, _, .quoted _⟩ => false
  | _ => true

/-- There is a semicolon right at the beginning of the parameters. -/
def semicolonNext (ps : List GenParam) : Bool := ps.head?.any fun p => p.before.isEmpty

def flagsOk : List GenParam → Bool
  | [] => true
  | p :: ps => p.flagOk (semicolonNext ps) && flagsOk ps

def ToText.plain (b : ToText) : Bool := b.addr.plain && flagsOk b.params && b.params.all GenParam.unquoted

end OpenSer.Parser
