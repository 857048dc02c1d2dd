import OpenSer.Lib.FlatTrie
import OpenSer.Ut
import Mathlib

/-!
# MIME types

`decode_mime_type` of `parse_content.c`. The names of the types and of the subtypes are flattened tries; the type and
the subtype are walked through them while they are scanned.

* `recognises_typeTree`, `recognises_subtypeTree`: which names the two tries hold.
* `MimeText`: a body by its parts.
* `parseToken_readable`, `parseToken_stops`: a token is walked through to its end, or the scan stops inside it.
* `mimeType_exact_iff`: the bodies on which the answer is right.
-/

namespace OpenSer.Parser

open Option List Lib Lib.FlatTrie Nat

/-! ## The tries -/

def typeText : Nat := 1

def typeMessage : Nat := 2

def typeApplication : Nat := 3

def typeMultipart : Nat := 4

def typeAll : Nat := 0xfe

def typeUnknown : Nat := 0xff

def subtypePlain : Nat := 1

def subtypeCpim : Nat := 2

def subtypeSdp : Nat := 3

def subtypeCplxml : Nat := 4

def subtypePidfxml : Nat := 5

def subtypeRlmixml : Nat := 6

def subtypeRelated : Nat := 7

def subtypeLpidfxml : Nat := 8

def subtypeXpidfxml : Nat := 9

def subtypeWatcherinfoxml : Nat := 10

def subtypeExternalBody : Nat := 11

def subtypeXmlMsrtcPidf : Nat := 12

def subtypeSms : Nat := 13

def subtypeMixed : Nat := 14

def subtypeAll : Nat := 0xfe

def subtypeUnknown : Nat := 0xff

abbrev TypeNode := Node Char

def typeTree : List TypeNode := [
  ⟨'t', typeUnknown, 1, some 4⟩, ⟨'e', typeUnknown, 1, none⟩, ⟨'x', typeUnknown, 1, none⟩, ⟨'t', typeText, 0, none⟩,
  ⟨'m', typeUnknown, 2, some 19⟩, ⟨'e', typeUnknown, 1, some 11⟩, ⟨'s', typeUnknown, 1, none⟩,
  ⟨'s', typeUnknown, 1, none⟩, ⟨'a', typeUnknown, 1, none⟩, ⟨'g', typeUnknown, 1, none⟩, ⟨'e', typeMessage, 0, none⟩,
  ⟨'u', typeUnknown, 1, none⟩, ⟨'l', typeUnknown, 1, none⟩, ⟨'t', typeUnknown, 1, none⟩, ⟨'i', typeUnknown, 1, none⟩,
  ⟨'p', typeUnknown, 1, none⟩, ⟨'a', typeUnknown, 1, none⟩, ⟨'r', typeUnknown, 1, none⟩,
  ⟨'t', typeMultipart, 0, none⟩, ⟨'a', typeUnknown, 1, none⟩, ⟨'p', typeUnknown, 1, none⟩,
  ⟨'p', typeUnknown, 1, none⟩, ⟨'l', typeUnknown, 1, none⟩, ⟨'i', typeUnknown, 1, none⟩, ⟨'c', typeUnknown, 1, none⟩,
  ⟨'a', typeUnknown, 1, none⟩, ⟨'t', typeUnknown, 1, none⟩, ⟨'i', typeUnknown, 1, none⟩, ⟨'o', typeUnknown, 1, none⟩,
  ⟨'n', typeApplication, 0, none⟩]

def subtypeTree : List TypeNode := [
  ⟨'p', subtypeUnknown, 2, some 12⟩, ⟨'l', subtypeUnknown, 1, some 5⟩, ⟨'a', subtypeUnknown, 1, none⟩,
  ⟨'i', subtypeUnknown, 1, none⟩, ⟨'n', subtypePlain, 0, none⟩, ⟨'i', subtypeUnknown, 1, none⟩,
  ⟨'d', subtypeUnknown, 1, none⟩, ⟨'f', subtypeUnknown, 1, none⟩, ⟨'+', subtypeUnknown, 1, none⟩,
  ⟨'x', subtypeUnknown, 1, none⟩, ⟨'m', subtypeUnknown, 1, none⟩, ⟨'l', subtypePidfxml, 0, none⟩,
  ⟨'s', subtypeUnknown, 2, some 36⟩, ⟨'d', subtypeUnknown, 1, some 15⟩, ⟨'p', subtypeSdp, 0, none⟩,
  ⟨'i', subtypeUnknown, 1, none⟩, ⟨'m', subtypeUnknown, 1, none⟩, ⟨'p', subtypeUnknown, 1, none⟩,
  ⟨'l', subtypeUnknown, 1, none⟩, ⟨'e', subtypeUnknown, 1, none⟩, ⟨'-', subtypeUnknown, 1, none⟩,
  ⟨'m', subtypeUnknown, 1, none⟩, ⟨'e', subtypeUnknown, 1, none⟩, ⟨'s', subtypeUnknown, 1, none⟩,
  ⟨'s', subtypeUnknown, 1, none⟩, ⟨'a', subtypeUnknown, 1, none⟩, ⟨'g', subtypeUnknown, 1, none⟩,
  ⟨'e', subtypeUnknown, 1, none⟩, ⟨'-', subtypeUnknown, 1, none⟩, ⟨'s', subtypeUnknown, 1, none⟩,
  ⟨'u', subtypeUnknown, 1, none⟩, ⟨'m', subtypeUnknown, 1, none⟩, ⟨'m', subtypeUnknown, 1, none⟩,
  ⟨'a', subtypeUnknown, 1, none⟩, ⟨'r', subtypeUnknown, 1, none⟩, ⟨'y', subtypeSms, 0, none⟩,
  ⟨'c', subtypeUnknown, 1, some 45⟩, ⟨'p', subtypeUnknown, 2, none⟩, ⟨'i', subtypeUnknown, 1, some 40⟩,
  ⟨'m', subtypeCpim, 0, none⟩, ⟨'l', subtypeUnknown, 1, none⟩, ⟨'+', subtypeUnknown, 1, none⟩,
  ⟨'x', subtypeUnknown, 1, none⟩, ⟨'m', subtypeUnknown, 1, none⟩, ⟨'l', subtypeCplxml, 0, none⟩,
  ⟨'r', subtypeUnknown, 2, some 59⟩, ⟨'l', subtypeUnknown, 1, some 53⟩, ⟨'m', subtypeUnknown, 1, none⟩,
  ⟨'i', subtypeUnknown, 1, none⟩, ⟨'+', subtypeUnknown, 1, none⟩, ⟨'x', subtypeUnknown, 1, none⟩,
  ⟨'m', subtypeUnknown, 1, none⟩, ⟨'l', subtypeRlmixml, 0, none⟩, ⟨'e', subtypeUnknown, 1, none⟩,
  ⟨'l', subtypeUnknown, 1, none⟩, ⟨'a', subtypeUnknown, 1, none⟩, ⟨'t', subtypeUnknown, 1, none⟩,
  ⟨'e', subtypeUnknown, 1, none⟩, ⟨'d', subtypeRelated, 0, none⟩, ⟨'l', subtypeUnknown, 1, some 68⟩,
  ⟨'p', subtypeUnknown, 1, none⟩, ⟨'i', subtypeUnknown, 1, none⟩, ⟨'d', subtypeUnknown, 1, none⟩,
  ⟨'f', subtypeUnknown, 1, none⟩, ⟨'+', subtypeUnknown, 1, none⟩, ⟨'x', subtypeUnknown, 1, none⟩,
  ⟨'m', subtypeUnknown, 1, none⟩, ⟨'l', subtypeLpidfxml, 0, none⟩, ⟨'w', subtypeUnknown, 1, some 83⟩,
  ⟨'a', subtypeUnknown, 1, none⟩, ⟨'t', subtypeUnknown, 1, none⟩, ⟨'c', subtypeUnknown, 1, none⟩,
  ⟨'h', subtypeUnknown, 1, none⟩, ⟨'e', subtypeUnknown, 1, none⟩, ⟨'r', subtypeUnknown, 1, none⟩,
  ⟨'i', subtypeUnknown, 1, none⟩, ⟨'n', subtypeUnknown, 1, none⟩, ⟨'f', subtypeUnknown, 1, none⟩,
  ⟨'o', subtypeUnknown, 1, none⟩, ⟨'+', subtypeUnknown, 1, none⟩, ⟨'x', subtypeUnknown, 1, none⟩,
  ⟨'m', subtypeUnknown, 1, none⟩, ⟨'l', subtypeWatcherinfoxml, 0, none⟩, ⟨'x', subtypeUnknown, 2, some 105⟩,
  ⟨'p', subtypeUnknown, 1, some 92⟩, ⟨'i', subtypeUnknown, 1, none⟩, ⟨'d', subtypeUnknown, 1, none⟩,
  ⟨'f', subtypeUnknown, 1, none⟩, ⟨'+', subtypeUnknown, 1, none⟩, ⟨'x', subtypeUnknown, 1, none⟩,
  ⟨'m', subtypeUnknown, 1, none⟩, ⟨'l', subtypeXpidfxml, 0, none⟩, ⟨'m', subtypeUnknown, 1, none⟩,
  ⟨'l', subtypeUnknown, 1, none⟩, ⟨'+', subtypeUnknown, 1, none⟩, ⟨'m', subtypeUnknown, 1, none⟩,
  ⟨'s', subtypeUnknown, 1, none⟩, ⟨'r', subtypeUnknown, 1, none⟩, ⟨'t', subtypeUnknown, 1, none⟩,
  ⟨'c', subtypeUnknown, 1, none⟩, ⟨'.', subtypeUnknown, 1, none⟩, ⟨'p', subtypeUnknown, 1, none⟩,
  ⟨'i', subtypeUnknown, 1, none⟩, ⟨'d', subtypeUnknown, 1, none⟩, ⟨'f', subtypeXmlMsrtcPidf, 0, none⟩,
  ⟨'e', subtypeUnknown, 1, some 118⟩, ⟨'x', subtypeUnknown, 1, none⟩, ⟨'t', subtypeUnknown, 1, none⟩,
  ⟨'e', subtypeUnknown, 1, none⟩, ⟨'r', subtypeUnknown, 1, none⟩, ⟨'n', subtypeUnknown, 1, none⟩,
  ⟨'a', subtypeUnknown, 1, none⟩, ⟨'l', subtypeUnknown, 1, none⟩, ⟨'-', subtypeUnknown, 1, none⟩,
  ⟨'b', subtypeUnknown, 1, none⟩, ⟨'o', subtypeUnknown, 1, none⟩, ⟨'d', subtypeUnknown, 1, none⟩,
  ⟨'y', subtypeExternalBody, 0, none⟩, ⟨'m', subtypeUnknown, 1, none⟩, ⟨'i', subtypeUnknown, 1, none⟩,
  ⟨'x', subtypeUnknown, 1, none⟩, ⟨'e', subtypeUnknown, 1, none⟩, ⟨'d', subtypeMixed, 0, none⟩]

def isMimeChar (c : Char) : Bool := c.isAlpha || c == '-' || c == '+' || c == '.'

def isCharEqual (c cs : Char) : Bool := if c.isAlpha then Char.ofNat (c.toNat ||| 0x20) == cs else c == cs

/-! ## The decoder -/

/-- The white space that `decode_mime_type` skips; `next` is the byte behind the body. -/
def skipWs (next : Char) : Str → Str
  | [] => []
  | p :: s =>
    if p = ' ' ∨ p = '\t' ∨ (p = '\n' ∧ (s.headD next = ' ' ∨ s.headD next = '\t')) then skipWs next s else p :: s

/-- "parse the type" and "parse the sub-type": the constant, and what is left. -/
def parseToken (tree : List TypeNode) (all unknown : Nat) (p : Str) : Option (Nat × Str) :=
  if p.head? = some '*' then some (all, p.tail)
  else
    let mark := p.takeWhile isMimeChar
    if mark = [] then none else some (result isCharEqual tree unknown mark, p.drop mark.length)

/-- "if there are params, ignore them": up to the first comma. -/
def skipParams (p : Str) : Str := if p.head? = some ';' then p.tail.dropWhile (· ≠ ',') else p

/-- `decode_mime_type`: `*mime_type`, and what is left; `none` when it returns 0. -/
def decodeMimeType (s : Str) (next : Char) : Option (Nat × Str) := do
  let p := skipWs next s
  if p = [] then none
  let (type, p) ← parseToken typeTree typeAll typeUnknown p
  let p := skipWs next p
  if p.head? ≠ some '/' then none
  let p := skipWs next p.tail
  if p = [] then none
  let (subtype, p) ← parseToken subtypeTree subtypeAll subtypeUnknown p
  let mimeType := type <<< 16 ||| subtype
  let p := skipParams (skipWs next p)
  if p ≠ [] ∧ p.head? ≠ some ',' then none
  -- the format `*/submime`
  if mimeType >>> 16 = typeAll ∧ mimeType &&& 0x00ff ≠ subtypeAll then none
  some (mimeType, p)

/-! ## The names -/

def low (c : Char) : Char := if c.isAlpha then Char.ofNat (c.toNat ||| 0x20) else c

theorem isCharEqual_eq (p c : Char) : isCharEqual p c = decide (low p = c) := by
  unfold isCharEqual low
  split
  · exact (Bool.beq_eq_decide_eq _ _)
  · exact (Bool.beq_eq_decide_eq _ _)

theorem isAlpha_lt {c : Char} (h : c.isAlpha = true) : c.toNat < 128 := by
  simp only [Char.isAlpha, Char.isUpper, Char.isLower, Bool.or_eq_true, Bool.and_eq_true, decide_eq_true_eq] at h
  rcases h with ⟨-, h⟩ | ⟨-, h⟩
  · exact lt_of_le_of_lt (UInt32.le_iff_toNat_le.mp h) (by decide)
  · exact lt_of_le_of_lt (UInt32.le_iff_toNat_le.mp h) (by decide)

theorem low_low (p : Char) : low (low p) = low p := by
  by_cases hp : p.isAlpha = true
  · have hlt : p.toNat ||| 0x20 < 2 ^ 7 := or_lt_two_pow (isAlpha_lt hp) (by decide)
    have hval : (Char.ofNat (p.toNat ||| 0x20)).toNat = p.toNat ||| 0x20 := by
      rw [Char.ofNat, dif_pos (.inl (by omega))]
      rfl
    have hlow : low p = Char.ofNat (p.toNat ||| 0x20) := if_pos hp
    rw [hlow, low]
    split
    · rw [hval, Nat.or_assoc, Nat.or_self]
    · rfl
  · have hlow : low p = p := if_neg hp
    rw [hlow, hlow]

def typeNames : List (Str × Nat) :=
  [("text".toList, typeText), ("message".toList, typeMessage), ("multipart".toList, typeMultipart),
    ("application".toList, typeApplication)]

def subtypeNames : List (Str × Nat) :=
  [("plain".toList, subtypePlain), ("pidf+xml".toList, subtypePidfxml), ("sdp".toList, subtypeSdp),
    ("simple-message-summary".toList, subtypeSms), ("cpim".toList, subtypeCpim), ("cpl+xml".toList, subtypeCplxml),
    ("rlmi+xml".toList, subtypeRlmixml), ("related".toList, subtypeRelated), ("lpidf+xml".toList, subtypeLpidfxml),
    ("watcherinfo+xml".toList, subtypeWatcherinfoxml), ("xpidf+xml".toList, subtypeXpidfxml),
    ("xml+msrtc.pidf".toList, subtypeXmlMsrtcPidf), ("external-body".toList, subtypeExternalBody),
    ("mixed".toList, subtypeMixed)]

theorem recognises_typeTree :
    Recognises low typeTree (visits typeTree typeTree.length 0 []) typeNames typeUnknown := by
  constructor <;> decide +kernel

theorem recognises_subtypeTree :
    Recognises low subtypeTree (visits subtypeTree subtypeTree.length 0 []) subtypeNames subtypeUnknown := by
  constructor <;> decide +kernel

/-! ## The texts of bodies -/

/-- The characters of a token: visible ones that are no separators. -/
def isTypeChar (c : Char) : Bool := ' ' < c && c < '\x7f' && !"()<>@,;:\\\"/[]?=".toList.contains c

structure Token where
  text : Str
  ne : text ≠ []
  ok : ∀ c ∈ text, isTypeChar c = true

/-- White space: a blank, or the end of a line, with or without a CR, and the blank that continues it. -/
inductive Lws
  | blank (tab : Bool)
  | fold (cr tab : Bool)
  deriving Repr, DecidableEq

def Lws.text : Lws → Str
  | .blank tab => [if tab then '\t' else ' ']
  | .fold cr tab => (if cr then ['\r'] else []) ++ ['\n', if tab then '\t' else ' ']

def Lws.hasCr : Lws → Bool
  | .blank _ => false
  | .fold cr _ => cr

def lwsText (ws : List Lws) : Str := ws.flatMap Lws.text

/-- **A body by its parts**: a type, a slash and a subtype, with white space, and what is behind them: parameters, or
the next body. A `*` for the type has a `*` for the subtype. -/
structure MimeText where
  type : Token
  subtype : Token
  front : List Lws
  beforeSlash : List Lws
  afterSlash : List Lws
  back : List Lws
  tail : Str
  tail_ok : tail = [] ∨ tail.head? = some ';' ∨ tail.head? = some ','
  range : type.text = ['*'] → subtype.text = ['*']

def MimeText.text (t : MimeText) : Str :=
  lwsText t.front ++ (t.type.text ++ (lwsText t.beforeSlash ++ '/' :: (lwsText t.afterSlash ++ (t.subtype.text ++
    (lwsText t.back ++ t.tail)))))

/-- What a token means: `*`, a name of the trie in any case of its letters, or something unknown. -/
def mimeConstant (names : List (Str × Nat)) (all unknown : Nat) (token : Str) : Nat :=
  if token = ['*'] then all else Recognises.answer low names unknown token

/-- The answer for a body. -/
def MimeText.mimeType (t : MimeText) : Nat :=
  mimeConstant typeNames typeAll typeUnknown t.type.text <<< 16 |||
    mimeConstant subtypeNames subtypeAll subtypeUnknown t.subtype.text

/-- A token of letters, hyphens, pluses and dots, or a `*`. -/
def Readable (token : Str) : Prop := token = ['*'] ∨ ∀ c ∈ token, isMimeChar c = true

/-- The bodies that are read as they should be: no line ends with CR LF, and each token is readable and no name whose
last letter is left out or repeated. -/
structure MimeText.Plain (t : MimeText) : Prop where
  noCr : ∀ w ∈ t.front ++ t.beforeSlash ++ t.afterSlash ++ t.back, w.hasCr = false
  typeReadable : Readable t.type.text
  subtypeReadable : Readable t.subtype.text
  type : ¬Recognises.Stretched low typeNames t.type.text
  subtype : ¬Recognises.Stretched low subtypeNames t.subtype.text

/-! ## White space -/

theorem skipWs_stop {c : Char} (h1 : c ≠ ' ') (h2 : c ≠ '\t') (h3 : c ≠ '\n') (next : Char) (s : Str) :
    skipWs next (c :: s) = c :: s := by
  rw [skipWs, if_neg (by tauto)]

/-- **White space without CR** is skipped. -/
theorem skipWs_lws (next : Char) (rest : Str) {ws : List Lws} (h : ∀ w ∈ ws, w.hasCr = false) :
    skipWs next (lwsText ws ++ rest) = skipWs next rest := by
  induction ws with
  | nil => rfl
  | cons w ws ih =>
    obtain ⟨hw, hws⟩ := forall_mem_cons.mp h
    rw [lwsText, flatMap_cons, append_assoc, ← lwsText]
    cases w with
    | blank tab => cases tab <;> simp [Lws.text, skipWs, ih hws]
    | fold cr tab =>
      obtain rfl : cr = false := hw
      cases tab <;> simp [Lws.text, skipWs, ih hws]

/-- A CR stops the scan. -/
theorem skipWs_cr (next : Char) (rest : Str) {ws : List Lws} (h : ¬∀ w ∈ ws, w.hasCr = false) :
    (skipWs next (lwsText ws ++ rest)).head? = some '\r' := by
  induction ws with
  | nil => exact absurd (forall_mem_nil _) h
  | cons w ws ih =>
    rw [lwsText, flatMap_cons, append_assoc, ← lwsText]
    cases w with
    | blank tab =>
      have hws : ¬∀ w ∈ ws, w.hasCr = false := fun hws => h (forall_mem_cons.mpr ⟨rfl, hws⟩)
      cases tab <;> simpa [Lws.text, skipWs] using ih hws
    | fold cr tab =>
      cases cr with
      | true => simp [Lws.text, skipWs]
      | false =>
        have hws : ¬∀ w ∈ ws, w.hasCr = false := fun hws => h (forall_mem_cons.mpr ⟨rfl, hws⟩)
        cases tab <;> simpa [Lws.text, skipWs] using ih hws

/-! ## Tokens -/

def tokenResult (tree : List TypeNode) (all unknown : Nat) (token : Str) : Nat :=
  if token = ['*'] then all else result isCharEqual tree unknown token

section
variable {tree : List TypeNode} {all unknown : Nat} {rest : Str} {next c : Char}

theorem ne_of_isTypeChar (h : isTypeChar c = true) {d : Char} (hd : isTypeChar d = false) : c ≠ d := by
  rintro rfl
  rw [h] at hd
  cases hd

theorem skipWs_word (w : Token) : skipWs next (w.text ++ rest) = w.text ++ rest := by
  obtain ⟨c, s, hs⟩ := exists_cons_of_ne_nil w.ne
  have hfirst := w.ok c (by simp [hs])
  rw [hs]
  exact skipWs_stop (ne_of_isTypeChar hfirst rfl) (ne_of_isTypeChar hfirst rfl) (ne_of_isTypeChar hfirst rfl) next _

/-- A readable token is walked through to its end. -/
theorem parseToken_readable (w : Token) (hw : Readable w.text) (hrest : ∀ d ∈ rest.head?, isMimeChar d = false) :
    parseToken tree all unknown (w.text ++ rest) = some (tokenResult tree all unknown w.text, rest) := by
  unfold parseToken tokenResult
  rcases hw with hstar | hmime
  · simp [hstar]
  · obtain ⟨c, s, hs⟩ := exists_cons_of_ne_nil w.ne
    have hne : c ≠ '*' := by
      rintro rfl
      have hc := hmime '*' (by simp [hs])
      revert hc
      decide
    have htake : (w.text ++ rest).takeWhile isMimeChar = w.text := by
      rw [takeWhile_append_of_pos hmime]
      cases rest with
      | nil => simp
      | cons d rest => simp [hrest d rfl]
    have hstar : w.text ≠ ['*'] := fun h => hne (cons.inj (hs.symm.trans h)).1
    have hhead : (w.text ++ rest).head? ≠ some '*' := by simpa [hs] using hne
    rw [if_neg hhead, if_neg hstar, htake, if_neg w.ne, drop_left]

/-- The scan of another token fails, or it stops at one of its characters. -/
theorem parseToken_stops (w : Token) (hw : ¬Readable w.text) {k : Nat} {p : Str}
    (h : parseToken tree all unknown (w.text ++ rest) = some (k, p)) : ∃ c ∈ p.head?, isTypeChar c = true := by
  unfold parseToken at h
  by_cases hstar : (w.text ++ rest).head? = some '*'
  · rw [if_pos hstar] at h
    cases h
    obtain ⟨c, s, hs⟩ := exists_cons_of_ne_nil w.ne
    obtain rfl : c = '*' := by simpa [hs] using hstar
    cases s with
    | nil => exact absurd (.inl hs) hw
    | cons d s => exact ⟨d, by simp [hs], w.ok d (by simp [hs])⟩
  · rw [if_neg hstar] at h
    obtain ⟨-, h⟩ := ite_none_left_eq_some.mp h
    cases h
    -- the first character of the token that is none of a name
    have hlen : (w.text.takeWhile isMimeChar).length ≠ w.text.length := by
      intro hlen
      have heq := ( takeWhile_prefix isMimeChar).eq_of_length hlen
      exact hw (.inr (takeWhile_eq_self_iff.mp heq))
    rw [takeWhile_append, if_neg hlen]
    have hlt := lt_of_le_of_ne ( takeWhile_prefix isMimeChar).length_le hlen
    refine ⟨w.text.get ⟨_, hlt⟩, ?_, w.ok _ (get_mem _ _)⟩
    rw [head?_drop, getElem?_append_left hlt]
    simp

theorem result_lt {b : Nat} (hb : ∀ x ∈ tree, x.final < b) (hunknown : unknown < b) (t : Str) :
    result isCharEqual tree unknown t < b := by
  unfold result
  cases walk isCharEqual tree t with
  | none => exact hunknown
  | some n =>
    dsimp only
    cases hx : tree[n]? with
    | none => exact hunknown
    | some x => exact hb x (mem_of_getElem? hx)

theorem subtypeResult_lt (t : Str) : tokenResult subtypeTree subtypeAll subtypeUnknown t < 2 ^ 8 := by
  unfold tokenResult
  split
  · decide
  · exact result_lt (by decide +kernel) (by decide) t

theorem subtypeConstant_lt (t : Str) : mimeConstant subtypeNames subtypeAll subtypeUnknown t < 2 ^ 8 := by
  have hnames : ∀ w ∈ subtypeNames, w.2 < 2 ^ 8 := by decide +kernel
  unfold mimeConstant
  split
  · decide
  · rcases Recognises.answer_cases low subtypeNames subtypeUnknown t with ⟨K, hK, h⟩ | ⟨-, h⟩ <;> rw [h]
    · exact hnames _ hK
    · decide

theorem typeResult_eq_all {t : Str} (h : tokenResult typeTree typeAll typeUnknown t = typeAll) : t = ['*'] := by
  by_contra hstar
  rw [tokenResult, if_neg hstar, result] at h
  revert h
  cases walk isCharEqual typeTree t with
  | none => decide
  | some n =>
    dsimp only
    cases hx : typeTree[n]? with
    | none => decide
    | some x =>
      have hall : ∀ x ∈ typeTree, x.final ≠ typeAll := by decide +kernel
      exact hall x (mem_of_getElem? hx)

/-- A wildcard is no stretched name: every name has a second letter. -/
theorem not_stretched_star {names : List (Str × Nat)} (hlong : ∀ w ∈ names, 3 ≤ w.1.length) :
    ¬Recognises.Stretched low names ['*'] := by
  rintro ⟨w, c, K, k, hmem, -, ht⟩
  have hw : 3 ≤ (w ++ [c]).length := hlong _ hmem
  have hlen := congrArg List.length ht
  simp only [length_append, length_cons, length_nil, length_map, length_replicate] at hw hlen
  omega

/-- **The result for a token** is what it means unless it is stretched. -/
theorem tokenResult_eq_iff (all : Nat) {vs : List (Nat × Str)} {names : List (Str × Nat)}
    (h : Recognises low tree vs names unknown) (hlong : ∀ w ∈ names, 3 ≤ w.1.length) (t : Str) :
    tokenResult tree all unknown t = mimeConstant names all unknown t ↔ ¬Recognises.Stretched low names t := by
  unfold tokenResult mimeConstant
  by_cases hstar : t = ['*']
  · subst hstar
    simp only [if_true, true_iff]
    exact not_stretched_star hlong
  · rw [if_neg hstar, if_neg hstar]
    exact h.result_eq_iff isCharEqual_eq low_low t

end

/-! ## The bodies that are decoded exactly -/

section
variable {t : MimeText} {next : Char}

/-- Behind a token there is white space or the end of the tokens, and no letter. -/
theorem head_lws (ws : List Lws) {rest : Str} (hrest : ∀ d ∈ rest.head?, isMimeChar d = false) :
    ∀ d ∈ (lwsText ws ++ rest).head?, isMimeChar d = false := by
  cases ws with
  | nil => exact hrest
  | cons w ws =>
    rw [lwsText, flatMap_cons, append_assoc]
    cases w with
    | blank tab => cases tab <;> simp [Lws.text, isMimeChar]
    | fold cr tab => cases cr <;> simp [Lws.text, isMimeChar]

theorem MimeText.head_tail (t : MimeText) : ∀ d ∈ t.tail.head?, isMimeChar d = false := by
  rcases t.tail_ok with h | h | h <;> simp [h, isMimeChar]

theorem MimeText.skipWs_tail (t : MimeText) (next : Char) : skipWs next t.tail = t.tail := by
  rcases t.tail_ok with h | h | h
  · rw [h, skipWs]
  all_goals
    obtain ⟨s, hs⟩ := head?_eq_some_iff.mp h
    rw [hs, skipWs_stop (by decide) (by decide) (by decide)]

/-- **A body with readable tokens and no CR**: the answer is made of the results for the two tokens. -/
theorem decodeMimeType_readable (hcr : ∀ w ∈ t.front ++ t.beforeSlash ++ t.afterSlash ++ t.back, w.hasCr = false)
    (htype : Readable t.type.text) (hsub : Readable t.subtype.text) :
    decodeMimeType t.text next = some (tokenResult typeTree typeAll typeUnknown t.type.text <<< 16 |||
      tokenResult subtypeTree subtypeAll subtypeUnknown t.subtype.text, skipParams t.tail) := by
  simp only [mem_append, or_imp, forall_and] at hcr
  obtain ⟨⟨⟨hfront, hbefore⟩, hafter⟩, hback⟩ := hcr
  have hlt := subtypeResult_lt t.subtype.text
  have hrange : ¬((tokenResult typeTree typeAll typeUnknown t.type.text <<< 16 |||
      tokenResult subtypeTree subtypeAll subtypeUnknown t.subtype.text) >>> 16 = typeAll ∧
      (tokenResult typeTree typeAll typeUnknown t.type.text <<< 16 |||
        tokenResult subtypeTree subtypeAll subtypeUnknown t.subtype.text) &&& 0x00ff ≠ subtypeAll) := by
    rw [← shiftLeft_add_eq_or_of_lt (hlt.trans (by decide)), show (0x00ff : Nat) = 2 ^ 8 - 1 from rfl,
      and_two_pow_sub_one_eq_mod]
    rintro ⟨hall, hnot⟩
    have hstar := typeResult_eq_all (t := t.type.text) (by omega)
    have hsubtype : tokenResult subtypeTree subtypeAll subtypeUnknown t.subtype.text = subtypeAll := by
      rw [tokenResult, if_pos (t.range hstar)]
    omega
  have hend : ¬(skipParams t.tail ≠ [] ∧ (skipParams t.tail).head? ≠ some ',') := by
    rintro ⟨hne, hcomma⟩
    unfold skipParams at hne hcomma
    split at hne
    · rename_i h
      rw [if_pos h] at hcomma
      obtain ⟨c, s, hs⟩ := exists_cons_of_ne_nil hne
      have hc := head_dropWhile_not (· ≠ ',') hne
      simp only [hs] at hc hcomma
      simp_all
    · rename_i h
      rw [if_neg h] at hcomma
      rcases t.tail_ok with h' | h' | h'
      · exact hne h'
      · exact h h'
      · exact hcomma h'
  have hslash : ∀ rest, ∀ d ∈ (lwsText t.beforeSlash ++ '/' :: rest).head?, isMimeChar d = false :=
    fun rest => head_lws _ (by simp [isMimeChar])
  have htail := head_lws t.back t.head_tail
  unfold decodeMimeType MimeText.text
  simp only [skipWs_lws _ _ hfront, skipWs_word, parseToken_readable _ htype (hslash _), skipWs_lws _ _ hbefore,
    skipWs_lws _ _ hafter, skipWs_lws _ _ hback, parseToken_readable _ hsub htail, t.skipWs_tail,
    skipWs_stop (c := '/') (by decide) (by decide) (by decide), head?_cons, tail_cons, Option.bind_eq_bind,
    Option.bind_some, if_neg hrange, if_neg hend]
  simp [t.type.ne, t.subtype.ne]

theorem parseToken_other {tree : List TypeNode} {all unknown : Nat} {p : Str} {c : Char} (hp : p.head? = some c)
    (hstar : c ≠ '*') (hc : isMimeChar c = false) : parseToken tree all unknown p = none := by
  obtain ⟨s, rfl⟩ := head?_eq_some_iff.mp hp
  simp [parseToken, hstar, hc]

/-- The scan goes on from a character that is no white space. -/
theorem skipWs_type {p : Str} {c : Char} (hp : p.head? = some c) (hc : isTypeChar c = true) : skipWs next p = p := by
  obtain ⟨s, rfl⟩ := head?_eq_some_iff.mp hp
  exact skipWs_stop (ne_of_isTypeChar hc rfl) (ne_of_isTypeChar hc rfl) (ne_of_isTypeChar hc rfl) next s

theorem skipParams_other {p : Str} {c : Char} (hp : p.head? = some c) (hsemi : c ≠ ';') (hcomma : c ≠ ',') :
    skipParams p ≠ [] ∧ (skipParams p).head? ≠ some ',' := by
  obtain ⟨s, rfl⟩ := head?_eq_some_iff.mp hp
  simp [skipParams, hsemi, hcomma]

/-- **A body that is decoded** has readable tokens and no CR: the scan would stop anywhere else. -/
theorem readable_of_decode {r : Nat × Str} (h : decodeMimeType t.text next = some r) :
    (∀ w ∈ t.front ++ t.beforeSlash ++ t.afterSlash ++ t.back, w.hasCr = false) ∧ Readable t.type.text ∧
      Readable t.subtype.text := by
  unfold decodeMimeType MimeText.text at h
  obtain ⟨-, h⟩ := ite_none_left_eq_some.mp h
  obtain ⟨⟨type, p⟩, htype, h⟩ := bind_eq_some_iff.mp h
  obtain ⟨hslash, h⟩ := ite_none_left_eq_some.mp h
  obtain ⟨-, h⟩ := ite_none_left_eq_some.mp h
  obtain ⟨⟨subtype, q⟩, hsubtype, h⟩ := bind_eq_some_iff.mp h
  obtain ⟨hend, -⟩ := ite_none_left_eq_some.mp h
  have hfront : ∀ w ∈ t.front, w.hasCr = false := by
    by_contra hcr
    rw [parseToken_other (skipWs_cr next _ hcr) (by decide) (by decide)] at htype
    cases htype
  rw [skipWs_lws _ _ hfront, skipWs_word] at htype
  have hreadable : Readable t.type.text := by
    by_contra hno
    obtain ⟨c, hp, hc⟩ := parseToken_stops _ hno htype
    rw [skipWs_type hp hc] at hslash
    exact hslash fun h => ne_of_isTypeChar hc rfl (some.inj (hp.symm.trans h))
  rw [parseToken_readable _ hreadable (head_lws _ (by simp [isMimeChar]))] at htype
  cases htype
  have hbefore : ∀ w ∈ t.beforeSlash, w.hasCr = false := by
    by_contra hcr
    rw [skipWs_cr next _ hcr] at hslash
    exact hslash (by decide)
  rw [skipWs_lws _ _ hbefore, skipWs_stop (by decide) (by decide) (by decide), tail_cons] at hsubtype
  have hafter : ∀ w ∈ t.afterSlash, w.hasCr = false := by
    by_contra hcr
    rw [parseToken_other (skipWs_cr next _ hcr) (by decide) (by decide)] at hsubtype
    cases hsubtype
  rw [skipWs_lws _ _ hafter, skipWs_word] at hsubtype
  have hreadable' : Readable t.subtype.text := by
    by_contra hno
    obtain ⟨c, hp, hc⟩ := parseToken_stops _ hno hsubtype
    rw [skipWs_type hp hc] at hend
    exact hend (skipParams_other hp (ne_of_isTypeChar hc rfl) (ne_of_isTypeChar hc rfl))
  rw [parseToken_readable _ hreadable' (head_lws _ t.head_tail)] at hsubtype
  cases hsubtype
  have hback : ∀ w ∈ t.back, w.hasCr = false := by
    by_contra hcr
    exact hend (skipParams_other (skipWs_cr next _ hcr) (by decide) (by decide))
  simp only [mem_append, or_imp, forall_and]
  exact ⟨⟨⟨⟨hfront, hbefore⟩, hafter⟩, hback⟩, hreadable, hreadable'⟩

end

/-- **Exactly when** a body is decoded to what its tokens mean: when it is plain. -/
theorem mimeType_exact_iff (t : MimeText) (next : Char) :
    decodeMimeType t.text next = some (t.mimeType, skipParams t.tail) ↔ t.Plain := by
  have htype := tokenResult_eq_iff typeAll recognises_typeTree (by decide) t.type.text
  have hsubtype := tokenResult_eq_iff subtypeAll recognises_subtypeTree (by decide) t.subtype.text
  constructor
  · intro h
    obtain ⟨hcr, hread, hread'⟩ := readable_of_decode h
    rw [decodeMimeType_readable hcr hread hread', MimeText.mimeType] at h
    have hor := congrArg Prod.fst (some.inj h)
    have hlt := subtypeResult_lt t.subtype.text
    have hlt' := subtypeConstant_lt t.subtype.text
    rw [← shiftLeft_add_eq_or_of_lt (hlt.trans (by decide)), ← shiftLeft_add_eq_or_of_lt
      (hlt'.trans (by decide))] at hor
    exact ⟨hcr, hread, hread', htype.mp (by omega), hsubtype.mp (by omega)⟩
  · rintro ⟨hcr, hread, hread', hplain, hplain'⟩
    rw [decodeMimeType_readable hcr hread hread', htype.mpr hplain, hsubtype.mpr hplain', MimeText.mimeType]

/-- A name without its last letter and a name with it twice are taken for the name; a token with a digit is refused. -/
theorem mimeType_stretched :
    decodeMimeType "tex/sd".toList '\r' = decodeMimeType "text/sdp".toList '\r' ∧
    decodeMimeType "textt/sdpp".toList '\r' = decodeMimeType "text/sdp".toList '\r' ∧
    decodeMimeType "tex/sd".toList '\r' = some (typeText <<< 16 ||| subtypeSdp, []) ∧
    mimeConstant typeNames typeAll typeUnknown "tex".toList = typeUnknown ∧
    mimeConstant typeNames typeAll typeUnknown "textt".toList = typeUnknown ∧
    decodeMimeType "application/vnd.3gpp.sms".toList '\r' = none := by
  decide +kernel

end OpenSer.Parser
