import OpenSer.Decimal
import OpenSer.Parser.ToGrammar

/-!
# Parameters of the own Route URI

`get_route_param` and `is_direction` of the rr module. The scanner looks at the beginning of every parameter; it finds
the next one behind a semicolon that is not quoted.

* `skipTo`, `lookAt`, `paramLoop`: the scanner.
* `RouteParam`, `textOf`: parameters, and how they are written.
* `Passed`: the separators behind the parameters in front are the semicolons that the scanner finds.
* `lookAt_named`, `lookAt_other`: what is seen at the beginning of a parameter.
* `route_param_iff`: when a parameter is found, and the direction of a request.
-/

namespace OpenSer.Rr

open Option List Bool
open OpenSer.Parser (Blank Word Quoted quotedText isTokenChar)

/-! ## The scanner -/

def isBlank (c : Char) : Bool := c = ' ' || c = '\t'

/-- A quote that is not behind a backslash. -/
def isQuote (prev c : Char) : Bool := (c = '"' || c = '\'') && prev ≠ '\\'

/-- Goes behind the first semicolon that is not quoted; `prev` is the character in front. -/
def skipTo (prev : Char) (quoted : Bool) : Str → Option Str
  | [] => none
  | c :: s => if c = ';' ∧ quoted = false then some s else skipTo c (quoted ^^ isQuote prev c) s

def quotedValue (prev : Char) : Str → Str
  | [] => []
  | c :: s => if isQuote prev c then [] else c :: quotedValue c s

def tokenValue (s : Str) : Str := s.takeWhile fun c => !(c = ';' || c = ' ' || c = '\t')

/-- What is seen at a place: the name that is searched for, nothing any more, or another name, and where to go on. -/
inductive Look
  | found (val : Str)
  | notFound
  | next (prev : Char) (s : Str)
  deriving Repr, DecidableEq

def valueAt (s : Str) : Look :=
  match s.dropWhile isBlank with
  | [] => .notFound
  | c :: t => .found (if c = '\'' ∨ c = '"' then quotedValue c t else tokenValue (c :: t))

def lookAt (name s : Str) : Look :=
  let s := s.dropWhile isBlank
  if s.length < name.length + 2 then .notFound
  else if name.isPrefixOf s then
    match (s.drop name.length).dropWhile isBlank with
    | [] => .found []
    | c :: t => if c = ';' then .found [] else if c ≠ '=' then .next c t else valueAt t
  else
    match s with
    | [] => .notFound
    | c :: t => .next c t

/-- The loop; the first place is the beginning. -/
def paramLoop (name : Str) : Nat → Bool → Char → Str → Option (Option Str)
  | 0, _, _, _ => none
  | fuel + 1, first, prev, s =>
    if s.length > name.length + 2 then
      match if first then some s else skipTo prev false s with
      | none => some none
      | some s =>
        match lookAt name s with
        | .found val => some (some val)
        | .notFound => some none
        | .next prev s => paramLoop name fuel false prev s
    else some none

/-- The parameters that `loose_route` has left, and the message they are of. -/
structure Routed where
  msgId : Nat
  params : Str
  deriving Repr, DecidableEq

/-- `get_route_param`: the value if it is found. -/
def getRouteParam (routed : Routed) (msgId : Nat) (name : Str) : Option (Option Str) :=
  if routed.msgId ≠ msgId then some none
  else if routed.params = [] then some none
  else paramLoop name (routed.params.length + 1) true ' ' routed.params

inductive Dir
  | downstream | upstream
  deriving Repr, DecidableEq

/-- The name of the parameter that `record_route` stores the From tag in. -/
def ftagParam : Str := "ftag".toList

/-- The direction that `is_direction` finds; `last` is the one it has found last, and `fromTag` the tag of the From
header field if that can be parsed. -/
def direction (routed : Routed) (last : Option (Nat × Dir)) (msgId : Nat) (fromTag : Option Str) : Option Dir :=
  match last.filter (·.1 = msgId) with
  | some (_, dir) => some dir
  | none =>
    (getRouteParam routed msgId ftagParam).map fun
      | none => .downstream
      | some [] => .downstream
      | some val =>
        match fromTag with
        | none => .downstream
        | some [] => .downstream
        | some tag => if tag = val then .downstream else .upstream

/-- `is_direction`: whether it is the direction asked for. -/
def isDirection (routed : Routed) (last : Option (Nat × Dir)) (msgId : Nat) (fromTag : Option Str) (dir : Dir) :
    Option Bool :=
  (direction routed last msgId fromTag).map (· = dir)

/-! ## Parameters -/

inductive Value
  | token (w : Word isTokenChar)
  | quoted (qs : List Quoted)

def Value.text : Value → Str
  | .token w => w.text
  | .quoted qs => '"' :: (quotedText qs ++ ['"'])

/-- What a value stands for. -/
def Value.content : Value → Str
  | .token w => w.text
  | .quoted qs => quotedText qs

def blanks (bs : List Blank) : Str := bs.map Blank.char

/-- A parameter, with the blanks in front of its name, around its equals sign and behind it. -/
structure RouteParam where
  lead : List Blank
  name : Word isTokenChar
  value : Option (List Blank × List Blank × Value)
  trail : List Blank

def RouteParam.behind (p : RouteParam) : Str :=
  (match p.value with
    | none => []
    | some (b, b', v) => blanks b ++ '=' :: (blanks b' ++ v.text)) ++ blanks p.trail

def RouteParam.val (p : RouteParam) : Str :=
  match p.value with
  | none => []
  | some (_, _, v) => v.content

def RouteParam.text (p : RouteParam) : Str := blanks p.lead ++ (p.name.text ++ p.behind)

def tailOf : List RouteParam → Str
  | [] => []
  | p :: ps => ';' :: (p.text ++ tailOf ps)

def textOf : List RouteParam → Str
  | [] => []
  | p :: ps => p.text ++ tailOf ps

def firstNamed (name : Str) : List RouteParam → Option (RouteParam × List RouteParam)
  | [] => none
  | p :: ps => if p.name.text = name then some (p, ps) else firstNamed name ps

/-- The value of the first parameter with a name. -/
def lookupParam (name : Str) (ps : List RouteParam) : Option Str := (firstNamed name ps).map fun x => x.1.val

/-! ## Quotes -/

/-- No quote changes what is quoted. -/
def Quiet (prev : Char) : Str → Prop
  | [] => True
  | c :: s => isQuote prev c = false ∧ Quiet c s

/-- The value can be read: it does not begin with a quote that belongs to a token, and in a quoted string no quote is
active but those around it. -/
def Value.Readable : Value → Prop
  | .token w => w.first ≠ '\''
  | .quoted qs => Quiet '"' (quotedText qs) ∧ (quotedText qs).getLast? ≠ some '\\'

/-- Whether the place behind a text counts as quoted; `none` when a semicolon in the text does not. -/
def quotedBehind (prev : Char) (quoted : Bool) : Str → Option Bool
  | [] => some quoted
  | c :: s => if c = ';' ∧ quoted = false then none else quotedBehind c (quoted ^^ isQuote prev c) s

/-- What is left of a name when another one has been searched for: the scanner goes on behind the first character, or
behind the one that follows the name that is searched for. -/
def RouteParam.unseen (name : Str) (p : RouteParam) : Str :=
  p.name.text.drop (if name.isPrefixOf p.name.text then name.length + 1 else 1)

/-- The parameters in front of the one that is searched for are passed: where there is enough text left for the scanner
to go on, no semicolon in the parameter is taken for its end, and the one behind it is. -/
def Passed (name : Str) : List RouteParam → Prop
  | [] => True
  | p :: ps =>
    p.name.text = name ∨
      ((name.length + 2 < (p.unseen name ++ (p.behind ++ tailOf ps)).length →
        ∃ quoted, quotedBehind ' ' false (p.unseen name ++ p.behind) = some quoted ∧ (ps ≠ [] → quoted = false)) ∧
      Passed name ps)

variable {c : Char} {w s : Str} (bs : List Blank)

section
variable {prev : Char} {w s : Str}

/-- **The skip loop** goes through a text whose semicolons are quoted. -/
theorem skipTo_quotedBehind {quoted quoted' : Bool} (hw : quotedBehind prev quoted w = some quoted') :
    skipTo prev quoted (w ++ s) = skipTo (w.getLastD prev) quoted' s := by
  induction w generalizing prev quoted with
  | nil =>
    cases hw
    rfl
  | cons c w ih =>
    obtain ⟨hsemi, hw⟩ := ite_none_left_eq_some.mp hw
    rw [cons_append, skipTo, if_neg hsemi, ih hw, getLastD_cons]

/-- Only a backslash in front of a text matters. -/
theorem skipTo_prev {quoted : Bool} (hprev : prev ≠ '\\') : skipTo prev quoted s = skipTo ' ' quoted s := by
  cases s with
  | nil => rfl
  | cons c s =>
    have hquote : isQuote prev c = isQuote ' ' c := by simp [isQuote, hprev]
    rw [skipTo, skipTo, hquote]

theorem quotedValue_quiet (hw : Quiet prev w) : quotedValue prev (w ++ s) = w ++ quotedValue (w.getLastD prev) s := by
  induction w generalizing prev with
  | nil => rfl
  | cons c w ih =>
    rw [cons_append, quotedValue, hw.1, if_neg Bool.false_ne_true, ih hw.2, getLastD_cons, cons_append]

theorem quotedValue_head {t : Str} (h : quotedValue prev s = c :: t) : isQuote prev c = false := by
  cases s with
  | nil => cases h
  | cons d s =>
    rw [quotedValue] at h
    split at h
    · cases h
    · rename_i hd
      cases h
      simpa using hd

theorem exists_quote (hw : ¬Quiet prev w) :
    ∃ a c b, w = a ++ c :: b ∧ Quiet prev a ∧ isQuote (a.getLastD prev) c = true := by
  induction w generalizing prev with
  | nil => exact absurd trivial hw
  | cons c w ih =>
    cases hc : isQuote prev c with
    | true => exact ⟨[], c, w, rfl, trivial, hc⟩
    | false =>
      obtain ⟨a, d, b, rfl, ha, hd⟩ := ih fun h => hw ⟨hc, h⟩
      exact ⟨c :: a, d, b, rfl, ⟨hc, ha⟩, by rwa [getLastD_cons]⟩

end

/-! ## The characters of parameters -/

theorem isTokenChar_ne (h : isTokenChar c = true) :
    c ≠ ' ' ∧ c ≠ '\t' ∧ c ≠ ';' ∧ c ≠ '=' ∧ c ≠ '"' ∧ c ≠ '\\' := by
  refine ⟨?_, ?_, ?_, ?_, ?_, ?_⟩ <;> rintro rfl <;> exact absurd h (by decide)

theorem isBlank_of_token (h : isTokenChar c = true) : isBlank c = false := by
  obtain ⟨hspace, htab, -⟩ := isTokenChar_ne h
  simp [isBlank, hspace, htab]

theorem dropWhile_blanks (hs : ∀ c t, s = c :: t → isBlank c = false) :
    (blanks bs ++ s).dropWhile isBlank = s := by
  induction bs with
  | nil =>
    cases s with
    | nil => rfl
    | cons c t => exact dropWhile_cons_of_neg (by rw [hs c t rfl]; exact false_ne_true)
  | cons b bs ih =>
    have hb : isBlank b.char = true := by cases b <;> rfl
    rw [blanks, map_cons, cons_append, dropWhile_cons_of_pos hb]
    exact ih

/-! ## What is seen -/

def fromName (p : RouteParam) (ps : List RouteParam) : Str := p.name.text ++ (p.behind ++ tailOf ps)

def readFrom : Str → Str
  | [] => []
  | c :: t => if c = '\'' ∨ c = '"' then quotedValue c t else tokenValue (c :: t)

def RouteParam.read (p : RouteParam) (ps : List RouteParam) : Str :=
  match p.value with
  | none => []
  | some (_, _, v) => readFrom (v.text ++ (blanks p.trail ++ tailOf ps))

section
variable {p : RouteParam} {ps : List RouteParam} {name : Str}

theorem tailOf_head (ps : List RouteParam) : ∀ c t, tailOf ps = c :: t → c = ';' := by
  intro c t h
  cases ps with
  | nil => cases h
  | cons p ps =>
    cases h
    rfl

theorem behind_head (p : RouteParam) (ps : List RouteParam) :
    ∀ c t, p.behind ++ tailOf ps = c :: t → isTokenChar c = false := by
  intro c t h
  have hblanks : ∀ (bs : List Blank) (s : Str), (∀ d u, s = d :: u → isTokenChar d = false) →
      blanks bs ++ s = c :: t → isTokenChar c = false := by
    intro bs s hs heq
    cases bs with
    | nil => exact hs c t heq
    | cons b bs =>
      cases heq
      cases b <;> decide
  have htail : ∀ d u, tailOf ps = d :: u → isTokenChar d = false := by
    intro d u hd
    rw [tailOf_head ps d u hd]
    decide
  unfold RouteParam.behind at h
  cases hval : p.value with
  | none =>
    rw [hval] at h
    exact hblanks _ _ htail h
  | some x =>
    obtain ⟨b, b', v⟩ := x
    rw [hval] at h
    simp only [append_assoc, cons_append] at h
    refine hblanks b _ (fun d u hd => ?_) h
    cases hd
    decide

theorem dropWhile_textOf (p : RouteParam) (ps : List RouteParam) :
    (textOf (p :: ps)).dropWhile isBlank = fromName p ps := by
  have hassoc : textOf (p :: ps) = blanks p.lead ++ fromName p ps := by
    simp [textOf, RouteParam.text, fromName]
  rw [hassoc, dropWhile_blanks]
  intro c t h
  cases h
  exact isBlank_of_token (p.name.ok _ mem_cons_self)

theorem lookAt_short (h : (fromName p ps).length < name.length + 2) : lookAt name (textOf (p :: ps)) = .notFound := by
  rw [lookAt, dropWhile_textOf]
  exact if_pos h

theorem lookAt_named (hname : p.name.text = name) (h : name.length + 2 ≤ (fromName p ps).length) :
    lookAt name (textOf (p :: ps)) = .found (p.read ps) := by
  have hprefix : name.isPrefixOf (fromName p ps) = true := by
    rw [ isPrefixOf_iff_prefix, fromName, hname]
    exact prefix_append ..
  have hdrop : (fromName p ps).drop name.length = p.behind ++ tailOf ps := by
    rw [fromName, hname, drop_left]
  rw [lookAt, dropWhile_textOf]
  rw [if_neg (by omega), if_pos hprefix, hdrop]
  unfold RouteParam.read RouteParam.behind
  cases hval : p.value with
  | none =>
    rw [nil_append, dropWhile_blanks]
    · cases htail : tailOf ps with
      | nil => rfl
      | cons c t =>
        dsimp only
        rw [if_pos (tailOf_head ps c t htail)]
    · intro c t hc
      rw [tailOf_head ps c t hc]
      rfl
  | some x =>
    obtain ⟨b, b', v⟩ := x
    simp only [append_assoc, cons_append]
    rw [dropWhile_blanks]
    · dsimp only
      rw [valueAt, dropWhile_blanks]
      · cases v with
        | token w => rfl
        | quoted qs => rfl
      · intro c t hc
        cases v with
        | token w =>
          cases hc
          exact isBlank_of_token (w.ok _ mem_cons_self)
        | quoted qs =>
          cases hc
          rfl
    · intro c t hc
      cases hc
      rfl

/-- **Another name is seen**: the scanner goes on behind what it has looked at, and that is no backslash. -/
theorem lookAt_other (hname : p.name.text ≠ name) (htoken : ∀ c ∈ name, isTokenChar c = true)
    (h : name.length + 2 ≤ (fromName p ps).length) :
    ∃ prev, prev ≠ '\\' ∧ lookAt name (textOf (p :: ps)) = .next prev (p.unseen name ++ (p.behind ++ tailOf ps)) := by
  rw [lookAt, dropWhile_textOf]
  rw [if_neg (by omega)]
  cases hprefix : name.isPrefixOf (fromName p ps) with
  | false =>
    have hname' : name.isPrefixOf p.name.text = false := by
      rw [Bool.eq_false_iff, ne_eq, isPrefixOf_iff_prefix] at hprefix ⊢
      exact fun h => hprefix (h.trans (prefix_append ..))
    refine ⟨p.name.first, (isTokenChar_ne (p.name.ok _ mem_cons_self)).2.2.2.2.2, ?_⟩
    rw [RouteParam.unseen, hname']
    rfl
  | true =>
    rw [if_pos rfl]
    rw [ isPrefixOf_iff_prefix] at hprefix
    -- the name that is searched for is not longer
    have hshort : name <+: p.name.text := by
      rcases le_total name.length p.name.text.length with hle | hle
      · exact prefix_of_prefix_length_le hprefix (prefix_append ..) hle
      · obtain ⟨x, hx⟩ := prefix_of_prefix_length_le (prefix_append ..) hprefix hle
        cases x with
        | nil => exact absurd (by simpa using hx) hname
        | cons c x =>
          obtain ⟨y, hy⟩ := hprefix
          rw [← hx, append_assoc] at hy
          have hrest := append_cancel_left hy
          have hc := behind_head p ps c _ hrest.symm
          rw [htoken c (by rw [← hx]; simp)] at hc
          cases hc
    obtain ⟨x, hx⟩ := id hshort
    cases x with
    | nil => exact absurd (by simpa using hx.symm) hname
    | cons c x =>
      have hc : isTokenChar c = true := p.name.ok c (by
        show c ∈ p.name.text
        rw [← hx]
        simp)
      obtain ⟨-, -, hsemi, heq, -, hslash⟩ := isTokenChar_ne hc
      have hunseen : p.unseen name = x := by
        rw [RouteParam.unseen, if_pos ( isPrefixOf_iff_prefix.mpr hshort), ← hx, ← drop_drop, drop_left]
        rfl
      have hdrop : (fromName p ps).drop name.length = c :: (x ++ (p.behind ++ tailOf ps)) := by
        rw [fromName, ← hx, append_assoc, drop_left]
        rfl
      refine ⟨c, hslash, ?_⟩
      rw [hunseen, hdrop, dropWhile_cons_of_neg (by rw [isBlank_of_token hc]; exact false_ne_true)]
      dsimp only
      rw [if_neg hsemi, if_pos heq]

end

/-! ## The loop -/

/-- The parameter that is seen, if it is not too short. -/
def seen (name : Str) (ps : List RouteParam) : Option Str :=
  (firstNamed name ps).bind fun x =>
    if name.length + 2 ≤ (fromName x.1 x.2).length then some (x.1.read x.2) else none

/-- What the loop does at a place. -/
def passAt (name : Str) (fuel : Nat) (s : Str) : Option (Option Str) :=
  match lookAt name s with
  | .found val => some (some val)
  | .notFound => some none
  | .next prev s => paramLoop name fuel false prev s

section
variable {name : Str} {ps : List RouteParam}

theorem fromName_le (p : RouteParam) (ps : List RouteParam) : (fromName p ps).length ≤ (textOf (p :: ps)).length := by
  simp [fromName, textOf, RouteParam.text]

theorem firstNamed_le {q : RouteParam} {rest : List RouteParam} (h : firstNamed name ps = some (q, rest)) :
    (fromName q rest).length ≤ (textOf ps).length := by
  induction ps with
  | nil => cases h
  | cons p ps ih =>
    rw [firstNamed] at h
    split at h
    · cases h
      exact fromName_le ..
    · refine (ih h).trans ?_
      cases ps with
      | nil => cases h
      | cons p' ps => simp [textOf, tailOf]; omega

theorem seen_short (h : (textOf ps).length < name.length + 2) : seen name ps = none := by
  unfold seen
  cases hfirst : firstNamed name ps with
  | none => rfl
  | some x =>
    have := firstNamed_le hfirst
    rw [bind_some, if_neg (by omega)]

variable (htoken : ∀ c ∈ name, isTokenChar c = true) (hpass : Passed name ps)
include htoken hpass

/-- **The loop** sees the first parameter with the name. -/
theorem passAt_eq (hne : ps ≠ []) {fuel : Nat} (hfuel : (textOf ps).length ≤ fuel) :
    passAt name fuel (textOf ps) = some (seen name ps) := by
  induction ps generalizing fuel with
  | nil => exact absurd rfl hne
  | cons p ps ih =>
    have hle := fromName_le p ps
    by_cases hshort : (fromName p ps).length < name.length + 2
    · -- what is behind is even shorter
      have hnone : seen name (p :: ps) = none := by
        unfold seen
        rw [firstNamed]
        split
        · rw [bind_some, if_neg (by dsimp only; omega)]
        · refine seen_short ?_
          cases ps with
          | nil => simp [textOf]
          | cons q ps =>
            refine lt_of_le_of_lt ?_ hshort
            simp [fromName, tailOf, textOf]
            omega
      rw [passAt, lookAt_short hshort, hnone]
    by_cases hname : p.name.text = name
    · rw [passAt, lookAt_named hname (by omega), seen, firstNamed, if_pos hname, bind_some,
        if_pos (by dsimp only; omega)]
    have hlong : name.length + 2 ≤ (fromName p ps).length := by omega
    obtain ⟨prev, hprev, hlook⟩ := lookAt_other hname htoken hlong
    obtain ⟨hp, hrest⟩ := hpass.resolve_left hname
    have hseen : seen name (p :: ps) = seen name ps := by rw [seen, seen, firstNamed, if_neg hname]
    obtain ⟨fuel, rfl⟩ : ∃ k, fuel = k + 1 := ⟨fuel - 1, by omega⟩
    rw [passAt, hlook, hseen]
    dsimp only
    rw [paramLoop]
    split
    · rename_i hguard
      -- the scanner comes to the separator behind the parameter
      obtain ⟨quoted, hbehind, hquoted⟩ := hp hguard
      rw [if_neg Bool.false_ne_true, skipTo_prev hprev, ← append_assoc, skipTo_quotedBehind hbehind]
      cases ps with
      | nil => rfl
      | cons q ps =>
        obtain rfl := hquoted (cons_ne_nil _ _)
        have hlen : (textOf (q :: ps)).length < (textOf (p :: q :: ps)).length := by
          simp [textOf, tailOf]
          omega
        exact ih hrest (by nofun) (by omega)
    · rename_i hguard
      rw [seen_short]
      cases ps with
      | nil => simp [textOf]
      | cons q ps =>
        simp only [length_append, tailOf, length_cons, textOf] at hguard ⊢
        omega

/-- **`get_route_param`** comes to an end, and finds what is seen in a text that is long enough. -/
theorem getRouteParam_eq (id : Nat) :
    getRouteParam ⟨id, textOf ps⟩ id name =
      some (if name.length + 2 < (textOf ps).length then seen name ps else none) := by
  rw [getRouteParam, if_neg (not_not.mpr rfl)]
  dsimp only
  split
  · rename_i hnil
    rw [hnil, if_neg (by simp)]
  · rename_i hne
    rw [paramLoop]
    by_cases hlong : name.length + 2 < (textOf ps).length
    · rw [if_pos hlong, if_pos hlong]
      refine passAt_eq htoken hpass ?_ le_rfl
      rintro rfl
      exact hne rfl
    · rw [if_neg hlong, if_neg hlong]

end

/-! ## Values -/

section
variable {p : RouteParam} {ps : List RouteParam}

theorem tokenValue_token (w : Word isTokenChar) (hs : ∀ c t, s = c :: t → c = ';' ∨ c = ' ' ∨ c = '\t') :
    tokenValue (w.text ++ s) = w.text := by
  have hw : ∀ c ∈ w.text, (!(c = ';' || c = ' ' || c = '\t')) = true := by
    intro c hc
    obtain ⟨hspace, htab, hsemi, -⟩ := isTokenChar_ne (w.ok c hc)
    simp [hspace, htab, hsemi]
  rw [tokenValue, takeWhile_append_of_pos hw]
  cases s with
  | nil => simp
  | cons c t =>
    rw [takeWhile_cons_of_neg, append_nil]
    rcases hs c t rfl with rfl | rfl | rfl <;> decide

theorem trail_head (p : RouteParam) (ps : List RouteParam) :
    ∀ c t, blanks p.trail ++ tailOf ps = c :: t → c = ';' ∨ c = ' ' ∨ c = '\t' := by
  intro c t h
  cases htrail : p.trail with
  | nil =>
    rw [htrail] at h
    exact .inl (tailOf_head ps c t h)
  | cons b bs =>
    rw [htrail] at h
    cases h
    cases b with
    | space => exact .inr (.inl rfl)
    | tab => exact .inr (.inr rfl)

/-- **The value that is read** is that of the parameter exactly if it can be read. -/
theorem read_eq_iff (p : RouteParam) (ps : List RouteParam) :
    p.read ps = p.val ↔ ∀ b b' v, p.value = some (b, b', v) → v.Readable := by
  unfold RouteParam.read RouteParam.val
  cases hval : p.value with
  | none => exact iff_of_true rfl (by nofun)
  | some x =>
    obtain ⟨b, b', v⟩ := x
    have hiff : (∀ c c' u, some (b, b', v) = some (c, c', u) → u.Readable) ↔ v.Readable :=
      ⟨fun h => h b b' v rfl, fun h c c' u hu => by cases hu; exact h⟩
    rw [hiff]
    cases v with
    | token w =>
      show (if w.first = '\'' ∨ w.first = '"' then quotedValue w.first (w.others ++ (blanks p.trail ++ tailOf ps))
        else tokenValue (w.text ++ (blanks p.trail ++ tailOf ps))) = w.text ↔ w.first ≠ '\''
      have hquote : w.first ≠ '"' := (isTokenChar_ne (w.ok _ mem_cons_self)).2.2.2.2.1
      by_cases hfirst : w.first = '\''
      · rw [if_pos (.inl hfirst)]
        refine iff_of_false (fun h => ?_) (not_not.mpr hfirst)
        have := quotedValue_head (c := w.first) (t := w.others) h
        rw [hfirst] at this
        exact absurd this (by decide)
      · rw [if_neg (by tauto)]
        exact iff_of_true (tokenValue_token w (trail_head p ps)) hfirst
    | quoted qs =>
      have hread : readFrom ((Value.quoted qs).text ++ (blanks p.trail ++ tailOf ps)) =
          quotedValue '"' (quotedText qs ++ '"' :: (blanks p.trail ++ tailOf ps)) := by
        simp [Value.text, readFrom]
      dsimp only
      rw [hread, Value.content, Value.Readable]
      by_cases hquiet : Quiet '"' (quotedText qs)
      · rw [quotedValue_quiet hquiet, quotedValue]
        cases hlast : (quotedText qs).getLast? with
        | none =>
          rw [getLastD_eq_getLast?, hlast]
          exact iff_of_true (append_nil _) ⟨hquiet, by nofun⟩
        | some d =>
          rw [getLastD_eq_getLast?, hlast]
          by_cases hd : d = '\\'
          · subst hd
            refine iff_of_false (fun h => ?_) fun h => h.2 rfl
            have := congrArg List.length h
            simp [isQuote] at this
          · refine iff_of_true ?_ ⟨hquiet, fun h => hd (some.inj h)⟩
            rw [if_pos (by simp [isQuote, hd]), append_nil]
      · refine iff_of_false (fun h => ?_) fun h => hquiet h.1
        obtain ⟨a, c, t, hsplit, ha, hc⟩ := exists_quote hquiet
        rw [hsplit, append_assoc, quotedValue_quiet ha, cons_append, quotedValue, if_pos hc] at h
        have := congrArg List.length h
        simp at this

end

/-! ## Parameters and directions -/

/-- A parameter is found: the text is longer than the name and two more characters, there are at least two characters
behind the name, and the value can be read. -/
def Findable (name : Str) (ps : List RouteParam) : Prop :=
  ∀ p rest, firstNamed name ps = some (p, rest) →
    name.length + 2 < (textOf ps).length ∧ name.length + 2 ≤ (fromName p rest).length ∧
      ∀ b b' v, p.value = some (b, b', v) → v.Readable

/-- **Exactly when** the value of the first parameter with the name is found. -/
theorem getRouteParam_iff {name : Str} {ps : List RouteParam} (htoken : ∀ c ∈ name, isTokenChar c = true)
    (hpass : Passed name ps) (id : Nat) :
    getRouteParam ⟨id, textOf ps⟩ id name = some (lookupParam name ps) ↔ Findable name ps := by
  rw [getRouteParam_eq htoken hpass, some.injEq]
  unfold Findable lookupParam seen
  cases hfirst : firstNamed name ps with
  | none => exact iff_of_true (by split <;> rfl) (by nofun)
  | some x =>
    obtain ⟨p, rest⟩ := x
    have hiff : ∀ P : RouteParam → List RouteParam → Prop,
        (∀ q qs, some (p, rest) = some (q, qs) → P q qs) ↔ P p rest :=
      fun P => ⟨fun h => h p rest rfl, fun h q qs hq => by cases hq; exact h⟩
    rw [hiff, bind_some, map_some, ← read_eq_iff p rest]
    split
    · rename_i hlong
      split
      · rename_i hname
        rw [some.injEq]
        exact ⟨fun h => ⟨hlong, hname, h⟩, fun h => h.2.2⟩
      · rename_i hname
        exact iff_of_false (by nofun) fun h => hname h.2.1
    · rename_i hlong
      exact iff_of_false (by nofun) fun h => hlong h.1

/-- **Exactly when a parameter is found with its value**, if the separators in front of it are seen; and then the
direction of a request is downstream exactly when the tag of its From header field is the one that was stored, or one of
them is empty. -/
theorem route_param_iff (ps : List RouteParam) (name : Word isTokenChar) (hpass : Passed name.text ps) (id : Nat) :
    (getRouteParam ⟨id, textOf ps⟩ id name.text = some (lookupParam name.text ps) ↔ Findable name.text ps) ∧
      (name.text = ftagParam → Findable name.text ps → ∀ tag last,
        last.filter (fun x : Nat × Dir => x.1 = id) = none →
        let stored := (lookupParam ftagParam ps).getD []
        isDirection ⟨id, textOf ps⟩ last id (some tag) .downstream =
          some (decide (stored = [] ∨ tag = [] ∨ tag = stored))) := by
  have hiff := getRouteParam_iff name.ok hpass id
  refine ⟨hiff, fun hftag hfind tag last hlast => ?_⟩
  have hget := hiff.mpr hfind
  change getRouteParam ⟨id, textOf ps⟩ id name.text = some (lookupParam name.text ps) at hget
  rw [hftag] at hget
  rw [isDirection, direction, hlast]
  rw [hget, map_some]
  rcases lookupParam ftagParam ps with - | - | ⟨v, val⟩
  · simp
  · simp
  · cases tag with
    | nil => simp
    | cons t tag =>
      dsimp only
      split <;> rename_i heq <;> simp [heq]

/-- The parameter `lr`. -/
def lrToken : RouteParam := ⟨[], ⟨'l', "r".toList, List.all_eq_true.mp rfl⟩, none, []⟩

/-- The parameter `ftag=a`. -/
def ftagToken : RouteParam :=
  ⟨[], ⟨'f', "tag".toList, List.all_eq_true.mp rfl⟩,
    some ([], [], .token ⟨'a', [], List.all_eq_true.mp rfl⟩), []⟩

/-- A parameter whose name begins with an apostrophe, and whose value has two. -/
def apostrophes : RouteParam :=
  ⟨[.space], ⟨'\'', "x".toList, List.all_eq_true.mp rfl⟩,
    some ([.tab], [.space], .token ⟨'i', "t''s".toList, List.all_eq_true.mp rfl⟩), [.space]⟩

/-- Behind `lr` and a parameter with three apostrophes, of which the first is not looked at and the others are two. -/
theorem route_param_recorded :
    getRouteParam ⟨7, "lr; 'x\t= it''s ;ftag=a".toList⟩ 7 "ftag".toList = some (some "a".toList) ∧
      isDirection ⟨7, "lr; 'x\t= it''s ;ftag=a".toList⟩ none 7 (some "b".toList) .downstream = some false := by
  have h := route_param_iff [lrToken, apostrophes, ftagToken] ⟨'f', "tag".toList, List.all_eq_true.mp rfl⟩
    (.inr ⟨fun _ => ⟨false, by decide, fun _ => rfl⟩, .inr ⟨fun _ => ⟨false, by decide, fun _ => rfl⟩, .inl rfl⟩⟩) 7
  have hfind : Findable "ftag".toList [lrToken, apostrophes, ftagToken] := by
    intro p rest hp
    cases hp
    refine ⟨by decide, by decide, fun b b' v hv => ?_⟩
    cases hv
    exact (by decide : 'a' ≠ '\'')
  exact ⟨h.1.mpr hfind, h.2 rfl hfind "b".toList none rfl⟩

/-- A parameter without a value at the end is not found. -/
theorem route_param_lr_at_end :
    "ftag=a;lr".toList = textOf [ftagToken, lrToken] ∧ lookupParam "lr".toList [ftagToken, lrToken] = some [] ∧
      getRouteParam ⟨7, "ftag=a;lr".toList⟩ 7 "lr".toList = some none := by
  refine ⟨by decide, by decide, by decide⟩

end OpenSer.Rr
