import OpenSer.Ut

/-!
# The transformations `substr` and `select`

`tr_eval_string` of `transformations.c` takes a part of a string value: by position (`s.substr`), or the field between
two separators (`s.select`). Both give a pointer into the value and a length; arguments, lengths and their sums are of
type `int`.

* `select_eq`: `select` gives the field, counted from either end.
* `substr_select_iff`: the arguments for which `substr` gives what it should.
-/

namespace OpenSer.Transformations

open List

/-- What an `int` holds after an operation. -/
def wrap (x : Int) : Int := (x + 2 ^ 31) % 2 ^ 32 - 2 ^ 31

abbrev IsInt (x : Int) : Prop := -2 ^ 31 ≤ x ∧ x < 2 ^ 31

/-- A part of a value: where it starts, counted from the start of the value, and its length. -/
structure Part where
  start : Int
  len : Int
  deriving DecidableEq

/-- `TR_S_SUBSTR` on a value of length `len`; `none` when it fails. -/
def substr (len i j : Int) : Option Part :=
  if j < 0 then none
  else if 0 ≤ i then
    if i ≥ len then none
    else
      let j := if wrap (i + j) ≥ len then 0 else j
      if j = 0 then some ⟨i, wrap (len - i)⟩ else some ⟨i, j⟩
  else
    let i := wrap (-i)
    if i > len then none
    else
      let j := if i < j then 0 else j
      if j = 0 then some ⟨wrap (len - i), i⟩ else some ⟨wrap (len - i), j⟩

/-- The loop of `TR_S_SELECT` for an index from 0 on, over what is left of the value, and the part behind it. -/
def selectLoop (c : Char) : Str → Int → Int → Int → Option Part
  | [], s, p, i => if i = 0 then some ⟨s, p - s⟩ else none
  | x :: rest, s, p, i =>
    if x = c then if i = 0 then some ⟨s, p - s⟩ else selectLoop c rest (p + 1) (p + 1) (i - 1)
    else selectLoop c rest s (p + 1) i

/-- The loop for a negative index, over the value from its end. -/
def selectBackLoop (c : Char) : Str → Int → Int → Int → Option Part
  | [], s, p, i => if i = 0 then some ⟨p + 1, s - p⟩ else none
  | x :: rest, s, p, i =>
    if x = c then if i = 0 then some ⟨p + 1, s - p⟩ else selectBackLoop c rest (p - 1) (p - 1) (i - 1)
    else selectBackLoop c rest s (p - 1) i

def Part.text (value : Str) (part : Part) : Str := (value.drop part.start.toNat).take part.len.toNat

def select (value : Str) (i : Int) (c : Char) : Str :=
  let part :=
    if i < 0 then
      selectBackLoop c value.reverse (value.length - 1) (value.length - 1) (wrap (wrap (-i) - 1))
    else selectLoop c value 0 0 i
  part.elim [] (Part.text value)

/-! ## What they should give -/

/-- The slice from `i` on, or from the `i`-th character before the end, of length `j` or up to the end. -/
abbrev SubstrRight (len i j : Int) (r : Option Part) : Prop :=
  ∀ part ∈ r, part.start = (if 0 ≤ i then i else len + i) ∧
    part.len = (if j = 0 then len - part.start else min j (len - part.start)) ∧
    0 ≤ part.start ∧ 0 ≤ part.len ∧ part.start + part.len ≤ len

/-- The field of an index, empty if there is none. -/
def field (value : Str) (i : Int) (c : Char) : Str :=
  if i < 0 then (value.splitOn c).reverse.getD (-i - 1).toNat [] else (value.splitOn c).getD i.toNat []

theorem text_middle (a mid b : Str) {start len : Int} (hs : start = a.length) (hl : len = mid.length) :
    Part.text (a ++ (mid ++ b)) ⟨start, len⟩ = mid := by
  simp [Part.text, hs, hl]

theorem splitOn_append_cons (c : Char) (xs ys : Str) : (xs ++ c :: ys).splitOn c = xs.splitOn c ++ ys.splitOn c :=
  splitOnP_append_cons xs ys (beq_self_eq_true c)

section

variable {c : Char} {s p : Int}

theorem splitOn_field {mid : Str} (hmid : c ∉ mid) : mid.splitOn c = [mid] :=
  splitOnP_eq_singleton fun _ hx => beq_false_of_ne (ne_of_mem_of_not_mem hx hmid)

theorem selectLoop_field (pre mid l : Str) (k : Nat) (hmid : c ∉ mid) (hs : s = pre.length) (hp : p = s + mid.length) :
    (selectLoop c l s p k).elim [] (Part.text (pre ++ (mid ++ l))) = ((mid ++ l).splitOn c).getD k [] := by
  induction l generalizing pre mid s p k with
  | nil =>
    have htext := text_middle pre mid [] hs (by omega : p - s = mid.length)
    rw [append_nil] at htext ⊢
    rw [splitOn_field hmid]
    cases k with
    | zero => exact htext
    | succ k => rfl
  | cons x l ih =>
    rw [selectLoop]
    by_cases hx : x = c
    · subst hx
      rw [if_pos rfl, splitOn_append_cons, splitOn_field hmid]
      cases k with
      | zero => exact text_middle pre mid _ hs (by omega)
      | succ k =>
        rw [if_neg (by omega), Nat.cast_succ, add_sub_cancel_right]
        have hrest := ih (s := p + 1) (p := p + 1) (pre ++ mid ++ [x]) [] k not_mem_nil (by simp; omega) (by simp)
        simpa using hrest
    · rw [if_neg hx]
      have hrest := ih (p := p + 1) pre (mid ++ [x]) k (by simp [hmid, Ne.symm hx]) hs (by simp; omega)
      simpa using hrest

theorem selectBackLoop_field (l mid post : Str) (k : Nat) (hmid : c ∉ mid) (hp : p + 1 = l.length)
    (hs : s = p + mid.length) : (selectBackLoop c l s p k).elim [] (Part.text (l.reverse ++ (mid ++ post))) =
      ((l.reverse ++ mid).splitOn c).reverse.getD k [] := by
  induction l generalizing mid post s p k with
  | nil =>
    rw [reverse_nil, nil_append, nil_append, splitOn_field hmid]
    cases k with
    | zero => exact text_middle [] mid post hp (by omega)
    | succ k => rfl
  | cons x l ih =>
    rw [length_cons] at hp
    rw [selectBackLoop, reverse_cons, append_assoc, append_assoc, singleton_append, singleton_append]
    by_cases hx : x = c
    · subst hx
      rw [if_pos rfl, splitOn_append_cons, splitOn_field hmid, reverse_append]
      cases k with
      | zero => simpa using text_middle (l.reverse ++ [x]) mid post (by simp; omega : p + 1 = _) (by omega : s - p = _)
      | succ k =>
        rw [if_neg (by omega), Nat.cast_succ, add_sub_cancel_right]
        have hrest := ih (p := p - 1) [] (x :: (mid ++ post)) k not_mem_nil (by omega) rfl
        simpa using hrest
    · rw [if_neg hx]
      exact ih (x :: mid) post k (by simp [hmid, Ne.symm hx]) (by omega) (by simp; omega)

end

/-- `select` gives the field of its index, counted from either end. -/
theorem select_eq (value : Str) {i : Int} (hi : IsInt i) (c : Char) : select value i c = field value i c := by
  unfold select field
  split
  case isTrue hneg =>
    have hwrap : wrap (wrap (-i) - 1) = ((-i - 1).toNat : Int) := by
      unfold IsInt at hi
      unfold wrap
      omega
    have hfield := selectBackLoop_field (c := c) (p := value.length - 1) value.reverse [] [] (-i - 1).toNat not_mem_nil
      (by simp) rfl
    rw [hwrap]
    simpa using hfield
  case isFalse hpos =>
    have hfield := selectLoop_field (c := c) [] [] value i.toNat not_mem_nil rfl rfl
    rw [Int.toNat_of_nonneg (by omega)] at hfield
    exact hfield

theorem substr_right_iff {len i j : Int} (hlen : 0 ≤ len ∧ len < 2 ^ 31) (hi : IsInt i) (hj : IsInt j) :
    SubstrRight len i j (substr len i j) ↔ (0 ≤ j → i ≠ -2 ^ 31 ∧ (0 ≤ i → i < len → i + j < 2 ^ 31)) := by
  unfold IsInt at hi hj
  unfold substr wrap
  dsimp only
  -- every branch of the code leaves a linear fact about the arguments
  split_ifs <;> simp only [SubstrRight, Option.mem_def, Option.some.injEq, forall_eq', reduceCtorEq, IsEmpty.forall_iff,
    implies_true, true_iff] <;> (try split_ifs) <;> omega

/-- **Exactly when** `substr` gives its slice, and always `select` its field: when the offset is not the smallest `int`,
and the end of the slice is one. -/
theorem substr_select_iff (value : Str) (c : Char) (i j n : Int) (hlen : value.length < 2 ^ 31) (hi : IsInt i)
    (hj : IsInt j) (hn : IsInt n) :
    SubstrRight value.length i j (substr value.length i j) ∧ select value n c = field value n c ↔
      (0 ≤ j → i ≠ -2 ^ 31 ∧ (0 ≤ i → i < value.length → i + j < 2 ^ 31)) := by
  rw [substr_right_iff (by omega) hi hj, and_iff_left (select_eq value hn c)]

/-- The last but one field of `a,b,c`, and its characters from the second on. -/
theorem substr_select_csv : SubstrRight 5 1 0 (substr 5 1 0) ∧ select "a,b,c".toList (-2) ',' = "b".toList := by
  have h := (substr_select_iff "a,b,c".toList ',' 1 0 (-2) (by decide) (by decide) (by decide) (by decide)).mpr
    (by decide)
  exact ⟨h.1, h.2.trans (by decide)⟩

/-- The sum overflows: the slice is longer than the value. The smallest offset gives a part of negative length. -/
theorem substr_overflows : substr 3 1 (2 ^ 31 - 1) = some ⟨1, 2 ^ 31 - 1⟩ ∧
    ¬SubstrRight 3 1 (2 ^ 31 - 1) (substr 3 1 (2 ^ 31 - 1)) ∧ ¬SubstrRight 3 (-2 ^ 31) 0 (substr 3 (-2 ^ 31) 0) := by
  decide

end OpenSer.Transformations
