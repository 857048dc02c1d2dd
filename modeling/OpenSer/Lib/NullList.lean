import Mathlib.Data.List.Nodup
import Mathlib.Tactic

/-!
# Doubly linked lists that end at null

The nodes of a list are read through one map per pointer, `next` and `prev`, with `none` for null. A segment runs from a
pointer to another one, behind the node that its first node points back at.

* `seg_append`: segments are cut and joined.
* `Dll.next_eq`, `Dll.prev_eq`: the pointers of a node at a known position.
* `Dll.insert`, `Dll.remove`: what the pointers are once a node is linked in or out.
-/

namespace Lib

open Option List

variable {α : Type*} {next prev next' prev' : α → Option α} {b h e : Option α} {l : List α}

/-- The nodes from the pointer `h` up to the pointer `e`; the first one points back at `b`. -/
def Seg (next prev : α → Option α) : Option α → Option α → List α → Option α → Prop
  | _, h, [], e => h = e
  | b, h, x :: l, e => h = some x ∧ prev x = b ∧ Seg next prev (some x) (next x) l e

def Dll (next prev : α → Option α) (head : Option α) (l : List α) : Prop := Seg next prev none head l none

theorem getLast?_cons_or (x : α) (l : List α) (b : Option α) : (x :: l).getLast?.or b = l.getLast?.or (some x) := by
  rw [getLast?_cons]
  cases l.getLast? <;> rfl

theorem seg_append {l₁ l₂ : List α} :
    Seg next prev b h (l₁ ++ l₂) e ↔ ∃ m, Seg next prev b h l₁ m ∧ Seg next prev (l₁.getLast?.or b) m l₂ e := by
  induction l₁ generalizing b h with
  | nil =>
    constructor
    · exact fun hs => ⟨h, rfl, hs⟩
    · rintro ⟨m, rfl, hs⟩
      exact hs
  | cons x l₁ ih =>
    rw [cons_append, Seg, ih, getLast?_cons_or]
    constructor
    · rintro ⟨h1, h2, m, h3, h4⟩
      exact ⟨m, ⟨h1, h2, h3⟩, h4⟩
    · rintro ⟨m, ⟨h1, h2, h3⟩, h4⟩
      exact ⟨h1, h2, m, h3, h4⟩

theorem Seg.start (hs : Seg next prev b h l e) : h = l.head?.or e := by
  cases l with
  | nil => exact hs
  | cons x l => exact hs.1

/-- The nodes up to null are what the pointers say. -/
theorem Seg.unique {b b' h : Option α} {l l' : List α} (hs : Seg next prev b h l none)
    (hs' : Seg next prev b' h l' none) : l = l' := by
  induction l generalizing b b' h l' with
  | nil =>
    cases l' with
    | nil => rfl
    | cons x l' => exact absurd (hs.symm.trans hs'.1) (by simp)
  | cons x l ih =>
    cases l' with
    | nil => exact absurd (hs'.symm.trans hs.1) (by simp)
    | cons x' l' =>
      obtain rfl : x = x' := some.inj (hs.1.symm.trans hs'.1)
      rw [ih hs.2.2 hs'.2.2]

theorem Seg.congr (hs : Seg next prev b h l e) (hn : ∀ x ∈ l, next' x = next x)
    (hp : ∀ x ∈ l, prev' x = prev x) : Seg next' prev' b h l e := by
  induction l generalizing b h with
  | nil => exact hs
  | cons x l ih =>
    obtain ⟨h1, h2, h3⟩ := hs
    refine ⟨h1, (hp x mem_cons_self).trans h2, ?_⟩
    rw [hn x mem_cons_self]
    exact ih h3 (fun y hy => hn y (mem_cons_of_mem x hy)) fun y hy => hp y (mem_cons_of_mem x hy)

/-- The last node of a segment is pointed somewhere else. -/
theorem Seg.set_end {b h e e' : Option α} {x : α} (hs : Seg next prev b h (l ++ [x]) e)
    (hn : ∀ y ∈ l, next' y = next y) (hx : next' x = e') (hp : ∀ y ∈ l ++ [x], prev' y = prev y) :
    Seg next' prev' b h (l ++ [x]) e' := by
  obtain ⟨m, h1, h2, h3, -⟩ := seg_append.mp hs
  refine seg_append.mpr ⟨m, h1.congr hn (forall_mem_append.mp hp).1, h2, ?_, hx⟩
  rw [hp x (mem_append_right _ (mem_singleton.mpr rfl)), h3]

/-- The first node of a segment is pointed back somewhere else. -/
theorem Seg.set_start {b b' h e : Option α} {x : α} (hs : Seg next prev b h (x :: l) e)
    (hn : ∀ y ∈ x :: l, next' y = next y) (hx : prev' x = b') (hp : ∀ y ∈ l, prev' y = prev y) :
    Seg next' prev' b' h (x :: l) e := by
  obtain ⟨h1, -, h3⟩ := hs
  refine ⟨h1, hx, ?_⟩
  rw [hn x mem_cons_self]
  exact h3.congr (fun y hy => hn y (mem_cons_of_mem x hy)) hp

section
variable {head : Option α} {l l₁ l₂ : List α} {c : α}

theorem Dll.nil (next prev : α → Option α) : Dll next prev none [] := rfl

theorem Dll.unique {l' : List α} (h : Dll next prev head l) (h' : Dll next prev head l') : l = l' := Seg.unique h h'

theorem Dll.head_eq (h : Dll next prev head l) : head = l.head? := by
  rw [Seg.start h, or_none]

theorem Dll.next_eq (h : Dll next prev head (l₁ ++ c :: l₂)) : next c = l₂.head? := by
  obtain ⟨m, -, -, -, h⟩ := seg_append.mp h
  rw [h.start, or_none]

theorem Dll.prev_eq (h : Dll next prev head (l₁ ++ c :: l₂)) : prev c = l₁.getLast? := by
  obtain ⟨m, -, -, h, -⟩ := seg_append.mp h
  rw [h, or_none]

theorem Dll.congr (h : Dll next prev head l) (hn : ∀ x ∈ l, next' x = next x) (hp : ∀ x ∈ l, prev' x = prev x) :
    Dll next' prev' head l := Seg.congr h hn hp

variable [DecidableEq α]

/-- Two segments whose ends at the seam are pointed at something else. -/
theorem seg_seam {b e m m' b₀ : Option α} (h1 : Seg next prev none head l₁ m) (h2 : Seg next prev b₀ m' l₂ none)
    (hnd : (l₁ ++ l₂).Nodup) (hn : ∀ x ∈ l₁ ++ l₂, next' x = if l₁.getLast? = some x then e else next x)
    (hp : ∀ x ∈ l₁ ++ l₂, prev' x = if l₂.head? = some x then b else prev x) :
    Seg next' prev' none (if l₁ = [] then e else head) l₁ e ∧ Seg next' prev' b l₂.head? l₂ none := by
  have hdisj := disjoint_of_nodup_append hnd
  refine ⟨?_, ?_⟩
  · rcases eq_nil_or_concat l₁ with rfl | ⟨l, x, rfl⟩
    · exact if_pos rfl
    · rw [concat_eq_append] at *
      rw [if_neg (by simp)]
      have hx : x ∉ l := fun hx => by
        have := (nodup_append.mp (nodup_append.mp hnd).1).2.2 x hx x (mem_singleton.mpr rfl)
        exact this rfl
      refine h1.set_end (fun y hy => ?_) ?_ fun y hy => ?_
      · rw [hn y (by simp [hy]), if_neg]
        rw [getLast?_concat, some.injEq]
        rintro rfl
        exact hx hy
      · rw [hn x (by simp), if_pos getLast?_concat]
      · rw [hp y (mem_append_left _ hy), if_neg]
        intro hhead
        exact hdisj hy (mem_of_mem_head? hhead)
  · cases l₂ with
    | nil => rfl
    | cons y l₂ =>
      have hy : y ∉ l₂ := (nodup_cons.mp (nodup_append.mp hnd).2.1).1
      have hm : m' = some y := h2.1
      subst hm
      refine h2.set_start (fun z hz => ?_) ?_ fun z hz => ?_
      · rw [hn z (mem_append_right _ hz), if_neg]
        intro hlast
        exact hdisj (mem_of_getLast? hlast) hz
      · exact (hp y (by simp)).trans (if_pos rfl)
      · rw [hp z (by simp [hz]), if_neg]
        intro heq
        cases heq
        exact hy hz

theorem Dll.insert (h : Dll next prev head (l₁ ++ l₂)) (hnd : (l₁ ++ l₂).Nodup) (hc1 : next' c = l₂.head?)
    (hc2 : prev' c = l₁.getLast?) (hn : ∀ x ∈ l₁ ++ l₂, next' x = if l₁.getLast? = some x then some c else next x)
    (hp : ∀ x ∈ l₁ ++ l₂, prev' x = if l₂.head? = some x then some c else prev x) :
    Dll next' prev' (if l₁ = [] then some c else head) (l₁ ++ c :: l₂) := by
  obtain ⟨m, h1, h2⟩ := seg_append.mp h
  obtain ⟨h1, h2⟩ := seg_seam h1 h2 hnd hn hp
  refine seg_append.mpr ⟨some c, h1, rfl, ?_, ?_⟩
  · rw [hc2, or_none]
  · rw [hc1]
    exact h2

theorem Dll.remove (h : Dll next prev head (l₁ ++ c :: l₂)) (hnd : (l₁ ++ l₂).Nodup)
    (hn : ∀ x ∈ l₁ ++ l₂, next' x = if l₁.getLast? = some x then l₂.head? else next x)
    (hp : ∀ x ∈ l₁ ++ l₂, prev' x = if l₂.head? = some x then l₁.getLast? else prev x) :
    Dll next' prev' (if l₁ = [] then l₂.head? else head) (l₁ ++ l₂) := by
  obtain ⟨m, h1, -, -, h2⟩ := seg_append.mp h
  obtain ⟨h1, h2⟩ := seg_seam h1 h2 hnd hn hp
  refine seg_append.mpr ⟨_, h1, ?_⟩
  rw [or_none]
  exact h2

end

end Lib
