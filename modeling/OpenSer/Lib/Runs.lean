import Mathlib.Order.Defs.LinearOrder
import Mathlib.Tactic

/-!
# Runs of equal keys

A sorted list cut into its maximal runs of equal keys, and a skip pointer that joins the two ends of each run.

* `SortedRuns.exists_split` cuts the runs at a bound.
* `SortedRuns.append_last`, `SortedRuns.insert_run`: the two ways a new element enters.
* `SortedRuns.shrink`, `SortedRuns.remove_run`: the two ways an element leaves.
* `RunLinks`: the skip pointers of one run.
-/

namespace Lib

open List Function

variable {α β : Type*} [LinearOrder β] {key key' : α → β} {R R₁ R₂ : List (List α)} {r : List α} {t : β} {x : α}

/-- The runs are non-empty, have one key each, and their keys increase. -/
structure SortedRuns (key : α → β) (runs : List (List α)) : Prop where
  ne : ∀ r ∈ runs, r ≠ []
  same : ∀ r ∈ runs, ∀ x ∈ r, ∀ y ∈ r, key x = key y
  sorted : runs.Pairwise fun r r' => ∀ x ∈ r, ∀ y ∈ r', key x < key y

theorem SortedRuns.nil : SortedRuns key [] := ⟨by simp, by simp, List.Pairwise.nil⟩

theorem sortedRuns_append : SortedRuns key (R₁ ++ R₂) ↔
    SortedRuns key R₁ ∧ SortedRuns key R₂ ∧ ∀ x ∈ R₁.flatten, ∀ y ∈ R₂.flatten, key x < key y := by
  constructor
  · intro h
    obtain ⟨h1, h2, h3⟩ := pairwise_append.mp h.sorted
    refine ⟨⟨fun r hr => h.ne r (by simp [hr]), fun r hr => h.same r (by simp [hr]), h1⟩,
      ⟨fun r hr => h.ne r (by simp [hr]), fun r hr => h.same r (by simp [hr]), h2⟩, ?_⟩
    intro x hx y hy
    obtain ⟨r, hr, hxr⟩ := mem_flatten.mp hx
    obtain ⟨r', hr', hyr⟩ := mem_flatten.mp hy
    exact h3 r hr r' hr' x hxr y hyr
  · rintro ⟨h1, h2, h3⟩
    refine ⟨fun r hr => ?_, fun r hr => ?_, pairwise_append.mpr ⟨h1.sorted, h2.sorted, ?_⟩⟩
    · exact (mem_append.mp hr).elim (h1.ne r) (h2.ne r)
    · exact (mem_append.mp hr).elim (h1.same r) (h2.same r)
    · intro r hr r' hr' x hx y hy
      exact h3 x (mem_flatten_of_mem hr hx) y (mem_flatten_of_mem hr' hy)

theorem sortedRuns_cons : SortedRuns key (r :: R) ↔ (r ≠ [] ∧ ∀ x ∈ r, ∀ y ∈ r, key x = key y) ∧
    SortedRuns key R ∧ ∀ x ∈ r, ∀ y ∈ R.flatten, key x < key y := by
  have hone : SortedRuns key [r] ↔ r ≠ [] ∧ ∀ x ∈ r, ∀ y ∈ r, key x = key y :=
    ⟨fun h => ⟨h.ne r (by simp), h.same r (by simp)⟩,
      fun h => ⟨by simpa using h.1, by simpa using h.2, pairwise_singleton _ _⟩⟩
  rw [← singleton_append, sortedRuns_append, hone]
  simp only [flatten_singleton]

theorem SortedRuns.congr (h : SortedRuns key R) (hk : ∀ x ∈ R.flatten, key' x = key x) : SortedRuns key' R where
  ne := h.ne
  same r hr x hx y hy := by
    rw [hk x (mem_flatten_of_mem hr hx), hk y (mem_flatten_of_mem hr hy), h.same r hr x hx y hy]
  sorted := h.sorted.imp_of_mem fun {r r'} hr hr' hrr x hx y hy => by
    rw [hk x (mem_flatten_of_mem hr hx), hk y (mem_flatten_of_mem hr' hy)]
    exact hrr x hx y hy

theorem SortedRuns.sorted_flatten : ∀ {R : List (List α)}, SortedRuns key R →
    R.flatten.Pairwise fun x y => key x ≤ key y
  | [], _ => by simp
  | r :: R, h => by
    obtain ⟨⟨-, hsame⟩, h2, h3⟩ := sortedRuns_cons.mp h
    rw [flatten_cons, pairwise_append]
    refine ⟨pairwise_of_forall_mem_list fun x hx y hy => ?_, h2.sorted_flatten, fun x hx y hy => ?_⟩
    · exact (hsame x hx y hy).le
    · exact (h3 x hx y hy).le

theorem SortedRuns.exists_split (t : β) : ∀ {R : List (List α)}, SortedRuns key R →
    ∃ R₁ R₂, R = R₁ ++ R₂ ∧ (∀ x ∈ R₁.flatten, key x ≤ t) ∧ ∀ x ∈ R₂.flatten, t < key x
  | [], _ => ⟨[], [], rfl, by simp, by simp⟩
  | r :: R, h => by
    obtain ⟨⟨hne, hsame⟩, h2, h3⟩ := sortedRuns_cons.mp h
    obtain ⟨a, ha⟩ := exists_mem_of_ne_nil r hne
    have hr : ∀ x ∈ r, key x = key a := fun x hx => hsame x hx a ha
    by_cases hat : key a ≤ t
    · obtain ⟨R₁, R₂, rfl, hle, hlt⟩ := h2.exists_split t
      refine ⟨r :: R₁, R₂, rfl, fun x hx => ?_, hlt⟩
      rw [flatten_cons, mem_append] at hx
      exact hx.elim (fun hx => (hr x hx).le.trans hat) (hle x)
    · refine ⟨[], r :: R, rfl, by simp, fun x hx => ?_⟩
      rw [flatten_cons, mem_append] at hx
      rcases hx with hx | hx
      · rw [hr x hx]; exact not_le.mp hat
      · exact (not_le.mp hat).trans (h3 a ha x hx)

theorem SortedRuns.append_last (h : SortedRuns key (R ++ r :: R₂)) (hr : ∀ y ∈ r, key y = key x) :
    SortedRuns key (R ++ (r ++ [x]) :: R₂) := by
  obtain ⟨h1, h2, h3⟩ := sortedRuns_append.mp h
  obtain ⟨⟨hne, hsame⟩, h5, h6⟩ := sortedRuns_cons.mp h2
  obtain ⟨a, ha⟩ := exists_mem_of_ne_nil r hne
  have hk : ∀ y ∈ r ++ [x], key y = key a := by
    intro y hy
    rw [mem_append, mem_singleton] at hy
    rcases hy with hy | rfl
    · exact hsame y hy a ha
    · exact (hr a ha).symm
  refine sortedRuns_append.mpr ⟨h1, sortedRuns_cons.mpr ⟨⟨by simp, ?_⟩, h5, ?_⟩, ?_⟩
  · intro y hy z hz
    exact (hk y hy).trans (hk z hz).symm
  · intro y hy z hz
    rw [hk y hy]
    exact h6 a ha z hz
  · intro y hy z hz
    rw [flatten_cons, mem_append] at hz
    rcases hz with hz | hz
    · rw [hk z hz]
      exact h3 y hy a (by simp [ha])
    · exact h3 y hy z (by rw [flatten_cons, mem_append]; exact .inr hz)

/-- A new element between two keys is a run of its own. -/
theorem SortedRuns.insert_run (h : SortedRuns key (R₁ ++ R₂)) (h1 : ∀ y ∈ R₁.flatten, key y < key x)
    (h2 : ∀ y ∈ R₂.flatten, key x < key y) : SortedRuns key (R₁ ++ [x] :: R₂) := by
  obtain ⟨h3, h4, h5⟩ := sortedRuns_append.mp h
  refine sortedRuns_append.mpr ⟨h3, sortedRuns_cons.mpr ⟨by simp, h4, by simpa using h2⟩, ?_⟩
  intro y hy z hz
  rw [flatten_cons, mem_append, mem_singleton] at hz
  rcases hz with rfl | hz
  · exact h1 y hy
  · exact h5 y hy z hz

theorem SortedRuns.shrink {r' : List α} (h : SortedRuns key (R₁ ++ r :: R₂)) (hsub : ∀ y ∈ r', y ∈ r)
    (hne : r' ≠ []) : SortedRuns key (R₁ ++ r' :: R₂) := by
  obtain ⟨h1, h2, h3⟩ := sortedRuns_append.mp h
  obtain ⟨⟨-, hsame⟩, h5, h6⟩ := sortedRuns_cons.mp h2
  refine sortedRuns_append.mpr ⟨h1, sortedRuns_cons.mpr ⟨⟨hne, ?_⟩, h5, ?_⟩, ?_⟩
  · exact fun y hy z hz => hsame y (hsub y hy) z (hsub z hz)
  · exact fun y hy => h6 y (hsub y hy)
  · intro y hy z hz
    rw [flatten_cons, mem_append] at hz
    refine h3 y hy z ?_
    rw [flatten_cons, mem_append]
    exact hz.imp_left (hsub z)

theorem SortedRuns.remove_run (h : SortedRuns key (R₁ ++ r :: R₂)) : SortedRuns key (R₁ ++ R₂) := by
  obtain ⟨h1, h2, h3⟩ := sortedRuns_append.mp h
  refine sortedRuns_append.mpr ⟨h1, (sortedRuns_cons.mp h2).2.1, fun y hy z hz => h3 y hy z ?_⟩
  rw [flatten_cons, mem_append]
  exact .inr hz

/-- The skip pointers of one run: its two ends point at each other, what lies between points nowhere. -/
structure RunLinks (null : α) (ld : α → α) (r : List α) : Prop where
  ne : r ≠ []
  head : ld (r.head ne) = r.getLast ne
  last : ld (r.getLast ne) = r.head ne
  inner : ∀ x ∈ r.tail.dropLast, ld x = null

omit [LinearOrder β] in
theorem RunLinks.congr {null : α} {ld ld' : α → α} (h : RunLinks null ld r) (hl : ∀ x ∈ r, ld' x = ld x) :
    RunLinks null ld' r where
  ne := h.ne
  head := (hl _ (head_mem h.ne)).trans h.head
  last := (hl _ (getLast_mem h.ne)).trans h.last
  inner x hx := (hl x (mem_of_mem_tail (mem_of_mem_dropLast hx))).trans (h.inner x hx)

section RunEdits

variable {null : α} {ld ld' : α → α}

omit [LinearOrder β] in
/-- Joining the two ends of a run whose inner pointers are null. -/
theorem RunLinks.of_ends (hne : r ≠ []) (hnd : r.Nodup) (hin : ∀ x ∈ r.tail.dropLast, ld x = null)
    (hh : ld' (r.head hne) = r.getLast hne) (hl : ld' (r.getLast hne) = r.head hne)
    (ho : ∀ x ∈ r, x ≠ r.head hne → x ≠ r.getLast hne → ld' x = ld x) : RunLinks null ld' r where
  ne := hne
  head := hh
  last := hl
  inner x hx := by
    obtain ⟨a, r, rfl⟩ := exists_cons_of_ne_nil hne
    have hxr : x ∈ r := mem_of_mem_dropLast hx
    have hxa : x ≠ a := ne_of_mem_of_not_mem hxr (nodup_cons.mp hnd).1
    have hr : r ≠ [] := ne_nil_of_mem hxr
    have hxl : x ≠ (a :: r).getLast hne := by
      rw [getLast_cons hr]
      intro he
      have hd := (nodup_cons.mp hnd).2
      rw [← dropLast_append_getLast hr, nodup_append] at hd
      exact hd.2.2 x hx _ (by simp) he
    rw [ho x (mem_cons_of_mem _ hxr) hxa hxl]
    exact hin x hx

omit [LinearOrder β] in
/-- The pointer writes that add an element at the end of a run. -/
theorem RunLinks.concat [DecidableEq α] (h : RunLinks null ld r) (hnd : (r ++ [x]).Nodup) :
    RunLinks null (update (update (update ld x (ld (r.getLast h.ne))) (r.getLast h.ne) null)
      (ld (r.getLast h.ne)) x) (r ++ [x]) := by
  have hxr : x ∉ r := fun hx => (nodup_append.mp hnd).2.2 x hx x (by simp) rfl
  have hxl : x ≠ r.getLast h.ne := fun he => hxr (he ▸ getLast_mem h.ne)
  have hxh : x ≠ r.head h.ne := fun he => hxr (he ▸ head_mem h.ne)
  rw [h.last]
  refine ⟨by simp, ?_, ?_, fun y hy => ?_⟩
  · rw [head_append_of_ne_nil h.ne, update_self, getLast_concat]
  · rw [head_append_of_ne_nil h.ne, getLast_concat, update_of_ne hxh, update_of_ne hxl,
      update_self]
  · -- the old last element is inner now
    have hy' : y ∈ r.tail := by
      rw [tail_append_of_ne_nil h.ne, dropLast_concat] at hy
      exact hy
    obtain ⟨a, r, rfl⟩ := exists_cons_of_ne_nil h.ne
    have hyr : y ∈ r := hy'
    have hr : r ≠ [] := ne_nil_of_mem hyr
    have hya : y ≠ a := ne_of_mem_of_not_mem hyr (nodup_cons.mp (nodup_append.mp hnd).1).1
    have hyx : y ≠ x := ne_of_mem_of_not_mem (mem_cons_of_mem a hyr) hxr
    rw [head_cons, update_of_ne hya]
    by_cases hyl : y = (a :: r).getLast h.ne
    · rw [hyl, update_self]
    · rw [update_of_ne hyl, update_of_ne hyx]
      refine h.inner y ?_
      rw [← dropLast_append_getLast hr, mem_append, mem_singleton] at hyr
      exact hyr.resolve_right fun he => hyl (he.trans (getLast_cons hr).symm)

omit [LinearOrder β] in
/-- An inner element may leave without a pointer write. -/
theorem RunLinks.drop_inner {p q : List α} (hp : p ≠ []) (hq : q ≠ []) (h : RunLinks null ld (p ++ x :: q)) :
    RunLinks null ld (p ++ q) := by
  have hhead : (p ++ q).head (by simp [hp]) = (p ++ x :: q).head (by simp) := by
    rw [head_append_of_ne_nil hp, head_append_of_ne_nil hp]
  have hlast : (p ++ q).getLast (by simp [hp]) = (p ++ x :: q).getLast (by simp) := by
    rw [getLast_append_of_ne_nil _ hq, getLast_append_of_ne_nil _ (by simp), getLast_cons hq]
  refine ⟨by simp [hp], ?_, ?_, fun y hy => h.inner y ?_⟩
  · rw [hhead, hlast]; exact h.head
  · rw [hhead, hlast]; exact h.last
  · rw [tail_append_of_ne_nil hp, dropLast_append_of_ne_nil hq] at hy
    rw [tail_append_of_ne_nil hp, dropLast_append_of_ne_nil (by simp), dropLast_cons_of_ne_nil hq]
    rw [mem_append] at hy ⊢
    exact hy.imp_right (mem_cons_of_mem x)

end RunEdits

end Lib
