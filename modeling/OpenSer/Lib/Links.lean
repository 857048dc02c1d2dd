import Mathlib.Data.List.Chain
import Mathlib.Tactic

/-!
# Doubly linked lists over field maps

A heap of nodes is read through one map per field, `next` and `prev`. `Links next prev l` says that the nodes of `l`
point at each other in list order; a ring is the list that starts and ends at its anchor. A node may occur once as the
source of a link and once as its target, so the side conditions speak of `l.dropLast` and `l.tail` apart.

* `Links.congr`: only the pointers between the nodes matter.
* `Links.insert`, `Links.remove`: the four (two) pointer writes that link a node in (out).
* `Links.next_eq`, `Links.prev_eq`: reading a pointer at a known position.
* `Walk`: a singly linked list.
* `sorted_split`, `sorted_insert`: a list sorted by a key, cut at a bound.
-/

namespace Lib

open List Function

variable {α : Type*} {next prev next' prev' : α → α}

variable {x y : α}

theorem mem_middle {l r : List α} : x ∈ l ++ y :: r ↔ x = y ∨ x ∈ l ++ r := by
  simp only [mem_append, mem_cons]
  tauto

/-- Neighbours in the list point at each other. -/
def Links (next prev : α → α) (l : List α) : Prop := l.IsChain fun x y => next x = y ∧ prev y = x

theorem Links.nil : Links next prev [] := List.IsChain.nil

theorem Links.singleton (x : α) : Links next prev [x] := List.IsChain.singleton x

variable {l₁ l₂ : List α}

/-- Links of a concatenation: both halves share the seam. -/
theorem links_split :
    Links next prev (l₁ ++ x :: l₂) ↔ Links next prev (l₁ ++ [x]) ∧ Links next prev (x :: l₂) :=
  isChain_split

theorem Links.of_append_left (h : Links next prev (l₁ ++ l₂)) : Links next prev l₁ :=
  List.IsChain.left_of_append h

theorem Links.of_append_right (h : Links next prev (l₁ ++ l₂)) : Links next prev l₂ :=
  List.IsChain.right_of_append h

theorem links_cons_cons {l : List α} :
    Links next prev (x :: y :: l) ↔ (next x = y ∧ prev y = x) ∧ Links next prev (y :: l) :=
  isChain_cons_cons

theorem Links.next_eq (h : Links next prev (l₁ ++ x :: y :: l₂)) : next x = y :=
  (links_cons_cons.mp (links_split.mp h).2).1.1

theorem Links.prev_eq (h : Links next prev (l₁ ++ x :: y :: l₂)) : prev y = x :=
  (links_cons_cons.mp (links_split.mp h).2).1.2

variable {xs ys : List α} {a : α}

/-- The predecessor of a node behind a first node `a` and a list is the list's last node, or `a`. -/
theorem Links.prev_eq_getLastD (h : Links next prev (a :: xs ++ y :: ys)) :
    prev y = xs.getLastD a := by
  rcases eq_nil_or_concat xs with rfl | ⟨xs', x, rfl⟩
  · exact (links_cons_cons.mp h).1.2
  · have h' : Links next prev ((a :: xs') ++ x :: y :: ys) := by simpa using h
    rw [concat_eq_append, getLastD_concat, h'.prev_eq]

variable {pre : List α} {b : α}

/-- The successor of a node before a list and a last node `b` is the list's first node, or `b`. -/
theorem Links.next_eq_headD (h : Links next prev (pre ++ x :: (ys ++ [b]))) :
    next x = ys.headD b := by
  cases ys with
  | nil | cons y ys => exact h.next_eq

theorem Links.congr : ∀ {l : List α}, Links next prev l → (∀ x ∈ l.dropLast, next' x = next x) →
    (∀ y ∈ l.tail, prev' y = prev y) → Links next' prev' l
  | [], _, _, _ => Links.nil
  | [x], _, _, _ => Links.singleton x
  | x :: y :: l, h, hn, hp => by
    obtain ⟨⟨h1, h2⟩, h3⟩ := links_cons_cons.mp h
    refine links_cons_cons.mpr ⟨⟨?_, ?_⟩, Links.congr h3 (fun z hz => hn z ?_) (fun z hz => hp z ?_)⟩
    · rw [hn x (by simp), h1]
    · rw [hp y (by simp), h2]
    · simp only [dropLast_cons_cons, mem_cons]
      exact .inr hz
    · exact mem_of_mem_tail hz

theorem Links.ring_congr (h : Links next prev (a :: xs ++ [a]))
    (heq : ∀ x ∈ a :: xs, next' x = next x ∧ prev' x = prev x) : Links next' prev' (a :: xs ++ [a]) := by
  refine h.congr (fun x hx => (heq x ?_).1) fun x hx => (heq x ?_).2
  · rwa [dropLast_concat] at hx
  · exact (perm_append_singleton ..).mem_iff.mp hx

variable {post : List α}

/-- Side conditions at a seam: the source before it occurs nowhere else as a source, the target behind it nowhere
else as a target. -/
theorem seam_fresh (hs : (pre ++ x :: y :: post).dropLast.Nodup) (ht : (pre ++ x :: y :: post).tail.Nodup) :
    x ∉ pre ∧ x ∉ (y :: post).dropLast ∧ y ∉ (pre ++ [x]).tail ∧ y ∉ post := by
  have hs' : (pre ++ x :: (y :: post).dropLast).Nodup := by
    simpa [dropLast_append_of_ne_nil] using hs
  have hx := nodup_middle.mp hs'
  rw [nodup_cons, mem_append, not_or] at hx
  refine ⟨hx.1.1, hx.1.2, ?_⟩
  cases pre with
  | nil => exact ⟨by simp, (nodup_cons.mp ht).1⟩
  | cons p pre =>
    have ht' : ((pre ++ [x]) ++ y :: post).Nodup := by simpa using ht
    have hy := nodup_middle.mp ht'
    rw [nodup_cons, mem_append, not_or] at hy
    exact ⟨by simpa using hy.1.1, hy.1.2⟩

theorem exists_concat_getLastD (a : α) (xs : List α) : ∃ pre, a :: xs = pre ++ [xs.getLastD a] := by
  rcases eq_nil_or_concat xs with rfl | ⟨xs', x, rfl⟩
  · exact ⟨[], rfl⟩
  · exact ⟨a :: xs', by simp⟩

theorem exists_cons_headD (ys : List α) (b : α) : ∃ post, ys ++ [b] = ys.headD b :: post := by
  cases ys with
  | nil => exact ⟨[], rfl⟩
  | cons y ys => exact ⟨ys ++ [b], rfl⟩

theorem headD_mem_cons (ys : List α) (b : α) : ys.headD b ∈ b :: ys := by cases ys <;> simp

section Edits

variable [DecidableEq α] {z : α}

/-- **Linking in**: a fresh node between two neighbours. -/
theorem Links.insert (h : Links next prev (pre ++ x :: y :: post))
    (hs : (pre ++ x :: y :: post).dropLast.Nodup) (ht : (pre ++ x :: y :: post).tail.Nodup)
    (hz : z ∉ pre ++ x :: y :: post) :
    Links (update (update next z y) x z) (update (update prev z x) y z)
      (pre ++ x :: z :: y :: post) := by
  obtain ⟨hx1, hx2, hy1, hy2⟩ := seam_fresh hs ht
  have hne : ∀ w ∈ pre ++ x :: y :: post, w ≠ z := fun w hw e => hz (e ▸ hw)
  obtain ⟨h1, h2⟩ := links_split.mp h
  obtain ⟨-, h3⟩ := links_cons_cons.mp h2
  refine links_split.mpr ⟨h1.congr (fun w hw => ?_) (fun w hw => ?_),
    links_cons_cons.mpr ⟨⟨?_, ?_⟩, links_cons_cons.mpr ⟨⟨?_, ?_⟩, h3.congr (fun w hw => ?_) (fun w hw => ?_)⟩⟩⟩
  · have hw' : w ∈ pre := by simpa using hw
    rw [update_of_ne (ne_of_mem_of_not_mem hw' hx1), update_of_ne (hne w (by simp [hw']))]
  · have hw' : w ∈ pre ++ [x] := mem_of_mem_tail hw
    rw [update_of_ne (ne_of_mem_of_not_mem hw hy1),
      update_of_ne (hne w (by simp only [mem_append, mem_cons] at hw' ⊢; tauto))]
  · rw [update_self]
  · rw [update_of_ne (hne y (by simp)).symm, update_self]
  · rw [update_of_ne (hne x (by simp)).symm, update_self]
  · rw [update_self]
  · have hw' : w ∈ y :: post := mem_of_mem_dropLast hw
    rw [update_of_ne (ne_of_mem_of_not_mem hw hx2), update_of_ne (hne w (by
      rw [mem_append]; exact .inr (mem_cons_of_mem _ hw')))]
  · have hw' : w ∈ post := hw
    rw [update_of_ne (ne_of_mem_of_not_mem hw' hy2), update_of_ne (hne w (by simp [hw']))]

/-- **Linking out**: the two neighbours of a node are joined. -/
theorem Links.remove (h : Links next prev (pre ++ x :: z :: y :: post))
    (hs : (pre ++ x :: y :: post).dropLast.Nodup) (ht : (pre ++ x :: y :: post).tail.Nodup) :
    Links (update next x y) (update prev y x) (pre ++ x :: y :: post) := by
  obtain ⟨hx1, hx2, hy1, hy2⟩ := seam_fresh hs ht
  obtain ⟨h1, h2⟩ := links_split.mp h
  have h3 := (links_cons_cons.mp (links_cons_cons.mp h2).2).2
  refine links_split.mpr ⟨h1.congr (fun w hw => ?_) (fun w hw => ?_),
    links_cons_cons.mpr ⟨⟨?_, ?_⟩, h3.congr (fun w hw => ?_) (fun w hw => ?_)⟩⟩
  · have hw' : w ∈ pre := by simpa using hw
    rw [update_of_ne (ne_of_mem_of_not_mem hw' hx1)]
  · rw [update_of_ne (ne_of_mem_of_not_mem hw hy1)]
  · rw [update_self]
  · rw [update_self]
  · rw [update_of_ne (ne_of_mem_of_not_mem hw hx2)]
  · have hw' : w ∈ post := hw
    rw [update_of_ne (ne_of_mem_of_not_mem hw' hy2)]

theorem Links.insert_at (h : Links next prev (a :: xs ++ (ys ++ [b])))
    (hs : (a :: xs ++ ys).Nodup) (ht : (xs ++ (ys ++ [b])).Nodup) (hz : z ∉ a :: xs ++ (ys ++ [b])) :
    Links (update (update next z (ys.headD b)) (xs.getLastD a) z)
      (update (update prev z (xs.getLastD a)) (ys.headD b) z) (a :: xs ++ z :: (ys ++ [b])) := by
  obtain ⟨pre, hpre⟩ := exists_concat_getLastD a xs
  obtain ⟨post, hpost⟩ := exists_cons_headD ys b
  have hs' : (a :: xs ++ (ys ++ [b])).dropLast.Nodup := by
    rw [← append_assoc, dropLast_concat]
    exact hs
  have ht' : (a :: xs ++ (ys ++ [b])).tail.Nodup := ht
  rw [hpre, hpost, append_assoc] at h hz hs' ht' ⊢
  exact h.insert hs' ht' hz

theorem Links.remove_at (h : Links next prev (a :: xs ++ z :: (ys ++ [b])))
    (hs : (a :: xs ++ ys).Nodup) (ht : (xs ++ (ys ++ [b])).Nodup) :
    Links (update next (xs.getLastD a) (ys.headD b)) (update prev (ys.headD b) (xs.getLastD a))
      (a :: xs ++ (ys ++ [b])) := by
  obtain ⟨pre, hpre⟩ := exists_concat_getLastD a xs
  obtain ⟨post, hpost⟩ := exists_cons_headD ys b
  have hs' : (a :: xs ++ (ys ++ [b])).dropLast.Nodup := by
    rw [← append_assoc, dropLast_concat]
    exact hs
  have ht' : (a :: xs ++ (ys ++ [b])).tail.Nodup := ht
  rw [hpre, hpost, append_assoc] at h hs' ht' ⊢
  exact h.remove hs' ht'

end Edits

/-! ## Singly linked lists -/

/-- Following `next` from `a` visits the nodes of the list and then stands at `b`. -/
def Walk (next : α → α) : α → List α → α → Prop
  | a, [], b => a = b
  | a, x :: xs, b => a = x ∧ Walk next (next x) xs b

theorem walk_append : ∀ {a b : α} {xs ys : List α},
    Walk next a (xs ++ ys) b ↔ ∃ c, Walk next a xs c ∧ Walk next c ys b
  | a, b, [], ys => by simp [Walk]
  | a, b, x :: xs, ys => by
    simp only [cons_append, Walk, @walk_append _ b xs ys]
    constructor
    · rintro ⟨h1, c, h2, h3⟩
      exact ⟨c, ⟨h1, h2⟩, h3⟩
    · rintro ⟨c, ⟨h1, h2⟩, h3⟩
      exact ⟨h1, c, h2, h3⟩

theorem Walk.congr : ∀ {a b : α} {xs : List α}, Walk next a xs b → (∀ x ∈ xs, next' x = next x) → Walk next' a xs b
  | _, _, [], h, _ => h
  | _, _, x :: xs, h, hn => by
    refine ⟨h.1, ?_⟩
    rw [hn x (by simp)]
    exact Walk.congr h.2 (forall_mem_cons.mp hn).2

/-- What a path reaches lies on every longer path from the same place. -/
theorem Walk.mem : ∀ {a b c : α} {xs ys : List α}, Walk next a xs b → Walk next a ys c →
    (∀ x ∈ xs, x ≠ c) → b ≠ c → b ∈ ys
  | _, _, _, [], [], hxs, hys, _, hb => absurd (hxs.symm.trans hys) hb
  | _, _, _, [], y :: ys, hxs, hys, _, _ => mem_cons.mpr (.inl (hxs.symm.trans hys.1))
  | _, _, _, x :: xs, [], hxs, hys, hne, _ => absurd (hxs.1.symm.trans hys) (hne x (mem_cons_self ..))
  | _, _, _, x :: xs, y :: ys, hxs, hys, hne, hb => by
    obtain ⟨rfl, hxs⟩ := hxs
    obtain ⟨rfl, hys⟩ := hys
    exact mem_cons_of_mem _ (hxs.mem hys (forall_mem_cons.mp hne).2 hb)

/-- There is one path from a place to another that it does not visit. -/
theorem Walk.unique : ∀ {a c : α} {xs ys : List α}, Walk next a xs c → Walk next a ys c → c ∉ xs → c ∉ ys → xs = ys
  | _, _, [], [], _, _, _, _ => rfl
  | _, _, [], y :: ys, hxs, hys, _, hc => absurd (mem_cons.mpr (.inl (hxs.symm.trans hys.1))) hc
  | _, _, x :: xs, [], hxs, hys, hc, _ => absurd (mem_cons.mpr (.inl (hys.symm.trans hxs.1))) hc
  | _, _, x :: xs, y :: ys, hxs, hys, hcx, hcy => by
    obtain ⟨rfl, hxs⟩ := hxs
    obtain ⟨rfl, hys⟩ := hys
    rw [hxs.unique hys (fun hc => hcx (mem_cons_of_mem _ hc)) fun hc => hcy (mem_cons_of_mem _ hc)]

theorem Walk.set_last [DecidableEq α] {c : α} (h : Walk next a (xs ++ [x]) b) (hx : x ∉ xs) :
    Walk (update next x c) a (xs ++ [x]) c := by
  obtain ⟨m, h1, h2, -⟩ := walk_append.mp h
  refine walk_append.mpr ⟨m, h1.congr fun y hy => ?_, h2, ?_⟩
  · exact update_of_ne (ne_of_mem_of_not_mem hy hx) _ _
  · exact update_self ..

theorem Walk.start (h : Walk next a xs b) : a = xs.headD b := by
  cases xs with
  | nil => exact h
  | cons x xs => exact h.1

/-- Cutting the list behind its last node leaves a path to null. -/
theorem Links.walk_cut [DecidableEq α] (null : α) : ∀ {x : α} {xs : List α}, Links next prev (x :: xs) →
    (x :: xs).Nodup → Walk (update next (xs.getLastD x) null) x (x :: xs) null
  | x, [], _, _ => ⟨rfl, update_self ..⟩
  | x, y :: ys, h, hnd => by
    obtain ⟨⟨h1, -⟩, h2⟩ := links_cons_cons.mp h
    obtain ⟨hx, hnd'⟩ := nodup_cons.mp hnd
    obtain ⟨pre, hpre⟩ := exists_concat_getLastD y ys
    have hlast : ys.getLastD y ∈ y :: ys := by rw [hpre]; simp
    have hne : x ≠ ys.getLastD y := (ne_of_mem_of_not_mem hlast hx).symm
    refine ⟨rfl, ?_⟩
    rw [getLastD_cons, update_of_ne hne, h1]
    exact h2.walk_cut null hnd'

theorem Links.walk : ∀ {x b : α} {xs : List α}, Links next prev (x :: xs ++ [b]) → Walk next x (x :: xs) b
  | x, b, [], h => ⟨rfl, (links_cons_cons.mp h).1.1⟩
  | x, b, y :: ys, h => by
    obtain ⟨⟨h1, -⟩, h2⟩ := links_cons_cons.mp h
    refine ⟨rfl, ?_⟩
    rw [h1]
    exact h2.walk

/-- **Cutting off** the nodes behind the first one: they are a path to null, and what is left is linked. -/
theorem Links.cut [DecidableEq α] {e : α} {es : List α} (null : α) (h : Links next prev (a :: e :: es ++ (ys ++ [b])))
    (hs : (a :: e :: es ++ ys).Nodup) (ht : (e :: es ++ (ys ++ [b])).Nodup) :
    prev (ys.headD b) = es.getLastD e ∧
      Walk (update (update next (es.getLastD e) null) a (ys.headD b)) e (e :: es) null ∧
      Links (update (update next (es.getLastD e) null) a (ys.headD b)) (update prev (ys.headD b) a)
        (a :: ys ++ [b]) := by
  obtain ⟨post, hpost⟩ := exists_cons_headD ys b
  obtain ⟨ha, hs⟩ := nodup_cons.mp hs
  rw [hpost] at h ht
  obtain ⟨hnd, hpost', -⟩ := nodup_append.mp ht
  have hcut : Links next prev ([a] ++ (e :: es) ++ ys.headD b :: post) := h
  refine ⟨by rw [h.prev_eq_getLastD, getLastD_cons], ?_, ?_⟩
  · refine (hcut.of_append_left.of_append_right.walk_cut null hnd).congr fun y hy => ?_
    exact update_of_ne (ne_of_mem_of_not_mem hy fun hc => ha (mem_append_left _ hc)) _ _
  · rw [cons_append, hpost]
    refine links_cons_cons.mpr ⟨⟨update_self .., update_self ..⟩,
      hcut.of_append_right.congr (fun y hy => ?_) fun y hy => ?_⟩
    · rw [← hpost, dropLast_concat] at hy
      have hya : y ≠ a := fun hc => ha (mem_append_right _ (hc ▸ hy))
      have hylast : y ≠ es.getLastD e := fun hc => (nodup_append.mp hs).2.2 _ (getLastD_mem_cons ..) y hy hc.symm
      rw [update_of_ne hya, update_of_ne hylast]
    · exact update_of_ne (ne_of_mem_of_not_mem hy (nodup_cons.mp hpost').1) _ _

/-! ## Lists sorted by a key -/

section Sorted

variable {β : Type*} [LinearOrder β] {key : α → β} {l : List α}

section
variable (h : l.Pairwise fun x y => key x ≤ key y)
include h

theorem sorted_congr {key' : α → β} (heq : ∀ x ∈ l, key' x = key x) :
    l.Pairwise fun x y => key' x ≤ key' y := by
  refine h.imp_of_mem fun {x y} hx hy hxy => ?_
  rw [heq x hx, heq y hy]
  exact hxy

theorem sorted_split (t : β) :
    l = l.filter (fun x => key x ≤ t) ++ l.filter fun x => t < key x := by
  induction l with
  | nil => rfl
  | cons x l ih =>
    obtain ⟨hx, hl⟩ := pairwise_cons.mp h
    by_cases hle : key x ≤ t
    · rw [filter_cons_of_pos (by simpa using hle), filter_cons_of_neg (by simpa using hle), cons_append,
        ← ih hl]
    · have hlater : ∀ y ∈ x :: l, t < key y :=
        forall_mem_cons.mpr ⟨not_le.mp hle, fun y hy => (not_le.mp hle).trans_le (hx y hy)⟩
      rw [filter_eq_nil_iff.mpr fun y hy => by simpa using hlater y hy,
        filter_eq_self.mpr fun y hy => by simpa using hlater y hy, nil_append]

theorem sorted_insert {z : α} :
    (l.filter (fun x => key x ≤ key z) ++ z :: l.filter fun x => key z < key x).Pairwise fun x y => key x ≤ key y := by
  have hle : ∀ x ∈ l.filter fun x => key x ≤ key z, key x ≤ key z := fun x hx => by simpa using (mem_filter.mp hx).2
  have hlt : ∀ x ∈ l.filter fun x => key z < key x, key z ≤ key x := fun x hx => by
    have := (mem_filter.mp hx).2
    exact le_of_lt (by simpa using this)
  refine pairwise_append.mpr ⟨h.filter _, pairwise_cons.mpr ⟨hlt, h.filter _⟩, fun x hx => forall_mem_cons.mpr ?_⟩
  exact ⟨hle x hx, fun y hy => (hle x hx).trans (hlt y hy)⟩

end

end Sorted

end Lib

