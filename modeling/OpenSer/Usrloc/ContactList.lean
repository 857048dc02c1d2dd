import OpenSer.Usrloc.UContact
import OpenSer.Lib.Traces

/-!
# The list of contacts

The contacts of a record are a doubly linked list of the contacts that are allocated, each once, whatever is done.

* `linkAt_ok`, `memRemoveUcontact_ok`: linking in and out.
* `memInsertUcontact_ok`, `updateContactPos_ok`, `timer_ok`: what the operations make of the list.
-/

namespace OpenSer.Usrloc

open List Function Lib URecord

/-- The list of a record is `l`: consistent, and with every contact that is allocated. -/
structure ListOk (r : URecord) (l : List Nat) : Prop where
  dll : Dll r.next r.prev r.contacts l
  nodup : l.Nodup
  live : ∀ c, c ∈ l ↔ r.live c = true
  lt : ∀ c ∈ l, c < r.fresh

variable {r : URecord} {l l' : List Nat} (stop : Nat → Bool) {c : Nat}

theorem ListOk.length_le (h : ListOk r l) : l.length ≤ r.fresh := by
  have hsub : l ⊆ range r.fresh := fun c hc => mem_range.mpr (h.lt c hc)
  simpa using (h.nodup.subperm hsub).length_le

theorem ListOk.unique {l : List Nat} (h : ListOk r l) (h' : ListOk r l') : l = l' := h.dll.unique h'.dll

theorem ListOk.not_fresh (h : ListOk r l) : r.fresh ∉ l :=
  fun hc => Nat.lt_irrefl _ (h.lt _ hc)

theorem ListOk.split (h : ListOk r l) (hc : r.live c = true) :
    ∃ l₁ l₂, l = l₁ ++ c :: l₂ := append_of_mem ((h.live c).mpr hc)

namespace URecord

variable {r r' : URecord} {l l₁ l₂ : List Nat} {c fuel : Nat} {visit : Nat → UDomain → UDomain} {u u' : UDomain}

/-! ## Linking -/

theorem findPos_eq (l₁ l₂ : List Nat) (h : Dll r.next r.prev r.contacts (l₁ ++ l₂))
    (hfuel : l₂.length ≤ fuel) :
    r.findPos stop fuel l₂.head? l₁.getLast? =
      some ((l₂.dropWhile fun x => !stop x).head?, (l₁ ++ l₂.takeWhile fun x => !stop x).getLast?) := by
  induction l₂ generalizing l₁ fuel with
  | nil => simp [findPos]
  | cons x l₂ ih =>
    cases fuel with
    | zero => simp at hfuel
    | succ fuel =>
      rw [head?_cons, findPos]
      cases hx : stop x with
      | true => simp [hx]
      | false =>
        have hstep : l₁ ++ x :: l₂ = (l₁ ++ [x]) ++ l₂ := by simp
        rw [h.next_eq, ← getLast?_concat (l := l₁)]
        rw [hstep] at h
        rw [ih (l₁ ++ [x]) h (by simpa using hfuel)]
        simp [hx]

theorem linkAt_links {p n : Option Nat} (hn : r.next c = none) (hp : r.prev c = none) (hpc : ∀ x ∈ p, c ≠ x)
    (hnc : ∀ x ∈ n, c ≠ x) (hback : ∀ x ∈ n, r.prev x = p) :
    (r.linkAt c n p).next c = n ∧ (r.linkAt c n p).prev c = p ∧
      (∀ x ≠ c, (r.linkAt c n p).next x = if p = some x then some c else r.next x) ∧
      (∀ x ≠ c, (r.linkAt c n p).prev x = if n = some x then some c else r.prev x) ∧
      (r.linkAt c n p).contacts = if p = none then some c else r.contacts := by
  cases n with
  | none =>
    cases p with
    | none => simp [linkAt, hn, hp]
    | some p => simp +contextual [linkAt, setNext, setPrev, update_apply, hn, hpc p rfl, eq_comm]
  | some y =>
    cases p with
    | none => simp +contextual [linkAt, hback y rfl, setNext, setPrev, update_apply, hp, hnc y rfl, eq_comm]
    | some p =>
      simp +contextual [linkAt, hback y rfl, setNext, setPrev, update_apply, hpc p rfl, hnc y rfl, eq_comm]

theorem linkAt_dll (l₁ l₂ : List Nat) (h : Dll r.next r.prev r.contacts (l₁ ++ l₂)) (hnd : (l₁ ++ l₂).Nodup)
    (hc : c ∉ l₁ ++ l₂) (hn : r.next c = none) (hp : r.prev c = none) :
    Dll (r.linkAt c l₂.head? l₁.getLast?).next (r.linkAt c l₂.head? l₁.getLast?).prev
      (r.linkAt c l₂.head? l₁.getLast?).contacts (l₁ ++ c :: l₂) := by
  have hne : ∀ x ∈ l₁ ++ l₂, x ≠ c := fun x hx hxc => hc (hxc ▸ hx)
  have hback : ∀ x ∈ l₂.head?, r.prev x = l₁.getLast? := by
    intro x hx
    obtain ⟨l, rfl⟩ := head?_eq_some_iff.mp hx
    exact h.prev_eq
  obtain ⟨h1, h2, h3, h4, h5⟩ := linkAt_links hn hp
    (fun x hx => (hne x (mem_append_left _ (mem_of_getLast? hx))).symm)
    (fun x hx => (hne x (mem_append_right _ (mem_of_head? hx))).symm) hback
  rw [h5]
  simp only [getLast?_eq_none_iff]
  exact h.insert hnd h1 h2 (fun x hx => h3 x (hne x hx)) fun x hx => h4 x (hne x hx)

theorem memRemoveUcontact_links (r : URecord) (c : Nat) :
    (∀ x, (r.memRemoveUcontact c).next x = if r.prev c = some x then r.next c else r.next x) ∧
      (∀ x, (r.memRemoveUcontact c).prev x = if r.next c = some x then r.prev c else r.prev x) ∧
      (r.memRemoveUcontact c).contacts = if r.prev c = none then r.next c else r.contacts := by
  unfold memRemoveUcontact
  cases r.prev c <;> cases r.next c <;> simp [setNext, setPrev, update_apply, eq_comm]

theorem memRemoveUcontact_dll (h : Dll r.next r.prev r.contacts (l₁ ++ c :: l₂)) (hnd : (l₁ ++ l₂).Nodup) :
    Dll (r.memRemoveUcontact c).next (r.memRemoveUcontact c).prev (r.memRemoveUcontact c).contacts (l₁ ++ l₂) := by
  obtain ⟨h1, h2, h3⟩ := memRemoveUcontact_links r c
  rw [h.next_eq, h.prev_eq] at h1 h2 h3
  rw [h3]
  simp only [getLast?_eq_none_iff]
  exact h.remove hnd (fun x _ => h1 x) fun x _ => h2 x

/-! ## What stays as it is -/

theorem linkAt_frame (c : Nat) (ptr prev : Option Nat) :
    (r.linkAt c ptr prev).cell = r.cell ∧ (r.linkAt c ptr prev).live = r.live ∧
      (r.linkAt c ptr prev).fresh = r.fresh := by
  unfold linkAt
  split
  · split <;> exact ⟨rfl, rfl, rfl⟩
  · exact ⟨rfl, rfl, rfl⟩
  · exact ⟨rfl, rfl, rfl⟩

theorem memRemoveUcontact_frame (c : Nat) :
    (r.memRemoveUcontact c).cell = r.cell ∧ (r.memRemoveUcontact c).live = r.live ∧
      (r.memRemoveUcontact c).fresh = r.fresh := by
  unfold memRemoveUcontact
  split <;> dsimp only <;> split <;> exact ⟨rfl, rfl, rfl⟩

end URecord

/-! ## The operations on the list -/

section
variable (cfg : Config) {r : URecord} {l l₁ l₂ : List Nat} {c : Nat} (t : Nat)

theorem ListOk.setCell (h : ListOk r l) (c : Nat) (x : UContact) : ListOk (r.setCell c x) l :=
  ⟨h.dll, h.nodup, h.live, h.lt⟩

theorem ListOk.nodup_rest (h : ListOk r (l₁ ++ c :: l₂)) : c ∉ l₁ ++ l₂ ∧ (l₁ ++ l₂).Nodup :=
  nodup_cons.mp (nodup_middle.mp h.nodup)

/-- Deleting a contact takes it out of the list. -/
theorem ListOk.delete (h : ListOk r (l₁ ++ c :: l₂)) : ListOk (r.memDeleteUcontact c) (l₁ ++ l₂) := by
  obtain ⟨hc, hnd⟩ := h.nodup_rest
  obtain ⟨-, -, hfresh⟩ := memRemoveUcontact_frame (r := r) c
  refine ⟨memRemoveUcontact_dll h.dll hnd, hnd, fun d => ?_, fun d hd => ?_⟩
  · show d ∈ l₁ ++ l₂ ↔ update r.live c false d = true
    by_cases hdc : d = c
    · subst hdc
      rw [update_self]
      exact ⟨fun hd => absurd hd hc, fun hd => by cases hd⟩
    · rw [update_of_ne hdc, ← h.live d]
      simp only [mem_append, mem_cons, hdc, false_or]
  · show d < (r.memRemoveUcontact c).fresh
    rw [hfresh]
    refine h.lt d ?_
    simp only [mem_append, mem_cons] at hd ⊢
    tauto

/-- Where a contact goes that is linked in: in front, or before the first contact at which the loop stops. -/
def placed (stop : Nat → Bool) (c : Nat) (l : List Nat) : List Nat :=
  l.takeWhile (fun x => !stop x) ++ c :: l.dropWhile fun x => !stop x

def inserted (cfg : Config) (q : Nat → Int) (c : Nat) (l : List Nat) : List Nat :=
  if cfg.descTimeOrder then c :: l else placed (fun x => q x < q c) c l

/-- A contact that is not in the list is linked in by the loop of an insertion. -/
theorem dll_placed (h : Dll r.next r.prev r.contacts l) (hnd : l.Nodup) (hc : c ∉ l) (hn : r.next c = none)
    (hp : r.prev c = none) (stop : Nat → Bool) (hfuel : l.length ≤ fuel) :
    ∃ ptr prev, r.findPos stop fuel r.contacts none = some (ptr, prev) ∧
      Dll (r.linkAt c ptr prev).next (r.linkAt c ptr prev).prev (r.linkAt c ptr prev).contacts (placed stop c l) := by
  have hfind := findPos_eq stop [] l h hfuel
  rw [← h.head_eq, nil_append] at hfind
  refine ⟨_, _, hfind, linkAt_dll _ _ ?_ ?_ ?_ hn hp⟩
  · rwa [takeWhile_append_dropWhile]
  · rwa [takeWhile_append_dropWhile]
  · rwa [takeWhile_append_dropWhile]

theorem mem_placed (c d : Nat) (l : List Nat) : d ∈ placed stop c l ↔ d = c ∨ d ∈ l := by
  unfold placed
  conv_rhs => rw [← takeWhile_append_dropWhile (p := fun x => !stop x) (l := l)]
  simp only [mem_append, mem_cons]
  tauto

theorem nodup_placed (hc : c ∉ l) (hnd : l.Nodup) : (placed stop c l).Nodup := by
  unfold placed
  rw [nodup_middle, takeWhile_append_dropWhile]
  exact nodup_cons.mpr ⟨hc, hnd⟩

/-- A new contact is put where it belongs. -/
theorem ListOk.insert (h : ListOk r l) (contact : Str) (ci : Info) :
    ∃ r', r.memInsertUcontact cfg contact ci = some (r', r.fresh) ∧ ListOk r' (inserted cfg r'.q r.fresh l) ∧
      r'.cell = update r.cell r.fresh (newUcontact contact ci) ∧
      r'.live = update r.live r.fresh true ∧ r'.fresh = r.fresh + 1 := by
  have hne : ∀ x ∈ l, x ≠ r.fresh := fun x hx => (h.lt x hx).ne
  obtain ⟨r₁, hr₁⟩ : ∃ r₁, r₁ = r.alloc (newUcontact contact ci) := ⟨_, rfl⟩
  have hdll : Dll r₁.next r₁.prev r₁.contacts l := by
    rw [hr₁]
    exact h.dll.congr (fun x hx => update_of_ne (hne x hx) _ _) fun x hx => update_of_ne (hne x hx) _ _
  have hn : r₁.next r.fresh = none := by rw [hr₁]; exact update_self ..
  have hp : r₁.prev r.fresh = none := by rw [hr₁]; exact update_self ..
  have hcell : r₁.cell = update r.cell r.fresh (newUcontact contact ci) := by rw [hr₁]; rfl
  have hlive : r₁.live = update r.live r.fresh true := by rw [hr₁]; rfl
  have hfresh : r₁.fresh = r.fresh + 1 := by rw [hr₁]; rfl
  -- whatever the place is, the record is fine
  have hdone : ∀ ptr prev l', (∀ d, d ∈ l' ↔ d = r.fresh ∨ d ∈ l) → l'.Nodup →
      Dll (r₁.linkAt r.fresh ptr prev).next (r₁.linkAt r.fresh ptr prev).prev
        (r₁.linkAt r.fresh ptr prev).contacts l' → ListOk (r₁.linkAt r.fresh ptr prev) l' := by
    intro ptr prev l' hmem hnd hdll'
    obtain ⟨-, hlive', hfresh'⟩ := linkAt_frame (r := r₁) r.fresh ptr prev
    refine ⟨hdll', hnd, fun d => ?_, fun d hd => ?_⟩
    · rw [hmem, hlive', hlive]
      by_cases hd : d = r.fresh
      · subst hd
        simp
      · rw [h.live d]
        simp [hd]
    · rw [hfresh', hfresh]
      rcases (hmem d).mp hd with rfl | hd
      · omega
      · exact Nat.lt_succ_of_lt (h.lt d hd)
  have hframe : ∀ ptr prev, (r₁.linkAt r.fresh ptr prev).cell = update r.cell r.fresh (newUcontact contact ci) ∧
      (r₁.linkAt r.fresh ptr prev).live = update r.live r.fresh true ∧
      (r₁.linkAt r.fresh ptr prev).fresh = r.fresh + 1 := by
    intro ptr prev
    obtain ⟨h1, h2, h3⟩ := linkAt_frame (r := r₁) r.fresh ptr prev
    exact ⟨h1.trans hcell, h2.trans hlive, h3.trans hfresh⟩
  unfold memInsertUcontact inserted
  rw [← hr₁]
  cases cfg.descTimeOrder with
  | true =>
    refine ⟨r₁.linkAt r.fresh r₁.contacts none, rfl, ?_, hframe _ _⟩
    have hlink := linkAt_dll [] l hdll h.nodup h.not_fresh hn hp
    rw [← hdll.head_eq] at hlink
    exact hdone _ _ _ (fun d => by simp) (nodup_cons.mpr ⟨h.not_fresh, h.nodup⟩) hlink
  | false =>
    have hfuel : l.length ≤ r₁.fresh := by
      have := h.length_le
      omega
    obtain ⟨ptr, prev, hfind, hlink⟩ := dll_placed hdll h.nodup h.not_fresh hn hp
      (fun ptr => decide (r₁.q ptr < r₁.q r.fresh)) hfuel
    refine ⟨r₁.linkAt r.fresh ptr prev, ?_, ?_, hframe _ _⟩
    · rw [if_neg Bool.false_ne_true, hfind]
      rfl
    · have hq : (r₁.linkAt r.fresh ptr prev).q = r₁.q := by
        funext x
        rw [q, q, (linkAt_frame (r := r₁) r.fresh ptr prev).1]
      rw [hq]
      exact hdone _ _ _ (fun d => mem_placed _ _ _ _) (nodup_placed _ h.not_fresh h.nodup) hlink

/-- A contact whose q-value lies between those of its neighbours. -/
def Fits (q : Nat → Int) (c : Nat) (l₁ l₂ : List Nat) : Bool :=
  (l₁.getLast?).all (fun p => q c ≤ q p) && (l₂.head?).all fun n => q c ≥ q n

/-- Where a contact between `l₁` and `l₂` goes when it is updated. -/
def moved (cfg : Config) (q : Nat → Int) (c : Nat) (l₁ l₂ : List Nat) : List Nat :=
  if cfg.descTimeOrder then c :: (l₁ ++ l₂)
  else if Fits q c l₁ l₂ then l₁ ++ c :: l₂
  else placed (fun x => !decide (q x < q c)) c (l₁ ++ l₂)

section
variable (h : ListOk r (l₁ ++ c :: l₂))
include h

theorem dll_unlinked (p n : Option Nat) :
    Dll (((r.memRemoveUcontact c).setNext c n).setPrev c p).next
      (((r.memRemoveUcontact c).setNext c n).setPrev c p).prev
      (((r.memRemoveUcontact c).setNext c n).setPrev c p).contacts (l₁ ++ l₂) := by
  obtain ⟨hc, hnd⟩ := h.nodup_rest
  have hne : ∀ x ∈ l₁ ++ l₂, x ≠ c := fun x hx hxc => hc (hxc ▸ hx)
  exact (memRemoveUcontact_dll h.dll hnd).congr (fun x hx => update_of_ne (hne x hx) _ _)
    fun x hx => update_of_ne (hne x hx) _ _

theorem ListOk.relink
    (hdll : Dll r'.next r'.prev r'.contacts l') (hnd : l'.Nodup) (hmem : ∀ d, d ∈ l' ↔ d = c ∨ d ∈ l₁ ++ l₂)
    (hlive : r'.live = r.live) (hfresh : r'.fresh = r.fresh) : ListOk r' l' := by
  have hsame : ∀ d, d ∈ l' ↔ d ∈ l₁ ++ c :: l₂ := by
    intro d
    rw [hmem d]
    simp only [mem_append, mem_cons]
    tauto
  refine ⟨hdll, hnd, fun d => ?_, fun d hd => ?_⟩
  · rw [hsame, hlive, h.live]
  · rw [hfresh]
    exact h.lt d ((hsame d).mp hd)

/-- **A contact that is updated** finds a place. -/
theorem ListOk.updatePos :
    ∃ r', r.updateContactPos cfg c = some r' ∧ ListOk r' (moved cfg r.q c l₁ l₂) ∧ r'.cell = r.cell ∧ r'.live = r.live ∧
      r'.fresh = r.fresh := by
  obtain ⟨hc, hnd⟩ := h.nodup_rest
  obtain ⟨hcell, hlive, hfresh⟩ := memRemoveUcontact_frame (r := r) c
  have hprev := h.dll.prev_eq
  have hnext := h.dll.next_eq
  unfold updateContactPos moved
  cases cfg.descTimeOrder with
  | true =>
    rw [if_pos rfl, if_pos rfl]
    by_cases hfirst : r.prev c = none
    · have hl₁ : l₁ = [] := by
        rw [hprev] at hfirst
        exact getLast?_eq_none_iff.mp hfirst
      subst hl₁
      rw [if_pos hfirst]
      exact ⟨r, rfl, h, rfl, rfl, rfl⟩
    · rw [if_neg hfirst]
      dsimp only
      have hdll := dll_unlinked h none (r.memRemoveUcontact c).contacts
      have hhead := hdll.head_eq
      cases hl : l₁ ++ l₂ with
      | nil =>
        rw [hprev, (append_eq_nil_iff.mp hl).1] at hfirst
        exact absurd rfl hfirst
      | cons y l =>
        rw [hl] at hhead hc hnd hdll
        rw [hhead]
        refine ⟨_, rfl, h.relink ?_ (nodup_cons.mpr ⟨hc, hnd⟩) (fun d => ?_) hlive hfresh, hcell, hlive, hfresh⟩
        · have hyc : c ≠ y := fun hcy => hc (hcy ▸ mem_cons_self)
          rw [← nil_append (y :: l)] at hdll hnd
          refine Dll.insert hdll hnd ?_ ?_ (fun x hx => (if_neg (by simp)).symm) fun x hx => ?_
          · show update _ c _ c = _
            rw [update_self]
            exact hhead
          · show update _ y _ c = _
            rw [update_of_ne hyc]
            exact update_self ..
          · show update _ y _ x = _
            rw [update_apply, head?_cons]
            simp only [Option.some.injEq, eq_comm]
        · rw [hl, mem_cons]
  | false =>
    rw [hprev, hnext]
    by_cases hfits : Fits r.q c l₁ l₂ = true
    · rw [if_pos hfits, if_pos ((Bool.and_eq_true _ _).mp hfits)]
      exact ⟨r, rfl, h, rfl, rfl, rfl⟩
    · rw [if_neg hfits, if_neg (fun hf => hfits ((Bool.and_eq_true _ _).mpr hf))]
      dsimp only
      obtain ⟨r₁, hr₁⟩ : ∃ r₁, r₁ = ((r.memRemoveUcontact c).setNext c none).setPrev c none := ⟨_, rfl⟩
      have hdll := dll_unlinked h none none
      rw [← hr₁] at hdll ⊢
      have hn : r₁.next c = none := by rw [hr₁]; exact update_self ..
      have hp : r₁.prev c = none := by rw [hr₁]; exact update_self ..
      have hcell₁ : r₁.cell = r.cell := by rw [hr₁]; exact hcell
      have hlive₁ : r₁.live = r.live := by rw [hr₁]; exact hlive
      have hfresh₁ : r₁.fresh = r.fresh := by rw [hr₁]; exact hfresh
      have hq : r₁.q = r.q := by
        funext x
        rw [q, q, hcell₁]
      have hfuel : (l₁ ++ l₂).length ≤ r₁.fresh := by
        have := h.length_le
        simp only [length_append, length_cons] at this ⊢
        omega
      obtain ⟨ptr, prev, hfind, hlink⟩ := dll_placed hdll hnd hc hn hp (fun x => !decide (r₁.q x < r₁.q c)) hfuel
      obtain ⟨h1, h2, h3⟩ := linkAt_frame (r := r₁) c ptr prev
      refine ⟨r₁.linkAt c ptr prev, by rw [hfind]; rfl, ?_, h1.trans hcell₁, h2.trans hlive₁, h3.trans hfresh₁⟩
      rw [hq] at hlink
      exact h.relink hlink (nodup_placed _ hc hnd) (fun d => mem_placed _ _ _ _) (h2.trans hlive₁) (h3.trans hfresh₁)

end

/-! ## Timers -/

/-- **The loop of a timer** visits every contact once: what each visit preserves holds at the end. `P k s u` is about
the contacts that are left of those visited, those to be visited and the record. -/
theorem timerLoop_rule {keeps : Nat → UDomain → Bool} {P : List Nat → List Nat → UDomain → Prop}
    (hvisit : ∀ l₁ c l₂ u, ListOk u.mem (l₁ ++ c :: l₂) →
      ListOk (visit c u).mem (l₁ ++ (if keeps c u then [c] else []) ++ l₂))
    (hP : ∀ k c s u, ListOk u.mem (k ++ c :: s) → P k (c :: s) u →
      P (k ++ if keeps c u then [c] else []) s (visit c u)) :
    ∀ {s k : List Nat} {fuel : Nat} {u : UDomain}, ListOk u.mem (k ++ s) → s.length ≤ fuel → P k s u →
      ∃ u' l, timerLoop visit fuel s.head? u = some u' ∧ ListOk u'.mem l ∧ P l [] u' := by
  intro s
  induction s with
  | nil =>
    intro k fuel u h _ hp
    rw [append_nil] at h
    exact ⟨u, k, by cases fuel <;> rfl, h, hp⟩
  | cons c s ih =>
    intro k fuel u h hfuel hp
    cases fuel with
    | zero => simp at hfuel
    | succ fuel =>
      rw [head?_cons, timerLoop, h.dll.next_eq]
      exact ih (hvisit k c s u h) (by simpa using hfuel) (hP k c s u h hp)

theorem nodbContact_ok (l₁ : List Nat) (c : Nat) (l₂ : List Nat) (u : UDomain)
    (h : ListOk u.mem (l₁ ++ c :: l₂)) :
    ListOk (nodbContact t c u).mem (l₁ ++ (if (u.mem.cell c).vals.valid t then [c] else []) ++ l₂) := by
  unfold nodbContact
  split
  · rwa [append_assoc]
  · rw [append_nil]
    exact h.delete

theorem wbContact_ok (ok : Nat → Bool) (l₁ : List Nat) (c : Nat) (l₂ : List Nat) (u : UDomain)
    (h : ListOk u.mem (l₁ ++ c :: l₂)) :
    ListOk (wbContact t (ok c) c u).mem (l₁ ++ (if (u.mem.cell c).vals.valid t then [c] else []) ++ l₂) := by
  unfold wbContact
  dsimp only
  split
  · rw [append_assoc]
    split
    · exact h
    · exact h.setCell _ _
    · exact h.setCell _ _
  · rw [append_nil]
    exact h.delete

theorem memDeleteUcontact_cell (r : URecord) (c : Nat) : (r.memDeleteUcontact c).cell = r.cell :=
  (memRemoveUcontact_frame (r := r) c).1

theorem stFlushUcontact_vals (x : UContact) :
    (stFlushUcontact x).1.c = x.c ∧ (stFlushUcontact x).1.callid = x.callid ∧ (stFlushUcontact x).1.vals = x.vals := by
  unfold stFlushUcontact
  split <;> exact ⟨rfl, rfl, rfl⟩

theorem wbContact_vals (ok : Bool) (c : Nat) (u : UDomain) (x : Nat) :
    ((wbContact t ok c u).mem.cell x).vals = (u.mem.cell x).vals := by
  have hset : ∀ y : UContact, y.vals = (u.mem.cell c).vals →
      ((u.mem.setCell c y).cell x).vals = (u.mem.cell x).vals := by
    intro y hy
    show (update u.mem.cell c y x).vals = _
    by_cases hx : x = c
    · subst hx
      rw [update_self, hy]
    · rw [update_of_ne hx]
  have hflush := (stFlushUcontact_vals (u.mem.cell c)).2.2
  unfold wbContact
  dsimp only
  split
  · split
    · rfl
    · refine hset _ ?_
      split <;> exact hflush
    · refine hset _ ?_
      split <;> exact hflush
  · rw [memDeleteUcontact_cell]

/-- A loop whose visits drop the contacts that are not valid, and change no values. -/
theorem ListOk.timerLoop (h : ListOk u.mem l) {t : Nat}
    (hvisit : ∀ l₁ c l₂ u, ListOk u.mem (l₁ ++ c :: l₂) →
      ListOk (visit c u).mem (l₁ ++ (if (u.mem.cell c).vals.valid t then [c] else []) ++ l₂))
    (hvals : ∀ c u x, ((visit c u).mem.cell x).vals = (u.mem.cell x).vals) :
    ∃ u', timerLoop visit u.mem.fresh u.mem.contacts u = some u' ∧
      (∀ x, (u'.mem.cell x).vals = (u.mem.cell x).vals) ∧
      ListOk u'.mem (l.filter fun c => (u.mem.cell c).vals.valid t) := by
  let P : List Nat → List Nat → UDomain → Prop := fun k s v =>
    (∀ x, (v.mem.cell x).vals = (u.mem.cell x).vals) ∧
      ∃ d, l = d ++ s ∧ k = d.filter fun c => (u.mem.cell c).vals.valid t
  have hP : ∀ k c s v, ListOk v.mem (k ++ c :: s) → P k (c :: s) v →
      P (k ++ if (v.mem.cell c).vals.valid t then [c] else []) s (visit c v) := by
    rintro k c s v - ⟨hv, d, rfl, rfl⟩
    refine ⟨fun x => (hvals c v x).trans (hv x), d ++ [c], by simp, ?_⟩
    rw [filter_append, hv c]
    cases hvalid : (u.mem.cell c).vals.valid t <;> simp [hvalid]
  obtain ⟨u', l', hrun, hok, hv, d, hd, hl'⟩ :=
    timerLoop_rule (P := P) hvisit hP (s := l) (k := []) h h.length_le ⟨fun _ => rfl, [], rfl, rfl⟩
  rw [append_nil] at hd
  subst hd hl'
  rw [h.dll.head_eq]
  exact ⟨u', hrun, hv, hok⟩

/-- **A timer run** leaves the valid contacts, in their order. -/
theorem ListOk.timer (h : ListOk u.mem l) (t : Nat) (ok : Nat → Bool) :
    ∃ u', timerUrecord cfg u t ok = some u' ∧ (∀ x, (u'.mem.cell x).vals = (u.mem.cell x).vals) ∧
      ListOk u'.mem (if cfg.dbMode = .dbOnly then l else l.filter fun c => (u.mem.cell c).vals.valid t) := by
  have hwb := h.timerLoop (wbContact_ok t ok) fun c u x => wbContact_vals t (ok c) c u x
  unfold timerUrecord
  cases cfg.dbMode with
  | noDb =>
    refine h.timerLoop (nodbContact_ok t) fun c u x => ?_
    unfold nodbContact
    split
    · rfl
    · rw [memDeleteUcontact_cell]
  | writeThrough | writeBack => exact hwb
  | dbOnly => exact ⟨u, rfl, fun _ => rfl, h⟩

/-! ## The operations on a record -/

variable {u : UDomain}

theorem atOnce_vals (call : UContact → Bool → List Row → Bool × List Row) (x : UContact) (ok : Bool)
    (table : List Row) : (atOnce cfg call x ok table).1.vals = x.vals := by
  unfold atOnce
  split
  · dsimp only
    split <;> rfl
  · rfl

theorem stUpdateUcontact_vals (mode : DbMode) (x : UContact) : (stUpdateUcontact mode x).vals = x.vals := by
  unfold stUpdateUcontact
  split
  · rfl
  · rfl
  · split <;> rfl

theorem URecord.setCell_cell (r : URecord) (c : Nat) (x : UContact) :
    (r.setCell c x).cell = update r.cell c x := rfl

theorem URecord.setCell_q (r : URecord) {x : UContact} (hx : x.vals.q = r.q c) : (r.setCell c x).q = r.q := by
  funext d
  show (update r.cell c x d).vals.q = _
  by_cases hd : d = c
  · subst hd
    rw [update_self, hx]
  · rw [update_of_ne hd, q]

/-- **An insertion**: the list, the cell of the new contact and the table. -/
theorem ListOk.insertUcontact (h : ListOk u.mem l) (contact : Str) (ci : Info) (ok : Bool) :
    ∃ u', insertUcontact cfg u contact ci ok = some u' ∧ ListOk u'.mem (inserted cfg u'.mem.q u.mem.fresh l) ∧
      u'.mem.cell = update u.mem.cell u.mem.fresh
        (atOnce cfg dbInsertUcontact (newUcontact contact ci) ok u.table).1 ∧
      u'.table = (atOnce cfg dbInsertUcontact (newUcontact contact ci) ok u.table).2 ∧
      u'.mem.live = update u.mem.live u.mem.fresh true := by
  obtain ⟨r, hr, hok, hcell, hlive, -⟩ := h.insert cfg contact ci
  have hnew : r.cell u.mem.fresh = newUcontact contact ci := by rw [hcell, update_self]
  unfold Usrloc.insertUcontact
  rw [hr]
  refine ⟨_, rfl, ?_, ?_, ?_, hlive⟩
  · rw [setCell_q r (by rw [atOnce_vals]; rfl)]
    exact hok.setCell _ _
  · rw [setCell_cell, hnew, hcell, update_idem]
  · dsimp only
    rw [hnew]

/-- **An update**: the list, the cell of the contact and the table. -/
theorem ListOk.updateUcontact (h : ListOk u.mem (l₁ ++ c :: l₂)) (ci : Info) (ok : Bool) :
    ∃ u', updateUcontact cfg u c ci ok = some u' ∧
      ListOk u'.mem (if cfg.dbMode = .dbOnly then l₁ ++ c :: l₂ else moved cfg u'.mem.q c l₁ l₂) ∧
      u'.mem.cell = update u.mem.cell c (atOnce cfg dbUpdateUcontact
        (stUpdateUcontact cfg.dbMode (memUpdateUcontact (u.mem.cell c) ci)) ok u.table).1 ∧
      u'.table = (atOnce cfg dbUpdateUcontact
        (stUpdateUcontact cfg.dbMode (memUpdateUcontact (u.mem.cell c) ci)) ok u.table).2 ∧
      u'.mem.live = u.mem.live := by
  obtain ⟨r₀, hr₀⟩ : ∃ r₀, r₀ = u.mem.setCell c (memUpdateUcontact (u.mem.cell c) ci) := ⟨_, rfl⟩
  have hok₀ : ListOk r₀ (l₁ ++ c :: l₂) := hr₀ ▸ h.setCell c _
  have hcell₀ : r₀.cell = update u.mem.cell c (memUpdateUcontact (u.mem.cell c) ci) := by rw [hr₀]; rfl
  have hlive₀ : r₀.live = u.mem.live := by rw [hr₀]; rfl
  -- the record once the contact has its place
  obtain ⟨r, hr, hok, hcell, hlive⟩ :
      ∃ r, (if cfg.dbMode ≠ .dbOnly then r₀.updateContactPos cfg c else some r₀) = some r ∧
        ListOk r (if cfg.dbMode = .dbOnly then l₁ ++ c :: l₂ else moved cfg r.q c l₁ l₂) ∧ r.cell = r₀.cell ∧
        r.live = r₀.live := by
    by_cases hmode : cfg.dbMode = .dbOnly
    · rw [if_neg (not_not.mpr hmode)]
      exact ⟨r₀, rfl, by rw [if_pos hmode]; exact hok₀, rfl, rfl⟩
    · obtain ⟨r, hr, hok, hcell, hlive, -⟩ := hok₀.updatePos cfg
      have hq : r.q = r₀.q := by
        funext x
        rw [q, q, hcell]
      rw [if_pos hmode]
      exact ⟨r, hr, by rw [if_neg hmode, hq]; exact hok, hcell, hlive⟩
  have hc : r.cell c = memUpdateUcontact (u.mem.cell c) ci := by rw [hcell, hcell₀, update_self]
  unfold Usrloc.updateUcontact
  dsimp only
  rw [← hr₀, hr]
  refine ⟨_, rfl, ?_, ?_, ?_, hlive.trans hlive₀⟩
  · rw [setCell_q r (by rw [atOnce_vals, stUpdateUcontact_vals]; rfl)]
    exact hok.setCell _ _
  · rw [setCell_cell, hc, hcell, hcell₀, update_idem]
  · dsimp only
    rw [hc]

/-- **A deletion**: the contact goes at once, or it is left to the timer. -/
theorem ListOk.deleteUcontact (h : ListOk u.mem (l₁ ++ c :: l₂)) (ok : Bool) :
    ListOk (deleteUcontact cfg u c ok).mem
        (if (stDeleteUcontact cfg.dbMode (u.mem.cell c)).2 then l₁ ++ l₂ else l₁ ++ c :: l₂) ∧
      (deleteUcontact cfg u c ok).mem.cell =
        update u.mem.cell c (stDeleteUcontact cfg.dbMode (u.mem.cell c)).1 := by
  unfold Usrloc.deleteUcontact
  dsimp only
  split
  · exact ⟨(h.setCell c _).delete, memDeleteUcontact_cell _ c⟩
  · exact ⟨h.setCell c _, rfl⟩

theorem stDeleteUcontact_q (mode : DbMode) (x : UContact) : (stDeleteUcontact mode x).1.vals.q = x.vals.q := by
  unfold stDeleteUcontact
  split
  · rfl
  · split <;> rfl
  · split <;> rfl

/-- An operation on contacts of the record. -/
def Op.Possible (u : UDomain) : Op → Prop
  | .update c _ _ => u.mem.live c = true
  | .delete c _ => u.mem.live c = true
  | _ => True

/-- **The list is consistent** after every operation, and every operation comes to an end. -/
theorem ListOk.step (h : ListOk u.mem l) {op : Op} (hop : op.Possible u) :
    ∃ u', step cfg u op = some u' ∧ ∃ l', ListOk u'.mem l' := by
  cases op with
  | insert contact ci ok =>
    obtain ⟨u', hrun, hok, -⟩ := h.insertUcontact cfg contact ci ok
    exact ⟨u', hrun, _, hok⟩
  | update c ci ok =>
    obtain ⟨l₁, l₂, rfl⟩ := h.split hop
    obtain ⟨u', hrun, hok, -⟩ := h.updateUcontact cfg ci ok
    exact ⟨u', (if_pos hop).trans hrun, _, hok⟩
  | delete c ok =>
    obtain ⟨l₁, l₂, rfl⟩ := h.split hop
    exact ⟨_, if_pos hop, _, (h.deleteUcontact cfg ok).1⟩
  | timer t ok =>
    obtain ⟨u', hrun, -, hok⟩ := h.timer cfg t ok
    exact ⟨u', hrun, _, hok⟩

/-- An operation that returns was possible. -/
theorem possible_of_step {op : Op} (h : Usrloc.step cfg u op = some u') : op.Possible u := by
  cases op with
  | insert => trivial
  | timer t ok => trivial
  | update | delete c ok => exact (Option.ite_none_right_eq_some.mp h).1

theorem init_listOk : ListOk UDomain.init.mem [] :=
  ⟨Dll.nil _ _, nodup_nil, fun c => by simp [UDomain.init], fun c hc => by cases hc⟩

end

end OpenSer.Usrloc

