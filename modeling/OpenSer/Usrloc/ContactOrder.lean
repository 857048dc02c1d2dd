import OpenSer.Usrloc.ContactList
import Mathlib.Data.List.TakeWhile

/-!
# The order of contacts

With `desc_time_order` off the contacts are to be sorted by q-value, the highest first; with it on, by their last
insertion or update, the latest first. `update_contact_pos` looks for the new place of a contact as if the list were
sorted the other way round.

* `sorted_fits_iff`, `sorted_placed_iff`: when an update leaves the list sorted.
* `step_inOrder_iff`: an operation keeps the order exactly under `Keeps`.
* `contacts_inOrder_iff`: the runs that keep the order.
-/

namespace OpenSer.Usrloc

open List Lib URecord Option Function

/-- The highest q-value comes first. -/
def Sorted (q : Nat → Int) (l : List Nat) : Prop := l.Pairwise fun x y => q y ≤ q x

/-- A record, and its contacts in the order of their last insertion or update. -/
structure Tracked where
  loc : UDomain
  recent : List Nat

def touch (x : Tracked) : Op → List Nat
  | .insert .. => x.loc.mem.fresh :: x.recent
  | .update c .. => c :: x.recent.erase c
  | .delete .. | .timer .. => x.recent

def track (cfg : Config) (x : Tracked) (op : Op) : Option Tracked :=
  (step cfg x.loc op).map fun u => ⟨u, (touch x op).filter u.mem.live⟩

def InOrder (cfg : Config) (x : Tracked) : Prop :=
  ∃ l, ListOk x.loc.mem l ∧ if cfg.descTimeOrder then l = x.recent else Sorted x.loc.mem.q l

/-- The new q-value of a contact lies between those of its neighbours. -/
def InPlace (r : URecord) (c : Nat) (q : Int) : Prop := (∀ p ∈ r.prev c, q ≤ r.q p) ∧ ∀ n ∈ r.next c, r.q n ≤ q

/-- The new q-value of a contact is the highest one of the other contacts. -/
def Highest (r : URecord) (c : Nat) (q : Int) : Prop :=
  (∃ d, d ≠ c ∧ r.live d = true ∧ r.q d = q) ∧ ∀ d, d ≠ c → r.live d = true → r.q d ≤ q

/-- An operation that keeps the order: no update; or with `desc_time_order` one that moves the contact to the front or
finds it there; or one after which the contact is right where it is or right in front. -/
def Keeps (cfg : Config) (x : Tracked) : Op → Prop
  | .update c ci _ =>
    if cfg.descTimeOrder then cfg.dbMode ≠ .dbOnly ∨ x.loc.mem.prev c = none
    else InPlace x.loc.mem c ci.vals.q ∨ cfg.dbMode ≠ .dbOnly ∧ Highest x.loc.mem c ci.vals.q
  | _ => True

/-! ## Sorted lists -/

variable {l' : List Nat}

section
variable {q : Nat → Int} {l l₁ l₂ : List Nat} {c : Nat}

theorem Sorted.sublist (h : Sorted q l) (hsub : l'.Sublist l) : Sorted q l' := List.Pairwise.sublist hsub h

theorem Sorted.congr {q' : Nat → Int} (h : Sorted q l) (hq : ∀ x ∈ l, q' x = q x) : Sorted q' l := by
  refine List.Pairwise.imp_of_mem (fun {x y} hx hy hxy => ?_) h
  rw [hq x hx, hq y hy]
  exact hxy

theorem sorted_fits_iff (h : Sorted q (l₁ ++ l₂)) :
    Sorted q (l₁ ++ c :: l₂) ↔ (∀ p ∈ l₁.getLast?, q c ≤ q p) ∧ ∀ n ∈ l₂.head?, q n ≤ q c := by
  constructor
  · intro hs
    obtain ⟨-, h2, h3⟩ := pairwise_append.mp hs
    refine ⟨fun p hp => h3 p (mem_of_getLast? hp) c mem_cons_self, fun n hn => ?_⟩
    exact (pairwise_cons.mp h2).1 n (mem_of_mem_head? hn)
  · rintro ⟨hp, hn⟩
    obtain ⟨h1, h2, h3⟩ := pairwise_append.mp h
    refine pairwise_append.mpr
      ⟨h1, pairwise_cons.mpr ⟨fun y hy => ?_, h2⟩, fun x hx => forall_mem_cons.mpr ⟨?_, h3 x hx⟩⟩
    · cases l₂ with
      | nil => cases hy
      | cons n l₂ =>
        rcases mem_cons.mp hy with rfl | hy
        · exact hn y rfl
        · exact ((pairwise_cons.mp h2).1 y hy).trans (hn n rfl)
    · rcases eq_nil_or_concat l₁ with rfl | ⟨l, p, rfl⟩
      · cases hx
      · rw [concat_eq_append] at *
        have hpc := hp p getLast?_concat
        rcases mem_append.mp hx with hx | hx
        · exact hpc.trans ((pairwise_append.mp h1).2.2 x hx p (mem_singleton.mpr rfl))
        · rwa [mem_singleton.mp hx]

theorem fits_iff : Fits q c l₁ l₂ = true ↔ (∀ p ∈ l₁.getLast?, q c ≤ q p) ∧ ∀ n ∈ l₂.head?, q n ≤ q c := by
  rw [Fits, Bool.and_eq_true]
  refine and_congr ?_ ?_
  · cases l₁.getLast? <;> simp
  · cases l₂.head? <;> simp

/-- **A new contact** goes where it belongs. -/
theorem sorted_placed (h : Sorted q l) : Sorted q (placed (fun x => q x < q c) c l) := by
  unfold placed
  rw [sorted_fits_iff (by rwa [takeWhile_append_dropWhile])]
  refine ⟨fun p hp => ?_, fun n hn => ?_⟩
  · have := mem_takeWhile_imp (mem_of_getLast? hp)
    simpa using this
  · have := head?_dropWhile_not (fun x => !decide (q x < q c)) l
    rw [hn] at this
    simp at this
    omega

/-- **A contact that is moved** goes to one of the ends: right only for the highest q-value of the others. -/
theorem sorted_placed_iff (h : Sorted q l) (hl : l ≠ []) :
    Sorted q (placed (fun x => !decide (q x < q c)) c l) ↔ (∃ d ∈ l, q d = q c) ∧ ∀ d ∈ l, q d ≤ q c := by
  obtain ⟨y, l, rfl⟩ := exists_cons_of_ne_nil hl
  have htop := (pairwise_cons.mp h).1
  by_cases hy : q y < q c
  · -- everything is below, so it goes to the end
    have hall : ∀ x ∈ y :: l, q x < q c := forall_mem_cons.mpr ⟨hy, fun x hx => (htop x hx).trans_lt hy⟩
    have hplaced : placed (fun x => !decide (q x < q c)) c (y :: l) = (y :: l) ++ c :: [] := by
      unfold placed
      rw [takeWhile_eq_self_iff.mpr fun x hx => by simpa using hall x hx,
        dropWhile_eq_nil_iff.mpr fun x hx => by simpa using hall x hx]
    rw [hplaced]
    refine ⟨fun hs => ?_, ?_⟩
    · have := (pairwise_append.mp hs).2.2 y mem_cons_self c (mem_singleton.mpr rfl)
      omega
    · rintro ⟨⟨d, hd, hdq⟩, -⟩
      have := hall d hd
      omega
  · -- it goes in front
    have hplaced : placed (fun x => !decide (q x < q c)) c (y :: l) = [] ++ c :: (y :: l) := by
      unfold placed
      rw [takeWhile_cons_of_neg (by simpa using hy), dropWhile_cons_of_neg (by simpa using hy)]
    rw [hplaced, sorted_fits_iff (by exact h)]
    constructor
    · rintro ⟨-, hn⟩
      have hyc := hn y rfl
      exact ⟨⟨y, mem_cons_self, by omega⟩, forall_mem_cons.mpr ⟨hyc, fun d hd => (htop d hd).trans hyc⟩⟩
    · rintro ⟨-, hle⟩
      refine ⟨by simp, fun n hn => ?_⟩
      cases hn
      exact hle y mem_cons_self

end

/-! ## The operations -/

section
variable {cfg : Config} {x y : Tracked} {l l₁ l₂ : List Nat} {c : Nat} {op : Op} {ok : Bool} {ci : Info}

theorem track_cases (h : track cfg x op = some y) :
    step cfg x.loc op = some y.loc ∧ y.recent = (touch x op).filter y.loc.mem.live := by
  obtain ⟨u, hu, rfl⟩ := map_eq_some_iff.mp h
  exact ⟨hu, rfl⟩

theorem inOrder_iff (h : ListOk x.loc.mem l) :
    InOrder cfg x ↔ if cfg.descTimeOrder then l = x.recent else Sorted x.loc.mem.q l := by
  constructor
  · rintro ⟨l', hl', hin⟩
    rwa [h.unique hl']
  · exact fun hin => ⟨l, h, hin⟩

theorem ListOk.filter_self {r : URecord} (h : ListOk r l) (hsub : ∀ c ∈ l', c ∈ l) :
    l'.filter r.live = l' := filter_eq_self.mpr fun c hc => (h.live c).mp (hsub c hc)

theorem insert_inOrder {contact : Str} (h : ListOk x.loc.mem l) (hin : InOrder cfg x)
    (hrun : track cfg x (.insert contact ci ok) = some y) : InOrder cfg y := by
  obtain ⟨hstep, hrecent⟩ := track_cases hrun
  obtain ⟨u, hu, hok, hcell, -⟩ := h.insertUcontact cfg contact ci ok
  obtain rfl : u = y.loc := some.inj (hu.symm.trans hstep)
  rw [inOrder_iff h] at hin
  rw [inOrder_iff hok, hrecent]
  unfold inserted at hok ⊢
  cases hdesc : cfg.descTimeOrder with
  | true =>
    rw [hdesc] at hok hin
    simp only [if_true]
    rw [touch, hok.filter_self (by rw [hin]; exact fun _ hc => hc), hin]
  | false =>
    rw [hdesc] at hin
    refine sorted_placed (hin.congr fun d hd => ?_)
    rw [q, hcell, update_of_ne (h.lt d hd).ne, q]

theorem update_q {u : UDomain} (hcell : u.mem.cell = Function.update x.loc.mem.cell c (atOnce cfg dbUpdateUcontact
      (stUpdateUcontact cfg.dbMode (memUpdateUcontact (x.loc.mem.cell c) ci)) ok x.loc.table).1) :
    u.mem.q c = ci.vals.q ∧ ∀ d, d ≠ c → u.mem.q d = x.loc.mem.q d := by
  refine ⟨?_, fun d hd => ?_⟩
  · rw [q, hcell, update_self, atOnce_vals, stUpdateUcontact_vals]
    rfl
  · rw [q, hcell, update_of_ne hd, q]

/-- **An update keeps the order exactly under `Keeps`.** -/
theorem update_inOrder_iff (h : ListOk x.loc.mem (l₁ ++ c :: l₂)) (hin : InOrder cfg x)
    (hrun : track cfg x (.update c ci ok) = some y) : InOrder cfg y ↔ Keeps cfg x (.update c ci ok) := by
  obtain ⟨hstep, hrecent⟩ := track_cases hrun
  have hlive : x.loc.mem.live c = true := (h.live c).mp (by simp)
  obtain ⟨u, hu, hok, hcell, -⟩ := h.updateUcontact cfg ci ok
  obtain rfl : u = y.loc := some.inj (hu.symm.trans ((if_pos hlive).symm.trans hstep))
  obtain ⟨hc, hnd⟩ := h.nodup_rest
  obtain ⟨hqc, hq⟩ := update_q hcell
  rw [inOrder_iff h] at hin
  rw [inOrder_iff hok, hrecent]
  cases hdesc : cfg.descTimeOrder with
  | true =>
    rw [hdesc] at hin
    have hfront : (touch x (.update c ci ok)).filter y.loc.mem.live = c :: (l₁ ++ l₂) := by
      have hc₁ : c ∉ l₁ := fun hc₁ => hc (mem_append_left _ hc₁)
      rw [touch, ← hin, erase_append_right _ hc₁, erase_cons_head]
      refine hok.filter_self fun d hd => ?_
      simp only [moved, hdesc, if_true]
      split
      · simp only [mem_cons, mem_append] at hd ⊢
        tauto
      · exact hd
    rw [hfront, Keeps, hdesc]
    by_cases hmode : cfg.dbMode = .dbOnly
    · rw [h.dll.prev_eq, getLast?_eq_none_iff]
      simp only [hmode, ne_eq, not_true_eq_false, false_or]
      constructor
      · intro heq
        cases l₁ with
        | nil => rfl
        | cons a l₁ =>
          obtain rfl : a = c := (cons.inj heq).1
          exact absurd mem_cons_self fun hc₁ => hc (mem_append_left _ hc₁)
      · rintro rfl
        rfl
    · simp only [hmode, moved, hdesc, if_true, if_false, ne_eq, not_false_eq_true, true_or]
  | false =>
    rw [hdesc] at hin
    rw [if_neg Bool.false_ne_true, Keeps, hdesc, if_neg Bool.false_ne_true]
    have hne : ∀ d ∈ l₁ ++ l₂, d ≠ c := fun d hd hdc => hc (hdc ▸ hd)
    have hsub : (l₁ ++ l₂).Sublist (l₁ ++ c :: l₂) := (sublist_cons_self c l₂).append_left l₁
    have hrest : Sorted y.loc.mem.q (l₁ ++ l₂) := (hin.sublist hsub).congr fun d hd => hq d (hne d hd)
    -- in terms of the pointers and q-values before the update
    have hplace : Fits y.loc.mem.q c l₁ l₂ = true ↔ InPlace x.loc.mem c ci.vals.q := by
      rw [fits_iff, InPlace, h.dll.prev_eq, h.dll.next_eq, hqc]
      refine and_congr (forall₂_congr fun p hp => ?_) (forall₂_congr fun n hn => ?_)
      · rw [hq p (hne p (mem_append_left _ (mem_of_getLast? hp)))]
      · rw [hq n (hne n (mem_append_right _ (mem_of_mem_head? hn)))]
    have hsorted : Sorted y.loc.mem.q (l₁ ++ c :: l₂) ↔ InPlace x.loc.mem c ci.vals.q := by
      rw [← hplace, fits_iff, sorted_fits_iff hrest]
    by_cases hmode : cfg.dbMode = .dbOnly
    · rw [if_pos hmode, hsorted]
      simp only [hmode, ne_eq, not_true_eq_false, false_and, or_false]
    · rw [if_neg hmode, moved, hdesc, if_neg Bool.false_ne_true]
      by_cases hfits : Fits y.loc.mem.q c l₁ l₂ = true
      · rw [if_pos hfits, hsorted]
        exact ⟨.inl, fun _ => hplace.mp hfits⟩
      · have hother : l₁ ++ l₂ ≠ [] := by
          intro hnil
          obtain ⟨rfl, rfl⟩ := append_eq_nil_iff.mp hnil
          exact hfits rfl
        have hhigh : Highest x.loc.mem c ci.vals.q ↔ (∃ d ∈ l₁ ++ l₂, y.loc.mem.q d = y.loc.mem.q c) ∧
            ∀ d ∈ l₁ ++ l₂, y.loc.mem.q d ≤ y.loc.mem.q c := by
          have hmem : ∀ d, d ∈ l₁ ++ l₂ ↔ d ≠ c ∧ x.loc.mem.live d = true := by
            intro d
            rw [← h.live d]
            constructor
            · exact fun hd => ⟨hne d hd, hsub.subset hd⟩
            · rintro ⟨hdc, hd⟩
              simp only [mem_append, mem_cons, hdc, false_or] at hd ⊢
              exact hd
          rw [hqc]
          refine and_congr (exists_congr fun d => ?_) (forall_congr' fun d => ?_)
          · rw [hmem d, and_assoc]
            exact and_congr_right fun hd => by rw [hq d hd]
          · rw [hmem d, and_imp]
            exact imp_congr_right fun hd => by rw [hq d hd]
        rw [if_neg hfits, sorted_placed_iff hrest hother, ← hhigh]
        exact ⟨fun hh => .inr ⟨hmode, hh⟩, fun hh => (hh.resolve_left fun hp => hfits (hplace.mpr hp)).2⟩

/-- An operation that touches no contact and no q-value only takes contacts out. -/
theorem keep_inOrder (h : ListOk x.loc.mem l) (hin : InOrder cfg x) (hok : ListOk y.loc.mem l')
    (hsub : l'.Sublist l) (hq : y.loc.mem.q = x.loc.mem.q) (hrecent : y.recent = x.recent.filter y.loc.mem.live) :
    InOrder cfg y := by
  rw [inOrder_iff h] at hin
  rw [inOrder_iff hok, hrecent]
  split at hin
  · rw [if_pos ‹_›, ← hin]
    have hle : l'.Sublist (l.filter y.loc.mem.live) := hok.filter_self (fun _ hd => hd) ▸ hsub.filter _
    refine hle.eq_of_length_le ((h.nodup.filter _).subperm fun d hd => ?_).length_le
    exact (hok.live d).mpr (mem_filter.mp hd).2
  · rw [if_neg ‹_›, hq]
    exact hin.sublist hsub

theorem delete_inOrder (h : ListOk x.loc.mem (l₁ ++ c :: l₂)) (hin : InOrder cfg x)
    (hrun : track cfg x (.delete c ok) = some y) : InOrder cfg y := by
  obtain ⟨hstep, hrecent⟩ := track_cases hrun
  have hlive : x.loc.mem.live c = true := (h.live c).mp (by simp)
  obtain ⟨hok, hcell⟩ := h.deleteUcontact cfg ok
  have hy : deleteUcontact cfg x.loc c ok = y.loc := some.inj ((if_pos hlive).symm.trans hstep)
  rw [hy] at hok hcell
  refine keep_inOrder h hin hok ?_ (funext fun d => ?_) hrecent
  · split
    · exact (sublist_cons_self c l₂).append_left l₁
    · exact .refl _
  · rw [q, hcell]
    by_cases hd : d = c
    · subst hd
      rw [update_self, stDeleteUcontact_q, q]
    · rw [update_of_ne hd, q]

theorem timer_inOrder {t : Nat} {ok : Nat → Bool} (h : ListOk x.loc.mem l) (hin : InOrder cfg x)
    (hrun : track cfg x (.timer t ok) = some y) : InOrder cfg y := by
  obtain ⟨hstep, hrecent⟩ := track_cases hrun
  obtain ⟨u, hu, hvals, hok⟩ := h.timer cfg t ok
  obtain rfl : u = y.loc := some.inj (hu.symm.trans hstep)
  refine keep_inOrder h hin hok ?_ (funext fun d => by rw [q, q, hvals]) hrecent
  split
  · exact .refl _
  · exact filter_sublist

/-- **An operation keeps the order exactly under `Keeps`.** -/
theorem step_inOrder_iff (h : ListOk x.loc.mem l) (hin : InOrder cfg x) (hrun : track cfg x op = some y) :
    InOrder cfg y ↔ Keeps cfg x op := by
  cases op with
  | insert => exact ⟨fun _ => trivial, fun _ => insert_inOrder h hin hrun⟩
  | timer t ok => exact ⟨fun _ => trivial, fun _ => timer_inOrder h hin hrun⟩
  | update =>
    obtain ⟨l₁, l₂, rfl⟩ := h.split (possible_of_step cfg (track_cases hrun).1)
    exact update_inOrder_iff h hin hrun
  | delete c ok =>
    obtain ⟨l₁, l₂, rfl⟩ := h.split (possible_of_step cfg (track_cases hrun).1)
    exact ⟨fun _ => trivial, fun _ => delete_inOrder h hin hrun⟩

end

/-! ## Lookup -/

section
variable {r : URecord} {l l₁ l₂ : List Nat}

theorem lookupFrom_eq (p : Nat → Bool) {fuel : Nat} (h : Dll r.next r.prev r.contacts (l₁ ++ l₂))
    (hfuel : l₂.length ≤ fuel) : lookupFrom r p fuel l₂.head? = some (l₂.filter p) := by
  induction l₂ generalizing l₁ fuel with
  | nil => cases fuel <;> rfl
  | cons c l₂ ih =>
    cases fuel with
    | zero => simp at hfuel
    | succ fuel =>
      have hsplit : l₁ ++ c :: l₂ = (l₁ ++ [c]) ++ l₂ := by simp
      rw [head?_cons, lookupFrom, h.next_eq]
      rw [hsplit] at h
      rw [ih h (by simpa using hfuel), map_some, filter_cons]

/-- The contact that a request is forwarded to first is wanted, and no wanted contact has a higher q-value. -/
def ForwardsBest (r : URecord) (t method : Nat) (methodFiltering : Bool) (found : List Nat) : Prop :=
  match found.head? with
  | some c => r.live c = true ∧ wanted r t method methodFiltering c = true ∧
      ∀ d, r.live d = true → wanted r t method methodFiltering d = true → r.q d ≤ r.q c
  | none => ∀ d, r.live d = true → wanted r t method methodFiltering d = false

/-- **A request is forwarded to a contact of the highest q-value first**, if the list is sorted. -/
theorem lookup_best (h : ListOk r l) (hs : Sorted r.q l) (t method : Nat) (methodFiltering appendBranches : Bool) :
    ∃ found, lookup r t method methodFiltering appendBranches = some found ∧
      ForwardsBest r t method methodFiltering found := by
  have hdll : Dll r.next r.prev r.contacts ([] ++ l) := h.dll
  have hfrom := lookupFrom_eq (wanted r t method methodFiltering) hdll h.length_le
  rw [← h.dll.head_eq] at hfrom
  refine ⟨_, by rw [lookup, hfrom]; rfl, ?_⟩
  have hhead : (if appendBranches then l.filter (wanted r t method methodFiltering)
      else (l.filter (wanted r t method methodFiltering)).take 1).head? =
        (l.filter (wanted r t method methodFiltering)).head? := by
    split
    · rfl
    · rw [head?_take, if_neg (by decide)]
  unfold ForwardsBest
  rw [hhead]
  cases hl : l.filter (wanted r t method methodFiltering) with
  | nil =>
    intro d hd
    have := filter_eq_nil_iff.mp hl d ((h.live d).mpr hd)
    simpa using this
  | cons c rest =>
    have hc : c ∈ l.filter (wanted r t method methodFiltering) := by rw [hl]; exact mem_cons_self
    obtain ⟨hcl, hcw⟩ := mem_filter.mp hc
    refine ⟨(h.live c).mp hcl, hcw, fun d hd hdw => ?_⟩
    have hsorted : Sorted r.q (c :: rest) := hl ▸ hs.sublist filter_sublist
    have hdmem : d ∈ c :: rest := hl ▸ mem_filter.mpr ⟨(h.live d).mpr hd, hdw⟩
    rcases mem_cons.mp hdmem with rfl | hdmem
    · exact le_rfl
    · exact (pairwise_cons.mp hsorted).1 d hdmem

end

/-! ## Runs -/

def Tracked.init : Tracked := ⟨UDomain.init, []⟩

/-- **The runs that keep the order.** The list is consistent after every operation. It is in its order all along exactly
when every operation meets `Keeps`; and whenever it is sorted by q-value, a lookup forwards to the best contact
first. -/
theorem contacts_inOrder_iff (cfg : Config) {es : List (Op × Tracked)}
    (h : Trace (fun x op y => track cfg x op = some y) Tracked.init es) :
    (∀ e ∈ es, (∃ l, ListOk e.2.loc.mem l) ∧
      ∀ op : Op, op.Possible e.2.loc → ∃ u, step cfg e.2.loc op = some u) ∧
    ((∀ e ∈ es, InOrder cfg e.2) ↔ Trace (fun x op _ => Keeps cfg x op) Tracked.init es) ∧
    (∀ e ∈ es, InOrder cfg e.2 → cfg.descTimeOrder = false → ∀ t method methodFiltering appendBranches,
      ∃ found, lookup e.2.loc.mem t method methodFiltering appendBranches = some found ∧
        ForwardsBest e.2.loc.mem t method methodFiltering found) := by
  have hI : ∀ (x : Tracked) (op : Op) (y : Tracked), (∃ l, ListOk x.loc.mem l) → track cfg x op = some y →
      ∃ l, ListOk y.loc.mem l := by
    rintro x op y ⟨l, hl⟩ hrun
    have hstep := (track_cases hrun).1
    obtain ⟨u, hu, hok⟩ := hl.step cfg (possible_of_step cfg hstep)
    obtain rfl : u = y.loc := some.inj (hu.symm.trans hstep)
    exact hok
  have hinit : ∃ l, ListOk Tracked.init.loc.mem l := ⟨[], init_listOk⟩
  have hall := Trace.invariant (I := fun x : Tracked => ∃ l, ListOk x.loc.mem l) hI h hinit
  refine ⟨fun e he => ⟨hall e he, fun op hop => ?_⟩, ?_, ?_⟩
  · obtain ⟨l, hl⟩ := hall e he
    obtain ⟨u, hu, -⟩ := hl.step cfg hop
    exact ⟨u, hu⟩
  · refine Trace.always_iff (I := fun x : Tracked => ∃ l, ListOk x.loc.mem l) hI ?_ h hinit ?_
    · rintro x op y ⟨l, hl⟩ hin hrun
      exact step_inOrder_iff hl hin hrun
    · refine ⟨[], init_listOk, ?_⟩
      split
      · rfl
      · exact List.Pairwise.nil
  · rintro e - ⟨l, hl, hs⟩ hdesc t method methodFiltering appendBranches
    rw [hdesc] at hs
    exact lookup_best hl hs t method methodFiltering appendBranches

def permanent (q : Int) : Info := ⟨"1@a".toList, ⟨none, none, 0, q, 1, 0, 0, [], none, 0xFFFFFFFF, 0⟩⟩

/-- Three contacts are inserted, and the last one is updated. -/
def threeContacts (q : Int) : List Op :=
  [.insert "sip:a".toList (permanent 800) true, .insert "sip:b".toList (permanent 500) true,
    .insert "sip:c".toList (permanent 300) true, .update 2 (permanent q) true]

/-- The last contact stays the last one. -/
theorem contacts_inOrder_three :
    ∃ es, Trace (fun x op y => track ⟨.writeThrough, false⟩ x op = some y) Tracked.init es ∧
      es.map Prod.fst = threeContacts 400 ∧
      ((∀ e ∈ es, InOrder ⟨.writeThrough, false⟩ e.2) ↔
        Trace (fun x op _ => Keeps ⟨.writeThrough, false⟩ x op) Tracked.init es) := by
  have hrun : (exec (track ⟨.writeThrough, false⟩) Tracked.init (threeContacts 400)).isSome = true := by decide +kernel
  obtain ⟨y, hy⟩ := isSome_iff_exists.mp hrun
  obtain ⟨es, hes, hlabels, -⟩ := exec_trace hy
  exact ⟨es, hes, hlabels, (contacts_inOrder_iff ⟨.writeThrough, false⟩ hes).2.1⟩

/-- The last of three contacts gets the highest q-value, and stays last; the first one gets the lowest, and stays
first. -/
theorem update_out_of_order :
    ((exec (step ⟨.writeThrough, false⟩) UDomain.init (threeContacts 1000)).bind fun u =>
      (lookup u.mem 0 0 false true).map fun found => found.map u.mem.q) = some [800, 500, 1000] ∧
    ((exec (step ⟨.writeThrough, false⟩) UDomain.init (threeContacts 300 ++ [.update 0 (permanent 100) true])).bind
      fun u => (lookup u.mem 0 0 false true).map fun found => found.map u.mem.q) = some [100, 500, 300] := by
  decide +kernel

end OpenSer.Usrloc
