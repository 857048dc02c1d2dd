import Mathlib.Tactic

/-!
# The dispatcher

`dispatch.c`: the search of `ds_select_dst` for an entry of a destination set.

* `search_right_iff`: the sets in which the search ends, and with the right entry.
* `round_robin`: consecutive selections with algorithm 4 go once through the entries that are up.
-/

namespace OpenSer.Dispatcher

open Option List Nat

/-! ## Selecting an entry -/

/-- `ds_dest_t`, with the flags `DS_INACTIVE_DST` and `DS_PROBING_DST`. -/
structure DsDest where
  uri : List UInt8
  inactive : Bool
  probing : Bool
  deriving Repr, DecidableEq

def DsDest.down (d : DsDest) : Bool := d.inactive || d.probing

/-- `ds_set_t`; `nr` is the length of `dlist`. -/
structure DsSet where
  id : Int
  dlist : List DsDest
  last : Nat
  deriving Repr, DecidableEq

/-- How a call ends that selects nothing: `-1`, a division by zero, or not within the fuel. -/
inductive Stop
  | error
  | divByZero
  | running
  deriving Repr, DecidableEq

/-- What the search counts its turn by. -/
def turnLen (useDefault : Bool) (dlist : List DsDest) : Nat := if useDefault then dlist.length - 1 else dlist.length

def searchLoop (useDefault : Bool) (dlist : List DsDest) (hash : Nat) : Nat → Nat → Except Stop Nat
  | 0, _ => .error .running
  | fuel + 1, i =>
    if dlist[i]?.any DsDest.down then
      if turnLen useDefault dlist = 0 then .error .divByZero
      else if (i + 1) % turnLen useDefault dlist = hash then
        if useDefault then searchLoop useDefault dlist hash fuel (dlist.length - 1) else .error .error
      else searchLoop useDefault dlist hash fuel ((i + 1) % turnLen useDefault dlist)
    else .ok i

/-- The search: the entry of the hash, or one behind it. -/
def search (useDefault : Bool) (dlist : List DsDest) (hash fuel : Nat) : Except Stop Nat :=
  let hash := if useDefault ∧ dlist.length ≠ 1 then hash % (dlist.length - 1) else hash % dlist.length
  searchLoop useDefault dlist hash fuel hash

def Up (dlist : List DsDest) (i : Nat) : Prop := ∃ d, dlist[i]? = some d ∧ d.down = false

/-- An entry that is not the default one. -/
def Selectable (useDefault : Bool) (dlist : List DsDest) (i : Nat) : Prop :=
  i < dlist.length ∧ (useDefault → i ≠ dlist.length - 1)

/-- What a search should give: an entry that is up. It is the default one only if no other one is, and it is missing
only if there is none. -/
def Right (useDefault : Bool) (dlist : List DsDest) : Except Stop Nat → Prop
  | .ok i => Up dlist i ∧ (Selectable useDefault dlist i ∨
      useDefault ∧ i = dlist.length - 1 ∧ ∀ j, Selectable useDefault dlist j → ¬Up dlist j)
  | .error .error => (∀ j, Selectable useDefault dlist j → ¬Up dlist j) ∧ ¬(useDefault ∧ Up dlist (dlist.length - 1))
  | .error _ => False

section
variable {useDefault : Bool} {dlist : List DsDest} {hash i j fuel : Nat}

theorem down_iff (hi : i < dlist.length) : dlist[i]?.any DsDest.down ↔ ¬Up dlist i := by
  unfold Up
  rw [getElem?_eq_getElem hi]
  simp

theorem searchLoop_up (h : Up dlist i) : searchLoop useDefault dlist hash (fuel + 1) i = .ok i := by
  obtain ⟨d, hd, hdown⟩ := h
  rw [searchLoop, hd, any_some, hdown]
  rfl

theorem add_mod_ne {n k : Nat} (hhash : hash < n) (hk : k < n) (hpos : 0 < k) : (hash + k) % n ≠ hash := by
  by_cases hlt : hash + k < n
  · rw [mod_eq_of_lt hlt]
    omega
  · rw [mod_eq_sub_mod (by omega), mod_eq_of_lt (by omega)]
    omega

theorem searchLoop_turn (hhash : hash < turnLen useDefault dlist) {k : Nat} (hk : k < turnLen useDefault dlist)
    (hdown : ∀ j < k, ¬Up dlist ((hash + j) % turnLen useDefault dlist)) (fuel : Nat) :
    searchLoop useDefault dlist hash (fuel + k) hash =
      searchLoop useDefault dlist hash fuel ((hash + k) % turnLen useDefault dlist) := by
  induction k generalizing fuel with
  | zero => rw [add_zero, add_zero, mod_eq_of_lt hhash]
  | succ k ih =>
    have hlt : (hash + k) % turnLen useDefault dlist < dlist.length := by
      refine (mod_lt _ (by omega)).trans_le ?_
      unfold turnLen
      split <;> omega
    have hgo := ih (by omega) (fun j hj => hdown j (by omega)) (fuel + 1)
    rw [add_right_comm] at hgo
    rw [← add_assoc, hgo, searchLoop, if_pos ((down_iff hlt).mpr (hdown k (by omega))), if_neg (by omega),
      mod_add_mod, add_assoc, if_neg (add_mod_ne hhash hk (by omega))]

theorem search_start (hpos : 0 < turnLen useDefault dlist) (hash fuel : Nat) : search useDefault dlist hash fuel =
    searchLoop useDefault dlist (hash % turnLen useDefault dlist) fuel (hash % turnLen useDefault dlist) := by
  cases useDefault with
  | false => rfl
  | true =>
    replace hpos : 0 < dlist.length - 1 := hpos
    rw [search, if_pos ⟨rfl, by omega⟩]
    rfl

theorem selectable_iff : Selectable useDefault dlist j ↔ j < turnLen useDefault dlist := by
  unfold Selectable turnLen
  cases useDefault with
  | false => simp
  | true =>
    simp only [forall_const, if_true]
    omega

theorem search_right (hne : dlist ≠ []) (h : useDefault = false ∨ ∃ i, Up dlist i) (hash : Nat) :
    ∃ k, ∀ fuel, Right useDefault dlist (search useDefault dlist hash (fuel + k)) := by
  have hlen : 0 < dlist.length := length_pos_iff.mpr hne
  have hup_lt : ∀ {i}, Up dlist i → i < dlist.length := fun ⟨_, hd, _⟩ => (List.getElem?_eq_some_iff.mp hd).1
  by_cases hzero : turnLen useDefault dlist = 0
  · -- the default entry is the only one
    cases useDefault with
    | false => exact absurd hzero hlen.ne'
    | true =>
      replace hzero : dlist.length - 1 = 0 := hzero
      obtain ⟨i, hi⟩ := h.resolve_left Bool.noConfusion
      obtain rfl : i = 0 := by have := hup_lt hi; omega
      refine ⟨1, fun fuel => ?_⟩
      rw [search, if_neg (by omega), show dlist.length = 1 by omega, mod_one, searchLoop_up hi]
      exact ⟨hi, .inr ⟨rfl, hzero.symm, fun j hj => absurd (hj.2 rfl) (by have := hj.1; omega)⟩⟩
  have hpos := pos_of_ne_zero hzero
  have hstart : hash % turnLen useDefault dlist < turnLen useDefault dlist := mod_lt _ hpos
  have hselectable : ∀ j, Selectable useDefault dlist j ↔ j < turnLen useDefault dlist := fun _ => selectable_iff
  simp only [search_start hpos]
  generalize hash % turnLen useDefault dlist = start at *
  generalize hn : turnLen useDefault dlist = n at *
  by_cases hup : ∃ k, k < n ∧ Up dlist ((start + k) % n)
  · -- the first entry of the turn that is up
    classical
    obtain ⟨hk, hupk⟩ := Nat.find_spec hup
    refine ⟨1 + Nat.find hup, fun fuel => ?_⟩
    have hdown : ∀ j < Nat.find hup, ¬Up dlist ((start + j) % n) := fun j hj hj' =>
      Nat.find_min hup hj ⟨hj.trans hk, hj'⟩
    subst hn
    rw [← add_assoc, searchLoop_turn hstart hk hdown, searchLoop_up hupk]
    exact ⟨hupk, .inl ((hselectable _).mpr (mod_lt _ (by omega)))⟩
  · push Not at hup
    have hall : ∀ j < n, ¬Up dlist j := by
      intro j hj
      have hturn : (start + (j + n - start) % n) % n = j := by
        rw [add_mod_mod, show start + (j + n - start) = j + n by omega, add_mod_right, mod_eq_of_lt hj]
      exact hturn ▸ hup _ (mod_lt _ (by omega))
    refine ⟨2 + (n - 1), fun fuel => ?_⟩
    have hlast : (start + (n - 1)) % n < dlist.length := by
      refine (mod_lt _ (by omega)).trans_le ?_
      rw [← hn, turnLen]
      split <;> omega
    have hback : ((start + (n - 1)) % n + 1) % n = start := by
      rw [mod_add_mod, show start + (n - 1) + 1 = start + n by omega, add_mod_right, mod_eq_of_lt hstart]
    subst hn
    rw [← add_assoc, searchLoop_turn hstart (by omega) (fun j hj => hup j (by omega)), searchLoop,
      if_pos ((down_iff hlast).mpr (hup _ (by omega))), if_neg hzero, if_pos hback]
    cases useDefault with
    | false => exact ⟨fun j hj => hall j ((hselectable j).mp hj), fun h => Bool.noConfusion h.1⟩
    | true =>
      obtain ⟨i, hi⟩ := h.resolve_left Bool.noConfusion
      obtain rfl : i = dlist.length - 1 := by
        have h1 := hup_lt hi
        have h2 : ¬i < dlist.length - 1 := fun hlt => hall i hlt hi
        omega
      rw [if_pos rfl, searchLoop_up hi]
      exact ⟨hi, .inr ⟨rfl, rfl, fun j hj => hall j ((hselectable j).mp hj)⟩⟩

/-- With a default entry, a search in which no entry is up does not end, or divides by zero. -/
theorem searchLoop_all_down (hdown : ∀ i, ¬Up dlist i) (hi : i < dlist.length) :
    searchLoop true dlist hash fuel i = .error .running ∨ searchLoop true dlist hash fuel i = .error .divByZero := by
  induction fuel generalizing i with
  | zero => exact .inl rfl
  | succ fuel ih =>
    rw [searchLoop, if_pos ((down_iff hi).mpr (hdown i))]
    split
    · exact .inr rfl
    · rename_i hzero
      have hmod := mod_lt (i + 1) (pos_of_ne_zero hzero)
      split
      · exact ih (by omega)
      · refine ih (hmod.trans_le ?_)
        rw [turnLen, if_pos rfl]
        omega

theorem search_not_right (hne : dlist ≠ []) (hdown : ∀ i, ¬Up dlist i) :
    ¬∃ k, ∀ fuel, Right true dlist (search true dlist hash (fuel + k)) := by
  rintro ⟨k, hk⟩
  have hlen : 0 < dlist.length := length_pos_iff.mpr hne
  obtain ⟨start, hstart, hsearch⟩ : ∃ start, start < dlist.length ∧
      search true dlist hash (0 + k) = searchLoop true dlist start (0 + k) start := by
    refine ⟨_, ?_, rfl⟩
    split
    · exact (mod_lt _ (by omega)).trans (by omega)
    · exact mod_lt _ hlen
  have hright := hk 0
  rw [hsearch] at hright
  rcases searchLoop_all_down hdown hstart with h | h
  · rw [h] at hright
    exact hright
  · rw [h] at hright
    exact hright

end

/-- **Exactly when** the search of a set that is not empty ends, and as it should: when there is no default entry, or
some entry is up. -/
theorem search_right_iff (useDefault : Bool) (d : DsDest) (ds : List DsDest) (hash : Nat) :
    (∃ k, ∀ fuel, Right useDefault (d :: ds) (search useDefault (d :: ds) hash (fuel + k))) ↔
      useDefault = false ∨ ∃ x ∈ d :: ds, x.down = false := by
  have hex : (∃ x ∈ d :: ds, x.down = false) ↔ ∃ i, Up (d :: ds) i := by
    simp only [mem_iff_getElem?, Up]
    grind
  rw [hex]
  refine ⟨fun hright => ?_, fun h => search_right (cons_ne_nil _ _) h hash⟩
  by_contra hcon
  push Not at hcon
  obtain rfl : useDefault = true := Bool.eq_true_of_not_eq_false hcon.1
  exact search_not_right (cons_ne_nil _ _) hcon.2 hright

/-- Both entries are down, and the second one is the default: the search goes round without end. With one entry, it
divides by zero. -/
theorem search_all_down :
    (¬∃ k, ∀ fuel, Right true [⟨[], true, false⟩, ⟨[], false, true⟩]
      (search true [⟨[], true, false⟩, ⟨[], false, true⟩] 0 (fuel + k))) ∧
      search true [⟨[], true, false⟩] 0 1 = .error .divByZero := by
  refine ⟨search_not_right (cons_ne_nil _ _) ?_, rfl⟩
  rintro (_ | _ | i) ⟨d, hd, hdown⟩ <;> cases hd <;> cases hdown

/-! ## Round robin -/

/-- `ds_select_dst` with algorithm 4; `updated` is the outcome of `ds_update_dst`. -/
def dsSelectDst (useDefault updated : Bool) (fuel : Nat) (idx : DsSet) : Except Stop Nat × DsSet :=
  match search useDefault idx.dlist idx.last fuel with
  | .ok i =>
    if updated then (.ok i, { idx with last := (i + 1) % idx.dlist.length })
    else (.error .error, { idx with last := (idx.last + 1) % idx.dlist.length })
  | .error e => (.error e, { idx with last := (idx.last + 1) % idx.dlist.length })

/-- Consecutive selections whose destinations can be set. -/
def selections (useDefault : Bool) (fuel : Nat) : Nat → DsSet → List (Except Stop Nat)
  | 0, _ => []
  | k + 1, idx =>
    let r := dsSelectDst useDefault true fuel idx
    r.1 :: selections useDefault fuel k r.2

def isUp (dlist : List DsDest) (i : Nat) : Bool := !dlist[i]?.any DsDest.down

/-- The entries that are up, not counting the default one, which is the last. -/
def usable (useDefault : Bool) (dlist : List DsDest) : List Nat :=
  (range (if useDefault then dlist.length - 1 else dlist.length)).filter (isUp dlist)

section

variable {useDefault : Bool} {dlist : List DsDest} {n : Nat} (hn : turnLen useDefault dlist = n)

include hn

theorem search_first {last m d : Nat} (hd : d < n) (hlast : last % n = m % n)
    (hdown : ∀ j < d, ¬isUp dlist ((m + j) % n) = true) (hup : isUp dlist ((m + d) % n) = true) (fuel : Nat) :
    search useDefault dlist last (fuel + dlist.length + 1) = .ok ((m + d) % n) := by
  have hle : n ≤ dlist.length := by
    rw [← hn, turnLen]
    split <;> omega
  have hiff : ∀ j, isUp dlist ((m + j) % n) = true ↔ Up dlist ((m % n + j) % n) := by
    intro j
    rw [mod_add_mod, isUp, Bool.not_eq_true', ← Bool.not_eq_true,
      down_iff ((mod_lt _ (by omega)).trans_le hle), not_not]
  subst hn
  rw [search_start (by omega), hlast, show fuel + dlist.length + 1 = fuel + (dlist.length - d) + 1 + d by omega,
    searchLoop_turn (mod_lt _ (by omega)) hd, searchLoop_up ((hiff d).mp hup), mod_add_mod]
  exact fun j hj hc => hdown j hj ((hiff j).mpr hc)

/-- The place behind an entry of the turn, as it is stored and as the next search reads it. -/
theorem stored_mod (hpos : 0 < n) (p : Nat) : (p % n + 1) % dlist.length % n = (p + 1) % n := by
  cases useDefault with
  | false =>
    replace hn : dlist.length = n := hn
    rw [hn, mod_mod, mod_add_mod]
  | true =>
    replace hn : dlist.length - 1 = n := hn
    have := mod_lt p hpos
    rw [mod_eq_of_lt (by omega : p % n + 1 < dlist.length), mod_add_mod]

end

theorem map_mod_range' (m n : Nat) : (range' m n).map (· % n) = (range n).rotate m := by
  apply ext_getElem
  · simp
  · simp [getElem_rotate, add_comm]

theorem selections_window {useDefault : Bool} {n : Nat} (fuel : Nat) {ws : List Nat} : ∀ {m len : Nat} (idx : DsSet),
    turnLen useDefault idx.dlist = n → (range' m len).filter (fun j => isUp idx.dlist (j % n)) = ws → len ≤ n →
    idx.last % n = m % n →
    selections useDefault (fuel + idx.dlist.length + 1) ws.length idx = ws.map fun p => .ok (p % n) := by
  induction ws with
  | nil =>
    intro m len idx hn hws hlen hlast
    rfl
  | cons p ws ih =>
    intro m len idx hn hws hlen hlast
    obtain ⟨l₁, l₂, hl, hdown, hup, hrest⟩ := filter_eq_cons_iff.mp hws
    obtain ⟨d, hd, rfl, hp⟩ := range'_eq_append_iff.mp hl
    obtain ⟨rfl, hpos, rfl⟩ := range'_eq_cons_iff.mp hp.symm
    rw [mul_one] at *
    have hsearch := search_first hn (by omega : d < n) hlast
      (fun j hj => hdown (m + j) (mem_range'_1.mpr ⟨by omega, by omega⟩)) hup fuel
    simp only [selections, dsSelectDst, hsearch, length_cons, map_cons, if_true]
    congr 1
    exact ih { idx with last := ((m + d) % n + 1) % idx.dlist.length } hn hrest (by omega)
      (stored_mod hn (by omega) (m + d))

/-- **Round robin**: as many selections as there are usable entries pick each of them once, from every position. -/
theorem round_robin (useDefault : Bool) (idx : DsSet) : ∃ need, ∀ fuel, ∃ picks : List Nat,
    selections useDefault (fuel + need) (usable useDefault idx.dlist).length idx = picks.map .ok ∧
      picks.Perm (usable useDefault idx.dlist) := by
  refine ⟨idx.dlist.length + 1, fun fuel => ?_⟩
  have hperm := (rotate_perm (range (turnLen useDefault idx.dlist)) idx.last).filter (isUp idx.dlist)
  rw [← map_mod_range', List.filter_map] at hperm
  refine ⟨_, ?_, hperm⟩
  have hlen := hperm.length_eq
  rw [length_map] at hlen
  rw [usable, ← turnLen, ← hlen, List.map_map, ← add_assoc]
  exact selections_window fuel idx rfl rfl le_rfl rfl

end OpenSer.Dispatcher
