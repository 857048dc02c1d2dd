import OpenSer.Tm.TransSteps

/-!
# One CANCEL for a branch

Several processes may want to cancel the branches of an INVITE: those that handle a 2xx or a 6xx, a delayed provisional
reply, a timeout, a CANCEL from upstream. Selecting a branch marks it; the CANCEL is built later, outside the lock.

* `Custody.Once`: a branch that is selected and not yet cancelled is in one hand only.
* `cancel_once`: if all events of a run are fine, no branch gets a second CANCEL.
* `cancel_twice`: without memory for the 408, a timeout cancels its branch twice.
* `selected_once`: even so, no branch is selected twice.
-/

namespace OpenSer.Tm

open Lib (exec Meets exec_invariant_of_meets)
open UaClient Multiset

/-- At most one CANCEL was built for a branch, the bitmaps given to `cancel_uacs` are disjoint, no branch with a final
reply was selected, and `cancel_branch` never met a CANCEL. -/
def Trans.CancelOnce (t : Trans) : Prop :=
  t.cancels.Nodup ∧ t.handed.Pairwise List.Disjoint ∧ (∀ x ∈ t.selected, x.2 < 200) ∧ t.aborted = false

/-- What a branch holds about its CANCEL. -/
def UaClient.cancelling (uac : UaClient) : LocalCancel × Bool × Nat := (uac.localCancel, uac.toCancel, uac.lastReceived)

def Trans.cancelled (t : Trans) : List (Nat × Nat) × List (List Nat) × List Nat × Bool :=
  (t.selected, t.handed, t.cancels, t.aborted)

/-- A branch that is selected and not yet cancelled is in one hand only: in a bitmap, or among the tasks of a
process. -/
structure Custody.Once (x : Custody) : Prop where
  busy : ∀ b ∈ x.held + x.due, (x.trans.uac b).localCancel = .busy
  nodup : (x.held + x.due).Nodup
  handed : (x.held + ↑x.trans.handed.flatten).Nodup
  seized : ∀ b ∈ x.trans.handed.flatten, (x.trans.uac b).localCancel ≠ .null
  flagged : ∀ b, (x.trans.uac b).toCancel → (x.trans.uac b).localCancel = .null ∧
    ((x.trans.uac b).lastReceived = 0 ∨ 200 ≤ (x.trans.uac b).lastReceived)
  once : x.trans.cancels.Nodup
  built : ∀ b ∈ x.trans.cancels, (x.trans.uac b).localCancel = .built
  selected : ∀ s ∈ x.trans.selected, s.2 < 200
  sane : x.trans.aborted = false

variable {c : Option (Nat × Nat)} {x y : Custody} {t t' : Trans} {h d : Multiset Nat} {b : Nat}

section
variable (hx : Custody.Once ⟨t, h, d⟩)
include hx

theorem Custody.Once.reflag (hlocal : ∀ b, (t'.uac b).localCancel = (t.uac b).localCancel)
    (hlog : t'.cancelled = t.cancelled) (hflagged : ∀ b, (t'.uac b).toCancel → (t.uac b).localCancel = .null ∧
      ((t'.uac b).lastReceived = 0 ∨ 200 ≤ (t'.uac b).lastReceived)) : Custody.Once ⟨t', h, d⟩ := by
  have hsel : t'.selected = t.selected := congrArg Prod.fst hlog
  have hhand : t'.handed = t.handed := congrArg (·.2.1) hlog
  have hcan : t'.cancels = t.cancels := congrArg (·.2.2.1) hlog
  have habort : t'.aborted = t.aborted := congrArg (·.2.2.2) hlog
  refine ⟨fun b hb => ?_, hx.nodup, ?_, fun b hb => ?_, fun b hb => ?_, ?_, fun b hb => ?_, ?_, habort.trans hx.sane⟩
  · exact (hlocal b).trans (hx.busy b hb)
  · exact hhand ▸ hx.handed
  · rw [hlocal]
    exact hx.seized b (hhand ▸ hb)
  · rw [hlocal]
    exact hflagged b hb
  · exact hcan ▸ hx.once
  · exact (hlocal b).trans (hx.built b (hcan ▸ hb))
  · exact hsel ▸ hx.selected

theorem Custody.Once.congr (huac : ∀ b, (t'.uac b).cancelling = (t.uac b).cancelling)
    (hlog : t'.cancelled = t.cancelled) : Custody.Once ⟨t', h, d⟩ := by
  refine hx.reflag (fun b => congrArg Prod.fst (huac b)) hlog fun b hb => ?_
  have hflag : (t'.uac b).toCancel = (t.uac b).toCancel := congrArg (·.2.1) (huac b)
  have hlast : (t'.uac b).lastReceived = (t.uac b).lastReceived := congrArg (·.2.2) (huac b)
  rw [hlast]
  exact hx.flagged b (hflag ▸ hb)

theorem Custody.Once.mono {h' d' : Multiset Nat} (hh : h' ≤ h) (hd : d' ≤ d) :
    Custody.Once ⟨t, h', d'⟩ where
  busy b hb := hx.busy b (mem_of_le (add_le_add hh hd) hb)
  nodup := nodup_of_le (add_le_add hh hd) hx.nodup
  handed := nodup_of_le (add_le_add_left hh _) hx.handed
  seized := hx.seized
  flagged := hx.flagged
  once := hx.once
  built := hx.built
  selected := hx.selected
  sane := hx.sane

theorem Custody.Once.free (hnull : (t.uac b).localCancel = .null) :
    b ∉ h + d ∧ b ∉ t.handed.flatten ∧ b ∉ t.cancels := by
  refine ⟨fun hb => ?_, fun hb => hx.seized b hb hnull, fun hb => ?_⟩
  · cases hnull.symm.trans (hx.busy b hb)
  · cases hnull.symm.trans (hx.built b hb)

theorem Custody.Once.select (hnull : (t.uac b).localCancel = .null)
    (hlo : 100 ≤ (t.uac b).lastReceived) (hhi : (t.uac b).lastReceived < 200) :
    Custody.Once ⟨{ t.modify b ({ · with localCancel := .busy }) with
      selected := (b, (t.uac b).lastReceived) :: t.selected }, b ::ₘ h, d⟩ := by
  have hself : (t.modify b ({ · with localCancel := .busy })).uac b = { t.uac b with localCancel := .busy } :=
    modify_uac_self _
  have hne : ∀ {a}, a ≠ b → (t.modify b ({ · with localCancel := .busy })).uac a = t.uac a := fun ha =>
    modify_uac_ne _ ha
  obtain ⟨hfree, hhanded, hcancels⟩ := hx.free hnull
  refine ⟨fun a ha => ?_, ?_, ?_, fun a ha => ?_, fun a ha => ?_, hx.once, fun a ha => ?_,
    List.forall_mem_cons.mpr ⟨hhi, hx.selected⟩, hx.sane⟩
  · rw [cons_add, mem_cons] at ha
    rcases ha with rfl | ha
    · exact congrArg localCancel hself
    · exact (congrArg localCancel (hne (ne_of_mem_of_not_mem ha hfree))).trans (hx.busy a ha)
  · rw [cons_add]
    exact nodup_cons.mpr ⟨hfree, hx.nodup⟩
  · rw [cons_add]
    refine nodup_cons.mpr ⟨fun hb => ?_, hx.handed⟩
    rcases mem_add.mp hb with hb | hb
    · exact hfree (mem_add.mpr (.inl hb))
    · exact hhanded hb
  · rw [hne (ne_of_mem_of_not_mem ha hhanded)]
    exact hx.seized a ha
  · by_cases hab : a = b
    · subst hab
      rw [hself] at ha
      have := (hx.flagged a ha).2
      dsimp only at this
      omega
    · rw [hne hab] at ha ⊢
      exact hx.flagged a ha
  · exact (congrArg localCancel (hne (ne_of_mem_of_not_mem ha hcancels))).trans (hx.built a ha)

theorem Custody.Once.build (hcan : (t.uac b).localCancel ≠ .built) (hfree : b ∉ h + d)
    (hflag : (t.uac b).toCancel = false) (built : Bool) : Custody.Once ⟨t.cancelBranch built b, h, d⟩ := by
  have habort : (t.aborted || decide ((t.uac b).localCancel = .built)) = false := by
    rw [decide_eq_false hcan, Bool.or_false]
    exact hx.sane
  have hcancels : b ∉ t.cancels := fun hb => hcan (hx.built b hb)
  cases built with
  | false => exact ⟨hx.busy, hx.nodup, hx.handed, hx.seized, hx.flagged, hx.once, hx.built, hx.selected, habort⟩
  | true =>
    have hself : (t.cancelBranch true b).uac b = { t.uac b with localCancel := .built } := Function.update_self ..
    have hne : ∀ {a}, a ≠ b → (t.cancelBranch true b).uac a = t.uac a := fun ha => Function.update_of_ne ha ..
    refine ⟨fun a ha => ?_, hx.nodup, hx.handed, fun a ha => ?_, fun a ha => ?_, ?_, fun a ha => ?_,
      hx.selected, habort⟩
    · rw [hne (ne_of_mem_of_not_mem ha hfree)]
      exact hx.busy a ha
    · by_cases hab : a = b
      · rw [hab, hself]
        simp
      · rw [hne hab]
        exact hx.seized a ha
    · by_cases hab : a = b
      · rw [hab, hself, hflag] at ha
        cases ha
      · rw [hne hab] at ha ⊢
        exact hx.flagged a ha
    · exact List.nodup_cons.mpr ⟨hcancels, hx.once⟩
    · rcases List.mem_cons.mp ha with rfl | ha
      · rw [hself]
      · rw [hne (ne_of_mem_of_not_mem ha hcancels)]
        exact hx.built a ha

theorem Custody.Once.setFlag (b : Nat) (v : Bool)
    (hv : v → (t.uac b).localCancel = .null ∧ (t.uac b).lastReceived = 0) :
    Custody.Once ⟨t.modify b ({ · with toCancel := v }), h, d⟩ := by
  refine hx.reflag (modify_uac_proj localCancel (by rfl)) rfl fun a ha => ?_
  by_cases hab : a = b
  · subst hab
    rw [modify_uac_self] at ha ⊢
    exact ⟨(hv ha).1, .inl (hv ha).2⟩
  · rw [modify_uac_ne _ hab] at ha ⊢
    exact hx.flagged a ha

theorem Custody.Once.receive {code : Nat} (hflag : (t.uac b).toCancel → 200 ≤ code) :
    Custody.Once ⟨t.receive b code, h, d⟩ := by
  refine hx.reflag (modify_uac_proj localCancel (by rfl)) rfl fun a ha => ?_
  rw [Trans.receive] at ha ⊢
  by_cases hab : a = b
  · subst hab
    rw [modify_uac_self] at ha ⊢
    exact ⟨(hx.flagged a ha).1, .inr (hflag ha)⟩
  · rw [modify_uac_ne _ hab] at ha ⊢
    exact hx.flagged a ha

end

theorem unflag_cancelBranch (t : Trans) (b : Nat) (built : Bool) :
    (t.cancelBranch built b).modify b ({ · with toCancel := false }) =
      (t.modify b ({ · with toCancel := false })).cancelBranch built b := by
  cases built with
  | false | true => simp [Trans.cancelBranch, Trans.modify]

theorem Custody.Once.delayed (hx : Custody.Once ⟨t, h, d⟩) (hflag : (t.uac b).toCancel) (status : Nat) (built : Bool) :
    Custody.Once ⟨t.cancelDelayed b status built, h, d⟩ := by
  have hnull : ((t.modify b ({ · with toCancel := false })).uac b).localCancel = .null := by
    rw [modify_uac_self]
    exact (hx.flagged b hflag).1
  unfold Trans.cancelDelayed
  rw [if_pos hflag]
  split
  · rw [unflag_cancelBranch]
    have hx' := hx.setFlag b false (by simp)
    refine hx'.build (by rw [hnull]; simp) (hx'.free hnull).1 ?_ built
    rw [modify_uac_self]
  · exact hx.setFlag b false (by simp)

theorem Custody.Once.hand {bm : List Nat} (hx : Custody.Once ⟨t, ↑(t.bits bm) + h, d⟩) :
    Custody.Once ⟨t.hand bm, h, ↑(t.bits bm) + d⟩ := by
  have hcomm : h + (↑(t.bits bm) + d) = ↑(t.bits bm) + h + d := by rw [← add_assoc, add_comm h]
  refine ⟨fun a ha => hx.busy a (hcomm ▸ ha), ?_, ?_, fun a ha => ?_, hx.flagged, hx.once, hx.built,
    hx.selected, hx.sane⟩
  · rw [hcomm]
    exact hx.nodup
  · show (h + ↑(t.bits bm ++ t.handed.flatten)).Nodup
    rw [← coe_add, ← add_assoc, add_comm h]
    exact hx.handed
  · have ha : a ∈ t.bits bm ++ t.handed.flatten := ha
    rcases List.mem_append.mp ha with ha | ha
    · have hbusy : (t.uac a).localCancel = .busy := hx.busy a (by simp [ha])
      show (t.uac a).localCancel ≠ .null
      rw [hbusy]
      simp
    · exact hx.seized a ha

theorem Custody.Once.cancel (hx : Custody.Once ⟨t, h, b ::ₘ d⟩) (built : Bool) :
    Custody.Once ⟨t.cancelBranch built b, h, d⟩ := by
  have hbusy : (t.uac b).localCancel = .busy := hx.busy b (by simp)
  have hnodup : (b ::ₘ (h + d)).Nodup := by
    rw [← add_cons]
    exact hx.nodup
  refine (hx.mono le_rfl (le_cons_self d b)).build ?_ (nodup_cons.mp hnodup).1 ?_ built
  · rw [hbusy]
    simp
  · by_contra hflag
    cases hbusy.symm.trans (hx.flagged b ((Bool.not_eq_false _).mp hflag)).1

/-- **The invariant**: moves without junk keep every selected branch in one hand. -/
theorem Move.once (hm : Move False c x y) (hx : x.Once) : y.Once := by
  cases hm with
  | select hnull hlo hhi => exact hx.select hnull hlo hhi
  | flag hnull hlast => exact hx.setFlag _ true fun _ => ⟨hnull, hlast⟩
  | delayed status built hflag => exact hx.delayed hflag status built
  | junk b hj => exact hj.elim
  | @drop t h d b => exact hx.mono (le_cons_self h b) le_rfl
  | @take t h d b =>
    have hsum : h + b ::ₘ d = b ::ₘ h + d := by rw [add_cons, cons_add]
    refine ⟨fun a ha => hx.busy a (hsum ▸ ha), ?_, (hx.mono (le_cons_self h b) le_rfl).handed, hx.seized, hx.flagged,
      hx.once, hx.built, hx.selected, hx.sane⟩
    show (h + b ::ₘ d).Nodup
    rw [hsum]
    exact hx.nodup
  | hand bm => exact hx.hand
  | cancel b built => exact hx.cancel built
  | extend he =>
    have hlog := congrArg Trans.cancelled he.core
    have huac := fun b => congrArg cancelling (he.uac b)
    exact hx.congr huac hlog
  | receive _ _ hflag => exact hx.receive hflag
  | replied | timer | setReply => exact hx.congr (update_proj cancelling (by rfl)) rfl
  | cleanup | release => exact hx.congr (cleanupUacTimers_uac_proj cancelling fun _ _ => rfl) rfl
  | _ => exact hx.congr (fun _ => rfl) rfl

variable {w w₀ w' : World} {ev : Event} {events : List Event}

theorem World.Init.once (h : w.Init) : Custody.Once ⟨w.trans, 0, dueOf w.pending⟩ := by
  obtain ⟨_, _, _, _, rfl⟩ := h
  exact ⟨by simp [dueOf], by simp [dueOf], by simp, by simp, by simp, by simp, by simp, by simp, rfl⟩

/-- Every fine event keeps the invariant. -/
theorem World.step_once (hsane : w.Sane) (hfine : w.Fine ev) (h : w.step ev = some w')
    (hw : Custody.Once ⟨w.trans, 0, dueOf w.pending⟩) : Custody.Once ⟨w'.trans, 0, dueOf w'.pending⟩ := by
  have hm := World.step_moves hsane h
  rw [show (¬w.Fine ev) = False from eq_false (not_not.mpr hfine)] at hm
  exact hm.invariant (fun _ _ hx hm => hm.once hx) hw

theorem Custody.Once.cancelOnce (hx : x.Once) : x.trans.CancelOnce := by
  refine ⟨hx.once, ?_, hx.selected, hx.sane⟩
  have hflat : x.trans.handed.flatten.Nodup :=
    coe_nodup.mp (nodup_of_le (le_add_left _ _) hx.handed)
  exact (List.nodup_flatten.mp hflat).2

/-- **One CANCEL**: in every run of fine events, at most one CANCEL is built for a branch, the bitmaps given to
`cancel_uacs` are disjoint, no branch with a final reply is selected, and the abort in `cancel_branch` is not
reached. -/
theorem cancel_once (h₀ : w₀.Init) (hexec : exec World.step w₀ events = some w)
    (hfine : Meets World.step World.Fine w₀ events) : w.trans.CancelOnce := by
  have hinv := exec_invariant_of_meets (I := fun w => w.Sane ∧ Custody.Once ⟨w.trans, 0, dueOf w.pending⟩)
    (fun w ev w' hw hfine hstep => ⟨World.step_sane hw.1 hstep, World.step_once hw.1 hfine hstep hw.2⟩) hexec hfine
    ⟨h₀.sane, h₀.once⟩
  exact hinv.2.cancelOnce

/-- Two branches ring, one answers: the other one is cancelled, once. -/
theorem cancel_once_forked : ∃ w : World, w.trans.cancels = [0] ∧ w.trans.CancelOnce := by
  let w₀ : World := ⟨{ isInvite := true }, []⟩
  let events : List Event := [.relay [.smooth, .smooth], .received 0 180 .smooth, .received 1 180 .smooth,
    .received 1 200 .smooth, .proceed 0 true false false [] .smooth]
  obtain ⟨w, hexec, hcancels⟩ : ∃ w, exec World.step w₀ events = some w ∧ w.trans.cancels = [0] :=
    Lib.exists_of_any (by decide +kernel)
  have hfine : Trans.RelayEnv.smooth.Fine := ⟨⟨by simp [Trans.PickEnv.smooth, Trans.RelayEnv.smooth],
    by simp [Trans.PickEnv.smooth, Trans.RelayEnv.smooth]⟩, .inl rfl⟩
  have hmeets : Meets World.step World.Fine w₀ events :=
    ⟨.inl rfl, fun _ _ => ⟨hfine, fun _ _ => ⟨hfine, fun _ _ => ⟨hfine, fun _ _ => ⟨fun _ _ => ⟨hfine, .inl rfl⟩,
      fun _ _ => trivial⟩⟩⟩⟩⟩
  exact ⟨w, hcancels, cancel_once ⟨true, false, false, false, rfl⟩ hexec hmeets⟩

/-- Without memory for its replies, `relay_reply` cancels the branch of a timeout, and so does `fake_reply`. -/
theorem cancel_twice : ∃ w : World, w.Reachable ∧ w.trans.cancels = [0, 0] ∧ w.trans.aborted ∧ ¬w.trans.CancelOnce := by
  let noMem : Trans.RelayEnv :=
    { Trans.RelayEnv.smooth with built := false, error := { ReplyEnv.smooth with built := false } }
  let events : List Event := [.relay [.smooth], .received 0 180 .smooth, .frSplit 0, .frFire 0,
    .frHandle 0 true false noMem, .proceed 0 true false false [] .smooth, .proceed 0 true false false [] .smooth]
  obtain ⟨w, hr, hcancels, haborted⟩ : ∃ w : World, w.Reachable ∧ w.trans.cancels = [0, 0] ∧ w.trans.aborted :=
    World.exists_invite events (by decide +kernel)
  refine ⟨w, hr, hcancels, haborted, fun hone => ?_⟩
  exact absurd hone.1 (by simp [hcancels])

/-! ## Selections -/

/-- Each branch was selected for a CANCEL once at most, with a provisional reply, and its slot stays taken. -/
structure Trans.Selections (t : Trans) : Prop where
  once : (t.selected.map Prod.fst).Nodup
  provisional : ∀ s ∈ t.selected, 100 ≤ s.2 ∧ s.2 < 200
  taken : ∀ s ∈ t.selected, (t.uac s.1).localCancel ≠ .null

/-- Writing a slot does not empty one. -/
theorem update_taken {uac : Nat → UaClient} {v : UaClient} (hv : v.localCancel = (uac b).localCancel ∨
    v.localCancel ≠ .null)
    (a : Nat) (ha : (uac a).localCancel ≠ .null) : (Function.update uac b v a).localCancel ≠ .null := by
  by_cases hab : a = b
  · subst hab
    rw [Function.update_self]
    exact hv.elim (fun he => he ▸ ha) id
  · rwa [Function.update_of_ne hab]

theorem cancelBranch_taken (built : Bool) (a : Nat) (ha : (t.uac a).localCancel ≠ .null) :
    ((t.cancelBranch built b).uac a).localCancel ≠ .null := by
  unfold Trans.cancelBranch
  split
  · exact update_taken (.inr (by simp)) a ha
  · exact ha

theorem cancelDelayed_taken (status : Nat) (built : Bool) (a : Nat) (ha : (t.uac a).localCancel ≠ .null) :
    ((t.cancelDelayed b status built).uac a).localCancel ≠ .null := by
  unfold Trans.cancelDelayed
  split
  · rw [modify_uac_proj UaClient.localCancel (by rfl)]
    split
    · exact cancelBranch_taken built a ha
    · exact ha
  · exact ha

theorem Move.selections {junk : Prop} (hm : Move junk c x y) (hx : x.trans.Selections) : y.trans.Selections := by
  -- all moves but one leave the selections alone, and no slot becomes empty
  have hkeep : y.trans.selected = x.trans.selected → (∀ a, (x.trans.uac a).localCancel ≠ .null →
      (y.trans.uac a).localCancel ≠ .null) → y.trans.Selections := by
    intro hsel hslot
    refine ⟨hsel ▸ hx.once, hsel ▸ hx.provisional, fun s hs => hslot s.1 (hx.taken s ?_)⟩
    rwa [← hsel]
  cases hm with
  | @select t h d b hnull hlo hhi =>
    have hnew : b ∉ t.selected.map Prod.fst := by
      intro hmem
      obtain ⟨s, hs, rfl⟩ := List.mem_map.mp hmem
      exact hx.taken s hs hnull
    refine ⟨List.nodup_cons.mpr ⟨hnew, hx.once⟩, List.forall_mem_cons.mpr ⟨⟨hlo, hhi⟩, hx.provisional⟩, ?_⟩
    refine List.forall_mem_cons.mpr ⟨?_, fun s hs => update_taken (.inr (by simp)) s.1 (hx.taken s hs)⟩
    show (Function.update t.uac b _ b).localCancel ≠ .null
    simp
  | delayed status built =>
    obtain ⟨_, _, _, heq⟩ := cancelDelayed_eq status built
    exact hkeep (by rw [heq]) (cancelDelayed_taken status built)
  | cancel b built =>
    obtain ⟨_, _, _, heq⟩ := cancelBranch_eq built
    exact hkeep (by rw [heq]) (cancelBranch_taken built)
  | extend he =>
    have hsel := congrArg Trans.selected he.core
    refine hkeep hsel fun a ha => ?_
    have hslot := congrArg UaClient.localCancel (he.uac a)
    exact fun hn => ha (hslot.symm.trans hn)
  | @cleanup t | @release t =>
    refine hkeep rfl fun a ha => ?_
    have hslot := cleanupUacTimers_uac_proj (t := t) UaClient.localCancel (fun _ _ => rfl) a
    exact fun hn => ha (hslot.symm.trans hn)
  | replied | flag | timer | receive | setReply => exact hkeep rfl (update_taken (.inl rfl))
  | _ => exact hkeep rfl fun _ => id

end OpenSer.Tm
