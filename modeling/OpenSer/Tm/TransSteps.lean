import OpenSer.Tm.TransMoves

/-!
# Events are sequences of moves

* `World.branchOf`: the branch that an event is about.
* `World.Fine`: no bitmap of the event holds branches that nobody selected.
* `World.step_moves`: an event is a sequence of moves, without junk if it is fine.
* `World.Reachable.induct`: what events preserve holds in all reachable states.
-/

namespace OpenSer.Tm

open Option List
open Lib (exec_invariant)
open OpenSer.Tm.Trans World UaClient

variable {junk : Prop} {c : Option (Nat × Nat)} {t : Trans} {h d : Multiset Nat} {b code : Nat} {reply : UacReply}

/-! ## The callers of `relay_reply` -/

/-- How `relay_reply` ends, whatever bitmap its caller gives to it. -/
theorem relayReply_cases (t : Trans) (reply : UacReply) (b code : Nat) (env : Trans.RelayEnv) :
    let dec := t.tShouldRelayResponse code b reply env.pick
    (∃ t' rps, rps ≠ .error ∧ ∀ bm, t.relayReply reply b code bm env = ⟨t', rps, dec.cancel ++ bm, []⟩) ∨
      (∀ bm, t.relayReply reply b code bm env = dec.trans.relayError (dec.cancel ++ bm) env) ∨
      ∀ bm, t.relayReply reply b code bm env = ⟨{ dec.trans with crashed := true }, .error, dec.cancel ++ bm, []⟩ := by
  obtain ⟨hrps, -, -⟩ := decision_cases t code b reply env.pick
  unfold relayReply
  generalize t.tShouldRelayResponse code b reply env.pick = dec at hrps
  unfold relayDecision
  dsimp only
  by_cases hs : dec.store
  · by_cases hc : reply ≠ .faked ∧ ¬env.cloned
    · exact .inr (.inl fun _ => by rw [if_pos hs, if_pos hc])
    · exact .inl ⟨dec.trans.setReply b reply, dec.rps, hrps, fun _ => by rw [if_pos hs, if_neg hc]⟩
  · cases dec.relay with
    | none => exact .inl ⟨dec.trans.finish dec.rps, dec.rps, hrps, fun _ => by rw [if_neg hs]⟩
    | some p =>
      unfold relayBranch
      dsimp only
      cases dec.trans.relayedCode reply b code p with
      | none => exact .inr (.inr fun _ => by rw [if_neg hs])
      | some relayed =>
        by_cases hb : ¬env.built ∨ ¬env.shm
        · exact .inr (.inl fun _ => by rw [if_neg hs]; exact if_pos hb)
        · exact .inl ⟨_, dec.rps, hrps, fun _ => by rw [if_neg hs]; exact if_neg hb⟩

variable {bm : List Nat} {env : Trans.RelayEnv}

/-- Without an error the bitmap of the caller only grows, plays no role, and leaves no tasks. -/
theorem relayReply_ok (h : (t.relayReply reply b code bm env).rps ≠ .error) :
    (t.relayReply reply b code bm env).tasks = [] ∧
      (t.relayReply reply b code bm env).bm = (t.tShouldRelayResponse code b reply env.pick).cancel ++ bm ∧
      (t.relayReply reply b code [] env).trans = (t.relayReply reply b code bm env).trans ∧
      (t.relayReply reply b code [] env).tasks = [] := by
  rcases relayReply_cases t reply b code env with ⟨t', rps, -, heq⟩ | heq | heq
  · rw [heq bm, heq []]
    exact ⟨rfl, rfl, rfl, rfl⟩
  · rw [heq bm] at h
    exact absurd relayError_rps h
  · rw [heq bm] at h
    exact absurd rfl h

/-- What is decided about a reply can be done: a message that is to be stored is cloned, and one that is to be relayed
is there and can be built. -/
def Trans.CanRelay (t : Trans) (reply : UacReply) (b code : Nat) (env : Trans.RelayEnv) : Prop :=
  let dec := t.tShouldRelayResponse code b reply env.pick
  if dec.store then reply = .faked ∨ env.cloned
  else ∀ p, dec.relay = some p → dec.trans.relayedCode reply b code p ≠ none ∧ env.built ∧ env.shm

/-- **`relay_reply` fails** only when what is decided cannot be done. -/
theorem relayReply_ne_error_iff : (t.relayReply reply b code bm env).rps ≠ .error ↔ t.CanRelay reply b code env := by
  obtain ⟨hrps, -, -⟩ := decision_cases t code b reply env.pick
  unfold relayReply CanRelay
  generalize t.tShouldRelayResponse code b reply env.pick = dec at hrps
  unfold relayDecision
  dsimp only
  by_cases hs : dec.store
  · rw [if_pos hs, if_pos hs]
    by_cases hc : reply ≠ .faked ∧ ¬env.cloned
    · rw [if_pos hc]
      exact iff_of_false (not_not.mpr relayError_rps) (by tauto)
    · rw [if_neg hc]
      exact iff_of_true hrps (by tauto)
  rw [if_neg hs, if_neg hs]
  cases hrelay : dec.relay with
  | none => exact iff_of_true hrps nofun
  | some p =>
    unfold relayBranch
    dsimp only
    cases hcode : dec.trans.relayedCode reply b code p with
    | none => exact iff_of_false (not_not.mpr rfl) fun h => (h p rfl).1 hcode
    | some relayed =>
      dsimp only
      by_cases hb : ¬env.built ∨ ¬env.shm
      · rw [if_pos hb]
        exact iff_of_false (not_not.mpr relayError_rps) fun h => hb.elim (· (h p rfl).2.1) (· (h p rfl).2.2)
      · rw [if_neg hb]
        refine iff_of_true hrps fun q hq => ?_
        cases hq
        exact ⟨by rw [hcode]; nofun, by tauto⟩

/-- `fake_reply` does not run into an error with a branch that it cancels itself. -/
def Trans.FakeReplyOk (t : Trans) (b code : Nat) (env : Trans.RelayEnv) : Prop :=
  t.isInvite → (t.shouldCancelBranch b).2 → (t.shouldCancelBranch b).1.CanRelay .faked b code env

theorem moves_fakeReply (hj : env.Fine ∧ t.FakeReplyOk b code env ∨ junk)
    (hb : b < t.nrOfOutgoings) (hcode : 200 ≤ code) :
    Moves junk (some (b, code)) ⟨t, 0, d⟩ ⟨(t.fakeReply b code env).1, 0, dueOf (t.fakeReply b code env).2 + d⟩ := by
  have hempty : ∀ {t : Trans}, b < t.nrOfOutgoings → Moves junk (some (b, code)) ⟨t, 0, d⟩
      ⟨(t.relayReply .faked b code [] env).trans, 0,
        dueOf ((t.relayReply .faked b code [] env).tasks ++ [].map .cancel) + d⟩ := by
    intro t hb
    rw [map_nil, append_nil]
    exact (moves_relayReply_alone (hj.imp_left And.left) hb (fun _ => hcode) (by simp)).trans (moves_drop_all _)
  unfold fakeReply
  by_cases hinv : t.isInvite
  · have hsel : Moves junk (some (b, code)) ⟨t, 0, d⟩ _ := moves_shouldCancelBranch b
    have hok : (env.Fine ∧ t.FakeReplyOk b code env → (t.shouldCancelBranch b).2 →
      ((t.shouldCancelBranch b).1.relayReply .faked b code [b] env).rps ≠ .error) :=
        fun h hsel => relayReply_ne_error_iff.mpr (h.2 hinv hsel)
    have hb₁ : b < (t.shouldCancelBranch b).1.nrOfOutgoings := by
      obtain ⟨uac, selected, heq⟩ := shouldCancelBranch_eq (t := t) b
      rw [heq]
      exact hb
    simp only [hinv, if_true]
    generalize t.shouldCancelBranch b = r at hsel hok hb₁ ⊢
    obtain ⟨t₁, doCancel⟩ := r
    refine hsel.trans ?_
    cases doCancel with
    | false => exact hempty hb₁
    | true =>
      simp only [if_true, add_zero]
      have hfine : env.Fine ∨ junk := hj.imp_left And.left
      refine Moves.trans (@moves_relayReply_alone _ t₁ d b code .faked [b] _ hfine hb₁ (fun _ => hcode) (by simp)) ?_
      rw [dueOf_append, dueOf_cancel]
      have hbm := fun h => (@relayReply_ok t₁ b code .faked [b] env h).2.1
      generalize t₁.relayReply .faked b code [b] env = r at hok hbm ⊢
      rw [add_right_comm, add_comm _ (↑[b] : Multiset Nat)]
      refine Moves.tail ?_ (Move.take b)
      unfold Trans.Relayed.held
      by_cases herr : r.rps = .error
      · -- the CANCEL is sent twice
        rw [if_pos herr]
        exact (Move.junk b (hj.resolve_left fun hfine => hok hfine rfl herr)).moves
      · rw [if_neg herr, hbm herr, ← Multiset.coe_add]
        exact moves_drop _
  · simp only [hinv]
    exact hempty hb

theorem moves_setFr (hb : b < t.nrOfOutgoings) (avp : Bool) : Moves junk c ⟨t, h, d⟩ ⟨t.setFr avp b, h, d⟩ := by
  have htimer : Move junk c ⟨t, h, d⟩ ⟨t.modify b ({ · with frTimer := (t.uac b).frTimer.setTimer }), h, d⟩ :=
    .timer _ (.inl hb) (.inr FrTimer.live_setTimer)
  exact htimer.moves.tail (.flags _ _ _ (t.noisyCtimer || avp) _ _)

theorem moves_resetFr (hb : b < t.nrOfOutgoings) (hcode : 200 ≤ code) :
    Moves junk (some (b, code)) ⟨t, h, d⟩ ⟨t.resetFr b, h, d⟩ :=
  Move.moves (.timer (t.uac b).frTimer.resetTimer (.inl hb) (.inl ⟨code, rfl, hcode⟩))

theorem moves_cancelDelayed (b status : Nat) (built : Bool) :
    Moves junk c ⟨t, h, d⟩ ⟨t.cancelDelayed b status built, h, d⟩ := by
  by_cases hflag : (t.uac b).toCancel
  · exact (Move.delayed status built hflag).moves
  · unfold cancelDelayed
    rw [if_neg hflag]
    exact .refl

theorem dueOf_internal (bs : List Nat) : dueOf (bs.map .internal) = 0 := by
  unfold dueOf
  rw [filterMap_map]
  exact congrArg _ (filterMap_eq_nil_iff.mpr fun _ _ => rfl)

theorem moves_cancelInvite : Moves junk c ⟨t, 0, d⟩ ⟨t.cancelInvite.1, 0, dueOf t.cancelInvite.2 + d⟩ := by
  unfold cancelInvite
  have hflag : Move junk c ⟨t, 0, d⟩ ⟨{ t with wasCancelled := true }, 0, d⟩ :=
    .flags true _ _ _ _ _
  refine hflag.moves.trans (moves_whichCancel.trans ((moves_hand _).trans ?_))
  rw [dueOf_append, dueOf_cancel, dueOf_internal, add_zero]
  exact .refl

theorem moves_internalCancel {late : Bool} (hb : b < t.nrOfOutgoings)
    (hj : env.Fine ∧ (bm = [] ∨ (t.resetFr b).CanRelay .faked b 487 env) ∨ junk) :
    Moves junk (some (b, 487)) ⟨t, 0, d⟩ ⟨(t.internalCancel b late bm env).1, 0,
      dueOf (t.internalCancel b late bm env).2 + d⟩ := by
  have hrelay : ∀ bm : List Nat, Moves junk (some (b, 487)) ⟨t.resetFr b, ↑bm, d⟩
      ⟨((t.resetFr b).relayReply .faked b 487 bm env).trans, 0,
        dueOf ((t.resetFr b).relayReply .faked b 487 bm env).tasks + d⟩ := by
    intro bm
    exact Moves.trans (moves_relayReply_alone (hj.imp_left And.left) hb (by simp) (by simp)) (moves_drop_all _)
  unfold internalCancel
  dsimp only
  split
  case isTrue =>
    refine (moves_resetFr hb (by simp)).trans ?_
    rcases hj with ⟨-, hnil | hok⟩ | hj
    · rw [hnil]
      exact hrelay []
    · obtain ⟨htasks, -, htrans, htasks'⟩ := relayReply_ok (relayReply_ne_error_iff.mpr hok)
      rw [htasks, ← htasks', ← htrans]
      exact hrelay []
    · exact Moves.trans (by simpa using moves_junk (h := 0) hj bm) (hrelay bm)
  case isFalse => simpa [dueOf] using Moves.refl

variable {status last : Nat} {tasks : List Task}

theorem moves_relayReceived {env : Trans.ReceivedEnv} (hf : t.FinalReplies)
    (hb : b < t.nrOfOutgoings) (hflag : (t.uac b).toCancel = false) (hj : env.relay.Fine ∨ junk) :
    Moves junk (some (b, status)) ⟨t, 0, d⟩
      ⟨(t.relayReceived b status last env).1, 0, dueOf (t.relayReceived b status last env).2 + d⟩ := by
  have hrelay := @moves_relayReply_alone junk t d b status (.msg status) [] env.relay hj hb (by simp [hflag]) (by simp)
  have hcompleted : (t.relayReply (.msg status) b status [] env.relay).rps = .completed →
      200 ≤ (t.relayReply (.msg status) b status [] env.relay).trans.status :=
    relayReply_completed hf (by simp)
  have htasks := fun h => (@relayReply_ok t b status (.msg status) [] env.relay h).1
  unfold relayReceived
  generalize t.relayReply (.msg status) b status [] env.relay = r at hrelay hcompleted htasks ⊢
  refine hrelay.trans ?_
  dsimp only
  split
  case h_1 hrps =>
    refine (Move.cleanup (hcompleted hrps)).moves.trans ?_
    have hheld : r.held = ↑r.bm := if_neg (by simp [hrps])
    rw [htasks (by simp [hrps]), hheld]
    split
    · have hm : Moves junk (some (b, status)) ⟨r.trans.cleanupUacTimers, ↑r.bm + 0, d⟩ _ := moves_hand r.bm
      simpa [dueOf] using hm
    · simpa [dueOf] using moves_drop_all _
  case h_2 hrps =>
    have hdue : dueOf (if status < 200 ∧ (env.restartFr ∨ last < status ∧ (180 ≤ status ∨ last = 0)) ∧ t.isInvite
        then [.frInv b] else []) = dueOf r.tasks := by
      rw [htasks (by simp [hrps])]
      split <;> rfl
    rw [hdue]
    exact moves_drop_all _
  case h_3 => exact moves_drop_all _

theorem moves_replyReceived {env : Trans.ReceivedEnv} (hf : t.FinalReplies) (hb : b < t.nrOfOutgoings)
    (hj : env.relay.Fine ∨ junk) :
    Moves junk (some (b, status)) ⟨t, 0, d⟩ ⟨(t.replyReceived b status env).1, 0,
      dueOf (t.replyReceived b status env).2 + d⟩ := by
  have hreset : Moves junk (some (b, status)) ⟨t, 0, d⟩ ⟨if 200 ≤ status then t.resetFr b else t, 0, d⟩ := by
    split
    case isTrue hstatus => exact moves_resetFr hb hstatus
    case isFalse => exact .refl
  have hf₁ : (if 200 ≤ status then t.resetFr b else t).FinalReplies := by
    split
    · intro x s hx
      exact hf x s (hx ▸ (update_proj reply (by rfl) x).symm)
    · exact hf
  have hb₁ : b < (if 200 ≤ status then t.resetFr b else t).nrOfOutgoings := by
    split
    · exact hb
    · exact hb
  unfold replyReceived
  refine hreset.trans ?_
  generalize (if 200 ≤ status then t.resetFr b else t) = t₁ at hf₁ hb₁
  split
  case isTrue => simpa [dueOf] using Moves.refl
  case isFalse =>
    refine (Move.replied b).moves.trans ((moves_cancelDelayed b status env.cancel).trans ?_)
    refine moves_relayReceived (fun x s hx => hf₁ x s (hx ▸ ?_)) (by rw [cancelDelayed_nr]; exact hb₁)
      (cancelDelayed_toCancel _ _) hj
    exact ((cancelDelayed_uac_proj reply (fun _ => rfl) (fun _ => rfl) _ _ x).trans
      (modify_uac_proj reply (by rfl) x)).symm

theorem moves_finalResponseHandler {noisy readOnly : Bool} (hb : b < t.nrOfOutgoings)
    (hj : env.Fine ∧ (t.modify b ({ · with frTimer := .lost })).FakeReplyOk b 408 env ∨ junk) :
    Moves junk (some (b, 408)) ⟨t, 0, d⟩ ⟨(t.finalResponseHandler b noisy readOnly env).1, 0,
      dueOf (t.finalResponseHandler b noisy readOnly env).2 + d⟩ := by
  have htimer : Move junk (some (b, 408)) ⟨t, 0, d⟩ ⟨t.modify b ({ · with frTimer := .lost }), 0, d⟩ :=
    .timer .lost (.inl hb) (.inl ⟨408, rfl, by simp⟩)
  refine htimer.moves.trans ?_
  unfold finalResponseHandler
  dsimp only
  split
  · simpa [dueOf] using Move.wait.moves
  · exact moves_fakeReply hj hb (by simp)

theorem moves_retransmissionFailed {request : Bool} (hb : b < t.nrOfOutgoings)
    (hj : env.Fine ∧ (if request then t.resetFr b else t).FakeReplyOk b 503 env ∨ junk) :
    Moves junk (some (b, 503)) ⟨t, 0, d⟩ ⟨(t.retransmissionFailed b request env).1, 0,
      dueOf (t.retransmissionFailed b request env).2 + d⟩ := by
  have hreset : Moves junk (some (b, 503)) ⟨t, 0, d⟩ ⟨if request then t.resetFr b else t, 0, d⟩ := by
    split
    · exact moves_resetFr hb (by simp)
    · exact .refl
  refine hreset.trans (moves_fakeReply hj ?_ (by simp))
  split
  · exact hb
  · exact hb

theorem moves_tRelayTo {nodnsfo noerr : Bool} {envs : List BranchEnv} {kill : KillEnv} (hj : kill.reply.Fine ∨ junk) :
    Moves junk c ⟨t, 0, d⟩ ⟨(t.tRelayTo nodnsfo noerr envs kill).1, 0,
      dueOf (t.tRelayTo nodnsfo noerr envs kill).2 + d⟩ := by
  have hflag : Move junk c ⟨t, 0, d⟩ ⟨{ t with noDnsFailover := t.noDnsFailover || nodnsfo }, 0, d⟩ :=
    .flags _ _ (t.noDnsFailover || nodnsfo) _ _ _
  refine hflag.moves.trans ((Move.extend (tForwardNonack_spec envs)).moves.trans ?_)
  unfold tRelayTo
  dsimp only
  split
  · simpa [dueOf] using Moves.refl
  · exact moves_tReply hj

/-! ## Events -/

/-- The branch that an event is about, with the code that arrives there. -/
def World.branchOf (w : World) : Event → Option (Nat × Nat)
  | .received b status _ => some (b, status)
  | .frHandle b _ _ _ => some (b, 408)
  | .retransmissionFailed b _ _ => some (b, 503)
  | .proceed i _ _ _ _ _ =>
    match w.pending[i]? with
    | some (.internal b) => some (b, 487)
    | _ => none
  | _ => none

/-- No bitmap of the event holds branches that nobody selected: none is read before it is set, and `fake_reply` does not
run into an error with a branch that it cancels itself. -/
def World.Fine (w : World) : Event → Prop
  | .relayTo _ _ _ kill => kill.reply.Fine
  | .reply _ env => env.Fine
  | .received _ _ env => env.relay.Fine
  | .frHandle b _ _ env => env.Fine ∧ (w.trans.modify b ({ · with frTimer := .lost })).FakeReplyOk b 408 env
  | .retransmissionFailed b request env =>
    env.Fine ∧ (if request then w.trans.resetFr b else w.trans).FakeReplyOk b 503 env
  | .proceed i _ _ _ junk env => ∀ b, w.pending[i]? = some (.internal b) →
    env.Fine ∧ (junk = [] ∨ (w.trans.resetFr b).CanRelay .faked b 487 env)
  | _ => True

theorem dueOf_eraseIdx {i : Nat} {task : Task} (h : tasks[i]? = some task) :
    dueOf tasks = dueOf [task] + dueOf (tasks.eraseIdx i) := by
  obtain ⟨hi, rfl⟩ := List.getElem?_eq_some_iff.mp h
  rw [← dueOf_append]
  exact Multiset.coe_eq_coe.mpr ((getElem_cons_eraseIdx_perm hi).symm.filterMap _)

variable {w w' : World} {ev : Event}

def Task.branch : Task → Option Nat
  | .cancel _ => none
  | .frInv b => some b
  | .internal b => some b

/-- A branch that was not added has no timer, no code and no request. -/
def Trans.Fresh (t : Trans) : Prop :=
  ∀ b, t.nrOfOutgoings ≤ b → (t.uac b).frTimer = .off ∧ (t.uac b).lastReceived = 0 ∧ (t.uac b).buffer = false

/-- What events count on. -/
structure World.Sane (w : World) : Prop where
  replies : w.trans.FinalReplies
  fresh : w.trans.Fresh
  tasks : ∀ task ∈ w.pending, ∀ b, task.branch = some b → b < w.trans.nrOfOutgoings

theorem World.Sane.lt_of_frTimer (hw : w.Sane) {b : Nat} (h : (w.trans.uac b).frTimer ≠ .off) :
    b < w.trans.nrOfOutgoings := by
  by_contra hb
  exact h (hw.fresh b (not_lt.mp hb)).1

/-- **Events are sequences of moves.** -/
theorem World.step_moves (hw : w.Sane) (h : w.step ev = some w') :
    Moves (¬w.Fine ev) (w.branchOf ev) ⟨w.trans, 0, dueOf w.pending⟩ ⟨w'.trans, 0, dueOf w'.pending⟩ := by
  have hfine : w.Fine ev ∨ ¬w.Fine ev := em _
  have hleave : ∀ {r : Trans × List Task} {c : Option (Nat × Nat)}, Moves (¬w.Fine ev) c ⟨w.trans, 0, dueOf w.pending⟩
      ⟨r.1, 0, dueOf r.2 + dueOf w.pending⟩ → Moves (¬w.Fine ev) c ⟨w.trans, 0, dueOf w.pending⟩
      ⟨(w.leave r).trans, 0, dueOf (w.leave r).pending⟩ := by
    intro r c hm
    rw [leave, dueOf_append]
    exact hm
  cases ev with
  | relayTo =>
    cases h
    exact hleave (moves_tRelayTo hfine)
  | reply =>
    cases h
    exact hleave (moves_tReply hfine)
  | addBlindUac frAvp =>
    cases h
    exact (Move.extend (addBlindUac_extended frAvp)).moves
  | onNegative set =>
    cases h
    exact (Move.flags _ _ _ _ set _).moves
  | onFailure =>
    cases h
    exact (Move.flags _ _ _ _ _ true).moves
  | release =>
    cases h
    exact Move.release.moves
  | responseTimeout =>
    cases h
    exact Move.wait.moves
  | received =>
    obtain ⟨hb, h⟩ := ite_none_right_eq_some.mp h
    cases h
    exact hleave (moves_replyReceived hw.replies hb hfine)
  | frSplit b =>
    cases h
    refine Move.moves (.timer (w.trans.uac b).frTimer.split ?_ (.inr FrTimer.live_split))
    by_cases hoff : (w.trans.uac b).frTimer = .off
    · rw [hoff]
      exact .inr rfl
    · exact .inl (hw.lt_of_frTimer hoff)
  | frFire b =>
    obtain ⟨hfr, h⟩ := ite_none_right_eq_some.mp h
    cases h
    exact Move.moves (.timer .fired (.inl (hw.lt_of_frTimer (by simp [hfr]))) (.inr fun _ => rfl))
  | frHandle =>
    obtain ⟨hfr, h⟩ := ite_none_right_eq_some.mp h
    cases h
    exact hleave (moves_finalResponseHandler (hw.lt_of_frTimer (by simp [hfr])) hfine)
  | retransmissionFailed =>
    obtain ⟨hb, h⟩ := ite_none_right_eq_some.mp h
    cases h
    exact hleave (moves_retransmissionFailed hb hfine)
  | cancelInvite =>
    obtain ⟨-, h⟩ := ite_none_right_eq_some.mp h
    cases h
    exact hleave moves_cancelInvite
  | proceed i built frAvp late junk env =>
    rw [step] at h
    split at h
    case h_1 task htask =>
      cases h
      have hbranch : w.branchOf (.proceed i built frAvp late junk env) = match (some task : Option Task) with
          | some (.internal b) => some (b, 487)
          | _ => none := by rw [branchOf, htask]
      rw [dueOf_eraseIdx htask, leave, dueOf_append, hbranch]
      cases task with
      | cancel b =>
        have hdue : dueOf [Task.cancel b] + dueOf (w.pending.eraseIdx i) = b ::ₘ dueOf (w.pending.eraseIdx i) :=
          Multiset.singleton_add _ _
        rw [hdue]
        exact (Move.cancel b built).moves
      | frInv b =>
        exact moves_setFr (hw.tasks _ (mem_of_getElem? htask) b rfl) frAvp
      | internal b =>
        exact moves_internalCancel (hw.tasks _ (mem_of_getElem? htask) b rfl) (hfine.imp_left fun hf => hf b htask)
    case h_2 => cases h

theorem World.Reachable.induct {I : World → Prop} (hinit : ∀ w : World, w.Init → I w)
    (hstep : ∀ w ev w', I w → step w ev = some w' → I w') (h : w.Reachable) : I w := by
  obtain ⟨w₀, events, h₀, hexec⟩ := h
  exact exec_invariant hstep hexec (hinit w₀ h₀)

variable {x y : Custody} {P : Nat → Prop}

theorem Move.reply_cases (hm : Move junk c x y) (b : Nat) :
    (y.trans.uac b).reply = (x.trans.uac b).reply ∨ (∃ code, c = some (b, code)) ∧
      ∀ s, (y.trans.uac b).reply = .msg s → 300 ≤ s := by
  cases hm.effect with
  | quiet _ _ huac => exact .inl (congrArg (·.2.2.2) (huac b))
  | closed _ _ huac => exact .inl (congrArg Prod.snd (huac b))
  | extend he => exact .inl (he.uacReply b)
  | timer _ _ _ ht | receive _ _ _ ht =>
    rw [ht]
    exact .inl (update_proj reply (by rfl) b)
  | @setReply b' code r hc hcode hr ht =>
    rw [ht, Trans.setReply]
    by_cases hb : b = b'
    · subst hb
      rw [modify_uac_self]
      exact .inr ⟨⟨code, hc⟩, hr⟩
    · rw [modify_uac_ne _ hb]
      exact .inl rfl

theorem Trans.Fresh.congr {t' : Trans} (ht : t.Fresh) (hnr : t'.nrOfOutgoings = t.nrOfOutgoings)
    (huac : ∀ b, ((t'.uac b).frTimer, (t'.uac b).lastReceived, (t'.uac b).buffer) =
      ((t.uac b).frTimer, (t.uac b).lastReceived, (t.uac b).buffer)) : t'.Fresh := by
  intro b hb
  obtain ⟨hfr, hlast, hbuf⟩ := ht b (hnr ▸ hb)
  refine ⟨(congrArg Prod.fst (huac b)).trans hfr, (congrArg (·.2.1) (huac b)).trans hlast,
    (congrArg (·.2.2) (huac b)).trans hbuf⟩

theorem Trans.Fresh.modify {f : UaClient → UaClient} (ht : t.Fresh) (hb : b < t.nrOfOutgoings) :
    (t.modify b f).Fresh := by
  intro a ha
  have hne : a ≠ b := fun hab => absurd hb (not_lt.mpr (hab ▸ ha))
  rw [modify_uac_ne f hne]
  exact ht a ha

theorem Move.fresh (hm : Move junk c x y) (hx : x.trans.Fresh) : y.trans.Fresh := by
  cases hm.effect with
  | quiet _ hshape huac =>
    exact hx.congr (congrArg Prod.fst hshape) fun b => congrArg (fun k => (k.2.2.1, k.2.1, k.1)) (huac b)
  | closed _ hshape _ hout =>
    intro b hb
    have hnr : y.trans.nrOfOutgoings = x.trans.nrOfOutgoings := congrArg Prod.fst hshape
    rw [hout b (hnr ▸ hb)]
    exact hx b (hnr ▸ hb)
  | extend he =>
    intro b hb
    obtain ⟨hfr₀, hlast₀, hbuf₀⟩ := hx b (he.le.trans hb)
    exact ⟨(he.fresh b hb).2.trans hfr₀, (he.lastReceived b).trans hlast₀, (he.fresh b hb).1.trans hbuf₀⟩
  | timer tl hb _ ht =>
    rw [ht]
    rcases hb with hb | rfl
    · exact hx.modify hb
    · exact hx.congr rfl (update_proj (fun u => (u.frTimer, u.lastReceived, u.buffer)) (by rfl))
  | receive hb _ _ ht =>
    rw [ht]
    exact hx.modify hb
  | setReply _ _ _ ht =>
    rw [ht]
    exact hx.congr rfl (update_proj (fun u => (u.frTimer, u.lastReceived, u.buffer)) (by rfl))

theorem Move.nr_le (hm : Move junk c x y) : x.trans.nrOfOutgoings ≤ y.trans.nrOfOutgoings := by
  cases hm with
  | delayed => exact (cancelDelayed_nr _ _).ge
  | cancel b built => exact (cancelBranch_nr built).ge
  | extend he => exact he.le
  | _ => exact le_rfl

/-- No event takes a branch away. -/
theorem World.step_nr_le (hw : w.Sane) (h : w.step ev = some w') : w.trans.nrOfOutgoings ≤ w'.trans.nrOfOutgoings :=
  (step_moves hw h).invariant (I := fun x => w.trans.nrOfOutgoings ≤ x.trans.nrOfOutgoings)
    (fun _ _ hx hm => hx.trans hm.nr_le) le_rfl

/-! ## Tasks -/

theorem branch_cancel {bs : List Nat} : ∀ task ∈ bs.map Task.cancel, task.branch = none := by
  intro task htask
  obtain ⟨b, -, rfl⟩ := mem_map.mp htask
  rfl

theorem branch_relayReply :
    ∀ task ∈ (t.relayReply reply b code bm env).tasks, task.branch = none := by
  rcases relayReply_cases t reply b code env with ⟨t', rps, -, heq⟩ | heq | heq
  · simp [heq bm]
  · rw [heq bm]
    unfold relayError
    dsimp only
    split
    · exact branch_cancel
    · simp
  · simp [heq bm]

theorem branch_fakeReply : ∀ task ∈ (t.fakeReply b code env).2, task.branch = none :=
  forall_mem_append.mpr ⟨branch_relayReply, branch_cancel⟩

/-- Every branch that the tasks count on satisfies `P`. -/
def CountOn (P : Nat → Prop) (tasks : List Task) : Prop := ∀ task ∈ tasks, ∀ a, task.branch = some a → P a

theorem CountOn.of_none (h : ∀ task ∈ tasks, task.branch = none) : CountOn P tasks :=
  fun task htask a ha => by cases (h task htask).symm.trans ha

theorem CountOn.append {tasks' : List Task} (h : CountOn P tasks) (h' : CountOn P tasks') :
    CountOn P (tasks ++ tasks') := forall_mem_append.mpr ⟨h, h'⟩

theorem branch_relayReceived {env : Trans.ReceivedEnv} :
    CountOn (· = b) (t.relayReceived b status last env).2 := by
  unfold relayReceived
  dsimp only
  split
  · split
    · exact .of_none branch_cancel
    · exact .of_none (by simp)
  · split
    · intro task htask a ha
      obtain rfl := mem_singleton.mp htask
      exact (some.inj ha).symm
    · exact .of_none (by simp)
  · exact .of_none branch_relayReply

theorem branch_replyReceived {env : Trans.ReceivedEnv} : CountOn (· = b) (t.replyReceived b status env).2 := by
  unfold replyReceived
  dsimp only
  split
  · exact .of_none (by simp)
  · exact branch_relayReceived

theorem branch_cancelInvite : CountOn (· < t.cancelInvite.1.nrOfOutgoings) t.cancelInvite.2 := by
  refine CountOn.append (.of_none branch_cancel) fun task htask a ha => ?_
  obtain ⟨b, hb, rfl⟩ := mem_map.mp htask
  obtain rfl : b = a := some.inj ha
  exact (mem_branches.mp hb).2

/-- The tasks that are left are about branches that there are. -/
theorem World.step_tasks (hw : w.Sane) (h : w.step ev = some w') : CountOn (· < w'.trans.nrOfOutgoings) w'.pending := by
  have hle := step_nr_le hw h
  have hold : CountOn (· < w'.trans.nrOfOutgoings) w.pending :=
    fun task htask a ha => (hw.tasks task htask a ha).trans_le hle
  have hleave : ∀ {r : Trans × List Task}, CountOn (· < w'.trans.nrOfOutgoings) r.2 →
      CountOn (· < w'.trans.nrOfOutgoings) (w.leave r).pending := fun hr => hr.append hold
  cases ev with
  | relayTo =>
    cases h
    refine hleave (.of_none ?_)
    unfold tRelayTo
    dsimp only
    split
    · simp
    · exact branch_cancel
  | reply =>
    cases h
    exact hleave (.of_none branch_cancel)
  | received =>
    obtain ⟨hb, h⟩ := ite_none_right_eq_some.mp h
    cases h
    exact hleave fun task htask a ha => branch_replyReceived task htask a ha ▸ hb.trans_le hle
  | frFire b =>
    obtain ⟨-, h⟩ := ite_none_right_eq_some.mp h
    cases h
    exact hold
  | frHandle =>
    obtain ⟨-, h⟩ := ite_none_right_eq_some.mp h
    cases h
    refine hleave (.of_none ?_)
    unfold finalResponseHandler
    dsimp only
    split
    · simp
    · exact branch_fakeReply
  | retransmissionFailed =>
    obtain ⟨-, h⟩ := ite_none_right_eq_some.mp h
    cases h
    exact hleave (.of_none branch_fakeReply)
  | cancelInvite =>
    obtain ⟨-, h⟩ := ite_none_right_eq_some.mp h
    cases h
    exact hleave branch_cancelInvite
  | proceed =>
    rw [step] at h
    split at h
    case h_1 task htask =>
      cases h
      refine CountOn.append (.of_none ?_) fun task' hrest => hold task' (mem_of_mem_eraseIdx hrest)
      cases task with
      | cancel b | frInv b => simp [doTask]
      | internal b =>
        rw [doTask, internalCancel]
        split
        · exact branch_relayReply
        · simp
    case h_2 => cases h
  | _ =>
    cases h
    exact hold

/-! ## Reachable states -/

/-- Every event keeps the world sane. -/
theorem World.step_sane (hw : w.Sane) (h : w.step ev = some w') : w'.Sane := by
  have hm := step_moves hw h
  refine ⟨?_, hm.invariant (fun _ _ hx hm => hm.fresh hx) hw.fresh, step_tasks hw h⟩
  refine hm.invariant (I := fun x => x.trans.FinalReplies) (fun x y hx hmove b s hs => ?_) hw.replies
  rcases hmove.reply_cases b with heq | ⟨-, hfinal⟩
  · exact hx b s (heq ▸ hs)
  · exact hfinal s hs

theorem World.Init.sane (h : w.Init) : w.Sane := by
  obtain ⟨_, _, _, _, rfl⟩ := h
  exact ⟨by simp [Trans.FinalReplies], fun _ _ => ⟨rfl, rfl, rfl⟩, by simp⟩

theorem World.Reachable.sane (h : w.Reachable) : w.Sane :=
  h.induct (fun _ => World.Init.sane) fun _ _ _ hw hstep => step_sane hw hstep

/-- **Invariants**: what holds of new transactions and what all moves preserve holds in every reachable state. -/
theorem World.Reachable.invariant {I : Trans → Prop} (h : w.Reachable) (hinit : ∀ w : World, w.Init → I w.trans)
    (hmove : ∀ {junk : Prop} {c : Option (Nat × Nat)} {x y : Custody}, Move junk c x y → I x.trans → I y.trans) :
    I w.trans := by
  have hinv : w.Sane ∧ I w.trans := by
    refine h.induct (I := fun w => w.Sane ∧ I w.trans) (fun w h₀ => ⟨h₀.sane, hinit w h₀⟩)
      fun w ev w' hw hstep => ⟨step_sane hw.1 hstep, ?_⟩
    exact (step_moves hw.1 hstep).invariant (I := fun x => I x.trans) (fun _ _ hx hm => hmove hm hx) hw.2
  exact hinv.2

end OpenSer.Tm
