import OpenSer.Tm.Orphans

/-!
# The last final reply

When no branch with a request is left below 200, `t_should_relay_response` is to complete the transaction with a branch
that holds a final reply.

* `Trans.Kept`: a branch with a request and a final code holds its reply, as long as the transaction is open.
* `relayReply_kept`, `World.Reachable.kept`: `relay_reply` leaves it so, and so does every run.
* `completes_iff`: the transaction completes iff the code is a 6xx or some branch has a request.
* `blind_timeout_discarded`: the timeout of a blind branch is discarded.
* `replies_stored`: the stored replies in every reachable state.
-/

namespace OpenSer.Tm

open Option
open Lib (exec)
open OpenSer.Tm.Trans World UaClient

/-- A branch of an open transaction that has a request and a final code holds a reply. -/
def Trans.Kept (t : Trans) (b : Nat) : Prop :=
  t.Open → b ∈ t.branches → (t.uac b).buffer → 200 ≤ (t.uac b).lastReceived → (t.uac b).reply ≠ .null

variable {junk : Prop} {c : Option (Nat × Nat)} {x y : Custody} {t t' : Trans} {b code : Nat} {reply : UacReply}

/-! ## Transactions that are over -/

theorem Move.closed (hm : Move junk c x y) (hx : ¬x.trans.Open) : ¬y.trans.Open := by
  rintro ⟨hs, hw⟩
  refine hx ⟨?_, ?_⟩
  · by_contra hlt
    exact absurd (hm.status_final (not_lt.mp hlt)) (not_le.mpr hs)
  · by_contra hwait
    have := hm.onWait ((Bool.not_eq_false _).mp hwait)
    rw [hw] at this
    cases this

theorem Moves.closed (hm : Moves junk c x y) (hx : ¬x.trans.Open) : ¬y.trans.Open :=
  hm.invariant (I := fun x => ¬x.trans.Open) (fun _ _ hx hm => hm.closed hx) hx

theorem Trans.Kept.of_closed (h : ¬t.Open) : t.Kept b := fun ho => absurd ho h

theorem replyLight_closed {env : ReplyEnv} (hcode : 200 ≤ code) : ¬(t.replyLight code env).1.Open := by
  unfold replyLight
  generalize (if t.isInvite then t.whichCancel else (t, [])) = r
  dsimp only
  split
  · exact closed_of_onWait rfl
  · split
    · exact closed_of_onWait rfl
    · split
      · exact closed_of_onWait rfl
      · split
        · have hm : ∀ t : Trans, Moves True none ⟨t, 0, 0⟩ ⟨t.setFinalTimer, 0, 0⟩ := fun _ => moves_setFinalTimer
          exact (hm _).closed (closed_of_status hcode)
        · exact closed_of_status hcode

variable {bm : List Nat} {env : Trans.RelayEnv}

theorem relayError_closed : ¬(t.relayError bm env).trans.Open := by
  have hcancel : Moves True none ⟨(t.replyLight 500 env.error).1, ↑(t.replyLight 500 env.error).2 + 0, 0⟩
      ⟨t.tReplyUnsafe 500 env.error, 0, 0⟩ := moves_cancelUacs _ _
  have hreply : ¬(t.tReplyUnsafe 500 env.error).Open := hcancel.closed (replyLight_closed (by simp))
  unfold relayError
  dsimp only
  split
  · exact hreply
  · exact hreply

variable {rps : Rps}

theorem finish_closed (h : ¬t.Open) : ¬(t.finish rps).Open := by
  have hm : Moves True none ⟨t, 0, 0⟩ ⟨t.finish rps, 0, 0⟩ := moves_finish
  exact hm.closed h

/-! ## Replies are kept -/

/-- A final reply that is relayed ends the transaction, and so does the error path. -/
theorem relayBranch_closed {r : Nat} (hcode : ∃ relayed, t.relayedCode reply b code r = some relayed ∧ 200 ≤ relayed) :
    ¬(t.relayBranch rps reply b code r bm env).trans.Open := by
  obtain ⟨relayed, hrelayed, hfinal⟩ := hcode
  unfold relayBranch
  rw [hrelayed]
  dsimp only
  split
  · exact relayError_closed
  · exact finish_closed (t := { t with status := relayed, localReply := false }) (closed_of_status hfinal)

theorem setReply_uac_self : ((t.setReply b reply).uac b).reply = reply :=
  congrArg UaClient.reply (modify_uac_self (t := t) (b := b) ({ · with reply := reply }))

theorem relayDecision_store_kept {cancel : List Nat} {relay : Option Nat}
    (hnull : reply ≠ .null) : (relayDecision ⟨t, rps, true, relay, cancel⟩ reply b code bm env).trans.Kept b := by
  unfold relayDecision
  simp only [if_true]
  split
  · exact .of_closed relayError_closed
  · intro _ _ _ _
    rw [setReply_uac_self]
    exact hnull

theorem relayedCode_own (hnull : reply ≠ .null) (hr : reply.Carries code) :
    t.relayedCode reply b code b = some code := by
  unfold relayedCode
  rw [if_pos rfl]
  cases reply with
  | null => exact absurd rfl hnull
  | faked => simp
  | msg s => rw [hr s rfl]

variable {p : Nat}

/-- A picked branch has a final code to relay iff it is the current one or holds a reply. -/
theorem relayedCode_final_iff (hf : t.FinalReplies) (hcode : 300 ≤ code) (hnull : reply ≠ .null)
    (hr : reply.Carries code) (hp : p ≠ b → 200 ≤ (t.uac p).lastReceived) :
    (∃ relayed, t.relayedCode reply b code p = some relayed ∧ 200 ≤ relayed) ↔ p = b ∨ (t.uac p).reply ≠ .null := by
  by_cases hpb : p = b
  · subst hpb
    exact iff_of_true ⟨code, relayedCode_own hnull hr, by omega⟩ (.inl rfl)
  · have hnone : (∃ relayed, t.relayedCode reply b code p = some relayed) ↔ (t.uac p).reply ≠ .null := by
      unfold relayedCode
      rw [if_neg (Ne.symm hpb)]
      cases (t.uac p).reply with
      | null | faked | msg s => simp
    rw [or_iff_right hpb, ← hnone]
    refine exists_congr fun relayed => and_iff_left_of_imp ?_
    exact relayedCode_picked hf hcode hr fun _ => hp hpb

theorem relayDecision_picked_kept {bm' : List Nat} (hf : t.FinalReplies)
    (hcode : 300 ≤ code) (hnull : reply ≠ .null) (hr : reply.Carries code)
    (hp : t.Open → p = b ∨ 200 ≤ (t.uac p).lastReceived ∧ (t.uac p).reply ≠ .null) :
    (relayDecision (t.picked b p bm env.pick) reply b code bm' env).trans.Kept b := by
  have hlogic : Moves True none ⟨t, 0, 0⟩ ⟨(t.failureLogic p env.pick).1, 0, 0⟩ := moves_failureLogic p (.inr trivial)
  have hcases := picked_cases t b p bm env.pick
  generalize t.picked b p bm env.pick = dec at hcases ⊢
  cases hcases with
  | answered hs => exact .of_closed (finish_closed (closed_of_status hs))
  | extended => exact relayDecision_store_kept hnull
  | relayed =>
    by_cases ho : t.Open
    · refine .of_closed (relayBranch_closed ?_)
      rw [relayedCode_failureLogic, relayedCode_final_iff hf hcode hnull hr fun hpb => ((hp ho).resolve_left hpb).1]
      exact (hp ho).imp_right And.right
    · -- nothing opens the transaction again
      have hm : ∀ {t : Trans}, t.status < 200 → Moves True none ⟨t, ↑bm' + 0, 0⟩
          ((t.relayBranch .completed reply b code p bm' env).custody 0 0) :=
        fun hs => moves_relayBranch (.inr trivial) hr (.inl hs) (by simp)
      exact .of_closed ((hm ‹_›).closed (hlogic.closed ho))

theorem tPickBranch_held {lowest : Nat} (hk : ∀ a, t.Kept a)
    (hpick : (t.arrive b code reply).tPickBranch = .branch p lowest) (ho : t.Open) :
    p = b ∨ 200 ≤ ((t.arrive b code reply).uac p).lastReceived ∧ ((t.arrive b code reply).uac p).reply ≠ .null := by
  obtain ⟨hmem, hbuf, hlast⟩ := tPickBranch_branch hpick
  by_cases hpb : p = b
  · exact .inl hpb
  · refine .inr ⟨hlast, ?_⟩
    rw [arrive_uac_ne hpb] at hbuf hlast ⊢
    exact hk p ho hmem hbuf hlast

/-- **A final code is kept**: `relay_reply` stores its reply, or the transaction is over. -/
theorem relayReply_kept (hk : ∀ a, t.Kept a) (hf : t.FinalReplies)
    (hcode : 200 ≤ code) (hnull : reply ≠ .null) (hr : reply.Carries code) :
    (t.relayReply reply b code bm env).trans.Kept b := by
  have hclosed : ¬(t.tShouldRelayResponse code b reply env.pick).trans.Open →
      (t.relayReply reply b code bm env).trans.Kept b := fun hc =>
    .of_closed ((@moves_relayDecision True t 0 0 b code reply bm env (.inr trivial) hr).closed hc)
  unfold relayReply at hclosed ⊢
  have hdec := tShouldRelayResponse_decided t code b reply env.pick
  generalize t.tShouldRelayResponse code b reply env.pick = dec at hdec hclosed ⊢
  cases hdec with
  | through hs | finished hs => exact hclosed (closed_of_status hs)
  | discarded => exact hk b
  | pending => exact relayDecision_store_kept hnull
  | unpicked _ _ _ _ hpick =>
    intro _ hmem hbuf
    have hnone : ((t.arrive b code reply).uac b).buffer = false := tPickBranch_none hpick b hmem
    have hbuf' : (((t.arrive b code reply).setReply b .null).uac b).buffer = ((t.arrive b code reply).uac b).buffer :=
      modify_uac_proj buffer rfl b
    have htrue : (((t.arrive b code reply).setReply b .null).uac b).buffer = true := hbuf
    rw [hbuf', hnone] at htrue
    cases htrue
  | picked _ _ hcode _ hpick =>
    exact relayDecision_picked_kept (hf.arrive hcode hr) hcode hnull hr (tPickBranch_held hk hpick)
  | global =>
    exact relayDecision_picked_kept (hf.arrive (by omega) hr).whichCancel (by omega) hnull hr fun _ => .inl rfl
  | success => exact .of_closed (relayBranch_closed ⟨code, relayedCode_own hnull hr, hcode⟩)
  | provisional => omega

/-! ## In every run -/

/-- What says that a branch has a request, a final code and a reply. -/
def UaClient.answered (uac : UaClient) : Bool × Nat × UacReply := (uac.buffer, uac.lastReceived, uac.reply)

theorem Trans.Kept.congr (ht : t.Kept b) (hopen : t'.Open → t.Open) (hshape : t'.shape = t.shape)
    (huac : (t'.uac b).answered = (t.uac b).answered) : t'.Kept b := by
  intro ho hmem hbuf hlast
  have hbuf' : (t'.uac b).buffer = (t.uac b).buffer := congrArg Prod.fst huac
  have hlast' : (t'.uac b).lastReceived = (t.uac b).lastReceived := congrArg (·.2.1) huac
  have hreply : (t'.uac b).reply = (t.uac b).reply := congrArg (·.2.2) huac
  rw [hreply]
  exact ht (hopen ho) (branches_of_shape hshape ▸ hmem) (hbuf' ▸ hbuf) (hlast' ▸ hlast)

theorem Trans.Kept.extend (ht : t.Kept b) (hfresh : t.Fresh) (he : Extended t t') : t'.Kept b := by
  have hstatus := congrArg status he.core
  have hwait := congrArg onWait he.core
  rintro ⟨hs, hw⟩ hmem hbuf hlast
  obtain ⟨hfirst, hnr⟩ := mem_branches.mp hmem
  by_cases hb : b < t.nrOfOutgoings
  · have hfirst' : t.firstBranch ≤ b := by
      rcases he.first with h | h
      · exact h ▸ hfirst
      · omega
    rw [he.old b hb] at hbuf hlast ⊢
    exact ht ⟨hstatus ▸ hs, hwait ▸ hw⟩ (mem_branches.mpr ⟨hfirst', hb⟩) hbuf hlast
  · rw [he.lastReceived b, (hfresh b (not_lt.mp hb)).2.1] at hlast
    omega

/-- **Moves keep replies**, but for the branch that receives a final code. -/
theorem Move.kept (hm : Move junk c x y) (hfresh : x.trans.Fresh) (hc : ∀ code, c = some (b, code) → code < 200)
    (hx : x.trans.Kept b) : y.trans.Kept b := by
  cases hm.effect with
  | quiet hopen hshape huac => exact hx.congr hopen hshape (congrArg (fun k => (k.1, k.2.1, k.2.2.2)) (huac b))
  | closed hopen => exact .of_closed hopen
  | extend he => exact hx.extend hfresh he
  | timer _ _ _ ht =>
    rw [ht]
    exact hx.congr id rfl (update_proj answered (by rfl) b)
  | @receive b' code _ hbc _ ht =>
    rw [ht]
    by_cases hbb : b = b'
    · subst hbb
      intro _ _ _ hfinal
      rw [Trans.receive, modify_uac_self] at hfinal
      exact absurd (hc code hbc) (not_lt.mpr hfinal)
    · exact hx.congr id rfl (congrArg answered (modify_uac_ne _ hbb))
  | @setReply b' code _ hbc hcode _ ht =>
    rw [ht]
    by_cases hbb : b = b'
    · subst hbb
      have := hc code hbc
      omega
    · exact hx.congr id rfl (congrArg answered (modify_uac_ne _ hbb))

variable {w w' : World} {ev : Event}

/-- What `relay_reply` finds. -/
structure Trans.Keeping (t : Trans) : Prop where
  fresh : t.Fresh
  replies : t.FinalReplies
  kept : ∀ a, t.Kept a

theorem Moves.keeping (hm : Moves junk none x y) (hx : x.trans.Keeping) : y.trans.Keeping := by
  refine hm.invariant (I := fun x => x.trans.Keeping) (fun x y hx hm =>
    ⟨hm.fresh hx.fresh, fun b s hs => ?_, fun a => ?_⟩) hx
  · have hreply : (y.trans.uac b).reply = (x.trans.uac b).reply := congrArg Prod.snd (hm.received b)
    exact hx.replies b s (hreply ▸ hs)
  · exact hm.kept hx.fresh (fun code hc => by cases hc) (hx.kept a)

section
variable (ht : t.Keeping)
include ht

theorem Trans.Keeping.timer {f : FrTimer → FrTimer} (hb : b < t.nrOfOutgoings) :
    (t.modify b fun uac => { uac with frTimer := f uac.frTimer }).Keeping := by
  refine ⟨ht.fresh.modify hb, fun a s hs => ht.replies a s ?_, fun a => ?_⟩
  · rw [← hs]
    exact (modify_uac_proj UaClient.reply rfl a).symm
  · exact (ht.kept a).congr id rfl (modify_uac_proj answered rfl a)

theorem shouldCancelBranch_keeping : (t.shouldCancelBranch b).1.Keeping := by
  have hm : Moves True none ⟨t, 0, 0⟩ ⟨(t.shouldCancelBranch b).1,
      ↑(if (t.shouldCancelBranch b).2 then [b] else []) + 0, 0⟩ := moves_shouldCancelBranch b
  exact hm.keeping ht

theorem fakeReply_kept (hcode : 200 ≤ code) :
    (t.fakeReply b code env).1.Kept b := by
  have hsel : (if t.isInvite then t.shouldCancelBranch b else (t, false)).1.Keeping := by
    split
    · exact shouldCancelBranch_keeping ht
    · exact ht
  exact relayReply_kept hsel.kept hsel.replies hcode (by simp) (by simp)

theorem relayReceived_kept {status last : Nat} {env : Trans.ReceivedEnv} (hs : 200 ≤ status) :
    (t.relayReceived b status last env).1.Kept b := by
  have hkept : (t.relayReply (.msg status) b status [] env.relay).trans.Kept b :=
    relayReply_kept ht.kept ht.replies hs (by simp) (by simp)
  have hcompleted : (t.relayReply (.msg status) b status [] env.relay).rps = .completed →
      200 ≤ (t.relayReply (.msg status) b status [] env.relay).trans.status :=
    relayReply_completed ht.replies (by simp)
  unfold relayReceived
  dsimp only
  split
  case h_1 hrps =>
    split
    · exact .of_closed (closed_of_status (hcompleted hrps))
    · exact .of_closed (closed_of_status (hcompleted hrps))
  case h_2 => exact hkept
  case h_3 => exact hkept

theorem replyReceived_kept {status : Nat} {env : Trans.ReceivedEnv} (hb : b < t.nrOfOutgoings)
    (hs : 200 ≤ status) : (t.replyReceived b status env).1.Kept b := by
  unfold replyReceived
  rw [if_neg fun h => absurd hs (not_le.mpr h.2), if_pos hs]
  have hreset : (t.resetFr b).Keeping := ht.timer hb
  have hm : Moves True none ⟨t.resetFr b, 0, 0⟩
    ⟨((t.resetFr b).modify b ({ · with hasRecvReply := true })).cancelDelayed b
      status env.cancel, 0, 0⟩ := (Move.replied b).moves.trans (moves_cancelDelayed b status env.cancel)
  exact relayReceived_kept (hm.keeping hreset) hs

theorem finalResponseHandler_kept {noisy readOnly : Bool}
    (hb : b < t.nrOfOutgoings) : (t.finalResponseHandler b noisy readOnly env).1.Kept b := by
  unfold finalResponseHandler
  dsimp only
  split
  · exact .of_closed (closed_of_onWait rfl)
  · exact fakeReply_kept (ht.timer (f := fun _ => .lost) hb) (by simp)

end

/-- The branch that an event is about keeps its final reply. -/
theorem World.step_kept_self (hw : w.Sane) (hk : ∀ a, w.trans.Kept a) (h : w.step ev = some w')
    (hc : w.branchOf ev = some (b, code)) (hcode : 200 ≤ code) : w'.trans.Kept b := by
  have ht : w.trans.Keeping := ⟨hw.fresh, hw.replies, hk⟩
  cases ev with
  | received =>
    obtain ⟨hb, h⟩ := ite_none_right_eq_some.mp h
    cases h
    cases hc
    exact replyReceived_kept ht hb hcode
  | frHandle =>
    obtain ⟨hfr, h⟩ := ite_none_right_eq_some.mp h
    cases h
    cases hc
    exact finalResponseHandler_kept ht (hw.lt_of_frTimer (by simp [hfr]))
  | retransmissionFailed =>
    obtain ⟨hb, h⟩ := ite_none_right_eq_some.mp h
    cases h
    cases hc
    refine fakeReply_kept ?_ (by simp)
    split
    · exact ht.timer hb
    · exact ht
  | proceed i _ _ late junk env =>
    rw [branchOf] at hc
    rw [step] at h
    cases htask : w.pending[i]? with
    | none => simp [htask] at h
    | some task =>
      rw [htask] at hc h
      cases h
      cases task with
      | cancel => cases hc
      | frInv => cases hc
      | internal b' =>
        cases hc
        have hb := hw.tasks _ (List.mem_of_getElem? htask) b rfl
        have hreset : (w.trans.resetFr b).Keeping := ht.timer hb
        show (w.trans.internalCancel b late junk env).1.Kept b
        unfold internalCancel
        split
        · exact relayReply_kept hreset.kept hreset.replies (by simp) (by simp) (by simp)
        · exact hk b
  | _ => cases hc

/-- Every event keeps the final replies. -/
theorem World.step_kept (hw : w.Sane) (hk : ∀ a, w.trans.Kept a) (h : w.step ev = some w') (a : Nat) :
    w'.trans.Kept a := by
  by_cases hc : ∀ code, w.branchOf ev = some (a, code) → code < 200
  · have hinv := (step_moves hw h).invariant (I := fun x => x.trans.Fresh ∧ x.trans.Kept a)
      (fun x y hx hm => ⟨hm.fresh hx.1, hm.kept hx.1 hc hx.2⟩) ⟨hw.fresh, hk a⟩
    exact hinv.2
  · push Not at hc
    obtain ⟨code, hc, hcode⟩ := hc
    exact step_kept_self hw hk h hc hcode

theorem World.Reachable.kept (h : w.Reachable) (a : Nat) : w.trans.Kept a := by
  have hinv : w.Sane ∧ ∀ a, w.trans.Kept a := by
    refine h.induct (I := fun w => w.Sane ∧ ∀ a, w.trans.Kept a) (fun w h₀ => ⟨h₀.sane, fun a => ?_⟩)
      fun w ev w' hw hstep => ⟨step_sane hw.1 hstep, step_kept hw.1 hw.2 hstep⟩
    obtain ⟨_, _, _, _, rfl⟩ := h₀
    intro _ _ hbuf
    cases hbuf
  exact hinv.2 a

/-! ## The decision about the last final reply -/

/-- `t_should_relay_response` returns `RPS_COMPLETED` with a branch that holds a final reply. -/
def Trans.Decision.Completes (dec : Trans.Decision) (reply : UacReply) (b code : Nat) : Prop :=
  dec.rps = .completed ∧ ∃ r final, dec.relay = some r ∧ dec.trans.relayedCode reply b code r = some final ∧ 200 ≤ final

theorem failureLogic_cnt (p : Nat) (env : Trans.PickEnv) : t.nrOfOutgoings ≤ (t.failureLogic p env).2 := by
  unfold failureLogic
  dsimp only
  split
  · split
    · exact le_rfl
    · have hm : Moves True none ⟨t, 0, 0⟩ ⟨(t.doDnsFailover env).1, 0, 0⟩ := moves_doDnsFailover
      exact hm.invariant (I := fun x => t.nrOfOutgoings ≤ x.trans.nrOfOutgoings) (fun _ _ hx hm =>
        hx.trans hm.nr_le) le_rfl
  · exact le_rfl

/-- If the failure logic neither answers nor adds a branch, a picked branch completes the transaction iff it is the
current one or holds a reply. -/
theorem picked_completes {env : Trans.PickEnv} (hf : t.FinalReplies) (hcode : 300 ≤ code)
    (hnull : reply ≠ .null) (hr : reply.Carries code) (hp : p ≠ b → 200 ≤ (t.uac p).lastReceived)
    (hnr : (t.picked b p bm env).trans.nrOfOutgoings = t.nrOfOutgoings)
      (hs : (t.picked b p bm env).trans.status < 200) :
    (t.picked b p bm env).Completes reply b code ↔ p = b ∨ (t.uac p).reply ≠ .null := by
  have hcnt := failureLogic_cnt (t := t) p env
  have hcases := picked_cases t b p bm env
  generalize t.picked b p bm env = dec at hcases hnr hs ⊢
  cases hcases with
  | answered hfinal => exact absurd hfinal (not_le.mpr hs)
  | extended _ hn =>
    have hnr : (t.failureLogic p env).1.nrOfOutgoings = t.nrOfOutgoings := hnr
    omega
  | relayed =>
    rw [← relayedCode_final_iff hf hcode hnull hr hp, ← relayedCode_failureLogic env]
    constructor
    · rintro ⟨-, r, final, hrelay, hfinal⟩
      cases hrelay
      exact ⟨final, hfinal⟩
    · rintro ⟨final, hfinal⟩
      exact ⟨rfl, p, final, rfl, hfinal⟩

theorem arrive_buffer (a : Nat) : ((t.arrive b code reply).uac a).buffer = (t.uac a).buffer := by
  unfold arrive setReply receive
  rw [modify_uac_proj buffer rfl a, modify_uac_proj buffer rfl a]

theorem arrive_held : p = b ∨ ((t.arrive b code reply).uac p).reply ≠ .null ↔ p = b ∨ (t.uac p).reply ≠ .null := by
  by_cases hpb : p = b
  · simp only [hpb, true_or]
  · rw [arrive_uac_ne hpb]

theorem arrive_lastReceived : ((t.arrive b code reply).uac b).lastReceived = code := by
  unfold arrive setReply receive
  rw [modify_uac_self, modify_uac_self]

theorem tPickBranch_done (hcode : 300 ≤ code)
    (hdone : ∀ a ∈ t.branches, (t.uac a).buffer → a = b ∨ 200 ≤ (t.uac a).lastReceived) :
    (t.arrive b code reply).tPickBranch ≠ .pending ∧
      ((∃ p lowest, (t.arrive b code reply).tPickBranch = .branch p lowest) ↔ ∃ a ∈ t.branches, (t.uac a).buffer) := by
  have hpending : (t.arrive b code reply).tPickBranch ≠ .pending := by
    intro hpick
    obtain ⟨a, hmem, hbuf, hlast⟩ := tPickBranch_pending.mp hpick
    rw [arrive_buffer] at hbuf
    by_cases hab : a = b
    · subst hab
      rw [arrive_lastReceived] at hlast
      omega
    · rw [arrive_uac_ne hab] at hlast
      have := (hdone a hmem hbuf).resolve_left hab
      omega
  refine ⟨hpending, ?_, ?_⟩
  · rintro ⟨p, lowest, hpick⟩
    obtain ⟨hmem, hbuf, -⟩ := tPickBranch_branch hpick
    exact ⟨p, hmem, arrive_buffer (t := t) p ▸ hbuf⟩
  · rintro ⟨a, hmem, hbuf⟩
    cases hpick : (t.arrive b code reply).tPickBranch with
    | pending => exact absurd hpick hpending
    | none =>
      have hnone : ((t.arrive b code reply).uac a).buffer = false := tPickBranch_none hpick a hmem
      rw [arrive_buffer, hbuf] at hnone
      cases hnone
    | branch p lowest => exact ⟨p, lowest, rfl⟩

/-- The decision about a final code, when no branch with a request is left below 200 and the failure logic neither
answers nor adds a branch. -/
theorem tShouldRelayResponse_completes {env : Trans.PickEnv} (hf : t.FinalReplies) (hs : t.status < 200)
    (hlast : (t.uac b).lastReceived < 200) (hcode : 300 ≤ code) (hnull : reply ≠ .null)
    (hr : reply.Carries code)
    (hdone : ∀ a ∈ t.branches, (t.uac a).buffer → a = b ∨ 200 ≤ (t.uac a).lastReceived)
    (hnr : (t.tShouldRelayResponse code b reply env).trans.nrOfOutgoings = t.nrOfOutgoings)
    (hst : (t.tShouldRelayResponse code b reply env).trans.status < 200) :
    (t.tShouldRelayResponse code b reply env).Completes reply b code ↔ 600 ≤ code ∨
      ∃ p lowest, (t.arrive b code reply).tPickBranch = .branch p lowest ∧ (p = b ∨ (t.uac p).reply ≠ .null) := by
  have hpick' := (@tPickBranch_done t b code reply hcode hdone).1
  have hdec := tShouldRelayResponse_decided t code b reply env
  generalize t.tShouldRelayResponse code b reply env = dec at hdec hnr hst ⊢
  cases hdec with
  | through hs' => omega
  | finished hs' => omega
  | discarded h => omega
  | pending _ _ _ hpick => exact absurd hpick hpick'
  | unpicked _ _ _ hlt hpick =>
    constructor
    · rintro ⟨hrps, -⟩
      cases hrps
    · rintro (h6 | ⟨p, lowest, hbranch, -⟩)
      · omega
      · rw [hpick] at hbranch
        cases hbranch
  | @picked p lowest _ _ _ hlt hpick =>
    rw [picked_completes (hf.arrive hcode hr) hcode hnull hr (fun _ => (tPickBranch_branch hpick).2.2)
      hnr hst, arrive_held]
    constructor
    · intro h
      exact .inr ⟨p, lowest, hpick, h⟩
    · rintro (h6 | ⟨q, lowest', hbranch, h⟩)
      · omega
      · obtain ⟨rfl, -⟩ := Trans.Pick.branch.inj (hpick.symm.trans hbranch)
        exact h
  | global _ _ hcode' =>
    have hf' : ({ (t.arrive b code reply).whichCancel.1 with noNewBranches := true } : Trans).FinalReplies :=
      (hf.arrive hcode hr).whichCancel
    have hnr' : ({ (t.arrive b code reply).whichCancel.1 with noNewBranches := true } : Trans).nrOfOutgoings =
        t.nrOfOutgoings := by
      obtain ⟨uac, selected, heq⟩ := whichCancel_eq (t := t.arrive b code reply)
      show (t.arrive b code reply).whichCancel.1.nrOfOutgoings = t.nrOfOutgoings
      rw [heq]
      rfl
    rw [picked_completes hf' hcode hnull hr (fun hne => absurd rfl hne) (hnr.trans hnr'.symm) hst]
    exact ⟨fun _ => .inl hcode', fun _ => .inl rfl⟩
  | success => omega
  | provisional => omega

/-- **Completion**: in every reachable state, a branch receives a final code of 300 or more, no branch with a request is
left below 200, and the failure logic neither answers nor adds a branch. Then `t_should_relay_response` completes the
transaction with a branch that holds a final reply iff the code is a 6xx, or `t_pick_branch` picks the current branch or
one that holds a reply; and before the transaction is put on the WAIT list, iff the code is a 6xx or some branch has a
request. -/
theorem completes_iff (h : w.Reachable) (hs : w.trans.status < 200) (hlast : (w.trans.uac b).lastReceived < 200)
    (hcode : 300 ≤ code) (hreply : reply = .faked ∨ reply = .msg code)
    (hdone : ∀ a ∈ w.trans.branches, (w.trans.uac a).buffer → a = b ∨ 200 ≤ (w.trans.uac a).lastReceived)
    (env : Trans.PickEnv)
    (hnr : (w.trans.tShouldRelayResponse code b reply env).trans.nrOfOutgoings = w.trans.nrOfOutgoings)
    (hst : (w.trans.tShouldRelayResponse code b reply env).trans.status < 200) :
    ((w.trans.tShouldRelayResponse code b reply env).Completes reply b code ↔ 600 ≤ code ∨ ∃ p lowest,
        (w.trans.arrive b code reply).tPickBranch = .branch p lowest ∧ (p = b ∨ (w.trans.uac p).reply ≠ .null)) ∧
      (w.trans.onWait = false → ((w.trans.tShouldRelayResponse code b reply env).Completes reply b code ↔
        600 ≤ code ∨ ∃ a ∈ w.trans.branches, (w.trans.uac a).buffer)) := by
  have hnull : reply ≠ .null := by
    rcases hreply with h | h
    · simp [h]
    · simp [h]
  have hr : reply.Carries code := by
    intro s hmsg
    rcases hreply with h | h
    · rw [h] at hmsg
      cases hmsg
    · exact UacReply.msg.inj (hmsg.symm.trans h)
  have hiff := tShouldRelayResponse_completes h.sane.replies hs hlast hcode hnull hr hdone hnr hst
  refine ⟨hiff, fun hwait => hiff.trans (or_congr_right ?_)⟩
  rw [← (@tPickBranch_done w.trans b code reply hcode hdone).2]
  constructor
  · rintro ⟨p, lowest, hpick, -⟩
    exact ⟨p, lowest, hpick⟩
  · rintro ⟨p, lowest, hpick⟩
    refine ⟨p, lowest, hpick, ?_⟩
    exact arrive_held.mp ((tPickBranch_held h.kept hpick ⟨hs, hwait⟩).imp_right And.right)

/-- Two branches, a 486 is stored, the other branch times out: the 486 is relayed. -/
theorem completes_iff_forked : ∃ w : World, w.Reachable ∧ w.trans.onWait = false ∧
    (w.trans.tShouldRelayResponse 408 1 .faked Trans.PickEnv.smooth).Completes .faked 1 408 := by
  obtain ⟨w, hr, ⟨hs, hwait, hbranches⟩, hbuf, hlast, hdone, hnr, hst⟩ : ∃ w : World, w.Reachable ∧
      (w.trans.status = 0 ∧ w.trans.onWait = false ∧ w.trans.branches = [0, 1]) ∧ (w.trans.uac 0).buffer ∧
      (w.trans.uac 1).lastReceived = 0 ∧
      (∀ a ∈ w.trans.branches, (w.trans.uac a).buffer → a = 1 ∨ 200 ≤ (w.trans.uac a).lastReceived) ∧
      (w.trans.tShouldRelayResponse 408 1 .faked Trans.PickEnv.smooth).trans.nrOfOutgoings = w.trans.nrOfOutgoings ∧
      (w.trans.tShouldRelayResponse 408 1 .faked Trans.PickEnv.smooth).trans.status = 0 :=
    exists_invite [.relay [.smooth, .smooth], .received 0 486 .smooth] (by decide +kernel)
  refine ⟨w, hr, hwait, ((completes_iff hr (by omega) (by omega) (by simp) (.inl rfl) hdone _ hnr
    (by omega)).2 hwait).mpr (.inr ⟨0, by simp [hbranches], hbuf⟩)⟩

/-- The only branch is a blind one. Its FR timer fires, and the 408 is discarded: no branch has a request, nothing goes
upstream, and no timer is left. -/
theorem blind_timeout_discarded : ∃ w w' : World, w.Reachable ∧ w.trans.Open ∧ (w.trans.uac 0).lastReceived = 0 ∧
    w.trans.branches = [0] ∧ (w.trans.uac 0).buffer = false ∧
    (w.trans.tShouldRelayResponse 408 0 .faked Trans.PickEnv.smooth).rps = .discarded ∧
    ¬(w.trans.tShouldRelayResponse 408 0 .faked Trans.PickEnv.smooth).Completes .faked 0 408 ∧
    w.step (.frHandle 0 false false .smooth) = some w' ∧ w'.trans.Open ∧ w'.trans.sent = [] ∧
    (w'.trans.uac 0).frTimer.live = false := by
  obtain ⟨w, hr, ⟨hs, hwait, hbranches⟩, hbuf, hlast, hrps, hend⟩ : ∃ w : World, w.Reachable ∧
      (w.trans.status = 0 ∧ w.trans.onWait = false ∧ w.trans.branches = [0]) ∧ (w.trans.uac 0).buffer = false ∧
      (w.trans.uac 0).lastReceived = 0 ∧
      (w.trans.tShouldRelayResponse 408 0 .faked Trans.PickEnv.smooth).rps = .discarded ∧
      ((w.step (.frHandle 0 false false .smooth)).any fun w' => w'.trans.status = 0 ∧ w'.trans.onWait = false ∧
        w'.trans.sent = [] ∧ (w'.trans.uac 0).frTimer.live = false) = true :=
    exists_invite [.addBlindUac false, .frSplit 0, .frFire 0] (by decide +kernel)
  obtain ⟨w', hstep, hs', hwait', hsent, hlive⟩ := Lib.exists_of_any hend
  refine ⟨w, w', hr, ⟨by omega, hwait⟩, hlast, hbranches, hbuf, hrps,
    fun hc => ?_, hstep, ⟨by omega, hwait'⟩, hsent, hlive⟩
  rw [hc.1] at hrps
  cases hrps

end OpenSer.Tm
