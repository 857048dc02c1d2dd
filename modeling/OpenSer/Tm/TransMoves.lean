import OpenSer.Tm.TReplySpec

/-!
# What can happen to a transaction

Everything that `World.step` does is a sequence of a few moves. A move says under which condition a field changes, and
what becomes of a branch between its selection for a CANCEL and the call of `cancel_branch`. An invariant of all moves
is one of all runs.

* `Move`: the moves. Only the branch that an event is about (`c`, with its code) receives the code and has its reply
  set, or its FR timer reset if the code is final; and only with `junk` does a bitmap hold branches that nobody
  selected.
* `Moves.invariant`: what every move preserves.
* `moves_relayReply`: `relay_reply` is a sequence of moves.
* `relayReply_completed`: a transaction that completes is answered.
-/

namespace OpenSer.Tm

open List Option
open Relation (ReflTransGen)
open OpenSer.Tm.Trans UaClient

/-- The flags that only steer the script and the relaying. -/
def Trans.setFlags (t : Trans) (wasCancelled noNewBranches noDnsFailover noisyCtimer onNegative onFailure : Bool) :
    Trans :=
  { t with
    wasCancelled := wasCancelled, noNewBranches := noNewBranches, noDnsFailover := noDnsFailover,
    noisyCtimer := noisyCtimer, onNegative := onNegative, onFailure := onFailure }

/-- A transaction, the branches whose bit is set in a bitmap (`held`), and those whose CANCEL is to be sent (`due`). -/
structure Custody where
  trans : Trans
  held : Multiset Nat
  due : Multiset Nat

inductive Move (junk : Prop) (c : Option (Nat × Nat)) : Custody → Custody → Prop
  | flags {t h d} (wasCancelled noNewBranches noDnsFailover noisyCtimer onNegative onFailure) :
    Move junk c ⟨t, h, d⟩
      ⟨t.setFlags wasCancelled noNewBranches noDnsFailover noisyCtimer onNegative onFailure, h, d⟩
  | replied {t h d} (b) : Move junk c ⟨t, h, d⟩ ⟨t.modify b ({ · with hasRecvReply := true }), h, d⟩
  -- cancelling
  | select {t h d b} (hnull : (t.uac b).localCancel = .null) (hlo : 100 ≤ (t.uac b).lastReceived)
    (hhi : (t.uac b).lastReceived < 200) :
    Move junk c ⟨t, h, d⟩ ⟨{ t.modify b ({ · with localCancel := .busy }) with
      selected := (b, (t.uac b).lastReceived) :: t.selected }, b ::ₘ h, d⟩
  | flag {t h d b} (hnull : (t.uac b).localCancel = .null) (hlast : (t.uac b).lastReceived = 0) :
    Move junk c ⟨t, h, d⟩ ⟨t.modify b ({ · with toCancel := true }), h, d⟩
  | delayed {t h d b} (status built) (hflag : (t.uac b).toCancel) :
    Move junk c ⟨t, h, d⟩ ⟨t.cancelDelayed b status built, h, d⟩
  | junk {t h d} (b) (hj : junk) : Move junk c ⟨t, h, d⟩ ⟨t, b ::ₘ h, d⟩
  | drop {t h d} (b) : Move junk c ⟨t, b ::ₘ h, d⟩ ⟨t, h, d⟩
  | take {t h d} (b) : Move junk c ⟨t, b ::ₘ h, d⟩ ⟨t, h, b ::ₘ d⟩
  | hand {t h d} (bm) : Move junk c ⟨t, ↑(t.bits bm) + h, d⟩ ⟨t.hand bm, h, ↑(t.bits bm) + d⟩
  | cancel {t h d} (b built) : Move junk c ⟨t, h, b ::ₘ d⟩ ⟨t.cancelBranch built b, h, d⟩
  -- answering
  | answer {t h d} (code localReply) (hs : t.status < 200) :
    Move junk c ⟨t, h, d⟩ ⟨{ t with status := code, localReply := localReply }.send code, h, d⟩
  | through {t h d code} (localReply) (hinv : t.isInvite) (hs : 200 ≤ t.status) (hlo : 200 ≤ code) (hhi : code < 300) :
    Move junk c ⟨t, h, d⟩ ⟨{ t with status := code, localReply := localReply }.send code, h, d⟩
  | status {t h d} (code) (hs : t.status < 200) : Move junk c ⟨t, h, d⟩ ⟨{ t with status := code }, h, d⟩
  | cleanup {t h d} (hs : 200 ≤ t.status) : Move junk c ⟨t, h, d⟩ ⟨t.cleanupUacTimers, h, d⟩
  | release {t h d} : Move junk c ⟨t, h, d⟩ ⟨t.cleanupUacTimers.putOnWait, h, d⟩
  | wait {t h d} : Move junk c ⟨t, h, d⟩ ⟨t.putOnWait, h, d⟩
  | crash {t h d} : Move junk c ⟨t, h, d⟩ ⟨{ t with crashed := true }, h, d⟩
  -- branches
  | extend {t t' h d} (he : Extended t t') : Move junk c ⟨t, h, d⟩ ⟨t', h, d⟩
  | timer {t h d b} (tl) (hb : b < t.nrOfOutgoings ∨ tl = (t.uac b).frTimer)
    (hl : (∃ code, c = some (b, code) ∧ 200 ≤ code) ∨ ((t.uac b).frTimer.live → tl.live)) :
    Move junk c ⟨t, h, d⟩ ⟨t.modify b ({ · with frTimer := tl }), h, d⟩
  | receive {t h d b code} (hb : b < t.nrOfOutgoings) (hc : c = some (b, code))
      (hflag : (t.uac b).toCancel → 200 ≤ code)
    (hlast : code < 200 → (t.uac b).lastReceived < 200) :
    Move junk c ⟨t, h, d⟩ ⟨t.receive b code, h, d⟩
  | setReply {t h d b code reply} (hc : c = some (b, code)) (hcode : 300 ≤ code) (hr : ∀ s, reply = .msg s → 300 ≤ s) :
    Move junk c ⟨t, h, d⟩ ⟨t.setReply b reply, h, d⟩

/-- A message that is stored as a reply has the code. -/
@[simp] abbrev UacReply.Carries (reply : UacReply) (code : Nat) : Prop := ∀ s, reply = .msg s → s = code

def Moves (junk : Prop) (c : Option (Nat × Nat)) : Custody → Custody → Prop := ReflTransGen (Move junk c)

variable {junk : Prop} {c : Option (Nat × Nat)} {t : Trans} {h d : Multiset Nat} {x y z : Custody}
  {env : Trans.PickEnv} {code : Nat}

theorem Moves.refl : Moves junk c x x := ReflTransGen.refl

theorem Move.moves (hm : Move junk c x y) : Moves junk c x y := ReflTransGen.single hm

theorem Moves.trans (h₁ : Moves junk c x y) (h₂ : Moves junk c y z) : Moves junk c x z := ReflTransGen.trans h₁ h₂

theorem Moves.tail (h₁ : Moves junk c x y) (h₂ : Move junk c y z) : Moves junk c x z := ReflTransGen.tail h₁ h₂

/-- **Invariants**: what every move preserves, a sequence of moves preserves. -/
theorem Moves.invariant {I : Custody → Prop} (hI : ∀ x y, I x → Move junk c x y → I y) (hm : Moves junk c x y)
    (hx : I x) : I y := by
  induction hm with
  | refl => exact hx
  | tail _ hstep ih => exact hI _ _ ih hstep

/-! ## Cancelling -/

theorem moves_drop (g : Multiset Nat) : Moves junk c ⟨t, g + h, d⟩ ⟨t, h, d⟩ := by
  induction g using Multiset.induction_on with
  | empty =>
    rw [zero_add]
    exact .refl
  | cons b g ih =>
    rw [Multiset.cons_add]
    exact (Move.drop b).moves.trans ih

theorem moves_drop_all (g : Multiset Nat) : Moves junk c ⟨t, g, d⟩ ⟨t, 0, d⟩ := by
  simpa using moves_drop (h := 0) g

theorem moves_shouldCancelBranch (b : Nat) : Moves junk c ⟨t, h, d⟩
    ⟨(t.shouldCancelBranch b).1, ↑(if (t.shouldCancelBranch b).2 then [b] else []) + h, d⟩ := by
  unfold shouldCancelBranch
  by_cases hnull : (t.uac b).localCancel = .null
  · rw [if_pos hnull]
    by_cases hlast : 100 ≤ (t.uac b).lastReceived ∧ (t.uac b).lastReceived < 200
    · rw [if_pos hlast]
      exact (Move.select hnull hlast.1 hlast.2).moves
    · rw [if_neg hlast]
      by_cases hzero : (t.uac b).lastReceived = 0
      · rw [if_pos hzero]
        simpa using (Move.flag hnull hzero).moves
      · rw [if_neg hzero]
        simpa using Moves.refl
  · rw [if_neg hnull]
    simpa using Moves.refl

theorem moves_whichCancelLoop (bs : List Nat) : Moves junk c ⟨t, h, d⟩
    ⟨(t.whichCancelLoop bs).1, ↑(t.whichCancelLoop bs).2 + h, d⟩ := by
  induction bs generalizing t h with
  | nil => simpa [whichCancelLoop] using Moves.refl
  | cons b bs ih =>
    refine (moves_shouldCancelBranch b).trans (ih.trans ?_)
    rw [whichCancelLoop]
    cases hsel : (t.shouldCancelBranch b).2 with
    | false => simpa [hsel] using Moves.refl
    | true =>
      have heq : ((t.shouldCancelBranch b).1.whichCancelLoop bs).2 + (↑[b] + h)
          = (↑(b :: ((t.shouldCancelBranch b).1.whichCancelLoop bs).2) : Multiset Nat) + h := by
        rw [← add_assoc, Multiset.coe_add, Multiset.coe_eq_coe.mpr perm_append_comm]
        rfl
      simp only [hsel, if_true, heq]
      exact .refl

theorem moves_whichCancel : Moves junk c ⟨t, h, d⟩ ⟨t.whichCancel.1, ↑t.whichCancel.2 + h, d⟩ :=
  moves_whichCancelLoop t.branches

theorem moves_hand (bm : List Nat) : Moves junk c ⟨t, ↑bm + h, d⟩ ⟨t.hand bm, h, ↑(t.bits bm) + d⟩ := by
  have hnodup : (t.bits bm).Nodup := nodup_range.filter _
  have hle : (↑(t.bits bm) : Multiset Nat) ≤ ↑bm := by
    refine (Multiset.le_iff_subset (Multiset.coe_nodup.mpr hnodup)).mpr fun b hb => ?_
    simpa using (mem_filter.mp (Multiset.mem_coe.mp hb)).2
  obtain ⟨rest, hrest⟩ := Multiset.le_iff_exists_add.mp hle
  rw [hrest, add_comm (↑(t.bits bm)) rest, add_assoc]
  exact (moves_drop rest).trans (Move.hand bm).moves

theorem moves_cancelBranches (built : Nat → Bool) (bs : List Nat) : Moves junk c ⟨t, h, ↑bs + d⟩
    ⟨bs.foldl (fun t b => t.cancelBranch (built b) b) t, h, d⟩ := by
  induction bs generalizing t with
  | nil => simpa using Moves.refl
  | cons b bs ih =>
    rw [← Multiset.cons_coe, Multiset.cons_add]
    exact (Move.cancel b (built b)).moves.trans ih

theorem moves_cancelUacs (built : Nat → Bool) (bm : List Nat) : Moves junk c ⟨t, ↑bm + h, d⟩
    ⟨t.cancelUacs built bm, h, d⟩ :=
  (moves_hand bm).trans (moves_cancelBranches built (t.bits bm))

/-! ## Replies -/

/-- The bitmap that `_reply_light` does not set has no bit set, if the response cannot be built. -/
def ReplyEnv.Fine (env : ReplyEnv) : Prop := env.built ∨ env.junk = []

def Trans.HandlerAct.Fine : Trans.HandlerAct → Prop
  | .reply _ env => env.Fine
  | _ => True

/-- All replies of the failure handlers are fine. -/
def Trans.PickEnv.Fine (env : Trans.PickEnv) : Prop :=
  (∀ act ∈ env.callbacks, act.Fine) ∧ ∀ act ∈ env.route, act.Fine

/-- All replies inside `relay_reply` are fine. -/
def Trans.RelayEnv.Fine (env : Trans.RelayEnv) : Prop := env.pick.Fine ∧ env.error.Fine

theorem moves_junk (hj : junk) (bs : List Nat) : Moves junk c ⟨t, h, d⟩ ⟨t, ↑bs + h, d⟩ := by
  induction bs with
  | nil => simpa using Moves.refl
  | cons b bs ih =>
    rw [← Multiset.cons_coe, Multiset.cons_add]
    exact ih.tail (Move.junk b hj)

theorem moves_setFinalTimer : Moves junk c ⟨t, h, d⟩ ⟨t.setFinalTimer, h, d⟩ := by
  unfold setFinalTimer
  split
  · exact .refl
  · exact Move.wait.moves

theorem moves_sendFinal (hs : t.status < 200) (hcode : 200 ≤ code) : Moves junk c ⟨t, h, d⟩
    ⟨({ t with status := code, localReply := true }.cleanupUacTimers.setFinalTimer).send code, h, d⟩ := by
  rw [send_setFinalTimer]
  refine (Move.answer code true hs).moves.trans (Moves.trans ?_ moves_setFinalTimer)
  exact (Move.cleanup hcode).moves

theorem moves_replyLight {env : ReplyEnv} (hj : env.Fine ∨ junk) : Moves junk c ⟨t, h, d⟩
    ⟨(t.replyLight code env).1, ↑(t.replyLight code env).2 + h, d⟩ := by
  have hsel : Moves junk c ⟨t, h, d⟩ ⟨(if t.isInvite then t.whichCancel else (t, [])).1,
      ↑(if t.isInvite then t.whichCancel else (t, [])).2 + h, d⟩ := by
    by_cases hinv : t.isInvite
    · simpa [hinv] using moves_whichCancel
    · simpa [hinv] using Moves.refl
  unfold replyLight
  generalize (if t.isInvite then t.whichCancel else (t, [])) = r at hsel
  obtain ⟨t₁, bm⟩ := r
  refine hsel.trans ?_
  dsimp only
  by_cases hbuilt : env.built
  · rw [if_neg (not_not.mpr hbuilt)]
    by_cases hs : 200 ≤ t₁.status
    · rw [if_pos hs]
      exact Move.release.moves
    · rw [if_neg hs]
      by_cases hshm : env.shm
      · rw [if_neg (not_not.mpr hshm)]
        split
        case isTrue hcode => exact moves_sendFinal (by omega) hcode.1
        case isFalse => exact (moves_drop _).trans (by simpa using (Move.answer code true (by omega)).moves)
      · rw [if_pos hshm]
        exact (Move.status code (by omega)).moves.tail .release
  · rw [if_pos hbuilt]
    refine Move.release.moves.trans ?_
    by_cases hinv : t.isInvite
    · rw [if_pos hinv, ← Multiset.coe_add, add_assoc]
      rcases hj with hfine | hj
      · simpa [hfine.resolve_left hbuilt] using Moves.refl
      · exact moves_junk hj env.junk
    · rw [if_neg hinv]
      simpa using moves_drop _

theorem moves_tReplyUnsafe {env : ReplyEnv} (hj : env.Fine ∨ junk) :
    Moves junk c ⟨t, h, d⟩ ⟨t.tReplyUnsafe code env, h, d⟩ :=
  (moves_replyLight hj).trans (moves_cancelUacs _ _)

/-- The branches that a list of tasks will cancel. -/
def dueOf (tasks : List Task) : Multiset Nat :=
  ↑(tasks.filterMap fun | .cancel b => some b | _ => none)

theorem dueOf_append (tasks tasks' : List Task) : dueOf (tasks ++ tasks') = dueOf tasks + dueOf tasks' := by
  unfold dueOf
  rw [filterMap_append, Multiset.coe_add]

theorem dueOf_cancel (bs : List Nat) : dueOf (bs.map .cancel) = ↑bs := by
  unfold dueOf
  rw [filterMap_map]
  exact congrArg _ filterMap_some

theorem moves_tReply {env : ReplyEnv} (hj : env.Fine ∨ junk) :
    Moves junk c ⟨t, h, d⟩ ⟨(t.tReply code env).1, h, dueOf (t.tReply code env).2 + d⟩ := by
  unfold tReply
  rw [dueOf_cancel]
  exact (moves_replyLight hj).trans (moves_hand _)

/-! ## Failure handlers -/

theorem moves_handle {act : Trans.HandlerAct} (hj : act.Fine ∨ junk) : Moves junk c ⟨t, h, d⟩ ⟨t.handle act, h, d⟩ := by
  cases act with
  | reply => exact moves_tReplyUnsafe hj
  | relay envs => exact (Move.extend (tForwardNonack_spec envs)).moves
  | addBlindUac frAvp => exact (Move.extend (addBlindUac_extended frAvp)).moves
  | onFailure set =>
    exact (Move.flags _ _ _ _ set _).moves

theorem moves_handlers {acts : List Trans.HandlerAct} (hj : (∀ act ∈ acts, act.Fine) ∨ junk) :
    Moves junk c ⟨t, h, d⟩ ⟨acts.foldl handle t, h, d⟩ := by
  induction acts generalizing t with
  | nil => exact .refl
  | cons act acts ih =>
    refine (moves_handle ?_).trans (ih ?_)
    · exact hj.imp_left fun hf => hf act (by simp)
    · exact hj.imp_left fun hf a ha => hf a (by simp [ha])

theorem moves_runFailureHandlers (hj : env.Fine ∨ junk) :
    Moves junk c ⟨t, h, d⟩ ⟨t.runFailureHandlers env, h, d⟩ := by
  unfold runFailureHandlers
  split
  case isTrue => exact .refl
  case isFalse =>
    have hcallbacks : Moves junk c ⟨t, h, d⟩
        ⟨if t.onFailure then env.callbacks.foldl handle t else t, h, d⟩ := by
      split
      · exact moves_handlers (hj.imp_left And.left)
      · exact .refl
    refine hcallbacks.trans ?_
    generalize (if t.onFailure then env.callbacks.foldl handle t else t) = t₁
    dsimp only
    split
    · have hroute : Move junk c ⟨t₁, h, d⟩ ⟨{ t₁ with onNegative := false }, h, d⟩ := .flags _ _ _ _ false _
      exact hroute.moves.trans (moves_handlers (hj.imp_left And.right))
    · exact .refl

theorem moves_doDnsFailover : Moves junk c ⟨t, h, d⟩ ⟨(t.doDnsFailover env).1, h, d⟩ := by
  unfold doDnsFailover
  split
  · exact (Move.extend (tForwardNonack_spec _)).moves
  · exact .refl

theorem moves_failureLogic (picked : Nat) (hj : env.Fine ∨ junk) :
    Moves junk c ⟨t, h, d⟩ ⟨(t.failureLogic picked env).1, h, d⟩ := by
  unfold failureLogic
  have hrun : ∀ {t : Trans} {cnt : Nat}, Moves junk c ⟨t, h, d⟩
      ⟨if cnt = t.nrOfOutgoings ∧ (t.onFailure ∨ t.onNegative) then t.runFailureHandlers env else t, h, d⟩ := by
    intro t cnt
    split
    · exact moves_runFailureHandlers hj
    · exact .refl
  split
  · exact moves_doDnsFailover.trans hrun
  · exact hrun

/-! ## The decision -/

variable {b code : Nat} {reply : UacReply}

theorem moves_arrive (hb : b < t.nrOfOutgoings) (hcode : 300 ≤ code) (hr : ∀ s, reply = .msg s → 300 ≤ s) :
    Moves junk (some (b, code)) ⟨t, h, d⟩ ⟨t.arrive b code reply, h, d⟩ :=
  (Move.receive hb rfl (fun _ => by omega) fun _ => by omega).moves.tail (.setReply rfl hcode hr)

theorem moves_picked (p : Nat) (bm : List Nat) (hj : env.Fine ∨ junk) (hcode : 300 ≤ code) :
    Moves junk (some (b, code)) ⟨t, ↑bm + h, d⟩ ⟨(t.picked b p bm env).trans,
      ↑(t.picked b p bm env).cancel + h, d⟩ := by
  refine (moves_failureLogic p hj).trans ?_
  have hcases := picked_cases t b p bm env
  generalize t.picked b p bm env = dec at hcases ⊢
  cases hcases with
  | answered | extended | relayed => exact (Move.setReply rfl hcode (by simp)).moves

theorem moves_tShouldRelayResponse (hj : env.Fine ∨ junk) (hb : b < t.nrOfOutgoings)
    (hflag : (t.uac b).toCancel → 200 ≤ code) (hr : reply.Carries code) :
    Moves junk (some (b, code)) ⟨t, h, d⟩ ⟨(t.tShouldRelayResponse code b reply env).trans,
      ↑(t.tShouldRelayResponse code b reply env).cancel + h, d⟩ := by
  have hreceive : 200 ≤ code ∨ (t.uac b).lastReceived < 200 →
      Moves junk (some (b, code)) ⟨t, h, d⟩ ⟨t.receive b code, h, d⟩ := fun hlast =>
    (Move.receive hb rfl hflag fun hlt => hlast.resolve_left (not_le.mpr hlt)).moves
  have harrive : 300 ≤ code → Moves junk (some (b, code)) ⟨t, h, d⟩ ⟨t.arrive b code reply, h, d⟩ :=
    fun hcode => moves_arrive hb hcode fun s hs => hr s hs ▸ hcode
  have hcases := tShouldRelayResponse_decided t code b reply env
  generalize t.tShouldRelayResponse code b reply env = dec at hcases ⊢
  cases hcases with
  | through _ _ hlo => simpa using hreceive (.inl hlo)
  | finished => simpa using Moves.refl
  | discarded => simpa [Trans.discard] using Moves.refl
  | pending _ _ hcode => simpa using (harrive hcode).tail (.setReply rfl hcode (by simp))
  | unpicked _ _ hcode => simpa [Trans.discard] using (harrive hcode).tail (.setReply rfl hcode (by simp))
  | @picked p _ _ _ hcode => exact (harrive hcode).trans (by simpa using moves_picked p [] hj hcode)
  | global =>
    refine (harrive (by omega)).trans (moves_whichCancel.trans (Moves.trans ?_ (moves_picked b _ hj (by omega))))
    exact (Move.flags _ true _ _ _ _).moves
  | success _ hlo => exact (hreceive (.inl hlo)).trans moves_whichCancel
  | provisional _ hlast => simpa using hreceive (.inr hlast)

/-! ## Relaying -/

variable {bm : List Nat} {env : Trans.RelayEnv}

theorem relayError_rps : (t.relayError bm env).rps = .error := by
  unfold relayError
  dsimp only
  split <;> rfl

/-- What the process still holds when `relay_reply` returns: on an error the bitmap has been given away. -/
def Trans.Relayed.held (r : Trans.Relayed) : Multiset Nat := if r.rps = .error then 0 else ↑r.bm

/-- The custody when `relay_reply` returns. -/
def Trans.Relayed.custody (r : Trans.Relayed) (h d : Multiset Nat) : Custody := ⟨r.trans, r.held + h, dueOf r.tasks + d⟩

theorem moves_relayError (hj : env.Fine ∨ junk) :
    Moves junk c ⟨t, ↑bm + h, d⟩ ((t.relayError bm env).custody h d) := by
  have hreply : Moves junk c ⟨t, ↑bm + h, d⟩ ⟨t.tReplyUnsafe 500 env.error, ↑bm + h, d⟩ :=
    moves_tReplyUnsafe (hj.imp_left And.right)
  have hheld : (t.relayError bm env).held = 0 := if_pos relayError_rps
  refine hreply.trans ?_
  rw [Trans.Relayed.custody, hheld, zero_add]
  unfold relayError
  dsimp only
  split
  · rw [dueOf_cancel]
    exact moves_hand bm
  · exact (moves_drop _).trans (by simpa [dueOf] using Moves.refl)

variable {rps : Rps} {r : Nat}

theorem custody_of_ne (hrps : rps ≠ .error) : Trans.Relayed.custody ⟨t, rps, bm, []⟩ h d = ⟨t, ↑bm + h, d⟩ := by
  have hheld : Trans.Relayed.held ⟨t, rps, bm, []⟩ = ↑bm := if_neg hrps
  have hdue : dueOf [] + d = d := zero_add d
  rw [Trans.Relayed.custody, hheld, hdue]

theorem moves_finish : Moves junk c ⟨t, h, d⟩ ⟨t.finish rps, h, d⟩ := by
  unfold finish
  split
  · exact moves_setFinalTimer
  · exact .refl

theorem relayedCode_self (hr : reply.Carries code) (h : t.relayedCode reply b code b = some r) :
    r = code := by
  unfold relayedCode at h
  rw [if_pos rfl] at h
  cases reply with
  | null => cases h
  | faked => simpa using h.symm
  | msg s => exact (some.inj h).symm.trans (hr s rfl)

/-- `relay_reply` with a branch to relay, when it is the answer or goes through behind it. -/
theorem moves_relayBranch (hj : env.Fine ∨ junk) (hr : reply.Carries code)
    (hs : t.status < 200 ∨ 200 ≤ t.status ∧ t.isInvite ∧ 200 ≤ code ∧ code < 300 ∧ r = b) (hrps : rps ≠ .error) :
    Moves junk c ⟨t, ↑bm + h, d⟩ ((t.relayBranch rps reply b code r bm env).custody h d) := by
  unfold relayBranch
  split
  case h_1 =>
    refine Move.crash.moves.trans ?_
    simpa [Trans.Relayed.custody, Trans.Relayed.held, dueOf] using moves_drop _
  case h_2 relayed hcode =>
    split
    case isTrue => exact moves_relayError hj
    case isFalse =>
      rw [custody_of_ne hrps, send_finish]
      refine Moves.trans (Move.moves ?_) moves_finish
      rcases hs with hs | ⟨hs, hinv, hlo, hhi, rfl⟩
      · exact .answer relayed false hs
      · obtain rfl := relayedCode_self hr hcode
        exact .through false hinv hs hlo hhi

/-- What `relay_reply` needs to know about a decision. -/
def Trans.Decision.Sound (dec : Trans.Decision) (b code : Nat) : Prop :=
  dec.rps ≠ .error ∧ (dec.store → 300 ≤ code) ∧ ∀ r, dec.relay = some r → dec.trans.status < 200 ∨
    200 ≤ dec.trans.status ∧ dec.trans.isInvite ∧ 200 ≤ code ∧ code < 300 ∧ r = b

theorem decision_cases (t : Trans) (code b : Nat) (reply : UacReply) (env : Trans.PickEnv) :
    (t.tShouldRelayResponse code b reply env).Sound b code := by
  unfold Trans.Decision.Sound
  have hpicked : ∀ {t : Trans} {p : Nat} {bm : List Nat}, 300 ≤ code → (t.picked b p bm env).Sound b code := by
    intro t p bm hcode
    unfold Trans.Decision.Sound
    have hcases := picked_cases t b p bm env
    generalize t.picked b p bm env = dec at hcases ⊢
    cases hcases with
    | answered => simp
    | extended => simp [hcode]
    | relayed hs => exact ⟨by simp, by simp, fun _ _ => .inl hs⟩
  have hcases := tShouldRelayResponse_decided t code b reply env
  generalize t.tShouldRelayResponse code b reply env = dec at hcases ⊢
  cases hcases with
  | through hs hinv hlo hhi =>
    exact ⟨by simp, by simp, fun r hr => .inr ⟨hs, hinv, hlo, hhi, (some.inj hr).symm⟩⟩
  | finished => simp
  | discarded | unpicked => simp [Trans.discard]
  | pending _ _ hcode => simp [hcode]
  | picked _ _ hcode => exact hpicked hcode
  | global => exact hpicked (by omega)
  | success hs =>
    obtain ⟨uac, selected, heq⟩ := whichCancel_eq (t := t.receive b code)
    refine ⟨by simp, by simp, fun _ _ => .inl ?_⟩
    rw [heq]
    exact hs
  | provisional hs => exact ⟨by simp, by simp, fun _ _ => .inl hs⟩

theorem moves_relayDecision (hj : env.Fine ∨ junk) (hr : reply.Carries code) :
    let dec := t.tShouldRelayResponse code b reply env.pick
    Moves junk (some (b, code)) ⟨dec.trans, ↑(dec.cancel ++ bm) + h, d⟩
      ((t.relayReply reply b code bm env).custody h d) := by
  obtain ⟨hrps, hstore, hrelay⟩ := decision_cases t code b reply env.pick
  unfold relayReply relayDecision
  dsimp only
  split
  case isTrue hs =>
    split
    case isTrue => exact moves_relayError hj
    case isFalse =>
      rw [custody_of_ne hrps]
      exact (Move.setReply rfl (hstore hs) fun s h => hr s h ▸ hstore hs).moves
  case isFalse =>
    split
    case h_1 =>
      rw [custody_of_ne hrps]
      exact moves_finish
    case h_2 r hsome => exact moves_relayBranch hj hr (hrelay r hsome) hrps

theorem moves_relayReply (hj : env.Fine ∨ junk) (hb : b < t.nrOfOutgoings)
    (hflag : (t.uac b).toCancel → 200 ≤ code) (hr : reply.Carries code) :
    Moves junk (some (b, code)) ⟨t, ↑bm + h, d⟩ ((t.relayReply reply b code bm env).custody h d) := by
  have hdec := moves_tShouldRelayResponse (t := t) (h := ↑bm + h) (d := d) (hj.imp_left And.left) hb hflag hr
  rw [← add_assoc] at hdec
  exact hdec.trans (moves_relayDecision hj hr)

/-- `relay_reply` for a process that holds nothing but its bitmap. -/
theorem moves_relayReply_alone (hj : env.Fine ∨ junk) (hb : b < t.nrOfOutgoings)
    (hflag : (t.uac b).toCancel → 200 ≤ code) (hr : reply.Carries code) :
    Moves junk (some (b, code)) ⟨t, ↑bm, d⟩ ⟨(t.relayReply reply b code bm env).trans,
      (t.relayReply reply b code bm env).held, dueOf (t.relayReply reply b code bm env).tasks + d⟩ := by
  simpa [Trans.Relayed.custody] using moves_relayReply (h := 0) hj hb hflag hr

/-! ## What stays -/

/-- What replies write into a branch. -/
def UaClient.received (uac : UaClient) : Nat × UacReply := (uac.lastReceived, uac.reply)

/-- What relaying reads of a branch. -/
def UaClient.talk (uac : UaClient) : Bool × Nat × FrTimer × UacReply :=
  (uac.buffer, uac.lastReceived, uac.frTimer, uac.reply)

/-- Which branches there are, and which of them were not sent. -/
def Trans.shape (t : Trans) : Nat × Nat × List Nat := (t.nrOfOutgoings, t.firstBranch, t.unsent)

/-- The transaction has no final reply and is not on its way out. -/
def Trans.Open (t : Trans) : Prop := t.status < 200 ∧ t.onWait = false

/-- What a move does to the branches: nothing that relaying reads, or it ends the transaction, adds branches, or writes
the FR timer, the code or the reply of one branch. -/
inductive Effect (c : Option (Nat × Nat)) (t t' : Trans) : Prop
  | quiet (hopen : t'.Open → t.Open) (hshape : t'.shape = t.shape) (huac : ∀ b, (t'.uac b).talk = (t.uac b).talk)
  | closed (hopen : ¬t'.Open) (hshape : t'.shape = t.shape) (huac : ∀ b, (t'.uac b).received = (t.uac b).received)
    (hout : ∀ b, t.nrOfOutgoings ≤ b → t'.uac b = t.uac b)
  | extend (he : Extended t t')
  | timer {b : Nat} (tl : FrTimer) (hb : b < t.nrOfOutgoings ∨ tl = (t.uac b).frTimer)
    (hl : (∃ code, c = some (b, code) ∧ 200 ≤ code) ∨ ((t.uac b).frTimer.live → tl.live))
    (ht : t' = t.modify b ({ · with frTimer := tl }))
  | receive {b code : Nat} (hb : b < t.nrOfOutgoings) (hc : c = some (b, code))
    (hlast : code < 200 → (t.uac b).lastReceived < 200) (ht : t' = t.receive b code)
  | setReply {b code : Nat} {reply : UacReply} (hc : c = some (b, code)) (hcode : 300 ≤ code)
    (hr : ∀ s, reply = .msg s → 300 ≤ s) (ht : t' = t.setReply b reply)

theorem closed_of_status (h : 200 ≤ t.status) : ¬t.Open := fun ho => absurd h (not_le.mpr ho.1)

theorem closed_of_onWait (h : t.onWait) : ¬t.Open := by
  rintro ⟨-, hw⟩
  rw [h] at hw
  cases hw

theorem cleanupUacTimers_out {b : Nat} (hb : t.nrOfOutgoings ≤ b) : t.cleanupUacTimers.uac b = t.uac b :=
  if_neg fun hmem => absurd hb (not_le.mpr (mem_branches.mp hmem).2)

/-- **What a move can do.** -/
theorem Move.effect (hm : Move junk c x y) : Effect c x.trans y.trans := by
  cases hm with
  | replied | select | flag => exact .quiet id rfl (update_proj talk (by rfl))
  | @delayed t h d b status built =>
    have huac := cancelDelayed_uac_proj (t := t) (b := b) talk (fun _ => rfl) (fun _ => rfl) status built
    obtain ⟨_, _, _, heq⟩ := cancelDelayed_eq (t := t) (b := b) status built
    rw [heq] at huac ⊢
    exact .quiet id rfl huac
  | @cancel t h d b built =>
    have huac := cancelBranch_uac_proj (t := t) (b := b) talk (fun _ => rfl) built
    obtain ⟨_, _, _, heq⟩ := cancelBranch_eq (t := t) (b := b) built
    rw [heq] at huac ⊢
    exact .quiet id rfl huac
  | answer _ _ hs | status code hs => exact .quiet (fun ho => ⟨hs, ho.2⟩) rfl fun _ => rfl
  | through _ _ _ hlo => exact .closed (closed_of_status hlo) rfl (fun _ => rfl) fun _ _ => rfl
  | cleanup hs =>
    exact .closed (closed_of_status hs) rfl (cleanupUacTimers_uac_proj received fun _ _ => rfl) fun _ =>
      cleanupUacTimers_out
  | release =>
    exact .closed (closed_of_onWait rfl) rfl (cleanupUacTimers_uac_proj received fun _ _ => rfl) fun _ =>
      cleanupUacTimers_out
  | wait => exact .closed (closed_of_onWait rfl) rfl (fun _ => rfl) fun _ _ => rfl
  | extend he => exact .extend he
  | timer tl hb hl => exact .timer tl hb hl rfl
  | receive hb hc _ hlast => exact .receive hb hc hlast rfl
  | setReply hc hcode hr => exact .setReply hc hcode hr rfl
  | _ => exact .quiet id rfl fun _ => rfl

/-- Moves that are about no branch leave all received replies alone. -/
theorem Move.received (hm : Move junk none x y) (b : Nat) : (y.trans.uac b).received = (x.trans.uac b).received := by
  cases hm.effect with
  | quiet _ _ huac => exact congrArg (fun k => (k.2.1, k.2.2.2)) (huac b)
  | closed _ _ huac => exact huac b
  | extend he =>
    have hcore := congrArg UaClient.received (he.uac b)
    exact hcore
  | timer _ _ _ ht =>
    rw [ht]
    exact update_proj UaClient.received (by rfl) b
  | receive _ hc => cases hc
  | setReply hc => cases hc

theorem Moves.received (hm : Moves junk none x y) (b : Nat) : (y.trans.uac b).received = (x.trans.uac b).received :=
  hm.invariant (I := fun z => (z.trans.uac b).received = (x.trans.uac b).received)
    (fun _ _ h hm => (hm.received b).trans h) rfl

theorem failureLogic_received (t : Trans) (p : Nat) (env : Trans.PickEnv) (x : Nat) :
    ((t.failureLogic p env).1.uac x).received = (t.uac x).received := by
  have hm : Moves True none ⟨t, 0, 0⟩ ⟨(t.failureLogic p env).1, 0, 0⟩ := moves_failureLogic p (.inr trivial)
  exact hm.received x

theorem whichCancel_received (t : Trans) (x : Nat) : (t.whichCancel.1.uac x).received = (t.uac x).received := by
  have hm : Moves True none ⟨t, 0, 0⟩ ⟨t.whichCancel.1, ↑t.whichCancel.2 + 0, 0⟩ := moves_whichCancel
  exact hm.received x

theorem finish_status (rps : Rps) : (t.finish rps).status = t.status := by
  unfold finish setFinalTimer
  split
  · split <;> rfl
  · rfl

def Trans.FinalReplies (t : Trans) : Prop := ∀ b s, (t.uac b).reply = .msg s → 300 ≤ s

variable {p : Nat}

theorem arrive_uac_ne (hp : p ≠ b) : (t.arrive b code reply).uac p = t.uac p := by
  rw [Trans.arrive, Trans.setReply, modify_uac_ne _ hp, receive, modify_uac_ne _ hp]

theorem Trans.FinalReplies.arrive (hf : t.FinalReplies) (hcode : 300 ≤ code) (hr : reply.Carries code) :
    (t.arrive b code reply).FinalReplies := by
  intro x s hx
  by_cases hxb : x = b
  · rw [hxb, Trans.arrive, Trans.setReply, modify_uac_self] at hx
    exact hr s hx ▸ hcode
  · rw [arrive_uac_ne hxb] at hx
    exact hf x s hx

theorem Trans.FinalReplies.whichCancel (hf : t.FinalReplies) : t.whichCancel.1.FinalReplies := by
  intro x s hx
  have hreply : (t.whichCancel.1.uac x).reply = (t.uac x).reply := congrArg Prod.snd (whichCancel_received t x)
  exact hf x s (hreply ▸ hx)

theorem relayedCode_failureLogic (env : Trans.PickEnv) :
    ((t.failureLogic p env).1.setReply b .null).relayedCode reply b code p = t.relayedCode reply b code p := by
  unfold relayedCode
  by_cases hbp : b = p
  · simp only [if_pos hbp]
  · have huac : ((t.failureLogic p env).1.setReply b .null).uac p = (t.failureLogic p env).1.uac p :=
      modify_uac_ne _ (Ne.symm hbp)
    obtain ⟨hlast, hreply⟩ := Prod.mk.inj (failureLogic_received t p env p)
    rw [huac, hlast, hreply]

theorem relayedCode_picked {relayed : Nat} (hf : t.FinalReplies) (hcode : 300 ≤ code)
    (hr : reply.Carries code) (hp : b ≠ p → 200 ≤ (t.uac p).lastReceived)
    (h : t.relayedCode reply b code p = some relayed) : 200 ≤ relayed := by
  by_cases hbp : b = p
  · subst hbp
    have := relayedCode_self hr h
    omega
  · unfold relayedCode at h
    rw [if_neg hbp] at h
    cases hstored : (t.uac p).reply with
    | null =>
      rw [hstored] at h
      cases h
    | faked =>
      rw [hstored] at h
      simp only [if_neg hbp] at h
      exact (hp hbp).trans (some.inj h).le
    | msg s =>
      rw [hstored] at h
      have := hf p s hstored
      have := some.inj h
      omega

theorem relayError_ne_completed : (t.relayError bm env).rps ≠ .completed := by
  rw [relayError_rps]
  simp

theorem relayBranch_completed
    (hcode : ∀ relayed, t.relayedCode reply b code p = some relayed → rps = .completed → 200 ≤ relayed)
    (h : (t.relayBranch rps reply b code p bm env).rps = .completed) :
    200 ≤ (t.relayBranch rps reply b code p bm env).trans.status := by
  unfold relayBranch at h ⊢
  split at h
  case h_1 => cases h
  case h_2 relayed hrelayed =>
    split at h
    case isTrue => exact absurd h relayError_ne_completed
    case isFalse hb =>
      rw [if_neg hb]
      refine (hcode relayed hrelayed h).trans ?_
      show _ ≤ ((_ : Trans).finish rps).status
      rw [finish_status]

theorem relayDecision_completed_of_picked {bm' : List Nat} (hf : t.FinalReplies)
    (hcode : 300 ≤ code) (hr : reply.Carries code) (hp : b ≠ p → 200 ≤ (t.uac p).lastReceived)
    (h : (relayDecision (t.picked b p bm env.pick) reply b code bm' env).rps = .completed) :
    200 ≤ (relayDecision (t.picked b p bm env.pick) reply b code bm' env).trans.status := by
  have hcases := picked_cases t b p bm env.pick
  generalize t.picked b p bm env.pick = dec at hcases h ⊢
  cases hcases with
  | answered hs =>
    show 200 ≤ (((t.failureLogic p env.pick).1.setReply b .null).finish .completed).status
    rw [finish_status]
    exact hs
  | extended =>
    unfold relayDecision at h ⊢
    simp only [if_true] at h ⊢
    split at h
    · exact absurd h relayError_ne_completed
    · cases h
  | relayed =>
    refine relayBranch_completed (fun relayed hrel _ => ?_) h
    rw [relayedCode_failureLogic] at hrel
    exact relayedCode_picked hf hcode hr hp hrel

/-- **Completion**: the transaction is answered when `relay_reply` says that it is completed. -/
theorem relayReply_completed (hf : t.FinalReplies)
    (hr : reply.Carries code) (h : (t.relayReply reply b code bm env).rps = .completed) :
    200 ≤ (t.relayReply reply b code bm env).trans.status := by
  have harrive : 300 ≤ code → (t.arrive b code reply).FinalReplies := fun hcode => hf.arrive hcode hr
  unfold relayReply at h ⊢
  have hdec := tShouldRelayResponse_decided t code b reply env.pick
  generalize t.tShouldRelayResponse code b reply env.pick = dec at hdec h ⊢
  cases hdec with
  | through => exact relayBranch_completed (fun _ _ h => by cases h) h
  | finished hs => exact le_of_le_of_eq hs (finish_status .completed).symm
  | discarded => cases h
  | pending =>
    unfold relayDecision at h
    split at h
    · exact absurd h relayError_ne_completed
    · cases h
  | unpicked => cases h
  | success _ hlo => exact relayBranch_completed (fun _ hrel _ => relayedCode_self hr hrel ▸ hlo) h
  | provisional =>
    by_cases h100 : code = 100
    · simp only [h100, if_true] at h
      cases h
    · simp only [h100, if_false] at h ⊢
      exact relayBranch_completed (fun _ _ h => by cases h) h
  | picked _ _ hcode _ hpick =>
    exact relayDecision_completed_of_picked (harrive hcode) hcode hr (fun _ => (tPickBranch_branch hpick).2.2) h
  | global =>
    exact relayDecision_completed_of_picked (harrive (by omega)).whichCancel (by omega) hr (fun hne => absurd rfl hne) h

end OpenSer.Tm
