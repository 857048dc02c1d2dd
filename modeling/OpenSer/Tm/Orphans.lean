import OpenSer.Tm.Upstream

/-!
# Branches that nobody waits for

`t_pick_branch` waits for every branch that has a request and no final reply. Such a branch needs an FR timer, or the
transaction may stay without an answer.

* `Trans.Guarded`: a pending branch has a live FR timer, or it could not be sent, or a final code for it is on its way.
* `Move.settled`: a branch that is done with stays so.
* `World.step_guarded`: what an event leaves behind.
* `Event.Sends`: the send outcomes of an event that leaves no branch of an open transaction unsent.
* `no_orphan_of_sends`: a run of such events has no orphans; the FR timer of every pending branch is due, and its
  handler settles the branch.
* `forked_unsent_orphan`: one of two branches cannot be sent, and nobody waits for it.
-/

namespace OpenSer.Tm

open Option
open Lib (exec exec_append exec_invariant)
open OpenSer.Tm.Trans World UaClient

/-- `t_pick_branch` counts the branch as pending. -/
def Trans.Pending (t : Trans) (b : Nat) : Prop :=
  b ∈ t.branches ∧ (t.uac b).buffer ∧ (t.uac b).lastReceived < 200

/-- The branch is pending, and no FR timer will end that. -/
def Trans.Orphan (t : Trans) (b : Nat) : Prop := t.Pending b ∧ (t.uac b).frTimer.live = false

def Trans.NoOrphan (t : Trans) : Prop := t.Open → ∀ b, ¬t.Orphan b

/-- The transaction is not open, or the branch has a final reply. -/
def Trans.Settled (t : Trans) (b : Nat) : Prop := 200 ≤ t.status ∨ t.onWait ∨ 200 ≤ (t.uac b).lastReceived

/-- Every pending branch has a live FR timer, or could not be sent, or receives a final code with the event `c`. -/
def Trans.Guarded (c : Option (Nat × Nat)) (t : Trans) : Prop :=
  t.Open → ∀ b, t.Pending b → (t.uac b).frTimer.live ∨ b ∈ t.unsent ∨ ∃ code, c = some (b, code) ∧ 200 ≤ code

variable {junk : Prop} {c : Option (Nat × Nat)} {x y : Custody} {t t' : Trans} {b code : Nat} {env : Trans.RelayEnv}
  {reply : UacReply}

/-! ## Settled branches -/

theorem Move.onWait (hm : Move junk c x y) (h : x.trans.onWait) : y.trans.onWait := by
  cases hm with
  | delayed status built =>
    obtain ⟨_, _, _, heq⟩ := cancelDelayed_eq status built
    rw [heq]
    exact h
  | cancel b built =>
    obtain ⟨_, _, _, heq⟩ := cancelBranch_eq built
    rw [heq]
    exact h
  | extend he =>
    have hcore := congrArg onWait he.core
    exact (show _ = _ from hcore).trans h
  | release => rfl
  | wait => rfl
  | _ => exact h

/-- A branch receives a code only with `Move.receive`, and no provisional one behind a final one. -/
theorem Move.lastReceived (hm : Move junk c x y) (b : Nat) :
    (y.trans.uac b).lastReceived = (x.trans.uac b).lastReceived ∨
      200 ≤ (y.trans.uac b).lastReceived ∨ (x.trans.uac b).lastReceived < 200 := by
  cases hm.effect with
  | quiet _ _ huac => exact .inl (congrArg (·.2.1) (huac b))
  | closed _ _ huac => exact .inl (congrArg Prod.fst (huac b))
  | extend he => exact .inl (he.lastReceived b)
  | timer _ _ _ ht | setReply _ _ _ ht =>
    rw [ht]
    exact .inl (update_proj UaClient.lastReceived (by rfl) b)
  | @receive b' code _ _ hlast ht =>
    rw [ht, Trans.receive]
    by_cases hbb : b = b'
    · subst hbb
      rw [modify_uac_self]
      by_cases hcode : code < 200
      · exact .inr (.inr (hlast hcode))
      · exact .inr (.inl (not_lt.mp hcode))
    · rw [modify_uac_ne _ hbb]
      exact .inl rfl

theorem Move.settled (hm : Move junk c x y) (hx : x.trans.Settled b) : y.trans.Settled b := by
  rcases hx with hs | hw | hlast
  · exact .inl (hm.status_final hs)
  · exact .inr (.inl (hm.onWait hw))
  · rcases hm.lastReceived b with heq | hfinal | hlt
    · exact .inr (.inr (heq ▸ hlast))
    · exact .inr (.inr hfinal)
    · exact absurd hlast (not_le.mpr hlt)

theorem Moves.settled (hm : Moves junk c x y) (hx : x.trans.Settled b) : y.trans.Settled b :=
  hm.invariant (I := fun x => x.trans.Settled b) (fun _ _ hx hm => hm.settled hx) hx

theorem Trans.Settled.congr (h : t.Settled b) (hs : t'.status = t.status) (hw : t'.onWait = t.onWait)
    (hlast : (t'.uac b).lastReceived = (t.uac b).lastReceived) : t'.Settled b := by
  rw [Trans.Settled, hs, hw, hlast]
  exact h

theorem setReply_settled {b' : Nat} (h : t.Settled b) : (t.setReply b' reply).Settled b :=
  h.congr rfl rfl (modify_uac_proj lastReceived (by rfl) b)

theorem receive_settled (hcode : 200 ≤ code) : (t.receive b code).Settled b := by
  have hself : (t.receive b code).uac b = { t.uac b with lastReceived := code } := modify_uac_self _
  refine .inr (.inr ?_)
  rw [hself]
  exact hcode

theorem picked_settled {p : Nat} {bm : List Nat} {env : Trans.PickEnv} (h : t.Settled b) :
    (t.picked b p bm env).trans.Settled b := by
  have hm : Moves True none ⟨t, 0, 0⟩ ⟨(t.failureLogic p env).1, 0, 0⟩ := moves_failureLogic p (.inr trivial)
  have hlogic : (t.failureLogic p env).1.Settled b := hm.settled h
  have hcases := picked_cases t b p bm env
  generalize t.picked b p bm env = dec at hcases ⊢
  cases hcases with
  | answered | extended | relayed => exact setReply_settled hlogic

theorem whichCancel_settled (h : t.Settled b) : t.whichCancel.1.Settled b := by
  have hm : Moves True none ⟨t, 0, 0⟩ ⟨t.whichCancel.1, ↑t.whichCancel.2 + 0, 0⟩ := moves_whichCancel
  exact hm.settled h

theorem tShouldRelayResponse_settled {env : Trans.PickEnv} (hcode : 200 ≤ code) :
    (t.tShouldRelayResponse code b reply env).trans.Settled b := by
  have harrive : (t.arrive b code reply).Settled b := setReply_settled (receive_settled hcode)
  have hdec := tShouldRelayResponse_decided t code b reply env
  generalize t.tShouldRelayResponse code b reply env = dec at hdec ⊢
  cases hdec with
  | through hs | finished hs => exact .inl hs
  | discarded h =>
    rcases h with hs | hlast | hlt
    · exact .inl hs
    · exact .inr (.inr hlast)
    · omega
  | pending | unpicked => exact setReply_settled harrive
  | picked => exact picked_settled harrive
  | global => exact picked_settled (whichCancel_settled harrive)
  | success => exact whichCancel_settled (receive_settled hcode)
  | provisional => omega

/-- **A final code settles its branch.** -/
theorem relayReply_settled {bm : List Nat} (hcode : 200 ≤ code)
    (hr : reply.Carries code) : (t.relayReply reply b code bm env).trans.Settled b := by
  have hm := @moves_relayDecision True t 0 0 b code reply bm env (.inr trivial) hr
  exact hm.settled (tShouldRelayResponse_settled hcode)

theorem fakeReply_settled (hcode : 200 ≤ code) : (t.fakeReply b code env).1.Settled b :=
  relayReply_settled hcode (by simp)

theorem relayReceived_settled {status last : Nat} {env : Trans.ReceivedEnv} (hs : 200 ≤ status) :
    (t.relayReceived b status last env).1.Settled b := by
  have hrelay : (t.relayReply (.msg status) b status [] env.relay).trans.Settled b := relayReply_settled hs (by simp)
  unfold relayReceived
  generalize t.relayReply (.msg status) b status [] env.relay = r at hrelay ⊢
  have hclean : r.trans.cleanupUacTimers.Settled b :=
    hrelay.congr rfl rfl (cleanupUacTimers_uac_proj lastReceived (fun _ _ => rfl) b)
  dsimp only
  split
  · split
    · exact hclean
    · exact hclean
  · exact hrelay
  · exact hrelay

theorem replyReceived_settled {status : Nat} {env : Trans.ReceivedEnv} (hs : 200 ≤ status) :
    (t.replyReceived b status env).1.Settled b := by
  unfold replyReceived
  rw [if_neg fun h => absurd hs (not_le.mpr h.2)]
  exact relayReceived_settled hs

theorem finalResponseHandler_settled {noisy readOnly : Bool} :
    (t.finalResponseHandler b noisy readOnly env).1.Settled b := by
  unfold finalResponseHandler
  dsimp only
  split
  · exact .inr (.inl rfl)
  · exact fakeReply_settled (by simp)

variable {w w' : World} {ev : Event}

/-- An event with a final code settles its branch, or finds nothing to do. -/
theorem World.step_settled (h : w.step ev = some w') (hc : w.branchOf ev = some (b, code)) (hcode : 200 ≤ code) :
    w'.trans = w.trans ∨ w'.trans.Settled b := by
  cases ev with
  | received =>
    obtain ⟨-, h⟩ := ite_none_right_eq_some.mp h
    cases h
    cases hc
    exact .inr (replyReceived_settled hcode)
  | frHandle =>
    obtain ⟨-, h⟩ := ite_none_right_eq_some.mp h
    cases h
    cases hc
    exact .inr finalResponseHandler_settled
  | retransmissionFailed =>
    obtain ⟨-, h⟩ := ite_none_right_eq_some.mp h
    cases h
    cases hc
    exact .inr (fakeReply_settled (by simp))
  | proceed i _ _ late junk env =>
    rw [branchOf] at hc
    rw [step] at h
    cases htask : w.pending[i]? with
    | none => simp [htask] at h
    | some task =>
      rw [htask] at hc h
      cases h
      cases task with
      | cancel => cases hc
      | frInv => cases hc
      | internal b' =>
        cases hc
        show (w.trans.internalCancel b late junk env).1 = w.trans ∨ (w.trans.internalCancel b late junk env).1.Settled b
        unfold internalCancel
        split
        · exact .inr (relayReply_settled (by simp) (by simp))
        · exact .inl rfl
  | _ => cases hc

/-! ## Guarded branches -/

/-- What says that a branch is pending and has a timer. -/
def UaClient.waiting (uac : UaClient) : Bool × Nat × FrTimer := (uac.buffer, uac.lastReceived, uac.frTimer)

theorem branches_of_shape (h : t'.shape = t.shape) : t'.branches = t.branches := by
  have hnr : t'.nrOfOutgoings = t.nrOfOutgoings := congrArg Prod.fst h
  have hfirst : t'.firstBranch = t.firstBranch := congrArg (·.2.1) h
  rw [branches, branches, hnr, hfirst]

section
variable (ht : t.Guarded c)
include ht

theorem Trans.Guarded.congr (hopen : t'.Open → t.Open) (hshape : t'.shape = t.shape)
    (huac : ∀ b, (t'.uac b).waiting = (t.uac b).waiting) : t'.Guarded c := by
  intro ho b hp
  have hbuf : (t'.uac b).buffer = (t.uac b).buffer := congrArg Prod.fst (huac b)
  have hlast : (t'.uac b).lastReceived = (t.uac b).lastReceived := congrArg (·.2.1) (huac b)
  have hfr : (t'.uac b).frTimer = (t.uac b).frTimer := congrArg (·.2.2) (huac b)
  have hunsent : t'.unsent = t.unsent := congrArg (·.2.2) hshape
  rw [hfr, hunsent]
  exact ht (hopen ho) b ⟨branches_of_shape hshape ▸ hp.1, hbuf ▸ hp.2.1, hlast ▸ hp.2.2⟩

theorem Trans.Guarded.extend (hfresh : t.Fresh) (he : Extended t t') : t'.Guarded c := by
  have hstatus := congrArg status he.core
  have hwait := congrArg onWait he.core
  rintro ⟨hs, hw⟩ b ⟨hmem, hbuf, hlast⟩
  obtain ⟨hfirst, hnr⟩ := mem_branches.mp hmem
  by_cases hb : b < t.nrOfOutgoings
  · have hfirst' : t.firstBranch ≤ b := by
      rcases he.first with h | h
      · exact h ▸ hfirst
      · omega
    rw [he.old b hb] at hbuf hlast ⊢
    rcases ht ⟨hstatus ▸ hs, hwait ▸ hw⟩ b ⟨mem_branches.mpr ⟨hfirst', hb⟩, hbuf, hlast⟩ with hl | hu | hc
    · exact .inl hl
    · exact .inr (.inl (he.unsent b hu))
    · exact .inr (.inr hc)
  · have hb := not_lt.mp hb
    exact (he.live b hb hnr (hfresh b hb).1).imp_right .inl

theorem Trans.Guarded.timer {tl : FrTimer}
    (hl : (∃ code, c = some (b, code) ∧ 200 ≤ code) ∨ ((t.uac b).frTimer.live → tl.live)) :
    (t.modify b ({ · with frTimer := tl })).Guarded c := by
  rintro ho a ⟨hmem, hbuf, hlast⟩
  rw [modify_uac_proj buffer rfl a] at hbuf
  rw [modify_uac_proj lastReceived rfl a] at hlast
  have hold := ht ho a ⟨hmem, hbuf, hlast⟩
  by_cases ha : a = b
  · subst ha
    rw [modify_uac_self]
    rcases hl with hc | hl
    · exact .inr (.inr hc)
    · exact hold.imp_left hl
  · rw [modify_uac_ne _ ha]
    exact hold

theorem Trans.Guarded.receive (hlast : code < 200 → (t.uac b).lastReceived < 200) :
    (t.receive b code).Guarded c := by
  rintro ho a ⟨hmem, hbuf, hlt⟩
  have hfr : ((t.receive b code).uac a).frTimer = (t.uac a).frTimer := modify_uac_proj frTimer (by rfl) a
  have hbuf' : ((t.receive b code).uac a).buffer = (t.uac a).buffer := modify_uac_proj buffer (by rfl) a
  rw [hfr]
  refine ht ho a ⟨hmem, hbuf' ▸ hbuf, ?_⟩
  by_cases ha : a = b
  · subst ha
    have hself : (t.receive a code).uac a = { t.uac a with lastReceived := code } := modify_uac_self _
    rw [hself] at hlt
    exact hlast hlt
  · have hne : (t.receive b code).uac a = t.uac a := modify_uac_ne _ ha
    rw [hne] at hlt
    exact hlt

end

theorem Move.guarded (hm : Move junk c x y) (hfresh : x.trans.Fresh) (hx : x.trans.Guarded c) : y.trans.Guarded c := by
  cases hm.effect with
  | quiet hopen hshape huac =>
    exact hx.congr hopen hshape fun b => congrArg (fun k => (k.1, k.2.1, k.2.2.1)) (huac b)
  | closed hopen => exact fun ho => absurd ho hopen
  | extend he => exact hx.extend hfresh he
  | timer tl _ hl ht =>
    rw [ht]
    exact hx.timer hl
  | receive _ _ hlast ht =>
    rw [ht]
    exact hx.receive hlast
  | setReply _ _ _ ht =>
    rw [ht]
    exact hx.congr id rfl (update_proj waiting (by rfl))

/-- When the event is over, a branch that received a final code needs no excuse. -/
theorem Trans.Guarded.settle (ht : t.Guarded c) (hc : ∀ b code, c = some (b, code) → 200 ≤ code → t.Settled b) :
    t.Guarded none := by
  intro ho b hp
  rcases ht ho b hp with hl | hu | ⟨code, hcode, hfinal⟩
  · exact .inl hl
  · exact .inr (.inl hu)
  · rcases hc b code hcode hfinal with hs | hw | hlast
    · exact absurd hs (not_le.mpr ho.1)
    · rw [ho.2] at hw
      cases hw
    · exact absurd hlast (not_le.mpr hp.2.2)

/-- Every event keeps the timers of the branches that are waited for. -/
theorem World.step_guarded (hw : w.Sane) (hg : w.trans.Guarded none) (h : w.step ev = some w') :
    w'.trans.Guarded none := by
  have hinv : w'.trans.Fresh ∧ w'.trans.Guarded (w.branchOf ev) := by
    refine (step_moves hw h).invariant (I := fun x => x.trans.Fresh ∧ x.trans.Guarded (w.branchOf ev))
      (fun x y hx hm => ⟨hm.fresh hx.1, hm.guarded hx.1 hx.2⟩) ⟨hw.fresh, fun ho b hp => ?_⟩
    rcases hg ho b hp with hl | hu | ⟨_, hc, -⟩
    · exact .inl hl
    · exact .inr (.inl hu)
    · cases hc
  by_cases heq : w'.trans = w.trans
  · exact heq ▸ hg
  · exact hinv.2.settle fun b code hc hcode => (step_settled h hc hcode).resolve_left heq

theorem World.Reachable.guarded (h : w.Reachable) : w.trans.Guarded none := by
  have hinv : w.Sane ∧ w.trans.Guarded none := by
    refine h.induct (I := fun w => w.Sane ∧ w.trans.Guarded none) (fun w h₀ => ⟨h₀.sane, ?_⟩)
      fun w ev w' hw hstep => ⟨step_sane hw.1 hstep, step_guarded hw.1 hw.2 hstep⟩
    obtain ⟨_, _, _, _, rfl⟩ := h₀
    rintro - b ⟨-, hbuf, -⟩
    cases hbuf
  exact hinv.2

/-! ## Timers that fire -/

theorem Move.bound (hm : Move junk c x y) (h : x.trans.nrOfOutgoings ≤ maxBranches) :
    y.trans.nrOfOutgoings ≤ maxBranches := by
  cases hm with
  | delayed => exact (cancelDelayed_nr _ _).trans_le h
  | cancel b built => exact (cancelBranch_nr built).trans_le h
  | extend he => exact he.bound h
  | _ => exact h

theorem World.Reachable.bound (h : w.Reachable) : w.trans.nrOfOutgoings ≤ maxBranches := by
  refine h.invariant (I := fun t => t.nrOfOutgoings ≤ maxBranches) (fun w hw => ?_) Move.bound
  obtain ⟨_, _, _, _, rfl⟩ := hw
  exact Nat.zero_le _

/-- What the timer process does until it runs the handler of a live FR timer. -/
def FrTimer.toFire (b : Nat) : FrTimer → List Event
  | .set => [.frSplit b, .frFire b]
  | .detached => [.frFire b]
  | _ => []

/-- A live timer can fire. -/
theorem exec_toFire (hlive : (w.trans.uac b).frTimer.live) :
    ∃ w₁, exec step w ((w.trans.uac b).frTimer.toFire b) = some w₁ ∧ (w₁.trans.uac b).frTimer = .fired := by
  have hfire : ∀ w : World, (w.trans.uac b).frTimer = .detached →
      ∃ w₁, exec step w [.frFire b] = some w₁ ∧ (w₁.trans.uac b).frTimer = .fired := by
    intro w hfr
    refine ⟨w.leave (w.trans.modify b ({ · with frTimer := .fired }), []), ?_, ?_⟩
    · simp [exec, step, hfr]
    · exact congrArg frTimer (modify_uac_self (t := w.trans) (b := b) ({ · with frTimer := .fired }))
  cases hfr : (w.trans.uac b).frTimer with
  | set =>
    have hsplit := congrArg frTimer (modify_uac_self (t := w.trans) (b := b)
      fun uac => { uac with frTimer := uac.frTimer.split })
    obtain ⟨w₁, hexec, hfired⟩ :=
      hfire (w.leave (w.trans.modify b fun uac => { uac with frTimer := uac.frTimer.split }, []))
      (hsplit.trans (by simp [hfr, FrTimer.split]))
    exact ⟨w₁, hexec, hfired⟩
  | detached => exact hfire w hfr
  | fired => exact ⟨w, rfl, hfr⟩
  | off | deleted | lost => simp [hfr, FrTimer.live] at hlive

/-- The handler of a live timer settles its branch. -/
theorem exec_frHandle (hlive : (w.trans.uac b).frTimer.live) (noisy readOnly : Bool) (env : Trans.RelayEnv) :
    ∃ w', exec step w ((w.trans.uac b).frTimer.toFire b ++ [.frHandle b noisy readOnly env]) = some w' ∧
      w'.trans.Settled b := by
  obtain ⟨w₁, hexec, hfired⟩ := exec_toFire hlive
  refine ⟨w₁.leave (w₁.trans.finalResponseHandler b noisy readOnly env), ?_, finalResponseHandler_settled⟩
  rw [exec_append, hexec]
  simp [exec, step, hfired]

/-! ## Branches that are sent -/

/-- Every destination that a branch is added for is sent. -/
def Sends (envs : List BranchEnv) : Prop := ∀ env ∈ envs, env.add = .added → env.sent = true

def Trans.HandlerAct.Sends : Trans.HandlerAct → Prop
  | .relay envs => Tm.Sends envs
  | _ => True

/-- DNS failover and the failure handlers send every branch that they add. -/
structure Trans.PickEnv.Sends (env : Trans.PickEnv) : Prop where
  failover : Tm.Sends env.failover
  callbacks : ∀ act ∈ env.callbacks, act.Sends
  route : ∀ act ∈ env.route, act.Sends

/-- Every branch that the event adds is sent; or it is `t_relay` without the flag that suppresses the error reply, none
is sent, and the transaction is killed with a final code. -/
def Event.Sends : Event → Prop
  | .relayTo _ noerr envs kill =>
    Tm.Sends envs ∨ noerr = false ∧ (∀ env ∈ envs, env.add = .added → env.sent = false) ∧ 200 ≤ kill.code
  | .received _ _ env => env.relay.pick.Sends
  | .frHandle _ _ _ env | .retransmissionFailed _ _ env | .proceed _ _ _ _ _ env => env.pick.Sends
  | _ => True

section
variable {envs : List BranchEnv} {penv : Trans.PickEnv}

theorem addUac_unsent (add : AddUac) : (t.addUac add).1.unsent = t.unsent ∧
    ((t.addUac add).2 ≠ none → add = .added) := by
  unfold addUac
  dsimp only
  split
  · simp
  split
  · simp
  cases add with
  | unprepared => simp
  | uncloned | unbuilt =>
    dsimp only
    split <;> exact ⟨rfl, by simp⟩
  | added => exact ⟨rfl, fun _ => rfl⟩

/-- The branches that are added come from destinations whose `add_uac` succeeds. -/
theorem addUacs_unsent (envs : List BranchEnv) : (t.addUacs envs).1.unsent = t.unsent ∧
    ∀ x ∈ (t.addUacs envs).2, x.2 ∈ envs ∧ x.2.add = .added := by
  induction envs generalizing t with
  | nil => exact ⟨rfl, List.forall_mem_nil _⟩
  | cons env envs ih =>
    obtain ⟨hsame, hadd⟩ := addUac_unsent (t := t) env.add
    unfold addUacs
    generalize t.addUac env.add = r at hsame hadd
    obtain ⟨t₁, b⟩ := r
    obtain ⟨hrest, hmem⟩ := ih (t := t₁)
    have hmem' : ∀ x ∈ (t₁.addUacs envs).2, x.2 ∈ env :: envs ∧ x.2.add = .added := fun x hx =>
      ⟨List.mem_cons_of_mem _ (hmem x hx).1, (hmem x hx).2⟩
    cases b with
    | none => exact ⟨hrest.trans hsame, hmem'⟩
    | some b => exact ⟨hrest.trans hsame, List.forall_mem_cons.mpr ⟨⟨List.mem_cons_self, hadd (some_ne_none b)⟩, hmem'⟩⟩

theorem sendUacs_unsent {added : List (Nat × BranchEnv)} (h : ∀ x ∈ added, x.2.sent = true) :
    (t.sendUacs added).unsent = t.unsent := by
  induction added generalizing t with
  | nil => rfl
  | cons x added ih =>
    obtain ⟨hx, hadded⟩ := List.forall_mem_cons.mp h
    refine (ih hadded).trans ?_
    dsimp only
    rw [sendUac, if_pos hx]
    rfl

/-- **`t_forward_nonack`** leaves nothing unsent when every branch that it adds is sent. -/
theorem tForwardNonack_unsent (h : Sends envs) : (t.tForwardNonack envs).1.unsent = t.unsent := by
  unfold tForwardNonack
  split
  · rfl
  · obtain ⟨hsame, hadded⟩ := addUacs_unsent (t := { t with firstBranch := t.nrOfOutgoings }) envs
    exact (sendUacs_unsent fun x hx => h x.2 (hadded x hx).1 (hadded x hx).2).trans hsame

/-- It returns an error when none is sent. -/
theorem tForwardNonack_error (h : ∀ env ∈ envs, env.add = .added → env.sent = false) :
    (t.tForwardNonack envs).2 = false := by
  unfold tForwardNonack
  split
  · rfl
  · obtain ⟨-, hadded⟩ := addUacs_unsent (t := { t with firstBranch := t.nrOfOutgoings }) envs
    rw [List.any_eq_false]
    intro x hx
    rw [h x.2 (hadded x hx).1 (hadded x hx).2]
    exact Bool.false_ne_true

theorem whichCancel_unsent : t.whichCancel.1.unsent = t.unsent := by
  obtain ⟨_, _, heq⟩ := whichCancel_eq (t := t)
  rw [heq]

theorem setFinalTimer_unsent : t.setFinalTimer.unsent = t.unsent := by
  unfold setFinalTimer
  split <;> rfl

theorem finish_unsent (rps : Rps) : (t.finish rps).unsent = t.unsent := by
  unfold finish
  split
  · exact setFinalTimer_unsent
  · rfl

theorem cancelBranch_unsent (built : Bool) : (t.cancelBranch built b).unsent = t.unsent := by
  obtain ⟨_, _, _, heq⟩ := cancelBranch_eq (t := t) (b := b) built
  rw [heq]

theorem cancelUacs_unsent (built : Nat → Bool) (bm : List Nat) : (t.cancelUacs built bm).unsent = t.unsent := by
  have hfold : ∀ (bs : List Nat) (t : Trans),
      (bs.foldl (fun t b => t.cancelBranch (built b) b) t).unsent = t.unsent := by
    intro bs
    induction bs with
    | nil => exact fun _ => rfl
    | cons b bs ih => exact fun t => (ih _).trans (cancelBranch_unsent _)
  exact hfold _ _

theorem replyLight_unsent (code : Nat) (env : ReplyEnv) : (t.replyLight code env).1.unsent = t.unsent := by
  have hsel : (if t.isInvite then t.whichCancel else (t, [])).1.unsent = t.unsent := by
    split
    · exact whichCancel_unsent
    · rfl
  unfold replyLight
  generalize (if t.isInvite then t.whichCancel else (t, [])) = r at hsel
  dsimp only
  split
  · exact hsel
  split
  · exact hsel
  split
  · exact hsel
  split
  · exact setFinalTimer_unsent.trans hsel
  · exact hsel

theorem tReplyUnsafe_unsent (code : Nat) (env : ReplyEnv) : (t.tReplyUnsafe code env).unsent = t.unsent :=
  (cancelUacs_unsent _ _).trans (replyLight_unsent code env)

theorem handle_unsent {act : Trans.HandlerAct} (h : act.Sends) : (t.handle act).unsent = t.unsent := by
  cases act with
  | reply code env => exact tReplyUnsafe_unsent code env
  | relay envs => exact tForwardNonack_unsent h
  | addBlindUac frAvp =>
    show (t.addBlindUac frAvp).unsent = t.unsent
    unfold addBlindUac
    split <;> rfl
  | onFailure => rfl

theorem handlers_unsent {acts : List Trans.HandlerAct} (h : ∀ act ∈ acts, act.Sends) :
    (acts.foldl handle t).unsent = t.unsent := by
  induction acts generalizing t with
  | nil => rfl
  | cons act acts ih =>
    obtain ⟨hact, hacts⟩ := List.forall_mem_cons.mp h
    exact (ih hacts).trans (handle_unsent hact)

theorem runFailureHandlers_unsent (h : penv.Sends) : (t.runFailureHandlers penv).unsent = t.unsent := by
  have hcallbacks : (if t.onFailure then penv.callbacks.foldl handle t else t).unsent = t.unsent := by
    split
    · exact handlers_unsent h.callbacks
    · rfl
  unfold runFailureHandlers
  split
  · rfl
  dsimp only
  generalize (if t.onFailure then penv.callbacks.foldl handle t else t) = t₁ at hcallbacks ⊢
  split
  · exact (handlers_unsent h.route).trans hcallbacks
  · exact hcallbacks

theorem doDnsFailover_unsent (h : penv.Sends) : (t.doDnsFailover penv).1.unsent = t.unsent := by
  unfold doDnsFailover
  split
  · exact tForwardNonack_unsent h.failover
  · rfl

theorem failureLogic_unsent (h : penv.Sends) (p : Nat) : (t.failureLogic p penv).1.unsent = t.unsent := by
  have hhandlers : ∀ (t₁ : Trans) (cnt : Nat), t₁.unsent = t.unsent →
      (if cnt = t₁.nrOfOutgoings ∧ (t₁.onFailure ∨ t₁.onNegative) then t₁.runFailureHandlers penv else t₁).unsent =
        t.unsent := by
    intro t₁ cnt ht₁
    split
    · exact (runFailureHandlers_unsent h).trans ht₁
    · exact ht₁
  unfold failureLogic
  dsimp only
  refine hhandlers _ _ ?_
  split
  · exact doDnsFailover_unsent h
  · rfl

theorem picked_unsent (h : penv.Sends) (b p : Nat) (bm : List Nat) :
    (t.picked b p bm penv).trans.unsent = t.unsent := by
  have hlogic := failureLogic_unsent (t := t) h p
  have hcases := picked_cases t b p bm penv
  generalize t.picked b p bm penv = dec at hcases ⊢
  cases hcases with
  | answered | extended | relayed => exact hlogic

theorem tShouldRelayResponse_unsent (h : penv.Sends) (code b : Nat) (reply : UacReply) :
    (t.tShouldRelayResponse code b reply penv).trans.unsent = t.unsent := by
  have hdec := tShouldRelayResponse_decided t code b reply penv
  generalize t.tShouldRelayResponse code b reply penv = dec at hdec ⊢
  cases hdec with
  | picked => exact picked_unsent h ..
  | global => exact (picked_unsent h ..).trans whichCancel_unsent
  | success => exact whichCancel_unsent
  | _ => rfl

theorem relayError_unsent (bm : List Nat) : (t.relayError bm env).trans.unsent = t.unsent := by
  unfold relayError
  dsimp only
  split <;> exact tReplyUnsafe_unsent ..

/-- **`relay_reply`** leaves nothing unsent when the branches that it adds are sent. -/
theorem relayReply_unsent (h : env.pick.Sends) (bm : List Nat) :
    (t.relayReply reply b code bm env).trans.unsent = t.unsent := by
  have hdec := tShouldRelayResponse_unsent (t := t) h code b reply
  unfold relayReply relayDecision
  generalize t.tShouldRelayResponse code b reply env.pick = dec at hdec ⊢
  dsimp only
  split
  · split
    · exact (relayError_unsent _).trans hdec
    · exact hdec
  split
  · exact (finish_unsent _).trans hdec
  · unfold relayBranch
    split
    · exact hdec
    · split
      · exact (relayError_unsent _).trans hdec
      · exact (finish_unsent _).trans hdec

theorem fakeReply_unsent (h : env.pick.Sends) (b code : Nat) : (t.fakeReply b code env).1.unsent = t.unsent := by
  have hsel : (if t.isInvite then t.shouldCancelBranch b else (t, false)).1.unsent = t.unsent := by
    split
    · obtain ⟨_, _, heq⟩ := shouldCancelBranch_eq (t := t) b
      rw [heq]
    · rfl
  exact (relayReply_unsent h _).trans hsel

theorem replyReceived_unsent {renv : Trans.ReceivedEnv} (h : renv.relay.pick.Sends) (b status : Nat) :
    (t.replyReceived b status renv).1.unsent = t.unsent := by
  have hreset : (if 200 ≤ status then t.resetFr b else t).unsent = t.unsent := by
    split <;> rfl
  have hdelayed : ∀ t : Trans, (t.cancelDelayed b status renv.cancel).unsent = t.unsent := by
    intro t
    obtain ⟨_, _, _, heq⟩ := cancelDelayed_eq (t := t) (b := b) status renv.cancel
    rw [heq]
  have hrelay : ∀ (t : Trans) (last : Nat), (t.relayReceived b status last renv).1.unsent = t.unsent := by
    intro t last
    have hreply : (t.relayReply (.msg status) b status [] renv.relay).trans.unsent = t.unsent :=
      relayReply_unsent h []
    unfold relayReceived
    generalize t.relayReply (.msg status) b status [] renv.relay = r at hreply ⊢
    dsimp only
    split
    · split <;> exact hreply
    · exact hreply
    · exact hreply
  unfold replyReceived
  dsimp only
  split
  · exact hreset
  · exact (hrelay _ _).trans ((hdelayed _).trans hreset)

/-- A final local reply ends a transaction. -/
theorem tReply_closed {renv : ReplyEnv} (hcode : 200 ≤ code) : ¬(t.tReply code renv).1.Open := by
  suffices h : ¬(t.replyLight code renv).1.Open from h
  unfold replyLight
  generalize (if t.isInvite then t.whichCancel else (t, [])) = r
  dsimp only
  split
  · exact closed_of_onWait rfl
  split
  · exact closed_of_onWait rfl
  split
  · exact closed_of_onWait rfl
  split
  · refine closed_of_status ?_
    unfold setFinalTimer
    split <;> exact hcode
  · exact closed_of_status hcode

/-- A transaction that is open has been open before. -/
theorem Moves.wasOpen (hm : Moves junk c x y) (h : y.trans.Open) : x.trans.Open := by
  by_contra hclosed
  have hstays : ¬y.trans.Open := by
    refine hm.invariant (I := fun x => ¬x.trans.Open) (fun x y hx hstep ho => hx ?_) hclosed
    refine ⟨?_, ?_⟩
    · by_contra hs
      exact closed_of_status (hstep.status_final (not_lt.mp hs)) ho
    · by_contra hw
      exact closed_of_onWait (hstep.onWait ((Bool.not_eq_false _).mp hw)) ho
  exact hstays h

end

/-- An open transaction has no branch that was not sent. -/
def World.AllSent (w : World) : Prop := w.trans.Open → w.trans.unsent = []

/-- An event that sends its branches leaves none unsent. -/
theorem World.step_allSent (hw : w.Sane) (hsent : w.AllSent) (hev : ev.Sends) (h : w.step ev = some w') :
    w'.AllSent := by
  intro ho
  have hbefore := hsent ((step_moves hw h).wasOpen ho)
  suffices hsame : w'.trans.unsent = w.trans.unsent from hsame.trans hbefore
  cases ev with
  | relayTo nodnsfo noerr envs kill =>
    cases h
    rcases hev with hall | ⟨rfl, hnone, hcode⟩
    · show (w.trans.tRelayTo nodnsfo noerr envs kill).1.unsent = w.trans.unsent
      unfold tRelayTo
      dsimp only
      split
      · exact tForwardNonack_unsent hall
      · exact (replyLight_unsent ..).trans (tForwardNonack_unsent hall)
    · -- the transaction is killed
      refine absurd ho ?_
      show ¬(w.trans.tRelayTo nodnsfo false envs kill).1.Open
      unfold tRelayTo
      dsimp only
      rw [if_neg (by rw [tForwardNonack_error hnone]; simp)]
      exact tReply_closed hcode
  | reply code env =>
    cases h
    exact replyLight_unsent ..
  | addBlindUac frAvp =>
    cases h
    exact handle_unsent (show (Trans.HandlerAct.addBlindUac frAvp).Sends from trivial)
  | onNegative | onFailure | release | responseTimeout | frSplit =>
    cases h
    rfl
  | received =>
    obtain ⟨-, h⟩ := ite_none_right_eq_some.mp h
    cases h
    exact replyReceived_unsent hev ..
  | frFire =>
    obtain ⟨-, h⟩ := ite_none_right_eq_some.mp h
    cases h
    rfl
  | frHandle b noisy readOnly env =>
    obtain ⟨-, h⟩ := ite_none_right_eq_some.mp h
    cases h
    show (w.trans.finalResponseHandler b noisy readOnly env).1.unsent = w.trans.unsent
    unfold finalResponseHandler
    dsimp only
    split
    · rfl
    · exact fakeReply_unsent hev ..
  | retransmissionFailed b request env =>
    obtain ⟨-, h⟩ := ite_none_right_eq_some.mp h
    cases h
    refine (fakeReply_unsent hev ..).trans ?_
    split <;> rfl
  | cancelInvite =>
    obtain ⟨-, h⟩ := ite_none_right_eq_some.mp h
    cases h
    exact whichCancel_unsent
  | proceed i built frAvp late junk env =>
    rw [step] at h
    cases htask : w.pending[i]? with
    | none => simp [htask] at h
    | some task =>
      rw [htask] at h
      cases h
      cases task with
      | cancel b => exact cancelBranch_unsent built
      | frInv b => rfl
      | internal b =>
        show (w.trans.internalCancel b late junk env).1.unsent = w.trans.unsent
        unfold internalCancel
        split
        · exact relayReply_unsent hev _
        · rfl

/-- **Runs whose branches are sent**: open transactions have no unsent branch all along. -/
theorem exec_allSent {w₀ : World} {events : List Event} (h₀ : w₀.Sane ∧ w₀.AllSent) (hev : ∀ ev ∈ events, ev.Sends)
    (h : exec World.step w₀ events = some w) : w.AllSent := by
  induction events generalizing w₀ with
  | nil =>
    cases h
    exact h₀.2
  | cons ev events ih =>
    obtain ⟨hsends, hrest⟩ := List.forall_mem_cons.mp hev
    obtain ⟨w₁, hstep, h⟩ := bind_eq_some_iff.mp h
    exact ih ⟨step_sane h₀.1 hstep, step_allSent h₀.1 h₀.2 hsends hstep⟩ hrest h

/-- **No orphans**: after every run whose branches are sent, every branch that `t_pick_branch` waits for has a live FR
timer. The timer can fire, its handler settles the branch for good, and there are at most `MAX_BRANCHES` of them. -/
theorem no_orphan_of_sends (w₀ : World) (events : List Event) (w : World) (h₀ : w₀.Init) (hev : ∀ ev ∈ events, ev.Sends)
    (h : exec World.step w₀ events = some w) :
    w.trans.NoOrphan ∧
      (w.trans.Open → ∀ b, w.trans.Pending b → ∀ noisy readOnly env, ∃ w',
        exec World.step w ((w.trans.uac b).frTimer.toFire b ++ [.frHandle b noisy readOnly env]) = some w' ∧
          w'.trans.Settled b) ∧
      (w.trans.tPickBranch = .pending ↔ ∃ b, w.trans.Pending b) ∧
      (∀ events w' b, exec World.step w events = some w' → w.trans.Settled b → w'.trans.Settled b) ∧
      w.trans.nrOfOutgoings ≤ maxBranches := by
  have hr : w.Reachable := ⟨w₀, events, h₀, h⟩
  have hsent : w.AllSent := by
    refine exec_allSent ⟨h₀.sane, fun _ => ?_⟩ hev h
    obtain ⟨_, _, _, _, rfl⟩ := h₀
    rfl
  have hlive : w.trans.Open → ∀ b, w.trans.Pending b → (w.trans.uac b).frTimer.live := by
    intro ho b hp
    rcases hr.guarded ho b hp with hl | hu | ⟨_, hc, -⟩
    · exact hl
    · rw [hsent ho] at hu
      cases hu
    · cases hc
  refine ⟨fun ho b horphan => ?_, fun ho b hp noisy readOnly env => exec_frHandle (hlive ho b hp) noisy readOnly env,
    tPickBranch_pending, fun events w' b hexec hset => ?_, hr.bound⟩
  · have hl := hlive ho b horphan.1
    rw [horphan.2] at hl
    cases hl
  · have hinv : w'.Sane ∧ w'.trans.Settled b := by
      refine exec_invariant (I := fun w => w.Sane ∧ w.trans.Settled b) (fun w ev w' hw hstep => ?_) hexec
        ⟨hr.sane, hset⟩
      exact ⟨step_sane hw.1 hstep, (step_moves hw.1 hstep).settled hw.2⟩
    exact hinv.2

/-- Two branches are sent, one rings, and the FR timer of the other one fires: the first is still waited for. -/
theorem no_orphan_forked : ∃ w : World, exec World.step ⟨{ isInvite := true }, []⟩
    [.relay [.smooth, .smooth], .received 0 180 .smooth, .frSplit 1, .frFire 1, .frHandle 1 false false .smooth] =
      some w ∧ w.trans.Open ∧ w.trans.tPickBranch = .pending ∧ w.trans.NoOrphan := by
  have hshown : (exec World.step ⟨{ isInvite := true }, []⟩ [.relay [.smooth, .smooth],
    .received 0 180 .smooth, .frSplit 1,
      .frFire 1, .frHandle 1 false false .smooth]).any
        (fun w => decide ((w.trans.status < 200 ∧ w.trans.onWait = false) ∧
        w.trans.tPickBranch = .pending)) = true := by
    decide +kernel
  obtain ⟨w, hexec, hopen, hpick⟩ := Lib.exists_of_any hshown
  refine ⟨w, hexec, hopen, hpick, (no_orphan_of_sends _ _ w ⟨true, false, false, false, rfl⟩ ?_ hexec).1⟩
  have hpick : Trans.PickEnv.smooth.Sends := ⟨List.forall_mem_nil _, List.forall_mem_nil _, List.forall_mem_nil _⟩
  simp only [List.forall_mem_cons, List.not_mem_nil, false_implies, implies_true, and_true]
  refine ⟨.inl ?_, hpick, trivial, trivial, hpick⟩
  simp [Sends, BranchEnv.smooth]

/-- One of two branches cannot be sent. When the other one has failed, `t_pick_branch` still waits, no FR timer is live
and nothing is left to do. -/
theorem forked_unsent_orphan : ∃ w : World, w.Reachable ∧ w.trans.Open ∧ w.trans.Orphan 1 ∧ ¬w.trans.NoOrphan ∧
    w.trans.tPickBranch = .pending ∧ (∀ b < maxBranches, (w.trans.uac b).frTimer.live = false) ∧ w.pending = [] := by
  obtain ⟨w, hr, ⟨hs, hwait, hbranches⟩, hbuf, hlast, hrest⟩ : ∃ w : World, w.Reachable ∧
      (w.trans.status = 0 ∧ w.trans.onWait = false ∧ w.trans.branches = [0, 1]) ∧ (w.trans.uac 1).buffer ∧
      (w.trans.uac 1).lastReceived = 0 ∧ w.trans.tPickBranch = .pending ∧
      (∀ b < maxBranches, (w.trans.uac b).frTimer.live = false) ∧ w.pending = [] :=
    exists_invite [.relay [.smooth, { BranchEnv.smooth with sent := false }], .received 0 404 .smooth]
      (by decide +kernel)
  have hopen : w.trans.Open := ⟨by omega, hwait⟩
  have horphan : w.trans.Orphan 1 := ⟨⟨by simp [hbranches], hbuf, by omega⟩, hrest.2.1 1 (by decide)⟩
  exact ⟨w, hr, hopen, horphan, fun hno => hno hopen 1 horphan, hrest⟩

end OpenSer.Tm

