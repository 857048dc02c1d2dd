import OpenSer.Lib.Traces
import OpenSer.Tm.TReply

/-!
# Runs of a transaction

All that happens to a proxied transaction, from `t_newtran` on: the script relays or replies, replies arrive, timers
fire, a CANCEL comes. One event is one call, up to where its process leaves the REPLY lock for the last time; what the
process does afterwards waits in `pending`, and `Event.proceed` does some of it. So processes interleave in every way.

* `World.step`: one event; it has no result when the event cannot happen.
* `World.Reachable`: the states of all runs of a new transaction.
-/

namespace OpenSer.Tm

open Lib (exec)

/-- `err2reason` and `t_reply` of `kill_transaction`. -/
structure KillEnv where
  code : Nat
  reply : ReplyEnv

inductive Event where
  /-- `t_relay_to` behind the 100, with its flags `TM_T_REPLY_nodnsfo_FLAG` and `TM_T_REPLY_noerr_FLAG`. -/
  | relayTo (nodnsfo noerr : Bool) (envs : List BranchEnv) (kill : KillEnv)
  /-- `t_reply`. -/
  | reply (code : Nat) (env : ReplyEnv)
  | addBlindUac (frAvp : Bool)
  /-- `t_on_failure`. -/
  | onNegative (set : Bool)
  /-- `register_tmcb` for `TMCB_ON_FAILURE`. -/
  | onFailure
  /-- `t_release_transaction`. -/
  | release
  /-- The FR timer of a response. -/
  | responseTimeout
  /-- A reply to the request of a branch arrives. -/
  | received (b status : Nat) (env : Trans.ReceivedEnv)
  /-- The FR timer of a branch expires. -/
  | frSplit (b : Nat)
  /-- The timer process calls the handler of a timer. -/
  | frFire (b : Nat)
  /-- The handler gets the lock. -/
  | frHandle (b : Nat) (noisy readOnly : Bool) (env : Trans.RelayEnv)
  /-- A retransmission cannot be sent. -/
  | retransmissionFailed (b : Nat) (request : Bool) (env : Trans.RelayEnv)
  /-- `cancel_invite`. -/
  | cancelInvite
  /-- A process goes on with the `i`-th task: whether `build_cancel` succeeds, whether there is an AVP for the timer,
  and what `Trans.internalCancel` meets. -/
  | proceed (i : Nat) (built frAvp late : Bool) (junk : List Nat) (env : Trans.RelayEnv)

/-! ## Runs without trouble -/

/-- The response is built, and so are the CANCELs. -/
def ReplyEnv.smooth : ReplyEnv := ⟨true, true, fun _ => true, []⟩

def Trans.PickEnv.smooth : Trans.PickEnv := ⟨false, true, [], false, true, [], []⟩

def Trans.RelayEnv.smooth : Trans.RelayEnv := ⟨.smooth, true, true, true, .smooth⟩

def Trans.ReceivedEnv.smooth : Trans.ReceivedEnv := ⟨false, true, false, .smooth⟩

def BranchEnv.smooth : BranchEnv := ⟨.added, true, false⟩

def Event.relay (envs : List BranchEnv) : Event := .relayTo false false envs ⟨500, .smooth⟩

/-! ## Events -/

/-- A transaction, and what processes have to do with it behind the lock. -/
structure World where
  trans : Trans
  pending : List Task := []

namespace Trans

def tRelayTo (t : Trans) (nodnsfo noerr : Bool) (envs : List BranchEnv) (kill : KillEnv) : Trans × List Task :=
  let (t, ok) := { t with noDnsFailover := t.noDnsFailover || nodnsfo }.tForwardNonack envs
  if ok ∨ noerr then (t, []) else t.tReply kill.code kill.reply

def doTask (t : Trans) (built frAvp late : Bool) (junk : List Nat) (env : RelayEnv) : Task → Trans × List Task
  | .cancel b => (t.cancelBranch built b, [])
  | .frInv b => (t.setFr frAvp b, [])
  | .internal b => t.internalCancel b late junk env

end Trans

namespace World

/-- A process has done what happens under the lock. -/
def leave (w : World) (r : Trans × List Task) : World := ⟨r.1, r.2 ++ w.pending⟩

def step (w : World) : Event → Option World
  | .relayTo nodnsfo noerr envs kill => some (w.leave (w.trans.tRelayTo nodnsfo noerr envs kill))
  | .reply code env => some (w.leave (w.trans.tReply code env))
  | .addBlindUac frAvp => some (w.leave (w.trans.addBlindUac frAvp, []))
  | .onNegative set => some (w.leave ({ w.trans with onNegative := set }, []))
  | .onFailure => some (w.leave ({ w.trans with onFailure := true }, []))
  | .release => some (w.leave (w.trans.cleanupUacTimers.putOnWait, []))
  | .responseTimeout => some (w.leave (w.trans.putOnWait, []))
  | .received b status env =>
    if b < w.trans.nrOfOutgoings then some (w.leave (w.trans.replyReceived b status env)) else none
  | .frSplit b => some (w.leave (w.trans.modify b fun uac => { uac with frTimer := uac.frTimer.split }, []))
  | .frFire b =>
    if (w.trans.uac b).frTimer = .detached then
      some (w.leave (w.trans.modify b ({ · with frTimer := .fired }), []))
    else none
  | .frHandle b noisy readOnly env =>
    if (w.trans.uac b).frTimer = .fired then some (w.leave (w.trans.finalResponseHandler b noisy readOnly env))
    else none
  | .retransmissionFailed b request env =>
    if b < w.trans.nrOfOutgoings then some (w.leave (w.trans.retransmissionFailed b request env)) else none
  | .cancelInvite => if w.trans.isInvite then some (w.leave w.trans.cancelInvite) else none
  | .proceed i built frAvp late junk env =>
    match w.pending[i]? with
    | some task => some ({ w with pending := w.pending.eraseIdx i }.leave
        (w.trans.doTask built frAvp late junk env task))
    | none => none

/-- A new transaction: no branch yet, nothing sent, nothing on any list. -/
def Init (w : World) : Prop :=
  ∃ isInvite isCancel hopbyhopCancel noDnsFailover,
    w = ⟨{ isInvite := isInvite, isCancel := isCancel, hopbyhopCancel := hopbyhopCancel,
            noDnsFailover := noDnsFailover }, []⟩

def Reachable (w : World) : Prop := ∃ w₀ events, Init w₀ ∧ exec step w₀ events = some w

/-- The state that events lead an INVITE to, with what can be decided of it. -/
theorem exists_invite (events : List Event) {P : World → Prop} [DecidablePred P]
    (h : (exec step ⟨{ isInvite := true }, []⟩ events).any (fun w => decide (P w)) = true) :
      ∃ w : World, w.Reachable ∧ P w := by
  obtain ⟨w, hexec, hP⟩ := Lib.exists_of_any h
  exact ⟨w, ⟨_, events, ⟨true, false, false, false, rfl⟩, hexec⟩, hP⟩

end World

end OpenSer.Tm
