import OpenSer.Tm.HTable

/-!
# A transaction as reply processing sees it

The cell of a proxied transaction: its branches, what was sent upstream, and the functions on it that everything else
uses: the FR timers of the branches, the selection of branches to cancel (`t_cancel.c`), and the end of a transaction.
What a call needs from outside (memory, DNS, the network, the script) is an argument.

A bitmap of branches is a list that holds the branches whose bit is set. Some fields are histories that no function
reads: `sent`, `unsent`, `selected`, `handed`, `cancels`.
-/

namespace OpenSer.Tm

open Function

/-- `uac.reply`: null, `FAKED_REPLY`, or a message, of which the status matters. -/
inductive UacReply where
  | null
  | faked
  | msg (status : Nat)
  deriving Repr, DecidableEq

/-- `local_cancel.buffer.s`: null, `BUSY_BUFFER`, or a CANCEL. -/
inductive LocalCancel where
  | null
  | busy
  | built
  deriving Repr, DecidableEq

/-! ## FR timers -/

/-- The FR timer of a request: `timer_list` and `deleted` of its link, and where the timer process is with it. -/
inductive FrTimer where
  | off
  /-- On the FR or FR_INV list. -/
  | set
  /-- On the list, and `deleted`. -/
  | deleted
  /-- On the detached list of the timer process. -/
  | detached
  /-- In its handler. -/
  | fired
  /-- Still marked as detached, but no handler will run. -/
  | lost
  deriving Repr, DecidableEq

namespace FrTimer

/-- `set_timer`, which ignores a detached timer. -/
def setTimer : FrTimer → FrTimer
  | .off => .set
  | .set => .set
  | .deleted => .set
  | tl => tl

def resetTimer : FrTimer → FrTimer
  | .set => .deleted
  | .detached => .lost
  | tl => tl

/-- `check_and_split_time_list` takes the timer off its list. -/
def split : FrTimer → FrTimer
  | .set => .detached
  | .deleted => .lost
  | tl => tl

/-- The timer will run its handler, or runs it. -/
def live : FrTimer → Bool
  | .set => true
  | .detached => true
  | .fired => true
  | _ => false

theorem live_setTimer {tl : FrTimer} (h : tl.live) : tl.setTimer.live := by
  cases tl <;> first | rfl | cases h

theorem live_split {tl : FrTimer} (h : tl.live) : tl.split.live := by
  cases tl <;> first | rfl | cases h

end FrTimer

/-! ## The cell -/

structure UaClient where
  /-- `request.buffer.s` is set. -/
  buffer : Bool := false
  /-- `proxy` is set. -/
  proxy : Bool := false
  /-- `request.fr_timer`. -/
  frTimer : FrTimer := .off
  lastReceived : Nat := 0
  reply : UacReply := .null
  /-- `T_UAC_HAS_RECV_REPLY`. -/
  hasRecvReply : Bool := false
  /-- `T_UAC_TO_CANCEL_FLAG`. -/
  toCancel : Bool := false
  localCancel : LocalCancel := .null
  deriving Repr, DecidableEq

/-- `struct cell`, for a proxied transaction. -/
structure Trans where
  isInvite : Bool
  /-- The method of `uas.request` is CANCEL. -/
  isCancel : Bool := false
  wasCancelled : Bool := false
  hopbyhopCancel : Bool := false
  noNewBranches : Bool := false
  noDnsFailover : Bool := false
  noisyCtimer : Bool := false
  firstBranch : Nat := 0
  nrOfOutgoings : Nat := 0
  uac : Nat → UaClient := fun _ => {}
  /-- `uas.status`. -/
  status : Nat := 0
  /-- `relaied_reply_branch` is -2: the reply is local. -/
  localReply : Bool := false
  /-- `on_negative` is set. -/
  onNegative : Bool := false
  /-- `has_tran_tmcbs(t, TMCB_ON_FAILURE)`. -/
  onFailure : Bool := false
  /-- On the WAIT list, or behind it. -/
  onWait : Bool := false
  /-- The codes sent upstream. -/
  sent : List Nat := []
  /-- The branches that `t_forward_nonack` could not send. -/
  unsent : List Nat := []
  /-- The branches `should_cancel_branch` said yes for, with `last_received`. -/
  selected : List (Nat × Nat) := []
  /-- The bitmaps given to `cancel_uacs`. -/
  handed : List (List Nat) := []
  /-- The branches a CANCEL was built for. -/
  cancels : List Nat := []
  /-- `cancel_branch` met a CANCEL that was already built. -/
  aborted : Bool := false
  /-- A null reply was dereferenced. -/
  crashed : Bool := false

namespace Trans

variable (t : Trans)

def branches : List Nat := List.range' t.firstBranch (t.nrOfOutgoings - t.firstBranch)

def modify (b : Nat) (f : UaClient → UaClient) : Trans := { t with uac := update t.uac b (f (t.uac b)) }

/-! ## Cancelling -/

def shouldCancelBranch (b : Nat) : Trans × Bool :=
  let lastReceived := (t.uac b).lastReceived
  if (t.uac b).localCancel = .null then
    if 100 ≤ lastReceived ∧ lastReceived < 200 then
      ({ t.modify b ({ · with localCancel := .busy }) with selected := (b, lastReceived) :: t.selected }, true)
    -- set flag to catch the delayed replies
    else if lastReceived = 0 then (t.modify b ({ · with toCancel := true }), false)
    else (t, false)
  else (t, false)

def whichCancelLoop (t : Trans) : List Nat → Trans × List Nat
  | [] => (t, [])
  | b :: bs =>
    let (t, selected) := t.shouldCancelBranch b
    let (t, bm) := t.whichCancelLoop bs
    (t, if selected then b :: bm else bm)

/-- `which_cancel`: the branches it adds to the bitmap. -/
def whichCancel : Trans × List Nat := t.whichCancelLoop t.branches

/-- `cancel_branch`; `built` says whether `build_cancel` succeeds. -/
def cancelBranch (built : Bool) (b : Nat) : Trans :=
  let t := { t with aborted := t.aborted || (t.uac b).localCancel = .built }
  if built then { t.modify b ({ · with localCancel := .built }) with cancels := b :: t.cancels } else t

/-- The branches that the loop of `cancel_uacs` stops at. -/
def bits (bm : List Nat) : List Nat := (List.range t.nrOfOutgoings).filter (· ∈ bm)

def hand (bm : List Nat) : Trans := { t with handed := t.bits bm :: t.handed }

def cancelUacs (built : Nat → Bool) (bm : List Nat) : Trans :=
  (t.bits bm).foldl (fun t b => t.cancelBranch (built b) b) (t.hand bm)

/-! ## Timers and the end of a transaction -/

def resetFr (b : Nat) : Trans := t.modify b fun uac => { uac with frTimer := uac.frTimer.resetTimer }

/-- `set_timer` on the FR timer of a branch, with `T_NOISY_CTIMER_FLAG` if its length comes from an AVP. -/
def setFr (avp : Bool) (b : Nat) : Trans :=
  { t.modify b fun uac => { uac with frTimer := uac.frTimer.setTimer } with noisyCtimer := t.noisyCtimer || avp }

def cleanupUacTimers : Trans :=
  { t with uac := fun b =>
      if b ∈ t.branches then { t.uac b with frTimer := (t.uac b).frTimer.resetTimer } else t.uac b }

def putOnWait : Trans := { t with onWait := true }

/-- `set_final_timer`; the timers of the response are not modelled. -/
def setFinalTimer : Trans :=
  if t.isInvite ∧ (300 ≤ t.status ∨ t.localReply ∧ 200 ≤ t.status) then t else t.putOnWait

end Trans

end OpenSer.Tm
