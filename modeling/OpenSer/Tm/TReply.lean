import OpenSer.Tm.TFwd

/-!
# Replies

`t_reply.c`, and the replies that the timers (`timer.c`) and a CANCEL (`t_fwd.c`) fake: `_reply_light`, `t_pick_branch`,
`t_should_relay_response` with DNS failover and the failure handlers, `relay_reply`, `fake_reply`, `reply_received`.

What runs under the REPLY lock is one function here. Together with the transaction it returns what its process still has
to do behind the lock.
-/

namespace OpenSer.Tm

inductive Rps where
  | error
  | store
  | pushedAfterCompletion
  | discarded
  | completed
  | provisional
  deriving Repr, DecidableEq

inductive Task where
  /-- `cancel_branch`. -/
  | cancel (b : Nat)
  /-- The FR timer of an INVITE changes to FR_INV. -/
  | frInv (b : Nat)
  /-- `cancel_invite` comes to a branch. -/
  | internal (b : Nat)
  deriving Repr, DecidableEq

structure ReplyEnv where
  /-- The response could be built. -/
  built : Bool
  /-- `shm_resize` succeeds. -/
  shm : Bool
  /-- `build_cancel` succeeds. -/
  cancel : Nat → Bool
  /-- What `cancel_bitmap` holds before it is set. -/
  junk : List Nat

namespace Trans

variable (t : Trans)

def send (code : Nat) : Trans := { t with sent := t.sent ++ [code] }

/-! ## Local replies -/

/-- `_reply_light`, and the bitmap that it gives to `cancel_uacs`. -/
def replyLight (code : Nat) (env : ReplyEnv) : Trans × List Nat :=
  let (t₁, bm) := if t.isInvite then t.whichCancel else (t, [])
  if ¬env.built then
    -- the bitmap has not been set
    (t₁.cleanupUacTimers.putOnWait, if t.isInvite then env.junk ++ bm else [])
  else if 200 ≤ t₁.status then (t₁.cleanupUacTimers.putOnWait, bm)
  else
    let t₂ := { t₁ with status := code }
    if ¬env.shm then (t₂.cleanupUacTimers.putOnWait, bm)
    else
      let t₃ := { t₂ with localReply := true }
      if 200 ≤ code ∧ ¬t₃.hopbyhopCancel then (t₃.cleanupUacTimers.setFinalTimer.send code, bm)
      else (t₃.send code, [])

def tReplyUnsafe (code : Nat) (env : ReplyEnv) : Trans :=
  let (t, bm) := t.replyLight code env
  t.cancelUacs env.cancel bm

def tReply (code : Nat) (env : ReplyEnv) : Trans × List Task :=
  let (t, bm) := t.replyLight code env
  (t.hand bm, (t.bits bm).map .cancel)

/-! ## Failure handlers -/

inductive HandlerAct where
  | reply (code : Nat) (env : ReplyEnv)
  | relay (envs : List BranchEnv)
  | addBlindUac (frAvp : Bool)
  | onFailure (set : Bool)

structure PickEnv where
  /-- `get_next_su` has another address. -/
  nextSu : Bool
  /-- `append_branch` succeeds. -/
  appended : Bool
  /-- The new destination. -/
  failover : List BranchEnv
  /-- The reply has a Retry-After header. -/
  retryAfter : Bool
  /-- `fake_req` succeeds. -/
  faked : Bool
  /-- `TMCB_ON_FAILURE`. -/
  callbacks : List HandlerAct
  /-- `failure_route`. -/
  route : List HandlerAct

def handle : HandlerAct → Trans
  | .reply code env => t.tReplyUnsafe code env
  | .relay envs => (t.tForwardNonack envs).1
  | .addBlindUac frAvp => t.addBlindUac frAvp
  | .onFailure set => { t with onNegative := set }

def runFailureHandlers (env : PickEnv) : Trans :=
  if t.isCancel ∨ ¬env.faked then t
  else
    let t := if t.onFailure then env.callbacks.foldl handle t else t
    if t.onNegative then env.route.foldl handle { t with onNegative := false } else t

def is3263Failure (picked : Nat) (env : PickEnv) : Bool :=
  match (t.uac picked).lastReceived, (t.uac picked).reply with
  | 408, _ => !(t.uac picked).hasRecvReply
  | 503, .msg _ => env.retryAfter
  | _, _ => false

/-- `do_dns_failover`; whether it returns 0. -/
def doDnsFailover (env : PickEnv) : Trans × Bool :=
  if env.nextSu ∧ env.faked ∧ env.appended then t.tForwardNonack env.failover else (t, false)

/-! ## The decision -/

/-- What `t_pick_branch` returns: -2, -1, or the branch with its code. -/
inductive Pick where
  | pending
  | none
  | branch (b code : Nat)
  deriving Repr, DecidableEq

/-- A branch with the code `code` is better than the best so far. -/
def beats (cancelled : Bool) (code : Nat) : Pick → Bool
  | .branch _ lowest =>
    (cancelled ∧ code = 487) ∨
      ((lowest ≠ 487 ∨ ¬cancelled) ∧ (lowest = 503 ∨ (code ≠ 503 ∧ code < lowest)))
  | _ => true

def pickLoop (t : Trans) (lowest : Pick) : List Nat → Pick
  | [] => lowest
  | b :: bs =>
    if ¬(t.uac b).buffer then t.pickLoop lowest bs
    else if (t.uac b).lastReceived < 200 then .pending
    else if beats t.wasCancelled (t.uac b).lastReceived lowest then
      t.pickLoop (.branch b (t.uac b).lastReceived) bs
    else t.pickLoop lowest bs

def tPickBranch : Pick := t.pickLoop .none t.branches

/-- What `t_should_relay_response` returns. -/
structure Decision where
  trans : Trans
  rps : Rps
  store : Bool
  relay : Option Nat
  /-- The branches that it adds to the bitmap. -/
  cancel : List Nat

def discard : Decision := ⟨t, .discarded, false, none, []⟩

def setReply (b : Nat) (reply : UacReply) : Trans := t.modify b ({ · with reply := reply })

def receive (b code : Nat) : Trans := t.modify b ({ · with lastReceived := code })

/-- The failure logic of `t_should_relay_response`, with the number of branches that it compares with afterwards. -/
def failureLogic (picked : Nat) (env : PickEnv) : Trans × Nat :=
  let cnt := t.nrOfOutgoings
  let (t, cnt) :=
    if ¬t.noDnsFailover ∧ (t.uac picked).proxy ∧ t.is3263Failure picked env then
      let (t, ok) := t.doDnsFailover env
      -- skip the failed added branches
      (t, if ok then cnt else t.nrOfOutgoings)
    else (t, cnt)
  (if cnt = t.nrOfOutgoings ∧ (t.onFailure ∨ t.onNegative) then t.runFailureHandlers env else t, cnt)

/-- `t_should_relay_response` once a branch has been picked. -/
def picked (branch picked : Nat) (bm : List Nat) (env : PickEnv) : Decision :=
  let (t, cnt) := t.failureLogic picked env
  let t := t.setReply branch .null
  if 200 ≤ t.status then ⟨t, .completed, false, none, bm⟩
  else if cnt < t.nrOfOutgoings then ⟨t, .store, true, none, bm⟩
  else ⟨t, .completed, false, some picked, bm⟩

def tShouldRelayResponse (newCode branch : Nat) (reply : UacReply) (env : PickEnv) : Decision :=
  let invThrough := 200 ≤ newCode ∧ newCode < 300 ∧ t.isInvite
  if 200 ≤ t.status then
    if invThrough then ⟨t.receive branch newCode, .pushedAfterCompletion, false, some branch, []⟩
    else if t.hopbyhopCancel ∧ 200 ≤ newCode then ⟨t, .completed, false, none, []⟩
    else t.discard
  else if 200 ≤ (t.uac branch).lastReceived ∧ ¬(invThrough ∧ (t.uac branch).lastReceived < 300) then t.discard
  else if 300 ≤ newCode then
    let t := (t.receive branch newCode).setReply branch reply
    if 600 ≤ newCode then
      let (t, bm) := t.whichCancel
      { t with noNewBranches := true }.picked branch branch bm env
    else
      match t.tPickBranch with
      | .pending => ⟨t.setReply branch .null, .store, true, none, []⟩
      | .none => (t.setReply branch .null).discard
      | .branch b _ => t.picked branch b [] env
  else if 100 ≤ newCode then
    let t := t.receive branch newCode
    -- 1xx and 2xx except 100 will be relayed
    let relay := if newCode = 100 then none else some branch
    if 200 ≤ newCode then
      let (t, bm) := t.whichCancel
      ⟨t, .completed, false, relay, bm⟩
    else ⟨t, .provisional, false, relay, []⟩
  else t.discard

/-! ## Relaying -/

structure RelayEnv where
  pick : PickEnv
  /-- `sip_msg_cloner` succeeds. -/
  cloned : Bool
  /-- The outbound reply could be built. -/
  built : Bool
  /-- `shm_resize` succeeds. -/
  shm : Bool
  /-- For the 500 of the error path. -/
  error : ReplyEnv

/-- What `relay_reply` returns, with the branches that it cancels itself behind the lock. -/
structure Relayed where
  trans : Trans
  rps : Rps
  bm : List Nat
  tasks : List Task

/-- The error path of `relay_reply`. -/
def relayError (bm : List Nat) (env : RelayEnv) : Relayed :=
  let t := t.tReplyUnsafe 500 env.error
  if t.isInvite then ⟨t.hand bm, .error, bm, (t.bits bm).map .cancel⟩ else ⟨t, .error, bm, []⟩

/-- The code of the reply that is relayed: of the current one, or of one that was stored. -/
def relayedCode (reply : UacReply) (branch msgStatus relay : Nat) : Option Nat :=
  match if branch = relay then reply else (t.uac relay).reply with
  | .null => none
  | .faked => some (if branch = relay then msgStatus else (t.uac relay).lastReceived)
  | .msg status => some status

/-- `set_final_timer` for a transaction that completes now. -/
def finish (rps : Rps) : Trans := if rps = .completed then t.setFinalTimer else t

/-- `relay_reply` with a branch to relay. -/
def relayBranch (rps : Rps) (reply : UacReply) (branch msgStatus relay : Nat) (bm : List Nat)
    (env : RelayEnv) : Relayed :=
  match t.relayedCode reply branch msgStatus relay with
  | none => ⟨{ t with crashed := true }, .error, bm, []⟩
  | some code =>
    if ¬env.built ∨ ¬env.shm then t.relayError bm env
    else ⟨({ t with status := code, localReply := false }.finish rps).send code, rps, bm, []⟩

def relayDecision (d : Decision) (reply : UacReply) (branch msgStatus : Nat) (bm : List Nat)
    (env : RelayEnv) : Relayed :=
  if d.store then
    if reply ≠ .faked ∧ ¬env.cloned then d.trans.relayError bm env
    else ⟨d.trans.setReply branch reply, d.rps, bm, []⟩
  else
    match d.relay with
    | none => ⟨d.trans.finish d.rps, d.rps, bm, []⟩
    | some relay => d.trans.relayBranch d.rps reply branch msgStatus relay bm env

def relayReply (reply : UacReply) (branch msgStatus : Nat) (bm : List Nat) (env : RelayEnv) : Relayed :=
  let d := t.tShouldRelayResponse msgStatus branch reply env.pick
  relayDecision d reply branch msgStatus (d.cancel ++ bm) env

/-! ## The callers of `relay_reply` -/

def fakeReply (b code : Nat) (env : RelayEnv) : Trans × List Task :=
  let (t, doCancel) := if t.isInvite then t.shouldCancelBranch b else (t, false)
  let own := if doCancel then [b] else []
  let r := t.relayReply .faked b code own env
  (r.trans, r.tasks ++ own.map .cancel)

structure ReceivedEnv where
  /-- There is an `on_reply` block, and it drops the reply. -/
  dropped : Bool
  /-- `build_cancel` succeeds. -/
  cancel : Bool
  /-- `restart_fr_on_each_reply`. -/
  restartFr : Bool
  relay : RelayEnv

/-- A delayed reply of a branch that was to be cancelled. -/
def cancelDelayed (b status : Nat) (built : Bool) : Trans :=
  if (t.uac b).toCancel then
    (if status < 200 then t.cancelBranch built b else t).modify b ({ · with toCancel := false })
  else t

/-- `reply_received` from the call of `relay_reply` on. -/
def relayReceived (b status lastUacStatus : Nat) (env : ReceivedEnv) : Trans × List Task :=
  let r := t.relayReply (.msg status) b status [] env.relay
  match r.rps with
  | .completed =>
    let t := r.trans.cleanupUacTimers
    if t.isInvite then (t.hand r.bm, (t.bits r.bm).map .cancel) else (t, [])
  | .provisional =>
    let restart := env.restartFr ∨ lastUacStatus < status ∧ (180 ≤ status ∨ lastUacStatus = 0)
    (r.trans, if status < 200 ∧ restart ∧ t.isInvite then [.frInv b] else [])
  | _ => (r.trans, r.tasks)

/-- `reply_received`, for a reply to the request of a branch. -/
def replyReceived (b status : Nat) (env : ReceivedEnv) : Trans × List Task :=
  let lastUacStatus := (t.uac b).lastReceived
  -- stop final response timer only if I got a final response
  let t := if 200 ≤ status then t.resetFr b else t
  if env.dropped ∧ status < 200 then (t, [])
  else
    let t := t.modify b ({ · with hasRecvReply := true })
    (t.cancelDelayed b status env.cancel).relayReceived b status lastUacStatus env

/-- `final_response_handler` on the request of a branch; `noisy` is `noisy_ctimer`, and `readOnly` stands for
`TMCB_ON_FAILURE_RO`. -/
def finalResponseHandler (b : Nat) (noisy readOnly : Bool) (env : RelayEnv) : Trans × List Task :=
  let t := t.modify b ({ · with frTimer := .lost })
  let silent := t.isInvite ∧ t.nrOfOutgoings = 1 ∧ ¬t.onNegative ∧ ¬t.onFailure ∧ ¬readOnly ∧
    0 < (t.uac b).lastReceived ∧ ¬noisy ∧ ¬t.noisyCtimer
  if silent then (t.putOnWait, []) else t.fakeReply b 408 env

/-- `retransmission_handler` when it cannot send: the request of a branch, or its CANCEL. -/
def retransmissionFailed (b : Nat) (request : Bool) (env : RelayEnv) : Trans × List Task :=
  (if request then t.resetFr b else t).fakeReply b 503 env

/-- `cancel_invite` on the INVITE: local cancels for all branches, then all branches are visited. -/
def cancelInvite : Trans × List Task :=
  let (t, bm) := { t with wasCancelled := true }.whichCancel
  (t.hand bm, (t.bits bm).map .cancel ++ t.branches.map .internal)

/-- A branch with no received reply is cancelled internally. A reply that arrives behind the check is too `late`; `junk`
is what `dummy_bm` holds. -/
def internalCancel (b : Nat) (late : Bool) (junk : List Nat) (env : RelayEnv) : Trans × List Task :=
  if (t.uac b).lastReceived = 0 ∨ late then
    let r := (t.resetFr b).relayReply .faked b 487 junk env
    (r.trans, r.tasks)
  else (t, [])

end Trans

end OpenSer.Tm
