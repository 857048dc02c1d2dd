import OpenSer.Tm.Trans

/-!
# Adding and sending branches

`add_blind_uac`, `add_uac` and `t_forward_nonack` on a transaction. The branch route, the resolver, the building of the
request and the network are outcomes.
-/

namespace OpenSer.Tm

/-- Where `add_uac` ends once there is room for a branch. -/
inductive AddUac where
  /-- In `pre_print_uac_request` or `uri2proxy`. -/
  | unprepared
  /-- In `shm_clone_proxy`. -/
  | uncloned
  /-- In `update_uac_dst`. -/
  | unbuilt
  | added
  deriving Repr, DecidableEq

/-- How one destination of `t_forward_nonack` fares. -/
structure BranchEnv where
  add : AddUac
  /-- The loop over the addresses ends with `ser_error` 0: one is not blacklisted and the request goes out. -/
  sent : Bool
  /-- There is an AVP for the FR timer. -/
  frAvp : Bool := false
  deriving Repr, DecidableEq

namespace Trans

/-- `add_blind_uac`; it fails when there is no branch left. -/
def addBlindUac (t : Trans) (frAvp : Bool) : Trans :=
  if t.nrOfOutgoings = maxBranches then t
  else { t with noisyCtimer := true, nrOfOutgoings := t.nrOfOutgoings + 1 }.setFr frAvp t.nrOfOutgoings

/-- `add_uac`: the branch, or an error. -/
def addUac (t : Trans) (add : AddUac) : Trans × Option Nat :=
  let b := t.nrOfOutgoings
  if b = maxBranches then (t, none)
  -- buffer rewrite attempt
  else if (t.uac b).buffer then (t, none)
  else
    match add with
    | .unprepared => (t, none)
    | .uncloned => (if t.noDnsFailover then t else t.modify b ({ · with proxy := false }), none)
    | .unbuilt => (if t.noDnsFailover then t else t.modify b ({ · with proxy := true }), none)
    | .added =>
      ({ t.modify b fun uac => { uac with buffer := true, proxy := uac.proxy || !t.noDnsFailover } with
        nrOfOutgoings := b + 1 }, some b)

/-- The calls of `add_uac` in `t_forward_nonack`: the branches that were added, with their outcomes. -/
def addUacs (t : Trans) : List BranchEnv → Trans × List (Nat × BranchEnv)
  | [] => (t, [])
  | env :: envs =>
    match t.addUac env.add with
    | (t, some b) =>
      let (t, added) := t.addUacs envs
      (t, (b, env) :: added)
    | (t, none) => t.addUacs envs

def sendUac (t : Trans) (b : Nat) (env : BranchEnv) : Trans :=
  if env.sent then t.setFr env.frAvp b else { t with unsent := b :: t.unsent }

def sendUacs (t : Trans) (added : List (Nat × BranchEnv)) : Trans := added.foldl (fun t x => t.sendUac x.1 x.2) t

/-- `t_forward_nonack`, for a request that is not a CANCEL with its INVITE; the result says whether it returns 1. -/
def tForwardNonack (t : Trans) (envs : List BranchEnv) : Trans × Bool :=
  if t.wasCancelled ∨ t.noNewBranches then (t, false)
  else
    let (t, added) := { t with firstBranch := t.nrOfOutgoings }.addUacs envs
    (t.sendUacs added, added.any (·.2.sent))

end Trans

end OpenSer.Tm
