import Mathlib.Data.Fintype.Basic
import OpenSer.Dialog.DlgHash

/-!
# The handlers of the dialog module

Each handler of `dlg_handlers.c` is cut where it enters or leaves a critical section: a process stands at a point of a
handler (`Pc`) and goes on to the next. What a handler does on its own before its first critical section belongs to its
first step. Callbacks of other modules, statistics and the database are accesses to the dialog, and nothing else here.

The transaction module calls `dlg_onreply` while it holds the transaction. It deletes the transaction, with the last
call, when nobody does. One process, the timer, runs `dlg_timer_routine`.
-/

namespace OpenSer.Dialog

open Function

inductive SeqMatchMode where
  | strictId
  | fallback
  | noId
  deriving Repr, DecidableEq

/-- What `dlg_onreq` finds in a request, and how its calls end. -/
structure InitialReq where
  /-- The tag of To, if there is a To header. -/
  toTag : Option Str
  /-- The method is CANCEL. -/
  isCancel : Bool
  /-- `dlg_flag` is set. -/
  hasDlgFlag : Bool
  /-- The tag of From, if there is a From header. -/
  fromTag : Option Str
  callid : Option Str
  /-- `build_new_dlg` and `populate_leg_info` succeed. -/
  built : Bool
  /-- `add_dlg_rr_param` succeeds. -/
  rrParam : Bool
  /-- `register_tmcb` succeeds. -/
  registered : Bool
  /-- `get_dlg_timeout`. -/
  timeout : Int
  deriving Repr, DecidableEq

/-- How `dlg_onroute` distinguishes the methods. -/
inductive ReqMethod where
  | prack
  | ack
  | bye
  | other
  deriving Repr, DecidableEq

def ReqMethod.event : ReqMethod → DlgEvent
  | .prack => .reqprack
  | .ack => .reqack
  | .bye => .reqbye
  | .other => .req

/-- Call-ID, From tag and To tag, as `pre_match_parse` returns them. -/
structure MatchKey where
  callid : Str
  ftag : Str
  ttag : Str
  deriving Repr, DecidableEq

/-- What `dlg_onroute` finds in a request within a dialog. -/
structure RouteReq where
  method : ReqMethod
  /-- The route parameter, if there is one: `h_entry` and `h_id`, if it can be parsed. -/
  routeParam : Option (Option (Nat × Nat))
  /-- `pre_match_parse`, if it succeeds. -/
  preMatch : Option MatchKey
  /-- `get_dlg_timeout`. -/
  timeout : Int
  deriving Repr, DecidableEq

/-- Why the transaction module calls `dlg_onreply`. -/
inductive Tmcb where
  | responseFwded
  /-- A response, with the tag of To and whether `populate_leg_info` succeeds. -/
  | responseOut (code : Nat) (toTag : Str) (legInfo : Bool)
  | transDeleted
  deriving Repr, DecidableEq

def replyEvent (code : Nat) : DlgEvent := if code < 200 then .rpl1xx else if code < 300 then .rpl2xx else .rpl3xx

/-- Where a process is: what it does next. -/
inductive Pc where
  | idle
  /-- `dlg_onreq` has linked the dialog. -/
  | onreqRegister (dlg : Nat) (rrParam registered : Bool) (timeout : Int)
  | onreqError (dlg : Nat)
  /-- `dlg_onreply` runs callbacks and returns. -/
  | onreplyCallbacks (dlg : Nat)
  | onreplyConfirmed (dlg : Nat) (toTag : Str) (legInfo : Bool)
  | onreplyInsert (dlg : Nat)
  | onreplyFailed (dlg : Nat) (unref : Nat)
  | onreplyUnref (dlg : Nat) (unref : Nat)
  /-- `dlg_onroute` has not found the dialog by the From tag. -/
  | onrouteGet (key : MatchKey) (dir : DlgDir) (req : RouteReq)
  /-- `dlg_onroute` has found the dialog by its number. -/
  | onrouteMatch (dlg : Nat) (req : RouteReq)
  | onrouteEvent (dlg : Nat) (req : RouteReq)
  | onrouteBye (dlg : Nat) (unref : Nat)
  | onrouteTerminated (dlg : Nat) (unref : Nat)
  | onrouteUpdate (dlg : Nat) (timeout : Int)
  | onrouteWithin (dlg : Nat)
  | onrouteUnref (dlg : Nat) (unref : Nat)
  | ontimeoutEvent (dlg : Nat)
  | ontimeoutExpired (dlg : Nat) (unref : Nat)
  | ontimeoutUnref (dlg : Nat) (unref : Nat)
  deriving Repr, DecidableEq

def Pc.dlg : Pc → Option Nat
  | .idle | .onrouteGet .. => none
  | .onreqRegister dlg .. | .onreqError dlg | .onreplyCallbacks dlg | .onreplyConfirmed dlg .. | .onreplyInsert dlg
  | .onreplyFailed dlg _ | .onreplyUnref dlg _ | .onrouteMatch dlg _ | .onrouteEvent dlg _ | .onrouteBye dlg _
  | .onrouteTerminated dlg _ | .onrouteUpdate dlg _ | .onrouteWithin dlg | .onrouteUnref dlg _ | .ontimeoutEvent dlg
  | .ontimeoutExpired dlg _ | .ontimeoutUnref dlg _ => some dlg

/-- The process is in `dlg_onreq` or `dlg_onreply`, called for a transaction. -/
def Pc.inTrans : Pc → Bool
  | .onreqRegister .. | .onreqError .. | .onreplyCallbacks .. | .onreplyConfirmed .. | .onreplyInsert ..
  | .onreplyFailed .. | .onreplyUnref .. => true
  | _ => false

inductive Call where
  | dlgOnreq (req : InitialReq)
  | dlgOnreply (dlg : Nat) (type : Tmcb)
  | dlgOnroute (req : RouteReq)
  /-- `dlg_timer_routine` up to the end of `get_expired_dlgs`. -/
  | dlgTimerRoutine (ticks : Nat)
  /-- The next turn of the loop of `dlg_timer_routine`, up to the call of `dlg_ontimeout`. -/
  | dlgOntimeout
  deriving DecidableEq

/-- What a process does: it starts a handler, or goes on, at some time. -/
inductive Act where
  | call (c : Call)
  | go (ticks : Nat)
  deriving DecidableEq

/-- The module and its processes. -/
structure World (ι : Type) where
  shm : Shm
  /-- The transaction has the callback of the dialog, and has not called it for `TMCB_TRANS_DELETED`. -/
  tmcb : Nat → Bool
  /-- `tl` of `dlg_timer_routine`, null when it is not in its loop. -/
  tl : Tl
  procs : ι → Pc
  timerProc : ι
  seqMatchMode : SeqMatchMode

namespace World

variable {ι : Type} [DecidableEq ι] (w : World ι) (p : ι)

/-- The process goes on at `pc`, with the shared memory `m`. -/
def goto (m : Shm) (pc : Pc) : World ι := { w with shm := m, procs := update w.procs p pc }

/-- `dlg_onreq` up to `link_dlg`. -/
def dlgOnreq (req : InitialReq) : World ι :=
  match req.toTag, req.fromTag, req.callid with
  | some toTag, some fromTag, some callid =>
    if toTag.length ≠ 0 ∨ req.isCancel ∨ ¬req.hasDlgFlag ∨ ¬req.built then w
    else w.goto p (w.shm.linkDlg callid fromTag 1) (.onreqRegister w.shm.fresh req.rrParam req.registered req.timeout)
  | _, _, _ => w

/-- `dlg_onreq` behind `link_dlg`: the route parameter, the callback and the lifetime. -/
def onreqRegister (dlg : Nat) (rrParam registered : Bool) (timeout : Int) : World ι :=
  let m := w.shm.touch dlg
  if (w.seqMatchMode ≠ .noId ∧ ¬rrParam) ∨ ¬registered then w.goto p m (.onreqError dlg)
  else
    { w.goto p (m.setCell dlg { m.cells dlg with lifetime := timeout }) .idle with tmcb := update w.tmcb dlg true }

/-- `next_state_dlg` of `dlg_onreply`, and what follows from its result. `reply` is what it reads of `param->rpl`,
unless that is null; where `unref` is read it has been set. -/
def onreplyEvent (dlg : Nat) (event : DlgEvent) (reply : Option (Str × Bool)) :
    Option (World ι) :=
  (w.shm.nextStateDlg dlg event).bind fun (m, st) =>
    if st.newState = .early then some (w.goto p m (.onreplyCallbacks dlg))
    else if st.newState = .confirmedNa ∧ st.oldState ≠ .confirmedNa ∧ st.oldState ≠ .confirmed then
      reply.map fun (toTag, legInfo) => w.goto p m (.onreplyConfirmed dlg toTag legInfo)
    else if st.oldState ≠ .deleted ∧ st.newState = .deleted then
      st.unref.map fun unref => w.goto p m (.onreplyFailed dlg unref)
    else some (w.goto p m .idle)

/-- Nobody else holds the transaction of the dialog. -/
def TransFree (dlg : Nat) : Prop := ∀ q, ¬((w.procs q).inTrans ∧ (w.procs q).dlg = some dlg)

instance [Fintype ι] (w : World ι) (dlg : Nat) : Decidable (w.TransFree dlg) :=
  inferInstanceAs (Decidable (∀ q, ¬((w.procs q).inTrans ∧ (w.procs q).dlg = some dlg)))

def dlgOnreply [Fintype ι] (w : World ι) (p : ι) (dlg : Nat) : Tmcb → Option (World ι)
  | .responseFwded => some (w.goto p w.shm (.onreplyCallbacks dlg))
  | .responseOut code toTag legInfo => w.onreplyEvent p dlg (replyEvent code) (some (toTag, legInfo))
  | .transDeleted =>
    if w.TransFree dlg then { w with tmcb := update w.tmcb dlg false }.onreplyEvent p dlg .tdel none else none

/-- `get_dlg` up to the end of its first `internal_get_dlg`. -/
def getDlg (key : MatchKey) (req : RouteReq) : World ι :=
  let hEntry := coreHash key.callid (if key.ftag.length ≠ 0 then some key.ftag else none) w.shm.size
  match w.shm.internalGetDlg hEntry.toNat key.callid key.ftag key.ttag .none with
  | (m, some dlg, _) => w.goto p m (.onrouteEvent dlg req)
  | (m, none, dir) => w.goto p m (.onrouteGet key dir req)

/-- The second `internal_get_dlg` of `get_dlg`. -/
def onrouteGet (key : MatchKey) (dir : DlgDir) (req : RouteReq) : World ι :=
  let hEntry := coreHash key.callid (if key.ttag.length ≠ 0 then some key.ttag else none) w.shm.size
  match w.shm.internalGetDlg hEntry.toNat key.callid key.ftag key.ttag dir with
  | (m, some dlg, _) => w.goto p m (.onrouteEvent dlg req)
  | (m, none, _) => w.goto p m .idle

/-- `dlg_onroute` up to its first critical section. -/
def dlgOnroute (req : RouteReq) : World ι :=
  let getByKey := match req.preMatch with
    | some key => w.getDlg p key req
    | none => w
  if w.seqMatchMode = .noId then getByKey
  else
    match req.routeParam with
    | none => if w.seqMatchMode = .strictId then w else getByKey
    | some none => w
    | some (some (hEntry, hId)) =>
      match w.shm.lookupDlg hEntry hId with
      | (m, some dlg) => w.goto p m (.onrouteMatch dlg req)
      | (m, none) => w.goto p m .idle

/-- `dlg_onroute` with the dialog of the route parameter: does it match? If not, it returns. -/
def onrouteMatch (dlg : Nat) (req : RouteReq) : World ι :=
  match req.preMatch with
  | none => w.goto p w.shm .idle
  | some key =>
    let m := w.shm.touch dlg
    match matchDialog (m.cells dlg) key.callid key.ftag key.ttag .none with
    | some _ => w.goto p m (.onrouteEvent dlg req)
    | none => w.goto p m .idle

/-- `next_state_dlg` of `dlg_onroute`, and what follows from its result. -/
def onrouteEvent (dlg : Nat) (req : RouteReq) : Option (World ι) :=
  let event := req.method.event
  (w.shm.nextStateDlg dlg event).bind fun (m, st) =>
    if event = .reqbye ∧ st.newState = .deleted ∧ st.oldState ≠ .deleted then
      st.unref.map fun unref => w.goto p m (.onrouteBye dlg (unref + 1))
    else if (event = .req ∨ event = .reqack) ∧ st.newState = .confirmed then
      some (w.goto p m (.onrouteUpdate dlg req.timeout))
    else some (w.goto p m (.onrouteUnref dlg 1))

/-- `next_state_dlg` of `dlg_ontimeout`, and what follows from its result. -/
def ontimeoutEvent (dlg : Nat) : Option (World ι) :=
  (w.shm.nextStateDlg dlg .reqbye).bind fun (m, st) =>
    if st.newState = .deleted ∧ st.oldState ≠ .deleted then
      st.unref.map fun unref => w.goto p m (.ontimeoutExpired dlg unref)
    else some (w.goto p m .idle)

def start [Fintype ι] (fuel : Nat) (w : World ι) (p : ι) : Call → Option (World ι)
  | .dlgOnreq req => if p = w.timerProc then none else some (w.dlgOnreq p req)
  | .dlgOnreply dlg type =>
    -- the transaction has the callback as long as it is not deleted
    if p = w.timerProc ∨ ¬w.tmcb dlg then none else w.dlgOnreply p dlg type
  | .dlgOnroute req => if p = w.timerProc then none else some (w.dlgOnroute p req)
  | .dlgTimerRoutine ticks =>
    if p ≠ w.timerProc ∨ w.tl ≠ .null then none
    else (w.shm.timer.getExpiredDlgs fuel ticks).map fun (timer, ret) =>
      { w with shm := { w.shm with timer := timer }, tl := ret }
  | .dlgOntimeout =>
    if p ≠ w.timerProc then none
    else
      match w.tl with
      | .dlg dlg =>
        let m := w.shm.touch dlg
        some { w.goto p { m with timer := (m.timer.unlinkExpired w.tl).1 } (.ontimeoutEvent dlg) with
          tl := (m.timer.unlinkExpired w.tl).2 }
      | _ => none

def go (fuel ticks : Nat) (w : World ι) (p : ι) : Pc → Option (World ι)
  | .idle => none
  | .onreqRegister dlg rrParam registered timeout => some (w.onreqRegister p dlg rrParam registered timeout)
  | .onreqError dlg => (w.shm.unrefDlg dlg 2).map (w.goto p · .idle)
  | .onreplyCallbacks dlg => some (w.goto p (w.shm.touch dlg) .idle)
  | .onreplyConfirmed dlg toTag legInfo =>
    let m := w.shm.touch dlg
    let m := if legInfo then m.setCell dlg { m.cells dlg with calleeTag := toTag } else m
    some (w.goto p m (.onreplyInsert dlg))
  | .onreplyInsert dlg =>
    let m := w.shm.touch dlg
    (m.timer.insertDlgTimer fuel ticks (.dlg dlg) (m.cells dlg).lifetime).map fun (timer, _) =>
      w.goto p { m with timer := timer } (.onreplyCallbacks dlg)
  | .onreplyFailed dlg unref => some (w.goto p (w.shm.touch dlg) (.onreplyUnref dlg unref))
  | .onreplyUnref dlg unref => (w.shm.unrefDlg dlg unref).map (w.goto p · .idle)
  | .onrouteGet key dir req => some (w.onrouteGet p key dir req)
  | .onrouteMatch dlg req => some (w.onrouteMatch p dlg req)
  | .onrouteEvent dlg req => w.onrouteEvent p dlg req
  | .onrouteBye dlg unref =>
    let m := w.shm.touch dlg
    (m.timer.removeDlgTimer (.dlg dlg)).map fun (timer, _) =>
      w.goto p { m with timer := timer } (.onrouteTerminated dlg unref)
  | .onrouteTerminated dlg unref => some (w.goto p (w.shm.touch dlg) (.onrouteUnref dlg unref))
  | .onrouteUpdate dlg timeout =>
    let m := w.shm.touch dlg
    let m := m.setCell dlg { m.cells dlg with lifetime := timeout }
    (m.timer.updateDlgTimer fuel ticks (.dlg dlg) timeout).map fun (timer, ret) =>
      w.goto p { m with timer := timer } (if ret ≠ -1 then .onrouteWithin dlg else .onrouteUnref dlg 1)
  | .onrouteWithin dlg => some (w.goto p (w.shm.touch dlg) (.onrouteUnref dlg 1))
  | .onrouteUnref dlg unref => (w.shm.unrefDlg dlg unref).map (w.goto p · .idle)
  | .ontimeoutEvent dlg => w.ontimeoutEvent p dlg
  | .ontimeoutExpired dlg unref => some (w.goto p (w.shm.touch dlg) (.ontimeoutUnref dlg unref))
  | .ontimeoutUnref dlg unref => (w.shm.unrefDlg dlg unref).map (w.goto p · .idle)

def exec [Fintype ι] (fuel : Nat) (w : World ι) (p : ι) : Act → Option (World ι)
  | .call c => if w.procs p = .idle then w.start fuel p c else none
  | .go ticks => w.go fuel ticks p (w.procs p)

/-- A step of some process, with as much fuel as it needs. -/
def Step [Fintype ι] (w : World ι) (a : ι × Act) (w' : World ι) : Prop := ∃ fuel, w.exec fuel a.1 a.2 = some w'

/-- No handler is running. -/
def Quiet : Prop := ∀ p, w.procs p = .idle

end World

/-- After `init_dlg_table` and `init_dlg_timer`. -/
def Shm.init (size : BitVec 32) (rand : Nat → BitVec 32) : Shm where
  size := size
  entries _ := []
  nextId := rand
  cells _ := ⟨0, 0, 0, .unconfirmed, false, 0, [], [], []⟩
  fresh := 0
  freed _ := false
  timer := .initDlgTimer
  uaf := false
  destroyed := []

def World.init {ι : Type} (size : BitVec 32) (rand : Nat → BitVec 32) (timerProc : ι) (mode : SeqMatchMode) :
    World ι where
  shm := .init size rand
  tmcb _ := false
  tl := .null
  procs _ := .idle
  timerProc := timerProc
  seqMatchMode := mode

end OpenSer.Dialog
