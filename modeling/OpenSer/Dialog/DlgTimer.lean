import OpenSer.Lib.Links

/-!
# The dialog timer

`dlg_timer.c` keeps the timers of all dialogs in one circular list, sorted by `timeout` and rooted at `d_timer->first`.
One map per field holds the `struct dlg_tl`s. Loops take fuel; `none` is a loop that has run out of it, or a pointer
read through null.

`dlg_timer_routine` takes the expired timers off the list, with the lock held, and then walks what it took without it.
Nothing but the patterns of null pointers tells a timer that it has taken from one that is on no list.
-/

namespace OpenSer.Dialog

/-- A pointer to a timer: null, `&d_timer->first`, or the timer of a dialog. -/
inductive Tl where
  | null
  | first
  | dlg (n : Nat)
  deriving Repr, DecidableEq

structure DlgTimer where
  next : Tl → Tl
  prev : Tl → Tl
  timeout : Tl → Nat

namespace DlgTimer

open Function

/-- `init_dlg_timer`, in zeroed memory. -/
def initDlgTimer : DlgTimer where
  next := update (fun _ => .null) .first .first
  prev := update (fun _ => .null) .first .first
  timeout _ := 0

/-- An `unsigned int` timeout: `get_ticks()+interval`, with an `int` interval. -/
def expiry (ticks : Nat) (interval : Int) : Nat := ((ticks + interval) % 2 ^ 32).toNat

/-- The backward scan of `insert_dlg_timer_unsafe`. -/
def insertScan (s : DlgTimer) (timeout : Nat) : Nat → Tl → Option Tl
  | 0, _ => none
  | fuel + 1, ptr =>
    if ptr = .null then none
    else if ptr = .first then some ptr
    else if s.timeout ptr ≤ timeout then some ptr
    else insertScan s timeout fuel (s.prev ptr)

/-- The pointer writes of `insert_dlg_timer_unsafe`: `tl` goes behind `ptr`. -/
def linkAfter (s : DlgTimer) (tl ptr : Tl) : Option DlgTimer :=
  let s := { s with prev := update s.prev tl ptr }
  let s := { s with next := update s.next tl (s.next ptr) }
  let s := { s with next := update s.next (s.prev tl) tl }
  if s.next tl = .null then none else some { s with prev := update s.prev (s.next tl) tl }

def insertDlgTimerUnsafe (fuel : Nat) (s : DlgTimer) (tl : Tl) : Option DlgTimer :=
  (s.insertScan (s.timeout tl) fuel (s.prev .first)).bind (s.linkAfter tl)

/-- Setting the timeout and linking, as `insert_dlg_timer` and `update_dlg_timer` end. -/
def arm (fuel ticks : Nat) (s : DlgTimer) (tl : Tl) (interval : Int) : Option (DlgTimer × Int) :=
  let s := { s with timeout := update s.timeout tl (expiry ticks interval) }
  (insertDlgTimerUnsafe fuel s tl).map fun s => (s, 0)

/-- `insert_dlg_timer`, at time `ticks`. -/
def insertDlgTimer (fuel ticks : Nat) (s : DlgTimer) (tl : Tl) (interval : Int) : Option (DlgTimer × Int) :=
  if s.next tl ≠ .null ∨ s.prev tl ≠ .null then some (s, -1) else arm fuel ticks s tl interval

def removeDlgTimerUnsafe (s : DlgTimer) (tl : Tl) : Option DlgTimer :=
  let s := { s with next := update s.next (s.prev tl) (s.next tl) }
  if s.next tl = .null then none else some { s with prev := update s.prev (s.next tl) (s.prev tl) }

def removeDlgTimer (s : DlgTimer) (tl : Tl) : Option (DlgTimer × Int) :=
  if s.prev tl = .null then some (s, -1)
  else (s.removeDlgTimerUnsafe tl).map fun s =>
    ({ next := update s.next tl .null, prev := update s.prev tl .null, timeout := update s.timeout tl 0 }, 0)

/-- `update_dlg_timer`, at time `ticks`. -/
def updateDlgTimer (fuel ticks : Nat) (s : DlgTimer) (tl : Tl) (timeout : Int) : Option (DlgTimer × Int) :=
  if s.next tl ≠ .null then
    if s.prev tl = .null then some (s, -1)
    else (s.removeDlgTimerUnsafe tl).bind fun s => arm fuel ticks s tl timeout
  else arm fuel ticks s tl timeout

/-- The loop of `get_expired_dlgs`: how far it goes, with the `prev` pointers reset on the way. -/
def expireScan (time : Nat) : Nat → DlgTimer → Tl → Option (DlgTimer × Tl)
  | 0, _, _ => none
  | fuel + 1, s, tl =>
    if tl = .null then none
    else if tl ≠ .first ∧ s.timeout tl ≤ time then
      expireScan time fuel { s with prev := update s.prev tl .null } (s.next tl)
    else some (s, tl)

/-- The cut of `get_expired_dlgs`: the list starts at `tl` from now on. -/
def cutBefore (s : DlgTimer) (tl : Tl) : Option DlgTimer :=
  if s.prev tl = .null then none
  else
    let s := { s with next := update s.next (s.prev tl) .null }
    let s := { s with next := update s.next .first tl }
    some { s with prev := update s.prev tl .first }

/-- `get_expired_dlgs`: the state behind and the first expired timer. -/
def getExpiredDlgs (fuel : Nat) (s : DlgTimer) (time : Nat) : Option (DlgTimer × Tl) :=
  if s.next .first = .null then none
  else if s.next .first = .first ∨ s.timeout (s.next .first) > time then some (s, .null)
  else
    (expireScan time fuel s (s.next .first)).bind fun (s, tl) =>
      if tl = .first ∧ s.prev (s.next .first) ≠ .null then some (s, .null)
      else (s.cutBefore tl).map fun s' => (s', s.next .first)

/-- One turn of the loop of `dlg_timer_routine`, up to the call of the handler for `ctl`: the state behind and the next
timer. -/
def unlinkExpired (s : DlgTimer) (ctl : Tl) : DlgTimer × Tl := ({ s with next := update s.next ctl .null }, s.next ctl)

end DlgTimer

/-! ## Interleavings -/

/-- The timers and the process that runs `dlg_timer_routine`. Every setting of a timer has a number; the history says
which of them were taken back by `remove_dlg_timer` or `update_dlg_timer`, and which were handled. -/
structure TimerRun where
  timer : DlgTimer
  /-- `tl` of `dlg_timer_routine`, null when it is not in its loop. -/
  tl : Tl
  armed : Nat
  arming : Tl → Nat
  disarmed : List Nat
  handled : List Nat

/-- What a process does next: a call, with the lock held, or one turn of the loop of `dlg_timer_routine`. -/
inductive TimerStep where
  | insertDlgTimer (n ticks : Nat) (interval : Int)
  | removeDlgTimer (n : Nat)
  | updateDlgTimer (n ticks : Nat) (timeout : Int)
  | getExpiredDlgs (time : Nat)
  | handleNext

namespace TimerRun

open Function

def init : TimerRun := ⟨.initDlgTimer, .null, 0, fun _ => 0, [], []⟩

def arm (w : TimerRun) (tl : Tl) : TimerRun := { w with armed := w.armed + 1, arming := update w.arming tl w.armed }

def disarm (w : TimerRun) (tl : Tl) : TimerRun := { w with disarmed := w.arming tl :: w.disarmed }

def exec (fuel : Nat) (w : TimerRun) : TimerStep → Option TimerRun
  | .insertDlgTimer n ticks interval =>
    (w.timer.insertDlgTimer fuel ticks (.dlg n) interval).map fun (s, ret) =>
      if ret = 0 then { w.arm (.dlg n) with timer := s } else { w with timer := s }
  | .removeDlgTimer n =>
    (w.timer.removeDlgTimer (.dlg n)).map fun (s, ret) =>
      if ret = 0 then { w.disarm (.dlg n) with timer := s } else { w with timer := s }
  | .updateDlgTimer n ticks timeout =>
    (w.timer.updateDlgTimer fuel ticks (.dlg n) timeout).map fun (s, ret) =>
      if ret = 0 then
        -- a timer that is linked is taken off the list first
        if w.timer.next (.dlg n) ≠ .null then { (w.disarm (.dlg n)).arm (.dlg n) with timer := s }
        else { w.arm (.dlg n) with timer := s }
      else { w with timer := s }
  | .getExpiredDlgs time =>
    if w.tl ≠ .null then none
    else (w.timer.getExpiredDlgs fuel time).map fun (s, ret) => { w with timer := s, tl := ret }
  | .handleNext =>
    if w.tl = .null then none
    else some { w with
      timer := (w.timer.unlinkExpired w.tl).1
      tl := (w.timer.unlinkExpired w.tl).2
      handled := w.arming w.tl :: w.handled }

/-- The timer is the last one that `dlg_timer_routine` is to handle. -/
def LastExpired (w : TimerRun) (n : Nat) : Prop :=
  ∃ D : List Tl, Lib.Walk w.timer.next w.tl D .null ∧ .null ∉ D ∧ D.getLast? = some (.dlg n)

/-- `dlg_timer_routine` starts when it is not in its loop, and takes its next turn when it is. -/
def Enabled (w : TimerRun) : TimerStep → Prop
  | .getExpiredDlgs _ => w.tl = .null
  | .handleNext => w.tl ≠ .null
  | _ => True

/-- The step does not set the last expired timer again. -/
def Sound (w : TimerRun) : TimerStep → Prop
  | .insertDlgTimer n _ _ => ¬w.LastExpired n
  | .updateDlgTimer n _ _ => ¬w.LastExpired n
  | _ => True

end TimerRun

end OpenSer.Dialog
