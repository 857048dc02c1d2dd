import OpenSer.Lib.Links

/-!
# Timer lists

A timer list of `timer.c` is a doubly linked list between two sentinels, sorted by `time_out`. The timers of one
`time_out` form a run, and `ld_tl` connects the two ends of a run so that a scan can jump over it. One map per field
holds the `struct timer_link`s. Loops take fuel and answer `none` when it runs out.

The callers insert a timer only while it is on no list: `set_timer` leaves a detached timer alone and removes a linked
one first. Whoever walks a detached chain may write to its timers.
-/

namespace OpenSer.Tm

/-- A pointer to a timer: null, one of the two sentinels of the list, or a timer proper. -/
inductive Tl where
  | null
  | first
  | last
  | link (n : Nat)
  deriving Repr, DecidableEq

/-- `timer_list` of a timer, as far as one list is concerned: it points at the list, is `DETACHED_LIST`, or neither. -/
inductive ListRef where
  | null
  | list
  | detached
  deriving Repr, DecidableEq

structure Timers where
  nextTl : Tl → Tl
  prevTl : Tl → Tl
  ldTl : Tl → Tl
  timeOut : Tl → Nat
  timerList : Tl → ListRef
  deleted : Tl → Bool

namespace Timers

open Function

/-- `reset_timer_list`, in zeroed memory: `last_tl.time_out` is `(utime_t)-1`. -/
def resetTimerList (s : Timers) : Timers where
  nextTl := update (update s.nextTl .first .last) .last .null
  prevTl := update (update s.prevTl .last .first) .first .null
  ldTl := s.ldTl
  timeOut := update (update s.timeOut .first 0) .last (2 ^ 64 - 1)
  timerList := s.timerList
  deleted := s.deleted

/-- The backward scan of `insert_timer_unsafe`, one run at a time. -/
def insertScan (s : Timers) (timeOut : Nat) : Nat → Tl → Option Tl
  | 0, _ => none
  | fuel + 1, ptr =>
    if ptr = .first then some ptr
    else if s.timeOut ptr ≤ timeOut then some ptr
    else insertScan s timeOut fuel (s.prevTl (s.ldTl ptr))

/-- The pointer writes of `insert_timer_unsafe`: `tl` goes behind `ptr`. -/
def linkAfter (s : Timers) (tl ptr : Tl) : Timers :=
  let s := { s with prevTl := update s.prevTl tl ptr }
  let s := { s with nextTl := update s.nextTl tl (s.nextTl ptr) }
  let s := { s with nextTl := update s.nextTl (s.prevTl tl) tl }
  let s := { s with prevTl := update s.prevTl (s.nextTl tl) tl }
  if s.timeOut tl = s.timeOut ptr then
    let s := { s with ldTl := update s.ldTl tl (s.ldTl ptr) }
    let s := { s with ldTl := update s.ldTl ptr .null }
    { s with ldTl := update s.ldTl (s.ldTl tl) tl }
  else { s with ldTl := update s.ldTl tl tl }

def insertTimerUnsafe (fuel : Nat) (s : Timers) (tl : Tl) (timeOut : Nat) : Option Timers :=
  let s := { s with
    timeOut := update s.timeOut tl timeOut
    timerList := update s.timerList tl .list
    deleted := update s.deleted tl false }
  match s.insertScan timeOut fuel (s.prevTl .last) with
  | some ptr => some (s.linkAfter tl ptr)
  | none => none

/-- The writes `remove_timer_unsafe` makes to `ld_tl` before it unlinks. -/
def unlinkLd (s : Timers) (tl : Tl) : Timers :=
  if s.ldTl tl ≠ .null ∧ s.ldTl tl ≠ tl then
    let nb := if s.timeOut tl = s.timeOut (s.prevTl tl) then s.prevTl tl else s.nextTl tl
    let s := { s with ldTl := update s.ldTl nb (s.ldTl tl) }
    { s with ldTl := update s.ldTl (s.ldTl tl) nb }
  else s

def removeTimerUnsafe (s : Timers) (tl : Tl) : Timers :=
  -- `is_in_timer_list2`
  if s.timerList tl ≠ .list then s
  else
    let s := s.unlinkLd tl
    let s := { s with nextTl := update s.nextTl (s.prevTl tl) (s.nextTl tl) }
    let s := { s with prevTl := update s.prevTl (s.nextTl tl) (s.prevTl tl) }
    { s with
      nextTl := update s.nextTl tl .null
      prevTl := update s.prevTl tl .null
      ldTl := update s.ldTl tl .null
      timerList := update s.timerList tl .null }

/-- The forward scan of `check_and_split_time_list`, one run at a time. -/
def splitScan (s : Timers) (time : Nat) : Nat → Tl → Option Tl
  | 0, _ => none
  | fuel + 1, tl =>
    if tl ≠ .last ∧ s.timeOut tl ≤ time then splitScan s time fuel (s.nextTl (s.ldTl tl)) else some tl

/-- The loop that marks the detached timers. -/
def markDetached : Nat → Timers → Tl → Option Timers
  | 0, _, _ => none
  | fuel + 1, s, tl =>
    if tl = .null then some s
    else markDetached fuel { s with timerList := update s.timerList tl .detached } (s.nextTl tl)

/-- The cut of `check_and_split_time_list`: the shortened list starts at `tl`. -/
def cutBefore (s : Timers) (tl : Tl) : Timers :=
  let s := { s with nextTl := update s.nextTl (s.prevTl tl) .null }
  let s := { s with nextTl := update s.nextTl .first tl }
  { s with prevTl := update s.prevTl tl .first }

/-- `check_and_split_time_list`: the state behind and the first detached timer. -/
def checkAndSplitTimeList (fuel : Nat) (s : Timers) (time : Nat) : Option (Timers × Tl) :=
  if s.nextTl .first = .last ∨ s.timeOut (s.nextTl .first) > time then some (s, .null)
  else
    match s.splitScan time fuel (s.nextTl .first) with
    | none => none
    | some tl =>
      if s.prevTl tl = .first then some (s, .null)
      else
        let ret := s.nextTl .first
        match markDetached fuel (s.cutBefore tl) ret with
        | some s => some (s, ret)
        | none => none

end Timers

end OpenSer.Tm
