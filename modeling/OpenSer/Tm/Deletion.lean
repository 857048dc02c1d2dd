import OpenSer.Lib.Traces

/-!
# The deletion of transactions

How a cell of tm comes to its end: `put_on_wait` puts it on the WAIT list, `wait_handler` takes it out of the hash
table, and `free_cell` runs when no process has a reference any more, from `wait_handler` or later from
`delete_handler`. Cells are numbers that are not used again. What runs under a lock is one step; a handler of the timer
process is cut where it leaves the lock. The clock may show any value at any time.

* `World.step`: the steps of all processes and of the timer process.
* `Inv`: a cell that was put on WAIT is in exactly one place, from the WAIT list to `free_cell`.
* `Inv.step`: every step keeps that.
* `refCount_lt`: the counts are `unsigned int`s as long as fewer than 2^32 references are held.
* `deletion_safe`: WAIT once, freed once, and only without references and outside the table.
* `freed_forgotten`: nobody has a cell that was freed.
-/

namespace OpenSer.Tm.Deletion

open List Function Lib Option

/-- The module parameters; `tm_init_timers` refuses values below `MIN_TIMER_VALUE`. -/
structure Cfg where
  wtTimer : Nat
  deleteTimer : Nat
  wtMin : 2 ≤ wtTimer
  deleteMin : 2 ≤ deleteTimer

/-- Where the timer process is in `timer_routine`. A detached list is what is left of it. -/
inductive TimerPc
  | idle
  /-- `run_handler_for_each(tl, wait_handler)`. -/
  | wait (tl : List Nat)
  /-- Behind `UNLOCK_HASH` in `delete_cell`. -/
  | waited (c : Nat) (reffed : Bool) (tl : List Nat)
  /-- `run_handler_for_each(tl, delete_handler)`. -/
  | dele (tl : List Nat)
  /-- Behind the test of the reference count in `delete_cell`. -/
  | deled (c : Nat) (reffed : Bool) (tl : List Nat)
  deriving Repr, DecidableEq

/-- The cells, the table and the two timer lists. -/
structure World where
  /-- `ref_count`. -/
  refCount : Nat → Nat
  /-- `hash_index`. -/
  hashIndex : Nat → Nat
  /-- `wait_tl.time_out`. -/
  waitTimeOut : Nat → Nat
  /-- `dele_tl.time_out`. -/
  deleTimeOut : Nat → Nat
  /-- The entries of the hash table. -/
  entrys : Nat → List Nat
  /-- `WT_TIMER_LIST`. -/
  waitList : List Nat
  /-- `DELETE_LIST`. -/
  deleteList : List Nat
  timer : TimerPc
  /-- The references that processes hold: the process and the cell. -/
  holders : List (Nat × Nat)
  /-- The cells from this one on have not been used. -/
  next : Nat
  /-- How often a cell was put on the WAIT list. -/
  puts : Nat → Nat
  /-- How often `free_cell` ran on a cell. -/
  frees : Nat → Nat
  /-- The cells that were taken out of the table. -/
  removed : Nat → Bool

def World.init : World where
  refCount _ := 0
  hashIndex _ := 0
  waitTimeOut _ := 0
  deleTimeOut _ := 0
  entrys _ := []
  waitList := []
  deleteList := []
  timer := .idle
  holders := []
  next := 0
  puts _ := 0
  frees _ := 0
  removed _ := false

inductive Act
  /-- `new_t` by a process, or the cell of a local request (`t_uac`), which gets no reference. -/
  | newCell (h : Nat) (process : Option Nat)
  /-- A lookup in an entry, for the first cell that matches. -/
  | lookup (process h : Nat) (isMatch : Nat → Bool)
  /-- `UNREF` of a reference that the process holds. -/
  | unref (process c : Nat)
  | putOnWait (c ticks : Nat)
  /-- The next step of the timer process. -/
  | timer (ticks : Nat)

namespace World

variable (cfg : Cfg) (x : World)

/-- `insert_into_hash_table_unsafe` of a new cell, and `INIT_REF_UNSAFE`. -/
def newCell (h : Nat) (process : Option Nat) : World :=
  { x with
    next := x.next + 1
    hashIndex := update x.hashIndex x.next h
    entrys := update x.entrys h (x.entrys h ++ [x.next])
    refCount := update x.refCount x.next (if process.isSome then 1 else 0)
    holders := process.toList.map (·, x.next) ++ x.holders }

def found (h : Nat) (isMatch : Nat → Bool) : Option Nat := (x.entrys h).find? isMatch

def ref (process c : Nat) : World :=
  { x with refCount := update x.refCount c (x.refCount c + 1), holders := (process, c) :: x.holders }

def unref (process c : Nat) : World :=
  { x with refCount := update x.refCount c (x.refCount c - 1), holders := x.holders.erase (process, c) }

def set1timer (c ticks : Nat) : World :=
  if x.waitTimeOut c = 0 then
    { x with
      waitTimeOut := update x.waitTimeOut c (cfg.wtTimer + ticks)
      waitList := x.waitList ++ [c]
      puts := update x.puts c (x.puts c + 1) }
  else x

/-- `set_timer`, of a timer that is on no list, on the DELETE list. -/
def setTimer (c ticks : Nat) : World :=
  { x with deleTimeOut := update x.deleTimeOut c (cfg.deleteTimer + ticks), deleteList := x.deleteList ++ [c] }

def removeFromHashTable (c : Nat) : World :=
  { x with
    entrys := update x.entrys (x.hashIndex c) ((x.entrys (x.hashIndex c)).erase c)
    removed := update x.removed c true }

def freeCell (c : Nat) : World := { x with frees := update x.frees c (x.frees c + 1) }

def putOnWait (c ticks : Nat) : World := x.set1timer cfg c ticks

/-- The end of `delete_cell`, behind the test: the cell is put on the DELETE list, or it is freed. -/
def deleteCell (c : Nat) (reffed : Bool) (ticks : Nat) : World :=
  if reffed then x.setTimer cfg c ticks else x.freeCell c

def timerStep (ticks : Nat) : World :=
  match x.timer with
  | .idle =>
    { x with
      waitList := x.waitList.filter fun c => !(x.waitTimeOut c ≤ ticks)
      timer := .wait (x.waitList.filter fun c => x.waitTimeOut c ≤ ticks) }
  | .wait [] =>
    { x with
      deleteList := x.deleteList.filter fun c => !(x.deleTimeOut c ≤ ticks)
      timer := .dele (x.deleteList.filter fun c => x.deleTimeOut c ≤ ticks) }
  | .wait (c :: tl) => { x.removeFromHashTable c with timer := .waited c (x.refCount c ≠ 0) tl }
  | .waited c reffed tl => { x.deleteCell cfg c reffed ticks with timer := .wait tl }
  | .dele [] => { x with timer := .idle }
  | .dele (c :: tl) => { x with timer := .deled c (x.refCount c ≠ 0) tl }
  | .deled c reffed tl => { x.deleteCell cfg c reffed ticks with timer := .dele tl }

def step : Act → Option World
  | .newCell h process => some (x.newCell h process)
  | .lookup process h isMatch => some ((x.found h isMatch).elim x (x.ref process))
  | .unref process c => if (process, c) ∈ x.holders then some (x.unref process c) else none
  | .putOnWait c ticks => if c < x.next then some (x.putOnWait cfg c ticks) else none
  | .timer ticks => some (x.timerStep cfg ticks)

end World

/-! ## Where a cell is -/

/-- How often a cell is in the hands of the timer process before it leaves the table. -/
def TimerPc.before (c : Nat) : TimerPc → Nat
  | .wait tl => tl.count c
  | .waited _ _ tl => tl.count c
  | _ => 0

/-- How often a cell is in the hands of the timer process after it has left the table. -/
def TimerPc.after (c : Nat) : TimerPc → Nat
  | .waited d _ _ => if d = c then 1 else 0
  | .dele tl => tl.count c
  | .deled d _ tl => tl.count c + if d = c then 1 else 0
  | _ => 0

/-- The cell that the timer process is about to free. -/
def TimerPc.doomed : TimerPc → Option Nat
  | .waited c false _ => some c
  | .deled c false _ => some c
  | _ => none

/-- The places of a cell between the WAIT list and the table. -/
def World.before (x : World) (c : Nat) : Nat := x.waitList.count c + x.timer.before c

/-- The places of a cell behind the table. -/
def World.after (x : World) (c : Nat) : Nat := x.timer.after c + x.deleteList.count c + x.frees c

structure Inv (x : World) : Prop where
  /-- A cell that was put on WAIT is in exactly one place. -/
  places : ∀ c, x.before c + x.after c = x.puts c
  once : ∀ c, x.puts c ≤ 1
  /-- `time_out` tells whether a cell was put on WAIT. -/
  timeOut : ∀ c, x.waitTimeOut c = 0 ↔ x.puts c = 0
  removed : ∀ c, x.removed c = true ↔ x.after c ≠ 0
  /-- The table has cells that were not taken out, each once and in its entry. -/
  table : ∀ h c, c ∈ x.entrys h → c < x.next ∧ x.hashIndex c = h ∧ x.removed c = false
  nodup : ∀ h, (x.entrys h).Nodup
  /-- Only processes hold references. -/
  refs : ∀ c, x.refCount c = x.holders.countP (·.2 = c)
  doomed : ∀ c, x.timer.doomed = some c → x.refCount c = 0
  /-- Cells that have not been used are nowhere. -/
  fresh : ∀ c, x.next ≤ c → x.puts c = 0 ∧ ∀ q ∈ x.holders, q.2 ≠ c

/-! ## Every step keeps the invariant -/

section
variable {cfg : Cfg} {x : World} {c : Nat} {y : World}

theorem inv_init : Inv .init := by
  constructor <;> simp [World.init, World.before, World.after, TimerPc.before, TimerPc.after, TimerPc.doomed]

section
variable (h : Inv x)
include h

theorem Inv.doomed_removed (hc : x.timer.doomed = some c) : x.removed c = true := by
  rw [h.removed]
  have hafter : x.timer.after c ≠ 0 := by
    cases ht : x.timer with
    | waited d reffed tl | deled d reffed tl =>
      rw [ht] at hc
      cases reffed <;> cases hc
      simp [TimerPc.after]
    | idle | wait tl | dele tl => rw [ht] at hc; cases hc
  simp only [World.after]
  omega

theorem Inv.not_mem_of_removed (hc : x.removed c = true) (k : Nat) : c ∉ x.entrys k := by
  intro hmem
  rw [(h.table k c hmem).2.2] at hc
  cases hc

theorem Inv.refCount_eq_zero_iff (c : Nat) : x.refCount c = 0 ↔ ∀ q ∈ x.holders, q.2 ≠ c := by
  rw [h.refs]
  simp

theorem Inv.newCell (k : Nat) (process : Option Nat) : Inv (x.newCell k process) := by
  have hnot : ∀ k', x.next ∉ x.entrys k' := fun k' hmem => absurd (h.table k' _ hmem).1 (lt_irrefl _)
  have hfresh := h.fresh x.next le_rfl
  have hremoved : x.removed x.next = false := by
    have hplaces := h.places x.next
    rw [Bool.eq_false_iff, ne_eq, h.removed]
    omega
  have hold : ∀ c, c ≠ x.next → (process.toList.map (·, x.next) ++ x.holders).countP (·.2 = c) =
      x.holders.countP (·.2 = c) := by
    intro c hc
    cases process <;> simp [Ne.symm hc]
  refine ⟨h.places, h.once, h.timeOut, h.removed, fun k' c hc => ?_, fun k' => ?_, fun c => ?_,
    fun c hc => ?_, fun c hc => ?_⟩
  · -- the table
    simp only [World.newCell, update_apply] at hc ⊢
    have hcases : c = x.next ∧ k' = k ∨ c ∈ x.entrys k' := by
      split at hc
      · rename_i hk
        subst hk
        rcases mem_append.mp hc with hc | hc
        · exact .inr hc
        · exact .inl ⟨mem_singleton.mp hc, rfl⟩
      · exact .inr hc
    rcases hcases with ⟨rfl, rfl⟩ | hc
    · exact ⟨x.next.lt_succ_self, by simp, hremoved⟩
    · obtain ⟨hlt, hhash, hrem⟩ := h.table k' c hc
      exact ⟨hlt.trans x.next.lt_succ_self, by rw [if_neg hlt.ne, hhash], hrem⟩
  · -- each once
    simp only [World.newCell, update_apply]
    split
    · exact (h.nodup k).append (nodup_singleton _) (by simpa using hnot k)
    · exact h.nodup k'
  · -- the references
    simp only [World.newCell, update_apply]
    split
    · rename_i hc
      subst hc
      have hzero : x.holders.countP (·.2 = x.next) = 0 := by
        simpa using hfresh.2
      cases process <;> simp [hzero]
    · rename_i hc
      rw [hold c hc, h.refs]
  · -- the cell to be freed is not the new one
    have hne : c ≠ x.next := by
      rintro rfl
      rw [h.doomed_removed hc] at hremoved
      cases hremoved
    simp only [World.newCell, update_apply, if_neg hne]
    exact h.doomed c hc
  · obtain ⟨hputs, hholders⟩ := h.fresh c (Nat.le_of_succ_le hc)
    exact ⟨hputs, forall_mem_append.mpr ⟨forall_mem_map.mpr fun _ _ => Nat.ne_of_lt hc, hholders⟩⟩

theorem Inv.ref (process : Nat) {k c : Nat} (hc : c ∈ x.entrys k) : Inv (x.ref process c) := by
  refine ⟨h.places, h.once, h.timeOut, h.removed, h.table, h.nodup, fun d => ?_, fun d hd => ?_, fun d hd => ?_⟩
  · simp only [World.ref, update_apply, countP_cons]
    split
    · rename_i hdc
      subst hdc
      simp [h.refs]
    · rename_i hdc
      simp [h.refs, Ne.symm hdc]
  · have hne : d ≠ c := by
      rintro rfl
      exact h.not_mem_of_removed (h.doomed_removed hd) k hc
    simp only [World.ref, update_apply, if_neg hne]
    exact h.doomed d hd
  · obtain ⟨hputs, hholders⟩ := h.fresh d hd
    exact ⟨hputs, forall_mem_cons.mpr ⟨((h.table k c hc).1.trans_le hd).ne, hholders⟩⟩

theorem Inv.unref {process c : Nat} (hmem : (process, c) ∈ x.holders) : Inv (x.unref process c) := by
  have hcount : ∀ d, (x.holders.erase (process, c)).countP (·.2 = d) = x.holders.countP (·.2 = d) -
      if d = c then 1 else 0 := by
    intro d
    rw [countP_erase]
    by_cases hd : d = c
    · simp [hmem, hd]
    · simp [hd, Ne.symm hd]
  refine ⟨h.places, h.once, h.timeOut, h.removed, h.table, h.nodup, fun d => ?_, fun d hd => ?_, fun d hd => ?_⟩
  · simp only [World.unref, update_apply, hcount]
    split
    · rename_i hdc
      subst hdc
      rw [h.refs]
    · rw [h.refs, Nat.sub_zero]
  · have hzero := h.doomed d hd
    have hne : d ≠ c := by
      rintro rfl
      exact (h.refCount_eq_zero_iff d).mp hzero _ hmem rfl
    simp only [World.unref, update_apply, if_neg hne]
    exact hzero
  · obtain ⟨hputs, hholders⟩ := h.fresh d hd
    exact ⟨hputs, fun q hq => hholders q (mem_of_mem_erase hq)⟩

/-- **The set-once rule of `set_1timer`.** -/
theorem Inv.putOnWait (hc : c < x.next) (ticks : Nat) : Inv (x.putOnWait cfg c ticks) := by
  simp only [World.putOnWait, World.set1timer]
  split
  swap
  · exact h
  rename_i hzero
  have hputs : x.puts c = 0 := (h.timeOut c).mp hzero
  refine ⟨fun d => ?_, fun d => ?_, fun d => ?_, h.removed, h.table, h.nodup, h.refs, h.doomed, fun d hd => ?_⟩
  · have hplaces := h.places d
    simp only [World.before, World.after, count_append, update_apply] at hplaces ⊢
    by_cases hdc : d = c
    · subst hdc
      simp only [if_true, count_singleton_self]
      omega
    · have hother : [c].count d = 0 := count_eq_zero.mpr (by simpa using hdc)
      rw [if_neg hdc]
      omega
  · simp only [update_apply]
    split
    · omega
    · exact h.once d
  · simp only [update_apply]
    split
    · have hmin := cfg.wtMin
      constructor <;> omega
    · exact h.timeOut d
  · obtain ⟨hp, hholders⟩ := h.fresh d hd
    refine ⟨?_, hholders⟩
    simp only [update_apply, if_neg (hc.trans_le hd).ne', hp]

end

theorem count_filter_add (l : List Nat) (p : Nat → Bool) (c : Nat) :
    (l.filter fun d => !p d).count c + (l.filter p).count c = l.count c := by
  induction l with
  | nil => rfl
  | cons d l ih => cases hp : p d <;> simp [hp, count_cons] <;> omega

theorem World.deleteCell_after (x : World) (c : Nat) (reffed : Bool) (ticks : Nat) (pc : TimerPc) (d : Nat) :
    World.after { x.deleteCell cfg c reffed ticks with timer := pc } d
      = pc.after d + x.deleteList.count d + x.frees d + if c = d then 1 else 0 := by
  cases reffed with
  | true =>
    simp only [World.after, World.deleteCell, World.setTimer, if_true, count_append, count_singleton, beq_iff_eq]
    omega
  | false =>
    simp only [World.after, World.deleteCell, World.freeCell, Bool.false_eq_true, if_false, update_apply]
    by_cases hd : d = c
    · subst hd
      simp only [if_true]
      omega
    · rw [if_neg hd, if_neg (Ne.symm hd)]
      omega

/-- What a move of cells between the lists leaves alone. -/
def World.frame (x : World) :=
  (x.puts, x.waitTimeOut, x.removed, x.entrys, x.next, x.hashIndex, x.refCount, x.holders)

theorem Inv.move (h : Inv x) (hbefore : ∀ c, y.before c = x.before c) (hafter : ∀ c, y.after c = x.after c)
    (hframe : y.frame = x.frame) (hdoomed : ∀ c, y.timer.doomed = some c → x.refCount c = 0) : Inv y := by
  simp only [World.frame, Prod.mk.injEq] at hframe
  obtain ⟨hputs, hout, hremoved, hentrys, hnext, hhash, hrefs, hholders⟩ := hframe
  refine ⟨fun c => ?_, ?_, ?_, fun c => ?_, ?_, ?_, ?_, ?_, ?_⟩
  · rw [hbefore, hafter, hputs, h.places]
  · rw [hputs]
    exact h.once
  · rw [hout, hputs]
    exact h.timeOut
  · rw [hremoved, hafter, h.removed]
  · rw [hentrys, hnext, hhash, hremoved]
    exact h.table
  · rw [hentrys]
    exact h.nodup
  · rw [hrefs, hholders]
    exact h.refs
  · rw [hrefs]
    exact hdoomed
  · rw [hnext, hputs, hholders]
    exact h.fresh

theorem World.deleteCell_waitList (x : World) (c : Nat) (reffed : Bool) (ticks : Nat) :
    (x.deleteCell cfg c reffed ticks).waitList = x.waitList := by
  cases reffed <;> rfl

/-- A cell whose reference count was read without a lock. -/
theorem doomed_of_test (pc : Bool → TimerPc) {c d : Nat} (htrue : (pc true).doomed = none)
    (hfalse : (pc false).doomed = some c)
    (hd : (pc (decide (x.refCount c ≠ 0))).doomed = some d) : x.refCount d = 0 := by
  by_cases href : x.refCount c = 0
  · rw [decide_eq_false (not_not_intro href), hfalse] at hd
    cases hd
    exact href
  · rw [decide_eq_true href, htrue] at hd
    cases hd

theorem Inv.deleteCell (h : Inv x) {pc : TimerPc} (reffed : Bool) (ticks : Nat)
    (hbefore : ∀ d, pc.before d = x.timer.before d)
    (hafter : ∀ d, x.timer.after d = pc.after d + if c = d then 1 else 0)
    (hdoomed : pc.doomed = none) : Inv { x.deleteCell cfg c reffed ticks with timer := pc } := by
  refine h.move (fun d => ?_) (fun d => ?_) ?_ (fun d hd => ?_)
  · simp only [World.before, hbefore, World.deleteCell_waitList]
  · rw [World.deleteCell_after]
    simp only [World.after, hafter]
    omega
  · cases reffed <;> rfl
  · rw [hdoomed] at hd
    cases hd

theorem Inv.waitHandler (h : Inv x) {tl : List Nat} (ht : x.timer = .wait (c :: tl)) :
    Inv { x.removeFromHashTable c with timer := .waited c (x.refCount c ≠ 0) tl } := by
  refine ⟨fun d => ?_, h.once, h.timeOut, fun d => ?_, fun k d hd => ?_, fun k => ?_, h.refs, fun d hd => ?_, h.fresh⟩
  · have hplaces := h.places d
    simp only [World.before, World.after, ht, TimerPc.before, TimerPc.after, World.removeFromHashTable, count_cons,
      beq_iff_eq] at hplaces ⊢
    omega
  · have hremoved := h.removed d
    simp only [World.after, ht, TimerPc.after, World.removeFromHashTable, update_apply] at hremoved ⊢
    by_cases hd : d = c
    · subst hd
      simp
    · rw [if_neg hd, if_neg (Ne.symm hd)]
      exact hremoved
  · simp only [World.removeFromHashTable, update_apply] at hd ⊢
    have hold : d ∈ x.entrys k := by
      split at hd
      · rename_i hk
        rw [hk]
        exact mem_of_mem_erase hd
      · exact hd
    obtain ⟨hlt, hhash, hrem⟩ := h.table k d hold
    have hne : d ≠ c := by
      rintro rfl
      rw [if_pos hhash.symm] at hd
      exact (h.nodup _).not_mem_erase hd
    exact ⟨hlt, hhash, by rw [if_neg hne, hrem]⟩
  · simp only [World.removeFromHashTable, update_apply]
    split
    · exact (h.nodup _).erase c
    · exact h.nodup k
  · exact doomed_of_test (x := x) (.waited c · tl) rfl rfl hd

theorem Inv.timerStep (h : Inv x) (ticks : Nat) : Inv (x.timerStep cfg ticks) := by
  have hnone : ∀ {pc : TimerPc}, pc.doomed = none → ∀ c, pc.doomed = some c → x.refCount c = 0 := by
    intro pc hpc c hc
    rw [hpc] at hc
    cases hc
  simp only [World.timerStep]
  split
  · -- the WAIT list is split
    rename_i ht
    refine h.move (fun c => ?_) (fun c => ?_) rfl (hnone rfl)
    · simp only [World.before, ht, TimerPc.before]
      exact count_filter_add x.waitList (fun c => x.waitTimeOut c ≤ ticks) c
    · simp only [World.after, ht, TimerPc.after]
  · -- the DELETE list is split
    rename_i ht
    refine h.move (fun c => ?_) (fun c => ?_) rfl (hnone rfl)
    · simp only [World.before, ht, TimerPc.before, count_nil]
    · have hsplit := count_filter_add x.deleteList (fun c => x.deleTimeOut c ≤ ticks) c
      simp only [World.after, ht, TimerPc.after] at hsplit ⊢
      omega
  · rename_i c tl ht
    exact h.waitHandler ht
  · rename_i c reffed tl ht
    refine h.deleteCell reffed ticks (fun d => ?_) (fun d => ?_) rfl
    · rw [ht, TimerPc.before, TimerPc.before]
    · simp only [ht, TimerPc.after, zero_add]
  · rename_i ht
    refine h.move (fun c => ?_) (fun c => ?_) rfl (hnone rfl)
    · simp only [World.before, ht, TimerPc.before]
    · simp only [World.after, ht, TimerPc.after, count_nil]
  · -- the reference count is read without a lock
    rename_i c tl ht
    refine h.move (fun d => ?_) (fun d => ?_) rfl (fun d hd => ?_)
    · simp only [World.before, ht, TimerPc.before]
    · simp only [World.after, ht, TimerPc.after, count_cons, beq_iff_eq]
    · exact doomed_of_test (.deled c · tl) rfl rfl hd
  · rename_i c reffed tl ht
    refine h.deleteCell reffed ticks (fun d => ?_) (fun d => ?_) rfl
    · simp only [ht, TimerPc.before]
    · simp only [ht, TimerPc.after]

/-- **Every step keeps the invariant.** -/
theorem Inv.step (h : Inv x) {a : Act} (hstep : x.step cfg a = some y) : Inv y := by
  cases a with
  | newCell k process =>
    cases hstep
    exact h.newCell k process
  | lookup process k isMatch =>
    cases hstep
    cases hfound : x.found k isMatch with
    | none => exact h
    | some c => exact h.ref process (mem_of_find?_eq_some hfound)
  | unref =>
    obtain ⟨hmem, hstep⟩ := ite_none_right_eq_some.mp hstep
    cases hstep
    exact h.unref hmem
  | putOnWait c ticks =>
    obtain ⟨hlt, hstep⟩ := ite_none_right_eq_some.mp hstep
    cases hstep
    exact h.putOnWait hlt ticks
  | timer ticks =>
    cases hstep
    exact h.timerStep ticks

/-- A step that frees a cell is one of the timer process, and it frees the cell that it has found without references. -/
theorem World.step_frees {a : Act} (hstep : x.step cfg a = some y) (hc : y.frees c ≠ x.frees c) :
    x.timer.doomed = some c := by
  cases a with
  | newCell =>
    cases hstep
    exact absurd rfl hc
  | lookup process k isMatch =>
    cases hstep
    cases hfound : x.found k isMatch <;> simp [hfound, World.ref] at hc
  | unref =>
    obtain ⟨-, hstep⟩ := ite_none_right_eq_some.mp hstep
    cases hstep
    exact absurd rfl hc
  | putOnWait =>
    obtain ⟨-, hstep⟩ := ite_none_right_eq_some.mp hstep
    cases hstep
    simp only [World.putOnWait, World.set1timer] at hc
    split at hc <;> exact absurd rfl hc
  | timer ticks =>
    cases hstep
    have hdelete : ∀ {d : Nat} {reffed : Bool}, (x.deleteCell cfg d reffed ticks).frees c ≠ x.frees c →
        reffed = false ∧ d = c := by
      intro d reffed hne
      cases reffed with
      | true => exact absurd rfl hne
      | false =>
        refine ⟨rfl, ?_⟩
        by_contra hd
        simp [World.deleteCell, World.freeCell, Ne.symm hd] at hne
    simp only [World.timerStep] at hc
    split at hc
    · exact absurd rfl hc
    · exact absurd rfl hc
    · exact absurd rfl hc
    · rename_i d reffed tl ht
      obtain ⟨rfl, rfl⟩ := hdelete hc
      rw [ht]
      rfl
    · exact absurd rfl hc
    · exact absurd rfl hc
    · rename_i d reffed tl ht
      obtain ⟨rfl, rfl⟩ := hdelete hc
      rw [ht]
      rfl

/-! ## Runs -/

/-- The invariant, after every run. -/
theorem inv_of_run {as : List Act} (hrun : exec (World.step cfg) .init as = some x) : Inv x :=
  exec_invariant (fun _ _ _ hinv hs => Inv.step hinv hs) hrun inv_init

/-- No count overflows while fewer than `2 ^ 32` references are held. -/
theorem refCount_lt {as : List Act} (hrun : exec (World.step cfg) .init as = some x) (hheld : x.holders.length < 2 ^ 32)
    (c : Nat) : x.refCount c < 2 ^ 32 := by
  rw [(inv_of_run hrun).refs]
  exact countP_le_length.trans_lt hheld

end

/-- **After any steps of any processes: no cell was put on the WAIT list twice, no cell was freed twice, a step that
frees a cell finds it without references and in no entry of the table, and a lookup does not find a cell that was taken
out.** -/
theorem deletion_safe (cfg : Cfg) {as : List Act} {a : Act} {x y : World}
    (hrun : exec (World.step cfg) .init as = some x) (hstep : x.step cfg a = some y) :
    (∀ c, y.puts c ≤ 1) ∧ (∀ c, y.frees c ≤ 1) ∧
      (∀ c, y.frees c ≠ x.frees c → x.refCount c = 0 ∧ ∀ h, c ∉ x.entrys h) ∧
      ∀ process h isMatch, a = .lookup process h isMatch → ∀ c, x.found h isMatch = some c → x.removed c = false := by
  have hx : Inv x := inv_of_run hrun
  have hy : Inv y := hx.step hstep
  refine ⟨hy.once, fun c => ?_, fun c hc => ?_, fun process h isMatch _ c hc => ?_⟩
  · have hplaces := hy.places c
    have honce := hy.once c
    simp only [World.after] at hplaces
    omega
  · have hdoomed := World.step_frees hstep hc
    exact ⟨hx.doomed c hdoomed, hx.not_mem_of_removed (hx.doomed_removed hdoomed)⟩
  · exact (hx.table h c (mem_of_find?_eq_some hc)).2.2

def defaultCfg : Cfg := ⟨5, 2, by decide, by decide⟩

/-- A cell that a second process finds before the WAIT timer fires: `wait_handler` puts it on the DELETE list, and
`delete_handler` may free it when both processes have given up their references. -/
def sharedRun : List Act :=
  [.newCell 3 (some 1), .lookup 2 3 fun _ => true, .putOnWait 0 10, .unref 1 0, .putOnWait 0 11, .timer 15,
    .timer 15, .timer 15, .timer 15, .timer 15, .unref 2 0, .timer 20, .timer 20, .timer 20]

/-- The step that frees the shared cell. -/
theorem deletion_safe_shared : ∃ x y, exec (World.step defaultCfg) .init sharedRun = some x ∧
    x.step defaultCfg (.timer 20) = some y ∧ y.frees 0 = 1 ∧ x.frees 0 = 0 ∧ y.puts 0 ≤ 1 ∧ x.refCount 0 = 0 ∧
      ∀ h, 0 ∉ x.entrys h := by
  obtain ⟨x, hx⟩ : ∃ x, exec (World.step defaultCfg) .init sharedRun = some x := ⟨_, rfl⟩
  obtain ⟨y, hy⟩ : ∃ y, x.step defaultCfg (.timer 20) = some y := ⟨_, rfl⟩
  have hxf : x.frees 0 = 0 := by
    cases hx
    rfl
  have hyf : y.frees 0 = 1 := by
    cases hx
    cases hy
    rfl
  obtain ⟨hputs, -, hfree, -⟩ := deletion_safe defaultCfg hx hy
  exact ⟨x, y, hx, hy, hyf, hxf, hputs 0, hfree 0 (by omega)⟩

/-! ## Freed cells -/

/-- No process has a reference to the cell, no list and no entry of the table has it, and the timer process does not
have it in its hands. -/
def World.Forgotten (x : World) (c : Nat) : Prop :=
  (∀ q ∈ x.holders, q.2 ≠ c) ∧ (∀ h, c ∉ x.entrys h) ∧ c ∉ x.waitList ∧ c ∉ x.deleteList ∧ x.timer.before c = 0 ∧
    x.timer.after c = 0

section
variable {cfg : Cfg} {x y : World} {c : Nat} {a : Act}

theorem Inv.removed_of_frees (h : Inv x) (hc : x.frees c ≠ 0) : x.removed c = true := by
  rw [h.removed, World.after]
  omega

theorem World.timerStep_refCount (x : World) (ticks : Nat) : (x.timerStep cfg ticks).refCount = x.refCount := by
  have hdelete : ∀ c reffed, (x.deleteCell cfg c reffed ticks).refCount = x.refCount := by
    intro c reffed
    cases reffed <;> rfl
  unfold World.timerStep
  split <;> first | rfl | exact hdelete ..

/-- No step takes a reference to a cell that is out of the table. -/
theorem Inv.step_refCount (h : Inv x) (hstep : x.step cfg a = some y) (hc : x.removed c = true)
    (hzero : x.refCount c = 0) : y.refCount c = 0 := by
  cases a with
  | newCell k process =>
    cases hstep
    have hne : c ≠ x.next := by
      rintro rfl
      have hputs := (h.fresh x.next le_rfl).1
      have hplaces := h.places x.next
      exact (h.removed x.next).mp hc (by omega)
    exact (update_of_ne hne _ _).trans hzero
  | lookup process k isMatch =>
    cases hstep
    cases hfound : x.found k isMatch with
    | none => exact hzero
    | some d =>
      have hne : c ≠ d := by
        rintro rfl
        exact h.not_mem_of_removed hc k (mem_of_find?_eq_some hfound)
      exact (update_of_ne hne _ _).trans hzero
  | unref process d =>
    obtain ⟨-, hstep⟩ := ite_none_right_eq_some.mp hstep
    cases hstep
    simp only [World.unref, update_apply]
    split
    · rename_i hcd
      rw [← hcd, hzero]
    · exact hzero
  | putOnWait d ticks =>
    obtain ⟨-, hstep⟩ := ite_none_right_eq_some.mp hstep
    cases hstep
    simp only [World.putOnWait, World.set1timer]
    split <;> exact hzero
  | timer ticks =>
    cases hstep
    rw [World.timerStep_refCount, hzero]

/-- **A freed cell is forgotten**: no process uses it any more, whatever the processes do. -/
theorem freed_forgotten (cfg : Cfg) {as : List Act} (hrun : exec (World.step cfg) .init as = some x)
    (hc : x.frees c ≠ 0) : x.Forgotten c := by
  have hinv : Inv x ∧ ∀ c, x.frees c ≠ 0 → x.refCount c = 0 := by
    refine exec_invariant (I := fun x => Inv x ∧ ∀ c, x.frees c ≠ 0 → x.refCount c = 0) ?_ hrun
      ⟨inv_init, fun c hc => absurd rfl hc⟩
    rintro x a y ⟨hx, hfree⟩ hstep
    refine ⟨hx.step hstep, fun c hc => ?_⟩
    by_cases hold : x.frees c = 0
    · -- the step frees the cell
      have hdoomed := World.step_frees (c := c) hstep (by omega)
      exact hx.step_refCount hstep (hx.doomed_removed hdoomed) (hx.doomed c hdoomed)
    · exact hx.step_refCount hstep (hx.removed_of_frees hold) (hfree c hold)
  obtain ⟨hx, hfree⟩ := hinv
  have hplaces := hx.places c
  have honce := hx.once c
  simp only [World.before, World.after] at hplaces
  refine ⟨(hx.refCount_eq_zero_iff c).mp (hfree c hc), hx.not_mem_of_removed (hx.removed_of_frees hc), ?_,
    ?_, by omega, by omega⟩
  · exact count_eq_zero.mp (by omega)
  · exact count_eq_zero.mp (by omega)

/-- Nobody has the shared cell when it is freed. -/
theorem freed_forgotten_shared : ∃ x, exec (World.step defaultCfg) .init (sharedRun ++ [.timer 20]) = some x ∧
    x.frees 0 = 1 ∧ x.Forgotten 0 := by
  obtain ⟨x, hx⟩ : ∃ x, exec (World.step defaultCfg) .init (sharedRun ++ [.timer 20]) = some x := ⟨_, rfl⟩
  have hfrees : x.frees 0 = 1 := by
    cases hx
    rfl
  exact ⟨x, hx, hfrees, freed_forgotten defaultCfg hx (by omega)⟩

end

end OpenSer.Tm.Deletion
