import OpenSer.Dialog.DlgBalance

/-!
# The statistics of the dialog module

`early_dlgs` and `active_dlgs`. Each handler looks at the states before and after `next_state_dlg`, and adds to the
statistics when it returns. Handlers run one after the other.

* `nextStateDlg_state`: the state after an event.
* `onreplyStats_eq`, `onrouteStats_eq`, `ontimeoutStats_eq`: what a handler adds is what the event changes.
* `dlg_stats_exact`: when no handler is running, the statistics are the numbers of dialogs.
-/

namespace OpenSer.Dialog

open Option List Function
open Lib (Trace)
open World

/-! ## What the handlers add -/

/-- `dlg_onreply`: what is added to `early_dlgs` and to `active_dlgs`. -/
def onreplyStats (oldState newState : DlgState) : Int × Int :=
  if newState = .early then (if oldState ≠ .early then 1 else 0, 0)
  else if newState = .confirmedNa ∧ oldState ≠ .confirmedNa ∧ oldState ≠ .confirmed then
    (if oldState = .early then -1 else 0, 1)
  else if oldState ≠ .deleted ∧ newState = .deleted then (if oldState = .early then -1 else 0, 0)
  else (0, 0)

def onrouteStats (event : DlgEvent) (oldState newState : DlgState) : Int × Int :=
  if event = .reqbye ∧ newState = .deleted ∧ oldState ≠ .deleted then (0, -1) else (0, 0)

def ontimeoutStats (oldState newState : DlgState) : Int × Int :=
  if newState = .deleted ∧ oldState ≠ .deleted then (0, -1) else (0, 0)

variable {ι : Type} [DecidableEq ι] {counted : DlgState → Bool} {st : Shm.NextState} {m' m m₁ : Shm} {cnt : Int}

/-- The dialog and the event of a step that calls `next_state_dlg`, and what its handler makes of the states. -/
def World.eventOf (w : World ι) (p : ι) : Act → Option (Nat × DlgEvent × (DlgState → DlgState → Int × Int))
  | .call (.dlgOnreply d (.responseOut code _ _)) => some (d, replyEvent code, onreplyStats)
  | .call (.dlgOnreply d .transDeleted) => some (d, .tdel, onreplyStats)
  | .call _ => none
  | .go _ =>
    match w.procs p with
    | .onrouteEvent d req => some (d, req.method.event, onrouteStats req.method.event)
    | .ontimeoutEvent d => some (d, .reqbye, ontimeoutStats)
    | _ => none

/-- The statistics, and what each handler has still to add. -/
structure Stats (ι : Type) where
  earlyDlgs : Int
  activeDlgs : Int
  due : ι → Int × Int

/-- A step of the process `p` from `w` to `w'`: a handler that returns adds to the statistics. -/
def Stats.step (s : Stats ι) (w : World ι) (p : ι) (a : Act) (w' : World ι) : Stats ι :=
  let due := match w.eventOf p a with
    | some (d, _, stats) => stats (w.shm.cells d).state (w'.shm.cells d).state
    | none => s.due p
  if w'.procs p = .idle then
    { earlyDlgs := s.earlyDlgs + due.1, activeDlgs := s.activeDlgs + due.2, due := update s.due p (0, 0) }
  else { s with due := update s.due p due }

/-- A step while no other process is in a handler, with the statistics. -/
def CountedStep [Fintype ι] (x : World ι × Stats ι) (a : ι × Act) (y : World ι × Stats ι) : Prop :=
  x.1.SeqStep a y.1 ∧ y.2 = x.2.step x.1 a.1 a.2 y.1

/-- `early_dlgs` and `active_dlgs` at the start. -/
def Stats.init : Stats ι := ⟨0, 0, fun _ => (0, 0)⟩

/-! ## The numbers of dialogs -/

def DlgState.isActive : DlgState → Bool
  | .confirmedNa | .confirmed => true
  | _ => false

def DlgState.isEarly : DlgState → Bool
  | .early => true
  | _ => false

def Shm.number (m : Shm) (counted : DlgState → Bool) : Nat :=
  (List.range m.fresh).countP fun d => !m.freed d && counted (m.cells d).state

def nextState (c : DlgCell) : DlgEvent → DlgState
  | .tdel =>
    match c.state with
    | .unconfirmed | .early => .deleted
    | s => s
  | .rpl1xx =>
    match c.state with
    | .unconfirmed | .early => .early
    | s => s
  | .rpl3xx =>
    match c.state with
    | .unconfirmed | .early => .deleted
    | s => s
  | .rpl2xx =>
    match c.state with
    | .deleted => if c.hasBye then .deleted else .confirmedNa
    | .unconfirmed | .early => .confirmedNa
    | s => s
  | .reqack =>
    match c.state with
    | .confirmedNa => .confirmed
    | s => s
  | .reqbye =>
    match c.state with
    | .confirmedNa | .confirmed => .deleted
    | s => s
  | .reqprack | .req => c.state

section States

variable {m m' : Shm} {d : Nat} {ev : DlgEvent} {u : Option Nat} {s : DlgState} (c : DlgCell)

/-- The states are those of before, except for one dialog. -/
def Shm.Moves (m m' : Shm) (d : Nat) (s : DlgState) : Prop :=
  m'.fresh = m.fresh ∧ ∀ d', (m'.cells d').state = if d' = d then s else (m.cells d').state

theorem Shm.Moves.setCell {c : DlgCell} : m.Moves (m.setCell d c) d c.state := by
  refine ⟨rfl, fun d' => ?_⟩
  show (update m.cells d c d').state = _
  rw [update_apply]
  split <;> rfl

theorem Shm.Moves.refl (h : s = (m.cells d).state) : m.Moves m d s := by
  refine ⟨rfl, fun d' => ?_⟩
  split
  · rename_i hd
    rw [hd, h]
  · rfl

theorem Shm.Moves.trans {s s' : DlgState} (h : m.Moves m₁ d s) (h' : m₁.Moves m' d s') : m.Moves m' d s' := by
  refine ⟨h'.1.trans h.1, fun d' => ?_⟩
  rw [h'.2, h.2]
  split <;> rfl

theorem Shm.Moves.unref (h : m.Moves m' d s) (hu : Unref m' d cnt m₁) :
    m.Moves m₁ d s := by
  refine ⟨hu.fresh.trans h.1, fun d' => ?_⟩
  rw [← h.2 d', hu.cells, apply_update fun _ => DlgCell.state]
  exact congrFun (update_eq_self d _) d'

/-- **The state after an event.** -/
theorem transition_state (h : m.transition d ev = some (m', u)) : m.Moves m' d (nextState (m.cells d) ev) := by
  cases ev with
  | tdel =>
    rw [Shm.transition] at h
    unfold nextState
    split at h <;> rename_i hst <;> rw [hst] <;> obtain ⟨m₁, hm₁, he⟩ := map_eq_some_iff.mp h <;>
      cases he
    · exact Shm.Moves.setCell.unref (unrefDlgUnsafe_spec hm₁)
    · exact Shm.Moves.setCell.unref (unrefDlgUnsafe_spec hm₁)
    all_goals exact (Shm.Moves.refl hst.symm).unref (unrefDlgUnsafe_spec hm₁)
  | rpl1xx | rpl3xx =>
    cases hst : (m.cells d).state <;> rw [Shm.transition, hst] at h <;> cases h <;> rw [nextState, hst]
    · exact .setCell
    · exact .setCell
    all_goals exact .refl hst.symm
  | rpl2xx =>
    cases hst : (m.cells d).state <;> rw [Shm.transition, hst] at h <;> rw [nextState, hst]
    case deleted =>
      dsimp only at h ⊢
      split at h
      · rename_i hbye
        cases h
        rw [if_pos hbye]
        exact .refl hst.symm
      · rename_i hbye
        cases h
        rw [if_neg hbye]
        exact Shm.Moves.trans .setCell .setCell
    all_goals cases h
    · exact .setCell
    · exact .setCell
    · exact .refl hst.symm
    · exact .refl hst.symm
  | reqack =>
    cases hst : (m.cells d).state <;> rw [Shm.transition, hst] at h <;> cases h <;> rw [nextState, hst]
    case confirmedNa.refl => exact .setCell
    all_goals exact .refl hst.symm
  | reqbye =>
    cases hst : (m.cells d).state <;> rw [Shm.transition, hst] at h <;> cases h <;> rw [nextState, hst]
    case confirmedNa.refl | confirmed.refl => exact .setCell
    all_goals exact .refl hst.symm
  | reqprack | req =>
    cases h
    exact .refl rfl

theorem nextStateDlg_state (h : m.nextStateDlg d ev = some (m', st)) :
    m.Moves m' d (nextState (m.cells d) ev) := by
  obtain ⟨⟨m₁, u⟩, hm₁, he⟩ := map_eq_some_iff.mp h
  cases he
  have hmoves := transition_state hm₁
  exact ⟨hmoves.1, hmoves.2⟩

/-! ## Counting -/

def weight (counted : DlgState → Bool) (s : DlgState) : Int := if counted s then 1 else 0

def change (s s' : DlgState) : Int × Int :=
  (weight DlgState.isEarly s' - weight DlgState.isEarly s, weight DlgState.isActive s' - weight DlgState.isActive s)

/-- **A reply, or the end of the transaction.** -/
theorem onreplyStats_eq (hev : ev = .tdel ∨ ev = .rpl1xx ∨ ev = .rpl2xx ∨ ev = .rpl3xx) :
    onreplyStats c.state (nextState c ev) = change c.state (nextState c ev) := by
  rcases hev with rfl | rfl | rfl | rfl
  case inr.inr.inl =>
    cases hst : c.state <;> rw [nextState, hst]
    case deleted => cases c.hasBye <;> decide
    all_goals rfl
  all_goals cases hst : c.state <;> rw [nextState, hst] <;> decide

/-- **A request within the dialog.** -/
theorem onrouteStats_eq (method : ReqMethod) :
    onrouteStats method.event c.state (nextState c method.event) = change c.state (nextState c method.event) := by
  cases method <;> cases hst : c.state <;> rw [ReqMethod.event, nextState, hst] <;> decide

/-- **A timeout.** -/
theorem ontimeoutStats_eq :
    ontimeoutStats c.state (nextState c .reqbye) = change c.state (nextState c .reqbye) := by
  cases hst : c.state <;> rw [nextState, hst] <;> decide

theorem number_eq (h : m.Ok) (hunconfirmed : counted .unconfirmed = false)
    (hdeleted : counted .deleted = false) {n : Nat} (hn : m.fresh ≤ n) :
    m.number counted = (range n).countP fun d => counted (m.cells d).state := by
  have hfreed : ∀ d, (!m.freed d && counted (m.cells d).state) = counted (m.cells d).state := by
    intro d
    cases hd : m.freed d with
    | false => rfl
    | true =>
      rcases (h.gone d hd).2 with hst | hst
      · rw [hst, hdeleted]
        rfl
      · rw [hst, hunconfirmed]
        rfl
  rw [Shm.number, countP_congr fun d _ => by rw [hfreed d]]
  induction n, hn using Nat.le_induction with
  | base => rfl
  | succ n hn ih =>
    rw [ih, range_succ, countP_append, countP_singleton, h.unborn n hn, hunconfirmed]
    rfl

theorem countP_move (counted : DlgState → Bool) {f g : Nat → DlgState}
    (h : ∀ d', g d' = if d' = d then s else f d') : ∀ {n : Nat}, d < n →
    (((List.range n).countP fun d => counted (g d) : Nat) : Int) =
      ((range n).countP fun d => counted (f d) : Nat) + (weight counted s - weight counted (f d)) := by
  have hsucc : ∀ (f : Nat → DlgState) (n : Nat), (((range (n + 1)).countP fun d => counted (f d) : Nat) : Int) =
      ((range n).countP fun d => counted (f d) : Nat) + weight counted (f n) := by
    intro f n
    rw [range_succ, countP_append, countP_singleton]
    push_cast
    rfl
  intro n hn
  induction n with
  | zero => exact absurd hn (Nat.not_lt_zero d)
  | succ n ih =>
    rw [hsucc, hsucc, h n]
    rcases Nat.lt_succ_iff_lt_or_eq.mp hn with hlt | rfl
    · rw [ih hlt, if_neg hlt.ne']
      ring
    · have hsame : ((range d).countP fun d => counted (g d)) = (range d).countP fun d => counted (f d) := by
        refine countP_congr fun x hx => ?_
        rw [h x, if_neg (mem_range.mp hx).ne]
      rw [hsame, if_pos rfl]
      ring

/-- **The numbers change by what the state counts.** -/
theorem number_moves (hok : m.Ok) (hok' : m'.Ok)
    (hunconfirmed : counted .unconfirmed = false) (hdeleted : counted .deleted = false)
    (h : ∀ d', (m'.cells d').state = if d' = d then s else (m.cells d').state) :
    (m'.number counted : Int) = m.number counted + (weight counted s - weight counted (m.cells d).state) := by
  obtain ⟨n, hn⟩ : ∃ n, n = m.fresh + m'.fresh + (d + 1) := ⟨_, rfl⟩
  rw [number_eq (n := n) hok hunconfirmed hdeleted (by omega), number_eq (n := n) hok' hunconfirmed hdeleted (by omega)]
  exact countP_move counted h (by omega)

end States

/-! ## The steps -/

/-- The handler has called `next_state_dlg`. -/
def Pc.counts : Pc → Bool
  | .idle | .onreqRegister .. | .onreqError .. | .onrouteGet .. | .onrouteMatch .. | .onrouteEvent ..
  | .ontimeoutEvent .. => false
  | .onreplyCallbacks .. | .onreplyConfirmed .. | .onreplyInsert .. | .onreplyFailed .. | .onreplyUnref ..
  | .onrouteBye .. | .onrouteTerminated .. | .onrouteUpdate .. | .onrouteWithin .. | .onrouteUnref ..
  | .ontimeoutExpired .. | .ontimeoutUnref .. => true

section Steps

variable {w w' : World ι} {p : ι} {d fuel : Nat} {a : Act} {ev : DlgEvent} {stats : DlgState → DlgState → Int × Int}
  {pc' : Pc}

theorem goto_pc (w : World ι) (p : ι) (m : Shm) (pc : Pc) : (w.goto p m pc).procs p = pc := update_self ..

/-- `next_state_dlg` is called, and the handler goes on to its end. -/
structure Calls (w : World ι) (p : ι) (d : Nat) (ev : DlgEvent) (w' : World ι) : Prop where
  next : ∃ st, w.shm.nextStateDlg d ev = some (w'.shm, st)
  pc : (w'.procs p).counts = true ∨ w'.procs p = .idle

theorem Calls.goto (hm : w.shm.nextStateDlg d ev = some (m, st))
    (hpc : pc'.counts = true ∨ pc' = .idle) : Calls w p d ev (w.goto p m pc') :=
  ⟨⟨st, hm⟩, by rwa [goto_pc]⟩

theorem onreplyEvent_calls {reply : Option (Str × Bool)} (h : w.onreplyEvent p d ev reply = some w') :
    Calls w p d ev w' := by
  obtain ⟨⟨m, st⟩, hm, h⟩ := bind_eq_some_iff.mp h
  dsimp only at h
  split_ifs at h
  · cases h
    exact .goto hm (.inl rfl)
  · obtain ⟨r, -, rfl⟩ := map_eq_some_iff.mp h
    exact .goto hm (.inl rfl)
  · obtain ⟨r, -, rfl⟩ := map_eq_some_iff.mp h
    exact .goto hm (.inl rfl)
  · cases h
    exact .goto hm (.inr rfl)

theorem onrouteEvent_calls {req : RouteReq} (h : w.onrouteEvent p d req = some w') :
    Calls w p d req.method.event w' := by
  obtain ⟨⟨m, st⟩, hm, h⟩ := bind_eq_some_iff.mp h
  dsimp only at h
  split_ifs at h
  · obtain ⟨r, -, rfl⟩ := map_eq_some_iff.mp h
    exact .goto hm (.inl rfl)
  · cases h
    exact .goto hm (.inl rfl)
  · cases h
    exact .goto hm (.inl rfl)

theorem ontimeoutEvent_calls (h : w.ontimeoutEvent p d = some w') : Calls w p d .reqbye w' := by
  obtain ⟨⟨m, st⟩, hm, h⟩ := bind_eq_some_iff.mp h
  dsimp only at h
  split_ifs at h
  · obtain ⟨r, -, rfl⟩ := map_eq_some_iff.mp h
    exact .goto hm (.inl rfl)
  · cases h
    exact .goto hm (.inr rfl)

/-- **A step with an event**: the handler has nothing to add yet, and then what the event changes. -/
theorem exec_event [Fintype ι] (h : w.exec fuel p a = some w') (he : w.eventOf p a = some (d, ev, stats)) :
    (w.procs p).counts = false ∧ Calls w p d ev w' ∧
      ∀ c, stats c.state (nextState c ev) = change c.state (nextState c ev) := by
  cases a with
  | call c =>
    obtain ⟨hidle, h⟩ := ite_none_right_eq_some.mp h
    refine ⟨by rw [hidle]; rfl, ?_⟩
    cases c with
    | dlgOnreply d' type =>
      obtain ⟨-, h⟩ := ite_none_left_eq_some.mp h
      cases type with
      | responseFwded => cases he
      | responseOut =>
        cases he
        refine ⟨onreplyEvent_calls h, fun c => onreplyStats_eq c ?_⟩
        rw [replyEvent]
        split_ifs <;> simp
      | transDeleted =>
        cases he
        obtain ⟨-, h⟩ := ite_none_right_eq_some.mp h
        obtain ⟨hnext, hpc⟩ := onreplyEvent_calls h
        exact ⟨⟨hnext, hpc⟩, fun c => onreplyStats_eq c (.inl rfl)⟩
    | dlgOnreq | dlgOnroute | dlgTimerRoutine | dlgOntimeout => cases he
  | go ticks =>
    rw [exec] at h
    rw [eventOf] at he
    cases hpc : w.procs p with
    | onrouteEvent d' req =>
      rw [hpc] at h he
      cases he
      exact ⟨rfl, onrouteEvent_calls h, fun c => onrouteStats_eq c req.method⟩
    | ontimeoutEvent d' =>
      rw [hpc] at h he
      cases he
      exact ⟨rfl, ontimeoutEvent_calls h, ontimeoutStats_eq⟩
    | _ =>
      rw [hpc] at he
      cases he

structure Calm (w : World ι) (p : ι) (w' : World ι) : Prop where
  state : ∀ d, (w'.shm.cells d).state = (w.shm.cells d).state
  pc : (w.procs p).counts = true → (w'.procs p).counts = true ∨ w'.procs p = .idle

theorem Calm.goto (h : ∀ d, (m'.cells d).state = (w.shm.cells d).state)
    (hpc : (w.procs p).counts = true → pc'.counts = true ∨ pc' = .idle) : Calm w p (w.goto p m' pc') :=
  ⟨h, by rwa [goto_pc]⟩

theorem Calm.start (hpc : (w.procs p).counts = false)
    (h : ∀ d, (m'.cells d).state = (w.shm.cells d).state) : Calm w p (w.goto p m' pc') :=
  .goto h fun hc => by rw [hpc] at hc; cases hc

theorem unref_state (h : m.unrefDlg d cnt = some m') (d' : Nat) :
    (m'.cells d').state = (m.cells d').state := by
  rw [(unrefDlg_spec h).cells, apply_update fun _ => DlgCell.state]
  exact congrFun (update_eq_self d _) d'

theorem setCell_state {c : DlgCell} (h : c.state = (m.cells d).state) (d' : Nat) :
    ((m.setCell d c).cells d').state = (m.cells d').state := by
  show (update m.cells d c d').state = _
  rw [apply_update fun _ => DlgCell.state, h, update_eq_self]

theorem refDlgUnsafe_state (m : Shm) (d : Nat) (n : Int) (d' : Nat) :
    ((m.refDlgUnsafe d n).cells d').state = (m.cells d').state := by
  refine setCell_state ?_ d'
  rfl

omit [DecidableEq ι] in
theorem Calm.refl (w : World ι) (p : ι) : Calm w p w := ⟨fun _ => rfl, .inl⟩

theorem Seeks.calm (h : Seeks w p w') (hpc : (w.procs p).counts = false) : Calm w p w' := by
  cases h with
  | skip => exact .refl w p
  | seek => exact .start hpc fun _ => rfl
  | acquire => exact .start hpc (refDlgUnsafe_state _ _ 1)

theorem dlgOnreq_calm (hok : w.shm.Ok) (hpc : (w.procs p).counts = false) (req : InitialReq) :
    Calm w p (w.dlgOnreq p req) := by
  unfold dlgOnreq
  split
  · split
    · exact .refl w p
    · refine .start hpc fun d => ?_
      show (update w.shm.cells w.shm.fresh _ d).state = _
      rw [update_apply]
      split
      · rename_i hd
        rw [hd, hok.unborn _ le_rfl]
      · rfl
  · exact .refl w p

/-- **A step without an event** changes no state. -/
theorem go_calm {ticks : Nat} (h : w.go fuel ticks p (w.procs p) = some w') (he : w.eventOf p (.go ticks) = none) :
    Calm w p w' := by
  rw [eventOf] at he
  generalize hpc : w.procs p = pc at h he
  cases pc with
  | idle => cases h
  | onrouteEvent | ontimeoutEvent => cases he
  | onreqRegister d =>
    cases h
    unfold onreqRegister
    split
    · exact .start (by rw [hpc]; rfl) fun _ => rfl
    · exact ⟨setCell_state (m := w.shm.touch d) rfl, fun hc => by rw [hpc] at hc; cases hc⟩
  | onreqError | onreplyUnref | onrouteUnref | ontimeoutUnref =>
    obtain ⟨m', hm', rfl⟩ := map_eq_some_iff.mp h
    exact .goto (unref_state hm') fun _ => .inr rfl
  | onreplyCallbacks =>
    cases h
    exact .goto (fun _ => rfl) fun _ => .inr rfl
  | onreplyConfirmed d =>
    cases h
    refine .goto (fun d' => ?_) fun _ => .inl rfl
    split
    · refine setCell_state (m := w.shm.touch d) ?_ d'
      rfl
    · rfl
  | onreplyInsert | onrouteBye =>
    obtain ⟨⟨t, ret⟩, -, rfl⟩ := map_eq_some_iff.mp h
    exact .goto (fun _ => rfl) fun _ => .inl rfl
  | onreplyFailed | onrouteTerminated | onrouteWithin | ontimeoutExpired =>
    cases h
    exact .goto (fun _ => rfl) fun _ => .inl rfl
  | onrouteGet =>
    cases h
    exact (onrouteGet_seeks ..).calm (by rw [hpc]; rfl)
  | onrouteMatch d req =>
    cases h
    unfold onrouteMatch
    split
    · exact .goto (fun _ => rfl) fun _ => .inr rfl
    · dsimp only
      split
      · exact .start (by rw [hpc]; rfl) fun _ => rfl
      · exact .goto (fun _ => rfl) fun _ => .inr rfl
  | onrouteUpdate d =>
    obtain ⟨⟨t, ret⟩, -, rfl⟩ := map_eq_some_iff.mp h
    refine .goto (setCell_state (m := w.shm.touch d) rfl) fun _ => .inl ?_
    split <;> rfl

/-- A step without an event changes no state. -/
theorem exec_calm [Fintype ι] (hok : w.shm.Ok) (h : w.exec fuel p a = some w') (he : w.eventOf p a = none) :
    Calm w p w' := by
  cases a with
  | go ticks => exact go_calm h he
  | call c =>
    obtain ⟨hidle, h⟩ := ite_none_right_eq_some.mp h
    have hpc : (w.procs p).counts = false := by rw [hidle]; rfl
    cases c with
    | dlgOnreq req =>
      obtain ⟨-, h⟩ := ite_none_left_eq_some.mp h
      cases h
      exact dlgOnreq_calm hok hpc req
    | dlgOnreply d type =>
      obtain ⟨-, h⟩ := ite_none_left_eq_some.mp h
      cases type with
      | responseFwded =>
        cases h
        exact .goto (fun _ => rfl) fun _ => .inl rfl
      | responseOut => cases he
      | transDeleted => cases he
    | dlgOnroute req =>
      obtain ⟨-, h⟩ := ite_none_left_eq_some.mp h
      cases h
      exact (dlgOnroute_seeks w p req).calm hpc
    | dlgTimerRoutine ticks =>
      obtain ⟨-, h⟩ := ite_none_left_eq_some.mp h
      obtain ⟨⟨t, ret⟩, -, rfl⟩ := map_eq_some_iff.mp h
      exact ⟨fun _ => rfl, fun hc => by rw [hpc] at hc; cases hc⟩
    | dlgOntimeout =>
      obtain ⟨-, h⟩ := ite_none_left_eq_some.mp h
      split at h
      · cases h
        exact ⟨fun _ => rfl, fun hc => by rw [hpc] at hc; cases hc⟩
      · cases h

end Steps

/-! ## Runs -/

variable [Fintype ι]

/-- The invariant of sequential runs, in which requests need not match: a dialog may have more references than are held,
except for one that is being created. -/
structure World.SeqSafe (w : World ι) : Prop where
  ok : w.Ok (0 ≤ ·)
  onreq : ∀ q d, (w.procs q).onreq → (w.procs q).dlg = some d → (w.shm.cells d).state = .unconfirmed ∧ w.bal d = 0

/-- The statistics, with what is still to be added, are the numbers of dialogs. -/
structure StatsOk (x : World ι × Stats ι) : Prop where
  safe : x.1.SeqSafe
  due : ∀ q, (x.1.procs q).counts = false → x.2.due q = (0, 0)
  early : x.2.earlyDlgs + ∑ q, (x.2.due q).1 = x.1.shm.number DlgState.isEarly
  active : x.2.activeDlgs + ∑ q, (x.2.due q).2 = x.1.shm.number DlgState.isActive
  nonneg : 0 ≤ x.2.earlyDlgs ∧ 0 ≤ x.2.activeDlgs

section Runs

variable {w w' : World ι} {a : ι × Act} {x y : World ι × Stats ι}

/-- Every step of a sequential run keeps the invariant. -/
theorem World.SeqSafe.step (h : w.SeqSafe) (hstep : w.SeqStep a w') : w'.SeqSafe := by
  obtain ⟨hok, honreq⟩ := seq_step h.ok le_rfl (fun n hn => hn) h.onreq hstep fun d _ n hn => Int.le_add_one hn
  exact ⟨hok, honreq⟩

theorem number_nonneg (m : Shm) (counted : DlgState → Bool) : (0 : Int) ≤ m.number counted := Int.natCast_nonneg _

/-- **What a step adds** to what is due is what it changes in the numbers. -/
theorem stats_step (hsafe : x.1.SeqSafe) (hdue : ∀ q, (x.1.procs q).counts = false → x.2.due q = (0, 0))
    (hstep : CountedStep x a y) : ∃ due : Int × Int,
    y.2 = (if y.1.procs a.1 = .idle then
      { earlyDlgs := x.2.earlyDlgs + due.1, activeDlgs := x.2.activeDlgs + due.2, due := update x.2.due a.1 (0, 0) }
      else { x.2 with due := update x.2.due a.1 due }) ∧
    (y.1.shm.number DlgState.isEarly : Int) = x.1.shm.number DlgState.isEarly + (due.1 - (x.2.due a.1).1) ∧
    (y.1.shm.number DlgState.isActive : Int) = x.1.shm.number DlgState.isActive + (due.2 - (x.2.due a.1).2) ∧
    ((y.1.procs a.1).counts = false → y.1.procs a.1 = .idle ∨ due = (0, 0)) := by
  obtain ⟨hseq, hy⟩ := hstep
  have hok := hsafe.ok.shm
  have hok' := (hsafe.step hseq).ok.shm
  obtain ⟨⟨fuel, he⟩, -⟩ := hseq
  unfold Stats.step at hy
  cases hev : x.1.eventOf a.1 a.2 with
  | some e =>
    obtain ⟨d, ev, stats⟩ := e
    obtain ⟨hpc, ⟨⟨st, hnext⟩, hpc'⟩, hstats⟩ := exec_event he hev
    have hmoves := nextStateDlg_state hnext
    have hstate : (y.1.shm.cells d).state = nextState (x.1.shm.cells d) ev := by
      rw [hmoves.2 d, if_pos rfl]
    rw [hev] at hy
    refine ⟨change (x.1.shm.cells d).state (nextState (x.1.shm.cells d) ev), ?_, ?_, ?_, fun hc => .inl ?_⟩
    · rw [hy, ← hstats, ← hstate]
    · rw [hdue a.1 hpc, number_moves hok hok' rfl rfl hmoves.2, change]
      ring
    · rw [hdue a.1 hpc, number_moves hok hok' rfl rfl hmoves.2, change]
      ring
    · rcases hpc' with hpc' | hpc'
      · rw [hc] at hpc'
        cases hpc'
      · exact hpc'
  | none =>
    have hcalm := exec_calm hok he hev
    have hsame : ∀ d', (y.1.shm.cells d').state =
        if d' = 0 then (x.1.shm.cells 0).state else (x.1.shm.cells d').state := by
      intro d'
      rw [hcalm.state]
      split
      · rename_i hd
        rw [hd]
      · rfl
    rw [hev] at hy
    refine ⟨x.2.due a.1, hy, ?_, ?_, fun hc => ?_⟩
    · rw [number_moves hok hok' rfl rfl hsame]
      ring
    · rw [number_moves hok hok' rfl rfl hsame]
      ring
    · cases hpc : (x.1.procs a.1).counts with
      | false => exact .inr (hdue a.1 hpc)
      | true =>
        rcases hcalm.pc hpc with hpc' | hpc'
        · rw [hc] at hpc'
          cases hpc'
        · exact .inl hpc'

omit [DecidableEq ι] in
theorem sum_due_zero {due : ι → Int × Int} (h : ∀ q, due q = (0, 0)) : ∑ q, (due q).1 = 0 ∧ ∑ q, (due q).2 = 0 :=
  ⟨Finset.sum_eq_zero fun q _ => by rw [h q], Finset.sum_eq_zero fun q _ => by rw [h q]⟩

theorem sum_due_update (due : ι → Int × Int) (p : ι) (v : Int × Int) :
    ∑ q, (update due p v q).1 = ∑ q, (due q).1 + (v.1 - (due p).1) ∧
      ∑ q, (update due p v q).2 = ∑ q, (due q).2 + (v.2 - (due p).2) := by
  have hsum : ∀ f : Int × Int → Int, ∑ q, f (update due p v q) = ∑ q, f (due q) + (f v - f (due p)) := by
    intro f
    have hq : ∀ q, f (update due p v q) = f (due q) + if q = p then f v - f (due p) else 0 := by
      intro q
      by_cases hq : q = p
      · subst hq
        rw [update_self, if_pos rfl]
        ring
      · rw [update_of_ne hq, if_neg hq, add_zero]
    rw [Finset.sum_congr rfl fun q _ => hq q, Finset.sum_add_distrib, Finset.sum_ite_eq' Finset.univ p,
      if_pos (Finset.mem_univ p)]
  exact ⟨hsum Prod.fst, hsum Prod.snd⟩

/-- **The statistics are kept** by every step. -/
theorem StatsOk.step (h : StatsOk x) (hstep : CountedStep x a y) : StatsOk y := by
  obtain ⟨due, hy, hearly, hactive, hpc⟩ := stats_step h.safe h.due hstep
  have hsafe := h.safe.step hstep.1
  have hprocs : ∀ q, q ≠ a.1 → y.1.procs q = .idle ∧ x.2.due q = (0, 0) := by
    intro q hq
    obtain ⟨⟨fuel, he⟩, hothers⟩ := hstep.1
    obtain ⟨pc', hafter⟩ := (exec_effect he).after h.safe.ok
    refine ⟨?_, h.due q (by rw [hothers q hq]; rfl)⟩
    rw [hafter.procs, update_of_ne hq]
    exact hothers q hq
  by_cases hidle : y.1.procs a.1 = .idle
  · -- the handler returns: no other is running
    rw [if_pos hidle] at hy
    have hzero : ∀ q, update x.2.due a.1 (0, 0) q = (0, 0) := by
      intro q
      by_cases hq : q = a.1
      · rw [hq, update_self]
      · rw [update_of_ne hq]
        exact (hprocs q hq).2
    obtain ⟨hsum₁, hsum₂⟩ := sum_due_zero hzero
    obtain ⟨hupd₁, hupd₂⟩ := sum_due_update x.2.due a.1 (0, 0)
    have he : x.2.earlyDlgs + due.1 = y.1.shm.number DlgState.isEarly := by
      rw [hearly, ← h.early]
      linarith
    have ha : x.2.activeDlgs + due.2 = y.1.shm.number DlgState.isActive := by
      rw [hactive, ← h.active]
      linarith
    refine ⟨hsafe, fun q _ => ?_, ?_, ?_, ?_⟩
    · rw [hy]
      exact hzero q
    · rw [hy]
      rw [hsum₁, add_zero, he]
    · rw [hy]
      rw [hsum₂, add_zero, ha]
    · rw [hy]
      rw [he, ha]
      exact ⟨number_nonneg _ _, number_nonneg _ _⟩
  · rw [if_neg hidle] at hy
    obtain ⟨hupd₁, hupd₂⟩ := sum_due_update x.2.due a.1 due
    refine ⟨hsafe, fun q hq => ?_, ?_, ?_, ?_⟩
    · rw [hy]
      by_cases hqa : q = a.1
      · subst hqa
        exact (update_self ..).trans ((hpc hq).resolve_left hidle)
      · exact (update_of_ne hqa ..).trans (hprocs q hqa).2
    · rw [hy, hearly, ← h.early]
      rw [hupd₁]
      ring
    · rw [hy, hactive, ← h.active]
      rw [hupd₂]
      ring
    · rw [hy]
      exact h.nonneg

omit [DecidableEq ι] in
theorem StatsOk.init (size : BitVec 32) (rand : Nat → BitVec 32) (timerProc : ι) (mode : SeqMatchMode) :
    StatsOk (init size rand timerProc mode, Stats.init) := by
  have hdue : ∀ q : ι, (Stats.init : Stats ι).due q = (0, 0) := fun _ => rfl
  obtain ⟨hsum₁, hsum₂⟩ := sum_due_zero hdue
  refine ⟨⟨(init_seqOk size rand timerProc mode).ok.mono fun n hn => hn.ge, fun q d ho => by cases ho⟩, fun q _ => rfl,
    ?_, ?_, le_rfl, le_rfl⟩
  · show (0 : Int) + _ = _
    rw [zero_add]
    exact hsum₁
  · show (0 : Int) + _ = _
    rw [zero_add]
    exact hsum₂

end Runs

/-- **The statistics**, for handlers that run one after the other: whenever none is running, `early_dlgs` is the number
of dialogs that are early, and `active_dlgs` the number of those that are confirmed. They are never negative. -/
theorem dlg_stats_exact {size : BitVec 32} {rand : Nat → BitVec 32} {timerProc : ι} {mode : SeqMatchMode}
    {es : List ((ι × Act) × (World ι × Stats ι))}
    (h : Trace CountedStep (World.init size rand timerProc mode, Stats.init) es) :
    ∀ e ∈ es, (e.2.1.Quiet → e.2.2.earlyDlgs = e.2.1.shm.number DlgState.isEarly ∧
        e.2.2.activeDlgs = e.2.1.shm.number DlgState.isActive) ∧
      0 ≤ e.2.2.earlyDlgs ∧ 0 ≤ e.2.2.activeDlgs := by
  intro e he
  have hok : StatsOk e.2 :=
    Trace.invariant (I := StatsOk) (fun x a y hx hstep => hx.step hstep) h (.init size rand timerProc mode) e he
  refine ⟨fun hquiet => ?_, hok.nonneg⟩
  obtain ⟨hsum₁, hsum₂⟩ := sum_due_zero fun q => hok.due q (by rw [hquiet q]; rfl)
  have hearly := hok.early
  have hactive := hok.active
  rw [hsum₁, add_zero] at hearly
  rw [hsum₂, add_zero] at hactive
  exact ⟨hearly, hactive⟩

/-- One step of one process beside the timer, with the statistics. -/
def countedExec (x : World Bool × Stats Bool) (a : Bool × Act) : Option (World Bool × Stats Bool) :=
  (seqExec x.1 a).map fun w => (w, x.2.step x.1 a.1 a.2 w)

/-- A dialog that rings, is confirmed and ended. -/
def ringing : List Act := [.call (.dlgOnreq invite), .go 0, .call (.dlgOnreply 0 (.responseOut 180 [] true)), .go 0,
  .call (.dlgOnreply 0 (.responseOut 200 ['b'] true)), .go 0, .go 0, .go 0, .call (.dlgOnreply 0 .transDeleted)] ++ bye

/-- The statistics of that run are right. -/
theorem dlg_stats_ringing : ∃ es, Trace CountedStep (smallTable, Stats.init) es ∧
    es.map Prod.fst = ringing.map (true, ·) ∧
    ∀ e ∈ es, (e.2.1.Quiet → e.2.2.earlyDlgs = e.2.1.shm.number DlgState.isEarly ∧
        e.2.2.activeDlgs = e.2.1.shm.number DlgState.isActive) ∧
      0 ≤ e.2.2.earlyDlgs ∧ 0 ≤ e.2.2.activeDlgs := by
  have hsome : (Lib.exec countedExec (smallTable, Stats.init) (ringing.map (true, ·))).isSome := by decide +kernel
  obtain ⟨x, hx⟩ := isSome_iff_exists.mp hsome
  obtain ⟨es, hes, hlabels, -⟩ := Lib.exec_trace hx
  have hseq : Trace CountedStep (smallTable, Stats.init) es := hes.imp fun x a y he => by
    obtain ⟨w, hw, rfl⟩ := map_eq_some_iff.mp he
    exact ⟨seqExec_step hw, rfl⟩
  exact ⟨es, hseq, hlabels, dlg_stats_exact hseq⟩

example : ((Lib.exec countedExec (smallTable, Stats.init) ((ringing.take 4).map (true, ·))).map fun x =>
    (x.2.earlyDlgs, x.2.activeDlgs)) = some (1, 0) := by decide +kernel

end OpenSer.Dialog
