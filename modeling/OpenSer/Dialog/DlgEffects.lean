import OpenSer.Dialog.DlgHandlers

/-!
# What a step of a handler does

The steps of all handlers, by what they do to the references of a dialog: `Effect` has one constructor for each way, and
`exec_effect` says that there is no other. `Pc.refs` are the references that a process has to release.
-/

namespace OpenSer.Dialog

open Option Function World Shm

def Pc.refs : Pc → Nat
  | .onreqRegister .. | .onreqError .. | .onrouteMatch .. | .onrouteEvent .. | .onrouteUpdate ..
  | .onrouteWithin .. => 1
  | .onreplyFailed _ unref | .onreplyUnref _ unref | .onrouteBye _ unref | .onrouteTerminated _ unref
  | .onrouteUnref _ unref | .ontimeoutExpired _ unref | .ontimeoutUnref _ unref => unref
  | .idle | .onreplyCallbacks .. | .onreplyConfirmed .. | .onreplyInsert .. | .onrouteGet .. | .ontimeoutEvent .. => 0

/-- `dlg_onreq` has not handed its reference to the transaction yet. -/
def Pc.onreq : Pc → Bool
  | .onreqRegister .. | .onreqError .. => true
  | _ => false

def Pc.holds (pc : Pc) (dlg : Nat) : Nat := if pc.dlg = some dlg then pc.refs else 0

/-- The dialogs are the same, except for data that does not matter for their life. -/
structure Shm.Same (m m' : Shm) : Prop where
  entries : m'.entries = m.entries
  fresh : m'.fresh = m.fresh
  freed : m'.freed = m.freed
  destroyed : m'.destroyed = m.destroyed
  ref : ∀ d, (m'.cells d).ref = (m.cells d).ref
  state : ∀ d, (m'.cells d).state = (m.cells d).state
  hEntry : ∀ d, (m'.cells d).hEntry = (m.cells d).hEntry

/-- One call for the timer of a dialog, or none, from the point where the process is. -/
inductive TimerOp (pc : Pc) (dlg : Nat) (t : DlgTimer) : DlgTimer → Prop where
  | same : TimerOp pc dlg t t
  | insert {t' : DlgTimer} {ret : Int} (fuel ticks : Nat) (interval : Int) (hpc : pc = .onreplyInsert dlg)
      (h : t.insertDlgTimer fuel ticks (.dlg dlg) interval = some (t', ret)) : TimerOp pc dlg t t'
  | update {t' : DlgTimer} {ret : Int} (fuel ticks : Nat) (timeout : Int) (hpc : pc = .onrouteUpdate dlg timeout)
      (h : t.updateDlgTimer fuel ticks (.dlg dlg) timeout = some (t', ret)) : TimerOp pc dlg t t'
  | remove {t' : DlgTimer} {ret : Int} (h : t.removeDlgTimer (.dlg dlg) = some (t', ret)) : TimerOp pc dlg t t'

variable {ι : Type} [DecidableEq ι] {st : Shm.NextState} {req : RouteReq} {ev : DlgEvent} {cnt : Int}

/-- What a step of the process `p` does. -/
inductive Effect (w : World ι) (p : ι) : World ι → Prop where
  | skip : Effect w p w
  /-- A new dialog. -/
  | link (callid fromTag : Str) (rrParam registered : Bool) (timeout : Int) (hidle : w.procs p = .idle) :
    Effect w p (w.goto p (w.shm.linkDlg callid fromTag 1) (.onreqRegister w.shm.fresh rrParam registered timeout))
  /-- The reference of the process goes to the transaction. -/
  | register {d : Nat} {rrParam registered : Bool} {timeout : Int} {m' : Shm}
      (hpc : w.procs p = .onreqRegister d rrParam registered timeout) (hsame : w.shm.Same m')
      (htimer : m'.timer = w.shm.timer) (huaf : m'.uaf = (w.shm.uaf || w.shm.freed d)) :
    Effect w p { w.goto p m' .idle with tmcb := update w.tmcb d true }
  /-- The process goes on with the references it has. -/
  | move {d : Nat} {m' : Shm} {pc' : Pc} (hd : (w.procs p).dlg = some d) (hd' : pc'.dlg = some d)
      (hrefs : pc'.refs = (w.procs p).refs) (htrans : pc'.inTrans = (w.procs p).inTrans)
      (honreq : pc'.onreq = (w.procs p).onreq) (hpoint : ∀ d, pc' ≠ .ontimeoutEvent d)
      (hpoint' : ∀ d, w.procs p ≠ .ontimeoutEvent d) (hsame : w.shm.Same m')
      (htimer : TimerOp (w.procs p) d w.shm.timer m'.timer) (huaf : m'.uaf = (w.shm.uaf || w.shm.freed d)) :
    Effect w p (w.goto p m' pc')
  /-- A handler that holds no reference returns. -/
  | return {d : Nat} {m' : Shm} (hpc : w.procs p = .onreplyCallbacks d) (hsame : w.shm.Same m')
      (htimer : m'.timer = w.shm.timer) (huaf : m'.uaf = (w.shm.uaf || w.shm.freed d)) :
    Effect w p (w.goto p m' .idle)
  /-- A handler releases its references and returns. -/
  | unref {d : Nat} {m' : Shm} (hd : (w.procs p).dlg = some d) (hpoint' : ∀ d, w.procs p ≠ .ontimeoutEvent d)
      (hm : w.shm.unrefDlg d (w.procs p).refs = some m') : Effect w p (w.goto p m' .idle)
  /-- `dlg_onreq` has failed. -/
  | drop {d : Nat} {m' : Shm} (hpc : w.procs p = .onreqError d) (hm : w.shm.unrefDlg d 2 = some m') :
    Effect w p (w.goto p m' .idle)
  /-- A request has found its dialog. -/
  | acquire {d h : Nat} {pc' : Pc} (hnone : (w.procs p).dlg = none) (hmem : d ∈ w.shm.entries h)
      (hstate : (w.shm.cells d).state ≠ .deleted) (hd' : pc'.dlg = some d) (hrefs : pc'.refs = 1)
      (honreq : pc'.onreq = false) : Effect w p (w.goto p (w.shm.refDlgUnsafe d 1) pc')
  /-- A request has not found a dialog yet. -/
  | seek {pc' : Pc} (hnone : (w.procs p).dlg = none) (hd' : pc'.dlg = none) : Effect w p (w.goto p w.shm pc')
  /-- A callback that does not look at the state. -/
  | answer {d : Nat} (hidle : w.procs p = .idle) (htm : w.tmcb d) : Effect w p (w.goto p w.shm (.onreplyCallbacks d))
  /-- An event other than the end of the transaction. -/
  | event {d : Nat} {ev : DlgEvent} {m' : Shm} {st : Shm.NextState} {pc' : Pc}
      (hsrc : (w.procs p).dlg = some d ∧ (w.procs p).inTrans = false ∨ w.procs p = .idle ∧ w.tmcb d)
      (hev : ev ≠ .tdel) (hm : w.shm.nextStateDlg d ev = some (m', st)) (hd' : pc'.dlg = some d ∨ pc' = .idle)
      (hpoint : ∀ d, pc' ≠ .ontimeoutEvent d) (honreq : pc'.onreq = false)
      (htimeout : (w.procs p).dlg = some d → (w.procs p).refs = 0 → ev = .reqbye)
      (hrefs : pc'.refs = (w.procs p).refs + st.unref.getD 0)
      (hprot : pc'.dlg = some d → pc'.refs = 0 → pc'.inTrans ∧ w.tmcb d) : Effect w p (w.goto p m' pc')
  /-- The transaction is deleted. -/
  | transDeleted {d : Nat} {m' : Shm} {st : Shm.NextState} {pc' : Pc} (hidle : w.procs p = .idle) (htm : w.tmcb d)
      (hfree : w.TransFree d) (hm : w.shm.nextStateDlg d .tdel = some (m', st))
      (hd' : pc'.dlg = some d ∧ pc'.refs ≠ 0 ∨ pc' = .idle) (hpoint : ∀ d, pc' ≠ .ontimeoutEvent d)
      (honreq : pc'.onreq = false) (hrefs : pc'.refs = st.unref.getD 0) :
    Effect w p { w.goto p m' pc' with tmcb := update w.tmcb d false }
  /-- A request that does not match the dialog of its route parameter: the handler returns with its reference. -/
  | leak {d : Nat} {req : RouteReq} {m' : Shm} (hpc : w.procs p = .onrouteMatch d req) (hsame : w.shm.Same m')
      (htimer : m'.timer = w.shm.timer) (huaf : m'.uaf = (w.shm.uaf || w.shm.freed d) ∨ m'.uaf = w.shm.uaf)
      (hmatch : ∀ key ∈ req.preMatch, matchDialog (w.shm.cells d) key.callid key.ftag key.ttag .none = none) :
    Effect w p (w.goto p m' .idle)
  /-- The timer takes the expired timers. -/
  | expire {time fuel : Nat} {t' : DlgTimer} {ret : Tl} (htl : w.tl = .null)
      (hm : w.shm.timer.getExpiredDlgs fuel time = some (t', ret)) :
    Effect w p { w with shm := { w.shm with timer := t' }, tl := ret }
  /-- The timer goes on to the next one. -/
  | unlink {d : Nat} (hidle : w.procs p = .idle) (htl : w.tl = .dlg d) :
    Effect w p { w.goto p { w.shm.touch d with timer := (w.shm.timer.unlinkExpired w.tl).1 } (.ontimeoutEvent d) with
      tl := (w.shm.timer.unlinkExpired w.tl).2 }

/-! ## The state machine -/

section Shm

variable {m m' : Shm} {d : Nat} {ev : DlgEvent} {u : Option Nat}

@[simp] theorem Shm.setCell_cells (m : Shm) (d : Nat) (c : DlgCell) : (m.setCell d c).cells d = c :=
  Function.update_self ..

/-- What `next_state_dlg` does to a cell when the transaction is not deleted: the reference of the table is handed out
with the state, and comes back with it. -/
structure NextCell (c : DlgCell) (ev : DlgEvent) (c' : DlgCell) (u : Option Nat) : Prop where
  hEntry : c'.hEntry = c.hEntry
  due : c'.ref - (if c'.state = .deleted then 0 else 1) = c.ref - (if c.state = .deleted then 0 else 1) + u.getD 0
  unref : ∀ n, u = some n → n = 1 ∧ c.state ≠ .deleted ∧ c'.state = .deleted ∧ (ev = .rpl3xx ∨ ev = .reqbye)
  deleted : c.state ≠ .deleted → c'.state = .deleted → u = some 1
  unconfirmed : ev = .reqbye → c.state = .unconfirmed → c' = c
  gone : ev = .reqbye → c.state = .deleted → c' = c
  ref_le : c.ref ≤ c'.ref

theorem NextCell.same (c : DlgCell) (ev : DlgEvent) : NextCell c ev c none := by
  refine ⟨rfl, by simp, by simp, fun h h' => absurd h' h, fun _ _ => rfl, fun _ _ => rfl, le_rfl⟩

theorem NextCell.ref_le_succ {c c' : DlgCell} (h : NextCell c ev c' u) : c'.ref ≤ c.ref + 1 := by
  have hdue := h.due
  cases hu : u with
  | none =>
    rw [hu] at hdue
    split at hdue <;> split at hdue <;> simp at hdue <;> omega
  | some n =>
    obtain ⟨rfl, hst, hst', -⟩ := h.unref n hu
    rw [hu, if_pos hst', if_neg hst] at hdue
    simp at hdue
    omega

theorem transition_cell (hev : ev ≠ .tdel) (h : m.transition d ev = some (m', u)) :
    ∃ c', m' = m.setCell d c' ∧ NextCell (m.cells d) ev c' u := by
  have hself : m = m.setCell d (m.cells d) := by rw [setCell, update_eq_self]
  have hsame : ∀ ev, ∃ c', m = m.setCell d c' ∧ NextCell (m.cells d) ev c' none :=
    fun ev => ⟨_, hself, NextCell.same _ _⟩
  cases ev with
  | tdel => exact absurd rfl hev
  | rpl2xx =>
    rw [transition] at h
    split at h
    · rename_i hst
      split at h <;> cases h
      · exact hsame _
      · refine ⟨{ m.cells d with ref := (m.cells d).ref + 1, state := .confirmedNa }, ?_, ?_⟩
        · simp [setState, refDlgUnsafe, setCell]
        · constructor <;> simp [hst]
    · rename_i hst
      cases h
      exact ⟨_, rfl, by constructor <;> simp [hst]⟩
    · rename_i hst
      cases h
      exact ⟨_, rfl, by constructor <;> simp [hst]⟩
    · cases h
      exact hsame _
    · cases h
      exact hsame _
  | rpl1xx | rpl3xx | reqbye =>
    rw [transition] at h
    split at h <;> cases h
    · rename_i hst
      exact ⟨_, rfl, by constructor <;> simp [hst]⟩
    · rename_i hst
      exact ⟨_, rfl, by constructor <;> simp [hst]⟩
    · exact hsame _
  | reqack =>
    rw [transition] at h
    split at h <;> cases h
    · rename_i hst
      exact ⟨_, rfl, by constructor <;> simp [hst]⟩
    · exact hsame _
  | reqprack | req =>
    cases h
    exact hsame _

structure Unref (m : Shm) (d : Nat) (cnt : Int) (m' : Shm) : Prop where
  cells : m'.cells = update m.cells d { m.cells d with ref := (m.cells d).ref - cnt }
  fresh : m'.fresh = m.fresh
  uaf : m'.uaf = m.uaf
  alive : 0 < (m.cells d).ref - cnt →
    m'.entries = m.entries ∧ m'.freed = m.freed ∧ m'.timer = m.timer ∧ m'.destroyed = m.destroyed
  dead : (m.cells d).ref - cnt ≤ 0 →
    m'.entries = update m.entries (m.cells d).hEntry ((m.entries (m.cells d).hEntry).erase d) ∧
      m'.freed = update m.freed d true ∧ m'.destroyed = (d, (m.cells d).state) :: m.destroyed ∧
      ∃ ret, m.timer.removeDlgTimer (.dlg d) = some (m'.timer, ret)

theorem unrefDlgUnsafe_spec (h : m.unrefDlgUnsafe d cnt = some m') : Unref m d cnt m' := by
  have hcell : ((m.refDlgUnsafe d (-cnt)).cells d) = { m.cells d with ref := (m.cells d).ref - cnt } := by
    simp [refDlgUnsafe, setCell, sub_eq_add_neg]
  have hcells : (m.refDlgUnsafe d (-cnt)).cells = update m.cells d { m.cells d with ref := (m.cells d).ref - cnt } := by
    simp [refDlgUnsafe, setCell, sub_eq_add_neg]
  rw [unrefDlgUnsafe] at h
  split at h
  · rename_i hle
    rw [hcell] at hle
    obtain ⟨⟨t, ret⟩, ht, rfl⟩ := map_eq_some_iff.mp h
    refine ⟨hcells, rfl, rfl, fun hlt => absurd hle (not_le.mpr hlt), fun _ => ⟨?_, rfl, ?_, ret, ht⟩⟩
    · rw [unlinkUnsafeDlg, hcell]
      rfl
    · show (d, ((m.refDlgUnsafe d (-cnt)).cells d).state) :: _ = _
      rw [hcell]
      rfl
  · rename_i hlt
    rw [hcell] at hlt
    cases h
    exact ⟨hcells, rfl, rfl, fun _ => ⟨rfl, rfl, rfl, rfl⟩, fun hle => absurd hle hlt⟩

theorem unrefDlg_spec (h : m.unrefDlg d cnt = some m') : Unref (m.touch d) d cnt m' := unrefDlgUnsafe_spec h

/-- What `next_state_dlg` does, when the transaction is not deleted. -/
structure Next (m : Shm) (d : Nat) (ev : DlgEvent) (m' : Shm) (st : Shm.NextState) (c' : DlgCell) : Prop where
  cells : m'.cells = update m.cells d c'
  cell : NextCell (m.cells d) ev c' st.unref
  oldState : st.oldState = (m.cells d).state
  newState : st.newState = c'.state
  entries : m'.entries = m.entries
  fresh : m'.fresh = m.fresh
  freed : m'.freed = m.freed
  timer : m'.timer = m.timer
  destroyed : m'.destroyed = m.destroyed
  uaf : m'.uaf = (m.uaf || m.freed d)

theorem nextStateDlg_spec (hev : ev ≠ .tdel) (h : m.nextStateDlg d ev = some (m', st)) :
    ∃ c', Next m d ev m' st c' := by
  obtain ⟨⟨m₁, u⟩, hm₁, he⟩ := map_eq_some_iff.mp h
  cases he
  obtain ⟨c', rfl, hc'⟩ := transition_cell hev hm₁
  refine ⟨c', rfl, hc', rfl, ?_, rfl, rfl, rfl, rfl, rfl, ?_⟩
  · rw [setCell_cells]
  · show ((m.uaf || m.freed d) || m.freed d) = _
    rw [Bool.or_assoc, Bool.or_self]

theorem transition_tdel (h : m.transition d .tdel = some (m', u)) :
    (m.cells d).state ≠ .deleted ∧ u = some 1 ∧ (m.setState d .deleted).unrefDlgUnsafe d 1 = some m' ∨
      (m.cells d).state ≠ .early ∧ u = none ∧ m.unrefDlgUnsafe d 1 = some m' := by
  rw [transition] at h
  split at h <;> obtain ⟨m₁, hm₁, he⟩ := map_eq_some_iff.mp h <;> obtain ⟨rfl, rfl⟩ := Prod.mk.inj he
  · rename_i hst
    exact .inl ⟨by simp [hst], rfl, hm₁⟩
  · rename_i hst
    exact .inl ⟨by simp [hst], rfl, hm₁⟩
  all_goals
    rename_i hst
    exact .inr ⟨by simp [hst], rfl, hm₁⟩

theorem nextStateDlg_tdel (h : m.nextStateDlg d .tdel = some (m', st)) :
    ∃ c m₁, Unref ((m.touch d).setCell d c) d 1 m₁ ∧ m' = m₁.touch d ∧ c.ref = (m.cells d).ref ∧
      c.hEntry = (m.cells d).hEntry ∧ st.oldState = (m.cells d).state ∧ st.newState = c.state ∧
      ((m.cells d).state ≠ .deleted ∧ c.state = .deleted ∧ st.unref = some 1 ∨
        c.state = (m.cells d).state ∧ c.state ≠ .early ∧ st.unref = none) := by
  obtain ⟨⟨m₁, u⟩, hm₁, he⟩ := map_eq_some_iff.mp h
  cases he
  have hself : m.touch d = (m.touch d).setCell d (m.cells d) := by
    show _ = { m.touch d with cells := update m.cells d (m.cells d) }
    rw [update_eq_self]
    rfl
  have hspec : ∀ c m₂, ((m.touch d).setCell d c).unrefDlgUnsafe d 1 = some m₂ →
      Unref ((m.touch d).setCell d c) d 1 m₂ ∧ (m₂.cells d).state = c.state := by
    intro c m₂ hm₂
    have hspec := unrefDlgUnsafe_spec hm₂
    refine ⟨hspec, ?_⟩
    rw [hspec.cells, update_self, setCell_cells]
  rcases transition_tdel hm₁ with ⟨hst, rfl, hm₂⟩ | ⟨hst, rfl, hm₂⟩
  · obtain ⟨hunref, hstate⟩ := hspec { m.cells d with state := .deleted } m₁ hm₂
    exact ⟨_, m₁, hunref, rfl, rfl, rfl, rfl, hstate, .inl ⟨hst, rfl, rfl⟩⟩
  · rw [hself] at hm₂
    obtain ⟨hunref, hstate⟩ := hspec (m.cells d) m₁ hm₂
    exact ⟨_, m₁, hunref, rfl, rfl, rfl, rfl, hstate, .inr ⟨rfl, hst, rfl⟩⟩

end Shm

/-! ## Every step -/

section Steps

variable {w w' : World ι} {p : ι} {d fuel ticks : Nat} {m m' : Shm}

theorem Shm.Same.refl (m : Shm) : m.Same m := ⟨rfl, rfl, rfl, rfl, fun _ => rfl, fun _ => rfl, fun _ => rfl⟩

theorem Shm.Same.touch (m : Shm) (d : Nat) : m.Same (m.touch d) :=
  ⟨rfl, rfl, rfl, rfl, fun _ => rfl, fun _ => rfl, fun _ => rfl⟩

theorem Shm.Same.timer (h : m.Same m') (t : DlgTimer) : m.Same { m' with timer := t } :=
  ⟨h.entries, h.fresh, h.freed, h.destroyed, h.ref, h.state, h.hEntry⟩

theorem Shm.Same.setCell {c : DlgCell} (h : m.Same m') (href : c.ref = (m'.cells d).ref)
    (hstate : c.state = (m'.cells d).state) (hEntry : c.hEntry = (m'.cells d).hEntry) : m.Same (m'.setCell d c) := by
  have hcell : ∀ {α : Type} (g : DlgCell → α), g c = g (m'.cells d) →
      ∀ d', g ((m'.setCell d c).cells d') = g (m'.cells d') := by
    intro α g hg d'
    show g (update m'.cells d c d') = _
    rw [apply_update fun _ => g, hg, update_eq_self]
  exact ⟨h.entries, h.fresh, h.freed, h.destroyed, fun d' => (hcell _ href d').trans (h.ref d'),
    fun d' => (hcell _ hstate d').trans (h.state d'), fun d' => (hcell _ hEntry d').trans (h.hEntry d')⟩

theorem lookupDlg_cases (m : Shm) (hEntry hId : Nat) : m.lookupDlg hEntry hId = (m, none) ∨
    ∃ d, m.lookupDlg hEntry hId = (m.refDlgUnsafe d 1, some d) ∧ d ∈ m.entries hEntry ∧
      (m.cells d).state ≠ .deleted := by
  rw [lookupDlg]
  split
  · exact .inl rfl
  · split
    · rename_i d hfind
      split
      · exact .inl rfl
      · rename_i hst
        exact .inr ⟨d, rfl, List.mem_of_find?_eq_some hfind, hst⟩
    · exact .inl rfl

theorem findDlg_mem {m : Shm} {callid ftag ttag : Str} {dir dir' : DlgDir} {l : List Nat}
    (h : m.findDlg callid ftag ttag dir l = some (d, dir')) : d ∈ l := by
  induction l with
  | nil => simp [findDlg] at h
  | cons x l ih =>
    rw [findDlg] at h
    split at h
    · cases h
      exact List.mem_cons_self ..
    · exact List.mem_cons_of_mem _ (ih h)

theorem internalGetDlg_cases (m : Shm) (hEntry : Nat) (callid ftag ttag : Str) (dir : DlgDir) :
    (∃ dir', m.internalGetDlg hEntry callid ftag ttag dir = (m, none, dir')) ∨
      ∃ d dir', m.internalGetDlg hEntry callid ftag ttag dir = (m.refDlgUnsafe d 1, some d, dir') ∧
        d ∈ m.entries hEntry ∧ (m.cells d).state ≠ .deleted := by
  rw [internalGetDlg]
  split
  · rename_i d dir' hfind
    split
    · exact .inl ⟨dir', rfl⟩
    · rename_i hst
      exact .inr ⟨d, dir', rfl, findDlg_mem hfind, hst⟩
  · exact .inl ⟨dir, rfl⟩

theorem move_effect {pc pc' : Pc} {m' : Shm} (hpc : w.procs p = pc) (hsame : w.shm.Same m')
    (htimer : TimerOp pc d w.shm.timer m'.timer) (hd : pc.dlg = some d := by rfl) (hd' : pc'.dlg = some d := by rfl)
    (hrefs : pc'.refs = pc.refs := by rfl) (htrans : pc'.inTrans = pc.inTrans := by rfl)
    (honreq : pc'.onreq = pc.onreq := by rfl) (hpoint : ∀ d, pc' ≠ .ontimeoutEvent d := by simp)
    (hpoint' : ∀ d, pc ≠ .ontimeoutEvent d := by simp) (huaf : m'.uaf = (w.shm.uaf || w.shm.freed d) := by rfl) :
    Effect w p (w.goto p m' pc') := by
  subst hpc
  exact .move hd hd' hrefs htrans honreq hpoint hpoint' hsame htimer huaf

/-- The process looks for a dialog, and takes a reference if it finds one. -/
inductive Seeks (w : World ι) (p : ι) : World ι → Prop where
  | skip : Seeks w p w
  | seek {pc' : Pc} (hd' : pc'.dlg = none) : Seeks w p (w.goto p w.shm pc')
  | acquire {d h : Nat} {pc' : Pc} (hmem : d ∈ w.shm.entries h) (hstate : (w.shm.cells d).state ≠ .deleted)
      (hd' : pc'.dlg = some d) (hrefs : pc'.refs = 1) (honreq : pc'.onreq = false) :
    Seeks w p (w.goto p (w.shm.refDlgUnsafe d 1) pc')

theorem Seeks.effect (h : Seeks w p w') (hnone : (w.procs p).dlg = none) : Effect w p w' := by
  cases h with
  | skip => exact .skip
  | seek hd' => exact .seek hnone hd'
  | acquire hmem hstate hd' hrefs honreq => exact .acquire hnone hmem hstate hd' hrefs honreq

theorem getDlg_seeks (w : World ι) (p : ι) (key : MatchKey) (req : RouteReq) : Seeks w p (w.getDlg p key req) := by
  rw [getDlg]
  rcases internalGetDlg_cases w.shm
    (coreHash key.callid (if key.ftag.length ≠ 0 then some key.ftag else none) w.shm.size).toNat
    key.callid key.ftag key.ttag .none with ⟨dir, he⟩ | ⟨d, dir, he, hmem, hst⟩
  · rw [he]
    exact .seek rfl
  · rw [he]
    exact .acquire hmem hst rfl rfl rfl

theorem onrouteGet_seeks (w : World ι) (p : ι) (key : MatchKey) (dir : DlgDir) (req : RouteReq) :
    Seeks w p (w.onrouteGet p key dir req) := by
  rw [onrouteGet]
  rcases internalGetDlg_cases w.shm
    (coreHash key.callid (if key.ttag.length ≠ 0 then some key.ttag else none) w.shm.size).toNat
    key.callid key.ftag key.ttag dir with ⟨dir, he⟩ | ⟨d, dir, he, hmem, hst⟩
  · rw [he]
    exact .seek rfl
  · rw [he]
    exact .acquire hmem hst rfl rfl rfl

theorem dlgOnroute_seeks (w : World ι) (p : ι) (req : RouteReq) : Seeks w p (w.dlgOnroute p req) := by
  rw [dlgOnroute]
  split
  · split
    · exact getDlg_seeks w p _ _
    · exact .skip
  · split
    · split
      · exact .skip
      · split
        · exact getDlg_seeks w p _ _
        · exact .skip
    · exact .skip
    · rename_i hEntry hId _
      rcases lookupDlg_cases w.shm hEntry hId with he | ⟨d, he, hmem, hst⟩
      · rw [he]
        exact .seek rfl
      · rw [he]
        exact .acquire hmem hst rfl rfl rfl

theorem dlgOnreq_effect (hidle : w.procs p = .idle) (req : InitialReq) : Effect w p (w.dlgOnreq p req) := by
  rw [dlgOnreq]
  split
  · split
    · exact .skip
    · exact .link _ _ _ _ _ hidle
  · exact .skip

theorem onreqRegister_effect {rrParam registered : Bool} {timeout : Int}
    (hpc : w.procs p = .onreqRegister d rrParam registered timeout) :
    Effect w p (w.onreqRegister p d rrParam registered timeout) := by
  rw [onreqRegister]
  split
  · exact move_effect hpc (.touch _ _) .same
  · exact .register hpc ((Shm.Same.touch _ _).setCell rfl rfl rfl) rfl rfl

theorem onrouteMatch_effect (hpc : w.procs p = .onrouteMatch d req) :
    Effect w p (w.onrouteMatch p d req) := by
  rw [onrouteMatch]
  split
  · rename_i hkey
    exact .leak hpc (Shm.Same.refl _) rfl (.inr rfl) (by simp [hkey])
  · rename_i key hkey
    dsimp only
    split
    · exact move_effect hpc (.touch _ _) .same
    · rename_i hmatch
      refine .leak hpc (.touch _ _) rfl (.inl rfl) fun key' hkey' => ?_
      rw [hkey] at hkey'
      cases hkey'
      exact hmatch

theorem unref_eq_none {c' : DlgCell} (h : Next m d ev m' st c')
    (hno : ¬(st.newState = .deleted ∧ st.oldState ≠ .deleted)) : st.unref = none := by
  cases hu : st.unref with
  | none => rfl
  | some u =>
    obtain ⟨-, hold, hnew, -⟩ := h.cell.unref u hu
    exact absurd ⟨h.newState.trans hnew, by rw [h.oldState]; exact hold⟩ hno

theorem ontimeoutEvent_effect (hpc : w.procs p = .ontimeoutEvent d) (h : w.ontimeoutEvent p d = some w') :
    Effect w p w' := by
  obtain ⟨⟨m, st⟩, hm, h⟩ := bind_eq_some_iff.mp h
  obtain ⟨c', hnext⟩ := nextStateDlg_spec (by simp) hm
  have hsrc : (w.procs p).dlg = some d ∧ (w.procs p).inTrans = false := by rw [hpc]; exact ⟨rfl, rfl⟩
  dsimp only at h
  split at h
  · obtain ⟨u, hu, rfl⟩ := map_eq_some_iff.mp h
    refine .event (.inl hsrc) (by simp) hm (.inl rfl) (by simp) rfl (fun _ _ => rfl) ?_ ?_
    · rw [hpc, hu]
      simp [Pc.refs]
    · intro _ hrefs
      obtain ⟨rfl, -⟩ := hnext.cell.unref u hu
      simp [Pc.refs] at hrefs
  · rename_i hno
    cases h
    refine .event (.inl hsrc) (by simp) hm (.inr rfl) (by simp) rfl (fun _ _ => rfl) ?_ (by simp [Pc.dlg])
    rw [hpc, unref_eq_none hnext hno]
    rfl

theorem onrouteEvent_effect (hpc : w.procs p = .onrouteEvent d req)
    (h : w.onrouteEvent p d req = some w') : Effect w p w' := by
  obtain ⟨⟨m, st⟩, hm, h⟩ := bind_eq_some_iff.mp h
  have hev : req.method.event ≠ .tdel := by cases req.method <;> simp [ReqMethod.event]
  have hrpl : req.method.event ≠ .rpl3xx := by cases req.method <;> simp [ReqMethod.event]
  obtain ⟨c', hnext⟩ := nextStateDlg_spec hev hm
  have hsrc : (w.procs p).dlg = some d ∧ (w.procs p).inTrans = false := by rw [hpc]; exact ⟨rfl, rfl⟩
  have htimeout : (w.procs p).dlg = some d → (w.procs p).refs = 0 → req.method.event = .reqbye := by simp [hpc, Pc.refs]
  dsimp only at h
  split at h
  · obtain ⟨u, hu, rfl⟩ := map_eq_some_iff.mp h
    refine .event (.inl hsrc) hev hm (.inl rfl) (by simp) rfl htimeout ?_ (by simp [Pc.refs])
    rw [hpc, hu]
    simp [Pc.refs, add_comm]
  · rename_i hbye
    split at h
    · rename_i hconf
      cases h
      refine .event (.inl hsrc) hev hm (.inl rfl) (by simp) rfl htimeout ?_ (by simp [Pc.refs])
      rw [hpc, unref_eq_none hnext fun hc => by simp [hconf.2] at hc]
      rfl
    · cases h
      refine .event (.inl hsrc) hev hm (.inl rfl) (by simp) rfl htimeout ?_ (by simp [Pc.refs])
      have hu : st.unref = none := by
        cases hu : st.unref with
        | none => rfl
        | some u =>
          obtain ⟨-, hold, hnew, hkind⟩ := hnext.cell.unref u hu
          have hbye' := hkind.resolve_left hrpl
          exact absurd ⟨hbye', hnext.newState.trans hnew, by rw [hnext.oldState]; exact hold⟩ hbye
      rw [hpc, hu]
      rfl

theorem onreplyEvent_effect {reply : Option (Str × Bool)} (hidle : w.procs p = .idle) (htm : w.tmcb d)
    (hev : ev ≠ .tdel) (h : w.onreplyEvent p d ev reply = some w') : Effect w p w' := by
  obtain ⟨⟨m, st⟩, hm, h⟩ := bind_eq_some_iff.mp h
  obtain ⟨c', hnext⟩ := nextStateDlg_spec hev hm
  dsimp only at h
  have hrefs : (w.procs p).refs = 0 := by rw [hidle]; rfl
  have htimeout : (w.procs p).dlg = some d → (w.procs p).refs = 0 → ev = .reqbye := by simp [hidle, Pc.dlg]
  split at h
  · rename_i hearly
    cases h
    refine .event (.inr ⟨hidle, htm⟩) hev hm (.inl rfl) (by simp) rfl htimeout ?_ (fun _ _ => ⟨rfl, htm⟩)
    rw [hrefs, unref_eq_none hnext fun hc => by simp [hearly] at hc]
    rfl
  split at h
  · rename_i hconf
    obtain ⟨⟨toTag, legInfo⟩, -, rfl⟩ := map_eq_some_iff.mp h
    refine .event (.inr ⟨hidle, htm⟩) hev hm (.inl rfl) (by simp) rfl htimeout ?_ (fun _ _ => ⟨rfl, htm⟩)
    rw [hrefs, unref_eq_none hnext fun hc => by simp [hconf.1] at hc]
    rfl
  split at h
  · obtain ⟨u, hu, rfl⟩ := map_eq_some_iff.mp h
    refine .event (.inr ⟨hidle, htm⟩) hev hm (.inl rfl) (by simp) rfl htimeout ?_ (fun _ _ => ⟨rfl, htm⟩)
    rw [hrefs, hu]
    simp [Pc.refs]
  · rename_i hfail
    cases h
    refine .event (.inr ⟨hidle, htm⟩) hev hm (.inr rfl) (by simp) rfl htimeout ?_ (by simp [Pc.dlg])
    rw [hrefs, unref_eq_none hnext fun hc => hfail ⟨hc.2, hc.1⟩]
    rfl

theorem transDeleted_effect (hidle : w.procs p = .idle) (htm : w.tmcb d) (hfree : w.TransFree d)
    (h : onreplyEvent { w with tmcb := update w.tmcb d false } p d .tdel none = some w') : Effect w p w' := by
  obtain ⟨⟨m, st⟩, hm, h⟩ := bind_eq_some_iff.mp h
  obtain ⟨c, m₁, -, -, -, -, hold, hnew, hkind⟩ := nextStateDlg_tdel hm
  dsimp only at h
  have hearly : st.newState ≠ .early := by
    rw [hnew]
    rcases hkind with ⟨-, hc, -⟩ | ⟨-, hc, -⟩
    · simp [hc]
    · exact hc
  rw [if_neg hearly] at h
  split at h
  · cases h
  split at h
  · obtain ⟨u, hu, rfl⟩ := map_eq_some_iff.mp h
    have hone : u = 1 := by
      rcases hkind with ⟨-, -, hc⟩ | ⟨-, -, hc⟩
      · exact Option.some.inj (hu.symm.trans hc)
      · simp [hu] at hc
    refine .transDeleted hidle htm hfree hm (.inl ⟨rfl, ?_⟩) (by simp) rfl ?_
    · simp [Pc.refs, hone]
    · rw [hu]
      rfl
  · rename_i hno
    cases h
    refine .transDeleted hidle htm hfree hm (.inr rfl) (by simp) rfl ?_
    have hu : st.unref = none := by
      rcases hkind with ⟨hc, hc', -⟩ | ⟨-, -, hc⟩
      · exact absurd ⟨by rw [hold]; exact hc, hnew.trans hc'⟩ hno
      · exact hc
    rw [hu]
    rfl

theorem unref_effect {pc : Pc} {unref : Nat} (hpc : w.procs p = pc) (hd : pc.dlg = some d)
    (hpoint : ∀ d, pc ≠ .ontimeoutEvent d) (h : (w.shm.unrefDlg d unref).map (w.goto p · .idle) = some w')
    (hrefs : pc.refs = unref) : Effect w p w' := by
  subst hpc
  obtain ⟨m', hm', rfl⟩ := map_eq_some_iff.mp h
  refine .unref hd hpoint ?_
  rw [hrefs]
  exact hm'

/-- **A step of a process that goes on.** -/
theorem go_effect (h : w.go fuel ticks p (w.procs p) = some w') : Effect w p w' := by
  generalize hpc : w.procs p = pc at h
  cases pc with
  | idle => cases h
  | onreqRegister =>
    cases h
    exact onreqRegister_effect hpc
  | onreqError d =>
    obtain ⟨m', hm', rfl⟩ := map_eq_some_iff.mp h
    exact .drop hpc hm'
  | onreplyCallbacks d =>
    cases h
    exact .return hpc (.touch _ _) rfl rfl
  | onreplyConfirmed =>
    cases h
    split
    · exact move_effect hpc ((Shm.Same.touch _ _).setCell rfl rfl rfl) .same
    · exact move_effect hpc (.touch _ _) .same
  | onreplyInsert d =>
    obtain ⟨⟨t, ret⟩, ht, rfl⟩ := map_eq_some_iff.mp h
    exact move_effect hpc ((Shm.Same.touch _ _).timer _) (.insert _ _ _ rfl ht)
  | onreplyFailed | onrouteTerminated | onrouteWithin | ontimeoutExpired =>
    cases h
    exact move_effect hpc (.touch _ _) .same
  | onreplyUnref | onrouteUnref | ontimeoutUnref => exact unref_effect hpc rfl (by simp) h rfl
  | onrouteGet =>
    cases h
    exact (onrouteGet_seeks ..).effect (by rw [hpc]; rfl)
  | onrouteMatch d req =>
    cases h
    exact onrouteMatch_effect hpc
  | onrouteEvent d req => exact onrouteEvent_effect hpc h
  | onrouteBye =>
    obtain ⟨⟨t, ret⟩, ht, rfl⟩ := map_eq_some_iff.mp h
    exact move_effect hpc ((Shm.Same.touch _ _).timer _) (.remove ht)
  | onrouteUpdate d timeout =>
    obtain ⟨⟨t, ret⟩, ht, rfl⟩ := map_eq_some_iff.mp h
    have hsame : w.shm.Same ((w.shm.touch d).setCell d { (w.shm.touch d).cells d with lifetime := timeout }) :=
      (Shm.Same.touch _ _).setCell rfl rfl rfl
    dsimp only
    split
    all_goals
      exact move_effect hpc (hsame.timer _) (.update _ _ _ rfl ht)
  | ontimeoutEvent d => exact ontimeoutEvent_effect hpc h

theorem start_effect [Fintype ι] {c : Call} (hidle : w.procs p = .idle) (h : w.start fuel p c = some w') :
    Effect w p w' := by
  cases c with
  | dlgOnreq req =>
    obtain ⟨-, h⟩ := ite_none_left_eq_some.mp h
    cases h
    exact dlgOnreq_effect hidle req
  | dlgOnreply d type =>
    obtain ⟨htm, h⟩ := ite_none_left_eq_some.mp h
    rw [not_or, not_not] at htm
    cases type with
    | responseFwded =>
      cases h
      exact .answer hidle htm.2
    | responseOut code =>
      have hev : replyEvent code ≠ .tdel := by
        rw [replyEvent]
        split_ifs <;> simp
      exact onreplyEvent_effect hidle htm.2 hev h
    | transDeleted =>
      obtain ⟨hfree, h⟩ := ite_none_right_eq_some.mp h
      exact transDeleted_effect hidle htm.2 hfree h
  | dlgOnroute req =>
    obtain ⟨-, h⟩ := ite_none_left_eq_some.mp h
    cases h
    exact (dlgOnroute_seeks w p req).effect (by rw [hidle]; rfl)
  | dlgTimerRoutine ticks =>
    obtain ⟨htl, h⟩ := ite_none_left_eq_some.mp h
    rw [not_or, not_not, not_not] at htl
    obtain ⟨⟨t, ret⟩, ht, rfl⟩ := map_eq_some_iff.mp h
    exact .expire htl.2 ht
  | dlgOntimeout =>
    obtain ⟨-, h⟩ := ite_none_left_eq_some.mp h
    split at h
    · rename_i d htl
      cases h
      exact .unlink hidle htl
    · cases h

/-- **Every step** has one of the effects. -/
theorem exec_effect [Fintype ι] {a : Act} (h : w.exec fuel p a = some w') : Effect w p w' := by
  cases a with
  | call c =>
    obtain ⟨hidle, h⟩ := ite_none_right_eq_some.mp h
    exact start_effect hidle h
  | go ticks => exact go_effect h

/-- A step raises a count by one at most; a new dialog has two references. -/
theorem Effect.ref_le {n : Int} (h : Effect w p w') (hn : 1 ≤ n) (hle : ∀ d, (w.shm.cells d).ref ≤ n) (d : Nat) :
    (w'.shm.cells d).ref ≤ n + 1 := by
  have hset : ∀ {m' : Shm} {d₀ : Nat} {c : DlgCell}, m'.cells = update w.shm.cells d₀ c → c.ref ≤ n + 1 →
      (m'.cells d).ref ≤ n + 1 := by
    intro m' d₀ c hcells hc
    rw [hcells, update_apply]
    split
    · exact hc
    · exact (hle d).trans (by omega)
  have hrise : ∀ {m' : Shm} {d₀ : Nat} {c : DlgCell}, m'.cells = update w.shm.cells d₀ c →
      c.ref ≤ (w.shm.cells d₀).ref + 1 → (m'.cells d).ref ≤ n + 1 :=
    fun hcells hc => hset hcells (hc.trans (add_le_add_left (hle _) 1))
  cases h with
  | skip | expire | seek | answer | unlink => exact (hle d).trans (by omega)
  | register _ hsame | move _ _ _ _ _ _ _ hsame | «return» _ hsame | leak _ hsame =>
    exact (hsame.ref d).trans_le ((hle d).trans (by omega))
  | link => exact hset rfl (show (1 : Int) + 1 ≤ n + 1 by omega)
  | unref _ _ hm | drop _ hm => exact hrise (unrefDlg_spec hm).cells (by simp only [Shm.touch]; omega)
  | acquire => exact hrise rfl le_rfl
  | event _ hev hm =>
    obtain ⟨c, hnext⟩ := nextStateDlg_spec hev hm
    exact hrise hnext.cells hnext.cell.ref_le_succ
  | transDeleted _ _ _ hm =>
    obtain ⟨c, m₁, hunref, rfl, href, -⟩ := nextStateDlg_tdel hm
    refine hrise (hunref.cells.trans (update_idem ..)) ?_
    simp only [Shm.setCell_cells, href]
    omega

end Steps

end OpenSer.Dialog
