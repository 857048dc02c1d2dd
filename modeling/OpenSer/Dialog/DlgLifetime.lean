import OpenSer.Dialog.DlgStats
import OpenSer.Dialog.DlgTimerRun

/-!
# The life of a dialog

Handlers that run side by side, in any interleaving. A reference protects a dialog; the timers do not hold one.

* `World.Guarded`: a step that does not release the last reference where nothing else protects the dialog.
* `exec_freed`: only the release of the last reference frees a dialog.
* `LifeOk.step`: what keeps every dialog that somebody can reach from being freed.
* `intact_of_guarded`: the runs in which nothing reaches a dialog after it was freed.
* `freed_then_read`: a BYE before the transaction is deleted. The transaction has the last reference, and
  `next_state_dlg` reads the state of the dialog that it has just freed.
* `protected_of_guarded`: the table and the counts in those runs.
-/

namespace OpenSer.Dialog

open List Function Option
open Lib (Trace Walk)

variable {ι : Type}

/-- The timers that `dlg_timer_routine` has taken and not handled. -/
def World.Taken (w : World ι) (D : List Tl) : Prop := Walk w.shm.timer.next w.tl D .null ∧ .null ∉ D

def World.Frees (w w' : World ι) (d : Nat) : Prop := w.shm.freed d = false ∧ w'.shm.freed d = true

/-- The dialog of which a step releases references, and how many. -/
def World.released (w : World ι) (p : ι) : Act → Option (Nat × Int)
  | .call (.dlgOnreply d .transDeleted) => some (d, 1)
  | .call _ => none
  | .go _ =>
    match w.procs p with
    | .onreqError d => some (d, 2)
    | .onreplyUnref d n | .onrouteUnref d n | .ontimeoutUnref d n => some (d, n)
    | _ => none

/-- The step releases the last references to the dialog. -/
def World.ReleasesLast (w : World ι) (p : ι) (a : Act) (d : Nat) : Prop :=
  ∃ n, w.released p a = some (d, n) ∧ (w.shm.cells d).ref ≤ n

/-- A step that meets none of the cases in which nothing protects a dialog. -/
structure World.Guarded (w : World ι) (p : ι) (a : Act) : Prop where
  /-- `dlg_onreq` does not fail behind `link_dlg`. -/
  onreq : ∀ d, w.procs p ≠ .onreqError d
  /-- The transaction does not have the last reference when it is deleted. -/
  trans : ∀ d, a = .call (.dlgOnreply d .transDeleted) → 1 < (w.shm.cells d).ref
  /-- The last reference is not released while the timer routine has taken the timer of the dialog. -/
  taken : ∀ d D, w.ReleasesLast p a d → w.Taken D → .dlg d ∉ D
  /-- It is not released while the timer routine is about to handle the dialog. -/
  timeout : ∀ d q, w.ReleasesLast p a d → w.procs q ≠ .ontimeoutEvent d
  /-- The last timer that has been taken is not set again. -/
  last : ∀ d D, (w.procs p = .onreplyInsert d ∨ ∃ timeout, w.procs p = .onrouteUpdate d timeout) → w.Taken D →
    D.getLast? ≠ some (.dlg d)

/-- No dialog was accessed after it was freed, each was freed once at most, and only when deleted. -/
structure Shm.Intact (m : Shm) : Prop where
  uaf : m.uaf = false
  once : (m.destroyed.map Prod.fst).Nodup
  deleted : ∀ x ∈ m.destroyed, x.2 = .deleted

variable [Fintype ι] {B : Int → Prop}

/-- The invariant: what a process or the timer routine can reach is not freed. -/
structure World.LifeOk (w : World ι) : Prop where
  ok : w.Ok (0 ≤ ·)
  timer : ∃ L D, TimerOk w.shm.timer w.tl L D ∧ ∀ d, .dlg d ∈ L ++ D → w.shm.Live d
  point : ∀ q d, w.procs q = .ontimeoutEvent d → w.shm.Live d
  intact : w.shm.Intact
  freed : ∀ x ∈ w.shm.destroyed, w.shm.freed x.1

/-! ## Steps -/

section Freed

variable {w w' : World ι} {p : ι} {d : Nat} {a : Act}

omit [Fintype ι] in
theorem Unref.freed_cases {m m' : Shm} {n : Int} (hu : Unref m d n m') (hm : m.freed = w.shm.freed)
    (href : (m.cells d).ref = (w.shm.cells d).ref) (hreleased : w.released p a = some (d, n)) :
    m'.freed = w.shm.freed ∨ ∃ d, w.ReleasesLast p a d ∧ m'.freed = update w.shm.freed d true := by
  rcases lt_or_ge 0 ((m.cells d).ref - n) with hlt | hle
  · exact .inl ((hu.alive hlt).2.1.trans hm)
  · refine .inr ⟨d, ⟨n, hreleased, by omega⟩, ?_⟩
    rw [(hu.dead hle).2.1, hm]

omit [Fintype ι] in
theorem Calls.freed {ev : DlgEvent} (h : Calls w p d ev w') (hev : ev ≠ .tdel) : w'.shm.freed = w.shm.freed := by
  obtain ⟨⟨st, hm⟩, -⟩ := h
  obtain ⟨c, hnext⟩ := nextStateDlg_spec hev hm
  exact hnext.freed

variable [DecidableEq ι]

omit [Fintype ι] in
theorem Seeks.freed (h : Seeks w p w') : w'.shm.freed = w.shm.freed := by
  cases h <;> rfl

/-- The calls that begin a handler. -/
theorem start_freed {fuel : Nat} {c : Call} (h : w.start fuel p c = some w') :
    w'.shm.freed = w.shm.freed ∨ ∃ d, w.ReleasesLast p (.call c) d ∧ w'.shm.freed = update w.shm.freed d true := by
  cases c with
  | dlgOnreq req =>
    obtain ⟨-, h⟩ := ite_none_left_eq_some.mp h
    cases h
    refine .inl ?_
    unfold World.dlgOnreq
    split
    · split <;> rfl
    · rfl
  | dlgOnreply d type =>
    obtain ⟨-, h⟩ := ite_none_left_eq_some.mp h
    cases type with
    | responseFwded =>
      cases h
      exact .inl rfl
    | responseOut code =>
      refine .inl ((onreplyEvent_calls h).freed ?_)
      rw [replyEvent]
      split_ifs <;> simp
    | transDeleted =>
      obtain ⟨-, h⟩ := ite_none_right_eq_some.mp h
      obtain ⟨⟨st, hm⟩, -⟩ := onreplyEvent_calls h
      obtain ⟨c, m₁, hunref, hw', href, -⟩ := nextStateDlg_tdel hm
      rw [hw']
      exact hunref.freed_cases rfl (by simpa using href) rfl
  | dlgOnroute req =>
    obtain ⟨-, h⟩ := ite_none_left_eq_some.mp h
    cases h
    exact .inl (dlgOnroute_seeks w p req).freed
  | dlgTimerRoutine ticks =>
    obtain ⟨-, h⟩ := ite_none_left_eq_some.mp h
    obtain ⟨⟨t, ret⟩, -, rfl⟩ := map_eq_some_iff.mp h
    exact .inl rfl
  | dlgOntimeout =>
    obtain ⟨-, h⟩ := ite_none_left_eq_some.mp h
    split at h
    · cases h
      exact .inl rfl
    · cases h

omit [Fintype ι] in
/-- The steps of a handler that goes on. -/
theorem go_freed {fuel ticks : Nat} {pc : Pc} (hpc : w.procs p = pc) (h : w.go fuel ticks p pc = some w') :
    w'.shm.freed = w.shm.freed ∨ ∃ d, w.ReleasesLast p (.go ticks) d ∧ w'.shm.freed = update w.shm.freed d true := by
  cases pc with
  | idle => cases h
  | onreqError | onreplyUnref | onrouteUnref | ontimeoutUnref =>
    obtain ⟨m', hm', rfl⟩ := map_eq_some_iff.mp h
    exact (unrefDlg_spec hm').freed_cases rfl rfl (by rw [World.released, hpc])
  | onrouteGet =>
    cases h
    exact .inl (onrouteGet_seeks ..).freed
  | onrouteEvent d req =>
    refine .inl ((onrouteEvent_calls h).freed ?_)
    cases req.method <;> decide
  | ontimeoutEvent d => exact .inl ((ontimeoutEvent_calls h).freed (by decide))
  | onreplyInsert | onrouteBye | onrouteUpdate =>
    obtain ⟨⟨t, ret⟩, -, rfl⟩ := map_eq_some_iff.mp h
    exact .inl rfl
  | onrouteMatch d req =>
    cases h
    refine .inl ?_
    unfold World.onrouteMatch
    split
    · rfl
    · dsimp only
      split <;> rfl
  | onreqRegister =>
    cases h
    refine .inl ?_
    unfold World.onreqRegister
    dsimp only
    split <;> rfl
  | onreplyConfirmed =>
    cases h
    refine .inl ?_
    dsimp only
    split <;> rfl
  | onreplyCallbacks | onreplyFailed | onrouteTerminated | onrouteWithin | ontimeoutExpired =>
    cases h
    exact .inl rfl

/-- **A dialog is freed** only by a step that releases the last references to it. -/
theorem exec_freed {fuel : Nat} (h : w.exec fuel p a = some w') :
    w'.shm.freed = w.shm.freed ∨ ∃ d, w.ReleasesLast p a d ∧ w'.shm.freed = update w.shm.freed d true := by
  cases a with
  | call c =>
    obtain ⟨-, h⟩ := ite_none_right_eq_some.mp h
    exact start_freed h
  | go ticks => exact go_freed rfl h

theorem exec_frees {fuel : Nat} (h : w.exec fuel p a = some w') (hfrees : w.Frees w' d) : w.ReleasesLast p a d := by
  obtain ⟨hbefore, hafter⟩ := hfrees
  rcases exec_freed h with hsame | ⟨d', hlast, hfreed⟩
  · rw [hsame, hbefore] at hafter
    cases hafter
  · rw [hfreed, update_apply] at hafter
    split at hafter
    · rename_i hd
      rwa [hd]
    · rw [hbefore] at hafter
      cases hafter

end Freed

section Timers

variable {w w' : World ι} {p : ι} {d : Nat}

/-- What a step may do to the timers, and to dialogs that it frees. -/
inductive TimerChange (w : World ι) (p : ι) (w' : World ι) : Prop where
  | same (htimer : w'.shm.timer = w.shm.timer) (htl : w'.tl = w.tl) (hfreed : w'.shm.freed = w.shm.freed)
      (hdes : w'.shm.destroyed = w.shm.destroyed)
  | op {d : Nat} (hd : (w.procs p).dlg = some d) (hpoint : w.procs p ≠ .ontimeoutEvent d)
      (hop : TimerOp (w.procs p) d w.shm.timer w'.shm.timer) (htl : w'.tl = w.tl) (hfreed : w'.shm.freed = w.shm.freed)
      (hdes : w'.shm.destroyed = w.shm.destroyed)
  | free {d : Nat} {ret : Int} (hlive : w.shm.Live d) (href : (w'.shm.cells d).ref ≤ 0)
      (hm : w.shm.timer.removeDlgTimer (.dlg d) = some (w'.shm.timer, ret)) (htl : w'.tl = w.tl)
      (hfreed : w'.shm.freed = update w.shm.freed d true)
      (hdes : w'.shm.destroyed = (d, (w'.shm.cells d).state) :: w.shm.destroyed)
  | expire {fuel time : Nat} (htl : w.tl = .null)
      (hm : w.shm.timer.getExpiredDlgs fuel time = some (w'.shm.timer, w'.tl))
      (hfreed : w'.shm.freed = w.shm.freed) (hdes : w'.shm.destroyed = w.shm.destroyed)
  | unlink {d : Nat} (htl : w.tl = .dlg d) (hm : w.shm.timer.unlinkExpired w.tl = (w'.shm.timer, w'.tl))
      (hfreed : w'.shm.freed = w.shm.freed) (hdes : w'.shm.destroyed = w.shm.destroyed)

omit [Fintype ι] in
theorem TimerChange.unref {m m₁ : Shm} {cnt : Int} (hu : Unref m d cnt m₁) (hlive : w.shm.Live d)
    (hfreed : m.freed = w.shm.freed) (hdes : m.destroyed = w.shm.destroyed) (htimer : m.timer = w.shm.timer)
    (htl : w'.tl = w.tl) (htimer' : w'.shm.timer = m₁.timer) (hfreed' : w'.shm.freed = m₁.freed)
    (hdes' : w'.shm.destroyed = m₁.destroyed) (hcells : w'.shm.cells = m₁.cells) : TimerChange w p w' := by
  rcases lt_or_ge 0 ((m.cells d).ref - cnt) with hlt | hle
  · obtain ⟨-, hf, ht, hd⟩ := hu.alive hlt
    exact .same (by rw [htimer', ht, htimer]) htl (by rw [hfreed', hf, hfreed]) (by rw [hdes', hd, hdes])
  · obtain ⟨-, hf, hd, ret, hr⟩ := hu.dead hle
    have hcell : w'.shm.cells d = { m.cells d with ref := (m.cells d).ref - cnt } := by
      rw [hcells, hu.cells, update_self]
    refine .free hlive ?_ (by rw [htimer', ← htimer]; exact hr) htl (by rw [hfreed', hf, hfreed]) ?_
    · rw [hcell]
      exact hle
    · rw [hdes', hd, hdes, hcell]

variable [DecidableEq ι]

theorem Effect.timerChange (h : Effect w p w') (hok : w.Ok B) : TimerChange w p w' := by
  cases h with
  | skip | link | acquire | seek | answer => exact .same rfl rfl rfl rfl
  | register hpc hsame htimer huaf | «return» hpc hsame htimer huaf | leak _ hsame htimer =>
    exact .same htimer rfl hsame.freed hsame.destroyed
  | move hd _ _ _ _ _ hpoint' hsame htimer =>
    exact .op hd (hpoint' _) htimer rfl hsame.freed hsame.destroyed
  | unref hd hpoint' hm =>
    exact .unref (unrefDlg_spec hm) (hok.live hd (hpoint' _)) rfl rfl rfl rfl rfl rfl rfl rfl
  | drop hpc hm =>
    have hlive := hok.held p _ (by rw [hpc]; rfl) (by simp [hpc, Pc.refs])
    exact .unref (unrefDlg_spec hm) hlive rfl rfl rfl rfl rfl rfl rfl rfl
  | event _ hev hm =>
    obtain ⟨c, hnext⟩ := nextStateDlg_spec hev hm
    exact .same hnext.timer rfl hnext.freed hnext.destroyed
  | transDeleted _ htm _ hm =>
    obtain ⟨c, m₁, hunref, rfl, -⟩ := nextStateDlg_tdel hm
    exact .unref hunref (hok.tmcb _ htm) rfl rfl rfl rfl rfl rfl rfl rfl
  | expire htl hm => exact .expire htl hm rfl rfl
  | unlink hidle htl => exact .unlink htl rfl rfl rfl

omit [Fintype ι] in
theorem Effect.point (h : Effect w p w') (hpc' : w'.procs p = .ontimeoutEvent d) :
    w.procs p = .ontimeoutEvent d ∨ w.tl = .dlg d := by
  have hgoto : ∀ {pc : Pc}, update w.procs p pc p = .ontimeoutEvent d → pc = .ontimeoutEvent d := fun h => by
    rwa [update_self] at h
  cases h with
  | skip | expire htl hm => exact .inl hpc'
  | link | register | «return» | unref | drop hpc hm | answer | leak => exact absurd (hgoto hpc') (by simp)
  | move _ _ _ _ _ hpoint | event _ _ _ _ hpoint | transDeleted _ _ _ _ _ hpoint =>
    exact absurd (hgoto hpc') (hpoint d)
  | acquire _ _ _ _ hrefs =>
    rw [hgoto hpc'] at hrefs
    simp [Pc.refs] at hrefs
  | seek hnone hd' =>
    rw [hgoto hpc'] at hd'
    simp [Pc.dlg] at hd'
  | unlink hidle htl =>
    obtain rfl := Pc.ontimeoutEvent.inj (hgoto hpc')
    exact .inr htl

end Timers

section Ops

variable {s s' : DlgTimer} {start : Tl} {L D : List Tl} {d : Nat} {pc : Pc}

theorem TimerOk.remove {ret : Int} (h : TimerOk s start L D) (hm : s.removeDlgTimer (.dlg d) = some (s', ret)) :
    TimerOk s' start (L.erase (.dlg d)) D := by
  by_cases hd : Tl.dlg d ∈ L
  · obtain ⟨s₁, hs₁, -, hok⟩ := h.remove_on hd
    obtain ⟨rfl, -⟩ := Prod.mk.inj (some.inj (hm.symm.trans hs₁))
    exact hok
  · rw [h.remove_off hd] at hm
    cases hm
    rw [erase_of_not_mem hd]
    exact h

/-- The calls for the timer of a dialog keep the list. -/
theorem TimerOk.op (h : TimerOk s start L D) (hop : TimerOp pc d s s')
    (hlast : (pc = .onreplyInsert d ∨ ∃ timeout, pc = .onrouteUpdate d timeout) → D.getLast? ≠ some (.dlg d)) :
    ∃ L', TimerOk s' start L' D ∧ ∀ x ∈ L', x = .dlg d ∨ x ∈ L := by
  have hplaced : ∀ L₁ : List Tl, L₁ ⊆ L → ∀ x ∈ placed s'.timeout (.dlg d) L₁, x = .dlg d ∨ x ∈ L := fun L₁ hsub x hx =>
    (mem_cons.mp ((placed_perm _ _ _).mem_iff.mp hx)).imp_right fun hx => hsub hx
  cases hop with
  | same => exact ⟨L, h, fun x hx => .inr hx⟩
  | insert fuel _ _ hpc hm =>
    by_cases hx : Tl.dlg d ∈ L ++ D
    · rw [h.insert_busy (mem_append.mp hx) (hlast (.inl hpc))] at hm
      cases hm
      exact ⟨L, h, fun x hx => .inr hx⟩
    · obtain ⟨-, -, hok⟩ := (h.insert_free hx fuel).2 _ hm
      exact ⟨_, hok, hplaced L (List.Subset.refl L)⟩
  | update fuel ticks timeout hpc hm =>
    by_cases hL : Tl.dlg d ∈ L
    · obtain ⟨-, -, hok⟩ := (h.update_on hL fuel).2 _ hm
      exact ⟨_, hok, hplaced _ (erase_subset ..)⟩
    by_cases hD : Tl.dlg d ∈ D
    · rw [h.update_busy hD (hlast (.inr ⟨timeout, hpc⟩))] at hm
      cases hm
      exact ⟨L, h, fun x hx => .inr hx⟩
    · obtain ⟨-, -, hok⟩ := (h.update_free (by simp [hL, hD]) fuel).2 _ hm
      exact ⟨_, hok, hplaced L (List.Subset.refl L)⟩
  | remove hm => exact ⟨_, h.remove hm, fun x hx => .inr (mem_of_mem_erase hx)⟩

end Ops

namespace World.LifeOk

variable {w w' : World ι} {p : ι} {a : Act} {d : Nat} {D : List Tl}

theorem live (h : w.LifeOk) (hd : (w.procs p).dlg = some d) : w.shm.Live d := by
  by_cases hpoint : w.procs p = .ontimeoutEvent d
  · exact h.point p d hpoint
  · exact h.ok.live hd hpoint

theorem taken (h : w.LifeOk) (htl : w.tl = .dlg d) : ∃ D, w.Taken D ∧ .dlg d ∈ D := by
  obtain ⟨L, D, htimer, -⟩ := h.timer
  refine ⟨D, ⟨htimer.walk, htimer.null_notMem⟩, ?_⟩
  cases D with
  | nil =>
    have hnull : w.tl = .null := htimer.walk
    rw [htl] at hnull
    cases hnull
  | cons x D =>
    have hx : w.tl = x := htimer.walk.1
    rw [← htl, hx]
    exact mem_cons_self ..

theorem live_of_taken (h : w.LifeOk) (hD : w.Taken D) (hd : .dlg d ∈ D) : w.shm.Live d := by
  obtain ⟨L, D', htimer, hlive⟩ := h.timer
  obtain rfl := htimer.walk.unique hD.1 htimer.null_notMem hD.2
  exact hlive d (mem_append_right _ hd)

variable [DecidableEq ι]

section
variable (h : w.LifeOk)
include h

theorem uaf (he : Effect w p w') (hg : w.Guarded p a) (hfree : ∀ d, w.Frees w' d → w.ReleasesLast p a d) :
    w'.shm.uaf = false := by
  have huaf := h.intact.uaf
  have hnot : ∀ {d : Nat}, w.shm.Live d → (w.shm.uaf || w.shm.freed d) = false := fun hd => by rw [huaf, hd.2]; rfl
  cases he with
  | skip | link | acquire | seek | answer | expire htl hm => exact huaf
  | register hpc _ _ huaf' | «return» hpc _ _ huaf' =>
    exact huaf'.trans (hnot (h.live (p := p) (by rw [hpc]; rfl)))
  | move hd _ _ _ _ _ _ _ _ huaf' => exact huaf'.trans (hnot (h.live hd))
  | unref hd hpoint' hm => exact (unrefDlg_spec hm).uaf.trans (hnot (h.live hd))
  | drop hpc hm => exact absurd hpc (hg.onreq _)
  | event hsrc hev hm hd' hpoint honreq htimeout hrefs hprot =>
    rename_i d ev m' st pc'
    obtain ⟨c, hnext⟩ := nextStateDlg_spec hev hm
    have hlive : w.shm.Live d := by
      rcases hsrc with ⟨hd, -⟩ | ⟨-, htm⟩
      · exact h.live hd
      · exact h.ok.tmcb _ htm
    exact hnext.uaf.trans (hnot hlive)
  | transDeleted hidle htm _ hm hd' hpoint honreq hrefs =>
    rename_i d m' st pc' _
    have hlive := h.ok.tmcb _ htm
    obtain ⟨c, m₁, hunref, rfl, -⟩ := nextStateDlg_tdel hm
    have hkeep : m₁.freed d = false := by
      by_contra hc
      obtain ⟨n, hreleased, hle⟩ := hfree d ⟨hlive.2, (Bool.not_eq_false _).mp hc⟩
      rcases a with (_ | ⟨d', _ | _ | _⟩ | _ | _ | _) | _
      case call.dlgOnreply.transDeleted =>
        cases hreleased
        exact absurd hle (not_le.mpr (hg.trans d rfl))
      case go =>
        rw [World.released, hidle] at hreleased
        cases hreleased
      all_goals cases hreleased
    show (m₁.uaf || m₁.freed d) = false
    rw [hkeep, hunref.uaf, Bool.or_false]
    exact hnot hlive
  | leak hpc _ _ huaf' =>
    rcases huaf' with huaf' | huaf'
    · exact huaf'.trans (hnot (h.live (p := p) (by rw [hpc]; rfl)))
    · exact huaf'.trans huaf
  | unlink hidle htl =>
    obtain ⟨D, hD, hd⟩ := h.taken htl
    exact hnot (h.live_of_taken hD hd)

theorem keep (he : Effect w p w') (hlive : w.shm.Live d) (hno : ¬w.Frees w' d) : w'.shm.Live d := by
  refine ⟨lt_of_lt_of_le hlive.1 (he.change h.ok).fresh_le, ?_⟩
  by_contra hc
  exact hno ⟨hlive.2, (Bool.not_eq_false _).mp hc⟩

/-- A guarded step keeps the timers, and they belong to dialogs that are not freed. -/
theorem timer_step (he : Effect w p w') (hg : w.Guarded p a) (hfree : ∀ d, w.Frees w' d → w.ReleasesLast p a d) :
    ∃ L D, TimerOk w'.shm.timer w'.tl L D ∧ ∀ d, .dlg d ∈ L ++ D → w'.shm.Live d := by
  obtain ⟨L, D, htimer, hlive⟩ := h.timer
  have htaken : w.Taken D := ⟨htimer.walk, htimer.null_notMem⟩
  have hkeep : ∀ d, w.shm.Live d → w'.shm.freed = w.shm.freed → w'.shm.Live d := fun d hd hf =>
    h.keep he hd fun hc => by simp [World.Frees, hf] at hc
  cases he.timerChange h.ok with
  | same ht htl hf hdes =>
    rw [ht, htl]
    exact ⟨L, D, htimer, fun d hd => hkeep d (hlive d hd) hf⟩
  | op hd _ hop htl hf =>
    obtain ⟨L', htimer', hL'⟩ := htimer.op hop fun hc => hg.last _ D hc htaken
    rw [htl]
    refine ⟨L', D, htimer', fun d' hd' => hkeep d' ?_ hf⟩
    rcases mem_append.mp hd' with hd' | hd'
    · rcases hL' _ hd' with he | hd'
      · obtain rfl := Tl.dlg.inj he
        exact h.live hd
      · exact hlive d' (mem_append_left _ hd')
    · exact hlive d' (mem_append_right _ hd')
  | free hd href hm htl hf hdes =>
    rename_i d ret
    have hfrees : w.Frees w' d := ⟨hd.2, by rw [hf, update_self]⟩
    have hD : Tl.dlg d ∉ D := hg.taken d D (hfree d hfrees) htaken
    have htimer' := htimer.remove hm
    rw [htl]
    refine ⟨L.erase (.dlg d), D, htimer', fun d' hd' => ?_⟩
    have hne : d' ≠ d := by
      rintro rfl
      rcases mem_append.mp hd' with hc | hc
      · exact htimer.ring.nodup.not_mem_erase hc
      · exact hD hc
    refine h.keep he (hlive d' ?_) fun hc => ?_
    · rcases mem_append.mp hd' with hc | hc
      · exact mem_append_left _ (mem_of_mem_erase hc)
      · exact mem_append_right _ hc
    · have hc₁ := hc.1
      have hc₂ := hc.2
      rw [hf, update_of_ne hne, hc₁] at hc₂
      cases hc₂
  | expire htl hm hf hdes =>
    obtain rfl := htimer.eq_nil_of_null htl
    refine ⟨_, _, htimer.expired hm, fun d hd => hkeep d (hlive d ?_) hf⟩
    rcases mem_append.mp hd with hd | hd
    · exact mem_append_left _ (mem_filter.mp hd).1
    · exact mem_append_left _ (mem_filter.mp hd).1
  | unlink htl hm hf hdes =>
    cases D with
    | nil =>
      have hnull : w.tl = .null := htimer.walk
      rw [htl] at hnull
      cases hnull
    | cons x D =>
      obtain rfl : w.tl = x := htimer.walk.1
      have hok := htimer.unlink
      rw [hm] at hok
      refine ⟨L, D, hok, fun d hd => hkeep d (hlive d ?_) hf⟩
      rcases mem_append.mp hd with hd | hd
      · exact mem_append_left _ hd
      · exact mem_append_right _ (mem_cons_of_mem _ hd)

/-- A guarded step frees at most one dialog, which is deleted and not freed yet. -/
theorem destroyed_step (he : Effect w p w') (hg : w.Guarded p a) :
    (w'.shm.freed = w.shm.freed ∧ w'.shm.destroyed = w.shm.destroyed) ∨ ∃ d, w.shm.freed d = false ∧
      w'.shm.freed = update w.shm.freed d true ∧ w'.shm.destroyed = (d, .deleted) :: w.shm.destroyed := by
  cases he.timerChange h.ok with
  | same ht htl hf hdes | op _ _ _ _ hf hdes | expire htl hm hf hdes | unlink htl hm hf hdes => exact .inl ⟨hf, hdes⟩
  | free hd href hm htl hf hdes =>
    rename_i d ret
    have hbal : 0 ≤ w'.bal d := he.bal_ok h.ok hg.onreq (fun _ _ n hn => by omega) hd
    rw [(free_of_bal hbal href).1] at hdes
    exact .inr ⟨d, hd.2, hf, hdes⟩

/-- **One step** in which something protects the dialogs. -/
theorem step {fuel : Nat} (hexec : w.exec fuel p a = some w') (hg : w.Guarded p a) : w'.LifeOk := by
  have he := exec_effect hexec
  have hfree : ∀ d, w.Frees w' d → w.ReleasesLast p a d := fun d => exec_frees hexec
  obtain ⟨pc', hafter⟩ := he.after h.ok
  have hok : w'.Ok (0 ≤ ·) := he.ok h.ok le_rfl (fun n hn => hn) hg.onreq fun d _ n hn => by omega
  constructor
  case ok => exact hok
  case timer => exact h.timer_step he hg hfree
  case point =>
    intro q d hq
    by_cases hqp : q = p
    · subst hqp
      rcases he.point hq with hq | htl
      · exact h.keep he (h.point q d hq) fun hc => hg.timeout d q (hfree d hc) hq
      · obtain ⟨D, hD, hd⟩ := h.taken htl
        exact h.keep he (h.live_of_taken hD hd) fun hc => hg.taken d D (hfree d hc) hD hd
    · rw [hafter.procs, update_of_ne hqp] at hq
      exact h.keep he (h.point q d hq) fun hc => hg.timeout d q (hfree d hc) hq
  case intact =>
    rcases h.destroyed_step he hg with ⟨-, hdes⟩ | ⟨d, hd, -, hdes⟩
    · exact ⟨h.uaf he hg hfree, by rw [hdes]; exact h.intact.once, by rw [hdes]; exact h.intact.deleted⟩
    · refine ⟨h.uaf he hg hfree, ?_, ?_⟩
      · rw [hdes, map_cons, nodup_cons]
        refine ⟨fun hc => ?_, h.intact.once⟩
        obtain ⟨x, hx, hxd⟩ := mem_map.mp hc
        have hfreed := h.freed x hx
        rw [hxd, hd] at hfreed
        cases hfreed
      · rw [hdes]
        exact forall_mem_cons.mpr ⟨rfl, h.intact.deleted⟩
  case freed =>
    rcases h.destroyed_step he hg with ⟨hf, hdes⟩ | ⟨d, -, hf, hdes⟩
    · rw [hf, hdes]
      exact h.freed
    · rw [hf, hdes]
      refine forall_mem_cons.mpr ⟨update_self .., fun x hx => ?_⟩
      by_cases hxd : x.1 = d
      · rw [hxd]
        exact update_self ..
      · rw [update_of_ne hxd]
        exact h.freed x hx

end

omit [DecidableEq ι] in
theorem init (size : BitVec 32) (rand : Nat → BitVec 32) (timerProc : ι) (mode : SeqMatchMode) :
    (World.init size rand timerProc mode).LifeOk := by
  constructor
  case ok => exact (init_seqOk size rand timerProc mode).ok.mono fun n hn => hn.ge
  case timer => exact ⟨[], [], init_ok.timer, fun d hd => absurd hd not_mem_nil⟩
  case point => exact fun q d hq => by simp [World.init] at hq
  case intact => exact ⟨rfl, nodup_nil, forall_mem_nil _⟩
  case freed => exact forall_mem_nil _

end World.LifeOk

variable [DecidableEq ι]

/-- **The life of a dialog**, over every interleaving in which something protects it. -/
theorem intact_of_guarded {size : BitVec 32} {rand : Nat → BitVec 32} {timerProc : ι} {mode : SeqMatchMode}
    {es : List ((ι × Act) × World ι)} (h : Trace World.Step (World.init size rand timerProc mode) es)
    (hguarded : Trace (fun w a _ => w.Guarded a.1 a.2) (World.init size rand timerProc mode) es) :
    ∀ e ∈ es, e.2.shm.Intact := by
  have hall := (h.and hguarded).invariant (I := World.LifeOk) ?_ (.init size rand timerProc mode)
  · exact fun e he => (hall e he).intact
  · rintro w a w' hw ⟨⟨fuel, he⟩, hg⟩
    exact hw.step he hg

/-! ## Runs of one process beside the timer -/

/-- The timers that are found from a place on. -/
def takenFrom (t : DlgTimer) : Nat → Tl → Option (List Tl)
  | 0, _ => none
  | fuel + 1, x => if x = .null then some [] else (takenFrom t fuel (t.next x)).map (x :: ·)

theorem takenFrom_walk {t : DlgTimer} {fuel : Nat} {x : Tl} (h : takenFrom t fuel x = some D) :
    Walk t.next x D .null ∧ .null ∉ D := by
  induction fuel generalizing x D with
  | zero => cases h
  | succ fuel ih =>
    rw [takenFrom] at h
    split at h
    · cases h
      exact ⟨by assumption, not_mem_nil⟩
    · rename_i hx
      obtain ⟨D', hD', rfl⟩ := map_eq_some_iff.mp h
      obtain ⟨hwalk, hnull⟩ := ih hD'
      exact ⟨⟨rfl, hwalk⟩, fun hc => (mem_cons.mp hc).elim (fun hc => hx hc.symm) hnull⟩

/-- Whether a step is guarded, when these timers have been taken. -/
def guardedStep (w : World Bool) (a : Bool × Act) (D : List Tl) : Bool :=
  (match w.released a.1 a.2 with
    | none => true
    | some (d, n) =>
      if (w.shm.cells d).ref ≤ n then
        a.2 ≠ .call (.dlgOnreply d .transDeleted) ∧ .dlg d ∉ D ∧ ∀ q, w.procs q ≠ .ontimeoutEvent d
      else true) &&
  match w.procs a.1 with
  | .onreqError _ => false
  | .onreplyInsert d | .onrouteUpdate d _ => D.getLast? ≠ some (.dlg d)
  | _ => true

/-- Executes a step that is guarded. -/
def guardedExec (w : World Bool) (a : Bool × Act) : Option (World Bool) :=
  (takenFrom w.shm.timer 10 w.tl).bind fun D => if guardedStep w a D then w.exec 10 a.1 a.2 else none

theorem guardedExec_step {w w' : World Bool} {a : Bool × Act} (h : guardedExec w a = some w') :
    w.exec 10 a.1 a.2 = some w' ∧ w.Guarded a.1 a.2 := by
  obtain ⟨D, hD, h⟩ := bind_eq_some_iff.mp h
  obtain ⟨hcheck, hexec⟩ := ite_none_right_eq_some.mp h
  obtain ⟨hwalk, hnull⟩ := takenFrom_walk hD
  have htaken : ∀ D', w.Taken D' → D' = D := fun D' hD' => hD'.1.unique hwalk hD'.2 hnull
  obtain ⟨hreleased, hpc⟩ := Bool.and_eq_true_iff.mp hcheck
  have hlast : ∀ d, w.ReleasesLast a.1 a.2 d → a.2 ≠ .call (.dlgOnreply d .transDeleted) ∧ .dlg d ∉ D ∧
      ∀ q, w.procs q ≠ .ontimeoutEvent d := by
    rintro d ⟨n, hn, hle⟩
    rw [hn] at hreleased
    dsimp only at hreleased
    rw [if_pos hle] at hreleased
    exact of_decide_eq_true hreleased
  refine ⟨hexec, fun d hd => ?_, fun d ha => ?_, fun d D' hd hD' => ?_, fun d q hd => (hlast d hd).2.2 q,
    fun d D' hd hD' => ?_⟩
  · rw [hd] at hpc
    cases hpc
  · by_contra hle
    exact (hlast d ⟨1, by rw [ha]; rfl, not_lt.mp hle⟩).1 ha
  · rw [htaken D' hD']
    exact (hlast d hd).2.1
  · rw [htaken D' hD']
    rcases hd with hd | ⟨timeout, hd⟩
    · rw [hd] at hpc
      exact of_decide_eq_true hpc
    · rw [hd] at hpc
      exact of_decide_eq_true hpc

/-- A run that `guardedExec` executes is a trace of guarded steps. -/
theorem guardedExec_trace {w : World Bool} {as : List (Bool × Act)} (h : (Lib.exec guardedExec w as).isSome) :
    ∃ es, Trace World.Step w es ∧ Trace (fun w a _ => w.Guarded a.1 a.2) w es ∧ es.map Prod.fst = as ∧
      Lib.exec guardedExec w as = some ((es.map Prod.snd).getLastD w) := by
  obtain ⟨w', hw'⟩ := isSome_iff_exists.mp h
  obtain ⟨es, hes, hlabels, hend⟩ := Lib.exec_trace hw'
  exact ⟨es, hes.imp fun _ _ _ he => ⟨10, (guardedExec_step he).1⟩, hes.imp fun _ _ _ he => (guardedExec_step he).2,
    hlabels, by rw [hw', hend]⟩

/-- Two dialogs are established. The first one ends with a BYE; the second one expires, and its handler runs while a
request within it is answered. -/
def byeAndTimeout : List (Bool × Act) :=
  (establish ++ bye).map (true, ·) ++
    [(true, .call (.dlgOnreq invite)), (true, .go 0), (true, .call (.dlgOnreply 1 (.responseOut 200 ['b'] true))),
      (true, .go 0), (true, .go 0), (true, .go 0), (true, .call (.dlgOnreply 1 .transDeleted)),
      (false, .call (.dlgTimerRoutine 20)),
      (true, .call (.dlgOnroute ⟨.other, some (some (0, 1)), some ⟨['c'], ['a'], ['b']⟩, 10⟩)),
      (false, .call .dlgOntimeout), (false, .go 20), (true, .go 20), (true, .go 20), (false, .go 20), (true, .go 20),
      (false, .go 20)]

/-- Nothing is accessed after it was freed, and both dialogs are. -/
theorem intact_after_bye : ∃ es, Trace World.Step smallTable es ∧ es.map Prod.fst = byeAndTimeout ∧
    (∀ e ∈ es, e.2.shm.Intact) ∧ ((es.map Prod.snd).getLastD smallTable).shm.destroyed =
      [(1, .deleted), (0, .deleted)] := by
  obtain ⟨es, hstep, hguarded, hlabels, hend⟩ :=
    guardedExec_trace (show (Lib.exec guardedExec smallTable byeAndTimeout).isSome by decide +kernel)
  have hdestroyed : (Lib.exec guardedExec smallTable byeAndTimeout).map (·.shm.destroyed) =
      some [(1, .deleted), (0, .deleted)] := by decide +kernel
  rw [hend, map_some, some.injEq] at hdestroyed
  exact ⟨es, hstep, hlabels, intact_of_guarded hstep hguarded, hdestroyed⟩

/-- A dialog is confirmed, and ended with a BYE while its transaction is still there; then the transaction is
deleted. -/
def byeFirst : List Act := establish.dropLast ++ bye ++ [.call (.dlgOnreply 0 .transDeleted)]

/-- The transaction has the last reference: `next_state_dlg` frees the dialog, and reads its state. -/
theorem freed_then_read : ∃ es w, Trace World.Step smallTable es ∧ es.map Prod.fst = byeFirst.map (true, ·) ∧
    (es.map Prod.snd).getLastD smallTable = w ∧ w.shm.freed 0 = true ∧ w.shm.uaf = true := by
  apply Lib.exec_shows fun _ _ _ he => (seqExec_step he).1
  decide +kernel

/-! ## What protects a dialog -/

/-- The table has exactly the dialogs that are not freed, each once and in its entry. What the timers, the transactions
and the processes can reach is in the table, and its count covers the table, the transaction and the processes. -/
structure World.Protected (w : World ι) : Prop where
  table : ∀ d h, d ∈ w.shm.entries h ↔ w.shm.Live d ∧ (w.shm.cells d).hEntry = h
  nodup : ∀ h, (w.shm.entries h).Nodup
  reached : ∀ q d, (w.procs q).dlg = some d → w.shm.Live d
  trans : ∀ d, w.tmcb d → w.shm.Live d
  timers : ∃ L D, TimerOk w.shm.timer w.tl L D ∧ ∀ d, .dlg d ∈ L ++ D → w.shm.Live d
  count : ∀ d, w.shm.Live d → 0 < (w.shm.cells d).ref ∧
    (if (w.shm.cells d).state = .deleted then 0 else 1) + (if w.tmcb d then 1 else 0) + held w.procs d ≤
      (w.shm.cells d).ref

/-- **Protection**, over every interleaving of guarded steps. -/
theorem protected_of_guarded {size : BitVec 32} {rand : Nat → BitVec 32} {timerProc : ι} {mode : SeqMatchMode}
    {es : List ((ι × Act) × World ι)} (h : Trace World.Step (World.init size rand timerProc mode) es)
    (hguarded : Trace (fun w a _ => w.Guarded a.1 a.2) (World.init size rand timerProc mode) es) :
    ∀ e ∈ es, e.2.Protected := by
  have hall := (h.and hguarded).invariant (I := World.LifeOk) ?_ (.init size rand timerProc mode)
  · intro e he
    have hlife := hall e he
    refine ⟨hlife.ok.shm.mem, hlife.ok.shm.nodup, fun q d => hlife.live, hlife.ok.tmcb, hlife.timer, fun d hd => ?_⟩
    have hbal := hlife.ok.bal d hd
    rw [World.bal, Shm.due] at hbal
    exact ⟨hlife.ok.shm.pos d hd, by omega⟩
  · rintro w a w' hw ⟨⟨fuel, he⟩, hg⟩
    exact hw.step he hg

/-- The same run: all along, what can be reached is protected. -/
theorem protected_until_timeout : ∃ es, Trace World.Step smallTable es ∧ es.map Prod.fst = byeAndTimeout ∧
    ∀ e ∈ es, e.2.Protected := by
  obtain ⟨es, hstep, hguarded, hlabels, -⟩ :=
    guardedExec_trace (show (Lib.exec guardedExec smallTable byeAndTimeout).isSome by decide +kernel)
  exact ⟨es, hstep, hlabels, protected_of_guarded hstep hguarded⟩

end OpenSer.Dialog
