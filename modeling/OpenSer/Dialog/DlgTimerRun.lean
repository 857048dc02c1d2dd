import OpenSer.Dialog.DlgTimerInv

/-!
# The dialog timer over every interleaving

Any process may set, move and remove timers at any time, and `dlg_timer_routine` takes the expired ones and handles them
one by one. As long as nobody sets the last of the taken timers again, everything stays well formed and every setting of
a timer is accounted for: it is pending, taken back, or handled once (`RunOk.step`).
-/

namespace OpenSer.Dialog

open Option List Function Lib

variable {w w' : TimerRun} {L D L' : List Tl} {x : Tl} {n fuel : Nat} {a : TimerStep}

/-- The timers are well formed, and each setting is on the list, taken by the routine, handled or taken back. -/
structure RunOk (w : TimerRun) (L D : List Tl) : Prop where
  timer : TimerOk w.timer w.tl L D
  accounted : ((L ++ D).map w.arming ++ (w.handled ++ w.disarmed)).Perm (List.range w.armed)

theorem TimerOk.null_notMem {s : DlgTimer} {start : Tl} (h : TimerOk s start L D) : Tl.null ∉ D := fun hc => by
  obtain ⟨n, hn⟩ := h.isDlg _ hc
  simp at hn

/-- The routine is not in its loop: it has nothing to handle. -/
theorem TimerOk.eq_nil_of_null {s : DlgTimer} {start : Tl} (h : TimerOk s start L D) (hstart : start = .null) :
    D = [] := by
  cases D with
  | nil => rfl
  | cons x D =>
    have hx : x = .null := h.walk.1.symm.trans hstart
    exact absurd (mem_cons.mpr (.inl hx.symm)) h.null_notMem

/-- `get_expired_dlgs` takes the timers that are due and leaves the others. -/
theorem TimerOk.expired {s s' : DlgTimer} {start ret : Tl} {time : Nat} (h : TimerOk s start L [])
    (hr : s.getExpiredDlgs fuel time = some (s', ret)) :
    TimerOk s' ret (L.filter fun y => time < s.timeout y) (L.filter fun y => s.timeout y ≤ time) := by
  obtain ⟨s₁, ret₁, ⟨k, -, hr₁⟩, -, hok⟩ := h.expire time
  cases (ite_none_left_eq_some.mp ((hr₁ fuel).symm.trans hr)).2
  exact hok

theorem lastExpired_iff (h : TimerOk w.timer w.tl L D) : w.LastExpired n ↔ D.getLast? = some (.dlg n) := by
  constructor
  · rintro ⟨D', hwalk, hnull, hlast⟩
    rwa [h.walk.unique hwalk h.null_notMem hnull]
  · exact fun hlast => ⟨D, h.walk, h.null_notMem, hlast⟩

theorem accounted_arm {arming : Tl → Nat} {armed : Nat} {rest : List Nat} (hperm : L'.Perm (x :: L)) (hx : x ∉ L ++ D)
    (h : ((L ++ D).map arming ++ rest).Perm (List.range armed)) :
    ((L' ++ D).map (update arming x armed) ++ rest).Perm (range (armed + 1)) := by
  have hsame : (L ++ D).map (update arming x armed) = (L ++ D).map arming :=
    map_congr_left fun y hy => update_of_ne (ne_of_mem_of_not_mem hy hx) _ _
  have hmap : ((L' ++ D).map (update arming x armed)).Perm (armed :: (L ++ D).map arming) := by
    have := (hperm.append_right D).map (update arming x armed)
    rwa [cons_append, map_cons, Function.update_self, hsame] at this
  have hrest : ((L' ++ D).map (update arming x armed) ++ rest).Perm (armed :: range armed) :=
    (hmap.append_right rest).trans (h.cons armed)
  rw [range_succ]
  exact hrest.trans (perm_append_singleton ..).symm

theorem accounted_disarm {arming : Tl → Nat} {handled disarmed : List Nat} {armed : Nat} (hx : x ∈ L)
    (h : ((L ++ D).map arming ++ (handled ++ disarmed)).Perm (List.range armed)) :
    ((L.erase x ++ D).map arming ++ (handled ++ arming x :: disarmed)).Perm (range armed) := by
  have hmap : ((L ++ D).map arming).Perm (arming x :: (L.erase x ++ D).map arming) :=
    ((perm_cons_erase hx).append_right D).map arming
  have hmove : ((L.erase x ++ D).map arming ++ (handled ++ arming x :: disarmed)).Perm
      (arming x :: ((L.erase x ++ D).map arming ++ (handled ++ disarmed))) :=
    (perm_middle.append_left _).trans perm_middle
  exact hmove.trans ((hmap.append_right _).symm.trans h)

/-- What a step leaves of the timers that the routine has taken: each is still there, or has been handled. -/
structure Progress (w w' : TimerRun) (D D' : List Tl) : Prop where
  taken : ∀ x ∈ D, (x ∈ D' ∧ w'.arming x = w.arming x) ∨ w.arming x ∈ w'.handled
  handled : ∀ g ∈ w.handled, g ∈ w'.handled

theorem Progress.refl (D : List Tl) : Progress w w D D := ⟨fun _ hx => .inl ⟨hx, rfl⟩, fun _ hg => hg⟩

section Steps

variable {s : DlgTimer}

section
variable (h : RunOk w L D)
include h

theorem RunOk.armed (hx : .dlg n ∉ L ++ D) (hs : TimerOk s w.tl (placed s.timeout (.dlg n) L) D) :
    RunOk { w.arm (.dlg n) with timer := s } (placed s.timeout (.dlg n) L) D ∧
      Progress w { w.arm (.dlg n) with timer := s } D D := by
  refine ⟨⟨hs, accounted_arm (placed_perm ..) hx h.accounted⟩, fun y hy => .inl ⟨hy, ?_⟩, fun _ hg => hg⟩
  exact update_of_ne (ne_of_mem_of_not_mem hy fun hc => hx (mem_append_right _ hc)) _ _

theorem RunOk.rearmed (hx : .dlg n ∈ L) (hs : TimerOk s w.tl (placed s.timeout (.dlg n) (L.erase (.dlg n))) D) :
    RunOk { (w.disarm (.dlg n)).arm (.dlg n) with timer := s } (placed s.timeout (.dlg n) (L.erase (.dlg n))) D ∧
      Progress w { (w.disarm (.dlg n)).arm (.dlg n) with timer := s } D D := by
  have hout : Tl.dlg n ∉ L.erase (.dlg n) ++ D := by
    rw [mem_append, not_or]
    exact ⟨h.timer.ring.nodup.not_mem_erase, h.timer.disjoint hx⟩
  refine ⟨⟨hs, accounted_arm (placed_perm ..) hout (accounted_disarm hx h.accounted)⟩, fun y hy => .inl ⟨hy, ?_⟩,
    fun _ hg => hg⟩
  exact update_of_ne (ne_of_mem_of_not_mem hy fun hc => hout (mem_append_right _ hc)) _ _

/-- `insert_dlg_timer` keeps the invariant. -/
theorem RunOk.insert_step {ticks : Nat} {interval : Int} (hlast : D.getLast? ≠ some (.dlg n))
    (he : w.exec fuel (.insertDlgTimer n ticks interval) = some w') : ∃ L', RunOk w' L' D ∧ Progress w w' D D := by
  obtain ⟨⟨s, ret⟩, hr, rfl⟩ := map_eq_some_iff.mp he
  by_cases hx : Tl.dlg n ∈ L ++ D
  · rw [h.timer.insert_busy (mem_append.mp hx) hlast] at hr
    cases hr
    exact ⟨L, h, Progress.refl D⟩
  · obtain ⟨hret, -, hs⟩ := (h.timer.insert_free hx fuel).2 _ hr
    dsimp only at hret hs ⊢
    rw [if_pos hret]
    exact ⟨_, h.armed hx hs⟩

/-- `remove_dlg_timer` keeps the invariant. -/
theorem RunOk.remove_step (he : w.exec fuel (.removeDlgTimer n) = some w') :
    ∃ L', RunOk w' L' D ∧ Progress w w' D D := by
  obtain ⟨⟨s, ret⟩, hr, rfl⟩ := map_eq_some_iff.mp he
  by_cases hx : Tl.dlg n ∈ L
  · obtain ⟨s', hs', -, hok⟩ := h.timer.remove_on hx
    obtain ⟨rfl, rfl⟩ := Prod.mk.inj (Option.some.inj (hr.symm.trans hs'))
    exact ⟨_, ⟨hok, accounted_disarm hx h.accounted⟩, fun y hy => .inl ⟨hy, rfl⟩, fun _ hg => hg⟩
  · rw [h.timer.remove_off hx] at hr
    cases hr
    exact ⟨L, h, Progress.refl D⟩

/-- `update_dlg_timer` keeps the invariant. -/
theorem RunOk.update_step {ticks : Nat} {timeout : Int} (hlast : D.getLast? ≠ some (.dlg n))
    (he : w.exec fuel (.updateDlgTimer n ticks timeout) = some w') : ∃ L', RunOk w' L' D ∧ Progress w w' D D := by
  obtain ⟨⟨s, ret⟩, hr, rfl⟩ := map_eq_some_iff.mp he
  by_cases hL : Tl.dlg n ∈ L
  · obtain ⟨hret, -, hs⟩ := (h.timer.update_on hL fuel).2 _ hr
    dsimp only at hret hs ⊢
    rw [if_pos hret, if_pos (h.timer.next_ne_null hL)]
    exact ⟨_, h.rearmed hL hs⟩
  by_cases hD : Tl.dlg n ∈ D
  · rw [h.timer.update_busy hD hlast] at hr
    cases hr
    exact ⟨L, h, Progress.refl D⟩
  · have hx : Tl.dlg n ∉ L ++ D := by simp [hL, hD]
    obtain ⟨hret, -, hs⟩ := (h.timer.update_free hx fuel).2 _ hr
    dsimp only at hret hs ⊢
    rw [if_pos hret, if_neg fun hc => hc (h.timer.free n hx).1]
    exact ⟨_, h.armed hx hs⟩

/-- `get_expired_dlgs` keeps the invariant and takes every timer that is due. -/
theorem RunOk.expire_step {time : Nat} (he : w.exec fuel (.getExpiredDlgs time) = some w') :
    ∃ L' D', RunOk w' L' D' ∧ Progress w w' D D' ∧
      ∀ x ∈ L, w.timer.timeout x ≤ time → x ∈ D' ∧ w'.arming x = w.arming x := by
  rw [TimerRun.exec] at he
  split at he
  · cases he
  rename_i hidle
  rw [not_not] at hidle
  obtain rfl := h.timer.eq_nil_of_null hidle
  obtain ⟨⟨s, ret⟩, hr, rfl⟩ := map_eq_some_iff.mp he
  have hok := h.timer.expired hr
  have hsplit := sorted_split h.timer.ring.sorted time
  refine ⟨_, _, ⟨hok, ?_⟩, ⟨forall_mem_nil _, fun _ hg => hg⟩, fun x hx hle => ⟨?_, rfl⟩⟩
  · refine List.Perm.trans ?_ h.accounted
    refine List.Perm.append_right _ (List.Perm.map _ ?_)
    rw [append_nil]
    exact perm_append_comm.trans (List.Perm.of_eq hsplit.symm)
  · exact mem_filter.mpr ⟨hx, by simpa using hle⟩

/-- Handling the next timer keeps the invariant. -/
theorem RunOk.handle_step (he : w.exec fuel .handleNext = some w') :
    ∃ D', RunOk w' L D' ∧ Progress w w' D D' := by
  rw [TimerRun.exec] at he
  split at he
  · cases he
  rename_i hbusy
  cases he
  cases D with
  | nil => exact absurd h.timer.walk hbusy
  | cons x D =>
    obtain rfl : w.tl = x := h.timer.walk.1
    refine ⟨D, ⟨h.timer.unlink, ?_⟩, fun y hy => ?_, fun g hg => mem_cons_of_mem _ hg⟩
    · refine List.Perm.trans ?_ h.accounted
      have hmap : ((L ++ w.tl :: D).map w.arming).Perm (w.arming w.tl :: (L ++ D).map w.arming) :=
        perm_middle.map w.arming
      exact perm_middle.trans (hmap.append_right _).symm
    · rcases mem_cons.mp hy with rfl | hy
      · exact .inr (mem_cons_self ..)
      · exact .inl ⟨hy, rfl⟩

end

end Steps

/-! ## Runs -/

/-- **One step**: everything stays well formed and accounted for, unless the last expired timer is set again. -/
theorem RunOk.step (h : RunOk w L D) (hs : w.Sound a) (he : w.exec fuel a = some w') :
    ∃ L' D', RunOk w' L' D' ∧ Progress w w' D D' := by
  cases a with
  | insertDlgTimer =>
    obtain ⟨L', hok⟩ := h.insert_step (fun hc => hs ((lastExpired_iff h.timer).mpr hc)) he
    exact ⟨L', D, hok⟩
  | removeDlgTimer n =>
    obtain ⟨L', hok⟩ := h.remove_step he
    exact ⟨L', D, hok⟩
  | updateDlgTimer =>
    obtain ⟨L', hok⟩ := h.update_step (fun hc => hs ((lastExpired_iff h.timer).mpr hc)) he
    exact ⟨L', D, hok⟩
  | getExpiredDlgs time =>
    obtain ⟨L', D', hok, hprog, -⟩ := h.expire_step he
    exact ⟨L', D', hok, hprog⟩
  | handleNext =>
    obtain ⟨D', hok⟩ := h.handle_step he
    exact ⟨L, D', hok⟩

/-- Setting the last expired timer again leaves nothing well formed. -/
theorem RunOk.unsound (h : RunOk w L D) (hs : ¬w.Sound a) (he : w.exec fuel a = some w') :
    ¬∃ L' D', RunOk w' L' D' := by
  rintro ⟨L', D', h'⟩
  cases a with
  | insertDlgTimer =>
    have hlast := (lastExpired_iff h.timer).mp (not_not.mp hs)
    obtain ⟨⟨s, ret⟩, hr, rfl⟩ := map_eq_some_iff.mp he
    rw [h.timer.insert_last hlast] at hr
    refine h.timer.arm_last hlast hr ⟨L', D', ?_⟩
    have hok := h'.timer
    dsimp only at hok ⊢
    split at hok <;> exact hok
  | removeDlgTimer n | getExpiredDlgs time | handleNext => exact hs trivial
  | updateDlgTimer =>
    have hlast := (lastExpired_iff h.timer).mp (not_not.mp hs)
    obtain ⟨⟨s, ret⟩, hr, rfl⟩ := map_eq_some_iff.mp he
    rw [h.timer.update_last hlast] at hr
    refine h.timer.arm_last hlast hr ⟨L', D', ?_⟩
    have hok := h'.timer
    dsimp only at hok ⊢
    split at hok
    · split at hok <;> exact hok
    · exact hok

theorem RunOk.answers (h : RunOk w L D) (ha : w.Enabled a) (hfuel : L.length < fuel) : (w.exec fuel a).isSome := by
  cases a with
  | insertDlgTimer n ticks interval =>
    rw [TimerRun.exec, isSome_map]
    by_cases hx : Tl.dlg n ∈ L ++ D
    · by_cases hlast : D.getLast? = some (.dlg n)
      · rw [h.timer.insert_last hlast]
        have hxL : Tl.dlg n ∉ L := fun hc => h.timer.disjoint hc (mem_of_getLast? hlast)
        exact (arm_ring ticks interval h.timer.ring hxL fuel).1 hfuel
      · rw [h.timer.insert_busy (mem_append.mp hx) hlast]
        rfl
    · exact (h.timer.insert_free hx fuel).1 hfuel
  | removeDlgTimer n =>
    rw [TimerRun.exec]
    by_cases hx : Tl.dlg n ∈ L
    · obtain ⟨s', hs', -⟩ := h.timer.remove_on hx
      rw [hs']
      rfl
    · rw [h.timer.remove_off hx]
      rfl
  | updateDlgTimer n ticks timeout =>
    rw [TimerRun.exec, isSome_map]
    by_cases hL : Tl.dlg n ∈ L
    · exact (h.timer.update_on hL fuel).1 hfuel
    by_cases hD : Tl.dlg n ∈ D
    · by_cases hlast : D.getLast? = some (.dlg n)
      · rw [h.timer.update_last hlast]
        exact (arm_ring ticks timeout h.timer.ring hL fuel).1 hfuel
      · rw [h.timer.update_busy hD hlast]
        rfl
    · exact (h.timer.update_free (by simp [hL, hD]) fuel).1 hfuel
  | getExpiredDlgs time =>
    have hidle : w.tl = .null := ha
    obtain rfl := h.timer.eq_nil_of_null hidle
    obtain ⟨s', ret, ⟨k, hk, hs'⟩, -⟩ := h.timer.expire time
    replace hs' := (hs' fuel).trans (if_neg (by omega))
    rw [TimerRun.exec, if_neg (not_not.mpr hidle), hs']
    rfl
  | handleNext =>
    have hbusy : w.tl ≠ .null := ha
    rw [TimerRun.exec, if_neg hbusy]
    rfl

theorem init_ok : RunOk .init [] [] := by
  refine ⟨⟨⟨?_, nodup_nil, by simp, List.Pairwise.nil⟩, rfl, nodup_nil, by simp, by simp, fun n _ => ?_⟩, by rfl⟩
  · exact links_cons_cons.mpr ⟨⟨rfl, rfl⟩, Links.singleton _⟩
  · exact ⟨rfl, rfl⟩

/-- A step of the interleaving, with as much fuel as it needs. -/
def TimerRun.Step (w : TimerRun) (a : TimerStep) (w' : TimerRun) : Prop := ∃ fuel, w.exec fuel a = some w'

/-- A setting that the routine has taken is handled by the time it leaves its loop. -/
theorem RunOk.handled_of_idle {fs : List (TimerStep × TimerRun)} (h : RunOk w L D) (hx : x ∈ D)
    (hrun : Trace TimerRun.Step w fs) (hsound : Trace (fun w a _ => w.Sound a) w fs)
    (hw' : w' = w ∨ ∃ e ∈ fs, w' = e.2) (hidle : w'.tl = .null) : w'.handled.count (w.arming x) = 1 := by
  have hinv : ∃ L' D', RunOk w' L' D' ∧ ((x ∈ D' ∧ w'.arming x = w.arming x) ∨ w.arming x ∈ w'.handled) := by
    rcases hw' with rfl | ⟨e, he, rfl⟩
    · exact ⟨L, D, h, .inl ⟨hx, rfl⟩⟩
    · refine (hrun.and hsound).invariant (I := fun v => ∃ L' D', RunOk v L' D' ∧
        ((x ∈ D' ∧ v.arming x = w.arming x) ∨ w.arming x ∈ v.handled)) ?_ ⟨L, D, h, .inl ⟨hx, rfl⟩⟩ e he
      rintro v a v' ⟨L₁, D₁, hv, hpending⟩ ⟨⟨fuel, hstep⟩, hs⟩
      obtain ⟨L₂, D₂, hv', hprog⟩ := hv.step hs hstep
      refine ⟨L₂, D₂, hv', ?_⟩
      rcases hpending with ⟨hxD, harm⟩ | hdone
      · rw [← harm]
        exact hprog.taken x hxD
      · exact .inr (hprog.handled _ hdone)
  obtain ⟨L', D', h', hdone⟩ := hinv
  obtain rfl := h'.timer.eq_nil_of_null hidle
  have hmem : w.arming x ∈ w'.handled := by
    rcases hdone with ⟨hc, -⟩ | hdone
    · exact absurd hc not_mem_nil
    · exact hdone
  have hnodup : w'.handled.Nodup := by
    have hall := (h'.accounted.nodup_iff).mpr nodup_range
    exact (nodup_append.mp (nodup_append.mp hall).2.1).1
  exact count_eq_one_of_mem hnodup hmem

/-- **The dialog timer, over every interleaving.** The list is circular, linked both ways and sorted, shares no timer
with those that the routine has taken, and every setting of a timer is pending, taken back or handled once, in every
state of the run iff no step sets the last expired timer again. Then every call returns, and a timer that is on the list
when the routine takes those that expired, and is one of them, has been handled exactly once when the routine is
through. -/
theorem dlgTimer_over_runs {es : List (TimerStep × TimerRun)} (hrun : Trace TimerRun.Step .init es) :
    ((∀ e ∈ es, ∃ L D, RunOk e.2 L D) ↔ Trace (fun w a _ => w.Sound a) .init es) ∧
      (Trace (fun w a _ => w.Sound a) .init es → ∀ w, (w = .init ∨ ∃ e ∈ es, w = e.2) →
        (∀ a, w.Enabled a → ∃ N, ∀ fuel ≥ N, (w.exec fuel a).isSome) ∧
        ∀ n time w₁ fs, Trace TimerRun.Step w ((.getExpiredDlgs time, w₁) :: fs) →
          Trace (fun w a _ => w.Sound a) w₁ fs → (∃ L, RingOk w.timer L ∧ .dlg n ∈ L) →
          w.timer.timeout (.dlg n) ≤ time →
          ∀ w₂, (w₂ = w₁ ∨ ∃ e ∈ fs, w₂ = e.2) → w₂.tl = .null → w₂.handled.count (w.arming (.dlg n)) = 1) := by
  have hiff : (∀ e ∈ es, ∃ L D, RunOk e.2 L D) ↔ Trace (fun w a _ => w.Sound a) .init es := by
    refine Trace.always_iff (I := fun _ => True) (P := fun w => ∃ L D, RunOk w L D) (fun _ _ _ _ _ => trivial)
      (fun w a w' _ h hstep => ?_) hrun trivial ⟨[], [], init_ok⟩
    obtain ⟨L, D, h⟩ := h
    obtain ⟨fuel, he⟩ := hstep
    constructor
    · intro h'
      by_contra hs
      exact h.unsound hs he h'
    · intro hs
      obtain ⟨L', D', h', -⟩ := h.step hs he
      exact ⟨L', D', h'⟩
  refine ⟨hiff, fun hsound w hw => ?_⟩
  obtain ⟨L, D, h⟩ : ∃ L D, RunOk w L D := by
    rcases hw with rfl | ⟨e, he, rfl⟩
    · exact ⟨[], [], init_ok⟩
    · exact hiff.mpr hsound e he
  refine ⟨fun a ha => ⟨L.length + 1, fun fuel hfuel => h.answers ha hfuel⟩, ?_⟩
  rintro n time w₁ fs ⟨⟨fuel, he⟩, hfs⟩ hsound' ⟨L', hring, hn⟩ hle w₂ hw₂ hidle
  have hnL : Tl.dlg n ∈ L := by
    by_contra hc
    exact hring.prev_ne_null hn (h.timer.prev_eq_null_iff.mpr hc)
  obtain ⟨L₁, D₁, h₁, -, htaken⟩ := h.expire_step he
  obtain ⟨hnD, harm⟩ := htaken _ hnL hle
  rw [← harm]
  exact h₁.handled_of_idle hnD hfs hsound' hw₂ hidle

/-- A timer is set, expires and is handled. -/
theorem expired_then_handled : ∃ es, Trace TimerRun.Step .init es ∧
    es.map Prod.fst = [.insertDlgTimer 0 0 1, .getExpiredDlgs 1, .handleNext] ∧ ∀ e ∈ es, ∃ L D, RunOk e.2 L D := by
  obtain ⟨w, hw, -⟩ : ∃ w, Lib.exec (TimerRun.exec 10) .init [.insertDlgTimer 0 0 1, .getExpiredDlgs 1, .handleNext] =
      some w ∧ True := exists_of_any (by decide +kernel)
  obtain ⟨es, hexec, hlabels, -⟩ := exec_trace hw
  have hes : Trace TimerRun.Step .init es := hexec.imp fun _ _ _ he => ⟨10, he⟩
  refine ⟨es, hes, hlabels, (dlgTimer_over_runs hes).1.mpr ?_⟩
  obtain ⟨⟨a₁, w₁⟩, es₁, rfl, rfl, hlabels₁⟩ := map_eq_cons_iff.mp hlabels
  obtain ⟨⟨a₂, w₂⟩, es₂, rfl, rfl, hlabels₂⟩ := map_eq_cons_iff.mp hlabels₁
  obtain ⟨⟨a₃, w₃⟩, es₃, rfl, rfl, hlabels₃⟩ := map_eq_cons_iff.mp hlabels₂
  obtain rfl := map_eq_nil_iff.mp hlabels₃
  refine ⟨fun hc => ?_, trivial, trivial, trivial⟩
  simpa using (lastExpired_iff init_ok.timer).mp hc

/-- The timer of one dialog expires and is taken. Before it is handled, a request within the dialog sets it again, and
it is on the list. The routine goes on from it to the head of the list, which it takes for a timer of a dialog; the list
ends in null. -/
theorem last_expired_set_again : ∃ es w, Trace TimerRun.Step .init es ∧
    es.map Prod.fst = [.insertDlgTimer 0 0 1, .getExpiredDlgs 1, .updateDlgTimer 0 1 5, .handleNext] ∧
    (es.map Prod.snd).getLastD .init = w ∧ w.tl = .first ∧ w.timer.next .first = .dlg 0 ∧
    w.timer.next (.dlg 0) = .null := by
  apply exec_shows (f := TimerRun.exec 10) fun _ _ _ he => ⟨10, he⟩
  decide +kernel

end OpenSer.Dialog

