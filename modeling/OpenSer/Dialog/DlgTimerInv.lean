import OpenSer.Dialog.DlgTimer
import OpenSer.Lib.Traces

/-!
# The timers of the dialogs are well formed

`RingOk s L` says that the list of `d_timer` holds the timers of `L`, linked both ways and sorted, and `TimerOk s start
L D` adds the timers `D` that `dlg_timer_routine` has taken and is to handle from `start` on. One lemma for each
function, at each of the two levels.

* `insertDlgTimerUnsafe_ring`, `removeDlgTimerUnsafe_ring`, `getExpiredDlgs_ring`: the list.
* `TimerOk.insert_free`, `TimerOk.remove_on`, `TimerOk.update_on`, `TimerOk.expire`, `TimerOk.unlink`: both lists.
* `TimerOk.arm_last`: the one case in which they are not kept.
-/

namespace OpenSer.Dialog

open Option List Function Lib DlgTimer Nat

variable {s s' : DlgTimer} {L D A B E R : List Tl} {x y tl start : Tl} {n t time fuel : Nat}

/-- The circular list: linked both ways, and sorted. -/
structure RingOk (s : DlgTimer) (L : List Tl) : Prop where
  links : Links s.next s.prev (.first :: L ++ [.first])
  nodup : L.Nodup
  isDlg : ∀ x ∈ L, ∃ n, x = .dlg n
  sorted : L.Pairwise fun x y => s.timeout x ≤ s.timeout y

namespace RingOk

theorem ne_first (h : RingOk s L) (hx : x ∈ L) : x ≠ .first := by
  obtain ⟨n, rfl⟩ := h.isDlg x hx
  simp

theorem ne_null (h : RingOk s L) (hx : x ∈ .first :: L) : x ≠ .null := by
  rcases mem_cons.mp hx with rfl | hx
  · simp
  · obtain ⟨n, rfl⟩ := h.isDlg x hx
    simp

theorem nodup_first (h : RingOk s L) : (.first :: L).Nodup :=
  nodup_cons.mpr ⟨fun hc => h.ne_first hc rfl, h.nodup⟩

theorem neighbours (h : RingOk s (A ++ x :: B)) :
    (s.prev x = A.getLastD .first ∧ A.getLastD .first ∈ .first :: (A ++ B)) ∧
      s.next x = B.headD .first ∧ B.headD .first ∈ .first :: (A ++ B) := by
  have hlinks : Links s.next s.prev (.first :: A ++ x :: (B ++ [.first])) := by simpa using h.links
  refine ⟨⟨hlinks.prev_eq_getLastD, ?_⟩, hlinks.next_eq_headD, ?_⟩
  · exact cons_subset_cons _ (subset_append_left A B) (getLastD_mem_cons ..)
  · exact cons_subset_cons _ (subset_append_right A B) (headD_mem_cons ..)

theorem congr (h : RingOk s L) (hlinks : ∀ x ∈ .first :: L, s'.next x = s.next x ∧ s'.prev x = s.prev x)
    (htimeout : ∀ x ∈ L, s'.timeout x = s.timeout x) : RingOk s' L :=
  ⟨h.links.ring_congr hlinks, h.nodup, h.isDlg, sorted_congr h.sorted htimeout⟩

end RingOk

theorem insertScan_eq (h : Links s.next s.prev (.first :: A ++ B)) (hdlg : ∀ x ∈ A ++ B, ∃ n, x = .dlg n)
    (hA : ∀ x ∈ A, s.timeout x ≤ t) (hB : ∀ x ∈ B, t < s.timeout x) (fuel : Nat) :
    s.insertScan t fuel ((A ++ B).getLastD .first) = if fuel ≤ B.length then none else some (A.getLastD .first) := by
  induction B using reverseRecOn generalizing fuel with
  | nil =>
    rw [append_nil]
    cases fuel with
    | zero => rfl
    | succ fuel =>
      rw [if_neg (by simp), insertScan]
      rcases eq_nil_or_concat A with rfl | ⟨A, a, rfl⟩
      · rfl
      · rw [concat_eq_append] at hA hdlg ⊢
        obtain ⟨n, rfl⟩ := hdlg a (by simp)
        rw [if_neg (by simp), if_neg (by simp), if_pos (hA _ (by simp))]
  | append_singleton B b ih =>
    cases fuel with
    | zero => rw [if_pos (zero_le _), insertScan]
    | succ fuel =>
      obtain ⟨n, rfl⟩ := hdlg b (by simp)
      have h' : Links s.next s.prev (.first :: (A ++ B) ++ .dlg n :: []) := by simpa using h
      have hlinks : Links s.next s.prev (.first :: A ++ B) := h'.of_append_left
      rw [← append_assoc, getLastD_concat, insertScan, if_neg (by simp), if_neg (by simp),
        if_neg (not_le.mpr (hB _ (by simp))), h'.prev_eq_getLastD,
        ih hlinks (fun x hx => hdlg x (by rw [← append_assoc]; exact mem_append_left _ hx))
          (forall_mem_append.mp hB).1]
      simp

theorem linkAfter_eq {ptr : Tl} (hne : tl ≠ ptr) (hnext : s.next ptr ≠ .null) :
    s.linkAfter tl ptr = some { s with
      next := update (update s.next tl (s.next ptr)) ptr tl, prev := update (update s.prev tl ptr)
        (s.next ptr) tl } := by
  simp only [linkAfter, update_self, update_of_ne hne, if_neg hnext]

theorem insertDlgTimerUnsafe_ring (h : RingOk s L) (hx : Tl.dlg n ∉ L) (fuel : Nat) :
    if fuel ≤ (L.filter fun y => s.timeout (.dlg n) < s.timeout y).length then
      s.insertDlgTimerUnsafe fuel (.dlg n) = none
    else ∃ s', s.insertDlgTimerUnsafe fuel (.dlg n) = some s' ∧ s'.timeout = s.timeout ∧
      RingOk s' (L.filter (fun y => s.timeout y ≤ s.timeout (.dlg n)) ++
        .dlg n :: L.filter fun y => s.timeout (.dlg n) < s.timeout y) ∧
      ∀ y, y ∉ .first :: .dlg n :: L → s'.next y = s.next y ∧ s'.prev y = s.prev y := by
  have hsorted := sorted_insert (z := .dlg n) h.sorted
  have hsplit := sorted_split h.sorted (s.timeout (.dlg n))
  set A := L.filter fun y => s.timeout y ≤ s.timeout (.dlg n)
  set B := L.filter fun y => s.timeout (.dlg n) < s.timeout y with hB
  have hlinks : Links s.next s.prev (.first :: A ++ (B ++ [.first])) := by
    have := h.links
    rw [hsplit] at this
    simpa using this
  have hnodup : (.first :: A ++ B).Nodup := by
    rw [cons_append, ← hsplit]
    exact h.nodup_first
  have hdlg : ∀ x ∈ A ++ B, ∃ n, x = .dlg n := hsplit ▸ h.isDlg
  have hfresh : Tl.dlg n ∉ .first :: A ++ (B ++ [.first]) := by
    rw [hsplit] at hx
    simpa using hx
  have hwhole : Links s.next s.prev (.first :: (A ++ B) ++ .first :: []) := by simpa using hlinks
  have hnext : s.next (A.getLastD .first) = B.headD .first := by
    obtain ⟨pre, hpre⟩ := exists_concat_getLastD Tl.first A
    rw [hpre, append_assoc] at hlinks
    exact hlinks.next_eq_headD
  have hscan : s.insertScan (s.timeout (.dlg n)) fuel (s.prev .first) =
      if fuel ≤ B.length then none else some (A.getLastD .first) := by
    rw [hwhole.prev_eq_getLastD]
    refine insertScan_eq hwhole.of_append_left hdlg (fun x hx => ?_) (fun x hx => ?_) fuel
    · simpa using (mem_filter.mp hx).2
    · simpa using (mem_filter.mp hx).2
  have hlast : A.getLastD .first ∈ .first :: L :=
    cons_subset_cons _ (hsplit ▸ subset_append_left A B) (getLastD_mem_cons ..)
  have hhead : B.headD .first ∈ .first :: L :=
    cons_subset_cons _ (hsplit ▸ subset_append_right A B) (headD_mem_cons ..)
  have hne : ∀ y ∈ .first :: L, y ≠ .dlg n := fun y hy => ne_of_mem_of_not_mem hy (by simpa using hx)
  rw [insertDlgTimerUnsafe, hscan]
  split
  · rfl
  · rw [bind_some, linkAfter_eq (hne _ hlast).symm (hnext ▸ h.ne_null hhead), hnext]
    refine ⟨_, rfl, rfl, ⟨?_, ?_, ?_, hsorted⟩, fun y hy => ?_⟩
    · have hlinks' := hlinks.insert_at hnodup ?_ hfresh
      · simpa using hlinks'
      · simpa [perm_middle.nodup_iff, ← append_assoc] using hnodup
    · rw [nodup_middle, nodup_cons, ← hsplit]
      exact ⟨hx, h.nodup⟩
    · intro y hy
      rw [mem_middle, ← hsplit] at hy
      rcases hy with rfl | hy
      · exact ⟨n, rfl⟩
      · exact h.isDlg y hy
    · have hyn : y ≠ .dlg n := fun hc => hy (by simp [hc])
      have hyL : y ∉ .first :: L := fun hc => hy (cons_subset_cons _ (subset_cons_self ..) hc)
      dsimp only
      rw [update_of_ne (ne_of_mem_of_not_mem hlast hyL).symm, update_of_ne hyn,
        update_of_ne (ne_of_mem_of_not_mem hhead hyL).symm, update_of_ne hyn]
      exact ⟨rfl, rfl⟩

theorem removeDlgTimerUnsafe_ring (h : RingOk s L) (hx : x ∈ L) :
    ∃ s', s.removeDlgTimerUnsafe x = some s' ∧ s'.timeout = s.timeout ∧ RingOk s' (L.erase x) ∧
      ∀ y, y ∉ .first :: L.erase x → s'.next y = s.next y ∧ s'.prev y = s.prev y := by
  obtain ⟨A, B, rfl⟩ := append_of_mem hx
  obtain ⟨hxAB, hAB⟩ := nodup_cons.mp (nodup_middle.mp h.nodup)
  have herase : (A ++ x :: B).erase x = A ++ B := by
    rw [erase_append_right _ fun hc => hxAB (mem_append_left _ hc), erase_cons_head]
  have hlinks : Links s.next s.prev (.first :: A ++ x :: (B ++ [.first])) := by simpa using h.links
  obtain ⟨⟨hprev, hlast⟩, hnext, hhead⟩ := h.neighbours
  have hmem : ∀ y ∈ A ++ B, y ∈ A ++ x :: B := fun y hy => mem_middle.mpr (.inr hy)
  have hxout : x ∉ .first :: (A ++ B) := not_mem_cons_of_ne_of_not_mem (h.ne_first hx) hxAB
  have hnull : B.headD .first ≠ .null := h.ne_null (cons_subset_cons _ hmem hhead)
  have hne : x ≠ s.prev x := hprev ▸ (ne_of_mem_of_not_mem hlast hxout).symm
  have hnodup : (.first :: A ++ B).Nodup := nodup_cons.mpr ⟨fun hc => h.ne_first (hmem _ hc) rfl, hAB⟩
  rw [herase]
  refine ⟨{ s with next := update s.next (s.prev x) (s.next x), prev := update s.prev (s.next x) (s.prev x) }, ?_, rfl,
    ⟨?_, hAB, fun y hy => h.isDlg y (hmem y hy), h.sorted.sublist ?_⟩, fun y hy => ?_⟩
  · simp only [removeDlgTimerUnsafe, update_of_ne hne, if_neg (hnext ▸ hnull)]
  · have hlinks' := hlinks.remove_at hnodup ?_
    · rw [hprev, hnext]
      simpa using hlinks'
    · simpa [perm_middle.nodup_iff, ← append_assoc] using hnodup
  · exact (sublist_cons_self ..).append_left A
  · dsimp only
    rw [hprev, hnext, update_of_ne (ne_of_mem_of_not_mem hlast hy).symm,
      update_of_ne (ne_of_mem_of_not_mem hhead hy).symm]
    exact ⟨rfl, rfl⟩

/-- The loop of `get_expired_dlgs` goes over the expired timers and resets their `prev` pointers. -/
theorem expireScan_eq {a stop : Tl} (h : Walk s.next a E stop) (hdlg : ∀ x ∈ E, ∃ n, x = .dlg n)
    (hE : ∀ x ∈ E, s.timeout x ≤ time) (hnull : stop ≠ .null) (hstop : stop = .first ∨ time < s.timeout stop)
    (fuel : Nat) :
    expireScan time fuel s a =
      if fuel ≤ E.length then none else some ({ s with prev := fun y => if y ∈ E then .null else s.prev y }, stop) := by
  induction E generalizing s a fuel with
  | nil =>
    obtain rfl : a = stop := h
    cases fuel with
    | zero => rfl
    | succ fuel =>
      have hend : ¬(a ≠ .first ∧ s.timeout a ≤ time) := by
        rintro ⟨hne, hle⟩
        rcases hstop with hc | hc
        · exact hne hc
        · exact absurd hle (not_le.mpr hc)
      rw [expireScan, if_neg hnull, if_neg hend, if_neg (by simp)]
      simp
  | cons e E ih =>
    obtain ⟨rfl, h⟩ := h
    cases fuel with
    | zero => rw [if_pos (zero_le _), expireScan]
    | succ fuel =>
      obtain ⟨n, rfl⟩ := hdlg a (mem_cons_self ..)
      have hgo : Tl.dlg n ≠ .first ∧ s.timeout (.dlg n) ≤ time := ⟨by simp, hE _ (mem_cons_self ..)⟩
      rw [expireScan, if_neg (by simp), if_pos hgo,
        ih (s := { s with prev := update s.prev (.dlg n) .null }) h (forall_mem_cons.mp hdlg).2
          (forall_mem_cons.mp hE).2 hstop]
      have hprev : (fun y => if y ∈ E then Tl.null else update s.prev (.dlg n) .null y) =
          fun y => if y ∈ Tl.dlg n :: E then Tl.null else s.prev y := by
        funext y
        by_cases hy : y = .dlg n
        · subst hy
          simp
        · simp [hy]
      simp [hprev]

/-- The cut of `get_expired_dlgs`, behind a non-empty stretch of timers. -/
theorem cutBefore_ring {e : Tl} (hlinks : Links s.next s.prev (.first :: (e :: E) ++ (R ++ [.first])))
    (hnodup : (.first :: (e :: E ++ R)).Nodup) (hnull : ∀ x ∈ e :: E, x ≠ .null) :
    ∃ s', cutBefore { s with prev := fun y => if y ∈ e :: E then .null else s.prev y } (R.headD .first) = some s' ∧
      s'.timeout = s.timeout ∧ Links s'.next s'.prev (.first :: R ++ [.first]) ∧ Walk s'.next e (e :: E) .null ∧
      (∀ x ∈ e :: E, s'.prev x = .null) ∧
      ∀ y, y ∉ .first :: (e :: E ++ R) → s'.next y = s.next y ∧ s'.prev y = s.prev y := by
  obtain ⟨hfirst, hER⟩ := nodup_cons.mp hnodup
  have hstopR : R.headD .first ∈ .first :: R := headD_mem_cons ..
  have hlastE : E.getLastD e ∈ e :: E := getLastD_mem_cons ..
  have hRE : ∀ y ∈ .first :: R, y ∉ e :: E := by
    intro y hy hc
    rcases mem_cons.mp hy with rfl | hy
    · exact hfirst (mem_append_left _ hc)
    · exact (nodup_append.mp hER).2.2 y hc y hy rfl
  have htargets : (e :: E ++ (R ++ [Tl.first])).Nodup := by
    rw [← append_assoc, (perm_append_singleton ..).nodup_iff]
    exact hnodup
  obtain ⟨hprev, hwalk, hring⟩ := hlinks.cut .null hnodup htargets
  have hcut : cutBefore { s with prev := fun y => if y ∈ e :: E then .null else s.prev y } (R.headD .first) =
      some { s with
        next := update (update s.next (E.getLastD e) .null) .first (R.headD .first)
        prev := update (fun y => if y ∈ e :: E then .null else s.prev y) (R.headD .first) .first } := by
    simp only [cutBefore, if_neg (hRE _ hstopR), hprev, if_neg (hnull _ hlastE)]
  refine ⟨_, hcut, rfl, hring.ring_congr fun x hx => ⟨rfl, ?_⟩, hwalk, fun x hx => ?_, fun y hy => ?_⟩
  · dsimp only
    by_cases hstop : x = R.headD .first
    · rw [hstop, update_self, update_self]
    · rw [update_of_ne hstop, update_of_ne hstop, if_neg (hRE x hx)]
  · dsimp only
    rw [update_of_ne (ne_of_mem_of_not_mem hx (hRE _ hstopR)), if_pos hx]
  · have hyfirst : y ≠ .first := fun hc => hy (by simp [hc])
    have hyE : y ∉ e :: E := fun hc => hy (mem_cons_of_mem _ (mem_append_left _ hc))
    have hystop : y ≠ R.headD .first := fun hc =>
      hy (cons_subset_cons _ (subset_append_right ..) (hc ▸ hstopR))
    dsimp only
    rw [update_of_ne hyfirst, update_of_ne (ne_of_mem_of_not_mem hlastE hyE).symm,
      update_of_ne hystop, if_neg hyE]
    exact ⟨rfl, rfl⟩

/-- `get_expired_dlgs`: the expired timers go, in order, to a list of their own. -/
theorem getExpiredDlgs_ring (h : RingOk s L) (time : Nat) :
    ∃ s' ret, (∃ k ≤ L.length + 1, ∀ fuel, s.getExpiredDlgs fuel time = if fuel < k then none else some (s', ret)) ∧
      s'.timeout = s.timeout ∧
      RingOk s' (L.filter fun y => time < s.timeout y) ∧
      Walk s'.next ret (L.filter fun y => s.timeout y ≤ time) .null ∧
      (∀ x ∈ L, s.timeout x ≤ time → s'.prev x = .null) ∧
      ∀ y, y ∉ .first :: L → s'.next y = s.next y ∧ s'.prev y = s.prev y := by
  have hsplit := sorted_split h.sorted time
  set E := L.filter fun y => s.timeout y ≤ time with hE
  set R := L.filter fun y => time < s.timeout y
  have hlinks : Links s.next s.prev (.first :: E ++ (R ++ [.first])) := by
    have := h.links
    rw [hsplit] at this
    simpa using this
  have hmemE : ∀ x ∈ E, x ∈ L := fun x hx => mem_of_mem_filter hx
  have hmemR : ∀ x ∈ R, x ∈ L := fun x hx => mem_of_mem_filter hx
  have hleE : ∀ x ∈ E, s.timeout x ≤ time := fun x hx => by simpa using (mem_filter.mp hx).2
  have hltR : ∀ x ∈ R, time < s.timeout x := fun x hx => by simpa using (mem_filter.mp hx).2
  have hnodup : (.first :: (E ++ R)).Nodup := hsplit ▸ h.nodup_first
  set stop := R.headD .first with hstop
  have hstopR : stop ∈ .first :: R := headD_mem_cons ..
  have hstopNull : stop ≠ .null := h.ne_null (cons_subset_cons _ hmemR hstopR)
  have hstopTime : stop = .first ∨ time < s.timeout stop := by
    rcases mem_cons.mp hstopR with hc | hc
    · exact .inl hc
    · exact .inr (hltR _ hc)
  cases hE' : E with
  | nil =>
    -- nothing has expired: the first timer, if there is one, is due later
    have hlinks' : Links s.next s.prev ([] ++ .first :: (R ++ [.first])) := by
      rw [hE'] at hlinks
      exact hlinks
    have hnext : s.next .first = stop := hlinks'.next_eq_headD
    have hRL : R = L := by rw [hsplit, hE', nil_append]
    refine ⟨s, .null, ⟨0, Nat.zero_le _, fun fuel => ?_⟩, rfl, hRL ▸ h, rfl, fun x hx hle => ?_, fun y _ => ⟨rfl, rfl⟩⟩
    · rw [getExpiredDlgs, hnext, if_neg hstopNull, if_pos hstopTime, if_neg (Nat.not_lt_zero _)]
    · have hxE : x ∈ E := mem_filter.mpr ⟨hx, by simpa using hle⟩
      rw [hE'] at hxE
      exact absurd hxE not_mem_nil
  | cons e E' =>
    rw [hE'] at hlinks hnodup
    have hnull : ∀ x ∈ e :: E', x ≠ .null := fun x hx => h.ne_null (mem_cons_of_mem _ (hmemE x (hE' ▸ hx)))
    obtain ⟨s', hcut, htimeout, hlinks', hwalk, hprev, hframe⟩ := cutBefore_ring hlinks hnodup hnull
    have hnext : s.next .first = e := (links_cons_cons.mp hlinks).1.1
    have hpath : Walk s.next e (e :: E') stop := by
      obtain ⟨post, hpost⟩ := exists_cons_headD R Tl.first
      have hwhole : Links s.next s.prev ([.first] ++ (e :: E' ++ [stop]) ++ post) := by
        rw [hpost, ← hstop] at hlinks
        simpa using hlinks
      exact hwhole.of_append_left.of_append_right.walk
    have hscan := expireScan_eq hpath (fun x hx => h.isDlg x (hmemE x (hE' ▸ hx)))
      (fun x hx => hleE x (hE' ▸ hx)) hstopNull
      hstopTime
    have hhead : ¬(s.next .first = .first ∨ s.timeout (s.next .first) > time) := by
      have heE : e ∈ E := hE' ▸ mem_cons_self ..
      rw [hnext]
      rintro (hc | hc)
      · exact h.ne_first (hmemE e heE) hc
      · exact absurd (hleE e heE) (not_le.mpr hc)
    refine ⟨s', e, ⟨(e :: E').length + 1, ?_, fun fuel => ?_⟩, htimeout, ⟨hlinks', ?_, ?_, ?_⟩,
      hwalk, fun x hx hle => ?_, fun y hy => hframe y ?_⟩
    · rw [← hE', hE]
      exact Nat.succ_le_succ (length_filter_le _ _)
    · rw [getExpiredDlgs, if_neg (hnext ▸ hnull e (mem_cons_self ..)), if_neg hhead, hnext, hscan]
      simp only [Nat.lt_succ_iff]
      split
      · rfl
      · dsimp only [bind_some]
        rw [hnext, if_neg (by simp), hcut]
        rfl
    · exact h.nodup.filter _
    · exact fun x hx => h.isDlg x (hmemR x hx)
    · rw [htimeout]
      exact h.sorted.filter _
    · refine hprev x ?_
      rw [← hE']
      exact mem_filter.mpr ⟨hx, by simpa using hle⟩
    · rwa [← hE', ← hsplit]

/-! ## The list and the expired timers -/

/-- The timers: those of the list, and those that `dlg_timer_routine` has taken and not yet handled. -/
structure TimerOk (s : DlgTimer) (start : Tl) (L D : List Tl) : Prop where
  ring : RingOk s L
  walk : Walk s.next start D .null
  nodup : (L ++ D).Nodup
  isDlg : ∀ x ∈ D, ∃ n, x = .dlg n
  detached : ∀ x ∈ D, s.prev x = .null
  free : ∀ n, .dlg n ∉ L ++ D → s.next (.dlg n) = .null ∧ s.prev (.dlg n) = .null

def placed (timeout : Tl → Nat) (x : Tl) (L : List Tl) : List Tl :=
  L.filter (fun y => timeout y ≤ timeout x) ++ x :: L.filter fun y => timeout x < timeout y

theorem placed_perm (timeout : Tl → Nat) (x : Tl) (L : List Tl) : (placed timeout x L).Perm (x :: L) := by
  have hsplit := filter_append_perm (fun y => decide (timeout y ≤ timeout x)) L
  have hnot : (fun y => !decide (timeout y ≤ timeout x)) = fun y => decide (timeout x < timeout y) := by
    funext y
    rw [← decide_not, decide_eq_decide, not_le]
  rw [hnot] at hsplit
  exact perm_middle.trans (hsplit.cons x)

theorem arm_ring (ticks : Nat) (interval : Int) (hring : RingOk s L) (hx : .dlg n ∉ L) (fuel : Nat) :
    (L.length < fuel → (DlgTimer.arm fuel ticks s (.dlg n) interval).isSome) ∧
      ∀ r, DlgTimer.arm fuel ticks s (.dlg n) interval = some r → r.2 = 0 ∧
        r.1.timeout = update s.timeout (.dlg n) (expiry ticks interval) ∧
        RingOk r.1 (placed r.1.timeout (.dlg n) L) ∧
        ∀ y, y ∉ .first :: .dlg n :: L → r.1.next y = s.next y ∧ r.1.prev y = s.prev y := by
  set t := update s.timeout (.dlg n) (expiry ticks interval)
  have hring' : RingOk { s with timeout := t } L :=
    hring.congr (fun _ _ => ⟨rfl, rfl⟩) fun y hy => update_of_ne (ne_of_mem_of_not_mem hy hx) _ _
  have hins := insertDlgTimerUnsafe_ring hring' hx fuel
  have hlen : (L.filter fun y => t (.dlg n) < t y).length ≤ L.length := length_filter_le ..
  rw [DlgTimer.arm]
  dsimp only at hins ⊢
  split at hins
  · rw [hins]
    exact ⟨fun hlt => by omega, fun r hr => by simp at hr⟩
  · obtain ⟨s', hs', htimeout, hring'', hframe⟩ := hins
    rw [hs']
    refine ⟨fun _ => rfl, fun r hr => ?_⟩
    cases hr
    rw [htimeout]
    exact ⟨rfl, rfl, hring'', hframe⟩

theorem RingOk.prev_ne_null (h : RingOk s L) (hx : x ∈ L) : s.prev x ≠ .null := by
  obtain ⟨A, B, rfl⟩ := append_of_mem hx
  obtain ⟨⟨hprev, hmem⟩, -⟩ := h.neighbours
  exact hprev ▸ h.ne_null (cons_subset_cons _ (fun y hy => mem_middle.mpr (.inr hy)) hmem)

namespace TimerOk

section
variable (h : TimerOk s start L D)
include h

theorem disjoint (hx : x ∈ L) : x ∉ D := fun hc =>
  (nodup_append.mp h.nodup).2.2 x hx x hc rfl

theorem not_ring (hx : x ∈ D) : x ∉ .first :: L := by
  obtain ⟨n, rfl⟩ := h.isDlg x hx
  exact fun hc => h.disjoint (by simpa using hc) hx

theorem prev_eq_null_iff : s.prev (.dlg n) = .null ↔ .dlg n ∉ L := by
  constructor
  · intro hp hx
    exact h.ring.prev_ne_null hx hp
  · intro hx
    by_cases hD : .dlg n ∈ D
    · exact h.detached _ hD
    · exact (h.free n (by simp [hx, hD])).2

theorem next_ne_null (hx : .dlg n ∈ L) : s.next (.dlg n) ≠ .null := by
  obtain ⟨A, B, rfl⟩ := append_of_mem hx
  obtain ⟨-, hnext, hmem⟩ := h.ring.neighbours
  exact hnext ▸ h.ring.ne_null (cons_subset_cons _ (fun y hy => mem_middle.mpr (.inr hy)) hmem)

theorem next_eq_null_iff (hx : .dlg n ∈ D) :
    s.next (.dlg n) = .null ↔ D.getLast? = some (.dlg n) := by
  obtain ⟨A, B, rfl⟩ := append_of_mem hx
  obtain ⟨c, -, rfl, hwalk⟩ := walk_append.mp h.walk
  cases B with
  | nil =>
    have hnull : s.next (.dlg n) = .null := hwalk
    simp [hnull]
  | cons b B =>
    obtain ⟨m, rfl⟩ := h.isDlg b (by simp)
    have hnext : s.next (.dlg n) = .dlg m := hwalk.1
    have hnodup := (nodup_append.mp h.nodup).2.1
    obtain ⟨hout, -⟩ := nodup_cons.mp (nodup_append.mp hnodup).2.1
    rw [hnext, getLast?_append, getLast?_cons_cons, getLast?_eq_some_getLast (by simp), some_or]
    constructor
    · intro hc
      simp at hc
    · intro hc
      rw [← Option.some.inj hc] at hout
      exact absurd (getLast_mem _) hout

end

/-- A timer that is on no list, whatever its own pointers are. -/
structure Off (s : DlgTimer) (start : Tl) (L D : List Tl) (n : Nat) : Prop where
  ring : RingOk s L
  walk : Walk s.next start D .null
  nodup : (L ++ D).Nodup
  isDlg : ∀ x ∈ D, ∃ n, x = .dlg n
  detached : ∀ x ∈ D, s.prev x = .null
  out : .dlg n ∉ L ++ D
  free : ∀ m ≠ n, .dlg m ∉ L ++ D → s.next (.dlg m) = .null ∧ s.prev (.dlg m) = .null

theorem off (h : TimerOk s start L D) (hx : .dlg n ∉ L ++ D) : Off s start L D n :=
  ⟨h.ring, h.walk, h.nodup, h.isDlg, h.detached, hx, fun m _ hm => h.free m hm⟩

/-- **A timer is set**: with enough fuel the call `op` returns, and it returns 0 with the timer on the list. -/
def Sets (s : DlgTimer) (start x : Tl) (expiry : Nat) (L D : List Tl) (op : Option (DlgTimer × Int))
    (enough : Prop) : Prop :=
  (enough → op.isSome) ∧ ∀ r, op = some r →
    r.2 = 0 ∧ r.1.timeout = update s.timeout x expiry ∧ TimerOk r.1 start (placed r.1.timeout x L) D

theorem Off.arm (h : Off s start L D n) (ticks : Nat) (interval : Int) (fuel : Nat) :
    Sets s start (.dlg n) (expiry ticks interval) L D (DlgTimer.arm fuel ticks s (.dlg n) interval)
      (L.length < fuel) := by
  have hxL : Tl.dlg n ∉ L := fun hc => h.out (mem_append_left _ hc)
  obtain ⟨hsome, hspec⟩ := arm_ring ticks interval h.ring hxL fuel
  refine ⟨hsome, fun r hr => ?_⟩
  obtain ⟨hret, htimeout, hring', hframe⟩ := hspec r hr
  have hperm := placed_perm r.1.timeout (.dlg n) L
  have hout : ∀ y ∉ L, y ≠ .dlg n → y ≠ .first → r.1.next y = s.next y ∧ r.1.prev y = s.prev y :=
    fun y hyL hyn hyf => hframe y (by simp [hyL, hyn, hyf])
  have hD : ∀ y ∈ D, r.1.next y = s.next y ∧ r.1.prev y = s.prev y := by
    intro y hy
    refine hout y (fun hc => (nodup_append.mp h.nodup).2.2 y hc y hy rfl) ?_ ?_
    · exact fun hc => h.out (mem_append_right _ (hc ▸ hy))
    · obtain ⟨m, rfl⟩ := h.isDlg y hy
      simp
  refine ⟨hret, htimeout, hring', h.walk.congr fun y hy => (hD y hy).1, ?_, h.isDlg,
    fun y hy => by rw [(hD y hy).2, h.detached y hy], ?_⟩
  · rw [(hperm.append_right D).nodup_iff]
    exact nodup_cons.mpr ⟨h.out, h.nodup⟩
  · intro m hm
    have hm' : Tl.dlg m ∉ Tl.dlg n :: (L ++ D) := fun hc => hm ((hperm.append_right D).mem_iff.mpr hc)
    obtain ⟨hmn, hm'⟩ := not_or.mp (fun hc => hm' (mem_cons.mpr hc))
    obtain ⟨hnext, hprev⟩ := hout (.dlg m) (fun hc => hm' (mem_append_left _ hc)) hmn (by simp)
    rw [hnext, hprev]
    exact h.free m (fun hc => hmn (by rw [hc])) hm'

variable {ticks : Nat} {interval : Int}

section
variable (h : TimerOk s start L D)
include h

/-- `insert_dlg_timer` does nothing for a timer of the list, or for one that has expired and is not the last one. -/
theorem insert_busy (hx : .dlg n ∈ L ∨ .dlg n ∈ D) (hlast : D.getLast? ≠ some (.dlg n))
    (fuel : Nat) : s.insertDlgTimer fuel ticks (.dlg n) interval = some (s, -1) := by
  have hset : s.next (.dlg n) ≠ .null ∨ s.prev (.dlg n) ≠ .null := by
    rcases hx with hx | hx
    · exact .inl (h.next_ne_null hx)
    · exact .inl fun hc => hlast ((h.next_eq_null_iff hx).mp hc)
  rw [DlgTimer.insertDlgTimer, if_pos hset]

theorem insert_free (hx : .dlg n ∉ L ++ D) (fuel : Nat) :
    Sets s start (.dlg n) (expiry ticks interval) L D (s.insertDlgTimer fuel ticks (.dlg n) interval)
      (L.length < fuel) := by
  obtain ⟨hnext, hprev⟩ := h.free n hx
  rw [DlgTimer.insertDlgTimer, if_neg (by simp [hnext, hprev])]
  exact (h.off hx).arm ticks interval fuel

theorem remove_off (hx : .dlg n ∉ L) : s.removeDlgTimer (.dlg n) = some (s, -1) := by
  rw [removeDlgTimer, if_pos (h.prev_eq_null_iff.mpr hx)]

theorem removed (hx : .dlg n ∈ L) :
    ∃ s₁, s.removeDlgTimerUnsafe (.dlg n) = some s₁ ∧ s₁.timeout = s.timeout ∧ Off s₁ start (L.erase (.dlg n)) D n := by
  obtain ⟨s₁, hs₁, htimeout, hring, hframe⟩ := removeDlgTimerUnsafe_ring h.ring hx
  have hout : Tl.dlg n ∉ L.erase (.dlg n) := h.ring.nodup.not_mem_erase
  have hD : ∀ y ∈ D, s₁.next y = s.next y ∧ s₁.prev y = s.prev y := fun y hy =>
    hframe y fun hc => h.not_ring hy (cons_subset_cons _ erase_subset hc)
  refine ⟨s₁, hs₁, htimeout, hring, h.walk.congr fun y hy => (hD y hy).1,
    h.nodup.sublist (erase_sublist.append_right D), h.isDlg, fun y hy => by rw [(hD y hy).2, h.detached y hy],
    by rw [mem_append, not_or]; exact ⟨hout, h.disjoint hx⟩, fun m hmn hm => ?_⟩
  have hmn' : Tl.dlg m ≠ .dlg n := by simpa using hmn
  obtain ⟨hnext, hprev⟩ := hframe (.dlg m) fun hc => hm (mem_append_left _ (by simpa using hc))
  rw [hnext, hprev]
  refine h.free m ?_
  rwa [mem_append, mem_erase_of_ne hmn', ← mem_append] at hm

theorem remove_on (hx : .dlg n ∈ L) :
    ∃ s', s.removeDlgTimer (.dlg n) = some (s', 0) ∧ s'.timeout = update s.timeout (.dlg n) 0 ∧
      TimerOk s' start (L.erase (.dlg n)) D := by
  obtain ⟨s₁, hs₁, htimeout, hoff⟩ := h.removed hx
  have hne : ∀ y ∈ L.erase (.dlg n) ++ D, y ≠ .dlg n := fun y hy => ne_of_mem_of_not_mem hy hoff.out
  refine ⟨⟨update s₁.next (.dlg n) .null, update s₁.prev (.dlg n) .null, update s₁.timeout (.dlg n) 0⟩, ?_,
    by rw [htimeout], ?_⟩
  · rw [removeDlgTimer, if_neg fun hc => h.prev_eq_null_iff.mp hc hx, hs₁, map_some]
  refine ⟨hoff.ring.congr (fun y hy => ?_) (fun y hy => update_of_ne (hne y (mem_append_left _ hy)) _ _),
    hoff.walk.congr fun y hy => ?_, hoff.nodup, h.isDlg, fun y hy => ?_, fun m hm => ?_⟩
  · have hyn : y ≠ .dlg n := forall_mem_cons.mpr ⟨by simp, (forall_mem_append.mp hne).1⟩ y hy
    exact ⟨update_of_ne hyn _ _, update_of_ne hyn _ _⟩
  · exact update_of_ne (hne y (mem_append_right _ hy)) _ _
  · exact (update_of_ne (hne y (mem_append_right _ hy)) _ _).trans (hoff.detached y hy)
  · by_cases hmn : m = n
    · subst hmn
      simp
    · have hmn' : Tl.dlg m ≠ .dlg n := by simpa using hmn
      dsimp only
      rw [update_of_ne hmn', update_of_ne hmn']
      exact hoff.free m hmn hm

theorem update_on (hx : .dlg n ∈ L) (fuel : Nat) :
    Sets s start (.dlg n) (expiry ticks interval) (L.erase (.dlg n)) D (s.updateDlgTimer fuel ticks (.dlg n) interval)
      (L.length < fuel) := by
  obtain ⟨s₁, hs₁, htimeout, hoff⟩ := h.removed hx
  rw [DlgTimer.updateDlgTimer, if_pos (h.next_ne_null hx), if_neg fun hc => h.prev_eq_null_iff.mp hc hx, hs₁,
    bind_some, Sets, ← htimeout]
  have harm := hoff.arm ticks interval fuel
  exact ⟨fun hlt => harm.1 (lt_of_le_of_lt (length_erase_le ..) hlt), harm.2⟩

theorem update_busy (hx : .dlg n ∈ D) (hlast : D.getLast? ≠ some (.dlg n)) (fuel : Nat) :
    s.updateDlgTimer fuel ticks (.dlg n) interval = some (s, -1) := by
  rw [DlgTimer.updateDlgTimer, if_pos fun hc => hlast ((h.next_eq_null_iff hx).mp hc), if_pos (h.detached _ hx)]

theorem update_free (hx : .dlg n ∉ L ++ D) (fuel : Nat) :
    Sets s start (.dlg n) (expiry ticks interval) L D (s.updateDlgTimer fuel ticks (.dlg n) interval)
      (L.length < fuel) := by
  obtain ⟨hnext, hprev⟩ := h.free n hx
  rw [DlgTimer.updateDlgTimer, if_neg (by simp [hnext])]
  exact (h.off hx).arm ticks interval fuel

/-- **The last expired timer** looks like one that is on no list. Setting it again puts it on the list while
`dlg_timer_routine` is still to handle it: nothing is well formed any more. -/
theorem arm_last (hlast : D.getLast? = some (.dlg n)) {r : DlgTimer × Int}
    (hr : DlgTimer.arm fuel ticks s (.dlg n) interval = some r) : ¬∃ L' D', TimerOk r.1 start L' D' := by
  obtain ⟨A, rfl⟩ := getLast?_eq_some_iff.mp hlast
  have hxL : Tl.dlg n ∉ L := fun hc => h.disjoint hc (by simp)
  obtain ⟨-, -, hring, hframe⟩ := (arm_ring ticks interval h.ring hxL fuel).2 r hr
  have hnodup := (nodup_append.mp h.nodup).2.1
  obtain ⟨c, hwalk, rfl, -⟩ := walk_append.mp h.walk
  have hwalk' : Walk r.1.next start A (.dlg n) := by
    refine hwalk.congr fun y hy => (hframe y fun hc => ?_).1
    obtain ⟨m, rfl⟩ := h.isDlg y (by simp [hy])
    simp only [mem_cons, reduceCtorEq, false_or] at hc
    rcases hc with hc | hc
    · exact (nodup_append.mp hnodup).2.2 _ hy _ (mem_singleton.mpr rfl) hc
    · exact h.disjoint hc (by simp [hy])
  rintro ⟨L', D', h'⟩
  -- the walk of the routine still gets to the timer, which has a predecessor now
  have hmem : Tl.dlg n ∈ D' := by
    refine hwalk'.mem h'.walk (fun y hy => ?_) (by simp)
    obtain ⟨m, rfl⟩ := h.isDlg y (by simp [hy])
    simp
  exact hring.prev_ne_null ((placed_perm ..).mem_iff.mpr (mem_cons_self ..)) (h'.detached _ hmem)

theorem insert_last (hlast : D.getLast? = some (.dlg n)) (fuel : Nat) :
    s.insertDlgTimer fuel ticks (.dlg n) interval = DlgTimer.arm fuel ticks s (.dlg n) interval := by
  have hx : Tl.dlg n ∈ D := mem_of_getLast? hlast
  rw [DlgTimer.insertDlgTimer, if_neg (by simp [(h.next_eq_null_iff hx).mpr hlast, h.detached _ hx])]

theorem update_last (hlast : D.getLast? = some (.dlg n)) (fuel : Nat) :
    s.updateDlgTimer fuel ticks (.dlg n) interval = DlgTimer.arm fuel ticks s (.dlg n) interval := by
  have hx : Tl.dlg n ∈ D := mem_of_getLast? hlast
  rw [DlgTimer.updateDlgTimer, if_neg (by simp [(h.next_eq_null_iff hx).mpr hlast])]

end

/-- `get_expired_dlgs`, when the routine has handled what it took before. -/
theorem expire (h : TimerOk s start L []) (time : Nat) :
    ∃ s' ret, (∃ k ≤ L.length + 1, ∀ fuel, s.getExpiredDlgs fuel time = if fuel < k then none else some (s', ret)) ∧
      s'.timeout = s.timeout ∧
      TimerOk s' ret (L.filter fun y => time < s.timeout y) (L.filter fun y => s.timeout y ≤ time) := by
  obtain ⟨s', ret, hs', htimeout, hring, hwalk, hprev, hframe⟩ := getExpiredDlgs_ring h.ring time
  have hperm : (L.filter (fun y => time < s.timeout y) ++ L.filter fun y => s.timeout y ≤ time).Perm L :=
    perm_append_comm.trans (List.Perm.of_eq (sorted_split h.ring.sorted time).symm)
  refine ⟨s', ret, hs', htimeout, hring, hwalk, ?_, ?_, ?_, fun n hn => ?_⟩
  · rw [hperm.nodup_iff]
    exact h.ring.nodup
  · exact fun x hx => h.ring.isDlg x (mem_of_mem_filter hx)
  · intro x hx
    obtain ⟨hxL, hle⟩ := mem_filter.mp hx
    exact hprev x hxL (by simpa using hle)
  · rw [hperm.mem_iff] at hn
    obtain ⟨hnext, hprev⟩ := hframe (.dlg n) (by simpa using hn)
    rw [hnext, hprev]
    exact h.free n (by simpa using hn)

theorem unlink (h : TimerOk s x L (x :: D)) : TimerOk (s.unlinkExpired x).1 (s.unlinkExpired x).2 L D := by
  obtain ⟨n, rfl⟩ := h.isDlg x (mem_cons_self ..)
  obtain ⟨hout, hnodup⟩ := nodup_cons.mp (nodup_middle.mp h.nodup)
  have hne : ∀ y ∈ L ++ D, y ≠ .dlg n := fun y hy => ne_of_mem_of_not_mem hy hout
  refine ⟨h.ring.congr (fun y hy => ⟨?_, rfl⟩) (fun _ _ => rfl), h.walk.2.congr fun y hy => ?_, hnodup,
    fun y hy => h.isDlg y (mem_cons_of_mem _ hy), fun y hy => h.detached y (mem_cons_of_mem _ hy),
    fun m hm => ?_⟩
  · have hyn : .dlg n ∉ .first :: L := by simpa using fun hc => hout (mem_append_left _ hc)
    exact update_of_ne (ne_of_mem_of_not_mem hy hyn) _ _
  · exact update_of_ne (hne y (mem_append_right _ hy)) _ _
  · by_cases hmn : m = n
    · subst hmn
      exact ⟨update_self .., h.detached _ (mem_cons_self ..)⟩
    · have hmn' : Tl.dlg m ≠ .dlg n := by simpa using hmn
      obtain ⟨hnext, hprev⟩ := h.free m fun hc => by
        rcases mem_append.mp hc with hc | hc
        · exact hm (mem_append_left _ hc)
        · exact hm (mem_append_right _ (mem_of_ne_of_mem hmn' hc))
      exact ⟨(update_of_ne hmn' _ _).trans hnext, hprev⟩

end TimerOk

end OpenSer.Dialog



