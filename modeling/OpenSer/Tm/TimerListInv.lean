import Mathlib.Data.List.DropRight
import OpenSer.Lib.Runs
import OpenSer.Tm.TimerList

/-!
# The timer list over every run of operations

`TimerListOk s runs` says that the list holds the timers of `runs.flatten`, linked both ways between the sentinels,
that `runs` are its maximal runs of equal `time_out` in increasing order, and that `ld_tl` joins the two ends of each
run. Every operation keeps it (`insertTimerUnsafe_ok`, `removeTimerUnsafe_ok`, `checkAndSplitTimeList_ok`), so it holds
in every state a run of operations reaches (`TimerReach.ok`).
-/

namespace OpenSer.Tm

open Option List Function Lib Timers Nat

/-- The links, the runs and the skip pointers of a list. -/
structure TimerListShape (s : Timers) (runs : List (List Tl)) : Prop where
  links : Links s.nextTl s.prevTl (.first :: runs.flatten ++ [.last])
  nodup : runs.flatten.Nodup
  isLink : ∀ x ∈ runs.flatten, ∃ n, x = .link n
  sorted : SortedRuns s.timeOut runs
  ld : ∀ r ∈ runs, RunLinks .null s.ldTl r
  pos : ∀ x ∈ runs.flatten, s.timeOut x ≠ 0
  firstZero : s.timeOut .first = 0

/-- A well-formed timer list: its shape, and exactly its timers point at the list. -/
structure TimerListOk (s : Timers) (runs : List (List Tl)) : Prop extends TimerListShape s runs where
  linked : ∀ n, s.timerList (.link n) = .list ↔ .link n ∈ runs.flatten

/-- The timers `xs` are linked both ways. -/
abbrev Timers.Linked (s : Timers) (xs : List Tl) : Prop := Links s.nextTl s.prevTl xs

/-- The skip pointers join the ends of the run `r`. -/
abbrev Timers.Joined (s : Timers) (r : List Tl) : Prop := RunLinks .null s.ldTl r

variable {s s' : Timers} {runs R R₁ R₂ runs' : List (List Tl)} {r xs r' : List Tl} {t : Nat} {tl x : Tl}
  {n : Nat} {ys zs : List Tl} {ptr : Tl} {timeOut : Tl → Nat}

namespace TimerListShape

section
variable (h : TimerListShape s runs)
include h

theorem ne_sentinel (hx : x ∈ runs.flatten) : x ≠ .first ∧ x ≠ .last ∧ x ≠ .null := by
  obtain ⟨n, rfl⟩ := h.isLink x hx
  simp

theorem nodup_sources : (Tl.first :: runs.flatten).Nodup :=
  nodup_cons.mpr ⟨fun hf => (h.ne_sentinel hf).1 rfl, h.nodup⟩

theorem nodup_targets : (runs.flatten ++ [Tl.last]).Nodup := by
  refine nodup_append.mpr ⟨h.nodup, nodup_singleton _, fun x hx y hy => ?_⟩
  rw [mem_singleton.mp hy]
  exact (h.ne_sentinel hx).2.1

end

theorem ne_of_runs (h : TimerListShape s (R₁ ++ r :: R₂)) (hr' : r' ∈ R₁ ++ R₂) {y : Tl}
    (hx : x ∈ r') (hy : y ∈ r) : x ≠ y := by
  have hnd : (r ++ (R₁ ++ R₂).flatten).Nodup := by
    have hperm : (R₁ ++ r :: R₂).flatten.Perm (r :: (R₁ ++ R₂)).flatten := perm_middle.flatten
    exact (hperm.nodup_iff.mp h.nodup)
  exact ((nodup_append.mp hnd).2.2 y hy x (mem_flatten_of_mem hr' hx)).symm

end TimerListShape

/-! ## Insertion -/

theorem getLastD_flatten_concat (hr : r ≠ []) (d : Tl) : (R ++ [r]).flatten.getLastD d = r.getLast hr := by
  rw [flatten_append, flatten_singleton, getLastD_eq_getLast?, getLast?_append_of_ne_nil _ hr,
    getLast?_eq_getLast_of_ne_nil hr, getD_some]

/-- **The backward scan** passes the runs above `t` one by one and stops behind all timers up to `t`. -/
theorem insertScan_eq (R₂ : List (List Tl)) : ∀ {ys : List Tl} {fuel : Nat},
    s.Linked (.first :: (R₁ ++ R₂).flatten ++ ys) → (∀ x ∈ (R₁ ++ R₂).flatten, x ≠ .first) →
    (∀ r ∈ R₂, s.Joined r) → (∀ x ∈ R₁.flatten, s.timeOut x ≤ t) → (∀ x ∈ R₂.flatten, t < s.timeOut x) →
    s.insertScan t fuel ((R₁ ++ R₂).flatten.getLastD .first) =
      if R₂.length < fuel then some (R₁.flatten.getLastD .first) else none := by
  -- on the runs above `t`, from the last one backwards
  induction R₂ using reverseRecOn with
  | nil =>
    intro ys fuel _ _ _ hle _
    rw [append_nil]
    cases fuel with
    | zero => rfl
    | succ k =>
      unfold insertScan
      rw [if_pos (show [].length < k + 1 from succ_pos k)]
      split
      · rfl
      · rename_i hne
        rw [if_pos (hle _ ((mem_cons.mp (getLastD_mem_cons ..)).resolve_left hne))]
  | append_singleton R r ih =>
    intro ys fuel hl hfirst hld hle hlt
    have hrl : s.Joined r := hld r (by simp)
    rw [← append_assoc] at hl hfirst ⊢
    have hmem : ∀ x ∈ r, x ∈ ((R₁ ++ R) ++ [r]).flatten := fun x hx => mem_flatten_of_mem (by simp) hx
    have hlast := getLast_mem hrl.ne
    have hl' : s.Linked (.first :: (R₁ ++ R).flatten ++ (r ++ ys)) := by simpa using hl
    have hprev : s.prevTl (r.head hrl.ne) = (R₁ ++ R).flatten.getLastD .first := by
      rw [← cons_head_tail hrl.ne] at hl'
      exact hl'.prev_eq_getLastD
    rw [getLastD_flatten_concat hrl.ne, length_append, length_singleton]
    cases fuel with
    | zero => rfl
    | succ k =>
      unfold insertScan
      rw [if_neg (hfirst _ (hmem _ hlast)), if_neg (not_le.mpr (hlt _ (mem_flatten_of_mem (by simp) hlast))),
        hrl.last, hprev, ih hl' ?_ ?_ hle ?_]
      · simp only [add_lt_add_iff_right]
      · exact fun x hx => hfirst x (by rw [flatten_append]; exact mem_append_left _ hx)
      · exact fun r' hr' => hld r' (by simp [hr'])
      · exact fun x hx => hlt x (by rw [flatten_append]; exact mem_append_left _ hx)

theorem linkAfter_links (hne : tl ≠ ptr) :
    (s.linkAfter tl ptr).nextTl = update (update s.nextTl tl (s.nextTl ptr)) ptr tl ∧
      (s.linkAfter tl ptr).prevTl = update (update s.prevTl tl ptr) (s.nextTl ptr) tl ∧
      (s.linkAfter tl ptr).timeOut = s.timeOut ∧ (s.linkAfter tl ptr).timerList = s.timerList := by
  unfold linkAfter
  simp only [update_self]
  split
  all_goals
    refine ⟨rfl, ?_, rfl, rfl⟩
    simp only [update_of_ne hne, update_self]

theorem linkAfter_ld_join (hne : tl ≠ ptr) (he : s.timeOut tl = s.timeOut ptr) :
    (s.linkAfter tl ptr).ldTl =
      update (update (update s.ldTl tl (s.ldTl ptr)) ptr .null) (s.ldTl ptr) tl := by
  unfold linkAfter
  rw [if_pos he]
  simp only [update_of_ne hne, update_self]

theorem linkAfter_ld_alone (he : s.timeOut tl ≠ s.timeOut ptr) :
    (s.linkAfter tl ptr).ldTl = update s.ldTl tl tl := by
  unfold linkAfter
  rw [if_neg he]

theorem ne_getLastD (hz : tl ∉ .first :: (ys ++ zs) ++ [.last]) : tl ≠ ys.getLastD .first := by
  intro he
  rw [he, cons_append, append_assoc] at hz
  exact hz (mem_append_left _ (getLastD_mem_cons ..))

theorem TimerListShape.links_insert (h : TimerListShape s runs) (hruns : runs.flatten = ys ++ zs)
    (hz : tl ∉ .first :: runs.flatten ++ [.last]) :
    (s.linkAfter tl (ys.getLastD .first)).Linked (.first :: (ys ++ tl :: zs) ++ [.last]) := by
  have hs := h.nodup_sources
  have ht := h.nodup_targets
  have hl := h.links
  rw [hruns] at hs ht hl hz
  obtain ⟨pre, hpre⟩ := exists_concat_getLastD Tl.first ys
  have hl' : s.Linked (pre ++ ys.getLastD .first :: (zs ++ [.last])) := by
    have : pre ++ ys.getLastD .first :: (zs ++ [.last]) = .first :: ys ++ (zs ++ [.last]) := by rw [hpre]; simp
    rw [this]
    simpa using hl
  obtain ⟨hn, hp, -, -⟩ := linkAfter_links (s := s) (ne_getLastD hz)
  rw [Linked, hn, hp, hl'.next_eq_headD]
  have hl'' : s.Linked (.first :: ys ++ (zs ++ [.last])) := by simpa using hl
  simpa using hl''.insert_at hs (by simpa using ht) (z := tl) (by simpa using hz)

theorem TimerListShape.insert_of (h : TimerListShape s (R₁ ++ R₂))
    (htl : tl = .link n) (hfresh : tl ∉ (R₁ ++ R₂).flatten) (hpos : s.timeOut tl ≠ 0)
    (hptr : ptr = R₁.flatten.getLastD .first) (hflat : runs'.flatten = R₁.flatten ++ tl :: R₂.flatten)
    (hsorted : SortedRuns s.timeOut runs') (hld : ∀ r ∈ runs', (s.linkAfter tl ptr).Joined r) :
    TimerListShape (s.linkAfter tl ptr) runs' := by
  subst hptr
  have hmem : ∀ x, x ∈ runs'.flatten ↔ x = tl ∨ x ∈ (R₁ ++ R₂).flatten := by
    intro x
    rw [hflat, flatten_append]
    simp only [mem_append, mem_cons]
    tauto
  have hout : tl ∉ .first :: (R₁ ++ R₂).flatten ++ [.last] := by
    rw [htl] at hfresh ⊢
    simpa using hfresh
  obtain ⟨-, -, htime, -⟩ := linkAfter_links (s := s) (ne_getLastD (flatten_append ▸ hout))
  refine ⟨?_, ?_, ?_, by rw [htime]; exact hsorted, hld, ?_, by rw [htime]; exact h.firstZero⟩
  · rw [hflat]
    exact h.links_insert flatten_append hout
  · rw [hflat, nodup_middle, nodup_cons]
    rw [flatten_append] at hfresh
    exact ⟨hfresh, flatten_append ▸ h.nodup⟩
  · intro x hx
    rcases (hmem x).mp hx with rfl | hx
    · exact ⟨n, htl⟩
    · exact h.isLink x hx
  · intro x hx
    rw [htime]
    rcases (hmem x).mp hx with rfl | hx
    · exact hpos
    · exact h.pos x hx

theorem TimerListShape.insert_alone (h : TimerListShape s (R₁ ++ R₂)) (htl : tl = .link n)
    (hfresh : tl ∉ (R₁ ++ R₂).flatten) (hpos : s.timeOut tl ≠ 0) (h1 : ∀ x ∈ R₁.flatten, s.timeOut x < s.timeOut tl)
    (h2 : ∀ x ∈ R₂.flatten, s.timeOut tl < s.timeOut x) (hneq : s.timeOut tl ≠ s.timeOut (R₁.flatten.getLastD .first)) :
    TimerListShape (s.linkAfter tl (R₁.flatten.getLastD .first)) (R₁ ++ [tl] :: R₂) := by
  have other : ∀ r ∈ R₁ ++ R₂, RunLinks .null (update s.ldTl tl tl) r := fun r hr =>
    (h.ld r hr).congr fun x hx =>
      update_of_ne (ne_of_mem_of_not_mem (mem_flatten_of_mem hr hx) hfresh) _ _
  refine h.insert_of htl hfresh hpos rfl (by simp) (h.sorted.insert_run h1 h2) fun r hr => ?_
  rw [Timers.Joined, linkAfter_ld_alone hneq]
  rcases mem_middle.mp hr with rfl | hr
  · exact ⟨by simp, by simp, by simp, by simp⟩
  · exact other r hr

theorem TimerListShape.insert_join (h : TimerListShape s ((R ++ [r]) ++ R₂)) (htl : tl = .link n)
    (hfresh : tl ∉ ((R ++ [r]) ++ R₂).flatten) (hpos : s.timeOut tl ≠ 0) (hr : r ≠ [])
    (heq : s.timeOut tl = s.timeOut (r.getLast hr)) :
    TimerListShape (s.linkAfter tl (r.getLast hr)) (R ++ (r ++ [tl]) :: R₂) := by
  have h' : TimerListShape s (R ++ r :: R₂) := by simpa using h
  have hne : ∀ r' ∈ R ++ r :: R₂, ∀ x ∈ r', x ≠ tl := fun r' hr' x hx =>
    ne_of_mem_of_not_mem (mem_flatten_of_mem (by simpa using hr') hx) hfresh
  have hrl : s.Joined r := h'.ld r (by simp)
  have hlast := getLast_mem hr
  have other : ∀ r' ∈ R ++ R₂, RunLinks .null (update (update (update s.ldTl tl (s.ldTl (r.getLast hr)))
      (r.getLast hr) .null) (s.ldTl (r.getLast hr)) tl) r' := by
    intro r' hr'
    have hr'' : r' ∈ R ++ r :: R₂ := mem_middle.mpr (.inr hr')
    refine (h'.ld r' hr'').congr fun x hx => ?_
    rw [hrl.last, update_of_ne (h'.ne_of_runs hr' hx (head_mem hr)),
      update_of_ne (h'.ne_of_runs hr' hx hlast), update_of_ne (hne r' hr'' x hx)]
  have hsorted : SortedRuns s.timeOut (R ++ (r ++ [tl]) :: R₂) :=
    h'.sorted.append_last fun y hy => (h'.sorted.same r (by simp) y hy _ hlast).trans heq.symm
  refine h.insert_of htl hfresh hpos (getLastD_flatten_concat hr Tl.first).symm (by simp) hsorted fun r' hr' => ?_
  rw [Timers.Joined, linkAfter_ld_join (fun he => hne r (by simp) _ hlast he.symm) heq]
  rcases mem_middle.mp hr' with rfl | hr'
  · refine hrl.concat (nodup_append.mpr ⟨?_, by simp, fun x hx y hy => ?_⟩)
    · exact (nodup_flatten.mp h'.nodup).1 r (by simp)
    · rw [mem_singleton.mp hy]
      exact hne r (by simp) x hx
  · exact other r' hr'

/-- **Insertion keeps the shape**: behind all timers up to its `time_out`, a timer joins their last run or starts its
own. -/
theorem TimerListShape.insert (h : TimerListShape s (R₁ ++ R₂)) (htl : tl = .link n)
    (hfresh : tl ∉ (R₁ ++ R₂).flatten) (hpos : s.timeOut tl ≠ 0) (h1 : ∀ x ∈ R₁.flatten, s.timeOut x ≤ s.timeOut tl)
    (h2 : ∀ x ∈ R₂.flatten, s.timeOut tl < s.timeOut x) :
    ∃ runs', TimerListShape (s.linkAfter tl (R₁.flatten.getLastD .first)) runs' ∧
      runs'.flatten = R₁.flatten ++ tl :: R₂.flatten := by
  rcases eq_nil_or_concat R₁ with rfl | ⟨R, r, rfl⟩
  · refine ⟨_, h.insert_alone htl hfresh hpos (by simp) h2 ?_, by simp⟩
    simpa [h.firstZero] using hpos
  · rw [concat_eq_append] at *
    have hr : r ≠ [] := h.sorted.ne r (by simp)
    have hlast := getLast_mem hr
    have hle := h1 (r.getLast hr) (mem_flatten_of_mem (by simp) hlast)
    have hptr := getLastD_flatten_concat (R := R) hr Tl.first
    by_cases heq : s.timeOut tl = s.timeOut (r.getLast hr)
    · rw [hptr]
      exact ⟨_, h.insert_join htl hfresh hpos hr heq, by simp⟩
    · refine ⟨_, h.insert_alone htl hfresh hpos (fun x hx => ?_) h2 (by rw [hptr]; exact heq), by simp⟩
      rw [flatten_append, flatten_singleton, mem_append] at hx
      rcases hx with hx | hx
      · obtain ⟨-, -, hlt⟩ := sortedRuns_append.mp (sortedRuns_append.mp h.sorted).1
        exact (hlt x hx _ (by simp)).trans_le hle
      · rw [h.sorted.same r (by simp) x hx _ hlast]
        exact lt_of_le_of_ne hle (Ne.symm heq)

/-- The insertion position of a plain scan from the back: past the timers above `t`. -/
def plainInsert (timeOut : Tl → Nat) (t : Nat) (tl : Tl) (xs : List Tl) : List Tl :=
  xs.rdropWhile (fun y => t < timeOut y) ++ tl :: xs.rtakeWhile (fun y => t < timeOut y)

theorem plainInsert_eq (h1 : ∀ y ∈ ys, timeOut y ≤ t)
    (h2 : ∀ z ∈ zs, t < timeOut z) : plainInsert timeOut t tl (ys ++ zs) = ys ++ tl :: zs := by
  have hdrop : (ys ++ zs).rdropWhile (fun y => decide (t < timeOut y)) = ys := by
    rw [rdropWhile, reverse_append, dropWhile_append_of_pos (by simpa using h2)]
    rw [← rdropWhile, rdropWhile_eq_self_iff]
    intro hne
    simpa using h1 _ (getLast_mem hne)
  have htake : (ys ++ zs).rtakeWhile (fun y => decide (t < timeOut y)) = zs := by
    have := rdropWhile_append_rtakeWhile (p := fun y => decide (t < timeOut y)) (l := ys ++ zs)
    rw [hdrop] at this
    exact append_cancel_left this
  rw [plainInsert, hdrop, htake]

/-- **`insert_timer_unsafe`** puts a timer that is on no list where a plain scan from the back would. It answers after
the runs above `t`. -/
theorem insertTimerUnsafe_ok (h : TimerListOk s runs) (hfree : s.timerList (.link n) ≠ .list) (ht : t ≠ 0) :
    ∃ s' runs', (∃ k ≤ runs.length, ∀ fuel, s.insertTimerUnsafe fuel (.link n) t = if k < fuel then some s' else none) ∧
      TimerListOk s' runs' ∧ runs'.flatten = plainInsert s.timeOut t (.link n) runs.flatten := by
  have hfresh : Tl.link n ∉ runs.flatten := fun hin => hfree ((h.linked n).mpr hin)
  obtain ⟨R₁, R₂, rfl, h1, h2⟩ := h.sorted.exists_split t
  have hne : ∀ x ∈ (R₁ ++ R₂).flatten, x ≠ .link n := fun x hx => ne_of_mem_of_not_mem hx hfresh
  -- the state in which the pointers are written
  let s₁ : Timers := { s with
    timeOut := update s.timeOut (.link n) t
    timerList := update s.timerList (.link n) .list
    deleted := update s.deleted (.link n) false }
  have hkey : ∀ x ∈ (R₁ ++ R₂).flatten, s₁.timeOut x = s.timeOut x := fun x hx => update_of_ne (hne x hx) _ _
  have hkey' : s₁.timeOut (.link n) = t := update_self ..
  have hkey'' : s₁.timeOut .first = 0 := by simp [s₁, h.firstZero]
  have hs₁ : TimerListShape s₁ (R₁ ++ R₂) :=
    ⟨h.links, h.nodup, h.isLink, h.sorted.congr hkey, h.ld, fun x hx => by rw [hkey x hx]; exact h.pos x hx, hkey''⟩
  rw [flatten_append, forall_mem_append] at hkey
  have h1' : ∀ x ∈ R₁.flatten, s₁.timeOut x ≤ t := fun x hx => by rw [hkey.1 x hx]; exact h1 x hx
  have h2' : ∀ x ∈ R₂.flatten, t < s₁.timeOut x := fun x hx => by rw [hkey.2 x hx]; exact h2 x hx
  have hscan : ∀ fuel, s₁.insertScan t fuel (s₁.prevTl .last) =
      if R₂.length < fuel then some (R₁.flatten.getLastD .first) else none := by
    have hlast : s₁.prevTl .last = (R₁ ++ R₂).flatten.getLastD .first := hs₁.links.prev_eq_getLastD
    rw [hlast]
    exact fun fuel =>
      insertScan_eq R₂ hs₁.links (fun x hx => (hs₁.ne_sentinel hx).1) (fun r hr => hs₁.ld r (by simp [hr])) h1' h2'
  obtain ⟨runs', hshape, hflat⟩ := hs₁.insert rfl hfresh (by rw [hkey']; exact ht) (by rw [hkey']; exact h1')
    (by rw [hkey']; exact h2')
  refine ⟨_, runs', ⟨R₂.length, by simp, fun fuel => ?_⟩, ⟨hshape, fun m => ?_⟩, ?_⟩
  · unfold insertTimerUnsafe
    dsimp only
    rw [hscan]
    by_cases hk : R₂.length < fuel
    · rw [if_pos hk, if_pos hk]
    · rw [if_neg hk, if_neg hk]
  · have hout : Tl.link n ∉ .first :: (R₁.flatten ++ R₂.flatten) ++ [.last] := by
      simpa using hfresh
    obtain ⟨-, -, -, hlist⟩ := linkAfter_links (s := s₁) (ne_getLastD hout)
    rw [hlist, hflat]
    by_cases hm : m = n
    · subst hm
      simp [s₁]
    · have := h.linked m
      simp [s₁, hm, this]
  · rw [hflat, flatten_append, plainInsert_eq h1 h2]

/-! ## Removal -/

theorem unlinkLd_eq (s : Timers) (tl : Tl) : s.unlinkLd tl = { s with ldTl := (s.unlinkLd tl).ldTl } := by
  unfold unlinkLd
  split <;> rfl

theorem unlinkLd_skip (hld : s.ldTl tl = .null ∨ s.ldTl tl = tl) : s.unlinkLd tl = s := by
  unfold unlinkLd
  rw [if_neg (by tauto)]

/-- The end of a longer run hands its skip pointer to a neighbour. -/
theorem unlinkLd_end {nb : Tl} (h1 : s.ldTl tl ≠ .null) (h2 : s.ldTl tl ≠ tl) (hne : nb ≠ tl)
    (hnb : (if s.timeOut tl = s.timeOut (s.prevTl tl) then s.prevTl tl else s.nextTl tl) = nb) :
    (s.unlinkLd tl).ldTl = update (update s.ldTl nb (s.ldTl tl)) (s.ldTl tl) nb := by
  unfold unlinkLd
  rw [if_pos ⟨h1, h2⟩]
  dsimp only
  rw [hnb, update_of_ne (Ne.symm hne)]

/-- The other runs do not see the writes at the ends of a run. -/
theorem TimerListShape.other_runs (h : TimerListShape s (R₁ ++ r :: R₂)) {a b : Tl} (ha : a ∈ r) (hb : b ∈ r)
    {va vb : Tl} : ∀ r' ∈ R₁ ++ R₂, RunLinks .null (update (update s.ldTl a va) b vb) r' := by
  intro r' hr'
  refine (h.ld r' (mem_middle.mpr (.inr hr'))).congr fun x hx => ?_
  rw [update_of_ne (h.ne_of_runs hr' hx hb), update_of_ne (h.ne_of_runs hr' hx ha)]

section Removal

variable {p q : List Tl}

theorem TimerListShape.next_of_mem (h : TimerListShape s (R₁ ++ (p ++ tl :: q) :: R₂)) :
    s.nextTl tl = (q ++ R₂.flatten).headD .last := by
  have hl : s.Linked ((.first :: R₁.flatten ++ p) ++ tl :: ((q ++ R₂.flatten) ++ [.last])) := by
    simpa using h.links
  exact hl.next_eq_headD

theorem TimerListShape.prev_of_mem (h : TimerListShape s (R₁ ++ (p ++ tl :: q) :: R₂)) :
    s.prevTl tl = (R₁.flatten ++ p).getLastD .first := by
  have hl : s.Linked (.first :: (R₁.flatten ++ p) ++ tl :: (q ++ R₂.flatten ++ [.last])) := by
    simpa using h.links
  exact hl.prev_eq_getLastD

theorem TimerListShape.prev_time_ne (h : TimerListShape s (R₁ ++ (tl :: q) :: R₂)) :
    s.timeOut tl ≠ s.timeOut (s.prevTl tl) := by
  have hprev : s.prevTl tl = (R₁.flatten ++ []).getLastD .first := h.prev_of_mem (p := [])
  rw [hprev, append_nil]
  have hmem : tl ∈ (R₁ ++ (tl :: q) :: R₂).flatten := by simp
  rcases eq_nil_or_concat R₁.flatten with hR | ⟨xs, x, hR⟩
  · rw [hR, getLastD_nil, h.firstZero]
    exact h.pos tl hmem
  · rw [hR, concat_eq_append, getLastD_concat]
    obtain ⟨-, -, hlt⟩ := sortedRuns_append.mp h.sorted
    exact (hlt x (by simp [hR]) tl (by simp)).ne'

/-- Before a timer leaves at one end of its run, the one next to it takes over its skip pointer. -/
theorem TimerListShape.unlinkLd_at (h : TimerListShape s (R₁ ++ r :: R₂)) (hr : ∀ x ∈ q, x ∈ r) (hnd : (tl :: q).Nodup)
    (hq : q ≠ []) (hinner : ∀ x ∈ q.tail.dropLast, s.ldTl x = .null) {near far : Tl}
    (hends : near = q.head hq ∧ far = q.getLast hq ∨ near = q.getLast hq ∧ far = q.head hq) (hld : s.ldTl tl = far)
    (hnb : (if s.timeOut tl = s.timeOut (s.prevTl tl) then s.prevTl tl else s.nextTl tl) = near) :
    (∀ r ∈ R₁ ++ R₂, (s.unlinkLd tl).Joined r) ∧ (s.unlinkLd tl).Joined q := by
  obtain ⟨hout, hnd⟩ := nodup_cons.mp hnd
  obtain ⟨hnear, hfar⟩ : near ∈ q ∧ far ∈ q := by
    rcases hends with ⟨rfl, rfl⟩ | ⟨rfl, rfl⟩ <;> simp
  have hnull : far ≠ .null := (h.ne_sentinel (mem_flatten_of_mem (l := r) (by simp) (hr _ hfar))).2.2
  unfold Timers.Joined
  rw [unlinkLd_end (by rw [hld]; exact hnull) (by rw [hld]; exact ne_of_mem_of_not_mem hfar hout)
    (ne_of_mem_of_not_mem hnear hout) hnb, hld]
  refine ⟨h.other_runs (hr _ hnear) (hr _ hfar), RunLinks.of_ends hq hnd hinner ?_ ?_ ?_⟩
  all_goals
    grind

/-- Before the first of several timers leaves its run, the next one becomes its head. -/
theorem TimerListShape.unlinkLd_first (h : TimerListShape s (R₁ ++ (tl :: q) :: R₂)) (hq : q ≠ []) :
    (∀ r ∈ R₁ ++ R₂, (s.unlinkLd tl).Joined r) ∧ (s.unlinkLd tl).Joined q := by
  have hrl : s.Joined (tl :: q) := h.ld _ (by simp)
  have hnext : s.nextTl tl = q.head hq := by
    rw [h.next_of_mem (p := []), headD_eq_head?, head?_append_of_ne_nil _ hq, head?_eq_some_head hq,
      getD_some]
  refine h.unlinkLd_at (fun x hx => mem_cons_of_mem _ hx) ((nodup_flatten.mp h.nodup).1 (tl :: q) (by simp)) hq
    (fun x hx => hrl.inner x ?_) (.inl ⟨rfl, rfl⟩) ?_ ?_
  · rw [← tail_dropLast] at hx
    exact mem_of_mem_tail hx
  · simpa [getLast_cons hq] using hrl.head
  · rw [if_neg h.prev_time_ne, hnext]

/-- Before the last of several timers leaves its run, the one before it becomes the end. -/
theorem TimerListShape.unlinkLd_last (h : TimerListShape s (R₁ ++ (p ++ [tl]) :: R₂)) (hp : p ≠ []) :
    (∀ r ∈ R₁ ++ R₂, (s.unlinkLd tl).Joined r) ∧ (s.unlinkLd tl).Joined p := by
  have hrl : s.Joined (p ++ [tl]) := h.ld _ (by simp)
  have hnd : (tl :: (p ++ [])).Nodup :=
    nodup_middle.mp ((nodup_flatten.mp h.nodup).1 (p ++ [tl]) (by simp))
  have hprev : s.prevTl tl = p.getLast hp := by
    rw [h.prev_of_mem, getLastD_eq_getLast?, getLast?_append_of_ne_nil _ hp,
      getLast?_eq_getLast_of_ne_nil hp, getD_some]
  have htime : s.timeOut tl = s.timeOut (p.getLast hp) :=
    h.sorted.same (p ++ [tl]) (by simp) tl (by simp) _ (by simp)
  rw [append_nil] at hnd
  refine h.unlinkLd_at (fun x hx => mem_append_left _ hx) hnd hp (fun x hx => hrl.inner x ?_) (.inr ⟨rfl, rfl⟩) ?_ ?_
  · rw [tail_append_of_ne_nil hp, dropLast_concat]
    exact mem_of_mem_dropLast hx
  · simpa [head_append_of_ne_nil hp] using hrl.last
  · rw [hprev, if_pos htime]

/-- **The skip pointers before a timer leaves**: its run without it is joined at its ends, and the other runs are as
before. -/
theorem TimerListShape.unlinkLd_runs (h : TimerListShape s (R₁ ++ (p ++ tl :: q) :: R₂)) :
    (∀ r ∈ R₁ ++ R₂, (s.unlinkLd tl).Joined r) ∧
      (p ++ q ≠ [] → (s.unlinkLd tl).Joined (p ++ q)) := by
  have hrl : s.Joined (p ++ tl :: q) := h.ld _ (by simp)
  have hold : ∀ r ∈ R₁ ++ R₂, s.Joined r := fun r hr => h.ld r (mem_middle.mpr (.inr hr))
  by_cases hp : p = []
  · subst hp
    by_cases hq : q = []
    · subst hq
      rw [unlinkLd_skip (.inr (by simpa using hrl.head))]
      exact ⟨hold, fun hc => absurd rfl hc⟩
    · exact (h.unlinkLd_first hq).imp_right fun hrun _ => hrun
  · by_cases hq : q = []
    · subst hq
      rw [append_nil]
      exact (h.unlinkLd_last hp).imp_right fun hrun _ => hrun
    · have hin : tl ∈ (p ++ tl :: q).tail.dropLast := by
        rw [tail_append_of_ne_nil hp, dropLast_append_of_ne_nil (by simp), dropLast_cons_of_ne_nil hq]
        simp
      rw [unlinkLd_skip (.inl (hrl.inner tl hin))]
      exact ⟨hold, fun _ => hrl.drop_inner hp hq⟩

theorem removeTimerUnsafe_fields (hin : s.timerList tl = .list) (hne : s.prevTl tl ≠ tl) :
    (s.removeTimerUnsafe tl).nextTl = update (update s.nextTl (s.prevTl tl) (s.nextTl tl)) tl .null ∧
      (s.removeTimerUnsafe tl).prevTl = update (update s.prevTl (s.nextTl tl) (s.prevTl tl)) tl .null ∧
      (s.removeTimerUnsafe tl).ldTl = update (s.unlinkLd tl).ldTl tl .null ∧
      (s.removeTimerUnsafe tl).timeOut = s.timeOut := by
  unfold removeTimerUnsafe
  rw [if_neg (by simpa using hin), unlinkLd_eq]
  dsimp only
  rw [update_of_ne hne.symm]
  exact ⟨rfl, rfl, rfl, rfl⟩

theorem TimerListShape.rest (h : TimerListShape s (R₁ ++ (p ++ tl :: q) :: R₂)) :
    (R₁ ++ (p ++ tl :: q) :: R₂).flatten = (R₁.flatten ++ p) ++ tl :: (q ++ R₂.flatten) ∧
      tl ∉ (R₁.flatten ++ p) ++ (q ++ R₂.flatten) := by
  have hold : (R₁ ++ (p ++ tl :: q) :: R₂).flatten = (R₁.flatten ++ p) ++ tl :: (q ++ R₂.flatten) := by simp
  exact ⟨hold, (nodup_cons.mp (nodup_middle.mp (hold ▸ h.nodup))).1⟩

theorem TimerListShape.remove_of (h : TimerListShape s (R₁ ++ (p ++ tl :: q) :: R₂)) (hin : s.timerList tl = .list)
    (hflat : runs.flatten = (R₁.flatten ++ p) ++ (q ++ R₂.flatten)) (hsorted : SortedRuns s.timeOut runs)
    (hld : ∀ r ∈ runs, (s.unlinkLd tl).Joined r) : TimerListShape (s.removeTimerUnsafe tl) runs := by
  obtain ⟨hold, hnot⟩ := h.rest
  rw [← hflat] at hnot
  have hsub : runs.flatten.Sublist (R₁ ++ (p ++ tl :: q) :: R₂).flatten := by
    rw [hflat, hold]
    exact (sublist_cons_self ..).append_left _
  have htl : tl ∈ (R₁ ++ (p ++ tl :: q) :: R₂).flatten := by simp
  have hfresh : tl ∉ .first :: runs.flatten ++ [.last] := by
    simp only [cons_append, mem_cons, mem_append, mem_nil_iff, or_false, not_or]
    exact ⟨(h.ne_sentinel htl).1, hnot, (h.ne_sentinel htl).2.1⟩
  have hs : (Tl.first :: runs.flatten).Nodup := h.nodup_sources.sublist (hsub.cons_cons _)
  have ht : (runs.flatten ++ [Tl.last]).Nodup := h.nodup_targets.sublist (hsub.append_right _)
  rw [hflat] at hs ht
  rw [append_assoc] at ht
  have hne : s.prevTl tl ≠ tl := by
    rw [h.prev_of_mem]
    exact (ne_getLastD (hflat ▸ hfresh)).symm
  obtain ⟨e1, e2, e3, e4⟩ := removeTimerUnsafe_fields hin hne
  have hl' : s.Linked (.first :: (R₁.flatten ++ p) ++ tl :: ((q ++ R₂.flatten) ++ [.last])) := by
    simpa using h.links
  have hout := hl'.remove_at hs ht
  rw [← h.prev_of_mem, ← h.next_of_mem, ← append_assoc, cons_append, ← hflat] at hout
  refine ⟨?_, h.nodup.sublist hsub, fun x hx => h.isLink x (hsub.subset hx), by rw [e4]; exact hsorted,
    fun r hr => ?_, ?_, by rw [e4]; exact h.firstZero⟩
  · rw [e1, e2]
    refine hout.congr (fun x hx => ?_) (fun x hx => ?_)
    · exact update_of_ne (ne_of_mem_of_not_mem (mem_of_mem_dropLast hx) hfresh) _ _
    · exact update_of_ne (ne_of_mem_of_not_mem (mem_of_mem_tail hx) hfresh) _ _
  · rw [e3]
    exact (hld r hr).congr fun x hx =>
      update_of_ne (ne_of_mem_of_not_mem (mem_flatten_of_mem hr hx) hnot) _ _
  · intro x hx
    rw [e4]
    exact h.pos x (hsub.subset hx)

end Removal

/-- **`remove_timer_unsafe`** takes exactly the timer out of the list. -/
theorem removeTimerUnsafe_ok (h : TimerListOk s runs) (n : Nat) :
    ∃ runs', TimerListOk (s.removeTimerUnsafe (.link n)) runs' ∧ runs'.flatten = runs.flatten.erase (.link n) := by
  by_cases hin : s.timerList (.link n) = .list
  · obtain ⟨r, hr, hnr⟩ := mem_flatten.mp ((h.linked n).mp hin)
    obtain ⟨R₁, R₂, rfl⟩ := append_of_mem hr
    obtain ⟨p, q, rfl⟩ := append_of_mem hnr
    have hrest : (R₁ ++ (p ++ .link n :: q) :: R₂).flatten.erase (.link n) =
        (R₁.flatten ++ p) ++ (q ++ R₂.flatten) := by
      obtain ⟨hold, hnot⟩ := h.rest
      rw [hold, erase_append_right _ (fun hc => hnot (mem_append_left _ hc)), erase_cons_head]
    obtain ⟨hother, hrun⟩ := h.unlinkLd_runs
    obtain ⟨runs', hflat, hshape⟩ : ∃ runs', runs'.flatten = (R₁.flatten ++ p) ++ (q ++ R₂.flatten) ∧
        TimerListShape (s.removeTimerUnsafe (.link n)) runs' := by
      by_cases hpq : p ++ q = []
      · obtain ⟨rfl, rfl⟩ := append_eq_nil_iff.mp hpq
        exact ⟨R₁ ++ R₂, by simp, h.remove_of hin (by simp) h.sorted.remove_run hother⟩
      · refine ⟨R₁ ++ (p ++ q) :: R₂, by simp, h.remove_of hin (by simp) (h.sorted.shrink ?_ hpq) fun r hr => ?_⟩
        · intro y hy
          simp only [mem_append, mem_cons] at hy ⊢
          tauto
        · rcases mem_middle.mp hr with rfl | hr
          · exact hrun hpq
          · exact hother r hr
    refine ⟨runs', ⟨hshape, fun m => ?_⟩, by rw [hflat, hrest]⟩
    have hlist : (s.removeTimerUnsafe (.link n)).timerList = update s.timerList (.link n) .null := by
      unfold removeTimerUnsafe
      rw [if_neg (by simpa using hin), unlinkLd_eq]
    rw [hlist, hflat, ← hrest, h.nodup.mem_erase_iff, ← h.linked m]
    by_cases hm : m = n
    · subst hm
      simp
    · simp [hm]
  · refine ⟨runs, ?_, (erase_of_not_mem fun hc => hin ((h.linked n).mpr hc)).symm⟩
    unfold removeTimerUnsafe
    rw [if_pos hin]
    exact h

/-! ## Detaching what is due -/

theorem headD_flatten_cons (hr : r ≠ []) (d : Tl) : (r :: R).flatten.headD d = r.head hr := by
  rw [flatten_cons, headD_eq_head?, head?_append_of_ne_nil _ hr, head?_eq_some_head hr,
    getD_some]

/-- **The forward scan** passes the runs up to `t` one by one and stops at the first timer above `t`. -/
theorem splitScan_eq : ∀ {R₁ : List (List Tl)} {pre : List Tl} (fuel : Nat),
    s.Linked (pre ++ ((R₁ ++ R₂).flatten ++ [.last])) → (∀ x ∈ (R₁ ++ R₂).flatten, x ≠ .last) →
    (∀ r ∈ R₁, s.Joined r) → (∀ x ∈ R₁.flatten, s.timeOut x ≤ t) → (∀ x ∈ R₂.flatten, t < s.timeOut x) →
    s.splitScan t fuel ((R₁ ++ R₂).flatten.headD .last) =
      if R₁.length < fuel then some (R₂.flatten.headD .last) else none
  | _, _, 0, _, _, _, _, _ => rfl
  | [], _, k + 1, _, _, _, _, hlt => by
    rw [nil_append, if_pos (show [].length < k + 1 from succ_pos k)]
    unfold splitScan
    rw [if_neg]
    rintro ⟨hne, hle⟩
    cases hR : R₂.flatten with
    | nil => simp [hR] at hne
    | cons x xs =>
      rw [hR, headD_cons] at hle
      exact absurd (hlt x (by simp [hR])) (not_lt.mpr hle)
  | r :: R, pre, k + 1, hl, hlast, hld, hle, hlt => by
    have hrl : s.Joined r := hld r (by simp)
    have hhead := head_mem hrl.ne
    have hl' : s.Linked ((pre ++ r) ++ ((R ++ R₂).flatten ++ [.last])) := by simpa using hl
    have hnext : s.nextTl (r.getLast hrl.ne) = (R ++ R₂).flatten.headD .last := by
      rw [← dropLast_append_getLast hrl.ne] at hl'
      have hl'' : s.Linked
          ((pre ++ r.dropLast) ++ r.getLast hrl.ne :: ((R ++ R₂).flatten ++ [.last])) := by simpa using hl'
      exact hl''.next_eq_headD
    rw [cons_append, headD_flatten_cons hrl.ne]
    unfold splitScan
    rw [if_pos ⟨hlast _ (mem_flatten_of_mem (by simp) hhead), hle _ (mem_flatten_of_mem (by simp) hhead)⟩,
      hrl.head, hnext, splitScan_eq _ hl' ?_ ?_ ?_ hlt]
    · simp only [length_cons, add_lt_add_iff_right]
    · exact fun x hx => hlast x (by rw [cons_append, flatten_cons, mem_append]; exact .inr hx)
    · exact fun r' hr' => hld r' (by simp [hr'])
    · exact fun x hx => hle x (by rw [flatten_cons, mem_append]; exact .inr hx)

theorem filter_split (h1 : ∀ x ∈ R₁.flatten, timeOut x ≤ t) (h2 : ∀ x ∈ R₂.flatten, t < timeOut x) :
    (R₁ ++ R₂).flatten.filter (fun x => timeOut x ≤ t) = R₁.flatten ∧
      (R₁ ++ R₂).flatten.filter (fun x => t < timeOut x) = R₂.flatten := by
  rw [flatten_append, filter_append, filter_append]
  constructor
  · rw [filter_eq_self.mpr (by simpa using h1), filter_eq_nil_iff.mpr (fun x hx => by simpa using h2 x hx), append_nil]
  · rw [filter_eq_nil_iff.mpr (fun x hx => by simpa using h1 x hx),
      filter_eq_self.mpr (fun x hx => by simpa using h2 x hx), nil_append]

/-- The marking loop marks exactly the timers of the detached chain. -/
theorem markDetached_eq : ∀ {xs : List Tl} {s : Timers} {a : Tl} (fuel : Nat), Walk s.nextTl a xs .null →
    (∀ x ∈ xs, x ≠ .null) → markDetached fuel s a =
      if xs.length < fuel then some { s with timerList := fun x => if x ∈ xs then .detached else s.timerList x }
        else none
  | _, _, _, 0, _, _ => rfl
  | [], s, a, k + 1, hp, _ => by
    have ha : a = .null := hp
    simp [markDetached, ha]
  | x :: xs, s, a, k + 1, hp, hnull => by
    obtain ⟨rfl, hp⟩ := hp
    have ih := @markDetached_eq xs { s with timerList := update s.timerList a .detached } (s.nextTl a) k hp
      (forall_mem_cons.mp hnull).2
    unfold markDetached
    rw [if_neg (hnull a (by simp)), ih]
    simp only [length_cons, add_lt_add_iff_right]
    congr 3
    funext y
    by_cases hy : y = a
    · subst hy; simp
    · simp [hy]

/-- The two lists of a cut: what is detached is a chain that ends in null, what stays is linked. -/
theorem TimerListShape.cut (h : TimerListShape s (R₁ ++ R₂)) (hx : R₁.flatten = x :: xs) :
    Walk (s.cutBefore (R₂.flatten.headD .last)).nextTl x R₁.flatten .null ∧
      TimerListShape (s.cutBefore (R₂.flatten.headD .last)) R₂ := by
  have hl := h.links
  have hs := h.nodup_sources
  have ht := h.nodup_targets
  rw [flatten_append, hx] at hl hs ht
  rw [append_assoc] at ht
  have hl' : s.Linked (.first :: x :: xs ++ (R₂.flatten ++ [.last])) := by simpa using hl
  obtain ⟨hprev, hwalk, hlinks⟩ := hl'.cut .null hs ht
  unfold cutBefore
  rw [hprev, hx]
  refine ⟨hwalk, hlinks, ?_, fun y hy => h.isLink y ?_, (sortedRuns_append.mp h.sorted).2.1,
    fun r hr => h.ld r (by simp [hr]), fun y hy => h.pos y ?_, h.firstZero⟩
  · exact (nodup_append.mp (nodup_cons.mp hs).2).2.1
  · rw [flatten_append, mem_append]; exact .inr hy
  · rw [flatten_append, mem_append]; exact .inr hy

/-- **`check_and_split_time_list`** detaches exactly the timers up to `time`, in order, and leaves the others linked. -/
theorem checkAndSplitTimeList_ok (h : TimerListOk s runs) (time : Nat) :
    ∃ s' ret runs', (∃ k ≤ runs.flatten.length + 1, ∀ fuel, s.checkAndSplitTimeList fuel time =
        if k ≤ fuel then some (s', ret) else none) ∧ TimerListOk s' runs' ∧
      Walk s'.nextTl ret (runs.flatten.filter fun x => s.timeOut x ≤ time) .null ∧
      runs'.flatten = runs.flatten.filter (fun x => time < s.timeOut x) ∧
      ∀ x ∈ runs.flatten, s.timeOut x ≤ time → s'.timerList x = .detached := by
  obtain ⟨R₁, R₂, rfl, h1, h2⟩ := h.sorted.exists_split time
  obtain ⟨hdue, hkept⟩ := filter_split h1 h2
  have hl : s.Linked ([] ++ .first :: ((R₁ ++ R₂).flatten ++ [.last])) := h.links
  have hnext : s.nextTl .first = (R₁ ++ R₂).flatten.headD .last := hl.next_eq_headD
  rw [hdue, hkept]
  unfold checkAndSplitTimeList
  rw [hnext]
  cases hR : R₁.flatten with
  | nil =>
    -- nothing is due: the quick check answers
    have hquick : (R₁ ++ R₂).flatten.headD .last = .last ∨ s.timeOut ((R₁ ++ R₂).flatten.headD .last) > time := by
      rw [flatten_append, hR, nil_append]
      cases hR₂ : R₂.flatten with
      | nil => exact .inl rfl
      | cons y ys => exact .inr (h2 y (by simp [hR₂]))
    refine ⟨s, .null, R₂, ⟨0, zero_le _, fun fuel => by rw [if_pos hquick, if_pos (zero_le _)]⟩, ?_, rfl, rfl,
      fun x hx hle => ?_⟩
    · have hnil : R₁ = [] := by
        cases hR₁ : R₁ with
        | nil => rfl
        | cons r R =>
          rw [hR₁, flatten_cons, append_eq_nil_iff] at hR
          exact absurd hR.1 (h.sorted.ne r (by simp [hR₁]))
      rwa [hnil, nil_append] at h
    · rw [flatten_append, hR, nil_append] at hx
      exact absurd (h2 x hx) (not_lt.mpr hle)
  | cons x xs =>
    have hx : x ∈ R₁.flatten := by simp [hR]
    have hmem1 : ∀ y ∈ R₁.flatten, y ∈ (R₁ ++ R₂).flatten := fun y hy => by
      rw [flatten_append, mem_append]; exact .inl hy
    have hhead : (R₁ ++ R₂).flatten.headD .last = x := by rw [flatten_append, hR]; rfl
    have hquick : ¬((R₁ ++ R₂).flatten.headD .last = .last ∨ s.timeOut ((R₁ ++ R₂).flatten.headD .last) > time) := by
      rw [hhead, not_or, not_lt]
      exact ⟨(h.ne_sentinel (hmem1 x hx)).2.1, h1 x hx⟩
    have hlen : R₁.length ≤ R₁.flatten.length := by
      rw [length_flatten]
      refine length_le_sum_of_one_le (R₁.map length) ?_ |>.trans' (by simp)
      intro k hk
      obtain ⟨r, hr, rfl⟩ := mem_map.mp hk
      exact length_pos_of_ne_nil (h.sorted.ne r (by simp [hr]))
    have hl' : s.Linked ([.first] ++ ((R₁ ++ R₂).flatten ++ [.last])) := h.links
    have hscan := fun fuel => splitScan_eq fuel hl' (fun y hy => (h.ne_sentinel hy).2.1)
      (fun r hr => h.ld r (by simp [hr])) h1 h2
    have hprev : s.prevTl (R₂.flatten.headD .last) ≠ .first := by
      obtain ⟨post, hpost⟩ := exists_cons_headD R₂.flatten Tl.last
      have hl : s.Linked (.first :: R₁.flatten ++ R₂.flatten.headD .last :: post) := by
        rw [← hpost]; simpa using h.links
      rw [hl.prev_eq_getLastD, hR, getLastD_cons]
      exact (h.ne_sentinel (hmem1 _ (hR ▸ getLastD_mem_cons ..))).1
    obtain ⟨hpath, hshape⟩ := h.cut hR
    have hmark := fun fuel => markDetached_eq fuel hpath fun y hy => (h.ne_sentinel (hmem1 y hy)).2.2
    refine ⟨{ s.cutBefore (R₂.flatten.headD .last) with
      timerList := fun y => if y ∈ R₁.flatten then .detached else s.timerList y }, x, R₂,
      ⟨R₁.flatten.length + 1, ?_, fun fuel => ?_⟩, ⟨?_, fun m => ?_⟩, hR ▸ hpath, rfl, fun y hy hle => ?_⟩
    · rw [flatten_append, length_append]
      omega
    · rw [if_neg hquick, hscan]
      by_cases hk : R₁.flatten.length < fuel
      · rw [if_pos (hlen.trans_lt hk), if_pos hk.nat_succ_le]
        dsimp only
        rw [if_neg hprev, hhead, hmark, if_pos hk]
        rfl
      · rw [if_neg (show ¬R₁.flatten.length + 1 ≤ fuel from hk)]
        split
        · rfl
        · rename_i tl htl
          cases (ite_none_right_eq_some.mp htl).2
          rw [if_neg hprev, hhead]
          dsimp only
          rw [hmark, if_neg hk]
    · exact ⟨hshape.links, hshape.nodup, hshape.isLink, hshape.sorted, hshape.ld, hshape.pos, hshape.firstZero⟩
    · have hlink := h.linked m
      have hdisj := (nodup_append.mp (flatten_append ▸ h.nodup)).2.2
      rw [flatten_append, mem_append] at hlink
      dsimp only
      by_cases hm : Tl.link m ∈ R₁.flatten
      · rw [if_pos hm]
        exact ⟨fun hc => by simp at hc, fun hc => absurd rfl (hdisj _ hm _ hc)⟩
      · rw [if_neg hm]
        exact ⟨fun hc => (hlink.mp hc).resolve_left hm, fun hc => hlink.mpr (.inr hc)⟩
    · rw [flatten_append, mem_append] at hy
      exact if_pos (hy.resolve_right fun hc => absurd (h2 y hc) (not_lt.mpr hle))

/-! ## Every run of operations -/

theorem resetTimerList_ok (hfree : ∀ n, s.timerList (.link n) ≠ .list) : TimerListOk s.resetTimerList [] where
  links := links_cons_cons.mpr ⟨⟨by simp [resetTimerList], by simp [resetTimerList]⟩, Links.singleton _⟩
  nodup := by simp
  isLink := by simp
  sorted := SortedRuns.nil
  ld := by simp
  pos := by simp
  firstZero := by simp [resetTimerList]
  linked n := by simpa [resetTimerList] using hfree n

/-- `s'` differs from `s` at most in the fields of one timer. -/
structure OnlyAt (x : Tl) (s s' : Timers) : Prop where
  nextTl : ∀ y, y ≠ x → s'.nextTl y = s.nextTl y
  prevTl : ∀ y, y ≠ x → s'.prevTl y = s.prevTl y
  ldTl : ∀ y, y ≠ x → s'.ldTl y = s.ldTl y
  timeOut : ∀ y, y ≠ x → s'.timeOut y = s.timeOut y
  timerList : ∀ y, y ≠ x → s'.timerList y = s.timerList y

/-- The states a list goes through: timers that are on no list are inserted with a non-zero `time_out`, timers are
removed, the due ones are detached, and whoever owns a timer that is not on the list writes to it. -/
inductive TimerReach : Timers → Prop where
  | init {s : Timers} (hfree : ∀ n, s.timerList (.link n) ≠ .list) : TimerReach s.resetTimerList
  | insert {s s' : Timers} (n t fuel : Nat) (h : TimerReach s) (hfree : s.timerList (.link n) ≠ .list) (ht : t ≠ 0)
      (he : s.insertTimerUnsafe fuel (.link n) t = some s') : TimerReach s'
  | remove {s : Timers} (n : Nat) (h : TimerReach s) : TimerReach (s.removeTimerUnsafe (.link n))
  | split {s s' : Timers} (time fuel : Nat) (ret : Tl) (h : TimerReach s)
      (he : s.checkAndSplitTimeList fuel time = some (s', ret)) : TimerReach s'
  | touch {s s' : Timers} (n : Nat) (h : TimerReach s) (hfree : s.timerList (.link n) ≠ .list)
      (hfree' : s'.timerList (.link n) ≠ .list) (hs : OnlyAt (.link n) s s') : TimerReach s'

/-- Writing to a timer that is not on the list keeps the list. -/
theorem touch_ok (h : TimerListOk s runs) (hfree : s.timerList (.link n) ≠ .list)
    (hfree' : s'.timerList (.link n) ≠ .list) (hs : OnlyAt (.link n) s s') : TimerListOk s' runs := by
  have hout : Tl.link n ∉ runs.flatten := fun hc => hfree ((h.linked n).mpr hc)
  have hne : ∀ x ∈ runs.flatten, x ≠ .link n := fun x hx => ne_of_mem_of_not_mem hx hout
  have hne' : ∀ x ∈ .first :: runs.flatten ++ [.last], x ≠ .link n := by
    intro x hx
    simp only [cons_append, mem_cons, mem_append, mem_nil_iff, or_false] at hx
    rcases hx with rfl | hx | rfl
    · simp
    · exact hne x hx
    · simp
  refine ⟨⟨?_, h.nodup, h.isLink, h.sorted.congr fun x hx => hs.timeOut x (hne x hx), fun r hr => ?_,
    fun x hx => ?_, ?_⟩, fun m => ?_⟩
  · exact h.links.congr (fun x hx => hs.nextTl x (hne' x (mem_of_mem_dropLast hx)))
      (fun x hx => hs.prevTl x (hne' x (mem_of_mem_tail hx)))
  · exact (h.ld r hr).congr fun x hx => hs.ldTl x (hne x (mem_flatten_of_mem hr hx))
  · rw [hs.timeOut x (hne x hx)]
    exact h.pos x hx
  · rw [hs.timeOut .first (by simp)]
    exact h.firstZero
  · by_cases hm : m = n
    · subst hm
      exact ⟨fun hc => absurd hc hfree', fun hc => absurd hc hout⟩
    · rw [hs.timerList _ (by simpa using hm)]
      exact h.linked m

/-- **The list is well formed in every state it goes through.** -/
theorem TimerReach.ok (h : TimerReach s) : ∃ runs, TimerListOk s runs := by
  induction h with
  | init hfree => exact ⟨[], resetTimerList_ok hfree⟩
  | insert n t fuel _ hfree ht he ih =>
    obtain ⟨runs, hok⟩ := ih
    obtain ⟨s₁, runs', ⟨k, -, hins⟩, hok', -⟩ := insertTimerUnsafe_ok hok hfree ht
    cases (ite_none_right_eq_some.mp ((hins fuel).symm.trans he)).2
    exact ⟨runs', hok'⟩
  | remove n _ ih =>
    obtain ⟨runs, hok⟩ := ih
    obtain ⟨runs', hok', -⟩ := removeTimerUnsafe_ok hok n
    exact ⟨runs', hok'⟩
  | split time fuel ret _ he ih =>
    obtain ⟨runs, hok⟩ := ih
    obtain ⟨s₁, ret', runs', ⟨k, -, hsplit⟩, hok', -⟩ := checkAndSplitTimeList_ok hok time
    cases (ite_none_right_eq_some.mp ((hsplit fuel).symm.trans he)).2
    exact ⟨runs', hok'⟩
  | touch n _ hfree hfree' hs ih =>
    obtain ⟨runs, hok⟩ := ih
    exact ⟨runs, touch_ok hok hfree hfree' hs⟩

/-- **The timer list, over every run.** In every state reached the list is linked both ways between its sentinels and
sorted, and `ld_tl` joins the ends of its maximal runs. An insertion answers and goes where a plain scan from the back
would put the timer, a removal takes out exactly the timer, and a split detaches exactly the due timers, in order. -/
theorem timerList_over_runs (h : TimerReach s) :
    ∃ runs, TimerListOk s runs ∧ (runs.flatten.Pairwise fun x y => s.timeOut x ≤ s.timeOut y) ∧
      (∀ n t fuel, s.timerList (.link n) ≠ .list → t ≠ 0 → runs.length < fuel →
        ∃ s' runs', s.insertTimerUnsafe fuel (.link n) t = some s' ∧ TimerListOk s' runs' ∧
          runs'.flatten = plainInsert s.timeOut t (.link n) runs.flatten ∧
          runs'.flatten = (runs.flatten.filter fun x => s.timeOut x ≤ t) ++
            .link n :: runs.flatten.filter fun x => t < s.timeOut x) ∧
      (∀ n, ∃ runs', TimerListOk (s.removeTimerUnsafe (.link n)) runs' ∧
        runs'.flatten = runs.flatten.erase (.link n)) ∧
      ∀ time fuel, runs.flatten.length < fuel →
        ∃ s' ret runs', s.checkAndSplitTimeList fuel time = some (s', ret) ∧ TimerListOk s' runs' ∧
          Walk s'.nextTl ret (runs.flatten.filter fun x => s.timeOut x ≤ time) .null ∧
          runs'.flatten = runs.flatten.filter (fun x => time < s.timeOut x) ∧
          ∀ x ∈ runs.flatten, s.timeOut x ≤ time → s'.timerList x = .detached := by
  obtain ⟨runs, hok⟩ := h.ok
  refine ⟨runs, hok, hok.sorted.sorted_flatten, fun n t fuel hfree ht hf => ?_, removeTimerUnsafe_ok hok,
    fun time fuel hf => ?_⟩
  · obtain ⟨s', runs', ⟨k, hk, hins⟩, hok', hflat⟩ := insertTimerUnsafe_ok hok hfree ht
    refine ⟨s', runs', by rw [hins, if_pos (hk.trans_lt hf)], hok', hflat, ?_⟩
    obtain ⟨R₁, R₂, rfl, h1, h2⟩ := hok.sorted.exists_split t
    obtain ⟨hdue, hkept⟩ := filter_split h1 h2
    rw [hdue, hkept, hflat, flatten_append, plainInsert_eq h1 h2]
  · obtain ⟨s', ret, runs', ⟨k, hk, hsplit⟩, hok', hrest⟩ := checkAndSplitTimeList_ok hok time
    exact ⟨s', ret, runs', by rw [hsplit, if_pos (hk.trans hf)], hok', hrest⟩

def zeroTimers : Timers where
  nextTl _ := .null
  prevTl _ := .null
  ldTl _ := .null
  timeOut _ := 0
  timerList _ := .null
  deleted _ := false

def inserted (s : Timers) (n t : Nat) : Timers := (s.insertTimerUnsafe 9 (.link n) t).getD s

theorem TimerReach.inserted {t : Nat} (h : TimerReach s) (hfree : s.timerList (.link n) ≠ .list) (ht : t ≠ 0)
    (hsome : (s.insertTimerUnsafe 9 (.link n) t).isSome) : TimerReach (Tm.inserted s n t) := by
  obtain ⟨s', hs'⟩ := isSome_iff_exists.mp hsome
  refine .insert n t 9 h hfree ht ?_
  rw [Tm.inserted, hs', getD_some]

/-- Four timers, two of them with the same `time_out`. -/
def fourTimers : Timers := inserted (inserted (inserted (inserted zeroTimers.resetTimerList 0 5) 1 7) 2 5) 3 9

/-- The second timer is removed, and the two that are due are split off, in the order in which they came. -/
theorem fourTimers_over_runs : TimerReach (fourTimers.removeTimerUnsafe (.link 1)) ∧ ∃ s' ret runs',
    (fourTimers.removeTimerUnsafe (.link 1)).checkAndSplitTimeList 9 6 = some (s', ret) ∧ TimerListOk s' runs' ∧
      Walk s'.nextTl ret [.link 0, .link 2] .null ∧ runs'.flatten = [.link 3] := by
  have hinit : TimerReach zeroTimers.resetTimerList := .init fun n => by simp [zeroTimers]
  have hreach : TimerReach (fourTimers.removeTimerUnsafe (.link 1)) := by
    refine .remove 1 (.inserted (.inserted (.inserted (.inserted hinit ?_ ?_ ?_) ?_ ?_ ?_) ?_ ?_ ?_) ?_ ?_ ?_)
    all_goals decide +kernel
  obtain ⟨runs, hok, -, -, -, hsplit⟩ := timerList_over_runs hreach
  have hflat : runs.flatten = [.link 0, .link 2, .link 3] := by
    have hlink : ∀ x ∈ runs.flatten, x ≠ .last := fun x hx hc => by
      obtain ⟨n, hn⟩ := hok.isLink x hx
      rw [hc] at hn
      cases hn
    have hwalk : Walk (fourTimers.removeTimerUnsafe (.link 1)).nextTl
        ((fourTimers.removeTimerUnsafe (.link 1)).nextTl .first) [.link 0, .link 2, .link 3] .last := by
      refine ⟨?_, ?_, ?_, show _ = _ from ?_⟩
      all_goals decide +kernel
    exact hok.links.walk.2.unique hwalk (fun hc => hlink _ hc rfl) (by decide)
  rw [hflat] at hsplit
  obtain ⟨s', ret, runs', he, hok', hdue, hrest, -⟩ := hsplit 6 9 (by decide)
  exact ⟨hreach, s', ret, runs', he, hok', by convert hdue using 1; decide +kernel, hrest.trans (by decide +kernel)⟩

end OpenSer.Tm
