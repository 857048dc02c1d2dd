import OpenSer.Mem.FMallocRun

/-!
# The counters of the fast allocator

`used`, `real_used` and `max_real_used` against the fragments they count. `Sums` is what the first two should be, and
each operation but one keeps it: a shrinking `fm_realloc` takes the overhead of the split into account twice. A joining
`fm_realloc` raises `real_used` without looking at `max_real_used`.

* `not_sums_shrink`: the operation that miscounts.
* `accounted_step`: one call.
* `accounted_iff`: the runs along which all counters are right.
-/

namespace OpenSer.Mem.FM

open List Lib

variable {s s' : Heap} {qm qm' : Block} {fs l r : List Frag} {f n : Frag} {bk : Nat → List Nat} {size : Nat}

theorem HeapOk.room (h : HeapOk s fs bk) : Room fragOverhead s.qm.size fs := by
  have htotal := h.tiled.total
  have hext := h.extent
  have hblock : sizeofFmBlock = 33632 := by decide
  refine ⟨?_, h.fits⟩
  simp only [fragOverhead] at htotal hext ⊢
  omega

theorem countedQm_max (qm : Block) (fsize size : Nat) (fh : Nat → FragLnk) :
    (countedQm qm fsize size fh).maxRealUsed =
      if qm.maxRealUsed < (countedQm qm fsize size fh).realUsed then (countedQm qm fsize size fh).realUsed
      else qm.maxRealUsed := rfl

/-- **A shrinking `fm_realloc` miscounts**: `fm_split_frag` has already added the overhead of the new fragment, and
`real_used` ends up `FRAG_OVERHEAD` too large whether or not the fragment was split. -/
theorem not_sums_shrink {used used' real total : Nat} (h : Sums used real total (l ++ f :: r))
    (hused : f.free = false) (hle : size ≤ f.size) :
    ¬Sums used' (wsub (if Splits f.size size then wadd real fragOverhead else real)
        (wsub (wsub f.size (keptSize f.size size)) fragOverhead)) total (l ++ (splitFrag f size ++ r)) := by
  have hf := freeSize_splitFrag fragOverhead fMallocOptimize size hused
  simp only [Sums, usedSize_append, freeSize_append, usedSize_cons, freeSize_cons, hused, hf,
    Bool.false_eq_true, if_false] at h ⊢
  rintro ⟨-, hreal⟩
  unfold keptSize Mem.keptSize at hreal
  by_cases hsp : Splits f.size size
  · simp only [if_pos hsp] at hreal
    simp only [fragOverhead] at *
    unfold wadd wsub at hreal
    omega
  · simp only [if_neg hsp] at hreal
    simp only [fragOverhead] at *
    unfold wsub at hreal
    omega

/-! ## The high-water mark -/

theorem isGreatest_append_iff {seen vs : List Nat} {m : Nat} (h : IsGreatest {v | v ∈ seen} m) :
    IsGreatest {v | v ∈ seen ++ vs} m ↔ ∀ v ∈ vs, v ≤ m := by
  constructor
  · intro hg v hv
    exact hg.2 (mem_append_right seen hv)
  · intro hle
    exact ⟨mem_append_left vs h.1, forall_mem_append.mpr ⟨h.2, hle⟩⟩

/-- `if (max < v) max = v`. -/
theorem isGreatest_bump {seen : List Nat} {m : Nat} (h : IsGreatest {v | v ∈ seen} m) (v : Nat) :
    IsGreatest {u | u ∈ seen ++ [v]} (if m < v then v else m) := by
  split
  · refine ⟨by simp, fun u hu => ?_⟩
    rcases mem_append.mp hu with hu | hu
    · have := h.2 hu
      omega
    · exact le_of_eq (mem_singleton.mp hu)
  · exact (isGreatest_append_iff h).mpr fun u hu => by simp only [mem_singleton] at hu; omega

/-! ## Watching the counters over a run -/

/-- A client, and the values `real_used` has had on the return of a call. -/
structure Watched where
  client : Client Heap
  seen : List Nat

/-- A call, watched. The `fm_malloc` inside an `fm_realloc` counts as a call. -/
def Watched.Step (w : Watched) (call : Call) (w' : Watched) : Prop :=
  Mem.Step allocator w.client call w'.client ∧
    w'.seen = w.seen ++ ((w.client.heap.nested call).map (·.qm.realUsed) ++ [w'.client.heap.qm.realUsed])

/-- **The counters are right**: `used` is the size of the fragments in use, `real_used` is the size of the block without
its free fragments, and `max_real_used` is the largest `real_used` so far. -/
def Accounted (w : Watched) : Prop :=
  let s := w.client.heap
  let fs := s.frags w.client.live
  s.qm.used = usedSize fs ∧ s.qm.realUsed + freeSize fs = s.qm.size ∧ s.qm.realUsed ≤ s.qm.size ∧
    IsGreatest {v | v ∈ w.seen} s.qm.maxRealUsed

/-- The call does not shrink a fragment, and does not raise `real_used` over its mark by joining fragments. -/
def Counted (s : Heap) (call : Call) : Prop :=
  ¬s.Shrinks call ∧ (s.Joins call → s.qm.realUsed + s.growth call ≤ s.qm.maxRealUsed)

/-- The invariant behind the counters. -/
def WatchedOk (w : Watched) : Prop := ClientOk w.client ∧ w.client.heap.qm.realUsed ∈ w.seen

/-- Every call keeps the invariant. -/
theorem WatchedOk.step {w w' : Watched} {call : Call} (h : WatchedOk w) (hs : w.Step call w') : WatchedOk w' := by
  refine ⟨h.1.step hs.1, ?_⟩
  rw [hs.2]
  simp

theorem accounted_of {w : Watched} {fs : List Frag} (hfs : w.client.heap.frags w.client.live = fs) :
    Accounted w ↔ Sums w.client.heap.qm.used w.client.heap.qm.realUsed w.client.heap.qm.size fs ∧
      IsGreatest {v | v ∈ w.seen} w.client.heap.qm.maxRealUsed := by
  unfold Accounted Sums
  dsimp only
  rw [hfs]
  constructor
  · rintro ⟨h1, h2, -, h4⟩
    exact ⟨⟨h1, h2⟩, h4⟩
  · rintro ⟨⟨h1, h2⟩, h4⟩
    exact ⟨h1, h2, by omega, h4⟩

/-- **One call** keeps the counters right iff it counts. -/
theorem accounted_step {w w' : Watched} {call : Call} (h : WatchedOk w) (hacc : Accounted w) (hs : w.Step call w') :
    Accounted w' ↔ Counted w.client.heap call := by
  obtain ⟨⟨bk, hok, hl⟩, hseen⟩ := h
  obtain ⟨hstep, hseen'⟩ := hs
  obtain ⟨c', he, fs', bk', hok', hl', heff⟩ := exec_ok hok hl hstep.1
  rw [hstep.2] at he
  cases he
  rw [accounted_of (hok'.frags_eq hl'), hseen']
  obtain ⟨hsums, hmax⟩ := (accounted_of rfl).mp hacc
  have hroom := hok.room
  generalize w.client.heap.frags w.client.live = fs at heff hsums hroom
  unfold Counted
  cases heff with
  | idle fs hs hj hn hqm =>
    rw [hqm]
    refine iff_of_true ⟨hsums, (isGreatest_append_iff hmax).mpr fun v hv => ?_⟩ ⟨hs, fun hc => absurd hc hj⟩
    have hv' : v = w.client.heap.qm.realUsed := by
      rcases mem_append.mp hv with hv | hv
      · obtain ⟨s₁, h1, rfl⟩ := mem_map.mp hv
        rw [hn s₁ h1]
      · exact mem_singleton.mp hv
    rw [hv']
    exact hmax.2 hseen
  | take l r f size hs hj hn hfree hle hqm =>
    rw [hn, hqm, countedQm_max]
    refine iff_of_true ⟨?_, isGreatest_bump hmax _⟩ ⟨hs, fun hc => absurd hc hj⟩
    exact (hsums.take hroom hfree hle fMallocOptimize).1
  | release l r f hs hj hn hused hqm =>
    obtain ⟨hsums', hdown⟩ := hsums.release hroom hused
    rw [hn, hqm]
    refine iff_of_true ⟨hsums', (isGreatest_append_iff hmax).mpr ?_⟩ ⟨hs, fun hc => absurd hc hj⟩
    have hreal := hmax.2 hseen
    simpa using hdown.trans hreal
  | shrink l r f size hs hused hlt hqm =>
    rw [hqm]
    exact iff_of_false (fun hc => not_sums_shrink hsums hused hlt.le hc.1) fun hc => hc.1 hs
  | join l r f n size hs hj hn hused hfree hlt hle hgrow hqm =>
    obtain ⟨hsums', hreal⟩ := hsums.join hroom hused hfree hlt hle fMallocOptimize
    rw [hn, hqm, isGreatest_append_iff hmax, hgrow, ← hreal]
    simp [hsums', hs, hj]
  | move l r l' r' f g size s₁ hs hj hn hused hfree hle hsame hreal hqm =>
    obtain ⟨hsums₁, hroom₁⟩ := hsums.take hroom hfree hle fMallocOptimize
    rw [hsame] at hsums₁ hroom₁
    obtain ⟨hsums', hdown⟩ := hsums₁.release hroom₁ hused
    have hbump := isGreatest_bump hmax (takenReal fragOverhead fMallocOptimize w.client.heap.qm.realUsed g.size size)
    rw [hn, map_singleton, hreal, hqm, ← append_assoc]
    refine iff_of_true ⟨hsums', (isGreatest_append_iff hbump).mpr fun v hv => ?_⟩ ⟨hs, fun hc => absurd hc hj⟩
    have hv' : v ≤ takenReal fragOverhead fMallocOptimize w.client.heap.qm.realUsed g.size size :=
      (mem_singleton.mp hv).trans_le hdown
    split <;> omega

/-! ## Runs -/

theorem accounted_init {mem : Nat → Nat} {address : Nat} (hsize : size < 2 ^ 64)
    (hi : Heap.fmMallocInit mem address size = some s) : Accounted ⟨⟨s, []⟩, [s.qm.realUsed]⟩ := by
  obtain ⟨f, bk, hfree, hok, hu, hr, hm⟩ := fmMallocInit_ok hsize hi
  have hl : ([] : List Nat).Perm (usedPtrs fragOverhead [f]) := by rw [usedPtrs_cons_free hfree]; exact .refl []
  rw [accounted_of (hok.frags_eq hl)]
  have hused : usedSize [f] = 0 := by simp [usedSize, hfree]
  refine ⟨⟨hu.trans hused.symm, ?_⟩, ?_⟩
  · have htotal := hok.tiled.total
    have hext := hok.extent
    have hblock : sizeofFmBlock = 33632 := by decide
    rw [initOverhead_eq] at hr
    rw [hused, length_singleton] at htotal
    simp only [fragOverhead] at htotal hext ⊢
    omega
  · simp [hm, hr, IsGreatest, upperBounds]

/-- **The counters over every run**: they are right in every state iff no call of the run shrinks a fragment, and none
raises `real_used` over `max_real_used` by joining two. -/
theorem accounted_iff {mem : Nat → Nat} {address : Nat} {es : List (Call × Watched)} (hsize : size < 2 ^ 64)
    (hi : Heap.fmMallocInit mem address size = some s) (hrun : Trace Watched.Step ⟨⟨s, []⟩, [s.qm.realUsed]⟩ es) :
    Accounted ⟨⟨s, []⟩, [s.qm.realUsed]⟩ ∧ ((∀ e ∈ es, Accounted e.2) ↔
      Trace (fun w call _ => Counted w.client.heap call) ⟨⟨s, []⟩, [s.qm.realUsed]⟩ es) := by
  have hok : WatchedOk ⟨⟨s, []⟩, [s.qm.realUsed]⟩ := ⟨fmMallocInit_clientOk hsize hi, by simp⟩
  have hacc := accounted_init hsize hi
  refine ⟨hacc, Trace.always_iff ?_ ?_ hrun hok hacc⟩
  · intro w call w' h hs
    exact h.step hs
  · intro w call w' h hacc hs
    exact accounted_step h hacc hs

instance (s : Heap) : DecidablePred s.Joins
  | .realloc _ _ => inferInstanceAs (Decidable (_ ∧ _))
  | .malloc _ | .free _ | .write _ _ => inferInstanceAs (Decidable False)

instance (s : Heap) : DecidablePred (Counted s) := fun _ => inferInstanceAs (Decidable (_ ∧ (_ → _)))

/-- A valid call that counts, watched. -/
def countedExec (w : Watched) (call : Call) : Option Watched :=
  if Valid allocator w.client call ∧ Counted w.client.heap call then
    (exec allocator w.client call).map fun c =>
      ⟨c, w.seen ++ ((w.client.heap.nested call).map (·.qm.realUsed) ++ [c.heap.qm.realUsed])⟩
  else none

theorem countedExec_step {w w' : Watched} {call : Call} (h : countedExec w call = some w') :
    w.Step call w' ∧ Counted w.client.heap call := by
  obtain ⟨⟨hv, hcounted⟩, h⟩ := Option.ite_none_right_eq_some.mp h
  obtain ⟨c, hc, rfl⟩ := Option.map_eq_some_iff.mp h
  exact ⟨⟨⟨hv, hc⟩, rfl⟩, hcounted⟩

/-- Two fragments are joined below the mark, and one moves. -/
theorem smallBlock_accounted : ∃ s es, Heap.fmMallocInit (fun _ => 0) 0 34672 = some s ∧
    Trace Watched.Step ⟨⟨s, []⟩, [s.qm.realUsed]⟩ es ∧ es.map Prod.fst = fourFrags ∧ ∀ e ∈ es, Accounted e.2 := by
  have hsome : ((Heap.fmMallocInit (fun _ => 0) 0 34672).bind fun s =>
      (Lib.exec countedExec ⟨⟨s, []⟩, [s.qm.realUsed]⟩ fourFrags).map fun w => w.client.live) =
        some [33968, 33648] := by
    decide +kernel
  obtain ⟨s, hi, hexec⟩ := Option.bind_eq_some_iff.mp hsome
  obtain ⟨w, hw, -⟩ := Option.map_eq_some_iff.mp hexec
  obtain ⟨es, hes, hlabels, -⟩ := Lib.exec_trace hw
  have hrun : Trace Watched.Step ⟨⟨s, []⟩, [s.qm.realUsed]⟩ es := hes.imp fun _ _ _ he => (countedExec_step he).1
  obtain ⟨-, hiff⟩ := accounted_iff (by norm_num) hi hrun
  exact ⟨s, es, hi, hrun, hlabels, hiff.mpr (hes.imp fun _ _ _ he => (countedExec_step he).2)⟩

/-- Shrinking 64 bytes to 8 leaves `real_used` 16 too large. Growing 64 bytes to 128, when the 64 bytes behind them have
been freed and `real_used` has risen to its mark again, leaves it above the mark. -/
theorem realloc_miscounted :
    (∃ s es, Heap.fmMallocInit (fun _ => 0) 0 33904 = some s ∧ Trace (Step allocator) ⟨s, []⟩ es ∧
      es.map Prod.fst = [.malloc 64, .realloc 33648 8] ∧ ∃ c, (es.map Prod.snd).getLastD ⟨s, []⟩ = c ∧
        c.heap.qm.realUsed + freeSize (c.heap.frags c.live) = c.heap.qm.size + 16) ∧
    ∃ s es, Heap.fmMallocInit (fun _ => 0) 0 34672 = some s ∧ Trace (Step allocator) ⟨s, []⟩ es ∧
      es.map Prod.fst = [.malloc 64, .malloc 64, .malloc 64, .malloc 64, .free 33888, .free 33728, .malloc 256,
        .realloc 33648 128] ∧ ∃ c, (es.map Prod.snd).getLastD ⟨s, []⟩ = c ∧
        c.heap.qm.maxRealUsed < c.heap.qm.realUsed := by
  constructor
  · apply runCalls_shows
    decide +kernel
  · apply runCalls_shows
    decide +kernel

end OpenSer.Mem.FM
