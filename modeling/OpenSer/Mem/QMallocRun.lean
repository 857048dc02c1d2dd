import OpenSer.Mem.Client
import OpenSer.Mem.QMallocOps

/-!
# Runs of the quick allocator

What one call of a client does to the fragments and to the counters (`Effect`), and along which runs the counters are
right. A shrinking `qm_realloc` tests the result of `split_frag` the wrong way round: it leaves the counters alone when
the fragment was split, and raises `real_used` when it was not. All of it holds with `QM_JOIN_FREE` and without.

* `exec_ok`: every valid call returns, keeps the heap invariant and has an `Effect`.
* `not_sums_shrink`: the operation that miscounts.
* `accounted_iff_not_shrinks`: the runs along which the counters are right.
* `rings_over_runs`: the heap invariant over whole runs.
-/

namespace OpenSer.Mem.QM

open Option Function Lib List

def allocator (joinFree : Bool) : Allocator Heap where
  malloc := Heap.qmMalloc
  free := Heap.qmFree joinFree
  realloc := Heap.qmRealloc joinFree
  payload s p := s.fragSize (p - sizeofQmFrag)
  write s a v := s.setMem (update s.mem a v)

namespace Heap

/-- The fragments from `first_frag` on, each free unless the client holds it. -/
def frags (s : Heap) (live : List Nat) : List Frag :=
  walkFrags fragOverhead s.fragSize (fun a => a + sizeofQmFrag ∉ live) (s.qm.lastFragEnd + sizeofQmFragEnd) s.qm.size
    s.qm.firstFrag

def Shrinks (s : Heap) : Call → Prop
  | .realloc p size => p ≠ 0 ∧ size ≠ 0 ∧ roundup size < s.fragSize (p - sizeofQmFrag)
  | _ => False

end Heap

/-- **What a call does** to the fragments `fs` and to the counters of the block. -/
inductive Effect (s : Heap) (call : Call) (s' : Heap) : List Frag → List Frag → Prop where
  | idle (fs : List Frag) (hs : ¬s.Shrinks call) (hqm : s'.qm = s.qm) : Effect s call s' fs fs
  | take (l r : List Frag) (f : Frag) (size : Nat) (hs : ¬s.Shrinks call) (hfree : f.free = true) (hle : size ≤ f.size)
      (hqm : s'.qm = countedQm s.qm f.size size s'.qm.no) :
      Effect s call s' (l ++ f :: r) (l ++ (cutFrag { f with free := false } size ++ r))
  | release (l r fs' : List Frag) (f : Frag) (hs : ¬s.Shrinks call) (hused : f.free = false)
      (hjoins : Joins (l ++ { f with free := true } :: r) (wsub s.qm.realUsed f.size) fs' s'.qm.realUsed)
      (hqm : s'.qm = { s.qm with
        no := s'.qm.no
        used := wsub s.qm.used f.size
        realUsed := s'.qm.realUsed }) :
      Effect s call s' (l ++ f :: r) fs'
  | shrink (l r : List Frag) (f : Frag) (size : Nat) (hs : s.Shrinks call) (hused : f.free = false)
      (hlt : size < f.size)
      (hqm : s'.qm = { s.qm with
        no := s'.qm.no
        realUsed := if Splits f.size size then wadd s.qm.realUsed fragOverhead
          else wsub s.qm.realUsed (wsub (wsub f.size f.size) fragOverhead)
        used := if Splits f.size size then s.qm.used else wsub s.qm.used (wsub f.size f.size) }) :
      Effect s call s' (l ++ f :: r) (l ++ (cutFrag f size ++ r))
  | join (l r : List Frag) (f n : Frag) (size : Nat) (hs : ¬s.Shrinks call) (hused : f.free = false)
      (hfree : n.free = true) (hlt : f.size < size) (hle : size ≤ f.size + fragOverhead + n.size)
      (hqm : s'.qm = { s.qm with
        no := s'.qm.no
        realUsed := joinedReal fragOverhead qmMallocOptimize s.qm.realUsed f.size n.size size
        used := wadd s.qm.used (wsub (keptSize (f.size + fragOverhead + n.size) size) f.size) }) :
      Effect s call s' (l ++ f :: n :: r)
        (l ++ (cutFrag { f with size := f.size + fragOverhead + n.size } size ++ r))
  | move (l r l' r' fs' : List Frag) (f g : Frag) (size : Nat) (hs : ¬s.Shrinks call) (hused : f.free = false)
      (hfree : g.free = true) (hle : size ≤ g.size)
      (hsame : l ++ (cutFrag { g with free := false } size ++ r) = l' ++ f :: r')
      (hjoins : Joins (l' ++ { f with free := true } :: r')
        (wsub (countedQm s.qm g.size size s'.qm.no).realUsed f.size) fs' s'.qm.realUsed)
      (hqm : s'.qm = { countedQm s.qm g.size size s'.qm.no with
        used := wsub (countedQm s.qm g.size size s'.qm.no).used f.size
        realUsed := s'.qm.realUsed }) :
      Effect s call s' (l ++ g :: r) fs'

variable {s s' : Heap} {fs l r : List Frag} {f : Frag} {bk : Nat → List Nat} {live : List Nat} {c c' : Client Heap}
  {call : Call} {p q size : Nat} {joinFree : Bool}

/-! ## The calls -/

theorem ne_zero_of_live (hl : live.Perm (usedPtrs sizeofQmFrag fs)) (hp : p ∈ live) : p ≠ 0 := by
  obtain ⟨l, f, r, -, -, rfl⟩ := exists_of_live hl hp
  simp only [sizeofQmFrag]
  omega

theorem allocator_realloc (joinFree : Bool) : ReallocSpec (allocator joinFree) where
  null h size hsize := by
    show h.qmRealloc joinFree 0 size = h.qmMalloc size
    rw [Heap.qmRealloc, if_neg hsize, if_pos rfl]
  zero h p hp := by
    show h.qmRealloc joinFree p 0 = (h.qmFree joinFree p).map (·, 0)
    rw [Heap.qmRealloc, if_pos rfl, if_pos hp]
  idle h := rfl

theorem plain_call (s : Heap) (call : Call) (h : (∃ size, call.Allocs size) ∨ (∃ p, call.Frees p)) :
    ¬s.Shrinks call := by
  cases call with
  | realloc p size =>
    rintro ⟨hp, hsize, -⟩
    rcases h with ⟨_, h, -⟩ | ⟨_, h, -⟩
    · exact hp h
    · exact hsize h
  | malloc | free | write => exact id

/-- What `exec_ok` says of a call that leads to the heap `s'` and the pointers `live'`. -/
def Done (s : Heap) (fs : List Frag) (call : Call) (s' : Heap) (live' : List Nat) : Prop :=
  ∃ fs' bk', HeapOk s' fs' bk' ∧ live'.Perm (usedPtrs sizeofQmFrag fs') ∧ Effect s call s' fs fs'

theorem qmMalloc_done (call : Call) (h : HeapOk s fs bk) (hl : live.Perm (usedPtrs sizeofQmFrag fs)) (size : Nat)
    (hs : ¬s.Shrinks call) :
    ∃ s' q, s.qmMalloc size = some (s', q) ∧ Done s fs call s' (if q = 0 then live else q :: live) := by
  rcases qmMalloc_ok h size with ⟨he, -⟩ | ⟨l, f, r, s', bk', rfl, hfree, hle, he, hok, hqm⟩
  · refine ⟨s, 0, he, fs, bk, h, ?_, .idle fs hs rfl⟩
    rwa [if_pos rfl]
  · refine ⟨s', _, he, _, bk', hok, ?_, .take l r f _ hs hfree hle hqm⟩
    exact usedPtrs_taken _ _ _ hl hfree

theorem qmFree_done (call : Call) (h : HeapOk s fs bk) (hl : live.Perm (usedPtrs sizeofQmFrag fs)) (hp : p ∈ live)
    (hs : ¬s.Shrinks call) : ∃ s', s.qmFree joinFree p = some s' ∧ Done s fs call s' (live.erase p) := by
  obtain ⟨l, f, r, rfl, hused, rfl⟩ := exists_of_live hl hp
  obtain ⟨s', fs', bk', he, hok, hjoins, hqm⟩ := qmFree_ok joinFree h hused
  refine ⟨s', he, fs', bk', hok, ?_, .release l r fs' f hs hused hjoins hqm⟩
  rw [hjoins.usedPtrs_eq]
  exact usedPtrs_release hl hused rfl

theorem qmRealloc_done (h : HeapOk s fs bk) (hl : live.Perm (usedPtrs sizeofQmFrag fs)) (hp : p ∈ live)
    (hsize : size ≠ 0) : ∃ s' q, s.qmRealloc joinFree p size = some (s', q) ∧
      Done s fs (.realloc p size) s' (if q = 0 then live else q :: live.erase p) := by
  have hp0 : p ≠ 0 := ne_zero_of_live hl hp
  have hback : (p :: live.erase p).Perm live := (perm_cons_erase hp).symm
  obtain ⟨l, f, r, rfl, hused, rfl⟩ := exists_of_live hl hp
  have hsf : s.fragSize (f.addr + sizeofQmFrag - sizeofQmFrag) = f.size := by
    exact h.size f (by simp)
  have hkeeps : f.size ≤ roundup size → ¬s.Shrinks (.realloc (f.addr + sizeofQmFrag) size) := by
    rintro hle ⟨-, -, hlt⟩
    omega
  rcases qmRealloc_cases joinFree h hsize with ⟨hlt, he⟩ | ⟨heq, he⟩ | ⟨hgt, n, r, rfl, hfree, hle, he⟩ | ⟨hgt, he⟩
  · obtain ⟨s', bk', he', hok, hqm⟩ := reallocShrink_ok h hused hlt.le
    refine ⟨s', _, by rw [he, he', map_some], _, bk', hok, ?_, .shrink l r f _ ?_ hused hlt hqm⟩
    · rw [usedPtrs_splitFrag hused]
      exact hback.trans hl
    · exact ⟨hp0, hsize, hsf ▸ hlt⟩
  · refine ⟨s, _, he, _, bk, h, ?_, .idle _ (hkeeps heq.ge) rfl⟩
    exact hback.trans hl
  · obtain ⟨s', bk', he', hok, hqm⟩ := reallocJoin_ok h hused hfree hle
    refine ⟨s', _, by rw [he, he', map_some], _, bk', hok, ?_,
      .join l r f n _ (hkeeps hgt.le) hused hfree hgt hle hqm⟩
    exact (hback.trans hl).trans (.of_eq (usedPtrs_joined hused hfree).symm)
  · rcases reallocMove_ok joinFree h (by simp) hused hgt with he' |
      ⟨l₁, g, r₁, l', r', s', fs', bk', hfs, hfree, hle, hsame, he', hok, hjoins, hqm⟩
    · refine ⟨s, 0, by rw [he, he'], _, bk, h, ?_, .idle _ (hkeeps hgt.le) rfl⟩
      rwa [if_pos rfl]
    · have hmem : f ∈ l ++ f :: r := by simp
      have htiled := h.tiled
      rw [hfs] at hl hmem htiled ⊢
      refine ⟨s', _, by rw [he, he'], fs', bk', hok, ?_,
        .move l₁ r₁ l' r' fs' f g _ (hkeeps hgt.le) hused hfree hle hsame hjoins hqm⟩
      rw [hjoins.usedPtrs_eq]
      exact usedPtrs_moved htiled HeapShape.oh_pos hmem hl hfree hused hsame

theorem write_done (h : HeapOk s fs bk) (hl : live.Perm (usedPtrs sizeofQmFrag fs)) (hp : p ∈ live) {a v : Nat}
    (ha : p ≤ a) (ha' : a < p + s.fragSize (p - sizeofQmFrag)) :
    Done s fs (.write a v) (s.setMem (update s.mem a v)) live := by
  obtain ⟨l, f, r, rfl, -, rfl⟩ := exists_of_live hl hp
  rw [Nat.add_sub_cancel, h.size f (by simp)] at ha'
  simp only [sizeofQmFrag] at ha ha'
  have hok := h.writePayload (f := f) (by simp) (update s.mem a v) fun b hb =>
    Function.update_of_ne (by omega) _ _
  exact ⟨_, bk, hok, hl, .idle _ id rfl⟩

/-- **Every valid call** returns, keeps the invariant and has one of the effects. -/
theorem exec_ok (h : HeapOk c.heap fs bk) (hl : c.live.Perm (usedPtrs sizeofQmFrag fs))
    (hv : Valid (allocator joinFree) c call) :
    ∃ c', exec (allocator joinFree) c call = some c' ∧ Done c.heap fs call c'.heap c'.live := by
  have hzero : 0 ∉ c.live := fun h0 => ne_zero_of_live hl h0 rfl
  refine exec_done (allocator_realloc joinFree) (Done c.heap fs call) hzero hv ?_ ?_ ?_ ?_ ?_
  · intro size hcall
    exact qmMalloc_done call h hl size (plain_call c.heap call (.inl ⟨size, hcall⟩))
  · intro p hcall hp
    exact qmFree_done call h hl hp (plain_call c.heap call (.inr ⟨p, hcall⟩))
  · rintro p size rfl hp hsize
    exact qmRealloc_done h hl hp hsize
  · rintro a v p rfl hp ha ha'
    exact write_done h hl hp ha ha'
  · rintro rfl
    exact ⟨fs, bk, h, hl, .idle fs (plain_call c.heap (.realloc 0 0) (.inr ⟨0, rfl, rfl⟩)) rfl⟩

/-- The fragments can be read off the heap. -/
theorem HeapOk.frags_eq (h : HeapOk s fs bk) (hl : live.Perm (usedPtrs sizeofQmFrag fs)) : s.frags live = fs := by
  refine h.tiled.walkFrags_live HeapShape.oh_pos h.size hl ?_
  have hlen := h.tiled.length_le
  have hext := h.stretch
  rw [HeapShape.overhead_eq] at hlen
  omega

/-- The heap and the pointers of the client agree. -/
def ClientOk (c : Client Heap) : Prop :=
  ∃ bk, HeapOk c.heap (c.heap.frags c.live) bk ∧ c.live.Perm (usedPtrs sizeofQmFrag (c.heap.frags c.live))

theorem ClientOk.of_frags (h : HeapOk c.heap fs bk) (hl : c.live.Perm (usedPtrs sizeofQmFrag fs)) : ClientOk c := by
  refine ⟨bk, ?_⟩
  rw [h.frags_eq hl]
  exact ⟨h, hl⟩

/-- Every valid call keeps the invariant of the client. -/
theorem ClientOk.step (h : ClientOk c) (hs : Step (allocator joinFree) c call c') : ClientOk c' := by
  obtain ⟨bk, hok, hl⟩ := h
  obtain ⟨c₁, he, fs', bk', hok', hl', -⟩ := exec_ok hok hl hs.1
  rw [hs.2] at he
  cases he
  exact .of_frags hok' hl'

/-! ## The counters -/

theorem HeapOk.room (h : HeapOk s fs bk) : Room fragOverhead s.qm.size fs := by
  have htotal := h.tiled.total
  have hext := h.stretch
  refine ⟨?_, h.fits⟩
  rw [HeapShape.overhead_eq] at htotal ⊢
  omega

/-- **A shrinking `qm_realloc` miscounts**, whether `split_frag` cuts the fragment or refuses to: in the one case `used`
stays what it was, in the other `real_used` grows by `FRAG_OVERHEAD`. -/
theorem not_sums_shrink {used real total : Nat} (h : Sums used real total (l ++ f :: r))
    (hused : f.free = false) (hlt : size < f.size) :
    ¬Sums (if Splits f.size size then used else wsub used (wsub f.size f.size))
      (if Splits f.size size then wadd real fragOverhead else wsub real (wsub (wsub f.size f.size) fragOverhead)) total
      (l ++ (cutFrag f size ++ r)) := by
  have hu := usedSize_splitFrag fragOverhead qmMallocOptimize size hused
  have hf := freeSize_splitFrag fragOverhead qmMallocOptimize size hused
  simp only [Sums, usedSize_append, freeSize_append, usedSize_cons, freeSize_cons, hused, hu, hf,
    Bool.false_eq_true, if_false] at h ⊢
  rintro ⟨husum, hreal⟩
  unfold Mem.keptSize at husum
  by_cases hsp : Splits f.size size
  · simp only [if_pos hsp] at husum
    omega
  · simp only [if_neg hsp] at hreal
    rw [HeapShape.overhead_eq] at hreal
    unfold wsub at hreal
    omega

/-- **The counters are right**: `used` is the size of the fragments in use, and `real_used` the size of the block
without its free fragments. -/
def Accounted (c : Client Heap) : Prop :=
  let fs := c.heap.frags c.live
  c.heap.qm.used = usedSize fs ∧ c.heap.qm.realUsed + freeSize fs = c.heap.qm.size ∧
    c.heap.qm.realUsed ≤ c.heap.qm.size

theorem accounted_of (hfs : c.heap.frags c.live = fs) :
    Accounted c ↔ Sums c.heap.qm.used c.heap.qm.realUsed c.heap.qm.size fs := by
  unfold Accounted Sums
  rw [hfs]
  constructor
  · rintro ⟨h1, h2, -⟩
    exact ⟨h1, h2⟩
  · rintro ⟨h1, h2⟩
    exact ⟨h1, h2, by omega⟩

/-- **One call** keeps the counters right iff it does not shrink a fragment. -/
theorem accounted_step (h : ClientOk c) (hacc : Accounted c) (hstep : Step (allocator joinFree) c call c') :
    Accounted c' ↔ ¬c.heap.Shrinks call := by
  obtain ⟨bk, hok, hl⟩ := h
  obtain ⟨c₁, he, fs', bk', hok', hl', heff⟩ := exec_ok hok hl hstep.1
  rw [hstep.2] at he
  cases he
  rw [accounted_of (hok'.frags_eq hl')]
  have hsums := (accounted_of rfl).mp hacc
  have hroom := hok.room
  have hroom' := hok'.room
  generalize c.heap.frags c.live = fs at heff hsums hroom
  cases heff with
  | idle fs hs hqm =>
    rw [hqm]
    exact iff_of_true hsums hs
  | take l r f size hs hfree hle hqm =>
    rw [hqm]
    exact iff_of_true (hsums.take hroom hfree hle qmMallocOptimize).1 hs
  | release l r fs' f hs hused hjoins hqm =>
    refine iff_of_true ?_ hs
    rw [hqm] at hroom' ⊢
    exact hjoins.sums (hsums.release hroom hused).1 (by have := hroom'.1; omega) hroom'.2
  | shrink l r f size hs hused hlt hqm =>
    rw [hqm]
    exact iff_of_false (not_sums_shrink hsums hused hlt) (not_not_intro hs)
  | join l r f n size hs hused hfree hlt hle hqm =>
    rw [hqm]
    exact iff_of_true (hsums.join hroom hused hfree hlt hle qmMallocOptimize).1 hs
  | move l r l' r' fs' f g size hs hused hfree hle hsame hjoins hqm =>
    obtain ⟨hsums₁, hroom₁⟩ := hsums.take hroom hfree hle qmMallocOptimize
    rw [hsame] at hsums₁ hroom₁
    refine iff_of_true ?_ hs
    rw [hqm] at hroom' ⊢
    exact hjoins.sums (hsums₁.release hroom₁ hused).1 (by have := hroom'.1; omega) hroom'.2

/-- `qm_malloc` refuses the size before it looks for a fragment. -/
def Heap.Refuses (s : Heap) (size : Nat) : Prop := wsub s.qm.size s.qm.realUsed < roundup size

instance (s : Heap) (size : Nat) : Decidable (s.Refuses size) := inferInstanceAs (Decidable (_ < _))

/-- While the counters are right, what `qm_malloc` refuses early no free fragment could serve. -/
theorem Accounted.not_refuses (h : ClientOk c) (hacc : Accounted c) (hf : f ∈ c.heap.frags c.live)
    (hfree : f.free = true) (hle : roundup size ≤ f.size) : ¬c.heap.Refuses size := by
  obtain ⟨bk, hok, -⟩ := h
  obtain ⟨-, hreal, hbound⟩ := hacc
  obtain ⟨l, r, hfs⟩ := append_of_mem hf
  have hsum : f.size ≤ freeSize (c.heap.frags c.live) := by
    rw [hfs, freeSize_append, freeSize_cons, if_pos hfree]
    omega
  rw [Heap.Refuses, wsub_of_le hbound hok.fits]
  omega

/-! ## Runs -/

theorem qmMallocInit_clientOk {mem : Nat → Nat} {address : Nat} (hsize : size < 2 ^ 64)
    (hi : Heap.qmMallocInit mem address size = some s) : ClientOk ⟨s, []⟩ ∧ Accounted ⟨s, []⟩ := by
  obtain ⟨f, bk, hfree, hok, hu, hr⟩ := qmMallocInit_ok hsize hi
  have hl : ([] : List Nat).Perm (usedPtrs sizeofQmFrag [f]) := by rw [usedPtrs_cons_free hfree]; exact .refl []
  refine ⟨.of_frags hok hl, ?_⟩
  rw [accounted_of (hok.frags_eq hl)]
  have hused : usedSize [f] = 0 := by simp [usedSize, hfree]
  refine ⟨hu.trans hused.symm, ?_⟩
  have htotal := hok.tiled.total
  have hext := hok.stretch
  rw [initOverhead_eq] at hr
  rw [length_singleton, HeapShape.overhead_eq] at htotal
  show s.qm.realUsed + _ = s.qm.size
  omega

/-- **The counters over every run**: they are right in every state iff no call of the run shrinks a fragment. While they
are right, a size that some free fragment could serve is not refused early. -/
theorem accounted_iff_not_shrinks {mem : Nat → Nat} {address : Nat} {es : List (Call × Client Heap)}
    (hsize : size < 2 ^ 64) (hi : Heap.qmMallocInit mem address size = some s)
    (hrun : Trace (Step (allocator joinFree)) ⟨s, []⟩ es) :
    Accounted ⟨s, []⟩ ∧
    ((∀ e ∈ es, Accounted e.2) ↔ Trace (fun c call _ => ¬c.heap.Shrinks call) ⟨s, []⟩ es) ∧
    ∀ c, c = ⟨s, []⟩ ∨ (∃ e ∈ es, c = e.2) → Accounted c →
      ∀ f ∈ c.heap.frags c.live, f.free = true → ∀ asked, roundup asked ≤ f.size → ¬c.heap.Refuses asked := by
  obtain ⟨hok, hacc⟩ := qmMallocInit_clientOk hsize hi
  refine ⟨hacc, Trace.always_iff ?_ ?_ hrun hok hacc, ?_⟩
  · intro c call c' h hs
    exact h.step hs
  · intro c call c' h hacc hs
    exact accounted_step h hacc hs
  · intro c hc hacc' f hf hfree asked hle
    exact hacc'.not_refuses (hrun.reached (fun _ _ _ h hs => h.step hs) hok hc) hf hfree hle

/-- Four fragments. The second one and the first one are freed, the third one grows, and the fourth one is freed. -/
def fourFrags : List Call :=
  [.malloc 64, .malloc 64, .malloc 64, .malloc 64, .free 43168, .free 43072, .realloc 43264 100, .free 43360]

instance (s : Heap) : DecidablePred s.Shrinks
  | .realloc _ _ => inferInstanceAs (Decidable (_ ∧ _))
  | .malloc _ | .free _ | .write _ _ => inferInstanceAs (Decidable False)

/-- A valid call that does not shrink a fragment. -/
def countedExec (c : Client Heap) (call : Call) : Option (Client Heap) :=
  if Valid (allocator true) c call ∧ ¬c.heap.Shrinks call then exec (allocator true) c call else none

/-- The counters are right all along, with `QM_JOIN_FREE`. -/
theorem smallBlock_not_shrinks : ∃ s es, Heap.qmMallocInit (fun _ => 0) 0 44064 = some s ∧
    Trace (Step (allocator true)) ⟨s, []⟩ es ∧ es.map Prod.fst = fourFrags ∧ ∀ e ∈ es, Accounted e.2 := by
  have hsome : ((Heap.qmMallocInit (fun _ => 0) 0 44064).bind fun s =>
      (Lib.exec countedExec ⟨s, []⟩ fourFrags).map fun c => c.live) = some [43072] := by decide +kernel
  obtain ⟨s, hi, hexec⟩ := bind_eq_some_iff.mp hsome
  obtain ⟨c, hc, -⟩ := map_eq_some_iff.mp hexec
  obtain ⟨es, hes, hlabels, -⟩ := Lib.exec_trace hc
  have hstep : ∀ c call c', countedExec c call = some c' → Step (allocator true) c call c' ∧ ¬c.heap.Shrinks call := by
    intro c call c' he
    obtain ⟨hcond, he⟩ := ite_none_right_eq_some.mp he
    exact ⟨⟨hcond.1, he⟩, hcond.2⟩
  have hrun : Trace (Step (allocator true)) ⟨s, []⟩ es := hes.imp fun c call c' he => (hstep c call c' he).1
  obtain ⟨-, hiff, -⟩ := accounted_iff_not_shrinks (by norm_num) hi hrun
  exact ⟨s, es, hi, hrun, hlabels, hiff.mpr (hes.imp fun c call c' he => (hstep c call c' he).2)⟩

/-- Shrinking 256 bytes to 8 leaves `used` and `real_used` 240 too large, and a free fragment of 256 bytes is then out
of reach: `qm_malloc(256)` returns null. -/
theorem realloc_shrink_miscounted :
    ∃ s es, Heap.qmMallocInit (fun _ => 0) 0 43632 = some s ∧ Trace (Step (allocator false)) ⟨s, []⟩ es ∧
      es.map Prod.fst = [.malloc 256, .realloc 43072 8] ∧ ∃ c, (es.map Prod.snd).getLastD ⟨s, []⟩ = c ∧
        c.heap.qm.used = usedSize (c.heap.frags c.live) + 240 ∧
        c.heap.qm.realUsed + freeSize (c.heap.frags c.live) = c.heap.qm.size + 240 ∧
        (∃ f ∈ c.heap.frags c.live, f.free = true ∧ roundup 256 ≤ f.size) ∧ c.heap.Refuses 256 ∧
        (c.heap.qmMalloc 256).map Prod.snd = some 0 := by
  apply runCalls_shows
  decide +kernel

/-- **The structure of the heap over every run.** In every state that valid calls lead to from `qm_malloc_init`, the
fragments from `first_frag` on tile the block, with the same size at both ends, each bucket is a ring of exactly the
free fragments of its class, linked both ways and sorted, and knows its length, and a fragment is in one bucket if it is
free and in none if it is in use. Every further valid call returns. -/
theorem rings_over_runs {mem : Nat → Nat} {address : Nat} {es : List (Call × Client Heap)} (hsize : size < 2 ^ 64)
    (hi : Heap.qmMallocInit mem address size = some s) (hrun : Trace (Step (allocator joinFree)) ⟨s, []⟩ es)
    (hc : c = ⟨s, []⟩ ∨ ∃ e ∈ es, c = e.2) :
    (∃ bk, HeapOk c.heap (c.heap.frags c.live) bk ∧ c.live.Perm (usedPtrs sizeofQmFrag (c.heap.frags c.live)) ∧
      ∀ f ∈ c.heap.frags c.live, ∀ h, f.addr ∈ bk h ↔ f.free = true ∧ getHash f.size = h) ∧
    ∀ call, Valid (allocator joinFree) c call → ∃ c', Step (allocator joinFree) c call c' := by
  have hok : ClientOk c := hrun.reached (fun _ _ _ h hs => h.step hs) (qmMallocInit_clientOk hsize hi).1 hc
  obtain ⟨bk, hheap, hl⟩ := hok
  refine ⟨⟨bk, hheap, hl, fun f hf h => ⟨hheap.hash_eq_of_mem hf, fun hfree => ?_⟩⟩, fun call hv => ?_⟩
  · exact (hheap.mem h f.addr).mpr ⟨f, hf, rfl, hfree⟩
  · obtain ⟨c', he, -⟩ := exec_ok hheap hl hv
    exact ⟨c', hv, he⟩

/-- With `QM_JOIN_FREE` two fragments are left, the free one made of three; without it there are six. -/
theorem smallBlock_rings :
    (∃ s c, Heap.qmMallocInit (fun _ => 0) 0 44064 = some s ∧ runCalls (allocator true) ⟨s, []⟩ fourFrags = some c ∧
      (c.heap.frags c.live).map Frag.size = [160, 784] ∧ ∃ bk, HeapOk c.heap (c.heap.frags c.live) bk) ∧
    ∃ s c, Heap.qmMallocInit (fun _ => 0) 0 44064 = some s ∧ runCalls (allocator false) ⟨s, []⟩ fourFrags = some c ∧
      (c.heap.frags c.live).map Frag.size = [64, 64, 64, 64, 112, 448] ∧
        ∃ bk, HeapOk c.heap (c.heap.frags c.live) bk := by
  have hrings : ∀ joinFree sizes, ((Heap.qmMallocInit (fun _ => 0) 0 44064).bind fun s =>
      (runCalls (allocator joinFree) ⟨s, []⟩ fourFrags).map fun c => (c.heap.frags c.live).map Frag.size) = some sizes →
      ∃ s c, Heap.qmMallocInit (fun _ => 0) 0 44064 = some s ∧
        runCalls (allocator joinFree) ⟨s, []⟩ fourFrags = some c ∧
        (c.heap.frags c.live).map Frag.size = sizes ∧ ∃ bk, HeapOk c.heap (c.heap.frags c.live) bk := by
    intro joinFree sizes hsome
    obtain ⟨s, hi, hrun⟩ := bind_eq_some_iff.mp hsome
    obtain ⟨c, hc, hsizes⟩ := map_eq_some_iff.mp hrun
    obtain ⟨es, htrace, hreach⟩ := runCalls_reached hc
    obtain ⟨⟨bk, hok, -⟩, -⟩ := rings_over_runs (by norm_num) hi htrace hreach
    exact ⟨s, c, hi, hc, hsizes, bk, hok⟩
  exact ⟨hrings true _ (by decide +kernel), hrings false _ (by decide +kernel)⟩

end OpenSer.Mem.QM
