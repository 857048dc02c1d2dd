import OpenSer.Mem.Client
import OpenSer.Mem.FMallocOps

/-!
# Runs of the fast allocator

What one call of a client does to the fragments and to the counters (`Effect`), and what holds in every state that the
calls of a client lead to.

* `exec_ok`: every valid call returns, keeps the heap invariant and has an `Effect`.
* `heap_over_runs`: the heap invariant over whole runs.
-/

namespace OpenSer.Mem.FM

open Function Lib Heap Option

def allocator : Allocator Heap where
  malloc := Heap.fmMalloc
  free := Heap.fmFree
  realloc := Heap.fmRealloc
  payload s p := s.fragSize (p - fragOverhead)
  write s a v := s.setMem (update s.mem a v)

namespace Heap

/-- The fragments from `first_frag` on, each free unless the client holds it. -/
def frags (s : Heap) (live : List Nat) : List Frag :=
  walkFrags fragOverhead s.fragSize (fun a => a + fragOverhead ∉ live) (s.qm.lastFrag + fragOverhead) s.qm.size
    s.qm.firstFrag

def Shrinks (s : Heap) : Call → Prop
  | .realloc p size => p ≠ 0 ∧ size ≠ 0 ∧ roundup size < s.fragSize (p - fragOverhead)
  | _ => False

/-- The call grows a fragment into the one behind it. -/
def Joins (s : Heap) : Call → Prop
  | .realloc p size => p ≠ 0 ∧ size ≠ 0 ∧ s.fragSize (p - fragOverhead) < roundup size ∧
      s.CanJoin (p - fragOverhead) (roundup size)
  | _ => False

/-- The call grows a fragment by moving it. -/
def Moves (s : Heap) : Call → Prop
  | .realloc p size => p ≠ 0 ∧ size ≠ 0 ∧ s.fragSize (p - fragOverhead) < roundup size ∧
      ¬s.CanJoin (p - fragOverhead) (roundup size)
  | _ => False

instance (s : Heap) : DecidablePred s.Shrinks
  | .realloc _ _ => inferInstanceAs (Decidable (_ ∧ _))
  | .malloc _ | .free _ | .write _ _ => inferInstanceAs (Decidable False)

instance (s : Heap) : DecidablePred s.Moves
  | .realloc _ _ => inferInstanceAs (Decidable (_ ∧ _))
  | .malloc _ | .free _ | .write _ _ => inferInstanceAs (Decidable False)

/-- The size a call asks for, rounded up. -/
def asked : Call → Nat
  | .malloc size | .realloc _ size => roundup size
  | _ => 0

/-- The heap when the `fm_malloc` inside a moving `fm_realloc` has returned. -/
def nested (s : Heap) (call : Call) : List Heap :=
  if s.Moves call then ((s.fmMalloc (asked call)).map Prod.fst).toList else []

/-- The bytes that a joining `fm_realloc` takes from the free fragments. -/
def growth (s : Heap) : Call → Nat
  | .realloc p size =>
    let f := p - fragOverhead
    let n := s.fragNext f
    if Splits (s.fragSize f + fragOverhead + s.fragSize n) (roundup size) then roundup size - s.fragSize f
    else s.fragSize n
  | _ => 0

end Heap

/-- **What a call does** to the fragments `fs` and to the counters of the block. -/
inductive Effect (s : Heap) (call : Call) (s' : Heap) : List Frag → List Frag → Prop where
  | idle (fs : List Frag) (hs : ¬s.Shrinks call) (hj : ¬s.Joins call) (hn : ∀ s₁ ∈ s.nested call, s₁ = s)
      (hqm : s'.qm = s.qm) : Effect s call s' fs fs
  | take (l r : List Frag) (f : Frag) (size : Nat) (hs : ¬s.Shrinks call) (hj : ¬s.Joins call)
      (hn : s.nested call = []) (hfree : f.free = true) (hle : size ≤ f.size)
      (hqm : s'.qm = countedQm s.qm f.size size s'.qm.freeHash) :
      Effect s call s' (l ++ f :: r) (l ++ (splitFrag { f with free := false } size ++ r))
  | release (l r : List Frag) (f : Frag) (hs : ¬s.Shrinks call) (hj : ¬s.Joins call) (hn : s.nested call = [])
      (hused : f.free = false)
      (hqm : s'.qm = { s.qm with
        freeHash := s'.qm.freeHash
        used := wsub s.qm.used f.size
        realUsed := wsub s.qm.realUsed f.size }) :
      Effect s call s' (l ++ f :: r) (l ++ { f with free := true } :: r)
  | shrink (l r : List Frag) (f : Frag) (size : Nat) (hs : s.Shrinks call) (hused : f.free = false)
      (hlt : size < f.size)
      (hqm : s'.qm = { s.qm with
        freeHash := s'.qm.freeHash
        realUsed := wsub (if Splits f.size size then wadd s.qm.realUsed fragOverhead else s.qm.realUsed)
          (wsub (wsub f.size (keptSize f.size size)) fragOverhead)
        used := wsub s.qm.used (wsub f.size (keptSize f.size size)) }) :
      Effect s call s' (l ++ f :: r) (l ++ (splitFrag f size ++ r))
  | join (l r : List Frag) (f n : Frag) (size : Nat) (hs : ¬s.Shrinks call) (hj : s.Joins call)
      (hn : s.nested call = []) (hused : f.free = false) (hfree : n.free = true) (hlt : f.size < size)
      (hle : size ≤ f.size + fragOverhead + n.size)
      (hgrow : s.growth call = if Splits (f.size + fragOverhead + n.size) size then size - f.size else n.size)
      (hqm : s'.qm = { s.qm with
        freeHash := s'.qm.freeHash
        realUsed := joinedReal fragOverhead fMallocOptimize s.qm.realUsed f.size n.size size
        used := wadd s.qm.used (wsub (keptSize (f.size + fragOverhead + n.size) size) f.size) }) :
      Effect s call s' (l ++ f :: n :: r)
        (l ++ (splitFrag { f with size := f.size + fragOverhead + n.size } size ++ r))
  | move (l r l' r' : List Frag) (f g : Frag) (size : Nat) (s₁ : Heap) (hs : ¬s.Shrinks call) (hj : ¬s.Joins call)
      (hn : s.nested call = [s₁]) (hused : f.free = false) (hfree : g.free = true) (hle : size ≤ g.size)
      (hsame : l ++ (splitFrag { g with free := false } size ++ r) = l' ++ f :: r')
      (hreal : s₁.qm.realUsed = (countedQm s.qm g.size size s'.qm.freeHash).realUsed)
      (hqm : s'.qm = { countedQm s.qm g.size size s'.qm.freeHash with
        used := wsub (countedQm s.qm g.size size s'.qm.freeHash).used f.size
        realUsed := wsub (countedQm s.qm g.size size s'.qm.freeHash).realUsed f.size }) :
      Effect s call s' (l ++ g :: r) (l' ++ { f with free := true } :: r')

variable {s s' : Heap} {fs l r : List Frag} {f : Frag} {bk : Nat → List Nat} {live : List Nat} {c c' : Client Heap}
  {call : Call} {p q size : Nat}

/-! ## The pointers of a client -/

theorem ne_zero_of_live (hl : live.Perm (usedPtrs fragOverhead fs)) (hp : p ∈ live) : p ≠ 0 := by
  obtain ⟨l, f, r, -, -, rfl⟩ := exists_of_live hl hp
  simp only [fragOverhead]
  omega

theorem allocator_realloc : ReallocSpec allocator where
  null h size hsize := by
    show h.fmRealloc 0 size = h.fmMalloc size
    rw [fmRealloc, if_neg hsize, if_pos rfl]
  zero h p hp := by
    show h.fmRealloc p 0 = (h.fmFree p).map (·, 0)
    rw [fmRealloc, if_pos rfl, if_pos hp]
  idle h := rfl

theorem plain_call (s : Heap) (call : Call) (h : (∃ size, call.Allocs size) ∨ (∃ p, call.Frees p)) :
    ¬s.Shrinks call ∧ ¬s.Joins call ∧ s.nested call = [] := by
  have hplain : ∀ p size, call = .realloc p size → p = 0 ∨ size = 0 := by
    rintro p size rfl
    rcases h with ⟨_, h, -⟩ | ⟨_, h, -⟩
    · exact .inl h
    · exact .inr h
  have hm : ¬s.Shrinks call ∧ ¬s.Joins call ∧ ¬s.Moves call := by
    cases call with
    | realloc p size =>
      refine ⟨fun hc => ?_, fun hc => ?_, fun hc => ?_⟩ <;> exact (hplain p size rfl).elim hc.1 hc.2.1
    | malloc | free | write => exact ⟨id, id, id⟩
  exact ⟨hm.1, hm.2.1, by rw [nested, if_neg hm.2.2]⟩

/-! ## The calls -/

/-- What `exec_ok` says of a call that leads to the heap `s'` and the pointers `live'`. -/
def Done (s : Heap) (fs : List Frag) (call : Call) (s' : Heap) (live' : List Nat) : Prop :=
  ∃ fs' bk', HeapOk s' fs' bk' ∧ live'.Perm (usedPtrs fragOverhead fs') ∧ Effect s call s' fs fs'

theorem fmMalloc_done (call : Call) (h : HeapOk s fs bk) (hl : live.Perm (usedPtrs fragOverhead fs)) (size : Nat)
    (hs : ¬s.Shrinks call) (hj : ¬s.Joins call) (hn : s.nested call = []) :
    ∃ s' q, s.fmMalloc size = some (s', q) ∧ Done s fs call s' (if q = 0 then live else q :: live) := by
  rcases fmMalloc_ok h size with ⟨he, -⟩ | ⟨l, f, r, s', bk', rfl, hfree, hle, he, hok, hqm, -⟩
  · refine ⟨s, 0, he, fs, bk, h, ?_, .idle fs hs hj (by simp [hn]) rfl⟩
    rwa [if_pos rfl]
  · refine ⟨s', _, he, _, bk', hok, ?_, .take l r f _ hs hj hn hfree hle hqm⟩
    exact usedPtrs_taken _ _ _ hl hfree

theorem fmFree_done (call : Call) (h : HeapOk s fs bk) (hl : live.Perm (usedPtrs fragOverhead fs)) (hp : p ∈ live)
    (hs : ¬s.Shrinks call) (hj : ¬s.Joins call) (hn : s.nested call = []) :
    ∃ s', s.fmFree p = some s' ∧ Done s fs call s' (live.erase p) := by
  obtain ⟨l, f, r, rfl, hused, rfl⟩ := exists_of_live hl hp
  obtain ⟨s', bk', he, hok, hqm, -⟩ := fmFree_ok h hused
  exact ⟨s', he, _, bk', hok, usedPtrs_release hl hused rfl, .release l r f hs hj hn hused hqm⟩

theorem fmRealloc_done (h : HeapOk s fs bk) (hl : live.Perm (usedPtrs fragOverhead fs)) (hp : p ∈ live)
    (hsize : size ≠ 0) : ∃ s' q, s.fmRealloc p size = some (s', q) ∧
      Done s fs (.realloc p size) s' (if q = 0 then live else q :: live.erase p) := by
  have hp0 : p ≠ 0 := ne_zero_of_live hl hp
  have hback : (p :: live.erase p).Perm live := (List.perm_cons_erase hp).symm
  obtain ⟨l, f, r, rfl, hused, rfl⟩ := exists_of_live hl hp
  have hsf : s.fragSize (f.addr + fragOverhead - fragOverhead) = f.size := by
    exact h.size f (by simp)
  rcases fmRealloc_cases h hsize with ⟨hlt, he⟩ | ⟨heq, he⟩ | ⟨hgt, hj, n, r, rfl, hfree, hle, he⟩ | ⟨hgt, hj, he⟩
  · obtain ⟨s', bk', he', hok, hqm, -⟩ := reallocShrink_ok h hused hlt.le (roundto_dvd_roundup size)
    refine ⟨s', _, by rw [he, he', map_some], _, bk', hok, ?_, .shrink l r f _ ?_ hused hlt hqm⟩
    · rw [usedPtrs_splitFrag hused]
      exact hback.trans hl
    · exact ⟨hp0, hsize, hsf ▸ hlt⟩
  · refine ⟨s, _, he, _, bk, h, ?_, .idle _ ?_ ?_ ?_ rfl⟩
    · exact hback.trans hl
    · rintro ⟨-, -, hlt⟩
      omega
    · rintro ⟨-, -, hlt, -⟩
      omega
    · have hm : ¬s.Moves (.realloc (f.addr + fragOverhead) size) := by
        rintro ⟨-, -, hlt, -⟩
        omega
      simp [nested, hm]
  · obtain ⟨s', bk', he', hok, hqm, -⟩ := reallocJoin_ok h hused hfree hle (roundto_dvd_roundup size)
    have hnext : s.fragSize (s.fragNext f.addr) = n.size := by
      rw [fragNext, h.size f (by simp), ← h.tiled.next_addr]
      exact h.size n (by simp)
    have hm : ¬s.Moves (.realloc (f.addr + fragOverhead) size) := by
      rintro ⟨-, -, -, hnj⟩
      exact hnj hj
    refine ⟨s', _, by rw [he, he', map_some], _, bk', hok, ?_,
      .join l r f n _ ?_ ?_ (by simp [nested, hm]) hused hfree hgt hle ?_ hqm⟩
    · exact (hback.trans hl).trans (.of_eq (usedPtrs_joined hused hfree).symm)
    · rintro ⟨-, -, hlt⟩
      omega
    · exact ⟨hp0, hsize, hsf ▸ hgt, by rwa [Nat.add_sub_cancel]⟩
    · rw [growth, Nat.add_sub_cancel, hnext, h.size f (by simp)]
  · have hm : s.Moves (.realloc (f.addr + fragOverhead) size) :=
      ⟨hp0, hsize, hsf ▸ hgt, by rwa [Nat.add_sub_cancel]⟩
    have hs : ¬s.Shrinks (.realloc (f.addr + fragOverhead) size) := by
      rintro ⟨-, -, hlt⟩
      omega
    have hnj : ¬s.Joins (.realloc (f.addr + fragOverhead) size) := by
      rintro ⟨-, -, -, hc⟩
      exact hj hc
    rcases reallocMove_ok h (by simp) hused hgt with ⟨hin, he'⟩ |
      ⟨l₁, g, r₁, l', r', s₁, s', bk', hfs, hfree, hle, hsame, hin, hreal, he', hok, hqm, -⟩
    · refine ⟨s, 0, by rw [he, he'], _, bk, h, ?_, .idle _ hs hnj ?_ rfl⟩
      · rwa [if_pos rfl]
      · simp [nested, hm, asked, hin]
    · have hmem : f ∈ l ++ f :: r := by simp
      have htiled := h.tiled
      rw [hfs] at hl hmem htiled ⊢
      refine ⟨s', _, by rw [he, he'], _, bk', hok, ?_,
        .move l₁ r₁ l' r' f g _ s₁ hs hnj ?_ hused hfree hle hsame hreal hqm⟩
      · exact usedPtrs_moved htiled HeapShape.oh_pos hmem hl hfree hused hsame
      · simp [nested, hm, asked, hin]

theorem write_done (h : HeapOk s fs bk) (hl : live.Perm (usedPtrs fragOverhead fs)) (hp : p ∈ live) {a v : Nat}
    (ha : p ≤ a) (ha' : a < p + s.fragSize (p - fragOverhead)) :
    Done s fs (.write a v) (s.setMem (update s.mem a v)) live := by
  obtain ⟨l, f, r, rfl, -, rfl⟩ := exists_of_live hl hp
  rw [Nat.add_sub_cancel, h.size f (by simp)] at ha'
  have hok := h.writePayload (f := f) (by simp) (update s.mem a v) fun b hb =>
    Function.update_of_ne (by omega) _ _
  exact ⟨_, bk, hok, hl, .idle _ id id (by simp [nested, Heap.Moves]) rfl⟩

/-- **Every valid call** returns, keeps the invariant and has one of the effects. -/
theorem exec_ok (h : HeapOk c.heap fs bk) (hl : c.live.Perm (usedPtrs fragOverhead fs)) (hv : Valid allocator c call) :
    ∃ c', exec allocator c call = some c' ∧ Done c.heap fs call c'.heap c'.live := by
  have hzero : 0 ∉ c.live := fun h0 => ne_zero_of_live hl h0 rfl
  refine exec_done allocator_realloc (Done c.heap fs call) hzero hv ?_ ?_ ?_ ?_ ?_
  · intro size hcall
    obtain ⟨hs, hj, hn⟩ := plain_call c.heap call (.inl ⟨size, hcall⟩)
    exact fmMalloc_done call h hl size hs hj hn
  · intro p hcall hp
    obtain ⟨hs, hj, hn⟩ := plain_call c.heap call (.inr ⟨p, hcall⟩)
    exact fmFree_done call h hl hp hs hj hn
  · rintro p size rfl hp hsize
    exact fmRealloc_done h hl hp hsize
  · rintro a v p rfl hp ha ha'
    exact write_done h hl hp ha ha'
  · rintro rfl
    obtain ⟨hs, hj, hn⟩ := plain_call c.heap (.realloc 0 0) (.inr ⟨0, rfl, rfl⟩)
    exact ⟨fs, bk, h, hl, .idle fs hs hj (by simp [hn]) rfl⟩

/-! ## Runs -/

/-- The fragments can be read off the heap. -/
theorem HeapOk.frags_eq (h : HeapOk s fs bk) (hl : live.Perm (usedPtrs fragOverhead fs)) : s.frags live = fs := by
  refine h.tiled.walkFrags_live HeapShape.oh_pos h.size hl ?_
  have hlen := h.tiled.length_le
  have hext := h.extent
  simp only [fragOverhead] at hlen hext
  omega

/-- The heap and the pointers of the client agree. -/
def ClientOk (c : Client Heap) : Prop :=
  ∃ bk, HeapOk c.heap (c.heap.frags c.live) bk ∧ c.live.Perm (usedPtrs fragOverhead (c.heap.frags c.live))

theorem ClientOk.of_frags (h : HeapOk c.heap fs bk) (hl : c.live.Perm (usedPtrs fragOverhead fs)) : ClientOk c := by
  refine ⟨bk, ?_⟩
  rw [h.frags_eq hl]
  exact ⟨h, hl⟩

theorem fmMallocInit_clientOk {mem : Nat → Nat} {address : Nat} (hsize : size < 2 ^ 64)
    (hi : fmMallocInit mem address size = some s) : ClientOk ⟨s, []⟩ := by
  obtain ⟨f, bk, hfree, hok, -⟩ := fmMallocInit_ok hsize hi
  refine ClientOk.of_frags hok ?_
  rw [usedPtrs_cons_free hfree]
  exact .refl []

/-- Every valid call keeps the invariant of the client. -/
theorem ClientOk.step (h : ClientOk c) (hs : Step allocator c call c') : ClientOk c' := by
  obtain ⟨bk, hok, hl⟩ := h
  obtain ⟨c₁, he, fs', bk', hok', hl', -⟩ := exec_ok hok hl hs.1
  rw [hs.2] at he
  cases he
  exact .of_frags hok' hl'

/-- The invariant of the client, over every run. -/
theorem clientOk_over_runs {mem : Nat → Nat} {address : Nat} {es : List (Call × Client Heap)} (hsize : size < 2 ^ 64)
    (hi : fmMallocInit mem address size = some s) (hrun : Trace (Step allocator) ⟨s, []⟩ es)
    (hc : c = ⟨s, []⟩ ∨ ∃ e ∈ es, c = e.2) : ClientOk c :=
  hrun.reached (fun _ _ _ h hs => h.step hs) (fmMallocInit_clientOk hsize hi) hc

theorem ClientOk.disjoint (h : ClientOk c) (hp : p ∈ c.live) (hq : q ∈ c.live) (hne : p ≠ q) :
    p + allocator.payload c.heap p ≤ q ∨ q + allocator.payload c.heap q ≤ p := by
  obtain ⟨bk, hok, hl⟩ := h
  obtain ⟨f, hf, -, rfl⟩ := mem_usedPtrs.mp (hl.mem_iff.mp hp)
  obtain ⟨g, hg, -, rfl⟩ := mem_usedPtrs.mp (hl.mem_iff.mp hq)
  have hpf : allocator.payload c.heap (f.addr + fragOverhead) = f.size := by
    rw [← hok.size f hf]
    exact congrArg c.heap.fragSize (Nat.add_sub_cancel ..)
  have hpg : allocator.payload c.heap (g.addr + fragOverhead) = g.size := by
    rw [← hok.size g hg]
    exact congrArg c.heap.fragSize (Nat.add_sub_cancel ..)
  have hdis := hok.tiled.disjoint hf hg (fun he => hne (by rw [he]))
  omega

/-- **The heap invariant over every run.** In every state that valid calls lead to from `fm_malloc_init`, the fragments
from `first_frag` on tile the block, each bucket is a chain of exactly the free fragments of its class and knows its
length, large buckets are sorted, no fragment in use is in a bucket, and payloads do not overlap. Every further valid
call returns. -/
theorem heap_over_runs {mem : Nat → Nat} {address : Nat} {es : List (Call × Client Heap)} (hsize : size < 2 ^ 64)
    (hi : Heap.fmMallocInit mem address size = some s) (hrun : Trace (Step allocator) ⟨s, []⟩ es)
    (hc : c = ⟨s, []⟩ ∨ ∃ e ∈ es, c = e.2) :
    (∃ bk, HeapOk c.heap (c.heap.frags c.live) bk ∧
      c.live.Perm (usedPtrs fragOverhead (c.heap.frags c.live)) ∧
      ∀ f ∈ c.heap.frags c.live, f.free = false → ∀ h, f.addr ∉ bk h) ∧
    c.live.Nodup ∧
    (∀ p ∈ c.live, ∀ q ∈ c.live, p ≠ q →
      p + allocator.payload c.heap p ≤ q ∨ q + allocator.payload c.heap q ≤ p) ∧
    ∀ call, Valid allocator c call → ∃ c', Step allocator c call c' := by
  obtain ⟨bk, hheap, hl⟩ := clientOk_over_runs hsize hi hrun hc
  refine ⟨⟨bk, hheap, hl, ?_⟩, ?_, ?_, ?_⟩
  · intro f hf hused h
    exact hheap.not_mem_of_used hf hused h
  · exact hl.nodup_iff.mpr (hheap.tiled.nodup_usedPtrs HeapShape.oh_pos)
  · intro p hp q hq hne
    exact ClientOk.disjoint ⟨bk, hheap, hl⟩ hp hq hne
  · intro call hv
    obtain ⟨c', he, -⟩ := exec_ok hheap hl hv
    exact ⟨c', hv, he⟩

/-- Four fragments. The last one and the second one are freed, the first one grows into the second, and the third one
moves. -/
def fourFrags : List Call :=
  [.malloc 64, .malloc 64, .malloc 64, .malloc 64, .free 33888, .free 33728, .realloc 33648 128, .realloc 33808 200]

/-- Fragments are allocated, freed and resized. -/
theorem smallBlock_over_runs : ∃ s c, Heap.fmMallocInit (fun _ => 0) 0 34672 = some s ∧
    runCalls allocator ⟨s, []⟩ fourFrags = some c ∧ (c.heap.frags c.live).map Frag.size = [144, 64, 64, 200, 488] ∧
    ∃ bk, HeapOk c.heap (c.heap.frags c.live) bk := by
  have hsome : ((fmMallocInit (fun _ => 0) 0 34672).bind fun s => (runCalls allocator ⟨s, []⟩ fourFrags).map fun c =>
      (c.heap.frags c.live).map Frag.size) = some [144, 64, 64, 200, 488] := by decide +kernel
  obtain ⟨s, hi, hrun⟩ := bind_eq_some_iff.mp hsome
  obtain ⟨c, hc, hsizes⟩ := map_eq_some_iff.mp hrun
  obtain ⟨es, htrace, hreach⟩ := runCalls_reached hc
  obtain ⟨⟨bk, hok, -⟩, -⟩ := heap_over_runs (by norm_num) hi htrace hreach
  exact ⟨s, c, hi, hc, hsizes, bk, hok⟩

end OpenSer.Mem.FM
