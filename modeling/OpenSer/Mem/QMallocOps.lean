import OpenSer.Mem.QMallocInv

/-!
# The operations of the quick allocator

Each function of `q_malloc.c` as an edit of the fragment list, with what it does to the counters of the block.

* `splitFrag_ok`, `HeapOk.take`, `HeapOk.joinNext`: the steps.
* `Gathered.behind`, `Gathered.before`: what `qm_free` joins when `QM_JOIN_FREE` is defined.
* `qmMallocInit_ok`, `qmMalloc_ok`, `qmFree_ok`: the calls.
* `reallocShrink_ok`, `reallocJoin_ok`, `reallocMove_ok`, `qmRealloc_cases`: the branches of `qm_realloc`.
-/

namespace OpenSer.Mem.QM

open Option List Function Lib Heap Nat

variable {s s' : Heap} {fs l r : List Frag} {f g n : Frag} {bk : Nat → List Nat} {size k : Nat}

/-- What `split_frag` makes of a fragment in use. -/
abbrev cutFrag (f : Frag) (size : Nat) : List Frag := Mem.splitFrag fragOverhead qmMallocOptimize f size

/-- What a fragment of `fsize` bytes keeps when `size` are asked for. -/
abbrev keptSize (fsize size : Nat) : Nat := Mem.keptSize fragOverhead qmMallocOptimize fsize size

/-! ## Splitting -/

theorem mem_setSize (s : Heap) (a v c : Nat) : (s.setSize a v).mem c = if c = a then v else s.mem c :=
  update_apply ..

theorem mem_setEndSize (s : Heap) (a v c : Nat) : (s.setEndSize a v).mem c = if c = s.fragEnd a then v else s.mem c :=
  update_apply ..

theorem fragEnd_setSize (s : Heap) (a v : Nat) : (s.setSize a v).fragEnd a = a + 16 + v := by
  simp [fragEnd, fragSize, mem_setSize, sizeofQmFrag]

theorem mem_split (s : Heap) (a size rest c : Nat) :
    ((((s.setSize a size).setEndSize a size).setSize (a + 32 + size) rest).setEndSize (a + 32 + size) rest).mem c =
      if c = a + 32 + size + 16 + rest then rest else if c = a + 32 + size then rest
      else if c = a + 16 + size then size else if c = a then size else s.mem c := by
  rw [mem_setEndSize, fragEnd_setSize, mem_setSize, mem_setEndSize, fragEnd_setSize, mem_setSize]

/-- The headers and footers written by a split: a fragment in use is cut in two. -/
theorem HeapShape.split {rest : Nat} (h : HeapShape s (l ++ f :: r) bk) (hu : f.free = false)
    (hs : f.size = size + fragOverhead + rest) (v : Nat)
    (hs' : s' = ((((s.setSize f.addr size).setEndSize f.addr size).setSize (f.addr + 32 + size) rest).setEndSize
      (f.addr + 32 + size) rest).setRealUsed v) :
    HeapShape s' (l ++ { f with size := size } :: ⟨f.addr + fragOverhead + size, rest, false⟩ :: r) bk ∧
      (∀ g ∈ l ++ r, s'.nxtFree g.addr = s.nxtFree g.addr) ∧ s'.nxtFree f.addr = s.nxtFree f.addr := by
  obtain ⟨a, hl, rfl, hr⟩ := tiled_append.mp h.tiled
  have hoh := HeapShape.overhead_eq
  have hmem : ∀ c, s'.mem c = if c = f.addr + 32 + size + 16 + rest then rest else if c = f.addr + 32 + size then rest
      else if c = f.addr + 16 + size then size else if c = f.addr then size else s.mem c := fun c => by
    rw [hs']
    exact mem_split s f.addr size rest c
  have hm : Tiled fragOverhead f.addr [{ f with size := size }, ⟨f.addr + 32 + size, rest, false⟩]
      (f.addr + 32 + f.size) := by
    refine ⟨rfl, by rw [hoh], ?_⟩
    show f.addr + fragOverhead + size + fragOverhead + rest = f.addr + 32 + f.size
    omega
  have hout : ∀ c, c < f.addr ∨ f.addr + 32 + f.size ≤ c → s'.mem c = s.mem c := by
    intro c hc
    rw [hmem, if_neg (by omega), if_neg (by omega), if_neg (by omega), if_neg (by omega)]
  have hfst : s'.fragSize f.addr = size ∧ s'.endSize f.addr = size := by
    have hsz : s'.fragSize f.addr = size := by
      rw [fragSize, hmem, if_neg (by omega), if_neg (by omega), if_neg (by omega), if_pos rfl]
    refine ⟨hsz, ?_⟩
    rw [endSize, fragEnd, hsz, sizeofQmFrag, hmem, if_neg (by omega), if_neg (by omega), if_pos rfl]
  have hsnd : s'.fragSize (f.addr + 32 + size) = rest ∧ s'.endSize (f.addr + 32 + size) = rest := by
    have hsz : s'.fragSize (f.addr + 32 + size) = rest := by rw [fragSize, hmem, if_neg (by omega), if_pos rfl]
    refine ⟨hsz, ?_⟩
    rw [endSize, fragEnd, hsz, sizeofQmFrag, hmem, if_pos rfl]
  have hread : ∀ g ∈ [{ f with size := size }, ⟨f.addr + 32 + size, rest, false⟩],
      s'.fragSize g.addr = g.size ∧ s'.endSize g.addr = g.size :=
    forall_mem_cons.mpr ⟨hfst, forall_mem_singleton.mpr hsnd⟩
  obtain ⟨hshape, hnxt⟩ := h.recut [f] _ hl hm (by rw [hoh]; exact hr) (by simpa using hu) (by simpa using hu)
    (by rw [hs']; rfl) hout hread
  refine ⟨hshape, hnxt, ?_⟩
  rw [nxtFree, hmem, if_neg (by omega), if_neg (by omega), if_neg (by omega), if_neg (by omega), nxtFree]

/-- **`split_frag`**: the rest becomes a free fragment when it is worth it, and only then is 0 returned. -/
theorem splitFrag_ok (h : HeapOk s (l ++ f :: r) bk) (hu : f.free = false) (hle : size ≤ f.size) :
    ∃ s' bk', s.splitFrag f.addr size = some (s', if Splits f.size size then 0 else -1) ∧
      HeapOk s' (l ++ (cutFrag f size ++ r)) bk' ∧ s'.fragSize f.addr = keptSize f.size size ∧
      s'.qm = { s.qm with
        no := s'.qm.no
        realUsed := if Splits f.size size then wadd s.qm.realUsed fragOverhead else s.qm.realUsed } := by
  have hsize := h.size f (by simp)
  unfold Heap.splitFrag cutFrag keptSize Mem.splitFrag Mem.keptSize
  simp only [hsize]
  by_cases hc : Splits f.size size
  · have hroom := hc.le hle
    have hrest : f.size = size + fragOverhead + (f.size - size - fragOverhead) := by omega
    simp only [if_pos hc]
    have hend : ((s.setSize f.addr size).setEndSize f.addr size).fragEnd f.addr = f.addr + 16 + size := by
      rw [fragEnd, fragSize, mem_setEndSize, fragEnd_setSize, if_neg (by omega), mem_setSize, if_pos rfl,
        sizeofQmFrag]
    have hn : ∀ t : Heap, ∀ v, (t.setSize (f.addr + 32 + size) v).fragSize (f.addr + 32 + size) = v := by
      intro t v
      rw [fragSize, mem_setSize, if_pos rfl]
    obtain ⟨hshape, hnxt, hnf⟩ := h.toHeapShape.split hu hrest (wadd s.qm.realUsed fragOverhead) rfl
    have hlist :
        l ++ { f with size := size } :: ⟨f.addr + fragOverhead + size, f.size - size - fragOverhead, false⟩ :: r =
          (l ++ [{ f with size := size }]) ++
            ⟨f.addr + fragOverhead + size, f.size - size - fragOverhead, false⟩ :: r := by
      simp
    rw [hlist] at hshape
    obtain ⟨s', bk', he, hok, hqm, hframe⟩ := qmInsertFree_ok hshape rfl
    have haddr : f.addr + 16 + size + sizeofQmFragEnd = f.addr + 32 + size := by
      simp only [sizeofQmFragEnd]
      omega
    refine ⟨s', bk', ?_, ⟨by simpa using hok, ?_⟩, ?_, ?_⟩
    · rw [hend, haddr, hn]
      exact congrArg (Option.map (·, (0 : Int))) he
    · have htaken : ∀ g ∈ l ++ (cutFrag f size ++ r), g.free = false → s'.nxtFree g.addr = 0 := by
        refine forall_used_splitFrag (s'.nxtFree · = 0) fun g hg hgu => ?_
        rw [← h.taken g hg hgu]
        rcases mem_middle.mp hg with rfl | hg
        · rw [← hnf]
          exact hframe { g with size := size } (by simp) hgu
        · rw [← hnxt g hg]
          exact hframe g (by simp only [mem_append] at hg ⊢; tauto) hgu
      unfold cutFrag Mem.splitFrag at htaken
      rwa [if_pos hc] at htaken
    · exact hok.size { f with size := size } (by simp)
    · rw [hqm]
      rfl
  · simp only [if_neg hc]
    refine ⟨s, bk, rfl, h, hsize, rfl⟩

/-! ## Initialisation -/

theorem initOverhead_eq : initOverhead = 43088 := by decide

theorem initHeads_head (mem : Nat → Nat) (start : Nat) (hk : k < 1075) :
    initHeads mem start (start + 48 + 40 * k) = 0 ∧
      initHeads mem start (start + 48 + 40 * k + 8) = start + 48 + 40 * k ∧
      initHeads mem start (start + 48 + 40 * k + 16 + 8) = start + 48 + 40 * k := by
  have hblock : sizeofQmBlock = 43048 := by decide
  have hoff : freeHashOffset = 48 := rfl
  have hlnk : sizeofQmFragLnk = 40 := rfl
  simp only [initHeads]
  rw [hlnk]
  refine ⟨?_, ?_, ?_⟩
  · rw [if_pos (by omega), if_pos (by omega), if_neg (by omega)]
  · rw [if_pos (by omega), if_pos (by omega), if_pos (by omega)]
    omega
  · rw [if_pos (by omega), if_pos (by omega), if_pos (by omega)]
    omega

theorem initBlock_shape (mem : Nat → Nat) (start : Nat) (hle : size < 2 ^ 64) (hbig : initOverhead ≤ size) :
    HeapShape (initBlock mem start size)
      ([] ++ ⟨start + roundup sizeofQmBlock, size - initOverhead, false⟩ :: []) fun _ => [] := by
  have hblock : roundup sizeofQmBlock = 43056 := by decide
  have hhash : qmHashSize = 1075 := by decide
  rw [initOverhead_eq] at hbig
  have hmem : ∀ c, (initBlock mem start size).mem c = if c = start + size - 16 then size - 43088
      else if c = start + 43056 then size - 43088 else initHeads mem start c := by
    intro c
    rw [← hblock, ← initOverhead_eq]
    simp only [initBlock, update_apply, sizeofQmFragEnd]
  have hhead : ∀ k, (initBlock mem start size).head k = start + 48 + 40 * k := fun k => rfl
  have hqm : (initBlock mem start size).qm.addr = start ∧ (initBlock mem start size).qm.size = size ∧
      (initBlock mem start size).qm.firstFrag = start + 43056 ∧
      (initBlock mem start size).qm.lastFragEnd = start + size - 16 ∧
      ∀ k, (initBlock mem start size).qm.no k = 0 := by
    exact ⟨rfl, rfl, rfl, rfl, fun _ => rfl⟩
  generalize initBlock mem start size = s at hmem hhead hqm
  obtain ⟨h1, h2, h3, h4, h5⟩ := hqm
  have hfst : s.fragSize (start + 43056) = size - 43088 := by
    rw [fragSize, hmem]
    split
    · rfl
    · rw [if_pos rfl]
  have hlst : s.endSize (start + 43056) = size - 43088 := by
    rw [endSize, fragEnd, sizeofQmFrag, hmem, if_pos (by omega)]
  have hcell : ∀ k < 1075, s.fragSize (s.head k) = 0 ∧ s.nxtFree (s.head k) = s.head k ∧
      s.prevFree (s.head k) = s.head k := by
    intro k hk
    obtain ⟨i1, i2, i3⟩ := initHeads_head mem start hk
    rw [hhead]
    have hsz : s.fragSize (start + 48 + 40 * k) = 0 := by
      rw [fragSize, hmem, if_neg (by omega), if_neg (by omega), i1]
    refine ⟨hsz, ?_, ?_⟩
    · rw [nxtFree, hmem, if_neg (by omega), if_neg (by omega), i2]
    · rw [prevFree, fragEnd, hsz, sizeofQmFrag, hmem, if_neg (by omega), if_neg (by omega), i3]
  refine ⟨?_, ?_, ?_, ?_, fun k hk => ?_, fun g hg => ?_, fun g hg => ?_, fun k hk => ?_, fun k => ?_, fun _ => .nil,
    fun k a => ?_, fun _ => .nil⟩
  · rw [h3, h4]
    refine ⟨rfl, ?_⟩
    show start + 43056 + 32 + (size - 43088) = start + size - 16 + sizeofQmFragEnd
    rw [sizeofQmFragEnd]
    omega
  · rw [h3, h1, hblock]
  · rw [sizeofQmFragEnd]
    omega
  · rw [h2]
    exact hle
  · exact (hcell k (hhash ▸ hk)).1
  · rw [mem_singleton.mp hg]
    exact hfst
  · rw [mem_singleton.mp hg]
    exact hlst
  · obtain ⟨-, hn, hp⟩ := hcell k (hhash ▸ hk)
    exact links_cons_cons.mpr ⟨⟨hn, hp⟩, Links.singleton _⟩
  · exact h5 k
  · simp

/-- **`qm_malloc_init`** leaves one free fragment and nothing in use. -/
theorem qmMallocInit_ok {mem : Nat → Nat} {address : Nat} (hsize : size < 2 ^ 64)
    (he : qmMallocInit mem address size = some s) :
    ∃ f bk, f.free = true ∧ HeapOk s [f] bk ∧ s.qm.used = 0 ∧ s.qm.realUsed = initOverhead := by
  obtain ⟨-, he⟩ := ite_none_left_eq_some.mp he
  obtain ⟨-, he⟩ := ite_none_left_eq_some.mp he
  obtain ⟨hbig, he⟩ := ite_none_left_eq_some.mp he
  have hle : rounddown (size - wsub (roundup address) address) < 2 ^ 64 := rounddown_lt (by omega)
  have hshape := initBlock_shape mem (roundup address) hle (not_lt.mp hbig)
  obtain ⟨s', bk, he', hok, hqm, -⟩ := qmInsertFree_ok hshape rfl
  cases he.symm.trans he'
  refine ⟨_, bk, rfl, ⟨hok, ?_⟩, ?_, ?_⟩
  · intro g hg hgu
    rw [mem_singleton.mp hg] at hgu
    cases hgu
  · rw [hqm]
    rfl
  · rw [hqm]
    rfl

/-! ## Allocation -/

/-- **`qm_find_free`** returns a free fragment that is large enough, unless the buckets it searches have none. -/
theorem HeapShape.qmFindFree_eq (h : HeapShape s fs bk) (size : Nat) : ∀ n, n ≤ qmHashSize →
    (s.qmFindFree size n = some none ∧ ∀ k, qmHashSize - n ≤ k → k < qmHashSize → ∀ a ∈ bk k, s.fragSize a < size) ∨
    ∃ hash a, s.qmFindFree size n = some (some (hash, a)) ∧ a ∈ bk hash ∧ size ≤ s.fragSize a
  | 0, _ => .inl ⟨rfl, fun k h1 h2 => by omega⟩
  | n + 1, hn => by
    have hk : qmHashSize - (n + 1) < qmHashSize := by omega
    have hscan := h.scan_ring hk fun g => s.fragSize g ≥ size
    rw [qmFindFree, hscan, bind_eq_bind, bind_some]
    cases hd : (bk (qmHashSize - (n + 1))).dropWhile (fun x => !decide (s.fragSize x ≥ size)) with
    | nil =>
      have hall : ∀ a ∈ bk (qmHashSize - (n + 1)), s.fragSize a < size := by
        intro a ha
        have := dropWhile_eq_nil_iff.mp hd a ha
        simpa using this
      rw [if_neg (by simp)]
      rcases h.qmFindFree_eq size n (by omega) with ⟨he, hnone⟩ | hfound
      · refine .inl ⟨he, fun k h1 h2 => ?_⟩
        by_cases hkn : k = qmHashSize - (n + 1)
        · rw [hkn]
          exact hall
        · exact hnone k (by omega) h2
      · exact .inr hfound
    | cons a post =>
      obtain ⟨ha, hbig⟩ := dropWhile_cons hd
      rw [headD_cons, if_pos (fun he => h.head_not_mem hk (he ▸ ha))]
      exact .inr ⟨_, a, rfl, ha, hbig⟩

/-- A free fragment is taken out of its ring. -/
theorem HeapOk.unlink (h : HeapOk s (l ++ f :: r) bk) (hfree : f.free = true)
    (hs' : s' = ((s.qmDetachFree f.addr).setNxtFree f.addr 0).setNo (getHash f.size)
      (s.qm.no (getHash f.size) - 1)) :
    ∃ bk', HeapOk s' (l ++ { f with free := false } :: r) bk' ∧ s'.qm = { s.qm with no := s'.qm.no } := by
  obtain ⟨bk', hshape, hframe⟩ := h.toHeapShape.detach hfree rfl
  have hf : { f with free := false } ∈ l ++ { f with free := false } :: r := by simp
  obtain ⟨hshape', hnxt⟩ := hshape.setNxt_used hf rfl 0
  have hs : s' = ((s.qmDetachFree f.addr).setNo (getHash f.size) (s.qm.no (getHash f.size) - 1)).setNxtFree f.addr 0 :=
    hs'
  rw [hs]
  refine ⟨bk', ⟨hshape', fun g hg hgu => ?_⟩, rfl⟩
  rw [hnxt g hg]
  rcases mem_middle.mp hg with rfl | hg
  · exact update_self ..
  · rw [update_of_ne (h.tiled.others_ne HeapShape.oh_pos hg), hframe g hg hgu]
    exact h.taken g (mem_middle.mpr (.inr hg)) hgu

theorem HeapOk.recount (h : HeapOk s fs bk) (hmem : s'.mem = s.mem)
    (hqm : s'.qm = { s.qm with used := s'.qm.used, realUsed := s'.qm.realUsed, maxRealUsed := s'.qm.maxRealUsed }) :
    HeapOk s' fs bk := by
  have hread : ∀ x, SameFields s s' x := fun _ =>
    fields_of_mem (congrFun hmem _) (congrFun hmem _) (congrFun hmem _) (congrFun hmem _)
  refine ⟨h.toHeapShape.congr hqm (fun x _ => ⟨(hread x).1, (hread x).2.1⟩) fun k _ w _ => (hread w).2.2,
    fun g hg hgu => ?_⟩
  rw [(hread _).2.2.1]
  exact h.taken g hg hgu

/-- The block's counters after an allocation from a fragment of `fsize` bytes. -/
def countedQm (qm : Block) (fsize size : Nat) (no : Nat → Nat) : Block :=
  let real := takenReal fragOverhead qmMallocOptimize qm.realUsed fsize size
  { qm with
    no := no
    used := wadd qm.used (keptSize fsize size)
    realUsed := real
    maxRealUsed := if qm.maxRealUsed < real then real else qm.maxRealUsed }

/-- **Taking a free fragment**: it leaves its bucket, is marked, split and counted. -/
theorem HeapOk.take (h : HeapOk s (l ++ f :: r) bk) (hfree : f.free = true) (hle : size ≤ f.size)
    (hs' : s' = ((s.qmDetachFree f.addr).setNxtFree f.addr 0).setNo (getHash f.size)
      (s.qm.no (getHash f.size) - 1)) :
    ∃ s'' bk' ret, s'.splitFrag f.addr size = some (s'', ret) ∧
      HeapOk (s''.countAlloc f.addr) (l ++ (cutFrag { f with free := false } size ++ r)) bk' ∧
      (s''.countAlloc f.addr).qm = countedQm s.qm f.size size s''.qm.no := by
  obtain ⟨bk₁, hun, hqm⟩ := h.unlink hfree hs'
  obtain ⟨s'', bk', he, hok, hsz, hqm'⟩ := splitFrag_ok hun rfl hle
  refine ⟨s'', bk', _, he, hok.recount rfl rfl, ?_⟩
  unfold countAlloc countedQm takenReal
  rw [hsz, hqm', hqm]

/-- **`qm_malloc`** returns null and changes nothing, or takes a free fragment that is large enough. It returns null
when the size is over what the counters leave, or when no bucket it searches has a fragment for it. -/
theorem qmMalloc_ok (h : HeapOk s fs bk) (size : Nat) :
    (s.qmMalloc size = some (s, 0) ∧ (wsub s.qm.size s.qm.realUsed < roundup size ∨
      ∀ f ∈ fs, f.free = true → getHash (roundup size) ≤ getHash f.size → f.size < roundup size)) ∨
    ∃ l f r s' bk', fs = l ++ f :: r ∧ f.free = true ∧ roundup size ≤ f.size ∧
      s.qmMalloc size = some (s', f.addr + sizeofQmFrag) ∧
      HeapOk s' (l ++ (cutFrag { f with free := false } (roundup size) ++ r)) bk' ∧
      s'.qm = countedQm s.qm f.size (roundup size) s'.qm.no := by
  unfold qmMalloc
  by_cases hroom : roundup size > wsub s.qm.size s.qm.realUsed
  · rw [if_pos hroom]
    exact .inl ⟨rfl, .inl hroom⟩
  · rw [if_neg hroom]
    rcases h.qmFindFree_eq (roundup size) (qmHashSize - getHash (roundup size)) (sub_le ..) with
      ⟨he, hnone⟩ | ⟨hash, a, he, ha, hbig⟩
    · rw [he]
      refine .inl ⟨rfl, .inr fun f hf hfree hhash => ?_⟩
      have hlt := HeapShape.hash_lt f.size
      have := hnone (getHash f.size) (by omega) hlt f.addr ((h.mem _ _).mpr ⟨f, hf, rfl, hfree, rfl⟩)
      rwa [h.size f hf] at this
    · right
      obtain ⟨f, hf, rfl, hfree, rfl⟩ := (h.mem _ _).mp ha
      rw [h.size f hf] at hbig
      obtain ⟨l, r, rfl⟩ := append_of_mem hf
      obtain ⟨s', bk', ret, he', hok, hqm⟩ := h.take hfree hbig rfl
      refine ⟨l, f, r, _, bk', rfl, hfree, hbig, ?_, hok, hqm⟩
      rw [he, bind_eq_bind, bind_some]
      dsimp only
      have hno : ((s.qmDetachFree f.addr).setNxtFree f.addr 0).qm.no = s.qm.no := rfl
      rw [hno, he', bind_eq_bind, bind_some]

/-! ## Joining -/

theorem mem_resize (s : Heap) (a v real c : Nat) :
    (((s.setSize a v).setRealUsed real).setEndSize a v).mem c =
      if c = a + 16 + v then v else if c = a then v else s.mem c := by
  have hend : ((s.setSize a v).setRealUsed real).fragEnd a = a + 16 + v := fragEnd_setSize s a v
  rw [mem_setEndSize, hend]
  exact if_congr Iff.rfl rfl (mem_setSize s a v c)

/-- The header and the footer written by a join: a stretch of fragments in no bucket becomes one. -/
theorem HeapShape.merge {m : List Frag} {a e : Nat} (h : HeapShape s (l ++ (m ++ r)) bk)
    (hl : Tiled fragOverhead s.qm.firstFrag l a) (hr : Tiled fragOverhead e r (s.qm.lastFragEnd + sizeofQmFragEnd))
    (hsize : a + fragOverhead + size = e) (hu : ∀ g ∈ m, g.free = false) (v : Nat)
    (hs' : s' = ((s.setSize a size).setRealUsed v).setEndSize a size) :
    HeapShape s' (l ++ ⟨a, size, false⟩ :: r) bk ∧ (∀ g ∈ l ++ r, s'.nxtFree g.addr = s.nxtFree g.addr) ∧
      s'.nxtFree a = s.nxtFree a := by
  have hoh := HeapShape.overhead_eq
  have hmem : ∀ c, s'.mem c = if c = a + 16 + size then size else if c = a then size else s.mem c := fun c => by
    rw [hs']
    exact mem_resize ..
  have hout : ∀ c, c < a ∨ e ≤ c → s'.mem c = s.mem c := by
    intro c hc
    rw [hmem, if_neg (by omega), if_neg (by omega)]
  have hsz : s'.fragSize a = size := by
    rw [fragSize, hmem, if_neg (by omega), if_pos rfl]
  have hread : ∀ g ∈ [(⟨a, size, false⟩ : Frag)], s'.fragSize g.addr = g.size ∧ s'.endSize g.addr = g.size := by
    intro g hg
    rw [mem_singleton.mp hg]
    refine ⟨hsz, ?_⟩
    rw [endSize, fragEnd, hsz, sizeofQmFrag, hmem, if_pos rfl]
  have hm : Tiled fragOverhead a [⟨a, size, false⟩] e := ⟨rfl, hsize⟩
  obtain ⟨hshape, hnxt⟩ := h.recut m _ hl hm hr hu (by simp) (by rw [hs']; rfl) hout hread
  refine ⟨hshape, hnxt, ?_⟩
  rw [nxtFree, hmem, if_neg (by omega), if_neg (by omega), nxtFree]

/-- **Free neighbours become one fragment**, each time with one overhead less in `real_used`. -/
inductive Joins (fs : List Frag) (real : Nat) : List Frag → Nat → Prop where
  | refl : Joins fs real fs real
  | join {l r : List Frag} {f n : Frag} {real' : Nat} (h : Joins fs real (l ++ f :: n :: r) real') (hf : f.free = true)
      (hn : n.free = true) :
      Joins fs real (l ++ ⟨f.addr, f.size + fragOverhead + n.size, true⟩ :: r) (wsub real' fragOverhead)

namespace Joins

variable {fs' : List Frag} {real real' : Nat}

theorem usedPtrs_eq (h : Joins fs real fs' real') (p : Nat) : usedPtrs p fs' = usedPtrs p fs := by
  induction h with
  | refl => rfl
  | join _ hf hn ih =>
    rw [← ih]
    simp only [usedPtrs_append, usedPtrs_cons_free hf, usedPtrs_cons_free hn, usedPtrs_cons_free]

theorem mem_used (h : Joins fs real fs' real') (hg : g ∈ fs) (hu : g.free = false) : g ∈ fs' := by
  induction h with
  | refl => exact hg
  | join _ hf hn ih =>
    -- neither of the two that are joined is in use
    have hne : ∀ x : Frag, x.free = true → g ≠ x := by
      rintro x hx rfl
      rw [hx] at hu
      cases hu
    simp only [mem_append, mem_cons, hne _ hf, hne _ hn, false_or] at ih ⊢
    exact ih.imp_right .inr

/-- Right counters stay right: what `real_used` loses the free fragments gain. -/
theorem sums {used total : Nat} (h : Joins fs real fs' real') (hsums : Sums used real total fs)
    (hle : freeSize fs' ≤ total) (htotal : total < 2 ^ 64) : Sums used real' total fs' := by
  induction h with
  | refl => exact hsums
  | @join l r f n real' _ hf hn ih =>
    simp only [Sums, usedSize_append, freeSize_append, usedSize_cons, freeSize_cons, hf, hn, if_true] at hle ih ⊢
    obtain ⟨hused, hreal⟩ := ih (by omega)
    rw [wsub_of_le (by omega) (by omega)]
    omega

end Joins

theorem setRealUsed_setNo (s : Heap) (real hash v : Nat) :
    (s.setRealUsed real).setNo hash v = (s.setNo hash v).setRealUsed real := rfl

theorem nxtFree_setRealUsed (s : Heap) (real a : Nat) : (s.setRealUsed real).nxtFree a = s.nxtFree a := rfl

theorem HeapShape.setRealUsed (h : HeapShape s fs bk) (real : Nat) : HeapShape (s.setRealUsed real) fs bk :=
  h.congr rfl (fun _ _ => ⟨rfl, rfl⟩) fun _ _ _ _ => ⟨rfl, rfl⟩

theorem joinFrag_eq {b : Nat} (hb : (s.qmDetachFree b).fragSize b = k) (size : Nat) :
    s.joinFrag b size = (((s.qmDetachFree b).setNo (getHash k) (s.qm.no (getHash k) - 1)).setRealUsed
      (wsub s.qm.realUsed fragOverhead), size + (k + fragOverhead)) := by
  have hset : ∀ v, ((s.qmDetachFree b).setRealUsed v).fragSize b = k := fun _ => hb
  have hno : ∀ v, ((s.qmDetachFree b).setRealUsed v).qm.no = s.qm.no := fun _ => rfl
  have hreal : (s.qmDetachFree b).qm.realUsed = s.qm.realUsed := rfl
  unfold Heap.joinFrag
  dsimp only
  rw [hset, hb, hno, hreal, setRealUsed_setNo]

/-- **"join"**: a free fragment leaves its bucket. -/
theorem HeapShape.joinFrag (h : HeapShape s (l ++ n :: r) bk) (hfree : n.free = true) (size : Nat) :
    ∃ s' bk', s.joinFrag n.addr size = (s', size + (n.size + fragOverhead)) ∧
      HeapShape s' (l ++ { n with free := false } :: r) bk' ∧
      s'.qm = { s.qm with no := s'.qm.no, realUsed := wsub s.qm.realUsed fragOverhead } ∧
      ∀ g ∈ l ++ r, g.free = false → s'.nxtFree g.addr = s.nxtFree g.addr := by
  obtain ⟨bk', hdet, hframe⟩ := h.detach hfree rfl
  have hsize : (s.qmDetachFree n.addr).fragSize n.addr = n.size := hdet.size { n with free := false } (by simp)
  refine ⟨_, bk', joinFrag_eq hsize size, hdet.setRealUsed _, ?_, fun g hg hgu => ?_⟩
  · generalize wsub s.qm.realUsed fragOverhead = real
    rfl
  · rw [nxtFree_setRealUsed]
    exact hframe g hg hgu

/-- **On the way through `qm_free`**: the fragments of `mid`, a stretch of `size` bytes at `a`, are in no bucket, and
all others are as they were. -/
structure Gathered (fs : List Frag) (s₀ s : Heap) (pre mid post : List Frag) (a size : Nat) : Prop where
  shape : ∃ bk, HeapShape s (pre ++ (mid ++ post)) bk
  front : Tiled fragOverhead s.qm.firstFrag pre a
  stretch : Tiled fragOverhead a mid (a + fragOverhead + size)
  back : Tiled fragOverhead (a + fragOverhead + size) post (s.qm.lastFragEnd + sizeofQmFragEnd)
  used : ∀ g ∈ mid, g.free = false
  taken : ∀ g ∈ pre ++ post, g.free = false → s.nxtFree g.addr = 0
  joins : Joins fs s₀.qm.realUsed (pre ++ ⟨a, size, true⟩ :: post) s.qm.realUsed
  qm : s.qm = { s₀.qm with no := s.qm.no, realUsed := s.qm.realUsed }

namespace Gathered

variable {s₀ : Heap} {pre mid post : List Frag} {a : Nat}

theorem start (h : HeapOk s (l ++ f :: r) bk) (hu : f.free = false) :
    Gathered (l ++ { f with free := true } :: r) s s l [f] r f.addr f.size := by
  obtain ⟨m, hl, rfl, hr⟩ := tiled_append.mp h.tiled
  refine ⟨⟨bk, h.toHeapShape⟩, hl, ⟨rfl, rfl⟩, hr, by simpa using hu, fun g hg => ?_, .refl, rfl⟩
  exact h.taken g (mem_middle.mpr (.inr hg))

theorem behind (h : Gathered fs s₀ s pre mid (n :: post) a size) (hfree : n.free = true) :
    ∃ s', s.joinFrag n.addr size = (s', size + (n.size + fragOverhead)) ∧
      Gathered fs s₀ s' pre (mid ++ [{ n with free := false }]) post a (size + (n.size + fragOverhead)) := by
  obtain ⟨bk, hshape⟩ := h.shape
  have hlist : ∀ x : Frag, pre ++ (mid ++ x :: post) = (pre ++ mid) ++ x :: post := fun x => by simp
  rw [hlist] at hshape
  obtain ⟨s', bk', he, hshape', hqm, hframe⟩ := hshape.joinFrag hfree size
  obtain ⟨haddr, hback⟩ := h.back
  have hfirst : s'.qm.firstFrag = s.qm.firstFrag := by rw [hqm]
  have hlast : s'.qm.lastFragEnd = s.qm.lastFragEnd := by rw [hqm]
  have hreal : s'.qm.realUsed = wsub s.qm.realUsed fragOverhead := by rw [hqm]
  have hend : a + fragOverhead + (size + (n.size + fragOverhead)) = a + fragOverhead + size +
      fragOverhead + n.size := by
    omega
  refine ⟨s', he, ⟨bk', by simpa using hshape'⟩, hfirst ▸ h.front, ?_, ?_, ?_, fun g hg hgu => ?_, ?_, ?_⟩
  · exact tiled_append.mpr ⟨_, h.stretch, haddr, hend.symm⟩
  · rw [hlast, hend]
    exact hback
  · exact forall_mem_append.mpr ⟨h.used, by simp⟩
  · rw [hframe g (by simp only [mem_append] at hg ⊢; tauto) hgu]
    exact h.taken g (by simp only [mem_append, mem_cons] at hg ⊢; tauto) hgu
  · have hjoin := h.joins.join rfl hfree
    have hsize : size + fragOverhead + n.size = size + (n.size + fragOverhead) := by omega
    rw [hreal]
    rwa [hsize] at hjoin
  · rw [hqm, h.qm]

theorem before {p : Frag} (h : Gathered fs s₀ s (pre ++ [p]) mid post a size) (hfree : p.free = true) :
    ∃ s', s.joinFrag p.addr size = (s', size + (p.size + fragOverhead)) ∧
      Gathered fs s₀ s' pre ({ p with free := false } :: mid) post p.addr (size + (p.size + fragOverhead)) := by
  obtain ⟨bk, hshape⟩ := h.shape
  have hlist : ∀ x : Frag, (pre ++ [x]) ++ (mid ++ post) = pre ++ x :: (mid ++ post) := fun x => by simp
  rw [hlist] at hshape
  obtain ⟨s', bk', he, hshape', hqm, hframe⟩ := hshape.joinFrag hfree size
  obtain ⟨m, hfront, rfl, hend⟩ := tiled_append.mp h.front
  have hend : p.addr + fragOverhead + p.size = a := hend
  have hfirst : s'.qm.firstFrag = s.qm.firstFrag := by rw [hqm]
  have hlast : s'.qm.lastFragEnd = s.qm.lastFragEnd := by rw [hqm]
  have hreal : s'.qm.realUsed = wsub s.qm.realUsed fragOverhead := by rw [hqm]
  have hstop : p.addr + fragOverhead + (size + (p.size + fragOverhead)) = a + fragOverhead + size := by omega
  refine ⟨s', he, ⟨bk', hshape'⟩, hfirst ▸ hfront, ?_, ?_, ?_, fun g hg hgu => ?_, ?_, ?_⟩
  · rw [hstop]
    exact ⟨rfl, hend ▸ h.stretch⟩
  · rw [hlast, hstop]
    exact h.back
  · exact forall_mem_cons.mpr ⟨rfl, h.used⟩
  · rw [hframe g (by simp only [mem_append] at hg ⊢; tauto) hgu]
    exact h.taken g (by simp only [mem_append, mem_cons] at hg ⊢; tauto) hgu
  · have hjoins := h.joins
    rw [append_assoc, singleton_append] at hjoins
    have hjoin := hjoins.join hfree rfl
    have hsize : p.size + fragOverhead + size = size + (p.size + fragOverhead) := by omega
    rw [hreal]
    rwa [hsize] at hjoin
  · rw [hqm, h.qm]

theorem free_of_ne_zero (h : Gathered fs s₀ s pre mid post a size) (hg : g ∈ pre ++ post)
    (hnxt : s.nxtFree g.addr ≠ 0) : g.free = true := by
  cases hfree : g.free with
  | true => rfl
  | false => exact absurd (h.taken g hg hfree) hnxt

/-- Joining with the fragment behind. -/
theorem joinBehind (h : HeapOk s (l ++ f :: r) bk) (hu : f.free = false) :
    ∃ s' mid r' size', s.joinBehind f.addr f.size = (s', size') ∧
      Gathered (l ++ { f with free := true } :: r) s s' l mid r' f.addr size' := by
  have hstart := start h hu
  have hnext : s.fragNext f.addr = f.addr + fragOverhead + f.size := by
    rw [fragNext, h.size f (by simp), HeapShape.overhead_eq]
    simp only [sizeofQmFrag, sizeofQmFragEnd]
    omega
  unfold Heap.joinBehind
  dsimp only
  rw [hnext]
  split
  · rename_i hc
    obtain ⟨hlast, hnxt⟩ := hc
    cases r with
    | nil =>
      have hend := h.tiled.last_end
      rw [HeapShape.overhead_eq] at hend hlast
      simp only [sizeofQmFragEnd] at hend
      omega
    | cons n r =>
      rw [← h.tiled.next_addr] at hnxt ⊢
      obtain ⟨s', he, hg⟩ := hstart.behind (hstart.free_of_ne_zero (by simp) hnxt)
      exact ⟨s', _, r, _, he, hg⟩
  · exact ⟨s, [f], r, _, rfl, hstart⟩

/-- Joining with the fragment in front. -/
theorem joinBefore (h : Gathered fs s₀ s pre mid post a size) :
    ∃ s' a' size' pre' mid', s.joinBefore a size = (s', a', size') ∧
      Gathered fs s₀ s' pre' mid' post a' size' := by
  unfold Heap.joinBefore
  dsimp only
  split
  · rename_i hgt
    rcases eq_nil_or_concat pre with rfl | ⟨pre, p, rfl⟩
    · have hfront : s.qm.firstFrag = a := h.front
      omega
    · rw [concat_eq_append] at h
      have hprev : s.fragPrev a = p.addr := by
        obtain ⟨bk, hshape⟩ := h.shape
        have hend := h.front.last_end
        have hsize := hshape.size p (by simp)
        have hfoot : s.mem (p.addr + sizeofQmFrag + s.fragSize p.addr) = p.size := hshape.foot p (by simp)
        rw [HeapShape.overhead_eq] at hend
        have hat : a - sizeofQmFragEnd = p.addr + sizeofQmFrag + s.fragSize p.addr := by
          rw [hsize]
          simp only [sizeofQmFrag, sizeofQmFragEnd]
          omega
        rw [fragPrev, hat, hfoot, hsize]
        simp only [sizeofQmFrag]
        omega
      rw [hprev]
      split
      · rename_i hnxt
        obtain ⟨s', he, hg⟩ := h.before (h.free_of_ne_zero (by simp) hnxt)
        rw [he]
        exact ⟨s', _, _, pre, _, rfl, hg⟩
      · exact ⟨s, a, size, _, mid, rfl, h⟩
  · exact ⟨s, a, size, pre, mid, rfl, h⟩

end Gathered

/-! ## Release -/

/-- **"join packets if possible"**: the freed fragment and its free neighbours become one, in no bucket. -/
theorem joinPackets_ok (h : HeapOk s (l ++ f :: r) bk) (hu : f.free = false) :
    ∃ s' a size pre post bk', s.joinPackets f.addr = (s', a) ∧ HeapShape s' (pre ++ ⟨a, size, false⟩ :: post) bk' ∧
      (∀ g ∈ pre ++ post, g.free = false → s'.nxtFree g.addr = 0) ∧
      Joins (l ++ { f with free := true } :: r) s.qm.realUsed (pre ++ ⟨a, size, true⟩ :: post) s'.qm.realUsed ∧
      s'.qm = { s.qm with no := s'.qm.no, realUsed := s'.qm.realUsed } := by
  obtain ⟨s₁, mid₁, r', size₁, he₁, hg₁⟩ := Gathered.joinBehind h hu
  obtain ⟨s₂, a, size, pre, mid, he₂, hg⟩ := hg₁.joinBefore
  obtain ⟨bk', hshape⟩ := hg.shape
  obtain ⟨hmerged, hnxt, -⟩ := hshape.merge hg.front hg.back rfl hg.used s₂.qm.realUsed rfl
  refine ⟨_, a, size, pre, r', bk', ?_, hmerged, fun g hgm hgu => ?_, hg.joins, hg.qm⟩
  · unfold Heap.joinPackets
    dsimp only
    rw [h.size f (by simp), he₁]
    dsimp only
    rw [he₂]
    have hset : (s₂.setSize a size).fragSize a = size := (mem_setSize s₂ a size a).trans (if_pos rfl)
    dsimp only
    rw [hset]
    rfl
  · rw [hnxt g hgm]
    exact hg.taken g hgm hgu

/-- **`qm_free`** puts the fragment back into its bucket, joined with its free neighbours or not. -/
theorem qmFree_ok (joinFree : Bool) (h : HeapOk s (l ++ f :: r) bk) (hu : f.free = false) :
    ∃ s' fs' bk', s.qmFree joinFree (f.addr + sizeofQmFrag) = some s' ∧ HeapOk s' fs' bk' ∧
      Joins (l ++ { f with free := true } :: r) (wsub s.qm.realUsed f.size) fs' s'.qm.realUsed ∧
      s'.qm = { s.qm with
        no := s'.qm.no
        used := wsub s.qm.used f.size
        realUsed := s'.qm.realUsed } := by
  have hsize := h.size f (by simp)
  have hok : HeapOk ((s.setUsed (wsub s.qm.used f.size)).setRealUsed (wsub s.qm.realUsed f.size)) (l ++ f :: r) bk :=
    h.recount rfl rfl
  -- the fragment that is inserted, and the heap then
  obtain ⟨s₁, a, size, pre, post, bk₁, he₁, hshape₁, htaken₁, hjoins, hqm₁⟩ : ∃ s₁ a size pre post bk₁,
      (if joinFree then ((s.setUsed (wsub s.qm.used f.size)).setRealUsed (wsub s.qm.realUsed f.size)).joinPackets f.addr
        else ((s.setUsed (wsub s.qm.used f.size)).setRealUsed (wsub s.qm.realUsed f.size), f.addr)) = (s₁, a) ∧
      HeapShape s₁ (pre ++ ⟨a, size, false⟩ :: post) bk₁ ∧
      (∀ g ∈ pre ++ post, g.free = false → s₁.nxtFree g.addr = 0) ∧
      Joins (l ++ { f with free := true } :: r) (wsub s.qm.realUsed f.size) (pre ++ ⟨a, size, true⟩ :: post)
        s₁.qm.realUsed ∧
      s₁.qm = { s.qm with no := s₁.qm.no, used := wsub s.qm.used f.size, realUsed := s₁.qm.realUsed } := by
    cases joinFree with
    | true => exact joinPackets_ok hok hu
    | false =>
      refine ⟨_, f.addr, f.size, l, r, bk, rfl, ?_, fun g hg => hok.taken g (mem_middle.mpr (.inr hg)), .refl, rfl⟩
      rw [← hu]
      exact hok.toHeapShape
  obtain ⟨s', bk', he, hshape, hqm, hframe⟩ := qmInsertFree_ok hshape₁ rfl
  have hreal : s'.qm.realUsed = s₁.qm.realUsed := by rw [hqm]
  refine ⟨s', _, bk', ?_, ⟨hshape, fun g hg hgu => ?_⟩, hreal ▸ hjoins, ?_⟩
  · rw [qmFree]
    dsimp only
    rw [if_neg (by simp only [sizeofQmFrag]; omega), Nat.add_sub_cancel, hsize]
    have hqm₀ : (s.setUsed (wsub s.qm.used f.size)).qm.realUsed = s.qm.realUsed := rfl
    rw [hqm₀, he₁]
    exact he
  · rcases mem_middle.mp hg with rfl | hg
    · cases hgu
    · rw [hframe g hg hgu]
      exact htaken₁ g hg hgu
  · rw [hqm, hqm₁]

/-! ## Resizing -/

theorem qm_countShrink (s : Heap) (a origSize : Nat) :
    (s.countShrink a origSize).qm = { s.qm with
      realUsed := wsub s.qm.realUsed (wsub (wsub origSize (s.fragSize a)) fragOverhead)
      used := wsub s.qm.used (wsub origSize (s.fragSize a)) } := rfl

/-- **Shrinking**: the counters are left as `split_frag` leaves them when it splits, and changed when it does not. -/
theorem reallocShrink_ok (h : HeapOk s (l ++ f :: r) bk) (hu : f.free = false) (hle : size ≤ f.size) :
    ∃ s' bk', s.reallocShrink f.addr size = some s' ∧ HeapOk s' (l ++ (cutFrag f size ++ r)) bk' ∧
      s'.qm = { s.qm with
        no := s'.qm.no
        realUsed := if Splits f.size size then wadd s.qm.realUsed fragOverhead
          else wsub s.qm.realUsed (wsub (wsub f.size f.size) fragOverhead)
        used := if Splits f.size size then s.qm.used else wsub s.qm.used (wsub f.size f.size) } := by
  obtain ⟨s', bk', he, hok, hsz, hqm⟩ := splitFrag_ok h hu hle
  have hrun : s.reallocShrink f.addr size = some (if Splits f.size size then s' else s'.countShrink f.addr f.size) := by
    unfold reallocShrink
    rw [he, h.size f (by simp)]
    by_cases hc : Splits f.size size
    · simp [hc]
    · simp [hc]
  by_cases hc : Splits f.size size
  · simp only [if_pos hc] at hrun hqm ⊢
    exact ⟨s', bk', hrun, hok, hqm⟩
  · simp only [if_neg hc] at hrun hqm ⊢
    unfold keptSize Mem.keptSize at hsz
    rw [if_neg hc] at hsz
    refine ⟨_, bk', hrun, hok.recount rfl (qm_countShrink s' f.addr f.size), ?_⟩
    rw [qm_countShrink, hsz, hqm]

theorem joinNext_eq {a b m : Nat} (ha : (s.qmDetachFree b).fragSize a = m) (hb : (s.qmDetachFree b).fragSize b = k) :
    s.joinNext a b = ((((s.qmDetachFree b).setNo (getHash k) (s.qm.no (getHash k) - 1)).setSize a
      (m + fragOverhead + k)).setRealUsed (wsub s.qm.realUsed fragOverhead)).setEndSize a (m + fragOverhead + k) := by
  have hset : ∀ (t : Heap) v w, ((t.setSize a v).setRealUsed w).fragSize a = v := fun t v _ =>
    (mem_setSize t a v a).trans (if_pos rfl)
  subst ha hb
  unfold Heap.joinNext
  dsimp only
  rw [hset, add_assoc, add_comm fragOverhead]
  rfl

/-- **Joining**: a fragment in use takes over the free one behind it. -/
theorem HeapOk.joinNext (h : HeapOk s (l ++ f :: n :: r) bk) (hu : f.free = false) (hfree : n.free = true) :
    ∃ bk', HeapOk (s.joinNext f.addr n.addr) (l ++ { f with size := f.size + fragOverhead + n.size } :: r) bk' ∧
      (s.joinNext f.addr n.addr).qm = { s.qm with
        no := (s.joinNext f.addr n.addr).qm.no
        realUsed := wsub s.qm.realUsed fragOverhead } := by
  have hlist : ∀ m : Frag, l ++ f :: m :: r = (l ++ [f]) ++ m :: r := fun m => by simp
  have h' : HeapShape s ((l ++ [f]) ++ n :: r) bk := hlist n ▸ h.toHeapShape
  obtain ⟨bk', hdet, hframe⟩ := h'.detach hfree rfl
  rw [← hlist] at hdet
  rw [joinNext_eq (hdet.size f (by simp)) (hdet.size { n with free := false } (by simp))]
  obtain ⟨m, hl, rfl, hn, hr⟩ := tiled_append.mp hdet.tiled
  obtain ⟨hshape, hnxt, hnf⟩ := HeapShape.merge (m := [f, { n with free := false }]) hdet hl hr
    (show f.addr + fragOverhead + (f.size + fragOverhead + n.size) = _ by dsimp only; omega) (by simpa using hu)
    (wsub s.qm.realUsed fragOverhead) rfl
  rw [← hu] at hshape
  refine ⟨bk', ⟨hshape, fun g hg hgu => ?_⟩, rfl⟩
  rcases mem_middle.mp hg with rfl | hg
  · rw [hnf, hframe f (by simp) hu]
    exact h.taken f (by simp) hu
  · rw [hnxt g hg, hframe g (by simp only [mem_append] at hg ⊢; tauto) hgu]
    exact h.taken g (by simp only [mem_append, mem_cons] at hg ⊢; tauto) hgu

/-- "split it if necessary": without a surplus the split would do nothing. -/
theorem HeapShape.trim_eq (h : HeapShape s (l ++ f :: r) bk) (size : Nat) :
    s.trim f.addr size = (s.splitFrag f.addr size).map Prod.fst := by
  have hsize := h.size f (by simp)
  unfold Heap.trim
  rw [hsize]
  by_cases hlt : f.size > size
  · rw [if_pos hlt]
  · have hc : ¬Splits f.size size := by
      have hoh := HeapShape.overhead_eq
      unfold Splits Mem.Splits
      omega
    rw [if_neg hlt, Heap.splitFrag, hsize, if_neg hc]
    rfl

/-- **Growing in place.** -/
theorem reallocJoin_ok (h : HeapOk s (l ++ f :: n :: r) bk) (hu : f.free = false) (hfree : n.free = true)
    (hle : size ≤ f.size + fragOverhead + n.size) :
    ∃ s' bk', s.reallocJoin f.addr n.addr size = some s' ∧
      HeapOk s' (l ++ (cutFrag { f with size := f.size + fragOverhead + n.size } size ++ r)) bk' ∧
      s'.qm = { s.qm with
        no := s'.qm.no
        realUsed := joinedReal fragOverhead qmMallocOptimize s.qm.realUsed f.size n.size size
        used := wadd s.qm.used (wsub (keptSize (f.size + fragOverhead + n.size) size) f.size) } := by
  obtain ⟨bk₁, hok, hqm⟩ := h.joinNext hu hfree
  obtain ⟨s', bk', he, hok', hsz, hqm'⟩ := splitFrag_ok hok hu hle
  refine ⟨s'.countGrow f.addr f.size, bk', ?_, hok'.recount rfl rfl, ?_⟩
  · unfold reallocJoin
    rw [hok.trim_eq, he, map_some, bind_eq_bind, bind_some, h.size f (by simp)]
  · unfold countGrow joinedReal
    rw [hsz, hqm', hqm]

/-- Writing into a payload keeps the heap. -/
theorem HeapOk.writePayload (h : HeapOk s fs bk) (hf : f ∈ fs) (mem : Nat → Nat)
    (hmem : ∀ a, (a < f.addr + 16 ∨ f.addr + 16 + f.size ≤ a) → mem a = s.mem a) : HeapOk (s.setMem mem) fs bk := by
  have hread : ∀ x, Node s fs x → SameFields s (s.setMem mem) x := by
    intro x hx
    have hsf : s.mem f.addr = f.size := h.size f hf
    have hout : ∀ c, (c = x ∨ c = x + 8 ∨ c = x + 16 + s.mem x ∨ c = x + 16 + s.mem x + 8) → mem c = s.mem c := by
      intro c hc
      apply hmem
      by_cases he : x = f.addr
      · subst he
        omega
      · have hap := h.apart x f.addr hx (.inr ⟨f, hf, rfl⟩) he
        simp only [fragSize] at hap
        omega
    exact fields_of_mem (hout _ (by simp)) (hout _ (by simp)) (hout _ (by simp)) (hout _ (by simp))
  refine ⟨h.toHeapShape.congr rfl (fun x hx => ⟨(hread x hx).1, (hread x hx).2.1⟩) fun k hk w hw => ?_,
    fun g hg hgu => ?_⟩
  · exact (hread w (h.node_of_ring hk hw)).2.2
  · rw [(hread _ (.inr ⟨g, hg, rfl⟩)).2.2.1]
    exact h.taken g hg hgu

/-- **Growing by moving**: nothing happens when `qm_malloc` refuses; else the payload is copied into a new fragment and
the old one is freed. -/
theorem reallocMove_ok (joinFree : Bool) (h : HeapOk s fs bk) (hf : f ∈ fs) (hu : f.free = false)
    (hlt : f.size < roundup size) : s.reallocMove joinFree (f.addr + sizeofQmFrag) f.size (roundup size) = some (s, 0) ∨
    ∃ l g r l' r' s' fs' bk', fs = l ++ g :: r ∧ g.free = true ∧ roundup size ≤ g.size ∧
      l ++ (cutFrag { g with free := false } (roundup size) ++ r) = l' ++ f :: r' ∧
      s.reallocMove joinFree (f.addr + sizeofQmFrag) f.size (roundup size) = some (s', g.addr + sizeofQmFrag) ∧
      HeapOk s' fs' bk' ∧
      Joins (l' ++ { f with free := true } :: r')
        (wsub (countedQm s.qm g.size (roundup size) s'.qm.no).realUsed f.size) fs' s'.qm.realUsed ∧
      s'.qm = { countedQm s.qm g.size (roundup size) s'.qm.no with
        used := wsub (countedQm s.qm g.size (roundup size) s'.qm.no).used f.size
        realUsed := s'.qm.realUsed } := by
  have hround : roundup (roundup size) = roundup size := by
    unfold roundup Mem.roundup roundto
    omega
  rcases qmMalloc_ok h (roundup size) with ⟨he, -⟩ | ⟨l, g, r, s₁, bk₁, rfl, hfree, hle, he, hok, hqm⟩
  · left
    unfold reallocMove
    rw [he]
    rfl
  · right
    rw [hround] at hle hok hqm
    -- the old fragment is still there
    have hne := mem_others_of_used hf hu hfree
    have hf₁ : f ∈ l ++ (cutFrag { g with free := false } (roundup size) ++ r) := mem_outer.mpr (.inr hne)
    have hg₁ : { g with size := keptSize g.size (roundup size), free := false } ∈
        l ++ (cutFrag { g with free := false } (roundup size) ++ r) := mem_splitFrag
    have hkept : f.size ≤ keptSize g.size (roundup size) := hlt.le.trans (le_keptSize hle)
    have hcopy := hok.writePayload hg₁
      (memcpy s₁.mem (g.addr + sizeofQmFrag) (f.addr + sizeofQmFrag) (f.size / 8)) fun a ha => by
        unfold memcpy
        dsimp only at ha
        rw [if_neg (by simp only [sizeofQmFrag]; omega)]
    obtain ⟨l', r', hlist⟩ := append_of_mem hf₁
    rw [hlist] at hcopy
    obtain ⟨s', fs', bk', he', hok', hjoins, hqm'⟩ := qmFree_ok joinFree hcopy hu
    have hset : ∀ m, (s₁.setMem m).qm = s₁.qm := fun _ => rfl
    rw [hset, hqm] at hjoins hqm'
    refine ⟨l, g, r, l', r', s', fs', bk', rfl, hfree, hle, hlist, ?_, hok', hjoins, hqm'⟩
    · unfold reallocMove
      rw [he, bind_eq_bind, bind_some]
      dsimp only
      rw [if_pos (by simp only [sizeofQmFrag]; omega), he', map_some]

/-- **The branches of `qm_realloc`** on a fragment of the heap. When the code decides to join, the fragment behind is
there and is free. -/
theorem qmRealloc_cases (joinFree : Bool) (h : HeapOk s (l ++ f :: r) bk) (hsize : size ≠ 0) :
    (roundup size < f.size ∧ s.qmRealloc joinFree (f.addr + sizeofQmFrag) size =
      (s.reallocShrink f.addr (roundup size)).map (·, f.addr + sizeofQmFrag)) ∨
    (roundup size = f.size ∧ s.qmRealloc joinFree (f.addr + sizeofQmFrag) size = some (s, f.addr + sizeofQmFrag)) ∨
    (f.size < roundup size ∧ ∃ n r', r = n :: r' ∧ n.free = true ∧
      roundup size ≤ f.size + fragOverhead + n.size ∧ s.qmRealloc joinFree (f.addr + sizeofQmFrag) size =
        (s.reallocJoin f.addr n.addr (roundup size)).map (·, f.addr + sizeofQmFrag)) ∨
    (f.size < roundup size ∧ s.qmRealloc joinFree (f.addr + sizeofQmFrag) size =
      s.reallocMove joinFree (f.addr + sizeofQmFrag) f.size (roundup size)) := by
  have hsf := h.size f (by simp)
  have hoh := HeapShape.overhead_eq
  have hp : ¬f.addr + sizeofQmFrag = 0 := by simp only [sizeofQmFrag]; omega
  unfold qmRealloc
  rw [if_neg hsize, if_neg hp]
  simp only [Nat.add_sub_cancel, hsf]
  rcases lt_trichotomy (roundup size) f.size with hlt | heq | hgt
  · exact .inl ⟨hlt, if_pos hlt⟩
  · exact .inr (.inl ⟨heq, by rw [if_neg (by omega), if_neg (by omega)]⟩)
  · rw [if_neg (by omega), if_pos hgt]
    by_cases hj : s.CanJoin f.addr (roundup size)
    · refine .inr (.inr (.inl ⟨hgt, ?_⟩))
      rw [if_pos hj]
      obtain ⟨hlast, hnxt, hroom⟩ := hj
      have hnext : s.fragNext f.addr = f.addr + fragOverhead + f.size := by
        rw [fragNext]
        simp only [sizeofQmFrag, sizeofQmFragEnd]
        omega
      rw [hnext] at hlast hnxt hroom ⊢
      cases r with
      | nil =>
        have hend := h.tiled.last_end
        omega
      | cons n r =>
        have haddr := h.tiled.next_addr
        have hn : n ∈ l ++ f :: n :: r := by simp
        rw [← haddr] at hnxt hroom ⊢
        have hfree : n.free = true := by
          cases hnf : n.free with
          | true => rfl
          | false => exact absurd (h.taken n hn hnf) hnxt
        rw [h.size n hn] at hroom
        exact ⟨n, r, rfl, hfree, by omega, rfl⟩
    · exact .inr (.inr (.inr ⟨hgt, if_neg hj⟩))

end OpenSer.Mem.QM
