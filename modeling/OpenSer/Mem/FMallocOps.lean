import OpenSer.Mem.FMallocInv

/-!
# The operations of the fast allocator

Each call of the allocator as an edit of the list of fragments: `fmMallocInit_ok`, `fmMalloc_ok`, `fmFree_ok` and
`fmRealloc_ok`. Each says that the call returns, how the fragments, the counters and the pointer come out, and which
words of memory may differ.
-/

namespace OpenSer.Mem.FM

open Option List Function Lib Heap

variable {s s' : Heap} {fs l r : List Frag} {f g n : Frag} {bk : Nat → List Nat} {size : Nat} {pre post : List Nat}

theorem roundto_dvd_roundup (size : Nat) : roundto ∣ roundup size := Nat.dvd_mul_left ..

theorem HeapShape.used_nxt_ne (h : HeapShape s fs bk) {g' : Frag} (hg : g ∈ fs) (hu : g.free = false) (hg' : g' ∈ fs)
    (hf : g'.free = true) : g.addr + 8 ≠ g'.addr + 8 := by
  intro he
  rw [h.tiled.eq_of_addr HeapShape.oh_pos hg hg' (by omega), hf] at hu
  cases hu

theorem HeapShape.holds_ne (h : HeapShape s fs bk) {a : Nat} (hf : f ∈ fs) (ha : f.Holds fragOverhead a) (hg : g ∈ fs) :
    a ≠ g.addr ∧ a ≠ g.addr + 8 := by
  by_cases he : f.addr = g.addr
  · obtain ⟨hlo, -⟩ := ha
    simp only [fragOverhead] at hlo
    omega
  · have hout := h.tiled.holds_outside hf hg he ha
    simp only [fragOverhead] at hout
    omega

/-! ## Initialisation -/

theorem initOverhead_eq : initOverhead = 33648 := by decide

theorem initBlock_shape (mem : Nat → Nat) (start : Nat) (hle : size < 2 ^ 64) (hbig : initOverhead ≤ size)
    (hdvd : 8 ∣ size) :
    HeapShape (initBlock mem start size)
      ([] ++ ⟨start + roundup sizeofFmBlock, size - initOverhead, false⟩ :: []) fun _ => [] := by
  have hblock : roundup sizeofFmBlock = 33632 := by decide
  have hsizeof : sizeofFmBlock = 33632 := by decide
  have hread : (initBlock mem start size).fragSize = update (update mem (start + roundup sizeofFmBlock)
      (size - initOverhead)) (start + size - fragOverhead) 0 := rfl
  rw [initOverhead_eq] at hbig hread ⊢
  rw [hblock] at hread ⊢
  refine ⟨⟨rfl, ?_⟩, ?_, ?_, hle, ?_, ?_, fun _ => rfl, fun _ => rfl, by simp, by simp, by simp⟩
  · show start + roundup sizeofFmBlock + 16 + (size - 33648) = start + size - 16 + 16
    omega
  · show 0 < start + roundup sizeofFmBlock
    omega
  · show start + roundup sizeofFmBlock + size = start + size - 16 + 16 + sizeofFmBlock
    omega
  · intro f hf
    rw [mem_singleton.mp hf]
    show 8 ∣ size - 33648
    omega
  · intro f hf
    rw [mem_singleton.mp hf, hread]
    dsimp only
    by_cases hlast : start + 33632 = start + size - fragOverhead
    · rw [hlast, update_self]
      simp only [fragOverhead] at hlast
      omega
    · rw [update_of_ne hlast, update_self]

/-- `fm_malloc_init` makes a heap of one free fragment. -/
theorem fmMallocInit_ok {mem : Nat → Nat} {address : Nat} (hsize : size < 2 ^ 64)
    (he : fmMallocInit mem address size = some s) :
    ∃ f bk, f.free = true ∧ HeapOk s [f] bk ∧ s.qm.used = 0 ∧ s.qm.realUsed = initOverhead ∧
      s.qm.maxRealUsed = initOverhead := by
  obtain ⟨-, he⟩ := ite_none_left_eq_some.mp he
  obtain ⟨-, he⟩ := ite_none_left_eq_some.mp he
  obtain ⟨hbig, he⟩ := ite_none_left_eq_some.mp he
  have hle : rounddown (size - wsub (roundup address) address) < 2 ^ 64 := rounddown_lt (by omega)
  have hshape := initBlock_shape mem (roundup address) hle (not_lt.mp hbig) (Nat.dvd_mul_left ..)
  obtain ⟨s', bk', he', hshape', hqm, -⟩ := fmInsertFree_ok hshape rfl
  cases he.symm.trans he'
  refine ⟨_, bk', rfl, ⟨hshape', fun f hf hu => ?_⟩, ?_, ?_, ?_⟩
  · rw [mem_singleton.mp hf] at hu
    cases hu
  · rw [hqm]; rfl
  · rw [hqm]; rfl
  · rw [hqm]; rfl

/-! ## Allocation -/

/-- **The search** over the last `n` buckets finds the first fragment that is large enough, or there is none. -/
theorem HeapShape.findFrag_eq (h : HeapShape s fs bk) (size : Nat) : ∀ n,
    (s.findFrag size n = some none ∧ ∀ k, fHashSize - n ≤ k → k < fHashSize → ∀ a ∈ bk k, s.fragSize a < size) ∨
    ∃ hash pre a post, s.findFrag size n = some (some (hash, locAt hash pre)) ∧ bk hash = pre ++ a :: post ∧
      size ≤ s.fragSize a ∧ (∀ c ∈ pre, s.fragSize c < size) ∧ fHashSize - n ≤ hash ∧
      ∀ k, fHashSize - n ≤ k → k < hash → ∀ c ∈ bk k, s.fragSize c < size
  | 0 => .inl ⟨rfl, fun k h1 h2 => by omega⟩
  | n + 1 => by
    have hscan : s.scan (fun g => decide (s.fragSize g ≥ size)) s.fuel (locAt (fHashSize - (n + 1)) []) = _ :=
      scan_eq (h.chain (fHashSize - (n + 1))) (fun a ha => h.ne_zero_of_mem ha) (h.length_lt_fuel _)
    rw [nil_append] at hscan
    have hsplit := takeWhile_append_dropWhile (p := fun a => !decide (s.fragSize a ≥ size))
      (l := bk (fHashSize - (n + 1)))
    have hpre : ∀ c ∈ (bk (fHashSize - (n + 1))).takeWhile (fun a => !decide (s.fragSize a ≥ size)),
        s.fragSize c < size := by
      intro c hc
      simpa using mem_takeWhile_imp hc
    unfold findFrag
    dsimp only
    rw [← locAt_nil, hscan, bind_eq_bind, bind_some, deref_locAt (hsplit ▸ h.chain _)]
    cases hd : (bk (fHashSize - (n + 1))).dropWhile (fun a => !decide (s.fragSize a ≥ size)) with
    | nil =>
      -- nothing in this bucket
      have hall : ∀ c ∈ bk (fHashSize - (n + 1)), s.fragSize c < size := by
        rw [hd, append_nil] at hsplit
        rw [← hsplit]
        exact hpre
      have hless : ∀ k, fHashSize - (n + 1) ≤ k → k = fHashSize - (n + 1) ∨ fHashSize - n ≤ k := by omega
      rcases h.findFrag_eq size n with ⟨he, hnone⟩ | ⟨hash, pre, a, post, he, hbk, hsz, hp, hlo, hlow⟩
      · refine .inl ⟨he, fun k h1 h2 => ?_⟩
        rcases hless k h1 with rfl | h1
        · exact hall
        · exact hnone k h1 h2
      · refine .inr ⟨hash, pre, a, post, he, hbk, hsz, hp, by omega, fun k h1 h2 => ?_⟩
        rcases hless k h1 with rfl | h1
        · exact hall
        · exact hlow k h1 h2
    | cons a post =>
      obtain ⟨hmem, hsz⟩ := dropWhile_cons hd
      rw [headD_cons, if_pos (h.ne_zero_of_mem hmem)]
      exact .inr ⟨_, _, a, post, rfl, by rw [← hd, hsplit], hsz, hpre, le_refl _, fun k h1 h2 => by omega⟩

/-- The block's counters after an allocation from a fragment of `fsize` bytes. -/
def countedQm (qm : Block) (fsize size : Nat) (freeHash : Nat → FragLnk) : Block :=
  let real := takenReal fragOverhead fMallocOptimize qm.realUsed fsize size
  { qm with
    freeHash := freeHash
    used := wadd qm.used (keptSize fsize size)
    realUsed := real
    maxRealUsed := if qm.maxRealUsed < real then real else qm.maxRealUsed }

/-- `fm_split_frag` cuts a fragment in use in two. -/
theorem HeapOk.split (h : HeapOk s (l ++ f :: r) bk) (hu : f.free = false) (hle : size ≤ f.size) (hd : roundto ∣ size) :
    ∃ s' bk', s.fmSplitFrag f.addr size = some s' ∧ HeapOk s' (l ++ (splitFrag f size ++ r)) bk' ∧
      s'.fragSize f.addr = keptSize f.size size ∧
      s'.qm = { s.qm with
        freeHash := s'.qm.freeHash
        realUsed := if Splits f.size size then wadd s.qm.realUsed fragOverhead else s.qm.realUsed } ∧
      CutFrame (l ++ r) f size s s' := by
  obtain ⟨s', bk', he, hshape, hqm, hframe⟩ := fmSplitFrag_ok h.toHeapShape hu hle hd
  refine ⟨s', bk', he, ⟨hshape, forall_used_splitFrag (s'.nxtFree · = 0) fun g hg hgu => ?_⟩,
    hshape.size { f with size := keptSize f.size size } mem_splitFrag, hqm, hframe⟩
  -- the marks of the fragments in use lie outside what the split writes
  rw [← h.taken g hg hgu]
  refine hframe _ (fun he => h.addr_ne (by simp) hg he.symm) ?_ fun g' hg' hfree' =>
    h.used_nxt_ne hg hgu (mem_middle.mpr (.inr hg')) hfree'
  simp only [fragOverhead]
  rcases mem_middle.mp hg with rfl | hg
  · omega
  · have hout := h.outside hg
    simp only [fragOverhead] at hout
    omega

/-- A free fragment is taken out of its bucket. -/
theorem HeapOk.unlink (h : HeapOk s (l ++ f :: r) bk) (hfree : f.free = true)
    (hbk : bk (getHash f.size) = pre ++ f.addr :: post)
    (hs' : s' = ((s.store (locAt (getHash f.size) pre) (s.nxtFree f.addr)).setNxtFree f.addr 0).setNo (getHash f.size)
      ((s.qm.freeHash (getHash f.size)).no - 1)) :
    HeapOk s' (l ++ { f with free := false } :: r) (update bk (getHash f.size) (pre ++ post)) ∧
      s'.qm = { s.qm with freeHash := s'.qm.freeHash } ∧
      ∀ a, a ≠ f.addr + 8 → (∀ g ∈ l ++ r, g.free = true → a ≠ g.addr + 8) → s'.mem a = s.mem a := by
  obtain ⟨hdet, hqm, honly⟩ := h.detach hfree rfl hbk rfl
  have hmark := hdet.setNxt_used (f := { f with free := false }) (by simp) rfl 0
  have hs : s' = ((s.store (locAt (getHash f.size) pre) (s.nxtFree f.addr)).setNo (getHash f.size)
      ((s.qm.freeHash (getHash f.size)).no - 1)).setNxtFree f.addr 0 := hs'
  rw [← hs] at hmark
  have hmem : ∀ a, a ≠ f.addr + 8 → (∀ g ∈ l ++ r, g.free = true → a ≠ g.addr + 8) → s'.mem a = s.mem a := by
    intro a h1 h2
    rw [hs]
    exact (update_of_ne h1 _ _).trans (honly a h2)
  refine ⟨⟨hmark, fun g hg hu => ?_⟩, by rw [hs]; exact hqm, hmem⟩
  rcases mem_middle.mp hg with rfl | hg
  · rw [hs]
    exact update_self ..
  · have hin : g ∈ l ++ f :: r := mem_middle.mpr (.inr hg)
    rw [← h.taken g hin hu]
    have hne := h.tiled.others_ne HeapShape.oh_pos hg
    exact hmem _ (by omega) fun g' hg' hfree' => h.used_nxt_ne hin hu (mem_middle.mpr (.inr hg')) hfree'

theorem HeapOk.setUsed (h : HeapOk s fs bk) (v : Nat) : HeapOk (s.setUsed v) fs bk :=
  ⟨h.toHeapShape.setUsed v, h.taken⟩

theorem HeapOk.setRealUsed (h : HeapOk s fs bk) (v : Nat) : HeapOk (s.setRealUsed v) fs bk :=
  ⟨h.toHeapShape.setRealUsed v, h.taken⟩

theorem HeapOk.countAlloc (h : HeapOk s fs bk) (a : Nat) : HeapOk (s.countAlloc a) fs bk :=
  ⟨h.toHeapShape.congr rfl rfl rfl rfl (fun _ _ => rfl) (fun _ _ _ => rfl), h.taken⟩

/-- **Taking a free fragment**: it leaves its bucket, is marked, split and counted. -/
theorem HeapOk.take (h : HeapOk s (l ++ f :: r) bk) (hfree : f.free = true)
    (hbk : bk (getHash f.size) = pre ++ f.addr :: post) (hle : size ≤ f.size) (hd : roundto ∣ size)
    (hs' : s' = ((s.store (locAt (getHash f.size) pre) (s.nxtFree f.addr)).setNxtFree f.addr 0).setNo (getHash f.size)
      ((s.qm.freeHash (getHash f.size)).no - 1)) :
    ∃ s'' bk', s'.fmSplitFrag f.addr size = some s'' ∧
      HeapOk (s''.countAlloc f.addr) (l ++ (splitFrag { f with free := false } size ++ r)) bk' ∧
      (s''.countAlloc f.addr).qm = countedQm s.qm f.size size s''.qm.freeHash ∧
      ∀ a, (a < f.addr ∨ f.addr + fragOverhead + f.size ≤ a) → (∀ g ∈ l ++ r, g.free = true → a ≠ g.addr + 8) →
        (s''.countAlloc f.addr).mem a = s.mem a := by
  obtain ⟨hun, hqm, hmem⟩ := h.unlink hfree hbk hs'
  obtain ⟨s'', bk', he, hok, hsz, hqm', hframe⟩ := hun.split rfl hle hd
  refine ⟨s'', bk', he, hok.countAlloc _, ?_, fun a h1 h2 => ?_⟩
  · unfold Heap.countAlloc countedQm takenReal
    rw [hsz, hqm', hqm]
  · simp only [fragOverhead] at h1
    show s''.mem a = s.mem a
    rw [hframe a (by dsimp only; omega) (by simp only [fragOverhead]; omega) h2, hmem a (by omega) h2]

/-- **`fm_malloc`** returns null and changes nothing, or takes a free fragment that is large enough. -/
theorem fmMalloc_ok (h : HeapOk s fs bk) (size : Nat) :
    (s.fmMalloc size = some (s, 0) ∧ ∀ f ∈ fs, f.free = true → getHash (roundup size) ≤ getHash f.size →
      getHash f.size < fHashSize → f.size < roundup size) ∨
    ∃ l f r s' bk', fs = l ++ f :: r ∧ f.free = true ∧ roundup size ≤ f.size ∧
      s.fmMalloc size = some (s', f.addr + fragOverhead) ∧
      HeapOk s' (l ++ (splitFrag { f with free := false } (roundup size) ++ r)) bk' ∧
      s'.qm = countedQm s.qm f.size (roundup size) s'.qm.freeHash ∧
      ∀ a, (a < f.addr ∨ f.addr + fragOverhead + f.size ≤ a) → (∀ g ∈ l ++ r, g.free = true → a ≠ g.addr + 8) →
        s'.mem a = s.mem a := by
  unfold fmMalloc
  dsimp only
  rcases h.findFrag_eq (roundup size) (fHashSize - getHash (roundup size)) with
    ⟨he, hnone⟩ | ⟨hash, pre, a, post, he, hbk, hsz, -, -, -⟩
  · rw [he]
    refine .inl ⟨rfl, fun f hf hfree hlo hhi => ?_⟩
    rw [← h.size f hf]
    exact hnone _ (by omega) hhi _ ((h.mem _ _).mpr ⟨f, hf, rfl, hfree, rfl⟩)
  · obtain ⟨f, hf, rfl, hfree, rfl⟩ := (h.mem hash a).mp (by simp [hbk])
    obtain ⟨l, r, rfl⟩ := append_of_mem hf
    rw [h.size f hf] at hsz
    have hderef : s.deref (locAt (getHash f.size) pre) = f.addr := deref_locAt (hbk ▸ h.chain _)
    obtain ⟨s'', bk', hsplit, hok, hqm, hframe⟩ := h.take hfree hbk hsz (roundto_dvd_roundup size) rfl
    refine .inr ⟨l, f, r, _, bk', rfl, hfree, hsz, ?_, hok, hqm, hframe⟩
    obtain ⟨-, e2, -⟩ := qm_store_locAt s (getHash f.size) (s.nxtFree f.addr) pre
    rw [he, bind_eq_bind, bind_some]
    dsimp only
    rw [hderef]
    have hno : (((s.store (locAt (getHash f.size) pre) (s.nxtFree f.addr)).setNxtFree f.addr 0).qm.freeHash
        (getHash f.size)).no = (s.qm.freeHash (getHash f.size)).no := e2
    rw [hno, hsplit]
    rfl

/-! ## Release -/

/-- **`fm_free`** marks the fragment free. -/
theorem fmFree_ok (h : HeapOk s (l ++ f :: r) bk) (hu : f.free = false) :
    ∃ s' bk', s.fmFree (f.addr + fragOverhead) = some s' ∧ HeapOk s' (l ++ { f with free := true } :: r) bk' ∧
      s'.qm = { s.qm with
        freeHash := s'.qm.freeHash
        used := wsub s.qm.used f.size
        realUsed := wsub s.qm.realUsed f.size } ∧
      OnlyNxt (l ++ { f with free := true } :: r) s s' := by
  have hsize := h.size f (by simp)
  have hcount := (h.toHeapShape.setUsed (wsub s.qm.used f.size)).setRealUsed (wsub s.qm.realUsed f.size)
  obtain ⟨s', bk', he, hshape, hqm, honly⟩ := fmInsertFree_ok hcount hu
  refine ⟨s', bk', ?_, ⟨hshape, fun g hg hgu => ?_⟩, hqm, honly⟩
  · unfold fmFree
    simp only [Nat.add_sub_cancel, hsize]
    exact he
  · rcases mem_middle.mp hg with rfl | hg'
    · cases hgu
    · have hin : g ∈ l ++ f :: r := mem_middle.mpr (.inr hg')
      rw [← h.taken g hin hgu]
      exact honly _ fun g' hg'' hfree => hshape.used_nxt_ne hg hgu hg'' hfree

/-! ## Resizing -/

/-- **Shrinking**: the fragment is split, and the counters are corrected by what was cut off. -/
theorem reallocShrink_ok (h : HeapOk s (l ++ f :: r) bk) (hu : f.free = false) (hle : size ≤ f.size)
    (hd : roundto ∣ size) :
    ∃ s' bk', s.reallocShrink f.addr size = some s' ∧ HeapOk s' (l ++ (splitFrag f size ++ r)) bk' ∧
      s'.qm = { s.qm with
        freeHash := s'.qm.freeHash
        realUsed := wsub (if Splits f.size size then wadd s.qm.realUsed fragOverhead else s.qm.realUsed)
          (wsub (wsub f.size (keptSize f.size size)) fragOverhead)
        used := wsub s.qm.used (wsub f.size (keptSize f.size size)) } ∧
      CutFrame (l ++ r) f size s s' := by
  obtain ⟨s', bk', he, hok, hsz, hqm, hframe⟩ := h.split hu hle hd
  have hrun : s.reallocShrink f.addr size = some ((s'.setRealUsed (wsub s'.qm.realUsed
      (wsub (wsub f.size (keptSize f.size size)) fragOverhead))).setUsed
        (wsub s'.qm.used (wsub f.size (keptSize f.size size)))) := by
    unfold reallocShrink
    rw [he, h.size f (by simp), bind_eq_bind, bind_some]
    dsimp only
    rw [fragSize_setRealUsed, used_setRealUsed, hsz]
  refine ⟨_, bk', hrun, (hok.setRealUsed _).setUsed _, ?_, fun a h1 h2 h3 => hframe a h1 h2 h3⟩
  rw [qm_setUsed, qm_setRealUsed, hqm]

/-- The bucket of a free fragment, cut where the loop of `fm_realloc` stops. -/
theorem HeapShape.findIn (h : HeapShape s fs bk) (hn : n ∈ fs) (hfree : n.free = true) :
    ∃ pre post, bk (getHash n.size) = pre ++ n.addr :: post ∧
      s.scan (fun g => g = n.addr) s.fuel (.head (getHash n.size)) = some (locAt (getHash n.size) pre) := by
  have hmem : n.addr ∈ bk (getHash n.size) := (h.mem _ _).mpr ⟨n, hn, rfl, hfree, rfl⟩
  have hscan : s.scan (fun g => decide (g = n.addr)) s.fuel (locAt (getHash n.size) []) = _ :=
    scan_eq (h.chain (getHash n.size)) (fun a ha => h.ne_zero_of_mem ha) (h.length_lt_fuel _)
  obtain ⟨pre, post, hbk⟩ := append_of_mem hmem
  have hnd := h.nodup (getHash n.size)
  rw [hbk] at hnd
  have hpre : n.addr ∉ pre := fun hc => (nodup_append.mp hnd).2.2 _ hc _ (by simp) rfl
  refine ⟨pre, post, hbk, ?_⟩
  rw [hbk, takeWhile_append_of_pos, takeWhile_cons_of_neg, append_nil] at hscan
  · exact hscan
  · simp
  · intro a ha
    simpa using ne_of_mem_of_not_mem ha hpre

/-- A fragment takes in the free one behind it. -/
theorem HeapOk.joinNext (h : HeapOk s (l ++ f :: n :: r) bk) (hu : f.free = false) (hfree : n.free = true)
    (hbk : bk (getHash n.size) = pre ++ n.addr :: post)
    (hs' : s' = s.joinNext (getHash n.size) (locAt (getHash n.size) pre) f.addr n.addr) :
    ∃ bk', HeapOk s' (l ++ { f with size := f.size + fragOverhead + n.size } :: r) bk' ∧
      s'.qm = { s.qm with freeHash := s'.qm.freeHash, realUsed := wsub s.qm.realUsed fragOverhead } ∧
      ∀ a, a ≠ f.addr → (∀ g ∈ l ++ r, g.free = true → a ≠ g.addr + 8) → s'.mem a = s.mem a := by
  have hf : f ∈ l ++ f :: n :: r := by simp
  have hlist : l ++ f :: n :: r = (l ++ [f]) ++ n :: r := by simp
  have h' : HeapShape s ((l ++ [f]) ++ n :: r) bk := hlist ▸ h.toHeapShape
  obtain ⟨s₁, hs₁⟩ : ∃ s₁, s₁ = (s.store (locAt (getHash n.size) pre) (s.nxtFree n.addr)).setNo (getHash n.size)
    ((s.qm.freeHash (getHash n.size)).no - 1) := ⟨_, rfl⟩
  obtain ⟨hdet, hqm, honly⟩ := h'.detach hfree rfl hbk hs₁
  have hlist' : (l ++ [f]) ++ { n with free := false } :: r = l ++ f :: { n with free := false } :: r := by simp
  rw [hlist'] at hdet
  have hsf := hdet.size f (by simp)
  have hsn := hdet.size { n with free := false } (by simp)
  obtain ⟨-, e2, -⟩ := qm_store_locAt s (getHash n.size) (s.nxtFree n.addr) pre
  have hjoin := (hdet.join hu rfl).setRealUsed (wsub s.qm.realUsed fragOverhead)
  -- the state the code computes
  have heq : s' = (s₁.setSize f.addr (f.size + fragOverhead + n.size)).setRealUsed
      (wsub s.qm.realUsed fragOverhead) := by
    have hreal : (s₁.setSize f.addr (f.size + fragOverhead + n.size)).qm.realUsed = s.qm.realUsed := by
      rw [qm_setSize, hqm]
    rw [hs', Heap.joinNext, e2, ← hs₁, hsf, hsn, show f.size + (n.size + fragOverhead) = f.size + fragOverhead +
      n.size by omega, hreal]
  rw [heq]
  refine ⟨_, ⟨hjoin, fun g hg hgu => ?_⟩, ?_, fun a ha hfree' => ?_⟩
  · -- the marks of the fragments in use are where they were
    have hkeep : ∀ g ∈ l ++ f :: n :: r, g.free = false →
        (s₁.setSize f.addr (f.size + fragOverhead + n.size)).nxtFree g.addr = 0 := by
      intro g hg hgu
      rw [← h.taken g hg hgu, nxtFree_setSize fun he => h.addr_ne hf hg he.symm]
      refine honly _ fun g' hg' hfree' => h.used_nxt_ne hg hgu ?_ hfree'
      simp only [mem_append, mem_cons, mem_nil_iff, or_false] at hg' ⊢
      tauto
    rw [nxtFree_setRealUsed]
    rcases mem_middle.mp hg with rfl | hg
    · exact hkeep f hf hu
    · refine hkeep g ?_ hgu
      simp only [mem_append, mem_cons] at hg ⊢
      tauto
  · rw [qm_setRealUsed, qm_setSize, hqm]
  · refine (update_of_ne ha _ _).trans (honly a fun g hg hgfree => ?_)
    simp only [mem_append, mem_cons, mem_nil_iff, or_false] at hg
    rcases hg with (hg | rfl) | hg
    · exact hfree' g (by simp [hg]) hgfree
    · rw [hu] at hgfree
      cases hgfree
    · exact hfree' g (by simp [hg]) hgfree

/-- Without a surplus the code skips the split, which would do nothing. -/
theorem HeapShape.trim_eq (h : HeapShape s (l ++ f :: r) bk) (size : Nat) :
    s.trim f.addr size = s.fmSplitFrag f.addr size := by
  unfold Heap.trim
  rw [h.size f (by simp)]
  by_cases hgt : f.size > size
  · rw [if_pos hgt]
  · rw [if_neg hgt]
    unfold fmSplitFrag
    rw [h.size f (by simp), if_neg]
    unfold Splits Mem.Splits
    simp only [fragOverhead]
    omega

/-- **Growing by joining**: the free fragment behind is taken over, and what is too much is split off again. -/
theorem reallocJoin_ok (h : HeapOk s (l ++ f :: n :: r) bk) (hu : f.free = false) (hfree : n.free = true)
    (hle : size ≤ f.size + fragOverhead + n.size) (hd : roundto ∣ size) :
    ∃ s' bk', s.reallocJoin f.addr n.addr size = some s' ∧
      HeapOk s' (l ++ (splitFrag { f with size := f.size + fragOverhead + n.size } size ++ r)) bk' ∧
      s'.qm = { s.qm with
        freeHash := s'.qm.freeHash
        realUsed := joinedReal fragOverhead fMallocOptimize s.qm.realUsed f.size n.size size
        used := wadd s.qm.used (wsub (keptSize (f.size + fragOverhead + n.size) size) f.size) } ∧
      CutFrame (l ++ r) { f with size := f.size + fragOverhead + n.size } size s s' := by
  have hf : f ∈ l ++ f :: n :: r := by simp
  have hn : n ∈ l ++ f :: n :: r := by simp
  obtain ⟨pre, post, hbk, hscan⟩ := h.findIn hn hfree
  obtain ⟨bk₁, hok, hqm, hmem⟩ := h.joinNext hu hfree hbk rfl
  obtain ⟨s₁, bk', he, hok₁, hsz, hqm₁, hframe⟩ := hok.split hu hle hd
  rw [← hok.trim_eq] at he
  have hrun : s.reallocJoin f.addr n.addr size = some ((s₁.setRealUsed (wadd s₁.qm.realUsed
      (wsub (keptSize (f.size + fragOverhead + n.size) size) f.size))).setUsed
        (wadd s₁.qm.used (wsub (keptSize (f.size + fragOverhead + n.size) size) f.size))) := by
    unfold reallocJoin
    simp only [h.size f hf, h.size n hn]
    rw [hscan, bind_eq_bind, bind_some, deref_locAt (hbk ▸ h.chain _), headD_cons,
      if_neg (h.addr_pos hn).ne', he, bind_eq_bind, bind_some]
    rw [fragSize_setRealUsed, used_setRealUsed, hsz]
  refine ⟨_, bk', hrun, (hok₁.setRealUsed _).setUsed _, ?_, fun a ha hout hfree' => ?_⟩
  · unfold joinedReal
    rw [qm_setUsed, qm_setRealUsed, hqm₁, hqm]
  · exact (hframe a ha hout hfree').trans (hmem a ha hfree')

/-- Writing into a payload keeps the heap. -/
theorem HeapOk.writePayload (h : HeapOk s fs bk) (hf : f ∈ fs) (mem : Nat → Nat)
    (hmem : ∀ a, (a < f.addr + fragOverhead ∨ f.addr + fragOverhead + f.size ≤ a) → mem a = s.mem a) :
    HeapOk (s.setMem mem) fs bk := by
  have hhead : ∀ g ∈ fs, mem g.addr = s.mem g.addr ∧ mem (g.addr + 8) = s.mem (g.addr + 8) := by
    intro g hg
    by_cases he : g.addr = f.addr
    · simp only [fragOverhead] at hmem
      exact ⟨hmem _ (by omega), hmem _ (by omega)⟩
    · have := h.tiled.disjoint hg hf he
      simp only [fragOverhead] at this hmem
      exact ⟨hmem _ (by omega), hmem _ (by omega)⟩
  refine ⟨h.congr rfl rfl rfl rfl (fun g hg => (hhead g hg).1) fun g hg _ => (hhead g hg).2, fun g hg hu => ?_⟩
  exact (hhead g hg).2.trans (h.taken g hg hu)

theorem roundup_roundup (size : Nat) : roundup (roundup size) = roundup size := by
  unfold roundup Mem.roundup roundto
  omega

/-- **Growing by moving**: nothing happens when no fragment is large enough; else the payload is copied into a new
fragment and the old one is freed. -/
theorem reallocMove_ok (h : HeapOk s fs bk) (hf : f ∈ fs) (hu : f.free = false) (hlt : f.size < roundup size) :
    (s.fmMalloc (roundup size) = some (s, 0) ∧
      s.reallocMove (f.addr + fragOverhead) f.size (roundup size) = some (s, 0)) ∨
    ∃ l g r l' r' s₁ s' bk', fs = l ++ g :: r ∧ g.free = true ∧ roundup size ≤ g.size ∧
      l ++ (splitFrag { g with free := false } (roundup size) ++ r) = l' ++ f :: r' ∧
      s.fmMalloc (roundup size) = some (s₁, g.addr + fragOverhead) ∧
      s₁.qm.realUsed = (countedQm s.qm g.size (roundup size) s'.qm.freeHash).realUsed ∧
      s.reallocMove (f.addr + fragOverhead) f.size (roundup size) = some (s', g.addr + fragOverhead) ∧
      HeapOk s' (l' ++ { f with free := true } :: r') bk' ∧
      s'.qm = { countedQm s.qm g.size (roundup size) s'.qm.freeHash with
        used := wsub (countedQm s.qm g.size (roundup size) s'.qm.freeHash).used f.size
        realUsed := wsub (countedQm s.qm g.size (roundup size) s'.qm.freeHash).realUsed f.size } ∧
      (∀ i < f.size, s'.mem (g.addr + fragOverhead + i) = s.mem (f.addr + fragOverhead + i)) ∧
      ∀ x ∈ l ++ r, ∀ a, x.Holds fragOverhead a → s'.mem a = s.mem a := by
  rcases fmMalloc_ok h (roundup size) with ⟨he, -⟩ | ⟨l, g, r, s₁, bk₁, rfl, hfree, hle, he, hok, hqm, hframe⟩
  · refine .inl ⟨he, ?_⟩
    unfold reallocMove
    rw [he]
    rfl
  · right
    rw [roundup_roundup] at hle hok hqm
    -- the old fragment is still there
    have hne := mem_others_of_used hf hu hfree
    have hf₁ : f ∈ l ++ (splitFrag { g with free := false } (roundup size) ++ r) := mem_outer.mpr (.inr hne)
    have hg₁ : { g with size := keptSize g.size (roundup size), free := false } ∈
        l ++ (splitFrag { g with free := false } (roundup size) ++ r) := mem_splitFrag
    have hkept : f.size ≤ keptSize g.size (roundup size) := hlt.le.trans (le_keptSize hle)
    have hcopy := hok.writePayload hg₁
      (memcpy s₁.mem (g.addr + fragOverhead) (f.addr + fragOverhead) (f.size / 8)) fun a ha => by
        unfold memcpy
        dsimp only at ha
        rw [if_neg (by omega)]
    obtain ⟨l', r', hlist⟩ := append_of_mem hf₁
    rw [hlist] at hcopy
    obtain ⟨s', bk', he', hok', hqm', honly⟩ := fmFree_ok hcopy hu
    have hout : ∀ x ∈ l ++ r, ∀ a, x.Holds fragOverhead a → a < g.addr ∨ g.addr + fragOverhead + g.size ≤ a :=
      fun x hx _ => h.tiled.holds_outside (mem_middle.mpr (.inr hx)) (mem_middle.mpr (.inl rfl))
        (h.tiled.others_ne HeapShape.oh_pos hx)
    -- the payloads of fragments in use are out of reach for the allocation
    have hkeep : ∀ x ∈ l ++ r, ∀ a, x.Holds fragOverhead a → s₁.mem a = s.mem a := by
      intro x hx a ha
      refine hframe a (hout x hx a ha) fun y hy _ => ?_
      exact (h.holds_ne (mem_middle.mpr (.inr hx)) ha (mem_middle.mpr (.inr hy))).2
    refine ⟨l, g, r, l', r', s₁, s', bk', rfl, hfree, hle, hlist, he, ?_, ?_, hok', ?_, fun i hi => ?_,
      fun x hx a ha => ?_⟩
    · rw [hqm]
      rfl
    · unfold reallocMove
      rw [he, bind_eq_bind, bind_some]
      dsimp only
      rw [if_pos (by simp only [fragOverhead]; omega), he', map_some]
    · rw [hqm']
      have hset : (s₁.setMem (memcpy s₁.mem (g.addr + fragOverhead) (f.addr + fragOverhead) (f.size / 8))).qm =
          s₁.qm := rfl
      rw [hset, hqm]
      rfl
    · have hmem : { g with size := keptSize g.size (roundup size), free := false } ∈
          l' ++ { f with free := true } :: r' := by
        refine h.tiled.mem_mark true HeapShape.oh_pos (g := g) (by simp) hfree hf hu rfl ?_
        rw [← hlist]
        exact hg₁
      have hin : ({ g with size := keptSize g.size (roundup size), free := false } : Frag).Holds fragOverhead
          (g.addr + fragOverhead + i) := ⟨by dsimp only; omega, by dsimp only; omega⟩
      have hdvd : 8 ∣ f.size := h.dvd f hf
      rw [honly _ fun x hx _ => (hok'.holds_ne hmem hin hx).2]
      show memcpy s₁.mem (g.addr + fragOverhead) (f.addr + fragOverhead) (f.size / 8) _ = _
      unfold memcpy
      rw [if_pos (by omega), Nat.add_sub_cancel_left]
      exact hkeep f hne _ ⟨by omega, by omega⟩
    · have hcut : x ∈ l' ++ f :: r' := by
        rw [← hlist]
        exact mem_outer.mpr (.inr hx)
      have hx' := hout x hx a ha
      -- the fragment is still there, perhaps released
      have hstill : ∃ y ∈ l' ++ { f with free := true } :: r', y.Holds fragOverhead a := by
        rcases mem_middle.mp hcut with rfl | hx'
        · exact ⟨_, mem_middle.mpr (.inl rfl), ha⟩
        · exact ⟨x, mem_middle.mpr (.inr hx'), ha⟩
      obtain ⟨y, hy, hya⟩ := hstill
      rw [honly _ fun z hz _ => (hok'.holds_ne hy hya hz).2]
      show memcpy s₁.mem (g.addr + fragOverhead) (f.addr + fragOverhead) (f.size / 8) a = _
      unfold memcpy
      rw [if_neg (by omega)]
      exact hkeep x hx a ha

/-- **The branches of `fm_realloc`** on a fragment of the heap. When the code decides to join, the fragment behind is
there and is free. -/
theorem fmRealloc_cases (h : HeapOk s (l ++ f :: r) bk) (hsize : size ≠ 0) :
    (roundup size < f.size ∧ s.fmRealloc (f.addr + fragOverhead) size =
      (s.reallocShrink f.addr (roundup size)).map (·, f.addr + fragOverhead)) ∨
    (roundup size = f.size ∧ s.fmRealloc (f.addr + fragOverhead) size = some (s, f.addr + fragOverhead)) ∨
    (f.size < roundup size ∧ s.CanJoin f.addr (roundup size) ∧ ∃ n r', r = n :: r' ∧ n.free = true ∧
      roundup size ≤ f.size + fragOverhead + n.size ∧ s.fmRealloc (f.addr + fragOverhead) size =
        (s.reallocJoin f.addr n.addr (roundup size)).map (·, f.addr + fragOverhead)) ∨
    (f.size < roundup size ∧ ¬s.CanJoin f.addr (roundup size) ∧ s.fmRealloc (f.addr + fragOverhead) size =
      s.reallocMove (f.addr + fragOverhead) f.size (roundup size)) := by
  have hsf := h.size f (by simp)
  have hp : ¬f.addr + fragOverhead = 0 := by simp only [fragOverhead]; omega
  unfold fmRealloc
  rw [if_neg hsize, if_neg hp]
  simp only [Nat.add_sub_cancel, hsf]
  rcases lt_trichotomy (roundup size) f.size with hlt | heq | hgt
  · exact .inl ⟨hlt, if_pos hlt⟩
  · exact .inr (.inl ⟨heq, by rw [if_neg (by omega), if_neg (by omega)]⟩)
  · rw [if_neg (by omega), if_pos hgt]
    by_cases hj : s.CanJoin f.addr (roundup size)
    · refine .inr (.inr (.inl ⟨hgt, hj, ?_⟩))
      rw [if_pos hj]
      obtain ⟨hlast, hnxt, hroom⟩ := hj
      have hnext : s.fragNext f.addr = f.addr + fragOverhead + f.size := by rw [fragNext, hsf]
      rw [hnext] at hlast hnxt hroom ⊢
      cases r with
      | nil =>
        have hend := h.tiled.last_end
        omega
      | cons n r =>
        have haddr := h.tiled.next_addr
        have hn : n ∈ l ++ f :: n :: r := by simp
        rw [← haddr] at hnxt hroom ⊢
        have hfree : n.free = true := by
          cases hnf : n.free with
          | true => rfl
          | false => exact absurd (h.taken n hn hnf) hnxt
        rw [h.size n hn, hsf] at hroom
        exact ⟨n, r, rfl, hfree, by omega, rfl⟩
    · exact .inr (.inr (.inr ⟨hgt, hj, if_neg hj⟩))

end OpenSer.Mem.FM
