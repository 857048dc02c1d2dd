import OpenSer.Mem.FMalloc

/-!
# The heap invariant of the fast allocator

`HeapShape s fs bk` relates a heap to the list `fs` of its fragments and to its buckets `bk`: the fragments tile the
block, and each bucket is a chain of exactly the free fragments of its class. `HeapOk` adds that a fragment in use has a
null `nxt_free`, which is how `fm_realloc` tells it from a free one.

* `scan_eq`: what a loop over a bucket finds.
* `fmInsertFree_ok`, `detach_shape`, `fmSplitFrag_ok`, `join_shape`: the edits the operations are made of.
* `fmMalloc_ok`, `fmFree_ok`, `fmRealloc_ok`: the operations, each as an edit of the fragment list.
-/

namespace OpenSer.Mem.FM

open List Function Lib Heap Nat

/-- The fragments tile the block, and bucket `h` is a chain of the free fragments of class `h`. -/
structure HeapShape (s : Heap) (fs : List Frag) (bk : Nat → List Nat) : Prop where
  tiled : Tiled fragOverhead s.qm.firstFrag fs (s.qm.lastFrag + fragOverhead)
  base : 0 < s.qm.firstFrag
  extent : s.qm.firstFrag + s.qm.size = s.qm.lastFrag + fragOverhead + sizeofFmBlock
  fits : s.qm.size < 2 ^ 64
  dvd : ∀ f ∈ fs, roundto ∣ f.size
  size : ∀ f ∈ fs, s.fragSize f.addr = f.size
  chain : ∀ h, Walk s.nxtFree (s.qm.freeHash h).first (bk h) 0
  no : ∀ h, (s.qm.freeHash h).no = (bk h).length
  nodup : ∀ h, (bk h).Nodup
  mem : ∀ h a, a ∈ bk h ↔ ∃ f ∈ fs, f.addr = a ∧ f.free = true ∧ getHash f.size = h
  sorted : ∀ h, fMallocOptimize / roundto < h → (bk h).Pairwise fun a b => s.fragSize a ≤ s.fragSize b

/-- The invariant between calls: also, a fragment in use has a null `nxt_free`. -/
structure HeapOk (s : Heap) (fs : List Frag) (bk : Nat → List Nat) : Prop extends HeapShape s fs bk where
  taken : ∀ f ∈ fs, f.free = false → s.nxtFree f.addr = 0

/-- Only `nxt_free` fields of free fragments were written. -/
def OnlyNxt (fs : List Frag) (s s' : Heap) : Prop :=
  ∀ a, (∀ g ∈ fs, g.free = true → a ≠ g.addr + 8) → s'.mem a = s.mem a

variable {s s' : Heap} {fs l r : List Frag} {f g n : Frag} {bk : Nat → List Nat} {pre post xs : List Nat}
  {hash size k a : Nat}

/-! ## Reading a write back -/

theorem nxtFree_setNxtFree (s : Heap) (a v : Nat) : (s.setNxtFree a v).nxtFree = update s.nxtFree a v := by
  funext b
  by_cases h : b = a
  · subst h; simp [nxtFree, setNxtFree]
  · simp [nxtFree, setNxtFree, h]

theorem fragSize_setNxtFree {b v : Nat} (h : b ≠ a + 8) : (s.setNxtFree a v).fragSize b = s.fragSize b :=
  update_of_ne h _ _

theorem fragSize_setSize (s : Heap) (a v : Nat) : (s.setSize a v).fragSize = update s.fragSize a v := rfl

theorem nxtFree_setSize {b v : Nat} (h : b + 8 ≠ a) : (s.setSize a v).nxtFree b = s.nxtFree b :=
  update_of_ne h _ _

@[simp] theorem qm_setSize (s : Heap) (a v : Nat) : (s.setSize a v).qm = s.qm := rfl

@[simp] theorem fragSize_setRealUsed (s : Heap) (v : Nat) : (s.setRealUsed v).fragSize = s.fragSize := rfl

@[simp] theorem nxtFree_setRealUsed (s : Heap) (v : Nat) : (s.setRealUsed v).nxtFree = s.nxtFree := rfl

@[simp] theorem used_setRealUsed (s : Heap) (v : Nat) : (s.setRealUsed v).qm.used = s.qm.used := rfl

@[simp] theorem qm_setRealUsed (s : Heap) (v : Nat) : (s.setRealUsed v).qm = { s.qm with realUsed := v } := rfl

@[simp] theorem qm_setUsed (s : Heap) (v : Nat) : (s.setUsed v).qm = { s.qm with used := v } := rfl

/-! ## Walking a bucket -/

/-- The pointer behind the fragments `pre` of bucket `hash`. -/
def locAt (hash : Nat) (pre : List Nat) : Loc := (pre.map Loc.nxt).getLastD (.head hash)

theorem locAt_nil (hash : Nat) : locAt hash [] = .head hash := rfl

theorem locAt_concat (hash : Nat) (pre : List Nat) (a : Nat) : locAt hash (pre ++ [a]) = .nxt a := by
  simp [locAt]

/-- The pointer behind a part of the bucket points at the rest. -/
theorem deref_locAt (h : Walk s.nxtFree (s.qm.freeHash hash).first (pre ++ post) 0) :
    s.deref (locAt hash pre) = post.headD 0 := by
  rcases eq_nil_or_concat pre with rfl | ⟨pre', a, rfl⟩
  · exact h.start
  · rw [concat_eq_append] at h ⊢
    obtain ⟨m, h1, h2⟩ := walk_append.mp h
    obtain ⟨m', -, -, h3⟩ := walk_append.mp h1
    rw [locAt_concat]
    have h3' : s.nxtFree a = m := h3
    rw [deref, h3']
    exact h2.start

/-- **A loop over a bucket** stops at the first fragment that meets the condition, or at the end. -/
theorem scan_eq {stop : Nat → Bool} : ∀ {xs pre : List Nat} {fuel : Nat},
    Walk s.nxtFree (s.qm.freeHash hash).first (pre ++ xs) 0 → (∀ a ∈ xs, a ≠ 0) → xs.length < fuel →
    s.scan stop fuel (locAt hash pre) = some (locAt hash (pre ++ xs.takeWhile fun a => !stop a))
  | [], pre, fuel, hp, _, hf => by
    obtain ⟨k, rfl⟩ : ∃ k, fuel = k + 1 := ⟨fuel - 1, by simp at hf; omega⟩
    unfold Heap.scan
    rw [deref_locAt hp]
    simp
  | x :: xs, pre, fuel, hp, hz, hf => by
    obtain ⟨k, rfl⟩ : ∃ k, fuel = k + 1 := ⟨fuel - 1, by simp at hf; omega⟩
    have hx : x ≠ 0 := hz x (by simp)
    unfold Heap.scan
    rw [deref_locAt hp, headD_cons, if_neg hx]
    cases hstop : stop x with
    | true => simp [hstop]
    | false =>
      have hp' : Walk s.nxtFree (s.qm.freeHash hash).first ((pre ++ [x]) ++ xs) 0 := by simpa using hp
      have ih : s.scan stop k _ = _ :=
        scan_eq hp' (forall_mem_cons.mp hz).2 (lt_of_succ_lt_succ hf)
      rw [locAt_concat] at ih
      simp [ih, hstop]

/-! ## Writing through a pointer into a bucket -/

/-- A write through the pointer behind `pre` touches at most the `nxt_free` fields of `pre`. -/
theorem mem_store_locAt {hash v : Nat} (h : ∀ b ∈ pre, a ≠ b + 8) : (s.store (locAt hash pre) v).mem a = s.mem a := by
  rcases eq_nil_or_concat pre with rfl | ⟨pre', b, rfl⟩
  · rfl
  · rw [concat_eq_append] at h ⊢
    rw [locAt_concat]
    exact update_of_ne (h b (by simp)) _ _

theorem qm_store_locAt (s : Heap) (hash v : Nat) (pre : List Nat) :
    (∀ k, k ≠ hash → ((s.store (locAt hash pre) v).qm.freeHash k) = s.qm.freeHash k) ∧
      ((s.store (locAt hash pre) v).qm.freeHash hash).no = (s.qm.freeHash hash).no ∧
      (s.store (locAt hash pre) v).qm = { s.qm with freeHash := (s.store (locAt hash pre) v).qm.freeHash } := by
  rcases eq_nil_or_concat pre with rfl | ⟨pre', b, rfl⟩
  · refine ⟨fun k hk => ?_, ?_, rfl⟩
    · simp [locAt_nil, store, setFirst, hk]
    · simp [locAt_nil, store, setFirst]
  · rw [concat_eq_append, locAt_concat]
    exact ⟨fun _ _ => rfl, rfl, rfl⟩

theorem walk_store_locAt {hash v : Nat} (h : Walk s.nxtFree (s.qm.freeHash hash).first (pre ++ post) 0)
    (hnd : pre.Nodup) :
    Walk (s.store (locAt hash pre) v).nxtFree ((s.store (locAt hash pre) v).qm.freeHash hash).first pre v := by
  rcases eq_nil_or_concat pre with rfl | ⟨pre', b, rfl⟩
  · show (update s.qm.freeHash hash _ hash).first = v
    rw [update_self]
  · rw [concat_eq_append] at h hnd ⊢
    rw [locAt_concat]
    obtain ⟨m, h1, -⟩ := walk_append.mp h
    have hb : b ∉ pre' := (nodup_cons.mp (nodup_middle.mp hnd)).1 ∘ mem_append_left _
    show Walk (s.setNxtFree b v).nxtFree (s.qm.freeHash hash).first (pre' ++ [b]) v
    rw [nxtFree_setNxtFree]
    exact h1.set_last hb

theorem nxtFree_store_locAt {hash v : Nat} (h : a ∉ pre) :
    (s.store (locAt hash pre) v).nxtFree a = s.nxtFree a :=
  mem_store_locAt fun b hb he => h (by rwa [add_right_cancel he])

/-! ## Consequences of the shape -/

namespace HeapShape

theorem oh_pos : 0 < fragOverhead := by decide

section
variable (h : HeapShape s fs bk)
include h

theorem addr_ne (hf : f ∈ fs) (hg : g ∈ fs) : f.addr ≠ g.addr + 8 := by
  by_cases he : f.addr = g.addr
  · omega
  · have := h.tiled.disjoint hf hg he
    simp only [fragOverhead] at this
    omega

theorem not_mem_of_used (hf : f ∈ fs) (hu : f.free = false) (k : Nat) : f.addr ∉ bk k := by
  intro hc
  rw [(Buckets.of_mem h.mem h.tiled oh_pos hf hc).1] at hu
  cases hu

theorem hash_eq_of_mem (hf : f ∈ fs) (hk : f.addr ∈ bk k) : getHash f.size = k :=
  (Buckets.of_mem h.mem h.tiled oh_pos hf hk).2

theorem disjoint_buckets {j : Nat} (hj : a ∈ bk j) (hk : a ∈ bk k) : j = k := by
  obtain ⟨f, hf, rfl, -, rfl⟩ := (h.mem j a).mp hj
  exact h.hash_eq_of_mem hf hk

theorem addr_pos (hf : f ∈ fs) : 0 < f.addr := h.base.trans_le (h.tiled.bounds hf).1

theorem frag_of_mem (ha : a ∈ bk k) : ∃ f ∈ fs, f.addr = a := by
  obtain ⟨f, hf, he, -⟩ := (h.mem k a).mp ha
  exact ⟨f, hf, he⟩

theorem ne_zero_of_mem (ha : a ∈ bk k) : a ≠ 0 := by
  obtain ⟨f, hf, rfl⟩ := h.frag_of_mem ha
  exact (h.addr_pos hf).ne'

theorem length_lt_fuel (k : Nat) : (bk k).length < s.fuel := by
  have hlen := length_le_of_addrs (h.nodup k) fun a ha => h.frag_of_mem ha
  have htile := h.tiled.length_le
  have hext := h.extent
  have hblock : 0 < sizeofFmBlock := by decide
  simp only [fragOverhead] at htile hext
  unfold fuel
  omega

end

/-- A bucket of large fragments: the size classes up to `F_MALLOC_OPTIMIZE` come first. -/
theorem large_of_hash (h : fMallocOptimize / roundto < getHash size) : fMallocOptimize < size := by
  by_contra hc
  have hopt : fMallocOptimize = 2 ^ fMallocOptimizeFactor := rfl
  unfold getHash Mem.getHash at h
  rw [if_pos (by omega)] at h
  simp only [fMallocOptimize, roundto] at h hc
  omega

end HeapShape

section
variable (h : HeapShape s fs bk)
include h

/-- Transport of the parts that read memory: the headers of the fragments and the links of the buckets are unchanged. -/
theorem HeapShape.congr (hqm : s'.qm.firstFrag = s.qm.firstFrag)
    (hlast : s'.qm.lastFrag = s.qm.lastFrag) (hsz : s'.qm.size = s.qm.size) (hhash : s'.qm.freeHash = s.qm.freeHash)
    (hsize : ∀ f ∈ fs, s'.fragSize f.addr = s.fragSize f.addr)
    (hnxt : ∀ f ∈ fs, f.free = true → s'.nxtFree f.addr = s.nxtFree f.addr) : HeapShape s' fs bk where
  tiled := by rw [hqm, hlast]; exact h.tiled
  base := by rw [hqm]; exact h.base
  extent := by rw [hqm, hlast, hsz]; exact h.extent
  fits := by rw [hsz]; exact h.fits
  dvd := h.dvd
  size f hf := by rw [hsize f hf]; exact h.size f hf
  chain k := by
    rw [hhash]
    refine (h.chain k).congr fun a ha => ?_
    obtain ⟨f, hf, rfl, hfree, -⟩ := (h.mem k a).mp ha
    exact hnxt f hf hfree
  no k := by rw [hhash]; exact h.no k
  nodup := h.nodup
  mem := h.mem
  sorted k hk := by
    refine sorted_congr (h.sorted k hk) fun a ha => ?_
    obtain ⟨f, hf, rfl⟩ := h.frag_of_mem ha
    exact hsize f hf

theorem HeapShape.setUsed (v : Nat) : HeapShape (s.setUsed v) fs bk :=
  h.congr rfl rfl rfl rfl (fun _ _ => rfl) (fun _ _ _ => rfl)

theorem HeapShape.setRealUsed (v : Nat) : HeapShape (s.setRealUsed v) fs bk :=
  h.congr rfl rfl rfl rfl (fun _ _ => rfl) (fun _ _ _ => rfl)

theorem HeapShape.setNxt_used (hf : f ∈ fs) (hu : f.free = false) (v : Nat) :
    HeapShape (s.setNxtFree f.addr v) fs bk := by
  refine h.congr rfl rfl rfl rfl (fun g hg => fragSize_setNxtFree (h.addr_ne hg hf)) fun g hg hfree => ?_
  rw [nxtFree_setNxtFree]
  refine update_of_ne (fun he => ?_) _ _
  rw [h.tiled.eq_of_addr HeapShape.oh_pos hg hf he, hu] at hfree
  cases hfree

end

/-! ## Moving a fragment in and out of its bucket -/

/-- **One bucket is edited**: the chain of `f`'s class becomes `xs`, which has `f` in it exactly if `f` is marked free,
and only `nxt_free` fields of the class are written. -/
theorem HeapShape.rebucket (h : HeapShape s (l ++ f :: r) bk) (b : Bool) (hhash : getHash f.size = hash)
    (hqm : s'.qm = { s.qm with freeHash := s'.qm.freeHash })
    (hother : ∀ k, k ≠ hash → s'.qm.freeHash k = s.qm.freeHash k)
    (hmem : ∀ a, a ≠ f.addr + 8 → (∀ c ∈ bk hash, a ≠ c + 8) → s'.mem a = s.mem a)
    (hchain : Walk s'.nxtFree (s'.qm.freeHash hash).first xs 0)
    (hno : (s'.qm.freeHash hash).no = xs.length) (hnd : xs.Nodup)
    (hxs : ∀ a, a ∈ xs ↔ (b = true ∧ a = f.addr) ∨ (a ≠ f.addr ∧ a ∈ bk hash))
    (hsorted : fMallocOptimize / roundto < hash → xs.Pairwise fun a c => s.fragSize a ≤ s.fragSize c) :
    HeapShape s' (l ++ { f with free := b } :: r) (update bk hash xs) := by
  have hf : f ∈ l ++ f :: r := by simp
  -- the sizes are as before
  have hsize : ∀ g ∈ l ++ f :: r, s'.fragSize g.addr = s.fragSize g.addr := by
    intro g hg
    refine hmem _ (h.addr_ne hg hf) fun c hc => ?_
    obtain ⟨g', hg', rfl⟩ := h.frag_of_mem hc
    exact h.addr_ne hg hg'
  have hin : ∀ g ∈ l ++ r, g ∈ l ++ f :: r := fun g hg => mem_middle.mpr (.inr hg)
  -- a fragment of another class is not `f`
  have hne : ∀ k ≠ hash, ∀ a ∈ bk k, a ≠ f.addr := by
    rintro k hk a ha rfl
    exact hk ((h.hash_eq_of_mem hf ha).symm.trans hhash)
  refine ⟨?_, by rw [hqm]; exact h.base, by rw [hqm]; exact h.extent, by rw [hqm]; exact h.fits, fun g hg => ?_,
    fun g hg => ?_, (forall_update_iff bk fun k xs => Walk s'.nxtFree (s'.qm.freeHash k).first xs 0).mpr ⟨hchain, ?_⟩,
    (forall_update_iff bk fun k xs => (s'.qm.freeHash k).no = xs.length).mpr ⟨hno, fun k hk => ?_⟩,
    (forall_update_iff bk fun _ xs => xs.Nodup).mpr ⟨hnd, fun k _ => h.nodup k⟩,
    Buckets.mark b h.mem h.tiled HeapShape.oh_pos hhash hxs,
    (forall_update_iff bk fun k xs => fMallocOptimize / roundto < k →
      xs.Pairwise fun a c => s'.fragSize a ≤ s'.fragSize c).mpr ⟨fun hbig => ?_, fun k _ hbig => ?_⟩⟩
  · rw [hqm]
    exact h.tiled.mark b
  · rcases mem_middle.mp hg with rfl | hg
    · exact h.dvd f hf
    · exact h.dvd g (hin g hg)
  · rcases mem_middle.mp hg with rfl | hg
    · exact (hsize f hf).trans (h.size f hf)
    · exact (hsize g (hin g hg)).trans (h.size g (hin g hg))
  · intro k hk
    rw [hother k hk]
    refine (h.chain k).congr fun a ha => hmem _ (fun he => hne k hk a ha (add_right_cancel he)) fun c hc he => hk ?_
    exact h.disjoint_buckets ha (add_right_cancel he ▸ hc)
  · rw [hother k hk]
    exact h.no k
  · refine sorted_congr (hsorted hbig) fun a ha => ?_
    rcases (hxs a).mp ha with ⟨-, rfl⟩ | ⟨-, ha⟩
    · exact hsize f hf
    · obtain ⟨g, hg, rfl⟩ := h.frag_of_mem ha
      exact hsize g hg
  · refine sorted_congr (h.sorted k hbig) fun a ha => ?_
    obtain ⟨g, hg, rfl⟩ := h.frag_of_mem ha
    exact hsize g hg

theorem first_setNo (s : Heap) (hash v : Nat) :
    ((s.setNo hash v).qm.freeHash hash).first = (s.qm.freeHash hash).first := by simp [setNo]

/-- The writes that put a fragment between two parts of its bucket. -/
theorem HeapShape.linkIn (h : HeapShape s (l ++ f :: r) bk) (hu : f.free = false)
    (hhash : getHash f.size = hash) (hbk : bk hash = pre ++ post) (hsorted : fMallocOptimize / roundto < hash →
      (∀ a ∈ pre, s.fragSize a ≤ f.size) ∧ ∀ a ∈ post, f.size ≤ s.fragSize a)
    (hs' : s' = (((s.setNxtFree f.addr (post.headD 0)).store (locAt hash pre) f.addr).setNo
      hash ((s.qm.freeHash hash).no + 1))) :
    HeapShape s' (l ++ { f with free := true } :: r) (update bk hash (pre ++ f.addr :: post)) ∧
      s'.qm = { s.qm with freeHash := s'.qm.freeHash } ∧ OnlyNxt (l ++ { f with free := true } :: r) s s' := by
  have hf : f ∈ l ++ f :: r := by simp
  have hfresh := h.not_mem_of_used hf hu hash
  have hnd := h.nodup hash
  have hwalk := h.chain hash
  rw [hbk] at hfresh hnd hwalk
  obtain ⟨hnd1, hnd2, hdisj⟩ := nodup_append.mp hnd
  have hpre : f.addr ∉ pre := fun hc => hfresh (mem_append_left _ hc)
  have hpost : f.addr ∉ post := fun hc => hfresh (mem_append_right _ hc)
  obtain ⟨e1, e2, e3⟩ := qm_store_locAt (s.setNxtFree f.addr (post.headD 0)) hash f.addr pre
  have hmem : ∀ a, a ≠ f.addr + 8 → (∀ c ∈ pre, a ≠ c + 8) → s'.mem a = s.mem a := by
    intro a h1 h2
    subst hs'
    show ((s.setNxtFree f.addr (post.headD 0)).store (locAt hash pre) f.addr).mem a = s.mem a
    rw [mem_store_locAt h2]
    exact update_of_ne h1 _ _
  have hqm : s'.qm = { s.qm with freeHash := s'.qm.freeHash } := by
    subst hs'
    simp only [setNo]
    rw [e3]
    rfl
  refine ⟨h.rebucket true hhash hqm (fun k hk => ?_) (fun a h1 h2 => hmem a h1 fun c hc =>
    h2 c (by simp [hbk, hc])) ?_ ?_ ?_
    (fun a => ?_) (fun hbig => ?_), hqm, fun a ha => hmem a ?_ fun c hc => ?_⟩
  · subst hs'
    simp only [setNo]
    rw [update_of_ne hk, e1 k hk]
    rfl
  · -- through the old part, the fragment, and the old rest
    have hw1 : Walk (s.setNxtFree f.addr (post.headD 0)).nxtFree (s.qm.freeHash hash).first (pre ++ post) 0 := by
      refine hwalk.congr fun a ha => ?_
      rw [nxtFree_setNxtFree]
      exact update_of_ne (ne_of_mem_of_not_mem ha hfresh) _ _
    have hw2 := walk_store_locAt (v := f.addr) hw1 hnd1
    obtain ⟨m, -, hw3⟩ := walk_append.mp hwalk
    have hrest : Walk ((s.setNxtFree f.addr (post.headD 0)).store (locAt hash pre) f.addr).nxtFree
        f.addr (f.addr :: post) 0 := by
      refine ⟨rfl, ?_⟩
      rw [nxtFree_store_locAt hpre, nxtFree_setNxtFree, update_self, ← hw3.start]
      refine hw3.congr fun a ha => ?_
      rw [nxtFree_store_locAt fun hc => hdisj a hc a ha rfl, nxtFree_setNxtFree]
      exact update_of_ne (ne_of_mem_of_not_mem ha hpost) _ _
    subst hs'
    rw [first_setNo]
    exact walk_append.mpr ⟨_, hw2, hrest⟩
  · subst hs'
    have hno := h.no hash
    rw [hbk, length_append] at hno
    simp only [setNo, update_self, length_append, length_cons]
    omega
  · rw [nodup_middle, nodup_cons]
    exact ⟨hfresh, hnd⟩
  · rw [hbk]
    exact mem_linkIn a
  · obtain ⟨hle, hge⟩ := hsorted hbig
    have hold := h.sorted _ hbig
    rw [hbk] at hold
    obtain ⟨h1, h2, h3⟩ := pairwise_append.mp hold
    rw [← h.size f hf] at hge hle
    exact pairwise_append.mpr
      ⟨h1, pairwise_cons.mpr ⟨hge, h2⟩, fun a ha => forall_mem_cons.mpr ⟨hle a ha, h3 a ha⟩⟩
  · exact ha { f with free := true } (by simp) rfl
  · obtain ⟨g, hg, rfl, hfree, -⟩ := (h.mem hash c).mp (by simp [hbk, hc])
    rcases mem_middle.mp hg with rfl | hg
    · rw [hu] at hfree
      cases hfree
    · exact ha g (mem_middle.mpr (.inr hg)) hfree

/-- Where the loop, if it runs, leaves the pointer: between the smaller fragments and the others. -/
theorem HeapShape.insertLoc_eq (h : HeapShape s fs bk) (hf : f ∈ fs) :
    ∃ pre post, bk (getHash f.size) = pre ++ post ∧ s.insertLoc f.addr = some (locAt (getHash f.size) pre) ∧
      (fMallocOptimize / roundto < getHash f.size →
        (∀ a ∈ pre, s.fragSize a ≤ f.size) ∧ ∀ a ∈ post, f.size ≤ s.fragSize a) := by
  have hsize := h.size f hf
  unfold insertLoc
  simp only [hsize]
  by_cases hbig : f.size > fMallocOptimize
  · have hscan : s.scan (fun g => decide (f.size ≤ s.fragSize g)) s.fuel (locAt (getHash f.size) []) = _ :=
      scan_eq (h.chain (getHash f.size)) (fun a ha => h.ne_zero_of_mem ha) (h.length_lt_fuel _)
    obtain ⟨hpre, hpost⟩ := @sorted_cut (bk (getHash f.size)) s.fragSize f.size
    exact ⟨_, _, takeWhile_append_dropWhile.symm, by rw [if_pos hbig]; exact hscan,
      fun hh => ⟨fun a ha => (hpre a ha).le, hpost (h.sorted _ hh)⟩⟩
  · exact ⟨[], _, rfl, by rw [if_neg hbig]; rfl, fun hh => absurd (HeapShape.large_of_hash hh) hbig⟩

/-- **`fm_insert_free`** puts a fragment into the bucket of its class. -/
theorem fmInsertFree_ok (h : HeapShape s (l ++ f :: r) bk) (hu : f.free = false) :
    ∃ s' bk', s.fmInsertFree f.addr = some s' ∧ HeapShape s' (l ++ { f with free := true } :: r) bk' ∧
      s'.qm = { s.qm with freeHash := s'.qm.freeHash } ∧ OnlyNxt (l ++ { f with free := true } :: r) s s' := by
  have hf : f ∈ l ++ f :: r := by simp
  obtain ⟨pre, post, hbk, hloc, hsorted⟩ := h.insertLoc_eq hf
  have hderef : s.deref (locAt (getHash f.size) pre) = post.headD 0 := deref_locAt (hbk ▸ h.chain _)
  obtain ⟨hshape, hqm, honly⟩ := h.linkIn hu rfl hbk hsorted rfl
  refine ⟨_, _, ?_, hshape, hqm, honly⟩
  unfold fmInsertFree
  rw [h.size f hf, hloc, Option.bind_eq_bind, Option.bind_some, hderef]
  obtain ⟨-, e2, -⟩ := qm_store_locAt (s.setNxtFree f.addr (post.headD 0)) (getHash f.size) f.addr pre
  dsimp only
  rw [e2]
  rfl

/-- **A fragment leaves its bucket**: the pointer at it is set to the one behind it. -/
theorem HeapShape.detach (h : HeapShape s (l ++ f :: r) bk) (hfree : f.free = true)
    (hhash : getHash f.size = hash) (hbk : bk hash = pre ++ f.addr :: post)
    (hs' : s' = (s.store (locAt hash pre) (s.nxtFree f.addr)).setNo hash
      ((s.qm.freeHash hash).no - 1)) :
    HeapShape s' (l ++ { f with free := false } :: r) (update bk hash (pre ++ post)) ∧
      s'.qm = { s.qm with freeHash := s'.qm.freeHash } ∧ OnlyNxt (l ++ r) s s' := by
  have hnd := h.nodup hash
  have hwalk := h.chain hash
  rw [hbk] at hnd hwalk
  obtain ⟨hfresh, hnd'⟩ := nodup_cons.mp (nodup_middle.mp hnd)
  obtain ⟨hnd1, -, hdisj⟩ := nodup_append.mp hnd'
  obtain ⟨e1, -, e3⟩ := qm_store_locAt s hash (s.nxtFree f.addr) pre
  have hmem : ∀ a, (∀ c ∈ pre, a ≠ c + 8) → s'.mem a = s.mem a := by
    intro a ha
    subst hs'
    exact mem_store_locAt ha
  have hqm : s'.qm = { s.qm with freeHash := s'.qm.freeHash } := by
    subst hs'
    simp only [setNo]
    rw [e3]
  refine ⟨h.rebucket false hhash hqm (fun k hk => ?_) (fun a _ h2 => hmem a fun c hc =>
    h2 c (by simp [hbk, hc])) ?_ ?_ hnd'
    (fun a => ?_) (fun hbig => ?_), hqm, fun a ha => hmem a fun c hc => ?_⟩
  · subst hs'
    simp only [setNo]
    rw [update_of_ne hk, e1 k hk]
  · have hw1 := walk_store_locAt (v := s.nxtFree f.addr) hwalk hnd1
    obtain ⟨m, -, rfl, hw3⟩ := walk_append.mp hwalk
    have hrest : Walk (s.store (locAt hash pre) (s.nxtFree f.addr)).nxtFree (s.nxtFree f.addr) post 0 :=
      hw3.congr fun a ha => nxtFree_store_locAt fun hc => hdisj a hc a ha rfl
    subst hs'
    rw [first_setNo]
    exact walk_append.mpr ⟨_, hw1, hrest⟩
  · subst hs'
    have hno := h.no hash
    rw [hbk, length_append, length_cons] at hno
    simp only [setNo, update_self, length_append]
    omega
  · rw [hbk]
    exact mem_linkOut hfresh a
  · have hold := h.sorted _ hbig
    rw [hbk] at hold
    exact hold.sublist (List.Sublist.append_left (sublist_cons_self _ _) _)
  · obtain ⟨g, hg, rfl, hgfree, -⟩ := (h.mem hash c).mp (by simp [hbk, hc])
    rcases mem_middle.mp hg with rfl | hg
    · exact absurd (mem_append_left _ hc) hfresh
    · exact ha g hg hgfree

/-! ## Splitting and joining -/

theorem roundto_dvd_overhead : roundto ∣ fragOverhead := ⟨2, rfl⟩

/-- **Fragments in use are recut** in place: the headers of the other fragments are unchanged, so the buckets are. -/
theorem HeapShape.recut (m m' : List Frag) (h : HeapShape s (l ++ (m ++ r)) bk) (hm : ∀ f ∈ m, f.free = false)
    (hm' : ∀ f ∈ m', f.free = false) (hqm : s'.qm = s.qm)
    (htiled : Tiled fragOverhead s.qm.firstFrag (l ++ (m' ++ r)) (s.qm.lastFrag + fragOverhead))
    (hd : ∀ f ∈ m', roundto ∣ f.size) (hsize : ∀ f ∈ m', s'.fragSize f.addr = f.size)
    (hold : ∀ g ∈ l ++ r, s'.fragSize g.addr = s.fragSize g.addr ∧ s'.nxtFree g.addr = s.nxtFree g.addr) :
    HeapShape s' (l ++ (m' ++ r)) bk := by
  have hbk : ∀ k, ∀ a ∈ bk k, ∃ g ∈ l ++ r, g.addr = a := by
    intro k a ha
    obtain ⟨g, hg, he, -⟩ := exists_free_recut [] hm ((h.mem k a).mp ha)
    exact ⟨g, hg, he⟩
  refine ⟨by rw [hqm]; exact htiled, by rw [hqm]; exact h.base, by rw [hqm]; exact h.extent, by rw [hqm]; exact h.fits,
    fun g hg => ?_, fun g hg => ?_, fun k => ?_, fun k => by rw [hqm]; exact h.no k, h.nodup, fun k a => ?_,
    fun k hk => ?_⟩
  · rcases mem_outer.mp hg with hg | hg
    · exact hd g hg
    · exact h.dvd g (mem_outer.mpr (.inr hg))
  · rcases mem_outer.mp hg with hg | hg
    · exact hsize g hg
    · rw [(hold g hg).1]
      exact h.size g (mem_outer.mpr (.inr hg))
  · rw [hqm]
    refine (h.chain k).congr fun a ha => ?_
    obtain ⟨g, hg, rfl⟩ := hbk k a ha
    exact (hold g hg).2
  · rw [h.mem]
    exact ⟨exists_free_recut m' hm, exists_free_recut m hm'⟩
  · refine sorted_congr (h.sorted k hk) fun a ha => ?_
    obtain ⟨g, hg, rfl⟩ := hbk k a ha
    exact (hold g hg).1

theorem HeapShape.outside (h : HeapShape s (l ++ f :: r) bk) (hg : g ∈ l ++ r) :
    g.addr + fragOverhead ≤ f.addr ∨ f.addr + fragOverhead + f.size ≤ g.addr := by
  have hne := h.tiled.others_ne HeapShape.oh_pos hg
  rcases h.tiled.disjoint (mem_middle.mpr (.inr hg)) (mem_middle.mpr (.inl rfl)) hne with hlt | hlt
  · exact .inl (by omega)
  · exact .inr hlt

/-- The headers written by a split: a fragment in use is cut in two. -/
theorem HeapShape.split {rest : Nat} (h : HeapShape s (l ++ f :: r) bk) (hu : f.free = false)
    (hs : f.size = size + fragOverhead + rest) (hd : roundto ∣ size) :
    HeapShape ((s.setSize f.addr size).setSize (f.addr + fragOverhead + size) rest)
      (l ++ { f with size := size } :: ⟨f.addr + fragOverhead + size, rest, false⟩ :: r) bk := by
  have hdrest : roundto ∣ rest := by
    have := h.dvd f (by simp)
    rw [hs] at this
    exact (Nat.dvd_add_right (Nat.dvd_add hd roundto_dvd_overhead)).mp this
  refine h.recut [f] [{ f with size := size }, ⟨f.addr + fragOverhead + size, rest, false⟩] (by simpa using hu)
    (by simpa using hu) rfl (h.tiled.split false hs) (by simpa using ⟨hd, hdrest⟩) ?_ fun g hg => ?_
  · intro g hg
    rw [fragSize_setSize, fragSize_setSize]
    rcases mem_cons.mp hg with rfl | hg
    · rw [update_of_ne (by simp only [fragOverhead]; omega), update_self]
    · rw [mem_singleton.mp hg, update_self]
  · have hout := h.outside hg
    simp only [fragOverhead] at hout hs ⊢
    rw [fragSize_setSize, fragSize_setSize, update_of_ne (by omega), update_of_ne (by omega),
      nxtFree_setSize (by omega), nxtFree_setSize (by omega)]
    exact ⟨rfl, rfl⟩

/-- The header written by a join: a fragment in use takes over a detached one behind it. -/
theorem HeapShape.join (h : HeapShape s (l ++ f :: n :: r) bk) (hf : f.free = false) (hn : n.free = false) :
    HeapShape (s.setSize f.addr (f.size + fragOverhead + n.size))
      (l ++ { f with size := f.size + fragOverhead + n.size } :: r) bk := by
  have hdf := h.dvd f (by simp)
  have hdn := h.dvd n (by simp)
  refine h.recut [f, n] [{ f with size := f.size + fragOverhead + n.size }] (by simpa using ⟨hf, hn⟩)
    (by simpa using hf) rfl h.tiled.join ?_ ?_ fun g hg => ?_
  · simpa using dvd_add (dvd_add hdf roundto_dvd_overhead) hdn
  · intro g hg
    rw [mem_singleton.mp hg, fragSize_setSize, update_self]
  · have hg' : g ∈ l ++ n :: r := by
      simp only [mem_append, mem_cons] at hg ⊢
      tauto
    have hout := h.outside hg'
    simp only [fragOverhead] at hout ⊢
    rw [fragSize_setSize, update_of_ne (by omega), nxtFree_setSize (by omega)]
    exact ⟨rfl, rfl⟩

/-- What `fm_split_frag` makes of a fragment in use. -/
abbrev splitFrag (f : Frag) (size : Nat) : List Frag := Mem.splitFrag fragOverhead fMallocOptimize f size

/-- The payload a fragment of `fsize` bytes keeps when `size` bytes of it are asked for. -/
abbrev keptSize (fsize size : Nat) : Nat := Mem.keptSize fragOverhead fMallocOptimize fsize size

/-- Splitting `f` leaves all words but its size, what is cut off, and links of the free ones among the others. -/
def CutFrame (others : List Frag) (f : Frag) (size : Nat) (s s' : Heap) : Prop :=
  ∀ a, a ≠ f.addr → (a < f.addr + fragOverhead + keptSize f.size size ∨ f.addr + fragOverhead + f.size ≤ a) →
    (∀ g ∈ others, g.free = true → a ≠ g.addr + 8) → s'.mem a = s.mem a

/-- **`fm_split_frag`**: the rest becomes a free fragment when it is worth it. -/
theorem fmSplitFrag_ok (h : HeapShape s (l ++ f :: r) bk) (hu : f.free = false) (hle : size ≤ f.size)
    (hd : roundto ∣ size) :
    ∃ s' bk', s.fmSplitFrag f.addr size = some s' ∧ HeapShape s' (l ++ (splitFrag f size ++ r)) bk' ∧
      s'.qm = { s.qm with
        freeHash := s'.qm.freeHash
        realUsed := if Splits f.size size then wadd s.qm.realUsed fragOverhead else s.qm.realUsed } ∧
      CutFrame (l ++ r) f size s s' := by
  have hsize := h.size f (by simp)
  unfold fmSplitFrag
  simp only [hsize]
  by_cases hc : Splits f.size size
  · have hs : f.size = size + fragOverhead + (f.size - size - fragOverhead) := by
      have hroom := hc.le hle
      omega
    rw [if_pos hc]
    -- the second header is written where the first fragment now ends
    have hnext : (s.setSize f.addr size).fragNext f.addr = f.addr + fragOverhead + size := by
      rw [fragNext, fragSize_setSize, update_self]
    have hcut := (h.split hu hs hd).setRealUsed (wadd s.qm.realUsed fragOverhead)
    have hlist : l ++ { f with size := size } ::
        ⟨f.addr + fragOverhead + size, f.size - size - fragOverhead, false⟩ :: r = (l ++ [{ f with size := size }]) ++
        ⟨f.addr + fragOverhead + size, f.size - size - fragOverhead, false⟩ :: r := by simp
    rw [hlist] at hcut
    obtain ⟨s', bk', he, hshape, hqm, honly⟩ := fmInsertFree_ok hcut rfl
    refine ⟨s', bk', ?_, ?_, ?_, fun a h1 h2 h3 => ?_⟩
    · rw [hnext]
      exact he
    · unfold splitFrag Mem.splitFrag
      rw [if_pos hc]
      simpa using hshape
    · rw [hqm, if_pos hc]
      rfl
    · have hkept : keptSize f.size size = size := if_pos hc
      have hmem := honly a fun g hg hfree => ?_
      · rw [hmem]
        simp only [fragOverhead] at h2 hs ⊢
        show update (update s.mem f.addr size) (f.addr + 16 + size) _ a = s.mem a
        rw [update_of_ne (by omega), update_of_ne h1]
      · simp only [append_assoc, cons_append, nil_append, mem_append, mem_cons] at hg
        rcases hg with hg | rfl | rfl | hg
        · exact h3 g (by simp [hg]) hfree
        · rw [show _ = false from hu] at hfree
          cases hfree
        · simp only [fragOverhead] at h2 hs ⊢
          omega
        · exact h3 g (by simp [hg]) hfree
  · rw [if_neg hc]
    refine ⟨s, bk, rfl, ?_, ?_, fun _ _ _ _ => rfl⟩
    · unfold splitFrag Mem.splitFrag
      rw [if_neg hc]
      exact h
    · rw [if_neg hc]

end OpenSer.Mem.FM



