import OpenSer.Mem.FMallocRun

/-!
# Which fragment the fast allocator takes

The buckets below the first one that `fm_malloc` looks at hold fragments that are too small, and among those that are
large enough the first one found is a smallest one.

* `small_of_hash`: a small bucket holds fragments of one size.
* `HeapShape.findFrag_best`: what the search finds, in terms of all fragments.
* `best_fit`: `fm_malloc` fails only if no free fragment is large enough, and takes a smallest one otherwise.
-/

namespace OpenSer.Mem.FM

open Option Lib List

variable {s s' : Heap} {fs : List Frag} {f g : Frag} {bk : Nat → List Nat} {size p : Nat} {c : Client Heap}

theorem getHash_mono {m n : Nat} (hmn : m ≤ n) (hn : n < 2 ^ 64) : getHash m ≤ getHash n := by
  unfold getHash
  exact Mem.getHash_mono hmn hn

/-- A small bucket holds fragments of one size. -/
theorem small_of_hash {n : Nat} (hn : n < 2 ^ 64) (h : getHash n ≤ fMallocOptimize / roundto) :
    getHash n = n / roundto := by
  have hopt : fMallocOptimize = 2 ^ fMallocOptimizeFactor := rfl
  unfold getHash Mem.getHash at h ⊢
  by_cases hsmall : n ≤ 2 ^ fMallocOptimizeFactor
  · rw [if_pos hsmall]
  · have hidx : fMallocOptimizeFactor ≤ bigHashIdx n := by
      rw [bigHashIdx_eq_log (Nat.zero_lt_of_lt (not_le.mp hsmall)) hn]
      exact Nat.le_log_of_pow_le (by norm_num) (not_le.mp hsmall).le
    rw [if_neg hsmall, hopt] at h
    omega

theorem HeapShape.size_lt (h : HeapShape s fs bk) (hf : f ∈ fs) : f.size < 2 ^ 64 := by
  have hb := (h.tiled.bounds hf).2
  have ha := (h.tiled.bounds hf).1
  have hext := h.extent
  have hfits := h.fits
  omega

theorem HeapShape.le_of_before (h : HeapShape s fs bk) (hf : f ∈ fs) (hg : g ∈ fs) {pre post : List Nat}
    (hbk : bk (getHash f.size) = pre ++ f.addr :: post) (hmem : g.addr ∈ post) : f.size ≤ g.size := by
  have hhash : getHash g.size = getHash f.size := h.hash_eq_of_mem hg (by rw [hbk]; simp [hmem])
  by_cases hlarge : fMallocOptimize / roundto < getHash f.size
  · have hsorted := h.sorted _ hlarge
    rw [hbk] at hsorted
    have hle := (pairwise_cons.mp (pairwise_append.mp hsorted).2.1).1 g.addr hmem
    rwa [h.size f hf, h.size g hg] at hle
  · -- both sizes are the number of the bucket times `ROUNDTO`
    have hfs := small_of_hash (h.size_lt hf) (not_lt.mp hlarge)
    have hgs := small_of_hash (h.size_lt hg) (hhash ▸ not_lt.mp hlarge)
    obtain ⟨m, hm⟩ := h.dvd f hf
    obtain ⟨n, hn⟩ := h.dvd g hg
    rw [hfs, hgs, hm, hn] at hhash
    simp only [roundto] at hhash hm hn
    omega

/-- **The search** of `fm_malloc` finds nothing only if no free fragment is large enough, and else a smallest one. -/
theorem HeapShape.findFrag_best (h : HeapShape s fs bk) (size : Nat) :
    (s.findFrag size (fHashSize - getHash size) = some none ∧ ∀ g ∈ fs, g.free = true → g.size < size) ∨
    ∃ f ∈ fs, ∃ hash loc, f.free = true ∧ size ≤ f.size ∧
      s.findFrag size (fHashSize - getHash size) = some (some (hash, loc)) ∧ s.deref loc = f.addr ∧
      ∀ g ∈ fs, g.free = true → size ≤ g.size → f.size ≤ g.size := by
  have hlt : ∀ n, getHash n < fHashSize := fun n => by
    unfold getHash
    exact getHash_lt (by decide) n
  have hstart : fHashSize - (fHashSize - getHash size) = getHash size := by
    have := hlt size
    omega
  have hin : ∀ g ∈ fs, g.free = true → g.addr ∈ bk (getHash g.size) := fun g hg hfree =>
    (h.mem _ _).mpr ⟨g, hg, rfl, hfree, rfl⟩
  have hclass : ∀ g ∈ fs, size ≤ g.size → getHash size ≤ getHash g.size := fun g hg hle =>
    getHash_mono hle (h.size_lt hg)
  rcases h.findFrag_eq size (fHashSize - getHash size) with
    ⟨he, hnone⟩ | ⟨hash, pre, a, post, he, hbk, hsz, hpre, hlo, hlow⟩
  · refine .inl ⟨he, fun g hg hfree => ?_⟩
    by_contra hge
    have hsmall := hnone (getHash g.size) (by rw [hstart]; exact hclass g hg (not_lt.mp hge))
      (hlt _) g.addr (hin g hg hfree)
    rw [h.size g hg] at hsmall
    exact hge hsmall
  · right
    obtain ⟨f, hf, rfl, hfree, rfl⟩ := (h.mem hash a).mp (by simp [hbk])
    refine ⟨f, hf, getHash f.size, locAt (getHash f.size) pre, hfree, h.size f hf ▸ hsz, he,
      deref_locAt (hbk ▸ h.chain _), fun g hg hgfree hle => ?_⟩
    rcases lt_trichotomy (getHash g.size) (getHash f.size) with hk | hk | hk
    · -- an earlier bucket
      have hsmall := hlow (getHash g.size) (by rw [hstart]; exact hclass g hg hle) hk g.addr (hin g hg hgfree)
      rw [h.size g hg] at hsmall
      omega
    · have hmem := hin g hg hgfree
      rw [hk, hbk] at hmem
      rcases mem_append.mp hmem with hmem | hmem
      · have hsmall := hpre g.addr hmem
        rw [h.size g hg] at hsmall
        omega
      · rcases mem_cons.mp hmem with haddr | hmem
        · rw [h.tiled.eq_of_addr HeapShape.oh_pos hg hf haddr]
        · exact h.le_of_before hf hg hbk hmem
    · by_contra hgt
      exact absurd (getHash_mono (not_le.mp hgt).le (h.size_lt hf)) (not_le.mpr hk)

theorem fmMalloc_found {hash : Nat} {loc : Loc}
    (hfind : s.findFrag (roundup size) (fHashSize - getHash (roundup size)) =
    some (some (hash, loc))) (he : s.fmMalloc size = some (s', p)) : p = s.deref loc + fragOverhead := by
  unfold Heap.fmMalloc at he
  dsimp only at he
  rw [hfind, bind_eq_bind, bind_some] at he
  obtain ⟨s₁, -, he⟩ := bind_eq_some_iff.mp he
  exact (Prod.mk.inj (some.inj he)).2.symm

/-- **Best fit**: in every state that valid calls lead to, `fm_malloc` returns null only if no free fragment has the
rounded size, and otherwise takes a free fragment of the smallest size that is large enough. -/
theorem best_fit {mem : Nat → Nat} {address total : Nat} {es : List (Call × Client Heap)} (htotal : total < 2 ^ 64)
    (hi : Heap.fmMallocInit mem address total = some s) (hrun : Trace (Step allocator) ⟨s, []⟩ es)
    (hc : c = ⟨s, []⟩ ∨ ∃ e ∈ es, c = e.2) (size : Nat) :
    ∃ s' p, c.heap.fmMalloc size = some (s', p) ∧
      (p = 0 → ∀ g ∈ c.heap.frags c.live, g.free = true → g.size < roundup size) ∧
      (p ≠ 0 → ∃ f ∈ c.heap.frags c.live, f.free = true ∧ p = f.addr + fragOverhead ∧ roundup size ≤ f.size ∧
        ∀ g ∈ c.heap.frags c.live, g.free = true → roundup size ≤ g.size → f.size ≤ g.size) := by
  obtain ⟨bk, hok, hl⟩ := clientOk_over_runs htotal hi hrun hc
  have hpos : ∀ f : Frag, f.addr + fragOverhead ≠ 0 := fun f => by
    simp only [fragOverhead]
    omega
  rcases hok.findFrag_best (roundup size) with ⟨hfind, hnone⟩ | ⟨f, hf, hash, loc, hfree, hle, hfind, hderef, hbest⟩
  · refine ⟨c.heap, 0, ?_, fun _ => hnone, fun h0 => absurd rfl h0⟩
    unfold Heap.fmMalloc
    dsimp only
    rw [hfind, bind_eq_bind, bind_some]
  · have hret : ∃ s' p, c.heap.fmMalloc size = some (s', p) := by
      rcases fmMalloc_ok hok size with ⟨he, -⟩ | ⟨_, _, _, s', _, -, -, -, he, -⟩
      · exact ⟨_, _, he⟩
      · exact ⟨_, _, he⟩
    obtain ⟨s', p, he⟩ := hret
    have hp := fmMalloc_found hfind he
    rw [hderef] at hp
    refine ⟨s', p, he, fun h0 => absurd (hp.symm.trans h0) (hpos f), fun _ => ⟨f, hf, hfree, hp, hle, hbest⟩⟩

/-- With free fragments of 64, 40 and 72 bytes, 33 bytes come from the one of 40. -/
theorem best_fit_small : ∃ c : Client Heap, ((c.heap.frags c.live).filter (·.free)).map Frag.size = [64, 40, 72] ∧
    ∃ f ∈ c.heap.frags c.live, ∃ s', f.size = 40 ∧ c.heap.fmMalloc 33 = some (s', f.addr + fragOverhead) := by
  let calls : List Call := [.malloc 64, .malloc 8, .malloc 40, .malloc 8, .free 33648, .free 33752]
  obtain ⟨c, hc, hsizes, hp⟩ : ∃ c, ((Heap.fmMallocInit (fun _ => 0) 0 33904).bind fun s =>
      runCalls allocator ⟨s, []⟩ calls) = some c ∧ ((c.heap.frags c.live).filter (·.free)).map Frag.size =
        [64, 40, 72] ∧
      (c.heap.fmMalloc 33).map Prod.snd = some 33752 := exists_of_any (by decide +kernel)
  obtain ⟨s, hi, hcalls⟩ := bind_eq_some_iff.mp hc
  obtain ⟨es, hrun, hreach⟩ := runCalls_reached hcalls
  obtain ⟨s', p, he, -, hbest⟩ := best_fit (by decide) hi hrun hreach 33
  rw [he, map_some] at hp
  have hp : p = 33752 := some.inj hp
  obtain ⟨f, hf, hfree, hpf, hle, hmin⟩ := hbest (by omega)
  have hround : roundup 33 = 40 := by decide
  refine ⟨c, hsizes, f, hf, s', ?_, hpf ▸ he⟩
  -- there is a free fragment of 40 bytes, so the one taken is not larger
  have h40 : 40 ∈ ((c.heap.frags c.live).filter (·.free)).map Frag.size := by
    rw [hsizes]
    decide
  obtain ⟨g, hg, hgsize⟩ := mem_map.mp h40
  have hg' := mem_filter.mp hg
  have := hmin g hg'.1 hg'.2 (by omega)
  omega

end OpenSer.Mem.FM
