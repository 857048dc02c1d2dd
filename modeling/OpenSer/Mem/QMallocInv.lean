import OpenSer.Mem.QMalloc

/-!
# The heap invariant of the quick allocator

`HeapShape s fs bk` relates a heap to the list `fs` of its fragments and to its buckets `bk`: the fragments tile the
block, each with the same size at both ends, and each bucket is a ring of exactly the free fragments of its class,
sorted by size. `HeapOk` adds that a fragment in use has a null `nxt_free`.

The links of a node (a head or a fragment) are words at both of its ends, so a write to one field must be shown not to
hit another. `View` says this once: on a set of nodes that lie apart, memory behaves like one map per field.

* `View.setNxtFree`, `View.setPrevFree`: a write of a link as an update of its map.
* `qmInsertFree_ok`, `HeapShape.detach`, `HeapShape.recut`: the edits the operations are made of.
-/

namespace OpenSer.Mem.QM

open List Function Lib

/-- The fragments tile the block, and bucket `h` is a ring of the free fragments of class `h`. -/
structure HeapShape (s : Heap) (fs : List Frag) (bk : Nat → List Nat) : Prop where
  tiled : Tiled fragOverhead s.qm.firstFrag fs (s.qm.lastFragEnd + sizeofQmFragEnd)
  first : s.qm.firstFrag = s.qm.addr + roundup sizeofQmBlock
  extent : s.qm.addr + s.qm.size = s.qm.lastFragEnd + sizeofQmFragEnd
  fits : s.qm.size < 2 ^ 64
  headSize : ∀ h < qmHashSize, s.fragSize (s.head h) = 0
  size : ∀ f ∈ fs, s.fragSize f.addr = f.size
  foot : ∀ f ∈ fs, s.endSize f.addr = f.size
  ring : ∀ h < qmHashSize, Links s.nxtFree s.prevFree (s.head h :: bk h ++ [s.head h])
  no : ∀ h, s.qm.no h = (bk h).length
  nodup : ∀ h, (bk h).Nodup
  mem : ∀ h a, a ∈ bk h ↔ ∃ f ∈ fs, f.addr = a ∧ f.free = true ∧ getHash f.size = h
  sorted : ∀ h, (bk h).Pairwise fun a b => s.fragSize a ≤ s.fragSize b

/-- The invariant between calls: also, a fragment in use has a null `nxt_free`. -/
structure HeapOk (s : Heap) (fs : List Frag) (bk : Nat → List Nat) : Prop extends HeapShape s fs bk where
  taken : ∀ f ∈ fs, f.free = false → s.nxtFree f.addr = 0

variable {s s' : Heap} {fs l r : List Frag} {f g n : Frag} {bk : Nat → List Nat} {pre post : List Nat} {x : Nat}

/-! ## Nodes that lie apart -/

/-- The heads of the buckets and the fragments. -/
def Node (s : Heap) (fs : List Frag) (x : Nat) : Prop :=
  (∃ h < qmHashSize, x = s.head h) ∨ ∃ f ∈ fs, x = f.addr

/-- The nodes of `S` do not overlap. -/
def Apart (s : Heap) (S : Nat → Prop) : Prop :=
  ∀ x y, S x → S y → x ≠ y → x + 32 + s.fragSize x ≤ y ∨ y + 32 + s.fragSize y ≤ x

/-- On the nodes of `S`, the heap `s'` has the sizes of `s` and the links `N` and `P`. -/
structure View (S : Nat → Prop) (s s' : Heap) (N P : Nat → Nat) : Prop where
  size : ∀ x, S x → s'.fragSize x = s.fragSize x
  foot : ∀ x, S x → s'.endSize x = s.endSize x
  nxt : ∀ x, S x → s'.nxtFree x = N x
  prev : ∀ x, S x → s'.prevFree x = P x

theorem View.refl (S : Nat → Prop) (s : Heap) : View S s s s.nxtFree s.prevFree :=
  ⟨fun _ _ => rfl, fun _ _ => rfl, fun _ _ => rfl, fun _ _ => rfl⟩

abbrev SameFields (s s' : Heap) (x : Nat) : Prop :=
  s'.fragSize x = s.fragSize x ∧ s'.endSize x = s.endSize x ∧ s'.nxtFree x = s.nxtFree x ∧ s'.prevFree x = s.prevFree x

theorem fields_of_mem (h0 : s'.mem x = s.mem x) (h8 : s'.mem (x + 8) = s.mem (x + 8))
    (he : s'.mem (x + 16 + s.mem x) = s.mem (x + 16 + s.mem x))
    (hp : s'.mem (x + 16 + s.mem x + 8) = s.mem (x + 16 + s.mem x + 8)) : SameFields s s' x := by
  simp only [SameFields, Heap.fragSize, Heap.endSize, Heap.nxtFree, Heap.prevFree, Heap.fragEnd,
    sizeofQmFrag, h0, h8, he, hp, and_self]

variable {S : Nat → Prop} {N P : Nat → Nat} {x v k a j e : Nat} {k : Nat} {hash : Nat} {xs : List Nat}

theorem View.setNxtFree (hap : Apart s S) (h : View S s s' N P) (hx : S x) (v : Nat) :
    View S s (s'.setNxtFree x v) (update N x v) P := by
  have hread : ∀ w, S w → (s'.setNxtFree x v).fragSize w = s'.fragSize w ∧
      (s'.setNxtFree x v).endSize w = s'.endSize w ∧ (s'.setNxtFree x v).prevFree w = s'.prevFree w := by
    intro w hw
    have hsz : s'.mem w = s.fragSize w := h.size w hw
    have hne : w ≠ x + 8 ∧ w + 16 + s'.mem w ≠ x + 8 ∧ w + 16 + s'.mem w + 8 ≠ x + 8 := by
      by_cases hwx : w = x
      · omega
      · have := hap w x hw hx hwx
        omega
    simp only [Heap.fragSize, Heap.endSize, Heap.prevFree, Heap.fragEnd, sizeofQmFrag, Heap.setNxtFree, Heap.setMem,
      update_of_ne hne.1, update_of_ne hne.2.1, update_of_ne hne.2.2, and_self]
  refine ⟨fun w hw => ?_, fun w hw => ?_, fun w hw => ?_, fun w hw => ?_⟩
  · rw [(hread w hw).1, h.size w hw]
  · rw [(hread w hw).2.1, h.foot w hw]
  · by_cases hwx : w = x
    · subst hwx
      rw [update_self]
      exact update_self ..
    · rw [update_of_ne hwx, ← h.nxt w hw]
      exact update_of_ne (by omega) _ _
  · rw [(hread w hw).2.2, h.prev w hw]

theorem View.setPrevFree (hap : Apart s S) (h : View S s s' N P) (hx : S x) (v : Nat) :
    View S s (s'.setPrevFree x v) N (update P x v) := by
  have hxs : s'.mem x = s.fragSize x := h.size x hx
  have hread : ∀ w, S w → (s'.setPrevFree x v).fragSize w = s'.fragSize w ∧
      (s'.setPrevFree x v).endSize w = s'.endSize w ∧ (s'.setPrevFree x v).nxtFree w = s'.nxtFree w ∧
      (w ≠ x → (s'.setPrevFree x v).prevFree w = s'.prevFree w) := by
    intro w hw
    have hsz : s'.mem w = s.fragSize w := h.size w hw
    have hne : w ≠ x + 16 + s'.mem x + 8 ∧ w + 8 ≠ x + 16 + s'.mem x + 8 ∧
        w + 16 + s'.mem w ≠ x + 16 + s'.mem x + 8 ∧ (w ≠ x → w + 16 + s'.mem w + 8 ≠ x + 16 + s'.mem x + 8) := by
      by_cases hwx : w = x
      · subst hwx
        exact ⟨by omega, by omega, by omega, fun hc => absurd rfl hc⟩
      · have := hap w x hw hx hwx
        omega
    obtain ⟨h0, h8, he, hp⟩ := hne
    simp only [Heap.fragSize, Heap.endSize, Heap.prevFree, Heap.nxtFree, Heap.fragEnd, sizeofQmFrag, Heap.setPrevFree,
      Heap.setMem, update_of_ne h0, update_of_ne h8, update_of_ne he, true_and]
    intro hwx
    exact update_of_ne (hp hwx) _ _
  refine ⟨fun w hw => ?_, fun w hw => ?_, fun w hw => ?_, fun w hw => ?_⟩
  · rw [(hread w hw).1, h.size w hw]
  · rw [(hread w hw).2.1, h.foot w hw]
  · rw [(hread w hw).2.2.1, h.nxt w hw]
  · by_cases hwx : w = x
    · subst hwx
      rw [update_self]
      have hend : (s'.setPrevFree w v).fragEnd w = s'.fragEnd w := by
        rw [Heap.fragEnd, (hread w hw).1, Heap.fragEnd]
      rw [Heap.prevFree, hend]
      exact update_self ..
    · rw [update_of_ne hwx, ← h.prev w hw]
      exact (hread w hw).2.2.2 hwx

theorem View.setNo (h : View S s s' N P) (hash v : Nat) : View S s (s'.setNo hash v) N P :=
  ⟨h.size, h.foot, h.nxt, h.prev⟩

/-! ## The nodes of a heap -/

namespace HeapShape

theorem oh_pos : 0 < fragOverhead := by decide

theorem hash_lt (size : Nat) : getHash size < qmHashSize := by
  unfold getHash
  exact getHash_lt (by decide) size

theorem overhead_eq : fragOverhead = 32 := by decide

theorem stretch (h : HeapShape s fs bk) :
    s.qm.firstFrag + s.qm.size = s.qm.lastFragEnd + sizeofQmFragEnd + 43056 := by
  have hblock : roundup sizeofQmBlock = 43056 := by decide
  rw [← h.extent, h.first, hblock]
  omega

theorem head_add_le (h : HeapShape s fs bk) (hk : k < qmHashSize) : s.head k + 32 ≤ s.qm.firstFrag := by
  have hblock : roundup sizeofQmBlock = 43056 := by decide
  have hsize : qmHashSize = 1075 := by decide
  rw [h.first, hblock]
  simp only [Heap.head, freeHashOffset, sizeofQmFragLnk, sizeofQmFrag, sizeofQmFragEnd]
  omega

theorem head_inj (he : s.head j = s.head k) : j = k := by
  simp only [Heap.head, sizeofQmFragLnk, sizeofQmFrag, sizeofQmFragEnd] at he
  omega

section
variable (h : HeapShape s fs bk)
include h

theorem head_lt (hk : k < qmHashSize) (hf : f ∈ fs) : s.head k + 32 ≤ f.addr :=
  (h.head_add_le hk).trans (h.tiled.bounds hf).1

theorem apart : Apart s (Node s fs) := by
  rintro x y (⟨j, hj, rfl⟩ | ⟨f, hf, rfl⟩) (⟨k, hk, rfl⟩ | ⟨g, hg, rfl⟩) hne
  · rw [h.headSize j hj, h.headSize k hk]
    simp only [Heap.head, sizeofQmFragLnk, sizeofQmFrag, sizeofQmFragEnd] at hne ⊢
    omega
  · rw [h.headSize j hj]
    exact .inl (h.head_lt hj hg)
  · rw [h.headSize k hk]
    exact .inr (h.head_lt hk hf)
  · rw [h.size f hf, h.size g hg]
    exact h.tiled.disjoint hf hg hne

theorem node_of_mem (ha : a ∈ bk k) : Node s fs a := by
  obtain ⟨f, hf, rfl, -⟩ := (h.mem k a).mp ha
  exact .inr ⟨f, hf, rfl⟩

theorem node_of_ring (hk : k < qmHashSize) (ha : a ∈ s.head k :: bk k) :
    Node s fs a := by
  rcases mem_cons.mp ha with rfl | ha
  · exact .inl ⟨k, hk, rfl⟩
  · exact h.node_of_mem ha

theorem head_not_mem (hj : j < qmHashSize) : s.head j ∉ bk k := by
  intro hc
  obtain ⟨f, hf, he, -⟩ := (h.mem k _).mp hc
  have := h.head_lt hj hf
  omega

theorem hash_eq_of_mem (hf : f ∈ fs) (hc : f.addr ∈ bk k) : f.free = true ∧ getHash f.size = k :=
  Buckets.of_mem h.mem h.tiled oh_pos hf hc

theorem hash_eq_of_ring (hk : k < qmHashSize) (hf : f ∈ fs)
    (hc : f.addr ∈ s.head k :: bk k) : f.free = true ∧ getHash f.size = k := by
  rcases mem_cons.mp hc with he | hc
  · have := h.head_lt hk hf
    omega
  · exact h.hash_eq_of_mem hf hc

theorem used_ne_ring (hg : g ∈ fs) (hgu : g.free = false)
    (hk : k < qmHashSize) (hx : x ∈ s.head k :: bk k) : g.addr ≠ x := by
  rintro rfl
  rw [(h.hash_eq_of_ring hk hg hx).1] at hgu
  cases hgu

theorem ring_disjoint (hj : j < qmHashSize) (hk : k < qmHashSize) (hne : j ≠ k)
    (ha : a ∈ s.head j :: bk j) : a ∉ s.head k :: bk k := by
  intro hc
  rcases mem_cons.mp ha with rfl | ha
  · rcases mem_cons.mp hc with hc | hc
    · exact hne (head_inj hc)
    · exact h.head_not_mem hj hc
  · obtain ⟨f, hf, rfl, -, rfl⟩ := (h.mem j a).mp ha
    exact hne (h.hash_eq_of_ring hk hf hc).2

theorem ring_nodup (hk : k < qmHashSize) :
    (s.head k :: bk k).Nodup ∧ (bk k ++ [s.head k]).Nodup := by
  have hnd : (s.head k :: bk k).Nodup := nodup_cons.mpr ⟨h.head_not_mem hk, h.nodup k⟩
  exact ⟨hnd, (perm_append_singleton _ _).nodup_iff.mpr hnd⟩

theorem length_lt_fuel (k : Nat) : (bk k).length < s.fuel := by
  have hle : (bk k).length ≤ fs.length := by
    refine length_le_of_addrs (h.nodup k) fun a ha => ?_
    obtain ⟨f, hf, he, -⟩ := (h.mem k a).mp ha
    exact ⟨f, hf, he⟩
  have hlen := h.tiled.length_le
  have hext := h.stretch
  rw [overhead_eq] at hlen
  show (bk k).length < s.qm.size
  omega

end

end HeapShape

/-! ## Walking a ring -/

/-- **A loop over a ring** stops at the first fragment that meets the condition, or at the head. -/
theorem scan_eq {stop : Nat → Bool} {head : Nat} : ∀ {xs : List Nat} {a fuel : Nat},
    Walk s.nxtFree a xs head → (∀ x ∈ xs, x ≠ head) → xs.length < fuel →
    s.scan stop head fuel a = some ((xs.dropWhile fun x => !stop x).headD head)
  | [], a, fuel, hw, _, hf => by
    obtain ⟨k, rfl⟩ : ∃ k, fuel = k + 1 := ⟨fuel - 1, by simp at hf; omega⟩
    have ha : a = head := hw
    rw [Heap.scan, if_pos ha, ha]
    rfl
  | x :: xs, a, fuel, hw, hne, hf => by
    obtain ⟨k, rfl⟩ : ∃ k, fuel = k + 1 := ⟨fuel - 1, by simp at hf; omega⟩
    obtain ⟨rfl, hw⟩ := hw
    rw [Heap.scan, if_neg (hne a (by simp))]
    cases hstop : stop a with
    | true => simp [hstop]
    | false =>
      have ih : s.scan stop head k (s.nxtFree a) = _ :=
        scan_eq hw (forall_mem_cons.mp hne).2 (Nat.lt_of_succ_lt_succ hf)
      simp [ih, hstop]

theorem HeapShape.scan_ring (h : HeapShape s fs bk) (hk : k < qmHashSize) (stop : Nat → Bool) :
    s.scan stop (s.head k) s.fuel (s.nxtFree (s.head k)) =
      some (((bk k).dropWhile fun x => !stop x).headD (s.head k)) :=
  scan_eq (h.ring k hk).walk.2 (fun _ hx he => h.head_not_mem hk (he ▸ hx)) (h.length_lt_fuel k)

/-! ## Relinking one fragment -/

/-- **One fragment enters or leaves its bucket**: the links of that bucket's ring are rewritten, and no others. -/
theorem HeapShape.relink (h : HeapShape s (l ++ f :: r) bk) (b : Bool) (hhash : getHash f.size = hash)
    (hv : View (Node s (l ++ f :: r)) s s' N P)
    (hqm : s'.qm = { s.qm with no := update s.qm.no hash xs.length })
    (hring : Links N P (s.head hash :: xs ++ [s.head hash]))
    (hother : ∀ k < qmHashSize, k ≠ hash → ∀ w ∈ s.head k :: bk k, N w = s.nxtFree w ∧ P w = s.prevFree w)
    (hnd : xs.Nodup) (hmem : ∀ a, a ∈ xs ↔ (b = true ∧ a = f.addr) ∨ (a ≠ f.addr ∧ a ∈ bk hash))
    (hsorted : xs.Pairwise fun a b => s.fragSize a ≤ s.fragSize b) :
    HeapShape s' (l ++ { f with free := b } :: r) (update bk hash xs) := by
  have hhead : ∀ k, s'.head k = s.head k := fun k => by rw [Heap.head, hqm, Heap.head]
  have hnode : ∀ g ∈ l ++ { f with free := b } :: r, ∃ g' ∈ l ++ f :: r, g'.addr = g.addr ∧ g'.size = g.size := by
    intro g hg
    rcases mem_middle.mp hg with rfl | hg
    · exact ⟨f, by simp, rfl, rfl⟩
    · exact ⟨g, mem_middle.mpr (.inr hg), rfl, rfl⟩
  have hxs : ∀ a ∈ xs, Node s (l ++ f :: r) a := by
    intro a ha
    rcases (hmem a).mp ha with ⟨-, rfl⟩ | ⟨-, ha⟩
    · exact .inr ⟨f, by simp, rfl⟩
    · exact h.node_of_mem ha
  have hheadNode : ∀ k < qmHashSize, Node s (l ++ f :: r) (s.head k) := fun k hk => .inl ⟨k, hk, rfl⟩
  refine ⟨?_, ?_, ?_, ?_, fun k hk => ?_, fun g hg => ?_, fun g hg => ?_,
    (forall_update_iff bk fun k xs => k < qmHashSize → Links s'.nxtFree s'.prevFree
      (s'.head k :: xs ++ [s'.head k])).mpr
      ⟨?_, ?_⟩, (forall_update_iff bk fun k xs => s'.qm.no k = xs.length).mpr ⟨?_, fun k hk => ?_⟩,
    (forall_update_iff bk fun _ xs => xs.Nodup).mpr ⟨hnd, fun k _ => h.nodup k⟩,
    Buckets.mark b h.mem h.tiled HeapShape.oh_pos hhash hmem,
    (forall_update_iff bk fun _ xs => xs.Pairwise fun a c => s'.fragSize a ≤ s'.fragSize c).mpr
      ⟨sorted_congr hsorted fun a ha => hv.size a (hxs a ha),
        fun k _ => sorted_congr (h.sorted k) fun a ha => hv.size a (h.node_of_mem ha)⟩⟩
  · rw [hqm]
    exact h.tiled.mark b
  · rw [hqm]
    exact h.first
  · rw [hqm]
    exact h.extent
  · rw [hqm]
    exact h.fits
  · rw [hhead, hv.size _ (hheadNode k hk), h.headSize k hk]
  · obtain ⟨g', hg', ha, hs⟩ := hnode g hg
    rw [← ha, hv.size _ (.inr ⟨g', hg', rfl⟩), h.size g' hg', hs]
  · obtain ⟨g', hg', ha, hs⟩ := hnode g hg
    rw [← ha, hv.foot _ (.inr ⟨g', hg', rfl⟩), h.foot g' hg', hs]
  · intro hk
    rw [hhead]
    refine hring.ring_congr fun w hw => ?_
    have hw' : Node s (l ++ f :: r) w := forall_mem_cons.mpr ⟨hheadNode hash hk, hxs⟩ w hw
    exact ⟨hv.nxt w hw', hv.prev w hw'⟩
  · intro k hk' hk
    rw [hhead]
    refine (h.ring k hk).ring_congr fun w hw => ?_
    rw [hv.nxt w (h.node_of_ring hk hw), hv.prev w (h.node_of_ring hk hw)]
    exact hother k hk hk' w hw
  · rw [hqm]
    exact update_self ..
  · rw [hqm]
    exact (update_of_ne hk _ _).trans (h.no k)

/-- Transport: the sizes of the nodes and the links of the rings are unchanged, and so is the block but for its
counters. -/
theorem HeapShape.congr (h : HeapShape s fs bk)
    (hqm : s'.qm = { s.qm with used := s'.qm.used, realUsed := s'.qm.realUsed, maxRealUsed := s'.qm.maxRealUsed })
    (hread : ∀ x, Node s fs x → s'.fragSize x = s.fragSize x ∧ s'.endSize x = s.endSize x)
    (hlinks : ∀ k < qmHashSize, ∀ w ∈ s.head k :: bk k, s'.nxtFree w = s.nxtFree w ∧ s'.prevFree w = s.prevFree w) :
    HeapShape s' fs bk := by
  have hhead : ∀ k, s'.head k = s.head k := fun k => by rw [Heap.head, hqm, Heap.head]
  refine ⟨?_, ?_, ?_, ?_, fun k hk => ?_, fun g hg => ?_, fun g hg => ?_, fun k hk => ?_, fun k => ?_, h.nodup, h.mem,
    fun k => ?_⟩
  · rw [hqm]
    exact h.tiled
  · rw [hqm]
    exact h.first
  · rw [hqm]
    exact h.extent
  · rw [hqm]
    exact h.fits
  · rw [hhead, (hread _ (.inl ⟨k, hk, rfl⟩)).1, h.headSize k hk]
  · rw [(hread _ (.inr ⟨g, hg, rfl⟩)).1, h.size g hg]
  · rw [(hread _ (.inr ⟨g, hg, rfl⟩)).2, h.foot g hg]
  · rw [hhead]
    exact (h.ring k hk).ring_congr (hlinks k hk)
  · rw [hqm]
    exact h.no k
  · exact sorted_congr (h.sorted k) fun a ha => (hread a (h.node_of_mem ha)).1

theorem HeapShape.setNxt_used (h : HeapShape s fs bk) (hf : f ∈ fs) (hu : f.free = false) (v : Nat) :
    HeapShape (s.setNxtFree f.addr v) fs bk ∧
      ∀ g ∈ fs, (s.setNxtFree f.addr v).nxtFree g.addr = update s.nxtFree f.addr v g.addr := by
  have hv := (View.refl (Node s fs) s).setNxtFree h.apart (.inr ⟨f, hf, rfl⟩) v
  refine ⟨h.congr rfl (fun x hx => ⟨hv.size x hx, hv.foot x hx⟩) fun k hk w hw => ?_,
    fun g hg => hv.nxt _ (.inr ⟨g, hg, rfl⟩)⟩
  have hnode := h.node_of_ring hk hw
  rw [hv.nxt w hnode, hv.prev w hnode, update_of_ne (h.used_ne_ring hf hu hk hw).symm]
  exact ⟨rfl, rfl⟩

theorem seam_mem (head : Nat) (hsub : pre ++ post ⊆ xs) :
    pre.getLastD head ∈ head :: xs ∧ post.headD head ∈ head :: xs := by
  constructor
  · obtain ⟨pre', hpre⟩ := exists_concat_getLastD head pre
    have hmem : pre.getLastD head ∈ head :: pre := by rw [hpre]; simp
    rcases mem_cons.mp hmem with he | hmem
    · rw [he]
      exact mem_cons_self
    · exact mem_cons_of_mem _ (hsub (mem_append_left _ hmem))
  · cases post with
    | nil => exact mem_cons_self
    | cons p post => exact mem_cons_of_mem _ (hsub (by simp))

/-- Other rings do not see a change of links at the nodes of one ring and at a fragment in no other ring. -/
theorem HeapShape.other_ring (h : HeapShape s (l ++ f :: r) bk) {hash : Nat} (hhash : getHash f.size = hash)
    (hx : x = f.addr ∨ x ∈ s.head hash :: bk hash) {w : Nat} (hk : k < qmHashSize) (hne : k ≠ hash)
    (hw : w ∈ s.head k :: bk k) : w ≠ x := by
  have hlt : hash < qmHashSize := hhash ▸ HeapShape.hash_lt f.size
  rintro rfl
  rcases hx with rfl | hx
  · exact hne ((h.hash_eq_of_ring hk (by simp) hw).2.symm.trans hhash)
  · exact h.ring_disjoint hk hlt hne hw hx

theorem HeapShape.prev_headD (h : HeapShape s fs bk) (hlt : hash < qmHashSize) (hbk : bk hash = pre ++ post) :
    s.prevFree (post.headD (s.head hash)) = pre.getLastD (s.head hash) := by
  have hring := h.ring hash hlt
  obtain ⟨post', hp⟩ := exists_cons_headD post (s.head hash)
  rw [hbk, ← cons_append, append_assoc, hp] at hring
  exact hring.prev_eq_getLastD

section
variable (h : HeapShape s (l ++ f :: r) bk)
include h

/-- The four pointers written to link a fragment in between two stretches of its ring. -/
theorem HeapShape.linkIn (hu : f.free = false) (hhash : getHash f.size = hash) (hbk : bk hash = pre ++ post)
    (hpre : ∀ a ∈ pre, s.fragSize a ≤ s.fragSize f.addr) (hpost : ∀ a ∈ post, s.fragSize f.addr ≤ s.fragSize a)
    (hs' : s' = ((((s.setNxtFree (pre.getLastD (s.head hash)) f.addr).setPrevFree f.addr
      (pre.getLastD (s.head hash))).setNxtFree f.addr (post.headD (s.head hash))).setPrevFree
      (post.headD (s.head hash)) f.addr).setNo hash (s.qm.no hash + 1)) :
    HeapShape s' (l ++ { f with free := true } :: r) (update bk hash (pre ++ f.addr :: post)) ∧
      ∀ g ∈ l ++ r, g.free = false → s'.nxtFree g.addr = s.nxtFree g.addr := by
  have hf : f ∈ l ++ f :: r := by simp
  have hlt : hash < qmHashSize := hhash ▸ HeapShape.hash_lt f.size
  obtain ⟨hx, hy⟩ := seam_mem (s.head hash) (fun a ha => hbk ▸ ha : pre ++ post ⊆ bk hash)
  have hring := h.ring hash hlt
  rw [hbk, ← cons_append, append_assoc] at hring
  -- the fragment is in no ring yet
  have hfresh : f.addr ∉ s.head hash :: bk hash := fun hc => h.used_ne_ring hf hu hlt hc rfl
  obtain ⟨hnd, hnd'⟩ := h.ring_nodup hlt
  have hnode : Node s (l ++ f :: r) f.addr := .inr ⟨f, hf, rfl⟩
  have hv := ((((View.refl (Node s (l ++ f :: r)) s).setNxtFree h.apart (h.node_of_ring hlt hx) f.addr).setPrevFree
    h.apart hnode (pre.getLastD (s.head hash))).setNxtFree h.apart hnode (post.headD (s.head hash))).setPrevFree h.apart
    (h.node_of_ring hlt hy) f.addr
  rw [Function.update_comm (ne_of_mem_of_not_mem hx hfresh)] at hv
  have hlinks := hring.insert_at (z := f.addr) (by rw [cons_append, ← hbk]; exact hnd)
    (by rw [← append_assoc, ← hbk]; exact hnd') (by
      rw [← append_assoc, cons_append, ← hbk]
      intro hc
      rcases mem_append.mp hc with hc | hc
      · exact hfresh hc
      · exact hfresh (mem_singleton.mp hc ▸ mem_cons_self))
  have hv' := hv.setNo hash (s.qm.no hash + 1)
  rw [← hs'] at hv'
  have hlen : s.qm.no hash + 1 = (pre ++ f.addr :: post).length := by
    rw [h.no, hbk]
    simp only [length_append, length_cons]
    omega
  refine ⟨h.relink true hhash hv' ?_ ?_ ?_ ?_ ?_ ?_, fun g hg hgu => ?_⟩
  · rw [hs', ← hlen]
    rfl
  · simpa using hlinks
  · intro k hk hne w hw
    rw [update_of_ne (h.other_ring hhash (.inr hx) hk hne hw),
      update_of_ne (h.other_ring hhash (.inl rfl) hk hne hw),
      update_of_ne (h.other_ring hhash (.inr hy) hk hne hw),
      update_of_ne (h.other_ring hhash (.inl rfl) hk hne hw)]
    exact ⟨rfl, rfl⟩
  · rw [nodup_middle, ← hbk]
    exact nodup_cons.mpr ⟨fun hc => hfresh (mem_cons_of_mem _ hc), h.nodup hash⟩
  · rw [hbk]
    exact mem_linkIn
  · have hsorted := h.sorted hash
    rw [hbk, pairwise_append] at hsorted
    obtain ⟨h1, h2, h3⟩ := hsorted
    exact pairwise_append.mpr
      ⟨h1, pairwise_cons.mpr ⟨hpost, h2⟩, fun a ha => forall_mem_cons.mpr ⟨hpre a ha, h3 a ha⟩⟩
  · have hgm : g ∈ l ++ f :: r := mem_middle.mpr (.inr hg)
    rw [hv'.nxt _ (.inr ⟨g, hgm, rfl⟩), update_of_ne (h.used_ne_ring hgm hgu hlt hx),
      update_of_ne (h.tiled.others_ne HeapShape.oh_pos hg)]

/-- **`qm_insert_free`** puts a fragment into the bucket of its class, in front of the first one that is not smaller. -/
theorem qmInsertFree_ok (hu : f.free = false) :
    ∃ s' bk', s.qmInsertFree f.addr = some s' ∧ HeapShape s' (l ++ { f with free := true } :: r) bk' ∧
      s'.qm = { s.qm with no := s'.qm.no } ∧
      ∀ g ∈ l ++ r, g.free = false → s'.nxtFree g.addr = s.nxtFree g.addr := by
  have hsize := h.size f (by simp)
  have hlt := HeapShape.hash_lt f.size
  obtain ⟨pre, post, hbk, hscan, hpre, hpost⟩ : ∃ pre post, bk (getHash f.size) = pre ++ post ∧
      s.scan (fun g => s.fragSize f.addr ≤ s.fragSize g) (s.head (getHash f.size)) s.fuel
        (s.nxtFree (s.head (getHash f.size))) = some (post.headD (s.head (getHash f.size))) ∧
      (∀ a ∈ pre, s.fragSize a < s.fragSize f.addr) ∧ ∀ a ∈ post, s.fragSize f.addr ≤ s.fragSize a := by
    obtain ⟨hpre, hpost⟩ := @sorted_cut (bk (getHash f.size)) s.fragSize (s.fragSize f.addr)
    exact ⟨_, _, takeWhile_append_dropWhile.symm, h.scan_ring hlt _, hpre, hpost (h.sorted _)⟩
  obtain ⟨hshape, hframe⟩ := h.linkIn hu rfl hbk (fun a ha => (hpre a ha).le) hpost rfl
  refine ⟨_, _, ?_, hshape, rfl, hframe⟩
  unfold Heap.qmInsertFree
  dsimp only
  rw [← hsize] at hscan
  rw [hscan, Option.bind_eq_bind, Option.bind_some, hsize, h.prev_headD hlt hbk]
  rfl

/-- **`qm_detach_free`** takes a free fragment out of its bucket. -/
theorem HeapShape.detach (hfree : f.free = true)
    (hs' : s' = (s.qmDetachFree f.addr).setNo (getHash f.size) (s.qm.no (getHash f.size) - 1)) :
    ∃ bk', HeapShape s' (l ++ { f with free := false } :: r) bk' ∧
      ∀ g ∈ l ++ r, g.free = false → s'.nxtFree g.addr = s.nxtFree g.addr := by
  have hf : f ∈ l ++ f :: r := by simp
  have hlt := HeapShape.hash_lt f.size
  have hmem : f.addr ∈ bk (getHash f.size) := (h.mem _ _).mpr ⟨f, hf, rfl, hfree, rfl⟩
  generalize hhash : getHash f.size = hash at hlt hmem hs'
  obtain ⟨pre, post, hbk⟩ := append_of_mem hmem
  have hsub : pre ++ post ⊆ bk hash := fun a ha => by
    rw [hbk]
    simp only [mem_append, mem_cons] at ha ⊢
    tauto
  obtain ⟨hx, hy⟩ := seam_mem (s.head hash) hsub
  have hring := h.ring hash hlt
  have hsplit : s.head hash :: bk hash ++ [s.head hash] = s.head hash :: pre ++ f.addr :: (post ++ [s.head hash]) := by
    rw [hbk]
    simp
  rw [hsplit] at hring
  have hprev : s.prevFree f.addr = pre.getLastD (s.head hash) := hring.prev_eq_getLastD
  have hnext : s.nxtFree f.addr = post.headD (s.head hash) := hring.next_eq_headD
  -- the ring without the fragment
  obtain ⟨hnd, hnd'⟩ := h.ring_nodup hlt
  have hsubl : (pre ++ post).Sublist (bk hash) := hbk ▸ (sublist_cons_self f.addr post).append_left pre
  have hnd₁ : (s.head hash :: pre ++ post).Nodup := hnd.sublist (hsubl.cons_cons _)
  have hnd₂ : (pre ++ (post ++ [s.head hash])).Nodup := by
    rw [← append_assoc]
    exact hnd'.sublist (hsubl.append_right _)
  have hlinks := hring.remove_at hnd₁ hnd₂
  have hv := (((View.refl (Node s (l ++ f :: r)) s).setNxtFree h.apart (h.node_of_ring hlt hx)
    (post.headD (s.head hash))).setPrevFree h.apart (h.node_of_ring hlt hy) (pre.getLastD (s.head hash))).setNo hash
    (s.qm.no hash - 1)
  have hs : s' = _ := hs'
  rw [Heap.qmDetachFree, hprev, hnext] at hs
  rw [← hs] at hv
  have hlen : s.qm.no hash - 1 = (pre ++ post).length := by
    rw [h.no, hbk]
    simp only [length_append, length_cons]
    omega
  refine ⟨_, h.relink false hhash hv ?_ (by simpa using hlinks) ?_ ((h.nodup hash).sublist hsubl) ?_
    ((h.sorted hash).sublist hsubl), fun g hg hgu => ?_⟩
  · rw [hs, ← hlen]
    rfl
  · intro k hk hne w hw
    rw [update_of_ne (h.other_ring hhash (.inr hx) hk hne hw),
      update_of_ne (h.other_ring hhash (.inr hy) hk hne hw)]
    exact ⟨rfl, rfl⟩
  · have hnd₀ := h.nodup hash
    rw [hbk] at hnd₀ ⊢
    exact mem_linkOut (nodup_cons.mp (nodup_middle.mp hnd₀)).1
  · have hgm : g ∈ l ++ f :: r := mem_middle.mpr (.inr hg)
    rw [hv.nxt _ (.inr ⟨g, hgm, rfl⟩), update_of_ne (h.used_ne_ring hgm hgu hlt hx)]

end

/-! ## Cutting anew -/

/-- What a node reads through writes inside a stretch that it does not meet. -/
theorem fields_outside (hmem : ∀ c, c < a ∨ e ≤ c → s'.mem c = s.mem c)
    (hx : x + 32 + s.fragSize x ≤ a ∨ e ≤ x) : SameFields s s' x := by
  simp only [Heap.fragSize] at hx
  exact fields_of_mem (hmem _ (by omega)) (hmem _ (by omega)) (hmem _ (by omega)) (hmem _ (by omega))

/-- **A stretch of fragments in use is cut anew.** Writes inside the stretch do not concern the other nodes. -/
theorem HeapShape.recut (mid mid' : List Frag) (h : HeapShape s (l ++ (mid ++ r)) bk)
    (hl : Tiled fragOverhead s.qm.firstFrag l a) (hm : Tiled fragOverhead a mid' e)
    (hr : Tiled fragOverhead e r (s.qm.lastFragEnd + sizeofQmFragEnd))
    (hu : ∀ g ∈ mid, g.free = false) (hu' : ∀ g ∈ mid', g.free = false)
    (hqm : s'.qm = { s.qm with realUsed := s'.qm.realUsed }) (hmem : ∀ c, c < a ∨ e ≤ c → s'.mem c = s.mem c)
    (hread : ∀ g ∈ mid', s'.fragSize g.addr = g.size ∧ s'.endSize g.addr = g.size) :
    HeapShape s' (l ++ (mid' ++ r)) bk ∧ ∀ g ∈ l ++ r, s'.nxtFree g.addr = s.nxtFree g.addr := by
  have hhead : ∀ k, s'.head k = s.head k := fun k => by rw [Heap.head, hqm, Heap.head]
  -- the nodes that are not in the stretch
  have hout : ∀ x, Node s (l ++ r) x → SameFields s s' x := by
    rintro x (⟨k, hk, rfl⟩ | ⟨g, hg, rfl⟩)
    · refine fields_outside hmem (.inl ?_)
      rw [h.headSize k hk]
      exact (h.head_add_le hk).trans hl.le
    · refine fields_outside hmem ?_
      rw [h.size g (mem_outer.mpr (.inr hg))]
      rcases mem_append.mp hg with hg | hg
      · exact .inl (hl.bounds hg).2
      · exact .inr (hr.bounds hg).1
  have hbk : ∀ k, ∀ x ∈ bk k, Node s (l ++ r) x := by
    intro k x hx
    obtain ⟨g, hg, rfl, -⟩ := exists_free_recut [] hu ((h.mem k x).mp hx)
    exact .inr ⟨g, hg, rfl⟩
  refine ⟨⟨?_, ?_, ?_, ?_, fun k hk => ?_, fun g hg => ?_, fun g hg => ?_, fun k hk => ?_, fun k => ?_, h.nodup,
    fun k x => ?_, fun k => ?_⟩, fun g hg => (hout _ (.inr ⟨g, hg, rfl⟩)).2.2.1⟩
  · rw [hqm]
    exact tiled_append.mpr ⟨a, hl, tiled_append.mpr ⟨e, hm, hr⟩⟩
  · rw [hqm]
    exact h.first
  · rw [hqm]
    exact h.extent
  · rw [hqm]
    exact h.fits
  · rw [hhead, (hout _ (.inl ⟨k, hk, rfl⟩)).1, h.headSize k hk]
  · rcases mem_outer.mp hg with hg | hg
    · exact (hread g hg).1
    · rw [(hout _ (.inr ⟨g, hg, rfl⟩)).1, h.size g (mem_outer.mpr (.inr hg))]
  · rcases mem_outer.mp hg with hg | hg
    · exact (hread g hg).2
    · rw [(hout _ (.inr ⟨g, hg, rfl⟩)).2.1, h.foot g (mem_outer.mpr (.inr hg))]
  · rw [hhead]
    refine (h.ring k hk).ring_congr (forall_mem_cons.mpr ⟨?_, fun w hw => ?_⟩)
    · exact (hout _ (.inl ⟨k, hk, rfl⟩)).2.2
    · exact (hout w (hbk k w hw)).2.2
  · rw [hqm]
    exact h.no k
  · rw [h.mem]
    exact ⟨exists_free_recut mid' hu, exists_free_recut mid hu'⟩
  · exact sorted_congr (h.sorted k) fun x hx => (hout x (hbk k x hx)).1

end OpenSer.Mem.QM



