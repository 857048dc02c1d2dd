import OpenSer.Mem.FMallocFit
import OpenSer.Mem.QMallocRun

/-!
# The size behind a pointer

Both allocators round the size up before they compare it with anything. A size within `ROUNDTO` of 2^64, as a negative
length gives, is rounded to 0.

* `FM.Granted`, `QM.Granted`: a fragment of the rounded size stands behind a pointer.
* `payload_iff`: what is behind a pointer has the size asked for, exactly if rounding it up does not wrap.
* `malloc_negative`: the largest size is served with an empty fragment.
-/

namespace OpenSer.Mem

open Option Lib

theorem mem_moved {oh opt size a e : Nat} {l r l₁ r₁ l' r' : List Frag} {f g : Frag} (h : Tiled oh a (l ++ f :: r) e)
    (hoh : 0 < oh) (hfs : l ++ f :: r = l₁ ++ g :: r₁) (hu : f.free = false) (hfree : g.free = true)
    (hsame : l₁ ++ (splitFrag oh opt { g with free := false } size ++ r₁) = l' ++ f :: r') :
    { g with free := false, size := keptSize oh opt g.size size } ∈ l' ++ { f with free := true } :: r' := by
  have hmem : { g with free := false, size := keptSize oh opt g.size size } ∈ l' ++ f :: r' := by
    rw [← hsame]
    exact mem_splitFrag (f := { g with free := false })
  refine h.mem_mark true hoh (g := g) ?_ hfree (by simp) hu rfl hmem
  rw [hfs]
  simp

namespace FM

variable {s s' : Heap} {fs l r : List Frag} {f : Frag} {bk : Nat → List Nat} {size p q : Nat} {c : Client Heap}

/-- A fragment of the heap that has the rounded size stands behind the pointer. -/
def Granted (s : Heap) (q size : Nat) : Prop :=
  ∃ fs bk, HeapOk s fs bk ∧ ∃ g ∈ fs, q = g.addr + fragOverhead ∧ roundup size ≤ g.size

theorem Granted.enough_iff (h : Granted s q size) (hsize : size < 2 ^ 64) :
    size ≤ allocator.payload s q ↔ size + (roundto - 1) < 2 ^ 64 := by
  obtain ⟨fs, bk, hok, g, hg, rfl, hle⟩ := h
  have hpay : allocator.payload s (g.addr + fragOverhead) = g.size := by
    exact hok.size g hg
  rw [hpay]
  constructor
  · have hbounds := hok.tiled.bounds hg
    have hext := hok.extent
    have hfits := hok.fits
    have hblock : fragOverhead + roundto ≤ sizeofFmBlock := by decide
    omega
  · intro hwrap
    exact (le_roundup (by decide) hwrap).trans hle

theorem fmMalloc_granted (h : HeapOk s fs bk) (he : s.fmMalloc size = some (s', q)) (hq : q ≠ 0) :
    Granted s' q size := by
  rcases fmMalloc_ok h size with ⟨he', -⟩ | ⟨l, f, r, s₁, bk', rfl, hfree, hle, he', hok, -⟩
  · rw [he] at he'
    cases he'
    exact absurd rfl hq
  · cases he.symm.trans he'
    exact ⟨_, bk', hok, _, mem_splitFrag, rfl, le_keptSize hle⟩

theorem fmRealloc_granted (h : HeapOk s (l ++ f :: r) bk) (hu : f.free = false) (hsize : size ≠ 0)
    (he : s.fmRealloc (f.addr + fragOverhead) size = some (s', q)) (hq : q ≠ 0) : Granted s' q size := by
  rcases fmRealloc_cases h hsize with ⟨hlt, he'⟩ | ⟨heq, he'⟩ | ⟨hgt, -, n, r, rfl, hfree, hle, he'⟩ | ⟨hgt, -, he'⟩
  · obtain ⟨s₁, bk', hrun, hok, -⟩ := reallocShrink_ok h hu hlt.le (roundto_dvd_roundup size)
    rw [hrun] at he'
    cases he.symm.trans he'
    exact ⟨_, bk', hok, _, mem_splitFrag, rfl, le_keptSize hlt.le⟩
  · cases he.symm.trans he'
    exact ⟨_, bk, h, f, by simp, rfl, heq.le⟩
  · obtain ⟨s₁, bk', hrun, hok, -⟩ := reallocJoin_ok h hu hfree hle (roundto_dvd_roundup size)
    rw [hrun] at he'
    cases he.symm.trans he'
    exact ⟨_, bk', hok, _, mem_splitFrag, rfl, le_keptSize hle⟩
  · rcases reallocMove_ok h (by simp) hu hgt with ⟨-, hrun⟩ | ⟨l₁, g, r₁, l', r', s₁, s₂, bk', hfs, hfree, hle,
      hsame, -, -, hrun, hok, -⟩
    · rw [hrun] at he'
      cases he.symm.trans he'
      exact absurd rfl hq
    · rw [hrun] at he'
      cases he.symm.trans he'
      exact ⟨_, bk', hok, _, mem_moved h.tiled HeapShape.oh_pos hfs hu hfree hsame, rfl, le_keptSize hle⟩

end FM

namespace QM

variable {s s' : Heap} {fs l r : List Frag} {f : Frag} {bk : Nat → List Nat} {size p q : Nat} {c : Client Heap}
  {joinFree : Bool}

/-- A fragment of the heap that has the rounded size stands behind the pointer. -/
def Granted (s : Heap) (q size : Nat) : Prop :=
  ∃ fs bk, HeapOk s fs bk ∧ ∃ g ∈ fs, q = g.addr + sizeofQmFrag ∧ roundup size ≤ g.size

theorem Granted.enough_iff (h : Granted s q size) (hsize : size < 2 ^ 64) :
    size ≤ (allocator joinFree).payload s q ↔ size + (roundto - 1) < 2 ^ 64 := by
  obtain ⟨fs, bk, hok, g, hg, rfl, hle⟩ := h
  have hpay : (allocator joinFree).payload s (g.addr + sizeofQmFrag) = g.size := by
    exact hok.size g hg
  rw [hpay]
  constructor
  · have hbounds := hok.tiled.bounds hg
    have hext := hok.extent
    have hfirst := hok.first
    have hfits := hok.fits
    have hblock : roundto ≤ roundup sizeofQmBlock := by decide
    omega
  · intro hwrap
    exact (le_roundup (by decide) hwrap).trans hle

theorem qmMalloc_granted (h : HeapOk s fs bk) (he : s.qmMalloc size = some (s', q)) (hq : q ≠ 0) :
    Granted s' q size := by
  rcases qmMalloc_ok h size with ⟨he', -⟩ | ⟨l, f, r, s₁, bk', rfl, hfree, hle, he', hok, -⟩
  · rw [he] at he'
    cases he'
    exact absurd rfl hq
  · cases he.symm.trans he'
    exact ⟨_, bk', hok, _, mem_splitFrag, rfl, le_keptSize hle⟩

theorem qmRealloc_granted (h : HeapOk s (l ++ f :: r) bk) (hu : f.free = false) (hsize : size ≠ 0)
    (he : s.qmRealloc joinFree (f.addr + sizeofQmFrag) size = some (s', q)) (hq : q ≠ 0) : Granted s' q size := by
  rcases qmRealloc_cases joinFree h hsize with ⟨hlt, he'⟩ | ⟨heq, he'⟩ | ⟨hgt, n, r, rfl, hfree, hle, he'⟩ | ⟨hgt, he'⟩
  · obtain ⟨s₁, bk', hrun, hok, -⟩ := reallocShrink_ok h hu hlt.le
    rw [hrun] at he'
    cases he.symm.trans he'
    exact ⟨_, bk', hok, _, mem_splitFrag, rfl, le_keptSize hlt.le⟩
  · cases he.symm.trans he'
    exact ⟨_, bk, h, f, by simp, rfl, heq.le⟩
  · obtain ⟨s₁, bk', hrun, hok, -⟩ := reallocJoin_ok h hu hfree hle
    rw [hrun] at he'
    cases he.symm.trans he'
    exact ⟨_, bk', hok, _, mem_splitFrag, rfl, le_keptSize hle⟩
  · rcases reallocMove_ok joinFree h (by simp) hu hgt with hrun |
      ⟨l₁, g, r₁, l', r', s₂, fs', bk', hfs, hfree, hle, hsame, hrun, hok, hjoins, -⟩
    · rw [hrun] at he'
      cases he.symm.trans he'
      exact absurd rfl hq
    · rw [hrun] at he'
      cases he.symm.trans he'
      have hmem := hjoins.mem_used (mem_moved h.tiled HeapShape.oh_pos hfs hu hfree hsame) rfl
      exact ⟨_, bk', hok, _, hmem, rfl, le_keptSize hle⟩

/-- The invariant of the client of `q_malloc`, over every run. -/
theorem clientOk_over_runs {mem : Nat → Nat} {address : Nat} {es : List (Call × Client Heap)} (hsize : size < 2 ^ 64)
    (hi : Heap.qmMallocInit mem address size = some s) (hrun : Trace (Step (allocator joinFree)) ⟨s, []⟩ es)
    (hc : c = ⟨s, []⟩ ∨ ∃ e ∈ es, c = e.2) : ClientOk c :=
  hrun.reached (fun _ _ _ h hs => h.step hs) (qmMallocInit_clientOk hsize hi).1 hc

end QM

/-- Whatever `malloc` and `realloc` return for `size` bytes has a payload of that size, exactly if rounding the size up
does not wrap. -/
def ServesUnlessWraps {H : Type} (A : Allocator H) (roundto : Nat) (c : Client H) (size : Nat) : Prop :=
  (∀ h q, A.malloc c.heap size = some (h, q) → q ≠ 0 → (size ≤ A.payload h q ↔ size + (roundto - 1) < 2 ^ 64)) ∧
    ∀ p, p = 0 ∨ p ∈ c.live → ∀ h q, A.realloc c.heap p size = some (h, q) → q ≠ 0 →
      (size ≤ A.payload h q ↔ size + (roundto - 1) < 2 ^ 64)

variable {size : Nat}

/-- It is enough to look at `malloc`, and at `realloc` of a pointer that the client holds, for a size that is not 0. -/
theorem serves_of {H : Type} {A : Allocator H} (hA : ReallocSpec A) {roundto : Nat} (hto : roundto - 1 < 2 ^ 64)
    {c : Client H}
    (hmalloc : ∀ h q, A.malloc c.heap size = some (h, q) → q ≠ 0 →
      (size ≤ A.payload h q ↔ size + (roundto - 1) < 2 ^ 64))
    (hrealloc : ∀ p ∈ c.live, size ≠ 0 → ∀ h q, A.realloc c.heap p size = some (h, q) → q ≠ 0 →
      (size ≤ A.payload h q ↔ size + (roundto - 1) < 2 ^ 64)) : ServesUnlessWraps A roundto c size := by
  refine ⟨hmalloc, fun p hp h q he hq => ?_⟩
  by_cases h0 : size = 0
  · rw [h0, zero_add]
    exact iff_of_true (Nat.zero_le _) hto
  · rcases hp with rfl | hp
    · rw [hA.null _ _ h0] at he
      exact hmalloc h q he hq
    · exact hrealloc p hp h0 h q he hq

theorem FM.ClientOk.serves {c : Client FM.Heap} (h : FM.ClientOk c) (hsize : size < 2 ^ 64) :
    ServesUnlessWraps FM.allocator FM.roundto c size := by
  obtain ⟨bk, hok, hl⟩ := h
  refine serves_of FM.allocator_realloc (by decide) (fun s' q he hq =>
    (FM.fmMalloc_granted hok he hq).enough_iff hsize) ?_
  intro p hp h0 s' q he hq
  obtain ⟨l, f, r, hfs, hused, rfl⟩ := exists_of_live hl hp
  rw [hfs] at hok
  exact (FM.fmRealloc_granted hok hused h0 he hq).enough_iff hsize

theorem QM.ClientOk.serves {c : Client QM.Heap} (joinFree : Bool) (h : QM.ClientOk c) (hsize : size < 2 ^ 64) :
    ServesUnlessWraps (QM.allocator joinFree) QM.roundto c size := by
  obtain ⟨bk, hok, hl⟩ := h
  refine serves_of (QM.allocator_realloc joinFree) (by decide)
    (fun s' q he hq => (QM.qmMalloc_granted hok he hq).enough_iff hsize) ?_
  intro p hp h0 s' q he hq
  obtain ⟨l, f, r, hfs, hused, rfl⟩ := exists_of_live hl hp
  rw [hfs] at hok
  exact (QM.qmRealloc_granted hok hused h0 he hq).enough_iff hsize

/-- **Sizes**: in every state that valid calls lead to, for every `unsigned long` size, the fragment behind a pointer
that `fm_malloc`, `fm_realloc`, `qm_malloc` or `qm_realloc` returns has at least that size exactly if rounding it up
does not wrap. -/
theorem payload_iff (hsize : size < 2 ^ 64) :
    (∀ (mem : Nat → Nat) (address total : Nat) (s : FM.Heap) (es : List (Call × Client FM.Heap)) (c : Client FM.Heap),
      total < 2 ^ 64 → FM.Heap.fmMallocInit mem address total = some s → Trace (Step FM.allocator) ⟨s, []⟩ es →
      (c = ⟨s, []⟩ ∨ ∃ e ∈ es, c = e.2) → ServesUnlessWraps FM.allocator FM.roundto c size) ∧
    ∀ (joinFree : Bool) (mem : Nat → Nat) (address total : Nat) (s : QM.Heap) (es : List (Call × Client QM.Heap))
      (c : Client QM.Heap), total < 2 ^ 64 → QM.Heap.qmMallocInit mem address total = some s →
      Trace (Step (QM.allocator joinFree)) ⟨s, []⟩ es → (c = ⟨s, []⟩ ∨ ∃ e ∈ es, c = e.2) →
      ServesUnlessWraps (QM.allocator joinFree) QM.roundto c size :=
  ⟨fun _ _ _ _ _ _ htotal hi hrun hc => (FM.clientOk_over_runs htotal hi hrun hc).serves hsize,
    fun joinFree _ _ _ _ _ _ htotal hi hrun hc => (QM.clientOk_over_runs htotal hi hrun hc).serves joinFree hsize⟩

/-- A fresh block serves 100 bytes with at least 100 bytes. -/
theorem payload_hundred : ∃ (s : FM.Heap) (h : FM.Heap) (q : Nat), FM.Heap.fmMallocInit (fun _ => 0) 0 33904 = some s ∧
    s.fmMalloc 100 = some (h, q) ∧ q ≠ 0 ∧ 100 ≤ FM.allocator.payload h q := by
  have hsome : ((FM.Heap.fmMallocInit (fun _ => 0) 0 33904).bind fun s => (s.fmMalloc 100).map Prod.snd) =
      some 33648 := by
    decide +kernel
  obtain ⟨s, hi, hmalloc⟩ := bind_eq_some_iff.mp hsome
  obtain ⟨⟨h, q⟩, he, hq⟩ := map_eq_some_iff.mp hmalloc
  have hq : q ≠ 0 := by
    omega
  have hstart : Trace (Step FM.allocator) ⟨s, []⟩ [] := trivial
  have hserves := (@payload_iff 100 (by norm_num)).1 (fun _ => 0) 0 33904 s [] ⟨s, []⟩
    (by norm_num) hi hstart (.inl rfl)
  exact ⟨s, h, q, hi, he, hq, (hserves.1 h q he hq).mpr (by decide)⟩

/-- A fresh heap serves the size with an empty payload, as a run shows. -/
theorem serves_empty (size : Nat) {H : Type} (A : Allocator H) (init : Option H)
    (h : (init.bind fun s => (A.malloc s size).map fun r => decide (r.2 ≠ 0 ∧ A.payload r.1 r.2 = 0)) = some true) :
    ∃ s h q, init = some s ∧ A.malloc s size = some (h, q) ∧ q ≠ 0 ∧ A.payload h q = 0 := by
  obtain ⟨s, hi, hmalloc⟩ := bind_eq_some_iff.mp h
  obtain ⟨⟨h, q⟩, he, hq⟩ := map_eq_some_iff.mp hmalloc
  exact ⟨s, h, q, hi, he, of_decide_eq_true hq⟩

/-- The largest `unsigned long`, which is what a length of -1 becomes, is served by both allocators, with a fragment of
size 0. -/
theorem malloc_negative :
    (∃ (s h : FM.Heap) (q : Nat), FM.Heap.fmMallocInit (fun _ => 0) 0 33904 = some s ∧
      s.fmMalloc (2 ^ 64 - 1) = some (h, q) ∧ q ≠ 0 ∧ FM.allocator.payload h q = 0) ∧
    ∃ (s h : QM.Heap) (q : Nat), QM.Heap.qmMallocInit (fun _ => 0) 0 43632 = some s ∧
      s.qmMalloc (2 ^ 64 - 1) = some (h, q) ∧ q ≠ 0 ∧ (QM.allocator false).payload h q = 0 := by
  constructor
  · exact serves_empty (2 ^ 64 - 1) FM.allocator _ (by decide +kernel)
  · exact serves_empty (2 ^ 64 - 1) (QM.allocator false) (QM.Heap.qmMallocInit (fun _ => 0) 0 43632) (by decide +kernel)

end OpenSer.Mem
