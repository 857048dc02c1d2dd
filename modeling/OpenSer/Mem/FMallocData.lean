import OpenSer.Mem.SizeGuarantee

/-!
# What `fm_realloc` does to the data

The four branches of `fm_realloc` write headers next to the data of the client: at the cut of a split, in the buckets,
and in the fragment that is released after a copy. A payload of a fragment in use is none of these.

* `Resized`: what a resized fragment carries along, and what happens to the others.
* `fmRealloc_resized`: every branch of `fm_realloc`.
* `realloc_carries_iff`: the data survive exactly if rounding the new size up does not wrap, or nothing is cut off.
* `payload_kept_over_runs`: a payload keeps its words while the client works with other pointers.
-/

namespace OpenSer.Mem.FM

open Option Lib Prod List Nat

variable {s s' : Heap} {fs l r : List Frag} {f : Frag} {bk : Nat → List Nat} {size p q : Nat} {c : Client Heap}

/-- The fragment `f` was resized and is now behind `q`: what it still has room for is where it was, and the other
fragments in use have their sizes and their payloads. -/
structure Resized (s s' : Heap) (fs : List Frag) (f : Frag) (q : Nat) : Prop where
  data : ∀ i, i < f.size → i < allocator.payload s' q → s'.mem (q + i) = s.mem (f.addr + fragOverhead + i)
  size : ∀ x ∈ fs, x.free = false → x.addr ≠ f.addr → s'.fragSize x.addr = x.size
  others : ∀ x ∈ fs, x.free = false → x.addr ≠ f.addr → ∀ a, x.Holds fragOverhead a → s'.mem a = s.mem a

theorem payload_addr (s : Heap) (f : Frag) : allocator.payload s (f.addr + fragOverhead) = s.fragSize f.addr := by
  show s.fragSize (f.addr + fragOverhead - fragOverhead) = s.fragSize f.addr
  rw [Nat.add_sub_cancel]

/-! ## The branches -/

theorem reallocShrink_resized (h : HeapOk s (l ++ f :: r) bk) (hu : f.free = false) (hle : size ≤ f.size)
    (hd : roundto ∣ size) (he : s.reallocShrink f.addr size = some s') :
    Resized s s' (l ++ f :: r) f (f.addr + fragOverhead) ∧ s'.fragSize f.addr = keptSize f.size size := by
  obtain ⟨s₁, bk', he', hok, -, hframe⟩ := reallocShrink_ok h hu hle hd
  obtain rfl := some.inj (he'.symm.trans he)
  have hf : f ∈ l ++ f :: r := by simp
  have hmem : { f with size := keptSize f.size size } ∈ l ++ (splitFrag f size ++ r) := mem_splitFrag
  have hkept : s₁.fragSize f.addr = keptSize f.size size := hok.size _ hmem
  have hrest : ∀ x ∈ l ++ f :: r, x.addr ≠ f.addr → x ∈ l ++ r := by
    intro x hx hne
    exact (mem_middle.mp hx).resolve_left fun heq => hne (by rw [heq])
  refine ⟨⟨fun i hi hpay => ?_, fun x hx hxu hne => ?_, fun x hx hxu hne a ha => ?_⟩, hkept⟩
  · rw [payload_addr, hkept] at hpay
    -- the data end before the header of the residue
    have hin : f.Holds fragOverhead (f.addr + fragOverhead + i) := ⟨by omega, by omega⟩
    refine hframe _ (h.holds_ne hf hin hf).1 (.inl (by omega)) fun g hg _ => ?_
    exact (h.holds_ne hf hin (mem_middle.mpr (.inr hg))).2
  · refine hok.size x ?_
    have hx' := hrest x hx hne
    simp only [mem_append] at hx' ⊢
    tauto
  · have hout := h.tiled.holds_outside hx hf hne ha
    refine hframe a (h.holds_ne hx ha hf).1 (by omega) fun g hg _ => ?_
    exact (h.holds_ne hx ha (mem_middle.mpr (.inr hg))).2

theorem reallocJoin_resized {n : Frag} (h : HeapOk s (l ++ f :: n :: r) bk) (hu : f.free = false)
    (hfree : n.free = true) (hlt : f.size < size) (hle : size ≤ f.size + fragOverhead + n.size) (hd : roundto ∣ size)
    (he : s.reallocJoin f.addr n.addr size = some s') :
    Resized s s' (l ++ f :: n :: r) f (f.addr + fragOverhead) := by
  obtain ⟨s₁, bk', he', hok, -, hframe⟩ := reallocJoin_ok h hu hfree hle hd
  rw [he'] at he
  cases he
  have hf : f ∈ l ++ f :: n :: r := by simp
  have hn : n ∈ l ++ f :: n :: r := by simp
  have hsub : ∀ g ∈ l ++ r, g ∈ l ++ f :: n :: r := by
    intro g hg
    exact mem_middle.mpr (.inr (mem_middle.mpr (.inr hg)))
  refine ⟨fun i hi _ => ?_, fun x hx hxu hne => ?_, fun x hx hxu hne a ha => ?_⟩
  · have hin : f.Holds fragOverhead (f.addr + fragOverhead + i) := ⟨by omega, by omega⟩
    have hkept : size ≤ keptSize (f.size + fragOverhead + n.size) size := le_keptSize hle
    refine hframe _ (h.holds_ne hf hin hf).1 (.inl (by dsimp only; omega)) fun g hg _ => ?_
    exact (h.holds_ne hf hin (hsub g hg)).2
  · refine hok.size x ?_
    simp only [mem_append, mem_cons] at hx ⊢
    rcases hx with hx | rfl | rfl | hx
    · exact .inl hx
    · exact absurd rfl hne
    · rw [hfree] at hxu
      cases hxu
    · exact .inr (.inr hx)
  · -- outside both of the fragments that were joined
    have hnx : x.addr ≠ n.addr := by
      intro heq
      rw [h.tiled.eq_of_addr HeapShape.oh_pos hx hn heq, hfree] at hxu
      cases hxu
    have hout := h.tiled.holds_outside hx hf hne ha
    have hout' := h.tiled.holds_outside hx hn hnx ha
    have hnext := h.tiled.next_addr
    refine hframe a (h.holds_ne hx ha hf).1 (by dsimp only; omega) fun g hg _ => ?_
    exact (h.holds_ne hx ha (hsub g hg)).2

theorem reallocMove_resized (h : HeapOk s fs bk) (hf : f ∈ fs) (hu : f.free = false) (hlt : f.size < roundup size)
    (he : s.reallocMove (f.addr + fragOverhead) f.size (roundup size) = some (s', q)) :
    (q = 0 ∧ s' = s) ∨ (q ≠ 0 ∧ Resized s s' fs f q) := by
  rcases reallocMove_ok h hf hu hlt with
    ⟨-, he'⟩ | ⟨l, g, r, l', r', s₁, s₂, bk', rfl, hfree, -, hsame, -, -, he', hok, -, hdata, hkeep⟩
  · obtain ⟨rfl, rfl⟩ := mk.inj (some.inj (he'.symm.trans he))
    exact .inl ⟨rfl, rfl⟩
  · obtain ⟨rfl, rfl⟩ := mk.inj (some.inj (he'.symm.trans he))
    have hrest : ∀ x ∈ l ++ g :: r, x.free = false → x ∈ l ++ r := by
      intro x hx hxu
      refine (mem_middle.mp hx).resolve_left fun heq => ?_
      rw [heq, hfree] at hxu
      cases hxu
    refine .inr ⟨by simp only [fragOverhead]; omega, fun i hi _ => hdata i hi, fun x hx hxu hne => ?_,
      fun x hx hxu _ => hkeep x (hrest x hx hxu)⟩
    have hx' : x ∈ l' ++ f :: r' := by
      rw [← hsame]
      have hxlr := hrest x hx hxu
      simp only [mem_append] at hxlr ⊢
      tauto
    refine hok.size x (mem_middle.mpr (.inr ((mem_middle.mp hx').resolve_left fun heq => ?_)))
    exact hne (by rw [heq])

/-- **`fm_realloc`** changes nothing and returns null, or resizes the fragment. If the new size is rounded to 0, the
fragment keeps what a split for 0 bytes leaves it. -/
theorem fmRealloc_resized (h : HeapOk s (l ++ f :: r) bk) (hu : f.free = false) (hsize : size ≠ 0)
    (he : s.fmRealloc (f.addr + fragOverhead) size = some (s', q)) :
    (q = 0 ∧ s' = s) ∨ (q ≠ 0 ∧ Resized s s' (l ++ f :: r) f q ∧
      (roundup size = 0 → allocator.payload s' q = keptSize f.size 0)) := by
  have hp0 : f.addr + fragOverhead ≠ 0 := by
    simp only [fragOverhead]
    omega
  rcases fmRealloc_cases h hsize with ⟨hlt, he'⟩ | ⟨heq, he'⟩ | ⟨hgt, -, n, r, rfl, hfree, hle, he'⟩ | ⟨hgt, -, he'⟩
  · rw [he'] at he
    obtain ⟨s₁, hrun, hs⟩ := map_eq_some_iff.mp he
    cases hs
    obtain ⟨hres, hkept⟩ := reallocShrink_resized h hu hlt.le (roundto_dvd_roundup size) hrun
    refine .inr ⟨hp0, hres, fun hzero => ?_⟩
    rw [payload_addr, hkept, hzero]
  · obtain ⟨rfl, rfl⟩ := mk.inj (some.inj (he'.symm.trans he))
    refine .inr ⟨hp0, ⟨fun _ _ _ => rfl, fun x hx _ _ => h.size x hx, fun _ _ _ _ _ _ => rfl⟩, fun hzero => ?_⟩
    rw [payload_addr, h.size f (by simp), ← heq, hzero]
    unfold keptSize Mem.keptSize
    rw [ite_self]
  · rw [he'] at he
    obtain ⟨s₁, hrun, hs⟩ := map_eq_some_iff.mp he
    cases hs
    exact .inr ⟨hp0, reallocJoin_resized h hu hfree hgt hle (roundto_dvd_roundup size) hrun,
      fun hzero => absurd (hzero ▸ hgt) (not_lt_zero _)⟩
  · rw [he'] at he
    rcases reallocMove_resized h (by simp) hu hgt he with hnull | ⟨hq, hres⟩
    · exact .inl hnull
    · exact .inr ⟨hq, hres, fun hzero => absurd (hzero ▸ hgt) (not_lt_zero _)⟩

/-! ## Over runs -/

/-- The first `n` words behind `q` are those that were behind `p`. -/
def Carried (s s' : Heap) (p q n : Nat) : Prop :=
  n ≤ allocator.payload s' q ∧ ∀ i < n, s'.mem (q + i) = s.mem (p + i)

/-- The payload behind `p` has its size and its words. -/
def Kept (s s' : Heap) (p : Nat) : Prop :=
  allocator.payload s' p = allocator.payload s p ∧ ∀ i < allocator.payload s p, s'.mem (p + i) = s.mem (p + i)

theorem keptSize_zero (fsize : Nat) : keptSize fsize 0 = if fsize < fragOverhead then fsize else 0 := by
  have hsplits : Splits fsize 0 ↔ ¬fsize < fragOverhead := by
    unfold Splits Mem.Splits
    omega
  unfold keptSize Mem.keptSize
  by_cases hlt : fsize < fragOverhead
  · rw [if_neg fun hc => hsplits.mp hc hlt, if_pos hlt]
  · rw [if_pos (hsplits.mpr hlt), if_neg hlt]

theorem Resized.carried_iff (h : Resized s s' fs f q)
    (hgrant : Granted s' q size) (hzero : roundup size = 0 → allocator.payload s' q = keptSize f.size 0)
    (hsize : size ≠ 0) (hlt : size < 2 ^ 64) :
    Carried s s' (f.addr + fragOverhead) q (min f.size size) ↔
      size + (roundto - 1) < 2 ^ 64 ∨ f.size < fragOverhead := by
  have hcopied : ∀ n, n ≤ f.size → n ≤ allocator.payload s' q →
      Carried s s' (f.addr + fragOverhead) q n := by
    intro n hn hpay
    exact ⟨hpay, fun i hi => h.data i (by omega) (by omega)⟩
  constructor
  · rintro ⟨hpay, -⟩
    by_contra hcon
    rw [not_or, not_lt, not_lt] at hcon
    rw [hzero (roundup_wraps hlt hcon.1), keptSize_zero, if_neg (by omega)] at hpay
    have hoh : 0 < fragOverhead := HeapShape.oh_pos
    omega
  · intro hor
    refine hcopied _ (min_le_left ..) ?_
    by_cases hwrap : size + (roundto - 1) < 2 ^ 64
    · exact (Nat.min_le_right ..).trans ((hgrant.enough_iff hlt).mpr hwrap)
    · have hsmall := hor.resolve_left hwrap
      rw [hzero (roundup_wraps hlt (by omega)), keptSize_zero, if_pos hsmall]
      exact min_le_left ..

theorem Resized.kept (h : Resized s s' fs f q) (hok : HeapOk s fs bk) {x : Frag} (hx : x ∈ fs) (hxu : x.free = false)
    (hne : x.addr ≠ f.addr) : Kept s s' (x.addr + fragOverhead) := by
  unfold Kept
  rw [payload_addr, payload_addr, hok.size x hx]
  exact ⟨h.size x hx hxu hne, fun i hi => h.others x hx hxu hne _ ⟨by omega, by omega⟩⟩

/-- **`fm_realloc` and the data**: in every state that valid calls lead to, resizing a pointer of the client to a size
other than 0 returns. If it returns null, the heap is as it was. Else the invariant holds with the new pointer, every
other pointer keeps its payload, and the data of the old one are carried along exactly if rounding the size up does not
wrap, or the payload is smaller than a header. -/
theorem realloc_carries_iff {mem : Nat → Nat} {address total : Nat} {es : List (Call × Client Heap)}
    (htotal : total < 2 ^ 64) (hi : Heap.fmMallocInit mem address total = some s)
    (hrun : Trace (Step allocator) ⟨s, []⟩ es) (hc : c = ⟨s, []⟩ ∨ ∃ e ∈ es, c = e.2) (hp : p ∈ c.live)
    (hsize : size ≠ 0) (hlt : size < 2 ^ 64) :
    ∃ s' q, c.heap.fmRealloc p size = some (s', q) ∧
      (q = 0 → s' = c.heap ∧ ClientOk ⟨s', c.live⟩) ∧
      (q ≠ 0 → ClientOk ⟨s', q :: c.live.erase p⟩ ∧ (∀ x ∈ c.live, x ≠ p → Kept c.heap s' x) ∧
        (Carried c.heap s' p q (min (allocator.payload c.heap p) size) ↔
          size + (roundto - 1) < 2 ^ 64 ∨ allocator.payload c.heap p < fragOverhead)) := by
  obtain ⟨bk, hok, hl⟩ := clientOk_over_runs htotal hi hrun hc
  obtain ⟨s', q, he, fs', bk', hok', hl', -⟩ := fmRealloc_done hok hl hp hsize
  obtain ⟨l, f, r, hfs, hused, rfl⟩ := exists_of_live hl hp
  refine ⟨s', q, he, fun hq => ?_, fun hq => ?_⟩
  · subst hq
    rw [hfs] at hok
    refine ⟨?_, ClientOk.of_frags (c := ⟨s', c.live⟩) hok' hl'⟩
    rcases fmRealloc_resized hok hused hsize he with ⟨-, hs⟩ | ⟨hne, -⟩
    · exact hs
    · exact absurd rfl hne
  · rw [if_neg hq] at hl'
    refine ⟨ClientOk.of_frags (c := ⟨s', q :: c.live.erase _⟩) hok' hl', ?_⟩
    rw [hfs] at hok hl
    rcases fmRealloc_resized hok hused hsize he with ⟨hnull, -⟩ | ⟨-, hres, hzero⟩
    · exact absurd hnull hq
    · refine ⟨fun x hx hne => ?_, ?_⟩
      · obtain ⟨g, hg, hgu, rfl⟩ := mem_usedPtrs.mp (hl.mem_iff.mp hx)
        exact hres.kept hok hg hgu fun heq => hne (by rw [heq])
      · rw [payload_addr, hok.size f (by simp)]
        exact hres.carried_iff (fmRealloc_granted hok hused hsize he hq) hzero hsize hlt

/-- A block of 24 bytes that holds a 7 is moved to make room for 40, and the 7 moves along. -/
theorem realloc_carries_word : ∃ (c : Client Heap) (s' : Heap) (q : Nat), c.live = [33688, 33648] ∧
    c.heap.mem 33648 = 7 ∧ c.heap.fmRealloc 33648 40 = some (s', q) ∧ q ≠ 0 ∧ q ≠ 33648 ∧ s'.mem q = 7 := by
  let calls : List Call := [.malloc 24, .malloc 8, .write 33648 7]
  obtain ⟨c, hc, hlive, hword, hpay, hptr⟩ : ∃ c, ((Heap.fmMallocInit (fun _ => 0) 0 33904).bind fun s =>
      runCalls allocator ⟨s, []⟩ calls) = some c ∧ c.live = [33688, 33648] ∧ c.heap.mem 33648 = 7 ∧
      allocator.payload c.heap 33648 = 24 ∧ (c.heap.fmRealloc 33648 40).map snd = some 33712 :=
    exists_of_any (by decide +kernel)
  obtain ⟨s, hi, hcalls⟩ := bind_eq_some_iff.mp hc
  obtain ⟨es, hrun, hreach⟩ := runCalls_reached hcalls
  obtain ⟨s', q, he, -, hmoved⟩ := @realloc_carries_iff s 40 33648 c (fun _ => 0) 0 33904 es
    (by norm_num) hi hrun hreach
    (by simp [hlive]) (by norm_num) (by norm_num)
  rw [he, map_some, some.injEq] at hptr
  obtain ⟨-, -, hiff⟩ := hmoved (by omega)
  obtain ⟨-, hcarried⟩ := hiff.mpr (.inl (by decide))
  rw [hpay] at hcarried
  refine ⟨c, s', q, hlive, hword, he, by omega, by omega, ?_⟩
  exact (hcarried 0 (by norm_num)).trans hword

/-- Resized to the largest `unsigned long`, a block of 104 bytes is cut down to 0, and the header of the residue is
written over its data. -/
theorem realloc_negative : ∃ (s : Heap) (c : Client Heap) (s' : Heap), Heap.fmMallocInit (fun _ => 0) 0 33904 = some s ∧
    runCalls allocator ⟨s, []⟩ [.malloc 100, .write 33648 7] = some c ∧ c.live = [33648] ∧
    allocator.payload c.heap 33648 = 104 ∧ c.heap.mem 33648 = 7 ∧
    c.heap.fmRealloc 33648 (2 ^ 64 - 1) = some (s', 33648) ∧ allocator.payload s' 33648 = 0 ∧ s'.mem 33648 = 88 := by
  obtain ⟨c, hc, hlive, hpay, hword, hcall⟩ : ∃ c, ((Heap.fmMallocInit (fun _ => 0) 0 33904).bind fun s =>
      runCalls allocator ⟨s, []⟩ [.malloc 100, .write 33648 7]) = some c ∧ c.live = [33648] ∧
      allocator.payload c.heap 33648 = 104 ∧ c.heap.mem 33648 = 7 ∧ ((c.heap.fmRealloc 33648 (2 ^ 64 - 1)).any fun x =>
        x.2 = 33648 ∧ allocator.payload x.1 33648 = 0 ∧ x.1.mem 33648 = 88) = true := exists_of_any (by decide +kernel)
  obtain ⟨s, hi, hcalls⟩ := bind_eq_some_iff.mp hc
  obtain ⟨⟨s', q⟩, he, rfl, hpay', hword'⟩ := exists_of_any hcall
  exact ⟨s, c, s', hi, hcalls, hlive, hpay, hword, he, hpay', hword'⟩

/-! ## What other calls leave alone -/

theorem Kept.trans {s'' : Heap} (h : Kept s s' p) (h' : Kept s' s'' p) : Kept s s'' p :=
  ⟨h'.1.trans h.1, fun i hi => (h'.2 i (h.1 ▸ hi)).trans (h.2 i hi)⟩

section
variable {x : Frag} (hok : HeapOk s fs bk) (hx : x ∈ fs)
include hok hx

theorem kept_of_used {fs' : List Frag} {bk' : Nat → List Nat} (hok' : HeapOk s' fs' bk') (hx' : x ∈ fs')
    (hmem : ∀ a, x.Holds fragOverhead a → s'.mem a = s.mem a) : Kept s s' (x.addr + fragOverhead) := by
  unfold Kept
  rw [payload_addr, payload_addr, hok.size x hx, hok'.size x hx']
  exact ⟨rfl, fun i hi => hmem _ ⟨by omega, by omega⟩⟩

theorem fmMalloc_kept (hxu : x.free = false) (size : Nat) :
    ∃ s' q, s.fmMalloc size = some (s', q) ∧ Kept s s' (x.addr + fragOverhead) := by
  rcases fmMalloc_ok hok size with ⟨he, -⟩ | ⟨l, f, r, s', bk', rfl, hfree, -, he, hok', -, hframe⟩
  · exact ⟨s, 0, he, rfl, fun _ _ => rfl⟩
  · have hxf : x ≠ f := by
      rintro rfl
      rw [hxu] at hfree
      cases hfree
    have hrest : x ∈ l ++ r := (mem_middle.mp hx).resolve_left hxf
    refine ⟨s', _, he, kept_of_used hok hx hok' ?_ fun a ha => hframe a ?_ fun g hg _ => ?_⟩
    · simp only [mem_append] at hrest ⊢
      tauto
    · refine hok.tiled.holds_outside hx (by simp) (fun h => hxf ?_) ha
      exact hok.tiled.eq_of_addr HeapShape.oh_pos hx (by simp) h
    · exact (hok.holds_ne hx ha (mem_middle.mpr (.inr hg))).2

theorem fmFree_kept (hf : f ∈ fs) (hfu : f.free = false) (hne : x.addr ≠ f.addr) :
    ∃ s', s.fmFree (f.addr + fragOverhead) = some s' ∧ Kept s s' (x.addr + fragOverhead) := by
  obtain ⟨l, r, rfl⟩ := append_of_mem hf
  obtain ⟨s', bk', he, hok', -, honly⟩ := fmFree_ok hok hfu
  have hx' : x ∈ l ++ { f with free := true } :: r :=
    mem_middle.mpr (.inr ((mem_middle.mp hx).resolve_left fun h => hne (by rw [h])))
  exact ⟨s', he, kept_of_used hok hx hok' hx' fun a ha => honly a fun g hg _ => (hok'.holds_ne hx' ha hg).2⟩

theorem write_kept (hf : f ∈ fs) {a : Nat} (hin : f.Holds fragOverhead a) (hout : ¬x.Holds fragOverhead a) (v : Nat) :
    Kept s (s.setMem (Function.update s.mem a v)) (x.addr + fragOverhead) := by
  obtain ⟨hlo, hhi⟩ := hin
  refine kept_of_used hok hx (hok.writePayload hf _ fun b hb => Function.update_of_ne (by omega) _ _) hx fun b hb => ?_
  exact Function.update_of_ne (by rintro rfl; exact hout hb) _ _

end

/-- The call frees or resizes `p`, or writes into its payload. -/
def Touches (c : Client Heap) (p : Nat) : Call → Prop
  | .malloc _ => False
  | .free q => q = p
  | .realloc q _ => q = p
  | .write a _ => p ≤ a ∧ a < p + allocator.payload c.heap p

/-- **A call that does not touch `p`** leaves it to the client, with its payload. -/
theorem ClientOk.kept {c' : Client Heap} {call : Call} (h : ClientOk c) (hp : p ∈ c.live)
    (hs : Step allocator c call c') (hother : ¬Touches c p call) : p ∈ c'.live ∧ Kept c.heap c'.heap p := by
  obtain ⟨bk, hok, hl⟩ := h
  have hfrag : ∀ {q}, q ∈ c.live → ∃ f ∈ c.heap.frags c.live, f.free = false ∧ f.addr + fragOverhead = q :=
    fun hq => mem_usedPtrs.mp (hl.mem_iff.mp hq)
  obtain ⟨x, hx, hxu, rfl⟩ := hfrag hp
  have hdone := exec_done allocator_realloc
    (fun h live => x.addr + fragOverhead ∈ live ∧ Kept c.heap h (x.addr + fragOverhead))
      (fun h0 => ne_zero_of_live hl h0 rfl)
    hs.1 ?_ ?_ ?_ ?_ fun _ => ⟨hp, rfl, fun _ _ => rfl⟩
  · obtain ⟨c₁, he, hc₁⟩ := hdone
    obtain rfl := some.inj (he.symm.trans hs.2)
    exact hc₁
  · intro size _
    obtain ⟨s', q, he, hkept⟩ := fmMalloc_kept hok hx hxu size
    refine ⟨s', q, he, ?_, hkept⟩
    split
    · exact hp
    · exact mem_cons_of_mem _ hp
  · intro q hcall hq
    have hqx : q ≠ x.addr + fragOverhead := by
      rintro rfl
      cases call with
      | free => exact hother hcall
      | realloc => exact hother hcall.2
      | malloc | write => exact hcall
    obtain ⟨f, hf, hfu, rfl⟩ := hfrag hq
    obtain ⟨s', he, hkept⟩ := fmFree_kept hok hx hf hfu fun h => hqx (by rw [h])
    exact ⟨s', he, (mem_erase_of_ne hqx.symm).mpr hp, hkept⟩
  · rintro q size rfl hq hsize
    obtain ⟨s', q', he, -⟩ := fmRealloc_done hok hl hq hsize
    obtain ⟨l, f, r, hfs, hfu, rfl⟩ := exists_of_live hl hq
    have hne : x.addr + fragOverhead ≠ f.addr + fragOverhead := fun h => hother h.symm
    refine ⟨s', q', he, ?_⟩
    rw [hfs] at hok hx
    rcases fmRealloc_resized hok hfu hsize he with ⟨rfl, rfl⟩ | ⟨hq', hres, -⟩
    · exact ⟨hp, rfl, fun _ _ => rfl⟩
    · rw [if_neg hq']
      exact ⟨mem_cons_of_mem _ ((mem_erase_of_ne hne).mpr hp), hres.kept hok hx hxu fun h => hne (by rw [h])⟩
  · rintro a v q rfl hq ha ha'
    obtain ⟨f, hf, -, rfl⟩ := hfrag hq
    rw [payload_addr, hok.size f hf] at ha'
    refine ⟨hp, write_kept hok hx hf ⟨ha, ha'⟩ (fun hin => hother ⟨hin.1, ?_⟩) v⟩
    rw [payload_addr, hok.size x hx]
    exact hin.2

/-- **Payloads are isolated**: from every state that valid calls lead to, whatever the client does with other pointers,
a pointer that it holds stays its own, and the payload behind it keeps its size and every word. -/
theorem payload_kept_over_runs {mem : Nat → Nat} {address total : Nat} {es es' : List (Call × Client Heap)}
    (htotal : total < 2 ^ 64) (hi : Heap.fmMallocInit mem address total = some s)
    (hrun : Trace (Step allocator) ⟨s, []⟩ es) (hc : c = ⟨s, []⟩ ∨ ∃ e ∈ es, c = e.2) (hp : p ∈ c.live)
    (hrun' : Trace (Step allocator) c es') (hother : Trace (fun c call _ => ¬Touches c p call) c es') :
    ∀ e ∈ es', p ∈ e.2.live ∧ Kept c.heap e.2.heap p := by
  have hinv := (hrun'.and hother).invariant (I := fun x => ClientOk x ∧ p ∈ x.live ∧ Kept c.heap x.heap p)
    (fun x call y hx hstep => ?_) ⟨clientOk_over_runs htotal hi hrun hc, hp, rfl, fun _ _ => rfl⟩
  · exact fun e he => (hinv e he).2
  · obtain ⟨hlive, hkept⟩ := hx.1.kept hx.2.1 hstep.1 hstep.2
    exact ⟨hx.1.step hstep.1, hlive, hx.2.2.trans hkept⟩

/-- A 7 stays in its block while the block behind it is freed. -/
theorem payload_kept_word : ∃ c c' : Client Heap, c.heap.mem 33648 = 7 ∧ Step allocator c (.free 33688) c' ∧
    c'.heap.mem 33648 = 7 := by
  obtain ⟨c, hc, hlive, hword, hpay⟩ : ∃ c, ((Heap.fmMallocInit (fun _ => 0) 0 33904).bind fun s =>
      runCalls allocator ⟨s, []⟩ [.malloc 24, .malloc 8, .write 33648 7]) = some c ∧ c.live = [33688, 33648] ∧
      c.heap.mem 33648 = 7 ∧ allocator.payload c.heap 33648 = 24 := exists_of_any (by decide +kernel)
  obtain ⟨s, hi, hcalls⟩ := bind_eq_some_iff.mp hc
  obtain ⟨es, hrun, hreach⟩ := runCalls_reached hcalls
  obtain ⟨bk, hok, hl⟩ := clientOk_over_runs (by norm_num) hi hrun hreach
  have hv : Valid allocator c (.free 33688) := by simp [Valid, hlive]
  obtain ⟨c', he, -⟩ := exec_ok hok hl hv
  obtain ⟨-, -, hkept⟩ := @payload_kept_over_runs s 33648 c (fun _ => 0) 0 33904 es [(.free 33688, c')]
    (by norm_num) hi hrun
    hreach (by simp [hlive]) ⟨⟨hv, he⟩, trivial⟩ ⟨by simp [Touches], trivial⟩ _ (mem_singleton_self _)
  exact ⟨c, c', hword, ⟨hv, he⟩, (hkept 0 (by omega)).trans hword⟩

end OpenSer.Mem.FM
