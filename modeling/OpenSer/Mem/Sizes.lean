import OpenSer.Lib.Frags

/-!
# Sizes and counters of the allocators

What `f_malloc.c` and `q_malloc.c` have in common: `unsigned long` arithmetic, the macros that round a size and find its
bucket, the rule that decides whether a fragment is split, and what the counters `used` and `real_used` stand for. The
parameters are `ROUNDTO`, the exponent of the largest small size, the overhead of a fragment and the largest small size.

* `le_roundup`, `roundup_wraps`: rounding up keeps a size, or wraps to 0.
* `getHash_mono`: larger sizes have later buckets.
* `Sums.take`, `Sums.release`, `Sums.join`: counting an allocation, a release and a growth in place.
-/

namespace OpenSer.Mem

open Lib Nat

/-! ## Machine words -/

def wadd (a b : Nat) : Nat := (a + b) % 2 ^ 64

def wsub (a b : Nat) : Nat := (a + (2 ^ 64 - b % 2 ^ 64)) % 2 ^ 64

theorem wsub_of_le {a b : Nat} (h : b ≤ a) (ha : a < 2 ^ 64) : wsub a b = a - b := by
  unfold wsub
  rw [mod_eq_of_lt (by omega : b < 2 ^ 64), show a + (2 ^ 64 - b) = (a - b) + 2 ^ 64 by omega, add_mod_right,
    mod_eq_of_lt (by omega)]

theorem wadd_of_lt {a b : Nat} (h : a + b < 2 ^ 64) : wadd a b = a + b := Nat.mod_eq_of_lt h

-- the word size is a large literal that no unifier should look at
attribute [irreducible] wadd wsub

/-- `memcpy(dst, src, 8 * n)`, word by word. -/
def memcpy (mem : Nat → Nat) (dst src n : Nat) : Nat → Nat := fun a =>
  if dst ≤ a ∧ a < dst + 8 * n then mem (src + (a - dst)) else mem a

/-! ## Rounding and size classes -/

def roundup (roundto s : Nat) : Nat := (s + (roundto - 1)) % 2 ^ 64 / roundto * roundto

def rounddown (roundto s : Nat) : Nat := s / roundto * roundto

theorem rounddown_lt {roundto s n : Nat} (h : s < n) : rounddown roundto s < n := (Nat.div_mul_le_self ..).trans_lt h

def bigHashIdxLoop : Nat → Nat → Nat
  | 0, _ => 0
  | idx + 1, s => if s / 2 ^ 63 % 2 = 1 then idx + 1 else bigHashIdxLoop idx (s * 2 % 2 ^ 64)

def bigHashIdx (s : Nat) : Nat := bigHashIdxLoop 63 s

def getHash (roundto factor s : Nat) : Nat :=
  if s ≤ 2 ^ factor then s / roundto else 2 ^ factor / roundto + bigHashIdx s - factor + 1

theorem bigHashIdxLoop_le : ∀ idx s, bigHashIdxLoop idx s ≤ idx
  | 0, _ => Nat.le_refl 0
  | idx + 1, s => by
    rw [bigHashIdxLoop]
    split
    · exact le_refl _
    · exact (bigHashIdxLoop_le idx _).trans (le_succ idx)

theorem le_roundup {roundto s : Nat} (hto : 0 < roundto) (hs : s + (roundto - 1) < 2 ^ 64) : s ≤ roundup roundto s := by
  unfold roundup
  rw [mod_eq_of_lt hs]
  have hdiv := div_add_mod (s + (roundto - 1)) roundto
  have hmod := mod_lt (s + (roundto - 1)) hto
  rw [mul_comm] at hdiv
  omega

theorem roundup_wraps {roundto s : Nat} (hs : s < 2 ^ 64) (hw : 2 ^ 64 ≤ s + (roundto - 1)) :
    roundup roundto s = 0 := by
  unfold roundup
  by_cases hto : roundto ≤ 2 ^ 64
  · have hmod : (s + (roundto - 1)) % 2 ^ 64 = s + (roundto - 1) - 2 ^ 64 := by
      rw [mod_eq_sub_mod hw, mod_eq_of_lt (by omega)]
    rw [div_eq_of_lt (by omega), zero_mul]
  · rw [div_eq_of_lt (by omega), zero_mul]

theorem bigHashIdxLoop_eq : ∀ {idx m s : Nat}, 2 ^ 63 ≤ s * 2 ^ m → s * 2 ^ m < 2 ^ 64 → m ≤ idx →
    bigHashIdxLoop idx s = idx - m
  | 0, m, s, _, _, hm => by
    rw [bigHashIdxLoop]
    omega
  | idx + 1, 0, s, hlo, hhi, _ => by
    rw [bigHashIdxLoop, if_pos (by omega)]
    rfl
  | idx + 1, m + 1, s, hlo, hhi, hm => by
    have hs : s * 2 ^ (m + 1) = s * 2 * 2 ^ m := by ring
    have hlt : s * 2 < 2 ^ 64 := by
      refine lt_of_le_of_lt ?_ (hs ▸ hhi)
      exact Nat.le_mul_of_pos_right _ (by positivity)
    rw [bigHashIdxLoop, if_neg (by omega), mod_eq_of_lt hlt,
      bigHashIdxLoop_eq (by rw [← hs]; exact hlo) (by rw [← hs]; exact hhi) (by omega)]
    omega

/-- `big_hash_idx` finds the first bit that is set. -/
theorem bigHashIdx_eq_log {s : Nat} (hpos : 0 < s) (hs : s < 2 ^ 64) : bigHashIdx s = log 2 s := by
  have hlog : log 2 s < 64 := log_lt_of_lt_pow hpos.ne' hs
  have hlo : 2 ^ log 2 s ≤ s := pow_log_le_self 2 hpos.ne'
  have hhi : s < 2 ^ (log 2 s + 1) := lt_pow_succ_log_self (by norm_num) s
  have hpow : 2 ^ log 2 s * 2 ^ (63 - log 2 s) = 2 ^ 63 := by
    rw [← pow_add]
    congr 1
    omega
  have hpos' : 0 < 2 ^ (63 - log 2 s) := by positivity
  have hlow : 2 ^ 63 ≤ s * 2 ^ (63 - log 2 s) := hpow ▸ mul_le_mul_right _ hlo
  have hhigh : s * 2 ^ (63 - log 2 s) < 2 ^ 64 := by
    calc s * 2 ^ (63 - log 2 s) < 2 ^ (log 2 s + 1) * 2 ^ (63 - log 2 s) := mul_lt_mul_of_pos_right hhi hpos'
      _ = 2 * 2 ^ 63 := by rw [pow_succ, mul_comm _ 2, mul_assoc, hpow]
  rw [bigHashIdx, bigHashIdxLoop_eq hlow hhigh (by omega)]
  omega

theorem getHash_mono {roundto factor s t : Nat} (hst : s ≤ t) (ht : t < 2 ^ 64) :
    getHash roundto factor s ≤ getHash roundto factor t := by
  unfold getHash
  by_cases hsmall : t ≤ 2 ^ factor
  · rw [if_pos (hst.trans hsmall), if_pos hsmall]
    exact Nat.div_le_div_right hst
  · have hlarge := not_le.mp hsmall
    have hidx : factor ≤ bigHashIdx t := by
      rw [bigHashIdx_eq_log (zero_lt_of_lt hlarge) ht]
      exact le_log_of_pow_le (by norm_num) hlarge.le
    rw [if_neg hsmall]
    by_cases hs : s ≤ 2 ^ factor
    · rw [if_pos hs]
      have := Nat.div_le_div_right (c := roundto) hs
      omega
    · rw [if_neg hs]
      have hmono : bigHashIdx s ≤ bigHashIdx t := by
        rw [bigHashIdx_eq_log (zero_lt_of_lt (not_le.mp hs)) (hst.trans_lt ht),
          bigHashIdx_eq_log (zero_lt_of_lt hlarge) ht]
        exact log_mono_right hst
      omega

theorem getHash_lt {roundto factor : Nat} (hf : factor < 64) (s : Nat) :
    getHash roundto factor s < 2 ^ factor / roundto + (64 - factor) + 1 := by
  unfold getHash
  split
  · rename_i hle
    have := Nat.div_le_div_right (c := roundto) hle
    omega
  · have hidx : bigHashIdx s ≤ 63 := bigHashIdxLoop_le 63 s
    generalize 2 ^ factor / roundto = small
    omega

attribute [irreducible] getHash

/-! ## Splitting -/

/-- The residue of a fragment is big enough to be split off, with `MEM_FRAG_AVOIDANCE`. -/
def Splits (oh opt fsize size : Nat) : Prop := fsize - size > oh + opt ∨ fsize - size ≥ oh + size

instance (oh opt fsize size : Nat) : Decidable (Splits oh opt fsize size) := inferInstanceAs (Decidable (_ ∨ _))

/-- What a fragment of `fsize` bytes keeps when `size` are asked for. -/
def keptSize (oh opt fsize size : Nat) : Nat := if Splits oh opt fsize size then size else fsize

/-- What splitting makes of a fragment in use. -/
def splitFrag (oh opt : Nat) (f : Frag) (size : Nat) : List Frag :=
  if Splits oh opt f.size size then [{ f with size := size }, ⟨f.addr + oh + size, f.size - size - oh, true⟩]
  else [f]

variable {oh opt used real total size fsize : Nat} {fs l r : List Frag} {f n : Frag}

theorem Splits.le (h : Splits oh opt fsize size) (hle : size ≤ fsize) : size + oh ≤ fsize := by
  unfold Splits at h
  omega

theorem le_keptSize (hle : size ≤ fsize) : size ≤ keptSize oh opt fsize size := by
  unfold keptSize
  split
  · exact le_rfl
  · exact hle

theorem splitFrag_cons (oh opt : Nat) (f : Frag) (size : Nat) :
    ∃ rest, splitFrag oh opt f size = { f with size := keptSize oh opt f.size size } :: rest ∧
      ∀ g ∈ rest, g.free = true := by
  unfold splitFrag keptSize
  split
  · exact ⟨_, rfl, by simp⟩
  · exact ⟨[], rfl, by simp⟩

theorem usedSize_splitFrag (oh opt size : Nat) (hused : f.free = false) :
    usedSize (splitFrag oh opt f size) = keptSize oh opt f.size size := by
  unfold splitFrag keptSize
  split <;> simp [usedSize, hused]

theorem freeSize_splitFrag (oh opt size : Nat) (hused : f.free = false) :
    freeSize (splitFrag oh opt f size) = if Splits oh opt f.size size then f.size - size - oh else 0 := by
  unfold splitFrag
  split <;> simp [freeSize, hused]

theorem usedPtrs_splitFrag (hused : f.free = false) (p : Nat) (oh opt size : Nat) :
    usedPtrs p (l ++ (splitFrag oh opt f size ++ r)) = usedPtrs p (l ++ f :: r) := by
  obtain ⟨rest, hcons, hrest⟩ := splitFrag_cons oh opt f size
  rw [hcons]
  exact usedPtrs_resize [] rest hused hused rfl (by simp) hrest

theorem mem_splitFrag : { f with size := keptSize oh opt f.size size } ∈ l ++ (splitFrag oh opt f size ++ r) := by
  obtain ⟨rest, hcons, -⟩ := splitFrag_cons oh opt f size
  rw [hcons]
  simp

theorem forall_used_splitFrag (P : Nat → Prop) (h : ∀ g ∈ l ++ f :: r, g.free = false → P g.addr) :
    ∀ g ∈ l ++ (splitFrag oh opt f size ++ r), g.free = false → P g.addr := by
  intro g hg hused
  obtain ⟨rest, hcons, hrest⟩ := splitFrag_cons oh opt f size
  rw [hcons] at hg
  rcases mem_outer.mp hg with hg | hg
  · rcases List.mem_cons.mp hg with rfl | hg
    · exact h f (by simp) hused
    · rw [hrest g hg] at hused
      cases hused
  · exact h g (mem_middle.mpr (.inr hg)) hused

theorem mem_others_of_used (hf : f ∈ l ++ n :: r) (hused : f.free = false) (hfree : n.free = true) : f ∈ l ++ r := by
  refine (mem_middle.mp hf).resolve_left fun he => ?_
  rw [he, hfree] at hused
  cases hused

section
variable {live : List Nat} {p : Nat}

theorem usedPtrs_taken (oh opt size : Nat) (hl : live.Perm (usedPtrs p (l ++ f :: r))) (hfree : f.free = true) :
    ((f.addr + p) :: live).Perm (usedPtrs p (l ++ (splitFrag oh opt { f with free := false } size ++ r))) := by
  obtain ⟨rest, hcons, hrest⟩ := splitFrag_cons oh opt { f with free := false } size
  rw [hcons]
  exact usedPtrs_take hl hfree rfl rfl hrest

theorem usedPtrs_joined (hused : f.free = false) (hfree : n.free = true) :
    usedPtrs p (l ++ (splitFrag oh opt { f with size := fsize } size ++ r)) = usedPtrs p (l ++ f :: n :: r) := by
  obtain ⟨rest, hcons, hrest⟩ := splitFrag_cons oh opt { f with size := fsize } size
  rw [hcons]
  exact usedPtrs_resize [n] rest hused hused rfl (by simpa using hfree) hrest

theorem usedPtrs_moved {l' r' : List Frag} {a e : Nat} (h : Tiled oh a (l ++ n :: r) e) (hoh : 0 < oh)
    (hf : f ∈ l ++ n :: r) (hl : live.Perm (usedPtrs p (l ++ n :: r))) (hfree : n.free = true) (hused : f.free = false)
    (hsame : l ++ (splitFrag oh opt { n with free := false } size ++ r) = l' ++ f :: r') :
    ((n.addr + p) :: live.erase (f.addr + p)).Perm (usedPtrs p (l' ++ { f with free := true } :: r')) := by
  have hne : ¬(n.addr + p == f.addr + p) = true := by
    intro he
    have hnf := h.eq_of_addr hoh (f := n) (by simp) hf (add_right_cancel (eq_of_beq he))
    rw [hnf, hused] at hfree
    cases hfree
  have htake := usedPtrs_taken oh opt size hl hfree
  rw [hsame] at htake
  have hrel := usedPtrs_release (g := { f with free := true }) htake hused rfl
  rwa [List.erase_cons_tail hne] at hrel

end

/-! ## Counters -/

/-- `used` is the size of the fragments in use, and `real_used` the size of the block without its free fragments. -/
def Sums (used real total : Nat) (fs : List Frag) : Prop := used = usedSize fs ∧ real + freeSize fs = total

/-- The payloads fit into the block beside its own header. -/
def Room (oh total : Nat) (fs : List Frag) : Prop := usedSize fs + freeSize fs + oh ≤ total ∧ total < 2 ^ 64

/-- `real_used` after a free fragment of `fsize` bytes was taken for `size`. -/
def takenReal (oh opt real fsize size : Nat) : Nat :=
  wadd (if Splits oh opt fsize size then wadd real oh else real) (keptSize oh opt fsize size)

/-- `real_used` after a fragment of `fsize` bytes took over the one behind it of `nsize` bytes, for `size`. -/
def joinedReal (oh opt real fsize nsize size : Nat) : Nat :=
  wadd (if Splits oh opt (fsize + oh + nsize) size then wadd (wsub real oh) oh else wsub real oh)
    (wsub (keptSize oh opt (fsize + oh + nsize) size) fsize)

theorem Sums.take (h : Sums used real total (l ++ f :: r)) (hroom : Room oh total (l ++ f :: r)) (hfree : f.free = true)
    (hle : size ≤ f.size) (opt : Nat) :
    Sums (wadd used (keptSize oh opt f.size size)) (takenReal oh opt real f.size size) total
        (l ++ (splitFrag oh opt { f with free := false } size ++ r)) ∧
      Room oh total (l ++ (splitFrag oh opt { f with free := false } size ++ r)) := by
  have hu := usedSize_splitFrag (f := { f with free := false }) oh opt size rfl
  have hf := freeSize_splitFrag (f := { f with free := false }) oh opt size rfl
  simp only [Sums, Room, usedSize_append, freeSize_append, usedSize_cons, freeSize_cons, hfree, if_true, hu,
    hf] at h hroom ⊢
  unfold takenReal keptSize
  by_cases hsp : Splits oh opt f.size size
  · have hsize := hsp.le hle
    simp only [if_pos hsp]
    rw [wadd_of_lt (a := real) (by omega), wadd_of_lt (a := real + _) (by omega), wadd_of_lt (by omega)]
    omega
  · simp only [if_neg hsp]
    rw [wadd_of_lt (a := real) (by omega), wadd_of_lt (by omega)]
    omega

theorem Sums.release (h : Sums used real total (l ++ f :: r)) (hroom : Room oh total (l ++ f :: r))
    (hused : f.free = false) :
    Sums (wsub used f.size) (wsub real f.size) total (l ++ { f with free := true } :: r) ∧ wsub real f.size ≤ real := by
  simp only [Sums, Room, usedSize_append, freeSize_append, usedSize_cons, freeSize_cons, hused, if_true,
    Bool.false_eq_true, if_false] at h hroom ⊢
  rw [wsub_of_le (by omega) (by omega), wsub_of_le (by omega) (by omega)]
  omega

theorem Sums.join (h : Sums used real total (l ++ f :: n :: r)) (hroom : Room oh total (l ++ f :: n :: r))
    (hused : f.free = false) (hfree : n.free = true) (hlt : f.size < size) (hle : size ≤ f.size + oh + n.size)
    (opt : Nat) :
    Sums (wadd used (wsub (keptSize oh opt (f.size + oh + n.size) size) f.size))
        (joinedReal oh opt real f.size n.size size) total
        (l ++ (splitFrag oh opt { f with size := f.size + oh + n.size } size ++ r)) ∧
      joinedReal oh opt real f.size n.size size =
        real + if Splits oh opt (f.size + oh + n.size) size then size - f.size else n.size := by
  have hu := usedSize_splitFrag (f := { f with size := f.size + oh + n.size }) oh opt size hused
  have hf := freeSize_splitFrag (f := { f with size := f.size + oh + n.size }) oh opt size hused
  simp only [Sums, usedSize_append, freeSize_append, hu, hf]
  simp only [Sums, Room, usedSize_append, freeSize_append, usedSize_cons, freeSize_cons, hused, hfree, if_true,
    Bool.false_eq_true, if_false] at h hroom
  have hback : wsub real oh = real - oh := wsub_of_le (by omega) (by omega)
  unfold joinedReal keptSize
  rw [hback]
  by_cases hsp : Splits oh opt (f.size + oh + n.size) size
  · have hsize := hsp.le hle
    simp only [if_pos hsp]
    rw [wsub_of_le (by omega) (by omega), wadd_of_lt (a := real - oh) (by omega),
      wadd_of_lt (a := real - oh + _) (by omega), wadd_of_lt (by omega)]
    omega
  · simp only [if_neg hsp]
    rw [wsub_of_le (by omega) (by omega), wadd_of_lt (a := real - oh) (by omega), wadd_of_lt (by omega)]
    omega

end OpenSer.Mem
