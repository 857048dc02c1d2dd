import OpenSer.Ut

/-!
# Decimal numbers

`str2s` reads a port or another 16-bit field, `str2int` a CSeq, an Expires, a Content-Length or an AVP id. `str2s`
counts digits, `str2int` guards nothing; both compute in the width of their result.

* `str2s_digits`, `str2int_digits`: what the decoders make of a string of digits, by induction over the string.
* `decimal_exact_iff`: the strings on which success means the exact value.
-/

namespace OpenSer

open Option

/-- `*str <= '9' && *str >= '0'`. -/
def isDecimal (c : Char) : Bool := c ≤ '9' ∧ '0' ≤ c

/-- The loop of `str2s`: `ret` is an `unsigned short`, `i` counts the digits. -/
def str2sLoop : Str → BitVec 16 → Nat → Option (BitVec 16)
  | [], ret, _ => some ret
  | c :: str, ret, i =>
    if isDecimal c then
      -- `goto error_digits`
      if i + 1 > 5 then none else str2sLoop str (ret * 10 + BitVec.ofNat 16 (c.toNat - '0'.toNat)) (i + 1)
    -- `goto error_char`
    else none

/-- `str2s`: `none` when it sets `*err` and returns 0. -/
def str2s (s : Str) : Option (BitVec 16) := str2sLoop s 0 0

def str2intLoop : Str → BitVec 32 → Option (BitVec 32)
  | [], r => some r
  | c :: s, r => if isDecimal c then str2intLoop s (r * 10 + BitVec.ofNat 32 (c.toNat - '0'.toNat)) else none

/-- `str2int`: `none` when it returns -1. -/
def str2int (s : Str) : Option (BitVec 32) := str2intLoop s 0

/-! ## The value of a string -/

/-- The number that a string of digits continues `r` to. -/
def decimalFrom (r : Nat) (s : Str) : Nat := s.foldl (fun r c => r * 10 + (c.toNat - '0'.toNat)) r

/-- The mathematical value of a string of digits. -/
def decimal (s : Str) : Nat := decimalFrom 0 s

theorem shift_decimal (w r d : Nat) :
    BitVec.ofNat w r * 10 + BitVec.ofNat w d = BitVec.ofNat w (r * 10 + d) := by
  rw [BitVec.ofNat_add, BitVec.ofNat_mul]
  rfl

variable (s : Str)

/-- `str2s` accepts at most five digits, and gives their value modulo 2^16. -/
theorem str2sLoop_digits (hs : ∀ c ∈ s, isDecimal c = true) (r i : Nat) :
    str2sLoop s (BitVec.ofNat 16 r) i =
      if s = [] ∨ i + s.length ≤ 5 then some (BitVec.ofNat 16 (decimalFrom r s)) else none := by
  induction s generalizing r i with
  | nil => simp [str2sLoop, decimalFrom]
  | cons c s ih =>
    rw [str2sLoop, if_pos (hs c (by simp)), shift_decimal]
    by_cases hi : i + 1 > 5
    · rw [if_pos hi, if_neg]
      rintro (hnil | hlen)
      · cases hnil
      · rw [List.length_cons] at hlen
        omega
    · rw [if_neg hi, ih fun d hd => hs d (by simp [hd])]
      have hcond : (s = [] ∨ i + 1 + s.length ≤ 5) ↔ (c :: s = [] ∨ i + (c :: s).length ≤ 5) := by
        rw [List.length_cons]
        constructor
        · rintro (rfl | hlen)
          · simp only [List.length_nil]
            omega
          · exact .inr (by omega)
        · rintro (hnil | hlen)
          · cases hnil
          · exact .inr (by omega)
      simp only [hcond]
      rfl

theorem str2s_digits (hs : ∀ c ∈ s, isDecimal c = true) :
    str2s s = if s.length ≤ 5 then some (BitVec.ofNat 16 (decimal s)) else none := by
  have hloop := str2sLoop_digits s hs 0 0
  have hcond : (s = [] ∨ 0 + s.length ≤ 5) ↔ s.length ≤ 5 := by
    constructor
    · rintro (rfl | hlen)
      · simp
      · omega
    · intro hlen
      exact .inr (by omega)
  simp only [hcond] at hloop
  exact hloop

theorem str2intLoop_digits (hs : ∀ c ∈ s, isDecimal c = true) (r : Nat) :
    str2intLoop s (BitVec.ofNat 32 r) = some (BitVec.ofNat 32 (decimalFrom r s)) := by
  induction s generalizing r with
  | nil => rfl
  | cons c s ih =>
    rw [str2intLoop, if_pos (hs c (by simp)), shift_decimal]
    exact ih (fun d hd => hs d (by simp [hd])) _

theorem str2int_digits (hs : ∀ c ∈ s, isDecimal c = true) :
    str2int s = some (BitVec.ofNat 32 (decimal s)) :=
  str2intLoop_digits s hs 0

theorem str2intLoop_eq_some {s : Str} {r : Nat} {v : BitVec 32} (h : str2intLoop s (BitVec.ofNat 32 r) = some v) :
    v = BitVec.ofNat 32 (decimalFrom r s) := by
  induction s generalizing r with
  | nil => exact (some.inj h).symm
  | cons c s ih =>
    obtain ⟨-, h⟩ := ite_none_right_eq_some.mp h
    rw [shift_decimal] at h
    exact ih h

theorem str2int_eq_some {s : Str} {v : BitVec 32} (h : str2int s = some v) : v = BitVec.ofNat 32 (decimal s) :=
  str2intLoop_eq_some (r := 0) h

/-! ## Exactness -/

/-- Success means that the value fits and is the result. -/
def Exact {w : Nat} (decode : Str → Option (BitVec w)) (s : Str) : Prop :=
  ∀ v, decode s = some v → decimal s < 2 ^ w ∧ v.toNat = decimal s

theorem exact_ofNat_iff {w : Nat} (n : Nat) : (n < 2 ^ w ∧ (BitVec.ofNat w n).toNat = n) ↔ n < 2 ^ w := by
  constructor
  · exact And.left
  · intro hlt
    exact ⟨hlt, by rw [BitVec.toNat_ofNat, Nat.mod_eq_of_lt hlt]⟩

theorem exact_str2s_iff (hs : ∀ c ∈ s, isDecimal c = true) :
    Exact str2s s ↔ decimal s < 2 ^ 16 ∨ 5 < s.length := by
  unfold Exact
  rw [str2s_digits s hs]
  by_cases hlen : s.length ≤ 5
  · rw [if_pos hlen]
    simp only [some.injEq, forall_eq', exact_ofNat_iff]
    omega
  · rw [if_neg hlen]
    constructor
    · intro _
      exact .inr (by omega)
    · intro _ v hv
      cases hv

theorem exact_str2int_iff (hs : ∀ c ∈ s, isDecimal c = true) :
    Exact str2int s ↔ decimal s < 2 ^ 32 := by
  unfold Exact
  rw [str2int_digits s hs]
  simp only [some.injEq, forall_eq', exact_ofNat_iff]

theorem Exact.inj {w : Nat} {decode : Str → Option (BitVec w)} {s t : Str} {v : BitVec w} (hs : Exact decode s)
    (ht : Exact decode t) (hsv : decode s = some v) (htv : decode t = some v) : decimal s = decimal t := by
  rw [← (hs v hsv).2, ← (ht v htv).2]

/-- **Decimal fields**: success means the exact value for `str2s` exactly if the value fits into 16 bits or there are
more than five digits, and for `str2int` exactly if the value fits into 32 bits; two such strings that are accepted as
one number have one value. -/
theorem decimal_exact_iff (s : Str) (hs : ∀ c ∈ s, isDecimal c = true) :
    (Exact str2s s ↔ decimal s < 2 ^ 16 ∨ 5 < s.length) ∧
    (Exact str2int s ↔ decimal s < 2 ^ 32) ∧
    ∀ t : Str, (∀ c ∈ t, isDecimal c = true) →
      ((decimal s < 2 ^ 16 ∨ 5 < s.length) → (decimal t < 2 ^ 16 ∨ 5 < t.length) →
        ∀ v, str2s s = some v → str2s t = some v → decimal s = decimal t) ∧
      (decimal s < 2 ^ 32 → decimal t < 2 ^ 32 →
        ∀ v, str2int s = some v → str2int t = some v → decimal s = decimal t) := by
  refine ⟨exact_str2s_iff s hs, exact_str2int_iff s hs, fun t ht =>
    ⟨fun h1 h2 v hv hv' => ?_, fun h1 h2 v hv hv' => ?_⟩⟩
  · exact ((exact_str2s_iff s hs).mpr h1).inj ((exact_str2s_iff t ht).mpr h2) hv hv'
  · exact ((exact_str2int_iff s hs).mpr h1).inj ((exact_str2int_iff t ht).mpr h2) hv hv'

/-- The port 5060 is read exactly. -/
theorem decimal_exact_port : Exact str2s "5060".toList ∧ str2s "5060".toList = some 5060 :=
  ⟨(decimal_exact_iff "5060".toList (List.all_eq_true.mp rfl)).1.mpr (.inl (by decide)), by decide⟩

/-- 65536 is accepted as the port 0, and 4294967296 as the number 0. -/
theorem decimal_wraps : str2s "65536".toList = some 0 ∧ decimal "65536".toList = 65536 ∧ str2s "0".toList = some 0 ∧
    str2int "4294967296".toList = some 0 ∧ decimal "4294967296".toList = 4294967296 ∧ str2int "0".toList = some 0 := by
  decide

end OpenSer
