import Mathlib.Data.Nat.Digits.Defs
import Mathlib.Tactic

/-!
# Reversed hexadecimal numbers

`ut.h` writes an `int` as hexadecimal digits, least significant first (`int2reverseHex`), and reads such a text back
(`reverseHex2int`). A C `int` is an `Int` here where only its value matters, and a `BitVec 32` where the code shifts
it; an `unsigned int` is a `BitVec 32`.

* A number below `16 ^ size` is written and read back (`int2reverseHex_nonneg`, `reverseHex2int_revHex`).
* A negative number is never written: its arithmetic shift never reaches zero (`int2reverseHex_neg`).
-/

namespace OpenSer

open List Nat

abbrev Str := List Char

/-! ## The encoder -/

def hexChar (digit : Nat) : Char :=
  if digit ≥ 10 then Char.ofNat (digit + 'a'.toNat - 10) else Char.ofNat (digit + '0'.toNat)

/-- The `while` loop of `int2reverse_hex`: the characters written, the space left, and what is left of `nr`. -/
def int2reverseHexLoop : Nat → Int → Str × Nat × Int
  | 0, nr => ([], 0, nr)
  | size + 1, nr =>
    if nr = 0 then ([], size + 1, nr)
    else
      -- `nr & 0xf` and the arithmetic `nr >>= 4` of a two's complement `int`
      let rest := int2reverseHexLoop size (nr / 16)
      (hexChar (nr % 16).toNat :: rest.1, rest.2)

/-- `int2reverse_hex`: the characters written, the space left, and the return value. -/
def int2reverseHex (size : Nat) (nr : Int) : Str × Nat × Int :=
  if size ≠ 0 ∧ nr = 0 then (['0'], size - 1, 1)
  else
    let r := int2reverseHexLoop size nr
    (r.1, r.2.1, if r.2.2 ≠ 0 then -1 else 1)

/-! ## The decoder -/

def hexDigit (mychar : Char) : Option Nat :=
  if '0' ≤ mychar ∧ mychar ≤ '9' then some (mychar.toNat - '0'.toNat)
  else if 'a' ≤ mychar ∧ mychar ≤ 'f' then some (mychar.toNat - 'a'.toNat + 10)
  else if 'A' ≤ mychar ∧ mychar ≤ 'F' then some (mychar.toNat - 'A'.toNat + 10)
  else none

/-- The loop of `reverse_hex2int`, over the characters from the last to the first. -/
def reverseHex2intLoop : Str → BitVec 32 → Option (BitVec 32)
  | [], r => some r
  | c :: cs, r =>
    match hexDigit c with
    | some d => reverseHex2intLoop cs (r <<< 4 + BitVec.ofNat 32 d)
    | none => none

def reverseHex2int (c : Str) : Int :=
  match reverseHex2intLoop c.reverse 0 with
  | some r => r.toInt
  | none => -1

/-! ## Writing a number -/

/-- The text of a non-negative number. -/
def revHex (n : Nat) : Str := if n = 0 then ['0'] else (Nat.digits 16 n).map hexChar

theorem revHex_of_pos {n : Nat} (h : n ≠ 0) : revHex n = (digits 16 n).map hexChar := by simp [revHex, h]

theorem revHex_ne_nil (n : Nat) : revHex n ≠ [] := by
  unfold revHex
  split
  · simp
  · rename_i h
    simpa [digits_ne_nil_iff_ne_zero] using h

theorem mem_revHex {n : Nat} {c : Char} (h : c ∈ revHex n) : ∃ d < 16, c = hexChar d := by
  unfold revHex at h
  split at h
  · exact ⟨0, by decide, by simpa [hexChar] using h⟩
  · obtain ⟨d, hd, rfl⟩ := mem_map.mp h
    exact ⟨d, digits_lt_base (by decide) hd, rfl⟩

theorem length_revHex_le {n k : Nat} (hk : 0 < k) (h : n < 16 ^ k) : (revHex n).length ≤ k := by
  unfold revHex
  split
  · exact hk
  · simp only [length_map]
    exact (digits_length_le_iff (by decide) n).mpr h

theorem int2reverseHexLoop_nat : ∀ (size n : Nat), n < 16 ^ size →
    int2reverseHexLoop size n =
      ((Nat.digits 16 n).map hexChar, size - (Nat.digits 16 n).length, 0)
  | 0, n, h => by
    have : n = 0 := by simpa using h
    subst this
    rfl
  | size + 1, n, h => by
    unfold int2reverseHexLoop
    by_cases hn : n = 0
    · subst hn; simp
    · have hz : ¬((n : Int) = 0) := by exact_mod_cast hn
      have hdiv : n / 16 < 16 ^ size := by
        rw [Nat.div_lt_iff_lt_mul (by decide)]
        rwa [pow_succ] at h
      have hd : digits 16 n = n % 16 :: digits 16 (n / 16) :=
        digits_def' (by decide) (pos_of_ne_zero hn)
      have hmod : ((n : Int) % 16).toNat = n % 16 := by omega
      have hdiv' : (n : Int) / 16 = ((n / 16 : Nat) : Int) := by omega
      rw [if_neg hz]
      rw [hdiv', int2reverseHexLoop_nat size (n / 16) hdiv, hmod, hd]
      simp only [map_cons, length_cons, Nat.add_sub_add_right]

theorem int2reverseHex_nonneg {size n : Nat} (hs : 0 < size) (h : n < 16 ^ size) :
    int2reverseHex size n = (revHex n, size - (revHex n).length, 1) := by
  unfold int2reverseHex
  by_cases hn : n = 0
  · subst hn
    simp [revHex, hs.ne']
  · have hz : ¬(size ≠ 0 ∧ (n : Int) = 0) := fun hc => hn (by exact_mod_cast hc.2)
    rw [if_neg hz, int2reverseHexLoop_nat size n h, revHex_of_pos hn]
    simp

/-- Shifting a negative number right never reaches zero. -/
theorem int2reverseHexLoop_neg : ∀ (size : Nat) (nr : Int), nr < 0 → (int2reverseHexLoop size nr).2.2 < 0
  | 0, _, h => h
  | size + 1, nr, h => by
    unfold int2reverseHexLoop
    rw [if_neg (by omega)]
    exact int2reverseHexLoop_neg size (nr / 16) (by omega)

theorem int2reverseHex_neg (size : Nat) {nr : Int} (h : nr < 0) : (int2reverseHex size nr).2.2 = -1 := by
  unfold int2reverseHex
  rw [if_neg (by omega)]
  have := int2reverseHexLoop_neg size nr h
  dsimp only
  rw [if_pos (by omega)]

theorem toInt_of_lt {x : BitVec 32} (h : x.toNat < 2 ^ 31) : x.toInt = (x.toNat : Int) := by
  rw [BitVec.toInt_eq_toNat_cond, if_pos (by omega)]

theorem toInt_neg_of_le {x : BitVec 32} (h : 2 ^ 31 ≤ x.toNat) : x.toInt < 0 := by
  rw [BitVec.toInt_eq_toNat_cond]
  omega

/-! ## Reading a number back -/

theorem hexDigit_hexChar : ∀ d < 16, hexDigit (hexChar d) = some d := by decide

theorem reverseHex2intLoop_append (cs : Str) (c : Char) (r : BitVec 32) :
    reverseHex2intLoop (cs ++ [c]) r =
      (reverseHex2intLoop cs r).bind fun r => reverseHex2intLoop [c] r := by
  induction cs generalizing r with
  | nil => rfl
  | cons d cs ih =>
    simp only [cons_append, reverseHex2intLoop]
    cases hexDigit d with
    | none => rfl
    | some v => exact ih _

theorem shift_add_digit (r d : Nat) :
    (BitVec.ofNat 32 r) <<< 4 + BitVec.ofNat 32 d = BitVec.ofNat 32 (d + 16 * r) := by
  apply BitVec.eq_of_toNat_eq
  simp only [BitVec.toNat_add, BitVec.toNat_shiftLeft, BitVec.toNat_ofNat, shiftLeft_eq]
  omega

/-- The decoder computes the number of a digit list modulo the width. -/
theorem reverseHex2intLoop_digits : ∀ (ds : List Nat), (∀ d ∈ ds, d < 16) →
    reverseHex2intLoop (ds.map hexChar).reverse 0 = some (BitVec.ofNat 32 (Nat.ofDigits 16 ds))
  | [], _ => rfl
  | d :: ds, h => by
    have ih := reverseHex2intLoop_digits ds (forall_mem_cons.mp h).2
    rw [map_cons, reverse_cons, reverseHex2intLoop_append, ih, Option.bind_some]
    simp only [reverseHex2intLoop, hexDigit_hexChar d (h d mem_cons_self), ofDigits_cons]
    rw [shift_add_digit]

/-- **Round trip**: a number below `2 ^ 31` is read back from its text. -/
theorem reverseHex2int_revHex {n : Nat} (h : n < 2 ^ 31) : reverseHex2int (revHex n) = n := by
  have hloop : reverseHex2intLoop (revHex n).reverse 0 = some (BitVec.ofNat 32 n) := by
    by_cases hn : n = 0
    · subst hn; decide
    · rw [revHex_of_pos hn, reverseHex2intLoop_digits _ fun d hd => digits_lt_base (by decide) hd,
        ofDigits_digits]
  unfold reverseHex2int
  rw [hloop]
  simp only [BitVec.toInt_ofNat']
  rw [Int.bmod_eq_of_le] <;> omega

end OpenSer
