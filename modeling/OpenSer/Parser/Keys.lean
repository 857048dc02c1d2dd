import OpenSer.Lib.Switch
import Mathlib.Data.Nat.Bitwise
import Mathlib.Tactic.Linarith
import Mathlib.Tactic.Positivity
import Mathlib.Tactic.Ring

/-!
# Four bytes at a time

`keys.h`, and the macros of `parse_hname2.c` that read four bytes as one number. The bytes are signed, so a byte from
0x80 on lowers the number that the bytes behind it make; the keys have no such byte.

* `read_lower_iff`: a key is read where each byte, with the bit 0x20 set, is the byte of the key.
-/

namespace OpenSer.Parser

open Nat

/-! ## Keys -/

/-- A number that is made of four ASCII characters. -/
def IsAscii (key : Nat) : Prop :=
  key < 2 ^ 32 ∧ key % 256 < 128 ∧ key / 256 % 256 < 128 ∧ key / 256 / 256 % 256 < 128 ∧ key / 256 / 256 / 256 < 128

instance (key : Nat) : Decidable (IsAscii key) := inferInstanceAs (Decidable (_ ∧ _))

structure Key where
  val : Nat
  isAscii : IsAscii val := by decide
  deriving DecidableEq

def Key.via1 : Key := { val := 0x3a616976 }
def Key.from_ : Key := { val := 0x6d6f7266 }
def Key.to12 : Key := { val := 0x203a6f74 }
def Key.cseq : Key := { val := 0x71657363 }
def Key.call : Key := { val := 0x6c6c6163 }
def Key.cont : Key := { val := 0x746e6f63 }
def Key.rout : Key := { val := 0x74756f72 }
def Key.max : Key := { val := 0x2d78616d }
def Key.reco : Key := { val := 0x6f636572 }
def Key.via2 : Key := { val := 0x20616976 }
def Key.auth : Key := { val := 0x68747561 }
def Key.supp : Key := { val := 0x70707573 }
def Key.expi : Key := { val := 0x69707865 }
def Key.prox : Key := { val := 0x786f7270 }
def Key.allo : Key := { val := 0x6f6c6c61 }
def Key.path : Key := { val := 0x68746170 }
def Key.unsu : Key := { val := 0x75736e75 }
def Key.even : Key := { val := 0x6e657665 }
def Key.acce : Key := { val := 0x65636361 }
def Key.orga : Key := { val := 0x6167726f }
def Key.prio : Key := { val := 0x6f697270 }
def Key.subj : Key := { val := 0x6a627573 }
def Key.user : Key := { val := 0x72657375 }
def Key.dive : Key := { val := 0x65766964 }
def Key.remo : Key := { val := 0x6f6d6572 }
def Key.refe : Key := { val := 0x65666572 }
def Key.sess : Key := { val := 0x73736573 }
def Key.min : Key := { val := 0x2d6e696d }
def Key.pPr : Key := { val := 0x72702d70 }
def Key.pAs : Key := { val := 0x73612d70 }
def Key.priv : Key := { val := 0x76697270 }
def Key.retr : Key := { val := 0x72746572 }
def Key.age1 : Key := { val := 0x3a656761 }
def Key.age2 : Key := { val := 0x20656761 }
def Key.angu : Key := { val := 0x75676e61 }
def Key.siti : Key := { val := 0x69746973 }
def Key.ispo : Key := { val := 0x6f707369 }
def Key.ptL : Key := { val := 0x6c2d7470 }
def Key.ptD : Key := { val := 0x64617470 }
def Key.atio : Key := { val := 0x6f697461 }
def Key.oriz : Key := { val := 0x7a69726f }
def Key.id1 : Key := { val := 0x3a64692d }
def Key.id2 : Key := { val := 0x2064692d }
def Key.th12 : Key := { val := 0x203a6874 }
def Key.ion1 : Key := { val := 0x3a6e6f69 }
def Key.ion : Key := { val := 0x2d6e6f69 }
def Key.ion2 : Key := { val := 0x206e6f69 }
def Key.osit : Key := { val := 0x7469736f }
def Key.leng : Key := { val := 0x676e656c }
def Key.type : Key := { val := 0x65707974 }
def Key.disp : Key := { val := 0x70736964 }
def Key.act1 : Key := { val := 0x3a746361 }
def Key.act2 : Key := { val := 0x20746361 }
def Key.ent : Key := { val := 0x2d746e65 }
def Key.rsio : Key := { val := 0x6f697372 }
def Key.res1 : Key := { val := 0x3a736572 }
def Key.res2 : Key := { val := 0x20736572 }
def Key.ards : Key := { val := 0x73647261 }
def Key.forw : Key := { val := 0x77726f66 }
def Key.tion : Key := { val := 0x6e6f6974 }
def Key.niza : Key := { val := 0x617a696e }
def Key.ity1 : Key := { val := 0x3a797469 }
def Key.ity2 : Key := { val := 0x20797469 }
def Key.dent : Key := { val := 0x746e6564 }
def Key.edI : Key := { val := 0x692d6465 }
def Key.sert : Key := { val := 0x74726573 }
def Key.tity : Key := { val := 0x79746974 }
def Key.iden : Key := { val := 0x6e656469 }
def Key.red : Key := { val := 0x2d646572 }
def Key.efer : Key := { val := 0x72656665 }
def Key.rity : Key := { val := 0x79746972 }
def Key.acy1 : Key := { val := 0x3a796361 }
def Key.acy2 : Key := { val := 0x20796361 }
def Key.izat : Key := { val := 0x74617a69 }
def Key.thor : Key := { val := 0x726f6874 }
def Key.quir : Key := { val := 0x72697571 }
def Key.yAu : Key := { val := 0x75612d79 }
def Key.yRe : Key := { val := 0x65722d79 }
def Key.oute : Key := { val := 0x6574756f }
def Key.rdR : Key := { val := 0x722d6472 }
def Key.rTo : Key := { val := 0x6f742d72 }
def Key.arty : Key := { val := 0x79747261 }
def Key.teP : Key := { val := 0x702d6574 }
def Key.ter1 : Key := { val := 0x3a726574 }
def Key.ter2 : Key := { val := 0x20726574 }
def Key.yAf : Key := { val := 0x66612d79 }
def Key.ect1 : Key := { val := 0x3a746365 }
def Key.ect2 : Key := { val := 0x20746365 }
def Key.orte : Key := { val := 0x6574726f }
def Key.ted1 : Key := { val := 0x3a646574 }
def Key.ted2 : Key := { val := 0x20646574 }
def Key.ppor : Key := { val := 0x726f7070 }
def Key.age : Key := { val := 0x6567612d }

/-! ## Reading -/

def lowerByte (b : UInt8) : UInt8 := b ||| 0x20

def lowerDword (d : Nat) : Nat := d ||| 0x20202020

def charVal (b : UInt8) : Int := if b.toNat < 128 then b.toNat else b.toNat - 256

/-- `READ`: the number at a position, kept in an `unsigned int`. -/
def read (m : Nat → UInt8) (p : Nat) : Nat :=
  ((charVal (m p) + charVal (m (p + 1)) * 2 ^ 8 + charVal (m (p + 2)) * 2 ^ 16 + charVal (m (p + 3)) * 2 ^ 24) %
    2 ^ 32).toNat

def Key.bytes (key : Key) : List UInt8 :=
  [key.val % 256, key.val / 256 % 256, key.val / 256 / 256 % 256, key.val / 256 / 256 / 256].map Nat.toUInt8

theorem or_eq_iff (v c k : Nat) : v ||| c = k ↔ v % 256 ||| c % 256 = k % 256 ∧ v / 256 ||| c / 256 = k / 256 := by
  have hmod : (v ||| c) % 256 = v % 256 ||| c % 256 := or_mod_two_pow (n := 8)
  have hdiv : (v ||| c) / 256 = v / 256 ||| c / 256 := or_div_two_pow (n := 8)
  rw [← hmod, ← hdiv]
  constructor
  · rintro rfl
    exact ⟨rfl, rfl⟩
  · omega

theorem toNat_emod_byte (b : UInt8) (r : Int) (n : Nat) :
    ((charVal b + 256 * r) % (256 * 2 ^ n)).toNat % 256 = b.toNat := by
  have hpos : (0 : Int) < 256 * 2 ^ n := by positivity
  have hnn := Int.emod_nonneg (charVal b + 256 * r) hpos.ne'
  have hmod : (charVal b + 256 * r) % (256 * 2 ^ n) % 256 = (charVal b + 256 * r) % 256 :=
    Int.emod_emod_of_dvd _ (Dvd.intro _ rfl)
  have hb : charVal b % 256 = b.toNat := by
    have := b.toNat_lt
    unfold charVal
    split <;> omega
  omega

variable {b : UInt8}

theorem toNat_ediv_byte (hb : b.toNat < 128) (r : Int) (n : Nat) :
    ((charVal b + 256 * r) % (256 * 2 ^ n)).toNat / 256 = (r % 2 ^ n).toNat := by
  have hsplit : charVal b + 256 * r = (charVal b + 256 * (r % 2 ^ n)) + 256 * 2 ^ n * (r / 2 ^ n) := by
    have := Int.emod_add_mul_ediv r (2 ^ n)
    linarith
  have hval : charVal b = b.toNat := if_pos hb
  rw [hsplit, Int.add_mul_emod_self_left, Int.emod_eq_of_lt (by omega) (by omega)]
  omega

theorem byte_or_iff {r : Int} {n c k : Nat} (hk : k % 256 < 128) :
    ((charVal b + 256 * r) % (256 * 2 ^ n)).toNat ||| (32 + 256 * c) = k ↔
      b.toNat ||| 32 = k % 256 ∧ (r % 2 ^ n).toNat ||| c = k / 256 := by
  have hc1 : (32 + 256 * c) % 256 = 32 := by omega
  have hc2 : (32 + 256 * c) / 256 = c := by omega
  rw [or_eq_iff, toNat_emod_byte, hc1, hc2]
  refine and_congr_right fun h => ?_
  have hb : b.toNat < 128 := lt_of_le_of_lt (h ▸ left_le_or) hk
  rw [toNat_ediv_byte hb]

theorem lowerByte_eq_iff {k : Nat} (hk : k < 256) : b.toNat ||| 32 = k ↔ lowerByte b = k.toUInt8 := by
  rw [← UInt8.toNat_inj]
  have : k.toUInt8.toNat = k := by simp [mod_eq_of_lt hk]
  rw [this]
  rfl

/-- **A key is read where each byte, with the bit 0x20 set, is the byte of the key.** -/
theorem read_lower_iff (m : Nat → UInt8) (p : Nat) (key : Key) :
    lowerDword (read m p) = key.val ↔ [m p, m (p + 1), m (p + 2), m (p + 3)].map lowerByte = key.bytes := by
  obtain ⟨k, hk, h0, h1, h2, h3⟩ := key
  have hread : read m p = ((charVal (m p) + 256 * (charVal (m (p + 1)) + 256 * (charVal (m (p + 2)) +
      256 * (charVal (m (p + 3)) + 256 * 0)))) % (256 * 2 ^ 24)).toNat := by
    rw [read]
    ring
  have hones : 0x20202020 = 32 + 256 * (32 + 256 * (32 + 256 * (32 + 256 * 0))) := rfl
  have hsize : ∀ n, (2 : Int) ^ (n + 8) = 256 * 2 ^ n := by
    intro n
    ring
  rw [lowerDword, hread, hones, byte_or_iff h0, hsize 16, byte_or_iff h1, hsize 8, byte_or_iff h2, hsize 0,
    byte_or_iff (by omega)]
  rw [lowerByte_eq_iff (by omega), lowerByte_eq_iff (by omega), lowerByte_eq_iff (by omega),
    lowerByte_eq_iff (by omega)]
  have hlast : k / 256 / 256 / 256 % 256 = k / 256 / 256 / 256 := by omega
  have hrest : ((0 : Int) % 2 ^ 0).toNat ||| 0 = k / 256 / 256 / 256 / 256 := by
    rw [div_eq_of_lt (by omega : k / 256 / 256 / 256 < 256)]
    rfl
  simp only [Key.bytes, List.map_cons, List.map_nil, List.cons.injEq, hlast, hrest]

end OpenSer.Parser
