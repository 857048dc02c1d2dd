import Mathlib.Data.List.DropRight
import Mathlib.Tactic

/-!
# Replacing and restoring From

`uac/from.c`: the old and the new URI go into a Record-Route parameter, the one XOR the other, under a password and in a
base64 that fills up with `-`. A request of the dialog brings the parameter back; from it and the one URI comes the
other one.

* `decodeFrom_encodeFrom`: what is encoded is decoded.
* `restoreUri_mixed`: from both URIs mixed and the one comes the other, with its length.
* `from_restored`: what `restore_from` makes of the parameter that `replace_from` has built.
-/

namespace OpenSer.UacFrom

open List Option

/-! ## The parameter -/

def maxUriSize : Nat := 1024

def encTable64 : List UInt8 :=
  "ABCDEFGHIJKLMNOPQRSTUVWXYZabcdefghijklmnopqrstuvwxyz0123456789+/".toList.map Char.toUInt8

/-- `dec_table64` as `init_from_replacer` fills it; `none` is -1. -/
def decTable64 (c : UInt8) : Option Nat := encTable64.idxOf? c

def text3B64Len (l : Nat) : Nat := (l + 2) / 3 * 4

/-- `enc_table64[(block >> r) & 0x3f]`. -/
def encDigit (block r : Nat) : UInt8 := encTable64.getD (block / 2 ^ r % 64) 0

def encBlock (a b c : UInt8) : List UInt8 :=
  [18, 12, 6, 0].map (encDigit (a.toNat * 2 ^ 16 + b.toNat * 2 ^ 8 + c.toNat))

def pad : UInt8 := '-'.toUInt8

/-- The loop of `encode_from`: up to three bytes a turn. -/
def encodeLoop : List UInt8 → List UInt8
  | [] => []
  | [a] => (encBlock a 0 0).take 2 ++ [pad, pad]
  | [a, b] => (encBlock a b 0).take 3 ++ [pad]
  | a :: b :: c :: src => encBlock a b c ++ encodeLoop src

def encodeFrom (src : List UInt8) : Option (List UInt8) :=
  if text3B64Len src.length > text3B64Len maxUriSize then none else some (encodeLoop src)

/-- The block of up to four characters, the first one shifted by `r`. -/
def decBlock : Nat → List UInt8 → Option Nat
  | _, [] => some 0
  | r, c :: cs => do return (← decTable64 c) * 2 ^ r + (← decBlock (r - 6) cs)

/-- The bytes of a block, as far as they are within the length. -/
def decBytes (left block : Nat) : List UInt8 :=
  ([16, 8, 0].map fun n => UInt8.ofNat (block / 2 ^ n)).take left

/-- The loop of `decode_from`: up to four characters a turn, with `left` bytes of the result to come. -/
def decodeLoop : List UInt8 → Nat → Option (List UInt8)
  | [], _ => some []
  | c₀ :: c₁ :: c₂ :: c₃ :: src, left => do
    return decBytes left (← decBlock 18 [c₀, c₁, c₂, c₃]) ++ (← decodeLoop src (left - 3))
  | src, left => (decBlock 18 src).map (decBytes left)

def decodeFrom (src : List UInt8) : Option (List UInt8) :=
  let n := (src.reverse.takeWhile (· == pad)).length
  let len := src.length * 6 / 8 - n
  if len > maxUriSize then none else decodeLoop (src.take (src.length - n)) len

def xorKey (key : Nat → UInt8) (buf : List UInt8) : List UInt8 := buf.mapIdx fun i b => b ^^^ key i

/-- `buf.s[i] ^= uri.s[i]`, for the length of `uri`; the bytes behind it stay. -/
def xorUri (buf uri : List UInt8) : List UInt8 := xorKey (uri.getD · 0) buf

def xorPasswd (passwd buf : List UInt8) : List UInt8 :=
  if passwd = [] then buf else xorKey (fun i => passwd.getD (i % passwd.length) 0) buf

/-- Both URIs in one, as long as the longer one. -/
def mixUris (uri fromUri : List UInt8) : Option (List UInt8) :=
  if uri.length > fromUri.length then if uri.length > maxUriSize then none else some (xorUri uri fromUri)
  else if fromUri.length > maxUriSize then none else some (xorUri fromUri uri)

/-- `replace_from`: the value of the Record-Route parameter, for From `uri` and the replacement `fromUri`. -/
def replaceFrom (passwd uri fromUri : List UInt8) : Option (List UInt8) :=
  (mixUris uri fromUri).bind fun buf => encodeFrom (xorPasswd passwd buf)

/-- The new URI from what was decoded and the old one. -/
def restoreUri (decoded oldUri : List UInt8) : Option (List UInt8) :=
  if decoded.length < oldUri.length then none
  else if decoded.length ≠ oldUri.length then some (xorUri decoded oldUri)
  else
    let newUri := (xorUri decoded oldUri).rdropWhile (· == 0)
    if newUri = [] then none else some newUri

/-- `restore_from`, for a request with the parameter value: the URI that replaces the one of To (upstream) or From. -/
def restoreFrom (passwd paramVal : List UInt8) (upstream : Bool) (fromUri toUri : List UInt8) : Option (List UInt8) :=
  (decodeFrom paramVal).bind fun newUri => restoreUri (xorPasswd passwd newUri) (if upstream then toUri else fromUri)

/-! ## The encoding -/

theorem decTable64_encDigit (block r : Nat) : decTable64 (encDigit block r) = some (block / 2 ^ r % 64) := by
  have hall : ∀ k < 64, decTable64 (encTable64.getD k 0) = some k := by decide +kernel
  exact hall _ (Nat.mod_lt _ (by decide))

theorem encDigit_ne_pad (block r : Nat) : encDigit block r ≠ pad := by
  have hall : ∀ k < 64, encTable64.getD k 0 ≠ pad := by decide +kernel
  exact hall _ (Nat.mod_lt _ (by decide))

/-- The characters of a block give its bytes back. Those that are zero may be left out. -/
theorem decBlock_encBlock (a b c : UInt8) (left : Nat) :
    (decBlock 18 (encBlock a b c)).map (decBytes left) = some ([a, b, c].take left) ∧
    (decBlock 18 ((encBlock a b 0).take 3)).map (decBytes left) = some ([a, b, 0].take left) ∧
    (decBlock 18 ((encBlock a 0 0).take 2)).map (decBytes left) = some ([a, 0, 0].take left) := by
  have ha := a.toNat_lt
  have hb := b.toNat_lt
  have hc := c.toNat_lt
  have hbyte : ∀ (n : Nat) (x : UInt8), n % 256 = x.toNat → UInt8.ofNat n = x := by
    intro n x h
    rw [← UInt8.toNat_inj, UInt8.toNat_ofNat', h]
  have hzero : (0 : UInt8).toNat = 0 := rfl
  simp only [encBlock, map_cons, map_nil, take_succ_cons, take_zero, decBlock, decTable64_encDigit, Option.bind_eq_bind,
    Option.bind_some, Option.pure_def, Option.map_some, decBytes]
  refine ⟨?_, ?_, ?_⟩
  · rw [hbyte _ a (by omega), hbyte _ b (by omega), hbyte _ c (by omega)]
  · rw [hbyte _ a (by omega), hbyte _ b (by omega), hbyte _ 0 (by omega)]
  · rw [hbyte _ a (by omega), hbyte _ 0 (by omega), hbyte _ 0 (by omega)]

theorem encodeLoop_spec : ∀ src : List UInt8, ∃ cs n k, encodeLoop src = cs ++ replicate n pad ∧
    (∀ c ∈ cs, c ≠ pad) ∧ cs.length + n = 4 * k ∧ src.length + n = 3 * k ∧ decodeLoop cs src.length = some src
  | [] => ⟨[], 0, 0, rfl, by simp, rfl, rfl, rfl⟩
  | [a] => by
    refine ⟨(encBlock a 0 0).take 2, 2, 1, rfl, ?_, rfl, rfl, (decBlock_encBlock a 0 0 1).2.2⟩
    simp [encBlock, encDigit_ne_pad]
  | [a, b] => by
    refine ⟨(encBlock a b 0).take 3, 1, 1, rfl, ?_, rfl, rfl, (decBlock_encBlock a b 0 2).2.1⟩
    simp [encBlock, encDigit_ne_pad]
  | a :: b :: c :: src => by
    obtain ⟨cs, n, k, henc, hpad, hcs, hsrc, hdec⟩ := encodeLoop_spec src
    obtain ⟨block, hblock, hbytes⟩ := map_eq_some_iff.mp (decBlock_encBlock a b c (src.length + 3)).1
    refine ⟨encBlock a b c ++ cs, n, k + 1, ?_, ?_, ?_, ?_, ?_⟩
    · rw [encodeLoop, henc, append_assoc]
    · exact forall_mem_append.mpr ⟨forall_mem_map.mpr fun r _ => encDigit_ne_pad _ r, hpad⟩
    · simp only [encBlock, length_append, length_map, length_cons, length_nil]
      omega
    · simp only [length_cons]
      omega
    · show (do return decBytes (src.length + 3) (← decBlock 18 (encBlock a b c)) ++ (← decodeLoop cs src.length)) = _
      rw [hblock, hdec, bind_eq_bind, bind_some, hbytes, take_of_length_le (by simp)]
      rfl

theorem decodeFrom_encodeFrom {src : List UInt8} (hsrc : src.length ≤ maxUriSize) :
    (encodeFrom src).bind decodeFrom = some src := by
  obtain ⟨cs, n, k, henc, hpad, hcs, hlen, hdec⟩ := encodeLoop_spec src
  have hfits : ¬text3B64Len src.length > text3B64Len maxUriSize := by
    unfold text3B64Len
    omega
  have hn : ((encodeLoop src).reverse.takeWhile (· == pad)).length = n := by
    have hnil : cs.reverse.takeWhile (· == pad) = [] := by
      cases hrev : cs.reverse with
      | nil => rfl
      | cons c l => rw [takeWhile_cons_of_neg (by simpa using hpad c (mem_reverse.mp (by simp [hrev])))]
    rw [henc, reverse_append, reverse_replicate, takeWhile_append_of_pos (by simp), hnil, append_nil, length_replicate]
  rw [encodeFrom, if_neg hfits, bind_some, decodeFrom, hn, henc, length_append, length_replicate, Nat.add_sub_cancel,
    take_left, show (cs.length + n) * 6 / 8 - n = src.length by omega, if_neg (by omega)]
  exact hdec

/-! ## The URIs -/

variable {f g : List UInt8}

@[simp] theorem length_xorKey (key : Nat → UInt8) (buf : List UInt8) :
    (xorKey key buf).length = buf.length := length_mapIdx

theorem xorKey_xorKey (key : Nat → UInt8) (buf : List UInt8) : xorKey key (xorKey key buf) = buf := by
  refine ext_getElem (by simp) fun i _ _ => ?_
  simp [xorKey, UInt8.xor_assoc]

/-- The longer URI taken out again leaves the shorter one and zeros. -/
theorem xorUri_self (hlen : g.length ≤ f.length) : xorUri (xorUri f g) f = g ++ replicate (f.length - g.length) 0 := by
  refine ext_getElem (by simp [xorUri, hlen]) fun i h₁ h₂ => ?_
  have hi : i < f.length := by simpa [xorUri] using h₁
  have hxor : ∀ b c : UInt8, b ^^^ c ^^^ b = c := by
    intro b c
    rw [UInt8.xor_comm b c, UInt8.xor_assoc, UInt8.xor_self, UInt8.xor_zero]
  have hpadded : (g ++ replicate (f.length - g.length) 0)[i] = g[i]?.getD 0 := by
    by_cases hg : i < g.length <;> simp [getElem_append, hg]
  simp [xorUri, xorKey, hi, hxor, hpadded]

theorem rdropWhile_zeros (hg : 0 ∉ g) (n : Nat) : (g ++ replicate n 0).rdropWhile (· == 0) = g := by
  induction n with
  | zero =>
    rw [replicate_zero, append_nil, rdropWhile_eq_self_iff]
    intro hne hlast
    exact hg (beq_iff_eq.mp hlast ▸ getLast_mem hne)
  | succ n ih => rw [replicate_succ', ← append_assoc, rdropWhile_concat_pos _ _ _ rfl, ih]

/-- **From both URIs mixed and the one comes the other, with its length.** -/
theorem restoreUri_mixed (hlen : g.length ≤ f.length) (hg : 0 ∉ g) (hf : 0 ∉ f) (hgne : g ≠ []) (hfne : f ≠ []) :
    restoreUri (xorUri f g) f = some g ∧ restoreUri (xorUri f g) g = some f := by
  have hzeros := rdropWhile_zeros hf 0
  rw [replicate_zero, append_nil] at hzeros
  constructor
  · simp only [restoreUri, xorUri_self hlen, rdropWhile_zeros hg, if_neg hgne]
    simp [xorUri]
  · have hback : xorUri (xorUri f g) g = f := xorKey_xorKey _ f
    simp only [restoreUri, hback, hzeros, if_neg hfne, ite_self]
    simp [xorUri, hlen]

/-- **What `restore_from` makes of the parameter that `replace_from` has built**: in a request of the same direction,
From `f` becomes `g`; in one of the opposite direction, To `g` becomes `f`. -/
theorem from_restored (passwd : List UInt8) (hf : f ≠ [] ∧ 0 ∉ f ∧ f.length ≤ maxUriSize)
    (hg : g ≠ [] ∧ 0 ∉ g ∧ g.length ≤ maxUriSize) : ∃ paramVal, replaceFrom passwd f g = some paramVal ∧
      (∀ toUri, restoreFrom passwd paramVal false f toUri = some g) ∧
      ∀ fromUri, restoreFrom passwd paramVal true fromUri g = some f := by
  obtain ⟨hf, hf0, hfmax⟩ := hf
  obtain ⟨hg, hg0, hgmax⟩ := hg
  -- both URIs mixed, and what comes out of that
  obtain ⟨buf, hmix, hbuf, hsame, hopposite⟩ : ∃ buf, mixUris f g = some buf ∧ buf.length ≤ maxUriSize ∧
      restoreUri buf f = some g ∧ restoreUri buf g = some f := by
    unfold mixUris
    by_cases hlen : f.length > g.length
    · rw [if_pos hlen, if_neg (not_lt.mpr hfmax)]
      exact ⟨_, rfl, (length_xorKey _ f).trans_le hfmax, restoreUri_mixed hlen.le hg0 hf0 hg hf⟩
    · rw [if_neg hlen, if_neg (not_lt.mpr hgmax)]
      exact ⟨_, rfl, (length_xorKey _ g).trans_le hgmax, (restoreUri_mixed (not_lt.mp hlen) hf0 hg0 hf hg).symm⟩
  have hpasswd : xorPasswd passwd (xorPasswd passwd buf) = buf ∧ (xorPasswd passwd buf).length = buf.length := by
    unfold xorPasswd
    split
    · exact ⟨rfl, rfl⟩
    · exact ⟨xorKey_xorKey _ buf, length_xorKey _ buf⟩
  obtain ⟨paramVal, henc, hdec⟩ := bind_eq_some_iff.mp (decodeFrom_encodeFrom (hpasswd.2.trans_le hbuf))
  refine ⟨paramVal, ?_, fun toUri => ?_, fun fromUri => ?_⟩
  · rw [replaceFrom, hmix, bind_some, henc]
  · rw [restoreFrom, hdec, bind_some, hpasswd.1]
    exact hsame
  · rw [restoreFrom, hdec, bind_some, hpasswd.1]
    exact hopposite

/-- A longer replacement, under a password. -/
theorem from_restored_longer : ∃ paramVal, replaceFrom [7, 9] [97, 98] [99, 100, 101] = some paramVal ∧
    (∀ toUri, restoreFrom [7, 9] paramVal false [97, 98] toUri = some [99, 100, 101]) ∧
    ∀ fromUri, restoreFrom [7, 9] paramVal true fromUri [99, 100, 101] = some [97, 98] :=
  from_restored [7, 9] (by decide) (by decide)

end OpenSer.UacFrom
