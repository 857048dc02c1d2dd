import Mathlib
import OpenSer.Ut

/-!
# Escaping in the user part of a URI

`escape_user` and `unescape_user` of `strcommon.c`, and `un_escape` of `ut.h`. A `char` is signed; the bytes that lie in
memory behind a string are a parameter of `unescape_user`, because it looks at up to two of them.

* `unescapeUser_escapeUser`: the round trip.
* `unescapeUser_tail_iff`: which strings are decoded from their own bytes alone.
* `unescapeUser_agrees`: the two decoders agree where both accept.
-/

namespace OpenSer

open Option Nat

/-! ## The functions -/

def hex2int (hexDigit' : Char) : Int :=
  match hexDigit hexDigit' with
  | some d => d
  | none => -1

/-- The two switches of `unescape_user` and the range check: the character of an escape sequence. -/
def unescapeChar (hi lo : Char) : Option Char := do
  -- `c` is a `char`: it is signed, and the shift loses what does not fit
  let c := BitVec.ofNat 8 ((← hexDigit hi) <<< 4)
  let c := c + BitVec.ofNat 8 (← hexDigit lo)
  if c.toInt < 32 ∨ c.toInt > 126 then none else some (Char.ofNat c.toNat)

/-- The loop of `unescape_user` over the bytes of the string; `tail` are the bytes behind it. -/
def unescapeUserLoop (tail : Nat → Char) : Str → Option Str
  | [] => some []
  | p :: s =>
    if p = '%' then
      match s with
      | hi :: lo :: s => do
        let c ← unescapeChar hi lo
        let rest ← unescapeUserLoop tail s
        some (c :: rest)
      -- `p` runs over the end of the string
      | [hi] => (unescapeChar hi (tail 0)).map fun c => [c]
      | [] => (unescapeChar (tail 0) (tail 1)).map fun c => [c]
    else (unescapeUserLoop tail s).map (p :: ·)

/-- `unescape_user`, into a buffer of `soutLen` bytes: `none` when it returns -1. -/
def unescapeUser (sin : Str) (tail : Nat → Char) (soutLen : Nat) : Option Str :=
  if soutLen < sin.length + 1 then none else unescapeUserLoop tail sin

/-- The characters that `escape_user` copies. -/
def copied (p : Char) : Bool :=
  p.isDigit ∨ ('A' ≤ p ∧ p ≤ 'Z') ∨ ('a' ≤ p ∧ p ≤ 'z') ∨
    p ∈ ['-', '_', '.', '!', '~', '*', '\'', '(', ')', '&', '=', '+', '$', ',', ';', '?']

def escapeUserLoop : Str → Option Str
  | [] => some []
  | p :: s =>
    if p.toNat < 32 ∨ p.toNat > 126 then none
    else
      let at' := if copied p then [p] else ['%', hexChar (p.toNat >>> 4), hexChar (p.toNat &&& 0x0f)]
      (escapeUserLoop s).map (at' ++ ·)

/-- `escape_user`, into a buffer of `soutLen` bytes: `none` when it returns -1. -/
def escapeUser (sin : Str) (soutLen : Nat) : Option Str :=
  if soutLen < 3 * sin.length + 1 then none else escapeUserLoop sin

def unEscapeLoop : Str → Option Str
  | [] => some []
  | c :: s =>
    if c = '%' then
      match s with
      | hi :: lo :: s =>
        if hex2int hi < 0 then none
        else if hex2int lo < 0 then none
        else
          let value := hex2int hi <<< (4 : Nat) + hex2int lo
          if value < 32 ∨ value > 126 then none
          else (unEscapeLoop s).map (Char.ofNat value.toNat :: ·)
      -- "escape sequence too short"
      | _ => none
    else (unEscapeLoop s).map (c :: ·)

/-- `un_escape`: the unescaped string, `none` when it returns -1. -/
def unEscape (user : Str) : Option Str := unEscapeLoop user

/-! ## Escape sequences -/

variable {c : Char}

theorem hexDigit_lt {d : Nat} (h : hexDigit c = some d) : d < 16 := by
  have hrange : ∀ {a b : Char}, a ≤ c ∧ c ≤ b → a.toNat ≤ c.toNat ∧ c.toNat ≤ b.toNat := fun hab => hab
  unfold hexDigit at h
  split_ifs at h with hc hc hc
  all_goals
    obtain ⟨h1, h2⟩ := hrange hc
    cases h
    simp only [Char.reduceToNat] at h1 h2 ⊢
    omega

theorem unescapeChar_digits : ∀ h < 16, ∀ l < 16,
    (((BitVec.ofNat 8 (h <<< 4) + BitVec.ofNat 8 l).toInt < 32 ∨
      (BitVec.ofNat 8 (h <<< 4) + BitVec.ofNat 8 l).toInt > 126) ↔ h * 16 + l < 32 ∨ h * 16 + l > 126) ∧
    (h * 16 + l < 127 → (BitVec.ofNat 8 (h <<< 4) + BitVec.ofNat 8 l).toNat = h * 16 + l) := by
  decide

variable {hi lo : Char}

/-- **An escape sequence** is decoded to its value, which must be printable. -/
theorem unescapeChar_eq {h l : Nat} (hh : hexDigit hi = some h) (hl : hexDigit lo = some l) :
    unescapeChar hi lo = if h * 16 + l < 32 ∨ h * 16 + l > 126 then none else some (Char.ofNat (h * 16 + l)) := by
  obtain ⟨hrange, hval⟩ := unescapeChar_digits h (hexDigit_lt hh) l (hexDigit_lt hl)
  unfold unescapeChar
  rw [hh, hl, bind_eq_bind, bind_some]
  rw [bind_some]
  by_cases hout : h * 16 + l < 32 ∨ h * 16 + l > 126
  · rw [if_pos (hrange.mpr hout), if_pos hout]
  · rw [if_neg (mt hrange.mp hout), if_neg hout, hval (by omega)]

theorem unescapeChar_none_left (lo : Char) (hh : hexDigit hi = none) : unescapeChar hi lo = none := by
  unfold unescapeChar
  rw [hh]
  rfl

theorem unescapeChar_none_right (hi : Char) (hl : hexDigit lo = none) : unescapeChar hi lo = none := by
  unfold unescapeChar
  rw [hl]
  cases hexDigit hi <;> rfl

variable {p : Char}

theorem unescapeUserLoop_plain (hp : p ≠ '%') (tail : Nat → Char) (s : Str) :
    unescapeUserLoop tail (p :: s) = (unescapeUserLoop tail s).map (p :: ·) := by
  rw [unescapeUserLoop.eq_def]
  exact if_neg hp

theorem unescapeUserLoop_triplet (tail : Nat → Char) (hi lo : Char) (s : Str) :
    unescapeUserLoop tail ('%' :: hi :: lo :: s) =
      (unescapeChar hi lo).bind fun c => (unescapeUserLoop tail s).map (c :: ·) := by
  simp only [map_eq_bind]
  rfl

/-! ## The round trip -/

/-- The characters that need no escape in a user part: `unreserved` and `user-unreserved`. -/
def userChar (c : Char) : Bool :=
  c.isAlphanum ∨ c ∈ ['-', '_', '.', '!', '~', '*', '\'', '(', ')'] ∨ c ∈ ['&', '=', '+', '$', ',', ';', '?', '/']

/-- A text of such characters and of escape sequences. -/
inductive EscapedUser : Str → Prop where
  | nil : EscapedUser []
  | plain {c : Char} {s : Str} (hc : userChar c = true) (hs : EscapedUser s) : EscapedUser (c :: s)
  | triplet {hi lo : Char} {s : Str} (hhi : (hexDigit hi).isSome) (hlo : (hexDigit lo).isSome) (hs : EscapedUser s) :
    EscapedUser ('%' :: hi :: lo :: s)

def Printable (u : Str) : Prop := ∀ c ∈ u, 32 ≤ c.toNat ∧ c.toNat ≤ 126

theorem copied_ne_percent (h : copied p = true) : p ≠ '%' := by
  rintro rfl
  revert h
  decide

theorem copied_userChar (h : copied p = true) : userChar p = true := by
  simp only [copied, userChar, List.mem_cons, List.not_mem_nil, or_false, decide_eq_true_eq] at h ⊢
  rcases h with h | h | h | h
  · exact .inl (by simp [Char.isAlphanum, h])
  · have hup : p.isUpper = true := by
      simp only [Char.isUpper, decide_eq_true_eq]
      exact h
    exact .inl (by simp [Char.isAlphanum, Char.isAlpha, hup])
  · have hlow : p.isLower = true := by
      simp only [Char.isLower, Bool.and_eq_true, decide_eq_true_eq]
      exact h
    exact .inl (by simp [Char.isAlphanum, Char.isAlpha, hlow])
  · tauto

/-- A printable character is written as an escape sequence that is read back. -/
theorem unescapeChar_hexChar (h1 : 32 ≤ p.toNat) (h2 : p.toNat ≤ 126) :
    unescapeChar (hexChar (p.toNat >>> 4)) (hexChar (p.toNat &&& 0x0f)) = some p := by
  have hhi : p.toNat >>> 4 = p.toNat / 16 := shiftRight_eq_div_pow ..
  have hlo : p.toNat &&& 0x0f = p.toNat % 16 := and_two_pow_sub_one_eq_mod p.toNat 4
  rw [hhi, hlo, unescapeChar_eq (hexDigit_hexChar _ (by omega)) (hexDigit_hexChar _ (by omega)), if_neg (by omega),
    div_add_mod', Char.ofNat_toNat]

/-- A printable string is escaped and read back. -/
theorem escapeUserLoop_ok (u : Str) (hu : Printable u) :
    ∃ e, escapeUserLoop u = some e ∧ EscapedUser e ∧ ∀ tail, unescapeUserLoop tail e = some u := by
  induction u with
  | nil => exact ⟨[], rfl, .nil, fun _ => rfl⟩
  | cons p u ih =>
    obtain ⟨e, he, hesc, hback⟩ := ih fun c hc => hu c (by simp [hc])
    obtain ⟨h1, h2⟩ := hu p (by simp)
    unfold escapeUserLoop
    rw [if_neg (by omega), he]
    by_cases hp : copied p = true
    · simp only [if_pos hp, map_some]
      refine ⟨p :: e, rfl, .plain (copied_userChar hp) hesc, fun tail => ?_⟩
      rw [unescapeUserLoop_plain (copied_ne_percent hp), hback, map_some]
    · simp only [if_neg hp, map_some]
      have hhi : p.toNat >>> 4 < 16 := by
        omega
      have hlo : p.toNat &&& 0x0f < 16 := by
        rw [and_two_pow_sub_one_eq_mod p.toNat 4]
        omega
      refine ⟨'%' :: hexChar (p.toNat >>> 4) :: hexChar (p.toNat &&& 0x0f) :: e, rfl, ?_, fun tail => ?_⟩
      · apply EscapedUser.triplet _ _ hesc
        · rw [hexDigit_hexChar _ hhi]
          rfl
        · rw [hexDigit_hexChar _ hlo]
          rfl
      · rw [unescapeUserLoop_triplet, unescapeChar_hexChar h1 h2, bind_some, hback, map_some]

/-! ## Behind the end -/

/-- The decoder gets to an escape sequence that the end of the string cuts off and that the bytes behind may complete: a
`%`, or a `%` and a first digit of a printable character. -/
def cutOff : Str → Bool
  | [] => false
  | p :: s =>
    if p = '%' then
      match s with
      | hi :: lo :: s => (unescapeChar hi lo).isSome && cutOff s
      | [hi] => (hexDigit hi).any fun h => 2 ≤ h ∧ h ≤ 7
      | [] => true
    else cutOff s

theorem unescapeChar_first (h : ((hexDigit hi).any fun h => 2 ≤ h ∧ h ≤ 7) = false) (lo : Char) :
    unescapeChar hi lo = none := by
  cases hh : hexDigit hi with
  | none => exact unescapeChar_none_left lo hh
  | some d =>
    cases hl : hexDigit lo with
    | none => exact unescapeChar_none_right hi hl
    | some l =>
      have hlt := hexDigit_lt hl
      rw [hh] at h
      simp only [any_some, decide_eq_false_iff_not] at h
      rw [unescapeChar_eq hh hl, if_pos (by omega)]

theorem map_cons_inj (c : Char) (a b : Option Str) : a.map (c :: ·) = b.map (c :: ·) ↔ a = b :=
  (map_injective List.cons_injective).eq_iff

/-- The result depends on the bytes behind the string exactly if the string is cut off. -/
theorem unescapeUserLoop_tail_iff (s : Str) :
    (∀ tail tail', unescapeUserLoop tail s = unescapeUserLoop tail' s) ↔ cutOff s = false := by
  induction s using cutOff.induct with
  | case1 => simp [unescapeUserLoop, cutOff]
  | case2 hi lo s ih =>
    simp only [unescapeUserLoop_triplet]
    cases hc : unescapeChar hi lo with
    | none => simp [cutOff, hc]
    | some c =>
      simp only [bind_some, map_cons_inj, ih, cutOff, hc, if_true, isSome_some, Bool.true_and]
  | case3 hi =>
    constructor
    · intro hindep
      by_contra hcut
      simp only [cutOff, if_true, Bool.not_eq_false, any_eq_true, decide_eq_true_eq] at hcut
      obtain ⟨h, hh, h1, h2⟩ := hcut
      -- a `0` behind the string completes the sequence, a `g` does not
      have hdep := hindep (fun _ => '0') (fun _ => 'g')
      simp only [unescapeUserLoop, if_true, unescapeChar_eq hh (show hexDigit '0' = some 0 by decide),
        unescapeChar_none_right hi (show hexDigit 'g' = none by decide)] at hdep
      rw [if_neg (by omega)] at hdep
      cases hdep
    · intro hcut tail tail'
      simp only [unescapeUserLoop, if_true, unescapeChar_first hcut]
  | case4 =>
    constructor
    · intro hindep
      have hdep := hindep (fun _ => '4') (fun _ => 'g')
      revert hdep
      decide
    · intro hcut
      simp [cutOff] at hcut
  | case5 p s hp ih =>
    have hcut : cutOff (p :: s) = cutOff s := by
      rw [cutOff.eq_def]
      exact if_neg hp
    simp only [unescapeUserLoop_plain hp, map_cons_inj, ih, hcut]

/-! ## The two decoders -/

theorem hex2int_eq {d : Nat} (h : hexDigit c = some d) : hex2int c = d := by
  rw [hex2int, h]

theorem hexDigit_of_hex2int (h : ¬hex2int c < 0) : ∃ d, hexDigit c = some d := by
  unfold hex2int at h
  split at h
  · rename_i d hd
    exact ⟨d, hd⟩
  · omega

theorem unEscapeLoop_plain (hc : c ≠ '%') (s : Str) :
    unEscapeLoop (c :: s) = (unEscapeLoop s).map (c :: ·) := by
  rw [unEscapeLoop.eq_def]
  exact if_neg hc

theorem unEscapeLoop_triplet {s b : Str} (h : unEscapeLoop ('%' :: hi :: lo :: s) = some b) :
    ∃ c b', unescapeChar hi lo = some c ∧ unEscapeLoop s = some b' ∧ b = c :: b' := by
  rw [unEscapeLoop.eq_def] at h
  simp only [if_true] at h
  split at h
  · cases h
  · rename_i hhi
    split at h
    · cases h
    · rename_i hlo
      obtain ⟨x, hx⟩ := hexDigit_of_hex2int hhi
      obtain ⟨y, hy⟩ := hexDigit_of_hex2int hlo
      have hvalue : hex2int hi <<< (4 : Nat) + hex2int lo = ((x * 16 + y : Nat) : Int) := by
        rw [hex2int_eq hx, hex2int_eq hy, Int.shiftLeft_eq]
        norm_num
      rw [hvalue] at h
      split at h
      · cases h
      · obtain ⟨b', hb', rfl⟩ := map_eq_some_iff.mp h
        refine ⟨Char.ofNat (x * 16 + y), b', ?_, hb', ?_⟩
        · rw [unescapeChar_eq hx hy, if_neg (by omega)]
        · rw [Int.toNat_natCast]

theorem unescapeUserLoop_agrees (tail : Nat → Char) (s : Str) : ∀ {a b : Str}, unescapeUserLoop tail s = some a →
    unEscapeLoop s = some b → a = b := by
  induction s using cutOff.induct with
  | case1 =>
    intro a b ha hb
    cases ha
    cases hb
    rfl
  | case2 hi lo s ih =>
    intro a b ha hb
    obtain ⟨c, b', hc, hb', rfl⟩ := unEscapeLoop_triplet hb
    rw [unescapeUserLoop_triplet, hc, bind_some] at ha
    obtain ⟨a', ha', rfl⟩ := map_eq_some_iff.mp ha
    rw [ih ha' hb']
  | case3 hi | case4 =>
    intro a b ha hb
    simp [unEscapeLoop] at hb
  | case5 p s hp ih =>
    intro a b ha hb
    rw [unescapeUserLoop_plain hp] at ha
    rw [unEscapeLoop_plain hp] at hb
    obtain ⟨a', ha', rfl⟩ := map_eq_some_iff.mp ha
    obtain ⟨b', hb', rfl⟩ := map_eq_some_iff.mp hb
    rw [ih ha' hb']

/-- **User parts**: a printable string is escaped into user characters and escape sequences and read back; the result of
`unescape_user` depends on the given bytes alone exactly if they are not cut off within an escape sequence; the two
decoders agree where both accept. The buffers are as large as the functions demand. -/
theorem escapeUser_contract (s : Str) :
    (∀ n : Nat, Printable s → 3 * s.length + 1 ≤ n → ∃ e, escapeUser s n = some e ∧ EscapedUser e ∧
      ∀ (tail : Nat → Char) (m : Nat), e.length + 1 ≤ m → unescapeUser e tail m = some s) ∧
    (∀ m : Nat, s.length + 1 ≤ m →
      ((∀ tail tail', unescapeUser s tail m = unescapeUser s tail' m) ↔ cutOff s = false)) ∧
    ∀ (tail : Nat → Char) (m : Nat) (a b : Str), unescapeUser s tail m = some a → unEscape s = some b → a = b := by
  refine ⟨fun n hs hn => ?_, fun m hm => ?_, fun tail m a b ha hb => ?_⟩
  · obtain ⟨e, he, hesc, hback⟩ := escapeUserLoop_ok s hs
    refine ⟨e, ?_, hesc, fun tail m hm => ?_⟩
    · rw [escapeUser, if_neg (by omega), he]
    · rw [unescapeUser, if_neg (by omega), hback]
  · simp only [unescapeUser, if_neg (show ¬m < s.length + 1 by omega)]
    exact unescapeUserLoop_tail_iff s
  · rw [unescapeUser] at ha
    split at ha
    · cases ha
    · exact unescapeUserLoop_agrees tail s ha hb

/-- A percent sign is escaped and read back. -/
theorem escapeUser_percent : ∃ e, escapeUser "50%".toList 10 = some e ∧ EscapedUser e ∧
    unescapeUser e (fun _ => '0') 6 = some "50%".toList := by
  have hprint : ∀ c ∈ "50%".toList, 32 ≤ c.toNat ∧ c.toNat ≤ 126 := by simp
  obtain ⟨e, he, hesc, hback⟩ := (escapeUser_contract "50%".toList).1 10 hprint (by decide)
  have hval : escapeUser "50%".toList 10 = some "50%25".toList := by decide
  rw [he] at hval
  cases hval
  exact ⟨_, he, hesc, hback _ 6 (by decide)⟩

/-- The string `%` is decoded to `A` when `41` happens to lie behind it, and refused when `zz` does. -/
theorem unescapeUser_runs_over : unescapeUser "%".toList (fun i => if i = 0 then '4' else '1') 2 = some "A".toList ∧
    unescapeUser "%".toList (fun _ => 'z') 2 = none := by
  decide

end OpenSer
