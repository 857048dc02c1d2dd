import OpenSer.Registrar.SipMsg

/-!
# When a binding expires

The requested value is decoded modulo `2 ^ 32`, the current time is added in 32 bits, and 0 stands for a removal.

* `askedExpires_eq`: what is asked for, from the parameter or from the header field.
* `limitExpires_eq_iff`: when the two limits give what they should.
* `calc_contact_expires_iff`: the requests that get the expiry they should.
-/

namespace OpenSer.Registrar

open List Bool

/-! ## What is asked for -/

/-- The text of the value that a request asks for: in the parameter of the contact, or, if that has no value, in the
Expires header field, with white space around it. -/
inductive Asks (m : Fields) : Option Param → Str → Prop
  | param (p : Param) : p.body ≠ [] → Asks m (some p) p.body
  | header (ep : Option Param) (ws s tail : Str) : (∀ p ∈ ep, p.body = []) → (∀ c ∈ ws, isSpace c = true) →
      (∀ c ∈ tail.head?, isSpace c = true) → s ≠ [] → expiresParser (ws ++ s ++ tail) = m.expires → m.expires.isSome →
      Asks m ep s

theorem not_isSpace_of_isDecimal {c : Char} (h : isDecimal c = true) : isSpace c = false := by
  by_contra hs
  simp only [isSpace, not_eq_false, or_eq_true, decide_eq_true_eq] at hs
  rcases hs with ((rfl | rfl) | rfl) | rfl <;> exact absurd h (by decide)

theorem expiresLoop_digits (s tail : Str) (hs : ∀ c ∈ s, isDecimal c = true)
    (htail : ∀ c ∈ tail.head?, isSpace c = true)
    (r : Nat) : expiresLoop (s ++ tail) (BitVec.ofNat 32 r) = ⟨true, BitVec.ofNat 32 (decimalFrom r s)⟩ := by
  induction s generalizing r with
  | nil =>
    cases tail with
    | nil => rfl
    | cons c tail =>
      have hc := htail c rfl
      have hd : isDecimal c = false := by
        by_contra hd
        rw [not_isSpace_of_isDecimal (not_eq_false _ ▸ hd)] at hc
        cases hc
      rw [nil_append, expiresLoop, hd, hc]
      rfl
  | cons c s ih =>
    rw [cons_append, expiresLoop, if_pos (hs c (by simp)), shift_decimal]
    exact ih (fun d hd => hs d (by simp [hd])) _

theorem expiresParser_digits (ws s tail : Str) (hws : ∀ c ∈ ws, isSpace c = true) (hs : ∀ c ∈ s, isDecimal c = true)
    (hne : s ≠ []) (htail : ∀ c ∈ tail.head?, isSpace c = true) :
    expiresParser (ws ++ s ++ tail) = some ⟨true, BitVec.ofNat 32 (decimal s)⟩ := by
  obtain ⟨c, s, rfl⟩ := exists_cons_of_ne_nil hne
  have hdrop : (ws ++ (c :: s) ++ tail).dropWhile isSpace = c :: s ++ tail := by
    rw [append_assoc, dropWhile_append_of_pos hws, cons_append, dropWhile_cons_of_neg]
    rw [not_isSpace_of_isDecimal (hs c mem_cons_self)]
    exact false_ne_true
  unfold expiresParser
  rw [hdrop]
  exact congrArg some (expiresLoop_digits (c :: s) tail hs htail 0)

/-- The time that a value of the request stands for, as an `int`. -/
def asked (actTime : Int) (v : Nat) : BitVec 32 :=
  let e := BitVec.ofNat 32 v
  if e ≠ 0 then BitVec.ofInt 32 (e.toInt + actTime) else 0

/-- **What is asked for** is the same from the parameter and from the header field. -/
theorem askedExpires_eq (cfg : Limits) (actTime : Int) {m : Fields} {ep : Option Param} {s : Str} (h : Asks m ep s)
    (hs : ∀ c ∈ s, isDecimal c = true) : askedExpires cfg actTime m ep = asked actTime (decimal s) := by
  cases h with
  | param p hne =>
    unfold askedExpires asked
    dsimp only
    rw [if_neg fun hlen => hne (length_eq_zero_iff.mp hlen), str2int_digits p.body hs, Option.getD_some]
    split
    · rfl
    · rename_i he
      exact not_not.mp he
  | header ep ws s tail hep hws htail hne hbody _ =>
    rw [expiresParser_digits ws s tail hws hs hne htail] at hbody
    have hget : getExpiresHf cfg actTime m = asked actTime (decimal s) := by
      rw [getExpiresHf, ← hbody]
      rfl
    unfold askedExpires
    cases ep with
    | none => exact hget
    | some p =>
      dsimp only
      rw [if_pos (length_eq_zero_iff.mpr (hep p rfl)), hget]

/-! ## The limits -/

/-- The upper limit; without one, the last time there is. -/
def upper (cfg : Limits) (actTime : Int) : Int := if cfg.maxExpires = 0 then 2 ^ 31 - 1 - actTime else cfg.maxExpires

def clamp (cfg : Limits) (actTime v : Int) : Int := min (max v cfg.minExpires) (upper cfg actTime)

def expiry (cfg : Limits) (actTime : Int) (v : Nat) : Int := if v = 0 then 0 else actTime + clamp cfg actTime v

/-- The duration that the code sees. -/
def seen (actTime : Int) (v : Nat) : Int := (v + actTime).bmod (2 ^ 32) - actTime

/-- The requests that get what they should: those for 0; and those that are not taken for a removal, for which the times
there are to compute are in range, and whose value is not changed by the arithmetic or cut to the same limit with it. -/
def Timely (cfg : Limits) (actTime : Int) (v : Nat) : Prop :=
  v = 0 ∨
    (v % 2 ^ 32 ≠ 0 ∧ (v + actTime) % 2 ^ 32 ≠ 0) ∧
    (actTime + clamp cfg actTime v < 2 ^ 31 ∧ (seen actTime v < cfg.minExpires → actTime + cfg.minExpires < 2 ^ 31)) ∧
    (v + actTime < 2 ^ 31 ∨ upper cfg actTime ≤ seen actTime v ∨ upper cfg actTime ≤ cfg.minExpires)

section
variable {cfg : Limits} {actTime : Int} {v : Nat}

theorem asked_toInt (actTime : Int) (v : Nat) :
    (asked actTime v).toInt = if v % 2 ^ 32 = 0 then 0 else (v + actTime).bmod (2 ^ 32) := by
  have hzero : BitVec.ofNat 32 v = 0 ↔ v % 2 ^ 32 = 0 := by
    rw [← BitVec.toNat_inj]
    rfl
  unfold asked
  by_cases hv : v % 2 ^ 32 = 0
  · rw [if_neg (not_not.mpr (hzero.mpr hv)), if_pos hv]
    rfl
  · rw [if_pos fun h => hv (hzero.mp h), if_neg hv, BitVec.toInt_ofInt, BitVec.toInt_ofNat', Int.bmod_add_bmod]

/-- The first limit, on integers. -/
def raised (cfg : Limits) (actTime e : Int) : Int :=
  if e ≠ 0 ∧ e - actTime < cfg.minExpires then (cfg.minExpires + actTime).bmod (2 ^ 32) else e

def lowered (cfg : Limits) (actTime e : Int) : Int :=
  if e ≠ 0 ∧ cfg.maxExpires ≠ 0 ∧ e - actTime > cfg.maxExpires then (cfg.maxExpires + actTime).bmod (2 ^ 32) else e

theorem limitExpires_toInt (cfg : Limits) (actTime : Int) (e : BitVec 32) :
    (limitExpires cfg actTime e).toInt = lowered cfg actTime (raised cfg actTime e.toInt) := by
  have hzero : ∀ e : BitVec 32, e ≠ 0 ↔ e.toInt ≠ 0 := fun e => by rw [ne_eq, ← BitVec.toInt_inj]; rfl
  have hraised : ∀ e : BitVec 32, (if e ≠ 0 ∧ e.toInt - actTime < cfg.minExpires then
      BitVec.ofInt 32 (cfg.minExpires + actTime) else e).toInt = raised cfg actTime e.toInt := by
    intro e
    rw [raised, apply_ite BitVec.toInt, BitVec.toInt_ofInt]
    simp only [hzero e]
  unfold limitExpires
  rw [← hraised e]
  generalize (if e ≠ 0 ∧ e.toInt - actTime < cfg.minExpires then BitVec.ofInt 32 (cfg.minExpires + actTime) else e) = e₁
  rw [apply_ite BitVec.toInt, BitVec.toInt_ofInt, lowered]
  simp only [hzero e₁]

theorem bmod_of_range {x : Int} (h1 : -2 ^ 31 ≤ x) (h2 : x < 2 ^ 31) : x.bmod (2 ^ 32) = x := by
  rw [Int.bmod_eq_of_le] <;> omega

theorem bmod_of_over {x : Int} (h1 : 2 ^ 31 ≤ x) (h2 : x < 2 ^ 32) : x.bmod (2 ^ 32) = x - 2 ^ 32 := by
  rw [Int.bmod_def]
  omega

/-- The parameters of the module and the time are below `2 ^ 31`. -/
structure Moderate (cfg : Limits) (actTime : Int) : Prop where
  time : 0 ≤ actTime ∧ actTime < 2 ^ 31
  min : 0 ≤ cfg.minExpires ∧ cfg.minExpires < 2 ^ 31
  max : 0 ≤ cfg.maxExpires ∧ cfg.maxExpires < 2 ^ 31

theorem expiry_pos (h : Moderate cfg actTime) (hv : v ≠ 0) : 0 < expiry cfg actTime v := by
  obtain ⟨htime, -, hmax⟩ := h
  rw [expiry, clamp, upper]
  split_ifs <;> omega

/-- **The limits** give the right time exactly when the duration that is seen is right as far as the limits go. -/
theorem lowered_raised_eq_iff {e : Int} (h : Moderate cfg actTime) (he : e ≠ 0) (hrange : -2 ^ 31 ≤ e ∧ e < 2 ^ 31)
    (hle : e - actTime ≤ v) (hsame : e - actTime = v ↔ v + actTime < 2 ^ 31) :
    lowered cfg actTime (raised cfg actTime e) = actTime + clamp cfg actTime v ↔
      (actTime + clamp cfg actTime v < 2 ^ 31 ∧ (e - actTime < cfg.minExpires → actTime + cfg.minExpires < 2 ^ 31)) ∧
      (v + actTime < 2 ^ 31 ∨ upper cfg actTime ≤ e - actTime ∨ upper cfg actTime ≤ cfg.minExpires) := by
  obtain ⟨⟨hact0, hact⟩, ⟨hmin0, hmin⟩, hmax0, hmax⟩ := h
  -- a sum of two of them fits, or goes round once
  have hround : ∀ x : Int, 0 ≤ x → x < 2 ^ 31 → (x + actTime).bmod (2 ^ 32) =
      if x + actTime < 2 ^ 31 then x + actTime else x + actTime - 2 ^ 32 := by
    intro x hx0 hx
    split
    · exact bmod_of_range (by omega) (by omega)
    · exact bmod_of_over (by omega) (by omega)
  unfold lowered raised clamp upper
  rw [hround _ hmin0 hmin, hround _ hmax0 hmax]
  split_ifs <;> omega

theorem seen_cases (h : Moderate cfg actTime) (v : Nat) :
    (-2 ^ 31 ≤ seen actTime v + actTime ∧ seen actTime v + actTime < 2 ^ 31) ∧ seen actTime v ≤ v ∧
      (seen actTime v = v ↔ v + actTime < 2 ^ 31) := by
  obtain ⟨⟨hact0, hact⟩, -, -⟩ := h
  unfold seen
  rw [Int.bmod_def]
  split <;> omega

end

/-! ## Requests -/

/-- **Exactly when a request gets the expiry it should**: 0 for 0, and otherwise the current time and the requested
value within the limits. -/
theorem calc_contact_expires_iff (cfg : Limits) (actTime : Int) (m : Fields) (ep : Option Param) (s : Str)
    (hmod : Moderate cfg actTime) (hask : Asks m ep s) (hs : ∀ c ∈ s, isDecimal c = true) :
    (calcContactExpires cfg actTime m ep).toInt = expiry cfg actTime (decimal s) ↔ Timely cfg actTime (decimal s) := by
  rw [calcContactExpires, limitExpires_toInt, askedExpires_eq cfg actTime hask hs, asked_toInt]
  generalize decimal s = v
  have hmodulo : (v + actTime).bmod (2 ^ 32) = 0 ↔ (v + actTime) % 2 ^ 32 = 0 := by
    rw [Int.bmod_def]
    split <;> omega
  by_cases hv : v = 0
  · rw [if_pos (by omega), expiry, if_pos hv]
    exact ⟨fun _ => .inl hv, fun _ => rfl⟩
  have hpos := expiry_pos hmod hv
  by_cases hdec : v % 2 ^ 32 = 0
  · rw [if_pos hdec]
    exact ⟨fun h => absurd h hpos.ne, fun h => absurd hdec (h.resolve_left hv).1.1⟩
  rw [if_neg hdec]
  by_cases hsum : (v + actTime).bmod (2 ^ 32) = 0
  · rw [hsum]
    exact ⟨fun h => absurd h hpos.ne, fun h => absurd (hmodulo.mp hsum) (h.resolve_left hv).1.2⟩
  obtain ⟨hrange, hle, hsame⟩ := seen_cases hmod v
  have hseen : (v + actTime).bmod (2 ^ 32) = seen actTime v + actTime := by
    unfold seen
    omega
  have hiff := lowered_raised_eq_iff (v := v) hmod (hseen ▸ hsum) hrange (by omega) (by omega)
  have hdur : seen actTime v + actTime - actTime = seen actTime v := by omega
  rw [hseen, expiry, if_neg hv, hiff, hdur]
  have hkept : v % 2 ^ 32 ≠ 0 ∧ (v + actTime) % 2 ^ 32 ≠ 0 := ⟨hdec, fun h => hsum (hmodulo.mpr h)⟩
  exact ⟨fun h => .inr ⟨hkept, h⟩, fun h => (h.resolve_left hv).2⟩

/-- A contact that asks for an hour gets an hour. -/
theorem calc_contact_expires_hour :
    (calcContactExpires ⟨3600, 60, 0⟩ 1000 ⟨[], none⟩ (some ⟨"3600".toList, 12, by decide⟩)).toInt =
      expiry ⟨3600, 60, 0⟩ 1000 (decimal "3600".toList) := by
  refine (calc_contact_expires_iff ⟨3600, 60, 0⟩ 1000 ⟨[], none⟩ (some ⟨"3600".toList, 12, by decide⟩) "3600".toList
    ⟨by decide, by decide, by decide⟩ (.param ⟨"3600".toList, 12, by decide⟩ (by decide))
      (List.all_eq_true.mp rfl)).mpr ?_
  unfold Timely seen
  decide +kernel

/-- A contact that asks for `2 ^ 31` seconds gets the minimum, and one that asks for `2 ^ 32` is removed. -/
theorem calc_contact_expires_wrong :
    (calcContactExpires ⟨3600, 60, 0⟩ 1000 ⟨[], none⟩ (some ⟨"2147483648".toList, 18, by decide⟩)).toInt = 1060 ∧
      (calcContactExpires ⟨3600, 60, 0⟩ 1000 ⟨[], none⟩ (some ⟨"4294967296".toList, 18, by decide⟩)).toInt = 0 ∧
      expiry ⟨3600, 60, 0⟩ 1000 2147483648 = 2147483647 ∧ expiry ⟨3600, 60, 0⟩ 1000 4294967296 = 2147483647 := by
  decide +kernel

end OpenSer.Registrar
