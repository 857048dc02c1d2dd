import Mathlib.Data.BitVec
import Mathlib.Tactic

/-!
# Attribute-value pairs

`usr_avp.c`: the list of AVPs, to which `add_avp` adds in front, and the searches. A search compares a key of 16 bits
before it compares names: the exclusive or of the bytes of a name, or the low half of an integer id.

* `searchFirstAvp_eq`: a search finds the first AVP that it `Accepts`.
* `found_iff`: the AVPs that searching on from each result gives.
* `computeID_eq_iff`: names that are equal up to case have the same key when an even number of their letters differ.
* `avp_found_exact_iff`: the names and ids for which an AVP is found exactly under its own name.
* `searchNextAvp_eq`: `search_next_avp` goes by the flags of the AVP that was found last.
* `enumeration_exact_iff`: the lists in which the AVPs found one after the other are those that the search accepts.
* `avps_over_runs`: the AVPs that are there after any calls.
-/

namespace OpenSer.Avp

open Option List Nat

/-! ## AVPs -/

/-- `int_str`: a union. The integer is the low half of the pointer of the string; `text` are the bytes it points to. -/
structure IntStr where
  word : BitVec 64
  text : List UInt8
  deriving Repr, DecidableEq

def IntStr.n (v : IntStr) : BitVec 32 := v.word.setWidth 32

inductive Value
  | int (n : BitVec 32)
  | str (s : List UInt8)
  deriving Repr, DecidableEq

/-- `struct usr_avp`; an AVP with an integer id has no name. -/
structure UsrAvp where
  id : BitVec 16
  flags : BitVec 16
  name : Option (List UInt8)
  val : Value
  deriving Repr, DecidableEq

def nameStr : BitVec 16 := 1 <<< 0

def valStr : BitVec 16 := 1 <<< 1

def scriptMask : BitVec 16 := 0xff00

/-- `compute_ID`, from the last byte to the first. A `char` is signed. -/
def computeID : List UInt8 → BitVec 16
  | [] => 0
  | p :: name => computeID name ^^^ p.toBitVec.signExtend 16

/-- The AVP that `add_avp` builds. -/
def newAvp (flags : BitVec 16) (name val : IntStr) : UsrAvp where
  flags
  id := if flags &&& nameStr ≠ 0 then computeID name.text else name.n.setWidth 16
  name := if flags &&& nameStr ≠ 0 then some name.text else none
  val := if flags &&& valStr ≠ 0 then .str val.text else .int val.n

/-- `add_avp`: the list, or `none` when it fails; `mem` tells whether there is memory. -/
def addAvp (crtAvps : List UsrAvp) (mem : Bool) (flags : BitVec 16) (name val : IntStr) : Option (List UsrAvp) :=
  if name.n = 0 then none
  else if flags &&& nameStr ≠ 0 ∧ (name.word = 0 ∨ name.text.length = 0) then none
  else if !mem then none
  else some (newAvp flags name val :: crtAvps)

structure Add where
  mem : Bool
  flags : BitVec 16
  name : IntStr
  val : IntStr

def Add.call (a : Add) (crtAvps : List UsrAvp) : Option (List UsrAvp) := addAvp crtAvps a.mem a.flags a.name a.val

def Add.avp (a : Add) : UsrAvp := newAvp a.flags a.name a.val

/-- Calls one after the other; a call that fails leaves the list alone. -/
def addAvps (crtAvps : List UsrAvp) (calls : List Add) : List UsrAvp :=
  calls.foldl (fun l a => (a.call l).getD l) crtAvps

/-! ## Searches -/

def lower (b : UInt8) : UInt8 := if 'A'.toUInt8 ≤ b ∧ b ≤ 'Z'.toUInt8 then b + 0x20 else b

/-- `strncasecmp` of two texts of the same length gives 0: it stops behind a zero byte. -/
def strncasecmp : List UInt8 → List UInt8 → Bool
  | a :: s, b :: t => lower a == lower b && (a == 0 || strncasecmp s t)
  | _, _ => true

/-- `internal_search_ID_avp`: the AVP and those behind it. -/
def internalSearchIDAvp (id flags : BitVec 16) : List UsrAvp → Option (UsrAvp × List UsrAvp)
  | [] => none
  | avp :: next =>
    if id = avp.id ∧ avp.flags &&& nameStr = 0 ∧ (flags = 0 ∨ flags &&& avp.flags ≠ 0) then some (avp, next)
    else internalSearchIDAvp id flags next

def internalSearchNameAvp (id : BitVec 16) (name : List UInt8) (flags : BitVec 16) :
    List UsrAvp → Option (UsrAvp × List UsrAvp)
  | [] => none
  | avp :: next =>
    if id = avp.id ∧ avp.flags &&& nameStr ≠ 0 ∧ (flags = 0 ∨ flags &&& avp.flags ≠ 0) ∧
        avp.name.any fun avpName => avpName.length == name.length && strncasecmp avpName name then some (avp, next)
    else internalSearchNameAvp id name flags next

/-- `search_first_avp`: the AVP, with its value, and those behind it; `start` are those behind the AVP to start from. -/
def searchFirstAvp (crtAvps : List UsrAvp) (flags : BitVec 16) (name : IntStr) (start : Option (List UsrAvp)) :
    Option (UsrAvp × List UsrAvp) :=
  let head := start.getD crtAvps
  if head = [] then none
  else if name.n = 0 then none
  else if flags &&& nameStr ≠ 0 then
    if name.word = 0 ∨ name.text.length = 0 then none
    else internalSearchNameAvp (computeID name.text) name.text (flags &&& scriptMask) head
  else internalSearchIDAvp (name.n.setWidth 16) (flags &&& scriptMask) head

/-- What is found by searching, and searching on from each result: an AVP, and those behind it. -/
inductive Found (crtAvps : List UsrAvp) (flags : BitVec 16) (name : IntStr) : UsrAvp → List UsrAvp → Prop
  | first {avp next} : searchFirstAvp crtAvps flags name none = some (avp, next) → Found crtAvps flags name avp next
  | next {avp next avp' next'} : Found crtAvps flags name avp next →
      searchFirstAvp crtAvps flags name (some next) = some (avp', next') → Found crtAvps flags name avp' next'

/-! ## What a search accepts -/

/-- The flags of a search ask for the AVP, or for no flags. -/
def Asked (flags : BitVec 16) (avp : UsrAvp) : Prop :=
  flags &&& scriptMask = 0 ∨ (flags &&& scriptMask) &&& avp.flags ≠ 0

instance (flags : BitVec 16) (avp : UsrAvp) : Decidable (Asked flags avp) := by
  unfold Asked
  infer_instance

/-- The name test of a search: an AVP is taken for one of the name, whatever its script flags are. -/
def Named (flags : BitVec 16) (name : IntStr) (avp : UsrAvp) : Prop :=
  name.n ≠ 0 ∧
    if flags &&& nameStr ≠ 0 then
      name.text ≠ [] ∧ computeID name.text = avp.id ∧ avp.flags &&& nameStr ≠ 0 ∧
        avp.name.any fun avpName => avpName.length == name.text.length && strncasecmp avpName name.text
    else name.n.setWidth 16 = avp.id ∧ avp.flags &&& nameStr = 0

instance (flags : BitVec 16) (name : IntStr) (avp : UsrAvp) : Decidable (Named flags name avp) := by
  unfold Named
  infer_instance

def Accepts (flags : BitVec 16) (name : IntStr) (avp : UsrAvp) : Prop := Named flags name avp ∧ Asked flags avp

instance (flags : BitVec 16) (name : IntStr) (avp : UsrAvp) : Decidable (Accepts flags name avp) :=
  inferInstanceAs (Decidable (_ ∧ _))

def firstWith (p : UsrAvp → Prop) [DecidablePred p] : List UsrAvp → Option (UsrAvp × List UsrAvp)
  | [] => none
  | avp :: next => if p avp then some (avp, next) else firstWith p next

section
variable {p q : UsrAvp → Prop} [DecidablePred p] [DecidablePred q] {l : List UsrAvp}

theorem firstWith_congr (h : ∀ avp, p avp ↔ q avp) (l : List UsrAvp) : firstWith p l = firstWith q l := by
  induction l with
  | nil => rfl
  | cons avp next ih => simp only [firstWith, ih, h avp]

theorem firstWith_none (h : ∀ avp, ¬p avp) (l : List UsrAvp) : firstWith p l = none := by
  induction l with
  | nil => rfl
  | cons avp next ih => rw [firstWith, if_neg (h avp), ih]

theorem firstWith_some {avp : UsrAvp} {next : List UsrAvp} (h : firstWith p l = some (avp, next)) :
    p avp ∧ ∃ pre, l = pre ++ avp :: next := by
  induction l with
  | nil => cases h
  | cons x l ih =>
    rw [firstWith] at h
    split at h
    · rename_i hx
      cases h
      exact ⟨hx, [], rfl⟩
    · obtain ⟨hp, pre, rfl⟩ := ih h
      exact ⟨hp, x :: pre, rfl⟩

end

variable {crtAvps l : List UsrAvp} {flags flags' : BitVec 16} {name m : IntStr} {avp : UsrAvp} {next : List UsrAvp}
  {p : UsrAvp → Prop} {s t : List UInt8} {fuel : Nat} {a : Add}

theorem internalSearchIDAvp_eq (id flags : BitVec 16) (l : List UsrAvp) :
    internalSearchIDAvp id flags l =
      firstWith (fun avp => id = avp.id ∧ avp.flags &&& nameStr = 0 ∧ (flags = 0 ∨ flags &&& avp.flags ≠ 0)) l := by
  induction l with
  | nil => rfl
  | cons avp next ih => rw [internalSearchIDAvp, firstWith, ih]

theorem internalSearchNameAvp_eq (id : BitVec 16) (name : List UInt8) (flags : BitVec 16) (l : List UsrAvp) :
    internalSearchNameAvp id name flags l =
      firstWith (fun avp => id = avp.id ∧ avp.flags &&& nameStr ≠ 0 ∧ (flags = 0 ∨ flags &&& avp.flags ≠ 0) ∧
        avp.name.any fun avpName => avpName.length == name.length && strncasecmp avpName name) l := by
  induction l with
  | nil => rfl
  | cons avp next ih => rw [internalSearchNameAvp, firstWith, ih]

theorem IntStr.word_ne_zero (h : name.n ≠ 0) : name.word ≠ 0 := by
  intro hw
  rw [IntStr.n, hw] at h
  exact h rfl

/-- **A search** finds the first AVP that it accepts. -/
theorem searchFirstAvp_eq (start : Option (List UsrAvp)) :
    searchFirstAvp crtAvps flags name start = firstWith (Accepts flags name) (start.getD crtAvps) := by
  unfold searchFirstAvp
  dsimp only
  generalize start.getD crtAvps = head
  split
  · rename_i hnil
    rw [hnil, firstWith]
  split
  · rename_i hn
    exact (firstWith_none (fun avp h => h.1.1 hn) head).symm
  rename_i hn
  split
  · rename_i hstr
    split
    · rename_i hempty
      have htext : name.text = [] := length_eq_zero_iff.mp (hempty.resolve_left (IntStr.word_ne_zero hn))
      refine (firstWith_none (fun avp h => ?_) head).symm
      have hname := h.1.2
      rw [if_pos hstr] at hname
      exact hname.1 htext
    · rename_i hempty
      have htext : name.text ≠ [] := fun ht => hempty (.inr (by rw [ht]; rfl))
      rw [internalSearchNameAvp_eq]
      refine firstWith_congr (fun avp => ?_) head
      rw [Accepts, Named, if_pos hstr, Asked]
      tauto
  · rename_i hstr
    rw [internalSearchIDAvp_eq]
    refine firstWith_congr (fun avp => ?_) head
    rw [Accepts, Named, if_neg hstr, Asked]
    tauto

/-- **Searching on** finds every AVP that is accepted, and no other. -/
theorem found_iff : Found crtAvps flags name avp next ↔
    Accepts flags name avp ∧ ∃ pre, crtAvps = pre ++ avp :: next := by
  constructor
  · intro h
    induction h with
    | first h =>
      rw [searchFirstAvp_eq] at h
      exact firstWith_some h
    | @next avp _ _ _ _ h ih =>
      rw [searchFirstAvp_eq] at h
      obtain ⟨hacc, pre', hpre'⟩ := firstWith_some h
      obtain ⟨-, pre, hpre⟩ := ih
      rw [getD_some] at hpre'
      refine ⟨hacc, pre ++ avp :: pre', ?_⟩
      rw [hpre, hpre', append_assoc, cons_append]
  · rintro ⟨hacc, pre, hpre⟩
    -- from any place in the list on from which a search is made
    have hfrom : ∀ (pre : List UsrAvp) (start : Option (List UsrAvp)), start.getD crtAvps = pre ++ avp :: next →
        (∀ x rest, searchFirstAvp crtAvps flags name start = some (x, rest) → Found crtAvps flags name x rest) →
        Found crtAvps flags name avp next := by
      intro pre
      induction pre with
      | nil =>
        intro start hstart hgo
        apply hgo
        rw [searchFirstAvp_eq, hstart, nil_append, firstWith, if_pos hacc]
      | cons x pre ih =>
        intro start hstart hgo
        by_cases hx : Accepts flags name x
        · have hfound : Found crtAvps flags name x (pre ++ avp :: next) := by
            apply hgo
            rw [searchFirstAvp_eq, hstart, cons_append, firstWith, if_pos hx]
          exact ih (some (pre ++ avp :: next)) rfl fun y rest hy => Found.next hfound hy
        · refine ih (some (pre ++ avp :: next)) rfl fun y rest hy => hgo y rest ?_
          rw [searchFirstAvp_eq, getD_some] at hy
          rw [searchFirstAvp_eq, hstart, cons_append, firstWith, if_neg hx, hy]
    exact hfrom pre none hpre fun x rest hx => Found.first hx

/-! ## Lists that `add_avp` builds -/

theorem Add.call_some (h : a.call crtAvps = some l) :
    a.name.n ≠ 0 ∧ (a.flags &&& nameStr ≠ 0 → a.name.text ≠ []) ∧ l = a.avp :: crtAvps := by
  obtain ⟨hn, h⟩ := ite_none_left_eq_some.mp h
  obtain ⟨hempty, h⟩ := ite_none_left_eq_some.mp h
  obtain ⟨-, h⟩ := ite_none_left_eq_some.mp h
  cases h
  refine ⟨hn, fun hstr htext => hempty ⟨hstr, .inr ?_⟩, rfl⟩
  rw [htext]
  rfl

theorem addAvps_suffix (calls : List Add) (l : List UsrAvp) : ∃ pre, addAvps l calls = pre ++ l := by
  induction calls generalizing l with
  | nil => exact ⟨[], rfl⟩
  | cons a calls ih =>
    rw [addAvps, foldl_cons, ← addAvps]
    obtain ⟨pre, hpre⟩ := ih ((a.call l).getD l)
    cases hcall : a.call l with
    | none =>
      rw [hcall] at hpre
      exact ⟨pre, hpre⟩
    | some l' =>
      obtain ⟨-, -, rfl⟩ := Add.call_some hcall
      rw [hcall, getD_some] at hpre
      refine ⟨pre ++ [a.avp], ?_⟩
      rw [getD_some, hpre, append_assoc, singleton_append]

/-! ## Keys of names -/

/-- How many bytes of two texts differ. -/
def differing (s t : List UInt8) : Nat := ((s.zip t).filter fun (a, b) => a ≠ b).length

theorem upper_cases {a : UInt8} (h1 : 'A'.toUInt8 ≤ a) (h2 : a ≤ 'Z'.toUInt8) :
    ∃ k : Fin 26, a = UInt8.ofNat (65 + k.val) := by
  have h1' : 65 ≤ a.toNat := h1
  have h2' : a.toNat ≤ 90 := h2
  refine ⟨⟨a.toNat - 65, by omega⟩, ?_⟩
  have ha : 65 + (a.toNat - 65) = a.toNat := by omega
  rw [ha, UInt8.ofNat_toNat]

theorem lower_eq_cases {a b : UInt8} (h : lower a = lower b) :
    a = b ∨ (∃ k : Fin 26, b = UInt8.ofNat (65 + k.val) ∧ a = b + 0x20) ∨
      ∃ k : Fin 26, a = UInt8.ofNat (65 + k.val) ∧ b = a + 0x20 := by
  unfold lower at h
  split at h <;> split at h
  · exact .inl ((UInt8.add_left_inj _).mp h)
  · rename_i ha _
    obtain ⟨k, hk⟩ := upper_cases ha.1 ha.2
    exact .inr (.inr ⟨k, hk, h.symm⟩)
  · rename_i _ hb
    obtain ⟨k, hk⟩ := upper_cases hb.1 hb.2
    exact .inr (.inl ⟨k, hk, h⟩)
  · exact .inl h

theorem signExtend_xor_of_lower_eq {a b : UInt8} (h : lower a = lower b) :
    a.toBitVec.signExtend 16 ^^^ b.toBitVec.signExtend 16 = if a = b then 0#16 else 0x20#16 := by
  have flip : ∀ k : Fin 26, UInt8.ofNat (65 + k.val) + 0x20 ≠ UInt8.ofNat (65 + k.val) ∧
      (UInt8.ofNat (65 + k.val) + 0x20).toBitVec.signExtend 16 ^^^
        (UInt8.ofNat (65 + k.val)).toBitVec.signExtend 16 = 0x20#16 := by decide
  rcases lower_eq_cases h with rfl | ⟨k, rfl, rfl⟩ | ⟨k, rfl, rfl⟩
  · rw [if_pos rfl, BitVec.xor_self]
  · rw [if_neg (flip k).1, (flip k).2]
  · rw [if_neg (flip k).1.symm, BitVec.xor_comm, (flip k).2]

/-- **The keys of names that are equal up to case** differ in one bit when an odd number of letters differ. -/
theorem computeID_xor (h : s.map lower = t.map lower) :
    computeID s ^^^ computeID t = if Even (differing s t) then 0#16 else 0x20#16 := by
  induction s generalizing t with
  | nil =>
    obtain rfl : t = [] := map_eq_nil_iff.mp h.symm
    rfl
  | cons a s ih =>
    cases t with
    | nil => cases h
    | cons b t =>
      obtain ⟨hab, hst⟩ := cons.inj h
      have hswap : computeID (a :: s) ^^^ computeID (b :: t) =
          (computeID s ^^^ computeID t) ^^^ (a.toBitVec.signExtend 16 ^^^ b.toBitVec.signExtend 16) := by
        simp only [computeID]
        ac_rfl
      have hcount : differing (a :: s) (b :: t) = (if a = b then 0 else 1) + differing s t := by
        unfold differing
        by_cases hb : a = b
        · simp [hb]
        · simp [hb, add_comm]
      rw [hswap, ih hst, signExtend_xor_of_lower_eq hab, hcount]
      by_cases hb : a = b
      · rw [if_pos hb, if_pos hb, zero_add, BitVec.xor_zero]
      · rw [if_neg hb, if_neg hb, add_comm]
        by_cases he : Even (differing s t)
        · rw [if_pos he, if_neg (fun h => even_add_one.mp h he), BitVec.zero_xor]
        · rw [if_neg he, if_pos (even_add_one.mpr he)]
          rfl

theorem computeID_eq_iff (h : s.map lower = t.map lower) :
    computeID s = computeID t ↔ Even (differing s t) := by
  have hx := computeID_xor h
  constructor
  · intro he
    by_contra hodd
    rw [he, BitVec.xor_self, if_neg hodd] at hx
    cases hx
  · intro he
    rw [if_pos he] at hx
    exact BitVec.xor_eq_zero_iff.mp hx

theorem strncasecmp_of_lower_eq (h : s.map lower = t.map lower) : strncasecmp s t = true := by
  induction s generalizing t with
  | nil => rfl
  | cons a s ih =>
    cases t with
    | nil => rfl
    | cons b t =>
      obtain ⟨hab, hst⟩ := cons.inj h
      rw [strncasecmp, hab, ih hst]
      simp

/-! ## AVPs under other names -/

/-- Two names, of an AVP and of a search, are the same: strings up to case, integers as they are. -/
def SameName (flags : BitVec 16) (n : IntStr) (flags' : BitVec 16) (m : IntStr) : Prop :=
  match decide (flags &&& nameStr ≠ 0), decide (flags' &&& nameStr ≠ 0) with
  | true, true => n.text.map lower = m.text.map lower
  | false, false => n.n = m.n
  | _, _ => False

/-- Two strings are told apart as they should be. If they are the same up to case, an even number of letters differ, and
the pointer of the one searched for has a low half; if they are not, they differ before a zero byte or in their keys. -/
def StringsTold (n m : IntStr) : Prop :=
  if n.text.map lower = m.text.map lower then Even (differing n.text m.text) ∧ m.n ≠ 0
  else ¬(n.text.length = m.text.length ∧ strncasecmp n.text m.text ∧ computeID n.text = computeID m.text ∧ m.n ≠ 0)

/-- Two integers are told apart as they should be: they are equal, or differ in their low halves, or the one that is
searched for is 0. -/
def IdsTold (n m : IntStr) : Prop := n.n = m.n ∨ n.n.setWidth 16 ≠ m.n.setWidth 16 ∨ m.n = 0

/-- Two names are told apart as they should be. -/
def Told (flags : BitVec 16) (n : IntStr) (flags' : BitVec 16) (m : IntStr) : Prop :=
  match decide (flags &&& nameStr ≠ 0), decide (flags' &&& nameStr ≠ 0) with
  | true, true => StringsTold n m
  | false, false => IdsTold n m
  | _, _ => True

/-- **The name test is right** for an AVP that was added exactly when the two names are told apart. -/
theorem named_added_iff (hn : a.name.n ≠ 0) (htext : a.flags &&& nameStr ≠ 0 → a.name.text ≠ []) :
    (Named flags' m a.avp ↔ SameName a.flags a.name flags' m) ↔ Told a.flags a.name flags' m := by
  unfold Named SameName Told
  simp only [Add.avp, newAvp]
  generalize a.flags = flags at *
  generalize a.name = n at *
  by_cases hstr : flags &&& nameStr = 0 <;> by_cases hstr' : flags' &&& nameStr = 0
  · simp only [hstr, hstr', IdsTold, ne_eq, not_true_eq_false, decide_false, if_false, and_true]
    constructor
    · intro h
      by_contra hcon
      push Not at hcon
      exact hcon.1 (h.mp ⟨hcon.2.2, hcon.2.1.symm⟩)
    · intro h
      constructor
      · rintro ⟨hm, hlow⟩
        rcases h with h | h | h
        · exact h
        · exact absurd hlow.symm h
        · exact absurd h hm
      · intro h
        exact ⟨h ▸ hn, by rw [h]⟩
  · simp only [hstr, hstr', ne_eq, not_true_eq_false, not_false_eq_true, decide_false, decide_true, if_true, false_and,
      and_false]
  · simp only [hstr, hstr', ne_eq, not_true_eq_false, not_false_eq_true, decide_false, decide_true, if_false, and_false]
  · have hne := htext hstr
    simp only [hstr, hstr', StringsTold, ne_eq, not_false_eq_true, decide_true, if_true, true_and, any_some,
      Bool.and_eq_true, beq_iff_eq]
    split
    · rename_i hsame
      have hlen : n.text.length = m.text.length := by simpa using congrArg length hsame
      have hne' : m.text ≠ [] := fun h => hne (length_eq_zero_iff.mp (by rw [hlen, h]; rfl))
      rw [← computeID_eq_iff hsame]
      simp only [hlen, strncasecmp_of_lower_eq hsame, hne', not_false_eq_true, and_true, true_and, iff_true, hsame]
      rw [and_comm, eq_comm]
    · rename_i hdiff
      rw [iff_false_right hdiff, not_iff_not]
      constructor
      · rintro ⟨hm, -, hkey, hlen, hcmp⟩
        exact ⟨hlen, hcmp, hkey.symm, hm⟩
      · rintro ⟨hlen, hcmp, hkey, hm⟩
        exact ⟨hm, fun h => hne (length_eq_zero_iff.mp (by rw [hlen, h]; rfl)), hkey.symm, hlen, hcmp⟩

/-- **Exactly when** an AVP that was added under `n` is found under `m` only if these are the same name: when the two
names are told apart as they should be. The search may ask for flags that the AVP does not have. -/
theorem avp_found_exact_iff (before after : List Add) (add : Add) (flags : BitVec 16) (m : IntStr) (avp : UsrAvp)
    (hadd : add.call (addAvps [] before) = some (avp :: addAvps [] before)) :
    (Found (addAvps (avp :: addAvps [] before) after) flags m avp (addAvps [] before) ↔
        SameName add.flags add.name flags m ∧ Asked flags avp) ↔
      (Asked flags avp → Told add.flags add.name flags m) := by
  obtain ⟨hn, htext, hl⟩ := Add.call_some hadd
  obtain rfl : avp = add.avp := (cons.inj hl).1
  have hin := addAvps_suffix after (add.avp :: addAvps [] before)
  rw [found_iff, and_iff_left hin]
  by_cases hasked : Asked flags add.avp
  · simp only [Accepts, hasked, and_true, forall_const]
    exact named_added_iff hn htext
  · simp [Accepts, hasked]

/-- An AVP that is added under "ab" is found under "AB", which is the same name. -/
theorem avp_found_exact_both_letters :
    ∃ avp, addAvp [] true nameStr ⟨4096, "ab".toUTF8.toList⟩ ⟨7, []⟩ = some [avp] ∧
      (Found [avp] nameStr ⟨8192, "AB".toUTF8.toList⟩ avp [] ↔
        SameName nameStr ⟨4096, "ab".toUTF8.toList⟩ nameStr ⟨8192, "AB".toUTF8.toList⟩ ∧ Asked nameStr avp) := by
  refine ⟨⟨computeID "ab".toUTF8.toList, nameStr, some "ab".toUTF8.toList, .int 7⟩, by decide +kernel, ?_⟩
  refine (avp_found_exact_iff [] [] ⟨true, nameStr, ⟨4096, "ab".toUTF8.toList⟩, ⟨7, []⟩⟩ nameStr
    ⟨8192, "AB".toUTF8.toList⟩ _ (by decide +kernel)).mpr fun _ => ?_
  show StringsTold _ _
  unfold StringsTold
  decide +kernel

/-- An AVP that is added under "ab" is not found under "Ab"; one with the id 1 is found under 65537. -/
theorem avp_found_wrongly :
    (∃ avp, addAvp [] true nameStr ⟨4096, "ab".toUTF8.toList⟩ ⟨7, []⟩ = some [avp] ∧
      SameName nameStr ⟨4096, "ab".toUTF8.toList⟩ nameStr ⟨8192, "Ab".toUTF8.toList⟩ ∧ Asked nameStr avp ∧
      ¬Found [avp] nameStr ⟨8192, "Ab".toUTF8.toList⟩ avp []) ∧
    ∃ avp, addAvp [] true 0 ⟨1, []⟩ ⟨7, []⟩ = some [avp] ∧ ¬SameName 0 ⟨1, []⟩ 0 ⟨65537, []⟩ ∧
      Found [avp] 0 ⟨65537, []⟩ avp [] := by
  refine ⟨⟨⟨computeID "ab".toUTF8.toList, nameStr, some "ab".toUTF8.toList, .int 7⟩, by decide +kernel, ?_,
    by decide +kernel, fun h => ?_⟩, ⟨1, 0, none, .int 7⟩, by decide +kernel, ?_, ?_⟩
  · show map lower _ = map lower _
    decide +kernel
  · have hacc := (found_iff.mp h).1
    revert hacc
    decide +kernel
  · show ¬IntStr.n _ = IntStr.n _
    decide +kernel
  · exact found_iff.mpr ⟨by decide +kernel, [], rfl⟩

/-! ## Searching on -/

/-- `search_next_avp`: on from an AVP, with the flags of that AVP. -/
def searchNextAvp (avp : UsrAvp) (next : List UsrAvp) : Option (UsrAvp × List UsrAvp) :=
  if next = [] then none
  else if avp.flags &&& nameStr ≠ 0 then
    internalSearchNameAvp avp.id (avp.name.getD []) (avp.flags &&& scriptMask) next
  else internalSearchIDAvp avp.id (avp.flags &&& scriptMask) next

/-- A result, and what `search_next_avp` gives from it on, with the AVPs behind each; `none` when `fuel` runs out. -/
def searchOn : Nat → Option (UsrAvp × List UsrAvp) → Option (List (UsrAvp × List UsrAvp))
  | _, none => some []
  | 0, some _ => none
  | fuel + 1, some (avp, next) => (searchOn fuel (searchNextAvp avp next)).map ((avp, next) :: ·)

/-- `destroy_avp` of the AVP that stands in front of `n` others. -/
def destroyAvp : List UsrAvp → Nat → List UsrAvp
  | [], _ => []
  | avp :: next, n => if next.length = n then next else avp :: destroyAvp next n

/-- `destroy_avps`: the list, and how many AVPs were destroyed; `none` when `fuel` runs out. -/
def destroyAvps (flags : BitVec 16) (name : IntStr) (all : Bool) : Nat → List UsrAvp → Option (List UsrAvp × Nat)
  | 0, _ => none
  | fuel + 1, crtAvps =>
    match searchFirstAvp crtAvps flags name none with
    | none => some (crtAvps, 0)
    | some (_, next) =>
      if all then (destroyAvps flags name all fuel (destroyAvp crtAvps next.length)).map fun (l, n) => (l, n + 1)
      else some (destroyAvp crtAvps next.length, 1)

/-- All AVPs of a list with a property, with those behind each. -/
def allWith (p : UsrAvp → Prop) [DecidablePred p] : List UsrAvp → List (UsrAvp × List UsrAvp)
  | [] => []
  | avp :: next => if p avp then (avp, next) :: allWith p next else allWith p next

/-- Behind an AVP that was found, its own flags and those of the first search ask for the same AVPs of the name. -/
def Follows (flags : BitVec 16) (name : IntStr) : UsrAvp → List UsrAvp → Prop
  | _, [] => True
  | avp, c :: next =>
    if Named flags name c then
      (Asked avp.flags c ↔ Asked flags c) ∧ Follows flags name (if Asked flags c then c else avp) next
    else Follows flags name avp next

theorem strncasecmp_congr {s t u : List UInt8} (hst : s.length = t.length) (hut : u.length = t.length)
    (h : strncasecmp s t = true) : strncasecmp u s = strncasecmp u t := by
  induction u generalizing s t with
  | nil => rfl
  | cons c u ih =>
    obtain ⟨b, t, rfl⟩ := exists_cons_of_length_eq_add_one hut.symm
    obtain ⟨a, s, rfl⟩ := exists_cons_of_length_eq_add_one hst
    simp only [strncasecmp, Bool.and_eq_true, beq_iff_eq, Bool.or_eq_true] at h
    rw [strncasecmp, strncasecmp, h.1]
    by_cases hc : lower c = lower b
    · rcases h.2 with rfl | hs
      · -- only a zero byte is one up to case
        have hletter : ∀ k : Fin 26, 0 ≠ UInt8.ofNat (65 + k.val) ∧ 0 ≠ UInt8.ofNat (65 + k.val) + 0x20 := by decide
        rcases lower_eq_cases (hc.trans h.1.symm) with rfl | ⟨k, hk, -⟩ | ⟨k, rfl, hk⟩
        · simp
        · exact absurd hk (hletter k).1
        · exact absurd hk (hletter k).2
      · rw [ih (succ.inj hst) (succ.inj hut) hs]
    · rw [beq_eq_false_iff_ne.mpr hc]
      rfl

/-- **Searching on** takes the next AVP of the same name that the flags of the last one ask for. -/
theorem searchNextAvp_eq (h : Named flags name avp) (next : List UsrAvp) :
    searchNextAvp avp next = firstWith (fun c => Named flags name c ∧ Asked avp.flags c) next := by
  obtain ⟨hn, h⟩ := h
  unfold searchNextAvp
  split
  · rename_i hnil
    rw [hnil, firstWith]
  split at h
  · rename_i _ hstr
    obtain ⟨htext, hid, hflags, hname⟩ := h
    obtain ⟨avpName, hsome⟩ : ∃ avpName, avp.name = some avpName := by
      cases hsome : avp.name with
      | none => rw [hsome] at hname; cases hname
      | some avpName => exact ⟨avpName, rfl⟩
    rw [hsome, any_some, Bool.and_eq_true, beq_iff_eq] at hname
    rw [if_pos hflags, internalSearchNameAvp_eq, hsome, getD_some]
    refine firstWith_congr (fun c => ?_) next
    -- the name that was found and the one that was searched for compare in the same way
    have hany : (c.name.any fun s => s.length == avpName.length && strncasecmp s avpName) =
        c.name.any fun s => s.length == name.text.length && strncasecmp s name.text := by
      refine congrArg (fun f => c.name.any f) (funext fun s => ?_)
      rw [hname.1]
      by_cases hs : s.length = name.text.length
      · rw [strncasecmp_congr hname.1 hs hname.2]
      · rw [beq_eq_false_iff_ne.mpr hs]
        rfl
    rw [hany, Named, if_pos hstr, hid, Asked]
    tauto
  · rename_i _ hstr
    rw [if_neg (not_not.mpr h.2), internalSearchIDAvp_eq]
    refine firstWith_congr (fun c => ?_) next
    rw [Named, if_neg hstr, h.1, Asked]
    tauto

theorem firstWith_of_allWith [DecidablePred p] {rest : List (UsrAvp × List UsrAvp)}
    (h : allWith p l = (avp, next) :: rest) : firstWith p l = some (avp, next) := by
  induction l with
  | nil => cases h
  | cons x l ih =>
    rw [allWith] at h
    rw [firstWith]
    split at h
    · rename_i hx
      rw [if_pos hx]
      cases h
      rfl
    · rename_i hx
      rw [if_neg hx, ih h]

theorem firstWith_eq_none [DecidablePred p] (h : firstWith p l = none) : ∀ c ∈ l, ¬p c := by
  induction l with
  | nil => exact forall_mem_nil _
  | cons x l ih =>
    rw [firstWith] at h
    split at h
    · cases h
    · exact forall_mem_cons.mpr ⟨‹_›, ih h⟩

theorem firstWith_ne [DecidablePred p] : firstWith p next ≠ some (avp, next) := by
  intro h
  obtain ⟨-, pre, hpre⟩ := firstWith_some h
  have hlen := congrArg length hpre
  rw [length_append, length_cons] at hlen
  omega

theorem searchOn_eq_iff (next : List UsrAvp) (hfuel : next.length ≤ fuel) :
    searchOn fuel (firstWith (fun c => Named flags name c ∧ Asked avp.flags c) next) =
      some (allWith (Accepts flags name) next) ↔ Follows flags name avp next := by
  induction next generalizing avp fuel with
  | nil => exact iff_of_true (by cases fuel <;> rfl) trivial
  | cons c next ih =>
    obtain ⟨fuel, rfl⟩ : ∃ k, fuel = k + 1 := ⟨fuel - 1, by rw [length_cons] at hfuel; omega⟩
    have hle : next.length ≤ fuel := le_of_succ_le_succ hfuel
    rw [firstWith, allWith, Follows]
    by_cases hname : Named flags name c
    · rw [if_pos hname]
      by_cases hown : Asked avp.flags c <;> by_cases hasked : Asked flags c
      · rw [if_pos ⟨hname, hown⟩, if_pos ⟨hname, hasked⟩, if_pos hasked, searchOn, searchNextAvp_eq hname]
        rw [and_iff_right (iff_of_true hown hasked), ← ih hle, map_eq_some_iff]
        simp
      · refine iff_of_false (fun h => ?_) (fun h => hasked (h.1.mp hown))
        rw [if_pos ⟨hname, hown⟩, if_neg (fun h => hasked h.2), searchOn] at h
        obtain ⟨_, -, h⟩ := map_eq_some_iff.mp h
        exact firstWith_ne (firstWith_of_allWith h.symm)
      · refine iff_of_false (fun h => ?_) (fun h => hown (h.1.mpr hasked))
        rw [if_neg (fun h => hown h.2), if_pos ⟨hname, hasked⟩] at h
        cases hfirst : firstWith (fun c => Named flags name c ∧ Asked avp.flags c) next with
        | none => rw [hfirst, searchOn] at h; cases h
        | some r =>
          rw [hfirst, searchOn] at h
          obtain ⟨_, -, h⟩ := map_eq_some_iff.mp h
          cases h
          exact firstWith_ne hfirst
      · rw [if_neg (fun h => hown h.2), if_neg (fun h => hasked h.2), if_neg hasked]
        rw [and_iff_right (iff_of_false hown hasked), ih (le_succ_of_le hle)]
    · rw [if_neg hname, if_neg (fun h => hname h.1), if_neg (fun h => hname h.1)]
      exact ih (le_succ_of_le hle)

theorem destroyAvp_first [DecidablePred p] (h : firstWith p l = some (avp, next)) :
    (destroyAvp l next.length).filter (fun c => ¬p c) = l.filter (fun c => ¬p c) ∧
      (destroyAvp l next.length).countP (fun c => p c) + 1 = l.countP (fun c => p c) := by
  induction l with
  | nil => cases h
  | cons x l ih =>
    rw [firstWith] at h
    split at h
    · rename_i hx
      cases h
      simp [destroyAvp, hx]
    · rename_i hx
      obtain ⟨-, pre, hpre⟩ := firstWith_some h
      have hlen : l.length ≠ next.length := by
        rw [hpre, length_append, length_cons]
        omega
      rw [destroyAvp, if_neg hlen, filter_cons, filter_cons, (ih h).1, countP_cons_of_neg (by simpa using hx),
        countP_cons_of_neg (by simpa using hx)]
      exact ⟨rfl, (ih h).2⟩

/-- **Destroying all** AVPs leaves those that the search does not accept. -/
theorem destroyAvps_eq (crtAvps : List UsrAvp) (hfuel : crtAvps.countP (fun c => Accepts flags name c) < fuel) :
    destroyAvps flags name true fuel crtAvps =
      some (crtAvps.filter fun c => ¬Accepts flags name c, crtAvps.countP fun c => Accepts flags name c) := by
  induction fuel generalizing crtAvps with
  | zero => omega
  | succ fuel ih =>
    rw [destroyAvps, searchFirstAvp_eq, getD_none]
    cases hfirst : firstWith (Accepts flags name) crtAvps with
    | none =>
      have hno := firstWith_eq_none hfirst
      rw [filter_eq_self.mpr (by simpa using hno), countP_eq_zero.mpr (by simpa using hno)]
    | some r =>
      obtain ⟨hrest, hcount⟩ := destroyAvp_first hfirst
      dsimp only
      rw [if_pos rfl, ih _ (by omega), hrest, ← hcount]
      rfl

/-- Searching on gives the AVPs that the first search accepts, each once and in order, exactly when the flags of each
AVP that is found ask for the same AVPs as those of the search. -/
theorem searchOn_accepts_iff (crtAvps : List UsrAvp) (hfuel : crtAvps.length ≤ fuel) :
    searchOn (fuel + 1) (firstWith (Accepts flags name) crtAvps) = some (allWith (Accepts flags name) crtAvps) ↔
      ∀ avp next, firstWith (Accepts flags name) crtAvps = some (avp, next) → Follows flags name avp next := by
  induction crtAvps with
  | nil => simp [firstWith, searchOn, allWith]
  | cons c next ih =>
    rw [firstWith, allWith]
    by_cases hc : Accepts flags name c
    · rw [if_pos hc, if_pos hc, searchOn, searchNextAvp_eq hc.1, map_eq_some_iff]
      simp only [cons.injEq, true_and, some.injEq, Prod.mk.injEq, exists_eq_right]
      rw [searchOn_eq_iff next (le_of_succ_le hfuel)]
      constructor
      · rintro h _ _ ⟨rfl, rfl⟩
        exact h
      · intro h
        exact h c next ⟨rfl, rfl⟩
    · rw [if_neg hc, if_neg hc]
      exact ih (le_of_succ_le hfuel)

/-- What is found by searching on has the name of the search, by its own test. -/
theorem searchOn_named {found : List (UsrAvp × List UsrAvp)} (hfirst : Named flags name avp)
    (h : searchOn fuel (some (avp, next)) = some found) : ∀ x ∈ found, Named flags name x.1 := by
  induction fuel generalizing avp next found with
  | zero => cases h
  | succ fuel ih =>
    rw [searchOn, searchNextAvp_eq hfirst] at h
    obtain ⟨rest, hrest, rfl⟩ := map_eq_some_iff.mp h
    refine forall_mem_cons.mpr ⟨hfirst, ?_⟩
    cases hnext : firstWith (fun c => Named flags name c ∧ Asked avp.flags c) next with
    | none =>
      rw [hnext, searchOn] at hrest
      cases hrest
      exact forall_mem_nil _
    | some r =>
      rw [hnext] at hrest
      exact ih (firstWith_some hnext).1.1 hrest

/-! ## The AVPs of a name -/

/-- The calls that succeed, the last one first. -/
def succeeded (calls : List Add) : List Add := (calls.filter fun a => (a.call []).isSome).reverse

theorem Add.call_eq (a : Add) (l : List UsrAvp) : a.call l = (a.call []).map (· ++ l) := by
  simp only [Add.call, addAvp]
  split_ifs <;> rfl

theorem addAvps_eq (calls : List Add) : addAvps [] calls = (succeeded calls).map Add.avp := by
  induction calls using List.reverseRecOn with
  | nil => rfl
  | append_singleton calls a ih =>
    have hstep : addAvps [] (calls ++ [a]) = (a.call (addAvps [] calls)).getD (addAvps [] calls) := foldl_concat ..
    rw [hstep, ih, Add.call_eq]
    cases hcall : a.call [] with
    | none => simp [hcall, succeeded]
    | some l =>
      obtain ⟨-, -, rfl⟩ := Add.call_some hcall
      simp [hcall, succeeded]

/-- An AVP was added under the name that is searched for, and the flags of the search ask for it. -/
def Wanted (flags : BitVec 16) (name : IntStr) (a : Add) : Prop :=
  SameName a.flags a.name flags name ∧ Asked flags a.avp

instance (flags flags' : BitVec 16) (n m : IntStr) : Decidable (SameName flags n flags' m) := by
  unfold SameName
  split <;> infer_instance

instance (flags : BitVec 16) (name : IntStr) : DecidablePred (Wanted flags name) := fun _ =>
  inferInstanceAs (Decidable (_ ∧ _))

/-- The AVPs that are wanted, with those behind each. -/
def wantedAvps (flags : BitVec 16) (name : IntStr) : List Add → List (UsrAvp × List UsrAvp)
  | [] => []
  | a :: adds =>
    if Wanted flags name a then (a.avp, adds.map Add.avp) :: wantedAvps flags name adds else wantedAvps flags name adds

/-- Searching on gives the AVPs that are wanted, each once and in order, and destroying all takes out the same ones. -/
def Enumerates (flags : BitVec 16) (name : IntStr) (adds : List Add) : Prop :=
  let crtAvps := adds.map Add.avp
  searchOn (crtAvps.length + 1) (searchFirstAvp crtAvps flags name none) = some (wantedAvps flags name adds) ∧
    destroyAvps flags name true (crtAvps.length + 1) crtAvps =
      some ((adds.filter fun a => ¬Wanted flags name a).map Add.avp, adds.countP fun a => Wanted flags name a)

section
variable {adds : List Add}

theorem allWith_eq (h : ∀ a ∈ adds, Accepts flags name a.avp ↔ Wanted flags name a) :
    allWith (Accepts flags name) (adds.map Add.avp) = wantedAvps flags name adds := by
  induction adds with
  | nil => rfl
  | cons a adds ih =>
    obtain ⟨ha, hadds⟩ := forall_mem_cons.mp h
    simp only [map_cons, allWith, wantedAvps, ha, ih hadds]

/-- Every wanted AVP has an entry, which tells its place. -/
theorem mem_wantedAvps {l r : List Add} (h : adds = l ++ a :: r) (ha : Wanted flags name a) :
    (a.avp, r.map Add.avp) ∈ wantedAvps flags name adds := by
  subst h
  induction l with
  | nil => simp [wantedAvps, ha]
  | cons b l ih =>
    rw [cons_append, wantedAvps]
    split
    · exact mem_cons_of_mem _ ih
    · exact ih

/-- **The search and the request agree** on every AVP if the enumeration is right. What is wanted is found, and so it
is accepted; and `destroy_avps` counts as many as are accepted. -/
theorem Enumerates.agree (h : Enumerates flags name adds) :
    ∀ a ∈ adds, Accepts flags name a.avp ↔ Wanted flags name a := by
  obtain ⟨hsearch, hdestroy⟩ := h
  rw [destroyAvps_eq _ (lt_succ_of_le countP_le_length)] at hdestroy
  have hcount : (adds.countP fun a => Accepts flags name a.avp) = adds.countP fun a => Wanted flags name a := by
    have hpair := congrArg Prod.snd (some.inj hdestroy)
    rwa [countP_map] at hpair
  have himp : ∀ a ∈ adds, Wanted flags name a → Accepts flags name a.avp := by
    intro a ha hw
    obtain ⟨l, r, hadds⟩ := append_of_mem ha
    have hmem := mem_wantedAvps hadds hw
    rw [searchFirstAvp_eq, getD_none] at hsearch
    cases hfirst : firstWith (Accepts flags name) (adds.map Add.avp) with
    | none =>
      rw [hfirst, searchOn] at hsearch
      rw [← some.inj hsearch] at hmem
      cases hmem
    | some x =>
      rw [hfirst] at hsearch
      exact ⟨searchOn_named (firstWith_some hfirst).1.1 hsearch _ hmem, hw.2⟩
  intro a ha
  refine ⟨fun hacc => ?_, himp a ha⟩
  by_contra hno
  obtain ⟨l, r, rfl⟩ := append_of_mem ha
  have hle : ∀ l' : List Add, (∀ b ∈ l', Wanted flags name b → Accepts flags name b.avp) →
      (l'.countP fun b => Wanted flags name b) ≤ l'.countP fun b => Accepts flags name b.avp :=
    fun l' hl' => countP_mono_left fun b hb hw => by simpa using hl' b hb (by simpa using hw)
  have hl := hle l fun b hb => himp b (mem_append_left _ hb)
  have hr := hle r fun b hb => himp b (mem_append_right _ (mem_cons_of_mem _ hb))
  simp only [countP_append, countP_cons, hacc, hno, decide_true, decide_false, if_true] at hcount
  simp at hcount
  omega

end

/-- **Exactly when** the AVPs of a list that `add_avp` has built are enumerated by their name, each once and in order,
and `destroy_avps` takes out the same ones: when the name that is searched for and those of the AVPs that the flags ask
for are told apart as they should be, and behind the first AVP that is found the flags of the last one ask for the same
AVPs as those of the search. -/
theorem enumeration_exact_iff (calls : List Add) (flags : BitVec 16) (name : IntStr) :
    addAvps [] calls = (succeeded calls).map Add.avp ∧
      (Enumerates flags name (succeeded calls) ↔
        (∀ a ∈ succeeded calls, Asked flags a.avp → Told a.flags a.name flags name) ∧
          ∀ avp next, firstWith (Accepts flags name) (addAvps [] calls) = some (avp, next) →
            Follows flags name avp next) := by
  refine ⟨addAvps_eq calls, ?_⟩
  rw [addAvps_eq]
  have hadded : ∀ a ∈ succeeded calls, a.name.n ≠ 0 ∧ (a.flags &&& nameStr ≠ 0 → a.name.text ≠ []) := by
    intro a ha
    rw [succeeded, mem_reverse, mem_filter] at ha
    obtain ⟨l, hl⟩ := isSome_iff_exists.mp ha.2
    obtain ⟨hn, htext, -⟩ := Add.call_some hl
    exact ⟨hn, htext⟩
  generalize succeeded calls = adds at hadded
  have hagree : (∀ a ∈ adds, Asked flags a.avp → Told a.flags a.name flags name) ↔
      ∀ a ∈ adds, Accepts flags name a.avp ↔ Wanted flags name a := by
    refine forall₂_congr fun a ha => ?_
    rw [← named_added_iff (hadded a ha).1 (hadded a ha).2, Accepts, Wanted, and_congr_left_iff]
  rw [hagree, ← searchOn_accepts_iff (adds.map Add.avp) le_rfl]
  constructor
  · intro h
    refine ⟨h.agree, ?_⟩
    rw [allWith_eq h.agree]
    have hfound := h.1
    rwa [searchFirstAvp_eq] at hfound
  · rintro ⟨h, hall⟩
    refine ⟨?_, ?_⟩
    · rw [searchFirstAvp_eq, ← allWith_eq h]
      exact hall
    · rw [destroyAvps_eq _ (lt_succ_of_le countP_le_length), List.filter_map, countP_map]
      refine congrArg some (Prod.ext (congrArg (map Add.avp) ?_) (countP_congr fun a ha => by simp [h a ha]))
      exact filter_congr fun a ha => by simp [h a ha]

/-- Behind an AVP with the flag 0x100, one of the same name without flags is not found, though no flags were asked
for. -/
theorem enumeration_skips :
    let calls : List Add := [⟨true, 0, ⟨1, []⟩, ⟨8, []⟩⟩, ⟨true, 0x100, ⟨1, []⟩, ⟨7, []⟩⟩]
    addAvps [] calls = [⟨1, 0x100, none, .int 7⟩, ⟨1, 0, none, .int 8⟩] ∧
    searchOn 3 (searchFirstAvp (addAvps [] calls) 0 ⟨1, []⟩ none) =
      some [(⟨1, 0x100, none, .int 7⟩, [⟨1, 0, none, .int 8⟩])] ∧
    (wantedAvps 0 ⟨1, []⟩ (succeeded calls)).length = 2 ∧
    destroyAvps 0 ⟨1, []⟩ true 3 (addAvps [] calls) = some ([], 2) := by
  decide +kernel

/-! ## Runs -/

/-- `add_avp`, and `destroy_avps` with `all`. -/
inductive AvpCall
  | add (a : Add)
  | destroyAvps (flags : BitVec 16) (name : IntStr)

namespace AvpCall

def run (crtAvps : List UsrAvp) : AvpCall → List UsrAvp
  | add a => (a.call crtAvps).getD crtAvps
  | destroyAvps flags name => ((Avp.destroyAvps flags name true (crtAvps.length + 1) crtAvps).map Prod.fst).getD crtAvps

/-- The AVP that a call adds, if it succeeds. -/
def added : AvpCall → Option UsrAvp
  | add a => (a.call []).bind head?
  | destroyAvps _ _ => none

def destroys : AvpCall → UsrAvp → Bool
  | add _, _ => false
  | destroyAvps flags name, avp => Accepts flags name avp

/-- The AVP that the first of some calls adds, if none of the others destroys it. -/
def survivor : List AvpCall → Option UsrAvp
  | [] => none
  | call :: later => call.added.filter fun avp => later.all fun c => !c.destroys avp

/-- What is left of the list behind a call, and behind later ones. -/
theorem run_filter (crtAvps : List UsrAvp) (call : AvpCall) (p : UsrAvp → Bool) :
    (call.run crtAvps).filter p = (call.added.filter p).toList ++ crtAvps.filter fun avp =>
      !call.destroys avp && p avp := by
  cases call with
  | add a =>
    rw [run, Add.call_eq]
    cases h : a.call [] with
    | none => simp [added, destroys, h]
    | some l =>
      obtain ⟨-, -, rfl⟩ := Add.call_some h
      cases hp : p a.avp <;> simp [added, destroys, h, hp, Option.filter]
  | destroyAvps flags name =>
    rw [run, destroyAvps_eq crtAvps (lt_succ_of_le countP_le_length), map_some, getD_some, List.filter_filter]
    simp [added, destroys, Bool.and_comm]

/-- **The AVPs that are there**: those that were added and that no later call destroys, the last one first. -/
theorem avps_over_runs (calls : List AvpCall) : calls.foldl run [] = (calls.tails.filterMap survivor).reverse := by
  have hgen : ∀ l, calls.foldl run l =
      (calls.tails.filterMap survivor).reverse ++ l.filter fun avp => calls.all fun c => !c.destroys avp := by
    induction calls with
    | nil => exact fun l => by simp [survivor]
    | cons call calls ih =>
      intro l
      rw [foldl_cons, ih, run_filter, tails_cons, filterMap_cons, survivor]
      cases call.added.filter _ <;> simp
  simpa using hgen []

end AvpCall

end OpenSer.Avp
