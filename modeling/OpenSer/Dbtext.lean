import Mathlib.Data.List.Lex
import Mathlib.Order.Compare
import OpenSer.UsrAvp

/-!
# Query conditions of dbtext

`dbt_row_match` and `dbt_cmp_val` of `dbt_res.c`. The comparison of two texts returns what `strncasecmp` returns, of
which only the sign counts, and the match asks for -1 and 1.

* `dbtCmpVal_signs`: the sign of a comparison is that of the order.
* `row_match_iff`: the rows and conditions for which the answer is right.
-/

namespace OpenSer.Dbtext

open List

structure DbtVal where
  nul : Bool
  intVal : Int := 0
  strVal : List UInt8 := []

inductive DbVal
  | nul
  | int (val : Int)
  | datetime (val : Int)
  | bitmap (val : Int)
  | string (val : List UInt8)
  | str (val : List UInt8)
  | blob (val : List UInt8)

inductive DbOp
  | eq | lt | gt | leq | geq

/-- A condition: the column, the operator (`OP_EQ` if `_op` is null) and the value. -/
structure Cond where
  key : Nat
  op : DbOp
  val : DbVal

variable (strncasecmp : List UInt8 → List UInt8 → Nat → Int) (fields : Nat → DbtVal)

def cmpInt (a b : Int) : Int := if a < b then -1 else if a > b then 1 else 0

def cmpStr (a b : List UInt8) : Int :=
  let l := min a.length b.length
  let n := strncasecmp a b l
  if n ≠ 0 then n else if a.length = b.length then 0 else if l = a.length then -1 else 1

def dbtCmpVal (vp : DbtVal) (v : DbVal) : Int :=
  match vp.nul, v with
  | true, .nul => 0
  | false, .nul => 1
  | true, _ => -1
  | false, .int b | false, .datetime b => cmpInt vp.intVal b
  | false, .bitmap b => cmpInt (vp.intVal % 2 ^ 32) b
  | false, .string b | false, .str b | false, .blob b => cmpStr strncasecmp vp.strVal b

def DbOp.accepts (res : Int) : DbOp → Bool
  | eq => res = 0
  | lt => res = -1
  | gt => res = 1
  | leq => res ≠ 1
  | geq => res ≠ -1

def dbtRowMatch : List Cond → Bool
  | [] => true
  | c :: cs => c.op.accepts (dbtCmpVal strncasecmp (fields c.key) c.val) && dbtRowMatch cs

/-! ## The order -/

def folded (s : List UInt8) : List Nat := s.map fun b => (Avp.lower b).toNat

/-- NULL is below every value; texts are in lexicographic order, ignoring case. -/
def order (vp : DbtVal) (v : DbVal) : Ordering :=
  match vp.nul, v with
  | true, .nul => .eq
  | false, .nul => .gt
  | true, _ => .lt
  | false, .int b | false, .datetime b => cmp vp.intVal b
  | false, .bitmap b => cmp (vp.intVal % 2 ^ 32) b
  | false, .string b | false, .str b | false, .blob b => cmp (folded vp.strVal) (folded b)

def DbOp.Holds (o : Ordering) : DbOp → Prop
  | eq => o = .eq
  | lt => o = .lt
  | gt => o = .gt
  | leq => o ≠ .gt
  | geq => o ≠ .lt

def Cond.Holds (c : Cond) : Prop := c.op.Holds (order (fields c.key) c.val)

/-- What is assumed of `strncasecmp`: the right sign. -/
structure RightSign : Prop where
  neg : ∀ a b n, strncasecmp a b n < 0 ↔ (folded a).take n < (folded b).take n
  pos : ∀ a b n, 0 < strncasecmp a b n ↔ (folded b).take n < (folded a).take n

/-! ## Far results -/

def DbOp.Strict (op : DbOp) : Prop := op = lt ∨ op = gt

/-- The results that the test takes for others. -/
def DbOp.Misses (res : Int) : DbOp → Prop
  | eq => False
  | lt | geq => res < -1
  | gt | leq => 1 < res

/-- The condition compares two texts on which `strncasecmp` goes beyond -1 or 1 where the operator looks. -/
def Cond.Far (c : Cond) : Prop :=
  match (fields c.key).nul, (fields c.key).strVal, c.val with
  | false, a, .string b | false, a, .str b | false, a, .blob b => c.op.Misses (strncasecmp a b (min a.length b.length))
  | _, _, _ => False

variable {strncasecmp fields}

/-- A result has the sign of an order. -/
def Signs (res : Int) (o : Ordering) : Prop := (res < 0 ↔ o = .lt) ∧ (0 < res ↔ o = .gt)

theorem cmpInt_signs (a b : Int) : Signs (cmpInt a b) (cmp a b) := by
  unfold Signs cmpInt cmp cmpUsing
  grind

theorem lt_iff_take {a b : List Nat} {l : Nat} (hl : l = min a.length b.length) :
    a < b ↔ a.take l < b.take l ∨ a.take l = b.take l ∧ a.length < b.length := by
  induction a generalizing b l with
  | nil => cases b <;> simp [hl]
  | cons x a ih =>
    cases b with
    | nil => simp [hl]
    | cons y b =>
      obtain rfl : l = min a.length b.length + 1 := by simp [hl, Nat.add_min_add_right]
      simp only [take_succ_cons, cons_lt_cons_iff, ih rfl, List.cons.injEq, length_cons, Nat.add_lt_add_iff_right]
      tauto

theorem cmpStr_signs (h : RightSign strncasecmp) (a b : List UInt8) :
    Signs (cmpStr strncasecmp a b) (cmp (folded a) (folded b)) := by
  have hlen : ∀ s : List UInt8, (folded s).length = s.length := fun s => length_map _
  have hmin : min a.length b.length = min (folded a).length (folded b).length := by rw [hlen, hlen]
  have hlt := lt_iff_take hmin
  have hgt := lt_iff_take (hmin.trans (min_comm ..))
  rw [← h.neg] at hlt
  rw [← h.pos] at hgt
  unfold Signs cmpStr cmp cmpUsing
  grind

theorem dbtCmpVal_signs (h : RightSign strncasecmp) (vp : DbtVal) (v : DbVal) :
    Signs (dbtCmpVal strncasecmp vp v) (order vp v) := by
  unfold dbtCmpVal order
  cases vp.nul <;> cases v
  all_goals first | exact cmpInt_signs _ _ | exact cmpStr_signs h _ _ | simp [Signs]

theorem not_misses (op : DbOp) {res : Int} (hlow : -1 ≤ res) (hhigh : res ≤ 1) : False ↔ op.Misses res := by
  cases op <;> unfold DbOp.Misses <;> grind

theorem far_iff (c : Cond) : c.Far strncasecmp fields ↔ c.op.Misses (dbtCmpVal strncasecmp (fields c.key) c.val) := by
  have hint : ∀ a b : Int, False ↔ c.op.Misses (cmpInt a b) := by
    intro a b
    apply not_misses <;> unfold cmpInt <;> grind
  have hstr : ∀ a b : List UInt8, c.op.Misses (strncasecmp a b (min a.length b.length)) ↔
      c.op.Misses (cmpStr strncasecmp a b) := by
    unfold cmpStr
    cases c.op <;> grind [DbOp.Misses]
  unfold Cond.Far dbtCmpVal
  cases (fields c.key).nul <;> cases c.val
  all_goals first | exact hint _ _ | exact hstr _ _ | exact not_misses c.op (by simp) (by simp)

/-- The test is right unless it misses the result. Then it is wrong, and `<` and `>` hold, `<=` and `>=` do not. -/
theorem Signs.judged {res : Int} {o : Ordering} (h : Signs res o) (op : DbOp) :
    (op.accepts res ↔ (op.Holds o ↔ ¬op.Misses res)) ∧ (op.Misses res → (op.Holds o ↔ op.Strict)) := by
  obtain ⟨hlt, hgt⟩ := h
  cases op <;> cases o <;> simp [DbOp.accepts, DbOp.Holds, DbOp.Misses, DbOp.Strict] at hlt hgt ⊢ <;> omega

theorem dbtRowMatch_eq (cs : List Cond) : dbtRowMatch strncasecmp fields cs = true ↔
    ∀ c ∈ cs, c.op.accepts (dbtCmpVal strncasecmp (fields c.key) c.val) = true := by
  induction cs with
  | nil => simp [dbtRowMatch]
  | cons c cs ih => rw [dbtRowMatch, Bool.and_eq_true, ih, forall_mem_cons]

/-- **The answer is right iff, when all conditions that are not far hold, there are far ones of both kinds or none.** -/
theorem row_match_iff (h : RightSign strncasecmp) (fields : Nat → DbtVal) (cs : List Cond) :
    (dbtRowMatch strncasecmp fields cs = true ↔ ∀ c ∈ cs, c.Holds fields) ↔
      ((∀ c ∈ cs, ¬c.Far strncasecmp fields → c.Holds fields) →
        ((∃ c ∈ cs, c.Far strncasecmp fields ∧ c.op.Strict) ↔ ∃ c ∈ cs, c.Far strncasecmp fields ∧ ¬c.op.Strict)) := by
  have hj : ∀ c : Cond, (c.op.accepts (dbtCmpVal strncasecmp (fields c.key) c.val) ↔
      (c.Holds fields ↔ ¬c.Far strncasecmp fields)) ∧ (c.Far strncasecmp fields → (c.Holds fields ↔ c.op.Strict)) := by
    intro c
    rw [far_iff]
    exact (dbtCmpVal_signs h _ _).judged c.op
  simp only [dbtRowMatch_eq, (hj _).1]
  by_cases hall : ∀ c ∈ cs, ¬c.Far strncasecmp fields → c.Holds fields
  · have haccepts : (∀ c ∈ cs, c.Holds fields ↔ ¬c.Far strncasecmp fields) ↔
        ¬∃ c ∈ cs, c.Far strncasecmp fields ∧ c.op.Strict := by
      simp only [not_exists, not_and]
      refine forall₂_congr fun c hc => ?_
      have hfar := (hj c).2
      tauto
    have hholds : (∀ c ∈ cs, c.Holds fields) ↔ ¬∃ c ∈ cs, c.Far strncasecmp fields ∧ ¬c.op.Strict := by
      simp only [not_exists, not_and, not_not]
      refine forall₂_congr fun c hc => ?_
      have hfar := (hj c).2
      tauto
    rw [haccepts, hholds, not_iff_not, imp_iff_right hall]
  · refine iff_of_true (iff_of_false (fun h => ?_) (fun h => ?_)) (fun h => absurd h hall)
    · exact hall fun c hc hfar => (h c hc).2 hfar
    · exact hall fun c hc _ => h c hc

/-- The difference of the first numbers that differ. -/
def firstDiff : List Nat → List Nat → Int
  | [], [] => 0
  | [], b :: _ => -(b + 1)
  | a :: _, [] => a + 1
  | a :: as, b :: bs => if a = b then firstDiff as bs else a - b

/-- A `strncasecmp` that returns the difference of the bytes in lower case. -/
def byteDiff (a b : List UInt8) (n : Nat) : Int := firstDiff ((folded a).take n) ((folded b).take n)

theorem firstDiff_signs (a b : List Nat) : (firstDiff a b < 0 ↔ a < b) ∧ (0 < firstDiff a b ↔ b < a) := by
  induction a generalizing b with
  | nil =>
    cases b <;> simp [firstDiff]
    omega
  | cons x a ih =>
    cases b with
    | nil =>
      simp [firstDiff]
      omega
    | cons y b =>
      rw [firstDiff, cons_lt_cons_iff, cons_lt_cons_iff]
      split
      · rename_i heq
        simp [heq, ih]
      · omega

theorem byteDiff_rightSign : RightSign byteDiff :=
  ⟨fun _ _ _ => (firstDiff_signs ..).1, fun _ _ _ => (firstDiff_signs ..).2⟩

/-- A row with a text, a number and a NULL. -/
def smallRow : Nat → DbtVal
  | 0 => ⟨false, 0, [97]⟩
  | 1 => ⟨false, 5, []⟩
  | _ => ⟨true, 0, []⟩

/-- The texts `a` and `B` are one apart. -/
theorem row_match_small :
    dbtRowMatch byteDiff smallRow [⟨0, .lt, .str [66]⟩, ⟨1, .geq, .int 3⟩, ⟨2, .leq, .string [120]⟩] = true ↔
      ∀ c ∈ [⟨0, .lt, .str [66]⟩, ⟨1, .geq, .int 3⟩, ⟨2, .leq, .string [120]⟩], Cond.Holds smallRow c := by
  refine (row_match_iff byteDiff_rightSign _ _).2 fun _ => ?_
  have hnear : ¬Cond.Far byteDiff smallRow ⟨0, .lt, .str [66]⟩ := by
    show ¬(_ < (-1 : Int))
    decide
  have hint : ¬Cond.Far byteDiff smallRow ⟨1, .geq, .int 3⟩ := id
  have hnull : ¬Cond.Far byteDiff smallRow ⟨2, .leq, .string [120]⟩ := id
  simp [hnear, hint, hnull]

/-- The texts `a` and `c` are two apart, and `a` is refused for `< c`. -/
theorem row_match_far : RightSign byteDiff ∧
    ¬(dbtRowMatch byteDiff smallRow [⟨0, .lt, .str [99]⟩] = true ↔
      ∀ c ∈ [⟨0, .lt, .str [99]⟩], Cond.Holds smallRow c) := by
  refine ⟨byteDiff_rightSign, fun h => ?_⟩
  have hholds : Cond.Holds smallRow ⟨0, .lt, .str [99]⟩ := by
    show _ = _
    decide
  exact absurd (h.2 (forall_mem_singleton.mpr hholds)) (by decide)

end OpenSer.Dbtext
