import Mathlib.Data.List.TakeWhile
import OpenSer.Rr.Record

/-!
# The lumps of a Record-Route header field

What `record_route` and `add_rr_param` leave in the lumps of a request. A header field is made of two lumps at one
place: its begin hangs on the first one, its end on the second one, and the texts of the end are marked so that
`add_rr_param` finds the last of them.

* `addRrParams_single`, `addRrParams_double`: parameters after `record_route`.
* `addRrParams_unmarked`: parameters before it.
* `recordRoute_ok`: the lumps of `record_route`.
-/

namespace OpenSer.Rr

open List Lib Bool Nat
open OpenSer.Parser.Hname2 (HdrType)

/-! ## Typed lumps are lumps -/

theorem TypedHung.chain_forget (dir : OpenSer.Dir) : ∀ h : TypedHung, h.forget.chain dir = (h.chain dir).map Prod.fst
  | .null => rfl
  | .lump op type fl b a => by
    cases dir with
    | before => rw [forget, Hung.chain, chain, map_cons, b.chain_forget]
    | after => rw [forget, Hung.chain, chain, map_cons, a.chain_forget]

theorem TypedHung.chain_snoc (dir : OpenSer.Dir) (op : LumpOp) (type : HdrType) (fl : Nat) : ∀ h : TypedHung,
    (h.snoc dir op type fl).chain dir = h.chain dir ++ [(op, type)]
  | .null => by cases dir <;> rfl
  | .lump o ty f b a => by
    cases dir with
    | before => rw [snoc, chain, chain, b.chain_snoc, cons_append]
    | after => rw [snoc, chain, chain, a.chain_snoc, cons_append]

variable {zs : List (LumpOp × HdrType)} {y : LumpOp × HdrType}

/-- A lump hung further down a chain comes right behind the lump it is hung on. -/
theorem TypedHung.chain_hangBefore (op : LumpOp) (type : HdrType) (fl : Nat)
    : ∀ {xs : List (LumpOp × HdrType)} {h : TypedHung},
    h.chain .before = xs ++ y :: zs → (h.hangBefore op type fl xs.length).chain .before = xs ++ y :: (op, type) :: zs
  | [], .null, hc => by cases hc
  | _ :: _, .null, hc => by cases hc
  | [], .lump o ty f b a, hc => by
    obtain ⟨rfl, rfl⟩ := cons.inj hc
    rfl
  | x :: xs, .lump o ty f b a, hc => by
    obtain ⟨rfl, hrest⟩ := cons.inj hc
    exact congrArg _ (chain_hangBefore op type fl hrest)

/-! ## Finding the last text of a header field -/

/-- The lump has no text of a Record-Route header field. -/
def TypedLump.Unmarked (t : TypedLump) : Prop := ∀ x ∈ t.before.chain .before, isRrText x = false

theorem lastRrText_of_unmarked : ∀ {h : TypedHung} {depth : Nat} {last : Option Nat},
    (∀ x ∈ h.chain .before, isRrText x = false) → lastRrText h depth last = last
  | .null, _, _, _ => rfl
  | .lump op type fl b a, depth, last, hc => by
    have hhead : isRrText (op, type) = false := hc _ (mem_cons_self ..)
    rw [lastRrText, hhead, if_neg Bool.false_ne_true]
    exact lastRrText_of_unmarked (forall_mem_cons.mp hc).2

theorem lastRrText_eq (hy : isRrText y = true)
    (hzs : ∀ z ∈ zs, isRrText z = false) : ∀ {xs : List (LumpOp × HdrType)} {h : TypedHung} {depth : Nat}
    {last : Option Nat}, h.chain .before = xs ++ y :: zs → lastRrText h depth last = some (depth + xs.length)
  | [], .null, _, _, hc => by cases hc
  | _ :: _, .null, _, _, hc => by cases hc
  | [], .lump op type fl b a, depth, last, hc => by
    obtain ⟨rfl, rfl⟩ := cons.inj hc
    rw [lastRrText, hy, if_pos rfl]
    exact lastRrText_of_unmarked hzs
  | x :: xs, .lump op type fl b a, depth, last, hc => by
    obtain ⟨rfl, hrest⟩ := cons.inj hc
    rw [lastRrText, lastRrText_eq hy hzs hrest, length_cons]
    congr 1
    omega

theorem getRrParamLump_of_unmarked : ∀ {ts : List TypedLump} {root : Nat}, (∀ t ∈ ts, t.Unmarked) →
    (getRrParamLump ts root).1 = none
  | [], _, _ => rfl
  | t :: ts, root, h => by
    rw [getRrParamLump, lastRrText_of_unmarked (h t (mem_cons_self ..))]
    exact getRrParamLump_of_unmarked (forall_mem_cons.mp h).2

theorem getRrParamLump_append {t : TypedLump} {depth : Nat} (ht : lastRrText t.before 0 none = some depth)
    (bs : List TypedLump) : ∀ {as : List TypedLump} {root : Nat}, (∀ a ∈ as, a.Unmarked) →
    getRrParamLump (as ++ t :: bs) root = (some (root + as.length, depth), root + as.length + 1)
  | [], root, _ => by
    rw [nil_append, getRrParamLump, ht]
    rfl
  | a :: as, root, h => by
    rw [cons_append, getRrParamLump, lastRrText_of_unmarked (h a (mem_cons_self ..)), length_cons]
    rw [getRrParamLump_append ht bs (forall_mem_cons.mp h).2, add_right_comm root 1 as.length,
      add_assoc root as.length 1]

/-! ## A parameter after `record_route` -/

/-- The lump has the end of a header field on its `before` chain, with the texts `ps`. -/
structure TypedLump.Carries (front : List LumpOp) (ps : List (List Char)) (t : TypedLump) : Prop where
  chain : t.before.chain .before = front.map (fun op => (op, HdrType.other)) ++
    (ps.map fun p => (LumpOp.add p, HdrType.recordRoute)) ++ [(.add rrTerm, .other)]
  ne : ps ≠ []

variable {cfg : RrConfig} {id : Nat} {c : AddCall} {st : RrState} {t t₁ t₂ : TypedLump} {as ms bs : List TypedLump}
  {front front₁ front₂ : List LumpOp} {ps ps₁ ps₂ : List (List Char)}

theorem TypedLump.Carries.add (h : t.Carries front ps) : ∃ depth, lastRrText t.before 0 none = some depth ∧
    ∀ (fl : Nat) (p : List Char),
      TypedLump.Carries front (ps ++ [p]) { t with before := t.before.hangBefore (.add p) .recordRoute fl depth } := by
  obtain ⟨qs, q, rfl⟩ : ∃ qs q, ps = qs ++ [q] := ⟨ps.dropLast, ps.getLast h.ne, (dropLast_append_getLast h.ne).symm⟩
  have hchain : t.before.chain .before = (front.map (fun op => (op, HdrType.other)) ++
      qs.map fun p => (LumpOp.add p, HdrType.recordRoute)) ++
        (LumpOp.add q, HdrType.recordRoute) :: [(.add rrTerm, .other)] := by
    rw [h.chain]
    simp
  refine ⟨_, lastRrText_eq rfl (by simp [isRrText]) hchain, fun fl p => ⟨?_, by simp⟩⟩
  rw [zero_add]
  exact (TypedHung.chain_hangBefore _ _ fl hchain).trans (by simp)

/-- Only the texts of the lump differ. -/
structure TypedLump.SameBut (t t' : TypedLump) : Prop where
  op : t'.op = t.op
  after : t'.after = t.after

theorem modify_append (f : TypedLump → TypedLump) : ∀ (as : List TypedLump) (t : TypedLump) (bs : List TypedLump),
    (as ++ t :: bs).modify as.length f = as ++ f t :: bs
  | [], _, _ => rfl
  | a :: as, t, bs => by rw [cons_append, length_cons, modify_succ_cons, modify_append f as t bs, cons_append]

theorem insertRrParamLump_append (depth fl : Nat) (p : List Char) (as : List TypedLump) (t : TypedLump)
    (bs : List TypedLump) : insertRrParamLump fl p (as.length, depth) (as ++ t :: bs) =
      as ++ { t with before := t.before.hangBefore (.add p) .recordRoute fl depth } :: bs := by
  rw [insertRrParamLump, modify_append]

/-- The parameters whose calls have succeeded. -/
def accepted (rs : List (AddCall × Int)) : List (List Char) := (rs.filter (·.2 == 0)).map (·.1.param)

/-- The parameters of the first of two header fields: a call that fails for the second one leaves its parameter in the
first one. -/
def shown (rs : List (AddCall × Int)) : List (List Char) :=
  (rs.filter fun r => r.2 == 0 || (r.1.value && r.1.lump)).map (·.1.param)

theorem addRrParam_single (hd : cfg.enableDoubleRr = false) (has : ∀ a ∈ as, a.Unmarked) (ht : t.Carries front ps)
    (hst : st.addRm = as ++ t :: bs) : ∃ r t', addRrParam cfg id c st = (r, { st with addRm := as ++ t' :: bs }) ∧
      t.SameBut t' ∧ t'.Carries front (ps ++ accepted [(c, r)]) := by
  obtain ⟨depth, hdepth, hadd⟩ := ht.add
  unfold addRrParam
  rw [hst, getRrParamLump_append hdepth bs has, hd]
  dsimp only
  cases hmem : c.value && c.lump with
  | false => exact ⟨-1, t, by simp [← hst], ⟨rfl, rfl⟩, by simpa [accepted] using ht⟩
  | true =>
    rw [zero_add, insertRrParamLump_append]
    exact ⟨0, _, rfl, ⟨rfl, rfl⟩, by simpa [accepted] using hadd c.flags c.param⟩

theorem addRrParam_double (hd : cfg.enableDoubleRr = true) (has : ∀ a ∈ as, a.Unmarked) (hms : ∀ m ∈ ms, m.Unmarked)
    (h₁ : t₁.Carries front₁ ps₁) (h₂ : t₂.Carries front₂ ps₂) (hst : st.addRm = as ++ t₁ :: (ms ++ t₂ :: bs)) :
    ∃ r t₁' t₂', addRrParam cfg id c st = (r, { st with addRm := as ++ t₁' :: (ms ++ t₂' :: bs) }) ∧
      (t₁.SameBut t₁' ∧ t₁'.Carries front₁ (ps₁ ++ shown [(c, r)])) ∧
      t₂.SameBut t₂' ∧ t₂'.Carries front₂ (ps₂ ++ accepted [(c, r)]) := by
  obtain ⟨depth₁, hdepth₁, hadd₁⟩ := h₁.add
  obtain ⟨depth₂, hdepth₂, hadd₂⟩ := h₂.add
  unfold addRrParam
  rw [hst, getRrParamLump_append hdepth₁ _ has, hd]
  dsimp only
  cases hmem : c.value && c.lump with
  | false =>
    exact ⟨-1, t₁, t₂, by simp [← hst], ⟨⟨rfl, rfl⟩, by simpa [shown, hmem] using h₁⟩, ⟨rfl, rfl⟩,
      by simpa [accepted] using h₂⟩
  | true =>
    have hdrop : ∀ u : TypedLump, (as ++ u :: (ms ++ t₂ :: bs)).drop (as.length + 1) = ms ++ t₂ :: bs := fun u => by
      rw [drop_append, drop_eq_nil_of_le (by omega), Nat.add_sub_cancel_left]
      rfl
    rw [zero_add, insertRrParamLump_append, hdrop, getRrParamLump_append hdepth₂ bs hms]
    dsimp only
    cases hmem₂ : c.value2 && c.lump2 with
    | false =>
      exact ⟨-1, _, t₂, rfl, ⟨⟨rfl, rfl⟩, by simpa [shown, hmem] using hadd₁ c.flags c.param⟩, ⟨rfl, rfl⟩,
        by simpa [accepted] using h₂⟩
    | true =>
      have hinsert : ∀ u : TypedLump,
          insertRrParamLump c.flags c.param (as.length + 1 + ms.length, depth₂) (as ++ u :: (ms ++ t₂ :: bs)) =
            as ++ u :: (ms ++
              { t₂ with before := t₂.before.hangBefore (.add c.param) .recordRoute c.flags depth₂ } ::
                bs) := fun u => by
        have hins := insertRrParamLump_append depth₂ c.flags c.param (as ++ u :: ms) t₂ bs
        have hlen : as.length + 1 + ms.length = as.length + (ms.length + 1) := by omega
        rw [hlen]
        simpa using hins
      rw [hinsert]
      exact ⟨0, _, _, rfl, ⟨⟨rfl, rfl⟩, by simpa [shown] using hadd₁ c.flags c.param⟩, ⟨rfl, rfl⟩,
        by simpa [accepted] using hadd₂ c.flags c.param⟩

theorem accepted_cons (r : AddCall × Int) (rs : List (AddCall × Int)) :
    accepted (r :: rs) = accepted [r] ++ accepted rs := by
  simp only [accepted, filter_cons, filter_nil]
  split <;> rfl

theorem shown_cons (r : AddCall × Int) (rs : List (AddCall × Int)) : shown (r :: rs) = shown [r] ++ shown rs := by
  simp only [shown, filter_cons, filter_nil]
  split <;> rfl

variable (id) in
/-- **Parameters after `record_route`**, for one header field. -/
theorem addRrParams_single (hd : cfg.enableDoubleRr = false) (has : ∀ a ∈ as, a.Unmarked) (cs : List AddCall)
    (ht : t.Carries front ps) (hst : st.addRm = as ++ t :: bs) :
    ∃ t', (addRrParams cfg id cs st).2.addRm = as ++ t' :: bs ∧ t.SameBut t' ∧
      t'.Carries front (ps ++ accepted (addRrParams cfg id cs st).1) := by
  induction cs generalizing st t ps with
  | nil => exact ⟨t, hst, ⟨rfl, rfl⟩, by simpa [addRrParams, accepted] using ht⟩
  | cons c cs ih =>
    obtain ⟨r, t', hadd, hsame, ht'⟩ := addRrParam_single hd has ht hst
    have hst' : ({ st with addRm := as ++ t' :: bs } : RrState).addRm = as ++ t' :: bs := rfl
    obtain ⟨t'', hrest, hsame', ht''⟩ := ih ht' hst'
    rw [addRrParams, hadd]
    refine ⟨t'', hrest, ⟨hsame'.op.trans hsame.op, hsame'.after.trans hsame.after⟩, ?_⟩
    rw [accepted_cons, ← append_assoc]
    exact ht''

variable (id) in
/-- **Parameters after `record_route`**, for two header fields. -/
theorem addRrParams_double (hd : cfg.enableDoubleRr = true) (has : ∀ a ∈ as, a.Unmarked) (hms : ∀ m ∈ ms, m.Unmarked)
    (cs : List AddCall) (h₁ : t₁.Carries front₁ ps₁) (h₂ : t₂.Carries front₂ ps₂)
    (hst : st.addRm = as ++ t₁ :: (ms ++ t₂ :: bs)) :
    ∃ t₁' t₂', (addRrParams cfg id cs st).2.addRm = as ++ t₁' :: (ms ++ t₂' :: bs) ∧
      (t₁.SameBut t₁' ∧ t₁'.Carries front₁ (ps₁ ++ shown (addRrParams cfg id cs st).1)) ∧
      t₂.SameBut t₂' ∧ t₂'.Carries front₂ (ps₂ ++ accepted (addRrParams cfg id cs st).1) := by
  induction cs generalizing st t₁ t₂ ps₁ ps₂ with
  | nil =>
    exact ⟨t₁, t₂, hst, ⟨⟨rfl, rfl⟩, by simpa [addRrParams, shown] using h₁⟩, ⟨rfl, rfl⟩,
      by simpa [addRrParams, accepted] using h₂⟩
  | cons c cs ih =>
    obtain ⟨r, t₁', t₂', hadd, ⟨hsame₁, h₁'⟩, hsame₂, h₂'⟩ := addRrParam_double hd has hms h₁ h₂ hst
    have hst' : ({ st with addRm := as ++ t₁' :: (ms ++ t₂' :: bs) } : RrState).addRm =
      as ++ t₁' :: (ms ++ t₂' :: bs) := rfl
    obtain ⟨t₁'', t₂'', hrest, ⟨hsame₁', h₁''⟩, hsame₂', h₂''⟩ := ih h₁' h₂' hst'
    rw [addRrParams, hadd]
    refine ⟨t₁'', t₂'', hrest, ⟨⟨hsame₁'.op.trans hsame₁.op, hsame₁'.after.trans hsame₁.after⟩, ?_⟩,
      ⟨hsame₂'.op.trans hsame₂.op, hsame₂'.after.trans hsame₂.after⟩, ?_⟩
    · rw [shown_cons, ← append_assoc]
      exact h₁''
    · rw [accepted_cons, ← append_assoc]
      exact h₂''

/-! ## A parameter before it -/

/-- What the buffer holds under an id. -/
def RrState.stale (st : RrState) (id : Nat) : List Char := if st.rrParamMsg = id then st.rrParamBuf else []

variable (cfg id) in
/-- **One parameter before** goes to the buffer, behind what is there under the same id. -/
theorem addRrParam_unmarked (h : ∀ t ∈ st.addRm, t.Unmarked) (c : AddCall) :
    (addRrParam cfg id c st).1 = (if rrParamBufSize < (st.stale id).length + c.param.length then -1 else 0) ∧
      (addRrParam cfg id c st).2.addRm = st.addRm ∧
      (addRrParam cfg id c st).2.stale id =
        st.stale id ++ (accepted [(c, (addRrParam cfg id c st).1)]).flatten := by
  have hnone : (getRrParamLump st.addRm 0).1 = none := getRrParamLump_of_unmarked h
  unfold addRrParam
  generalize getRrParamLump st.addRm 0 = found at hnone
  obtain ⟨last, root⟩ := found
  obtain rfl : last = none := hnone
  by_cases hid : st.rrParamMsg = id
  · simp only [ne_eq, hid, not_true_eq_false, if_false, RrState.stale, if_true]
    split
    · simp [accepted]
    · simp [accepted]
  · simp only [ne_eq, hid, not_false_eq_true, if_true, RrState.stale, if_false]
    split
    · simp [accepted]
    · simp [accepted]

variable (cfg id) in
theorem addRrParams_unmarked (h : ∀ t ∈ st.addRm, t.Unmarked) (cs : List AddCall) :
    (addRrParams cfg id cs st).2.addRm = st.addRm ∧
      (addRrParams cfg id cs st).2.stale id = st.stale id ++ (accepted (addRrParams cfg id cs st).1).flatten := by
  induction cs generalizing st with
  | nil => exact ⟨rfl, by simp [addRrParams, accepted]⟩
  | cons c cs ih =>
    obtain ⟨-, hadd, hstale⟩ := addRrParam_unmarked cfg id h c
    have hnext : ∀ t ∈ (addRrParam cfg id c st).2.addRm, t.Unmarked := by rwa [hadd]
    obtain ⟨hadd', hstale'⟩ := ih hnext
    rw [addRrParams]
    refine ⟨hadd'.trans hadd, ?_⟩
    rw [accepted_cons, flatten_append, ← append_assoc, ← hstale]
    exact hstale'

variable (cfg id) in
/-- No text is accepted exactly when none that is not empty fits into the buffer. -/
theorem accepted_eq_nil_iff (h : ∀ t ∈ st.addRm, t.Unmarked) (cs : List AddCall) :
    (accepted (addRrParams cfg id cs st).1).flatten = [] ↔
      ∀ c ∈ cs, c.param = [] ∨ rrParamBufSize < (st.stale id).length + c.param.length := by
  induction cs generalizing st with
  | nil => simp [addRrParams, accepted]
  | cons c cs ih =>
    obtain ⟨hcode, hadd, hstale⟩ := addRrParam_unmarked cfg id h c
    have hnext : ∀ t ∈ (addRrParam cfg id c st).2.addRm, t.Unmarked := by rwa [hadd]
    have hrest := ih hnext
    rw [addRrParams]
    rw [accepted_cons, flatten_append, append_eq_nil_iff, forall_mem_cons]
    by_cases hfit : rrParamBufSize < (st.stale id).length + c.param.length
    · rw [if_pos hfit] at hcode
      have hnil : accepted [(c, (addRrParam cfg id c st).1)] = [] := by simp [accepted, hcode]
      rw [hnil, flatten_nil, append_nil] at hstale
      rw [hnil, hrest, hstale]
      simp [hfit]
    · rw [if_neg hfit] at hcode
      have hone : accepted [(c, (addRrParam cfg id c st).1)] = [c.param] := by simp [accepted, hcode]
      rw [hone, flatten_singleton] at hstale ⊢
      by_cases hparam : c.param = []
      · rw [hrest, hstale]
        simp [hparam]
      · simp [hparam, hfit]

/-! ## The lumps of `record_route` -/

/-- The list is split where a lump of offset `p` goes. -/
structure Placed (p : Nat) (as bs : List TypedLump) : Prop where
  upTo : ∀ a ∈ as, a.op.offset?.any (p < ·) = false
  behind : ∀ b ∈ bs.head?, b.op.offset?.any (p < ·) = true

variable {p : Nat} {ts : List TypedLump}

theorem placed_split (p : Nat) (ts : List TypedLump) : Placed p (upTo p ts) (behindOf p ts) := by
  refine ⟨fun a ha => ?_, fun b hb => ?_⟩
  · simpa using mem_takeWhile_imp ha
  · have hhead := head?_dropWhile_not (fun t : TypedLump => !t.op.offset?.any (p < ·)) ts
    rw [behindOf] at hb
    rw [Option.mem_def.mp hb] at hhead
    simpa using hhead

theorem link_of_placed (h : Placed p as bs) (t : TypedLump) : link p t (as ++ bs) = as ++ t :: bs := by
  have has : ∀ a ∈ as, (!a.op.offset?.any (p < ·)) = true := fun a ha => by rw [h.upTo a ha, Bool.not_false]
  have htake : bs.takeWhile (fun t => !t.op.offset?.any (p < ·)) = [] ∧
      bs.dropWhile (fun t => !t.op.offset?.any (p < ·)) = bs := by
    cases bs with
    | nil => exact ⟨rfl, rfl⟩
    | cons b bs =>
      have hb := h.behind b rfl
      exact ⟨takeWhile_cons_of_neg (by simp [hb]), dropWhile_cons_of_neg (by simp [hb])⟩
  rw [link, upTo, behindOf, takeWhile_append_of_pos has, dropWhile_append_of_pos has, htake.1, htake.2,
    append_nil]

theorem Placed.snoc (h : Placed p as bs) (ht : t.op = .nop p 0) : Placed p (as ++ [t]) bs := by
  refine ⟨forall_mem_append.mpr ⟨h.upTo, forall_mem_singleton.mpr ?_⟩, h.behind⟩
  rw [ht]
  simp [LumpOp.offset?]

def onto (dir : OpenSer.Dir) (is : List Insertion) : List (LumpOp × HdrType) :=
  (is.filter (·.dir = dir)).map fun i => (i.op, i.type)

/-- Texts that are inserted stand behind those that were there. -/
theorem insertAll_ok {fl : Nat} {is : List Insertion} {l l2 : TypedLump} (h : (insertAll fl is (l, l2)).1 = true) :
    ∃ l' l2', (insertAll fl is (l, l2)).2 = (l', l2') ∧
      (l'.op = l.op ∧ l'.before = l.before ∧ l'.after.chain .after = l.after.chain .after ++ onto .after is) ∧
      l2'.op = l2.op ∧ l2'.after = l2.after ∧ l2'.before.chain .before = l2.before.chain .before ++
        onto .before is := by
  induction is generalizing l l2 with
  | nil => exact ⟨l, l2, rfl, ⟨rfl, rfl, (append_nil _).symm⟩, rfl, rfl, (append_nil _).symm⟩
  | cons i is ih =>
    obtain ⟨pkg, dir, op, type⟩ := i
    cases pkg with
    | false => cases h
    | true =>
      cases dir with
      | after =>
        obtain ⟨l', l2', he, ⟨hop, hbefore, hafter⟩, h2⟩ := ih h
        refine ⟨l', l2', he, ⟨hop, hbefore, ?_⟩, h2⟩
        rw [hafter, TypedHung.chain_snoc, append_assoc]
        rfl
      | before =>
        obtain ⟨l', l2', he, h1, hop, hafter, hbefore⟩ := ih h
        refine ⟨l', l2', he, h1, hop, hafter, ?_⟩
        rw [hbefore, TypedHung.chain_snoc, append_assoc]
        rfl

/-- What stands in front of the texts of a header field. -/
def frontOf (inbound : Bool) : List LumpOp := if inbound then [] else [.addOpt .ifDiffRealms]

def bufTexts (buf : List Char) : List (List Char) := if buf.length ≠ 0 then [buf] else []

/-- The lumps that make the begin of a header field. -/
def beginOps (cfg : RrConfig) (user : List Char) (inbound : Bool) : List LumpOp :=
  [.add (rrPrefix ++ atUser user), .addSubst (if inbound then .rcvAll else .sndAll)] ++
    if cfg.enableDoubleRr then [.addOpt .ifDiffRealms, .add rrR2] else []

/-- **Two lumps that make a header field**: its begin, and its end with the texts `ps`. -/
structure HeaderField (cfg : RrConfig) (p : Nat) (user : List Char) (inbound : Bool) (ps : List (List Char))
    (l l2 : TypedLump) : Prop where
  op : l.op = .nop p 0
  before : l.before = .null
  after : l.after.chain .after = (frontOf inbound ++ beginOps cfg user inbound).map fun op => (op, HdrType.other)
  op2 : l2.op = .nop p 0
  after2 : l2.after = .null
  carries : l2.Carries (frontOf inbound) ps

variable {mem : HeaderMem} {fl : Nat} {buf user tag params : List Char} {inbound : Bool}

theorem onto_after_rrInsertions : onto .after (rrInsertions cfg mem buf user tag params inbound) =
    (beginOps cfg user inbound).map fun op => (op, HdrType.other) := by
  unfold onto rrInsertions beginOps
  cases cfg.enableDoubleRr <;> by_cases hbuf : buf.length ≠ 0 <;> simp [hbuf]

theorem onto_before_rrInsertions : onto .before (rrInsertions cfg mem buf user tag params inbound) =
    ((lrParam cfg ++ ftagParamOf tag ++ params) :: bufTexts buf).map (fun p => (LumpOp.add p, HdrType.recordRoute)) ++
      [(.add rrTerm, .other)] := by
  unfold onto rrInsertions bufTexts
  cases cfg.enableDoubleRr <;> by_cases hbuf : buf.length ≠ 0 <;> simp [hbuf]

theorem ite_ok {α : Type} {P : Prop} [Decidable P] {x y : Int × α} (h : ¬(if P then x else y).1 < 0)
    (hx : P → x.1 < 0) : (if P then x else y) = y ∧ ¬P ∧ ¬y.1 < 0 := by
  by_cases hP : P
  · rw [if_pos hP] at h
    exact absurd (hx hP) h
  · rw [if_neg hP] at h ⊢
    exact ⟨rfl, hP, h⟩

/-- `build_rr`, on anchors with nothing but the condition. -/
theorem buildRr_ok {l l2 : TypedLump} (hl : l.op = .nop p 0) (hlb : l.before = .null)
    (hla : l.after.chain .after = (frontOf inbound).map fun op => (op, HdrType.other)) (hl2 : l2.op = .nop p 0)
    (hl2a : l2.after = .null) (hl2b : l2.before.chain .before = (frontOf inbound).map fun op => (op, HdrType.other))
    (h : ¬(buildRr cfg mem fl buf user tag params inbound (l, l2)).1 < 0) :
    ∃ l' l2', (buildRr cfg mem fl buf user tag params inbound (l, l2)).2 = (l', l2') ∧
      HeaderField cfg p user inbound ((lrParam cfg ++ ftagParamOf tag ++ params) :: bufTexts buf) l' l2' := by
  unfold buildRr at h ⊢
  obtain ⟨he, -, h⟩ := ite_ok h fun _ => by simp
  rw [he]
  dsimp only at h ⊢
  cases hins : (insertAll fl (rrInsertions cfg mem buf user tag params inbound) (l, l2)).1 with
  | false =>
    rw [hins] at h
    exact absurd (show (-4 : Int) < 0 by decide) h
  | true =>
    obtain ⟨l', l2', he, ⟨hop, hbefore, hafter⟩, hop2, hafter2, hbefore2⟩ := insertAll_ok hins
    refine ⟨l', l2', he, hop.trans hl, hbefore.trans hlb, ?_, hop2.trans hl2, hafter2.trans hl2a, ?_, by simp⟩
    · rw [hafter, hla, onto_after_rrInsertions, ← map_append]
    · rw [hbefore2, hl2b, onto_before_rrInsertions, ← append_assoc]

theorem linkAnchors_ok (h : Placed p as bs) {l l2 : TypedLump} (hl : l.op = .nop p 0)
    (hmem : ¬(!(mem.anchor && mem.anchor2)) = true) : linkAnchors p mem (l, l2) (as ++ bs) = as ++ l :: l2 :: bs := by
  simp only [not_eq_true', not_eq_false, and_eq_true] at hmem
  have hsnoc := link_of_placed (h.snoc hl) l2
  rw [append_assoc, append_assoc] at hsnoc
  simp only [linkAnchors, hmem.1, hmem.2, if_true]
  rw [link_of_placed h]
  exact hsnoc

/-- The inbound header field, if it is built. -/
theorem inboundRr_ok (h : Placed p as bs) (hok : ¬(inboundRr cfg mem p fl buf user tag params (as ++ bs)).1 < 0) :
    ∃ l l2, (inboundRr cfg mem p fl buf user tag params (as ++ bs)).2 = as ++ l :: l2 :: bs ∧
      HeaderField cfg p user true ((lrParam cfg ++ ftagParamOf tag ++ params) :: bufTexts buf) l l2 := by
  unfold inboundRr at hok ⊢
  obtain ⟨he, hmem, hok⟩ := ite_ok hok fun _ => by simp
  rw [he]
  dsimp only at hok ⊢
  have hbuilt : ¬(buildRr cfg mem fl buf user tag params true (anchors p fl)).1 < 0 := fun hneg => by
    rw [if_pos hneg] at hok
    exact hok (by decide)
  obtain ⟨l, l2, he, hfield⟩ := buildRr_ok (p := p) rfl rfl rfl rfl rfl rfl hbuilt
  rw [← anchors] at he
  refine ⟨l, l2, ?_, hfield⟩
  rw [he, linkAnchors_ok h hfield.op hmem]

/-- The outbound header field, if it is built. -/
theorem outboundRr_ok (h : Placed p as bs) (hok : ¬(outboundRr cfg mem p fl buf user tag params (as ++ bs)).1 < 0) :
    ∃ l l2, (outboundRr cfg mem p fl buf user tag params (as ++ bs)).2 = as ++ l :: l2 :: bs ∧
      HeaderField cfg p user false ((lrParam cfg ++ ftagParamOf tag ++ params) :: bufTexts buf) l l2 := by
  unfold outboundRr at hok ⊢
  obtain ⟨he, hmem, hok⟩ := ite_ok hok fun _ => by simp
  rw [he]
  obtain ⟨he, hcond, hok⟩ := ite_ok hok fun _ => by simp
  rw [he]
  dsimp only at hok ⊢
  have hbuilt : ¬(buildRr cfg mem fl buf user tag params false (insertConds mem fl (anchors p fl))).1 < 0 :=
    fun hneg => by
      rw [if_pos hneg] at hok
      exact hok (by decide)
  have hconds : insertConds mem fl (anchors p fl) =
      ({ TypedLump.anchor p .recordRoute fl with
          after := TypedHung.snoc .after (.addOpt .ifDiffRealms) .other fl .null },
        { TypedLump.anchor p .other fl with
          before := TypedHung.snoc .before (.addOpt .ifDiffRealms) .other fl .null }) := by
    simp only [not_eq_true', not_eq_false, and_eq_true] at hcond
    simp only [insertConds, hcond.1, hcond.2, if_true]
    rfl
  rw [hconds] at hbuilt ⊢
  obtain ⟨l, l2, he, hfield⟩ := buildRr_ok (p := p) rfl rfl rfl rfl rfl rfl hbuilt
  refine ⟨l, l2, ?_, hfield⟩
  rw [he, linkAnchors_ok h hfield.op hmem]

variable {req : RrRequest} {out inb : HeaderMem} {user : List Char}

theorem buf_eq_stale (st : RrState) (id : Nat) :
    (if st.rrParamBuf.length ≠ 0 ∧ st.rrParamMsg ≠ id then [] else st.rrParamBuf) = st.stale id := by
  unfold RrState.stale
  by_cases hid : st.rrParamMsg = id
  · simp [hid]
  · by_cases hlen : st.rrParamBuf.length = 0
    · simp [hid, length_eq_zero_iff.mp hlen]
    · simp [hid, hlen]

/-- The texts of every header field that `record_route` adds. -/
def recordedTexts (cfg : RrConfig) (tag params stale : List Char) : List (List Char) :=
  (lrParam cfg ++ ftagParamOf tag ++ params) :: bufTexts stale

/-- The one header field of `record_route`, or the two, if it succeeds. -/
theorem recordRoute_ok (hp : Placed req.headers as bs) (hst : st.addRm = as ++ bs)
    (hok : ¬(recordRoute cfg req params out inb fl st).1 < 0) :
    ∃ user tag, req.userOf cfg = some user ∧ req.tagOf cfg = some tag ∧
      (cfg.enableDoubleRr = false → ∃ l l2, (recordRoute cfg req params out inb fl st).2.addRm = as ++ l :: l2 :: bs ∧
        HeaderField cfg req.headers user true (recordedTexts cfg tag params (st.stale req.id)) l l2) ∧
      (cfg.enableDoubleRr = true → ∃ k k2 l l2,
        (recordRoute cfg req params out inb fl st).2.addRm = as ++ k :: k2 :: l :: l2 :: bs ∧
        HeaderField cfg req.headers user false (recordedTexts cfg tag params (st.stale req.id)) k k2 ∧
        HeaderField cfg req.headers user true (recordedTexts cfg tag params (st.stale req.id)) l l2) := by
  unfold recordRoute at hok ⊢
  cases huser : req.userOf cfg with
  | none =>
    rw [huser] at hok
    exact absurd (show (-1 : Int) < 0 by decide) hok
  | some user =>
    cases htag : req.tagOf cfg with
    | none =>
      rw [huser, htag] at hok
      exact absurd (show (-2 : Int) < 0 by decide) hok
    | some tag =>
      rw [huser, htag] at hok
      rw [buf_eq_stale, hst] at hok ⊢
      dsimp only at hok ⊢
      obtain ⟨he, hfirst, hok⟩ := ite_ok hok fun h => h
      rw [he]
      obtain ⟨he, hsecond, -⟩ := ite_ok hok fun h => h
      rw [he]
      refine ⟨user, tag, rfl, rfl, fun hd => ?_, fun hd => ?_⟩
      · simp only [hd, false_eq_true, if_false] at hsecond ⊢
        exact inboundRr_ok hp hsecond
      · simp only [hd, if_true] at hfirst hsecond ⊢
        obtain ⟨k, k2, hk, hkfield⟩ := outboundRr_ok hp hfirst
        have hsplit : as ++ k :: k2 :: bs = (as ++ [k] ++ [k2]) ++ bs := by simp
        rw [hk, hsplit] at hsecond ⊢
        obtain ⟨l, l2, he, hfield⟩ := inboundRr_ok ((hp.snoc hkfield.op).snoc hkfield.op2) hsecond
        exact ⟨k, k2, l, l2, he.trans (by simp), hkfield, hfield⟩

theorem HeaderField.added {l l2 l2' : TypedLump} {ps' : List (List Char)}
    (h : HeaderField cfg p user inbound ps l l2) (hsame : l2.SameBut l2')
    (hcarries : l2'.Carries (frontOf inbound) ps') : HeaderField cfg p user inbound ps' l l2' :=
  ⟨h.op, h.before, h.after, hsame.op.trans h.op2, hsame.after.trans h.after2, hcarries⟩

theorem HeaderField.unmarked {l l2 : TypedLump} (h : HeaderField cfg p user inbound ps l l2) :
    l.Unmarked := by
  intro x hx
  rw [h.before] at hx
  cases hx

end OpenSer.Rr
