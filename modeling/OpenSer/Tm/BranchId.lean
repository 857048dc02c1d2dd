import Mathlib.Data.List.TakeWhile
import OpenSer.Tm.HTable

/-!
# Branch identifiers and reply matching

`branch_builder` prints a transaction's coordinates into the branch parameter of the Via it sends downstream, and
`t_reply_matching` reads them back from a reply. The printed text is
`z9hG4bK` hash `.` label-or-md5 `.` branch, the numbers in reversed hexadecimal.

* `branchBuilder_syn` gives the text of every transaction whose label is not negative as an `int`.
* `branchBuilder_syn_neg`: a label from `2 ^ 31` on is refused.
* `parseBranch_syn`: the printed text is split and decoded into the same coordinates.
* `findCell_of_mem`: the search then stops at a cell with the same label.
-/

namespace OpenSer.Tm

open Option List

def mcookie : Str := ['z', '9', 'h', 'G', '4', 'b', 'K']

def branchSeparator : Char := '.'

def md5Len : Nat := 32

def maxBranchParamLen : Nat := 7 + 8 + 1 + md5Len + 1 + 8 + 1

/-! ## Printing -/

/-- `branch_builder`: the value returned (the space left, `0` for a failure) and the text counted by `*len`. -/
def branchBuilder (hashIndex label : BitVec 32) (charV : Option Str) (branch : Int) : Nat × Str :=
  let size := maxBranchParamLen - mcookie.length
  let hash := int2reverseHex size hashIndex.toInt
  if hash.2.2 = -1 then (0, [])
  else if hash.2.1 = 0 then (0, [])
  else
    let size := hash.2.1 - 1
    let (mid, size, ret) : Str × Nat × Int := match charV with
      | some v => (v.take md5Len, size - md5Len, 1)
      | none => int2reverseHex size label.toInt
    if ret = -1 then (0, [])
    else if size = 0 then (0, [])
    else
      let br := int2reverseHex (size - 1) branch
      if br.2.2 = -1 then (0, [])
      else (br.2.1, mcookie ++ hash.1 ++ branchSeparator :: mid ++ branchSeparator :: br.1)

def tCalcBranch (synBranch : Bool) (t : Cell) (b : Int) : Nat × Str :=
  if synBranch then branchBuilder t.hashIndex t.label none b else branchBuilder t.hashIndex 0 (some t.md5) b

/-! ## Matching -/

/-- `eat_token_end`: the token and what follows it. -/
def eatTokenEnd (p : Str) : Str × Str := p.span fun c => c ≠ ' ' ∧ c ≠ '\t' ∧ c ≠ '\n' ∧ c ≠ '\r'

def eatToken2End (delim : Char) (p : Str) : Str × Str := p.span fun c => c ≠ delim ∧ c ≠ '\n' ∧ c ≠ '\r'

/-- A non-empty token, its separator, and at least one more character; `none` is `goto nomatch2`. -/
def branchToken (p : Str) : Option (Str × Str) :=
  let (token, n) := eatToken2End branchSeparator p
  if token = [] ∨ n.length < 2 ∨ n.head? ≠ some branchSeparator then none else some (token, n.tail)

def splitBranch (value : Str) : Option (Str × Str × Str) :=
  if value.length ≤ mcookie.length ∨ value.take mcookie.length ≠ mcookie then none
  else do
    let (hashi, p) ← branchToken (value.drop mcookie.length)
    let (mid, p) ← branchToken p
    let branchi := (eatTokenEnd p).1
    if branchi = [] then none else some (hashi, mid, branchi)

/-- What `t_reply_matching` decodes: the hash entry, the label (or the md5 text) and the branch. -/
structure BranchKey where
  hashIndex : Nat
  entryLabel : Int
  loopi : Str
  branchId : Nat
  deriving Repr, DecidableEq

/-- The first half of `t_reply_matching`: the split and the sanity check. -/
def parseBranch (synBranch : Bool) (value : Str) : Option BranchKey := do
  let (hashi, mid, branchi) ← splitBranch value
  let hashIndex := reverseHex2int hashi
  let branchId := reverseHex2int branchi
  let entryLabel := if synBranch then reverseHex2int mid else 0
  if hashIndex < 0 ∨ hashIndex ≥ tmTableEntries ∨ branchId < 0 ∨ branchId ≥ maxBranches ∨
      (if synBranch then entryLabel < 0 else mid.length ≠ md5Len) then none
  else some ⟨hashIndex.toNat, entryLabel, mid, branchId.toNat⟩

structure CseqBody where
  method : Str
  methodId : Method
  deriving Repr, DecidableEq

/-- A received reply: the branch parameter of its top Via, if any, and its CSeq. -/
structure Reply where
  via1Branch : Option Str
  cseq : CseqBody
  deriving Repr, DecidableEq

/-- "does method match?": a reply to a local CANCEL, or the transaction's own method. -/
def methodMatches (cseq : CseqBody) (pCell : Cell) (branchId : Nat) : Bool :=
  (cseq.methodId == .cancel && pCell.isInvite && (pCell.uac branchId).localCancelLen != 0) ||
    match pCell.request with
    | some req => if cseq.methodId ≠ .other then cseq.methodId == req.methodValue else cseq.method == pCell.method
    | none => cseq.method == pCell.method

/-- The tests made on one cell of the synonym list. -/
def cellMatches (synBranch : Bool) (key : BranchKey) (cseq : CseqBody) (pCell : Cell) : Bool :=
  -- the label is `unsigned`, so the `int` is converted for the comparison
  (if synBranch then pCell.label == BitVec.ofInt 32 key.entryLabel else pCell.md5 == key.loopi) &&
    decide (key.branchId < pCell.nrOfOutgoings) && methodMatches cseq pCell key.branchId

/-- `t_reply_matching`: the transaction and the branch a reply belongs to. -/
def tReplyMatching (synBranch : Bool) (table : STable) (pMsg : Reply) : Option (Cell × Nat) := do
  let key ← parseBranch synBranch (← pMsg.via1Branch)
  let pCell ← (table.entrys key.hashIndex).cells.find? (cellMatches synBranch key pMsg.cseq)
  some (pCell, key.branchId)

/-! ## The printed text -/

/-- The text `branch_builder` prints in `syn_branch` mode. -/
def synBranchText (hash label branch : Nat) : Str :=
  mcookie ++ revHex hash ++ branchSeparator :: revHex label ++ branchSeparator :: revHex branch

section Printing

variable {hashIndex label : BitVec 32} {branch : Nat}

section
variable (hh : hashIndex.toNat < tmTableEntries)
include hh

/-- The hash part takes at most four of the fifty-one characters behind the cookie. -/
theorem int2reverseHex_hash :
    int2reverseHex (maxBranchParamLen - mcookie.length) hashIndex.toInt =
      (revHex hashIndex.toNat, 51 - (revHex hashIndex.toNat).length, 1) ∧
      (revHex hashIndex.toNat).length ≤ 4 := by
  have hh' : hashIndex.toNat < 16 ^ 4 := hh
  refine ⟨?_, length_revHex_le (by decide) hh'⟩
  rw [toInt_of_lt (by omega)]
  exact int2reverseHex_nonneg (by decide) (hh'.trans (by decide))

/-- **The printed text** of a transaction with a label below `2 ^ 31`; there is always space left. -/
theorem branchBuilder_syn (hl : label.toNat < 2 ^ 31) (hb : branch < maxBranches) :
    (branchBuilder hashIndex label none branch).1 ≠ 0 ∧
      (branchBuilder hashIndex label none branch).2 = synBranchText hashIndex.toNat label.toNat branch := by
  obtain ⟨hhash, hhlen⟩ := int2reverseHex_hash hh
  have hllen : (revHex label.toNat).length ≤ 8 := length_revHex_le (by decide) (by omega)
  have hblen : (revHex branch).length ≤ 1 := length_revHex_le (by decide) (by simp only [maxBranches] at hb; omega)
  have hpow : ∀ k, 8 ≤ k → 2 ^ 31 < 16 ^ k := fun k hk =>
    lt_of_lt_of_le (by decide) (Nat.pow_le_pow_right (by decide : 0 < 16) hk)
  have hlabel : int2reverseHex (51 - (revHex hashIndex.toNat).length - 1) (label.toNat : Int) = _ :=
    int2reverseHex_nonneg (by omega) (hl.trans (hpow _ (by omega)))
  have hbranch : int2reverseHex (51 - (revHex hashIndex.toNat).length - 1 - (revHex label.toNat).length - 1)
      (branch : Int) = _ :=
    int2reverseHex_nonneg (by omega) (lt_trans (by simp only [maxBranches] at hb; omega) (hpow _ (by omega)))
  unfold branchBuilder
  simp only [hhash, toInt_of_lt hl, hlabel, hbranch]
  rw [if_neg (by decide), if_neg (by omega), if_neg (by decide), if_neg (by omega), if_neg (by decide)]
  exact ⟨by dsimp only; omega, rfl⟩

/-- **A label with the sign bit set is refused**: the shifted number never becomes zero. -/
theorem branchBuilder_syn_neg (hl : 2 ^ 31 ≤ label.toNat) :
    branchBuilder hashIndex label none branch = (0, []) := by
  obtain ⟨hhash, hhlen⟩ := int2reverseHex_hash hh
  unfold branchBuilder
  simp only [hhash]
  rw [if_neg (by decide), if_neg (by omega)]
  rw [if_pos (int2reverseHex_neg _ (toInt_neg_of_le hl))]

end

end Printing

/-! ## Reading the text back -/

theorem hexChar_ne : ∀ d < 16, hexChar d ≠ branchSeparator ∧ hexChar d ≠ '\n' ∧ hexChar d ≠ '\r' ∧
    hexChar d ≠ ' ' ∧ hexChar d ≠ '\t' := by decide

theorem branchToken_revHex (n : Nat) {rest : Str} (hr : rest ≠ []) :
    branchToken (revHex n ++ branchSeparator :: rest) = some (revHex n, rest) := by
  have hspan : eatToken2End branchSeparator (revHex n ++ branchSeparator :: rest) =
      (revHex n, branchSeparator :: rest) := by
    have hall : ∀ c ∈ revHex n, decide (c ≠ branchSeparator ∧ c ≠ '\n' ∧ c ≠ '\r') = true := by
      intro c hc
      obtain ⟨d, hd, rfl⟩ := mem_revHex hc
      obtain ⟨h1, h2, h3, -⟩ := hexChar_ne d hd
      simp [h1, h2, h3]
    unfold eatToken2End
    rw [span_eq_takeWhile_dropWhile, takeWhile_append_of_pos hall, dropWhile_append_of_pos hall]
    simp
  unfold branchToken
  rw [hspan]
  simp [revHex_ne_nil n, hr]

theorem eatTokenEnd_revHex (n : Nat) : (eatTokenEnd (revHex n)).1 = revHex n := by
  unfold eatTokenEnd
  rw [span_eq_takeWhile_dropWhile]
  refine takeWhile_eq_self_iff.mpr fun c hc => ?_
  obtain ⟨d, hd, rfl⟩ := mem_revHex hc
  obtain ⟨-, h2, h3, h4, h5⟩ := hexChar_ne d hd
  simp [h2, h3, h4, h5]

theorem splitBranch_syn (hash label branch : Nat) :
    splitBranch (synBranchText hash label branch) = some (revHex hash, revHex label, revHex branch) := by
  have hlen : ¬(synBranchText hash label branch).length ≤ mcookie.length := by
    simp only [synBranchText, length_append, length_cons]
    omega
  have htake : (synBranchText hash label branch).take mcookie.length = mcookie := by
    simp [synBranchText, append_assoc]
  have hdrop : (synBranchText hash label branch).drop mcookie.length =
      revHex hash ++ branchSeparator :: (revHex label ++ branchSeparator :: revHex branch) := by
    simp [synBranchText, append_assoc]
  unfold splitBranch
  rw [if_neg (by simp [hlen, htake]), hdrop, branchToken_revHex hash (by simp)]
  simp only [bind_eq_bind, bind_some, branchToken_revHex label (revHex_ne_nil branch),
    eatTokenEnd_revHex, revHex_ne_nil, if_false]

/-- **Round trip**: the printed text is decoded into the coordinates it was printed from. -/
theorem parseBranch_syn {hash label branch : Nat} (hh : hash < tmTableEntries) (hl : label < 2 ^ 31)
    (hb : branch < maxBranches) :
    parseBranch true (synBranchText hash label branch) = some ⟨hash, label, revHex label, branch⟩ := by
  have hh' : reverseHex2int (revHex hash) = hash := reverseHex2int_revHex (hh.trans (by decide))
  have hb' : reverseHex2int (revHex branch) = branch := reverseHex2int_revHex (hb.trans (by decide))
  unfold parseBranch
  rw [splitBranch_syn]
  simp only [bind_eq_bind, bind_some, if_true, hh', hb', reverseHex2int_revHex hl]
  rw [if_neg (by omega)]
  simp

/-! ## The search -/

/-- The reply's CSeq method is the transaction's own method. -/
def SameMethod (cseq : CseqBody) (t : Cell) : Prop :=
  cseq.method = t.method ∧ ∀ req, t.request = some req → cseq.methodId = req.methodValue

theorem methodMatches_of_same {cseq : CseqBody} {t : Cell} (h : SameMethod cseq t) (b : Nat) :
    methodMatches cseq t b = true := by
  unfold methodMatches
  cases hreq : t.request with
  | none => simp [h.1]
  | some req => simp [h.1, h.2 req hreq]

theorem findCell_of_mem {cells : List Cell} {t : Cell} {b : Nat} {cseq : CseqBody} (hash : Nat) (loopi : Str)
    (ht : t ∈ cells) (hb : b < t.nrOfOutgoings) (hm : SameMethod cseq t) :
    ∃ t' ∈ cells, t'.label = t.label ∧
      cells.find? (cellMatches true ⟨hash, (t.label.toNat : Int), loopi, b⟩ cseq) = some t' := by
  have hofInt : BitVec.ofInt 32 (t.label.toNat : Int) = t.label := by simp
  have hself : cellMatches true ⟨hash, (t.label.toNat : Int), loopi, b⟩ cseq t = true := by
    simp [cellMatches, hb, methodMatches_of_same hm]
  cases hfind : cells.find? (cellMatches true ⟨hash, (t.label.toNat : Int), loopi, b⟩ cseq) with
  | none => exact absurd hself (List.find?_eq_none.mp hfind t ht)
  | some t' =>
    refine ⟨t', mem_of_find?_eq_some hfind, ?_, rfl⟩
    have := List.find?_some hfind
    simp only [cellMatches, if_true, Bool.and_eq_true, beq_iff_eq, hofInt] at this
    exact this.1.1

/-! ## Reply routing -/

/-- A branch of a transaction is routable: its branch text is printed, and every reply that carries the text and the
transaction's method is matched to the transaction's hash entry and label and to that branch. -/
def ReplyRouted (table : STable) (t : Cell) (b : Nat) : Prop :=
  (tCalcBranch true t b).1 ≠ 0 ∧
    ∀ pMsg : Reply, pMsg.via1Branch = some (tCalcBranch true t b).2 → SameMethod pMsg.cseq t →
      ∃ t' ∈ (table.entrys t.hashIndex.toNat).cells, t'.label = t.label ∧
        tReplyMatching true table pMsg = some (t', b)

/-- **Replies are routed back exactly for the labels below `2 ^ 31`.** -/
theorem replyRouted_iff {table : STable} {t : Cell} {b : Nat} (hh : t.hashIndex.toNat < tmTableEntries)
    (ht : t ∈ (table.entrys t.hashIndex.toNat).cells) (hb : b < t.nrOfOutgoings) (hn : t.nrOfOutgoings ≤ maxBranches) :
    ReplyRouted table t b ↔ t.label.toNat < 2 ^ 31 := by
  constructor
  · rintro ⟨hsize, -⟩
    by_contra hl
    exact hsize (congrArg Prod.fst (branchBuilder_syn_neg hh (by omega)))
  · intro hl
    obtain ⟨hsize, htext⟩ := branchBuilder_syn hh hl (hb.trans_le hn)
    refine ⟨hsize, fun pMsg hvia hm => ?_⟩
    have hvia' : pMsg.via1Branch = some (synBranchText t.hashIndex.toNat t.label.toNat b) :=
      hvia.trans (congrArg some htext)
    obtain ⟨t', ht', hlabel, hfind⟩ := findCell_of_mem t.hashIndex.toNat (revHex t.label.toNat) ht hb hm
    refine ⟨t', ht', hlabel, ?_⟩
    unfold tReplyMatching
    simp only [hvia', bind_eq_bind, bind_some, parseBranch_syn hh hl (hb.trans_le hn), hfind]

def oneBranch : Cell := { method := ['B', 'Y', 'E'], nrOfOutgoings := 1 }

/-- A routable transaction: the first one of an entry whose labels start at zero. -/
theorem replyRouted_zero :
    ReplyRouted (insertIntoHashTableUnsafe (initHashTable fun _ => 0) oneBranch 5)
      { oneBranch with hashIndex := 5, label := 0 } 0 :=
  (replyRouted_iff (by decide) (mem_insertIntoHashTableUnsafe _ oneBranch 5) (by decide) (by decide)).mpr (by decide)

/-- The second transaction of an entry whose labels start at `RAND_MAX` gets no branch text. -/
theorem replyRouted_rand_max :
    let table := insertIntoHashTableUnsafe
      (insertIntoHashTableUnsafe (initHashTable fun _ => 2 ^ 31 - 1) oneBranch 5) oneBranch 5
    let t : Cell := { oneBranch with hashIndex := 5, label := 0x80000000 }
    t ∈ (table.entrys 5).cells ∧ tCalcBranch true t 0 = (0, []) ∧ ¬ReplyRouted table t 0 :=
  ⟨mem_insertIntoHashTableUnsafe _ oneBranch 5, by decide, fun h => h.1 (by decide)⟩

end OpenSer.Tm

