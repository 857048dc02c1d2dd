import OpenSer.Lib.Edits
import OpenSer.Lib.Traces
import OpenSer.MsgTranslator

/-!
# What the lumps of a message mean

A lump is an edit of the message: it deletes a range or nothing, and puts the texts that hang on it at its offset. A
text is there when the conditions it hangs under hold. `SipMsg.rewritten` is the message under all edits, and this
module relates it to what `build_req_buf_from_sip_req` computes.

* `chainLen_eq`, `chainCopy_eq`: both traversals of a chain agree on its text.
* `lumpsLen_eq`, `processLumps_eq`: repairing and copying are `Lib.repair` and `Lib.spliceTo`.
* `buildReq_splice`: the builder, on any lumps that lie within the message.
* `buildReq_eq`: the builder, on lumps that are well formed.
* `buildReq_over_runs`: the builder, after any calls that keep them so.
-/

namespace OpenSer

open Option List Lib Lump Edit SipMsg Nat

variable (msg : SipMsg) (sendSock : Option SocketInfo)

/-! ## The meaning of a lump -/

def condHolds (c : LumpConditions) : Bool := (lumpCheckOpt msg sendSock c fun _ => 0).1

/-- The text of a lump, unless it is a condition that does not hold. -/
def LumpOp.text? : LumpOp → Option (List Char)
  | .add value => some value
  | .addSubst subst => some (substLump msg sendSock subst)
  | .addOpt c => if condHolds msg sendSock c then some [] else none
  | .nop _ _ => some []
  | .del _ _ => some []

/-- The text of all lumps that hang here. -/
def Hung.text : Hung → List Char
  | .null => []
  | .lump op _ b a => match op.text? msg sendSock with
    | none => []
    | some s => s ++ (b.text ++ a.text)

/-- The offset of a lump, and the number of bytes it deletes. -/
def LumpOp.range : LumpOp → Nat × Nat
  | .nop offset _ => (offset, 0)
  | .del offset len => (offset, len)
  | _ => (0, 0)

/-- **A lump as an edit** of the message. -/
def Lump.edit (t : Lump) : Edit Char :=
  ⟨t.op.range.1, t.op.range.2, t.before.text msg sendSock ++ t.after.text msg sendSock⟩

def SipMsg.edits (newUri : Option (List Char)) : List (Edit Char) :=
  (newUri.map (Edit.mk msg.uri msg.uriLen)).toList ++ (msg.addRm ++ msg.bodyLumps).map (Lump.edit msg sendSock)

/-- **The message that should be sent**: without the bytes that some lump deletes, and with every text that is there. -/
def SipMsg.rewritten (newUri : Option (List Char)) : List Char := edited (msg.edits sendSock newUri) msg.buf

/-! ## Chains -/

def Hung.Straight (dir : Dir) : Hung → Prop
  | .null => True
  | .lump _ _ b a => match dir with
    | .before => a = .null ∧ b.Straight dir
    | .after => b = .null ∧ a.Straight dir

def chainText : List LumpOp → List Char
  | [] => []
  | op :: ops => match op.text? msg sendSock with
    | none => []
    | some s => s ++ chainText ops

/-- No condition of a chain is left to chance. -/
def NoRand (ops : List LumpOp) : Prop := ∀ op ∈ ops, op ≠ .addOpt .ifRand

variable {msg sendSock} {ops : List LumpOp} {rs : Rand}

theorem Hung.Straight.text {dir : Dir} : ∀ {h : Hung}, h.Straight dir →
    h.text msg sendSock = chainText msg sendSock (h.chain dir)
  | .null, _ => rfl
  | .lump op fl b a, hs => by
    cases dir with
    | before =>
      obtain ⟨rfl, hb⟩ := hs
      simp only [Hung.text, Hung.chain, chainText, hb.text, append_nil]
    | after =>
      obtain ⟨rfl, ha⟩ := hs
      simp only [Hung.text, Hung.chain, chainText, ha.text, nil_append]

theorem length_bracketed (brackets : Bool) (address : List Char) :
    (bracketed brackets address).length = address.length + bracketsLen brackets := by
  cases brackets <;> simp [bracketed, bracketsLen]

theorem length_protoName (proto : Proto) : (protoName proto).length = protoLen proto := by
  cases proto <;> rfl

theorem length_transportText (proto : Proto) : (transportText proto).length = transportLen proto := by
  cases proto <;> rfl

/-- **A substitution is as long as it was counted.** -/
theorem length_substLump (subst : LumpSubst) :
    (substLump msg sendSock subst).length = substLumpLen msg sendSock subst := by
  cases subst with
  | nop => rfl
  | rcvIp => cases h : msg.rcv.bindAddress <;> simp [substLump, substLumpLen, h, length_bracketed]
  | rcvPort => cases h : msg.rcv.bindAddress <;> simp [substLump, substLumpLen, h]
  | rcvProto => cases h : msg.rcv.bindAddress <;> simp [substLump, substLumpLen, h, length_protoName]
  | rcvAll =>
    cases h : msg.rcv.bindAddress with
    | none => simp [substLump, substLumpLen, h]
    | some b =>
      by_cases hport : b.portNo = sipPort
      · simp [substLump, substLumpLen, h, length_bracketed, length_transportText, hport]
      · simp [substLump, substLumpLen, h, length_bracketed, length_transportText, hport]
        omega
  | sndIp => cases sendSock <;> simp [substLump, substLumpLen, length_bracketed]
  | sndPort => cases sendSock <;> simp [substLump, substLumpLen]
  | sndProto => cases sendSock <;> simp [substLump, substLumpLen, length_protoName]
  | sndAll =>
    cases sendSock with
    | none => rfl
    | some s =>
      by_cases hport : s.portNo ≠ sipPort ∨ msg.setGlobalPort.length ≠ 0
      · simp only [substLump, substLumpLen, elim_some, if_pos hport, length_append, length_bracketed,
          length_transportText, length_cons]
        omega
      · simp only [substLump, substLumpLen, elim_some, if_neg hport, length_append, length_bracketed,
          length_transportText, length_nil]

theorem lumpCheckOpt_of_ne {c : LumpConditions} (h : c ≠ .ifRand) (rs : Rand) :
    lumpCheckOpt msg sendSock c rs = (condHolds msg sendSock c, rs) := by
  cases c <;> cases sendSock <;> first | rfl | exact absurd rfl h

variable (msg sendSock rs) in
theorem chainLen_eq (h : NoRand ops) (newLen : Nat) : ∃ n, chainLen msg sendSock ops newLen rs = (n, rs) ∧
    n ≡ newLen + (chainText msg sendSock ops).length [MOD 2 ^ 32] := by
  induction ops generalizing newLen with
  | nil => exact ⟨newLen, rfl, Nat.ModEq.refl _⟩
  | cons op ops ih =>
    have hops : NoRand ops := (forall_mem_cons.mp h).2
    have hadd : ∀ k, ∃ n, chainLen msg sendSock ops (u32add newLen k) rs = (n, rs) ∧
        n ≡ newLen + (k + (chainText msg sendSock ops).length) [MOD 2 ^ 32] := by
      intro k
      obtain ⟨n, hn, hmod⟩ := ih hops (u32add newLen k)
      refine ⟨n, hn, hmod.trans ?_⟩
      rw [← add_assoc]
      exact (mod_modEq ..).add_right _
    cases op with
    | add value =>
      obtain ⟨n, hn, hmod⟩ := hadd value.length
      exact ⟨n, hn, by rwa [chainText, LumpOp.text?, length_append]⟩
    | addSubst subst =>
      obtain ⟨n, hn, hmod⟩ := hadd (substLumpLen msg sendSock subst)
      exact ⟨n, hn, by rwa [chainText, LumpOp.text?, length_append, length_substLump]⟩
    | addOpt c =>
      have hc : c ≠ .ifRand := fun he => h _ (mem_cons_self ..) (congrArg _ he)
      rw [chainLen, lumpCheckOpt_of_ne hc, chainText, LumpOp.text?]
      by_cases hholds : condHolds msg sendSock c = true
      · simp only [hholds, if_true, nil_append]
        exact ih hops newLen
      · simp only [hholds, Bool.false_eq_true, if_false]
        exact ⟨newLen, rfl, Nat.ModEq.refl _⟩
    | nop | del =>
      exact ih hops newLen

theorem chainCopy_eq (h : NoRand ops) (newBuf : List Char) :
    chainCopy msg sendSock ops newBuf rs = (newBuf ++ chainText msg sendSock ops, rs) := by
  induction ops generalizing newBuf with
  | nil => rw [chainCopy, chainText, append_nil]
  | cons op ops ih =>
    have hops : NoRand ops := (forall_mem_cons.mp h).2
    cases op with
    | add value | addSubst subst => rw [chainCopy, ih hops, chainText, LumpOp.text?, append_assoc]
    | addOpt c =>
      have hc : c ≠ .ifRand := fun he => h _ (mem_cons_self ..) (congrArg _ he)
      rw [chainCopy, lumpCheckOpt_of_ne hc, chainText, LumpOp.text?]
      by_cases hholds : condHolds msg sendSock c = true
      · simp only [hholds, if_true, nil_append]
        exact ih hops newBuf
      · simp only [hholds, Bool.false_eq_true, if_false, append_nil]
    | nop | del => exact ih hops newBuf

/-- The parts of a message that conditions and substitutions read. -/
structure SameText (msg msg' : SipMsg) : Prop where
  rcv : msg'.rcv = msg.rcv
  setGlobalAddress : msg'.setGlobalAddress = msg.setGlobalAddress
  setGlobalPort : msg'.setGlobalPort = msg.setGlobalPort

variable {msg' : SipMsg} {n : Nat}

theorem chainText_congr (h : SameText msg msg') (ops : List LumpOp) :
    chainText msg' sendSock ops = chainText msg sendSock ops := by
  cases msg
  obtain ⟨rfl, rfl, rfl⟩ := h
  induction ops with
  | nil => rfl
  | cons op ops ih =>
    rw [chainText, ih]
    cases op with
    | addSubst subst => cases subst <;> rfl
    | addOpt c => cases c <;> cases sendSock <;> rfl
    | add | nop | del => rfl

/-! ## Lists of well formed lumps -/

/-- The lump marks a place of a message of `n` bytes or deletes a range of it. -/
def LumpOp.Within (n : Nat) : LumpOp → Prop
  | .nop offset _ => offset ≤ n
  | .del offset len => offset + len ≤ n
  | _ => False

theorem LumpOp.Within.kind {op : LumpOp} (h : op.Within n) :
    (∃ offset len, op = .nop offset len ∧ offset ≤ n) ∨ ∃ offset len, op = .del offset len ∧ offset + len ≤ n := by
  cases op with
  | nop offset len => exact .inl ⟨offset, len, rfl, h⟩
  | del offset len => exact .inr ⟨offset, len, rfl, h⟩
  | add value | addSubst subst | addOpt c => exact h.elim

/-- A lump of a list, with its texts in two chains. -/
structure Lump.Formed (n : Nat) (t : Lump) : Prop where
  within : t.op.Within n
  before : t.before.Straight .before
  after : t.after.Straight .after

def Lump.NoRand (t : Lump) : Prop := OpenSer.NoRand (t.before.chain .before) ∧ OpenSer.NoRand (t.after.chain .after)

variable (msg sendSock) in
/-- The edit that the traversals see: they follow the two chains only. -/
def Lump.seen (t : Lump) : Edit Char := ⟨t.op.range.1, t.op.range.2,
  chainText msg sendSock (t.before.chain .before) ++ chainText msg sendSock (t.after.chain .after)⟩

theorem Lump.seen_congr (h : SameText msg msg') :
    seen msg' sendSock = seen msg sendSock := by
  funext t
  rw [seen, chainText_congr h, chainText_congr h, seen]

theorem Lump.Formed.edit_eq {t : Lump} (h : t.Formed n) : t.edit msg sendSock = t.seen msg sendSock := by
  rw [edit, h.before.text, h.after.text, seen]

/-- The lump as `lumps_len` repairs it. -/
def LumpOp.cut (s : Nat) : LumpOp → LumpOp
  | .nop offset len => .nop (max offset s) len
  | .del offset len => .del (max offset s) (offset + len - max offset s)
  | op => op

def repairLumps : Nat → List Lump → List Lump
  | _, [] => []
  | s, t :: ts => { t with op := t.op.cut s } :: repairLumps (max (t.op.range.1 + t.op.range.2) s) ts

variable {n s : Nat} {op : LumpOp} {t : Lump} {ts : List Lump} {newLen : Nat}

theorem LumpOp.Within.edit_cut (h : op.Within n) (s : Nat) (text : List Char) :
    Edit.mk (op.cut s).range.1 (op.cut s).range.2 text = Edit.cut s ⟨op.range.1, op.range.2, text⟩ := by
  obtain ⟨offset, len, rfl, -⟩ | ⟨offset, len, rfl, -⟩ := h.kind
  · simp only [LumpOp.cut, LumpOp.range, Edit.cut, Edit.stop, Edit.mk.injEq, and_true, true_and]
    omega
  · rfl

theorem Lump.seen_cut (h : t.op.Within n) (s : Nat) :
    seen msg sendSock { t with op := t.op.cut s } = (t.seen msg sendSock).cut s := h.edit_cut s _

theorem LumpOp.Within.cut (h : op.Within n) (hs : s ≤ n) : (op.cut s).Within n := by
  obtain ⟨offset, len, rfl, h⟩ | ⟨offset, len, rfl, h⟩ := h.kind
  · exact max_le h hs
  · simp only [LumpOp.cut, LumpOp.Within]
    omega

theorem LumpOp.Within.stop_le (h : op.Within n) : op.range.1 + op.range.2 ≤ n := by
  obtain ⟨offset, len, rfl, h⟩ | ⟨offset, len, rfl, h⟩ := h.kind
  · exact h
  · exact h

variable (msg sendSock) in
theorem mainLen_eq (h : op.Within n) (hs : s ≤ n) (hn : n < 2 ^ 32) (newLen : Nat) :
    ∃ v, mainLen msg sendSock op s newLen = (op.cut s, max (op.range.1 + op.range.2) s, v) ∧
      v + (op.cut s).range.2 ≡ newLen [MOD 2 ^ 32] := by
  obtain ⟨offset, len, rfl, -⟩ | ⟨offset, len, rfl, hle⟩ := h.kind
  · refine ⟨newLen, ?_, Nat.ModEq.refl _⟩
    by_cases hlt : offset < s
    · simp [mainLen, LumpOp.cut, LumpOp.range, hlt, max_eq_right hlt.le]
    · simp [mainLen, LumpOp.cut, LumpOp.range, hlt, max_eq_left (not_lt.mp hlt)]
  · have hsub : ∀ k, k ≤ n → u32sub newLen k + k ≡ newLen [MOD 2 ^ 32] := by
      intro k hk
      unfold u32sub Nat.ModEq
      omega
    by_cases hlt : offset < s
    · refine ⟨u32sub newLen (offset + len - s), ?_, ?_⟩
      · have hlen : (if s - offset < len then len - (s - offset) else 0) = offset + len - s := by
          split <;> omega
        simp only [mainLen, if_pos hlt, hlen, LumpOp.cut, LumpOp.range, max_eq_right hlt.le, Prod.mk.injEq, and_true,
          true_and]
        rw [u32add_of_lt (by omega)]
        omega
      · simp only [LumpOp.cut, LumpOp.range, max_eq_right hlt.le]
        exact hsub _ (by omega)
    · refine ⟨u32sub newLen len, ?_, ?_⟩
      · simp only [mainLen, if_neg hlt, LumpOp.cut, LumpOp.range, max_eq_left (not_lt.mp hlt),
          Nat.add_sub_cancel_left, Prod.mk.injEq, and_true, true_and]
        rw [u32add_of_lt (by omega)]
        omega
      · simp only [LumpOp.cut, LumpOp.range, max_eq_left (not_lt.mp hlt), Nat.add_sub_cancel_left]
        exact hsub _ (by omega)

theorem lumpsLenLoop_cons (h : t.op.Within n) : lumpsLenLoop msg sendSock (t :: ts) s newLen rs =
    let before := chainLen msg sendSock (t.before.chain .before) newLen rs
    let main := mainLen msg sendSock t.op s before.1
    let after := chainLen msg sendSock (t.after.chain .after) main.2.2 before.2
    let rest := lumpsLenLoop msg sendSock ts main.2.1 after.1 after.2
    ({ t with op := main.1 } :: rest.1, rest.2) := by
  obtain ⟨op, fl, b, a⟩ := t
  obtain ⟨offset, len, rfl, -⟩ | ⟨offset, len, rfl, -⟩ := h.kind
  · rfl
  · rfl

variable (msg sendSock) in
/-- **`lumps_len` repairs** the lumps, whatever hangs on them. -/
theorem lumpsLenLoop_fst (hts : ∀ t ∈ ts, t.op.Within n) (hs : s ≤ n) (hn : n < 2 ^ 32) (newLen : Nat) (rs : Rand) :
    (lumpsLenLoop msg sendSock ts s newLen rs).1 = repairLumps s ts := by
  induction ts generalizing s newLen rs with
  | nil => rfl
  | cons t ts ih =>
    have ht := hts t (mem_cons_self ..)
    rw [lumpsLenLoop_cons ht]
    dsimp only
    obtain ⟨v, hmain, -⟩ := mainLen_eq msg sendSock ht hs hn
      (chainLen msg sendSock (t.before.chain .before) newLen rs).1
    rw [hmain, repairLumps, ih (forall_mem_cons.mp hts).2]
    exact max_le ht.stop_le hs

/-- A length of `n` bytes, when the edits are made in `len` bytes, as far as machine integers tell. -/
def Counts (n len : Nat) (es : List (Edit Char)) : Prop :=
  n + (es.map del).sum ≡ len + (es.map (·.text.length)).sum [MOD 2 ^ 32]

variable (msg sendSock rs) in
theorem lumpsLenLoop_snd (hts : ∀ t ∈ ts, t.op.Within n ∧ t.NoRand) (hs : s ≤ n) (hn : n < 2 ^ 32) (newLen : Nat) :
    ∃ v, (lumpsLenLoop msg sendSock ts s newLen rs).2 = (v, rs) ∧
      Counts v newLen ((repairLumps s ts).map (seen msg sendSock)) := by
  induction ts generalizing s newLen with
  | nil => exact ⟨newLen, rfl, Nat.ModEq.refl _⟩
  | cons t ts ih =>
    obtain ⟨ht, hrand⟩ := hts t (mem_cons_self ..)
    rw [lumpsLenLoop_cons ht]
    obtain ⟨b, hb, hbmod⟩ := chainLen_eq msg sendSock rs hrand.1 newLen
    obtain ⟨m, hm, hmmod⟩ := mainLen_eq msg sendSock ht hs hn b
    obtain ⟨a, ha, hamod⟩ := chainLen_eq msg sendSock rs hrand.2 m
    obtain ⟨v, hv, hvmod⟩ := ih (forall_mem_cons.mp hts).2 (max_le ht.stop_le hs) a
    simp only [hb, hm, ha, hv]
    refine ⟨v, rfl, ?_⟩
    have hdel : (seen msg sendSock { t with op := t.op.cut s }).del = (t.op.cut s).range.2 := rfl
    have htext := congrArg List.length (show (seen msg sendSock { t with op := t.op.cut s }).text =
      chainText msg sendSock (t.before.chain .before) ++ chainText msg sendSock (t.after.chain .after) from rfl)
    rw [length_append] at htext
    simp only [Counts, repairLumps, map_cons, sum_cons, hdel, htext]
    simp only [Counts, Nat.ModEq] at hbmod hmmod hamod hvmod ⊢
    omega

variable (msg sendSock rs) in
/-- **`lumps_len`**: the repaired lumps, and the bytes they add without those they delete. -/
theorem lumpsLen_eq (hts : ∀ t ∈ ts, t.op.Within n ∧ t.NoRand) (hn : n < 2 ^ 32) :
    ∃ v, lumpsLen msg sendSock ts rs = (repairLumps 0 ts, v, rs) ∧
      Counts v 0 ((repairLumps 0 ts).map (seen msg sendSock)) := by
  obtain ⟨v, hv, hmod⟩ := lumpsLenLoop_snd msg sendSock rs hts (zero_le n) hn 0
  have hfst := lumpsLenLoop_fst msg sendSock (fun t ht => (hts t ht).1) (zero_le n) hn 0 rs
  exact ⟨v, Prod.ext hfst hv, hmod⟩

/-! ## The builder -/

theorem map_seen_repairLumps (hts : ∀ t ∈ ts, t.op.Within n) (s : Nat) :
    (repairLumps s ts).map (seen msg sendSock) = repair s (ts.map (seen msg sendSock)) := by
  induction ts generalizing s with
  | nil => rfl
  | cons t ts ih =>
    rw [repairLumps, map_cons, map_cons, repair, stop_cut, seen_cut (hts t (mem_cons_self ..)),
      ih (forall_mem_cons.mp hts).2]
    rfl

theorem mem_repairLumps : ∀ {s : Nat} {ts : List Lump}, (∀ t ∈ ts, t.op.Within n) → s ≤ n → ∀ u ∈ repairLumps s ts,
    ∃ t ∈ ts, ∃ k ≤ n, u = { t with op := t.op.cut k }
  | s, t :: ts, hts, hs, u, hu => by
    rcases mem_cons.mp hu with rfl | hu
    · exact ⟨t, mem_cons_self .., s, hs, rfl⟩
    · have ht := hts t (mem_cons_self ..)
      obtain ⟨v, hv, k, hk, rfl⟩ := mem_repairLumps (forall_mem_cons.mp hts).2
        (max_le ht.stop_le hs) u hu
      exact ⟨v, mem_cons_of_mem _ hv, k, hk, rfl⟩

theorem within_repairLumps (hts : ∀ t ∈ ts, t.op.Within n) (hs : s ≤ n) : ∀ u ∈ repairLumps s ts, u.op.Within n := by
  intro u hu
  obtain ⟨t, ht, k, hk, rfl⟩ := mem_repairLumps hts hs u hu
  exact (hts t ht).cut hk

theorem noRand_repairLumps (hts : ∀ t ∈ ts, t.op.Within n ∧ t.NoRand) (hs : s ≤ n) :
    ∀ u ∈ repairLumps s ts, u.NoRand := by
  intro u hu
  obtain ⟨t, ht, k, -, rfl⟩ := mem_repairLumps (fun t ht => (hts t ht).1) hs u hu
  exact (hts t ht).2

theorem copyAt_eq (ht : t.op.Within msg.buf.length) (hr : t.NoRand) (st : Copied) (h : ¬t.op.range.1 < st.sOffset) :
    copyAt msg sendSock t t.op.range.1 t.op.range.2 st = some
      ⟨st.newBuf ++ ((msg.buf.drop st.sOffset).take (t.op.range.1 - st.sOffset) ++ (t.seen msg sendSock).text),
        t.op.range.1 + t.op.range.2, st.rs⟩ := by
  have hstop := ht.stop_le
  have hlen := msg.len_lt
  rw [copyAt, if_neg h]
  dsimp only
  rw [if_neg (by omega), chainCopy_eq hr.1, chainCopy_eq hr.2, u32add_of_lt (by omega), seen]
  simp only [append_assoc]

theorem processLumps_cons (ht : t.op.Within n) (st : Copied) : processLumps msg sendSock (t :: ts) st =
    (copyAt msg sendSock t t.op.range.1 t.op.range.2 st).bind (processLumps msg sendSock ts) := by
  rw [processLumps]
  obtain ⟨offset, len, hop, -⟩ | ⟨offset, len, hop, -⟩ := ht.kind
  · rw [hop]
    rfl
  · rw [hop]
    rfl

/-- **`process_lumps` splices** the edits of the lumps into the message. -/
theorem processLumps_eq (hts : ∀ t ∈ ts, t.op.Within msg.buf.length ∧ t.NoRand) (st : Copied) :
    processLumps msg sendSock ts st = some
      ⟨st.newBuf ++ (spliceTo msg.buf st.sOffset (ts.map (seen msg sendSock))).1,
        (spliceTo msg.buf st.sOffset (ts.map (seen msg sendSock))).2, st.rs⟩ := by
  induction ts generalizing st with
  | nil => rw [processLumps, map_nil, spliceTo, append_nil]
  | cons t ts ih =>
    obtain ⟨ht, hr⟩ := hts t (mem_cons_self ..)
    have hts' : ∀ u ∈ ts, u.op.Within msg.buf.length ∧ u.NoRand := (forall_mem_cons.mp hts).2
    have hpos : (t.seen msg sendSock).pos = t.op.range.1 := rfl
    rw [processLumps_cons ht, map_cons, spliceTo, hpos]
    by_cases hlt : t.op.range.1 < st.sOffset
    · rw [if_pos hlt, copyAt, if_pos hlt, bind_some, ih hts']
    · rw [if_neg hlt, copyAt_eq ht hr st hlt, bind_some, ih hts']
      simp only [append_assoc]
      rfl

theorem processBoth_eq (sendSock : Option SocketInfo) {addRm bodyLumps : List Lump}
    (hts : ∀ t ∈ addRm ++ bodyLumps, t.op.Within msg.buf.length ∧ t.NoRand) (st : Copied)
    (hst : st.sOffset ≤ msg.buf.length) :
    ∃ st', (processLumps msg sendSock addRm st).bind (processLumps msg sendSock bodyLumps) = some st' ∧
      st'.sOffset ≤ msg.buf.length ∧ st'.newBuf ++ msg.buf.drop st'.sOffset =
        st.newBuf ++ splice msg.buf st.sOffset ((addRm ++ bodyLumps).map (seen msg sendSock)) := by
  rw [processLumps_eq (forall_mem_append.mp hts).1, bind_some,
    processLumps_eq (forall_mem_append.mp hts).2]
  refine ⟨_, rfl, ?_, ?_⟩
  · have hstop : ∀ e ∈ (addRm ++ bodyLumps).map (seen msg sendSock), e.stop ≤ msg.buf.length :=
      forall_mem_map.mpr fun t ht => (hts t ht).1.stop_le
    have hle := spliceTo_snd_le msg.buf hst hstop
    rw [map_append, spliceTo_append] at hle
    exact hle
  · rw [splice, map_append, spliceTo_append]
    simp only [append_assoc]

/-- The request URI that is replaced, as an edit. -/
def SipMsg.uriEdits (msg : SipMsg) (newUri : Option (List Char)) : List (Edit Char) :=
  (newUri.map (Edit.mk msg.uri msg.uriLen)).toList

variable (msg sendSock) in
/-- The edits that `process_lumps` finds, after `lumps_len` has repaired them. -/
def SipMsg.seenEdits (newUri : Option (List Char)) : List (Edit Char) := msg.uriEdits newUri ++
  (repairLumps 0 msg.addRm ++ repairLumps 0 msg.bodyLumps).map (Lump.seen msg sendSock)

/-- **The builder**, on any lumps that lie within the message: it splices the repaired edits, and the length it returns
has all of them counted. -/
theorem buildReq_splice (hts : ∀ t ∈ msg.addRm ++ msg.bodyLumps, t.op.Within msg.buf.length ∧ t.NoRand)
    (newUri : Option (List Char)) (sendSock : Option SocketInfo) (rs : Rand) :
    ∃ b, buildReqBufFromSipReq msg sendSock newUri rs = some b ∧
      b.newBuf = splice msg.buf 0 (msg.seenEdits sendSock newUri) ∧ b.returnedLen < 2 ^ 32 ∧
      Counts b.returnedLen msg.buf.length (msg.seenEdits sendSock newUri) ∧
      b.msg = { msg with addRm := repairLumps 0 msg.addRm, bodyLumps := repairLumps 0 msg.bodyLumps } := by
  have hlen := msg.len_lt
  have hurile := msg.uri_le
  obtain ⟨hadd, hbody⟩ := forall_mem_append.mp hts
  have hall : ∀ t ∈ repairLumps 0 msg.addRm ++ repairLumps 0 msg.bodyLumps,
      t.op.Within msg.buf.length ∧ t.NoRand := by
    have hrepaired : ∀ {ts : List Lump}, (∀ t ∈ ts, t.op.Within msg.buf.length ∧ t.NoRand) → ∀ t ∈ repairLumps 0 ts,
        t.op.Within msg.buf.length ∧ t.NoRand := fun hts t ht =>
      ⟨within_repairLumps (fun t ht => (hts t ht).1) (zero_le _) t ht, noRand_repairLumps hts (zero_le _) t ht⟩
    exact forall_mem_append.mpr ⟨hrepaired hadd, hrepaired hbody⟩
  obtain ⟨v₁, hv₁, hmod₁⟩ := lumpsLen_eq msg sendSock rs hbody hlen
  obtain ⟨v₂, hv₂, hmod₂⟩ := lumpsLen_eq msg sendSock rs hadd hlen
  simp only [Counts, seenEdits, SipMsg.uriEdits, map_append, sum_append_nat]
  simp only [Counts, Nat.ModEq] at hmod₁ hmod₂ ⊢
  unfold buildReqBufFromSipReq
  cases newUri with
  | none =>
    obtain ⟨st, hst, hle, hbuf⟩ := processBoth_eq sendSock hall ⟨[], 0, rs⟩ (zero_le _)
    simp only [hv₁, hv₂, hst, bind_some, if_neg (not_lt.mpr hle)]
    refine ⟨_, rfl, ?_, mod_lt _ (by decide), ?_, rfl⟩
    · rw [hbuf, map_append]
      rfl
    · simp only [map_none, toList_none, map_nil, sum_nil, u32add]
      omega
  | some newUri =>
    obtain ⟨st, hst, hle, hbuf⟩ := processBoth_eq sendSock hall ⟨msg.buf.take msg.uri ++ newUri, _, rs⟩ hurile
    simp only [hv₁, hv₂, hst, bind_some, if_neg (not_lt.mpr hle)]
    refine ⟨_, rfl, ?_, mod_lt _ (by decide), ?_, rfl⟩
    · rw [hbuf, map_some, toList_some, singleton_append, splice_cons (zero_le _), drop_zero,
        Nat.sub_zero, append_assoc, map_append]
      rfl
    · simp only [map_some, toList_some, map_cons, map_nil, sum_cons, sum_nil, u32add,
        u32sub]
      omega

/-- The lumps of a message: well formed, by increasing offset, and those of the body behind all others. -/
structure SipMsg.Formed (msg : SipMsg) : Prop where
  lumps : ∀ t ∈ msg.addRm ++ msg.bodyLumps, t.Formed msg.buf.length
  addRm : msg.addRm.Pairwise fun t u => t.op.range.1 ≤ u.op.range.1
  bodyLumps : msg.bodyLumps.Pairwise fun t u => t.op.range.1 ≤ u.op.range.1
  eoh : ∀ t ∈ msg.addRm, ∀ u ∈ msg.bodyLumps, t.op.range.1 + t.op.range.2 ≤ u.op.range.1

/-- No lump lies before the end of a request URI that is replaced. -/
def SipMsg.UriClear (msg : SipMsg) (newUri : Option (List Char)) : Prop :=
  newUri ≠ none → ∀ t ∈ msg.addRm ++ msg.bodyLumps, msg.uri + msg.uriLen ≤ t.op.range.1

variable {newUri : Option (List Char)} {f : Lump → Lump} {fl i : Nat} {st : LumpStep} {u : Lump}

theorem SipMsg.Formed.edits (h : msg.Formed) (huri : msg.UriClear newUri)
    (sendSock : Option SocketInfo) : Sorted (msg.edits sendSock newUri) ∧
      ∀ e ∈ msg.edits sendSock newUri, e.stop ≤ msg.buf.length := by
  have hsorted : Sorted ((msg.addRm ++ msg.bodyLumps).map (edit msg sendSock)) := by
    refine pairwise_map.mpr (pairwise_append.mpr ⟨h.addRm, h.bodyLumps, fun t ht u hu => ?_⟩)
    exact (le_add_right ..).trans (h.eoh t ht u hu)
  have hstop : ∀ e ∈ (msg.addRm ++ msg.bodyLumps).map (edit msg sendSock), e.stop ≤ msg.buf.length :=
    forall_mem_map.mpr fun t ht => (h.lumps t ht).within.stop_le
  cases newUri with
  | none => exact ⟨hsorted, hstop⟩
  | some newUri =>
    refine ⟨pairwise_cons.mpr ⟨fun e he => ?_, hsorted⟩, forall_mem_cons.mpr ⟨msg.uri_le, hstop⟩⟩
    obtain ⟨t, ht, rfl⟩ := mem_map.mp he
    exact (le_add_right ..).trans (huri (by simp) t ht)

theorem SipMsg.Formed.seenEdits_eq (h : msg.Formed) (huri : msg.UriClear newUri)
    (sendSock : Option SocketInfo) : msg.seenEdits sendSock newUri = repair 0 (msg.edits sendSock newUri) := by
  obtain ⟨hadd, hbody⟩ := forall_mem_append.mp h.lumps
  have hseen : (msg.addRm ++ msg.bodyLumps).map (edit msg sendSock) =
      msg.addRm.map (seen msg sendSock) ++ msg.bodyLumps.map (seen msg sendSock) := by
    rw [← map_append]
    exact map_congr_left fun t ht => (h.lumps t ht).edit_eq
  have hrepair : (repairLumps 0 msg.addRm ++ repairLumps 0 msg.bodyLumps).map (seen msg sendSock) =
      repair 0 ((msg.addRm ++ msg.bodyLumps).map (edit msg sendSock)) := by
    rw [hseen, map_append, repair_append, map_seen_repairLumps fun t ht => (hadd t ht).within,
      map_seen_repairLumps fun t ht => (hbody t ht).within]
    · exact forall_mem_map.mpr fun t ht => forall_mem_map.mpr (h.eoh t ht)
    · exact fun _ _ => zero_le _
  rw [seenEdits, hrepair]
  cases newUri with
  | none => rfl
  | some newUri =>
    rw [SipMsg.uriEdits, SipMsg.edits, map_some, toList_some, singleton_append,
      singleton_append, repair, cut_of_le (zero_le _), ← repair_of_le (s := msg.uri + msg.uriLen)]
    · rfl
    · exact forall_mem_map.mpr (huri (by simp))

/-- **The builder** writes the message that should be sent and returns its length, when the lumps are well formed and
none lies before the end of a request URI that is replaced. -/
theorem buildReq_eq (h : msg.Formed) (hr : ∀ t ∈ msg.addRm ++ msg.bodyLumps, t.NoRand)
    (huri : msg.UriClear newUri) (sendSock : Option SocketInfo) (rs : Rand) :
    ∃ b, buildReqBufFromSipReq msg sendSock newUri rs = some b ∧ b.newBuf = msg.rewritten sendSock newUri ∧
      b.returnedLen = b.newBuf.length % 2 ^ 32 := by
  obtain ⟨b, hb, hbuf, hlt, hmod, -⟩ :=
    buildReq_splice (fun t ht => ⟨(h.lumps t ht).within, hr t ht⟩) newUri sendSock rs
  obtain ⟨hsorted, hstop⟩ := h.edits huri sendSock
  rw [h.seenEdits_eq huri] at hbuf hmod
  refine ⟨b, hb, by rw [hbuf, splice_repair hsorted hstop, rewritten], ?_⟩
  have hlength := length_splice (chained_repair 0 _) (zero_le _) (stop_repair_le hstop (zero_le _))
  rw [← hbuf] at hlength
  simp only [Counts, Nat.ModEq] at hmod
  omega

/-! ## The lumps of a run -/

theorem LumpOp.Within.offset?_eq (h : op.Within n) : op.offset? = some op.range.1 := by
  obtain ⟨offset, len, rfl, -⟩ | ⟨offset, len, rfl, -⟩ := h.kind
  · rfl
  · rfl

theorem mem_insertLump {offset : Nat} {tmp : Lump} : u ∈ insertLump offset tmp ts ↔ u = tmp ∨ u ∈ ts := by
  induction ts with
  | nil => simp [insertLump]
  | cons t ts ih =>
    rw [insertLump]
    split
    · simp
    · simp only [mem_cons, ih]
      tauto

theorem pairwise_insertLump (tmp : Lump) (hts : ∀ t ∈ ts, t.op.Within n)
    (h : ts.Pairwise fun t u => t.op.range.1 ≤ u.op.range.1) :
    (insertLump tmp.op.range.1 tmp ts).Pairwise fun t u => t.op.range.1 ≤ u.op.range.1 := by
  induction ts with
  | nil => exact pairwise_singleton ..
  | cons t ts ih =>
    obtain ⟨hle, hps⟩ := pairwise_cons.mp h
    rw [insertLump, (hts t (mem_cons_self ..)).offset?_eq]
    by_cases hlt : tmp.op.range.1 < t.op.range.1
    · rw [if_pos (by simpa using hlt)]
      exact pairwise_cons.mpr ⟨forall_mem_cons.mpr ⟨hlt.le, fun u hu => hlt.le.trans (hle u hu)⟩, h⟩
    · rw [if_neg (by simpa using hlt)]
      refine pairwise_cons.mpr ⟨fun u hu => ?_, ih (forall_mem_cons.mp hts).2 hps⟩
      rcases mem_insertLump.mp hu with rfl | hu
      · exact not_lt.mp hlt
      · exact hle u hu

theorem mem_modify (h : u ∈ ts.modify i f) : u ∈ ts ∨ ∃ t ∈ ts, u = f t := by
  obtain ⟨j, hj⟩ := mem_iff_getElem?.mp h
  rw [getElem?_modify] at hj
  obtain ⟨t, ht, rfl⟩ := map_eq_some_iff.mp hj
  have ht := mem_of_getElem? ht
  by_cases hij : i = j
  · exact .inr ⟨t, ht, if_pos hij⟩
  · exact .inl (by rwa [if_neg hij])

theorem map_op_modify (hf : ∀ t, (f t).op = t.op) : ∀ (ts : List Lump) (i : Nat),
    (ts.modify i f).map Lump.op = ts.map Lump.op
  | [], i => by simp
  | t :: ts, 0 => by rw [modify_zero_cons, map_cons, map_cons, hf]
  | t :: ts, i + 1 => by rw [modify_succ_cons, map_cons, map_cons, map_op_modify hf ts i]

theorem pairwise_modify (hf : ∀ t, (f t).op = t.op) (h : ts.Pairwise fun t u => t.op.range.1 ≤ u.op.range.1) :
    (ts.modify i f).Pairwise fun t u => t.op.range.1 ≤ u.op.range.1 := by
  have hmap := (pairwise_map (f := Lump.op) (R := fun o p => o.range.1 ≤ p.range.1)).mpr h
  rw [← map_op_modify hf ts i] at hmap
  exact (pairwise_map (f := Lump.op)).mp hmap

theorem Lump.op_hang {dir : Dir} (t : Lump) (path : List Dir) : (t.hang dir op fl path).op = t.op := by
  cases path with
  | nil => rfl
  | cons d path => cases d <;> rfl

theorem Hung.Straight.hang {dir : Dir} : ∀ {path : List Dir} {h : Hung}, h.Straight dir →
    (∀ d ∈ path, d = dir) → (h.hang dir op fl path).Straight dir
  | [], .null, _, _ => trivial
  | _ :: _, .null, _, _ => trivial
  | [], .lump o f b a, hs, _ => by
    cases dir with
    | before | after => exact ⟨hs.1, rfl, hs.2⟩
  | d :: path, .lump o f b a, hs, hpath => by
    obtain rfl := hpath d (mem_cons_self ..)
    have hrest : ∀ d' ∈ path, d' = d := (forall_mem_cons.mp hpath).2
    cases d with
    | before | after => exact ⟨hs.1, hs.2.hang hrest⟩

theorem Lump.Formed.hang {dir : Dir} {path : List Dir} (h : t.Formed n) (hpath : ∀ d ∈ path, d = dir) :
    (t.hang dir op fl path).Formed n := by
  have hop : (t.hang dir op fl path).op.Within n := by
    rw [op_hang]
    exact h.within
  cases path with
  | nil =>
    cases dir with
    | before => exact ⟨hop, ⟨rfl, h.before⟩, h.after⟩
    | after => exact ⟨hop, h.before, ⟨rfl, h.after⟩⟩
  | cons d path =>
    obtain rfl := hpath d (mem_cons_self ..)
    have hrest : ∀ d' ∈ path, d' = d := (forall_mem_cons.mp hpath).2
    cases d with
    | before => exact ⟨hop, h.before.hang hrest, h.after⟩
    | after => exact ⟨hop, h.before, h.after.hang hrest⟩

/-- The condition on a call: a deleted range lies within the message, and a lump hangs in the direction of the chain it
is hung into. -/
def LumpStep.Sound (msg : SipMsg) (st : LumpStep) : Prop :=
  match st.call with
  | .anchorLump _ _ => True
  | .delLump offset len => offset.toNat + len.toNat ≤ msg.buf.length
  | .insertNewLump dir target _ => ∀ d ∈ target.path, d = dir
  | .insertSubstLump dir target _ => ∀ d ∈ target.path, d = dir
  | .insertCondLump dir target _ => ∀ d ∈ target.path, d = dir

/-- What sound calls keep. -/
structure SipMsg.Collected (msg : SipMsg) : Prop where
  lumps : ∀ t ∈ msg.addRm ++ msg.bodyLumps, t.Formed msg.buf.length
  addRm : msg.addRm.Pairwise fun t u => t.op.range.1 ≤ u.op.range.1
  bodyLumps : msg.bodyLumps.Pairwise fun t u => t.op.range.1 ≤ u.op.range.1
  eoh : ∀ u ∈ msg.bodyLumps, ∃ e, msg.eoh = some e ∧ e < u.op.range.1

/-- **What a call does to a list**: it links a lump into it, by its offset, or hangs one on a lump of it. -/
inductive LumpStep.Acts (msg : SipMsg) (st : LumpStep) (body : Bool) : (List Lump → List Lump) → Prop
  | link (op : LumpOp) (hbody : body = msg.inBody op.range.1)
      (hop : (∀ offset len, st.call = .delLump offset len → offset.toNat + len.toNat ≤ msg.buf.length) →
        op.Within msg.buf.length) : st.Acts msg body (insertLump op.range.1 ⟨op, st.initLumpFlags, .null, .null⟩)
  | hang (dir : Dir) (op : LumpOp) (i : Nat) (path : List Dir) (hpath : st.Sound msg → ∀ d ∈ path, d = dir) :
      st.Acts msg body fun ts => ts.modify i (·.hang dir op st.initLumpFlags path)

/-- The message with one of its lists changed. -/
def SipMsg.onList (msg : SipMsg) (body : Bool) (f : List Lump → List Lump) : SipMsg :=
  if body then { msg with bodyLumps := f msg.bodyLumps } else { msg with addRm := f msg.addRm }

/-- **What a call can do**: nothing, or change one of the lists. -/
theorem SipMsg.exec_cases (he : msg.exec st = some msg') :
    msg' = msg ∨ ∃ body f, st.Acts msg body f ∧ msg' = msg.onList body f := by
  obtain ⟨pkg, fl, call⟩ := st
  have hlink : ∀ op : LumpOp, ((∀ offset len, call = .delLump offset len → offset.toNat + len.toNat ≤ msg.buf.length) →
      op.Within msg.buf.length) → msg.linkLump pkg fl op.range.1 op = msg ∨ ∃ body f,
        LumpStep.Acts msg ⟨pkg, fl, call⟩ body f ∧ msg.linkLump pkg fl op.range.1 op = msg.onList body f := by
    intro op hop
    cases pkg with
    | false => exact .inl rfl
    | true => exact .inr ⟨_, _, .link op rfl hop, by rw [onList]; rfl⟩
  have hhang : ∀ dir target op, (LumpStep.Sound msg ⟨pkg, fl, call⟩ → ∀ d ∈ target.path, d = dir) →
      msg.insertHung pkg fl dir target op = msg ∨ ∃ body f,
        LumpStep.Acts msg ⟨pkg, fl, call⟩ body f ∧ msg.insertHung pkg fl dir target op = msg.onList body f := by
    intro dir target op hpath
    cases pkg with
    | false => exact .inl rfl
    | true => exact .inr ⟨target.body, _, .hang dir op target.index target.path hpath, by rw [onList]; rfl⟩
  cases call with
  | anchorLump offset len =>
    simp only [SipMsg.exec, anchorLump] at he
    split at he
    · cases he
    · rename_i hle
      cases he
      exact hlink (.nop offset.toNat len.toNat) fun _ => not_lt.mp hle
  | delLump offset len =>
    simp only [SipMsg.exec, delLump] at he
    split at he
    · cases he
    split at he
    · cases he
    · cases he
      exact hlink (.del offset.toNat len.toNat) fun hrange => hrange offset len rfl
  | insertNewLump dir target newHdr | insertSubstLump dir target subst | insertCondLump dir target c =>
    cases he
    exact hhang dir target _ id

section Acts

variable {st : LumpStep} {body : Bool} {f : List Lump → List Lump}

/-- The lumps of the changed list: old ones, the linked one, and the one that something was hung on. -/
theorem LumpStep.Acts.mem (h : st.Acts msg body f) (hu : u ∈ f ts) : u ∈ ts ∨
    (∃ op, u = ⟨op, st.initLumpFlags, .null, .null⟩ ∧ body = msg.inBody op.range.1 ∧
      ((∀ offset len, st.call = .delLump offset len → offset.toNat + len.toNat ≤ msg.buf.length) →
        op.Within msg.buf.length)) ∨
    ∃ t ∈ ts, ∃ dir op path, u = t.hang dir op st.initLumpFlags path ∧ (st.Sound msg → ∀ d ∈ path, d = dir) := by
  cases h with
  | link op hbody hop =>
    rcases mem_insertLump.mp hu with rfl | hu
    · exact .inr (.inl ⟨op, rfl, hbody, hop⟩)
    · exact .inl hu
  | hang dir op i path hpath =>
    rcases mem_modify hu with hu | ⟨t, ht, rfl⟩
    · exact .inl hu
    · exact .inr (.inr ⟨t, ht, dir, op, path, rfl, hpath⟩)

theorem LumpStep.Acts.sorted (h : st.Acts msg body f) (hts : ∀ t ∈ ts, t.op.Within n)
    (hs : ts.Pairwise fun t u => t.op.range.1 ≤ u.op.range.1) :
    (f ts).Pairwise fun t u => t.op.range.1 ≤ u.op.range.1 := by
  cases h with
  | link op => exact pairwise_insertLump ⟨op, st.initLumpFlags, .null, .null⟩ hts hs
  | hang _ _ _ path => exact pairwise_modify (fun t => t.op_hang path) hs

end Acts

/-- **One sound call** keeps the lumps in order. -/
theorem SipMsg.Collected.step (h : msg.Collected) (hsound : st.Sound msg)
    (he : msg.exec st = some msg') : msg'.Collected := by
  have hrange : ∀ offset len, st.call = .delLump offset len → offset.toNat + len.toNat ≤ msg.buf.length := by
    intro offset len hcall
    rw [LumpStep.Sound, hcall] at hsound
    exact hsound
  obtain ⟨hlumps, hadd, hbody, heoh⟩ := h
  rcases exec_cases he with rfl | ⟨body, f, hf, rfl⟩
  · exact ⟨hlumps, hadd, hbody, heoh⟩
  have hformed : ∀ {ts : List Lump}, (∀ t ∈ ts, t.Formed msg.buf.length) → ∀ t ∈ f ts, t.Formed msg.buf.length := by
    intro ts hts t ht
    rcases hf.mem ht with ht | ⟨op, rfl, -, hop⟩ | ⟨u, hu, dir, op, path, rfl, hpath⟩
    · exact hts t ht
    · exact ⟨hop hrange, trivial, trivial⟩
    · exact (hts u hu).hang (hpath hsound)
  have haddRm : ∀ t ∈ msg.addRm, t.Formed msg.buf.length := (forall_mem_append.mp hlumps).1
  have hbodyLumps : ∀ t ∈ msg.bodyLumps, t.Formed msg.buf.length := (forall_mem_append.mp hlumps).2
  cases body with
  | false =>
    exact ⟨forall_mem_append.mpr ⟨hformed haddRm, hbodyLumps⟩, hf.sorted (fun t ht => (haddRm t ht).within) hadd,
      hbody, heoh⟩
  | true =>
    refine ⟨forall_mem_append.mpr ⟨haddRm, hformed hbodyLumps⟩, hadd,
      hf.sorted (fun t ht => (hbodyLumps t ht).within) hbody, fun u hu => ?_⟩
    rcases hf.mem hu with hu | ⟨op, rfl, hin, -⟩ | ⟨t, ht, dir, op, path, rfl, -⟩
    · exact heoh u hu
    · obtain ⟨e, he, hlt⟩ := (any_eq_true _ _).mp hin.symm
      exact ⟨e, he, of_decide_eq_true hlt⟩
    · rw [op_hang]
      exact heoh t ht

/-- The lumps of a message after sound calls are well formed, if no `LUMP_DEL` of `add_rm` reaches into the body. -/
theorem SipMsg.Collected.formed (h : msg.Collected)
    (heoh : ∀ t ∈ msg.addRm, ∀ e, msg.eoh = some e → t.op.range.1 + t.op.range.2 ≤ e) : msg.Formed := by
  refine ⟨h.lumps, h.addRm, h.bodyLumps, fun t ht u hu => ?_⟩
  obtain ⟨e, he, hlt⟩ := h.eoh u hu
  exact (heoh t ht e he).trans hlt.le

/-- **Rewriting over every run.** After any sound calls on a message, `build_req_buf_from_sip_req` writes the message
that should be sent and returns its length (as an `unsigned int`), when no condition is left to chance, no `LUMP_DEL` of
`add_rm` reaches into the body, and no lump lies before the end of a request URI that is replaced. -/
theorem buildReq_over_runs {msg₀ : SipMsg} {es : List (LumpStep × SipMsg)}
    (hnew : msg₀.addRm = [] ∧ msg₀.bodyLumps = [])
    (hrun : Trace (fun m st m' => st.Sound m ∧ m.exec st = some m') msg₀ es) (hmsg : msg = msg₀ ∨ ∃ e ∈ es, msg = e.2)
    (hrand : ∀ t ∈ msg.addRm ++ msg.bodyLumps, t.NoRand)
    (heoh : ∀ t ∈ msg.addRm, ∀ e, msg.eoh = some e → t.op.range.1 + t.op.range.2 ≤ e) (newUri : Option (List Char))
    (huri : newUri ≠ none → ∀ t ∈ msg.addRm ++ msg.bodyLumps, msg.uri + msg.uriLen ≤ t.op.range.1)
    (sendSock : Option SocketInfo) (rs : Rand) :
    ∃ b, buildReqBufFromSipReq msg sendSock newUri rs = some b ∧ b.newBuf = msg.rewritten sendSock newUri ∧
      b.returnedLen = b.newBuf.length % 2 ^ 32 := by
  have hinit : msg₀.Collected := by
    refine ⟨?_, ?_, ?_, ?_⟩
    all_goals simp [hnew.1, hnew.2]
  have hcol : msg.Collected := by
    rcases hmsg with rfl | ⟨e, he, rfl⟩
    · exact hinit
    · exact hrun.invariant (fun _ _ _ h hs => h.step hs.1 hs.2) hinit e he
  exact buildReq_eq (hcol.formed heoh) hrand huri sendSock rs

/-- A message of eight bytes without lumps, with its headers up to `eoh` and its request URI in bytes 2 and 3. -/
def eightBytes (eoh : Option Nat) : SipMsg where
  buf := "abcdefgh".toList
  len_lt := by decide
  eoh := eoh
  uri := 2
  uriLen := 2
  uri_le := by decide
  rcv := ⟨⟨afInet, 4, [10, 0, 0, 1]⟩, 5060, .udp, none⟩
  setGlobalAddress := []
  setGlobalPort := []
  addRm := []
  bodyLumps := []

instance (msg : SipMsg) (st : LumpStep) : Decidable (st.Sound msg) := by
  unfold LumpStep.Sound
  split <;> infer_instance

/-- An anchor behind the request URI, a text on either side of it, and two deletions that overlap. -/
def fiveSteps : List LumpStep :=
  [⟨true, 0, .anchorLump 4 0⟩, ⟨true, 0, .insertNewLump .after ⟨false, 0, []⟩ ['y', 'z']⟩,
    ⟨true, 0, .insertNewLump .before ⟨false, 0, []⟩ ['v']⟩, ⟨true, 0, .delLump 5 2⟩, ⟨true, 0, .delLump 6 2⟩]

/-- The request URI is replaced, the texts are written and the last three bytes are not. -/
theorem eightBytes_over_runs : ∃ es msg b, Trace (fun m st m' => st.Sound m ∧ m.exec st = some m')
    (eightBytes none) es ∧ es.map Prod.fst = fiveSteps ∧ (es.map Prod.snd).getLastD (eightBytes none) = msg ∧
    buildReqBufFromSipReq msg none (some ['x']) (fun _ => 0) = some b ∧ b.newBuf = msg.rewritten none (some ['x']) ∧
    msg.rewritten none (some ['x']) = "abxvyze".toList := by
  obtain ⟨msg, hmsg, haddRm, hbody, heoh, huri, hbuf⟩ : ∃ msg,
      exec (fun m (st : LumpStep) => if st.Sound m then m.exec st else none) (eightBytes none) fiveSteps = some msg ∧
      msg.addRm = [⟨.nop 4 0, 0, .lump (.add ['v']) 0 .null .null, .lump (.add ['y', 'z']) 0 .null .null⟩,
        ⟨.del 5 2, 0, .null, .null⟩, ⟨.del 6 2, 0, .null, .null⟩] ∧ msg.bodyLumps = [] ∧ msg.eoh = none ∧
      msg.uri + msg.uriLen = 4 ∧ msg.rewritten none (some ['x']) = "abxvyze".toList := exists_of_any (by decide +kernel)
  obtain ⟨es, hes, hlabels, hlast⟩ := exec_trace hmsg
  have hrun : Trace (fun m (st : LumpStep) m' => st.Sound m ∧ m.exec st = some m') (eightBytes none) es :=
    hes.imp fun _ _ _ he => Option.ite_none_right_eq_some.mp he
  have hreach : msg = eightBytes none ∨ ∃ e ∈ es, msg = e.2 := hlast ▸ last_reached _ es
  obtain ⟨b, hb, hnew, -⟩ := buildReq_over_runs ⟨rfl, rfl⟩ hrun hreach
    (by simp [haddRm, hbody, Lump.NoRand, NoRand, Hung.chain]) (fun _ _ e he => by rw [heoh] at he; cases he)
      (some ['x'])
    (by simp [haddRm, hbody, huri, LumpOp.range]) none fun _ => 0
  exact ⟨es, msg, b, hrun, hlabels, hlast, hb, hnew, hbuf⟩

/-- Three ways to go wrong. A text anchored before a request URI that is replaced is counted but not written, so two
bytes of the result are never set. A `LUMP_DEL` of the body with a length that wraps around passes the checks of
`del_lump` and makes the copy go back. A text hung before a lump that itself hangs after another one is not written. -/
theorem lumps_written_wrong :
    (∃ es msg b, Trace (fun m st m' => SipMsg.exec m st = some m') (eightBytes none) es ∧
      es.map Prod.fst = [⟨true, 0, .anchorLump 0 0⟩, ⟨true, 0, .insertNewLump .after ⟨false, 0, []⟩ ['y', 'z']⟩] ∧
      (es.map Prod.snd).getLastD (eightBytes none) = msg ∧
      buildReqBufFromSipReq msg none (some ['x']) (fun _ => 0) = some b ∧
      b.newBuf = "abxefgh".toList ∧ b.returnedLen = 9) ∧
    (∃ es msg b, Trace (fun m st m' => SipMsg.exec m st = some m') (eightBytes (some 2)) es ∧
      es.map Prod.fst = [⟨true, 0, .delLump 5 4294967295⟩] ∧
      (es.map Prod.snd).getLastD (eightBytes (some 2)) = msg ∧
      buildReqBufFromSipReq msg none none (fun _ => 0) = some b ∧
      b.newBuf = "abcdeefgh".toList ∧ msg.rewritten none none = "abcde".toList) ∧
    ∃ es msg b, Trace (fun m st m' => SipMsg.exec m st = some m') (eightBytes none) es ∧
      es.map Prod.fst = [⟨true, 0, .anchorLump 4 0⟩, ⟨true, 0, .insertNewLump .after ⟨false, 0, []⟩ ['y']⟩,
        ⟨true, 0, .insertNewLump .before ⟨false, 0, [.after]⟩ ['z']⟩] ∧
      (es.map Prod.snd).getLastD (eightBytes none) = msg ∧
      buildReqBufFromSipReq msg none none (fun _ => 0) = some b ∧
      b.newBuf = "abcdyefgh".toList ∧ msg.rewritten none none = "abcdyzefgh".toList := by
  have hrun : ∀ {msg₀ : SipMsg} {steps : List LumpStep} {newUri : Option (List Char)} {P : SipMsg → Built → Prop}
      [∀ m b, Decidable (P m b)], ((exec SipMsg.exec msg₀ steps).any fun m =>
        (buildReqBufFromSipReq m none newUri fun _ => 0).any fun b => decide (P m b)) = true →
      ∃ es msg b, Trace (fun m st m' => SipMsg.exec m st = some m') msg₀ es ∧ es.map Prod.fst = steps ∧
        (es.map Prod.snd).getLastD msg₀ = msg ∧ buildReqBufFromSipReq msg none newUri (fun _ => 0) = some b ∧
          P msg b := by
    intro msg₀ steps newUri P _ he
    obtain ⟨msg, hmsg, he⟩ := (Option.any_eq_true ..).mp he
    obtain ⟨b, hb, hP⟩ := exists_of_any he
    obtain ⟨es, hes, hlabels, hlast⟩ := exec_trace hmsg
    exact ⟨es, msg, b, hes, hlabels, hlast, hb, hP⟩
  refine ⟨?_, ?_, ?_⟩
  · apply hrun
    decide +kernel
  · apply hrun
    decide +kernel
  · apply hrun
    decide +kernel

end OpenSer
