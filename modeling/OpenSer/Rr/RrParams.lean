import OpenSer.Rr.RecordLumps

/-!
# The parameters of a Record-Route header field

Where the parameters of `add_rr_param` end up. A parameter that waits in the buffer becomes one text of every header
field that `record_route` adds; a later one is hung behind the last text of each of them. `record_route_preset` looks at
neither the buffer nor the type of its lumps.

* `HeaderField.text`: the text of a header field.
* `built_with`: what lumps at the first header field add to the message that is built.
* `handle_recordRoute`, `handle_recordRoutePreset`: the lumps after all calls for a request.
* `rr_params_iff`: when every parameter is delivered.
-/

namespace OpenSer.Rr

open List Lib
open OpenSer.Parser.Hname2 (HdrType)
open LumpOp TypedLump

variable {cfg : RrConfig} {req : RrRequest} {p : Nat} {t : TypedLump} {as bs : List TypedLump} {ps : List (List Char)}
  {inbound : Bool} {buf : List Char}

/-! ## The text of a header field -/

variable {msg : SipMsg} {sendSock : Option SocketInfo}

/-- **A Record-Route header field**: its URI has an address, the `r2` parameter if there are two header fields, further
parameters of the call, and those of `add_rr_param`. -/
def rrField (user address suffix rrParams : List Char) (r2 : Bool) : List Char :=
  rrPrefix ++ atUser user ++ address ++ (if r2 then rrR2 else []) ++ suffix ++ rrParams ++ rrTerm

theorem chainText_adds (msg : SipMsg) (sendSock : Option SocketInfo) (ps : List (List Char)) (ops : List LumpOp) :
    chainText msg sendSock (ps.map add ++ ops) = ps.flatten ++ chainText msg sendSock ops := by
  induction ps with
  | nil => rfl
  | cons p ps ih =>
    rw [map_cons, cons_append, chainText, text?]
    rw [ih, flatten_cons, append_assoc]

variable (msg sendSock) in
theorem chainText_beginOps (user : List Char) (inbound : Bool) : chainText msg sendSock (beginOps cfg user inbound) =
    rrPrefix ++ atUser user ++ substLump msg sendSock (if inbound then .rcvAll else .sndAll) ++
      if cfg.enableDoubleRr && condHolds msg sendSock .ifDiffRealms then rrR2 else [] := by
  unfold beginOps
  cases cfg.enableDoubleRr with
  | false => simp [chainText, text?]
  | true => cases hcond : condHolds msg sendSock .ifDiffRealms <;> simp [chainText, text?, hcond]

variable (msg sendSock) in
theorem chainText_frontOf (inbound : Bool) (ops : List LumpOp) : chainText msg sendSock (frontOf inbound ++ ops) =
    if inbound || condHolds msg sendSock .ifDiffRealms then chainText msg sendSock ops else [] := by
  unfold frontOf
  cases inbound with
  | true => rfl
  | false => cases hcond : condHolds msg sendSock .ifDiffRealms <;> simp [chainText, text?, hcond]

theorem TypedLump.seen_text (t : TypedLump) : (t.forget.seen msg sendSock).text =
    chainText msg sendSock ((t.before.chain .before).map Prod.fst) ++
      chainText msg sendSock ((t.after.chain .after).map Prod.fst) := by
  rw [Lump.seen, forget]
  rw [TypedHung.chain_forget, TypedHung.chain_forget]

variable (msg sendSock) in
/-- **The text of a header field.** The outbound one is there if the request leaves on another socket. -/
theorem HeaderField.text {user suffix : List Char} {l l2 : TypedLump}
    (h : HeaderField cfg p user inbound (suffix :: ps) l l2) :
    [l, l2].flatMap (fun t => (t.forget.seen msg sendSock).text) =
      if inbound || condHolds msg sendSock .ifDiffRealms then
        rrField user (substLump msg sendSock (if inbound then .rcvAll else .sndAll)) suffix ps.flatten
          (cfg.enableDoubleRr && condHolds msg sendSock .ifDiffRealms)
      else [] := by
  have hfst : ∀ ops : List LumpOp, (ops.map fun op => (op, HdrType.other)).map Prod.fst = ops := fun ops => by
    rw [map_map]
    exact map_id ops
  have hbegin : (l.forget.seen msg sendSock).text =
      if inbound || condHolds msg sendSock .ifDiffRealms then chainText msg sendSock (beginOps cfg user inbound)
      else [] := by
    rw [seen_text, h.before, h.after, hfst, chainText_frontOf]
    rfl
  have hend : (l2.forget.seen msg sendSock).text =
      if inbound || condHolds msg sendSock .ifDiffRealms then suffix ++ (ps.flatten ++ rrTerm) else [] := by
    have hops : (l2.before.chain .before).map Prod.fst =
        frontOf inbound ++ ((suffix :: ps).map add ++ [.add rrTerm]) := by
      rw [h.carries.chain, map_append, map_append, hfst, map_map, append_assoc]
      rfl
    rw [seen_text, h.after2, hops, chainText_frontOf, chainText_adds]
    simp [chainText, text?, TypedHung.chain]
  rw [flatMap_cons, flatMap_cons, flatMap_nil, hbegin, hend, chainText_beginOps]
  cases inbound || condHolds msg sendSock .ifDiffRealms with
  | false => rfl
  | true => simp [rrField]

/-! ## What lumps at the first header field add to the message -/

theorem upTo_append_behindOf (o : Nat) (ts : List TypedLump) : upTo o ts ++ behindOf o ts = ts :=
  takeWhile_append_dropWhile

/-- **Lumps at the first header field** put their texts there, and change nothing else of the message that is built. -/
theorem built_with (req : RrRequest) (sendSock : Option SocketInfo) (newUri : Option (List Char)) (rs : Rand) :
    ∃ u v, ∀ new : List TypedLump, (∀ n ∈ new, n.op = .nop req.headers 0 ∧ n.forget.NoRand) →
      ∃ b, buildReqBufFromSipReq (req.carrying (upTo req.headers req.addRm ++ (new ++ behindOf req.headers req.addRm)))
          sendSock newUri rs = some b ∧
        b.newBuf = u ++ (new.flatMap (fun n => (n.forget.seen req.msg sendSock).text) ++ v) := by
  have hall : ∀ t ∈ upTo req.headers req.addRm ++ behindOf req.headers req.addRm,
      t.op.Within req.msg.buf.length ∧ t.forget.NoRand ∧
        ∀ u ∈ req.msg.bodyLumps, t.op.range.1 + t.op.range.2 ≤ u.op.range.1 := by
    intro t ht
    rw [upTo_append_behindOf] at ht
    have hmem : t.forget ∈ req.msg.addRm := by
      rw [req.addRm_eq]
      exact mem_map_of_mem ht
    obtain ⟨hwithin, hrand⟩ := req.lumps _ (mem_append_left _ hmem)
    exact ⟨hwithin, hrand, fun u hu => (req.body u hu).2 _ hmem⟩
  have hplaced := placed_split req.headers req.addRm
  generalize upTo req.headers req.addRm = as at hall hplaced ⊢
  generalize behindOf req.headers req.addRm = bs at hall hplaced ⊢
  obtain ⟨has, hbs⟩ := forall_mem_append.mp hall
  have hinsert := splice_insert (p := req.headers) req.msg.buf (req.msg.uriEdits newUri)
    (as.map fun t => t.forget.seen req.msg sendSock) (bs.map fun t => t.forget.seen req.msg sendSock)
    (req.msg.bodyLumps.map (Lump.seen req.msg sendSock)) ?_ ?_ ?_
  · obtain ⟨u, v, huv⟩ := hinsert
    refine ⟨u, v, fun new hnew => ?_⟩
    have hts : ∀ t ∈ (req.carrying (as ++ (new ++ bs))).addRm ++ (req.carrying (as ++ (new ++ bs))).bodyLumps,
        t.op.Within (req.carrying (as ++ (new ++ bs))).buf.length ∧ t.NoRand := by
      refine forall_mem_append.mpr ⟨forall_mem_map.mpr ?_, (forall_mem_append.mp req.lumps).2⟩
      refine forall_mem_append.mpr ⟨fun n hn => ⟨(has n hn).1, (has n hn).2.1⟩, forall_mem_append.mpr
        ⟨fun n hn => ?_, fun n hn => ⟨(hbs n hn).1, (hbs n hn).2.1⟩⟩⟩
      obtain ⟨hop, hrand⟩ := hnew n hn
      refine ⟨?_, hrand⟩
      rw [show n.forget.op = n.op from rfl, hop]
      exact req.headers_le
    obtain ⟨b, hb, hbuf, -⟩ := buildReq_splice hts newUri sendSock rs
    refine ⟨b, hb, ?_⟩
    have hns := huv (new.map fun t => t.forget.seen req.msg sendSock) ?_
    · rw [hbuf, SipMsg.seenEdits, map_append, map_seen_repairLumps fun t ht => (hts t (mem_append_left _ ht)).1,
        map_seen_repairLumps fun t ht => (hts t (mem_append_right _ ht)).1]
      have htext : SameText req.msg (req.carrying (as ++ (new ++ bs))) := ⟨rfl, rfl, rfl⟩
      rw [Lump.seen_congr htext]
      simp only [RrRequest.carrying, map_append, map_map] at hns ⊢
      rw [flatMap_map] at hns
      exact hns
    · intro e he
      obtain ⟨n, hn, rfl⟩ := mem_map.mp he
      have hop := (hnew n hn).1
      constructor <;> simp [Lump.seen, forget, hop, LumpOp.range]
  · intro e he
    cases newUri with
    | none => cases he
    | some newUri =>
      obtain rfl := mem_singleton.mp he
      exact req.uri_le
  · intro f hf
    rw [head?_map] at hf
    obtain ⟨b, hb, rfl⟩ := Option.map_eq_some_iff.mp hf
    have hlt := hplaced.behind b hb
    rw [(hbs b (mem_of_mem_head? hb)).1.offset?_eq] at hlt
    exact (of_decide_eq_true hlt).le
  · intro e he
    obtain ⟨u, hu, rfl⟩ := mem_map.mp he
    refine ⟨(req.body u hu).1, fun f hf => ?_⟩
    obtain ⟨t, ht, rfl⟩ := mem_map.mp hf
    exact (has t ht).2.2 u hu

theorem noRand_forget {t : TypedLump}
    (hr : ∀ x ∈ t.before.chain .before ++ t.after.chain .after, x.1 ≠ .addOpt .ifRand) : t.forget.NoRand := by
  have hchain : ∀ (dir : OpenSer.Dir) (h : TypedHung), (∀ x ∈ h.chain dir, x.1 ≠ .addOpt .ifRand) →
      NoRand (h.forget.chain dir) := by
    intro dir h hx op hop
    rw [TypedHung.chain_forget] at hop
    obtain ⟨x, hmem, rfl⟩ := mem_map.mp hop
    exact hx x hmem
  exact ⟨hchain _ _ (forall_mem_append.mp hr).1, hchain _ _ (forall_mem_append.mp hr).2⟩

theorem HeaderField.new {user : List Char} {l l2 : TypedLump} (h : HeaderField cfg p user inbound ps l l2) :
    ∀ n ∈ [l, l2], n.op = .nop p 0 ∧ n.forget.NoRand := by
  have hfront : ∀ op ∈ frontOf inbound, op ≠ .addOpt .ifRand := by
    cases inbound <;> simp [frontOf]
  have hbegin : ∀ op ∈ beginOps cfg user inbound, op ≠ .addOpt .ifRand := by
    unfold beginOps
    cases cfg.enableDoubleRr <;> simp
  refine forall_mem_cons.mpr ⟨⟨h.op, noRand_forget ?_⟩, forall_mem_singleton.mpr ⟨h.op2, noRand_forget fun x hx => ?_⟩⟩
  · rw [h.before, h.after]
    exact forall_mem_map.mpr (forall_mem_append.mpr ⟨hfront, hbegin⟩)
  · rw [h.after2, h.carries.chain, TypedHung.chain, append_nil] at hx
    simp only [mem_append, mem_map, mem_singleton] at hx
    rcases hx with (⟨op, hop, rfl⟩ | ⟨q, -, rfl⟩) | rfl
    · exact hfront op hop
    · intro hop
      cases hop
    · intro hop
      cases hop

/-! ## All calls for one request -/

/-- The header fields of this proxy, when these are the parameters of the first one of two and of the last one. -/
def RecordCall.fields (cfg : RrConfig) (req : RrRequest) (sendSock : Option SocketInfo) (first last : List Char) :
    RecordCall → List Char
  | .recordRoute params _ _ _ =>
    let user := (req.userOf cfg).getD []
    let suffix := lrParam cfg ++ ftagParamOf ((req.tagOf cfg).getD []) ++ params
    let two := cfg.enableDoubleRr && condHolds req.msg sendSock .ifDiffRealms
    (if two then rrField user (substLump req.msg sendSock .sndAll) suffix first two else []) ++
      rrField user (substLump req.msg sendSock .rcvAll) suffix last two
  | .recordRoutePreset data _ _ =>
    presetHdr cfg ((req.userOf cfg).getD []) ((req.tagOf cfg).getD []) data ++ last ++ rrTerm

/-- The parameters that should be in every header field: those whose calls have succeeded, in the order of the calls. -/
def RrOutcome.owed (o : RrOutcome) : List Char := (accepted o.before ++ accepted o.after).flatten

/-- The same for the first one of two header fields, where a call that failed may have left its parameter. -/
def RrOutcome.owedFirst (o : RrOutcome) : List Char := (accepted o.before ++ shown o.after).flatten

/-- **The parameters are delivered**: the message that is built has, besides what it has anyway, the header fields of
this proxy, and each of them has the parameters of this request and no others. -/
def RrRequest.Delivered (req : RrRequest) (cfg : RrConfig) (buf : List Char) (bufMsg : Nat) (calls : RrCalls)
    (sendSock : Option SocketInfo) (newUri : Option (List Char)) (rs : Rand) : Prop :=
  ∃ u v b₀ b₁, buildReqBufFromSipReq (req.carrying req.addRm) sendSock newUri rs = some b₀ ∧
    buildReqBufFromSipReq (req.carrying (req.handle cfg buf bufMsg calls).addRm) sendSock newUri rs = some b₁ ∧
    b₀.newBuf = u ++ v ∧
    b₁.newBuf = u ++ (calls.record.fields cfg req sendSock (req.handle cfg buf bufMsg calls).owedFirst
      (req.handle cfg buf bufMsg calls).owed ++ v)

/-- The condition: nothing of another message waits under the id of the request; and with `record_route_preset`, no
parameter fits into the buffer. -/
def RrCalls.Honoured (req : RrRequest) (buf : List Char) (bufMsg : Nat) (calls : RrCalls) : Prop :=
  match calls.record with
  | .recordRoute _ _ _ _ => buf = [] ∨ bufMsg ≠ req.id
  | .recordRoutePreset _ _ _ => ∀ c ∈ calls.before ++ calls.after,
    c.param = [] ∨ rrParamBufSize < (if bufMsg = req.id then buf.length else 0) + c.param.length

theorem flatten_bufTexts (buf : List Char) : (bufTexts buf).flatten = buf := by
  unfold bufTexts
  by_cases h : buf.length = 0
  · simp [length_eq_zero_iff.mp h]
  · simp [h]

theorem RecordCall.length_fields (cfg : RrConfig) (req : RrRequest) (sendSock : Option SocketInfo)
    (call : RecordCall) : ∃ k n, ∀ first last, (call.fields cfg req sendSock first last).length =
      n + k * first.length + last.length := by
  cases call with
  | recordRoute params out inb fl =>
    refine ⟨if cfg.enableDoubleRr && condHolds req.msg sendSock .ifDiffRealms then 1 else 0,
      (RecordCall.fields cfg req sendSock [] [] (.recordRoute params out inb fl)).length, fun first last => ?_⟩
    simp only [fields, rrField, length_append]
    cases cfg.enableDoubleRr && condHolds req.msg sendSock .ifDiffRealms <;> simp <;> omega
  | recordRoutePreset data mem fl =>
    refine ⟨0, (RecordCall.fields cfg req sendSock [] [] (.recordRoutePreset data mem fl)).length, fun first last => ?_⟩
    simp only [fields, length_append]
    simp
    omega

theorem length_eq_of_between {u v u' v' x y a b : List Char} (ha : a = u ++ v) (hb : b = u ++ (x ++ v))
    (ha' : a = u' ++ v') (hb' : b = u' ++ (y ++ v')) : x.length = y.length := by
  have h₁ := congrArg length (ha.symm.trans ha')
  have h₂ := congrArg length (hb.symm.trans hb')
  simp only [length_append] at h₁ h₂
  omega

variable {bufMsg fl : Nat} {calls : RrCalls}

/-- The lumps up to the first header field, and those behind it, have no text of a Record-Route header field. -/
theorem RrRequest.unmarked (req : RrRequest) : ∀ t ∈ upTo req.headers req.addRm ++ behindOf req.headers req.addRm,
    t.Unmarked := by
  rw [upTo_append_behindOf]
  exact req.unrecorded

/-- What the buffer holds under the id of the request before its first call. -/
def RrRequest.found (req : RrRequest) (buf : List Char) (bufMsg : Nat) : List Char :=
  if bufMsg = req.id then buf else []

/-- The lumps with new ones at the first header field, whose texts are the header fields with these parameters. -/
def RrRequest.Adds (req : RrRequest) (cfg : RrConfig) (call : RecordCall) (addRm : List TypedLump)
    (first last : List Char) : Prop :=
  ∃ new : List TypedLump, addRm = upTo req.headers req.addRm ++ (new ++ behindOf req.headers req.addRm) ∧
    (∀ n ∈ new, n.op = .nop req.headers 0 ∧ n.forget.NoRand) ∧
    ∀ sendSock, new.flatMap (fun n => (n.forget.seen req.msg sendSock).text) = call.fields cfg req sendSock first last

/-- Parameters that are added before the header field wait in the buffer. -/
theorem before_ok (cfg : RrConfig) (req : RrRequest) (buf : List Char) (bufMsg : Nat) (cs : List AddCall) :
    (addRrParams cfg req.id cs ⟨buf, bufMsg, req.addRm⟩).2.addRm =
        upTo req.headers req.addRm ++ behindOf req.headers req.addRm ∧
      (addRrParams cfg req.id cs ⟨buf, bufMsg, req.addRm⟩).2.stale req.id = req.found buf bufMsg ++
        (accepted (addRrParams cfg req.id cs ⟨buf, bufMsg, req.addRm⟩).1).flatten := by
  have hunmarked : ∀ t ∈ (⟨buf, bufMsg, req.addRm⟩ : RrState).addRm, t.Unmarked := req.unrecorded
  obtain ⟨hadd, hstale⟩ := addRrParams_unmarked cfg req.id hunmarked cs
  exact ⟨hadd.trans (upTo_append_behindOf ..).symm, hstale⟩

/-- **`record_route`** puts what was found in the buffer and all parameters into every header field. -/
theorem handle_recordRoute {params : List Char} {out inb : HeaderMem}
    (hcall : calls.record = .recordRoute params out inb fl) (hok : ¬(req.handle cfg buf bufMsg calls).record < 0) :
    req.Adds cfg calls.record (req.handle cfg buf bufMsg calls).addRm
      (req.found buf bufMsg ++ (req.handle cfg buf bufMsg calls).owedFirst)
      (req.found buf bufMsg ++ (req.handle cfg buf bufMsg calls).owed) := by
  obtain ⟨hadd, hstale⟩ := before_ok cfg req buf bufMsg calls.before
  have hsnoc : ∀ {l : TypedLump}, l.Unmarked → ∀ a ∈ upTo req.headers req.addRm ++ [l], a.Unmarked := fun hl =>
    forall_mem_append.mpr ⟨(forall_mem_append.mp req.unmarked).1, forall_mem_singleton.mpr hl⟩
  simp only [RrRequest.handle, RrOutcome.owed, RrOutcome.owedFirst, hcall, RecordCall.exec] at hok ⊢
  generalize addRrParams cfg req.id calls.before ⟨buf, bufMsg, req.addRm⟩ = before at hadd hstale hok ⊢
  obtain ⟨user, tag, huser, htag, hsingle, hdouble⟩ := recordRoute_ok (placed_split _ _) hadd hok
  rw [hstale] at hsingle hdouble
  -- the texts of a header field, as one text
  have hflat : ∀ rs : List (List Char), (bufTexts (req.found buf bufMsg ++ (accepted before.1).flatten) ++ rs).flatten =
      req.found buf bufMsg ++ (accepted before.1 ++ rs).flatten := fun rs => by
    rw [flatten_append, flatten_bufTexts, flatten_append, append_assoc]
  cases hd : cfg.enableDoubleRr with
  | false =>
    obtain ⟨l, l2, hrec, hfield⟩ := hsingle hd
    obtain ⟨l2', hafter, hsame, hcarries⟩ := addRrParams_single req.id hd (hsnoc hfield.unmarked) calls.after
      hfield.carries (hrec.trans (by simp : _ = upTo req.headers req.addRm ++
        [l] ++ l2 :: behindOf req.headers req.addRm))
    rw [recordedTexts, cons_append] at hcarries
    have hfield' := hfield.added hsame hcarries
    refine ⟨[l, l2'], ?_, hfield'.new, fun sendSock => ?_⟩
    · rw [hafter]
      simp
    · rw [hfield'.text req.msg sendSock, hflat]
      simp [RecordCall.fields, huser, htag, hd]
  | true =>
    obtain ⟨k, k2, l, l2, hrec, hkfield, hfield⟩ := hdouble hd
    obtain ⟨k2', l2', hafter, ⟨hksame, hkcarries⟩, hsame, hcarries⟩ :=
      addRrParams_double req.id hd (hsnoc hkfield.unmarked) (forall_mem_singleton.mpr hfield.unmarked) calls.after
        hkfield.carries hfield.carries
        (hrec.trans (by simp : _ = upTo req.headers req.addRm ++ [k] ++ k2 :: ([l] ++ l2 ::
          behindOf req.headers req.addRm)))
    rw [recordedTexts, cons_append] at hkcarries hcarries
    have hkfield' := hkfield.added hksame hkcarries
    have hfield' := hfield.added hsame hcarries
    refine ⟨[k, k2'] ++ [l, l2'], ?_, forall_mem_append.mpr ⟨hkfield'.new, hfield'.new⟩, fun sendSock => ?_⟩
    · rw [hafter]
      simp
    · rw [flatMap_append, hkfield'.text req.msg sendSock, hfield'.text req.msg sendSock, hflat, hflat]
      cases hcond : condHolds req.msg sendSock .ifDiffRealms <;> simp [RecordCall.fields, huser, htag, hd, hcond]

/-- **`record_route_preset`** puts no parameter anywhere. -/
theorem handle_recordRoutePreset {data : List Char} {mem : PresetMem}
    (hcall : calls.record = .recordRoutePreset data mem fl) (hok : ¬(req.handle cfg buf bufMsg calls).record < 0) :
    req.Adds cfg calls.record (req.handle cfg buf bufMsg calls).addRm [] [] ∧
    ((req.handle cfg buf bufMsg calls).owed = [] ↔ ∀ c ∈ calls.before ++ calls.after,
      c.param = [] ∨ rrParamBufSize < (req.found buf bufMsg).length + c.param.length) := by
  obtain ⟨hadd, hstale⟩ := before_ok cfg req buf bufMsg calls.before
  obtain ⟨hfront, hbehind⟩ := forall_mem_append.mp req.unmarked
  have hbefore : (accepted (addRrParams cfg req.id calls.before ⟨buf, bufMsg, req.addRm⟩).1).flatten = [] ↔
      ∀ c ∈ calls.before, c.param = [] ∨ rrParamBufSize < (req.found buf bufMsg).length + c.param.length :=
    accepted_eq_nil_iff cfg req.id req.unrecorded calls.before
  simp only [RrRequest.handle, RrOutcome.owed, hcall, RecordCall.exec] at hok ⊢
  generalize addRrParams cfg req.id calls.before ⟨buf, bufMsg, req.addRm⟩ = before at hadd hstale hok hbefore ⊢
  unfold recordRoutePreset at hok ⊢
  cases huser : req.userOf cfg with
  | none =>
    rw [huser] at hok
    exact absurd (show (-1 : Int) < 0 by decide) hok
  | some user =>
    cases htag : req.tagOf cfg with
    | none =>
      rw [huser, htag] at hok
      exact absurd (show (-2 : Int) < 0 by decide) hok
    | some tag =>
      rw [huser, htag] at hok
      dsimp only at hok ⊢
      obtain ⟨he, -, hok⟩ := ite_ok hok fun _ => by simp
      rw [he]
      obtain ⟨he, -, hok⟩ := ite_ok hok fun _ => by simp
      rw [he]
      obtain ⟨he, -, -⟩ := ite_ok hok fun _ => by simp
      rw [he]
      generalize hl : ({ anchor req.headers .recordRoute fl with
        after := (anchor req.headers .recordRoute fl).after.snoc .after
          (.add (presetHdr cfg user tag data ++ rrTerm)) .other fl } : TypedLump) = l
      have hlunmarked : l.Unmarked := by
        rw [← hl]
        intro x hx
        cases hx
      rw [hadd, link_of_placed (placed_split _ _)]
      generalize hts : upTo req.headers req.addRm ++ l :: behindOf req.headers req.addRm = ts
      have hlumps : ∀ t ∈ ({ before.2 with addRm := ts } : RrState).addRm, t.Unmarked := by
        rw [← hts]
        exact forall_mem_append.mpr ⟨hfront, forall_mem_cons.mpr ⟨hlunmarked, hbehind⟩⟩
      refine ⟨⟨[l], ?_, fun n hn => ?_, fun sendSock => ?_⟩, ?_⟩
      · rw [(addRrParams_unmarked cfg req.id hlumps calls.after).1, ← hts]
        rfl
      · rw [mem_singleton.mp hn, ← hl]
        refine ⟨rfl, noRand_forget fun x hx => ?_⟩
        obtain rfl := mem_singleton.mp hx
        nofun
      · rw [flatMap_singleton, seen_text, ← hl]
        simp [RecordCall.fields, huser, htag, anchor, TypedHung.snoc, TypedHung.chain, chainText,
          text?]
      · have hafter := accepted_eq_nil_iff cfg req.id hlumps calls.after
        have hsame : ({ before.2 with addRm := ts } : RrState).stale req.id = before.2.stale req.id := rfl
        rw [hsame, hstale] at hafter
        rw [flatten_append, append_eq_nil_iff, forall_mem_append, hbefore, hafter]
        refine and_congr_right fun hb => ?_
        rw [hbefore.mpr hb, append_nil]

/-- **The parameters are delivered** exactly when the condition holds, for every request that is record-routed once,
every calls before and after it, every state of the buffer, and every way the message is built. -/
theorem rr_params_iff (req : RrRequest) (cfg : RrConfig) (buf : List Char) (bufMsg : Nat) (calls : RrCalls)
    (hok : 0 ≤ (req.handle cfg buf bufMsg calls).record)
    (sendSock : Option SocketInfo) (newUri : Option (List Char)) (rs : Rand) :
    req.Delivered cfg buf bufMsg calls sendSock newUri rs ↔ calls.Honoured req buf bufMsg := by
  set o := req.handle cfg buf bufMsg calls
  obtain ⟨u, v, hbuilt⟩ := built_with req sendSock newUri rs
  obtain ⟨b₀, hb₀, hbuf₀⟩ := hbuilt [] (by simp)
  rw [nil_append, upTo_append_behindOf] at hb₀
  -- the message is built with the header fields that the lumps have
  have hwith : ∀ first last, req.Adds cfg calls.record o.addRm first last →
      (req.Delivered cfg buf bufMsg calls sendSock newUri rs →
        (calls.record.fields cfg req sendSock first last).length =
          (calls.record.fields cfg req sendSock o.owedFirst o.owed).length) ∧
      (calls.record.fields cfg req sendSock first last = calls.record.fields cfg req sendSock o.owedFirst o.owed →
        req.Delivered cfg buf bufMsg calls sendSock newUri rs) := by
    rintro first last ⟨new, hadd, hnew, htext⟩
    obtain ⟨b₁, hb₁, hbuf₁⟩ := hbuilt new hnew
    rw [← hadd] at hb₁
    rw [htext] at hbuf₁
    refine ⟨?_, fun heq => ⟨u, v, b₀, b₁, hb₀, hb₁, hbuf₀, by rw [hbuf₁, heq]⟩⟩
    rintro ⟨u', v', c₀, c₁, hc₀, hc₁, hbuf₀', hbuf₁'⟩
    obtain rfl := Option.some.inj (hb₀.symm.trans hc₀)
    obtain rfl := Option.some.inj (hb₁.symm.trans hc₁)
    exact length_eq_of_between hbuf₀ hbuf₁ hbuf₀' hbuf₁'
  obtain ⟨k, n, hlength⟩ := calls.record.length_fields cfg req sendSock
  have hok' : ¬o.record < 0 := not_lt.mpr hok
  cases hcall : calls.record with
  | recordRoute =>
    obtain ⟨hlen, hdel⟩ := hwith (_ ++ o.owedFirst) (_ ++ o.owed) (handle_recordRoute hcall hok')
    have hcond : calls.Honoured req buf bufMsg ↔ req.found buf bufMsg = [] := by
      unfold RrCalls.Honoured RrRequest.found
      rw [hcall]
      by_cases hid : bufMsg = req.id <;> simp [hid]
    rw [hcond]
    refine ⟨fun h => ?_, fun h => hdel (by rw [h, nil_append, nil_append])⟩
    have hsum := hlen h
    rw [hlength, hlength, length_append, length_append, Nat.mul_add] at hsum
    exact eq_nil_of_length_eq_zero (by omega)
  | recordRoutePreset =>
    obtain ⟨hnew, howed⟩ := handle_recordRoutePreset hcall hok'
    obtain ⟨hlen, hdel⟩ := hwith [] [] hnew
    have hcond : calls.Honoured req buf bufMsg ↔ o.owed = [] := by
      rw [howed]
      unfold RrCalls.Honoured RrRequest.found
      rw [hcall]
      by_cases hid : bufMsg = req.id <;> simp [hid]
    rw [hcond]
    refine ⟨fun h => ?_, fun h => hdel ?_⟩
    · have hsum := hlen h
      rw [hlength, hlength, length_nil, Nat.mul_zero] at hsum
      exact eq_nil_of_length_eq_zero (by omega)
    · rw [h, hcall]
      rfl

def proxySocket : SocketInfo := ⟨⟨afInet, 4, [10, 0, 0, 1]⟩, "10.0.0.1".toList, 5060, "5060".toList, .udp⟩

def invite : RrRequest where
  msg := {
    buf := "INVITE sip:b SIP/2.0\r\nTo: b\r\n\r\n".toList
    len_lt := by decide
    eoh := some 29
    uri := 7
    uriLen := 5
    uri_le := by decide
    rcv := ⟨proxySocket.address, 5060, .udp, some proxySocket⟩
    setGlobalAddress := []
    setGlobalPort := []
    addRm := []
    bodyLumps := [] }
  id := 7
  headers := 22
  user := some []
  fromTag := some ['t']
  addRm := []
  addRm_eq := rfl
  uri_le := by decide
  headers_le := by decide
  not_inBody := by decide
  lumps := by simp
  body := by simp
  unrecorded := by simp

def rrDefaults : RrConfig := ⟨true, true, false, false⟩

/-- One parameter before `record_route` and one after it. -/
def recordedCalls : RrCalls := ⟨[⟨";a=1".toList, 0, true, true, true, true⟩], .recordRoute [] {} {} 0,
  [⟨";b=2".toList, 0, true, true, true, true⟩]⟩

/-- Both parameters are in the header field. -/
theorem rr_params_recorded : invite.Delivered rrDefaults [] 0 recordedCalls (some proxySocket) none (fun _ => 0) ∧
    (buildReqBufFromSipReq (invite.carrying (invite.handle rrDefaults [] 0 recordedCalls).addRm) (some proxySocket) none
      fun _ => 0).map (·.newBuf) =
      some "INVITE sip:b SIP/2.0\r\nRecord-Route: <sip:10.0.0.1;lr;ftag=t;a=1;b=2>\r\nTo: b\r\n\r\n".toList :=
  ⟨(rr_params_iff invite rrDefaults [] 0 recordedCalls (by decide +kernel) _ _ _).mpr (.inl rfl),
    by decide +kernel⟩

/-- One parameter for a request that is record-routed by `record_route_preset`. -/
def presetCalls : RrCalls :=
  ⟨[], .recordRoutePreset "10.0.0.1".toList {} 0, [⟨";b=2".toList, 0, true, true, true, true⟩]⟩

/-- Two ways to go wrong. A parameter for a header field of `record_route_preset` is accepted and lost. A parameter that
an earlier message with the same id has left in the buffer turns up in the header field of this one. -/
theorem rr_params_wrong :
    ((invite.handle rrDefaults [] 0 presetCalls).record = 1 ∧
      (invite.handle rrDefaults [] 0 presetCalls).after.map Prod.snd = [0] ∧
      (buildReqBufFromSipReq (invite.carrying (invite.handle rrDefaults [] 0 presetCalls).addRm) (some proxySocket) none
        fun _ => 0).map (·.newBuf) =
        some "INVITE sip:b SIP/2.0\r\nRecord-Route: <sip:10.0.0.1;ftag=t;lr>\r\nTo: b\r\n\r\n".toList ∧
      ¬invite.Delivered rrDefaults [] 0 presetCalls (some proxySocket) none fun _ => 0) ∧
    (invite.handle rrDefaults ";x=9".toList 7 recordedCalls).record = 0 ∧
      (buildReqBufFromSipReq (invite.carrying (invite.handle rrDefaults ";x=9".toList 7 recordedCalls).addRm)
        (some proxySocket) none fun _ => 0).map (·.newBuf) =
        some "INVITE sip:b SIP/2.0\r\nRecord-Route: <sip:10.0.0.1;lr;ftag=t;x=9;a=1;b=2>\r\nTo: b\r\n\r\n".toList ∧
      ¬invite.Delivered rrDefaults ";x=9".toList 7 recordedCalls (some proxySocket) none fun _ => 0 := by
  -- both times the message has another length than it should have
  have hwrong : ∀ (buf : List Char) (bufMsg : Nat) (calls : RrCalls),
      ((buildReqBufFromSipReq (invite.carrying invite.addRm) (some proxySocket) none
        fun _ => 0).map fun b => b.newBuf.length + (calls.record.fields rrDefaults invite (some proxySocket)
          (invite.handle rrDefaults buf bufMsg calls).owedFirst
            (invite.handle rrDefaults buf bufMsg calls).owed).length) ≠
        (buildReqBufFromSipReq (invite.carrying (invite.handle rrDefaults buf bufMsg calls).addRm)
          (some proxySocket) none
          fun _ => 0).map (·.newBuf.length) →
      ¬invite.Delivered rrDefaults buf bufMsg calls (some proxySocket) none fun _ => 0 := by
    rintro buf bufMsg calls hne ⟨u, v, b₀, b₁, hb₀, hb₁, hbuf₀, hbuf₁⟩
    apply hne
    rw [hb₀, hb₁, Option.map_some, Option.map_some, hbuf₀, hbuf₁]
    simp only [length_append]
    congr 1
    omega
  refine ⟨⟨by decide +kernel, by decide +kernel, by decide +kernel, hwrong _ _ _ (by decide +kernel)⟩,
    by decide +kernel, by decide +kernel, hwrong _ _ _ (by decide +kernel)⟩

end OpenSer.Rr
