import OpenSer.LumpRewrite

/-!
# The lumps of a branch

While a branch is prepared, new lumps carry `LUMPFLAG_BRANCH`, and `post_print_uac_request` removes them when the branch
is built. In between `lumps_len` has repaired all lumps in place. So a lump of the request that a deletion of the branch
has pushed to the right stays there when the deletion is gone.

* `bare_over_run`: whatever the branch adds, the flagged lumps are all that it adds.
* `branch_isolated_iff`: when the next branch is built as if this one had not been there.
-/

namespace OpenSer

open List Lib Lump Edit SipMsg Hung Nat

/-! ## What is left without the flagged lumps -/

def Hung.flaggedChain (dir : Dir) : Hung → List (LumpOp × Nat)
  | .null => []
  | .lump op fl b a => (op, fl) :: match dir with
    | .before => b.flaggedChain dir
    | .after => a.flaggedChain dir

/-- The lumps of a chain that belong to the request. -/
def Hung.bareChain (dir : Dir) (h : Hung) : List LumpOp :=
  ((h.flaggedChain dir).filter fun q => q.2 &&& lumpflagBranch = 0).map Prod.fst

def Lump.Branch (t : Lump) : Prop := t.flags &&& lumpflagBranch ≠ 0

instance (t : Lump) : Decidable t.Branch := inferInstanceAs (Decidable (_ ≠ _))

/-- A lump of the request, with its texts that belong to the request. -/
structure Bare where
  op : LumpOp
  before : List LumpOp
  after : List LumpOp

/-- What of a lump belongs to the request. -/
def Lump.bare (t : Lump) : Bare := ⟨t.op, t.before.bareChain .before, t.after.bareChain .after⟩

def bareList (ts : List Lump) : List Bare := (ts.filter fun t => ¬t.Branch).map Lump.bare

/-- The chains of the lump, as they are. -/
def Lump.plain (t : Lump) : Bare := ⟨t.op, t.before.chain .before, t.after.chain .after⟩

/-- `post_print_uac_request`, as far as it concerns the lumps. -/
def SipMsg.postPrintUacRequest (msg : SipMsg) : SipMsg :=
  { msg with
    addRm := delFlagedLumps lumpflagBranch msg.addRm
    bodyLumps := delFlagedLumps lumpflagBranch msg.bodyLumps }

variable {dir d : Dir} {op : LumpOp} {fl s s' n : Nat} {t : Lump} {ts : List Lump} {msg msg' msg'' : SipMsg}
  {sendSock : Option SocketInfo} {st : LumpStep}

theorem Hung.bareChain_lump (dir : Dir) (op : LumpOp) (fl : Nat) (b a : Hung) :
    (lump op fl b a).bareChain dir = if fl &&& lumpflagBranch = 0
      then op :: (match dir with | .before => b | .after => a).bareChain dir
      else (match dir with | .before => b | .after => a).bareChain dir := by
  by_cases hfl : fl &&& lumpflagBranch = 0
  · cases dir <;> simp [bareChain, flaggedChain, hfl]
  · cases dir <;> simp [bareChain, flaggedChain, hfl]

theorem Hung.chain_delFlaged (h : Hung) : (h.delFlaged lumpflagBranch dir).chain dir = h.bareChain dir := by
  induction h with
  | null => rfl
  | lump op fl b a ihb iha =>
    rw [bareChain_lump]
    cases dir with
    | before | after =>
      by_cases hfl : fl &&& lumpflagBranch = 0
      · rw [delFlaged, if_neg (not_not_intro hfl), if_pos hfl, chain]
        simp only [ihb, iha]
      · rw [delFlaged, if_pos hfl, if_neg hfl]
        simp only [ihb, iha]

theorem bareList_cons (t : Lump) (ts : List Lump) :
    bareList (t :: ts) = if t.Branch then bareList ts else t.bare :: bareList ts := by
  by_cases hb : t.Branch
  · simp [bareList, hb]
  · simp [bareList, hb]

/-- **`del_flaged_lumps`** leaves what belongs to the request. -/
theorem plain_delFlagedLumps (ts : List Lump) : (delFlagedLumps lumpflagBranch ts).map plain = bareList ts := by
  induction ts with
  | nil => rfl
  | cons t ts ih =>
    rw [delFlagedLumps, bareList_cons]
    by_cases hb : t.Branch
    · rw [if_pos hb, if_pos (show t.flags &&& lumpflagBranch ≠ 0 from hb), ih]
    · rw [if_neg hb, if_neg (show ¬t.flags &&& lumpflagBranch ≠ 0 from hb), map_cons, ih, plain]
      simp only [chain_delFlaged]
      rfl

theorem Hung.bareChain_hang (hfl : fl &&& lumpflagBranch ≠ 0) : ∀ (path : List Dir) (h : Hung),
    (h.hang d op fl path).bareChain dir = h.bareChain dir
  | [], .null => rfl
  | _ :: _, .null => rfl
  | [], .lump o f b a => by
    cases d <;> cases dir <;> simp [hang, hangOn, bareChain, flaggedChain, filter_cons, hfl]
  | .before :: path, .lump o f b a => by
    have ih := bareChain_hang hfl path b
    cases dir with
    | before => simp only [hang, bareChain_lump, ih]
    | after => rfl
  | .after :: path, .lump o f b a => by
    have ih := bareChain_hang hfl path a
    cases dir with
    | before => rfl
    | after => simp only [hang, bareChain_lump, ih]

theorem Lump.bare_hang (d : Dir) (op : LumpOp) (hfl : fl &&& lumpflagBranch ≠ 0) (t : Lump) (path : List Dir) :
    (t.hang d op fl path).bare = t.bare ∧ (t.hang d op fl path).flags = t.flags := by
  cases path with
  | nil =>
    cases d <;> simp [hang, hangOn, bare, bareChain, flaggedChain, hfl]
  | cons e path =>
    cases e with
    | before | after => exact ⟨by simp [hang, bare, bareChain_hang hfl], rfl⟩

theorem bareList_modify (hfl : fl &&& lumpflagBranch ≠ 0) (path : List Dir) : ∀ (ts : List Lump) (i : Nat),
    bareList (ts.modify i (·.hang d op fl path)) = bareList ts
  | [], i => by simp
  | t :: ts, 0 => by
    obtain ⟨hbare, hflags⟩ := bare_hang d op hfl t path
    have hbranch : (t.hang d op fl path).Branch ↔ t.Branch := by rw [Lump.Branch, Lump.Branch, hflags]
    simp only [modify_zero_cons, bareList_cons, hbranch, hbare]
  | t :: ts, i + 1 => by
    rw [modify_succ_cons, bareList_cons, bareList_cons, bareList_modify hfl path ts i]

theorem bareList_insertLump {offset : Nat} {tmp : Lump} (h : tmp.Branch) (ts : List Lump) :
    bareList (insertLump offset tmp ts) = bareList ts := by
  induction ts with
  | nil => simp [insertLump, bareList, h]
  | cons t ts ih =>
    rw [insertLump]
    split
    · rw [bareList_cons, if_pos h]
    · rw [bareList_cons, bareList_cons, ih]

/-! ## The calls of a branch -/

/-- The parts of a message that calls on its lumps leave alone. -/
structure SameBase (msg msg' : SipMsg) : Prop extends SameText msg msg' where
  buf : msg'.buf = msg.buf
  uri : msg'.uri = msg.uri
  uriLen : msg'.uriLen = msg.uriLen

/-- A call made while a branch is prepared, with a range that lies within the message. -/
def LumpStep.OnBranch (msg : SipMsg) (st : LumpStep) : Prop :=
  st.initLumpFlags = lumpflagBranch ∧
    ∀ offset len, st.call = .delLump offset len → offset.toNat + len.toNat ≤ msg.buf.length

/-- What holds of a message `msg'` that the calls of a branch have made of `msg`. -/
structure Branched (msg msg' : SipMsg) : Prop where
  base : SameBase msg msg'
  within : ∀ t ∈ msg'.addRm ++ msg'.bodyLumps, t.op.Within msg'.buf.length
  addRm : bareList msg'.addRm = bareList msg.addRm
  bodyLumps : bareList msg'.bodyLumps = bareList msg.bodyLumps
  sortedAddRm : msg'.addRm.Pairwise fun t u => t.op.range.1 ≤ u.op.range.1
  sortedBodyLumps : msg'.bodyLumps.Pairwise fun t u => t.op.range.1 ≤ u.op.range.1

theorem LumpStep.Acts.bareList_eq {body : Bool} {f : List Lump → List Lump} (h : st.Acts msg body f)
    (hfl : st.initLumpFlags = lumpflagBranch) (ts : List Lump) : bareList (f ts) = bareList ts := by
  have hbranch : st.initLumpFlags &&& lumpflagBranch ≠ 0 := by
    rw [hfl]
    decide
  cases h with
  | link op => exact bareList_insertLump (show Lump.Branch ⟨op, _, .null, .null⟩ from hbranch) ts
  | hang _ _ i path => exact bareList_modify hbranch path ts i

/-- **One call of a branch** adds flagged lumps only. -/
theorem Branched.step (h : Branched msg msg') (hst : st.OnBranch msg')
    (he : msg'.exec st = some msg'') : Branched msg msg'' := by
  obtain ⟨hfl, hrange⟩ := hst
  rcases exec_cases he with rfl | ⟨body, f, hf, rfl⟩
  · exact h
  obtain ⟨⟨⟨hrcv, haddr, hport⟩, hbuf, huri, hlen⟩, hwithin, hadd, hbody, hsadd, hsbody⟩ := h
  obtain ⟨haddRm, hbodyLumps⟩ := forall_mem_append.mp hwithin
  have hin : ∀ {ts : List Lump}, (∀ t ∈ ts, t.op.Within msg'.buf.length) → ∀ t ∈ f ts, t.op.Within msg'.buf.length := by
    intro ts hts t ht
    rcases hf.mem ht with ht | ⟨op, rfl, -, hop⟩ | ⟨u, hu, dir, op, path, rfl, -⟩
    · exact hts t ht
    · exact hop hrange
    · rw [op_hang]
      exact hts u hu
  cases body with
  | false =>
    exact ⟨⟨⟨hrcv, haddr, hport⟩, hbuf, huri, hlen⟩, forall_mem_append.mpr ⟨hin haddRm, hbodyLumps⟩,
      (hf.bareList_eq hfl _).trans hadd, hbody, hf.sorted haddRm hsadd, hsbody⟩
  | true =>
    exact ⟨⟨⟨hrcv, haddr, hport⟩, hbuf, huri, hlen⟩, forall_mem_append.mpr ⟨haddRm, hin hbodyLumps⟩, hadd,
      (hf.bareList_eq hfl _).trans hbody, hsadd, hf.sorted hbodyLumps hsbody⟩

/-! ## Pushed lumps -/

variable (msg sendSock) in
/-- What of a lump belongs to the request, as an edit. -/
def Bare.edit (t : Bare) : Edit Char :=
  ⟨t.op.range.1, t.op.range.2, chainText msg sendSock t.before ++ chainText msg sendSock t.after⟩

variable (msg sendSock) in
/-- The lumps of the request in a list, as they are repaired without the branch and with it. -/
def pushed : Nat → Nat → List Lump → List (Edit Char × Edit Char)
  | _, _, [] => []
  | s, s', t :: ts =>
    let stop := t.op.range.1 + t.op.range.2
    if t.Branch then pushed s (max stop s') ts
    else ((t.bare.edit msg sendSock).cut s, (t.bare.edit msg sendSock).cut s') :: pushed (max stop s) (max stop s') ts

theorem fst_pushed (s s' : Nat) (ts : List Lump) :
    (pushed msg sendSock s s' ts).map Prod.fst = repair s ((bareList ts).map (Bare.edit msg sendSock)) := by
  induction ts generalizing s s' with
  | nil => rfl
  | cons t ts ih =>
    rw [pushed, bareList_cons]
    by_cases hb : t.Branch
    · rw [if_pos hb, if_pos hb, ih]
    · rw [if_neg hb, if_neg hb, map_cons, ih, map_cons, repair, stop_cut]
      rfl

theorem Lump.bare_cut (h : t.op.Within n) (s : Nat) :
    (bare { t with op := t.op.cut s }).edit msg sendSock = (t.bare.edit msg sendSock).cut s := h.edit_cut s _

theorem snd_pushed (hts : ∀ t ∈ ts, t.op.Within n) (s s' : Nat) : (pushed msg sendSock s s' ts).map Prod.snd =
    (delFlagedLumps lumpflagBranch (repairLumps s' ts)).map (seen msg sendSock) := by
  have hplain : ∀ us, (delFlagedLumps lumpflagBranch us).map (seen msg sendSock) =
      (bareList us).map (Bare.edit msg sendSock) := by
    intro us
    rw [← plain_delFlagedLumps, map_map]
    rfl
  rw [hplain]
  induction ts generalizing s s' with
  | nil => rfl
  | cons t ts ih =>
    obtain ⟨ht, hts⟩ := forall_mem_cons.mp hts
    have ih := ih hts
    rw [pushed, repairLumps, bareList_cons]
    by_cases hb : t.Branch
    · have hb' : Lump.Branch { t with op := t.op.cut s' } := hb
      rw [if_pos hb, if_pos hb', ih]
    · have hb' : ¬Lump.Branch { t with op := t.op.cut s' } := hb
      rw [if_neg hb, if_neg hb', map_cons, ih, map_cons, bare_cut ht]

theorem moved_pushed (h : s ≤ s') : ∀ q ∈ pushed msg sendSock s s' ts, Moved q.1 q.2 := by
  induction ts generalizing s s' with
  | nil => simp [pushed]
  | cons t ts ih =>
    intro q hq
    rw [pushed] at hq
    by_cases hb : t.Branch
    · rw [if_pos hb] at hq
      exact ih (by omega) q hq
    · rw [if_neg hb] at hq
      rcases mem_cons.mp hq with rfl | hq
      · refine ⟨rfl, ?_, ?_, ?_⟩
        · simp only [Edit.cut]
          omega
        · rw [stop_cut, stop_cut]
          omega
        · rw [stop_cut, stop_cut]
          simp only [Edit.cut]
          omega
      · exact ih (by omega) q hq

variable (msg sendSock) in
theorem chained_snd_pushed (s s' : Nat) (ts : List Lump) :
    Chained s' ((pushed msg sendSock s s' ts).map Prod.snd) := by
  induction ts generalizing s s' with
  | nil => trivial
  | cons t ts ih =>
    rw [pushed]
    by_cases hb : t.Branch
    · rw [if_pos hb]
      exact (ih s _).weaken (le_max_right ..)
    · rw [if_neg hb]
      refine ⟨le_max_right .., ?_⟩
      rw [stop_cut]
      exact ih _ _

/-! ## The condition -/

def reach (ts : List Lump) : Nat := ts.foldr (fun t m => max (t.op.range.1 + t.op.range.2) m) 0

/-- Where the lump is repaired to when the lumps of the request before it are those of `pre`. -/
def Lump.placedAt (t : Lump) (pre : List Lump) : Nat :=
  max t.op.range.1 (reach (pre.filter fun u => ¬u.Branch))

variable (msg sendSock) in
/-- The lump of the request still deletes something there, or has a text. -/
def Lump.Needed (t : Lump) (pre : List Lump) : Prop :=
  t.placedAt pre < t.op.range.1 + t.op.range.2 ∨ (t.bare.edit msg sendSock).text ≠ []

/-- **No deletion of the branch pushes** a lump of the request that is needed, or pushes one before it beyond it. -/
structure Undisturbed (msg : SipMsg) (sendSock : Option SocketInfo) : Prop where
  addRm : ∀ pre t post, msg.addRm = pre ++ t :: post → ¬t.Branch → t.Needed msg sendSock pre →
    reach pre ≤ t.placedAt pre
  bodyLumps : ∀ pre t post, msg.bodyLumps = pre ++ t :: post → ¬t.Branch → t.Needed msg sendSock pre →
    reach pre ≤ t.placedAt pre
  across : ∀ pre t post, msg.bodyLumps = pre ++ t :: post → ¬t.Branch → t.Needed msg sendSock pre →
    ∀ pre' t' post', msg.addRm = pre' ++ t' :: post' → ¬t'.Branch → reach pre' ≤ t.placedAt pre

theorem reach_cons (t : Lump) (ts : List Lump) : reach (t :: ts) = max (t.op.range.1 + t.op.range.2) (reach ts) := rfl

theorem reach_filter_le (p : Lump → Bool) (ts : List Lump) : reach (ts.filter p) ≤ reach ts := by
  induction ts with
  | nil => exact le_rfl
  | cons t ts ih =>
    rw [filter_cons]
    split
    · rw [reach_cons, reach_cons]
      omega
    · rw [reach_cons]
      omega

theorem exists_split_cons {α : Type*} {a : α} {l : List α} {P : List α → α → List α → Prop} :
    (∃ pre x post, a :: l = pre ++ x :: post ∧ P pre x post) ↔
      P [] a l ∨ ∃ pre x post, l = pre ++ x :: post ∧ P (a :: pre) x post := by
  constructor
  · rintro ⟨pre, x, post, he, hp⟩
    cases pre with
    | nil =>
      cases he
      exact .inl hp
    | cons b pre =>
      cases he
      exact .inr ⟨pre, x, post, rfl, hp⟩
  · rintro (hp | ⟨pre, x, post, rfl, hp⟩)
    · exact ⟨[], a, l, rfl, hp⟩
    · exact ⟨a :: pre, x, post, rfl, hp⟩

theorem mem_pushed {q : Edit Char × Edit Char} : q ∈ pushed msg sendSock s s' ts ↔
    ∃ pre t post, ts = pre ++ t :: post ∧ ¬t.Branch ∧
      q = ((t.bare.edit msg sendSock).cut (max (reach (pre.filter fun u => ¬u.Branch)) s),
        (t.bare.edit msg sendSock).cut (max (reach pre) s')) := by
  have hmax : ∀ a b c : Nat, max b (max a c) = max (max a b) c := fun a b c => by omega
  induction ts generalizing s s' with
  | nil => simp [pushed]
  | cons t ts ih =>
    rw [pushed, exists_split_cons]
    by_cases hb : t.Branch
    · rw [if_pos hb, or_iff_right fun hc => hc.1 hb]
      refine ih.trans ?_
      simp only [filter_cons_of_neg (p := fun u : Lump => decide ¬u.Branch) (a := t) (by simpa using hb),
        reach_cons, hmax]
    · rw [if_neg hb, mem_cons]
      refine (or_congr Iff.rfl ih).trans ?_
      simp only [filter_cons_of_pos (p := fun u : Lump => decide ¬u.Branch) (a := t) (by simpa using hb),
        reach_cons, hmax]
      simp [reach, hb]

theorem acts_iff_needed (t : Lump) (pre : List Lump) :
    ((t.bare.edit msg sendSock).cut (max (reach (pre.filter fun u => ¬u.Branch)) 0)).Acts ↔
      t.Needed msg sendSock pre := by
  rw [Lump.Needed, placedAt]
  refine or_congr ?_ Iff.rfl
  show 0 < t.op.range.1 + t.op.range.2 - max t.op.range.1 _ ↔ _
  omega

theorem still_pushed_iff (ts : List Lump) :
    (∀ q ∈ pushed msg sendSock 0 0 ts, q.1.Acts → q.2.pos = q.1.pos) ↔
      ∀ pre t post, ts = pre ++ t :: post → ¬t.Branch → t.Needed msg sendSock pre → reach pre ≤ t.placedAt pre := by
  have hpos : ∀ (t : Lump) (pre : List Lump), ((t.bare.edit msg sendSock).cut (max (reach pre) 0)).pos =
      ((t.bare.edit msg sendSock).cut (max (reach (pre.filter fun u => ¬u.Branch)) 0)).pos ↔
        reach pre ≤ t.placedAt pre := by
    intro t pre
    have hle := reach_filter_le (fun u => ¬u.Branch) pre
    show max t.op.range.1 _ = max t.op.range.1 _ ↔ _ ≤ max _ _
    omega
  constructor
  · intro h pre t post hts hb hneed
    rw [← hpos]
    exact h _ (mem_pushed.mpr ⟨pre, t, post, hts, hb, rfl⟩) ((acts_iff_needed t pre).mpr hneed)
  · intro h q hq hacts
    obtain ⟨pre, t, post, hts, hb, rfl⟩ := mem_pushed.mp hq
    exact (hpos t pre).mpr (h pre t post hts hb ((acts_iff_needed t pre).mp hacts))

/-! ## Building the next branch -/

variable (sendSock) in
theorem Bare.edit_congr (h : SameText msg msg') : Bare.edit msg' sendSock = Bare.edit msg sendSock := by
  funext t
  rw [Bare.edit, chainText_congr h, chainText_congr h, Bare.edit]

theorem pushed_congr (h : SameText msg msg') (s s' : Nat) (ts : List Lump) :
    pushed msg' sendSock s s' ts = pushed msg sendSock s s' ts := by
  induction ts generalizing s s' with
  | nil => rfl
  | cons t ts ih => rw [pushed, pushed, Bare.edit_congr sendSock h, ih, ih]

/-- A message that differs in its bytes only. -/
def SipMsg.withBuf (msg : SipMsg) (buf : List Char) : SipMsg :=
  if h : buf.length = msg.buf.length then { msg with buf := buf, len_lt := h ▸ msg.len_lt, uri_le := h ▸ msg.uri_le }
  else msg

/-- The next branch: this one is built, its lumps are removed, and the request is built again. -/
def SipMsg.nextBranch (msg : SipMsg) (sendSock₁ : Option SocketInfo) (newUri₁ : Option (List Char)) (rs₁ : Rand)
    (sendSock : Option SocketInfo) (newUri : Option (List Char)) (rs : Rand) : Option (Nat × List Char) :=
  (buildReqBufFromSipReq msg sendSock₁ newUri₁ rs₁).bind fun b =>
    (buildReqBufFromSipReq b.msg.postPrintUacRequest sendSock newUri rs).map fun b' => (b'.returnedLen, b'.newBuf)

/-- `process_lumps` does not read outside of the message, whatever hangs on the lumps. -/
theorem processLumps_some (hts : ∀ t ∈ ts, t.op.Within msg.buf.length) (st : Copied)
    (hst : st.sOffset ≤ msg.buf.length) :
    ∃ st', processLumps msg sendSock ts st = some st' ∧ st'.sOffset ≤ msg.buf.length := by
  induction ts generalizing st with
  | nil => exact ⟨st, rfl, hst⟩
  | cons t ts ih =>
    obtain ⟨ht, hts⟩ := forall_mem_cons.mp hts
    have hstop := ht.stop_le
    have hlen := msg.len_lt
    rw [processLumps_cons ht, copyAt]
    split
    · exact ih hts st hst
    · rw [if_neg (by omega)]
      refine ih hts _ ?_
      rw [u32add_of_lt (by omega)]
      exact hstop

theorem buildReq_repairs (hts : ∀ t ∈ msg.addRm ++ msg.bodyLumps, t.op.Within msg.buf.length)
    (sendSock : Option SocketInfo) (newUri : Option (List Char)) (rs : Rand) :
    ∃ b, buildReqBufFromSipReq msg sendSock newUri rs = some b ∧
      b.msg = { msg with addRm := repairLumps 0 msg.addRm, bodyLumps := repairLumps 0 msg.bodyLumps } := by
  obtain ⟨hadd, hbody⟩ := forall_mem_append.mp hts
  obtain ⟨v₁, rs₁, h₁⟩ : ∃ v r, lumpsLen msg sendSock msg.bodyLumps rs = (repairLumps 0 msg.bodyLumps, v, r) :=
    ⟨_, _, Prod.ext (lumpsLenLoop_fst msg sendSock hbody (zero_le _) msg.len_lt 0 rs) rfl⟩
  obtain ⟨v₂, rs₂, h₂⟩ : ∃ v r, lumpsLen msg sendSock msg.addRm rs₁ = (repairLumps 0 msg.addRm, v, r) :=
    ⟨_, _, Prod.ext (lumpsLenLoop_fst msg sendSock hadd (zero_le _) msg.len_lt 0 rs₁) rfl⟩
  have hboth : ∀ st : Copied, st.sOffset ≤ msg.buf.length →
      ∃ st', (processLumps msg sendSock (repairLumps 0 msg.addRm) st).bind
        (processLumps msg sendSock (repairLumps 0 msg.bodyLumps)) = some st' ∧ st'.sOffset ≤ msg.buf.length := by
    intro st hst
    obtain ⟨st₁, hst₁, hle₁⟩ := processLumps_some (within_repairLumps hadd (zero_le _)) st hst
    obtain ⟨st₂, hst₂, hle₂⟩ := processLumps_some (within_repairLumps hbody (zero_le _)) st₁ hle₁
    exact ⟨st₂, by rw [hst₁, Option.bind_some, hst₂], hle₂⟩
  unfold buildReqBufFromSipReq
  cases newUri with
  | none =>
    obtain ⟨st, hst, hle⟩ := hboth ⟨[], 0, rs₂⟩ (zero_le _)
    simp only [h₁, h₂, hst, Option.bind_some, if_neg (not_lt.mpr hle)]
    exact ⟨_, rfl, rfl⟩
  | some newUri =>
    obtain ⟨st, hst, hle⟩ := hboth ⟨msg.buf.take msg.uri ++ newUri, msg.uri + msg.uriLen, rs₂⟩ msg.uri_le
    simp only [h₁, h₂, hst, Option.bind_some, if_neg (not_lt.mpr hle)]
    exact ⟨_, rfl, rfl⟩

/-- No lump of the request is flagged. -/
def Lump.Unflagged (t : Lump) : Prop :=
  ¬t.Branch ∧ t.before.bareChain .before = t.before.chain .before ∧ t.after.bareChain .after = t.after.chain .after

theorem bareList_of_unflagged (h : ∀ t ∈ ts, t.Unflagged) : bareList ts = ts.map plain := by
  rw [bareList, filter_eq_self.mpr fun t ht => by simpa using (h t ht).1]
  refine map_congr_left fun t ht => ?_
  obtain ⟨-, hb, ha⟩ := h t ht
  rw [bare, hb, ha, plain]

variable (msg sendSock) in
/-- All edits of the request, without the branch `msg'` and with it. -/
def pushedAll (msg' : SipMsg) (newUri : Option (List Char)) : List (Edit Char × Edit Char) :=
  (msg.uriEdits newUri).map (fun e => (e, e)) ++
    (pushed msg sendSock 0 0 msg'.addRm ++ pushed msg sendSock 0 0 msg'.bodyLumps)

section
variable (hts : ∀ t ∈ ts, t.op.Within n)
include hts

theorem mem_delFlaged
    (ht : t ∈ delFlagedLumps lumpflagBranch (repairLumps 0 ts)) :
    ∃ u ∈ ts, ¬u.Branch ∧ ∃ k ≤ n, t.plain = ⟨u.op.cut k, u.before.bareChain .before, u.after.bareChain .after⟩ := by
  have hplain : t.plain ∈ bareList (repairLumps 0 ts) := by
    rw [← plain_delFlagedLumps]
    exact mem_map_of_mem ht
  obtain ⟨v, hv, hvt⟩ := mem_map.mp hplain
  obtain ⟨hv, hvb⟩ := mem_filter.mp hv
  obtain ⟨u, hu, k, hk, rfl⟩ := mem_repairLumps hts (zero_le _) v hv
  exact ⟨u, hu, of_decide_eq_true hvb, k, hk, hvt.symm⟩

theorem within_delFlaged :
    ∀ t ∈ delFlagedLumps lumpflagBranch (repairLumps 0 ts), t.op.Within n := by
  intro t ht
  obtain ⟨u, hu, -, k, hk, he⟩ := mem_delFlaged hts ht
  have hop : t.op = u.op.cut k := congrArg Bare.op he
  exact hop ▸ (hts u hu).cut hk

/-- A list of lumps of the branch, after it was built and the flagged lumps were removed, is not repaired further. -/
theorem seen_repair_delFlaged :
    (repairLumps 0 (delFlagedLumps lumpflagBranch (repairLumps 0 ts))).map (seen msg sendSock) =
      (pushed msg sendSock 0 0 ts).map Prod.snd := by
  rw [map_seen_repairLumps (within_delFlaged hts), ← snd_pushed hts 0 0,
    (chained_snd_pushed msg sendSock 0 0 ts).repair_eq]

end

variable (sendSock) in
theorem Branched.fst_pushedAll (hB : Branched msg msg') (h : msg.Formed)
    (hflags : ∀ t ∈ msg.addRm ++ msg.bodyLumps, t.Unflagged) (newUri : Option (List Char)) :
    (pushedAll msg sendSock msg' newUri).map Prod.fst = msg.seenEdits sendSock newUri := by
  obtain ⟨hadd, hbody⟩ := forall_mem_append.mp h.lumps
  obtain ⟨hfadd, hfbody⟩ := forall_mem_append.mp hflags
  have hid : ((msg.uriEdits newUri).map fun e => (e, e)).map Prod.fst = msg.uriEdits newUri := by
    rw [map_map]
    exact map_id _
  rw [pushedAll, map_append, map_append, hid, fst_pushed, fst_pushed, hB.addRm, hB.bodyLumps,
    bareList_of_unflagged hfadd, bareList_of_unflagged hfbody, seenEdits, map_append,
    map_seen_repairLumps fun t ht => (hadd t ht).within, map_seen_repairLumps fun t ht => (hbody t ht).within, map_map,
    map_map]
  rfl

theorem exists_of_bareList {us : List Lump} (he : bareList ts = bareList us) (ht : t ∈ ts) (hb : ¬t.Branch) :
    ∃ u ∈ us, u.op = t.op := by
  have hmem : t.bare ∈ bareList ts := mem_map_of_mem (mem_filter.mpr ⟨ht, by simpa using hb⟩)
  rw [he] at hmem
  obtain ⟨u, hu, hbare⟩ := mem_map.mp hmem
  exact ⟨u, mem_of_mem_filter hu, congrArg Bare.op hbare⟩

theorem clear_pushed (h : ∀ q ∈ pushed msg sendSock 0 0 ts, q.1.Acts → q.2.pos = q.1.pos) :
    (pushed msg sendSock 0 0 ts).Pairwise fun a b => b.1.Acts → a.2.stop ≤ b.1.pos := by
  have hchain := pairwise_map.mp (chained_snd_pushed msg sendSock 0 0 ts).pairwise
  refine hchain.imp_of_mem fun {a b} _ hb hle hacts => ?_
  rw [← h b hb hacts]
  exact hle

/-- **The pairs hold** iff the branch pushes no lump that is needed. -/
theorem Branched.held_iff (hB : Branched msg msg') (h : msg.Formed) {newUri : Option (List Char)}
    (huri : msg.UriClear newUri) :
    Held (pushedAll msg sendSock msg' newUri) ↔ Undisturbed msg' sendSock := by
  have htext := hB.base.toSameText
  rw [pushedAll, ← pushed_congr htext, ← pushed_congr htext]
  constructor
  · rintro ⟨hstill, hclear⟩
    obtain ⟨-, hlists, -⟩ := pairwise_append.mp hclear
    obtain ⟨-, -, hacross⟩ := pairwise_append.mp hlists
    have hadd := (still_pushed_iff msg'.addRm).mp fun q hq =>
      hstill q (mem_append_right _ (mem_append_left _ hq))
    have hbody := (still_pushed_iff msg'.bodyLumps).mp fun q hq =>
      hstill q (mem_append_right _ (mem_append_right _ hq))
    refine ⟨hadd, hbody, ?_⟩
    intro pre t post he hb hn pre' t' post' he' hb'
    have hle := hacross _ (mem_pushed.mpr ⟨pre', t', post', he', hb', rfl⟩) _
      (mem_pushed.mpr ⟨pre, t, post, he, hb, rfl⟩) ((acts_iff_needed t pre).mpr hn)
    rw [stop_cut, max_zero, max_zero] at hle
    exact (le_max_right ..).trans hle
  · rintro ⟨hadd, hbody, hacross⟩
    have hadd' := (still_pushed_iff msg'.addRm).mpr hadd
    have hbody' := (still_pushed_iff msg'.bodyLumps).mpr hbody
    refine ⟨forall_mem_append.mpr ⟨forall_mem_map.mpr fun _ _ _ => rfl, forall_mem_append.mpr ⟨hadd', hbody'⟩⟩,
      pairwise_append.mpr ⟨?_, pairwise_append.mpr ⟨clear_pushed hadd', clear_pushed hbody', ?_⟩, ?_⟩⟩
    · cases newUri with
      | none => exact List.Pairwise.nil
      | some newUri => exact pairwise_singleton ..
    · intro a ha b hb hacts
      obtain ⟨pre', t', post', he', hb', rfl⟩ := mem_pushed.mp ha
      obtain ⟨pre, t, post, he, hbt, rfl⟩ := mem_pushed.mp hb
      have hle := hacross pre t post he hbt ((acts_iff_needed t pre).mp hacts) pre' t' post' he' hb'
      obtain ⟨u, hu, hop⟩ := exists_of_bareList hB.bodyLumps (he ▸ by simp : t ∈ msg'.bodyLumps) hbt
      obtain ⟨u', hu', hop'⟩ := exists_of_bareList hB.addRm (he' ▸ by simp : t' ∈ msg'.addRm) hb'
      have heoh := h.eoh u' hu' u hu
      rw [hop, hop'] at heoh
      rw [stop_cut, max_zero, max_zero]
      exact max_le (heoh.trans (le_max_left ..)) hle
    · intro a ha b hb _
      obtain ⟨e, he, rfl⟩ := mem_map.mp ha
      cases newUri with
      | none => simp [uriEdits] at he
      | some newUri =>
        obtain rfl := mem_singleton.mp he
        have hclear := huri (by simp)
        rcases mem_append.mp hb with hb | hb
        · obtain ⟨pre, t, post, he, hbt, rfl⟩ := mem_pushed.mp hb
          obtain ⟨u, hu, hop⟩ := exists_of_bareList hB.addRm (he ▸ by simp : t ∈ msg'.addRm) hbt
          exact (hop ▸ hclear u (mem_append_left _ hu)).trans (le_max_left ..)
        · obtain ⟨pre, t, post, he, hbt, rfl⟩ := mem_pushed.mp hb
          obtain ⟨u, hu, hop⟩ := exists_of_bareList hB.bodyLumps (he ▸ by simp : t ∈ msg'.bodyLumps) hbt
          exact (hop ▸ hclear u (mem_append_right _ hu)).trans (le_max_left ..)

theorem noRand_delFlaged {us : List Lump} (he : bareList ts = bareList us) (hts : ∀ t ∈ ts, t.op.Within n)
    (hus : ∀ u ∈ us, u.Unflagged ∧ u.NoRand) :
    ∀ t ∈ delFlagedLumps lumpflagBranch (repairLumps 0 ts), t.op.Within n ∧ t.NoRand := by
  intro t ht
  obtain ⟨w, hw, hb, k, -, hvt⟩ := mem_delFlaged hts ht
  have hmem : w.bare ∈ bareList ts := mem_map_of_mem (mem_filter.mpr ⟨hw, by simpa using hb⟩)
  rw [he, bareList_of_unflagged fun u hu => (hus u hu).1] at hmem
  obtain ⟨u, hu, huw⟩ := mem_map.mp hmem
  have hbefore : t.before.chain .before = u.before.chain .before :=
    (congrArg Bare.before hvt).trans (congrArg Bare.before huw).symm
  have hafter : t.after.chain .after = u.after.chain .after :=
    (congrArg Bare.after hvt).trans (congrArg Bare.after huw).symm
  refine ⟨within_delFlaged hts t ht, ?_⟩
  rw [Lump.NoRand, hbefore, hafter]
  exact (hus u hu).2

theorem Branched.builds (hB : Branched msg msg') (h : msg.Formed)
    (hus : ∀ t ∈ msg.addRm ++ msg.bodyLumps, t.Unflagged ∧ t.NoRand) (sendSock₁ : Option SocketInfo)
    (newUri₁ : Option (List Char)) (rs₁ : Rand) (sendSock : Option SocketInfo)
      (newUri : Option (List Char)) (rs : Rand) :
    ∃ n₁ n₂, n₁ < 2 ^ 32 ∧ n₂ < 2 ^ 32 ∧
      (buildReqBufFromSipReq msg sendSock newUri rs).map (fun b => (b.returnedLen, b.newBuf)) =
        some (n₁, splice msg.buf 0 ((pushedAll msg sendSock msg' newUri).map Prod.fst)) ∧
      msg'.nextBranch sendSock₁ newUri₁ rs₁ sendSock newUri rs =
        some (n₂, splice msg.buf 0 ((pushedAll msg sendSock msg' newUri).map Prod.snd)) ∧
      Counts n₁ msg.buf.length ((pushedAll msg sendSock msg' newUri).map Prod.fst) ∧
      Counts n₂ msg.buf.length ((pushedAll msg sendSock msg' newUri).map Prod.snd) := by
  obtain ⟨hadd, hbody⟩ := forall_mem_append.mp hB.within
  obtain ⟨husadd, husbody⟩ := forall_mem_append.mp hus
  obtain ⟨b, hb, hbuf, hlt, hmod, -⟩ := buildReq_splice (fun t ht => ⟨(h.lumps t ht).within, (hus t ht).2⟩) newUri
    sendSock rs
  obtain ⟨b₁, hb₁, hmsg₁⟩ := buildReq_repairs hB.within sendSock₁ newUri₁ rs₁
  have hleft : ∀ t ∈ b₁.msg.postPrintUacRequest.addRm ++ b₁.msg.postPrintUacRequest.bodyLumps,
      t.op.Within b₁.msg.postPrintUacRequest.buf.length ∧ t.NoRand := by
    rw [hmsg₁]
    exact forall_mem_append.mpr
      ⟨noRand_delFlaged hB.addRm hadd husadd, noRand_delFlaged hB.bodyLumps hbody husbody⟩
  obtain ⟨b₂, hb₂, hbuf₂, hlt₂, hmod₂, -⟩ := buildReq_splice hleft newUri sendSock rs
  have hseen : b₁.msg.postPrintUacRequest.seenEdits sendSock newUri =
      (pushedAll msg sendSock msg' newUri).map Prod.snd := by
    have htext : SameText msg b₁.msg.postPrintUacRequest := by
      rw [hmsg₁]
      exact ⟨hB.base.rcv, hB.base.setGlobalAddress, hB.base.setGlobalPort⟩
    have huri : b₁.msg.postPrintUacRequest.uriEdits newUri = msg.uriEdits newUri := by
      rw [hmsg₁]
      show (newUri.map (Edit.mk msg'.uri msg'.uriLen)).toList = _
      rw [hB.base.uri, hB.base.uriLen, uriEdits]
    have hid : ((msg.uriEdits newUri).map fun e => (e, e)).map Prod.snd = msg.uriEdits newUri := by
      rw [map_map]
      exact map_id _
    rw [seenEdits, seen_congr htext, huri, pushedAll, map_append, map_append, hid,
      map_append, ← seen_repair_delFlaged hadd, ← seen_repair_delFlaged hbody, hmsg₁]
    rfl
  have hbase : b₁.msg.postPrintUacRequest.buf = msg.buf := by
    rw [hmsg₁]
    exact hB.base.buf
  rw [hseen, hbase] at hbuf₂ hmod₂
  rw [← hB.fst_pushedAll sendSock h fun t ht => (hus t ht).1] at hbuf hmod
  refine ⟨b.returnedLen, b₂.returnedLen, hlt, hlt₂, ?_, ?_, hmod, hmod₂⟩
  · rw [hb, Option.map_some, hbuf]
  · rw [nextBranch, hb₁, Option.bind_some, hb₂, Option.map_some, hbuf₂]

theorem Branched.refl (h : msg.Formed) : Branched msg msg :=
  ⟨⟨⟨rfl, rfl, rfl⟩, rfl, rfl, rfl⟩, fun t ht => (h.lumps t ht).within, rfl, rfl, h.addRm, h.bodyLumps⟩

theorem stop_snd_pushed_le (hts : ∀ t ∈ ts, t.op.Within n) :
    ∀ q ∈ pushed msg sendSock 0 0 ts, q.2.stop ≤ n := by
  intro q hq
  have hmem : q.2 ∈ (delFlagedLumps lumpflagBranch (repairLumps 0 ts)).map (seen msg sendSock) := by
    rw [← snd_pushed hts 0 0]
    exact mem_map_of_mem hq
  obtain ⟨t, ht, he⟩ := mem_map.mp hmem
  rw [← he]
  exact (within_delFlaged hts t ht).stop_le

variable (sendSock) in
/-- The pairs are those that `splice_eq_iff_held` speaks about. -/
theorem Branched.moved_pushedAll (hB : Branched msg msg') (newUri : Option (List Char)) :
    ∀ q ∈ pushedAll msg sendSock msg' newUri, Moved q.1 q.2 ∧ q.2.stop ≤ msg.buf.length := by
  obtain ⟨hadd, hbody⟩ := forall_mem_append.mp (hB.base.buf ▸ hB.within)
  refine forall_mem_append.mpr ⟨forall_mem_map.mpr fun e he => ⟨⟨rfl, le_rfl, le_rfl, fun _ => rfl⟩, ?_⟩,
    forall_mem_append.mpr ⟨fun q hq => ⟨moved_pushed le_rfl q hq, stop_snd_pushed_le hadd q hq⟩,
      fun q hq => ⟨moved_pushed le_rfl q hq, stop_snd_pushed_le hbody q hq⟩⟩⟩
  cases newUri with
  | none => exact absurd he not_mem_nil
  | some newUri =>
    rw [mem_singleton.mp he]
    exact msg.uri_le

section Bytes

variable {buf : List Char}

theorem SipMsg.withBuf_eq (h : buf.length = msg.buf.length) :
    msg.withBuf buf = { msg with buf := buf, len_lt := h ▸ msg.len_lt, uri_le := h ▸ msg.uri_le } := dif_pos h

theorem SipMsg.Formed.withBuf (h : msg.Formed) (hbuf : buf.length = msg.buf.length) : (msg.withBuf buf).Formed := by
  rw [withBuf_eq hbuf]
  exact ⟨fun t ht => by simpa only [hbuf] using h.lumps t ht, h.addRm, h.bodyLumps, h.eoh⟩

theorem Branched.withBuf (hB : Branched msg msg') (hbuf : buf.length = msg.buf.length) :
    Branched (msg.withBuf buf) (msg'.withBuf buf) := by
  have hbuf' : buf.length = msg'.buf.length := by rw [hB.base.buf, hbuf]
  rw [withBuf_eq hbuf, withBuf_eq hbuf']
  have hbase := hB.base
  refine ⟨⟨⟨hbase.rcv, hbase.setGlobalAddress, hbase.setGlobalPort⟩, rfl, hbase.uri, hbase.uriLen⟩, fun t ht => ?_,
    hB.addRm, hB.bodyLumps, hB.sortedAddRm, hB.sortedBodyLumps⟩
  simpa only [hbuf'] using hB.within t ht

theorem Branched.pushedAll_withBuf (hB : Branched msg msg') (hbuf : buf.length = msg.buf.length)
    (newUri : Option (List Char)) :
    pushedAll (msg.withBuf buf) sendSock (msg'.withBuf buf) newUri = pushedAll msg sendSock msg' newUri := by
  have hbuf' : buf.length = msg'.buf.length := by rw [hB.base.buf, hbuf]
  rw [withBuf_eq hbuf, withBuf_eq hbuf', pushedAll]
  have htext : SameText msg { msg with buf := buf, len_lt := hbuf ▸ msg.len_lt, uri_le := hbuf ▸ msg.uri_le } :=
    ⟨rfl, rfl, rfl⟩
  rw [pushed_congr htext, pushed_congr htext]
  rfl

end Bytes

/-- **Branches are isolated** from the next one, for all bytes that the request may have, iff no deletion of the branch
pushes a lump of the request that is needed. -/
theorem branch_isolated_iff (h : msg.Formed) (hus : ∀ t ∈ msg.addRm ++ msg.bodyLumps, t.Unflagged ∧ t.NoRand)
    {newUri : Option (List Char)} (huri : msg.UriClear newUri) {es : List (LumpStep × SipMsg)}
    (hrun : Trace (fun m st m' => st.OnBranch m ∧ m.exec st = some m') msg es)
      (hmsg : msg' = msg ∨ ∃ e ∈ es, msg' = e.2)
    (sendSock₁ : Option SocketInfo) (newUri₁ : Option (List Char)) (rs₁ : Rand)
      (sendSock : Option SocketInfo) (rs : Rand) :
    (∀ buf : List Char, buf.length = msg.buf.length →
      ∃ r, (buildReqBufFromSipReq (msg.withBuf buf) sendSock newUri rs).map (fun b =>
        (b.returnedLen, b.newBuf)) = some r ∧
        (msg'.withBuf buf).nextBranch sendSock₁ newUri₁ rs₁ sendSock newUri rs = some r) ↔
      Undisturbed msg' sendSock := by
  have hB : Branched msg msg' := by
    rcases hmsg with rfl | ⟨e, he, rfl⟩
    · exact Branched.refl h
    · exact hrun.invariant (I := Branched msg) (fun m st m' hm hst => hm.step hst.1 hst.2) (Branched.refl h) e he
  rw [← hB.held_iff h huri]
  have hmoved := hB.moved_pushedAll sendSock newUri
  have hchain : Chained 0 ((pushedAll msg sendSock msg' newUri).map Prod.fst) := by
    rw [hB.fst_pushedAll sendSock h (fun t ht => (hus t ht).1), h.seenEdits_eq huri]
    exact chained_repair 0 _
  have hchars : Nontrivial Char := ⟨'a', 'b', by decide⟩
  have hiff := splice_eq_iff_held (fun q hq => (hmoved q hq).1) (fun q hq => (hmoved q hq).2) hchain
  have halone : ∀ buf : List Char, buf.length = msg.buf.length →
      splice buf 0 ((pushedAll msg sendSock msg' newUri).map Prod.fst) =
        edited ((pushedAll msg sendSock msg' newUri).map Prod.fst) buf := by
    intro buf hbuf
    rw [← splice_repair hchain.sorted, hchain.repair_eq]
    intro e he
    obtain ⟨q, hq, rfl⟩ := mem_map.mp he
    exact hbuf ▸ (hmoved q hq).1.stop.trans (hmoved q hq).2
  have hbuilds : ∀ buf : List Char, buf.length = msg.buf.length → _ := fun buf hbuf =>
    (hB.withBuf hbuf).builds (h.withBuf hbuf) (by rw [withBuf_eq hbuf]; exact hus) sendSock₁ newUri₁ rs₁ sendSock
      newUri rs
  have hbytes : ∀ buf : List Char, buf.length = msg.buf.length → (msg.withBuf buf).buf = buf := fun buf hbuf => by
    rw [withBuf_eq hbuf]
  constructor
  · intro hall
    refine hiff.mp fun buf hbuf => ?_
    obtain ⟨r, hr₁, hr₂⟩ := hall buf hbuf
    obtain ⟨n₁, n₂, -, -, hn₁, hn₂, -⟩ := hbuilds buf hbuf
    rw [hB.pushedAll_withBuf hbuf, hbytes buf hbuf] at hn₁ hn₂
    rw [← halone buf hbuf]
    have he := (hn₂.symm.trans (hr₂.trans hr₁.symm)).trans hn₁
    exact congrArg Prod.snd (Option.some.inj he)
  · intro hheld buf hbuf
    obtain ⟨n₁, n₂, hlt₁, hlt₂, hn₁, hn₂, hmod₁, hmod₂⟩ := hbuilds buf hbuf
    rw [hB.pushedAll_withBuf hbuf, hbytes buf hbuf] at hn₁ hn₂ hmod₁ hmod₂
    have hsame := hheld.same fun q hq => (hmoved q hq).1
    have hdel : ((pushedAll msg sendSock msg' newUri).map Prod.snd).map del =
        ((pushedAll msg sendSock msg' newUri).map Prod.fst).map del := by
      rw [map_map, map_map]
      exact map_congr_left fun q hq => (hsame q hq).1
    have htext : ((pushedAll msg sendSock msg' newUri).map Prod.snd).map (·.text.length) =
        ((pushedAll msg sendSock msg' newUri).map Prod.fst).map (·.text.length) := by
      rw [map_map, map_map]
      exact map_congr_left fun q hq => congrArg length (hsame q hq).2
    rw [Counts, hdel, htext] at hmod₂
    have hlen : n₂ = n₁ := by
      simp only [Counts, Nat.ModEq] at hmod₁ hmod₂
      omega
    refine ⟨_, hn₁, ?_⟩
    rw [hn₂, hiff.mpr hheld buf hbuf, halone buf hbuf, hlen]

def eightBytesDel (offset len : Nat) : SipMsg := { eightBytes none with addRm := [⟨.del offset len, 0, .null, .null⟩] }

/-- A deletion for one branch leaves the next one as it is. -/
theorem eightBytesDel_isolated : ∃ msg' r, (eightBytesDel 5 2).exec ⟨true, lumpflagBranch, .delLump 1 2⟩ = some msg' ∧
    (buildReqBufFromSipReq (eightBytesDel 5 2) none none fun _ => 0).map (fun b => (b.returnedLen, b.newBuf)) = some r ∧
    msg'.nextBranch none none (fun _ => 0) none none (fun _ => 0) = some r := by
  have hmsg' : (eightBytesDel 5 2).exec ⟨true, lumpflagBranch, .delLump 1 2⟩ = some { eightBytesDel 5 2 with
      addRm := [⟨.del 1 2, lumpflagBranch, .null, .null⟩, ⟨.del 5 2, 0, .null, .null⟩] } := rfl
  have hun : Undisturbed { eightBytesDel 5 2 with
      addRm := [⟨.del 1 2, lumpflagBranch, .null, .null⟩, ⟨.del 5 2, 0, .null, .null⟩] } none := by
    constructor
    case addRm =>
      intro pre t post he hb hneed
      cases pre with
      | nil =>
        obtain ⟨rfl, -⟩ := cons.inj he
        exact absurd (by decide) hb
      | cons u pre =>
        obtain ⟨rfl, hrest⟩ := cons.inj he
        cases pre with
        | nil =>
          obtain ⟨rfl, -⟩ := cons.inj hrest
          decide
        | cons v pre => simp at hrest
    all_goals
      intro pre t post he
      exact absurd he.symm (append_ne_nil_of_right_ne_nil _ (cons_ne_nil _ _))
  have hformed : (eightBytesDel 5 2).Formed := by
    refine ⟨fun t ht => ?_, pairwise_singleton .., List.Pairwise.nil, fun t _ u hu => absurd hu not_mem_nil⟩
    obtain rfl := mem_singleton.mp ht
    exact ⟨show 5 + 2 ≤ 8 by decide, by simp [Hung.Straight], by simp [Hung.Straight]⟩
  have hus : ∀ t ∈ (eightBytesDel 5 2).addRm ++ (eightBytesDel 5 2).bodyLumps, t.Unflagged ∧ t.NoRand := by
    intro t ht
    obtain rfl := mem_singleton.mp ht
    exact ⟨⟨by decide, rfl, rfl⟩, by simp [Lump.NoRand, NoRand, chain]⟩
  have hst : LumpStep.OnBranch (eightBytesDel 5 2) ⟨true, lumpflagBranch, .delLump 1 2⟩ := by
    refine ⟨rfl, fun offset len he => ?_⟩
    obtain ⟨rfl, rfl⟩ := LumpCall.delLump.inj he
    decide
  have hrun : Trace (fun m st m' => st.OnBranch m ∧ m.exec st = some m') (eightBytesDel 5 2)
      [(⟨true, lumpflagBranch, .delLump 1 2⟩, _)] := ⟨⟨hst, hmsg'⟩, trivial⟩
  obtain ⟨r, hr₁, hr₂⟩ := (branch_isolated_iff hformed hus (fun hne => absurd rfl hne) hrun
    (.inr ⟨_, mem_singleton.mpr rfl, rfl⟩) none none (fun _ => 0) none fun _ => 0).mpr hun _ rfl
  exact ⟨_, r, hmsg', hr₁, hr₂⟩

/-- A deletion of the branch that overlaps one of the request: the next branch deletes one byte less. -/
theorem branch_not_isolated : ∃ msg', (eightBytesDel 4 2).exec ⟨true, lumpflagBranch, .delLump 3 2⟩ = some msg' ∧
    (buildReqBufFromSipReq (eightBytesDel 4 2) none none fun _ => 0).map (fun b => (b.returnedLen, b.newBuf)) =
      some (6, "abcdgh".toList) ∧
    msg'.nextBranch none none (fun _ => 0) none none (fun _ => 0) = some (7, "abcdegh".toList) := by
  decide +kernel

end OpenSer

