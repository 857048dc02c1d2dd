import OpenSer.Registrar.SaveTurns
import OpenSer.Usrloc.ContactOrder

/-!
# What a request does to the record

* `timerLoop_view`: a loop that visits every binding.
* `deleteUrecord_view`, `starLoop_view`: the removal of a record.
* `listOk_runs`: the loops over the contacts come to an end.
* `testMaxContacts_eq`: the number that the limit is tested on.
* `save_cases`: a request comes to an end in one of the ways of `SaveCase`.
* `SaveCase.ok`: a record that is kept in memory stays in order.
-/

namespace OpenSer.Registrar

open Option List OpenSer.Usrloc Lib Function Bool

/-- A record that can be there: its list is in order, and there are no contacts without a record. -/
def Store.Ok (s : Store) : Prop := ∃ l, ListOk s.loc.mem l ∧ (s.present = false → l = [])

/-! ## Visiting every binding -/

section
variable {u : UDomain} {l : List Nat}

/-- **A loop that visits every binding** does to each what a visit does. -/
theorem timerLoop_view (visit : Nat → UDomain → UDomain) (f : UContact → Option UContact)
    (hok : ∀ l₁ c l₂ u, ListOk u.mem (l₁ ++ c :: l₂) →
      ListOk (visit c u).mem (l₁ ++ (if (f (u.mem.cell c)).isSome then [c] else []) ++ l₂))
    (hview : ∀ l c u, ListOk u.mem l → c ∈ l → view (visit c u).mem = update (view u.mem) c (f (u.mem.cell c)))
    (h : ListOk u.mem l) :
    ∃ u', timerLoop visit u.mem.fresh u.mem.contacts u = some u' ∧ (∃ l', ListOk u'.mem l') ∧
      ∀ c, view u'.mem c = (view u.mem c).bind f := by
  -- those that have been visited are changed, the others are as they were
  let P : List Nat → List Nat → UDomain → Prop := fun _ s v =>
    ∀ c, view v.mem c = if c ∈ s then view u.mem c else (view u.mem c).bind f
  have hP : ∀ k c s v, ListOk v.mem (k ++ c :: s) → P k (c :: s) v →
      P (k ++ if (f (v.mem.cell c)).isSome then [c] else []) s (visit c v) := by
    intro k c s v hv hp d
    have hc : c ∉ s := (nodup_cons.mp (nodup_append.mp hv.nodup).2.1).1
    rw [hview _ c v hv (by simp), update_apply]
    by_cases hd : d = c
    · subst hd
      have hcell := hp d
      rw [if_pos mem_cons_self, view, if_pos ((hv.live d).mp (by simp))] at hcell
      rw [if_pos rfl, if_neg hc, ← hcell, bind_some]
    · rw [hp d]
      simp [hd]
  have hstart : P [] l u := by
    intro c
    split
    · rfl
    · rename_i hc
      have hnone : view u.mem c = none := view_eq_none.mpr (not_eq_true _ ▸ fun hlive => hc ((h.live c).mpr hlive))
      rw [hnone]
      rfl
  obtain ⟨u', l', hrun, hok', hp⟩ := timerLoop_rule (P := P) hok hP (s := l) (k := []) h h.length_le hstart
  rw [h.dll.head_eq]
  exact ⟨u', hrun, ⟨l', hok'⟩, fun c => by simpa using hp c⟩

/-- **A record is deleted**, binding by binding. -/
theorem deleteUrecord_view (cfg : Cfg) (env : Env) (h : ListOk u.mem l) (hmode : cfg.usrloc.dbMode ≠ .dbOnly) :
    ∃ u', deleteUrecord cfg env u = some (some u') ∧ (∃ l', ListOk u'.mem l') ∧
      ∀ c, view u'.mem c = (view u.mem c).bind (leftOver cfg.usrloc.dbMode) := by
  have hloop := timerLoop_view (u := u) (l := l) (fun ptr u => deleteUcontact cfg.usrloc u ptr (env.dbContact ptr))
    (leftOver cfg.usrloc.dbMode) ?_ ?_ h
  · obtain ⟨u', hu', hrest⟩ := hloop
    refine ⟨u', ?_, hrest⟩
    rw [deleteUrecord, if_neg hmode, hu']
    rfl
  · intro l₁ c l₂ u hu
    have hdel := (hu.deleteUcontact cfg.usrloc (env.dbContact c)).1
    unfold leftOver
    cases hnow : (stDeleteUcontact cfg.usrloc.dbMode (u.mem.cell c)).2 with
    | true | false => simpa [hnow] using hdel
  · exact fun l c u hu hc => (deleteUcontact_view cfg.usrloc hu hc _).2

theorem starLoop_view (memOnly : Bool) (h : ListOk u.mem l) :
    ∃ u', starLoop memOnly u = some u' ∧ (∃ l', ListOk u'.mem l') ∧
      ∀ c, view u'.mem c = (view u.mem c).map (markMem memOnly) := by
  obtain ⟨u', hu', hok, hview⟩ := timerLoop_view (u := u) (l := l)
    (fun ptr u => { u with mem := u.mem.setCell ptr (markMem memOnly (u.mem.cell ptr)) })
    (fun x => some (markMem memOnly x))
    (fun l₁ c l₂ u hu => by simpa using hu.setCell c _) (fun l c u hu hc => setCell_view hu hc _) h
  refine ⟨u', hu', hok, fun c => ?_⟩
  rw [hview c]
  cases view u.mem c <;> rfl

end

/-! ## The loops -/

/-- A loop, each turn of which starts from a record in order and ends in one of its ways. -/
inductive CaseRuns {σ : Type} (way : UDomain → σ → Contact → Chance → Turn σ → Prop) :
    List (Contact × Chance) → UDomain → σ → Run σ → Prop
  | nil {u s} : CaseRuns way [] u s ⟨[], u, s, none⟩
  | failed {c ch cs u u' s s' err l} : ListOk u.mem l → way u s c ch (.failed err u' s') →
      CaseRuns way ((c, ch) :: cs) u s ⟨[], u', s', some err⟩
  | done {c ch cs u u' s s' did run l} : ListOk u.mem l → way u s c ch (.done did u' s') → CaseRuns way cs u' s' run →
      CaseRuns way ((c, ch) :: cs) u s { run with log := ⟨u, c, did, u'⟩ :: run.log }

section
variable {cfg : Cfg} {m : Request} {u : UDomain} {l : List Nat} {ci : Info} {s : Inserting} {c : Contact} {ch : Chance}
  {cs : List (Contact × Chance)}

def Turn.loc {σ : Type} : Turn σ → UDomain
  | .done _ u _ => u
  | .failed _ u _ => u

theorem UpdateCase.listOk {t : Turn Info} (h : UpdateCase cfg m u ci c ch t) (hu : ListOk u.mem l) :
    ∃ l', ListOk t.loc.mem l' := by
  cases h with
  | invalid | retransmission | absent | unpackable | noContact => exact ⟨l, hu⟩
  | @inserted _ _ _ _ _ _ hins =>
    exact (insertUcontact_view cfg.usrloc hu hins).1
  | deleted hget he =>
    exact (deleteUcontact_view cfg.usrloc (hu.setCell _ _) (getUcontact_found hu hget).1 ch.db).1
  | @updated _ _ _ hget _ _ _ hupd =>
    exact (updateUcontact_view cfg.usrloc hu (getUcontact_found hu hget).1 hupd).1
  | partly => exact ⟨l, hu.setCell _ _⟩

theorem InsertCase.listOk {t : Turn Inserting} (h : InsertCase cfg m u s c ch t) (hu : ListOk u.mem l) :
    ∃ l', ListOk t.loc.mem l' := by
  cases h with
  | zero | tooMany | noRecord | unpackable | noContact => exact ⟨l, hu⟩
  | @inserted _ _ _ _ _ _ _ _ hins =>
    exact (insertUcontact_view cfg.usrloc hu hins).1
  | @updated _ _ _ _ _ _ hprior hupd =>
    exact (updateUcontact_view cfg.usrloc hu (priorOf_found hu hprior).1 hupd).1
  | partly => exact ⟨l, hu.setCell _ _⟩

section
variable {σ : Type} {turn : UDomain → σ → Contact → Chance → Option (Turn σ)}
  {way : UDomain → σ → Contact → Chance → Turn σ → Prop} {s : σ}
  (hturn : ∀ {u s c ch l}, ListOk u.mem l → ∃ t, turn u s c ch = some t ∧ way u s c ch t)
  (hok : ∀ {u s c ch t l}, way u s c ch t → ListOk u.mem l → ∃ l', ListOk t.loc.mem l')
include hturn hok

/-- **A loop** over the contacts comes to an end. -/
theorem listOk_runs (cs : List (Contact × Chance)) (h : ListOk u.mem l) :
    ∃ run, turns turn cs u s = some run ∧ Runs turn cs u s run := by
  induction cs generalizing u s l with
  | nil => exact ⟨_, rfl, .nil⟩
  | cons x cs ih =>
    obtain ⟨c, ch⟩ := x
    obtain ⟨t, ht, hway⟩ := hturn h
    rw [turns, ht, bind_some]
    cases t with
    | failed => exact ⟨_, rfl, .failed ht⟩
    | done did u' s' =>
      obtain ⟨l', hl'⟩ := hok hway h
      obtain ⟨run, hrun, hruns⟩ := ih (u := u') (s := s') hl'
      dsimp only
      rw [hrun]
      exact ⟨_, rfl, .done ht hruns⟩

theorem Runs.inWays {run : Run σ} (h : Runs turn cs u s run) (hu : ListOk u.mem l) :
    CaseRuns way cs u s run ∧ ∃ l', ListOk run.loc.mem l' := by
  induction h generalizing l with
  | nil => exact ⟨.nil, l, hu⟩
  | failed ht =>
    obtain ⟨t, ht', hway⟩ := hturn hu
    obtain rfl := some.inj (ht.symm.trans ht')
    exact ⟨.failed hu hway, hok hway hu⟩
  | done ht _ ih =>
    obtain ⟨t, ht', hway⟩ := hturn hu
    obtain rfl := some.inj (ht.symm.trans ht')
    obtain ⟨l', hl'⟩ := hok hway hu
    obtain ⟨hrest, hlast⟩ := ih hl'
    exact ⟨.done hu hway hrest, hlast⟩

end

theorem Runs.updates {run : Run Info} (h : Runs (updateTurn cfg m) cs u ci run) (hu : ListOk u.mem l) :
    CaseRuns (UpdateCase cfg m) cs u ci run ∧ ∃ l', ListOk run.loc.mem l' :=
  h.inWays updateTurn_cases UpdateCase.listOk hu

theorem Runs.inserts {run : Run Inserting} (h : Runs (insertTurn cfg m) cs u s run) (hu : ListOk u.mem l) :
    CaseRuns (InsertCase cfg m) cs u s run ∧ ∃ l', ListOk run.loc.mem l' :=
  h.inWays insertTurn_cases InsertCase.listOk hu

theorem insertRuns_record {run : Run Inserting} (h : CaseRuns (InsertCase cfg m) cs u s run)
    (hrec : s.record = true) : run.state.record = true := by
  induction h with
  | nil => exact hrec
  | failed hu hcase =>
    cases hcase with
    | tooMany | noRecord => exact hrec
    | unpackable | noContact | partly => rfl
  | done hu hcase _ ih =>
    refine ih ?_
    cases hcase with
    | zero => exact hrec
    | inserted | updated => rfl

theorem insertRuns_noRecord {run : Run Inserting} (h : CaseRuns (InsertCase cfg m) cs u s run)
    (hrec : run.state.record = false) : run.loc = u ∧ ∀ e ∈ run.log, e.did = .skipped := by
  induction h with
  | nil => exact ⟨rfl, forall_mem_nil _⟩
  | failed hu hcase =>
    refine ⟨?_, forall_mem_nil _⟩
    cases hcase with
    | tooMany | noRecord => rfl
    | unpackable | noContact | partly => cases hrec
  | done hu hcase hrest ih =>
    cases hcase with
    | zero =>
      obtain ⟨hloc, hlog⟩ := ih hrec
      exact ⟨hloc, forall_mem_cons.mpr ⟨rfl, hlog⟩⟩
    | inserted | updated =>
      rw [insertRuns_record hrest rfl] at hrec
      cases hrec

/-! ## The limit -/

def validOf (r : URecord) (l : List Nat) (t : Nat) : List Nat := l.filter fun c => (r.cell c).vals.valid t

/-- What a contact adds to the number of `test_max_contacts`. -/
def counted (cfg : Cfg) (m : Request) (c : Contact) : Got → Int
  | .notFound => if expiresOf cfg m c ≠ 0 then 1 else 0
  | .found _ => if expiresOf cfg m c = 0 then -1 else 0
  | _ => 0

/-- What `get_ucontact` answers to `test_max_contacts`. -/
def testGot (cfg : Cfg) (r : URecord) (ci : Info) (c : Contact) (ch : Chance) : Got :=
  (getUcontact cfg r c.uri ci.callid ci.vals.cseq ch.testNow).getD .notFound

/-- What the contacts of a request add to the number. -/
def countedAll (cfg : Cfg) (m : Request) (r : URecord) (ci : Info) (cs : List (Contact × Chance)) : Int :=
  (cs.map fun x => counted cfg m x.1 (testGot cfg r ci x.1 x.2)).sum

theorem testLoop_eq (h : ListOk u.mem l) (num : Int) :
    testLoop cfg m u.mem ci cs num = some
      (if (cs.any fun x => testGot cfg u.mem ci x.1 x.2 = .invalid) then .error .invCseq
        else .ok (num + countedAll cfg m u.mem ci cs)) := by
  induction cs generalizing num with
  | nil => simp [testLoop, countedAll]
  | cons x cs ih =>
    obtain ⟨c, ch⟩ := x
    obtain ⟨got, hget⟩ := getUcontact_isSome h cfg c.uri ci.callid ci.vals.cseq ch.testNow
    have htest : testGot cfg u.mem ci c ch = got := by rw [testGot, hget, getD_some]
    have hall : countedAll cfg m u.mem ci ((c, ch) :: cs) = counted cfg m c got + countedAll cfg m u.mem ci cs := by
      rw [countedAll, map_cons, sum_cons, htest, ← countedAll]
    rw [testLoop, hget, bind_some, hall, any_cons, htest, ← add_assoc]
    by_cases hinv : got = .invalid
    · subst hinv
      rfl
    rw [decide_eq_false hinv, Bool.false_or]
    cases got with
    | invalid => exact absurd rfl hinv
    | retransmission => simpa [counted] using ih num
    | notFound =>
      dsimp only
      rw [ih]
      by_cases he : expiresOf cfg m c = 0
      · simp only [counted, he, ne_eq, not_true_eq_false, if_false, add_zero]
      · simp only [counted, he, ne_eq, not_false_eq_true, if_true]
    | found p =>
      dsimp only
      rw [ih]
      by_cases he : expiresOf cfg m c = 0
      · simp only [counted, he, if_true, sub_eq_add_neg]
      · simp only [counted, he, if_false, add_zero]

/-- **The limit is tested** on the number of valid bindings and what the contacts add to it. -/
theorem testMaxContacts_eq (h : ListOk u.mem l) :
    testMaxContacts cfg m u.mem ci cs = some
      (if (cs.any fun x => testGot cfg u.mem ci x.1 x.2 = .invalid) then some .invCseq
        else if (validOf u.mem l m.actTime).length + countedAll cfg m u.mem ci cs > cfg.maxContacts then some .tooMany
        else none) := by
  have hdll : Dll u.mem.next u.mem.prev u.mem.contacts ([] ++ l) := h.dll
  have hfrom := lookupFrom_eq (fun ptr => (u.mem.cell ptr).vals.valid m.actTime) hdll h.length_le
  rw [← h.dll.head_eq] at hfrom
  rw [testMaxContacts, hfrom, bind_some, testLoop_eq h, map_some]
  by_cases hinv : (cs.any fun x => testGot cfg u.mem ci x.1 x.2 = .invalid) = true
  · rw [if_pos hinv, if_pos hinv]
  · rw [if_neg hinv, if_neg hinv, validOf]

end

/-! ## Requests -/

def Refused (cfg : Cfg) (m : Request) : Prop :=
  m.parsed ≠ none ∨ m.aor ≠ none ∨ ∀ star, checkContacts cfg.limits m.lastTime m.fields ≠ .ok star

/-- A request whose contacts are not tried: because of what they have in common, or because there are too many. -/
def Untried (cfg : Cfg) (m : Request) (env : Env) (s : Store) : Prop :=
  ∀ ci, packMsg cfg m = .ok ci →
    cfg.maxContacts ≠ 0 ∧ testMaxContacts cfg m s.loc.mem ci (chances m env) ≠ some none

inductive SaveCase (cfg : Cfg) (m : Request) (env : Env) (s : Store) : Saved → Prop
  | refused {err : RErr} : Refused cfg m → SaveCase cfg m env s ⟨s, [], some err⟩
  /-- It has no contacts, and no star either or there is no record. -/
  | nothing : contactsOf m.fields = [] →
      ¬(checkContacts cfg.limits m.lastTime m.fields = .ok true ∧ (s.present ∨ cfg.usrloc.dbMode = .dbOnly)) →
      SaveCase cfg m env s ⟨s, [], none⟩
  /-- It has a star, and the record is deleted. -/
  | starred {u u' : UDomain} : contactsOf m.fields = [] → checkContacts cfg.limits m.lastTime m.fields = .ok true →
      (if s.present then starLoop m.memOnly s.loc = some u else u = s.loc) → (s.present ∨ cfg.usrloc.dbMode = .dbOnly) →
      deleteUrecord cfg env u = some (some u') → SaveCase cfg m env s ⟨release s u', [], none⟩
  /-- It has a star, and the record cannot be deleted. -/
  | starFailed {u : UDomain} : contactsOf m.fields = [] →
      (if s.present then starLoop m.memOnly s.loc = some u else u = s.loc) → cfg.usrloc.dbMode = .dbOnly →
      env.dbRecord = false → SaveCase cfg m env s ⟨{ s with loc := u }, [], some .ulDelR⟩
  | untried {err : RErr} : s.present = true → Untried cfg m env s → SaveCase cfg m env s ⟨release s s.loc, [], some err⟩
  /-- There is a record, and the contacts are taken in turns. -/
  | updated {ci : Info} {run : Run Info} : ¬Refused cfg m → s.present = true → packMsg cfg m = .ok ci →
      (cfg.maxContacts ≠ 0 → testMaxContacts cfg m s.loc.mem ci (chances m env) = some none) →
      Runs (updateTurn cfg m) (updateChances cfg m env) s.loc ci run → contactsOf m.fields ≠ [] →
      SaveCase cfg m env s ⟨release s run.loc, run.log, run.err⟩
  /-- There is no record, and the contacts are taken in turns. -/
  | inserted {run : Run Inserting} : ¬Refused cfg m → s.present = false →
      Runs (insertTurn cfg m) (chances m env) s.loc ⟨none, 0, false⟩ run → run.err = none →
      SaveCase cfg m env s ⟨{ s with loc := run.loc, present := s.present || run.state.record }, run.log, none⟩
  /-- A turn fails, and the new record is deleted. -/
  | undone {run : Run Inserting} {u : UDomain} {err : RErr} : ¬Refused cfg m → s.present = false →
      Runs (insertTurn cfg m) (chances m env) s.loc ⟨none, 0, false⟩ run → run.err = some err →
        run.state.record = true →
      deleteUrecord cfg env run.loc = some (some u) → SaveCase cfg m env s ⟨release s u, [], some err⟩
  /-- A turn fails, and there is no new record, or it cannot be deleted. -/
  | stuck {run : Run Inserting} {err : RErr} : ¬Refused cfg m → s.present = false →
      Runs (insertTurn cfg m) (chances m env) s.loc ⟨none, 0, false⟩ run → run.err = some err →
      (run.state.record = true → cfg.usrloc.dbMode = .dbOnly ∧ env.dbRecord = false) →
      SaveCase cfg m env s ⟨{ s with loc := run.loc }, run.log, some err⟩

section
variable {cfg : Cfg} {m : Request} {env : Env} {s : Store} {u : UDomain} {l : List Nat}

theorem deleteUrecord_cases (cfg : Cfg) (env : Env) (h : ListOk u.mem l) :
    (∃ u', deleteUrecord cfg env u = some (some u')) ∨
      deleteUrecord cfg env u = some none ∧ cfg.usrloc.dbMode = .dbOnly ∧ env.dbRecord = false := by
  by_cases hmode : cfg.usrloc.dbMode = .dbOnly
  · rw [deleteUrecord, if_pos hmode]
    cases hdb : env.dbRecord with
    | true => exact .inl ⟨_, rfl⟩
    | false => exact .inr ⟨rfl, hmode, rfl⟩
  · obtain ⟨u', hu', -⟩ := deleteUrecord_view cfg env h hmode
    exact .inl ⟨u', hu'⟩

theorem star_cases (hcs : contactsOf m.fields = []) (hcheck : checkContacts cfg.limits m.lastTime m.fields = .ok true)
    (h : ListOk s.loc.mem l) :
    ∃ r, star cfg m env s = some r ∧ SaveCase cfg m env s r := by
  obtain ⟨u, hu, hmark, l', hok⟩ : ∃ u, (if s.present then starLoop m.memOnly s.loc else some s.loc) = some u ∧
      (if s.present then starLoop m.memOnly s.loc = some u else u = s.loc) ∧ ∃ l', ListOk u.mem l' := by
    cases s.present with
    | false => exact ⟨s.loc, rfl, rfl, l, h⟩
    | true =>
      obtain ⟨u, hu, hok, -⟩ := starLoop_view m.memOnly h
      exact ⟨u, hu, hu, hok⟩
  rw [star, hu, bind_some]
  split
  · rename_i hthere
    rcases deleteUrecord_cases cfg env hok with ⟨u', hdel⟩ | ⟨hdel, hmode, hdb⟩
    · rw [hdel]
      exact ⟨_, rfl, .starred hcs hcheck hmark hthere hdel⟩
    · rw [hdel]
      exact ⟨_, rfl, .starFailed hcs hmark hmode hdb⟩
  · rename_i hthere
    exact ⟨_, rfl, .nothing hcs fun h => hthere h.2⟩

theorem updateContacts_cases (hfine : ¬Refused cfg m) (hcs : contactsOf m.fields ≠ []) (hpresent : s.present = true)
    (h : ListOk s.loc.mem l) :
    ∃ r, updateContacts cfg m env s = some r ∧ SaveCase cfg m env s r := by
  unfold updateContacts
  cases hpack : packMsg cfg m with
  | error err => exact ⟨_, rfl, .untried hpresent fun ci hci => by rw [hpack] at hci; cases hci⟩
  | ok ci =>
    dsimp only
    obtain ⟨err, herr, hmax⟩ : ∃ err, (if cfg.maxContacts ≠ 0 then testMaxContacts cfg m s.loc.mem ci (chances m env)
        else some none) = some err ∧
        (cfg.maxContacts ≠ 0 → testMaxContacts cfg m s.loc.mem ci (chances m env) = some err) := by
      split
      · exact ⟨_, testMaxContacts_eq h, fun _ => testMaxContacts_eq h⟩
      · rename_i hzero
        exact ⟨none, rfl, fun hne => absurd hne hzero⟩
    rw [herr]
    cases err with
    | some err =>
      refine ⟨_, rfl, .untried hpresent fun ci' hci' => ?_⟩
      rw [hpack] at hci'
      cases hci'
      have hne : cfg.maxContacts ≠ 0 := by
        intro hzero
        rw [if_neg (not_not.mpr hzero)] at herr
        cases herr
      exact ⟨hne, by rw [hmax hne]; simp⟩
    | none =>
      obtain ⟨run, hrun, hruns⟩ := listOk_runs (s := ci) updateTurn_cases UpdateCase.listOk (updateChances cfg m env) h
      rw [hrun]
      exact ⟨_, rfl, .updated hfine hpresent hpack hmax hruns hcs⟩

theorem insertContacts_cases (hfine : ¬Refused cfg m) (hpresent : s.present = false) (h : ListOk s.loc.mem l) :
    ∃ r, insertContacts cfg m env s = some r ∧ SaveCase cfg m env s r := by
  obtain ⟨run, hrun, hruns⟩ := listOk_runs (s := ⟨none, 0, false⟩) insertTurn_cases InsertCase.listOk
    (chances m env) h
  obtain ⟨-, l', hl'⟩ := hruns.inserts h
  rw [insertContacts, hrun, bind_some]
  cases herr : run.err with
  | none => exact ⟨_, rfl, .inserted hfine hpresent hruns herr⟩
  | some err =>
    cases hrec : run.state.record with
    | false => exact ⟨_, rfl, .stuck hfine hpresent hruns herr fun ht => by rw [hrec] at ht; cases ht⟩
    | true =>
      rcases deleteUrecord_cases cfg env hl' with ⟨u', hdel⟩ | ⟨hdel, hmode, hdb⟩
      · rw [hdel]
        exact ⟨_, rfl, .undone hfine hpresent hruns herr hrec hdel⟩
      · rw [hdel]
        exact ⟨_, rfl, .stuck hfine hpresent hruns herr fun _ => ⟨hmode, hdb⟩⟩

/-- **A request** comes to an end in one of these ways. -/
theorem save_cases (cfg : Cfg) (m : Request) (env : Env) (hs : s.Ok) :
    ∃ r, save cfg m env s = some r ∧ SaveCase cfg m env s r := by
  obtain ⟨l, hl, -⟩ := hs
  unfold save
  cases hparsed : m.parsed with
  | some err => exact ⟨_, rfl, .refused (.inl (by simp [hparsed]))⟩
  | none =>
    cases hcheck : checkContacts cfg.limits m.lastTime m.fields with
    | starExp | starCont | contactLen => exact ⟨_, rfl, .refused (.inr (.inr (by simp [hcheck])))⟩
    | ok isStar =>
      cases haor : m.aor with
      | some err => exact ⟨_, rfl, .refused (.inr (.inl (by simp [haor])))⟩
      | none =>
        have hfine : ¬Refused cfg m := by
          rintro (h | h | h)
          · exact h hparsed
          · exact h haor
          · exact h isStar hcheck
        dsimp only
        split
        · rename_i hcs
          cases isStar with
          | false => exact ⟨_, rfl, .nothing hcs fun h => by rw [hcheck] at h; cases h.1⟩
          | true => exact star_cases hcs hcheck hl
        · rename_i hcs
          cases hpresent : s.present with
          | true => exact updateContacts_cases hfine hcs hpresent hl
          | false => exact insertContacts_cases hfine hpresent hl

theorem release_ok (h : ListOk u.mem l) : (release s u).Ok := by
  refine ⟨l, h, fun habsent => ?_⟩
  obtain ⟨hnone, -⟩ := or_eq_false_iff.mp habsent
  rw [isSome_eq_false_iff, isNone_iff_eq_none] at hnone
  exact List.head?_eq_none_iff.mp (h.dll.head_eq.symm.trans hnone)

/-- **A request leaves a record in order** that is kept in memory. -/
theorem SaveCase.ok {r : Saved} (h : SaveCase cfg m env s r) (hs : s.Ok) (hmode : cfg.usrloc.dbMode ≠ .dbOnly) :
    r.store.Ok := by
  have hall := hs
  obtain ⟨l, hl, hempty⟩ := hs
  cases h with
  | refused | nothing => exact hall
  | @starred u u' _ _ hmark _ hdel =>
    obtain ⟨l', hl'⟩ : ∃ l', ListOk u.mem l' := by
      split at hmark
      · obtain ⟨v, hv, hok, -⟩ := starLoop_view m.memOnly hl
        rwa [some.inj (hmark.symm.trans hv)]
      · exact ⟨l, hmark ▸ hl⟩
    obtain ⟨v, hv, ⟨k, hk⟩, -⟩ := deleteUrecord_view cfg env hl' hmode
    obtain rfl : u' = v := some.inj (some.inj (hdel.symm.trans hv))
    exact release_ok hk
  | starFailed hcs hmark hdb => exact absurd hdb hmode
  | untried => exact release_ok hl
  | updated _ _ _ _ hruns =>
    obtain ⟨-, l', hl'⟩ := hruns.updates hl
    exact release_ok hl'
  | @inserted run _ hpresent hruns =>
    obtain ⟨hcases, l', hl'⟩ := hruns.inserts hl
    cases hrec : run.state.record with
    | true => exact ⟨l', hl', fun h => by rw [hpresent] at h; cases h⟩
    | false => exact ⟨l, by dsimp only; rwa [(insertRuns_noRecord hcases hrec).1], fun _ => hempty hpresent⟩
  | undone _ _ hruns _ _ hdel =>
    obtain ⟨-, l', hl'⟩ := hruns.inserts hl
    obtain ⟨v, hv, ⟨k, hk⟩, -⟩ := deleteUrecord_view cfg env hl' hmode
    rw [some.inj (some.inj (hdel.symm.trans hv))]
    exact release_ok hk
  | @stuck run _ _ _ hruns _ hstuck =>
    have hrec : run.state.record = false := by
      rw [← not_eq_true]
      exact fun h => hmode (hstuck h).1
    exact ⟨l, by dsimp only; rwa [(insertRuns_noRecord (hruns.inserts hl).1 hrec).1], hempty⟩

end

/-! ## A plain setup -/

/-- Records in memory, contacts matched by their URI, at most `maxContacts` of them; the only q-value is 1. -/
def plainCfg (maxContacts : Int) : Cfg :=
  { usrloc := ⟨.noDb, false⟩, matching := .contactOnly, cseqDelay := 20, limits := ⟨3600, 60, 0⟩,
    maxContacts, natFlag := 0
    defaultQ := 0, pathEnabled := false, str2q := fun s => if s = "1".toList then some 1000 else none
    parseMethods := fun _ => none }

/-- A request at the time `t` with these contacts. -/
def plainRequest (callid cseq : String) (t : Nat) (cs : List Contact) : Request :=
  { parsed := none, aor := none, fields := ⟨[.contact ⟨false, cs⟩], none⟩, callid := callid.toList, cseq := cseq.toList
    sock := none, userAgent := none, path := none, setPath := true, cflags := 0, allow := 0,
      rcvAvp := none, actTime := t
    lastTime := t, memOnly := false }

/-- Nothing fails; the clock shows `t`. -/
def plainEnv (t : Nat) : Env := ⟨fun _ => ⟨t, t, true, true, ⟨true, true, true⟩, true⟩, true, fun _ => true⟩

def plainContact (uri : String) : Contact := ⟨uri.toList, none, none, none, none⟩

def noRecord : Store := ⟨UDomain.init, false, false⟩

theorem noRecord_ok : noRecord.Ok := ⟨[], init_listOk, fun _ => rfl⟩

/-- What a request leaves of a record. -/
def stored (cfg : Cfg) (m : Request) (env : Env) (s : Store) : Store := ((save cfg m env s).map Saved.store).getD s

/-- A request leaves a store in order. -/
theorem stored_ok {cfg : Cfg} {s : Store} (m : Request) (env : Env) (hmode : cfg.usrloc.dbMode ≠ .dbOnly) (hs : s.Ok) :
    (stored cfg m env s).Ok := by
  obtain ⟨r, hr, hcase⟩ := save_cases cfg m env hs
  rw [stored, hr]
  exact hcase.ok hs hmode

end OpenSer.Registrar
