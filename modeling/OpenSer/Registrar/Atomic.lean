import OpenSer.Registrar.SaveCases

/-!
# Requests that are rejected

A REGISTER request is rejected as soon as the turn of one of its contacts fails. When there was a record, what the turns
before have written stays; a new record is deleted again.

* `updateRuns_atomic_iff`, `insertRuns_atomic_iff`: a loop that fails leaves nothing behind exactly when the first
  contact that is not skipped is refused.
* `insertRuns_left`: nothing that was inserted outlives the deletion of a new record.
* `save_atomic_iff`: the rejected requests that leave the bindings as they were.
-/

namespace OpenSer.Registrar

open Option OpenSer.Usrloc List Function Bool

/-- The bindings are the same, with the same attributes; without records in memory, the rows are. -/
def Unchanged (cfg : Cfg) (u u' : UDomain) : Prop :=
  if cfg.usrloc.dbMode = .dbOnly then u'.table = u.table
  else ∀ c, (view u'.mem c).map UContact.row = (view u.mem c).map UContact.row

/-- A request leaves the bindings as they were, and none of its contacts is committed. -/
def Atomic (cfg : Cfg) (s : Store) (r : Saved) : Prop :=
  Unchanged cfg s.loc r.store.loc ∧ ∀ e ∈ r.log, e.did = .skipped

def UpdateSkips (cfg : Cfg) (m : Request) (u : UDomain) (ci : Info) (c : Contact) (ch : Chance) : Prop :=
  boundOf cfg u c ci ch = some .retransmission ∨
    boundOf cfg u c ci ch = some .notFound ∧ expiresOf cfg m c = 0

/-- A contact of `update_contacts` is refused: because of its number or its attributes, or because there is no memory.
The binding that it is about has not got any of its attributes yet. -/
def UpdateRefuses (cfg : Cfg) (m : Request) (u : UDomain) (ci : Info) (c : Contact) (ch : Chance) : Prop :=
  boundOf cfg u c ci ch = some .invalid ∨
    expiresOf cfg m c ≠ 0 ∧ ∀ ci', packContact cfg m ci c (expiresOf cfg m c) = .ok ci' →
      (boundOf cfg u c ci ch = some .notFound → ch.contact = false) ∧
      ∀ p, boundOf cfg u c ci ch = some (.found p) →
        (memUpdate ch.grants (u.mem.cell p) ci').2 = false ∧
        (cfg.usrloc.dbMode = .dbOnly ∨ (memUpdate ch.grants (u.mem.cell p) ci').1.row = (u.mem.cell p).row)

/-- The first contact that is not skipped is refused. -/
def UpdateRefusesFirst (cfg : Cfg) (m : Request) (u : UDomain) (ci : Info) : List (Contact × Chance) → Prop
  | [] => True
  | (c, ch) :: cs =>
    (UpdateSkips cfg m u ci c ch → UpdateRefusesFirst cfg m u ci cs) ∧
      (¬UpdateSkips cfg m u ci c ch → UpdateRefuses cfg m u ci c ch)

/-- The first contact that is to be inserted into a new record is refused: because of its attributes, or because there
is no memory. -/
def InsertRefusesFirst (cfg : Cfg) (m : Request) : List (Contact × Chance) → Prop
  | [] => True
  | (c, ch) :: cs =>
    (expiresOf cfg m c = 0 → InsertRefusesFirst cfg m cs) ∧
      (expiresOf cfg m c ≠ 0 → ∀ ci, packFirst cfg m none c (expiresOf cfg m c) = .ok ci → ch.contact = false)

/-- When a rejected request leaves the bindings as they were. If there is a record: when the loop is not reached, or the
first contact that is not skipped is refused. If there is none: always, where records are kept in memory; in the
database when no contact is allowed, when all rows are deleted and there were none, or when they cannot be deleted and
none were written. -/
def CleanFailure (cfg : Cfg) (m : Request) (env : Env) (s : Store) : Prop :=
  ¬Refused cfg m →
    if s.present then
      ∀ ci, packMsg cfg m = .ok ci →
        (cfg.maxContacts ≠ 0 → testMaxContacts cfg m s.loc.mem ci (chances m env) = some none) →
        UpdateRefusesFirst cfg m s.loc ci (updateChances cfg m env)
    else
      cfg.usrloc.dbMode = .dbOnly → cfg.maxContacts < 0 ∨
        if env.dbRecord then s.loc.table = [] else InsertRefusesFirst cfg m (chances m env)

theorem Unchanged.refl (cfg : Cfg) (u : UDomain) : Unchanged cfg u u := by
  unfold Unchanged
  split
  · rfl
  · exact fun _ => rfl

/-! ## Loops that fail -/

variable {run : Run Inserting}

section
variable {cfg : Cfg} {m : Request} {u u' : UDomain} {l : List Nat} {ci ci' : Info} {c : Contact}
  {ch : Chance} {did : Did} {err : RErr} {cs : List (Contact × Chance)} {i i' : Inserting}

theorem unchanged_setCell (hu : ListOk u.mem l) {p : Nat} (hp : p ∈ l) (x : UContact) :
    Unchanged cfg u { u with mem := u.mem.setCell p x } ↔ cfg.usrloc.dbMode = .dbOnly ∨ x.row = (u.mem.cell p).row := by
  unfold Unchanged
  split
  · rename_i hmode
    exact iff_of_true rfl (.inl hmode)
  · rename_i hmode
    have hold := ListOk.view_mem hu hp
    constructor
    · intro h
      have hrow := h p
      rw [setCell_view hu hp, update_self, hold] at hrow
      exact .inr (some.inj hrow)
    · intro h c
      rw [setCell_view hu hp, update_apply]
      split
      · rename_i hc
        rw [hc, hold, map_some, h.resolve_left hmode, map_some]
      · rfl

theorem not_updateSkips {got : Got} (hget : boundOf cfg u c ci ch = some got)
    (hre : got ≠ .retransmission) (he : got = .notFound → expiresOf cfg m c ≠ 0) : ¬UpdateSkips cfg m u ci c ch := by
  rintro (h | ⟨h, hzero⟩)
  · exact hre (some.inj (hget.symm.trans h))
  · exact he (some.inj (hget.symm.trans h)) hzero

theorem UpdateCase.done_iff (h : UpdateCase cfg m u ci c ch (.done did u' ci')) :
    (did = .skipped → UpdateSkips cfg m u ci c ch ∧ u' = u ∧ ci' = ci) ∧
      (did ≠ .skipped → ¬UpdateSkips cfg m u ci c ch ∧ ¬UpdateRefuses cfg m u ci c ch) := by
  cases h with
  | retransmission hget => exact ⟨fun _ => ⟨.inl hget, rfl, rfl⟩, fun h => absurd rfl h⟩
  | absent hget he => exact ⟨fun _ => ⟨.inr ⟨hget, he⟩, rfl, rfl⟩, fun h => absurd rfl h⟩
  | inserted hget he hpack hmem hins =>
    refine ⟨nofun, fun _ => ⟨?_, ?_⟩⟩
    · exact not_updateSkips hget nofun fun _ => he
    · rintro (hinv | ⟨-, hall⟩)
      · rw [hget] at hinv
        cases hinv
      · rw [(hall ci' hpack).1 hget] at hmem
        cases hmem
  | deleted hget he =>
    refine ⟨nofun, fun _ => ⟨?_, ?_⟩⟩
    · exact not_updateSkips hget nofun nofun
    · rintro (hinv | ⟨hne, -⟩)
      · rw [hget] at hinv
        cases hinv
      · exact hne he
  | @updated p _ _ hget he hpack hmem hupd =>
    refine ⟨nofun, fun _ => ⟨?_, ?_⟩⟩
    · exact not_updateSkips hget nofun nofun
    · rintro (hinv | ⟨-, hall⟩)
      · rw [hget] at hinv
        cases hinv
      · rw [((hall ci' hpack).2 p hget).1] at hmem
        cases hmem

theorem UpdateCase.failed_iff (h : UpdateCase cfg m u ci c ch (.failed err u' ci')) (hu : ListOk u.mem l) :
    ¬UpdateSkips cfg m u ci c ch ∧ (Unchanged cfg u u' ↔ UpdateRefuses cfg m u ci c ch) := by
  have hsame := Unchanged.refl cfg u
  cases h with
  | invalid hget => exact ⟨not_updateSkips hget nofun nofun, iff_of_true hsame (.inl hget)⟩
  | unpackable hget hgot he hpack =>
    refine ⟨?_, iff_of_true hsame (.inr ⟨he, fun ci' hok => ?_⟩)⟩
    · refine not_updateSkips hget ?_ fun _ => he
      rcases hgot with rfl | ⟨p, rfl⟩
      · nofun
      · nofun
    · rw [hpack] at hok
      cases hok
  | noContact hget he hpack hmem =>
    refine ⟨not_updateSkips hget nofun fun _ => he,
      iff_of_true hsame (.inr ⟨he, fun ci' _ => ⟨fun _ => hmem, fun p hp => ?_⟩⟩)⟩
    rw [hget] at hp
    cases hp
  | @partly p _ hget he hpack hmem =>
    refine ⟨not_updateSkips hget nofun nofun,
      (unchanged_setCell hu (getUcontact_found hu hget).1 _).trans ⟨fun h => ?_, ?_⟩⟩
    · refine .inr ⟨he, fun ci'' hok => ⟨fun hnot => ?_, fun p' hp' => ?_⟩⟩
      · rw [hget] at hnot
        cases hnot
      · obtain rfl : ci' = ci'' := Except.ok.inj (hpack.symm.trans hok)
        obtain rfl : p = p' := by simpa using hget.symm.trans hp'
        exact ⟨hmem, h⟩
    · rintro (hinv | ⟨-, hall⟩)
      · rw [hget] at hinv
        cases hinv
      · exact ((hall ci' hpack).2 p hget).2

/-- **The loop of `update_contacts`**, when it fails, leaves nothing behind exactly when the first contact that is not
skipped is refused. -/
theorem updateRuns_atomic_iff {run : Run Info} (h : CaseRuns (UpdateCase cfg m) cs u ci run)
    (herr : run.err = some err) :
    (Unchanged cfg u run.loc ∧ ∀ e ∈ run.log, e.did = .skipped) ↔ UpdateRefusesFirst cfg m u ci cs := by
  induction h with
  | nil => cases herr
  | failed hu hcase =>
    obtain ⟨hskip, hiff⟩ := hcase.failed_iff hu
    constructor
    · exact fun h => ⟨fun hskip' => absurd hskip' hskip, fun _ => hiff.mp h.1⟩
    · exact fun h => ⟨hiff.mpr (h.2 hskip), forall_mem_nil _⟩
  | @done _ _ _ _ _ _ _ did _ _ hu hcase _ ih =>
    obtain ⟨hskipped, hother⟩ := hcase.done_iff
    rw [forall_mem_cons]
    by_cases hdid : did = .skipped
    · obtain ⟨hskip, rfl, rfl⟩ := hskipped hdid
      have ih := ih herr
      constructor
      · exact fun h => ⟨fun _ => ih.mp ⟨h.1, h.2.2⟩, fun hnot => absurd hskip hnot⟩
      · intro h
        obtain ⟨hun, hlog⟩ := ih.mpr (h.1 hskip)
        exact ⟨hun, hdid, hlog⟩
    · obtain ⟨hskip, hrefuse⟩ := hother hdid
      exact ⟨fun h => absurd h.2.1 hdid, fun h => absurd (h.2 hskip) hrefuse⟩

theorem priorOf_empty (hu : ListOk u.mem []) : priorOf cfg u c ci ch = some .notFound := by
  rw [priorOf, if_pos]
  exact hu.dll.head_eq

/-- **The loop of `insert_contacts`**, when it fails with a record that stays, leaves nothing behind exactly when the
first contact that is to be inserted is refused. -/
theorem insertRuns_atomic_iff (h : CaseRuns (InsertCase cfg m) cs u i run) (herr : run.err = some err)
    (hu : ListOk u.mem []) (hi : i = ⟨none, 0, false⟩) (hrec : run.state.record = true) :
    (Unchanged cfg u run.loc ∧ ∀ e ∈ run.log, e.did = .skipped) ↔ InsertRefusesFirst cfg m cs := by
  induction h with
  | nil => cases herr
  | failed _ hcase =>
    subst hi
    cases hcase with
    | tooMany | noRecord => cases hrec
    | unpackable he hpack =>
      refine iff_of_true ⟨.refl _ _, forall_mem_nil _⟩ ⟨fun hzero => absurd hzero he, fun _ ci hok => ?_⟩
      rw [hpack] at hok
      cases hok
    | noContact he _ _ _ hmem =>
      exact iff_of_true ⟨.refl _ _, forall_mem_nil _⟩ ⟨fun hzero => absurd hzero he, fun _ _ _ => hmem⟩
    | partly he hpack hprior =>
      rw [priorOf_empty hu] at hprior
      cases hprior
  | done _ hcase _ ih =>
    subst hi
    rw [forall_mem_cons]
    cases hcase with
    | zero he =>
      have ih := ih herr hu rfl hrec
      constructor
      · exact fun h => ⟨fun _ => ih.mp ⟨h.1, h.2.2⟩, fun hne => absurd he hne⟩
      · intro h
        obtain ⟨hun, hlog⟩ := ih.mpr (h.1 he)
        exact ⟨hun, rfl, hlog⟩
    | inserted he _ hpack _ _ _ _ hmem =>
      refine iff_of_false (fun h => nomatch h.2.1) fun h => ?_
      rw [h.2 he _ hpack] at hmem
      cases hmem
    | updated _ _ _ hprior =>
      rw [priorOf_empty hu] at hprior
      cases hprior

theorem insertRuns_noneAllowed (h : CaseRuns (InsertCase cfg m) cs u i run)
    (hi : i.record = false) (hnum : 0 ≤ i.num) (hmax : cfg.maxContacts < 0) : run.state.record = false := by
  induction h with
  | nil => exact hi
  | failed _ hcase =>
    cases hcase with
    | tooMany | noRecord => exact hi
    | unpackable he hpack hfew | noContact _ _ _ _ _ hfew | partly _ _ _ _ hfew =>
      exact absurd ⟨by omega, by omega⟩ hfew
  | done _ hcase _ ih =>
    cases hcase with
    | zero he => exact ih hi hnum
    | inserted he hfew | updated he hfew => exact absurd ⟨by omega, by omega⟩ hfew

theorem insertRuns_allowed (h : CaseRuns (InsertCase cfg m) cs u ⟨none, 0, false⟩ run)
    (hrec : run.state.record = true) : ¬cfg.maxContacts < 0 := by
  intro hmax
  rw [insertRuns_noneAllowed h rfl (le_refl 0) hmax] at hrec
  cases hrec

/-- In the database, a loop that fails without a record is one where no contact is allowed. -/
theorem insertRuns_noneAllowed_of (h : CaseRuns (InsertCase cfg m) cs u i run) (herr : run.err = some err)
    (hnum : i.num = 0) (hmode : cfg.usrloc.dbMode = .dbOnly) (hrec : run.state.record = false) :
    cfg.maxContacts < 0 := by
  induction h with
  | nil => cases herr
  | failed _ hcase =>
    cases hcase with
    | tooMany => omega
    | noRecord he hno hdb => exact absurd hmode hdb
    | unpackable | noContact | partly => cases hrec
  | done _ hcase hrest ih =>
    cases hcase with
    | zero he => exact ih herr hnum hrec
    | inserted | updated =>
      rw [insertRuns_record hrest rfl] at hrec
      cases hrec

end

/-! ## New records -/

section
variable {cfg : Cfg} {m : Request} {u : UDomain} {l : List Nat} {i : Inserting} {run : Run Inserting}
  {cs : List (Contact × Chance)} {c : Contact} {ch : Chance}

/-- Contacts that are deleted at once. -/
def AllNew (cfg : Cfg) (u : UDomain) : Prop :=
  ∀ c x, view u.mem c = some x → cfg.usrloc.dbMode = .writeBack → x.state = .new

theorem leftOver_of_new {mode : DbMode} {x : UContact} (h : mode = .writeBack → x.state = .new) :
    leftOver mode x = none := by
  unfold leftOver stDeleteUcontact
  by_cases hmode : mode = .writeBack
  · rw [h hmode]
    rfl
  · split
    · rfl
    · rw [if_neg hmode]
      rfl
    · rw [if_neg hmode]
      rfl

theorem AllNew.update {u' : UDomain} {p : Nat} {x : UContact} (h : AllNew cfg u)
    (hview : view u'.mem = Function.update (view u.mem) p (some x))
    (hx : cfg.usrloc.dbMode = .writeBack → x.state = .new) : AllNew cfg u' := by
  intro d y hy hmode
  rw [hview, update_apply] at hy
  split at hy
  · cases hy
    exact hx hmode
  · exact h d y hy hmode

theorem InsertCase.allNew {t : Turn Inserting} (h : InsertCase cfg m u i c ch t) (hu : ListOk u.mem l)
    (hnew : AllNew cfg u) : AllNew cfg t.loc := by
  cases h with
  | zero | tooMany | noRecord | unpackable | noContact => exact hnew
  | @inserted _ _ _ _ _ _ _ _ hins =>
    obtain ⟨-, x, hview, -, -, -, hx⟩ := insertUcontact_view cfg.usrloc hu hins
    exact hnew.update hview hx
  | @updated p _ _ _ _ _ hprior hupd =>
    have hp := (priorOf_found hu hprior).1
    obtain ⟨-, x, hview, -, -, -, hx⟩ := updateUcontact_view cfg.usrloc hu hp hupd
    refine hnew.update hview fun hmode => hx hmode ?_
    exact hnew p _ (ListOk.view_mem hu hp) hmode
  | @partly p ci he hpack hprior =>
    have hp := (priorOf_found hu hprior).1
    refine hnew.update (setCell_view hu hp _) fun hmode => ?_
    have hstate := hnew p _ (ListOk.view_mem hu hp) hmode
    unfold memUpdate memUpdateUcontact
    dsimp only
    split_ifs <;> exact hstate

/-- **Nothing that was inserted** outlives the deletion of a new record. -/
theorem insertRuns_left (h : CaseRuns (InsertCase cfg m) cs u i run) (hnew : AllNew cfg u) : AllNew cfg run.loc := by
  induction h with
  | nil => exact hnew
  | failed hu hcase => exact hcase.allNew hu hnew
  | done hu hcase _ ih => exact ih (hcase.allNew hu hnew)

end

/-! ## Requests -/

theorem timerLoop_table {visit : Nat → UDomain → UDomain} (hvisit : ∀ c u, (visit c u).table = u.table) (fuel : Nat)
    (ptr : Option Nat) (u u' : UDomain) (h : timerLoop visit fuel ptr u = some u') : u'.table = u.table := by
  induction fuel generalizing ptr u with
  | zero =>
    cases ptr with
    | none => rw [← some.inj h]
    | some p => cases h
  | succ fuel ih =>
    cases ptr with
    | none => rw [← some.inj h]
    | some p => rw [ih _ _ h, hvisit]

theorem starLoop_table {memOnly : Bool} {u u' : UDomain} (h : starLoop memOnly u = some u') : u'.table = u.table := by
  refine timerLoop_table ?_ _ _ _ _ h
  intro c v
  rfl

section
variable {cfg : Cfg} {m : Request} {env : Env} {s : Store} {l : List Nat} {u : UDomain}

theorem view_of_empty (h : ListOk u.mem []) (c : Nat) : view u.mem c = none := by
  rw [view_eq_none, ← not_eq_true, ← h.live]
  exact not_mem_nil

theorem undone_unchanged (hmode : cfg.usrloc.dbMode ≠ .dbOnly) (hempty : ListOk s.loc.mem [])
    (hruns : Runs (insertTurn cfg m) (chances m env) s.loc ⟨none, 0, false⟩ run)
    (hdel : deleteUrecord cfg env run.loc = some (some u)) : Unchanged cfg s.loc u := by
  obtain ⟨hcases, l', hl'⟩ := hruns.inserts hempty
  have hstart : AllNew cfg s.loc := fun c x hx => by
    rw [view_of_empty hempty] at hx
    cases hx
  have hnew := insertRuns_left hcases hstart
  obtain ⟨u', hu', -, hview⟩ := deleteUrecord_view cfg env hl' hmode
  obtain rfl : u' = u := some.inj (some.inj (hu'.symm.trans hdel))
  rw [Unchanged, if_neg hmode]
  intro c
  rw [hview c, view_of_empty hempty c]
  cases hx : view run.loc.mem c with
  | none => rfl
  | some x =>
    rw [bind_some, leftOver_of_new fun h => hnew c x hx h]

/-- **Exactly when a rejected request leaves the bindings of the address of record as they were** and commits none of
its contacts. -/
theorem save_atomic_iff (cfg : Cfg) (m : Request) (env : Env) (s : Store) (hs : s.Ok) :
    ∃ r, save cfg m env s = some r ∧ (r.err ≠ none → (Atomic cfg s r ↔ CleanFailure cfg m env s)) := by
  obtain ⟨r, hr, hcase⟩ := save_cases cfg m env hs
  obtain ⟨l, hl, hempty⟩ := hs
  have hnil : ∀ u, Unchanged cfg s.loc u → ∀ e ∈ ([] : List Entry), e.did = .skipped :=
    fun _ _ e he => absurd he not_mem_nil
  have hsame := Unchanged.refl cfg s.loc
  refine ⟨r, hr, fun herr => ?_⟩
  cases hcase with
  | nothing | starred | inserted => exact absurd rfl herr
  | refused hrefused => exact ⟨fun _ hfine => absurd hrefused hfine, fun _ => ⟨hsame, hnil _ hsame⟩⟩
  | @starFailed u hcs hmark hmode hdb =>
    obtain ⟨hch, hupd⟩ := chances_of_none cfg env hcs
    have htable : u.table = s.loc.table := by
      split at hmark
      · exact starLoop_table hmark
      · rw [hmark]
    have hthere : Unchanged cfg s.loc u := by rw [Unchanged, if_pos hmode, htable]
    refine ⟨fun _ _ => ?_, fun _ => ⟨hthere, hnil _ hthere⟩⟩
    rw [hch, hupd]
    split
    · exact fun ci _ _ => trivial
    · intro _
      rw [hdb]
      exact .inr trivial
  | untried hpresent huntried =>
    refine ⟨fun _ _ => ?_, fun _ => ⟨hsame, hnil _ hsame⟩⟩
    rw [if_pos hpresent]
    exact fun ci hpack hmax => absurd (hmax (huntried ci hpack).1) (huntried ci hpack).2
  | @updated ci run hfine hpresent hpack hmax hruns =>
    obtain ⟨err, herr⟩ := ne_none_iff_exists'.mp herr
    have hiff := updateRuns_atomic_iff (hruns.updates hl).1 herr
    rw [CleanFailure, if_pos hpresent]
    refine hiff.trans ⟨fun h _ ci' hci' _ => ?_, fun h => h hfine ci hpack hmax⟩
    obtain rfl : ci = ci' := Except.ok.inj (hpack.symm.trans hci')
    exact h
  | @undone _ u _ hfine hpresent hruns _ hrec hdel =>
    have hl0 : ListOk s.loc.mem [] := hempty hpresent ▸ hl
    rw [CleanFailure, if_neg (by rw [hpresent]; exact false_ne_true)]
    by_cases hmode : cfg.usrloc.dbMode = .dbOnly
    · rw [deleteUrecord, if_pos hmode] at hdel
      obtain ⟨hdb, hu⟩ := ite_none_right_eq_some.mp (some.inj hdel)
      have htable : u.table = [] := by rw [← some.inj hu]
      have hallowed := insertRuns_allowed (hruns.inserts hl).1 hrec
      constructor
      · rintro ⟨hun, -⟩ _ _
        rw [Unchanged, if_pos hmode] at hun
        rw [if_pos hdb, ← htable]
        exact .inr hun.symm
      · intro h
        have hbefore := (h hfine hmode).resolve_left hallowed
        rw [if_pos hdb] at hbefore
        have hthere : Unchanged cfg s.loc u := by rw [Unchanged, if_pos hmode, htable, hbefore]
        exact ⟨hthere, hnil _ hthere⟩
    · have hthere := undone_unchanged hmode hl0 hruns hdel
      exact ⟨fun _ _ h => absurd h hmode, fun _ => ⟨hthere, hnil _ hthere⟩⟩
  | @stuck run err hfine hpresent hruns herr' hstuck =>
    have hl0 : ListOk s.loc.mem [] := hempty hpresent ▸ hl
    have hcases := (hruns.inserts hl).1
    rw [CleanFailure, if_neg (by rw [hpresent]; exact false_ne_true)]
    cases hrec : run.state.record with
    | false =>
      obtain ⟨hloc, hlog⟩ := insertRuns_noRecord hcases hrec
      refine ⟨fun _ _ hmode => ?_, fun _ => ⟨by dsimp only; rw [hloc]; exact hsame, hlog⟩⟩
      exact .inl (insertRuns_noneAllowed_of hcases herr' rfl hmode hrec)
    | true =>
      obtain ⟨hmode, hdb⟩ := hstuck hrec
      have hallowed := insertRuns_allowed hcases hrec
      have hfalse : ¬env.dbRecord = true := by rw [hdb]; exact false_ne_true
      refine (insertRuns_atomic_iff hcases herr' hl0 rfl hrec).trans ⟨fun h _ _ => ?_, fun h => ?_⟩
      · rw [if_neg hfalse]
        exact .inr h
      · have hfirst := (h hfine hmode).resolve_left hallowed
        rwa [if_neg hfalse] at hfirst

/-- The only contact of a request has a wrong q-value. -/
theorem save_atomic_alone :
    ∃ r, save (plainCfg 0)
      (plainRequest "a" "2" 1000 [{ plainContact "sip:y" with q := some ⟨"bad".toList, 3, by decide⟩ }])
        (plainEnv 1000) (stored (plainCfg 0) (plainRequest "a" "1" 1000 [plainContact "sip:z"])
          (plainEnv 1000) noRecord) =
        some r ∧ r.err = some .invQ ∧
      Atomic (plainCfg 0) (stored (plainCfg 0) (plainRequest "a" "1" 1000 [plainContact "sip:z"])
        (plainEnv 1000) noRecord)
        r := by
  obtain ⟨r, hr, hiff⟩ := save_atomic_iff (plainCfg 0)
    (plainRequest "a" "2" 1000 [{ plainContact "sip:y" with q := some ⟨"bad".toList, 3, by decide⟩ }]) (plainEnv 1000)
    (stored (plainCfg 0) (plainRequest "a" "1" 1000 [plainContact "sip:z"]) (plainEnv 1000) noRecord)
    (stored_ok _ _ (by decide) noRecord_ok)
  have herr : r.err = some .invQ := by
    cases hr
    rfl
  refine ⟨r, hr, herr, (hiff (by rw [herr]; nofun)).mpr ?_⟩
  intro _ ci hci _
  refine ⟨fun hskip => absurd hskip (not_updateSkips rfl nofun fun _ => by decide +kernel), fun _ =>
    .inr ⟨by decide +kernel, ?_⟩⟩
  intro ci' hpack
  cases hpack

/-- The second contact of a request has a wrong q-value; the first one is stored. -/
theorem save_half_done :
    ∃ r, save (plainCfg 0) (plainRequest "a" "2" 1000
        [plainContact "sip:x", { plainContact "sip:y" with q := some ⟨"bad".toList, 3, by decide⟩ }])
        (plainEnv 1000) (stored (plainCfg 0) (plainRequest "a" "1" 1000 [plainContact "sip:z"])
          (plainEnv 1000) noRecord) =
        some r ∧ r.err = some .invQ ∧
      ((view (stored (plainCfg 0) (plainRequest "a" "1" 1000 [plainContact "sip:z"]) (plainEnv 1000)
        noRecord).loc.mem 1).map
        UContact.c = none) ∧
      (view r.store.loc.mem 1).map UContact.c = some "sip:x".toList := by
  refine ⟨_, rfl, rfl, ?_, ?_⟩
  · decide +kernel
  · decide +kernel

end

end OpenSer.Registrar
