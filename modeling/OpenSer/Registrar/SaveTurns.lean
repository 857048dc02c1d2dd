import OpenSer.Registrar.Save

/-!
# What a turn does to the record

The bindings of a record are a map from the contacts that are allocated. Every operation changes this map at one place.

* `getUcontact_eq`: which binding a contact is about.
* `insertUcontact_view`, `updateUcontact_view`, `deleteUcontact_view`: the operations.
* `insertTurn_cases`, `updateTurn_cases`: a turn comes to an end in one of the ways of `InsertCase` and `UpdateCase`.
* `Runs`: a loop, turn by turn.
-/

namespace OpenSer.Registrar

open OpenSer.Usrloc Lib Function List Option

/-! ## Bindings -/

def view (r : URecord) (c : Nat) : Option UContact := if r.live c then some (r.cell c) else none

section
variable {r : URecord} {l : List Nat} {c : Nat} {x : UContact}

theorem view_eq_some : view r c = some x ↔ r.live c = true ∧ r.cell c = x := by
  unfold view
  split <;> simp_all

theorem view_eq_none : view r c = none ↔ r.live c = false := by
  unfold view
  split <;> simp_all

theorem view_update {r' : URecord} {x : Option UContact} (hlive : r'.live = update r.live c x.isSome)
    (hcell : ∀ d, d ≠ c → r'.cell d = r.cell d) (hx : ∀ y, x = some y → r'.cell c = y) :
    view r' = update (view r) c x := by
  funext d
  rw [view, hlive, update_apply, update_apply]
  by_cases hd : d = c
  · subst hd
    cases x with
    | none => simp
    | some y => simp [hx y rfl]
  · simp only [if_neg hd, hcell d hd]
    rfl

theorem ListOk.view_fresh (h : ListOk r l) : view r r.fresh = none := by
  rw [view_eq_none, ← Bool.not_eq_true, ← h.live]
  exact h.not_fresh

theorem ListOk.mem_iff (h : ListOk r l) : c ∈ l ↔ ∃ x, view r c = some x := by
  rw [h.live]
  constructor
  · exact fun hc => ⟨_, view_eq_some.mpr ⟨hc, rfl⟩⟩
  · rintro ⟨x, hx⟩
    exact (view_eq_some.mp hx).1

theorem ListOk.view_mem (h : ListOk r l) (hc : c ∈ l) : view r c = some (r.cell c) :=
  view_eq_some.mpr ⟨(h.live c).mp hc, rfl⟩

end

/-! ## Searching -/

variable {callid uri : Str} {s : Inserting} {x : UContact} {ok : Bool} {ci : Info} {c : Nat}

section
variable {r : URecord} {l : List Nat} {cseq now : Int} {cfg : Cfg}

theorem contactMatch_eq (p : UContact → Bool) (l₁ l₂ : List Nat) {fuel : Nat}
    (h : Dll r.next r.prev r.contacts (l₁ ++ l₂))
    (hfuel : l₂.length ≤ fuel) : contactMatch r p fuel l₂.head? = some (l₂.find? fun c => p (r.cell c)) := by
  induction l₂ generalizing l₁ fuel with
  | nil => simp [contactMatch]
  | cons x l₂ ih =>
    cases fuel with
    | zero => simp at hfuel
    | succ fuel =>
      rw [head?_cons, contactMatch]
      cases hx : p (r.cell x) with
      | true => rw [if_pos rfl, find?_cons, hx]
      | false =>
        have hstep : l₁ ++ x :: l₂ = (l₁ ++ [x]) ++ l₂ := by simp
        rw [h.next_eq, find?_cons, hx]
        rw [hstep] at h
        exact ih (l₁ ++ [x]) h (by simpa using hfuel)

/-- **The binding that a contact is about** is the first one that matches. -/
theorem getUcontact_eq (h : ListOk r l) (cfg : Cfg) (uri callid : Str) (cseq now : Int) :
    getUcontact cfg r uri callid cseq now = some
      (match l.find? fun c => cfg.matching.test uri callid (r.cell c) with
        | none => .notFound
        | some c => judge cfg (r.cell c) callid cseq now c) := by
  have hmatch := contactMatch_eq (cfg.matching.test uri callid) [] l h.dll h.length_le
  rw [← h.dll.head_eq] at hmatch
  rw [getUcontact, hmatch]
  rfl

theorem getUcontact_isSome (h : ListOk r l) (cfg : Cfg) (uri callid : Str) (cseq now : Int) :
    ∃ g, getUcontact cfg r uri callid cseq now = some g := ⟨_, getUcontact_eq h cfg uri callid cseq now⟩

theorem judge_found {d : Nat}
    (h : judge cfg x callid cseq now d = .found c) : d = c ∧ (x.callid = callid → x.vals.cseq < cseq) := by
  unfold judge at h
  split at h
  · split at h
    · cases h
    split at h
    · split at h <;> cases h
    cases h
    exact ⟨rfl, fun _ => by omega⟩
  · rename_i hcallid
    cases h
    exact ⟨rfl, fun hsame => absurd (.inr hsame) hcallid⟩

theorem judge_ne_notFound :
    judge cfg x callid cseq now c ≠ .notFound := by
  unfold judge
  split
  · split
    · nofun
    split
    · split <;> nofun
    nofun
  · nofun

/-- **What is found** is a binding that matches; with the same Call-ID, its number is smaller. -/
theorem getUcontact_found (h : ListOk r l)
    (hget : getUcontact cfg r uri callid cseq now = some (.found c)) :
    c ∈ l ∧ cfg.matching.test uri callid (r.cell c) = true ∧
      ((r.cell c).callid = callid → (r.cell c).vals.cseq < cseq) := by
  rw [getUcontact_eq h] at hget
  have hgot := some.inj hget
  cases hfind : l.find? fun c => cfg.matching.test uri callid (r.cell c) with
  | none =>
    rw [hfind] at hgot
    cases hgot
  | some d =>
    rw [hfind] at hgot
    obtain ⟨rfl, hcseq⟩ := judge_found hgot
    exact ⟨mem_of_find?_eq_some hfind, by simpa using find?_some hfind, hcseq⟩

theorem getUcontact_notFound (h : ListOk r l)
    (hget : getUcontact cfg r uri callid cseq now = some .notFound) :
    ∀ c ∈ l, cfg.matching.test uri callid (r.cell c) = false := by
  rw [getUcontact_eq h] at hget
  have hgot := some.inj hget
  cases hfind : l.find? fun c => cfg.matching.test uri callid (r.cell c) with
  | none =>
    intro c hc
    simpa using find?_eq_none.mp hfind c hc
  | some d =>
    rw [hfind] at hgot
    exact absurd hgot judge_ne_notFound

end

/-! ## The operations -/

section
variable (cfg : Config) {u u' : UDomain} {l : List Nat} {c : Nat}

theorem atOnce_key (call : UContact → Bool → List Row → Bool × List Row) (x : UContact) (ok : Bool) (table : List Row) :
    (atOnce cfg call x ok table).1.c = x.c ∧ (atOnce cfg call x ok table).1.callid = x.callid := by
  unfold atOnce
  split
  · dsimp only
    split <;> exact ⟨rfl, rfl⟩
  · exact ⟨rfl, rfl⟩

theorem stUpdateUcontact_key (mode : DbMode) (x : UContact) :
    (stUpdateUcontact mode x).c = x.c ∧ (stUpdateUcontact mode x).callid = x.callid := by
  unfold stUpdateUcontact
  split
  · exact ⟨rfl, rfl⟩
  · exact ⟨rfl, rfl⟩
  · split <;> exact ⟨rfl, rfl⟩

theorem insertUcontact_view {contact : Str} (h : ListOk u.mem l)
    (hins : insertUcontact cfg u contact ci ok = some u') :
    (∃ l', ListOk u'.mem l') ∧ ∃ x,
      view u'.mem = update (view u.mem) u.mem.fresh (some x) ∧ x.c = contact ∧ x.callid = ci.callid ∧
      x.vals = (newUcontact contact ci).vals ∧ (cfg.dbMode = .writeBack → x.state = .new) := by
  obtain ⟨v, hv, hok, hcell, -, hlive⟩ := h.insertUcontact cfg contact ci ok
  obtain rfl := some.inj (hins.symm.trans hv)
  have hkey := atOnce_key cfg dbInsertUcontact (newUcontact contact ci) ok u.table
  refine ⟨⟨_, hok⟩, _, view_update hlive (fun d hd => ?_) fun y hy => ?_, hkey.1, hkey.2, atOnce_vals .., ?_⟩
  · rw [hcell, update_of_ne hd]
  · rw [hcell, update_self]
    exact some.inj hy
  · intro hmode
    simp [atOnce, hmode, newUcontact]

theorem updateUcontact_view (h : ListOk u.mem l) (hc : c ∈ l)
    (hupd : updateUcontact cfg u c ci ok = some u') :
    (∃ l', ListOk u'.mem l') ∧ ∃ x,
      view u'.mem = update (view u.mem) c (some x) ∧ x.c = (u.mem.cell c).c ∧ x.callid = (u.mem.cell c).callid ∧
      x.vals = (memUpdateUcontact (u.mem.cell c) ci).vals ∧
      (cfg.dbMode = .writeBack → (u.mem.cell c).state = .new → x.state = .new) := by
  obtain ⟨l₁, l₂, rfl⟩ := append_of_mem hc
  obtain ⟨v, hv, hok, hcell, -, hlive⟩ := h.updateUcontact cfg ci ok
  obtain rfl := some.inj (hupd.symm.trans hv)
  have hkey := atOnce_key cfg dbUpdateUcontact
    (stUpdateUcontact cfg.dbMode (memUpdateUcontact (u.mem.cell c) ci)) ok u.table
  have hst := stUpdateUcontact_key cfg.dbMode (memUpdateUcontact (u.mem.cell c) ci)
  refine ⟨⟨_, hok⟩, _, view_update ?_ (fun d hd => ?_) fun y hy => ?_, hkey.1.trans hst.1, hkey.2.trans hst.2, ?_,
    ?_⟩
  · rw [hlive]
    refine (update_eq_self_iff.mpr ?_).symm
    exact ((h.live c).mp hc).symm
  · rw [hcell, update_of_ne hd]
  · rw [hcell, update_self]
    exact some.inj hy
  · rw [atOnce_vals, stUpdateUcontact_vals]
  · intro hmode hnew
    simp [atOnce, hmode, stUpdateUcontact, memUpdateUcontact, hnew]

/-- What is left of a contact that is deleted: nothing, or a contact that has expired. -/
def leftOver (mode : DbMode) (x : UContact) : Option UContact :=
  if (stDeleteUcontact mode x).2 then none else some (stDeleteUcontact mode x).1

theorem deleteUcontact_view (h : ListOk u.mem l) (hc : c ∈ l) (ok : Bool) :
    (∃ l', ListOk (deleteUcontact cfg u c ok).mem l') ∧
      view (deleteUcontact cfg u c ok).mem = update (view u.mem) c (leftOver cfg.dbMode (u.mem.cell c)) := by
  obtain ⟨l₁, l₂, rfl⟩ := append_of_mem hc
  obtain ⟨hok, hcell⟩ := h.deleteUcontact cfg ok
  refine ⟨⟨_, hok⟩, view_update ?_ (fun d hd => ?_) fun y hy => ?_⟩
  · unfold leftOver deleteUcontact
    dsimp only
    split
    · rfl
    · refine (update_eq_self_iff.mpr ?_).symm
      exact ((h.live c).mp hc).symm
  · rw [hcell, update_of_ne hd]
  · rw [hcell, update_self]
    exact some.inj (ite_none_left_eq_some.mp hy).2

theorem setCell_view (h : ListOk u.mem l) (hc : c ∈ l) (x : UContact) :
    view (u.mem.setCell c x) = update (view u.mem) c (some x) := by
  refine view_update ?_ (fun d hd => update_of_ne hd _ _) fun y hy => ?_
  · refine (update_eq_self_iff.mpr ?_).symm
    exact ((h.live c).mp hc).symm
  · exact (update_self ..).trans (some.inj hy)

/-- **A contact is deleted** that has been marked before. -/
theorem deleteMarked_view (h : ListOk u.mem l) (hc : c ∈ l) (memOnly ok : Bool) :
    view (deleteUcontact cfg { u with mem := u.mem.setCell c (markMem memOnly (u.mem.cell c)) } c ok).mem =
      update (view u.mem) c (leftOver cfg.dbMode (markMem memOnly (u.mem.cell c))) := by
  have hmarked : ListOk { u with mem := u.mem.setCell c (markMem memOnly (u.mem.cell c)) : UDomain }.mem l :=
    h.setCell _ _
  rw [(deleteUcontact_view cfg hmarked hc ok).2, setCell_view h hc, Function.update_idem, URecord.setCell_cell,
    update_self]

end

/-! ## Turns -/

section
variable {cfg : Cfg} {m : Request} {u : UDomain} {l : List Nat} {ci : Info} {c : Contact} {ch : Chance}

/-- What a turn of `update_contacts` does, and when. -/
inductive UpdateCase (cfg : Cfg) (m : Request) (u : UDomain) (ci : Info) (c : Contact) (ch : Chance) : Turn Info → Prop
  | invalid : boundOf cfg u c ci ch = some .invalid →
      UpdateCase cfg m u ci c ch (.failed .invCseq u ci)
  | retransmission : boundOf cfg u c ci ch = some .retransmission →
      UpdateCase cfg m u ci c ch (.done .skipped u ci)
  | absent : boundOf cfg u c ci ch = some .notFound → expiresOf cfg m c = 0 →
      UpdateCase cfg m u ci c ch (.done .skipped u ci)
  | unpackable {got err} : boundOf cfg u c ci ch = some got →
      (got = .notFound ∨ ∃ p, got = .found p) → expiresOf cfg m c ≠ 0 →
      packContact cfg m ci c (expiresOf cfg m c) = .error err → UpdateCase cfg m u ci c ch (.failed err u ci)
  | inserted {ci' u'} : boundOf cfg u c ci ch = some .notFound →
      expiresOf cfg m c ≠ 0 → packContact cfg m ci c (expiresOf cfg m c) = .ok ci' → ch.contact = true →
      insertUcontact cfg.usrloc u c.uri ci' ch.db = some u' →
      UpdateCase cfg m u ci c ch (.done (.inserted u.mem.fresh ci') u' ci')
  | noContact {ci'} : boundOf cfg u c ci ch = some .notFound →
      expiresOf cfg m c ≠ 0 → packContact cfg m ci c (expiresOf cfg m c) = .ok ci' → ch.contact = false →
      UpdateCase cfg m u ci c ch (.failed .ulInsC u ci')
  | deleted {p} : boundOf cfg u c ci ch = some (.found p) → expiresOf cfg m c = 0 →
      UpdateCase cfg m u ci c ch (.done (.deleted p) (deleteUcontact cfg.usrloc
        { u with mem := u.mem.setCell p (markMem m.memOnly (u.mem.cell p)) } p ch.db) ci)
  | updated {p ci' u'} : boundOf cfg u c ci ch = some (.found p) →
      expiresOf cfg m c ≠ 0 → packContact cfg m ci c (expiresOf cfg m c) = .ok ci' →
      (memUpdate ch.grants (u.mem.cell p) ci').2 = true → updateUcontact cfg.usrloc u p ci' ch.db = some u' →
      UpdateCase cfg m u ci c ch (.done (.updated p ci') u' ci')
  | partly {p ci'} : boundOf cfg u c ci ch = some (.found p) →
      expiresOf cfg m c ≠ 0 → packContact cfg m ci c (expiresOf cfg m c) = .ok ci' →
      (memUpdate ch.grants (u.mem.cell p) ci').2 = false →
      UpdateCase cfg m u ci c ch
        (.failed .ulUpdC { u with mem := u.mem.setCell p (memUpdate ch.grants (u.mem.cell p) ci').1 } ci')

/-- **A turn of `update_contacts`** comes to an end in one of these ways. -/
theorem updateTurn_cases (h : ListOk u.mem l) :
    ∃ t, updateTurn cfg m u ci c ch = some t ∧ UpdateCase cfg m u ci c ch t := by
  obtain ⟨got, hget⟩ : ∃ got, boundOf cfg u c ci ch = some got := getUcontact_isSome h ..
  unfold updateTurn
  rw [hget, bind_some]
  cases got with
  | invalid => exact ⟨_, rfl, .invalid hget⟩
  | retransmission => exact ⟨_, rfl, .retransmission hget⟩
  | notFound =>
    by_cases he : expiresOf cfg m c = 0
    · rw [if_pos he]
      exact ⟨_, rfl, .absent hget he⟩
    rw [if_neg he]
    cases hpack : packContact cfg m ci c (expiresOf cfg m c) with
    | error err => exact ⟨_, rfl, .unpackable hget (.inl rfl) he hpack⟩
    | ok ci' =>
      dsimp only
      unfold storeNew
      cases hmem : ch.contact with
      | false => exact ⟨_, rfl, .noContact hget he hpack hmem⟩
      | true =>
        obtain ⟨u', hu', -⟩ := h.insertUcontact cfg.usrloc c.uri ci' ch.db
        rw [hu']
        exact ⟨_, rfl, .inserted hget he hpack hmem hu'⟩
  | found p =>
    dsimp only
    by_cases he : expiresOf cfg m c = 0
    · rw [if_pos he]
      exact ⟨_, rfl, .deleted hget he⟩
    rw [if_neg he]
    cases hpack : packContact cfg m ci c (expiresOf cfg m c) with
    | error err => exact ⟨_, rfl, .unpackable hget (.inr ⟨p, rfl⟩) he hpack⟩
    | ok ci' =>
      dsimp only
      unfold storeOld
      cases hmem : (memUpdate ch.grants (u.mem.cell p) ci').2 with
      | false => exact ⟨_, rfl, .partly hget he hpack hmem⟩
      | true =>
        obtain ⟨l₁, l₂, rfl⟩ := append_of_mem (getUcontact_found h hget).1
        obtain ⟨u', hu', -⟩ := h.updateUcontact cfg.usrloc ci' ch.db
        rw [hu']
        exact ⟨_, rfl, .updated hget he hpack hmem hu'⟩

/-- What a turn of `insert_contacts` does, and when. -/
inductive InsertCase (cfg : Cfg) (m : Request) (u : UDomain) (s : Inserting) (c : Contact) (ch : Chance) :
    Turn Inserting → Prop
  | zero : expiresOf cfg m c = 0 → InsertCase cfg m u s c ch (.done .skipped u s)
  | tooMany : expiresOf cfg m c ≠ 0 → cfg.maxContacts ≠ 0 → s.num ≥ cfg.maxContacts →
      InsertCase cfg m u s c ch (.failed .tooMany u s)
  | noRecord : expiresOf cfg m c ≠ 0 → s.record = false → cfg.usrloc.dbMode ≠ .dbOnly → ch.record = false →
      InsertCase cfg m u s c ch (.failed .ulNewR u { s with num := s.num + 1 })
  | unpackable {err : RErr} : expiresOf cfg m c ≠ 0 → packFirst cfg m s.ci c (expiresOf cfg m c) = .error err →
      ¬(cfg.maxContacts ≠ 0 ∧ s.num ≥ cfg.maxContacts) →
      InsertCase cfg m u s c ch (.failed err u { s with num := s.num + 1, record := true })
  | inserted {got : Got} {ci : Info} {u' : UDomain} : expiresOf cfg m c ≠ 0 →
      ¬(cfg.maxContacts ≠ 0 ∧ s.num ≥ cfg.maxContacts) →
      packFirst cfg m s.ci c (expiresOf cfg m c) = .ok ci → priorOf cfg u c ci ch = some got → (∀ p, got ≠ .found p) →
      insertUcontact cfg.usrloc u c.uri ci ch.db = some u' →
      (s.record = true ∨ cfg.usrloc.dbMode = .dbOnly ∨ ch.record = true) → ch.contact = true →
      InsertCase cfg m u s c ch (.done (.inserted u.mem.fresh ci) u' ⟨some ci, s.num + 1, true⟩)
  | noContact {got : Got} {ci : Info} : expiresOf cfg m c ≠ 0 → packFirst cfg m s.ci c (expiresOf cfg m c) = .ok ci →
      priorOf cfg u c ci ch = some got → (∀ p, got ≠ .found p) → ch.contact = false →
      ¬(cfg.maxContacts ≠ 0 ∧ s.num ≥ cfg.maxContacts) →
      InsertCase cfg m u s c ch (.failed .ulInsC u ⟨some ci, s.num + 1, true⟩)
  | updated {p : Nat} {ci : Info} {u' : UDomain} : expiresOf cfg m c ≠ 0 →
      ¬(cfg.maxContacts ≠ 0 ∧ s.num ≥ cfg.maxContacts) →
      packFirst cfg m s.ci c (expiresOf cfg m c) = .ok ci → priorOf cfg u c ci ch = some (.found p) →
      updateUcontact cfg.usrloc u p ci ch.db = some u' →
      (s.record = true ∨ cfg.usrloc.dbMode = .dbOnly ∨ ch.record = true) →
        (memUpdate ch.grants (u.mem.cell p) ci).2 = true →
      InsertCase cfg m u s c ch (.done (.updated p ci) u' ⟨some ci, s.num + 1, true⟩)
  | partly {p : Nat} {ci : Info} : expiresOf cfg m c ≠ 0 → packFirst cfg m s.ci c (expiresOf cfg m c) = .ok ci →
      priorOf cfg u c ci ch = some (.found p) → (memUpdate ch.grants (u.mem.cell p) ci).2 = false →
      ¬(cfg.maxContacts ≠ 0 ∧ s.num ≥ cfg.maxContacts) →
      InsertCase cfg m u s c ch
        (.failed .ulUpdC { u with mem := u.mem.setCell p (memUpdate ch.grants (u.mem.cell p) ci).1 }
          ⟨some ci, s.num + 1, true⟩)

theorem priorOf_found (h : ListOk u.mem l) {p : Nat} (hprior : priorOf cfg u c ci ch = some (.found p)) :
    p ∈ l ∧ cfg.matching.test c.uri ci.callid (u.mem.cell p) = true := by
  unfold priorOf at hprior
  split at hprior
  · cases hprior
  · exact ⟨(getUcontact_found h hprior).1, (getUcontact_found h hprior).2.1⟩

theorem priorOf_isSome (cfg : Cfg) (c : Contact) (ci : Info) (ch : Chance) (h : ListOk u.mem l) :
    ∃ got, priorOf cfg u c ci ch = some got := by
  unfold priorOf
  split
  · exact ⟨_, rfl⟩
  · exact getUcontact_isSome h ..

/-- **A turn of `insert_contacts`** comes to an end in one of these ways. -/
theorem insertTurn_cases (h : ListOk u.mem l) :
    ∃ t, insertTurn cfg m u s c ch = some t ∧ InsertCase cfg m u s c ch t := by
  unfold insertTurn
  dsimp only
  by_cases he : expiresOf cfg m c = 0
  · rw [if_pos he]
    exact ⟨_, rfl, .zero he⟩
  rw [if_neg he]
  by_cases hmax : cfg.maxContacts ≠ 0 ∧ s.num ≥ cfg.maxContacts
  · rw [if_pos hmax]
    exact ⟨_, rfl, .tooMany he hmax.1 hmax.2⟩
  rw [if_neg hmax]
  by_cases hnorec : (!s.record) = true ∧ cfg.usrloc.dbMode ≠ .dbOnly ∧ (!ch.record) = true
  · rw [if_pos hnorec]
    exact ⟨_, rfl, .noRecord he (by simpa using hnorec.1) hnorec.2.1 (by simpa using hnorec.2.2)⟩
  rw [if_neg hnorec]
  have hrec : s.record = true ∨ cfg.usrloc.dbMode = .dbOnly ∨ ch.record = true := by
    by_contra hall
    push Not at hall
    exact hnorec ⟨by simpa using hall.1, hall.2.1, by simpa using hall.2.2⟩
  cases hpack : packFirst cfg m s.ci c (expiresOf cfg m c) with
  | error err => exact ⟨_, rfl, .unpackable he hpack hmax⟩
  | ok ci =>
    dsimp only
    obtain ⟨got, hgot⟩ := priorOf_isSome cfg c ci ch h
    rw [hgot, bind_some]
    have hnew : (∀ p, got ≠ .found p) → ∃ t, storeNew cfg u c ci ch ⟨some ci, s.num + 1, true⟩ = some t ∧
        InsertCase cfg m u s c ch t := by
      intro hne
      unfold storeNew
      cases hmem : ch.contact with
      | false => exact ⟨_, rfl, .noContact he hpack hgot hne hmem hmax⟩
      | true =>
        obtain ⟨u', hu', -⟩ := h.insertUcontact cfg.usrloc c.uri ci ch.db
        rw [hu']
        exact ⟨_, rfl, .inserted he hmax hpack hgot hne hu' hrec hmem⟩
    cases got with
    | notFound | invalid | retransmission => exact hnew nofun
    | found p =>
      dsimp only
      unfold storeOld
      cases hmem : (memUpdate ch.grants (u.mem.cell p) ci).2 with
      | false => exact ⟨_, rfl, .partly he hpack hgot hmem hmax⟩
      | true =>
        obtain ⟨l₁, l₂, rfl⟩ := append_of_mem (priorOf_found h hgot).1
        obtain ⟨u', hu', -⟩ := h.updateUcontact cfg.usrloc ci ch.db
        rw [hu']
        exact ⟨_, rfl, .updated he hmax hpack hgot hu' hrec hmem⟩

end

/-! ## Loops -/

section
variable {σ : Type} {turn : UDomain → σ → Contact → Chance → Option (Turn σ)}
  {cs : List (Contact × Chance)} {u : UDomain} {s : σ} {run : Run σ}

inductive Runs (turn : UDomain → σ → Contact → Chance → Option (Turn σ)) :
    List (Contact × Chance) → UDomain → σ → Run σ → Prop
  | nil {u : UDomain} {s : σ} : Runs turn [] u s ⟨[], u, s, none⟩
  | failed {c : Contact} {ch : Chance} {cs : List (Contact × Chance)} {u u' : UDomain} {s s' : σ} {err : RErr} :
      turn u s c ch = some (.failed err u' s') →
      Runs turn ((c, ch) :: cs) u s ⟨[], u', s', some err⟩
  | done {c : Contact} {ch : Chance} {cs : List (Contact × Chance)} {u u' : UDomain} {s s' : σ}
      {did : Did} {run : Run σ} :
      turn u s c ch = some (.done did u' s') → Runs turn cs u' s' run →
      Runs turn ((c, ch) :: cs) u s { run with log := ⟨u, c, did, u'⟩ :: run.log }

end

end OpenSer.Registrar
