import OpenSer.Usrloc.DbRows

/-!
# Synchronisation with the database

Contacts and rows agree as long as every operation is `Safe`. What is not safe: a contact that was never inserted is
updated in the table, `FL_MEM` changes once a contact has left `CS_NEW`, a row is not deleted with its contact, and
write-back deletes a contact that is in sync.

* `Acts.synced_iff`: an operation keeps the agreement iff its effect on each contact does.
* `updateEffect_good`, `deleteEffect_good`, `timerEffect_good`: when the effects do.
* `table_exact`: the rows after a timer run without failures.
-/

namespace OpenSer.Usrloc

open List Function Lib

/-! ## Agreement -/

/-- The rows that a contact should have. -/
def Stored (x : UContact) (rows : List Row) : Prop :=
  if x.vals.isMem then rows = []
  else
    match x.state with
    | .new => rows = []
    | .sync => rows = [x.row]
    | .dirty => ∃ r, rows = [r]

/-- A contact that stays has the rows it should have, and one that goes has none. -/
def Good : Option UContact × List Row → Prop
  | (some x, rows) => Stored x rows
  | (none, rows) => rows = []

/-- **Agreement**: every contact has the rows it should have, and every row belongs to a contact. -/
structure Synced (u : UDomain) : Prop where
  keys : KeysApart u
  stored : ∀ c, u.mem.live c = true → Stored (u.mem.cell c) (rowsOf u.table (u.mem.cell c))
  owned : ∀ r ∈ u.table, ∃ c, u.mem.live c = true ∧ r.isOf (u.mem.cell c) = true

variable {ok : Nat → Bool} {r : Row}

section
variable {cfg : Config} {u u' : UDomain} {l : List Nat} {x : UContact} {rows : List Row} {y : UContact} {t : Nat}

theorem exists_isOf (r : Row) : ∃ y : UContact, r.isOf y = true :=
  ⟨⟨r.c, r.callid, r.vals, .new⟩, isOf_iff.mpr ⟨rfl, rfl⟩⟩

theorem mem_rowsOf {table : List Row} : r ∈ rowsOf table x ↔ r ∈ table ∧ r.isOf x = true := mem_filter

/-- **An operation keeps the agreement** iff its effects do. -/
theorem Acts.synced_iff {f : Nat → Effect} (h : Acts u u' f) (hs : Synced u) :
    Synced u' ↔ ∀ c, u.mem.live c = true → Good (f c (u.mem.cell c) (rowsOf u.table (u.mem.cell c))) := by
  have heff : ∀ c, u.mem.live c = true → f c (u.mem.cell c) (rowsOf u.table (u.mem.cell c)) =
      (if u'.mem.live c then some (u'.mem.cell c) else none, rowsOf u'.table (u.mem.cell c)) :=
    fun c hc => Prod.ext (h.cell c hc) (h.rows c hc).symm
  constructor
  · intro hs' c hc
    rw [heff c hc]
    cases hcu : u'.mem.live c with
    | true =>
      rw [← rowsOf_congr (h.key c hcu)]
      exact hs'.stored c hcu
    | false =>
      apply eq_nil_iff_forall_not_mem.mpr
      intro r hr
      obtain ⟨hmem, hrc⟩ := mem_rowsOf.mp hr
      obtain ⟨d, hd, hrd⟩ := hs'.owned r hmem
      have hdc := hs.keys d c (h.live d hd) hc ((h.key d hd).symm.trans (SameKey.of_isOf hrd hrc))
      rw [hdc, hcu] at hd
      cases hd
  · intro hgood
    refine ⟨h.keysApart hs.keys, fun c hc => ?_, fun r hr => ?_⟩
    · have hg := hgood c (h.live c hc)
      rw [heff c (h.live c hc), if_pos hc, ← rowsOf_congr (h.key c hc)] at hg
      exact hg
    · obtain ⟨y, hy⟩ := exists_isOf r
      by_cases hown : ∃ c, u.mem.live c = true ∧ SameKey (u.mem.cell c) y
      · obtain ⟨c, hc, hcy⟩ := hown
        have hrc : r.isOf (u.mem.cell c) = true := (isOf_congr hcy r).trans hy
        have hg := hgood c hc
        rw [heff c hc] at hg
        cases hcu : u'.mem.live c with
        | true => exact ⟨c, hcu, (isOf_congr (h.key c hcu) r).trans hrc⟩
        | false =>
          -- the contact is gone, and with it its rows
          rw [hcu] at hg
          have hnil : rowsOf u'.table (u.mem.cell c) = [] := hg
          have hr' := mem_rowsOf.mpr ⟨hr, hrc⟩
          rw [hnil] at hr'
          cases hr'
      · -- no contact of the record: the row was there, and belonged to one
        have hsame := h.other y fun c hc hcy => hown ⟨c, hc, hcy⟩
        have hr' := mem_rowsOf.mpr ⟨hr, hy⟩
        rw [hsame] at hr'
        obtain ⟨c, hc, hrc⟩ := hs.owned r (mem_rowsOf.mp hr').1
        exact absurd ⟨c, hc, SameKey.of_isOf hrc hy⟩ hown

/-! ## When the effects keep the agreement -/

/-- An update that leaves the contact with the rows it should have. -/
def UpdateSafe (cfg : Config) (ci : Info) (ok : Bool) (x : UContact) : Prop :=
  match x.vals.isMem, ci.vals.isMem with
  | true, true => True
  | false, true => x.state = .new
  | true, false => x.state = .new ∧ (cfg.dbMode = .writeThrough → ok = false)
  | false, false => x.state = .new → cfg.dbMode = .writeThrough → ok = false

/-- A deletion that leaves the contact, if it stays, with the rows it should have, and else none. -/
def DeleteSafe (cfg : Config) (ok : Bool) (x : UContact) : Prop :=
  x.vals.isMem = true ∨ x.state = .new ∨
    if cfg.dbMode = .writeBack then x.state = .sync → x.vals.expires = ulExpiredTime else ok = true

/-- A visit of the timer that does so. -/
def TimerSafe (t : Nat) (ok : Bool) (x : UContact) : Prop :=
  x.vals.valid t = true ∨ x.vals.isMem = true ∨ x.state = .new ∨ ok = true

theorem Stored.of_isMem (hm : x.vals.isMem = true) : Stored x rows ↔ rows = [] := by
  rw [Stored, if_pos hm]

theorem Stored.of_not_isMem (hm : x.vals.isMem = false) :
    Stored x rows ↔ match x.state with
      | .new => rows = []
      | .sync => rows = [x.row]
      | .dirty => ∃ r, rows = [r] := by
  rw [Stored, hm, if_neg Bool.false_ne_true]

theorem map_written (hr : r.isOf x = true) :
    ([r].map fun r => if r.isOf x then { r with vals := x.vals } else r) = [x.row] := by
  obtain ⟨hc, hcallid⟩ := isOf_iff.mp hr
  rw [map_singleton, if_pos hr, UContact.row, ← hc, ← hcallid]

theorem filter_deleted (hrows : ∀ r ∈ rows, r.isOf x = true) : (rows.filter fun r => !r.isOf x) = [] := by
  apply filter_eq_nil_iff.mpr
  intro r hr
  rw [hrows r hr]
  decide

theorem Stored.nil_iff (h : Stored x rows) : rows = [] ↔ x.vals.isMem = true ∨ x.state = .new := by
  cases hm : x.vals.isMem with
  | true => simp [(Stored.of_isMem hm).mp h]
  | false =>
    rw [Stored.of_not_isMem hm] at h
    cases hs : x.state with
    | new =>
      rw [hs] at h
      simp [show rows = [] from h]
    | sync =>
      rw [hs] at h
      simp [show rows = [x.row] from h]
    | dirty =>
      rw [hs] at h
      obtain ⟨r, rfl⟩ := h
      simp

theorem Stored.one_row (h : Stored x rows) (hm : x.vals.isMem = false) (hs : x.state ≠ .new) : ∃ r, rows = [r] := by
  rw [Stored.of_not_isMem hm] at h
  cases hst : x.state with
  | new => exact absurd hst hs
  | sync =>
    rw [hst] at h
    exact ⟨_, h⟩
  | dirty =>
    rw [hst] at h
    exact h

theorem stUpdateUcontact_state (hmode : cfg.dbMode = .writeThrough ∨ cfg.dbMode = .writeBack) (x : UContact) :
    (stUpdateUcontact cfg.dbMode x).state = if x.state = .new then .new else .dirty := by
  unfold stUpdateUcontact
  cases hs : x.state with
  | new => exact hs
  | sync => rw [if_pos hmode.symm, if_neg (by decide)]
  | dirty => exact hs

theorem stored_dirty_iff (h : Stored x rows) (hy : y.vals.isMem = false)
    (hstate : y.state = if x.state = .new then .new else .dirty) :
    Stored y rows ↔ (x.vals.isMem = true → x.state = .new) := by
  rw [Stored.of_not_isMem hy, hstate]
  by_cases hs : x.state = .new
  · rw [if_pos hs]
    exact iff_of_true (h.nil_iff.mpr (.inr hs)) fun _ => hs
  · rw [if_neg hs]
    cases hm : x.vals.isMem with
    | true =>
      refine iff_of_false ?_ fun hnew => hs (hnew rfl)
      rintro ⟨r, hr⟩
      rw [h.nil_iff.mpr (.inl hm)] at hr
      cases hr
    | false => exact iff_of_true (h.one_row hm hs) fun hm => by cases hm

theorem stored_written_iff (h : Stored x rows) (hrows : ∀ r ∈ rows, r.isOf y = true) (hy : y.vals.isMem = false) :
    Stored { y with state := .sync } (rows.map fun r => if r.isOf y then { r with vals := y.vals } else r) ↔
      x.vals.isMem = false ∧ x.state ≠ .new := by
  have hsync : ∀ rows, Stored { y with state := .sync } rows ↔ rows = [y.row] :=
    fun rows => Stored.of_not_isMem (x := { y with state := .sync }) hy
  rw [hsync]
  by_cases hnil : rows = []
  · subst hnil
    refine iff_of_false (by simp) fun hx => ?_
    rcases h.nil_iff.mp rfl with hm | hs
    · rw [hx.1] at hm
      cases hm
    · exact hx.2 hs
  · have hx : x.vals.isMem = false ∧ x.state ≠ .new := by
      have := mt h.nil_iff.mpr hnil
      rw [not_or, Bool.not_eq_true] at this
      exact this
    refine iff_of_true ?_ hx
    obtain ⟨r, rfl⟩ := h.one_row hx.1 hx.2
    exact map_written (hrows r mem_cons_self)

/-- **When an update keeps the agreement.** -/
theorem updateEffect_good (hmode : cfg.dbMode = .writeThrough ∨ cfg.dbMode = .writeBack) (ci : Info) (ok : Bool)
    (h : Stored x rows) (hrows : ∀ r ∈ rows, r.isOf x = true) :
    Good (updateEffect cfg ci ok x rows) ↔ UpdateSafe cfg ci ok x := by
  obtain ⟨y, hy⟩ : ∃ y, y = stUpdateUcontact cfg.dbMode (memUpdateUcontact x ci) := ⟨_, rfl⟩
  have hymem : y.vals.isMem = ci.vals.isMem := by rw [hy, stUpdateUcontact_vals]; rfl
  have hkey : SameKey y x := hy ▸ (stUpdateUcontact_key _ _).trans ⟨rfl, rfl⟩
  have hstate : y.state = if x.state = .new then .new else .dirty := hy ▸ stUpdateUcontact_state hmode _
  have heff : Good (updateEffect cfg ci ok x rows) ↔
      Stored (atOnce cfg dbUpdateUcontact y ok rows).1 (atOnce cfg dbUpdateUcontact y ok rows).2 := by
    rw [updateEffect, ← hy]
    rfl
  rw [heff]
  cases hci : ci.vals.isMem with
  | true =>
    have htable : (atOnce cfg dbUpdateUcontact y ok rows).2 = rows := by
      unfold atOnce dbUpdateUcontact
      rw [if_pos (hymem.trans hci)]
      split <;> rfl
    rw [Stored.of_isMem (by rw [atOnce_vals, hymem, hci]), htable, h.nil_iff, UpdateSafe, hci]
    cases x.vals.isMem <;> simp
  | false =>
    have hym : y.vals.isMem = false := hymem.trans hci
    by_cases hwrite : cfg.dbMode = .writeThrough ∧ ok = true
    · have hcall : atOnce cfg dbUpdateUcontact y ok rows =
          ({ y with state := .sync }, rows.map fun r => if r.isOf y then { r with vals := y.vals } else r) := by
        rw [atOnce, if_pos (.inl hwrite.1), dbUpdateUcontact, hym, hwrite.2]
        rfl
      rw [hcall, stored_written_iff h (fun r hr => (isOf_congr hkey r).trans (hrows r hr)) hym, UpdateSafe, hci]
      cases x.vals.isMem <;> simp [hwrite.1, hwrite.2]
    · have hfail : cfg.dbMode = .writeThrough → ok = false := by
        intro hwt
        by_contra hok
        exact hwrite ⟨hwt, Bool.not_eq_false _ ▸ hok⟩
      have hcall : atOnce cfg dbUpdateUcontact y ok rows = (y, rows) := by
        unfold atOnce dbUpdateUcontact
        rcases hmode with hwt | hwb
        · rw [if_pos (.inl hwt), hym, hfail hwt]
          rfl
        · rw [if_neg (by simp [hwb])]
      rw [hcall, stored_dirty_iff h hym hstate, UpdateSafe, hci]
      cases x.vals.isMem with
      | true => exact ⟨fun hnew => ⟨hnew rfl, hfail⟩, fun hsafe _ => hsafe.1⟩
      | false => exact ⟨fun _ _ => hfail, fun _ hm => by cases hm⟩

theorem dbDelete_nil_iff (ok : Bool) (h : Stored x rows) (hrows : ∀ r ∈ rows, r.isOf x = true) :
    (dbDeleteUcontact x ok rows).2 = [] ↔ (x.vals.isMem = true ∨ x.state = .new) ∨ ok = true := by
  rw [← h.nil_iff]
  unfold dbDeleteUcontact
  cases hm : x.vals.isMem with
  | true => exact iff_of_true (h.nil_iff.mpr (.inl hm)) (.inl (h.nil_iff.mpr (.inl hm)))
  | false =>
    cases ok with
    | true => exact iff_of_true (filter_deleted hrows) (.inr rfl)
    | false => simp

/-- **When a deletion keeps the agreement.** -/
theorem deleteEffect_good (hmode : cfg.dbMode = .writeThrough ∨ cfg.dbMode = .writeBack) (ok : Bool)
    (h : Stored x rows) (hrows : ∀ r ∈ rows, r.isOf x = true) :
    Good (deleteEffect cfg ok x rows) ↔ DeleteSafe cfg ok x := by
  rcases hmode with hwt | hwb
  · have heff : deleteEffect cfg ok x rows = (none, (dbDeleteUcontact x ok rows).2) := by
      unfold deleteEffect stDeleteUcontact
      rw [hwt]
      cases x.state <;> rfl
    rw [heff, DeleteSafe, if_neg (by rw [hwt]; decide), ← or_assoc]
    exact dbDelete_nil_iff ok h hrows
  · rw [DeleteSafe, if_pos hwb]
    by_cases hs : x.state = .new
    · have hdel : stDeleteUcontact cfg.dbMode x = (x, true) := by rw [stDeleteUcontact, hs]
      rw [deleteEffect, hdel]
      dsimp only
      rw [if_pos rfl, if_neg (by simp [hwb])]
      exact iff_of_true (h.nil_iff.mpr (.inr hs)) (.inr (.inl hs))
    · -- the contact stays, with another expiration time
      obtain ⟨y, hy⟩ : ∃ y : UContact, y = { x with vals := { x.vals with expires := ulExpiredTime } } := ⟨_, rfl⟩
      have hdel : stDeleteUcontact cfg.dbMode x = (y, false) := by
        unfold stDeleteUcontact
        rw [if_pos hwb, ← hy]
        cases hst : x.state with
        | new => exact absurd hst hs
        | sync => rfl
        | dirty => rfl
      rw [deleteEffect, hdel]
      show Stored y rows ↔ _
      cases hm : x.vals.isMem with
      | true =>
        have hym : y.vals.isMem = true := by rw [hy]; exact hm
        rw [Stored.of_isMem hym]
        exact iff_of_true (h.nil_iff.mpr (.inl hm)) (.inl rfl)
      | false =>
        have hym : y.vals.isMem = false := by rw [hy]; exact hm
        have hyst : y.state = x.state := by rw [hy]
        rw [Stored.of_not_isMem hym, hyst]
        have hst := (Stored.of_not_isMem hm).mp h
        cases hxs : x.state with
        | new => exact absurd hxs hs
        | sync =>
          rw [hxs] at hst
          have hrow : rows = [x.row] := hst
          have hrow_iff : [x.row] = [y.row] ↔ x.vals.expires = ulExpiredTime := by
            rw [List.cons.injEq, and_iff_left rfl, hy, UContact.row, UContact.row, Row.mk.injEq]
            constructor
            · exact fun hvals => congrArg Values.expires hvals.2.2
            · exact fun hexp => ⟨rfl, rfl, by rw [← hexp]⟩
          rw [hrow]
          simpa using hrow_iff
        | dirty =>
          rw [hxs] at hst
          exact iff_of_true hst (.inr (.inr fun hsync => by cases hsync))

theorem timerEffect_valid (hvalid : x.vals.valid t = true) (ok : Bool) (h : Stored x rows)
    (hrows : ∀ r ∈ rows, r.isOf x = true) : Good (timerEffect t ok x rows) := by
  unfold timerEffect
  rw [if_pos hvalid]
  have hsync : ∀ rows, x.vals.isMem = false → (Stored { x with state := .sync } rows ↔ rows = [x.row]) :=
    fun rows hm => Stored.of_not_isMem (x := { x with state := .sync }) hm
  cases hs : x.state with
  | new =>
    have hnil := h.nil_iff.mpr (.inr hs)
    have hflush : stFlushUcontact x = ({ x with state := .sync }, .insert) := by rw [stFlushUcontact, hs]
    rw [hflush]
    show Stored _ _
    unfold dbInsertUcontact
    cases hm : x.vals.isMem with
    | true => exact (Stored.of_isMem (x := { x with state := .sync }) hm).mpr hnil
    | false =>
      cases ok with
      | true => exact (hsync _ hm).mpr (by rw [hnil]; rfl)
      | false => exact h
  | sync =>
    have hflush : stFlushUcontact x = (x, .nothing) := by rw [stFlushUcontact, hs]
    rw [hflush]
    exact h
  | dirty =>
    have hflush : stFlushUcontact x = ({ x with state := .sync }, .update) := by rw [stFlushUcontact, hs]
    rw [hflush]
    show Stored _ _
    unfold dbUpdateUcontact
    cases hm : x.vals.isMem with
    | true => exact (Stored.of_isMem (x := { x with state := .sync }) hm).mpr (h.nil_iff.mpr (.inl hm))
    | false =>
      cases ok with
      | true =>
        obtain ⟨r, rfl⟩ := h.one_row hm (by rw [hs]; decide)
        exact (hsync _ hm).mpr (map_written (hrows r mem_cons_self))
      | false => exact h

/-- **When a visit by the timer keeps the agreement.** -/
theorem timerEffect_good (t : Nat) (ok : Bool) (h : Stored x rows) (hrows : ∀ r ∈ rows, r.isOf x = true) :
    Good (timerEffect t ok x rows) ↔ TimerSafe t ok x := by
  by_cases hvalid : x.vals.valid t = true
  · exact iff_of_true (timerEffect_valid hvalid ok h hrows) (.inl hvalid)
  · have hexp : Good (timerEffect t ok x rows) ↔ (dbDeleteUcontact x ok rows).2 = [] ∨ x.state = .new := by
      unfold timerEffect stExpiredUcontact
      rw [if_neg hvalid]
      cases hs : x.state with
      | new => exact iff_of_true (h.nil_iff.mpr (.inr hs)) (.inr rfl)
      | sync | dirty => simp [Good]
    rw [hexp, dbDelete_nil_iff ok h hrows, TimerSafe]
    tauto

/-! ## The operations -/

/-- **Operations that keep the agreement.** -/
def Safe (cfg : Config) (u : UDomain) : Op → Prop
  | .insert contact ci _ => ∀ c, u.mem.live c = true → ¬((u.mem.cell c).c = contact ∧ (u.mem.cell c).callid = ci.callid)
  | .update c ci ok => UpdateSafe cfg ci ok (u.mem.cell c)
  | .delete c ok => DeleteSafe cfg ok (u.mem.cell c)
  | .timer t ok => ∀ c, u.mem.live c = true → TimerSafe t (ok c) (u.mem.cell c)

theorem Acts.synced_iff_one {f : Effect} {c : Nat} (h : Acts u u' fun d => if d = c then f else unchanged)
    (hs : Synced u)
    (hc : u.mem.live c = true) : Synced u' ↔ Good (f (u.mem.cell c) (rowsOf u.table (u.mem.cell c))) := by
  rw [h.synced_iff hs]
  constructor
  · intro hall
    have := hall c hc
    rwa [if_pos rfl] at this
  · intro hgood d hd
    by_cases hdc : d = c
    · subst hdc
      rwa [if_pos rfl]
    · rw [if_neg hdc]
      exact hs.stored d hd

theorem rowsOf_isOf (table : List Row) (x : UContact) : ∀ r ∈ rowsOf table x, r.isOf x = true :=
  fun _ hr => (mem_rowsOf.mp hr).2

section
variable (hmode : cfg.dbMode = .writeThrough ∨ cfg.dbMode = .writeBack)
include hmode

theorem stored_inserted (ok : Bool) (hx : x.state = .new) :
    Stored (atOnce cfg dbInsertUcontact x ok []).1 (atOnce cfg dbInsertUcontact x ok []).2 := by
  have hnew : Stored x [] := by
    unfold Stored
    rw [hx]
    split <;> rfl
  unfold atOnce dbInsertUcontact
  rcases hmode with hwt | hwb
  · rw [if_pos (.inl hwt)]
    cases hm : x.vals.isMem with
    | true => exact (Stored.of_isMem (x := { x with state := .sync }) hm).mpr rfl
    | false =>
      cases ok with
      | true => exact (Stored.of_not_isMem (x := { x with state := .sync }) hm).mpr rfl
      | false => exact hnew
  · rw [if_neg (by simp [hwb])]
    exact hnew

/-- **When an insertion keeps the agreement.** -/
theorem insert_synced_iff {contact : Str} {ci : Info}
    {ok : Bool} (h : ListOk u.mem l) (hs : Synced u) (hrun : step cfg u (.insert contact ci ok) = some u') :
    Synced u' ↔ Safe cfg u (.insert contact ci ok) := by
  obtain ⟨v, hv, -, hcell, htable, hlive⟩ := h.insertUcontact cfg contact ci ok
  obtain rfl : v = u' := Option.some.inj (hv.symm.trans hrun)
  obtain ⟨x, hx⟩ : ∃ x, x = newUcontact contact ci := ⟨_, rfl⟩
  have hxkey : x.c = contact ∧ x.callid = ci.callid := by rw [hx]; exact ⟨rfl, rfl⟩
  rw [← hx] at hcell htable
  obtain ⟨hnew, hrows, hsame, hother⟩ := atOnce_call cfg .insert x ok u.table
  have hfresh : u.mem.live u.mem.fresh = false := by
    by_contra hlv
    exact h.not_fresh ((h.live _).mpr (Bool.not_eq_false _ ▸ hlv))
  have hold : ∀ c, u.mem.live c = true → c ≠ u.mem.fresh := by
    rintro c hc rfl
    rw [hfresh] at hc
    cases hc
  constructor
  · intro hs' c hc hkey
    have hc' : v.mem.live c = true := by rw [hlive, update_of_ne (hold c hc), hc]
    have hf' : v.mem.live u.mem.fresh = true := by rw [hlive, update_self]
    refine hold c hc (hs'.keys c u.mem.fresh hc' hf' ?_)
    rw [hcell, update_of_ne (hold c hc), update_self]
    exact SameKey.trans ⟨hkey.1.trans hxkey.1.symm, hkey.2.trans hxkey.2.symm⟩ hsame.symm
  · intro hsafe
    have hapart : ∀ c, u.mem.live c = true → ¬SameKey x (u.mem.cell c) := fun c hc hsk =>
      hsafe c hc ⟨hsk.1.symm.trans hxkey.1, hsk.2.symm.trans hxkey.2⟩
    have hnil : rowsOf u.table x = [] := by
      apply eq_nil_iff_forall_not_mem.mpr
      intro r hr
      obtain ⟨hr, hrx⟩ := mem_rowsOf.mp hr
      obtain ⟨c, hc, hrc⟩ := hs.owned r hr
      exact hapart c hc (SameKey.of_isOf hrx hrc)
    rw [hnil] at hnew hrows
    refine ⟨fun c d hc hd hsk => ?_, fun c hc => ?_, fun r hr => ?_⟩
    · rw [hlive, update_apply] at hc hd
      rw [hcell, update_apply, update_apply] at hsk
      by_cases hcf : c = u.mem.fresh
      · by_cases hdf : d = u.mem.fresh
        · exact hcf.trans hdf.symm
        · rw [if_pos hcf, if_neg hdf] at hsk
          rw [if_neg hdf] at hd
          exact absurd (hsame.symm.trans hsk) (hapart d hd)
      · rw [if_neg hcf] at hc hsk
        by_cases hdf : d = u.mem.fresh
        · rw [if_pos hdf] at hsk
          exact absurd (hsame.symm.trans hsk.symm) (hapart c hc)
        · rw [if_neg hdf] at hd hsk
          exact hs.keys c d hc hd hsk
    · rw [hlive, update_apply] at hc
      rw [hcell, htable, update_apply]
      by_cases hcf : c = u.mem.fresh
      · rw [if_pos hcf, rowsOf_congr hsame, hrows, hnew]
        exact stored_inserted hmode ok (by rw [hx]; rfl)
      · rw [if_neg hcf] at hc
        rw [if_neg hcf, hother _ (hapart c hc)]
        exact hs.stored c hc
    · obtain ⟨y, hy⟩ := exists_isOf r
      by_cases hxy : SameKey x y
      · refine ⟨u.mem.fresh, by rw [hlive, update_self], ?_⟩
        rw [hcell, update_self, isOf_congr (hsame.trans hxy)]
        exact hy
      · have hr' := mem_rowsOf.mpr ⟨hr, hy⟩
        rw [htable, hother y hxy] at hr'
        obtain ⟨c, hc, hrc⟩ := hs.owned r (mem_rowsOf.mp hr').1
        refine ⟨c, by rw [hlive, update_of_ne (hold c hc), hc], ?_⟩
        rw [hcell, update_of_ne (hold c hc)]
        exact hrc

theorem timerUrecord_acts (h : ListOk u.mem l) (hs : Synced u)
    (hrun : timerUrecord cfg u t ok = some u') : Acts u u' fun c => timerEffect t (ok c) := by
  obtain ⟨v, hv, hacts⟩ := timer_acts t ok h hs.keys
  have hwb : timerUrecord cfg u t ok = wbTimer t ok u := by
    rcases hmode with hm | hm <;> rw [timerUrecord, hm]
  cases hv.symm.trans (hwb.symm.trans hrun)
  exact hacts

/-- **An operation keeps the agreement** iff it is safe. -/
theorem step_synced_iff (h : ListOk u.mem l)
    (hs : Synced u) {op : Op} (hrun : step cfg u op = some u') : Synced u' ↔ Safe cfg u op := by
  cases op with
  | insert => exact insert_synced_iff hmode h hs hrun
  | update c ci ok =>
    have hc : u.mem.live c = true := possible_of_step cfg hrun
    rw [(update_acts h hs.keys hrun).synced_iff_one hs hc]
    exact updateEffect_good hmode ci ok (hs.stored c hc) (rowsOf_isOf _ _)
  | delete c ok =>
    have hc : u.mem.live c = true := possible_of_step cfg hrun
    rw [(delete_acts hs.keys hrun).synced_iff_one hs hc]
    exact deleteEffect_good hmode ok (hs.stored c hc) (rowsOf_isOf _ _)
  | timer t ok =>
    rw [(timerUrecord_acts hmode h hs hrun).synced_iff hs]
    exact forall₂_congr fun c hc => timerEffect_good t (ok c) (hs.stored c hc) (rowsOf_isOf _ _)

end

/-! ## Timer runs without failures -/

/-- The contacts that the table should have: those without `FL_MEM`. -/
def kept (u : UDomain) (l : List Nat) : List Nat := l.filter fun c => !(u.mem.cell c).vals.isMem

theorem table_exact (h : ListOk u.mem l) (hs : Synced u)
    (hsync : ∀ c, u.mem.live c = true → (u.mem.cell c).vals.isMem = false → (u.mem.cell c).state = .sync) :
    u.table.Perm ((kept u l).map fun c => (u.mem.cell c).row) := by
  have hrow : ∀ c, u.mem.live c = true → (u.mem.cell c).vals.isMem = false →
      rowsOf u.table (u.mem.cell c) = [(u.mem.cell c).row] := by
    intro c hc hm
    have hst := (Stored.of_not_isMem hm).mp (hs.stored c hc)
    rw [hsync c hc hm] at hst
    exact hst
  have hmem : ∀ c r, u.mem.live c = true → r ∈ rowsOf u.table (u.mem.cell c) →
      (u.mem.cell c).vals.isMem = false ∧ r = (u.mem.cell c).row := by
    intro c r hc hr
    cases hm : (u.mem.cell c).vals.isMem with
    | true =>
      rw [(Stored.of_isMem hm).mp (hs.stored c hc)] at hr
      cases hr
    | false =>
      rw [hrow c hc hm] at hr
      exact ⟨rfl, mem_singleton.mp hr⟩
  have hkept : ∀ c, c ∈ kept u l ↔ u.mem.live c = true ∧ (u.mem.cell c).vals.isMem = false := by
    intro c
    rw [kept, mem_filter, h.live, Bool.not_eq_true']
  have htable : u.table.Nodup := by
    apply nodup_iff_count_le_one.mpr
    intro r
    by_cases hr : r ∈ u.table
    · obtain ⟨c, hc, hrc⟩ := hs.owned r hr
      obtain ⟨hm, -⟩ := hmem c r hc (mem_rowsOf.mpr ⟨hr, hrc⟩)
      rw [← count_filter hrc]
      show List.count r (rowsOf u.table (u.mem.cell c)) ≤ 1
      rw [hrow c hc hm]
      exact count_le_length
    · rw [count_eq_zero_of_not_mem hr]
      exact Nat.zero_le 1
  have hnodup : ((kept u l).map fun c => (u.mem.cell c).row).Nodup := by
    refine List.Nodup.map_on (fun c hc d hd hcd => ?_) (h.nodup.filter _)
    have hkey : SameKey (u.mem.cell c) (u.mem.cell d) := ⟨congrArg Row.c hcd, congrArg Row.callid hcd⟩
    exact hs.keys c d ((hkept c).mp hc).1 ((hkept d).mp hd).1 hkey
  refine (perm_ext_iff_of_nodup htable hnodup).mpr fun r => ?_
  rw [mem_map]
  constructor
  · intro hr
    obtain ⟨c, hc, hrc⟩ := hs.owned r hr
    obtain ⟨hm, hrow⟩ := hmem c r hc (mem_rowsOf.mpr ⟨hr, hrc⟩)
    exact ⟨c, (hkept c).mpr ⟨hc, hm⟩, hrow.symm⟩
  · rintro ⟨c, hc, rfl⟩
    obtain ⟨hc, hm⟩ := (hkept c).mp hc
    have hin : (u.mem.cell c).row ∈ rowsOf u.table (u.mem.cell c) := by rw [hrow c hc hm]; exact mem_cons_self
    exact (mem_rowsOf.mp hin).1

/-- A contact that is left by a timer run whose calls succeed is in sync. -/
theorem timerEffect_sync (h : (timerEffect t true x rows).1 = some y) :
    x.vals.valid t = true ∧ y.vals = x.vals ∧ y.state = .sync := by
  unfold timerEffect at h
  by_cases hvalid : x.vals.valid t = true
  · rw [if_pos hvalid] at h
    have hcall : ∀ call : UContact → Bool → List Row → Bool × List Row, IsCall call →
        ∀ z, (call z true rows).1 = true := by
      intro call hcall z
      cases hcall <;> simp only [dbInsertUcontact, dbUpdateUcontact, dbDeleteUcontact] <;> split <;> rfl
    unfold stFlushUcontact at h
    cases hs : x.state with
    | new =>
      rw [hs] at h
      dsimp only at h
      rw [hcall _ .insert] at h
      cases h
      exact ⟨hvalid, rfl, rfl⟩
    | sync =>
      rw [hs] at h
      cases h
      exact ⟨hvalid, rfl, hs⟩
    | dirty =>
      rw [hs] at h
      dsimp only at h
      rw [hcall _ .update] at h
      cases h
      exact ⟨hvalid, rfl, rfl⟩
  · rw [if_neg hvalid] at h
    cases h

/-- **A timer run without failures**: the rows are those of the contacts that have not expired and are not kept in
memory only. -/
theorem timer_exact (hmode : cfg.dbMode = .writeThrough ∨ cfg.dbMode = .writeBack) (h : ListOk u.mem l) (hs : Synced u)
    (hok : ∀ c, ok c = true) :
    ∃ u', timerUrecord cfg u t ok = some u' ∧ ListOk u'.mem (l.filter fun c => (u.mem.cell c).vals.valid t) ∧
      Synced u' ∧
      u'.table.Perm ((kept u' (l.filter fun c => (u.mem.cell c).vals.valid t)).map fun c => (u'.mem.cell c).row) := by
  obtain ⟨u', hrun, hvals, hlist⟩ := h.timer cfg t ok
  rw [if_neg (by rcases hmode with hm | hm <;> rw [hm] <;> decide)] at hlist
  have hsafe : Safe cfg u (.timer t ok) := fun c _ => .inr (.inr (.inr (hok c)))
  have hstep : step cfg u (.timer t ok) = some u' := hrun
  have hs' : Synced u' := (step_synced_iff hmode h hs hstep).mpr hsafe
  have hacts := timerUrecord_acts hmode h hs hrun
  refine ⟨u', hrun, hlist, hs', table_exact hlist hs' fun c hc _ => ?_⟩
  have hcell := hacts.cell c (hacts.live c hc)
  rw [if_pos hc, hok c] at hcell
  exact (timerEffect_sync hcell).2.2

/-! ## Runs -/

/-- What the states of the contacts say about their rows. -/
def StatesTell (u : UDomain) : Prop :=
  ∀ c, u.mem.live c = true → (u.mem.cell c).vals.isMem = false →
    match (u.mem.cell c).state with
    | .new => rowsOf u.table (u.mem.cell c) = []
    | .sync => rowsOf u.table (u.mem.cell c) = [(u.mem.cell c).row]
    | .dirty => rowsOf u.table (u.mem.cell c) ≠ []

theorem Synced.statesTell (h : Synced u) : StatesTell u := by
  intro c hc hm
  have hst := (Stored.of_not_isMem hm).mp (h.stored c hc)
  cases hs : (u.mem.cell c).state with
  | new | sync =>
    rw [hs] at hst
    exact hst
  | dirty =>
    rw [hs] at hst
    obtain ⟨r, hr⟩ := hst
    exact fun hnil => by rw [hnil] at hr; cases hr

theorem init_synced : Synced UDomain.init :=
  ⟨fun _ _ hc => (by cases hc), fun _ hc => (by cases hc), fun _ hr => (by cases hr)⟩

/-- **The runs that keep contacts and rows in agreement.** Contacts and rows agree all along exactly when every
operation is safe. As long as they do, the states tell the truth; and a timer run whose calls succeed leaves exactly the
rows of the contacts that have not expired and are not kept in memory only. -/
theorem usrloc_synced_iff (hmode : cfg.dbMode = .writeThrough ∨ cfg.dbMode = .writeBack) {es : List (Op × UDomain)}
    (h : Trace (fun u op u' => step cfg u op = some u') UDomain.init es) :
    ((∀ e ∈ es, Synced e.2) ↔ Trace (fun u op _ => Safe cfg u op) UDomain.init es) ∧
    (∀ e ∈ es, Synced e.2 → StatesTell e.2) ∧
    (∀ e ∈ es, Synced e.2 → ∀ (t : Nat) (ok : Nat → Bool), (∀ c, ok c = true) →
      ∃ l u', ListOk e.2.mem l ∧ timerUrecord cfg e.2 t ok = some u' ∧
        ListOk u'.mem (l.filter fun c => (e.2.mem.cell c).vals.valid t) ∧
        u'.table.Perm
          ((kept u' (l.filter fun c => (e.2.mem.cell c).vals.valid t)).map fun c => (u'.mem.cell c).row)) := by
  have hI : ∀ (u : UDomain) (op : Op) (u' : UDomain), (∃ l, ListOk u.mem l) → step cfg u op = some u' →
      ∃ l, ListOk u'.mem l := by
    rintro u op u' ⟨l, hl⟩ hrun
    obtain ⟨v, hv, hok⟩ := hl.step cfg (possible_of_step cfg hrun)
    obtain rfl : v = u' := Option.some.inj (hv.symm.trans hrun)
    exact hok
  have hinit : ∃ l, ListOk UDomain.init.mem l := ⟨[], init_listOk⟩
  have hall := Trace.invariant (I := fun u : UDomain => ∃ l, ListOk u.mem l) hI h hinit
  refine ⟨?_, fun e _ hs => hs.statesTell, fun e he hs t ok hok => ?_⟩
  · refine Trace.always_iff (I := fun u : UDomain => ∃ l, ListOk u.mem l) hI ?_ h hinit init_synced
    rintro u op u' ⟨l, hl⟩ hs hrun
    exact step_synced_iff hmode hl hs hrun
  · obtain ⟨l, hl⟩ := hall e he
    obtain ⟨u', hrun, hlist, -, hperm⟩ := timer_exact hmode hl hs hok
    exact ⟨l, u', hl, hrun, hlist, hperm⟩

end

/-- A contact with an expiration time and flags. -/
def expiring (expires flags : Nat) : Info :=
  ⟨"1@a".toList, ⟨none, none, expires, 0, 1, flags, 0, [], none, 0xFFFFFFFF, 0⟩⟩

/-- A contact is inserted, updated and flushed. -/
def flushed : List Op :=
  [.insert "sip:a".toList (expiring 100 0) true, .update 0 (expiring 200 0) true, .timer 50 fun _ => true]

/-- Write-back, with calls that succeed. -/
theorem usrloc_synced_flushed :
    ∃ es, Trace (fun u op u' => step ⟨.writeBack, false⟩ u op = some u') UDomain.init es ∧ es.map Prod.fst = flushed ∧
      ((∀ e ∈ es, Synced e.2) ↔ Trace (fun u op _ => Safe ⟨.writeBack, false⟩ u op) UDomain.init es) := by
  have hrun : (exec (step ⟨.writeBack, false⟩) UDomain.init flushed).isSome = true := by decide +kernel
  obtain ⟨u, hu⟩ := Option.isSome_iff_exists.mp hrun
  obtain ⟨es, hes, hlabels, -⟩ := exec_trace hu
  exact ⟨es, hes, hlabels, (usrloc_synced_iff (.inr rfl) hes).1⟩

/-- The state of the first contact and the table after a run. -/
def outcome (cfg : Config) (ops : List Op) : Option (Option UContact × List Row) :=
  (exec (step cfg) UDomain.init ops).map fun u => (if u.mem.live 0 then some (u.mem.cell 0) else none, u.table)

/-- An insertion fails and an update succeeds: the contact is in sync and has no row. `FL_MEM` is dropped: the same. It
is set: the row stays, also after the contact has expired. A deletion fails: the row stays without a contact. Write-back
deletes a contact: it is in sync, and its row has the old expiration time. -/
theorem usrloc_out_of_sync :
    ((outcome ⟨.writeThrough, false⟩
        [.insert "sip:a".toList (expiring 100 0) false, .update 0 (expiring 200 0) true]).map fun o =>
      (o.1.map UContact.state, o.2)) = some (some .sync, []) ∧
    ((outcome ⟨.writeBack, false⟩
        [.insert "sip:a".toList (expiring 100 flMem) true, .timer 50 fun _ => true, .update 0 (expiring 200 0) true,
          .timer 50 fun _ => true]).map fun o =>
      (o.1.map UContact.state, o.1.map fun x => x.vals.isMem, o.2)) = some (some .sync, some false, []) ∧
    ((outcome ⟨.writeBack, false⟩
        [.insert "sip:a".toList (expiring 100 0) true, .timer 50 fun _ => true, .update 0 (expiring 200 flMem) true,
          .timer 250 fun _ => true]).map fun o => (o.1, o.2.map Row.c)) = some (none, ["sip:a".toList]) ∧
    ((outcome ⟨.writeThrough, false⟩
        [.insert "sip:a".toList (expiring 100 0) true, .delete 0 false, .timer 50 fun _ => true]).map fun o =>
      (o.1, o.2.map Row.c)) = some (none, ["sip:a".toList]) ∧
    ((outcome ⟨.writeBack, false⟩
        [.insert "sip:a".toList (expiring 100 0) true, .timer 50 fun _ => true, .delete 0 true]).map fun o =>
      (o.1.map fun x => (x.state, x.vals.expires), o.2.map fun r => r.vals.expires)) =
        some (some (.sync, 10), [100]) := by
  decide +kernel

end OpenSer.Usrloc

