import OpenSer.Usrloc.ContactList

/-!
# Contacts and rows

What the operations do to a contact and to the rows with its keys. A database call of a contact touches only the rows
with its keys, so every operation is described contact by contact.

* `rowsOf_call`, `rowsOf_call_other`: a call, on the rows of its contact and on other rows.
* `Acts`: an operation is a function on each contact and its rows.
* `update_acts`, `delete_acts`, `timer_acts`: the operations.
-/

namespace OpenSer.Usrloc

open List Function Lib Bool

/-! ## Rows -/

def SameKey (x y : UContact) : Prop := x.c = y.c ∧ x.callid = y.callid

def rowsOf (table : List Row) (x : UContact) : List Row := table.filter fun r => r.isOf x

variable {call : UContact → Bool → List Row → Bool × List Row}

section
variable {x y : UContact} {table : List Row}

theorem SameKey.symm (h : SameKey x y) : SameKey y x := ⟨h.1.symm, h.2.symm⟩

theorem SameKey.trans {z : UContact} (h : SameKey x y) (h' : SameKey y z) : SameKey x z :=
  ⟨h.1.trans h'.1, h.2.trans h'.2⟩

theorem isOf_iff {r : Row} : r.isOf x = true ↔ r.c = x.c ∧ r.callid = x.callid := by
  simp [Row.isOf]

theorem isOf_congr (h : SameKey x y) (r : Row) : r.isOf x = r.isOf y := by
  rw [Bool.eq_iff_iff, isOf_iff, isOf_iff, h.1, h.2]

theorem SameKey.of_isOf {r : Row} (hx : r.isOf x = true) (hy : r.isOf y = true) : SameKey x y := by
  rw [isOf_iff] at hx hy
  exact ⟨hx.1.symm.trans hy.1, hx.2.symm.trans hy.2⟩

theorem rowsOf_congr (h : SameKey x y) (table : List Row) : rowsOf table x = rowsOf table y :=
  filter_congr fun r _ => isOf_congr h r

inductive IsCall : (UContact → Bool → List Row → Bool × List Row) → Prop
  | insert : IsCall dbInsertUcontact
  | update : IsCall dbUpdateUcontact
  | delete : IsCall dbDeleteUcontact

theorem rowsOf_call (hcall : IsCall call) (x : UContact) (ok : Bool) (table : List Row) :
    rowsOf (call x ok table).2 x = (call x ok (rowsOf table x)).2 ∧
      (call x ok table).1 = (call x ok (rowsOf table x)).1 := by
  have hrow : x.row.isOf x = true := by simp [isOf_iff, UContact.row]
  cases hcall with
  | insert =>
    unfold dbInsertUcontact
    split
    · exact ⟨rfl, rfl⟩
    · split
      · exact ⟨by rw [rowsOf, filter_cons_of_pos hrow]; rfl, rfl⟩
      · exact ⟨rfl, rfl⟩
  | update =>
    unfold dbUpdateUcontact
    split
    · exact ⟨rfl, rfl⟩
    · split
      · refine ⟨?_, rfl⟩
        rw [rowsOf, filter_map]
        congr 1
        refine filter_congr fun r _ => ?_
        rw [comp]
        split
        · rfl
        · rfl
      · exact ⟨rfl, rfl⟩
  | delete =>
    unfold dbDeleteUcontact
    split
    · exact ⟨rfl, rfl⟩
    · split
      · exact ⟨filter_comm .., rfl⟩
      · exact ⟨rfl, rfl⟩

theorem rowsOf_call_other (hcall : IsCall call) (x : UContact)
    (ok : Bool) (table : List Row) (hxy : ¬SameKey x y) : rowsOf (call x ok table).2 y = rowsOf table y := by
  have hne : ∀ r : Row, r.isOf x = true → r.isOf y = false := by
    intro r hr
    by_contra hy
    exact hxy (SameKey.of_isOf hr (not_eq_false _ ▸ hy))
  have hrow : x.row.isOf x = true := by simp [isOf_iff, UContact.row]
  cases hcall with
  | insert =>
    unfold dbInsertUcontact
    split
    · rfl
    · split
      · exact filter_cons_of_neg (by rw [hne _ hrow]; exact false_ne_true)
      · rfl
  | update =>
    unfold dbUpdateUcontact
    split
    · rfl
    · split
      · have hkeep : (fun r => Row.isOf y r) ∘ (fun r => if r.isOf x then { r with vals := x.vals } else r) =
            fun r => Row.isOf y r := by
          funext r
          rw [comp]
          split <;> rfl
        rw [rowsOf, filter_map, hkeep]
        refine (map_congr_left fun r hr => if_neg fun hx => ?_).trans (map_id' _)
        have hy := (mem_filter.mp hr).2
        rw [hne r hx] at hy
        cases hy
      · rfl
  | delete =>
    unfold dbDeleteUcontact
    split
    · rfl
    · split
      · rw [rowsOf, filter_filter]
        refine filter_congr fun r _ => ?_
        cases hy : r.isOf y with
        | false => rfl
        | true =>
          have : r.isOf x = false := by
            by_contra hx
            rw [hne r (not_eq_false _ ▸ hx)] at hy
            cases hy
          rw [this]
          rfl
      · rfl

end

/-! ## Effects -/

/-- What becomes of a contact, if it stays, and of its rows. -/
abbrev Effect := UContact → List Row → Option UContact × List Row

def unchanged : Effect := fun x rows => (some x, rows)

def updateEffect (cfg : Config) (ci : Info) (ok : Bool) : Effect := fun x rows =>
  let (y, rows) := atOnce cfg dbUpdateUcontact (stUpdateUcontact cfg.dbMode (memUpdateUcontact x ci)) ok rows
  (some y, rows)

def deleteEffect (cfg : Config) (ok : Bool) : Effect := fun x rows =>
  let (y, now) := stDeleteUcontact cfg.dbMode x
  if now then
    (none, if cfg.dbMode = .writeThrough ∨ cfg.dbMode = .dbOnly then (dbDeleteUcontact y ok rows).2 else rows)
  else (some y, rows)

def timerEffect (t : Nat) (ok : Bool) : Effect := fun x rows =>
  if x.vals.valid t then
    let (y, op) := stFlushUcontact x
    match op with
    | .nothing => (some x, rows)
    | .insert => (some (if (dbInsertUcontact y ok rows).1 then y else x), (dbInsertUcontact y ok rows).2)
    | .update => (some (if (dbUpdateUcontact y ok rows).1 then y else x), (dbUpdateUcontact y ok rows).2)
  else (none, if stExpiredUcontact x then (dbDeleteUcontact x ok rows).2 else rows)

/-- An operation that has an effect on each contact and its rows, and on no other rows. -/
structure Acts (u u' : UDomain) (f : Nat → Effect) : Prop where
  live : ∀ c, u'.mem.live c = true → u.mem.live c = true
  cell : ∀ c, u.mem.live c = true →
    (f c (u.mem.cell c) (rowsOf u.table (u.mem.cell c))).1 = if u'.mem.live c then some (u'.mem.cell c) else none
  key : ∀ c, u'.mem.live c = true → SameKey (u'.mem.cell c) (u.mem.cell c)
  rows : ∀ c, u.mem.live c = true →
    rowsOf u'.table (u.mem.cell c) = (f c (u.mem.cell c) (rowsOf u.table (u.mem.cell c))).2
  other : ∀ y, (∀ c, u.mem.live c = true → ¬SameKey (u.mem.cell c) y) → rowsOf u'.table y = rowsOf u.table y

/-- No two contacts of a record have the same keys. -/
def KeysApart (u : UDomain) : Prop :=
  ∀ c d, u.mem.live c = true → u.mem.live d = true → SameKey (u.mem.cell c) (u.mem.cell d) → c = d

section
variable {cfg : Config} {u : UDomain} {l l₁ l₂ : List Nat} {c : Nat} {u' : UDomain} {ok : Bool}

/-! ## Composition -/

def Effect.then (f g : Effect) : Effect := fun x rows =>
  match f x rows with
  | (some y, rows) => g y rows
  | (none, rows) => (none, rows)

theorem Acts.refl (u : UDomain) : Acts u u fun _ => unchanged where
  live := fun _ hc => hc
  cell := fun c hc => by rw [if_pos hc]; rfl
  key := fun _ _ => ⟨rfl, rfl⟩
  rows := fun _ _ => rfl
  other := fun _ _ => rfl

theorem Acts.congr {f g : Nat → Effect} (h : Acts u u' f) (hfg : ∀ c, u.mem.live c = true → f c = g c) :
    Acts u u' g where
  live := h.live
  cell := fun c hc => hfg c hc ▸ h.cell c hc
  key := h.key
  rows := fun c hc => hfg c hc ▸ h.rows c hc
  other := h.other

theorem Acts.keysApart {f : Nat → Effect} (h : Acts u u' f) (hkeys : KeysApart u) : KeysApart u' := by
  intro c d hc hd hsame
  have hcu := h.live c hc
  have hdu := h.live d hd
  exact hkeys c d hcu hdu ((h.key c hc).symm.trans (hsame.trans (h.key d hd)))

theorem Acts.trans {v w : UDomain} {f g : Nat → Effect} (hf : Acts u v f) (hg : Acts v w g) (hkeys : KeysApart u) :
    Acts u w fun c => (f c).then (g c) := by
  -- a contact that is gone has no keys in common with those that are left
  have hgone : ∀ c, u.mem.live c = true → v.mem.live c = false →
      rowsOf w.table (u.mem.cell c) = rowsOf v.table (u.mem.cell c) := by
    intro c hc hcv
    apply hg.other
    intro d hd hsame
    have hdc := hkeys d c (hf.live d hd) hc ((hf.key d hd).symm.trans hsame)
    rw [hdc, hcv] at hd
    cases hd
  have hthen : ∀ c, u.mem.live c = true →
      ((f c).then (g c)) (u.mem.cell c) (rowsOf u.table (u.mem.cell c)) =
        (if w.mem.live c then some (w.mem.cell c) else none, rowsOf w.table (u.mem.cell c)) := by
    intro c hc
    have hcell := hf.cell c hc
    have hrows := hf.rows c hc
    unfold Effect.then
    generalize f c (u.mem.cell c) (rowsOf u.table (u.mem.cell c)) = p at hcell hrows
    obtain ⟨x, rows⟩ := p
    cases hcv : v.mem.live c with
    | false =>
      have hcw : w.mem.live c = false := by
        by_contra hcw
        rw [hg.live c (not_eq_false _ ▸ hcw)] at hcv
        cases hcv
      rw [hcv] at hcell
      subst hcell
      rw [hgone c hc hcv, hrows, hcw]
      rfl
    | true =>
      rw [hcv] at hcell
      subst hcell
      subst hrows
      have hkey := hf.key c hcv
      rw [← rowsOf_congr hkey, ← rowsOf_congr hkey, hg.rows c hcv, ← hg.cell c hcv]
      rfl
  refine ⟨fun c hc => hf.live c (hg.live c hc), fun c hc => ?_, fun c hc => ?_, fun c hc => ?_, fun y hy => ?_⟩
  · rw [hthen c hc]
  · exact (hg.key c hc).trans (hf.key c (hg.live c hc))
  · rw [hthen c hc]
  · rw [hg.other y fun c hc hsame => hy c (hf.live c hc) ((hf.key c hc).symm.trans hsame), hf.other y hy]

/-! ## The operations -/

theorem acts_one {f : Effect} (hkeys : KeysApart u) (hc : u.mem.live c = true)
    (hlive : ∀ d, d ≠ c → u'.mem.live d = u.mem.live d) (hcell : ∀ d, d ≠ c → u'.mem.cell d = u.mem.cell d)
    (hkey : SameKey (u'.mem.cell c) (u.mem.cell c))
    (heff : (f (u.mem.cell c) (rowsOf u.table (u.mem.cell c))).1 = if u'.mem.live c then some (u'.mem.cell c) else none)
    (hrows : rowsOf u'.table (u.mem.cell c) = (f (u.mem.cell c) (rowsOf u.table (u.mem.cell c))).2)
    (hother : ∀ y, ¬SameKey (u.mem.cell c) y → rowsOf u'.table y = rowsOf u.table y) :
    Acts u u' (fun d => if d = c then f else unchanged) := by
  refine ⟨fun d hd => ?_, fun d hd => ?_, fun d hd => ?_, fun d hd => ?_, fun y hy => hother y (hy c hc)⟩
  · by_cases hdc : d = c
    · rwa [hdc]
    · rwa [← hlive d hdc]
  · by_cases hdc : d = c
    · subst hdc
      rw [if_pos rfl, heff]
    · rw [if_neg hdc, hlive d hdc, if_pos hd, hcell d hdc]
      rfl
  · by_cases hdc : d = c
    · rwa [hdc]
    · rw [hcell d hdc]
      exact ⟨rfl, rfl⟩
  · by_cases hdc : d = c
    · subst hdc
      rw [if_pos rfl, hrows]
    · rw [if_neg hdc]
      exact hother _ fun hsame => hdc (hkeys c d hc hd hsame).symm

theorem atOnce_call (cfg : Config) (hcall : IsCall call) (x : UContact) (ok : Bool) (table : List Row) :
    (atOnce cfg call x ok table).1 = (atOnce cfg call x ok (rowsOf table x)).1 ∧
      rowsOf (atOnce cfg call x ok table).2 x = (atOnce cfg call x ok (rowsOf table x)).2 ∧
      SameKey (atOnce cfg call x ok table).1 x ∧
      ∀ y, ¬SameKey x y → rowsOf (atOnce cfg call x ok table).2 y = rowsOf table y := by
  obtain ⟨hrows, hdone⟩ := rowsOf_call hcall x ok table
  unfold atOnce
  split
  · dsimp only
    refine ⟨by rw [hdone], hrows, ?_, fun y hy => rowsOf_call_other hcall x ok table hy⟩
    split <;> exact ⟨rfl, rfl⟩
  · exact ⟨rfl, rfl, ⟨rfl, rfl⟩, fun _ _ => rfl⟩

theorem stUpdateUcontact_key (mode : DbMode) (x : UContact) : SameKey (stUpdateUcontact mode x) x := by
  unfold stUpdateUcontact
  split
  · exact ⟨rfl, rfl⟩
  · exact ⟨rfl, rfl⟩
  · split <;> exact ⟨rfl, rfl⟩

/-- **An update**, as an effect on the contact and its rows. -/
theorem update_acts {ci : Info} (h : ListOk u.mem l) (hkeys : KeysApart u)
    (hrun : step cfg u (.update c ci ok) = some u') :
    Acts u u' (fun d => if d = c then updateEffect cfg ci ok else unchanged) := by
  have hc : u.mem.live c = true := possible_of_step cfg hrun
  obtain ⟨l₁, l₂, rfl⟩ := h.split hc
  obtain ⟨v, hv, -, hcell, htable, hlive⟩ := h.updateUcontact cfg ci ok
  obtain rfl : v = u' := Option.some.inj (hv.symm.trans ((if_pos hc).symm.trans hrun))
  obtain ⟨x, hx⟩ : ∃ x, x = stUpdateUcontact cfg.dbMode (memUpdateUcontact (u.mem.cell c) ci) := ⟨_, rfl⟩
  have hkey : SameKey x (u.mem.cell c) := hx ▸ (stUpdateUcontact_key _ _).trans ⟨rfl, rfl⟩
  obtain ⟨hnew, hrows, hsame, hother⟩ := atOnce_call cfg .update x ok u.table
  have heff : updateEffect cfg ci ok (u.mem.cell c) (rowsOf u.table (u.mem.cell c)) =
      (some (atOnce cfg dbUpdateUcontact x ok (rowsOf u.table x)).1,
        (atOnce cfg dbUpdateUcontact x ok (rowsOf u.table x)).2) := by
    rw [updateEffect, ← hx, rowsOf_congr hkey]
  rw [← hx] at hcell htable
  refine acts_one hkeys hc (fun d _ => congrFun hlive d) (fun d hd => ?_) ?_ ?_ ?_ fun y hy => ?_
  · rw [hcell, update_of_ne hd]
  · rw [hcell, update_self]
    exact hsame.trans hkey
  · rw [heff, hlive, if_pos hc, hcell, update_self, hnew]
  · rw [heff, htable, ← rowsOf_congr hkey, hrows]
  · rw [htable]
    exact hother y fun hxy => hy (hkey.symm.trans hxy)

theorem stDeleteUcontact_key (mode : DbMode) (x : UContact) : SameKey (stDeleteUcontact mode x).1 x := by
  unfold stDeleteUcontact
  split
  · exact ⟨rfl, rfl⟩
  · split <;> exact ⟨rfl, rfl⟩
  · split <;> exact ⟨rfl, rfl⟩

theorem memDeleteUcontact_live (r : URecord) (c : Nat) :
    (r.memDeleteUcontact c).live = Function.update r.live c false := rfl

/-- **A deletion**, as an effect on the contact and its rows. -/
theorem delete_acts (hkeys : KeysApart u) (hrun : step cfg u (.delete c ok) = some u') :
    Acts u u' (fun d => if d = c then deleteEffect cfg ok else unchanged) := by
  obtain ⟨hc, hrun⟩ := Option.ite_none_right_eq_some.mp hrun
  cases hrun
  have hkey := stDeleteUcontact_key cfg.dbMode (u.mem.cell c)
  obtain ⟨x, now, hx⟩ : ∃ x now, stDeleteUcontact cfg.dbMode (u.mem.cell c) = (x, now) := ⟨_, _, rfl⟩
  rw [hx] at hkey
  cases now with
  | true =>
    have heff : deleteEffect cfg ok (u.mem.cell c) (rowsOf u.table (u.mem.cell c)) =
        (none, if cfg.dbMode = .writeThrough ∨ cfg.dbMode = .dbOnly
          then (dbDeleteUcontact x ok (rowsOf u.table (u.mem.cell c))).2 else rowsOf u.table (u.mem.cell c)) := by
      rw [deleteEffect, hx]
      rfl
    have hdel : deleteUcontact cfg u c ok = ⟨(u.mem.setCell c x).memDeleteUcontact c,
        if cfg.dbMode = .writeThrough ∨ cfg.dbMode = .dbOnly then (dbDeleteUcontact x ok u.table).2 else u.table⟩ := by
      rw [deleteUcontact, hx]
      rfl
    rw [hdel]
    refine acts_one hkeys hc (fun d hd => ?_) (fun d hd => ?_) ?_ ?_ ?_ fun y hy => ?_
    · exact update_of_ne hd ..
    · rw [memDeleteUcontact_cell]
      exact update_of_ne hd ..
    · rw [memDeleteUcontact_cell, URecord.setCell_cell, update_self]
      exact hkey
    · rw [heff, memDeleteUcontact_live, update_self]
      rfl
    · rw [heff]
      split
      · rw [← rowsOf_congr hkey, (rowsOf_call .delete x ok u.table).1, rowsOf_congr hkey]
      · rfl
    · split
      · exact rowsOf_call_other .delete x ok u.table fun hxy => hy (hkey.symm.trans hxy)
      · rfl
  | false =>
    have heff : deleteEffect cfg ok (u.mem.cell c) (rowsOf u.table (u.mem.cell c)) =
        (some x, rowsOf u.table (u.mem.cell c)) := by
      rw [deleteEffect, hx]
      rfl
    have hdel : deleteUcontact cfg u c ok = ⟨u.mem.setCell c x, u.table⟩ := by
      rw [deleteUcontact, hx]
      rfl
    rw [hdel]
    refine acts_one hkeys hc (fun d hd => rfl) (fun d hd => update_of_ne hd ..) ?_ ?_ ?_ fun y hy => rfl
    · rw [URecord.setCell_cell, update_self]
      exact hkey
    · rw [heff, URecord.setCell_cell, update_self]
      exact (if_pos hc).symm
    · rw [heff]

theorem flush_acts (hcall : IsCall call) {y : UContact}
    {f : Effect} (hkeys : KeysApart u) (hc : u.mem.live c = true) (hkey : SameKey y (u.mem.cell c))
    (heff : f (u.mem.cell c) (rowsOf u.table (u.mem.cell c)) =
      (some (if (call y ok (rowsOf u.table (u.mem.cell c))).1 then y else u.mem.cell c),
        (call y ok (rowsOf u.table (u.mem.cell c))).2)) :
    Acts u ⟨u.mem.setCell c (if (call y ok u.table).1 then y else u.mem.cell c), (call y ok u.table).2⟩
      (fun d => if d = c then f else unchanged) := by
  obtain ⟨hrows, hdone⟩ := rowsOf_call hcall y ok u.table
  rw [rowsOf_congr hkey] at hrows hdone
  rw [rowsOf_congr hkey] at hrows
  refine acts_one hkeys hc (fun d hd => rfl) (fun d hd => update_of_ne hd ..) ?_ ?_ ?_ fun z hz => ?_
  · rw [URecord.setCell_cell, update_self]
    split
    · exact hkey
    · exact ⟨rfl, rfl⟩
  · rw [heff, URecord.setCell_cell, update_self, hdone]
    exact (if_pos hc).symm
  · rw [heff, hrows]
  · exact rowsOf_call_other hcall y ok u.table fun hyz => hz (hkey.symm.trans hyz)

/-- **A visit by the timer**, as an effect on the contact and its rows. -/
theorem wbContact_acts (t : Nat) (ok : Bool) (hkeys : KeysApart u) (hc : u.mem.live c = true) :
    Acts u (wbContact t ok c u) (fun d => if d = c then timerEffect t ok else unchanged) := by
  unfold wbContact
  dsimp only
  by_cases hvalid : (u.mem.cell c).vals.valid t = true
  · rw [if_pos hvalid]
    cases hs : (u.mem.cell c).state with
    | new =>
      have hflush : stFlushUcontact (u.mem.cell c) = ({ u.mem.cell c with state := .sync }, .insert) := by
        rw [stFlushUcontact, hs]
      have hback : { u.mem.cell c with state := .new } = u.mem.cell c := by rw [← hs]
      rw [hflush]
      rw [hback]
      refine flush_acts .insert hkeys hc ⟨rfl, rfl⟩ ?_
      rw [timerEffect, if_pos hvalid, hflush]
    | sync =>
      have hflush : stFlushUcontact (u.mem.cell c) = (u.mem.cell c, .nothing) := by
        rw [stFlushUcontact, hs]
      rw [hflush]
      refine acts_one hkeys hc (fun d hd => rfl) (fun d hd => rfl) ⟨rfl, rfl⟩ ?_ ?_ fun z hz => rfl
      · rw [timerEffect, if_pos hvalid, hflush, if_pos hc]
      · rw [timerEffect, if_pos hvalid, hflush]
    | dirty =>
      have hflush : stFlushUcontact (u.mem.cell c) = ({ u.mem.cell c with state := .sync }, .update) := by
        rw [stFlushUcontact, hs]
      have hback : { u.mem.cell c with state := .dirty } = u.mem.cell c := by rw [← hs]
      rw [hflush]
      rw [hback]
      refine flush_acts .update hkeys hc ⟨rfl, rfl⟩ ?_
      rw [timerEffect, if_pos hvalid, hflush]
  · rw [if_neg hvalid]
    have heff : timerEffect t ok (u.mem.cell c) (rowsOf u.table (u.mem.cell c)) =
        (none, if stExpiredUcontact (u.mem.cell c)
          then (dbDeleteUcontact (u.mem.cell c) ok (rowsOf u.table (u.mem.cell c))).2
          else rowsOf u.table (u.mem.cell c)) := by
      rw [timerEffect, if_neg hvalid]
    refine acts_one hkeys hc (fun d hd => ?_) (fun d hd => ?_) ?_ ?_ ?_ fun y hy => ?_
    · exact update_of_ne hd ..
    · rw [memDeleteUcontact_cell]
    · rw [memDeleteUcontact_cell]
      exact ⟨rfl, rfl⟩
    · rw [heff, memDeleteUcontact_live, update_self]
      rfl
    · rw [heff]
      split
      · rw [(rowsOf_call .delete (u.mem.cell c) ok u.table).1]
      · rfl
    · split
      · exact rowsOf_call_other .delete (u.mem.cell c) ok u.table hy
      · rfl

/-- **A timer run**, as an effect on each contact and its rows. -/
theorem timer_acts (t : Nat) (ok : Nat → Bool) (h : ListOk u.mem l) (hkeys : KeysApart u) :
    ∃ u', wbTimer t ok u = some u' ∧ Acts u u' fun c => timerEffect t (ok c) := by
  -- the contacts that are still to be visited are as they were
  let P : List Nat → List Nat → UDomain → Prop := fun _ s v =>
    Acts u v fun c => if c ∈ s then unchanged else timerEffect t (ok c)
  have hP : ∀ k c s v, ListOk v.mem (k ++ c :: s) → P k (c :: s) v →
      P (k ++ if (v.mem.cell c).vals.valid t then [c] else []) s (wbContact t (ok c) c v) := by
    intro k c s v hv hp
    have hc : v.mem.live c = true := (hv.live c).mp (by simp)
    have hcs : c ∉ s := fun hmem => hv.nodup_rest.1 (mem_append_right _ hmem)
    refine (Acts.trans hp (wbContact_acts t (ok c) (Acts.keysApart hp hkeys) hc) hkeys).congr fun d _ => ?_
    funext x rows
    by_cases hdc : d = c
    · subst hdc
      rw [if_pos rfl, if_pos mem_cons_self, if_neg hcs]
      rfl
    · rw [if_neg hdc]
      by_cases hds : d ∈ s
      · rw [if_pos hds, if_pos (mem_cons_of_mem _ hds)]
        rfl
      · rw [if_neg hds, if_neg (by simp [hdc, hds]), Effect.then]
        generalize timerEffect t (ok d) x rows = p
        obtain ⟨_ | y, rows⟩ := p <;> rfl
  have hstart : P [] l u := (Acts.refl u).congr fun c hc => (if_pos ((h.live c).mpr hc)).symm
  obtain ⟨u', l', hrun, -, hacts⟩ :=
    timerLoop_rule (P := P) (wbContact_ok t ok) hP (s := l) (k := []) h h.length_le hstart
  refine ⟨u', ?_, hacts.congr fun c _ => if_neg (by simp)⟩
  rw [wbTimer, h.dll.head_eq]
  exact hrun

end

end OpenSer.Usrloc
