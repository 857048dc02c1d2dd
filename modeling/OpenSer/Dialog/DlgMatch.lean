import OpenSer.Dialog.DlgHandlers

/-!
# Finding a dialog by Call-ID and tags

`get_dlg` looks for a dialog in the entry of the From tag, and then in the entry of the To tag. Each search stops at the
first dialog that matches, also if that one is in `DLG_STATE_DELETED`, and the direction of such a match stays set for
the second search.

* `matchDialog_isSome`, `matchDialog_dir`: what `match_dialog` decides.
* `internalGetDlg_search`: a search finds the first match, if that is not deleted.
* `getDlg_complete_iff`: when `get_dlg` finds a dialog that is there.
-/

namespace OpenSer.Dialog

open List

def Shm.entryOf (m : Shm) (callid tag : Str) : Nat :=
  (coreHash callid (if tag.length ≠ 0 then some tag else none) m.size).toNat

/-- `get_dlg`: the dialog, with a reference to it, and the direction. -/
def Shm.getDlg (m : Shm) (callid ftag ttag : Str) (dir : DlgDir) : Shm × Option Nat × DlgDir :=
  match m.internalGetDlg (m.entryOf callid ftag) callid ftag ttag dir with
  | (m, some dlg, dir) => (m, some dlg, dir)
  | (m, none, dir) => m.internalGetDlg (m.entryOf callid ttag) callid ftag ttag dir

variable {m : Shm} {c : DlgCell} {callid ftag ttag : Str} {dir dir' : DlgDir} {l : List Nat} {d : Nat}

/-! ## One dialog -/

/-- The request goes from the caller to the callee. -/
def DlgCell.Downstream (c : DlgCell) (callid ftag ttag : Str) : Prop :=
  sameStr c.callid callid ∧ sameStr c.callerTag ftag ∧ sameStr c.calleeTag ttag

/-- The request goes from the callee to the caller. -/
def DlgCell.Upstream (c : DlgCell) (callid ftag ttag : Str) : Prop :=
  sameStr c.callid callid ∧ sameStr c.calleeTag ftag ∧ sameStr c.callerTag ttag

/-- The dialog matches in a direction, or in either. -/
def DlgCell.Matches (c : DlgCell) (callid ftag ttag : Str) : DlgDir → Prop
  | .downstream => c.Downstream callid ftag ttag
  | .upstream => c.Upstream callid ftag ttag
  | .none => c.Downstream callid ftag ttag ∨ c.Upstream callid ftag ttag

theorem sameStr_iff (a b : Str) : sameStr a b = true ↔ a.length = b.length ∧ strncmp b.length a b = true := by
  simp [sameStr]

theorem matchDialog_isSome (c : DlgCell) (callid ftag ttag : Str) (dir : DlgDir) :
    (matchDialog c callid ftag ttag dir).isSome ↔ c.Matches callid ftag ttag dir := by
  cases dir with
  | downstream =>
    simp only [matchDialog, DlgCell.Matches, DlgCell.Downstream]
    split <;> simp_all
  | upstream =>
    simp only [matchDialog, DlgCell.Matches, DlgCell.Upstream]
    split <;> simp_all
  | none =>
    simp only [matchDialog, DlgCell.Matches, DlgCell.Downstream, DlgCell.Upstream, sameStr_iff]
    split_ifs <;> simp <;> grind

theorem matchDialog_dir (h : matchDialog c callid ftag ttag dir = some dir') :
    dir' ≠ .none ∧ c.Matches callid ftag ttag dir' := by
  cases dir with
  | downstream | upstream =>
    obtain ⟨hc, hdir⟩ := Option.ite_none_right_eq_some.mp h
    cases hdir
    exact ⟨by simp, hc⟩
  | none =>
    refine ⟨?_, ?_⟩
    · rintro rfl
      simp only [matchDialog] at h
      split_ifs at h <;> cases h
    · simp only [matchDialog] at h
      split_ifs at h <;> cases h <;>
        simp only [DlgCell.Matches, DlgCell.Downstream, DlgCell.Upstream, sameStr_iff] <;> grind

/-! ## One entry -/

/-- The first dialog of a list that matches. -/
def Shm.FirstMatch (m : Shm) (callid ftag ttag : Str) (dir : DlgDir) (l : List Nat) (d : Nat) : Prop :=
  ∃ pre post, l = pre ++ d :: post ∧ (∀ x ∈ pre, ¬(m.cells x).Matches callid ftag ttag dir) ∧
    (m.cells d).Matches callid ftag ttag dir

theorem Shm.FirstMatch.mem (h : m.FirstMatch callid ftag ttag dir l d) : d ∈ l := by
  obtain ⟨pre, post, rfl, -, -⟩ := h
  simp

theorem Shm.FirstMatch.unique {d' : Nat} (h : m.FirstMatch callid ftag ttag dir l d)
    (h' : m.FirstMatch callid ftag ttag dir l d') : d = d' := by
  induction l with
  | nil => simpa using h.mem
  | cons x l ih =>
    obtain ⟨pre, post, he, hpre, hd⟩ := h
    obtain ⟨pre', post', he', hpre', hd'⟩ := h'
    cases pre with
    | nil =>
      obtain ⟨rfl, rfl⟩ := cons.inj he
      cases pre' with
      | nil => exact (cons.inj he').1
      | cons y pre' =>
        obtain ⟨rfl, -⟩ := cons.inj he'
        exact absurd hd (hpre' _ (by simp))
    | cons y pre =>
      obtain ⟨rfl, rfl⟩ := cons.inj he
      cases pre' with
      | nil =>
        obtain ⟨rfl, -⟩ := cons.inj he'
        exact absurd hd' (hpre _ (by simp))
      | cons z pre' =>
        obtain ⟨-, he'⟩ := cons.inj he'
        exact ih ⟨pre, post, rfl, fun w hw => hpre w (by simp [hw]), hd⟩
          ⟨pre', post', he', fun w hw => hpre' w (by simp [hw]), hd'⟩

theorem Shm.exists_firstMatch (hd : d ∈ l) (h : (m.cells d).Matches callid ftag ttag dir) :
    ∃ x, m.FirstMatch callid ftag ttag dir l x := by
  induction l with
  | nil => cases hd
  | cons x l ih =>
    by_cases hx : (m.cells x).Matches callid ftag ttag dir
    · exact ⟨x, [], l, rfl, by simp, hx⟩
    · rcases mem_cons.mp hd with rfl | hd
      · exact absurd h hx
      · obtain ⟨y, pre, post, rfl, hpre, hy⟩ := ih hd
        exact ⟨y, x :: pre, post, rfl, forall_mem_cons.mpr ⟨hx, hpre⟩, hy⟩

/-- **The loop of `internal_get_dlg`** finds the first match. -/
theorem findDlg_cases (m : Shm) (callid ftag ttag : Str) (dir : DlgDir) (l : List Nat) :
    (∃ d dir', m.FirstMatch callid ftag ttag dir l d ∧ matchDialog (m.cells d) callid ftag ttag dir = some dir' ∧
      m.findDlg callid ftag ttag dir l = some (d, dir')) ∨
    ((∀ d ∈ l, ¬(m.cells d).Matches callid ftag ttag dir) ∧ m.findDlg callid ftag ttag dir l = none) := by
  induction l with
  | nil => exact .inr ⟨by simp, rfl⟩
  | cons x l ih =>
    rw [Shm.findDlg]
    cases hx : matchDialog (m.cells x) callid ftag ttag dir with
    | some dir' =>
      have hmatch : (m.cells x).Matches callid ftag ttag dir := by
        rw [← matchDialog_isSome, hx]
        rfl
      exact .inl ⟨x, dir', ⟨[], l, rfl, by simp, hmatch⟩, hx, rfl⟩
    | none =>
      have hno : ¬(m.cells x).Matches callid ftag ttag dir := by
        rw [← matchDialog_isSome, hx]
        simp
      rcases ih with ⟨d, dir', ⟨pre, post, rfl, hpre, hd⟩, hdir, he⟩ | ⟨hnone, he⟩
      · exact .inl ⟨d, dir', ⟨x :: pre, post, rfl, forall_mem_cons.mpr ⟨hno, hpre⟩, hd⟩, hdir, he⟩
      · exact .inr ⟨forall_mem_cons.mpr ⟨hno, hnone⟩, he⟩

/-- How a search ends: at a live match, at a deleted one, or without one. -/
inductive Search (m : Shm) (callid ftag ttag : Str) (dir : DlgDir) (l : List Nat) :
    Shm × Option Nat × DlgDir → Prop where
  | live {d : Nat} {dir' : DlgDir} (hfirst : m.FirstMatch callid ftag ttag dir l d)
      (hdir : matchDialog (m.cells d) callid ftag ttag dir = some dir') (hlive : (m.cells d).state ≠ .deleted) :
      Search m callid ftag ttag dir l (m.refDlgUnsafe d 1, some d, dir')
  | deleted {d : Nat} {dir' : DlgDir} (hfirst : m.FirstMatch callid ftag ttag dir l d)
      (hdir : matchDialog (m.cells d) callid ftag ttag dir = some dir') (hdel : (m.cells d).state = .deleted) :
      Search m callid ftag ttag dir l (m, none, dir')
  | nothing (hnone : ∀ d ∈ l, ¬(m.cells d).Matches callid ftag ttag dir) :
      Search m callid ftag ttag dir l (m, none, dir)

theorem internalGetDlg_search (m : Shm) (hEntry : Nat) (callid ftag ttag : Str) (dir : DlgDir) :
    Search m callid ftag ttag dir (m.entries hEntry) (m.internalGetDlg hEntry callid ftag ttag dir) := by
  unfold Shm.internalGetDlg
  rcases findDlg_cases m callid ftag ttag dir (m.entries hEntry) with ⟨d, dir', hfirst, hdir, he⟩ | ⟨hnone, he⟩
  · rw [he]
    by_cases hdel : (m.cells d).state = .deleted
    · simp only [if_pos hdel]
      exact .deleted hfirst hdir hdel
    · simp only [if_neg hdel]
      exact .live hfirst hdir hdel
  · rw [he]
    exact .nothing hnone

/-! ## Both entries -/

/-- A linked dialog that is not deleted and matches. -/
def Shm.LiveMatch (m : Shm) (callid ftag ttag : Str) (dir : DlgDir) (d : Nat) : Prop :=
  (∃ e, d ∈ m.entries e) ∧ (m.cells d).state ≠ .deleted ∧ (m.cells d).Matches callid ftag ttag dir

/-- `get_dlg` finds a dialog if there is one: it returns such a dialog with one more reference and a direction in which
it matches. -/
def Shm.Complete (m : Shm) (callid ftag ttag : Str) : Prop :=
  ((∃ d, m.LiveMatch callid ftag ttag .none d) → ∃ d dir, dir ≠ .none ∧ m.LiveMatch callid ftag ttag dir d ∧
    m.getDlg callid ftag ttag .none = (m.refDlgUnsafe d 1, some d, dir)) ∧
  ((m.getDlg callid ftag ttag .none).2.1 = none → ∀ d, ¬m.LiveMatch callid ftag ttag .none d)

/-- The searches end at a dialog that is not deleted: the first match of the entry of the From tag is not deleted; or it
is deleted, and the first match in its direction of the entry of the To tag is not; or there is no match in the one
entry, and the first match of the other is not deleted. -/
def Shm.Finds (m : Shm) (callid ftag ttag : Str) : Prop :=
  (∃ d, m.FirstMatch callid ftag ttag .none (m.entries (m.entryOf callid ftag)) d ∧ (m.cells d).state ≠ .deleted) ∨
  (∃ x dir, m.FirstMatch callid ftag ttag .none (m.entries (m.entryOf callid ftag)) x ∧ (m.cells x).state = .deleted ∧
    matchDialog (m.cells x) callid ftag ttag .none = some dir ∧
    ∃ d, m.FirstMatch callid ftag ttag dir (m.entries (m.entryOf callid ttag)) d ∧ (m.cells d).state ≠ .deleted) ∨
  ((∀ x ∈ m.entries (m.entryOf callid ftag), ¬(m.cells x).Matches callid ftag ttag .none) ∧
    ∃ d, m.FirstMatch callid ftag ttag .none (m.entries (m.entryOf callid ttag)) d ∧ (m.cells d).state ≠ .deleted)

theorem liveMatch_of_first {e : Nat} (hfirst : m.FirstMatch callid ftag ttag dir (m.entries e) d)
    (hdir : matchDialog (m.cells d) callid ftag ttag dir = some dir') (hlive : (m.cells d).state ≠ .deleted) :
    dir' ≠ .none ∧ m.LiveMatch callid ftag ttag dir' d := by
  obtain ⟨hne, hmatch⟩ := matchDialog_dir hdir
  exact ⟨hne, ⟨e, hfirst.mem⟩, hlive, hmatch⟩

theorem internalGetDlg_live_iff (m : Shm) (e : Nat) (callid ftag ttag : Str) (dir : DlgDir) :
    ((∃ d, m.FirstMatch callid ftag ttag dir (m.entries e) d ∧ (m.cells d).state ≠ .deleted) ∧
      ∃ d dir', dir' ≠ .none ∧ m.LiveMatch callid ftag ttag dir' d ∧
        m.internalGetDlg e callid ftag ttag dir = (m.refDlgUnsafe d 1, some d, dir')) ∨
    ((¬∃ d, m.FirstMatch callid ftag ttag dir (m.entries e) d ∧ (m.cells d).state ≠ .deleted) ∧
      (m.internalGetDlg e callid ftag ttag dir).2.1 = none) := by
  have h := internalGetDlg_search m e callid ftag ttag dir
  generalize m.internalGetDlg e callid ftag ttag dir = res at h
  cases h with
  | live hfirst hdir hlive =>
    obtain ⟨hne, hmatch⟩ := liveMatch_of_first hfirst hdir hlive
    exact .inl ⟨⟨_, hfirst, hlive⟩, _, _, hne, hmatch, rfl⟩
  | deleted hfirst hdir hdel =>
    refine .inr ⟨?_, rfl⟩
    rintro ⟨d, hd, hlive⟩
    exact hlive (hfirst.unique hd ▸ hdel)
  | nothing hnone =>
    refine .inr ⟨?_, rfl⟩
    rintro ⟨d, hd, -⟩
    obtain ⟨pre, post, -, -, hmatch⟩ := id hd
    exact hnone d hd.mem hmatch

theorem getDlg_cases (m : Shm) (callid ftag ttag : Str) :
    (m.Finds callid ftag ttag ∧ ∃ d dir, dir ≠ .none ∧ m.LiveMatch callid ftag ttag dir d ∧
      m.getDlg callid ftag ttag .none = (m.refDlgUnsafe d 1, some d, dir)) ∨
    (¬m.Finds callid ftag ttag ∧ (m.getDlg callid ftag ttag .none).2.1 = none) := by
  have h := internalGetDlg_search m (m.entryOf callid ftag) callid ftag ttag .none
  unfold Shm.getDlg
  generalize m.internalGetDlg (m.entryOf callid ftag) callid ftag ttag .none = res at h
  cases h with
  | live hfirst hdir hlive =>
    obtain ⟨hne, hmatch⟩ := liveMatch_of_first hfirst hdir hlive
    exact .inl ⟨.inl ⟨_, hfirst, hlive⟩, _, _, hne, hmatch, rfl⟩
  | @deleted x dir' hfirst hdir hdel =>
    -- the second search keeps to the direction of the deleted dialog
    rcases internalGetDlg_live_iff m (m.entryOf callid ttag) callid ftag ttag dir' with ⟨hd, hres⟩ | ⟨hno, hres⟩
    · exact .inl ⟨.inr (.inl ⟨x, dir', hfirst, hdel, hdir, hd⟩), hres⟩
    · refine .inr ⟨?_, hres⟩
      rintro (⟨d, hd, hlive⟩ | ⟨y, dir, hy, -, hydir, hd⟩ | ⟨hnone, -⟩)
      · exact hlive (hfirst.unique hd ▸ hdel)
      · obtain rfl := hfirst.unique hy
        rw [hdir] at hydir
        cases hydir
        exact hno hd
      · obtain ⟨pre, post, -, -, hmatch⟩ := id hfirst
        exact hnone x hfirst.mem hmatch
  | nothing hnone =>
    rcases internalGetDlg_live_iff m (m.entryOf callid ttag) callid ftag ttag .none with ⟨hd, hres⟩ | ⟨hno, hres⟩
    · exact .inl ⟨.inr (.inr ⟨hnone, hd⟩), hres⟩
    · refine .inr ⟨?_, hres⟩
      rintro (⟨d, hd, -⟩ | ⟨d, dir, hd, -⟩ | ⟨-, hd⟩)
      · obtain ⟨pre, post, -, -, hmatch⟩ := id hd
        exact hnone d hd.mem hmatch
      · obtain ⟨pre, post, -, -, hmatch⟩ := id hd
        exact hnone d hd.mem hmatch
      · exact hno hd

theorem complete_iff (m : Shm) (callid ftag ttag : Str) :
    m.Complete callid ftag ttag ↔ (∀ d, ¬m.LiveMatch callid ftag ttag .none d) ∨ m.Finds callid ftag ttag := by
  rcases getDlg_cases m callid ftag ttag with ⟨hfinds, d, dir, hne, hmatch, hres⟩ | ⟨hno, hres⟩
  · refine ⟨fun _ => .inr hfinds, fun _ => ⟨fun _ => ⟨d, dir, hne, hmatch, hres⟩, fun hnull => ?_⟩⟩
    rw [hres] at hnull
    cases hnull
  · constructor
    · intro hcomplete
      exact .inl (hcomplete.2 hres)
    · rintro (hnone | hfinds)
      · exact ⟨fun ⟨d, hd⟩ => absurd hd (hnone d), fun _ => hnone⟩
      · exact absurd hfinds hno

/-! ## Tables without deleted matches -/

/-- Every dialog is on the list of the entry of its Call-ID and caller tag, where `link_dlg` puts it. -/
def Shm.Placed (m : Shm) : Prop :=
  ∀ e, ∀ d ∈ m.entries e, e = m.entryOf (m.cells d).callid (m.cells d).callerTag

/-- `strncmp` compares strings without a null character whole. -/
theorem eq_of_strncmp {a b : Str} (hb : '\x00' ∉ b) (hlen : a.length = b.length) (h : strncmp b.length a b = true) :
    a = b := by
  induction b generalizing a with
  | nil => simpa using hlen
  | cons y b ih =>
    cases a with
    | nil => cases hlen
    | cons x a =>
      rw [length_cons, strncmp] at h
      split at h
      · cases h
      · rename_i hxy
        obtain rfl : x = y := not_not.mp hxy
        rw [if_neg fun hx => hb (by simp [hx])] at h
        rw [ih (fun hc => hb (by simp [hc])) (by simpa using hlen) h]

theorem eq_of_sameStr {a b : Str} (hb : '\x00' ∉ b) (h : sameStr a b = true) : a = b := by
  obtain ⟨hlen, hcmp⟩ := (sameStr_iff a b).mp h
  exact eq_of_strncmp hb hlen hcmp

theorem finds_of_no_deleted (hplaced : m.Placed) (hcallid : '\x00' ∉ callid) (hftag : '\x00' ∉ ftag)
    (httag : '\x00' ∉ ttag)
    (hdel : ∀ e, ∀ x ∈ m.entries e, (m.cells x).Matches callid ftag ttag .none → (m.cells x).state ≠ .deleted)
    (h : m.LiveMatch callid ftag ttag .none d) : m.Finds callid ftag ttag := by
  obtain ⟨⟨e, he⟩, hlive, hmatch⟩ := h
  have hplace := hplaced e d he
  by_cases hfirst : ∃ x ∈ m.entries (m.entryOf callid ftag), (m.cells x).Matches callid ftag ttag .none
  · obtain ⟨x, hx, hxm⟩ := hfirst
    obtain ⟨y, hy⟩ := Shm.exists_firstMatch hx hxm
    obtain ⟨pre, post, -, -, hym⟩ := id hy
    exact .inl ⟨y, hy, hdel _ y hy.mem hym⟩
  · have hnone : ∀ x ∈ m.entries (m.entryOf callid ftag), ¬(m.cells x).Matches callid ftag ttag .none :=
      fun x hx hxm => hfirst ⟨x, hx, hxm⟩
    rcases hmatch with hdown | hup
    · rw [eq_of_sameStr hcallid hdown.1, eq_of_sameStr hftag hdown.2.1] at hplace
      exact absurd (.inl hdown) (hnone d (hplace ▸ he))
    · rw [eq_of_sameStr hcallid hup.1, eq_of_sameStr httag hup.2.2] at hplace
      have hany : (m.cells d).Matches callid ftag ttag .none := .inr hup
      obtain ⟨y, hy⟩ := Shm.exists_firstMatch (hplace ▸ he) hany
      obtain ⟨pre, post, -, -, hym⟩ := id hy
      exact .inr (.inr ⟨hnone, y, hy, hdel _ y hy.mem hym⟩)

/-- **Dialog matching**: for every table, `get_dlg` finds a dialog if there is one exactly if there is none or its
searches end at a dialog that is not deleted. They do when no deleted dialog matches, the dialogs are where `link_dlg`
put them, and there are no null characters in what is looked for. -/
theorem getDlg_complete_iff (m : Shm) (callid ftag ttag : Str) :
    (m.Complete callid ftag ttag ↔ (∀ d, ¬m.LiveMatch callid ftag ttag .none d) ∨ m.Finds callid ftag ttag) ∧
    (m.Placed → '\x00' ∉ callid → '\x00' ∉ ftag → '\x00' ∉ ttag →
      (∀ e, ∀ x ∈ m.entries e, (m.cells x).Matches callid ftag ttag .none → (m.cells x).state ≠ .deleted) →
      m.Complete callid ftag ttag) := by
  refine ⟨complete_iff m callid ftag ttag, fun hplaced h1 h2 h3 hdel => (complete_iff m callid ftag ttag).mpr ?_⟩
  by_cases hex : ∃ d, m.LiveMatch callid ftag ttag .none d
  · obtain ⟨d, hd⟩ := hex
    exact .inr (finds_of_no_deleted hplaced h1 h2 h3 hdel hd)
  · exact .inl fun d hd => hex ⟨d, hd⟩

/-- A table with one dialog, answered with the tag `t`. -/
def answered : Shm :=
  let m := (Shm.init 2 fun _ => 0).linkDlg ['c'] ['f'] 1
  m.setCell 0 { m.cells 0 with calleeTag := ['t'], state := .confirmed }

/-- The dialog is found by a request of the callee. -/
theorem getDlg_complete_answered : answered.Complete ['c'] ['t'] ['f'] := by
  have hentries : ∀ e, ∀ d ∈ answered.entries e, e = 1 ∧ d = 0 := by
    have hone : ((coreHash ['c'] (some ['f']) 2).toNat : Nat) = 1 := by decide
    intro e d hd
    have hd' : d ∈ Function.update (fun _ => []) ((coreHash ['c'] (some ['f']) 2).toNat : Nat) [0] e := hd
    rw [hone] at hd'
    by_cases he : e = 1
    · subst he
      exact ⟨rfl, mem_singleton.mp hd'⟩
    · rw [Function.update_of_ne he] at hd'
      cases hd'
  refine (getDlg_complete_iff answered ['c'] ['t'] ['f']).2 ?_ (by decide) (by decide) (by decide) ?_
  · intro e d hd
    obtain ⟨rfl, rfl⟩ := hentries e d hd
    decide
  · intro e d hd _
    obtain ⟨rfl, rfl⟩ := hentries e d hd
    decide

/-- A dialog that has had its BYE, and a new one with the same Call-ID and tags. -/
def redialled : Option Shm := do
  let m := (Shm.init 2 fun _ => 0).linkDlg ['c'] ['f'] 1
  let m := m.setCell 0 { m.cells 0 with calleeTag := ['t'] }
  let (m, _) ← m.nextStateDlg 0 .rpl2xx
  let (m, _) ← m.nextStateDlg 0 .reqbye
  let m := m.linkDlg ['c'] ['f'] 1
  let m := m.setCell 1 { m.cells 1 with calleeTag := ['t'] }
  let (m, _) ← m.nextStateDlg 1 .rpl2xx
  some m

/-- The deleted dialog, which is still linked, hides the new one. -/
theorem redialled_hidden : ∃ m, redialled = some m ∧ m.LiveMatch ['c'] ['f'] ['t'] .none 1 ∧
    (m.getDlg ['c'] ['f'] ['t'] .none).2.1 = none ∧ ¬m.Complete ['c'] ['f'] ['t'] := by
  have hrun : redialled.map (fun m => (m.entries 1, (m.cells 1).state, (m.getDlg ['c'] ['f'] ['t'] .none).2.1,
      matchDialog (m.cells 1) ['c'] ['f'] ['t'] .none)) = some ([0, 1], .confirmedNa, none, some .downstream) := by
    decide +kernel
  obtain ⟨m, hm, hval⟩ := Option.map_eq_some_iff.mp hrun
  simp only [Prod.mk.injEq] at hval
  obtain ⟨hentries, hstate, hnull, hmatch⟩ := hval
  have hlive : m.LiveMatch ['c'] ['f'] ['t'] .none 1 := by
    refine ⟨⟨1, by simp [hentries]⟩, by simp [hstate], ?_⟩
    rw [← matchDialog_isSome, hmatch]
    rfl
  exact ⟨m, hm, hlive, hnull, fun hcomplete => hcomplete.2 hnull 1 hlive⟩

end OpenSer.Dialog
