import OpenSer.Dialog.DlgEffects

/-!
# The dialogs of the table

`Shm.Ok`: the lists of the table have the dialogs that are not freed, each on the list of its entry, and each of them
has references. `Shm.Change` is what the steps do to a table.

* `Shm.Change.ok`: the invariant holds after every change, as long as a dialog that is freed is over.
* `Shm.Change.live`: only a dialog without references is freed.
-/

namespace OpenSer.Dialog

open Function Nat

/-- The dialog is allocated and has not been freed. -/
def Shm.Live (m : Shm) (d : Nat) : Prop := d < m.fresh ∧ m.freed d = false

/-- The dialogs of the table. -/
structure Shm.Ok (m : Shm) : Prop where
  mem : ∀ d h, d ∈ m.entries h ↔ m.Live d ∧ (m.cells d).hEntry = h
  nodup : ∀ h, (m.entries h).Nodup
  pos : ∀ d, m.Live d → 0 < (m.cells d).ref
  unborn : ∀ d, m.fresh ≤ d → (m.cells d).state = .unconfirmed
  gone : ∀ d, m.freed d → d < m.fresh ∧ ((m.cells d).state = .deleted ∨ (m.cells d).state = .unconfirmed)

variable {m m' : Shm} {d : Nat}

theorem Shm.Same.live (h : m.Same m') (d : Nat) : m'.Live d ↔ m.Live d := by rw [Shm.Live, Shm.Live, h.fresh, h.freed]

theorem Shm.Ok.same (h : m.Ok) (hs : m.Same m') : m'.Ok where
  mem d e := by rw [hs.entries, hs.live, hs.hEntry, h.mem]
  nodup e := by rw [hs.entries]; exact h.nodup e
  pos d hd := by rw [hs.ref]; exact h.pos d ((hs.live d).mp hd)
  unborn d hd := by rw [hs.state]; exact h.unborn d (hs.fresh ▸ hd)
  gone d hd := by rw [hs.state, hs.fresh]; exact h.gone d (hs.freed ▸ hd)

theorem Shm.Ok.setCell {c : DlgCell} (h : m.Ok) (hE : c.hEntry = (m.cells d).hEntry) (hpos : m.Live d → 0 < c.ref)
    (hdead : ¬m.Live d → c.state = (m.cells d).state) : (m.setCell d c).Ok := by
  have hcell : ∀ d', (m.setCell d c).cells d' = if d' = d then c else m.cells d' := fun d' => update_apply ..
  constructor
  case mem =>
    intro d' e
    have hE' : ((m.setCell d c).cells d').hEntry = (m.cells d').hEntry := by
      rw [hcell]
      split
      · rename_i he
        rw [hE, he]
      · rfl
    rw [hE']
    exact h.mem d' e
  case nodup => exact h.nodup
  case pos =>
    intro d' hlive
    rw [hcell]
    split
    · rename_i he
      exact hpos (he ▸ hlive)
    · exact h.pos d' hlive
  case unborn =>
    intro d' hd'
    rw [hcell]
    split
    · rename_i he
      rw [hdead fun hc => absurd hc.1 (not_lt.mpr (he ▸ hd'))]
      exact h.unborn d (he ▸ hd')
    · exact h.unborn d' hd'
  case gone =>
    intro d' hd'
    rw [hcell]
    split
    · rename_i he
      subst he
      rw [hdead fun hc => by simp [hc.2, Shm.setCell] at hd']
      exact h.gone d' hd'
    · exact h.gone d' hd'

theorem Shm.Ok.fresh_not_freed (h : m.Ok) : m.freed m.fresh = false := by
  by_contra hc
  exact lt_irrefl _ (h.gone _ (by simpa using hc)).1

/-- A new dialog keeps the table. -/
theorem Shm.Ok.linkDlg (h : m.Ok) (callid fromTag : Str) : (m.linkDlg callid fromTag 1).Ok := by
  have hnot : ∀ e, m.fresh ∉ m.entries e := fun e hc => lt_irrefl _ ((h.mem _ _).mp hc).1.1
  have hlive : ∀ d, (m.linkDlg callid fromTag 1).Live d ↔ m.Live d ∨ d = m.fresh := by
    intro d
    constructor
    · rintro ⟨hlt, hd⟩
      rcases Nat.lt_succ_iff_lt_or_eq.mp hlt with hlt | rfl
      · exact .inl ⟨hlt, hd⟩
      · exact .inr rfl
    · rintro (⟨hlt, hd⟩ | rfl)
      · exact ⟨lt_succ_of_lt hlt, hd⟩
      · exact ⟨lt_succ_self _, h.fresh_not_freed⟩
  have hold : ∀ d, d ≠ m.fresh → (m.linkDlg callid fromTag 1).cells d = m.cells d := fun d hd =>
    update_of_ne hd ..
  generalize he : (coreHash callid (if fromTag.length ≠ 0 then some fromTag else none) m.size).toNat = e₀
  have hentries : (m.linkDlg callid fromTag 1).entries = update m.entries e₀ (m.entries e₀ ++ [m.fresh]) := by
    rw [Shm.linkDlg, he]
  have hnew : ((m.linkDlg callid fromTag 1).cells m.fresh).hEntry = e₀ := by
    rw [Shm.linkDlg, he]
    dsimp only
    rw [update_self]
  constructor
  case mem =>
    intro d e
    have hmem : d ∈ (m.linkDlg callid fromTag 1).entries e ↔ d ∈ m.entries e ∨ d = m.fresh ∧ e = e₀ := by
      rw [hentries]
      by_cases hee : e = e₀
      · subst hee
        simp
      · simp [hee]
    rw [hmem, hlive, h.mem]
    by_cases hd : d = m.fresh
    · subst hd
      rw [hnew]
      constructor
      · rintro (hc | ⟨-, rfl⟩)
        · exact absurd hc.1.1 (lt_irrefl _)
        · exact ⟨.inr rfl, rfl⟩
      · rintro ⟨-, rfl⟩
        exact .inr ⟨rfl, rfl⟩
    · rw [hold d hd]
      simp [hd]
  case nodup =>
    intro e
    rw [hentries]
    by_cases hee : e = e₀
    · subst hee
      rw [update_self]
      exact List.nodup_append.mpr ⟨h.nodup e, List.nodup_singleton _, fun x hx y hy hxy => hnot e (by simp_all)⟩
    · rw [update_of_ne hee]
      exact h.nodup e
  case pos =>
    intro d hd
    by_cases hdf : d = m.fresh
    · subst hdf
      simp [Shm.linkDlg]
    · rw [hold d hdf]
      exact h.pos d (((hlive d).mp hd).resolve_right hdf)
  case unborn =>
    intro d hd
    have hlt : m.fresh < d := hd
    rw [hold d (ne_of_gt hlt)]
    exact h.unborn d hlt.le
  case gone =>
    intro d hd
    have hlt := (h.gone d hd).1
    rw [hold d (Nat.ne_of_lt hlt)]
    exact ⟨lt_succ_of_lt hlt, (h.gone d hd).2⟩

theorem Shm.Ok.unref_dead {cnt : Int} (h : m.Ok) (hu : Unref m d cnt m') (hlive : m.Live d)
    (hle : (m.cells d).ref - cnt ≤ 0)
    (hgone : (m.cells d).state = .deleted ∨ (m.cells d).state = .unconfirmed) : m'.Ok := by
  obtain ⟨hent, hfreed, -, -⟩ := hu.dead hle
  have hold : ∀ d', d' ≠ d → m'.cells d' = m.cells d' := fun d' hd' => by rw [hu.cells, update_of_ne hd']
  have hself : m'.cells d = { m.cells d with ref := (m.cells d).ref - cnt } := by rw [hu.cells, update_self]
  have hlive' : ∀ d', m'.Live d' ↔ m.Live d' ∧ d' ≠ d := by
    intro d'
    rw [Shm.Live, Shm.Live, hu.fresh, hfreed]
    by_cases hd' : d' = d <;> simp [hd']
  constructor
  case mem =>
    intro d' e
    have hE : (m'.cells d').hEntry = (m.cells d').hEntry := by
      by_cases hd' : d' = d
      · rw [hd', hself]
      · rw [hold d' hd']
    have hmem : d' ∈ m'.entries e ↔ d' ∈ m.entries e ∧ d' ≠ d := by
      rw [hent]
      by_cases he : e = (m.cells d).hEntry
      · subst he
        rw [update_self, (h.nodup _).mem_erase_iff, and_comm]
      · rw [update_of_ne he, iff_self_and]
        rintro hc rfl
        exact he ((h.mem _ _).mp hc).2.symm
    rw [hmem, hE, hlive', h.mem]
    exact and_right_comm
  case nodup =>
    intro e
    rw [hent]
    by_cases he : e = (m.cells d).hEntry
    · subst he
      rw [update_self]
      exact (h.nodup _).erase d
    · rw [update_of_ne he]
      exact h.nodup e
  case pos =>
    intro d' hd'
    obtain ⟨hd', hne⟩ := (hlive' d').mp hd'
    rw [hold d' hne]
    exact h.pos d' hd'
  case unborn =>
    intro d' hd'
    rw [hu.fresh] at hd'
    rw [hold d' fun hc => absurd hlive.1 (not_lt.mpr (hc ▸ hd'))]
    exact h.unborn d' hd'
  case gone =>
    intro d' hd'
    rw [hu.fresh]
    by_cases hne : d' = d
    · rw [hne, hself]
      exact ⟨hlive.1, hgone⟩
    · rw [hfreed, update_of_ne hne] at hd'
      rw [hold d' hne]
      exact h.gone d' hd'

/-- Releasing references keeps the table. -/
theorem Shm.Ok.unref {cnt : Int} (h : m.Ok) (hu : Unref m d cnt m') (hlive : m.Live d)
    (hgone : (m.cells d).ref - cnt ≤ 0 → (m.cells d).state = .deleted ∨ (m.cells d).state = .unconfirmed) : m'.Ok := by
  rcases lt_or_ge 0 ((m.cells d).ref - cnt) with hlt | hle
  · obtain ⟨hent, hfreed, -, hdes⟩ := hu.alive hlt
    have hset : (m.setCell d { m.cells d with ref := (m.cells d).ref - cnt }).Ok :=
      h.setCell rfl (fun _ => hlt) fun hc => absurd hlive hc
    exact hset.same ⟨hent, hu.fresh, hfreed, hdes, fun _ => by rw [hu.cells]; rfl, fun _ => by rw [hu.cells]; rfl,
      fun _ => by rw [hu.cells]; rfl⟩
  · exact h.unref_dead hu hlive hle (hgone hle)

/-- What a step may do to the dialogs of the table. -/
inductive Shm.Change (m m' : Shm) : Prop where
  | link (callid fromTag : Str) (h : m' = m.linkDlg callid fromTag 1)
  | cell {d : Nat} {c : DlgCell} (hE : c.hEntry = (m.cells d).hEntry) (hpos : m.Live d → 0 < c.ref)
      (hdead : ¬m.Live d → c.state = (m.cells d).state) (h : (m.setCell d c).Same m')
  | unref {d : Nat} {c : DlgCell} {cnt : Int} {m₀ m₁ : Shm} (hlive : m.Live d) (hE : c.hEntry = (m.cells d).hEntry)
      (hpos : 0 < c.ref) (h₀ : (m.setCell d c).Same m₀) (hu : Unref m₀ d cnt m₁) (h : m₁.Same m')

theorem Shm.setCell_self (m : Shm) (d : Nat) : m.setCell d (m.cells d) = m := by
  rw [Shm.setCell, update_eq_self]

theorem Shm.Change.same (hok : m.Ok) (h : m.Same m') : m.Change m' :=
  .cell (d := 0) rfl (hok.pos 0) (fun _ => rfl) (by rw [Shm.setCell_self]; exact h)

theorem Shm.Change.ok (h : m.Change m') (hok : m.Ok)
    (hgone : ∀ d, m.Live d → (m'.cells d).ref ≤ 0 → (m'.cells d).state = .deleted ∨ (m'.cells d).state = .unconfirmed) :
    m'.Ok := by
  cases h with
  | link callid fromTag h =>
    subst h
    exact hok.linkDlg callid fromTag
  | cell hE hpos hdead h => exact (hok.setCell hE hpos hdead).same h
  | unref hlive hE hpos h₀ hu h =>
    rename_i d c cnt m₀ m₁
    have hset : m₀.Ok := (hok.setCell hE (fun _ => hpos) fun hc => absurd hlive hc).same h₀
    refine (hset.unref hu ((h₀.live d).mpr hlive) fun hle => ?_).same h
    have hd := hgone d hlive
    rw [h.ref, h.state, hu.cells, update_self] at hd
    exact hd hle

theorem Shm.Change.live (h : m.Change m') (hlive : m.Live d) : m'.Live d ∨ (m'.cells d).ref ≤ 0 := by
  cases h with
  | link _ _ h =>
    subst h
    exact .inl ⟨lt_succ_of_lt hlive.1, hlive.2⟩
  | cell _ _ _ h => exact .inl ((h.live d).mpr hlive)
  | unref hlive' hE hpos h₀ hu h =>
    rename_i d' c cnt m₀ m₁
    rw [h.live, h.ref]
    have hlive₀ : m₀.Live d := (h₀.live d).mpr hlive
    rcases lt_or_ge 0 ((m₀.cells d').ref - cnt) with hlt | hle
    · left
      rw [Shm.Live, hu.fresh, (hu.alive hlt).2.1]
      exact hlive₀
    · by_cases hd : d = d'
      · subst hd
        right
        rw [hu.cells, update_self]
        exact hle
      · left
        rw [Shm.Live, hu.fresh, (hu.dead hle).2.1, update_of_ne hd]
        exact hlive₀

theorem Shm.Change.fresh_le (h : m.Change m') : m.fresh ≤ m'.fresh := by
  cases h with
  | link _ _ h =>
    subst h
    exact le_succ _
  | cell _ _ _ h => exact h.fresh.ge
  | unref _ _ _ h₀ hu h => exact (h.fresh.trans (hu.fresh.trans h₀.fresh)).ge

theorem Shm.Change.live_back (h : m.Change m') (hlive : m'.Live d) : m.Live d ∨ d = m.fresh := by
  cases h with
  | link _ _ h =>
    subst h
    rcases Nat.lt_succ_iff_lt_or_eq.mp hlive.1 with hlt | he
    · exact .inl ⟨hlt, hlive.2⟩
    · exact .inr he
  | cell _ _ _ h => exact .inl ((h.live d).mp hlive)
  | unref hlive' hE hpos h₀ hu h =>
    rename_i d' c cnt m₀ m₁
    left
    refine (h₀.live d).mp ?_
    rw [h.live, Shm.Live, hu.fresh] at hlive
    rcases lt_or_ge 0 ((m₀.cells d').ref - cnt) with hlt | hle
    · rw [(hu.alive hlt).2.1] at hlive
      exact hlive
    · by_cases hd : d = d'
      · subst hd
        exact (h₀.live d).mpr hlive'
      · rw [(hu.dead hle).2.1, update_of_ne hd] at hlive
        exact hlive

end OpenSer.Dialog
