import Mathlib.Data.List.Basic

/-!
# Trees of tests on the symbols ahead

A scanner that looks at a few symbols at a time: a test that is passed moves over the symbols it looked at, a test that
is failed does not move. What a test asks of each symbol is a class.

* `run_path`: a run ends at a leaf whose word of classes is spelled by the symbols that were passed.
* `run_find`: in an ordered tree, where no test hides a leaf that suits, a run ends at the first leaf that does.
-/

namespace Lib.Switch

open Option List Bool

/-- A tree of tests, with outcomes at its leaves. -/
inductive Tree (τ ω : Type)
  | out (o : ω)
  | test (t : τ) (yes no : Tree τ ω)
  deriving Repr, DecidableEq

variable {β σ τ ω : Type}

/-- The outcome of a tree from a position on, and the position then. -/
def run (ok : τ → Nat → Bool) (len : τ → Nat) : Tree τ ω → Nat → ω × Nat
  | .out o, p => (o, p)
  | .test t yes no, p => if ok t p then run ok len yes (p + len t) else run ok len no p

def spells (reads : β → σ → Bool) (m : Nat → β) : List σ → Nat → Bool
  | [], _ => true
  | c :: w, p => reads (m p) c && spells reads m w (p + 1)

/-- The leaves with an outcome to be kept, each with the word of the tests that are passed on the way to it. -/
def paths (word : τ → List σ) (keep : ω → Bool) : Tree τ ω → List (List σ × ω)
  | .out o => if keep o then [([], o)] else []
  | .test t yes no => (paths word keep yes).map (fun e => (word t ++ e.1, e.2)) ++ paths word keep no

/-- Two words that nothing spells both of. -/
def clash (apart : σ → σ → Bool) : List σ → List σ → Bool
  | c :: w, d :: v => apart c d || clash apart w v
  | _, _ => false

/-- A leaf that is spelled, with a symbol behind its word that suits its outcome. -/
def suits (reads : β → σ → Bool) (fits : ω → β → Bool) (m : Nat → β) (p : Nat) (e : List σ × ω) : Bool :=
  spells reads m e.1 p && fits e.2 (m (p + e.1.length))

/-- A leaf that does not suit where a test is passed: its word clashes with the test, or the test asks for a symbol
behind it that does not fit. -/
def hidden (apart : σ → σ → Bool) (unfit : ω → σ → Bool) (w : List σ) (e : List σ × ω) : Bool :=
  clash apart w e.1 || (w[e.1.length]?).any (unfit e.2)

/-- A leaf with an outcome to be kept that fits everywhere. -/
def isSure (keep sure : ω → Bool) : Tree τ ω → Bool
  | .out o => keep o && sure o
  | .test .. => false

/-- No test hides a leaf that suits: one that is passed leads to a sure leaf, or no leaf behind it suits then. -/
def ordered (word : τ → List σ) (apart : σ → σ → Bool) (unfit : ω → σ → Bool) (keep sure : ω → Bool) : Tree τ ω → Bool
  | .out _ => true
  | .test t yes no =>
    ordered word apart unfit keep sure yes && ordered word apart unfit keep sure no &&
      (isSure keep sure yes || (paths word keep no).all fun e => hidden apart unfit (word t) e)

section
variable {reads : β → σ → Bool} {m : Nat → β} {word : τ → List σ} {apart : σ → σ → Bool} {keep : ω → Bool}
  {ok : τ → Nat → Bool} {len : τ → Nat} {fits : ω → β → Bool} {unfit : ω → σ → Bool} {sure : ω → Bool} {w : List σ}
  {p : Nat}

theorem spells_append (w v : List σ) (p : Nat) :
    spells reads m (w ++ v) p = (spells reads m w p && spells reads m v (p + w.length)) := by
  induction w generalizing p with
  | nil => simp [spells]
  | cons c w ih =>
    rw [cons_append, spells, ih, spells, Bool.and_assoc, length_cons]
    congr 3
    omega

/-- A class at each position of a word that is spelled. -/
theorem reads_of_spells {p i : Nat} {c : σ} (h : spells reads m w p = true) (hc : w[i]? = some c) :
    reads (m (p + i)) c = true := by
  induction w generalizing p i with
  | nil => simp at hc
  | cons d w ih =>
    obtain ⟨hd, hw⟩ := (and_eq_true _ _).mp h
    cases i with
    | zero =>
      cases hc
      exact hd
    | succ i =>
      have := ih hw hc
      rwa [Nat.add_assoc, Nat.add_comm 1 i] at this

theorem not_spells_of_clash (hapart : ∀ x c d, apart c d = true → reads x c = true → reads x d = false) {w v : List σ}
    (h : clash apart w v = true) (hw : spells reads m w p = true) : spells reads m v p = false := by
  induction w generalizing v p with
  | nil => cases h
  | cons c w ih =>
    cases v with
    | nil => cases h
    | cons d v =>
      obtain ⟨hc, hw⟩ := (and_eq_true _ _).mp hw
      rw [spells]
      rcases (or_eq_true _ _).mp h with h | h
      · rw [hapart _ c d h hc, Bool.false_and]
      · rw [ih h hw, Bool.and_false]

theorem find?_map_pass {l : List (List σ × ω)} (hw : spells reads m w p = true) :
    (l.map fun e => (w ++ e.1, e.2)).find? (suits reads fits m p) =
      (l.find? (suits reads fits m (p + w.length))).map fun e => (w ++ e.1, e.2) := by
  rw [find?_map]
  congr 2
  funext e
  simp only [Function.comp, suits, spells_append, hw, Bool.true_and, length_append, Nat.add_assoc]

theorem find?_map_fail {l : List (List σ × ω)} (hw : spells reads m w p = false) :
    (l.map fun e => (w ++ e.1, e.2)).find? (suits reads fits m p) = none := by
  rw [find?_eq_none]
  intro e he
  obtain ⟨e', -, rfl⟩ := mem_map.mp he
  simp only [suits, spells_append, hw, Bool.false_and, Bool.false_eq_true, not_false_eq_true]

theorem not_suits_of_hidden (hapart : ∀ x c d, apart c d = true → reads x c = true → reads x d = false)
    (hunfit : ∀ x o c, unfit o c = true → reads x c = true → fits o x = false) {e : List σ × ω}
    (h : hidden apart unfit w e = true) (hw : spells reads m w p = true) : suits reads fits m p e = false := by
  rw [suits]
  rcases (or_eq_true _ _).mp h with h | h
  · rw [not_spells_of_clash hapart h hw, Bool.false_and]
  · obtain ⟨c, hc, hu⟩ := (any_eq_true _ _).mp h
    rw [hunfit _ _ c hu (reads_of_spells hw hc), Bool.and_false]

variable (hok : ∀ t p, ok t p = spells reads m (word t) p) (hlen : ∀ t, len t = (word t).length)
include hok hlen

/-- **A run ends at a leaf whose word is spelled.** -/
theorem run_path (tree : Tree τ ω) (p : Nat) :
    ∃ w, (w, (run ok len tree p).1) ∈ paths word (fun _ => true) tree ∧ spells reads m w p = true ∧
      (run ok len tree p).2 = p + w.length := by
  induction tree generalizing p with
  | out o => exact ⟨[], mem_singleton.mpr rfl, rfl, rfl⟩
  | test t yes no ihYes ihNo =>
    rw [run]
    by_cases ht : ok t p = true
    · rw [if_pos ht]
      obtain ⟨w, hmem, hw, hp⟩ := ihYes (p + len t)
      rw [hok] at ht
      rw [hlen] at hmem hw hp ⊢
      refine ⟨word t ++ w, mem_append_left _ (mem_map.mpr ⟨_, hmem, rfl⟩), ?_, ?_⟩
      · rw [spells_append, ht, hw, Bool.true_and]
      · rw [hp, length_append, Nat.add_assoc]
    · rw [if_neg ht]
      obtain ⟨w, hmem, hw, hp⟩ := ihNo p
      exact ⟨w, mem_append_right _ hmem, hw, hp⟩

/-- **In an ordered tree a run ends at the first leaf that suits**, if there is one to be kept. -/
theorem run_find (hapart : ∀ x c d, apart c d = true → reads x c = true → reads x d = false)
    (hunfit : ∀ x o c, unfit o c = true → reads x c = true → fits o x = false)
    (hsure : ∀ x o, sure o = true → fits o x = true) {tree : Tree τ ω}
    (ht : ordered word apart unfit keep sure tree = true) (p : Nat) :
    match (paths word keep tree).find? (suits reads fits m p) with
    | some e => run ok len tree p = (e.2, p + e.1.length)
    | none => keep (run ok len tree p).1 = false ∨ fits (run ok len tree p).1 (m (run ok len tree p).2) = false := by
  induction tree generalizing p with
  | out o =>
    rw [paths]
    by_cases ho : keep o = true
    · have hsuits : suits reads fits m p (([] : List σ), o) = fits o (m p) := rfl
      rw [if_pos ho, find?_singleton, hsuits]
      by_cases hf : fits o (m p) = true
      · rw [if_pos hf]
        rfl
      · rw [if_neg hf]
        exact .inr (not_eq_true _ ▸ hf)
    · rw [if_neg ho]
      exact .inl (not_eq_true _ ▸ ho)
  | test t yes no ihYes ihNo =>
    obtain ⟨ht, hhide⟩ := (and_eq_true _ _).mp ht
    obtain ⟨hyes, hno⟩ := (and_eq_true _ _).mp ht
    rw [paths, find?_append, run, hok]
    by_cases hw : spells reads m (word t) p = true
    · rw [if_pos hw, find?_map_pass hw, hlen]
      have hrun := ihYes hyes (p + (word t).length)
      cases hfind : (paths word keep yes).find? (suits reads fits m (p + (word t).length)) with
      | some e =>
        rw [hfind] at hrun
        rw [map_some, some_or]
        dsimp only
        rw [hrun, length_append, Nat.add_assoc]
      | none =>
        rw [hfind] at hrun
        -- the first subtree is no sure leaf, so everything behind the test is hidden by it
        have hhidden : ∀ e ∈ paths word keep no, hidden apart unfit (word t) e = true := by
          rcases (or_eq_true _ _).mp hhide with h | h
          · cases yes with
            | out o =>
              obtain ⟨hk, hs⟩ := (and_eq_true _ _).mp h
              rw [run] at hrun
              rcases hrun with h | h
              · rw [hk] at h
                cases h
              · rw [hsure _ _ hs] at h
                cases h
            | test => cases h
          · exact all_eq_true.mp h
        have hnone : (paths word keep no).find? (suits reads fits m p) = none := by
          rw [find?_eq_none]
          intro e he
          rw [not_suits_of_hidden hapart hunfit (hhidden e he) hw]
          exact false_ne_true
        rw [hnone]
        exact hrun
    · rw [if_neg hw, find?_map_fail (not_eq_true _ ▸ hw)]
      exact ihNo hno p

end

end Lib.Switch
