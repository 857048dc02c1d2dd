import Mathlib.Data.List.Basic
import Mathlib.Tactic

/-!
# Flattened tries

A trie stored as a list of nodes in preorder: the first son of a node stands right behind it, `next` is its next
sibling. A word is read symbol by symbol. Each symbol is looked for among the siblings, and the reader goes on to the
first son of the node that was found. A leaf has no son to go on to: the reader stays there, so that the same symbol is
accepted once more, and a leaf is where the reader already stands when the last symbol of its word is missing.

* `Recognises`: a check of a concrete trie, to be decided.
* `Recognises.walk_sound`, `Recognises.walk_complete`: the words that lead to a node.
* `Recognises.result_eq_iff`: the words on which the reader gives the right answer.
-/

namespace Lib.FlatTrie

open List Option

/-- A node: its symbol, the answer for a word that ends here, the number of its sons, and its next sibling. -/
structure Node (α : Type) where
  c : α
  final : Nat
  nrSons : Nat
  next : Option Nat
  deriving Repr, DecidableEq

variable {α : Type}

/-- From a node on, the first sibling that matches a symbol. -/
def sibling (eq : α → α → Bool) (tree : List (Node α)) (p : α) : Nat → Option Nat → Option Nat
  | _, none => none
  | 0, some _ => none
  | fuel + 1, some n =>
    match tree[n]? with
    | some x => if eq p x.c then some n else sibling eq tree p fuel x.next
    | none => none

def step (eq : α → α → Bool) (tree : List (Node α)) (node : Option Nat) (p : α) : Option Nat :=
  match sibling eq tree p tree.length node with
  | some n =>
    match tree[n]? with
    | some x => if x.nrSons ≠ 0 then some (n + 1) else some n
    | none => none
  | none => none

/-- A word is read from the first node on. -/
def walk (eq : α → α → Bool) (tree : List (Node α)) (t : List α) : Option Nat := t.foldl (step eq tree) (some 0)

def result (eq : α → α → Bool) (tree : List (Node α)) (unknown : Nat) (t : List α) : Nat :=
  match walk eq tree t with
  | some n => (tree[n]?.map Node.final).getD unknown
  | none => unknown

/-! ## A check of a trie -/

def siblings (tree : List (Node α)) : Nat → Option Nat → List Nat
  | _, none => []
  | 0, some _ => []
  | fuel + 1, some n =>
    match tree[n]? with
    | some x => n :: siblings tree fuel x.next
    | none => []

/-- The nodes at which the reader can stand, each with the word that leads there. -/
def visits (tree : List (Node α)) : Nat → Nat → List α → List (Nat × List α)
  | 0, _, _ => []
  | fuel + 1, n, w =>
    (n, w) :: (siblings tree tree.length (some n)).flatMap fun m =>
      match tree[m]? with
      | some x => if x.nrSons ≠ 0 then visits tree fuel (m + 1) (w ++ [x.c]) else []
      | none => []

variable [DecidableEq α]

/-- The trie `tree` stands for the words of `words`, each with its answer. Symbols are compared after `low`. -/
structure Recognises (low : α → α) (tree : List (Node α)) (vs : List (Nat × List α)) (words : List (List α × Nat))
    (unknown : Nat) : Prop where
  start : (0, []) ∈ vs
  keys : (vs.map Prod.fst).Nodup
  low_c : ∀ x ∈ tree, low x.c = x.c
  closed : ∀ v ∈ vs, ∀ m ∈ siblings tree tree.length (some v.1),
    (tree[m]?.all fun x => if x.nrSons ≠ 0 then (m + 1, v.2 ++ [x.c]) ∈ vs else m = v.1) = true
  alone : ∀ v ∈ vs, (tree[v.1]?.all fun x => x.nrSons = 0 → siblings tree tree.length (some v.1) = [v.1]) = true
  reach : ∀ v ∈ vs, walk (fun p c => low p = c) tree v.2 = some v.1
  ends : ∀ v ∈ vs, (tree[v.1]?.any fun x =>
    if x.nrSons ≠ 0 then x.final = unknown else (v.2 ++ [x.c], x.final) ∈ words ∧ x.final ≠ unknown) = true
  names : ∀ w ∈ words, ∃ v ∈ vs, (tree[v.1]?.any fun x => x.nrSons = 0 ∧ w = (v.2 ++ [x.c], x.final)) = true

variable {low : α → α} {eq : α → α → Bool} {tree : List (Node α)} {vs : List (Nat × List α)}
  {words : List (List α × Nat)} {unknown n : Nat} {t : List α} {p : α}

omit [DecidableEq α] in
theorem walk_concat (t : List α) (p : α) : walk eq tree (t ++ [p]) = step eq tree (walk eq tree t) p := by
  simp [walk]

omit [DecidableEq α] in
theorem sibling_some {fuel m : Nat} {node : Option Nat} (h : sibling eq tree p fuel node = some m) :
    m ∈ siblings tree fuel node ∧ ∃ x, tree[m]? = some x ∧ eq p x.c = true := by
  induction fuel generalizing node with
  | zero => cases node <;> cases h
  | succ fuel ih =>
    cases node with
    | none => cases h
    | some k =>
      rw [sibling] at h
      rw [siblings]
      cases hk : tree[k]? with
      | none =>
        rw [hk] at h
        cases h
      | some x =>
        rw [hk] at h
        by_cases hp : eq p x.c = true
        · simp only [if_pos hp, some.injEq] at h
          subst h
          exact ⟨by simp, x, hk, hp⟩
        · simp only [if_neg hp] at h
          obtain ⟨hmem, hx⟩ := ih h
          exact ⟨by simp [hmem], hx⟩

omit [DecidableEq α] in
theorem step_some {m : Nat} {node : Option Nat} (h : step eq tree node p = some m) :
    ∃ k n x, node = some n ∧ k ∈ siblings tree tree.length (some n) ∧ tree[k]? = some x ∧ eq p x.c = true ∧
      m = if x.nrSons ≠ 0 then k + 1 else k := by
  unfold step at h
  cases hs : sibling eq tree p tree.length node with
  | none =>
    rw [hs] at h
    cases h
  | some k =>
    obtain ⟨hmem, x, hx, hp⟩ := sibling_some hs
    cases node with
    | none =>
      rw [siblings] at hmem
      cases hmem
    | some n =>
      rw [hs] at h
      simp only [hx] at h
      refine ⟨k, n, x, rfl, hmem, hx, hp, ?_⟩
      split at h
      · rename_i hsons
        rw [if_pos hsons]
        exact (some.inj h).symm
      · rename_i hsons
        rw [if_neg hsons]
        exact (some.inj h).symm

omit [DecidableEq α] in
theorem exists_of_any {o : Option (Node α)} {q : Node α → Bool} (h : o.any q = true) : ∃ x, o = some x ∧
    q x = true := by
  cases o with
  | none => cases h
  | some x => exact ⟨x, rfl, h⟩

namespace Recognises

/-- **The words that lead to a node**: its own, and at a leaf any number of its symbol behind that. -/
theorem walk_sound (h : Recognises low tree vs words unknown) (heq : ∀ p c, eq p c = decide (low p = c)) :
    ∀ {t : List α} {n : Nat}, walk eq tree t = some n → ∃ w x k, (n, w) ∈ vs ∧ tree[n]? = some x ∧
      t.map low = w ++ replicate k x.c ∧ (x.nrSons ≠ 0 → k = 0) := by
  intro t
  induction t using reverseRecOn with
  | nil =>
    intro n hn
    obtain rfl : 0 = n := some.inj hn
    obtain ⟨x, hx, -⟩ := exists_of_any (h.ends _ h.start)
    exact ⟨[], x, 0, h.start, hx, rfl, fun _ => rfl⟩
  | append_singleton t p ih =>
    intro n hn
    rw [walk_concat] at hn
    obtain ⟨k, n', y, hwalk, hk, hy, hp, rfl⟩ := step_some hn
    obtain ⟨w, x, j, hv, hx, hlow, hj⟩ := ih hwalk
    rw [heq, decide_eq_true_eq] at hp
    have hclosed := h.closed _ hv k hk
    simp only [hy, all_some] at hclosed
    by_cases hsons : y.nrSons ≠ 0
    · -- down to the first son; the reader was not at a leaf
      rw [if_pos hsons] at hclosed ⊢
      have hv' := of_decide_eq_true hclosed
      obtain ⟨z, hz, -⟩ := exists_of_any (h.ends _ hv')
      have hj0 : j = 0 := by
        apply hj
        intro hleaf
        have halone := h.alone _ hv
        simp only [hx, all_some, hleaf, decide_eq_true_eq, true_imp_iff] at halone
        rw [halone, mem_singleton] at hk
        subst hk
        rw [hx] at hy
        cases hy
        exact hsons hleaf
      refine ⟨w ++ [y.c], z, 0, hv', hz, ?_, fun _ => rfl⟩
      rw [map_append, hlow, hj0, map_singleton, hp]
      simp
    · rw [if_neg hsons] at hclosed ⊢
      have hkn : k = n' := of_decide_eq_true hclosed
      subst hkn
      obtain rfl : x = y := some.inj (hx.symm.trans hy)
      refine ⟨w, x, j + 1, hv, hx, ?_, fun hc => absurd hc hsons⟩
      rw [map_append, hlow, map_singleton, hp, append_assoc, replicate_succ']

theorem walk_low (heq : ∀ p c, eq p c = decide (low p = c)) (hidem : ∀ p, low (low p) = low p) (t : List α) :
    walk (fun p c => decide (low p = c)) tree (t.map low) = walk eq tree t := by
  have hfun : eq = fun p c => decide (low p = c) := funext fun p => funext fun c => heq p c
  subst hfun
  induction t using reverseRecOn with
  | nil => rfl
  | append_singleton t p ih =>
    rw [map_append, map_singleton, walk_concat, walk_concat, ih]
    have hsib : ∀ fuel node, sibling (fun p c => decide (low p = c)) tree (low p) fuel node =
        sibling (fun p c => decide (low p = c)) tree p fuel node := by
      intro fuel
      induction fuel with
      | zero => intro node; cases node <;> rfl
      | succ fuel ihf =>
        intro node
        cases node with
        | none => rfl
        | some n =>
          rw [sibling, sibling]
          simp only [hidem, ihf]
    unfold step
    rw [hsib]

theorem step_leaf (h : Recognises low tree vs words unknown) {x : Node α} (hx : tree[n]? = some x)
    (hleaf : x.nrSons = 0) :
    step (fun p c => decide (low p = c)) tree (some n) x.c = some n := by
  have hlow : low x.c = x.c := h.low_c x (mem_of_getElem? hx)
  have hlen : tree.length ≠ 0 := by
    intro hc
    rw [length_eq_zero_iff.mp hc] at hx
    cases hx
  obtain ⟨fuel, hfuel⟩ := Nat.exists_eq_succ_of_ne_zero hlen
  unfold step
  rw [hfuel, sibling]
  simp only [hx, hlow, decide_true, if_true]
  rw [if_neg (by simpa using hleaf)]

variable {w : List α}

/-- **The words of a leaf** with its symbol repeated lead to it. -/
theorem walk_complete (h : Recognises low tree vs words unknown) {x : Node α} (hv : (n, w) ∈ vs)
    (hx : tree[n]? = some x) (hleaf : x.nrSons = 0) (k : Nat) :
    walk (fun p c => decide (low p = c)) tree (w ++ replicate k x.c) = some n := by
  induction k with
  | zero =>
    rw [replicate_zero, append_nil]
    exact h.reach _ hv
  | succ k ih =>
    rw [replicate_succ', ← append_assoc, walk_concat, ih, h.step_leaf hx hleaf]

/-- A word and its answer, with the last symbol missing or repeated. -/
def Stretched (low : α → α) (words : List (List α × Nat)) (t : List α) : Prop :=
  ∃ w c K k, (w ++ [c], K) ∈ words ∧ k ≠ 1 ∧ t.map low = w ++ List.replicate k c

def answer (low : α → α) (words : List (List α × Nat)) (unknown : Nat) (t : List α) : Nat :=
  ((words.find? fun w => w.1 = t.map low).map Prod.snd).getD unknown

section
variable (h : Recognises low tree vs words unknown)
include h

theorem leaf_of_word {c : α} {K : Nat}
    (hw : (w ++ [c], K) ∈ words) : ∃ n x, (n, w) ∈ vs ∧ tree[n]? = some x ∧ x.nrSons = 0 ∧ x.c = c ∧ x.final = K := by
  obtain ⟨⟨n, u⟩, hv, hany⟩ := h.names _ hw
  obtain ⟨x, hx, hcond⟩ := exists_of_any hany
  rw [decide_eq_true_eq] at hcond
  obtain ⟨hleaf, hpair⟩ := hcond
  obtain ⟨happ, hK⟩ := Prod.mk.inj hpair
  obtain ⟨rfl, hc⟩ := append_inj' happ rfl
  exact ⟨n, x, hv, hx, hleaf, (cons.inj hc).1.symm, hK.symm⟩

/-- A stretched word leads to the leaf of the word. -/
theorem walk_word (heq : ∀ p c, eq p c = decide (low p = c))
    (hidem : ∀ p, low (low p) = low p) {c : α} {K k : Nat} (hw : (w ++ [c], K) ∈ words)
    (ht : t.map low = w ++ List.replicate k c) :
    ∃ n x, (n, w) ∈ vs ∧ tree[n]? = some x ∧ x.nrSons = 0 ∧ x.c = c ∧ x.final = K ∧ walk eq tree t = some n := by
  obtain ⟨n, x, hv, hx, hleaf, rfl, hK⟩ := h.leaf_of_word hw
  refine ⟨n, x, hv, hx, hleaf, rfl, hK, ?_⟩
  rw [← walk_low heq hidem, ht]
  exact h.walk_complete hv hx hleaf k

theorem word_unique {w w' : List α} (hv : (n, w) ∈ vs) (hv' : (n, w') ∈ vs) :
    w = w' :=
  (Prod.mk.inj (inj_on_of_nodup_map h.keys hv hv' rfl)).2

theorem word_concat {u : List α} {K : Nat} (hw : (u, K) ∈ words) :
    ∃ w c, u = w ++ [c] := by
  obtain ⟨v, -, hany⟩ := h.names _ hw
  obtain ⟨x, -, hcond⟩ := exists_of_any hany
  rw [decide_eq_true_eq] at hcond
  exact ⟨_, _, (Prod.mk.inj hcond.2).1⟩

end

/-- The answer of the list is the one of a word, or the word is not in the list. -/
theorem answer_cases (low : α → α) (words : List (List α × Nat)) (unknown : Nat) (t : List α) :
    (∃ K, (t.map low, K) ∈ words ∧ answer low words unknown t = K) ∨
    ((∀ K, (t.map low, K) ∉ words) ∧ answer low words unknown t = unknown) := by
  unfold answer
  cases hfind : words.find? fun w => w.1 = t.map low with
  | some w =>
    have hw : w.1 = t.map low := by simpa using find?_some hfind
    refine .inl ⟨w.2, ?_, rfl⟩
    rw [← hw]
    exact mem_of_find?_eq_some hfind
  | none =>
    refine .inr ⟨fun K hK => ?_, rfl⟩
    exact find?_eq_none.mp hfind _ hK (by simp)

/-- **The reader is right exactly about the words that are not stretched.** -/
theorem result_eq_iff (h : Recognises low tree vs words unknown) (heq : ∀ p c, eq p c = decide (low p = c))
    (hidem : ∀ p, low (low p) = low p) (t : List α) :
    result eq tree unknown t = answer low words unknown t ↔ ¬Stretched low words t := by
  -- a word of the list leads to its leaf
  have hword : ∀ {K}, (t.map low, K) ∈ words → ∃ n w x, (n, w) ∈ vs ∧ tree[n]? = some x ∧ x.nrSons = 0 ∧
      t.map low = w ++ [x.c] ∧ x.final = K ∧ walk eq tree t = some n := by
    intro K hK
    obtain ⟨w, c, hwc⟩ := h.word_concat hK
    obtain ⟨n, x, hv, hx, hleaf, rfl, hfin, hwalk⟩ := h.walk_word heq hidem (t := t) (k := 1) (hwc ▸ hK)
      (by simpa using hwc)
    exact ⟨n, w, x, hv, hx, hleaf, hwc, hfin, hwalk⟩
  cases hwalk : walk eq tree t with
  | none =>
    have hresult : result eq tree unknown t = unknown := by
      rw [result, hwalk]
    constructor
    · rintro - ⟨w, c, K, k, hw, -, ht⟩
      obtain ⟨n, -, -, -, -, -, -, hc⟩ := h.walk_word heq hidem hw ht
      rw [hwalk] at hc
      cases hc
    · intro _
      rcases answer_cases low words unknown t with ⟨K, hK, -⟩ | ⟨-, hans⟩
      · obtain ⟨n, -, -, -, -, -, -, -, hc⟩ := hword hK
        rw [hwalk] at hc
        cases hc
      · rw [hresult, hans]
  | some n =>
    obtain ⟨w, x, k, hv, hx, hlow, hk⟩ := h.walk_sound heq hwalk
    have hresult : result eq tree unknown t = x.final := by
      rw [result, hwalk]
      simp [hx]
    obtain ⟨y, hy, hends⟩ := exists_of_any (h.ends _ hv)
    rw [hx] at hy
    cases hy
    -- whatever leads here is a word of this node
    have hsame : ∀ {n' w' x'}, (n', w') ∈ vs → tree[n']? = some x' → walk eq tree t = some n' → w' = w ∧ x' = x := by
      intro n' w' x' hv' hx' hwalk'
      rw [hwalk] at hwalk'
      cases hwalk'
      rw [hx] at hx'
      cases hx'
      exact ⟨h.word_unique hv' hv, rfl⟩
    by_cases hsons : x.nrSons ≠ 0
    · rw [if_pos hsons, decide_eq_true_eq] at hends
      constructor
      · rintro - ⟨w', c, K, j, hw', -, ht⟩
        obtain ⟨n', x', hv', hx', hleaf, -, -, hwalk'⟩ := h.walk_word heq hidem hw' ht
        obtain ⟨-, rfl⟩ := hsame hv' hx' hwalk'
        exact hsons hleaf
      · intro _
        rcases answer_cases low words unknown t with ⟨K, hK, -⟩ | ⟨-, hans⟩
        · obtain ⟨n', w', x', hv', hx', hleaf, -, -, hwalk'⟩ := hword hK
          obtain ⟨-, rfl⟩ := hsame hv' hx' hwalk'
          exact absurd hleaf hsons
        · rw [hresult, hans, hends]
    · rw [if_neg hsons, decide_eq_true_eq] at hends
      obtain ⟨hmem, hne⟩ := hends
      constructor
      · rintro hres ⟨w', c, K, j, hw', hj, ht⟩
        obtain ⟨n', x', hv', hx', -, rfl, -, hwalk'⟩ := h.walk_word heq hidem hw' ht
        obtain ⟨rfl, rfl⟩ := hsame hv' hx' hwalk'
        rcases answer_cases low words unknown t with ⟨K', hK', -⟩ | ⟨-, hans⟩
        · obtain ⟨n'', w'', x'', hv'', hx'', -, hwc, -, hwalk''⟩ := hword hK'
          obtain ⟨rfl, rfl⟩ := hsame hv'' hx'' hwalk''
          rw [hwc] at ht
          have hlen := congrArg length ht
          simp only [length_append, length_cons, length_nil, length_replicate] at hlen
          exact hj (by omega)
        · exact hne (by rw [← hresult, hres, hans])
      · intro hstr
        have hk1 : k = 1 := by
          by_contra hc
          exact hstr ⟨w, x.c, x.final, k, hmem, hc, hlow⟩
        rw [hk1] at hlow
        rcases answer_cases low words unknown t with ⟨K, hK, hans⟩ | ⟨hnot, -⟩
        · obtain ⟨n', w', x', hv', hx', -, -, hfin, hwalk'⟩ := hword hK
          obtain ⟨-, rfl⟩ := hsame hv' hx' hwalk'
          rw [hresult, hans, hfin]
        · refine absurd ?_ (hnot x.final)
          rw [hlow]
          exact hmem

end Recognises

end Lib.FlatTrie

