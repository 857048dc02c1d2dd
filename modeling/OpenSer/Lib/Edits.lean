import Mathlib.Tactic

/-!
# Edits of a list

An edit deletes some elements from a position on and puts a text there. `edited` says, position by position, what a list
becomes under a list of edits that may overlap. `splice` is the algorithm: it walks the edits with a cursor, copies up
to each one and ignores an edit that lies behind the cursor; `repair` cuts the edits so that none does.

* `splice_repair`: splicing repaired edits gives the edited list.
* `splice_eq_edited_kept`: splicing any edits gives the list edited by those that are not ignored.
* `splice_insert`: texts put at one place stand there side by side.
* `splice_eq_iff_held`: when moving some edits to the right changes nothing, whatever the list.
-/

namespace Lib

open List Prod Nat

variable {α : Type*}

/-- Delete `del` elements from position `pos` on, and put `text` there. -/
structure Edit (α : Type*) where
  pos : Nat
  del : Nat
  text : List α

namespace Edit

def stop (e : Edit α) : Nat := e.pos + e.del

/-- The edit deletes or inserts something. -/
def Acts (e : Edit α) : Prop := 0 < e.del ∨ e.text ≠ []

instance (e : Edit α) : Decidable e.Acts :=
  decidable_of_iff (0 < e.del ∨ ¬e.text.isEmpty = true) (by simp [Acts])

/-- What is left of the edit when the list is dealt with up to `s`. -/
def cut (s : Nat) (e : Edit α) : Edit α := ⟨max e.pos s, e.stop - max e.pos s, e.text⟩

theorem pos_le_stop (e : Edit α) : e.pos ≤ e.stop := Nat.le_add_right ..

theorem stop_cut (s : Nat) (e : Edit α) : (e.cut s).stop = max e.stop s := by
  simp only [cut, stop]
  omega

theorem cut_of_le {s : Nat} {e : Edit α} (h : s ≤ e.pos) : e.cut s = e := by
  rw [cut, max_eq_left h, stop, Nat.add_sub_cancel_left]

end Edit

variable {es fs : List (Edit α)} {e : Edit α} {xs : List α} {s t p : Nat}

def Deleted (es : List (Edit α)) (p : Nat) : Prop := ∃ e ∈ es, e.pos ≤ p ∧ p < e.stop

instance (es : List (Edit α)) (p : Nat) : Decidable (Deleted es p) := inferInstanceAs (Decidable (∃ e ∈ es, _))

def textsAt (es : List (Edit α)) (p : Nat) : List α := (es.filter (·.pos = p)).flatMap Edit.text

/-- What stands for the element at `p`: the texts put there, and the element unless it is deleted. -/
def cell (es : List (Edit α)) (xs : List α) (p : Nat) : List α :=
  textsAt es p ++ if Deleted es p then [] else xs[p]?.toList

def edited (es : List (Edit α)) (xs : List α) : List α := (List.range (xs.length + 1)).flatMap (cell es xs)

def Sorted (es : List (Edit α)) : Prop := es.Pairwise fun e f => e.pos ≤ f.pos

/-! ## From a cursor on -/

/-- The part of the edited list from `s` on, when the elements deleted are those of `ds` and the texts those of `es`. A
text that belongs before `s` stands at `s`. -/
def editedFrom (ds es : List (Edit α)) (xs : List α) (s : Nat) : List α :=
  (List.range' s (xs.length + 1 - s)).flatMap fun p =>
    (es.filter (max ·.pos s = p)).flatMap Edit.text ++ if Deleted ds p then [] else xs[p]?.toList

theorem edited_eq_editedFrom (es : List (Edit α)) (xs : List α) : edited es xs = editedFrom es es xs 0 := by
  simp only [edited, editedFrom, max_zero, range_eq_range']
  rfl

variable {ds ds' : List (Edit α)}

theorem editedFrom_congr (h : ∀ p, s ≤ p → (Deleted ds p ↔ Deleted ds' p)) :
    editedFrom ds es xs s = editedFrom ds' es xs s := by
  refine flatMap_congr fun p hp => ?_
  rw [mem_range'_1] at hp
  simp only [h p hp.1]

theorem editedFrom_succ (hs : s ≤ xs.length) :
    editedFrom ds es xs s = (es.filter (·.pos ≤ s)).flatMap Edit.text ++ (if Deleted ds s then [] else xs[s]?.toList) ++
      (List.range' (s + 1) (xs.length - s)).flatMap fun p =>
        (es.filter (·.pos = p)).flatMap Edit.text ++ if Deleted ds p then [] else xs[p]?.toList := by
  rw [editedFrom, succ_sub hs, range'_succ, flatMap_cons]
  congr 1
  · have hmax : ∀ e : Edit α, max e.pos s = s ↔ e.pos ≤ s := fun e => by omega
    simp only [hmax]
  · refine flatMap_congr fun p hp => ?_
    rw [mem_range'_1] at hp
    have hmax : ∀ e : Edit α, max e.pos s = p ↔ e.pos = p := fun e => by omega
    simp only [hmax]

theorem filter_le_eq_nil (h : ∀ f ∈ es, s < f.pos) : es.filter (·.pos ≤ s) = [] := by
  rw [filter_eq_nil_iff]
  intro f hf
  simpa using h f hf

theorem filter_le_succ (h : Sorted es) (s : Nat) :
    es.filter (·.pos ≤ s) ++ es.filter (·.pos = s + 1) = es.filter (·.pos ≤ s + 1) := by
  induction es with
  | nil => rfl
  | cons e es ih =>
    obtain ⟨hle, hes⟩ := pairwise_cons.mp h
    rw [filter_cons, filter_cons, filter_cons]
    by_cases h1 : e.pos ≤ s
    · simp only [h1, decide_true, if_true, show ¬e.pos = s + 1 by omega, decide_false, Bool.false_eq_true, if_false,
        show e.pos ≤ s + 1 by omega, cons_append, ih hes]
    · have hnil : es.filter (·.pos ≤ s) = [] := filter_le_eq_nil fun f hf => (not_le.mp h1).trans_le (hle f hf)
      by_cases h2 : e.pos = s + 1
      · rw [← ih hes, hnil]
        simp [h2]
      · have h3 : ¬e.pos ≤ s + 1 := by omega
        simp only [h1, h2, h3, decide_false, Bool.false_eq_true, if_false, ih hes]

theorem editedFrom_deleted (h : Sorted es) (hs : s < xs.length) (hd : Deleted ds s) :
    editedFrom ds es xs s = editedFrom ds es xs (s + 1) := by
  obtain ⟨k, hk⟩ : ∃ k, xs.length - s = k + 1 := ⟨xs.length - s - 1, by omega⟩
  rw [editedFrom_succ hs.le, editedFrom_succ (by omega : s + 1 ≤ xs.length), if_pos hd, append_nil, hk,
    range'_succ, flatMap_cons, ← filter_le_succ h s, flatMap_append,
    show xs.length - (s + 1) = k by omega]
  simp only [append_assoc]

theorem editedFrom_copy (hs : s < xs.length) (hd : ¬Deleted ds s) (hes : ∀ e ∈ es, s < e.pos) :
    editedFrom ds es xs s = xs[s] :: editedFrom ds es xs (s + 1) := by
  obtain ⟨k, hk⟩ : ∃ k, xs.length - s = k + 1 := ⟨xs.length - s - 1, by omega⟩
  have hnext : es.filter (·.pos = s + 1) = es.filter (·.pos ≤ s + 1) := by
    refine filter_congr fun f hf => ?_
    have := hes f hf
    simp only [decide_eq_decide]
    omega
  rw [editedFrom_succ hs.le, editedFrom_succ (by omega : s + 1 ≤ xs.length), if_neg hd, filter_le_eq_nil hes,
    hk, range'_succ, flatMap_cons, hnext, getElem?_eq_getElem hs, show xs.length - (s + 1) = k by omega]
  simp

theorem editedFrom_cons (hs : s ≤ xs.length) (he : e.pos ≤ s) :
    editedFrom ds (e :: es) xs s = e.text ++ editedFrom ds es xs s := by
  rw [editedFrom_succ hs, editedFrom_succ hs, filter_cons_of_pos (by simpa using he), flatMap_cons]
  simp only [append_assoc]
  congr 3
  refine flatMap_congr fun p hp => ?_
  rw [mem_range'_1] at hp
  rw [filter_cons_of_neg (by simp; omega)]

theorem editedFrom_deleted_upto (h : Sorted es) (hst : s ≤ t) (ht : t ≤ xs.length)
    (hd : ∀ p, s ≤ p → p < t → Deleted ds p) : editedFrom ds es xs s = editedFrom ds es xs t := by
  induction t, hst using le_induction with
  | base => rfl
  | succ t hst ih =>
    rw [ih (by omega) fun p hp hpt => hd p hp (by omega)]
    exact editedFrom_deleted h (by omega) (hd t hst (by omega))

theorem editedFrom_copy_upto (hst : s ≤ t) (ht : t ≤ xs.length)
    (hd : ∀ p, s ≤ p → p < t → ¬Deleted ds p) (hes : ∀ e ∈ es, t ≤ e.pos) :
    editedFrom ds es xs s = (xs.drop s).take (t - s) ++ editedFrom ds es xs t := by
  induction t, hst using le_induction with
  | base => simp
  | succ t hst ih =>
    rw [ih (by omega) (fun p hp hpt => hd p hp (by omega)) fun e he => by have := hes e he; omega,
      editedFrom_copy (by omega) (hd t hst (by omega)) fun e he => by have := hes e he; omega,
      show t + 1 - s = (t - s) + 1 by omega, take_add_one, getElem?_drop, show s + (t - s) = t by omega,
      getElem?_eq_getElem (by omega : t < xs.length)]
    simp

theorem editedFrom_nil (xs : List α) (s : Nat) : editedFrom [] [] xs s = xs.drop s := by
  by_cases hs : s ≤ xs.length
  · rw [editedFrom_copy_upto hs le_rfl (fun p _ _ => by simp [Deleted]) (by simp)]
    simp [editedFrom]
  · rw [editedFrom, show xs.length + 1 - s = 0 by omega, drop_eq_nil_of_le (by omega)]
    rfl

/-! ## Splicing -/

/-- Splices the edits into the list from the cursor `s` on, up to the last edit. An edit behind the cursor is
ignored. -/
def spliceTo (xs : List α) : Nat → List (Edit α) → List α × Nat
  | s, [] => ([], s)
  | s, e :: es =>
    if e.pos < s then spliceTo xs s es
    else ((xs.drop s).take (e.pos - s) ++ (e.text ++ (spliceTo xs e.stop es).1), (spliceTo xs e.stop es).2)

def splice (xs : List α) (s : Nat) (es : List (Edit α)) : List α :=
  (spliceTo xs s es).1 ++ xs.drop (spliceTo xs s es).2

/-- The edits as they are cut by those before them. -/
def repair : Nat → List (Edit α) → List (Edit α)
  | _, [] => []
  | s, e :: es => e.cut s :: repair (e.cut s).stop es

def kept : Nat → List (Edit α) → List (Edit α)
  | _, [] => []
  | s, e :: es => if e.pos < s then kept s es else e :: kept e.stop es

/-- Each edit lies behind those before it. -/
def Chained : Nat → List (Edit α) → Prop
  | _, [] => True
  | s, e :: es => s ≤ e.pos ∧ Chained e.stop es

theorem spliceTo_append (xs : List α) : ∀ (s : Nat) (es fs : List (Edit α)), spliceTo xs s (es ++ fs) =
    ((spliceTo xs s es).1 ++ (spliceTo xs (spliceTo xs s es).2 fs).1, (spliceTo xs (spliceTo xs s es).2 fs).2)
  | s, [], fs => rfl
  | s, e :: es, fs => by
    rw [cons_append, spliceTo, spliceTo]
    split
    · exact spliceTo_append xs s es fs
    · simp only [spliceTo_append xs e.stop es fs, append_assoc]

theorem splice_cons (h : s ≤ e.pos) :
    splice xs s (e :: es) = (xs.drop s).take (e.pos - s) ++ (e.text ++ splice xs e.stop es) := by
  rw [splice, spliceTo, if_neg (by omega), splice]
  simp only [append_assoc]

theorem splice_kept (xs : List α) : ∀ (s : Nat) (es : List (Edit α)), splice xs s (kept s es) = splice xs s es
  | _, [] => rfl
  | s, e :: es => by
    rw [kept]
    split
    · rename_i h
      rw [splice_kept xs s es, splice, splice, spliceTo, if_pos h]
    · rw [splice_cons (by omega), splice_cons (by omega), splice_kept xs e.stop es]

theorem chained_kept : ∀ (s : Nat) (es : List (Edit α)), Chained s (kept s es)
  | _, [] => trivial
  | s, e :: es => by
    rw [kept]
    split
    · exact chained_kept s es
    · exact ⟨by omega, chained_kept e.stop es⟩

theorem chained_repair : ∀ (s : Nat) (es : List (Edit α)), Chained s (repair s es)
  | _, [] => trivial
  | s, e :: es => ⟨le_max_right .., chained_repair (e.cut s).stop es⟩

theorem Chained.weaken (hst : s ≤ t) (h : Chained t es) : Chained s es := by
  cases es with
  | nil => trivial
  | cons e es => exact ⟨hst.trans h.1, h.2⟩

theorem Chained.repair_eq : ∀ {s : Nat} {es : List (Edit α)}, Chained s es → repair s es = es
  | _, [], _ => rfl
  | s, e :: es, h => by rw [repair, Edit.cut_of_le h.1, h.2.repair_eq]

theorem Chained.le_pos : ∀ {s : Nat} {es : List (Edit α)}, Chained s es → ∀ e ∈ es, s ≤ e.pos
  | _, e :: _, h, f, hf => by
    rcases mem_cons.mp hf with rfl | hf
    · exact h.1
    · have := h.2.le_pos f hf
      have := h.1
      have := e.pos_le_stop
      omega

theorem Chained.pairwise : ∀ {s : Nat} {es : List (Edit α)}, Chained s es → es.Pairwise fun e f => e.stop ≤ f.pos
  | _, [], _ => List.Pairwise.nil
  | _, _ :: _, h => pairwise_cons.mpr ⟨h.2.le_pos, h.2.pairwise⟩

theorem Chained.sorted : ∀ {s : Nat} {es : List (Edit α)}, Chained s es → Sorted es
  | _, _, h => h.pairwise.imp fun hle => (Edit.pos_le_stop _).trans hle

/-- Splicing repaired edits gives the edited list, from any cursor on. -/
theorem splice_repair_from : ∀ {s : Nat} {es : List (Edit α)}, Sorted es → s ≤ xs.length →
    (∀ e ∈ es, e.stop ≤ xs.length) → splice xs s (repair s es) = editedFrom es es xs s
  | s, [], _, _, _ => (editedFrom_nil xs s).symm
  | s, e :: es, h, hs, hstop => by
    obtain ⟨hle, hes⟩ := pairwise_cons.mp h
    have hestop := hstop e (by simp)
    have hpos := e.pos_le_stop
    have hfrom : ∀ f ∈ e :: es, e.pos ≤ f.pos := forall_mem_cons.mpr ⟨le_rfl, hle⟩
    have hdel : ∀ p, Deleted (e :: es) p → e.pos ≤ p := fun p ⟨f, hf, hfp, _⟩ => (hfrom f hf).trans hfp
    have hcopy : editedFrom (e :: es) (e :: es) xs s =
        (xs.drop s).take (max e.pos s - s) ++ editedFrom (e :: es) (e :: es) xs (max e.pos s) := by
      by_cases hse : s ≤ e.pos
      · rw [max_eq_left hse]
        refine editedFrom_copy_upto hse (by omega) (fun p _ hp hd => ?_) hfrom
        have := hdel p hd
        omega
      · rw [max_eq_right (by omega)]
        simp
    rw [repair, splice_cons (le_max_right ..), hcopy]
    -- behind the text of `e`, the cursor moves over what `e` deletes
    rw [editedFrom_cons (by omega) (le_max_left ..), Edit.stop_cut, splice_repair_from hes (by omega) fun f hf =>
      hstop f (by simp [hf])]
    congr 2
    have hmove : editedFrom (e :: es) es xs (max e.pos s) = editedFrom (e :: es) es xs (max e.stop s) :=
      editedFrom_deleted_upto hes (by omega) (by omega) fun p hp hpt => ⟨e, mem_cons_self .., by omega, by omega⟩
    rw [hmove]
    refine editedFrom_congr fun p hp => ?_
    constructor
    · rintro ⟨f, hf, hfp⟩
      exact ⟨f, by simp [hf], hfp⟩
    · rintro ⟨f, hf, hfp⟩
      rcases mem_cons.mp hf with rfl | hf
      · omega
      · exact ⟨f, hf, hfp⟩

/-- **Splicing repaired edits** gives the edited list. -/
theorem splice_repair (h : Sorted es) (hstop : ∀ e ∈ es, e.stop ≤ xs.length) :
    splice xs 0 (repair 0 es) = edited es xs := by
  rw [splice_repair_from h (zero_le _) hstop, edited_eq_editedFrom]

theorem mem_of_mem_kept : ∀ {s : Nat} {es : List (Edit α)}, ∀ e ∈ kept s es, e ∈ es
  | s, f :: es, e, he => by
    rw [kept] at he
    split at he
    · exact mem_cons_of_mem _ (mem_of_mem_kept e he)
    · rcases mem_cons.mp he with rfl | he
      · exact mem_cons_self ..
      · exact mem_cons_of_mem _ (mem_of_mem_kept e he)

/-- **Splicing any edits** gives the list edited by those that are not ignored. -/
theorem splice_eq_edited_kept (hstop : ∀ e ∈ es, e.stop ≤ xs.length) : splice xs 0 es = edited (kept 0 es) xs := by
  have hchain := chained_kept 0 es
  rw [← splice_kept, ← splice_repair hchain.sorted fun e he => hstop e (mem_of_mem_kept e he), hchain.repair_eq]

theorem repair_of_le (h : ∀ e ∈ es, s ≤ e.pos) : repair s es = repair 0 es := by
  cases es with
  | nil => rfl
  | cons e es =>
    have he := h e (mem_cons_self ..)
    rw [repair, repair, Edit.cut_of_le he, Edit.cut_of_le (zero_le _)]

theorem stop_repair_le : ∀ {s : Nat} {es : List (Edit α)} {n : Nat}, (∀ e ∈ es, e.stop ≤ n) → s ≤ n →
    ∀ e ∈ repair s es, e.stop ≤ n
  | _, [], _, _, _ => by simp [repair]
  | s, e :: es, n, hstop, hs => by
    obtain ⟨he, hes⟩ := forall_mem_cons.mp hstop
    have hcut : (e.cut s).stop ≤ n := by
      rw [Edit.stop_cut]
      exact max_le he hs
    exact forall_mem_cons.mpr ⟨hcut, stop_repair_le hes hcut⟩

theorem spliceTo_snd_le (xs : List α) : ∀ {s : Nat} {es : List (Edit α)} {n : Nat}, s ≤ n → (∀ e ∈ es, e.stop ≤ n) →
    (spliceTo xs s es).2 ≤ n
  | _, [], _, hs, _ => hs
  | s, e :: es, n, hs, hstop => by
    obtain ⟨he, hes⟩ := forall_mem_cons.mp hstop
    rw [spliceTo]
    split
    · exact spliceTo_snd_le xs hs hes
    · exact spliceTo_snd_le xs he hes

theorem length_splice : ∀ {s : Nat} {es : List (Edit α)}, Chained s es → s ≤ xs.length →
    (∀ e ∈ es, e.stop ≤ xs.length) →
    (splice xs s es).length + (es.map Edit.del).sum + s = xs.length + (es.map (·.text.length)).sum
  | s, [], _, hs, _ => by
    simp [splice, spliceTo]
    omega
  | s, e :: es, h, hs, hstop => by
    obtain ⟨hestop, hes⟩ := forall_mem_cons.mp hstop
    have ih := length_splice h.2 hestop hes
    have hle := h.1
    rw [splice_cons h.1]
    simp only [length_append, length_take, length_drop, map_cons, sum_cons]
    have hdef : e.stop = e.pos + e.del := rfl
    omega

/-! ## Putting texts at one place -/

/-- The position behind all that the edits delete. -/
def reach (s : Nat) (es : List (Edit α)) : Nat := es.foldl (fun s e => max e.stop s) s

theorem le_reach : ∀ (s : Nat) (es : List (Edit α)), s ≤ reach s es
  | _, [] => le_rfl
  | s, e :: es => (le_max_right e.stop s).trans (le_reach (max e.stop s) es)

theorem stop_le_reach : ∀ (s : Nat) (es : List (Edit α)), ∀ e ∈ es, e.stop ≤ reach s es
  | _, [] => by simp
  | s, e :: es => forall_mem_cons.mpr ⟨(le_max_left e.stop s).trans (le_reach _ es), stop_le_reach _ es⟩

variable {n : Nat}

theorem reach_le : ∀ {s : Nat} {es : List (Edit α)}, s ≤ n → (∀ e ∈ es, e.stop ≤ n) → reach s es ≤ n
  | _, [], hs, _ => hs
  | s, e :: es, hs, hes => by
    obtain ⟨he, hes⟩ := forall_mem_cons.mp hes
    show reach (max e.stop s) es ≤ n
    exact reach_le (max_le he hs) hes

/-- Repairing a list goes on where repairing its first part has reached. -/
theorem repair_append_reach : ∀ (s : Nat) (es fs : List (Edit α)),
    repair s (es ++ fs) = repair s es ++ repair (reach s es) fs
  | _, [], _ => rfl
  | s, e :: es, fs => by
    rw [cons_append, repair, repair, repair_append_reach (e.cut s).stop es fs, Edit.stop_cut]
    rfl

theorem repair_append (hes : ∀ e ∈ es, ∀ f ∈ fs, e.stop ≤ f.pos) (hs : ∀ f ∈ fs, s ≤ f.pos) :
    repair s (es ++ fs) = repair s es ++ repair 0 fs := by
  rw [repair_append_reach, repair_of_le fun f hf => reach_le (hs f hf) fun e he => hes e he f hf]

theorem repair_texts : ∀ {ns : List (Edit α)} (s : Nat), (∀ n ∈ ns, n.pos = p ∧ n.del = 0) →
    repair s ns = ns.map fun n => ⟨max p s, 0, n.text⟩
  | [], _, _ => rfl
  | n :: ns, s, h => by
    obtain ⟨⟨hpos, hdel⟩, hns⟩ := forall_mem_cons.mp h
    have hcut : n.cut s = ⟨max p s, 0, n.text⟩ := by
      rw [Edit.cut, Edit.stop, hpos]
      congr 1
      omega
    rw [repair, hcut, repair_texts _ hns]
    simp [Edit.stop]

theorem repair_max (h : ∀ f ∈ fs.head?, p ≤ f.pos) (s : Nat) : repair (max p s) fs = repair s fs := by
  cases fs with
  | nil => rfl
  | cons f fs =>
    have hf : p ≤ f.pos := h f rfl
    have hcut : f.cut (max p s) = f.cut s := by
      rw [Edit.cut, Edit.cut, ← max_assoc, max_eq_left hf]
    rw [repair, repair, hcut]

theorem le_pos_repair : ∀ {s : Nat} {es : List (Edit α)}, (∀ e ∈ es, n ≤ e.pos) →
    ∀ e ∈ repair s es, n ≤ e.pos
  | _, [], _ => by simp [repair]
  | s, e :: es, h => by
    obtain ⟨he, hes⟩ := forall_mem_cons.mp h
    exact forall_mem_cons.mpr ⟨he.trans (le_max_left ..), le_pos_repair hes⟩

theorem take_drop_append (xs : List α) {a b c : Nat} (hab : a ≤ b) (hbc : b ≤ c) :
    (xs.drop a).take (b - a) ++ (xs.drop b).take (c - b) = (xs.drop a).take (c - a) := by
  have hsplit : c - a = (b - a) + (c - b) := by omega
  rw [hsplit, take_add, drop_drop, Nat.add_sub_cancel' hab]

theorem splice_of_le (hst : s ≤ t) (h : ∀ e ∈ es, t ≤ e.pos) :
    splice xs s es = (xs.drop s).take (t - s) ++ splice xs t es := by
  cases es with
  | nil =>
    have hdrop : xs.drop t = (xs.drop s).drop (t - s) := by rw [drop_drop, Nat.add_sub_cancel' hst]
    simp only [splice, spliceTo, nil_append]
    rw [hdrop, take_append_drop]
  | cons e es =>
    have he := h e (mem_cons_self ..)
    rw [splice_cons (hst.trans he), splice_cons he, ← take_drop_append xs hst he, append_assoc]

theorem splice_texts (hst : s ≤ t) (h : ∀ e ∈ es, t ≤ e.pos) (ns : List (Edit α)) :
    splice xs s (ns.map (fun n => ⟨t, 0, n.text⟩) ++ es) =
      (xs.drop s).take (t - s) ++ (ns.flatMap Edit.text ++ splice xs t es) := by
  induction ns generalizing s with
  | nil => exact splice_of_le hst h
  | cons n ns ih =>
    have hstop : Edit.stop (⟨t, 0, n.text⟩ : Edit α) = t := rfl
    rw [map_cons, cons_append, splice_cons hst, hstop, ih le_rfl]
    simp

theorem splice_append (xs : List α) (s : Nat) (es fs : List (Edit α)) :
    splice xs s (es ++ fs) = (spliceTo xs s es).1 ++ splice xs (spliceTo xs s es).2 fs := by
  rw [splice, spliceTo_append, splice, append_assoc]

/-- **Texts put at one place** stand side by side in the result, and change nothing else. -/
theorem splice_insert (xs : List α) (us es fs bs : List (Edit α)) (hus : ∀ e ∈ us, e.stop ≤ p)
    (hfs : ∀ f ∈ fs.head?, p ≤ f.pos) (hbs : ∀ b ∈ bs, p ≤ b.pos ∧ ∀ e ∈ es, e.stop ≤ b.pos) :
    ∃ u v, ∀ ns : List (Edit α), (∀ n ∈ ns, n.pos = p ∧ n.del = 0) →
      splice xs 0 (us ++ (repair 0 (es ++ (ns ++ fs)) ++ repair 0 bs)) = u ++ (ns.flatMap Edit.text ++ v) := by
  have hle := stop_repair_le (stop_le_reach 0 es) (zero_le _)
  generalize hr : reach 0 es = r at hle
  have hcursor : (spliceTo xs 0 (us ++ repair 0 es)).2 ≤ max p r := by
    refine spliceTo_snd_le xs (zero_le _) (forall_mem_append.mpr ⟨fun e he => ?_, fun e he => ?_⟩)
    · exact (hus e he).trans (le_max_left ..)
    · exact (hle e he).trans (le_max_right ..)
  have hbehind : ∀ e ∈ repair r fs ++ repair 0 bs, max p r ≤ e.pos := by
    refine forall_mem_append.mpr ⟨?_, le_pos_repair fun b hb => ?_⟩
    · rw [← repair_max hfs]
      exact (chained_repair _ fs).le_pos
    · obtain ⟨hp, hstop⟩ := hbs b hb
      rw [← hr]
      exact max_le hp (reach_le (zero_le _) hstop)
  refine ⟨(spliceTo xs 0 (us ++ repair 0 es)).1 ++
      (xs.drop (spliceTo xs 0 (us ++ repair 0 es)).2).take (max p r - (spliceTo xs 0 (us ++ repair 0 es)).2),
    splice xs (max p r) (repair r fs ++ repair 0 bs), fun ns hns => ?_⟩
  have hrepair : us ++ (repair 0 (es ++ (ns ++ fs)) ++ repair 0 bs) =
      us ++ repair 0 es ++ (ns.map (fun n => ⟨max p r, 0, n.text⟩) ++ (repair r fs ++ repair 0 bs)) := by
    have hreach : repair (reach r ns) fs = repair r fs := by
      cases ns with
      | nil => rfl
      | cons n ns =>
        have hsame : reach r (n :: ns) = max p r := by
          refine le_antisymm (reach_le (le_max_right ..) fun m hm => ?_) (max_le ?_ (le_reach ..))
          · obtain ⟨hpos, hdel⟩ := hns m hm
            rw [Edit.stop, hpos, hdel]
            exact le_max_left ..
          · obtain ⟨hpos, hdel⟩ := hns n (mem_cons_self ..)
            have hstop := stop_le_reach r (n :: ns) n (mem_cons_self ..)
            rw [Edit.stop, hpos, hdel] at hstop
            exact hstop
        rw [hsame, repair_max hfs]
    rw [repair_append_reach, hr, repair_append_reach, repair_texts r hns, hreach]
    simp only [append_assoc]
  rw [hrepair, splice_append, splice_texts hcursor hbehind]
  exact (append_assoc ..).symm

/-! ## Edits that do nothing -/

theorem deleted_filter (es : List (Edit α)) (p : Nat) :
    Deleted (es.filter (Edit.Acts ·)) p ↔ Deleted es p := by
  constructor
  · rintro ⟨e, he, hp⟩
    exact ⟨e, mem_of_mem_filter he, hp⟩
  · rintro ⟨e, he, hp⟩
    have hacts : e.Acts := .inl (by unfold Edit.stop at hp; omega)
    exact ⟨e, mem_filter.mpr ⟨he, decide_eq_true hacts⟩, hp⟩

theorem textsAt_filter (es : List (Edit α)) (p : Nat) :
    textsAt (es.filter (Edit.Acts ·)) p = textsAt es p := by
  induction es with
  | nil => rfl
  | cons e es ih =>
    unfold textsAt at ih ⊢
    by_cases hacts : e.Acts
    · rw [filter_cons_of_pos (by simpa using hacts)]
      by_cases hp : e.pos = p
      · rw [filter_cons_of_pos (by simpa using hp), filter_cons_of_pos (by simpa using hp), flatMap_cons,
          flatMap_cons, ih]
      · rw [filter_cons_of_neg (by simpa using hp), filter_cons_of_neg (by simpa using hp), ih]
    · have htext : e.text = [] := by
        by_contra hne
        exact hacts (.inr hne)
      rw [filter_cons_of_neg (by simpa using hacts), ih]
      by_cases hp : e.pos = p
      · rw [filter_cons_of_pos (a := e) (by simpa using hp), flatMap_cons, htext, nil_append]
      · rw [filter_cons_of_neg (a := e) (by simpa using hp)]

section
variable (h : es.filter (Edit.Acts ·) = fs.filter (Edit.Acts ·))
include h

theorem cell_congr :
    cell es xs p = cell fs xs p := by
  have hd : Deleted es p ↔ Deleted fs p := by rw [← deleted_filter es, h, deleted_filter]
  rw [cell, cell, ← textsAt_filter es, h, textsAt_filter]
  simp only [hd]

theorem edited_congr : edited es xs = edited fs xs :=
  flatMap_congr fun _ _ => cell_congr h

end

theorem cell_append_of_lt (h : ∀ f ∈ fs, p < f.pos) : cell (es ++ fs) xs p = cell es xs p := by
  have hd : Deleted (es ++ fs) p ↔ Deleted es p := by
    simp only [Deleted, mem_append, or_and_right, exists_or]
    exact or_iff_left fun ⟨f, hf, hle, _⟩ => absurd (h f hf) (not_lt.mpr hle)
  have hnil : fs.filter (·.pos = p) = [] := by
    rw [filter_eq_nil_iff]
    intro f hf
    have := h f hf
    simp only [decide_eq_true_eq]
    omega
  simp only [cell, textsAt, filter_append, hnil, append_nil, hd]

theorem edited_split (es : List (Edit α)) (hp : p ≤ xs.length) : edited es xs =
    (List.range p).flatMap (cell es xs) ++ (cell es xs p ++
      (range' (p + 1) (xs.length - p)).flatMap (cell es xs)) := by
  have hrange : range (xs.length + 1) = range p ++ p :: range' (p + 1) (xs.length - p) := by
    rw [← range'_succ, range_eq_range', range_eq_range']
    have happ := @List.range'_append_1 0 p (xs.length - p + 1)
    rw [zero_add] at happ
    rw [happ]
    congr 1
    omega
  rw [edited, hrange, flatMap_append, flatMap_cons]

/-! ## Edits that have been moved -/

/-- `e'` is `e` moved to the right over some of what it deletes, or over all of it and beyond. -/
structure Moved (e e' : Edit α) : Prop where
  text : e'.text = e.text
  pos : e.pos ≤ e'.pos
  stop : e.stop ≤ e'.stop
  same : 0 < e'.del → e'.stop = e.stop

variable {e' : Edit α}

theorem Moved.eq_of_pos (h : Moved e e') (hp : e'.pos = e.pos) : e' = e := by
  obtain ⟨pos, del, text⟩ := e
  obtain ⟨pos', del', text'⟩ := e'
  have hstop := h.stop
  have hsame := h.same
  obtain rfl : text' = text := h.text
  simp only [Edit.stop] at hstop hsame hp
  obtain rfl : pos' = pos := hp
  obtain rfl : del' = del := by omega
  rfl

theorem Moved.acts (h : Moved e e') (ha : e'.Acts) : e.Acts := by
  rcases ha with hd | ht
  · have hsame := h.same hd
    have hpos := h.pos
    unfold Edit.stop at hsame
    exact .inl (by omega)
  · exact .inr (h.text ▸ ht)

def cursor : Nat → List (Edit α) → Nat
  | s, [] => s
  | s, e :: es => if e.pos < s then cursor s es else cursor e.stop es

theorem kept_append : ∀ (s : Nat) (es fs : List (Edit α)), kept s (es ++ fs) = kept s es ++ kept (cursor s es) fs
  | _, [], _ => rfl
  | s, e :: es, fs => by
    rw [cons_append, kept, kept, cursor]
    split
    · exact kept_append s es fs
    · rw [kept_append e.stop es fs, cons_append]

variable {l ps r : List (Edit α × Edit α)} {q : Edit α × Edit α}

/-- Every edit that acts is where it was, and nothing before it has been moved beyond it. -/
structure Held (ps : List (Edit α × Edit α)) : Prop where
  still : ∀ q ∈ ps, q.1.Acts → q.2.pos = q.1.pos
  clear : ps.Pairwise fun a b => b.1.Acts → a.2.stop ≤ b.1.pos

theorem held_concat : Held (l ++ [q]) ↔
    Held l ∧ (q.1.Acts → q.2.pos = q.1.pos ∧ ∀ a ∈ l, a.2.stop ≤ q.1.pos) := by
  constructor
  · rintro ⟨hstill, hclear⟩
    obtain ⟨hl, -, hlq⟩ := pairwise_append.mp hclear
    refine ⟨⟨(forall_mem_append.mp hstill).1, hl⟩, fun hq => ⟨hstill q (by simp) hq, fun a ha => ?_⟩⟩
    exact hlq a ha q (mem_singleton.mpr rfl) hq
  · rintro ⟨hl, hq⟩
    refine ⟨fun a ha hacts => ?_, pairwise_append.mpr ⟨hl.clear, pairwise_singleton .., fun a ha b hb => ?_⟩⟩
    · rcases mem_append.mp ha with ha | ha
      · exact hl.still a ha hacts
      · obtain rfl := mem_singleton.mp ha
        exact (hq hacts).1
    · obtain rfl := mem_singleton.mp hb
      exact fun hacts => (hq hacts).2 a ha

theorem Held.same (h : Held ps) (hm : ∀ q ∈ ps, Moved q.1 q.2) : ∀ q ∈ ps, q.2.del = q.1.del ∧ q.2.text = q.1.text := by
  intro q hq
  by_cases hacts : q.1.Acts
  · rw [(hm q hq).eq_of_pos (h.still q hq hacts)]
    exact ⟨rfl, rfl⟩
  · have hnot : ¬q.2.Acts := fun hacts' => hacts ((hm q hq).acts hacts')
    unfold Edit.Acts at hacts hnot
    exact ⟨by omega, (hm q hq).text⟩

/-- Where the edits are held, those that act are kept as they were. -/
theorem Held.filter_kept : ∀ {s : Nat} {ps : List (Edit α × Edit α)}, Held ps → (∀ q ∈ ps, Moved q.1 q.2) →
    (∀ q ∈ ps, q.1.Acts → s ≤ q.1.pos) →
    (kept s (ps.map snd)).filter (Edit.Acts ·) = (ps.map fst).filter (Edit.Acts ·)
  | _, [], _, _, _ => rfl
  | s, q :: ps, h, hm, hs => by
    obtain ⟨hq, hps⟩ := pairwise_cons.mp h.clear
    obtain ⟨hstill, hrest⟩ := forall_mem_cons.mp h.still
    have hheld : Held ps := ⟨hrest, hps⟩
    obtain ⟨hmq, hmps⟩ := forall_mem_cons.mp hm
    obtain ⟨hsq, hsps⟩ := forall_mem_cons.mp hs
    rw [map_cons, map_cons, kept]
    by_cases hacts : q.1.Acts
    · have hpos := hstill hacts
      have hle := hsq hacts
      rw [if_neg (by omega), hmq.eq_of_pos hpos, filter_cons_of_pos (by simpa using hacts),
        filter_cons_of_pos (by simpa using hacts), hheld.filter_kept hmps]
      intro a ha hacts'
      rw [← hmq.eq_of_pos hpos]
      exact hq a ha hacts'
    · have hacts' : ¬q.2.Acts := fun hc => hacts (hmq.acts hc)
      rw [filter_cons_of_neg (a := q.1) (by simpa using hacts)]
      split
      · exact hheld.filter_kept hmps hsps
      · rw [filter_cons_of_neg (by simpa using hacts')]
        exact hheld.filter_kept hmps hq

theorem Held.le_cursor : ∀ {s : Nat} {ps : List (Edit α × Edit α)}, Held ps → (∀ q ∈ ps, Moved q.1 q.2) →
    (∀ q ∈ ps, q.1.Acts → s ≤ q.1.pos) →
    s ≤ cursor s (ps.map snd) ∧ ∀ q ∈ ps, q.2.stop ≤ cursor s (ps.map snd)
  | _, [], _, _, _ => ⟨le_rfl, by simp⟩
  | s, q :: ps, h, hm, hs => by
    obtain ⟨hq, hps⟩ := pairwise_cons.mp h.clear
    obtain ⟨hstill, hrest⟩ := forall_mem_cons.mp h.still
    have hheld : Held ps := ⟨hrest, hps⟩
    obtain ⟨hmq, hmps⟩ := forall_mem_cons.mp hm
    obtain ⟨hsq, hsps⟩ := forall_mem_cons.mp hs
    rw [map_cons, cursor]
    split
    · obtain ⟨hle, hall⟩ := hheld.le_cursor hmps hsps
      refine ⟨hle, forall_mem_cons.mpr ⟨?_, hall⟩⟩
      -- an ignored edit does not act, so it ends where it starts
      have hdel : ¬0 < q.2.del := fun hd => by
        have hacts := hmq.acts (.inl hd)
        have := hstill hacts
        have := hsq hacts
        omega
      unfold Edit.stop
      omega
    · obtain ⟨hle, hall⟩ := hheld.le_cursor hmps hq
      have hstop := q.2.pos_le_stop
      exact ⟨by omega, forall_mem_cons.mpr ⟨hle, hall⟩⟩

/-- The edits that do not hold, up to the first one. -/
theorem exists_first_of_not_held (h : ¬Held ps) : ∃ l q r, ps = l ++ q :: r ∧ Held l ∧ q.1.Acts ∧
    ¬(q.2.pos = q.1.pos ∧ ∀ a ∈ l, a.2.stop ≤ q.1.pos) := by
  induction ps using reverseRecOn with
  | nil => exact absurd ⟨by simp, .nil⟩ h
  | append_singleton l q ih =>
    by_cases hl : Held l
    · rw [held_concat] at h
      push Not at h
      obtain ⟨hacts, hq⟩ := h hl
      exact ⟨l, q, [], rfl, hl, hacts, fun hc => by obtain ⟨a, ha, hlt⟩ := hq hc.1; exact absurd (hc.2 a ha) (by omega)⟩
    · obtain ⟨l', q', r', rfl, hl', hacts, hq⟩ := ih hl
      exact ⟨l', q', r' ++ [q], by simp, hl', hacts, hq⟩

theorem flatMap_cell_set {ns : List Nat} (hp : p ∉ ns) (x : α) :
    ns.flatMap (cell es (xs.set p x)) = ns.flatMap (cell es xs) := by
  refine flatMap_congr fun k hk => ?_
  have hne : p ≠ k := fun he => hp (he ▸ hk)
  rw [cell, cell, getElem?_set_ne hne]

theorem textsAt_append (es fs : List (Edit α)) (p : Nat) : textsAt (es ++ fs) p = textsAt es p ++ textsAt fs p := by
  rw [textsAt, filter_append, flatMap_append, textsAt, textsAt]

/-- Two lists of edits that agree left of `p`, where one has an edit that acts at `p` and the other has none, differ on
some list: the one puts a text before the element at `p` or deletes it, the other copies it. -/
theorem exists_ne_of_acts [Nontrivial α] {ks fs' : List (Edit α)} (hn : e.pos < n) (hacts : e.Acts)
    (hes : ks.filter (Edit.Acts ·) = es.filter (Edit.Acts ·)) (hnot : ¬Deleted es e.pos)
    (hfs : ∀ f ∈ fs, e.pos ≤ f.pos) (hfs' : ∀ f ∈ fs', e.pos < f.pos) :
    ∃ xs : List α, xs.length = n ∧ edited (ks ++ fs') xs ≠ edited (es ++ e :: fs) xs := by
  obtain ⟨a⟩ := (inferInstance : Nonempty α)
  -- both start with the same elements, and the first continues with the element at `e.pos`
  have hfirst : ∀ xs : List α, xs.length = n → ∃ tail, edited (ks ++ fs') xs =
      (range e.pos).flatMap (cell es xs) ++ (textsAt es e.pos ++ (xs[e.pos]?.toList ++ tail)) := by
    intro xs hxs
    refine ⟨(range' (e.pos + 1) (xs.length - e.pos)).flatMap (cell (ks ++ fs') xs), ?_⟩
    rw [edited_split _ (by omega : e.pos ≤ xs.length), cell_append_of_lt hfs', cell_congr hes, cell, if_neg hnot,
      append_assoc]
    congr 1
    refine flatMap_congr fun k hk => ?_
    rw [mem_range] at hk
    rw [cell_append_of_lt fun f hf => hk.trans (hfs' f hf), cell_congr hes]
  let next (xs : List α) : List α := textsAt (e :: fs) e.pos ++
    ((if Deleted (es ++ e :: fs) e.pos then [] else xs[e.pos]?.toList) ++
      (range' (e.pos + 1) (n - e.pos)).flatMap (cell (es ++ e :: fs) xs))
  have hsecond : ∀ xs : List α, xs.length = n → edited (es ++ e :: fs) xs =
      (range e.pos).flatMap (cell es xs) ++ (textsAt es e.pos ++ next xs) := by
    intro xs hxs
    rw [edited_split _ (by omega : e.pos ≤ xs.length), cell, textsAt_append, hxs]
    simp only [next, append_assoc]
    congr 1
    refine flatMap_congr fun k hk => ?_
    rw [mem_range] at hk
    exact cell_append_of_lt (forall_mem_cons.mpr ⟨hk, fun f hf => hk.trans_le (hfs f hf)⟩)
  -- what the second continues with does not depend on that element
  obtain ⟨c, hc⟩ : ∃ c, (next (replicate n a)).head? ≠ some c := by
    cases hh : (next (replicate n a)).head? with
    | none => exact ⟨a, by simp⟩
    | some b =>
      obtain ⟨c, hc⟩ := exists_ne b
      exact ⟨c, fun he => hc (Option.some.inj he).symm⟩
  have hnext : (next ((replicate n a).set e.pos c)).head? = (next (replicate n a)).head? := by
    by_cases htext : e.text = []
    · have hdel : Deleted (es ++ e :: fs) e.pos := by
        have hpos : 0 < e.del := hacts.resolve_right (not_not_intro htext)
        exact ⟨e, by simp, le_rfl, by unfold Edit.stop; omega⟩
      simp only [next, if_pos hdel]
      rw [flatMap_cell_set (by simp [mem_range'_1])]
    · have htexts : textsAt (e :: fs) e.pos = e.text ++ textsAt fs e.pos := by
        rw [textsAt, filter_cons_of_pos (by simp), flatMap_cons, textsAt]
      simp only [next, htexts, append_assoc, head?_append_of_ne_nil _ htext]
  refine ⟨(replicate n a).set e.pos c, by simp, fun he => hc ?_⟩
  obtain ⟨tail, ht⟩ := hfirst ((replicate n a).set e.pos c) (by simp)
  rw [ht, hsecond _ (by simp)] at he
  have hhead := congrArg head? (append_cancel_left (append_cancel_left he))
  rw [← hnext, ← hhead]
  simp [hn]

/-- An edit that acts and does not hold shows in some list. -/
theorem exists_ne_of_not_held [Nontrivial α]
    (hm : ∀ a ∈ l ++ q :: r, Moved a.1 a.2) (hstop : ∀ a ∈ l ++ q :: r, a.2.stop ≤ n)
    (hchain : Chained 0 ((l ++ q :: r).map fst)) (hl : Held l) (hacts : q.1.Acts)
    (hq : ¬(q.2.pos = q.1.pos ∧ ∀ a ∈ l, a.2.stop ≤ q.1.pos)) :
    ∃ xs : List α, xs.length = n ∧
      edited (kept 0 ((l ++ q :: r).map snd)) xs ≠ edited ((l ++ q :: r).map fst) xs := by
  have hml : ∀ a ∈ l, Moved a.1 a.2 := fun a ha => hm a (by simp [ha])
  have hmq : Moved q.1 q.2 := hm q (by simp)
  obtain ⟨-, hcur⟩ := hl.le_cursor (s := 0) hml fun _ _ _ => zero_le _
  have hfilter := hl.filter_kept (s := 0) hml fun _ _ _ => zero_le _
  rw [map_append] at hchain ⊢
  rw [map_append, kept_append]
  -- beyond `l`, the moved edits lie right of `q.1.pos`
  have hright : ∀ f ∈ kept (cursor 0 (l.map snd)) (q.2 :: r.map snd), q.1.pos < f.pos := by
    have hlast := (chained_kept (cursor 0 (l.map snd)) (r.map snd)).le_pos
    have hpos := hmq.pos
    have hstop' := q.2.pos_le_stop
    rw [kept]
    split
    · intro f hf
      have := hlast f hf
      omega
    · have hlt : q.1.pos < q.2.pos := by
        by_contra hle
        exact hq ⟨by omega, fun a ha => by have := hcur a ha; omega⟩
      intro f hf
      rcases mem_cons.mp hf with rfl | hf
      · exact hlt
      · have := (chained_kept q.2.stop (r.map snd)).le_pos f hf
        omega
  have hpn : q.1.pos < n := by
    by_cases hpos : q.2.pos = q.1.pos
    · have hex : ∃ a ∈ l, q.1.pos < a.2.stop := by
        by_contra hno
        push Not at hno
        exact hq ⟨hpos, hno⟩
      obtain ⟨a, ha, hlt⟩ := hex
      exact hlt.trans_le (hstop a (by simp [ha]))
    · have := hmq.pos
      have := q.2.pos_le_stop
      have := hstop q (by simp)
      omega
  have hleft : ∀ f ∈ q.1 :: r.map fst, q.1.pos ≤ f.pos := by
    have hsorted := pairwise_append.mp hchain.sorted
    exact forall_mem_cons.mpr ⟨le_rfl, (pairwise_cons.mp hsorted.2.1).1⟩
  have hnot : ¬Deleted (l.map fst) q.1.pos := by
    rintro ⟨f, hf, -, hlt⟩
    have := (pairwise_append.mp hchain.pairwise).2.2 f hf q.1 (mem_cons_self ..)
    omega
  exact exists_ne_of_acts hpn hacts hfilter hnot (forall_mem_cons.mp hleft).2 hright

/-- **Moved edits.** Splicing the moved edits gives the list edited as before, whatever the list, iff the edits hold. -/
theorem splice_eq_iff_held [Nontrivial α] (hm : ∀ q ∈ ps, Moved q.1 q.2) (hstop : ∀ q ∈ ps, q.2.stop ≤ n)
    (hchain : Chained 0 (ps.map fst)) :
    (∀ xs : List α, xs.length = n → splice xs 0 (ps.map snd) = edited (ps.map fst) xs) ↔ Held ps := by
  have hkept : ∀ xs : List α, xs.length = n →
      splice xs 0 (ps.map snd) = edited (kept 0 (ps.map snd)) xs := by
    intro xs hxs
    refine splice_eq_edited_kept fun e he => ?_
    obtain ⟨q, hq, rfl⟩ := mem_map.mp he
    exact hxs ▸ hstop q hq
  constructor
  · intro hall
    by_contra hheld
    obtain ⟨l, q, r, rfl, hl, hacts, hq⟩ := exists_first_of_not_held hheld
    obtain ⟨xs, hxs, hne⟩ := exists_ne_of_not_held hm hstop hchain hl hacts hq
    rw [← hkept xs hxs] at hne
    exact hne (hall xs hxs)
  · intro hheld xs hxs
    rw [hkept xs hxs]
    exact edited_congr (hheld.filter_kept hm fun _ _ _ => zero_le _)

end Lib

