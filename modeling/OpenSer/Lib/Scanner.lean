import Mathlib.Tactic

/-!
# Scanners

A loop over a text that looks at one symbol after the other. At each symbol it goes on, jumps over the next one, stops
or fails. The result is the state, the place where it stopped and the text from there on.

* `Reads`: from one state to another over a word, whatever comes behind it.
* `Reads.append`, `Reads.cons`, `Reads.stay`: words are put together.
* `Reads.scan`: what is behind a word decides.
-/

namespace Lib

open List

/-- What a scanner does at a symbol. -/
inductive Answer (σ : Type*)
  | go (s : σ)
  | jump (s : σ)
  | stop (s : σ)
  | fail

variable {σ α : Type*}

def scan (step : Nat → α → σ → Answer σ) : Nat → List α → σ → Option (σ × Nat × List α)
  | pos, [], s => some (s, pos, [])
  | pos, c :: cs, s =>
    match step pos c s with
    | .go s' => scan step (pos + 1) cs s'
    | .jump s' =>
      match cs with
      | [] => some (s', pos + 2, [])
      | _ :: cs' => scan step (pos + 2) cs' s'
    | .stop s' => some (s', pos, c :: cs)
    | .fail => none

/-- The scanner reads the word `w` from `s` to `s'`. -/
def Reads (step : Nat → α → σ → Answer σ) (pos : Nat) (w : List α) (s s' : σ) : Prop :=
  ∀ rest, scan step pos (w ++ rest) s = scan step (pos + w.length) rest s'

variable {step : Nat → α → σ → Answer σ} {pos : Nat} {c : α} {w w' cs : List α} {s s₁ s' : σ}

theorem scan_go (h : step pos c s = .go s') : scan step pos (c :: cs) s = scan step (pos + 1) cs s' := by
  rw [scan, h]

theorem scan_stop (h : step pos c s = .stop s') : scan step pos (c :: cs) s = some (s', pos, c :: cs) := by
  rw [scan, h]

theorem scan_fail (h : step pos c s = .fail) : scan step pos (c :: cs) s = none := by
  rw [scan, h]

theorem Reads.nil (s : σ) : Reads step pos [] s s := fun _ => rfl

theorem Reads.cons (h : step pos c s = .go s₁) (hw : Reads step (pos + 1) w s₁ s') : Reads step pos (c :: w) s s' := by
  intro rest
  rw [cons_append, scan_go h, hw rest, length_cons, Nat.add_right_comm, Nat.add_assoc]

theorem Reads.single (h : step pos c s = .go s') : Reads step pos [c] s s' := .cons h (.nil s')

theorem Reads.jump {d : α} (h : step pos c s = .jump s') : Reads step pos [c, d] s s' := by
  intro rest
  rw [cons_append, cons_append, scan, h]
  rfl

theorem Reads.append (h : Reads step pos w s s₁) (h' : Reads step (pos + w.length) w' s₁ s') :
    Reads step pos (w ++ w') s s' := by
  intro rest
  rw [append_assoc, h, h', length_append, Nat.add_assoc]

/-- The same, with the second word at a place that is given in another way. -/
theorem Reads.append_at {p : Nat} (h : Reads step pos w s s₁) (hp : pos + w.length = p) (h' : Reads step p w' s₁ s') :
    Reads step pos (w ++ w') s s' := h.append (hp ▸ h')

theorem Reads.stay (h : ∀ pos, ∀ c ∈ w, step pos c s = .go s) : Reads step pos w s s := by
  induction w generalizing pos with
  | nil => exact .nil s
  | cons c w ih => exact .cons (h pos c mem_cons_self) (ih fun pos d hd => h pos d (mem_cons_of_mem _ hd))

end Lib
