import Mathlib.Tactic

/-!
# Traces of a transition system

A trace from a state lists the labels taken and the states reached. The same definition, at another relation, says that
every step of a trace meets a condition.

* `Trace.invariant`: what every step preserves holds all along.
* `Trace.always_iff_of_breaks`, `Trace.always_iff`: a property that a step keeps exactly under a condition holds all
  along iff every step meets the condition.
* `exec_invariant`, `exec_invariant_of_meets`: what one step preserves holds after executing a list of labels.
* `exec_trace`, `exec_shows`: executing a list of labels is a trace, and what can be decided of its last state.
-/

namespace Lib

open Option

variable {σ α : Type*}

/-- `es` lists the labels and the states of a run from `x`. -/
def Trace (step : σ → α → σ → Prop) : σ → List (α × σ) → Prop
  | _, [] => True
  | x, (a, y) :: es => step x a y ∧ Trace step y es

variable {step : σ → α → σ → Prop} {ok : σ → α → Prop} {I P : σ → Prop}

variable {step' : σ → α → σ → Prop}

theorem Trace.imp (h : ∀ x a y, step x a y → step' x a y) : ∀ {x : σ} {es : List (α × σ)},
    Trace step x es → Trace step' x es
  | _, [], _ => trivial
  | _, _ :: _, ht => ⟨h _ _ _ ht.1, ht.2.imp h⟩

theorem Trace.and : ∀ {x : σ} {es : List (α × σ)}, Trace step x es → Trace step' x es →
    Trace (fun x a y => step x a y ∧ step' x a y) x es
  | _, [], _, _ => trivial
  | _, _ :: _, h, h' => ⟨⟨h.1, h'.1⟩, h.2.and h'.2⟩

/-- **Invariants**: what one step preserves holds along every trace. -/
theorem Trace.invariant (hstep : ∀ x a y, I x → step x a y → I y) : ∀ {x : σ} {es : List (α × σ)},
    Trace step x es → I x → ∀ e ∈ es, I e.2
  | _, [], _, _ => by simp
  | x, (a, y) :: es, h, hx => by
    have hy : I y := hstep x a y hx h.1
    exact List.forall_mem_cons.mpr ⟨hy, Trace.invariant hstep h.2 hy⟩

/-- An invariant holds in every state that a trace reaches. -/
theorem Trace.reached (hstep : ∀ x a y, I x → step x a y → I y) {x c : σ} {es : List (α × σ)}
    (h : Trace step x es) (hx : I x) (hc : c = x ∨ ∃ e ∈ es, c = e.2) : I c := by
  rcases hc with rfl | ⟨e, he, rfl⟩
  · exact hx
  · exact h.invariant hstep hx e he

/-- **Exact conditions**: when a step that meets `ok` keeps the invariant, and one that does not breaks `P`, a trace
keeps `P` iff all its steps meet `ok`. -/
theorem Trace.always_iff_of_breaks (hI : ∀ x a y, I x → step x a y → ok x a → I y) (hP : ∀ x, I x → P x)
    (hbad : ∀ x a y, I x → step x a y → ¬ok x a → ¬P y) : ∀ {x : σ} {es : List (α × σ)},
    Trace step x es → I x → ((∀ e ∈ es, P e.2) ↔ Trace (fun x a _ => ok x a) x es)
  | _, [], _, _ => by simp [Trace]
  | x, (a, y) :: es, h, hx => by
    by_cases hok : ok x a
    · have hy : I y := hI x a y hx h.1 hok
      have ih := Trace.always_iff_of_breaks hI hP hbad h.2 hy
      constructor
      · exact fun hall => ⟨hok, ih.mp fun e he => hall e (by simp [he])⟩
      · exact fun hrest => List.forall_mem_cons.mpr ⟨hP y hy, ih.mpr hrest.2⟩
    · exact ⟨fun hall => absurd (hall (a, y) (by simp)) (hbad x a y hx h.1 hok), fun hrest => absurd hrest.1 hok⟩

/-- When a step keeps `P` iff it meets `ok`, a trace keeps `P` iff all its steps meet `ok`. -/
theorem Trace.always_iff (hI : ∀ x a y, I x → step x a y → I y)
    (hP : ∀ x a y, I x → P x → step x a y → (P y ↔ ok x a)) {x : σ} {es : List (α × σ)} (h : Trace step x es) (hx : I x)
    (hpx : P x) : (∀ e ∈ es, P e.2) ↔ Trace (fun x a _ => ok x a) x es := by
  refine Trace.always_iff_of_breaks (I := fun x => I x ∧ P x) ?_ (fun _ h => h.2) ?_ h ⟨hx, hpx⟩
  · exact fun x a y hx hstep hok => ⟨hI x a y hx.1 hstep, (hP x a y hx.1 hx.2 hstep).mpr hok⟩
  · exact fun x a y hx hstep hok hy => hok ((hP x a y hx.1 hx.2 hstep).mp hy)

/-- Executes a list of labels, as long as there is a next state. -/
def exec (f : σ → α → Option σ) : σ → List α → Option σ
  | x, [] => some x
  | x, a :: as => (f x a).bind (exec f · as)

/-- Every step of an execution meets a condition. -/
def Meets (f : σ → α → Option σ) (ok : σ → α → Prop) : σ → List α → Prop
  | _, [] => True
  | x, a :: as => ok x a ∧ ∀ y, f x a = some y → Meets f ok y as

variable {f : σ → α → Option σ}

/-- **Invariants under a condition**: what a step preserves if it meets the condition holds after every execution whose
steps all meet it. -/
theorem exec_invariant_of_meets (hI : ∀ x a y, I x → ok x a → f x a = some y → I y) :
    ∀ {as : List α} {x y : σ}, exec f x as = some y → Meets f ok x as → I x → I y
  | [], _, _, h, _, hx => Option.some.inj h ▸ hx
  | a :: _, x, _, h, hok, hx => by
    obtain ⟨z, hz, h⟩ := bind_eq_some_iff.mp h
    exact exec_invariant_of_meets hI h (hok.2 z hz) (hI x a z hx hok.1 hz)

/-- What an invariant says about the next step holds of every step that meets the condition. -/
theorem Meets.imp_of_invariant {ok' : σ → α → Prop} (h : ∀ x a, I x → ok x a → ok' x a ∧ ∀ y, f x a = some y → I y) :
    ∀ {as : List α} {x : σ}, Meets f ok x as → I x → Meets f ok' x as
  | [], _, _, _ => trivial
  | a :: _, x, hm, hx =>
    ⟨(h x a hx hm.1).1, fun y hy => Meets.imp_of_invariant h (hm.2 y hy) ((h x a hx hm.1).2 y hy)⟩

/-- What one step preserves holds after every execution. -/
theorem exec_invariant (hI : ∀ x a y, I x → f x a = some y → I y) : ∀ {as : List α} {x y : σ},
    exec f x as = some y → I x → I y
  | [], _, _, h, hx => Option.some.inj h ▸ hx
  | a :: _, x, _, h, hx => by
    obtain ⟨z, hz, h⟩ := bind_eq_some_iff.mp h
    exact exec_invariant hI h (hI x a z hx hz)

theorem exec_append : ∀ (as bs : List α) (x : σ),
    exec f x (as ++ bs) = (exec f x as).bind fun y => exec f y bs
  | [], _, _ => rfl
  | a :: as, bs, x => by
    show (f x a).bind _ = ((f x a).bind _).bind _
    rw [bind_assoc]
    exact bind_congr fun y _ => exec_append as bs y

theorem last_reached (x : σ) (es : List (α × σ)) :
    (es.map Prod.snd).getLastD x = x ∨ ∃ e ∈ es, (es.map Prod.snd).getLastD x = e.2 := by
  rcases List.eq_nil_or_concat es with rfl | ⟨es', e, rfl⟩
  · exact .inl rfl
  · exact .inr ⟨e, by simp, by simp⟩

/-- Executing a list of labels is a trace of these labels. -/
theorem exec_trace : ∀ {as : List α} {x y : σ}, exec f x as = some y →
    ∃ es, Trace (fun x a y => f x a = some y) x es ∧ es.map Prod.fst = as ∧ (es.map Prod.snd).getLastD x = y
  | [], _, _, h => ⟨[], trivial, rfl, Option.some.inj h⟩
  | a :: as, x, y, h => by
    obtain ⟨z, hz, h⟩ := bind_eq_some_iff.mp h
    obtain ⟨es, hes, hlabels, hlast⟩ := exec_trace h
    refine ⟨(a, z) :: es, ⟨hz, hes⟩, by rw [List.map_cons, hlabels], ?_⟩
    rw [List.map_cons, List.getLastD_cons]
    exact hlast

theorem exists_of_any {o : Option σ} [DecidablePred P] (h : o.any (fun x => decide (P x)) = true) :
    ∃ x, o = some x ∧ P x := by
  obtain ⟨x, hx, hP⟩ := (any_eq_true ..).mp h
  exact ⟨x, hx, of_decide_eq_true hP⟩

/-- What can be decided of the last state of an execution, as a trace. -/
theorem exec_shows [DecidablePred P] (hstep : ∀ x a y, f x a = some y → step x a y) {x : σ} {as : List α}
    (h : (exec f x as).any (fun y => decide (P y)) = true) :
    ∃ es y, Trace step x es ∧ es.map Prod.fst = as ∧ (es.map Prod.snd).getLastD x = y ∧ P y := by
  obtain ⟨y, hy, hP⟩ := exists_of_any h
  obtain ⟨es, hes, hlabels, hlast⟩ := exec_trace hy
  exact ⟨es, y, hes.imp hstep, hlabels, hlast, hP⟩

end Lib
