import OpenSer.Lib.Traces

/-!
# Clients of an allocator

`mem.h` puts one interface over the allocators of the server. A client of such an interface allocates, frees and
resizes, and writes into what it holds; it frees and resizes only pointers it was given and has not given back.

* `exec_done`: the calls by what they come down to.
* `runCalls_trace`: executing valid calls one after the other is a trace of `Step`.
-/

namespace OpenSer.Mem

open Option

/-- The interface of an allocator with heaps `H`: its functions, the size of the payload behind a pointer, and a write
of one word. A call that does not return is `none`. -/
structure Allocator (H : Type) where
  malloc : H → Nat → Option (H × Nat)
  free : H → Nat → Option H
  realloc : H → Nat → Nat → Option (H × Nat)
  payload : H → Nat → Nat
  write : H → Nat → Nat → H

inductive Call where
  | malloc (size : Nat)
  | free (p : Nat)
  | realloc (p size : Nat)
  | write (a v : Nat)
  deriving Repr, DecidableEq

/-- A heap and the pointers its client holds. -/
structure Client (H : Type) where
  heap : H
  live : List Nat

variable {H : Type} {A : Allocator H}

/-- The pointers held after `realloc(p, size)` returned `q`. -/
def reallocated (live : List Nat) (p q size : Nat) : List Nat :=
  if size = 0 then live.erase p else if q = 0 then live else q :: live.erase p

/-- A client frees and resizes only what it holds, and writes only into that. -/
def Valid (A : Allocator H) (c : Client H) : Call → Prop
  | .malloc _ => True
  | .free p => p ∈ c.live
  | .realloc p _ => p = 0 ∨ p ∈ c.live
  | .write a _ => ∃ p ∈ c.live, p ≤ a ∧ a < p + A.payload c.heap p

instance (A : Allocator H) (c : Client H) : DecidablePred (Valid A c)
  | .malloc _ => inferInstanceAs (Decidable True)
  | .free p => inferInstanceAs (Decidable (p ∈ c.live))
  | .realloc p _ => inferInstanceAs (Decidable (p = 0 ∨ p ∈ c.live))
  | .write a _ => inferInstanceAs (Decidable (∃ p ∈ c.live, p ≤ a ∧ a < p + A.payload c.heap p))

def exec (A : Allocator H) (c : Client H) : Call → Option (Client H)
  | .malloc size => (A.malloc c.heap size).map fun (h, p) => ⟨h, if p = 0 then c.live else p :: c.live⟩
  | .free p => (A.free c.heap p).map fun h => ⟨h, c.live.erase p⟩
  | .realloc p size => (A.realloc c.heap p size).map fun (h, q) => ⟨h, reallocated c.live p q size⟩
  | .write a v => some ⟨A.write c.heap a v, c.live⟩

/-- The call comes down to `malloc(size)`. -/
def Call.Allocs : Call → Nat → Prop
  | .malloc s, size => s = size
  | .realloc p s, size => p = 0 ∧ s ≠ 0 ∧ s = size
  | _, _ => False

/-- The call comes down to `free(p)`. -/
def Call.Frees : Call → Nat → Prop
  | .free q, p => q = p
  | .realloc q s, p => s = 0 ∧ q = p
  | _, _ => False

/-- What every `realloc` does with a null pointer or with size 0. -/
structure ReallocSpec (A : Allocator H) : Prop where
  null : ∀ h size, size ≠ 0 → A.realloc h 0 size = A.malloc h size
  zero : ∀ h p, p ≠ 0 → A.realloc h p 0 = (A.free h p).map (·, 0)
  idle : ∀ h, A.realloc h 0 0 = some (h, 0)

/-- **The calls by what they do.** A call returns with the heap and the pointers related by `D` if allocating,
releasing, resizing a pointer the client holds, writing into a payload and doing nothing do. -/
theorem exec_done (hA : ReallocSpec A) {c : Client H} {call : Call} (D : H → List Nat → Prop)
    (hzero : 0 ∉ c.live) (hv : Valid A c call) (hmalloc : ∀ size, call.Allocs size →
      ∃ h q, A.malloc c.heap size = some (h, q) ∧ D h (if q = 0 then c.live else q :: c.live))
    (hfree : ∀ p, call.Frees p → p ∈ c.live → ∃ h, A.free c.heap p = some h ∧ D h (c.live.erase p))
    (hresize : ∀ p size, call = .realloc p size → p ∈ c.live → size ≠ 0 →
      ∃ h q, A.realloc c.heap p size = some (h, q) ∧ D h (if q = 0 then c.live else q :: c.live.erase p))
    (hwrite : ∀ a v p, call = .write a v → p ∈ c.live → p ≤ a → a < p + A.payload c.heap p →
      D (A.write c.heap a v) c.live) (hidle : call = .realloc 0 0 → D c.heap c.live) :
    ∃ c', exec A c call = some c' ∧ D c'.heap c'.live := by
  cases call with
  | malloc size =>
    obtain ⟨h, q, he, hd⟩ := hmalloc size rfl
    exact ⟨⟨h, if q = 0 then c.live else q :: c.live⟩, by rw [exec, he, map_some], hd⟩
  | free p =>
    obtain ⟨h, he, hd⟩ := hfree p rfl hv
    exact ⟨⟨h, c.live.erase p⟩, by rw [exec, he, map_some], hd⟩
  | write a v =>
    obtain ⟨p, hp, ha, ha'⟩ := hv
    exact ⟨_, rfl, hwrite a v p rfl hp ha ha'⟩
  | realloc p size =>
    suffices hres : ∃ h q, A.realloc c.heap p size = some (h, q) ∧ D h (reallocated c.live p q size) by
      obtain ⟨h, q, he, hd⟩ := hres
      exact ⟨⟨h, reallocated c.live p q size⟩, by rw [exec, he, map_some], hd⟩
    unfold reallocated
    by_cases hsize : size = 0
    · subst hsize
      rcases hv with rfl | hp
      · refine ⟨c.heap, 0, hA.idle _, ?_⟩
        rw [List.erase_of_not_mem hzero]
        exact hidle rfl
      · obtain ⟨h, he, hd⟩ := hfree p ⟨rfl, rfl⟩ hp
        have hp0 : p ≠ 0 := ne_of_mem_of_not_mem hp hzero
        exact ⟨h, 0, by rw [hA.zero _ _ hp0, he, map_some], hd⟩
    · simp only [if_neg hsize]
      rcases hv with rfl | hp
      · obtain ⟨h, q, he, hd⟩ := hmalloc size ⟨rfl, hsize, rfl⟩
        refine ⟨h, q, by rw [hA.null _ _ hsize, he], ?_⟩
        rw [List.erase_of_not_mem hzero]
        exact hd
      · exact hresize p size rfl hp hsize

def Step (A : Allocator H) (c : Client H) (call : Call) (c' : Client H) : Prop :=
  Valid A c call ∧ exec A c call = some c'

def runCalls (A : Allocator H) : Client H → List Call → Option (Client H)
  | c, [] => some c
  | c, call :: calls => if Valid A c call then (exec A c call).bind (runCalls A · calls) else none

/-- Running a list of calls is a trace of these calls. -/
theorem runCalls_trace : ∀ {calls : List Call} {c c' : Client H}, runCalls A c calls = some c' →
    ∃ es, Lib.Trace (Step A) c es ∧ es.map Prod.fst = calls ∧ (es.map Prod.snd).getLastD c = c'
  | [], c, c', h => ⟨[], trivial, rfl, Option.some.inj h⟩
  | call :: calls, c, c', h => by
    rw [runCalls] at h
    split at h
    · rename_i hv
      obtain ⟨c₁, h1, h2⟩ := bind_eq_some_iff.mp h
      obtain ⟨es, hes, hcalls, hlast⟩ := runCalls_trace h2
      refine ⟨(call, c₁) :: es, ⟨⟨hv, h1⟩, hes⟩, by rw [List.map_cons, hcalls], ?_⟩
      rw [List.map_cons, List.getLastD_cons]
      exact hlast
    · cases h

theorem runCalls_reached {calls : List Call} {c c' : Client H} (h : runCalls A c calls = some c') :
    ∃ es, Lib.Trace (Step A) c es ∧ (c' = c ∨ ∃ e ∈ es, c' = e.2) := by
  obtain ⟨es, hrun, -, hlast⟩ := runCalls_trace h
  exact ⟨es, hrun, hlast ▸ Lib.last_reached c es⟩

theorem runCalls_shows {init : Option H} {calls : List Call} {P : Client H → Prop} [DecidablePred P]
    (h : (init.any fun s => (runCalls A ⟨s, []⟩ calls).any fun c => decide (P c)) = true) :
    ∃ s es, init = some s ∧ Lib.Trace (Step A) ⟨s, []⟩ es ∧ es.map Prod.fst = calls ∧
      ∃ c, (es.map Prod.snd).getLastD ⟨s, []⟩ = c ∧ P c := by
  obtain ⟨s, hs, h⟩ := (any_eq_true ..).mp h
  obtain ⟨c, hc, hP⟩ := Lib.exists_of_any h
  obtain ⟨es, hes, hcalls, hlast⟩ := runCalls_trace hc
  exact ⟨s, es, hs, hes, hcalls, c, hlast, hP⟩

end OpenSer.Mem
