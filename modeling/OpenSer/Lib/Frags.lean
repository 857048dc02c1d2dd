import Mathlib.Data.List.TakeWhile
import OpenSer.Lib.Links

/-!
# Fragmented memory

A stretch of memory cut into fragments, each a header of `oh` bytes and a payload. `Tiled oh a fs e` says that the
fragments of `fs` cover the addresses from `a` to `e` exactly, in order. A fragment can be marked free, split and joined
with the one behind it.

* `Tiled.pairwise`: the fragments are disjoint.
* `Tiled.mark`, `Tiled.split`, `Tiled.join`: the three edits keep the tiling.
* `Tiled.total`: the extent is the headers plus the used and the free payloads.
* `usedPtrs_take`, `usedPtrs_release`, `usedPtrs_resize`: what the edits do to the pointers in use.
* `Tiled.walkFrags_live`: stepping from header to header finds every fragment.
-/

namespace Lib

open List Function Nat

/-- A fragment: its address, the size of its payload, and whether it is free. -/
structure Frag where
  addr : Nat
  size : Nat
  free : Bool
  deriving Repr, DecidableEq

/-- The fragments cover the addresses from `a` to `e`, in order and without a gap. -/
def Tiled (oh : Nat) : Nat → List Frag → Nat → Prop
  | a, [], e => a = e
  | a, f :: fs, e => f.addr = a ∧ Tiled oh (a + oh + f.size) fs e

/-- The address lies in the payload of the fragment. -/
def Frag.Holds (oh : Nat) (f : Frag) (a : Nat) : Prop := f.addr + oh ≤ a ∧ a < f.addr + oh + f.size

def freeSize (fs : List Frag) : Nat := ((fs.filter fun f => f.free).map Frag.size).sum

def usedSize (fs : List Frag) : Nat := ((fs.filter fun f => !f.free).map Frag.size).sum

variable {oh a e : Nat} {l r fs : List Frag} {f g n : Frag} {live : List Nat} {xs : List Nat} (b : Bool)

theorem tiled_append : ∀ {a : Nat} {l : List Frag},
    Tiled oh a (l ++ r) e ↔ ∃ m, Tiled oh a l m ∧ Tiled oh m r e
  | a, [] => by simp [Tiled]
  | a, f :: l => by
    simp only [cons_append, Tiled, tiled_append]
    constructor
    · rintro ⟨h1, m, h2, h3⟩
      exact ⟨m, ⟨h1, h2⟩, h3⟩
    · rintro ⟨m, ⟨h1, h2⟩, h3⟩
      exact ⟨h1, m, h2, h3⟩

theorem Tiled.le : ∀ {a : Nat} {fs : List Frag}, Tiled oh a fs e → a ≤ e
  | _, [], h => Nat.le_of_eq h
  | _, f :: fs, h => by have := Tiled.le h.2; omega

theorem Tiled.bounds (h : Tiled oh a fs e) (hf : f ∈ fs) : a ≤ f.addr ∧ f.addr + oh + f.size ≤ e := by
  obtain ⟨l, r, rfl⟩ := append_of_mem hf
  obtain ⟨m, h1, h2, h3⟩ := tiled_append.mp h
  subst h2
  exact ⟨h1.le, h3.le⟩

/-- **Fragments do not overlap**: each one ends before the next ones start. -/
theorem Tiled.pairwise : ∀ {a : Nat} {fs : List Frag}, Tiled oh a fs e →
    fs.Pairwise fun f g => f.addr + oh + f.size ≤ g.addr
  | _, [], _ => List.Pairwise.nil
  | a, f :: fs, h => by
    obtain ⟨rfl, h2⟩ := h
    exact pairwise_cons.mpr ⟨fun g hg => (h2.bounds hg).1, h2.pairwise⟩

section
variable (h : Tiled oh a fs e)
include h

theorem Tiled.disjoint (hf : f ∈ fs) (hg : g ∈ fs) (hne : f.addr ≠ g.addr) :
    f.addr + oh + f.size ≤ g.addr ∨ g.addr + oh + g.size ≤ f.addr := by
  obtain ⟨l, r, rfl⟩ := append_of_mem hf
  obtain ⟨-, hcons, hcross⟩ := pairwise_append.mp h.pairwise
  rcases mem_append.mp hg with hg | hg
  · exact .inr (hcross g hg f (by simp))
  · rcases mem_cons.mp hg with rfl | hg
    · exact absurd rfl hne
    · exact .inl ((pairwise_cons.mp hcons).1 g hg)

theorem Tiled.holds_outside {x : Nat} (hf : f ∈ fs) (hg : g ∈ fs) (hne : f.addr ≠ g.addr)
    (hx : f.Holds oh x) : x < g.addr ∨ g.addr + oh + g.size ≤ x := by
  obtain ⟨hlo, hhi⟩ := hx
  rcases h.disjoint hf hg hne with hle | hle
  · exact .inl (by omega)
  · exact .inr (by omega)

theorem Tiled.nodup (hoh : 0 < oh) : (fs.map Frag.addr).Nodup := by
  rw [List.Nodup, pairwise_map]
  refine h.pairwise.imp fun {f g} hfg => ?_
  omega

theorem Tiled.eq_of_addr (hoh : 0 < oh) (hf : f ∈ fs) (hg : g ∈ fs) (he : f.addr = g.addr) :
    f = g :=
  inj_on_of_nodup_map (h.nodup hoh) hf hg he

end

theorem Tiled.length_le : ∀ {a : Nat} {fs : List Frag}, Tiled oh a fs e → a + oh * fs.length ≤ e
  | _, [], h => Nat.le_of_eq h
  | a, f :: fs, h => by
    have := Tiled.length_le h.2
    simp only [length_cons, mul_add]
    omega

theorem Tiled.mark (h : Tiled oh a (l ++ f :: r) e) : Tiled oh a (l ++ { f with free := b } :: r) e := by
  obtain ⟨m, h1, h2⟩ := tiled_append.mp h
  exact tiled_append.mpr ⟨m, h1, h2⟩

/-- A fragment is cut in two; the new header comes out of its payload. -/
theorem Tiled.split {size rest : Nat} (h : Tiled oh a (l ++ f :: r) e) (hs : f.size = size + oh + rest) :
    Tiled oh a (l ++ { f with size := size } :: ⟨f.addr + oh + size, rest, b⟩ :: r) e := by
  obtain ⟨m, h1, h2, h3⟩ := tiled_append.mp h
  refine tiled_append.mpr ⟨m, h1, h2, ?_, ?_⟩
  · rw [← h2]
  · convert h3 using 1
    dsimp only
    omega

theorem Tiled.join (h : Tiled oh a (l ++ f :: n :: r) e) :
    Tiled oh a (l ++ { f with size := f.size + oh + n.size } :: r) e := by
  obtain ⟨m, h1, h2, h3, h4⟩ := tiled_append.mp h
  refine tiled_append.mpr ⟨m, h1, h2, ?_⟩
  convert h4 using 1
  dsimp only
  omega

theorem Tiled.others_ne (h : Tiled oh a (l ++ f :: r) e) (hoh : 0 < oh) (hg : g ∈ l ++ r) : g.addr ≠ f.addr := by
  have hnd := h.nodup hoh
  rw [map_append, map_cons, nodup_middle, nodup_cons, ← map_append] at hnd
  exact fun he => hnd.1 (he ▸ mem_map_of_mem hg)

/-- What was cut from a free fragment stays when a fragment in use is marked. -/
theorem Tiled.mem_mark {g' : Frag} (h : Tiled oh a fs e) (hoh : 0 < oh) (hg : g ∈ fs) (hgfree : g.free = true)
    (hf : f ∈ fs) (hfused : f.free = false) (haddr : g'.addr = g.addr) (hg' : g' ∈ l ++ f :: r) :
    g' ∈ l ++ { f with free := b } :: r := by
  refine mem_middle.mpr (.inr ((mem_middle.mp hg').resolve_left fun heq => ?_))
  rw [heq] at haddr
  rw [h.eq_of_addr hoh hf hg haddr, hgfree] at hfused
  cases hfused

/-- The free fragments of a size class after one fragment was marked. -/
theorem Tiled.exists_free_mark {cls : Nat → Nat} {k x : Nat} (h : Tiled oh a (l ++ f :: r) e) (hoh : 0 < oh) :
    (∃ g ∈ l ++ { f with free := b } :: r, g.addr = x ∧ g.free = true ∧ cls g.size = k) ↔
      (b = true ∧ x = f.addr ∧ cls f.size = k) ∨
        (x ≠ f.addr ∧ ∃ g ∈ l ++ f :: r, g.addr = x ∧ g.free = true ∧ cls g.size = k) := by
  constructor
  · rintro ⟨g, hg, rfl, hfree, hk⟩
    rcases mem_middle.mp hg with rfl | hg
    · exact .inl ⟨hfree, rfl, hk⟩
    · exact .inr ⟨h.others_ne hoh hg, g, mem_middle.mpr (.inr hg), rfl, hfree, hk⟩
  · rintro (⟨hb, rfl, hk⟩ | ⟨hne, g, hg, rfl, hfree, hk⟩)
    · exact ⟨{ f with free := b }, mem_middle.mpr (.inl rfl), rfl, hb, hk⟩
    · rcases mem_middle.mp hg with rfl | hg
      · exact absurd rfl hne
      · exact ⟨g, mem_middle.mpr (.inr hg), rfl, hfree, hk⟩

theorem Tiled.next_addr (h : Tiled oh a (l ++ f :: n :: r) e) : n.addr = f.addr + oh + f.size := by
  obtain ⟨m, -, h2, h3, -⟩ := tiled_append.mp h
  rw [h3, h2]

theorem Tiled.last_end (h : Tiled oh a (l ++ [f]) e) : f.addr + oh + f.size = e := by
  obtain ⟨m, -, h2, h3⟩ := tiled_append.mp h
  rw [h2]
  exact h3

theorem freeSize_append : freeSize (l ++ r) = freeSize l + freeSize r := by simp [freeSize]

theorem usedSize_append : usedSize (l ++ r) = usedSize l + usedSize r := by simp [usedSize]

theorem freeSize_cons : freeSize (f :: fs) = (if f.free then f.size else 0) + freeSize fs := by
  cases h : f.free <;> simp [freeSize, h]

theorem usedSize_cons : usedSize (f :: fs) = (if f.free then 0 else f.size) + usedSize fs := by
  cases h : f.free <;> simp [usedSize, h]

/-- The extent of the stretch: its headers and its payloads. -/
theorem Tiled.total : ∀ {a : Nat} {fs : List Frag}, Tiled oh a fs e →
    a + oh * fs.length + usedSize fs + freeSize fs = e
  | _, [], h => by
    have ha : _ = e := h
    simpa [usedSize, freeSize] using ha
  | a, f :: fs, h => by
    have := Tiled.total h.2
    rw [usedSize_cons, freeSize_cons, length_cons, mul_add]
    cases f.free <;> simp <;> omega

/-! ## The pointers in use -/

/-- The addresses of the payloads in use. -/
def usedPtrs (oh : Nat) (fs : List Frag) : List Nat := (fs.filter fun f => !f.free).map fun f => f.addr + oh

theorem usedPtrs_append : usedPtrs oh (l ++ r) = usedPtrs oh l ++ usedPtrs oh r := by simp [usedPtrs]

theorem usedPtrs_cons_free (h : f.free = true) : usedPtrs oh (f :: fs) = usedPtrs oh fs := by simp [usedPtrs, h]

theorem usedPtrs_cons_used (h : f.free = false) : usedPtrs oh (f :: fs) = (f.addr + oh) :: usedPtrs oh fs := by
  simp [usedPtrs, h]

theorem usedPtrs_eq_nil (h : ∀ f ∈ fs, f.free = true) : usedPtrs oh fs = [] := by
  simp only [usedPtrs, map_eq_nil_iff, filter_eq_nil_iff]
  intro f hf
  simp [h f hf]

theorem mem_usedPtrs {p : Nat} : p ∈ usedPtrs oh fs ↔ ∃ f ∈ fs, f.free = false ∧ f.addr + oh = p := by
  simp [usedPtrs, and_assoc]

theorem Tiled.nodup_usedPtrs (h : Tiled oh a fs e) (hoh : 0 < oh) : (usedPtrs oh fs).Nodup := by
  have hsub : ((fs.filter fun f => !f.free).map Frag.addr).Nodup :=
    (h.nodup hoh).sublist (filter_sublist.map Frag.addr)
  have hmap : usedPtrs oh fs = ((fs.filter fun f => !f.free).map Frag.addr).map (· + oh) := by
    rw [map_map]
    rfl
  rw [hmap]
  exact hsub.map fun _ _ hxy => add_right_cancel hxy

/-- A free fragment is taken into use, possibly without the fragments `rest` cut off it. -/
theorem usedPtrs_take {rest : List Frag} (h : live.Perm (usedPtrs oh (l ++ f :: r)))
    (hf : f.free = true) (hg : g.free = false) (ha : g.addr = f.addr) (hrest : ∀ x ∈ rest, x.free = true) :
    ((f.addr + oh) :: live).Perm (usedPtrs oh (l ++ (g :: rest ++ r))) := by
  rw [usedPtrs_append, usedPtrs_cons_free hf] at h
  rw [usedPtrs_append, cons_append, usedPtrs_cons_used hg, usedPtrs_append, usedPtrs_eq_nil hrest, ha]
  exact (h.cons _).trans perm_middle.symm

theorem usedPtrs_release (h : live.Perm (usedPtrs oh (l ++ f :: r))) (hf : f.free = false)
    (hg : g.free = true) : (live.erase (f.addr + oh)).Perm (usedPtrs oh (l ++ g :: r)) := by
  rw [usedPtrs_append, usedPtrs_cons_used hf] at h
  rw [usedPtrs_append, usedPtrs_cons_free hg]
  have hmid := (h.trans perm_middle).erase (f.addr + oh)
  rwa [erase_cons_head] at hmid

/-- A fragment in use is resized; the fragments `rest` and `rest'` behind it are free. -/
theorem usedPtrs_resize (rest rest' : List Frag) (hf : f.free = false) (hg : g.free = false) (ha : g.addr = f.addr)
    (hrest : ∀ x ∈ rest, x.free = true) (hrest' : ∀ x ∈ rest', x.free = true) :
    usedPtrs oh (l ++ (g :: rest' ++ r)) = usedPtrs oh (l ++ (f :: rest ++ r)) := by
  simp only [usedPtrs_append, cons_append, usedPtrs_cons_used hf, usedPtrs_cons_used hg, usedPtrs_eq_nil hrest,
    usedPtrs_eq_nil hrest', ha]

/-! ## Walking the headers -/

/-- The fragments found by stepping from header to header, from `a` up to `e`. -/
def walkFrags (oh : Nat) (size : Nat → Nat) (free : Nat → Bool) (e : Nat) : Nat → Nat → List Frag
  | 0, _ => []
  | fuel + 1, a => if a < e then ⟨a, size a, free a⟩ :: walkFrags oh size free e fuel (a + oh + size a) else []

theorem Tiled.walkFrags_eq {size : Nat → Nat} {free : Nat → Bool} (hoh : 0 < oh) : ∀ {a fuel : Nat} {fs : List Frag},
    Tiled oh a fs e → (∀ f ∈ fs, size f.addr = f.size ∧ free f.addr = f.free) → fs.length ≤ fuel →
    walkFrags oh size free e fuel a = fs
  | _, 0, [], _, _, _ => rfl
  | a, fuel + 1, [], h, _, _ => by
    have ha : ¬a < e := not_lt.mpr (le_of_eq (Eq.symm h))
    rw [walkFrags, if_neg ha]
  | a, fuel + 1, f :: fs, h, hread, hlen => by
    obtain ⟨rfl, htail⟩ := h
    have hlt : f.addr < e := by have := htail.le; omega
    obtain ⟨hsize, hfree⟩ := hread f (by simp)
    rw [walkFrags, if_pos hlt, hsize, hfree, Tiled.walkFrags_eq hoh htail (fun g hg => hread g (by simp [hg]))
      (by simpa using hlen)]

/-- Walking the headers finds the fragments, and the free ones are those nobody holds a pointer to. -/
theorem Tiled.walkFrags_live {size : Nat → Nat} {p fuel : Nat} (hoh : 0 < oh) (h : Tiled oh a fs e)
    (hsize : ∀ f ∈ fs, size f.addr = f.size) (hl : live.Perm (usedPtrs p fs)) (hlen : fs.length ≤ fuel) :
    walkFrags oh size (fun x => x + p ∉ live) e fuel a = fs := by
  refine h.walkFrags_eq hoh (fun f hf => ⟨hsize f hf, ?_⟩) hlen
  cases hfree : f.free with
  | false =>
    have hmem : f.addr + p ∈ live := hl.mem_iff.mpr (mem_usedPtrs.mpr ⟨f, hf, hfree, rfl⟩)
    simpa using hmem
  | true =>
    have hmem : f.addr + p ∉ live := by
      intro hc
      obtain ⟨g, hg, hused, he⟩ := mem_usedPtrs.mp (hl.mem_iff.mp hc)
      rw [h.eq_of_addr hoh hg hf (add_right_cancel he), hfree] at hused
      cases hused
    simpa using hmem

theorem exists_of_live {p x : Nat} (hl : live.Perm (usedPtrs p fs)) (hx : x ∈ live) :
    ∃ l f r, fs = l ++ f :: r ∧ f.free = false ∧ x = f.addr + p := by
  obtain ⟨f, hf, hused, rfl⟩ := mem_usedPtrs.mp (hl.mem_iff.mp hx)
  obtain ⟨l, r, rfl⟩ := append_of_mem hf
  exact ⟨l, f, r, rfl, hused, rfl⟩

/-! ## Buckets -/

/-- Each bucket has the free fragments of its class. -/
def Buckets (cls : Nat → Nat) (fs : List Frag) (bk : Nat → List Nat) : Prop :=
  ∀ k x, x ∈ bk k ↔ ∃ f ∈ fs, f.addr = x ∧ f.free = true ∧ cls f.size = k

section Buckets
variable {cls : Nat → Nat} {bk : Nat → List Nat} {k x : Nat} {pre post : List Nat}

theorem Buckets.of_mem (hb : Buckets cls fs bk) (h : Tiled oh a fs e) (hoh : 0 < oh) (hf : f ∈ fs)
    (hx : f.addr ∈ bk k) : f.free = true ∧ cls f.size = k := by
  obtain ⟨g, hg, he, hfree, hk⟩ := (hb k _).mp hx
  rw [h.eq_of_addr hoh hg hf he] at hfree hk
  exact ⟨hfree, hk⟩

/-- **A fragment enters or leaves the bucket of its class.** -/
theorem Buckets.mark {hash : Nat} (hb : Buckets cls (l ++ f :: r) bk)
    (h : Tiled oh a (l ++ f :: r) e) (hoh : 0 < oh) (hhash : cls f.size = hash)
    (hxs : ∀ x, x ∈ xs ↔ (b = true ∧ x = f.addr) ∨ (x ≠ f.addr ∧ x ∈ bk hash)) :
    Buckets cls (l ++ { f with free := b } :: r) (update bk hash xs) := by
  refine (forall_update_iff bk fun k xs => ∀ x, x ∈ xs ↔ ∃ g ∈ l ++ { f with free := b } :: r,
    g.addr = x ∧ g.free = true ∧ cls g.size = k).mpr ⟨fun x => ?_, fun k hk x => ?_⟩
  · rw [hxs, h.exists_free_mark b hoh, ← hb hash x]
    simp only [hhash, and_true]
  · rw [h.exists_free_mark b hoh, ← hb k x]
    constructor
    · intro hx
      refine .inr ⟨?_, hx⟩
      rintro rfl
      exact hk ((hb.of_mem h hoh (by simp) hx).2.symm.trans hhash)
    · rintro (⟨-, -, hc⟩ | ⟨-, hx⟩)
      · exact absurd (hc.symm.trans hhash) hk
      · exact hx

theorem mem_linkIn (y : Nat) :
    y ∈ pre ++ x :: post ↔ (true = true ∧ y = x) ∨ (y ≠ x ∧ y ∈ pre ++ post) := by
  by_cases hy : y = x
  · simp [hy]
  · simp [hy]

theorem mem_linkOut (h : x ∉ pre ++ post) (y : Nat) :
    y ∈ pre ++ post ↔ (false = true ∧ y = x) ∨ (y ≠ x ∧ y ∈ pre ++ x :: post) := by
  by_cases hy : y = x
  · simpa [hy] using h
  · simp [hy]

theorem mem_outer {m : List Frag} : g ∈ l ++ (m ++ r) ↔ g ∈ m ∨ g ∈ l ++ r := by
  simp only [mem_append]
  tauto

/-- The free fragments of a size class stay when a stretch of fragments in use is cut anew. -/
theorem exists_free_recut {m : List Frag} (m' : List Frag) (hm : ∀ f ∈ m, f.free = false)
    (h : ∃ g ∈ l ++ (m ++ r), g.addr = x ∧ g.free = true ∧ cls g.size = k) :
    ∃ g ∈ l ++ (m' ++ r), g.addr = x ∧ g.free = true ∧ cls g.size = k := by
  obtain ⟨g, hg, he, hfree, hk⟩ := h
  refine ⟨g, mem_outer.mpr (.inr ?_), he, hfree, hk⟩
  rcases mem_outer.mp hg with hg | hg
  · rw [hm g hg] at hfree
    cases hfree
  · exact hg

end Buckets

theorem length_le_of_addrs (hnd : xs.Nodup) (h : ∀ x ∈ xs, ∃ f ∈ fs, f.addr = x) :
    xs.length ≤ fs.length := by
  have hlen := (hnd.subperm fun x hx => mem_map.mpr (h x hx)).length_le
  rwa [length_map] at hlen

theorem dropWhile_cons {key : Nat → Nat} {n c : Nat} {xs cs : List Nat}
    (h : xs.dropWhile (fun x => !decide (n ≤ key x)) = c :: cs) : c ∈ xs ∧ n ≤ key c := by
  have hnot := head_dropWhile_not (fun x => !decide (n ≤ key x)) (l := xs) (by rw [h]; simp)
  exact ⟨(dropWhile_sublist _).subset (h ▸ mem_cons_self), by simpa [h] using hnot⟩

/-- Scanning a list sorted by `key` for the first element that is not below `n` cuts it in two. -/
theorem sorted_cut {key : Nat → Nat} (n : Nat) :
    (∀ x ∈ xs.takeWhile fun x => !decide (n ≤ key x), key x < n) ∧
      ((xs.Pairwise fun x y => key x ≤ key y) → ∀ x ∈ xs.dropWhile fun x => !decide (n ≤ key x), n ≤ key x) := by
  constructor
  · intro x hx
    have hx' := mem_takeWhile_imp hx
    simpa using hx'
  · intro hsorted x hx
    have hpair := hsorted.sublist (dropWhile_sublist (fun x => !decide (n ≤ key x)))
    cases hd : xs.dropWhile (fun x => !decide (n ≤ key x)) with
    | nil =>
      rw [hd] at hx
      cases hx
    | cons c cs =>
      rw [hd] at hx hpair
      rcases mem_cons.mp hx with rfl | hx
      · exact (dropWhile_cons hd).2
      · exact (dropWhile_cons hd).2.trans ((pairwise_cons.mp hpair).1 x hx)

end Lib

