import OpenSer.Ut

/-!
# Printing a route set

`print_rr_body` of `parse_rr.c`: the entries of the Record-Route headers of a message are put into a table, measured and
copied, in their order or in reverse order. Those that are skipped are the first ones in the one case and the last ones
in the other.

* `countLoop_ge`, `countLoop_le`: which entries are measured.
* `copyUp_eq`, `copyDown_eq`: which entries are copied.
* `print_rr_body_exact`: what is printed, and that there is room for it.
-/

namespace OpenSer.Parser

open Option List Nat

/-! ## The function -/

def maxRrHdrs : Nat := 64

/-- An entry of a Record-Route header: `len` bytes from `nameaddr.name.s` on, at least an angle bracket. -/
structure Rr where
  text : Str
  nonempty : text ≠ []

/-- A Record-Route header: its entries, if `parse_rr` succeeds. -/
abbrev RrHdr := Option (List Rr)

/-- The loop over the entries of a header; the table must not become full. -/
def putRrs : List Rr → List Str → Option (List Str)
  | [], route => some route
  | p :: rrs, route => if (route ++ [p.text]).length = maxRrHdrs then none else putRrs rrs (route ++ [p.text])

def putHdrs : List RrHdr → List Str → Option (List Str)
  | [], route => some route
  | none :: _, _ => none
  | some rrs :: hdrs, route => (putRrs rrs route).bind (putHdrs hdrs)

/-- Whether the entry `i` of `n` is counted; the arithmetic is that of an `unsigned int`. -/
def isCounted (order : Bool) (nbRecs : Option (BitVec 32)) (n i : Nat) : Bool :=
  match nbRecs with
  | none => true
  | some nb =>
    !order && decide (nb ≤ BitVec.ofNat 32 i) || order && decide (BitVec.ofNat 32 i ≤ BitVec.ofNat 32 n - nb)

/-- The loop over the table, from `i` on: the length and the number of the entries that are counted. -/
def countLoop (counted : Nat → Bool) : Nat → List Str → Nat × Nat
  | _, [] => (0, 0)
  | i, r :: route =>
    let (len, nr) := countLoop counted (i + 1) route
    if counted i then (r.length + len, nr + 1) else (len, nr)

/-- `route[i]`: behind the entries the table is zero. -/
def routeAt (route : List Str) (i : Int) : Option Str :=
  if 0 ≤ i ∧ i < maxRrHdrs then some (route.getD i.toNat []) else none

/-- The loop in normal order, which is run `k` times from `i` on. -/
def copyUp (route : List Str) : Nat → Int → Option Str
  | 0, _ => some []
  | k + 1, i =>
    (routeAt route i).bind fun r =>
      (copyUp route k (i + 1)).map fun rest => r ++ if i + 1 < route.length then ',' :: rest else rest

/-- The loop in reverse order. -/
def copyDown (route : List Str) : Nat → Int → Option Str
  | 0, _ => some []
  | k + 1, i =>
    (routeAt route i).bind fun r => (copyDown route k (i - 1)).map fun rest => r ++ if i > 0 then ',' :: rest else rest

def toUnsignedLong (n : Int) : Nat := (if 0 ≤ n then n else n + 2 ^ 64).toNat

/-- What `print_rr_body` returns: an error, nothing at all when there is no header, or what it printed, with the number
of bytes it has asked for and of the entries. -/
inductive Printed
  | error
  | untouched
  | done (oroute : Str) (allocated : Nat) (nbRecs : Nat)
  deriving Repr, DecidableEq

def firstIndex (order : Bool) (nbRecs : Option (BitVec 32)) (n : Nat) : Int :=
  match order, nbRecs with
  | false, none => 0
  | false, some nb => nb.toInt
  | true, none => n - 1
  | true, some nb => (BitVec.ofNat 32 n - nb - 1).toInt

def copyRoutes (order : Bool) (nbRecs : Option (BitVec 32)) (route : List Str) : Option Str :=
  let i := firstIndex order nbRecs route.length
  if order then copyDown route (i + 1).toNat i else copyUp route ((route.length : Int) - i).toNat i

/-- `print_rr_body`; `pkg_malloc` succeeds or not. There is no result when it reads outside of its table. -/
def printRrBody (iroute : List RrHdr) (order : Bool) (nbRecs : Option (BitVec 32)) (malloc : Bool) : Option Printed :=
  if iroute = [] then some .untouched
  else
    match putHdrs iroute [] with
    | none => some .error
    | some route =>
      let (routeLen, nr) := countLoop (isCounted order nbRecs route.length) 0 route
      if malloc then
        (copyRoutes order nbRecs route).map fun oroute =>
          .done oroute (toUnsignedLong (routeLen + ((nr : Int) - 1))) route.length
      else some .error

/-! ## The table -/

/-- The entries of all headers, if all can be parsed. -/
def rrTexts : List RrHdr → Option (List Str)
  | [] => some []
  | none :: _ => none
  | some rrs :: hdrs => (rrTexts hdrs).map (rrs.map Rr.text ++ ·)

theorem putRrs_eq (rrs : List Rr) {route : List Str} (h : route.length < maxRrHdrs) :
    putRrs rrs route =
      if (route ++ rrs.map Rr.text).length < maxRrHdrs then some (route ++ rrs.map Rr.text) else none := by
  induction rrs generalizing route with
  | nil => rw [putRrs, map_nil, append_nil, if_pos h]
  | cons p rrs ih =>
    have hlen : (route ++ [p.text]).length = route.length + 1 := length_append
    rw [putRrs, map_cons, append_cons route p.text (rrs.map Rr.text)]
    by_cases hfull : (route ++ [p.text]).length = maxRrHdrs
    · rw [if_pos hfull, if_neg]
      rw [length_append]
      omega
    · rw [if_neg hfull, ih (by omega)]

/-- **The table** has the entries of all headers, if there are not too many. -/
theorem putHdrs_eq (hdrs : List RrHdr) {route : List Str} (h : route.length < maxRrHdrs) :
    putHdrs hdrs route =
      (rrTexts hdrs).bind fun es => if (route ++ es).length < maxRrHdrs then some (route ++ es) else none := by
  induction hdrs generalizing route with
  | nil =>
    rw [putHdrs, rrTexts, bind_some, append_nil, if_pos h]
  | cons hdr hdrs ih =>
    cases hdr with
    | none => rfl
    | some rrs =>
      rw [putHdrs, putRrs_eq rrs h, rrTexts, bind_map]
      by_cases hfull : (route ++ rrs.map Rr.text).length < maxRrHdrs
      · rw [if_pos hfull, bind_some, ih hfull]
        refine bind_congr fun es _ => ?_
        rw [Function.comp, append_assoc]
      · rw [if_neg hfull, bind_none]
        cases rrTexts hdrs with
        | none => rfl
        | some es =>
          rw [bind_some, Function.comp, if_neg]
          rw [← append_assoc, length_append]
          omega

/-! ## The copies -/

def join (es : List Str) : Str := List.intercalate [','] es

theorem join_cons_cons (r r' : Str) (es : List Str) : join (r :: r' :: es) = r ++ ',' :: join (r' :: es) := by
  rfl

theorem length_join : ∀ {es : List Str}, es ≠ [] → (join es).length + 1 = (es.map List.length).sum + es.length
  | [], h => absurd rfl h
  | [r], _ => by
    rw [join, intercalate_singleton]
    rfl
  | r :: r' :: es, _ => by
    have ih : (join (r' :: es)).length + 1 = _ := length_join (cons_ne_nil r' es)
    rw [join_cons_cons, map_cons, sum_cons, length_append, length_cons, length_cons]
    omega

section
variable {route : List Str} (hroute : route.length < maxRrHdrs)
include hroute

theorem routeAt_eq {i : Nat} (hi : i < route.length) : routeAt route i = some route[i] := by
  rw [routeAt, if_pos (by omega), Int.toNat_natCast, getD_eq_getElem?_getD, getElem?_eq_getElem hi,
    getD_some]

/-- **In normal order** the entries from `i` on are copied. -/
theorem copyUp_eq : ∀ {k i : Nat}, i + k = route.length → copyUp route k i = some (join (route.drop i))
  | 0, i, h => by
    rw [copyUp, drop_of_length_le (by omega)]
    rfl
  | k + 1, i, h => by
    have hi : i < route.length := by omega
    rw [copyUp, routeAt_eq hroute hi, bind_some]
    have ih := copyUp_eq (k := k) (i := i + 1) (by omega)
    rw [cast_succ] at ih
    rw [ih, map_some, drop_eq_getElem_cons hi]
    by_cases hlast : i + 1 < route.length
    · rw [if_pos (by omega), drop_eq_getElem_cons hlast, join_cons_cons]
    · rw [if_neg (by omega), drop_of_length_le (by omega), join, join, intercalate_nil,
        intercalate_singleton, append_nil]

/-- **In reverse order** the first `k` entries are copied. -/
theorem copyDown_eq : ∀ {k : Nat}, k ≤ route.length →
    copyDown route k ((k : Int) - 1) = some (join (route.take k).reverse)
  | 0, _ => rfl
  | k + 1, h => by
    have hk : k < route.length := by omega
    have hsub : (((k + 1 : Nat) : Int) - 1) = (k : Int) := by omega
    rw [hsub, copyDown, routeAt_eq hroute hk, bind_some, copyDown_eq (k := k) (by omega), map_some,
      take_succ_eq_append_getElem hk, reverse_append, reverse_singleton, singleton_append]
    cases k with
    | zero =>
      rw [if_neg (by decide), take_zero, reverse_nil, join, join, intercalate_nil,
        intercalate_singleton, append_nil]
    | succ k =>
      have hk' : k < route.length := by omega
      rw [if_pos (by omega), take_succ_eq_append_getElem hk', reverse_append, reverse_singleton,
        singleton_append, join_cons_cons]

end

/-! ## The measure -/

/-- The length and the number of entries. -/
def size (es : List Str) : Nat × Nat := ((es.map List.length).sum, es.length)

theorem countLoop_ge (counted : Nat → Bool) (k : Nat) : ∀ (route : List Str) (i : Nat),
    (∀ j, i ≤ j → j < i + route.length → counted j = decide (k ≤ j)) →
    countLoop counted i route = size (route.drop (k - i))
  | [], _, _ => by
    rw [drop_nil]
    rfl
  | r :: route, i, h => by
    have ih := countLoop_ge counted k route (i + 1) fun j hj hlt => h j (by omega) (by rw [length_cons]; omega)
    rw [countLoop, ih, h i le_rfl (by rw [length_cons]; omega)]
    by_cases hk : k ≤ i
    · rw [Nat.sub_eq_zero_of_le (by omega)]
      simp [hk, size]
    · rw [show k - i = k - (i + 1) + 1 by omega]
      simp [hk]

theorem countLoop_le (counted : Nat → Bool) (k : Nat) : ∀ (route : List Str) (i : Nat),
    (∀ j, i ≤ j → j < i + route.length → counted j = decide (j ≤ k)) →
    countLoop counted i route = size (route.take (k + 1 - i))
  | [], _, _ => by
    rw [take_nil]
    rfl
  | r :: route, i, h => by
    have ih := countLoop_le counted k route (i + 1) fun j hj hlt => h j (by omega) (by rw [length_cons]; omega)
    rw [countLoop, ih, h i le_rfl (by rw [length_cons]; omega)]
    by_cases hk : i ≤ k
    · rw [show k + 1 - i = k + 1 - (i + 1) + 1 by omega]
      simp [hk, size]
    · rw [show k + 1 - i = 0 by omega, show k + 1 - (i + 1) = 0 by omega]
      simp [hk]

/-! ## What is printed -/

def skipped (nbRecs : Option (BitVec 32)) : Nat := (nbRecs.map BitVec.toNat).getD 0

/-- **The entries that are kept**: in normal order all but the first ones, in reverse order all but the last ones. -/
def kept (order : Bool) (skip : Nat) (es : List Str) : List Str :=
  if order then (es.take (es.length - skip)).reverse else es.drop skip

section
variable {order : Bool} {nbRecs : Option (BitVec 32)} {route : List Str} (hroute : route.length < maxRrHdrs)
include hroute

theorem firstIndex_eq (hnb : ∀ nb ∈ nbRecs, nb.toNat < 2 ^ 31) : firstIndex order nbRecs route.length =
    if order then (route.length : Int) - skipped nbRecs - 1 else skipped nbRecs := by
  have hroute' : route.length < 64 := hroute
  cases nbRecs with
  | none => cases order <;> simp [firstIndex, skipped]
  | some nb =>
    have hlt := hnb nb rfl
    cases order with
    | false =>
      show nb.toInt = nb.toNat
      rw [BitVec.toInt_eq_toNat_cond]
      omega
    | true =>
      have hone : (1 : BitVec 32).toNat = 1 := rfl
      show (BitVec.ofNat 32 route.length - nb - 1).toInt = (route.length : Int) - nb.toNat - 1
      rw [BitVec.toInt_eq_toNat_cond]
      simp only [BitVec.toNat_sub, BitVec.toNat_ofNat, hone]
      omega

/-- **What is copied** is what is kept. -/
theorem copyRoutes_eq (hnb : ∀ nb ∈ nbRecs, nb.toNat < 2 ^ 31) :
    copyRoutes order nbRecs route = some (join (kept order (skipped nbRecs) route)) := by
  unfold copyRoutes kept
  rw [firstIndex_eq hroute hnb]
  cases order with
  | true =>
    simp only [if_true]
    rcases lt_or_ge (skipped nbRecs) route.length with hlt | hge
    · have hk : ((route.length : Int) - skipped nbRecs - 1 + 1).toNat = route.length - skipped nbRecs := by omega
      have hi : (route.length : Int) - skipped nbRecs - 1 =
          ((route.length - skipped nbRecs : Nat) : Int) - 1 := by omega
      rw [hk, hi]
      exact copyDown_eq hroute (by omega)
    · have hk : ((route.length : Int) - skipped nbRecs - 1 + 1).toNat = 0 := by omega
      rw [hk, show route.length - skipped nbRecs = 0 by omega]
      rfl
  | false =>
    simp only [Bool.false_eq_true, if_false]
    rcases lt_or_ge (skipped nbRecs) route.length with hlt | hge
    · exact copyUp_eq hroute (by omega)
    · rw [show ((route.length : Int) - skipped nbRecs).toNat = 0 by omega, drop_of_length_le hge]
      rfl

omit hroute in
theorem length_join_reverse (es : List Str) : (join es.reverse).length = (join es).length := by
  by_cases hes : es = []
  · rw [hes, reverse_nil]
  · have hrev := length_join (mt reverse_eq_nil_iff.mp hes)
    rw [map_reverse, sum_reverse, length_reverse] at hrev
    have hlen := length_join hes
    omega

omit hroute in
theorem length_join_le {l es : List Str} (h : l.Sublist es) :
    (join l).length ≤ toUnsignedLong (((size es).1 : Nat) + (((size es).2 : Int) - 1)) := by
  show _ ≤ toUnsignedLong (((es.map length).sum : Nat) + ((es.length : Int) - 1))
  by_cases hl : l = []
  · subst hl
    exact zero_le _
  · have hsum : (l.map length).sum ≤ (es.map length).sum :=
      (h.map length).sum_le_sum fun _ _ => zero_le _
    have hlen := h.length_le
    have hjoin := length_join hl
    rw [toUnsignedLong]
    omega

/-- **There is room** for what is printed. -/
theorem join_le_measure : (join (kept order (skipped nbRecs) route)).length ≤
    toUnsignedLong ((countLoop (isCounted order nbRecs route.length) 0 route).1 +
      (((countLoop (isCounted order nbRecs route.length) 0 route).2 : Int) - 1)) := by
  have hroute' : route.length < 64 := hroute
  cases order with
  | false =>
    have hcount : countLoop (isCounted false nbRecs route.length) 0 route = size (route.drop (skipped nbRecs)) := by
      refine countLoop_ge _ (skipped nbRecs) route 0 fun j _ hj => ?_
      cases nbRecs with
      | none => exact (decide_eq_true (zero_le j)).symm
      | some nb =>
        have hiff : nb ≤ BitVec.ofNat 32 j ↔ nb.toNat ≤ j := by bv_omega
        rw [isCounted, Bool.false_and, Bool.or_false]
        exact decide_eq_decide.mpr hiff
    rw [hcount]
    exact length_join_le (List.Sublist.refl _)
  | true =>
    show (join (route.take (route.length - skipped nbRecs)).reverse).length ≤ _
    rw [length_join_reverse]
    rcases lt_or_ge route.length (skipped nbRecs) with hlt | hge
    · rw [show route.length - skipped nbRecs = 0 by omega]
      exact zero_le _
    · have hcount : countLoop (isCounted true nbRecs route.length) 0 route =
          size (route.take (route.length - skipped nbRecs + 1)) := by
        refine countLoop_le _ (route.length - skipped nbRecs) route 0 fun j _ hj => ?_
        cases nbRecs with
        | none =>
          refine (decide_eq_true ?_).symm
          simp only [skipped, map_none, getD_none]
          omega
        | some nb =>
          have hnb : nb.toNat ≤ route.length := hge
          have hiff : BitVec.ofNat 32 j ≤ BitVec.ofNat 32 route.length - nb ↔ j ≤ route.length - nb.toNat := by bv_omega
          exact decide_eq_decide.mpr hiff
      rw [hcount]
      exact length_join_le (take_sublist_take_left (le_succ _))

end

theorem putHdrs_texts (iroute : List RrHdr) :
    putHdrs iroute [] = (rrTexts iroute).bind fun es => if es.length < maxRrHdrs then some es else none :=
  putHdrs_eq iroute (by decide)

section
variable {iroute : List RrHdr} (hne : iroute ≠ []) {es : List Str}
include hne

theorem printRrBody_error (order : Bool) (nbRecs : Option (BitVec 32)) {malloc : Bool}
    (hno : ¬(malloc = true ∧ ∃ es, rrTexts iroute = some es ∧ es.length < maxRrHdrs)) :
    printRrBody iroute order nbRecs malloc = some .error := by
  unfold printRrBody
  rw [if_neg hne, putHdrs_texts]
  cases htexts : rrTexts iroute with
  | none => rfl
  | some es =>
    rw [bind_some]
    by_cases hes : es.length < maxRrHdrs
    · cases malloc with
      | true => exact absurd ⟨rfl, es, htexts, hes⟩ hno
      | false =>
        rw [if_pos hes]
        rfl
    · rw [if_neg hes]

theorem printRrBody_done (order : Bool) {nbRecs : Option (BitVec 32)} (htexts : rrTexts iroute = some es)
    (hes : es.length < maxRrHdrs) (hnb : ∀ nb ∈ nbRecs, nb.toNat < 2 ^ 31) :
    ∃ allocated, printRrBody iroute order nbRecs true =
        some (.done (join (kept order (skipped nbRecs) es)) allocated es.length) ∧
      (join (kept order (skipped nbRecs) es)).length ≤ allocated := by
  unfold printRrBody
  rw [if_neg hne, putHdrs_texts, htexts, bind_some, if_pos hes]
  dsimp only
  rw [copyRoutes_eq hes hnb]
  exact ⟨_, rfl, join_le_measure hes⟩

end

/-- **What `print_rr_body` prints.** It fails when a header cannot be parsed, when there are too many entries or no
memory. Otherwise it prints the entries that are kept, with commas between them, and has asked for enough memory. -/
theorem print_rr_body_exact {iroute : List RrHdr} (hne : iroute ≠ []) (order : Bool) {nbRecs : Option (BitVec 32)}
    (hnb : ∀ nb ∈ nbRecs, nb.toNat < 2 ^ 31) (malloc : Bool) :
    ∃ p, printRrBody iroute order nbRecs malloc = some p ∧ p ≠ .untouched ∧
      (p = .error ↔ ¬(malloc = true ∧ ∃ es, rrTexts iroute = some es ∧ es.length < maxRrHdrs)) ∧
      ∀ oroute allocated n, p = .done oroute allocated n → ∃ es, rrTexts iroute = some es ∧ n = es.length ∧
        oroute = join (kept order (skipped nbRecs) es) ∧ oroute.length ≤ allocated := by
  by_cases hdone : malloc = true ∧ ∃ es, rrTexts iroute = some es ∧ es.length < maxRrHdrs
  · obtain ⟨rfl, es, htexts, hes⟩ := hdone
    obtain ⟨allocated, hrun, hle⟩ := printRrBody_done hne order htexts hes hnb
    refine ⟨_, hrun, by simp, by simp [htexts, hes], fun _ _ _ h => ?_⟩
    obtain ⟨rfl, rfl, rfl⟩ := Printed.done.inj h
    exact ⟨es, htexts, rfl, rfl, hle⟩
  · refine ⟨.error, printRrBody_error hne order nbRecs hdone, by simp, iff_of_true rfl hdone, fun _ _ _ h => ?_⟩
    cases h

/-- Two headers with three entries. -/
def threeRrs : List RrHdr :=
  [some [⟨"<a>".toList, by decide⟩, ⟨"<b>".toList, by decide⟩], some [⟨"<c>".toList, by decide⟩]]

/-- The entries of both headers but for one. -/
theorem print_rr_body_three : ∃ p, printRrBody threeRrs true (some 1) true = some p ∧ p ≠ .untouched ∧
    (p = .error ↔ ¬(true = true ∧ ∃ es, rrTexts threeRrs = some es ∧ es.length < maxRrHdrs)) ∧
    ∀ oroute allocated n, p = .done oroute allocated n → ∃ es, rrTexts threeRrs = some es ∧ n = es.length ∧
      oroute = join (kept true 1 es) ∧ oroute.length ≤ allocated :=
  print_rr_body_exact (by simp [threeRrs]) true (fun nb h => by cases h; decide) true

/-- In normal order the first entry is skipped, and not the last. A number of entries that is negative as an `int` makes
the loop start behind the entries: one byte more is written than was asked for. -/
theorem print_rr_body_skips_first :
    printRrBody threeRrs false (some 1) true = some (.done "<b>,<c>".toList 7 3) ∧
    printRrBody [some [⟨"<a>".toList, by decide⟩]] true (some 0xFFFFFFFF) true = some (.done ",<a>".toList 3 1) := by
  decide +kernel

end OpenSer.Parser
