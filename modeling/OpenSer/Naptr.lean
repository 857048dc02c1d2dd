import OpenSer.Ut
import Mathlib.Data.List.Pairwise

/-!
# NAPTR records

`filter_and_sort_naptr` of `resolve.c` relinks a list of DNS records into two: the NAPTR records for a usable SIP
service, ordered by order and preference, and the others.

* `insert_perm`, `insert_sorted`: a record is put at its place, at the head, the tail or between.
* `filterAndSort_spec`: what is relinked stays the same records, and the first list stays sorted.
* `filter_and_sort_naptr_iff`: the lists of records that are split as they should be.
-/

namespace OpenSer.Resolve

open List

/-- `struct naptr_rdata`, as `dns_naptr_parser` fills it in. `repl_len` is what `dn_expand` returns: how many bytes the
name takes in the answer, with the one that ends it. The root is the empty name, of one byte. -/
structure NaptrRdata where
  order : UInt16
  pref : UInt16
  flags : Str
  services : Str
  regexp : Str
  repl : Str
  replLen : Nat
  replLen_pos : 0 < replLen
  deriving DecidableEq

/-- `struct rdata`: `none` for a record of another type or without data. -/
abbrev Rdata := Option NaptrRdata

/-- The transports: `tls_disable` (of a build with TLS), and whether TCP and SCTP are there and not disabled. -/
structure Transports where
  tlsDisable : Bool
  tcp : Bool
  sctp : Bool

variable (cfg : Transports) (isSips : Bool)

/-- The tests of the service, in lower case: `strncasecmp` compares lower case texts. -/
def serviceOk (services : Str) : Bool :=
  let p := services.getLast?
  (¬isSips ∧ services.length = 7 ∧ services.take 6 = "sip+d2".toList ∨
      ¬cfg.tlsDisable ∧ services.length = 8 ∧ services.take 7 = "sips+d2".toList) ∧
    (p = some 'u' ∨ cfg.tcp ∧ p = some 't' ∨ cfg.sctp ∧ p = some 's') ∧
    -- SIPS+D2U is not valid
    ¬(services.length = 8 ∧ p = some 'u')

/-- The tests of a record, by its flag, its service and the lengths of its replacement and regular expression. -/
def supported (naptr : NaptrRdata) : Bool :=
  (naptr.flags = ['s'] ∨ naptr.flags = ['S']) ∧ naptr.replLen ≠ 0 ∧ naptr.regexp = [] ∧
    serviceOk cfg isSips (naptr.services.map Char.toLower)

/-- `naptr_prio`; order and preference fit into 32 bits. -/
def naptrPrio (r : Rdata) : Nat := r.elim 0 fun naptr => naptr.order.toNat * 2 ^ 16 + naptr.pref.toNat

/-- The loop of the insertion, with `itp` and what is behind it. -/
def insertBehind (l itp : Rdata) : List Rdata → List Rdata
  | [] => [itp, l]
  | [it] => [itp, l, it]
  | it :: next :: rest =>
    if naptrPrio l ≤ naptrPrio it then itp :: l :: it :: next :: rest else itp :: insertBehind l it (next :: rest)

def insertNaptr (l : Rdata) : List Rdata → List Rdata
  | [] => [l]
  | head :: rest =>
    if naptrPrio head ≥ naptrPrio l then l :: head :: rest
    else if naptrPrio l ≥ naptrPrio ((head :: rest).getLast (cons_ne_nil _ _)) then head :: rest ++ [l]
    else insertBehind l head rest

/-- `filter_and_sort_naptr`, from the lists `head` and `out` on. -/
def filterAndSortNaptr : List Rdata → List Rdata → List Rdata → List Rdata × List Rdata
  | [], head, out => (head, out)
  | l :: ln, head, out =>
    if l.any (supported cfg isSips) then filterAndSortNaptr ln (insertNaptr l head) out
    else filterAndSortNaptr ln head (l :: out)

/-! ## What it should give -/

/-- The services that can be used, in lower case. -/
def services : List Str :=
  let on (b : Bool) (s : String) : List Str := if b then [s.toList] else []
  on (!isSips) "sip+d2u" ++ on (!isSips && cfg.tcp) "sip+d2t" ++ on (!isSips && cfg.sctp) "sip+d2s" ++
    on (!cfg.tlsDisable && cfg.tcp) "sips+d2t" ++ on (!cfg.tlsDisable && cfg.sctp) "sips+d2s"

/-- A record with flag `s`, an empty regular expression and a usable service. -/
def Usable (r : Rdata) : Prop :=
  ∃ naptr, r = some naptr ∧ (naptr.flags = ['s'] ∨ naptr.flags = ['S']) ∧ naptr.regexp = [] ∧
    naptr.services.map Char.toLower ∈ services cfg isSips

/-- A usable record with a replacement. -/
def Wanted (r : Rdata) : Prop := Usable cfg isSips r ∧ ∀ naptr ∈ r, naptr.repl ≠ []

/-- By order, and then by preference. -/
def Before (a b : Rdata) : Prop :=
  ∀ x ∈ a, ∀ y ∈ b, x.order < y.order ∨ x.order = y.order ∧ x.pref ≤ y.pref

theorem eq_snoc_iff (w : Str) (x : Char) (s : Str) :
    s = w ++ [x] ↔ s.length = w.length + 1 ∧ s.take w.length = w ∧ s.getLast? = some x := by
  constructor
  · rintro rfl
    simp
  · rintro ⟨hlen, htake, hlast⟩
    obtain ⟨ys, rfl⟩ := getLast?_eq_some_iff.mp hlast
    rw [length_append, length_singleton, Nat.add_right_cancel_iff] at hlen
    rw [← hlen, take_left] at htake
    rw [htake]

theorem mem_services_iff (s : Str) : s ∈ services cfg isSips ↔ serviceOk cfg isSips s := by
  have hu := eq_snoc_iff "sip+d2".toList 'u' s
  have ht := eq_snoc_iff "sip+d2".toList 't' s
  have hs := eq_snoc_iff "sip+d2".toList 's' s
  have ht' := eq_snoc_iff "sips+d2".toList 't' s
  have hs' := eq_snoc_iff "sips+d2".toList 's' s
  simp only [services, serviceOk, mem_append, mem_ite_nil_right, mem_singleton]
  simp at *
  rw [hu, ht, hs, ht', hs']
  by_cases h8 : s.length = 8 <;> grind

/-- The test of `repl_len` refuses nothing. -/
theorem supported_iff (r : Rdata) : r.any (supported cfg isSips) ↔ Usable cfg isSips r := by
  cases r with
  | none => simp [Usable]
  | some naptr => simp [Usable, supported, mem_services_iff, naptr.replLen_pos.ne']

/-! ## The insertion -/

abbrev Sorted (l : List Rdata) : Prop := l.Pairwise fun a b => naptrPrio a ≤ naptrPrio b

theorem insertBehind_perm (l itp : Rdata) : ∀ its, (insertBehind l itp its).Perm (l :: itp :: its)
  | [] => .swap _ _ _
  | [it] => .swap _ _ _
  | it :: next :: rest => by
    rw [insertBehind]
    split
    · exact .swap _ _ _
    · exact ((insertBehind_perm l it (next :: rest)).cons itp).trans (.swap _ _ _)

theorem insertBehind_sorted {l itp : Rdata} : ∀ {its}, Sorted (itp :: its) → naptrPrio itp ≤ naptrPrio l →
    naptrPrio l ≤ naptrPrio ((itp :: its).getLast (cons_ne_nil _ _)) → Sorted (insertBehind l itp its)
  | [], _, hle, _ => by simpa [insertBehind] using hle
  | [it], hs, hle, hlast => by
    have hlast : naptrPrio l ≤ naptrPrio it := hlast
    simp [insertBehind, hle, hlast, hle.trans hlast]
  | it :: next :: rest, hs, hle, hlast => by
    obtain ⟨hitp, hrest⟩ := pairwise_cons.mp hs
    rw [insertBehind]
    split
    case isTrue hbefore =>
      refine pairwise_cons.mpr ⟨forall_mem_cons.mpr ⟨hle, hitp⟩, pairwise_cons.mpr ⟨?_, hrest⟩⟩
      refine forall_mem_cons.mpr ⟨hbefore, fun z hz => ?_⟩
      exact hbefore.trans ((pairwise_cons.mp hrest).1 z hz)
    case isFalse hbehind =>
      refine pairwise_cons.mpr ⟨fun z hz => ?_, insertBehind_sorted hrest (by omega) hlast⟩
      rcases mem_cons.mp ((insertBehind_perm l it (next :: rest)).mem_iff.mp hz) with rfl | hz
      · exact hle
      · exact hitp z hz

theorem insert_perm (l : Rdata) (head : List Rdata) : (insertNaptr l head).Perm (l :: head) := by
  cases head with
  | nil => exact .refl _
  | cons h rest =>
    rw [insertNaptr]
    split
    · exact .refl _
    · split
      · exact perm_append_singleton l (h :: rest)
      · exact insertBehind_perm l h rest

theorem insert_sorted (l : Rdata) {head : List Rdata} (hs : Sorted head) : Sorted (insertNaptr l head) := by
  cases head with
  | nil => exact pairwise_singleton _ _
  | cons h rest =>
    obtain ⟨hfirst, hrest⟩ := pairwise_cons.mp hs
    rw [insertNaptr]
    split
    case isTrue hbefore =>
      exact pairwise_cons.mpr ⟨forall_mem_cons.mpr ⟨hbefore, fun z hz => hbefore.trans (hfirst z hz)⟩, hs⟩
    case isFalse hbehind =>
      split
      case isTrue hlast =>
        refine pairwise_append.mpr ⟨hs, pairwise_singleton _ _, fun z hz => forall_mem_singleton.mpr ?_⟩
        exact (hs.rel_getLast_of_rel_getLast_getLast hz le_rfl).trans hlast
      case isFalse hlast =>
        exact insertBehind_sorted hs (by omega) (by omega)

/-- **What the loop makes of the records**: nothing is lost, and the first list stays sorted and usable. -/
theorem filterAndSort_spec : ∀ (ls : List Rdata) {head out : List Rdata},
    Sorted head → (∀ r ∈ head, Usable cfg isSips r) → (∀ r ∈ out, ¬Usable cfg isSips r) →
    let res := filterAndSortNaptr cfg isSips ls head out
    (res.1 ++ res.2).Perm (ls ++ (head ++ out)) ∧ Sorted res.1 ∧ (∀ r ∈ res.1, Usable cfg isSips r) ∧
      ∀ r ∈ res.2, ¬Usable cfg isSips r
  | [], head, out, hs, hin, hout => ⟨.refl _, hs, hin, hout⟩
  | l :: ln, head, out, hs, hin, hout => by
    rw [filterAndSortNaptr]
    split
    case isTrue hl =>
      rw [supported_iff] at hl
      have hins := insert_perm l head
      have hin' : ∀ r ∈ insertNaptr l head, Usable cfg isSips r := fun r hr =>
        forall_mem_cons.mpr ⟨hl, hin⟩ r (hins.mem_iff.mp hr)
      obtain ⟨hperm, hrest⟩ := filterAndSort_spec ln (insert_sorted l hs) hin' hout
      exact ⟨hperm.trans (((hins.append_right out).append_left ln).trans perm_middle), hrest⟩
    case isFalse hl =>
      rw [supported_iff] at hl
      obtain ⟨hperm, hrest⟩ := filterAndSort_spec ln hs hin (forall_mem_cons.mpr ⟨hl, hout⟩)
      refine ⟨hperm.trans ?_, hrest⟩
      rw [← append_assoc, ← append_assoc, cons_append]
      exact perm_middle

theorem before_of_prio {a b : Rdata} (h : naptrPrio a ≤ naptrPrio b) : Before a b := by
  rintro x rfl y rfl
  have hx := x.pref.toNat_lt
  have hy := y.pref.toNat_lt
  simp only [naptrPrio, Option.elim] at h
  rw [UInt16.lt_iff_toNat_lt, UInt16.le_iff_toNat_le, ← UInt16.toNat_inj]
  omega

/-- The two lists together are a permutation of the records, the first one has the wanted ones in their order, and the
second one the others. -/
structure RightSplit (ls head filtered : List Rdata) : Prop where
  perm : (head ++ filtered).Perm ls
  ordered : head.Pairwise Before
  wanted : ∀ r ∈ head, Wanted cfg isSips r
  others : ∀ r ∈ filtered, ¬Wanted cfg isSips r

/-- **Exactly when** the records are split as they should be, for every list of them and every configuration: when no
usable record has the root for its replacement. The permutation and the order are always right. -/
theorem filter_and_sort_naptr_iff (ls : List Rdata) :
    let (head, filtered) := filterAndSortNaptr cfg isSips ls [] []
    (head ++ filtered).Perm ls ∧ head.Pairwise Before ∧
      (RightSplit cfg isSips ls head filtered ↔
        ∀ r ∈ ls, Usable cfg isSips r → ∀ naptr ∈ r, naptr.repl ≠ []) := by
  obtain ⟨hperm, hsorted, hin, hout⟩ :=
    filterAndSort_spec cfg isSips ls .nil (forall_mem_nil _) (forall_mem_nil _)
  rw [append_nil, append_nil] at hperm
  have hordered := hsorted.imp fun h => before_of_prio h
  refine ⟨hperm, hordered, fun h r hr husable => ?_, fun h => ⟨hperm, hordered, fun r hr => ?_, fun r hr hw => ?_⟩⟩
  · rcases mem_append.mp (hperm.mem_iff.mpr hr) with hhead | hfiltered
    · exact (h.wanted r hhead).2
    · exact absurd husable (hout r hfiltered)
  · exact ⟨hin r hr, h r (hperm.mem_iff.mp (mem_append_left _ hr)) (hin r hr)⟩
  · exact hout r hr hw.1

/-- A record for UDP whose replacement is the root: it is kept, though it has none. -/
theorem naptr_root_kept :
    let naptr : NaptrRdata := ⟨1, 1, ['s'], "SIP+D2U".toList, [], [], 1, by decide⟩
    filterAndSortNaptr ⟨true, false, false⟩ false [some naptr] [] [] = ([some naptr], []) ∧
      ¬Wanted ⟨true, false, false⟩ false (some naptr) := by
  refine ⟨by decide +kernel, fun h => ?_⟩
  exact h.2 _ rfl rfl

end OpenSer.Resolve
