import Mathlib.Data.List.DropRight
import OpenSer.Dialog.DlgHash

/-!
# The address check of the permissions module

`reload_address_table` puts the rows with a mask of 32 bits into a hash table, and the other ones into a table of
subnets that is sorted by group; `allow_source_address` looks into both. An address is the word that holds it in network
order on a little-endian host: the first octet is the lowest byte.

* `reload_loaded`: a source is accepted when its low bits are those of some row.
* `allow_source_iff`: exactly when that is right.
-/

namespace OpenSer.Permissions

open Function List

structure AddrList where
  grp : Nat
  ipAddr : BitVec 32
  port : Nat

structure Subnet where
  grp : Nat
  subnet : BitVec 32
  port : Nat
  mask : Nat

structure Row where
  /-- There are four values of the right types, none is null, and `inet_aton` accepts the address. -/
  valid : Bool
  grp : Nat
  ipAddr : BitVec 32
  mask : Nat
  port : Nat

def permMaxSubnets : Nat := 128

/-- `perm_hash`, of the four bytes of an address. -/
def permHash (ipAddr : BitVec 32) : BitVec 32 :=
  Dialog.coreHash ((range 4).map fun i => Char.ofNat (ipAddr.extractLsb' (8 * i) 8).toNat) none 128

def addrHashTableInsert (table : BitVec 32 → List AddrList) (np : AddrList) : BitVec 32 → List AddrList :=
  update table (permHash np.ipAddr) (np :: table (permHash np.ipAddr))

def matchAddrHashTable (table : BitVec 32 → List AddrList) (group : Nat) (ipAddr : BitVec 32) (port : Nat) : Int :=
  if ∃ np ∈ table (permHash ipAddr), np.ipAddr = ipAddr ∧ np.grp = group ∧ (np.port = 0 ∨ np.port = port) then 1 else -1

/-- The entries of higher groups are moved up, from the last one on. -/
def subnetTableInsert (table : List Subnet) (grp : Nat) (subnet : BitVec 32) (mask port : Nat) : List Subnet :=
  if table.length = permMaxSubnets then table
  else
    table.rdropWhile (grp < ·.grp) ++ ⟨grp, subnet <<< (32 - mask), port, 32 - mask⟩ :: table.rtakeWhile (grp < ·.grp)

def matchSubnetTable (table : List Subnet) (grp : Nat) (ipAddr : BitVec 32) (port : Nat) : Int :=
  if ∃ s ∈ (table.dropWhile (·.grp < grp)).takeWhile (·.grp = grp),
    s.subnet = ipAddr <<< s.mask ∧ (s.port = port ∨ s.port = 0) then 1 else -1

structure Tables where
  addrHashTable : BitVec 32 → List AddrList
  subnetTable : List Subnet

/-- A turn of the loop of `reload_address_table`. -/
def reloadRow (t : Tables) (row : Row) : Option Tables :=
  if row.valid ∧ 0 < row.mask ∧ row.mask ≤ 32 then
    if row.mask = 32 then
      some { t with addrHashTable := addrHashTableInsert t.addrHashTable ⟨row.grp, row.ipAddr, row.port⟩ }
    else some { t with subnetTable := subnetTableInsert t.subnetTable row.grp row.ipAddr row.mask row.port }
  else none

/-- The new tables, unless a row is refused. -/
def reloadAddressTable (rows : List Row) : Option Tables := rows.foldlM reloadRow ⟨fun _ => [], []⟩

inductive Af where
  | inet
  | inet6

/-- `rcv` of a message: `src_ip.af`, `src_ip.u.addr32[0]` and `src_port`. -/
structure Source where
  af : Af
  addr32 : BitVec 32
  port : Nat

/-- `group` is what the parameter stands for, if it can be converted. -/
def allowSourceAddress (t : Tables) (group : Option Nat) (src : Source) : Int :=
  match group with
  | none => -1
  | some group =>
    if matchAddrHashTable t.addrHashTable group src.addr32 src.port = 1 then 1
    else matchSubnetTable t.subnetTable group src.addr32 src.port

/-! ## The rows of the table -/

/-- Bit `j` of an address as it is written: octet after octet, the highest bit first. -/
def bitAt (a : BitVec 32) (j : Nat) : Bool := a.getLsbD (8 * (j / 8) + (7 - j % 8))

namespace Row

def Loadable (r : Row) : Prop := r.valid ∧ 0 < r.mask ∧ r.mask ≤ 32

/-- The row is about the group and the port. -/
def Serves (r : Row) (group : Nat) (src : Source) : Prop := r.grp = group ∧ (r.port = src.port ∨ r.port = 0)

/-- The leading bits, as many as the mask has, are those of the row. -/
def SameLeading (r : Row) (src : Source) : Prop := ∀ j < r.mask, bitAt r.ipAddr j = bitAt src.addr32 j

/-- The words agree when they are shifted. -/
def SameLow (r : Row) (src : Source) : Prop := r.ipAddr <<< (32 - r.mask) = src.addr32 <<< (32 - r.mask)

end Row

/-- What the tables are good for, and how they are kept. -/
structure Loaded (rows : List Row) (t : Tables) : Prop where
  accepts : ∀ group src, allowSourceAddress t (some group) src = 1 ↔ ∃ r ∈ rows, r.Serves group src ∧ r.SameLow src
  sorted : t.subnetTable.Pairwise (·.grp ≤ ·.grp)
  length : t.subnetTable.length = rows.countP (·.mask ≠ 32)

/-! ## The table of subnets -/

section Subnets

variable {table : List Subnet} {g : Nat} {s : Subnet}

theorem le_of_mem_rdropWhile (h : table.Pairwise (·.grp ≤ ·.grp)) (hs : s ∈ table.rdropWhile (g < ·.grp)) :
    s.grp ≤ g := by
  induction table using List.reverseRecOn with
  | nil => simp at hs
  | append_singleton l x ih =>
    obtain ⟨hl, -, hx⟩ := pairwise_append.mp h
    by_cases hlt : g < x.grp
    · rw [rdropWhile_concat_pos _ _ _ (by simpa using hlt)] at hs
      exact ih hl hs
    · rw [rdropWhile_concat_neg _ _ _ (by simpa using hlt)] at hs
      have hle : s.grp ≤ x.grp := by
        rcases mem_append.mp hs with hs | hs
        · exact hx s hs x (mem_singleton_self x)
        · rw [mem_singleton.mp hs]
      exact hle.trans (not_lt.mp hlt)

theorem subnetTableInsert_sorted (h : table.Pairwise (·.grp ≤ ·.grp)) (subnet : BitVec 32) (mask port : Nat) :
    (subnetTableInsert table g subnet mask port).Pairwise (·.grp ≤ ·.grp) := by
  rw [subnetTableInsert]
  split
  · exact h
  have hcut : (table.rdropWhile (g < ·.grp) ++ table.rtakeWhile (g < ·.grp)).Pairwise (·.grp ≤ ·.grp) := by
    rwa [rdropWhile_append_rtakeWhile]
  obtain ⟨hl, hr, hlr⟩ := pairwise_append.mp hcut
  have hhigh : ∀ s ∈ table.rtakeWhile (g < ·.grp), g < s.grp := fun s hs => by simpa using mem_rtakeWhile_imp hs
  refine pairwise_append.mpr ⟨hl, pairwise_cons.mpr ⟨fun s hs => (hhigh s hs).le, hr⟩, fun a ha => ?_⟩
  exact forall_mem_cons.mpr ⟨le_of_mem_rdropWhile h ha, hlr a ha⟩

/-- **The loops of `match_subnet_table`** see the entries of the group. -/
theorem mem_group (h : table.Pairwise (·.grp ≤ ·.grp)) :
    s ∈ (table.dropWhile (·.grp < g)).takeWhile (·.grp = g) ↔ s ∈ table ∧ s.grp = g := by
  induction table with
  | nil => simp
  | cons x xs ih =>
    obtain ⟨hx, hxs⟩ := pairwise_cons.mp h
    rcases lt_trichotomy x.grp g with hlt | heq | hgt
    · rw [dropWhile_cons_of_pos (by simpa using hlt), ih hxs, mem_cons]
      refine and_congr_left fun hg => (or_iff_right ?_).symm
      rintro rfl
      exact hlt.ne hg
    · have hdrop : xs.dropWhile (·.grp < g) = xs := by
        cases xs with
        | nil => rfl
        | cons y ys => exact dropWhile_cons_of_neg (by simpa [← heq] using hx y mem_cons_self)
      rw [dropWhile_cons_of_neg (by simp [heq]), takeWhile_cons_of_pos (by simp [heq]), mem_cons, mem_cons,
        or_and_right, ← ih hxs, hdrop]
      exact or_congr_left (and_iff_left_of_imp fun hs => hs ▸ heq).symm
    · rw [dropWhile_cons_of_neg (by simpa using hgt.le), takeWhile_cons_of_neg (by simpa using hgt.ne')]
      refine iff_of_false not_mem_nil fun ⟨hs, hg⟩ => ?_
      have hle : x.grp ≤ s.grp := by
        rcases mem_cons.mp hs with rfl | hs
        · exact le_rfl
        · exact hx s hs
      omega

theorem verdict_eq_one_iff {P : Prop} [Decidable P] : (if P then (1 : Int) else -1) = 1 ↔ P := by
  split <;> simp [*]

theorem matchSubnetTable_eq_one_iff (h : table.Pairwise (·.grp ≤ ·.grp)) (ipAddr : BitVec 32) (port : Nat) :
    matchSubnetTable table g ipAddr port = 1 ↔
      ∃ s ∈ table, s.grp = g ∧ s.subnet = ipAddr <<< s.mask ∧ (s.port = port ∨ s.port = 0) := by
  simp only [matchSubnetTable, verdict_eq_one_iff, mem_group h, and_assoc]

end Subnets

/-! ## Loading and checking -/

section Load

variable {rows : List Row} {t : Tables} {r : Row} {group : Nat} {src : Source}

theorem allowSourceAddress_eq_one_iff : allowSourceAddress t (some group) src = 1 ↔
    matchAddrHashTable t.addrHashTable group src.addr32 src.port = 1 ∨
      matchSubnetTable t.subnetTable group src.addr32 src.port = 1 := by
  rw [allowSourceAddress, ite_eq_left_iff, or_iff_not_imp_left]

theorem Loaded.insert (h : Loaded rows t) (hr : r.Loadable)
    (hroom : (rows ++ [r]).countP (·.mask ≠ 32) ≤ permMaxSubnets) :
    ∃ t', reloadRow t r = some t' ∧ Loaded (rows ++ [r]) t' := by
  obtain ⟨hvalid, hpos, hle⟩ := hr
  rw [countP_append, ← h.length] at hroom
  have hmem : ∀ P : Row → Prop, (∃ r' ∈ rows ++ [r], P r') ↔ (∃ r' ∈ rows, P r') ∨ P r := by
    simp [or_and_right, exists_or]
  rw [reloadRow, if_pos ⟨hvalid, hpos, hle⟩]
  by_cases h32 : r.mask = 32
  · rw [if_pos h32]
    refine ⟨_, rfl, fun group src => ?_, h.sorted, by simp [countP_append, h.length, h32]⟩
    rw [hmem, ← h.accepts, allowSourceAddress_eq_one_iff, allowSourceAddress_eq_one_iff]
    rw [matchAddrHashTable, verdict_eq_one_iff, matchAddrHashTable, verdict_eq_one_iff, addrHashTableInsert, Row.Serves,
      Row.SameLow, h32]
    by_cases hk : permHash src.addr32 = permHash r.ipAddr
    · simp only [hk, update_self, mem_cons, exists_eq_or_imp, Nat.sub_self, BitVec.shiftLeft_zero]
      grind
    · have hne : r.ipAddr ≠ src.addr32 := fun hc => hk (hc ▸ rfl)
      simp [hk, hne]
  · rw [if_neg h32]
    have hlt : t.subnetTable.length ≠ permMaxSubnets := by
      simp [h32] at hroom
      omega
    have hperm : subnetTableInsert t.subnetTable r.grp r.ipAddr r.mask r.port ~
        ⟨r.grp, r.ipAddr <<< (32 - r.mask), r.port, 32 - r.mask⟩ :: t.subnetTable := by
      rw [subnetTableInsert, if_neg hlt]
      refine perm_middle.trans ?_
      rw [rdropWhile_append_rtakeWhile]
    have hsorted := subnetTableInsert_sorted (g := r.grp) h.sorted r.ipAddr r.mask r.port
    refine ⟨_, rfl, fun group src => ?_, hsorted, ?_⟩
    · rw [hmem, ← h.accepts, allowSourceAddress_eq_one_iff, allowSourceAddress_eq_one_iff]
      rw [matchSubnetTable_eq_one_iff hsorted, matchSubnetTable_eq_one_iff h.sorted]
      simp only [hperm.mem_iff, mem_cons, or_and_right, exists_or, exists_eq_left, Row.Serves, Row.SameLow]
      grind
    · rw [hperm.length_eq, length_cons, h.length]
      simp [h32]

theorem reload_loaded (hrows : ∀ r ∈ rows, r.Loadable) (hroom : rows.countP (·.mask ≠ 32) ≤ permMaxSubnets) :
    ∃ t, reloadAddressTable rows = some t ∧ Loaded rows t := by
  induction rows using List.reverseRecOn with
  | nil => exact ⟨_, rfl, by simp [allowSourceAddress, matchAddrHashTable, matchSubnetTable], .nil, rfl⟩
  | append_singleton rows r ih =>
    obtain ⟨hinit, hr⟩ := forall_mem_append.mp hrows
    have hle : rows.countP (·.mask ≠ 32) ≤ permMaxSubnets := by
      rw [countP_append] at hroom
      omega
    obtain ⟨t, ht, h⟩ := ih hinit hle
    obtain ⟨t', ht', h'⟩ := h.insert (hr r (mem_singleton_self r)) hroom
    refine ⟨t', ?_, h'⟩
    rw [reloadAddressTable] at ht ⊢
    simp [foldlM_append, ht, ht']

/-- Where the mask ends with an octet, the order of the bits within the octets makes no difference. -/
theorem sameLow_iff_sameLeading (hr : r.Loadable) (hmask : r.mask % 8 = 0) : r.SameLow src ↔ r.SameLeading src := by
  have hle : r.mask ≤ 32 := hr.2.2
  have hlow : r.SameLow src ↔ ∀ i < r.mask, r.ipAddr.getLsbD i = src.addr32.getLsbD i := by
    constructor
    · intro h i hi
      have hbit := congrArg (·.getLsbD (32 - r.mask + i)) h
      simpa [show 32 - r.mask + i < 32 by omega, show i < 32 by omega] using hbit
    · intro h
      apply BitVec.eq_of_getLsbD_eq
      intro i hi
      by_cases hsmall : i < 32 - r.mask
      · simp [hsmall]
      · simp [hsmall, h (i - (32 - r.mask)) (by omega)]
  rw [hlow]
  constructor
  · exact fun h j hj => h _ (by omega)
  · intro h i hi
    have hbit := h (8 * (i / 8) + (7 - i % 8)) (by omega)
    rwa [bitAt, bitAt, show 8 * ((8 * (i / 8) + (7 - i % 8)) / 8) + (7 - (8 * (i / 8) + (7 - i % 8)) % 8) = i by omega]
      at hbit

end Load

/-- For a source that is no IPv4 address no row agrees in the low bits; for one that is, a row whose mask ends within an
octet and that agrees in one of the two ways comes with a row that agrees in the other. -/
def Unaffected (rows : List Row) (group : Nat) (src : Source) : Prop :=
  match src.af with
  | .inet6 => ∀ r ∈ rows, r.Serves group src → ¬r.SameLow src
  | .inet => ∀ r ∈ rows, r.Serves group src → r.mask % 8 ≠ 0 →
    (r.SameLow src → ∃ r' ∈ rows, r'.Serves group src ∧ r'.SameLeading src) ∧
      (r.SameLeading src → ∃ r' ∈ rows, r'.Serves group src ∧ r'.SameLow src)

/-- **Exactly when the address check is right**, for every table that can be loaded. -/
theorem allow_source_iff (rows : List Row) (hrows : ∀ r ∈ rows, r.Loadable)
    (hroom : rows.countP (·.mask ≠ 32) ≤ permMaxSubnets) : ∃ t, reloadAddressTable rows = some t ∧ ∀ group src,
      ((allowSourceAddress t (some group) src = 1 ↔
        src.af = .inet ∧ ∃ r ∈ rows, r.Serves group src ∧ r.SameLeading src) ↔ Unaffected rows group src) := by
  obtain ⟨t, ht, hloaded⟩ := reload_loaded hrows hroom
  refine ⟨t, ht, fun group src => ?_⟩
  rw [hloaded.accepts, Unaffected]
  cases src.af with
  | inet6 => simp
  | inet =>
    simp only [true_and]
    constructor
    · intro h r hr hs _
      exact ⟨fun hlow => h.mp ⟨r, hr, hs, hlow⟩, fun hlead => h.mpr ⟨r, hr, hs, hlead⟩⟩
    · intro h
      constructor <;> rintro ⟨r, hr, hs, hsame⟩ <;> by_cases hmask : r.mask % 8 = 0
      · exact ⟨r, hr, hs, (sameLow_iff_sameLeading (hrows r hr) hmask).mp hsame⟩
      · exact (h r hr hs hmask).1 hsame
      · exact ⟨r, hr, hs, (sameLow_iff_sameLeading (hrows r hr) hmask).mpr hsame⟩
      · exact (h r hr hs hmask).2 hsame

/-- 10.1.0.0/16, and a source in it. -/
theorem allow_source_octets : ∃ t, reloadAddressTable [⟨true, 1, 0x010a, 16, 0⟩] = some t ∧
    allowSourceAddress t (some 1) ⟨.inet, 0x0302010a, 5060⟩ = 1 := by
  obtain ⟨t, ht, h⟩ := allow_source_iff [⟨true, 1, 0x010a, 16, 0⟩] (by simp [Row.Loadable]) (by decide)
  refine ⟨t, ht, ((h 1 ⟨.inet, 0x0302010a, 5060⟩).mpr (by simp [Unaffected])).mpr
    ⟨rfl, _, mem_singleton_self _, ?_, ?_⟩⟩
  · simp [Row.Serves]
  · show ∀ j < 16, _
    decide

/-- 10.0.0.0/28: 10.0.0.16 is accepted, though it is not in the subnet. -/
theorem allow_source_wrong_bits : ∃ t, reloadAddressTable [⟨true, 1, 0x0a, 28, 0⟩] = some t ∧
    ¬(allowSourceAddress t (some 1) ⟨.inet, 0x1000000a, 5060⟩ = 1 ↔ Af.inet = .inet ∧
      ∃ r ∈ [(⟨true, 1, 0x0a, 28, 0⟩ : Row)], r.Serves 1 ⟨.inet, 0x1000000a, 5060⟩ ∧
        r.SameLeading ⟨.inet, 0x1000000a, 5060⟩) := by
  refine ⟨_, rfl, fun h => ?_⟩
  obtain ⟨-, r, hr, -, hlead⟩ := h.mp (by decide)
  rw [mem_singleton.mp hr] at hlead
  exact absurd (hlead 27 (by decide)) (by decide)

end OpenSer.Permissions
