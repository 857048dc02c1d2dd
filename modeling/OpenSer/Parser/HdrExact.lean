import OpenSer.Parser.HdrNames

/-!
# Header names that are recognised

The header name before the first colon, its type in the list of names, and where `parse_hname2` gives another type or
another length.

* `named_taken`: the tests of a name are not passed by the text of another one.
* `hname2_exact_iff`: the header names that are classified right, and those that are measured right.
-/

namespace OpenSer.Parser.Hname2

open List Nat

/-! ## The list of names -/

def toLower (b : UInt8) : UInt8 := if 'A'.toUInt8 ≤ b ∧ b ≤ 'Z'.toUInt8 then b + 32 else b

/-- The header name before a colon is a name, ignoring the case of its letters. -/
def Named (m : Nat → UInt8) (k : Nat) (n : Name) : Prop := (token m k).map toLower = n.name

instance (m : Nat → UInt8) (k : Nat) (n : Name) : Decidable (Named m k n) := inferInstanceAs (Decidable (_ = _))

def nameType (m : Nat → UInt8) (k : Nat) : HdrType :=
  match names.find? (fun n => decide (Named m k n)) with
  | some n => n.type
  | none => .other

/-- A header name that the parser takes for what it is not. -/
inductive Misread (m : Nat → UInt8) (k : Nat) : Prop
  /-- a name, with white space behind it that the tests do not go over -/
  | gap {n : Name} (hn : n ∈ names) (hname : Named m k n) (hgap : ¬n.kind.Goes m n.name.length k)
  /-- a name with a wrong key -/
  | lost {n : Name} (hn : n ∈ names) (hname : Named m k n) (hkey : n.key ≠ n.name)
  /-- the key of a name, but not the name -/
  | byte {n : Name} (hn : n ∈ names) (hle : n.key.length ≤ k)
      (hkey : (stretch m n.key.length 0).map lowerByte = n.key) (hgoes : n.kind.Goes m n.key.length k)
      (hname : (stretch m n.key.length 0).map toLower ≠ n.name)
  /-- the key of a name, and a byte behind it that is taken for a space or the colon -/
  | stray {n : Name} (hn : n ∈ names) (hle : n.key.length ≤ k)
      (hkey : (stretch m n.key.length 0).map lowerByte = n.key) (hstray : n.kind.Strays m n.key.length k)

/-! ## Names and keys -/

section
variable {m : Nat → UInt8} {k : Nat} {n n' : Name} {kind : Kind} {j : Nat} (x : UInt8)

theorem lowerByte_of_nameChar : isNameChar (toLower x) = true → lowerByte x = toLower x := by
  apply forall_byte (P := fun x => isNameChar (toLower x) = true → lowerByte x = toLower x)
  decide +kernel

theorem not_nameChar_blank : isBlank x = true → isNameChar (lowerByte x) = false := by
  apply forall_byte (P := fun x => isBlank x = true → isNameChar (lowerByte x) = false)
  decide +kernel

theorem not_nameChar_stop : isBlank x = true ∨ x = 0x00 ∨ x = 0x1a → isNameChar (toLower x) = false := by
  apply forall_byte (P := fun x => isBlank x = true ∨ x = 0x00 ∨ x = 0x1a → isNameChar (toLower x) = false)
  decide +kernel

theorem Kind.Goes.blank (h : kind.Goes m j k) : Blank m j k := by
  have hspace : m j = ' '.toUInt8 → isBlank (m j) = true := by
    intro h
    rw [h]
    decide
  cases kind with
  | plain => exact h
  | spaced => exact h
  | colon => exact (show j = k from h) ▸ Blank.refl m j
  | direct | compact =>
    rcases h with rfl | ⟨hlt, hs, hb⟩
    · exact Blank.refl m j
    · exact (Blank.step_iff hlt).mpr ⟨hspace hs, hb⟩

theorem Kind.Strays.byte (h : kind.Strays m j k) : j < k ∧ (m j = 0x00 ∨ m j = 0x1a) := by
  cases kind with
  | direct =>
    obtain ⟨hlt, ⟨hnul, -⟩ | hsub⟩ := h
    · exact ⟨hlt, .inl hnul⟩
    · exact ⟨hlt, .inr hsub⟩
  | spaced =>
    obtain ⟨hlt, hsub, -⟩ := h
    exact ⟨by omega, .inr hsub⟩
  | plain | compact | colon => exact h.elim

theorem Taken.stops (ht : Taken m k n) (hlt : n.key.length < k) :
    isBlank (m n.key.length) = true ∨ m n.key.length = 0x00 ∨ m n.key.length = 0x1a := by
  rcases ht.ends with hgoes | hstray
  · exact .inl (hgoes.blank _ le_rfl hlt)
  · exact .inr hstray.byte.2

theorem Named.length_eq (h : Named m k n) : tokenLen m k = n.name.length := by
  rw [← h, length_map, token, length_stretch]

theorem mem_of_stretch {f : UInt8 → UInt8} {j i : Nat} {w : List UInt8} (h : (stretch m j 0).map f = w) (hi : i < j) :
    f (m i) ∈ w := by
  rw [← h]
  refine mem_map_of_mem (mem_of_getElem? (i := i) ?_)
  rw [getElem?_stretch m 0 hi, zero_add]

theorem Named.lower (h : Named m k n) (hn : n ∈ names) : (stretch m n.name.length 0).map lowerByte = n.name := by
  nth_rewrite 2 [← h]
  rw [← h.length_eq]
  refine map_congr_left fun x hx => lowerByte_of_nameChar x (name_chars n hn _ (mem_append_right _ ?_))
  rw [← h]
  exact mem_map_of_mem hx

theorem names_inj : ∀ n ∈ names, ∀ n' ∈ names, n.key = n'.name → n = n' := by
  decide +kernel

/-- **The tests of a name are not passed by the text of another one.** -/
theorem named_taken (hn : n ∈ names) (hn' : n' ∈ names) (ht : Taken m k n) (hname : Named m k n') :
    n = n' ∧ n.key = n.name := by
  have hlen := hname.length_eq
  have hle := tokenLen_le m k
  have hchar : ∀ b ∈ n'.name, isNameChar b = true := fun b hb => name_chars n' hn' b (mem_append_right _ hb)
  have heq : n.key.length = tokenLen m k := by
    rcases lt_trichotomy n.key.length (tokenLen m k) with hlt | heq | hgt
    · have hstop := ht.stops (by omega)
      have := hchar _ (mem_of_stretch hname hlt)
      rw [not_nameChar_stop _ hstop] at this
      cases this
    · exact heq
    · have hblank := blank_tokenLen m k _ le_rfl (lt_of_lt_of_le hgt ht.le)
      have := name_chars n hn _ (mem_append_left _ (mem_of_stretch ht.key hgt))
      rw [not_nameChar_blank _ hblank] at this
      cases this
  have hkey : n.key = n'.name := by
    rw [← ht.key, heq, hlen]
    exact hname.lower hn'
  have hsame := names_inj n hn n' hn' hkey
  exact ⟨hsame, hkey.trans (hsame ▸ rfl)⟩

theorem named_inj : ∀ n ∈ names, ∀ n' ∈ names, n.name = n'.name → n = n' := by
  decide +kernel

theorem Named.nameType_eq (hname : Named m k n) (hn : n ∈ names) : nameType m k = n.type := by
  unfold nameType
  cases hfind : names.find? (fun n => decide (Named m k n)) with
  | none => exact absurd (decide_eq_true hname) (find?_eq_none.mp hfind n hn)
  | some n' =>
    have hsome := find?_some hfind
    have hname' : Named m k n' := of_decide_eq_true hsome
    rw [named_inj n hn n' (mem_of_find?_eq_some hfind) (hname.symm.trans hname')]

theorem nameType_cases (m : Nat → UInt8) (k : Nat) :
    nameType m k = .other ∧ (∀ n ∈ names, ¬Named m k n) ∨ ∃ n ∈ names, Named m k n ∧ nameType m k = n.type := by
  cases hfind : names.find? (fun n => decide (Named m k n)) with
  | none =>
    refine .inl ⟨by rw [nameType, hfind], fun n hn hname => ?_⟩
    exact find?_eq_none.mp hfind n hn (decide_eq_true hname)
  | some n =>
    have hsome := find?_some hfind
    exact .inr ⟨n, mem_of_find?_eq_some hfind, of_decide_eq_true hsome, by rw [nameType, hfind]⟩

theorem Kind.Strays.lt_tokenLen (h : kind.Strays m j k) : j < tokenLen m k := by
  obtain ⟨hlt, hbyte⟩ := h.byte
  refine Hname2.lt_tokenLen hlt ?_
  rcases hbyte with hbyte | hbyte <;> rw [hbyte] <;> decide

theorem names_length : ∀ n ∈ names, n.key.length = n.name.length ∧ 0 < n.name.length := by
  decide +kernel

theorem named_of_blank (hn : n ∈ names) (hj : 0 < j) (hjk : j ≤ k) (h : (stretch m j 0).map toLower = n.name)
    (hb : Blank m j k) : Named m k n := by
  obtain ⟨i, rfl⟩ := exists_eq_succ_of_ne_zero hj.ne'
  have hchar := name_chars n hn _ (mem_append_right _ (mem_of_stretch h (lt_succ_self i)))
  have hlast : isBlank (m i) = false := by
    by_contra hblank
    rw [not_nameChar_stop _ (.inl (Bool.not_eq_false _ ▸ hblank))] at hchar
    cases hchar
  rw [Named, token, tokenLen_eq hjk hlast hb]
  exact h

end

/-! ## What is recognised -/

section
variable {text : Text} {k : Nat}

theorem FirstColon.type_ne_of_misread (h : FirstColon text k) (hsize : 4 ≤ text.size) (hdr : HdrField)
    (hmis : Misread text.byte k) : (parseHname2 text hdr).1.type ≠ nameType text.byte k := by
  intro heq
  -- the name that gave the type is the one in the list
  have htaken : ∀ n ∈ names, Named text.byte k n → Taken text.byte k n ∧ n.key = n.name := by
    intro n hn hname
    rw [hname.nameType_eq hn] at heq
    rcases h.parse_cases hsize hdr with ho | ⟨n', hn', ht, -⟩
    · rw [ho] at heq
      exact absurd heq.symm (type_ne n hn).1
    · obtain ⟨rfl, hkey⟩ := named_taken hn' hn ht hname
      exact ⟨ht, hkey⟩
  have hnamed : ∀ n ∈ names, Taken text.byte k n → Named text.byte k n := by
    intro n hn ht
    rw [(h.parse_taken hsize hdr hn ht).1] at heq
    rcases nameType_cases text.byte k with ⟨ho, -⟩ | ⟨n', hn', hname, -⟩
    · rw [ho] at heq
      exact absurd heq (type_ne n hn).1
    · obtain ⟨rfl, -⟩ := named_taken hn hn' ht hname
      exact hname
  cases hmis with
  | @gap n hn hname hgap =>
    obtain ⟨ht, hkey⟩ := htaken n hn hname
    rw [← hkey] at hgap
    rcases ht.ends with hgoes | hstray
    · exact hgap hgoes
    · have hlt := hstray.lt_tokenLen
      rw [hname.length_eq, ← hkey] at hlt
      omega
  | @lost n hn hname hkey => exact hkey (htaken n hn hname).2
  | @byte n hn hle hkey hgoes hne =>
    have hname := hnamed n hn ⟨hle, hkey, .inl hgoes⟩
    apply hne
    rw [(names_length n hn).1, ← hname.length_eq]
    exact hname
  | @stray n hn hle hkey hstray =>
    have hname := hnamed n hn ⟨hle, hkey, .inr hstray⟩
    have hlt := hstray.lt_tokenLen
    rw [hname.length_eq, (names_length n hn).1] at hlt
    omega

theorem FirstColon.type_eq_of_not_misread (h : FirstColon text k) (hsize : 4 ≤ text.size) (hdr : HdrField)
    (hmis : ¬Misread text.byte k) : (parseHname2 text hdr).1.type = nameType text.byte k := by
  rcases nameType_cases text.byte k with ⟨ho, hnone⟩ | ⟨n, hn, hname, htype⟩
  · rw [ho]
    rcases h.parse_cases hsize hdr with hres | ⟨n, hn, ht, -⟩
    · rw [hres]
    · rcases ht.ends with hgoes | hstray
      · by_cases hlow : (stretch text.byte n.key.length 0).map toLower = n.name
        · obtain ⟨hlen, hpos⟩ := names_length n hn
          exact absurd (named_of_blank hn (by omega) ht.le hlow hgoes.blank) (hnone n hn)
        · exact absurd (.byte hn ht.le ht.key hgoes hlow) hmis
      · exact absurd (.stray hn ht.le ht.key hstray) hmis
  · have hkey : n.key = n.name := by
      by_contra hne
      exact hmis (.lost hn hname hne)
    have hgoes : n.kind.Goes text.byte n.name.length k := by
      by_contra hgap
      exact hmis (.gap hn hname hgap)
    rw [htype]
    refine (h.parse_taken hsize hdr hn ⟨?_, ?_, .inl (hkey ▸ hgoes)⟩).1
    · rw [hkey, ← hname.length_eq]
      exact tokenLen_le _ _
    · rw [hkey]
      exact hname.lower hn

/-- The key of a name, with 0x1a taken for the colon: the length stops there. -/
def CutShort (m : Nat → UInt8) (k : Nat) : Prop :=
  ∃ n ∈ names, n.key.length ≤ k ∧ (stretch m n.key.length 0).map lowerByte = n.key ∧
    n.kind.Strays m n.key.length k ∧ m n.key.length = 0x1a

theorem tokenLen_eq_self_iff {m : Nat → UInt8} {k : Nat} : tokenLen m k = k ↔ ∀ i, i + 1 = k →
    isBlank (m i) = false := by
  constructor
  · rintro h i rfl
    by_contra hb
    rw [tokenLen, if_pos (Bool.not_eq_false _ ▸ hb)] at h
    have := tokenLen_le m i
    omega
  · intro h
    cases k with
    | zero => rfl
    | succ k =>
      rw [tokenLen, h k rfl]
      rfl

/-- The length is that of the header name exactly when no white space follows it and nothing cuts it short. -/
theorem FirstColon.nameLen_eq_iff (h : FirstColon text k) (hsize : 4 ≤ text.size) (hdr : HdrField) :
    (parseHname2 text hdr).1.nameLen = (token text.byte k).length ↔
      (∀ i, i + 1 = k → isBlank (text.byte i) = false) ∧ ¬CutShort text.byte k := by
  rw [token, length_stretch, ← tokenLen_eq_self_iff]
  have hk : ¬CutShort text.byte k → (parseHname2 text hdr).1.nameLen = k := by
    intro hcut
    rcases h.parse_cases hsize hdr with hres | ⟨n, hn, ht, hres | ⟨-, hstray, hsub⟩⟩
    · rw [hres]
    · rw [hres]
    · exact absurd ⟨n, hn, ht.le, ht.key, hstray, hsub⟩ hcut
  constructor
  · intro hlen
    have hcut : ¬CutShort text.byte k := by
      rintro ⟨n, hn, hle, hkey, hstray, hsub⟩
      have hlt := hstray.lt_tokenLen
      rw [(h.parse_taken hsize hdr hn ⟨hle, hkey, .inr hstray⟩).2 hsub] at hlen
      omega
    rw [hk hcut] at hlen
    exact ⟨hlen.symm, hcut⟩
  · rintro ⟨hlen, hcut⟩
    rw [hk hcut, hlen]

/-- **When a header name is recognised**: the type is that of the list of names exactly when there are four bytes and
the name is not misread; and the length is that of the name exactly when no white space stands before the colon and the
name is not cut short. -/
theorem hname2_exact_iff (h : FirstColon text k) (hdr : HdrField) :
    ((parseHname2 text hdr).1.type = nameType text.byte k ↔ 4 ≤ text.size ∧ ¬Misread text.byte k) ∧
    (4 ≤ text.size → ((parseHname2 text hdr).1.nameLen = (token text.byte k).length ↔
      (∀ i, i + 1 = k → isBlank (text.byte i) = false) ∧ ¬CutShort text.byte k)) := by
  refine ⟨?_, fun hsize => h.nameLen_eq_iff hsize hdr⟩
  by_cases hsize : 4 ≤ text.size
  · constructor
    · intro heq
      exact ⟨hsize, fun hmis => h.type_ne_of_misread hsize hdr hmis heq⟩
    · rintro ⟨-, hmis⟩
      exact h.type_eq_of_not_misread hsize hdr hmis
  · refine ⟨fun heq => ?_, fun hright => absurd hright.1 hsize⟩
    rw [parseHname2, if_pos (by omega)] at heq
    rcases nameType_cases text.byte k with ⟨ho, -⟩ | ⟨n, hn, -, htype⟩
    · rw [ho] at heq
      cases heq
    · rw [htype] at heq
      exact absurd heq.symm (type_ne n hn).2

end

/-- A text that is followed by zeros. -/
def textOf (s : String) (h : s.length < 2 ^ 32 := by decide) : Text :=
  { byte := fun i => (bytes s).getD i 0, size := s.length, size_lt := h }

/-- A Contact header field. -/
theorem hname2_exact_contact :
    FirstColon (textOf "Contact: sip:a@b\r\n") 7 ∧
    ((parseHname2 (textOf "Contact: sip:a@b\r\n") ⟨.other, 0⟩).1.type =
        nameType (textOf "Contact: sip:a@b\r\n").byte 7 ↔
      4 ≤ (textOf "Contact: sip:a@b\r\n").size ∧ ¬Misread (textOf "Contact: sip:a@b\r\n").byte 7) ∧
    ((parseHname2 (textOf "Contact: sip:a@b\r\n") ⟨.other, 0⟩).1.nameLen =
        (token (textOf "Contact: sip:a@b\r\n").byte 7).length ↔
      (∀ i, i + 1 = 7 → isBlank ((textOf "Contact: sip:a@b\r\n").byte i) = false) ∧
        ¬CutShort (textOf "Contact: sip:a@b\r\n").byte 7) := by
  have h : FirstColon (textOf "Contact: sip:a@b\r\n") 7 := ⟨by decide, by decide, by decide +kernel⟩
  have hexact := hname2_exact_iff h ⟨.other, 0⟩
  exact ⟨h, hexact.1, hexact.2 (by decide)⟩

/-- Accept-Disposition is not recognised, white space counts as part of the name, a tab hides the name of a Via and a
carriage return is taken for a hyphen. -/
theorem hname2_misread :
    (parseHname2 (textOf "Accept-Disposition: x\r\n") ⟨.other, 0⟩).1 = ⟨.other, 18⟩ ∧
    nameType (textOf "Accept-Disposition: x\r\n").byte 18 = .acceptDisposition ∧
    (parseHname2 (textOf "From : x\r\n") ⟨.other, 0⟩).1 = ⟨.from_, 5⟩ ∧
    (token (textOf "From : x\r\n").byte 5).length = 4 ∧
    (parseHname2 (textOf "Via\t: x\r\n") ⟨.other, 0⟩).1.type = .other ∧
    nameType (textOf "Via\t: x\r\n").byte 4 = .via ∧
    (parseHname2 (textOf "Call\rID: x\r\n") ⟨.other, 0⟩).1.type = .callId ∧
    nameType (textOf "Call\rID: x\r\n").byte 7 = .other := by
  decide +kernel

end OpenSer.Parser.Hname2
