import OpenSer.Registrar.SipMsg

/-!
# What the checks of a REGISTER request guarantee

`check_contacts` looks at the lengths of the contacts of every Contact header field but the first.

* `checkRest_ok_iff`: what the loop over the other header fields guarantees.
* `check_contacts_safe_iff`: a request that passes is safe to save exactly when the contacts of its first Contact header
  field are not too long.
-/

namespace OpenSer.Registrar

open List Option

variable {m : Fields} {b : ContactBody} {l rest : List HdrField}

/-- Every contact that is delivered is short enough, and a star is the only Contact header field and has no contacts. -/
def SafeToSave (m : Fields) : Prop :=
  (∀ cur, Delivered m cur → cur.contact.fits = true) ∧
    ∀ b, .contact b ∈ m.headers → b.star = true →
      m.headers.filter (· ≠ .other) = [.contact b] ∧ ∀ cur, ¬Delivered m cur

/-- The contacts of the first Contact header field are short enough. -/
def FirstFits (m : Fields) : Prop :=
  ∀ b rest, nextContactHf m.headers = some (b, rest) → ∀ c ∈ b.contacts, c.fits = true

/-! ## The other header fields -/

theorem nextContactHf_some (h : nextContactHf l = some (b, rest)) :
    l.filter (· ≠ .other) = .contact b :: rest.filter (· ≠ .other) := by
  induction l with
  | nil => cases h
  | cons x l ih =>
    cases x with
    | contact b' =>
      cases h
      rfl
    | other => exact ih h

theorem nextContactHf_none (h : nextContactHf l = none) : l.filter (· ≠ .other) = [] := by
  induction l with
  | nil => rfl
  | cons x l ih =>
    cases x with
    | contact b => cases h
    | other => exact ih h

theorem mem_contact_iff : .contact b ∈ l ↔ .contact b ∈ l.filter (· ≠ .other) := by
  simp

/-- **The loop** passes header fields without a star and with contacts that are short enough. -/
theorem checkRest_ok_iff {star : Bool} : checkRest l = .ok star ↔
    star = false ∧ ∀ b, .contact b ∈ l → b.star = false ∧ ∀ c ∈ b.contacts, c.fits = true := by
  induction l with
  | nil =>
    constructor
    · intro h
      cases h
      exact ⟨rfl, fun b hb => absurd hb not_mem_nil⟩
    · rintro ⟨rfl, -⟩
      rfl
  | cons x l ih =>
    cases x with
    | other => simpa [checkRest] using ih
    | contact b =>
      rw [checkRest]
      cases hstar : b.star with
      | true =>
        refine ⟨fun h => by simp at h, fun h => ?_⟩
        have := (h.2 b mem_cons_self).1
        rw [hstar] at this
        cases this
      | false =>
        rw [if_neg Bool.false_ne_true]
        by_cases hfits : b.contacts.all Contact.fits = true
        · rw [if_pos hfits, ih]
          simp only [mem_cons, HdrField.contact.injEq, forall_eq_or_imp, hstar, true_and]
          exact and_congr_right fun _ => ⟨fun h => ⟨all_eq_true.mp hfits, h⟩, fun h => h.2⟩
        · rw [if_neg hfits]
          refine ⟨fun h => by simp at h, fun h => absurd (all_eq_true.mpr ?_) hfits⟩
          exact (h.2 b mem_cons_self).2

theorem mem_contactsFrom {c : Contact} (h : c ∈ contactsFrom l) : ∃ b, .contact b ∈ l ∧ c ∈ b.contacts := by
  induction l with
  | nil => exact absurd h not_mem_nil
  | cons x l ih =>
    cases x with
    | other =>
      obtain ⟨b, hb, hc⟩ := ih h
      exact ⟨b, mem_cons_of_mem _ hb, hc⟩
    | contact b =>
      rw [contactsFrom] at h
      split at h
      · exact absurd h not_mem_nil
      · rcases mem_append.mp h with h | h
        · exact ⟨b, mem_cons_self, h⟩
        · obtain ⟨b', hb', hc⟩ := ih h
          exact ⟨b', mem_cons_of_mem _ hb', hc⟩

theorem contactsOf_of_some (h : nextContactHf m.headers = some (b, rest)) :
    contactsOf m = if b.contacts = [] then [] else b.contacts ++ contactsFrom rest := by
  rw [contactsOf, contactsFrom_eq, h]
  cases hb : b.contacts with
  | nil => simp [Cursor.first, hb]
  | cons c next => simp [Cursor.first, hb, Cursor.rest]

/-! ## The whole request -/

/-- **A request that passes `check_contacts`** is safe to save exactly when the contacts of its first Contact header
field are not too long. -/
theorem check_contacts_safe_iff (cfg : Limits) (actTime : Int) (m : Fields) (star : Bool)
    (h : checkContacts cfg actTime m = .ok star) : SafeToSave m ↔ FirstFits m := by
  unfold checkContacts at h
  cases hfirst : nextContactHf m.headers with
  | none =>
    have hnone := not_delivered (m := m) (by rw [contactsOf_eq, getFirstContact, hfirst]; rfl)
    refine ⟨fun _ b rest hb => ?_, fun _ => ⟨fun cur hcur => absurd hcur (hnone cur), fun b hb => ?_⟩⟩
    · rw [hfirst] at hb
      cases hb
    · rw [mem_contact_iff, nextContactHf_none hfirst] at hb
      exact absurd hb not_mem_nil
  | some p =>
    obtain ⟨b, rest⟩ := p
    rw [hfirst] at h
    dsimp only at h
    have hall := nextContactHf_some hfirst
    have hcontacts := contactsOf_of_some hfirst
    cases hstar : b.star with
    | true =>
      -- the star is alone
      rw [hstar, if_pos rfl] at h
      split at h
      · cases h
      split at h
      · cases h
      rename_i hnil
      split at h
      · cases h
      rename_i hrest
      have hnil := not_not.mp hnil
      have hrest := nextContactHf_none (not_isSome_iff_eq_none.mp hrest)
      rw [hrest] at hall
      rw [if_pos hnil] at hcontacts
      have hnone := not_delivered hcontacts
      refine ⟨fun _ b' rest' hb' c hc => ?_, fun _ => ⟨fun cur hcur => absurd hcur (hnone cur), fun b' hb' _ => ?_⟩⟩
      · obtain ⟨rfl, -⟩ := Prod.mk.inj (some.inj (hfirst.symm.trans hb'))
        rw [hnil] at hc
        exact absurd hc not_mem_nil
      · rw [mem_contact_iff, hall, mem_singleton] at hb'
        exact ⟨hb' ▸ hall, hnone⟩
    | false =>
      rw [hstar, if_neg Bool.false_ne_true, checkRest_ok_iff] at h
      constructor
      · intro hsafe b' rest' hb' c hc
        obtain ⟨rfl, -⟩ := Prod.mk.inj (some.inj (hfirst.symm.trans hb'))
        have hmem : c ∈ contactsOf m := by
          rw [hcontacts, if_neg (ne_nil_of_mem hc)]
          exact mem_append_left _ hc
        obtain ⟨cur, hcur, rfl⟩ := delivered_of_mem hmem
        exact hsafe.1 cur hcur
      · intro hfits
        refine ⟨fun cur hcur => ?_, fun b' hb' hstar' => ?_⟩
        · obtain ⟨pre, hpre⟩ := delivered_rest hcur
          have hmem : cur.contact ∈ contactsOf m := by
            rw [hpre]
            exact mem_append_right _ mem_cons_self
          rw [hcontacts] at hmem
          split at hmem
          · exact absurd hmem not_mem_nil
          · rcases mem_append.mp hmem with hmem | hmem
            · exact hfits b rest hfirst _ hmem
            · obtain ⟨b', hb', hc⟩ := mem_contactsFrom hmem
              exact (h.2 b' hb').2 _ hc
        · rw [mem_contact_iff, hall, mem_cons, HdrField.contact.injEq] at hb'
          rcases hb' with rfl | hb'
          · rw [hstar] at hstar'
            cases hstar'
          · rw [(h.2 b' (mem_contact_iff.mpr hb')).1] at hstar'
            cases hstar'

/-- Two Contact header fields; the second contact of the second one has a received parameter. -/
theorem check_contacts_safe_short :
    let m : Fields := ⟨[.other, .contact ⟨false, [⟨"sip:a@b".toList, none, none, none, none⟩]⟩, .other,
      .contact ⟨false, [⟨"sip:c@d".toList, none, none, none, none⟩,
        ⟨"sip:e@f".toList, none, none, none, some ⟨"1.2.3.4".toList, 16, by decide⟩⟩]⟩], none⟩
    checkContacts ⟨3600, 60, 0⟩ 1000 m = .ok false ∧ SafeToSave m := by
  intro m
  have hok : checkContacts ⟨3600, 60, 0⟩ 1000 m = .ok false := by decide
  refine ⟨hok, (check_contacts_safe_iff ⟨3600, 60, 0⟩ 1000 m false hok).mpr fun b rest hb c hc => ?_⟩
  cases hb
  rw [mem_singleton.mp hc]
  decide

/-- A contact of 300 bytes in the first Contact header field passes. -/
theorem check_contacts_too_long :
    ∃ m cur, checkContacts ⟨3600, 60, 0⟩ 1000 m = .ok false ∧ Delivered m cur ∧
      cur.contact.uri.length > contactMaxSize := by
  refine ⟨⟨[.contact ⟨false, [⟨List.replicate 300 'a', none, none, none, none⟩]⟩], none⟩, _, rfl,
    Delivered.first rfl, ?_⟩
  rw [length_replicate]
  decide

end OpenSer.Registrar
