import OpenSer.Registrar.Atomic

/-!
# The last writes of bindings

Contacts are matched by their URI only. For every URI it is noted who wrote its binding last: the Call-ID, the CSeq
number and the time.

* `Descends`: what is removed, marked, flushed or left half updated keeps its URI and its number.
* `timer_descends`, `starred_descends`: the timer, and the removal of a record.
* `UpdateCase.sound`, `InsertCase.sound`: a turn leaves at most one binding for a URI, with the number of the last
  write.
* `UpdateCase.untouched`: a turn leaves a binding alone that was written with the same Call-ID and no smaller number.
* `updateRuns_sound`, `updateRuns_untouched`, `insertRuns_sound`: the loops.
-/

namespace OpenSer.Registrar

open List OpenSer.Usrloc Lib Function Option

/-! ## Bindings and their last writes -/

structure Write where
  callid : Str
  cseq : Int
  time : Nat
  deriving Repr, DecidableEq

def Unique (r : URecord) : Prop := ∀ c d x y, view r c = some x → view r d = some y → x.c = y.c → c = d

/-- The number of a binding is that of its last write. -/
def Agrees (r : URecord) (last : Str → Option Write) : Prop :=
  ∀ c x w, view r c = some x → last x.c = some w → x.vals.cseq = w.cseq

/-- Every binding of `r'` is one of `r`, with its URI and its number. -/
def Descends (r r' : URecord) : Prop :=
  ∀ c y, view r' c = some y → ∃ x, view r c = some x ∧ x.c = y.c ∧ x.vals.cseq = y.vals.cseq

def Did.writes : Did → Bool
  | .inserted _ _ => true
  | .updated _ _ => true
  | _ => false

def note (m : Request) (last : Str → Option Write) (e : Entry) : Str → Option Write :=
  if e.did.writes then update last e.contact.uri (some ⟨m.callid, decimal m.cseq, m.actTime⟩) else last

section
variable {r r' r'' : URecord} {last : Str → Option Write} {p : Nat} {x : UContact}

theorem Descends.refl (r : URecord) : Descends r r := fun _ y hy => ⟨y, hy, rfl, rfl⟩

theorem Descends.trans (h : Descends r r') (h' : Descends r' r'') : Descends r r'' := by
  intro c z hz
  obtain ⟨y, hy, hyz, hyz'⟩ := h' c z hz
  obtain ⟨x, hx, hxy, hxy'⟩ := h c y hy
  exact ⟨x, hx, hxy.trans hyz, hxy'.trans hyz'⟩

theorem Descends.of_bind {f : UContact → Option UContact} (hf : ∀ x y, f x = some y → x.c = y.c ∧
    x.vals.cseq = y.vals.cseq) (hview : ∀ c, view r' c = (view r c).bind f) : Descends r r' := by
  intro c y hy
  rw [hview, bind_eq_some_iff] at hy
  obtain ⟨x, hx, hxy⟩ := hy
  exact ⟨x, hx, hf x y hxy⟩

theorem Descends.of_update {y : Option UContact} (hx : view r p = some x)
    (hy : ∀ z, y = some z → x.c = z.c ∧ x.vals.cseq = z.vals.cseq) (hview : view r' = update (view r) p y) :
    Descends r r' := by
  intro c z hz
  rw [hview, update_apply] at hz
  split at hz
  · rename_i hc
    subst hc
    exact ⟨x, hx, hy z hz⟩
  · exact ⟨z, hz, rfl, rfl⟩

theorem Unique.descends (h : Unique r) (hr : Descends r r') : Unique r' := by
  intro c d x y hx hy hxy
  obtain ⟨x₀, hx₀, hxc, -⟩ := hr c x hx
  obtain ⟨y₀, hy₀, hyc, -⟩ := hr d y hy
  exact h c d x₀ y₀ hx₀ hy₀ (by rw [hxc, hyc, hxy])

theorem Agrees.descends (h : Agrees r last) (hr : Descends r r') : Agrees r' last := by
  intro c y w hy hw
  obtain ⟨x, hx, hc, hcseq⟩ := hr c y hy
  rw [← hcseq]
  exact h c x w hx (by rw [hc]; exact hw)

theorem Unique.write (h : Unique r) (hview : view r' = update (view r) p (some x))
    (hx : ∀ d y, d ≠ p → view r d = some y → y.c ≠ x.c) : Unique r' := by
  intro c d y z hy hz hyz
  rw [hview, update_apply] at hy hz
  split at hy
  · rename_i hc
    split at hz
    · rename_i hd
      rw [hc, hd]
    · rename_i hd
      cases hy
      exact absurd hyz.symm (hx d z hd hz)
  · rename_i hc
    split at hz
    · cases hz
      exact absurd hyz (hx c y hc hy)
    · exact h c d y z hy hz hyz

theorem Agrees.write (h : Agrees r last) (hun : Unique r') (hview : view r' = update (view r) p (some x)) {w : Write}
    (hcseq : x.vals.cseq = w.cseq) : Agrees r' (update last x.c (some w)) := by
  intro c y v hy hv
  have hp : view r' p = some x := by rw [hview, Function.update_self]
  rw [update_apply] at hv
  split at hv
  · rename_i hc
    obtain rfl := hun c p y x hy hp hc
    rw [hp] at hy
    cases hy
    cases hv
    exact hcseq
  · rename_i hc
    rw [hview, update_apply] at hy
    split at hy
    · cases hy
      exact absurd rfl hc
    · exact h c y v hy hv

end

/-- At most one binding for a URI, with the number of the last write. -/
structure Sound (r : URecord) (last : Str → Option Write) : Prop where
  unique : Unique r
  agrees : Agrees r last

theorem Sound.descends {r r' : URecord} {last : Str → Option Write} (h : Sound r last) (hr : Descends r r') :
    Sound r' last := ⟨h.unique.descends hr, h.agrees.descends hr⟩

/-! ## What the operations leave -/

section
variable {cfg : Cfg} {m : Request} {u u' : UDomain} {l : List Nat}

theorem leftOver_key {mode : DbMode} (x y : UContact) (h : leftOver mode x = some y) :
    x.c = y.c ∧ x.vals.cseq = y.vals.cseq := by
  obtain ⟨-, h⟩ := ite_none_left_eq_some.mp h
  cases h
  unfold stDeleteUcontact
  split
  · exact ⟨rfl, rfl⟩
  · split <;> exact ⟨rfl, rfl⟩
  · split <;> exact ⟨rfl, rfl⟩

theorem memUpdate_key (g : Grants) (x : UContact) (ci : Info) (h : (memUpdate g x ci).2 = false) :
    x.c = (memUpdate g x ci).1.c ∧ x.vals.cseq = (memUpdate g x ci).1.vals.cseq := by
  unfold memUpdate at h ⊢
  dsimp only at h ⊢
  split
  · exact ⟨rfl, rfl⟩
  · rename_i hua
    rw [if_neg hua] at h
    split
    · exact ⟨rfl, rfl⟩
    · rename_i hrecv
      rw [if_neg hrecv] at h
      split
      · exact ⟨rfl, rfl⟩
      · rename_i hpath
        rw [if_neg hpath] at h
        cases h

theorem starred_descends {env : Env} {v : UDomain} {memOnly : Bool} (hu : ListOk u.mem l)
    (hmode : cfg.usrloc.dbMode ≠ .dbOnly) (hmark : starLoop memOnly u = some v)
    (hdel : deleteUrecord cfg env v = some (some u')) : Descends u.mem u'.mem := by
  obtain ⟨v', hv', ⟨k, hk⟩, hmarked⟩ := starLoop_view memOnly hu
  obtain rfl := some.inj (hmark.symm.trans hv')
  obtain ⟨w, hw, -, hleft⟩ := deleteUrecord_view cfg env hk hmode
  obtain rfl : u' = w := some.inj (some.inj (hdel.symm.trans hw))
  have hmark' : Descends u.mem v.mem := by
    refine Descends.of_bind (f := fun x => some (markMem memOnly x)) ?_ fun c => ?_
    · rintro x y hy
      cases hy
      exact ⟨rfl, rfl⟩
    · rw [hmarked, map_eq_bind]
      rfl
  exact hmark'.trans (Descends.of_bind leftOver_key hleft)

theorem descends_of_cells {r r' : URecord} (hlive : ∀ d, r'.live d = true → r.live d = true)
    (hcell : ∀ d, (r.cell d).c = (r'.cell d).c ∧ (r.cell d).vals = (r'.cell d).vals) : Descends r r' := by
  intro d y hy
  obtain ⟨hd, rfl⟩ := view_eq_some.mp hy
  exact ⟨_, view_eq_some.mpr ⟨hlive d hd, rfl⟩, (hcell d).1, by rw [(hcell d).2]⟩

theorem memDelete_descends (r : URecord) (c : Nat) : Descends r (r.memDeleteUcontact c) := by
  have hcell := memDeleteUcontact_cell r c
  refine descends_of_cells (fun d hd => ?_) fun d => ?_
  · have hlive : (r.memDeleteUcontact c).live = update r.live c false := rfl
    rw [hlive, update_apply] at hd
    split at hd
    · cases hd
    · exact hd
  · rw [hcell]
    exact ⟨rfl, rfl⟩

theorem setCell_descends (r : URecord) (c : Nat) (x : UContact) (hc : (r.cell c).c = x.c)
    (hx : (r.cell c).vals = x.vals) : Descends r (r.setCell c x) := by
  refine descends_of_cells (fun d hd => hd) fun d => ?_
  rw [URecord.setCell_cell, update_apply]
  split
  · rename_i hd
    subst hd
    exact ⟨hc, hx⟩
  · exact ⟨rfl, rfl⟩

theorem wbContact_descends (t : Nat) (ok : Bool) (c : Nat) (u : UDomain) : Descends u.mem (wbContact t ok c u).mem := by
  obtain ⟨hc, -, hvals⟩ := stFlushUcontact_vals (u.mem.cell c)
  unfold wbContact
  dsimp only
  split
  · split
    · exact .refl _
    · refine setCell_descends _ _ _ ?_ ?_ <;> split <;> first | exact hc.symm | exact hvals.symm
    · refine setCell_descends _ _ _ ?_ ?_ <;> split <;> first | exact hc.symm | exact hvals.symm
  · exact memDelete_descends _ _

theorem nodbContact_descends (t c : Nat) (u : UDomain) : Descends u.mem (nodbContact t c u).mem := by
  unfold nodbContact
  split
  · exact .refl _
  · exact memDelete_descends _ _

/-- **A run of the timer** leaves bindings as they are, or drops them. -/
theorem timer_descends (cfg : Config) (t : Nat) (ok : Nat → Bool) (h : ListOk u.mem l) :
    ∃ u', timerUrecord cfg u t ok = some u' ∧ (∃ l', ListOk u'.mem l') ∧ Descends u.mem u'.mem := by
  have hloop : ∀ visit : Nat → UDomain → UDomain,
      (∀ l₁ c l₂ u, ListOk u.mem (l₁ ++ c :: l₂) →
        ListOk (visit c u).mem (l₁ ++ (if (u.mem.cell c).vals.valid t then [c] else []) ++ l₂)) →
      (∀ c u, Descends u.mem (visit c u).mem) →
      ∃ u', timerLoop visit u.mem.fresh u.mem.contacts u = some u' ∧ (∃ l', ListOk u'.mem l') ∧
        Descends u.mem u'.mem := by
    intro visit hok hdesc
    obtain ⟨u', l', hrun, hok', hp⟩ := timerLoop_rule (P := fun _ _ v => Descends u.mem v.mem) hok
      (fun k c s v _ hv => hv.trans (hdesc c v)) (s := l) (k := []) h h.length_le (.refl _)
    rw [h.dll.head_eq]
    exact ⟨u', hrun, ⟨l', hok'⟩, hp⟩
  unfold timerUrecord
  cases cfg.dbMode with
  | noDb => exact hloop _ (nodbContact_ok t) (nodbContact_descends t)
  | writeThrough | writeBack => exact hloop _ (wbContact_ok t ok) fun c u => wbContact_descends t (ok c) c u
  | dbOnly => exact ⟨u, rfl, ⟨l, h⟩, .refl _⟩

end

/-! ## Turns -/

def Packed (m : Request) (ci : Info) : Prop := ci.callid = m.callid ∧ ci.vals.cseq = decimal m.cseq

section
variable {cfg : Cfg} {m : Request} {u u' : UDomain} {l : List Nat} {ci ci' : Info} {c : Contact}
  {ch : Chance} {did : Did}
  {last : Str → Option Write} {err : RErr} {cs : List (Contact × Chance)} {i i' : Inserting} {x : UContact} {d : Nat}

theorem packMsg_packed (hrange : decimal m.cseq < 2 ^ 31) (h : packMsg cfg m = .ok ci) : Packed m ci := by
  unfold packMsg at h
  split at h
  · cases h
  split at h
  · cases h
  rename_i v hv
  split at h
  · cases h
  split at h
  · cases h
  cases h
  refine ⟨rfl, ?_⟩
  obtain rfl := str2int_eq_some hv
  dsimp only
  rw [BitVec.toInt_eq_toNat_cond, BitVec.toNat_ofNat, Nat.mod_eq_of_lt (by omega), if_pos (by omega)]

theorem packContact_packed {e : BitVec 32} (hci : Packed m ci) (h : packContact cfg m ci c e = .ok ci') :
    Packed m ci' := by
  unfold packContact at h
  split at h
  · cases h
  split at h
  · cases h
  split at h
  · cases h
  cases h
  exact hci

theorem test_contactOnly (hmatch : cfg.matching = .contactOnly) {uri callid : Str} :
    cfg.matching.test uri callid x = true ↔ x.c = uri := by
  rw [hmatch]
  simp [Matching.test]

theorem Sound.write {p : Nat} (h : Sound u.mem last)
    (hview : view u'.mem = update (view u.mem) p (some x)) (hother : ∀ d y, d ≠ p → view u.mem d = some y → y.c ≠ x.c)
    (hc : x.c = c.uri) (hcseq : x.vals.cseq = decimal m.cseq) (hdid : did.writes = true) :
    Sound u'.mem (note m last ⟨u, c, did, u'⟩) := by
  have hun := h.unique.write hview hother
  rw [note, if_pos hdid, ← hc]
  exact ⟨hun, h.agrees.write hun hview hcseq⟩

/-- **A turn of `update_contacts`** leaves at most one binding for a URI, with the number of the last write. -/
theorem UpdateCase.sound (h : UpdateCase cfg m u ci c ch (.done did u' ci')) (hu : ListOk u.mem l)
    (hmatch : cfg.matching = .contactOnly) (hci : Packed m ci) (hs : Sound u.mem last) :
    Sound u'.mem (note m last ⟨u, c, did, u'⟩) ∧ Packed m ci' := by
  cases h with
  | retransmission | absent => exact ⟨hs, hci⟩
  | inserted hget he hpack hmem hins =>
    have hci' := packContact_packed hci hpack
    obtain ⟨-, x, hview, hc, -, hvals, -⟩ := insertUcontact_view cfg.usrloc hu hins
    have hcseq : x.vals.cseq = decimal m.cseq := by
      rw [hvals]
      exact hci'.2
    refine ⟨hs.write hview (fun d y _ hy => ?_) hc hcseq rfl, hci'⟩
    have htest := getUcontact_notFound hu hget d ((ListOk.mem_iff hu).mpr ⟨y, hy⟩)
    rw [(view_eq_some.mp hy).2, ← Bool.not_eq_true, test_contactOnly hmatch] at htest
    rwa [hc]
  | @deleted p hget he =>
    have hp := (getUcontact_found hu hget).1
    have hview := deleteMarked_view cfg.usrloc hu hp m.memOnly ch.db
    exact ⟨hs.descends (Descends.of_update (ListOk.view_mem hu hp) (leftOver_key (markMem m.memOnly _)) hview), hci⟩
  | @updated p _ _ hget he hpack hmem hupd =>
    have hci' := packContact_packed hci hpack
    obtain ⟨hp, htest, -⟩ := getUcontact_found hu hget
    rw [test_contactOnly hmatch] at htest
    obtain ⟨-, x, hview, hc, -, hvals, -⟩ := updateUcontact_view cfg.usrloc hu hp hupd
    have hcseq : x.vals.cseq = decimal m.cseq := by
      rw [hvals]
      exact hci'.2
    refine ⟨hs.write hview (fun d y hd hy hyc => hd ?_) (hc.trans htest) hcseq rfl, hci'⟩
    have hx := ListOk.view_mem hu hp
    exact hs.unique d p y _ hy hx (hyc.trans hc)

/-- A turn that fails leaves a binding half updated. -/
theorem UpdateCase.descends (h : UpdateCase cfg m u ci c ch (.failed err u' ci')) (hu : ListOk u.mem l) :
    Descends u.mem u'.mem := by
  cases h with
  | invalid | unpackable | noContact => exact .refl _
  | @partly p _ hget he hpack hmem =>
    have hp := (getUcontact_found hu hget).1
    have hx := ListOk.view_mem hu hp
    refine Descends.of_update hx (fun z hz => ?_) (setCell_view hu hp _)
    cases hz
    exact memUpdate_key ch.grants _ ci' hmem

/-- **A turn leaves a binding alone** that was written with the same Call-ID and no smaller number. -/
theorem UpdateCase.untouched {t : Turn Info} (h : UpdateCase cfg m u ci c ch t) (hu : ListOk u.mem l)
    (hmatch : cfg.matching = .contactOnly) (hx : view u.mem d = some x)
    (hold : x.c = c.uri → x.callid = ci.callid ∧ ci.vals.cseq ≤ x.vals.cseq) : view t.loc.mem d = some x := by
  have hcell := (view_eq_some.mp hx).2
  have hne : ∀ p, boundOf cfg u c ci ch = some (.found p) → d ≠ p := by
    rintro p hget rfl
    obtain ⟨-, htest, hless⟩ := getUcontact_found hu hget
    rw [test_contactOnly hmatch, hcell] at htest
    obtain ⟨hcallid, hle⟩ := hold htest
    rw [hcell] at hless
    have := hless hcallid
    omega
  cases h with
  | invalid | retransmission | absent | unpackable | noContact => exact hx
  | @inserted _ _ _ _ _ _ hins =>
    obtain ⟨-, y, hview, -⟩ := insertUcontact_view cfg.usrloc hu hins
    have hfresh : d ≠ u.mem.fresh := by
      rintro rfl
      rw [ListOk.view_fresh hu] at hx
      cases hx
    rw [Turn.loc, hview, update_of_ne hfresh]
    exact hx
  | @deleted p hget he =>
    have hp := (getUcontact_found hu hget).1
    rw [Turn.loc, deleteMarked_view cfg.usrloc hu hp, update_of_ne (hne p hget)]
    exact hx
  | @updated p _ _ hget _ _ _ hupd =>
    have hp := (getUcontact_found hu hget).1
    obtain ⟨-, y, hview, -⟩ := updateUcontact_view cfg.usrloc hu hp hupd
    rw [Turn.loc, hview, update_of_ne (hne p hget)]
    exact hx
  | @partly p _ hget =>
    have hp := (getUcontact_found hu hget).1
    rw [Turn.loc, setCell_view hu hp, update_of_ne (hne p hget)]
    exact hx

theorem updateRuns_sound {run : Run Info} (h : CaseRuns (UpdateCase cfg m) cs u ci run)
    (hmatch : cfg.matching = .contactOnly) (hci : Packed m ci) (hs : Sound u.mem last) :
    Sound run.loc.mem (run.log.foldl (note m) last) := by
  induction h generalizing last with
  | nil => exact hs
  | failed hu hcase => exact hs.descends (hcase.descends hu)
  | done hu hcase _ ih =>
    obtain ⟨hs', hci'⟩ := hcase.sound hu hmatch hci hs
    exact ih hci' hs'

theorem updateRuns_untouched {run : Run Info} (h : CaseRuns (UpdateCase cfg m) cs u ci run)
    (hmatch : cfg.matching = .contactOnly) (hci : Packed m ci) (hx : view u.mem d = some x)
    (hold : ∀ k ∈ cs, x.c = k.1.uri → x.callid = m.callid ∧ (decimal m.cseq : Int) ≤ x.vals.cseq) :
    view run.loc.mem d = some x := by
  induction h with
  | nil => exact hx
  | failed hu hcase =>
    refine hcase.untouched hu hmatch hx ?_
    rw [hci.1, hci.2]
    exact hold _ mem_cons_self
  | @done _ _ _ _ _ _ ci' _ _ _ hu hcase _ ih =>
    have hci' : Packed m ci' := by
      cases hcase with
      | retransmission | absent | deleted => exact hci
      | inserted _ _ hpack | updated _ _ hpack => exact packContact_packed hci hpack
    refine ih hci' (hcase.untouched hu hmatch hx ?_) (forall_mem_cons.mp hold).2
    rw [hci.1, hci.2]
    exact hold _ mem_cons_self

/-! ## New records -/

/-- What the loop of `insert_contacts` finds: bindings that the same request has written. If the next number is out of
range, none of them has the URI of a contact that is still to come. -/
structure OwnBindings (cfg : Cfg) (m : Request) (r : URecord) (cs : List (Contact × Chance)) : Prop where
  own : ∀ d x, view r d = some x → x.callid = m.callid ∧ x.vals.cseq = decimal m.cseq
  wrap : decimal m.cseq = 2 ^ 31 - 1 → ∀ d x, view r d = some x → ∀ k ∈ cs, expiresOf cfg m k.1 ≠ 0 → x.c ≠ k.1.uri
  apart : decimal m.cseq = 2 ^ 31 - 1 →
    cs.Pairwise fun j k => expiresOf cfg m j.1 ≠ 0 → expiresOf cfg m k.1 ≠ 0 → j.1.uri ≠ k.1.uri

theorem OwnBindings.write {p : Nat} (h : OwnBindings cfg m u.mem ((c, ch) :: cs))
    (hview : view u'.mem = update (view u.mem) p (some x)) (he : expiresOf cfg m c ≠ 0) (hc : x.c = c.uri)
    (hx : x.callid = m.callid ∧ x.vals.cseq = decimal m.cseq) : OwnBindings cfg m u'.mem cs := by
  refine ⟨fun d y hy => ?_, fun hlast d y hy k hk hke => ?_, fun hlast => (pairwise_cons.mp (h.apart hlast)).2⟩
  · rw [hview, update_apply] at hy
    split at hy
    · cases hy
      exact hx
    · exact h.own d y hy
  · rw [hview, update_apply] at hy
    split at hy
    · cases hy
      rw [hc]
      exact (pairwise_cons.mp (h.apart hlast)).1 k hk he hke
    · exact h.wrap hlast d y hy k (mem_cons_of_mem _ hk) hke

theorem OwnBindings.skip (h : OwnBindings cfg m u.mem ((c, ch) :: cs)) : OwnBindings cfg m u.mem cs :=
  ⟨h.own, fun hlast d x hx k hk => h.wrap hlast d x hx k (mem_cons_of_mem _ hk),
    fun hlast => (pairwise_cons.mp (h.apart hlast)).2⟩

theorem cseq_succ (hrange : decimal m.cseq < 2 ^ 31) (hci : Packed m ci) (hlast : decimal m.cseq ≠ 2 ^ 31 - 1) :
    (BitVec.ofInt 32 (ci.vals.cseq + 1)).toInt = decimal m.cseq + 1 := by
  rw [hci.2, BitVec.toInt_ofInt]
  exact Int.bmod_eq_of_le (by omega) (by omega)

/-- **A contact that is inserted is a new one.** -/
theorem priorOf_new (hu : ListOk u.mem l) (hmatch : cfg.matching = .contactOnly) (hrange : decimal m.cseq < 2 ^ 31)
    (hci : Packed m ci) (hown : OwnBindings cfg m u.mem ((c, ch) :: cs)) (he : expiresOf cfg m c ≠ 0) {got : Got}
    (hprior : priorOf cfg u c ci ch = some got) (hnot : ∀ p, got ≠ .found p) {y : UContact}
    (hy : view u.mem d = some y) : y.c ≠ c.uri := by
  intro hyc
  have hd := (ListOk.mem_iff hu).mpr ⟨y, hy⟩
  by_cases hlast : decimal m.cseq = 2 ^ 31 - 1
  · exact hown.wrap hlast d y hy (c, ch) mem_cons_self he hyc
  unfold priorOf at hprior
  split at hprior
  · rename_i hnone
    rw [hu.dll.head_eq, List.head?_eq_none_iff] at hnone
    rw [hnone] at hd
    exact absurd hd not_mem_nil
  rw [getUcontact_eq hu, cseq_succ hrange hci hlast] at hprior
  have hgot := some.inj hprior
  cases hfind : l.find? fun c' => cfg.matching.test c.uri ci.callid (u.mem.cell c') with
  | none =>
    have htest := List.find?_eq_none.mp hfind d hd
    rw [(view_eq_some.mp hy).2, test_contactOnly hmatch] at htest
    exact htest hyc
  | some e =>
    rw [hfind] at hgot
    have hle := mem_of_find?_eq_some hfind
    have hx := ListOk.view_mem hu hle
    have hcseq := (hown.own e _ hx).2
    -- the number of the request is one higher than that of every binding
    have hfound : judge cfg (u.mem.cell e) ci.callid (decimal m.cseq + 1) ch.now e = .found e := by
      unfold judge
      split
      · rw [if_neg (by omega), if_neg (by omega)]
      · rfl
    exact hnot e (hgot.symm.trans hfound)

theorem packFirst_packed {e : BitVec 32} (hrange : decimal m.cseq < 2 ^ 31) {o : Option Info}
    (ho : ∀ ci, o = some ci → Packed m ci) (h : packFirst cfg m o c e = .ok ci) : Packed m ci := by
  unfold packFirst at h
  split at h
  · split at h
    · cases h
    · rename_i hmsg
      exact packContact_packed (packMsg_packed hrange hmsg) h
  · exact packContact_packed (ho _ rfl) h

/-- **A turn of `insert_contacts`** leaves at most one binding for a URI. -/
theorem InsertCase.sound (h : InsertCase cfg m u i c ch (.done did u' i')) (hu : ListOk u.mem l)
    (hmatch : cfg.matching = .contactOnly) (hrange : decimal m.cseq < 2 ^ 31) (hi : ∀ ci, i.ci = some ci → Packed m ci)
    (hown : OwnBindings cfg m u.mem ((c, ch) :: cs)) (hs : Sound u.mem last) :
    Sound u'.mem (note m last ⟨u, c, did, u'⟩) ∧ (∀ ci, i'.ci = some ci → Packed m ci) ∧
      OwnBindings cfg m u'.mem cs := by
  cases h with
  | zero => exact ⟨hs, hi, hown.skip⟩
  | @inserted got ci _ he hfew hpack hprior hne hins =>
    have hci := packFirst_packed hrange hi hpack
    obtain ⟨-, x, hview, hc, hcallid, hvals, -⟩ := insertUcontact_view cfg.usrloc hu hins
    have hx : x.callid = m.callid ∧ x.vals.cseq = decimal m.cseq := by
      rw [hcallid, hvals]
      exact hci
    refine ⟨hs.write hview (fun d y _ hy => ?_) hc hx.2 rfl, fun ci' h => some.inj h ▸ hci,
      hown.write hview he hc hx⟩
    rw [hc]
    exact priorOf_new hu hmatch hrange hci hown he hprior hne hy
  | @updated p ci _ he hfew hpack hprior hupd =>
    have hci := packFirst_packed hrange hi hpack
    obtain ⟨hp, htest⟩ := priorOf_found hu hprior
    rw [test_contactOnly hmatch] at htest
    obtain ⟨-, x, hview, hc, hcallid, hvals, -⟩ := updateUcontact_view cfg.usrloc hu hp hupd
    have hold := ListOk.view_mem hu hp
    have hx : x.callid = m.callid ∧ x.vals.cseq = decimal m.cseq := by
      rw [hcallid, hvals]
      exact ⟨(hown.own p _ hold).1, hci.2⟩
    refine ⟨hs.write hview (fun d y hd hy hyc => hd ?_) (hc.trans htest) hx.2 rfl, fun ci' h => some.inj h ▸ hci,
      hown.write hview he (hc.trans htest) hx⟩
    exact hs.unique d p y _ hy hold (hyc.trans hc)

theorem insertRuns_sound {run : Run Inserting} (h : CaseRuns (InsertCase cfg m) cs u i run) (herr : run.err = none)
    (hmatch : cfg.matching = .contactOnly) (hrange : decimal m.cseq < 2 ^ 31)
    (hi : ∀ ci, i.ci = some ci → Packed m ci) (hown : OwnBindings cfg m u.mem cs) (hs : Sound u.mem last) :
    Sound run.loc.mem (run.log.foldl (note m) last) := by
  induction h generalizing last with
  | nil => exact hs
  | failed => cases herr
  | done hu hcase _ ih =>
    obtain ⟨hs', hi', hown'⟩ := hcase.sound hu hmatch hrange hi hown hs
    exact ih herr hi' hown' hs'

end

end OpenSer.Registrar
