import OpenSer.Parser.ParseHname2

/-!
# The names of header fields

Which bytes before the first colon `parse_hname2` takes for which type.

* `paths_names`: the leaves of the tree of tests, name by name.
* `FirstColon.parse_leaf`: the result is that of the first leaf that suits.
* `FirstColon.parse_taken`, `FirstColon.parse_cases`: the type is that of a name whose key is read, with an end that its
  tests take.
-/

namespace OpenSer.Parser.Hname2

open List Lib.Switch Nat

/-! ## Names -/

/-- What the tests take behind the key of a name: any white space; the colon or a space within the last key, or for the
compact forms; the colon only; any white space, and a shortcut for a colon and a space. -/
inductive Kind
  | plain | direct | compact | colon | spaced
  deriving Repr, DecidableEq

/-- A name in the list of the parser, with the characters its tests ask for. -/
structure Name where
  name : List UInt8
  key : List UInt8
  type : HdrType
  kind : Kind
  deriving Repr, DecidableEq

def bytes (s : String) : List UInt8 := s.toList.map Char.toUInt8

def Name.of (s : String) (type : HdrType) (kind : Kind) : Name := ⟨bytes s, bytes s, type, kind⟩

/-- The names of the header fields. The key `_pt_d_` for Accept-Disposition is "ptad". -/
def names : List Name :=
  [.of "via" .via .direct, .of "from" .from_ .plain, .of "to" .to .spaced, .of "cseq" .cseq .plain,
    .of "call-id" .callId .direct, .of "contact" .contact .direct, .of "content-length" .contentLength .spaced,
    .of "content-type" .contentType .plain, .of "content-disposition" .contentDisposition .direct,
    .of "route" .route .plain, .of "max-forwards" .maxForwards .plain, .of "record-route" .recordRoute .plain,
    .of "authorization" .authorization .plain, .of "supported" .supported .plain, .of "expires" .expires .direct,
    .of "proxy-authorization" .proxyAuth .direct, .of "proxy-require" .proxyRequire .plain, .of "allow" .allow .plain,
    .of "path" .path .colon, .of "unsupported" .unsupported .direct, .of "event" .event .plain,
    .of "accept" .accept .plain, .of "accept-language" .acceptLanguage .direct,
    ⟨bytes "accept-disposition", bytes "acceptadisposition", .acceptDisposition, .plain⟩,
    .of "organization" .organization .plain, .of "priority" .priority .plain, .of "subject" .subject .direct,
    .of "user-agent" .userAgent .plain, .of "diversion" .diversion .plain, .of "remote-party-id" .rpid .direct,
    .of "refer-to" .referTo .plain, .of "session-expires" .sessionExpires .direct, .of "min-se" .minSe .plain,
    .of "p-preferred-identity" .ppi .plain, .of "p-asserted-identity" .pai .direct, .of "privacy" .privacy .direct,
    .of "retry-after" .retryAfter .direct, .of "t" .to .direct, .of "v" .via .compact, .of "f" .from_ .compact,
    .of "i" .callId .compact, .of "m" .contact .compact, .of "l" .contentLength .compact, .of "k" .supported .compact,
    .of "c" .contentType .compact, .of "o" .event .compact, .of "x" .sessionExpires .compact]

/-! ## The leaves -/

def keep (o : Goto) : Bool := o != .other

def Name.leaves (n : Name) : List (List ByteClass × Goto) :=
  let key := n.key.map .lower
  match n.kind with
  | .plain => [(key, .dcEnd n.type 0)]
  | .direct =>
    [(key ++ [.lower ':'.toUInt8], .ret n.type n.key.length), (key ++ [.lower ' '.toUInt8], .dcEnd n.type 0)]
  | .compact => [(key ++ [.byte ' '.toUInt8], .dcEnd n.type 0), (key ++ [.byte ':'.toUInt8], .ret n.type n.key.length)]
  | .colon => [(key ++ [.lower ':'.toUInt8], .dcEnd n.type 1)]
  | .spaced => [(key ++ [.lower ':'.toUInt8, .lower ' '.toUInt8], .ret n.type n.key.length), (key, .dcEnd n.type 0)]

/-- **The leaves of the tree are those of the names.** -/
theorem paths_names :
    (∀ e ∈ paths Test.word keep firstQuaternions, ∃ n ∈ names, e ∈ n.leaves) ∧
      ∀ n ∈ names, ∀ e ∈ n.leaves, e ∈ paths Test.word keep firstQuaternions := by
  decide +kernel

/-- What `dc_end` can begin with: white space or the colon. -/
def fits : Goto → UInt8 → Bool
  | .dcEnd _ 0, x => x == ' '.toUInt8 || x == '\t'.toUInt8 || x == ':'.toUInt8
  | _, _ => true

def unfit : Goto → ByteClass → Bool
  | .dcEnd _ 0, c => !(c.reads ' '.toUInt8 || c.reads '\t'.toUInt8 || c.reads ':'.toUInt8)
  | _, _ => false

def sure : Goto → Bool
  | .ret .. => true
  | _ => false

theorem ordered_firstQuaternions : ordered Test.word ByteClass.apart unfit keep sure firstQuaternions = true := by
  decide +kernel

/-- Where two leaves can both be spelled, the first one is the shortcut of the second. -/
def Shortcut (e d : List ByteClass × Goto) : Bool :=
  match e.2, d.2 with
  | .ret type _, .dcEnd type' 0 => type == type'
  | _, _ => false

theorem pairwise_leaves :
    (paths Test.word keep firstQuaternions).Pairwise
      fun e d => hidden ByteClass.apart unfit d.1 e = true ∨ hidden ByteClass.apart unfit e.1 d = true ∨
        Shortcut e d = true := by
  decide +kernel

/-- No colon is passed on the way to `dc_end` or `other`. -/
def passesNoColon (e : List ByteClass × Goto) : Bool :=
  match e.2 with
  | .ret .. => true
  | .dcEnd _ back => (e.1.take (e.1.length - back)).all fun c => !c.reads ':'.toUInt8
  | .other => e.1.all fun c => !c.reads ':'.toUInt8

theorem passesNoColon_paths : ∀ e ∈ paths Test.word (fun _ => true) firstQuaternions, passesNoColon e = true := by
  decide +kernel

/-! ## Bytes and white space -/

theorem forall_byte {P : UInt8 → Prop} (h : ∀ n < 256, P n.toUInt8) (x : UInt8) : P x := by
  have := h x.toNat x.toNat_lt
  rwa [toUInt8_eq, UInt8.ofNat_toNat] at this

def isBlank (x : UInt8) : Bool := x == ' '.toUInt8 || x == '\t'.toUInt8

/-- White space from one position to another. -/
def Blank (m : Nat → UInt8) (p k : Nat) : Prop := ∀ i, p ≤ i → i < k → isBlank (m i) = true

def stretch (m : Nat → UInt8) : Nat → Nat → List UInt8
  | 0, _ => []
  | n + 1, p => m p :: stretch m n (p + 1)

/-- How many bytes there are before the white space in front of a colon. -/
def tokenLen (m : Nat → UInt8) : Nat → Nat
  | 0 => 0
  | k + 1 => if isBlank (m k) then tokenLen m k else k + 1

def token (m : Nat → UInt8) (k : Nat) : List UInt8 := stretch m (tokenLen m k) 0

variable {i : Nat} {n : Nat}

section
variable {m : Nat → UInt8} {k p : Nat}

theorem length_stretch (m : Nat → UInt8) (n p : Nat) : (stretch m n p).length = n := by
  induction n generalizing p with
  | zero => rfl
  | succ n ih => rw [stretch, length_cons, ih]

theorem getElem?_stretch (m : Nat → UInt8) {n i : Nat} (p : Nat) (hi : i < n) :
    (stretch m n p)[i]? = some (m (p + i)) := by
  induction n generalizing p i with
  | zero => omega
  | succ n ih =>
    cases i with
    | zero => rfl
    | succ i =>
      rw [stretch, getElem?_cons_succ, ih (p + 1) (by omega)]
      congr 2
      omega

abbrev reading (x : UInt8) (c : ByteClass) : Bool := c.reads x

theorem spells_lower_iff (key : List UInt8) (p : Nat) :
    spells reading m (key.map .lower) p = true ↔
      (stretch m key.length p).map lowerByte = key := by
  induction key generalizing p with
  | nil => exact ⟨fun _ => rfl, fun _ => rfl⟩
  | cons b key ih =>
    rw [map_cons, spells, Bool.and_eq_true, ih, length_cons, stretch, map_cons, cons.injEq]
    exact and_congr_left' beq_iff_eq

theorem Blank.refl (m : Nat → UInt8) (p : Nat) : Blank m p p := fun i h1 h2 => by omega

theorem Blank.step_iff (hp : p < k) : Blank m p k ↔ isBlank (m p) = true ∧ Blank m (p + 1) k := by
  constructor
  · intro h
    exact ⟨h p le_rfl hp, fun i h1 h2 => h i (by omega) h2⟩
  · rintro ⟨h, hrest⟩ i h1 h2
    rcases eq_or_lt_of_le h1 with rfl | h1
    · exact h
    · exact hrest i h1 h2

theorem tokenLen_le (m : Nat → UInt8) (k : Nat) : tokenLen m k ≤ k := by
  induction k with
  | zero => exact le_rfl
  | succ k ih =>
    rw [tokenLen]
    split
    · omega
    · exact le_rfl

theorem blank_tokenLen (m : Nat → UInt8) (k : Nat) : Blank m (tokenLen m k) k := by
  induction k with
  | zero => exact Blank.refl m 0
  | succ k ih =>
    rw [tokenLen]
    split
    · intro i h1 h2
      rcases eq_or_lt_of_le (le_of_lt_succ h2) with rfl | h2
      · assumption
      · exact ih i h1 h2
    · exact Blank.refl m _

theorem lt_tokenLen (hi : i < k) (h : isBlank (m i) = false) : i < tokenLen m k := by
  by_contra hle
  have := blank_tokenLen m k i (by omega) hi
  rw [h] at this
  cases this

theorem tokenLen_le_of_blank (hnk : n ≤ k) (h : Blank m n k) : tokenLen m k ≤ n := by
  induction k with
  | zero => exact zero_le n
  | succ k ih =>
    rcases eq_or_lt_of_le hnk with rfl | hlt
    · exact tokenLen_le m _
    · have hk := h k (by omega) (by omega)
      rw [tokenLen, if_pos hk]
      exact ih (by omega) fun i h1 h2 => h i h1 (by omega)

theorem tokenLen_eq (hnk : n < k) (hlast : isBlank (m n) = false) (hrest : Blank m (n + 1) k) :
    tokenLen m k = n + 1 := by
  have h1 : n < tokenLen m k := lt_tokenLen hnk hlast
  have h2 : tokenLen m k ≤ n + 1 := tokenLen_le_of_blank hnk hrest
  omega

end

/-! ## The labels -/

structure FirstColon (text : Text) (k : Nat) : Prop where
  lt : k < text.size
  eq : text.byte k = ':'.toUInt8
  first : ∀ i < k, text.byte i ≠ ':'.toUInt8

variable {m : Nat → UInt8} (x : UInt8) {e : List ByteClass × Goto} {p : Nat}

section
variable {text : Text} {k p : Nat} {size : Nat}

theorem left_eq (hp : p ≤ text.size) : left text.size p = text.size - p := by
  have := text.size_lt
  unfold left
  omega

theorem isBlank_iff {x : UInt8} : isBlank x = true ↔ ¬(x ≠ ' '.toUInt8 ∧ x ≠ '\t'.toUInt8) := by
  simp only [isBlank, Bool.or_eq_true, beq_iff_eq, ne_eq, not_and_or, not_not]

theorem not_isBlank_colon : isBlank ':'.toUInt8 = false := by decide

theorem skipWs_blank (hpk : p ≤ k) (hsize : k - p < size) (hk : isBlank (m k) = false)
    (h : Blank m p k) : skipWs m size p = k := by
  induction size generalizing p with
  | zero => omega
  | succ size ih =>
    rw [skipWs]
    rcases eq_or_lt_of_le hpk with rfl | hlt
    · rw [if_pos]
      rw [← not_not (a := _ ∧ _), ← isBlank_iff, hk]
      exact Bool.false_ne_true
    · obtain ⟨hb, hrest⟩ := (Blank.step_iff hlt).mp h
      rw [if_neg (isBlank_iff.mp hb)]
      exact ih (by omega) (by omega) hrest

theorem skipWs_not_blank (hpk : p ≤ k) (hsize : k - p ≤ size) (h : ¬Blank m p k) :
    skipWs m size p < k := by
  have hlt : p < k := by
    rcases eq_or_lt_of_le hpk with rfl | hlt
    · exact absurd (Blank.refl m p) h
    · exact hlt
  induction size generalizing p with
  | zero => omega
  | succ size ih =>
    rw [skipWs]
    split
    · exact hlt
    next hb =>
      have hrest : ¬Blank m (p + 1) k := fun hrest => h ((Blank.step_iff hlt).mpr ⟨isBlank_iff.mpr hb, hrest⟩)
      have hlt' : p + 1 < k := by
        rcases eq_or_lt_of_le (succ_le_of_lt hlt) with heq | hlt'
        · exact absurd (heq ▸ Blank.refl m (p + 1)) hrest
        · exact hlt'
      exact ih hlt (by omega) hrest hlt'

theorem qMemchr_first {c : UInt8} (hpk : p ≤ k) (hsize : k - p < size) (hk : m k = c)
    (hfirst : ∀ i, p ≤ i → i < k → m i ≠ c) : qMemchr m c size p = some k := by
  induction size generalizing p with
  | zero => omega
  | succ size ih =>
    rw [qMemchr]
    rcases eq_or_lt_of_le hpk with rfl | hlt
    · exact if_pos hk
    · rw [if_neg (hfirst p le_rfl hlt)]
      exact ih hlt (by omega) fun i h1 h2 => hfirst i (by omega) h2

theorem FirstColon.atOther (h : FirstColon text k) (hp : p ≤ k) :
    atOther text.byte text.size p = (⟨.other, k⟩, some (k + 1)) := by
  have hlt := h.lt
  have hfind : qMemchr text.byte ':'.toUInt8 (left text.size p) p = some k := by
    rw [left_eq (by omega)]
    exact qMemchr_first hp (by omega) h.eq fun i _ hi => h.first i hi
  rw [Hname2.atOther, hfind]

theorem FirstColon.atDcEnd_blank (h : FirstColon text k) (hp : p ≤ k) (hb : Blank text.byte p k) (type : HdrType) :
    atDcEnd text.byte text.size type p = (⟨type, k⟩, some (k + 1)) := by
  have hlt := h.lt
  have hskip : skipWs text.byte (left text.size p) p = k := by
    rw [left_eq (by omega)]
    exact skipWs_blank hp (by omega) (h.eq ▸ not_isBlank_colon) hb
  rw [atDcEnd, hskip]
  exact if_neg (not_not.mpr h.eq)

theorem FirstColon.atDcEnd_not_blank (h : FirstColon text k) (hp : p ≤ k) (hb : ¬Blank text.byte p k) (type : HdrType) :
    atDcEnd text.byte text.size type p = (⟨.other, k⟩, some (k + 1)) := by
  have hlt := h.lt
  have hq : skipWs text.byte (text.size - p) p < k := skipWs_not_blank hp (by omega) hb
  rw [atDcEnd, left_eq (by omega), if_pos (h.first _ hq)]
  exact h.atOther hq.le

/-! ## Leaves and results -/

instance (m : Nat → UInt8) (p k : Nat) : Decidable (Blank m p k) :=
  decidable_of_iff (∀ i < k, p ≤ i → isBlank (m i) = true) ⟨fun h i h1 h2 => h i h2 h1, fun h i h1 h2 => h i h2 h1⟩

/-- What a leaf makes of a text with its first colon at `k`. -/
def leafField (m : Nat → UInt8) (k : Nat) (e : List ByteClass × Goto) : HdrField :=
  match e.2 with
  | .ret type len => ⟨type, len⟩
  | .dcEnd type back => if Blank m (e.1.length - back) k then ⟨type, k⟩ else ⟨.other, k⟩
  | .other => ⟨.other, k⟩

def firstLeaf (m : Nat → UInt8) : Option (List ByteClass × Goto) :=
  (paths Test.word keep firstQuaternions).find? (suits (fun x c => c.reads x) fits m 0)

theorem FirstColon.le_of_spells (h : FirstColon text k) {w : List ByteClass}
    (hw : spells reading text.byte w 0 = true) (hn : n ≤ w.length)
    (hc : ∀ c ∈ w.take n, c.reads ':'.toUInt8 = false) : n ≤ k := by
  by_contra hlt
  obtain ⟨c, hget⟩ : ∃ c, w[k]? = some c := ⟨_, getElem?_eq_getElem (by omega)⟩
  have hreads : c.reads _ = true := reads_of_spells hw hget
  rw [zero_add, h.eq] at hreads
  have htake : (w.take n)[k]? = some c := by
    rw [getElem?_take, if_pos (by omega)]
    exact hget
  rw [hc c (mem_of_getElem? htake)] at hreads
  cases hreads

theorem unfit_fits (o : Goto) (c : ByteClass) (h : unfit o c = true) (hc : c.reads x = true) :
    fits o x = false := by
  by_contra hf
  cases o with
  | ret => cases h
  | other => cases h
  | dcEnd type back =>
    cases back with
    | succ back => cases h
    | zero =>
      simp only [fits, Bool.not_eq_false, Bool.or_eq_true, beq_iff_eq] at hf
      simp only [unfit, Bool.not_eq_true', Bool.or_eq_false_iff] at h
      obtain ⟨⟨h1, h2⟩, h3⟩ := h
      rcases hf with (rfl | rfl) | rfl
      · rw [hc] at h1
        cases h1
      · rw [hc] at h2
        cases h2
      · rw [hc] at h3
        cases h3

theorem sure_fits (o : Goto) (h : sure o = true) : fits o x = true := by
  cases o with
  | ret => rfl
  | dcEnd => cases h
  | other => cases h

/-- **The result is that of the leaf that suits**, and `HDR_OTHER_T` where none does. -/
theorem FirstColon.parse_leaf (h : FirstColon text k) (hsize : 4 ≤ text.size) (hdr : HdrField) :
    (parseHname2 text hdr).1 =
      match firstLeaf text.byte with
      | some e => leafField text.byte k e
      | none => ⟨.other, k⟩ := by
  have hfind := run_find (holds_spells text.byte) Test.len_word apart_reads unfit_fits sure_fits
    ordered_firstQuaternions 0
  obtain ⟨w, hmem, hw, hp⟩ := run_path (holds_spells text.byte) Test.len_word firstQuaternions 0
  have hpass := passesNoColon_paths _ hmem
  rw [parseHname2, if_neg (by omega)]
  rw [← firstLeaf] at hfind
  generalize run (Test.holds text.byte) Test.len firstQuaternions 0 = res at hfind hmem hp hpass ⊢
  obtain ⟨o, q⟩ := res
  rw [zero_add] at hp
  subst hp
  cases o with
  | ret =>
    cases hleaf : firstLeaf text.byte with
    | some e =>
      rw [hleaf] at hfind
      obtain ⟨ho, -⟩ := Prod.mk.inj hfind
      simp only [leafField, ← ho]
    | none =>
      rw [hleaf] at hfind
      rcases hfind with hfind | hfind <;> cases hfind
  | dcEnd type back =>
    have hq : w.length - back ≤ k :=
      h.le_of_spells hw (by omega) fun c hc => by simpa using all_eq_true.mp hpass c hc
    dsimp only
    cases hleaf : firstLeaf text.byte with
    | some e =>
      rw [hleaf] at hfind
      obtain ⟨ho, hlen⟩ := Prod.mk.inj hfind
      simp only [leafField, ← ho]
      rw [zero_add] at hlen
      rw [← hlen]
      split
      next hb => rw [h.atDcEnd_blank hq hb]
      next hb => rw [h.atDcEnd_not_blank hq hb]
    | none =>
      rw [hleaf] at hfind
      rcases hfind with hfind | hfind
      · cases hfind
      · -- the byte there is neither white space nor the colon
        have hback : back = 0 := by
          cases back with
          | zero => rfl
          | succ back => cases hfind
        subst hback
        simp only [fits, Bool.or_eq_false_iff, beq_eq_false_iff_ne] at hfind
        rw [h.atDcEnd_not_blank hq]
        intro hb
        rcases eq_or_lt_of_le hq with heq | hlt
        · rw [Nat.sub_zero] at heq
          exact hfind.2 (heq ▸ h.eq)
        · exact isBlank_iff.mp (hb _ le_rfl hlt) hfind.1
  | other =>
    have hq : w.length ≤ k :=
      h.le_of_spells hw le_rfl fun c hc => by simpa using all_eq_true.mp hpass c (mem_of_mem_take hc)
    dsimp only
    rw [h.atOther hq]
    cases hleaf : firstLeaf text.byte with
    | some e =>
      rw [hleaf] at hfind
      obtain ⟨ho, -⟩ := Prod.mk.inj hfind
      simp only [leafField, ← ho]
    | none => rfl

end

/-! ## Names that are taken -/

/-- White space behind the key of a name, up to the colon, that its tests go over. -/
def Kind.Goes (m : Nat → UInt8) (n k : Nat) : Kind → Prop
  | .plain | .spaced => Blank m n k
  | .direct | .compact => n = k ∨ n < k ∧ m n = ' '.toUInt8 ∧ Blank m (n + 1) k
  | .colon => n = k

/-- A byte behind the key of a name that its tests take for something else: 0x00 for a space, 0x1a for the colon. -/
def Kind.Strays (m : Nat → UInt8) (n k : Nat) : Kind → Prop
  | .direct => n < k ∧ (m n = 0x00 ∧ Blank m (n + 1) k ∨ m n = 0x1a)
  | .spaced => n + 1 < k ∧ m n = 0x1a ∧ (m (n + 1) = 0x00 ∨ m (n + 1) = ' '.toUInt8)
  | _ => False

/-- A name whose tests are passed. -/
structure Taken (m : Nat → UInt8) (k : Nat) (n : Name) : Prop where
  le : n.key.length ≤ k
  key : (stretch m n.key.length 0).map lowerByte = n.key
  ends : n.kind.Goes m n.key.length k ∨ n.kind.Strays m n.key.length k

theorem lowerByte_eq_space : lowerByte x = ' '.toUInt8 ↔ x = 0x00 ∨ x = ' '.toUInt8 := by
  apply forall_byte (P := fun x => lowerByte x = ' '.toUInt8 ↔ x = 0x00 ∨ x = ' '.toUInt8)
  decide +kernel

theorem lowerByte_eq_colon : lowerByte x = ':'.toUInt8 ↔ x = 0x1a ∨ x = ':'.toUInt8 := by
  apply forall_byte (P := fun x => lowerByte x = ':'.toUInt8 ↔ x = 0x1a ∨ x = ':'.toUInt8)
  decide +kernel

def isNameChar (b : UInt8) : Bool := b == '-'.toUInt8 || ('a'.toUInt8 ≤ b && b ≤ 'z'.toUInt8)

theorem name_chars : ∀ n ∈ names, ∀ b ∈ n.key ++ n.name, isNameChar b = true := by
  decide +kernel

section
variable {text : Text} {k : Nat} {n : Name}

section
variable (h : FirstColon text k)
include h

theorem FirstColon.key_le (hn : n ∈ names)
    (hw : spells reading text.byte (n.key.map .lower) 0 = true) : n.key.length ≤ k := by
  refine h.le_of_spells hw (length_map _).ge fun c hc => ?_
  obtain ⟨b, hb, rfl⟩ := mem_map.mp (mem_of_mem_take hc)
  have hchar := name_chars n hn b (mem_append_left _ hb)
  by_contra hcolon
  have hc : lowerByte ':'.toUInt8 = b := by simpa [ByteClass.reads] using hcolon
  rw [← hc] at hchar
  revert hchar
  decide

theorem FirstColon.colon_cases (hi : i ≤ k)
    (hc : lowerByte (text.byte i) = ':'.toUInt8) : i = k ∨ i < k ∧ text.byte i = 0x1a := by
  rcases eq_or_lt_of_le hi with rfl | hlt
  · exact .inl rfl
  · rcases (lowerByte_eq_colon _).mp hc with hc | hc
    · exact .inr ⟨hlt, hc⟩
    · exact absurd hc (h.first i hlt)

theorem FirstColon.lt_of_ne (hi : i ≤ k) (hc : text.byte i ≠ ':'.toUInt8) : i < k := by
  rcases eq_or_lt_of_le hi with rfl | hlt
  · exact absurd h.eq hc
  · exact hlt

theorem FirstColon.lt_of_space (hi : i ≤ k) (hc : text.byte i = 0x00 ∨ text.byte i = ' '.toUInt8) : i < k := by
  apply h.lt_of_ne hi
  rcases hc with hc | hc <;> rw [hc] <;> decide

end

/-- The words of leaves: the key, and one or two bytes behind it. -/
theorem spells_key_iff (key : List UInt8) (w : List ByteClass) :
    spells reading m (key.map .lower ++ w) 0 = true ↔
      (stretch m key.length 0).map lowerByte = key ∧
        spells reading m w key.length = true := by
  rw [spells_append, Bool.and_eq_true, spells_lower_iff, length_map, zero_add]

theorem spells_singleton (c : ByteClass) (p : Nat) :
    spells reading m [c] p = c.reads (m p) := by
  rw [spells, spells, Bool.and_true]

theorem leafField_dcEnd (m : Nat → UInt8) (k : Nat) (w : List ByteClass) (type : HdrType) (back : Nat) :
    leafField m k (w, .dcEnd type back) = ⟨.other, k⟩ ∨
      Blank m (w.length - back) k ∧ leafField m k (w, .dcEnd type back) = ⟨type, k⟩ := by
  by_cases hb : Blank m (w.length - back) k
  · exact .inr ⟨hb, if_pos hb⟩
  · exact .inl (if_neg hb)

theorem FirstColon.leaf_taken (h : FirstColon text k) (hn : n ∈ names) (he : e ∈ n.leaves)
    (hw : spells reading text.byte e.1 0 = true) :
    leafField text.byte k e = ⟨.other, k⟩ ∨
      Taken text.byte k n ∧ (leafField text.byte k e = ⟨n.type, k⟩ ∨
        leafField text.byte k e = ⟨n.type, n.key.length⟩ ∧ n.kind.Strays text.byte n.key.length k ∧
          text.byte n.key.length = 0x1a) := by
  have hle : (stretch text.byte n.key.length 0).map lowerByte = n.key → n.key.length ≤ k :=
    fun hkey => h.key_le hn ((spells_lower_iff _ _).mpr hkey)
  -- a leaf at the end of the key
  have hplain : e = (n.key.map .lower, .dcEnd n.type 0) → (n.kind = .plain ∨ n.kind = .spaced) →
      leafField text.byte k e = ⟨.other, k⟩ ∨ Taken text.byte k n ∧ leafField text.byte k e = ⟨n.type, k⟩ := by
    rintro rfl hkind
    have hkey := (spells_lower_iff _ _).mp hw
    refine (leafField_dcEnd _ _ _ _ _).imp_right fun hb => ⟨⟨hle hkey, hkey, .inl ?_⟩, hb.2⟩
    rw [length_map] at hb
    rcases hkind with hkind | hkind <;> rw [hkind] <;> exact hb.1
  unfold Name.leaves at he
  cases hkind : n.kind with
  | plain =>
    rw [hkind] at he
    exact (hplain (mem_singleton.mp he) (.inl hkind)).imp_right fun ht => ⟨ht.1, .inl ht.2⟩
  | direct =>
    rw [hkind] at he
    rcases mem_pair.mp he with rfl | rfl
    · obtain ⟨hkey, hc⟩ := (spells_key_iff _ _).mp hw
      rw [spells_singleton] at hc
      rcases h.colon_cases (hle hkey) (beq_iff_eq.mp hc) with heq | ⟨hlt, hsub⟩
      · refine .inr ⟨⟨hle hkey, hkey, .inl (hkind ▸ .inl heq)⟩, .inl ?_⟩
        rw [← heq]
        rfl
      · have hstray : Kind.direct.Strays text.byte n.key.length k := ⟨hlt, .inr hsub⟩
        exact .inr ⟨⟨hle hkey, hkey, .inr (hkind ▸ hstray)⟩, .inr ⟨rfl, hstray, hsub⟩⟩
    · obtain ⟨hkey, hc⟩ := (spells_key_iff _ _).mp hw
      rw [spells_singleton] at hc
      have hspace := (lowerByte_eq_space _).mp (beq_iff_eq.mp hc)
      have hlt := h.lt_of_space (hle hkey) hspace
      refine (leafField_dcEnd _ _ _ _ _).imp_right fun hb => ⟨⟨hle hkey, hkey, ?_⟩, .inl hb.2⟩
      have hrest := hb.1
      rw [length_append, length_map] at hrest
      rw [hkind]
      rcases hspace with hnul | hspace
      · exact .inr ⟨hlt, .inl ⟨hnul, hrest⟩⟩
      · exact .inl (.inr ⟨hlt, hspace, hrest⟩)
  | compact =>
    rw [hkind] at he
    rcases mem_pair.mp he with rfl | rfl
    · obtain ⟨hkey, hc⟩ := (spells_key_iff _ _).mp hw
      rw [spells_singleton] at hc
      have hspace : text.byte n.key.length = ' '.toUInt8 := beq_iff_eq.mp hc
      refine (leafField_dcEnd _ _ _ _ _).imp_right fun hb => ⟨⟨hle hkey, hkey, .inl ?_⟩, .inl hb.2⟩
      have hrest := hb.1
      rw [length_append, length_map] at hrest
      rw [hkind]
      exact .inr ⟨h.lt_of_space (hle hkey) (.inr hspace), hspace, hrest⟩
    · obtain ⟨hkey, hc⟩ := (spells_key_iff _ _).mp hw
      rw [spells_singleton] at hc
      have hcolon : text.byte n.key.length = ':'.toUInt8 := beq_iff_eq.mp hc
      have heq : n.key.length = k := by
        by_contra hne
        exact h.first _ (lt_of_le_of_ne (hle hkey) hne) hcolon
      refine .inr ⟨⟨hle hkey, hkey, .inl (hkind ▸ .inl heq)⟩, .inl ?_⟩
      rw [← heq]
      rfl
  | colon =>
    rw [hkind] at he
    obtain rfl := mem_singleton.mp he
    obtain ⟨hkey, hc⟩ := (spells_key_iff _ _).mp hw
    rw [spells_singleton] at hc
    refine (leafField_dcEnd _ _ _ _ _).imp_right fun hb => ?_
    have hrest := hb.1
    rw [length_append, length_map, length_singleton, Nat.add_sub_cancel] at hrest
    rcases h.colon_cases (hle hkey) (beq_iff_eq.mp hc) with heq | ⟨hlt, hsub⟩
    · exact ⟨⟨hle hkey, hkey, .inl (hkind ▸ heq)⟩, .inl hb.2⟩
    · have hblank := hrest _ le_rfl hlt
      rw [hsub] at hblank
      exact absurd hblank (by decide)
  | spaced =>
    rw [hkind] at he
    rcases mem_pair.mp he with rfl | rfl
    · obtain ⟨hkey, hc⟩ := (spells_key_iff _ _).mp hw
      rw [spells, spells_singleton, Bool.and_eq_true] at hc
      rcases h.colon_cases (hle hkey) (beq_iff_eq.mp hc.1) with heq | ⟨hlt, hsub⟩
      · refine .inr ⟨⟨hle hkey, hkey, .inl (hkind ▸ (?_ : Blank _ _ _))⟩, .inl ?_⟩
        · rw [heq]
          exact Blank.refl _ _
        · rw [← heq]
          rfl
      · have hspace := (lowerByte_eq_space _).mp (beq_iff_eq.mp hc.2)
        have hstray : Kind.spaced.Strays text.byte n.key.length k := ⟨h.lt_of_space hlt hspace, hsub, hspace⟩
        exact .inr ⟨⟨hle hkey, hkey, .inr (hkind ▸ hstray)⟩, .inr ⟨rfl, hstray, hsub⟩⟩
    · exact (hplain rfl (.inr hkind)).imp_right fun ht => ⟨ht.1, .inl ht.2⟩

theorem FirstColon.blank_or_colon (h : FirstColon text k) (hp : p ≤ k) (hb : Blank text.byte p k) :
    isBlank (text.byte p) = true ∨ text.byte p = ':'.toUInt8 := by
  rcases eq_or_lt_of_le hp with rfl | hlt
  · exact .inr h.eq
  · exact .inl (hb p le_rfl hlt)

theorem FirstColon.fits_dcEnd (h : FirstColon text k) (hp : p ≤ k) (hb : Blank text.byte p k)
    (type : HdrType) : fits (.dcEnd type 0) (text.byte p) = true := by
  rcases h.blank_or_colon hp hb with hx | hx
  · exact (Bool.or_eq_true _ _).mpr (.inl hx)
  · exact (Bool.or_eq_true _ _).mpr (.inr (beq_iff_eq.mpr hx))

/-- A leaf that suits, and gives the type of a name; where 0x1a stands for the colon, it gives the length of the key. -/
structure Leads (text : Text) (k : Nat) (n : Name) (e : List ByteClass × Goto) : Prop where
  suits : suits (fun x (c : ByteClass) => c.reads x) fits text.byte 0 e = true
  type : (leafField text.byte k e).type = n.type
  sub : text.byte n.key.length = 0x1a → e.2 = .ret n.type n.key.length

/-- **A name that is taken has a leaf that suits**; the shortcut for a colon, where 0x1a stands for it. -/
theorem FirstColon.taken_leaf (h : FirstColon text k) (ht : Taken text.byte k n) :
    ∃ e ∈ n.leaves, Leads text k n e := by
  obtain ⟨hle, hkey, hends⟩ := ht
  have hne : ∀ x : UInt8, isBlank x = true ∨ x = ':'.toUInt8 → x ≠ 0x1a := by
    rintro x hx rfl
    revert hx
    decide
  -- a leaf at the end of the key
  have hplain : Blank text.byte n.key.length k → Leads text k n (n.key.map .lower, .dcEnd n.type 0) := by
    intro hb
    refine ⟨(Bool.and_eq_true _ _).mpr ⟨(spells_lower_iff _ _).mpr hkey, ?_⟩, ?_, ?_⟩
    · rw [length_map, zero_add]
      exact h.fits_dcEnd hle hb n.type
    · rw [leafField]
      dsimp only
      rw [length_map, Nat.sub_zero, if_pos hb]
    · intro hsub
      exact absurd hsub (hne _ (h.blank_or_colon hle hb))
  -- a leaf at the space behind the key
  have hspaced : ∀ (c : ByteClass) (x : UInt8), text.byte n.key.length = x → c.reads x = true → x ≠ 0x1a →
      n.key.length < k → Blank text.byte (n.key.length + 1) k →
      Leads text k n (n.key.map .lower ++ [c], .dcEnd n.type 0) := by
    rintro c _ rfl hc hsub hlt hb
    refine ⟨(Bool.and_eq_true _ _).mpr ⟨(spells_key_iff _ _).mpr ⟨hkey, ?_⟩, ?_⟩, ?_, fun h => absurd h hsub⟩
    · rw [spells_singleton]
      exact hc
    · rw [length_append, length_map, zero_add]
      exact h.fits_dcEnd hlt hb n.type
    · rw [leafField]
      dsimp only
      rw [length_append, length_map, length_singleton, Nat.sub_zero, if_pos hb]
  -- a leaf that returns
  have hret : ∀ w : List ByteClass, spells reading text.byte w n.key.length = true →
      Leads text k n (n.key.map .lower ++ w, .ret n.type n.key.length) := by
    intro w hw
    exact ⟨(Bool.and_eq_true _ _).mpr ⟨(spells_key_iff _ _).mpr ⟨hkey, hw⟩, rfl⟩, rfl, fun _ => rfl⟩
  unfold Name.leaves
  cases hkind : n.kind with
  | plain =>
    rw [hkind] at hends
    rcases hends with hb | hends
    · exact ⟨_, mem_singleton.mpr rfl, hplain hb⟩
    · exact hends.elim
  | direct =>
    rw [hkind] at hends
    rcases hends with (heq | ⟨hlt, hspace, hb⟩) | ⟨hlt, ⟨hnul, hb⟩ | hsub⟩
    · refine ⟨_, mem_cons_self, hret _ ?_⟩
      rw [spells_singleton, heq, h.eq]
      rfl
    · exact ⟨_, mem_cons_of_mem _ mem_cons_self, hspaced _ _ hspace rfl (by decide) hlt hb⟩
    · exact ⟨_, mem_cons_of_mem _ mem_cons_self, hspaced _ _ hnul rfl (by decide) hlt hb⟩
    · refine ⟨_, mem_cons_self, hret _ ?_⟩
      rw [spells_singleton, hsub]
      rfl
  | compact =>
    rw [hkind] at hends
    rcases hends with (heq | ⟨hlt, hspace, hb⟩) | hends
    · refine ⟨_, mem_cons_of_mem _ mem_cons_self, hret _ ?_⟩
      rw [spells_singleton, heq, h.eq]
      rfl
    · exact ⟨_, mem_cons_self, hspaced _ _ hspace rfl (by decide) hlt hb⟩
    · exact hends.elim
  | colon =>
    rw [hkind] at hends
    rcases hends with heq | hends
    · refine ⟨_, mem_singleton.mpr rfl, (Bool.and_eq_true _ _).mpr ⟨(spells_key_iff _ _).mpr ⟨hkey, ?_⟩, rfl⟩, ?_, ?_⟩
      · rw [spells_singleton, heq, h.eq]
        rfl
      · rw [leafField]
        dsimp only
        rw [length_append, length_map, length_singleton, Nat.add_sub_cancel, heq,
          if_pos (Blank.refl _ _)]
      · rw [heq, h.eq]
        exact fun hc => absurd hc (by decide)
    · exact hends.elim
  | spaced =>
    rw [hkind] at hends
    rcases hends with hb | ⟨-, hsub, hspace⟩
    · exact ⟨_, mem_cons_of_mem _ mem_cons_self, hplain hb⟩
    · refine ⟨_, mem_cons_self, hret _ ?_⟩
      rw [spells, spells_singleton, hsub, Bool.and_eq_true]
      exact ⟨rfl, beq_iff_eq.mpr ((lowerByte_eq_space _).mpr hspace)⟩

/-- The first leaf that suits is the leaf that leads to a name, or a shortcut of it. -/
theorem firstLeaf_of_leads (hn : n ∈ names) (he : e ∈ n.leaves) (hl : Leads text k n e) :
    ∃ d, firstLeaf text.byte = some d ∧ (d = e ∨ Shortcut d e = true) := by
  have hmem := paths_names.2 n hn e he
  cases hfind : firstLeaf text.byte with
  | none => exact absurd hl.suits (find?_eq_none.mp hfind e hmem)
  | some d =>
    refine ⟨d, rfl, ?_⟩
    obtain ⟨hd, as, bs, hsplit, has⟩ := find?_eq_some_iff_append.mp hfind
    have hpair := pairwise_leaves
    rw [hsplit] at hmem hpair
    rcases mem_append.mp hmem with hmem | hmem
    · have := has e hmem
      rw [hl.suits] at this
      cases this
    · rcases mem_cons.mp hmem with rfl | hmem
      · exact .inl rfl
      · obtain ⟨hpair, -⟩ := pairwise_cons.mp (pairwise_append.mp hpair).2.1
        have hspells : ∀ e, suits reading fits text.byte 0 e = true →
            spells reading text.byte e.1 0 = true :=
          fun e he => ((Bool.and_eq_true _ _).mp he).1
        rcases hpair e hmem with hhid | hhid | hshort
        · rw [not_suits_of_hidden apart_reads unfit_fits hhid (hspells e hl.suits)] at hd
          cases hd
        · have hsuits := hl.suits
          rw [not_suits_of_hidden apart_reads unfit_fits hhid (hspells d hd)] at hsuits
          cases hsuits
        · exact .inr hshort

theorem type_ne : ∀ n ∈ names, n.type ≠ .other ∧ n.type ≠ .error := by
  decide +kernel

/-- **A name that is taken gives its type.** Where 0x1a stands for the colon, the length is that of the key. -/
theorem FirstColon.parse_taken (h : FirstColon text k) (hsize : 4 ≤ text.size) (hdr : HdrField) (hn : n ∈ names)
    (ht : Taken text.byte k n) :
    (parseHname2 text hdr).1.type = n.type ∧
      (text.byte n.key.length = 0x1a → (parseHname2 text hdr).1.nameLen = n.key.length) := by
  obtain ⟨e, he, hl⟩ := h.taken_leaf ht
  obtain ⟨d, hd, hde⟩ := firstLeaf_of_leads hn he hl
  rw [h.parse_leaf hsize, hd]
  dsimp only
  rcases hde with rfl | hshort
  · refine ⟨hl.type, fun hsub => ?_⟩
    rw [leafField, hl.sub hsub]
  · obtain ⟨w, o⟩ := d
    obtain ⟨v, o'⟩ := e
    cases o with
    | dcEnd | other => cases hshort
    | ret type len =>
      cases o' with
      | ret | other => cases hshort
      | dcEnd type' back =>
        cases back with
        | succ back => cases hshort
        | zero =>
          have htype : type = type' := beq_iff_eq.mp hshort
          refine ⟨?_, fun hsub => nomatch hl.sub hsub⟩
          have := hl.type
          rcases leafField_dcEnd text.byte k v type' 0 with ho | ⟨-, ho⟩
          · rw [ho] at this
            exact absurd this.symm (type_ne n hn).1
          · rw [ho] at this
            exact htype.trans this

/-- **Every other type comes from a name that is taken.** -/
theorem FirstColon.parse_cases (h : FirstColon text k) (hsize : 4 ≤ text.size) (hdr : HdrField) :
    (parseHname2 text hdr).1 = ⟨.other, k⟩ ∨
      ∃ n ∈ names, Taken text.byte k n ∧ ((parseHname2 text hdr).1 = ⟨n.type, k⟩ ∨
        (parseHname2 text hdr).1 = ⟨n.type, n.key.length⟩ ∧ n.kind.Strays text.byte n.key.length k ∧
          text.byte n.key.length = 0x1a) := by
  rw [h.parse_leaf hsize]
  cases hleaf : firstLeaf text.byte with
  | none => exact .inl rfl
  | some e =>
    obtain ⟨n, hn, he⟩ := paths_names.1 e (mem_of_find?_eq_some hleaf)
    have hsuits := find?_some hleaf
    exact (h.leaf_taken hn he ((Bool.and_eq_true _ _).mp hsuits).1).imp_right fun ht => ⟨n, hn, ht⟩

end

end OpenSer.Parser.Hname2

