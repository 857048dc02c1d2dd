import Mathlib
import OpenSer.Parser.ToGrammar

/-!
# The parameters of To and From bodies

What `parse_to_param` makes of the text of parameters. It knows the end of a name or a value only by the character
behind it, so that a parameter whose text has been read is not stored yet (`AfterParam`).

* `reads_ws`: white space where it does not matter.
* `nameStatus_eq`: the state behind a name tells whether it is `tag` or a beginning of it.
* `reads_param`: the text of one parameter.
* `close_semicolon`, `close_end`: the parameter is stored.
* `params_run`: all of them.
-/

namespace OpenSer.Parser

open List Lib GenParam

/-! ## Characters -/

variable (tmp : Nat)

theorem paramStep_blank (b : Blank) (st : ParamState) :
    paramStep tmp b.char st = .go (paramBlank tmp st) := by
  cases b <;> simp [paramStep, Blank.char]

/-- The state after the first character of a name. -/
def firstStatus (c : Char) : ToStatus := if c = 'T' ∨ c = 't' then .tag1 else .paraName

/-- The state after a character that may go on with the word `tag`. -/
def tagStatus (c : Char) (st : ToStatus) : ToStatus :=
  if (c = 'A' ∨ c = 'a') ∧ st = .tag1 then .tag2 else if (c = 'G' ∨ c = 'g') ∧ st = .tag2 then .tag3 else .paraName

variable {c : Char}

theorem paramStep_token (h : isTokenChar c = true) (tmp : Nat) (st : ParamState) :
    paramStep tmp c st = paramChar (firstStatus c) (tagStatus c) tmp st := by
  simp only [isTokenChar, isSpecChar, isUriChar, Bool.and_eq_true, Bool.not_eq_true', Bool.or_eq_false_iff,
    decide_eq_true_eq, decide_eq_false_iff_not] at h
  simp only [paramStep, h, or_self, if_false]
  obtain ⟨k, sv, x, b⟩ := st
  split_ifs with ht ha hg
  · rcases ht with rfl | rfl <;> rfl
  · rcases ha with rfl | rfl <;> cases k <;> rfl
  · rcases hg with rfl | rfl <;> cases k <;> rfl
  · cases k <;> simp [paramDefault, paramChar, firstStatus, tagStatus, ht, ha, hg]

variable {st : ParamState} {b : ToBody} {qs : List Quoted} {pos : Nat} (name : Word isTokenChar)

theorem paramStep_quoted (h : isQuotedChar c = true) (tmp : Nat)
    (hst : st.status = .paraValueQuoted) : paramStep tmp c st = .go st := by
  simp only [isQuotedChar, Bool.not_eq_true', Bool.or_eq_false_iff, decide_eq_false_iff_not] at h
  obtain ⟨⟨⟨⟨h₁, h₂⟩, h₃⟩, h₄⟩, h₅⟩ := h
  simp only [paramStep, h₁, h₂, h₃, h₄, h₅, if_false, paramBlank, paramSemicolon, paramT, paramA, paramG, paramEqual,
    paramDefault, paramChar, hst, ite_self]

/-! ## White space -/

def skipsWs (st : ToStatus) : Bool := st = .sParaName || st = .sEqual || st = .sParaValue || st = .eParaValue

/-- What both automata do at the end of a line: they save a state, and take it up again if the next line continues this
one. -/
structure Folds {σ : Type} (step : Nat → Char → σ → Answer σ) (enter : σ → ToStatus → σ) (saved : σ → ToStatus) :
    Prop where
  lf : ∀ pos s, step pos '\n' (enter s .fCr) = .go (enter s .fCrlf)
  blank : ∀ pos (b : Blank) s, step pos b.char (enter s .fCrlf) = .go (enter s (saved s))
  stop : ∀ pos s {c}, c ≠ ' ' ∧ c ≠ '\t' ∧ c ≠ '\x00' ∧ c ≠ '\\' → ∃ k, step pos c (enter s .fCrlf) = .stop (enter s k)

namespace Folds

variable {σ : Type} {step : Nat → Char → σ → Answer σ} {enter : σ → ToStatus → σ} {saved : σ → ToStatus}
  (h : Folds step enter saved) {pos : Nat} {s s' : σ} {f : ToStatus → σ} {k sv : ToStatus} {x : Option ToParam}
  {k : ToStatus}
include h

theorem fold {b : Blank} (hcr : step pos '\r' s = .go (enter s' .fCr)) :
    Reads step pos (Ws.fold b).text s (enter s' (saved s')) :=
  .cons hcr (.cons (h.lf _ s') (.single (h.blank _ b s')))

theorem first {ws : List Ws} (hblank : ∀ b : Blank, step pos b.char s = .go (f sv))
    (hcr : step pos '\r' s = .go (enter (f k) .fCr)) (hk : enter (f k) (saved (f k)) = f k)
    (hws : ∀ pos sv, ∃ sv', Reads step pos (wsText ws) (f sv) (f sv')) (w : Ws) :
    ∃ sv', Reads step pos (wsText (w :: ws)) s (f sv') := by
  cases w with
  | blank b =>
    obtain ⟨sv', hrest⟩ := hws (pos + 1) sv
    exact ⟨sv', .append (.single (hblank b)) hrest⟩
  | fold b =>
    obtain ⟨sv', hrest⟩ := hws (pos + 3) k
    have hfold := h.fold (b := b) hcr
    rw [hk] at hfold
    exact ⟨sv', hfold.append hrest⟩

theorem skip (hblank : ∀ pos (b : Blank) sv, step pos b.char (f sv) = .go (f sv))
    (hcr : ∀ pos sv, step pos '\r' (f sv) = .go (enter (f k) .fCr)) (hk : enter (f k) (saved (f k)) = f k)
    (pos : Nat) (ws : List Ws) (sv : ToStatus) : ∃ sv', Reads step pos (wsText ws) (f sv) (f sv') := by
  induction ws generalizing pos sv with
  | nil => exact ⟨sv, .nil _⟩
  | cons w ws ih => exact h.first (hblank pos · sv) (hcr pos sv) hk ih w

theorem headerEnd {t : List Char} (ht : HeaderEnd t) (hcr : step pos '\r' s = .go (enter s' .fCr)) :
    ∃ k r cs, Lib.scan step pos t s = some (enter s' k, r, cs) := by
  cases ht with
  | cr => exact ⟨_, _, _, scan_go hcr⟩
  | crlf next hnext =>
    rw [scan_go hcr, scan_go (h.lf _ s')]
    cases next with
    | nil => exact ⟨_, _, _, rfl⟩
    | cons c cs =>
      obtain ⟨k, hstop⟩ := h.stop (pos + 1 + 1) s' (hnext c rfl)
      exact ⟨_, _, _, scan_stop hstop⟩

end Folds

theorem param_folds : Folds paramStep ParamState.enter ParamState.saved := by
  refine ⟨fun _ _ => rfl, fun _ _ _ => (paramStep_blank _ _ _).trans rfl, fun tmp st c hc => ?_⟩
  obtain ⟨h₁, h₂, h₃, h₄⟩ := hc
  simp only [paramStep, h₁, h₂, h₃, h₄, or_self, if_false]
  split
  · exact ⟨st.saved, rfl⟩
  · split
    · exact ⟨st.saved, rfl⟩
    · refine ⟨.fCrlf, ?_⟩
      simp only [paramQuote, paramSemicolon, paramT, paramA, paramG, paramEqual, paramDefault, paramChar,
        ParamState.enter, ite_self]

/-- **White space, where it does not matter.** -/
theorem reads_ws (pos : Nat) (ws : List Ws) (st : ParamState) (hst : skipsWs st.status = true) :
    ∃ sv, Reads paramStep pos (wsText ws) st { st with saved := sv } := by
  obtain ⟨status, saved, param, b⟩ := st
  simp only [skipsWs, Bool.or_eq_true, decide_eq_true_eq] at hst
  refine param_folds.skip (f := fun sv => ⟨status, sv, param, b⟩) (k := status) ?_ ?_ rfl pos ws saved
  · intro pos b sv
    rw [paramStep_blank]
    rcases hst with ((rfl | rfl) | rfl) | rfl <;> rfl
  · intro pos sv
    rcases hst with ((rfl | rfl) | rfl) | rfl <;> rfl

/-! ## Names -/

def inName (st : ToStatus) : Bool := st = .paraName || st = .tag1 || st = .tag2 || st = .tag3

def nameStatus (name : Word isTokenChar) : ToStatus := name.others.foldl (fun st c => tagStatus c st)
    (firstStatus name.first)

theorem inName_cases (hk : inName k = true) : k = .paraName ∨ k = .tag1 ∨ k = .tag2 ∨ k = .tag3 := by
  simpa [inName, or_assoc] using hk

theorem inName_firstStatus (c : Char) : inName (firstStatus c) = true := by
  simp only [firstStatus]
  split <;> rfl

theorem inName_tagStatus (c : Char) (st : ToStatus) : inName (tagStatus c st) = true := by
  simp only [tagStatus]
  split
  · rfl
  · split <;> rfl

theorem foldl_inName {cs : List Char} {st : ToStatus} (h : inName st = true) :
    inName (cs.foldl (fun st c => tagStatus c st) st) = true := by
  induction cs generalizing st with
  | nil => exact h
  | cons c cs ih => exact ih (inName_tagStatus c st)

theorem inName_nameStatus : inName (nameStatus name) = true :=
  foldl_inName (inName_firstStatus name.first)

theorem paramChar_name (h : isTokenChar c = true) (hk : inName k = true) :
    paramStep pos c ⟨k, sv, x, b⟩ = .go ⟨tagStatus c k, sv, x, b⟩ := by
  rw [paramStep_token h]
  rcases inName_cases hk with rfl | rfl | rfl | rfl
  · simp [paramChar, tagStatus]
  · rfl
  · rfl
  · rfl

theorem reads_others {cs : List Char}
    (h : ∀ c ∈ cs, isTokenChar c = true) (hk : inName k = true) :
    Reads paramStep pos cs ⟨k, sv, x, b⟩ ⟨cs.foldl (fun st c => tagStatus c st) k, sv, x, b⟩ := by
  induction cs generalizing pos k with
  | nil => exact .nil _
  | cons c cs ih =>
    refine .cons (paramChar_name (h c mem_cons_self) hk) ?_
    exact ih (forall_mem_cons.mp h).2 (inName_tagStatus c k)

/-- A parameter whose name begins at `a`. -/
def named (a : Nat) : ToParam := ⟨.generalParam, ⟨some a, 0⟩, .null⟩

/-- The state right behind a semicolon. -/
def fresh (sv : ToStatus) (b : ToBody) : ParamState := ⟨.sParaName, sv, some ⟨.generalParam, .null, .null⟩, b⟩

theorem reads_name (pos : Nat) (sv : ToStatus) (b : ToBody) :
    Reads paramStep pos name.text (fresh sv b) ⟨nameStatus name, sv, some (named pos), b⟩ := by
  have hfirst : paramStep pos name.first (fresh sv b) = .go ⟨firstStatus name.first, sv, some (named pos), b⟩ := by
    rw [paramStep_token (name.ok _ mem_cons_self)]
    rfl
  exact .cons hfirst (reads_others (fun c hc => name.ok c (mem_cons_of_mem _ hc)) (inName_firstStatus _))

theorem toLower_eq_iff {u d : Char} (hu : u.val ≥ 'A'.val ∧ u.val ≤ 'Z'.val)
    (hd : d.val = u.val + ('a'.val - 'A'.val)) : c.toLower = d ↔ c = u ∨ c = d := by
  simp only [Char.toLower, Char.ext_iff]
  constructor
  · intro h
    split at h
    · left
      simp only [hd] at h
      exact (UInt32.add_left_inj _).mp h
    · exact .inr h
  · rintro (h | h)
    · rw [dif_pos (by rw [h]; exact hu)]
      simp only [hd, h]
    · rw [dif_neg]
      · exact h
      · rw [h, hd]
        intro hc
        have h₁ := hu.1
        have h₂ := hc.2
        simp only [UInt32.le_iff_toNat_le, ge_iff_le, UInt32.toNat_add] at h₁ h₂ hu
        have hshift : ('a'.val - 'A'.val).toNat = 32 := rfl
        have hA : ('A'.val).toNat = 65 := rfl
        have hZ : ('Z'.val).toNat = 90 := rfl
        omega

theorem toLower_t : c.toLower = 't' ↔ c = 'T' ∨ c = 't' := toLower_eq_iff (by decide) (by decide)

theorem toLower_a : c.toLower = 'a' ↔ c = 'A' ∨ c = 'a' := toLower_eq_iff (by decide) (by decide)

theorem toLower_g : c.toLower = 'g' ↔ c = 'G' ∨ c = 'g' := toLower_eq_iff (by decide) (by decide)

theorem foldl_paraName (cs : List Char) : cs.foldl (fun st c => tagStatus c st) .paraName = .paraName := by
  induction cs with
  | nil => rfl
  | cons c cs ih =>
    have h : tagStatus c .paraName = .paraName := by simp [tagStatus]
    rw [foldl_cons, h, ih]

/-- **The state behind a name tells whether it is `tag`, a beginning of it, or neither.** -/
theorem nameStatus_eq :
    (nameStatus name = .tag3 ↔ name.text.map Char.toLower = ['t', 'a', 'g']) ∧
      (nameStatus name = .paraName ↔ name.text.map Char.toLower ≠ ['t', 'a', 'g'] ∧
        name.text.map Char.toLower ≠ ['t'] ∧ name.text.map Char.toLower ≠ ['t', 'a']) := by
  obtain ⟨c, cs, hok⟩ := name
  simp only [nameStatus, Word.text]
  match cs with
  | [] => simp [firstStatus, toLower_t]; grind
  | [d] => simp [firstStatus, tagStatus, toLower_t, toLower_a]; grind
  | [d, e] => simp [firstStatus, tagStatus, toLower_t, toLower_a, toLower_g]; grind
  | d :: e :: f :: cs =>
    have h : tagStatus f (tagStatus e (tagStatus d (firstStatus c))) = .paraName := by
      simp only [tagStatus, firstStatus]
      grind
    rw [foldl_cons, foldl_cons, foldl_cons, h, foldl_paraName]
    simp

/-! ## The end of a name -/

/-- The type of a parameter, by the state behind its name. -/
def typeOf (k : ToStatus) : ToParamType := if k = .tag3 then .tagParam else .generalParam

/-- A parameter whose name is between two places. -/
def closedName (a pos : Nat) (k : ToStatus) : ToParam := ⟨typeOf k, ⟨some a, pos - a⟩, .null⟩

section
variable (pos a : Nat) {k : ToStatus} (sv : ToStatus) (b : ToBody)

section
variable (hk : inName k = true)
include hk

theorem named_blank :
    paramBlank pos ⟨k, sv, some (named a), b⟩ = ⟨.sEqual, sv, some (closedName a pos k), b⟩ := by
  rcases inName_cases hk with rfl | rfl | rfl | rfl <;> rfl

theorem named_cr :
    paramStep pos '\r' ⟨k, sv, some (named a), b⟩ = .go ⟨.fCr, .sEqual, some (closedName a pos k), b⟩ := by
  rcases inName_cases hk with rfl | rfl | rfl | rfl <;> rfl

theorem named_equal :
    paramStep pos '=' ⟨k, sv, some (named a), b⟩ = .go ⟨.sParaValue, sv, some (closedName a pos k), b⟩ := by
  rcases inName_cases hk with rfl | rfl | rfl | rfl <;> rfl

theorem reads_ws_named (w : Ws) (ws : List Ws) : ∃ sv', Reads paramStep pos (wsText (w :: ws))
    ⟨k, sv, some (named a), b⟩ ⟨.sEqual, sv', some (closedName a pos k), b⟩ := by
  have hblank : ∀ c : Blank, paramStep pos c.char ⟨k, sv, some (named a), b⟩
      = .go ⟨.sEqual, sv, some (closedName a pos k), b⟩ := by
    intro c
    rw [paramStep_blank, named_blank pos a sv b hk]
  exact param_folds.first (f := fun sv => ⟨.sEqual, sv, some (closedName a pos k), b⟩) hblank
    (named_cr pos a sv b hk) rfl
    (fun pos sv => reads_ws pos ws ⟨.sEqual, sv, _, b⟩ rfl) w

theorem reads_equal (ws : List Ws) : ∃ sv', Reads paramStep pos (wsText ws ++ ['='])
    ⟨k, sv, some (named a), b⟩ ⟨.sParaValue, sv', some (closedName a pos k), b⟩ := by
  cases ws with
  | nil => exact ⟨sv, .single (named_equal pos a sv b hk)⟩
  | cons w ws =>
    obtain ⟨sv', hws⟩ := reads_ws_named pos a sv b hk w ws
    exact ⟨sv', hws.append (.single rfl)⟩

end

end

/-! ## Values -/

section
variable (pos : Nat) (sv : ToStatus) {x : ToParam} (b : ToBody)

theorem reads_token (t : Word isTokenChar) (hx : x.value = .null) : Reads paramStep pos t.text
    ⟨.sParaValue, sv, some x, b⟩ ⟨.paraValueToken, sv, some { x with value := ⟨some pos, 0⟩ }, b⟩ := by
  have hfirst : paramStep pos t.first ⟨.sParaValue, sv, some x, b⟩
      = .go ⟨.paraValueToken, sv, some { x with value := ⟨some pos, 0⟩ }, b⟩ := by
    rw [paramStep_token (t.ok _ mem_cons_self)]
    obtain ⟨type, name, value⟩ := x
    cases hx
    rfl
  refine .cons hfirst (.stay fun tmp c hc => ?_)
  rw [paramStep_token (t.ok c (mem_cons_of_mem _ hc))]
  rfl

/-- A quoted value without escapes and without folded lines loses its last character. -/
theorem reads_quoted (hq : qs.all Quoted.isChar = true) (hx : x.value = .null) :
    Reads paramStep pos (Value.quoted qs).text ⟨.sParaValue, sv, some x, b⟩
      ⟨.eParaValue, sv, none, b.add { x with value := ⟨some (pos + 1), (quotedText qs).length - 1⟩ }⟩ := by
  have hopen : paramStep pos '"' ⟨.sParaValue, sv, some x, b⟩
      = .go ⟨.paraValueQuoted, sv, some { x with value := ⟨some (pos + 1), 0⟩ }, b⟩ := by
    obtain ⟨type, name, value⟩ := x
    cases hx
    rfl
  have htext : Reads paramStep (pos + 1) (quotedText qs)
      ⟨.paraValueQuoted, sv, some { x with value := ⟨some (pos + 1), 0⟩ }, b⟩
      ⟨.paraValueQuoted, sv, some { x with value := ⟨some (pos + 1), 0⟩ }, b⟩ := by
    refine .stay fun tmp c hc => ?_
    obtain ⟨q, hqs, hcq⟩ := mem_flatMap.mp hc
    have hchar := all_eq_true.mp hq q hqs
    cases q with
    | char d ok =>
      cases mem_singleton.mp hcq
      exact paramStep_quoted ok tmp rfl
    | escaped d | fold d => cases hchar
  refine .append (.cons hopen htext) (.single ?_)
  have hlen : ((pos + ('"' :: quotedText qs).length : Nat) : Int) - ((pos + 1 : Nat) : Int) - 1
      = (quotedText qs).length - 1 := by
    simp only [length_cons]
    push_cast
    ring
  rw [← hlen]
  rfl

/-- An escape or a folded line in a quoted value is an error. -/
theorem scan_quoted_fail (hq : qs.all Quoted.isChar = false) (rest : List Char) :
    Lib.scan paramStep pos (quotedText qs ++ rest) ⟨.paraValueQuoted, sv, some x, b⟩ = none := by
  induction qs generalizing pos with
  | nil => cases hq
  | cons q qs ih =>
    cases q with
    | char c ok =>
      have hstep : paramStep pos c ⟨.paraValueQuoted, sv, some x, b⟩ = .go ⟨.paraValueQuoted, sv, some x, b⟩ :=
        paramStep_quoted ok pos rfl
      exact (scan_go hstep).trans (ih (pos + 1) hq)
    | escaped c => exact scan_fail (by simp [paramStep])
    | fold c => exact scan_fail rfl

end

/-! ## One parameter -/

/-- The value that is found: a quoted one is one character short. -/
def GenParam.ValueFound (o : Nat) (p : GenParam) (x : Str) : Prop :=
  match p.value with
  | none => x.len = 0
  | some v =>
    match v.value with
    | .token t => x = ⟨some (o + p.valueAt v), t.text.length⟩
    | .quoted qs => x = ⟨some (o + p.valueAt v + 1), (quotedText qs).length - 1⟩

structure GenParam.Found (o : Nat) (p : GenParam) (x : ToParam) : Prop where
  type : x.type = p.type
  name : x.name = p.nameStr o
  value : p.ValueFound o x.value

/-- The state when the text of a parameter has been read. -/
inductive AfterParam (o : Nat) (p : GenParam) (b : ToBody) : ParamState → Prop
  | flag (sv : ToStatus) : p.value = none → AfterParam o p b ⟨nameStatus p.name, sv, some (named (o + p.nameAt)), b⟩
  | token (sv : ToStatus) {v : Valued} {t : Word isTokenChar} : p.value = some v → v.value = .token t →
      AfterParam o p b ⟨.paraValueToken, sv, some ⟨p.type, p.nameStr o, ⟨some (o + p.valueAt v), 0⟩⟩, b⟩
  | quoted (sv : ToStatus) {v : Valued} {qs : List Quoted} : p.value = some v → v.value = .quoted qs →
      AfterParam o p b ⟨.eParaValue, sv, none,
        b.add ⟨p.type, p.nameStr o, ⟨some (o + p.valueAt v + 1), (quotedText qs).length - 1⟩⟩⟩

theorem typeOf_nameStatus (p : GenParam) : typeOf (nameStatus p.name) = p.type := by
  have h := (nameStatus_eq p.name).1
  simp only [typeOf, type, isTag, h, decide_eq_true_eq]

variable {o : Nat} {p : GenParam}

theorem closedName_eq (hpos : pos = o + p.nameAt + p.name.text.length) :
    closedName (o + p.nameAt) pos (nameStatus p.name) = ⟨p.type, p.nameStr o, .null⟩ := by
  have hlen : (pos : Int) - ((o + p.nameAt : Nat) : Int) = p.name.text.length := by omega
  simp only [closedName, typeOf_nameStatus, nameStr, hlen]

/-- **The text of one parameter, behind the semicolon.** -/
theorem reads_param (o : Nat) (p : GenParam) (sv : ToStatus) (b : ToBody) :
    (∃ st, AfterParam o p b st ∧ Reads paramStep (o + (wsText p.before).length + 1) p.inner (fresh sv b) st) ∨
      p.unquoted = false ∧
        ∀ rest, Lib.scan paramStep (o + (wsText p.before).length + 1) (p.inner ++ rest) (fresh sv b) = none := by
  obtain ⟨sv₁, hws⟩ := reads_ws (o + (wsText p.before).length + 1) p.after (fresh sv b) rfl
  have hat : o + (wsText p.before).length + 1 + (wsText p.after).length = o + p.nameAt := by
    simp only [nameAt]
    omega
  have hboth := hws.append_at hat (reads_name p.name (o + p.nameAt) sv₁ b)
  have hbothlen : o + (wsText p.before).length + 1 + (wsText p.after ++ p.name.text).length
      = o + p.nameAt + p.name.text.length := by
    rw [length_append, ← Nat.add_assoc, hat]
  cases hv : p.value with
  | none =>
    refine .inl ⟨_, .flag sv₁ hv, ?_⟩
    simp only [GenParam.inner, hv, Option.elim_none, append_nil]
    exact hboth
  | some v =>
    obtain ⟨sv₂, heq⟩ := reads_equal (o + p.nameAt + p.name.text.length) (o + p.nameAt) sv₁ b
      (inName_nameStatus p.name) v.before
    rw [closedName_eq rfl] at heq
    obtain ⟨sv₃, hafter⟩ := reads_ws (o + p.nameAt + p.name.text.length + (wsText v.before ++ ['=']).length)
      v.after ⟨.sParaValue, sv₂, some ⟨p.type, p.nameStr o, .null⟩, b⟩ rfl
    have hupto := hboth.append_at hbothlen (heq.append hafter)
    have hvalue : o + (wsText p.before).length + 1
        + (wsText p.after ++ p.name.text ++ (wsText v.before ++ ['='] ++ wsText v.after)).length = o + p.valueAt v := by
      simp only [valueAt, length_append, length_singleton]
      omega
    have hinner : p.inner
        = (wsText p.after ++ p.name.text ++ (wsText v.before ++ ['='] ++ wsText v.after)) ++ v.value.text := by
      simp [GenParam.inner, hv, Valued.text]
    rw [hinner]
    cases hval : v.value with
    | token t =>
      have htoken := reads_token (x := ⟨p.type, p.nameStr o, .null⟩) (o + p.valueAt v) sv₃ b t rfl
      exact .inl ⟨_, .token sv₃ hv hval, hupto.append_at hvalue htoken⟩
    | quoted qs =>
      cases hq : qs.all Quoted.isChar with
      | true =>
        have hquoted := reads_quoted (x := ⟨p.type, p.nameStr o, .null⟩) (o + p.valueAt v) sv₃ b hq rfl
        exact .inl ⟨_, .quoted sv₃ hv hval, hupto.append_at hvalue hquoted⟩
      | false =>
        refine .inr ⟨?_, fun rest => ?_⟩
        · obtain ⟨before, after, value⟩ := v
          cases hval
          simp [unquoted, hv]
        · rw [append_assoc, hupto, hvalue]
          have hopen : paramStep (o + p.valueAt v) '"' ⟨.sParaValue, sv₃, some ⟨p.type, p.nameStr o, .null⟩, b⟩
              = .go ⟨.paraValueQuoted, sv₃, some ⟨p.type, p.nameStr o, ⟨some (o + p.valueAt v + 1), 0⟩⟩, b⟩ :=
            rfl
          simp only [Value.text, cons_append, append_assoc]
          exact (scan_go hopen).trans (scan_quoted_fail _ sv₃ b hq _)

/-! ## Behind a parameter -/

theorem paramsText_nil (t : List Char) : paramsText [] ++ t = t := rfl

theorem paramsText_cons (p : GenParam) (ps : List GenParam) (t : List Char) :
    paramsText (p :: ps) ++ t = wsText p.before ++ ';' :: (p.inner ++ (paramsText ps ++ t)) := by
  simp [paramsText, text]

theorem GenParam.text_length (p : GenParam) :
    p.text.length = p.nameAt + p.name.text.length + (p.value.elim [] Valued.text).length := by
  simp only [text, GenParam.inner, nameAt, length_append, length_cons]
  omega

theorem flag_text_end (hv : p.value = none) (o : Nat) :
    o + p.text.length = o + p.nameAt + p.name.text.length := by
  rw [p.text_length, hv]
  simp only [Option.elim_none, length_nil]
  omega

variable {v : Valued} {t : Word isTokenChar}

theorem token_upTo (hv : p.value = some v)
    (ht : v.value = .token t) :
      ((o + p.text.length : Nat) : Int) - ((o + p.valueAt v : Nat) : Int) - 0 = t.text.length := by
  have hlen : p.text.length = p.valueAt v + t.text.length := by
    rw [p.text_length, hv]
    simp only [Option.elim_some, Valued.text, ht, Value.text, valueAt, length_append, length_cons]
    omega
  omega

theorem found_token (hv : p.value = some v)
    (ht : v.value = .token t) : p.Found o ⟨p.type, p.nameStr o, ⟨some (o + p.valueAt v), t.text.length⟩⟩ := by
  refine ⟨rfl, rfl, ?_⟩
  simp only [GenParam.ValueFound, hv, ht]

theorem found_quoted (hv : p.value = some v) (hq : v.value = .quoted qs) :
    p.Found o ⟨p.type, p.nameStr o, ⟨some (o + p.valueAt v + 1), (quotedText qs).length - 1⟩⟩ := by
  refine ⟨rfl, rfl, ?_⟩
  simp only [GenParam.ValueFound, hv, hq]

theorem found_flag {x : Str} (hv : p.value = none) (hx : x.len = 0) :
    p.Found o ⟨p.type, p.nameStr o, x⟩ := by
  refine ⟨rfl, rfl, ?_⟩
  simpa only [GenParam.ValueFound, hv] using hx

theorem reads_ws_token (pos a : Nat) (sv : ToStatus) (type : ToParamType) (name : Str) (b : ToBody)
    (w : Ws) (ws : List Ws) :
    ∃ sv', Reads paramStep pos (wsText (w :: ws)) ⟨.paraValueToken, sv, some ⟨type, name, ⟨some a, 0⟩⟩, b⟩
      ⟨.eParaValue, sv', none, b.add ⟨type, name, ⟨some a, (pos : Int) - (a : Int) - 0⟩⟩⟩ := by
  exact param_folds.first (f := fun sv => ⟨.eParaValue, sv, none, _⟩) (k := .eParaValue)
    (fun _ => (paramStep_blank _ _ _).trans rfl) rfl rfl
    (fun pos sv => reads_ws pos ws ⟨.eParaValue, sv, none, _⟩ rfl) w

theorem reads_ws_flag (hv : p.value = none) (sv : ToStatus) (b : ToBody) (w : Ws) (ws : List Ws) :
    ∃ sv', Reads paramStep (o + p.text.length) (wsText (w :: ws)) ⟨nameStatus p.name, sv,
      some (named (o + p.nameAt)), b⟩ ⟨.sEqual, sv', some ⟨p.type, p.nameStr o, .null⟩, b⟩ := by
  obtain ⟨sv', h⟩ := reads_ws_named (o + p.text.length) (o + p.nameAt) sv b (inName_nameStatus p.name) w ws
  rw [closedName_eq (flag_text_end hv o)] at h
  exact ⟨sv', h⟩

theorem flag_semicolon (pos : Nat) (sv : ToStatus) (type : ToParamType) (name : Str) (b : ToBody) :
    paramStep pos ';' ⟨.sEqual, sv, some ⟨type, name, .null⟩, b⟩ =
      if type = .tagParam then .fail else .go (fresh sv (b.add ⟨type, name, ⟨some pos, 0⟩⟩)) := by
  cases type with
  | tagParam => rfl
  | generalParam =>
    have hlen : (pos : Int) - (pos : Int) - 0 = 0 := by omega
    rw [← hlen]
    rfl

theorem flag_semicolon_direct (pos a : Nat) (k sv : ToStatus) (b : ToBody) (hk : inName k = true) :
    paramStep pos ';' ⟨k, sv, some (named a), b⟩ =
      if k = .paraName then .go (fresh sv (b.add ⟨.generalParam, ⟨some a, pos - a⟩, ⟨some pos, 0⟩⟩)) else .fail := by
  rcases inName_cases hk with rfl | rfl | rfl | rfl
  · have hlen : (pos : Int) - (pos : Int) - 0 = 0 := by omega
    rw [← hlen]
    rfl
  · rfl
  · rfl
  · rfl

theorem GenParam.type_eq_tag (p : GenParam) : p.type = .tagParam ↔ p.isTag = true := by
  simp only [type]
  split <;> simp_all

theorem flagOk_false_iff (hv : p.value = none) : p.flagOk false = true ↔ p.type ≠ .tagParam := by
  rw [ne_eq, type_eq_tag]
  simp [flagOk, hv]

/-- The state behind a name that is not `tag` and not a beginning of it. -/
theorem nameStatus_paraName (p : GenParam) : nameStatus p.name = .paraName ↔ p.isTag = false ∧
    p.isTagPrefix = false := by
  rw [(nameStatus_eq p.name).2]
  simp [isTag, isTagPrefix]

/-- **White space and a semicolon behind a parameter.** -/
theorem close_semicolon (h : AfterParam o p b st) (ws : List Ws) :
    (p.flagOk ws.isEmpty = true ∧ ∃ x sv, p.Found o x ∧
      Reads paramStep (o + p.text.length) (wsText ws ++ [';']) st (fresh sv (b.add x))) ∨
      p.flagOk ws.isEmpty = false ∧ ∀ rest, Lib.scan paramStep (o + p.text.length)
        (wsText ws ++ ';' :: rest) st = none := by
  cases h with
  | flag sv hv =>
    have hpos := flag_text_end hv o
    have hlen : ((o + p.text.length : Nat) : Int) - ((o + p.nameAt : Nat) : Int) = p.name.text.length := by omega
    cases ws with
    | nil =>
      have hsemi := flag_semicolon_direct (o + p.text.length) (o + p.nameAt) (nameStatus p.name) sv b
        (inName_nameStatus p.name)
      have hok : p.flagOk true = true ↔ nameStatus p.name = .paraName := by
        rw [nameStatus_paraName]
        simp [flagOk, hv]
      by_cases hname : nameStatus p.name = .paraName
      · rw [if_pos hname, hlen] at hsemi
        refine .inl ⟨hok.mpr hname, ⟨p.type, p.nameStr o, ⟨some (o + p.text.length), 0⟩⟩, sv,
          found_flag hv rfl, .single ?_⟩
        have htype : p.type = .generalParam := by
          rw [type, ((nameStatus_paraName p).mp hname).1]
          rfl
        rw [hsemi, htype]
        rfl
      · rw [if_neg hname] at hsemi
        exact .inr ⟨Bool.eq_false_iff.mpr fun hc => hname (hok.mp hc), fun rest => scan_fail hsemi⟩
    | cons w ws =>
      obtain ⟨sv', hws⟩ := reads_ws_flag (o := o) hv sv b w ws
      have hsemi := flag_semicolon (o + p.text.length + (wsText (w :: ws)).length) sv' p.type (p.nameStr o) b
      have hok := flagOk_false_iff hv
      by_cases htag : p.type = .tagParam
      · rw [if_pos htag] at hsemi
        refine .inr ⟨Bool.eq_false_iff.mpr fun hc => hok.mp hc htag, fun rest => ?_⟩
        rw [hws]
        exact scan_fail hsemi
      · rw [if_neg htag] at hsemi
        exact .inl ⟨hok.mpr htag, _, sv', found_flag hv rfl, hws.append (.single hsemi)⟩
  | @token sv v t hv ht =>
    have hok : p.flagOk ws.isEmpty = true := by simp [flagOk, hv]
    refine .inl ⟨hok, ⟨p.type, p.nameStr o, ⟨some (o + p.valueAt v), t.text.length⟩⟩, ?_⟩
    have hlen := token_upTo (o := o) hv ht
    cases ws with
    | nil =>
      refine ⟨sv, found_token hv ht, .single ?_⟩
      rw [← hlen]
      rfl
    | cons w ws =>
      obtain ⟨sv', hws⟩ := reads_ws_token (o + p.text.length) (o + p.valueAt v) sv p.type (p.nameStr o) b w ws
      rw [hlen] at hws
      exact ⟨sv', found_token hv ht, hws.append (.single rfl)⟩
  | quoted sv hv hq =>
    have hok : p.flagOk ws.isEmpty = true := by simp [flagOk, hv]
    obtain ⟨sv', hws⟩ := reads_ws (o + p.text.length) ws ⟨.eParaValue, sv, none, _⟩ rfl
    exact .inl ⟨hok, _, sv', found_quoted hv hq, hws.append (.single rfl)⟩

/-! ## The end of the header -/

/-- What `parse_to_param` makes of where its loop ends. -/
def finishParams (r : Option (ParamState × Nat × List Char)) : Option (ToBody × ToStatus × Nat) :=
  r.bind fun (st, tmp, _) => st.endOfHeader.map fun (b, status) => (b, status, tmp)

variable {t : List Char} {ps : List GenParam}

theorem finish_headerEnd (ht : HeaderEnd t) (pos : Nat) (st' : ParamState)
    (hcr : paramStep pos '\r' st = .go (st'.enter .fCr)) :
    ∃ r, finishParams (Lib.scan paramStep pos t st) = st'.endOfHeader.map fun (b, status) => (b, status, r) := by
  obtain ⟨k, r, cs, hscan⟩ := param_folds.headerEnd ht hcr
  rw [hscan]
  exact ⟨r, rfl⟩

theorem finish_stored (ht : HeaderEnd t) (pos : Nat) (sv : ToStatus) (b : ToBody) :
    ∃ r, finishParams (Lib.scan paramStep pos t ⟨.eParaValue, sv, none, b⟩) = some (b, .eParaValue, r) :=
  finish_headerEnd ht pos ⟨.eParaValue, .eParaValue, none, b⟩ rfl

theorem flag_endOfHeader (k : ToStatus) (type : ToParamType) (name : Str) (b : ToBody) :
    ParamState.endOfHeader ⟨k, .sEqual, some ⟨type, name, .null⟩, b⟩ =
      if type = .tagParam then none else some (b.add ⟨type, name, .null⟩, .eParaValue) := by
  cases type <;> rfl

/-- **White space and the end of the header behind a parameter.** -/
theorem close_end (h : AfterParam o p b st) (ws : List Ws) (ht : HeaderEnd t) :
    (p.flagOk false = true ∧ ∃ x r, p.Found o x ∧
      finishParams (Lib.scan paramStep (o + p.text.length) (wsText ws ++ t) st) = some (b.add x, .eParaValue, r)) ∨
      p.flagOk false = false ∧ finishParams (Lib.scan paramStep (o + p.text.length) (wsText ws ++ t) st) = none := by
  cases h with
  | flag sv hv =>
    have hok := flagOk_false_iff hv
    -- white space or the end of the line ends the name, and the state is `S_EQUAL` either way
    obtain ⟨r, hr⟩ : ∃ r, finishParams (Lib.scan paramStep (o + p.text.length) (wsText ws ++ t)
        ⟨nameStatus p.name, sv, some (named (o + p.nameAt)), b⟩)
        = (ParamState.endOfHeader ⟨.sEqual, .sEqual, some ⟨p.type, p.nameStr o, .null⟩, b⟩).map
          fun (b, status) => (b, status, r) := by
      cases ws with
      | nil =>
        have hcr := named_cr (o + p.text.length) (o + p.nameAt) sv b (inName_nameStatus p.name)
        rw [closedName_eq (flag_text_end hv o)] at hcr
        exact finish_headerEnd ht _ ⟨.sEqual, .sEqual, some ⟨p.type, p.nameStr o, .null⟩, b⟩ hcr
      | cons w ws =>
        obtain ⟨sv', hws⟩ := reads_ws_flag (o := o) hv sv b w ws
        rw [hws]
        exact finish_headerEnd ht _ ⟨.sEqual, .sEqual, some ⟨p.type, p.nameStr o, .null⟩, b⟩ rfl
    rw [hr, flag_endOfHeader]
    by_cases htag : p.type = .tagParam
    · rw [if_pos htag]
      exact .inr ⟨Bool.eq_false_iff.mpr fun hc => hok.mp hc htag, rfl⟩
    · rw [if_neg htag]
      exact .inl ⟨hok.mpr htag, _, r, found_flag hv rfl, rfl⟩
  | @token sv v t hv hval =>
    have hok : p.flagOk false = true := by simp [flagOk, hv]
    refine .inl ⟨hok, ⟨p.type, p.nameStr o, ⟨some (o + p.valueAt v), t.text.length⟩⟩, ?_⟩
    have hlen := token_upTo (o := o) hv hval
    cases ws with
    | nil =>
      refine (finish_headerEnd ht _ ⟨.eParaValue, .eParaValue, none, _⟩ ?_).imp fun r hr => ⟨found_token hv hval, hr⟩
      rw [← hlen]
      rfl
    | cons w ws =>
      obtain ⟨sv', hws⟩ := reads_ws_token (o + p.text.length) (o + p.valueAt v) sv p.type (p.nameStr o) b w ws
      rw [hlen] at hws
      rw [hws]
      exact (finish_stored ht _ sv' _).imp fun r hr => ⟨found_token hv hval, hr⟩
  | quoted sv hv hq =>
    have hok : p.flagOk false = true := by simp [flagOk, hv]
    obtain ⟨sv', hws⟩ := reads_ws (o + p.text.length) ws ⟨.eParaValue, sv, none, _⟩ rfl
    rw [hws]
    exact .inl ⟨hok, _, (finish_stored ht _ sv' _).imp fun r hr => ⟨found_quoted hv hq, hr⟩⟩

/-! ## All parameters -/

/-- What the run over parameters gives: if there is no error, all of them are found and no flag is one that it refuses.
Without such flags and without quoted values there is no error. -/
structure ParamsRun (o : Nat) (ps : List GenParam) (b : ToBody) (res : Option (ToBody × ToStatus × Nat)) : Prop where
  found : ∀ out, res = some out → out.2.1 = .eParaValue ∧ flagsOk ps = true ∧
    ∃ xs, out.1 = xs.foldl ToBody.add b ∧ List.Forall₂ (fun x q => q.2.Found q.1 x) xs (placed o ps)
  total : flagsOk ps = true → ps.all GenParam.unquoted = true → res.isSome = true

theorem ParamsRun.error
    (h : ¬ (flagsOk ps = true ∧ ps.all unquoted = true)) : ParamsRun o ps b none :=
  ⟨fun _ hout => (by cases hout), fun hf hq => absurd ⟨hf, hq⟩ h⟩

theorem ParamsRun.cons {x : ToParam}
    {res : Option (ToBody × ToStatus × Nat)} (hx : p.Found o x) (hok : p.flagOk (semicolonNext ps) = true)
    (h : ParamsRun (o + p.text.length) ps (b.add x) res) : ParamsRun o (p :: ps) b res := by
  refine ⟨fun out hout => ?_, fun hf hq => ?_⟩
  · obtain ⟨hstatus, hflags, xs, hxs, hfound⟩ := h.found out hout
    exact ⟨hstatus, by simp [flagsOk, hok, hflags], x :: xs, hxs, .cons hx hfound⟩
  · simp only [flagsOk, Bool.and_eq_true] at hf
    simp only [all_cons, Bool.and_eq_true] at hq
    exact h.total hf.2 hq.2

/-- **From behind a semicolon to the end of the header.** -/
theorem params_run (ht : HeaderEnd t) (trail : List Ws) (ps : List GenParam) (o : Nat) (p : GenParam) (sv : ToStatus)
    (b : ToBody) : ParamsRun o (p :: ps) b (finishParams (Lib.scan paramStep (o + (wsText p.before).length + 1)
      (p.inner ++ (paramsText ps ++ (wsText trail ++ t))) (fresh sv b))) := by
  rcases reads_param o p sv b with ⟨st, hafter, hinner⟩ | ⟨hquoted, hfail⟩
  swap
  · rw [hfail]
    exact .error fun hc => by simp [hquoted] at hc
  have hlen : o + (wsText p.before).length + 1 + p.inner.length = o + p.text.length := by
    simp only [text, length_append, length_cons]
    omega
  rw [hinner, hlen]
  match ps with
  | [] =>
    rcases close_end hafter trail ht with ⟨hok, x, r, hx, hres⟩ | ⟨hbad, hres⟩
    · refine .cons hx hok ⟨fun out hout => ?_, fun _ _ => ?_⟩
      · rw [paramsText_nil, hres] at hout
        cases hout
        exact ⟨rfl, rfl, [], rfl, .nil⟩
      · rw [paramsText_nil, hres]
        rfl
    · rw [paramsText_nil, hres]
      exact .error fun hc => by simp [flagsOk, semicolonNext, hbad] at hc
  | q :: ps =>
    rw [paramsText_cons]
    rcases close_semicolon hafter q.before with ⟨hok, x, sv, hx, hreads⟩ | ⟨hbad, hfail⟩
    · refine .cons hx hok ?_
      have hrest := hreads (q.inner ++ (paramsText ps ++ (wsText trail ++ t)))
      rw [append_assoc, length_append] at hrest
      exact (congrArg finishParams hrest).symm ▸ params_run ht trail ps _ q sv (b.add x)
    · rw [hfail]
      exact .error fun hc => by simp [flagsOk, semicolonNext, hbad] at hc

end OpenSer.Parser
