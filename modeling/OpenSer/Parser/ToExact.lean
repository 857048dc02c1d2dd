import OpenSer.Parser.ToParams

/-!
# To and From bodies are parsed exactly

What `parse_to` makes of the text of an address, and of a whole body.

* `reads_tokens_open`: a display name of two or more tokens is too long if a folded line is right behind it.
* `addr_run`: the text of an address.
* `addr_semicolon`, `addr_end`: what is behind it.
* `parse_to_exact_iff`: the bodies for which the result has all the parts of the text.
-/

namespace OpenSer.Parser

open List Lib GenParam

/-! ## Characters -/

variable (tmp : Nat)

theorem toStep_blank (b : Blank) (st : ToState) : toStep tmp b.char st = .go (toBlank tmp st) := by
  cases b <;> simp [toStep, Blank.char]

variable {c : Char}

theorem toStep_uri (h : isUriChar c = true) (tmp : Nat) (st : ToState) :
    toStep tmp c st = if c = ';' then toSemicolon tmp st else toDefault tmp st := by
  simp only [isUriChar, Bool.not_eq_true', Bool.or_eq_false_iff, decide_eq_false_iff_not] at h
  simp only [toStep, h, or_self, if_false]

theorem toStep_spec (h : isSpecChar c = true) (tmp : Nat) (st : ToState) :
    toStep tmp c st = toDefault tmp st := by
  simp only [isSpecChar, Bool.and_eq_true, decide_eq_true_eq] at h
  rw [toStep_uri h.1, if_neg h.2]

theorem isTokenChar.spec (h : isTokenChar c = true) : isSpecChar c = true := by
  simp only [isTokenChar, Bool.and_eq_true] at h
  exact h.1

variable {st : ToState} (pos : Nat) (sv : ToStatus) (em : Nat)

theorem toStep_quoted (h : isQuotedChar c = true) (tmp : Nat) (hst : st.status = .displayQuoted) :
    toStep tmp c st = .go st := by
  simp only [isQuotedChar, Bool.not_eq_true', Bool.or_eq_false_iff, decide_eq_false_iff_not] at h
  obtain ⟨⟨⟨⟨h₁, h₂⟩, h₃⟩, h₄⟩, h₅⟩ := h
  simp only [toStep, h₁, h₂, h₃, h₄, h₅, if_false, toBlank, toOpen, toClose, toSemicolon, toDefault, hst, ite_self]

/-! ## White space -/

theorem to_folds : Folds toStep ToState.enter ToState.saved := by
  refine ⟨fun _ _ => rfl, fun _ _ _ => (toStep_blank _ _ _).trans rfl, fun tmp st c hc => ?_⟩
  obtain ⟨h₁, h₂, h₃, h₄⟩ := hc
  simp only [toStep, h₁, h₂, h₃, h₄, or_self, if_false]
  split
  · exact ⟨st.saved, rfl⟩
  · split
    · exact ⟨st.saved, rfl⟩
    · refine ⟨.fCrlf, ?_⟩
      simp only [toOpen, toClose, toQuote, toSemicolon, toDefault, ToState.enter, ite_self]

/-- The states in which white space does not matter. -/
def toSkipsWs (st : ToStatus) : Bool :=
  st = .maybeUriEnd || st = .displayToken2 || st = .eDisplayQuoted || st = .finished

theorem to_reads_ws (ws : List Ws) (st : ToState) (hst : toSkipsWs st.status = true) :
    ∃ sv, Reads toStep pos (wsText ws) st { st with saved := sv } := by
  obtain ⟨status, saved, em, at_, b⟩ := st
  simp only [toSkipsWs, Bool.or_eq_true, decide_eq_true_eq] at hst
  refine to_folds.skip (f := fun sv => ⟨status, sv, em, at_, b⟩) (k := status) ?_ ?_ rfl pos ws saved
  · intro pos b sv
    rw [toStep_blank]
    rcases hst with ((rfl | rfl) | rfl) | rfl <;> rfl
  · intro pos sv
    rcases hst with ((rfl | rfl) | rfl) | rfl <;> rfl

/-! ## The display name -/

/-- A body that begins at 0 and has no parameters yet. -/
def bodyAt (uri display : Str) : ToBody := ⟨⟨some 0, 0⟩, uri, display, .null, []⟩

abbrev opened : ToBody := bodyAt ⟨some 0, 0⟩ ⟨some 0, 0⟩

/-- The first word has ended at `n`. -/
abbrev uriEnded (n : Nat) : ToState := ⟨.maybeUriEnd, .maybeUriEnd, n, false, opened⟩

theorem reads_first {cs : List Char} (h : ∀ d ∈ c :: cs, isSpecChar d = true) : Reads toStep 0 (c :: cs) .init
    ⟨.uriOrToken, .startTo, 0, false, opened⟩ := by
  have hfirst : toStep 0 c .init = .go ⟨.uriOrToken, .startTo, 0, false, opened⟩ :=
    (toStep_spec (h c mem_cons_self) _ _).trans rfl
  refine .cons hfirst (.stay fun tmp d hd => ?_)
  exact (toStep_spec (h d (mem_cons_of_mem _ hd)) _ _).trans rfl

theorem reads_first_ws (b : ToBody) (w : Ws) (ws : List Ws) :
    ∃ sv', Reads toStep pos (wsText (w :: ws)) ⟨.uriOrToken, sv, em, false, b⟩ ⟨.maybeUriEnd, sv', pos, false, b⟩ := by
  exact to_folds.first (f := fun sv => ⟨.maybeUriEnd, sv, pos, false, b⟩) (k := .maybeUriEnd)
    (fun _ => (toStep_blank _ _ _).trans rfl) rfl rfl
    (fun pos' sv => to_reads_ws pos' ws ⟨.maybeUriEnd, sv, pos, false, b⟩ rfl) w

def betweenTokens (st : ToStatus) : Bool := st = .displayToken || st = .displayToken2 || st = .maybeUriEnd

variable {k : ToStatus} {a : Addr} {qs : List Quoted}

theorem reads_between_ws (ws : List Ws) (sv : ToStatus) (em : Nat) (b : ToBody)
    (hk : betweenTokens k = true) : ∃ k' sv' em', betweenTokens k' = true ∧
      Reads toStep pos (wsText ws) ⟨k, sv, em, false, b⟩ ⟨k', sv', em', false, b⟩ := by
  induction ws generalizing pos k sv em with
  | nil => exact ⟨k, sv, em, hk, .nil _⟩
  | cons w ws ih =>
    simp only [betweenTokens, Bool.or_eq_true, decide_eq_true_eq] at hk
    cases w with
    | blank c =>
      obtain ⟨k₁, em₁, hblank, hk₁⟩ : ∃ k₁ em₁, toBlank pos ⟨k, sv, em, false, b⟩ = ⟨k₁, sv, em₁, false, b⟩ ∧
          betweenTokens k₁ = true := by
        rcases hk with (rfl | rfl) | rfl <;> exact ⟨_, _, rfl, rfl⟩
      obtain ⟨k', sv', em', hk', hws⟩ := ih (pos + 1) sv em₁ hk₁
      refine ⟨k', sv', em', hk', .append (.single ?_) hws⟩
      rw [toStep_blank, hblank]
    | fold c =>
      have hcr : toStep pos '\r' ⟨k, sv, em, false, b⟩ = .go (ToState.enter ⟨k, k, em, false, b⟩ .fCr) := by
        rcases hk with (rfl | rfl) | rfl <;> rfl
      obtain ⟨k', sv', em', hk', hws⟩ := ih (pos + 3) k em (k := k) (by
        rcases hk with (rfl | rfl) | rfl <;> rfl)
      exact ⟨k', sv', em', hk', .append (to_folds.fold hcr) hws⟩

theorem reads_next_token (b : ToBody) (t : Word isTokenChar)
    (hk : betweenTokens k = true) :
    Reads toStep pos t.text ⟨k, sv, em, false, b⟩ ⟨.displayToken, sv, em, false, b⟩ := by
  have hfirst : toStep pos t.first ⟨k, sv, em, false, b⟩ = .go ⟨.displayToken, sv, em, false, b⟩ := by
    rw [toStep_spec (isTokenChar.spec (t.ok _ mem_cons_self))]
    simp only [betweenTokens, Bool.or_eq_true, decide_eq_true_eq] at hk
    rcases hk with (rfl | rfl) | rfl <;> rfl
  refine .cons hfirst (.stay fun tmp d hd => ?_)
  exact (toStep_spec (isTokenChar.spec (t.ok d (mem_cons_of_mem _ hd))) _ _).trans rfl

theorem reads_tokens (ts : List NextToken) (sv : ToStatus) (em : Nat) (b : ToBody)
    (hk : k = .uriOrToken ∨ k = .displayToken) : ∃ sv' em',
      Reads toStep pos (ts.flatMap NextToken.text) ⟨k, sv, em, false, b⟩
        ⟨if ts.isEmpty then k else .displayToken, sv', em', false, b⟩ := by
  induction ts generalizing pos k sv em with
  | nil => exact ⟨sv, em, .nil _⟩
  | cons t ts ih =>
    obtain ⟨k₁, sv₁, em₁, hk₁, hws⟩ : ∃ k₁ sv₁ em₁, betweenTokens k₁ = true ∧
        Reads toStep pos (wsText (t.ws :: t.more)) ⟨k, sv, em, false, b⟩ ⟨k₁, sv₁, em₁, false, b⟩ := by
      rcases hk with rfl | rfl
      · obtain ⟨sv', h⟩ := reads_first_ws pos sv em b t.ws t.more
        exact ⟨_, _, _, rfl, h⟩
      · exact reads_between_ws pos (t.ws :: t.more) sv em b rfl
    have htoken := reads_next_token (pos + (wsText (t.ws :: t.more)).length) sv₁ em₁ b t.token hk₁
    obtain ⟨sv', em', hts⟩ := ih (pos + t.text.length) sv₁ em₁ (k := .displayToken) (.inr rfl)
    refine ⟨sv', em', ?_⟩
    rw [ite_self] at hts
    exact (hws.append htoken).append hts

/-- `<` behind one word, with or without white space between them: the display name is the word. -/
theorem reads_first_open (uri : Str) (ws : List Ws) : ∃ sv' em',
    Reads toStep pos (wsText ws ++ ['<']) ⟨.uriOrToken, sv, em, false, bodyAt uri ⟨some 0, 0⟩⟩
      ⟨.sUriEnclosed, sv', em', false, bodyAt uri ⟨some 0, pos - (0 : Nat)⟩⟩ := by
  cases ws with
  | nil => exact ⟨sv, pos, .single rfl⟩
  | cons w ws =>
    obtain ⟨sv', hws⟩ := reads_first_ws pos sv em (bodyAt uri ⟨some 0, 0⟩) w ws
    exact ⟨sv', pos, hws.append (.single rfl)⟩

/-- **`<` behind two or more tokens: a folded line right behind the last token is taken for a part of the name.** -/
theorem reads_tokens_open (uri : Str) (ws : List Ws) : ∃ sv' em', ∃ n : Nat,
    Reads toStep pos (wsText ws ++ ['<']) ⟨.displayToken, sv, em, false, bodyAt uri ⟨some 0, 0⟩⟩
      ⟨.sUriEnclosed, sv', em', false, bodyAt uri ⟨some 0, (n : Int) - (0 : Nat)⟩⟩ ∧
      pos ≤ n ∧ (n = pos ↔ ws.head?.any Ws.isFold = false) := by
  induction ws generalizing pos sv em with
  | nil => exact ⟨sv, pos, pos, .single rfl, le_rfl, iff_of_true rfl rfl⟩
  | cons w ws ih =>
    cases w with
    | blank c =>
      obtain ⟨sv', hws⟩ := to_reads_ws (pos + 1) ws ⟨.displayToken2, sv, pos, false, bodyAt uri ⟨some 0, 0⟩⟩ rfl
      have hblank : toStep pos c.char ⟨.displayToken, sv, em, false, bodyAt uri ⟨some 0, 0⟩⟩
          = .go ⟨.displayToken2, sv, pos, false, bodyAt uri ⟨some 0, 0⟩⟩ := (toStep_blank _ _ _).trans rfl
      refine ⟨sv', pos, pos, ?_, le_rfl, iff_of_true rfl rfl⟩
      exact ((Reads.single hblank).append hws).append (.single rfl)
    | fold c =>
      have hcr : toStep pos '\r' ⟨.displayToken, sv, em, false, bodyAt uri ⟨some 0, 0⟩⟩
          = .go (ToState.enter ⟨.displayToken, .displayToken, em, false, bodyAt uri ⟨some 0, 0⟩⟩ .fCr) :=
        rfl
      obtain ⟨sv', em', n, hws, hle, -⟩ := ih (pos + 3) .displayToken em
      refine ⟨sv', em', n, ?_, by omega, iff_of_false (by omega) (by simp [Ws.isFold])⟩
      have hboth := (to_folds.fold (b := c) hcr).append hws
      simpa [wsText, append_assoc] using hboth

theorem reads_display_quoted (hq : (qs.all fun q => !q.isFold) = true) (pos : Nat)
    (hst : st.status = .displayQuoted) : Reads toStep pos (quotedText qs) st st := by
  induction qs generalizing pos with
  | nil => exact .nil _
  | cons q qs ih =>
    simp only [all_cons, Bool.and_eq_true] at hq
    refine .append ?_ (ih hq.2 _)
    cases q with
    | char c ok => exact .single (toStep_quoted ok pos hst)
    | escaped c => exact .jump (by simp [toStep, toBackslash, hst])
    | fold c => exact absurd hq.1 (by simp [Quoted.isFold])

theorem scan_display_fail (hq : (qs.all fun q => !q.isFold) = false) (pos : Nat)
    (hst : st.status = .displayQuoted) (rest : List Char) : Lib.scan toStep pos (quotedText qs ++ rest) st = none := by
  induction qs generalizing pos with
  | nil => cases hq
  | cons q qs ih =>
    cases q with
    | char c ok => exact (Reads.single (toStep_quoted ok pos hst) _).trans (ih hq _)
    | escaped c =>
      have hjump : toStep pos '\\' st = .jump st := by simp [toStep, toBackslash, hst]
      exact (Reads.jump hjump _).trans (ih hq _)
    | fold c =>
      have hcr : toStep pos '\r' st = toCr pos st := rfl
      exact scan_fail (hcr.trans (by simp only [toCr, toLineEnd, hst]))

/-! ## The address -/

/-- `display.s` is cleared if the length is 0. -/
def Str.clear (x : Str) : Str := if x.len = 0 then { x with s := none } else x

theorem reads_enclosed {u : Str} (d : Str) (uri : Word isUriChar)
    (first : uri.first ≠ ';') (hu : u.len = 0) :
    Reads toStep pos (uri.text ++ ['>']) ⟨.sUriEnclosed, sv, em, false, bodyAt u d⟩
      ⟨.finished, sv, em, false, bodyAt ⟨some pos, uri.text.length⟩ d⟩ := by
  have hfirst : toStep pos uri.first ⟨.sUriEnclosed, sv, em, false, bodyAt u d⟩
      = .go ⟨.uriEnclosed, sv, em, false, bodyAt ⟨some pos, 0⟩ d⟩ := by
    rw [toStep_uri (uri.ok _ mem_cons_self), if_neg first, ← hu]
    rfl
  have hothers : Reads toStep (pos + 1) uri.others ⟨.uriEnclosed, sv, em, false, bodyAt ⟨some pos, 0⟩ d⟩
      ⟨.uriEnclosed, sv, em, false, bodyAt ⟨some pos, 0⟩ d⟩ := by
    refine .stay fun tmp c hc => ?_
    rw [toStep_uri (uri.ok c (mem_cons_of_mem _ hc))]
    split <;> rfl
  refine (Reads.cons hfirst hothers).append (.single ?_)
  have hlen : ((pos + (uri.first :: uri.others).length : Nat) : Int) - (pos : Int) = uri.text.length := by
    simp only [Word.text]
    omega
  rw [← hlen]
  rfl

/-- The state when the text of an address has been read: the display name is right if the text is plain. -/
inductive AddrRead : Addr → ToState → Prop
  | nameAddr {d : Display} {uri : Word isUriChar} {first : uri.first ≠ ';'} (sv : ToStatus) (em : Nat) (x : Str) :
      (x.clear = (Addr.nameAddr d uri first).display ↔ d.plain = true) →
      AddrRead (.nameAddr d uri first) ⟨.finished, sv, em, false, bodyAt (Addr.nameAddr d uri first).uri x⟩
  | addrSpec (uri : Word isSpecChar) :
      AddrRead (.addrSpec uri) ⟨.uriOrToken, .startTo, 0, false, bodyAt ⟨some 0, 0⟩ ⟨some 0, 0⟩⟩

/-- The loop reads a display name up to the URI, or fails if it is folded. -/
theorem display_run (d : Display) (uri : Word isUriChar) (first : uri.first ≠ ';') :
    (∃ sv em u x, u.len = 0 ∧ (x.clear = (Addr.nameAddr d uri first).display ↔ d.plain = true) ∧
      Reads toStep 0 (d.text ++ ['<']) .init ⟨.sUriEnclosed, sv, em, false, bodyAt u x⟩) ∨
      d.plain = false ∧ ∀ rest, Lib.scan toStep 0 (d.text ++ '<' :: rest) .init = none := by
  cases d with
  | none =>
    refine .inl ⟨.startTo, 0, .null, .null, rfl, iff_of_true rfl rfl, ?_⟩
    exact .single rfl
  | quoted qs ws =>
    have hopen : toStep 0 '"' .init = .go ⟨.displayQuoted, .startTo, 0, false, bodyAt .null ⟨some 0, 0⟩⟩ :=
      rfl
    cases hq : (qs.all fun q => !q.isFold) with
    | true =>
      have hlen : ((0 + ('"' :: quotedText qs).length + 1 : Nat) : Int) - (0 : Nat)
          = (Display.quoted qs ws).name.length := by
        simp only [Display.name, length_append, length_cons, length_nil]
        omega
      have hclose : toStep (0 + ('"' :: quotedText qs).length) '"'
          ⟨.displayQuoted, .startTo, 0, false, bodyAt .null ⟨some 0, 0⟩⟩
          = .go ⟨.eDisplayQuoted, .startTo, 0, false, bodyAt .null ⟨some 0, (Display.quoted qs ws).name.length⟩⟩ := by
        rw [← hlen]
        rfl
      have hname := (Reads.cons hopen (reads_display_quoted hq _ rfl)).append (.single hclose)
      obtain ⟨sv, hws⟩ := to_reads_ws (0 + ('"' :: quotedText qs ++ ['"']).length) ws
        ⟨.eDisplayQuoted, .startTo, 0, false, bodyAt .null ⟨some 0, (Display.quoted qs ws).name.length⟩⟩ rfl
      refine .inl ⟨sv, 0, .null, ⟨some 0, (Display.quoted qs ws).name.length⟩, rfl, iff_of_true ?_ hq, ?_⟩
      · rfl
      · exact (hname.append hws).append (.single rfl)
    | false =>
      refine .inr ⟨hq, fun rest => ?_⟩
      have htext : (Display.quoted qs ws).text ++ '<' :: rest
          = '"' :: (quotedText qs ++ ('"' :: wsText ws ++ '<' :: rest)) := by
        simp [Display.text, Display.name, Display.ws]
      rw [htext]
      exact (scan_go hopen).trans (scan_display_fail hq _ rfl _)
  | tokens t ts ws =>
    have hfirst : Reads toStep 0 t.text .init ⟨.uriOrToken, .startTo, 0, false, opened⟩ :=
      reads_first fun d hd => isTokenChar.spec (t.ok d hd)
    obtain ⟨sv, em, hts⟩ := reads_tokens (0 + t.text.length) ts .startTo 0 opened (.inl rfl)
    have hname := hfirst.append hts
    have hend : ∀ n : Nat, (⟨some 0, (n : Int) - (0 : Nat)⟩ : Str).clear =
      (Addr.nameAddr (.tokens t ts ws) uri first).display ↔ n = (Display.tokens t ts ws).name.length := by
      intro n
      have hpos : 0 < (Display.tokens t ts ws).name.length := by
        simp only [Display.name, Word.text, length_append, length_cons]
        omega
      simp only [Str.clear, Addr.display]
      split
      · simp only [Str.mk.injEq, reduceCtorEq, false_and, false_iff]
        omega
      · simp only [Str.mk.injEq, true_and]
        omega
    have hlen : 0 + (t.text ++ ts.flatMap NextToken.text).length = (Display.tokens t ts ws).name.length :=
      Nat.zero_add _
    cases ts with
    | nil =>
      obtain ⟨sv', em', hws⟩ := reads_first_open (Display.tokens t [] ws).name.length sv em ⟨some 0, 0⟩ ws
      refine .inl ⟨sv', em', ⟨some 0, 0⟩, _, rfl, iff_of_true ((hend _).mpr rfl) rfl, ?_⟩
      rw [← hlen] at hws ⊢
      simpa [Display.text, Display.name, Display.ws, append_assoc] using hname.append hws
    | cons u ts =>
      obtain ⟨sv', em', n, hws, -, hn⟩ := reads_tokens_open (Display.tokens t (u :: ts) ws).name.length sv em
        ⟨some 0, 0⟩ ws
      refine .inl ⟨sv', em', ⟨some 0, 0⟩, ⟨some 0, (n : Int) - (0 : Nat)⟩, rfl, ?_, ?_⟩
      · rw [hend, hn]
        simp [Display.plain]
      · rw [← hlen] at hws
        simpa [Display.text, Display.name, Display.ws, append_assoc] using hname.append hws

/-- The loop reads an address, or fails within it. -/
theorem addr_run (a : Addr) : (∃ st, AddrRead a st ∧ Reads toStep 0 a.text .init st) ∨
    a.plain = false ∧ ∀ rest, Lib.scan toStep 0 (a.text ++ rest) .init = none := by
  cases a with
  | addrSpec uri => exact .inl ⟨_, .addrSpec uri, reads_first uri.ok⟩
  | nameAddr d uri first =>
    rcases display_run d uri first with ⟨sv, em, u, x, hu, hx, hreads⟩ | ⟨hbad, hfail⟩
    · refine .inl ⟨_, .nameAddr sv em x hx, ?_⟩
      have henc := reads_enclosed (0 + (d.text ++ ['<']).length) sv em x uri first hu
      have hboth := hreads.append henc
      simpa [Addr.text, Addr.uri, append_assoc] using hboth
    · refine .inr ⟨hbad, fun rest => ?_⟩
      have htext : (Addr.nameAddr d uri first).text ++ rest = d.text ++ '<' :: (uri.text ++ ['>'] ++ rest) := by
        simp [Addr.text]
      rw [htext]
      exact hfail _

/-! ## Behind the address -/

/-- What `parse_to` makes of where its loop ends. -/
def finishTo (r : Option (ToState × Nat × List Char)) : Option (ToBody × Nat) :=
  r.bind fun (st, tmp, rest) =>
    if st.atParams then
      (parseToParam tmp rest st.toB).bind fun (b, status, tmp) =>
        (ToState.endOfHeader { st with toB := b } tmp status).map fun b => (b, tmp)
    else (st.endOfHeader tmp st.saved).map fun b => (b, tmp)

/-- The address that has been found: the URI, and the display name if the text is plain. -/
structure AddrFound (a : Addr) (b : ToBody) : Prop where
  uri : b.uri = a.uri
  display : b.display.clear = a.display ↔ a.plain = true
  params : b.params = []
  tag : b.tagValue = .null

theorem addrSpec_found (uri : Word isSpecChar) (body : Str) :
    AddrFound (.addrSpec uri) ⟨body, ⟨some 0, (uri.text.length : Int) - (0 : Nat)⟩, ⟨some 0, 0⟩, .null, []⟩ := by
  refine ⟨?_, iff_of_true rfl rfl, rfl, rfl⟩
  simp only [Addr.uri, Str.mk.injEq, true_and]
  omega

/-- **White space and a semicolon behind an address.** -/
theorem addr_semicolon (h : AddrRead a st) (ws : List Ws) (rest : List Char) :
    ∃ st', Lib.scan toStep a.text.length (wsText ws ++ ';' :: rest) st = some (st', a.text.length + (wsText ws).length,
      ';' :: rest) ∧ st'.atParams = true ∧ AddrFound a st'.toB := by
  cases h with
  | nameAddr sv em x hx =>
    obtain ⟨sv', hws⟩ := to_reads_ws _ ws ⟨.finished, sv, em, false, _⟩ rfl
    rw [hws]
    exact ⟨_, scan_stop rfl, rfl, rfl, hx, rfl, rfl⟩
  | addrSpec uri =>
    cases ws with
    | nil => exact ⟨_, scan_stop rfl, rfl, addrSpec_found uri _⟩
    | cons w ws =>
      obtain ⟨sv', hws⟩ := reads_first_ws uri.text.length .startTo 0 opened w ws
      simp only [Addr.text]
      rw [hws]
      exact ⟨_, scan_stop rfl, rfl, addrSpec_found uri _⟩

variable {t : List Char}

theorem finishTo_headerEnd (ht : HeaderEnd t) (pos : Nat) (st st' : ToState)
    (hcr : toStep pos '\r' st = .go (st'.enter .fCr)) (hat : st'.atParams = false) :
    ∃ r, finishTo (Lib.scan toStep pos t st) = (st'.endOfHeader r st'.saved).map fun b => (b, r) := by
  obtain ⟨k, r, cs, hscan⟩ := to_folds.headerEnd ht hcr
  refine ⟨r, ?_⟩
  simp only [hscan, finishTo, Option.bind_some, ToState.enter, hat, Bool.false_eq_true, if_false]
  rfl

/-- **White space and the end of the header behind an address.** -/
theorem addr_end (h : AddrRead a st) (ws : List Ws) (ht : HeaderEnd t) :
    ∃ b r, finishTo (Lib.scan toStep a.text.length (wsText ws ++ t) st) =
      some ({ b with display := b.display.clear }, r) ∧ AddrFound a b := by
  cases h with
  | nameAddr sv em x hx =>
    obtain ⟨sv', hws⟩ := to_reads_ws _ ws ⟨.finished, sv, em, false, _⟩ rfl
    rw [hws]
    obtain ⟨r, hr⟩ := finishTo_headerEnd ht _ ⟨.finished, sv', em, false, _⟩ ⟨.finished, .finished,
      em, false, _⟩ rfl rfl
    exact ⟨⟨_, _, x, .null, []⟩, r, hr, rfl, hx, rfl, rfl⟩
  | addrSpec uri =>
    -- white space or the end of the line ends the URI at the same place
    obtain ⟨r, hr⟩ : ∃ r, finishTo (Lib.scan toStep (Addr.addrSpec uri).text.length (wsText ws ++ t)
        ⟨.uriOrToken, .startTo, 0, false, opened⟩)
        = ((uriEnded uri.text.length).endOfHeader r .maybeUriEnd).map fun b => (b, r) := by
      cases ws with
      | nil =>
        exact finishTo_headerEnd ht _ _ (uriEnded uri.text.length) rfl rfl
      | cons w ws =>
        obtain ⟨sv', hws⟩ := reads_first_ws uri.text.length .startTo 0 opened w ws
        simp only [Addr.text]
        rw [hws]
        exact finishTo_headerEnd ht _ _ (uriEnded uri.text.length) rfl rfl
    exact ⟨⟨_, _, ⟨some 0, 0⟩, .null, []⟩, r, hr, addrSpec_found uri _⟩

/-! ## Parameters that are found and parameters that are right -/

variable {o : Nat}

theorem GenParam.Found.is_iff {p : GenParam} {x : ToParam} (h : p.Found o x) : p.Is o x ↔ p.unquoted = true := by
  have hvalue := h.value
  have his : p.Is o x ↔ p.ValueIs o x.value := ⟨Is.value, fun hv => ⟨h.type, h.name, hv⟩⟩
  rw [his]
  simp only [GenParam.ValueFound, GenParam.ValueIs, unquoted] at hvalue ⊢
  cases hv : p.value with
  | none => simpa only [hv, iff_true] using hvalue
  | some v =>
    obtain ⟨before, after, value⟩ := v
    simp only [hv] at hvalue ⊢
    cases value with
    | token t => exact iff_of_true hvalue rfl
    | quoted qs =>
      refine iff_of_false (fun hc => ?_) Bool.false_ne_true
      have hlen := congrArg Str.len (hvalue.symm.trans hc)
      dsimp only at hlen
      omega

variable {xs : List ToParam} {qs : List (Nat × GenParam)} {b : ToBody}

theorem forall_found_is {ps : List GenParam} (h : List.Forall₂ (fun x q => q.2.Found q.1 x) xs (placed o ps)) :
    List.Forall₂ (fun x q => q.2.Is q.1 x) xs (placed o ps) ↔ ps.all unquoted = true := by
  induction ps generalizing o xs with
  | nil =>
    cases h
    exact iff_of_true .nil rfl
  | cons p ps ih =>
    obtain _ | ⟨hx, hxs⟩ := h
    rw [placed, List.forall₂_cons, ih hxs, all_cons, Bool.and_eq_true, hx.is_iff]

theorem foldl_add (xs : List ToParam) (b : ToBody) : (xs.foldl ToBody.add b).params = b.params ++ xs ∧
    (xs.foldl ToBody.add b).display = b.display ∧ (xs.foldl ToBody.add b).uri = b.uri := by
  induction xs generalizing b with
  | nil => simp
  | cons x xs ih =>
    obtain ⟨hp, hd, hu⟩ := ih (b.add x)
    simp only [foldl_cons, hp, hd, hu]
    simp [ToBody.add]

theorem lastTag_cons (q : Nat × GenParam) (qs : List (Nat × GenParam)) :
    lastTag (q :: qs) = (lastTag qs).or (if q.2.isTag then some q else none) := by
  simp only [lastTag, filter_cons]
  cases q.2.isTag with
  | true => cases hqs : qs.filter (fun q => q.2.isTag) <;> simp [List.getLast?_cons]
  | false => simp

theorem foldl_add_tag {R : ToParam → Nat × GenParam → Prop}
    (hR : ∀ x q, R x q → (x.type = .tagParam ↔ q.2.isTag = true))
    (h : List.Forall₂ R xs qs) (b : ToBody) :
    (lastTag qs).elim ((xs.foldl ToBody.add b).tagValue = b.tagValue)
      fun q => ∃ x, R x q ∧ (xs.foldl ToBody.add b).tagValue = x.value := by
  induction h generalizing b with
  | nil => exact rfl
  | @cons x q xs qs hx _ ih =>
    have hrest := ih (b.add x)
    have hadd : (b.add x).tagValue = if x.type = .tagParam then x.value else b.tagValue := rfl
    rw [lastTag_cons]
    cases hl : lastTag qs with
    | some q' =>
      rw [hl] at hrest
      exact hrest
    | none =>
      rw [hl, hadd] at hrest
      by_cases htag : q.2.isTag = true
      · rw [if_pos htag]
        rw [if_pos ((hR x q hx).mpr htag)] at hrest
        exact ⟨x, hx, hrest⟩
      · rw [if_neg htag]
        rw [if_neg fun hc => htag ((hR x q hx).mp hc)] at hrest
        exact hrest

theorem tag_exact
    (h : List.Forall₂ (fun x q => q.2.Is q.1 x) xs qs) (hb : b.tagValue = .null) :
    (lastTag qs).elim ((xs.foldl ToBody.add b).tagValue = .null) fun q =>
      q.2.ValueIs q.1 (xs.foldl ToBody.add b).tagValue := by
  have htag := foldl_add_tag (fun x q hx => by rw [hx.type, type_eq_tag]) h b
  cases hl : lastTag qs with
  | none =>
    rw [hl, hb] at htag
    exact htag
  | some q =>
    rw [hl] at htag
    obtain ⟨x, hx, hv⟩ := htag
    rw [hv]
    exact hx.value

/-! ## A whole body -/

theorem parseToParam_run (ht : HeaderEnd t) (trail : List Ws) (o : Nat) (p : GenParam) (ps : List GenParam)
    (b : ToBody) : ParamsRun o (p :: ps) b
      (parseToParam (o + (wsText p.before).length) (';' :: (p.inner ++ (paramsText ps ++ (wsText trail ++ t)))) b) := by
  exact params_run ht trail ps o p .eParaValue b

theorem exact_iff {trail : List Ws} (ps : List GenParam) (hfound : AddrFound a b)
    (hxs : List.Forall₂ (fun x q => q.2.Found q.1 x) xs (placed a.text.length ps))
    (hflags : flagsOk ps = true) (r : Nat) :
    (∃ out r', some ({ xs.foldl ToBody.add b with display := (xs.foldl ToBody.add b).display.clear }, r) =
      some (out, r') ∧ Exact ⟨a, ps, trail⟩ out) ↔ a.plain = true ∧ flagsOk ps = true ∧ ps.all unquoted = true := by
  obtain ⟨hparams, hdisplay, huri⟩ := foldl_add xs b
  rw [hfound.params, nil_append] at hparams
  constructor
  · rintro ⟨out', r', hout, hexact⟩
    cases hout
    refine ⟨hfound.display.mp ?_, hflags, (forall_found_is hxs).mp ?_⟩
    · rw [← hdisplay]
      exact hexact.display
    · rw [← hparams]
      exact hexact.params
  · rintro ⟨ha, -, hq⟩
    have his := (forall_found_is hxs).mpr hq
    refine ⟨_, r, rfl, ?_, ?_, ?_, tag_exact his hfound.tag⟩
    · exact (congrArg Str.clear hdisplay).trans (hfound.display.mpr ha)
    · exact huri.trans hfound.uri
    · exact hparams.symm ▸ his

/-- **`parse_to` succeeds on a body with the display name, the URI, every parameter and the tag as they are in the text
exactly if: a quoted display name is not folded; there is no folded line right behind a display name of two or more
tokens; no parameter value is quoted; no parameter without a value is named `tag`; and none that is named `t` or `ta`
has a semicolon right behind it.** -/
theorem parse_to_exact_iff (b : ToText) {t : List Char} (ht : HeaderEnd t) :
    (∃ out r, parseTo (b.text ++ t) = some (out, r) ∧ Exact b out) ↔ b.plain = true := by
  obtain ⟨a, ps, trail⟩ := b
  have hparse : parseTo ((ToText.mk a ps trail).text ++ t)
      = finishTo (Lib.scan toStep 0 (a.text ++ (paramsText ps ++ (wsText trail ++ t))) .init) := by
    simp only [ToText.text, append_assoc]
    rfl
  have hplain : (ToText.mk a ps trail).plain = true ↔
      a.plain = true ∧ flagsOk ps = true ∧ ps.all unquoted = true := by
    simp only [ToText.plain, Bool.and_eq_true, and_assoc]
  rw [hparse, hplain]
  rcases addr_run a with ⟨st, hread, hreads⟩ | ⟨hbad, hfail⟩
  swap
  · rw [hfail]
    refine iff_of_false ?_ (by simp [hbad])
    rintro ⟨out, r, hout, -⟩
    cases hout
  rw [hreads, Nat.zero_add]
  cases ps with
  | nil =>
    obtain ⟨b, r, hres, hfound⟩ := addr_end hread trail ht
    rw [paramsText_nil, hres]
    exact exact_iff [] hfound .nil rfl r
  | cons p ps =>
    obtain ⟨st', hscan, hat, hfound⟩ :=
      addr_semicolon hread p.before (p.inner ++ (paramsText ps ++ (wsText trail ++ t)))
    have hrun := parseToParam_run ht trail a.text.length p ps st'.toB
    rw [paramsText_cons, hscan]
    simp only [finishTo, Option.bind_some, hat, if_true]
    cases hres : parseToParam (a.text.length + (wsText p.before).length)
        (';' :: (p.inner ++ (paramsText ps ++ (wsText trail ++ t)))) st'.toB with
    | none =>
      rw [hres] at hrun
      refine iff_of_false ?_ fun hc => ?_
      · rintro ⟨out, r, hout, -⟩
        cases hout
      · cases hrun.total hc.2.1 hc.2.2
    | some res =>
      obtain ⟨out, status, r⟩ := res
      rw [hres] at hrun
      obtain ⟨rfl, hflags, xs, rfl, hxs⟩ := hrun.found _ rfl
      exact exact_iff _ hfound hxs hflags r

/-- The URI `sip:a` in angle brackets, with a display name and parameters. -/
def sipText (d : Display) (ps : List GenParam) : ToText :=
  ⟨.nameAddr d ⟨'s', ['i', 'p', ':', 'a'], all_eq_true.mp rfl⟩ (by decide), ps, []⟩

/-- A display name of two tokens, a tag and a flag. -/
def plainText : ToText :=
  sipText (.tokens ⟨'A', [], all_eq_true.mp rfl⟩ [⟨.blank .space, [], ⟨'B', [], all_eq_true.mp rfl⟩⟩] [.blank .space])
    [⟨[], [], ⟨'t', ['a', 'g'], all_eq_true.mp rfl⟩, some ⟨[], [], .token ⟨'x', [], all_eq_true.mp rfl⟩⟩⟩,
      ⟨[.fold .tab], [], ⟨'l', ['r'], all_eq_true.mp rfl⟩, none⟩]

/-- It is found as it stands, with a folded line in it. -/
theorem parse_to_exact_plain : plainText.text = "A B <sip:a>;tag=x\r\n\t;lr".toList ∧
    ∃ out r, parseTo (plainText.text ++ "\r\nV".toList) = some (out, r) ∧ Exact plainText out :=
  ⟨by decide +kernel, (parse_to_exact_iff plainText (.crlf ['V'] (by simp))).mpr (by decide +kernel)⟩

/-- A flag that is named `t`, with another parameter behind it. -/
def flagText : ToText := sipText .none [⟨[], [], ⟨'t', [], all_eq_true.mp rfl⟩, none⟩,
    ⟨[], [], ⟨'l', ['r'], all_eq_true.mp rfl⟩, none⟩]

def quotedValueText (qs : List Quoted) : ToText :=
  sipText .none [⟨[], [], ⟨'x', [], all_eq_true.mp rfl⟩, some ⟨[], [], .quoted qs⟩⟩]

/-- A display name of two tokens, with a folded line behind it. -/
def foldedText : ToText :=
  sipText (.tokens ⟨'A', [], all_eq_true.mp rfl⟩ [⟨.blank .space, [], ⟨'B', [], all_eq_true.mp rfl⟩⟩] [.fold .space]) []

/-- A flag `t` before a semicolon is an error, and so is an escape in a quoted value. A quoted value is one character
short, and a folded line behind a display name is a part of it. -/
theorem parse_to_inexact :
    (flagText.text = "<sip:a>;t;lr".toList ∧ parseTo (flagText.text ++ "\r\nV".toList) = none) ∧
    ((quotedValueText [.escaped '"']).text = "<sip:a>;x=\"\\\"\"".toList ∧
      parseTo ((quotedValueText [.escaped '"']).text ++ "\r\nV".toList) = none) ∧
    ((quotedValueText [.char 'b' (by decide), .char 'c' (by decide)]).text = "<sip:a>;x=\"bc\"".toList ∧
      (parseTo ((quotedValueText [.char 'b' (by decide), .char 'c' (by decide)]).text ++ "\r\nV".toList)).map
        (fun out => out.1.params.map ToParam.value) = some [⟨some 11, 1⟩]) ∧
    (foldedText.text = "A B\r\n <sip:a>".toList ∧
      (parseTo (foldedText.text ++ "\r\nV".toList)).map (fun out => out.1.display) = some ⟨some 0, 6⟩) := by
  decide +kernel

end OpenSer.Parser
