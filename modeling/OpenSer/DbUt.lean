import OpenSer.Ut

/-!
# SQL clauses

`db_print_values`, `db_print_where` and `db_print_set` of `db_ut.c`, with the printer of values `val2str` as a
parameter. A call that returns -1 leaves a buffer behind, too.

* `printLoop_adds`: the rule for the three loops.
* `overflows`: the comma behind a value that fills the buffer.
* `print_clauses_iff`: the buffers in which the three clauses are right.
-/

namespace OpenSer.DbUt

open List Option

variable {Val α : Type}

/-- `val2str`, for a value and a length: the text, unless it fails, and how many bytes it has written. -/
abbrev Val2str (Val : Type) := Val → Int → Option Str × Nat

/-- The buffer: the text before the position, and the end of all that has been written. -/
structure Buf where
  text : Str := []
  top : Nat := 0
  deriving DecidableEq

/-- A part of a function, which goes on with true and returns -1 with false. -/
abbrev Part := Buf → Bool × Buf

def Part.andThen (f g : Part) : Part := fun b => if (f b).1 then g (f b).2 else f b

/-- `n` bytes are written at the position, which moves behind `s`. -/
def Buf.put (b : Buf) (n : Nat) (s : Str) : Buf := ⟨b.text ++ s, max b.top (b.text.length + n)⟩

def Buf.room (b : Buf) (l : Nat) : Int := l - b.text.length

/-- `snprintf(_b + len, _l - len, ...)`, and the check of what it returns. -/
def snprintf (l : Nat) (s : Str) : Part := fun b =>
  -- a negative size is a huge `size_t`
  let written := if b.room l < 0 then s.length + 1 else min (s.length + 1) (b.room l).toNat
  (s.length < b.room l, b.put written s)

/-- A call of `val2str`, and the check of what it returns. -/
def callVal2str (p : Val2str Val) (l : Nat) (v : Val) : Part := fun b =>
  let r := p v (b.room l)
  (r.1.isSome, b.put r.2 (r.1.getD []))

/-- The loops of the three functions: what is printed for each column, and between two of them. -/
def printLoop (item : α → Part) (sep : Part) : List α → Part
  | [] => fun b => (true, b)
  | [a] => item a
  | a :: a' :: as => (item a).andThen (sep.andThen (printLoop item sep (a' :: as)))

/-- `db_print_values`, into a buffer of `l` bytes: whether it returns a length, and the buffer. -/
def dbPrintValues (p : Val2str Val) (l : Nat) (vs : List Val) : Bool × Buf :=
  if l = 0 ∨ vs.isEmpty then (false, {}) else printLoop (callVal2str p l) (fun b => (true, b.put 1 [','])) vs {}

structure Column (Val : Type) where
  key : Str
  op : Str
  val : Val

/-- `db_print_where`; `o` says whether there are operators. -/
def dbPrintWhere (p : Val2str Val) (l : Nat) (o : Bool) (cs : List (Column Val)) : Bool × Buf :=
  if l = 0 ∨ cs.isEmpty then (false, {})
  else printLoop (fun c => (snprintf l (c.key ++ if o then c.op else ['='])).andThen (callVal2str p l c.val))
    (snprintf l " AND ".toList) cs {}

def dbPrintSet (p : Val2str Val) (l : Nat) (cs : List (Column Val)) : Bool × Buf :=
  if l = 0 ∨ cs.isEmpty then (false, {})
  else printLoop (fun c => (snprintf l (c.key ++ ['='])).andThen (callVal2str p l c.val))
    (fun b => (true, if b.room l ≥ 1 then b.put 1 [','] else b)) cs {}

/-! ## Clauses -/

/-- A text of `S`, followed by one of `T`. -/
def Seq (S T : Str → Prop) (s : Str) : Prop := ∃ x y, S x ∧ T y ∧ s = x ++ y

/-- The items of a list in their order, with the separator between them. -/
def Clause (item : α → Str → Prop) (sep : Str) : List α → Str → Prop
  | [] => (· = [])
  | [a] => item a
  | a :: a' :: as => Seq (item a) (Seq (· = sep) (Clause item sep (a' :: as)))

/-- `val2str` prints this text for the value, with some room. -/
def Prints (p : Val2str Val) (v : Val) (s : Str) : Prop := ∃ room, (p v room).1 = some s

/-- The printer writes at most the length it is given. -/
def Bounded (p : Val2str Val) : Prop := ∀ v l, (p v l).2 ≤ l.toNat ∧ ((p v l).1.getD []).length ≤ (p v l).2

/-- **In a buffer of `l` bytes** nothing is written behind the end, and if the call goes on it has added a text of
`S`. -/
def Adds (l : Nat) (S : Str → Prop) (b : Buf) (r : Bool × Buf) : Prop :=
  r.2.top ≤ l ∧ (r.1 = true → r.2.text.length ≤ l ∧ ∃ s, S s ∧ r.2.text = b.text ++ s)

/-- The three clauses, for the same columns. -/
def Right (p : Val2str Val) (l : Nat) (o : Bool) (cs : List (Column Val)) : Prop :=
  Adds l (Clause (Prints p) [','] (cs.map Column.val)) {} (dbPrintValues p l (cs.map Column.val)) ∧
    Adds l (Clause (fun c => Seq (· = c.key ++ if o then c.op else ['=']) (Prints p c.val)) " AND ".toList cs) {}
      (dbPrintWhere p l o cs) ∧
    Adds l (Clause (fun c => Seq (· = c.key ++ ['=']) (Prints p c.val)) [','] cs) {} (dbPrintSet p l cs)

/-- A value that is not the last one fills the room: the texts and the commas before it have left it exactly as many
bytes as its own text has. -/
def Fills (p : Val2str Val) : Int → List Val → Prop
  | room, v :: w :: vs => ∃ t, (p v room).1 = some t ∧ (t.length = room ∨ Fills p (room - t.length - 1) (w :: vs))
  | _, _ => False

/-! ## What is added -/

variable {l n : Nat} {b : Buf} {S T : Str → Prop} {p : Val2str Val} {s t : Str} {v : Val} {f g : Part}

structure Fit (l : Nat) (b : Buf) : Prop where
  top : b.top ≤ l
  len : b.text.length ≤ l

theorem Adds.andThen (h : Adds l S b (f b)) (hg : (f b).1 = true → Fit l (f b).2 → Adds l T (f b).2 (g (f b).2)) :
    Adds l (Seq S T) b (f.andThen g b) := by
  obtain ⟨htop, hadds⟩ := h
  unfold Part.andThen
  split
  next hok =>
    obtain ⟨hlen, s, hs, htext⟩ := hadds hok
    obtain ⟨htop', hadds'⟩ := hg hok ⟨htop, hlen⟩
    refine ⟨htop', fun hok' => ?_⟩
    obtain ⟨hlen', t, ht, htext'⟩ := hadds' hok'
    exact ⟨hlen', s ++ t, ⟨s, t, hs, ht, rfl⟩, by rw [htext', htext, append_assoc]⟩
  next hno => exact ⟨htop, fun hok => absurd hok hno⟩

theorem put_adds (h : Fit l b) (hn : b.text.length + n ≤ l) {ok : Bool} (hs : ok = true → s.length ≤ n ∧ S s) :
    Adds l S b (ok, b.put n s) := by
  refine ⟨max_le h.top hn, fun hok => ⟨?_, s, (hs hok).2, rfl⟩⟩
  have hle := (hs hok).1
  simp only [Buf.put, length_append]
  omega

theorem snprintf_adds (h : Fit l b) (s : Str) : Adds l (· = s) b (snprintf l s b) := by
  have hlen := h.len
  unfold snprintf Buf.room
  rw [if_neg (by omega)]
  refine put_adds h (by omega) fun hok => ⟨?_, rfl⟩
  have hlt := of_decide_eq_true hok
  omega

theorem callVal2str_adds (hp : Bounded p) (h : Fit l b) (v : Val) : Adds l (Prints p v) b (callVal2str p l v b) := by
  obtain ⟨hwritten, htext⟩ := hp v (b.room l)
  have hlen := h.len
  refine put_adds h ?_ fun hok => ⟨htext, b.room l, ?_⟩
  · unfold Buf.room at hwritten ⊢
    omega
  · exact (some_get hok).symm.trans (congrArg some (get_eq_getD _))

variable {item : α → Part} {sep : Part} {I : α → Str → Prop} {x : Str}

/-- **The loop.** Between two columns the separator is added, or the next column fails. -/
theorem printLoop_adds (Ok : List α → Buf → Prop) (hitem : ∀ a b, Fit l b → Adds l (I a) b (item a b))
    (hsep : ∀ {a a' as b}, Ok (a :: a' :: as) b → (item a b).1 = true → Fit l (item a b).2 →
      Adds l (· = x) (item a b).2 (sep (item a b).2) ∧ Ok (a' :: as) (sep (item a b).2).2 ∨
        sep (item a b).2 = (true, (item a b).2) ∧ (item a' (item a b).2).1 = false) :
    ∀ {as : List α} {b : Buf}, as ≠ [] → Fit l b → Ok as b → Adds l (Clause I x as) b (printLoop item sep as b)
  | [], _, hne, _, _ => absurd rfl hne
  | [a], b, _, hb, _ => hitem a b hb
  | a :: a' :: as, b, _, hb, hok => by
    refine (hitem a b hb).andThen fun hr hb' => ?_
    rcases hsep hok hr hb' with ⟨hadd, hok'⟩ | ⟨hs, hfail⟩
    · exact hadd.andThen fun _ hb'' => printLoop_adds Ok hitem hsep (by simp) hb'' hok'
    · have hnext : printLoop item sep (a' :: as) (item a b).2 = item a' (item a b).2 := by
        cases as with
        | nil => rfl
        | cons => simp [printLoop, Part.andThen, hfail]
      rw [Part.andThen, hs, if_pos rfl, hnext]
      exact ⟨(hitem a' _ hb').1, fun hc => absurd hc (by simp [hfail])⟩

/-! ## The comma of `db_print_values` -/

/-- What has been written stays written. -/
def Grows (f : Part) : Prop := ∀ b, b.top ≤ (f b).2.top

theorem Grows.andThen (hf : Grows f) (hg : Grows g) : Grows (f.andThen g) := by
  intro b
  unfold Part.andThen
  split
  · exact (hf b).trans (hg _)
  · exact hf b

theorem printLoop_grows (hitem : ∀ a, Grows (item a)) (hsep : Grows sep) : ∀ as, Grows (printLoop item sep as)
  | [] => fun _ => le_rfl
  | [a] => hitem a
  | a :: a' :: as => (hitem a).andThen (hsep.andThen (printLoop_grows hitem hsep (a' :: as)))

theorem room_comma : ((b.put n t).put 1 [',']).room l = b.room l - t.length - 1 := by
  simp only [Buf.room, Buf.put, length_append, length_singleton]
  omega

/-- **The comma behind a value that fills the buffer** is written behind the buffer. -/
theorem overflows : ∀ {vs : List Val} {b : Buf}, Fills p (b.room l) vs →
    l < (printLoop (callVal2str p l) (fun b => (true, b.put 1 [','])) vs b).2.top
  | v :: w :: vs, b, ⟨t, ht, h⟩ => by
    have hval : callVal2str p l v b = (true, b.put (p v (b.room l)).2 t) := by simp [callVal2str, ht]
    rw [printLoop, Part.andThen, hval, if_pos rfl, Part.andThen, if_pos rfl]
    rcases h with h | h
    · refine lt_of_lt_of_le ?_ (printLoop_grows (fun _ _ => le_max_left _ _) (fun _ => le_max_left _ _) (w :: vs) _)
      refine lt_of_lt_of_le ?_ (le_max_right _ _)
      simp only [Buf.room, Buf.put, length_append] at h ⊢
      omega
    · exact overflows (room_comma.symm ▸ h)

theorem comma_adds (h : Fit l b) (hlt : b.text.length < l) : Adds l (· = [',']) b (true, b.put 1 [',']) :=
  put_adds h hlt fun _ => ⟨le_rfl, rfl⟩

/-- **`db_print_where` and `db_print_set` keep the contract. `db_print_values` keeps it if no value but the last one
fills the buffer, and only then.** -/
theorem print_clauses_iff (p : Val2str Val) (hp : Bounded p) (l : Nat) (o : Bool) (cs : List (Column Val)) :
    Right p l o cs ↔ l = 0 ∨ ¬Fills p l (cs.map Column.val) := by
  have hempty : Fit l {} := ⟨Nat.zero_le l, Nat.zero_le l⟩
  have hcolumn : ∀ s v b, Fit l b →
      Adds l (Seq (· = s) (Prints p v)) b ((snprintf l s).andThen (callVal2str p l v) b) :=
    fun s v b hb => (snprintf_adds hb s).andThen fun _ hb' => callVal2str_adds hp hb' v
  unfold Right dbPrintValues dbPrintWhere dbPrintSet
  by_cases hl : l = 0
  · simp [hl, Adds]
  by_cases hcs : cs = []
  · simp [hcs, Adds, Fills]
  rw [if_neg (by simp [hl, hcs]), if_neg (by simp [hl, hcs]), if_neg (by simp [hl, hcs])]
  constructor
  · rintro ⟨hvalues, -⟩
    refine .inr fun hfills => not_lt.mpr hvalues.1 (overflows ?_)
    simpa [Buf.room] using hfills
  · intro h
    refine ⟨?_, ?_, ?_⟩
    · refine printLoop_adds (fun vs b => ¬Fills p (b.room l) vs) (fun v b hb => callVal2str_adds hp hb v) ?_
        (by simpa using hcs) hempty (by simpa [Buf.room, hl] using h)
      intro v w vs b hok hr hb'
      obtain ⟨t, ht⟩ := isSome_iff_exists.mp hr
      have hval : callVal2str p l v b = (true, b.put (p v (b.room l)).2 t) := by simp [callVal2str, ht]
      have hroom : t.length ≠ b.room l := fun hc => hok ⟨t, ht, .inl hc⟩
      rw [hval] at hb' ⊢
      refine .inl ⟨comma_adds hb' ?_, fun hfills => hok ⟨t, ht, .inr (room_comma ▸ hfills)⟩⟩
      have hlen := hb'.len
      simp only [Buf.room, Buf.put, length_append] at hroom hlen ⊢
      omega
    · exact printLoop_adds (fun _ _ => True) (fun c b hb => hcolumn _ c.val b hb)
        (fun _ _ hb => .inl ⟨snprintf_adds hb _, trivial⟩) hcs hempty trivial
    · refine printLoop_adds (fun _ _ => True) (fun c b hb => hcolumn _ c.val b hb) ?_ hcs hempty trivial
      intro c c' cs b _ _ hb
      generalize Prod.snd _ = b' at hb ⊢
      by_cases hroom : b'.room l ≥ 1
      · rw [if_pos hroom]
        refine .inl ⟨comma_adds hb ?_, trivial⟩
        unfold Buf.room at hroom
        omega
      · -- the buffer is full, so the next key does not fit
        have hfail : (snprintf l (c'.key ++ ['=']) b').1 = false := decide_eq_false (by omega)
        refine .inr ⟨by rw [if_neg hroom], ?_⟩
        simp [Part.andThen, hfail]

/-- The values are their texts, which are printed if there is room. -/
def textPrinter : Val2str Str := fun s l => if s.length ≤ l then (some s, s.length) else (none, 0)

theorem textPrinter_bounded : Bounded textPrinter := by
  intro v l
  unfold textPrinter
  split
  · exact ⟨by dsimp only; omega, le_rfl⟩
  · exact ⟨Nat.zero_le _, le_rfl⟩

def twoColumns : List (Column Str) := [⟨['k'], ['<'], ['1']⟩, ⟨['m'], ['>'], ['2']⟩]

/-- Two columns, in a buffer of three bytes. -/
theorem print_clauses_three : Right textPrinter 3 true twoColumns := by
  apply (print_clauses_iff textPrinter textPrinter_bounded 3 true twoColumns).mpr
  refine .inr fun ⟨t, ht, h⟩ => ?_
  cases ht
  rcases h with h | h
  · cases h
  · exact h

/-- Two values in a buffer of one byte: the comma is written behind it. -/
theorem print_values_overflow : Bounded textPrinter ∧ ¬Right textPrinter 1 true twoColumns ∧
    dbPrintValues textPrinter 1 (twoColumns.map Column.val) = (false, ⟨"1,".toList, 2⟩) := by
  have hvalues : dbPrintValues textPrinter 1 (twoColumns.map Column.val) = (false, ⟨"1,".toList, 2⟩) := by decide
  refine ⟨textPrinter_bounded, fun h => ?_, hvalues⟩
  have htop := h.1.1
  rw [hvalues] at htop
  exact absurd htop (by decide)

end OpenSer.DbUt
