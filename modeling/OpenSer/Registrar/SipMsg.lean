import OpenSer.Decimal

/-!
# A REGISTER request

`sip_msg.c` of the registrar, over the parsed header fields of a request. An `int` is a `BitVec 32`, or an `Int` where
it is a parameter of the module; `time_t` has 64 bits and is an `Int`.

* `expiresParser`, `getExpiresHf`, `calcContactExpires`: when a binding expires.
* `checkContacts`: the checks on the Contact header fields.
* `getFirstContact`, `getNextContact`: the contacts that are saved; `contactsOf` has all of them.
* `Cursor.again`: where a second loop over the contacts starts from.
-/

namespace OpenSer.Registrar

open Option List

/-! ## Header fields -/

/-- A parameter of a contact: its value, and the length that the parser stores, which takes in the name. -/
structure Param where
  body : Str
  len : Nat
  le : body.length ≤ len
  deriving Repr, DecidableEq

structure Contact where
  uri : Str
  q : Option Param
  expires : Option Param
  methods : Option Param
  received : Option Param
  deriving Repr, DecidableEq

structure ContactBody where
  star : Bool
  contacts : List Contact
  deriving Repr, DecidableEq

/-- `struct hdr_field`: a Contact header field, or another one. -/
inductive HdrField
  | contact (body : ContactBody)
  | other
  deriving Repr, DecidableEq

structure ExpBody where
  valid : Bool
  val : BitVec 32
  deriving Repr, DecidableEq

/-- The header fields of a request, and its Expires header field. -/
structure Fields where
  headers : List HdrField
  expires : Option ExpBody
  deriving Repr, DecidableEq

/-- The parameters of the module that are about expiry. -/
structure Limits where
  defaultExpires : Int
  minExpires : Int
  maxExpires : Int
  deriving Repr, DecidableEq

/-! ## Expiry -/

/-- White space, as `trim_leading` skips it. -/
def isSpace (c : Char) : Bool := c = ' ' || c = '\t' || c = '\r' || c = '\n'

def expiresLoop : Str → BitVec 32 → ExpBody
  | [], val => ⟨true, val⟩
  | c :: s, val =>
    if isDecimal c then expiresLoop s (val * 10 + BitVec.ofNat 32 (c.toNat - '0'.toNat))
    else if isSpace c then ⟨true, val⟩
    -- what it is is not known, perhaps a date
    else ⟨false, val⟩

/-- `expires_parser`, of a body: `none` when it is empty. -/
def expiresParser (s : Str) : Option ExpBody :=
  let tmp := s.dropWhile isSpace
  if tmp = [] then none else some (expiresLoop tmp 0)

def getExpiresHf (cfg : Limits) (actTime : Int) (m : Fields) : BitVec 32 :=
  match m.expires with
  | some p =>
    if p.valid then if p.val ≠ 0 then BitVec.ofInt 32 (p.val.toInt + actTime) else 0
    else BitVec.ofInt 32 (actTime + cfg.defaultExpires)
  | none => BitVec.ofInt 32 (actTime + cfg.defaultExpires)

/-- What is asked for, as an absolute time: the value of the parameter, or of the header field. -/
def askedExpires (cfg : Limits) (actTime : Int) (m : Fields) (ep : Option Param) : BitVec 32 :=
  match ep with
  | some p =>
    if p.body.length = 0 then getExpiresHf cfg actTime m
    else
      let e := (str2int p.body).getD (BitVec.ofInt 32 cfg.defaultExpires)
      if e ≠ 0 then BitVec.ofInt 32 (e.toInt + actTime) else e
  | none => getExpiresHf cfg actTime m

/-- The two limits, one after the other. -/
def limitExpires (cfg : Limits) (actTime : Int) (e : BitVec 32) : BitVec 32 :=
  let e := if e ≠ 0 ∧ e.toInt - actTime < cfg.minExpires then BitVec.ofInt 32 (cfg.minExpires + actTime) else e
  if e ≠ 0 ∧ cfg.maxExpires ≠ 0 ∧ e.toInt - actTime > cfg.maxExpires then BitVec.ofInt 32 (cfg.maxExpires + actTime)
  else e

def calcContactExpires (cfg : Limits) (actTime : Int) (m : Fields) (ep : Option Param) : BitVec 32 :=
  limitExpires cfg actTime (askedExpires cfg actTime m ep)

/-! ## Contacts -/

def contactMaxSize : Nat := 255

def receivedMaxSize : Nat := 255

def Contact.fits (c : Contact) : Bool :=
  !(c.uri.length > contactMaxSize || c.received.any fun r => r.len > receivedMaxSize)

/-- The next Contact header field, and the header fields behind it. -/
def nextContactHf : List HdrField → Option (ContactBody × List HdrField)
  | [] => none
  | .contact b :: rest => some (b, rest)
  | .other :: rest => nextContactHf rest

/-- What `check_contacts` answers: the error, or whether the contact is a star. -/
inductive Checked
  | ok (star : Bool)
  | starExp
  | starCont
  | contactLen
  deriving Repr, DecidableEq

/-- The loop over the header fields behind a first one that is not a star. -/
def checkRest : List HdrField → Checked
  | [] => .ok false
  | .contact b :: rest =>
    if b.star then .starCont else if b.contacts.all Contact.fits then checkRest rest else .contactLen
  | .other :: rest => checkRest rest

def checkContacts (cfg : Limits) (actTime : Int) (m : Fields) : Checked :=
  match nextContactHf m.headers with
  | none => .ok false
  | some (b, rest) =>
    if b.star then
      if (getExpiresHf cfg actTime m).toInt > 0 then .starExp
      else if b.contacts ≠ [] then .starCont
      else if (nextContactHf rest).isSome then .starCont
      else .ok true
    else checkRest rest

/-- A contact, those behind it in its header field, and the header fields behind `act_contact`. -/
structure Cursor where
  contact : Contact
  next : List Contact
  behind : List HdrField

/-- The first contact of a header field, if it has one. -/
def Cursor.first (b : ContactBody) (behind : List HdrField) : Option Cursor :=
  match b.contacts with
  | [] => none
  | c :: next => some ⟨c, next, behind⟩

def getFirstContact (m : Fields) : Option Cursor :=
  (nextContactHf m.headers).bind fun (b, behind) => Cursor.first b behind

def getNextContact (cur : Cursor) : Option Cursor :=
  match cur.next with
  | c :: next => some ⟨c, next, cur.behind⟩
  | [] => (nextContactHf cur.behind).bind fun (b, behind) => Cursor.first b behind

/-- The contacts that `get_first_contact` and `get_next_contact` deliver. -/
inductive Delivered (m : Fields) : Cursor → Prop
  | first {cur} : getFirstContact m = some cur → Delivered m cur
  | next {cur cur'} : Delivered m cur → getNextContact cur = some cur' → Delivered m cur'

/-- The contacts of the header fields: they end with a field that has none. -/
def contactsFrom : List HdrField → List Contact
  | [] => []
  | .contact b :: rest => if b.contacts = [] then [] else b.contacts ++ contactsFrom rest
  | .other :: rest => contactsFrom rest

/-- All contacts of a request, in the order in which they are saved. -/
def contactsOf (m : Fields) : List Contact := contactsFrom m.headers

def Cursor.rest (cur : Cursor) : List Contact := cur.contact :: cur.next ++ contactsFrom cur.behind

/-- The header fields behind `act_contact` when there are no more contacts: it is left at a field that has none, or at
the last Contact header field. -/
def behindLast : List HdrField → List HdrField
  | [] => []
  | .contact b :: rest => if b.contacts = [] then rest else behindLast rest
  | .other :: rest => behindLast rest

/-- The same contact, after another loop has gone through all contacts behind it: `act_contact` is static. -/
def Cursor.again (cur : Cursor) : Cursor := { cur with behind := behindLast cur.behind }

theorem contactsFrom_eq (l : List HdrField) :
    contactsFrom l = ((nextContactHf l).bind fun (b, behind) => (Cursor.first b behind).map Cursor.rest).getD [] := by
  induction l with
  | nil => rfl
  | cons h l ih =>
    cases h with
    | other => rw [contactsFrom, nextContactHf, ih]
    | contact b =>
      rw [contactsFrom, nextContactHf, bind_some]
      cases hb : b.contacts with
      | nil =>
        simp only [if_true, Cursor.first, hb, map_none, getD_none]
      | cons c next =>
        simp only [if_neg (cons_ne_nil c next), Cursor.first, hb, map_some, getD_some, Cursor.rest]

theorem contactsOf_eq (m : Fields) : contactsOf m = ((getFirstContact m).map Cursor.rest).getD [] := by
  rw [contactsOf, contactsFrom_eq, getFirstContact, map_bind]
  rfl

/-- **The next contact** is the next one of them. -/
theorem rest_eq (cur : Cursor) : cur.rest = cur.contact :: ((getNextContact cur).map Cursor.rest).getD [] := by
  unfold getNextContact
  obtain ⟨c, next, behind⟩ := cur
  cases next with
  | cons d next => rfl
  | nil =>
    rw [Cursor.rest, contactsFrom_eq]
    rw [map_bind]
    rfl

variable {m : Fields}

theorem delivered_rest {cur : Cursor} (h : Delivered m cur) : ∃ pre, contactsOf m = pre ++ cur.rest := by
  induction h with
  | first h => exact ⟨[], by rw [contactsOf_eq, h]; rfl⟩
  | @next cur cur' _ h ih =>
    obtain ⟨pre, hpre⟩ := ih
    refine ⟨pre ++ [cur.contact], ?_⟩
    rw [hpre, rest_eq cur, h, append_assoc]
    rfl

theorem not_delivered (h : contactsOf m = []) (cur : Cursor) : ¬Delivered m cur := by
  intro hcur
  obtain ⟨pre, hpre⟩ := delivered_rest hcur
  rw [h] at hpre
  cases pre <;> cases hpre

theorem delivered_of_mem {c : Contact} (h : c ∈ contactsOf m) : ∃ cur, Delivered m cur ∧ cur.contact = c := by
  -- from each place that is delivered on, along the list
  have hfrom : ∀ (l : List Contact) (cur : Cursor), cur.rest = l → Delivered m cur → c ∈ l →
      ∃ cur, Delivered m cur ∧ cur.contact = c := by
    intro l
    induction l with
    | nil => exact fun cur hl _ hc => absurd hc not_mem_nil
    | cons d l ih =>
      intro cur hl hcur hc
      rw [rest_eq] at hl
      obtain ⟨hd, hl⟩ := List.cons.inj hl
      rcases mem_cons.mp hc with hc | hc
      · exact ⟨cur, hcur, hd.trans hc.symm⟩
      · cases hnext : getNextContact cur with
        | none =>
          rw [hnext] at hl
          rw [← hl] at hc
          exact absurd hc not_mem_nil
        | some cur' =>
          rw [hnext] at hl
          exact ih cur' hl (Delivered.next hcur hnext) hc
  rw [contactsOf_eq] at h
  cases hfirst : getFirstContact m with
  | none =>
    rw [hfirst] at h
    exact absurd h not_mem_nil
  | some cur =>
    rw [hfirst] at h
    exact hfrom _ cur rfl (Delivered.first hfirst) h

end OpenSer.Registrar
