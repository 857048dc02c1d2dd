import OpenSer.Registrar.SipMsg
import OpenSer.Usrloc.ContactList

/-!
# Saving the contacts of a REGISTER request

`save.c` of the registrar, and what it calls of `urecord.c`, `ucontact.c` and `udomain.c` of the user location module,
for one address of record. The contacts of a request are taken in turns; a turn writes to the record at once. What the
environment decides in a turn (the clock, memory, the database) is a `Chance`.

* `packMsg`, `packContact`: the two halves of `pack_ci`.
* `getUcontact`, `memUpdate`: which binding a contact is about, and an update that may run out of memory.
* `insertTurn`, `testMaxContacts`, `updateTurn`: the bodies of the loops.
* `turns`: a loop, with a log of what its turns did.
* `save`: a request.
-/

namespace OpenSer.Registrar

open OpenSer.Usrloc

/-! ## Requests -/

/-- `rerr_t`: the errors of a request. -/
inductive RErr
  | parse | toUser | starExp | starCont | contactLen | callidLen | invCseq | parsePath | invQ | tooMany
  | ulNewR | ulInsC | ulUpdC | ulDelR
  deriving Repr, DecidableEq

inductive Matching
  | contactOnly | contactCallid
  deriving Repr, DecidableEq

/-- The parameters of the two modules, and the two parsers of parameter values. -/
structure Cfg where
  usrloc : Config
  matching : Matching
  cseqDelay : Int
  limits : Limits
  maxContacts : Int
  natFlag : Nat
  defaultQ : Int
  pathEnabled : Bool
  str2q : Str → Option Int
  parseMethods : Str → Option Nat

structure Request where
  /-- The outcomes of `parse_message` and `extract_aor`. -/
  parsed : Option RErr
  aor : Option RErr
  fields : Fields
  /-- The Call-ID without trailing white space, and the number of the CSeq. -/
  callid : Str
  cseq : Str
  sock : Option Str
  userAgent : Option Str
  /-- The path and the received address that `build_path_vector` gives, and the outcome of `set_path_vector`. -/
  path : Option (Str × Str)
  setPath : Bool
  cflags : Nat
  /-- The methods of the Allow header field. -/
  allow : Nat
  /-- The value of the AVP with the received address. -/
  rcvAvp : Option Str
  /-- The time of the request, and that of the request before it, which `act_time` has until `get_act_time` is
  called. -/
  actTime : Nat
  lastTime : Nat
  memOnly : Bool

/-- The strings for which `mem_update_ucontact` gets memory, should it need it. -/
structure Grants where
  userAgent : Bool
  received : Bool
  path : Bool
  deriving Repr, DecidableEq

/-- What the environment decides in a turn. -/
structure Chance where
  /-- The clock, when `get_ucontact` reads it from `test_max_contacts` and from the loop. -/
  testNow : Int
  now : Int
  /-- Memory for a record, for a contact, and for the strings of an update. -/
  record : Bool
  contact : Bool
  grants : Grants
  /-- The outcome of the database call. -/
  db : Bool
  deriving Repr, DecidableEq

/-! ## The attributes of a contact -/

variable (cfg : Cfg) (m : Request)

def callidMaxSize : Nat := 255

def uaMaxSize : Nat := 255

/-- `pack_ci` with a message: what all contacts have in common. -/
def packMsg : Except RErr Info :=
  if m.callid.length > callidMaxSize then .error .callidLen
  else
    match str2int m.cseq with
    | none => .error .invCseq
    | some cseq =>
      match if cfg.pathEnabled then m.path else some ([], []) with
      | none => .error .parsePath
      | some (path, pathReceived) =>
        if path ≠ [] ∧ !m.setPath then .error .parsePath
        else
          .ok
            { callid := m.callid
              vals :=
                { received := if pathReceived ≠ [] then some pathReceived else none
                  path := if path ≠ [] then some path else none
                  expires := 0, q := 0, methods := 0
                  cseq := cseq.toInt
                  flags := if m.memOnly then flMem else 0
                  cflags := if pathReceived ≠ [] then m.cflags ||| cfg.natFlag else m.cflags
                  userAgent := (m.userAgent.filter fun b => b.length > 0 ∧ b.length < uaMaxSize).getD "n/a".toList
                  sock := m.sock
                  lastModified := m.actTime } }

def calcContactQ (q : Option Param) : Option Int :=
  match q with
  | none => some cfg.defaultQ
  | some p => if p.body.length = 0 then some cfg.defaultQ else cfg.str2q p.body

/-- The received address of a contact, when none has been set: its own, or that of the AVP, which may be too long. -/
def ownReceived (c : Contact) : Option (Option Str) :=
  match c.received with
  | some p => some (some p.body)
  | none =>
    match m.rcvAvp.filter (· ≠ []) with
    | some v => if v.length > receivedMaxSize then none else some (some v)
    | none => some none

/-- `pack_ci` with a contact: `ci` is static, and keeps what is not set. -/
def packContact (ci : Info) (c : Contact) (e : BitVec 32) : Except RErr Info :=
  match calcContactQ cfg c.q with
  | none => .error .invQ
  | some q =>
    match match c.methods with
      | some p => cfg.parseMethods p.body
      | none => some m.allow with
    | none => .error .parse
    | some methods =>
      match if (ci.vals.received.getD []).length = 0 then ownReceived m c else some ci.vals.received with
      | none => .error .contactLen
      | some received => .ok { ci with vals := { ci.vals with q, expires := e.toNat, methods, received } }

/-! ## The record -/

inductive Got
  | found (c : Nat) | notFound | invalid | retransmission
  deriving Repr, DecidableEq

/-- The loop of `contact_match` and `contact_callid_match`. -/
def contactMatch (r : URecord) (p : UContact → Bool) : Nat → Option Nat → Option (Option Nat)
  | _, none => some none
  | 0, some _ => none
  | fuel + 1, some ptr => if p (r.cell ptr) then some (some ptr) else contactMatch r p fuel (r.next ptr)

/-- The contacts that match. -/
def Matching.test (mode : Matching) (uri callid : Str) (x : UContact) : Bool :=
  match mode with
  | .contactOnly => x.c = uri
  | .contactCallid => x.c = uri ∧ x.callid = callid

/-- What `get_ucontact` answers for a contact that matches. -/
def judge (x : UContact) (callid : Str) (cseq now : Int) (c : Nat) : Got :=
  if cfg.matching = .contactCallid ∨ x.callid = callid then
    if cseq < x.vals.cseq then .invalid
    else if cseq = x.vals.cseq then
      if x.vals.lastModified + cfg.cseqDelay > now then .retransmission else .invalid
    else .found c
  else .found c

/-- `get_ucontact`; `now` is the time it reads. -/
def getUcontact (r : URecord) (uri callid : Str) (cseq now : Int) : Option Got :=
  (contactMatch r (cfg.matching.test uri callid) r.fresh r.contacts).map fun ptr =>
    match ptr with
    | none => .notFound
    | some c => judge cfg (r.cell c) callid cseq now c

/-- `update_str`: whether it is done. -/
def updateStr (old new : Str) (granted : Bool) : Bool := !(old.length < new.length && !granted)

/-- `mem_update_ucontact`: the contact, and whether there was memory. What has been copied stays. -/
def memUpdate (g : Grants) (x : UContact) (ci : Info) : UContact × Bool :=
  let received := ci.vals.received.filter (· ≠ [])
  if !updateStr x.vals.userAgent ci.vals.userAgent g.userAgent then (x, false)
  else
    let x₁ := { x with vals := { x.vals with userAgent := ci.vals.userAgent } }
    if !updateStr (x.vals.received.getD []) (received.getD []) g.received then (x₁, false)
    else
      let x₂ := { x₁ with vals := { x₁.vals with received } }
      if !updateStr (x.vals.path.getD []) (ci.vals.path.getD []) g.path then (x₂, false)
      else (memUpdateUcontact x ci, true)

/-- The flag that a contact gets before it is deleted. -/
def markMem (memOnly : Bool) (x : UContact) : UContact :=
  { x with vals := { x.vals with flags := if memOnly then x.vals.flags ||| flMem else x.vals.flags &&& 0xfffffffe } }

/-! ## Turns -/

inductive Did
  | skipped
  | inserted (c : Nat) (ci : Info)
  | updated (c : Nat) (ci : Info)
  | deleted (c : Nat)
  deriving Repr, DecidableEq

/-- How a turn ends; `s` is what the loop remembers. -/
inductive Turn (σ : Type)
  | done (did : Did) (loc : UDomain) (s : σ)
  | failed (err : RErr) (loc : UDomain) (s : σ)

structure Entry where
  before : UDomain
  contact : Contact
  did : Did
  after : UDomain

/-- A loop that has come to its end. -/
structure Run (σ : Type) where
  log : List Entry
  loc : UDomain
  state : σ
  err : Option RErr

def turns {σ : Type} (turn : UDomain → σ → Contact → Chance → Option (Turn σ)) :
    List (Contact × Chance) → UDomain → σ → Option (Run σ)
  | [], u, s => some ⟨[], u, s, none⟩
  | (c, ch) :: cs, u, s =>
    (turn u s c ch).bind fun
      | .failed err u' s' => some ⟨[], u', s', some err⟩
      | .done did u' s' => (turns turn cs u' s').map fun run => { run with log := ⟨u, c, did, u'⟩ :: run.log }

/-- `insert_ucontact`, if there is memory. -/
def storeNew {σ : Type} (cfg : Cfg) (u : UDomain) (c : Contact) (ci : Info) (ch : Chance) (s : σ) : Option (Turn σ) :=
  if ch.contact then
    (insertUcontact cfg.usrloc u c.uri ci ch.db).map fun u' => .done (.inserted u.mem.fresh ci) u' s
  else some (.failed .ulInsC u s)

/-- `update_ucontact`, if there is memory. -/
def storeOld {σ : Type} (cfg : Cfg) (u : UDomain) (p : Nat) (ci : Info) (ch : Chance) (s : σ) : Option (Turn σ) :=
  if (memUpdate ch.grants (u.mem.cell p) ci).2 then
    (updateUcontact cfg.usrloc u p ci ch.db).map fun u' => .done (.updated p ci) u' s
  else some (.failed .ulUpdC { u with mem := u.mem.setCell p (memUpdate ch.grants (u.mem.cell p) ci).1 } s)

def expiresOf (c : Contact) : BitVec 32 :=
  calcContactExpires cfg.limits m.actTime m.fields c.expires

/-- What the loop of `insert_contacts` remembers: the attributes, how many contacts there are, and whether there is a
record. -/
structure Inserting where
  ci : Option Info
  num : Int
  record : Bool
  deriving Repr, DecidableEq

/-- The attributes of a contact in `insert_contacts`: with the first one, those of the message are packed too. -/
def packFirst (ci : Option Info) (c : Contact) (e : BitVec 32) : Except RErr Info :=
  match ci with
  | none =>
    match packMsg cfg m with
    | .error err => .error err
    | .ok ci => packContact cfg m ci c e
  | some ci => packContact cfg m ci c e

/-- The binding that `insert_contacts` finds; `ci->cseq+1` is an `int`. -/
def priorOf (u : UDomain) (c : Contact) (ci : Info) (ch : Chance) : Option Got :=
  if u.mem.contacts = none then some .notFound
  else getUcontact cfg u.mem c.uri ci.callid (BitVec.ofInt 32 (ci.vals.cseq + 1)).toInt ch.now

/-- The body of the loop of `insert_contacts`. -/
def insertTurn (u : UDomain) (s : Inserting) (c : Contact) (ch : Chance) :
    Option (Turn Inserting) :=
  let e := expiresOf cfg m c
  if e = 0 then some (.done .skipped u s)
  else if cfg.maxContacts ≠ 0 ∧ s.num ≥ cfg.maxContacts then some (.failed .tooMany u s)
  else
    let s := { s with num := s.num + 1 }
    if !s.record ∧ cfg.usrloc.dbMode ≠ .dbOnly ∧ !ch.record then some (.failed .ulNewR u s)
    else
      let s := { s with record := true }
      match packFirst cfg m s.ci c e with
      | .error err => some (.failed err u s)
      | .ok ci =>
        let s := { s with ci := some ci }
        (priorOf cfg u c ci ch).bind fun
          | .found p => storeOld cfg u p ci ch s
          | _ => storeNew cfg u c ci ch s

/-- The loop of `test_max_contacts` over the contacts of the request, from the number of valid ones on. -/
def testLoop (cfg : Cfg) (m : Request) (r : URecord) (ci : Info) :
    List (Contact × Chance) → Int → Option (Except RErr Int)
  | [], num => some (.ok num)
  | (c, ch) :: cs, num =>
    (getUcontact cfg r c.uri ci.callid ci.vals.cseq ch.testNow).bind fun
      | .invalid => some (.error .invCseq)
      | .retransmission => testLoop cfg m r ci cs num
      | .notFound => testLoop cfg m r ci cs (if expiresOf cfg m c ≠ 0 then num + 1 else num)
      | .found _ => testLoop cfg m r ci cs (if expiresOf cfg m c = 0 then num - 1 else num)

def testMaxContacts (r : URecord) (ci : Info) (cs : List (Contact × Chance)) :
    Option (Option RErr) :=
  (lookupFrom r (fun ptr => (r.cell ptr).vals.valid m.actTime) r.fresh r.contacts).bind fun valid =>
    (testLoop cfg m r ci cs valid.length).map fun
      | .error err => some err
      | .ok num => if num > cfg.maxContacts then some .tooMany else none

/-- The binding that `update_contacts` finds. -/
abbrev boundOf (u : UDomain) (c : Contact) (ci : Info) (ch : Chance) : Option Got :=
  getUcontact cfg u.mem c.uri ci.callid ci.vals.cseq ch.now

/-- The body of the loop of `update_contacts`. -/
def updateTurn (u : UDomain) (ci : Info) (c : Contact) (ch : Chance) : Option (Turn Info) :=
  let e := expiresOf cfg m c
  (boundOf cfg u c ci ch).bind fun
    | .invalid => some (.failed .invCseq u ci)
    | .retransmission => some (.done .skipped u ci)
    | .notFound =>
      if e = 0 then some (.done .skipped u ci)
      else
        match packContact cfg m ci c e with
        | .error err => some (.failed err u ci)
        | .ok ci => storeNew cfg u c ci ch ci
    | .found p =>
      if e = 0 then
        let u' := { u with mem := u.mem.setCell p (markMem m.memOnly (u.mem.cell p)) }
        some (.done (.deleted p) (deleteUcontact cfg.usrloc u' p ch.db) ci)
      else
        match packContact cfg m ci c e with
        | .error err => some (.failed err u ci)
        | .ok ci => storeOld cfg u p ci ch ci

/-! ## Requests -/

/-- A record: `present` tells whether there is one; one with watchers is kept when it has no contacts. -/
structure Store where
  loc : UDomain
  present : Bool
  watched : Bool

/-- What the environment decides during a request. -/
structure Env where
  /-- In the turns of the loop. -/
  chance : Nat → Chance
  /-- The outcomes of the database calls of `delete_urecord`: of the one for the record, and of those for the
  contacts. -/
  dbRecord : Bool
  dbContact : Nat → Bool

/-- The contacts that a loop goes through, and what the environment decides in their turns. -/
def Env.turnsOf (env : Env) (cs : List Contact) : List (Contact × Chance) :=
  cs.zipIdx.map fun (c, i) => (c, env.chance i)

/-- All contacts of a request. -/
def chances (env : Env) : List (Contact × Chance) := env.turnsOf (contactsOf m.fields)

/-- The contacts that the loop of `update_contacts` goes through. `test_max_contacts` has gone through all of them and
leaves `act_contact` behind, which is not set back: the loop goes on from there when it has come to the end of the first
Contact header field. -/
def updateList : List Contact :=
  ((getFirstContact m.fields).map fun cur => (if cfg.maxContacts ≠ 0 then cur.again else cur).rest).getD []

def updateChances (env : Env) : List (Contact × Chance) := env.turnsOf (updateList cfg m)

/-- Without contacts there are no turns. -/
theorem chances_of_none {m : Request} (cfg : Cfg) (env : Env) (h : contactsOf m.fields = []) :
    chances m env = [] ∧ updateChances cfg m env = [] := by
  have hfirst : getFirstContact m.fields = none := by
    rw [contactsOf_eq] at h
    cases hcur : getFirstContact m.fields with
    | none => rfl
    | some cur =>
      rw [hcur] at h
      cases h
  refine ⟨by rw [chances, h]; rfl, ?_⟩
  rw [updateChances, updateList, hfirst]
  rfl

/-- `delete_urecord`: `none` when it fails. The rows are those of the record. -/
def deleteUrecord (env : Env) (u : UDomain) : Option (Option UDomain) :=
  if cfg.usrloc.dbMode = .dbOnly then
    some (if env.dbRecord then some { mem := UDomain.init.mem, table := [] } else none)
  else
    (timerLoop (fun ptr u => deleteUcontact cfg.usrloc u ptr (env.dbContact ptr)) u.mem.fresh u.mem.contacts u).map some

/-- What `save` leaves: the record, the turns that were made and not undone, and the error that is answered. -/
structure Saved where
  store : Store
  log : List Entry
  err : Option RErr

/-- `release_urecord`, of a record that is kept in memory. -/
def release (s : Store) (u : UDomain) : Store := { s with loc := u, present := u.mem.contacts.isSome || s.watched }

def insertContacts (env : Env) (s : Store) : Option Saved :=
  (turns (insertTurn cfg m) (chances m env) s.loc ⟨none, 0, false⟩).bind fun run =>
    if run.err = none then some ⟨{ s with loc := run.loc, present := s.present || run.state.record }, run.log, none⟩
    else if run.state.record then
      (deleteUrecord cfg env run.loc).map fun
        | some u => ⟨release s u, [], run.err⟩
        | none => ⟨{ s with loc := run.loc }, run.log, run.err⟩
    else some ⟨{ s with loc := run.loc }, run.log, run.err⟩

def updateContacts (env : Env) (s : Store) : Option Saved :=
  match packMsg cfg m with
  | .error err => some ⟨release s s.loc, [], some err⟩
  | .ok ci =>
    (if cfg.maxContacts ≠ 0 then testMaxContacts cfg m s.loc.mem ci (chances m env) else some none).bind fun
      | some err => some ⟨release s s.loc, [], some err⟩
      | none =>
        (turns (updateTurn cfg m) (updateChances cfg m env) s.loc ci).map fun run =>
          ⟨release s run.loc, run.log, run.err⟩

/-- The loop of `star` over the contacts. -/
def starLoop (memOnly : Bool) (u : UDomain) : Option UDomain :=
  timerLoop (fun ptr u => { u with mem := u.mem.setCell ptr (markMem memOnly (u.mem.cell ptr)) }) u.mem.fresh
    u.mem.contacts u

/-- `star`: every binding is removed. -/
def star (env : Env) (s : Store) : Option Saved :=
  (if s.present then starLoop m.memOnly s.loc else some s.loc).bind fun u =>
    if s.present ∨ cfg.usrloc.dbMode = .dbOnly then
      (deleteUrecord cfg env u).map fun
        | some u' => ⟨release s u', [], none⟩
        | none => ⟨{ s with loc := u }, [], some .ulDelR⟩
    else some ⟨s, [], none⟩

def save (env : Env) (s : Store) : Option Saved :=
  match m.parsed with
  | some err => some ⟨s, [], some err⟩
  | none =>
    match checkContacts cfg.limits m.lastTime m.fields with
    | .starExp => some ⟨s, [], some .starExp⟩
    | .starCont => some ⟨s, [], some .starCont⟩
    | .contactLen => some ⟨s, [], some .contactLen⟩
    | .ok isStar =>
      match m.aor with
      | some err => some ⟨s, [], some err⟩
      | none =>
        if contactsOf m.fields = [] then if isStar then star cfg m env s else some ⟨s, [], none⟩
        else if s.present then updateContacts cfg m env s
        else insertContacts cfg m env s

end OpenSer.Registrar
