import OpenSer.Ut
import OpenSer.Lib.NullList

/-!
# Contacts of the user location module

`ucontact.c` and `urecord.c`: the contacts of one record, which is a doubly linked list, and the rows of the location
table that belong to the record. An operation takes the outcome of its database call; a call that fails leaves the table
alone. Memory does not run out. Loops take fuel and answer `none` when it runs out.

* `memInsertUcontact`, `memRemoveUcontact`, `updateContactPos`: the list.
* `stUpdateUcontact`, `stDeleteUcontact`, `stExpiredUcontact`, `stFlushUcontact`: the state of a contact.
* `insertUcontact`, `updateUcontact`, `deleteUcontact`, `timerUrecord`: the operations on a record.
* `lookup`: the contacts that a request is forwarded to.
-/

namespace OpenSer.Usrloc

open Function

/-! ## Contacts -/

inductive CState
  | new | sync | dirty
  deriving Repr, DecidableEq

inductive DbMode
  | noDb | writeThrough | writeBack | dbOnly
  deriving Repr, DecidableEq

structure Config where
  dbMode : DbMode
  descTimeOrder : Bool
  deriving Repr, DecidableEq

/-- What an update sets: the columns of a row other than its keys. A null pointer is `none`. -/
structure Values where
  received : Option Str
  path : Option Str
  expires : Nat
  q : Int
  cseq : Int
  flags : Nat
  cflags : Nat
  userAgent : Str
  sock : Option Str
  methods : Nat
  lastModified : Nat
  deriving Repr, DecidableEq

structure Info where
  callid : Str
  vals : Values
  deriving Repr, DecidableEq

/-- `ucontact_t`, without the pointers of its list. -/
structure UContact where
  c : Str
  callid : Str
  vals : Values
  state : CState
  deriving Repr, DecidableEq

structure Row where
  c : Str
  callid : Str
  vals : Values
  deriving Repr, DecidableEq

/-- `FL_MEM`: the contact is kept in memory only. -/
def flMem : Nat := 1 <<< 0

def Values.isMem (v : Values) : Bool := v.flags &&& flMem != 0

def ulExpiredTime : Nat := 10

def Values.valid (v : Values) (t : Nat) : Bool := v.expires > t || v.expires == 0

/-- `new_ucontact`: empty strings become null. -/
def newUcontact (contact : Str) (ci : Info) : UContact :=
  { c := contact, callid := ci.callid, state := .new
    vals := { ci.vals with received := ci.vals.received.filter (· ≠ []), path := ci.vals.path.filter (· ≠ []) } }

/-- `mem_update_ucontact`: an empty `path` is copied into what is there. -/
def memUpdateUcontact (c : UContact) (ci : Info) : UContact :=
  { c with
    vals := { ci.vals with
      received := ci.vals.received.filter (· ≠ [])
      path := ci.vals.path.filter fun p => p ≠ [] || c.vals.path.isSome } }

/-! ## The state of a contact -/

def stUpdateUcontact (mode : DbMode) (c : UContact) : UContact :=
  match c.state with
  | .new | .dirty => c
  | .sync => if mode = .writeBack ∨ mode = .writeThrough then { c with state := .dirty } else c

/-- `st_delete_ucontact`: the contact, and whether it is to be deleted at once. -/
def stDeleteUcontact (mode : DbMode) (c : UContact) : UContact × Bool :=
  match c.state with
  | .new => (c, true)
  | .sync | .dirty =>
    if mode = .writeBack then ({ c with vals := { c.vals with expires := ulExpiredTime } }, false) else (c, true)

/-- `st_expired_ucontact`: whether the contact is to be removed from the database. -/
def stExpiredUcontact (c : UContact) : Bool :=
  match c.state with
  | .new => false
  | .sync | .dirty => true

inductive Flush
  | nothing | insert | update
  deriving Repr, DecidableEq

def stFlushUcontact (c : UContact) : UContact × Flush :=
  match c.state with
  | .new => ({ c with state := .sync }, .insert)
  | .sync => (c, .nothing)
  | .dirty => ({ c with state := .sync }, .update)

/-! ## The database -/

def UContact.row (c : UContact) : Row := ⟨c.c, c.callid, c.vals⟩

def Row.isOf (c : UContact) (r : Row) : Bool := r.c = c.c && r.callid = c.callid

/-- `db_insert_ucontact`: whether it succeeds, and the table. -/
def dbInsertUcontact (c : UContact) (ok : Bool) (table : List Row) : Bool × List Row :=
  if c.vals.isMem then (true, table) else if ok then (true, c.row :: table) else (false, table)

def dbUpdateUcontact (c : UContact) (ok : Bool) (table : List Row) : Bool × List Row :=
  if c.vals.isMem then (true, table)
  else if ok then (true, table.map fun r => if r.isOf c then { r with vals := c.vals } else r)
  else (false, table)

def dbDeleteUcontact (c : UContact) (ok : Bool) (table : List Row) : Bool × List Row :=
  if c.vals.isMem then (true, table) else if ok then (true, table.filter fun r => !r.isOf c) else (false, table)

/-! ## The list -/

/-- `urecord_t`: the list of contacts, and which of them are allocated. -/
structure URecord where
  contacts : Option Nat
  next : Nat → Option Nat
  prev : Nat → Option Nat
  cell : Nat → UContact
  live : Nat → Bool
  fresh : Nat

namespace URecord

variable (r : URecord)

def q (c : Nat) : Int := (r.cell c).vals.q

def setNext (c : Nat) (p : Option Nat) : URecord := { r with next := update r.next c p }

def setPrev (c : Nat) (p : Option Nat) : URecord := { r with prev := update r.prev c p }

def setCell (c : Nat) (x : UContact) : URecord := { r with cell := update r.cell c x }

/-- The loop of an insertion: the first contact at which it stops, and the one before it. -/
def findPos (stop : Nat → Bool) : Nat → Option Nat → Option Nat → Option (Option Nat × Option Nat)
  | _, none, prev => some (none, prev)
  | 0, some _, _ => none
  | fuel + 1, some ptr, prev =>
    if stop ptr then some (some ptr, prev) else findPos stop fuel (r.next ptr) (some ptr)

/-- `c` is linked in before `ptr`, or behind `prev` at the end. -/
def linkAt (c : Nat) (ptr prev : Option Nat) : URecord :=
  match ptr, prev with
  | some ptr, _ =>
    match r.prev ptr with
    | none => { (r.setPrev ptr (some c)).setNext c (some ptr) with contacts := some c }
    | some p => (((r.setNext c (some ptr)).setPrev c (some p)).setNext p (some c)).setPrev ptr (some c)
  | none, some prev => (r.setNext prev (some c)).setPrev c (some prev)
  | none, none => { r with contacts := some c }

def alloc (x : UContact) : URecord :=
  { r with
    next := update r.next r.fresh none, prev := update r.prev r.fresh none
    cell := update r.cell r.fresh x, live := update r.live r.fresh true, fresh := r.fresh + 1 }

/-- `mem_insert_ucontact`: the record, and the new contact. -/
def memInsertUcontact (cfg : Config) (contact : Str) (ci : Info) : Option (URecord × Nat) :=
  let c := r.fresh
  let r := r.alloc (newUcontact contact ci)
  if cfg.descTimeOrder then some (r.linkAt c r.contacts none, c)
  else
    (r.findPos (fun ptr => r.q ptr < r.q c) r.fresh r.contacts none).map fun (ptr, prev) => (r.linkAt c ptr prev, c)

/-- `mem_remove_ucontact`, and `unlink_contact`. -/
def memRemoveUcontact (c : Nat) : URecord :=
  match r.prev c with
  | some p =>
    let r' := r.setNext p (r.next c)
    match r.next c with
    | some n => r'.setPrev n (some p)
    | none => r'
  | none =>
    let r' := { r with contacts := r.next c }
    match r.next c with
    | some n => r'.setPrev n none
    | none => r'

def memDeleteUcontact (c : Nat) : URecord :=
  { r.memRemoveUcontact c with live := update r.live c false }

def updateContactPos (cfg : Config) (c : Nat) : Option URecord :=
  if cfg.descTimeOrder then
    if r.prev c = none then some r
    else
      let r := r.memRemoveUcontact c
      let r := (r.setNext c r.contacts).setPrev c none
      -- the list is not empty: the contact was not its first
      match r.contacts with
      | some h => some { r.setPrev h (some c) with contacts := some c }
      | none => none
  else if (r.prev c).all (fun p => r.q c ≤ r.q p) ∧ (r.next c).all (fun n => r.q c ≥ r.q n) then some r
  else
    let r := ((r.memRemoveUcontact c).setNext c none).setPrev c none
    (r.findPos (fun pos => !(r.q pos < r.q c)) r.fresh r.contacts none).map fun (pos, ppos) => r.linkAt c pos ppos

end URecord

/-! ## The operations -/

structure UDomain where
  mem : URecord
  table : List Row

def UDomain.init : UDomain :=
  { table := []
    mem := { contacts := none, next := fun _ => none, prev := fun _ => none, live := fun _ => false, fresh := 0
             cell := fun _ => ⟨[], [], ⟨none, none, 0, 0, 0, 0, 0, [], none, 0, 0⟩, .new⟩ } }

/-- The database call that an operation makes at once in some modes: a contact that is written is in sync. -/
def atOnce (cfg : Config) (call : UContact → Bool → List Row → Bool × List Row) (x : UContact) (ok : Bool)
    (table : List Row) : UContact × List Row :=
  if cfg.dbMode = .writeThrough ∨ cfg.dbMode = .dbOnly then
    let (done, table) := call x ok table
    (if done then { x with state := .sync } else x, table)
  else (x, table)

def insertUcontact (cfg : Config) (u : UDomain) (contact : Str) (ci : Info) (ok : Bool) : Option UDomain :=
  (u.mem.memInsertUcontact cfg contact ci).map fun (mem, c) =>
    let (x, table) := atOnce cfg dbInsertUcontact (mem.cell c) ok u.table
    { mem := mem.setCell c x, table }

def updateUcontact (cfg : Config) (u : UDomain) (c : Nat) (ci : Info) (ok : Bool) : Option UDomain :=
  let mem := u.mem.setCell c (memUpdateUcontact (u.mem.cell c) ci)
  (if cfg.dbMode ≠ .dbOnly then mem.updateContactPos cfg c else some mem).map fun mem =>
    let (x, table) := atOnce cfg dbUpdateUcontact (stUpdateUcontact cfg.dbMode (mem.cell c)) ok u.table
    { mem := mem.setCell c x, table }

def deleteUcontact (cfg : Config) (u : UDomain) (c : Nat) (ok : Bool) : UDomain :=
  let (x, now) := stDeleteUcontact cfg.dbMode (u.mem.cell c)
  let mem := u.mem.setCell c x
  if now then
    let table :=
      if cfg.dbMode = .writeThrough ∨ cfg.dbMode = .dbOnly then (dbDeleteUcontact x ok u.table).2 else u.table
    { mem := mem.memDeleteUcontact c, table }
  else { mem, table := u.table }

/-- The loop of a timer routine over the contacts from `ptr` on; the next one is read before the contact is visited. -/
def timerLoop (visit : Nat → UDomain → UDomain) : Nat → Option Nat → UDomain → Option UDomain
  | _, none, u => some u
  | 0, some _, _ => none
  | fuel + 1, some ptr, u => timerLoop visit fuel (u.mem.next ptr) (visit ptr u)

def nodbContact (t ptr : Nat) (u : UDomain) : UDomain :=
  if (u.mem.cell ptr).vals.valid t then u else { u with mem := u.mem.memDeleteUcontact ptr }

def nodbTimer (t : Nat) (u : UDomain) : Option UDomain := timerLoop (nodbContact t) u.mem.fresh u.mem.contacts u

/-- What `wb_timer` does with one contact; the outcome of its database call is `ok`. -/
def wbContact (t : Nat) (ok : Bool) (ptr : Nat) (u : UDomain) : UDomain :=
  let x := u.mem.cell ptr
  if x.vals.valid t then
    let (y, op) := stFlushUcontact x
    match op with
    | .nothing => u
    | .insert =>
      let (done, table) := dbInsertUcontact y ok u.table
      { mem := u.mem.setCell ptr (if done then y else { y with state := x.state }), table }
    | .update =>
      let (done, table) := dbUpdateUcontact y ok u.table
      { mem := u.mem.setCell ptr (if done then y else { y with state := x.state }), table }
  else
    { mem := u.mem.memDeleteUcontact ptr
      table := if stExpiredUcontact x then (dbDeleteUcontact x ok u.table).2 else u.table }

/-- `wb_timer`; `ok` has the outcome of the database call for each contact. -/
def wbTimer (t : Nat) (ok : Nat → Bool) (u : UDomain) : Option UDomain :=
  timerLoop (fun ptr => wbContact t (ok ptr) ptr) u.mem.fresh u.mem.contacts u

def timerUrecord (cfg : Config) (u : UDomain) (t : Nat) (ok : Nat → Bool) : Option UDomain :=
  match cfg.dbMode with
  | .noDb => nodbTimer t u
  | .writeThrough | .writeBack => wbTimer t ok u
  | .dbOnly => some u

inductive Op
  | insert (contact : Str) (ci : Info) (ok : Bool)
  | update (c : Nat) (ci : Info) (ok : Bool)
  | delete (c : Nat) (ok : Bool)
  | timer (t : Nat) (ok : Nat → Bool)

/-- An operation is done; the contacts that are updated or deleted are those of the record. -/
def step (cfg : Config) (u : UDomain) : Op → Option UDomain
  | .insert contact ci ok => insertUcontact cfg u contact ci ok
  | .update c ci ok => if u.mem.live c then updateUcontact cfg u c ci ok else none
  | .delete c ok => if u.mem.live c then some (deleteUcontact cfg u c ok) else none
  | .timer t ok => timerUrecord cfg u t ok

/-! ## Lookup -/

/-- The contacts from `ptr` on that are wanted. -/
def lookupFrom (r : URecord) (wanted : Nat → Bool) : Nat → Option Nat → Option (List Nat)
  | _, none => some []
  | 0, some _ => none
  | fuel + 1, some ptr =>
    (lookupFrom r wanted fuel (r.next ptr)).map fun rest => if wanted ptr then ptr :: rest else rest

def wanted (r : URecord) (t method : Nat) (methodFiltering : Bool) (ptr : Nat) : Bool :=
  (r.cell ptr).vals.valid t && (!methodFiltering || method &&& (r.cell ptr).vals.methods != 0)

/-- `lookup`: the contact that the request is rewritten to, and those that become branches. -/
def lookup (r : URecord) (t method : Nat) (methodFiltering appendBranches : Bool) : Option (List Nat) :=
  (lookupFrom r (wanted r t method methodFiltering) r.fresh r.contacts).map fun found =>
    if appendBranches then found else found.take 1

end OpenSer.Usrloc
