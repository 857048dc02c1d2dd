import OpenSer.Dialog.DlgTimer
import OpenSer.Ut

/-!
# The dialog table

The dialogs of `dlg_hash.c`: reference counts, the state machine, and the table that requests within a dialog look it up
in. A dialog is a number; numbers are not used again, so that an access to a dialog that has been freed shows. The list
of an entry is a `List Nat` in `next` order. Critical sections are one function each.

`match_dialog` and `core_hash` are the ones of the sources. The legs of a dialog are reduced to their tags.
-/

namespace OpenSer.Dialog

open Function

/-! ## The hash function -/

def charBits (c : Char) : BitVec 32 := (BitVec.ofNat 8 c.toNat).signExtend 32

def chHInc (h v : BitVec 32) : BitVec 32 := h + (v ^^^ (v >>> 3))

/-- One string of `core_hash`: words of four characters, and what is left. -/
def coreHashStr (h : BitVec 32) : Str → BitVec 32
  | a :: b :: c :: d :: s =>
    coreHashStr (chHInc h (charBits a <<< 24 + charBits b <<< 16 + charBits c <<< 8 + charBits d)) s
  | s => chHInc h (s.foldl (fun v c => v <<< 8 + charBits c) 0)

/-- `core_hash`; the second string may be null. -/
def coreHash (s1 : Str) (s2 : Option Str) (size : BitVec 32) : BitVec 32 :=
  let h := coreHashStr 0 s1
  let h : BitVec 32 := match s2 with
    | some s2 => coreHashStr h s2
    | none => h
  let h := h + h >>> 11 + (h >>> 13 + h >>> 23)
  if size ≠ 0 then h &&& (size - 1) else h

/-! ## Dialogs -/

inductive DlgState where
  | unconfirmed
  | early
  | confirmedNa
  | confirmed
  | deleted
  deriving Repr, DecidableEq

inductive DlgEvent where
  | tdel
  | rpl1xx
  | rpl2xx
  | rpl3xx
  | reqprack
  | reqack
  | reqbye
  | req
  deriving Repr, DecidableEq

inductive DlgDir where
  | none
  | downstream
  | upstream
  deriving Repr, DecidableEq

structure DlgCell where
  ref : Int
  hId : BitVec 32
  hEntry : Nat
  state : DlgState
  /-- `flags & DLG_FLAG_HASBYE`. -/
  hasBye : Bool
  lifetime : Int
  callid : Str
  callerTag : Str
  calleeTag : Str
  deriving Repr, DecidableEq

/-- `strncmp(a, b, n) == 0`. -/
def strncmp : Nat → Str → Str → Bool
  | 0, _, _ => true
  | n + 1, a :: as, b :: bs => if a ≠ b then false else if a = '\x00' then true else strncmp n as bs
  | _, _, _ => false

def sameStr (a b : Str) : Bool := a.length = b.length ∧ strncmp b.length a b

/-- `match_dialog`: the direction, if the dialog matches. -/
def matchDialog (dlg : DlgCell) (callid ftag ttag : Str) : DlgDir → Option DlgDir
  | .downstream =>
    if sameStr dlg.callid callid ∧ sameStr dlg.callerTag ftag ∧ sameStr dlg.calleeTag ttag then some .downstream
    else none
  | .upstream =>
    if sameStr dlg.callid callid ∧ sameStr dlg.calleeTag ftag ∧ sameStr dlg.callerTag ttag then some .upstream
    else none
  | .none =>
    if dlg.callid.length ≠ callid.length then none
    else if dlg.calleeTag.length = ftag.length ∧ dlg.callerTag.length = ttag.length then
      if ¬strncmp callid.length dlg.callid callid then none
      else if ftag.length = ttag.length then
        if strncmp ftag.length dlg.calleeTag ftag ∧ strncmp ttag.length dlg.callerTag ttag then some .upstream
        else if strncmp ftag.length dlg.callerTag ftag ∧ strncmp ttag.length dlg.calleeTag ttag then some .downstream
        else none
      else if strncmp ftag.length dlg.calleeTag ftag ∧ strncmp ttag.length dlg.callerTag ttag then some .upstream
      else none
    else if dlg.callerTag.length = ftag.length ∧ dlg.calleeTag.length = ttag.length then
      if strncmp callid.length dlg.callid callid ∧ strncmp ftag.length dlg.callerTag ftag ∧
          strncmp ttag.length dlg.calleeTag ttag then some .downstream
      else none
    else none

/-! ## The table -/

structure Shm where
  /-- `d_table->size`. -/
  size : BitVec 32
  /-- The dialogs of an entry, from `first` to `last`. -/
  entries : Nat → List Nat
  nextId : Nat → BitVec 32
  cells : Nat → DlgCell
  /-- The next dialog that is allocated. -/
  fresh : Nat
  freed : Nat → Bool
  timer : DlgTimer
  /-- A dialog has been accessed after it was freed. -/
  uaf : Bool
  /-- The calls of `destroy_dlg`, with the state of the dialog. -/
  destroyed : List (Nat × DlgState)

namespace Shm

variable (m : Shm)

/-- An access to a dialog. -/
def touch (dlg : Nat) : Shm := { m with uaf := m.uaf || m.freed dlg }

def setCell (dlg : Nat) (cell : DlgCell) : Shm := { m with cells := update m.cells dlg cell }

def destroyDlg (dlg : Nat) : Option Shm :=
  (m.timer.removeDlgTimer (.dlg dlg)).map fun (timer, _) =>
    { m with
      timer := timer
      freed := update m.freed dlg true
      destroyed := (dlg, (m.cells dlg).state) :: m.destroyed }

/-- `build_new_dlg` and `link_dlg(dlg, n)`: the dialog, with its caller leg. -/
def linkDlg (callid fromTag : Str) (n : Int) : Shm :=
  let hEntry := (coreHash callid (if fromTag.length ≠ 0 then some fromTag else none) m.size).toNat
  { m with
    entries := update m.entries hEntry (m.entries hEntry ++ [m.fresh])
    nextId := update m.nextId hEntry (m.nextId hEntry + 1)
    cells := update m.cells m.fresh
      { ref := 1 + n, hId := m.nextId hEntry, hEntry := hEntry, state := .unconfirmed, hasBye := false, lifetime := 0
        callid := callid, callerTag := fromTag, calleeTag := [] }
    fresh := m.fresh + 1 }

def refDlgUnsafe (dlg : Nat) (cnt : Int) : Shm :=
  m.setCell dlg { m.cells dlg with ref := (m.cells dlg).ref + cnt }

def unlinkUnsafeDlg (dlg : Nat) : Shm :=
  { m with entries := update m.entries (m.cells dlg).hEntry ((m.entries (m.cells dlg).hEntry).erase dlg) }

def unrefDlgUnsafe (dlg : Nat) (cnt : Int) : Option Shm :=
  let m := m.refDlgUnsafe dlg (-cnt)
  if (m.cells dlg).ref ≤ 0 then (m.unlinkUnsafeDlg dlg).destroyDlg dlg else some m

def unrefDlg (dlg : Nat) (cnt : Int) : Option Shm := (m.touch dlg).unrefDlgUnsafe dlg cnt

/-- `lookup_dlg`: the dialog, with a reference to it. -/
def lookupDlg (hEntry hId : Nat) : Shm × Option Nat :=
  if hEntry ≥ m.size.toNat then (m, none)
  else
    match (m.entries hEntry).find? fun dlg => (m.cells dlg).hId.toNat = hId with
    | some dlg => if (m.cells dlg).state = .deleted then (m, none) else (m.refDlgUnsafe dlg 1, some dlg)
    | none => (m, none)

def findDlg (m : Shm) (callid ftag ttag : Str) (dir : DlgDir) : List Nat → Option (Nat × DlgDir)
  | [] => none
  | dlg :: dlgs =>
    match matchDialog (m.cells dlg) callid ftag ttag dir with
    | some dir => some (dlg, dir)
    | none => m.findDlg callid ftag ttag dir dlgs

/-- `internal_get_dlg`: the dialog, with a reference to it, and the direction. -/
def internalGetDlg (hEntry : Nat) (callid ftag ttag : Str) (dir : DlgDir) : Shm × Option Nat × DlgDir :=
  match m.findDlg callid ftag ttag dir (m.entries hEntry) with
  | some (dlg, dir) =>
    if (m.cells dlg).state = .deleted then (m, none, dir) else (m.refDlgUnsafe dlg 1, some dlg, dir)
  | none => (m, none, dir)

/-- What `next_state_dlg` returns: the states, and `unref` if it is set. -/
structure NextState where
  oldState : DlgState
  newState : DlgState
  unref : Option Nat

def setState (dlg : Nat) (state : DlgState) : Shm := m.setCell dlg { m.cells dlg with state := state }

/-- The transitions of `next_state_dlg`; a bogus event changes nothing. -/
def transition (dlg : Nat) : DlgEvent → Option (Shm × Option Nat)
  | .tdel =>
    match (m.cells dlg).state with
    | .unconfirmed | .early => ((m.setState dlg .deleted).unrefDlgUnsafe dlg 1).map (·, some 1)
    | .confirmedNa | .confirmed | .deleted => (m.unrefDlgUnsafe dlg 1).map (·, none)
  | .rpl1xx =>
    match (m.cells dlg).state with
    | .unconfirmed | .early => some (m.setState dlg .early, none)
    | _ => some (m, none)
  | .rpl3xx =>
    match (m.cells dlg).state with
    | .unconfirmed | .early => some (m.setState dlg .deleted, some 1)
    | _ => some (m, none)
  | .rpl2xx =>
    match (m.cells dlg).state with
    | .deleted =>
      if (m.cells dlg).hasBye then some (m, none) else some ((m.refDlgUnsafe dlg 1).setState dlg .confirmedNa, none)
    | .unconfirmed | .early => some (m.setState dlg .confirmedNa, none)
    | .confirmedNa | .confirmed => some (m, none)
  | .reqack =>
    match (m.cells dlg).state with
    | .confirmedNa => some (m.setState dlg .confirmed, none)
    | _ => some (m, none)
  | .reqbye =>
    match (m.cells dlg).state with
    | .confirmedNa | .confirmed =>
      some (m.setCell dlg { m.cells dlg with hasBye := true, state := .deleted }, some 1)
    | _ => some (m, none)
  | .reqprack | .req => some (m, none)

/-- `next_state_dlg`. The new state is read when the dialog may already be freed; what was there is still there. -/
def nextStateDlg (dlg : Nat) (event : DlgEvent) : Option (Shm × NextState) :=
  ((m.touch dlg).transition dlg event).map fun (m', unref) =>
    (m'.touch dlg, ⟨(m.cells dlg).state, (m'.cells dlg).state, unref⟩)

end Shm

end OpenSer.Dialog
