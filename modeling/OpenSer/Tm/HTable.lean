import OpenSer.Ut

/-!
# The transaction table

The transaction cell of `h_table.h` and the table of cells. A synonym list is a `List Cell` in `next_cell` order.
`insertIntoHashTableUnsafe` appends a cell and gives it the entry's running label, a wrapping `unsigned int`.
-/

namespace OpenSer.Tm

def tmTableEntries : Nat := 2 ^ 16

def maxBranches : Nat := 12

inductive Method where
  | undef | invite | cancel | ack | bye | info | options | update | register | message | subscribe | notify | prack
  | refer | publish | other
  deriving Repr, DecidableEq

structure Request where
  methodValue : Method
  deriving Repr, DecidableEq

/-- One branch, `struct ua_client`, as reply matching reads it. -/
structure Uac where
  /-- `local_cancel.buffer.len`. -/
  localCancelLen : Nat := 0
  deriving Repr, DecidableEq

structure Cell where
  hashIndex : BitVec 32 := 0
  label : BitVec 32 := 0
  isInvite : Bool := false
  method : Str := []
  md5 : Str := []
  nrOfOutgoings : Nat := 0
  /-- `uas.request`; null for a local transaction. -/
  request : Option Request := none
  uac : Nat → Uac := fun _ => {}

/-- `struct entry`: the synonyms in list order and the next label. -/
structure Entry where
  cells : List Cell := []
  nextLabel : BitVec 32

structure STable where
  entrys : Nat → Entry

/-- `init_hash_table`: every entry starts at a label drawn from `rand()`. -/
def initHashTable (rand : Nat → Nat) : STable where
  entrys i := { nextLabel := BitVec.ofNat 32 (rand i) }

def insertIntoHashTableUnsafe (table : STable) (pCell : Cell) (hash : BitVec 32) : STable where
  entrys := Function.update table.entrys hash.toNat
    (let pEntry := table.entrys hash.toNat
     { cells := pEntry.cells ++ [{ pCell with hashIndex := hash, label := pEntry.nextLabel }]
       nextLabel := pEntry.nextLabel + 1 })

/-- An inserted cell carries the entry's running label. -/
theorem mem_insertIntoHashTableUnsafe (table : STable) (pCell : Cell) (hash : BitVec 32) :
    { pCell with hashIndex := hash, label := (table.entrys hash.toNat).nextLabel } ∈
      ((insertIntoHashTableUnsafe table pCell hash).entrys hash.toNat).cells := by
  simp [insertIntoHashTableUnsafe]

end OpenSer.Tm
