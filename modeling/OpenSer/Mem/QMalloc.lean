import OpenSer.Mem.Sizes

/-!
# The quick allocator

`q_malloc.c`, without `DBG_QM_MALLOC`, on a 64-bit machine. Whether `QM_JOIN_FREE` is defined is a parameter,
`joinFree`. Memory is a map from the address of a word to its value. A fragment `f` starts with its `size` at `f` and
`nxt_free` (also read as `is_free`) at `f + 8`; its payload follows, and behind the payload the `struct qm_frag_end`
with a copy of `size` and `prev_free`.

The free fragments of a bucket form a ring through the bucket's head. The heads are fragments of size 0 inside the
`struct qm_block`; the other fields of the block are a record. Loops over a ring take fuel, as much as the block has
bytes; `none` is a loop that does not end.
-/

namespace OpenSer.Mem.QM

def roundto : Nat := 16

def sizeofQmFrag : Nat := 16

def sizeofQmFragEnd : Nat := 16

def fragOverhead : Nat := sizeofQmFrag + sizeofQmFragEnd

def minFragSize : Nat := roundto

def qmMallocOptimizeFactor : Nat := 14

def qmMallocOptimize : Nat := 2 ^ 14

def qmHashSize : Nat := qmMallocOptimize / roundto + (64 - qmMallocOptimizeFactor) + 1

/-- The offset of `free_hash` in `struct qm_block`. -/
def freeHashOffset : Nat := 6 * 8

/-- `sizeof(struct qm_frag_lnk)`: the head, the tail and `no`. -/
def sizeofQmFragLnk : Nat := sizeofQmFrag + sizeofQmFragEnd + 8

def sizeofQmBlock : Nat := freeHashOffset + qmHashSize * sizeofQmFragLnk

def roundup (s : Nat) : Nat := Mem.roundup roundto s

def rounddown (s : Nat) : Nat := Mem.rounddown roundto s

def getHash (s : Nat) : Nat := Mem.getHash roundto qmMallocOptimizeFactor s

attribute [irreducible] getHash

/-- The residue of a fragment is big enough to be split off. -/
abbrev Splits (fsize size : Nat) : Prop := Mem.Splits fragOverhead qmMallocOptimize fsize size

/-- `struct qm_block`, at address `addr`. -/
structure Block where
  addr : Nat
  size : Nat
  used : Nat := 0
  realUsed : Nat
  maxRealUsed : Nat
  firstFrag : Nat
  lastFragEnd : Nat
  no : Nat → Nat := fun _ => 0

structure Heap where
  qm : Block
  mem : Nat → Nat

namespace Heap

variable (s : Heap)

open Function

/-- `&(qm->free_hash[hash].head)`. -/
def head (hash : Nat) : Nat := s.qm.addr + freeHashOffset + sizeofQmFragLnk * hash

def fragSize (f : Nat) : Nat := s.mem f

/-- `f->u.nxt_free`, also `f->u.is_free`. -/
def nxtFree (f : Nat) : Nat := s.mem (f + 8)

def fragEnd (f : Nat) : Nat := f + sizeofQmFrag + s.fragSize f

def fragNext (f : Nat) : Nat := f + sizeofQmFrag + s.fragSize f + sizeofQmFragEnd

/-- `FRAG_PREV(f)`, by the size at the end of the fragment in front. -/
def fragPrev (f : Nat) : Nat := f - sizeofQmFragEnd - s.mem (f - sizeofQmFragEnd) - sizeofQmFrag

def endSize (f : Nat) : Nat := s.mem (s.fragEnd f)

def prevFree (f : Nat) : Nat := s.mem (s.fragEnd f + 8)

def setMem (mem : Nat → Nat) : Heap := { s with mem := mem }

def setSize (f v : Nat) : Heap := s.setMem (update s.mem f v)

def setNxtFree (f v : Nat) : Heap := s.setMem (update s.mem (f + 8) v)

def setEndSize (f v : Nat) : Heap := s.setMem (update s.mem (s.fragEnd f) v)

def setPrevFree (f v : Nat) : Heap := s.setMem (update s.mem (s.fragEnd f + 8) v)

def setNo (hash v : Nat) : Heap := { s with qm := { s.qm with no := update s.qm.no hash v } }

def setUsed (v : Nat) : Heap := { s with qm := { s.qm with used := v } }

def setRealUsed (v : Nat) : Heap := { s with qm := { s.qm with realUsed := v } }

/-- `for (; f != head; f = f->u.nxt_free) if (stop(f)) break;` -/
def scan (s : Heap) (stop : Nat → Bool) (head : Nat) : Nat → Nat → Option Nat
  | 0, _ => none
  | fuel + 1, f => if f = head then some f else if stop f then some f else scan s stop head fuel (s.nxtFree f)

def fuel : Nat := s.qm.size

def qmInsertFree (frag : Nat) : Option Heap := do
  let hash := getHash (s.fragSize frag)
  let f ← s.scan (fun g => s.fragSize frag ≤ s.fragSize g) (s.head hash) s.fuel (s.nxtFree (s.head hash))
  let prev := s.prevFree f
  let s := s.setNxtFree prev frag
  let s := s.setPrevFree frag prev
  let s := s.setNxtFree frag f
  let s := s.setPrevFree f frag
  some (s.setNo hash (s.qm.no hash + 1))

def qmDetachFree (frag : Nat) : Heap :=
  let prev := s.prevFree frag
  let next := s.nxtFree frag
  let s := s.setNxtFree prev next
  s.setPrevFree next prev

/-- The `memset` of `qm_malloc_init` over the block at `start`, and the loop that makes each bucket an empty ring. -/
def initHeads (mem : Nat → Nat) (start : Nat) : Nat → Nat := fun a =>
  if start ≤ a ∧ a < start + sizeofQmBlock then
    if start + freeHashOffset ≤ a then
      let field := (a - (start + freeHashOffset)) % sizeofQmFragLnk
      -- `head.u.nxt_free` and `tail.prev_free`
      if field = 8 ∨ field = 24 then a - field else 0
    else 0
  else mem a

def initOverhead : Nat := roundup sizeofQmBlock + sizeofQmFrag + sizeofQmFragEnd

/-- The block `qm_malloc_init` lays out at `start`, before it links the initial fragment. -/
def initBlock (mem : Nat → Nat) (start size : Nat) : Heap :=
  let qm : Block :=
    { addr := start
      size := size
      realUsed := initOverhead
      maxRealUsed := initOverhead
      firstFrag := start + roundup sizeofQmBlock
      lastFragEnd := start + size - sizeofQmFragEnd }
  let mem := initHeads mem start
  let mem := update mem qm.firstFrag (size - initOverhead)
  let mem := update mem qm.lastFragEnd (size - initOverhead)
  { qm := qm, mem := mem }

/-- `qm_malloc_init`: `none` when it returns 0. -/
def qmMallocInit (mem : Nat → Nat) (address size : Nat) : Option Heap :=
  let start := roundup address
  if size < wsub start address then none
  else
    let size := size - wsub start address
    if size < minFragSize + fragOverhead then none
    else
      let size := rounddown size
      if size < initOverhead then none
      else
        let s := initBlock mem start size
        s.qmInsertFree s.qm.firstFrag

/-- `qm_find_free`, through the last `n` buckets: the bucket and the fragment. -/
def qmFindFree (s : Heap) (size : Nat) : Nat → Option (Option (Nat × Nat))
  | 0 => some none
  | n + 1 => do
    let hash := qmHashSize - (n + 1)
    let f ← s.scan (fun g => s.fragSize g ≥ size) (s.head hash) s.fuel (s.nxtFree (s.head hash))
    if f ≠ s.head hash then some (some (hash, f)) else qmFindFree s size n

/-- `split_frag`: 0 when it split, -1 when it could not. -/
def splitFrag (f newSize : Nat) : Option (Heap × Int) :=
  let rest := s.fragSize f - newSize
  if Splits (s.fragSize f) newSize then
    let s := s.setSize f newSize
    let s := s.setEndSize f newSize
    let n := s.fragEnd f + sizeofQmFragEnd
    let s := s.setSize n (rest - fragOverhead)
    let s := s.setEndSize n (s.fragSize n)
    let s := s.setRealUsed (wadd s.qm.realUsed fragOverhead)
    (s.qmInsertFree n).map (·, 0)
  else some (s, -1)

/-- The counters `qm_malloc` updates for the fragment it returns. -/
def countAlloc (f : Nat) : Heap :=
  let realUsed := wadd s.qm.realUsed (s.fragSize f)
  { s with qm := { s.qm with
      realUsed := realUsed
      used := wadd s.qm.used (s.fragSize f)
      maxRealUsed := if s.qm.maxRealUsed < realUsed then realUsed else s.qm.maxRealUsed } }

/-- `qm_malloc`: the heap after the call and the pointer returned. -/
def qmMalloc (size : Nat) : Option (Heap × Nat) := do
  let size := roundup size
  if size > wsub s.qm.size s.qm.realUsed then some (s, 0)
  else
    match ← s.qmFindFree size (qmHashSize - getHash size) with
    | none => some (s, 0)
    | some (hash, f) =>
      let s := s.qmDetachFree f
      let s := s.setNxtFree f 0
      let s := s.setNo hash (s.qm.no hash - 1)
      let (s, _) ← s.splitFrag f size
      some (s.countAlloc f, f + sizeofQmFrag)

/-- "join": the free fragment `n` leaves its bucket. With its size, and the overhead, the size grows. -/
def joinFrag (n size : Nat) : Heap × Nat :=
  let s := s.qmDetachFree n
  let size := size + (s.fragSize n + fragOverhead)
  let s := s.setRealUsed (wsub s.qm.realUsed fragOverhead)
  let hash := getHash (s.fragSize n)
  (s.setNo hash (s.qm.no hash - 1), size)

/-- The fragment behind `f` is joined if it is free. -/
def joinBehind (f size : Nat) : Heap × Nat :=
  let next := s.fragNext f
  if next < s.qm.lastFragEnd ∧ s.nxtFree next ≠ 0 then s.joinFrag next size else (s, size)

/-- The fragment in front of `f` is joined if it is free, and then takes the place of `f`. -/
def joinBefore (f size : Nat) : Heap × Nat × Nat :=
  if f > s.qm.firstFrag then
    let prev := s.fragPrev f
    if s.nxtFree prev ≠ 0 then
      let (s, size) := s.joinFrag prev size
      (s, prev, size)
    else (s, f, size)
  else (s, f, size)

/-- "join packets if possible": the part of `qm_free` under `QM_JOIN_FREE`. -/
def joinPackets (f : Nat) : Heap × Nat :=
  let (s, size) := s.joinBehind f (s.fragSize f)
  let (s, f, size) := s.joinBefore f size
  let s := s.setSize f size
  (s.setEndSize f (s.fragSize f), f)

def qmFree (joinFree : Bool) (s : Heap) (p : Nat) : Option Heap :=
  if p = 0 then some s
  else
    let f := p - sizeofQmFrag
    let size := s.fragSize f
    let s := s.setUsed (wsub s.qm.used size)
    let s := s.setRealUsed (wsub s.qm.realUsed size)
    let (s, f) := if joinFree then s.joinPackets f else (s, f)
    s.qmInsertFree f

/-- "update used sizes: freed the spitted frag". -/
def countShrink (f origSize : Nat) : Heap :=
  { s with qm := { s.qm with
      realUsed := wsub s.qm.realUsed (wsub (wsub origSize (s.fragSize f)) fragOverhead)
      used := wsub s.qm.used (wsub origSize (s.fragSize f)) } }

/-- The shrinking branch of `qm_realloc`. The counters are updated when `split_frag` fails. -/
def reallocShrink (f size : Nat) : Option Heap := do
  let origSize := s.fragSize f
  let (s, ret) ← s.splitFrag f size
  some (if ret ≠ 0 then s.countShrink f origSize else s)

/-- The fragment `n` leaves its bucket and becomes a part of `f`. -/
def joinNext (f n : Nat) : Heap :=
  let s := s.qmDetachFree n
  let hash := getHash (s.fragSize n)
  let s := s.setNo hash (s.qm.no hash - 1)
  let s := s.setSize f (s.fragSize f + (s.fragSize n + fragOverhead))
  let s := s.setRealUsed (wsub s.qm.realUsed fragOverhead)
  s.setEndSize f (s.fragSize f)

/-- "split it if necessary". -/
def trim (f size : Nat) : Option Heap :=
  if s.fragSize f > size then (s.splitFrag f size).map Prod.fst else some s

/-- The counters of a joining `qm_realloc`. -/
def countGrow (f origSize : Nat) : Heap :=
  { s with qm := { s.qm with
      realUsed := wadd s.qm.realUsed (wsub (s.fragSize f) origSize)
      used := wadd s.qm.used (wsub (s.fragSize f) origSize) } }

/-- The joining branch of `qm_realloc`: `f` takes over the free fragment `n` behind it. -/
def reallocJoin (f n size : Nat) : Option Heap := do
  let origSize := s.fragSize f
  let s ← (s.joinNext f n).trim f size
  some (s.countGrow f origSize)

/-- The copying branch of `qm_realloc`. -/
def reallocMove (joinFree : Bool) (s : Heap) (p origSize size : Nat) : Option (Heap × Nat) := do
  let (s, ptr) ← s.qmMalloc size
  if ptr ≠ 0 then
    (qmFree joinFree (s.setMem (memcpy s.mem ptr p (origSize / 8))) p).map (·, ptr)
  else some (s, ptr)

/-- `qm_realloc` can grow `f` to `size` by joining it with the fragment behind it. -/
def CanJoin (f size : Nat) : Prop :=
  s.fragNext f < s.qm.lastFragEnd ∧ s.nxtFree (s.fragNext f) ≠ 0 ∧
    s.fragSize (s.fragNext f) + fragOverhead ≥ size - s.fragSize f

instance (s : Heap) (f size : Nat) : Decidable (s.CanJoin f size) := inferInstanceAs (Decidable (_ ∧ _))

def qmRealloc (joinFree : Bool) (s : Heap) (p size : Nat) : Option (Heap × Nat) :=
  if size = 0 then
    if p ≠ 0 then (s.qmFree joinFree p).map (·, 0) else some (s, 0)
  else if p = 0 then s.qmMalloc size
  else
    let f := p - sizeofQmFrag
    let size := roundup size
    if s.fragSize f > size then (s.reallocShrink f size).map (·, p)
    else if s.fragSize f < size then
      if s.CanJoin f size then (s.reallocJoin f (s.fragNext f) size).map (·, p)
      else s.reallocMove joinFree p (s.fragSize f) size
    else some (s, p)

end Heap

end OpenSer.Mem.QM
