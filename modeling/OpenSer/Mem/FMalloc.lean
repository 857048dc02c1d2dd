import OpenSer.Mem.Sizes

/-!
# The fast allocator

`f_malloc.c`, without `DBG_F_MALLOC` and with `STATISTICS`, on a 64-bit machine. Memory is a map from the address of a
word to its value; a fragment `f` has its `size` at `f` and its `nxt_free` at `f + 8`, and its payload from `f + 16` on.
The `struct fm_block` is a record beside it. A pointer to a pointer is a `Loc`: the `first` field of a bucket, or the
`nxt_free` field of a fragment.

Loops over a bucket take fuel, as much as the block has bytes; `none` is a loop that does not end or an `abort()`. The
counters are `unsigned long`s that wrap.
-/

namespace OpenSer.Mem.FM

def roundto : Nat := 8

/-- `FRAG_OVERHEAD`, `sizeof(struct fm_frag)`. -/
def fragOverhead : Nat := 16

def minFragSize : Nat := roundto

def fMallocOptimizeFactor : Nat := 14

def fMallocOptimize : Nat := 2 ^ 14

def fHashSize : Nat := fMallocOptimize / roundto + (64 - fMallocOptimizeFactor) + 1

/-- `sizeof(struct fm_block)`: six words and the buckets of two words each. -/
def sizeofFmBlock : Nat := 6 * 8 + fHashSize * 16

def roundup (s : Nat) : Nat := Mem.roundup roundto s

def rounddown (s : Nat) : Nat := Mem.rounddown roundto s

def getHash (s : Nat) : Nat := Mem.getHash roundto fMallocOptimizeFactor s

attribute [irreducible] getHash

/-- The residue of a fragment is big enough to be split off. -/
abbrev Splits (fsize size : Nat) : Prop := Mem.Splits fragOverhead fMallocOptimize fsize size

structure FragLnk where
  first : Nat := 0
  no : Nat := 0
  deriving Repr, DecidableEq

structure Block where
  size : Nat
  used : Nat := 0
  realUsed : Nat
  maxRealUsed : Nat
  firstFrag : Nat
  lastFrag : Nat
  freeHash : Nat → FragLnk := fun _ => {}

structure Heap where
  qm : Block
  mem : Nat → Nat

/-- A `struct fm_frag **`. -/
inductive Loc where
  | head (hash : Nat)
  | nxt (f : Nat)
  deriving Repr, DecidableEq

namespace Heap

variable (s : Heap)

open Function

def fragSize (f : Nat) : Nat := s.mem f

def nxtFree (f : Nat) : Nat := s.mem (f + 8)

def fragNext (f : Nat) : Nat := f + fragOverhead + s.fragSize f

def setSize (f v : Nat) : Heap := { s with mem := update s.mem f v }

def setNxtFree (f v : Nat) : Heap := { s with mem := update s.mem (f + 8) v }

def setFirst (hash v : Nat) : Heap :=
  { s with qm := { s.qm with freeHash := update s.qm.freeHash hash { s.qm.freeHash hash with first := v } } }

def setNo (hash v : Nat) : Heap :=
  { s with qm := { s.qm with freeHash := update s.qm.freeHash hash { s.qm.freeHash hash with no := v } } }

def setUsed (v : Nat) : Heap := { s with qm := { s.qm with used := v } }

def setRealUsed (v : Nat) : Heap := { s with qm := { s.qm with realUsed := v } }

def setMem (mem : Nat → Nat) : Heap := { s with mem := mem }

def deref : Loc → Nat
  | .head hash => (s.qm.freeHash hash).first
  | .nxt f => s.nxtFree f

def store (l : Loc) (v : Nat) : Heap :=
  match l with
  | .head hash => s.setFirst hash v
  | .nxt f => s.setNxtFree f v

/-- `for (; *f; f = &((*f)->u.nxt_free)) if (stop(*f)) break;` -/
def scan (s : Heap) (stop : Nat → Bool) : Nat → Loc → Option Loc
  | 0, _ => none
  | fuel + 1, f =>
    if s.deref f = 0 then some f else if stop (s.deref f) then some f else scan s stop fuel (.nxt (s.deref f))

def fuel : Nat := s.qm.size

/-- Where `fm_insert_free` inserts: large fragments are kept sorted. -/
def insertLoc (frag : Nat) : Option Loc :=
  let hash := getHash (s.fragSize frag)
  if s.fragSize frag > fMallocOptimize then s.scan (fun g => s.fragSize frag ≤ s.fragSize g) s.fuel (.head hash)
  else some (.head hash)

def fmInsertFree (frag : Nat) : Option Heap := do
  let hash := getHash (s.fragSize frag)
  let f ← s.insertLoc frag
  let s := s.setNxtFree frag (s.deref f)
  let s := s.store f frag
  some (s.setNo hash ((s.qm.freeHash hash).no + 1))

def fmSplitFrag (frag size : Nat) : Option Heap :=
  let rest := s.fragSize frag - size
  if Splits (s.fragSize frag) size then
    let s := s.setSize frag size
    let n := s.fragNext frag
    let s := s.setSize n (rest - fragOverhead)
    let s := s.setRealUsed (wadd s.qm.realUsed fragOverhead)
    s.fmInsertFree n
  else some s

def initOverhead : Nat := roundup sizeofFmBlock + fragOverhead

/-- The block `fm_malloc_init` lays out at `start`, before it links the initial fragment. -/
def initBlock (mem : Nat → Nat) (start size : Nat) : Heap :=
  let s : Heap :=
    { qm :=
        { size := size
          realUsed := initOverhead
          maxRealUsed := initOverhead
          firstFrag := start + roundup sizeofFmBlock
          lastFrag := start + size - fragOverhead }
      mem := mem }
  let s := s.setSize s.qm.firstFrag (size - initOverhead)
  s.setSize s.qm.lastFrag 0

/-- `fm_malloc_init`: `none` when it returns 0. -/
def fmMallocInit (mem : Nat → Nat) (address size : Nat) : Option Heap :=
  let start := roundup address
  if size < wsub start address then none
  else
    let size := size - wsub start address
    if size < minFragSize + fragOverhead then none
    else
      let size := rounddown size
      if size < initOverhead then none
      else
        let s := initBlock mem start size
        s.fmInsertFree s.qm.firstFrag

/-- The search of `fm_malloc` through the last `n` buckets. -/
def findFrag (s : Heap) (size : Nat) : Nat → Option (Option (Nat × Loc))
  | 0 => some none
  | n + 1 => do
    let hash := fHashSize - (n + 1)
    let f ← s.scan (fun g => s.fragSize g ≥ size) s.fuel (.head hash)
    if s.deref f ≠ 0 then some (some (hash, f)) else findFrag s size n

/-- The counters `fm_malloc` updates for the fragment it returns. -/
def countAlloc (frag : Nat) : Heap :=
  let realUsed := wadd s.qm.realUsed (s.fragSize frag)
  { s with qm := { s.qm with
      realUsed := realUsed
      used := wadd s.qm.used (s.fragSize frag)
      maxRealUsed := if s.qm.maxRealUsed < realUsed then realUsed else s.qm.maxRealUsed } }

/-- `fm_malloc`: the heap after the call and the pointer returned. -/
def fmMalloc (size : Nat) : Option (Heap × Nat) := do
  let size := roundup size
  match ← s.findFrag size (fHashSize - getHash size) with
  | none => some (s, 0)
  | some (hash, f) =>
    let frag := s.deref f
    let s := s.store f (s.nxtFree frag)
    let s := s.setNxtFree frag 0
    let s := s.setNo hash ((s.qm.freeHash hash).no - 1)
    let s ← s.fmSplitFrag frag size
    some (s.countAlloc frag, frag + fragOverhead)

def fmFree (p : Nat) : Option Heap :=
  if p = 0 then some s
  else
    let f := p - fragOverhead
    let size := s.fragSize f
    let s := s.setUsed (wsub s.qm.used size)
    let s := s.setRealUsed (wsub s.qm.realUsed size)
    s.fmInsertFree f

/-- The shrinking branch of `fm_realloc`. -/
def reallocShrink (f size : Nat) : Option Heap := do
  let origSize := s.fragSize f
  let s ← s.fmSplitFrag f size
  let s := s.setRealUsed (wsub s.qm.realUsed (wsub (wsub origSize (s.fragSize f)) fragOverhead))
  some (s.setUsed (wsub s.qm.used (wsub origSize (s.fragSize f))))

/-- The fragment `n`, to which `*pf` points, leaves its bucket and becomes a part of `f`. -/
def joinNext (hash : Nat) (pf : Loc) (f n : Nat) : Heap :=
  let s := s.store pf (s.nxtFree n)
  let s := s.setNo hash ((s.qm.freeHash hash).no - 1)
  let s := s.setSize f (s.fragSize f + (s.fragSize n + fragOverhead))
  s.setRealUsed (wsub s.qm.realUsed fragOverhead)

/-- "split it if necessary". -/
def trim (f size : Nat) : Option Heap := if s.fragSize f > size then s.fmSplitFrag f size else some s

/-- The joining branch of `fm_realloc`: `f` takes over the free fragment `n` behind it. -/
def reallocJoin (f n size : Nat) : Option Heap := do
  let origSize := s.fragSize f
  let hash := getHash (s.fragSize n)
  let pf ← s.scan (fun g => g = n) s.fuel (.head hash)
  -- `abort()` when the fragment is not in its bucket
  if s.deref pf = 0 then none
  else
    let s ← (s.joinNext hash pf f n).trim f size
    let s := s.setRealUsed (wadd s.qm.realUsed (wsub (s.fragSize f) origSize))
    some (s.setUsed (wadd s.qm.used (wsub (s.fragSize f) origSize)))

/-- The copying branch of `fm_realloc`. -/
def reallocMove (p origSize size : Nat) : Option (Heap × Nat) := do
  let (s, ptr) ← s.fmMalloc size
  if ptr ≠ 0 then
    ((s.setMem (memcpy s.mem ptr p (origSize / 8))).fmFree p).map (·, ptr)
  else some (s, ptr)

/-- `fm_realloc` can grow `f` to `size` by joining it with the fragment behind it. -/
def CanJoin (f size : Nat) : Prop :=
  s.fragNext f < s.qm.lastFrag ∧ s.nxtFree (s.fragNext f) ≠ 0 ∧
    s.fragSize (s.fragNext f) + fragOverhead ≥ size - s.fragSize f

instance (s : Heap) (f size : Nat) : Decidable (s.CanJoin f size) := inferInstanceAs (Decidable (_ ∧ _))

def fmRealloc (p size : Nat) : Option (Heap × Nat) :=
  if size = 0 then
    if p ≠ 0 then (s.fmFree p).map (·, 0) else some (s, 0)
  else if p = 0 then s.fmMalloc size
  else
    let f := p - fragOverhead
    let size := roundup size
    let origSize := s.fragSize f
    if s.fragSize f > size then (s.reallocShrink f size).map (·, p)
    else if s.fragSize f < size then
      if s.CanJoin f size then (s.reallocJoin f (s.fragNext f) size).map (·, p)
      else s.reallocMove p origSize size
    else some (s, p)

end Heap

end OpenSer.Mem.FM
