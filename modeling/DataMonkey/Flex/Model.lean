import Mathlib.Algebra.Group.Nat.Defs
import DataMonkey.Lib.Runs
import DataMonkey.Lib.Store

/- The flexible array of `flex.c`, over an explicit heap of data blocks.

   A flex is an index of pointers to data blocks and eight counters. Blocks live in a heap,
   the index is the list of the slots that were really allocated for it, and every slot and
   every cell that a function touches is checked: what C leaves undefined is a `Fault`.

   Correspondence (C ↔ Lean):
     `flex_array`, `DSTATUS`                          ↔ `FlexArray`, `Dstatus`
     `CEILING`, `LEADINGBIT`, `BITLAST`, `BITSUBSET`  ↔ `ceiling`, `leadingBit`, `bitLast`, `bitSubset`
     `r`, `k`, `b`, `e`, `p` of the four accessors    ↔ `locate`
     `flex_init`                                      ↔ `flexInit`, `fresh`
     `flex_grow`, `flex_shrink`                       ↔ `flexGrow`, `flexShrink`
     `flex_get`, `flex_insert`                        ↔ `flexGet`, `flexInsert`
     `flex_compare`, `flex_delete`                    ↔ `flexCompare`, `flexDelete`
     `default_cmp`                                    ↔ `defaultCmp`

   `index_t` is 64 bits wide and `int` 32. The counters count cells, blocks and calls and are
   natural numbers: no memory holds 2^64 of them. Subtractions on them wrap as in C, and so
   does `requested_index + 1`. Whether an allocation succeeds is the choice of `grants`, asked
   with the number of the request. A data block is asked for with 8 bytes a cell, which is more
   than an `int` needs; the model gives it just the cells it was asked for. -/
namespace DataMonkey.Flex

inductive Dstatus where
  | success
  | failure
  | eql
  | neql
  | lt
  | gt
  deriving DecidableEq, Repr

/-- What a call can run into instead of returning. -/
inductive Fault where
  | clzZero     -- `__builtin_clzl(0)`
  | shiftRange  -- `1 << n` for an `n` of 31 or more
  | indexBound  -- a slot past the end of the index
  | unwritten   -- a slot of the index that was never written
  | freedBlock  -- a data block that is no longer allocated
  | cellBound   -- a cell past the end of its block
  | endless     -- the growth loop made more rounds than there are cells to reach
  deriving DecidableEq, Repr

abbrev Addr := Nat

/-- A pointer that `free` or an accessor hands around. -/
inductive Ptr where
  | flex
  | index
  | cell (block : Addr) (e : Nat)
  deriving DecidableEq, Repr

/-- The installed `free_func`: `default_free`, which frees the pointer, or the caller's. -/
inductive FreeFunc where
  | defaultFree
  | custom
  deriving DecidableEq, Repr

/-- `indexBlock` lists the slots allocated for the index, `none` where none was stored. -/
structure FlexArray where
  freeFunc : FreeFunc
  cmpFunc : Int32 → Int32 → Dstatus
  indexBlock : List (Option Addr)
  numUserElementsInserted : Nat
  usableDataBlocks : Nat
  indexLength : Nat
  numSuperBlocks : Nat
  lastIndexOccup : Nat
  lastDataSize : Nat
  lastSuperSize : Nat
  lastSuperOccup : Nat

/-- A flex, the heap of its data blocks, the number of allocations asked for so far, and
    the pointers passed to `free`, the latest first. -/
structure State where
  flex : FlexArray
  heap : Store (List Int32)
  requests : Nat
  freed : List Ptr

/-- `a - b` on `index_t` -/
def sub64 (a b : Nat) : Nat := if b ≤ a then a - b else a + 2 ^ 64 - b

/-! ## The address of an index -/

def ceiling (x y : Nat) : Nat := (x + y - 1) / y

/-- `sizeof(index_t)*8 - __builtin_clzl(r)-1` -/
def leadingBit (r : Nat) : Except Fault Nat :=
  if r = 0 then .error .clzZero else .ok (64 - (63 - r.log2) - 1)

/-- `1 << n`, an `int` -/
def intShift (n : Nat) : Except Fault Nat :=
  if n < 31 then .ok (1 <<< n) else .error .shiftRange

def bitLast (k n : Nat) : Except Fault Nat := do
  let m ← intShift n
  .ok (k &&& (m - 1))

def bitSubset (k m n : Nat) : Except Fault Nat := bitLast (k >>> m) (n - m)

/-- The block `p + b` and the cell `e` of an index. -/
def locate (requestedIndex : Nat) : Except Fault (Nat × Nat) := do
  let r := (requestedIndex + 1) % 2 ^ 64
  let k ← leadingBit r
  let b ← bitSubset r (k - k / 2) k
  let e ← bitSubset r 0 (ceiling k 2)
  let s ← intShift (k / 2 + 1)
  let t ← intShift (k / 2)
  let p := s - 2 + (k &&& 1) * t
  .ok (p + b, e)

/-! ## Memory accesses -/

/-- `index_block[x]` -/
def slot (f : FlexArray) (x : Nat) : Except Fault Addr :=
  match f.indexBlock[x]? with
  | none => .error .indexBound
  | some none => .error .unwritten
  | some (some a) => .ok a

def load (heap : Store (List Int32)) (a : Addr) : Except Fault (List Int32) :=
  match heap.cell a with
  | none => .error .freedBlock
  | some c => .ok c

/-- Reading and writing `index_block[x][e]`. -/
def readCell (st : State) (x e : Nat) : Except Fault Int32 := do
  let a ← slot st.flex x
  let vs ← load st.heap a
  match vs[e]? with
  | none => .error .cellBound
  | some v => .ok v

def writeCell (st : State) (x e : Nat) (v : Int32) : Except Fault State := do
  let a ← slot st.flex x
  let c ← load st.heap a
  if e < c.length then .ok { st with heap := st.heap.write a (c.set e v) }
  else .error .cellBound

/-- `free(index_block[x])`, of a block at `a` -/
def freeBlock (st : State) (a : Addr) : Except Fault State := do
  let _ ← load st.heap a
  .ok { st with heap := st.heap.free a, freed := .cell a 0 :: st.freed }

/-- `realloc(index_block, sizeof(index_p) * index_length)` -/
def resizeIndex (grants : Nat → Bool) (st : State) : Bool × State :=
  let len := st.flex.indexLength
  let old := st.flex.indexBlock
  if grants st.requests then
    (true, { st with flex.indexBlock := old.take len ++ List.replicate (len - old.length) none
                     requests := st.requests + 1 })
  else (false, { st with requests := st.requests + 1 })

/-! ## Creating, growing and shrinking -/

def defaultCmp (a b : Int32) : Dstatus :=
  if a = b then .eql else if a < b then .lt else .gt

/-- What `flex_init` returns when its allocations succeed; `junk` is what `malloc` left in
    the one cell of the first block. -/
def fresh (junk : Int32) : State where
  flex :=
    { freeFunc := .defaultFree, cmpFunc := defaultCmp, indexBlock := [some 0]
      lastIndexOccup := 0, indexLength := 1, lastDataSize := 1, numSuperBlocks := 1
      lastSuperSize := 1, lastSuperOccup := 0, usableDataBlocks := 1
      numUserElementsInserted := 0 }
  heap := Store.empty.alloc [junk]
  requests := 3
  freed := []

def flexInit (grants : Nat → Bool) (junk : Int32) : Option State :=
  if grants 0 && grants 1 && grants 2 then some (fresh junk) else none

example (junk : Int32) : flexInit (fun _ => true) junk = some (fresh junk) := rfl

/-- The counters of `flex_grow` up to `last_index_occup++`. -/
def enterBlock (f : FlexArray) : FlexArray :=
  let f := { f with lastSuperOccup := f.lastSuperOccup + 1 }
  let f :=
    if f.lastSuperOccup = f.lastSuperSize then
      let f := { f with numSuperBlocks := f.numSuperBlocks + 1 }
      let f :=
        if f.numSuperBlocks % 2 = 1 then { f with lastSuperSize := f.lastSuperSize * 2 }
        else { f with lastDataSize := f.lastDataSize * 2 }
      { f with lastSuperOccup := 0 }
    else f
  { f with lastIndexOccup := f.lastIndexOccup + 1 }

/-- `if (index_length == last_index_occup)`: double the index. -/
def growIndex (grants : Nat → Bool) (st : State) : Bool × State :=
  if st.flex.indexLength = st.flex.lastIndexOccup then
    resizeIndex grants { st with flex.indexLength := st.flex.indexLength * 2 }
  else (true, st)

/-- The new data block, zeroed cell by cell, and the rest of `flex_grow`. -/
def addBlock (grants : Nat → Bool) (st : State) : Except Fault (Dstatus × State) :=
  let f := st.flex
  if grants st.requests then
    if f.lastIndexOccup < f.indexBlock.length then
      .ok (.success,
        { st with
            flex := { f with
              usableDataBlocks := f.usableDataBlocks + f.lastDataSize
              indexBlock := f.indexBlock.set f.lastIndexOccup (some st.heap.next)
              numUserElementsInserted := f.numUserElementsInserted + 1 }
            heap := st.heap.alloc (List.replicate f.lastDataSize 0)
            requests := st.requests + 1 })
    else .error .indexBound
  else .ok (.failure, { st with requests := st.requests + 1 })

def flexGrow (grants : Nat → Bool) (st : State) : Except Fault (Dstatus × State) :=
  let f := st.flex
  if f.numUserElementsInserted = f.usableDataBlocks then
    let (granted, st) := growIndex grants { st with flex := enterBlock f }
    if granted then addBlock grants st else .ok (.failure, st)
  else
    .ok (.success, { st with flex.numUserElementsInserted := f.numUserElementsInserted + 1 })

/-- `if (last_index_occup * 2 == index_length)`: halve the index. -/
def shrinkIndex (grants : Nat → Bool) (st : State) : Bool × State :=
  if st.flex.lastIndexOccup * 2 = st.flex.indexLength then
    resizeIndex grants { st with flex.indexLength := ceiling st.flex.indexLength 2 }
  else (true, st)

/-- The counters of `flex_shrink` from `last_index_occup--` on. -/
def leaveBlock (f : FlexArray) : FlexArray :=
  let f := { f with lastIndexOccup := sub64 f.lastIndexOccup 1 }
  let f :=
    if 0 = f.lastSuperOccup then
      let f := { f with numSuperBlocks := sub64 f.numSuperBlocks 1 }
      let f :=
        if f.numSuperBlocks % 2 = 1 then { f with lastDataSize := f.lastDataSize / 2 }
        else { f with lastSuperSize := f.lastSuperSize / 2 }
      { f with lastSuperOccup := sub64 f.lastSuperSize 1 }
    else { f with lastSuperOccup := sub64 f.lastSuperOccup 1 }
  { f with numUserElementsInserted := sub64 f.numUserElementsInserted 1 }

/-- The test of `flex_shrink` for giving up the last block. -/
def frees (f : FlexArray) : Prop :=
  f.numUserElementsInserted ≠ 1 ∧
    sub64 f.usableDataBlocks f.lastDataSize = sub64 f.numUserElementsInserted 1

instance (f : FlexArray) : Decidable (frees f) := inferInstanceAs (Decidable (_ ∧ _))

/-- The branch that frees a block runs on into the `error` label and returns `FAILURE`. -/
def flexShrink (grants : Nat → Bool) (st : State) : Except Fault (Dstatus × State) :=
  let f := st.flex
  if f.numUserElementsInserted = 0 then .ok (.failure, st)
  else if frees f then do
    let a ← slot f f.lastIndexOccup
    let st ← freeBlock st a
    let st := { st with flex.usableDataBlocks := sub64 f.usableDataBlocks f.lastDataSize }
    let (granted, st) := shrinkIndex grants st
    if granted then .ok (.failure, { st with flex := leaveBlock st.flex })
    else .ok (.failure, st)
  else
    .ok (.success,
      { st with flex.numUserElementsInserted := sub64 f.numUserElementsInserted 1 })

/-! ## The accessors -/

/-- `&index_block[p+b][e]`, or NULL past the last block -/
def flexGet (st : State) (requestedIndex : Nat) : Except Fault (Option Ptr) := do
  let (x, e) ← locate requestedIndex
  if st.flex.lastIndexOccup < x then .ok none
  else
    let a ← slot st.flex x
    .ok (some (.cell a e))

/-- `while (p+b > last_index_occup) flex_grow(flex)` -/
def growTo (grants : Nat → Bool) (x : Nat) : Nat → State → Except Fault (Dstatus × State)
  | 0, _ => .error .endless
  | fuel + 1, st =>
    if st.flex.lastIndexOccup < x then do
      let (status, st) ← flexGrow grants st
      if status = .success then growTo grants x fuel st else .ok (.failure, st)
    else .ok (.success, st)

/-- Every round of the loop counts one more element, so `requested_index + 2` tests are
    enough to reach the block. -/
def flexInsert (grants : Nat → Bool) (st : State) (requestedIndex : Nat) (userData : Int32) :
    Except Fault (Dstatus × State) := do
  let (x, e) ← locate requestedIndex
  let (status, st) ← growTo grants x (requestedIndex + 2) st
  if status = .success then
    let st ← writeCell st x e userData
    .ok (.success, st)
  else .ok (.failure, st)

def flexCompare (st : State) (requestedIndex : Nat) (userData : Int32) : Except Fault Dstatus := do
  let (x, e) ← locate requestedIndex
  if st.flex.lastIndexOccup < x then .ok .failure
  else
    let v ← readCell st x e
    .ok (st.flex.cmpFunc v userData)

def flexDelete (st : State) (requestedIndex : Nat) : Except Fault (Dstatus × State) := do
  let (x, e) ← locate requestedIndex
  if st.flex.lastIndexOccup < x then .ok (.failure, st)
  else
    let st ← writeCell st x e 0
    .ok (.success, st)

/-- `*p` -/
def deref (st : State) : Ptr → Except Fault Int32
  | .cell a e => do
    let vs ← load st.heap a
    match vs[e]? with
    | none => .error .cellBound
    | some v => .ok v
  | _ => .error .cellBound

/-! ## Sequences of calls -/

/-- An index whose successor has its leading bit below bit 60. -/
abbrev Index := { i : Nat // i < 2 ^ 60 - 1 }

inductive Call where
  | insert (i : Index) (v : Int32)
  | delete (i : Index)
  | get (i : Index)
  | compare (i : Index) (v : Int32)
  | grow
  | shrink
  deriving DecidableEq

/-- What a call returns; for `flex_get` the value that its pointer points to. -/
inductive Reply where
  | status (s : Dstatus)
  | value (v : Option Int32)
  deriving DecidableEq, Repr

/-- The value that `flex_get` points to, `none` for NULL. -/
def getValue (st : State) (i : Nat) : Except Fault (Option Int32) := do
  match ← flexGet st i with
  | none => .ok none
  | some p =>
    let v ← deref st p
    .ok (some v)

def flexStep (grants : Nat → Bool) (st : State) : Call → Except Fault (Reply × State)
  | .insert i v => do
    let (s, st) ← flexInsert grants st i.val v
    .ok (.status s, st)
  | .delete i => do
    let (s, st) ← flexDelete st i.val
    .ok (.status s, st)
  | .get i => do
    let v ← getValue st i.val
    .ok (.value v, st)
  | .compare i v => do
    let s ← flexCompare st i.val v
    .ok (.status s, st)
  | .grow => do
    let (s, st) ← flexGrow grants st
    .ok (.status s, st)
  | .shrink => do
    let (s, st) ← flexShrink grants st
    .ok (.status s, st)

/-- Every allocation succeeds. -/
def granted : Nat → Bool := fun _ => true

/-- `flex_init()` and then the calls in order, with allocations that succeed. -/
def session (junk : Int32) (calls : List Call) : Except Fault (List Reply × State) :=
  Runs.run (flexStep granted) (fresh junk) calls

/-- The number of cells that block `x` was allocated with. -/
def blockLength (st : State) (x : Nat) : Nat :=
  (((st.flex.indexBlock[x]?).join.bind st.heap.cell).map List.length).getD 0

end DataMonkey.Flex
