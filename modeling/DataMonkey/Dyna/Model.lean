import DataMonkey.Lib.Runs

/- The dynamic array of `dyna.c`, with the memory that `malloc` and `realloc` gave it.

   The slot array is a block of so many bytes. A slot is 8 bytes wide and is read or written
   only if the block covers it whole, otherwise the access is a `Fault`; `realloc` keeps the
   slots that both blocks cover. What lies in fresh memory is the library's choice, and so is
   a slot in which the old block ends: its first half is kept, its second half is fresh. The
   answer to a request for 0 bytes is the library's choice as well: a block without slots, or
   NULL, and then `realloc` has freed the array while `dyna->array` still points to it.

   Correspondence (C ↔ Lean):
     `dyna_array`, `index_p`          ↔ `DynaArray`, `IndexP`
     `DSTATUS`                        ↔ `Dstatus`
     `dyna_init`                      ↔ `dynaInit`
     `dyna_get`, `dyna_insert`        ↔ `dynaGet`, `dynaInsert`
     `dyna_delete`                    ↔ `dynaDelete`
     `dyna_grow`, `dyna_grow_to`      ↔ `dynaGrow`, `dynaGrowTo`
     `dyna_shrink`                    ↔ `dynaShrink`

   `index_t` is a 32-bit unsigned integer and wraps; byte counts are of type `size_t` and
   never reach its bound. An element is an `Option E` with `none` for NULL. The growth loop of
   `dyna_insert` takes as many rounds as its `fuel` allows: it can run for ever. -/
namespace DataMonkey.Dyna

inductive Dstatus where
  | success
  | failure
  | grow
  | check
  | def_
  deriving DecidableEq, Repr

/-- What a call can run into instead of returning. -/
inductive Fault where
  | nullPointer  -- the array, or the structure, is NULL
  | freedBlock   -- the array was freed by a `realloc` to 0 bytes
  | slotBound    -- a slot that the block of the array does not cover
  | endless      -- the growth loop made more rounds than it was given
  deriving DecidableEq, Repr

def sizeofDataP : Nat := 8
def sizeofDataT : Nat := 4

/-- Memory from `malloc` or `realloc`, seen as an array of slots. -/
structure Block (E : Type) where
  bytes : Nat
  slot : Nat → Option E

/-- What `dyna->array` points to. -/
inductive IndexP (E : Type) where
  | null
  | freed
  | block (b : Block E)

structure DynaArray (E : Type) where
  array : IndexP E
  indexLength : UInt32
  lastIndex : UInt32

/-- A dyna, the byte count last passed to `malloc` or `realloc` for its array, the number of
    allocations asked for, and the elements passed to `custom_free`, the latest first. -/
structure State (E : Type) where
  dyna : DynaArray E
  asked : Nat
  requests : Nat
  released : List (Option E)

/-- What the C library leaves open, by request and slot: whether 0 bytes are answered with NULL,
    what lies in fresh memory, and what is read from a slot in which the old block ended. -/
structure Library (E : Type) where
  emptyNull : Nat → Bool
  junk : Nat → Nat → Option E
  torn : Nat → Nat → Option E

/-- A library, and which requests it has the memory for. -/
structure Allocator (E : Type) extends Library E where
  grants : Nat → Bool

/-- There is memory for every request. -/
def granting {E : Type} (lib : Library E) : Allocator E := { lib with grants := fun _ => true }

variable {E : Type}

/-- A library with a block for 0 bytes, and NULL wherever its memory is read first. -/
def clean : Library E := ⟨fun _ => false, fun _ _ => none, fun _ _ => none⟩

/-! ## Memory accesses -/

def Block.covers (b : Block E) (i : Nat) : Prop := sizeofDataP * (i + 1) ≤ b.bytes

instance (b : Block E) (i : Nat) : Decidable (b.covers i) := inferInstanceAs (Decidable (_ ≤ _))

/-- The block ends within slot `i`. -/
def Block.cuts (b : Block E) (i : Nat) : Prop :=
  sizeofDataP * i < b.bytes ∧ b.bytes < sizeofDataP * (i + 1)

instance (b : Block E) (i : Nat) : Decidable (b.cuts i) := inferInstanceAs (Decidable (_ ∧ _))

def Block.read (b : Block E) (i : Nat) : Except Fault (Option E) :=
  if b.covers i then .ok (b.slot i) else .error .slotBound

def Block.write (b : Block E) (i : Nat) (v : Option E) : Except Fault (Block E) :=
  if b.covers i then .ok { b with slot := fun j => if j = i then v else b.slot j }
  else .error .slotBound

/-- `dyna->array`, which is followed next. -/
def arrayOf (d : DynaArray E) : Except Fault (Block E) :=
  match d.array with
  | .null => .error .nullPointer
  | .freed => .error .freedBlock
  | .block b => .ok b

/-- The request is answered with a block. -/
def Allocator.gives (al : Allocator E) (request bytes : Nat) : Bool :=
  al.grants request && !(bytes == 0 && al.emptyNull request)

/-- `malloc(bytes)`: the block, `none` for NULL. -/
def malloc (al : Allocator E) (request bytes : Nat) : Option (Block E) :=
  if al.gives request bytes then some ⟨bytes, al.junk request⟩ else none

/-- The contents of `old` in a block of another size. -/
def Block.moved (old : Block E) (lib : Library E) (request bytes : Nat) : Block E where
  bytes := bytes
  slot i :=
    if old.covers i then old.slot i
    else if old.cuts i then lib.torn request i
    else lib.junk request i

/-- `realloc(dyna->array, bytes)`: the new block, `none` for NULL. NULL leaves the old block as
    it was, unless 0 bytes were asked for and are answered so: then the old block is freed. -/
def realloc (al : Allocator E) (st : State E) (bytes : Nat) :
    Except Fault (Option (Block E) × State E) :=
  let request := st.requests
  let st' := { st with asked := bytes, requests := request + 1 }
  match st.dyna.array with
  | .freed => .error .freedBlock
  | .null => .ok (malloc al request bytes, st')
  | .block old =>
    if al.gives request bytes then .ok (some (old.moved al.toLibrary request bytes), st')
    else if bytes = 0 ∧ al.emptyNull request then .ok (none, { st' with dyna.array := .freed })
    else .ok (none, st')

/-! ## The operations -/

/-- Neither `malloc` is checked: a failed one leaves NULL behind, which for the structure is
    followed at once. -/
def dynaInit (al : Allocator E) (initalSize : UInt32) : Except Fault (State E) :=
  if al.grants 0 then
    let bytes := sizeofDataP * initalSize.toNat
    let array := match malloc al 1 bytes with
      | none => .null
      | some b => .block b
    .ok { dyna := { array := array, indexLength := initalSize, lastIndex := 0 }
          asked := bytes, requests := 2, released := [] }
  else .error .nullPointer

def dynaGet (st : State E) (requestedIndex : UInt32) : Except Fault (Option E) := do
  let b ← arrayOf st.dyna
  b.read requestedIndex.toNat

/-- `array = new_array; index_length = size` -/
def State.adopt (st : State E) (b : Block E) (size : UInt32) : State E :=
  { st with dyna := { st.dyna with array := .block b, indexLength := size } }

/-- The new length that `dyna_grow` computes. -/
def nextLength (n : UInt32) : UInt32 := (n >>> 3) + (if n < 9 then 3 else 6) + n

def dynaGrow (al : Allocator E) (st : State E) : Except Fault (Dstatus × State E) := do
  let newSize := nextLength st.dyna.indexLength
  let (newArray, st) ← realloc al st (sizeofDataT * newSize.toNat)
  match newArray with
  | none => .ok (.failure, st)
  | some b => .ok (.success, st.adopt b newSize)

def dynaGrowTo (al : Allocator E) (st : State E) (size : UInt32) :
    Except Fault (Dstatus × State E) := do
  if size ≤ st.dyna.indexLength then .ok (.failure, st)
  else
    let (newArray, st) ← realloc al st (sizeofDataT * size.toNat)
    match newArray with
    | none => .ok (.failure, { st with dyna.array := .null })
    | some b => .ok (.success, st.adopt b size)

/-- A length of 0 or 1 goes to the `error` label, like a failed `realloc`. -/
def dynaShrink (al : Allocator E) (st : State E) : Except Fault (Dstatus × State E) := do
  let newSize := st.dyna.indexLength / 2
  if newSize = 0 then .ok (.failure, { st with dyna.array := .null })
  else
    let (newArray, st) ← realloc al st (sizeofDataT * newSize.toNat)
    match newArray with
    | none => .ok (.failure, { st with dyna.array := .null })
    | some b => .ok (.success, st.adopt b newSize)

/-- `while(requested_index > dyna->index_length)`: grow, or give up if that fails. -/
def growLoop (al : Allocator E) (requestedIndex : UInt32) :
    Nat → State E → Except Fault (Dstatus × State E)
  | 0, _ => .error .endless
  | fuel + 1, st =>
    if st.dyna.indexLength < requestedIndex then do
      let (s, st) ← dynaGrow al st
      if s = .failure then .ok (.failure, st) else growLoop al requestedIndex fuel st
    else .ok (.success, st)

/-- The `switch` of `dyna_insert`: `FAILURE` here is returned at once. -/
def prepare (al : Allocator E) (fuel : Nat) (st : State E) (requestedIndex : UInt32) :
    Dstatus → Except Fault (Dstatus × State E)
  | .grow => growLoop al requestedIndex fuel st
  | .check => .ok (if st.dyna.indexLength < requestedIndex then .failure else .success, st)
  | _ => .ok (.success, st)

def dynaInsert (al : Allocator E) (fuel : Nat) (st : State E) (requestedIndex : UInt32)
    (userData : Option E) (modifier : Dstatus) : Except Fault (Dstatus × State E) := do
  let (s, st) ← prepare al fuel st requestedIndex modifier
  if s = .failure then .ok (.failure, st)
  else
    let d := st.dyna
    let last := if d.lastIndex < requestedIndex then requestedIndex else d.lastIndex
    let b ← arrayOf d
    let b ← b.write requestedIndex.toNat userData
    .ok (.success, { st with dyna := { d with array := .block b, lastIndex := last } })

/-- `while(i > 0 && array[--i] != NULL)`, from `i`. -/
def retreat (b : Block E) : Nat → Except Fault Nat
  | 0 => .ok 0
  | i + 1 => do
    let v ← b.read i
    if v.isSome then retreat b i else .ok i

/-- The slot that `dyna_delete` empties. Deleting at the last index moves its variable down
    first, so that it is another slot which is released. -/
def emptied (b : Block E) (d : DynaArray E) (requestedIndex : UInt32) : Except Fault Nat :=
  if d.lastIndex = requestedIndex then retreat b requestedIndex.toNat
  else .ok requestedIndex.toNat

def dynaDelete (st : State E) (requestedIndex : UInt32) : Except Fault (Dstatus × State E) := do
  let d := st.dyna
  if d.lastIndex < requestedIndex then .ok (.failure, st)
  else
    let b ← arrayOf d
    let v ← b.read requestedIndex.toNat
    if v.isNone then .ok (.failure, st)
    else
      let i ← emptied b d requestedIndex
      let last := if d.lastIndex = requestedIndex then UInt32.ofNat i else d.lastIndex
      let w ← b.read i
      let b ← b.write i none
      .ok (.success,
        { st with dyna := { d with array := .block b, lastIndex := last }
                  released := w :: st.released })

/-! ## Sequences of calls -/

inductive Call (E : Type) where
  | insert (requestedIndex : UInt32) (userData : Option E) (modifier : Dstatus)
  | delete (requestedIndex : UInt32)
  | grow
  | growTo (size : UInt32)
  | shrink

def dynaStep (al : Allocator E) (fuel : Nat) (st : State E) :
    Call E → Except Fault (Dstatus × State E)
  | .insert i v m => dynaInsert al fuel st i v m
  | .delete i => dynaDelete st i
  | .grow => dynaGrow al st
  | .growTo size => dynaGrowTo al st size
  | .shrink => dynaShrink al st

end DataMonkey.Dyna
