import Mathlib.Algebra.Group.Nat.Defs
import DataMonkey.Lib.Runs

/- The hash functions of `lookup3.c`, over a memory of bytes.

   A key is a range of bytes in memory. `hashlittle` and `hashbig` choose how to read it from
   the alignment of its address and from what the preprocessor found out about the machine; a
   byte that may not be read and an access that is not aligned are a `Fault`.

   Correspondence (C ↔ Lean):
     `rot`, `mix`, `final`                  ↔ `rot`, `mix`, `final`
     `hashsize`, `hashmask`                 ↔ `hashsize`, `hashmask`
     `a += ...` with what it reads          ↔ `Stmt`, `Operand`
     `switch(length)` with its fall-through ↔ `Case`, `switch`
     the loop and the last block            ↔ `absorb`, `digestKey`
     `hashword`, `hashword2`                ↔ `hashword`, `hashword2`
     `hashlittle`, `hashlittle2`            ↔ `hashlittle`, `hashlittle2`
     `hashbig`                              ↔ `hashbig`

   `uint32_t` is `UInt32`, a `size_t` length a natural number that is cast to 32 bits where the
   code casts it. The two functions that return two hashes get and return both as values. -/
namespace DataMonkey.Lookup3

/-- What a call can run into instead of returning. -/
inductive Fault where
  | unmapped    -- a byte outside of the memory that may be read
  | misaligned  -- a read of 2 or 4 bytes at an address that is no multiple of that
  | endless     -- more blocks than the length has
  deriving DecidableEq, Repr

/-- The byte at each address, `none` where it may not be read. -/
abbrev Memory := Nat → Option UInt8

inductive Order where
  | little
  | big
  deriving DecidableEq, Repr

/-- What the file is compiled for: the byte order of the machine, whether the preprocessor
    finds it out, and whether `VALGRIND` is defined. -/
structure Platform where
  order : Order
  known : Bool
  valgrind : Bool

/-- `HASH_LITTLE_ENDIAN` and `HASH_BIG_ENDIAN`; the guess is right when one is made. -/
def Platform.hashLittleEndian (pf : Platform) : Bool := pf.known && pf.order = .little
def Platform.hashBigEndian (pf : Platform) : Bool := pf.known && pf.order = .big

/-- The internal state. -/
@[ext] structure Abc where
  a : UInt32
  b : UInt32
  c : UInt32
  deriving DecidableEq, Repr

def hashsize (n : UInt32) : UInt32 := 1 <<< n
def hashmask (n : UInt32) : UInt32 := hashsize n - 1

def rot (x k : UInt32) : UInt32 := (x <<< k) ||| (x >>> (32 - k))

def mix (s : Abc) : Abc :=
  let ⟨a, b, c⟩ := s
  let a := a - c; let a := a ^^^ rot c 4;  let c := c + b
  let b := b - a; let b := b ^^^ rot a 6;  let a := a + c
  let c := c - b; let c := c ^^^ rot b 8;  let b := b + a
  let a := a - c; let a := a ^^^ rot c 16; let c := c + b
  let b := b - a; let b := b ^^^ rot a 19; let a := a + c
  let c := c - b; let c := c ^^^ rot b 4;  let b := b + a
  ⟨a, b, c⟩

def final (s : Abc) : Abc :=
  let ⟨a, b, c⟩ := s
  let c := c ^^^ b; let c := c - rot b 14
  let a := a ^^^ c; let a := a - rot c 11
  let b := b ^^^ a; let b := b - rot a 25
  let c := c ^^^ b; let c := c - rot b 16
  let a := a ^^^ c; let a := a - rot c 4
  let b := b ^^^ a; let b := b - rot a 14
  let c := c ^^^ b; let c := c - rot b 24
  ⟨a, b, c⟩

/-! ## Reading memory -/

def load8 (mem : Memory) (q : Nat) : Except Fault UInt32 :=
  match mem q with
  | none => .error .unmapped
  | some x => .ok x.toUInt32

def load16 (pf : Platform) (mem : Memory) (q : Nat) : Except Fault UInt32 :=
  if q % 2 = 0 then do
    let x₀ ← load8 mem q
    let x₁ ← load8 mem (q + 1)
    match pf.order with
    | .little => .ok (x₀ + x₁ <<< 8)
    | .big => .ok (x₀ <<< 8 + x₁)
  else .error .misaligned

/-- The value of four bytes that are read at once. -/
def wordOf (order : Order) (x₀ x₁ x₂ x₃ : UInt32) : UInt32 :=
  match order with
  | .little => x₀ + x₁ <<< 8 + x₂ <<< 16 + x₃ <<< 24
  | .big => x₀ <<< 24 + x₁ <<< 16 + x₂ <<< 8 + x₃

def load32 (pf : Platform) (mem : Memory) (q : Nat) : Except Fault UInt32 :=
  if q % 4 = 0 then do
    let x₀ ← load8 mem q
    let x₁ ← load8 mem (q + 1)
    let x₂ ← load8 mem (q + 2)
    let x₃ ← load8 mem (q + 3)
    .ok (wordOf pf.order x₀ x₁ x₂ x₃)
  else .error .misaligned

/-! ## Statements and switches -/

inductive Reg where
  | a
  | b
  | c
  deriving DecidableEq

/-- What is added to a register, read from a pointer to bytes, to 16 or to 32 bits. -/
inductive Operand where
  | byte (i : Nat) (shift : UInt32)  -- `((uint32_t)k8[i])<<shift`
  | half (i : Nat) (shift : UInt32)  -- `((uint32_t)k[i])<<shift`
  | word (i : Nat) (mask : UInt32)   -- `k[i]&mask`
  deriving DecidableEq

/-- `reg += x + y + ..` -/
structure Stmt where
  reg : Reg
  operands : List Operand

def Operand.read (pf : Platform) (mem : Memory) (k : Nat) : Operand → Except Fault UInt32
  | .byte i shift => do
    let x ← load8 mem (k + i)
    .ok (x <<< shift)
  | .half i shift => do
    let x ← load16 pf mem (k + 2 * i)
    .ok (x <<< shift)
  | .word i mask => do
    let x ← load32 pf mem (k + 4 * i)
    .ok (x &&& mask)

def Abc.add (s : Abc) (x : UInt32) : Reg → Abc
  | .a => { s with a := s.a + x }
  | .b => { s with b := s.b + x }
  | .c => { s with c := s.c + x }

def Stmt.exec (pf : Platform) (mem : Memory) (k : Nat) (s : Abc) (t : Stmt) : Except Fault Abc :=
  t.operands.foldlM (fun s o => do
    let x ← o.read pf mem k
    .ok (s.add x t.reg)) s

def execAll (pf : Platform) (mem : Memory) (k : Nat) (s : Abc) (ts : List Stmt) :
    Except Fault Abc :=
  ts.foldlM (Stmt.exec pf mem k) s

/-- `case label: body`, with or without a `break` behind it. -/
structure Case where
  label : Nat
  body : List Stmt
  stop : Bool

/-- What is executed from a case on: the cases fall through up to a `break`. -/
def fallThrough : List Case → List Stmt
  | [] => []
  | c :: cs => c.body ++ if c.stop then [] else fallThrough cs

/-- The statements that `switch(n)` executes. -/
def switch (n : Nat) (cases : List Case) : List Stmt :=
  fallThrough (cases.dropWhile fun c => c.label ≠ n)

/-! ## The bodies of the loops and the last blocks -/

def all : UInt32 := 0xffffffff

/-- A whole block in 32-bit chunks. -/
def wordBody : List Stmt := [
  ⟨.a, [.word 0 all]⟩,
  ⟨.b, [.word 1 all]⟩,
  ⟨.c, [.word 2 all]⟩]

/-- The last words of `hashword`. -/
def wordTail : List Case := [
  ⟨3, [⟨.c, [.word 2 all]⟩], false⟩,
  ⟨2, [⟨.b, [.word 1 all]⟩], false⟩,
  ⟨1, [⟨.a, [.word 0 all]⟩], true⟩]

def littleWordTail : List Case := [
  ⟨12, [⟨.c, [.word 2 all]⟩, ⟨.b, [.word 1 all]⟩, ⟨.a, [.word 0 all]⟩], true⟩,
  ⟨11, [⟨.c, [.word 2 0xffffff]⟩, ⟨.b, [.word 1 all]⟩, ⟨.a, [.word 0 all]⟩], true⟩,
  ⟨10, [⟨.c, [.word 2 0xffff]⟩, ⟨.b, [.word 1 all]⟩, ⟨.a, [.word 0 all]⟩], true⟩,
  ⟨9, [⟨.c, [.word 2 0xff]⟩, ⟨.b, [.word 1 all]⟩, ⟨.a, [.word 0 all]⟩], true⟩,
  ⟨8, [⟨.b, [.word 1 all]⟩, ⟨.a, [.word 0 all]⟩], true⟩,
  ⟨7, [⟨.b, [.word 1 0xffffff]⟩, ⟨.a, [.word 0 all]⟩], true⟩,
  ⟨6, [⟨.b, [.word 1 0xffff]⟩, ⟨.a, [.word 0 all]⟩], true⟩,
  ⟨5, [⟨.b, [.word 1 0xff]⟩, ⟨.a, [.word 0 all]⟩], true⟩,
  ⟨4, [⟨.a, [.word 0 all]⟩], true⟩,
  ⟨3, [⟨.a, [.word 0 0xffffff]⟩], true⟩,
  ⟨2, [⟨.a, [.word 0 0xffff]⟩], true⟩,
  ⟨1, [⟨.a, [.word 0 0xff]⟩], true⟩]

/-- The same under `VALGRIND`. -/
def littleWordTailValgrind : List Case := [
  ⟨12, [⟨.c, [.word 2 all]⟩, ⟨.b, [.word 1 all]⟩, ⟨.a, [.word 0 all]⟩], true⟩,
  ⟨11, [⟨.c, [.byte 10 16]⟩], false⟩,
  ⟨10, [⟨.c, [.byte 9 8]⟩], false⟩,
  ⟨9, [⟨.c, [.byte 8 0]⟩], false⟩,
  ⟨8, [⟨.b, [.word 1 all]⟩, ⟨.a, [.word 0 all]⟩], true⟩,
  ⟨7, [⟨.b, [.byte 6 16]⟩], false⟩,
  ⟨6, [⟨.b, [.byte 5 8]⟩], false⟩,
  ⟨5, [⟨.b, [.byte 4 0]⟩], false⟩,
  ⟨4, [⟨.a, [.word 0 all]⟩], true⟩,
  ⟨3, [⟨.a, [.byte 2 16]⟩], false⟩,
  ⟨2, [⟨.a, [.byte 1 8]⟩], false⟩,
  ⟨1, [⟨.a, [.byte 0 0]⟩], true⟩]

/-- A whole block in 16-bit chunks. -/
def halfBody : List Stmt := [
  ⟨.a, [.half 0 0, .half 1 16]⟩,
  ⟨.b, [.half 2 0, .half 3 16]⟩,
  ⟨.c, [.half 4 0, .half 5 16]⟩]

def halfTail : List Case := [
  ⟨12, [⟨.c, [.half 4 0, .half 5 16]⟩,
        ⟨.b, [.half 2 0, .half 3 16]⟩,
        ⟨.a, [.half 0 0, .half 1 16]⟩], true⟩,
  ⟨11, [⟨.c, [.byte 10 16]⟩], false⟩,
  ⟨10, [⟨.c, [.half 4 0]⟩,
        ⟨.b, [.half 2 0, .half 3 16]⟩,
        ⟨.a, [.half 0 0, .half 1 16]⟩], true⟩,
  ⟨9, [⟨.c, [.byte 8 0]⟩], false⟩,
  ⟨8, [⟨.b, [.half 2 0, .half 3 16]⟩,
       ⟨.a, [.half 0 0, .half 1 16]⟩], true⟩,
  ⟨7, [⟨.b, [.byte 6 16]⟩], false⟩,
  ⟨6, [⟨.b, [.half 2 0]⟩,
       ⟨.a, [.half 0 0, .half 1 16]⟩], true⟩,
  ⟨5, [⟨.b, [.byte 4 0]⟩], false⟩,
  ⟨4, [⟨.a, [.half 0 0, .half 1 16]⟩], true⟩,
  ⟨3, [⟨.a, [.byte 2 16]⟩], false⟩,
  ⟨2, [⟨.a, [.half 0 0]⟩], true⟩,
  ⟨1, [⟨.a, [.byte 0 0]⟩], true⟩]

/-- A whole block one byte at a time. -/
def littleByteBody : List Stmt := [
  ⟨.a, [.byte 0 0]⟩, ⟨.a, [.byte 1 8]⟩, ⟨.a, [.byte 2 16]⟩, ⟨.a, [.byte 3 24]⟩,
  ⟨.b, [.byte 4 0]⟩, ⟨.b, [.byte 5 8]⟩, ⟨.b, [.byte 6 16]⟩, ⟨.b, [.byte 7 24]⟩,
  ⟨.c, [.byte 8 0]⟩, ⟨.c, [.byte 9 8]⟩, ⟨.c, [.byte 10 16]⟩, ⟨.c, [.byte 11 24]⟩]

def littleByteTail : List Case := [
  ⟨12, [⟨.c, [.byte 11 24]⟩], false⟩,
  ⟨11, [⟨.c, [.byte 10 16]⟩], false⟩,
  ⟨10, [⟨.c, [.byte 9 8]⟩], false⟩,
  ⟨9, [⟨.c, [.byte 8 0]⟩], false⟩,
  ⟨8, [⟨.b, [.byte 7 24]⟩], false⟩,
  ⟨7, [⟨.b, [.byte 6 16]⟩], false⟩,
  ⟨6, [⟨.b, [.byte 5 8]⟩], false⟩,
  ⟨5, [⟨.b, [.byte 4 0]⟩], false⟩,
  ⟨4, [⟨.a, [.byte 3 24]⟩], false⟩,
  ⟨3, [⟨.a, [.byte 2 16]⟩], false⟩,
  ⟨2, [⟨.a, [.byte 1 8]⟩], false⟩,
  ⟨1, [⟨.a, [.byte 0 0]⟩], true⟩]

def bigWordTail : List Case := [
  ⟨12, [⟨.c, [.word 2 all]⟩, ⟨.b, [.word 1 all]⟩, ⟨.a, [.word 0 all]⟩], true⟩,
  ⟨11, [⟨.c, [.word 2 0xffffff00]⟩, ⟨.b, [.word 1 all]⟩, ⟨.a, [.word 0 all]⟩], true⟩,
  ⟨10, [⟨.c, [.word 2 0xffff0000]⟩, ⟨.b, [.word 1 all]⟩, ⟨.a, [.word 0 all]⟩], true⟩,
  ⟨9, [⟨.c, [.word 2 0xff000000]⟩, ⟨.b, [.word 1 all]⟩, ⟨.a, [.word 0 all]⟩], true⟩,
  ⟨8, [⟨.b, [.word 1 all]⟩, ⟨.a, [.word 0 all]⟩], true⟩,
  ⟨7, [⟨.b, [.word 1 0xffffff00]⟩, ⟨.a, [.word 0 all]⟩], true⟩,
  ⟨6, [⟨.b, [.word 1 0xffff0000]⟩, ⟨.a, [.word 0 all]⟩], true⟩,
  ⟨5, [⟨.b, [.word 1 0xff000000]⟩, ⟨.a, [.word 0 all]⟩], true⟩,
  ⟨4, [⟨.a, [.word 0 all]⟩], true⟩,
  ⟨3, [⟨.a, [.word 0 0xffffff00]⟩], true⟩,
  ⟨2, [⟨.a, [.word 0 0xffff0000]⟩], true⟩,
  ⟨1, [⟨.a, [.word 0 0xff000000]⟩], true⟩]

def bigWordTailValgrind : List Case := [
  ⟨12, [⟨.c, [.word 2 all]⟩, ⟨.b, [.word 1 all]⟩, ⟨.a, [.word 0 all]⟩], true⟩,
  ⟨11, [⟨.c, [.byte 10 8]⟩], false⟩,
  ⟨10, [⟨.c, [.byte 9 16]⟩], false⟩,
  ⟨9, [⟨.c, [.byte 8 24]⟩], false⟩,
  ⟨8, [⟨.b, [.word 1 all]⟩, ⟨.a, [.word 0 all]⟩], true⟩,
  ⟨7, [⟨.b, [.byte 6 8]⟩], false⟩,
  ⟨6, [⟨.b, [.byte 5 16]⟩], false⟩,
  ⟨5, [⟨.b, [.byte 4 24]⟩], false⟩,
  ⟨4, [⟨.a, [.word 0 all]⟩], true⟩,
  ⟨3, [⟨.a, [.byte 2 8]⟩], false⟩,
  ⟨2, [⟨.a, [.byte 1 16]⟩], false⟩,
  ⟨1, [⟨.a, [.byte 0 24]⟩], true⟩]

def bigByteBody : List Stmt := [
  ⟨.a, [.byte 0 24]⟩, ⟨.a, [.byte 1 16]⟩, ⟨.a, [.byte 2 8]⟩, ⟨.a, [.byte 3 0]⟩,
  ⟨.b, [.byte 4 24]⟩, ⟨.b, [.byte 5 16]⟩, ⟨.b, [.byte 6 8]⟩, ⟨.b, [.byte 7 0]⟩,
  ⟨.c, [.byte 8 24]⟩, ⟨.c, [.byte 9 16]⟩, ⟨.c, [.byte 10 8]⟩, ⟨.c, [.byte 11 0]⟩]

def bigByteTail : List Case := [
  ⟨12, [⟨.c, [.byte 11 0]⟩], false⟩,
  ⟨11, [⟨.c, [.byte 10 8]⟩], false⟩,
  ⟨10, [⟨.c, [.byte 9 16]⟩], false⟩,
  ⟨9, [⟨.c, [.byte 8 24]⟩], false⟩,
  ⟨8, [⟨.b, [.byte 7 0]⟩], false⟩,
  ⟨7, [⟨.b, [.byte 6 8]⟩], false⟩,
  ⟨6, [⟨.b, [.byte 5 16]⟩], false⟩,
  ⟨5, [⟨.b, [.byte 4 24]⟩], false⟩,
  ⟨4, [⟨.a, [.byte 3 0]⟩], false⟩,
  ⟨3, [⟨.a, [.byte 2 8]⟩], false⟩,
  ⟨2, [⟨.a, [.byte 1 16]⟩], false⟩,
  ⟨1, [⟨.a, [.byte 0 24]⟩], true⟩]

/-! ## The functions -/

/-- How a function reads its key: the body of the loop, the cases of the switch, and how many
    units of `length` a block has. -/
structure Reading where
  body : List Stmt
  tail : List Case
  unit : Nat

/-- `while (length > 12)`, or 3 words; either way the pointer moves by 12 bytes. -/
def absorb (pf : Platform) (mem : Memory) (rd : Reading) :
    Nat → Nat → Nat → Abc → Except Fault (Nat × Nat × Abc)
  | 0, _, _, _ => .error .endless
  | fuel + 1, k, length, s =>
    if rd.unit < length then do
      let s ← execAll pf mem k s rd.body
      absorb pf mem rd fuel (k + 12) (length - rd.unit) (mix s)
    else .ok (k, length, s)

/-- The loop, the switch and `final`, which `case 0` leaves out. -/
def digestKey (pf : Platform) (mem : Memory) (rd : Reading) (k length : Nat) (s : Abc) :
    Except Fault Abc := do
  let (k, length, s) ← absorb pf mem rd (length + 1) k length s
  if length = 0 then .ok s
  else
    let s ← execAll pf mem k s (switch length rd.tail)
    .ok (final s)

def hashwordReading : Reading := ⟨wordBody, wordTail, 3⟩

/-- The `if` that picks one of three loops, which `hashlittle` and `hashlittle2` share. -/
def littleReading (pf : Platform) (key : Nat) : Reading :=
  if pf.hashLittleEndian && key &&& 0x3 = 0 then
    ⟨wordBody, if pf.valgrind then littleWordTailValgrind else littleWordTail, 12⟩
  else if pf.hashLittleEndian && key &&& 0x1 = 0 then ⟨halfBody, halfTail, 12⟩
  else ⟨littleByteBody, littleByteTail, 12⟩

def bigReading (pf : Platform) (key : Nat) : Reading :=
  if pf.hashBigEndian && key &&& 0x3 = 0 then
    ⟨wordBody, if pf.valgrind then bigWordTailValgrind else bigWordTail, 12⟩
  else ⟨bigByteBody, bigByteTail, 12⟩

/-- `a = b = c = x` -/
def Abc.start (x : UInt32) : Abc := ⟨x, x, x⟩

def hashword (pf : Platform) (mem : Memory) (k length : Nat) (initval : UInt32) :
    Except Fault UInt32 := do
  let s := Abc.start ((0xdeadbeef : UInt32) + (UInt32.ofNat length) <<< 2 + initval)
  let s ← digestKey pf mem hashwordReading k length s
  .ok s.c

/-- The two hashes `*pc` and `*pb`; the shift is made on a 64-bit `size_t` here. -/
def hashword2 (pf : Platform) (mem : Memory) (k length : Nat) (pc pb : UInt32) :
    Except Fault (UInt32 × UInt32) := do
  let s := Abc.start ((0xdeadbeef : UInt32) + UInt32.ofNat (length <<< 2 % 2 ^ 64) + pc)
  let s ← digestKey pf mem hashwordReading k length (s.add pb .c)
  .ok (s.c, s.b)

def hashlittle (pf : Platform) (mem : Memory) (key length : Nat) (initval : UInt32) :
    Except Fault UInt32 := do
  let s := Abc.start ((0xdeadbeef : UInt32) + UInt32.ofNat length + initval)
  let s ← digestKey pf mem (littleReading pf key) key length s
  .ok s.c

def hashlittle2 (pf : Platform) (mem : Memory) (key length : Nat) (pc pb : UInt32) :
    Except Fault (UInt32 × UInt32) := do
  let s := Abc.start ((0xdeadbeef : UInt32) + UInt32.ofNat length + pc)
  let s ← digestKey pf mem (littleReading pf key) key length (s.add pb .c)
  .ok (s.c, s.b)

def hashbig (pf : Platform) (mem : Memory) (key length : Nat) (initval : UInt32) :
    Except Fault UInt32 := do
  let s := Abc.start ((0xdeadbeef : UInt32) + UInt32.ofNat length + initval)
  let s ← digestKey pf mem (bigReading pf key) key length s
  .ok s.c

end DataMonkey.Lookup3
