import Mathlib.Tactic.Abel
import Mathlib.Tactic.IntervalCases
import DataMonkey.Lookup3.Mix

/- The statements of `lookup3.c` and the words they put together.

   The last block of a key is read in many ways: a word with the bytes behind the key masked off,
   halves of words, or single bytes shifted to their places. A register only ever has operands
   added to it, so what a list of statements does is three sums; and each of these is a word of
   the key, filled up with zeros.

     1. `Operand.read_spec`, `execAll_spec` — statements on readable memory;
     2. `evalAll_eq` — they add three sums;
     3. `parts`, `part_value` — the ways to read some bytes of a word, and that each is right. -/
namespace DataMonkey.Lookup3

/-- The word at byte `i`. -/
def wordAt (order : Order) (f : Nat → UInt8) (i : Nat) : UInt32 :=
  wordOf order (f i).toUInt32 (f (i + 1)).toUInt32 (f (i + 2)).toUInt32 (f (i + 3)).toUInt32

/-- The first block. -/
def blockOf (order : Order) (f : Nat → UInt8) : Abc :=
  ⟨wordAt order f 0, wordAt order f 4, wordAt order f 8⟩

def Abc.plus (s w : Abc) : Abc := ⟨s.a + w.a, s.b + w.b, s.c + w.c⟩

/-! ## Statements on readable memory -/

/-- The first `m` bytes from `k` on may be read, and are those of `g`. -/
def Loaded (mem : Memory) (k m : Nat) (g : Nat → UInt8) : Prop :=
  ∀ i < m, mem (k + i) = some (g i)

namespace Operand

/-- The bytes that an operand needs to be readable. -/
def extent : Operand → Nat
  | .byte i _ => i + 1
  | .half i _ => 2 * i + 2
  | .word i _ => 4 * i + 4

def align : Operand → Nat
  | .byte _ _ => 1
  | .half _ _ => 2
  | .word _ _ => 4

def value (order : Order) (g : Nat → UInt8) : Operand → UInt32
  | .byte i shift => (g i).toUInt32 <<< shift
  | .half i shift =>
    (match order with
      | .little => (g (2 * i)).toUInt32 + (g (2 * i + 1)).toUInt32 <<< 8
      | .big => (g (2 * i)).toUInt32 <<< 8 + (g (2 * i + 1)).toUInt32) <<< shift
  | .word i mask => wordAt order g (4 * i) &&& mask

end Operand

section Memory

variable {pf : Platform} {mem : Memory} {k m n : Nat} {g : Nat → UInt8} {s : Abc}

theorem load8_spec (h : Loaded mem k m g) {i : Nat} (hi : i < m) :
    load8 mem (k + i) = .ok (g i).toUInt32 := by rw [load8, h i hi]

theorem load16_spec (h : Loaded mem k m g) {i : Nat} (hi : i + 2 ≤ m) (hk : (k + i) % 2 = 0) :
    load16 pf mem (k + i) = .ok (match pf.order with
      | .little => (g i).toUInt32 + (g (i + 1)).toUInt32 <<< 8
      | .big => (g i).toUInt32 <<< 8 + (g (i + 1)).toUInt32) := by
  rw [load16, if_pos hk, load8_spec h (by omega), Nat.add_assoc, load8_spec h (by omega)]
  cases pf.order with
  | little => rfl
  | big => rfl

theorem load32_spec (h : Loaded mem k m g) {i : Nat} (hi : i + 4 ≤ m) (hk : (k + i) % 4 = 0) :
    load32 pf mem (k + i) = .ok (wordAt pf.order g i) := by
  simp only [load32, if_pos hk, Nat.add_assoc, load8_spec h (show i < m by omega),
    load8_spec h (show i + 1 < m by omega), load8_spec h (show i + 2 < m by omega),
    load8_spec h (show i + 3 < m by omega), Runs.ok_bind, wordAt]

theorem Operand.read_spec (h : Loaded mem k m g) (o : Operand) (hm : o.extent ≤ m)
    (hk : k % o.align = 0) : o.read pf mem k = .ok (o.value pf.order g) := by
  cases o with
  | byte i shift =>
    rw [read, load8_spec h hm]
    rfl
  | half i shift =>
    have hi : (k + 2 * i) % 2 = 0 := by
      rw [Nat.add_mul_mod_self_left]
      exact hk
    rw [read, load16_spec h hm hi]
    rfl
  | word i mask =>
    have hi : (k + 4 * i) % 4 = 0 := by
      rw [Nat.add_mul_mod_self_left]
      exact hk
    rw [read, load32_spec h hm hi]
    rfl

/-- The registers after statements that read the bytes of `g`. -/
def evalAll (order : Order) (g : Nat → UInt8) (s : Abc) (ts : List Stmt) : Abc :=
  ts.foldl (fun s t => t.operands.foldl (fun s o => s.add (o.value order g) t.reg) s) s

/-- Every operand lies in the first `m` bytes, and is aligned where the pointer is. -/
def Fits (align m : Nat) (ts : List Stmt) : Prop :=
  ∀ t ∈ ts, ∀ o ∈ t.operands, o.extent ≤ m ∧ o.align ∣ align

instance (align m : Nat) (ts : List Stmt) : Decidable (Fits align m ts) :=
  inferInstanceAs (Decidable (∀ t ∈ ts, ∀ o ∈ t.operands, o.extent ≤ m ∧ o.align ∣ align))

theorem foldlM_ok {α σ : Type} (f : σ → α → Except Fault σ) (v : σ → α → σ) :
    ∀ (l : List α) (s : σ), (∀ x ∈ l, ∀ s, f s x = .ok (v s x)) →
      l.foldlM f s = .ok (l.foldl v s)
  | [], _, _ => rfl
  | x :: l, s, h => by
    rw [List.foldlM_cons, h x List.mem_cons_self s, List.foldl_cons]
    exact foldlM_ok f v l _ fun y hy => h y (List.mem_cons_of_mem x hy)

theorem execAll_spec (h : Loaded mem k m g) {align : Nat} (hk : k % align = 0) {ts : List Stmt}
    (hfits : Fits align m ts) (s : Abc) :
    execAll pf mem k s ts = .ok (evalAll pf.order g s ts) := by
  apply foldlM_ok
  intro t ht s
  apply foldlM_ok
  intro o ho s
  obtain ⟨hm, hdvd⟩ := hfits t ht o ho
  have hk' : k % o.align = 0 :=
    Nat.mod_eq_zero_of_dvd (hdvd.trans (Nat.dvd_of_mod_eq_zero hk))
  rw [Operand.read_spec h o hm hk']
  rfl

end Memory

/-! ## What statements add -/

/-- What is added to a register, in order. -/
def operandsOf (r : Reg) (ts : List Stmt) : List Operand :=
  ts.flatMap fun t => if t.reg = r then t.operands else []

def sumOf (order : Order) (g : Nat → UInt8) (os : List Operand) : UInt32 :=
  (os.map (Operand.value order g)).sum

theorem add_operands (order : Order) (g : Nat → UInt8) (r : Reg) :
    ∀ (os : List Operand) (s : Abc),
      os.foldl (fun s o => s.add (o.value order g) r) s = s.add (sumOf order g os) r
  | [], s => by
    have hsum : sumOf order g [] = 0 := rfl
    cases r with
    | a => rw [List.foldl_nil, hsum, Abc.add, add_zero]
    | b => rw [List.foldl_nil, hsum, Abc.add, add_zero]
    | c => rw [List.foldl_nil, hsum, Abc.add, add_zero]
  | o :: os, s => by
    rw [List.foldl_cons, add_operands order g r os]
    have hsum : sumOf order g (o :: os) = o.value order g + sumOf order g os := rfl
    cases r with
    | a => rw [hsum, Abc.add, Abc.add, Abc.add, add_assoc]
    | b => rw [hsum, Abc.add, Abc.add, Abc.add, add_assoc]
    | c => rw [hsum, Abc.add, Abc.add, Abc.add, add_assoc]

theorem evalAll_eq (order : Order) (g : Nat → UInt8) :
    ∀ (ts : List Stmt) (s : Abc), evalAll order g s ts = s.plus
      ⟨sumOf order g (operandsOf .a ts), sumOf order g (operandsOf .b ts),
        sumOf order g (operandsOf .c ts)⟩
  | [], s => by
    have hsum : ∀ r, sumOf order g (operandsOf r []) = 0 := fun _ => rfl
    rw [hsum, hsum, hsum, Abc.plus, add_zero, add_zero, add_zero]
    rfl
  | t :: ts, s => by
    have hstep : evalAll order g s (t :: ts) =
        evalAll order g (s.add (sumOf order g t.operands) t.reg) ts := by
      rw [evalAll, List.foldl_cons, add_operands]
      rfl
    have hsum : ∀ r, sumOf order g (operandsOf r (t :: ts)) =
        sumOf order g (if t.reg = r then t.operands else []) +
          sumOf order g (operandsOf r ts) := by
      intro r
      rw [operandsOf, List.flatMap_cons, sumOf, List.map_append, List.sum_append]
      rfl
    have hnil : sumOf order g [] = 0 := rfl
    rw [hstep, evalAll_eq order g ts, hsum, hsum, hsum]
    cases hr : t.reg with
    | a => simp only [Abc.plus, Abc.add, reduceCtorEq, if_true, if_false, hnil, zero_add, add_assoc]
    | b => simp only [Abc.plus, Abc.add, reduceCtorEq, if_true, if_false, hnil, zero_add, add_assoc]
    | c => simp only [Abc.plus, Abc.add, reduceCtorEq, if_true, if_false, hnil, zero_add, add_assoc]

/-! ## Masks -/

theorem toNat_wordOf (x y z w : UInt8) :
    (wordOf .little x.toUInt32 y.toUInt32 z.toUInt32 w.toUInt32).toNat =
      x.toNat + y.toNat * 2 ^ 8 + z.toNat * 2 ^ 16 + w.toNat * 2 ^ 24 := by
  have hx := x.toNat_lt
  have hy := y.toNat_lt
  have hz := z.toNat_lt
  have hw := w.toNat_lt
  simp only [wordOf, UInt32.toNat_add, UInt32.toNat_shiftLeft, UInt8.toNat_toUInt32,
    Nat.shiftLeft_eq, UInt32.reduceToNat, Nat.reduceMod, Nat.reducePow]
  omega

/-- The other byte order reads the same word from the reversed bytes. -/
theorem wordOf_big (x y z w : UInt32) : wordOf .big x y z w = wordOf .little w z y x := by
  show x <<< 24 + y <<< 16 + z <<< 8 + w = w + z <<< 8 + y <<< 16 + x <<< 24
  abel

theorem toNat_and_low (x : UInt32) {m : UInt32} (k : Nat) (hm : m.toNat = 2 ^ k - 1) :
    (x &&& m).toNat = x.toNat % 2 ^ k := by
  rw [UInt32.toNat_and, hm, Nat.and_two_pow_sub_one_eq_mod]

theorem toNat_and_high (x : UInt32) {m : UInt32} (k : Nat)
    (hm : m.toBitVec = BitVec.allOnes 32 <<< k) : (x &&& m).toNat = x.toNat / 2 ^ k * 2 ^ k := by
  have hx := x.toNat_lt
  have hle := Nat.div_mul_le_self x.toNat (2 ^ k)
  show (x.toBitVec &&& m.toBitVec).toNat = _
  rw [hm, ← BitVec.shiftLeft_ushiftRight, BitVec.toNat_shiftLeft, BitVec.toNat_ushiftRight,
    Nat.shiftRight_eq_div_pow, Nat.shiftLeft_eq]
  exact Nat.mod_eq_of_lt (Nat.lt_of_le_of_lt hle hx)

/-! ## The ways to read a word -/

/-- What may be added for the first `r` bytes of word `j`. -/
def parts : Order → Nat → Nat → List (List Operand)
  | _, _, 0 => [[]]
  | .little, j, 1 => [[.byte (4 * j) 0], [.word j 0xff]]
  | .little, j, 2 =>
    [[.byte (4 * j + 1) 8, .byte (4 * j) 0], [.word j 0xffff], [.half (2 * j) 0]]
  | .little, j, 3 =>
    [[.byte (4 * j + 2) 16, .byte (4 * j + 1) 8, .byte (4 * j) 0], [.word j 0xffffff],
      [.byte (4 * j + 2) 16, .half (2 * j) 0]]
  | .little, j, _ =>
    [[.byte (4 * j + 3) 24, .byte (4 * j + 2) 16, .byte (4 * j + 1) 8, .byte (4 * j) 0],
      [.byte (4 * j) 0, .byte (4 * j + 1) 8, .byte (4 * j + 2) 16, .byte (4 * j + 3) 24],
      [.word j all], [.half (2 * j) 0, .half (2 * j + 1) 16]]
  | .big, j, 1 => [[.byte (4 * j) 24], [.word j 0xff000000]]
  | .big, j, 2 => [[.byte (4 * j + 1) 16, .byte (4 * j) 24], [.word j 0xffff0000]]
  | .big, j, 3 =>
    [[.byte (4 * j + 2) 8, .byte (4 * j + 1) 16, .byte (4 * j) 24], [.word j 0xffffff00]]
  | .big, j, _ =>
    [[.byte (4 * j + 3) 0, .byte (4 * j + 2) 8, .byte (4 * j + 1) 16, .byte (4 * j) 24],
      [.byte (4 * j) 24, .byte (4 * j + 1) 16, .byte (4 * j + 2) 8, .byte (4 * j + 3) 0],
      [.word j all]]

/-- From byte `b` on, `f` has `r` bytes of `g` and zeros behind them. -/
structure Filled (g f : Nat → UInt8) (b r : Nat) : Prop where
  same : ∀ i < r, f (b + i) = g (b + i)
  zero : ∀ i, r ≤ i → i < 4 → f (b + i) = 0

section Parts

variable {g f : Nat → UInt8} {j r : Nat} {os : List Operand}

/-- The bytes of a word that `f` fills up. -/
theorem Filled.wordAt (h : Filled g f (4 * j) r) (order : Order) :
    wordAt order f (4 * j) = wordOf order
      (if 0 < r then g (4 * j) else 0).toUInt32 (if 1 < r then g (4 * j + 1) else 0).toUInt32
      (if 2 < r then g (4 * j + 2) else 0).toUInt32
      (if 3 < r then g (4 * j + 3) else 0).toUInt32 := by
  have hf : ∀ i < 4, f (4 * j + i) = if i < r then g (4 * j + i) else 0 := by
    intro i hi
    by_cases hir : i < r
    · rw [if_pos hir, h.same i hir]
    · rw [if_neg hir, h.zero i (Nat.le_of_not_lt hir) hi]
  rw [Lookup3.wordAt, hf 1 (by decide), hf 2 (by decide), hf 3 (by decide)]
  have h0 := hf 0 (by decide)
  rw [Nat.add_zero] at h0
  rw [h0]

theorem sumOf_nil (order : Order) : sumOf order g [] = 0 := rfl

theorem sumOf_cons (order : Order) (o : Operand) (os : List Operand) :
    sumOf order g (o :: os) = o.value order g + sumOf order g os := rfl

theorem toNat_shift (x : UInt32) (n : UInt32) :
    (x <<< n).toNat = x.toNat * 2 ^ (n.toNat % 32) % 2 ^ 32 := by
  rw [UInt32.toNat_shiftLeft, Nat.shiftLeft_eq]

theorem toNat_sum_nil (order : Order) : (sumOf order g []).toNat = 0 := rfl

theorem toNat_sum_byte (order : Order) (i : Nat) (n : UInt32) (os : List Operand) :
    (sumOf order g (.byte i n :: os)).toNat =
      ((g i).toNat * 2 ^ (n.toNat % 32) % 2 ^ 32 + (sumOf order g os).toNat) % 2 ^ 32 := by
  rw [sumOf_cons, UInt32.toNat_add, Operand.value, toNat_shift, UInt8.toNat_toUInt32]

theorem toNat_sum_half (i : Nat) (n : UInt32) (os : List Operand) :
    (sumOf .little g (.half i n :: os)).toNat =
      (((g (2 * i)).toNat + (g (2 * i + 1)).toNat * 2 ^ 8) * 2 ^ (n.toNat % 32) % 2 ^ 32 +
        (sumOf .little g os).toNat) % 2 ^ 32 := by
  have hx := (g (2 * i)).toNat_lt
  have hy := (g (2 * i + 1)).toNat_lt
  have hhalf : ((g (2 * i)).toUInt32 + (g (2 * i + 1)).toUInt32 <<< 8).toNat =
      (g (2 * i)).toNat + (g (2 * i + 1)).toNat * 2 ^ 8 := by
    simp only [UInt32.toNat_add, toNat_shift, UInt8.toNat_toUInt32, UInt32.reduceToNat,
      Nat.reduceMod, Nat.reducePow]
    omega
  rw [sumOf_cons, UInt32.toNat_add, Operand.value, toNat_shift, hhalf]

/-- A mask over a little-endian word cuts off the bytes behind, -/
theorem toNat_masked_little {m : UInt32} (k : Nat) (hm : m.toNat = 2 ^ k - 1) :
    (sumOf .little g [.word j m]).toNat =
      ((g (4 * j)).toNat + (g (4 * j + 1)).toNat * 2 ^ 8 + (g (4 * j + 2)).toNat * 2 ^ 16 +
        (g (4 * j + 3)).toNat * 2 ^ 24) % 2 ^ k := by
  rw [sumOf_cons, sumOf_nil, add_zero, Operand.value, toNat_and_low _ k hm, wordAt, toNat_wordOf]

/-- and so does one of high bits over a big-endian word. -/
theorem toNat_masked_big {m : UInt32} (k : Nat) (hm : m.toBitVec = BitVec.allOnes 32 <<< k) :
    (sumOf .big g [.word j m]).toNat =
      ((g (4 * j + 3)).toNat + (g (4 * j + 2)).toNat * 2 ^ 8 + (g (4 * j + 1)).toNat * 2 ^ 16 +
        (g (4 * j)).toNat * 2 ^ 24) / 2 ^ k * 2 ^ k := by
  rw [sumOf_cons, sumOf_nil, add_zero, Operand.value, toNat_and_high _ k hm, wordAt, wordOf_big,
    toNat_wordOf]

theorem part_little (hr : r ≤ 4) (h : Filled g f (4 * j) r) (hos : os ∈ parts .little j r) :
    sumOf .little g os = wordAt .little f (4 * j) := by
  have hx := (g (4 * j)).toNat_lt
  have hy := (g (4 * j + 1)).toNat_lt
  have hz := (g (4 * j + 2)).toNat_lt
  have hw := (g (4 * j + 3)).toNat_lt
  have h0 : (0 : UInt8).toNat = 0 := rfl
  have h₂ : 2 * (2 * j) = 4 * j := by omega
  have h₃ : 2 * (2 * j + 1) = 4 * j + 2 := by omega
  rw [h.wordAt]
  apply UInt32.toNat_inj.mp
  rw [toNat_wordOf]
  interval_cases r
  · rw [List.mem_singleton.mp hos, toNat_sum_nil]
    simp only [Nat.not_lt_zero, if_false, h0, Nat.zero_mul, Nat.add_zero]
  all_goals
    simp only [parts, List.mem_cons, List.not_mem_nil, or_false] at hos
    simp only [Nat.reduceLT, if_true, if_false, h0]
  · rcases hos with rfl | rfl
    · simp only [toNat_sum_byte, toNat_sum_nil, UInt32.reduceToNat, Nat.reduceMod, Nat.reducePow]
      omega
    · rw [toNat_masked_little 8 rfl]
      omega
  · rcases hos with rfl | rfl | rfl
    · simp only [toNat_sum_byte, toNat_sum_nil, UInt32.reduceToNat, Nat.reduceMod, Nat.reducePow]
      omega
    · rw [toNat_masked_little 16 rfl]
      omega
    · simp only [toNat_sum_half, h₂, toNat_sum_nil, UInt32.reduceToNat, Nat.reduceMod,
        Nat.reducePow]
      omega
  · rcases hos with rfl | rfl | rfl
    · simp only [toNat_sum_byte, toNat_sum_nil, UInt32.reduceToNat, Nat.reduceMod, Nat.reducePow]
      omega
    · rw [toNat_masked_little 24 rfl]
      omega
    · simp only [toNat_sum_byte, toNat_sum_half, h₂, toNat_sum_nil, UInt32.reduceToNat,
        Nat.reduceMod, Nat.reducePow]
      omega
  · rcases hos with rfl | rfl | rfl | rfl
    · simp only [toNat_sum_byte, toNat_sum_nil, UInt32.reduceToNat, Nat.reduceMod, Nat.reducePow]
      omega
    · simp only [toNat_sum_byte, toNat_sum_nil, UInt32.reduceToNat, Nat.reduceMod, Nat.reducePow]
      omega
    · rw [toNat_masked_little 32 rfl]
      omega
    · simp only [toNat_sum_half, h₂, h₃, Nat.add_assoc (4 * j), toNat_sum_nil,
        UInt32.reduceToNat, Nat.reduceMod, Nat.reducePow, Nat.reduceAdd]
      omega

theorem part_big (hr : r ≤ 4) (h : Filled g f (4 * j) r) (hos : os ∈ parts .big j r) :
    sumOf .big g os = wordAt .big f (4 * j) := by
  have hx := (g (4 * j)).toNat_lt
  have hy := (g (4 * j + 1)).toNat_lt
  have hz := (g (4 * j + 2)).toNat_lt
  have hw := (g (4 * j + 3)).toNat_lt
  have h0 : (0 : UInt8).toNat = 0 := rfl
  rw [h.wordAt, wordOf_big]
  apply UInt32.toNat_inj.mp
  rw [toNat_wordOf]
  interval_cases r
  · rw [List.mem_singleton.mp hos, toNat_sum_nil]
    simp only [Nat.not_lt_zero, if_false, h0, Nat.zero_mul, Nat.add_zero]
  all_goals
    simp only [parts, List.mem_cons, List.not_mem_nil, or_false] at hos
    simp only [Nat.reduceLT, if_true, if_false, h0]
  · rcases hos with rfl | rfl
    · simp only [toNat_sum_byte, toNat_sum_nil, UInt32.reduceToNat, Nat.reduceMod, Nat.reducePow]
      omega
    · rw [toNat_masked_big 24 (by decide)]
      omega
  · rcases hos with rfl | rfl
    · simp only [toNat_sum_byte, toNat_sum_nil, UInt32.reduceToNat, Nat.reduceMod, Nat.reducePow]
      omega
    · rw [toNat_masked_big 16 (by decide)]
      omega
  · rcases hos with rfl | rfl
    · simp only [toNat_sum_byte, toNat_sum_nil, UInt32.reduceToNat, Nat.reduceMod, Nat.reducePow]
      omega
    · rw [toNat_masked_big 8 (by decide)]
      omega
  · rcases hos with rfl | rfl | rfl
    · simp only [toNat_sum_byte, toNat_sum_nil, UInt32.reduceToNat, Nat.reduceMod, Nat.reducePow]
      omega
    · simp only [toNat_sum_byte, toNat_sum_nil, UInt32.reduceToNat, Nat.reduceMod, Nat.reducePow]
      omega
    · rw [toNat_masked_big 0 (by decide)]
      omega

theorem part_value (order : Order) (hr : r ≤ 4) (h : Filled g f (4 * j) r)
    (hos : os ∈ parts order j r) : sumOf order g os = wordAt order f (4 * j) := by
  cases order with
  | little => exact part_little hr h hos
  | big => exact part_big hr h hos

end Parts

end DataMonkey.Lookup3
