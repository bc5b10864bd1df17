import Mathlib.Algebra.Group.Nat.Defs
import Mathlib.Data.List.Induction
import Mathlib.Tactic.Ring

/- Arrays kept in blocks, and the superblock pattern of block sizes.

   Block `x` of such an array has `size x` cells; cell `e` of it is index `start x + e` of
   the array. The first part holds for any sizes: the numbering is one-to-one and keeps
   the order, and reading and writing the concatenated blocks goes through it. The second
   part is one choice of sizes: superblock `s` has `2 ^ (s / 2)` blocks of
   `2 ^ ((s + 1) / 2)` cells, so that it doubles at every step.

     1. `start_add_lt_iff`, `cell_unique` — the numbering of the cells;
     2. `Sized.getElem?_flatten`, `Sized.set_flatten` — the concatenation of the blocks;
     3. `Superblock.pos_firstBlock`, `Superblock.start_firstBlock` — closed forms for the
        superblock of a block and for the cells before it;
     4. `Superblock.cell_of_index` — the cell of an index from the bits of its successor;
     5. `Superblock.size_sq_le`, `Superblock.succ_sq_le` — a block is about as large as the
        square root of the cells before it, and so is its number. -/
namespace Blocked

variable {size : Nat → Nat}

/-- The number of cells before block `x`. -/
def start (size : Nat → Nat) : Nat → Nat
  | 0 => 0
  | x + 1 => start size x + size x

theorem start_le_start {x y : Nat} (h : x ≤ y) : start size x ≤ start size y := by
  induction h with
  | refl => exact Nat.le_refl _
  | step _ ih => exact Nat.le_trans ih (Nat.le_add_right _ _)

theorem start_add_le {x y e : Nat} (h : x < y) (he : e < size x) :
    start size x + e < start size y := by
  have hle : start size (x + 1) ≤ start size y := start_le_start h
  have hdef : start size (x + 1) = start size x + size x := rfl
  omega

/-- A cell is among the first blocks iff its index is below their total size. -/
theorem start_add_lt_iff {x n e : Nat} (he : e < size x) :
    start size x + e < start size n ↔ x < n := by
  refine ⟨?_, ?_⟩
  · intro h
    apply Nat.lt_of_not_le
    intro hn
    have hle : start size n ≤ start size x := start_le_start hn
    omega
  · intro h
    exact start_add_le h he

/-- The numbering keeps the lexicographic order of the cells. -/
theorem start_add_lt_start_add {x y e f : Nat} (he : e < size x) (hf : f < size y) :
    start size x + e < start size y + f ↔ x < y ∨ (x = y ∧ e < f) := by
  rcases Nat.lt_trichotomy x y with h | h | h
  · have := start_add_le h he
    omega
  · -- within one block the cells decide
    subst h
    omega
  · have := start_add_le h hf
    omega

theorem cell_unique {x y e f : Nat} (he : e < size x) (hf : f < size y)
    (h : start size x + e = start size y + f) : x = y ∧ e = f := by
  have h₁ := start_add_lt_start_add he hf
  have h₂ := start_add_lt_start_add hf he
  omega

/-! ## The concatenation of the blocks -/

variable {α : Type}

/-- The blocks have the stated sizes. -/
def Sized (size : Nat → Nat) (L : List (List α)) : Prop :=
  ∀ x b, L[x]? = some b → b.length = size x

theorem Sized.left {A B : List (List α)} (h : Sized size (A ++ B)) : Sized size A := by
  intro x c hc
  apply h
  rw [List.getElem?_append_left (List.getElem?_eq_some_iff.mp hc).1]
  exact hc

theorem Sized.middle {A B : List (List α)} {b : List α} (h : Sized size (A ++ b :: B)) :
    b.length = size A.length := by
  apply h
  rw [List.getElem?_append_right (Nat.le_refl _), Nat.sub_self]
  rfl

theorem Sized.length_flatten {L : List (List α)} (h : Sized size L) :
    L.flatten.length = start size L.length := by
  induction L using List.reverseRecOn with
  | nil => rfl
  | append_singleton L b ih =>
    rw [List.flatten_concat, List.length_append, ih h.left, h.middle, List.length_append]
    rfl

theorem Sized.concat {L : List (List α)} (h : Sized size L) {b : List α}
    (hb : b.length = size L.length) : Sized size (L ++ [b]) := by
  intro x c hc
  by_cases hx : x < L.length
  · rw [List.getElem?_append_left hx] at hc
    exact h x c hc
  · have hlen := (List.getElem?_eq_some_iff.mp hc).1
    rw [List.length_append, List.length_singleton] at hlen
    obtain rfl : x = L.length := by omega
    rw [List.getElem?_append_right (Nat.le_refl _), Nat.sub_self, List.getElem?_cons_zero,
      Option.some.injEq] at hc
    rw [← hc, hb]

theorem set_middle {β : Type} (A B : List β) (b b' : β) :
    A ++ b' :: B = (A ++ b :: B).set A.length b' := by
  rw [List.set_append_right _ _ (Nat.le_refl _), Nat.sub_self, List.set_cons_zero]

/-- A block may be replaced by one of the same size. -/
theorem Sized.replace {A B : List (List α)} {b b' : List α} (h : Sized size (A ++ b :: B))
    (hb : b'.length = b.length) : Sized size (A ++ b' :: B) := by
  intro x c hc
  by_cases hx : A.length = x
  · subst hx
    rw [List.getElem?_append_right (Nat.le_refl _), Nat.sub_self, List.getElem?_cons_zero,
      Option.some.injEq] at hc
    rw [← hc, hb, h.middle]
  · rw [set_middle A B b b', List.getElem?_set_ne hx] at hc
    exact h x c hc

/-- Index `start x + e` of the array is cell `e` of block `x`. -/
theorem Sized.getElem?_flatten {A B : List (List α)} {b : List α} (h : Sized size (A ++ b :: B))
    {e : Nat} (he : e < size A.length) :
    (A ++ b :: B).flatten[start size A.length + e]? = b[e]? := by
  have hA := h.left.length_flatten
  rw [List.flatten_append, List.getElem?_append_right (by omega), hA, Nat.add_sub_cancel_left,
    List.flatten_cons, List.getElem?_append_left (by rw [h.middle]; exact he)]

/-- Writing cell `e` of block `x` writes index `start x + e` of the array and no other. -/
theorem Sized.set_flatten {A B : List (List α)} {b : List α} (h : Sized size (A ++ b :: B))
    {e : Nat} (he : e < size A.length) (v : α) :
    (A ++ b.set e v :: B).flatten = (A ++ b :: B).flatten.set (start size A.length + e) v := by
  have hA := h.left.length_flatten
  rw [List.flatten_append, List.flatten_append, List.flatten_cons, List.flatten_cons,
    List.set_append_right _ _ (by omega), hA, Nat.add_sub_cancel_left,
    List.set_append_left _ _ (by rw [h.middle]; exact he)]

end Blocked

/-! ## Superblocks -/

namespace Superblock

open Blocked

/-- The number of blocks of superblock `s`. -/
def superSize (s : Nat) : Nat := 2 ^ (s / 2)

/-- The number of cells of a block of superblock `s`. -/
def dataSize (s : Nat) : Nat := 2 ^ ((s + 1) / 2)

/-- The number of blocks before superblock `s`. -/
def firstBlock : Nat → Nat := start superSize

/-- The superblock of block `x` and its place there. -/
def pos : Nat → Nat × Nat
  | 0 => (0, 0)
  | x + 1 =>
    let (s, o) := pos x
    if o + 1 = superSize s then (s + 1, 0) else (s, o + 1)

/-- The number of cells of block `x`. -/
def size (x : Nat) : Nat := dataSize (pos x).1

theorem superSize_pos (s : Nat) : 0 < superSize s := Nat.two_pow_pos _
theorem dataSize_pos (s : Nat) : 0 < dataSize s := Nat.two_pow_pos _

/-- Superblock `s` has `2 ^ s` cells. -/
theorem superSize_mul_dataSize (s : Nat) : superSize s * dataSize s = 2 ^ s := by
  rw [superSize, dataSize, ← Nat.pow_add]
  congr 1
  omega

theorem pos_succ (x : Nat) : pos (x + 1) =
    if (pos x).2 + 1 = superSize (pos x).1 then ((pos x).1 + 1, 0)
    else ((pos x).1, (pos x).2 + 1) := rfl

theorem pos_spec : ∀ x, (pos x).2 < superSize (pos x).1 ∧ firstBlock (pos x).1 + (pos x).2 = x
  | 0 => ⟨Nat.one_pos, rfl⟩
  | x + 1 => by
    obtain ⟨hlt, hx⟩ := pos_spec x
    rw [pos_succ]
    split
    · -- block `x` was the last one of its superblock
      next hfull =>
      refine ⟨superSize_pos _, ?_⟩
      show firstBlock (pos x).1 + superSize (pos x).1 + 0 = x + 1
      omega
    · refine ⟨by show (pos x).2 + 1 < superSize (pos x).1; omega, ?_⟩
      show firstBlock (pos x).1 + ((pos x).2 + 1) = x + 1
      omega

theorem pos_firstBlock {s o : Nat} (ho : o < superSize s) : pos (firstBlock s + o) = (s, o) := by
  obtain ⟨hlt, hx⟩ := pos_spec (firstBlock s + o)
  obtain ⟨h₁, h₂⟩ := cell_unique hlt ho hx
  exact Prod.ext h₁ h₂

theorem size_firstBlock {s o : Nat} (ho : o < superSize s) :
    size (firstBlock s + o) = dataSize s := by
  rw [size, pos_firstBlock ho]

theorem size_pos (x : Nat) : 0 < size x := dataSize_pos _

/-- The first block of superblock `s` in closed form. -/
theorem firstBlock_eq : ∀ s, firstBlock s + 2 = 2 ^ (s / 2 + 1) + s % 2 * 2 ^ (s / 2)
  | 0 => rfl
  | s + 1 => by
    have ih := firstBlock_eq s
    have hdef : firstBlock (s + 1) = firstBlock s + 2 ^ (s / 2) := rfl
    -- the number of blocks doubles after every odd superblock
    rcases Nat.mod_two_eq_zero_or_one s with h | h
    · rw [show (s + 1) / 2 = s / 2 by omega, show (s + 1) % 2 = 1 by omega]
      rw [h] at ih
      omega
    · rw [show (s + 1) / 2 = s / 2 + 1 by omega, show (s + 1) % 2 = 0 by omega,
        Nat.pow_succ 2 (s / 2 + 1)]
      rw [h] at ih
      have := Nat.pow_succ 2 (s / 2)
      omega

/-- The cells before block `o` of superblock `s`. -/
theorem start_firstBlock : ∀ (s o : Nat), o ≤ superSize s →
    start size (firstBlock s + o) + 1 = 2 ^ s + o * dataSize s
  | 0, 0, _ => rfl
  | s + 1, 0, _ => by
    -- a superblock begins where the one before it ends
    have ih := start_firstBlock s (superSize s) (Nat.le_refl _)
    rw [superSize_mul_dataSize] at ih
    show start size (firstBlock s + superSize s) + 1 = 2 ^ (s + 1) + 0 * dataSize (s + 1)
    rw [ih, Nat.pow_succ]
    omega
  | s, o + 1, ho => by
    have ih := start_firstBlock s o (by omega)
    have hdef : start size (firstBlock s + (o + 1)) =
        start size (firstBlock s + o) + size (firstBlock s + o) := rfl
    rw [hdef, size_firstBlock (by omega), Nat.add_mul]
    omega

/-- The cell of index `i`: with `k` the leading bit of `i + 1`, the next `k / 2` bits are
    the block in superblock `k` and the last `(k + 1) / 2` bits the cell. -/
theorem cell_of_index {i k : Nat} (hlo : 2 ^ k ≤ i + 1) (hhi : i + 1 < 2 ^ (k + 1)) :
    (i + 1) / dataSize k % superSize k < superSize k ∧
      (i + 1) % dataSize k < size (firstBlock k + (i + 1) / dataSize k % superSize k) ∧
      start size (firstBlock k + (i + 1) / dataSize k % superSize k) +
        (i + 1) % dataSize k = i := by
  -- `m` counts the cells of superblock `k` before the index
  obtain ⟨m, hm⟩ : ∃ m, i + 1 = 2 ^ k + m := ⟨i + 1 - 2 ^ k, by omega⟩
  have hmlt : m < superSize k * dataSize k := by
    rw [superSize_mul_dataSize]
    rw [Nat.pow_succ] at hhi
    omega
  have hq : m / dataSize k < superSize k := (Nat.div_lt_iff_lt_mul (dataSize_pos k)).mpr hmlt
  have hdiv : (i + 1) / dataSize k % superSize k = m / dataSize k := by
    rw [hm, ← superSize_mul_dataSize, Nat.add_comm, Nat.add_mul_div_right _ _ (dataSize_pos k),
      Nat.add_mod_right, Nat.mod_eq_of_lt hq]
  have hmod : (i + 1) % dataSize k = m % dataSize k := by
    rw [hm, ← superSize_mul_dataSize, Nat.add_comm, Nat.add_mul_mod_self_right]
  have hstart := start_firstBlock k (m / dataSize k) (Nat.le_of_lt hq)
  have hdm := Nat.div_add_mod m (dataSize k)
  rw [hdiv, hmod]
  refine ⟨hq, ?_, ?_⟩
  · rw [size_firstBlock hq]
    exact Nat.mod_lt m (dataSize_pos k)
  · rw [Nat.mul_comm] at hdm
    omega

/-- The block of index `i`. -/
def blockOf (i : Nat) : Nat :=
  let k := (i + 1).log2
  firstBlock k + (i + 1) / dataSize k % superSize k

theorem blockOf_eq {i x e : Nat} (he : e < size x) (hi : start size x + e = i) :
    blockOf i = x := by
  have h0 : i + 1 ≠ 0 := Nat.succ_ne_zero i
  obtain ⟨hlo, hhi⟩ := (Nat.log2_eq_iff h0).mp rfl
  obtain ⟨-, he', hi'⟩ := cell_of_index hlo hhi
  exact (cell_unique he' he (hi'.trans hi.symm)).1

/-! ## Square roots -/

/-- The cells before block `o` of superblock `s`, as a product. -/
theorem start_succ_eq {s o : Nat} (ho : o ≤ superSize s) :
    start size (firstBlock s + o) + 1 = (superSize s + o) * dataSize s := by
  rw [start_firstBlock s o ho, Nat.add_mul, superSize_mul_dataSize]

/-- A superblock has as many cells a block as blocks, or twice as many. -/
theorem dataSize_eq (s : Nat) : dataSize s = (1 + s % 2) * superSize s := by
  rcases Nat.mod_two_eq_zero_or_one s with h | h
  · rw [h, dataSize, superSize, show (s + 1) / 2 = s / 2 by omega]
    omega
  · rw [h, dataSize, superSize, show (s + 1) / 2 = s / 2 + 1 by omega, Nat.pow_succ]
    omega

/-- The square of a block's size is at most twice the cells before it, and one. -/
theorem size_sq_le (x : Nat) : size x ^ 2 ≤ 2 * (start size x + 1) := by
  obtain ⟨ho, hx⟩ := pos_spec x
  rw [← hx, size_firstBlock ho, start_succ_eq (Nat.le_of_lt ho)]
  generalize (pos x).1 = s at ho
  generalize (pos x).2 = o at ho
  have hsize : dataSize s ≤ 2 * (superSize s + o) := by
    rw [dataSize_eq]
    rcases Nat.mod_two_eq_zero_or_one s with h | h
    · rw [h]
      omega
    · rw [h]
      omega
  calc dataSize s ^ 2 = dataSize s * dataSize s := Nat.pow_two _
    _ ≤ 2 * (superSize s + o) * dataSize s := Nat.mul_le_mul_right _ hsize
    _ = 2 * ((superSize s + o) * dataSize s) := Nat.mul_assoc _ _ _

/-- Twice the square of the number of blocks up to `x` is at most nine times the cells before
    block `x`, and one. -/
theorem succ_sq_le (x : Nat) : 2 * (x + 1) ^ 2 ≤ 9 * (start size x + 1) := by
  obtain ⟨ho, hx⟩ := pos_spec x
  have hfirst := firstBlock_eq (pos x).1
  have hsq : start size x + 1 = (superSize (pos x).1 + (pos x).2) * dataSize (pos x).1 := by
    rw [← start_succ_eq (Nat.le_of_lt ho), hx]
  rw [hsq, dataSize_eq]
  rw [Nat.pow_succ, show 2 ^ ((pos x).1 / 2) = superSize (pos x).1 from rfl] at hfirst
  -- with `a` blocks in the superblock, `o` of them in front and `d` behind
  generalize superSize (pos x).1 = a at *
  generalize (pos x).2 = o at *
  obtain ⟨d, rfl⟩ : ∃ d, a = o + d := ⟨a - o, by omega⟩
  rcases Nat.mod_two_eq_zero_or_one (pos x).1 with h | h
  · rw [h] at hfirst ⊢
    have hle : x + 1 ≤ 2 * (o + d) + o := by omega
    calc 2 * (x + 1) ^ 2 ≤ 2 * (2 * (o + d) + o) ^ 2 :=
          Nat.mul_le_mul_left 2 (Nat.pow_le_pow_left hle 2)
      _ ≤ 2 * (2 * (o + d) + o) ^ 2 + (3 * o * d + d ^ 2) := Nat.le_add_right _ _
      _ = 9 * ((o + d + o) * ((1 + 0) * (o + d))) := by ring
  · rw [h] at hfirst ⊢
    have hle : x + 1 ≤ 3 * (o + d) + o := by omega
    calc 2 * (x + 1) ^ 2 ≤ 2 * (3 * (o + d) + o) ^ 2 :=
          Nat.mul_le_mul_left 2 (Nat.pow_le_pow_left hle 2)
      _ ≤ 2 * (3 * (o + d) + o) ^ 2 + (4 * o ^ 2 + 6 * o * d) := Nat.le_add_right _ _
      _ = 9 * ((o + d + o) * ((1 + 1) * (o + d))) := by ring

end Superblock
