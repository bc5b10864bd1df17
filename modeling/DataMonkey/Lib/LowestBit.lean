import Mathlib.Data.BitVec

/- The lowest set bit of a word, and words whose windows name it.

   `b & -b` keeps the lowest set bit of `b`, a power of two. Multiplying a word `d` with it is
   shifting `d` to the left, and what is then in the top bits is a window on `d` at that place.
   If the windows at all places are different, a table indexed by windows gives the place.

     1. `and_neg_eq_twoPow` — the lowest set bit;
     2. `mul_lowest` — the window it selects;
     3. `table_set`, `table_lookup` — filling the table, and looking a word up. -/
namespace LowestBit

variable {w : Nat}

theorem and_neg_eq_twoPow {b : BitVec w} (hb : b ≠ 0#w) :
    b &&& -b = BitVec.twoPow w b.ctz.toNat := by
  have hlow := BitVec.getLsbD_true_ctz_of_ne_zero hb
  have hlt : b.ctz.toNat < w := BitVec.lt_of_getLsbD hlow
  apply BitVec.eq_of_getLsbD_eq
  intro i hi
  rw [BitVec.getLsbD_and, BitVec.getLsbD_neg, BitVec.getLsbD_twoPow]
  rcases Nat.lt_trichotomy i b.ctz.toNat with h | h | h
  · -- below it there are only zeros
    rw [BitVec.getLsbD_false_of_lt_ctz h]
    simp [hlt, Nat.ne_of_gt h]
  · have hnone : ¬ ∃ j < i, b.getLsbD j = true := by
      intro hex
      obtain ⟨j, hj, hbit⟩ := hex
      rw [BitVec.getLsbD_false_of_lt_ctz (by omega)] at hbit
      cases hbit
    rw [h] at hnone ⊢
    simp [hlow, hlt, hnone]
  · -- above it the negation has flipped every bit
    have hsome : ∃ j < i, b.getLsbD j = true := ⟨_, h, hlow⟩
    simp [hi, hsome, Nat.ne_of_lt h]

/-- The window on `d` at place `i`, in front of the last `s` bits. -/
def window (d : BitVec w) (s i : Nat) : Nat := ((d <<< i) >>> s).toNat

theorem mul_lowest {b : BitVec w} (hb : b ≠ 0#w) (d : BitVec w) (s : Nat) :
    (((b &&& -b) * d) >>> s).toNat = window d s b.ctz.toNat := by
  rw [and_neg_eq_twoPow hb, BitVec.twoPow_mul_eq_shiftLeft, window]

/-- The windows at the places below `n` are different. -/
def Distinct (d : BitVec w) (s n : Nat) : Prop :=
  ∀ i < n, ∀ j < n, window d s i = window d s j → i = j

/-- A table has the places below `n` at their windows. -/
def Places {α : Type} (d : BitVec w) (s : Nat) (place : Nat → α) (n : Nat) (table : List α) :
    Prop :=
  ∀ i < n, table[window d s i]? = some (place i)

/-- The next place, at a window that no place before it has. -/
theorem table_set {α : Type} {d : BitVec w} {s n : Nat} {place : Nat → α} {table : List α}
    (h : Places d s place n table) (hdistinct : Distinct d s (n + 1))
    (hroom : window d s n < table.length) :
    Places d s place (n + 1) (table.set (window d s n) (place n)) := by
  intro i hi
  by_cases hin : i = n
  · rw [hin, List.getElem?_set_self hroom]
  · have hne : window d s n ≠ window d s i := fun e =>
      hin (hdistinct i hi n (Nat.lt_succ_self n) e.symm)
    rw [List.getElem?_set_ne hne]
    exact h i (by omega)

theorem table_lookup {α : Type} {d : BitVec w} {s : Nat} {place : Nat → α} {table : List α}
    (h : Places d s place w table) {b : BitVec w} (hb : b ≠ 0#w) :
    table[(((b &&& -b) * d) >>> s).toNat]? = some (place b.ctz.toNat) ∧
      b.getLsbD b.ctz.toNat = true ∧ ∀ j < b.ctz.toNat, b.getLsbD j = false := by
  have hlow := BitVec.getLsbD_true_ctz_of_ne_zero hb
  refine ⟨?_, hlow, fun j hj => BitVec.getLsbD_false_of_lt_ctz hj⟩
  rw [mul_lowest hb]
  exact h _ (BitVec.lt_of_getLsbD hlow)

end LowestBit
