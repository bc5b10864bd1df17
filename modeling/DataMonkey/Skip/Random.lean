import Mathlib.Algebra.Order.Field.GeomSum
import Mathlib.Data.Fintype.Fin
import Mathlib.Logic.Equiv.Fin.Basic
import DataMonkey.Lib.Records
import DataMonkey.Skip.Model

/- The heights that `random_level` draws.

   `random()` is idealized: its values are independent and uniform below 2^31. One call of
   `random_level` is given `m` of them; from 31 on that is as good as endlessly many, for 31
   successes already make `SKIP_MAX`.

     1. `share_raises`, `share_taller` — every further level is drawn by a quarter;
     2. `random_level_distribution` — how often each height is drawn;
     3. `heightDrawn_average`, `heightDrawn_excess` — the average height, and the average above
        a level. -/
namespace DataMonkey.Skip

open Records
open scoped BigOperators

/-- A value of `random()`. -/
abbrev Draw := Fin 0x80000000

/-- The height that `random_level` makes of `m` draws. -/
def heightDrawn {m : Nat} (d : Fin m → Draw) : Height := randomLevel (List.ofFn fun i => (d i).val)

/-! ## How often a height is drawn -/

/-- The loop test of `random_level`. -/
def Raises (d : Nat) : Prop := 4 * (d &&& 0xFFFF) < 0xFFFF

instance : DecidablePred Raises :=
  fun d => inferInstanceAs (Decidable (4 * (d &&& 0xFFFF) < 0xFFFF))

theorem raises_iff (d : Nat) : Raises d ↔ d % 2 ^ 16 < 2 ^ 14 := by
  rw [Raises, show (0xFFFF : Nat) = 2 ^ 16 - 1 by rfl, Nat.and_two_pow_sub_one_eq_mod]
  omega

/-- The test lets 16384 of 65536 values pass. -/
theorem share_raises : (share fun d : Draw => Raises d.val) = 1 / 4 := by
  let e : Fin (2 ^ 15) × Fin (2 ^ 16) ≃ Draw := finProdFinEquiv.trans (finCongr (by decide))
  have he : ∀ p, (e p).val % 2 ^ 16 = p.2.val := by
    intro p
    show (p.2.val + 2 ^ 16 * p.1.val) % 2 ^ 16 = p.2.val
    rw [Nat.add_mul_mod_self_left, Nat.mod_eq_of_lt p.2.isLt]
  have hsplit : (share fun d : Draw => Raises d.val) =
      𝔼 p : Fin (2 ^ 15) × Fin (2 ^ 16), if p.2.val < 2 ^ 14 then (1 : ℚ) else 0 := by
    symm
    apply Fintype.expect_equiv e
    intro p
    simp only [raises_iff, he]
  rw [hsplit, ← Finset.univ_product_univ, Finset.expect_product]
  simp only [Fintype.expect_eq_sum_div_card, Finset.sum_boole,
    Fin.card_filter_val_lt, Fintype.card_fin]
  norm_num

theorem randomLevel_val (draws : List Nat) :
    (randomLevel draws).val = min (randomLoop draws 1) skipMax := by
  unfold randomLevel
  split
  · simp only
    omega
  · simp only
    omega

/-- The loop passes `t` rounds if the first `t` draws do. -/
theorem le_randomLoop_iff : ∀ {m t : Nat} (f : Fin m → Nat) (level : Nat), t ≤ m →
    (level + t ≤ randomLoop (List.ofFn f) level ↔ ∀ i : Fin m, i.val < t → Raises (f i))
  | 0, t, f, level, ht => by
    refine iff_of_true ?_ fun i => i.elim0
    rw [Nat.le_zero.mp ht]
    exact le_randomLoop _ _
  | m + 1, 0, f, level, _ =>
    iff_of_true (le_randomLoop _ _) fun i hi => absurd hi (Nat.not_lt_zero _)
  | m + 1, t + 1, f, level, ht => by
    rw [List.ofFn_succ, randomLoop, Fin.forall_fin_succ]
    by_cases h0 : 4 * (f 0 &&& 0xFFFF) < 0xFFFF
    · have ih := le_randomLoop_iff (fun i => f i.succ) (level + 1) (Nat.le_of_succ_le_succ ht)
      have hfirst : Raises (f 0) := h0
      rw [if_pos h0, show level + (t + 1) = level + 1 + t by omega, ih]
      simp only [hfirst, implies_true, true_and, Fin.val_succ, Nat.succ_lt_succ_iff]
    · rw [if_neg h0]
      exact iff_of_false (by omega) fun h => h0 (h.1 (Nat.succ_pos t))

variable {m : Nat}

theorem lt_heightDrawn_iff (hm : skipMax ≤ m + 1) {t : Nat} (ht : t < skipMax) (d : Fin m → Draw) :
    t < (heightDrawn d).val ↔ ∀ i : Fin m, i.val < t → Raises (d i).val := by
  rw [← le_randomLoop_iff (fun i => (d i).val) 1 (by omega : t ≤ m), heightDrawn, randomLevel_val]
  omega

theorem share_taller (hm : skipMax ≤ m + 1) {t : Nat} (ht : t < skipMax) :
    (share fun d : Fin m → Draw => t < (heightDrawn d).val) = (1 / 4) ^ t := by
  have hprod : ∀ d : Fin m → Draw, (if t < (heightDrawn d).val then (1 : ℚ) else 0) =
      ∏ i : Fin m, if i.val < t then if Raises (d i).val then 1 else 0 else 1 := by
    intro d
    have hfactor : ∀ i : Fin m, (if i.val < t then if Raises (d i).val then (1 : ℚ) else 0 else 1) =
        if i.val < t → Raises (d i).val then 1 else 0 := by
      intro i
      by_cases hi : i.val < t <;> simp [hi]
    rw [Finset.prod_congr rfl fun i _ => hfactor i, Finset.prod_boole]
    simp only [lt_heightDrawn_iff hm ht, Finset.mem_univ, true_implies]
  have hfactor : ∀ i : Fin m, (𝔼 x : Draw, if i.val < t then if Raises x.val then (1 : ℚ) else 0
      else 1) = if i.val < t then 1 / 4 else 1 := by
    intro i
    by_cases hi : i.val < t
    · simp only [if_pos hi]
      exact share_raises
    · simp only [if_neg hi, Fintype.expect_const]
  rw [share, Finset.expect_congr rfl fun d _ => hprod d,
    expect_prod fun (i : Fin m) (x : Draw) => if i.val < t then if Raises x.val then (1 : ℚ) else 0
      else 1, Finset.prod_congr rfl fun i _ => hfactor i, Finset.prod_ite, Finset.prod_const,
    Finset.prod_const_one, mul_one, Fin.card_filter_val_lt, min_eq_right (by omega)]

theorem share_exactly (hm : skipMax ≤ m + 1) {t : Nat} (h1 : 1 ≤ t) (ht : t < skipMax) :
    (share fun d : Fin m → Draw => (heightDrawn d).val = t) = 3 * (1 / 4) ^ t := by
  -- exactly `t` is more than `t - 1` and not more than `t`
  have hsum : (share fun d : Fin m → Draw => (heightDrawn d).val = t) +
      (share fun d : Fin m → Draw => t < (heightDrawn d).val) =
      share fun d : Fin m → Draw => t - 1 < (heightDrawn d).val := by
    rw [share, share, share, ← Finset.expect_add_distrib]
    apply Finset.expect_congr rfl
    intro d _
    rcases Nat.lt_trichotomy (heightDrawn d).val t with h | h | h
    · rw [if_neg (by omega), if_neg (by omega), if_neg (by omega), add_zero]
    · rw [if_pos h, if_neg (by omega), if_pos (by omega), add_zero]
    · rw [if_neg (by omega), if_pos h, if_pos (by omega), zero_add]
  rw [share_taller hm ht, share_taller hm (by omega)] at hsum
  obtain ⟨s, rfl⟩ : ∃ s, t = s + 1 := ⟨t - 1, by omega⟩
  rw [Nat.add_sub_cancel, pow_succ] at hsum
  rw [pow_succ]
  linarith

/-- Height `t` is drawn by 3 of 4^t, the greatest height by the 1 of 4^31 that is left. -/
theorem random_level_distribution (hm : skipMax ≤ m + 1) (t : Height) :
    (share fun d : Fin m → Draw => (heightDrawn d).val = t.val) =
      if t.val < skipMax then 3 * (1 / 4) ^ t.val else (1 / 4) ^ (skipMax - 1) := by
  by_cases ht : t.val < skipMax
  · rw [if_pos ht, share_exactly hm t.pos ht]
  · -- no height is greater
    have htop : t.val = skipMax := Nat.le_antisymm t.le_max (Nat.le_of_not_lt ht)
    rw [if_neg ht, ← share_taller hm (t := skipMax - 1) (by decide), share, share]
    apply Finset.expect_congr rfl
    intro d _
    have hle := (heightDrawn d).le_max
    have hpos : 0 < skipMax := by decide
    by_cases h : (heightDrawn d).val = t.val
    · rw [if_pos h, if_pos (by omega)]
    · rw [if_neg h, if_neg (by omega)]

/-- Three of four heights are 1. -/
theorem random_level_distribution_one :
    (share fun d : Fin 31 → Draw => (heightDrawn d).val = 1) = 3 / 4 := by
  have h := random_level_distribution (m := 31) (by decide) ⟨1, by decide, by decide⟩
  rw [if_pos (by decide)] at h
  rw [h]
  norm_num

/-! ## Averages -/

/-- Levels from `L` on, on average. -/
theorem heightDrawn_excess (hm : skipMax ≤ m + 1) (L : Nat) :
    (𝔼 d : Fin m → Draw, (((heightDrawn d).val - L : Nat) : ℚ)) =
      ∑ t ∈ Finset.Ico L skipMax, (1 / 4 : ℚ) ^ t := by
  rw [excess_average (fun d : Fin m → Draw => (heightDrawn d).le_max) L]
  exact Finset.sum_congr rfl fun t ht => share_taller hm (Finset.mem_Ico.mp ht).2

theorem heightDrawn_excess_le (hm : skipMax ≤ m + 1) (L : Nat) :
    (𝔼 d : Fin m → Draw, (((heightDrawn d).val - L : Nat) : ℚ)) ≤ 4 / 3 * (1 / 4) ^ L := by
  rw [heightDrawn_excess hm L]
  calc ∑ t ∈ Finset.Ico L skipMax, (1 / 4 : ℚ) ^ t
      ≤ (1 / 4) ^ L / (1 - 1 / 4) := geom_sum_Ico_le_of_lt_one (by norm_num) (by norm_num)
    _ = 4 / 3 * (1 / 4) ^ L := by ring

theorem heightDrawn_average (hm : skipMax ≤ m + 1) :
    (𝔼 d : Fin m → Draw, ((heightDrawn d).val : ℚ)) = 4 / 3 * (1 - (1 / 4) ^ skipMax) := by
  have hexcess := heightDrawn_excess hm 0
  simp only [Nat.sub_zero] at hexcess
  calc (𝔼 d : Fin m → Draw, ((heightDrawn d).val : ℚ))
      = ∑ t ∈ Finset.range skipMax, (1 / 4 : ℚ) ^ t := by rw [hexcess, Finset.range_eq_Ico]
    _ = ((1 / 4) ^ skipMax - 1) / (1 / 4 - 1) := geom_sum_eq (by norm_num) skipMax
    _ = 4 / 3 * (1 - (1 / 4) ^ skipMax) := by ring

end DataMonkey.Skip
