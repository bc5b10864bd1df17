import Mathlib.Algebra.BigOperators.Expect
import Mathlib.Algebra.BigOperators.Field
import Mathlib.Algebra.Order.BigOperators.Expect
import Mathlib.Algebra.Ring.GeomSum
import Mathlib.Data.Fintype.BigOperators
import Mathlib.Tactic.Linarith
import Mathlib.Tactic.Ring

/- Records of a sequence from its end, and how many there are on average.

   An entry is a record if none behind it is greater. For entries chosen independently and
   uniformly from a finite type, an entry with `r` others behind it is a record as often as
   `r` choices are all at most its own (`expect_all_le`), which makes the average number of
   records a sum of powers. `records_average` bounds it where every value up to `L` is at
   most `q` times as frequent as the greater ones together: `q` records for each of these
   values, and at most every entry above `L`.

     1. `records_map`, `records_concat`, `records_pairwise` — the records of a list;
     2. `expect_prod`, `expect_eval` — independent choices;
     3. `records_average`, `max_average` — the number of records and the greatest value. -/
namespace Records

open scoped BigOperators

/-- The entries that no later one exceeds. -/
def records {α : Type*} (h : α → Nat) : List α → List α
  | [] => []
  | a :: l => if ∀ b ∈ l, h b ≤ h a then a :: records h l else records h l

section Lists

variable {α β : Type*} {h : α → Nat}

theorem records_cons (a : α) (l : List α) :
    records h (a :: l) = if ∀ b ∈ l, h b ≤ h a then a :: records h l else records h l := rfl

theorem records_sublist : ∀ l : List α, (records h l).Sublist l
  | [] => List.Sublist.refl _
  | a :: l => by
    rw [records_cons]
    split
    · exact (records_sublist l).cons_cons a
    · exact (records_sublist l).cons a

theorem records_map (f : β → α) : ∀ l : List β, records h (l.map f) = (records (h ∘ f) l).map f
  | [] => rfl
  | b :: l => by
    rw [List.map_cons, records_cons, records_cons, records_map f l]
    simp only [List.forall_mem_map, Function.comp_apply]
    split <;> rfl

theorem records_congr {h' : α → Nat} : ∀ {l : List α}, (∀ a ∈ l, h a = h' a) →
    records h l = records h' l
  | [], _ => rfl
  | a :: l, heq => by
    obtain ⟨ha, hl⟩ := List.forall_mem_cons.mp heq
    have hall : (∀ b ∈ l, h b ≤ h a) ↔ ∀ b ∈ l, h' b ≤ h' a := by
      apply forall₂_congr
      intro b hb
      rw [hl b hb, ha]
    simp only [records_cons, hall, records_congr hl]

/-- The records fall. -/
theorem records_pairwise : ∀ l : List α, (records h l).Pairwise fun a b => h b ≤ h a
  | [] => List.Pairwise.nil
  | a :: l => by
    rw [records_cons]
    split
    · next hall =>
      refine List.pairwise_cons.mpr ⟨fun b hb => ?_, records_pairwise l⟩
      exact hall b ((records_sublist l).subset hb)
    · exact records_pairwise l

/-- So those up to `n + 1` are those of `n + 1` and then those up to `n`. -/
theorem filter_le_succ (n : Nat) : ∀ {l : List α}, (l.Pairwise fun a b => h b ≤ h a) →
    l.filter (fun a => h a ≤ n + 1) =
      l.filter (fun a => h a = n + 1) ++ l.filter (fun a => h a ≤ n)
  | [], _ => rfl
  | a :: l, hl => by
    obtain ⟨ha, hl⟩ := List.pairwise_cons.mp hl
    simp only [List.filter_cons, filter_le_succ n hl, decide_eq_true_eq]
    rcases Nat.lt_trichotomy (h a) (n + 1) with hlt | heq | hgt
    · -- nothing behind it is as great as `n + 1`
      have hnone : l.filter (fun b => h b = n + 1) = [] := by
        rw [List.filter_eq_nil_iff]
        intro b hb
        have := ha b hb
        simp only [decide_eq_true_eq]
        omega
      rw [if_pos (by omega), if_neg (by omega), if_pos (by omega), hnone, List.nil_append,
        List.nil_append]
    · rw [if_pos (by omega), if_pos heq, if_neg (by omega), List.cons_append]
    · rw [if_neg (by omega), if_neg (by omega), if_neg (by omega)]

/-- A last entry is a record and ends those that it exceeds. -/
theorem records_concat (a : α) :
    ∀ l : List α, records h (l ++ [a]) = (records h l).filter (fun b => h a ≤ h b) ++ [a]
  | [] => by simp [records]
  | b :: l => by
    rw [List.cons_append, records_cons, records_cons, records_concat a l]
    by_cases hl : ∀ c ∈ l, h c ≤ h b
    · by_cases ha : h a ≤ h b
      · rw [if_pos (by simpa [or_imp, forall_and] using ⟨hl, ha⟩), if_pos hl, List.filter_cons,
          if_pos (decide_eq_true ha), List.cons_append]
      · rw [if_neg (by simp only [List.mem_append]; exact fun hall => ha (hall a (by simp))),
          if_pos hl, List.filter_cons, if_neg (by simpa using ha)]
    · have hn : ¬ ∀ c ∈ l ++ [a], h c ≤ h b := fun hall =>
        hl fun c hc => hall c (List.mem_append_left _ hc)
      rw [if_neg hn, if_neg hl]

end Lists

/-! ## Independent choices -/

section Choices

variable {ι Ω : Type*} [Fintype ι] [DecidableEq ι] [Fintype Ω]

/-- How often a choice has a property. -/
def share (p : Ω → Prop) [DecidablePred p] : ℚ := 𝔼 ω, if p ω then 1 else 0

theorem expect_prod (f : ι → Ω → ℚ) : 𝔼 H : ι → Ω, ∏ i, f i (H i) = ∏ i, 𝔼 ω, f i ω := by
  simp only [Fintype.expect_eq_sum_div_card]
  rw [Finset.prod_div_distrib, Finset.prod_univ_sum, Fintype.piFinset_univ, Finset.prod_const,
    Finset.card_univ, Fintype.card_fun, Nat.cast_pow]

variable [Nonempty Ω]

/-- What depends on one choice only. -/
theorem expect_eval (j : ι) (f : Ω → ℚ) : 𝔼 H : ι → Ω, f (H j) = 𝔼 ω, f ω := by
  have hprod := expect_prod fun (i : ι) ω => if i = j then f ω else 1
  have hl : ∀ H : ι → Ω, (∏ i, if i = j then f (H i) else 1) = f (H j) := by
    intro H
    rw [Finset.prod_ite_eq' Finset.univ j fun i => f (H i), if_pos (Finset.mem_univ j)]
  have hr : (∏ i : ι, 𝔼 ω, if i = j then f ω else 1) = 𝔼 ω, f ω := by
    rw [← Finset.mul_prod_erase Finset.univ _ (Finset.mem_univ j)]
    simp only [if_true]
    rw [Finset.prod_eq_one, mul_one]
    intro i hi
    simp only [if_neg (Finset.ne_of_mem_erase hi), Fintype.expect_const]
  rw [← hr, ← hprod]
  exact Finset.expect_congr rfl fun H _ => (hl H).symm

/-- One choice singled out, and the choices of a set apart from it. -/
theorem prod_apart {j : ι} {s : Finset ι} (hj : j ∉ s) (a : ℚ) (b : ι → ℚ) :
    (∏ i, if i = j then a else if i ∈ s then b i else 1) = a * ∏ i ∈ s, b i := by
  rw [← Finset.mul_prod_erase Finset.univ _ (Finset.mem_univ j), if_pos rfl]
  have hrest : (∏ i ∈ Finset.univ.erase j, if i = j then a else if i ∈ s then b i else 1) =
      ∏ i ∈ Finset.univ.erase j, if i ∈ s then b i else 1 :=
    Finset.prod_congr rfl fun i hi => if_neg (Finset.ne_of_mem_erase hi)
  have hinter : Finset.univ.erase j ∩ s = s := by
    rw [Finset.erase_inter, Finset.univ_inter, Finset.erase_eq_of_notMem hj]
  rw [hrest, Finset.prod_ite_mem, hinter]

/-- How often one choice is as great as all those of a set. -/
theorem expect_all_le (g : Ω → Nat) {j : ι} {s : Finset ι} (hj : j ∉ s) :
    (𝔼 H : ι → Ω, if ∀ m ∈ s, g (H m) ≤ g (H j) then (1 : ℚ) else 0) =
      𝔼 ω, share (fun ω' => g ω' ≤ g ω) ^ s.card := by
  have := Classical.decEq Ω
  -- fix the one choice; then the condition is a product over the choices
  have hsplit : ∀ H : ι → Ω, (if ∀ m ∈ s, g (H m) ≤ g (H j) then (1 : ℚ) else 0) =
      ∑ ω, ∏ i, if i = j then if H i = ω then (1 : ℚ) else 0
        else if i ∈ s then if g (H i) ≤ g ω then 1 else 0 else 1 := by
    intro H
    have hfix : ∀ ω, (∏ i, if i = j then if H i = ω then (1 : ℚ) else 0
        else if i ∈ s then if g (H i) ≤ g ω then 1 else 0 else 1) =
        (if H j = ω then 1 else 0) * ∏ i ∈ s, if g (H i) ≤ g ω then 1 else 0 := by
      intro ω
      rw [← prod_apart hj]
      apply Finset.prod_congr rfl
      intro i _
      by_cases hi : i = j
      · rw [hi, if_pos rfl]
      · rw [if_neg hi, if_neg hi]
    simp only [hfix, ite_mul, one_mul, zero_mul, Finset.sum_ite_eq, Finset.mem_univ, if_true,
      Finset.prod_boole]
    by_cases hall : ∀ m ∈ s, g (H m) ≤ g (H j)
    · rw [if_pos hall, if_pos hall]
    · rw [if_neg hall, if_neg hall]
  have hterm : ∀ ω : Ω, (∏ i, 𝔼 ω', if i = j then if ω' = ω then (1 : ℚ) else 0
      else if i ∈ s then if g ω' ≤ g ω then 1 else 0 else 1) =
      share (fun ω' => g ω' ≤ g ω) ^ s.card / Fintype.card Ω := by
    intro ω
    have hfactor : ∀ i, (𝔼 ω', if i = j then if ω' = ω then (1 : ℚ) else 0
        else if i ∈ s then if g ω' ≤ g ω then 1 else 0 else 1) =
        if i = j then (𝔼 ω', if ω' = ω then (1 : ℚ) else 0)
        else if i ∈ s then share (fun ω' => g ω' ≤ g ω) else 1 := by
      intro i
      by_cases hi : i = j
      · simp only [if_pos hi]
      · by_cases his : i ∈ s
        · simp only [if_neg hi, if_pos his, share]
        · simp only [if_neg hi, if_neg his, Fintype.expect_const]
    rw [Finset.prod_congr rfl fun i _ => hfactor i, prod_apart hj, Finset.prod_const,
      Fintype.expect_eq_sum_div_card, Finset.sum_ite_eq', if_pos (Finset.mem_univ ω),
      div_mul_eq_mul_div, one_mul]
  rw [Finset.expect_congr rfl fun H _ => hsplit H, Finset.expect_sum_comm,
    Fintype.expect_eq_sum_div_card, Finset.sum_div]
  apply Finset.sum_congr rfl
  intro ω _
  rw [← hterm ω, ← expect_prod]

/-- Position by position, from the last. -/
theorem expect_records (g : Ω → Nat) : ∀ {js : List ι}, js.Nodup →
    𝔼 H : ι → Ω, ((records (fun j => g (H j)) js).length : ℚ) =
      ∑ r ∈ Finset.range js.length, 𝔼 ω, share (fun ω' => g ω' ≤ g ω) ^ r
  | [], _ => by simp [records]
  | j :: js, hnd => by
    obtain ⟨hj, hnd⟩ := List.nodup_cons.mp hnd
    have hcons : ∀ H : ι → Ω, ((records (fun j => g (H j)) (j :: js)).length : ℚ) =
        (records (fun j => g (H j)) js).length +
          if ∀ m ∈ js.toFinset, g (H m) ≤ g (H j) then 1 else 0 := by
      intro H
      rw [records_cons]
      simp only [List.mem_toFinset]
      split
      · rw [List.length_cons, Nat.cast_add, Nat.cast_one]
      · rw [add_zero]
    rw [Finset.expect_congr rfl fun H _ => hcons H, Finset.expect_add_distrib,
      expect_records g hnd, expect_all_le g (by rwa [List.mem_toFinset]),
      List.toFinset_card_of_nodup hnd, List.length_cons, Finset.sum_range_succ]

end Choices

/-! ## Bounds -/

section Bounds

variable {Ω : Type*} [Fintype Ω] {g : Ω → Nat}

theorem share_nonneg (p : Ω → Prop) [DecidablePred p] : 0 ≤ share p := by
  apply Finset.expect_nonneg
  intro ω _
  split <;> simp

/-- What only counts the choices with a property. -/
theorem expect_if (p : Ω → Prop) [DecidablePred p] (a : ℚ) :
    (𝔼 ω, if p ω then a else 0) = share p * a := by
  rw [share, Finset.expect_mul]
  apply Finset.expect_congr rfl
  intro ω _
  rw [ite_mul, one_mul, zero_mul]

/-- The average excess over `L`, level by level. -/
theorem excess_average {T : Nat} (hT : ∀ ω, g ω ≤ T) (L : Nat) :
    𝔼 ω, ((g ω - L : Nat) : ℚ) = ∑ t ∈ Finset.Ico L T, share fun ω => t < g ω := by
  simp only [share]
  rw [← Finset.expect_sum_comm]
  apply Finset.expect_congr rfl
  intro ω _
  have hfilter : (Finset.Ico L T).filter (fun t => t < g ω) = Finset.Ico L (g ω) := by
    ext t
    have := hT ω
    simp only [Finset.mem_filter, Finset.mem_Ico]
    omega
  rw [Finset.sum_boole, hfilter, Nat.card_Ico]

theorem foldr_max_le {α : Type*} (h : α → Nat) {L : Nat} (hL : 1 ≤ L) :
    ∀ l : List α, l.foldr (fun a t => max (h a) t) 1 ≤ L + (l.map fun a => h a - L).sum
  | [] => hL
  | a :: l => by
    have ih := foldr_max_le h hL l
    rw [List.foldr_cons, List.map_cons, List.sum_cons]
    omega

variable [Nonempty Ω]

theorem share_add_share (t : Nat) :
    share (fun ω => g ω ≤ t) + share (fun ω => t < g ω) = 1 := by
  have hone : ∀ ω, (if g ω ≤ t then (1 : ℚ) else 0) + (if t < g ω then 1 else 0) = 1 := by
    intro ω
    by_cases h : g ω ≤ t
    · rw [if_pos h, if_neg (Nat.not_lt.mpr h), add_zero]
    · rw [if_neg h, if_pos (Nat.lt_of_not_le h), zero_add]
  rw [share, share, ← Finset.expect_add_distrib, Finset.expect_congr rfl fun ω _ => hone ω]
  exact Fintype.expect_one

/-- The powers of one value, weighted with how often it is taken. -/
theorem share_mul_powers {q : ℚ} (hq0 : 0 ≤ q) {t : Nat}
    (hq : share (fun ω => g ω = t) ≤ q * share (fun ω => t < g ω)) (n : Nat) :
    share (fun ω => g ω = t) * ∑ r ∈ Finset.range n, share (fun ω => g ω ≤ t) ^ r ≤ q := by
  have hx := share_nonneg fun ω => g ω ≤ t
  have hsum := share_add_share (g := g) t
  have hpow : 0 ≤ ∑ r ∈ Finset.range n, share (fun ω => g ω ≤ t) ^ r :=
    Finset.sum_nonneg fun r _ => pow_nonneg hx r
  have hgeom : (share fun ω => t < g ω) *
      ∑ r ∈ Finset.range n, share (fun ω => g ω ≤ t) ^ r ≤ 1 := by
    rw [show (share fun ω => t < g ω) = 1 - share fun ω => g ω ≤ t by linarith, mul_neg_geom_sum]
    linarith [pow_nonneg hx n]
  calc share (fun ω => g ω = t) * ∑ r ∈ Finset.range n, share (fun ω => g ω ≤ t) ^ r
      ≤ (q * share fun ω => t < g ω) * ∑ r ∈ Finset.range n, share (fun ω => g ω ≤ t) ^ r :=
        mul_le_mul_of_nonneg_right hq hpow
    _ = q * ((share fun ω => t < g ω) * ∑ r ∈ Finset.range n, share (fun ω => g ω ≤ t) ^ r) :=
        mul_assoc _ _ _
    _ ≤ q := mul_le_of_le_one_right hq0 hgeom

theorem powers_average {q : ℚ} {L : Nat} (hq0 : 0 ≤ q) (hpos : ∀ ω, 1 ≤ g ω)
    (hq : ∀ t, 1 ≤ t → t ≤ L → share (fun ω => g ω = t) ≤ q * share (fun ω => t < g ω)) (n : Nat) :
    ∑ r ∈ Finset.range n, 𝔼 ω, share (fun ω' => g ω' ≤ g ω) ^ r ≤
      L * q + n * share (fun ω => L < g ω) := by
  let S (t : Nat) : ℚ := ∑ r ∈ Finset.range n, share (fun ω => g ω ≤ t) ^ r
  have hS : ∀ t, S t ≤ n := by
    intro t
    calc S t ≤ ∑ _r ∈ Finset.range n, (1 : ℚ) := by
          apply Finset.sum_le_sum
          intro r _
          apply pow_le_one₀ (share_nonneg _)
          linarith [share_add_share (g := g) t, share_nonneg fun ω => t < g ω]
      _ = n := by rw [Finset.sum_const, Finset.card_range, nsmul_eq_mul, mul_one]
  -- a value is either one of those up to `L` or above them
  have hsplit : ∀ ω, S (g ω) ≤
      (∑ t ∈ Finset.Icc 1 L, if g ω = t then S t else 0) + if L < g ω then (n : ℚ) else 0 := by
    intro ω
    rw [Finset.sum_ite_eq]
    by_cases hL : g ω ≤ L
    · rw [if_pos (Finset.mem_Icc.mpr ⟨hpos ω, hL⟩), if_neg (Nat.not_lt.mpr hL), add_zero]
    · rw [if_neg fun h => hL (Finset.mem_Icc.mp h).2, if_pos (Nat.lt_of_not_le hL), zero_add]
      exact hS _
  rw [← Finset.expect_sum_comm]
  calc 𝔼 ω, S (g ω)
      ≤ 𝔼 ω, ((∑ t ∈ Finset.Icc 1 L, if g ω = t then S t else 0) +
          if L < g ω then (n : ℚ) else 0) := Finset.expect_le_expect fun ω _ => hsplit ω
    _ = (∑ t ∈ Finset.Icc 1 L, share (fun ω => g ω = t) * S t) +
          share (fun ω => L < g ω) * n := by
        rw [Finset.expect_add_distrib, Finset.expect_sum_comm, expect_if]
        exact congrArg (· + _) (Finset.sum_congr rfl fun t _ => expect_if _ _)
    _ ≤ (∑ _t ∈ Finset.Icc 1 L, q) + share (fun ω => L < g ω) * n := by
        apply add_le_add_left
        apply Finset.sum_le_sum
        intro t ht
        obtain ⟨h₁, h₂⟩ := Finset.mem_Icc.mp ht
        exact share_mul_powers hq0 (hq t h₁ h₂) n
    _ = L * q + n * share (fun ω => L < g ω) := by
        rw [Finset.sum_const, Nat.card_Icc, Nat.add_sub_cancel, nsmul_eq_mul, mul_comm (n : ℚ)]

variable {ι : Type*} [Fintype ι] [DecidableEq ι]

theorem records_average {q : ℚ} {L : Nat} (hq0 : 0 ≤ q) (hpos : ∀ ω, 1 ≤ g ω)
    (hq : ∀ t, 1 ≤ t → t ≤ L → share (fun ω => g ω = t) ≤ q * share (fun ω => t < g ω))
    {js : List ι} (hnd : js.Nodup) :
    𝔼 H : ι → Ω, ((records (fun j => g (H j)) js).length : ℚ) ≤
      L * q + js.length * share (fun ω => L < g ω) := by
  rw [expect_records g hnd]
  exact powers_average hq0 hpos hq _

theorem max_average {L : Nat} (hL : 1 ≤ L) (js : List ι) :
    𝔼 H : ι → Ω, ((js.foldr (fun j t => max (g (H j)) t) 1 : Nat) : ℚ) ≤
      L + js.length * 𝔼 ω, ((g ω - L : Nat) : ℚ) := by
  have hsum : ∀ js : List ι, 𝔼 H : ι → Ω, (((js.map fun j => g (H j) - L).sum : Nat) : ℚ) =
      js.length * 𝔼 ω, ((g ω - L : Nat) : ℚ) := by
    intro js
    induction js with
    | nil => simp
    | cons j js ih =>
      simp only [List.map_cons, List.sum_cons, Nat.cast_add, List.length_cons, Nat.cast_one]
      rw [Finset.expect_add_distrib, ih, expect_eval j fun ω => ((g ω - L : Nat) : ℚ)]
      ring
  calc 𝔼 H : ι → Ω, ((js.foldr (fun j t => max (g (H j)) t) 1 : Nat) : ℚ)
      ≤ 𝔼 H : ι → Ω, ((L : ℚ) + ((js.map fun j => g (H j) - L).sum : Nat)) := by
        apply Finset.expect_le_expect
        intro H _
        exact_mod_cast foldr_max_le (fun j => g (H j)) hL js
    _ = _ := by rw [Finset.expect_add_distrib, Fintype.expect_const, hsum js]

end Bounds

end Records
