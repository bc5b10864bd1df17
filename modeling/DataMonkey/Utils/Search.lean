import Mathlib.Algebra.Order.Ring.Int
import DataMonkey.Lib.Runs

/- `seq_search` and `bin_search` of `utils.c`, on a sorted range of an `int` array.

   The two ask for the same value in the positions `start` to `end`. `bin_search` adds its two
   bounds before it halves them, and the sum is an `int`: while it goes on in the upper half
   its windows end at `end`, and sooner or later the sum does not fit.

   Correspondence (C ↔ Lean):
     `seq_search`   ↔ `seqSearch`, `seqLoop`
     `bin_search`   ↔ `binSearch`, `binLoop`

   An `int` expression is computed on the integers and checked, a read is checked against the
   length of the array. The elements are only compared. `bin_search` also hands out the
   positions it read, the latest first.

     1. `seqLoop_spec`, `binLoop_sound` — a search that returns is right;
     2. `sumsFit_upper` — the condition moves with the window;
     3. `binLoop_returns`, `binLoop_overflows` — a binary search returns as long as it holds;
     4. `binSearch_agrees_iff` — when the two searches agree. -/
namespace DataMonkey.Utils

/-- What a search can run into instead of returning. -/
inductive Fault where
  | overflow    -- an `int` expression whose value is no `int`
  | arrayBound  -- a position that the array does not have
  | endless     -- more rounds than there are positions to look at
  deriving DecidableEq, Repr

def intMin : Int := -2147483648
def intMax : Int := 2147483647

/-- The value of an `int` expression. -/
def int (x : Int) : Except Fault Int :=
  if intMin ≤ x ∧ x ≤ intMax then .ok x else .error .overflow

structure IntArray where
  length : Nat
  cell : Nat → Int

def IntArray.val (a : IntArray) (p : Int) : Int := a.cell p.toNat

/-- `a[p]` -/
def IntArray.read (a : IntArray) (p : Int) : Except Fault Int :=
  if 0 ≤ p ∧ p < a.length then .ok (a.val p) else .error .arrayBound

/-- `for(i=start; i<=end; i++)`, from `i`. -/
def seqLoop (a : IntArray) (reqV end_ : Int) : Nat → Int → Except Fault Int
  | 0, _ => .error .endless
  | fuel + 1, i =>
    if i ≤ end_ then do
      let v ← a.read i
      if reqV = v then .ok i
      else
        let i ← int (i + 1)
        seqLoop a reqV end_ fuel i
    else .ok (-1)

def seqSearch (a : IntArray) (reqV start end_ : Int) : Except Fault Int :=
  seqLoop a reqV end_ ((end_ - start + 1).toNat + 1) start

/-- `while(end >= start)`; `a[middle]` is the same in both comparisons. -/
def binLoop (a : IntArray) (reqV : Int) :
    Nat → Int → Int → List Int → Except Fault (Int × List Int)
  | 0, _, _, _ => .error .endless
  | fuel + 1, start, end_, reads =>
    if start ≤ end_ then do
      let sum ← int (start + end_)
      let middle := sum.tdiv 2
      let v ← a.read middle
      if reqV = v then .ok (middle, middle :: reads)
      else if reqV < v then
        let end_ ← int (middle - 1)
        binLoop a reqV fuel start end_ (middle :: reads)
      else
        let start ← int (middle + 1)
        binLoop a reqV fuel start end_ (middle :: reads)
    else .ok (-1, reads)

/-- Every round makes the range smaller, so these are tests enough. -/
def binSearch (a : IntArray) (reqV start end_ : Int) : Except Fault (Int × List Int) :=
  binLoop a reqV ((end_ - start + 1).toNat + 1) start end_ []

/-! ## Sorted arrays and agreement -/

def IntArray.Sorted (a : IntArray) : Prop :=
  ∀ i j, i ≤ j → j < a.length → a.cell i ≤ a.cell j

/-- The searches allowed: in a sorted array, in a range of positions that it has, with an
    `end` that `i++` can pass. -/
structure Searchable (a : IntArray) (start end_ : Int) : Prop where
  sorted : a.Sorted
  nonneg : 0 ≤ start
  passable : end_ < intMax
  inside : start ≤ end_ → end_ < a.length

/-- `bin_search` returns, with -1 exactly if `seq_search` does and otherwise with a position
    that has the value, and it reads within the range only. -/
def Agrees (a : IntArray) (reqV start end_ : Int) : Prop :=
  ∃ r reads s, binSearch a reqV start end_ = .ok (r, reads) ∧
    seqSearch a reqV start end_ = .ok s ∧
    (∀ p ∈ reads, start ≤ p ∧ p ≤ end_) ∧
    (r = -1 ↔ s = -1) ∧
    (r ≠ -1 → start ≤ r ∧ r ≤ end_ ∧ a.read r = .ok reqV)

/-- A search that keeps to the upper half has windows of `w`, `w / 2`, `w / 4`, .. positions
    for a range of `w`, all ending at `end`. Whenever such a window is so small that its
    bounds add up to more than an `int`, it is not reached: it is not the whole range, and
    the value is not above the element in front of it. -/
def SumsFit (a : IntArray) (reqV start end_ : Int) : Prop :=
  ∀ j : Nat, 1 ≤ (end_ - start + 1) / 2 ^ j → (end_ - start + 1) / 2 ^ j + intMax < 2 * end_ + 1 →
    j ≠ 0 ∧ reqV ≤ a.val (end_ - (end_ - start + 1) / 2 ^ j)

/-- What either search is to return. -/
def Found (a : IntArray) (reqV start end_ r : Int) : Prop :=
  (r = -1 ∧ ∀ p, start ≤ p → p ≤ end_ → a.val p ≠ reqV) ∨
    (start ≤ r ∧ r ≤ end_ ∧ a.val r = reqV)

/-! ## Single steps -/

theorem int_spec {x : Int} (h₁ : intMin ≤ x) (h₂ : x ≤ intMax) : int x = .ok x := if_pos ⟨h₁, h₂⟩

theorem int_overflow {x : Int} (h : intMax < x) : int x = .error .overflow :=
  if_neg fun hx => Int.not_le.mpr h hx.2

section Window

variable {a : IntArray} {reqV start end_ r : Int} {fuel : Nat} {reads : List Int}

theorem IntArray.read_spec {p : Int} (h₀ : 0 ≤ p) (h : p < a.length) :
    a.read p = .ok (a.val p) := if_pos ⟨h₀, h⟩

theorem IntArray.Sorted.val_le (h : a.Sorted) {p q : Int} (h₀ : 0 ≤ p) (hpq : p ≤ q)
    (hq : q < a.length) : a.val p ≤ a.val q := h p.toNat q.toNat (by omega) (by omega)

/-- The position that a round looks at. -/
theorem middle_spec (h : start ≤ end_) :
    start ≤ (start + end_) / 2 ∧ (start + end_) / 2 ≤ end_ ∧
      (start + end_) / 2 = end_ - (end_ - start + 1) / 2 := by omega

namespace Searchable

theorem lower (H : Searchable a start end_) (h : start ≤ end_) :
    Searchable a start ((start + end_) / 2 - 1) := by
  obtain ⟨-, hmid, -⟩ := middle_spec h
  have hin := H.inside h
  have hpass := H.passable
  exact ⟨H.sorted, H.nonneg, by omega, fun _ => by omega⟩

theorem upper (H : Searchable a start end_) (h : start ≤ end_) :
    Searchable a ((start + end_) / 2 + 1) end_ := by
  have hstart := H.nonneg
  exact ⟨H.sorted, by omega, H.passable, fun _ => H.inside h⟩

end Searchable

theorem binLoop_empty (h : end_ < start) :
    binLoop a reqV (fuel + 1) start end_ reads = .ok (-1, reads) :=
  if_neg (Int.not_le.mpr h)

/-- A round whose sum fits. -/
theorem binLoop_round (H : Searchable a start end_) (h : start ≤ end_)
    (hsum : start + end_ ≤ intMax) :
    binLoop a reqV (fuel + 1) start end_ reads =
      let middle := (start + end_) / 2
      if reqV = a.val middle then .ok (middle, middle :: reads)
      else if reqV < a.val middle then
        binLoop a reqV fuel start (middle - 1) (middle :: reads)
      else binLoop a reqV fuel (middle + 1) end_ (middle :: reads) := by
  have hstart := H.nonneg
  have hin := H.inside h
  have hpass := H.passable
  obtain ⟨hlo, hhi, -⟩ := middle_spec h
  have hdiv : (start + end_).tdiv 2 = (start + end_) / 2 :=
    Int.tdiv_eq_ediv_of_nonneg (by omega)
  rw [binLoop, if_pos h, int_spec (by unfold intMin; omega) hsum, Runs.ok_bind]
  simp only [hdiv]
  rw [IntArray.read_spec (by omega) (by omega), Runs.ok_bind,
    int_spec (x := (start + end_) / 2 - 1) (by unfold intMin; omega) (by omega),
    int_spec (x := (start + end_) / 2 + 1) (by unfold intMin; omega) (by omega)]
  rfl

theorem binLoop_overflow (h : start ≤ end_) (hsum : intMax < start + end_) :
    binLoop a reqV (fuel + 1) start end_ reads = .error .overflow := by
  rw [binLoop, if_pos h, int_overflow hsum, Runs.error_bind]

/-! ## A search that returns is right -/

theorem Found.eq_neg_one_iff (h₀ : 0 ≤ start) (h : Found a reqV start end_ r) :
    r = -1 ↔ ∀ p, start ≤ p → p ≤ end_ → a.val p ≠ reqV := by
  rcases h with ⟨hr, hno⟩ | ⟨hlo, hhi, hv⟩
  · exact iff_of_true hr hno
  · exact iff_of_false (by omega) fun hno => hno r hlo hhi hv

theorem seqLoop_spec (h₀ : 0 ≤ start) (hpass : end_ < intMax)
    (hin : start ≤ end_ → end_ < a.length) (hfuel : (end_ - start + 1).toNat < fuel) :
    ∃ r, seqLoop a reqV end_ fuel start = .ok r ∧ Found a reqV start end_ r := by
  induction fuel generalizing start with
  | zero => exact absurd hfuel (Nat.not_lt_zero _)
  | succ fuel ih =>
    by_cases h : start ≤ end_
    · have hread := IntArray.read_spec (a := a) h₀ (by have := hin h; omega)
      by_cases hv : reqV = a.val start
      · refine ⟨start, ?_, .inr ⟨Int.le_refl start, h, hv.symm⟩⟩
        rw [seqLoop, if_pos h, hread, Runs.ok_bind, if_pos hv]
      · obtain ⟨r, hrun, hr⟩ : ∃ r, seqLoop a reqV end_ fuel (start + 1) = .ok r ∧
            Found a reqV (start + 1) end_ r := ih (by omega) (fun _ => hin h) (by omega)
        refine ⟨r, ?_, ?_⟩
        · rw [seqLoop, if_pos h, hread, Runs.ok_bind, if_neg hv,
            int_spec (by unfold intMin; omega) (by omega), Runs.ok_bind, hrun]
        · rcases hr with ⟨hr, hno⟩ | ⟨hlo, hhi, hval⟩
          · refine .inl ⟨hr, fun p hp hpe => ?_⟩
            by_cases hps : p = start
            · rw [hps]
              exact Ne.symm hv
            · exact hno p (by omega) hpe
          · exact .inr ⟨by omega, hhi, hval⟩
    · refine ⟨-1, ?_, .inl ⟨rfl, fun p hp hpe => by omega⟩⟩
      rw [seqLoop, if_neg h]

/-- The value is not above the middle. -/
theorem Found.of_lower (H : Searchable a start end_) (h : start ≤ end_)
    (hlt : reqV < a.val ((start + end_) / 2))
    (hr : Found a reqV start ((start + end_) / 2 - 1) r) : Found a reqV start end_ r := by
  obtain ⟨hlo, hhi, -⟩ := middle_spec h
  have hstart := H.nonneg
  have hin := H.inside h
  rcases hr with ⟨hr, hno⟩ | ⟨h₁, h₂, hv⟩
  · refine .inl ⟨hr, fun p hp hpe => ?_⟩
    by_cases hpm : p ≤ (start + end_) / 2 - 1
    · exact hno p hp hpm
    · have hle := H.sorted.val_le (p := (start + end_) / 2) (q := p) (by omega) (by omega) (by omega)
      omega
  · exact .inr ⟨h₁, by omega, hv⟩

/-- The value is not below it. -/
theorem Found.of_upper (H : Searchable a start end_) (h : start ≤ end_)
    (hlt : a.val ((start + end_) / 2) < reqV)
    (hr : Found a reqV ((start + end_) / 2 + 1) end_ r) : Found a reqV start end_ r := by
  obtain ⟨hlo, hhi, -⟩ := middle_spec h
  have hstart := H.nonneg
  have hin := H.inside h
  rcases hr with ⟨hr, hno⟩ | ⟨h₁, h₂, hv⟩
  · refine .inl ⟨hr, fun p hp hpe => ?_⟩
    by_cases hpm : (start + end_) / 2 + 1 ≤ p
    · exact hno p hpm hpe
    · have hle := H.sorted.val_le (p := p) (q := (start + end_) / 2) (by omega) (by omega) (by omega)
      omega
  · exact .inr ⟨by omega, h₂, hv⟩

theorem binLoop_sound (H : Searchable a start end_) {reads' : List Int}
    (hrun : binLoop a reqV fuel start end_ reads = .ok (r, reads')) :
    Found a reqV start end_ r ∧ ∀ p ∈ reads', p ∈ reads ∨ (start ≤ p ∧ p ≤ end_) := by
  induction fuel generalizing start end_ reads with
  | zero => cases hrun
  | succ fuel ih =>
    by_cases h : start ≤ end_
    · by_cases hsum : start + end_ ≤ intMax
      · rw [binLoop_round H h hsum] at hrun
        dsimp only at hrun
        obtain ⟨hlo, hhi, -⟩ := middle_spec h
        have hnew : ∀ {p}, p ∈ (start + end_) / 2 :: reads → p ∈ reads ∨ (start ≤ p ∧ p ≤ end_) := by
          intro p hp
          rcases List.mem_cons.mp hp with rfl | hp
          · exact .inr ⟨hlo, hhi⟩
          · exact .inl hp
        split at hrun
        · next hv =>
          obtain ⟨rfl, rfl⟩ := Runs.ok_pair_inj hrun
          exact ⟨.inr ⟨hlo, hhi, hv.symm⟩, fun p => hnew⟩
        · next hne =>
          split at hrun
          · next hlt =>
            obtain ⟨hr, hreads⟩ := ih (H.lower h) hrun
            refine ⟨hr.of_lower H h hlt, fun p hp => ?_⟩
            rcases hreads p hp with hp | hp
            · exact hnew hp
            · exact .inr ⟨hp.1, by omega⟩
          · next hge =>
            obtain ⟨hr, hreads⟩ := ih (H.upper h) hrun
            refine ⟨hr.of_upper H h (by omega), fun p hp => ?_⟩
            rcases hreads p hp with hp | hp
            · exact hnew hp
            · exact .inr ⟨by omega, hp.2⟩
      · rw [binLoop_overflow h (by omega)] at hrun
        cases hrun
    · rw [binLoop_empty (by omega)] at hrun
      obtain ⟨rfl, rfl⟩ := Runs.ok_pair_inj hrun
      exact ⟨.inl ⟨rfl, fun p hp hpe => by omega⟩, fun p hp => .inl hp⟩

/-! ## Where the sums fit -/

/-- An empty range has no windows. -/
theorem sumsFit_empty (h : end_ < start) : SumsFit a reqV start end_ := by
  intro j h₁ _
  have hle : (end_ - start + 1) / 2 ^ j ≤ 0 :=
    Int.ediv_nonpos_of_nonpos_of_neg (by omega) (Int.pow_pos (by decide))
  omega

/-- With an `end` of up to half of the largest `int` there is nothing to fear. -/
theorem sumsFit_of_small (h : 2 * end_ ≤ intMax) : SumsFit a reqV start end_ := by
  intro j h₁ h₂
  omega

theorem half_window (w : Int) (j : Nat) : w / 2 ^ (j + 1) = w / 2 / 2 ^ j := by
  rw [Int.ediv_ediv_of_nonneg (by decide), Int.pow_succ, Int.mul_comm]

theorem not_sumsFit (h : start ≤ end_) (hsum : intMax < start + end_) :
    ¬ SumsFit a reqV start end_ := by
  intro hfit
  have h0 := hfit 0 (by rw [Int.pow_zero, Int.ediv_one]; omega)
    (by rw [Int.pow_zero, Int.ediv_one]; omega)
  exact h0.1 rfl

/-- A search that goes on in the lower half, or that is over, has no more to fear. -/
theorem sumsFit_of_le (H : Searchable a start end_) (h : start ≤ end_)
    (hsum : start + end_ ≤ intMax) (hle : reqV ≤ a.val ((start + end_) / 2)) :
    SumsFit a reqV start end_ := by
  intro j h₁ h₂
  obtain ⟨hlo, hhi, hmid⟩ := middle_spec h
  have hstart := H.nonneg
  have hin := H.inside h
  cases j with
  | zero =>
    rw [Int.pow_zero, Int.ediv_one] at h₂
    omega
  | succ j =>
    -- the element in front of the window lies at the middle or behind it
    rw [half_window] at h₁ ⊢
    have hhalf : (end_ - start + 1) / 2 / 2 ^ j ≤ (end_ - start + 1) / 2 :=
      Int.ediv_le_self _ (by omega)
    refine ⟨Nat.succ_ne_zero j, Int.le_trans hle ?_⟩
    exact H.sorted.val_le (by omega) (by omega) (by omega)

/-- A search that goes on in the upper half meets the windows behind the first one. -/
theorem sumsFit_upper (h : start ≤ end_) (hsum : start + end_ ≤ intMax)
    (hlt : a.val ((start + end_) / 2) < reqV) :
    SumsFit a reqV start end_ ↔ SumsFit a reqV ((start + end_) / 2 + 1) end_ := by
  obtain ⟨-, -, hmid⟩ := middle_spec h
  have hw : end_ - ((start + end_) / 2 + 1) + 1 = (end_ - start + 1) / 2 := by omega
  refine ⟨?_, ?_⟩
  · intro hfit j h₁ h₂
    rw [hw] at h₁ h₂ ⊢
    rw [← half_window] at h₁ h₂ ⊢
    have hle := (hfit (j + 1) h₁ h₂).2
    refine ⟨?_, hle⟩
    intro hj
    subst hj
    -- the element in front of it is the one just compared
    rw [half_window, Int.pow_zero, Int.ediv_one, ← hmid] at hle
    omega
  · intro hfit j h₁ h₂
    cases j with
    | zero =>
      rw [Int.pow_zero, Int.ediv_one] at h₂
      omega
    | succ j =>
      rw [half_window, ← hw] at h₁ h₂ ⊢
      exact ⟨Nat.succ_ne_zero j, (hfit j h₁ h₂).2⟩

theorem binLoop_returns (H : Searchable a start end_) (hfit : SumsFit a reqV start end_)
    (hfuel : (end_ - start + 1).toNat < fuel) :
    ∃ p, binLoop a reqV fuel start end_ reads = .ok p := by
  induction fuel generalizing start end_ reads with
  | zero => exact absurd hfuel (Nat.not_lt_zero _)
  | succ fuel ih =>
    by_cases h : start ≤ end_
    · by_cases hsum : start + end_ ≤ intMax
      · rw [binLoop_round H h hsum]
        dsimp only
        obtain ⟨hlo, hhi, -⟩ := middle_spec h
        have hpass := H.passable
        split
        · exact ⟨_, rfl⟩
        · next hne =>
          split
          · exact ih (H.lower h) (sumsFit_of_small (by omega)) (by omega)
          · next hge =>
            have hlt : a.val ((start + end_) / 2) < reqV := by omega
            exact ih (H.upper h) ((sumsFit_upper h hsum hlt).mp hfit) (by omega)
      · exact absurd hfit (not_sumsFit h (by omega))
    · exact ⟨_, binLoop_empty (by omega)⟩

theorem binLoop_overflows (H : Searchable a start end_) (hfit : ¬ SumsFit a reqV start end_)
    (hfuel : (end_ - start + 1).toNat < fuel) :
    binLoop a reqV fuel start end_ reads = .error .overflow := by
  induction fuel generalizing start end_ reads with
  | zero => exact absurd hfuel (Nat.not_lt_zero _)
  | succ fuel ih =>
    have h : start ≤ end_ := by
      apply Int.not_lt.mp
      intro h
      exact hfit (sumsFit_empty h)
    by_cases hsum : start + end_ ≤ intMax
    · have hlt : a.val ((start + end_) / 2) < reqV := by
        apply Int.not_le.mp
        intro hle
        exact hfit (sumsFit_of_le H h hsum hle)
      obtain ⟨hlo, hhi, -⟩ := middle_spec h
      rw [binLoop_round H h hsum]
      dsimp only
      rw [if_neg (by omega), if_neg (by omega)]
      exact ih (H.upper h) (mt (sumsFit_upper h hsum hlt).mpr hfit) (by omega)
    · exact binLoop_overflow h (by omega)

end Window

/-- On every sorted range the two searches agree, and `bin_search` stays inside the range and
    the 32 bits, exactly if its sums fit. -/
theorem binSearch_agrees_iff {a : IntArray} {start end_ : Int} (H : Searchable a start end_)
    (reqV : Int) : Agrees a reqV start end_ ↔ SumsFit a reqV start end_ := by
  refine ⟨?_, ?_⟩
  · intro h
    obtain ⟨r, reads, s, hrun, -⟩ := h
    by_contra hfit
    rw [binSearch, binLoop_overflows H hfit (Nat.lt_succ_self _)] at hrun
    cases hrun
  · intro hfit
    obtain ⟨⟨r, reads⟩, hrun⟩ : ∃ p, binSearch a reqV start end_ = .ok p :=
      binLoop_returns H hfit (Nat.lt_succ_self _)
    obtain ⟨hr, hreads⟩ := binLoop_sound H hrun
    obtain ⟨s, hseq, hs⟩ := seqLoop_spec H.nonneg H.passable H.inside (Nat.lt_succ_self _)
    refine ⟨r, reads, s, hrun, hseq, ?_, ?_, fun hne => ?_⟩
    · intro p hp
      exact (hreads p hp).resolve_left List.not_mem_nil
    · rw [hr.eq_neg_one_iff H.nonneg, hs.eq_neg_one_iff H.nonneg]
    · rcases hr with ⟨hr, -⟩ | ⟨hlo, hhi, hv⟩
      · exact absurd hr hne
      · have hin := H.inside (Int.le_trans hlo hhi)
        have hstart := H.nonneg
        refine ⟨hlo, hhi, ?_⟩
        rw [IntArray.read_spec (by omega) (by omega), hv]

theorem binSearch_agrees_three : Agrees ⟨3, fun i => i / 2⟩ 0 0 2 := by
  have H : Searchable ⟨3, fun i => i / 2⟩ 0 2 := by
    refine ⟨fun i j hij _ => ?_, by decide, by decide, fun _ => by decide⟩
    show (i : Int) / 2 ≤ (j : Int) / 2
    omega
  exact (binSearch_agrees_iff H 0).mpr (sumsFit_of_small (by decide))

/-- One position, the 2^30th, that `seq_search` finds: the two bounds are equal, and their
    sum is 2^31. -/
theorem binSearch_overflows :
    seqSearch ⟨1073741825, fun _ => 0⟩ 0 1073741824 1073741824 = .ok 1073741824 ∧
      binSearch ⟨1073741825, fun _ => 0⟩ 0 1073741824 1073741824 = .error .overflow ∧
      Searchable ⟨1073741825, fun _ => 0⟩ 1073741824 1073741824 ∧
      ¬ Agrees ⟨1073741825, fun _ => 0⟩ 0 1073741824 1073741824 := by
  refine ⟨rfl, rfl, ?_, ?_⟩
  · exact ⟨fun _ _ _ _ => Int.le_refl _, by decide, by decide, fun _ => by decide⟩
  · intro h
    obtain ⟨r, reads, s, hrun, -⟩ := h
    cases hrun

end DataMonkey.Utils
