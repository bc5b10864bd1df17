import DataMonkey.Lib.LowestBit
import DataMonkey.Lib.Runs

/- `debruijn.c`, and `extract_continuous_bits` of `utils.c`.

   Both compute on an `unsigned long` and both are written for one of 32 bits. The first keeps
   the top 5 bits of a product by shifting it 27 places to the right, the second makes a mask of
   an `unsigned int` by shifting it as far as the `unsigned long` is wider than the bits asked
   for. The width is a parameter here, and the results say what it has to be.

   Correspondence (C ↔ Lean):
     `setup`, `rightmost_index`   ↔ `setup`, `rightmostIndex`
     `extract_continuous_bits`    ↔ `extractContinuousBits`

   A table access is checked against the 32 entries, a shift of an `unsigned int` against its 32
   bits, a shift of an `unsigned long` against its width.

     1. `windows_distinct` — the constant tells all places of a 32-bit word apart;
     2. `debruijn_exact` — for which width the table can be filled, and what it then gives;
     3. `extractContinuousBits_spec` — the bits that are extracted;
     4. `extract_exact` — for which width and positions they are the ones asked for. -/
namespace DataMonkey.Utils

open LowestBit

inductive WordFault where
  | tableBound  -- an entry that the table does not have
  | shiftRange  -- a shift by a negative number of places or by the width or more
  deriving DecidableEq, Repr

/-! ## debruijn.c -/

/-- `0x077CB531UL`, for an `unsigned long` of `w` bits. -/
def debruijn32 (w : Nat) : BitVec w := BitVec.ofNat w 0x077CB531

/-- `index32[k] = i` -/
def writeEntry (index32 : List Int) (k : Nat) (i : Int) : Except WordFault (List Int) :=
  if k < index32.length then .ok (index32.set k i) else .error .tableBound

/-- A round of the loop of `setup`. -/
def fillEntry (w : Nat) (index32 : List Int) (i : Nat) : Except WordFault (List Int) :=
  writeEntry index32 ((debruijn32 w <<< i) >>> 27).toNat (i : Int)

/-- The table is zero before it is filled. -/
def setup (w : Nat) : Except WordFault (List Int) :=
  (List.range' 0 32).foldlM (fillEntry w) (List.replicate 32 0)

def rightmostIndex {w : Nat} (index32 : List Int) (b : BitVec w) : Except WordFault Int :=
  let b := b &&& -b
  let b := b * debruijn32 w
  let b := b >>> 27
  match index32[b.toNat]? with
  | none => .error .tableBound
  | some i => .ok i

theorem windows_distinct : Distinct (debruijn32 32) 27 32 := by
  have h : ∀ i j : Fin 32, window (debruijn32 32) 27 i = window (debruijn32 32) 27 j → i = j := by
    decide +kernel
  intro i hi j hj e
  exact congrArg Fin.val (h ⟨i, hi⟩ ⟨j, hj⟩ e)

theorem Distinct.mono {w s m n : Nat} {d : BitVec w} (h : Distinct d s n) (hmn : m ≤ n) :
    Distinct d s m := fun i hi j hj => h i (by omega) j (by omega)

theorem window_lt (i : Nat) : window (debruijn32 32) 27 i < 32 := by
  rw [window, BitVec.toNat_ushiftRight, Nat.shiftRight_eq_div_pow]
  exact Nat.div_lt_of_lt_mul (debruijn32 32 <<< i).isLt

/-- With more than 32 bits the product is not cut off, and the window of place 6 has 6 bits. -/
theorem window_six {w : Nat} (hw : 32 < w) : window (debruijn32 w) 27 6 = 59 := by
  have hpow : 2 ^ 33 ≤ 2 ^ w := Nat.pow_le_pow_right Nat.two_pos hw
  have hd : (debruijn32 w).toNat = 0x077CB531 := by
    rw [debruijn32, BitVec.toNat_ofNat]
    exact Nat.mod_eq_of_lt (by omega)
  rw [window, BitVec.toNat_ushiftRight, BitVec.toNat_shiftLeft, hd, Nat.mod_eq_of_lt]
  · rfl
  · exact Nat.lt_of_lt_of_le (by decide) hpow

/-- A loop that gets to place 6 runs out of the table. -/
theorem fill_stops {w : Nat} (hw : 32 < w) : ∀ {l : List Nat} {t r : List Int}, t.length = 32 →
    l.foldlM (fillEntry w) t = .ok r → 6 ∉ l
  | [], _, _, _, _ => List.not_mem_nil
  | i :: l, t, r, ht, h => by
    rw [List.foldlM_cons] at h
    obtain ⟨t', hstep, hrest⟩ := Runs.bind_eq_ok.mp h
    unfold fillEntry writeEntry at hstep
    split at hstep
    · next hin =>
      obtain rfl := Except.ok.inj hstep
      intro hmem
      rcases List.mem_cons.mp hmem with rfl | hmem
      · have hwin := window_six hw
        rw [window] at hwin
        omega
      · exact fill_stops hw (by rw [List.length_set, ht]) hrest hmem
    · cases hstep

/-- For every width of an `unsigned long` that C allows: the table can be filled iff the width is
    32, and then `rightmost_index` is the place of the lowest set bit of every nonzero word. -/
theorem debruijn_exact {w : Nat} (hw : 32 ≤ w) :
    ((∃ index32, setup w = .ok index32) ↔ w = 32) ∧
    ∀ index32, setup w = .ok index32 → ∀ b : BitVec w, b ≠ 0#w →
      ∃ i : Nat, rightmostIndex index32 b = .ok (i : Int) ∧ b.getLsbD i = true ∧
        ∀ j < i, b.getLsbD j = false := by
  by_cases hwide : 32 < w
  · have hno : ¬ ∃ index32, setup w = .ok index32 := by
      intro hex
      obtain ⟨index32, hrun⟩ := hex
      exact fill_stops hwide List.length_replicate hrun (by decide)
    refine ⟨iff_of_false hno (by omega), fun index32 hrun => absurd ⟨index32, hrun⟩ hno⟩
  · obtain rfl : w = 32 := by omega
    have hstart : Places (debruijn32 32) 27 (fun i => (i : Int)) 0 (List.replicate 32 0) :=
      fun i hi => absurd hi (Nat.not_lt_zero i)
    obtain ⟨table, hrun, hplaces, -⟩ := Runs.foldlM_range' (fillEntry 32)
      (fun n t => Places (debruijn32 32) 27 (fun i => (i : Int)) n t ∧ t.length = 32)
      32 0 (List.replicate 32 0) ⟨hstart, List.length_replicate⟩
      (fun i t _ hi ⟨h, ht⟩ => by
        have hroom : window (debruijn32 32) 27 i < t.length := by
          rw [ht]
          exact window_lt i
        refine ⟨_, if_pos hroom, table_set h (Distinct.mono windows_distinct (by omega)) hroom, ?_⟩
        rw [List.length_set, ht])
    rw [Nat.zero_add] at hplaces
    refine ⟨iff_of_true ⟨table, hrun⟩ rfl, fun index32 hrun' b hb => ?_⟩
    obtain rfl : table = index32 := Except.ok.inj (hrun.symm.trans hrun')
    obtain ⟨hget, hlow⟩ := table_lookup hplaces hb
    refine ⟨b.ctz.toNat, ?_, hlow⟩
    simp only [rightmostIndex, hget]

theorem debruijn_exact_long :
    ((∃ index32, setup 32 = .ok index32) ↔ 32 = 32) ∧
    ∀ index32, setup 32 = .ok index32 → ∀ b : BitVec 32, b ≠ 0#32 →
      ∃ i : Nat, rightmostIndex index32 b = .ok (i : Int) ∧ b.getLsbD i = true ∧
        ∀ j < i, b.getLsbD j = false :=
  debruijn_exact (by decide)

/-! ## extract_continuous_bits -/

/-- The number of places of a shift, which has to be below the width of what is shifted. -/
def places (n : Int) (width : Nat) : Except WordFault Nat :=
  if 0 ≤ n ∧ n < width then .ok n.toNat else .error .shiftRange

/-- `CHAR_BIT*sizeof(value) - end - 1` is computed with the width of `value`. -/
def extractContinuousBits {w : Nat} (value : BitVec w) (start end_ : Int) :
    Except WordFault (BitVec 32) := do
  let n ← places (BitVec.ofInt w (w - end_ - 1)).toNat 32
  let mask := BitVec.allOnes 32 >>> n
  let m ← places start w
  .ok (((value &&& mask.setWidth w) >>> m).setWidth 32)

section Extract

variable {w start end_ : Nat}

theorem count_eq (hend : end_ < w) :
    (BitVec.ofInt w ((w : Int) - end_ - 1)).toNat = w - end_ - 1 := by
  have hlt : w - end_ - 1 < 2 ^ w := Nat.lt_of_lt_of_le (by omega) Nat.lt_two_pow_self.le
  rw [BitVec.toNat_ofInt, show (w : Int) - end_ - 1 = ((w - end_ - 1 : Nat) : Int) by omega]
  have hmod : ((w - end_ - 1 : Nat) : Int) % ((2 ^ w : Nat) : Int) = ((w - end_ - 1 : Nat) : Int) :=
    Int.emod_eq_of_lt (by omega) (by omega)
  rw [hmod, Int.toNat_natCast]

/-- The bits that come out, if the first shift has room: those up to `w - 32` places below the
    one asked for. -/
theorem extractContinuousBits_spec (hw : 32 ≤ w) (hle : start ≤ end_) (hend : end_ < w)
    (value : BitVec w) :
    (w ≤ end_ + 32 → ∃ r, extractContinuousBits value start end_ = .ok r ∧
      ∀ j < 32, r.getLsbD j = (decide (start + j + w ≤ end_ + 32) && value.getLsbD (start + j))) ∧
    (end_ + 32 < w → extractContinuousBits value start end_ = .error .shiftRange) := by
  refine ⟨fun hroom => ?_, fun hroom => ?_⟩
  · have hn : places (BitVec.ofInt w ((w : Int) - end_ - 1)).toNat 32 = .ok (w - end_ - 1) := by
      rw [count_eq hend, places, if_pos (by omega), Int.toNat_natCast]
    have hm : places (start : Int) w = .ok start := by
      rw [places, if_pos (by omega), Int.toNat_natCast]
    refine ⟨_, by rw [extractContinuousBits, hn, Runs.ok_bind, hm]; rfl, fun j hj => ?_⟩
    rw [BitVec.getLsbD_setWidth, BitVec.getLsbD_ushiftRight, BitVec.getLsbD_and,
      BitVec.getLsbD_setWidth, BitVec.getLsbD_ushiftRight, BitVec.getLsbD_allOnes]
    by_cases hbit : start + j + w ≤ end_ + 32
    · rw [decide_eq_true hj, decide_eq_true (by omega : start + j < w),
        decide_eq_true (by omega : w - end_ - 1 + (start + j) < 32), decide_eq_true hbit]
      simp
    · rw [decide_eq_false (by omega : ¬ w - end_ - 1 + (start + j) < 32), decide_eq_false hbit]
      simp
  · have hn : places (BitVec.ofInt w ((w : Int) - end_ - 1)).toNat 32 = .error .shiftRange := by
      rw [count_eq hend, places, if_neg (by omega)]
    rw [extractContinuousBits, hn]
    rfl

/-- The bits from `start` to `end`, as far as an `unsigned int` has room for them. -/
def Extracts (w start end_ : Nat) : Prop :=
  ∀ value : BitVec w, ∃ r, extractContinuousBits value start end_ = .ok r ∧
    ∀ j < 32, r.getLsbD j = (decide (start + j ≤ end_) && value.getLsbD (start + j))

end Extract

/-- For every width of an `unsigned long` and all positions in it: the function extracts the bits
    from `start` to `end` of every value iff the width is 32, or they are all the bits there
    are. -/
theorem extract_exact {w start end_ : Nat} (hw : 32 ≤ w) (hle : start ≤ end_) (hend : end_ < w) :
    Extracts w start end_ ↔ w = 32 ∨ (start = 0 ∧ end_ + 1 = w) := by
  refine ⟨fun h => ?_, fun h value => ?_⟩
  · apply Classical.byContradiction
    intro hno
    obtain ⟨hne, hall⟩ := not_or.mp hno
    by_cases hroom : w ≤ end_ + 32
    · -- the first position asked for whose bit is lost
      obtain ⟨p, hp⟩ : ∃ p, p = max start (end_ + 33 - w) := ⟨_, rfl⟩
      have hlost : ¬ start + (p - start) + w ≤ end_ + 32 := by omega
      have hj : p - start < 32 := by omega
      obtain ⟨r, hrun, hbits⟩ := h (BitVec.twoPow w p)
      obtain ⟨r', hrun', hbits'⟩ :=
        (extractContinuousBits_spec hw hle hend (BitVec.twoPow w p)).1 hroom
      obtain rfl : r = r' := Except.ok.inj (hrun.symm.trans hrun')
      have hsame := (hbits (p - start) hj).symm.trans (hbits' (p - start) hj)
      rw [decide_eq_false hlost, decide_eq_true (by omega : start + (p - start) ≤ end_),
        BitVec.getLsbD_twoPow, show start + (p - start) = p by omega] at hsame
      simp only [Bool.true_and, Bool.false_and, decide_true, Bool.and_true,
        decide_eq_false_iff_not] at hsame
      omega
    · obtain ⟨r, hrun, -⟩ := h 0
      rw [(extractContinuousBits_spec hw hle hend 0).2 (by omega)] at hrun
      cases hrun
  · obtain ⟨r, hrun, hbits⟩ := (extractContinuousBits_spec hw hle hend value).1 (by omega)
    refine ⟨r, hrun, fun j hj => ?_⟩
    rw [hbits j hj]
    congr 1
    rw [decide_eq_decide]
    omega

theorem extract_exact_byte : Extracts 32 8 15 ↔ 32 = 32 ∨ (8 = 0 ∧ 15 + 1 = 32) :=
  extract_exact (by decide) (by decide) (by decide)

end DataMonkey.Utils
