import Mathlib.Data.Nat.Bitwise
import Mathlib.Data.Nat.Digits.Lemmas
import DataMonkey.Flex.Model
import DataMonkey.Utils.Search

/- The binary numerals of `utils.c`, and `default_msb`.

   `binrep` writes the digits of an `unsigned int` from the end of a buffer of the caller's back
   to the front, and stops when the room is used up. `byte_to_binary` writes all bits of an
   `unsigned long` into a static buffer, the leading zeros too; its mask starts as a `long long`,
   where the top bit of a 64-bit word has no room. `default_msb` is there to check the leading
   bit that `flex.h` takes from the compiler.

   Correspondence (C ↔ Lean):
     `binrep`           ↔ `binrep`, `binrepLoop`
     `byte_to_binary`   ↔ `byteToBinary`, `byteLoop`
     `default_msb`      ↔ `defaultMsb`, `msbLoop`

   A buffer is checked at every write. The pointer of `binrep` ends up in front of the first
   digit, for a full buffer in front of the buffer; it is moved forward again before it is
   returned, and not followed in between.

     1. `readBin_numeral`, `eq_numeral` — numerals, and reading them back;
     2. `binrep_round_trip` — what `binrep` leaves in the buffer;
     3. `byte_to_binary_exact` — what `byte_to_binary` does, by the width of an `unsigned long`;
     4. `default_msb_leading` — the leading bit. -/
namespace DataMonkey.Utils

/-! ## Numerals -/

/-- `'1'`, `'0'` -/
def bitChar (bit : Bool) : UInt8 := if bit then 49 else 48

/-- What a reader takes from a string of binary digits. -/
def readBin (s : List UInt8) : Nat := s.foldl (fun n c => 2 * n + (c.toNat - 48)) 0

/-- The digits without leading zeros, but one for 0. -/
def numeral (n : Nat) : List UInt8 :=
  if n = 0 then [bitChar false] else ((Nat.digits 2 n).map fun d => bitChar (d == 1)).reverse

@[simp] theorem bitChar_val (bit : Bool) : (bitChar bit).toNat - 48 = bit.toNat := by
  cases bit <;> rfl

theorem readBin_snoc (s : List UInt8) (c : UInt8) :
    readBin (s ++ [c]) = 2 * readBin s + (c.toNat - 48) := by
  simp [readBin]

theorem numeral_step {n : Nat} (hn : 0 < n) (bit : Bool) :
    numeral (2 * n + bit.toNat) = numeral n ++ [bitChar bit] := by
  have hdigits : Nat.digits 2 (bit.toNat + 2 * n) = bit.toNat :: Nat.digits 2 n :=
    Nat.digits_add 2 (by omega) bit.toNat n (by cases bit <;> decide) (Or.inr (by omega))
  have hbit : (bit.toNat == 1) = bit := by cases bit <;> rfl
  rw [numeral, numeral, if_neg (by omega), if_neg (by omega), Nat.add_comm, hdigits]
  simp [hbit]

theorem numeral_half {n : Nat} (hn : 2 ≤ n) :
    numeral n = numeral (n / 2) ++ [bitChar (n % 2 == 1)] := by
  have hbit : (n % 2 == 1).toNat = n % 2 := by
    rcases Nat.mod_two_eq_zero_or_one n with h | h
    · simp [h]
    · simp [h]
  have hstep := numeral_step (n := n / 2) (by omega) (n % 2 == 1)
  rw [hbit, Nat.div_add_mod] at hstep
  exact hstep

theorem readBin_numeral (n : Nat) : readBin (numeral n) = n := by
  induction n using Nat.strongRecOn with
  | ind n ih =>
    rcases Nat.lt_or_ge n 2 with h | h
    · -- one digit
      obtain rfl | rfl : n = 0 ∨ n = 1 := by omega
      · rfl
      · simp [numeral, readBin, bitChar]
    · have hbit : (n % 2 == 1).toNat = n % 2 := by
        rcases Nat.mod_two_eq_zero_or_one n with h | h
        · simp [h]
        · simp [h]
      rw [numeral_half h, readBin_snoc, ih (n / 2) (by omega), bitChar_val, hbit]
      omega

theorem length_numeral {n : Nat} (hn : n ≠ 0) : (numeral n).length = n.log2 + 1 := by
  rw [numeral, if_neg hn, List.length_reverse, List.length_map, Nat.length_digits 2 n (by omega) hn,
    Nat.log2_eq_log_two]

/-- A numeral is the string of its value that has no leading zero. -/
theorem eq_numeral (bits : List Bool) :
    numeral (readBin ((true :: bits).map bitChar)) = (true :: bits).map bitChar ∧
      0 < readBin ((true :: bits).map bitChar) := by
  induction bits using List.reverseRecOn with
  | nil => exact ⟨by simp [numeral, readBin, bitChar], by decide⟩
  | append_singleton bits bit ih =>
    obtain ⟨heq, hpos⟩ := ih
    have hcons : (true :: (bits ++ [bit])).map bitChar =
        (true :: bits).map bitChar ++ [bitChar bit] := by
      simp
    rw [hcons, readBin_snoc, bitChar_val, numeral_step hpos, heq]
    exact ⟨rfl, by omega⟩

/-! ## Buffers -/

structure Buffer where
  size : Nat
  byte : Nat → UInt8

def Buffer.write (b : Buffer) (p : Int) (c : UInt8) : Except Fault Buffer :=
  if 0 ≤ p ∧ p < b.size then .ok { b with byte := fun q => if q = p.toNat then c else b.byte q }
  else .error .arrayBound

/-- The string at `p`. -/
structure Buffer.Text (b : Buffer) (p : Nat) (s : List UInt8) : Prop where
  chars : ∀ k c, s[k]? = some c → b.byte (p + k) = c
  nul : b.byte (p + s.length) = 0

theorem write_ok {b : Buffer} {n : Nat} (h : n < b.size) (c : UInt8) :
    b.write (n : Int) c = .ok { b with byte := fun q => if q = n then c else b.byte q } := by
  have hin : (0 : Int) ≤ n ∧ (n : Int) < b.size := by omega
  rw [Buffer.write, if_pos hin, Int.toNat_natCast]

/-! ## binrep -/

/-- `while (val != 0)`, with the pointer at `p` and `sz` characters of room. -/
def binrepLoop : Nat → UInt32 → Int → Int → Buffer → Except Fault (Option Int × Buffer)
  | 0, _, _, _, _ => .error .endless
  | rounds + 1, val, p, sz, b =>
    if val ≠ 0 then
      if sz = 0 then .ok (none, b)
      else do
        let b ← b.write p (bitChar (val &&& 1 == 1))
        binrepLoop rounds (val >>> 1) (p - 1) (sz - 1) b
    else .ok (some (p + 1), b)

/-- The position that is returned, `none` for NULL, and the buffer. -/
def binrep (val : UInt32) (buff : Buffer) (sz : Int) : Except Fault (Option Int × Buffer) :=
  if sz < 1 then .ok (none, buff)
  else if val = 0 then do
    let b ← buff.write 0 (bitChar false)
    let b ← b.write 1 0
    .ok (some 0, b)
  else do
    let b ← buff.write sz 0
    binrepLoop 33 val (sz - 1) sz b

theorem shift_one (val : UInt32) : (val >>> 1).toNat = val.toNat / 2 := by
  simp [UInt32.toNat_shiftRight, Nat.shiftRight_eq_div_pow]

theorem low_bit (val : UInt32) : (val &&& 1 == 1) = (val.toNat % 2 == 1) := by
  have h : (val &&& 1).toNat = val.toNat % 2 := by
    rw [UInt32.toNat_and]
    exact Nat.and_one_is_mod _
  rw [← h, Bool.eq_iff_iff, beq_iff_eq, beq_iff_eq, ← UInt32.toNat_inj]
  rfl

/-- With room for `s` characters in front of position `s`: the loop writes the digits right in
    front of it, or fills the room and gives up. -/
theorem binrepLoop_spec : ∀ (rounds : Nat) (val : UInt32) (s : Nat) (b : Buffer),
    val.toNat < 2 ^ rounds → s ≤ b.size →
    ∃ b' r, binrepLoop (rounds + 1) val ((s : Int) - 1) s b = .ok (r, b') ∧ b'.size = b.size ∧
      (∀ q, s ≤ q → b'.byte q = b.byte q) ∧
      let digits := ((Nat.digits 2 val.toNat).map fun d => bitChar (d == 1)).reverse
      ((digits.length ≤ s ∧ r = some ((s - digits.length : Nat) : Int) ∧
          ∀ k c, digits[k]? = some c → b'.byte (s - digits.length + k) = c) ∨
        (s < digits.length ∧ r = none))
  | rounds, val, s, b, hlt, hs => by
    by_cases h0 : val = 0
    · refine ⟨b, some (s : Int), ?_, rfl, fun _ _ => rfl, .inl ?_⟩
      · rw [binrepLoop, if_neg (not_not.mpr h0), Int.sub_add_cancel]
      · simp [h0]
    · have hne : val.toNat ≠ 0 := fun h => h0 (UInt32.toNat_inj.mp h)
      have hdigits := Nat.digits_def' (by omega : 1 < 2) (Nat.pos_of_ne_zero hne)
      cases s with
      | zero =>
        refine ⟨b, none, ?_, rfl, fun _ _ => rfl, .inr ⟨?_, rfl⟩⟩
        · rw [binrepLoop, if_pos h0]
          exact if_pos rfl
        · rw [hdigits]
          simp
      | succ t =>
        cases rounds with
        | zero => exact absurd hlt (by rw [Nat.pow_zero]; omega)
        | succ rounds =>
          let b₁ : Buffer :=
            { b with byte := fun q => if q = t then bitChar (val &&& 1 == 1) else b.byte q }
          have hback : ((t + 1 : Nat) : Int) - 1 = (t : Int) := by omega
          have hwrite : b.write (t : Int) (bitChar (val &&& 1 == 1)) = .ok b₁ := write_ok hs _
          have hhalf := shift_one val
          obtain ⟨b', r, hrun, hsize, hkeep, hout⟩ := binrepLoop_spec rounds (val >>> 1) t b₁
            (by rw [hhalf]; rw [Nat.pow_succ] at hlt; omega) (Nat.le_of_succ_le hs)
          refine ⟨b', r, ?_, hsize, ?_, ?_⟩
          · rw [binrepLoop, if_pos h0, if_neg (by omega), hback, hwrite, Runs.ok_bind]
            exact hrun
          · intro q hq
            rw [hkeep q (by omega)]
            exact if_neg (by omega)
          · rw [hhalf] at hout
            rw [hdigits]
            dsimp only at hout ⊢
            simp only [List.map_cons, List.reverse_cons, List.length_append, List.length_singleton]
            generalize ((Nat.digits 2 (val.toNat / 2)).map fun d => bitChar (d == 1)).reverse =
              digits at hout ⊢
            rcases hout with ⟨hle, rfl, hchars⟩ | ⟨hlt', rfl⟩
            · refine .inl ⟨by omega, by rw [Nat.add_sub_add_right], fun k c hk => ?_⟩
              rw [Nat.add_sub_add_right]
              by_cases hkl : k < digits.length
              · rw [List.getElem?_append_left hkl] at hk
                exact hchars k c hk
              · -- the lowest digit was written first
                have hk' := (List.getElem?_eq_some_iff.mp hk).1
                rw [List.length_append, List.length_singleton] at hk'
                obtain rfl : k = digits.length := by omega
                rw [List.getElem?_append_right (Nat.le_refl _), Nat.sub_self,
                  List.getElem?_cons_zero, Option.some.injEq] at hk
                rw [Nat.sub_add_cancel hle, hkeep t (Nat.le_refl t), ← hk, ← low_bit]
                exact if_pos rfl
            · exact .inr ⟨by omega, rfl⟩

/-- A zero has a digit, at the beginning of the buffer. -/
theorem binrep_zero {buff : Buffer} {sz : Int} (hsz : 1 ≤ sz) (hroom : sz < buff.size) :
    ∃ b, binrep 0 buff sz = .ok (some 0, b) ∧ b.size = buff.size ∧
      (∀ q : Nat, sz < q → b.byte q = buff.byte q) ∧ b.Text 0 (numeral 0) := by
  let b₁ : Buffer := { buff with byte := fun q => if q = 0 then bitChar false else buff.byte q }
  let b : Buffer := { buff with byte := fun q => if q = 1 then 0 else b₁.byte q }
  have h₁ : buff.write 0 (bitChar false) = .ok b₁ := write_ok (n := 0) (by omega) _
  have h₂ : b₁.write 1 0 = .ok b := write_ok (b := b₁) (n := 1) (show 1 < buff.size by omega) 0
  refine ⟨b, ?_, rfl, ?_, ?_, rfl⟩
  · rw [binrep, if_neg (by omega), if_pos rfl, h₁, Runs.ok_bind, h₂]
    rfl
  · intro q hq
    show (if q = 1 then 0 else if q = 0 then bitChar false else buff.byte q) = _
    rw [if_neg (by omega), if_neg (by omega)]
  · intro k c hk
    cases k with
    | zero =>
      cases hk
      rfl
    | succ k => simp [numeral] at hk

/-- Any other numeral ends at position `s`, or there is no room for it. -/
theorem binrep_pos {val : UInt32} (hval : val ≠ 0) {buff : Buffer} {s : Nat} (hsz : 1 ≤ s)
    (hroom : s < buff.size) :
    ∃ r b, binrep val buff s = .ok (r, b) ∧ b.size = buff.size ∧
      (∀ q : Nat, (s : Int) < q → b.byte q = buff.byte q) ∧
      let digits := numeral val.toNat
      ((digits.length ≤ s ∧ r = some ((s - digits.length : Nat) : Int) ∧
          b.Text (s - digits.length) digits) ∨ (s < digits.length ∧ r = none)) := by
  let b₀ : Buffer := { buff with byte := fun q => if q = s then 0 else buff.byte q }
  obtain ⟨b, r, hrun, hsize, hkeep, hout⟩ :=
    binrepLoop_spec 32 val s b₀ val.toNat_lt (Nat.le_of_lt hroom)
  have hne : val.toNat ≠ 0 := fun h => hval (UInt32.toNat_inj.mp h)
  have hnum : ((Nat.digits 2 val.toNat).map fun d => bitChar (d == 1)).reverse =
      numeral val.toNat := by
    rw [numeral, if_neg hne]
  dsimp only at hout
  rw [hnum] at hout
  refine ⟨r, b, ?_, hsize, ?_, ?_⟩
  · rw [binrep, if_neg (by omega), if_neg hval]
    exact (congrArg (· >>= _) (write_ok hroom 0)).trans hrun
  · intro q hq
    rw [hkeep q (by omega)]
    exact if_neg (by omega)
  · rcases hout with ⟨hle, rfl, hchars⟩ | ⟨hlt, rfl⟩
    · refine .inl ⟨hle, rfl, hchars, ?_⟩
      rw [Nat.sub_add_cancel hle, hkeep s (Nat.le_refl s)]
      exact if_pos rfl
    · exact .inr ⟨hlt, rfl⟩

/-- For every value, every `sz` and every buffer of more than `sz` bytes: `binrep` returns, and
    writes no byte past `sz`. It returns NULL iff there is not room for the numeral, and
    otherwise the numeral, which reads back as the value. -/
theorem binrep_round_trip (val : UInt32) (buff : Buffer) (sz : Int) (hroom : sz < buff.size) :
    ∃ r b, binrep val buff sz = .ok (r, b) ∧ b.size = buff.size ∧
      (∀ q : Nat, sz < q → b.byte q = buff.byte q) ∧
      (r = none ↔ sz < (numeral val.toNat).length) ∧
      (∀ p, r = some p → ∃ n : Nat, p = n ∧ (n : Int) + (numeral val.toNat).length ≤ sz ∧
        b.Text n (numeral val.toNat)) ∧
      readBin (numeral val.toNat) = val.toNat := by
  have hread := readBin_numeral val.toNat
  by_cases hsz : sz < 1
  · have hpos : 0 < (numeral val.toNat).length := by
      by_cases hne : val.toNat = 0
      · simp [hne, numeral]
      · rw [length_numeral hne]
        exact Nat.succ_pos _
    refine ⟨none, buff, ?_, rfl, fun _ _ => rfl, iff_of_true rfl (by omega), ?_, hread⟩
    · rw [binrep, if_pos hsz]
    · exact fun p hp => nomatch hp
  · obtain ⟨s, rfl⟩ := Int.eq_ofNat_of_zero_le (by omega : 0 ≤ sz)
    by_cases h0 : val = 0
    · obtain ⟨b, hrun, hsize, hkeep, htext⟩ := binrep_zero (by omega) hroom
      have hlen : (numeral val.toNat).length = 1 := by simp [h0, numeral]
      refine ⟨some 0, b, h0 ▸ hrun, hsize, hkeep, ?_, ?_, hread⟩
      · exact iff_of_false (by simp) (by omega)
      · intro p hp
        obtain rfl := Option.some.inj hp
        refine ⟨0, rfl, by omega, ?_⟩
        rw [h0]
        exact htext
    · have hs : s < buff.size := by omega
      obtain ⟨r, b, hrun, hsize, hkeep, hout⟩ := binrep_pos h0 (by omega) hs
      refine ⟨r, b, hrun, hsize, hkeep, ?_, ?_, hread⟩
      · rcases hout with ⟨hle, rfl, -⟩ | ⟨hlt, rfl⟩
        · exact iff_of_false (by simp) (by omega)
        · exact iff_of_true rfl (by omega)
      · intro p hp
        rcases hout with ⟨hle, rfl, htext⟩ | ⟨-, rfl⟩
        · obtain rfl := Option.some.inj hp
          exact ⟨_, rfl, by omega, htext⟩
        · cases hp

/-- The number 6 in a buffer for four characters and a NUL. -/
theorem binrep_round_trip_six :
    ∃ r b, binrep 6 ⟨5, fun _ => 0⟩ 4 = .ok (r, b) ∧ b.size = 5 ∧
      (∀ q : Nat, 4 < (q : Int) → b.byte q = 0) ∧
      (r = none ↔ (4 : Int) < (numeral (6 : UInt32).toNat).length) ∧
      (∀ p, r = some p → ∃ n : Nat, p = n ∧ (n : Int) + (numeral (6 : UInt32).toNat).length ≤ 4 ∧
        b.Text n (numeral (6 : UInt32).toNat)) ∧
      readBin (numeral (6 : UInt32).toNat) = (6 : UInt32).toNat :=
  binrep_round_trip 6 ⟨5, fun _ => 0⟩ 4 (by decide)

/-! ## byte_to_binary -/

/-- The value of a `long long` expression. -/
def longLong (x : Int) : Except Fault Int :=
  if -2 ^ 63 ≤ x ∧ x ≤ 2 ^ 63 - 1 then .ok x else .error .overflow

/-- `for (; z>0; z>>=1,y++)` -/
def byteLoop (x : Nat) : Nat → Nat → Nat → Buffer → Except Fault (Nat × Buffer)
  | 0, _, _, _ => .error .endless
  | rounds + 1, z, y, b =>
    if 0 < z then do
      let b ← b.write y (bitChar (x &&& z == z))
      byteLoop x rounds (z >>> 1) (y + 1) b
    else .ok (y, b)

/-- An `unsigned long` has `w` bits; `b` is the static buffer as the last call left it. -/
def byteToBinary (w : Nat) (b : Buffer) (x : Nat) : Except Fault Buffer := do
  let z ← longLong (2 ^ (w - 1))
  let (y, b) ← byteLoop x (w + 1) z.toNat 0 b
  b.write y 0

/-- The lowest `n` bits, the highest of them first. -/
def lowBits (x : Nat) : Nat → List Bool
  | 0 => []
  | n + 1 => x.testBit n :: lowBits x n

@[simp] theorem length_lowBits (x n : Nat) : (lowBits x n).length = n := by
  induction n with
  | zero => rfl
  | succ n ih => simp [lowBits, ih]

theorem foldl_bits (bits : List Bool) : ∀ a : Nat,
    (bits.map bitChar).foldl (fun n c => 2 * n + (c.toNat - 48)) a =
      a * 2 ^ bits.length + readBin (bits.map bitChar) := by
  induction bits with
  | nil => simp [readBin]
  | cons bit bits ih =>
    intro a
    have hread : readBin ((bit :: bits).map bitChar) =
        (bits.map bitChar).foldl (fun n c => 2 * n + (c.toNat - 48)) (2 * 0 + bit.toNat) := by
      rw [readBin, List.map_cons, List.foldl_cons, bitChar_val]
    rw [hread, ih, List.map_cons, List.foldl_cons, bitChar_val, ih, List.length_cons, Nat.pow_succ]
    ring

theorem readBin_lowBits (x n : Nat) : readBin ((lowBits x n).map bitChar) = x % 2 ^ n := by
  induction n with
  | zero => simp [lowBits, readBin, Nat.mod_one]
  | succ n ih =>
    have hfold := foldl_bits (lowBits x n) (x.testBit n).toNat
    rw [ih, length_lowBits] at hfold
    rw [lowBits, readBin, List.map_cons, List.foldl_cons, bitChar_val, Nat.mul_zero, Nat.zero_add,
      hfold, Nat.mod_pow_succ, Nat.toNat_testBit, Nat.add_comm, Nat.mul_comm]

theorem and_two_pow_eq (x n : Nat) : (x &&& 2 ^ n == 2 ^ n) = x.testBit n := by
  rw [Nat.and_two_pow]
  cases x.testBit n with
  | true => simp
  | false => simp [(Nat.two_pow_pos n).ne]

/-- The rounds for the lowest `n` bits, from position `y` on. -/
theorem byteLoop_spec (x : Nat) : ∀ (n rounds y : Nat) (b : Buffer), n < rounds → y + n ≤ b.size →
    ∃ b', byteLoop x rounds (2 ^ n / 2) y b = .ok (y + n, b') ∧ b'.size = b.size ∧
      (∀ q, q < y → b'.byte q = b.byte q) ∧
      ∀ k c, ((lowBits x n).map bitChar)[k]? = some c → b'.byte (y + k) = c
  | n, 0, y, b, hr, hy => absurd hr (Nat.not_lt_zero _)
  | 0, rounds + 1, y, b, _, _ => by
    refine ⟨b, ?_, rfl, fun _ _ => rfl, fun k c h => ?_⟩
    · rw [byteLoop, if_neg (by simp)]
      rfl
    · simp [lowBits] at h
  | n + 1, rounds + 1, y, b, hr, hy => by
    have hz : 2 ^ (n + 1) / 2 = 2 ^ n := by
      rw [Nat.pow_succ, Nat.mul_div_cancel _ Nat.two_pos]
    let b₁ : Buffer := { b with byte := fun q => if q = y then bitChar (x.testBit n) else b.byte q }
    obtain ⟨b', hrun, hsize, hkeep, hchars⟩ := byteLoop_spec x n rounds (y + 1) b₁ (by omega)
      (show y + 1 + n ≤ b.size by omega)
    refine ⟨b', ?_, hsize, ?_, ?_⟩
    · rw [hz, byteLoop, if_pos (Nat.two_pow_pos n), and_two_pow_eq, write_ok (by omega),
        Runs.ok_bind, Nat.shiftRight_one, hrun]
      congr 2
      omega
    · intro q hq
      rw [hkeep q (by omega)]
      exact if_neg (by omega)
    · intro k c hk
      cases k with
      | zero =>
        simp only [lowBits, List.map_cons, List.getElem?_cons_zero, Option.some.injEq] at hk
        rw [Nat.add_zero, hkeep y (by omega), ← hk]
        exact if_pos rfl
      | succ k =>
        rw [lowBits, List.map_cons, List.getElem?_cons_succ] at hk
        rw [show y + (k + 1) = y + 1 + k by omega]
        exact hchars k c hk

/-- A string of digits is the numeral of its value behind some zeros. -/
theorem zeros_append_numeral (bits : List Bool) (h : bits ≠ []) :
    ∃ zeros, bits.map bitChar =
      List.replicate zeros (bitChar false) ++ numeral (readBin (bits.map bitChar)) := by
  induction bits with
  | nil => exact absurd rfl h
  | cons bit bits ih =>
    cases bit with
    | false =>
      have hread : readBin ((false :: bits).map bitChar) = readBin (bits.map bitChar) := rfl
      rw [hread]
      cases bits with
      | nil => exact ⟨0, rfl⟩
      | cons next bits =>
        obtain ⟨zeros, hz⟩ := ih (List.cons_ne_nil next bits)
        refine ⟨zeros + 1, ?_⟩
        rw [List.map_cons, List.replicate_succ, List.cons_append, ← hz]
    | true => exact ⟨0, (eq_numeral bits).1.symm⟩

/-- For every width of an `unsigned long`, every value of it and every content of the buffer:
    below 64 bits `byte_to_binary` writes the string of all its bits, which reads back as the
    value, and is the numeral of `binrep` behind some zeros; from 64 bits on its first expression
    overflows. -/
theorem byte_to_binary_exact {w x : Nat} (hw : 1 ≤ w) (hx : x < 2 ^ w) (buff : Buffer)
    (hsize : buff.size = w + 1) :
    (w < 64 → ∃ b, byteToBinary w buff x = .ok b ∧ b.size = buff.size ∧
      b.Text 0 ((lowBits x w).map bitChar) ∧ readBin ((lowBits x w).map bitChar) = x ∧
      ∃ zeros, (lowBits x w).map bitChar =
        List.replicate zeros (bitChar false) ++ numeral x) ∧
    (64 ≤ w → byteToBinary w buff x = .error .overflow) := by
  have hread : readBin ((lowBits x w).map bitChar) = x := by
    rw [readBin_lowBits, Nat.mod_eq_of_lt hx]
  refine ⟨fun h64 => ?_, fun h64 => ?_⟩
  · have hz : longLong (2 ^ (w - 1)) = .ok (2 ^ (w - 1)) := by
      have hle : (2 : Int) ^ (w - 1) ≤ 2 ^ 62 :=
        pow_le_pow_right₀ (by decide) (by omega : w - 1 ≤ 62)
      have hpos : (0 : Int) < 2 ^ (w - 1) := Int.pow_pos (by decide)
      rw [longLong, if_pos ⟨by omega, by omega⟩]
    have hnat : ((2 : Int) ^ (w - 1)).toNat = 2 ^ w / 2 := by
      obtain ⟨v, rfl⟩ : ∃ v, w = v + 1 := ⟨w - 1, by omega⟩
      rw [Nat.add_sub_cancel, Nat.pow_succ, Nat.mul_div_cancel _ Nat.two_pos]
      exact Int.toNat_natCast (2 ^ v)
    obtain ⟨b₁, hrun, hsize₁, -, hchars⟩ := byteLoop_spec x w (w + 1) 0 buff (Nat.lt_succ_self w)
      (by omega)
    let b : Buffer := { b₁ with byte := fun q => if q = w then 0 else b₁.byte q }
    refine ⟨b, ?_, hsize₁, ⟨fun k c hk => ?_, ?_⟩, hread, ?_⟩
    · rw [byteToBinary, hz, Runs.ok_bind, hnat, hrun, Runs.ok_bind]
      dsimp only
      rw [Nat.zero_add, write_ok (by omega)]
    · have hlt := (List.getElem?_eq_some_iff.mp hk).1
      rw [List.length_map, length_lowBits] at hlt
      rw [← hchars k c hk]
      exact if_neg (by omega)
    · rw [List.length_map, length_lowBits, Nat.zero_add]
      exact if_pos rfl
    · have hbits : lowBits x w ≠ [] := by
        rw [← List.length_pos_iff, length_lowBits]
        exact hw
      have hzeros := zeros_append_numeral (lowBits x w) hbits
      rw [hread] at hzeros
      exact hzeros
  · have hge : (2 : Int) ^ 63 ≤ 2 ^ (w - 1) := pow_le_pow_right₀ (by decide) (by omega)
    rw [byteToBinary, longLong, if_neg (by omega)]
    rfl

/-- Thirty-two bits. -/
theorem byte_to_binary_exact_five :
    (32 < 64 → ∃ b, byteToBinary 32 ⟨33, fun _ => 0⟩ 5 = .ok b ∧ b.size = 33 ∧
      b.Text 0 ((lowBits 5 32).map bitChar) ∧ readBin ((lowBits 5 32).map bitChar) = 5 ∧
      ∃ zeros, (lowBits 5 32).map bitChar =
        List.replicate zeros (bitChar false) ++ numeral 5) ∧
    (64 ≤ 32 → byteToBinary 32 ⟨33, fun _ => 0⟩ 5 = .error .overflow) :=
  byte_to_binary_exact (by decide) (by decide) ⟨33, fun _ => 0⟩ rfl

/-! ## default_msb -/

/-- `while (i >>= 1) r++` -/
def msbLoop : Nat → UInt64 → Int → Except Fault Int
  | 0, _, _ => .error .endless
  | rounds + 1, i, r =>
    let i := i >>> 1
    if i ≠ 0 then do
      let r ← int (r + 1)
      msbLoop rounds i r
    else .ok r

def defaultMsb (i : UInt64) : Except Fault Int := msbLoop 64 i 0

theorem msbLoop_spec : ∀ (rounds : Nat) (i : UInt64) (r : Nat), i.toNat < 2 ^ rounds →
    r + rounds ≤ 64 → 0 < rounds → msbLoop rounds i r = .ok ((r + i.toNat.log2 : Nat) : Int)
  | rounds + 1, i, r, hi, hr, _ => by
    have hhalf : (i >>> 1).toNat = i.toNat / 2 := by
      simp [UInt64.toNat_shiftRight, Nat.shiftRight_eq_div_pow]
    by_cases h : i >>> 1 = 0
    · have hzero : i.toNat / 2 = 0 := by rw [← hhalf, h]; rfl
      have hlog : i.toNat.log2 = 0 := by
        rw [Nat.log2_eq_log_two]
        exact Nat.log_of_lt (by omega)
      rw [msbLoop, if_neg (not_not.mpr h), hlog, Nat.add_zero]
    · have hne : i.toNat / 2 ≠ 0 := fun hz => h (UInt64.toNat_inj.mp (by rw [hhalf, hz]; rfl))
      have hlog : i.toNat.log2 = (i.toNat / 2).log2 + 1 := by
        rw [Nat.log2_eq_log_two, Nat.log2_eq_log_two]
        exact Nat.log_of_one_lt_of_le (by decide) (by omega)
      have hsucc : int ((r : Int) + 1) = .ok ((r + 1 : Nat) : Int) := by
        rw [int, if_pos (by unfold intMin intMax; omega)]
        rfl
      rw [Nat.pow_succ] at hi
      have hrounds : 0 < rounds := by
        apply Nat.pos_of_ne_zero
        intro h0
        rw [h0] at hi
        omega
      rw [msbLoop, if_pos h, hsucc, Runs.ok_bind,
        msbLoop_spec rounds (i >>> 1) (r + 1) (by rw [hhalf]; omega) (by omega) hrounds, hhalf,
        hlog, Nat.add_assoc, Nat.add_comm 1]

/-- On every nonzero 64-bit value `default_msb` is the leading bit that `flex.h` computes, and
    one less than the number of digits; on 0, where that one is undefined, it is 0. -/
theorem default_msb_leading (i : UInt64) :
    (i ≠ 0 → ∃ k : Nat, defaultMsb i = .ok (k : Int) ∧ Flex.leadingBit i.toNat = .ok k ∧
      (numeral i.toNat).length = k + 1) ∧
    (i = 0 → defaultMsb i = .ok 0 ∧ Flex.leadingBit i.toNat = .error .clzZero) := by
  have hrun := msbLoop_spec 64 i 0 i.toNat_lt (by decide) (by decide)
  rw [Nat.zero_add] at hrun
  refine ⟨fun hne => ?_, fun h0 => ?_⟩
  · have hnat : i.toNat ≠ 0 := fun h => hne (UInt64.toNat_inj.mp h)
    have hlog : i.toNat.log2 < 64 := (Nat.log2_lt hnat).mpr i.toNat_lt
    refine ⟨i.toNat.log2, hrun, ?_, length_numeral hnat⟩
    rw [Flex.leadingBit, if_neg hnat, show 64 - (63 - i.toNat.log2) - 1 = i.toNat.log2 by omega]
  · rw [h0]
    exact ⟨rfl, rfl⟩

end DataMonkey.Utils
