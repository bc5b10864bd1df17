import DataMonkey.Lookup3.Words

/- What the functions of `lookup3.c` compute, however they read their key.

   A key is cut into blocks of 12 bytes, the last of them filled up with zeros, and a block is
   three words in the byte order of the function. A way of reading is sound if its loop body and
   each of its cases add exactly such a block to the registers, and read nothing behind it.

     1. `Sound` and its eight instances — the loops and switches add a block;
     2. `digestKey_spec` — the state at the end;
     3. `hashlittle_spec`, `hashbig_spec`, and with them `hashlittle_paths`, `hashbig_paths` —
        one hash from every way of reading;
     4. `hashword_agrees` — and from an array of words. -/
namespace DataMonkey.Lookup3

/-! ## The hash of a list of bytes -/

/-- A byte of a key, or of the zeros it is filled up with. -/
def byteAt (key : List UInt8) (i : Nat) : UInt8 := key[i]?.getD 0

def blocks (order : Order) : Nat → List UInt8 → List Abc
  | 0, _ => []
  | m + 1, key => blockOf order (byteAt key) :: blocks order m (key.drop 12)

/-- Every block is added and mixed, the last one by `final`. -/
def digest : List Abc → Abc → Abc
  | [], s => s
  | [w], s => final (s.plus w)
  | w :: v :: ws, s => digest (v :: ws) (mix (s.plus w))

/-- The state in which a key is left, from a state that it is hashed into. -/
def digestBytes (order : Order) (key : List UInt8) (s : Abc) : Abc :=
  digest (blocks order ((key.length + 11) / 12) key) s

/-- `0xdeadbeef + length + initval` in all registers. -/
def seed (length : Nat) (initval : UInt32) : Abc :=
  Abc.start ((0xdeadbeef : UInt32) + UInt32.ofNat length + initval)

def hashBytes (order : Order) (key : List UInt8) (initval : UInt32) : UInt32 :=
  (digestBytes order key (seed key.length initval)).c

/-! ## Sound readings -/

/-- The statements add the words of `n` bytes. -/
def Adds (order : Order) (n : Nat) (ts : List Stmt) : Prop :=
  operandsOf .a ts ∈ parts order 0 (min 4 n) ∧
    operandsOf .b ts ∈ parts order 1 (min 4 (n - 4)) ∧
    operandsOf .c ts ∈ parts order 2 (min 4 (n - 8))

instance (order : Order) (n : Nat) (ts : List Stmt) : Decidable (Adds order n ts) :=
  inferInstanceAs (Decidable (_ ∧ _ ∧ _))

theorem Adds.eval {order : Order} {n : Nat} {ts : List Stmt} (h : Adds order n ts)
    {g f : Nat → UInt8} (hsame : ∀ i < n, f i = g i) (hzero : ∀ i, n ≤ i → i < 12 → f i = 0)
    (s : Abc) : evalAll order g s ts = s.plus (blockOf order f) := by
  have hfilled : ∀ j < 3, Filled g f (4 * j) (min 4 (n - 4 * j)) := by
    intro j hj
    refine ⟨fun i hi => hsame _ ?_, fun i hi h4 => hzero _ ?_ ?_⟩
    · omega
    · omega
    · omega
  obtain ⟨ha, hb, hc⟩ := h
  rw [evalAll_eq, part_value order (Nat.min_le_left _ _) (hfilled 0 (by decide)) ha,
    part_value order (Nat.min_le_left _ _) (hfilled 1 (by decide)) hb,
    part_value order (Nat.min_le_left _ _) (hfilled 2 (by decide)) hc]
  rfl

/-- The bytes that may be read for `n` bytes of a key, in chunks of `pad` bytes. -/
def roundUp (pad n : Nat) : Nat := (n + pad - 1) / pad * pad

/-- A reading whose loop body and cases add just the bytes of a block. A unit of `length` is
    `c` bytes, the pointer a multiple of `align`. -/
structure Reading.Sound (order : Order) (c align pad : Nat) (rd : Reading) : Prop where
  unit : rd.unit * c = 12
  alignDvd : align ∣ 12
  padDvd : pad ∣ 12
  body : Adds order 12 rd.body ∧ Fits align 12 rd.body
  tail : ∀ n ≤ rd.unit, 1 ≤ n → Adds order (n * c) (switch n rd.tail) ∧
    Fits align (roundUp pad (n * c)) (switch n rd.tail)

theorem Reading.Sound.pos {order : Order} {c align pad : Nat} {rd : Reading}
    (H : rd.Sound order c align pad) : 0 < rd.unit ∧ 0 < c := by
  have hunit := H.unit
  refine ⟨Nat.pos_of_ne_zero fun h => ?_, Nat.pos_of_ne_zero fun h => ?_⟩
  · rw [h, Nat.zero_mul] at hunit
    cases hunit
  · rw [h, Nat.mul_zero] at hunit
    cases hunit

theorem hashword_sound (order : Order) : hashwordReading.Sound order 4 4 1 := by
  cases order with
  | little => exact ⟨rfl, by decide, by decide, by decide, by decide⟩
  | big => exact ⟨rfl, by decide, by decide, by decide, by decide⟩

theorem littleWord_sound : Reading.Sound .little 1 4 4 ⟨wordBody, littleWordTail, 12⟩ :=
  ⟨rfl, by decide, by decide, by decide, by decide⟩

theorem littleWordValgrind_sound :
    Reading.Sound .little 1 4 1 ⟨wordBody, littleWordTailValgrind, 12⟩ :=
  ⟨rfl, by decide, by decide, by decide, by decide⟩

theorem half_sound : Reading.Sound .little 1 2 1 ⟨halfBody, halfTail, 12⟩ :=
  ⟨rfl, by decide, by decide, by decide, by decide⟩

theorem littleByte_sound : Reading.Sound .little 1 1 1 ⟨littleByteBody, littleByteTail, 12⟩ :=
  ⟨rfl, by decide, by decide, by decide, by decide⟩

theorem bigWord_sound : Reading.Sound .big 1 4 4 ⟨wordBody, bigWordTail, 12⟩ :=
  ⟨rfl, by decide, by decide, by decide, by decide⟩

theorem bigWordValgrind_sound :
    Reading.Sound .big 1 4 1 ⟨wordBody, bigWordTailValgrind, 12⟩ :=
  ⟨rfl, by decide, by decide, by decide, by decide⟩

theorem bigByte_sound : Reading.Sound .big 1 1 1 ⟨bigByteBody, bigByteTail, 12⟩ :=
  ⟨rfl, by decide, by decide, by decide, by decide⟩

/-! ## The state at the end -/

/-- The key is stored at `k`, and the bytes that fill up its last chunk may be read. -/
structure Holds (mem : Memory) (k pad : Nat) (key : List UInt8) : Prop where
  stored : ∀ i < key.length, mem (k + i) = some (byteAt key i)
  padded : ∀ i < roundUp pad key.length, (mem (k + i)).isSome

theorem byteAt_drop (key : List UInt8) (n i : Nat) :
    byteAt (key.drop n) i = byteAt key (n + i) := by
  rw [byteAt, byteAt, List.getElem?_drop]

theorem byteAt_out {key : List UInt8} {i : Nat} (h : key.length ≤ i) : byteAt key i = 0 := by
  rw [byteAt, List.getElem?_eq_none h, Option.getD_none]

theorem roundUp_block {pad n : Nat} (hpad : pad ∣ 12) (hn : 12 ≤ n) :
    roundUp pad n = roundUp pad (n - 12) + 12 := by
  obtain ⟨q, hq⟩ := hpad
  have hpos : 0 < pad := by
    apply Nat.pos_of_ne_zero
    intro h0
    rw [h0, Nat.zero_mul] at hq
    cases hq
  have hsum : n + pad - 1 = n - 12 + pad - 1 + pad * q := by omega
  rw [roundUp, roundUp, hsum, Nat.add_mul_div_left _ _ hpos, Nat.add_mul, Nat.mul_comm q, ← hq]

section Run

variable {pf : Platform} {mem : Memory} {rd : Reading} {order : Order} {c align pad k L : Nat}
  {key : List UInt8} {s : Abc}

/-- The bytes that are there. -/
theorem Holds.loaded (h : Holds mem k pad key) :
    Loaded mem k (roundUp pad key.length) fun i => (mem (k + i)).getD 0 := by
  intro i hi
  obtain ⟨x, hx⟩ := Option.isSome_iff_exists.mp (h.padded i hi)
  simp only [hx, Option.getD_some]

theorem Holds.same (h : Holds mem k pad key) {i : Nat} (hi : i < key.length) :
    byteAt key i = (mem (k + i)).getD 0 := by rw [h.stored i hi, Option.getD_some]

theorem Holds.drop (h : Holds mem k pad key) (hpad : pad ∣ 12) (hlen : 12 ≤ key.length) :
    Holds mem (k + 12) pad (key.drop 12) := by
  refine ⟨fun i hi => ?_, fun i hi => ?_⟩
  · rw [List.length_drop] at hi
    rw [byteAt_drop, Nat.add_assoc]
    exact h.stored (12 + i) (by omega)
  · rw [List.length_drop] at hi
    rw [Nat.add_assoc]
    apply h.padded
    rw [roundUp_block hpad hlen]
    omega

/-- Statements over bytes alone are the same on every machine. -/
theorem evalAll_order {ts : List Stmt} {m : Nat} (hfits : Fits align m ts)
    (hord : pf.order = order ∨ align = 1) (g : Nat → UInt8) (s : Abc) :
    evalAll pf.order g s ts = evalAll order g s ts := by
  rcases hord with h | h
  · rw [h]
  · have hvalue : ∀ t ∈ ts, ∀ o ∈ t.operands, o.value pf.order g = o.value order g := by
      intro t ht o ho
      have hone : o.align ∣ 1 := by
        rw [← h]
        exact (hfits t ht o ho).2
      cases o with
      | byte i shift => rfl
      | half i shift => exact absurd hone (show ¬ 2 ∣ 1 by decide)
      | word i mask => exact absurd hone (show ¬ 4 ∣ 1 by decide)
    apply List.foldl_ext
    intro s t ht
    apply List.foldl_ext
    intro s o ho
    rw [hvalue t ht o ho]

/-- The statements for the first `n` bytes of a key, a block or all that is left. -/
theorem exec_block (hk : k % align = 0) (hord : pf.order = order ∨ align = 1)
    (h : Holds mem k pad key) {ts : List Stmt} {n m : Nat} (hadds : Adds order n ts)
    (hfits : Fits align m ts) (hm : m ≤ roundUp pad key.length) (hn : n ≤ key.length)
    (hlast : n = 12 ∨ n = key.length) (s : Abc) :
    execAll pf mem k s ts = .ok (s.plus (blockOf order (byteAt key))) := by
  have hload : Loaded mem k m fun i => (mem (k + i)).getD 0 :=
    fun i hi => h.loaded i (Nat.lt_of_lt_of_le hi hm)
  rw [execAll_spec hload hk hfits, evalAll_order hfits hord]
  congr 1
  refine hadds.eval (fun i hi => ?_) (fun i hi h12 => ?_) s
  · exact h.same (Nat.lt_of_lt_of_le hi hn)
  · apply byteAt_out
    omega

theorem digestBytes_nil (s : Abc) : digestBytes order [] s = s := rfl

theorem digestBytes_cons (hlen : 12 < key.length) (s : Abc) :
    digestBytes order key s =
      digestBytes order (key.drop 12) (mix (s.plus (blockOf order (byteAt key)))) := by
  obtain ⟨m, hm⟩ : ∃ m, (key.length - 12 + 11) / 12 = m + 1 :=
    ⟨(key.length - 12 - 1) / 12, by omega⟩
  have hcount : (key.length + 11) / 12 = m + 1 + 1 := by omega
  rw [digestBytes, digestBytes, hcount, List.length_drop, hm, blocks, blocks, digest]

theorem digestBytes_last (h1 : 1 ≤ key.length) (h12 : key.length ≤ 12) (s : Abc) :
    digestBytes order key s = final (s.plus (blockOf order (byteAt key))) := by
  have hcount : (key.length + 11) / 12 = 0 + 1 := by omega
  rw [digestBytes, hcount, blocks, blocks, digest]

/-- The loop leaves a key that hashes to the same, of one block at most. -/
theorem absorb_spec (H : rd.Sound order c align pad) (hord : pf.order = order ∨ align = 1) :
    ∀ (fuel k L : Nat) (key : List UInt8) (s : Abc), L < fuel → k % align = 0 →
      key.length = L * c → Holds mem k pad key →
      ∃ k' L' key' s', absorb pf mem rd fuel k L s = .ok (k', L', s') ∧ L' ≤ rd.unit ∧
        k' % align = 0 ∧ key'.length = L' * c ∧ Holds mem k' pad key' ∧
        digestBytes order key' s' = digestBytes order key s
  | 0, _, _, _, _, hfuel, _, _, _ => absurd hfuel (Nat.not_lt_zero _)
  | fuel + 1, k, L, key, s, hfuel, hk, hlen, h => by
    have hunit := H.unit
    obtain ⟨hpos, hc⟩ := H.pos
    by_cases hL : rd.unit < L
    · have hlt : 12 < key.length := by
        rw [hlen, ← hunit]
        exact Nat.mul_lt_mul_of_pos_right hL hc
      have hround : 12 ≤ roundUp pad key.length := by
        rw [roundUp_block H.padDvd (Nat.le_of_lt hlt)]
        exact Nat.le_add_left 12 _
      have hbody := exec_block hk hord h H.body.1 H.body.2 hround (Nat.le_of_lt hlt) (.inl rfl) s
      have hk' : (k + 12) % align = 0 := by
        rw [Nat.add_mod, hk, Nat.mod_eq_zero_of_dvd H.alignDvd, Nat.zero_add, Nat.zero_mod]
      have hlen' : (key.drop 12).length = (L - rd.unit) * c := by
        rw [List.length_drop, hlen, Nat.sub_mul, hunit]
      obtain ⟨k₁, L₁, key₁, s₁, hrun, hle, hk₁, hlen₁, h₁, hdig⟩ := absorb_spec H hord fuel (k + 12)
        (L - rd.unit) (key.drop 12) (mix (s.plus (blockOf order (byteAt key)))) (by omega) hk'
        hlen' (h.drop H.padDvd (Nat.le_of_lt hlt))
      refine ⟨k₁, L₁, key₁, s₁, ?_, hle, hk₁, hlen₁, h₁, ?_⟩
      · rw [absorb, if_pos hL, hbody, Runs.ok_bind]
        exact hrun
      · rw [hdig, digestBytes_cons hlt]
    · exact ⟨k, L, key, s, by rw [absorb, if_neg hL], Nat.le_of_not_lt hL, hk, hlen, h, rfl⟩

/-- Whichever way a key is read, the registers are those that its bytes determine. -/
theorem digestKey_spec (H : rd.Sound order c align pad) (hord : pf.order = order ∨ align = 1)
    (hk : k % align = 0) (hlen : key.length = L * c) (h : Holds mem k pad key) (s : Abc) :
    digestKey pf mem rd k L s = .ok (digestBytes order key s) := by
  obtain ⟨k', L', key', s', hrun, hle, hk', hlen', h', hdig⟩ :=
    absorb_spec H hord (L + 1) k L key s (Nat.lt_succ_self L) hk hlen h
  have hunit := H.unit
  rw [digestKey, hrun, Runs.ok_bind, ← hdig]
  by_cases h0 : L' = 0
  · have hnil : key' = [] := by
      apply List.length_eq_zero_iff.mp
      rw [hlen', h0, Nat.zero_mul]
    simp only [h0, if_true, hnil, digestBytes_nil]
  · have hpos : 1 ≤ L' := Nat.pos_of_ne_zero h0
    obtain ⟨hadds, hfits⟩ := H.tail L' hle hpos
    rw [← hlen'] at hadds hfits
    have h12 : key'.length ≤ 12 := by
      rw [hlen', ← hunit]
      exact Nat.mul_le_mul_right c hle
    have h1 : 1 ≤ key'.length := by
      rw [hlen']
      exact Nat.mul_pos hpos H.pos.2
    have htail := exec_block hk' hord h' hadds hfits (Nat.le_refl _) (Nat.le_refl _) (.inr rfl) s'
    simp only [h0, if_false, htail, Runs.ok_bind, digestBytes_last h1 h12]

end Run

/-- The memory with a key written to `p`. -/
def place (mem : Memory) (p : Nat) (key : List UInt8) : Memory := fun q =>
  if p ≤ q ∧ q < p + key.length then some (byteAt key (q - p)) else mem q

theorem holds_place {mem : Memory} {p pad : Nat} {key : List UInt8}
    (h : ∀ i, key.length ≤ i → i < roundUp pad key.length → (mem (p + i)).isSome) :
    Holds (place mem p key) p pad key := by
  have hin : ∀ i < key.length, place mem p key (p + i) = some (byteAt key i) := by
    intro i hi
    rw [place, if_pos (by omega), Nat.add_sub_cancel_left]
  refine ⟨hin, fun i hi => ?_⟩
  by_cases hlt : i < key.length
  · rw [hin i hlt]
    rfl
  · rw [place, if_neg (by omega)]
    exact h i (by omega) hi

/-! ## The functions -/

/-- The two hashes of `hashlittle2` and `hashword2`. -/
def hashBytes2 (order : Order) (key : List UInt8) (pc pb : UInt32) : UInt32 × UInt32 :=
  let s := digestBytes order key ((seed key.length pc).add pb .c)
  (s.c, s.b)

/-- The chunks that may be read: words of which only a part belongs to the key where the reading
    is of words, and `VALGRIND` is not to be kept happy. -/
def Platform.littlePad (pf : Platform) (p : Nat) : Nat :=
  if pf.hashLittleEndian && p &&& 0x3 = 0 && !pf.valgrind then 4 else 1

def Platform.bigPad (pf : Platform) (p : Nat) : Nat :=
  if pf.hashBigEndian && p &&& 0x3 = 0 && !pf.valgrind then 4 else 1

theorem mod_of_and {p m : Nat} (k : Nat) (hm : m = 2 ^ k - 1) (h : p &&& m = 0) :
    p % 2 ^ k = 0 := by rw [← Nat.and_two_pow_sub_one_eq_mod, ← hm, h]

/-- Each of the ways to read a key is sound where it is chosen. -/
theorem littleReading_sound (pf : Platform) (p : Nat) :
    ∃ align, (littleReading pf p).Sound .little 1 align (pf.littlePad p) ∧ p % align = 0 ∧
      (pf.order = .little ∨ align = 1) := by
  unfold littleReading Platform.littlePad
  cases hle : pf.hashLittleEndian with
  | false => exact ⟨1, littleByte_sound, Nat.mod_one p, .inr rfl⟩
  | true =>
    have horder : pf.order = .little := by
      rw [Platform.hashLittleEndian, Bool.and_eq_true] at hle
      exact of_decide_eq_true hle.2
    by_cases h4 : p &&& 0x3 = 0
    · have hp := mod_of_and 2 rfl h4
      cases hv : pf.valgrind with
      | false =>
        simp only [h4, decide_true, Bool.and_true, Bool.not_false, if_true]
        exact ⟨4, littleWord_sound, hp, .inl horder⟩
      | true =>
        simp only [h4, decide_true, Bool.and_true, Bool.not_true, if_true]
        exact ⟨4, littleWordValgrind_sound, hp, .inl horder⟩
    · simp only [h4, decide_false, Bool.and_false, Bool.false_and, Bool.true_and]
      by_cases h2 : p &&& 0x1 = 0
      · simp only [h2, decide_true, if_true]
        exact ⟨2, half_sound, mod_of_and 1 rfl h2, .inl horder⟩
      · simp only [h2, decide_false]
        exact ⟨1, littleByte_sound, Nat.mod_one p, .inr rfl⟩

theorem bigReading_sound (pf : Platform) (p : Nat) :
    ∃ align, (bigReading pf p).Sound .big 1 align (pf.bigPad p) ∧ p % align = 0 ∧
      (pf.order = .big ∨ align = 1) := by
  unfold bigReading Platform.bigPad
  cases hbe : pf.hashBigEndian with
  | false => exact ⟨1, bigByte_sound, Nat.mod_one p, .inr rfl⟩
  | true =>
    have horder : pf.order = .big := by
      rw [Platform.hashBigEndian, Bool.and_eq_true] at hbe
      exact of_decide_eq_true hbe.2
    by_cases h4 : p &&& 0x3 = 0
    · have hp := mod_of_and 2 rfl h4
      cases hv : pf.valgrind with
      | false =>
        simp only [h4, decide_true, Bool.and_true, Bool.not_false, if_true]
        exact ⟨4, bigWord_sound, hp, .inl horder⟩
      | true =>
        simp only [h4, decide_true, Bool.and_true, Bool.not_true, if_true]
        exact ⟨4, bigWordValgrind_sound, hp, .inl horder⟩
    · simp only [h4, decide_false, Bool.and_false, Bool.false_and]
      exact ⟨1, bigByte_sound, Nat.mod_one p, .inr rfl⟩

section Functions

variable {pf : Platform} {mem : Memory} {p : Nat} {key : List UInt8}

/-- However a key is placed and the file compiled, `hashlittle` and `hashlittle2` return what
    its bytes determine, and with a second seed of 0 both return one hash. -/
theorem hashlittle_spec (h : Holds mem p (pf.littlePad p) key) :
    (∀ initval, hashlittle pf mem p key.length initval = .ok (hashBytes .little key initval)) ∧
    (∀ pc pb, hashlittle2 pf mem p key.length pc pb = .ok (hashBytes2 .little key pc pb)) ∧
    ∀ pc, (hashBytes2 .little key pc 0).1 = hashBytes .little key pc := by
  obtain ⟨align, H, hp, hord⟩ := littleReading_sound pf p
  have hrun := digestKey_spec H hord hp (Nat.mul_one key.length).symm h
  refine ⟨fun initval => ?_, fun pc pb => ?_, fun pc => ?_⟩
  · rw [hashlittle, hrun]
    rfl
  · rw [hashlittle2, hrun]
    rfl
  · rw [hashBytes2, Abc.add, add_zero]
    rfl

/-- The known answers of `driver5`. -/
example :
    hashBytes2 .little ("Four score and seven years ago".toList.map fun c => UInt8.ofNat c.toNat)
      0 1 = (0xe3607cae, 0xbd371de4) := by decide +kernel

theorem hashbig_spec (h : Holds mem p (pf.bigPad p) key) (initval : UInt32) :
    hashbig pf mem p key.length initval = .ok (hashBytes .big key initval) := by
  obtain ⟨align, H, hp, hord⟩ := bigReading_sound pf p
  rw [hashbig, digestKey_spec H hord hp (Nat.mul_one key.length).symm h]
  rfl

/-- Two machines, compilations and places of a key make no difference to any of its hashes; and
    with a second seed of 0 `hashlittle2` returns that of `hashlittle` first. -/
theorem hashlittle_paths {pf' : Platform} {mem' : Memory} {p' : Nat}
    (h : Holds mem p (pf.littlePad p) key) (h' : Holds mem' p' (pf'.littlePad p') key) :
    (∀ pc pb, ∃ r, hashlittle2 pf mem p key.length pc pb = .ok r ∧
      hashlittle2 pf' mem' p' key.length pc pb = .ok r) ∧
    ∀ initval, ∃ r b, hashlittle pf mem p key.length initval = .ok r ∧
      hashlittle pf' mem' p' key.length initval = .ok r ∧
      hashlittle2 pf mem p key.length initval 0 = .ok (r, b) := by
  obtain ⟨hash, hash2, hzero⟩ := hashlittle_spec h
  obtain ⟨hash', hash2', -⟩ := hashlittle_spec h'
  refine ⟨fun pc pb => ⟨_, hash2 pc pb, hash2' pc pb⟩, fun initval => ?_⟩
  refine ⟨_, (hashBytes2 .little key initval 0).2, hash initval, hash' initval, ?_⟩
  rw [hash2, ← hzero]

/-- A word at a multiple of 4 with one byte behind the key, and the same key byte by byte. -/
theorem hashlittle_paths_three : ∃ r b,
    hashlittle ⟨.little, true, false⟩ (place (fun _ => some 7) 4 [97, 98, 99]) 4 3 0 = .ok r ∧
      hashlittle ⟨.big, true, true⟩ (place (fun _ => none) 5 [97, 98, 99]) 5 3 0 = .ok r ∧
      hashlittle2 ⟨.little, true, false⟩ (place (fun _ => some 7) 4 [97, 98, 99]) 4 3 0 0 =
        .ok (r, b) := by
  have h : Holds (place (fun _ => some 7) 4 [97, 98, 99]) 4
      (Platform.littlePad ⟨.little, true, false⟩ 4) [97, 98, 99] := holds_place fun _ _ _ => rfl
  have h' : Holds (place (fun _ => none) 5 [97, 98, 99]) 5
      (Platform.littlePad ⟨.big, true, true⟩ 5) [97, 98, 99] :=
    holds_place fun _ hi hlt => absurd hlt (Nat.not_lt.mpr hi)
  exact (hashlittle_paths h h').2 0

theorem hashbig_paths {pf' : Platform} {mem' : Memory} {p' : Nat}
    (h : Holds mem p (pf.bigPad p) key) (h' : Holds mem' p' (pf'.bigPad p') key)
    (initval : UInt32) : ∃ r, hashbig pf mem p key.length initval = .ok r ∧
      hashbig pf' mem' p' key.length initval = .ok r :=
  ⟨_, hashbig_spec h initval, hashbig_spec h' initval⟩

theorem hashbig_paths_three : ∃ r,
    hashbig ⟨.big, true, false⟩ (place (fun _ => some 7) 4 [97, 98, 99]) 4 3 0 = .ok r ∧
      hashbig ⟨.little, true, true⟩ (place (fun _ => none) 4 [97, 98, 99]) 4 3 0 = .ok r := by
  have h : Holds (place (fun _ => some 7) 4 [97, 98, 99]) 4
      (Platform.bigPad ⟨.big, true, false⟩ 4) [97, 98, 99] := holds_place fun _ _ _ => rfl
  have h' : Holds (place (fun _ => none) 4 [97, 98, 99]) 4
      (Platform.bigPad ⟨.little, true, true⟩ 4) [97, 98, 99] :=
    holds_place fun _ hi hlt => absurd hlt (Nat.not_lt.mpr hi)
  exact hashbig_paths h h' 0

theorem ofNat_words (n : Nat) : (UInt32.ofNat n) <<< 2 = UInt32.ofNat (n * 4) := by
  apply UInt32.toNat_inj.mp
  rw [toNat_shift, UInt32.toNat_ofNat', UInt32.toNat_ofNat']
  simp only [UInt32.reduceToNat, Nat.reduceMod, Nat.reducePow]
  omega

theorem ofNat_bytes (n : Nat) : UInt32.ofNat (n <<< 2 % 2 ^ 64) = UInt32.ofNat (n * 4) := by
  apply UInt32.toNat_inj.mp
  rw [UInt32.toNat_ofNat', UInt32.toNat_ofNat', Nat.shiftLeft_eq]
  exact Nat.mod_mod_of_dvd _ (by decide)

/-- On an array of words the byte order is that of the machine. -/
theorem hashword_spec {n : Nat} (hp : p % 4 = 0) (h : Holds mem p 1 key)
    (hlen : key.length = n * 4) :
    (∀ initval, hashword pf mem p n initval = .ok (hashBytes pf.order key initval)) ∧
    ∀ pc pb, hashword2 pf mem p n pc pb = .ok (hashBytes2 pf.order key pc pb) := by
  have hrun := digestKey_spec (hashword_sound pf.order) (.inl rfl) hp hlen h
  refine ⟨fun initval => ?_, fun pc pb => ?_⟩
  · rw [hashword, ofNat_words, hrun, hashBytes, hlen]
    rfl
  · rw [hashword2, ofNat_bytes, hrun, hashBytes2, hlen]
    rfl

/-- Whole words need no filling up. -/
theorem Holds.words {pad n : Nat} (h : Holds mem p 1 key) (hpad : pad = 4 ∨ pad = 1)
    (hlen : key.length = n * 4) : Holds mem p pad key := by
  refine ⟨h.stored, fun i hi => h.padded i ?_⟩
  rcases hpad with rfl | rfl
  · simp only [roundUp] at hi ⊢
    omega
  · exact hi

/-- Readable memory holds the key that is read from it. -/
theorem Holds.of_readable {m : Nat} (h : ∀ i < m, (mem (p + i)).isSome) :
    Holds mem p 1 ((List.range m).map fun i => (mem (p + i)).getD 0) := by
  refine ⟨fun i hi => ?_, fun i hi => h i ?_⟩
  · rw [List.length_map, List.length_range] at hi
    obtain ⟨x, hx⟩ := Option.isSome_iff_exists.mp (h i hi)
    rw [byteAt, List.getElem?_map, List.getElem?_range hi, Option.map_some, hx]
    rfl
  · rw [roundUp, List.length_map, List.length_range] at hi
    omega

/-- `hashword` is `hashlittle` on a little-endian machine and `hashbig` on a big-endian one,
    with the length in words for the length in bytes; so is `hashword2` for `hashlittle2`. -/
theorem hashword_agrees {n : Nat} (hp : p % 4 = 0) (hmem : ∀ i < n * 4, (mem (p + i)).isSome) :
    (∀ initval, ∃ r, hashword pf mem p n initval = .ok r ∧
      match pf.order with
      | .little => hashlittle pf mem p (n * 4) initval = .ok r
      | .big => hashbig pf mem p (n * 4) initval = .ok r) ∧
    ∀ pc pb, ∃ r, hashword2 pf mem p n pc pb = .ok r ∧
      (pf.order = .little → hashlittle2 pf mem p (n * 4) pc pb = .ok r) := by
  obtain ⟨key, hlen, h⟩ : ∃ key, key.length = n * 4 ∧ Holds mem p 1 key :=
    ⟨_, by rw [List.length_map, List.length_range], Holds.of_readable hmem⟩
  have hl : Holds mem p (pf.littlePad p) key := by
    apply h.words _ hlen
    unfold Platform.littlePad
    split
    · exact .inl rfl
    · exact .inr rfl
  have hb : Holds mem p (pf.bigPad p) key := by
    apply h.words _ hlen
    unfold Platform.bigPad
    split
    · exact .inl rfl
    · exact .inr rfl
  obtain ⟨hword, hword2⟩ := @hashword_spec pf mem p key n hp h hlen
  obtain ⟨hlittle, hlittle2, -⟩ := hashlittle_spec hl
  rw [← hlen]
  refine ⟨fun initval => ⟨_, hword initval, ?_⟩, fun pc pb => ⟨_, hword2 pc pb, fun ho => ?_⟩⟩
  · cases ho : pf.order with
    | little => exact hlittle initval
    | big => exact hashbig_spec hb initval
  · rw [ho]
    exact hlittle2 pc pb

/-- Four words of sixteen different bytes. -/
theorem hashword_agrees_four :
    (∃ r, hashword ⟨.big, true, true⟩ (fun a => some (UInt8.ofNat a)) 8 4 0 = .ok r ∧
      hashbig ⟨.big, true, true⟩ (fun a => some (UInt8.ofNat a)) 8 (4 * 4) 0 = .ok r) ∧
    ∃ r, hashword2 ⟨.little, true, true⟩ (fun a => some (UInt8.ofNat a)) 8 4 1 2 = .ok r ∧
      hashlittle2 ⟨.little, true, true⟩ (fun a => some (UInt8.ofNat a)) 8 (4 * 4) 1 2 = .ok r := by
  refine ⟨(hashword_agrees (n := 4) rfl fun _ _ => rfl).1 0, ?_⟩
  obtain ⟨r, hword, hlittle⟩ := (@hashword_agrees ⟨.little, true, true⟩
    (fun a => some (UInt8.ofNat a)) 8 4 rfl fun _ _ => rfl).2 1 2
  exact ⟨r, hword, hlittle rfl⟩

end Functions

end DataMonkey.Lookup3
