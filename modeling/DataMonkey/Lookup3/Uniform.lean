import Mathlib.Logic.Equiv.Fin.Basic
import DataMonkey.Lib.Equidistributed
import DataMonkey.Lookup3.Digest

/- The hashes of `lookup3.c` are uniform over the keys of each length of 12 bytes or more.

   A block is added to the registers, which then go through `mix` or `final`, so with the rest of
   a key fixed the registers at the end are a bijection of any whole block. A hash is one of the
   registers, hence taken equally often; so is a pair of them, and so is a bucket, the low bits
   of a hash that `hashmask` leaves. -/
namespace DataMonkey.Lookup3

/-! ## Finite types -/

def byteEquiv : UInt8 ≃ Fin (2 ^ 8) where
  toFun x := x.toFin
  invFun i := UInt8.ofFin i
  left_inv _ := rfl
  right_inv _ := rfl

def wordEquiv : UInt32 ≃ Fin (2 ^ 32) where
  toFun x := x.toFin
  invFun i := UInt32.ofFin i
  left_inv _ := rfl
  right_inv _ := rfl

/-- The registers, with the hash first. -/
def abcEquiv : Abc ≃ (UInt32 × UInt32) × UInt32 where
  toFun s := ((s.c, s.b), s.a)
  invFun p := ⟨p.2, p.1.2, p.1.1⟩
  left_inv _ := rfl
  right_inv _ := rfl

instance finite_byte : Finite UInt8 := Finite.of_equiv _ byteEquiv.symm
instance finite_word : Finite UInt32 := Finite.of_equiv _ wordEquiv.symm
instance finite_abc : Finite Abc := Finite.of_equiv _ abcEquiv.symm

theorem card_byte : Nat.card UInt8 = 2 ^ 8 := by
  rw [Nat.card_congr byteEquiv, Nat.card_eq_fintype_card, Fintype.card_fin]

theorem card_word : Nat.card UInt32 = 2 ^ 32 := by
  rw [Nat.card_congr wordEquiv, Nat.card_eq_fintype_card, Fintype.card_fin]

theorem card_key (n : Nat) : Nat.card (Fin n → UInt8) = 2 ^ (8 * n) := by
  rw [Nat.card_fun, card_byte, Nat.card_eq_fintype_card, Fintype.card_fin, ← pow_mul]

/-! ## A block determines the registers -/

theorem plus_bijective (s : Abc) : Function.Bijective s.plus := by
  refine Function.bijective_iff_has_inverse.mpr
    ⟨fun w => ⟨w.a - s.a, w.b - s.b, w.c - s.c⟩, fun w => ?_, fun w => ?_⟩
  · simp only [Abc.plus, add_sub_cancel_left]
  · simp only [Abc.plus, add_sub_cancel]

theorem plus_comm (s w : Abc) : s.plus w = w.plus s := by
  simp only [Abc.plus, add_comm]

/-- Whatever follows, different registers stay different. -/
theorem digest_bijective : ∀ ws : List Abc, Function.Bijective (digest ws)
  | [] => Function.bijective_id
  | [w] => by
    have hplus : Function.Bijective fun s : Abc => s.plus w := by
      simp only [plus_comm _ w]
      exact plus_bijective w
    exact final_bijective.comp hplus
  | w :: v :: ws => by
    have hplus : Function.Bijective fun s : Abc => s.plus w := by
      simp only [plus_comm _ w]
      exact plus_bijective w
    exact (digest_bijective (v :: ws)).comp (mix_bijective.comp hplus)

theorem wordAt_inj (order : Order) {f g : Nat → UInt8} {i : Nat}
    (h : wordAt order f i = wordAt order g i) : ∀ r < 4, f (i + r) = g (i + r) := by
  have hlittle : ∀ x y z w x' y' z' w' : UInt8,
      wordOf .little x.toUInt32 y.toUInt32 z.toUInt32 w.toUInt32 =
        wordOf .little x'.toUInt32 y'.toUInt32 z'.toUInt32 w'.toUInt32 →
      x = x' ∧ y = y' ∧ z = z' ∧ w = w' := by
    intro x y z w x' y' z' w' h
    have hnat := congrArg UInt32.toNat h
    rw [toNat_wordOf, toNat_wordOf] at hnat
    have hx := x.toNat_lt
    have hy := y.toNat_lt
    have hz := z.toNat_lt
    have hx' := x'.toNat_lt
    have hy' := y'.toNat_lt
    have hz' := z'.toNat_lt
    refine ⟨UInt8.toNat_inj.mp ?_, UInt8.toNat_inj.mp ?_, UInt8.toNat_inj.mp ?_,
      UInt8.toNat_inj.mp ?_⟩
    · omega
    · omega
    · omega
    · omega
  intro r hr
  cases order with
  | little =>
    obtain ⟨h0, h1, h2, h3⟩ := hlittle _ _ _ _ _ _ _ _ h
    interval_cases r
    · exact h0
    · exact h1
    · exact h2
    · exact h3
  | big =>
    rw [wordAt, wordAt, wordOf_big, wordOf_big] at h
    obtain ⟨h3, h2, h1, h0⟩ := hlittle _ _ _ _ _ _ _ _ h
    interval_cases r
    · exact h0
    · exact h1
    · exact h2
    · exact h3

theorem blockOf_congr {order : Order} {f g : Nat → UInt8} (h : ∀ i < 12, f i = g i) :
    blockOf order f = blockOf order g := by
  have hword : ∀ i ≤ 8, wordAt order f i = wordAt order g i := by
    intro i hi
    rw [wordAt, wordAt, h i (by omega), h (i + 1) (by omega), h (i + 2) (by omega),
      h (i + 3) (by omega)]
  rw [blockOf, blockOf, hword 0 (by decide), hword 4 (by decide), hword 8 (by decide)]

theorem byteAt_ofFn {n : Nat} (key : Fin n → UInt8) {i : Nat} (hi : i < n) :
    byteAt (List.ofFn key) i = key ⟨i, hi⟩ := by
  rw [byteAt, List.getElem?_ofFn, dif_pos hi, Option.getD_some]

/-- Twelve bytes and the block of three words that they are. -/
theorem blockOf_bijective (order : Order) :
    Function.Bijective fun b : Fin 12 → UInt8 => blockOf order (byteAt (List.ofFn b)) := by
  apply (Nat.bijective_iff_injective_and_card _).mpr
  refine ⟨fun b b' h => ?_, ?_⟩
  · obtain ⟨h0, h4, h8⟩ := Abc.mk.inj h
    funext ⟨i, hi⟩
    rw [← byteAt_ofFn b hi, ← byteAt_ofFn b' hi]
    by_cases h₁ : i < 4
    · have := wordAt_inj order h0 i h₁
      rwa [Nat.zero_add] at this
    · by_cases h₂ : i < 8
      · have := wordAt_inj order h4 (i - 4) (by omega)
        rwa [Nat.add_sub_cancel' (by omega)] at this
      · have := wordAt_inj order h8 (i - 8) (by omega)
        rwa [Nat.add_sub_cancel' (by omega)] at this
  · rw [card_key, Nat.card_congr abcEquiv, Nat.card_prod, Nat.card_prod, card_word, ← pow_add,
      ← pow_add]

/-- With the rest of the key fixed, the registers at the end are a bijection of the first block. -/
theorem digestBytes_bijective (order : Order) (rest : List UInt8) (s : Abc) :
    Function.Bijective fun b : Fin 12 → UInt8 =>
      digestBytes order (List.ofFn b ++ rest) s := by
  have hlen : ∀ b : Fin 12 → UInt8, (List.ofFn b).length = 12 := fun b => List.length_ofFn
  have hblock : ∀ b : Fin 12 → UInt8, blockOf order (byteAt (List.ofFn b ++ rest)) =
      blockOf order (byteAt (List.ofFn b)) := by
    intro b
    apply blockOf_congr
    intro i hi
    rw [byteAt, byteAt, List.getElem?_append_left (by rw [hlen]; exact hi)]
  by_cases hrest : rest = []
  · have hd : ∀ b : Fin 12 → UInt8, digestBytes order (List.ofFn b ++ rest) s =
        final (s.plus (blockOf order (byteAt (List.ofFn b)))) := by
      intro b
      rw [digestBytes_last, hblock]
      · rw [hrest, List.append_nil, hlen]
        decide
      · rw [hrest, List.append_nil, hlen]
    simp only [hd]
    exact final_bijective.comp ((plus_bijective s).comp (blockOf_bijective order))
  · have hd : ∀ b : Fin 12 → UInt8, digestBytes order (List.ofFn b ++ rest) s =
        digestBytes order rest (mix (s.plus (blockOf order (byteAt (List.ofFn b))))) := by
      intro b
      have hpos : 0 < rest.length := List.length_pos_iff.mpr hrest
      rw [digestBytes_cons, hblock, List.drop_left' (hlen b)]
      rw [List.length_append, hlen]
      omega
    simp only [hd]
    exact (digest_bijective _).comp
      (mix_bijective.comp ((plus_bijective s).comp (blockOf_bijective order)))

/-! ## Counting keys -/

/-- Of the keys of `12 + m` bytes, every pair of registers is reached equally often. -/
theorem digestBytes_equidistributed (order : Order) (m : Nat) (s : Abc) :
    Equidistributed fun key : Fin (12 + m) → UInt8 =>
      ((digestBytes order (List.ofFn key) s).c, (digestBytes order (List.ofFn key) s).b) := by
  have hpair : Equidistributed fun p : (Fin 12 → UInt8) × (Fin m → UInt8) =>
      (abcEquiv (digestBytes order (List.ofFn p.1 ++ List.ofFn p.2) s)).1 := by
    apply Equidistributed.of_fibres
    intro rest
    exact Equidistributed.fst.comp_bijective
      (abcEquiv.bijective.comp (digestBytes_bijective order (List.ofFn rest) s))
  have hkey := hpair.comp_bijective (Fin.appendEquiv 12 m).symm.bijective
  have hsplit : ∀ key : Fin (12 + m) → UInt8,
      List.ofFn ((Fin.appendEquiv 12 m).symm key).1 ++
        List.ofFn ((Fin.appendEquiv 12 m).symm key).2 = List.ofFn key := by
    intro key
    rw [← List.ofFn_fin_append]
    exact congrArg List.ofFn ((Fin.appendEquiv 12 m).apply_symm_apply key)
  refine cast (congrArg Equidistributed (funext fun key => ?_)) hkey
  rw [Function.comp_apply, hsplit]
  rfl

/-- The low bits of a word, as `hashmask` leaves them. -/
theorem toNat_hashmask {b : UInt32} (hb : b < 32) (x : UInt32) :
    (x &&& hashmask b).toNat = x.toNat % 2 ^ b.toNat := by
  have hlt : b.toNat < 32 := UInt32.lt_iff_toNat_lt.mp hb
  have hpow : 2 ^ b.toNat < 2 ^ 32 := Nat.pow_lt_pow_right (by decide) hlt
  have hsize : (hashsize b).toNat = 2 ^ b.toNat := by
    rw [hashsize, toNat_shift, Nat.mod_eq_of_lt hlt, show UInt32.toNat 1 = 1 from rfl, Nat.one_mul,
      Nat.mod_eq_of_lt hpow]
  apply toNat_and_low
  rw [hashmask, UInt32.toNat_sub_of_le, hsize]
  · rfl
  · rw [UInt32.le_iff_toNat_le, hsize]
    exact Nat.one_le_two_pow

/-- Every bucket has equally many words. -/
theorem bucket_equidistributed (b : Nat) (hb : b ≤ 32) :
    Equidistributed fun x : UInt32 =>
      (⟨x.toNat % 2 ^ b, Nat.mod_lt _ (Nat.two_pow_pos b)⟩ : Fin (2 ^ b)) := by
  have hsplit : 2 ^ 32 = 2 ^ (32 - b) * 2 ^ b := by rw [← pow_add, Nat.sub_add_cancel hb]
  let e : UInt32 ≃ Fin (2 ^ b) × Fin (2 ^ (32 - b)) :=
    wordEquiv.trans ((finCongr hsplit).trans (finProdFinEquiv.symm.trans (Equiv.prodComm _ _)))
  have hfst : Equidistributed (Prod.fst : Fin (2 ^ b) × Fin (2 ^ (32 - b)) → Fin (2 ^ b)) :=
    Equidistributed.fst
  exact hfst.comp_bijective e.bijective

/-! ## Counting calls -/

/-- The counts of an equidistributed function are those of the calls that return its values. -/
theorem card_calls {n : Nat} {β : Type} {f : (Fin n → UInt8) → β} (hf : Equidistributed f)
    {P : (Fin n → UInt8) → Prop} {y : β} (hP : ∀ key, P key ↔ f key = y) :
    Nat.card {key // P key} * Nat.card β = 2 ^ (8 * n) := by
  rw [Nat.card_congr (Equiv.subtypeEquivRight hP), hf y, card_key]

section Functions

variable {pf : Platform} {mem : Memory} {p n : Nat}

theorem hashBytes_equidistributed (order : Order) (hn : 12 ≤ n) (initval : UInt32) :
    Equidistributed fun key : Fin n → UInt8 => hashBytes order (List.ofFn key) initval := by
  obtain ⟨m, rfl⟩ := Nat.exists_eq_add_of_le hn
  have h := Equidistributed.fst.comp (digestBytes_equidistributed order m (seed (12 + m) initval))
  simp only [hashBytes, List.length_ofFn]
  exact h

theorem hashBytes2_equidistributed (order : Order) (hn : 12 ≤ n) (pc pb : UInt32) :
    Equidistributed fun key : Fin n → UInt8 => hashBytes2 order (List.ofFn key) pc pb := by
  obtain ⟨m, rfl⟩ := Nat.exists_eq_add_of_le hn
  simp only [hashBytes2, List.length_ofFn]
  exact digestBytes_equidistributed order m ((seed (12 + m) pc).add pb .c)

/-- Of the keys of `n` bytes the same number have any given hash, any given pair of hashes, and
    any given bucket of a table of `hashsize(b)`. -/
theorem hashlittle_uniform (hn : 12 ≤ n)
    (hmem : ∀ i, n ≤ i → i < roundUp (pf.littlePad p) n → (mem (p + i)).isSome) :
    (∀ initval h, Nat.card {key : Fin n → UInt8 //
        hashlittle pf (place mem p (List.ofFn key)) p n initval = .ok h} * 2 ^ 32 = 2 ^ (8 * n)) ∧
    (∀ pc pb r, Nat.card {key : Fin n → UInt8 //
        hashlittle2 pf (place mem p (List.ofFn key)) p n pc pb = .ok r} * 2 ^ 64 = 2 ^ (8 * n)) ∧
    ∀ initval (b : UInt32), b < 32 → ∀ y < 2 ^ b.toNat, Nat.card {key : Fin n → UInt8 //
        ∃ h, hashlittle pf (place mem p (List.ofFn key)) p n initval = .ok h ∧
          (h &&& hashmask b).toNat = y} * 2 ^ b.toNat = 2 ^ (8 * n) := by
  have hspec : ∀ key : Fin n → UInt8,
      Holds (place mem p (List.ofFn key)) p (pf.littlePad p) (List.ofFn key) := by
    intro key
    apply holds_place
    rw [List.length_ofFn]
    exact hmem
  have hlittle : ∀ key : Fin n → UInt8, ∀ initval,
      hashlittle pf (place mem p (List.ofFn key)) p n initval =
        .ok (hashBytes .little (List.ofFn key) initval) := by
    intro key initval
    have h := (hashlittle_spec (hspec key)).1 initval
    rwa [List.length_ofFn] at h
  refine ⟨fun initval h => ?_, fun pc pb r => ?_, fun initval b hb y hy => ?_⟩
  · rw [← card_word]
    refine card_calls (y := h) (hashBytes_equidistributed .little hn initval) fun key => ?_
    rw [hlittle, Except.ok.injEq]
  · have hcard : 2 ^ 64 = Nat.card (UInt32 × UInt32) := by
      rw [Nat.card_prod, card_word, ← pow_add]
    rw [hcard]
    refine card_calls (y := r) (hashBytes2_equidistributed .little hn pc pb) fun key => ?_
    have h := (hashlittle_spec (hspec key)).2.1 pc pb
    rw [List.length_ofFn] at h
    rw [h, Except.ok.injEq]
  · have hcard : 2 ^ b.toNat = Nat.card (Fin (2 ^ b.toNat)) := by
      rw [Nat.card_eq_fintype_card, Fintype.card_fin]
    have hb' : b.toNat < 32 := UInt32.lt_iff_toNat_lt.mp hb
    have hbal := (bucket_equidistributed b.toNat (Nat.le_of_lt hb')).comp
      (hashBytes_equidistributed .little hn initval)
    rw [hcard]
    refine card_calls (y := ⟨y, hy⟩) hbal fun key => ?_
    rw [Function.comp_apply, Fin.mk.injEq, ← toNat_hashmask hb, hlittle]
    simp only [Except.ok.injEq, exists_eq_left']

theorem hashlittle_uniform_twelve : Nat.card {key : Fin 12 → UInt8 //
    hashlittle ⟨.little, true, true⟩ (place (fun _ => none) 64 (List.ofFn key)) 64 12 0 = .ok 5} *
      2 ^ 32 = 2 ^ (8 * 12) := by
  have hmem : ∀ i, 12 ≤ i → i < roundUp (Platform.littlePad ⟨.little, true, true⟩ 64) 12 →
      ((fun _ => none : Memory) (64 + i)).isSome := by
    intro i hi hlt
    exact absurd hlt (Nat.not_lt.mpr hi)
  exact (hashlittle_uniform (Nat.le_refl 12) hmem).1 0 5

end Functions

end DataMonkey.Lookup3
