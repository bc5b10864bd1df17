import DataMonkey.Lib.Blocked
import DataMonkey.Flex.Model

/- The layout that growth builds, and the counters that describe it.

   Block `x` of a flex has `Superblock.size x` cells, whatever mix of growing and shrinking
   led to it. `Holds st bs` says that the counters have their closed forms for the number of
   blocks, and that the slots of the index point to the blocks `bs`, which are distinct,
   allocated, and of these sizes.

     1. `locate_spec`, `lt_of_locate` — the address computation is the numbering of the cells,
        and where it is defined;
     2. `enterBlock_spec`, `leaveBlock_spec` — the superblock counters follow the blocks;
     3. `Holds` — the invariant, and `fresh_spec`, which starts it. -/
namespace DataMonkey.Flex

open Blocked Superblock

/-! ## The address of an index -/

theorem leadingBit_spec {r : Nat} (h0 : r ≠ 0) (hlt : r < 2 ^ 64) :
    leadingBit r = .ok r.log2 := by
  have hlog : r.log2 < 64 := (Nat.log2_lt h0).mpr hlt
  rw [leadingBit, if_neg h0, show 64 - (63 - r.log2) - 1 = r.log2 by omega]

theorem intShift_spec {n : Nat} (h : n < 31) : intShift n = .ok (2 ^ n) := by
  rw [intShift, if_pos h, Nat.one_shiftLeft]

theorem bitSubset_spec {r m n : Nat} (h : n - m < 31) :
    bitSubset r m n = .ok (r / 2 ^ m % 2 ^ (n - m)) := by
  rw [bitSubset, bitLast, intShift_spec h, Runs.ok_bind, Nat.and_two_pow_sub_one_eq_mod,
    Nat.shiftRight_eq_div_pow]

/-- Below 2^60 - 1 the computation is defined and finds the cell of the index. -/
theorem locate_spec {i : Nat} (hi : i < 2 ^ 60 - 1) :
    ∃ x e, locate i = .ok (x, e) ∧ e < size x ∧ start size x + e = i := by
  have hr : (i + 1) % 2 ^ 64 = i + 1 := Nat.mod_eq_of_lt (by omega)
  obtain ⟨k, hk⟩ : ∃ k, (i + 1).log2 = k := ⟨_, rfl⟩
  have h0 : i + 1 ≠ 0 := Nat.succ_ne_zero i
  obtain ⟨hlo, hhi⟩ := (Nat.log2_eq_iff h0).mp hk
  have hk60 : k < 60 := by
    rw [← hk]
    exact (Nat.log2_lt h0).mpr (by omega)
  obtain ⟨hb, he, hcell⟩ := cell_of_index hlo hhi
  refine ⟨firstBlock k + (i + 1) / dataSize k % superSize k, (i + 1) % dataSize k, ?_, he, hcell⟩
  -- the bits behind the leading one: first the block in the superblock, then the cell
  have hbits : bitSubset (i + 1) (k - k / 2) k = .ok ((i + 1) / dataSize k % superSize k) := by
    rw [bitSubset_spec (by omega), show k - (k - k / 2) = k / 2 by omega,
      show k - k / 2 = (k + 1) / 2 by omega]
    rfl
  have hcells : bitSubset (i + 1) 0 (ceiling k 2) = .ok ((i + 1) % dataSize k) := by
    have hceil : ceiling k 2 = (k + 1) / 2 := rfl
    rw [bitSubset_spec (by omega), hceil, Nat.pow_zero, Nat.div_one, Nat.sub_zero]
    rfl
  -- the blocks before the superblock, as `flex.c` counts them
  have hfirst : 2 ^ (k / 2 + 1) - 2 + (k &&& 1) * 2 ^ (k / 2) = firstBlock k := by
    have h₁ := firstBlock_eq k
    have h₂ : 2 ^ (k / 2 + 1) = 2 ^ (k / 2) * 2 := Nat.pow_succ 2 (k / 2)
    have h₃ := Nat.two_pow_pos (k / 2)
    rw [Nat.and_one_is_mod]
    omega
  simp only [locate, hr, leadingBit_spec h0 (show i + 1 < 2 ^ 64 by omega), hk, Runs.ok_bind,
    hbits, hcells, intShift_spec (show k / 2 + 1 < 31 by omega),
    intShift_spec (show k / 2 < 31 by omega), hfirst]

/-- The cell that it found. -/
theorem locate_cell {i x e : Nat} (hi : i < 2 ^ 60 - 1) (hloc : locate i = .ok (x, e)) :
    e < size x ∧ start size x + e = i := by
  obtain ⟨y, f, hloc', hf, hcell⟩ := locate_spec hi
  obtain ⟨rfl, rfl⟩ := Runs.ok_pair_inj (hloc.symm.trans hloc')
  exact ⟨hf, hcell⟩

/-- On the index type it is defined nowhere else: the successor of the index wraps to 0, or
    its leading bit asks for a shift by 31. -/
theorem lt_of_locate {i : Nat} {p : Nat × Nat} (hi : i < 2 ^ 64) (h : locate i = .ok p) :
    i < 2 ^ 60 - 1 := by
  unfold locate at h
  obtain ⟨k, hk, h⟩ := Runs.bind_eq_ok.mp h
  obtain ⟨b, -, h⟩ := Runs.bind_eq_ok.mp h
  obtain ⟨e, -, h⟩ := Runs.bind_eq_ok.mp h
  obtain ⟨s, hs, -⟩ := Runs.bind_eq_ok.mp h
  have h0 : (i + 1) % 2 ^ 64 ≠ 0 := by
    intro h0
    rw [h0] at hk
    cases hk
  have hr : (i + 1) % 2 ^ 64 = i + 1 := by
    by_cases hmax : i + 1 = 2 ^ 64
    · rw [hmax, Nat.mod_self] at h0
      exact absurd rfl h0
    · exact Nat.mod_eq_of_lt (by omega)
  rw [hr, leadingBit_spec (Nat.succ_ne_zero i) (by omega)] at hk
  have hshift : k / 2 + 1 < 31 := by
    apply Classical.byContradiction
    intro hge
    rw [intShift, if_neg hge] at hs
    cases hs
  have hlog : (i + 1).log2 < 60 := by
    rw [Except.ok.inj hk]
    omega
  have hlt := (Nat.log2_lt (Nat.succ_ne_zero i)).mp hlog
  omega

/-! ## The superblock counters -/

/-- The superblock counters when block `x` is the last one. -/
structure SuperAt (f : FlexArray) (x : Nat) : Prop where
  last : f.lastIndexOccup = x
  superBlocks : f.numSuperBlocks = (pos x).1 + 1
  superOccup : f.lastSuperOccup = (pos x).2
  superSize : f.lastSuperSize = superSize (pos x).1
  dataSize : f.lastDataSize = dataSize (pos x).1

/-- What entering and leaving a block do not touch. -/
structure Frame (f g : FlexArray) : Prop where
  usable : g.usableDataBlocks = f.usableDataBlocks
  indexLength : g.indexLength = f.indexLength
  indexBlock : g.indexBlock = f.indexBlock
  cmpFunc : g.cmpFunc = f.cmpFunc
  freeFunc : g.freeFunc = f.freeFunc

theorem dataSize_even {s : Nat} (h : s % 2 = 0) : dataSize (s + 1) = dataSize s * 2 := by
  unfold dataSize
  rw [← Nat.pow_succ]
  congr 1
  omega

theorem dataSize_odd {s : Nat} (h : s % 2 = 1) : dataSize (s + 1) = dataSize s := by
  unfold dataSize
  congr 1
  omega

theorem superSize_even {s : Nat} (h : s % 2 = 0) : superSize (s + 1) = superSize s := by
  unfold superSize
  congr 1
  omega

theorem superSize_odd {s : Nat} (h : s % 2 = 1) : superSize (s + 1) = superSize s * 2 := by
  unfold superSize
  rw [← Nat.pow_succ]
  congr 1
  omega

/-- Entering the next block moves the superblock counters as `pos` moves. -/
theorem enterBlock_spec {f : FlexArray} {x : Nat} (h : SuperAt f x) :
    SuperAt (enterBlock f) (x + 1) ∧ Frame f (enterBlock f) ∧
      (enterBlock f).numUserElementsInserted = f.numUserElementsInserted := by
  obtain ⟨hl, hsb, hso, hss, hds⟩ := h
  obtain ⟨s, o, hp⟩ : ∃ s o, pos x = (s, o) := ⟨_, _, rfl⟩
  have hnext := pos_succ x
  rw [hp] at hsb hso hss hds hnext
  unfold enterBlock
  by_cases hfull : o + 1 = superSize s
  · have htest : f.lastSuperOccup + 1 = f.lastSuperSize := by rw [hso, hss, hfull]
    rw [if_pos hfull] at hnext
    simp only [if_pos htest]
    -- the parity tested is that of the new number of superblocks
    rcases Nat.mod_two_eq_zero_or_one s with h | h
    · have hodd : ¬ (f.numSuperBlocks + 1) % 2 = 1 := by rw [hsb]; omega
      simp only [if_neg hodd]
      refine ⟨⟨?_, ?_, ?_, ?_, ?_⟩, ⟨rfl, rfl, rfl, rfl, rfl⟩, trivial⟩
      · rw [hl]
      · rw [hsb, hnext]
      · rw [hnext]
      · rw [hss, hnext, superSize_even h]
      · rw [hds, hnext, dataSize_even h]
    · have hodd : (f.numSuperBlocks + 1) % 2 = 1 := by rw [hsb]; omega
      simp only [if_pos hodd]
      refine ⟨⟨?_, ?_, ?_, ?_, ?_⟩, ⟨rfl, rfl, rfl, rfl, rfl⟩, trivial⟩
      · rw [hl]
      · rw [hsb, hnext]
      · rw [hnext]
      · rw [hss, hnext, superSize_odd h]
      · rw [hds, hnext, dataSize_odd h]
  · have htest : ¬ f.lastSuperOccup + 1 = f.lastSuperSize := by rw [hso, hss]; exact hfull
    rw [if_neg hfull] at hnext
    simp only [if_neg htest]
    refine ⟨⟨?_, ?_, ?_, ?_, ?_⟩, ⟨rfl, rfl, rfl, rfl, rfl⟩, trivial⟩
    · rw [hl]
    · rw [hsb, hnext]
    · rw [hso, hnext]
    · rw [hss, hnext]
    · rw [hds, hnext]

theorem sub64_eq {a b : Nat} (h : b ≤ a) : sub64 a b = a - b := if_pos h

/-- Leaving a block undoes entering it. -/
theorem leaveBlock_spec {f : FlexArray} {x : Nat} (h : SuperAt f (x + 1)) :
    SuperAt (leaveBlock f) x ∧ Frame f (leaveBlock f) ∧
      (leaveBlock f).numUserElementsInserted = sub64 f.numUserElementsInserted 1 := by
  obtain ⟨hl, hsb, hso, hss, hds⟩ := h
  obtain ⟨s, o, hp⟩ : ∃ s o, pos x = (s, o) := ⟨_, _, rfl⟩
  obtain ⟨ho, -⟩ := pos_spec x
  have hnext := pos_succ x
  rw [hp] at ho hnext
  have hlast : sub64 f.lastIndexOccup 1 = x := by rw [hl, sub64_eq (by omega)]; rfl
  unfold leaveBlock
  by_cases hfull : o + 1 = superSize s
  · -- the block left was the first of its superblock
    rw [if_pos hfull] at hnext
    rw [hnext] at hsb hso hss hds
    have htest : 0 = f.lastSuperOccup := hso.symm
    have hnum : sub64 f.numSuperBlocks 1 = s + 1 := by
      rw [hsb, sub64_eq (Nat.le_add_left 1 _)]
      rfl
    simp only [if_pos htest, hnum]
    have hsz : sub64 (superSize s) 1 = o := by
      rw [sub64_eq (superSize_pos s), ← hfull]
      rfl
    rcases Nat.mod_two_eq_zero_or_one s with h | h
    · have hodd : (s + 1) % 2 = 1 := by omega
      have hss' : f.lastSuperSize = superSize s := by rw [hss, superSize_even h]
      simp only [if_pos hodd]
      refine ⟨⟨hlast, ?_, ?_, ?_, ?_⟩, ⟨rfl, rfl, rfl, rfl, rfl⟩, trivial⟩
      · rw [hp]
      · rw [hss', hsz, hp]
      · rw [hss', hp]
      · rw [hds, dataSize_even h, Nat.mul_div_cancel _ Nat.two_pos, hp]
    · have hodd : ¬ (s + 1) % 2 = 1 := by omega
      have hss' : f.lastSuperSize / 2 = superSize s := by
        rw [hss, superSize_odd h, Nat.mul_div_cancel _ Nat.two_pos]
      simp only [if_neg hodd]
      refine ⟨⟨hlast, ?_, ?_, ?_, ?_⟩, ⟨rfl, rfl, rfl, rfl, rfl⟩, trivial⟩
      · rw [hp]
      · rw [hss', hsz, hp]
      · rw [hss', hp]
      · rw [hds, dataSize_odd h, hp]
  · rw [if_neg hfull] at hnext
    rw [hnext] at hsb hso hss hds
    have htest : ¬ 0 = f.lastSuperOccup := by rw [hso]; exact Nat.succ_ne_zero o |>.symm
    have hocc : sub64 f.lastSuperOccup 1 = o := by
      rw [hso, sub64_eq (Nat.le_add_left 1 o)]
      rfl
    simp only [if_neg htest]
    refine ⟨⟨hlast, ?_, ?_, ?_, ?_⟩, ⟨rfl, rfl, rfl, rfl, rfl⟩, trivial⟩
    · rw [hsb, hp]
    · rw [hocc, hp]
    · rw [hss, hp]
    · rw [hds, hp]

/-! ## All counters -/

/-- The closed forms of the counters, by the number of the last block. -/
structure Counters (f : FlexArray) : Prop where
  super : SuperAt f f.lastIndexOccup
  usable : f.usableDataBlocks = start size (f.lastIndexOccup + 1)
  power : ∃ j, f.indexLength = 2 ^ j
  room : f.lastIndexOccup < f.indexLength
  least : f.indexLength = 1 ∨ f.indexLength ≤ 2 * f.lastIndexOccup
  count : (f.numUserElementsInserted = 0 ∧ f.lastIndexOccup = 0) ∨
    (start size f.lastIndexOccup < f.numUserElementsInserted ∧
      f.numUserElementsInserted ≤ f.usableDataBlocks)

namespace Counters

variable {f : FlexArray}

theorem lastDataSize (C : Counters f) : f.lastDataSize = size f.lastIndexOccup := C.super.dataSize

theorem usable_eq (C : Counters f) :
    f.usableDataBlocks = start size f.lastIndexOccup + f.lastDataSize := by
  rw [C.usable, C.lastDataSize]
  rfl

theorem num_le (C : Counters f) : f.numUserElementsInserted ≤ f.usableDataBlocks := by
  rcases C.count with ⟨h, -⟩ | ⟨-, h⟩
  · omega
  · exact h

theorem usable_sub (C : Counters f) :
    sub64 f.usableDataBlocks f.lastDataSize = start size f.lastIndexOccup := by
  rw [sub64_eq (by rw [C.usable_eq]; omega), C.usable_eq, Nat.add_sub_cancel]

/-- Only the first block starts at index 0. -/
theorem start_pos {x : Nat} (hx : 1 ≤ x) : 1 ≤ start size x := by
  have h₁ : start size 1 ≤ start size x := start_le_start hx
  exact h₁

/-- A flex that gives up its last block has one to fall back on. -/
theorem one_le_last (C : Counters f) (h0 : f.numUserElementsInserted ≠ 0) (hf : frees f) :
    1 ≤ f.lastIndexOccup ∧ f.numUserElementsInserted = start size f.lastIndexOccup + 1 := by
  obtain ⟨h1, heq⟩ := hf
  rw [C.usable_sub, sub64_eq (by omega)] at heq
  refine ⟨?_, by omega⟩
  apply Nat.one_le_iff_ne_zero.mpr
  intro hx
  rw [hx] at heq
  have hzero : start size 0 = 0 := rfl
  omega

end Counters

/-! ## Slots and blocks -/

theorem slot_eq_ok {f : FlexArray} {x : Nat} {a : Addr} :
    slot f x = .ok a ↔ f.indexBlock[x]? = some (some a) := by
  unfold slot
  cases f.indexBlock[x]? with
  | none => simp
  | some o =>
    cases o with
    | none => simp
    | some b => simp

theorem load_eq_ok {heap : Store (List Int32)} {a : Addr} {vs : List Int32} :
    load heap a = .ok vs ↔ heap.cell a = some vs := by
  unfold load
  cases heap.cell a with
  | none => simp
  | some us => simp

/-! ## The invariant -/

/-- The flex holds the blocks `bs`, each with its address and its cells. -/
structure Holds (st : State) (bs : List (Addr × List Int32)) : Prop where
  counters : Counters st.flex
  length : bs.length = st.flex.lastIndexOccup + 1
  sized : Sized size (bs.map Prod.snd)
  nodup : (bs.map Prod.fst).Nodup
  block : ∀ (x : Nat) (a : Addr) (c : List Int32), bs[x]? = some (a, c) →
    st.flex.indexBlock[x]? = some (some a) ∧ st.heap.cell a = some c
  slots : st.flex.indexBlock.length = st.flex.indexLength

/-- The cells of the array, block after block. -/
def cells (bs : List (Addr × List Int32)) : List Int32 := (bs.map Prod.snd).flatten

theorem cells_append (A B : List (Addr × List Int32)) : cells (A ++ B) = cells A ++ cells B := by
  simp only [cells, List.map_append, List.flatten_append]

theorem cells_concat (bs : List (Addr × List Int32)) (a : Addr) (c : List Int32) :
    cells (bs ++ [(a, c)]) = cells bs ++ c := by
  simp only [cells, List.map_append, List.map_cons, List.map_nil, List.flatten_concat]

/-- Blocks of zeros are an array of zeros. -/
theorem cells_zero {bs : List (Addr × List Int32)} (h : ∀ p ∈ bs, ∀ v ∈ p.2, v = 0) :
    ∀ z ∈ cells bs, z = 0 := by
  intro z hz
  obtain ⟨c, hc, hz⟩ := List.mem_flatten.mp hz
  obtain ⟨p, hp, rfl⟩ := List.mem_map.mp hc
  exact h p hp z hz

theorem fresh_spec (junk : Int32) : Holds (fresh junk) [(0, [junk])] := by
  have husable : (fresh junk).flex.usableDataBlocks = start size 1 := by
    show 1 = 0 + dataSize (pos 0).1
    rfl
  have hsuper : SuperAt (fresh junk).flex 0 := by
    refine ⟨rfl, rfl, rfl, rfl, ?_⟩
    show 1 = dataSize 0
    rfl
  refine ⟨⟨hsuper, husable, ⟨0, rfl⟩, Nat.one_pos, Or.inl rfl, Or.inl ⟨rfl, rfl⟩⟩, rfl, ?_,
    by simp, ?_, rfl⟩
  · intro x b hb
    cases x with
    | zero =>
      cases hb
      rfl
    | succ x => simp at hb
  · intro x a c hc
    cases x with
    | zero =>
      cases hc
      exact ⟨rfl, Store.cell_alloc_self _ _⟩
    | succ x => simp at hc

namespace Holds

variable {st : State} {bs : List (Addr × List Int32)}

theorem length_cells (H : Holds st bs) : (cells bs).length = st.flex.usableDataBlocks := by
  rw [cells, H.sized.length_flatten, List.length_map, H.length, H.counters.usable]

/-- Nothing in the flex lives at the next address. -/
theorem ne_next (H : Holds st bs) {p : Addr × List Int32} (hp : p ∈ bs) : p.1 ≠ st.heap.next := by
  obtain ⟨x, hx⟩ := List.mem_iff_getElem?.mp hp
  exact Nat.ne_of_lt (Store.lt_next (H.block x p.1 p.2 hx).2)

/-- Two blocks do not share an address. -/
theorem addr_inj (H : Holds st bs) {x y : Nat} {a : Addr} {c d : List Int32}
    (hx : bs[x]? = some (a, c)) (hy : bs[y]? = some (a, d)) : x = y := by
  have hlt := (List.getElem?_eq_some_iff.mp hx).1
  have h₁ : (bs.map Prod.fst)[x]? = some a := by
    rw [List.getElem?_map, hx]
    rfl
  have h₂ : (bs.map Prod.fst)[y]? = some a := by
    rw [List.getElem?_map, hy]
    rfl
  exact (List.getElem?_inj (by rw [List.length_map]; exact hlt) H.nodup).mp (h₁.trans h₂.symm)

theorem slot_eq (H : Holds st bs) {x : Nat} {a : Addr} {c : List Int32}
    (hx : bs[x]? = some (a, c)) : slot st.flex x = .ok a ∧ load st.heap a = .ok c := by
  obtain ⟨hs, hc⟩ := H.block x a c hx
  exact ⟨slot_eq_ok.mpr hs, load_eq_ok.mpr hc⟩

/-- The blocks in front of the last one. -/
theorem split_last (H : Holds st bs) : ∃ init a c, bs = init ++ [(a, c)] ∧
    init.length = st.flex.lastIndexOccup := by
  have hne : bs ≠ [] := fun e => by
    have hl := H.length
    rw [e] at hl
    simp at hl
  refine ⟨bs.dropLast, (bs.getLast hne).1, (bs.getLast hne).2,
    (List.dropLast_append_getLast hne).symm, ?_⟩
  rw [List.length_dropLast, H.length]
  rfl

end Holds

end DataMonkey.Flex
