import Mathlib.Algebra.Order.Ring.Basic
import Mathlib.Algebra.Order.Ring.Nat
import DataMonkey.Flex.Count
import DataMonkey.Flex.Pointers

/- What resizing a flex costs.

   Counted are the slots of the index that a `realloc` copies and the cells that `flex_grow`
   clears; everything else that a call does is a constant number of steps a round. Without a
   shrink the capacity and the index pay for all of it. `flex_shrink` gives up a block as soon
   as it is empty, so at the border of a block growing and shrinking in turn clears a block
   every time.

     1. `resizeIndex_moved`, `growWork_full`, `shrinkWork_slots` — what is counted is the slots
        that the new index has from the old one and the cells of the new block;
     2. `growWork_pays` — a growth costs what it adds;
     3. `flex_work` — the work of every run without a shrink, exactly;
     4. `flex_work_call` — the work of one call after any run;
     5. `flex_border` — growing and shrinking in turn. -/
namespace DataMonkey.Flex

open Blocked Superblock

/-! ## The work of a call -/

/-- The slots that `realloc` copies to an index of `n`. -/
def movedSlots (f : FlexArray) (n : Nat) : Nat := min f.indexBlock.length n

def growWork (st : State) : Nat :=
  if st.flex.numUserElementsInserted = st.flex.usableDataBlocks then
    let f := enterBlock st.flex
    (if f.indexLength = f.lastIndexOccup then movedSlots f (f.indexLength * 2) else 0) +
      f.lastDataSize
  else 0

def shrinkWork (st : State) : Nat :=
  let f := st.flex
  if f.numUserElementsInserted ≠ 0 ∧ frees f ∧ f.lastIndexOccup * 2 = f.indexLength then
    movedSlots f (ceiling f.indexLength 2)
  else 0

/-- The rounds of the growth loop. -/
def growToWork (x : Nat) : Nat → State → Nat
  | 0, _ => 0
  | rounds + 1, st =>
    if st.flex.lastIndexOccup < x then
      growWork st +
        match flexGrow granted st with
        | .ok (_, st') => growToWork x rounds st'
        | .error _ => 0
    else 0

def callWork (st : State) : Call → Nat
  | .insert i _ =>
    match locate i.val with
    | .ok (x, _) => growToWork x (i.val + 2) st
    | .error _ => 0
  | .grow => growWork st
  | .shrink => shrinkWork st
  | _ => 0

/-- The slots and the cells that there are. -/
def footprint (st : State) : Nat := st.flex.usableDataBlocks + st.flex.indexLength

/-! ## What is counted -/

section Counted

variable {st st' : State} {bs : List (Addr × List Int32)} {s : Dstatus}

/-- The slots counted are those that `realloc` keeps; the others are not written. -/
theorem resizeIndex_moved (st : State) :
    ∃ kept, kept.length = movedSlots st.flex st.flex.indexLength ∧
      kept <+: st.flex.indexBlock ∧
      (resizeIndex granted st).2.flex.indexBlock =
        kept ++ List.replicate (st.flex.indexLength - kept.length) none := by
  refine ⟨st.flex.indexBlock.take st.flex.indexLength, ?_, List.take_prefix _ _, ?_⟩
  · rw [List.length_take, movedSlots, Nat.min_comm]
  · have hrest : st.flex.indexLength - (st.flex.indexBlock.take st.flex.indexLength).length =
        st.flex.indexLength - st.flex.indexBlock.length := by
      rw [List.length_take]
      omega
    rw [hrest]
    simp only [resizeIndex, granted, if_true]

/-- On a full flex the cells counted are the zeros of the block that is added, and the slots
    are all slots of the index if it is doubled. -/
theorem growWork_full (H : Holds st bs)
    (hfull : st.flex.numUserElementsInserted = st.flex.usableDataBlocks)
    (h : flexGrow granted st = .ok (s, st')) :
    ∃ a zeros, Holds st' (bs ++ [(a, zeros)]) ∧ (∀ v ∈ zeros, v = 0) ∧
      ((st'.flex.indexLength = st.flex.indexLength ∧ growWork st = zeros.length) ∨
        (st'.flex.indexLength = st.flex.indexLength + st.flex.indexBlock.length ∧
          growWork st = st.flex.indexBlock.length + zeros.length)) := by
  obtain ⟨t, bs', hrun, H', -, -, hbs⟩ := flexGrow_spec H
  obtain ⟨-, rfl⟩ := Runs.ok_pair_inj (hrun.symm.trans h)
  rcases hbs with ⟨hlt, -⟩ | ⟨-, a, rfl⟩
  · omega
  obtain ⟨hS, hF, -⟩ := enterBlock_spec H.counters.super
  have hcells : (enterBlock st.flex).lastDataSize =
      (List.replicate (size bs.length) (0 : Int32)).length := by
    rw [List.length_replicate, H.length]
    exact hS.dataSize
  refine ⟨a, _, H', fun v hv => List.eq_of_mem_replicate hv, ?_⟩
  rw [growWork, if_pos hfull]
  dsimp only
  rw [hcells]
  simp only [flexGrow, if_pos hfull, growIndex] at h
  split at h
  · -- the index is full too
    next hindex =>
    refine Or.inr ⟨?_, ?_⟩
    · simp only [resizeIndex, granted, if_true, addBlock] at h
      split at h
      · obtain ⟨-, rfl⟩ := Runs.ok_pair_inj h
        dsimp only
        rw [hF.indexLength, H.slots]
        omega
      · cases h
    · rw [if_pos hindex, movedSlots, hF.indexBlock, hF.indexLength, H.slots,
        Nat.min_eq_left (by omega)]
  · next hindex =>
    refine Or.inl ⟨?_, ?_⟩
    · simp only [if_true, addBlock, granted] at h
      split at h
      · obtain ⟨-, rfl⟩ := Runs.ok_pair_inj h
        exact hF.indexLength
      · cases h
    · rw [if_neg hindex, Nat.zero_add]

theorem shrinkIndex_slots (hslots : st.flex.indexBlock.length = st.flex.indexLength) :
    (shrinkIndex granted st).2.flex.indexLength =
        (if st.flex.lastIndexOccup * 2 = st.flex.indexLength then ceiling st.flex.indexLength 2
         else st.flex.indexLength) ∧
      (shrinkIndex granted st).2.flex.indexBlock =
        st.flex.indexBlock.take (shrinkIndex granted st).2.flex.indexLength := by
  unfold shrinkIndex
  by_cases hhalf : st.flex.lastIndexOccup * 2 = st.flex.indexLength
  · have hless : ceiling st.flex.indexLength 2 - st.flex.indexBlock.length = 0 := by
      rw [hslots, ceiling]
      omega
    simp only [if_pos hhalf, resizeIndex, granted, if_true, hless, List.replicate_zero,
      List.append_nil, and_self]
  · simp only [if_neg hhalf, true_and]
    rw [← hslots, List.take_length]

/-- A shrink leaves the first slots of the index, and where it halves the index these are the
    slots counted. -/
theorem shrinkWork_slots (H : Holds st bs) (h : flexShrink granted st = .ok (s, st')) :
    st'.flex.indexBlock = st.flex.indexBlock.take st'.flex.indexLength ∧
      shrinkWork st =
        if st'.flex.indexLength = st.flex.indexLength then 0 else st'.flex.indexBlock.length := by
  have hwhole : st.flex.indexBlock = st.flex.indexBlock.take st.flex.indexLength := by
    rw [← H.slots, List.take_length]
  unfold shrinkWork
  dsimp only
  by_cases h0 : st.flex.numUserElementsInserted = 0
  · simp only [flexShrink, if_pos h0] at h
    obtain ⟨-, rfl⟩ := Runs.ok_pair_inj h
    rw [if_neg fun hc => hc.1 h0, if_pos rfl]
    exact ⟨hwhole, rfl⟩
  by_cases hf : frees st.flex
  · obtain ⟨a, vs, t, -, -, rfl, hst'⟩ := flexShrink_giveUp h0 hf h
    -- neither the counters after it nor the status touch the index
    have hindex : st'.flex.indexBlock = (shrinkIndex granted (st.giveUp a)).2.flex.indexBlock ∧
        st'.flex.indexLength = (shrinkIndex granted (st.giveUp a)).2.flex.indexLength := by
      rcases hst' with rfl | rfl
      · obtain ⟨hF, -⟩ := leaveBlock_frame (shrinkIndex granted (st.giveUp a)).2.flex
        exact ⟨hF.indexBlock, hF.indexLength⟩
      · exact ⟨rfl, rfl⟩
    have hslots : (st.giveUp a).flex.indexBlock.length = (st.giveUp a).flex.indexLength := H.slots
    have hlen : (shrinkIndex granted (st.giveUp a)).2.flex.indexLength =
        if st.flex.lastIndexOccup * 2 = st.flex.indexLength then ceiling st.flex.indexLength 2
        else st.flex.indexLength := (shrinkIndex_slots hslots).1
    have hkept : (shrinkIndex granted (st.giveUp a)).2.flex.indexBlock =
        st.flex.indexBlock.take (shrinkIndex granted (st.giveUp a)).2.flex.indexLength :=
      (shrinkIndex_slots hslots).2
    rw [hindex.1, hindex.2]
    refine ⟨hkept, ?_⟩
    rw [hkept, hlen]
    by_cases hhalf : st.flex.lastIndexOccup * 2 = st.flex.indexLength
    · have hroom := H.counters.room
      have hless : ceiling st.flex.indexLength 2 ≠ st.flex.indexLength := by
        rw [ceiling]
        omega
      rw [if_pos ⟨h0, hf, hhalf⟩, if_pos hhalf, if_neg hless, List.length_take, Nat.min_comm]
      rfl
    · rw [if_neg fun hc => hhalf hc.2.2, if_neg hhalf, if_pos rfl]
  · simp only [flexShrink, if_neg h0, if_neg hf] at h
    obtain ⟨-, rfl⟩ := Runs.ok_pair_inj h
    rw [if_neg fun hc => hf hc.2.1, if_pos rfl]
    exact ⟨hwhole, rfl⟩

end Counted

/-! ## Growing -/

section Growing

variable {st st' : State} {bs : List (Addr × List Int32)} {s : Dstatus}

theorem growWork_pays (H : Holds st bs) (h : flexGrow granted st = .ok (s, st')) :
    growWork st + footprint st = footprint st' := by
  by_cases hfull : st.flex.numUserElementsInserted = st.flex.usableDataBlocks
  · obtain ⟨a, zeros, H', -, hwork⟩ := growWork_full H hfull h
    -- the new block is the capacity that is added
    have hcap : st'.flex.usableDataBlocks = st.flex.usableDataBlocks + zeros.length := by
      rw [← H'.length_cells, ← H.length_cells, cells_concat, List.length_append]
    unfold footprint
    rcases hwork with ⟨hindex, hwork⟩ | ⟨hindex, hwork⟩
    · omega
    · omega
  · simp only [flexGrow, if_neg hfull] at h
    obtain ⟨-, rfl⟩ := Runs.ok_pair_inj h
    simp [growWork, if_neg hfull, footprint]

theorem growToWork_pays (x : Nat) : ∀ (rounds : Nat) {st : State} {bs : List (Addr × List Int32)},
    Holds st bs → growTo granted x rounds st = .ok (s, st') →
      growToWork x rounds st + footprint st = footprint st'
  | 0, _, _, _, h => nomatch h
  | rounds + 1, st, bs, H, h => by
    by_cases hlt : st.flex.lastIndexOccup < x
    · obtain ⟨t, added, hgrow, H', -⟩ := flexGrow_appends H
      simp only [growTo, if_pos hlt, hgrow, Runs.ok_bind, if_true] at h
      have hone := growWork_pays H hgrow
      have hrest := growToWork_pays x rounds H' h
      simp only [growToWork, if_pos hlt, hgrow]
      omega
    · simp only [growTo, if_neg hlt] at h
      obtain ⟨-, rfl⟩ := Runs.ok_pair_inj h
      simp only [growToWork, if_neg hlt]
      omega

theorem callWork_pays (H : Holds st bs) {c : Call} (hc : c ≠ .shrink) {o : Reply}
    (h : flexStep granted st c = .ok (o, st')) : callWork st c + footprint st = footprint st' := by
  cases c with
  | insert i v =>
    obtain ⟨⟨s, t⟩, hrun, h⟩ := Runs.bind_eq_ok.mp h
    obtain ⟨-, rfl⟩ := Runs.ok_pair_inj h
    obtain ⟨⟨x, e⟩, hloc, hrun⟩ := Runs.bind_eq_ok.mp hrun
    obtain ⟨⟨r, st₁⟩, hloop, hrun⟩ := Runs.bind_eq_ok.mp hrun
    have hpay := growToWork_pays x _ H hloop
    simp only [callWork, hloc]
    dsimp only at hrun
    split at hrun
    · -- writing the cell moves nothing
      obtain ⟨st₂, hwrite, hrun⟩ := Runs.bind_eq_ok.mp hrun
      obtain ⟨-, rfl⟩ := Runs.ok_pair_inj hrun
      rw [hpay, footprint, footprint, (writeCell_shape hwrite).flex]
    · obtain ⟨-, rfl⟩ := Runs.ok_pair_inj hrun
      exact hpay
  | delete i =>
    obtain ⟨⟨s, t⟩, hrun, h⟩ := Runs.bind_eq_ok.mp h
    obtain ⟨-, rfl⟩ := Runs.ok_pair_inj h
    obtain ⟨⟨x, e⟩, -, hrun⟩ := Runs.bind_eq_ok.mp hrun
    simp only [callWork, Nat.zero_add]
    dsimp only at hrun
    split at hrun
    · obtain ⟨-, rfl⟩ := Runs.ok_pair_inj hrun
      rfl
    · obtain ⟨st₁, hwrite, hrun⟩ := Runs.bind_eq_ok.mp hrun
      obtain ⟨-, rfl⟩ := Runs.ok_pair_inj hrun
      rw [footprint, footprint, (writeCell_shape hwrite).flex]
  | get i =>
    obtain ⟨v, -, h⟩ := Runs.bind_eq_ok.mp h
    obtain ⟨-, rfl⟩ := Runs.ok_pair_inj h
    exact Nat.zero_add _
  | compare i v =>
    obtain ⟨v, -, h⟩ := Runs.bind_eq_ok.mp h
    obtain ⟨-, rfl⟩ := Runs.ok_pair_inj h
    exact Nat.zero_add _
  | grow =>
    obtain ⟨⟨s, t⟩, hrun, h⟩ := Runs.bind_eq_ok.mp h
    obtain ⟨-, rfl⟩ := Runs.ok_pair_inj h
    exact growWork_pays H hrun
  | shrink => exact absurd rfl hc

end Growing

/-- The footprint of `n` elements. -/
theorem Counters.footprint_le {st : State} (C : Counters st.flex) :
    footprint st ≤ 4 * st.flex.numUserElementsInserted + 2 := by
  have husable := C.usable_eq
  have hsize := C.lastDataSize
  have hsq := size_sq_le st.flex.lastIndexOccup
  have hblocks : ∀ x, x ≤ start size x := by
    intro x
    induction x with
    | zero => exact Nat.le_refl _
    | succ x ih =>
      have hpos := size_pos x
      show x + 1 ≤ start size x + size x
      omega
  have hx := hblocks st.flex.lastIndexOccup
  -- a block is at most as large as all before it, and one more
  have hhalf : size st.flex.lastIndexOccup ≤ start size st.flex.lastIndexOccup + 1 := by
    rw [Nat.pow_two] at hsq
    rcases Nat.lt_or_ge (size st.flex.lastIndexOccup) 2 with h | h
    · omega
    · have := Nat.mul_le_mul_right (size st.flex.lastIndexOccup) h
      omega
  unfold footprint
  rcases C.count with ⟨h₁, h₂⟩ | ⟨h₁, -⟩
  · have hone : start size st.flex.lastIndexOccup = 0 := by
      rw [h₂]
      rfl
    rcases C.least with h | h
    · omega
    · have hroom := C.room
      omega
  · rcases C.least with h | h
    · omega
    · omega

/-- Every run without a shrink: its calls have cleared a cell for each cell of the capacity and
    moved a slot for each slot of the index, but for the first ones, and this is at most four for
    each element counted. -/
theorem flex_work (junk : Int32) (calls : List Call) (hc : ∀ c ∈ calls, c ≠ .shrink) :
    ∃ os st, session junk calls = .ok (os, st) ∧
      Runs.cost (flexStep granted) callWork (fresh junk) calls + 2 =
        st.flex.usableDataBlocks + st.flex.indexLength ∧
      Runs.cost (flexStep granted) callWork (fresh junk) calls ≤
        4 * st.flex.numUserElementsInserted := by
  obtain ⟨os, st, bs, hrun, H, -⟩ := session_spec junk calls
  have hpay := Runs.cost_potential callWork footprint (Q := fun c => c ≠ .shrink)
    (P := fun st => ∃ bs, Holds st bs ∧ st.flex.cmpFunc = defaultCmp)
    (fun s c o s' ⟨bs, H, hcmp⟩ hc hstep => by
      obtain ⟨o', t, bs', hrun, H', hcmp', -⟩ := flexStep_spec H hcmp c
      obtain ⟨-, rfl⟩ := Runs.ok_pair_inj (hrun.symm.trans hstep)
      exact ⟨callWork_pays H hc hstep, bs', H', hcmp'⟩)
    ⟨_, fresh_spec junk, rfl⟩ hc hrun
  have hstart : footprint (fresh junk) = 2 := rfl
  have hle := H.counters.footprint_le
  rw [hstart] at hpay
  exact ⟨os, st, hrun, hpay, by omega⟩

theorem flex_work_three :
    ∃ os st, session 7 [.grow, .grow, .grow] = .ok (os, st) ∧
      Runs.cost (flexStep granted) callWork (fresh 7) [.grow, .grow, .grow] + 2 =
        st.flex.usableDataBlocks + st.flex.indexLength ∧
      Runs.cost (flexStep granted) callWork (fresh 7) [.grow, .grow, .grow] ≤
        4 * st.flex.numUserElementsInserted :=
  flex_work 7 [.grow, .grow, .grow] (by decide)

/-! ## One call -/

theorem sq_add_le {a b n : Nat} (ha : a ^ 2 ≤ 2 * n) (hb : 2 * b ^ 2 ≤ 9 * n) :
    (a + b) ^ 2 ≤ 13 * n := by
  have hmix : (a + b) ^ 2 ≤ 2 * (a ^ 2 + b ^ 2) := add_sq_le
  omega

/-- After every run, the next growth and the next shrink work for the square root of the number
    of elements at most, within a constant factor. -/
theorem flex_work_call (junk : Int32) (calls : List Call) :
    ∃ os st, session junk calls = .ok (os, st) ∧
      growWork st ^ 2 ≤ 13 * (st.flex.numUserElementsInserted + 1) ∧
      2 * shrinkWork st ^ 2 ≤ 9 * st.flex.numUserElementsInserted := by
  obtain ⟨os, st, bs, hrun, H, -⟩ := session_spec junk calls
  have C := H.counters
  refine ⟨os, st, hrun, ?_, ?_⟩
  · by_cases hfull : st.flex.numUserElementsInserted = st.flex.usableDataBlocks
    · obtain ⟨hS, hF, -⟩ := enterBlock_spec C.super
      obtain ⟨t, bs', -, H', -, hnum, -⟩ := flexGrow_spec H
      have hpos : st.flex.numUserElementsInserted ≠ 0 := by
        rw [hfull, C.usable]
        exact Nat.ne_of_gt (Nat.lt_of_lt_of_le Nat.one_pos (Counters.start_pos (by omega)))
      have L := C.spaceLaw (Nat.one_le_iff_ne_zero.mpr hpos)
      -- the block that is entered is the last one of the flex that it leads to
      have hsq := size_sq_le (st.flex.lastIndexOccup + 1)
      rw [← C.usable, ← hfull] at hsq
      have hslots : (if (enterBlock st.flex).indexLength = (enterBlock st.flex).lastIndexOccup then
          movedSlots (enterBlock st.flex) ((enterBlock st.flex).indexLength * 2) else 0) ≤
          st.flex.lastIndexOccup + 1 := by
        split
        · next h =>
          rw [movedSlots, hF.indexBlock, H.slots, ← hF.indexLength, h, hS.last]
          exact Nat.min_le_left _ _
        · exact Nat.zero_le _
      rw [growWork, if_pos hfull]
      dsimp only
      rw [hS.dataSize, Nat.add_comm]
      have hblocks := L.blocks
      exact (Nat.pow_le_pow_left (Nat.add_le_add_left hslots _) 2).trans
        (sq_add_le hsq (by omega))
    · rw [growWork, if_neg hfull]
      exact Nat.zero_le _
  · unfold shrinkWork
    dsimp only
    split
    · next h =>
      obtain ⟨h0, -, hhalf⟩ := h
      have L := C.spaceLaw (Nat.one_le_iff_ne_zero.mpr h0)
      have hmoved : movedSlots st.flex (ceiling st.flex.indexLength 2) ≤
          st.flex.lastIndexOccup + 1 := by
        refine (Nat.min_le_right _ _).trans ?_
        rw [ceiling]
        omega
      exact (Nat.mul_le_mul_left 2 (Nat.pow_le_pow_left hmoved 2)).trans L.blocks
    · exact Nat.zero_le _

/-! ## At the border of a block -/

/-- `k` times `flex_grow` and `flex_shrink` in turn. -/
def alternate : Nat → List Call
  | 0 => []
  | k + 1 => .grow :: .shrink :: alternate k

/-- The cells before a block are fewer than twice its square. -/
theorem start_lt_sq (x : Nat) : start size x + 1 < 2 * size x ^ 2 := by
  obtain ⟨ho, hx⟩ := pos_spec x
  rw [← hx, size_firstBlock ho, start_succ_eq (Nat.le_of_lt ho)]
  generalize (pos x).1 = s at ho
  generalize (pos x).2 = o at ho
  have hle : superSize s ≤ dataSize s := by
    rw [dataSize_eq]
    exact Nat.le_mul_of_pos_left _ (by omega)
  calc (superSize s + o) * dataSize s < (dataSize s + dataSize s) * dataSize s :=
        Nat.mul_lt_mul_of_pos_right (by omega) (dataSize_pos s)
    _ = 2 * dataSize s ^ 2 := by rw [Nat.pow_two, ← Nat.two_mul, Nat.mul_assoc]

theorem SameCounters.trans {f g h : FlexArray} (h₁ : SameCounters f g) (h₂ : SameCounters g h) :
    SameCounters f h := by
  constructor
  case num => exact h₂.num.trans h₁.num
  case usable => exact h₂.usable.trans h₁.usable
  case superBlocks => exact h₂.superBlocks.trans h₁.superBlocks
  case indexLength => exact h₂.indexLength.trans h₁.indexLength
  case last => exact h₂.last.trans h₁.last
  case dataSize => exact h₂.dataSize.trans h₁.dataSize
  case superSize => exact h₂.superSize.trans h₁.superSize
  case superOccup => exact h₂.superOccup.trans h₁.superOccup

theorem alternate_cost (k : Nat) : ∀ {st : State} {bs : List (Addr × List Int32)},
    Holds st bs → st.flex.numUserElementsInserted = st.flex.usableDataBlocks →
    ∃ ps st', Runs.run (flexStep granted) st (alternate k) = .ok (ps, st') ∧
      SameCounters st.flex st'.flex ∧
      k * size (st.flex.lastIndexOccup + 1) ≤
        Runs.cost (flexStep granted) callWork st (alternate k) := by
  induction k with
  | zero =>
    intro st bs H _
    refine ⟨[], st, rfl, H.counters.unique H.counters rfl, ?_⟩
    rw [Nat.zero_mul]
    exact Nat.zero_le _
  | succ k ih =>
    intro st bs H hfull
    obtain ⟨st₁, bs₁, hgrow, H₁, -, hnum₁, -⟩ := flexGrow_spec H
    obtain ⟨s, st₂, bs₂, hshrink, H₂, -, hnum₂, -⟩ := flexShrink_spec H₁ (by omega)
    have hsame : SameCounters st.flex st₂.flex := H.counters.unique H₂.counters (by omega)
    obtain ⟨ps, st', hrun, hsame', hcost⟩ := ih H₂ (by rw [hsame.num, hsame.usable, hfull])
    have hg : flexStep granted st .grow = .ok (.status .success, st₁) := by
      simp only [flexStep, hgrow, Runs.ok_bind]
    have hs : flexStep granted st₁ .shrink = .ok (.status s, st₂) := by
      simp only [flexStep, hshrink, Runs.ok_bind]
    have hwork : size (st.flex.lastIndexOccup + 1) ≤ callWork st .grow := by
      rw [callWork, growWork, if_pos hfull]
      dsimp only
      rw [(enterBlock_spec H.counters.super).1.dataSize]
      exact Nat.le_add_left _ _
    refine ⟨_, st', Runs.run_cons_ok.mpr ⟨_, st₁, _, hg,
      Runs.run_cons_ok.mpr ⟨_, st₂, ps, hs, hrun, rfl⟩, rfl⟩, ?_, ?_⟩
    · exact hsame.trans hsame'
    · rw [hsame.last] at hcost
      rw [alternate, Runs.cost_cons _ hg, Runs.cost_cons _ hs, Nat.succ_mul]
      omega

/-- After every run that leaves the flex full, and after as many growths from the beginning as
    some blocks have cells: `k` times `flex_grow` and `flex_shrink` in turn change no counter and
    work for `k` blocks, whose size is the square root of the number of elements, within a
    constant factor. -/
theorem flex_border (junk : Int32) :
    (∀ calls, ∃ os st, session junk calls = .ok (os, st) ∧
      (st.flex.numUserElementsInserted = st.flex.usableDataBlocks →
        st.flex.numUserElementsInserted < 2 * size (st.flex.lastIndexOccup + 1) ^ 2 ∧
        ∀ k, ∃ ps st', Runs.run (flexStep granted) st (alternate k) = .ok (ps, st') ∧
          SameCounters st.flex st'.flex ∧
          k * size (st.flex.lastIndexOccup + 1) ≤
            Runs.cost (flexStep granted) callWork st (alternate k))) ∧
    ∀ x, ∃ os st, session junk (List.replicate (start size (x + 1)) .grow) = .ok (os, st) ∧
      st.flex.numUserElementsInserted = start size (x + 1) ∧
      st.flex.usableDataBlocks = start size (x + 1) := by
  refine ⟨fun calls => ?_, fun x => ?_⟩
  · obtain ⟨os, st, bs, hrun, H, -⟩ := session_spec junk calls
    refine ⟨os, st, hrun, fun hfull => ⟨?_, fun k => alternate_cost k H hfull⟩⟩
    have hlt := start_lt_sq (st.flex.lastIndexOccup + 1)
    rw [hfull, H.counters.usable]
    omega
  · obtain ⟨os, st, added, hrun, H, hnum⟩ := (fresh_spec junk).grows (start size (x + 1))
    have hzero : (fresh junk).flex.numUserElementsInserted = 0 := rfl
    rw [hzero, Nat.zero_add] at hnum
    refine ⟨os, st, hrun, hnum, ?_⟩
    have hpos : 1 ≤ start size (x + 1) := Counters.start_pos (by omega)
    have hle := H.counters.num_le
    have husable := H.counters.usable
    rcases H.counters.count with ⟨h, -⟩ | ⟨hlo, -⟩
    · omega
    · -- the last element is in block `x`
      have hlast : st.flex.lastIndexOccup ≤ x := by
        apply Nat.le_of_lt_succ
        apply Nat.lt_of_not_le
        intro hx
        have hmono : start size (x + 1) ≤ start size st.flex.lastIndexOccup := start_le_start hx
        omega
      have hmono : start size (st.flex.lastIndexOccup + 1) ≤ start size (x + 1) :=
        start_le_start (by omega)
      omega

end DataMonkey.Flex
