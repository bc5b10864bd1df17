import DataMonkey.Flex.Layout

/- `flex_grow`, `flex_shrink` and the growth loop of `flex_insert`, with allocations that
   succeed.

   Both operations move the superblock counters by `enterBlock` and `leaveBlock` and resize
   the index by powers of two; what is left to show here is that the blocks and the index go
   with them.

     1. `flexGrow_spec` — one more element counted, and a block of zeros if the flex is full;
     2. `flexShrink_spec` — one element less, and the last block given up if it is empty;
     3. `growTo_spec` — the growth loop ends with the block it asked for. -/
namespace DataMonkey.Flex

open Blocked Superblock

/-! ## Resizing the index -/

/-- A granted `realloc` keeps the slots that fit and has as many as were asked for. -/
theorem resizeIndex_spec (st : State) :
    ∃ slots, resizeIndex granted st =
        (true, { st with flex.indexBlock := slots, requests := st.requests + 1 }) ∧
      slots.length = st.flex.indexLength ∧
      ∀ x, x < st.flex.indexLength → x < st.flex.indexBlock.length →
        slots[x]? = st.flex.indexBlock[x]? := by
  refine ⟨st.flex.indexBlock.take st.flex.indexLength ++
    List.replicate (st.flex.indexLength - st.flex.indexBlock.length) none, rfl, ?_, ?_⟩
  · rw [List.length_append, List.length_take, List.length_replicate]
    omega
  · intro x h₁ h₂
    rw [List.getElem?_append_left (by rw [List.length_take]; omega), List.getElem?_take_of_lt h₁]

/-! ## Growing -/

/-- The index after `growIndex` has room for the block that was entered, and is the least
    power of two that does. -/
theorem growIndex_spec {st : State} {f : FlexArray} {x : Nat} (hf : Frame st.flex f)
    (hlast : f.lastIndexOccup = x + 1) (hpow : ∃ j, st.flex.indexLength = 2 ^ j)
    (hroom : x < st.flex.indexLength)
    (hleast : st.flex.indexLength = 1 ∨ st.flex.indexLength ≤ 2 * x)
    (hslots : st.flex.indexBlock.length = st.flex.indexLength) :
    ∃ len slots requests, growIndex granted { st with flex := f } =
        (true, { st with flex := { f with indexLength := len, indexBlock := slots }
                         requests := requests }) ∧
      (∃ j, len = 2 ^ j) ∧ x + 1 < len ∧ (len = 1 ∨ len ≤ 2 * (x + 1)) ∧ slots.length = len ∧
      ∀ y ≤ x, slots[y]? = st.flex.indexBlock[y]? := by
  obtain ⟨j, hj⟩ := hpow
  by_cases hfull : st.flex.indexLength = x + 1
  · -- the block that was entered is the first one past the index: it doubles
    have htest : f.indexLength = f.lastIndexOccup := by rw [hf.indexLength, hlast, hfull]
    obtain ⟨slots, hrun, hlen, hkeep⟩ :=
      resizeIndex_spec { st with flex := { f with indexLength := f.indexLength * 2 } }
    refine ⟨f.indexLength * 2, slots, st.requests + 1, ?_, ⟨j + 1, ?_⟩, ?_, ?_, hlen, ?_⟩
    · simp only [growIndex, if_pos htest, hrun]
    · rw [hf.indexLength, hj, Nat.pow_succ]
    · rw [htest, hlast]
      omega
    · rw [htest, hlast]
      omega
    · intro y hy
      rw [← hf.indexBlock]
      refine hkeep y ?_ ?_
      · show y < f.indexLength * 2
        rw [htest, hlast]
        omega
      · show y < f.indexBlock.length
        rw [hf.indexBlock, hslots]
        omega
  · have htest : ¬ f.indexLength = f.lastIndexOccup := by rw [hf.indexLength, hlast]; exact hfull
    refine ⟨f.indexLength, f.indexBlock, st.requests, ?_, ⟨j, ?_⟩, ?_, ?_, ?_, ?_⟩
    · simp only [growIndex, if_neg htest]
    · rw [hf.indexLength, hj]
    · rw [hf.indexLength]
      omega
    · rw [hf.indexLength]
      omega
    · rw [hf.indexLength, hf.indexBlock, hslots]
    · intro y _
      rw [hf.indexBlock]

/-- The counters when block `x` is the last one and holds the last element. -/
theorem Counters.of_super {g : FlexArray} {x : Nat} (hS : SuperAt g x)
    (husable : g.usableDataBlocks = start size (x + 1)) (hpow : ∃ j, g.indexLength = 2 ^ j)
    (hroom : x < g.indexLength) (hleast : g.indexLength = 1 ∨ g.indexLength ≤ 2 * x)
    (hlo : start size x < g.numUserElementsInserted)
    (hhi : g.numUserElementsInserted ≤ start size (x + 1)) : Counters g := by
  have hlast := hS.last
  rw [← hlast] at hS husable hroom hleast hlo hhi
  exact ⟨hS, husable, hpow, hroom, hleast, Or.inr ⟨hlo, by rw [husable]; exact hhi⟩⟩

/-- One more element in the blocks there are. -/
theorem Counters.count_up {f : FlexArray} (C : Counters f)
    (h : f.numUserElementsInserted < f.usableDataBlocks) :
    Counters { f with numUserElementsInserted := f.numUserElementsInserted + 1 } := by
  have hsuper := C.super
  refine ⟨⟨rfl, hsuper.superBlocks, hsuper.superOccup, hsuper.superSize, hsuper.dataSize⟩,
    C.usable, C.power, C.room, C.least, Or.inr ⟨?_, h⟩⟩
  show start size f.lastIndexOccup < f.numUserElementsInserted + 1
  rcases C.count with ⟨h₁, h₂⟩ | ⟨h₁, -⟩
  · rw [h₁, h₂]
    exact Nat.one_pos
  · exact Nat.lt_succ_of_lt h₁

/-- A new block at the end, at the next address, entered in the next slot. -/
theorem Holds.concat {st st' : State} {bs : List (Addr × List Int32)} (H : Holds st bs)
    {zeros : List Int32} (hz : zeros.length = size bs.length) (C' : Counters st'.flex)
    (hlast : st'.flex.lastIndexOccup = st.flex.lastIndexOccup + 1)
    (hheap : st'.heap = st.heap.alloc zeros)
    (hslots : st'.flex.indexBlock.length = st'.flex.indexLength)
    (hnew : st'.flex.indexBlock[bs.length]? = some (some st.heap.next))
    (hkeep : ∀ x, x < bs.length → st'.flex.indexBlock[x]? = st.flex.indexBlock[x]?) :
    Holds st' (bs ++ [(st.heap.next, zeros)]) := by
  refine ⟨C', ?_, ?_, ?_, ?_, hslots⟩
  · rw [hlast, List.length_append, H.length]
    rfl
  · rw [List.map_append]
    apply H.sized.concat
    rw [List.length_map]
    exact hz
  · rw [List.map_append, List.nodup_append]
    refine ⟨H.nodup, by simp, ?_⟩
    intro a ha b hb
    obtain ⟨p, hp, rfl⟩ := List.mem_map.mp ha
    rw [List.map_singleton, List.mem_singleton] at hb
    rw [hb]
    exact H.ne_next hp
  · intro x a c hx
    rw [hheap]
    by_cases hlt : x < bs.length
    · rw [List.getElem?_append_left hlt] at hx
      obtain ⟨hs, hc⟩ := H.block x a c hx
      exact ⟨(hkeep x hlt).trans hs, Store.cell_alloc_of_live hc⟩
    · -- the new block is the only one behind
      have hlen := (List.getElem?_eq_some_iff.mp hx).1
      rw [List.length_append, List.length_singleton] at hlen
      obtain rfl : x = bs.length := by omega
      rw [List.getElem?_append_right (Nat.le_refl _), Nat.sub_self] at hx
      cases hx
      exact ⟨hnew, Store.cell_alloc_self _ _⟩

/-- `flex_grow` counts one more element; on a full flex it adds a block of zeros. -/
theorem flexGrow_spec {st : State} {bs : List (Addr × List Int32)} (H : Holds st bs) :
    ∃ st' bs', flexGrow granted st = .ok (.success, st') ∧ Holds st' bs' ∧
      st'.flex.cmpFunc = st.flex.cmpFunc ∧
      st'.flex.numUserElementsInserted = st.flex.numUserElementsInserted + 1 ∧
      ((st.flex.numUserElementsInserted < st.flex.usableDataBlocks ∧ bs' = bs) ∨
        (st.flex.numUserElementsInserted = st.flex.usableDataBlocks ∧
          ∃ a, bs' = bs ++ [(a, List.replicate (size bs.length) 0)])) := by
  have C := H.counters
  have hle := C.num_le
  by_cases hfull : st.flex.numUserElementsInserted = st.flex.usableDataBlocks
  · obtain ⟨hS, hF, hnum⟩ := enterBlock_spec C.super
    obtain ⟨len, slots, requests, hgrow, hpow, hroom, hleast, hslots, hkeep⟩ :=
      growIndex_spec hF hS.last C.power C.room C.least H.slots
    let f := enterBlock st.flex
    let zeros : List Int32 := List.replicate f.lastDataSize 0
    let st' : State :=
      { flex := { f with
          indexLength := len
          indexBlock := slots.set f.lastIndexOccup (some st.heap.next)
          usableDataBlocks := f.usableDataBlocks + f.lastDataSize
          numUserElementsInserted := f.numUserElementsInserted + 1 }
        heap := st.heap.alloc zeros
        requests := requests + 1
        freed := st.freed }
    have hlast : f.lastIndexOccup = st.flex.lastIndexOccup + 1 := hS.last
    have hsize : f.lastDataSize = size (st.flex.lastIndexOccup + 1) := hS.dataSize
    have husable : f.usableDataBlocks + f.lastDataSize =
        start size (st.flex.lastIndexOccup + 1 + 1) := by
      rw [hF.usable, C.usable, hsize]
      rfl
    have hcount : f.numUserElementsInserted + 1 = start size (st.flex.lastIndexOccup + 1) + 1 := by
      rw [hnum, hfull, C.usable]
    have hin : f.lastIndexOccup < slots.length := by
      rw [hslots, hlast]
      exact hroom
    have hrun : flexGrow granted st = .ok (.success, st') := by
      simp only [flexGrow, if_pos hfull, hgrow, if_true, addBlock, granted]
      exact if_pos hin
    have hpos := size_pos (st.flex.lastIndexOccup + 1)
    have hcap : start size (st.flex.lastIndexOccup + 1) + 1 ≤
        start size (st.flex.lastIndexOccup + 1 + 1) := Nat.add_le_add_left hpos _
    have C' : Counters st'.flex := by
      apply Counters.of_super (x := st.flex.lastIndexOccup + 1) _ husable hpow hroom hleast
      · show start size (st.flex.lastIndexOccup + 1) < f.numUserElementsInserted + 1
        rw [hcount]
        exact Nat.lt_succ_self _
      · show f.numUserElementsInserted + 1 ≤ _
        rw [hcount]
        exact hcap
      · exact ⟨hS.last, hS.superBlocks, hS.superOccup, hS.superSize, hS.dataSize⟩
    have hzeros : zeros.length = size bs.length := by
      rw [List.length_replicate, hsize, H.length]
    have H' : Holds st' (bs ++ [(st.heap.next, zeros)]) := by
      apply H.concat hzeros C' hlast rfl
      · show (slots.set _ _).length = len
        rw [List.length_set, hslots]
      · show (slots.set f.lastIndexOccup _)[bs.length]? = _
        rw [H.length, ← hlast, List.getElem?_set_self hin]
      · intro x hx
        rw [H.length] at hx
        show (slots.set f.lastIndexOccup _)[x]? = _
        rw [List.getElem?_set_ne (by omega), hkeep x (by omega)]
    refine ⟨st', _, hrun, H', hF.cmpFunc, ?_, Or.inr ⟨hfull, st.heap.next, ?_⟩⟩
    · show f.numUserElementsInserted + 1 = _
      rw [hnum]
    · rw [H.length, ← hsize]
  · have hlt : st.flex.numUserElementsInserted < st.flex.usableDataBlocks :=
      Nat.lt_of_le_of_ne hle hfull
    refine ⟨{ st with flex.numUserElementsInserted := st.flex.numUserElementsInserted + 1 }, bs, ?_,
      ⟨C.count_up hlt, H.length, H.sized, H.nodup, H.block, H.slots⟩, rfl, rfl,
      Or.inl ⟨hlt, rfl⟩⟩
    simp only [flexGrow, if_neg hfull]

/-- The blocks that it adds: none, or one of zeros behind a full flex. -/
theorem flexGrow_appends {st : State} {bs : List (Addr × List Int32)} (H : Holds st bs) :
    ∃ st' added, flexGrow granted st = .ok (.success, st') ∧ Holds st' (bs ++ added) ∧
      st'.flex.cmpFunc = st.flex.cmpFunc ∧
      st'.flex.numUserElementsInserted = st.flex.numUserElementsInserted + 1 ∧
      (∀ p ∈ added, ∀ v ∈ p.2, v = 0) ∧
      (st'.flex.lastIndexOccup = st.flex.lastIndexOccup ∨
        (st'.flex.lastIndexOccup = st.flex.lastIndexOccup + 1 ∧
          st.flex.numUserElementsInserted = st.flex.usableDataBlocks)) := by
  obtain ⟨st', bs', hgrow, H', hcmp, hnum, hbs⟩ := flexGrow_spec H
  have hlen := H.length
  have hlen' := H'.length
  rcases hbs with ⟨-, rfl⟩ | ⟨hfull, a, rfl⟩
  · refine ⟨st', [], hgrow, ?_, hcmp, hnum, by simp, Or.inl (by omega)⟩
    rw [List.append_nil]
    exact H'
  · refine ⟨st', _, hgrow, H', hcmp, hnum, ?_, Or.inr ⟨?_, hfull⟩⟩
    · intro p hp v hv
      rw [List.mem_singleton.mp hp] at hv
      exact List.eq_of_mem_replicate hv
    · rw [List.length_append, List.length_singleton] at hlen'
      omega

/-! ## Shrinking -/

/-- The index after `shrinkIndex`, which runs before `last_index_occup--`, is the least power
    of two with room for the blocks that are left. -/
theorem shrinkIndex_spec (st : State) {x : Nat} (hlast : st.flex.lastIndexOccup = x + 1)
    (hpow : ∃ j, st.flex.indexLength = 2 ^ j) (hroom : x + 1 < st.flex.indexLength)
    (hleast : st.flex.indexLength = 1 ∨ st.flex.indexLength ≤ 2 * (x + 1))
    (hslots : st.flex.indexBlock.length = st.flex.indexLength) :
    ∃ len slots requests, shrinkIndex granted st =
        (true, { st with flex := { st.flex with indexLength := len, indexBlock := slots }
                         requests := requests }) ∧
      (∃ j, len = 2 ^ j) ∧ x < len ∧ (len = 1 ∨ len ≤ 2 * x) ∧ slots.length = len ∧
      ∀ y ≤ x, slots[y]? = st.flex.indexBlock[y]? := by
  obtain ⟨j, hj⟩ := hpow
  obtain ⟨i, rfl⟩ : ∃ i, j = i + 1 := by
    cases j with
    | zero =>
      rw [Nat.pow_zero] at hj
      omega
    | succ i => exact ⟨i, rfl⟩
  rw [Nat.pow_succ] at hj
  have hpos := Nat.two_pow_pos i
  by_cases hhalf : (x + 1) * 2 = st.flex.indexLength
  · -- half of the index is still room for the blocks below the last one
    have hlen : ceiling st.flex.indexLength 2 = x + 1 := by
      unfold ceiling
      omega
    obtain ⟨slots, hrun, hslots', hkeep⟩ :=
      resizeIndex_spec { st with flex := { st.flex with indexLength := x + 1 } }
    refine ⟨x + 1, slots, st.requests + 1, ?_, ⟨i, by omega⟩, by omega, by omega, hslots', ?_⟩
    · rw [← hlast] at hhalf
      rw [shrinkIndex, if_pos hhalf, hlen]
      exact hrun
    · intro y hy
      refine hkeep y (show y < x + 1 by omega) ?_
      show y < st.flex.indexBlock.length
      rw [hslots]
      omega
  · refine ⟨st.flex.indexLength, st.flex.indexBlock, st.requests, ?_, ⟨i + 1, ?_⟩, by omega,
      by omega, hslots, fun y _ => rfl⟩
    · rw [← hlast] at hhalf
      rw [shrinkIndex, if_neg hhalf]
    · rw [hj, Nat.pow_succ]

/-- One element less in the same blocks. -/
theorem Counters.count_down {f : FlexArray} (C : Counters f)
    (h0 : f.numUserElementsInserted ≠ 0) (hfree : ¬ frees f) :
    Counters { f with numUserElementsInserted := sub64 f.numUserElementsInserted 1 } := by
  have hdec : sub64 f.numUserElementsInserted 1 = f.numUserElementsInserted - 1 :=
    sub64_eq (by omega)
  have hsuper := C.super
  refine ⟨⟨rfl, hsuper.superBlocks, hsuper.superOccup, hsuper.superSize, hsuper.dataSize⟩,
    C.usable, C.power, C.room, C.least, ?_⟩
  show (sub64 f.numUserElementsInserted 1 = 0 ∧ f.lastIndexOccup = 0) ∨
    (start size f.lastIndexOccup < sub64 f.numUserElementsInserted 1 ∧
      sub64 f.numUserElementsInserted 1 ≤ f.usableDataBlocks)
  rw [hdec]
  have hcount := C.count
  by_cases h1 : f.numUserElementsInserted = 1
  · -- a single element lies in the first block
    left
    refine ⟨by rw [h1], ?_⟩
    apply Classical.byContradiction
    intro hne
    have := Counters.start_pos (Nat.one_le_iff_ne_zero.mpr hne)
    omega
  · right
    have hne : start size f.lastIndexOccup ≠ f.numUserElementsInserted - 1 := by
      rw [← C.usable_sub, ← hdec]
      exact fun e => hfree ⟨h1, e⟩
    omega

/-- The last block freed. -/
theorem Holds.dropLast {st st' : State} {init : List (Addr × List Int32)} {a : Addr}
    {c : List Int32} (H : Holds st (init ++ [(a, c)])) (C' : Counters st'.flex)
    (hlast : init.length = st'.flex.lastIndexOccup + 1) (hheap : st'.heap = st.heap.free a)
    (hslots : st'.flex.indexBlock.length = st'.flex.indexLength)
    (hkeep : ∀ x, x < init.length → st'.flex.indexBlock[x]? = st.flex.indexBlock[x]?) :
    Holds st' init := by
  have hsized := H.sized
  rw [List.map_append] at hsized
  have hnd := H.nodup
  rw [List.map_append] at hnd
  refine ⟨C', hlast, hsized.left, (List.nodup_append.mp hnd).1, ?_, hslots⟩
  intro y b d hy
  have hlt := (List.getElem?_eq_some_iff.mp hy).1
  have hy' : (init ++ [(a, c)])[y]? = some (b, d) := by
    rw [List.getElem?_append_left hlt]
    exact hy
  obtain ⟨hs, hc⟩ := H.block y b d hy'
  have hba : b ≠ a := by
    intro e
    subst e
    exact Nat.ne_of_lt hlt (H.addr_inj (y := init.length) (d := c) hy' (by simp))
  rw [hheap, Store.cell_free_ne hba]
  exact ⟨(hkeep y hlt).trans hs, hc⟩

/-- `flex_shrink` takes one element off the count; it gives up the last block when the count
    goes back to the blocks before it. -/
theorem flexShrink_spec {st : State} {bs : List (Addr × List Int32)} (H : Holds st bs)
    (h0 : st.flex.numUserElementsInserted ≠ 0) :
    ∃ r st' bs', flexShrink granted st = .ok (r, st') ∧ Holds st' bs' ∧
      st'.flex.cmpFunc = st.flex.cmpFunc ∧
      st'.flex.numUserElementsInserted = st.flex.numUserElementsInserted - 1 ∧
      ((¬ frees st.flex ∧ r = .success ∧ bs' = bs) ∨
        (frees st.flex ∧ r = .failure ∧ ∃ a c, bs = bs' ++ [(a, c)])) := by
  have C := H.counters
  have hdec : sub64 st.flex.numUserElementsInserted 1 = st.flex.numUserElementsInserted - 1 :=
    sub64_eq (by omega)
  by_cases hfree : frees st.flex
  · obtain ⟨hone, hnum⟩ := C.one_le_last h0 hfree
    obtain ⟨x, hx⟩ : ∃ x, st.flex.lastIndexOccup = x + 1 := ⟨st.flex.lastIndexOccup - 1, by omega⟩
    obtain ⟨init, a, c, rfl, hinit⟩ := H.split_last
    obtain ⟨hslot, hload⟩ := H.slot_eq (x := init.length) (a := a) (c := c) (by simp)
    rw [hinit] at hslot
    let f₁ : FlexArray := { st.flex with
      usableDataBlocks := sub64 st.flex.usableDataBlocks st.flex.lastDataSize }
    let st₁ : State := { st with
      flex := f₁, heap := st.heap.free a, freed := .cell a 0 :: st.freed }
    have hroom := C.room
    have hleast := C.least
    rw [hx] at hroom hleast
    obtain ⟨len, slots, requests, hshrink, hpow', hroom', hleast', hslots', hkeep⟩ :=
      shrinkIndex_spec st₁ hx C.power hroom hleast H.slots
    let f₂ : FlexArray := { f₁ with indexLength := len, indexBlock := slots }
    let st' : State := { st₁ with flex := leaveBlock f₂, requests := requests }
    have hS : SuperAt f₂ (x + 1) := by
      have hsuper := C.super
      rw [hx] at hsuper
      exact ⟨hsuper.last, hsuper.superBlocks, hsuper.superOccup, hsuper.superSize, hsuper.dataSize⟩
    obtain ⟨hS', hF, hcount⟩ := leaveBlock_spec hS
    have hrun : flexShrink granted st = .ok (.failure, st') := by
      simp only [flexShrink, if_neg h0, if_pos hfree, hslot, Runs.ok_bind, freeBlock, hload]
      rw [show shrinkIndex granted { st with
        flex.usableDataBlocks := sub64 st.flex.usableDataBlocks st.flex.lastDataSize
        heap := st.heap.free a, freed := .cell a 0 :: st.freed } = _ from hshrink]
      rfl
    have hcount' : (leaveBlock f₂).numUserElementsInserted = start size (x + 1) := by
      rw [hcount]
      show sub64 st.flex.numUserElementsInserted 1 = _
      rw [hdec, hnum, hx]
      rfl
    have husable : (leaveBlock f₂).usableDataBlocks = start size (x + 1) := by
      rw [hF.usable]
      show sub64 st.flex.usableDataBlocks st.flex.lastDataSize = _
      rw [C.usable_sub, hx]
    have C' : Counters (leaveBlock f₂) := by
      have hlen : (leaveBlock f₂).indexLength = len := hF.indexLength
      rw [← hlen] at hpow' hroom' hleast'
      apply Counters.of_super hS' husable hpow' hroom' hleast'
      · rw [hcount']
        exact Nat.lt_add_of_pos_right (size_pos x)
      · exact Nat.le_of_eq hcount'
    have H' : Holds st' init := by
      apply H.dropLast C'
      · rw [hinit, hx]
        exact congrArg (· + 1) hS'.last.symm
      · rfl
      · show (leaveBlock f₂).indexBlock.length = (leaveBlock f₂).indexLength
        rw [hF.indexBlock, hF.indexLength]
        exact hslots'
      · intro y hy
        rw [hinit, hx] at hy
        show (leaveBlock f₂).indexBlock[y]? = _
        rw [hF.indexBlock]
        exact hkeep y (Nat.le_of_lt_succ hy)
    refine ⟨.failure, st', init, hrun, H', hF.cmpFunc, ?_, Or.inr ⟨hfree, rfl, a, c, rfl⟩⟩
    show (leaveBlock f₂).numUserElementsInserted = _
    rw [hcount', hnum, hx]
    rfl
  · refine ⟨.success, { st with
      flex.numUserElementsInserted := sub64 st.flex.numUserElementsInserted 1 }, bs, ?_,
      ⟨C.count_down h0 hfree, H.length, H.sized, H.nodup, H.block, H.slots⟩, rfl, hdec,
      Or.inl ⟨hfree, rfl, rfl⟩⟩
    simp only [flexShrink, if_neg h0, if_neg hfree]

/-- The blocks that it gives up: none, or the last one. -/
theorem flexShrink_drops {st : State} {bs : List (Addr × List Int32)} (H : Holds st bs)
    (h0 : st.flex.numUserElementsInserted ≠ 0) :
    ∃ r st' left freed, flexShrink granted st = .ok (r, st') ∧ Holds st' left ∧
      bs = left ++ freed ∧ st'.flex.cmpFunc = st.flex.cmpFunc ∧
      st'.flex.numUserElementsInserted = st.flex.numUserElementsInserted - 1 := by
  obtain ⟨r, st', left, hshrink, H', hcmp, hnum, hbs⟩ := flexShrink_spec H h0
  rcases hbs with ⟨-, -, rfl⟩ | ⟨-, -, a, vs, rfl⟩
  · exact ⟨r, st', left, [], hshrink, H', (List.append_nil _).symm, hcmp, hnum⟩
  · exact ⟨r, st', left, _, hshrink, H', rfl, hcmp, hnum⟩

/-- A flex with nothing counted refuses. -/
theorem flexShrink_empty {st : State} (h0 : st.flex.numUserElementsInserted = 0) :
    flexShrink granted st = .ok (.failure, st) := by
  simp only [flexShrink, if_pos h0]

/-! ## The growth loop -/

/-- The loop of `flex_insert` reaches block `x`: it appends blocks of zeros up to it, none if
    it is there. A block that it appends is entered with its first element counted. -/
theorem growTo_spec (x : Nat) : ∀ (fuel : Nat) (st : State) (bs : List (Addr × List Int32)),
    Holds st bs → 0 < fuel →
    (st.flex.lastIndexOccup < x → start size x + 1 < fuel + st.flex.numUserElementsInserted) →
    ∃ st' bs' added, growTo granted x fuel st = .ok (.success, st') ∧ Holds st' bs' ∧
      st'.flex.cmpFunc = st.flex.cmpFunc ∧ bs' = bs ++ added ∧
      (∀ p ∈ added, ∀ v ∈ p.2, v = 0) ∧
      st'.flex.lastIndexOccup = max st.flex.lastIndexOccup x ∧
      st'.flex.numUserElementsInserted =
        if st.flex.lastIndexOccup < x then start size x + 1 else st.flex.numUserElementsInserted
  | 0, _, _, _, hf, _ => absurd hf (Nat.lt_irrefl 0)
  | fuel + 1, st, bs, H, _, hfuel => by
    by_cases hlt : st.flex.lastIndexOccup < x
    · obtain ⟨st₁, added₁, hgrow, H₁, hcmp₁, hnum₁, hzero, hlast₁⟩ := flexGrow_appends H
      -- every round counts one more element, and that is what the fuel runs on
      have hbudget := hfuel hlt
      have hcap : start size (st.flex.lastIndexOccup + 1) ≤ start size x := start_le_start hlt
      have husable := H.counters.usable
      have hle := H.counters.num_le
      obtain ⟨st', bs', added, hrun, H', hcmp, hadd, hzero', hlast, hnum⟩ :=
        growTo_spec x fuel st₁ (bs ++ added₁) H₁ (by omega) (fun _ => by omega)
      refine ⟨st', bs', added₁ ++ added, ?_, H', by rw [hcmp, hcmp₁], ?_, ?_, by omega, ?_⟩
      · simp only [growTo, if_pos hlt, hgrow, Runs.ok_bind, if_true]
        exact hrun
      · rw [hadd, List.append_assoc]
      · intro p hp
        rcases List.mem_append.mp hp with hp | hp
        · exact hzero p hp
        · exact hzero' p hp
      · rw [hnum, if_pos hlt]
        by_cases hlt₁ : st₁.flex.lastIndexOccup < x
        · rw [if_pos hlt₁]
        · -- the round just made entered block `x`
          rw [if_neg hlt₁, hnum₁]
          obtain rfl : x = st.flex.lastIndexOccup + 1 := by omega
          omega
    · refine ⟨st, bs, [], ?_, H, rfl, (List.append_nil _).symm, by simp, by omega, ?_⟩
      · simp only [growTo, if_neg hlt]
      · rw [if_neg hlt]

end DataMonkey.Flex
