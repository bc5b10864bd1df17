import DataMonkey.Flex.Access

/- What lies behind the last block of a flex.

   A slot of the index past the last block is not cleared when its block is freed, nor written
   when the index grows. So it may hold a stale pointer, but no operation, with any allocator,
   leaves a live block there: `Spent` is kept by every step, and with it a block number past
   the last one never names an allocated block. -/
namespace DataMonkey.Flex

/-- From slot `n` on the index holds no live block, what is left of freed ones at most. -/
def SpentFrom (st : State) (n : Nat) : Prop :=
  ∀ x a, n ≤ x → st.flex.indexBlock[x]? = some (some a) →
    a < st.heap.next ∧ st.heap.cell a = none

/-- No live block behind the last one. -/
def Spent (st : State) : Prop := SpentFrom st (st.flex.lastIndexOccup + 1)

theorem SpentFrom.mono {st : State} {m n : Nat} (h : SpentFrom st m) (hmn : m ≤ n) :
    SpentFrom st n := fun x a hx hslot => h x a (Nat.le_trans hmn hx) hslot

/-- The same heap, under an index without new entries. -/
structure Carried (st st' : State) : Prop where
  heap : st'.heap = st.heap
  last : st'.flex.lastIndexOccup = st.flex.lastIndexOccup
  slots : ∀ (x : Nat) (a : Addr), st'.flex.indexBlock[x]? = some (some a) →
    st.flex.indexBlock[x]? = some (some a)

theorem Carried.spentFrom {st st' : State} (h : Carried st st') {n : Nat} (S : SpentFrom st n) :
    SpentFrom st' n := by
  intro x a hx hslot
  rw [h.heap]
  exact S x a hx (h.slots x a hslot)

section Spent

variable {grants : Nat → Bool} {st st' : State}

theorem enterBlock_frame (f : FlexArray) : Frame f (enterBlock f) ∧
    (enterBlock f).lastIndexOccup = f.lastIndexOccup + 1 := by
  unfold enterBlock
  by_cases h : f.lastSuperOccup + 1 = f.lastSuperSize
  · simp only [if_pos h]
    by_cases h₂ : (f.numSuperBlocks + 1) % 2 = 1
    · simp only [if_pos h₂]
      exact ⟨⟨rfl, rfl, rfl, rfl, rfl⟩, trivial⟩
    · simp only [if_neg h₂]
      exact ⟨⟨rfl, rfl, rfl, rfl, rfl⟩, trivial⟩
  · simp only [if_neg h]
    exact ⟨⟨rfl, rfl, rfl, rfl, rfl⟩, trivial⟩

theorem resizeIndex_carried (grants : Nat → Bool) (st : State) :
    Carried st (resizeIndex grants st).2 := by
  unfold resizeIndex
  by_cases hg : grants st.requests = true
  · simp only [if_pos hg]
    refine ⟨rfl, rfl, fun x a hx => ?_⟩
    dsimp only at hx
    by_cases hlt : x < (st.flex.indexBlock.take st.flex.indexLength).length
    · rw [List.getElem?_append_left hlt] at hx
      rw [List.length_take] at hlt
      rw [List.getElem?_take_of_lt (by omega)] at hx
      exact hx
    · -- the slots that were added are empty
      rw [List.getElem?_append_right (Nat.le_of_not_lt hlt)] at hx
      cases List.eq_of_mem_replicate (List.mem_of_getElem? hx)
  · simp only [if_neg hg]
    exact ⟨rfl, rfl, fun x a hx => hx⟩

theorem growIndex_carried (grants : Nat → Bool) (st : State) :
    Carried st (growIndex grants st).2 := by
  unfold growIndex
  by_cases hlen : st.flex.indexLength = st.flex.lastIndexOccup
  · rw [if_pos hlen]
    have h := resizeIndex_carried grants { st with flex.indexLength := st.flex.indexLength * 2 }
    exact ⟨h.heap, h.last, h.slots⟩
  · rw [if_neg hlen]
    exact ⟨rfl, rfl, fun x a hx => hx⟩

theorem shrinkIndex_carried (grants : Nat → Bool) (st : State) :
    Carried st (shrinkIndex grants st).2 := by
  unfold shrinkIndex
  by_cases hlen : st.flex.lastIndexOccup * 2 = st.flex.indexLength
  · rw [if_pos hlen]
    have h := resizeIndex_carried grants
      { st with flex.indexLength := ceiling st.flex.indexLength 2 }
    exact ⟨h.heap, h.last, h.slots⟩
  · rw [if_neg hlen]
    exact ⟨rfl, rfl, fun x a hx => hx⟩

/-- The state in which `flex_grow` asks for the block, if it got the index. -/
theorem growIndex_enter (grants : Nat → Bool) (st : State) (S : Spent st) :
    ∃ b t, growIndex grants { st with flex := enterBlock st.flex } = (b, t) ∧
      t.flex.lastIndexOccup = st.flex.lastIndexOccup + 1 ∧
      SpentFrom t (st.flex.lastIndexOccup + 1) := by
  obtain ⟨hF, hlast⟩ := enterBlock_frame st.flex
  have hcar := growIndex_carried grants { st with flex := enterBlock st.flex }
  refine ⟨_, _, rfl, hcar.last.trans hlast, hcar.spentFrom ?_⟩
  intro x a hx hslot
  have hslot' : (enterBlock st.flex).indexBlock[x]? = some (some a) := hslot
  rw [hF.indexBlock] at hslot'
  exact S x a hx hslot'

theorem flexGrow_spent (S : Spent st) {s : Dstatus} (h : flexGrow grants st = .ok (s, st')) :
    Spent st' := by
  by_cases hfull : st.flex.numUserElementsInserted = st.flex.usableDataBlocks
  · obtain ⟨b, t, hgrow, hlast, St⟩ := growIndex_enter grants st S
    simp only [flexGrow, if_pos hfull, hgrow] at h
    have St' : Spent t := St.mono (by rw [hlast]; omega)
    cases b with
    | false =>
      rw [← (Runs.ok_pair_inj h).2]
      exact St'
    | true =>
      simp only [if_true, addBlock] at h
      split at h
      · split at h
        · rw [← (Runs.ok_pair_inj h).2]
          intro x a hx hslot
          dsimp only at hx hslot ⊢
          rw [List.getElem?_set_ne (by omega)] at hslot
          obtain ⟨hlt, hdead⟩ := St' x a hx hslot
          exact ⟨Nat.lt_succ_of_lt hlt, Store.cell_alloc_dead hlt hdead⟩
        · cases h
      · rw [← (Runs.ok_pair_inj h).2]
        exact St'
  · simp only [flexGrow, if_neg hfull] at h
    rw [← (Runs.ok_pair_inj h).2]
    exact S

theorem leaveBlock_frame (f : FlexArray) : Frame f (leaveBlock f) ∧
    (leaveBlock f).lastIndexOccup = sub64 f.lastIndexOccup 1 := by
  unfold leaveBlock
  by_cases h : 0 = f.lastSuperOccup
  · simp only [if_pos h]
    by_cases h₂ : sub64 f.numSuperBlocks 1 % 2 = 1
    · simp only [if_pos h₂]
      exact ⟨⟨rfl, rfl, rfl, rfl, rfl⟩, trivial⟩
    · simp only [if_neg h₂]
      exact ⟨⟨rfl, rfl, rfl, rfl, rfl⟩, trivial⟩
  · simp only [if_neg h]
    exact ⟨⟨rfl, rfl, rfl, rfl, rfl⟩, trivial⟩

/-- The state in which `flex_shrink` resizes the index, with the block at `a` freed. -/
def State.giveUp (st : State) (a : Addr) : State :=
  { st with
    flex.usableDataBlocks := sub64 st.flex.usableDataBlocks st.flex.lastDataSize
    heap := st.heap.free a, freed := .cell a 0 :: st.freed }

/-- The branch of `flex_shrink` that frees a block, if it gets through. -/
theorem flexShrink_giveUp {s : Dstatus} (h0 : st.flex.numUserElementsInserted ≠ 0)
    (hf : frees st.flex) (h : flexShrink grants st = .ok (s, st')) :
    ∃ a vs t, st.flex.indexBlock[st.flex.lastIndexOccup]? = some (some a) ∧
      st.heap.cell a = some vs ∧ t = (shrinkIndex grants (st.giveUp a)).2 ∧
      (st' = { t with flex := leaveBlock t.flex } ∨ st' = t) := by
  unfold flexShrink at h
  rw [if_neg h0, if_pos hf] at h
  obtain ⟨a, hslot, h⟩ := Runs.bind_eq_ok.mp h
  obtain ⟨st₁, hfree, h⟩ := Runs.bind_eq_ok.mp h
  obtain ⟨vs, hload, hfree⟩ := Runs.bind_eq_ok.mp hfree
  obtain rfl := Except.ok.inj hfree
  refine ⟨a, vs, _, slot_eq_ok.mp hslot, load_eq_ok.mp hload, rfl, ?_⟩
  dsimp only at h
  split at h
  · exact Or.inl (Runs.ok_pair_inj h).2.symm
  · exact Or.inr (Runs.ok_pair_inj h).2.symm

theorem flexShrink_spent (S : Spent st) {s : Dstatus} (h : flexShrink grants st = .ok (s, st')) :
    Spent st' := by
  by_cases h0 : st.flex.numUserElementsInserted = 0
  · simp only [flexShrink, if_pos h0] at h
    rw [← (Runs.ok_pair_inj h).2]
    exact S
  by_cases hf : frees st.flex
  · obtain ⟨a, vs, t, hslot, hlive, rfl, hst'⟩ := flexShrink_giveUp h0 hf h
    -- the block that was freed is dead, so the slot of the last block is spent too
    have hfrom : SpentFrom (st.giveUp a) st.flex.lastIndexOccup := by
      intro x b hx hb
      have hb' : st.flex.indexBlock[x]? = some (some b) := hb
      by_cases hxl : x = st.flex.lastIndexOccup
      · rw [hxl, hslot] at hb'
        cases hb'
        exact ⟨Store.lt_next (h := st.heap) hlive, Store.cell_free_self _ _⟩
      · obtain ⟨hlt, hdead⟩ := S x b (by omega) hb'
        exact ⟨hlt, Store.cell_free_dead hdead⟩
    have hcar := shrinkIndex_carried grants (st.giveUp a)
    have hlast : (shrinkIndex grants (st.giveUp a)).2.flex.lastIndexOccup =
      st.flex.lastIndexOccup := hcar.last
    have hspent := hcar.spentFrom hfrom
    rcases hst' with rfl | rfl
    · obtain ⟨hF, hleave⟩ := leaveBlock_frame (shrinkIndex grants (st.giveUp a)).2.flex
      intro x b hx hb
      dsimp only at hx hb
      rw [hF.indexBlock] at hb
      rw [hleave, hlast] at hx
      refine hspent x b ?_ hb
      unfold sub64 at hx
      split at hx
      · omega
      · omega
    · exact hspent.mono (by rw [hlast]; omega)
  · simp only [flexShrink, if_neg h0, if_neg hf] at h
    rw [← (Runs.ok_pair_inj h).2]
    exact S

theorem writeCell_spent (S : Spent st) {x e : Nat} {v : Int32}
    (h : writeCell st x e v = .ok st') : Spent st' := by
  obtain ⟨a, -, h⟩ := Runs.bind_eq_ok.mp h
  obtain ⟨vs, -, h⟩ := Runs.bind_eq_ok.mp h
  split at h
  · rw [← Except.ok.inj h]
    intro y b hy hb
    obtain ⟨hlt, hdead⟩ := S y b hy hb
    exact ⟨hlt, Store.cell_write_dead hdead⟩
  · cases h

theorem flexStep_spent (S : Spent st) {c : Call} {o : Reply}
    (h : flexStep grants st c = .ok (o, st')) : Spent st' :=
  flexStep_keeps (P := Spent) (fun _ _ _ S h => flexGrow_spent S h)
    (fun _ _ _ _ _ S h => writeCell_spent S h) (fun _ _ h => flexShrink_spent S h) S h

end Spent

theorem session_spent (junk : Int32) (calls : List Call) :
    ∃ os st bs, session junk calls = .ok (os, st) ∧ Holds st bs ∧ Spent st := by
  have h₀ : Spent (fresh junk) := by
    intro x a hx hslot
    have hout : x < [some (0 : Addr)].length := (List.getElem?_eq_some_iff.mp hslot).1
    exact absurd hout (Nat.not_lt.mpr hx)
  obtain ⟨os, st, hrun, ⟨bs, H, -⟩, S⟩ := Runs.run_total (flexStep granted)
    (fun _ st => (∃ bs, Holds st bs ∧ st.flex.cmpFunc = defaultCmp) ∧ Spent st)
    (fun past st c ⟨⟨bs, H, hcmp⟩, S⟩ => by
      obtain ⟨o, st', bs', hrun, H', hcmp', -⟩ := flexStep_spec H hcmp c
      exact ⟨o, st', hrun, ⟨bs', H', hcmp'⟩, flexStep_spent S hrun⟩)
    calls [] (fresh junk) ⟨⟨_, fresh_spec junk, rfl⟩, h₀⟩
  exact ⟨os, st, bs, hrun, H, S⟩

/-- Block `x` has its slot in the index, and has not been freed. -/
def Allocated (st : State) (x : Nat) : Prop :=
  ∃ a vs, slot st.flex x = .ok a ∧ load st.heap a = .ok vs

theorem SpentFrom.not_allocated {st : State} {n x : Nat} (h : SpentFrom st n) (hx : n ≤ x) :
    ¬ Allocated st x := by
  intro halloc
  obtain ⟨a, vs, hslot, hload⟩ := halloc
  obtain ⟨-, hdead⟩ := h x a hx (slot_eq_ok.mp hslot)
  rw [load_eq_ok.mp hload] at hdead
  cases hdead

end DataMonkey.Flex
