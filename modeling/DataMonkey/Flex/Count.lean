import DataMonkey.Flex.Laws

/- What the number of elements says about a flex.

   `num_user_elements_inserted` determines the other seven counters, whatever mix of growing
   and shrinking led to it, and bounds what they may waste.

     1. `flex_space` — the room left over, the blocks and the index are within a constant
        factor of the square root of the number of elements;
     2. `Counters.unique` — the counters are a function of that number;
     3. `flex_grow_shrink` — so as many calls of `flex_shrink` as of `flex_grow`, in either
        order, restore them, and leave the blocks alone that they do not free;
     4. `flex_insert_grows` — the loop of `flex_insert` ends, with no block more than asked
        for and one element in the last. -/
namespace DataMonkey.Flex

open Blocked Superblock

/-! ## Space -/

/-- `usable_data_blocks - num_user_elements_inserted` does not wrap, and with
    `last_index_occup + 1` blocks the slack, the blocks and the index are all small. -/
structure SpaceLaw (f : FlexArray) : Prop where
  filled : f.numUserElementsInserted ≤ f.usableDataBlocks
  slack : f.usableDataBlocks - f.numUserElementsInserted < f.lastDataSize
  square : f.lastDataSize ^ 2 ≤ 2 * f.numUserElementsInserted
  blocks : 2 * (f.lastIndexOccup + 1) ^ 2 ≤ 9 * f.numUserElementsInserted
  index : f.indexLength ≤ 2 * (f.lastIndexOccup + 1)

/-- With an element at all, the last block holds one. -/
theorem Counters.start_lt {f : FlexArray} (C : Counters f)
    (hn : 1 ≤ f.numUserElementsInserted) :
    start size f.lastIndexOccup < f.numUserElementsInserted := by
  rcases C.count with ⟨h, -⟩ | ⟨h, -⟩
  · omega
  · exact h

theorem Counters.spaceLaw {f : FlexArray} (C : Counters f)
    (hn : 1 ≤ f.numUserElementsInserted) : SpaceLaw f := by
  have hstart := C.start_lt hn
  have husable := C.usable_eq
  have hle := C.num_le
  constructor
  case filled => exact hle
  case slack => omega
  case square =>
    rw [C.lastDataSize]
    calc size f.lastIndexOccup ^ 2 ≤ 2 * (start size f.lastIndexOccup + 1) := size_sq_le _
      _ ≤ 2 * f.numUserElementsInserted := Nat.mul_le_mul_left 2 hstart
  case blocks =>
    calc 2 * (f.lastIndexOccup + 1) ^ 2 ≤ 9 * (start size f.lastIndexOccup + 1) := succ_sq_le _
      _ ≤ 9 * f.numUserElementsInserted := Nat.mul_le_mul_left 9 hstart
  case index =>
    have hleast := C.least
    omega

/-- After every session the flex keeps within these bounds as soon as it counts an element. -/
theorem flex_space (junk : Int32) (calls : List Call) :
    ∃ os st, session junk calls = .ok (os, st) ∧
      (1 ≤ st.flex.numUserElementsInserted → SpaceLaw st.flex) := by
  obtain ⟨os, st, bs, hrun, H, -⟩ := session_spec junk calls
  exact ⟨os, st, hrun, H.counters.spaceLaw⟩

/-! ## The counters as functions of one of them -/

structure SameCounters (f g : FlexArray) : Prop where
  num : g.numUserElementsInserted = f.numUserElementsInserted
  usable : g.usableDataBlocks = f.usableDataBlocks
  superBlocks : g.numSuperBlocks = f.numSuperBlocks
  indexLength : g.indexLength = f.indexLength
  last : g.lastIndexOccup = f.lastIndexOccup
  dataSize : g.lastDataSize = f.lastDataSize
  superSize : g.lastSuperSize = f.lastSuperSize
  superOccup : g.lastSuperOccup = f.lastSuperOccup

/-- The block that the last element is in. -/
theorem Counters.last_le {f g : FlexArray} (C : Counters f) (D : Counters g)
    (hn : g.numUserElementsInserted ≤ f.numUserElementsInserted) :
    g.lastIndexOccup ≤ f.lastIndexOccup := by
  apply Nat.le_of_not_lt
  intro hlt
  -- a later block starts where the blocks of `f` end
  have hstart : start size (f.lastIndexOccup + 1) ≤ start size g.lastIndexOccup :=
    start_le_start hlt
  have hle := C.num_le
  rw [C.usable] at hle
  rcases D.count with ⟨-, h⟩ | ⟨h, -⟩
  · omega
  · omega

/-- The least power of two with room for a block. -/
theorem Counters.indexLength_le {f g : FlexArray} (C : Counters f) (D : Counters g)
    (hlast : g.lastIndexOccup = f.lastIndexOccup) : g.indexLength ≤ f.indexLength := by
  obtain ⟨i, hi⟩ := C.power
  obtain ⟨j, hj⟩ := D.power
  have hroom := C.room
  have hpos := Nat.two_pow_pos i
  rcases D.least with h | h
  · omega
  · rw [hi, hj]
    apply Nat.pow_le_pow_right Nat.two_pos
    apply Nat.le_of_lt_succ
    apply (Nat.pow_lt_pow_iff_right (by decide : 1 < 2)).mp
    rw [Nat.pow_succ]
    omega

theorem Counters.unique {f g : FlexArray} (C : Counters f) (D : Counters g)
    (hn : g.numUserElementsInserted = f.numUserElementsInserted) : SameCounters f g := by
  have hlast : g.lastIndexOccup = f.lastIndexOccup :=
    Nat.le_antisymm (C.last_le D (Nat.le_of_eq hn)) (D.last_le C (Nat.le_of_eq hn.symm))
  constructor
  case num => exact hn
  case usable => rw [D.usable, C.usable, hlast]
  case superBlocks => rw [D.super.superBlocks, C.super.superBlocks, hlast]
  case indexLength =>
    exact Nat.le_antisymm (C.indexLength_le D hlast) (D.indexLength_le C hlast.symm)
  case last => exact hlast
  case dataSize => rw [D.lastDataSize, C.lastDataSize, hlast]
  case superSize => rw [D.super.superSize, C.super.superSize, hlast]
  case superOccup => rw [D.super.superOccup, C.super.superOccup, hlast]

/-! ## Growing and shrinking by the same number -/

/-- Block `x` is where it was, with the cells it had. -/
def Kept (st st' : State) (x : Nat) : Prop :=
  ∃ a vs, slot st.flex x = .ok a ∧ load st.heap a = .ok vs ∧
    slot st'.flex x = .ok a ∧ load st'.heap a = .ok vs

section Repeated

variable {st st' : State} {bs bs' : List (Addr × List Int32)}

/-- Two states that hold the same block at `x`. -/
theorem Holds.kept (H : Holds st bs) (H' : Holds st' bs') {x : Nat}
    (hx : x < bs.length) (hsame : bs'[x]? = bs[x]?) : Kept st st' x := by
  have hget : bs[x]? = some (bs[x].1, bs[x].2) := List.getElem?_eq_getElem hx
  obtain ⟨h₁, h₂⟩ := H.slot_eq hget
  obtain ⟨h₃, h₄⟩ := H'.slot_eq (hsame.trans hget)
  exact ⟨bs[x].1, bs[x].2, h₁, h₂, h₃, h₄⟩

/-- Growing `m` times counts `m` elements and appends blocks. -/
theorem Holds.grows (H : Holds st bs) (m : Nat) :
    ∃ os st' added, Runs.run (flexStep granted) st (List.replicate m .grow) = .ok (os, st') ∧
      Holds st' (bs ++ added) ∧
      st'.flex.numUserElementsInserted = st.flex.numUserElementsInserted + m := by
  induction m generalizing st bs with
  | zero =>
    refine ⟨[], st, [], rfl, ?_, rfl⟩
    rw [List.append_nil]
    exact H
  | succ m ih =>
    obtain ⟨st₁, added₁, hgrow, H₁, -, hnum, -⟩ := flexGrow_appends H
    obtain ⟨os, st', added, hrun, H', hnum'⟩ := ih H₁
    have hstep : flexStep granted st .grow = .ok (.status .success, st₁) := by
      simp only [flexStep, hgrow, Runs.ok_bind]
    refine ⟨_, st', added₁ ++ added,
      Runs.run_cons_ok.mpr ⟨_, st₁, os, hstep, hrun, rfl⟩, ?_, by omega⟩
    rw [← List.append_assoc]
    exact H'

/-- Shrinking `m` times takes `m` elements off the count, and blocks off the end. -/
theorem Holds.shrinks (H : Holds st bs) (m : Nat) (hm : m ≤ st.flex.numUserElementsInserted) :
    ∃ os st' left freed, Runs.run (flexStep granted) st (List.replicate m .shrink) = .ok (os, st') ∧
      Holds st' left ∧ bs = left ++ freed ∧
      st'.flex.numUserElementsInserted = st.flex.numUserElementsInserted - m := by
  induction m generalizing st bs with
  | zero => exact ⟨[], st, bs, [], rfl, H, (List.append_nil _).symm, rfl⟩
  | succ m ih =>
    obtain ⟨r, st₁, left₁, freed₁, hshrink, H₁, rfl, -, hnum⟩ := flexShrink_drops H (by omega)
    obtain ⟨os, st', left, freed, hrun, H', rfl, hnum'⟩ := ih H₁ (by omega)
    have hstep : flexStep granted st .shrink = .ok (.status r, st₁) := by
      simp only [flexStep, hshrink, Runs.ok_bind]
    exact ⟨_, st', left, freed ++ freed₁,
      Runs.run_cons_ok.mpr ⟨_, st₁, os, hstep, hrun, rfl⟩, H', List.append_assoc _ _ _, by omega⟩

end Repeated

/-- After every session: `m` times `flex_grow` and then `m` times `flex_shrink` restore the
    counters and keep every block; `m` times `flex_shrink`, if there are so many elements, and
    then `m` times `flex_grow` restore them and keep the blocks that were not freed. -/
theorem flex_grow_shrink (junk : Int32) (calls : List Call) :
    ∃ os st, session junk calls = .ok (os, st) ∧
      (∀ m, ∃ ps st', Runs.run (flexStep granted) st
          (List.replicate m .grow ++ List.replicate m .shrink) = .ok (ps, st') ∧
        SameCounters st.flex st'.flex ∧ ∀ x ≤ st.flex.lastIndexOccup, Kept st st' x) ∧
      (∀ m ≤ st.flex.numUserElementsInserted, ∃ ps mid qs st',
        Runs.run (flexStep granted) st (List.replicate m .shrink) = .ok (ps, mid) ∧
        Runs.run (flexStep granted) mid (List.replicate m .grow) = .ok (qs, st') ∧
        SameCounters st.flex st'.flex ∧ ∀ x ≤ mid.flex.lastIndexOccup, Kept st st' x) := by
  obtain ⟨os, st, bs, hrun, H, -⟩ := session_spec junk calls
  refine ⟨os, st, hrun, ?_, ?_⟩
  · intro m
    obtain ⟨ps, st₁, added, hgrow, H₁, hnum₁⟩ := H.grows m
    obtain ⟨qs, st', left, freed, hshrink, H', hbs, hnum'⟩ := H₁.shrinks m (by omega)
    have hsame : SameCounters st.flex st'.flex := H.counters.unique H'.counters (by omega)
    -- as many blocks as before, and a prefix of the same list
    have hlen : left.length = bs.length := by rw [H'.length, H.length, hsame.last]
    obtain ⟨rfl, -⟩ := List.append_inj hbs hlen.symm
    refine ⟨ps ++ qs, st', Runs.run_append_ok.mpr ⟨ps, st₁, qs, hgrow, hshrink, rfl⟩, hsame, ?_⟩
    intro x hx
    exact H.kept H' (by rw [H.length]; omega) rfl
  · intro m hm
    obtain ⟨ps, mid, left, freed, hshrink, H₁, rfl, hnum₁⟩ := H.shrinks m hm
    obtain ⟨qs, st', added, hgrow, H', hnum'⟩ := H₁.grows m
    refine ⟨ps, mid, qs, st', hshrink, hgrow, H.counters.unique H'.counters (by omega), ?_⟩
    intro x hx
    have hleft : x < left.length := by
      rw [H₁.length]
      omega
    apply H.kept H' (by rw [List.length_append]; omega)
    rw [List.getElem?_append_left hleft, List.getElem?_append_left hleft]

/-! ## The growth loop of an insertion -/

/-- The counters when the loop for the index `i` in block `q` has ended: `f` before it, `t` the
    state after it. -/
structure GrownFor (f : FlexArray) (i q : Nat) (t : State) : Prop where
  last : t.flex.lastIndexOccup = max f.lastIndexOccup q
  within : i < f.usableDataBlocks → SameCounters f t.flex
  usable : f.usableDataBlocks ≤ i → t.flex.usableDataBlocks =
    ∑ x ∈ Finset.range (q + 1), blockLength t x
  count : f.usableDataBlocks ≤ i → t.flex.numUserElementsInserted =
    t.flex.usableDataBlocks - t.flex.lastDataSize + 1

/-- The last block and the number of elements determine the rest. -/
theorem Holds.grownFor {st t : State} {bs bs' : List (Addr × List Int32)} {i q e : Nat}
    (H : Holds st bs) (H' : Holds t bs') (hi : i < 2 ^ 60 - 1) (hloc : locate i = .ok (q, e))
    (hlast : t.flex.lastIndexOccup = max st.flex.lastIndexOccup q)
    (hnum : t.flex.numUserElementsInserted =
      if st.flex.lastIndexOccup < q then start size q + 1
      else st.flex.numUserElementsInserted) : GrownFor st.flex i q t := by
  obtain ⟨he, hcell⟩ := locate_cell hi hloc
  have hin : q ≤ st.flex.lastIndexOccup ↔ i < st.flex.usableDataBlocks := by
    rw [H.block_le_iff he, hcell]
  have hout : st.flex.usableDataBlocks ≤ i → t.flex.lastIndexOccup = q := by
    intro hle
    have hlt : ¬ q ≤ st.flex.lastIndexOccup := fun h => Nat.not_lt.mpr hle (hin.mp h)
    omega
  constructor
  case last => exact hlast
  case within =>
    intro hlt
    rw [if_neg (Nat.not_lt.mpr (hin.mpr hlt))] at hnum
    exact H.counters.unique H'.counters hnum
  case usable =>
    intro hle
    rw [H'.counterLaw.usable, hout hle]
  case count =>
    intro hle
    have hlt : ¬ q ≤ st.flex.lastIndexOccup := fun h => Nat.not_lt.mpr hle (hin.mp h)
    rw [hnum, if_pos (Nat.lt_of_not_le hlt), H'.counters.usable_eq, hout hle,
      H'.counters.lastDataSize, hout hle, Nat.add_sub_cancel]

/-- After every session and for every index: however many rounds it is given from `i + 2` on,
    the loop ends by itself, and the insertion returns, with the counters as they were if the
    index was within the capacity, and otherwise with its block the last one, which counts one
    element. -/
theorem flex_insert_grows (junk : Int32) (calls : List Call) :
    ∃ os st, session junk calls = .ok (os, st) ∧ ∀ (i : Index) (v : Int32), ∃ q e,
      locate i.val = .ok (q, e) ∧
      (∀ rounds, i.val + 2 ≤ rounds → ∃ t, growTo granted q rounds st = .ok (.success, t) ∧
        GrownFor st.flex i.val q t) ∧
      ∃ st', flexInsert granted st i.val v = .ok (.success, st') ∧
        GrownFor st.flex i.val q st' := by
  obtain ⟨os, st, bs, hrun, H, -⟩ := session_spec junk calls
  refine ⟨os, st, hrun, fun i v => ?_⟩
  obtain ⟨st', bs', zeros, hins, H', -, -, -, -, q, e, hloc, hlast, hnum⟩ :=
    flexInsert_spec H i.property v
  obtain ⟨-, hcell⟩ := locate_cell i.property hloc
  refine ⟨q, e, hloc, ?_, st', hins, H.grownFor H' i.property hloc hlast hnum⟩
  intro rounds hrounds
  obtain ⟨t, bt, added, hgrow, Ht, -, -, -, hlast, hnum⟩ :=
    growTo_spec q rounds st bs H (by omega) (fun _ => by omega)
  exact ⟨t, hgrow, H.grownFor Ht i.property hloc hlast hnum⟩

end DataMonkey.Flex
