import Mathlib.Data.Finset.Max
import DataMonkey.Flex.Laws

/- What `flex_shrink` reports, and what it takes away.

   The status is right in the branch that only counts down. The branch that gives up a block
   runs on into the `error` label. And the element count on which the choice depends is
   advanced by `flex_grow` alone: an insertion into a block that is there is not counted, so
   after insertions the last block counts one element, however many were stored in it.

     1. `flexShrink_reports_iff` — the status is right exactly if no block is given up;
     2. `session_packed` — the counters that insertions leave;
     3. `flex_shrink_survives` — shrinking after them loses at most the last element exactly
        if the last block holds no other. -/
namespace DataMonkey.Flex

open Blocked Superblock

/-! ## The status -/

/-- `flex_shrink` says what it did: `SUCCESS` for one element less, `FAILURE` for nothing. -/
def ShrinkReports (grants : Nat → Bool) (st : State) : Prop :=
  ∃ s st', flexShrink grants st = .ok (s, st') ∧
    (s = .success ↔ 0 < st.flex.numUserElementsInserted ∧
      st'.flex.numUserElementsInserted = st.flex.numUserElementsInserted - 1) ∧
    (s = .failure ↔ st.flex.numUserElementsInserted = 0) ∧
    (st.flex.numUserElementsInserted = 0 → st' = st)

/-- Giving up a block never ends in `SUCCESS`. -/
theorem flexShrink_frees {grants : Nat → Bool} {st st' : State} {s : Dstatus}
    (h0 : st.flex.numUserElementsInserted ≠ 0) (hf : frees st.flex)
    (h : flexShrink grants st = .ok (s, st')) : s = .failure := by
  unfold flexShrink at h
  rw [if_neg h0, if_pos hf] at h
  obtain ⟨a, -, h⟩ := Runs.bind_eq_ok.mp h
  obtain ⟨st₁, -, h⟩ := Runs.bind_eq_ok.mp h
  dsimp only at h
  split at h
  · exact (Runs.ok_pair_inj h).1.symm
  · exact (Runs.ok_pair_inj h).1.symm

/-- In every state, reachable or not, and whatever the allocator does. -/
theorem flexShrink_reports_iff (grants : Nat → Bool) (st : State) :
    ShrinkReports grants st ↔ st.flex.numUserElementsInserted = 0 ∨ ¬ frees st.flex := by
  refine ⟨?_, ?_⟩
  · intro hrep
    obtain ⟨s, st', hrun, -, hfail, -⟩ := hrep
    by_cases h0 : st.flex.numUserElementsInserted = 0
    · exact Or.inl h0
    · refine Or.inr fun hf => ?_
      exact h0 (hfail.mp (flexShrink_frees h0 hf hrun))
  · intro h
    by_cases h0 : st.flex.numUserElementsInserted = 0
    · refine ⟨.failure, st, ?_, ?_, iff_of_true rfl h0, fun _ => rfl⟩
      · simp only [flexShrink, if_pos h0]
      · exact iff_of_false (by simp) (fun hpos => absurd h0 (Nat.ne_of_gt hpos.1))
    · have hf : ¬ frees st.flex := h.resolve_left h0
      have hpos : 0 < st.flex.numUserElementsInserted := Nat.pos_of_ne_zero h0
      refine ⟨.success, { st with
        flex.numUserElementsInserted := sub64 st.flex.numUserElementsInserted 1 }, ?_, ?_,
        iff_of_false (by simp) h0, fun h => absurd h h0⟩
      · simp only [flexShrink, if_neg h0, if_neg hf]
      · exact iff_of_true rfl ⟨hpos, sub64_eq hpos⟩

/-- Two elements, one after the other in two blocks: giving up the second block takes the
    count from 2 to 1 and returns `FAILURE`. -/
theorem flexShrink_misreports :
    ∃ os st st', session 0 [.grow, .grow] = .ok (os, st) ∧
      flexShrink granted st = .ok (.failure, st') ∧
      st.flex.numUserElementsInserted = 2 ∧ st'.flex.numUserElementsInserted = 1 ∧
      ¬ ShrinkReports granted st := by
  refine ⟨_, _, _, rfl, rfl, rfl, rfl, ?_⟩
  intro hrep
  obtain ⟨s, st', hrun, -, hfail, -⟩ := hrep
  obtain ⟨rfl, -⟩ := Runs.ok_pair_inj hrun
  exact absurd (hfail.mp rfl) (by decide)

/-! ## After insertions -/

/-- The calls of a session that only inserts. -/
def inserts (l : List (Index × Int32)) : List Call := l.map fun p => .insert p.1 p.2

/-- The counters after insertions: the last block is there because some insertion went into
    it, and it counts one element. -/
structure Packed (past : List Call) (st : State) : Prop where
  count : st.flex.numUserElementsInserted =
    if st.flex.lastIndexOccup = 0 then 0 else start size st.flex.lastIndexOccup + 1
  reached : st.flex.lastIndexOccup = 0 ∨
    ∃ i v, .insert i v ∈ past ∧ start size st.flex.lastIndexOccup ≤ i.val

theorem Packed.insert {past : List Call} {st : State} {bs : List (Addr × List Int32)}
    (P : Packed past st) (H : Holds st bs) (i : Index) (v : Int32) :
    ∃ st' bs', flexInsert granted st i.val v = .ok (.success, st') ∧ Holds st' bs' ∧
      Packed (past ++ [.insert i v]) st' := by
  obtain ⟨st', bs', zeros, hrun, H', -, -, -, -, x, e, hloc, hlast, hnum⟩ :=
    flexInsert_spec H i.property v
  refine ⟨st', bs', hrun, H', ?_⟩
  obtain ⟨-, hcell⟩ := locate_cell i.property hloc
  by_cases hlt : st.flex.lastIndexOccup < x
  · -- the block of the index is the new last one
    rw [Nat.max_eq_right (Nat.le_of_lt hlt)] at hlast
    rw [if_pos hlt] at hnum
    constructor
    case count => rw [hnum, hlast, if_neg (by omega)]
    case reached =>
      refine Or.inr ⟨i, v, List.mem_append_right _ (List.mem_singleton_self _), ?_⟩
      rw [hlast]
      omega
  · rw [Nat.max_eq_left (Nat.le_of_not_lt hlt)] at hlast
    rw [if_neg hlt] at hnum
    constructor
    case count => rw [hnum, hlast, P.count]
    case reached =>
      rw [hlast]
      exact P.reached.imp id fun ⟨j, w, hj, hle⟩ => ⟨j, w, List.mem_append_left _ hj, hle⟩

theorem session_packed (junk : Int32) (l : List (Index × Int32)) :
    ∃ os st bs, session junk (inserts l) = .ok (os, st) ∧ Holds st bs ∧
      Packed (inserts l) st := by
  have h₀ : Packed [] (fresh junk) := ⟨rfl, Or.inl rfl⟩
  have hall : ∀ c ∈ inserts l, ∃ i v, c = .insert i v := by
    intro c hc
    obtain ⟨p, -, rfl⟩ := List.mem_map.mp hc
    exact ⟨p.1, p.2, rfl⟩
  obtain ⟨os, st, hrun, bs, H, -, hP⟩ := Runs.run_total (flexStep granted)
    (fun past st => ∃ bs, Holds st bs ∧ st.flex.cmpFunc = defaultCmp ∧
      ((∀ c ∈ past, ∃ i v, c = .insert i v) → Packed past st))
    (fun past st c ⟨bs, H, hcmp, hP⟩ => by
      obtain ⟨o, st', bs', hrun, H', hcmp', -⟩ := flexStep_spec H hcmp c
      refine ⟨o, st', hrun, bs', H', hcmp', fun hins => ?_⟩
      obtain ⟨i, v, rfl⟩ := hins c (List.mem_append_right _ (List.mem_singleton_self c))
      obtain ⟨st₁, bs₁, hrun₁, -, hP₁⟩ :=
        (hP fun d hd => hins d (List.mem_append_left _ hd)).insert H i v
      rw [flexStep, hrun₁] at hrun
      rw [← (Runs.ok_pair_inj hrun).2]
      exact hP₁)
    (inserts l) [] (fresh junk) ⟨_, fresh_spec junk, rfl, fun _ => h₀⟩
  exact ⟨os, st, bs, hrun, H, hP hall⟩

/-! ## What a shrink loses -/

/-- Every inserted index but the largest reads the value last inserted there. -/
def Survives (junk : Int32) (l : List (Index × Int32)) (st : State) : Prop :=
  ∀ p ∈ l, (∃ q ∈ l, p.1.val < q.1.val) → p.1.val < st.flex.usableDataBlocks ∧
    getValue st p.1.val = .ok (some (expected junk (inserts l) p.1.val))

/-- No other inserted index shares the block of the largest. -/
def SpreadOut (l : List (Index × Int32)) : Prop :=
  ∀ p ∈ l, ∀ q ∈ l, p.1.val < q.1.val → (∀ r ∈ l, r.1.val ≤ q.1.val) →
    ∀ x e y f, locate p.1.val = .ok (x, e) → locate q.1.val = .ok (y, f) → x < y

theorem exists_largest {l : List (Index × Int32)} {p : Index × Int32} (hp : p ∈ l) :
    ∃ q ∈ l, ∀ r ∈ l, r.1.val ≤ q.1.val := by
  obtain ⟨q, hq, hmax⟩ := Finset.exists_max_image l.toFinset (fun r => r.1.val)
    ⟨p, List.mem_toFinset.mpr hp⟩
  exact ⟨q, List.mem_toFinset.mp hq, fun r hr => hmax r (List.mem_toFinset.mpr hr)⟩

/-- An index below block `n` is in one of the blocks before it. -/
theorem locate_lt {i x e n : Nat} (hi : i < 2 ^ 60 - 1) (hloc : locate i = .ok (x, e)) :
    i < start size n ↔ x < n := by
  obtain ⟨he, hcell⟩ := locate_cell hi hloc
  rw [← hcell]
  exact start_add_lt_iff he

/-- Shrinking a flex after insertions. -/
theorem Packed.shrink {past : List Call} {st : State} {bs : List (Addr × List Int32)}
    (P : Packed past st) (H : Holds st bs) :
    (st.flex.lastIndexOccup = 0 ∧ flexShrink granted st = .ok (.failure, st)) ∨
      (0 < st.flex.lastIndexOccup ∧ ∃ st' left a vs,
        flexShrink granted st = .ok (.failure, st') ∧ Holds st' left ∧ bs = left ++ [(a, vs)] ∧
        st'.flex.usableDataBlocks = start size st.flex.lastIndexOccup) := by
  by_cases hlast : st.flex.lastIndexOccup = 0
  · have h0 : st.flex.numUserElementsInserted = 0 := by rw [P.count, if_pos hlast]
    exact Or.inl ⟨hlast, flexShrink_empty h0⟩
  · have hn : st.flex.numUserElementsInserted = start size st.flex.lastIndexOccup + 1 := by
      rw [P.count, if_neg hlast]
    have hstart := Counters.start_pos (Nat.one_le_iff_ne_zero.mpr hlast)
    have hf : frees st.flex := by
      refine ⟨by omega, ?_⟩
      rw [H.counters.usable_sub, hn, sub64_eq (Nat.le_add_left 1 _)]
      rfl
    obtain ⟨r, st', left, hrun, H', -, -, hbs⟩ := flexShrink_spec H (by omega)
    rcases hbs with ⟨h, -, -⟩ | ⟨-, rfl, a, vs, rfl⟩
    · exact absurd hf h
    · refine Or.inr ⟨Nat.pos_of_ne_zero hlast, st', left, a, vs, hrun, H', rfl, ?_⟩
      have hlen := H.length
      have hlen' := H'.length
      rw [List.length_append, List.length_singleton] at hlen
      rw [H'.counters.usable]
      congr 1
      omega

/-- The largest inserted index is in the last block. -/
theorem Packed.block_of_largest {l : List (Index × Int32)} {st : State}
    {bs : List (Addr × List Int32)} (P : Packed (inserts l) st) (H : Holds st bs)
    {q : Index × Int32} (hin : q.1.val < (cells bs).length) (hmax : ∀ r ∈ l, r.1.val ≤ q.1.val)
    {y f : Nat} (hloc : locate q.1.val = .ok (y, f)) : y = st.flex.lastIndexOccup := by
  have hle : ¬ y < st.flex.lastIndexOccup := by
    rw [← locate_lt q.1.property hloc]
    rcases P.reached with h | ⟨i, v, hi, hge⟩
    · rw [h]
      exact Nat.not_lt_zero _
    · obtain ⟨r, hr, heq⟩ := List.mem_map.mp hi
      have hr' := hmax r hr
      cases heq
      omega
  have hlt : y < st.flex.lastIndexOccup + 1 := by
    rw [← locate_lt q.1.property hloc, ← H.counters.usable, ← H.length_cells]
    exact hin
  omega

/-- After insertions into a fresh flex one `flex_shrink` loses at most the last element
    exactly if the block of the largest index holds no other inserted index. -/
theorem flex_shrink_survives (junk : Int32) (l : List (Index × Int32)) :
    ∃ os st r st', session junk (inserts l) = .ok (os, st) ∧
      flexShrink granted st = .ok (r, st') ∧ (Survives junk l st' ↔ SpreadOut l) := by
  obtain ⟨os, st, bs, hrun, H, P⟩ := session_packed junk l
  have hns : ∀ c ∈ inserts l, c ≠ .shrink := by
    intro c hc
    obtain ⟨p, -, rfl⟩ := List.mem_map.mp hc
    exact nofun
  obtain ⟨os₁, st₁, bs₁, hrun₁, H₁, -, hC⟩ := session_contents junk (inserts l) hns
  obtain ⟨-, rfl⟩ := Runs.ok_pair_inj (hrun.symm.trans hrun₁)
  have hin : ∀ p ∈ l, p.1.val < (cells bs₁).length :=
    fun p hp => hC.inserted p.1 p.2 (List.mem_map.mpr ⟨p, hp, rfl⟩)
  rcases P.shrink H₁ with ⟨hlast, hshrink⟩ | ⟨hlast, st', left, a, vs, hshrink, H', rfl, husable⟩
  · -- all insertions went to index 0
    refine ⟨os, st, .failure, st, hrun, hshrink, ?_⟩
    have hone : (cells bs₁).length = 1 := by
      rw [H₁.length_cells, H₁.counters.usable, hlast]
      rfl
    refine ⟨?_, ?_⟩
    · intro _ p _ q hq hpq
      have := hin q hq
      omega
    · intro _ p _ hlarger
      obtain ⟨q, hq, hpq⟩ := hlarger
      have := hin q hq
      omega
  · refine ⟨os, st, .failure, st', hrun, hshrink, ?_⟩
    -- the largest index is in the block that was given up
    refine ⟨?_, ?_⟩
    · intro hsurv p hp q hq hpq hmax x e y f hlx hly
      rw [P.block_of_largest H₁ (hin q hq) hmax hly, ← locate_lt p.1.property hlx, ← husable]
      exact (hsurv p hp ⟨q, hq, hpq⟩).1
    · intro hspread p hp hlarger
      obtain ⟨q, hq, hpq⟩ := hlarger
      obtain ⟨m, hm, hmax⟩ := exists_largest hq
      obtain ⟨x, e, hlx, -⟩ := locate_spec p.1.property
      obtain ⟨y, f, hly, -⟩ := locate_spec m.1.property
      have hxy := hspread p hp m hm (Nat.lt_of_lt_of_le hpq (hmax q hq)) hmax x e y f hlx hly
      rw [P.block_of_largest H₁ (hin m hm) hmax hly, ← locate_lt p.1.property hlx,
        ← husable] at hxy
      refine ⟨hxy, ?_⟩
      have hlt : p.1.val < (cells left).length := by
        rw [H'.length_cells]
        exact hxy
      have hsame : (cells (left ++ [(a, vs)]))[p.1.val]? = some (cells left)[p.1.val] := by
        rw [cells_concat, List.getElem?_append_left hlt, List.getElem?_eq_getElem hlt]
      rw [getValue_spec H' p.1.property, List.getElem?_eq_getElem hlt,
        hC.within p.1.val _ hsame]

/-- Indices 1 and 2 share a block, which counts one element: shrinking loses both. -/
theorem flex_shrink_loses :
    ∃ os st st', session 0 (inserts [(⟨1, by decide⟩, 11), (⟨2, by decide⟩, 22)]) = .ok (os, st) ∧
      flexShrink granted st = .ok (.failure, st') ∧ getValue st 1 = .ok (some 11) ∧
      getValue st' 1 = .ok none ∧
      ¬ Survives 0 [(⟨1, by decide⟩, 11), (⟨2, by decide⟩, 22)] st' := by
  refine ⟨_, _, _, rfl, rfl, rfl, rfl, ?_⟩
  intro hsurv
  obtain ⟨hlt, -⟩ := hsurv (⟨1, by decide⟩, 11) (by decide)
    ⟨(⟨2, by decide⟩, 22), by decide, by decide⟩
  exact absurd hlt (by decide)

end DataMonkey.Flex
