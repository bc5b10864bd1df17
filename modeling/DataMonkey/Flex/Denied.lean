import DataMonkey.Flex.Count
import DataMonkey.Flex.Shrink
import DataMonkey.Flex.Spent

/- Allocations that fail.

   `flex_grow` advances its counters before it asks for memory and does not take them back, so
   a failed call leaves a last block that is not there. `flex_shrink` frees the block and
   lowers the capacity before it resizes the index, and keeps the slot if that fails.

     1. `flexGrow_eq_granted`, `growTo_eq_granted` — with the requests granted that a call
        makes, it does what it does when all are;
     2. `flexGrow_denied`, `growTo_denied` — with one of them denied it names a missing block;
     3. `flexShrink_denied` — so does a shrink without its `realloc`;
     4. `flex_grow_failure`, `flex_shrink_failure` — when a failed call leaves the flex intact. -/
namespace DataMonkey.Flex

open Blocked Superblock

/-! ## The requests of a call -/

/-- The `k` requests from number `r` on are granted. -/
def GrantsAll (grants : Nat → Bool) (r k : Nat) : Prop := ∀ j < k, grants (r + j) = true

/-- The requests made while the last block moves up by `k`: a block each time, and the index
    before it where the block is the first one past the index. -/
def demand : Nat → Nat → Nat → Nat
  | _, _, 0 => 0
  | indexLength, last, k + 1 =>
    if indexLength = last + 1 then 2 + demand (indexLength * 2) (last + 1) k
    else 1 + demand indexLength (last + 1) k

theorem GrantsAll.left {grants : Nat → Bool} {r a b : Nat} (h : GrantsAll grants r (a + b)) :
    GrantsAll grants r a := fun j hj => h j (Nat.lt_add_right b hj)

theorem GrantsAll.right {grants : Nat → Bool} {r a b : Nat} (h : GrantsAll grants r (a + b)) :
    GrantsAll grants (r + a) b := by
  intro j hj
  rw [Nat.add_assoc]
  exact h (a + j) (Nat.add_lt_add_left hj a)

theorem GrantsAll.append {grants : Nat → Bool} {r a b : Nat} (h : GrantsAll grants r a)
    (h' : GrantsAll grants (r + a) b) : GrantsAll grants r (a + b) := by
  intro j hj
  by_cases hja : j < a
  · exact h j hja
  · have hrest := h' (j - a) (by omega)
    rw [Nat.add_assoc, Nat.add_sub_cancel' (Nat.le_of_not_lt hja)] at hrest
    exact hrest

/-- The length of the index when the block after `last` has been entered. -/
def nextIndexLength (indexLength last : Nat) : Nat :=
  if indexLength = last + 1 then indexLength * 2 else indexLength

theorem demand_succ (len last k : Nat) :
    demand len last (k + 1) =
      demand len last 1 + demand (nextIndexLength len last) (last + 1) k := by
  by_cases h : len = last + 1
  · simp only [demand, nextIndexLength, if_pos h]
  · simp only [demand, nextIndexLength, if_neg h]

/-! ## Growing with any allocator -/

section Grow

variable {grants : Nat → Bool} {st st' : State}

/-- The test of `growIndex`, in the counters before the block is entered. -/
theorem full_index_iff (f : FlexArray) :
    (enterBlock f).indexLength = (enterBlock f).lastIndexOccup ↔
      f.indexLength = f.lastIndexOccup + 1 := by
  obtain ⟨hF, hlast⟩ := enterBlock_frame f
  rw [hF.indexLength, hlast]

/-- With all its requests granted the call does not notice the allocator. -/
theorem flexGrow_eq_granted
    (h : st.flex.numUserElementsInserted = st.flex.usableDataBlocks →
      GrantsAll grants st.requests (demand st.flex.indexLength st.flex.lastIndexOccup 1)) :
    flexGrow grants st = flexGrow granted st := by
  by_cases hfull : st.flex.numUserElementsInserted = st.flex.usableDataBlocks
  · have hg := h hfull
    have hindex := full_index_iff st.flex
    by_cases hlen : st.flex.indexLength = st.flex.lastIndexOccup + 1
    · simp only [demand, if_pos hlen] at hg
      have h₀ : grants st.requests = true := hg 0 (by omega)
      have h₁ : grants (st.requests + 1) = true := hg 1 (by omega)
      simp only [flexGrow, if_pos hfull, growIndex, if_pos (hindex.mpr hlen), resizeIndex, h₀,
        granted, if_true, addBlock, h₁]
    · simp only [demand, if_neg hlen] at hg
      have h₀ : grants st.requests = true := hg 0 (by omega)
      simp only [flexGrow, if_pos hfull, growIndex, if_neg (mt hindex.mp hlen), if_true, addBlock,
        h₀, granted]
  · simp only [flexGrow, if_neg hfull]

/-- What a granted call asks for. -/
theorem flexGrow_requests {s : Dstatus} (h : flexGrow granted st = .ok (s, st')) :
    (st.flex.numUserElementsInserted ≠ st.flex.usableDataBlocks ∧
      st'.requests = st.requests ∧ st'.flex.indexLength = st.flex.indexLength ∧
      st'.flex.lastIndexOccup = st.flex.lastIndexOccup) ∨
    (st.flex.numUserElementsInserted = st.flex.usableDataBlocks ∧
      st'.requests =
        st.requests + demand st.flex.indexLength st.flex.lastIndexOccup 1 ∧
      st'.flex.indexLength = nextIndexLength st.flex.indexLength st.flex.lastIndexOccup ∧
      st'.flex.lastIndexOccup = st.flex.lastIndexOccup + 1) := by
  by_cases hfull : st.flex.numUserElementsInserted = st.flex.usableDataBlocks
  · refine Or.inr ⟨hfull, ?_⟩
    obtain ⟨hF, hlast⟩ := enterBlock_frame st.flex
    have hindex := full_index_iff st.flex
    by_cases hlen : st.flex.indexLength = st.flex.lastIndexOccup + 1
    · simp only [flexGrow, if_pos hfull, growIndex, if_pos (hindex.mpr hlen), resizeIndex, granted,
        if_true, addBlock] at h
      split at h
      · rw [← (Runs.ok_pair_inj h).2]
        simp only [demand, nextIndexLength, if_pos hlen]
        exact ⟨trivial, congrArg (· * 2) hF.indexLength, hlast⟩
      · cases h
    · simp only [flexGrow, if_pos hfull, growIndex, if_neg (mt hindex.mp hlen), granted, if_true,
        addBlock] at h
      split at h
      · rw [← (Runs.ok_pair_inj h).2]
        simp only [demand, nextIndexLength, if_neg hlen]
        exact ⟨trivial, hF.indexLength, hlast⟩
      · cases h
  · simp only [flexGrow, if_neg hfull] at h
    rw [← (Runs.ok_pair_inj h).2]
    exact Or.inl ⟨hfull, rfl, rfl, rfl⟩

/-- The growth loop does not notice the allocator either. -/
theorem growTo_eq_granted (x : Nat) : ∀ (fuel : Nat) (st : State),
    (st.flex.lastIndexOccup < x → GrantsAll grants st.requests
      (demand st.flex.indexLength st.flex.lastIndexOccup (x - st.flex.lastIndexOccup))) →
    growTo grants x fuel st = growTo granted x fuel st
  | 0, _, _ => rfl
  | fuel + 1, st, h => by
    by_cases hlt : st.flex.lastIndexOccup < x
    · have hg := h hlt
      obtain ⟨k, hk⟩ : ∃ k, x - st.flex.lastIndexOccup = k + 1 :=
        ⟨x - st.flex.lastIndexOccup - 1, by omega⟩
      rw [hk, demand_succ] at hg
      simp only [growTo, if_pos hlt, flexGrow_eq_granted fun _ => hg.left]
      cases hgrow : flexGrow granted st with
      | error e => rfl
      | ok p =>
        obtain ⟨s, st₁⟩ := p
        by_cases hs : s = .success
        · simp only [Runs.ok_bind, if_pos hs]
          apply growTo_eq_granted x fuel st₁
          intro _
          rcases flexGrow_requests hgrow with ⟨-, hr, hlen, hlast⟩ | ⟨-, hr, hlen, hlast⟩
          · rw [hr, hlen, hlast]
            exact h hlt
          · -- a block less to enter, and its requests made
            rw [hr, hlen, hlast, show x - (st.flex.lastIndexOccup + 1) = k by omega]
            exact hg.right
        · simp only [Runs.ok_bind, if_neg hs]
    · simp only [growTo, if_neg hlt]

end Grow

/-! ## A denied request -/

section Denied

variable {grants : Nat → Bool} {st : State}

/-- A full index asks for its `realloc` and goes by the answer. -/
theorem growIndex_full (grants : Nat → Bool) (st : State)
    (h : st.flex.indexLength = st.flex.lastIndexOccup) :
    (growIndex grants st).1 = grants st.requests ∧
      (growIndex grants st).2.requests = st.requests + 1 := by
  rw [growIndex, if_pos h, resizeIndex]
  cases hg : grants st.requests with
  | false => exact ⟨rfl, rfl⟩
  | true => exact ⟨rfl, rfl⟩

/-- The requests that are left of the demand once `flex_grow` has got the index. -/
theorem growIndex_requests {b : Bool} {t : State}
    (h : growIndex grants { st with flex := enterBlock st.flex } = (b, t)) :
    ∃ k, demand st.flex.indexLength st.flex.lastIndexOccup 1 = k + 1 ∧
      (b = true → GrantsAll grants st.requests k ∧ t.requests = st.requests + k) := by
  have hindex := full_index_iff st.flex
  by_cases hlen : st.flex.indexLength = st.flex.lastIndexOccup + 1
  · obtain ⟨hb, ht⟩ :=
      growIndex_full grants { st with flex := enterBlock st.flex } (hindex.mpr hlen)
    rw [h] at hb ht
    refine ⟨1, by simp only [demand, if_pos hlen], fun hgot => ⟨?_, ht⟩⟩
    intro j hj
    obtain rfl : j = 0 := by omega
    exact hb.symm.trans hgot
  · rw [growIndex, if_neg (mt hindex.mp hlen)] at h
    refine ⟨0, by simp only [demand, if_neg hlen], fun _ => ⟨?_, ?_⟩⟩
    · exact fun j hj => absurd hj (Nat.not_lt_zero j)
    · rw [← (Prod.mk.inj h).2]
      rfl

/-- A full flex that does not get its memory has entered the block all the same. -/
theorem flexGrow_denied (S : Spent st)
    (hfull : st.flex.numUserElementsInserted = st.flex.usableDataBlocks)
    (hg : ¬ GrantsAll grants st.requests (demand st.flex.indexLength st.flex.lastIndexOccup 1)) :
    ∃ st', flexGrow grants st = .ok (.failure, st') ∧
      st'.flex.lastIndexOccup = st.flex.lastIndexOccup + 1 ∧
      ¬ Allocated st' st'.flex.lastIndexOccup := by
  obtain ⟨b, t, hgrow, hlast, St⟩ := growIndex_enter grants st S
  obtain ⟨k, hk, hb⟩ := growIndex_requests hgrow
  have hmissing : ¬ Allocated t t.flex.lastIndexOccup := St.not_allocated (Nat.le_of_eq hlast.symm)
  cases b with
  | false =>
    refine ⟨t, ?_, hlast, hmissing⟩
    simp only [flexGrow, if_pos hfull, hgrow]
    rfl
  | true =>
    obtain ⟨hgk, hr⟩ := hb rfl
    have hblock : ¬ grants t.requests = true := by
      intro hlast
      refine hg ?_
      rw [hk]
      refine hgk.append fun j hj => ?_
      obtain rfl : j = 0 := by omega
      rw [← hr]
      exact hlast
    refine ⟨{ t with requests := t.requests + 1 }, ?_, hlast, hmissing⟩
    simp only [flexGrow, if_pos hfull, hgrow, if_true, addBlock, if_neg hblock]

/-- So has the growth loop, wherever on its way to block `x` a request was denied. -/
theorem growTo_denied (x : Nat) : ∀ (fuel : Nat) (st : State) (bs : List (Addr × List Int32)),
    Holds st bs → Spent st → st.flex.lastIndexOccup < x →
    start size x + 1 < fuel + st.flex.numUserElementsInserted →
    ¬ GrantsAll grants st.requests
      (demand st.flex.indexLength st.flex.lastIndexOccup (x - st.flex.lastIndexOccup)) →
    ∃ st', growTo grants x fuel st = .ok (.failure, st') ∧ st'.flex.lastIndexOccup ≤ x ∧
      ¬ Allocated st' st'.flex.lastIndexOccup
  | 0, st, bs, H, _, hlt, hfuel, _ => by
    have hle := H.counters.num_le
    have hcap : start size (st.flex.lastIndexOccup + 1) ≤ start size x := start_le_start hlt
    rw [H.counters.usable] at hle
    omega
  | fuel + 1, st, bs, H, S, hlt, hfuel, hg => by
    by_cases hone : st.flex.numUserElementsInserted = st.flex.usableDataBlocks →
        GrantsAll grants st.requests (demand st.flex.indexLength st.flex.lastIndexOccup 1)
    · -- this round gets what it asks for, so a later one does not
      obtain ⟨st₁, bs₁, hgrow, H₁, -, hnum, -⟩ := flexGrow_spec H
      have S₁ : Spent st₁ := flexGrow_spent S hgrow
      obtain ⟨hlt₁, hg₁⟩ : st₁.flex.lastIndexOccup < x ∧ ¬ GrantsAll grants st₁.requests
          (demand st₁.flex.indexLength st₁.flex.lastIndexOccup (x - st₁.flex.lastIndexOccup)) := by
        rcases flexGrow_requests hgrow with ⟨-, hr, hlen, hlast⟩ | ⟨hfull, hr, hlen, hlast⟩
        · rw [hr, hlen, hlast]
          exact ⟨hlt, hg⟩
        · obtain ⟨k, hk⟩ : ∃ k, x - st.flex.lastIndexOccup = k + 1 :=
            ⟨x - st.flex.lastIndexOccup - 1, by omega⟩
          rw [hk, demand_succ] at hg
          rw [hr, hlen, hlast, show x - (st.flex.lastIndexOccup + 1) = k by omega]
          have hrest : ¬ GrantsAll grants (st.requests +
              demand st.flex.indexLength st.flex.lastIndexOccup 1) _ :=
            fun h => hg ((hone hfull).append h)
          refine ⟨?_, hrest⟩
          cases k with
          | zero => exact absurd (fun j hj => absurd hj (Nat.not_lt_zero j)) hrest
          | succ k => omega
      obtain ⟨st', hrun, hle, hmissing⟩ :=
        growTo_denied x fuel st₁ bs₁ H₁ S₁ hlt₁ (by omega) hg₁
      refine ⟨st', ?_, hle, hmissing⟩
      simp only [growTo, if_pos hlt, flexGrow_eq_granted hone, hgrow, Runs.ok_bind, if_true]
      exact hrun
    · obtain ⟨hfull, hdenied⟩ := Classical.not_imp.mp hone
      obtain ⟨st', hrun, hlast, hmissing⟩ := flexGrow_denied S hfull hdenied
      refine ⟨st', ?_, by omega, hmissing⟩
      simp only [growTo, if_pos hlt, hrun, Runs.ok_bind, reduceCtorEq, if_false]

theorem flexInsert_eq_granted {i x e : Nat} (v : Int32) (hloc : locate i = .ok (x, e))
    (hg : st.flex.lastIndexOccup < x → GrantsAll grants st.requests
      (demand st.flex.indexLength st.flex.lastIndexOccup (x - st.flex.lastIndexOccup))) :
    flexInsert grants st i v = flexInsert granted st i v := by
  simp only [flexInsert, hloc, Runs.ok_bind, growTo_eq_granted x (i + 2) st hg]

theorem flexInsert_denied {bs : List (Addr × List Int32)} {i x e : Nat} (H : Holds st bs)
    (S : Spent st) (v : Int32) (hi : i < 2 ^ 60 - 1) (hloc : locate i = .ok (x, e))
    (hlt : st.flex.lastIndexOccup < x)
    (hg : ¬ GrantsAll grants st.requests
      (demand st.flex.indexLength st.flex.lastIndexOccup (x - st.flex.lastIndexOccup))) :
    ∃ st', flexInsert grants st i v = .ok (.failure, st') ∧ st'.flex.lastIndexOccup ≤ x ∧
      ¬ Allocated st' st'.flex.lastIndexOccup := by
  have hcell := (locate_cell hi hloc).2
  obtain ⟨st', hrun, hlast, hmissing⟩ := growTo_denied x (i + 2) st bs H S hlt (by omega) hg
  refine ⟨st', ?_, hlast, hmissing⟩
  simp only [flexInsert, hloc, Runs.ok_bind, hrun, reduceCtorEq, if_false]

/-- `flex_shrink` that cannot resize the index has freed the block it goes on naming. -/
theorem flexShrink_denied {bs : List (Addr × List Int32)} (H : Holds st bs)
    (h0 : st.flex.numUserElementsInserted ≠ 0) (hf : frees st.flex)
    (hlen : st.flex.lastIndexOccup * 2 = st.flex.indexLength) (hg : grants st.requests = false) :
    ∃ st', flexShrink grants st = .ok (.failure, st') ∧
      st'.flex.usableDataBlocks = start size st.flex.lastIndexOccup ∧
      st'.flex.lastIndexOccup = st.flex.lastIndexOccup ∧
      ¬ Allocated st' st'.flex.lastIndexOccup := by
  obtain ⟨init, a, vs, rfl, hinit⟩ := H.split_last
  obtain ⟨hslot, hload⟩ := H.slot_eq (x := init.length) (a := a) (c := vs) (by simp)
  rw [hinit] at hslot
  let st' : State := { st.giveUp a with
    flex := { (st.giveUp a).flex with indexLength := ceiling st.flex.indexLength 2 }
    requests := st.requests + 1 }
  have hresize : shrinkIndex grants (st.giveUp a) = (false, st') := by
    have hlen' : (st.giveUp a).flex.lastIndexOccup * 2 = (st.giveUp a).flex.indexLength := hlen
    have hg' : ¬ grants (st.giveUp a).requests = true := Bool.eq_false_iff.mp hg
    rw [shrinkIndex, if_pos hlen', resizeIndex, if_neg hg']
    rfl
  refine ⟨st', ?_, H.counters.usable_sub, rfl, ?_⟩
  · simp only [flexShrink, if_neg h0, if_pos hf, hslot, Runs.ok_bind, freeBlock, hload]
    rw [show shrinkIndex grants { st with
      flex.usableDataBlocks := sub64 st.flex.usableDataBlocks st.flex.lastDataSize
      heap := st.heap.free a, freed := .cell a 0 :: st.freed } = _ from hresize]
    rfl
  · intro halloc
    obtain ⟨b, us, hb, hus⟩ := halloc
    have hb' : slot st.flex st.flex.lastIndexOccup = .ok b := hb
    rw [hslot] at hb'
    obtain rfl := Except.ok.inj hb'
    have hdead : (st.heap.free a).cell a = some us := load_eq_ok.mp hus
    rw [Store.cell_free_self] at hdead
    cases hdead

end Denied

/-! ## When a failed call leaves the flex intact -/

/-- What a failed `flex_grow` owes: the counters, the cells, blocks to all block numbers, and
    a second attempt that goes as the first would have gone. -/
structure Undisturbed (st st' : State) : Prop where
  num : st'.flex.numUserElementsInserted = st.flex.numUserElementsInserted
  usable : st'.flex.usableDataBlocks = st.flex.usableDataBlocks
  superBlocks : st'.flex.numSuperBlocks = st.flex.numSuperBlocks
  last : st'.flex.lastIndexOccup = st.flex.lastIndexOccup
  dataSize : st'.flex.lastDataSize = st.flex.lastDataSize
  superSize : st'.flex.lastSuperSize = st.flex.lastSuperSize
  superOccup : st'.flex.lastSuperOccup = st.flex.lastSuperOccup
  kept : ∀ x ≤ st.flex.lastIndexOccup, Kept st st' x
  allocated : ∀ x ≤ st'.flex.lastIndexOccup, Allocated st' x
  retry : ∀ s t, flexGrow granted st = .ok (s, t) →
    ∃ t', flexGrow granted st' = .ok (s, t') ∧ t'.flex = t.flex ∧ t'.heap = t.heap

def GrowKeeps (grants : Nat → Bool) (st : State) : Prop :=
  ∃ s st', flexGrow grants st = .ok (s, st') ∧ (s = .failure → Undisturbed st st')

/-- Every index that passes the test of `flex_get` has its cell in an allocated block. -/
def Sound (st : State) : Prop :=
  ∀ i < 2 ^ 64, ∀ x e, locate i = .ok (x, e) → x ≤ st.flex.lastIndexOccup →
    ∃ a vs, slot st.flex x = .ok a ∧ load st.heap a = .ok vs ∧ e < vs.length

def InsertKeeps (grants : Nat → Bool) (st : State) (i : Nat) (v : Int32) : Prop :=
  ∀ st', flexInsert grants st i v = .ok (.failure, st') →
    (∀ j w, getValue st j = .ok (some w) → getValue st' j = .ok (some w)) ∧ Sound st'

/-- An index to read the missing block by. -/
theorem not_sound {st : State} {x : Nat} (hx : start size x < 2 ^ 60 - 1)
    (hlast : st.flex.lastIndexOccup = x) (hmissing : ¬ Allocated st x) : ¬ Sound st := by
  intro hsound
  obtain ⟨y, e, hloc, he, hcell⟩ := locate_spec hx
  obtain ⟨rfl, -⟩ := cell_unique he (size_pos x) hcell
  obtain ⟨a, vs, hslot, hload, -⟩ := hsound _ (by omega) y e hloc (Nat.le_of_eq hlast.symm)
  exact hmissing ⟨a, vs, hslot, hload⟩

section Failures

variable {grants : Nat → Bool} {st : State} {bs : List (Addr × List Int32)}

theorem growKeeps_iff (H : Holds st bs) (S : Spent st) :
    GrowKeeps grants st ↔ (st.flex.numUserElementsInserted = st.flex.usableDataBlocks →
      GrantsAll grants st.requests
        (demand st.flex.indexLength st.flex.lastIndexOccup 1)) := by
  refine ⟨?_, ?_⟩
  · intro hkeeps hfull
    apply Classical.byContradiction
    intro hdenied
    obtain ⟨s, st', hgrow, hfail⟩ := hkeeps
    obtain ⟨t, hgrow', hlast, -⟩ := flexGrow_denied S hfull hdenied
    rw [hgrow] at hgrow'
    obtain ⟨rfl, rfl⟩ := Runs.ok_pair_inj hgrow'
    have hsame := (hfail rfl).last
    omega
  · intro hg
    obtain ⟨st', bs', hgrow, -⟩ := flexGrow_spec H
    exact ⟨.success, st', (flexGrow_eq_granted hg).trans hgrow, nofun⟩

theorem insertKeeps_iff (H : Holds st bs) (S : Spent st) {i : Nat} (h64 : i < 2 ^ 64) (v : Int32) :
    InsertKeeps grants st i v ↔
      ∀ x e, locate i = .ok (x, e) → st.flex.lastIndexOccup < x →
        GrantsAll grants st.requests
          (demand st.flex.indexLength st.flex.lastIndexOccup (x - st.flex.lastIndexOccup)) := by
  refine ⟨?_, ?_⟩
  · intro hkeeps x e hloc hlt
    apply Classical.byContradiction
    intro hdenied
    have hi : i < 2 ^ 60 - 1 := lt_of_locate h64 hloc
    obtain ⟨st', hins, hle, hmissing⟩ := flexInsert_denied H S v hi hloc hlt hdenied
    -- the missing block begins below the index that was asked for
    have hbelow : start size st'.flex.lastIndexOccup ≤ start size x := start_le_start hle
    have hcell := (locate_cell hi hloc).2
    exact not_sound (by omega) rfl hmissing (hkeeps st' hins).2
  · intro hg st' hins
    obtain ⟨⟨x, e⟩, hloc, -⟩ := Runs.bind_eq_ok.mp hins
    have hi : i < 2 ^ 60 - 1 := lt_of_locate h64 hloc
    obtain ⟨t, bs', zeros, hins', -⟩ := flexInsert_spec H hi v
    rw [flexInsert_eq_granted v hloc (hg x e hloc), hins'] at hins
    cases (Runs.ok_pair_inj hins).1

/-- With any allocator an insertion returns. -/
theorem flexInsert_returns (grants : Nat → Bool) (H : Holds st bs) (S : Spent st) (i : Index)
    (v : Int32) : ∃ s st', flexInsert grants st i.val v = .ok (s, st') := by
  obtain ⟨x, e, hloc, -⟩ := locate_spec i.property
  by_cases hg : st.flex.lastIndexOccup < x → GrantsAll grants st.requests
      (demand st.flex.indexLength st.flex.lastIndexOccup (x - st.flex.lastIndexOccup))
  · obtain ⟨st', bs', zeros, hins, -⟩ := flexInsert_spec H i.property v
    exact ⟨.success, st', (flexInsert_eq_granted v hloc hg).trans hins⟩
  · obtain ⟨hlt, hdenied⟩ := Classical.not_imp.mp hg
    obtain ⟨st', hins, -⟩ := flexInsert_denied H S v i.property hloc hlt hdenied
    exact ⟨.failure, st', hins⟩

end Failures

/-- After every session and for every allocator: `flex_grow` that fails leaves the flex as it
    was, and `flex_insert` that fails leaves it readable, exactly if they do not fail, that is,
    if the requests they make are granted. -/
theorem flex_grow_failure (junk : Int32) (calls : List Call) :
    ∃ os st, session junk calls = .ok (os, st) ∧ ∀ grants,
      (GrowKeeps grants st ↔
        (st.flex.numUserElementsInserted = st.flex.usableDataBlocks →
          GrantsAll grants st.requests
            (demand st.flex.indexLength st.flex.lastIndexOccup 1))) ∧
      (∀ i < 2 ^ 64, ∀ v, InsertKeeps grants st i v ↔
        ∀ x e, locate i = .ok (x, e) → st.flex.lastIndexOccup < x →
          GrantsAll grants st.requests
            (demand st.flex.indexLength st.flex.lastIndexOccup (x - st.flex.lastIndexOccup))) ∧
      ∀ (i : Index) v, ∃ s st', flexInsert grants st i.val v = .ok (s, st') := by
  obtain ⟨os, st, bs, hrun, H, S⟩ := session_spent junk calls
  refine ⟨os, st, hrun, fun grants => ⟨growKeeps_iff H S, ?_, flexInsert_returns grants H S⟩⟩
  exact fun i h64 v => insertKeeps_iff H S h64 v

/-- One element, and no memory for the second: the last block is block 1, which is not there,
    and the index 1 is taken for an index of the array. -/
theorem flex_grow_names_missing :
    ∃ os st st', session 0 [.grow] = .ok (os, st) ∧
      flexGrow (fun _ => false) st = .ok (.failure, st') ∧
      st.flex.lastIndexOccup = 0 ∧ st'.flex.lastIndexOccup = 1 ∧
      flexGet st 1 = .ok none ∧ flexGet st' 1 = .error .indexBound ∧
      ¬ GrowKeeps (fun _ => false) st ∧ ¬ InsertKeeps (fun _ => false) st 1 7 := by
  refine ⟨_, _, _, rfl, rfl, rfl, rfl, rfl, rfl, ?_, ?_⟩
  · intro hkeeps
    obtain ⟨s, st', hgrow, hfail⟩ := hkeeps
    obtain ⟨rfl, rfl⟩ := Runs.ok_pair_inj hgrow
    exact absurd (hfail rfl).last (by decide)
  · intro hkeeps
    obtain ⟨a, vs, hslot, -⟩ := (hkeeps _ rfl).2 1 (by decide) 1 0 rfl (by decide)
    cases hslot

/-- The `realloc` of the index inside `flex_shrink` is made, and fails. -/
def IndexShrinkFails (grants : Nat → Bool) (st : State) : Prop :=
  st.flex.numUserElementsInserted ≠ 0 ∧ frees st.flex ∧
    st.flex.lastIndexOccup * 2 = st.flex.indexLength ∧ grants st.requests = false

/-- `flex_shrink` that cannot resize the index leaves all counters and all blocks as they were. -/
def ShrinkKeeps (grants : Nat → Bool) (st : State) : Prop :=
  IndexShrinkFails grants st → ∃ s st', flexShrink grants st = .ok (s, st') ∧
    SameCounters st.flex st'.flex ∧ ∀ x ≤ st.flex.lastIndexOccup, Kept st st' x

/-- After every session `flex_shrink` never leaves the flex as it was when the `realloc`
    fails: the capacity is lowered, and the last block is freed but still the last one. -/
theorem flex_shrink_failure (junk : Int32) (calls : List Call) :
    ∃ os st, session junk calls = .ok (os, st) ∧ ∀ grants,
      (ShrinkKeeps grants st ↔ ¬ IndexShrinkFails grants st) ∧
      (IndexShrinkFails grants st → ∃ st', flexShrink grants st = .ok (.failure, st') ∧
        st'.flex.usableDataBlocks < st.flex.usableDataBlocks ∧
        st'.flex.lastIndexOccup = st.flex.lastIndexOccup ∧
        ¬ Allocated st' st'.flex.lastIndexOccup) := by
  obtain ⟨os, st, bs, hrun, H, -⟩ := session_spec junk calls
  refine ⟨os, st, hrun, fun grants => ?_⟩
  have hfails : IndexShrinkFails grants st → ∃ st', flexShrink grants st = .ok (.failure, st') ∧
      st'.flex.usableDataBlocks < st.flex.usableDataBlocks ∧
      st'.flex.lastIndexOccup = st.flex.lastIndexOccup ∧
      ¬ Allocated st' st'.flex.lastIndexOccup := by
    intro h
    obtain ⟨h0, hf, hlen, hg⟩ := h
    obtain ⟨st', hshrink, husable, hlast, hmissing⟩ := flexShrink_denied H h0 hf hlen hg
    refine ⟨st', hshrink, ?_, hlast, hmissing⟩
    have hpos := size_pos st.flex.lastIndexOccup
    rw [husable, H.counters.usable_eq, H.counters.lastDataSize]
    omega
  refine ⟨⟨?_, fun h hf => absurd hf h⟩, hfails⟩
  intro hkeeps hf
  obtain ⟨st', hshrink, hlt, -⟩ := hfails hf
  obtain ⟨s, t, hshrink', hsame, -⟩ := hkeeps hf
  rw [hshrink] at hshrink'
  obtain ⟨-, rfl⟩ := Runs.ok_pair_inj hshrink'
  have := hsame.usable
  omega

/-- Two elements in two blocks, and no memory to halve the index. -/
theorem flex_shrink_names_freed :
    ∃ os st st', session 0 [.grow, .grow] = .ok (os, st) ∧
      IndexShrinkFails (fun _ => false) st ∧
      flexShrink (fun _ => false) st = .ok (.failure, st') ∧
      st'.flex.lastIndexOccup = 1 ∧ getValue st 1 = .ok (some 0) ∧
      getValue st' 1 = .error .freedBlock ∧ ¬ ShrinkKeeps (fun _ => false) st := by
  refine ⟨_, _, _, rfl, ?_, rfl, rfl, rfl, rfl, ?_⟩
  · exact ⟨by decide, by decide, by decide, rfl⟩
  · intro hkeeps
    obtain ⟨s, st', hshrink, hsame, -⟩ := hkeeps ⟨by decide, by decide, by decide, rfl⟩
    obtain ⟨-, rfl⟩ := Runs.ok_pair_inj hshrink
    exact absurd hsame.usable (by decide)

end DataMonkey.Flex
