import Mathlib.Data.List.Nodup
import DataMonkey.Flex.Access

/- `flex_traverse`.

   The two loops find the sizes of the blocks again, with local counters that start at 0 where
   `flex_grow` starts at 1 and test the parity before they count. The action is any function
   of the memory, of the pointer it is called with and of a state of its own; it answers with
   a status and the value that it leaves in the cell.

     1. `next_sizesAt` — the local counters follow the blocks;
     2. `flexTraverse_spec` — the two loops are one loop over the pointers to the cells;
     3. `flexGet_pointers` — these are the pointers that `flex_get` returns, in order;
     4. `flex_traverse_visits` — what a traversal visits, returns, and leaves alone. -/
namespace DataMonkey.Flex

open Blocked Superblock

/-! ## The model -/

abbrev Action (σ : Type) := State → Ptr → σ → Dstatus × Int32 × σ

/-- A traversal under way: the flex, the state of the action, and the calls made so far. -/
structure Walk (σ : Type) where
  st : State
  own : σ
  calls : List (Ptr × Dstatus)

/-- `*p = v` -/
def store (st : State) (p : Ptr) (v : Int32) : State :=
  match p with
  | .cell a e => { st with heap := st.heap.write a (((st.heap.cell a).getD []).set e v) }
  | _ => st

variable {σ : Type}

/-- `action(p)`, and whether it returned `SUCCESS`. -/
def call (action : Action σ) (w : Walk σ) (p : Ptr) : Bool × Walk σ :=
  let (status, v, own) := action w.st p w.own
  (decide (status = .success),
    { st := store w.st p v, own := own, calls := w.calls ++ [(p, status)] })

/-- `action(&index_block[x][y])`, on a cell that is there. -/
def visit (action : Action σ) (x : Nat) (w : Walk σ) (y : Nat) : Except Fault (Bool × Walk σ) := do
  let a ← slot w.st.flex x
  let vs ← load w.st.heap a
  if y < vs.length then .ok (call action w (.cell a y)) else .error .cellBound

/-- The local counters. -/
structure Sizes where
  dataSize : Nat
  superCount : Nat
  superLastCount : Nat
  superSize : Nat

def Sizes.init : Sizes :=
  { dataSize := 1, superCount := 0, superLastCount := 0, superSize := 1 }

/-- The counters at the end of a round of the outer loop. -/
def Sizes.next (z : Sizes) : Sizes :=
  let z := { z with superLastCount := z.superLastCount + 1 }
  if z.superLastCount = z.superSize then
    let z := { z with superLastCount := 0 }
    if z.superCount % 2 ≠ 0 then
      { z with superSize := z.superSize * 2, superCount := z.superCount + 1 }
    else { z with dataSize := z.dataSize * 2, superCount := z.superCount + 1 }
  else z

/-- A round of the outer loop. After a call that failed the counters are not looked at. -/
def traverseBlock (action : Action σ) (p : Sizes × Walk σ) (x : Nat) :
    Except Fault (Bool × Sizes × Walk σ) := do
  let (go, w) ← Runs.forEachM (visit action x) p.2 (List.range' 0 p.1.dataSize)
  .ok (go, p.1.next, w)

def flexTraverse (action : Action σ) (st : State) (own : σ) : Except Fault (Dstatus × Walk σ) := do
  let (go, _, w) ← Runs.forEachM (traverseBlock action)
    (Sizes.init, { st := st, own := own, calls := [] })
    (List.range' 0 (st.flex.lastIndexOccup + 1))
  .ok (if go then .success else .failure, w)

/-! ## The local counters -/

/-- The counters at the beginning of the round for block `x`. -/
def sizesAt (x : Nat) : Sizes :=
  { dataSize := size x, superCount := (pos x).1, superLastCount := (pos x).2
    superSize := superSize (pos x).1 }

theorem init_eq : Sizes.init = sizesAt 0 := rfl

theorem next_sizesAt (x : Nat) : (sizesAt x).next = sizesAt (x + 1) := by
  obtain ⟨s, o, hp⟩ : ∃ s o, pos x = (s, o) := ⟨_, _, rfl⟩
  have hnext := pos_succ x
  rw [hp] at hnext
  unfold Sizes.next sizesAt size
  rw [hp]
  by_cases hfull : o + 1 = superSize s
  · rw [if_pos hfull] at hnext
    rw [hnext]
    simp only [if_pos hfull]
    -- the parity tested is that of the superblock that was filled
    rcases Nat.mod_two_eq_zero_or_one s with h | h
    · rw [if_neg (by omega), dataSize_even h, superSize_even h]
    · rw [if_pos (by omega), dataSize_odd h, superSize_odd h]
  · rw [if_neg hfull] at hnext
    rw [hnext]
    simp only [if_neg hfull]

/-! ## One loop over the pointers -/

/-- The pointers to the cells of a block. -/
def blockPointers (b : Addr × List Int32) : List Ptr := (List.range' 0 b.2.length).map (.cell b.1)

/-- The pointers to the cells of all blocks, in order. -/
def pointers (bs : List (Addr × List Int32)) : List Ptr := (bs.map blockPointers).flatten

/-- The blocks are where they were, with as many cells. -/
structure SameShape (st st' : State) : Prop where
  flex : st'.flex = st.flex
  lengths : ∀ a, (st'.heap.cell a).map List.length = (st.heap.cell a).map List.length

theorem SameShape.store {st st' : State} (h : SameShape st st') (p : Ptr) (v : Int32) :
    SameShape st (store st' p v) := by
  cases p with
  | flex => exact h
  | index => exact h
  | cell a e =>
    refine ⟨h.flex, fun b => ?_⟩
    rw [← h.lengths b]
    show (((st'.heap.write a _).cell b).map List.length) = _
    by_cases hba : b = a
    · subst hba
      cases hc : st'.heap.cell b with
      | none => rw [Store.cell_write_dead hc]
      | some vs =>
        rw [Store.cell_write_self hc]
        simp only [Option.getD_some, Option.map_some, List.length_set]
    · rw [Store.cell_write_ne hba]

section Loops

variable {st : State} {bs : List (Addr × List Int32)} {action : Action σ}

/-- On a cell of the flex the action is called. -/
theorem visit_spec (H : Holds st bs) {x : Nat} {a : Addr} {vs : List Int32}
    (hx : bs[x]? = some (a, vs)) {y : Nat} (hy : y < vs.length) {w : Walk σ}
    (hw : SameShape st w.st) :
    visit action x w y = .ok (call action w (.cell a y)) ∧
      SameShape st (call action w (.cell a y)).2.st := by
  obtain ⟨hslot, hcell⟩ := H.slot_eq hx
  have hlen := hw.lengths a
  rw [load_eq_ok.mp hcell, Option.map_some] at hlen
  obtain ⟨us, hus, hlen⟩ := Option.map_eq_some_iff.mp hlen
  rw [← hw.flex] at hslot
  refine ⟨?_, hw.store (.cell a y) _⟩
  simp only [visit, hslot, load_eq_ok.mpr hus, Runs.ok_bind]
  exact if_pos (by omega)

/-- The outer loop from block `A.length` on. -/
theorem traverse_blocks (action : Action σ) (B : List (Addr × List Int32)) :
    ∀ (A : List (Addr × List Int32)) (w : Walk σ), Holds st (A ++ B) → SameShape st w.st →
    ∃ z, Runs.forEachM (traverseBlock action) (sizesAt A.length, w)
        (List.range' A.length B.length) =
      .ok ((Runs.forEach (call action) w (pointers B)).1, z,
        (Runs.forEach (call action) w (pointers B)).2) := by
  induction B with
  | nil => exact fun A w _ _ => ⟨_, rfl⟩
  | cons b B ih =>
    intro A w H hw
    have hget : (A ++ b :: B)[A.length]? = some (b.1, b.2) := by simp
    have hlen : b.2.length = size A.length := by
      apply H.sized
      rw [List.getElem?_map, hget]
      rfl
    -- the inner loop goes over the cells of the block
    obtain ⟨hinner, hw'⟩ :
        Runs.forEachM (visit action A.length) w (List.range' 0 (size A.length)) =
          .ok (Runs.forEach (call action) w (blockPointers b)) ∧
        SameShape st (Runs.forEach (call action) w (blockPointers b)).2.st := by
      rw [blockPointers, hlen]
      apply Runs.forEachM_eq (Ptr.cell b.1) (fun u : Walk σ => SameShape st u.st) _ _ hw
      intro y hy u hu
      rw [List.mem_range'_1, Nat.zero_add, ← hlen] at hy
      exact visit_spec H hget hy.2 hu
    have hstep : traverseBlock action (sizesAt A.length, w) A.length =
        .ok ((Runs.forEach (call action) w (blockPointers b)).1, sizesAt (A.length + 1),
          (Runs.forEach (call action) w (blockPointers b)).2) := by
      rw [traverseBlock, ← next_sizesAt]
      show (Runs.forEachM (visit action A.length) w (List.range' 0 (size A.length)) >>= _) = _
      rw [hinner]
      rfl
    have hpointers : pointers (b :: B) = blockPointers b ++ pointers B := rfl
    rw [hpointers, Runs.forEach_append, List.length_cons, List.range'_succ]
    cases hgo : (Runs.forEach (call action) w (blockPointers b)).1 with
    | true =>
      have hrest := ih (A ++ [b]) (Runs.forEach (call action) w (blockPointers b)).2
        (by rw [List.append_assoc]; exact H) hw'
      rw [List.length_append, List.length_singleton] at hrest
      simp only [Runs.forEachM, hstep, hgo, Runs.ok_bind, if_true]
      exact hrest
    | false =>
      simp only [Runs.forEachM, hstep, hgo, Runs.ok_bind, Bool.false_eq_true, if_false]
      exact ⟨_, rfl⟩

/-- The two loops call the action on the cells, one after the other, until it fails. -/
theorem flexTraverse_spec (H : Holds st bs) (action : Action σ) (own : σ) :
    flexTraverse action st own = .ok
      (if (Runs.forEach (call action) ⟨st, own, []⟩ (pointers bs)).1 then .success else .failure,
        (Runs.forEach (call action) ⟨st, own, []⟩ (pointers bs)).2) := by
  obtain ⟨z, hrun⟩ := traverse_blocks action bs [] ⟨st, own, []⟩ H ⟨rfl, fun _ => rfl⟩
  rw [List.length_nil, H.length] at hrun
  rw [flexTraverse, init_eq, hrun]
  rfl

end Loops

/-! ## The pointers of `flex_get` -/

section Pointers

variable {st : State} {bs : List (Addr × List Int32)}

theorem mem_blockPointers {b : Addr × List Int32} {p : Ptr} :
    p ∈ blockPointers b ↔ ∃ e < b.2.length, p = .cell b.1 e := by
  rw [blockPointers, List.mem_map]
  refine ⟨?_, ?_⟩
  · intro h
    obtain ⟨e, he, rfl⟩ := h
    rw [List.mem_range'_1, Nat.zero_add] at he
    exact ⟨e, he.2, rfl⟩
  · intro h
    obtain ⟨e, he, rfl⟩ := h
    refine ⟨e, ?_, rfl⟩
    rw [List.mem_range'_1, Nat.zero_add]
    exact ⟨Nat.zero_le e, he⟩

theorem Holds.sized_pointers (H : Holds st bs) : Sized size (bs.map blockPointers) := by
  intro x ps hx
  rw [List.getElem?_map] at hx
  obtain ⟨b, hb, rfl⟩ := Option.map_eq_some_iff.mp hx
  rw [blockPointers, List.length_map, List.length_range']
  apply H.sized
  rw [List.getElem?_map, hb]
  rfl

theorem length_pointers (H : Holds st bs) : (pointers bs).length = st.flex.usableDataBlocks := by
  rw [pointers, H.sized_pointers.length_flatten, List.length_map, H.length, H.counters.usable]

/-- No cell is pointed to twice. -/
theorem nodup_pointers (H : Holds st bs) : (pointers bs).Nodup := by
  rw [pointers, List.nodup_flatten]
  refine ⟨?_, ?_⟩
  · intro ps hps
    obtain ⟨b, -, rfl⟩ := List.mem_map.mp hps
    apply List.Nodup.map _ List.nodup_range'
    exact fun e f h => (Ptr.cell.inj h).2
  · -- pointers into different blocks have different addresses
    rw [List.pairwise_map]
    refine (List.pairwise_map.mp H.nodup).imp fun hne p hp hq => ?_
    obtain ⟨e, -, rfl⟩ := mem_blockPointers.mp hp
    obtain ⟨f, -, heq⟩ := mem_blockPointers.mp hq
    exact hne (Ptr.cell.inj heq).1

/-- `flex_get` returns the pointers in order, and NULL behind them. -/
theorem flexGet_pointers (H : Holds st bs) {i : Nat} (hi : i < 2 ^ 60 - 1) :
    flexGet st i = .ok (pointers bs)[i]? := by
  by_cases hin : i < st.flex.usableDataBlocks
  · obtain ⟨A, a, vs, B, e, hloc, rfl, hle, he, hcell, hslot, -, hlen⟩ := locate_in H hi hin
    have hsized := H.sized_pointers
    rw [List.map_append, List.map_cons] at hsized
    have hget := hsized.getElem?_flatten (e := e) (by rw [List.length_map]; exact he)
    rw [List.length_map, hcell] at hget
    have hptr : (blockPointers (a, vs))[e]? = some (.cell a e) := by
      rw [blockPointers, List.getElem?_map, List.getElem?_range' (by rw [hlen]; exact he),
        Nat.zero_add, Nat.one_mul]
      rfl
    simp only [flexGet, hloc, Runs.ok_bind, if_neg (Nat.not_lt.mpr hle), hslot, pointers,
      List.map_append, List.map_cons, hget, hptr]
  · have hout : st.flex.usableDataBlocks ≤ i := Nat.le_of_not_lt hin
    rw [flexGet_out H hi hout, List.getElem?_eq_none (by rw [length_pointers H]; exact hout)]

end Pointers

/-! ## What a traversal does -/

/-- A store through one pointer is not seen through another. -/
theorem deref_store {st : State} {p q : Ptr} (hne : q ≠ p) (v : Int32) :
    deref (store st p v) q = deref st q := by
  cases p with
  | flex => rfl
  | index => rfl
  | cell a e =>
    cases q with
    | flex => rfl
    | index => rfl
    | cell b f =>
      by_cases hba : b = a
      · subst hba
        have hfe : e ≠ f := fun h => hne (h ▸ rfl)
        cases hc : st.heap.cell b with
        | none =>
          simp only [store, deref, load, Store.cell_write_dead hc, hc]
        | some vs =>
          simp only [store, deref, load, Store.cell_write_self hc, hc, Option.getD_some,
            Runs.ok_bind, List.getElem?_set_ne hfe]
      · simp only [store, deref, load, Store.cell_write_ne hba]

/-- The calls that a traversal of the cells at `ps` made, the status `s` that it returned and
    the state `w` that it left: all of them with `SUCCESS`, or a first one without it, after
    which there was no other. What no call was made on is as before. -/
structure Visited (st : State) (ps : List Ptr) (s : Dstatus) (w : Walk σ) : Prop where
  outcome : (s = .success ∧ w.calls = ps.map (·, .success)) ∨
    (s = .failure ∧ ∃ before p after t, ps = before ++ p :: after ∧ t ≠ .success ∧
      w.calls = before.map (·, .success) ++ [(p, t)])
  flex : w.st.flex = st.flex
  rest : ∀ q, q ∉ w.calls.map Prod.fst → deref w.st q = deref st q

/-- One call: what it reported, and the cell it may have written. -/
theorem call_spec (action : Action σ) (w : Walk σ) (p : Ptr) :
    ∃ t, (call action w p).1 = decide (t = .success) ∧
      (call action w p).2.calls = w.calls ++ [(p, t)] ∧
      (call action w p).2.st.flex = w.st.flex ∧
      ∀ q, q ≠ p → deref (call action w p).2.st q = deref w.st q := by
  refine ⟨(action w.st p w.own).1, rfl, rfl, ?_, fun q hq => deref_store hq _⟩
  show (store w.st p _).flex = _
  cases p with
  | flex => rfl
  | index => rfl
  | cell a e => rfl

theorem forEach_call (action : Action σ) (ps : List Ptr) : ∀ w : Walk σ,
    ∃ new, (Runs.forEach (call action) w ps).2.calls = w.calls ++ new ∧
      (((Runs.forEach (call action) w ps).1 = true ∧ new = ps.map (·, .success)) ∨
        ((Runs.forEach (call action) w ps).1 = false ∧ ∃ before p after t,
          ps = before ++ p :: after ∧ t ≠ .success ∧
            new = before.map (·, .success) ++ [(p, t)])) ∧
      (Runs.forEach (call action) w ps).2.st.flex = w.st.flex ∧
      ∀ q, q ∉ new.map Prod.fst →
        deref (Runs.forEach (call action) w ps).2.st q = deref w.st q := by
  induction ps with
  | nil => exact fun w => ⟨[], (List.append_nil _).symm, Or.inl ⟨rfl, rfl⟩, rfl, fun _ _ => rfl⟩
  | cons p ps ih =>
    intro w
    obtain ⟨t, hgo, hcalls, hflex, hrest⟩ := call_spec action w p
    by_cases hs : t = .success
    · -- the loop goes on from the state that the call left
      have hrun : Runs.forEach (call action) w (p :: ps) =
          Runs.forEach (call action) (call action w p).2 ps := by
        rw [Runs.forEach_cons, hgo, decide_eq_true hs]
        rfl
      obtain ⟨new, hnew, hout, hflex', hrest'⟩ := ih (call action w p).2
      rw [hrun]
      refine ⟨(p, t) :: new, ?_, ?_, hflex'.trans hflex, fun q hq => ?_⟩
      · rw [hnew, hcalls, List.append_assoc]
        rfl
      · rw [hs]
        rcases hout with ⟨h, rfl⟩ | ⟨h, before, r, after, u, rfl, hu, rfl⟩
        · exact Or.inl ⟨h, rfl⟩
        · exact Or.inr ⟨h, p :: before, r, after, u, rfl, hu, rfl⟩
      · rw [List.map_cons, List.mem_cons, not_or] at hq
        rw [hrest' q hq.2, hrest q hq.1]
    · have hrun : Runs.forEach (call action) w (p :: ps) = (false, (call action w p).2) := by
        rw [Runs.forEach_cons, hgo, decide_eq_false hs]
        rfl
      rw [hrun]
      refine ⟨[(p, t)], hcalls, Or.inr ⟨rfl, [], p, ps, t, rfl, hs, rfl⟩, hflex, fun q hq => ?_⟩
      rw [List.map_singleton, List.mem_singleton] at hq
      exact hrest q hq

/-- After every session: `flex_traverse` calls the action on the cells at the addresses that
    `flex_get` returns for the indices below the capacity, in this order, each once, until a
    call fails, and changes nothing else. -/
theorem flex_traverse_visits (junk : Int32) (calls : List Call) :
    ∃ os st ps, session junk calls = .ok (os, st) ∧
      ps.length = st.flex.usableDataBlocks ∧ ps.Nodup ∧
      (∀ i < 2 ^ 60 - 1, flexGet st i = .ok ps[i]?) ∧
      ∀ (σ : Type) (action : Action σ) (own : σ), ∃ s w,
        flexTraverse action st own = .ok (s, w) ∧
        Runs.forEach (call action) ⟨st, own, []⟩ ps = (decide (s = .success), w) ∧
        Visited st ps s w := by
  obtain ⟨os, st, bs, hrun, H, -⟩ := session_spec junk calls
  refine ⟨os, st, pointers bs, hrun, length_pointers H, nodup_pointers H,
    fun i hi => flexGet_pointers H hi, fun σ action own => ?_⟩
  have htraverse := flexTraverse_spec H action own
  obtain ⟨new, hnew, hout, hflex, hrest⟩ := forEach_call action (pointers bs) ⟨st, own, []⟩
  cases hres : Runs.forEach (call action) ⟨st, own, []⟩ (pointers bs) with
  | mk go w =>
    rw [hres] at htraverse hnew hout hflex hrest
    rw [List.nil_append] at hnew
    refine ⟨_, w, htraverse, ?_, ?_, hflex, fun q hq => hrest q (hnew ▸ hq)⟩
    · cases go <;> rfl
    · rcases hout with ⟨rfl, hall⟩ | ⟨rfl, before, p, after, t, hps, ht, hall⟩
      · exact Or.inl ⟨rfl, hnew.trans hall⟩
      · exact Or.inr ⟨rfl, before, p, after, t, hps, ht, hnew.trans hall⟩

end DataMonkey.Flex
