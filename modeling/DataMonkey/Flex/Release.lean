import DataMonkey.Flex.Spent
import DataMonkey.Flex.Traverse

/- `flex_destroy` and `flex_nuke`, at the end of a run.

   `free` is the log of the pointers it was called with, over the whole run: `flex_shrink`
   frees blocks on the way, the two teardowns free those that are left, the index and the
   flex. `flex_nuke` first calls the installed `free_func` with a pointer to every cell. The
   one that `flex_init` installs frees that pointer: the blocks are then freed twice, and the
   interior of a block is freed too.

   Correspondence (C ↔ Lean):
     `flex_destroy`, `flex_nuke`        ↔ `flexDestroy`, `flexNuke`
     `default_free`, `flex_change_free` ↔ `defaultFree`, `flexChangeFree`

     1. `session_ledger` — in every run the blocks that were freed and the blocks that are
        left are those that were allocated, each once;
     2. `flexDestroy_spec`, `flexNuke_spec` — what the two add to the log;
     3. `flex_teardown` — `flex_destroy` releases every allocation once, `flex_nuke` with
        `default_free` does not. -/
namespace DataMonkey.Flex

open Blocked Superblock

/-! ## The model -/

/-- `free(p)`; no block is read or written in a teardown, so the log is all there is to it. -/
def release (st : State) (p : Ptr) : State := { st with freed := p :: st.freed }

/-- `free(index_block[x])` -/
def releaseBlock (st : State) (x : Nat) : Except Fault State := do
  let a ← slot st.flex x
  .ok (release st (.cell a 0))

/-- The blocks, the index and the flex. -/
def releaseAll (st : State) : Except Fault State := do
  let st ← (List.range' 0 (st.flex.lastIndexOccup + 1)).foldlM releaseBlock st
  .ok (release (release st .index) .flex)

def flexDestroy (st : State) : Except Fault (Dstatus × State) := do
  let st ← releaseAll st
  .ok (.success, st)

/-- What a cell holds that the action does not write. -/
def held (st : State) (p : Ptr) : Int32 :=
  match deref st p with
  | .ok v => v
  | .error _ => 0

def defaultFree : Action (List Ptr) := fun st p log => (.success, held st p, p :: log)

/-- The `free_func` that is called; `custom` is the caller's. -/
def freeAction (custom : Action (List Ptr)) : FreeFunc → Action (List Ptr)
  | .defaultFree => defaultFree
  | .custom => custom

def flexChangeFree (st : State) : Dstatus × State :=
  (.success, { st with flex.freeFunc := .custom })

/-- The action of the traversal goes on with the log. -/
def flexNuke (custom : Action (List Ptr)) (st : State) : Except Fault (Dstatus × State) := do
  let (status, w) ← flexTraverse (freeAction custom st.flex.freeFunc) st st.freed
  let st := { w.st with freed := w.own }
  if status = .success then
    let st ← releaseAll st
    .ok (.success, st)
  else .ok (.failure, st)

/-! ## What is to be released -/

/-- The pointers that the allocations of the run returned: the heap hands out its addresses
    in order. The index counts once, wherever `realloc` has moved it. -/
def allocations (st : State) : List Ptr :=
  .flex :: .index :: (List.range st.heap.next).map (Ptr.cell · 0)

/-- The log has every allocation exactly once, and nothing else. -/
def ReleasedOnce (st : State) : Prop :=
  ∀ p, st.freed.count p = if p ∈ allocations st then 1 else 0

/-- During the run: what was freed are blocks that are dead, each of them once, and with the
    blocks that are left they are as many as were allocated. -/
structure Ledger (st : State) : Prop where
  freeFunc : st.flex.freeFunc = .defaultFree
  once : st.freed.Nodup
  dead : ∀ p ∈ st.freed, ∃ a < st.heap.next, p = .cell a 0 ∧ st.heap.cell a = none
  count : st.freed.length + (st.flex.lastIndexOccup + 1) = st.heap.next

theorem fresh_ledger (junk : Int32) : Ledger (fresh junk) :=
  ⟨rfl, List.nodup_nil, fun _ hp => absurd hp List.not_mem_nil, rfl⟩

/-! ## The ledger of a run -/

/-- What a granted `flex_grow` does to the heap and to the log. -/
structure Acquires (st st' : State) : Prop where
  freeFunc : st'.flex.freeFunc = st.flex.freeFunc
  freed : st'.freed = st.freed
  heap : (st'.heap = st.heap ∧ st'.flex.lastIndexOccup = st.flex.lastIndexOccup) ∨
    ∃ zeros, st'.heap = st.heap.alloc zeros ∧
      st'.flex.lastIndexOccup = st.flex.lastIndexOccup + 1

section Ledger

variable {st st' : State} {s : Dstatus}

theorem resizeIndex_log (grants : Nat → Bool) (st : State) :
    (resizeIndex grants st).2.freed = st.freed ∧
      (resizeIndex grants st).2.flex.freeFunc = st.flex.freeFunc := by
  unfold resizeIndex
  split
  · exact ⟨rfl, rfl⟩
  · exact ⟨rfl, rfl⟩

theorem growIndex_log (grants : Nat → Bool) (st : State) :
    (growIndex grants st).2.freed = st.freed ∧
      (growIndex grants st).2.flex.freeFunc = st.flex.freeFunc := by
  unfold growIndex
  split
  · exact resizeIndex_log grants { st with flex.indexLength := st.flex.indexLength * 2 }
  · exact ⟨rfl, rfl⟩

theorem shrinkIndex_log (grants : Nat → Bool) (st : State) :
    (shrinkIndex grants st).2.freed = st.freed ∧
      (shrinkIndex grants st).2.flex.freeFunc = st.flex.freeFunc := by
  unfold shrinkIndex
  split
  · exact resizeIndex_log grants
      { st with flex.indexLength := ceiling st.flex.indexLength 2 }
  · exact ⟨rfl, rfl⟩

theorem growIndex_granted (st : State) : (growIndex granted st).1 = true := by
  unfold growIndex
  split
  · rfl
  · rfl

theorem flexGrow_acquires (h : flexGrow granted st = .ok (s, st')) : Acquires st st' := by
  by_cases hfull : st.flex.numUserElementsInserted = st.flex.usableDataBlocks
  · obtain ⟨hF, hlast⟩ := enterBlock_frame st.flex
    have hcar := growIndex_carried granted { st with flex := enterBlock st.flex }
    obtain ⟨hfreed, hfunc⟩ := growIndex_log granted { st with flex := enterBlock st.flex }
    have hyes := growIndex_granted { st with flex := enterBlock st.flex }
    cases hgrow : growIndex granted { st with flex := enterBlock st.flex } with
    | mk b t =>
      rw [hgrow] at hcar hfreed hfunc hyes
      obtain rfl : b = true := hyes
      have hheap : t.heap = st.heap := hcar.heap
      simp only [flexGrow, if_pos hfull, hgrow, if_true, addBlock, granted] at h
      split at h
      · rw [← (Runs.ok_pair_inj h).2]
        refine ⟨hfunc.trans hF.freeFunc, hfreed,
          Or.inr ⟨List.replicate t.flex.lastDataSize 0, ?_, hcar.last.trans hlast⟩⟩
        rw [← hheap]
      · cases h
  · simp only [flexGrow, if_neg hfull] at h
    rw [← (Runs.ok_pair_inj h).2]
    exact ⟨rfl, rfl, Or.inl ⟨rfl, rfl⟩⟩

theorem Ledger.grow (L : Ledger st) (h : flexGrow granted st = .ok (s, st')) : Ledger st' := by
  obtain ⟨hfunc, hfreed, hheap⟩ := flexGrow_acquires h
  have hcount := L.count
  rcases hheap with ⟨hheap, hlast⟩ | ⟨zeros, hheap, hlast⟩
  · refine ⟨hfunc.trans L.freeFunc, ?_, ?_, ?_⟩
    · rw [hfreed]
      exact L.once
    · rw [hfreed, hheap]
      exact L.dead
    · rw [hfreed, hheap, hlast]
      exact hcount
  · refine ⟨hfunc.trans L.freeFunc, ?_, ?_, ?_⟩
    · rw [hfreed]
      exact L.once
    · intro p hp
      rw [hfreed] at hp
      obtain ⟨a, hlt, hpa, hdead⟩ := L.dead p hp
      rw [hheap]
      exact ⟨a, Nat.lt_succ_of_lt hlt, hpa, Store.cell_alloc_dead hlt hdead⟩
    · rw [hfreed, hheap, hlast]
      show _ = st.heap.next + 1
      omega

/-- A write brings no block back. -/
theorem Ledger.write (L : Ledger st) {x e : Nat} {v : Int32}
    (h : writeCell st x e v = .ok st') : Ledger st' := by
  obtain ⟨a, -, h⟩ := Runs.bind_eq_ok.mp h
  obtain ⟨vs, -, h⟩ := Runs.bind_eq_ok.mp h
  split at h
  · rw [← Except.ok.inj h]
    refine ⟨L.freeFunc, L.once, ?_, L.count⟩
    intro p hp
    obtain ⟨b, hlt, hpb, hdead⟩ := L.dead p hp
    exact ⟨b, hlt, hpb, Store.cell_write_dead hdead⟩
  · cases h

/-- What a `flex_shrink` that gives up a block does to the heap and to the log. -/
theorem flexShrink_frees_last (h0 : st.flex.numUserElementsInserted ≠ 0) (hf : frees st.flex)
    (h : flexShrink granted st = .ok (s, st')) :
    ∃ a vs, st.heap.cell a = some vs ∧ st'.heap = st.heap.free a ∧
      st'.freed = .cell a 0 :: st.freed ∧ st'.flex.freeFunc = st.flex.freeFunc := by
  obtain ⟨a, vs, t, -, hlive, rfl, hst'⟩ := flexShrink_giveUp h0 hf h
  obtain ⟨hfreed, hfunc⟩ := shrinkIndex_log granted (st.giveUp a)
  have hheap := (shrinkIndex_carried granted (st.giveUp a)).heap
  obtain ⟨hF, -⟩ := leaveBlock_frame (shrinkIndex granted (st.giveUp a)).2.flex
  refine ⟨a, vs, hlive, ?_⟩
  rcases hst' with rfl | rfl
  · exact ⟨hheap, hfreed, hF.freeFunc.trans hfunc⟩
  · exact ⟨hheap, hfreed, hfunc⟩

/-- A live block is not in the log. -/
theorem Ledger.not_freed (L : Ledger st) {a : Addr} {vs : List Int32} (e : Nat)
    (hlive : st.heap.cell a = some vs) : .cell a e ∉ st.freed := by
  intro hp
  obtain ⟨b, -, hpb, hdead⟩ := L.dead _ hp
  rw [← (Ptr.cell.inj hpb).1, hlive] at hdead
  cases hdead

theorem Ledger.shrink {bs : List (Addr × List Int32)} (L : Ledger st) (H : Holds st bs)
    (h : flexShrink granted st = .ok (s, st')) : Ledger st' := by
  by_cases h0 : st.flex.numUserElementsInserted = 0
  · rw [flexShrink_empty h0] at h
    rw [← (Runs.ok_pair_inj h).2]
    exact L
  by_cases hf : frees st.flex
  · obtain ⟨r, t, left, hrun, H', -, -, hbs⟩ := flexShrink_spec H h0
    obtain ⟨-, rfl⟩ := Runs.ok_pair_inj (hrun.symm.trans h)
    obtain ⟨-, -, b, c, rfl⟩ := hbs.resolve_left fun hno => hno.1 hf
    obtain ⟨a, vs, hlive, hheap, hfreed, hfunc⟩ := flexShrink_frees_last h0 hf h
    -- one block less in the flex, one more in the log
    have hlast : t.flex.lastIndexOccup + 1 + 1 = st.flex.lastIndexOccup + 1 := by
      rw [← H.length, ← H'.length, List.length_append, List.length_singleton]
    refine ⟨hfunc.trans L.freeFunc, ?_, ?_, ?_⟩
    · rw [hfreed]
      exact L.once.cons (L.not_freed 0 hlive)
    · intro p hp
      rw [hfreed] at hp
      rw [hheap]
      rcases List.mem_cons.mp hp with rfl | hp
      · exact ⟨a, Store.lt_next (h := st.heap) hlive, rfl, Store.cell_free_self _ _⟩
      · obtain ⟨d, hlt, hpd, hdead⟩ := L.dead p hp
        exact ⟨d, hlt, hpd, Store.cell_free_dead hdead⟩
    · have hcount := L.count
      rw [hfreed, hheap, List.length_cons]
      show _ = st.heap.next
      omega
  · simp only [flexShrink, if_neg h0, if_neg hf] at h
    rw [← (Runs.ok_pair_inj h).2]
    exact ⟨L.freeFunc, L.once, L.dead, L.count⟩

theorem session_ledger (junk : Int32) (calls : List Call) :
    ∃ os st bs, session junk calls = .ok (os, st) ∧ Holds st bs ∧ Ledger st := by
  obtain ⟨os, st, hrun, ⟨bs, H, -⟩, L⟩ := Runs.run_total (flexStep granted)
    (fun _ st => (∃ bs, Holds st bs ∧ st.flex.cmpFunc = defaultCmp) ∧ Ledger st)
    (fun past st c ⟨⟨bs, H, hcmp⟩, L⟩ => by
      obtain ⟨o, st', bs', hrun, H', hcmp', -⟩ := flexStep_spec H hcmp c
      refine ⟨o, st', hrun, ⟨bs', H', hcmp'⟩, ?_⟩
      exact flexStep_keeps (P := Ledger) (fun _ _ _ L h => L.grow h)
        (fun _ _ _ _ _ L h => L.write h) (fun _ _ h => L.shrink H h) L hrun)
    calls [] (fresh junk) ⟨⟨_, fresh_spec junk, rfl⟩, fresh_ledger junk⟩
  exact ⟨os, st, bs, hrun, H, L⟩

end Ledger

/-- `&index_block[x][0]` -/
def blockStart (b : Addr × List Int32) : Ptr := .cell b.1 0

/-- What was freed and what is left: every block that was allocated. -/
theorem Ledger.perm {st : State} {bs : List (Addr × List Int32)} (L : Ledger st)
    (H : Holds st bs) :
    (bs.map blockStart ++ st.freed).Perm ((List.range st.heap.next).map (Ptr.cell · 0)) := by
  have hlive : ∀ b ∈ bs, st.heap.cell b.1 = some b.2 := by
    intro b hb
    obtain ⟨x, hx⟩ := List.mem_iff_getElem?.mp hb
    exact (H.block x b.1 b.2 hx).2
  have hnodup : (bs.map blockStart ++ st.freed).Nodup := by
    rw [List.nodup_append]
    refine ⟨?_, L.once, ?_⟩
    · have hmap : bs.map blockStart = (bs.map Prod.fst).map (Ptr.cell · 0) := by
        rw [List.map_map]
        rfl
      rw [hmap]
      exact H.nodup.map fun a b h => (Ptr.cell.inj h).1
    · intro p hp q hq hpq
      obtain ⟨b, hb, rfl⟩ := List.mem_map.mp hp
      rw [← hpq] at hq
      exact L.not_freed 0 (hlive b hb) hq
  have hsub : bs.map blockStart ++ st.freed ⊆
      (List.range st.heap.next).map (Ptr.cell · 0) := by
    intro p hp
    rcases List.mem_append.mp hp with hp | hp
    · obtain ⟨b, hb, rfl⟩ := List.mem_map.mp hp
      exact List.mem_map.mpr ⟨b.1, List.mem_range.mpr (Store.lt_next (hlive b hb)), rfl⟩
    · obtain ⟨a, hlt, rfl, -⟩ := L.dead p hp
      exact List.mem_map.mpr ⟨a, List.mem_range.mpr hlt, rfl⟩
  apply (List.subperm_of_subset hnodup hsub).perm_of_length_le
  rw [List.length_map, List.length_range, List.length_append, List.length_map, H.length,
    ← L.count]
  omega

/-- What was freed and what is left to be freed: every allocation. -/
def Accounted (st : State) (bs : List (Addr × List Int32)) : Prop :=
  (.flex :: .index :: (bs.map blockStart ++ st.freed)).Perm (allocations st)

theorem session_accounted (junk : Int32) (calls : List Call) :
    ∃ os st bs, session junk calls = .ok (os, st) ∧ Holds st bs ∧ Accounted st bs ∧
      st.flex.freeFunc = .defaultFree := by
  obtain ⟨os, st, bs, hrun, H, L⟩ := session_ledger junk calls
  exact ⟨os, st, bs, hrun, H, ((L.perm H).cons _).cons _, L.freeFunc⟩

/-! ## The two teardowns -/

section Teardown

variable {st : State} {bs : List (Addr × List Int32)}

/-- The last loop and the two calls behind it, on a flex with the index of `st`. -/
theorem releaseAll_spec (H : Holds st bs) {t : State} (ht : t.flex = st.flex) :
    ∃ t', releaseAll t = .ok t' ∧ t'.heap = t.heap ∧
      t'.freed.Perm (.flex :: .index :: (bs.map blockStart ++ t.freed)) := by
  obtain ⟨t₁, hloop, -, hheap, hfreed⟩ := Runs.foldlM_range' releaseBlock
    (fun x u => u.flex = st.flex ∧ u.heap = t.heap ∧
      u.freed.Perm ((bs.take x).map blockStart ++ t.freed))
    (t.flex.lastIndexOccup + 1) 0 t ⟨ht, rfl, List.Perm.refl _⟩ (by
      intro x u _ hx hu
      obtain ⟨hflex, hheap, hfreed⟩ := hu
      rw [ht, ← H.length, Nat.zero_add] at hx
      have hget : bs[x]? = some (bs[x].1, bs[x].2) := List.getElem?_eq_getElem hx
      refine ⟨release u (.cell bs[x].1 0), ?_, hflex, hheap, ?_⟩
      · rw [releaseBlock, hflex, (H.slot_eq hget).1]
        rfl
      · rw [List.take_succ_eq_append_getElem hx, List.map_append, List.append_assoc]
        exact (hfreed.cons _).trans List.perm_middle.symm)
  rw [ht, ← H.length, Nat.zero_add, List.take_length] at hfreed
  refine ⟨release (release t₁ .index) .flex, ?_, hheap, ?_⟩
  · rw [releaseAll, hloop]
    rfl
  · exact (hfreed.cons _).cons _

theorem flexDestroy_spec (H : Holds st bs) (A : Accounted st bs) :
    ∃ st', flexDestroy st = .ok (.success, st') ∧ st'.heap = st.heap ∧
      st'.freed.Perm (allocations st) := by
  obtain ⟨st', hrun, hheap, hfreed⟩ := releaseAll_spec H rfl
  refine ⟨st', ?_, hheap, hfreed.trans A⟩
  rw [flexDestroy, hrun]
  rfl

/-- A free function that never fails, and that frees `f p` when it is called with `p`. -/
structure Frees (action : Action (List Ptr)) (f : Ptr → List Ptr) : Prop where
  success : ∀ st p log, (action st p log).1 = .success
  log : ∀ st p log, (action st p log).2.2 = f p ++ log

theorem defaultFree_frees : Frees defaultFree fun p => [p] := ⟨fun _ _ _ => rfl, fun _ _ _ => rfl⟩

theorem Holds.changeFree (H : Holds st bs) : Holds (flexChangeFree st).2 bs := by
  have C := H.counters
  have hS := C.super
  exact ⟨⟨⟨hS.last, hS.superBlocks, hS.superOccup, hS.superSize, hS.dataSize⟩, C.usable, C.power,
    C.room, C.least, C.count⟩, H.length, H.sized, H.nodup, H.block, H.slots⟩

/-- A traversal with it goes over all pointers. -/
theorem forEach_frees {action : Action (List Ptr)} {f : Ptr → List Ptr} (hf : Frees action f)
    (ps : List Ptr) : ∀ w : Walk (List Ptr),
    ∃ w', Runs.forEach (call action) w ps = (true, w') ∧
      w'.own.Perm (ps.flatMap f ++ w.own) ∧ w'.st.flex = w.st.flex ∧
      w'.st.heap.next = w.st.heap.next := by
  induction ps with
  | nil => exact fun w => ⟨w, rfl, List.Perm.refl _, rfl, rfl⟩
  | cons p ps ih =>
    intro w
    have hgo : (call action w p).1 = true := decide_eq_true (hf.success w.st p w.own)
    have hown : (call action w p).2.own = f p ++ w.own := hf.log w.st p w.own
    have hst : (call action w p).2.st.flex = w.st.flex ∧
        (call action w p).2.st.heap.next = w.st.heap.next := by
      cases p with
      | flex => exact ⟨rfl, rfl⟩
      | index => exact ⟨rfl, rfl⟩
      | cell a e => exact ⟨rfl, rfl⟩
    obtain ⟨w', hrun, hperm, hflex, hnext⟩ := ih (call action w p).2
    refine ⟨w', ?_, ?_, hflex.trans hst.1, hnext.trans hst.2⟩
    · rw [Runs.forEach_cons, hgo, if_pos rfl, hrun]
    · rw [hown, ← List.append_assoc] at hperm
      rw [List.flatMap_cons]
      exact hperm.trans (List.perm_append_comm.append_right _)

theorem flexNuke_spec (H : Holds st bs) (A : Accounted st bs) {custom : Action (List Ptr)}
    {f : Ptr → List Ptr} (hf : Frees (freeAction custom st.flex.freeFunc) f) :
    ∃ st', flexNuke custom st = .ok (.success, st') ∧ st'.heap.next = st.heap.next ∧
      st'.freed.Perm ((pointers bs).flatMap f ++ allocations st) := by
  obtain ⟨w, hwalk, hown, hflex, hnext⟩ := forEach_frees hf (pointers bs) ⟨st, st.freed, []⟩
  obtain ⟨st', hrun, hheap, hfreed⟩ := releaseAll_spec H
    (t := { w.st with freed := w.own }) hflex
  refine ⟨st', ?_, ?_, ?_⟩
  · rw [flexNuke, flexTraverse_spec H, hwalk]
    show (releaseAll { w.st with freed := w.own } >>= _) = _
    rw [hrun]
    rfl
  · rw [hheap]
    exact hnext
  · -- the calls of the traversal, in front of everything else
    calc List.Perm st'.freed (.flex :: .index :: (bs.map blockStart ++ w.own)) := hfreed
      List.Perm _ (.flex :: .index ::
            (bs.map blockStart ++ ((pointers bs).flatMap f ++ st.freed))) :=
          ((hown.append_left _).cons _).cons _
      List.Perm _ ((pointers bs).flatMap f ++
            (.flex :: .index :: (bs.map blockStart ++ st.freed))) :=
          List.perm_append_comm_assoc (.flex :: .index :: bs.map blockStart) _ _
      List.Perm _ ((pointers bs).flatMap f ++ allocations st) :=
          A.append_left _

/-! ## What the log says in the end -/

theorem nodup_allocations (st : State) : (allocations st).Nodup := by
  have hblocks : ((List.range st.heap.next).map (Ptr.cell · 0)).Nodup :=
    List.nodup_range.map fun a b h => (Ptr.cell.inj h).1
  simp only [allocations, List.nodup_cons, List.mem_cons, List.mem_map, reduceCtorEq, and_false,
    exists_false, or_self, not_false_iff, true_and]
  exact hblocks

theorem cell_mem_allocations {a : Addr} {e : Nat} (ha : a < st.heap.next) :
    .cell a e ∈ allocations st ↔ e = 0 := by
  simp only [allocations, List.mem_cons, List.mem_map, List.mem_range, reduceCtorEq, false_or,
    Ptr.cell.injEq]
  refine ⟨?_, ?_⟩
  · intro h
    obtain ⟨b, -, -, he⟩ := h
    exact he.symm
  · intro he
    exact ⟨a, ha, rfl, he.symm⟩

theorem Holds.cell_mem_pointers (H : Holds st bs) {x e : Nat} {a : Addr} {c : List Int32}
    (hx : bs[x]? = some (a, c)) (he : e < size x) : .cell a e ∈ pointers bs := by
  have hlen : c.length = size x := by
    apply H.sized
    rw [List.getElem?_map, hx]
    rfl
  apply List.mem_flatten.mpr
  refine ⟨blockPointers (a, c), List.mem_map_of_mem (List.mem_of_getElem? hx), ?_⟩
  exact mem_blockPointers.mpr ⟨e, by rw [hlen]; exact he, rfl⟩

theorem releasedOnce_of_perm {st' : State} (hnext : st'.heap.next = st.heap.next)
    (h : st'.freed.Perm (allocations st)) : ReleasedOnce st' := by
  have halloc : allocations st' = allocations st := by rw [allocations, allocations, hnext]
  intro p
  rw [halloc, h.count_eq, (nodup_allocations st).count]

end Teardown

/-- After every session: `flex_destroy` leaves each allocation of the run in the log exactly
    once. `flex_nuke` with the `free_func` of `flex_init` does not: of every block that is
    left it frees each cell, and the first one, which is the block, again. -/
theorem flex_teardown (junk : Int32) (calls : List Call) :
    ∃ os st, session junk calls = .ok (os, st) ∧
      (∃ st', flexDestroy st = .ok (.success, st') ∧ ReleasedOnce st') ∧
      ∀ custom, ∃ st', flexNuke custom st = .ok (.success, st') ∧ ¬ ReleasedOnce st' ∧
        ∀ x ≤ st.flex.lastIndexOccup, ∃ a, slot st.flex x = .ok a ∧
          ∀ e < size x, st'.freed.count (.cell a e) = if e = 0 then 2 else 1 := by
  obtain ⟨os, st, bs, hrun, H, A, hfunc⟩ := session_accounted junk calls
  refine ⟨os, st, hrun, ?_, fun custom => ?_⟩
  · obtain ⟨st', hdestroy, hheap, hfreed⟩ := flexDestroy_spec H A
    exact ⟨st', hdestroy, releasedOnce_of_perm (by rw [hheap]) hfreed⟩
  · have hf : Frees (freeAction custom st.flex.freeFunc) fun p => [p] := by
      rw [hfunc]
      exact defaultFree_frees
    obtain ⟨st', hnuke, -, hfreed⟩ := flexNuke_spec H A hf
    rw [List.flatMap_singleton'] at hfreed
    have hcells : ∀ x ≤ st.flex.lastIndexOccup, ∃ a, slot st.flex x = .ok a ∧
        ∀ e < size x, st'.freed.count (.cell a e) = if e = 0 then 2 else 1 := by
      intro x hx
      have hlt : x < bs.length := by
        rw [H.length]
        omega
      have hget : bs[x]? = some (bs[x].1, bs[x].2) := List.getElem?_eq_getElem hlt
      obtain ⟨hslot, hload⟩ := H.slot_eq hget
      refine ⟨bs[x].1, hslot, fun e he => ?_⟩
      rw [hfreed.count_eq, List.count_append, (nodup_pointers H).count,
        if_pos (H.cell_mem_pointers hget he),
        (nodup_allocations st).count]
      have hmem := cell_mem_allocations (e := e) (Store.lt_next (load_eq_ok.mp hload))
      by_cases h0 : e = 0
      · rw [if_pos (hmem.mpr h0), if_pos h0]
      · rw [if_neg (mt hmem.mp h0), if_neg h0]
    refine ⟨st', hnuke, fun honce => ?_, hcells⟩
    obtain ⟨a, -, hcount⟩ := hcells 0 (Nat.zero_le _)
    have htwo := hcount 0 (size_pos 0)
    rw [if_pos rfl, honce] at htwo
    split at htwo
    · cases htwo
    · cases htwo

/-- Two blocks, of one cell and of two: both are freed twice, and the second cell of the
    second block once. -/
theorem flex_nuke_frees_twice :
    ∃ os st st', session 0 [.grow, .grow] = .ok (os, st) ∧
      flexNuke defaultFree st = .ok (.success, st') ∧
      st'.freed = [.flex, .index, .cell 1 0, .cell 0 0, .cell 1 1, .cell 1 0, .cell 0 0] ∧
      ¬ ReleasedOnce st' := by
  refine ⟨_, _, _, rfl, rfl, rfl, fun h => ?_⟩
  have hcount : (2 : Nat) = if _ then 1 else 0 := h (.cell 0 0)
  split at hcount
  · cases hcount
  · cases hcount

/-- With a free function in its place that never fails and frees no memory of the flex,
    `flex_nuke` releases each allocation once, after every session. -/
theorem flex_nuke_custom (junk : Int32) (calls : List Call) :
    ∃ os st, session junk calls = .ok (os, st) ∧
      ∀ custom, Frees custom (fun _ => []) →
        ∃ st', flexNuke custom (flexChangeFree st).2 = .ok (.success, st') ∧
          ReleasedOnce st' := by
  obtain ⟨os, st, bs, hrun, H, A, -⟩ := session_accounted junk calls
  refine ⟨os, st, hrun, fun custom hf => ?_⟩
  -- the heap, the blocks and the log are those of `st`
  have H' : Holds (flexChangeFree st).2 bs := H.changeFree
  have A' : Accounted (flexChangeFree st).2 bs := A
  obtain ⟨st', hnuke, hnext, hfreed⟩ := flexNuke_spec H' A' hf
  rw [List.flatMap_eq_nil_iff.mpr fun _ _ => rfl] at hfreed
  exact ⟨st', hnuke, releasedOnce_of_perm hnext hfreed⟩

end DataMonkey.Flex
