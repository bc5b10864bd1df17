import DataMonkey.Flex.Api

/- The pointers that `flex_get` hands out.

   A caller may keep such a pointer over further calls. Growing moves the index and no block,
   so the pointer goes on to be the one of its index; giving up its block ends it, and growing
   the flex again does not bring it back: the block of the index is then another one.

     1. `flexStep_pointers` — what a call does to the pointers of all indices;
     2. `gone_keeps` — a block that was freed stays freed;
     3. `flex_pointer_lives` — when a pointer can still be followed, over every run. -/
namespace DataMonkey.Flex

open Blocked Superblock

/-- The pointer to the cell of index `i`. -/
def Names (p : Ptr) (i : Nat) (st : State) : Prop :=
  ∃ bs, Holds st bs ∧ st.flex.cmpFunc = defaultCmp ∧ (pointers bs)[i]? = some p

/-- A block that was handed out and freed. -/
def Gone (a : Addr) (st : State) : Prop := a < st.heap.next ∧ st.heap.cell a = none

section Calls

variable {st st' : State} {bs : List (Addr × List Int32)} {a : Addr} {c : Call} {o : Reply}

theorem pointers_append (A B : List (Addr × List Int32)) :
    pointers (A ++ B) = pointers A ++ pointers B := by
  simp [pointers]

/-- A write leaves every block where it is. -/
theorem writeCell_shape {x e : Nat} {v : Int32} (h : writeCell st x e v = .ok st') :
    SameShape st st' := by
  obtain ⟨b, -, h⟩ := Runs.bind_eq_ok.mp h
  obtain ⟨vs, hload, h⟩ := Runs.bind_eq_ok.mp h
  split at h
  · obtain rfl := Except.ok.inj h
    have hcell := load_eq_ok.mp hload
    refine ⟨rfl, fun d => ?_⟩
    show ((st.heap.write b (vs.set e v)).cell d).map List.length = _
    by_cases hdb : d = b
    · rw [hdb, Store.cell_write_self hcell, hcell]
      simp
    · rw [Store.cell_write_ne hdb]
  · cases h

theorem flexInsert_pointers (H : Holds st bs) {i : Nat} (hi : i < 2 ^ 60 - 1) (v : Int32) :
    ∃ st' bs', flexInsert granted st i v = .ok (.success, st') ∧ Holds st' bs' ∧
      st'.flex.cmpFunc = st.flex.cmpFunc ∧ pointers bs <+: pointers bs' := by
  obtain ⟨x, e, hloc, he, hcell⟩ := locate_spec hi
  obtain ⟨st₁, bs₁, added, hgrow, H₁, hcmp, rfl, -, hlast, -⟩ :=
    growTo_spec x (i + 2) st bs H (by omega) (fun _ => by omega)
  have hin : i < st₁.flex.usableDataBlocks := by
    rw [← hcell, ← H₁.block_le_iff he]
    omega
  obtain ⟨x', e', heap, -, hloc', -, hwrite, -, -⟩ := writeCell_spec H₁ hi hin v
  obtain ⟨rfl, rfl⟩ := Runs.ok_pair_inj (hloc.symm.trans hloc')
  obtain ⟨bs', H', hsame⟩ := H₁.reshape (writeCell_shape hwrite)
  refine ⟨_, bs', ?_, H', hcmp, ?_⟩
  · simp only [flexInsert, hloc, Runs.ok_bind, hgrow, if_true, hwrite]
  · rw [hsame, pointers_append]
    exact List.prefix_append _ _

theorem flexDelete_pointers (H : Holds st bs) (i : Index) {s : Dstatus}
    (h : flexDelete st i.val = .ok (s, st')) :
    ∃ bs', Holds st' bs' ∧ st'.flex.cmpFunc = st.flex.cmpFunc ∧ pointers bs' = pointers bs := by
  obtain ⟨⟨x, e⟩, -, h⟩ := Runs.bind_eq_ok.mp h
  dsimp only at h
  split at h
  · obtain ⟨-, rfl⟩ := Runs.ok_pair_inj h
    exact ⟨bs, H, rfl, rfl⟩
  · obtain ⟨t, hwrite, h⟩ := Runs.bind_eq_ok.mp h
    obtain ⟨-, rfl⟩ := Runs.ok_pair_inj h
    have hshape := writeCell_shape hwrite
    obtain ⟨bs', H', hsame⟩ := H.reshape hshape
    exact ⟨bs', H', by rw [hshape.flex], hsame⟩

/-- A shrink frees the block whose pointers it takes away. -/
theorem flexShrink_pointers (H : Holds st bs) :
    ∃ s st' left freed, flexShrink granted st = .ok (s, st') ∧ Holds st' left ∧
      st'.flex.cmpFunc = st.flex.cmpFunc ∧ bs = left ++ freed ∧
      ∀ b ∈ freed, Gone b.1 st' := by
  by_cases h0 : st.flex.numUserElementsInserted = 0
  · exact ⟨.failure, st, bs, [], flexShrink_empty h0, H, rfl, (List.append_nil _).symm, by simp⟩
  · obtain ⟨s, st', left, hrun, H', hcmp, -, hbs⟩ := flexShrink_spec H h0
    rcases hbs with ⟨-, -, rfl⟩ | ⟨hf, -, b, c, rfl⟩
    · exact ⟨s, st', left, [], hrun, H', hcmp, (List.append_nil _).symm, by simp⟩
    · refine ⟨s, st', left, [(b, c)], hrun, H', hcmp, rfl, ?_⟩
      obtain ⟨d, vs, t, hslot, hlive, rfl, hst'⟩ := flexShrink_giveUp h0 hf hrun
      -- the block that is freed is the one behind those that are left
      have hlen := H.length
      rw [List.length_append, List.length_singleton] at hlen
      have hb := (H.block left.length b c (by simp)).1
      rw [show left.length = st.flex.lastIndexOccup by omega, hslot, Option.some.injEq,
        Option.some.injEq] at hb
      have hheap := (shrinkIndex_carried granted (st.giveUp d)).heap
      have hheap' : st'.heap = st.heap.free d := by
        rcases hst' with rfl | rfl
        · exact hheap
        · exact hheap
      intro p hp
      rw [List.mem_singleton.mp hp, Gone, hheap', ← hb]
      exact ⟨Store.lt_next (h := st.heap) hlive, Store.cell_free_self _ _⟩

/-- A call adds pointers behind those that there are, or takes some of the last away. -/
theorem flexStep_pointers (H : Holds st bs) (hcmp : st.flex.cmpFunc = defaultCmp)
    (h : flexStep granted st c = .ok (o, st')) :
    ∃ bs', Holds st' bs' ∧ st'.flex.cmpFunc = defaultCmp ∧
      (pointers bs <+: pointers bs' ∨
        ∃ freed, bs = bs' ++ freed ∧ ∀ b ∈ freed, Gone b.1 st') := by
  cases c with
  | insert i v =>
    obtain ⟨t, bs', hrun, H', hcmp', hpre⟩ := flexInsert_pointers H i.property v
    rw [flexStep, hrun] at h
    obtain ⟨-, rfl⟩ := Runs.ok_pair_inj h
    exact ⟨bs', H', hcmp'.trans hcmp, .inl hpre⟩
  | delete i =>
    obtain ⟨⟨s, t⟩, hrun, h⟩ := Runs.bind_eq_ok.mp h
    obtain ⟨-, rfl⟩ := Runs.ok_pair_inj h
    obtain ⟨bs', H', hcmp', hsame⟩ := flexDelete_pointers H i hrun
    exact ⟨bs', H', hcmp'.trans hcmp, .inl (hsame ▸ List.prefix_refl _)⟩
  | get i =>
    obtain ⟨v, -, h⟩ := Runs.bind_eq_ok.mp h
    obtain ⟨-, rfl⟩ := Runs.ok_pair_inj h
    exact ⟨bs, H, hcmp, .inl (List.prefix_refl _)⟩
  | compare i v =>
    obtain ⟨s, -, h⟩ := Runs.bind_eq_ok.mp h
    obtain ⟨-, rfl⟩ := Runs.ok_pair_inj h
    exact ⟨bs, H, hcmp, .inl (List.prefix_refl _)⟩
  | grow =>
    obtain ⟨t, added, hrun, H', hcmp', -⟩ := flexGrow_appends H
    rw [flexStep, hrun] at h
    obtain ⟨-, rfl⟩ := Runs.ok_pair_inj h
    refine ⟨_, H', hcmp'.trans hcmp, .inl ?_⟩
    rw [pointers_append]
    exact List.prefix_append _ _
  | shrink =>
    obtain ⟨s, t, left, freed, hrun, H', hcmp', hbs, hgone⟩ := flexShrink_pointers H
    rw [flexStep, hrun] at h
    obtain ⟨-, rfl⟩ := Runs.ok_pair_inj h
    exact ⟨left, H', hcmp'.trans hcmp, .inr ⟨freed, hbs, hgone⟩⟩

/-- No call hands a freed address out again. -/
theorem gone_keeps (hgone : Gone a st) (h : flexStep granted st c = .ok (o, st')) :
    Gone a st' := by
  refine flexStep_keeps (P := Gone a) ?_ ?_ ?_ hgone h
  · intro s r s' hs hrun
    rcases (flexGrow_acquires hrun).heap with ⟨hheap, -⟩ | ⟨zeros, hheap, -⟩
    · rw [Gone, hheap]
      exact hs
    · rw [Gone, hheap]
      exact ⟨Nat.lt_succ_of_lt hs.1, Store.cell_alloc_dead hs.1 hs.2⟩
  · intro s x e v s' hs hrun
    obtain ⟨b, -, hrun⟩ := Runs.bind_eq_ok.mp hrun
    obtain ⟨vs, -, hrun⟩ := Runs.bind_eq_ok.mp hrun
    split at hrun
    · obtain rfl := Except.ok.inj hrun
      exact ⟨hs.1, Store.cell_write_dead hs.2⟩
    · cases hrun
  · intro r s' hrun
    by_cases h0 : st.flex.numUserElementsInserted = 0
    · rw [flexShrink_empty h0] at hrun
      obtain ⟨-, rfl⟩ := Runs.ok_pair_inj hrun
      exact hgone
    · by_cases hf : frees st.flex
      · obtain ⟨b, vs, -, hheap, -, -⟩ := flexShrink_frees_last h0 hf hrun
        rw [Gone, hheap]
        exact ⟨hgone.1, Store.cell_free_dead hgone.2⟩
      · simp only [flexShrink, if_neg h0, if_neg hf] at hrun
        obtain ⟨-, rfl⟩ := Runs.ok_pair_inj hrun
        exact hgone

end Calls

/-! ## Runs -/

section Runs

variable {st st' : State} {i e : Nat} {a : Addr}

/-- The pointer stays that of its index, or its block is freed and the index past the
    capacity. -/
theorem Names.step {c : Call} {o : Reply} (h : Names (.cell a e) i st)
    (hstep : flexStep granted st c = .ok (o, st')) :
    (Names (.cell a e) i st' ∧ i < st'.flex.usableDataBlocks) ∨
      (Gone a st' ∧ ¬ i < st'.flex.usableDataBlocks) := by
  obtain ⟨bs, H, hcmp, hp⟩ := h
  obtain ⟨bs', H', hcmp', hpre | ⟨freed, rfl, hgone⟩⟩ := flexStep_pointers H hcmp hstep
  · have hp' : (pointers bs')[i]? = some (.cell a e) := by
      obtain ⟨rest, hrest⟩ := hpre
      rw [← hrest, List.getElem?_append_left (List.getElem?_eq_some_iff.mp hp).1]
      exact hp
    refine .inl ⟨⟨bs', H', hcmp', hp'⟩, ?_⟩
    rw [← length_pointers H']
    exact (List.getElem?_eq_some_iff.mp hp').1
  · rw [pointers_append] at hp
    by_cases hi : i < (pointers bs').length
    · rw [List.getElem?_append_left hi] at hp
      rw [length_pointers H'] at hi
      exact .inl ⟨⟨bs', H', hcmp', hp⟩, hi⟩
    · rw [List.getElem?_append_right (Nat.le_of_not_lt hi)] at hp
      rw [length_pointers H'] at hi
      refine .inr ⟨?_, hi⟩
      obtain ⟨ps, hps, hmem⟩ := List.mem_flatten.mp (List.mem_of_getElem? hp)
      obtain ⟨b, hb, rfl⟩ := List.mem_map.mp hps
      obtain ⟨f, -, heq⟩ := mem_blockPointers.mp hmem
      rw [(Ptr.cell.inj heq).1]
      exact hgone b hb

theorem Gone.run {cs : List Call} {os : List Reply} (h : Gone a st)
    (hrun : Runs.run (flexStep granted) st cs = .ok (os, st')) : Gone a st' :=
  Runs.run_replies (Q := fun _ => True) (fun _ _ _ _ h _ hstep => gone_keeps h hstep) h hrun
    fun _ _ => trivial

/-- The capacity covers an index all along. -/
abbrev Covers (i : Nat) (st : State) (cs : List Call) : Prop :=
  Runs.Always (flexStep granted) (fun t => i < t.flex.usableDataBlocks) st cs

theorem Names.run : ∀ {cs : List Call} {st : State} {os : List Reply},
    Names (.cell a e) i st → Runs.run (flexStep granted) st cs = .ok (os, st') →
      (Covers i st cs ∧ Names (.cell a e) i st') ∨ (¬ Covers i st cs ∧ Gone a st')
  | [], st, os, h, hrun => by
    obtain ⟨-, rfl⟩ := Runs.ok_pair_inj hrun
    refine .inl ⟨Runs.always_nil.mpr ?_, h⟩
    obtain ⟨bs, H, -, hp⟩ := h
    rw [← length_pointers H]
    exact (List.getElem?_eq_some_iff.mp hp).1
  | c :: cs, st, os, h, hrun => by
    have hnow : i < st.flex.usableDataBlocks := by
      obtain ⟨bs, H, -, hp⟩ := h
      rw [← length_pointers H]
      exact (List.getElem?_eq_some_iff.mp hp).1
    obtain ⟨o, t, rest, hstep, hrest, -⟩ := Runs.run_cons_ok.mp hrun
    rcases h.step hstep with ⟨ht, -⟩ | ⟨hgone, hout⟩
    · rcases ht.run hrest with ⟨hcov, h'⟩ | ⟨hcov, h'⟩
      · refine .inl ⟨Runs.always_cons.mpr ⟨hnow, fun o' t' hstep' => ?_⟩, h'⟩
        obtain ⟨-, rfl⟩ := Runs.ok_pair_inj (hstep.symm.trans hstep')
        exact hcov
      · exact .inr ⟨fun hall => hcov ((Runs.always_cons.mp hall).2 o t hstep), h'⟩
    · refine .inr ⟨fun hall => hout ?_, hgone.run hrest⟩
      exact (Runs.always_cons.mp hall).2 o t hstep [] List.nil_prefix [] t rfl

end Runs

/-- After every session, and for every pointer that `flex_get` then returns: whatever calls
    follow, the pointer can be followed afterwards iff at no point in between the capacity was
    down to its index, and then it is still the pointer that `flex_get` returns. -/
theorem flex_pointer_lives (junk : Int32) (calls : List Call) (i : Index) :
    ∃ os st, session junk calls = .ok (os, st) ∧ ∀ p, flexGet st i.val = .ok (some p) →
      ∀ more, ∃ os' st', Runs.run (flexStep granted) st more = .ok (os', st') ∧
        ((∃ v, deref st' p = .ok v) ↔ Covers i.val st more) ∧
        (Covers i.val st more → flexGet st' i.val = .ok (some p)) := by
  obtain ⟨os, st, bs, hrun, H, hcmp⟩ := session_spec junk calls
  refine ⟨os, st, hrun, fun p hp more => ?_⟩
  rw [flexGet_pointers H i.property, Except.ok.injEq] at hp
  obtain ⟨ps, hps, hmem⟩ := List.mem_flatten.mp (List.mem_of_getElem? hp)
  obtain ⟨b, -, rfl⟩ := List.mem_map.mp hps
  obtain ⟨e, -, rfl⟩ := mem_blockPointers.mp hmem
  obtain ⟨os', st', hrun', -⟩ := Runs.run_total (flexStep granted)
    (fun _ t => ∃ bs, Holds t bs ∧ t.flex.cmpFunc = defaultCmp)
    (fun _ t c ⟨bs, H, hcmp⟩ => by
      obtain ⟨o, t', bs', hstep, H', hcmp', -⟩ := flexStep_spec H hcmp c
      exact ⟨o, t', hstep, bs', H', hcmp'⟩) more [] st ⟨bs, H, hcmp⟩
  refine ⟨os', st', hrun', ?_⟩
  rcases Names.run ⟨bs, H, hcmp, hp⟩ hrun' with ⟨hcov, bs', H', -, hp'⟩ | ⟨hcov, hgone⟩
  · refine ⟨iff_of_true (H'.deref_pointers (List.mem_of_getElem? hp')) hcov, fun _ => ?_⟩
    rw [flexGet_pointers H' i.property, hp']
  · refine ⟨iff_of_false (fun hv => ?_) hcov, fun h => absurd h hcov⟩
    obtain ⟨v, hv⟩ := hv
    obtain ⟨vs, hload, -⟩ := Runs.bind_eq_ok.mp hv
    rw [load_eq_ok, hgone.2] at hload
    cases hload

end DataMonkey.Flex
