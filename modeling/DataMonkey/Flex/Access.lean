import DataMonkey.Flex.Grow

/- The four accessors, and one call on a flex in the invariant.

   All four compute the same block and cell and then test the block against the last one;
   `locate_in` and `locate_out` say what that test means for the index. What is left of a
   call is a read or a write of one cell of the array `cells bs`. `Effect` lists everything a
   call can do to that array, and `flexStep_spec` proves that every call does one of it. -/
namespace DataMonkey.Flex

open Blocked Superblock

section Access

variable {st : State} {bs : List (Addr × List Int32)} {i : Nat}

/-- The block test of the accessors is the test against the capacity. -/
theorem Holds.block_le_iff (H : Holds st bs) {x e : Nat} (he : e < size x) :
    x ≤ st.flex.lastIndexOccup ↔ start size x + e < st.flex.usableDataBlocks := by
  rw [H.counters.usable, start_add_lt_iff he]
  omega

/-- Within the capacity the address names a cell of an allocated block. -/
theorem locate_in (H : Holds st bs) (hi : i < 2 ^ 60 - 1) (hin : i < st.flex.usableDataBlocks) :
    ∃ A a c B e, locate i = .ok (A.length, e) ∧ bs = A ++ (a, c) :: B ∧
      A.length ≤ st.flex.lastIndexOccup ∧ e < size A.length ∧ start size A.length + e = i ∧
      slot st.flex A.length = .ok a ∧ load st.heap a = .ok c ∧ c.length = size A.length := by
  obtain ⟨x, e, hloc, he, hcell⟩ := locate_spec hi
  have hx : x ≤ st.flex.lastIndexOccup := by
    rw [H.block_le_iff he, hcell]
    exact hin
  have hlt : x < bs.length := by
    rw [H.length]
    omega
  have hget : bs[x]? = some bs[x] := List.getElem?_eq_getElem hlt
  have hsplit : bs = bs.take x ++ bs[x] :: bs.drop (x + 1) := by
    rw [← List.drop_eq_getElem_cons hlt, List.take_append_drop]
  have hlen : (bs.take x).length = x := by
    rw [List.length_take]
    omega
  obtain ⟨hslot, hload⟩ := H.slot_eq hget
  refine ⟨bs.take x, bs[x].1, bs[x].2, bs.drop (x + 1), e, ?_, hsplit, ?_⟩
  · rw [hlen]
    exact hloc
  · rw [hlen]
    refine ⟨hx, he, hcell, hslot, hload, ?_⟩
    apply H.sized
    rw [List.getElem?_map, hget]
    rfl

/-- Past the capacity the address names a block past the last one. -/
theorem locate_out (H : Holds st bs) (hi : i < 2 ^ 60 - 1) (hout : st.flex.usableDataBlocks ≤ i) :
    ∃ x e, locate i = .ok (x, e) ∧ st.flex.lastIndexOccup < x := by
  obtain ⟨x, e, hloc, he, hcell⟩ := locate_spec hi
  refine ⟨x, e, hloc, ?_⟩
  apply Nat.lt_of_not_le
  rw [H.block_le_iff he, hcell]
  omega

/-- The cell of block `A.length` in the concatenated array. -/
theorem Holds.getElem?_cells {A B : List (Addr × List Int32)} {a : Addr} {vs : List Int32}
    (H : Holds st (A ++ (a, vs) :: B)) {e : Nat} (he : e < size A.length) :
    (cells (A ++ (a, vs) :: B))[start size A.length + e]? = vs[e]? := by
  have hsized := H.sized
  rw [List.map_append, List.map_cons] at hsized
  have hget := hsized.getElem?_flatten (e := e) (by rw [List.length_map]; exact he)
  rw [List.length_map] at hget
  rw [cells, List.map_append, List.map_cons]
  exact hget

/-- A write to a cell of an allocated block writes that index of the array. -/
theorem Holds.write {A B : List (Addr × List Int32)} {a : Addr} {c : List Int32}
    (H : Holds st (A ++ (a, c) :: B)) {e : Nat} (he : e < size A.length) (v : Int32) :
    Holds { st with heap := st.heap.write a (c.set e v) } (A ++ (a, c.set e v) :: B) ∧
      cells (A ++ (a, c.set e v) :: B) =
        (cells (A ++ (a, c) :: B)).set (start size A.length + e) v := by
  have hsized := H.sized
  have hnd := H.nodup
  rw [List.map_append, List.map_cons] at hsized hnd
  have hcell : st.heap.cell a = some c := (H.block A.length a c (by simp)).2
  refine ⟨⟨H.counters, ?_, ?_, ?_, ?_, H.slots⟩, ?_⟩
  · rw [← H.length, List.length_append, List.length_append]
    rfl
  · rw [List.map_append, List.map_cons]
    exact hsized.replace List.length_set
  · rw [List.map_append, List.map_cons]
    exact hnd
  · intro x b d hx
    by_cases hxa : A.length = x
    · subst hxa
      simp at hx
      obtain ⟨rfl, rfl⟩ := hx
      exact ⟨(H.block A.length a c (by simp)).1, Store.cell_write_self hcell⟩
    · rw [set_middle A B (a, c), List.getElem?_set_ne hxa] at hx
      obtain ⟨hs, hc⟩ := H.block x b d hx
      refine ⟨hs, ?_⟩
      -- another block lives at another address
      have hba : b ≠ a := by
        intro e
        subst e
        exact hxa (H.addr_inj (x := A.length) (c := c) (by simp) hx)
      show (st.heap.write a _).cell b = _
      rw [Store.cell_write_ne hba, hc]
  · have hset := hsized.set_flatten (e := e) (by rw [List.length_map]; exact he) v
    rw [List.length_map] at hset
    rw [cells, cells, List.map_append, List.map_cons, List.map_append, List.map_cons]
    exact hset

/-! ## The accessors -/

theorem flexGet_out (H : Holds st bs) (hi : i < 2 ^ 60 - 1) (hout : st.flex.usableDataBlocks ≤ i) :
    flexGet st i = .ok none := by
  obtain ⟨x, e, hloc, hlt⟩ := locate_out H hi hout
  simp only [flexGet, hloc, Runs.ok_bind, if_pos hlt]

theorem flexCompare_out (H : Holds st bs) (hi : i < 2 ^ 60 - 1)
    (hout : st.flex.usableDataBlocks ≤ i) (v : Int32) : flexCompare st i v = .ok .failure := by
  obtain ⟨x, e, hloc, hlt⟩ := locate_out H hi hout
  simp only [flexCompare, hloc, Runs.ok_bind, if_pos hlt]

theorem flexDelete_out (H : Holds st bs) (hi : i < 2 ^ 60 - 1)
    (hout : st.flex.usableDataBlocks ≤ i) : flexDelete st i = .ok (.failure, st) := by
  obtain ⟨x, e, hloc, hlt⟩ := locate_out H hi hout
  simp only [flexDelete, hloc, Runs.ok_bind, if_pos hlt]

/-- `flex_get` points to the element, or is NULL past the capacity. -/
theorem getValue_spec (H : Holds st bs) (hi : i < 2 ^ 60 - 1) :
    getValue st i = .ok (cells bs)[i]? := by
  by_cases hin : i < st.flex.usableDataBlocks
  · obtain ⟨A, a, vs, B, e, hloc, rfl, hle, he, hcell, hslot, hload, hlen⟩ := locate_in H hi hin
    have hget := H.getElem?_cells he
    have hval : vs[e]? = some vs[e] := List.getElem?_eq_getElem (by rw [hlen]; exact he)
    rw [hcell] at hget
    simp only [getValue, flexGet, hloc, Runs.ok_bind, if_neg (Nat.not_lt.mpr hle), hslot, deref,
      hload, hget, hval]
  · have hout : st.flex.usableDataBlocks ≤ i := by omega
    rw [getValue, flexGet_out H hi hout, List.getElem?_eq_none (by rw [H.length_cells]; exact hout)]
    rfl

theorem flexCompare_in (H : Holds st bs) (hi : i < 2 ^ 60 - 1) {w : Int32}
    (hw : (cells bs)[i]? = some w) (v : Int32) :
    flexCompare st i v = .ok (st.flex.cmpFunc w v) := by
  have hin : i < st.flex.usableDataBlocks := by
    rw [← H.length_cells]
    exact (List.getElem?_eq_some_iff.mp hw).1
  obtain ⟨A, a, c, B, e, hloc, rfl, hle, he, hcell, hslot, hload, -⟩ := locate_in H hi hin
  have hget := H.getElem?_cells he
  rw [hcell, hw] at hget
  simp only [flexCompare, hloc, Runs.ok_bind, if_neg (Nat.not_lt.mpr hle), readCell, hslot, hload,
    ← hget]

/-- A write to a cell within the capacity. -/
theorem writeCell_spec (H : Holds st bs) (hi : i < 2 ^ 60 - 1)
    (hin : i < st.flex.usableDataBlocks) (v : Int32) :
    ∃ x e heap bs', locate i = .ok (x, e) ∧ x ≤ st.flex.lastIndexOccup ∧
      writeCell st x e v = .ok { st with heap := heap } ∧ Holds { st with heap := heap } bs' ∧
      cells bs' = (cells bs).set i v := by
  obtain ⟨A, a, c, B, e, hloc, rfl, hle, he, hcell, hslot, hload, hlen⟩ := locate_in H hi hin
  obtain ⟨H', hset⟩ := H.write he v
  rw [hcell] at hset
  refine ⟨A.length, e, _, _, hloc, hle, ?_, H', hset⟩
  have hec : e < c.length := by
    rw [hlen]
    exact he
  simp only [writeCell, hslot, hload, Runs.ok_bind, if_pos hec]

theorem flexDelete_in (H : Holds st bs) (hi : i < 2 ^ 60 - 1)
    (hin : i < st.flex.usableDataBlocks) :
    ∃ heap bs', flexDelete st i = .ok (.success, { st with heap := heap }) ∧
      Holds { st with heap := heap } bs' ∧ cells bs' = (cells bs).set i 0 := by
  obtain ⟨x, e, heap, bs', hloc, hle, hwrite, H', hset⟩ := writeCell_spec H hi hin 0
  refine ⟨heap, bs', ?_, H', hset⟩
  simp only [flexDelete, hloc, Runs.ok_bind, if_neg (Nat.not_lt.mpr hle), hwrite]

/-- `flex_insert` appends blocks of zeros until the index is within the capacity, and
    writes it. Only a block that it appends is counted, with one element. -/
theorem flexInsert_spec (H : Holds st bs) (hi : i < 2 ^ 60 - 1) (v : Int32) :
    ∃ st' bs' zeros, flexInsert granted st i v = .ok (.success, st') ∧ Holds st' bs' ∧
      st'.flex.cmpFunc = st.flex.cmpFunc ∧ (∀ z ∈ zeros, z = 0) ∧
      i < (cells bs ++ zeros).length ∧ cells bs' = (cells bs ++ zeros).set i v ∧
      ∃ x e, locate i = .ok (x, e) ∧ st'.flex.lastIndexOccup = max st.flex.lastIndexOccup x ∧
        st'.flex.numUserElementsInserted =
          if st.flex.lastIndexOccup < x then start size x + 1
          else st.flex.numUserElementsInserted := by
  obtain ⟨x, e, hloc, he, hcell⟩ := locate_spec hi
  obtain ⟨st₁, bs₁, added, hgrow, H₁, hcmp, rfl, hzero, hlast, hnum⟩ :=
    growTo_spec x (i + 2) st bs H (by omega) (fun _ => by omega)
  have hcells := cells_append bs added
  -- the loop went on until the block of the index was there
  have hin : i < st₁.flex.usableDataBlocks := by
    rw [← hcell, ← H₁.block_le_iff he]
    omega
  obtain ⟨x', e', heap, bs', hloc', -, hwrite, H', hset⟩ := writeCell_spec H₁ hi hin v
  obtain ⟨rfl, rfl⟩ := Runs.ok_pair_inj (hloc.symm.trans hloc')
  rw [hcells] at hset
  refine ⟨{ st₁ with heap := heap }, bs', cells added, ?_, H', hcmp, ?_, ?_, hset,
    x, e, hloc, hlast, hnum⟩
  · simp only [flexInsert, hloc, Runs.ok_bind, hgrow, if_true, hwrite]
  · exact cells_zero hzero
  · rw [← hcells, H₁.length_cells]
    exact hin

end Access

/-! ## One call -/

/-- What a call does: its reply, and the array before and after. -/
inductive Effect : Call → Reply → List Int32 → List Int32 → Prop
  | insert {i : Index} {v : Int32} {l zeros : List Int32} (hz : ∀ z ∈ zeros, z = 0)
      (hi : i.val < (l ++ zeros).length) :
      Effect (.insert i v) (.status .success) l ((l ++ zeros).set i.val v)
  | delete {i : Index} {l : List Int32} (hi : i.val < l.length) :
      Effect (.delete i) (.status .success) l (l.set i.val 0)
  | deleteOut {i : Index} {l : List Int32} (hi : l.length ≤ i.val) :
      Effect (.delete i) (.status .failure) l l
  | get {i : Index} {l : List Int32} : Effect (.get i) (.value l[i.val]?) l l
  | compare {i : Index} {v w : Int32} {l : List Int32} (hw : l[i.val]? = some w) :
      Effect (.compare i v) (.status (defaultCmp w v)) l l
  | compareOut {i : Index} {v : Int32} {l : List Int32} (hi : l.length ≤ i.val) :
      Effect (.compare i v) (.status .failure) l l
  | grow {l zeros : List Int32} (hz : ∀ z ∈ zeros, z = 0) :
      Effect .grow (.status .success) l (l ++ zeros)
  | shrink {l rest : List Int32} {s : Dstatus} : Effect .shrink (.status s) (l ++ rest) l

/-- Every call on a flex in the invariant succeeds, keeps the invariant and has an effect of
    the list above. -/
theorem flexStep_spec {st : State} {bs : List (Addr × List Int32)} (H : Holds st bs)
    (hcmp : st.flex.cmpFunc = defaultCmp) (c : Call) :
    ∃ o st' bs', flexStep granted st c = .ok (o, st') ∧ Holds st' bs' ∧
      st'.flex.cmpFunc = defaultCmp ∧ Effect c o (cells bs) (cells bs') := by
  cases c with
  | insert i v =>
    obtain ⟨st', bs', zeros, hrun, H', hcmp', hz, hi, hset, -⟩ := flexInsert_spec H i.property v
    refine ⟨.status .success, st', bs', ?_, H', hcmp'.trans hcmp, ?_⟩
    · simp only [flexStep, hrun, Runs.ok_bind]
    · rw [hset]
      exact Effect.insert hz hi
  | delete i =>
    by_cases hi : i.val < st.flex.usableDataBlocks
    · obtain ⟨heap, bs', hrun, H', hset⟩ := flexDelete_in H i.property hi
      refine ⟨.status .success, { st with heap := heap }, bs', ?_, H', hcmp, ?_⟩
      · simp only [flexStep, hrun, Runs.ok_bind]
      · rw [hset]
        exact Effect.delete (by rw [H.length_cells]; exact hi)
    · have hout : st.flex.usableDataBlocks ≤ i.val := by omega
      refine ⟨.status .failure, st, bs, ?_, H, hcmp, ?_⟩
      · simp only [flexStep, flexDelete_out H i.property hout, Runs.ok_bind]
      · exact Effect.deleteOut (by rw [H.length_cells]; exact hout)
  | get i =>
    refine ⟨.value (cells bs)[i.val]?, st, bs, ?_, H, hcmp, Effect.get⟩
    simp only [flexStep, getValue_spec H i.property, Runs.ok_bind]
  | compare i v =>
    cases hw : (cells bs)[i.val]? with
    | none =>
      have hout := List.getElem?_eq_none_iff.mp hw
      refine ⟨.status .failure, st, bs, ?_, H, hcmp, Effect.compareOut hout⟩
      rw [H.length_cells] at hout
      simp only [flexStep, flexCompare_out H i.property hout v, Runs.ok_bind]
    | some w =>
      refine ⟨.status (defaultCmp w v), st, bs, ?_, H, hcmp, Effect.compare hw⟩
      simp only [flexStep, flexCompare_in H i.property hw v, hcmp, Runs.ok_bind]
  | grow =>
    obtain ⟨st', added, hrun, H', hcmp', -, hzero, -⟩ := flexGrow_appends H
    refine ⟨.status .success, st', bs ++ added, ?_, H', hcmp'.trans hcmp, ?_⟩
    · simp only [flexStep, hrun, Runs.ok_bind]
    · rw [cells_append]
      exact Effect.grow (cells_zero hzero)
  | shrink =>
    have hstay : Effect .shrink (.status .failure) (cells bs ++ []) (cells bs) := Effect.shrink
    by_cases h0 : st.flex.numUserElementsInserted = 0
    · refine ⟨.status .failure, st, bs, ?_, H, hcmp, ?_⟩
      · simp only [flexStep, flexShrink_empty h0, Runs.ok_bind]
      · rw [List.append_nil] at hstay
        exact hstay
    · obtain ⟨r, st', left, freed, hrun, H', rfl, hcmp', -⟩ := flexShrink_drops H h0
      refine ⟨.status r, st', left, ?_, H', hcmp'.trans hcmp, ?_⟩
      · simp only [flexStep, hrun, Runs.ok_bind]
      · rw [cells_append]
        exact Effect.shrink

/-! ## A property that the steps keep -/

section Keeps

variable {grants : Nat → Bool} {P : State → Prop}

/-- What growing keeps is kept by the growth loop. -/
theorem growTo_keeps
    (hgrow : ∀ st s st', P st → flexGrow grants st = .ok (s, st') → P st') (x : Nat) :
    ∀ (fuel : Nat) (st : State), P st →
      ∀ s st', growTo grants x fuel st = .ok (s, st') → P st'
  | 0, _, _, s, st', h => nomatch h
  | fuel + 1, st, hP, s, st', h => by
    unfold growTo at h
    split at h
    · obtain ⟨⟨r, st₁⟩, hrun, h⟩ := Runs.bind_eq_ok.mp h
      have h₁ : P st₁ := hgrow st r st₁ hP hrun
      dsimp only at h
      split at h
      · exact growTo_keeps hgrow x fuel st₁ h₁ s st' h
      · rw [← (Runs.ok_pair_inj h).2]
        exact h₁
    · rw [← (Runs.ok_pair_inj h).2]
      exact hP

/-- The rule for one call: growing and writing keep the property from any state, and a
    shrink from the state of the call. -/
theorem flexStep_keeps {st st' : State} {c : Call} {o : Reply}
    (hgrow : ∀ st s st', P st → flexGrow grants st = .ok (s, st') → P st')
    (hwrite : ∀ st x e v st', P st → writeCell st x e v = .ok st' → P st')
    (hshrink : ∀ s st', flexShrink grants st = .ok (s, st') → P st')
    (hP : P st) (h : flexStep grants st c = .ok (o, st')) : P st' := by
  cases c with
  | insert i v =>
    obtain ⟨⟨s, t⟩, hrun, h⟩ := Runs.bind_eq_ok.mp h
    rw [← (Runs.ok_pair_inj h).2]
    obtain ⟨⟨x, e⟩, -, hrun⟩ := Runs.bind_eq_ok.mp hrun
    obtain ⟨⟨r, st₁⟩, hloop, hrun⟩ := Runs.bind_eq_ok.mp hrun
    have h₁ : P st₁ := growTo_keeps hgrow x _ st hP r st₁ hloop
    dsimp only at hrun
    split at hrun
    · obtain ⟨st₂, hset, hrun⟩ := Runs.bind_eq_ok.mp hrun
      rw [← (Runs.ok_pair_inj hrun).2]
      exact hwrite st₁ x e v st₂ h₁ hset
    · rw [← (Runs.ok_pair_inj hrun).2]
      exact h₁
  | delete i =>
    obtain ⟨⟨s, t⟩, hrun, h⟩ := Runs.bind_eq_ok.mp h
    rw [← (Runs.ok_pair_inj h).2]
    obtain ⟨⟨x, e⟩, -, hrun⟩ := Runs.bind_eq_ok.mp hrun
    dsimp only at hrun
    split at hrun
    · rw [← (Runs.ok_pair_inj hrun).2]
      exact hP
    · obtain ⟨st₁, hset, hrun⟩ := Runs.bind_eq_ok.mp hrun
      rw [← (Runs.ok_pair_inj hrun).2]
      exact hwrite st x e 0 st₁ hP hset
  | get i =>
    obtain ⟨v, -, h⟩ := Runs.bind_eq_ok.mp h
    rw [← (Runs.ok_pair_inj h).2]
    exact hP
  | compare i v =>
    obtain ⟨s, -, h⟩ := Runs.bind_eq_ok.mp h
    rw [← (Runs.ok_pair_inj h).2]
    exact hP
  | grow =>
    obtain ⟨⟨s, t⟩, hrun, h⟩ := Runs.bind_eq_ok.mp h
    rw [← (Runs.ok_pair_inj h).2]
    exact hgrow st s t hP hrun
  | shrink =>
    obtain ⟨⟨s, t⟩, hrun, h⟩ := Runs.bind_eq_ok.mp h
    rw [← (Runs.ok_pair_inj h).2]
    exact hshrink s t hrun

end Keeps

/-- The history rule for sessions: a relation between the calls and the array that holds at
    the start and that every effect keeps. -/
theorem session_history (junk : Int32) (R : List Call → List Int32 → Prop) (h₀ : R [] [junk])
    (hstep : ∀ past c o l l', R past l → Effect c o l l' → R (past ++ [c]) l')
    (calls : List Call) :
    ∃ os st bs, session junk calls = .ok (os, st) ∧ Holds st bs ∧
      st.flex.cmpFunc = defaultCmp ∧ R calls (cells bs) := by
  obtain ⟨os, st, hrun, bs, H, hcmp, hR⟩ := Runs.run_total (flexStep granted)
    (fun past st => ∃ bs, Holds st bs ∧ st.flex.cmpFunc = defaultCmp ∧ R past (cells bs))
    (fun past st c ⟨bs, H, hcmp, hR⟩ => by
      obtain ⟨o, st', bs', hrun, H', hcmp', heff⟩ := flexStep_spec H hcmp c
      exact ⟨o, st', hrun, bs', H', hcmp', hstep past c o _ _ hR heff⟩)
    calls [] (fresh junk) ⟨_, fresh_spec junk, rfl, h₀⟩
  exact ⟨os, st, bs, hrun, H, hcmp, hR⟩

theorem session_spec (junk : Int32) (calls : List Call) :
    ∃ os st bs, session junk calls = .ok (os, st) ∧ Holds st bs ∧
      st.flex.cmpFunc = defaultCmp := by
  obtain ⟨os, st, bs, hrun, H, hcmp, -⟩ :=
    session_history junk (fun _ _ => True) trivial (fun _ _ _ _ _ _ _ => trivial) calls
  exact ⟨os, st, bs, hrun, H, hcmp⟩

end DataMonkey.Flex
