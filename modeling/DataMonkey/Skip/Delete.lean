import DataMonkey.Skip.Insert

/- `skip_delete`.

   The unlink loop mirrors the splice loop: after `i` rounds the levels below `i` link the
   list without the node, the others still read as before the call. A level above the
   node's tower is left alone by the test in the loop, since what follows the last node
   before the key there is a different node. -/
namespace DataMonkey.Skip

open Chain

variable {P : Type}

section Unlink

variable {h : Heap P} {hdr : Addr} {pre post : List (Tower P)} {x : Tower P}

/-- One round of the unlink loop. -/
theorem unlink_step (r : Rep h hdr (pre ++ x :: post)) {update : Nat → Option Addr} {i : Nat}
    (hi : i < skipMax) (hupd : update i = some (pred hdr pre i)) {h' : Heap P}
    (hs : Relinked h hdr (pre ++ post) i h') :
    ∃ h'', unlink update x.addr h' i = .ok h'' ∧ Relinked h hdr (pre ++ post) (i + 1) h'' := by
  obtain ⟨l, hl⟩ := levelNodes_split hdr pre i
  have hchain : Seg (forward h' i) (levelNodes hdr (pre ++ x :: post) i) none := by
    apply (r.chain i hi).congr
    intro a _
    exact hs.rest i a (Nat.le_refl i)
  by_cases hix : i < x.height
  · -- the tower reaches this level: the node is taken out
    obtain ⟨k, p, t, hus, hut⟩ := r.shape_mem (pred_mem_append hdr pre (x :: post) i) hi
    have hnd := r.nodup_level i
    rw [hl (x :: post), onLevel_cons, if_pos hix, List.map_cons] at hchain hnd
    have hlink : forward h' i (pred hdr pre i) = .ok (some x.addr) := hchain.link_at
    have hxlink : forward h' i x.addr = .ok (first ((onLevel i post).map Tower.addr) none) :=
      (seg_append.mp hchain).2.2.1
    have hus' : shapeOf h' (pred hdr pre i) = some (k, p, t) := by rw [hs.shape, hus]
    obtain ⟨h'', hset, hat, hoff, hsame', -⟩ :=
      setForward_spec (p := first ((onLevel i post).map Tower.addr) none) hus' hut
    refine ⟨h'', ?_, hs.next hsame' ?_ fun j y hji => hoff j y (Or.inr hji)⟩
    · simp only [unlink, readUpdate, readArray, if_pos hi, Runs.ok_bind, hupd, hlink, if_true,
        hxlink, hset]
    · rw [hl post]
      apply hchain.unlink hat
      intro a ha
      have hmem := List.nodup_cons.mp (List.nodup_middle.mp hnd)
      have hau : a ≠ pred hdr pre i := by
        intro e
        apply hmem.1
        rw [← e]
        rcases List.mem_append.mp ha with ha | ha <;> simp [ha]
      exact hoff i a (Or.inl hau)
  · -- above the tower: the successor is another node and nothing happens
    rw [levelNodes_above hdr pre post hix] at hchain
    have hlink : forward h' i (pred hdr pre i) =
        .ok (first ((onLevel i post).map Tower.addr) none) := by
      have hc := hchain
      rw [hl post] at hc
      exact hc.link_at
    have hne : first ((onLevel i post).map Tower.addr) none ≠ some x.addr := by
      intro e
      rw [first_none] at e
      obtain ⟨n, hn, he⟩ := List.mem_map.mp (List.mem_of_mem_head? e)
      exact r.addr_ne.2 n (List.mem_append_right _ (mem_onLevel.mp hn).1) he
    refine ⟨h', ?_, hs.next (fun _ => rfl) hchain fun _ _ _ => rfl⟩
    simp only [unlink, readUpdate, readArray, if_pos hi, Runs.ok_bind, hupd, hlink, if_neg hne]

/-- The loop over the levels in use, and freeing the node: the list without it. -/
theorem Rep.delete (r : Rep h hdr (pre ++ x :: post)) {level : Nat} (hmax : level ≤ skipMax)
    (htop : topLevel (pre ++ x :: post) ≤ level) {update : Nat → Option Addr}
    (hupd : ∀ i < level, update i = some (pred hdr pre i)) :
    ∃ h', (List.range' 0 level).foldlM (unlink update x.addr) h = .ok h' ∧
      shapeOf h' x.addr = some (x.key, some x.payload, x.height) ∧
      Rep (h'.free x.addr) hdr (pre ++ post) := by
  obtain ⟨h', hrun, hsame, hdone, hrest⟩ := Runs.foldlM_range' (unlink update x.addr)
    (Relinked h hdr (pre ++ post)) level 0 h (Relinked.start h hdr (pre ++ post))
    (fun i h' _ hi hs => unlink_step r (by omega) (hupd i (by omega)) hs)
  rw [Nat.zero_add] at hdone hrest
  obtain ⟨hxh, hne⟩ := r.addr_ne
  have hkeep : ∀ a, a ≠ x.addr → shapeOf (h'.free x.addr) a = shapeOf h a := by
    intro a ha
    rw [← hsame a]
    simp only [shapeOf, Store.cell_free_ne ha]
  have hmem : ∀ m ∈ pre ++ post, m ∈ pre ++ x :: post := by
    intro m hm
    rcases List.mem_append.mp hm with hm | hm <;> simp [hm]
  have hsub : (pre ++ post).Sublist (pre ++ x :: post) :=
    List.Sublist.append_left (List.sublist_cons_self x post) pre
  refine ⟨h', hrun, by rw [hsame]; exact r.node x (by simp), ?_⟩
  constructor
  case header =>
    rw [hkeep hdr hxh.symm]
    exact r.header
  case node =>
    intro m hm
    rw [hkeep m.addr (hne m hm)]
    exact r.node m (hmem m hm)
  case nodup =>
    exact List.Nodup.sublist (List.Sublist.cons_cons hdr (hsub.map _)) r.nodup
  case sorted =>
    exact r.sorted.sublist hsub
  case key_pos =>
    exact fun m hm => r.key_pos m (hmem m hm)
  case height =>
    exact fun m hm => r.height m (hmem m hm)
  case chain =>
    intro i hi
    have hseg : Seg (forward h' i) (levelNodes hdr (pre ++ post) i) none := by
      by_cases hil : i < level
      · exact hdone i hil
      · -- above the list's level both chains are the header alone
        have hx : ¬ i < x.height := by
          have := height_le_topLevel (show x ∈ pre ++ x :: post by simp)
          omega
        rw [← levelNodes_above hdr pre post hx]
        apply (r.chain i hi).congr
        intro a _
        exact hrest i a (by omega)
    apply hseg.congr
    intro a ha
    apply forward_congr
    apply Store.cell_free_ne
    rcases mem_levelNodes.mp ha with rfl | ⟨m, hm, -, rfl⟩
    · exact hxh.symm
    · exact hne m hm

end Unlink

/-! ## Lowering the level -/

theorem topLevel_le_of_empty {ns : List (Tower P)} {i : Nat} (hi : 1 ≤ i)
    (h : onLevel i ns = []) : topLevel ns ≤ i := by
  apply (topLevel_le hi).mpr
  intro n hn
  apply Nat.le_of_not_lt
  intro hlt
  have hm : n ∈ onLevel i ns := mem_onLevel.mpr ⟨hn, hlt⟩
  rw [h] at hm
  exact List.not_mem_nil hm

/-- The loop stops at the height of the tallest node. -/
theorem lowerLevel_spec {h : Heap P} {hdr : Addr} {ns : List (Tower P)} (r : Rep h hdr ns) :
    ∀ n, topLevel ns ≤ n → n ≤ skipMax → lowerLevel h hdr n = .ok (topLevel ns)
  | 0, htop, _ => by
    have := one_le_topLevel ns
    omega
  | 1, htop, _ => by
    have := one_le_topLevel ns
    rw [show topLevel ns = 1 by omega]
    rfl
  | n + 2, htop, hmax => by
    rw [lowerLevel, r.forward_header (show n + 1 < skipMax by omega), Runs.ok_bind]
    cases hlev : onLevel (n + 1) ns with
    | nil =>
      -- the header points to nothing on the top level
      exact lowerLevel_spec r (n + 1) (topLevel_le_of_empty (by omega) hlev) (by omega)
    | cons m rest =>
      have hm : m ∈ onLevel (n + 1) ns := by rw [hlev]; exact List.mem_cons_self
      have hle := height_le_topLevel (mem_onLevel.mp hm).1
      have hlt := (mem_onLevel.mp hm).2
      rw [show topLevel ns = n + 2 by omega]
      rfl

/-! ## The call -/

section Call

variable {st : State P} {pre post : List (Tower P)} {x : Tower P} {k : UInt32}

/-- Deleting an absent key returns 0 and leaves everything but the fingers alone. -/
theorem skipDelete_absent (H : Holds st (pre ++ post)) (hpre : ∀ n ∈ pre, n.key < k)
    (hpost : ∀ n ∈ post, k < n.key) (hk : k ≠ 0) :
    ∃ st', skipDelete st k = .ok (0, st') ∧ Holds st' (pre ++ post) ∧
      Fingers st' (pre ++ post) ∧ st'.heap = st.heap ∧ st'.released = st.released ∧
      st'.sl.freeFunc = st.sl.freeFunc := by
  have hge : ∀ n ∈ post, k ≤ n.key := fun n hn => UInt32.le_of_lt (hpost n hn)
  obtain ⟨a, n, hca, hl, hn⟩ := H.rep.candidate_ne hpre hpost hk
  let st' : State P :=
    { st with sl := { st.sl with
        finger := recorded (pred st.sl.header pre) st.sl.level st.sl.finger } }
  refine ⟨st', ?_, ⟨H.rep, H.level, H.length⟩, ?_, rfl, rfl, rfl⟩
  · simp only [skipDelete, checkHard_key hk,
      Runs.ok_bind, H.descend_record hpre hge, hca, hl, if_neg hn]
    rfl
  · exact fingers_recorded st st' rfl rfl rfl

/-- Deleting a stored key hands its payload to `free_func`, unlinks and frees its node,
    and returns 1. -/
theorem skipDelete_stored (H : Holds st (pre ++ x :: post)) (hpre : ∀ n ∈ pre, n.key < k)
    (hx : x.key = k) (hpost : ∀ n ∈ post, k < n.key) (hk : k ≠ 0) :
    ∃ st', skipDelete st k = .ok (1, st') ∧ Holds st' (pre ++ post) ∧
      Fingers st' (pre ++ post) ∧
      st'.released = callFree st.sl.freeFunc (some x.payload) st.released ∧
      st'.sl.freeFunc = st.sl.freeFunc := by
  have hge := le_key_of_cut hx hpost
  obtain ⟨n, hl, -, hkey, -⟩ := load_of_shape (H.rep.node x (by simp))
  have hnk : n.key = k := hkey.trans hx
  obtain ⟨-, hmax⟩ := H.level_bounds
  have hupd : ∀ i < st.sl.level,
      recorded (pred st.sl.header pre) st.sl.level (fun _ => none) i =
        some (pred st.sl.header pre i) := by
    intro i hi
    simp only [recorded, if_pos hi]
  obtain ⟨h', hloop, hxs, hrep⟩ := H.rep.delete hmax (Nat.le_of_eq H.level.symm) hupd
  obtain ⟨n', hl', -, -, hpay', -⟩ := load_of_shape hxs
  have htop : topLevel (pre ++ post) ≤ st.sl.level := by
    rw [H.level, topLevel_append, topLevel_append, topLevel_cons]
    omega
  let st' : State P :=
    { sl := { st.sl with level := topLevel (pre ++ post), length := st.sl.length - 1
                         finger := recorded (pred st.sl.header pre) st.sl.level st.sl.finger }
      heap := h'.free x.addr
      released := callFree st.sl.freeFunc n'.payload st.released }
  refine ⟨st', ?_, ⟨hrep, rfl, ?_⟩, ?_, by simp only [st', hpay'], rfl⟩
  · simp only [skipDelete, checkHard_key hk,
      Runs.ok_bind, H.descend_record hpre hge, H.rep.candidate_pred, List.head?_cons,
      Option.map_some, Option.getD_some, hl, if_pos hnk, hloop, hl',
      lowerLevel_spec hrep st.sl.level htop hmax]
    rfl
  · show st.sl.length - 1 = _
    have hlen := H.length
    simp only [List.length_append, List.length_cons] at hlen ⊢
    omega
  · intro i hi
    have hi' : i < st.sl.level := Nat.lt_of_lt_of_le hi htop
    refine ⟨pred st.sl.header pre i, ?_, ?_⟩
    · simp only [st', recorded, if_pos hi']
    · exact pred_mem_append st.sl.header pre post i

end Call

end DataMonkey.Skip
