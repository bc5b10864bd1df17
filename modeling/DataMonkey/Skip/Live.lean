import DataMonkey.Skip.Ownership

/- No node of a skip list leaks.

   What a heap holds besides the list is not seen by `Rep`: a node that was unlinked and never
   freed would break no chain. Here the live objects are counted. No store through a pointer
   makes or ends one, an insertion makes one, a deletion ends one; and since the header and the
   nodes of the list are live and distinct, they are all there is.

     1. `SameLive` — the heaps a loop of stores goes through;
     2. `skipInsert_live`, `skipDelete_live` — what the two calls make and end;
     3. `Owned.of_length` — counting gives back that every live object is in the list;
     4. `skip_no_leak` — after every session, and after the list is gone. -/
namespace DataMonkey.Skip

variable {P : Type}

/-- Live objects at the same addresses. -/
def SameLive (h h' : Heap P) : Prop := ∀ a, (h'.cell a).isSome = (h.cell a).isSome

/-! ## Stores -/

theorem SameLive.refl (h : Heap P) : SameLive h h := fun _ => rfl

theorem SameLive.trans {h₁ h₂ h₃ : Heap P} (h : SameLive h₁ h₂) (h' : SameLive h₂ h₃) :
    SameLive h₁ h₃ := fun a => (h' a).trans (h a)

theorem write_live (h : Heap P) (x : Addr) (n : SkipNode P) : SameLive h (h.write x n) := by
  intro a
  by_cases ha : a = x
  · rw [ha]
    simp [Store.write]
  · rw [Store.cell_write_ne ha]

theorem setForward_live {h h' : Heap P} {i : Nat} {x : Addr} {p : Option Addr}
    (hrun : setForward h i x p = .ok h') : SameLive h h' := by
  obtain ⟨n, -, hrun⟩ := Runs.bind_eq_ok.mp hrun
  split at hrun
  · rw [← Except.ok.inj hrun]
    exact write_live h x _
  · cases hrun

/-- A loop whose body keeps the live objects. -/
theorem foldlM_live {body : Heap P → Nat → Except Fault (Heap P)}
    (hbody : ∀ h i h', body h i = .ok h' → SameLive h h') :
    ∀ (l : List Nat) {h h' : Heap P}, l.foldlM body h = .ok h' → SameLive h h'
  | [], h, h', hrun => by
    rw [← Except.ok.inj hrun]
    exact SameLive.refl h
  | i :: l, h, h', hrun => by
    rw [List.foldlM_cons] at hrun
    obtain ⟨h₁, hfirst, hrest⟩ := Runs.bind_eq_ok.mp hrun
    exact (hbody h i h₁ hfirst).trans (foldlM_live hbody l hrest)

theorem splice_live {update : Nat → Option Addr} {x : Addr} {h h' : Heap P} {i : Nat}
    (hrun : splice update x h i = .ok h') : SameLive h h' := by
  obtain ⟨u, -, hrun⟩ := Runs.bind_eq_ok.mp hrun
  obtain ⟨p, -, hrun⟩ := Runs.bind_eq_ok.mp hrun
  obtain ⟨h₁, hset, hrun⟩ := Runs.bind_eq_ok.mp hrun
  exact (setForward_live hset).trans (setForward_live hrun)

theorem unlink_live {update : Nat → Option Addr} {x : Addr} {h h' : Heap P} {i : Nat}
    (hrun : unlink update x h i = .ok h') : SameLive h h' := by
  obtain ⟨u, -, hrun⟩ := Runs.bind_eq_ok.mp hrun
  obtain ⟨p, -, hrun⟩ := Runs.bind_eq_ok.mp hrun
  split at hrun
  · obtain ⟨q, -, hrun⟩ := Runs.bind_eq_ok.mp hrun
    exact setForward_live hrun
  · rw [← Except.ok.inj hrun]
    exact SameLive.refl h

/-! ## Calls -/

/-- An insertion that returns 2 makes no object, one that returns 1 makes the next one. -/
theorem skipInsert_live {st st' : State P} {k : UInt32} {p : Option P} {t : Height} {r : Int}
    (hrun : skipInsert st k p t = .ok (r, st')) :
    (r = 2 ∧ SameLive st.heap st'.heap) ∨
      (r = 1 ∧ ∀ a, (st'.heap.cell a).isSome → a = st.heap.next ∨ (st.heap.cell a).isSome) := by
  obtain ⟨-, -, hrun⟩ := Runs.bind_eq_ok.mp hrun
  obtain ⟨-, -, hrun⟩ := Runs.bind_eq_ok.mp hrun
  obtain ⟨⟨x, tr⟩, -, hrun⟩ := Runs.bind_eq_ok.mp hrun
  obtain ⟨x, -, hrun⟩ := Runs.bind_eq_ok.mp hrun
  obtain ⟨n, -, hrun⟩ := Runs.bind_eq_ok.mp hrun
  split at hrun
  · obtain ⟨rfl, rfl⟩ := Runs.ok_pair_inj hrun
    exact Or.inl ⟨rfl, write_live _ _ _⟩
  · obtain ⟨⟨level, tr'⟩, -, hrun⟩ := Runs.bind_eq_ok.mp hrun
    obtain ⟨h₁, hloop, hrun⟩ := Runs.bind_eq_ok.mp hrun
    obtain ⟨rfl, rfl⟩ := Runs.ok_pair_inj hrun
    refine Or.inr ⟨rfl, fun a ha => ?_⟩
    -- the loop stores into the heap with the new node
    have hlive : SameLive _ h₁ := foldlM_live (fun _ _ _ => splice_live) _ hloop
    by_cases hnew : a = st.heap.next
    · exact Or.inl hnew
    · right
      rw [hlive a] at ha
      simpa [createSkipNode, Store.alloc, hnew] using ha

/-- A deletion that returns 1 ends one object that was live. -/
theorem skipDelete_live {st st' : State P} {k : UInt32} {r : Int}
    (hrun : skipDelete st k = .ok (r, st')) :
    (r = 0 ∧ SameLive st.heap st'.heap) ∨
      (r = 1 ∧ ∃ x, (st.heap.cell x).isSome ∧
        ∀ a, (st'.heap.cell a).isSome → a ≠ x ∧ (st.heap.cell a).isSome) := by
  obtain ⟨-, -, hrun⟩ := Runs.bind_eq_ok.mp hrun
  obtain ⟨⟨x, tr⟩, -, hrun⟩ := Runs.bind_eq_ok.mp hrun
  obtain ⟨x, -, hrun⟩ := Runs.bind_eq_ok.mp hrun
  obtain ⟨n, hl, hrun⟩ := Runs.bind_eq_ok.mp hrun
  split at hrun
  · obtain ⟨h₁, hloop, hrun⟩ := Runs.bind_eq_ok.mp hrun
    obtain ⟨m, -, hrun⟩ := Runs.bind_eq_ok.mp hrun
    obtain ⟨level, -, hrun⟩ := Runs.bind_eq_ok.mp hrun
    obtain ⟨rfl, rfl⟩ := Runs.ok_pair_inj hrun
    have hlive := foldlM_live (fun _ _ _ => unlink_live) _ hloop
    refine Or.inr ⟨rfl, x, ?_, fun a ha => ?_⟩
    · -- the key of the node was read
      unfold load at hl
      split at hl
      · cases hl
      · next hc => rw [hc]; rfl
    · by_cases hax : a = x
      · rw [hax, Store.cell_free_self] at ha
        cases ha
      · rw [Store.cell_free_ne hax, hlive a] at ha
        exact ⟨hax, ha⟩
  · obtain ⟨rfl, rfl⟩ := Runs.ok_pair_inj hrun
    exact Or.inl ⟨rfl, SameLive.refl _⟩

/-- A finger search stores nothing in the heap. -/
theorem skipFingerSearch_live {st st' : State P} {k : UInt32} {r : Option P}
    (hrun : skipFingerSearch st k = .ok (r, st')) : SameLive st.heap st'.heap := by
  obtain ⟨⟨lvl, x⟩, -, hrun⟩ := Runs.bind_eq_ok.mp hrun
  obtain ⟨⟨x, finger⟩, -, hrun⟩ := Runs.bind_eq_ok.mp hrun
  obtain ⟨r, -, hrun⟩ := Runs.bind_eq_ok.mp hrun
  obtain ⟨-, rfl⟩ := Runs.ok_pair_inj hrun
  exact SameLive.refl _

/-! ## Nothing else is live -/

/-- The header and the nodes are the only live objects. -/
def Owned (st : State P) (ns : List (Tower P)) : Prop :=
  ∀ a, (st.heap.cell a).isSome → a ∈ st.sl.header :: ns.map Tower.addr

theorem Rep.live {h : Heap P} {hdr : Addr} {ns : List (Tower P)} (r : Rep h hdr ns) :
    ∀ a ∈ hdr :: ns.map Tower.addr, (h.cell a).isSome := by
  rw [List.forall_mem_cons, List.forall_mem_map]
  refine ⟨?_, fun n hn => ?_⟩
  · obtain ⟨n, -, hc, -⟩ := load_of_shape r.header
    rw [hc]
    rfl
  · obtain ⟨m, -, hc, -⟩ := load_of_shape (r.node n hn)
    rw [hc]
    rfl

/-- If there are no more places for live objects than there are nodes with the header, then
    every place is taken by one of them. -/
theorem Owned.of_length {st : State P} {ns : List (Tower P)} (H : Inv st ns) (places : List Addr)
    (hlive : ∀ a, (st.heap.cell a).isSome → a ∈ places) (hlen : places.length ≤ ns.length + 1) :
    Owned st ns := by
  have hsub : st.sl.header :: ns.map Tower.addr ⊆ places :=
    fun a ha => hlive a (H.rep.live a ha)
  have hperm := (List.subperm_of_subset H.rep.nodup hsub).perm_of_length_le
    (by rw [List.length_cons, List.length_map]; exact hlen)
  exact fun a ha => hperm.mem_iff.mpr (hlive a ha)

/-- Stores leave the places of the live objects, and as many nodes. -/
theorem Owned.of_stores {st st' : State P} {ns ns' : List (Tower P)} (hown : Owned st ns)
    (H' : Inv st' ns') (hlen : ns'.length = ns.length) (hlive : SameLive st.heap st'.heap) :
    Owned st' ns' := by
  apply Owned.of_length H' (st.sl.header :: ns.map Tower.addr)
  · exact fun a ha => hown a (by rw [← hlive a]; exact ha)
  · rw [List.length_cons, List.length_map, hlen]

theorem skipStep_owned {st : State P} {ns : List (Tower P)} (H : Inv st ns) (hown : Owned st ns)
    (c : Call P) :
    ∃ o st' ns', skipStep st c = .ok (o, st') ∧ Inv st' ns' ∧ Owned st' ns' := by
  obtain ⟨o, st', ns', hrun, H', -, heff, -⟩ := skipStep_spec H c
  refine ⟨o, st', ns', hrun, H', ?_⟩
  generalize st.released = rel at heff
  generalize st'.released = rel' at heff
  cases heff with
  | @overwrite k p t pre post x _ hpre hx hpost =>
    obtain ⟨⟨r, s⟩, hins, he⟩ := Runs.bind_eq_ok.mp hrun
    obtain ⟨ho, rfl⟩ := Runs.ok_pair_inj he
    rcases skipInsert_live hins with ⟨-, hlive⟩ | ⟨rfl, -⟩
    · exact hown.of_stores H' (by simp) hlive
    · cases ho
  | @add k p t pre post a _ hpre hpost =>
    obtain ⟨⟨r, s⟩, hins, he⟩ := Runs.bind_eq_ok.mp hrun
    obtain ⟨ho, rfl⟩ := Runs.ok_pair_inj he
    rcases skipInsert_live hins with ⟨rfl, -⟩ | ⟨-, hlive⟩
    · cases ho
    · apply Owned.of_length H' (st.heap.next :: st.sl.header :: (pre ++ post).map Tower.addr)
      · intro b hb
        rcases hlive b hb with rfl | hb
        · exact List.mem_cons_self
        · exact List.mem_cons_of_mem _ (hown b hb)
      · simp only [List.length_cons, List.length_map, List.length_append]
        omega
  | @remove k pre post x _ hpre hx hpost =>
    obtain ⟨⟨r, s⟩, hdel, he⟩ := Runs.bind_eq_ok.mp hrun
    obtain ⟨ho, rfl⟩ := Runs.ok_pair_inj he
    rcases skipDelete_live hdel with ⟨rfl, -⟩ | ⟨-, y, hy, hlive⟩
    · cases ho
    · apply Owned.of_length H' ((st.sl.header :: (pre ++ x :: post).map Tower.addr).erase y)
      · intro b hb
        obtain ⟨hne, hb⟩ := hlive b hb
        exact (List.mem_erase_of_ne hne).mpr (hown b hb)
      · rw [List.length_erase_of_mem (hown y hy)]
        simp only [List.length_cons, List.length_map, List.length_append]
        omega
  | @absent k ns _ h =>
    obtain ⟨⟨r, s⟩, hdel, he⟩ := Runs.bind_eq_ok.mp hrun
    obtain ⟨ho, rfl⟩ := Runs.ok_pair_inj he
    rcases skipDelete_live hdel with ⟨-, hlive⟩ | ⟨rfl, -⟩
    · exact hown.of_stores H' rfl hlive
    · cases ho
  | @search k ns _ =>
    obtain ⟨r, -, he⟩ := Runs.bind_eq_ok.mp hrun
    obtain ⟨-, rfl⟩ := Runs.ok_pair_inj he
    exact hown.of_stores H' rfl (SameLive.refl _)
  | @fingerSearch k r ns _ =>
    obtain ⟨⟨r, s⟩, hfind, he⟩ := Runs.bind_eq_ok.mp hrun
    obtain ⟨-, rfl⟩ := Runs.ok_pair_inj he
    exact hown.of_stores H' rfl (skipFingerSearch_live hfind)
  | length =>
    obtain ⟨-, rfl⟩ := Runs.ok_pair_inj hrun
    exact hown

theorem skipInit_owned (f : FreeFunc) :
    ∃ st : State P, skipInit f = .ok st ∧ Inv st [] ∧ Owned st [] := by
  obtain ⟨st, hinit, H, -⟩ := skipInit_spec (P := P) f
  refine ⟨st, hinit, H, Owned.of_length H [0] ?_ (by simp)⟩
  obtain ⟨h, hloop, he⟩ := Runs.bind_eq_ok.mp hinit
  obtain rfl := Except.ok.inj he
  have hlive : SameLive _ h := foldlM_live (fun _ _ _ => setForward_live) _ hloop
  intro a ha
  rw [hlive a] at ha
  by_cases h0 : a = 0
  · rw [h0]
    exact List.mem_cons_self
  · simp [Store.alloc, Store.empty, h0] at ha

theorem destroyNodes_dead (f : FreeFunc) {a : Addr} :
    ∀ (fuel : Nat) (p : Option Addr) {h h' : Heap P} {rel rel' : List (Option P)},
      destroyNodes f fuel p h rel = .ok (h', rel') → h.cell a = none → h'.cell a = none
  | 0, none, _, _, _, _, hrun, ha => by
    obtain ⟨rfl, -⟩ := Runs.ok_pair_inj hrun
    exact ha
  | _ + 1, none, _, _, _, _, hrun, ha => by
    obtain ⟨rfl, -⟩ := Runs.ok_pair_inj hrun
    exact ha
  | 0, some _, _, _, _, _, hrun, _ => by cases hrun
  | fuel + 1, some node, _, _, _, _, hrun, ha => by
    obtain ⟨next, -, hrun⟩ := Runs.bind_eq_ok.mp hrun
    obtain ⟨n, -, hrun⟩ := Runs.bind_eq_ok.mp hrun
    exact destroyNodes_dead f fuel next hrun (Store.cell_free_dead ha)

/-- After every session the live objects are the header and the nodes of the level-0 chain,
    each once; after `skip_destroy` none is left. -/
theorem skip_no_leak (f : FreeFunc) (calls : List (Call P)) :
    ∃ os st c, session f calls = .ok (os, st) ∧ chainAt st 0 = some c ∧
      (st.sl.header :: c).Nodup ∧ (∀ a, (st.heap.cell a).isSome ↔ a ∈ st.sl.header :: c) ∧
      ∃ heap released, skipDestroy st = .ok (heap, released) ∧ ∀ a, heap.cell a = none := by
  obtain ⟨st₀, hinit, H₀, hown₀⟩ := skipInit_owned (P := P) f
  obtain ⟨os, st, hrun, ns, H, hown⟩ := Runs.run_total skipStep
    (fun _ st => ∃ ns, Inv st ns ∧ Owned st ns)
    (fun _ st c ⟨ns, H, hown⟩ => by
      obtain ⟨o, st', ns', hrun, H', hown'⟩ := skipStep_owned H hown c
      exact ⟨o, st', hrun, ns', H', hown'⟩) calls [] st₀ ⟨[], H₀, hown₀⟩
  obtain ⟨heap, hdestroy, hhdr, hnodes⟩ := skipDestroy_spec H
  refine ⟨os, st, ns.map Tower.addr, ?_, H.wellFormed.base, H.rep.nodup,
    fun a => ⟨hown a, H.rep.live a⟩, heap, _, hdestroy, fun a => ?_⟩
  · simp only [session, hinit, Runs.ok_bind, hrun]
  · by_cases ha : a ∈ st.sl.header :: ns.map Tower.addr
    · rcases List.mem_cons.mp ha with rfl | ha
      · exact hhdr
      · obtain ⟨n, hn, rfl⟩ := List.mem_map.mp ha
        exact hnodes n hn
    · -- what was dead before stays dead
      have hdead : st.heap.cell a = none := by
        rw [← Option.not_isSome_iff_eq_none]
        exact fun h => ha (hown a h)
      obtain ⟨node, -, hrun⟩ := Runs.bind_eq_ok.mp hdestroy
      exact destroyNodes_dead _ _ _ hrun (Store.cell_free_dead hdead)

end DataMonkey.Skip
