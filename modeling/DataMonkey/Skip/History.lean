import DataMonkey.Skip.Map

/- The links of a skip list depend on its contents alone.

   `contents` makes the calls on a map from keys to payloads and tower heights: an insertion
   over a stored key keeps the tower, and no search leaves a trace. The nodes of the list are
   the entries of this map by rising keys (`Represents.unique`), so two sessions with the same
   contents have the same links on every level, whatever order they came in and whatever was
   inserted and deleted on the way.

     1. `Represents.unique` — sorted nodes with the same lookups carry the same;
     2. `Effect.contents` — what a call does to the map;
     3. `skip_history_independent` — the levels of a list, read off the map. -/
namespace DataMonkey.Skip

variable {P Q : Type}

/-- Contents with the height of each tower. -/
abbrev TowerMap (P : Type) := KeyMap (P × Nat)

def contentsStep (M : TowerMap P) : Call P → TowerMap P
  | .insert k p t => M.insert k (p, ((M.lookup k).map Prod.snd).getD t.val)
  | .delete k => M.erase k
  | .search _ | .fingerSearch _ | .length => M

def contents (calls : List (Call P)) : TowerMap P := calls.foldl contentsStep ∅

/-- The nodes of a level, read from the heap: key, payload and height. -/
def shapesAt (st : State P) (i : Nat) : Option (List (Option (UInt32 × Option P × Nat))) :=
  (chainAt st i).map fun c => c.map (shapeOf st.heap)

/-! ## Sorted nodes with the same lookups -/

theorem lookup_eq_some_iff {ns : List (Tower P)} (hsort : ns.Pairwise fun m n => m.key < n.key)
    {k : UInt32} {p : P} : lookup ns k = some p ↔ ∃ n ∈ ns, n.key = k ∧ n.payload = p := by
  refine ⟨?_, ?_⟩
  · intro h
    obtain ⟨n, hfind, hp⟩ := Option.map_eq_some_iff.mp h
    exact ⟨n, List.mem_of_find?_eq_some hfind, by simpa using List.find?_some hfind, hp⟩
  · intro h
    obtain ⟨n, hn, hk, rfl⟩ := h
    obtain ⟨pre, post, rfl⟩ := List.append_of_mem hn
    have hpre := (List.pairwise_append.mp hsort).2.2
    apply lookup_middle post _ hk
    intro m hm
    rw [← hk]
    exact hpre m hm n List.mem_cons_self

/-- What a node says about its key. -/
def Tower.entry (n : Tower P) : UInt32 × P := (n.key, n.payload)

section Sorted

variable {M : KeyMap P} {ns ms : List (Tower P)}

theorem entries_sorted (hsort : ns.Pairwise fun m n => m.key < n.key) :
    (ns.map Tower.entry).Pairwise fun d e => d.1 < e.1 := List.pairwise_map.mpr hsort

theorem Represents.mem_entries (h : Represents M ns) (hsort : ns.Pairwise fun m n => m.key < n.key)
    (hpos : ∀ n ∈ ns, 0 < n.key) (e : UInt32 × P) :
    e ∈ ns.map Tower.entry ↔ ∃ hk : e.1 ≠ 0, M.lookup ⟨e.1, hk⟩ = some e.2 := by
  rw [List.mem_map]
  refine ⟨?_, ?_⟩
  · intro he
    obtain ⟨n, hn, rfl⟩ := he
    refine ⟨(UInt32.ne_of_lt (hpos n hn)).symm, ?_⟩
    rw [h]
    exact (lookup_eq_some_iff hsort).mpr ⟨n, hn, rfl, rfl⟩
  · intro he
    obtain ⟨hk, he⟩ := he
    rw [h] at he
    obtain ⟨n, hn, hkey, hp⟩ := (lookup_eq_some_iff hsort).mp he
    exact ⟨n, hn, Prod.ext hkey hp⟩

theorem Represents.unique (hns : Represents M ns) (hms : Represents M ms)
    (hnsort : ns.Pairwise fun m n => m.key < n.key) (hmsort : ms.Pairwise fun m n => m.key < n.key)
    (hnpos : ∀ n ∈ ns, 0 < n.key) (hmpos : ∀ n ∈ ms, 0 < n.key) :
    ns.map Tower.entry = ms.map Tower.entry := by
  have hnodup : ∀ {es : List (UInt32 × P)}, (es.Pairwise fun d e => d.1 < e.1) → es.Nodup :=
    fun h => h.imp fun hlt he => UInt32.ne_of_lt hlt (congrArg Prod.fst he)
  have hn := entries_sorted hnsort
  have hm := entries_sorted hmsort
  -- both have the entries of the map
  have hperm : (ns.map Tower.entry).Perm (ms.map Tower.entry) := by
    rw [List.perm_ext_iff_of_nodup (hnodup hn) (hnodup hm)]
    intro e
    rw [hns.mem_entries hnsort hnpos, hms.mem_entries hmsort hmpos]
  apply hperm.eq_of_pairwise _ hn hm
  intro d e _ _ hde hed
  exact absurd hed (UInt32.lt_asymm hde)

end Sorted

/-! ## The contents of a list -/

/-- A node with its height in the payload. -/
def Tower.tall (n : Tower P) : Tower (P × Nat) := ⟨n.addr, n.key, (n.payload, n.height), n.height⟩

theorem Effect.contents {f : FreeFunc} {c : Call P} {o : Reply P} {ns ns' : List (Tower P)}
    {rel rel' : List (Option P)} (heff : Effect f c o ns ns' rel rel') {M : TowerMap P}
    (h : Represents M (ns.map Tower.tall)) :
    Represents (contentsStep M c) (ns'.map Tower.tall) := by
  -- what is below or above a key stays so
  have hlow : ∀ {pre : List (Tower P)} {k : UInt32}, (∀ n ∈ pre, n.key < k) →
      ∀ n ∈ pre.map Tower.tall, n.key < k :=
    fun hpre => List.forall_mem_map.mpr hpre
  have hhigh : ∀ {post : List (Tower P)} {k : UInt32}, (∀ n ∈ post, k < n.key) →
      ∀ n ∈ post.map Tower.tall, k < n.key :=
    fun hpost => List.forall_mem_map.mpr hpost
  cases heff with
  | @overwrite k p t pre post x _ hpre hx hpost =>
    rw [List.map_append, List.map_cons] at h
    have hold : M.lookup k = some (x.payload, x.height) := by
      rw [h k]
      exact lookup_middle _ (hlow hpre) hx
    have hnew := h.overwrite (k := k) hx (hlow hpre) (p, x.height)
    simp only [contentsStep, hold, Option.map_some, Option.getD_some, List.map_append,
      List.map_cons]
    exact hnew
  | @add k p t pre post a _ hpre hpost =>
    rw [List.map_append] at h
    have hold : M.lookup k = none := by
      rw [h k]
      exact lookup_cut (hlow hpre) (hhigh hpost)
    have hnew := Represents.insert (x := Tower.tall ⟨a, k.val, p, t.val⟩) h rfl (hlow hpre)
    simp only [contentsStep, hold, Option.map_none, Option.getD_none, List.map_append,
      List.map_cons]
    exact hnew
  | @remove k pre post x _ hpre hx hpost =>
    rw [List.map_append, List.map_cons] at h
    simp only [contentsStep, List.map_append]
    exact h.erase hx (hlow hpre) (hhigh hpost)
  | @absent k ns _ habs =>
    intro k'
    by_cases hk : k' = k
    · have hnone : lookup (ns.map Tower.tall) k.val = none := by
        apply lookup_eq_none
        exact List.forall_mem_map.mpr habs
      rw [hk, contentsStep, Finmap.lookup_erase, hnone]
    · rw [contentsStep, Finmap.lookup_erase_ne hk]
      exact h k'
  | search => exact h
  | fingerSearch => exact h
  | length => exact h

/-- What the nodes of a level look like in memory, from the entries of all nodes. -/
def levelShapes (es : List (UInt32 × P × Nat)) (i : Nat) :
    List (Option (UInt32 × Option P × Nat)) :=
  (es.filter fun e => i < e.2.2).map fun e => some (e.1, some e.2.1, e.2.2)

/-- The entries of the nodes, with their heights. -/
def entries (ns : List (Tower P)) : List (UInt32 × P × Nat) :=
  (ns.map Tower.tall).map Tower.entry

theorem Rep.shapesAt {st : State P} {ns : List (Tower P)} (r : Rep st.heap st.sl.header ns)
    {i : Nat} (hi : i < skipMax) : shapesAt st i = some (levelShapes (entries ns) i) := by
  rw [Skip.shapesAt, r.chainAt hi, Option.map_some, List.map_map, levelShapes, entries,
    List.map_map, List.filter_map, List.map_map]
  apply congrArg some
  apply List.map_congr_left
  intro n hn
  exact r.node n (mem_onLevel.mp hn).1

theorem topLevel_entries (ns : List (Tower P)) :
    topLevel ns = (entries ns).foldr (fun e t => max e.2.2 t) 1 := by
  rw [entries, List.map_map, List.foldr_map]
  rfl

theorem length_entries (ns : List (Tower P)) : (entries ns).length = ns.length := by
  rw [entries, List.length_map, List.length_map]

/-- After a session the nodes are the entries of its contents. -/
theorem session_contents (f : FreeFunc) (calls : List (Call P)) :
    ∃ os st ns, session f calls = .ok (os, st) ∧ Inv st ns ∧
      Represents (contents calls) (ns.map Tower.tall) := by
  obtain ⟨os, st, ns, hrun, H, -, -, hR⟩ := session_history f
    (fun past ns _ => Represents (contents past) (ns.map Tower.tall))
    (fun k => Finmap.lookup_empty k)
    (fun past c o ns ns' rel rel' h heff => by
      rw [contents, List.foldl_append]
      exact heff.contents h) calls
  exact ⟨os, st, ns, hrun, H, hR⟩

/-- The nodes of every level are the entries of the contents that are taller than the level,
    by rising keys, and any other session with these contents has the same nodes on the same
    levels, the same level and the same length. -/
theorem skip_history_independent (f : FreeFunc) (calls : List (Call P)) :
    ∃ os st, session f calls = .ok (os, st) ∧
      (∀ i < skipMax, ∃ es : List (UInt32 × P × Nat),
        shapesAt st i = some (es.map fun e => some (e.1, some e.2.1, e.2.2)) ∧
        (es.Pairwise fun d e => d.1 < e.1) ∧
        ∀ e, e ∈ es ↔ i < e.2.2 ∧ ∃ h : e.1 ≠ 0, (contents calls).lookup ⟨e.1, h⟩ = some e.2) ∧
      ∀ g calls', contents calls' = contents calls →
        ∃ os' st', session g calls' = .ok (os', st') ∧ st'.sl.level = st.sl.level ∧
          st'.sl.length = st.sl.length ∧ ∀ i < skipMax, shapesAt st' i = shapesAt st i := by
  have hsorted : ∀ {st : State P} {ns}, Inv st ns →
      (ns.map Tower.tall).Pairwise fun m n => m.key < n.key :=
    fun H => List.pairwise_map.mpr H.rep.sorted
  have hpos : ∀ {st : State P} {ns}, Inv st ns → ∀ n ∈ ns.map Tower.tall, 0 < n.key :=
    fun H => List.forall_mem_map.mpr H.rep.key_pos
  obtain ⟨os, st, ns, hrun, H, hM⟩ := session_contents f calls
  refine ⟨os, st, hrun, fun i hi => ?_, fun g calls' hsame => ?_⟩
  · refine ⟨(entries ns).filter fun e => i < e.2.2, H.rep.shapesAt hi, ?_, fun e => ?_⟩
    · exact (entries_sorted (hsorted H)).sublist List.filter_sublist
    · rw [List.mem_filter, decide_eq_true_eq, entries,
        hM.mem_entries (hsorted H) (hpos H) e, and_comm]
  · obtain ⟨os', st', ns', hrun', H', hM'⟩ := session_contents g calls'
    rw [hsame] at hM'
    have heq : entries ns' = entries ns :=
      hM'.unique hM (hsorted H') (hsorted H) (hpos H') (hpos H)
    refine ⟨os', st', hrun', ?_, ?_, fun i hi => ?_⟩
    · rw [H'.level, H.level, topLevel_entries, topLevel_entries, heq]
    · rw [H'.length, H.length, ← length_entries, ← length_entries, heq]
    · rw [H'.rep.shapesAt hi, H.rep.shapesAt hi, heq]

end DataMonkey.Skip
