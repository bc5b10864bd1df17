import DataMonkey.Skip.Insert
import DataMonkey.Skip.Delete
import DataMonkey.Skip.Finger

/- One call on a list in the invariant, and what holds after every session.

   `Effect` says everything a call can do to the nodes and to the released payloads;
   `skipStep_spec` proves that every call succeeds with one of these effects and keeps
   the invariant. The results about sessions follow from it by the run rules:

     1. `skip_well_formed` — the chains of all levels, the level and the length;
     2. `skip_safe` — no call after a session faults, and where the fingers are. -/
namespace DataMonkey.Skip

open Chain

variable {P : Type}

/-- The calls that leave fingers on every level in use. -/
def Call.touches : Call P → Bool
  | .insert .. | .delete _ | .fingerSearch _ => true
  | .search _ | .length => false

/-- What a call does: its reply, the nodes before and after, and the payloads released
    before and after. -/
inductive Effect (f : FreeFunc) : Call P → Reply P → List (Tower P) → List (Tower P) →
    List (Option P) → List (Option P) → Prop
  | overwrite {k : Key} {p : P} {t : Height} {pre post : List (Tower P)} {x : Tower P}
      {released : List (Option P)} (hpre : ∀ n ∈ pre, n.key < k.val) (hx : x.key = k.val)
      (hpost : ∀ n ∈ post, k.val < n.key) :
      Effect f (.insert k p t) (.code 2) (pre ++ x :: post)
        (pre ++ { x with payload := p } :: post) released
        (callFree f (some x.payload) released)
  | add {k : Key} {p : P} {t : Height} {pre post : List (Tower P)} {a : Addr}
      {released : List (Option P)} (hpre : ∀ n ∈ pre, n.key < k.val)
      (hpost : ∀ n ∈ post, k.val < n.key) :
      Effect f (.insert k p t) (.code 1) (pre ++ post) (pre ++ ⟨a, k.val, p, t.val⟩ :: post)
        released released
  | remove {k : Key} {pre post : List (Tower P)} {x : Tower P} {released : List (Option P)}
      (hpre : ∀ n ∈ pre, n.key < k.val) (hx : x.key = k.val)
      (hpost : ∀ n ∈ post, k.val < n.key) :
      Effect f (.delete k) (.code 1) (pre ++ x :: post) (pre ++ post) released
        (callFree f (some x.payload) released)
  | absent {k : Key} {ns : List (Tower P)} {released : List (Option P)}
      (h : ∀ n ∈ ns, n.key ≠ k.val) : Effect f (.delete k) (.code 0) ns ns released released
  | search {k : Key} {ns : List (Tower P)} {released : List (Option P)} :
      Effect f (.search k) (.payload (lookup ns k.val)) ns ns released released
  | fingerSearch {k : Key} {r : Option P} {ns : List (Tower P)} {released : List (Option P)} :
      Effect f (.fingerSearch k) (.payload r) ns ns released released
  | length {ns : List (Tower P)} {released : List (Option P)} :
      Effect f .length (.length ns.length) ns ns released released

section Step

variable {st : State P} {ns : List (Tower P)}

theorem insert_step (H : Inv st ns) (k : Key) (p : P) (t : Height) :
    ∃ o st' ns', skipStep st (.insert k p t) = .ok (o, st') ∧ Holds st' ns' ∧ Fingers st' ns' ∧
      st'.sl.freeFunc = st.sl.freeFunc ∧
      Effect st.sl.freeFunc (.insert k p t) o ns ns' st.released st'.released := by
  rcases split_cases H.rep.sorted k.val with ⟨pre, post, rfl, hpre, hpost⟩ |
    ⟨pre, x, post, rfl, hpre, hx, hpost⟩
  · obtain ⟨st', hrun, hH, hF, hrel, hff⟩ :=
      skipInsert_fresh H.toHolds hpre hpost k.property p t
    refine ⟨.code 1, st', _, ?_, hH, hF, hff, ?_⟩
    · simp only [skipStep, hrun, Runs.ok_bind]
    · rw [hrel]
      exact Effect.add hpre hpost
  · obtain ⟨st', hrun, hH, hF, hrel, hff⟩ :=
      skipInsert_stored H.toHolds hpre hx hpost k.property p t
    refine ⟨.code 2, st', _, ?_, hH, hF, hff, ?_⟩
    · simp only [skipStep, hrun, Runs.ok_bind]
    · rw [hrel]
      exact Effect.overwrite hpre hx hpost

theorem delete_step (H : Inv st ns) (k : Key) :
    ∃ o st' ns', skipStep st (.delete k) = .ok (o, st') ∧ Holds st' ns' ∧ Fingers st' ns' ∧
      st'.sl.freeFunc = st.sl.freeFunc ∧
      Effect st.sl.freeFunc (.delete k) o ns ns' st.released st'.released := by
  rcases split_cases H.rep.sorted k.val with ⟨pre, post, rfl, hpre, hpost⟩ |
    ⟨pre, x, post, rfl, hpre, hx, hpost⟩
  · obtain ⟨st', hrun, hH, hF, -, hrel, hff⟩ :=
      skipDelete_absent H.toHolds hpre hpost k.property
    refine ⟨.code 0, st', _, ?_, hH, hF, hff, ?_⟩
    · simp only [skipStep, hrun, Runs.ok_bind]
    · rw [hrel]
      exact Effect.absent (key_ne_of_cut hpre hpost)
  · obtain ⟨st', hrun, hH, hF, hrel, hff⟩ :=
      skipDelete_stored H.toHolds hpre hx hpost k.property
    refine ⟨.code 1, st', _, ?_, hH, hF, hff, ?_⟩
    · simp only [skipStep, hrun, Runs.ok_bind]
    · rw [hrel]
      exact Effect.remove hpre hx hpost

/-- Every call on a list in the invariant succeeds, keeps the invariant and has an effect
    of the list above. -/
theorem skipStep_spec (H : Inv st ns) (c : Call P) :
    ∃ o st' ns', skipStep st c = .ok (o, st') ∧ Inv st' ns' ∧
      st'.sl.freeFunc = st.sl.freeFunc ∧
      Effect st.sl.freeFunc c o ns ns' st.released st'.released ∧
      (Fingers st ns ∨ c.touches = true → Fingers st' ns') := by
  cases c with
  | insert k p t =>
    obtain ⟨o, st', ns', hrun, hH, hF, hff, heff⟩ := insert_step H k p t
    exact ⟨o, st', ns', hrun, ⟨hH, Or.inl hF⟩, hff, heff, fun _ => hF⟩
  | delete k =>
    obtain ⟨o, st', ns', hrun, hH, hF, hff, heff⟩ := delete_step H k
    exact ⟨o, st', ns', hrun, ⟨hH, Or.inl hF⟩, hff, heff, fun _ => hF⟩
  | search k =>
    refine ⟨.payload (lookup ns k.val), st, ns, ?_, H, rfl, Effect.search, ?_⟩
    · simp only [skipStep, skipSearch_spec H.toHolds k.property, Runs.ok_bind]
    · exact fun h => h.resolve_right Bool.false_ne_true
  | fingerSearch k =>
    obtain ⟨r, finger, hrun, hF, -⟩ := skipFingerSearch_spec H k.property
    refine ⟨.payload r, { st with sl := { st.sl with finger := finger } }, ns, ?_,
      ⟨⟨H.rep, H.level, H.length⟩, Or.inl hF⟩, rfl, Effect.fingerSearch, fun _ => hF⟩
    simp only [skipStep, hrun, Runs.ok_bind]
  | length =>
    refine ⟨.length ns.length, st, ns, ?_, H, rfl, Effect.length, ?_⟩
    · rw [← H.length]
      rfl
    · exact fun h => h.resolve_right Bool.false_ne_true

end Step

/-- The history rule for sessions: a relation between the calls, the nodes and the
    released payloads that holds at the start and that every effect keeps. -/
theorem session_history (f : FreeFunc) (R : List (Call P) → List (Tower P) → List (Option P) → Prop)
    (h₀ : R [] [] [])
    (hstep : ∀ past c o ns ns' rel rel', R past ns rel → Effect f c o ns ns' rel rel' →
      R (past ++ [c]) ns' rel') (calls : List (Call P)) :
    ∃ os st ns, session f calls = .ok (os, st) ∧ Inv st ns ∧ st.sl.freeFunc = f ∧
      (calls.any Call.touches = true → Fingers st ns) ∧ R calls ns st.released := by
  obtain ⟨st₀, hinit, H₀, -, hf₀, hrel₀⟩ := skipInit_spec (P := P) f
  obtain ⟨os, st, hrun, ns, H, hf, hF, hR⟩ := Runs.run_total skipStep
    (fun past st => ∃ ns, Inv st ns ∧ st.sl.freeFunc = f ∧
      (past.any Call.touches = true → Fingers st ns) ∧ R past ns st.released)
    (fun past st c ⟨ns, H, hf, hF, hR⟩ => by
      obtain ⟨o, st', ns', hrun, H', hf', heff, hF'⟩ := skipStep_spec H c
      rw [hf] at hf' heff
      refine ⟨o, st', hrun, ns', H', hf', fun ht => hF' ?_, hstep past c o ns ns' _ _ hR heff⟩
      rw [List.any_append, Bool.or_eq_true] at ht
      rcases ht with ht | ht
      · exact Or.inl (hF ht)
      · exact Or.inr (by simpa using ht))
    calls [] st₀ ⟨[], H₀, hf₀, fun h => absurd h (by simp), by rw [hrel₀]; exact h₀⟩
  refine ⟨os, st, ns, ?_, H, hf, hF, hR⟩
  simp only [session, hinit, Runs.ok_bind, hrun]

theorem session_spec (f : FreeFunc) (calls : List (Call P)) :
    ∃ os st ns, session f calls = .ok (os, st) ∧ Inv st ns ∧ st.sl.freeFunc = f ∧
      (calls.any Call.touches = true → Fingers st ns) := by
  obtain ⟨os, st, ns, hrun, H, hf, hF, -⟩ :=
    session_history f (fun _ _ _ => True) trivial (fun _ _ _ _ _ _ _ _ _ => trivial) calls
  exact ⟨os, st, ns, hrun, H, hf, hF⟩

/-! ## The chains, read from outside -/

/-- The chain of every level holds the nodes of the level-0 chain `c` taller than the
    level, by rising keys; the level is that of the tallest node, the header points to
    nothing from there on, and the length counts the nodes. -/
structure WellFormed (st : State P) (c : List Addr) : Prop where
  chain : ∀ i < skipMax, chainAt st i = some (c.filter fun a => i < heightOf st.heap a)
  base : chainAt st 0 = some c
  sorted : ∀ i < skipMax, ∀ l, chainAt st i = some l →
    ∃ ks : List UInt32, l.map (keyOf st.heap) = ks.map some ∧ ks.Pairwise (· < ·)
  level : st.sl.level = (c.map (heightOf st.heap)).foldr max 1
  above : ∀ i, st.sl.level ≤ i → i < skipMax → forward st.heap i st.sl.header = .ok none
  length : st.sl.length = c.length

theorem Rep.heightOf {h : Heap P} {hdr : Addr} {ns : List (Tower P)} (r : Rep h hdr ns)
    {n : Tower P} (hn : n ∈ ns) : heightOf h n.addr = n.height := by
  obtain ⟨m, -, hc, -, -, ht⟩ := load_of_shape (r.node n hn)
  simp only [Skip.heightOf, hc, Option.map_some, Option.getD_some, ht]

theorem Rep.keyOf_map {h : Heap P} {hdr : Addr} {ns ms : List (Tower P)} (r : Rep h hdr ns)
    (hsub : ∀ n ∈ ms, n ∈ ns) :
    (ms.map Tower.addr).map (keyOf h) = (ms.map Tower.key).map some := by
  rw [List.map_map, List.map_map]
  apply List.map_congr_left
  intro n hn
  exact keyOf_of_shape (r.node n (hsub n hn))

theorem Inv.wellFormed {st : State P} {ns : List (Tower P)} (H : Inv st ns) :
    WellFormed st (ns.map Tower.addr) := by
  have r := H.rep
  constructor
  case chain =>
    intro i hi
    rw [r.chainAt hi, List.filter_map]
    refine congrArg (fun l => some (List.map Tower.addr l)) (List.filter_congr ?_)
    intro n hn
    rw [Function.comp_apply, r.heightOf hn]
  case base =>
    rw [r.chainAt (by decide), r.onLevel_zero]
  case sorted =>
    intro i hi l hl
    rw [r.chainAt hi, Option.some.injEq] at hl
    subst hl
    refine ⟨(onLevel i ns).map Tower.key, r.keyOf_map fun n hn => (mem_onLevel.mp hn).1, ?_⟩
    exact List.pairwise_map.mpr (r.sorted.sublist List.filter_sublist)
  case level =>
    rw [H.level, List.map_map, topLevel, List.foldr_map]
    -- the heights read from the heap are those of the nodes
    have hfold : ∀ ms : List (Tower P), (∀ n ∈ ms, n ∈ ns) →
        ms.foldr (fun n t => max n.height t) 1 =
          ms.foldr (fun n t => max ((Skip.heightOf st.heap ∘ Tower.addr) n) t) 1 := by
      intro ms hms
      induction ms with
      | nil => rfl
      | cons m ms ih =>
        obtain ⟨hm, hms⟩ := List.forall_mem_cons.mp hms
        rw [List.foldr_cons, List.foldr_cons, ih hms, Function.comp_apply, r.heightOf hm]
    exact hfold ns fun _ hn => hn
  case above =>
    intro i hlo hi
    rw [r.forward_header hi, onLevel_top (by rw [← H.level]; exact hlo)]
    rfl
  case length =>
    rw [H.length, List.length_map]

/-- After every session the list is well formed. -/
theorem skip_well_formed (f : FreeFunc) (calls : List (Call P)) :
    ∃ os st c, session f calls = .ok (os, st) ∧ WellFormed st c := by
  obtain ⟨os, st, ns, hrun, H, -⟩ := session_spec f calls
  exact ⟨os, st, _, hrun, H.wellFormed⟩

/-- A node keeps the height it was created with: after a call a node of the list was in it
    before and is as tall, or the call is an insertion that drew its height. -/
theorem skipStep_heightOf {st st' : State P} {ns : List (Tower P)} {c : Call P} {o : Reply P}
    (H : Inv st ns) (hrun : skipStep st c = .ok (o, st')) :
    ∃ ns', Inv st' ns' ∧ ∀ m ∈ ns', heightOf st'.heap m.addr = m.height ∧
      ((∃ n ∈ ns, n.addr = m.addr ∧ heightOf st.heap n.addr = m.height) ∨
        ∃ k p t, c = .insert k p t ∧ (∀ n ∈ ns, n.key ≠ k.val) ∧ m.key = k.val ∧
          m.height = t.val) := by
  obtain ⟨o', t, ns', hrun', H', -, heff, -⟩ := skipStep_spec H c
  rw [hrun, Except.ok.injEq, Prod.mk.injEq] at hrun'
  obtain ⟨rfl, rfl⟩ := hrun'
  refine ⟨ns', H', fun m hm => ⟨H'.rep.heightOf hm, ?_⟩⟩
  have hold : m ∈ ns → ∃ n ∈ ns, n.addr = m.addr ∧ heightOf st.heap n.addr = m.height :=
    fun h => ⟨m, h, rfl, H.rep.heightOf h⟩
  generalize st.released = rel at heff
  generalize st'.released = rel' at heff
  cases heff with
  | @overwrite k p t pre post x _ hpre hx hpost =>
    left
    rcases List.mem_append.mp hm with hm | hm
    · exact hold (List.mem_append_left _ hm)
    · rcases List.mem_cons.mp hm with rfl | hm
      · exact ⟨x, by simp, rfl, H.rep.heightOf (by simp)⟩
      · exact hold (by simp [hm])
  | @add k p t pre post a _ hpre hpost =>
    -- only the node in the middle is new
    rcases List.mem_append.mp hm with hm | hm
    · exact Or.inl (hold (List.mem_append_left _ hm))
    · rcases List.mem_cons.mp hm with rfl | hm
      · exact Or.inr ⟨k, p, t, rfl, key_ne_of_cut hpre hpost, rfl, rfl⟩
      · exact Or.inl (hold (List.mem_append_right _ hm))
  | remove hpre hx hpost =>
    left
    rcases List.mem_append.mp hm with hm | hm
    · exact hold (List.mem_append_left _ hm)
    · exact hold (by simp [hm])
  | absent _ => exact Or.inl (hold hm)
  | search => exact Or.inl (hold hm)
  | fingerSearch => exact Or.inl (hold hm)
  | length => exact Or.inl (hold hm)

/-! ## No call faults -/

/-- The finger is the header or a live node with a slot on level `i`. -/
def FingerLive (st : State P) (i : Nat) : Prop :=
  ∃ a n, st.sl.finger i = some a ∧ st.heap.cell a = some n ∧ i < n.level.length

/-- No session faults, no further call faults, and once there is more than one level or a
    call other than a search ran, the fingers of all levels in use can be followed. -/
theorem skip_safe (f : FreeFunc) (calls : List (Call P)) :
    ∃ os st, session f calls = .ok (os, st) ∧
      (∀ c, ∃ o st', skipStep st c = .ok (o, st')) ∧
      (1 < st.sl.level ∨ calls.any Call.touches = true →
        ∀ i < st.sl.level, FingerLive st i) := by
  obtain ⟨os, st, ns, hrun, H, -, hF⟩ := session_spec f calls
  refine ⟨os, st, hrun, fun c => ?_, fun hc i hi => ?_⟩
  · obtain ⟨o, st', -, hstep, -⟩ := skipStep_spec H c
    exact ⟨o, st', hstep⟩
  · have hfin : Fingers st ns := by
      rcases hc with hc | hc
      · exact H.fingers.resolve_right fun hu => by have := hu.1; omega
      · exact hF hc
    obtain ⟨a, hfa, ha⟩ := hfin i hi
    have hmax := H.toHolds.level_bounds.2
    obtain ⟨k, p, t, hs, ht⟩ := H.rep.shape_mem ha (by omega)
    obtain ⟨n, -, hcell, -, -, rfl⟩ := load_of_shape hs
    exact ⟨a, n, hfa, hcell, ht⟩

end DataMonkey.Skip
