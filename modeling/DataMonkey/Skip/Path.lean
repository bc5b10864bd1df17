import DataMonkey.Lib.Records
import DataMonkey.Skip.Step

/- The path of a search.

   `searchPath` is `skip_search` with a record of the nodes that `x = x->level[i].forward`
   moves to; without the record it is the search (`walk_path`, `descend_path`). The descent
   moves to a node on the highest level of its tower if it moves to it at all, and it does so
   exactly if no node between it and the key is taller: the path is the list of records among
   the heights of the nodes before the key, read from the key back.

     1. `walk_path`, `descend_path` — the record changes nothing;
     2. `walkPath_pred` — the moves on one level;
     3. `records_level` — one level more of the records;
     4. `skip_search_path` — the whole path. -/
namespace DataMonkey.Skip

open Chain Records

variable {P : Type}

/-! ## The search with its moves -/

/-- `Chain.walk` with the addresses moved to. -/
def walkPath (h : Heap P) (key : UInt32) (i : Nat) : Nat → Addr → Except Fault (List Addr)
  | 0, _ => .error .endless
  | fuel + 1, x => do
    match ← forward h i x with
    | none => .ok []
    | some y =>
      if ← keyLess h key y then
        let path ← walkPath h key i fuel y
        .ok (y :: path)
      else .ok []

/-- Where moves along `path` lead from `x`. -/
def endOf (x : Addr) (path : List Addr) : Addr := (x :: path).getLast (List.cons_ne_nil x path)

def descendPath (h : Heap P) (key : UInt32) : Nat → Addr → Except Fault (List Addr)
  | 0, _ => .ok []
  | i + 1, x => do
    let path ← walkPath h key i h.next x
    let rest ← descendPath h key i (endOf x path)
    .ok (path ++ rest)

def searchPath (st : State P) (key : UInt32) : Except Fault (List Addr) := do
  checkHard (key ≠ 0)
  descendPath st.heap key st.sl.level st.sl.header

/-- How often `skip_search` evaluates its loop condition: once for every move, and once on
    every level to stop. -/
def searchTests (st : State P) (key : UInt32) : Except Fault Nat := do
  let path ← searchPath st key
  .ok (path.length + st.sl.level)

theorem endOf_append (x : Addr) (p q : List Addr) : endOf x (p ++ q) = endOf (endOf x p) q := by
  induction p generalizing x with
  | nil => rfl
  | cons y p ih => exact ih y

theorem walk_path (h : Heap P) (key : UInt32) (i : Nat) :
    ∀ (fuel : Nat) (x : Addr), Chain.walk (forward h i) (keyLess h key) .endless fuel x =
      (walkPath h key i fuel x).map (endOf x)
  | 0, _ => rfl
  | fuel + 1, x => by
    rw [Chain.walk, walkPath]
    cases forward h i x with
    | error e => rfl
    | ok p =>
      cases p with
      | none => rfl
      | some y =>
        simp only [Runs.ok_bind]
        cases keyLess h key y with
        | error e => rfl
        | ok b =>
          cases b with
          | false => rfl
          | true =>
            simp only [Runs.ok_bind, if_true, walk_path h key i fuel y]
            cases walkPath h key i fuel y <;> rfl

theorem descend_path (h : Heap P) (key : UInt32) :
    ∀ (n : Nat) (x : Addr), descend h key (fun _ _ u => .ok u) n x () =
      (descendPath h key n x).map fun path => (endOf x path, ())
  | 0, _ => rfl
  | i + 1, x => by
    rw [descend, descendPath, walk, walk_path]
    cases walkPath h key i h.next x with
    | error e => rfl
    | ok path =>
      simp only [Except.map, Runs.ok_bind, descend_path h key i]
      cases descendPath h key i (endOf x path) with
      | error e => rfl
      | ok rest => simp only [Runs.ok_bind, endOf_append]

/-- `skip_search` is the path followed by its lookup. -/
theorem skipSearch_path (st : State P) (key : UInt32) :
    skipSearch st key =
      (searchPath st key >>= fun path => result st.heap key (endOf st.sl.header path)) := by
  rw [skipSearch, searchPath]
  cases checkHard (decide (key ≠ 0)) with
  | error e => rfl
  | ok u =>
    simp only [Runs.ok_bind, descend_path]
    cases descendPath st.heap key st.sl.level st.sl.header <;> rfl

/-! ## The moves on one level -/

theorem walkPath_spec {h : Heap P} {key : UInt32} {i : Nat} :
    ∀ (fuel : Nat) (x : Addr) (pass stop : List Addr),
      Seg (forward h i) (x :: (pass ++ stop)) none → (∀ a ∈ pass, keyLess h key a = .ok true) →
      (∀ a, stop.head? = some a → keyLess h key a = .ok false) → pass.length < fuel →
      walkPath h key i fuel x = .ok pass
  | 0, _, _, _, _, _, _, hf => absurd hf (Nat.not_lt_zero _)
  | fuel + 1, x, [], stop, hs, _, hstop, _ => by
    have hx : forward h i x = .ok stop.head? := by rw [← first_none]; exact hs.1
    cases hh : stop.head? with
    | none => simp only [walkPath, hx, hh, Runs.ok_bind]
    | some y => simp [walkPath, hx, hh, hstop y hh]
  | fuel + 1, x, y :: pass, stop, hs, hgo, hstop, hf => by
    have hx : forward h i x = .ok (some y) := hs.1
    have hy : keyLess h key y = .ok true := hgo y List.mem_cons_self
    have ih := walkPath_spec fuel y pass stop hs.2
      (fun a ha => hgo a (List.mem_cons_of_mem y ha)) hstop (by simpa using hf)
    simp only [walkPath, hx, hy, ih, Runs.ok_bind, if_true]

section Level

variable {h : Heap P} {hdr : Addr} {pre post : List (Tower P)} {k : UInt32}

/-- The nodes of a level behind the last one of the level above are the records of just this
    height. -/
theorem levelNodes_records (hdr : Addr) (pre : List (Tower P)) (n : Nat) :
    ∃ before, levelNodes hdr pre n = before ++ pred hdr pre (n + 1) ::
      ((records Tower.height pre).filter fun m => m.height = n + 1).map Tower.addr := by
  induction pre using List.reverseRecOn with
  | nil => exact ⟨[], rfl⟩
  | append_singleton pre m ih =>
    obtain ⟨before, ih⟩ := ih
    have hlevel : ∀ i, levelNodes hdr (pre ++ [m]) i =
        levelNodes hdr pre i ++ if i < m.height then [m.addr] else [] := by
      intro i
      rw [levelNodes_append, onLevel_cons]
      split <;> rfl
    rw [hlevel, records_concat, List.filter_append, List.filter_filter, List.map_append]
    by_cases hgt : n + 1 < m.height
    · -- the new node is on the level above and hides all before it
      have hpred : pred hdr (pre ++ [m]) (n + 1) = m.addr := by
        simp only [pred, hlevel, if_pos hgt, List.getLast_concat]
      have hhidden : (records Tower.height pre).filter
          (fun a => decide (a.height = n + 1) && decide (m.height ≤ a.height)) = [] := by
        rw [List.filter_eq_nil_iff]
        intro a _
        simp only [Bool.and_eq_true, decide_eq_true_eq]
        omega
      refine ⟨levelNodes hdr pre n, ?_⟩
      rw [if_pos (by omega), hpred, hhidden,
        List.filter_cons_of_neg (by simp only [decide_eq_true_eq]; omega)]
      rfl
    · have hpred : pred hdr (pre ++ [m]) (n + 1) = pred hdr pre (n + 1) := by
        simp only [pred, hlevel, if_neg hgt, List.append_nil]
      have hkept : (records Tower.height pre).filter
          (fun a => decide (a.height = n + 1) && decide (m.height ≤ a.height)) =
          (records Tower.height pre).filter fun a => a.height = n + 1 := by
        apply List.filter_congr
        intro a _
        by_cases ha : a.height = n + 1
        · simp [ha, show m.height ≤ n + 1 by omega]
        · simp [ha]
      refine ⟨before, ?_⟩
      rw [hpred, hkept, ih]
      by_cases heq : m.height = n + 1
      · have hlast : [m].filter (fun a => a.height = n + 1) = [m] := by
          simp only [List.filter_cons, heq, decide_true, if_true, List.filter_nil]
        rw [if_pos (by omega), hlast, List.append_assoc]
        rfl
      · rw [if_neg (by omega), List.filter_cons_of_neg (by simpa using heq), List.append_assoc]
        rfl

/-- The moves on a level, from the last node before the key on the level above. -/
theorem Rep.walkPath_pred (r : Rep h hdr (pre ++ post)) (hpre : ∀ n ∈ pre, n.key < k)
    (hpost : ∀ n ∈ post, k ≤ n.key) {n : Nat} (hn : n < skipMax) :
    ∃ path, walkPath h k n h.next (pred hdr pre (n + 1)) = .ok path ∧
      path = ((records Tower.height pre).filter fun m => m.height = n + 1).map Tower.addr ∧
      endOf (pred hdr pre (n + 1)) path = pred hdr pre n := by
  obtain ⟨before, hsplit⟩ := levelNodes_records hdr pre n
  refine ⟨_, ?_, rfl, ?_⟩
  · have hchain := r.chain n hn
    rw [levelNodes_append, hsplit, List.append_assoc, seg_append] at hchain
    apply walkPath_spec _ _ _ _ hchain.2
    · rw [List.forall_mem_map]
      intro m hm
      have hmem : m ∈ pre := (records_sublist pre).subset (List.mem_of_mem_filter hm)
      rw [keyLess_of_shape (r.node m (List.mem_append_left _ hmem)), decide_eq_true (hpre m hmem)]
    · intro a ha
      obtain ⟨m, hm, rfl⟩ := List.mem_map.mp (List.mem_of_mem_head? ha)
      have hmem := (mem_onLevel.mp hm).1
      rw [keyLess_of_shape (r.node m (List.mem_append_right _ hmem)),
        decide_eq_false (UInt32.not_lt.mpr (hpost m hmem))]
    · have h₁ := r.length_lt_next
      have h₂ : (onLevel n pre).length ≤ pre.length := List.length_filter_le ..
      have h₃ := congrArg List.length hsplit
      simp only [levelNodes, List.length_cons, List.length_map, List.length_append] at h₁ h₃ ⊢
      omega
  · simp only [endOf, pred, hsplit, List.getLast_append_of_ne_nil _ (List.cons_ne_nil _ _)]

/-- The whole descent below a level: the records no taller than it. -/
theorem Rep.descendPath_pred (r : Rep h hdr (pre ++ post)) (hpre : ∀ n ∈ pre, n.key < k)
    (hpost : ∀ n ∈ post, k ≤ n.key) : ∀ {n : Nat}, n ≤ skipMax →
      descendPath h k n (pred hdr pre n) =
        .ok (((records Tower.height pre).filter fun m => m.height ≤ n).map Tower.addr)
  | 0, _ => by
    have hnone : (records Tower.height pre).filter (fun m => m.height ≤ 0) = [] := by
      rw [List.filter_eq_nil_iff]
      intro m hm
      have := (r.height m (List.mem_append_left _ ((records_sublist pre).subset hm))).1
      simp only [decide_eq_true_eq]
      omega
    rw [hnone]
    rfl
  | n + 1, hn => by
    obtain ⟨path, hrun, hpath, hend⟩ := r.walkPath_pred hpre hpost (n := n) (by omega)
    have ih := r.descendPath_pred hpre hpost (n := n) (by omega)
    rw [descendPath, hrun, Runs.ok_bind, hend, ih, Runs.ok_bind, hpath,
      filter_le_succ n (records_pairwise pre), List.map_append]

end Level

/-! ## The path of a search -/

theorem Holds.searchPath {st : State P} {pre post : List (Tower P)} {k : UInt32}
    (H : Holds st (pre ++ post)) (hk : k ≠ 0) (hpre : ∀ n ∈ pre, n.key < k)
    (hpost : ∀ n ∈ post, k ≤ n.key) :
    searchPath st k = .ok ((records Tower.height pre).map Tower.addr) := by
  have htop : topLevel pre ≤ st.sl.level := by
    rw [H.level, topLevel_append]
    omega
  have hd := H.rep.descendPath_pred hpre hpost H.level_bounds.2
  rw [pred_top htop, List.filter_eq_self.mpr] at hd
  · rw [Skip.searchPath, checkHard_key hk, Runs.ok_bind, hd]
  · intro m hm
    have := height_le_topLevel ((records_sublist pre).subset hm)
    exact decide_eq_true (by omega)

/-- The key of a node is below `k`. -/
def keyBelow (h : Heap P) (k : UInt32) (a : Addr) : Bool := (keyOf h a).any fun key => key < k

/-- After every session a search for any key moves exactly to those nodes before the key that
    have no taller one between them and the key, in the order of the list, and looks the key
    up from the last of them. -/
theorem skip_search_path (f : FreeFunc) (calls : List (Call P)) :
    ∃ os st c, session f calls = .ok (os, st) ∧ chainAt st 0 = some c ∧ ∀ k : Key, ∃ path,
      searchPath st k.val = .ok path ∧
      path = records (heightOf st.heap) (c.filter (keyBelow st.heap k.val)) ∧
      skipSearch st k.val = result st.heap k.val (endOf st.sl.header path) := by
  obtain ⟨os, st, ns, hrun, H, -⟩ := session_spec f calls
  refine ⟨os, st, ns.map Tower.addr, hrun, H.wellFormed.base, fun k => ?_⟩
  obtain ⟨pre, post, rfl, hpre, hpost⟩ := H.rep.split k.val
  have hpath := H.toHolds.searchPath k.property hpre hpost
  refine ⟨_, hpath, ?_, ?_⟩
  · have hbelow : ∀ n ∈ pre ++ post, keyBelow st.heap k.val n.addr = decide (n.key < k.val) := by
      intro n hn
      simp only [keyBelow, keyOf_of_shape (H.rep.node n hn), Option.any_some]
    have hfilter : ((pre ++ post).map Tower.addr).filter (keyBelow st.heap k.val) =
        pre.map Tower.addr := by
      rw [List.filter_map, List.filter_append, List.filter_eq_self.mpr, List.filter_eq_nil_iff.mpr,
        List.append_nil]
      · intro n hn
        rw [Function.comp_apply, hbelow n (List.mem_append_right _ hn)]
        simpa using hpost n hn
      · intro n hn
        rw [Function.comp_apply, hbelow n (List.mem_append_left _ hn)]
        exact decide_eq_true (hpre n hn)
    rw [hfilter, records_map]
    apply congrArg (List.map Tower.addr)
    apply records_congr
    intro n hn
    exact (H.rep.heightOf (List.mem_append_left _ hn)).symm
  · rw [skipSearch_path, hpath, Runs.ok_bind]

end DataMonkey.Skip
