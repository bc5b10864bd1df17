import Mathlib.Data.List.Nodup
import DataMonkey.Skip.Model

/- What a heap must look like to hold a skip list, and where the descent of the four
   operations ends on such a heap.

   The list is described by its nodes in level-0 order (`Tower`). `Rep h hdr ns` says
   that every node is allocated with its key, payload and height, that the keys rise,
   and that the chain of each level links exactly the nodes taller than that level.
   `descend_spec` is the one fact about the descent the operations use: whatever it
   starts from on the list before the key, it visits the last node before the key on
   every level. -/
namespace DataMonkey.Skip

open Chain

variable {P : Type}

/-- A node of the list, as the level-0 chain lists it. -/
structure Tower (P : Type) where
  addr : Addr
  key : UInt32
  payload : P
  height : Nat

/-- The parts of a node that pointer surgery leaves alone. -/
def shapeOf (h : Heap P) (a : Addr) : Option (UInt32 × Option P × Nat) :=
  (h.cell a).map fun n => (n.key, n.payload, n.level.length)

/-- The nodes that level `i` links. -/
def onLevel (i : Nat) (ns : List (Tower P)) : List (Tower P) :=
  ns.filter fun n => i < n.height

/-- The header and the nodes that level `i` links, in chain order. -/
def levelNodes (hdr : Addr) (ns : List (Tower P)) (i : Nat) : List Addr :=
  hdr :: (onLevel i ns).map Tower.addr

structure Rep (h : Heap P) (hdr : Addr) (ns : List (Tower P)) : Prop where
  header : shapeOf h hdr = some (0, none, skipMax)
  node : ∀ n ∈ ns, shapeOf h n.addr = some (n.key, some n.payload, n.height)
  nodup : (hdr :: ns.map Tower.addr).Nodup
  sorted : ns.Pairwise fun m n => m.key < n.key
  key_pos : ∀ n ∈ ns, 0 < n.key
  height : ∀ n ∈ ns, 1 ≤ n.height ∧ n.height ≤ skipMax
  chain : ∀ i < skipMax, Seg (forward h i) (levelNodes hdr ns i) none

/-! ## Reads and writes of single slots -/

theorem checkHard_true : checkHard true = .ok () := rfl

/-- No call is made with the key of the header. -/
theorem checkHard_key {k : UInt32} (hk : k ≠ 0) : checkHard (k ≠ 0) = .ok () := by
  rw [decide_eq_true hk, checkHard_true]

theorem load_of_shape {h : Heap P} {a : Addr} {k : UInt32} {p : Option P} {t : Nat}
    (hs : shapeOf h a = some (k, p, t)) :
    ∃ n, load h a = .ok n ∧ h.cell a = some n ∧ n.key = k ∧ n.payload = p ∧
      n.level.length = t := by
  obtain ⟨n, hn, he⟩ := Option.map_eq_some_iff.mp hs
  simp only [Prod.mk.injEq] at he
  exact ⟨n, by simp only [load, hn], hn, he.1, he.2.1, he.2.2⟩

theorem keyLess_of_shape {h : Heap P} {a : Addr} {k key : UInt32} {p : Option P} {t : Nat}
    (hs : shapeOf h a = some (k, p, t)) : keyLess h key a = .ok (decide (k < key)) := by
  obtain ⟨n, hl, -, rfl, -⟩ := load_of_shape hs
  simp only [keyLess, hl, Runs.ok_bind, defaultCompare]

theorem forward_of_cell {h : Heap P} {i : Nat} {a : Addr} {n : SkipNode P} {p : Option Addr}
    (hc : h.cell a = some n) (hp : n.level[i]? = some (some p)) : forward h i a = .ok p := by
  simp only [forward, load, hc, Runs.ok_bind, hp]

/-- A forward pointer is read off the cell alone. -/
theorem forward_congr {h h' : Heap P} {i : Nat} {a : Addr} (hc : h'.cell a = h.cell a) :
    forward h' i a = forward h i a := by
  simp only [forward, load, hc]

/-- Everything a store to slot `i` of `x` does and does not do. -/
theorem setForward_spec {h : Heap P} {i : Nat} {x : Addr} {p : Option Addr} {k : UInt32}
    {q : Option P} {t : Nat} (hs : shapeOf h x = some (k, q, t)) (hi : i < t) :
    ∃ h', setForward h i x p = .ok h' ∧ forward h' i x = .ok p ∧
      (∀ j y, y ≠ x ∨ j ≠ i → forward h' j y = forward h j y) ∧
      (∀ y, shapeOf h' y = shapeOf h y) ∧ h'.next = h.next := by
  obtain ⟨n, hl, hc, -, -, rfl⟩ := load_of_shape hs
  have hc' := Store.cell_write_self (v := { n with level := n.level.set i (some p) }) hc
  refine ⟨h.write x { n with level := n.level.set i (some p) }, ?_, ?_, ?_, ?_, rfl⟩
  · simp only [setForward, hl, Runs.ok_bind, if_pos hi]
  · exact forward_of_cell hc' (List.getElem?_set_self hi)
  · intro j y hne
    by_cases hy : y = x
    · -- another slot of the same node
      subst hy
      have hji : i ≠ j := fun e => (hne.resolve_left (fun f => f rfl)) e.symm
      simp only [forward, load, hc', hc, Runs.ok_bind, List.getElem?_set_ne hji]
    · exact forward_congr (Store.cell_write_ne hy)
  · intro y
    by_cases hy : y = x
    · subst hy
      simp [shapeOf, hc', hc]
    · simp only [shapeOf, Store.cell_write_ne hy]

/-! ## Levels of a list of nodes -/

theorem onLevel_append (i : Nat) (ms ns : List (Tower P)) :
    onLevel i (ms ++ ns) = onLevel i ms ++ onLevel i ns := List.filter_append ..

theorem onLevel_cons (i : Nat) (n : Tower P) (ns : List (Tower P)) :
    onLevel i (n :: ns) = if i < n.height then n :: onLevel i ns else onLevel i ns := by
  simp only [onLevel, List.filter_cons, decide_eq_true_eq]

theorem mem_onLevel {i : Nat} {ns : List (Tower P)} {n : Tower P} :
    n ∈ onLevel i ns ↔ n ∈ ns ∧ i < n.height := by
  simp only [onLevel, List.mem_filter, decide_eq_true_eq]

theorem onLevel_zero {ns : List (Tower P)} (h : ∀ n ∈ ns, 1 ≤ n.height) : onLevel 0 ns = ns := by
  apply List.filter_eq_self.mpr
  intro n hn
  exact decide_eq_true (h n hn)

theorem levelNodes_append (hdr : Addr) (ms ns : List (Tower P)) (i : Nat) :
    levelNodes hdr (ms ++ ns) i = levelNodes hdr ms i ++ (onLevel i ns).map Tower.addr := by
  simp only [levelNodes, onLevel_append, List.map_append, List.cons_append]

theorem levelNodes_left {hdr : Addr} {ms : List (Tower P)} (ns : List (Tower P)) {i : Nat}
    {a : Addr} (ha : a ∈ levelNodes hdr ms i) : a ∈ levelNodes hdr (ms ++ ns) i := by
  rw [levelNodes_append]
  exact List.mem_append_left _ ha

theorem mem_levelNodes {hdr : Addr} {ns : List (Tower P)} {i : Nat} {a : Addr} :
    a ∈ levelNodes hdr ns i ↔ a = hdr ∨ ∃ n ∈ ns, i < n.height ∧ n.addr = a := by
  simp only [levelNodes, List.mem_cons, List.mem_map, mem_onLevel, and_assoc]

theorem header_mem (hdr : Addr) (ns : List (Tower P)) (i : Nat) : hdr ∈ levelNodes hdr ns i :=
  List.mem_cons_self

theorem levelNodes_mono {hdr : Addr} {ns : List (Tower P)} {i j : Nat} (hij : i ≤ j) {a : Addr}
    (ha : a ∈ levelNodes hdr ns j) : a ∈ levelNodes hdr ns i := by
  rcases mem_levelNodes.mp ha with rfl | ⟨n, hn, hlt, rfl⟩
  · exact header_mem a ns i
  · exact mem_levelNodes.mpr (Or.inr ⟨n, hn, by omega, rfl⟩)

/-- The last node of level `i` in `pre`, or the header. -/
def pred (hdr : Addr) (pre : List (Tower P)) (i : Nat) : Addr :=
  (levelNodes hdr pre i).getLast (List.cons_ne_nil _ _)

theorem pred_mem (hdr : Addr) (pre : List (Tower P)) (i : Nat) :
    pred hdr pre i ∈ levelNodes hdr pre i := List.getLast_mem _

theorem pred_mem_append (hdr : Addr) (pre post : List (Tower P)) (i : Nat) :
    pred hdr pre i ∈ levelNodes hdr (pre ++ post) i := levelNodes_left post (pred_mem hdr pre i)

/-- The chain of a level, cut after `pred`: whatever follows `pre` comes behind it. -/
theorem levelNodes_split (hdr : Addr) (pre : List (Tower P)) (i : Nat) :
    ∃ l, ∀ post, levelNodes hdr (pre ++ post) i =
      l ++ pred hdr pre i :: (onLevel i post).map Tower.addr := by
  refine ⟨(levelNodes hdr pre i).dropLast, ?_⟩
  intro post
  have hcut : levelNodes hdr pre i = (levelNodes hdr pre i).dropLast ++ [pred hdr pre i] :=
    (List.dropLast_append_getLast _).symm
  calc levelNodes hdr (pre ++ post) i
      = levelNodes hdr pre i ++ (onLevel i post).map Tower.addr := levelNodes_append hdr pre post i
    _ = (levelNodes hdr pre i).dropLast ++ [pred hdr pre i] ++
          (onLevel i post).map Tower.addr := by rw [← hcut]
    _ = _ := by rw [List.append_assoc, List.singleton_append]

/-- A level above the tower of a node does not know it. -/
theorem levelNodes_above (hdr : Addr) (pre post : List (Tower P)) {x : Tower P} {i : Nat}
    (hi : ¬ i < x.height) :
    levelNodes hdr (pre ++ x :: post) i = levelNodes hdr (pre ++ post) i := by
  simp only [levelNodes, onLevel_append, onLevel_cons, if_neg hi]

/-- Keys below, at and above `k`: where `k` is not, and where it is. -/
theorem split_cases {ns : List (Tower P)} (hs : ns.Pairwise fun m n => m.key < n.key)
    (k : UInt32) :
    (∃ pre post, ns = pre ++ post ∧ (∀ n ∈ pre, n.key < k) ∧ ∀ n ∈ post, k < n.key) ∨
    ∃ pre x post, ns = pre ++ x :: post ∧ (∀ n ∈ pre, n.key < k) ∧ x.key = k ∧
      ∀ n ∈ post, k < n.key := by
  induction ns with
  | nil => exact Or.inl ⟨[], [], rfl, by simp, by simp⟩
  | cons m ns ih =>
    obtain ⟨hm, hns⟩ := List.pairwise_cons.mp hs
    rcases Std.lt_trichotomy m.key k with hlt | heq | hgt
    · rcases ih hns with ⟨pre, post, rfl, hpre, hpost⟩ | ⟨pre, x, post, rfl, hpre, hx, hpost⟩
      · exact Or.inl ⟨m :: pre, post, rfl, List.forall_mem_cons.mpr ⟨hlt, hpre⟩, hpost⟩
      · exact Or.inr ⟨m :: pre, x, post, rfl, List.forall_mem_cons.mpr ⟨hlt, hpre⟩, hx, hpost⟩
    · subst heq
      exact Or.inr ⟨[], m, ns, rfl, by simp, rfl, hm⟩
    · refine Or.inl ⟨[], m :: ns, rfl, by simp, List.forall_mem_cons.mpr ⟨hgt, ?_⟩⟩
      exact fun n hn => UInt32.lt_trans hgt (hm n hn)

/-- A cut where the key is not. -/
theorem key_ne_of_cut {pre post : List (Tower P)} {k : UInt32} (hpre : ∀ n ∈ pre, n.key < k)
    (hpost : ∀ n ∈ post, k < n.key) : ∀ n ∈ pre ++ post, n.key ≠ k := by
  intro n hn
  rcases List.mem_append.mp hn with hn | hn
  · exact UInt32.ne_of_lt (hpre n hn)
  · exact (UInt32.ne_of_lt (hpost n hn)).symm

/-- A cut right before the node with the key. -/
theorem le_key_of_cut {post : List (Tower P)} {x : Tower P} {k : UInt32} (hx : x.key = k)
    (hpost : ∀ n ∈ post, k < n.key) : ∀ n ∈ x :: post, k ≤ n.key := by
  refine List.forall_mem_cons.mpr ⟨?_, fun n hn => UInt32.le_of_lt (hpost n hn)⟩
  rw [hx]
  exact UInt32.le_refl k

/-- What the descent does besides walking: `visit i (node i)` for every level below `n`,
    from the top. -/
def sweep {σ : Type} (visit : Nat → Addr → σ → Except Fault σ) (node : Nat → Addr) :
    Nat → σ → Except Fault σ
  | 0, s => .ok s
  | i + 1, s => do
    let s ← visit i (node i) s
    sweep visit node i s

/-- Entries below `n` replaced by `node`. -/
def recorded (node : Nat → Addr) (n : Nat) (arr : Nat → Option Addr) : Nat → Option Addr :=
  fun j => if j < n then some (node j) else arr j

theorem recorded_succ (node : Nat → Addr) (n : Nat) (arr : Nat → Option Addr) :
    recorded node n (fun j => if j = n then some (node n) else arr j) =
      recorded node (n + 1) arr := by
  funext j
  simp only [recorded]
  by_cases hj : j = n
  · subst hj; simp
  · simp only [hj, if_false, show (j < n + 1) = (j < n) by simp; omega]

theorem sweep_record (node : Nat → Addr) : ∀ (n : Nat) (t : Trail), n ≤ skipMax →
    sweep Trail.record node n t = .ok ⟨recorded node n t.update, recorded node n t.finger⟩
  | 0, _, _ => rfl
  | n + 1, t, hn => by
    have hlt : n < skipMax := hn
    simp only [sweep, Trail.record, writeArray, if_pos hlt, Runs.ok_bind]
    rw [sweep_record node n _ (Nat.le_of_lt hlt), recorded_succ, recorded_succ]

theorem sweep_recordFinger (node : Nat → Addr) : ∀ (n : Nat) (f : Nat → Option Addr),
    n ≤ skipMax → sweep recordFinger node n f = .ok (recorded node n f)
  | 0, _, _ => rfl
  | n + 1, f, hn => by
    have hlt : n < skipMax := hn
    simp only [sweep, recordFinger, writeArray, if_pos hlt, Runs.ok_bind]
    rw [← recorded_succ]
    exact sweep_recordFinger node n _ (Nat.le_of_lt hlt)

theorem sweep_nothing {σ : Type} (node : Nat → Addr) : ∀ (n : Nat) (s : σ),
    sweep (fun _ _ s => .ok s) node n s = .ok s
  | 0, _ => rfl
  | n + 1, s => sweep_nothing node n s

/-! ## Where the walk along one level ends -/

namespace Rep

variable {h : Heap P} {hdr : Addr} {ns : List (Tower P)}

theorem shape_mem (r : Rep h hdr ns) {i : Nat} {a : Addr} (ha : a ∈ levelNodes hdr ns i)
    (hi : i < skipMax) : ∃ k p t, shapeOf h a = some (k, p, t) ∧ i < t := by
  rcases mem_levelNodes.mp ha with rfl | ⟨n, hn, hlt, rfl⟩
  · exact ⟨0, none, skipMax, r.header, hi⟩
  · exact ⟨n.key, some n.payload, n.height, r.node n hn, hlt⟩

/-- The addresses of one level are distinct. -/
theorem nodup_level (r : Rep h hdr ns) (i : Nat) : (levelNodes hdr ns i).Nodup :=
  List.Nodup.sublist (List.Sublist.cons_cons hdr (List.Sublist.map _ List.filter_sublist)) r.nodup

/-- What the header points to. -/
theorem forward_header (r : Rep h hdr ns) {i : Nat} (hi : i < skipMax) :
    forward h i hdr = .ok ((onLevel i ns).map Tower.addr).head? := by
  rw [← first_none]
  exact (r.chain i hi).1

/-- A node is not the header and shares its address with no other node. -/
theorem addr_ne {pre post : List (Tower P)} {x : Tower P} (r : Rep h hdr (pre ++ x :: post)) :
    x.addr ≠ hdr ∧ ∀ n ∈ pre ++ post, n.addr ≠ x.addr := by
  have hnd := r.nodup
  rw [List.map_append, List.map_cons, List.nodup_cons] at hnd
  obtain ⟨hh, hnd⟩ := hnd
  have hx := (List.nodup_middle.mp hnd)
  rw [List.nodup_cons, ← List.map_append] at hx
  refine ⟨fun e => hh (by simp [e]), ?_⟩
  intro n hn e
  apply hx.1
  rw [← e]
  exact List.mem_map_of_mem hn

/-- Fewer nodes than addresses: the fuel of every walk and chain reading. -/
theorem length_lt_next (r : Rep h hdr ns) : ns.length < h.next := by
  -- the header takes one address more
  have hle : (hdr :: ns.map Tower.addr).length ≤ h.next := by
    refine Store.length_le_next r.nodup ?_
    intro a ha
    rcases List.mem_cons.mp ha with rfl | ha
    · obtain ⟨n, -, hn, -⟩ := load_of_shape r.header
      simp [hn]
    · obtain ⟨m, hm, rfl⟩ := List.mem_map.mp ha
      obtain ⟨n, -, hn, -⟩ := load_of_shape (r.node m hm)
      simp [hn]
  simp only [List.length_cons, List.length_map] at hle
  exact hle

/-- All nodes are on level 0. -/
theorem onLevel_zero (r : Rep h hdr ns) : onLevel 0 ns = ns :=
  Skip.onLevel_zero fun n hn => (r.height n hn).1

variable {pre post : List (Tower P)} {k : UInt32}

/-- From any node before the key, the walk along its level ends at the last one before
    the key. -/
theorem walk_pred (r : Rep h hdr (pre ++ post)) (hpre : ∀ n ∈ pre, n.key < k)
    (hpost : ∀ n ∈ post, k ≤ n.key) {i : Nat} (hi : i < skipMax) {x : Addr}
    (hx : x ∈ levelNodes hdr pre i) : walk h k i x = .ok (pred hdr pre i) := by
  obtain ⟨before, pass, hsplit⟩ := List.append_of_mem hx
  have hchain := r.chain i hi
  rw [levelNodes_append, hsplit, List.append_assoc, seg_append] at hchain
  -- the walk passes what is left of the level in `pre`: nodes, never the header
  have hpass : ∀ a ∈ pass, ∃ n ∈ pre, n.addr = a := by
    intro a ha
    have hmem : a ∈ (onLevel i pre).map Tower.addr := by
      cases before with
      | nil =>
        obtain ⟨-, hl⟩ := List.cons.inj hsplit
        rw [hl]; exact ha
      | cons b before =>
        obtain ⟨-, hl⟩ := List.cons.inj hsplit
        rw [hl]; simp [ha]
    obtain ⟨n, hn, rfl⟩ := List.mem_map.mp hmem
    exact ⟨n, (mem_onLevel.mp hn).1, rfl⟩
  have hgo : ∀ a ∈ pass, keyLess h k a = .ok true := by
    intro a ha
    obtain ⟨n, hn, rfl⟩ := hpass a ha
    rw [keyLess_of_shape (r.node n (List.mem_append_left _ hn)), decide_eq_true (hpre n hn)]
  have hstop : ∀ a, ((onLevel i post).map Tower.addr).head? = some a →
      keyLess h k a = .ok false := by
    intro a ha
    obtain ⟨n, hn, rfl⟩ := List.mem_map.mp (List.mem_of_mem_head? ha)
    have hmem := (mem_onLevel.mp hn).1
    rw [keyLess_of_shape (r.node n (List.mem_append_right _ hmem)),
      decide_eq_false (UInt32.not_lt.mpr (hpost n hmem))]
  have hfuel : pass.length < h.next := by
    have h₁ := r.length_lt_next
    have h₂ : (onLevel i pre).length ≤ pre.length := List.length_filter_le ..
    have h₃ := congrArg List.length hsplit
    simp only [levelNodes, List.length_cons, List.length_map, List.length_append] at h₁ h₃
    omega
  have hw := walk_spec (forward h i) (keyLess h k) .endless h.next x pass _ hchain.2 hgo hstop hfuel
  rw [walk, hw]
  simp only [pred, hsplit, List.getLast_append_of_ne_nil _ (List.cons_ne_nil x pass)]

/-- From a node at or after the key the walk does not move. -/
theorem walk_stay (r : Rep h hdr (pre ++ post)) (hpost : ∀ n ∈ post, k ≤ n.key) {i : Nat}
    {n : Tower P} (hn : n ∈ post) (hi : i < n.height) : walk h k i n.addr = .ok n.addr := by
  obtain ⟨before, after, rfl⟩ := List.append_of_mem hn
  have hmax := (r.height n (List.mem_append_right _ hn)).2
  have hchain := r.chain i (by omega)
  rw [levelNodes_append, onLevel_append, onLevel_cons, if_pos hi, List.map_append, List.map_cons,
    ← List.append_assoc, seg_append] at hchain
  have hstop : ∀ a, ((onLevel i after).map Tower.addr).head? = some a →
      keyLess h k a = .ok false := by
    intro a ha
    obtain ⟨m, hm, rfl⟩ := List.mem_map.mp (List.mem_of_mem_head? ha)
    have hmem : m ∈ before ++ n :: after := by simp [(mem_onLevel.mp hm).1]
    rw [keyLess_of_shape (r.node m (List.mem_append_right _ hmem)),
      decide_eq_false (UInt32.not_lt.mpr (hpost m hmem))]
  have hfuel : 0 < h.next := Nat.lt_of_le_of_lt (Nat.zero_le _) r.length_lt_next
  exact walk_spec (forward h i) (keyLess h k) .endless h.next n.addr [] _ hchain.2 (by simp)
    hstop hfuel

/-! ## The descent -/

/-- From a node before the key the descent visits the last node before the key on
    every level, and ends on it. -/
theorem descend_spec {σ : Type} (r : Rep h hdr (pre ++ post)) (hpre : ∀ n ∈ pre, n.key < k)
    (hpost : ∀ n ∈ post, k ≤ n.key) (visit : Nat → Addr → σ → Except Fault σ) :
    ∀ (n : Nat) (x : Addr) (s : σ), n < skipMax → x ∈ levelNodes hdr pre n →
      descend h k visit (n + 1) x s =
        (sweep visit (pred hdr pre) (n + 1) s).map fun s => (pred hdr pre 0, s)
  | 0, x, s, hn, hx => by
    simp only [descend, sweep, r.walk_pred hpre hpost hn hx, Runs.ok_bind]
    cases visit 0 (pred hdr pre 0) s <;> rfl
  | n + 1, x, s, hn, hx => by
    have hp := levelNodes_mono (Nat.le_succ n) (pred_mem hdr pre (n + 1))
    rw [descend, sweep, r.walk_pred hpre hpost hn hx, Runs.ok_bind]
    cases visit (n + 1) (pred hdr pre (n + 1)) s with
    | error e => rfl
    | ok s' => exact descend_spec r hpre hpost visit n _ s' (by omega) hp

/-- From a node at or after the key the descent stays where it is. -/
theorem descend_stay {σ : Type} (r : Rep h hdr (pre ++ post)) (hpost : ∀ n ∈ post, k ≤ n.key)
    (visit : Nat → Addr → σ → Except Fault σ) {m : Tower P} (hm : m ∈ post) :
    ∀ (n : Nat) (s : σ), n ≤ m.height →
      descend h k visit n m.addr s = (sweep visit (fun _ => m.addr) n s).map fun s => (m.addr, s)
  | 0, s, _ => rfl
  | n + 1, s, hn => by
    rw [descend, sweep, r.walk_stay hpost hm hn, Runs.ok_bind]
    cases visit n m.addr s with
    | error e => rfl
    | ok s' => exact descend_stay r hpost visit hm n s' (by omega)

/-- On every level the successor of the last node of `pre` is the first one of `post`. -/
theorem forward_pred (r : Rep h hdr (pre ++ post)) {i : Nat} (hi : i < skipMax) :
    forward h i (pred hdr pre i) = .ok ((onLevel i post).head?.map Tower.addr) := by
  obtain ⟨l, hl⟩ := levelNodes_split hdr pre i
  have hchain := r.chain i hi
  rw [hl post] at hchain
  rw [hchain.link_at, first_none, List.head?_map]

/-- The successor of the last node before the key is the first node from the key on. -/
theorem candidate_pred (r : Rep h hdr (pre ++ post)) :
    candidate h (pred hdr pre 0) =
      .ok ((post.head?.map Tower.addr).getD (pred hdr pre 0)) := by
  have h₀ : onLevel 0 post = post :=
    Skip.onLevel_zero fun n hn => (r.height n (List.mem_append_right _ hn)).1
  rw [candidate, r.forward_pred (by decide), h₀]
  rfl

end Rep

end DataMonkey.Skip
