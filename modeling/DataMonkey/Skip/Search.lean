import DataMonkey.Skip.Rep

/- The state invariant of a skip list, and plain search.

   `Holds st ns` adds to `Rep` what the list record says about itself: its level is that
   of the tallest node and its length the number of nodes. `Inv` adds the fingers: on
   every level in use the finger is on the chain of that level, except that a list on
   which only searches ran has no fingers yet. -/
namespace DataMonkey.Skip

open Chain

variable {P : Type}

/-- The height of the tallest node, 1 if there is none. -/
def topLevel (ns : List (Tower P)) : Nat := ns.foldr (fun n t => max n.height t) 1

theorem one_le_topLevel (ns : List (Tower P)) : 1 ≤ topLevel ns := by
  induction ns with
  | nil => exact Nat.le_refl 1
  | cons n ns ih => exact Nat.le_trans ih (Nat.le_max_right n.height (topLevel ns))

theorem topLevel_le {ns : List (Tower P)} {t : Nat} (h1 : 1 ≤ t) :
    topLevel ns ≤ t ↔ ∀ n ∈ ns, n.height ≤ t := by
  induction ns with
  | nil => simpa [topLevel] using h1
  | cons n ns ih =>
    rw [List.forall_mem_cons, ← ih]
    exact Nat.max_le

theorem height_le_topLevel {ns : List (Tower P)} {n : Tower P} (hn : n ∈ ns) :
    n.height ≤ topLevel ns :=
  (topLevel_le (one_le_topLevel ns)).mp (Nat.le_refl _) n hn

/-- Above the tallest node a level is empty. -/
theorem onLevel_top {ns : List (Tower P)} {i : Nat} (hi : topLevel ns ≤ i) :
    onLevel i ns = [] := by
  apply List.filter_eq_nil_iff.mpr
  intro n hn
  have := height_le_topLevel hn
  simp only [decide_eq_true_eq]
  omega

theorem topLevel_append (ms ns : List (Tower P)) :
    topLevel (ms ++ ns) = max (topLevel ms) (topLevel ns) := by
  induction ms with
  | nil =>
    have h₁ := one_le_topLevel ns
    have h₂ : topLevel ([] : List (Tower P)) = 1 := rfl
    rw [List.nil_append, h₂]
    omega
  | cons m ms ih =>
    show max m.height (topLevel (ms ++ ns)) = max (max m.height (topLevel ms)) (topLevel ns)
    rw [ih]
    omega

theorem topLevel_cons (n : Tower P) (ns : List (Tower P)) :
    topLevel (n :: ns) = max n.height (topLevel ns) := rfl

structure Holds (st : State P) (ns : List (Tower P)) : Prop where
  rep : Rep st.heap st.sl.header ns
  level : st.sl.level = topLevel ns
  length : st.sl.length = ns.length

/-- On every level in use the finger is the header or a node of that level. -/
def Fingers (st : State P) (ns : List (Tower P)) : Prop :=
  ∀ i < st.sl.level, ∃ a, st.sl.finger i = some a ∧ a ∈ levelNodes st.sl.header ns i

/-- The fingers of a list on which nothing but searches ran. -/
def Untouched (st : State P) : Prop := st.sl.level = 1 ∧ st.sl.finger 0 = none

structure Inv (st : State P) (ns : List (Tower P)) : Prop extends Holds st ns where
  fingers : Fingers st ns ∨ Untouched st

/-- The payload stored under a key. -/
def lookup (ns : List (Tower P)) (k : UInt32) : Option P :=
  (ns.find? fun n => n.key = k).map Tower.payload

theorem lookup_eq_none {ns : List (Tower P)} {k : UInt32} (h : ∀ n ∈ ns, n.key ≠ k) :
    lookup ns k = none := by
  simp only [lookup, Option.map_eq_none_iff, List.find?_eq_none, decide_eq_true_eq]
  exact h

theorem lookup_skip {pre post : List (Tower P)} {k : UInt32} (h : ∀ n ∈ pre, n.key ≠ k) :
    lookup (pre ++ post) k = lookup post k := by
  have hn : pre.find? (fun n => decide (n.key = k)) = none := by
    rw [List.find?_eq_none]
    simpa using h
  simp only [lookup, List.find?_append, hn, Option.none_or]

theorem lookup_head {n : Tower P} {post : List (Tower P)} {k : UInt32} (h : n.key = k) :
    lookup (n :: post) k = some n.payload := by
  simp only [lookup, List.find?_cons, h, decide_true, Option.map_some]

namespace Holds

variable {st : State P} {ns pre post : List (Tower P)} {k : UInt32}

theorem level_bounds (H : Holds st ns) : 1 ≤ st.sl.level ∧ st.sl.level ≤ skipMax := by
  rw [H.level]
  exact ⟨one_le_topLevel ns, (topLevel_le (by decide)).mpr (fun n hn => (H.rep.height n hn).2)⟩

/-- The descent from the header, whatever it does on its way. -/
theorem descend_spec {σ : Type} (H : Holds st (pre ++ post)) (hpre : ∀ n ∈ pre, n.key < k)
    (hpost : ∀ n ∈ post, k ≤ n.key) (visit : Nat → Addr → σ → Except Fault σ) (s : σ) :
    descend st.heap k visit st.sl.level st.sl.header s =
      (sweep visit (pred st.sl.header pre) st.sl.level s).map
        fun s => (pred st.sl.header pre 0, s) := by
  obtain ⟨h1, h2⟩ := H.level_bounds
  obtain ⟨n, hn⟩ : ∃ n, st.sl.level = n + 1 := ⟨st.sl.level - 1, by omega⟩
  rw [hn] at h2 ⊢
  exact H.rep.descend_spec hpre hpost visit n st.sl.header s h2 (header_mem _ _ _)

/-- The descent of insertion and deletion: both arrays get the last node before the key on
    every level in use. -/
theorem descend_record (H : Holds st (pre ++ post)) (hpre : ∀ n ∈ pre, n.key < k)
    (hpost : ∀ n ∈ post, k ≤ n.key) :
    descend st.heap k Trail.record st.sl.level st.sl.header ⟨fun _ => none, st.sl.finger⟩ =
      .ok (pred st.sl.header pre 0,
        ⟨recorded (pred st.sl.header pre) st.sl.level (fun _ => none),
         recorded (pred st.sl.header pre) st.sl.level st.sl.finger⟩) := by
  rw [H.descend_spec hpre hpost, sweep_record _ _ _ H.level_bounds.2]
  rfl

end Holds

/-- The last node before the key does not carry it. -/
theorem Rep.pred_key {h : Heap P} {hdr : Addr} {pre post : List (Tower P)} {k : UInt32}
    (r : Rep h hdr (pre ++ post)) (hpre : ∀ n ∈ pre, n.key < k) (hk : k ≠ 0) (i : Nat) :
    ∃ n, load h (pred hdr pre i) = .ok n ∧ n.key ≠ k := by
  rcases mem_levelNodes.mp (pred_mem hdr pre i) with he | ⟨m, hm, -, he⟩
  · obtain ⟨n, hl, -, hkey, -⟩ := load_of_shape r.header
    rw [he]
    exact ⟨n, hl, by rw [hkey]; exact hk.symm⟩
  · obtain ⟨n, hl, -, hkey, -⟩ := load_of_shape (r.node m (List.mem_append_left _ hm))
    rw [← he]
    refine ⟨n, hl, ?_⟩
    rw [hkey]
    exact UInt32.ne_of_lt (hpre m hm)

/-- Where the key is absent, the node the descent ends at does not carry it. -/
theorem Rep.candidate_ne {h : Heap P} {hdr : Addr} {pre post : List (Tower P)} {k : UInt32}
    (r : Rep h hdr (pre ++ post)) (hpre : ∀ n ∈ pre, n.key < k) (hpost : ∀ n ∈ post, k < n.key)
    (hk : k ≠ 0) : ∃ a n, candidate h (pred hdr pre 0) = .ok a ∧ load h a = .ok n ∧ n.key ≠ k := by
  cases post with
  | nil =>
    obtain ⟨n, hl, hn⟩ := r.pred_key hpre hk 0
    exact ⟨_, n, r.candidate_pred, hl, hn⟩
  | cons y post =>
    obtain ⟨n, hl, -, hkey, -⟩ := load_of_shape (r.node y (by simp))
    refine ⟨_, n, r.candidate_pred, hl, ?_⟩
    rw [hkey]
    exact (UInt32.ne_of_lt (hpost y List.mem_cons_self)).symm

/-- In a list cut at the key, a node that carries it comes first behind the cut. -/
theorem Rep.head_of_key {h : Heap P} {hdr : Addr} {pre post : List (Tower P)} {k : UInt32}
    (r : Rep h hdr (pre ++ post)) (hpost : ∀ n ∈ post, k ≤ n.key) {m : Tower P} (hm : m ∈ post)
    (hk : m.key = k) : ∃ rest, post = m :: rest := by
  cases post with
  | nil => exact absurd hm List.not_mem_nil
  | cons y rest =>
    have hsort := (List.pairwise_append.mp r.sorted).2.1
    rcases List.mem_cons.mp hm with rfl | hm
    · exact ⟨rest, rfl⟩
    · have hlt := List.rel_of_pairwise_cons hsort hm
      rw [hk] at hlt
      exact absurd hlt (UInt32.not_lt.mpr (hpost y List.mem_cons_self))

/-- From the last node before the key the lookup that ends every search is right. -/
theorem Rep.result_pred {h : Heap P} {hdr : Addr} {pre post : List (Tower P)} {k : UInt32}
    (r : Rep h hdr (pre ++ post)) (hpre : ∀ n ∈ pre, n.key < k) (hpost : ∀ n ∈ post, k ≤ n.key)
    (hk : k ≠ 0) : result h k (pred hdr pre 0) = .ok (lookup (pre ++ post) k) := by
  have hne : ∀ n ∈ pre, n.key ≠ k := fun n hn => UInt32.ne_of_lt (hpre n hn)
  rw [result, r.candidate_pred, Runs.ok_bind, lookup_skip hne]
  cases post with
  | nil =>
    -- without a successor the last node before the key itself is compared
    obtain ⟨n, hl, hn⟩ := r.pred_key hpre hk 0
    simp only [List.head?_nil, Option.map_none, Option.getD_none, hl, Runs.ok_bind, if_neg hn]
    rfl
  | cons x post =>
    obtain ⟨n, hl, -, hkey, hpay, -⟩ := load_of_shape (r.node x (by simp))
    simp only [List.head?_cons, Option.map_some, Option.getD_some, hl, Runs.ok_bind, hkey, hpay]
    by_cases hx : x.key = k
    · rw [if_pos hx, lookup_head hx]
    · -- a node with the key would have to come first
      have hgt : ∀ n ∈ x :: post, n.key ≠ k := by
        intro n hn e
        obtain ⟨rest, hrest⟩ := r.head_of_key hpost hn e
        apply hx
        rw [(List.cons.inj hrest).1, e]
      rw [if_neg hx, lookup_eq_none hgt]

/-- Keys rise, so a list splits at any key. -/
theorem Rep.split {h : Heap P} {hdr : Addr} {ns : List (Tower P)} (r : Rep h hdr ns)
    (k : UInt32) : ∃ pre post, ns = pre ++ post ∧ (∀ n ∈ pre, n.key < k) ∧
      ∀ n ∈ post, k ≤ n.key := by
  rcases split_cases r.sorted k with ⟨pre, post, he, hpre, hpost⟩ |
    ⟨pre, x, post, he, hpre, hx, hpost⟩
  · exact ⟨pre, post, he, hpre, fun n hn => UInt32.le_of_lt (hpost n hn)⟩
  · exact ⟨pre, x :: post, he, hpre, le_key_of_cut hx hpost⟩

/-- Search returns the payload stored under the key, NULL if there is none. -/
theorem skipSearch_spec {st : State P} {ns : List (Tower P)} {k : UInt32} (H : Holds st ns)
    (hk : k ≠ 0) : skipSearch st k = .ok (lookup ns k) := by
  obtain ⟨pre, post, rfl, hpre, hpost⟩ := H.rep.split k
  have hd := H.descend_spec hpre hpost (fun _ _ (u : Unit) => .ok u) ()
  rw [sweep_nothing] at hd
  simp only [skipSearch, checkHard_key hk, Runs.ok_bind, hd, Except.map]
  exact H.rep.result_pred hpre hpost hk

end DataMonkey.Skip
