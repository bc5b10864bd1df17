import DataMonkey.Skip.Search

/- `skip_finger_search`: what it returns, wherever earlier calls left the fingers.

   The climb ends on one of three kinds of node. From a node before the key, on some
   level, the descent is that of plain search. The other two are where the call goes
   wrong: the climb stops at once on a first finger that is not the last node before the
   key, and no level is left to descend (`StopsShort`); or the finger it stops on carries
   the key itself, and the lookup moves on to the node behind it (`OnKey`).

     1. `climb_forward`, `climb_backward` — where the climb ends;
     2. `skipFingerSearch_spec` — the call returns, keeps the list, and answers as plain
        search unless `FingerMiss`. -/
namespace DataMonkey.Skip

open Chain

variable {P : Type}

/-! ## What the climb looks at -/

/-- `finger[i]->key`, if there is a finger. -/
def fingerKey (st : State P) (i : Nat) : Option UInt32 :=
  (st.sl.finger i).bind (keyOf st.heap)

/-- The key of `finger[i]->level[j].forward`, if there is such a node. -/
def fingerNext (st : State P) (j i : Nat) : Option UInt32 :=
  (st.sl.finger i).bind fun a => (forward st.heap j a).toOption.join.bind (keyOf st.heap)

/-- `finger[i]` is before the key. -/
def Below (st : State P) (k : UInt32) (i : Nat) : Prop := ∃ m ∈ fingerKey st i, m < k

/-- `finger[i]` is behind the key. -/
def Above (st : State P) (k : UInt32) (i : Nat) : Prop := ∃ m ∈ fingerKey st i, k < m

/-- The successor of `finger[i]` on level `i` is before the key. -/
def Passes (st : State P) (k : UInt32) (i : Nat) : Prop := ∃ m ∈ fingerNext st i i, m < k

instance (st : State P) (k : UInt32) (i : Nat) : Decidable (Below st k i) :=
  inferInstanceAs (Decidable (∃ m ∈ fingerKey st i, m < k))

instance (st : State P) (k : UInt32) (i : Nat) : Decidable (Above st k i) :=
  inferInstanceAs (Decidable (∃ m ∈ fingerKey st i, k < m))

instance (st : State P) (k : UInt32) (i : Nat) : Decidable (Passes st k i) :=
  inferInstanceAs (Decidable (∃ m ∈ fingerNext st i i, m < k))

/-- The forward climb does not leave the first finger, and that one is before the key
    and so is its successor. -/
def StopsShort (st : State P) (k : UInt32) : Prop :=
  Below st k 0 ∧ Passes st k 0 ∧ (st.sl.level = 1 ∨ ¬ Passes st k 1)

/-- The backward climb stops on a finger that carries the key and has a successor. -/
def OnKey (st : State P) (k : UInt32) : Prop :=
  ¬ Below st k 0 ∧ ∃ lvl < st.sl.level, 1 ≤ lvl ∧ (∀ j < lvl, 1 ≤ j → Above st k j) ∧
    fingerKey st lvl = some k ∧ (fingerNext st 0 lvl).isSome

/-- Some node of the level-0 chain carries the key. -/
def Stored (st : State P) (k : UInt32) : Prop :=
  ∃ c ∈ chainAt st 0, ∃ a ∈ c, keyOf st.heap a = some k

/-- When finger search misses a stored key. -/
def FingerMiss (st : State P) (k : UInt32) : Prop :=
  Stored st k ∧ (StopsShort st k ∨ OnKey st k)

/-! ## Fingers and their successors on a list cut at the key -/

theorem keyOf_of_shape {h : Heap P} {a : Addr} {k : UInt32} {p : Option P} {t : Nat}
    (hs : shapeOf h a = some (k, p, t)) : keyOf h a = some k := by
  obtain ⟨n, -, hc, rfl, -⟩ := load_of_shape hs
  simp only [keyOf, hc, Option.map_some]

theorem payloadOf_of_shape {h : Heap P} {a : Addr} {k : UInt32} {p : Option P} {t : Nat}
    (hs : shapeOf h a = some (k, p, t)) : payloadOf h a = p := by
  obtain ⟨n, -, hc, -, rfl, -⟩ := load_of_shape hs
  simp only [payloadOf, hc, Option.bind_some]

namespace Rep

variable {h : Heap P} {hdr : Addr} {pre post : List (Tower P)} {k : UInt32}

theorem keyOf_before (r : Rep h hdr (pre ++ post)) (hpre : ∀ n ∈ pre, n.key < k) (hk : 0 < k)
    {i : Nat} {a : Addr} (ha : a ∈ levelNodes hdr pre i) : ∃ m, keyOf h a = some m ∧ m < k := by
  rcases mem_levelNodes.mp ha with rfl | ⟨n, hn, -, rfl⟩
  · exact ⟨0, keyOf_of_shape r.header, hk⟩
  · exact ⟨n.key, keyOf_of_shape (r.node n (List.mem_append_left _ hn)), hpre n hn⟩

/-- A node of a level is before the cut or behind it. -/
theorem mem_cut {i : Nat} {a : Addr} (ha : a ∈ levelNodes hdr (pre ++ post) i) :
    a ∈ levelNodes hdr pre i ∨ ∃ n ∈ post, n.addr = a ∧ i < n.height := by
  rw [levelNodes_append] at ha
  rcases List.mem_append.mp ha with ha | ha
  · exact Or.inl ha
  · obtain ⟨n, hn, rfl⟩ := List.mem_map.mp ha
    exact Or.inr ⟨n, (mem_onLevel.mp hn).1, rfl, (mem_onLevel.mp hn).2⟩

/-- What a node of a level points to there: short of the last node before the cut, a node
    before the cut; from there on, nothing or a node behind it. -/
theorem next_cases (r : Rep h hdr (pre ++ post)) {i : Nat} (hi : i < skipMax) {a : Addr}
    (ha : a ∈ levelNodes hdr (pre ++ post) i) :
    (a ∈ levelNodes hdr pre i ∧ a ≠ pred hdr pre i ∧
      ∃ n ∈ pre, forward h i a = .ok (some n.addr)) ∨
    (¬ (a ∈ levelNodes hdr pre i ∧ a ≠ pred hdr pre i) ∧
      ∃ q : Option (Tower P), forward h i a = .ok (q.map Tower.addr) ∧ ∀ n ∈ q, n ∈ post) := by
  have hnd := r.nodup_level i
  have hchain := r.chain i hi
  rcases mem_cut ha with ha | ⟨n, hn, rfl, hlt⟩
  · by_cases hp : a = pred hdr pre i
    · refine Or.inr ⟨fun hc => hc.2 hp, (onLevel i post).head?, ?_, ?_⟩
      · rw [hp]
        exact r.forward_pred hi
      · intro n hn
        exact (mem_onLevel.mp (List.mem_of_mem_head? hn)).1
    · refine Or.inl ⟨ha, hp, ?_⟩
      obtain ⟨before, after, hsplit⟩ := List.append_of_mem ha
      cases after with
      | nil =>
        apply absurd _ hp
        simp only [pred, hsplit, List.getLast_append_of_ne_nil _ (List.cons_ne_nil a []),
          List.getLast_singleton]
      | cons b after =>
        rw [levelNodes_append, hsplit, List.append_assoc, List.cons_append] at hchain
        have hlink : forward h i a = .ok (some b) := hchain.link_at
        -- `b` is not the header, which comes first on its level
        have hb : b ∈ (onLevel i pre).map Tower.addr := by
          cases before with
          | nil =>
            obtain ⟨-, hl⟩ := List.cons.inj hsplit
            rw [hl]
            exact List.mem_cons_self
          | cons c before =>
            obtain ⟨-, hl⟩ := List.cons.inj hsplit
            rw [hl]
            simp
        obtain ⟨n, hn, rfl⟩ := List.mem_map.mp hb
        exact ⟨n, (mem_onLevel.mp hn).1, hlink⟩
  · right
    have hmem : n.addr ∈ (onLevel i post).map Tower.addr :=
      List.mem_map_of_mem (mem_onLevel.mpr ⟨hn, hlt⟩)
    rw [levelNodes_append] at hnd hchain
    refine ⟨fun hc => List.disjoint_of_nodup_append hnd hc.1 hmem, ?_⟩
    obtain ⟨before, after, hsplit⟩ := List.append_of_mem (mem_onLevel.mpr ⟨hn, hlt⟩)
    rw [hsplit, List.map_append, List.map_cons, ← List.append_assoc] at hchain
    refine ⟨after.head?, ?_, ?_⟩
    · rw [hchain.link_at, first_none, List.head?_map]
    · intro m hm
      have hm' : m ∈ onLevel i post := by
        rw [hsplit]
        exact List.mem_append_right _ (List.mem_cons_of_mem n (List.mem_of_mem_head? hm))
      exact (mem_onLevel.mp hm').1

/-- The level-0 link of a node in the middle of the list. -/
theorem forward_at {m : Tower P} {rest : List (Tower P)} (r : Rep h hdr (pre ++ m :: rest)) :
    forward h 0 m.addr = .ok (rest.head?.map Tower.addr) := by
  have hchain := r.chain 0 (by decide)
  rw [levelNodes, r.onLevel_zero, List.map_append, List.map_cons, ← List.cons_append] at hchain
  rw [hchain.link_at, first_none, List.head?_map]

end Rep

section Finger

variable {st : State P} {pre post : List (Tower P)} {k : UInt32} {i : Nat} {a : Addr}

/-- The test of the forward climb, and when it passes. -/
theorem aheadOf_spec (r : Rep st.heap st.sl.header (pre ++ post)) (hpre : ∀ n ∈ pre, n.key < k)
    (hpost : ∀ n ∈ post, k ≤ n.key) (hi : i < skipMax) (hf : st.sl.finger i = some a)
    (ha : a ∈ levelNodes st.sl.header (pre ++ post) i) :
    aheadOf st.heap st.sl.finger k i = .ok (decide (Passes st k i)) ∧
      (Passes st k i ↔ a ∈ levelNodes st.sl.header pre i ∧ a ≠ pred st.sl.header pre i) := by
  have hnext : ∀ p, forward st.heap i a = .ok p →
      fingerNext st i i = p.bind (keyOf st.heap) := by
    intro p hp
    simp only [fingerNext, hf, Option.bind_some, hp, Except.toOption, Option.join_some]
  rcases r.next_cases hi ha with ⟨hin, hne, n, hn, hp⟩ | ⟨hnot, q, hp, hq⟩
  · have hs := r.node n (List.mem_append_left _ hn)
    have hpass : Passes st k i := by
      refine ⟨n.key, ?_, hpre n hn⟩
      rw [hnext _ hp, Option.bind_some, keyOf_of_shape hs]
      rfl
    refine ⟨?_, fun _ => ⟨hin, hne⟩, fun _ => hpass⟩
    simp only [aheadOf, readArray, if_pos hi, Runs.ok_bind, hf, nonNull, hp,
      keyLess_of_shape hs, decide_eq_true (hpre n hn), decide_eq_true hpass]
  · have hstop : ¬ Passes st k i := by
      intro h
      obtain ⟨m, hm, hlt⟩ := h
      rw [hnext _ hp] at hm
      cases q with
      | none => simp at hm
      | some n =>
        have hn := hq n rfl
        rw [Option.map_some, Option.bind_some,
          keyOf_of_shape (r.node n (List.mem_append_right _ hn))] at hm
        cases hm
        exact UInt32.not_lt.mpr (hpost n hn) hlt
    refine ⟨?_, fun hc => absurd hc hstop, fun hc => absurd hc hnot⟩
    cases q with
    | none =>
      simp only [aheadOf, readArray, if_pos hi, Runs.ok_bind, hf, nonNull, hp, Option.map_none,
        decide_eq_false hstop]
    | some n =>
      have hn := hq n rfl
      simp only [aheadOf, readArray, if_pos hi, Runs.ok_bind, hf, nonNull, hp, Option.map_some,
        keyLess_of_shape (r.node n (List.mem_append_right _ hn)),
        decide_eq_false (UInt32.not_lt.mpr (hpost n hn)), decide_eq_false hstop]

/-- The test of the backward climb. -/
theorem behindOf_spec (r : Rep st.heap st.sl.header (pre ++ post)) (hi : i < skipMax)
    (hf : st.sl.finger i = some a) (ha : a ∈ levelNodes st.sl.header (pre ++ post) i) :
    behindOf st.heap st.sl.finger k i = .ok (decide (Above st k i)) := by
  obtain ⟨m, p, t, hs, -⟩ := r.shape_mem ha hi
  obtain ⟨n, hl, -, hkey, -⟩ := load_of_shape hs
  have hab : Above st k i ↔ k < m := by
    simp [Above, fingerKey, hf, keyOf_of_shape hs]
  simp only [behindOf, readArray, if_pos hi, Runs.ok_bind, hf, hl, defaultCompare, hkey, hab]

/-- The finger is before the key iff it is on the chain before the cut. -/
theorem below_iff (r : Rep st.heap st.sl.header (pre ++ post)) (hpre : ∀ n ∈ pre, n.key < k)
    (hpost : ∀ n ∈ post, k ≤ n.key) (hk : 0 < k) (hf : st.sl.finger i = some a)
    (ha : a ∈ levelNodes st.sl.header (pre ++ post) i) :
    Below st k i ↔ a ∈ levelNodes st.sl.header pre i := by
  have hkey : fingerKey st i = keyOf st.heap a := by simp only [fingerKey, hf, Option.bind_some]
  refine ⟨?_, ?_⟩
  · intro h
    obtain ⟨m, hm, hlt⟩ := h
    rcases Rep.mem_cut ha with ha | ⟨n, hn, rfl, -⟩
    · exact ha
    · rw [hkey, keyOf_of_shape (r.node n (List.mem_append_right _ hn))] at hm
      cases hm
      exact absurd hlt (UInt32.not_lt.mpr (hpost n hn))
  · intro hin
    obtain ⟨m, hm, hlt⟩ := r.keyOf_before hpre hk hin
    exact ⟨m, by rw [hkey, hm]; rfl, hlt⟩

end Finger

/-! ## Where the climb ends -/

/-- The level and the node that the climb hands to the descent, in a list cut at the key. -/
inductive Landing (st : State P) (k : UInt32) (pre post : List (Tower P)) : Nat → Addr → Prop
  | before {lvl : Nat} {x : Addr} (hlvl : 1 ≤ lvl)
      (hx : x ∈ levelNodes st.sl.header pre (lvl - 1)) (hshort : ¬ StopsShort st k)
      (hkey : ¬ OnKey st k) : Landing st k pre post lvl x
  | first {x : Addr} (hx : x ∈ levelNodes st.sl.header pre 0)
      (hshort : StopsShort st k ↔ x ≠ pred st.sl.header pre 0) (hkey : ¬ OnKey st k) :
      Landing st k pre post 0 x
  | atKey {lvl : Nat} {m : Tower P} {rest : List (Tower P)} (hpost : post = m :: rest)
      (hm : m.key = k) (hlvl : lvl ≤ m.height) (hshort : ¬ StopsShort st k)
      (hkey : OnKey st k ↔ rest ≠ []) : Landing st k pre post lvl m.addr

section Climb

variable {st : State P} {pre post : List (Tower P)} {k : UInt32}

/-- The first finger is before the key: the climb goes forward. -/
theorem climb_forward (H : Holds st (pre ++ post)) (hF : Fingers st (pre ++ post))
    (hpre : ∀ n ∈ pre, n.key < k) (hpost : ∀ n ∈ post, k ≤ n.key) (hk : 0 < k)
    (hbelow : Below st k 0) :
    ∃ lvl x, climb st k = .ok (lvl, x) ∧ lvl ≤ st.sl.level ∧ Landing st k pre post lvl x := by
  obtain ⟨h1, h2⟩ := H.level_bounds
  have hkey : ¬ OnKey st k := fun hc => hc.1 hbelow
  obtain ⟨f, hf, hfmem⟩ := hF 0 h1
  have hin := (below_iff H.rep hpre hpost hk hf hfmem).mp hbelow
  obtain ⟨m, hm, hlt⟩ := hbelow
  have hahead : keyLess st.heap k f = .ok true := by
    obtain ⟨k', p, t, hs, -⟩ := H.rep.shape_mem hfmem (by omega)
    rw [fingerKey, hf, Option.bind_some, keyOf_of_shape hs] at hm
    cases hm
    rw [keyLess_of_shape hs, decide_eq_true hlt]
  have htest : ∀ j, 1 ≤ j → j < 1 + (st.sl.level - 1) →
      aheadOf st.heap st.sl.finger k j = .ok (decide (Passes st k j)) := by
    intro j _ hj
    obtain ⟨a, ha, hamem⟩ := hF j (by omega)
    exact (aheadOf_spec H.rep hpre hpost (by omega) ha hamem).1
  obtain ⟨lvl, hrun, hlo, hhi, hpass, hstop⟩ :=
    Runs.countWhile_spec _ (Passes st k) (st.sl.level - 1) 1 htest
  obtain ⟨x, hx, hxmem⟩ := hF (lvl - 1) (by omega)
  refine ⟨lvl - 1, x, ?_, by omega, ?_⟩
  · have hread : ∀ i < st.sl.level, readArray st.sl.finger i = .ok (st.sl.finger i) :=
      fun i hi => if_pos (Nat.lt_of_lt_of_le hi h2)
    simp only [climb, hread 0 h1, hf, hahead, Runs.ok_bind, if_true, hrun,
      hread (lvl - 1) (by omega), hx, nonNull]
  · by_cases hone : lvl = 1
    · -- the loop ended at once: no level is left to descend
      subst hone
      rw [Nat.sub_self, hf] at hx
      cases hx
      refine Landing.first hin ⟨fun hc => ?_, fun hne => ?_⟩ hkey
      · exact ((aheadOf_spec H.rep hpre hpost (by omega) hf hfmem).2.mp hc.2.1).2
      · refine ⟨⟨m, hm, hlt⟩,
          (aheadOf_spec H.rep hpre hpost (by omega) hf hfmem).2.mpr ⟨hin, hne⟩, ?_⟩
        by_cases hl : st.sl.level = 1
        · exact Or.inl hl
        · exact Or.inr (hstop (by omega))
    · -- the finger below the one that stopped the loop has a successor before the key
      have hprev := hpass (lvl - 1) (by omega) (by omega)
      have hx' := ((aheadOf_spec H.rep hpre hpost (by omega) hx hxmem).2.mp hprev).1
      refine Landing.before (by omega) (levelNodes_mono (by omega) hx') ?_ hkey
      intro h
      obtain ⟨-, -, hl | hl⟩ := h
      · omega
      · exact hl (hpass 1 (Nat.le_refl 1) (by omega))

/-- The backward climb has passed fingers behind the key and stops on one that is not. -/
theorem landing_stopped (H : Holds st (pre ++ post)) (hpre : ∀ n ∈ pre, n.key < k)
    (hpost : ∀ n ∈ post, k ≤ n.key) (hk : 0 < k) (hbelow : ¬ Below st k 0) {lvl : Nat} {x : Addr}
    (hx : st.sl.finger lvl = some x) (hxmem : x ∈ levelNodes st.sl.header (pre ++ post) lvl)
    (hlo : 1 ≤ lvl) (hlt : lvl < st.sl.level) (hpass : ∀ j, 1 ≤ j → j < lvl → Above st k j)
    (hnot : ¬ Above st k lvl) : Landing st k pre post lvl x := by
  have hshort : ¬ StopsShort st k := fun hc => hbelow hc.1
  -- an `OnKey` level can only be the one the loop stopped on
  have honly : ∀ l < st.sl.level, 1 ≤ l → (∀ j < l, 1 ≤ j → Above st k j) →
      fingerKey st l = some k → l = lvl := by
    intro l hl hl1 hab hkey
    rcases Nat.lt_trichotomy l lvl with hc | hc | hc
    · obtain ⟨m, hm, hlt⟩ := hpass l hl1 hc
      rw [hkey] at hm
      cases hm
      exact absurd hlt (UInt32.lt_irrefl k)
    · exact hc
    · exact absurd (hab lvl hc hlo) hnot
  rcases Rep.mem_cut hxmem with hin | ⟨m, hm, rfl, hmt⟩
  · obtain ⟨m, hm, hmlt⟩ := H.rep.keyOf_before hpre hk hin
    refine Landing.before hlo (levelNodes_mono (by omega) hin) hshort ?_
    intro h
    obtain ⟨-, l, hl, hl1, hab, hkey, -⟩ := h
    have := honly l hl hl1 hab hkey
    subst this
    rw [fingerKey, hx, Option.bind_some, hm] at hkey
    cases hkey
    exact UInt32.lt_irrefl k hmlt
  · -- the finger is not before the key and not behind it
    have hs := H.rep.node m (List.mem_append_right _ hm)
    have hfk : fingerKey st lvl = some m.key := by
      rw [fingerKey, hx, Option.bind_some, keyOf_of_shape hs]
    have hmk : m.key = k := by
      apply Classical.byContradiction
      intro hne
      apply hnot
      exact ⟨m.key, hfk, UInt32.lt_of_le_of_ne (hpost m hm) (Ne.symm hne)⟩
    obtain ⟨rest, rfl⟩ := H.rep.head_of_key hpost hm hmk
    refine Landing.atKey rfl hmk (Nat.le_of_lt hmt) hshort ?_
    have hsucc : (fingerNext st 0 lvl).isSome ↔ rest ≠ [] := by
      rw [fingerNext, hx, Option.bind_some, H.rep.forward_at]
      cases rest with
      | nil => simp [Except.toOption]
      | cons y rest =>
        have hy := H.rep.node y (by simp)
        simp [Except.toOption, keyOf_of_shape hy]
    refine ⟨?_, fun hr => ⟨hbelow, lvl, hlt, hlo, fun j hj hj1 => hpass j hj1 hj, ?_, ?_⟩⟩
    · intro h
      obtain ⟨-, l, hl, hl1, hab, hkey, hs⟩ := h
      rw [honly l hl hl1 hab hkey] at hs
      exact hsucc.mp hs
    · rw [hfk, hmk]
    · exact hsucc.mpr hr

/-- The first finger is missing or not before the key: the climb goes backward. -/
theorem climb_backward (H : Holds st (pre ++ post))
    (hF : Fingers st (pre ++ post) ∨ Untouched st) (hpre : ∀ n ∈ pre, n.key < k)
    (hpost : ∀ n ∈ post, k ≤ n.key) (hk : 0 < k) (hbelow : ¬ Below st k 0) :
    ∃ lvl x, climb st k = .ok (lvl, x) ∧ lvl ≤ st.sl.level ∧
      (Fingers st (pre ++ post) ∨ lvl = st.sl.level) ∧ Landing st k pre post lvl x := by
  obtain ⟨h1, h2⟩ := H.level_bounds
  have hshort : ¬ StopsShort st k := fun hc => hbelow hc.1
  have hread : ∀ i < st.sl.level, readArray st.sl.finger i = .ok (st.sl.finger i) :=
    fun i hi => if_pos (Nat.lt_of_lt_of_le hi h2)
  have hhead := header_mem st.sl.header pre (st.sl.level - 1)
  rcases hF with hF | ⟨hl, hnone⟩
  · obtain ⟨f, hf, hfmem⟩ := hF 0 h1
    have hahead : keyLess st.heap k f = .ok false := by
      obtain ⟨k', p, t, hs, -⟩ := H.rep.shape_mem hfmem (by omega)
      rw [keyLess_of_shape hs]
      refine congrArg Except.ok (decide_eq_false fun hlt => hbelow ⟨k', ?_, hlt⟩)
      rw [fingerKey, hf, Option.bind_some, keyOf_of_shape hs]
      rfl
    have htest : ∀ j, 1 ≤ j → j < 1 + (st.sl.level - 1) →
        behindOf st.heap st.sl.finger k j = .ok (decide (Above st k j)) := by
      intro j _ hj
      obtain ⟨a, ha, hamem⟩ := hF j (by omega)
      exact behindOf_spec H.rep (by omega) ha hamem
    obtain ⟨lvl, hrun, hlo, hhi, hpass, hstop⟩ :=
      Runs.countWhile_spec _ (Above st k) (st.sl.level - 1) 1 htest
    by_cases hend : st.sl.level - 1 < lvl
    · -- every finger is behind the key: start from the header
      refine ⟨st.sl.level, st.sl.header, ?_, Nat.le_refl _, Or.inl hF,
        Landing.before h1 hhead hshort ?_⟩
      · simp only [climb, hread 0 h1, hf, hahead, Runs.ok_bind, hrun, if_pos hend]
        rfl
      · intro h
        obtain ⟨-, l, hl, hl1, -, hkey, -⟩ := h
        obtain ⟨m, hm, hlt⟩ := hpass l hl1 (by omega)
        rw [hkey] at hm
        cases hm
        exact UInt32.lt_irrefl k hlt
    · have hlt : lvl < st.sl.level := by omega
      have hnot := hstop (by omega)
      obtain ⟨x, hx, hxmem⟩ := hF lvl hlt
      refine ⟨lvl, x, ?_, by omega, Or.inl hF, ?_⟩
      · simp only [climb, hread 0 h1, hf, hahead, Runs.ok_bind, hrun, if_neg hend, hread lvl hlt,
          hx, nonNull]
        rfl
      · exact landing_stopped H hpre hpost hk hbelow hx hxmem hlo hlt hpass hnot
  · -- no finger yet, so the list has one level
    refine ⟨st.sl.level, st.sl.header, ?_, Nat.le_refl _, Or.inr rfl,
      Landing.before h1 hhead hshort ?_⟩
    · simp only [climb, hread 0 h1, hnone, Runs.ok_bind, hl, Nat.sub_self, Runs.countWhile]
      rfl
    · intro h
      obtain ⟨-, l, hlt, hl1, -⟩ := h
      omega

end Climb

/-! ## The call -/

theorem Rep.chainAt {st : State P} {ns : List (Tower P)} (r : Rep st.heap st.sl.header ns)
    {i : Nat} (hi : i < skipMax) : chainAt st i = some ((onLevel i ns).map Tower.addr) := by
  have hlen : (levelNodes st.sl.header ns i).length ≤ st.heap.next := by
    have h₁ := r.length_lt_next
    have h₂ : (onLevel i ns).length ≤ ns.length := List.length_filter_le ..
    simp only [levelNodes, List.length_cons, List.length_map]
    omega
  have hc := collect_spec st.heap.next _ (r.chain i hi) hlen
  rw [Skip.chainAt, show some st.sl.header = (levelNodes st.sl.header ns i).head? from rfl, hc]
  rfl

section Call

variable {st : State P} {ns pre post : List (Tower P)} {k : UInt32}

theorem stored_iff (r : Rep st.heap st.sl.header ns) : Stored st k ↔ ∃ n ∈ ns, n.key = k := by
  rw [Stored, r.chainAt (by decide), r.onLevel_zero]
  have hkey : ∀ n ∈ ns, keyOf st.heap n.addr = some n.key :=
    fun n hn => keyOf_of_shape (r.node n hn)
  refine ⟨?_, ?_⟩
  · intro h
    obtain ⟨c, hc, a, ha, hk⟩ := h
    cases hc
    obtain ⟨n, hn, rfl⟩ := List.mem_map.mp ha
    rw [hkey n hn] at hk
    exact ⟨n, hn, Option.some.inj hk⟩
  · intro h
    obtain ⟨n, hn, rfl⟩ := h
    exact ⟨_, rfl, n.addr, List.mem_map_of_mem hn, hkey n hn⟩

theorem lookup_isSome_iff : (lookup ns k).isSome ↔ ∃ n ∈ ns, n.key = k := by
  simp only [lookup, Option.isSome_map, List.find?_isSome, decide_eq_true_eq]

/-- The lookup that ends the call answers NULL if it moves on to a node without the key. -/
theorem result_next {h : Heap P} {x : Addr} {n : Tower P}
    (hs : shapeOf h n.addr = some (n.key, some n.payload, n.height))
    (hp : forward h 0 x = .ok (some n.addr)) (hne : n.key ≠ k) : result h k x = .ok none := by
  obtain ⟨m, hl, -, hkey, -⟩ := load_of_shape hs
  simp only [result, candidate, hp, Runs.ok_bind, Option.getD_some, hl, hkey, if_neg hne]

/-- From each landing the descent and the lookup succeed; they miss a stored key on
    exactly two of them. -/
theorem landing_spec (H : Holds st (pre ++ post)) (hpre : ∀ n ∈ pre, n.key < k)
    (hpost : ∀ n ∈ post, k ≤ n.key) (hk : k ≠ 0) {lvl : Nat} {x : Addr}
    (hlvl : lvl ≤ st.sl.level) (hL : Landing st k pre post lvl x) :
    ∃ (node : Nat → Addr) (y : Addr) (r : Option P),
      descend st.heap k recordFinger lvl x st.sl.finger =
        .ok (y, recorded node lvl st.sl.finger) ∧
      (∀ i < lvl, node i ∈ levelNodes st.sl.header (pre ++ post) i) ∧
      result st.heap k y = .ok r ∧
      (StopsShort st k ∨ OnKey st k → r = none) ∧
      (¬ (StopsShort st k ∨ OnKey st k) → r = lookup (pre ++ post) k) := by
  have hmax := Nat.le_trans hlvl H.level_bounds.2
  cases hL with
  | before h1 hx hshort hkey =>
    obtain ⟨n, rfl⟩ : ∃ n, lvl = n + 1 := ⟨lvl - 1, by omega⟩
    refine ⟨pred st.sl.header pre, pred st.sl.header pre 0, _, ?_, ?_,
      H.rep.result_pred hpre hpost hk, fun hc => absurd hc (not_or.mpr ⟨hshort, hkey⟩),
      fun _ => rfl⟩
    · rw [H.rep.descend_spec hpre hpost recordFinger n x _ (by omega) hx,
        sweep_recordFinger _ _ _ hmax]
      rfl
    · exact fun i _ => pred_mem_append st.sl.header pre post i
  | first hx hshort hkey =>
    have hmiss : StopsShort st k ∨ OnKey st k ↔ x ≠ pred st.sl.header pre 0 := by
      rw [← hshort]
      exact ⟨fun hc => hc.resolve_right hkey, Or.inl⟩
    have hxmem : x ∈ levelNodes st.sl.header (pre ++ post) 0 := levelNodes_left post hx
    have hdesc : descend st.heap k recordFinger 0 x st.sl.finger =
        .ok (x, recorded (pred st.sl.header pre) 0 st.sl.finger) := rfl
    rcases H.rep.next_cases (by decide) hxmem with ⟨-, hne, n, hn, hp⟩ | ⟨hnot, -⟩
    · have hlt := hpre n hn
      refine ⟨pred st.sl.header pre, x, none, hdesc, fun i hi => absurd hi (Nat.not_lt_zero i),
        result_next (H.rep.node n (List.mem_append_left _ hn)) hp
          (UInt32.ne_of_lt hlt), fun _ => rfl, fun hc => absurd (hmiss.mpr hne) hc⟩
    · have hx0 : x = pred st.sl.header pre 0 :=
        Classical.byContradiction fun hne => hnot ⟨hx, hne⟩
      refine ⟨pred st.sl.header pre, x, _, hdesc, fun i hi => absurd hi (Nat.not_lt_zero i),
        by rw [hx0]; exact H.rep.result_pred hpre hpost hk,
        fun hc => absurd hx0 (hmiss.mp hc), fun _ => rfl⟩
  | @atKey _ m rest he hm ht hshort hkey =>
    subst he
    have hmiss : StopsShort st k ∨ OnKey st k ↔ rest ≠ [] := by
      rw [← hkey]
      exact ⟨fun hc => hc.resolve_left hshort, Or.inr⟩
    have hmem : m ∈ pre ++ m :: rest := by simp
    have hdesc : descend st.heap k recordFinger lvl m.addr st.sl.finger =
        .ok (m.addr, recorded (fun _ => m.addr) lvl st.sl.finger) := by
      rw [H.rep.descend_stay hpost recordFinger List.mem_cons_self lvl _ ht,
        sweep_recordFinger _ _ _ hmax]
      rfl
    have hnodes : ∀ i < lvl, m.addr ∈ levelNodes st.sl.header (pre ++ m :: rest) i :=
      fun i hi => mem_levelNodes.mpr (Or.inr ⟨m, hmem, by omega, rfl⟩)
    have hfwd := H.rep.forward_at
    cases rest with
    | nil =>
      have hne : ∀ n ∈ pre, n.key ≠ k := fun n hn => UInt32.ne_of_lt (hpre n hn)
      have hlook : lookup (pre ++ [m]) k = some m.payload := by
        rw [lookup_skip hne, lookup_head hm]
      obtain ⟨n, hl, -, hkey', hpay, -⟩ := load_of_shape (H.rep.node m hmem)
      refine ⟨fun _ => m.addr, m.addr, some m.payload, hdesc, hnodes, ?_,
        fun hc => absurd rfl (hmiss.mp hc), fun _ => hlook.symm⟩
      simp only [result, candidate, hfwd, Runs.ok_bind, List.head?_nil, Option.map_none,
        Option.getD_none, hl, hkey', hm, if_true, hpay]
    | cons y rest =>
      have hy : y ∈ pre ++ m :: y :: rest := by simp
      have hsort := (List.pairwise_append.mp H.rep.sorted).2.1
      have hlt := List.rel_of_pairwise_cons hsort (List.mem_cons_self (a := y) (l := rest))
      rw [hm] at hlt
      exact ⟨fun _ => m.addr, m.addr, none, hdesc, hnodes,
        result_next (H.rep.node y hy) hfwd (UInt32.ne_of_lt hlt).symm,
        fun _ => rfl, fun hc => absurd (hmiss.mpr (List.cons_ne_nil y rest)) hc⟩

/-- Finger search returns, touches nothing but the fingers, and answers as plain search
    does unless `FingerMiss`; then it answers NULL. -/
theorem skipFingerSearch_spec (H : Inv st ns) (hk : k ≠ 0) :
    ∃ r finger, skipFingerSearch st k = .ok (r, { st with sl := { st.sl with finger := finger } }) ∧
      Fingers { st with sl := { st.sl with finger := finger } } ns ∧
      (FingerMiss st k → r = none) ∧ (¬ FingerMiss st k → r = lookup ns k) := by
  obtain ⟨pre, post, rfl, hpre, hpost⟩ := H.rep.split k
  have hk0 : 0 < k := UInt32.lt_of_le_of_ne UInt32.zero_le (Ne.symm hk)
  obtain ⟨lvl, x, hclimb, hlvl, hF, hL⟩ : ∃ lvl x, climb st k = .ok (lvl, x) ∧
      lvl ≤ st.sl.level ∧ (Fingers st (pre ++ post) ∨ lvl = st.sl.level) ∧
      Landing st k pre post lvl x := by
    by_cases hbelow : Below st k 0
    · rcases H.fingers with hF | ⟨-, hnone⟩
      · obtain ⟨lvl, x, h₁, h₂, h₃⟩ := climb_forward H.toHolds hF hpre hpost hk0 hbelow
        exact ⟨lvl, x, h₁, h₂, Or.inl hF, h₃⟩
      · obtain ⟨m, hm, -⟩ := hbelow
        simp [fingerKey, hnone] at hm
    · exact climb_backward H.toHolds H.fingers hpre hpost hk0 hbelow
  obtain ⟨node, y, r, hdesc, hnode, hres, hmiss, hhit⟩ :=
    landing_spec H.toHolds hpre hpost hk hlvl hL
  refine ⟨r, recorded node lvl st.sl.finger, ?_, ?_, fun hc => hmiss hc.2, ?_⟩
  · simp only [skipFingerSearch, hclimb, Runs.ok_bind, hdesc, hres]
  · intro i hi
    by_cases hil : i < lvl
    · exact ⟨node i, by simp only [recorded, if_pos hil], hnode i hil⟩
    · rcases hF with hF | hF
      · simpa only [recorded, if_neg hil] using hF i hi
      · exact absurd hi (by rw [← hF]; exact hil)
  · intro hnot
    by_cases hbad : StopsShort st k ∨ OnKey st k
    · -- the bad landings answer NULL, which is right for an absent key
      have habs : ¬ ∃ n ∈ pre ++ post, n.key = k := by
        rw [← stored_iff H.rep]
        exact fun hs => hnot ⟨hs, hbad⟩
      rw [hmiss hbad, lookup_eq_none fun n hn e => habs ⟨n, hn, e⟩]
    · exact hhit hbad

/-- Finger search answers as plain search exactly outside `FingerMiss`. -/
theorem fingerSearch_eq_iff (H : Inv st ns) (hk : k ≠ 0) :
    ∃ r st', skipFingerSearch st k = .ok (r, st') ∧ (r = lookup ns k ↔ ¬ FingerMiss st k) := by
  obtain ⟨r, finger, hrun, -, hmiss, hhit⟩ := skipFingerSearch_spec H hk
  refine ⟨r, _, hrun, fun he hc => ?_, hhit⟩
  have hsome := lookup_isSome_iff.mpr ((stored_iff H.rep).mp hc.1)
  rw [← he, hmiss hc] at hsome
  exact absurd hsome Bool.false_ne_true

end Call

end DataMonkey.Skip
