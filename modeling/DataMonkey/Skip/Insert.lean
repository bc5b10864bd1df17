import DataMonkey.Skip.Search

/- `skip_init` and `skip_insert`.

   The splice loop is the only place where the chains grow. Its invariant after `i`
   rounds, `Relinked`: the levels below `i` have the new node in its place, the others
   still read as they did when the node was created. -/
namespace DataMonkey.Skip

open Chain

variable {P : Type}

/-! ## The empty list -/

theorem skipInit_spec (f : FreeFunc) :
    ∃ st : State P, skipInit f = .ok st ∧ Inv st [] ∧ Untouched st ∧ st.sl.freeFunc = f ∧
      st.released = [] := by
  let h₀ : Heap P := (createSkipNode (P := P) Store.empty skipMax 0 none).2
  have hs₀ : shapeOf h₀ 0 = some (0, none, skipMax) := by
    simp [h₀, createSkipNode, shapeOf, Store.alloc, Store.empty]
  have hstep : ∀ i (h : Heap P), 0 ≤ i → i < 0 + skipMax →
      (shapeOf h 0 = some (0, none, skipMax) ∧ ∀ j < i, forward h j 0 = .ok none) →
      ∃ h', setForward h i 0 none = .ok h' ∧
        shapeOf h' 0 = some (0, none, skipMax) ∧ ∀ j < i + 1, forward h' j 0 = .ok none := by
    intro i h _ hi hinv
    obtain ⟨hs, hf⟩ := hinv
    have hi' : i < skipMax := by omega
    obtain ⟨h', hset, hat, hoff, hshape, -⟩ := setForward_spec (p := none) hs hi'
    refine ⟨h', hset, by rw [hshape]; exact hs, ?_⟩
    intro j hj
    by_cases hji : j = i
    · rw [hji]; exact hat
    · rw [hoff j 0 (Or.inr hji)]; exact hf j (by omega)
  obtain ⟨h, hrun, hshape, hfwd⟩ := Runs.foldlM_range' (fun (h : Heap P) i => setForward h i 0 none)
    (fun i h => shapeOf h 0 = some (0, none, skipMax) ∧ ∀ j < i, forward h j 0 = .ok none)
    skipMax 0 h₀ ⟨hs₀, fun j hj => absurd hj (Nat.not_lt_zero j)⟩ hstep
  let st : State P :=
    { sl := { level := 1, length := 0, finger := fun _ => none, header := 0, freeFunc := f }
      heap := h, released := [] }
  have hrep : Rep h 0 [] := by
    refine ⟨hshape, by simp, by simp, List.Pairwise.nil, by simp, by simp, ?_⟩
    intro i hi
    exact ⟨hfwd i (by omega), trivial⟩
  refine ⟨st, ?_, ⟨⟨hrep, rfl, rfl⟩, Or.inr ⟨rfl, rfl⟩⟩, ⟨rfl, rfl⟩, rfl, rfl⟩
  show ((List.range' 0 skipMax).foldlM (fun (h : Heap P) i => setForward h i 0 none) h₀ >>= _) = _
  rw [hrun]
  rfl

/-! ## Overwriting the payload of a stored key -/

theorem Rep.overwrite {h : Heap P} {hdr : Addr} {pre post : List (Tower P)} {x : Tower P}
    (r : Rep h hdr (pre ++ x :: post)) {n : SkipNode P} (hc : h.cell x.addr = some n) (p : P) :
    Rep (h.write x.addr { n with payload := some p }) hdr
      (pre ++ { x with payload := p } :: post) := by
  obtain ⟨hxh, hne⟩ := r.addr_ne
  have hx := r.node x (by simp)
  have hc' := Store.cell_write_self (v := { n with payload := some p }) hc
  have hshape : ∀ y, y ≠ x.addr →
      shapeOf (h.write x.addr { n with payload := some p }) y = shapeOf h y := by
    intro y hy
    simp only [shapeOf, Store.cell_write_ne hy]
  have hfwd : ∀ j y, forward (h.write x.addr { n with payload := some p }) j y = forward h j y := by
    intro j y
    by_cases hy : y = x.addr
    · rw [hy]
      simp only [forward, load, hc', hc, Runs.ok_bind]
    · exact forward_congr (Store.cell_write_ne hy)
  -- the chains know addresses and heights only
  have hlevel : ∀ i, levelNodes hdr (pre ++ { x with payload := p } :: post) i =
      levelNodes hdr (pre ++ x :: post) i := by
    intro i
    simp only [levelNodes, onLevel_append, onLevel_cons]
    split <;> simp
  have hsort := r.sorted
  have hpos := r.key_pos
  have hht := r.height
  simp only [List.pairwise_append, List.pairwise_cons, List.forall_mem_cons,
    List.forall_mem_append] at hsort hpos hht
  constructor
  case header =>
    rw [hshape hdr hxh.symm]
    exact r.header
  case node =>
    intro m hm
    rcases List.mem_append.mp hm with hm | hm
    · rw [hshape m.addr (hne m (List.mem_append_left _ hm))]
      exact r.node m (List.mem_append_left _ hm)
    · rcases List.mem_cons.mp hm with rfl | hm
      · obtain ⟨n', -, hn', hkey, -, ht⟩ := load_of_shape hx
        rw [hc, Option.some.injEq] at hn'
        subst hn'
        rw [shapeOf, hc', Option.map_some, hkey, ht]
      · rw [hshape m.addr (hne m (List.mem_append_right _ hm))]
        exact r.node m (by simp [hm])
  case nodup =>
    simpa using r.nodup
  case sorted =>
    simpa only [List.pairwise_append, List.pairwise_cons, List.forall_mem_cons] using hsort
  case key_pos =>
    simpa only [List.forall_mem_append, List.forall_mem_cons] using hpos
  case height =>
    simpa only [List.forall_mem_append, List.forall_mem_cons] using hht
  case chain =>
    intro i hi
    rw [hlevel i]
    exact (r.chain i hi).congr (fun a _ => hfwd i a)

/-! ## Raising the level -/

/-- A level above all of `pre` has only the header before the key. -/
theorem pred_top {hdr : Addr} {pre : List (Tower P)} {i : Nat} (hi : topLevel pre ≤ i) :
    pred hdr pre i = hdr := by
  simp only [pred, levelNodes, onLevel_top hi, List.map_nil, List.getLast_singleton]

/-- After `raise` both arrays hold `node` on every level of the list or of the tower. -/
theorem raise_spec {hdr : Addr} {node : Nat → Addr} {level t : Nat} {tr : Trail}
    (hbase : ∀ j < level, tr.update j = some (node j) ∧ tr.finger j = some (node j))
    (htop : ∀ j, level ≤ j → node j = hdr) (ht : t ≤ skipMax) :
    ∃ tr', raise hdr level t tr = .ok (max level t, tr') ∧
      ∀ j < max level t, tr'.update j = some (node j) ∧ tr'.finger j = some (node j) := by
  by_cases hlt : level < t
  · have hstep : ∀ i (s : Trail), level ≤ i → i < level + (t - level) →
        (∀ j < i, s.update j = some (node j) ∧ s.finger j = some (node j)) →
        ∃ s', s.record i hdr = .ok s' ∧
          ∀ j < i + 1, s'.update j = some (node j) ∧ s'.finger j = some (node j) := by
      intro i s hi hit hs
      have himax : i < skipMax := by omega
      refine ⟨⟨_, _⟩, by simp only [Trail.record, writeArray, if_pos himax, Runs.ok_bind]; rfl, ?_⟩
      intro j hj
      by_cases hji : j = i
      · subst hji
        simp [htop j hi]
      · simpa [hji] using hs j (by omega)
    obtain ⟨tr', hrun, htr'⟩ := Runs.foldlM_range' (fun (s : Trail) i => s.record i hdr)
      (fun i s => ∀ j < i, s.update j = some (node j) ∧ s.finger j = some (node j))
      (t - level) level tr hbase hstep
    refine ⟨tr', ?_, fun j hj => htr' j (by omega)⟩
    rw [raise, if_pos hlt, hrun, Nat.max_eq_right (Nat.le_of_lt hlt)]
    rfl
  · refine ⟨tr, ?_, fun j hj => hbase j (by omega)⟩
    rw [raise, if_neg hlt, Nat.max_eq_left (by omega)]

/-! ## Splicing a new node into the levels of its tower -/

/-- Nothing in the list lives at the next address. -/
theorem Rep.ne_next {h : Heap P} {hdr : Addr} {ns : List (Tower P)} (r : Rep h hdr ns) {i : Nat}
    {a : Addr} (ha : a ∈ levelNodes hdr ns i) (hi : i < skipMax) : a ≠ h.next := by
  obtain ⟨k, p, t, hs, -⟩ := r.shape_mem ha hi
  obtain ⟨n, -, hn, -⟩ := load_of_shape hs
  exact Nat.ne_of_lt (Store.lt_next hn)

/-- A heap inside a loop over the levels that turns the list in `h` into `ns`: below level `i`
    the chains are those of `ns`, from there on they still read as in `h`. -/
structure Relinked (h : Heap P) (hdr : Addr) (ns : List (Tower P)) (i : Nat) (h' : Heap P) :
    Prop where
  shape : ∀ y, shapeOf h' y = shapeOf h y
  done : ∀ j < i, Seg (forward h' j) (levelNodes hdr ns j) none
  rest : ∀ j y, i ≤ j → forward h' j y = forward h j y

theorem Relinked.start (h : Heap P) (hdr : Addr) (ns : List (Tower P)) : Relinked h hdr ns 0 h :=
  ⟨fun _ => rfl, fun j hj => absurd hj (Nat.not_lt_zero j), fun _ _ _ => rfl⟩

/-- One round: level `i` gets its new chain, no other level is touched. -/
theorem Relinked.next {h h' h'' : Heap P} {hdr : Addr} {ns : List (Tower P)} {i : Nat}
    (hs : Relinked h hdr ns i h') (hshape : ∀ y, shapeOf h'' y = shapeOf h' y)
    (hchain : Seg (forward h'' i) (levelNodes hdr ns i) none)
    (hoff : ∀ j y, j ≠ i → forward h'' j y = forward h' j y) : Relinked h hdr ns (i + 1) h'' := by
  constructor
  case shape =>
    intro y
    rw [hshape, hs.shape]
  case done =>
    intro j hj
    by_cases hji : j = i
    · rw [hji]
      exact hchain
    · apply (hs.done j (by omega)).congr
      intro a _
      exact hoff j a hji
  case rest =>
    intro j y hj
    rw [hoff j y (by omega), hs.rest j y (by omega)]

section Splice

variable {h : Heap P} {hdr : Addr} {pre post : List (Tower P)} {x : Tower P}

/-- One round of the splice loop; `h₁` is the heap in which the node was created. -/
theorem splice_step (r : Rep h hdr (pre ++ post)) {h₁ : Heap P} (hx : x.addr = h.next)
    (hxs : shapeOf h₁ x.addr = some (x.key, some x.payload, x.height))
    (hshape : ∀ a, a ≠ h.next → shapeOf h₁ a = shapeOf h a)
    (hfwd : ∀ j a, a ≠ h.next → forward h₁ j a = forward h j a)
    {update : Nat → Option Addr} {i : Nat} (hi : i < x.height) (hmax : x.height ≤ skipMax)
    (hupd : update i = some (pred hdr pre i)) {h' : Heap P}
    (hs : Relinked h₁ hdr (pre ++ x :: post) i h') :
    ∃ h'', splice update x.addr h' i = .ok h'' ∧
      Relinked h₁ hdr (pre ++ x :: post) (i + 1) h'' := by
  have himax : i < skipMax := by omega
  obtain ⟨l, hl⟩ := levelNodes_split hdr pre i
  have hfresh : ∀ a ∈ levelNodes hdr (pre ++ post) i, a ≠ x.addr := by
    intro a ha
    rw [hx]
    exact r.ne_next ha himax
  have hu := pred_mem_append hdr pre post i
  -- the chain of this level, as the heap of the loop still reads it
  have hchain : Seg (forward h' i) (levelNodes hdr (pre ++ post) i) none := by
    apply (r.chain i himax).congr
    intro a ha
    rw [hs.rest i a (Nat.le_refl i), hfwd i a (r.ne_next ha himax)]
  obtain ⟨k, p, t, hus, hut⟩ := r.shape_mem hu himax
  have hnd := r.nodup_level i
  rw [hl post] at hchain hnd hfresh
  have hlink := hchain.link_at
  -- first the new node points on, then its predecessor points to it
  have hxs' : shapeOf h' x.addr = some (x.key, some x.payload, x.height) := by rw [hs.shape, hxs]
  obtain ⟨h₂, hset₂, hat₂, hoff₂, hsame₂, -⟩ :=
    setForward_spec (p := first ((onLevel i post).map Tower.addr) none) hxs' hi
  have hus₂ : shapeOf h₂ (pred hdr pre i) = some (k, p, t) := by
    rw [hsame₂, hs.shape, hshape _ (r.ne_next hu himax), hus]
  obtain ⟨h₃, hset₃, hat₃, hoff₃, hsame₃, -⟩ := setForward_spec (p := some x.addr) hus₂ hut
  have hux : pred hdr pre i ≠ x.addr := hfresh _ (by simp)
  refine ⟨h₃, ?_, hs.next ?_ ?_ ?_⟩
  · simp only [splice, readUpdate, readArray, if_pos himax, Runs.ok_bind, hupd, hlink, hset₂, hset₃]
  · intro y
    rw [hsame₃, hsame₂]
  · rw [hl (x :: post), onLevel_cons, if_pos hi, List.map_cons]
    apply hchain.splice hat₃
    · rw [hoff₃ i x.addr (Or.inl hux.symm), hat₂]
    · intro a ha
      have hmem := List.nodup_cons.mp (List.nodup_middle.mp hnd)
      have hau : a ≠ pred hdr pre i := by
        intro e
        apply hmem.1
        rw [← e]
        exact ha
      have hax : a ≠ x.addr := by
        apply hfresh
        rcases List.mem_append.mp ha with ha | ha <;> simp [ha]
      rw [hoff₃ i a (Or.inl hau), hoff₂ i a (Or.inl hax)]
  · intro j y hji
    rw [hoff₃ j y (Or.inr hji), hoff₂ j y (Or.inr hji)]

/-- The whole loop: the new node is in the list. -/
theorem Rep.insert (r : Rep h hdr (pre ++ post)) {k : UInt32} {p : P} {t : Nat}
    (hpre : ∀ n ∈ pre, n.key < k) (hpost : ∀ n ∈ post, k < n.key) (hk : 0 < k) (ht : 1 ≤ t)
    (hmax : t ≤ skipMax) {update : Nat → Option Addr}
    (hupd : ∀ i < t, update i = some (pred hdr pre i)) :
    ∃ h', (List.range' 0 t).foldlM (splice update h.next)
        (createSkipNode h t k (some p)).2 = .ok h' ∧
      Rep h' hdr (pre ++ ⟨h.next, k, p, t⟩ :: post) := by
  let x : Tower P := ⟨h.next, k, p, t⟩
  let h₁ : Heap P := (createSkipNode h t k (some p)).2
  have hxs : shapeOf h₁ x.addr = some (x.key, some x.payload, x.height) := by
    simp [h₁, x, createSkipNode, shapeOf]
  have hcell : ∀ a, a ≠ h.next → h₁.cell a = h.cell a := fun a ha => if_neg ha
  have hshape : ∀ a, a ≠ h.next → shapeOf h₁ a = shapeOf h a := by
    intro a ha
    simp only [shapeOf, hcell a ha]
  have hfwd : ∀ j a, a ≠ h.next → forward h₁ j a = forward h j a :=
    fun j a ha => forward_congr (hcell a ha)
  obtain ⟨h', hrun, hsame, hdone, hrest⟩ := Runs.foldlM_range' (splice update x.addr)
    (Relinked h₁ hdr (pre ++ x :: post)) t 0 h₁ (Relinked.start h₁ hdr (pre ++ x :: post))
    (fun i h' _ hi hs => splice_step r rfl hxs hshape hfwd (by simpa using hi) hmax
      (hupd i (by simpa using hi)) hs)
  rw [Nat.zero_add] at hdone hrest
  -- the new node lives nowhere in the old list, which therefore keeps its shape
  have hne : ∀ a ∈ hdr :: (pre ++ post).map Tower.addr, a ≠ h.next := by
    intro a ha
    apply r.ne_next (i := 0) _ (by decide)
    rw [levelNodes, r.onLevel_zero]
    exact ha
  have hold : ∀ a ∈ hdr :: (pre ++ post).map Tower.addr, shapeOf h' a = shapeOf h a := by
    intro a ha
    rw [hsame, hshape a (hne a ha)]
  have hmem : ∀ m ∈ pre ++ post, m.addr ∈ hdr :: (pre ++ post).map Tower.addr :=
    fun m hm => List.mem_cons_of_mem hdr (List.mem_map_of_mem hm)
  have hsort := r.sorted
  have hpos := r.key_pos
  have hht := r.height
  simp only [List.pairwise_append, List.forall_mem_append] at hsort hpos hht
  refine ⟨h', hrun, ?_⟩
  constructor
  case header =>
    rw [hold hdr List.mem_cons_self]
    exact r.header
  case node =>
    intro m hm
    rcases List.mem_append.mp hm with hm | hm
    · rw [hold m.addr (hmem m (List.mem_append_left _ hm))]
      exact r.node m (List.mem_append_left _ hm)
    · rcases List.mem_cons.mp hm with rfl | hm
      · rw [hsame]
        exact hxs
      · rw [hold m.addr (hmem m (List.mem_append_right _ hm))]
        exact r.node m (List.mem_append_right _ hm)
  case nodup =>
    have hnd : (h.next :: (hdr :: (pre ++ post).map Tower.addr)).Nodup :=
      List.nodup_cons.mpr ⟨fun hm => hne _ hm rfl, r.nodup⟩
    rw [List.map_append, List.map_cons]
    rw [List.map_append] at hnd
    have hperm : (hdr :: (pre.map Tower.addr ++ h.next :: post.map Tower.addr)).Perm
        (h.next :: (hdr :: (pre.map Tower.addr ++ post.map Tower.addr))) :=
      List.perm_middle.cons hdr |>.trans (List.Perm.swap ..)
    exact hperm.nodup_iff.mpr hnd
  case sorted =>
    simp only [List.pairwise_append, List.pairwise_cons, List.forall_mem_cons]
    exact ⟨hsort.1, ⟨hpost, hsort.2.1⟩, fun m hm => ⟨hpre m hm, hsort.2.2 m hm⟩⟩
  case key_pos =>
    simp only [List.forall_mem_append, List.forall_mem_cons]
    exact ⟨hpos.1, hk, hpos.2⟩
  case height =>
    simp only [List.forall_mem_append, List.forall_mem_cons]
    exact ⟨hht.1, ⟨ht, hmax⟩, hht.2⟩
  case chain =>
    intro i hi
    by_cases hit : i < t
    · exact hdone i hit
    · -- levels above the new tower are what they were
      show Seg (forward h' i) (levelNodes hdr (pre ++ x :: post) i) none
      rw [levelNodes_above hdr pre post hit]
      apply (r.chain i hi).congr
      intro a ha
      rw [hrest i a (by omega), hfwd i a (r.ne_next ha hi)]

end Splice

/-! ## The call -/

section Call

variable {st : State P} {pre post : List (Tower P)} {x : Tower P} {k : UInt32}

/-- A call that records the descent leaves every finger on the last node before the key. -/
theorem fingers_recorded (st st' : State P) (hlev : st'.sl.level = st.sl.level)
    (hhdr : st'.sl.header = st.sl.header)
    (hfin : st'.sl.finger = recorded (pred st.sl.header pre) st.sl.level st.sl.finger) :
    Fingers st' (pre ++ post) := by
  intro i hi
  rw [hlev] at hi
  refine ⟨pred st.sl.header pre i, ?_, ?_⟩
  · simp only [hfin, recorded, if_pos hi]
  · rw [hhdr]
    exact pred_mem_append st.sl.header pre post i

/-- Inserting a stored key hands the old payload to `free_func` and returns 2. -/
theorem skipInsert_stored (H : Holds st (pre ++ x :: post)) (hpre : ∀ n ∈ pre, n.key < k)
    (hx : x.key = k) (hpost : ∀ n ∈ post, k < n.key) (hk : k ≠ 0) (p : P) (t : Height) :
    ∃ st', skipInsert st k (some p) t = .ok (2, st') ∧
      Holds st' (pre ++ { x with payload := p } :: post) ∧
      Fingers st' (pre ++ { x with payload := p } :: post) ∧
      st'.released = callFree st.sl.freeFunc (some x.payload) st.released ∧
      st'.sl.freeFunc = st.sl.freeFunc := by
  have hge := le_key_of_cut hx hpost
  obtain ⟨n, hl, hc, hkey, hpay, -⟩ := load_of_shape (H.rep.node x (by simp))
  have hnk : n.key = k := hkey.trans hx
  let st' : State P :=
    { sl := { st.sl with finger := recorded (pred st.sl.header pre) st.sl.level st.sl.finger }
      heap := st.heap.write x.addr { n with payload := some p }
      released := callFree st.sl.freeFunc n.payload st.released }
  have hlevel : st.sl.level = topLevel (pre ++ { x with payload := p } :: post) := by
    rw [H.level, topLevel_append, topLevel_append, topLevel_cons, topLevel_cons]
  refine ⟨st', ?_, ⟨H.rep.overwrite hc p, hlevel, ?_⟩, ?_, by simp only [st', hpay], rfl⟩
  · simp only [skipInsert, checkHard_key hk, Option.isSome_some, checkHard_true,
      Runs.ok_bind, H.descend_record hpre hge, H.rep.candidate_pred,
      List.head?_cons, Option.map_some, Option.getD_some, hl, if_pos hnk]
    rfl
  · simpa [st'] using H.length
  · exact fingers_recorded st st' rfl rfl rfl

/-- Inserting an absent key adds a node and returns 1. -/
theorem skipInsert_fresh (H : Holds st (pre ++ post)) (hpre : ∀ n ∈ pre, n.key < k)
    (hpost : ∀ n ∈ post, k < n.key) (hk : k ≠ 0) (p : P) (t : Height) :
    ∃ st', skipInsert st k (some p) t = .ok (1, st') ∧
      Holds st' (pre ++ ⟨st.heap.next, k, p, t.val⟩ :: post) ∧
      Fingers st' (pre ++ ⟨st.heap.next, k, p, t.val⟩ :: post) ∧
      st'.released = st.released ∧ st'.sl.freeFunc = st.sl.freeFunc := by
  have hge : ∀ n ∈ post, k ≤ n.key := fun n hn => UInt32.le_of_lt (hpost n hn)
  have hk0 : 0 < k := UInt32.lt_of_le_of_ne (UInt32.zero_le) (Ne.symm hk)
  -- on the levels that the call adds, the header comes before the key
  have htop : ∀ j, st.sl.level ≤ j → pred st.sl.header pre j = st.sl.header := by
    intro j hj
    rw [H.level, topLevel_append] at hj
    exact pred_top (by omega)
  let tr₀ : Trail := ⟨recorded (pred st.sl.header pre) st.sl.level (fun _ => none),
    recorded (pred st.sl.header pre) st.sl.level st.sl.finger⟩
  have hdesc : descend st.heap k Trail.record st.sl.level st.sl.header
      ⟨fun _ => none, st.sl.finger⟩ = .ok (pred st.sl.header pre 0, tr₀) :=
    H.descend_record hpre hge
  have hbase : ∀ j < st.sl.level, tr₀.update j = some (pred st.sl.header pre j) ∧
      tr₀.finger j = some (pred st.sl.header pre j) := by
    intro j hj
    simp only [tr₀, recorded, if_pos hj, and_self]
  obtain ⟨tr, hraise, htr⟩ := raise_spec hbase htop t.le_max
  obtain ⟨h', hloop, hrep⟩ := H.rep.insert (p := p) hpre hpost hk0 t.pos t.le_max
    (fun i hi => (htr i (by omega)).1)
  obtain ⟨a, n, hca, hl, hn⟩ := H.rep.candidate_ne hpre hpost hk
  let st' : State P :=
    { sl := { st.sl with level := max st.sl.level t.val, length := st.sl.length + 1
                         finger := tr.finger }
      heap := h', released := st.released }
  refine ⟨st', ?_, ⟨hrep, ?_, ?_⟩, ?_, rfl, rfl⟩
  · simp only [skipInsert, checkHard_key hk, Option.isSome_some, checkHard_true,
      Runs.ok_bind, hdesc, hca, hl, if_neg hn, hraise]
    simp only [createSkipNode] at hloop ⊢
    rw [hloop]
    rfl
  · show max st.sl.level t.val = _
    rw [H.level, topLevel_append, topLevel_append, topLevel_cons]
    show max _ _ = max (topLevel pre) (max t.val (topLevel post))
    omega
  · show st.sl.length + 1 = _
    have hlen := H.length
    simp only [List.length_append, List.length_cons] at hlen ⊢
    omega
  · intro i hi
    refine ⟨pred st.sl.header pre i, (htr i hi).2, ?_⟩
    exact pred_mem_append st.sl.header pre _ i

end Call

end DataMonkey.Skip
