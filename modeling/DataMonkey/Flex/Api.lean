import DataMonkey.Flex.Release

/- The whole interface of a flex, against an array of whole blocks.

   `BlockArray` is what a caller can know of a flex: a list of cells that ends with a block,
   how many of them are counted as elements, and the comparison that is installed. It has no
   index, no addresses and no superblocks. Every session of calls on a flex, whatever they are
   and in whatever order, replies what this array replies: also with traversals in between whose
   action writes the cells and keeps a state of the caller's, with comparisons of the caller's
   own, and with blocks given up and grown again.

   Correspondence (C ↔ Lean):
     `flex_change_cmp`        ↔ `flexChangeCmp`
     the functions of flex.h  ↔ `ApiCall`, `apiStep`

     1. `frees_iff` — when a block is given up, in terms of the array;
     2. `forEach_sweep` — a traversal of the cells is a sweep over the list;
     3. `apiStep_simulates` — one call;
     4. `flex_refines_array` — every session. -/
namespace DataMonkey.Flex

open Blocked Superblock

/-! ## The array -/

structure BlockArray where
  last : Nat
  count : Nat
  content : List Int32
  cmp : Int32 → Int32 → Dstatus
  full : content.length = start size (last + 1)
  counted : (count = 0 ∧ last = 0) ∨ (start size last < count ∧ count ≤ content.length)

namespace BlockArray

def init (junk : Int32) : BlockArray := ⟨0, 0, [junk], defaultCmp, rfl, .inl ⟨rfl, rfl⟩⟩

theorem count_le (a : BlockArray) : a.count ≤ a.content.length := by
  rcases a.counted with ⟨h, -⟩ | ⟨-, h⟩
  · omega
  · exact h

/-- Blocks of zeros up to block `x`, with one element in it. -/
def reach (a : BlockArray) (x : Nat) : BlockArray :=
  if h : a.last < x then
    { a with
      last := x
      count := Blocked.start size x + 1
      content := a.content ++ List.replicate (Blocked.start size (x + 1) - a.content.length) 0
      full := by
        have hle : Blocked.start size (a.last + 1) ≤ Blocked.start size (x + 1) :=
          start_le_start (by omega)
        rw [List.length_append, List.length_replicate, a.full]
        omega
      counted := by
        have hle : Blocked.start size (a.last + 1) ≤ Blocked.start size (x + 1) :=
          start_le_start (by omega)
        have hdef : Blocked.start size (x + 1) = Blocked.start size x + size x := rfl
        have hpos := size_pos x
        rw [List.length_append, List.length_replicate, a.full]
        omega }
  else a

def put (a : BlockArray) (i : Nat) (v : Int32) : BlockArray :=
  { a with
    content := a.content.set i v
    full := by rw [List.length_set, a.full]
    counted := by rw [List.length_set]; exact a.counted }

def countUp (a : BlockArray) (h : a.count < a.content.length) : BlockArray :=
  { a with
    count := a.count + 1
    counted := by
      right
      rcases a.counted with ⟨h₁, h₂⟩ | ⟨h₁, -⟩
      · exact ⟨by rw [h₁, h₂]; exact Nat.one_pos, h⟩
      · exact ⟨by omega, h⟩ }

def grow (a : BlockArray) : BlockArray :=
  if h : a.count < a.content.length then a.countUp h else a.reach (a.last + 1)

/-- Whether the last block has one element, and is not the first one. -/
def Spare (a : BlockArray) : Prop := 1 ≤ a.last ∧ a.count = Blocked.start size a.last + 1

instance (a : BlockArray) : Decidable a.Spare := inferInstanceAs (Decidable (_ ∧ _))

def dropBlock (a : BlockArray) (h : a.Spare) : BlockArray :=
  { a with
    last := a.last - 1
    count := Blocked.start size a.last
    content := a.content.take (Blocked.start size a.last)
    full := by
      have hle : Blocked.start size a.last ≤ Blocked.start size (a.last + 1) :=
        start_le_start (Nat.le_succ _)
      rw [List.length_take, a.full, Nat.sub_add_cancel h.1]
      omega
    counted := by
      have hle : Blocked.start size a.last ≤ Blocked.start size (a.last + 1) :=
        start_le_start (Nat.le_succ _)
      have hdef : Blocked.start size (a.last - 1 + 1) =
        Blocked.start size (a.last - 1) + size (a.last - 1) := rfl
      have hpos := size_pos (a.last - 1)
      rw [Nat.sub_add_cancel h.1] at hdef
      rw [List.length_take, a.full]
      omega }

def countDown (a : BlockArray) (h : ¬ a.Spare) : BlockArray :=
  { a with
    count := a.count - 1
    counted := by
      have hle := a.count_le
      rcases a.counted with ⟨h₁, h₂⟩ | ⟨h₁, -⟩
      · exact .inl ⟨by omega, h₂⟩
      · by_cases hlast : a.last = 0
        · have hone : a.content.length = 1 := by rw [a.full, hlast]; rfl
          exact .inl ⟨by omega, hlast⟩
        · have hne : a.count ≠ Blocked.start size a.last + 1 := fun e =>
            h ⟨Nat.one_le_iff_ne_zero.mpr hlast, e⟩
          exact .inr ⟨by omega, by omega⟩ }

/-- A block given up is reported as a failure. -/
def shrink (a : BlockArray) : Dstatus × BlockArray :=
  if a.count = 0 then (.failure, a)
  else if h : a.Spare then (.failure, a.dropBlock h)
  else (.success, a.countDown h)

end BlockArray

/-! ## The calls -/

variable {σ : Type}

/-- What an action does with a cell and with the state of the caller. -/
abbrev Visit (σ : Type) := Int32 → σ → Dstatus × Int32 × σ

def Visit.action (f : Visit σ) : Action σ := fun st p own => f (held st p) own

def flexChangeCmp (st : State) : Option (Int32 → Int32 → Dstatus) → Dstatus × State
  | none => (.failure, st)
  | some func => (.success, { st with flex.cmpFunc := func })

inductive ApiCall (σ : Type) where
  | base (c : Call)
  | changeCmp (func : Option (Int32 → Int32 → Dstatus))
  | changeFree
  | traverse (f : Visit σ)

def apiStep (grants : Nat → Bool) (p : State × σ) :
    ApiCall σ → Except Fault (Reply × State × σ)
  | .base c => do
    let (r, st) ← flexStep grants p.1 c
    .ok (r, st, p.2)
  | .changeCmp func =>
    let (s, st) := flexChangeCmp p.1 func
    .ok (.status s, st, p.2)
  | .changeFree =>
    let (s, st) := flexChangeFree p.1
    .ok (.status s, st, p.2)
  | .traverse f => do
    let (s, w) ← flexTraverse f.action p.1 p.2
    .ok (.status s, w.st, w.own)

/-- The cells one after the other, until an action does not succeed. -/
def sweep (f : Visit σ) : List Int32 → σ → Dstatus × List Int32 × σ
  | [], own => (.success, [], own)
  | v :: vs, own =>
    let (s, v', own) := f v own
    if s = .success then
      let (t, vs', own) := sweep f vs own
      (t, v' :: vs', own)
    else (.failure, v' :: vs, own)

theorem length_sweep (f : Visit σ) : ∀ (vs : List Int32) (own : σ),
    (sweep f vs own).2.1.length = vs.length
  | [], _ => rfl
  | v :: vs, own => by
    unfold sweep
    dsimp only
    split
    · exact congrArg (· + 1) (length_sweep f vs _)
    · rfl

def BlockArray.sweep (a : BlockArray) (content : List Int32)
    (h : content.length = a.content.length) : BlockArray :=
  { a with
    content := content
    full := h.trans a.full
    counted := by rw [h]; exact a.counted }

/-- What the array replies to a call, and what becomes of it. -/
def BlockArray.step (p : BlockArray × σ) : ApiCall σ → Reply × BlockArray × σ
  | .base (.insert i v) => (.status .success, (p.1.reach (blockOf i.val)).put i.val v, p.2)
  | .base (.delete i) =>
    if i.val < p.1.content.length then (.status .success, p.1.put i.val 0, p.2)
    else (.status .failure, p)
  | .base (.get i) => (.value p.1.content[i.val]?, p)
  | .base (.compare i v) =>
    match p.1.content[i.val]? with
    | none => (.status .failure, p)
    | some w => (.status (p.1.cmp w v), p)
  | .base .grow => (.status .success, p.1.grow, p.2)
  | .base .shrink => (.status p.1.shrink.1, p.1.shrink.2, p.2)
  | .changeCmp none => (.status .failure, p)
  | .changeCmp (some func) => (.status .success, { p.1 with cmp := func }, p.2)
  | .changeFree => (.status .success, p)
  | .traverse f =>
    (.status (Flex.sweep f p.1.content p.2).1,
      p.1.sweep (Flex.sweep f p.1.content p.2).2.1 (length_sweep f _ _),
      (Flex.sweep f p.1.content p.2).2.2)

/-! ## Traversals -/

section Sweep

variable {st st' : State} {bs : List (Addr × List Int32)}

theorem map_held (st : State) {a : Addr} {vs : List Int32} (hcell : st.heap.cell a = some vs) :
    (List.range' 0 vs.length).map (fun e => held st (.cell a e)) = vs := by
  apply List.ext_getElem?
  intro e
  rw [List.getElem?_map]
  by_cases he : e < vs.length
  · rw [List.getElem?_range' he, List.getElem?_eq_getElem he]
    simp [held, deref, load, hcell, List.getElem?_eq_getElem he]
  · rw [List.getElem?_eq_none (by rw [List.length_range']; omega),
      List.getElem?_eq_none (by omega)]
    rfl

theorem Holds.deref_pointers (H : Holds st bs) {p : Ptr} (hp : p ∈ pointers bs) :
    ∃ v, deref st p = .ok v := by
  obtain ⟨ps, hps, hp⟩ := List.mem_flatten.mp hp
  obtain ⟨b, hb, rfl⟩ := List.mem_map.mp hps
  obtain ⟨e, he, rfl⟩ := mem_blockPointers.mp hp
  obtain ⟨x, hx⟩ := List.mem_iff_getElem?.mp hb
  have hcell := (H.block x b.1 b.2 hx).2
  exact ⟨b.2[e], by simp [deref, load, hcell, List.getElem?_eq_getElem he]⟩

/-- The array is what the pointers point to. -/
theorem Holds.cells_eq (H : Holds st bs) : cells bs = (pointers bs).map (held st) := by
  rw [cells, pointers, List.map_flatten, List.map_map]
  congr 1
  apply List.map_congr_left
  intro b hb
  obtain ⟨x, hx⟩ := List.mem_iff_getElem?.mp hb
  have hcell := (H.block x b.1 b.2 hx).2
  rw [Function.comp_apply, blockPointers, List.map_map]
  exact (map_held st hcell).symm

/-- A state of the same shape holds the blocks at the same addresses. -/
theorem Holds.reshape (H : Holds st bs) (h : SameShape st st') :
    ∃ bs', Holds st' bs' ∧ pointers bs' = pointers bs := by
  let f : Addr × List Int32 → Addr × List Int32 := fun b => (b.1, (st'.heap.cell b.1).getD [])
  have hblock : ∀ b ∈ bs, st'.heap.cell b.1 = some (f b).2 ∧ (f b).2.length = b.2.length := by
    intro b hb
    obtain ⟨x, hx⟩ := List.mem_iff_getElem?.mp hb
    have hlen := h.lengths b.1
    rw [(H.block x b.1 b.2 hx).2, Option.map_some] at hlen
    obtain ⟨us, hus, hlen⟩ := Option.map_eq_some_iff.mp hlen
    simp only [f, hus, Option.getD_some]
    exact ⟨trivial, hlen⟩
  refine ⟨bs.map f, ⟨?_, ?_, ?_, ?_, ?_, ?_⟩, ?_⟩
  · rw [h.flex]
    exact H.counters
  · rw [List.length_map, h.flex]
    exact H.length
  · intro x c hc
    rw [List.map_map, List.getElem?_map] at hc
    obtain ⟨b, hb, rfl⟩ := Option.map_eq_some_iff.mp hc
    rw [Function.comp_apply, (hblock b (List.mem_of_getElem? hb)).2]
    apply H.sized
    rw [List.getElem?_map, hb]
    rfl
  · rw [List.map_map]
    exact H.nodup
  · intro x a c hx
    rw [List.getElem?_map] at hx
    obtain ⟨b, hb, heq⟩ := Option.map_eq_some_iff.mp hx
    obtain ⟨rfl, rfl⟩ := Prod.mk.inj heq
    rw [h.flex]
    exact ⟨(H.block x b.1 b.2 hb).1, (hblock b (List.mem_of_getElem? hb)).1⟩
  · rw [h.flex]
    exact H.slots
  · rw [pointers, pointers, List.map_map]
    congr 1
    apply List.map_congr_left
    intro b hb
    rw [Function.comp_apply, blockPointers, blockPointers, (hblock b hb).2]

/-- What is stored through a pointer is what it points to. -/
theorem held_store {p : Ptr} {w v : Int32} (hp : deref st p = .ok w) :
    held (store st p v) p = v := by
  cases p with
  | flex => cases hp
  | index => cases hp
  | cell a e =>
    obtain ⟨vs, hvs, hw⟩ := Runs.bind_eq_ok.mp hp
    have hcell := load_eq_ok.mp hvs
    have he : e < vs.length := by
      apply Classical.byContradiction
      intro hge
      rw [List.getElem?_eq_none (Nat.le_of_not_lt hge)] at hw
      cases hw
    simp [held, store, deref, load, Store.cell_write_self hcell, hcell, he]

/-- Over different cells of the flex, a traversal is a sweep over what they hold. -/
theorem forEach_sweep (f : Visit σ) : ∀ (ps : List Ptr) (w : Walk σ), ps.Nodup →
    (∀ p ∈ ps, ∃ v, deref w.st p = .ok v) → SameShape st w.st →
    ps.map (held (Runs.forEach (call f.action) w ps).2.st) =
        (sweep f (ps.map (held w.st)) w.own).2.1 ∧
      (Runs.forEach (call f.action) w ps).2.own = (sweep f (ps.map (held w.st)) w.own).2.2 ∧
      (if (Runs.forEach (call f.action) w ps).1 then Dstatus.success else .failure) =
        (sweep f (ps.map (held w.st)) w.own).1 ∧
      SameShape st (Runs.forEach (call f.action) w ps).2.st ∧
      ∀ q, q ∉ ps → deref (Runs.forEach (call f.action) w ps).2.st q = deref w.st q
  | [], _, _, _, hw => ⟨rfl, rfl, rfl, hw, fun _ _ => rfl⟩
  | p :: ps, w, hnd, hlive, hw => by
    obtain ⟨hp, hnd⟩ := List.nodup_cons.mp hnd
    obtain ⟨v, hv⟩ := hlive p List.mem_cons_self
    -- the call, and what the other pointers show of it
    have hone : ∀ q, q ≠ p → deref (call f.action w p).2.st q = deref w.st q :=
      fun q hq => deref_store hq _
    have hself : held (call f.action w p).2.st p = (f (held w.st p) w.own).2.1 := held_store hv
    have hrest : ∀ q ∈ ps, held (call f.action w p).2.st q = held w.st q := by
      intro q hq
      unfold held
      rw [hone q fun e => hp (e ▸ hq)]
    have hshape : SameShape st (call f.action w p).2.st := hw.store p _
    by_cases hs : (f (held w.st p) w.own).1 = .success
    · have hrun : Runs.forEach (call f.action) w (p :: ps) =
          Runs.forEach (call f.action) (call f.action w p).2 ps := by
        rw [Runs.forEach_cons]
        exact if_pos (decide_eq_true hs)
      have hsweep : sweep f ((p :: ps).map (held w.st)) w.own =
          ((sweep f (ps.map (held (call f.action w p).2.st)) (call f.action w p).2.own).1,
            (f (held w.st p) w.own).2.1 ::
              (sweep f (ps.map (held (call f.action w p).2.st)) (call f.action w p).2.own).2.1,
            (sweep f (ps.map (held (call f.action w p).2.st)) (call f.action w p).2.own).2.2) := by
        rw [List.map_congr_left hrest, List.map_cons, sweep]
        exact if_pos hs
      obtain ⟨h₁, h₂, h₃, h₄, h₅⟩ := forEach_sweep f ps (call f.action w p).2 hnd
        (fun q hq => by
          rw [hone q fun e => hp (e ▸ hq)]
          exact hlive q (List.mem_cons_of_mem p hq)) hshape
      rw [hrun, hsweep]
      refine ⟨?_, h₂, h₃, h₄, fun q hq => ?_⟩
      · rw [List.map_cons, h₁]
        congr 1
        have hkeep := h₅ p hp
        unfold held at hself ⊢
        rw [hkeep]
        exact hself
      · rw [List.mem_cons, not_or] at hq
        rw [h₅ q hq.2, hone q hq.1]
    · have hrun : Runs.forEach (call f.action) w (p :: ps) = (false, (call f.action w p).2) := by
        have hstop : (call f.action w p).1 = false := decide_eq_false hs
        rw [Runs.forEach_cons, hstop]
        rfl
      have hsweep : sweep f ((p :: ps).map (held w.st)) w.own =
          (.failure, (f (held w.st p) w.own).2.1 :: ps.map (held w.st),
            (f (held w.st p) w.own).2.2) := by
        rw [List.map_cons, sweep]
        exact if_neg hs
      rw [hrun, hsweep]
      refine ⟨?_, rfl, rfl, hshape, fun q hq => hone q (List.ne_of_not_mem_cons hq)⟩
      rw [List.map_cons, hself, List.map_congr_left hrest]

end Sweep

/-! ## One call -/

/-- The flex is the array, in the blocks `bs`. -/
structure Shows (st : State) (a : BlockArray) (bs : List (Addr × List Int32)) : Prop where
  holds : Holds st bs
  content : cells bs = a.content
  count : st.flex.numUserElementsInserted = a.count
  last : st.flex.lastIndexOccup = a.last
  cmp : st.flex.cmpFunc = a.cmp

section Calls

variable {st : State} {a : BlockArray} {bs : List (Addr × List Int32)}

theorem Shows.usable (h : Shows st a bs) : st.flex.usableDataBlocks = a.content.length := by
  rw [← h.holds.length_cells, h.content]

/-- A block is given up when it has its one element left, unless it is the first. -/
theorem frees_iff {f : FlexArray} (C : Counters f) (h0 : f.numUserElementsInserted ≠ 0) :
    frees f ↔ 1 ≤ f.lastIndexOccup ∧
      f.numUserElementsInserted = start size f.lastIndexOccup + 1 := by
  refine ⟨C.one_le_last h0, fun h => ?_⟩
  obtain ⟨hlast, hnum⟩ := h
  have hpos := Counters.start_pos hlast
  refine ⟨by omega, ?_⟩
  rw [C.usable_sub, sub64_eq (by omega), hnum]
  rfl

/-- Behind the cells there were, a longer array has only the zeros that were added. -/
theorem zeros_eq {l zeros : List Int32} {n : Nat} (hz : ∀ z ∈ zeros, z = 0)
    (hlen : (l ++ zeros).length = n) : l ++ zeros = l ++ List.replicate (n - l.length) 0 := by
  rw [List.length_append] at hlen
  have hrep := List.eq_replicate_of_mem hz
  rw [show n - l.length = zeros.length by omega, ← hrep]

theorem insert_simulates (h : Shows st a bs) (i : Index) (v : Int32) :
    ∃ st' bs', flexInsert granted st i.val v = .ok (.success, st') ∧
      Shows st' ((a.reach (blockOf i.val)).put i.val v) bs' := by
  obtain ⟨st', bs', zeros, hrun, H', hcmp, hz, -, hset, x, e, hloc, hlast, hnum⟩ :=
    flexInsert_spec h.holds i.property v
  obtain ⟨he, hcell⟩ := locate_cell i.property hloc
  refine ⟨st', bs', hrun, H', ?_, ?_, ?_, ?_⟩
  all_goals rw [blockOf_eq he hcell]
  · have hlen := H'.length_cells
    rw [hset, List.length_set, H'.counters.usable, hlast, h.last] at hlen
    rw [hset, BlockArray.put, BlockArray.reach, h.content]
    rw [h.content] at hlen
    congr 1
    split
    · next hlt =>
      rw [Nat.max_eq_right (Nat.le_of_lt hlt)] at hlen
      exact zeros_eq hz hlen
    · next hge =>
      rw [Nat.max_eq_left (Nat.le_of_not_lt hge), ← a.full] at hlen
      rw [zeros_eq hz hlen, Nat.sub_self]
      exact List.append_nil _
  · rw [hnum, h.last, h.count, BlockArray.put, BlockArray.reach]
    split <;> rfl
  · rw [hlast, h.last, BlockArray.put, BlockArray.reach]
    split
    · next hlt => exact Nat.max_eq_right (Nat.le_of_lt hlt)
    · next hge => exact Nat.max_eq_left (Nat.le_of_not_lt hge)
  · rw [hcmp, h.cmp, BlockArray.put, BlockArray.reach]
    split <;> rfl

theorem grow_simulates (h : Shows st a bs) :
    ∃ st' bs', flexGrow granted st = .ok (.success, st') ∧ Shows st' a.grow bs' := by
  obtain ⟨st', bs', hrun, H', hcmp, hnum, hbs⟩ := flexGrow_spec h.holds
  refine ⟨st', bs', hrun, ?_⟩
  have hlen := h.holds.length
  have hlen' := H'.length
  rw [h.count] at hnum
  rw [h.count, h.usable] at hbs
  rw [h.last] at hlen
  unfold BlockArray.grow
  rcases hbs with ⟨hlt, rfl⟩ | ⟨hfull, b, rfl⟩
  · rw [dif_pos hlt]
    have hlast : st'.flex.lastIndexOccup = a.last := by omega
    exact ⟨H', h.content, hnum, hlast, hcmp.trans h.cmp⟩
  · have hnext : a.last < a.last + 1 := Nat.lt_succ_self _
    have hdef : start size (a.last + 1 + 1) = start size (a.last + 1) + size (a.last + 1) := rfl
    rw [dif_neg (by omega), BlockArray.reach, dif_pos hnext]
    refine ⟨H', ?_, ?_, ?_, hcmp.trans h.cmp⟩
    · rw [cells_concat, h.content, hlen]
      congr 2
      rw [a.full]
      omega
    · show _ = start size (a.last + 1) + 1
      rw [hnum, hfull, a.full]
    · rw [List.length_append, List.length_singleton] at hlen'
      dsimp only
      omega

theorem shrink_simulates (h : Shows st a bs) :
    ∃ st' bs', flexShrink granted st = .ok (a.shrink.1, st') ∧ Shows st' a.shrink.2 bs' := by
  unfold BlockArray.shrink
  by_cases h0 : a.count = 0
  · rw [if_pos h0]
    exact ⟨st, bs, flexShrink_empty (h.count.trans h0), h⟩
  · rw [if_neg h0]
    have h0' : st.flex.numUserElementsInserted ≠ 0 := by
      rw [h.count]
      exact h0
    obtain ⟨r, st', bs', hrun, H', hcmp, hnum, hbs⟩ := flexShrink_spec h.holds h0'
    have hfrees : frees st.flex ↔ a.Spare := by
      rw [frees_iff h.holds.counters h0', h.last, h.count]
      rfl
    have hlen := h.holds.length
    have hlen' := H'.length
    rw [h.count] at hnum
    rw [h.last] at hlen
    rcases hbs with ⟨hf, rfl, rfl⟩ | ⟨hf, rfl, b, c, rfl⟩
    · rw [dif_neg (mt hfrees.mpr hf)]
      have hlast : st'.flex.lastIndexOccup = a.last := by omega
      exact ⟨st', bs', hrun, H', h.content, hnum, hlast, hcmp.trans h.cmp⟩
    · have hspare := hfrees.mp hf
      obtain ⟨hlast, hcount⟩ := hspare
      rw [List.length_append, List.length_singleton] at hlen
      rw [dif_pos (hfrees.mp hf)]
      refine ⟨st', bs', hrun, H', ?_, ?_, ?_, hcmp.trans h.cmp⟩
      · -- the blocks that are left are the first cells
        have hcells := H'.length_cells
        rw [H'.counters.usable, show st'.flex.lastIndexOccup + 1 = a.last by omega] at hcells
        show cells bs' = a.content.take (start size a.last)
        rw [← h.content, cells_concat, ← hcells, List.take_left]
      · rw [hnum, hcount]
        rfl
      · show st'.flex.lastIndexOccup = a.last - 1
        omega

theorem traverse_simulates (h : Shows st a bs) (f : Visit σ) (own : σ) :
    ∃ w bs', flexTraverse f.action st own = .ok ((sweep f a.content own).1, w) ∧
      w.own = (sweep f a.content own).2.2 ∧
      Shows w.st (a.sweep (sweep f a.content own).2.1 (length_sweep f _ _)) bs' := by
  have H := h.holds
  have hshape : SameShape st st := ⟨rfl, fun _ => rfl⟩
  obtain ⟨h₁, h₂, h₃, h₄, -⟩ := forEach_sweep f (pointers bs) ⟨st, own, []⟩
    (nodup_pointers H) (fun _ hp => H.deref_pointers hp) hshape
  rw [← H.cells_eq, h.content] at h₁ h₂ h₃
  obtain ⟨bs', H', hptr⟩ := H.reshape h₄
  refine ⟨_, bs', ?_, h₂, H', ?_, ?_, ?_, ?_⟩
  · rw [flexTraverse_spec H, h₃]
  · rw [H'.cells_eq, hptr, h₁]
    rfl
  · rw [h₄.flex]
    exact h.count
  · rw [h₄.flex]
    exact h.last
  · rw [h₄.flex]
    exact h.cmp

theorem Shows.touch (h : Shows st a bs) {i : Index} (hi : i.val < a.content.length) :
    ∃ st' bs', flexDelete st i.val = .ok (.success, st') ∧ Shows st' (a.put i.val 0) bs' := by
  obtain ⟨heap, bs', hrun, H', hset⟩ :=
    flexDelete_in h.holds i.property (by rw [h.usable]; exact hi)
  exact ⟨_, bs', hrun, H', by rw [hset, h.content]; rfl, h.count, h.last, h.cmp⟩

/-- The calls of `Call` reply what the array replies, and the caller's state is not theirs. -/
theorem base_simulates (h : Shows st a bs) (c : Call) (own : σ) :
    ∃ st' bs', flexStep granted st c = .ok ((BlockArray.step (a, own) (.base c)).1, st') ∧
      Shows st' (BlockArray.step (a, own) (.base c)).2.1 bs' ∧
      (BlockArray.step (a, own) (.base c)).2.2 = own := by
  cases c with
  | insert i v =>
    obtain ⟨st', bs', hrun, h'⟩ := insert_simulates h i v
    refine ⟨st', bs', ?_, h', rfl⟩
    simp only [flexStep, hrun, Runs.ok_bind, BlockArray.step]
  | delete i =>
    by_cases hi : i.val < a.content.length
    · obtain ⟨st', bs', hrun, h'⟩ := h.touch hi
      simp only [BlockArray.step, if_pos hi]
      refine ⟨st', bs', ?_, h', trivial⟩
      simp only [flexStep, hrun, Runs.ok_bind]
    · have hout := flexDelete_out h.holds i.property (by rw [h.usable]; omega)
      simp only [BlockArray.step, if_neg hi]
      refine ⟨st, bs, ?_, h, trivial⟩
      simp only [flexStep, hout, Runs.ok_bind]
  | get i =>
    refine ⟨st, bs, ?_, h, rfl⟩
    simp only [flexStep, getValue_spec h.holds i.property, h.content, Runs.ok_bind,
      BlockArray.step]
  | compare i v =>
    cases hw : a.content[i.val]? with
    | none =>
      have hout := List.getElem?_eq_none_iff.mp hw
      rw [← h.usable] at hout
      simp only [BlockArray.step, hw]
      refine ⟨st, bs, ?_, h, trivial⟩
      simp only [flexStep, flexCompare_out h.holds i.property hout, Runs.ok_bind]
    | some w =>
      have hin : (cells bs)[i.val]? = some w := by rw [h.content, hw]
      simp only [BlockArray.step, hw]
      refine ⟨st, bs, ?_, h, trivial⟩
      simp only [flexStep, flexCompare_in h.holds i.property hin, Runs.ok_bind, h.cmp]
  | grow =>
    obtain ⟨st', bs', hrun, h'⟩ := grow_simulates h
    refine ⟨st', bs', ?_, h', rfl⟩
    simp only [flexStep, hrun, Runs.ok_bind, BlockArray.step]
  | shrink =>
    obtain ⟨st', bs', hrun, h'⟩ := shrink_simulates h
    refine ⟨st', bs', ?_, h', rfl⟩
    simp only [flexStep, hrun, Runs.ok_bind, BlockArray.step]

theorem Shows.changeCmp (h : Shows st a bs) (func : Int32 → Int32 → Dstatus) :
    Shows { st with flex.cmpFunc := func } { a with cmp := func } bs := by
  have H := h.holds
  have H' : Holds { st with flex.cmpFunc := func } bs :=
    ⟨⟨⟨H.counters.super.last, H.counters.super.superBlocks, H.counters.super.superOccup,
      H.counters.super.superSize, H.counters.super.dataSize⟩, H.counters.usable,
      H.counters.power, H.counters.room, H.counters.least, H.counters.count⟩,
      H.length, H.sized, H.nodup, H.block, H.slots⟩
  exact ⟨H', h.content, h.count, h.last, rfl⟩

/-- Every call replies what the array replies. -/
theorem apiStep_simulates (p : State × σ) (q : BlockArray × σ) (c : ApiCall σ)
    (h : (∃ bs, Shows p.1 q.1 bs) ∧ p.2 = q.2) :
    ∃ p', apiStep granted p c = .ok ((BlockArray.step q c).1, p') ∧
      (∃ bs, Shows p'.1 (BlockArray.step q c).2.1 bs) ∧ p'.2 = (BlockArray.step q c).2.2 := by
  obtain ⟨st, own⟩ := p
  obtain ⟨a, own'⟩ := q
  obtain ⟨⟨bs, h⟩, rfl⟩ := h
  dsimp only at h
  cases c with
  | base c =>
    obtain ⟨st', bs', hrun, h', hown⟩ := base_simulates h c own
    refine ⟨(st', own), ?_, ⟨bs', h'⟩, hown.symm⟩
    simp only [apiStep, hrun, Runs.ok_bind]
  | changeCmp func =>
    cases func with
    | none => exact ⟨(st, own), rfl, ⟨bs, h⟩, rfl⟩
    | some func => exact ⟨({ st with flex.cmpFunc := func }, own), rfl, ⟨bs, h.changeCmp func⟩, rfl⟩
  | changeFree =>
    exact ⟨((flexChangeFree st).2, own), rfl,
      ⟨bs, h.holds.changeFree, h.content, h.count, h.last, h.cmp⟩, rfl⟩
  | traverse f =>
    obtain ⟨w, bs', hrun, hown, h'⟩ := traverse_simulates h f own
    refine ⟨(w.st, w.own), ?_, ⟨bs', h'⟩, hown⟩
    simp only [apiStep, hrun, Runs.ok_bind, BlockArray.step]

end Calls

/-- Every session of calls returns, with the replies of the array, and leaves a flex that is
    that array: its capacity, its number of elements, its comparison, and every cell that
    `flex_get` reaches. -/
theorem flex_refines_array (junk : Int32) (own : σ) (calls : List (ApiCall σ)) :
    ∃ st, Runs.run (apiStep granted) (fresh junk, own) calls =
        .ok ((Runs.runSpec BlockArray.step (BlockArray.init junk, own) calls).1, st,
          (Runs.runSpec BlockArray.step (BlockArray.init junk, own) calls).2.2) ∧
      let a := (Runs.runSpec BlockArray.step (BlockArray.init junk, own) calls).2.1
      st.flex.usableDataBlocks = a.content.length ∧
      st.flex.numUserElementsInserted = a.count ∧ st.flex.cmpFunc = a.cmp ∧
      ∀ i < 2 ^ 60 - 1, getValue st i = .ok a.content[i]? := by
  obtain ⟨⟨st, own'⟩, hrun, ⟨bs, h⟩, hown⟩ := Runs.run_runSpec
    (R := fun (p : State × σ) (q : BlockArray × σ) => (∃ bs, Shows p.1 q.1 bs) ∧ p.2 = q.2)
    apiStep_simulates calls (fresh junk, own) (BlockArray.init junk, own)
    ⟨⟨_, fresh_spec junk, rfl, rfl, rfl, rfl⟩, rfl⟩
  rw [← hown]
  refine ⟨st, hrun, h.usable, h.count, h.cmp, fun i hi => ?_⟩
  rw [getValue_spec h.holds hi, h.content]

end DataMonkey.Flex
