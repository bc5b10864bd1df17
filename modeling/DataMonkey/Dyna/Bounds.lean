import Mathlib.Logic.Function.Iterate
import Mathlib.Algebra.Group.Nat.Defs
import DataMonkey.Dyna.Model

/- Where `dyna_insert` writes.

   `GROW` and `CHECK` compare with `>`, so the index `index_length` itself passes both tests,
   and what `dyna_grow` asks for never covers the index it grew for. What is left is said
   here for every state, with memory for every request:

     1. `dynaInsert_covered`, `dynaInsert_uncovered` — once the `switch` is through, the call
        stores the element and nothing else, or runs outside the block;
     2. `realloc_given`, `realloc_denied`, `realloc_empty`, `realloc_freed` — what becomes of
        the array in a reallocation;
     3. `growLoop_cases` — the loop stops at a length that is `nextLength` of one below the
        index, in a block too small for it, or fails without an array, or does not stop;
     4. `dynaInsert_inside_iff` — when the call stays inside the array.

   The growth sequence wraps at 2^32: `Reaches` says that it gets to the index at all, and
   `Emptied` that on the way there 0 bytes are asked for and NULL is the answer. -/
namespace DataMonkey.Dyna

variable {E : Type}

/-- The array has a block that covers slot `i`. -/
def Covered (st : State E) (i : Nat) : Prop := ∃ b, st.dyna.array = .block b ∧ b.covers i

/-- `dyna->array` does not point to a block that was freed. -/
def Live (st : State E) : Prop := st.dyna.array ≠ .freed

/-- The growth sequence from the length `n` gets to `i` or beyond. -/
def Reaches (n i : UInt32) : Prop := ∃ k, i ≤ nextLength^[k] n

/-- After `k` growths from `st`, the next one asks for 0 bytes and gets NULL. -/
def EmptyAt (emptyNull : Nat → Bool) (st : State E) (k : Nat) : Prop :=
  nextLength^[k + 1] st.dyna.indexLength = 0 ∧ emptyNull (st.requests + k) = true

/-- Growing for the index `i` comes to such a growth before it gets to `i`. -/
def Emptied (emptyNull : Nat → Bool) (st : State E) (i : UInt32) : Prop :=
  ∃ k, (∀ m ≤ k, nextLength^[m] st.dyna.indexLength < i) ∧ EmptyAt emptyNull st k

/-- What a successful insertion promises: `st` before it, `st'` after it. -/
structure Inserted (st st' : State E) (i : UInt32) (v : Option E) : Prop where
  inside : i < st'.dyna.indexLength
  get : dynaGet st' i = .ok v
  others : ∀ j, j < st.dyna.indexLength → j ≠ i → dynaGet st' j = dynaGet st j
  lastIndex : st'.dyna.lastIndex = max st.dyna.lastIndex i

/-- `dyna_insert` with `GROW`, with memory for all requests: whenever it returns `SUCCESS` the
    element is in, and it runs into nothing, though it need not return. -/
def GrowOk (lib : Library E) (st : State E) (i : UInt32) (v : Option E) : Prop :=
  ∀ fuel,
    (∀ st', dynaInsert (granting lib) fuel st i v .grow = .ok (.success, st') →
      Inserted st st' i v) ∧
    (∀ e, dynaInsert (granting lib) fuel st i v .grow = .error e → e = .endless)

/-- `dyna_insert` with `CHECK` returns, `SUCCESS` with the element in, or `FAILURE` with
    nothing changed, and the latter exactly from `index_length` on. -/
def CheckOk (lib : Library E) (st : State E) (i : UInt32) (v : Option E) : Prop :=
  ∀ fuel, ∃ s st', dynaInsert (granting lib) fuel st i v .check = .ok (s, st') ∧
    (s = .success → Inserted st st' i v) ∧
    (s = .failure ↔ st.dyna.indexLength ≤ i) ∧
    (s = .failure → st' = st)

/-! ## The memory accesses -/

theorem dynaGet_covered {st : State E} {i : UInt32} {b : Block E}
    (hb : st.dyna.array = .block b) (hc : b.covers i.toNat) :
    dynaGet st i = .ok (b.slot i.toNat) := by
  unfold dynaGet arrayOf
  rw [hb]
  show b.read i.toNat = _
  rw [Block.read, if_pos hc]

theorem arrayOf_eq_ok {d : DynaArray E} {b : Block E} :
    arrayOf d = .ok b ↔ d.array = .block b := by
  unfold arrayOf
  cases d.array with
  | null => simp
  | freed => simp
  | block c => simp

/-- A slot that can be read. -/
theorem dynaGet_eq_ok {st : State E} {i : UInt32} {v : Option E} :
    dynaGet st i = .ok v ↔
      ∃ b, st.dyna.array = .block b ∧ b.covers i.toNat ∧ b.slot i.toNat = v := by
  refine ⟨?_, ?_⟩
  · intro h
    obtain ⟨b, hb, h⟩ := Runs.bind_eq_ok.mp h
    unfold Block.read at h
    by_cases hc : b.covers i.toNat
    · rw [if_pos hc] at h
      exact ⟨b, arrayOf_eq_ok.mp hb, hc, Except.ok.inj h⟩
    · rw [if_neg hc] at h
      cases h
  · intro h
    obtain ⟨b, hb, hc, rfl⟩ := h
    exact dynaGet_covered hb hc

theorem write_bytes {b b' : Block E} {i : Nat} {v : Option E} (h : b.write i v = .ok b') :
    b'.bytes = b.bytes := by
  unfold Block.write at h
  by_cases hc : b.covers i
  · rw [if_pos hc] at h
    rw [← Except.ok.inj h]
  · rw [if_neg hc] at h
    cases h

/-- The size of the block, `none` where there is no block. -/
def IndexP.bytes : IndexP E → Option Nat
  | .block b => some b.bytes
  | _ => none

theorem bytes_eq_some {p : IndexP E} {n : Nat} :
    p.bytes = some n ↔ ∃ b, p = .block b ∧ b.bytes = n := by
  cases p with
  | null => simp [IndexP.bytes]
  | freed => simp [IndexP.bytes]
  | block b => simp [IndexP.bytes]

/-- The same length, in a block of the same size. -/
structure SameSpace (st st' : State E) : Prop where
  indexLength : st'.dyna.indexLength = st.dyna.indexLength
  asked : st'.asked = st.asked
  bytes : st'.dyna.array.bytes = st.dyna.array.bytes

theorem SameSpace.refl (st : State E) : SameSpace st st := ⟨rfl, rfl, rfl⟩

theorem covered_iff {st : State E} {i : Nat} :
    Covered st i ↔ ∃ n, st.dyna.array.bytes = some n ∧ sizeofDataP * (i + 1) ≤ n := by
  refine ⟨?_, ?_⟩
  · intro h
    obtain ⟨b, hb, hc⟩ := h
    exact ⟨b.bytes, by rw [hb]; rfl, hc⟩
  · intro h
    obtain ⟨n, hn, hc⟩ := h
    obtain ⟨b, hb, rfl⟩ := bytes_eq_some.mp hn
    exact ⟨b, hb, hc⟩

theorem SameSpace.covered {st st' : State E} (h : SameSpace st st') (i : Nat) :
    Covered st' i ↔ Covered st i := by
  rw [covered_iff, covered_iff, h.bytes]

/-- What an insertion does to the state `t` in which the `switch` leaves the array. -/
structure Placed (t st' : State E) (i : UInt32) (v : Option E) : Prop extends
    SameSpace t st' where
  requests : st'.requests = t.requests
  released : st'.released = t.released
  lastIndex : st'.dyna.lastIndex = max t.dyna.lastIndex i
  get : dynaGet st' i = .ok v
  others : ∀ j, j ≠ i → dynaGet st' j = dynaGet t j

theorem max_eq_ite (m n : UInt32) : max m n = if m < n then n else m := by
  by_cases h : m < n
  · rw [if_pos h]
    exact if_pos (UInt32.le_of_lt h)
  · rw [if_neg h]
    have hle : n ≤ m := UInt32.not_lt.mp h
    by_cases he : m ≤ n
    · rw [show m = n from UInt32.le_antisymm he hle]
      exact if_pos (UInt32.le_refl n)
    · exact if_neg he

/-- Behind the `switch`, on a covered slot. -/
theorem dynaInsert_covered {al : Allocator E} {fuel : Nat} {st t : State E} {i : UInt32}
    {v : Option E} {m : Dstatus} (hp : prepare al fuel st i m = .ok (.success, t))
    (hc : Covered t i.toNat) :
    ∃ st', dynaInsert al fuel st i v m = .ok (.success, st') ∧ Placed t st' i v := by
  obtain ⟨b, hb, hcov⟩ := hc
  let b' : Block E := { b with slot := fun j => if j = i.toNat then v else b.slot j }
  let st' : State E := { t with dyna := { t.dyna with
    array := .block b'
    lastIndex := if t.dyna.lastIndex < i then i else t.dyna.lastIndex } }
  have hrun : dynaInsert al fuel st i v m = .ok (.success, st') := by
    have harr : arrayOf t.dyna = .ok b := by
      rw [arrayOf, hb]
    have hw : b.write i.toNat v = .ok b' := if_pos hcov
    simp only [dynaInsert, hp, Runs.ok_bind, reduceCtorEq, if_false, harr, hw]
    rfl
  refine ⟨st', hrun, ?_⟩
  constructor
  case requests => rfl
  case released => rfl
  case lastIndex => exact (max_eq_ite t.dyna.lastIndex i).symm
  case get =>
    rw [dynaGet_covered (b := b') rfl hcov]
    exact congrArg Except.ok (if_pos rfl)
  case others =>
    intro j hj
    have hne : j.toNat ≠ i.toNat := fun h => hj (UInt32.toNat_inj.mp h)
    by_cases hcj : b.covers j.toNat
    · rw [dynaGet_covered (b := b') rfl hcj, dynaGet_covered hb hcj]
      exact congrArg Except.ok (if_neg hne)
    · -- both reads run outside the block
      simp only [dynaGet, arrayOf, hb, Runs.ok_bind, Block.read, if_neg hcj]
      exact if_neg hcj
  case toSameSpace => exact ⟨rfl, rfl, by rw [hb]; rfl⟩

/-- Behind the `switch`, on a slot that is not covered. -/
theorem dynaInsert_uncovered {al : Allocator E} {fuel : Nat} {st t : State E} {i : UInt32}
    {v : Option E} {m : Dstatus} (hp : prepare al fuel st i m = .ok (.success, t))
    (hc : ¬ Covered t i.toNat) :
    ∃ e, dynaInsert al fuel st i v m = .error e ∧ e ≠ .endless := by
  simp only [dynaInsert, hp, Runs.ok_bind, reduceCtorEq, if_false, arrayOf]
  cases hb : t.dyna.array with
  | null => exact ⟨.nullPointer, rfl, by simp⟩
  | freed => exact ⟨.freedBlock, rfl, by simp⟩
  | block b =>
    have hcov : ¬ b.covers i.toNat := fun h => hc ⟨b, hb, h⟩
    refine ⟨.slotBound, ?_, by simp⟩
    simp only [Runs.ok_bind, Block.write, if_neg hcov, Runs.error_bind]

theorem Placed.inserted {st st' : State E} {i : UInt32} {v : Option E} (h : Placed st st' i v)
    (hi : i < st.dyna.indexLength) : Inserted st st' i v := by
  constructor
  case inside => rw [h.indexLength]; exact hi
  case get => exact h.get
  case others => exact fun j _ hj => h.others j hj
  case lastIndex => exact h.lastIndex

/-! ## Reallocation -/

theorem live_of_block {st : State E} (hb : ∃ b, st.dyna.array = .block b) : Live st := by
  obtain ⟨b, hb⟩ := hb
  intro hfreed
  rw [hb] at hfreed
  cases hfreed

/-- A request for so many bytes, counted. -/
def State.ask (st : State E) (bytes : Nat) : State E :=
  { st with asked := bytes, requests := st.requests + 1 }

/-- What becomes of the pointer when 0 bytes are answered with NULL. -/
def IndexP.free : IndexP E → IndexP E
  | .block _ => .freed
  | p => p

theorem free_ne_block (p : IndexP E) (b : Block E) : p.free ≠ .block b := by
  intro h
  cases p with
  | null => cases h
  | freed => cases h
  | block c => cases h

/-- The state after such an answer. -/
def State.emptied (st : State E) : State E :=
  { st.ask 0 with dyna := { st.dyna with array := st.dyna.array.free } }

/-- The block that the array is moved to. -/
def State.moved (st : State E) (lib : Library E) (bytes : Nat) : Block E :=
  match st.dyna.array with
  | .block old => old.moved lib st.requests bytes
  | _ => ⟨bytes, lib.junk st.requests⟩

/-- The state after a resize to the length `size` that got its block. -/
def State.resized (st : State E) (lib : Library E) (size : UInt32) : State E :=
  (st.ask (sizeofDataT * size.toNat)).adopt (st.moved lib (sizeofDataT * size.toNat)) size

section Realloc

variable {al : Allocator E} {st : State E} {bytes : Nat}

@[simp] theorem moved_bytes (st : State E) (lib : Library E) (bytes : Nat) :
    (st.moved lib bytes).bytes = bytes := by
  unfold State.moved
  cases st.dyna.array with
  | null => rfl
  | freed => rfl
  | block old => rfl

@[simp] theorem resized_indexLength (st : State E) (lib : Library E) (size : UInt32) :
    (st.resized lib size).dyna.indexLength = size := rfl

@[simp] theorem resized_lastIndex (st : State E) (lib : Library E) (size : UInt32) :
    (st.resized lib size).dyna.lastIndex = st.dyna.lastIndex := rfl

@[simp] theorem resized_asked (st : State E) (lib : Library E) (size : UInt32) :
    (st.resized lib size).asked = sizeofDataT * size.toNat := rfl

@[simp] theorem resized_requests (st : State E) (lib : Library E) (size : UInt32) :
    (st.resized lib size).requests = st.requests + 1 := rfl

@[simp] theorem resized_released (st : State E) (lib : Library E) (size : UInt32) :
    (st.resized lib size).released = st.released := rfl

theorem resized_array (st : State E) (lib : Library E) (size : UInt32) :
    (st.resized lib size).dyna.array = .block (st.moved lib (sizeofDataT * size.toNat)) := rfl

theorem resized_live (st : State E) (lib : Library E) (size : UInt32) :
    Live (st.resized lib size) := by
  intro h
  cases h

theorem gives_iff {request : Nat} : al.gives request bytes = true ↔
    al.grants request = true ∧ ¬ (bytes = 0 ∧ al.emptyNull request = true) := by
  simp only [Allocator.gives, Bool.and_eq_true, Bool.not_eq_true', ← Bool.not_eq_true,
    beq_iff_eq]

theorem gives_of_pos {request : Nat} (hb : bytes ≠ 0) (hg : al.grants request = true) :
    al.gives request bytes = true := gives_iff.mpr ⟨hg, fun h => hb h.1⟩

theorem realloc_freed (h : ¬ Live st) (bytes : Nat) :
    realloc al st bytes = .error .freedBlock := by
  rw [realloc, Classical.not_not.mp h]

theorem realloc_given (hlive : Live st) (hg : al.gives st.requests bytes = true) :
    realloc al st bytes = .ok (some (st.moved al.toLibrary bytes), st.ask bytes) := by
  unfold realloc State.moved
  cases hp : st.dyna.array with
  | null => simp only [malloc, hg, if_true, State.ask]
  | freed => exact absurd hp hlive
  | block old => simp only [hg, if_true, State.ask]

theorem realloc_denied (hlive : Live st) (hg : al.grants st.requests = false)
    (he : ¬ (bytes = 0 ∧ al.emptyNull st.requests = true)) :
    realloc al st bytes = .ok (none, st.ask bytes) := by
  have hno : al.gives st.requests bytes = false := by simp [Allocator.gives, hg]
  unfold realloc
  cases hp : st.dyna.array with
  | null => simp only [malloc, hno, Bool.false_eq_true, if_false, State.ask]
  | freed => exact absurd hp hlive
  | block old => simp only [hno, Bool.false_eq_true, if_false, if_neg he, State.ask]

theorem realloc_empty (hlive : Live st) (he : al.emptyNull st.requests = true) :
    realloc al st 0 = .ok (none, st.emptied) := by
  have hno : al.gives st.requests 0 = false := by simp [Allocator.gives, he]
  unfold realloc State.emptied
  cases hp : st.dyna.array with
  | null => simp only [malloc, hno, Bool.false_eq_true, if_false, State.ask, IndexP.free, ← hp]
  | freed => exact absurd hp hlive
  | block old =>
    simp only [hno, Bool.false_eq_true, if_false, he, and_self, if_true, State.ask, IndexP.free]

end Realloc

/-- The block of a resize to the length `n` covers slot `i`. -/
def Fits (n i : UInt32) : Prop := sizeofDataP * (i.toNat + 1) ≤ sizeofDataT * n.toNat

instance (n i : UInt32) : Decidable (Fits n i) := inferInstanceAs (Decidable (_ ≤ _))

theorem Fits.lt {n i : UInt32} (h : Fits n i) : i < n := by
  rw [Fits, sizeofDataP, sizeofDataT] at h
  rw [UInt32.lt_iff_toNat_lt]
  omega

theorem resized_covered {st : State E} {lib : Library E} {size i : UInt32} :
    Covered (st.resized lib size) i.toNat ↔ Fits size i := by
  refine ⟨?_, ?_⟩
  · intro h
    obtain ⟨b, hb, hc⟩ := h
    rw [resized_array, IndexP.block.injEq] at hb
    rw [← hb, Block.covers, moved_bytes] at hc
    exact hc
  · intro h
    refine ⟨_, resized_array st lib size, ?_⟩
    rw [Block.covers, moved_bytes]
    exact h

/-! ## Growing -/

section Grow

variable {al : Allocator E} {st : State E} {i : UInt32}

theorem bytes_eq_zero {size : UInt32} : sizeofDataT * size.toNat = 0 ↔ size = 0 := by
  rw [← UInt32.toNat_inj, sizeofDataT, UInt32.toNat_zero]
  omega

theorem emptyAt_zero {emptyNull : Nat → Bool} : EmptyAt emptyNull st 0 ↔
    nextLength st.dyna.indexLength = 0 ∧ emptyNull st.requests = true := Iff.rfl

theorem dynaGrow_freed (h : ¬ Live st) : dynaGrow al st = .error .freedBlock := by
  rw [dynaGrow, realloc_freed h]
  rfl

theorem dynaGrow_given (hlive : Live st) (hg : al.grants st.requests = true)
    (he : ¬ EmptyAt al.emptyNull st 0) :
    dynaGrow al st =
      .ok (.success, st.resized al.toLibrary (nextLength st.dyna.indexLength)) := by
  have hgives : al.gives st.requests
      (sizeofDataT * (nextLength st.dyna.indexLength).toNat) = true := by
    rw [gives_iff, bytes_eq_zero]
    exact ⟨hg, he⟩
  rw [dynaGrow, realloc_given hlive hgives]
  rfl

theorem dynaGrow_denied (hlive : Live st) (hg : al.grants st.requests = false)
    (he : ¬ EmptyAt al.emptyNull st 0) :
    dynaGrow al st =
      .ok (.failure, st.ask (sizeofDataT * (nextLength st.dyna.indexLength).toNat)) := by
  rw [dynaGrow, realloc_denied hlive hg (by rw [bytes_eq_zero]; exact he)]
  rfl

theorem dynaGrow_empty (hlive : Live st) (he : EmptyAt al.emptyNull st 0) :
    dynaGrow al st = .ok (.failure, st.emptied) := by
  obtain ⟨h0, hnull⟩ := emptyAt_zero.mp he
  rw [dynaGrow, bytes_eq_zero.mpr h0, realloc_empty hlive hnull]
  rfl

theorem growLoop_stop (al : Allocator E) (hi : ¬ st.dyna.indexLength < i) (fuel : Nat) :
    growLoop al i (fuel + 1) st = .ok (.success, st) := by
  simp only [growLoop, if_neg hi]

/-- One round of the loop: it goes on after a growth that succeeds, with what that left. -/
theorem growLoop_round (hi : st.dyna.indexLength < i) {t : State E}
    (hgrow : dynaGrow al st = .ok (.success, t)) (fuel : Nat) :
    growLoop al i (fuel + 1) st = growLoop al i fuel t := by
  simp only [growLoop, if_pos hi, hgrow, Runs.ok_bind, reduceCtorEq, if_false]

/-- And it ends with one that fails. -/
theorem growLoop_fails (hi : st.dyna.indexLength < i) {t : State E}
    (hgrow : dynaGrow al st = .ok (.failure, t)) (fuel : Nat) :
    growLoop al i (fuel + 1) st = .ok (.failure, t) := by
  simp only [growLoop, if_pos hi, hgrow, Runs.ok_bind, if_true]

theorem growLoop_freed (h : ¬ Live st) (hi : st.dyna.indexLength < i) (fuel : Nat) :
    growLoop al i (fuel + 1) st = .error .freedBlock := by
  simp only [growLoop, if_pos hi, dynaGrow_freed h, Runs.error_bind]

/-- What the growths after the first one come to. -/
theorem emptyAt_succ {emptyNull : Nat → Bool} {lib : Library E} {k : Nat} :
    EmptyAt emptyNull (st.resized lib (nextLength st.dyna.indexLength)) k ↔
      EmptyAt emptyNull st (k + 1) := by
  rw [EmptyAt, EmptyAt, resized_indexLength, resized_requests, ← Function.iterate_succ_apply,
    Nat.add_right_comm, Nat.add_assoc]

theorem reaches_succ {n : UInt32} (hi : n < i) : Reaches (nextLength n) i ↔ Reaches n i := by
  refine ⟨?_, ?_⟩
  · intro h
    obtain ⟨k, hk⟩ := h
    exact ⟨k + 1, hk⟩
  · intro h
    obtain ⟨k, hk⟩ := h
    cases k with
    | zero => exact absurd hi (UInt32.not_lt.mpr hk)
    | succ k => exact ⟨k, hk⟩

theorem emptied_succ {emptyNull : Nat → Bool} (lib : Library E) (hi : st.dyna.indexLength < i)
    (he : ¬ EmptyAt emptyNull st 0) :
    Emptied emptyNull (st.resized lib (nextLength st.dyna.indexLength)) i ↔
      Emptied emptyNull st i := by
  refine ⟨?_, ?_⟩
  · intro h
    obtain ⟨k, hshort, hk⟩ := h
    refine ⟨k + 1, fun m hm => ?_, emptyAt_succ.mp hk⟩
    cases m with
    | zero => exact hi
    | succ m => exact hshort m (Nat.le_of_succ_le_succ hm)
  · intro h
    obtain ⟨k, hshort, hk⟩ := h
    cases k with
    | zero => exact absurd hk he
    | succ k => exact ⟨k, fun m hm => hshort (m + 1) (Nat.succ_le_succ hm), emptyAt_succ.mpr hk⟩

end Grow

/-- There is no array where there should be one. -/
structure Lost (st : State E) : Prop where
  array : ∀ b, st.dyna.array ≠ .block b
  indexLength : st.dyna.indexLength ≠ 0

theorem nextLength_zero : nextLength 0 = 3 := rfl

theorem EmptyAt.lost {emptyNull : Nat → Bool} {st : State E} (he : EmptyAt emptyNull st 0) :
    Lost st.emptied := by
  refine ⟨free_ne_block _, fun h0 => ?_⟩
  have hnext := (emptyAt_zero.mp he).1
  rw [show st.dyna.indexLength = 0 from h0, nextLength_zero] at hnext
  cases hnext

/-- `t` comes from a growth that lost the array, that of `st` or one that growing moved it to. -/
def LostFrom (emptyNull : Nat → Bool) (st t : State E) : Prop :=
  ∃ u, t = u.emptied ∧ EmptyAt emptyNull u 0 ∧ (u = st ∨ ∃ b, u.dyna.array = .block b)

theorem LostFrom.lost {emptyNull : Nat → Bool} {st t : State E} (h : LostFrom emptyNull st t) :
    Lost t := by
  obtain ⟨u, rfl, he, -⟩ := h
  exact he.lost

/-- How a loop that grows at all comes out: it runs out of rounds, or it fails because 0 bytes
    were answered with NULL, or it stops right after the growth that got to the index. -/
theorem growLoop_cases (lib : Library E) {i : UInt32} (fuel : Nat) {st : State E}
    (hlive : Live st) (hi : st.dyna.indexLength < i) :
    growLoop (granting lib) i fuel st = .error .endless ∨
    (Emptied lib.emptyNull st i ∧ ∃ t, growLoop (granting lib) i fuel st = .ok (.failure, t) ∧
      LostFrom lib.emptyNull st t) ∨
    (¬ Emptied lib.emptyNull st i ∧ Reaches st.dyna.indexLength i ∧ ∃ (t : State E) (l : UInt32),
      growLoop (granting lib) i fuel st = .ok (.success, t.resized lib (nextLength l)) ∧
      l < i ∧ i ≤ nextLength l) := by
  induction fuel generalizing st with
  | zero => exact .inl rfl
  | succ fuel ih =>
    by_cases he : EmptyAt lib.emptyNull st 0
    · refine .inr (.inl ⟨⟨0, fun m hm => ?_, he⟩, _,
        growLoop_fails hi (dynaGrow_empty hlive he) fuel, st, rfl, he, .inl rfl⟩)
      rw [Nat.le_zero.mp hm]
      exact hi
    · rw [growLoop_round hi (dynaGrow_given hlive rfl he), ← reaches_succ hi,
        ← emptied_succ lib hi he]
      by_cases hnext : nextLength st.dyna.indexLength < i
      · refine (ih (resized_live st lib _) hnext).imp id (Or.imp_left ?_)
        intro h
        obtain ⟨hempty, t, hrun, u, ht, hu, hfrom⟩ := h
        refine ⟨hempty, t, hrun, u, ht, hu, .inr ?_⟩
        rcases hfrom with rfl | hb
        · exact ⟨_, resized_array st lib _⟩
        · exact hb
      -- the growth got to the index, so the next test ends the loop
      · have hle : i ≤ nextLength st.dyna.indexLength := UInt32.not_lt.mp hnext
        cases fuel with
        | zero => exact .inl rfl
        | succ fuel =>
          refine .inr (.inr ⟨?_, ⟨0, hle⟩, st, _, growLoop_stop _ hnext fuel, hi, hle⟩)
          intro h
          obtain ⟨k, hshort, -⟩ := h
          exact hnext (hshort 0 (Nat.zero_le k))

/-- With enough rounds the loop stops, if it gets to the index or to such an answer. -/
theorem growLoop_returns (lib : Library E) (fuel : Nat) {i : UInt32} {k : Nat} {st : State E}
    (hlive : Live st)
    (hk : i ≤ nextLength^[k] st.dyna.indexLength ∨ EmptyAt lib.emptyNull st k) :
    ∃ r, growLoop (granting lib) i (fuel + k + 1) st = .ok r := by
  induction k generalizing st with
  | zero =>
    by_cases hi : st.dyna.indexLength < i
    · have he := hk.resolve_left (UInt32.not_le.mpr hi)
      exact ⟨_, growLoop_fails hi (dynaGrow_empty hlive he) _⟩
    · exact ⟨_, growLoop_stop _ hi _⟩
  | succ k ih =>
    by_cases hi : st.dyna.indexLength < i
    · by_cases he : EmptyAt lib.emptyNull st 0
      · exact ⟨_, growLoop_fails hi (dynaGrow_empty hlive he) _⟩
      · obtain ⟨r, hrun⟩ := ih (resized_live st lib _) (hk.imp id emptyAt_succ.mpr)
        refine ⟨r, ?_⟩
        rw [growLoop_round hi (dynaGrow_given hlive rfl he)]
        exact hrun
    · exact ⟨_, growLoop_stop _ hi _⟩

/-- The length `dyna_grow` computes, over the natural numbers. -/
theorem nextLength_toNat (n : UInt32) : (nextLength n).toNat =
    (n.toNat / 8 + (if n.toNat < 9 then 3 else 6) + n.toNat) % 2 ^ 32 := by
  have hlt : n < 9 ↔ n.toNat < 9 := UInt32.lt_iff_toNat_lt
  have h3 : (3 : UInt32).toNat = 3 := rfl
  have h6 : (6 : UInt32).toNat = 6 := rfl
  have h8 : n.toNat >>> ((3 : UInt32).toNat % 32) = n.toNat / 8 := Nat.shiftRight_eq_div_pow _ 3
  unfold nextLength
  rw [UInt32.toNat_add, UInt32.toNat_add, UInt32.toNat_shiftRight, h8]
  by_cases h : n.toNat < 9
  · rw [if_pos h, if_pos (hlt.mpr h), h3, Nat.mod_add_mod]
  · rw [if_neg h, if_neg (fun hn => h (hlt.mp hn)), h6, Nat.mod_add_mod]

theorem nextLength_toNat_le (n : UInt32) :
    (nextLength n).toNat ≤ n.toNat / 8 + (if n.toNat < 9 then 3 else 6) + n.toNat := by
  rw [nextLength_toNat]
  exact Nat.mod_le _ _

/-- A growth made for the index `i` does not cover it: half of the slots are missing. -/
theorem not_fits_nextLength {l i : UInt32} (hl : l < i) : ¬ Fits (nextLength l) i := by
  intro hfits
  -- 8 (i + 1) bytes are needed, 4 for each slot of the new length are there
  rw [Fits, sizeofDataP, sizeofDataT] at hfits
  have hle := nextLength_toNat_le l
  have hlt : l.toNat < i.toNat := UInt32.lt_iff_toNat_lt.mp hl
  by_cases h9 : l.toNat < 9
  · rw [if_pos h9] at hle
    omega
  · rw [if_neg h9] at hle
    omega

theorem not_covered_nextLength (st : State E) (lib : Library E) {l i : UInt32} (hl : l < i) :
    ¬ Covered (st.resized lib (nextLength l)) i.toNat :=
  fun h => not_fits_nextLength hl (resized_covered.mp h)

/-- An insertion that has to grow the array returns only if it fails, and then without one. -/
theorem dynaInsert_grows (lib : Library E) (fuel : Nat) {st : State E} {i : UInt32}
    (v : Option E) (hi : st.dyna.indexLength < i) :
    (∃ e, dynaInsert (granting lib) fuel st i v .grow = .error e) ∨
    (Live st ∧ Emptied lib.emptyNull st i ∧ ∃ t,
      dynaInsert (granting lib) fuel st i v .grow = .ok (.failure, t) ∧
      LostFrom lib.emptyNull st t) := by
  have hfault : ∀ {e}, growLoop (granting lib) i fuel st = .error e →
      dynaInsert (granting lib) fuel st i v .grow = .error e := by
    intro e h
    rw [dynaInsert, prepare, h, Runs.error_bind]
  by_cases hlive : Live st
  · rcases growLoop_cases lib fuel hlive hi with h | ⟨he, t, h, ht⟩ | ⟨-, -, t, l, h, hl, -⟩
    · exact .inl ⟨_, hfault h⟩
    · refine .inr ⟨hlive, he, t, ?_, ht⟩
      rw [dynaInsert, prepare, h]
      rfl
    · obtain ⟨e, he, -⟩ := dynaInsert_uncovered (v := v) (m := .grow) h
        (not_covered_nextLength t lib hl)
      exact .inl ⟨e, he⟩
  · cases fuel with
    | zero => exact .inl ⟨_, hfault rfl⟩
    | succ fuel => exact .inl ⟨_, hfault (growLoop_freed hlive hi fuel)⟩

/-! ## When an insertion stays inside the array -/

theorem growOk_of_error {lib : Library E} {st : State E} {i : UInt32} {v : Option E} {fuel : Nat}
    (hrun : dynaInsert (granting lib) fuel st i v .grow = .error .endless) :
    (∀ st', dynaInsert (granting lib) fuel st i v .grow = .ok (.success, st') →
      Inserted st st' i v) ∧
    (∀ e, dynaInsert (granting lib) fuel st i v .grow = .error e → e = .endless) := by
  rw [hrun]
  refine ⟨?_, ?_⟩
  · intro st' h
    cases h
  · intro e h
    exact (Except.error.inj h).symm

/-- An index within the length, so that the loop is not entered. -/
theorem growOk_iff_within (lib : Library E) {st : State E} {i : UInt32} (v : Option E)
    (hi : ¬ st.dyna.indexLength < i) :
    GrowOk lib st i v ↔ i < st.dyna.indexLength ∧ Covered st i.toNat := by
  have hstop : ∀ fuel, prepare (granting lib) (fuel + 1) st i .grow = .ok (.success, st) :=
    fun fuel => growLoop_stop _ hi fuel
  refine ⟨?_, ?_⟩
  · intro hok
    by_cases hc : Covered st i.toNat
    · -- a call that succeeds leaves the length as it was
      obtain ⟨st', hrun, hp⟩ := dynaInsert_covered (v := v) (hstop 0) hc
      have hin := ((hok 1).1 st' hrun).inside
      rw [hp.indexLength] at hin
      exact ⟨hin, hc⟩
    · obtain ⟨e, he, hne⟩ := dynaInsert_uncovered (v := v) (hstop 0) hc
      exact absurd ((hok 1).2 e he) hne
  · intro h fuel
    cases fuel with
    | zero => exact growOk_of_error rfl
    | succ fuel =>
      obtain ⟨t, hrun, hp⟩ := dynaInsert_covered (v := v) (hstop fuel) h.2
      rw [hrun]
      refine ⟨?_, ?_⟩
      · intro st' h'
        obtain ⟨-, rfl⟩ := Runs.ok_pair_inj h'
        exact hp.inserted h.1
      · intro e h'
        cases h'

/-- An index beyond it: a loop that got there would leave the index uncovered. -/
theorem growOk_iff_beyond (lib : Library E) {st : State E} {i : UInt32} (v : Option E)
    (hi : st.dyna.indexLength < i) :
    GrowOk lib st i v ↔
      Live st ∧ (¬ Reaches st.dyna.indexLength i ∨ Emptied lib.emptyNull st i) := by
  refine ⟨?_, ?_⟩
  · intro hok
    by_cases hlive : Live st
    · refine ⟨hlive, ?_⟩
      by_contra hout
      obtain ⟨hreach, hne⟩ := not_or.mp hout
      obtain ⟨k, hk⟩ := Classical.not_not.mp hreach
      obtain ⟨r, hrun⟩ := growLoop_returns lib 0 hlive (.inl hk)
      rcases growLoop_cases lib _ hlive hi with h | ⟨he, -⟩ | ⟨-, -, t, l, h, hl, -⟩
      · rw [hrun] at h
        cases h
      · exact hne he
      · have hp : prepare (granting lib) (0 + k + 1) st i .grow =
            .ok (.success, t.resized lib (nextLength l)) := h
        obtain ⟨e, he, hnot⟩ := dynaInsert_uncovered (v := v) hp
          (not_covered_nextLength t lib hl)
        exact hnot ((hok _).2 e he)
    · -- a freed block cannot be reallocated
      have hrun : dynaInsert (granting lib) 1 st i v .grow = .error .freedBlock := by
        rw [dynaInsert, prepare, growLoop_freed hlive hi, Runs.error_bind]
      cases (hok 1).2 _ hrun
  · intro h fuel
    obtain ⟨hlive, h⟩ := h
    rcases growLoop_cases lib fuel hlive hi with hrun | ⟨-, t, hrun, -⟩ | ⟨hne, hreach, -⟩
    · apply growOk_of_error
      rw [dynaInsert, prepare, hrun, Runs.error_bind]
    · have hfail : dynaInsert (granting lib) fuel st i v .grow = .ok (.failure, t) := by
        rw [dynaInsert, prepare, hrun]
        rfl
      rw [hfail]
      refine ⟨?_, ?_⟩
      · intro st' h'
        cases (Runs.ok_pair_inj h').1
      · intro e h'
        cases h'
    · exact absurd h (not_or.mpr ⟨not_not_intro hreach, hne⟩)

theorem growOk_iff (lib : Library E) (st : State E) (i : UInt32) (v : Option E) :
    GrowOk lib st i v ↔
      (i < st.dyna.indexLength ∧ Covered st i.toNat) ∨
      (st.dyna.indexLength < i ∧ Live st ∧
        (¬ Reaches st.dyna.indexLength i ∨ Emptied lib.emptyNull st i)) := by
  by_cases hi : st.dyna.indexLength < i
  · have hnot : ¬ i < st.dyna.indexLength := UInt32.lt_asymm hi
    rw [growOk_iff_beyond lib v hi]
    exact ⟨fun h => .inr ⟨hi, h⟩, fun h => (h.resolve_left fun h => hnot h.1).2⟩
  · rw [growOk_iff_within lib v hi]
    exact ⟨.inl, fun h => h.resolve_right fun h => hi h.1⟩

theorem checkOk_iff (lib : Library E) (st : State E) (i : UInt32) (v : Option E) :
    CheckOk lib st i v ↔
      i ≠ st.dyna.indexLength ∧ (i < st.dyna.indexLength → Covered st i.toNat) := by
  have hpass : ¬ st.dyna.indexLength < i → ∀ fuel,
      prepare (granting lib) fuel st i .check = .ok (.success, st) := by
    intro hi fuel
    rw [prepare, if_neg hi]
  refine ⟨?_, ?_⟩
  · intro hok
    obtain ⟨s, st', hrun, hins, hfail, -⟩ := hok 0
    by_cases hi : st.dyna.indexLength < i
    · exact ⟨(UInt32.ne_of_lt hi).symm, fun h => absurd (UInt32.lt_trans h hi) (UInt32.lt_irrefl i)⟩
    · by_cases hc : Covered st i.toNat
      · -- the call succeeds, so the index must be below the length
        obtain ⟨t, ht, hp⟩ := dynaInsert_covered (v := v) (hpass hi 0) hc
        rw [ht] at hrun
        obtain ⟨rfl, rfl⟩ := Runs.ok_pair_inj hrun
        have hin := (hins rfl).inside
        rw [hp.indexLength] at hin
        exact ⟨UInt32.ne_of_lt hin, fun _ => hc⟩
      · obtain ⟨e, he, -⟩ := dynaInsert_uncovered (v := v) (hpass hi 0) hc
        rw [he] at hrun
        cases hrun
  · intro h
    obtain ⟨hne, hc⟩ := h
    intro fuel
    by_cases hi : st.dyna.indexLength < i
    · refine ⟨.failure, st, ?_, by simp, ?_, fun _ => rfl⟩
      · simp only [dynaInsert, prepare, if_pos hi, Runs.ok_bind, if_true]
      · exact iff_of_true rfl (UInt32.le_of_lt hi)
    · have hin : i < st.dyna.indexLength :=
        UInt32.lt_of_le_of_ne (UInt32.not_lt.mp hi) hne
      obtain ⟨t, ht, hp⟩ := dynaInsert_covered (v := v) (hpass hi fuel) (hc hin)
      refine ⟨.success, t, ht, fun _ => hp.inserted hin, ?_, by simp⟩
      exact iff_of_false (by simp) (UInt32.not_le.mpr hin)

/-- With `GROW` the call stays inside the array exactly if it need not grow and the block
    covers the slot, or if growing never gets to the index: the growth sequence does not, or
    0 bytes are answered with NULL before, which ends the loop. With `CHECK` it keeps its word
    exactly if the index is not `index_length` and, below that, the block covers it. -/
theorem dynaInsert_inside_iff (lib : Library E) (st : State E) (i : UInt32) (v : Option E) :
    (GrowOk lib st i v ↔
      (i < st.dyna.indexLength ∧ Covered st i.toNat) ∨
      (st.dyna.indexLength < i ∧ Live st ∧
        (¬ Reaches st.dyna.indexLength i ∨ Emptied lib.emptyNull st i))) ∧
    (CheckOk lib st i v ↔
      i ≠ st.dyna.indexLength ∧ (i < st.dyna.indexLength → Covered st i.toNat)) :=
  ⟨growOk_iff lib st i v, checkOk_iff lib st i v⟩

/-- Index 10 of a fresh array of length 10: both tests let it pass. -/
theorem dynaInsert_at_length :
    ∃ st : State Unit, dynaInit (granting clean) 10 = .ok st ∧
      dynaInsert (granting clean) 1 st 10 (some ()) .check = .error .slotBound ∧
      ¬ CheckOk clean st 10 (some ()) ∧ ¬ GrowOk clean st 10 (some ()) := by
  refine ⟨_, rfl, rfl, ?_, ?_⟩
  · intro h
    obtain ⟨s, st', hrun, -⟩ := h 1
    have hfault : Except.error Fault.slotBound = Except.ok (s, st') := hrun
    cases hfault
  · intro h
    have hfault : Fault.slotBound = .endless := (h 1).2 .slotBound rfl
    cases hfault

end DataMonkey.Dyna
