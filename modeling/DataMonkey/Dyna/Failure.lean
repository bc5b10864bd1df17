import DataMonkey.Dyna.Growth

/- What a call that returns `FAILURE` leaves behind.

   `dyna_grow` leaves everything where it was, unless its new length wraps to 0 and the library
   answers 0 bytes with NULL: the array is freed then. `dyna_grow_to` and `dyna_shrink` drop the
   array when they get no memory, `dyna_shrink` also when there is nothing to halve. And the
   loop of `dyna_insert` may have grown the array before the growth that fails: that growth
   took half of the memory, or wrapped.

     1. `growLoop_failsAt`, `growLoop_failure` — the insertions that fail, and where;
     2. `grownBy_get`, `grownBy_fits` — the elements that are left after so many growths;
     3. `dyna_failure_keeps_iff` — in every state reached by calls that succeeded, and for
        every outcome of the requests made afterwards, the calls whose failure loses nothing. -/
namespace DataMonkey.Dyna

variable {E : Type}

/-- What there was before the call is still there after it. -/
structure Kept (st st' : State E) : Prop where
  array : ∃ b, st'.dyna.array = .block b
  get : ∀ i v, dynaGet st i = .ok (some v) → dynaGet st' i = .ok (some v)
  indexLength : st.dyna.indexLength ≤ st'.dyna.indexLength
  lastIndex : st'.dyna.lastIndex = st.dyna.lastIndex

/-- If the call returns `FAILURE` when its requests come out like this, nothing is lost. -/
def FailureKeeps (grants emptyNull : Nat → Bool) (st : State E) (c : Call E) : Prop :=
  ∀ junk torn fuel st',
    dynaStep ⟨⟨emptyNull, junk, torn⟩, grants⟩ fuel st c = .ok (.failure, st') → Kept st st'

/-- The loop that grows for the index `i` gets `k` growths and needs one more, which fails. -/
structure FailsAt (grants emptyNull : Nat → Bool) (st : State E) (i : UInt32) (k : Nat) :
    Prop where
  short : ∀ m ≤ k, nextLength^[m] st.dyna.indexLength < i
  given : ∀ m < k, grants (st.requests + m) = true ∧ ¬ EmptyAt emptyNull st m
  fails : grants (st.requests + k) = false ∨ EmptyAt emptyNull st k

/-- The calls that either do not fail or lose nothing in failing. -/
def Spares (grants emptyNull : Nat → Bool) (st : State E) : Call E → Prop
  | .insert i _ m => m = .grow → ∀ k, FailsAt grants emptyNull st i k →
      ¬ EmptyAt emptyNull st k ∧
      st.dyna.indexLength ≤ nextLength^[k] st.dyna.indexLength ∧
      ∀ j v, dynaGet st j = .ok (some v) → ∀ m < k, Fits (nextLength^[m + 1] st.dyna.indexLength) j
  | .delete _ => True
  | .grow => ¬ EmptyAt emptyNull st 0
  | .growTo size => size ≤ st.dyna.indexLength ∨ grants st.requests = true
  | .shrink => st.dyna.indexLength / 2 ≠ 0 ∧ grants st.requests = true

/-- `st` is reached from `dyna_init` by calls that all succeeded. -/
def Reached (al : Allocator E) (fuel : Nat) (n : UInt32) (calls : List (Call E))
    (st : State E) : Prop :=
  ∃ st₀ os, dynaInit al n = .ok st₀ ∧ (∃ b, st₀.dyna.array = .block b) ∧
    Runs.run (dynaStep al fuel) st₀ calls = .ok (os, st) ∧ ∀ s ∈ os, s = .success

/-- What can be read depends on the dyna alone. -/
theorem dynaGet_congr {st st' : State E} (h : st'.dyna = st.dyna) (i : UInt32) :
    dynaGet st' i = dynaGet st i := by
  rw [dynaGet, dynaGet, h]

theorem Kept.of_dyna {st st' : State E} (hb : ∃ b, st.dyna.array = .block b)
    (h : st'.dyna = st.dyna) : Kept st st' := by
  constructor
  case array => rw [h]; exact hb
  case get => exact fun i v hv => (dynaGet_congr h i).trans hv
  case indexLength => rw [h]; exact UInt32.le_refl _
  case lastIndex => rw [h]

/-! ## Growing until it fails -/

namespace FailsAt

variable {grants emptyNull : Nat → Bool} {lib : Library E} {st : State E} {i : UInt32} {k : Nat}

theorem tail (h : FailsAt grants emptyNull st i (k + 1)) :
    FailsAt grants emptyNull (st.resized lib (nextLength st.dyna.indexLength)) i k := by
  have hnum : ∀ m, st.requests + 1 + m = st.requests + (m + 1) := fun m => by omega
  constructor
  case short => exact fun m hm => h.short (m + 1) (Nat.succ_le_succ hm)
  case given =>
    intro m hm
    rw [resized_requests, hnum, emptyAt_succ]
    exact h.given (m + 1) (Nat.succ_lt_succ hm)
  case fails =>
    rw [resized_requests, hnum, emptyAt_succ]
    exact h.fails

theorem cons (h : FailsAt grants emptyNull (st.resized lib (nextLength st.dyna.indexLength)) i k)
    (hi : st.dyna.indexLength < i) (hg : grants st.requests = true)
    (he : ¬ EmptyAt emptyNull st 0) : FailsAt grants emptyNull st i (k + 1) := by
  have hnum : ∀ m, st.requests + 1 + m = st.requests + (m + 1) := fun m => by omega
  constructor
  case short =>
    intro m hm
    cases m with
    | zero => exact hi
    | succ m => exact h.short m (Nat.le_of_succ_le_succ hm)
  case given =>
    intro m hm
    cases m with
    | zero => exact ⟨hg, he⟩
    | succ m =>
      have hm' := h.given m (Nat.lt_of_succ_lt_succ hm)
      rw [resized_requests, hnum, emptyAt_succ] at hm'
      exact hm'
  case fails =>
    have hk := h.fails
    rw [resized_requests, hnum, emptyAt_succ] at hk
    exact hk

end FailsAt

/-- A growth that fails: it frees the array, or it leaves the dyna alone. -/
theorem dynaGrow_fails {al : Allocator E} {st : State E} (hlive : Live st)
    (hf : al.grants st.requests = false ∨ EmptyAt al.emptyNull st 0) :
    ∃ st', dynaGrow al st = .ok (.failure, st') ∧
      ((EmptyAt al.emptyNull st 0 ∧ ∀ b, st'.dyna.array ≠ .block b) ∨
        (¬ EmptyAt al.emptyNull st 0 ∧ st'.dyna = st.dyna)) := by
  by_cases he : EmptyAt al.emptyNull st 0
  · exact ⟨_, dynaGrow_empty hlive he, .inl ⟨he, he.lost.array⟩⟩
  · exact ⟨_, dynaGrow_denied hlive (hf.resolve_right he) he, .inr ⟨he, rfl⟩⟩

theorem growLoop_failsAt (al : Allocator E) {i : UInt32} {k : Nat} {st : State E}
    (hlive : Live st) (h : FailsAt al.grants al.emptyNull st i k) :
    ∃ st', growLoop al i (k + 1) st = .ok (.failure, st') ∧
      ((EmptyAt al.emptyNull st k ∧ ∀ b, st'.dyna.array ≠ .block b) ∨
        (¬ EmptyAt al.emptyNull st k ∧ st'.dyna = (grownBy al.toLibrary k st).dyna)) := by
  induction k generalizing st with
  | zero =>
    obtain ⟨st', hrun, hout⟩ := dynaGrow_fails hlive h.fails
    exact ⟨st', growLoop_fails (h.short 0 (Nat.le_refl 0)) hrun 0, hout⟩
  | succ k ih =>
    obtain ⟨hg, he⟩ := h.given 0 (Nat.succ_pos k)
    obtain ⟨st', hrun, hout⟩ := ih (resized_live st al.toLibrary _) h.tail
    rw [emptyAt_succ] at hout
    refine ⟨st', ?_, hout⟩
    rw [growLoop_round (h.short 0 (Nat.zero_le _)) (dynaGrow_given hlive hg he), hrun]

theorem growLoop_failure {al : Allocator E} {i : UInt32} {fuel : Nat} {st st' : State E}
    (hlive : Live st) (h : growLoop al i fuel st = .ok (.failure, st')) :
    ∃ k, FailsAt al.grants al.emptyNull st i k ∧
      (EmptyAt al.emptyNull st k ∨ st'.dyna = (grownBy al.toLibrary k st).dyna) := by
  induction fuel generalizing st with
  | zero => cases h
  | succ fuel ih =>
    by_cases hi : st.dyna.indexLength < i
    · by_cases hf : al.grants st.requests = false ∨ EmptyAt al.emptyNull st 0
      · obtain ⟨t, hrun, hout⟩ := dynaGrow_fails hlive hf
        rw [growLoop_fails hi hrun] at h
        obtain ⟨-, rfl⟩ := Runs.ok_pair_inj h
        refine ⟨0, ⟨?_, fun m hm => absurd hm (Nat.not_lt_zero m), hf⟩,
          hout.imp And.left And.right⟩
        intro m hm
        rw [Nat.le_zero.mp hm]
        exact hi
      · obtain ⟨hg, he⟩ := not_or.mp hf
        rw [Bool.not_eq_false] at hg
        rw [growLoop_round hi (dynaGrow_given hlive hg he)] at h
        obtain ⟨k, hfails, hout⟩ := ih (resized_live st al.toLibrary _) h
        exact ⟨k + 1, hfails.cons hi hg he, hout.imp emptyAt_succ.mp id⟩
    · rw [growLoop_stop al hi fuel] at h
      cases h

/-! ## The calls -/

section Calls

variable {grants emptyNull : Nat → Bool} {fuel : Nat} {st st' : State E}

/-- A failure that leaves no array loses everything. -/
theorem not_failureKeeps {c : Call E} (junk torn : Nat → Nat → Option E) (fuel : Nat)
    (h : dynaStep ⟨⟨emptyNull, junk, torn⟩, grants⟩ fuel st c = .ok (.failure, st'))
    (hb : ∀ b, st'.dyna.array ≠ .block b) : ¬ FailureKeeps grants emptyNull st c := by
  intro hk
  obtain ⟨b, hb'⟩ := (hk junk torn fuel st' h).array
  exact hb b hb'

theorem insert_keeps_iff (hb : ∃ b, st.dyna.array = .block b) (i : UInt32) (v : Option E)
    (m : Dstatus) :
    FailureKeeps grants emptyNull st (.insert i v m) ↔
      Spares grants emptyNull st (.insert i v m) := by
  have hlive := live_of_block hb
  refine ⟨?_, ?_⟩
  · intro h hm k hfails
    subst hm
    -- the memory may hold NULL everywhere
    let al : Allocator E := ⟨⟨emptyNull, fun _ _ => none, fun _ _ => none⟩, grants⟩
    obtain ⟨st', hloop, hout⟩ := growLoop_failsAt al hlive hfails
    have hrun : dynaStep al (k + 1) st (.insert i v .grow) = .ok (.failure, st') := by
      rw [dynaStep, dynaInsert, prepare, hloop]
      rfl
    rcases hout with ⟨-, hnone⟩ | ⟨he, hd⟩
    · exact absurd h (not_failureKeeps _ _ _ hrun hnone)
    · have hkept := h _ _ _ _ hrun
      refine ⟨he, ?_, fun j w hj => ?_⟩
      · rw [← grownBy_indexLength al.toLibrary, ← hd]
        exact hkept.indexLength
      · exact (grownBy_fits al.toLibrary (fun _ _ => rfl) (fun _ _ => rfl)
          ((dynaGet_congr hd j).symm.trans (hkept.get j w hj))).2
  · intro h junk torn fuel st' hrun
    have hp : prepare ⟨⟨emptyNull, junk, torn⟩, grants⟩ fuel st i m = .ok (.failure, st') := by
      rcases dynaInsert_cases hrun with ⟨-, hp⟩ | ⟨hs, -⟩
      · exact hp
      · cases hs
    cases m with
    | grow =>
      obtain ⟨k, hfails, hout⟩ := growLoop_failure hlive hp
      obtain ⟨he, hlen, hfits⟩ := h rfl k hfails
      have hd := hout.resolve_left he
      let lib : Library E := ⟨emptyNull, junk, torn⟩
      constructor
      case array => rw [hd]; exact grownBy_array lib k hb
      case get =>
        intro j w hj
        rw [dynaGet_congr hd]
        exact grownBy_get lib hj (hfits j w hj)
      case indexLength => rw [hd, grownBy_indexLength]; exact hlen
      case lastIndex => rw [hd, grownBy_lastIndex]
    | check => exact Kept.of_dyna hb (by rw [(Runs.ok_pair_inj hp).2])
    | success => cases (Runs.ok_pair_inj hp).1
    | failure => cases (Runs.ok_pair_inj hp).1
    | def_ => cases (Runs.ok_pair_inj hp).1

/-- A call that asks for memory once, and drops the array if it is denied. -/
theorem keeps_iff_granted {c : Call E}
    (hyes : grants st.requests = true → ∀ junk torn fuel, ∃ t,
      dynaStep ⟨⟨emptyNull, junk, torn⟩, grants⟩ fuel st c = .ok (.success, t))
    (hno : grants st.requests = false → ∀ junk torn fuel, ∃ t,
      dynaStep ⟨⟨emptyNull, junk, torn⟩, grants⟩ fuel st c = .ok (.failure, t) ∧
        t.dyna.array = .null) :
    FailureKeeps grants emptyNull st c ↔ grants st.requests = true := by
  cases hg : grants st.requests with
  | true =>
    refine iff_of_true ?_ rfl
    intro junk torn fuel st' hrun
    obtain ⟨t, ht⟩ := hyes hg junk torn fuel
    rw [ht] at hrun
    cases (Runs.ok_pair_inj hrun).1
  | false =>
    refine iff_of_false ?_ Bool.false_ne_true
    obtain ⟨t, ht, hnull⟩ := hno hg (fun _ _ => none) (fun _ _ => none) 0
    refine not_failureKeeps _ _ _ ht fun b hb => ?_
    rw [hnull] at hb
    cases hb

theorem growTo_keeps_iff (hb : ∃ b, st.dyna.array = .block b) (size : UInt32) :
    FailureKeeps grants emptyNull st (.growTo size) ↔
      Spares grants emptyNull st (.growTo size) := by
  have hlive := live_of_block hb
  by_cases hs : size ≤ st.dyna.indexLength
  · -- refused, and nothing has happened
    refine iff_of_true ?_ (.inl hs)
    intro junk torn fuel st' hrun
    rw [dynaStep, dynaGrowTo_refused hs] at hrun
    exact Kept.of_dyna hb (by rw [(Runs.ok_pair_inj hrun).2])
  · have hlt : st.dyna.indexLength < size := UInt32.not_le.mp hs
    rw [Spares, or_iff_right hs]
    apply keeps_iff_granted
    · intro hg junk torn fuel
      exact ⟨_, dynaGrowTo_given hlt hlive hg⟩
    · intro hg junk torn fuel
      exact dynaGrowTo_denied hlt hlive hg

theorem shrink_keeps_iff (hb : ∃ b, st.dyna.array = .block b) :
    FailureKeeps grants emptyNull st .shrink ↔ Spares grants emptyNull st .shrink := by
  have hlive := live_of_block hb
  by_cases hs : st.dyna.indexLength / 2 = 0
  · refine iff_of_false ?_ fun h => h.1 hs
    refine not_failureKeeps (fun _ _ => none) (fun _ _ => none) 0 (dynaShrink_drops _ hs)
      fun b hb => ?_
    cases hb
  · rw [Spares, and_iff_right hs]
    apply keeps_iff_granted
    · intro hg junk torn fuel
      exact ⟨_, dynaShrink_given hs hlive hg⟩
    · intro hg junk torn fuel
      exact dynaShrink_denied hs hlive hg

/-- A growth loses the array to a request for 0 bytes, and nothing otherwise. -/
theorem grow_keeps_iff (hb : ∃ b, st.dyna.array = .block b) :
    FailureKeeps grants emptyNull st .grow ↔ Spares grants emptyNull st .grow := by
  have hlive := live_of_block hb
  by_cases he : EmptyAt emptyNull st 0
  · refine iff_of_false ?_ (not_not_intro he)
    exact not_failureKeeps (fun _ _ => none) (fun _ _ => none) 0 (dynaGrow_empty hlive he)
      he.lost.array
  · refine iff_of_true ?_ he
    intro junk torn fuel st' hrun
    rw [dynaStep] at hrun
    cases hg : grants st.requests with
    | true =>
      rw [dynaGrow_given hlive hg he] at hrun
      cases (Runs.ok_pair_inj hrun).1
    | false =>
      rw [dynaGrow_denied hlive hg he] at hrun
      exact Kept.of_dyna hb (by rw [← (Runs.ok_pair_inj hrun).2]; rfl)

/-- A deletion that fails has done nothing. -/
theorem delete_keeps (hb : ∃ b, st.dyna.array = .block b) (i : UInt32) :
    FailureKeeps grants emptyNull st (.delete i) := by
  intro junk torn fuel st' h
  rcases dynaDelete_cases h with ⟨-, rfl⟩ | ⟨hs, -⟩
  · exact Kept.of_dyna hb rfl
  · cases hs

theorem failureKeeps_iff (hb : ∃ b, st.dyna.array = .block b) (c : Call E) :
    FailureKeeps grants emptyNull st c ↔ Spares grants emptyNull st c := by
  cases c with
  | insert i v m => exact insert_keeps_iff hb i v m
  | delete i => exact iff_of_true (delete_keeps hb i) trivial
  | grow => exact grow_keeps_iff hb
  | growTo size => exact growTo_keeps_iff hb size
  | shrink => exact shrink_keeps_iff hb

/-- A call that succeeds leaves an array. -/
theorem dynaStep_success_array {al : Allocator E} {c : Call E}
    (hb : ∃ b, st.dyna.array = .block b)
    (h : dynaStep al fuel st c = .ok (.success, st')) : ∃ b, st'.dyna.array = .block b := by
  have hlive := live_of_block hb
  cases c with
  | insert i v m =>
    rcases dynaInsert_cases h with ⟨hs, -⟩ | ⟨-, r, t, b, b', -, -, -, rfl⟩
    · cases hs
    · exact ⟨b', rfl⟩
  | delete i =>
    rcases dynaDelete_cases h with ⟨hs, -⟩ | ⟨-, b, b', j, last, released, -, -, rfl⟩
    · cases hs
    · exact ⟨b', rfl⟩
  | grow =>
    rw [dynaStep] at h
    by_cases hf : al.grants st.requests = false ∨ EmptyAt al.emptyNull st 0
    · obtain ⟨t, hrun, -⟩ := dynaGrow_fails hlive hf
      rw [hrun] at h
      cases (Runs.ok_pair_inj h).1
    · obtain ⟨hg, he⟩ := not_or.mp hf
      rw [Bool.not_eq_false] at hg
      rw [dynaGrow_given hlive hg he] at h
      rw [← (Runs.ok_pair_inj h).2]
      exact ⟨_, resized_array st _ _⟩
  | growTo size =>
    rw [dynaStep] at h
    by_cases hs : size ≤ st.dyna.indexLength
    · rw [dynaGrowTo_refused hs] at h
      cases (Runs.ok_pair_inj h).1
    · have hlt : st.dyna.indexLength < size := UInt32.not_le.mp hs
      cases hg : al.grants st.requests with
      | true =>
        rw [dynaGrowTo_given hlt hlive hg] at h
        rw [← (Runs.ok_pair_inj h).2]
        exact ⟨_, resized_array st _ _⟩
      | false =>
        obtain ⟨t, hrun, -⟩ := dynaGrowTo_denied hlt hlive hg
        rw [hrun] at h
        cases (Runs.ok_pair_inj h).1
  | shrink =>
    rw [dynaStep] at h
    by_cases hs : st.dyna.indexLength / 2 = 0
    · rw [dynaShrink_drops al hs] at h
      cases (Runs.ok_pair_inj h).1
    · cases hg : al.grants st.requests with
      | true =>
        rw [dynaShrink_given hs hlive hg] at h
        rw [← (Runs.ok_pair_inj h).2]
        exact ⟨_, resized_array st _ _⟩
      | false =>
        obtain ⟨t, hrun, -⟩ := dynaShrink_denied hs hlive hg
        rw [hrun] at h
        cases (Runs.ok_pair_inj h).1

end Calls

theorem Reached.array {al : Allocator E} {fuel : Nat} {n : UInt32} {calls : List (Call E)}
    {st : State E} (h : Reached al fuel n calls st) : ∃ b, st.dyna.array = .block b := by
  obtain ⟨st₀, os, -, hb, hrun, hos⟩ := h
  have hkeep : ∀ (s : State E) c o s', (∃ b, s.dyna.array = .block b) → o = Dstatus.success →
      dynaStep al fuel s c = .ok (o, s') → ∃ b, s'.dyna.array = .block b := by
    intro s c o s' hs ho hstep
    subst ho
    exact dynaStep_success_array hs hstep
  exact Runs.run_replies hkeep hb hrun hos

/-- In every state reached by calls that succeeded, and whatever comes of the requests that the
    next call makes: if it fails it loses nothing, exactly if it is one of `Spares`. -/
theorem dyna_failure_keeps_iff {al : Allocator E} {fuel : Nat} {n : UInt32}
    {calls : List (Call E)} {st : State E} (h : Reached al fuel n calls st)
    (grants emptyNull : Nat → Bool) (c : Call E) :
    FailureKeeps grants emptyNull st c ↔ Spares grants emptyNull st c :=
  failureKeeps_iff h.array c

/-- Seventeen slots, three of them filled. Growing for the index 40 fails at the length 34, after
    two growths, and nothing is lost; a shrink that gets no memory loses everything. -/
theorem dyna_failure_keeps_seventeen : ∃ st : State Nat,
    Reached (granting clean) 1 10
      [.insert 0 (some 5) .check, .insert 1 (some 6) .grow, .grow, .insert 3 (some 7) .check] st ∧
      FailureKeeps (fun r => r ≠ 5) (fun _ => true) st (.insert 40 (some 8) .grow) ∧
      ¬ FailureKeeps (fun r => r ≠ 3) (fun _ => true) st .shrink := by
  obtain ⟨st, hreach, hlen, hreq, hbytes⟩ : ∃ st : State Nat,
      Reached (granting clean) 1 10 [.insert 0 (some 5) .check, .insert 1 (some 6) .grow, .grow,
        .insert 3 (some 7) .check] st ∧
      st.dyna.indexLength = 17 ∧ st.requests = 3 ∧ st.dyna.array.bytes = some 68 :=
    ⟨_, ⟨_, _, rfl, ⟨_, rfl⟩, rfl, by decide⟩, rfl, rfl, rfl⟩
  refine ⟨st, hreach, ?_, ?_⟩
  · apply (dyna_failure_keeps_iff hreach _ _ _).mpr
    intro _ k hfails
    have hfail := hfails.fails
    rw [EmptyAt, hlen, hreq] at hfail
    have hk : k < 3 := by
      apply Nat.lt_of_not_le
      intro hk
      have hshort := hfails.short 3 hk
      rw [hlen] at hshort
      exact absurd hshort (by decide)
    obtain rfl : k = 2 := by
      rcases (by omega : k = 0 ∨ k = 1 ∨ k = 2) with rfl | rfl | rfl
      · exact absurd hfail (by decide)
      · exact absurd hfail (by decide)
      · rfl
    rw [EmptyAt, hlen]
    refine ⟨by decide, by decide, fun j v hj m hm => ?_⟩
    -- what is stored lies in the block of 68 bytes
    obtain ⟨b, hb, hc, -⟩ := dynaGet_eq_ok.mp hj
    rw [hb] at hbytes
    rw [Block.covers, Option.some.inj hbytes, sizeofDataP] at hc
    have hfits : ∀ m < 2, 68 ≤ sizeofDataT * (nextLength^[m + 1] 17).toNat := by decide
    exact Nat.le_trans hc (hfits m hm)
  · intro h
    have hgrants := ((dyna_failure_keeps_iff hreach _ _ _).mp h).2
    rw [hreq] at hgrants
    exact absurd hgrants (by decide)

/-- One slot that is to be halved; and the length that wraps to 0, where the request for 0 bytes
    frees the array. -/
theorem dynaShrink_loses :
    (∃ st₀ st st' : State Unit, dynaInit (granting clean) 1 = .ok st₀ ∧
      dynaInsert (granting clean) 1 st₀ 0 (some ()) .check = .ok (.success, st) ∧
      dynaGet st 0 = .ok (some ()) ∧ dynaShrink (granting clean) st = .ok (.failure, st') ∧
      dynaGet st' 0 = .error .nullPointer ∧
      ¬ FailureKeeps (fun _ => true) (fun _ => false) st .shrink) ∧
    ∃ st₀ st st' : State Unit, dynaInit (granting clean) 3817748703 = .ok st₀ ∧
      dynaInsert (granting clean) 1 st₀ 0 (some ()) .check = .ok (.success, st) ∧
      dynaGet st 0 = .ok (some ()) ∧
      dynaGrow (granting { clean with emptyNull := fun _ => true }) st = .ok (.failure, st') ∧
      dynaGet st' 0 = .error .freedBlock ∧
      ¬ FailureKeeps (fun _ => true) (fun _ => true) st .grow := by
  refine ⟨⟨_, _, _, rfl, rfl, rfl, rfl, rfl, fun h => ?_⟩,
    _, _, _, rfl, rfl, rfl, rfl, rfl, fun h => ?_⟩
  · obtain ⟨b, hb⟩ := (h (fun _ _ => none) (fun _ _ => none) 1 _ rfl).array
    cases hb
  · obtain ⟨b, hb⟩ := (h (fun _ _ => none) (fun _ _ => none) 1 _ rfl).array
    cases hb

end DataMonkey.Dyna
