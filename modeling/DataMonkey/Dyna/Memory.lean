import DataMonkey.Dyna.Bounds

/- The memory behind a dyna, over whole runs.

   `dyna_init` asks for `sizeof(data_p)` bytes a slot. `dyna_grow`, `dyna_grow_to` and
   `dyna_shrink` ask for `sizeof(data_t)`, half of it, and record the full length. So the
   declared length is covered until the first call that resizes the array, and not from
   there on:

     1. `dynaStep_covers` — any other call keeps `Covers`;
     2. `dynaStep_uncovers` — a call that resizes never ends in `Covers`;
     3. `dyna_memory_covered` — all states of a run are covered if, and in a run that
        gets to its end only if, no call resizes.

   There is memory for every request throughout; how 0 bytes are answered is the library's
   choice. A step is a call that returns: one that writes outside the block, or that grows
   for ever, ends the run. -/
namespace DataMonkey.Dyna

variable {E : Type}

/-- The memory asked for, and the block that came of it, are enough for the length. -/
structure Covers (st : State E) : Prop where
  asked : sizeofDataP * st.dyna.indexLength.toNat ≤ st.asked
  slots : ∀ i < st.dyna.indexLength.toNat, Covered st i

/-- The calls that change the size of the array, from the state they are made in. Growth
    that wraps round to the length 0 is harmless if 0 bytes are answered with a block, and so
    is a refused `dyna_grow_to`; `dyna_shrink` drops the array when it cannot shrink it. -/
def Resizes (lib : Library E) (st : State E) : Call E → Prop
  | .insert i _ m => m = .grow ∧ st.dyna.indexLength < i
  | .delete _ => False
  | .grow => nextLength st.dyna.indexLength ≠ 0 ∨ lib.emptyNull st.requests = true
  | .growTo size => st.dyna.indexLength < size
  | .shrink => 0 < st.dyna.indexLength

/-! ## Calls that leave the array where it is -/

theorem SameSpace.covers {st st' : State E} (h : SameSpace st st') (H : Covers st) :
    Covers st' := by
  constructor
  case asked =>
    rw [h.indexLength, h.asked]
    exact H.asked
  case slots =>
    intro i hi
    rw [h.indexLength] at hi
    exact (h.covered i).mpr (H.slots i hi)

/-- An empty array is covered by anything. -/
theorem covers_of_length_zero {st : State E} (h : st.dyna.indexLength = 0) : Covers st := by
  have h0 : st.dyna.indexLength.toNat = 0 := by
    rw [h]
    rfl
  constructor
  case asked => rw [h0]; exact Nat.zero_le _
  case slots =>
    intro i hi
    rw [h0] at hi
    exact absurd hi (Nat.not_lt_zero i)

/-- A write into the block there is. -/
theorem sameSpace_of_write {st st' : State E} {b b' : Block E} {i : Nat} {v : Option E}
    (hb : arrayOf st.dyna = .ok b) (hw : b.write i v = .ok b') (ha : st'.dyna.array = .block b')
    (hl : st'.dyna.indexLength = st.dyna.indexLength) (hs : st'.asked = st.asked) :
    SameSpace st st' := by
  refine ⟨hl, hs, ?_⟩
  rw [ha, arrayOf_eq_ok.mp hb, IndexP.bytes, IndexP.bytes, write_bytes hw]

/-- The `switch` of an insertion that need not grow changes nothing. -/
theorem prepare_stays {al : Allocator E} {fuel : Nat} {st t : State E} {i : UInt32}
    {m s : Dstatus} (hm : ¬ (m = .grow ∧ st.dyna.indexLength < i))
    (h : prepare al fuel st i m = .ok (s, t)) : st = t := by
  cases m with
  | grow =>
    cases fuel with
    | zero => cases h
    | succ fuel =>
      have hi : ¬ st.dyna.indexLength < i := fun hi => hm ⟨rfl, hi⟩
      rw [prepare, growLoop_stop al hi fuel] at h
      exact (Runs.ok_pair_inj h).2
  | success => exact (Runs.ok_pair_inj h).2
  | failure => exact (Runs.ok_pair_inj h).2
  | check => exact (Runs.ok_pair_inj h).2
  | def_ => exact (Runs.ok_pair_inj h).2

/-- The `switch` passes what it neither grows for nor rejects. -/
theorem prepare_passes (al : Allocator E) (fuel : Nat) {st : State E} {i : UInt32} {m : Dstatus}
    (hgrow : ¬ (m = .grow ∧ st.dyna.indexLength < i))
    (hcheck : ¬ (m = .check ∧ st.dyna.indexLength < i)) :
    prepare al (fuel + 1) st i m = .ok (.success, st) := by
  cases m with
  | grow => exact growLoop_stop al (fun h => hgrow ⟨rfl, h⟩) fuel
  | check => rw [prepare, if_neg fun h => hcheck ⟨rfl, h⟩]
  | success => rfl
  | failure => rfl
  | def_ => rfl

/-- So it lets an index within the length pass. -/
theorem prepare_below (al : Allocator E) (fuel : Nat) {st : State E} {i : UInt32} (m : Dstatus)
    (hi : ¬ st.dyna.indexLength < i) : prepare al (fuel + 1) st i m = .ok (.success, st) :=
  prepare_passes al fuel (fun h => hi h.2) fun h => hi h.2

/-- An insertion that returns: it failed in its `switch`, or it stored the element. -/
theorem dynaInsert_cases {al : Allocator E} {fuel : Nat} {st st' : State E} {i : UInt32}
    {v : Option E} {m s : Dstatus} (h : dynaInsert al fuel st i v m = .ok (s, st')) :
    (s = .failure ∧ prepare al fuel st i m = .ok (.failure, st')) ∨
    (s = .success ∧ ∃ r t b b', prepare al fuel st i m = .ok (r, t) ∧ arrayOf t.dyna = .ok b ∧
      b.write i.toNat v = .ok b' ∧
      st' = { t with dyna := { t.dyna with
        array := .block b'
        lastIndex := if t.dyna.lastIndex < i then i else t.dyna.lastIndex } }) := by
  obtain ⟨⟨r, t⟩, hp, hrest⟩ := Runs.bind_eq_ok.mp h
  dsimp only at hrest
  by_cases hr : r = .failure
  · rw [if_pos hr] at hrest
    obtain ⟨rfl, rfl⟩ := Runs.ok_pair_inj hrest
    rw [hr] at hp
    exact .inl ⟨rfl, hp⟩
  · rw [if_neg hr] at hrest
    obtain ⟨b, hb, hrest⟩ := Runs.bind_eq_ok.mp hrest
    obtain ⟨b', hw, hrest⟩ := Runs.bind_eq_ok.mp hrest
    obtain ⟨rfl, rfl⟩ := Runs.ok_pair_inj hrest
    exact .inr ⟨rfl, r, t, b, b', hp, hb, hw, rfl⟩

/-- A deletion that returns: it did nothing, or it emptied some slot of the block. -/
theorem dynaDelete_cases {st st' : State E} {i : UInt32} {s : Dstatus}
    (h : dynaDelete st i = .ok (s, st')) :
    (s = .failure ∧ st' = st) ∨
    (s = .success ∧ ∃ b b' j last released, arrayOf st.dyna = .ok b ∧ b.write j none = .ok b' ∧
      st' = { st with
        dyna := { st.dyna with array := .block b', lastIndex := last }
        released := released }) := by
  unfold dynaDelete at h
  by_cases hl : st.dyna.lastIndex < i
  · rw [if_pos hl] at h
    obtain ⟨rfl, rfl⟩ := Runs.ok_pair_inj h
    exact .inl ⟨rfl, rfl⟩
  · rw [if_neg hl] at h
    obtain ⟨b, hb, h⟩ := Runs.bind_eq_ok.mp h
    obtain ⟨v, -, h⟩ := Runs.bind_eq_ok.mp h
    by_cases hv : v.isNone = true
    · rw [if_pos hv] at h
      obtain ⟨rfl, rfl⟩ := Runs.ok_pair_inj h
      exact .inl ⟨rfl, rfl⟩
    · rw [if_neg hv] at h
      obtain ⟨j, -, h⟩ := Runs.bind_eq_ok.mp h
      obtain ⟨w, -, h⟩ := Runs.bind_eq_ok.mp h
      obtain ⟨b', hw, h⟩ := Runs.bind_eq_ok.mp h
      obtain ⟨rfl, rfl⟩ := Runs.ok_pair_inj h
      exact .inr ⟨rfl, b, b', j, _, _, hb, hw, rfl⟩

/-- An insertion that finds the array long enough. -/
theorem dynaInsert_sameSpace {al : Allocator E} {fuel : Nat} {st st' : State E} {i : UInt32}
    {v : Option E} {m s : Dstatus} (hm : ¬ (m = .grow ∧ st.dyna.indexLength < i))
    (h : dynaInsert al fuel st i v m = .ok (s, st')) : SameSpace st st' := by
  rcases dynaInsert_cases h with ⟨-, hp⟩ | ⟨-, r, t, b, b', hp, hb, hw, rfl⟩
  · rw [prepare_stays hm hp]
    exact SameSpace.refl st'
  · obtain rfl := prepare_stays hm hp
    exact sameSpace_of_write hb hw rfl rfl rfl

theorem dynaDelete_sameSpace {st st' : State E} {i : UInt32} {s : Dstatus}
    (h : dynaDelete st i = .ok (s, st')) : SameSpace st st' := by
  rcases dynaDelete_cases h with ⟨-, rfl⟩ | ⟨-, b, b', j, last, released, hb, hw, rfl⟩
  · exact SameSpace.refl st'
  · exact sameSpace_of_write hb hw rfl rfl rfl

/-! ## Calls that move it -/

/-- Half of the memory is not enough for any length but 0. -/
theorem not_covers_resized (st : State E) (lib : Library E) {size : UInt32} (hs : size ≠ 0) :
    ¬ Covers (st.resized lib size) := by
  intro H
  have hle := H.asked
  rw [resized_indexLength, resized_asked, sizeofDataP, sizeofDataT] at hle
  have hpos : 0 < size.toNat := Nat.pos_of_ne_zero fun h0 => hs (UInt32.toNat_inj.mp h0)
  omega

theorem Lost.not_covers {st : State E} (h : Lost st) : ¬ Covers st := by
  intro H
  have hpos : 0 < st.dyna.indexLength.toNat :=
    Nat.pos_of_ne_zero fun h0 => h.indexLength (UInt32.toNat_inj.mp h0)
  obtain ⟨b, hb, -⟩ := H.slots 0 hpos
  exact h.array b hb

section Resizing

variable {al : Allocator E} {st : State E} {size : UInt32}

theorem dynaGrowTo_refused (hs : size ≤ st.dyna.indexLength) :
    dynaGrowTo al st size = .ok (.failure, st) := by
  rw [dynaGrowTo, if_pos hs]

theorem bytes_ne_zero (hs : st.dyna.indexLength < size) : sizeofDataT * size.toNat ≠ 0 := by
  intro h0
  rw [bytes_eq_zero.mp h0] at hs
  exact absurd hs (UInt32.not_lt.mpr UInt32.zero_le)

theorem dynaGrowTo_freed (hs : st.dyna.indexLength < size) (h : ¬ Live st) :
    dynaGrowTo al st size = .error .freedBlock := by
  rw [dynaGrowTo, if_neg (UInt32.not_le.mpr hs), realloc_freed h]
  rfl

theorem dynaGrowTo_given (hs : st.dyna.indexLength < size) (hlive : Live st)
    (hg : al.grants st.requests = true) :
    dynaGrowTo al st size = .ok (.success, st.resized al.toLibrary size) := by
  rw [dynaGrowTo, if_neg (UInt32.not_le.mpr hs),
    realloc_given hlive (gives_of_pos (bytes_ne_zero hs) hg)]
  rfl

theorem dynaGrowTo_denied (hs : st.dyna.indexLength < size) (hlive : Live st)
    (hg : al.grants st.requests = false) :
    ∃ st', dynaGrowTo al st size = .ok (.failure, st') ∧ st'.dyna.array = .null := by
  rw [dynaGrowTo, if_neg (UInt32.not_le.mpr hs),
    realloc_denied hlive hg fun h => bytes_ne_zero hs h.1]
  exact ⟨_, rfl, rfl⟩

/-- With one slot or none there is nothing to halve, and the array is gone. -/
theorem dynaShrink_drops (al : Allocator E) (hs : st.dyna.indexLength / 2 = 0) :
    dynaShrink al st = .ok (.failure, { st with dyna.array := .null }) := by
  simp only [dynaShrink, if_pos hs]

theorem dynaShrink_freed (hs : st.dyna.indexLength / 2 ≠ 0) (h : ¬ Live st) :
    dynaShrink al st = .error .freedBlock := by
  simp only [dynaShrink, if_neg hs, realloc_freed h, Runs.error_bind]

theorem dynaShrink_given (hs : st.dyna.indexLength / 2 ≠ 0) (hlive : Live st)
    (hg : al.grants st.requests = true) :
    dynaShrink al st =
      .ok (.success, st.resized al.toLibrary (st.dyna.indexLength / 2)) := by
  have hgives := gives_of_pos (fun h0 => hs (bytes_eq_zero.mp h0)) hg
  simp only [dynaShrink, if_neg hs, realloc_given hlive hgives]
  rfl

theorem dynaShrink_denied (hs : st.dyna.indexLength / 2 ≠ 0) (hlive : Live st)
    (hg : al.grants st.requests = false) :
    ∃ st', dynaShrink al st = .ok (.failure, st') ∧ st'.dyna.array = .null := by
  simp only [dynaShrink, if_neg hs, realloc_denied hlive hg fun h => hs (bytes_eq_zero.mp h.1)]
  exact ⟨_, rfl, rfl⟩

end Resizing

/-! ## Steps and runs -/

section Steps

variable {lib : Library E} {fuel : Nat} {st st' : State E} {c : Call E} {s : Dstatus}

/-- A growth that returns moved the array, or lost it to a request for 0 bytes. -/
theorem dynaStep_grow (h : dynaStep (granting lib) fuel st .grow = .ok (s, st')) :
    (¬ EmptyAt lib.emptyNull st 0 ∧ s = .success ∧
      st' = st.resized lib (nextLength st.dyna.indexLength)) ∨
    (EmptyAt lib.emptyNull st 0 ∧ s = .failure ∧ st' = st.emptied) := by
  rw [dynaStep] at h
  by_cases hlive : Live st
  · by_cases he : EmptyAt lib.emptyNull st 0
    · rw [dynaGrow_empty hlive he] at h
      obtain ⟨rfl, rfl⟩ := Runs.ok_pair_inj h
      exact .inr ⟨he, rfl, rfl⟩
    · rw [dynaGrow_given hlive rfl he] at h
      obtain ⟨rfl, rfl⟩ := Runs.ok_pair_inj h
      exact .inl ⟨he, rfl, rfl⟩
  · rw [dynaGrow_freed hlive] at h
    cases h

theorem dynaStep_growTo {size : UInt32} (hs : st.dyna.indexLength < size)
    (h : dynaStep (granting lib) fuel st (.growTo size) = .ok (s, st')) :
    st' = st.resized lib size := by
  rw [dynaStep] at h
  by_cases hlive : Live st
  · rw [dynaGrowTo_given hs hlive rfl] at h
    exact (Runs.ok_pair_inj h).2.symm
  · rw [dynaGrowTo_freed hs hlive] at h
    cases h

theorem dynaStep_growTo_refused {size : UInt32} (hs : ¬ st.dyna.indexLength < size)
    (h : dynaStep (granting lib) fuel st (.growTo size) = .ok (s, st')) : st' = st := by
  rw [dynaStep, dynaGrowTo_refused (UInt32.not_lt.mp hs)] at h
  exact (Runs.ok_pair_inj h).2.symm

theorem dynaStep_shrink (hs : st.dyna.indexLength / 2 ≠ 0)
    (h : dynaStep (granting lib) fuel st .shrink = .ok (s, st')) :
    st' = st.resized lib (st.dyna.indexLength / 2) := by
  rw [dynaStep] at h
  by_cases hlive : Live st
  · rw [dynaShrink_given hs hlive rfl] at h
    exact (Runs.ok_pair_inj h).2.symm
  · rw [dynaShrink_freed hs hlive] at h
    cases h

theorem dynaStep_shrink_drops (hs : st.dyna.indexLength / 2 = 0)
    (h : dynaStep (granting lib) fuel st .shrink = .ok (s, st')) :
    st' = { st with dyna.array := .null } := by
  rw [dynaStep, dynaShrink_drops _ hs] at h
  exact (Runs.ok_pair_inj h).2.symm

theorem dynaStep_covers (H : Covers st) (hc : ¬ Resizes lib st c)
    (h : dynaStep (granting lib) fuel st c = .ok (s, st')) : Covers st' := by
  cases c with
  | insert i v m => exact (dynaInsert_sameSpace hc h).covers H
  | delete i => exact (dynaDelete_sameSpace h).covers H
  | grow =>
    obtain ⟨hn, hnull⟩ := not_or.mp hc
    rcases dynaStep_grow h with ⟨-, -, rfl⟩ | ⟨he, -, -⟩
    · exact covers_of_length_zero (Classical.not_not.mp hn)
    · exact absurd (emptyAt_zero.mp he).2 hnull
  | growTo size =>
    rw [dynaStep_growTo_refused hc h]
    exact H
  | shrink =>
    have h0 : st.dyna.indexLength = 0 := UInt32.le_antisymm (UInt32.not_lt.mp hc) UInt32.zero_le
    have hs : st.dyna.indexLength / 2 = 0 := by
      rw [h0]
      rfl
    rw [dynaStep_shrink_drops hs h]
    exact covers_of_length_zero h0

theorem dynaStep_uncovers (hc : Resizes lib st c)
    (h : dynaStep (granting lib) fuel st c = .ok (s, st')) : ¬ Covers st' := by
  cases c with
  | insert i v m =>
    obtain ⟨rfl, hi⟩ := hc
    rw [dynaStep] at h
    rcases dynaInsert_grows lib fuel v hi with ⟨e, he⟩ | ⟨-, -, t, ht, hlost⟩
    · rw [he] at h
      cases h
    · rw [ht] at h
      rw [← (Runs.ok_pair_inj h).2]
      exact hlost.lost.not_covers
  | delete i => exact absurd hc id
  | grow =>
    rcases dynaStep_grow h with ⟨he, -, rfl⟩ | ⟨he, -, rfl⟩
    · apply not_covers_resized
      intro h0
      exact he ⟨h0, hc.resolve_left (not_not_intro h0)⟩
    · exact he.lost.not_covers
  | growTo size =>
    rw [dynaStep_growTo hc h]
    apply not_covers_resized
    intro h0
    rw [h0] at hc
    exact absurd hc (UInt32.not_lt.mpr UInt32.zero_le)
  | shrink =>
    by_cases hs : st.dyna.indexLength / 2 = 0
    · -- the length stays at 1, without an array
      rw [dynaStep_shrink_drops hs h]
      apply Lost.not_covers
      constructor
      case array =>
        intro b hb
        cases hb
      case indexLength => exact UInt32.pos_iff_ne_zero.mp hc
    · rw [dynaStep_shrink hs h]
      exact not_covers_resized st lib hs

end Steps

/-- The dyna that `dyna_init` makes: for the length 0 it may have no array. -/
structure Started (lib : Library E) (n : UInt32) (st : State E) : Prop where
  indexLength : st.dyna.indexLength = n
  lastIndex : st.dyna.lastIndex = 0
  asked : st.asked = sizeofDataP * n.toNat
  requests : st.requests = 2
  released : st.released = []
  array : st.dyna.array = .block ⟨sizeofDataP * n.toNat, lib.junk 1⟩ ∨
    (n = 0 ∧ st.dyna.array = .null)

theorem dynaInit_started (lib : Library E) (n : UInt32) :
    ∃ st, dynaInit (granting lib) n = .ok st ∧ Started lib n st := by
  refine ⟨_, rfl, rfl, rfl, rfl, rfl, rfl, ?_⟩
  by_cases hg : (granting lib).gives 1 (sizeofDataP * n.toNat) = true
  · left
    simp only [malloc, if_pos hg]
    rfl
  · -- only a request for 0 bytes can come to nothing
    right
    rw [gives_iff, not_and, Classical.not_not] at hg
    obtain ⟨h0, hnull⟩ := hg rfl
    have hn : n = 0 := by
      rw [← UInt32.toNat_inj, UInt32.toNat_zero]
      rw [sizeofDataP] at h0
      omega
    refine ⟨hn, ?_⟩
    have hno : (granting lib).gives 1 0 = false := by simp [Allocator.gives, hnull]
    simp only [malloc, h0, hno, Bool.false_eq_true, if_false]

namespace Started

variable {lib : Library E} {n : UInt32} {st : State E}

theorem live (h : Started lib n st) : Live st := by
  intro hfreed
  rcases h.array with hb | ⟨-, hb⟩
  · rw [hb] at hfreed
    cases hfreed
  · rw [hb] at hfreed
    cases hfreed

theorem covered_iff (h : Started lib n st) {i : Nat} : Covered st i ↔ i < n.toNat := by
  rcases h.array with hb | ⟨rfl, hb⟩
  · refine ⟨?_, ?_⟩
    · intro hc
      obtain ⟨b, hb', hc⟩ := hc
      rw [hb, IndexP.block.injEq] at hb'
      rw [← hb'] at hc
      exact Nat.le_of_mul_le_mul_left hc (by decide : 0 < sizeofDataP)
    · exact fun hi => ⟨_, hb, Nat.mul_le_mul_left sizeofDataP hi⟩
  · refine iff_of_false ?_ (Nat.not_lt_zero i)
    intro hc
    obtain ⟨b, hb', -⟩ := hc
    rw [hb] at hb'
    cases hb'

theorem get (h : Started lib n st) {i : UInt32} (hi : i < n) :
    dynaGet st i = .ok (lib.junk 1 i.toNat) := by
  obtain ⟨b, hb, hc⟩ := h.covered_iff.mpr (UInt32.lt_iff_toNat_lt.mp hi)
  rw [dynaGet_covered hb hc]
  rcases h.array with hb' | ⟨-, hb'⟩
  · rw [hb, IndexP.block.injEq] at hb'
    rw [hb']
  · rw [hb] at hb'
    cases hb'

theorem covers (h : Started lib n st) : Covers st := by
  constructor
  case asked => exact Nat.le_of_eq (by rw [h.asked, h.indexLength])
  case slots =>
    intro i hi
    rw [h.indexLength] at hi
    exact h.covered_iff.mpr hi

end Started

/-- From `dyna_init` with any length, the memory covers the declared length in every state
    of every run without a call that resizes; a run with one, if it gets to its end, passes
    through a state where it does not. -/
theorem dyna_memory_covered (lib : Library E) (fuel : Nat) (n : UInt32) (calls : List (Call E)) :
    ∃ st₀, dynaInit (granting lib) n = .ok st₀ ∧
      (Runs.Along (dynaStep (granting lib) fuel) (fun st c => ¬ Resizes lib st c) st₀ calls →
        Runs.Always (dynaStep (granting lib) fuel) Covers st₀ calls) ∧
      (∀ r, Runs.run (dynaStep (granting lib) fuel) st₀ calls = .ok r →
        Runs.Always (dynaStep (granting lib) fuel) Covers st₀ calls →
        Runs.Along (dynaStep (granting lib) fuel) (fun st c => ¬ Resizes lib st c) st₀ calls) := by
  obtain ⟨st₀, hinit, h₀⟩ := dynaInit_started lib n
  refine ⟨st₀, hinit, ?_, ?_⟩
  · intro hcalls
    exact hcalls.always (fun st c s st' H hc h => dynaStep_covers H hc h) h₀.covers
  · intro r hend halways
    exact halways.along (fun st c s st' _ H' h hc => dynaStep_uncovers hc h H') hend

/-- Ten slots grown to seventeen, in 68 bytes. -/
theorem dynaGrow_uncovers :
    ∃ st₀ st : State Unit, dynaInit (granting clean) 10 = .ok st₀ ∧
      Runs.run (dynaStep (granting clean) 0) st₀ [.grow] = .ok ([.success], st) ∧
      st.dyna.indexLength = 17 ∧ st.asked = 68 ∧ ¬ Covers st := by
  refine ⟨_, _, rfl, rfl, rfl, rfl, ?_⟩
  intro H
  have hle : sizeofDataP * (17 : UInt32).toNat ≤ 68 := H.asked
  exact absurd hle (by decide)

end DataMonkey.Dyna
