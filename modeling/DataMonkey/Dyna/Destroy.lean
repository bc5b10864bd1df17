import DataMonkey.Dyna.Growth

/- `dyna_destroy`, at the end of a run that fills an array and grows it.

   The call passes every slot that is not NULL to `custom_free`. But neither `malloc` nor
   `realloc` clears memory, so a slot that was never written holds what was there before; and
   after a growth half of the slots lie outside the block. A growth that asks for 0 bytes and
   gets NULL leaves an array that was freed, and whose slots are gone through all the same.

     1. `destroyLoop_spec`, `destroyLoop_reads` — what the loop passes on, and what it reads;
     2. `Fills.run` — a run that fills: every slot holds what was inserted last, or what was
        found there;
     3. `Fills.halved` — after a growth the block has half of its bytes;
     4. `dyna_destroy_exact_iff` — the runs at whose end exactly the inserted elements are
        released. -/
namespace DataMonkey.Dyna

variable {E : Type}

/-- `for(i=0; i<dyna->index_length; i++)`, from `i` with `n` slots to go. -/
def destroyLoop (st : State E) : Nat → Nat → List (Option E) → Except Fault (List (Option E))
  | 0, _, released => .ok released
  | n + 1, i, released => do
    let stuff ← dynaGet st (UInt32.ofNat i)
    destroyLoop st n (i + 1) (if stuff.isSome then stuff :: released else released)

/-- `if(dyna->array)free(dyna->array)`. -/
def freeArray (d : DynaArray E) : Except Fault Unit :=
  match d.array with
  | .freed => .error .freedBlock
  | _ => .ok ()

/-- With `custom_free` or with NULL in its place. The array and the structure are freed, and
    what is left is what `custom_free` was called with. -/
def dynaDestroy (st : State E) (customFree : Bool) : Except Fault (Dstatus × List (Option E)) := do
  let released ← if customFree then destroyLoop st st.dyna.indexLength.toNat 0 st.released
    else .ok st.released
  freeArray st.dyna
  .ok (.success, released)

/-- Insertions of elements below the length, and growths, from the length `n`. -/
def Fills : UInt32 → List (Call E) → Prop
  | _, [] => True
  | n, .insert i v _ :: calls => i < n ∧ v.isSome ∧ Fills n calls
  | n, .grow :: calls => Fills (nextLength n) calls
  | _, _ :: _ => False

def lengthAfter : UInt32 → List (Call E) → UInt32
  | n, [] => n
  | n, .grow :: calls => lengthAfter (nextLength n) calls
  | n, _ :: calls => lengthAfter n calls

def record (f : UInt32 → Option E) : Call E → UInt32 → Option E
  | .insert i v _ => fun j => if j = i then v else f j
  | _ => f

/-- The element last inserted at each index, `none` where there was no insertion. -/
def inserted (calls : List (Call E)) : UInt32 → Option E := calls.foldl record fun _ => none

/-- The run of the calls returns. After it, an index in bounds that nothing was inserted at
    reads NULL, and `dyna_destroy` calls `custom_free` with the inserted elements, one for
    each index, and with nothing else. -/
def Destroys (lib : Library E) (fuel : Nat) (n : UInt32) (calls : List (Call E)) :
    Prop :=
  ∃ st₀ os st released, dynaInit (granting lib) n = .ok st₀ ∧
    Runs.run (dynaStep (granting lib) fuel) st₀ calls = .ok (os, st) ∧
    (∀ i < st.dyna.indexLength, inserted calls i = none → dynaGet st i = .ok none) ∧
    (∀ i v, inserted calls i = some v → i < st.dyna.indexLength) ∧
    dynaDestroy st true = .ok (.success, released) ∧
    released.reverse = ((List.range st.dyna.indexLength.toNat).filterMap fun i =>
      inserted calls (UInt32.ofNat i)).map some

/-! ## The loop -/

/-- A loop that can read every slot passes on those that are not NULL, in order. -/
theorem destroyLoop_spec {st : State E} {f : Nat → Option E} (n i : Nat)
    (released : List (Option E))
    (h : ∀ j, i ≤ j → j < i + n → dynaGet st (UInt32.ofNat j) = .ok (f j)) :
    ∃ r, destroyLoop st n i released = .ok r ∧
      r.reverse = released.reverse ++ ((List.range' i n).filterMap f).map some := by
  induction n generalizing i released with
  | zero => exact ⟨released, rfl, by simp⟩
  | succ n ih =>
    have hget := h i (Nat.le_refl i) (by omega)
    obtain ⟨r, hrun, hr⟩ := ih (i + 1)
      (if (f i).isSome then f i :: released else released) fun j _ _ => h j (by omega) (by omega)
    refine ⟨r, ?_, ?_⟩
    · rw [destroyLoop, hget, Runs.ok_bind, hrun]
    · rw [hr, List.range'_succ, List.filterMap_cons]
      cases hf : f i with
      | none => simp
      | some v => simp

/-- A loop that returns has read every slot. -/
theorem destroyLoop_reads {st : State E} (n i : Nat) {released r : List (Option E)}
    (h : destroyLoop st n i released = .ok r) :
    ∀ j, i ≤ j → j < i + n → ∃ v, dynaGet st (UInt32.ofNat j) = .ok v := by
  induction n generalizing i released with
  | zero => exact fun j hij hj => absurd hij (by omega)
  | succ n ih =>
    obtain ⟨v, hv, hrest⟩ := Runs.bind_eq_ok.mp h
    intro j hij hj
    by_cases hji : j = i
    · exact ⟨v, by rw [hji, hv]⟩
    · exact ih (i + 1) hrest j (by omega) (by omega)

theorem freeArray_eq_ok {st : State E} : freeArray st.dyna = .ok () ↔ Live st := by
  unfold freeArray Live
  cases st.dyna.array with
  | null => simp
  | freed => simp
  | block b => simp

theorem dynaDestroy_eq_ok {st : State E} {r : List (Option E)} :
    dynaDestroy st true = .ok (.success, r) ↔
      destroyLoop st st.dyna.indexLength.toNat 0 st.released = .ok r ∧ Live st := by
  refine ⟨?_, ?_⟩
  · intro h
    obtain ⟨r', hrun, h⟩ := Runs.bind_eq_ok.mp h
    obtain ⟨_, hfree, hr⟩ := Runs.bind_eq_ok.mp h
    rw [← (Runs.ok_pair_inj hr).2]
    exact ⟨hrun, freeArray_eq_ok.mp hfree⟩
  · intro h
    rw [dynaDestroy, if_pos rfl, h.1, freeArray_eq_ok.mpr h.2]
    rfl

/-! ## The calls -/

section Calls

variable {lib : Library E} {fuel : Nat} {n i : UInt32} {v : Option E} {m : Dstatus}
  {past calls : List (Call E)} {st st' : State E} {s : Dstatus} {os : List Dstatus}

theorem inserted_snoc (past : List (Call E)) (c : Call E) :
    inserted (past ++ [c]) = record (inserted past) c := by
  rw [inserted, List.foldl_append]
  rfl

theorem inserted_insert (past : List (Call E)) (i : UInt32) (v : Option E) (m : Dstatus)
    (j : UInt32) :
    inserted (past ++ [.insert i v m]) j = if j = i then v else inserted past j := by
  rw [inserted_snoc]
  rfl

/-- An index that is inserted at stays so. -/
theorem inserted_isSome (hset : ∀ i v m, .insert i v m ∈ calls → v.isSome)
    (hmem : .insert i v m ∈ calls) : (inserted calls i).isSome := by
  induction calls using List.reverseRecOn with
  | nil => cases hmem
  | append_singleton past c ih =>
    have hpast := fun i v m h => hset i v m (List.mem_append_left [c] h)
    rw [inserted_snoc]
    rcases List.mem_append.mp hmem with h | h
    · have hold := ih hpast h
      cases c with
      | insert j w m' =>
        have hw := hset j w m' (List.mem_append_right past (List.mem_singleton.mpr rfl))
        show (if i = j then w else inserted past i).isSome
        split
        · exact hw
        · exact hold
      | delete j => exact hold
      | grow => exact hold
      | growTo size => exact hold
      | shrink => exact hold
    · obtain rfl := List.mem_singleton.mp h
      show (if i = i then v else inserted past i).isSome
      rw [if_pos rfl]
      exact hset i v m (List.mem_append_right past (List.mem_singleton.mpr rfl))

theorem inserted_grows (h : ∀ c ∈ calls, c = .grow) : inserted calls = fun _ => none := by
  induction calls using List.reverseRecOn with
  | nil => rfl
  | append_singleton past c ih =>
    rw [inserted_snoc, h c (List.mem_append_right past (List.mem_singleton.mpr rfl))]
    exact ih fun c hc => h c (List.mem_append_left _ hc)

/-- Without a growth: each slot holds what was inserted last, or what was found in it. -/
structure Filled (lib : Library E) (n : UInt32) (past : List (Call E)) (st : State E) : Prop where
  live : Live st
  indexLength : st.dyna.indexLength = n
  released : st.released = []
  inside : ∀ i v, inserted past i = some v → i < n
  get : ∀ i < n, dynaGet st i = .ok ((inserted past i).or (lib.junk 1 i.toNat))

theorem Filled.insert (fuel : Nat) (h : Filled lib n past st) (hi : i < n) (hv : v.isSome)
    (m : Dstatus) : ∃ st', dynaStep (granting lib) (fuel + 1) st (.insert i v m) =
      .ok (.success, st') ∧ Filled lib n (past ++ [.insert i v m]) st' := by
  have hle : ¬ st.dyna.indexLength < i := by
    rw [h.indexLength]
    exact UInt32.not_lt.mpr (UInt32.le_of_lt hi)
  obtain ⟨b, hb, hcov, -⟩ := dynaGet_eq_ok.mp (h.get i hi)
  obtain ⟨st', hrun, hp⟩ := dynaInsert_covered (v := v)
    (prepare_below (granting lib) fuel m hle) ⟨b, hb, hcov⟩
  refine ⟨st', hrun, ?_⟩
  constructor
  case live =>
    obtain ⟨b', hb', -, -⟩ := dynaGet_eq_ok.mp hp.get
    exact live_of_block ⟨b', hb'⟩
  case indexLength => rw [hp.indexLength, h.indexLength]
  case released => rw [hp.released, h.released]
  case inside =>
    intro j w hw
    rw [inserted_insert] at hw
    by_cases hji : j = i
    · rw [hji]
      exact hi
    · rw [if_neg hji] at hw
      exact h.inside j w hw
  case get =>
    intro j hj
    rw [inserted_insert]
    by_cases hji : j = i
    · obtain ⟨w, rfl⟩ := Option.isSome_iff_exists.mp hv
      rw [if_pos hji, hji, hp.get, Option.some_or]
    · rw [hp.others j hji, if_neg hji, h.get j hj]

theorem Fills.run (fuel : Nat) (hfills : Fills n calls) (hgrow : .grow ∉ calls)
    (h : Filled lib n past st) :
    ∃ os st', Runs.run (dynaStep (granting lib) (fuel + 1)) st calls = .ok (os, st') ∧
      Filled lib n (past ++ calls) st' := by
  induction calls generalizing past st with
  | nil => exact ⟨[], st, rfl, by rw [List.append_nil]; exact h⟩
  | cons c calls ih =>
    obtain ⟨hc, hrest⟩ := not_or.mp (mt List.mem_cons.mpr hgrow)
    cases c with
    | insert i v m =>
      obtain ⟨hi, hv, hfills⟩ := hfills
      obtain ⟨t, hstep, ht⟩ := h.insert fuel hi hv m
      obtain ⟨os, st', hrun, h'⟩ := ih hfills hrest ht
      refine ⟨.success :: os, st', Runs.run_cons_ok.mpr ⟨_, t, os, hstep, hrun, rfl⟩, ?_⟩
      rw [List.append_cons]
      exact h'
    | grow => exact absurd rfl hc
    | delete i => exact absurd hfills id
    | growTo size => exact absurd hfills id
    | shrink => exact absurd hfills id

/-- The calls of a run that fills. -/
theorem Fills.grow_or_insert (hfills : Fills n calls) :
    ∀ c ∈ calls, c = .grow ∨ ∃ i v m, c = .insert i v m ∧ v.isSome := by
  induction calls generalizing n with
  | nil => exact fun c h => absurd h List.not_mem_nil
  | cons d calls ih =>
    intro c hmem
    cases d with
    | insert j w m' =>
      rcases List.mem_cons.mp hmem with h | h
      · exact .inr ⟨j, w, m', h, hfills.2.1⟩
      · exact ih hfills.2.2 c h
    | grow =>
      rcases List.mem_cons.mp hmem with h | h
      · exact .inl h
      · exact ih hfills c h
    | delete j => exact absurd hfills id
    | growTo size => exact absurd hfills id
    | shrink => exact absurd hfills id

theorem Fills.isSome (hfills : Fills n calls) :
    ∀ i v m, .insert i v m ∈ calls → v.isSome := by
  intro i v m hmem
  rcases hfills.grow_or_insert _ hmem with h | ⟨j, w, m', h, hw⟩
  · cases h
  · obtain ⟨rfl, rfl, rfl⟩ := Call.insert.inj h
    exact hw

/-- The block has half of the bytes that the length needs. -/
def Halved (st : State E) : Prop :=
  ∃ b, st.dyna.array = .block b ∧ b.bytes = sizeofDataT * st.dyna.indexLength.toNat

/-- So its last slot cannot be read. -/
theorem Halved.not_covered (h : Halved st) (hlen : st.dyna.indexLength.toNat ≠ 0) :
    ¬ Covered st (st.dyna.indexLength.toNat - 1) := by
  intro hc
  obtain ⟨b, hb, hcov⟩ := hc
  obtain ⟨d, hd, hbytes⟩ := h
  rw [hb, IndexP.block.injEq] at hd
  rw [Block.covers, hd, hbytes, sizeofDataP, sizeofDataT] at hcov
  have hpos := Nat.pos_of_ne_zero hlen
  omega

theorem Halved.sameSpace (h : Halved st) (hs : SameSpace st st') : Halved st' := by
  obtain ⟨b, hb, hbytes⟩ := h
  have hsize := hs.bytes
  rw [hb] at hsize
  obtain ⟨b', hb', he⟩ := bytes_eq_some.mp hsize
  exact ⟨b', hb', by rw [he, hbytes, hs.indexLength]⟩

theorem halved_resized (st : State E) (lib : Library E) (size : UInt32) :
    Halved (st.resized lib size) :=
  ⟨_, resized_array st lib size, moved_bytes st lib _⟩

/-- There is a block, or the length is 0. -/
def Backed (st : State E) : Prop := (∃ b, st.dyna.array = .block b) ∨ st.dyna.indexLength = 0

theorem Backed.sameSpace (h : Backed st) (hs : SameSpace st st') : Backed st' := by
  rcases h with ⟨b, hb⟩ | h
  · have hsize := hs.bytes
    rw [hb] at hsize
    obtain ⟨b', hb', -⟩ := bytes_eq_some.mp hsize
    exact .inl ⟨b', hb'⟩
  · exact .inr (hs.indexLength.trans h)

/-- Without its block an array cannot be grown again. -/
theorem Backed.freed (h : Backed st) (he : EmptyAt lib.emptyNull st 0) : ¬ Live st.emptied := by
  rcases h with ⟨b, hb⟩ | h
  · apply not_not_intro
    rw [State.emptied, hb]
    rfl
  · exact absurd h he.lost.indexLength

/-- The end of a run that fills and grows: the array was grown, or it was lost. -/
theorem Fills.halved (hfills : Fills n calls) (hlen : st.dyna.indexLength = n) (hback : Backed st)
    (hrun : Runs.run (dynaStep (granting lib) fuel) st calls = .ok (os, st')) :
    Lost st' ∨ (st'.dyna.indexLength = lengthAfter n calls ∧
      (Halved st ∨ .grow ∈ calls → Halved st')) := by
  induction calls generalizing st n os with
  | nil =>
    obtain ⟨-, rfl⟩ := Runs.ok_pair_inj hrun
    exact .inr ⟨hlen, fun h => h.resolve_right List.not_mem_nil⟩
  | cons c calls ih =>
    obtain ⟨o, t, rest, hstep, hrest, -⟩ := Runs.run_cons_ok.mp hrun
    cases c with
    | insert i v m =>
      obtain ⟨hi, -, hfills⟩ := hfills
      have hm : ¬ (m = .grow ∧ st.dyna.indexLength < i) := by
        intro h
        obtain ⟨-, hlt⟩ := h
        rw [hlen] at hlt
        exact UInt32.lt_asymm hi hlt
      have hs := dynaInsert_sameSpace hm hstep
      refine (ih hfills (hs.indexLength.trans hlen) (hback.sameSpace hs) hrest).imp id ?_
      intro h
      obtain ⟨hlen', hhalf⟩ := h
      refine ⟨hlen', fun h => hhalf ?_⟩
      rcases h with h | h
      · exact .inl (h.sameSpace hs)
      · exact .inr ((List.mem_cons.mp h).resolve_left (by simp))
    | grow =>
      rcases dynaStep_grow hstep with ⟨-, -, rfl⟩ | ⟨he, -, rfl⟩
      · refine (ih hfills (by rw [resized_indexLength, hlen]) (.inl ⟨_, resized_array st _ _⟩)
          hrest).imp id ?_
        intro h
        obtain ⟨hlen', hhalf⟩ := h
        exact ⟨hlen', fun _ => hhalf (.inl (halved_resized st lib _))⟩
      · -- after the answer NULL no other call returns: there is no index below the length 0
        have h0 : nextLength n = 0 := by
          rw [← hlen]
          exact (emptyAt_zero.mp he).1
        cases calls with
        | nil =>
          obtain ⟨-, rfl⟩ := Runs.ok_pair_inj hrest
          exact .inl he.lost
        | cons d calls =>
          obtain ⟨o', t, rest, hstep', -, -⟩ := Runs.run_cons_ok.mp hrest
          cases d with
          | insert i v m =>
            have hi : i < nextLength n := hfills.1
            rw [h0] at hi
            exact absurd hi (UInt32.not_lt.mpr UInt32.zero_le)
          | grow =>
            rw [dynaStep, dynaGrow_freed (hback.freed he)] at hstep'
            cases hstep'
          | delete i => exact absurd hfills id
          | growTo size => exact absurd hfills id
          | shrink => exact absurd hfills id
    | delete i => exact absurd hfills id
    | growTo size => exact absurd hfills id
    | shrink => exact absurd hfills id

theorem lengthAfter_replicate (k : Nat) (n : UInt32) :
    lengthAfter n (List.replicate k (.grow : Call E)) = nextLength^[k] n := by
  induction k generalizing n with
  | zero => rfl
  | succ k ih => exact ih (nextLength n)

/-- Growths of which the last one loses the array. -/
theorem run_grow_lost (lib : Library E) (fuel k : Nat) (hlive : Live st)
    (he : EmptyAt lib.emptyNull st k) :
    ∃ os t, Runs.run (dynaStep (granting lib) fuel) st (List.replicate (k + 1) .grow) =
      .ok (os, t) ∧ Lost t := by
  have hfirst := run_grow lib fuel k hlive fun m hm h =>
    absurd (emptyAt_unique he.1 h) (Nat.ne_of_lt hm)
  have hat := (emptyAt_grownBy lib k st).mpr he
  have hlast : dynaStep (granting lib) fuel (grownBy lib k st) .grow =
      .ok (.failure, (grownBy lib k st).emptied) :=
    dynaGrow_empty (grownBy_live lib k hlive) hat
  have hrun := Runs.run_append_ok.mpr
    ⟨_, _, _, hfirst, Runs.run_singleton_ok.mpr ⟨_, hlast, rfl⟩, rfl⟩
  rw [← List.replicate_succ'] at hrun
  exact ⟨_, _, hrun, hat.lost⟩

end Calls

/-! ## What is released -/

section Destroy

variable {lib : Library E} {fuel : Nat} {n : UInt32} {calls : List (Call E)} {st : State E}

/-- The array after `dyna_init`, before anything is inserted. -/
theorem Started.filled (h : Started lib n st) : Filled lib n [] st where
  live := h.live
  indexLength := h.indexLength
  released := h.released
  inside := fun i v hv => by cases hv
  get := fun i hi => h.get hi

theorem Started.backed (h : Started lib n st) : Backed st := by
  rcases h.array with hb | ⟨rfl, -⟩
  · exact .inl ⟨_, hb⟩
  · exact .inr h.indexLength

theorem toNat_slot {i : Nat} (hi : i < n.toNat) : (UInt32.ofNat i).toNat = i :=
  UInt32.toNat_ofNat_of_lt' (Nat.lt_trans hi n.toNat_lt)

/-- What a destruction releases where each slot holds `f`. -/
theorem dynaDestroy_spec {f : UInt32 → Option E} (hlive : Live st) (hrel : st.released = [])
    (hget : ∀ i < st.dyna.indexLength, dynaGet st i = .ok (f i)) :
    ∃ released, dynaDestroy st true = .ok (.success, released) ∧
      released.reverse = ((List.range st.dyna.indexLength.toNat).filterMap fun i =>
        f (UInt32.ofNat i)).map some := by
  obtain ⟨r, hrun, hr⟩ := destroyLoop_spec (f := fun i => f (UInt32.ofNat i))
    st.dyna.indexLength.toNat 0 st.released fun j _ hj => by
      rw [Nat.zero_add] at hj
      apply hget
      rw [UInt32.lt_iff_toNat_lt, toNat_slot hj]
      exact hj
  refine ⟨r, dynaDestroy_eq_ok.mpr ⟨hrun, hlive⟩, ?_⟩
  rw [hr, hrel, List.range_eq_range']
  rfl

/-- A destruction that returns could read every slot. -/
theorem dynaDestroy_reads {r : List (Option E)} (h : dynaDestroy st true = .ok (.success, r))
    {i : Nat} (hi : i < st.dyna.indexLength.toNat) : Covered st i := by
  obtain ⟨v, hv⟩ := destroyLoop_reads _ _ (dynaDestroy_eq_ok.mp h).1 i (Nat.zero_le _)
    (by rw [Nat.zero_add]; exact hi)
  obtain ⟨b, hb, hcov, -⟩ := dynaGet_eq_ok.mp hv
  rw [toNat_slot hi] at hcov
  exact ⟨b, hb, hcov⟩

theorem Halved.not_destroyed (h : Halved st) (hlen : st.dyna.indexLength.toNat ≠ 0)
    (r : List (Option E)) : dynaDestroy st true ≠ .ok (.success, r) :=
  fun hdestroy => h.not_covered hlen (dynaDestroy_reads hdestroy (Nat.pred_lt hlen))

theorem Lost.not_destroyed (h : Lost st) (r : List (Option E)) :
    dynaDestroy st true ≠ .ok (.success, r) := by
  intro hdestroy
  have hpos : 0 < st.dyna.indexLength.toNat :=
    Nat.pos_of_ne_zero fun h0 => h.indexLength (UInt32.toNat_inj.mp h0)
  obtain ⟨b, hb, -⟩ := dynaDestroy_reads hdestroy hpos
  exact h.array b hb

/-- Without a growth it depends on what `malloc` returned. -/
theorem destroys_filled_iff (hfills : Fills n calls) (hgrow : .grow ∉ calls) :
    Destroys lib (fuel + 1) n calls ↔
      ∀ i < n, inserted calls i = none → lib.junk 1 i.toNat = none := by
  obtain ⟨st₀, hinit, h₀⟩ := dynaInit_started lib n
  obtain ⟨os, st, hrun, h⟩ := hfills.run fuel hgrow h₀.filled
  rw [List.nil_append] at h
  refine ⟨?_, ?_⟩
  · intro hd
    obtain ⟨t₀, ps, t, released, hinit', hrun', hempty, -⟩ := hd
    intro i hi hnone
    obtain rfl := Except.ok.inj (hinit.symm.trans hinit')
    obtain ⟨-, rfl⟩ := Runs.ok_pair_inj (hrun.symm.trans hrun')
    have hread := hempty i (by rw [h.indexLength]; exact hi) hnone
    rw [h.get i hi, hnone, Option.none_or] at hread
    exact Except.ok.inj hread
  · intro hjunk
    -- nothing is found in the slots that were not written
    have hget : ∀ i < st.dyna.indexLength, dynaGet st i = .ok (inserted calls i) := by
      intro i hi
      rw [h.indexLength] at hi
      rw [h.get i hi]
      cases hv : inserted calls i with
      | none => rw [Option.none_or, hjunk i hi hv]
      | some v => rw [Option.some_or]
    obtain ⟨released, hdestroy, hr⟩ := dynaDestroy_spec h.live h.released hget
    refine ⟨st₀, os, st, released, hinit, hrun, ?_, ?_, hdestroy, hr⟩
    · intro i hi hnone
      rw [hget i hi, hnone]
    · intro i v hv
      rw [h.indexLength]
      exact h.inside i v hv

/-- After a growth it can only be exact for an array of no slots, which never held anything, and
    for which 0 bytes were answered with a block. -/
theorem destroys_grown_iff (hfills : Fills n calls) (hgrow : .grow ∈ calls) :
    Destroys lib (fuel + 1) n calls ↔ lengthAfter n calls = 0 ∧ (∀ c ∈ calls, c = .grow) ∧
      lib.emptyNull (calls.length + 1) = false := by
  obtain ⟨st₀, hinit, h₀⟩ := dynaInit_started lib n
  -- a run of growths is one growth more than some number of growths
  obtain ⟨k, hk⟩ : ∃ k, calls.length = k + 1 :=
    Nat.exists_eq_succ_of_ne_zero (Nat.ne_of_gt (List.length_pos_of_mem hgrow))
  have hnum : calls.length + 1 = st₀.requests + k := by
    rw [hk, h₀.requests]
    omega
  have hgrows : lengthAfter n calls = 0 → (∀ c ∈ calls, c = .grow) →
      calls = List.replicate (k + 1) .grow ∧ nextLength^[k + 1] st₀.dyna.indexLength = 0 := by
    intro hlen0 hall
    have hcalls := List.eq_replicate_iff.mpr ⟨hk, hall⟩
    rw [hcalls, lengthAfter_replicate] at hlen0
    exact ⟨hcalls, by rw [h₀.indexLength]; exact hlen0⟩
  refine ⟨?_, ?_⟩
  · intro h
    obtain ⟨t₀, os, st, released, hinit', hrun, -, hin, hdestroy, -⟩ := h
    obtain rfl := Except.ok.inj (hinit.symm.trans hinit')
    rcases hfills.halved h₀.indexLength h₀.backed hrun with hlost | ⟨hlen, hhalf⟩
    · exact absurd hdestroy (hlost.not_destroyed released)
    have hzero : st.dyna.indexLength.toNat = 0 := by
      by_contra hne
      exact (hhalf (.inr hgrow)).not_destroyed hne released hdestroy
    have hlen0 : lengthAfter n calls = 0 := hlen.symm.trans (UInt32.toNat_inj.mp hzero)
    have hall : ∀ c ∈ calls, c = .grow := by
      intro c hc
      -- an element that was inserted would have to lie below the length 0
      rcases hfills.grow_or_insert c hc with h | ⟨i, v, m, rfl, -⟩
      · exact h
      · obtain ⟨w, hw⟩ := Option.isSome_iff_exists.mp (inserted_isSome hfills.isSome hc)
        have hlt := UInt32.lt_iff_toNat_lt.mp (hin i w hw)
        exact absurd hlt (by omega)
    refine ⟨hlen0, hall, ?_⟩
    obtain ⟨hcalls, hnext⟩ := hgrows hlen0 hall
    by_contra hnull
    rw [Bool.not_eq_false, hnum] at hnull
    obtain ⟨ps, t, hrun', hlost⟩ := run_grow_lost lib (fuel + 1) k h₀.live ⟨hnext, hnull⟩
    rw [hcalls] at hrun
    obtain ⟨-, rfl⟩ := Runs.ok_pair_inj (hrun.symm.trans hrun')
    exact hlost.not_destroyed released hdestroy
  · intro h
    obtain ⟨hlen0, hall, hnull⟩ := h
    obtain ⟨hcalls, hnext⟩ := hgrows hlen0 hall
    have hrun := run_grow lib (fuel + 1) (k + 1) h₀.live fun m _ hm => by
      have hmk := emptyAt_unique hnext hm
      rw [EmptyAt, hmk, ← hnum, hnull] at hm
      cases hm.2
    have hempty : ∀ i, ¬ i < (grownBy lib (k + 1) st₀).dyna.indexLength := by
      intro i hi
      rw [grownBy_indexLength, hnext] at hi
      exact absurd hi (UInt32.not_lt.mpr UInt32.zero_le)
    obtain ⟨released, hdestroy, hr⟩ := dynaDestroy_spec (f := inserted calls)
      (grownBy_live lib (k + 1) h₀.live) ((grownBy_released lib (k + 1) st₀).trans h₀.released)
      fun i hi => absurd hi (hempty i)
    rw [← hcalls] at hrun
    refine ⟨st₀, _, _, released, hinit, hrun, fun i hi => absurd hi (hempty i), ?_, hdestroy, hr⟩
    intro i v hv
    rw [inserted_grows hall] at hv
    cases hv

end Destroy

/-- For every run that fills an array and grows it, and whatever lies in fresh memory: the
    destruction releases exactly the stored elements iff the array was never grown and every
    slot that was never written was found NULL, or if nothing was stored, the last growth
    wrapped round to the length 0 and its request for 0 bytes was answered with a block. -/
theorem dyna_destroy_exact_iff (lib : Library E) (fuel : Nat) {n : UInt32}
    {calls : List (Call E)} (hfills : Fills n calls) :
    Destroys lib (fuel + 1) n calls ↔
      (.grow ∉ calls ∧ ∀ i < n, inserted calls i = none → lib.junk 1 i.toNat = none) ∨
      (.grow ∈ calls ∧ lengthAfter n calls = 0 ∧ (∀ c ∈ calls, c = .grow) ∧
        lib.emptyNull (calls.length + 1) = false) := by
  by_cases hgrow : .grow ∈ calls
  · rw [destroys_grown_iff hfills hgrow]
    exact ⟨fun h => .inr ⟨hgrow, h⟩, fun h => (h.resolve_left fun h => h.1 hgrow).2⟩
  · rw [destroys_filled_iff hfills hgrow]
    exact ⟨fun h => .inl ⟨hgrow, h⟩, fun h => (h.resolve_right fun h => hgrow h.1).2⟩

/-- Three slots, of which two are written: what was found in these is gone, and the one between
    them was found NULL. -/
theorem dyna_destroy_exact_three :
    Destroys ⟨fun _ => true, fun _ i => if i = 1 then none else some false, fun _ _ => some false⟩
      1 3 [.insert 0 (some true) .check, .insert 2 (some true) .grow] := by
  have hfills : Fills 3 [.insert 0 (some true) .check, .insert 2 (some true) .grow] :=
    ⟨by decide, rfl, by decide, rfl, trivial⟩
  refine (dyna_destroy_exact_iff _ 0 hfills).mpr (.inl ⟨by simp, ?_⟩)
  intro i hi hnone
  have hi3 : i.toNat < 3 := UInt32.lt_iff_toNat_lt.mp hi
  obtain rfl | rfl | rfl : i = 0 ∨ i = 1 ∨ i = 2 := by
    simp only [← UInt32.toNat_inj, UInt32.reduceToNat]
    omega
  · cases hnone
  · rfl
  · cases hnone

/-- Two slots, of which one is written: what `malloc` left in the other is released too. And
    with clean memory, two slots grown to five cannot be gone through. -/
theorem dyna_destroy_garbage :
    (∃ st₀ os st, dynaInit (granting { clean with junk := fun _ _ => some false }) 2 = .ok st₀ ∧
      Runs.run (dynaStep (granting { clean with junk := fun _ _ => some false }) 1) st₀
        [.insert 0 (some true) .check] = .ok (os, st) ∧
      dynaGet st 1 = .ok (some false) ∧
      dynaDestroy st true = .ok (.success, [some false, some true]) ∧
      ¬ Destroys { clean with junk := fun _ _ => some false } 1 2
        [.insert 0 (some true) .check]) ∧
    ∃ st₀ os st, dynaInit (granting (clean : Library Bool)) 2 = .ok st₀ ∧
      Runs.run (dynaStep (granting clean) 1) st₀ [.grow] = .ok (os, st) ∧
      dynaDestroy st true = .error .slotBound ∧ ¬ Destroys (clean : Library Bool) 1 2 [.grow] := by
  refine ⟨?_, ?_⟩
  · refine ⟨_, _, _, rfl, rfl, rfl, rfl, fun h => ?_⟩
    have hfills : Fills 2 [.insert 0 (some true) .check] := ⟨by decide, rfl, trivial⟩
    cases (destroys_filled_iff hfills (by simp)).mp h 1 (by decide) rfl
  · refine ⟨_, _, _, rfl, rfl, rfl, fun h => ?_⟩
    have hfills : Fills 2 [(.grow : Call Bool)] := trivial
    have hlen := ((destroys_grown_iff hfills (by simp)).mp h).1
    exact absurd hlen (by decide)

end DataMonkey.Dyna
