import DataMonkey.Dyna.Memory

/- What one growth does to the length and to the elements.

   The new length is computed modulo 2^32, and the block that goes with it has half of the
   bytes it needs. So a growth makes the array longer, and keeps its elements, only up to a
   bound in each case, and the loop of `dyna_insert` may go round for ever. From the length
   that wraps to 0 the library may also answer with NULL, which frees the array:

     1. `lt_nextLength_iff` — the new length is larger up to the length that wraps to 0;
     2. `iterate_eq_zero_iff` — the lengths that come to that one;
     3. `reaches_of_le`, `reaches_all_iff` — the indices that repeated growth gets to;
     4. `resized_get_iff` — the elements that a resize keeps;
     5. `run_grow` — several growths;
     6. `dyna_growth_iff` — when a growth advances and keeps everything, and when the loop
        stops, for every state. -/
namespace DataMonkey.Dyna

variable {E : Type}

/-! ## The new length -/

/-- The first length that wraps: `n + n / 8 + 6` is 2^32 there. -/
def wrapLength : Nat := 3817748703

/-- Below it the sum is the new length; from there on it wraps, exactly once. -/
theorem nextLength_cases (n : UInt32) :
    (n.toNat < wrapLength ∧
      (nextLength n).toNat = n.toNat / 8 + (if n.toNat < 9 then 3 else 6) + n.toNat) ∨
    (wrapLength ≤ n.toNat ∧ (nextLength n).toNat + 2 ^ 32 = n.toNat / 8 + 6 + n.toNat) := by
  have hn := n.toNat_lt
  rw [nextLength_toNat]
  by_cases h : n.toNat < wrapLength
  · refine .inl ⟨h, Nat.mod_eq_of_lt ?_⟩
    simp only [wrapLength] at h
    split <;> omega
  · have hle : wrapLength ≤ n.toNat := Nat.le_of_not_lt h
    refine .inr ⟨hle, ?_⟩
    simp only [wrapLength] at hle
    rw [if_neg (by omega), Nat.mod_eq_sub_mod (by omega), Nat.mod_eq_of_lt (by omega)]
    omega

theorem nextLength_of_lt {n : UInt32} (h : n.toNat < wrapLength) :
    n.toNat < (nextLength n).toNat := by
  rcases nextLength_cases n with ⟨-, heq⟩ | ⟨hle, -⟩
  · rw [heq]
    split <;> omega
  · exact absurd h (Nat.not_lt.mpr hle)

theorem nextLength_of_le {n : UInt32} (h : wrapLength ≤ n.toNat) :
    (nextLength n).toNat < n.toNat := by
  have hn := n.toNat_lt
  rcases nextLength_cases n with ⟨hlt, -⟩ | ⟨-, heq⟩
  · exact absurd hlt (Nat.not_lt.mpr h)
  · omega

theorem lt_nextLength_iff {n : UInt32} : n < nextLength n ↔ n.toNat < wrapLength := by
  rw [UInt32.lt_iff_toNat_lt]
  refine ⟨?_, ?_⟩
  · intro h
    apply Nat.lt_of_not_le
    intro hle
    exact Nat.lt_asymm h (nextLength_of_le hle)
  · exact nextLength_of_lt

theorem le_nextLength_iff {n : UInt32} : n ≤ nextLength n ↔ n.toNat < wrapLength := by
  rw [← lt_nextLength_iff]
  refine ⟨?_, ?_⟩
  · intro h
    apply lt_nextLength_iff.mpr
    apply Nat.lt_of_not_le
    intro hle
    exact Nat.not_lt.mpr (UInt32.le_iff_toNat_le.mp h) (nextLength_of_le hle)
  · exact UInt32.le_of_lt

/-- The lengths that grow to the first one that wraps, by the number of growths that takes. -/
def toTheWrap : List UInt32 := [3817748703, 3393554398, 3016492793, 2681326922]

/-- A length that grows to one of them is the next one. -/
theorem getElem_toTheWrap_succ {n : UInt32} (k : Nat) :
    toTheWrap[k]? = some (nextLength n) ↔ toTheWrap[k + 1]? = some n := by
  have hn := n.toNat_lt
  have hnext : (nextLength n).toNat = n.toNat / 8 + 6 + n.toNat ∨
      (n.toNat < 9 ∧ (nextLength n).toNat < 20) ∨
      (nextLength n).toNat + 2 ^ 32 = n.toNat / 8 + 6 + n.toNat := by
    rcases nextLength_cases n with ⟨-, heq⟩ | ⟨-, heq⟩
    · split at heq
      · omega
      · exact .inl heq
    · exact .inr (.inr heq)
  match k with
  | 0 | 1 | 2 | 3 =>
    simp only [toTheWrap, List.getElem?_cons_zero, List.getElem?_cons_succ, List.getElem?_nil,
      Nat.reduceAdd, Option.some.injEq, reduceCtorEq, ← UInt32.toNat_inj, UInt32.reduceToNat,
      iff_false]
    omega
  | k + 4 => simp [toTheWrap]

/-- Growing comes to the length 0 from these lengths only, and only once. -/
theorem iterate_eq_zero_iff {n : UInt32} (k : Nat) :
    nextLength^[k + 1] n = 0 ↔ toTheWrap[k]? = some n := by
  induction k generalizing n with
  | zero =>
    have hn := n.toNat_lt
    rw [Function.iterate_one, toTheWrap, List.getElem?_cons_zero, Option.some.injEq]
    rw [← UInt32.toNat_inj, ← UInt32.toNat_inj]
    simp only [UInt32.reduceToNat]
    rcases nextLength_cases n with ⟨hlt, heq⟩ | ⟨hle, heq⟩
    · rw [wrapLength] at hlt
      split at heq
      · omega
      · omega
    · omega
  | succ k ih => rw [Function.iterate_succ_apply, ih, getElem_toTheWrap_succ]

/-- Up to that length every index is reached: the lengths rise until they get there. -/
theorem reaches_of_le {i : UInt32} (hi : i.toNat ≤ wrapLength) (n : UInt32) : Reaches n i := by
  induction hd : i.toNat - n.toNat using Nat.strongRecOn generalizing n with
  | ind d ih =>
    by_cases h : i ≤ n
    · exact ⟨0, h⟩
    · have hlt : n.toNat < i.toNat := UInt32.lt_iff_toNat_lt.mp (UInt32.not_le.mp h)
      have hnext := nextLength_of_lt (n := n) (by omega)
      obtain ⟨k, hk⟩ := ih (i.toNat - (nextLength n).toNat) (by omega) (nextLength n) rfl
      exact ⟨k + 1, hk⟩

/-- The lengths that grow to 2^32 - 1. -/
def toTheTop : List UInt32 :=
  [2118579287, 2383401703, 2681326921, 3016492792, 3393554397, 3817748702, 4294967295]

/-- No other length grows to one of them, wrapping or not. -/
theorem mem_toTheTop_of_nextLength {n : UInt32} (h : nextLength n ∈ toTheTop) :
    n ∈ toTheTop := by
  simp only [toTheTop, List.mem_cons, List.not_mem_nil, or_false, ← UInt32.toNat_inj,
    UInt32.reduceToNat] at h ⊢
  have hn := n.toNat_lt
  rcases nextLength_cases n with ⟨-, heq⟩ | ⟨-, heq⟩
  · split at heq
    · omega
    · omega
  · omega

theorem mem_toTheTop_of_iterate {n : UInt32} (k : Nat) (h : nextLength^[k] n ∈ toTheTop) :
    n ∈ toTheTop := by
  induction k generalizing n with
  | zero => exact h
  | succ k ih =>
    rw [Function.iterate_succ_apply] at h
    exact mem_toTheTop_of_nextLength (ih h)

theorem le_top (i : UInt32) : i ≤ 4294967295 :=
  UInt32.le_iff_toNat_le.mpr (Nat.le_of_lt_succ i.toNat_lt)

theorem reaches_top_iff {n : UInt32} : Reaches n 4294967295 ↔ n ∈ toTheTop := by
  refine ⟨?_, ?_⟩
  · intro h
    obtain ⟨k, hk⟩ := h
    apply mem_toTheTop_of_iterate k
    rw [UInt32.le_antisymm (le_top _) hk]
    decide
  · intro h
    simp only [toTheTop, List.mem_cons, List.not_mem_nil, or_false] at h
    rcases h with rfl | rfl | rfl | rfl | rfl | rfl | rfl
    · exact ⟨6, by decide⟩
    · exact ⟨5, by decide⟩
    · exact ⟨4, by decide⟩
    · exact ⟨3, by decide⟩
    · exact ⟨2, by decide⟩
    · exact ⟨1, by decide⟩
    · exact ⟨0, by decide⟩

/-- Every 32-bit index is reached from these lengths, and from no other. -/
theorem reaches_all_iff {n : UInt32} : (∀ i, Reaches n i) ↔ n ∈ toTheTop := by
  rw [← reaches_top_iff]
  refine ⟨?_, ?_⟩
  · exact fun h => h 4294967295
  · intro h
    obtain ⟨k, hk⟩ := h
    intro i
    exact ⟨k, UInt32.le_trans (le_top i) hk⟩

/-- The growth that asks for 0 bytes comes on the way to an index exactly if the index is past
    the first length that wraps. -/
theorem emptied_iff {emptyNull : Nat → Bool} {st : State E} {i : UInt32} :
    Emptied emptyNull st i ↔ wrapLength < i.toNat ∧
      ∃ k, toTheWrap[k]? = some st.dyna.indexLength ∧ emptyNull (st.requests + k) = true := by
  refine ⟨?_, ?_⟩
  · intro h
    obtain ⟨k, hshort, hzero, hnull⟩ := h
    refine ⟨?_, k, (iterate_eq_zero_iff k).mp hzero, hnull⟩
    -- the last length before the wrap is the one that wraps
    rw [Function.iterate_succ_apply'] at hzero
    have hlast : some 3817748703 = some (nextLength^[k] st.dyna.indexLength) :=
      (iterate_eq_zero_iff 0).mp hzero
    have hlt := UInt32.lt_iff_toNat_lt.mp (hshort k (Nat.le_refl k))
    rw [← Option.some.inj hlast] at hlt
    exact hlt
  · intro h
    obtain ⟨hi, k, hk, hnull⟩ := h
    refine ⟨k, fun m hm => ?_, (iterate_eq_zero_iff k).mpr hk, hnull⟩
    have hmem : toTheWrap[k - m]? = some (nextLength^[m] st.dyna.indexLength) := by
      rw [← iterate_eq_zero_iff, ← Function.iterate_add_apply, Nat.add_right_comm,
        Nat.sub_add_cancel hm]
      exact (iterate_eq_zero_iff k).mpr hk
    have hle : ∀ n ∈ toTheWrap, n.toNat ≤ wrapLength := by simp [toTheWrap, wrapLength]
    exact UInt32.lt_iff_toNat_lt.mpr (Nat.lt_of_le_of_lt (hle _ (List.mem_of_getElem? hmem)) hi)

/-! ## What a resize keeps -/

section Resized

variable {lib : Library E} {st : State E} {size i : UInt32}

theorem moved_slot_covered {b : Block E} (hb : st.dyna.array = .block b) {i : Nat}
    (hc : b.covers i) (lib : Library E) (bytes : Nat) :
    (st.moved lib bytes).slot i = b.slot i := by
  rw [State.moved, hb]
  exact if_pos hc

/-- What is found in a slot of the new block that the old one did not cover. -/
theorem moved_slot_uncovered {i : Nat} (hc : ¬ Covered st i) (lib : Library E) (bytes : Nat) :
    (st.moved lib bytes).slot i = lib.torn st.requests i ∨
      (st.moved lib bytes).slot i = lib.junk st.requests i := by
  unfold State.moved
  cases hb : st.dyna.array with
  | null => exact .inr rfl
  | freed => exact .inr rfl
  | block b =>
    have hnot : ¬ b.covers i := fun h => hc ⟨b, hb, h⟩
    simp only [Block.moved, if_neg hnot]
    by_cases hcut : b.cuts i
    · exact .inl (if_pos hcut)
    · exact .inr (if_neg hcut)

theorem resized_get {w : Option E} : dynaGet (st.resized lib size) i = .ok w ↔
    Fits size i ∧ (st.moved lib (sizeofDataT * size.toNat)).slot i.toNat = w := by
  have hcov : Covered (st.resized lib size) i.toNat ↔ Fits size i := resized_covered
  rw [dynaGet_eq_ok, ← hcov, Covered, resized_array]
  refine ⟨?_, ?_⟩
  · intro h
    obtain ⟨b, hb, hc, hw⟩ := h
    rw [IndexP.block.inj hb]
    exact ⟨⟨b, rfl, hc⟩, hw⟩
  · intro h
    obtain ⟨⟨b, hb, hc⟩, hw⟩ := h
    rw [IndexP.block.inj hb] at hw
    exact ⟨b, hb, hc, hw⟩

/-- An element is kept where the new block covers its slot. -/
theorem resized_get_iff {v : E} (hget : dynaGet st i = .ok (some v)) :
    dynaGet (st.resized lib size) i = .ok (some v) ↔ Fits size i := by
  obtain ⟨b, hb, hc, hv⟩ := dynaGet_eq_ok.mp hget
  rw [resized_get, moved_slot_covered hb hc, hv]
  exact and_iff_left rfl

/-- Nothing new comes up where the memory holds NULL. -/
theorem resized_get_back (hjunk : ∀ r i, lib.junk r i = none) (htorn : ∀ r i, lib.torn r i = none)
    {v : E} (hget : dynaGet (st.resized lib size) i = .ok (some v)) :
    dynaGet st i = .ok (some v) := by
  have hslot := (resized_get.mp hget).2
  by_cases hc : Covered st i.toNat
  · obtain ⟨b, hb, hc⟩ := hc
    rw [moved_slot_covered hb hc] at hslot
    rw [dynaGet_covered hb hc, hslot]
  · rcases moved_slot_uncovered hc lib (sizeofDataT * size.toNat) with h | h
    · rw [h, htorn] at hslot
      cases hslot
    · rw [h, hjunk] at hslot
      cases hslot

end Resized

/-! ## Several growths -/

/-- The state after `k` growths that all got their block. -/
def grownBy (lib : Library E) : Nat → State E → State E
  | 0, st => st
  | k + 1, st => grownBy lib k (st.resized lib (nextLength st.dyna.indexLength))

section GrownBy

variable (lib : Library E) {k : Nat} {st : State E}

theorem grownBy_indexLength (k : Nat) (st : State E) :
    (grownBy lib k st).dyna.indexLength = nextLength^[k] st.dyna.indexLength := by
  induction k generalizing st with
  | zero => rfl
  | succ k ih => rw [grownBy, ih, resized_indexLength, Function.iterate_succ_apply]

theorem grownBy_lastIndex (k : Nat) (st : State E) :
    (grownBy lib k st).dyna.lastIndex = st.dyna.lastIndex := by
  induction k generalizing st with
  | zero => rfl
  | succ k ih => rw [grownBy, ih, resized_lastIndex]

theorem grownBy_released (k : Nat) (st : State E) :
    (grownBy lib k st).released = st.released := by
  induction k generalizing st with
  | zero => rfl
  | succ k ih => rw [grownBy, ih, resized_released]

theorem grownBy_live (k : Nat) (hlive : Live st) : Live (grownBy lib k st) := by
  induction k generalizing st with
  | zero => exact hlive
  | succ k ih => exact ih (resized_live st lib _)

theorem grownBy_array (k : Nat) (hb : ∃ b, st.dyna.array = .block b) :
    ∃ b, (grownBy lib k st).dyna.array = .block b := by
  induction k generalizing st with
  | zero => exact hb
  | succ k ih => exact ih ⟨_, resized_array st lib _⟩

theorem emptyAt_grownBy {emptyNull : Nat → Bool} (k : Nat) (st : State E) :
    EmptyAt emptyNull (grownBy lib k st) 0 ↔ EmptyAt emptyNull st k := by
  induction k generalizing st with
  | zero => exact Iff.rfl
  | succ k ih => rw [grownBy, ih, emptyAt_succ]

/-- An element is left if every growth covers its slot. -/
theorem grownBy_get {j : UInt32} {v : E} (hget : dynaGet st j = .ok (some v))
    (hfits : ∀ m < k, Fits (nextLength^[m + 1] st.dyna.indexLength) j) :
    dynaGet (grownBy lib k st) j = .ok (some v) := by
  induction k generalizing st with
  | zero => exact hget
  | succ k ih =>
    apply ih
    · exact (resized_get_iff hget).mpr (hfits 0 (Nat.succ_pos k))
    · exact fun m hm => hfits (m + 1) (Nat.succ_lt_succ hm)

/-- And only then, if the memory happens to hold NULL. -/
theorem grownBy_fits (hjunk : ∀ r i, lib.junk r i = none) (htorn : ∀ r i, lib.torn r i = none)
    {j : UInt32} {v : E} (hget : dynaGet (grownBy lib k st) j = .ok (some v)) :
    dynaGet st j = .ok (some v) ∧ ∀ m < k, Fits (nextLength^[m + 1] st.dyna.indexLength) j := by
  induction k generalizing st with
  | zero => exact ⟨hget, fun m hm => absurd hm (Nat.not_lt_zero m)⟩
  | succ k ih =>
    obtain ⟨hnext, hfits⟩ := ih hget
    have hback := resized_get_back hjunk htorn hnext
    refine ⟨hback, fun m hm => ?_⟩
    cases m with
    | zero => exact (resized_get_iff hback).mp hnext
    | succ m => exact hfits m (Nat.lt_of_succ_lt_succ hm)

/-- Growths in a row return, as long as none of them asks for 0 bytes and gets NULL. -/
theorem run_grow (fuel k : Nat) (hlive : Live st)
    (hne : ∀ m < k, ¬ EmptyAt lib.emptyNull st m) :
    Runs.run (dynaStep (granting lib) fuel) st (List.replicate k .grow) =
      .ok (List.replicate k .success, grownBy lib k st) := by
  induction k generalizing st with
  | zero => rfl
  | succ k ih =>
    have hrest := ih (resized_live st lib _) fun m hm h =>
      hne (m + 1) (Nat.succ_lt_succ hm) (emptyAt_succ.mp h)
    have hstep : dynaStep (granting lib) fuel st .grow =
        .ok (.success, st.resized lib (nextLength st.dyna.indexLength)) :=
      dynaGrow_given hlive rfl (hne 0 (Nat.succ_pos k))
    exact Runs.run_cons_ok.mpr ⟨_, _, _, hstep, hrest, rfl⟩

/-- Only one of them can do that. -/
theorem emptyAt_unique {emptyNull : Nat → Bool} {m : Nat}
    (hk : nextLength^[k + 1] st.dyna.indexLength = 0) (hm : EmptyAt emptyNull st m) : m = k := by
  have hlt : m < toTheWrap.length :=
    (List.getElem?_eq_some_iff.mp ((iterate_eq_zero_iff m).mp hm.1)).1
  apply (List.getElem?_inj hlt (by decide)).mp
  rw [(iterate_eq_zero_iff m).mp hm.1, (iterate_eq_zero_iff k).mp hk]

end GrownBy

/-! ## When growth makes progress -/

/-- `dyna_grow` returns, and has made the array longer. -/
def GrowthAdvances (lib : Library E) (st : State E) : Prop :=
  ∃ s st', dynaGrow (granting lib) st = .ok (s, st') ∧
    st.dyna.indexLength < st'.dyna.indexLength

/-- The loop of `dyna_insert` with `GROW` comes to its end. -/
def GrowthStops (lib : Library E) (st : State E) (i : UInt32) : Prop :=
  ∃ fuel r, growLoop (granting lib) i fuel st = .ok r

/-- A `dyna_grow` that succeeds does not make the array shorter and drops no element. -/
def GrowthKeeps (lib : Library E) (st : State E) : Prop :=
  ∀ st', dynaGrow (granting lib) st = .ok (.success, st') →
    st.dyna.indexLength ≤ st'.dyna.indexLength ∧
    ∀ i v, dynaGet st i = .ok (some v) → dynaGet st' i = .ok (some v)

section Progress

variable (lib : Library E) (st : State E)

theorem growthAdvances_iff :
    GrowthAdvances lib st ↔ Live st ∧ st.dyna.indexLength.toNat < wrapLength := by
  refine ⟨?_, ?_⟩
  · intro h
    obtain ⟨s, st', hrun, hlt⟩ := h
    by_cases hlive : Live st
    · refine ⟨hlive, ?_⟩
      by_cases he : EmptyAt lib.emptyNull st 0
      · -- the call fails, and the length stays
        rw [dynaGrow_empty hlive he] at hrun
        obtain ⟨-, rfl⟩ := Runs.ok_pair_inj hrun
        exact absurd hlt (UInt32.lt_irrefl _)
      · rw [dynaGrow_given hlive rfl he] at hrun
        obtain ⟨-, rfl⟩ := Runs.ok_pair_inj hrun
        exact lt_nextLength_iff.mp hlt
    · rw [dynaGrow_freed hlive] at hrun
      cases hrun
  · intro h
    obtain ⟨hlive, hlen⟩ := h
    have hlt := lt_nextLength_iff.mpr hlen
    have he : ¬ EmptyAt lib.emptyNull st 0 := by
      intro he
      rw [(emptyAt_zero.mp he).1] at hlt
      exact absurd hlt (UInt32.not_lt.mpr UInt32.zero_le)
    exact ⟨_, _, dynaGrow_given hlive rfl he, hlt⟩

theorem growthStops_iff (i : UInt32) :
    GrowthStops lib st i ↔ i ≤ st.dyna.indexLength ∨
      (Live st ∧ (Reaches st.dyna.indexLength i ∨ Emptied lib.emptyNull st i)) := by
  by_cases hi : st.dyna.indexLength < i
  · rw [or_iff_right (UInt32.not_le.mpr hi)]
    refine ⟨?_, ?_⟩
    · intro h
      obtain ⟨fuel, r, hrun⟩ := h
      by_cases hlive : Live st
      · refine ⟨hlive, ?_⟩
        rcases growLoop_cases lib fuel hlive hi with h | ⟨he, -⟩ | ⟨-, hreach, -⟩
        · rw [h] at hrun
          cases hrun
        · exact .inr he
        · exact .inl hreach
      · cases fuel with
        | zero => cases hrun
        | succ fuel =>
          rw [growLoop_freed hlive hi] at hrun
          cases hrun
    · intro h
      obtain ⟨hlive, ⟨k, hk⟩ | ⟨k, -, hk⟩⟩ := h
      · exact ⟨_, growLoop_returns lib 0 hlive (.inl hk)⟩
      · exact ⟨_, growLoop_returns lib 0 hlive (.inr hk)⟩
  · exact iff_of_true ⟨1, _, growLoop_stop _ hi 0⟩ (.inl (UInt32.not_lt.mp hi))

theorem growthStops_all_iff :
    (∀ i, GrowthStops lib st i) ↔ st.dyna.indexLength = 4294967295 ∨
      (Live st ∧ (st.dyna.indexLength ∈ toTheTop ∨
        ∃ k, toTheWrap[k]? = some st.dyna.indexLength ∧
          lib.emptyNull (st.requests + k) = true)) := by
  refine ⟨?_, ?_⟩
  · intro h
    rcases (growthStops_iff lib st 4294967295).mp (h 4294967295) with h | ⟨hlive, h | h⟩
    · exact .inl (UInt32.le_antisymm (le_top _) h)
    · exact .inr ⟨hlive, .inl (reaches_top_iff.mp h)⟩
    · exact .inr ⟨hlive, .inr (emptied_iff.mp h).2⟩
  · intro h i
    rw [growthStops_iff]
    rcases h with h | ⟨hlive, h | h⟩
    · exact .inl (by rw [h]; exact le_top i)
    · exact .inr ⟨hlive, .inl (reaches_all_iff.mpr h i)⟩
    · by_cases hi : i.toNat ≤ wrapLength
      · exact .inr ⟨hlive, .inl (reaches_of_le hi _)⟩
      · exact .inr ⟨hlive, .inr (emptied_iff.mpr ⟨Nat.lt_of_not_le hi, h⟩)⟩

theorem growthKeeps_iff :
    GrowthKeeps lib st ↔ (Live st → ¬ EmptyAt lib.emptyNull st 0 →
      st.dyna.indexLength.toNat < wrapLength ∧
      ∀ i v, dynaGet st i = .ok (some v) → Fits (nextLength st.dyna.indexLength) i) := by
  refine ⟨?_, ?_⟩
  · intro h hlive he
    obtain ⟨hlen, hget⟩ := h _ (dynaGrow_given hlive rfl he)
    exact ⟨le_nextLength_iff.mp hlen, fun i v hi => (resized_get_iff hi).mp (hget i v hi)⟩
  · intro h st' hrun
    by_cases hlive : Live st
    · by_cases he : EmptyAt lib.emptyNull st 0
      · rw [dynaGrow_empty hlive he] at hrun
        cases (Runs.ok_pair_inj hrun).1
      · rw [dynaGrow_given hlive rfl he] at hrun
        obtain ⟨-, rfl⟩ := Runs.ok_pair_inj hrun
        obtain ⟨hlen, hfits⟩ := h hlive he
        exact ⟨le_nextLength_iff.mpr hlen,
          fun i v hi => (resized_get_iff hi).mpr (hfits i v hi)⟩
    · rw [dynaGrow_freed hlive] at hrun
      cases hrun

end Progress

/-- In every state and for every library: a growth advances below the length that wraps, as
    long as the array was not freed. The loop for an index stops iff the lengths, modulo 2^32,
    get to it or 0 bytes are answered with NULL on the way; it stops for every index up to the
    length that wraps, and for all indices from the lengths of `toTheTop` only, or where a
    length of `toTheWrap` meets that answer. A growth that succeeds keeps the array and its
    elements iff it advances and the elements lie where half of the memory still covers them. -/
theorem dyna_growth_iff (lib : Library E) (st : State E) :
    (GrowthAdvances lib st ↔ Live st ∧ st.dyna.indexLength.toNat < wrapLength) ∧
    (∀ i, GrowthStops lib st i ↔ i ≤ st.dyna.indexLength ∨
      (Live st ∧ (Reaches st.dyna.indexLength i ∨ Emptied lib.emptyNull st i))) ∧
    (Live st → ∀ i : UInt32, i.toNat ≤ wrapLength → GrowthStops lib st i) ∧
    ((∀ i, GrowthStops lib st i) ↔ st.dyna.indexLength = 4294967295 ∨
      (Live st ∧ (st.dyna.indexLength ∈ toTheTop ∨
        ∃ k, toTheWrap[k]? = some st.dyna.indexLength ∧
          lib.emptyNull (st.requests + k) = true))) ∧
    (GrowthKeeps lib st ↔ (Live st → ¬ EmptyAt lib.emptyNull st 0 →
      st.dyna.indexLength.toNat < wrapLength ∧
      ∀ i v, dynaGet st i = .ok (some v) → Fits (nextLength st.dyna.indexLength) i)) := by
  refine ⟨growthAdvances_iff lib st, growthStops_iff lib st, ?_, growthStops_all_iff lib st,
    growthKeeps_iff lib st⟩
  intro hlive i hi
  exact (growthStops_iff lib st i).mpr (.inr ⟨hlive, .inl (reaches_of_le hi _)⟩)

/-- A length that grows to 2; ten slots grown to seventeen in 68 bytes, which do not reach to
    the element in the last of the ten; and an index that ten slots never grow to. -/
theorem dynaGrow_wraps_and_drops :
    (∃ st st' : State Unit, dynaInit (granting clean) 3817748704 = .ok st ∧
      dynaGrow (granting clean) st = .ok (.success, st') ∧ st'.dyna.indexLength = 2 ∧
      ¬ GrowthAdvances clean st ∧ ¬ GrowthKeeps clean st) ∧
    ∃ st₀ st st' : State Unit, dynaInit (granting clean) 10 = .ok st₀ ∧
      dynaInsert (granting clean) 1 st₀ 9 (some ()) .check = .ok (.success, st) ∧
      dynaGet st 9 = .ok (some ()) ∧
      dynaGrow (granting clean) st = .ok (.success, st') ∧ dynaGet st' 9 = .error .slotBound ∧
      ¬ GrowthKeeps clean st ∧ ¬ GrowthStops clean st 4294967295 := by
  refine ⟨⟨_, _, rfl, rfl, rfl, ?_, ?_⟩, _, _, _, rfl, rfl, rfl, rfl, rfl, ?_, ?_⟩
  · intro h
    have hlt := ((growthAdvances_iff _ _).mp h).2
    exact absurd hlt (by decide)
  · intro h
    have hle : (3817748704 : UInt32) ≤ 2 := (h _ rfl).1
    exact absurd hle (by decide)
  · intro h
    have hget := (h _ rfl).2 9 () rfl
    cases hget
  · rw [growthStops_iff, reaches_top_iff, emptied_iff]
    intro h
    rcases h with h | ⟨-, h | ⟨-, k, -, hnull⟩⟩
    · exact absurd h (by decide)
    · exact absurd h (by decide)
    · cases hnull

end DataMonkey.Dyna
