import DataMonkey.Dyna.Growth
import DataMonkey.Dyna.Destroy

/- What is left of a dyna that was resized, and what its growth costs.

   Every call that resizes asks for half of the memory that the new length needs. `Sure` is the
   array as it can be relied on: its declared length, the number of slots that can be accessed
   at all, and the elements that are there whatever the memory holds. A resize to the length
   `n` leaves `n / 2` slots and the elements in them; growing the array again brings none of
   the others back. What may come up in their place is what fresh memory held, and, at an odd
   length, what `realloc` makes of the slot that the block covers by half. Growing past the
   length that wraps to 0 leaves a freed array where 0 bytes are answered with NULL; which
   requests are, is all that `Sure` is told of the library.

     1. `Tracks.resized`, `Tracks.lost` — what a resize keeps and what may come up, and what is
        left of an array that was freed;
     2. `dynaStep_tracks`, `dynaStep_refused` — one call against the array that is sure;
     3. `dyna_resize_exact` — which runs return, and what can be read after them;
     4. `dyna_growth_cost` — the bytes that a run of growths copies. -/
namespace DataMonkey.Dyna

variable {E : Type}

/-! ## The array that is sure -/

structure Sure (E : Type) where
  length : UInt32
  room : Nat
  room_le : room ≤ length.toNat
  content : UInt32 → Option E
  requests : Nat
  freed : Bool

def Sure.start (n : UInt32) : Sure E := ⟨n, n.toNat, Nat.le_refl _, fun _ => none, 2, false⟩

def Sure.resize (a : Sure E) (n : UInt32) : Sure E :=
  ⟨n, n.toNat / 2, Nat.div_le_self _ _,
    fun i => if i.toNat < n.toNat / 2 then a.content i else none, a.requests + 1, false⟩

def Sure.drop (a : Sure E) : Sure E :=
  ⟨a.length, 0, Nat.zero_le _, fun _ => none, a.requests, false⟩

/-- The length stays at the one that wraps to 0, and there is no other request. -/
def Sure.lose (a : Sure E) : Sure E :=
  ⟨3817748703, 0, Nat.zero_le _, fun _ => none, a.requests, true⟩

def Sure.put (a : Sure E) (i : UInt32) (v : Option E) : Sure E :=
  { a with content := fun j => if j = i then v else a.content j }

/-- After `k` growths from here, the next one asks for 0 bytes and gets NULL. -/
def Sure.Loses (emptyNull : Nat → Bool) (a : Sure E) (k : Nat) : Prop :=
  toTheWrap[k]? = some a.length ∧ emptyNull (a.requests + k) = true

instance (emptyNull : Nat → Bool) (a : Sure E) (k : Nat) : Decidable (a.Loses emptyNull k) :=
  inferInstanceAs (Decidable (_ ∧ _))

/-- Deletions are not among the calls here. An insertion that has to grow the array returns
    only if it loses it. -/
def Sure.step (emptyNull : Nat → Bool) (a : Sure E) : Call E → Sure E
  | .insert i v m =>
    if m = .check ∧ a.length < i then a
    else if m = .grow ∧ a.length < i then a.lose
    else a.put i v
  | .delete _ => a
  | .grow => if a.Loses emptyNull 0 then a.lose else a.resize (nextLength a.length)
  | .growTo size => if size ≤ a.length then a else a.resize size
  | .shrink => if a.length / 2 = 0 then a.drop else a.resize (a.length / 2)

/-- The calls that return. -/
def Sure.Accepts (emptyNull : Nat → Bool) (a : Sure E) : Call E → Prop
  | .insert i _ m => (m = .check ∧ a.length < i) ∨ i.toNat < a.room ∨
      (m = .grow ∧ wrapLength < i.toNat ∧ a.freed = false ∧ ∃ k, a.Loses emptyNull k)
  | .delete _ => True
  | .grow => a.freed = false
  | .growTo size => size ≤ a.length ∨ a.freed = false
  | .shrink => a.length / 2 = 0 ∨ a.freed = false

def Accepted (emptyNull : Nat → Bool) : Sure E → List (Call E) → Prop
  | _, [] => True
  | a, c :: calls => a.Accepts emptyNull c ∧ Accepted emptyNull (a.step emptyNull c) calls

/-- What can be read: `room` slots, the elements that are sure, and besides these only what one
    of the requests found at the same index, in fresh memory or in a slot half of which was
    fresh. -/
structure Shows (lib : Library E) (st : State E) (a : Sure E) : Prop where
  live : Live st ↔ a.freed = false
  length : st.dyna.indexLength = a.length
  room : ∀ i, Covered st i ↔ i < a.room
  get : ∀ i v, a.content i = some v → dynaGet st i = .ok (some v)
  back : ∀ i v, dynaGet st i = .ok (some v) → a.content i = some v ∨
    ∃ r < st.requests, lib.junk r i.toNat = some v ∨ lib.torn r i.toNat = some v

/-- And where there is no block the length tells why. -/
structure Tracks (lib : Library E) (st : State E) (a : Sure E) : Prop extends
    Shows lib st a where
  requests : Live st → st.requests = a.requests
  null : st.dyna.array = .null → a.length ≤ 1
  freed : st.dyna.array = .freed → a.length = 3817748703

/-! ## Reallocation -/

section Moving

variable {lib : Library E} {st st' : State E} {a : Sure E}

theorem fits_iff {n i : UInt32} : Fits n i ↔ i.toNat < n.toNat / 2 := by
  rw [Fits, sizeofDataP, sizeofDataT]
  omega

theorem Tracks.resized (h : Tracks lib st a) (hlive : Live st) (n : UInt32) :
    Tracks lib (st.resized lib n) (a.resize n) := by
  constructor
  case requests =>
    intro _
    rw [resized_requests, h.requests hlive, Sure.resize]
  case null =>
    intro hnull
    cases hnull
  case freed =>
    intro hfreed
    cases hfreed
  case toShows =>
    constructor
    case live => exact iff_of_true (resized_live st lib n) rfl
    case length => rfl
    case room =>
      intro i
      refine ⟨?_, ?_⟩
      · intro hc
        obtain ⟨b, hb, hcov⟩ := hc
        rw [resized_array, IndexP.block.injEq] at hb
        rw [← hb, Block.covers, moved_bytes, sizeofDataP, sizeofDataT] at hcov
        show i < n.toNat / 2
        omega
      · intro hi
        refine ⟨_, resized_array st lib n, ?_⟩
        have hlt : i < n.toNat / 2 := hi
        rw [Block.covers, moved_bytes, sizeofDataP, sizeofDataT]
        omega
    case get =>
      intro i v hv
      simp only [Sure.resize] at hv
      by_cases hi : i.toNat < n.toNat / 2
      · rw [if_pos hi] at hv
        exact (resized_get_iff (h.get i v hv)).mpr (fits_iff.mpr hi)
      · rw [if_neg hi] at hv
        cases hv
    case back =>
      intro i v hv
      obtain ⟨hfits, hslot⟩ := resized_get.mp hv
      have hi := fits_iff.mp hfits
      by_cases hc : Covered st i.toNat
      · -- the slot was there before
        obtain ⟨b, hb, hcov⟩ := hc
        rw [moved_slot_covered hb hcov] at hslot
        have hold : dynaGet st i = .ok (some v) := by rw [dynaGet_covered hb hcov, hslot]
        rcases h.back i v hold with hcont | ⟨r, hr, hfound⟩
        · exact .inl (by simp only [Sure.resize, if_pos hi, hcont])
        · exact .inr ⟨r, Nat.lt_succ_of_lt hr, hfound⟩
      · refine .inr ⟨st.requests, Nat.lt_succ_self _, ?_⟩
        rcases moved_slot_uncovered hc lib (sizeofDataT * n.toNat) with htorn | hjunk
        · exact .inr (htorn.symm.trans hslot)
        · exact .inl (hjunk.symm.trans hslot)

/-- Without a block nothing can be read. -/
theorem shows_of_no_block (hb : ∀ b, st.dyna.array ≠ .block b) (hlive : Live st ↔ a.freed = false)
    (hlen : st.dyna.indexLength = a.length) (hroom : a.room = 0)
    (hcont : ∀ i, a.content i = none) : Shows lib st a := by
  have hnone : ∀ i, ¬ Covered st i := by
    intro i hc
    obtain ⟨b, hb', -⟩ := hc
    exact hb b hb'
  constructor
  case live => exact hlive
  case length => exact hlen
  case room =>
    intro i
    rw [hroom]
    exact iff_of_false (hnone i) (Nat.not_lt_zero i)
  case get =>
    intro i v hv
    rw [hcont] at hv
    cases hv
  case back =>
    intro i v hv
    obtain ⟨b, hb', hcov, -⟩ := dynaGet_eq_ok.mp hv
    exact absurd ⟨b, hb', hcov⟩ (hnone i.toNat)

/-- A length below 2 is not the one of an array that was freed. -/
theorem Tracks.live_of_short (h : Tracks lib st a) (hs : a.length / 2 = 0) : Live st := by
  intro hfreed
  rw [h.freed hfreed] at hs
  exact absurd hs (by decide)

theorem Tracks.dropped (h : Tracks lib st a) (hs : a.length / 2 = 0) :
    Tracks lib { st with dyna.array := .null } a.drop := by
  have hnull : Live { st with dyna.array := .null } := by
    intro hfreed
    cases hfreed
  constructor
  case requests => exact fun _ => h.requests (h.live_of_short hs)
  case null =>
    intro _
    show a.length ≤ 1
    rw [UInt32.le_iff_toNat_le]
    have htwo : a.length.toNat / 2 = 0 := by
      rw [← UInt32.toNat_inj, UInt32.toNat_div] at hs
      exact hs
    have hone : (1 : UInt32).toNat = 1 := rfl
    omega
  case freed =>
    intro hfreed
    cases hfreed
  case toShows =>
    refine shows_of_no_block (fun b hb => ?_) (iff_of_true hnull rfl) h.length rfl fun i => rfl
    cases hb

theorem Tracks.emptyAt_iff (h : Tracks lib st a) (hlive : Live st) {k : Nat} :
    EmptyAt lib.emptyNull st k ↔ a.Loses lib.emptyNull k := by
  rw [EmptyAt, iterate_eq_zero_iff, h.length, h.requests hlive, Sure.Loses]

/-- The growth that loses the array does so at the length that wraps to 0, and frees a block. -/
theorem Tracks.lost (h : Tracks lib st a) (hlive : Live st)
    (hlost : LostFrom lib.emptyNull st st') : Tracks lib st' a.lose := by
  obtain ⟨u, rfl, he, hu⟩ := hlost
  have hlen : u.dyna.indexLength = 3817748703 :=
    (Option.some.inj ((iterate_eq_zero_iff 0).mp he.1)).symm
  obtain ⟨b, hb⟩ : ∃ b, u.dyna.array = .block b := by
    rcases hu with rfl | hb
    · cases hst : u.dyna.array with
      | null =>
        have hle := h.null hst
        rw [← h.length, hlen] at hle
        exact absurd hle (by decide)
      | freed => exact absurd hst hlive
      | block b => exact ⟨b, rfl⟩
    · exact hb
  have harr : u.emptied.dyna.array = .freed := by
    rw [State.emptied, hb]
    rfl
  constructor
  case requests => exact fun hlive => absurd harr hlive
  case null =>
    intro hnull
    rw [harr] at hnull
    cases hnull
  case freed => exact fun _ => rfl
  case toShows =>
    have hdead : Live u.emptied ↔ a.lose.freed = false :=
      iff_of_false (fun hlive => hlive harr) fun hkept => Bool.false_ne_true hkept.symm
    exact shows_of_no_block he.lost.array hdead hlen rfl fun i => rfl

end Moving

/-! ## One call -/

section Calls

variable {lib : Library E} {fuel : Nat} {st st' : State E} {a : Sure E} {i : UInt32}
  {v : Option E} {m : Dstatus} {c : Call E}

theorem Tracks.placed (h : Tracks lib st a) (hlive : Live st) (hp : Placed st st' i v) :
    Tracks lib st' (a.put i v) := by
  obtain ⟨b, hb, -, -⟩ := dynaGet_eq_ok.mp hp.get
  constructor
  case requests =>
    intro _
    rw [hp.requests, h.requests hlive, Sure.put]
  case null =>
    intro hnull
    rw [hb] at hnull
    cases hnull
  case freed => exact fun hfreed => absurd hfreed (live_of_block ⟨b, hb⟩)
  case toShows =>
    constructor
    case live => exact iff_of_true (live_of_block ⟨b, hb⟩) (h.live.mp hlive)
    case length => rw [hp.indexLength, h.length, Sure.put]
    case room =>
      intro j
      rw [hp.covered]
      exact h.room j
    case get =>
      intro j w hw
      simp only [Sure.put] at hw
      by_cases hji : j = i
      · rw [if_pos hji] at hw
        rw [hji, hp.get, hw]
      · rw [if_neg hji] at hw
        rw [hp.others j hji]
        exact h.get j w hw
    case back =>
      intro j w hw
      simp only [Sure.put]
      by_cases hji : j = i
      · rw [hji, hp.get] at hw
        exact .inl (by rw [if_pos hji, Except.ok.inj hw])
      · rw [hp.others j hji] at hw
        rw [if_neg hji, hp.requests]
        exact h.back j w hw

/-- An insertion that grows the array until it is lost. Four rounds are enough: there are four
    lengths to lose it from. -/
theorem insert_loses (h : Tracks lib st a) (hlive : Live st)
    (he : Emptied lib.emptyNull st i) (v : Option E) (fuel : Nat) :
    ∃ st', dynaStep (granting lib) (fuel + 4) st (.insert i v .grow) = .ok (.failure, st') ∧
      Tracks lib st' a.lose := by
  obtain ⟨k, hshort, hk⟩ := he
  have hi : st.dyna.indexLength < i := hshort 0 (Nat.zero_le k)
  have hk4 : k < toTheWrap.length :=
    (List.getElem?_eq_some_iff.mp ((iterate_eq_zero_iff k).mp hk.1)).1
  have hrounds : fuel + 4 = fuel + 3 - k + k + 1 := by
    have hlen : toTheWrap.length = 4 := rfl
    omega
  obtain ⟨r, hrun⟩ := growLoop_returns lib (fuel + 3 - k) hlive (.inr hk)
  rw [← hrounds] at hrun
  rcases growLoop_cases lib (fuel + 4) hlive hi with herr | ⟨-, t, hfail, hlost⟩ | ⟨hne, -⟩
  · rw [hrun] at herr
    cases herr
  · refine ⟨t, ?_, h.lost hlive hlost⟩
    rw [dynaStep, dynaInsert, prepare, hfail]
    rfl
  · exact absurd ⟨k, hshort, hk⟩ hne

theorem insert_tracks (fuel : Nat) (h : Tracks lib st a)
    (hc : a.Accepts lib.emptyNull (.insert i v m)) :
    ∃ s st', dynaStep (granting lib) (fuel + 4) st (.insert i v m) = .ok (s, st') ∧
      Tracks lib st' (a.step lib.emptyNull (.insert i v m)) := by
  by_cases hcheck : m = .check ∧ a.length < i
  · obtain ⟨rfl, hi⟩ := hcheck
    refine ⟨.failure, st, ?_, ?_⟩
    · rw [dynaStep, dynaInsert, prepare, if_pos (by rw [h.length]; exact hi)]
      rfl
    · rw [Sure.step, if_pos ⟨rfl, hi⟩]
      exact h
  rcases hc.resolve_left hcheck with hroom | ⟨rfl, hi, hfreed, k, hk, hnull⟩
  · have hle : ¬ a.length < i := by
      rw [UInt32.lt_iff_toNat_lt]
      have := a.room_le
      omega
    obtain ⟨b, hb, hcov⟩ := (h.room _).mpr hroom
    obtain ⟨st', hrun, hp⟩ := dynaInsert_covered (v := v)
      (prepare_below (granting lib) (fuel + 3) m (by rw [h.length]; exact hle)) ⟨b, hb, hcov⟩
    refine ⟨.success, st', hrun, ?_⟩
    rw [Sure.step, if_neg hcheck, if_neg fun hgrow => hle hgrow.2]
    exact h.placed (live_of_block ⟨b, hb⟩) hp
  · have hlive := h.live.mpr hfreed
    have he : Emptied lib.emptyNull st i := by
      rw [emptied_iff, h.length, h.requests hlive]
      exact ⟨hi, k, hk, hnull⟩
    obtain ⟨st', hrun, h'⟩ := insert_loses h hlive he v fuel
    refine ⟨.failure, st', hrun, ?_⟩
    obtain ⟨k', hshort, -⟩ := he
    have hlt : a.length < i := by
      rw [← h.length]
      exact hshort 0 (Nat.zero_le k')
    rw [Sure.step, if_neg hcheck, if_pos ⟨rfl, hlt⟩]
    exact h'

theorem insert_refused (fuel : Nat) (h : Tracks lib st a)
    (hc : ¬ a.Accepts lib.emptyNull (.insert i v m)) :
    ∃ e, dynaStep (granting lib) (fuel + 4) st (.insert i v m) = .error e := by
  obtain ⟨hcheck, hc⟩ := not_or.mp hc
  obtain ⟨hroom, hloses⟩ := not_or.mp hc
  by_cases hgrow : m = .grow ∧ st.dyna.indexLength < i
  · obtain ⟨rfl, hi⟩ := hgrow
    rcases dynaInsert_grows lib (fuel + 4) v hi with he | ⟨hlive, he, -⟩
    · exact he
    · rw [emptied_iff, h.length, h.requests hlive] at he
      exact absurd ⟨rfl, he.1, h.live.mp hlive, he.2⟩ hloses
  · -- the slot is not there
    have hpass := prepare_passes (granting lib) (fuel + 3) hgrow (by rw [h.length]; exact hcheck)
    obtain ⟨e, he, -⟩ := dynaInsert_uncovered (v := v) hpass fun hcov => hroom ((h.room _).mp hcov)
    exact ⟨e, he⟩

theorem dynaStep_tracks (fuel : Nat) (h : Tracks lib st a) (hdel : ∀ i, c ≠ .delete i)
    (hc : a.Accepts lib.emptyNull c) :
    ∃ s st', dynaStep (granting lib) (fuel + 4) st c = .ok (s, st') ∧
      Tracks lib st' (a.step lib.emptyNull c) := by
  cases c with
  | insert i v m => exact insert_tracks fuel h hc
  | delete i => exact absurd rfl (hdel i)
  | grow =>
    have hlive := h.live.mpr hc
    by_cases hl : a.Loses lib.emptyNull 0
    · have he := (h.emptyAt_iff hlive).mpr hl
      refine ⟨.failure, _, dynaGrow_empty hlive he, ?_⟩
      rw [Sure.step, if_pos hl]
      exact h.lost hlive ⟨st, rfl, he, .inl rfl⟩
    · refine ⟨.success, _, dynaGrow_given hlive rfl (mt (h.emptyAt_iff hlive).mp hl), ?_⟩
      rw [Sure.step, if_neg hl, h.length]
      exact h.resized hlive _
  | growTo size =>
    by_cases hs : size ≤ a.length
    · refine ⟨.failure, st, dynaGrowTo_refused (by rw [h.length]; exact hs), ?_⟩
      rw [Sure.step, if_pos hs]
      exact h
    · have hlt : st.dyna.indexLength < size := by
        rw [h.length]
        exact UInt32.not_le.mp hs
      have hlive := h.live.mpr (hc.resolve_left hs)
      refine ⟨.success, _, dynaGrowTo_given hlt hlive rfl, ?_⟩
      rw [Sure.step, if_neg hs]
      exact h.resized hlive size
  | shrink =>
    by_cases hs : a.length / 2 = 0
    · refine ⟨.failure, _, dynaShrink_drops _ (by rw [h.length]; exact hs), ?_⟩
      rw [Sure.step, if_pos hs]
      exact h.dropped hs
    · have hlive := h.live.mpr (hc.resolve_left hs)
      refine ⟨.success, _, dynaShrink_given (by rw [h.length]; exact hs) hlive rfl, ?_⟩
      rw [Sure.step, if_neg hs, h.length]
      exact h.resized hlive _

theorem dynaStep_refused (fuel : Nat) (h : Tracks lib st a)
    (hc : ¬ a.Accepts lib.emptyNull c) :
    ∃ e, dynaStep (granting lib) (fuel + 4) st c = .error e := by
  cases c with
  | insert i v m => exact insert_refused fuel h hc
  | delete i => exact absurd trivial hc
  | grow => exact ⟨_, dynaGrow_freed (mt h.live.mp hc)⟩
  | growTo size =>
    obtain ⟨hs, hfreed⟩ := not_or.mp hc
    rw [← h.length] at hs
    exact ⟨_, dynaGrowTo_freed (UInt32.not_le.mp hs) (mt h.live.mp hfreed)⟩
  | shrink =>
    obtain ⟨hs, hfreed⟩ := not_or.mp hc
    rw [← h.length] at hs
    exact ⟨_, dynaShrink_freed hs (mt h.live.mp hfreed)⟩

/-! ## Runs -/

theorem run_tracks (fuel : Nat) {calls : List (Call E)} (hdel : ∀ i, .delete i ∉ calls)
    (h : Tracks lib st a) :
    ((∃ r, Runs.run (dynaStep (granting lib) (fuel + 4)) st calls = .ok r) ↔
      Accepted lib.emptyNull a calls) ∧
      ∀ os st', Runs.run (dynaStep (granting lib) (fuel + 4)) st calls = .ok (os, st') →
        Tracks lib st' (calls.foldl (Sure.step lib.emptyNull) a) := by
  induction calls generalizing st a with
  | nil =>
    refine ⟨iff_of_true ⟨_, rfl⟩ trivial, fun os st' hrun => ?_⟩
    obtain ⟨-, rfl⟩ := Runs.ok_pair_inj hrun
    exact h
  | cons c calls ih =>
    have hc : ∀ i, c ≠ .delete i := fun i he => hdel i (by rw [he]; exact List.mem_cons_self)
    have hcalls : ∀ i, .delete i ∉ calls := fun i hm => hdel i (List.mem_cons_of_mem c hm)
    by_cases hacc : a.Accepts lib.emptyNull c
    · obtain ⟨s, t, hstep, ht⟩ := dynaStep_tracks fuel h hc hacc
      obtain ⟨hiff, hall⟩ := ih hcalls ht
      refine ⟨⟨?_, ?_⟩, ?_⟩
      · intro hr
        obtain ⟨⟨os, st'⟩, hrun⟩ := hr
        obtain ⟨o, t', rest, hstep', hrest, -⟩ := Runs.run_cons_ok.mp hrun
        obtain ⟨-, rfl⟩ := Runs.ok_pair_inj (hstep.symm.trans hstep')
        exact ⟨hacc, hiff.mp ⟨_, hrest⟩⟩
      · intro hr
        obtain ⟨⟨os, st'⟩, hrest⟩ := hiff.mpr hr.2
        exact ⟨_, Runs.run_cons_ok.mpr ⟨s, t, os, hstep, hrest, rfl⟩⟩
      · intro os st' hrun
        obtain ⟨o, t', rest, hstep', hrest, -⟩ := Runs.run_cons_ok.mp hrun
        obtain ⟨-, rfl⟩ := Runs.ok_pair_inj (hstep.symm.trans hstep')
        exact hall rest st' hrest
    · -- no run gets past the call
      obtain ⟨e, he⟩ := dynaStep_refused fuel h hacc
      have hnone : ∀ r, Runs.run (dynaStep (granting lib) (fuel + 4)) st (c :: calls) ≠ .ok r := by
        intro r hr
        obtain ⟨o, t, rest, hstep, -, -⟩ := Runs.run_cons_ok.mp hr
        rw [he] at hstep
        cases hstep
      refine ⟨iff_of_false (fun hr => ?_) fun hr => hacc hr.1, fun os st' hr => absurd hr (hnone _)⟩
      obtain ⟨r, hr⟩ := hr
      exact hnone r hr

theorem Started.tracks {n : UInt32} (h : Started lib n st) : Tracks lib st (Sure.start n) := by
  constructor
  case requests => exact fun _ => h.requests
  case null =>
    intro hnull
    rcases h.array with hb | ⟨rfl, -⟩
    · rw [hb] at hnull
      cases hnull
    · exact UInt32.zero_le
  case freed => exact fun hfreed => absurd hfreed h.live
  case toShows =>
    constructor
    case live => exact iff_of_true h.live rfl
    case length => exact h.indexLength
    case room => exact fun i => h.covered_iff
    case get =>
      intro i v hv
      cases hv
    case back =>
      intro i v hv
      obtain ⟨b, hb, hcov, -⟩ := dynaGet_eq_ok.mp hv
      have hi := UInt32.lt_iff_toNat_lt.mpr (h.covered_iff.mp ⟨b, hb, hcov⟩)
      rw [h.get hi] at hv
      exact .inr ⟨1, by rw [h.requests]; decide, .inl (Except.ok.inj hv)⟩

end Calls

/-- From `dyna_init` with any length, for every library: a run of insertions and resizes returns
    iff every insertion finds its index below the room of the array, or is rejected by `CHECK`,
    or loses the array in growing it, and a lost array is not resized again. After it exactly the
    indices below the room can be read, with the elements that are sure, and any other element
    that comes up was found at its index by one of the requests. -/
theorem dyna_resize_exact (lib : Library E) (fuel : Nat) (n : UInt32) {calls : List (Call E)}
    (hdel : ∀ i, .delete i ∉ calls) :
    ∃ st₀, dynaInit (granting lib) n = .ok st₀ ∧
      ((∃ r, Runs.run (dynaStep (granting lib) (fuel + 4)) st₀ calls = .ok r) ↔
        Accepted lib.emptyNull (Sure.start n) calls) ∧
      ∀ os st, Runs.run (dynaStep (granting lib) (fuel + 4)) st₀ calls = .ok (os, st) →
        Shows lib st (calls.foldl (Sure.step lib.emptyNull) (Sure.start n)) := by
  obtain ⟨st₀, hinit, h⟩ := dynaInit_started lib n
  obtain ⟨hiff, hall⟩ := run_tracks fuel hdel h.tracks
  exact ⟨st₀, hinit, hiff, fun os st hrun => (hall os st hrun).toShows⟩

/-- Ten slots, an element in the ninth: the first growth leaves half of its slot, and the second
    one makes of that what it finds. -/
theorem dyna_resize_exact_ten :
    ∃ st₀, dynaInit (granting { clean with torn := fun _ _ => some true }) 10 = .ok st₀ ∧
      ((∃ r, Runs.run (dynaStep (granting { clean with torn := fun _ _ => some true }) 4) st₀
          [.insert 8 (some false) .check, .grow, .grow] = .ok r) ↔
        Accepted (fun _ => false) (Sure.start 10) [.insert 8 (some false) .check, .grow, .grow]) ∧
      ∀ os st, Runs.run (dynaStep (granting { clean with torn := fun _ _ => some true }) 4) st₀
          [.insert 8 (some false) .check, .grow, .grow] = .ok (os, st) →
        Shows { clean with torn := fun _ _ => some true } st
          ([.insert 8 (some false) .check, .grow, .grow].foldl (Sure.step fun _ => false)
            (Sure.start 10)) :=
  dyna_resize_exact { clean with torn := fun _ _ => some true } 0 10 (by simp)

/-- And there it is, in the place of the element. -/
example : ∃ (st₀ : State Bool) (os : List Dstatus) (st : State Bool),
    dynaInit (granting { clean with torn := fun _ _ => some true }) 10 = .ok st₀ ∧
      Runs.run (dynaStep (granting { clean with torn := fun _ _ => some true }) 1) st₀
        [.insert 8 (some false) .check, .grow, .grow] = .ok (os, st) ∧
      dynaGet st 8 = .ok (some true) :=
  ⟨_, _, _, rfl, rfl, rfl⟩

/-! ## The cost of growth -/

/-- The bytes that `realloc(dyna->array, bytes)` copies. -/
def copied (st : State E) (bytes : Nat) : Nat :=
  match st.dyna.array with
  | .block b => min b.bytes bytes
  | _ => 0

/-- The bytes copied by `k` calls of `dyna_grow` in a row, as far as they return. -/
def growthCost (al : Allocator E) : Nat → State E → Nat
  | 0, _ => 0
  | k + 1, st =>
    copied st (sizeofDataT * (nextLength st.dyna.indexLength).toNat) +
      match dynaGrow al st with
      | .ok (_, st') => growthCost al k st'
      | .error _ => 0

theorem copied_le (st : State E) (bytes : Nat) : copied st bytes ≤ bytes := by
  unfold copied
  cases st.dyna.array with
  | null => exact Nat.zero_le _
  | freed => exact Nat.zero_le _
  | block b => exact Nat.min_le_right _ _

theorem copied_resized (st : State E) (lib : Library E) (n : UInt32) (bytes : Nat) :
    copied (st.resized lib n) bytes ≤ sizeofDataT * n.toNat := by
  rw [copied, resized_array]
  exact Nat.le_trans (Nat.min_le_left _ _) (Nat.le_of_eq (moved_bytes st lib _))

/-- A growth by an eighth and a little more pays for eight times what it adds. -/
theorem nextLength_pays {n : UInt32} (h : n.toNat < wrapLength) :
    9 * n.toNat ≤ 8 * (nextLength n).toNat := by
  rcases nextLength_cases n with ⟨-, heq⟩ | ⟨hle, -⟩
  · rw [heq]
    split <;> omega
  · exact absurd h (Nat.not_lt.mpr hle)

section Cost

variable (lib : Library E)

/-- Below the length that wraps no growth asks for 0 bytes. -/
theorem not_emptyAt_of_lt {st : State E} {k : Nat}
    (h : (nextLength^[k] st.dyna.indexLength).toNat < wrapLength) :
    ¬ EmptyAt lib.emptyNull st k := by
  intro he
  have hnext := nextLength_of_lt h
  rw [← Function.iterate_succ_apply' nextLength, he.1] at hnext
  exact absurd hnext (Nat.not_lt_zero _)

theorem growthCost_succ {st : State E} (hlive : Live st)
    (h : st.dyna.indexLength.toNat < wrapLength) (k : Nat) :
    growthCost (granting lib) (k + 1) st =
      copied st (sizeofDataT * (nextLength st.dyna.indexLength).toNat) +
        growthCost (granting lib) k (st.resized lib (nextLength st.dyna.indexLength)) := by
  have hgrow : dynaGrow (granting lib) st =
      .ok (.success, st.resized lib (nextLength st.dyna.indexLength)) :=
    dynaGrow_given hlive rfl (not_emptyAt_of_lt lib h)
  rw [growthCost, hgrow]

theorem growthCost_resized {k : Nat} : ∀ (st : State E) {n : UInt32},
    (∀ j < k, (nextLength^[j] n).toNat < wrapLength) →
    growthCost (granting lib) k (st.resized lib n) + 8 * (sizeofDataT * n.toNat) ≤
      8 * (sizeofDataT * (nextLength^[k] n).toNat) := by
  induction k with
  | zero =>
    intro st n _
    simp [growthCost]
  | succ k ih =>
    intro st n hwrap
    have hnow : n.toNat < wrapLength := hwrap 0 (Nat.succ_pos k)
    have hrest := ih (st.resized lib n) fun j hj => hwrap (j + 1) (Nat.succ_lt_succ hj)
    have hfirst := copied_resized st lib n (sizeofDataT * (nextLength n).toNat)
    have hpays := nextLength_pays hnow
    rw [growthCost_succ lib (resized_live st lib n) hnow, resized_indexLength,
      Function.iterate_succ_apply]
    simp only [sizeofDataT] at hrest hfirst ⊢
    omega

theorem iterate_pays {n : UInt32} : ∀ {k : Nat},
    (∀ j < k, (nextLength^[j] n).toNat < wrapLength) →
    9 ^ k * n.toNat ≤ 8 ^ k * (nextLength^[k] n).toNat
  | 0, _ => Nat.le_refl _
  | k + 1, hwrap => by
    have ih := iterate_pays fun j hj => hwrap j (Nat.lt_succ_of_lt hj)
    have hpays := nextLength_pays (hwrap k (Nat.lt_succ_self k))
    rw [Function.iterate_succ_apply']
    calc 9 ^ (k + 1) * n.toNat = 9 * (9 ^ k * n.toNat) := by rw [Nat.pow_succ']; ac_rfl
      _ ≤ 9 * (8 ^ k * (nextLength^[k] n).toNat) := Nat.mul_le_mul_left 9 ih
      _ = 8 ^ k * (9 * (nextLength^[k] n).toNat) := by ac_rfl
      _ ≤ 8 ^ k * (8 * (nextLength (nextLength^[k] n)).toNat) := Nat.mul_le_mul_left _ hpays
      _ = 8 ^ (k + 1) * (nextLength (nextLength^[k] n)).toNat := by rw [Nat.pow_succ]; ac_rfl

theorem grownBy_asked : ∀ (k : Nat) (st : State E), (grownBy lib (k + 1) st).asked =
    sizeofDataT * (grownBy lib (k + 1) st).dyna.indexLength.toNat
  | 0, _ => rfl
  | k + 1, st => grownBy_asked k (st.resized lib (nextLength st.dyna.indexLength))

end Cost

/-- A run of `k` growths from any initial length, as long as no length wraps: it returns, the
    length grows by an eighth each time, and all growths together copy at most eight times the
    bytes of the last array. -/
theorem dyna_growth_cost (lib : Library E) (fuel : Nat) {n : UInt32} {k : Nat}
    (hwrap : ∀ j < k, (nextLength^[j] n).toNat < wrapLength) :
    ∃ st₀ os st, dynaInit (granting lib) n = .ok st₀ ∧
      Runs.run (dynaStep (granting lib) fuel) st₀ (List.replicate k .grow) = .ok (os, st) ∧
      9 ^ k * n.toNat ≤ 8 ^ k * st.dyna.indexLength.toNat ∧
      growthCost (granting lib) k st₀ ≤ 8 * st.asked := by
  obtain ⟨st₀, hinit, h⟩ := dynaInit_started lib n
  have hrun := run_grow lib fuel k h.live fun m hm => by
    apply not_emptyAt_of_lt
    rw [h.indexLength]
    exact hwrap m hm
  refine ⟨st₀, _, _, hinit, hrun, ?_, ?_⟩
  · rw [grownBy_indexLength, h.indexLength]
    exact iterate_pays hwrap
  · cases k with
    | zero => exact Nat.zero_le _
    | succ k =>
      -- the first growth copies at most its own bytes, whatever there was before
      have hnow : st₀.dyna.indexLength.toNat < wrapLength := by
        rw [h.indexLength]
        exact hwrap 0 (Nat.succ_pos k)
      have hrest := growthCost_resized lib st₀ fun j hj => hwrap (j + 1) (Nat.succ_lt_succ hj)
      have hfirst := copied_le st₀ (sizeofDataT * (nextLength n).toNat)
      rw [grownBy_asked, grownBy_indexLength, growthCost_succ lib h.live hnow, h.indexLength,
        Function.iterate_succ_apply]
      rw [← Function.iterate_succ_apply, Function.iterate_succ_apply] at hrest
      omega

/-- Eight slots grown twice. -/
theorem dyna_growth_cost_two :
    ∃ st₀ os st, dynaInit (granting (clean : Library Unit)) 8 = .ok st₀ ∧
      Runs.run (dynaStep (granting clean) 0) st₀ (List.replicate 2 .grow) = .ok (os, st) ∧
      9 ^ 2 * (8 : UInt32).toNat ≤ 8 ^ 2 * st.dyna.indexLength.toNat ∧
      growthCost (granting clean) 2 st₀ ≤ 8 * st.asked :=
  dyna_growth_cost clean 0 (by decide)

end DataMonkey.Dyna
