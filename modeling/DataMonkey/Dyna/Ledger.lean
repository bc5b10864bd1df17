import Mathlib.Algebra.Order.Group.Multiset
import Mathlib.Tactic.Abel
import DataMonkey.Dyna.Delete
import DataMonkey.Dyna.Destroy

/- Where the elements of a dyna go.

   `dyna_insert` forgets the element it writes over, and `dyna_delete` at `last_index` releases
   another one than it was asked for, or NULL. The books still balance: over every run of
   insertions and deletions each element handed in is overwritten, released or in the array,
   once, and `dyna_destroy` releases the rest. The elements written over are recorded beside the
   state; the record is not read by any call.

     1. `held_put` — one slot of the array written;
     2. `dynaStep_balance` — one call;
     3. `dyna_element_ledger` — a run, and the destruction after it. -/
namespace DataMonkey.Dyna

variable {E : Type}

/-! ## The elements in the array -/

/-- The elements in the slots below `n`. -/
def held (f : UInt32 → Option E) (n : UInt32) : List E :=
  (List.range n.toNat).filterMap fun i => f (UInt32.ofNat i)

def put (f : UInt32 → Option E) (i : UInt32) (v : Option E) : UInt32 → Option E :=
  fun j => if j = i then v else f j

theorem filterMap_put (f : UInt32 → Option E) (i : UInt32) (v : Option E) :
    ∀ {k : Nat}, k ≤ UInt32.size → i.toNat < k →
      (((List.range k).filterMap fun j => put f i v (UInt32.ofNat j) : List E) : Multiset E) +
        (f i).toList =
      ((List.range k).filterMap fun j => f (UInt32.ofNat j) : List E) + v.toList
  | 0, _, hi => absurd hi (Nat.not_lt_zero _)
  | k + 1, hk, hi => by
    have hk' : (UInt32.ofNat k).toNat = k := UInt32.toNat_ofNat_of_lt' hk
    have hone : ∀ g : UInt32 → Option E,
        ([k].filterMap fun j => g (UInt32.ofNat j)) = (g (UInt32.ofNat k)).toList := by
      intro g
      rw [List.filterMap_cons]
      cases g (UInt32.ofNat k) <;> rfl
    simp only [List.range_succ, List.filterMap_append, hone, ← Multiset.coe_add]
    by_cases hik : i.toNat = k
    · -- the slot is the last one, and none before it is written
      have hi' : UInt32.ofNat k = i := UInt32.toNat_inj.mp (hk'.trans hik.symm)
      have hsame : (List.range k).filterMap (fun j => put f i v (UInt32.ofNat j)) =
          (List.range k).filterMap fun j => f (UInt32.ofNat j) := by
        apply List.filterMap_congr
        intro j hj
        have hlt := List.mem_range.mp hj
        apply if_neg
        intro he
        have := congrArg UInt32.toNat he
        rw [UInt32.toNat_ofNat_of_lt' (Nat.lt_trans hlt hk)] at this
        omega
      rw [hsame, hi', put, if_pos rfl]
      abel
    · have hne : put f i v (UInt32.ofNat k) = f (UInt32.ofNat k) := by
        apply if_neg
        intro he
        exact hik (by rw [← he, hk'])
      have ih := filterMap_put f i v (Nat.le_of_succ_le hk) (by omega : i.toNat < k)
      rw [hne, add_right_comm, ih, add_right_comm]

theorem held_put {n i : UInt32} (f : UInt32 → Option E) (v : Option E) (hi : i < n) :
    (held (put f i v) n : Multiset E) + (f i).toList = held f n + v.toList :=
  filterMap_put f i v (Nat.le_of_lt n.toNat_lt) (UInt32.lt_iff_toNat_lt.mp hi)

/-! ## One call -/

/-- An array of `n` slots that holds `f`. -/
structure Contents (n : UInt32) (st : State E) (f : UInt32 → Option E) : Prop where
  live : Live st
  length : st.dyna.indexLength = n
  last : st.dyna.lastIndex < n
  get : ∀ i < n, dynaGet st i = .ok (f i)

/-- Insertions below the length `n`, and deletions. -/
def Admits (n : UInt32) : Call E → Prop
  | .insert i _ _ => i < n
  | .delete _ => True
  | _ => False

/-- The element that an insertion writes over. -/
def overwritten (st : State E) : Call E → List E
  | .insert i _ _ =>
    match dynaGet st i with
    | .ok v => v.toList
    | .error _ => []
  | _ => []

/-- The element that a call hands in. -/
def handedIn : Call E → List E
  | .insert _ v _ => v.toList
  | _ => []

/-- What was passed to `custom_free`, without NULL. -/
def releasedElements (st : State E) : List E := st.released.filterMap id

section Calls

variable {n i : UInt32} {st : State E} {f : UInt32 → Option E} {c : Call E}

theorem insert_balance (lib : Library E) (fuel : Nat) (h : Contents n st f) (hi : i < n)
    (v : Option E) (m : Dstatus) :
    ∃ st', dynaStep (granting lib) (fuel + 1) st (.insert i v m) = .ok (.success, st') ∧
      Contents n st' (put f i v) ∧ st'.released = st.released := by
  have hle : ¬ st.dyna.indexLength < i := by
    rw [h.length]
    exact UInt32.not_lt.mpr (UInt32.le_of_lt hi)
  obtain ⟨b, hb, hcov, -⟩ := dynaGet_eq_ok.mp (h.get i hi)
  obtain ⟨st', hrun, hp⟩ := dynaInsert_covered (v := v)
    (prepare_below (granting lib) fuel m hle) ⟨b, hb, hcov⟩
  obtain ⟨b', hb', -, -⟩ := dynaGet_eq_ok.mp hp.get
  refine ⟨st', hrun, ⟨live_of_block ⟨b', hb'⟩, hp.indexLength.trans h.length, ?_, fun j hj => ?_⟩,
    hp.released⟩
  · rw [hp.lastIndex, max_eq_ite]
    split
    · exact hi
    · exact h.last
  · by_cases hji : j = i
    · rw [hji, hp.get, put, if_pos rfl]
    · rw [hp.others j hji, put, if_neg hji, h.get j hj]

/-- A deletion does nothing, or it releases what is in some slot and empties it. -/
theorem delete_balance (h : Contents n st f) (i : UInt32) :
    dynaDelete st i = .ok (.failure, st) ∨
      ∃ j st', j < n ∧ dynaDelete st i = .ok (.success, st') ∧ Contents n st' (put f j none) ∧
        st'.released = f j :: st.released := by
  by_cases hlast : st.dyna.lastIndex < i
  · exact .inl (dynaDelete_past hlast)
  · have hi : i < n := UInt32.lt_of_le_of_lt (UInt32.not_lt.mp hlast) h.last
    obtain ⟨b, hb, hcov, hv⟩ := dynaGet_eq_ok.mp (h.get i hi)
    cases hf : f i with
    | none => exact .inl (dynaDelete_null hlast hb hcov (hv.trans hf))
    | some v =>
      obtain ⟨j, hj, -, -, hrun⟩ := dynaDelete_some hlast hb hcov (hv.trans hf)
      have hjn : j < n.toNat := by
        have := UInt32.lt_iff_toNat_lt.mp hi
        omega
      have hslot : (UInt32.ofNat j).toNat = j := toNat_slot hjn
      have hj' : UInt32.ofNat j < n := by
        rw [UInt32.lt_iff_toNat_lt, hslot]
        exact hjn
      refine .inr ⟨UInt32.ofNat j, _, hj', hrun,
        ⟨live_of_block ⟨_, rfl⟩, h.length, ?_, fun k hk => ?_⟩, ?_⟩
      · show (if st.dyna.lastIndex = i then UInt32.ofNat j else st.dyna.lastIndex) < n
        split
        · exact hj'
        · exact h.last
      · rw [dynaGet_empty hb, h.get k hk, put]
        by_cases hkj : k = UInt32.ofNat j
        · rw [if_pos hkj, if_pos (by rw [hkj, hslot])]
          rfl
        · rw [if_neg hkj, if_neg fun he => hkj (UInt32.toNat_inj.mp (he.trans hslot.symm))]
      · -- the slot is read before it is emptied
        obtain ⟨c, hc, -, hw⟩ := dynaGet_eq_ok.mp (h.get _ hj')
        rw [hb, IndexP.block.injEq] at hc
        rw [← hw, hslot, ← hc]
        rfl

theorem dynaStep_balance (lib : Library E) (fuel : Nat) (h : Contents n st f)
    (hc : Admits n c) :
    ∃ s st' f', dynaStep (granting lib) (fuel + 1) st c = .ok (s, st') ∧ Contents n st' f' ∧
      (held f' n : Multiset E) + releasedElements st' + overwritten st c =
        held f n + releasedElements st + handedIn c := by
  cases c with
  | insert i v m =>
    obtain ⟨st', hrun, h', hrel⟩ := insert_balance lib fuel h hc v m
    refine ⟨.success, st', put f i v, hrun, h', ?_⟩
    have hput := held_put f v hc
    have hover : overwritten st (.insert i v m) = (f i).toList := by
      rw [overwritten, h.get i hc]
    rw [releasedElements, hrel, hover, add_right_comm, hput, handedIn, releasedElements]
    abel
  | delete i =>
    rcases delete_balance h i with hrun | ⟨j, st', hj, hrun, h', hrel⟩
    · exact ⟨.failure, st, f, hrun, h, rfl⟩
    · refine ⟨.success, st', put f j none, hrun, h', ?_⟩
      have hput := held_put f none hj
      rw [Option.toList_none, Multiset.coe_nil, add_zero] at hput
      have hcons : (releasedElements st' : Multiset E) = (f j).toList + releasedElements st := by
        rw [releasedElements, hrel, List.filterMap_cons]
        cases f j with
        | none => simp [releasedElements]
        | some v => simp [releasedElements]
      rw [hcons, ← add_assoc, hput]
      rfl
  | grow => exact absurd hc id
  | growTo size => exact absurd hc id
  | shrink => exact absurd hc id

end Calls

/-! ## Runs -/

/-- A call that also records the elements written over. -/
def ledgerStep (al : Allocator E) (fuel : Nat) (p : State E × List E) (c : Call E) :
    Except Fault (Dstatus × State E × List E) := do
  let (s, st) ← dynaStep al fuel p.1 c
  .ok (s, st, overwritten p.1 c ++ p.2)

/-- The record changes nothing. -/
theorem run_ledger {al : Allocator E} {fuel : Nat} : ∀ {calls : List (Call E)} {st st' : State E}
    {lost lost' : List E} {os : List Dstatus},
    Runs.run (ledgerStep al fuel) (st, lost) calls = .ok (os, st', lost') →
      Runs.run (dynaStep al fuel) st calls = .ok (os, st')
  | [], _, _, _, _, _, h => by
    obtain ⟨rfl, hst⟩ := Runs.ok_pair_inj h
    rw [(Prod.mk.inj hst).1]
    rfl
  | c :: calls, _, _, _, _, _, h => by
    obtain ⟨s, ⟨t, lost⟩, rest, hstep, hrest, rfl⟩ := Runs.run_cons_ok.mp h
    obtain ⟨⟨s', t'⟩, hcall, he⟩ := Runs.bind_eq_ok.mp hstep
    obtain ⟨rfl, hst⟩ := Runs.ok_pair_inj he
    obtain ⟨rfl, -⟩ := Prod.mk.inj hst
    exact Runs.run_cons_ok.mpr ⟨_, _, rest, hcall, run_ledger hrest, rfl⟩

/-- The balance of a run. -/
theorem run_balance (lib : Library E) (fuel : Nat) {n : UInt32} :
    ∀ {calls : List (Call E)} {st : State E} {f : UInt32 → Option E} (lost : List E),
      (∀ c ∈ calls, Admits n c) → Contents n st f →
      ∃ os p, Runs.run (ledgerStep (granting lib) (fuel + 1)) (st, lost) calls = .ok (os, p) ∧
        ∃ f', Contents n p.1 f' ∧
          (held f' n : Multiset E) + releasedElements p.1 + p.2 =
            held f n + releasedElements st + lost + calls.flatMap handedIn
  | [], st, f, lost, _, h => by
    refine ⟨[], (st, lost), rfl, f, h, ?_⟩
    rw [List.flatMap_nil, Multiset.coe_nil, add_zero]
  | c :: calls, st, f, lost, hcalls, h => by
    obtain ⟨hc, hrest⟩ := List.forall_mem_cons.mp hcalls
    obtain ⟨s, t, g, hstep, ht, hone⟩ := dynaStep_balance lib fuel h hc
    obtain ⟨os, p, hrun, f', h', hbal⟩ :=
      run_balance lib fuel (overwritten st c ++ lost) hrest ht
    refine ⟨s :: os, p, Runs.run_cons_ok.mpr ⟨s, (t, overwritten st c ++ lost), os, ?_, hrun, rfl⟩,
      f', h', ?_⟩
    · rw [ledgerStep, hstep]
      rfl
    · rw [hbal, List.flatMap_cons, ← Multiset.coe_add, ← Multiset.coe_add, ← add_assoc, hone]
      abel

theorem Started.contents {lib : Library E} {n : UInt32} {st : State E} (h : Started lib n st)
    (hn : 0 < n) : Contents n st fun i => lib.junk 1 i.toNat where
  live := h.live
  length := h.indexLength
  last := by rw [h.lastIndex]; exact hn
  get := fun i hi => h.get hi

/-- From `dyna_init` with any length but 0, every run of insertions below that length and of
    deletions returns. What was handed in, and what fresh memory held, is what was written over,
    what was released and what is in the array; and `dyna_destroy` releases the last of it. -/
theorem dyna_element_ledger (lib : Library E) (fuel : Nat) {n : UInt32} (hn : 0 < n)
    {calls : List (Call E)} (hcalls : ∀ c ∈ calls, Admits n c) :
    ∃ (st₀ : State E) (os : List Dstatus) (st : State E) (lost : List E)
        (f : UInt32 → Option E) (released : List (Option E)),
      dynaInit (granting lib) n = .ok st₀ ∧
      Runs.run (ledgerStep (granting lib) (fuel + 1)) (st₀, []) calls = .ok (os, st, lost) ∧
      Runs.run (dynaStep (granting lib) (fuel + 1)) st₀ calls = .ok (os, st) ∧
      (∀ i < n, dynaGet st i = .ok (f i)) ∧
      (held (fun i => lib.junk 1 i.toNat) n : Multiset E) + calls.flatMap handedIn =
        lost + releasedElements st + held f n ∧
      dynaDestroy st true = .ok (.success, released) ∧
      (held (fun i => lib.junk 1 i.toNat) n : Multiset E) + calls.flatMap handedIn =
        lost + released.filterMap id := by
  obtain ⟨st₀, hinit, hstart⟩ := dynaInit_started lib n
  have h₀ := hstart.contents hn
  have hnone : releasedElements st₀ = [] := by
    rw [releasedElements, hstart.released]
    rfl
  obtain ⟨os, ⟨st, lost⟩, hrun, f, h, hbal⟩ := run_balance lib fuel [] hcalls h₀
  obtain ⟨r, hloop, hr⟩ := destroyLoop_spec (f := fun i => f (UInt32.ofNat i))
    st.dyna.indexLength.toNat 0 st.released fun j _ hj => by
      rw [Nat.zero_add, h.length] at hj
      apply h.get
      rw [UInt32.lt_iff_toNat_lt, toNat_slot hj]
      exact hj
  rw [hnone, Multiset.coe_nil, add_zero, add_zero] at hbal
  refine ⟨st₀, os, st, lost, f, r, hinit, hrun, run_ledger hrun, h.get, ?_,
    dynaDestroy_eq_ok.mpr ⟨hloop, h.live⟩, ?_⟩
  · rw [← hbal]
    abel
  · -- in reverse, the elements released by the calls come first
    have hall : (r.filterMap id : Multiset E) = releasedElements st + held f n := by
      have hrev := congrArg (List.filterMap id) hr
      rw [List.filterMap_reverse, List.filterMap_append, List.filterMap_reverse, List.filterMap_map,
        h.length, ← List.range_eq_range'] at hrev
      have hcoe := congrArg (fun l : List E => (l : Multiset E)) hrev
      simp only [Multiset.coe_reverse, ← Multiset.coe_add] at hcoe
      rw [hcoe, releasedElements]
      congr 2
      exact List.filterMap_some
    rw [hall, ← hbal]
    abel

/-- Two slots: one element is written over, and one is deleted. -/
theorem dyna_element_ledger_two :
    ∃ (st₀ : State Nat) (os : List Dstatus) (st : State Nat) (lost : List Nat)
        (f : UInt32 → Option Nat) (released : List (Option Nat)),
      dynaInit (granting clean) 2 = .ok st₀ ∧
      Runs.run (ledgerStep (granting clean) 1) (st₀, [])
        [.insert 0 (some 5) .check, .insert 0 (some 6) .check, .delete 0] = .ok (os, st, lost) ∧
      Runs.run (dynaStep (granting clean) 1) st₀
        [.insert 0 (some 5) .check, .insert 0 (some 6) .check, .delete 0] = .ok (os, st) ∧
      (∀ i < 2, dynaGet st i = .ok (f i)) ∧
      (held (E := Nat) (fun _ => none) 2 : Multiset Nat) +
          (List.flatMap handedIn [.insert 0 (some 5) .check, .insert 0 (some 6) .check,
            .delete 0] : List Nat) =
        lost + releasedElements st + held f 2 ∧
      dynaDestroy st true = .ok (.success, released) ∧
      (held (E := Nat) (fun _ => none) 2 : Multiset Nat) +
          (List.flatMap handedIn [.insert 0 (some 5) .check, .insert 0 (some 6) .check,
            .delete 0] : List Nat) =
        lost + released.filterMap id :=
  dyna_element_ledger clean 0 (by decide) (by
    have hlt : (0 : UInt32) < 2 := by decide
    simp [Admits, hlt])

end DataMonkey.Dyna
