import Mathlib.Algebra.BigOperators.Group.Finset.Basic
import DataMonkey.Flex.Access

/- What holds of a flex after every session, in the words of its fields and its accessors.

     1. `flex_counters` — the closed forms of the eight counters, and that `flex_shrink` never
        takes one of them below what it stands for;
     2. `flex_address` — the address computation maps the indices below the capacity
        one-to-one and in order onto the allocated cells, and the others past them;
     3. `flex_index_range` — where on the index type it is defined at all;
     4. `flex_array` — the accessors read and write an array. -/
namespace DataMonkey.Flex

open Blocked Superblock

/-! ## The counters -/

/-- The counters, with `s` the number of superblocks before the last one. -/
structure CounterLaw (st : State) (s : Nat) : Prop where
  superBlocks : st.flex.numSuperBlocks = s + 1
  dataSize : st.flex.lastDataSize = 2 ^ ceiling s 2
  superSize : st.flex.lastSuperSize = 2 ^ (s / 2)
  superOccup : st.flex.lastSuperOccup < st.flex.lastSuperSize
  indexOccup : st.flex.lastIndexOccup =
    (∑ j ∈ Finset.range s, 2 ^ (j / 2)) + st.flex.lastSuperOccup
  usable : st.flex.usableDataBlocks =
    ∑ x ∈ Finset.range (st.flex.lastIndexOccup + 1), blockLength st x
  power : ∃ j, st.flex.indexLength = 2 ^ j
  room : st.flex.lastIndexOccup < st.flex.indexLength
  least : ∀ j, st.flex.lastIndexOccup < 2 ^ j → st.flex.indexLength ≤ 2 ^ j
  count : (st.flex.numUserElementsInserted = 0 ∧ st.flex.usableDataBlocks = 1) ∨
    (st.flex.lastDataSize ≤ st.flex.usableDataBlocks ∧
      st.flex.usableDataBlocks - st.flex.lastDataSize < st.flex.numUserElementsInserted ∧
      st.flex.numUserElementsInserted ≤ st.flex.usableDataBlocks)

/-- No subtraction of `flex_shrink` wraps and no halving gives 0, in the branch that gives up
    a block too. -/
structure ShrinkSafe (f : FlexArray) : Prop where
  usable : f.lastDataSize ≤ f.usableDataBlocks
  last : f.numUserElementsInserted ≠ 0 → frees f → 1 ≤ f.lastIndexOccup
  index : f.numUserElementsInserted ≠ 0 → frees f → f.lastIndexOccup * 2 = f.indexLength →
    1 ≤ ceiling f.indexLength 2
  super : f.numUserElementsInserted ≠ 0 → frees f → f.lastSuperOccup = 0 →
    1 ≤ f.numSuperBlocks ∧
      if (f.numSuperBlocks - 1) % 2 = 1 then 1 ≤ f.lastDataSize / 2 ∧ 1 ≤ f.lastSuperSize
      else 1 ≤ f.lastSuperSize / 2

theorem start_eq_sum (f : Nat → Nat) : ∀ n, start f n = ∑ x ∈ Finset.range n, f x
  | 0 => (Finset.sum_range_zero f).symm
  | n + 1 => by
    rw [Finset.sum_range_succ, ← start_eq_sum f n]
    rfl

section Holds

variable {st : State} {bs : List (Addr × List Int32)}

theorem Holds.blockLength (H : Holds st bs) {x : Nat} (hx : x ≤ st.flex.lastIndexOccup) :
    blockLength st x = size x := by
  have hlt : x < bs.length := by
    rw [H.length]
    omega
  have hget : bs[x]? = some bs[x] := List.getElem?_eq_getElem hlt
  obtain ⟨hs, hc⟩ := H.block x bs[x].1 bs[x].2 hget
  have hlen : bs[x].2.length = size x := by
    apply H.sized
    rw [List.getElem?_map, hget]
    rfl
  simp only [Flex.blockLength, hs, Option.join_some, Option.bind_some, hc, Option.map_some,
    Option.getD_some, hlen]

theorem Holds.counterLaw (H : Holds st bs) :
    CounterLaw st (pos st.flex.lastIndexOccup).1 := by
  have C := H.counters
  obtain ⟨hlt, hpos⟩ := pos_spec st.flex.lastIndexOccup
  refine ⟨C.super.superBlocks, C.super.dataSize, C.super.superSize, ?_, ?_, ?_, C.power, C.room,
    ?_, ?_⟩
  · rw [C.super.superOccup, C.super.superSize]
    exact hlt
  · rw [C.super.superOccup]
    calc st.flex.lastIndexOccup
        = firstBlock (pos st.flex.lastIndexOccup).1 + (pos st.flex.lastIndexOccup).2 := hpos.symm
      _ = _ := congrArg (· + _) (start_eq_sum superSize _)
  · rw [C.usable, start_eq_sum]
    apply Finset.sum_congr rfl
    intro x hx
    have hx' := Finset.mem_range.mp hx
    exact (H.blockLength (by omega)).symm
  · intro j hj
    obtain ⟨i, hi⟩ := C.power
    rcases C.least with h1 | h2
    · rw [h1]
      exact Nat.two_pow_pos j
    · -- a smaller power of two is at most half of the index
      rw [hi] at h2 ⊢
      apply Nat.pow_le_pow_right Nat.two_pos
      apply Nat.le_of_lt_succ
      apply (Nat.pow_lt_pow_iff_right (by decide : 1 < 2)).mp
      rw [Nat.pow_succ]
      omega
  · have husable := C.usable_eq
    rcases C.count with ⟨h0, hx⟩ | ⟨h1, h2⟩
    · left
      refine ⟨h0, ?_⟩
      rw [C.usable, hx]
      rfl
    · right
      omega

theorem Holds.shrinkSafe (H : Holds st bs) : ShrinkSafe st.flex := by
  have C := H.counters
  refine ⟨by rw [C.usable_eq]; omega, fun h0 hf => (C.one_le_last h0 hf).1, ?_, ?_⟩
  · intro h0 hf hidx
    have hone := (C.one_le_last h0 hf).1
    unfold ceiling
    omega
  · intro h0 hf hocc
    have hone := (C.one_le_last h0 hf).1
    obtain ⟨-, hpos⟩ := pos_spec st.flex.lastIndexOccup
    have hsb := C.super.superBlocks
    have hds := C.super.dataSize
    have hss := C.super.superSize
    rw [← C.super.superOccup, hocc] at hpos
    generalize hs : (pos st.flex.lastIndexOccup).1 = s at hpos hsb hds hss
    -- the first superblock has only one block, so this is a later one
    obtain ⟨t, rfl⟩ : ∃ t, s = t + 1 := by
      cases s with
      | zero =>
        rw [← hpos] at hone
        exact absurd hone (by decide)
      | succ t => exact ⟨t, rfl⟩
    refine ⟨by omega, ?_⟩
    rw [hsb, Nat.add_sub_cancel]
    by_cases hodd : (t + 1) % 2 = 1
    · rw [if_pos hodd, hds, hss, dataSize_even (by omega), Nat.mul_div_cancel _ Nat.two_pos]
      exact ⟨dataSize_pos t, superSize_pos (t + 1)⟩
    · rw [if_neg hodd, hss, superSize_odd (by omega), Nat.mul_div_cancel _ Nat.two_pos]
      exact superSize_pos t

end Holds

/-- After every session the counters have their closed forms, and shrinking is safe. -/
theorem flex_counters (junk : Int32) (calls : List Call) :
    ∃ os st s, session junk calls = .ok (os, st) ∧ CounterLaw st s ∧ ShrinkSafe st.flex := by
  obtain ⟨os, st, bs, hrun, H, -⟩ := session_spec junk calls
  exact ⟨os, st, _, hrun, H.counterLaw, H.shrinkSafe⟩

/-! ## The addresses -/

/-- The address computation on a flex: the indices below the capacity go one-to-one and in
    lexicographic order onto the cells of the blocks, the others past the last block. -/
structure AddressMap (st : State) : Prop where
  inside : ∀ i < st.flex.usableDataBlocks, ∃ x e, locate i = .ok (x, e) ∧
    x ≤ st.flex.lastIndexOccup ∧ e < blockLength st x
  onto : ∀ x ≤ st.flex.lastIndexOccup, ∀ e < blockLength st x,
    ∃ i < st.flex.usableDataBlocks, locate i = .ok (x, e)
  order : ∀ i j, i < j → j < st.flex.usableDataBlocks → ∃ x e y f, locate i = .ok (x, e) ∧
    locate j = .ok (y, f) ∧ (x < y ∨ (x = y ∧ e < f))
  unique : ∀ i j, i < st.flex.usableDataBlocks → j < st.flex.usableDataBlocks →
    locate i = locate j → i = j
  outside : ∀ i, st.flex.usableDataBlocks ≤ i → i < 2 ^ 60 - 1 →
    (∃ x e, locate i = .ok (x, e) ∧ st.flex.lastIndexOccup < x) ∧ flexGet st i = .ok none ∧
      (∀ v, flexCompare st i v = .ok .failure) ∧ flexDelete st i = .ok (.failure, st)

theorem Holds.addressMap {st : State} {bs : List (Addr × List Int32)} (H : Holds st bs)
    (hcap : st.flex.usableDataBlocks < 2 ^ 60) : AddressMap st := by
  refine ⟨?_, ?_, ?_, ?_, ?_⟩
  · intro i hi
    obtain ⟨x, e, hloc, he, hcell⟩ := locate_spec (show i < 2 ^ 60 - 1 by omega)
    have hx : x ≤ st.flex.lastIndexOccup := by
      rw [H.block_le_iff he, hcell]
      exact hi
    exact ⟨x, e, hloc, hx, by rw [H.blockLength hx]; exact he⟩
  · intro x hx e he
    rw [H.blockLength hx] at he
    have hi := (H.block_le_iff he).mp hx
    obtain ⟨y, f, hloc, hf, hcell⟩ := locate_spec (show start size x + e < 2 ^ 60 - 1 by omega)
    obtain ⟨rfl, rfl⟩ := cell_unique hf he hcell
    exact ⟨_, hi, hloc⟩
  · intro i j hij hj
    obtain ⟨x, e, hi, he, hxe⟩ := locate_spec (show i < 2 ^ 60 - 1 by omega)
    obtain ⟨y, f, hj', hf, hyf⟩ := locate_spec (show j < 2 ^ 60 - 1 by omega)
    refine ⟨x, e, y, f, hi, hj', (start_add_lt_start_add he hf).mp ?_⟩
    rw [hxe, hyf]
    exact hij
  · intro i j hi hj hsame
    obtain ⟨x, e, hloc, -, hxe⟩ := locate_spec (show i < 2 ^ 60 - 1 by omega)
    obtain ⟨-, hxj⟩ := locate_cell (show j < 2 ^ 60 - 1 by omega) (hsame.symm.trans hloc)
    rw [← hxe, hxj]
  · intro i hout hi
    exact ⟨locate_out H hi hout, flexGet_out H hi hout, flexCompare_out H hi hout,
      flexDelete_out H hi hout⟩

/-- After every session the address computation matches the layout, as long as the capacity
    is below 2^60. -/
theorem flex_address (junk : Int32) (calls : List Call) :
    ∃ os st, session junk calls = .ok (os, st) ∧
      (st.flex.usableDataBlocks < 2 ^ 60 → AddressMap st) := by
  obtain ⟨os, st, bs, hrun, H, -⟩ := session_spec junk calls
  exact ⟨os, st, hrun, H.addressMap⟩

/-- What the accessors owe an index of 64 bits: a computation that is defined, and a refusal
    from the capacity on. -/
structure IndexOk (st : State) (i : Nat) : Prop where
  defined : ∃ x e, locate i = .ok (x, e)
  rejects : st.flex.usableDataBlocks ≤ i → flexGet st i = .ok none ∧
    (∀ v, flexCompare st i v = .ok .failure) ∧ flexDelete st i = .ok (.failure, st)

/-- After every session the accessors do so for the indices below 2^60 - 1 and for no other. -/
theorem flex_index_range (junk : Int32) (calls : List Call) :
    ∃ os st, session junk calls = .ok (os, st) ∧
      ∀ i < 2 ^ 64, (IndexOk st i ↔ i < 2 ^ 60 - 1) := by
  obtain ⟨os, st, bs, hrun, H, -⟩ := session_spec junk calls
  refine ⟨os, st, hrun, fun i hi => ?_⟩
  refine ⟨?_, ?_⟩
  · intro hok
    obtain ⟨x, e, hloc⟩ := hok.defined
    exact lt_of_locate hi hloc
  · intro hlt
    obtain ⟨x, e, hloc, -⟩ := locate_spec hlt
    exact ⟨⟨x, e, hloc⟩, fun hout =>
      ⟨flexGet_out H hlt hout, flexCompare_out H hlt hout, flexDelete_out H hlt hout⟩⟩

/-- The last index of the type, whose successor is 0, and the first one with its leading bit
    at 60, on a fresh flex. -/
theorem flex_index_undefined :
    ∃ st, session 0 [] = .ok ([], st) ∧
      flexGet st (2 ^ 64 - 1) = .error .clzZero ∧ ¬ IndexOk st (2 ^ 64 - 1) ∧
      flexGet st (2 ^ 60 - 1) = .error .shiftRange ∧ ¬ IndexOk st (2 ^ 60 - 1) := by
  have h₁ : locate (2 ^ 64 - 1) = .error .clzZero := by decide
  have h₂ : locate (2 ^ 60 - 1) = .error .shiftRange := by decide
  refine ⟨fresh 0, rfl, ?_, ?_, ?_, ?_⟩
  · rw [flexGet, h₁]
    rfl
  · intro hok
    obtain ⟨x, e, hloc⟩ := hok.defined
    rw [h₁] at hloc
    cases hloc
  · rw [flexGet, h₂]
    rfl
  · intro hok
    obtain ⟨x, e, hloc⟩ := hok.defined
    rw [h₂] at hloc
    cases hloc

/-! ## The array -/

/-- The index that a call writes. -/
def Call.target : Call → Option Nat
  | .insert i _ | .delete i => some i.val
  | .get _ | .compare _ _ | .grow | .shrink => none

/-- What a call leaves at an index: the inserted value, 0 where it deletes. -/
def written (f : Nat → Int32) : Call → Nat → Int32
  | .insert i v => fun j => if j = i.val then v else f j
  | .delete i => fun j => if j = i.val then 0 else f j
  | .get _ | .compare _ _ | .grow | .shrink => f

/-- The last value written at every index: what `malloc` left at index 0 and 0 elsewhere,
    until an insertion or a deletion. -/
def expected (junk : Int32) (calls : List Call) : Nat → Int32 :=
  calls.foldl written fun j => if j = 0 then junk else 0

theorem expected_snoc (junk : Int32) (calls : List Call) (c : Call) :
    expected junk (calls ++ [c]) = written (expected junk calls) c := by
  rw [expected, List.foldl_append]
  rfl

/-- The array that a session without shrinking leaves. -/
structure Contents (junk : Int32) (calls : List Call) (l : List Int32) : Prop where
  within : ∀ j v, l[j]? = some v → v = expected junk calls j
  beyond : ∀ j, l.length ≤ j → expected junk calls j = 0
  inserted : ∀ i v, .insert i v ∈ calls → i.val < l.length

/-- An array with zeros appended, read at any index. -/
theorem getElem?_append_zeros {l zeros : List Int32} (hz : ∀ z ∈ zeros, z = 0) (j : Nat) :
    (l ++ zeros)[j]? =
      if j < l.length then l[j]? else if j < (l ++ zeros).length then some 0 else none := by
  by_cases hlt : j < l.length
  · rw [if_pos hlt, List.getElem?_append_left hlt]
  · rw [if_neg hlt]
    by_cases hin : j < (l ++ zeros).length
    · rw [if_pos hin, List.getElem?_eq_getElem hin, List.getElem_append_right (by omega)]
      exact congrArg some (hz _ (List.getElem_mem _))
    · rw [if_neg hin]
      exact List.getElem?_eq_none (by omega)

section Contents

variable {junk : Int32} {past : List Call} {l : List Int32}

theorem Contents.extend (h : Contents junk past l) {zeros : List Int32}
    (hz : ∀ z ∈ zeros, z = 0) : Contents junk past (l ++ zeros) := by
  have hle : l.length ≤ (l ++ zeros).length := by
    rw [List.length_append]
    omega
  constructor
  case within =>
    intro j w hw
    by_cases hlt : j < l.length
    · rw [List.getElem?_append_left hlt] at hw
      exact h.within j w hw
    · rw [List.getElem?_append_right (by omega)] at hw
      rw [hz w (List.mem_of_getElem? hw), h.beyond j (by omega)]
  case beyond => exact fun j hj => h.beyond j (Nat.le_trans hle hj)
  case inserted => exact fun i v hm => Nat.lt_of_lt_of_le (h.inserted i v hm) hle

/-- A call that leaves the array and what is expected of it alone. -/
theorem Contents.skip (h : Contents junk past l) {c : Call}
    (hexp : ∀ j, written (expected junk past) c j = expected junk past j)
    (hins : ∀ i v, c ≠ .insert i v) : Contents junk (past ++ [c]) l := by
  have hsame : expected junk (past ++ [c]) = expected junk past := by
    rw [expected_snoc]
    funext j
    exact hexp j
  constructor
  case within => rw [hsame]; exact h.within
  case beyond => rw [hsame]; exact h.beyond
  case inserted =>
    intro i v hm
    rcases List.mem_append.mp hm with hm | hm
    · exact h.inserted i v hm
    · exact absurd (List.mem_singleton.mp hm).symm (hins i v)

/-- A call that writes one cell. -/
theorem Contents.write (h : Contents junk past l) {c : Call} {i : Nat} {v : Int32}
    (hi : i < l.length)
    (hexp : ∀ j, written (expected junk past) c j = if j = i then v else expected junk past j)
    (hins : ∀ k w, c = .insert k w → k.val = i) : Contents junk (past ++ [c]) (l.set i v) := by
  constructor
  case within =>
    intro j w hw
    rw [expected_snoc, hexp]
    by_cases hj : j = i
    · rw [hj, List.getElem?_set_self hi, Option.some.injEq] at hw
      rw [if_pos hj, hw]
    · rw [List.getElem?_set_ne (Ne.symm hj)] at hw
      rw [if_neg hj]
      exact h.within j w hw
  case beyond =>
    intro j hj
    rw [List.length_set] at hj
    rw [expected_snoc, hexp, if_neg (by omega), h.beyond j hj]
  case inserted =>
    intro k w hm
    rw [List.length_set]
    rcases List.mem_append.mp hm with hm | hm
    · exact h.inserted k w hm
    · rw [hins k w (List.mem_singleton.mp hm).symm]
      exact hi

theorem Contents.step {l' : List Int32} {c : Call} {o : Reply} (h : Contents junk past l)
    (hc : c ≠ .shrink) (heff : Effect c o l l') : Contents junk (past ++ [c]) l' := by
  cases heff with
  | @insert i v _ zeros hz hi =>
    apply (h.extend hz).write hi (fun _ => rfl)
    intro k w e
    cases e
    rfl
  | @delete i _ hi => exact h.write hi (fun _ => rfl) (fun _ _ e => nomatch e)
  | @deleteOut i _ hi =>
    -- what it would have written is expected there anyway
    refine h.skip (fun j => ?_) (fun _ _ e => nomatch e)
    show (if j = i.val then 0 else expected junk past j) = expected junk past j
    by_cases hj : j = i.val
    · rw [if_pos hj, h.beyond j (by omega)]
    · rw [if_neg hj]
  | @grow _ zeros hz => exact (h.extend hz).skip (fun _ => rfl) (fun _ _ e => nomatch e)
  | shrink => exact absurd rfl hc
  | get | compare _ | compareOut _ => exact h.skip (fun _ => rfl) (fun _ _ e => nomatch e)

end Contents

/-- A call other than `flex_shrink` changes the element at its own index at most; what it
    appends reads 0. -/
theorem Effect.frame {c : Call} {o : Reply} {l l' : List Int32} (heff : Effect c o l l')
    (hc : c ≠ .shrink) :
    l.length ≤ l'.length ∧ ∀ j, c.target ≠ some j →
      l'[j]? = if j < l.length then l[j]? else if j < l'.length then some 0 else none := by
  have hsame : ∀ j, l[j]? =
      if j < l.length then l[j]? else if j < l.length then some 0 else none := by
    intro j
    have h := getElem?_append_zeros (l := l) (List.forall_mem_nil _) j
    rw [List.append_nil] at h
    exact h
  cases heff with
  | @insert i v _ zeros hz hi =>
    refine ⟨by rw [List.length_set, List.length_append]; omega, fun j hj => ?_⟩
    have hne : i.val ≠ j := fun e => hj (congrArg some e)
    rw [List.getElem?_set_ne hne, List.length_set]
    exact getElem?_append_zeros hz j
  | @delete i _ hi =>
    refine ⟨by rw [List.length_set], fun j hj => ?_⟩
    have hne : i.val ≠ j := fun e => hj (congrArg some e)
    rw [List.getElem?_set_ne hne, List.length_set]
    exact hsame j
  | @grow _ zeros hz =>
    refine ⟨?_, fun j _ => getElem?_append_zeros hz j⟩
    rw [List.length_append]
    omega
  | shrink => exact absurd rfl hc
  | deleteOut _ => exact ⟨Nat.le_refl _, fun j _ => hsame j⟩
  | get => exact ⟨Nat.le_refl _, fun j _ => hsame j⟩
  | compare _ => exact ⟨Nat.le_refl _, fun j _ => hsame j⟩
  | compareOut _ => exact ⟨Nat.le_refl _, fun j _ => hsame j⟩

/-- The accessors of the flex answer for the elements `f` below the capacity. -/
structure ReadsAs (st : State) (f : Nat → Int32) : Prop where
  get : ∀ i : Index, getValue st i.val =
    .ok (if i.val < st.flex.usableDataBlocks then some (f i.val) else none)
  compare : ∀ (i : Index) (v : Int32), flexCompare st i.val v =
    .ok (if i.val < st.flex.usableDataBlocks then defaultCmp (f i.val) v else .failure)
  delete : ∀ i : Index, ∃ st', flexDelete st i.val =
    .ok (if i.val < st.flex.usableDataBlocks then .success else .failure, st')
  insert : ∀ (i : Index) (v : Int32), ∃ st', flexInsert granted st i.val v = .ok (.success, st')
  grow : ∃ st', flexGrow granted st = .ok (.success, st')

theorem Holds.readsAs {st : State} {bs : List (Addr × List Int32)} (H : Holds st bs)
    (hcmp : st.flex.cmpFunc = defaultCmp) {f : Nat → Int32}
    (hf : ∀ (j : Nat) (v : Int32), (cells bs)[j]? = some v → v = f j) : ReadsAs st f := by
  have hget : ∀ j, j < st.flex.usableDataBlocks → (cells bs)[j]? = some (f j) := by
    intro j hj
    rw [← H.length_cells] at hj
    rw [List.getElem?_eq_getElem hj]
    exact congrArg some (hf j _ (List.getElem?_eq_getElem hj))
  refine ⟨fun i => ?_, fun i v => ?_, fun i => ?_, fun i v => ?_, ?_⟩
  · rw [getValue_spec H i.property]
    by_cases hi : i.val < st.flex.usableDataBlocks
    · rw [if_pos hi, hget i.val hi]
    · rw [if_neg hi, List.getElem?_eq_none (by rw [H.length_cells]; omega)]
  · by_cases hi : i.val < st.flex.usableDataBlocks
    · rw [if_pos hi, flexCompare_in H i.property (hget i.val hi), hcmp]
    · rw [if_neg hi, flexCompare_out H i.property (by omega)]
  · by_cases hi : i.val < st.flex.usableDataBlocks
    · obtain ⟨heap, bs', hrun, -⟩ := flexDelete_in H i.property hi
      rw [if_pos hi]
      exact ⟨_, hrun⟩
    · rw [if_neg hi]
      exact ⟨st, flexDelete_out H i.property (by omega)⟩
  · obtain ⟨st', bs', zeros, hrun, -⟩ := flexInsert_spec H i.property v
    exact ⟨st', hrun⟩
  · obtain ⟨st', bs', hrun, -⟩ := flexGrow_spec H
    exact ⟨st', hrun⟩

/-- What a call may change: nothing but the element at its own index, and the cells it adds
    read 0. -/
def Framed (c : Call) (st st' : State) : Prop :=
  st.flex.usableDataBlocks ≤ st'.flex.usableDataBlocks ∧
    ∀ j : Index, c.target ≠ some j.val → getValue st' j.val =
      if j.val < st.flex.usableDataBlocks then getValue st j.val
      else .ok (if j.val < st'.flex.usableDataBlocks then some 0 else none)

theorem flexStep_framed {st : State} {bs : List (Addr × List Int32)} (H : Holds st bs)
    (hcmp : st.flex.cmpFunc = defaultCmp) {c : Call} (hc : c ≠ .shrink) :
    ∃ o st', flexStep granted st c = .ok (o, st') ∧ Framed c st st' := by
  obtain ⟨o, st', bs', hrun, H', -, heff⟩ := flexStep_spec H hcmp c
  obtain ⟨hle, hget⟩ := heff.frame hc
  rw [H.length_cells, H'.length_cells] at hle
  refine ⟨o, st', hrun, hle, fun j hj => ?_⟩
  have hj' := hget j.val hj
  rw [H.length_cells, H'.length_cells] at hj'
  rw [getValue_spec H' j.property, getValue_spec H j.property, hj']
  split <;> rfl

/-- After a session without `flex_shrink` the cells are those of the last values written. -/
theorem session_contents (junk : Int32) (calls : List Call) (hc : ∀ c ∈ calls, c ≠ .shrink) :
    ∃ os st bs, session junk calls = .ok (os, st) ∧ Holds st bs ∧
      st.flex.cmpFunc = defaultCmp ∧ Contents junk calls (cells bs) := by
  have h₀ : Contents junk [] [junk] := by
    refine ⟨fun j v hv => ?_, fun j hj => ?_, fun i v hm => absurd hm List.not_mem_nil⟩
    · cases j with
      | zero =>
        cases hv
        rfl
      | succ j => simp at hv
    · rw [List.length_singleton] at hj
      exact if_neg (by omega)
  obtain ⟨os, st, bs, hrun, H, hcmp, hR⟩ := session_history junk
    (fun past l => (∀ c ∈ past, c ≠ .shrink) → Contents junk past l) (fun _ => h₀)
    (fun past c o l l' h heff hns =>
      (h fun d hd => hns d (List.mem_append_left _ hd)).step
        (hns c (List.mem_append_right _ (List.mem_singleton_self c))) heff) calls
  exact ⟨os, st, bs, hrun, H, hcmp, hR hc⟩

/-- After every session without `flex_shrink` the flex reads as the array of the last values
    written, every inserted index is within the capacity, and every further call changes
    nothing but its own element. -/
theorem flex_array (junk : Int32) (calls : List Call) (hc : ∀ c ∈ calls, c ≠ .shrink) :
    ∃ os st, session junk calls = .ok (os, st) ∧ ReadsAs st (expected junk calls) ∧
      (∀ i v, .insert i v ∈ calls → i.val < st.flex.usableDataBlocks) ∧
      ∀ c, c ≠ .shrink → ∃ o st', flexStep granted st c = .ok (o, st') ∧ Framed c st st' := by
  obtain ⟨os, st, bs, hrun, H, hcmp, hcontents⟩ := session_contents junk calls hc
  refine ⟨os, st, hrun, H.readsAs hcmp hcontents.within, fun i v hm => ?_, fun c hne => ?_⟩
  · rw [← H.length_cells]
    exact hcontents.inserted i v hm
  · exact flexStep_framed H hcmp hne

theorem flex_array_three :
    (∀ c ∈ [Call.insert ⟨2, by decide⟩ 5, .grow, .delete ⟨0, by decide⟩], c ≠ .shrink) ∧
      ∃ os st, session 9 [.insert ⟨2, by decide⟩ 5, .grow, .delete ⟨0, by decide⟩] =
          .ok (os, st) ∧
        ReadsAs st (expected 9 [.insert ⟨2, by decide⟩ 5, .grow, .delete ⟨0, by decide⟩]) ∧
        (∀ i v, .insert i v ∈ [Call.insert ⟨2, by decide⟩ 5, .grow, .delete ⟨0, by decide⟩] →
          i.val < st.flex.usableDataBlocks) ∧
        ∀ c, c ≠ .shrink → ∃ o st', flexStep granted st c = .ok (o, st') ∧ Framed c st st' :=
  ⟨by decide, flex_array 9 _ (by decide)⟩

end DataMonkey.Flex
