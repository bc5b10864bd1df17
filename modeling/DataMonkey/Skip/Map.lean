import Mathlib.Data.Finmap
import DataMonkey.Skip.Step

/- A skip list is a finite map.

   The specification machine has a `Finmap` from keys to payloads and no heights and no
   fingers. `Represents` relates it to the nodes of the list, every effect of a call is an
   operation of the map, and the simulation rule lifts this to sessions.

     1. `skip_refines_map` — the replies of a session are those of the map;
     2. `skipFingerSearch_agrees_iff` — finger search answers as search does exactly where
        `FingerMiss` does not hold. -/
namespace DataMonkey.Skip

variable {P : Type}

/-! ## The map machine -/

/-- The calls that the map knows: heights and finger searches are not among them. -/
inductive Op (P : Type) where
  | insert (key : Key) (payload : P)
  | delete (key : Key)
  | search (key : Key)
  | length
  deriving DecidableEq

def opOf : Call P → Option (Op P)
  | .insert k p _ => some (.insert k p)
  | .delete k => some (.delete k)
  | .search k => some (.search k)
  | .fingerSearch _ => none
  | .length => some .length

abbrev KeyMap (P : Type) := Finmap fun _ : Key => P

def mapStep (M : KeyMap P) : Op P → Reply P × KeyMap P
  | .insert k p => (.code (if k ∈ M then 2 else 1), M.insert k p)
  | .delete k => if k ∈ M then (.code 1, M.erase k) else (.code 0, M)
  | .search k => (.payload (M.lookup k), M)
  | .length => (.length M.keys.card, M)

/-- The map holds the payload of every node under its key and nothing else. -/
def Represents (M : KeyMap P) (ns : List (Tower P)) : Prop :=
  ∀ k : Key, M.lookup k = lookup ns k.val

/-! ## Lookups in a list cut at a key -/

section Lookup

variable {pre post : List (Tower P)} {x : Tower P} {k : UInt32}

theorem lookup_middle (post : List (Tower P)) (hpre : ∀ n ∈ pre, n.key < k) (hx : x.key = k) :
    lookup (pre ++ x :: post) k = some x.payload := by
  rw [lookup_skip fun n hn => UInt32.ne_of_lt (hpre n hn), lookup_head hx]

theorem lookup_middle_ne (pre post : List (Tower P)) {k' : UInt32} (hx : x.key ≠ k') :
    lookup (pre ++ x :: post) k' = lookup (pre ++ post) k' := by
  simp only [lookup, List.find?_append, List.find?_cons, hx, decide_false]

theorem lookup_cut (hpre : ∀ n ∈ pre, n.key < k) (hpost : ∀ n ∈ post, k < n.key) :
    lookup (pre ++ post) k = none := lookup_eq_none (key_ne_of_cut hpre hpost)

end Lookup

/-! ## The simulation -/

namespace Represents

variable {M : KeyMap P} {pre post ns : List (Tower P)} {x : Tower P} {k : Key}

theorem mem_iff (h : Represents M ns) (k : Key) : k ∈ M ↔ (lookup ns k.val).isSome := by
  rw [← h k, Finmap.lookup_isSome]

theorem insert (h : Represents M (pre ++ post)) (hx : x.key = k.val)
    (hpre : ∀ n ∈ pre, n.key < k.val) : Represents (M.insert k x.payload) (pre ++ x :: post) := by
  intro k'
  by_cases hk : k' = k
  · rw [hk, Finmap.lookup_insert, lookup_middle post hpre hx]
  · have hne : x.key ≠ k'.val := fun e => hk (Subtype.ext (e.symm.trans hx))
    rw [Finmap.lookup_insert_of_ne M hk, lookup_middle_ne pre post hne]
    exact h k'

theorem erase (h : Represents M (pre ++ x :: post)) (hx : x.key = k.val)
    (hpre : ∀ n ∈ pre, n.key < k.val) (hpost : ∀ n ∈ post, k.val < n.key) :
    Represents (M.erase k) (pre ++ post) := by
  intro k'
  by_cases hk : k' = k
  · rw [hk, Finmap.lookup_erase, lookup_cut hpre hpost]
  · have hne : x.key ≠ k'.val := fun e => hk (Subtype.ext (e.symm.trans hx))
    rw [Finmap.lookup_erase_ne hk, h k', lookup_middle_ne pre post hne]

theorem overwrite (h : Represents M (pre ++ x :: post)) (hx : x.key = k.val)
    (hpre : ∀ n ∈ pre, n.key < k.val) (p : P) :
    Represents (M.insert k p) (pre ++ { x with payload := p } :: post) := by
  intro k'
  by_cases hk : k' = k
  · have hnew := lookup_middle (x := { x with payload := p }) post hpre hx
    rw [hk, Finmap.lookup_insert, hnew]
  · have hne : x.key ≠ k'.val := fun e => hk (Subtype.ext (e.symm.trans hx))
    have hnew := lookup_middle_ne (x := { x with payload := p }) pre post hne
    rw [Finmap.lookup_insert_of_ne M hk, h k', lookup_middle_ne pre post hne, hnew]

/-- The number of keys is the number of nodes. -/
theorem card (h : Represents M ns) (hsort : ns.Pairwise fun m n => m.key < n.key)
    (hpos : ∀ n ∈ ns, 0 < n.key) : M.keys.card = ns.length := by
  -- the nodes carry distinct keys, and they are those of the map
  have hkeys : M.keys.image Subtype.val = (ns.map Tower.key).toFinset := by
    ext k
    simp only [Finset.mem_image, Finmap.mem_keys, List.mem_toFinset, List.mem_map]
    refine ⟨?_, ?_⟩
    · intro h
      obtain ⟨k', hk', rfl⟩ := h
      exact lookup_isSome_iff.mp ((h.mem_iff k').mp hk')
    · intro h
      obtain ⟨n, hn, rfl⟩ := h
      refine ⟨⟨n.key, (UInt32.ne_of_lt (hpos n hn)).symm⟩, ?_, rfl⟩
      rw [h.mem_iff]
      exact lookup_isSome_iff.mpr ⟨n, hn, rfl⟩
  have hnd : (ns.map Tower.key).Nodup := by
    rw [List.nodup_iff_pairwise_ne, List.pairwise_map]
    exact hsort.imp fun hlt => UInt32.ne_of_lt hlt
  calc M.keys.card = (M.keys.image Subtype.val).card :=
        (Finset.card_image_of_injective _ Subtype.val_injective).symm
    _ = (ns.map Tower.key).toFinset.card := by rw [hkeys]
    _ = (ns.map Tower.key).length := List.toFinset_card_of_nodup hnd
    _ = ns.length := List.length_map _

end Represents

/-- Every effect of a call is the operation of the map. -/
theorem Effect.map {f : FreeFunc} {c : Call P} {o : Reply P} {ns ns' : List (Tower P)}
    {rel rel' : List (Option P)} (heff : Effect f c o ns ns' rel rel')
    (hsort : ns.Pairwise fun m n => m.key < n.key) (hpos : ∀ n ∈ ns, 0 < n.key) {M : KeyMap P}
    (h : Represents M ns) :
    match opOf c with
    | none => Represents M ns'
    | some op => o = (mapStep M op).1 ∧ Represents (mapStep M op).2 ns' := by
  cases heff with
  | @overwrite k p t pre post x _ hpre hx hpost =>
    have hk : k ∈ M := by rw [h.mem_iff, lookup_middle post hpre hx]; rfl
    simp only [opOf, mapStep, if_pos hk, true_and]
    exact h.overwrite hx hpre p
  | @add k p t pre post a _ hpre hpost =>
    have hk : k ∉ M := by rw [h.mem_iff, lookup_cut hpre hpost]; simp
    simp only [opOf, mapStep, if_neg hk, true_and]
    exact Represents.insert (x := ⟨a, k.val, p, t.val⟩) h rfl hpre
  | @remove k pre post x _ hpre hx hpost =>
    have hk : k ∈ M := by rw [h.mem_iff, lookup_middle post hpre hx]; rfl
    simp only [opOf, mapStep, if_pos hk, true_and]
    exact h.erase hx hpre hpost
  | @absent k _ _ habs =>
    have hk : k ∉ M := by rw [h.mem_iff, lookup_eq_none habs]; simp
    simp only [opOf, mapStep, if_neg hk, true_and]
    exact h
  | @search k _ _ => exact ⟨congrArg Reply.payload (h k).symm, h⟩
  | fingerSearch => exact h
  | length =>
    refine ⟨?_, h⟩
    simp only [mapStep, h.card hsort hpos]

/-- A list in the invariant and a map with the same contents. -/
def Refines (st : State P) (M : KeyMap P) : Prop := ∃ ns, Inv st ns ∧ Represents M ns

theorem skipStep_simulates : Runs.Simulates skipStep mapStep opOf (Refines (P := P)) := by
  intro st M c h
  obtain ⟨ns, H, hM⟩ := h
  obtain ⟨o, st', ns', hrun, H', -, heff, -⟩ := skipStep_spec H c
  have hmap := heff.map H.rep.sorted H.rep.key_pos hM
  refine ⟨o, st', hrun, ?_⟩
  cases hop : opOf c with
  | none =>
    rw [hop] at hmap
    exact ⟨ns', H', hmap⟩
  | some op =>
    rw [hop] at hmap
    exact ⟨hmap.1, ns', H', hmap.2⟩

theorem session_map (f : FreeFunc) (calls : List (Call P)) :
    ∃ os st, session f calls = .ok (os, st) ∧
      Runs.answers opOf calls os = (Runs.runSpec mapStep ∅ (calls.filterMap opOf)).1 := by
  obtain ⟨st₀, hinit, H₀, -⟩ := skipInit_spec (P := P) f
  have hempty : Refines st₀ (∅ : KeyMap P) := ⟨[], H₀, fun k => Finmap.lookup_empty k⟩
  obtain ⟨os, st, hrun, hos, -⟩ := skipStep_simulates.run calls st₀ ∅ hempty
  refine ⟨os, st, ?_, hos⟩
  simp only [session, hinit, Runs.ok_bind, hrun]

/-- Every session succeeds, and its replies, those of finger searches left out, are the
    replies of the map; so they are those of any other session that makes the same calls
    to the map, whatever its heights and its finger searches. -/
theorem skip_refines_map (f : FreeFunc) (calls : List (Call P)) :
    ∃ os st, session f calls = .ok (os, st) ∧
      Runs.answers opOf calls os = (Runs.runSpec mapStep ∅ (calls.filterMap opOf)).1 ∧
      ∀ g calls', calls'.filterMap opOf = calls.filterMap opOf →
        ∃ os' st', session g calls' = .ok (os', st') ∧
          Runs.answers opOf calls' os' = Runs.answers opOf calls os := by
  obtain ⟨os, st, hrun, hos⟩ := session_map f calls
  refine ⟨os, st, hrun, hos, fun g calls' hsame => ?_⟩
  obtain ⟨os', st', hrun', hos'⟩ := session_map g calls'
  exact ⟨os', st', hrun', by rw [hos', hsame, hos]⟩

/-! ## Finger search against search -/

/-- In every list that a session reaches, finger search and search both return, and they
    return the same exactly outside `FingerMiss`. -/
theorem skipFingerSearch_agrees_iff (f : FreeFunc) (calls : List (Call P)) :
    ∃ os st, session f calls = .ok (os, st) ∧ ∀ k : Key, ∃ r st' s,
      skipFingerSearch st k.val = .ok (r, st') ∧ skipSearch st k.val = .ok s ∧
      (r = s ↔ ¬ FingerMiss st k.val) := by
  obtain ⟨os, st, ns, hrun, H, -⟩ := session_spec f calls
  refine ⟨os, st, hrun, fun k => ?_⟩
  obtain ⟨r, st', hfinger, hiff⟩ := fingerSearch_eq_iff H k.property
  exact ⟨r, st', _, hfinger, skipSearch_spec H.toHolds k.property, hiff⟩

/-- Three keys inserted in falling order at height 1, then the last one looked up both
    ways: the first finger is the header, whose successor has a smaller key. -/
theorem skipFingerSearch_misses :
    ∃ os st, session FreeFunc.defaultFree
        [Call.insert ⟨3, by decide⟩ 'c' ⟨1, by decide, by decide⟩,
         Call.insert ⟨2, by decide⟩ 'b' ⟨1, by decide, by decide⟩,
         Call.insert ⟨1, by decide⟩ 'a' ⟨1, by decide, by decide⟩] = .ok (os, st) ∧
      skipSearch st 3 = .ok (some 'c') ∧ ∃ st', skipFingerSearch st 3 = .ok (none, st') :=
  ⟨_, _, rfl, rfl, _, rfl⟩

end DataMonkey.Skip
