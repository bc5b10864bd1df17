import Mathlib.Algebra.Order.Group.Multiset
import Mathlib.Tactic.Abel
import DataMonkey.Skip.Step

/- Payload ownership: what goes into a list with a caller's `free_func` comes out once.

   At every point of a session the payloads handed to `skip_insert` are those already
   passed to `free_func` and those of the nodes now in the list; `skip_destroy` passes on
   the rest. -/
namespace DataMonkey.Skip

open Chain

variable {P : Type}

/-! ## The destruction loop -/

/-- The payloads released by a run over `ns`, the latest first. -/
def releaseAll (f : FreeFunc) (ns : List (Tower P)) (released : List (Option P)) :
    List (Option P) :=
  ns.foldl (fun rel n => callFree f (some n.payload) rel) released

theorem destroyNodes_spec (f : FreeFunc) :
    ∀ (ns : List (Tower P)) (fuel : Nat) (h : Heap P) (released : List (Option P)),
      (ns.map Tower.addr).Nodup → Seg (forward h 0) (ns.map Tower.addr) none →
      (∀ n ∈ ns, shapeOf h n.addr = some (n.key, some n.payload, n.height)) →
      ns.length ≤ fuel →
      ∃ h', destroyNodes f fuel (ns.map Tower.addr).head? h released =
          .ok (h', releaseAll f ns released) ∧
        (∀ n ∈ ns, h'.cell n.addr = none) ∧
        ∀ a, a ∉ ns.map Tower.addr → h'.cell a = h.cell a
  | [], fuel, h, released, _, _, _, _ => by
    refine ⟨h, ?_, by simp, fun _ _ => rfl⟩
    cases fuel <;> rfl
  | n :: ns, 0, h, released, _, _, _, hf => absurd hf (by simp)
  | n :: ns, fuel + 1, h, released, hnd, hseg, hs, hf => by
    obtain ⟨hn, hnd⟩ := List.nodup_cons.mp hnd
    obtain ⟨hsn, hsns⟩ := List.forall_mem_cons.mp hs
    obtain ⟨m, hl, -, -, hpay, -⟩ := load_of_shape hsn
    have hlink : forward h 0 n.addr = .ok (ns.map Tower.addr).head? := by
      rw [← first_none]
      exact hseg.1
    have hcell : ∀ a, a ≠ n.addr → (h.free n.addr).cell a = h.cell a :=
      fun a ha => Store.cell_free_ne ha
    have hne : ∀ a ∈ ns.map Tower.addr, a ≠ n.addr := by
      intro a ha e
      rw [e] at ha
      exact hn ha
    -- the rest of the chain reads the same without this node
    have hseg' : Seg (forward (h.free n.addr) 0) (ns.map Tower.addr) none := by
      apply hseg.2.congr
      intro a ha
      exact forward_congr (hcell a (hne a ha))
    have hs' : ∀ k ∈ ns,
        shapeOf (h.free n.addr) k.addr = some (k.key, some k.payload, k.height) := by
      intro k hk
      rw [shapeOf, hcell k.addr (hne _ (List.mem_map_of_mem hk))]
      exact hsns k hk
    obtain ⟨h', hrun, hgone, hkeep⟩ := destroyNodes_spec f ns fuel (h.free n.addr)
      (callFree f (some n.payload) released) hnd hseg' hs' (by simpa using hf)
    refine ⟨h', ?_, ?_, ?_⟩
    · rw [List.map_cons, List.head?_cons, destroyNodes, hlink, Runs.ok_bind, hl, Runs.ok_bind, hpay]
      exact hrun
    · refine List.forall_mem_cons.mpr ⟨?_, hgone⟩
      rw [hkeep n.addr hn]
      exact Store.cell_free_self _ _
    · intro a ha
      rw [List.map_cons, List.mem_cons, not_or] at ha
      rw [hkeep a ha.2, hcell a ha.1]

/-- `skip_destroy` frees the header and every node, and releases every payload in chain
    order. -/
theorem skipDestroy_spec {st : State P} {ns : List (Tower P)} (H : Inv st ns) :
    ∃ h', skipDestroy st = .ok (h', releaseAll st.sl.freeFunc ns st.released) ∧
      h'.cell st.sl.header = none ∧ ∀ n ∈ ns, h'.cell n.addr = none := by
  have r := H.rep
  obtain ⟨hhdr, hnd⟩ := List.nodup_cons.mp r.nodup
  have hchain := r.chain 0 (by decide)
  rw [levelNodes, r.onLevel_zero] at hchain
  have hlink := r.forward_header (i := 0) (by decide)
  rw [r.onLevel_zero] at hlink
  have hcell : ∀ a ∈ ns.map Tower.addr, (st.heap.free st.sl.header).cell a = st.heap.cell a :=
    fun a ha => Store.cell_free_ne fun e => hhdr (by rw [← e]; exact ha)
  have hseg : Seg (forward (st.heap.free st.sl.header) 0) (ns.map Tower.addr) none := by
    apply hchain.2.congr
    intro a ha
    exact forward_congr (hcell a ha)
  have hs : ∀ n ∈ ns, shapeOf (st.heap.free st.sl.header) n.addr =
      some (n.key, some n.payload, n.height) := by
    intro n hn
    rw [shapeOf, hcell n.addr (List.mem_map_of_mem hn)]
    exact r.node n hn
  obtain ⟨h', hrun, hgone, hkeep⟩ := destroyNodes_spec st.sl.freeFunc ns st.heap.next
    (st.heap.free st.sl.header) st.released hnd hseg hs (Nat.le_of_lt r.length_lt_next)
  refine ⟨h', ?_, ?_, hgone⟩
  · rw [skipDestroy, hlink, Runs.ok_bind]
    exact hrun
  · rw [hkeep _ hhdr]
    exact Store.cell_free_self _ _

/-! ## The ledger -/

/-- The payloads that a sequence of calls hands to `skip_insert`. -/
def inserted (calls : List (Call P)) : List (Option P) :=
  calls.filterMap fun
    | .insert _ p _ => some (some p)
    | _ => none

/-- The payloads of the nodes. -/
def stored (ns : List (Tower P)) : List (Option P) := ns.map fun n => some n.payload

theorem stored_middle (pre post : List (Tower P)) (x : Tower P) :
    (stored (pre ++ x :: post) : Multiset (Option P)) =
      stored (pre ++ post) + {some x.payload} := by
  simp only [stored, List.map_append, List.map_cons, ← Multiset.coe_add, ← Multiset.cons_coe]
  rw [← Multiset.singleton_add]
  abel

theorem inserted_snoc (past : List (Call P)) (c : Call P) :
    (inserted (past ++ [c]) : Multiset (Option P)) = inserted past + inserted [c] := by
  simp only [inserted, List.filterMap_append, Multiset.coe_add]

/-- Every effect keeps the balance. -/
theorem Effect.balance {c : Call P} {o : Reply P} {ns ns' : List (Tower P)}
    {rel rel' : List (Option P)} (heff : Effect FreeFunc.custom c o ns ns' rel rel') :
    (rel' : Multiset (Option P)) + stored ns' = rel + stored ns + inserted [c] := by
  cases heff with
  | @overwrite k p t pre post x _ hpre hx hpost =>
    rw [stored_middle, stored_middle]
    show ((some x.payload :: rel : List (Option P)) : Multiset (Option P)) + _ =
      _ + (([some p] : List (Option P)) : Multiset (Option P))
    rw [← Multiset.cons_coe, ← Multiset.singleton_add, Multiset.coe_singleton]
    abel
  | @add k p t pre post a _ hpre hpost =>
    rw [stored_middle]
    show _ = _ + (([some p] : List (Option P)) : Multiset (Option P))
    rw [Multiset.coe_singleton]
    abel
  | @remove k pre post x _ hpre hx hpost =>
    rw [stored_middle]
    show ((some x.payload :: rel : List (Option P)) : Multiset (Option P)) + _ = _ + 0
    rw [← Multiset.cons_coe, ← Multiset.singleton_add]
    abel
  | absent _ => exact (add_zero _).symm
  | search => exact (add_zero _).symm
  | fingerSearch => exact (add_zero _).symm
  | length => exact (add_zero _).symm

theorem releaseAll_custom (ns : List (Tower P)) (released : List (Option P)) :
    (releaseAll FreeFunc.custom ns released : Multiset (Option P)) = released + stored ns := by
  induction ns generalizing released with
  | nil => exact (add_zero _).symm
  | cons n ns ih =>
    have h := ih (callFree FreeFunc.custom (some n.payload) released)
    rw [releaseAll, List.foldl_cons]
    refine h.trans ?_
    show ((some n.payload :: released : List (Option P)) : Multiset (Option P)) + _ =
      _ + ((some n.payload :: stored ns : List (Option P)) : Multiset (Option P))
    rw [← Multiset.cons_coe, ← Multiset.cons_coe, ← Multiset.singleton_add,
      ← Multiset.singleton_add]
    abel

/-- After every session the inserted payloads are the released ones and those of the
    level-0 chain; after `skip_destroy` they are exactly the released ones. -/
theorem skip_payload_ledger (calls : List (Call P)) :
    ∃ os st c, session FreeFunc.custom calls = .ok (os, st) ∧ chainAt st 0 = some c ∧
      (inserted calls : Multiset (Option P)) = st.released + c.map (payloadOf st.heap) ∧
      ∃ heap released, skipDestroy st = .ok (heap, released) ∧
        (released : Multiset (Option P)) = inserted calls := by
  obtain ⟨os, st, ns, hrun, H, hf, -, hR⟩ := session_history FreeFunc.custom
    (fun past ns (rel : List (Option P)) =>
      (inserted past : Multiset (Option P)) = rel + stored ns)
    rfl
    (fun past c o ns ns' rel rel' h heff => by rw [inserted_snoc, heff.balance, h]) calls
  -- what the nodes hold is what the heap reads at their addresses
  have hpay : (ns.map Tower.addr).map (payloadOf st.heap) = stored ns := by
    rw [List.map_map, stored]
    apply List.map_congr_left
    intro n hn
    rw [Function.comp_apply, payloadOf_of_shape (H.rep.node n hn)]
  obtain ⟨h', hdestroy, -⟩ := skipDestroy_spec H
  refine ⟨os, st, ns.map Tower.addr, hrun, H.wellFormed.base, ?_, h', _, hdestroy, ?_⟩
  · rw [hpay]
    exact hR
  · rw [hf, releaseAll_custom]
    exact hR.symm

end DataMonkey.Skip
