import Mathlib.Data.List.Perm.Subperm

/- A store of heap objects.

   Addresses are handed out in increasing order and never again, so an address that
   was freed stays dead: a stale pointer is caught even where a real allocator would
   have recycled the block. The record carries the fact that nothing lives above the
   allocation mark. -/

/-- Live objects by address; `next` is the first address never handed out. -/
structure Store (α : Type) where
  cell : Nat → Option α
  next : Nat
  fresh : ∀ a, next ≤ a → cell a = none

namespace Store

variable {α : Type}

def empty : Store α := ⟨fun _ => none, 0, fun _ _ => rfl⟩

theorem lt_next {h : Store α} {a : Nat} {v : α} (ha : h.cell a = some v) : a < h.next := by
  apply Nat.lt_of_not_le
  intro hle
  rw [h.fresh a hle] at ha
  cases ha

/-- Allocation: the object goes to the next address. -/
def alloc (h : Store α) (v : α) : Store α where
  cell := fun b => if b = h.next then some v else h.cell b
  next := h.next + 1
  fresh := fun a ha => by
    rw [if_neg (by omega)]
    exact h.fresh a (by omega)

/-- Overwrite a live object; a dead address stays dead. -/
def write (h : Store α) (a : Nat) (v : α) : Store α where
  cell := fun b => if b = a then (h.cell a).map (fun _ => v) else h.cell b
  next := h.next
  fresh := fun b hb => by
    split
    · next e => rw [← e, h.fresh b hb]; rfl
    · exact h.fresh b hb

def free (h : Store α) (a : Nat) : Store α where
  cell := fun b => if b = a then none else h.cell b
  next := h.next
  fresh := fun b hb => by
    split
    · rfl
    · exact h.fresh b hb

@[simp] theorem cell_alloc_self (h : Store α) (v : α) : (h.alloc v).cell h.next = some v := by
  simp [alloc]

theorem cell_alloc_of_live {h : Store α} {a : Nat} {v w : α} (ha : h.cell a = some w) :
    (h.alloc v).cell a = some w := by
  have := lt_next ha
  simp only [alloc, if_neg (show a ≠ h.next by omega), ha]

theorem cell_write_self {h : Store α} {a : Nat} {v w : α} (ha : h.cell a = some w) :
    (h.write a v).cell a = some v := by
  simp [write, ha]

theorem cell_write_ne {h : Store α} {a b : Nat} {v : α} (hb : b ≠ a) :
    (h.write a v).cell b = h.cell b := by
  simp [write, hb]

@[simp] theorem cell_free_self (h : Store α) (a : Nat) : (h.free a).cell a = none := by
  simp [free]

theorem cell_free_ne {h : Store α} {a b : Nat} (hb : b ≠ a) : (h.free a).cell b = h.cell b := by
  simp [free, hb]

/-! A dead address stays dead. -/

theorem cell_alloc_dead {h : Store α} {a : Nat} {v : α} (hlt : a < h.next)
    (ha : h.cell a = none) : (h.alloc v).cell a = none := by
  simp only [alloc, if_neg (Nat.ne_of_lt hlt), ha]

theorem cell_write_dead {h : Store α} {a b : Nat} {v : α} (hb : h.cell b = none) :
    (h.write a v).cell b = none := by
  by_cases hba : b = a
  · subst hba
    simp [write, hb]
  · rw [cell_write_ne hba, hb]

theorem cell_free_dead {h : Store α} {a b : Nat} (hb : h.cell b = none) :
    (h.free a).cell b = none := by
  by_cases hba : b = a
  · rw [hba, cell_free_self]
  · rw [cell_free_ne hba, hb]

/-- Distinct live addresses are fewer than the addresses handed out. -/
theorem length_le_next {h : Store α} {l : List Nat} (hnd : l.Nodup)
    (hl : ∀ a ∈ l, (h.cell a).isSome) : l.length ≤ h.next := by
  have hsub : l ⊆ List.range h.next := by
    intro a ha
    obtain ⟨v, hv⟩ := Option.isSome_iff_exists.mp (hl a ha)
    exact List.mem_range.mpr (lt_next hv)
  have hle := (List.subperm_of_subset hnd hsub).length_le
  rwa [List.length_range] at hle

end Store
