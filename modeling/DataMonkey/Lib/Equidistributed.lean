import Mathlib.Algebra.BigOperators.Ring.Finset
import Mathlib.SetTheory.Cardinal.Finite

/- Equidistributed functions between finite types: every value is taken equally often.

   Counts are stated without division: the fibre of a value, times the number of values, is the
   number of arguments. The rules:

     1. `of_bijective`, `fst` — bijections and projections are equidistributed;
     2. `comp`, `comp_bijective` — so are compositions;
     3. `of_fibres` — so is a function of pairs that is for every second component. -/

def Equidistributed {α β : Type*} (f : α → β) : Prop :=
  ∀ y, Nat.card {x // f x = y} * Nat.card β = Nat.card α

namespace Equidistributed

variable {α β γ : Type*}

theorem of_bijective {f : α → β} (hf : Function.Bijective f) : Equidistributed f := by
  intro y
  obtain ⟨x, hx, huniq⟩ := hf.existsUnique y
  have : Unique {x // f x = y} := ⟨⟨⟨x, hx⟩⟩, fun z => Subtype.ext (huniq z.1 z.2)⟩
  rw [Nat.card_unique, Nat.one_mul, Nat.card_congr (Equiv.ofBijective f hf)]

/-- The arguments that reach `z` through `f` and then `g`. -/
def fibreComp (g : β → γ) (f : α → β) (z : γ) :
    {x // g (f x) = z} ≃ Σ y : {y // g y = z}, {x // f x = y.1} where
  toFun x := ⟨⟨f x.1, x.2⟩, x.1, rfl⟩
  invFun p := ⟨p.2.1, by rw [p.2.2]; exact p.1.2⟩
  left_inv _ := rfl
  right_inv := fun ⟨⟨_, _⟩, ⟨_, rfl⟩⟩ => rfl

theorem comp [Finite α] [Finite β] {g : β → γ} {f : α → β}
    (hg : Equidistributed g) (hf : Equidistributed f) : Equidistributed (g ∘ f) := by
  intro z
  have hsigma : Nat.card {x // g (f x) = z} * Nat.card β =
      Nat.card {y // g y = z} * Nat.card α := by
    have := Fintype.ofFinite {y // g y = z}
    rw [Nat.card_congr (fibreComp g f z), Nat.card_sigma, Finset.sum_mul,
      Finset.sum_const_nat fun y _ => hf y.1, Finset.card_univ, ← Nat.card_eq_fintype_card]
  rcases Nat.eq_zero_or_pos (Nat.card β) with h0 | hpos
  · -- without values there are no arguments
    have hα : Nat.card α = 0 := by
      rcases isEmpty_or_nonempty α with h | ⟨⟨x⟩⟩
      · exact Nat.card_of_isEmpty
      · rw [← hf (f x), h0, Nat.mul_zero]
    have : IsEmpty α := (Nat.card_eq_zero.mp hα).resolve_right fun h => h.not_finite ‹_›
    rw [hα]
    show Nat.card {x // g (f x) = z} * _ = 0
    rw [Nat.card_of_isEmpty, Nat.zero_mul]
  · apply Nat.eq_of_mul_eq_mul_right hpos
    show Nat.card {x // g (f x) = z} * Nat.card γ * Nat.card β = _
    calc Nat.card {x // g (f x) = z} * Nat.card γ * Nat.card β
        = Nat.card {x // g (f x) = z} * Nat.card β * Nat.card γ := Nat.mul_right_comm _ _ _
      _ = Nat.card {y // g y = z} * Nat.card γ * Nat.card α := by
          rw [hsigma, Nat.mul_right_comm]
      _ = Nat.card α * Nat.card β := by rw [hg z, Nat.mul_comm]

theorem comp_bijective {f : α → β} {e : γ → α}
    (hf : Equidistributed f) (he : Function.Bijective e) : Equidistributed (f ∘ e) := by
  intro y
  have hfib : Nat.card {x // f (e x) = y} = Nat.card {x // f x = y} :=
    Nat.card_congr ((Equiv.ofBijective e he).subtypeEquiv fun _ => Iff.rfl)
  show Nat.card {x // f (e x) = y} * _ = _
  rw [hfib, hf y, Nat.card_congr (Equiv.ofBijective e he)]

/-- The pairs that `f` takes to `y`, by their second component. -/
def fibrePair (f : α × γ → β) (y : β) : {p // f p = y} ≃ Σ c : γ, {a // f (a, c) = y} where
  toFun p := ⟨p.1.2, p.1.1, p.2⟩
  invFun q := ⟨(q.2.1, q.1), q.2.2⟩
  left_inv _ := rfl
  right_inv _ := rfl

theorem of_fibres [Finite α] [Finite γ] {f : α × γ → β}
    (h : ∀ c, Equidistributed fun a => f (a, c)) : Equidistributed f := by
  intro y
  have := Fintype.ofFinite γ
  rw [Nat.card_congr (fibrePair f y), Nat.card_sigma, Finset.sum_mul,
    Finset.sum_const_nat fun c _ => h c y, Finset.card_univ, Nat.card_prod,
    ← Nat.card_eq_fintype_card, Nat.mul_comm]

theorem fst [Finite α] [Finite γ] : Equidistributed (Prod.fst : α × γ → α) :=
  of_fibres fun _ => of_bijective Function.bijective_id

end Equidistributed
