import Mathlib.Algebra.Ring.Basic
import Mathlib.Data.UInt
import Mathlib.Logic.Equiv.Basic
import DataMonkey.Lookup3.Model

/- `mix` and `final` are reversible.

   Both macros repeat one line under a rotation of the three registers: a line of `mix` changes
   one register by the others and then adds to the next, a line of `final` changes one register
   by its neighbour. Every line can be undone, so the macros can. -/
namespace DataMonkey.Lookup3

/-- The next line of a macro works on `b, c, a`. -/
def turn : Abc ≃ Abc where
  toFun s := ⟨s.b, s.c, s.a⟩
  invFun s := ⟨s.c, s.a, s.b⟩
  left_inv _ := rfl
  right_inv _ := rfl

theorem xor_cancel (x y : UInt32) : x ^^^ y ^^^ y = x := by
  rw [UInt32.xor_assoc, UInt32.xor_self, UInt32.xor_zero]

/-- `a -= c; a ^= rot(c,k); c += b;` -/
def mixLine (k : UInt32) : Abc ≃ Abc where
  toFun s := ⟨(s.a - s.c) ^^^ rot s.c k, s.b, s.c + s.b⟩
  invFun s := ⟨(s.a ^^^ rot (s.c - s.b) k) + (s.c - s.b), s.b, s.c - s.b⟩
  left_inv s := by
    simp only [add_sub_cancel_right, xor_cancel, sub_add_cancel]
  right_inv s := by
    simp only [add_sub_cancel_right, xor_cancel, sub_add_cancel]

/-- `c ^= b; c -= rot(b,k);` -/
def finalLine (k : UInt32) : Abc ≃ Abc where
  toFun s := ⟨s.a, s.b, (s.c ^^^ s.b) - rot s.b k⟩
  invFun s := ⟨s.a, s.b, (s.c + rot s.b k) ^^^ s.b⟩
  left_inv s := by simp only [sub_add_cancel, xor_cancel]
  right_inv s := by simp only [add_sub_cancel_right, xor_cancel]

/-- The six lines of `mix`. -/
def mixEquiv : Abc ≃ Abc :=
  [4, 6, 8, 16, 19, 4].foldl (fun e k => e.trans ((mixLine k).trans turn)) (Equiv.refl Abc)

/-- The seven lines of `final`; the last one is not followed by another. -/
def finalEquiv : Abc ≃ Abc :=
  ([14, 11, 25, 16, 4, 14].foldl (fun e k => e.trans ((finalLine k).trans turn))
    (Equiv.refl Abc)).trans (finalLine 24)

theorem mix_eq (s : Abc) : mix s = mixEquiv s := rfl

theorem final_eq (s : Abc) : final s = finalEquiv s := rfl

theorem mix_bijective : Function.Bijective mix := by
  have h : mix = mixEquiv := funext mix_eq
  rw [h]
  exact mixEquiv.bijective

theorem final_bijective : Function.Bijective final := by
  have h : final = finalEquiv := funext final_eq
  rw [h]
  exact finalEquiv.bijective

/-- Neither macro loses anything of what is in the registers. -/
theorem mix_final_reversible : Function.Bijective mix ∧ Function.Bijective final :=
  ⟨mix_bijective, final_bijective⟩

end DataMonkey.Lookup3
