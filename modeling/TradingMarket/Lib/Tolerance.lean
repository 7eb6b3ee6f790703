import Mathlib.Algebra.Order.Field.Basic
import Mathlib.Tactic.Linarith

/-! # Comparing with a tolerance

Calling two numbers equal when they are less than `eps` apart is an equivalence
on a set only if the set keeps clear of the tolerance (`Separated`). There, each
class has a representative, and comparing with the tolerance is comparing
representatives exactly (`Separated.exists_rep`). -/
namespace TradingMarket.Lib

variable {α : Type*} [Field α] [LinearOrder α] [IsStrictOrderedRing α]

/-- Two elements within the tolerance of a third one are strictly within the
tolerance of each other. -/
def Separated (eps : α) (S : Set α) : Prop :=
  ∀ x ∈ S, ∀ y ∈ S, ∀ z ∈ S, |x - y| ≤ eps → |y - z| ≤ eps → |x - z| < eps

variable {eps : α} {S : Set α}

/-- On a separated set no two elements are exactly the tolerance apart. -/
theorem Separated.trichotomy (heps : 0 < eps) (h : Separated eps S) {x y : α} (hx : x ∈ S)
    (hy : y ∈ S) : eps < x - y ∨ |x - y| < eps ∨ eps < y - x := by
  by_cases hle : |x - y| ≤ eps
  · exact .inr (.inl (h x hx y hy y hy hle (by simpa using heps.le)))
  · rcases lt_abs.mp (not_le.mp hle) with hlt | hlt
    · exact .inl hlt
    · rw [neg_sub] at hlt
      exact .inr (.inr hlt)

/-- Being less than the tolerance apart, on a separated set. -/
def Separated.near (heps : 0 < eps) (h : Separated eps S) : Setoid S where
  r x y := |x.1 - y.1| < eps
  iseqv :=
    { refl := fun x => by simpa using heps
      symm := fun {x y} hxy => by rwa [abs_sub_comm] at hxy
      trans := fun {x y z} hxy hyz => h x x.2 y y.2 z z.2 hxy.le hyz.le }

theorem Separated.exists_rep (heps : 0 < eps) (h : Separated eps S) :
    ∃ rep : α → α, ∀ x ∈ S, ∀ y ∈ S,
      (|x - y| < eps → rep x = rep y) ∧ (eps < x - y → rep y < rep x) := by
  classical
  let near := h.near heps
  let out : S → S := fun x => (Quotient.mk near x).out
  have hout : ∀ x : S, |(out x).1 - x.1| < eps := fun x => Quotient.mk_out (s := near) x
  refine ⟨fun x => if hx : x ∈ S then (out ⟨x, hx⟩).1 else x, fun x hx y hy => ?_⟩
  simp only [dif_pos hx, dif_pos hy]
  constructor
  · intro hxy
    have hclass : Quotient.mk near ⟨x, hx⟩ = Quotient.mk near ⟨y, hy⟩ := Quotient.sound hxy
    exact congrArg (fun q => q.out.1) hclass
  · intro hfar
    have hx' := hout ⟨x, hx⟩
    have hy' := hout ⟨y, hy⟩
    rcases h.trichotomy heps (out ⟨x, hx⟩).2 (out ⟨y, hy⟩).2 with hlt | hnear | hlt
    · exact sub_pos.mp (heps.trans hlt)
    · -- then the two classes would be one
      have h1 := h _ (out ⟨x, hx⟩).2 _ (out ⟨y, hy⟩).2 y hy hnear.le hy'.le
      have h2 := h x hx _ (out ⟨x, hx⟩).2 y hy (by rw [abs_sub_comm]; exact hx'.le) h1.le
      exact absurd (le_abs_self (x - y)) (not_le.mpr (h2.trans hfar))
    · have h1 := neg_lt_of_abs_lt hx'
      have h2 := lt_of_abs_lt hy'
      linarith

end TradingMarket.Lib
