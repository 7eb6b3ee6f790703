import Mathlib.Algebra.Order.Field.Basic
import Mathlib.Algebra.Order.Group.Abs
import Mathlib.Algebra.Group.Subgroup.ZPowers.Basic
import Mathlib.Algebra.Order.Ring.Cast
import Mathlib.Data.Int.Cast.Lemmas

/-! # Numbers on a grid

The multiples of a unit are closed under sums and differences, and different
ones are at least a unit apart, so a tolerance below the unit tells them apart
exactly. -/
namespace TradingMarket.Lib

variable {K : Type*} [Field K] [LinearOrder K] [IsStrictOrderedRing K] {unit p q : K}

/-- The multiples of `unit`. -/
abbrev grid (unit : K) : AddSubgroup K := AddSubgroup.zmultiples unit

omit [LinearOrder K] [IsStrictOrderedRing K] in
theorem mem_grid {x : K} : x ∈ grid unit ↔ ∃ n : ℤ, n * unit = x := by
  simp only [grid, AddSubgroup.mem_zmultiples_iff, zsmul_eq_mul]

/-- A number of the grid that is not zero is not below the unit. -/
theorem unit_le_abs (hunit : 0 < unit) (hp : p ∈ grid unit) (hne : p ≠ 0) : unit ≤ |p| := by
  obtain ⟨n, rfl⟩ := mem_grid.mp hp
  have hn : n ≠ 0 := by
    rintro rfl
    exact hne (by simp)
  have hone : (1 : K) ≤ |(n : K)| := by
    rw [← Int.cast_abs]
    exact_mod_cast Int.one_le_abs hn
  rw [abs_mul, abs_of_pos hunit]
  exact le_mul_of_one_le_left hunit.le hone

/-- Different numbers of the grid are a unit apart. -/
theorem unit_le_abs_sub (hunit : 0 < unit) (hp : p ∈ grid unit) (hq : q ∈ grid unit)
    (hne : p ≠ q) : unit ≤ |p - q| :=
  unit_le_abs hunit (sub_mem hp hq) (sub_ne_zero.mpr hne)

end TradingMarket.Lib
