import Mathlib.Algebra.Order.Field.Basic
import Mathlib.Data.List.Infix
import Mathlib.Tactic.Linarith
import Mathlib.Tactic.Ring

/-! # Walks by equal steps

A value that starts on a grid and then moves by steps that are slightly longer
than the grid's unit. As long as the excess of the steps does not add up to one
of them, the sign of the value is told by the number of steps alone. -/
namespace TradingMarket.Lib

variable {K : Type} [Field K]

/-- The value `n` steps below the `m`-th point of the grid. -/
def level (unit step : K) (m : Nat) (n : Int) : K := m * unit - n * step

theorem level_add (unit step : K) (m : Nat) (n d : Int) :
    level unit step m (n + d) = level unit step m n - d * step := by
  unfold level
  push_cast
  ring

variable [LinearOrder K] [IsStrictOrderedRing K] {unit step : K} {m : Nat} {n : Int}

/-- Fewer steps down than units keep the value positive. -/
theorem level_pos (hstep : 0 < step) (hexcess : m * (step - unit) < step) (hn : n < m) :
    0 < level unit step m n := by
  have hle : (n : K) + 1 ≤ m := by exact_mod_cast hn
  have hmul : ((n : K) + 1) * step ≤ m * step := mul_le_mul_of_nonneg_right hle hstep.le
  unfold level
  linarith

/-- As many steps down as units lead below 0. -/
theorem level_neg (hunit : unit < step) (hstep : 0 < step) (hm : 0 < m) (hn : m ≤ n) :
    level unit step m n < 0 := by
  have hle : (m : K) ≤ n := by exact_mod_cast hn
  have hpos : (0 : K) < m := by exact_mod_cast hm
  unfold level
  calc m * unit - n * step
      ≤ m * unit - m * step := sub_le_sub_left (mul_le_mul_of_nonneg_right hle hstep.le) _
    _ < 0 := sub_neg_of_lt (mul_lt_mul_of_pos_left hunit hpos)

theorem level_nonneg_iff (hunit : unit < step) (hstep : 0 < step)
    (hexcess : m * (step - unit) < step) (hm : 0 < m) : 0 ≤ level unit step m n ↔ n < m := by
  constructor
  · intro h
    by_contra hn
    exact absurd h (not_le_of_gt (level_neg hunit hstep hm (not_lt.mp hn)))
  · intro h
    exact (level_pos hstep hexcess h).le

/-- Every prefix of a list, its first element taken apart. -/
theorem forall_prefix_cons {α : Type} {P : List α → Prop} {a : α} {l : List α} :
    (∀ l', l' <+: a :: l → P l') ↔ P [] ∧ ∀ l', l' <+: l → P (a :: l') := by
  constructor
  · intro h
    exact ⟨h [] List.nil_prefix, fun l' hl => h _ (List.prefix_cons_inj a |>.mpr hl)⟩
  · intro h l' hl
    obtain ⟨hnil, hcons⟩ := h
    rcases List.prefix_cons_iff.mp hl with rfl | ⟨t, rfl, ht⟩
    · exact hnil
    · exact hcons t ht

end TradingMarket.Lib
