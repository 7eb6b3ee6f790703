import Mathlib.Data.Prod.Lex
import TradingMarket.L3.Pipeline

/-! # What is left to do on an L3 ring

A step of a `Put` or of a consumer either gets it further or is a spin, which
leaves everything as it is. A `Put` spins only while the ring is full, a
consumer only while its barrier has nothing for it. -/
namespace TradingMarket.L3

variable {α : Type} {size barrier : Nat} {msg : α} {d d' : Disruptor α}

/-! ## A `Put` -/

/-- The steps a `Put` has before it. -/
def PutPc.left : PutPc → Nat
  | .claim => 4
  | .waitBarrier _ => 3
  | .write _ => 2
  | .commit _ => 1

theorem PutPc.left_pos (put : PutPc) : 0 < put.left := by
  cases put <;> simp [PutPc.left]

/-- A step of a `Put` gets something done, or waits. -/
theorem PutStep.left {put put' : PutPc} (h : PutStep size barrier msg d put d' (some put')) :
    (d' = d ∧ put' = put) ∨ put'.left < put.left := by
  cases h with
  | full | waitTurn => exact .inl ⟨rfl, rfl⟩
  | claim | room | write => exact .inr (by simp [PutPc.left])

/-- The only `Put` of a ring gets on unless the ring is full. -/
theorem putStep_moves {put : PutPc} (hplace : put.Place size barrier msg d)
    (hroom : ∀ slot, put = .waitBarrier slot → slot - size < barrier) :
    (d.putStep size barrier msg put).2 ≠ some put := by
  cases put with
  | claim => exact fun heq => nomatch heq
  | waitBarrier slot =>
    rw [putStep_room (hroom slot rfl)]
    exact fun heq => nomatch heq
  | write slot => exact fun heq => nomatch heq
  | commit slot =>
    rw [putStep_commit hplace.1.le]
    exact fun heq => nomatch heq

/-! ## A consumer -/

variable {g g' : Get}

/-- How far a consumer is from taking its next message. -/
def Get.phase (g : Get) : Nat :=
  match g.pc with
  | .waitBatch => 1
  | .batch index last => if index = last then 2 else 0

/-- What a consumer that has taken these messages has left to do of `n`. -/
def Get.left (n : Nat) (taken : List α) (g : Get) : ℕ ×ₗ ℕ := toLex (n - taken.length, g.phase)

/-- A step of a consumer gets something done, or waits. -/
theorem GetStep.left {n : Nat} {taken : List α} {msg : Option α}
    (h : GetStep size barrier d g g' msg) (hn : (taken ++ msg.toList).length ≤ n) :
    (g' = g ∧ msg = none) ∨ g'.left n (taken ++ msg.toList) < g.left n taken := by
  obtain ⟨cursor, pc⟩ := g
  cases h with
  | spin => exact .inl ⟨rfl, rfl⟩
  | take hpc hlt =>
    cases hpc
    refine .inr (Prod.Lex.toLex_lt_toLex.mpr (.inr ⟨by simp, ?_⟩))
    simp [Get.phase, Nat.ne_of_lt hlt]
  | release hpc =>
    cases hpc
    exact .inr (Prod.Lex.toLex_lt_toLex.mpr (.inr ⟨by simp, by simp [Get.phase]⟩))
  | handle hpc hne =>
    refine .inr (Prod.Lex.toLex_lt_toLex.mpr (.inl ?_))
    simp only [Option.toList_some, List.length_append, List.length_singleton] at hn ⊢
    omega

/-- A consumer gets on unless its barrier has not passed its cursor. -/
theorem getStep_moves (hbusy : g.pc = .waitBatch → g.cursor < barrier) :
    (g.step size barrier d).1 ≠ g := by
  obtain ⟨cursor, pc⟩ := g
  cases pc with
  | waitBatch =>
    have hclaim : claimBatch barrier cursor = some barrier := if_neg (Nat.not_le_of_lt (hbusy rfl))
    simp [Get.step, hclaim]
  | batch index last =>
    by_cases hend : index = last
    · simp [Get.step, hend]
    · simp [Get.step, hend]

end TradingMarket.L3
