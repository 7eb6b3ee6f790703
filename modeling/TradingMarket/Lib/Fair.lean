import Mathlib.Order.WellFounded
import TradingMarket.Lib.Machine

/-! # Fair schedules

A schedule without end is fair to a class of events when it takes its events
from the class and comes back to each of them again and again. On a machine
whose parties wait by spinning, a step either leaves the state as it is or gets
something done. If what is left to do is well-founded, and as long as there is
some of it one event of the class would do some, then every fair schedule gets
it all done, whatever the order of the events (`Progress.comes_to`). -/
namespace TradingMarket.Lib

variable {σ ε ρ : Type*}

/-- The schedule takes its events from the class, each of them again and again. -/
structure Fair (fair : ε → Prop) (schedule : Nat → ε) : Prop where
  only : ∀ n, fair (schedule n)
  again : ∀ e, fair e → ∀ n, ∃ m, n ≤ m ∧ schedule m = e

namespace Machine

/-- The state after `n` events of a schedule. An event that cannot happen is passed over. -/
def stateAt (M : Machine σ ε) (schedule : Nat → ε) (s : σ) : Nat → σ
  | 0 => s
  | n + 1 => (M.step (M.stateAt schedule s n) (schedule n)).getD (M.stateAt schedule s n)

/-- The events of the class get done what `rank` measures, among the states of `P`,
until `Done`. -/
structure Progress [LT ρ] (M : Machine σ ε) (fair : ε → Prop) (P Done : σ → Prop) (rank : σ → ρ) :
    Prop where
  keeps : ∀ s e t, P s → fair e → M.step s e = some t → P t
  moves : ∀ s e t, P s → fair e → M.step s e = some t → t = s ∨ rank t < rank s
  helps : ∀ s, P s → ¬ Done s → ∃ e, fair e ∧ ∃ t, M.step s e = some t ∧ rank t < rank s

variable {M : Machine σ ε} {fair : ε → Prop} {schedule : Nat → ε} {P Done : σ → Prop} {s : σ}

theorem stateAt_succ (s : σ) (n : Nat) : M.stateAt schedule s (n + 1) =
    (M.step (M.stateAt schedule s n) (schedule n)).getD (M.stateAt schedule s n) := rfl

/-- Going on with a schedule from where it has led. -/
theorem stateAt_add (s : σ) (n k : Nat) : M.stateAt schedule s (n + k) =
    M.stateAt (fun i => schedule (n + i)) (M.stateAt schedule s n) k := by
  induction k with
  | zero => rfl
  | succ k ih => rw [← Nat.add_assoc, stateAt_succ, ih, stateAt_succ]

/-- The states of a schedule are those of runs that take their events from it. -/
theorem stateAt_exec (h : ∀ n, fair (schedule n)) (s : σ) (n : Nat) :
    ∃ es, (∀ e ∈ es, fair e) ∧ M.exec s es = some (M.stateAt schedule s n) := by
  induction n with
  | zero => exact ⟨[], fun e he => (List.not_mem_nil he).elim, rfl⟩
  | succ n ih =>
    obtain ⟨es, hes, hexec⟩ := ih
    cases hstep : M.step (M.stateAt schedule s n) (schedule n) with
    | none => exact ⟨es, hes, by rw [hexec, stateAt_succ, hstep]; rfl⟩
    | some t =>
      refine ⟨es ++ [schedule n], fun e he => ?_, ?_⟩
      · rcases List.mem_append.mp he with he | he
        · exact hes e he
        · rw [List.mem_singleton.mp he]
          exact h n
      · rw [exec_concat, hexec, stateAt_succ, hstep]
        exact hstep

section Progress
variable [LT ρ] {rank : σ → ρ}

theorem Progress.stateAt (h : M.Progress fair P Done rank) (hfair : Fair fair schedule) (hs : P s)
    (n : Nat) : P (M.stateAt schedule s n) := by
  induction n with
  | zero => exact hs
  | succ n ih =>
    rw [stateAt_succ]
    cases hstep : M.step (M.stateAt schedule s n) (schedule n) with
    | none => exact ih
    | some t => exact h.keeps _ _ t ih (hfair.only n) hstep

/-- An event of the schedule leaves the state as it is or gets something done. -/
theorem Progress.next (h : M.Progress fair P Done rank) (hfair : Fair fair schedule) (hs : P s)
    (n : Nat) : M.stateAt schedule s (n + 1) = M.stateAt schedule s n ∨
      rank (M.stateAt schedule s (n + 1)) < rank (M.stateAt schedule s n) := by
  rw [stateAt_succ]
  cases hstep : M.step (M.stateAt schedule s n) (schedule n) with
  | none => exact .inl rfl
  | some t => exact h.moves _ _ t (h.stateAt hfair hs n) (hfair.only n) hstep

/-- While there is something left to do, some of it gets done some time. -/
theorem Progress.later (h : M.Progress fair P Done rank) (hfair : Fair fair schedule) (hs : P s)
    {n : Nat} (hleft : ¬ Done (M.stateAt schedule s n)) :
    ∃ m, n ≤ m ∧ rank (M.stateAt schedule s m) < rank (M.stateAt schedule s n) := by
  obtain ⟨e, he, t, hstep, hless⟩ := h.helps _ (h.stateAt hfair hs n) hleft
  obtain ⟨m, hm, hat⟩ := hfair.again e he n
  by_contra hnever
  -- otherwise the state is still the same when the helpful event comes
  have hsame : ∀ k, M.stateAt schedule s (n + k) = M.stateAt schedule s n := by
    intro k
    induction k with
    | zero => rfl
    | succ k ih =>
      rcases h.next hfair hs (n + k) with heq | hlt
      · exact heq.trans ih
      · exact absurd ⟨n + (k + 1), Nat.le_add_right n (k + 1), ih ▸ hlt⟩ hnever
  obtain ⟨k, rfl⟩ := Nat.exists_eq_add_of_le hm
  refine hnever ⟨n + (k + 1), Nat.le_add_right n (k + 1), ?_⟩
  rw [← Nat.add_assoc, stateAt_succ, hsame k, hat, hstep]
  exact hless

/-- Every fair schedule gets everything done. -/
theorem Progress.comes_to [WellFoundedLT ρ] (h : M.Progress fair P Done rank)
    (hfair : Fair fair schedule) (hs : P s) : ∃ n, Done (M.stateAt schedule s n) := by
  have hall : ∀ (r : ρ) (n : Nat), rank (M.stateAt schedule s n) = r →
      ∃ m, Done (M.stateAt schedule s m) := by
    intro r
    induction r using WellFoundedLT.induction with
    | ind r ih =>
      intro n hr
      by_cases hdone : Done (M.stateAt schedule s n)
      · exact ⟨n, hdone⟩
      · obtain ⟨m, -, hless⟩ := h.later hfair hs hdone
        exact ih _ (hr ▸ hless) m rfl
  exact hall _ 0 rfl

end Progress

end Machine

end TradingMarket.Lib
