import Mathlib.Data.List.Induction
import TradingMarket.MatchLoop

/-! # Runs of an order book

A new `OrderBook` driven by any sequence of `addOrder` and `match` calls, at the
grain of the steps of `match()`. The state carries two ghost records: the orders
added and the trades committed, each in order. -/
namespace TradingMarket

open Lib (Machine)

variable {τ : Type}

structure BookRun (τ : Type) where
  loop : Loop τ := {}
  added : List (BookOrder τ) := []
  committed : List (TradedOrder τ) := []
deriving DecidableEq, Repr

inductive BookEvent (τ : Type) where
  | addOrder (o : BookOrder τ)
  | callMatch
  | tick
deriving DecidableEq, Repr

abbrev BookRun.book (s : BookRun τ) : OrderBook τ := s.loop.book

abbrev BookRun.pc (s : BookRun τ) : LoopPc := s.loop.pc

/-- One event. Calls happen between calls only, ticks inside `match()` only. -/
def bookStep (eps : ℚ) (s : BookRun τ) : BookEvent τ → Option (BookRun τ)
  | .addOrder o =>
    if s.pc = .idle then
      some { s with loop := ⟨s.book.addOrder eps o, .idle⟩, added := s.added ++ [o] }
    else none
  | .callMatch => if s.pc = .idle then some { s with loop := ⟨s.book, .outer 0⟩ } else none
  | .tick => (loopStep eps s.loop).map fun r =>
      { s with loop := r.1, committed := s.committed ++ r.2.toList }

def bookMachine (eps : ℚ) : Machine (BookRun τ) (BookEvent τ) := ⟨{}, bookStep eps⟩

/-- A call a client of the book makes. -/
inductive BookCall (τ : Type) where
  | addOrder (o : BookOrder τ)
  | callMatch
deriving DecidableEq, Repr

/-- An order of the asset the repository trades, tagged by its sequence number. -/
def tklam (sequence : Nat) (type : OrderType) (matchType : MatchType) (quantity price : ℚ) :
    BookOrder Nat :=
  ⟨⟨Int64.ofNat sequence, type, matchType, "TKLAM".toList, quantity, price⟩, sequence⟩

/-- A whole call. -/
def BookRun.call (eps : ℚ) (s : BookRun τ) : BookCall τ → BookRun τ
  | .addOrder o =>
    { s with loop := ⟨s.book.addOrder eps o, .idle⟩, added := s.added ++ [o] }
  | .callMatch =>
    { s with loop := ⟨s.book.matchOrders eps, .idle⟩
             committed := s.committed ++ s.book.trades eps }

/-- A sequence of whole calls on a new book. -/
def runCalls (eps : ℚ) (calls : List (BookCall τ)) : BookRun τ :=
  calls.foldl (BookRun.call eps) {}

variable {eps : ℚ}

@[simp] theorem runCalls_nil : runCalls eps ([] : List (BookCall τ)) = {} := rfl

theorem runCalls_concat (calls : List (BookCall τ)) (c : BookCall τ) :
    runCalls eps (calls ++ [c]) = (runCalls eps calls).call eps c := by
  simp [runCalls]

theorem runCalls_idle (calls : List (BookCall τ)) : (runCalls eps calls).pc = .idle := by
  induction calls using List.reverseRecOn with
  | nil => rfl
  | append_singleton calls c _ => rw [runCalls_concat]; cases c <;> rfl

/-! ## What an event can do -/

/-- The ways one event changes a run. -/
inductive BookStep (eps : ℚ) : BookRun τ → BookEvent τ → BookRun τ → Prop
  | addOrder {book added committed} (o : BookOrder τ) :
      BookStep eps ⟨⟨book, .idle⟩, added, committed⟩ (.addOrder o)
        ⟨⟨book.addOrder eps o, .idle⟩, added ++ [o], committed⟩
  | callMatch {book added committed} :
      BookStep eps ⟨⟨book, .idle⟩, added, committed⟩ .callMatch
        ⟨⟨book, .outer 0⟩, added, committed⟩
  | tick {l l' added committed t} : LoopStep eps l t l' →
      BookStep eps ⟨l, added, committed⟩ .tick ⟨l', added, committed ++ t.toList⟩

theorem bookStep_cases {s s' : BookRun τ} {e : BookEvent τ}
    (h : (bookMachine eps).step s e = some s') : BookStep eps s e s' := by
  obtain ⟨⟨book, pc⟩, added, committed⟩ := s
  change bookStep eps _ e = some s' at h
  cases e with
  | addOrder o =>
    simp only [bookStep] at h
    split at h
    · rename_i hpc
      cases hpc
      cases h
      exact .addOrder o
    · cases h
  | callMatch =>
    simp only [bookStep] at h
    split at h
    · rename_i hpc
      cases hpc
      cases h
      exact .callMatch
    · cases h
  | tick =>
    obtain ⟨⟨l', t⟩, hl, rfl⟩ := Option.map_eq_some_iff.mp h
    exact .tick (loopStep_cases hl)

/-- A run only appends to its records. -/
theorem reaches_appends {s s' : BookRun τ} (h : (bookMachine eps).Reaches s s') :
    s.added <+: s'.added ∧ s.committed <+: s'.committed := by
  have hstep : ∀ u e v, (s.added <+: u.added ∧ s.committed <+: u.committed) →
      (bookMachine eps).step u e = some v → s.added <+: v.added ∧ s.committed <+: v.committed := by
    intro u e v hu huv
    cases bookStep_cases huv with
    | addOrder => exact ⟨hu.1.trans (List.prefix_append _ _), hu.2⟩
    | callMatch => exact hu
    | tick => exact ⟨hu.1, hu.2.trans (List.prefix_append _ _)⟩
  exact h.preserves hstep ⟨List.prefix_rfl, List.prefix_rfl⟩

/-! ## Whole calls and single steps -/

theorem exec_of_loopRuns {l l' : Loop τ} {ts : List (TradedOrder τ)} (h : LoopRuns eps l ts l')
    (added : List (BookOrder τ)) (committed : List (TradedOrder τ)) :
    ∃ n, (bookMachine eps).exec ⟨l, added, committed⟩ (List.replicate n .tick) =
      some ⟨l', added, committed ++ ts⟩ := by
  induction h generalizing committed with
  | done => exact ⟨0, by simp⟩
  | @step l l' l'' t ts hs _ ih =>
    obtain ⟨n, hn⟩ := ih (committed ++ t.toList)
    refine ⟨n + 1, ?_⟩
    have hone : (bookMachine eps).step ⟨l, added, committed⟩ .tick =
        some ⟨l', added, committed ++ t.toList⟩ := by
      simp [bookMachine, bookStep, hs]
    rw [List.replicate_succ, Machine.exec_cons, hone, Option.bind_some, hn, List.append_assoc]

/-- A whole call is a run of single steps. -/
theorem call_reaches (s : BookRun τ) (hs : s.pc = .idle) (c : BookCall τ) :
    (bookMachine eps).Reaches s (s.call eps c) := by
  obtain ⟨⟨book, pc⟩, added, committed⟩ := s
  cases hs
  cases c with
  | addOrder o => exact Machine.Reaches.single (e := BookEvent.addOrder o) rfl
  | callMatch =>
    obtain ⟨n, hn⟩ := exec_of_loopRuns (@loop_runs τ eps book) added committed
    have hcall : (bookMachine eps).step ⟨⟨book, .idle⟩, added, committed⟩ .callMatch =
        some ⟨⟨book, .outer 0⟩, added, committed⟩ := rfl
    exact (Machine.Reaches.single hcall).trans ⟨_, hn⟩

theorem runCalls_reachable (calls : List (BookCall τ)) :
    (bookMachine eps).Reachable (runCalls eps calls) := by
  induction calls using List.reverseRecOn with
  | nil => exact Machine.Reaches.refl _
  | append_singleton calls c ih =>
    rw [runCalls_concat]
    exact ih.reaches (call_reaches _ (runCalls_idle calls) c)

/-- Ticking ends where `match()` returns. -/
theorem ticks_unique {s t u : BookRun τ} {m n : Nat}
    (ht : (bookMachine eps).exec s (List.replicate m .tick) = some t) (hti : t.pc = .idle)
    (hu : (bookMachine eps).exec s (List.replicate n .tick) = some u) (hui : u.pc = .idle) :
    t = u := by
  have stuck : ∀ (v w : BookRun τ) (k : Nat), v.pc = .idle →
      (bookMachine eps).exec v (List.replicate k .tick) = some w → w = v := by
    intro v w k hv hw
    obtain ⟨⟨book, pc⟩, added, committed⟩ := v
    cases hv
    cases k with
    | zero => exact (Option.some.inj hw).symm
    | succ k => cases hw
  rcases Nat.le_total m n with hmn | hmn
  · obtain ⟨k, rfl⟩ := Nat.exists_eq_add_of_le hmn
    rw [List.replicate_add, Machine.exec_append, ht] at hu
    exact (stuck t u k hti hu).symm
  · obtain ⟨k, rfl⟩ := Nat.exists_eq_add_of_le hmn
    rw [List.replicate_add, Machine.exec_append, hu] at ht
    exact stuck u t k hui ht

/-- Between calls a run has made a sequence of whole calls; inside `match()` it
has also taken some steps of the last one. -/
theorem reachable_runCalls {s : BookRun τ} (h : (bookMachine eps).Reachable s) :
    ∃ calls, if s.pc = .idle then s = runCalls eps calls else
      ∃ n, (bookMachine eps).exec { runCalls eps calls with
        loop := ⟨(runCalls eps calls).book, .outer 0⟩ } (List.replicate n .tick) = some s := by
  induction h using Machine.Reachable.induct with
  | start => exact ⟨[], rfl⟩
  | step s e s' _ hstep ih =>
  obtain ⟨calls, hs⟩ := ih
  cases bookStep_cases hstep with
  | addOrder o =>
    rw [if_pos rfl] at hs
    refine ⟨calls ++ [.addOrder o], ?_⟩
    rw [if_pos rfl, runCalls_concat, ← hs]
    rfl
  | callMatch =>
    rw [if_pos rfl] at hs
    refine ⟨calls, ?_⟩
    rw [if_neg (by simp), ← hs]
    exact ⟨0, rfl⟩
  | @tick l l' added committed t hl =>
    have hpc : (⟨l, added, committed⟩ : BookRun τ).pc ≠ .idle := by
      cases hl <;> exact LoopPc.noConfusion
    rw [if_neg hpc] at hs
    obtain ⟨n, hn⟩ := hs
    have hn' : (bookMachine eps).exec { runCalls eps calls with
        loop := ⟨(runCalls eps calls).book, .outer 0⟩ } (List.replicate (n + 1) .tick) =
        some ⟨l', added, committed ++ t.toList⟩ := by
      rw [List.replicate_succ', Machine.exec_concat, hn, Option.bind_some, hstep]
    by_cases hidle : (⟨l', added, committed ++ t.toList⟩ : BookRun τ).pc = .idle
    · refine ⟨calls ++ [.callMatch], ?_⟩
      rw [if_pos hidle, runCalls_concat]
      obtain ⟨m, hm⟩ := exec_of_loopRuns (@loop_runs τ eps (runCalls eps calls).book)
        (runCalls eps calls).added (runCalls eps calls).committed
      exact ticks_unique hn' hidle hm rfl
    · exact ⟨calls, by rw [if_neg hidle]; exact ⟨n + 1, hn'⟩⟩

/-- From inside `match()`, ticking leads to where it returns. -/
theorem ticks_return {s : BookRun τ} (h : (bookMachine eps).Reachable s) (hpc : s.pc ≠ .idle) :
    ∃ n t, (bookMachine eps).exec s (List.replicate n .tick) = some t ∧ t.pc = .idle := by
  obtain ⟨calls, hs⟩ := reachable_runCalls h
  rw [if_neg hpc] at hs
  obtain ⟨n, hn⟩ := hs
  obtain ⟨m, hm⟩ := exec_of_loopRuns (@loop_runs τ eps (runCalls eps calls).book)
    (runCalls eps calls).added (runCalls eps calls).committed
  rcases Nat.le_total n m with hnm | hmn
  · obtain ⟨k, rfl⟩ := Nat.exists_eq_add_of_le hnm
    rw [List.replicate_add, Machine.exec_append, hn] at hm
    exact ⟨k, _, hm, rfl⟩
  · -- past the return no tick is possible
    obtain ⟨k, rfl⟩ := Nat.exists_eq_add_of_le hmn
    rw [List.replicate_add, Machine.exec_append, hm] at hn
    cases k with
    | zero => cases hn; exact absurd rfl hpc
    | succ k => cases hn

/-- The states between calls are those of sequences of whole calls. -/
theorem reachable_idle_iff {s : BookRun τ} :
    ((bookMachine eps).Reachable s ∧ s.pc = .idle) ↔ ∃ calls, s = runCalls eps calls := by
  constructor
  · intro hr
    obtain ⟨h, hidle⟩ := hr
    obtain ⟨calls, hs⟩ := reachable_runCalls h
    rw [if_pos hidle] at hs
    exact ⟨calls, hs⟩
  · intro hcalls
    obtain ⟨calls, rfl⟩ := hcalls
    exact ⟨runCalls_reachable calls, runCalls_idle calls⟩

end TradingMarket
