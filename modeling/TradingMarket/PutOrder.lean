import Mathlib.Data.Stream.Init
import Mathlib.Tactic.NormNum
import TradingMarket.Lib.Walk
import TradingMarket.OrderRing

/-! # The order generator

The loop of `PutOrder::put` (`PutOrder.hxx`): a million random orders, with
prices that walk up and down from a first price by steps of `spread`. The walk
is guarded only against a price that is not positive already. `spread` is a
little more than a ten-thousandth, so the guard is passed once too often when
the steps down come to outnumber the steps up by as many ten-thousandths as the
first price has (`prices_nonneg_iff`). -/
namespace TradingMarket

open Lib (level)

/-- The `double` literal `0.0001`. -/
def spread : ℚ := 7378697629483821 / 2 ^ 66

/-- The iterations of the loop of `put`. -/
def iterations : Nat := 1000000

/-- The generator between two iterations, with the results of `rand()` to come. -/
structure PutOrder where
  sequence : UInt64 := 1
  prevPrice : ℚ := 0
  i : Nat := 0
  results : Stream' Nat

def rand : StateM PutOrder Nat :=
  modifyGet fun p => (p.results.head, { p with results := p.results.tail })

def typeDrawn (r : Nat) : OrderType :=
  match r % 3 with
  | 0 => .ask
  | 1 => .bid
  | _ => .cancel

def matchTypeDrawn (r : Nat) : MatchType :=
  match r % 2 with
  | 0 => .market
  | _ => .limit

/-- A number from 1 to 1.9999, by ten-thousandths. -/
def numberDrawn (r : Nat) : ℚ := (r % 10000 : Nat) / 10000 + 1

/-- The price of an iteration. A step down from a price that is not positive is
left out, and the order keeps the price it was constructed with. -/
def priceDrawn (i : Nat) (prevPrice : ℚ) (r : Nat) : ℚ :=
  if i = 0 then numberDrawn r
  else
    let dir := r % 3
    if dir = 0 then prevPrice + spread
    else if dir = 1 then if 0 < prevPrice then prevPrice - spread else 0
    else prevPrice

/-- An iteration up to the `Put`. -/
def PutOrder.next : StateM PutOrder (Order ℚ) := do
  let type := typeDrawn (← rand)
  let matchType := matchTypeDrawn (← rand)
  let sequence := (← get).sequence
  modify ({ · with sequence := sequence + 1 })
  let quantity := numberDrawn (← rand)
  let r ← rand
  let price := priceDrawn (← get).i (← get).prevPrice r
  modify fun p => { p with prevPrice := price, i := p.i + 1 }
  return { sequence := sequence.toInt64, type, matchType, code := "TKLAM".toList, quantity, price }

/-- The orders put in the next iterations. -/
def PutOrder.orders : Nat → PutOrder → List (Order ℚ)
  | 0, _ => []
  | n + 1, p => (next.run p).1 :: orders n (next.run p).2

/-- The orders `put` puts, for the results of `rand()`. -/
def PutOrder.put (results : Stream' Nat) : List (Order ℚ) := orders iterations { results }

variable {p : PutOrder}

@[simp] theorem next_price :
    (PutOrder.next.run p).1.price = priceDrawn p.i p.prevPrice (p.results.get 3) := rfl
@[simp] theorem next_prevPrice :
    (PutOrder.next.run p).2.prevPrice = priceDrawn p.i p.prevPrice (p.results.get 3) := rfl
@[simp] theorem next_i : (PutOrder.next.run p).2.i = p.i + 1 := rfl
@[simp] theorem next_results : (PutOrder.next.run p).2.results = p.results.drop 4 := rfl

/-! ## The walk -/

/-- The directions drawn in `n` iterations after the first. -/
def directions : Nat → Stream' Nat → List Nat
  | 0, _ => []
  | n + 1, results => results.get 3 % 3 :: directions n (results.drop 4)

/-- How far a direction leads down, in steps. -/
def descent (dir : Nat) : Int := if dir = 0 then -1 else if dir = 1 then 1 else 0

/-- A step is longer than a ten-thousandth, but twenty thousand times the
difference is less than a step. -/
theorem spread_excess : 1 / 10000 < spread ∧ 20000 * (spread - 1 / 10000) < spread := by
  unfold spread
  norm_num

theorem spread_pos : 0 < spread := by
  unfold spread
  norm_num

theorem excess_lt {m : Nat} (hm : m < 20000) : m * (spread - 1 / 10000) < spread := by
  obtain ⟨hunit, hexcess⟩ := spread_excess
  have hle : (m : ℚ) ≤ 20000 := by exact_mod_cast hm.le
  exact (mul_le_mul_of_nonneg_right hle (sub_nonneg.mpr hunit.le)).trans_lt hexcess

/-- From a positive price every direction leads where it should. -/
theorem priceDrawn_level {m : Nat} {n : Int} {i r : Nat} (hm : m < 20000) (hn : n < m)
    (hi : i ≠ 0) : priceDrawn i (level (1 / 10000) spread m n) r =
      level (1 / 10000) spread m (n + descent (r % 3)) := by
  have hpos : 0 < level (1 / 10000) spread m n := Lib.level_pos spread_pos (excess_lt hm) hn
  rw [Lib.level_add]
  unfold priceDrawn descent
  rw [if_neg hi]
  by_cases hup : r % 3 = 0
  · simp [hup]
  · by_cases hdown : r % 3 = 1
    · simp only [hdown, one_ne_zero, if_false, if_true, if_pos hpos, Int.cast_one, one_mul]
    · simp [hup, hdown]

theorem numberDrawn_level (r : Nat) :
    numberDrawn r = level (1 / 10000) spread (10000 + r % 10000) 0 := by
  unfold numberDrawn level
  push_cast
  ring

/-- The steps down less the steps up. -/
def totalDescent (ds : List Nat) : Int := ds.count 1 - ds.count 0

theorem totalDescent_cons (dir : Nat) (ds : List Nat) :
    totalDescent (dir :: ds) = descent dir + totalDescent ds := by
  unfold totalDescent descent
  by_cases hup : dir = 0
  · subst hup
    simp
    omega
  · by_cases hdown : dir = 1
    · subst hdown
      simp
      omega
    · rw [List.count_cons_of_ne hup, List.count_cons_of_ne hdown, if_neg hup, if_neg hdown, zero_add]

/-- From a price above 0 the next ones stay at 0 or above exactly when the
directions drawn never lead below it. -/
theorem orders_nonneg_iff {m : Nat} (hpos : 0 < m) (hm : m < 20000) {k : Nat} {n : Int}
    (hn : n < m) (hi : p.i ≠ 0) (hprice : p.prevPrice = level (1 / 10000) spread m n) :
    (∀ o ∈ p.orders k, 0 ≤ o.price) ↔
      ∀ ds, ds <+: directions k p.results → n + totalDescent ds < m := by
  induction k generalizing p n with
  | zero => simp [PutOrder.orders, directions, totalDescent, hn]
  | succ k ih =>
    have hnext : priceDrawn p.i p.prevPrice (p.results.get 3) =
        level (1 / 10000) spread m (n + descent (p.results.get 3 % 3)) := by
      rw [hprice, priceDrawn_level hm hn hi]
    simp only [PutOrder.orders, directions, List.forall_mem_cons, next_price, hnext,
      Lib.level_nonneg_iff spread_excess.1 spread_pos (excess_lt hm) hpos,
      Lib.forall_prefix_cons, totalDescent_cons, ← add_assoc]
    by_cases hlow : n + descent (p.results.get 3 % 3) < m
    · rw [ih hlow (Nat.succ_ne_zero _) hnext]
      simp [hlow, hn, totalDescent]
    · -- the price is negative, and so is what the shortest prefix leads to
      simp only [hlow, false_and, false_iff, not_and, not_forall]
      exact fun _ => ⟨[], List.nil_prefix, by simpa [totalDescent] using hlow⟩

/-- The first price, and what the ones after it come to. -/
theorem put_nonneg_iff (results : Stream' Nat) :
    (∀ o ∈ PutOrder.put results, 0 ≤ o.price) ↔
      ∀ ds, ds <+: directions (iterations - 1) (results.drop 4) →
        totalDescent ds < 10000 + results.get 3 % 10000 := by
  have hm : 10000 + results.get 3 % 10000 < 20000 := by omega
  have hpos : 0 < 10000 + results.get 3 % 10000 := by omega
  have hfirst : priceDrawn 0 0 (results.get 3) =
      level (1 / 10000) spread (10000 + results.get 3 % 10000) 0 := numberDrawn_level _
  have hnonneg : 0 ≤ priceDrawn 0 0 (results.get 3) := by
    rw [hfirst]
    exact (Lib.level_pos spread_pos (excess_lt hm) (by omega)).le
  have hrest := @orders_nonneg_iff (PutOrder.next.run { results }).2 _ hpos hm (iterations - 1) 0
    (by omega) Nat.one_ne_zero hfirst
  simp only [zero_add] at hrest
  rw [PutOrder.put, show iterations = iterations - 1 + 1 from rfl, PutOrder.orders,
    List.forall_mem_cons, hrest]
  exact and_iff_right hnonneg

/-- The prices of `put` stay at 0 or above exactly when the steps down never
outnumber the steps up by the ten-thousandths of the first price. -/
theorem prices_nonneg_iff (results : Stream' Nat) :
    (∀ o ∈ PutOrder.put results, 0 ≤ o.price) ↔
      ∀ ds, ds <+: directions (iterations - 1) (results.drop 4) →
        ds.count 1 < 10000 + results.get 3 % 10000 + ds.count 0 := by
  rw [put_nonneg_iff]
  refine forall₂_congr fun ds _ => ?_
  unfold totalDescent
  omega

theorem directions_const (r n : Nat) :
    directions n (Stream'.const r) = List.replicate n (r % 3) := by
  induction n with
  | zero => rfl
  | succ n ih => exact congrArg (r % 3 :: ·) ih

/-- With `rand()` at 1 throughout, the first price is 1.0001 and every step leads down. -/
theorem price_below_zero : ¬ ∀ o ∈ PutOrder.put (Stream'.const 1), 0 ≤ o.price := by
  rw [put_nonneg_iff]
  intro h
  have hlow := h (List.replicate 10001 1) (by
    change _ <+: directions (iterations - 1) (Stream'.const 1)
    rw [directions_const]
    exact ⟨List.replicate (iterations - 1 - 10001) 1, by rw [List.replicate_append_replicate]; rfl⟩)
  unfold totalDescent at hlow
  rw [List.count_replicate_self, List.count_replicate] at hlow
  exact absurd hlow (by decide)

end TradingMarket
