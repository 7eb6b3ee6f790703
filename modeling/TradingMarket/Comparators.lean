import TradingMarket.QueueOrder
import TradingMarket.Lib.Tolerance

/-! # When the comparators are orders

`std::sort` and the binary insertion need `SortBidOrders` and `SortAskOrders` to
be strict weak orders. They compare prices with a tolerance, which is an
equality only on prices that keep clear of it: on the orders whose limit prices
come from a set, the comparators are strict weak orders exactly when the set is
`Separated` (`comparators_order_iff`). -/
namespace TradingMarket

open Lib (StrictWeakOn Separated)

variable {τ : Type} {eps : ℚ}

/-- The comparators on two limit orders. -/
theorem higherPriority_limit {a b : BookOrder τ} (ha : a.matchType = .limit)
    (hb : b.matchType = .limit) :
    higherPriority eps a b =
      if eps < a.price - b.price then true
      else if |a.price - b.price| < eps then decide (a.sequence < b.sequence)
      else false := by
  simp [higherPriority, ha, hb]

/-- A limit order of either book is one at a price of `S`. -/
def LimitPricesIn (S : Set ℚ) (orders : List (BookOrder τ)) : Prop :=
  ∀ o ∈ orders, o.matchType = .limit → o.price ∈ S

/-! ## Separated prices -/

def BookOrder.reprice (rep : ℚ → ℚ) (o : BookOrder τ) : BookOrder τ :=
  { o with price := rep o.price }

/-- On separated prices the comparators compare ranks, each price taken for the
representative of its class. -/
theorem higherPriority_iff_reprice (heps : 0 < eps) {S : Set ℚ} (hS : Separated eps S)
    {rep : ℚ → ℚ}
    (hrep : ∀ x ∈ S, ∀ y ∈ S,
      (|x - y| < eps → rep x = rep y) ∧ (eps < x - y → rep y < rep x))
    {a b : BookOrder τ} (ha : a.matchType = .limit → a.price ∈ S)
    (hb : b.matchType = .limit → b.price ∈ S) :
    higherPriority eps a b = true ↔ rank (a.reprice rep) < rank (b.reprice rep) := by
  rcases matchType_cases a with hma | hla <;> rcases matchType_cases b with hmb | hlb
  · simp [higherPriority, rank, BookOrder.reprice, hma, hmb, Prod.Lex.toLex_lt_toLex,
      Int64.lt_iff_toInt_lt]
  · simp [higherPriority, rank, BookOrder.reprice, hma, hlb, Prod.Lex.toLex_lt_toLex]
  · simp [higherPriority, rank, BookOrder.reprice, hla, hmb, Prod.Lex.toLex_lt_toLex]
  · rw [higherPriority_limit hla hlb]
    simp only [rank, BookOrder.reprice, hla, hlb, Prod.Lex.toLex_lt_toLex, lt_irrefl, false_or,
      true_and, neg_lt_neg_iff, neg_inj]
    obtain ⟨hnear, hfar⟩ := hrep _ (ha hla) _ (hb hlb)
    rcases hS.trichotomy heps (ha hla) (hb hlb) with hlt | hclose | hlt
    · simp [hlt, hfar hlt]
    · have hnot : ¬ eps < a.price - b.price := (lt_of_abs_lt hclose).not_gt
      simp [hnot, hclose, hnear hclose, Int64.lt_iff_toInt_lt]
    · have hnot : ¬ eps < a.price - b.price := by linarith
      have hclose : ¬ |a.price - b.price| < eps := fun h => by
        linarith [neg_lt_of_abs_lt h]
      have hbelow := (hrep _ (hb hlb) _ (ha hla)).2 hlt
      simp [hnot, hclose, hbelow.not_gt, hbelow.ne]

theorem strictWeakOn_of_separated (heps : 0 < eps) {S : Set ℚ} (hS : Separated eps S)
    {orders : List (BookOrder τ)} (h : LimitPricesIn S orders) :
    StrictWeakOn (higherPriority eps) orders := by
  obtain ⟨rep, hrep⟩ := hS.exists_rep heps
  exact .of_rank (fun o => rank (o.reprice rep)) fun a ha b hb =>
    higherPriority_iff_reprice heps hS hrep (h a ha) (h b hb)

/-! ## Prices within the tolerance -/

section Cycles
variable [Inhabited τ]

/-- A limit order at a price. -/
def limitAt (price : ℚ) (sequence : Int64) : BookOrder τ :=
  ⟨⟨sequence, .bid, .limit, "TKLAM".toList, 1, price⟩, default⟩

theorem limitAt_near {x y : ℚ} (h : |x - y| < eps) (m n : Int64) :
    higherPriority eps (limitAt x m : BookOrder τ) (limitAt y n) = decide (m < n) := by
  rw [higherPriority_limit rfl rfl]
  show (if eps < x - y then true else if |x - y| < eps then decide (m < n) else false) = _
  rw [if_neg (lt_of_abs_lt h).not_gt, if_pos h]

/-- The comparators are strict weak orders on limit orders at the prices of `S`. -/
def OrdersLimits (eps : ℚ) (τ : Type) (S : Set ℚ) : Prop :=
  ∀ orders : List (BookOrder τ), LimitPricesIn S orders →
    StrictWeakOn (higherPriority eps) orders

theorem OrdersLimits.three {S : Set ℚ} (h : OrdersLimits eps τ S) {x y z : ℚ} (hx : x ∈ S)
    (hy : y ∈ S) (hz : z ∈ S) (l m n : Int64) :
    StrictWeakOn (higherPriority eps) [(limitAt x l : BookOrder τ), limitAt y m, limitAt z n] := by
  refine h _ fun o ho _ => ?_
  simp only [List.mem_cons, List.not_mem_nil, or_false] at ho
  rcases ho with rfl | rfl | rfl
  · exact hx
  · exact hy
  · exact hz

/-- Two prices exactly the tolerance apart: an order at one of them precedes
another there, and neither compares with an order at the other price. -/
theorem OrdersLimits.not_at_tolerance (heps : 0 < eps) {S : Set ℚ} (h : OrdersLimits eps τ S)
    {x y : ℚ} (hx : x ∈ S) (hy : y ∈ S) : |x - y| ≠ eps := by
  intro hxy
  have hyx : |y - x| = eps := by rwa [abs_sub_comm]
  have hapart : ∀ {p q : ℚ} (m n : Int64), |p - q| = eps →
      higherPriority eps (limitAt p m : BookOrder τ) (limitAt q n) = false := by
    intro p q m n hpq
    have hle : ¬ eps < p - q := not_lt.mpr ((le_abs_self _).trans hpq.le)
    rw [higherPriority_limit rfl rfl]
    simp [limitAt, hle, hpq]
  have hself : |x - x| < eps := by simpa using heps
  have hsame := @limitAt_near τ eps _ x x hself 0 1
  have hincomp := ((h.three hx hy hx 0 0 1).incomp_trans _ (by simp) _ (by simp) _ (by simp)
    (hapart 0 0 hxy) (hapart 0 0 hyx) (hapart 0 1 hyx) (hapart 1 0 hxy)).1
  rw [hsame] at hincomp
  cases hincomp

/-- Three prices, neighbours less than the tolerance apart and the ends more:
orders at them, with falling sequence numbers, form a cycle. -/
theorem OrdersLimits.no_cycle {S : Set ℚ} (h : OrdersLimits eps τ S) {x y z : ℚ} (hx : x ∈ S)
    (hy : y ∈ S) (hz : z ∈ S) (hxy : |x - y| < eps) (hyz : |y - z| < eps) : ¬ eps < x - z := by
  intro hfar
  have hw := h.three hx hy hz 3 2 1
  have hxz : higherPriority eps (limitAt x 3 : BookOrder τ) (limitAt z 1) = true := by
    rw [higherPriority_limit rfl rfl]
    simp [limitAt, hfar]
  rw [abs_sub_comm] at hxy hyz
  have hzy := @limitAt_near τ eps _ z y hyz 1 2
  have hyx := @limitAt_near τ eps _ y x hxy 2 3
  have hzx := hw.trans _ (by simp) _ (by simp) _ (by simp) hzy hyx
  rw [hw.asymm (by simp) (by simp) hxz] at hzx
  cases hzx

theorem OrdersLimits.separated (heps : 0 < eps) {S : Set ℚ} (h : OrdersLimits eps τ S) :
    Separated eps S := by
  have hstrict : ∀ x ∈ S, ∀ y ∈ S, |x - y| ≤ eps → |x - y| < eps := fun x hx y hy hle =>
    lt_of_le_of_ne hle (h.not_at_tolerance heps hx hy)
  intro x hx y hy z hz hxy hyz
  refine hstrict x hx z hz (abs_le.mpr ⟨?_, ?_⟩)
  · have := h.no_cycle hz hy hx (by rw [abs_sub_comm]; exact hstrict y hy z hz hyz)
      (by rw [abs_sub_comm]; exact hstrict x hx y hy hxy)
    linarith
  · exact not_lt.mp (h.no_cycle hx hy hz (hstrict x hx y hy hxy) (hstrict y hy z hz hyz))

/-- The comparators are strict weak orders on all orders whose limit prices come
from `S`, whatever their sequence numbers and match types, exactly when `S` is
separated. -/
theorem comparators_order_iff (heps : 0 < eps) (S : Set ℚ) :
    (∀ orders : List (BookOrder τ), LimitPricesIn S orders →
      StrictWeakOn (SortBidOrders eps) orders ∧ StrictWeakOn (SortAskOrders eps) orders) ↔
      Separated eps S := by
  constructor
  · intro h
    exact OrdersLimits.separated heps fun orders ho => (h orders ho).1
  · intro hS orders ho
    exact ⟨strictWeakOn_of_separated heps hS ho, strictWeakOn_of_separated heps hS ho⟩

end Cycles

/-- Orders at 1.12e-48, 1.06e-48 and 1e-48, the later ones at the higher prices. -/
def cyclicOrders : List (BookOrder Nat) :=
  [tklam 3 .bid .limit 1 (112 / 10 ^ 50), tklam 2 .bid .limit 1 (106 / 10 ^ 50),
    tklam 1 .bid .limit 1 (100 / 10 ^ 50)]

/-- They precede one another in a circle. -/
theorem comparators_cycle :
    ¬ StrictWeakOn (SortBidOrders epsilon) cyclicOrders ∧
      ¬ StrictWeakOn (SortAskOrders epsilon) cyclicOrders := by
  have hcycle : ¬ StrictWeakOn (higherPriority epsilon) cyclicOrders := by
    intro h
    have hback := h.trans (tklam 1 .bid .limit 1 (100 / 10 ^ 50)) (by simp [cyclicOrders])
      (tklam 2 .bid .limit 1 (106 / 10 ^ 50)) (by simp [cyclicOrders])
      (tklam 3 .bid .limit 1 (112 / 10 ^ 50)) (by simp [cyclicOrders])
      (by decide +kernel) (by decide +kernel)
    have hno : higherPriority epsilon (tklam 1 .bid .limit 1 (100 / 10 ^ 50))
        (tklam 3 .bid .limit 1 (112 / 10 ^ 50)) = false := by decide +kernel
    rw [hno] at hback
    cases hback
  exact ⟨hcycle, hcycle⟩

theorem whole_prices_ordered :
    StrictWeakOn (SortBidOrders epsilon)
      [tklam 3 .bid .limit 1 10, tklam 2 .bid .market 1 7, tklam 1 .bid .limit 1 11] := by
  have hS : Separated epsilon {10, 11} := by
    intro x hx y hy z hz hxy hyz
    rcases hx with rfl | rfl <;> rcases hy with rfl | rfl <;> rcases hz with rfl | rfl <;>
      revert hxy hyz <;> decide +kernel
  refine ((comparators_order_iff epsilon_pos {10, 11}).mpr hS _ fun o ho hl => ?_).1
  simp only [List.mem_cons, List.not_mem_nil, or_false] at ho
  rcases ho with rfl | rfl | rfl
  · exact .inl rfl
  · cases hl
  · exact .inr rfl

end TradingMarket
