import Mathlib.Algebra.Order.Ring.Rat
import Mathlib.Algebra.Order.Group.Abs

/-! # Orders and trades

The data every component exchanges (`OrderRing.h`). Numbers are a parameter of
`Order`: the text commands carry `cpp_dec_float_50` values of any kind, the
order book computes on exact rationals. -/
namespace TradingMarket

/-- A `std::string`, byte by byte. -/
abbrev Text := List Char

/-- The greeting a match service sends to the broker (`MOTTO`). -/
def MOTTO : Text := "Caelum non animum muto".toList

/-- `ORDER_BOOK_RING_SIZE` as `CMakeLists.txt` sets it: the binary logarithm of
the number of slots of the rings in the match service. -/
def ORDER_BOOK_RING_SIZE : Nat := 12

/-- `std::numeric_limits<cpp_dec_float_50>::epsilon()`. -/
def epsilon : ℚ := 1 / 10 ^ 49

theorem epsilon_pos : 0 < epsilon := by decide +kernel

inductive OrderType where
  | ask
  | bid
  | cancel
deriving DecidableEq, Repr

inductive MatchType where
  | market
  | limit
deriving DecidableEq, Repr

structure Order (Num : Type) where
  sequence : Int64
  type : OrderType
  matchType : MatchType
  code : Text
  quantity : Num
  price : Num
deriving DecidableEq, Repr

/-- The order that stands in an empty slot in the concrete runs. -/
def emptyOrder : Order ℚ := ⟨0, .ask, .market, [], 0, 0⟩

/-- An order of a book, followed by a ghost tag. No operation of the book looks
at the tag, so with `τ := Unit` this is the source's `Order`. -/
structure BookOrder (τ : Type) extends Order ℚ where
  tag : τ
deriving DecidableEq, Repr

/-- The trade record `match()` commits: both orders as they were before the
trade, the price and the quantity. -/
structure TradedOrder (τ : Type) where
  askOrder : BookOrder τ
  bidOrder : BookOrder τ
  tradedPrice : ℚ
  tradedQuantity : ℚ
deriving DecidableEq, Repr

/-- At least one side of the trade is a `Limit` order. -/
def TradedOrder.limitSided {τ : Type} (t : TradedOrder τ) : Bool :=
  t.askOrder.matchType == .limit || t.bidOrder.matchType == .limit

variable {τ : Type}

/-- `order.quantity -= tradedQuantity`. -/
def BookOrder.fill (o : BookOrder τ) (tradedQuantity : ℚ) : BookOrder τ :=
  { o with quantity := o.quantity - tradedQuantity }

/-- What matching never changes of an order: everything but its quantity. -/
def BookOrder.key (o : BookOrder τ) : BookOrder τ := { o with quantity := 0 }

@[simp] theorem fill_quantity (o : BookOrder τ) (q : ℚ) :
    (o.fill q).quantity = o.quantity - q := rfl
@[simp] theorem fill_tag (o : BookOrder τ) (q : ℚ) : (o.fill q).tag = o.tag := rfl
@[simp] theorem fill_key (o : BookOrder τ) (q : ℚ) : (o.fill q).key = o.key := rfl
@[simp] theorem key_tag (o : BookOrder τ) : o.key.tag = o.tag := rfl

/-- Orders with one key differ at most in their quantity. -/
theorem eq_of_key {o p : BookOrder τ} (h : o.key = p.key) :
    o = { p with quantity := o.quantity } := by
  obtain ⟨⟨s, t, m, c, q, r⟩, g⟩ := o
  obtain ⟨⟨s', t', m', c', q', r'⟩, g'⟩ := p
  simp only [BookOrder.key, BookOrder.mk.injEq, Order.mk.injEq, true_and] at h
  simp [h]

end TradingMarket
