import Mathlib.Data.List.InsertIdx
import TradingMarket.OrderRing
import TradingMarket.Lib.Positions

/-! # The order book

`OrderBook.h` and `OrderBook.cpp` on exact rationals: the two comparators, the
binary insertion, and the two nested loops of `match()`. The deques are lists
and `eps` is the comparison tolerance `numeric_limits<...>::epsilon()`.

`match()` walks the asks; for each ask its inner loop (`matchAsk`) walks the
bids from the front. A loop over a deque that erases and updates in place is a
recursion that returns what the loop leaves of the deque. `commitAction.commit`
appends to the trades the functions return. -/
namespace TradingMarket

open Lib (bisect)

variable {τ : Type} (eps : ℚ)

/-! ## Comparisons and comparators -/

/-- The lambda `equal` of `match()`. -/
def equal (number_1 number_2 : ℚ) : Bool := |number_1 - number_2| < eps

/-- The lambda `lessThan` of `match()`. -/
def lessThan (number_1 number_2 : ℚ) : Bool := eps < number_2 - number_1

/-- The body `SortBidOrders` and `SortAskOrders` share: market orders first, by
sequence; then limit orders from the higher price to the lower, equal prices by
sequence. -/
def higherPriority (a b : BookOrder τ) : Bool :=
  if a.matchType = .market ∧ b.matchType = .limit then true
  else if a.matchType = .limit ∧ b.matchType = .market then false
  else if a.matchType = .market ∧ b.matchType = .market then a.sequence < b.sequence
  else
    let diff := a.price - b.price
    if eps < diff then true
    else if |diff| < eps then a.sequence < b.sequence
    else false

def SortBidOrders (a b : BookOrder τ) : Bool := higherPriority eps a b

def SortAskOrders (a b : BookOrder τ) : Bool := higherPriority eps a b

/-! ## Adding orders -/

/-- The template `addOrder_R`. The bounds the recursion keeps make every read
`orders[mid]` one inside the deque. -/
def addOrder_R {α : Type} (o : α) (orders : List α) (first last : Nat)
    (higherPriority : α → α → Bool) (hfl : first ≤ last) (hlast : last ≤ orders.length) :
    List α :=
  let mid := (first + last) / 2
  if h : last = first then orders.insertIdx first o
  else if higherPriority o (orders.get ⟨mid, by omega⟩) then
    addOrder_R o orders first mid higherPriority (by omega) (by omega)
  else
    addOrder_R o orders (mid + 1) last higherPriority (by omega) hlast
termination_by last - first

/-- The fields of `OrderBook`. The counters are `size_t` in the source. -/
structure OrderBook (τ : Type) where
  marketPrice : ℚ := 0
  asks : List (BookOrder τ) := []
  bids : List (BookOrder τ) := []
  totalAsksSize : Nat := 0
  totalBidsSize : Nat := 0
deriving DecidableEq, Repr

namespace OrderBook

def addAskOrder (book : OrderBook τ) (o : BookOrder τ) : OrderBook τ :=
  { book with
    asks := addOrder_R o book.asks 0 book.asks.length (SortAskOrders eps) (Nat.zero_le _) le_rfl }

def addBidOrder (book : OrderBook τ) (o : BookOrder τ) : OrderBook τ :=
  { book with
    bids := addOrder_R o book.bids 0 book.bids.length (SortBidOrders eps) (Nat.zero_le _) le_rfl }

def addOrder (book : OrderBook τ) (o : BookOrder τ) : OrderBook τ :=
  match o.type with
  | .ask => { book.addAskOrder eps o with totalAsksSize := book.totalAsksSize + 1 }
  | .bid => { book.addBidOrder eps o with totalBidsSize := book.totalBidsSize + 1 }
  | .cancel => book

/-- `sortOrders()`, for whatever algorithm `std::sort` is. -/
def sortOrders (sort : (BookOrder τ → BookOrder τ → Bool) → List (BookOrder τ) →
    List (BookOrder τ)) (book : OrderBook τ) : OrderBook τ :=
  { book with asks := sort (SortAskOrders eps) book.asks
              bids := sort (SortBidOrders eps) book.bids }

end OrderBook

/-- What the bisection asks of position `i`: does `o` outrank the order there? -/
def outranks {α : Type} (higherPriority : α → α → Bool) (o : α) (orders : List α) (i : Nat) :
    Bool :=
  orders[i]?.any (higherPriority o)

theorem outranks_get {α : Type} (higherPriority : α → α → Bool) (o : α) {orders : List α}
    {i : Nat} (h : i < orders.length) :
    outranks higherPriority o orders i = higherPriority o orders[i] := by
  rw [outranks, List.getElem?_eq_getElem h, Option.any_some]

/-- `addOrder_R` inserts at the position the bisection ends at. -/
theorem addOrder_R_eq {α : Type} (o : α) (orders : List α) (first last : Nat)
    (higherPriority : α → α → Bool) (hfl : first ≤ last) (hlast : last ≤ orders.length) :
    addOrder_R o orders first last higherPriority hfl hlast =
      orders.insertIdx (bisect (outranks higherPriority o orders) first last) o := by
  induction first, last, hfl, hlast using addOrder_R.induct o orders higherPriority with
  | case1 last hfl hlast => rw [addOrder_R, dif_pos rfl, Lib.bisect_empty _ le_rfl]
  | case2 first last hfl hlast mid hne hp ih =>
    have hout : outranks higherPriority o orders mid = true := by
      rwa [outranks_get _ _ (by omega)]
    rw [addOrder_R, dif_neg hne, if_pos hp, Lib.bisect_left _ (by omega) hout]
    exact ih
  | case3 first last hfl hlast mid hne hp ih =>
    have hout : outranks higherPriority o orders mid = false := by
      rw [outranks_get _ _ (by omega)]
      exact Bool.eq_false_of_not_eq_true hp
    rw [addOrder_R, dif_neg hne, if_neg hp, Lib.bisect_right _ (by omega) hout]
    exact ih

/-- Where a queue takes a new order. -/
def insertionPoint (eps : ℚ) (o : BookOrder τ) (orders : List (BookOrder τ)) : Nat :=
  bisect (outranks (higherPriority eps) o orders) 0 orders.length

theorem insertionPoint_le (eps : ℚ) (o : BookOrder τ) (orders : List (BookOrder τ)) :
    insertionPoint eps o orders ≤ orders.length :=
  (Lib.bisect_mem _ (Nat.zero_le _)).2

section InsertionPoint
variable {eps} {o : BookOrder τ} {orders : List (BookOrder τ)}

/-- A new order outranks the one it is put before. -/
theorem insertionPoint_at (h : insertionPoint eps o orders < orders.length) :
    higherPriority eps o orders[insertionPoint eps o orders] = true := by
  rw [← outranks_get (higherPriority eps) o h]
  exact Lib.bisect_at _ (Nat.zero_le _) h

/-- A new order does not outrank the one it is put behind. -/
theorem insertionPoint_before (h : 0 < insertionPoint eps o orders)
    (hlt : insertionPoint eps o orders - 1 < orders.length) :
    higherPriority eps o orders[insertionPoint eps o orders - 1] = false := by
  rw [← outranks_get (higherPriority eps) o hlt]
  exact Lib.bisect_before _ h

/-- Where the orders that `o` outranks stand behind the others, it is put between. -/
theorem insertionPoint_le_iff
    (hpart : Lib.Partitioned (outranks (higherPriority eps) o orders) 0 orders.length) {i : Nat}
    (hi : i < orders.length) :
    insertionPoint eps o orders ≤ i ↔ higherPriority eps o orders[i] = true := by
  rw [← outranks_get (higherPriority eps) o hi]
  exact hpart.bisect_le_iff (Nat.zero_le _) (Nat.zero_le _) hi

end InsertionPoint

theorem addOrder_R_split (eps : ℚ) (o : BookOrder τ) (orders : List (BookOrder τ)) :
    addOrder_R o orders 0 orders.length (higherPriority eps) (Nat.zero_le _) le_rfl =
      orders.take (insertionPoint eps o orders) ++ o ::
        orders.drop (insertionPoint eps o orders) := by
  rw [addOrder_R_eq]
  exact Lib.insertIdx_split (insertionPoint_le eps o orders) o

/-! ## Matching -/

/-- The four branches of the inner loop: the trade committed for this ask and
this bid, with the market price it leaves, or none. -/
def tradeOf (marketPrice : ℚ) (askOrder bidOrder : BookOrder τ) :
    Option (TradedOrder τ × ℚ) :=
  let tradedQuantity := min askOrder.quantity bidOrder.quantity
  match askOrder.matchType, bidOrder.matchType with
  | .market, .market => some (⟨askOrder, bidOrder, marketPrice, tradedQuantity⟩, marketPrice)
  | .limit, .market =>
    -- bid.price must >= ask.price
    if lessThan eps askOrder.price bidOrder.price || equal eps askOrder.price bidOrder.price then
      some (⟨askOrder, bidOrder, bidOrder.price, tradedQuantity⟩, bidOrder.price)
    else none
  | .market, .limit =>
    -- ask.price must >= bid.price
    if lessThan eps bidOrder.price askOrder.price || equal eps askOrder.price bidOrder.price then
      some (⟨askOrder, bidOrder, bidOrder.price, tradedQuantity⟩, bidOrder.price)
    else none
  | .limit, .limit =>
    if equal eps askOrder.price bidOrder.price then
      some (⟨askOrder, bidOrder, bidOrder.price, tradedQuantity⟩, bidOrder.price)
    else none

/-! ## The branch conditions -/

/-- The branch of `match()` for the match types of this ask and this bid would
trade them. -/
def eligible (askOrder bidOrder : BookOrder τ) : Bool :=
  match askOrder.matchType, bidOrder.matchType with
  | .market, .market => true
  | .limit, .market =>
    lessThan eps askOrder.price bidOrder.price || equal eps askOrder.price bidOrder.price
  | .market, .limit =>
    lessThan eps bidOrder.price askOrder.price || equal eps askOrder.price bidOrder.price
  | .limit, .limit => equal eps askOrder.price bidOrder.price

/-- The price a trade executes at: the bid's, unless both sides are `Market`. It
is also the market price the trade leaves. -/
def executionPrice (marketPrice : ℚ) (askOrder bidOrder : BookOrder τ) : ℚ :=
  if askOrder.matchType = .market ∧ bidOrder.matchType = .market then marketPrice
  else bidOrder.price

section Branches
variable {eps}

theorem tradeOf_eq (marketPrice : ℚ) (a b : BookOrder τ) :
    tradeOf eps marketPrice a b =
      if eligible eps a b then
        some (⟨a, b, executionPrice marketPrice a b, min a.quantity b.quantity⟩,
          executionPrice marketPrice a b)
      else none := by
  cases ha : a.matchType <;> cases hb : b.matchType <;>
    simp [tradeOf, eligible, executionPrice, ha, hb]

theorem tradeOf_none {marketPrice : ℚ} {a b : BookOrder τ} :
    tradeOf eps marketPrice a b = none ↔ eligible eps a b = false := by
  simp [tradeOf_eq]

theorem tradeOf_some {marketPrice : ℚ} {a b : BookOrder τ} {t : TradedOrder τ} {mp : ℚ}
    (h : tradeOf eps marketPrice a b = some (t, mp)) :
    eligible eps a b = true ∧ t.askOrder = a ∧ t.bidOrder = b ∧
      t.tradedPrice = executionPrice marketPrice a b ∧
      t.tradedQuantity = min a.quantity b.quantity ∧ mp = t.tradedPrice := by
  rw [tradeOf_eq] at h
  split at h
  · rename_i he
    simp only [Option.some.injEq, Prod.mk.injEq] at h
    obtain ⟨rfl, rfl⟩ := h
    exact ⟨he, rfl, rfl, rfl, rfl, rfl⟩
  · cases h

end Branches

/-- What the inner loop leaves behind for one ask: the ask, the bids, the market
price, the flag, and the trades it committed. -/
structure AskTurn (τ : Type) where
  askOrder : BookOrder τ
  bids : List (BookOrder τ)
  marketPrice : ℚ
  isMatchAsk : Bool
  trades : List (TradedOrder τ)
deriving DecidableEq, Repr

/-- The inner loop of `match()`, from the bid `bid_it` points to. -/
def matchAsk (askOrder : BookOrder τ) (marketPrice : ℚ) : List (BookOrder τ) → AskTurn τ
  | [] => ⟨askOrder, [], marketPrice, false, []⟩
  | bidOrder :: bids =>
    if equal eps askOrder.quantity 0 then ⟨askOrder, bidOrder :: bids, marketPrice, false, []⟩
    else
      match tradeOf eps marketPrice askOrder bidOrder with
      | none => ⟨askOrder, bidOrder :: bids, marketPrice, false, []⟩
      | some (tradedOrder, marketPrice) =>
        let bidOrder := bidOrder.fill tradedOrder.tradedQuantity
        let turn := matchAsk (askOrder.fill tradedOrder.tradedQuantity) marketPrice bids
        { turn with
          bids := if equal eps bidOrder.quantity 0 then turn.bids else bidOrder :: turn.bids
          isMatchAsk := true
          trades := tradedOrder :: turn.trades }

/-- The ask after the inner loop: erased when matched and used up. -/
def AskTurn.asks (turn : AskTurn τ) : List (BookOrder τ) :=
  if turn.isMatchAsk && equal eps turn.askOrder.quantity 0 then [] else [turn.askOrder]

/-- The turns of the asks `ask_it` still has to visit. -/
def askTurns : List (BookOrder τ) → List (BookOrder τ) → ℚ → List (AskTurn τ)
  | [], _, _ => []
  | askOrder :: asks, bids, marketPrice =>
    let turn := matchAsk eps askOrder marketPrice bids
    turn :: askTurns asks turn.bids turn.marketPrice

/-- What the outer loop leaves of both deques, the market price, and every trade. -/
structure Matched (τ : Type) where
  asks : List (BookOrder τ)
  bids : List (BookOrder τ)
  marketPrice : ℚ
  trades : List (TradedOrder τ)
deriving DecidableEq, Repr

/-- The outer loop of `match()`, from the ask `ask_it` points to. -/
def matchAsks : List (BookOrder τ) → List (BookOrder τ) → ℚ → Matched τ
  | [], bids, marketPrice => ⟨[], bids, marketPrice, []⟩
  | askOrder :: asks, bids, marketPrice =>
    let turn := matchAsk eps askOrder marketPrice bids
    let rest := matchAsks asks turn.bids turn.marketPrice
    { rest with asks := turn.asks eps ++ rest.asks, trades := turn.trades ++ rest.trades }

section Loops
variable {eps}

theorem matchAsk_stop {a b : BookOrder τ} {mp : ℚ} {bids : List (BookOrder τ)}
    (h : equal eps a.quantity 0 = true ∨ eligible eps a b = false) :
    matchAsk eps a mp (b :: bids) = ⟨a, b :: bids, mp, false, []⟩ := by
  unfold matchAsk
  rcases h with hq | he
  · rw [if_pos hq]
  · rw [tradeOf_none.mpr he]
    split <;> rfl

theorem matchAsk_trade {a b : BookOrder τ} {mp mp' : ℚ} {t : TradedOrder τ}
    {bids : List (BookOrder τ)} (hq : equal eps a.quantity 0 = false)
    (ht : tradeOf eps mp a b = some (t, mp')) :
    matchAsk eps a mp (b :: bids) =
      { matchAsk eps (a.fill t.tradedQuantity) mp' bids with
        bids := if equal eps (b.fill t.tradedQuantity).quantity 0 then
            (matchAsk eps (a.fill t.tradedQuantity) mp' bids).bids
          else b.fill t.tradedQuantity :: (matchAsk eps (a.fill t.tradedQuantity) mp' bids).bids
        isMatchAsk := true
        trades := t :: (matchAsk eps (a.fill t.tradedQuantity) mp' bids).trades } := by
  rw [matchAsk, if_neg (by simp [hq]), ht]

/-- An open ask trades with an eligible bid at the head, and goes on with what is
left of it. -/
theorem matchAsk_eligible {a b : BookOrder τ} (mp : ℚ) (bids : List (BookOrder τ))
    (h : ¬ (equal eps a.quantity 0 = true ∨ eligible eps a b = false)) :
    matchAsk eps a mp (b :: bids) =
      let tradedQuantity := min a.quantity b.quantity
      let rest := matchAsk eps (a.fill tradedQuantity) (executionPrice mp a b) bids
      { rest with
        bids := if equal eps (b.fill tradedQuantity).quantity 0 then rest.bids
          else b.fill tradedQuantity :: rest.bids
        isMatchAsk := true
        trades := ⟨a, b, executionPrice mp a b, tradedQuantity⟩ :: rest.trades } := by
  obtain ⟨hq, hel⟩ := not_or.mp h
  have ht := @tradeOf_eq τ eps mp a b
  rw [if_pos (by simpa using hel)] at ht
  exact matchAsk_trade (by simpa using hq) ht

theorem matchAsks_cons (a : BookOrder τ) (asks bids : List (BookOrder τ)) (mp : ℚ) :
    matchAsks eps (a :: asks) bids mp =
      { matchAsks eps asks (matchAsk eps a mp bids).bids (matchAsk eps a mp bids).marketPrice with
        asks := (matchAsk eps a mp bids).asks eps ++
          (matchAsks eps asks (matchAsk eps a mp bids).bids
            (matchAsk eps a mp bids).marketPrice).asks
        trades := (matchAsk eps a mp bids).trades ++
          (matchAsks eps asks (matchAsk eps a mp bids).bids
            (matchAsk eps a mp bids).marketPrice).trades } := rfl

theorem matchAsks_no_bids (asks : List (BookOrder τ)) (mp : ℚ) :
    matchAsks eps asks [] mp = ⟨asks, [], mp, []⟩ := by
  induction asks with
  | nil => rfl
  | cons a asks ih =>
    rw [matchAsks_cons]
    simp [matchAsk, AskTurn.asks, ih]

end Loops

namespace OrderBook

variable (book : OrderBook τ)

/-- `match()`: the book it leaves (`match` is a Lean keyword). -/
def matchOrders : OrderBook τ :=
  let result := matchAsks eps book.asks book.bids book.marketPrice
  { book with asks := result.asks, bids := result.bids, marketPrice := result.marketPrice }

/-- `match()`: the trades it commits, in order. -/
def trades : List (TradedOrder τ) := (matchAsks eps book.asks book.bids book.marketPrice).trades

/-- `match()`: the turns of its asks, in order. -/
def turns : List (AskTurn τ) := askTurns eps book.asks book.bids book.marketPrice

end OrderBook

end TradingMarket
