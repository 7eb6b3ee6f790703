import TradingMarket.Conservation

/-! # Orders under other tags

No operation of a book looks at the tags of its orders, so giving the orders
other tags commutes with every event (`bookStep_map`). What is proved of books
whose orders have distinct tags thereby holds of a book that has none: its
orders are tagged with their sequence numbers (`BookOrder.numbered`). -/
namespace TradingMarket

open Lib (Machine)

variable {τ σ : Type} {eps : ℚ}

/-- A map of orders that changes nothing but their tags, whatever their quantities. -/
structure Relabels (g : BookOrder τ → BookOrder σ) : Prop where
  order : ∀ o, (g o).toOrder = o.toOrder
  fill : ∀ o q, g (o.fill q) = (g o).fill q

section Model
variable (g : BookOrder τ → BookOrder σ)

def TradedOrder.map (t : TradedOrder τ) : TradedOrder σ :=
  ⟨g t.askOrder, g t.bidOrder, t.tradedPrice, t.tradedQuantity⟩

def OrderBook.map (book : OrderBook τ) : OrderBook σ :=
  ⟨book.marketPrice, book.asks.map g, book.bids.map g, book.totalAsksSize, book.totalBidsSize⟩

def Loop.map (l : Loop τ) : Loop σ := ⟨l.book.map g, l.pc⟩

def BookRun.map (s : BookRun τ) : BookRun σ :=
  ⟨s.loop.map g, s.added.map g, s.committed.map (TradedOrder.map g)⟩

def BookEvent.map : BookEvent τ → BookEvent σ
  | .addOrder o => .addOrder (g o)
  | .callMatch => .callMatch
  | .tick => .tick

end Model

namespace Relabels

variable {g : BookOrder τ → BookOrder σ} (hg : Relabels g)
include hg

theorem type (o : BookOrder τ) : (g o).type = o.type := congrArg Order.type (hg.order o)

theorem matchType (o : BookOrder τ) : (g o).matchType = o.matchType :=
  congrArg Order.matchType (hg.order o)

theorem sequence (o : BookOrder τ) : (g o).sequence = o.sequence :=
  congrArg Order.sequence (hg.order o)

theorem price (o : BookOrder τ) : (g o).price = o.price := congrArg Order.price (hg.order o)

theorem quantity (o : BookOrder τ) : (g o).quantity = o.quantity :=
  congrArg Order.quantity (hg.order o)

/-! ## Adding -/

theorem higherPriority (a b : BookOrder τ) :
    higherPriority eps (g a) (g b) = TradingMarket.higherPriority eps a b := by
  simp only [TradingMarket.higherPriority, hg.matchType, hg.sequence, hg.price]

theorem insertionPoint (o : BookOrder τ) (orders : List (BookOrder τ)) :
    insertionPoint eps (g o) (orders.map g) = TradingMarket.insertionPoint eps o orders := by
  have houtranks : outranks (TradingMarket.higherPriority eps) (g o) (orders.map g) =
      outranks (TradingMarket.higherPriority eps) o orders := by
    funext i
    cases hi : orders[i]? with
    | none => simp [outranks, hi]
    | some p => simp [outranks, hi, hg.higherPriority]
  simp only [TradingMarket.insertionPoint, houtranks, List.length_map]

theorem addOrder_R (o : BookOrder τ) (orders : List (BookOrder τ)) :
    addOrder_R (g o) (orders.map g) 0 (orders.map g).length (TradingMarket.higherPriority eps)
        (Nat.zero_le _) le_rfl =
      (TradingMarket.addOrder_R o orders 0 orders.length (TradingMarket.higherPriority eps)
        (Nat.zero_le _) le_rfl).map g := by
  rw [addOrder_R_split, addOrder_R_split, hg.insertionPoint, List.map_append, List.map_cons,
    List.map_take, List.map_drop]

theorem addOrder (book : OrderBook τ) (o : BookOrder τ) :
    (book.map g).addOrder eps (g o) = (book.addOrder eps o).map g := by
  have hasks := @addOrder_R τ σ eps g hg o book.asks
  have hbids := @addOrder_R τ σ eps g hg o book.bids
  unfold OrderBook.addOrder
  rw [hg.type]
  cases o.type with
  | ask => exact congrArg (fun asks => OrderBook.mk _ asks _ _ _) hasks
  | bid => exact congrArg (fun bids => OrderBook.mk _ _ bids _ _) hbids
  | cancel => rfl

/-! ## Matching -/

theorem tradeOf (mp : ℚ) (a b : BookOrder τ) :
    tradeOf eps mp (g a) (g b) =
      (TradingMarket.tradeOf eps mp a b).map (Prod.map (TradedOrder.map g) id) := by
  have heligible : eligible eps (g a) (g b) = eligible eps a b := by
    simp only [eligible, hg.matchType, hg.price]
  have hprice : executionPrice mp (g a) (g b) = executionPrice mp a b := by
    simp only [executionPrice, hg.matchType, hg.price]
  rw [tradeOf_eq, tradeOf_eq, heligible, hprice, hg.quantity, hg.quantity]
  split <;> rfl

theorem leaveAsk (book : OrderBook τ) (a : BookOrder τ) (askIt : Nat) (isMatchAsk : Bool) :
    leaveAsk eps (book.map g) (g a) askIt isMatchAsk =
      (TradingMarket.leaveAsk eps book a askIt isMatchAsk).map g := by
  unfold TradingMarket.leaveAsk
  rw [hg.quantity]
  split
  · simp only [Loop.map, OrderBook.map, List.eraseIdx_map]
  · rfl

theorem afterCommit (book : OrderBook τ) (t : TradedOrder τ) (mp : ℚ) (askIt bidIt : Nat) :
    afterCommit eps (book.map g) (t.map g) mp askIt bidIt =
      (TradingMarket.afterCommit eps book t mp askIt bidIt).map g := by
  unfold TradingMarket.afterCommit
  simp only [TradedOrder.map, ← hg.fill, hg.quantity]
  split
  · simp only [Loop.map, OrderBook.map, List.eraseIdx_map, List.map_set]
  · simp only [Loop.map, OrderBook.map, List.map_set]

theorem loopStep (l : Loop τ) :
    loopStep eps (l.map g) = (TradingMarket.loopStep eps l).map
      (Prod.map (Loop.map g) (Option.map (TradedOrder.map g))) := by
  obtain ⟨book, pc⟩ := l
  cases pc with
  | idle => rfl
  | outer askIt =>
    simp only [Loop.map, OrderBook.map, TradingMarket.loopStep, List.length_map]
    split <;> rfl
  | inner askIt bidIt isMatchAsk =>
    cases ha : book.asks[askIt]? with
    | none => simp [Loop.map, OrderBook.map, TradingMarket.loopStep, ha]
    | some a =>
      have ha' : (book.map g).asks[askIt]? = some (g a) := by simp [OrderBook.map, ha]
      cases hb : book.bids[bidIt]? with
      | none =>
        have hb' : (book.map g).bids[bidIt]? = none := by simp [OrderBook.map, hb]
        simp only [Loop.map, TradingMarket.loopStep, ha, ha', hb, hb', Option.map_some,
          hg.leaveAsk]
        rfl
      | some b =>
        have hb' : (book.map g).bids[bidIt]? = some (g b) := by simp [OrderBook.map, hb]
        have hprice : (book.map g).marketPrice = book.marketPrice := rfl
        simp only [Loop.map, TradingMarket.loopStep, ha, ha', hb, hb', Option.map_some, hg.quantity,
          hg.tradeOf, hprice, hg.leaveAsk]
        split
        · rfl
        · cases TradingMarket.tradeOf eps book.marketPrice a b with
          | none => rfl
          | some r =>
            obtain ⟨t, mp⟩ := r
            simp only [Option.map_some, Prod.map, id, hg.afterCommit]

/-! ## Whole runs -/

/-- Other tags make no difference to an event of a book. -/
theorem bookStep (s : BookRun τ) (e : BookEvent τ) :
    bookStep eps (s.map g) (e.map g) = (TradingMarket.bookStep eps s e).map (BookRun.map g) := by
  obtain ⟨⟨book, pc⟩, added, committed⟩ := s
  cases e with
  | addOrder o =>
    by_cases hpc : pc = .idle
    · simp [TradingMarket.bookStep, BookRun.map, Loop.map, BookEvent.map, hpc, hg.addOrder]
    · simp [TradingMarket.bookStep, BookRun.map, Loop.map, BookEvent.map, hpc]
  | callMatch =>
    by_cases hpc : pc = .idle
    · simp [TradingMarket.bookStep, BookRun.map, Loop.map, BookEvent.map, hpc]
    · simp [TradingMarket.bookStep, BookRun.map, Loop.map, BookEvent.map, hpc]
  | tick =>
    have hloop := @loopStep τ σ eps g hg ⟨book, pc⟩
    simp only [TradingMarket.bookStep, BookRun.map, BookEvent.map, hloop, Option.map_map]
    refine congrArg (Option.map · _) (funext fun r => ?_)
    obtain ⟨l, t⟩ := r
    cases t <;> simp [BookRun.map]

/-- The runs of a book are runs under other tags. -/
theorem reaches {s s' : BookRun τ} (h : (bookMachine eps).Reaches s s') :
    (bookMachine eps).Reaches (s.map g) (s'.map g) := by
  refine h.preserves (P := fun u => (bookMachine eps).Reaches (s.map g) (u.map g)) ?_ (.refl _)
  intro u e v hu hstep
  have hmoved : (bookMachine eps).step (u.map g) (e.map g) = some (v.map g) := by
    change TradingMarket.bookStep eps (u.map g) (e.map g) = _
    rw [hg.bookStep]
    exact congrArg (Option.map (BookRun.map g)) hstep
  exact hu.trans (.single hmoved)

end Relabels

/-- An order tagged with its sequence number. -/
def BookOrder.numbered (o : BookOrder Unit) : BookOrder Int64 := ⟨o.toOrder, o.sequence⟩

theorem relabels_numbered : Relabels BookOrder.numbered := ⟨fun _ => rfl, fun _ _ => rfl⟩

/-- A run of a book without tags, tagged with sequence numbers, is a run. -/
theorem numbered_reachable {s : BookRun Unit} (h : (bookMachine eps).Reachable s) :
    (bookMachine eps).Reachable (s.map BookOrder.numbered) :=
  relabels_numbered.reaches h

end TradingMarket
