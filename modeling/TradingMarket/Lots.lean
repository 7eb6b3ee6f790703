import Mathlib.Algebra.Group.Submonoid.BigOperators
import Mathlib.Algebra.Order.Field.Rat
import TradingMarket.Conservation
import TradingMarket.Lib.Grid

/-! # Quantities in lots

A book drops what is left of an order once it is below the tolerance, so in
general its trades come to what was placed only up to that. When the orders are
for quantities among which nothing but zero is below the tolerance, such as
multiples of a unit, nothing is ever dropped: each side holds what was placed on
it less what was traded (`volume_balances`), and the orders that have left were
traded in full (`exact_fills`). -/
namespace TradingMarket

open Lib (Machine Ledger grid)

variable {τ : Type} {eps : ℚ}

/-- Quantities that can be added and subtracted, and of which only zero is below the
tolerance. -/
structure Lots (eps : ℚ) where
  quantities : AddSubgroup ℚ
  exact : ∀ q ∈ quantities, |q| < eps → q = 0

/-- The multiples of a unit. -/
def lotsOf (eps unit : ℚ) (heps : 0 < eps) (hunit : eps ≤ unit) : Lots eps where
  quantities := grid unit
  exact _ hq hsmall := Classical.byContradiction fun hne =>
    absurd (Lib.unit_le_abs (heps.trans_le hunit) hq hne) (hsmall.trans_le hunit).not_ge

variable {lots : Lots eps}

/-- The orders are for lots. -/
def InLots (lots : Lots eps) (orders : List (BookOrder τ)) : Prop :=
  ∀ o ∈ orders, o.quantity ∈ lots.quantities

/-- Both sides of a run balance to the last lot, and its trades are in lots. -/
structure BookRun.InLots (lots : Lots eps) (s : BookRun τ) : Prop where
  side : ∀ side, Ledger.Exact lots.quantities (s.ledger side)
  traded : ∀ t ∈ s.committed, t.tradedQuantity ∈ lots.quantities

theorem BookRun.InLots.queued {s : BookRun τ} (h : s.InLots lots) {side : Side} {o : BookOrder τ}
    (ho : o ∈ s.book.queue side) : o.quantity ∈ lots.quantities :=
  (h.side side).amounts (account o) (List.mem_map_of_mem ho)

/-- A trade of two orders in lots is in lots. -/
theorem LoopStep.tradeInLots {l l' : Loop τ} {t : TradedOrder τ} (h : LoopStep eps l (some t) l')
    (hqueued : ∀ side, ∀ o ∈ l.book.queue side, o.quantity ∈ lots.quantities) :
    t.tradedQuantity ∈ lots.quantities := by
  cases h with
  | @trade book i j matched a b _ mp ha hb _ ht =>
    obtain ⟨-, -, -, -, htq, -⟩ := tradeOf_some ht
    have hask := hqueued .ask a (List.mem_of_getElem? ha)
    have hbid := hqueued .bid b (List.mem_of_getElem? hb)
    rw [htq]
    rcases min_choice a.quantity b.quantity with hmin | hmin <;> rw [hmin] <;> assumption

theorem in_lots {s : BookRun τ} (h : (bookMachine eps).Reachable s)
    (hadded : InLots lots s.added) : s.InLots lots := by
  induction h using Machine.Reachable.induct with
  | start =>
    refine ⟨fun side => ?_, fun t ht => by cases ht⟩
    cases side <;> exact Ledger.Exact.start _
  | step s e s' hs hstep ih =>
    have hcase := bookStep_cases hstep
    have hold : s.InLots lots := ih <| by
      cases hcase with
      | addOrder => exact fun o ho => hadded o (List.mem_append_left _ ho)
      | callMatch | tick => exact hadded
    have htraded : ∀ t ∈ s'.committed, t.tradedQuantity ∈ lots.quantities := by
      cases hcase with
      | addOrder | callMatch => exact hold.traded
      | @tick l l' added committed u hl =>
        intro t ht
        rcases List.mem_append.mp ht with ht | ht
        · exact hold.traded t ht
        · obtain rfl : u = some t := by simpa using ht
          exact hl.tradeInLots fun side o => hold.queued
    refine ⟨fun side => ?_, htraded⟩
    refine Ledger.exact_of_steps lots.exact (hcase.ledger (askMarked hs) side) (fun a ha => ?_)
      (fun a ha => ?_) (hold.side side)
    · obtain ⟨o, ho, rfl⟩ := List.mem_map.mp ha
      exact hadded o (List.mem_filter.mp ho).1
    · obtain ⟨t, ht, rfl⟩ := List.mem_map.mp ha
      exact htraded t ht

/-! ## Volumes -/

/-- The quantity the orders come to. -/
def volume (orders : List (BookOrder τ)) : ℚ := (orders.map fun o => o.quantity).sum

/-- What has been traded. -/
def BookRun.turnover (s : BookRun τ) : ℚ := (s.committed.map TradedOrder.tradedQuantity).sum

theorem side_balances {s : BookRun τ} (h : s.InLots lots) (side : Side) :
    volume (s.addedTo side) = volume (s.book.queue side) + s.turnover := by
  have hsum := (h.side side).sum
  simpa [Ledger.total, BookRun.ledger, account, TradedOrder.draw, Function.comp_def, volume,
    BookRun.turnover] using hsum.symm

/-- In every state of a run of a new book whose orders are for lots, what has been
placed on a side is what rests there and what has been traded; so the asks placed
exceed the asks left by as much as the bids placed exceed the bids left. -/
theorem volume_balances {s : BookRun τ} (h : (bookMachine eps).Reachable s)
    (hadded : InLots lots s.added) :
    (∀ side, volume (s.addedTo side) = volume (s.book.queue side) + s.turnover) ∧
      volume (s.addedTo .ask) - volume s.book.asks = volume (s.addedTo .bid) - volume s.book.bids := by
  have hsides := side_balances (in_lots h hadded)
  refine ⟨hsides, ?_⟩
  have hask := hsides .ask
  have hbid := hsides .bid
  simp only [OrderBook.queue] at hask hbid
  rw [hask, hbid, add_sub_cancel_left, add_sub_cancel_left]

/-- Whole numbers, which the tolerance cannot reach. -/
def wholeLots : Lots epsilon := lotsOf epsilon 1 epsilon_pos (by decide +kernel)

theorem whole_lots {o : BookOrder τ} {n : Int} (h : o.quantity = n) :
    o.quantity ∈ wholeLots.quantities :=
  Lib.mem_grid.mpr ⟨n, by rw [h, mul_one]⟩

/-- An ask for five, of which a bid takes two. -/
def partialFill : List (BookCall Nat) :=
  [.addOrder (tklam 1 .ask .market 5 10), .addOrder (tklam 2 .bid .limit 2 10), .callMatch]

theorem partialFill_inLots : InLots wholeLots (runCalls epsilon partialFill).added := by
  have hadded : (runCalls epsilon partialFill).added =
      [tklam 1 .ask .market 5 10, tklam 2 .bid .limit 2 10] := rfl
  intro o ho
  rw [hadded] at ho
  rcases List.mem_pair.mp ho with rfl | rfl
  · exact @whole_lots Nat _ 5 rfl
  · exact @whole_lots Nat _ 2 rfl

theorem partialFill_balances :
    volume ((runCalls epsilon partialFill).addedTo .ask) -
        volume (runCalls epsilon partialFill).book.asks = 2 ∧
      volume ((runCalls epsilon partialFill).addedTo .bid) -
        volume (runCalls epsilon partialFill).book.bids = 2 := by
  have hbid : volume ((runCalls epsilon partialFill).addedTo .bid) -
      volume (runCalls epsilon partialFill).book.bids = 2 := by decide +kernel
  exact ⟨(volume_balances (runCalls_reachable _) partialFill_inLots).2.trans hbid, hbid⟩

/-! ## Fills -/

section Fills
variable [DecidableEq τ]

theorem tradedFor_lots {s : BookRun τ} (h : s.InLots lots) (side : Side) (tag : τ) :
    s.tradedFor side tag ∈ lots.quantities := by
  refine list_sum_mem fun q hq => ?_
  obtain ⟨t, ht, rfl⟩ := List.mem_map.mp hq
  exact h.traded t (List.mem_filter.mp ht).1

/-- An order that has left the book was traded in full. -/
theorem gone_exactly {s : BookRun τ} (h : (bookMachine eps).Reachable s)
    (htags : (s.added.map (·.tag)).Nodup) (hadded : InLots lots s.added) {side : Side}
    {o : BookOrder τ} (ho : o ∈ s.addedTo side)
    (hgone : o.tag ∉ (s.book.queue side).map (·.tag)) : s.tradedFor side o.tag = o.quantity := by
  obtain ⟨-, hresidue⟩ := (quantityLaw h htags side).gone o ho hgone
  have hmem : o.quantity - s.tradedFor side o.tag ∈ lots.quantities :=
    sub_mem (hadded o (List.mem_filter.mp ho).1) (tradedFor_lots (in_lots h hadded) side o.tag)
  exact (sub_eq_zero.mp (lots.exact _ hmem hresidue)).symm

/-- An order that has not left is in its queue with what has not been traded of it. -/
theorem resting_exactly {s : BookRun τ} (h : (bookMachine eps).Reachable s)
    (htags : (s.added.map (·.tag)).Nodup) {side : Side} {o : BookOrder τ}
    (ho : o ∈ s.addedTo side) (hrests : o.tag ∈ (s.book.queue side).map (·.tag)) :
    ∃ e ∈ s.book.queue side, e.key = o.key ∧ e.quantity = o.quantity - s.tradedFor side o.tag := by
  have hlaw := quantityLaw h htags side
  obtain ⟨e, he, htag⟩ := List.mem_map.mp hrests
  obtain ⟨o', ho', hkey⟩ := hlaw.known e he
  have hsame : o' = o := by
    have htags' : o'.tag = o.tag := by rw [← key_tag o', ← hkey, key_tag, htag]
    exact List.inj_on_of_nodup_map htags (List.mem_filter.mp ho').1 (List.mem_filter.mp ho).1 htags'
  refine ⟨e, he, hsame ▸ hkey, ?_⟩
  rw [hlaw.resting o ho e he htag, add_sub_cancel_right]

/-- In every state of a run of a new book whose orders are for lots, an order placed
is in its queue, with what has not been traded of it, or has left and was traded in
full. -/
theorem exact_fills {s : BookRun τ} (h : (bookMachine eps).Reachable s)
    (htags : (s.added.map (·.tag)).Nodup) (hadded : InLots lots s.added) (side : Side) :
    ∀ o ∈ s.addedTo side,
      (∃ e ∈ s.book.queue side, e.key = o.key ∧
        e.quantity = o.quantity - s.tradedFor side o.tag) ∨
      (o.tag ∉ (s.book.queue side).map (·.tag) ∧ s.tradedFor side o.tag = o.quantity) := by
  intro o ho
  by_cases hrests : o.tag ∈ (s.book.queue side).map (·.tag)
  · exact .inl (resting_exactly h htags ho hrests)
  · exact .inr ⟨hrests, gone_exactly h htags hadded ho hrests⟩

theorem partialFill_fills : (runCalls epsilon partialFill).tradedFor .bid 2 = 2 := by
  have hbid : tklam 2 .bid .limit 2 10 ∈ (runCalls epsilon partialFill).addedTo .bid := by
    decide +kernel
  obtain ⟨e, he, -⟩ | ⟨-, hfull⟩ := exact_fills (runCalls_reachable _) (by decide +kernel)
    partialFill_inLots .bid _ hbid
  · have hnone : (runCalls epsilon partialFill).book.queue .bid = [] := by decide +kernel
    rw [hnone] at he
    cases he
  · exact hfull

end Fills

end TradingMarket
