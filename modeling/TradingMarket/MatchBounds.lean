import TradingMarket.MatchOrderBook

/-! # How much `match()` can do

Every trade uses up one of its two orders, which then leaves the book before it
can trade again. So a book never commits more trades than it has taken orders
(`trades_le_orders`), a call of `match()` goes round its loops a number of times
that is linear in the orders it finds (`match_steps`), and calling `match()`
again and again comes to rest: to a book whose asks, one by one, cannot trade
with the bid in front (`match_comes_to_rest`). -/
namespace TradingMarket

open Lib (Machine)

variable {τ : Type} {eps : ℚ}

/-! ## Trades use up orders -/

section Model
variable (eps : ℚ)

/-- 1 while the inner loop is at an ask that has traded and is used up: an order
that is in the book and is gone. -/
def Loop.spent (l : Loop τ) : Nat :=
  match l.pc with
  | .inner askIt _ true =>
    if l.book.asks[askIt]?.any fun a => equal eps a.quantity 0 then 1 else 0
  | _ => 0

end Model

def OrderBook.size (book : OrderBook τ) : Nat := book.asks.length + book.bids.length

/-- The asks and bids a run added. -/
def BookRun.placed (s : BookRun τ) : List (BookOrder τ) :=
  s.added.filter fun o => o.type ≠ .cancel

theorem spent_inner {book : OrderBook τ} {a : BookOrder τ} {i j : Nat}
    (ha : book.asks[i]? = some a) :
    (⟨book, .inner i j true⟩ : Loop τ).spent eps = if equal eps a.quantity 0 then 1 else 0 := by
  simp [Loop.spent, ha]

theorem spent_open {book : OrderBook τ} {a : BookOrder τ} {i j : Nat} {matched : Bool}
    (ha : book.asks[i]? = some a) (h : (matched && equal eps a.quantity 0) = false) :
    (⟨book, .inner i j matched⟩ : Loop τ).spent eps = 0 := by
  cases matched with
  | false => rfl
  | true => rw [spent_inner ha, if_neg (by simpa using h)]

/-- Of the two orders of a trade one is used up: the bid leaves at once, the ask
when its turn is over. -/
theorem LoopStep.size (heps : 0 < eps) {l l' : Loop τ} {t : Option (TradedOrder τ)}
    (h : LoopStep eps l t l') :
    t.toList.length + l'.book.size + l.spent eps ≤ l.book.size + l'.spent eps := by
  cases h with
  | returns | visit => simp [Loop.spent]
  | pass ha _ hopen =>
    rw [spent_open ha hopen]
    simp [Loop.spent]
  | @erase book i j a ha _ hused =>
    have hlt : i < book.asks.length := (List.getElem?_eq_some_iff.mp ha).1
    rw [spent_inner ha, if_pos hused]
    simp only [Option.toList_none, List.length_nil, OrderBook.size, Loop.spent,
      List.length_eraseIdx_of_lt hlt]
    omega
  | @trade book i j matched a b t mp ha hb hopen ht =>
    obtain ⟨-, rfl, rfl, -, htq, -⟩ := tradeOf_some ht
    have hi : i < book.asks.length := (List.getElem?_eq_some_iff.mp ha).1
    have hj : j < book.bids.length := (List.getElem?_eq_some_iff.mp hb).1
    rw [spent_open ha (by simp [hopen])]
    by_cases hbid : equal eps (t.bidOrder.fill t.tradedQuantity).quantity 0 = true
    · rw [afterCommit_erased hbid]
      simp only [Option.toList_some, List.length_singleton, OrderBook.size, List.length_set,
        List.length_eraseIdx_of_lt hj]
      omega
    · -- the bid keeps a rest, so the traded quantity is the ask's
      have hask : equal eps (t.askOrder.fill t.tradedQuantity).quantity 0 = true := by
        have hmin : t.tradedQuantity = t.askOrder.quantity := by
          rw [htq]
          refine min_eq_left (le_of_not_ge fun hle => hbid ?_)
          rw [fill_quantity, htq, min_eq_right hle, sub_self]
          exact equal_self heps 0
        rw [fill_quantity, hmin, sub_self]
        exact equal_self heps 0
      rw [afterCommit_kept (by simpa using hbid), spent_inner (List.getElem?_set_self hi), if_pos hask]
      simp only [Option.toList_some, List.length_singleton, OrderBook.size, List.length_set]
      omega

theorem addOrder_size (book : OrderBook τ) (o : BookOrder τ) :
    (book.addOrder eps o).size = book.size + if o.type ≠ .cancel then 1 else 0 := by
  have hqueue : ∀ side, ((book.addOrder eps o).queue side).length =
      (book.queue side).length + if o.type = side.type then 1 else 0 := by
    intro side
    rw [queue_addOrder_eq]
    split
    · simp
      omega
    · rfl
  have hasks := hqueue .ask
  have hbids := hqueue .bid
  simp only [OrderBook.queue, Side.type] at hasks hbids
  unfold OrderBook.size
  rw [hasks, hbids]
  cases o.type <;> simp <;> omega

/-- In every state of a run the trades and the orders in the book, less one that is
used up and about to leave, are together no more than the orders placed. -/
theorem trades_size {s : BookRun τ} (heps : 0 < eps) (h : (bookMachine eps).Reachable s) :
    s.committed.length + s.book.size ≤ s.placed.length + s.loop.spent eps := by
  induction h using Machine.Reachable.induct with
  | start => exact Nat.zero_le _
  | step s e s' _ hstep ih =>
    cases bookStep_cases hstep with
    | @addOrder book added committed o =>
      have hsize := @addOrder_size τ eps book o
      have hplaced : (⟨⟨book.addOrder eps o, .idle⟩, added ++ [o], committed⟩ : BookRun τ).placed.length
          = (⟨⟨book, .idle⟩, added, committed⟩ : BookRun τ).placed.length +
            if o.type ≠ .cancel then 1 else 0 := by
        by_cases hty : o.type = .cancel <;> simp [BookRun.placed, hty]
      simp only [BookRun.book, Loop.spent] at ih ⊢
      omega
    | callMatch => exact ih
    | @tick l l' added committed t hl =>
      have hmoved := hl.size heps
      unfold BookRun.placed at ih ⊢
      simp only [BookRun.book, List.length_append] at ih ⊢
      omega

/-- A trade comes at the earliest when two more orders have been placed than trades
committed before it. -/
theorem trade_needs_orders (heps : 0 < eps) {s s' : BookRun τ} (h : (bookMachine eps).Reachable s)
    {e : BookEvent τ} {t : TradedOrder τ} (hstep : (bookMachine eps).step s e = some s')
    (ht : s'.committed = s.committed ++ [t]) : s.committed.length + 2 ≤ s.placed.length := by
  have hsize := trades_size heps h
  cases bookStep_cases hstep with
  | addOrder | callMatch => simp at ht
  | @tick l l' added committed u hl =>
    obtain rfl : u = some t := by cases u <;> simp_all
    cases hl with
    | @trade book i j matched a b _ mp ha hb hopen =>
      have hi : i < book.asks.length := (List.getElem?_eq_some_iff.mp ha).1
      have hj : j < book.bids.length := (List.getElem?_eq_some_iff.mp hb).1
      have hnone := @spent_open τ eps book a i j matched ha (by simp [hopen])
      simp only [BookRun.book, OrderBook.size] at hsize ⊢
      omega

/-- A run never commits more trades than it has placed orders: between calls the
trades and the orders that rest in the book are together at most the orders placed,
and a trade comes at the earliest when two more orders have been placed than trades
committed before it. -/
theorem trades_le_orders {s : BookRun τ} (heps : 0 < eps) (h : (bookMachine eps).Reachable s) :
    (s.pc = .idle →
      s.committed.length + s.book.asks.length + s.book.bids.length ≤ s.placed.length) ∧
    ∀ e s' t, (bookMachine eps).step s e = some s' → s'.committed = s.committed ++ [t] →
      s.committed.length + 2 ≤ s.placed.length := by
  refine ⟨fun hidle => ?_, fun e s' t => trade_needs_orders heps h⟩
  have hsize := trades_size heps h
  have hspent : s.loop.spent eps = 0 := by
    obtain ⟨⟨book, pc⟩, added, committed⟩ := s
    cases hidle
    rfl
  unfold OrderBook.size at hsize
  omega

/-- Three orders, of which an ask and a bid trade before the third comes. -/
def threeOrders : List (BookCall Nat) :=
  [.addOrder (tklam 1 .ask .market 5 10), .addOrder (tklam 2 .bid .market 2 10), .callMatch,
    .addOrder (tklam 3 .bid .limit 1 9)]

theorem threeOrders_trades : (runCalls epsilon threeOrders).committed.length +
    (runCalls epsilon threeOrders).book.asks.length +
      (runCalls epsilon threeOrders).book.bids.length ≤ 3 :=
  (trades_le_orders epsilon_pos (runCalls_reachable threeOrders)).1 (runCalls_idle threeOrders)

/-! ## The steps of a call -/

/-- The loop tests a call still has before it, but for one more for each trade. -/
def Loop.tests (l : Loop τ) : Nat :=
  match l.pc with
  | .idle => 0
  | .outer askIt => 2 * (l.book.asks.length - askIt) + 1
  | .inner askIt _ _ => 2 * (l.book.asks.length - askIt)

theorem LoopStep.tests {l l' : Loop τ} {t : Option (TradedOrder τ)} (h : LoopStep eps l t l') :
    l.tests + t.toList.length = l'.tests + 1 := by
  cases h with
  | returns hi => simp [Loop.tests, hi]
  | visit => rfl
  | @pass book i j matched a ha =>
    have hi : i < book.asks.length := (List.getElem?_eq_some_iff.mp ha).1
    simp only [Loop.tests, Option.toList_none, List.length_nil]
    omega
  | @erase book i j a ha =>
    have hi : i < book.asks.length := (List.getElem?_eq_some_iff.mp ha).1
    simp only [Loop.tests, Option.toList_none, List.length_nil, List.length_eraseIdx_of_lt hi]
    omega
  | @trade book i j matched a b t mp =>
    obtain ⟨j', hpc⟩ := @afterCommit_pc τ eps book t mp i j
    simp only [Loop.tests, hpc, afterCommit_asks, List.length_set, Option.toList_some,
      List.length_singleton]

/-- The steps of a run of the loops are the tests it gets through, and one more for
each trade. -/
theorem ticks_tests : ∀ (n : Nat) {s s' : BookRun τ},
    (bookMachine eps).exec s (List.replicate n .tick) = some s' →
      s.loop.tests + s'.committed.length = s'.loop.tests + s.committed.length + n := by
  intro n
  induction n with
  | zero =>
    intro s s' h
    cases h
    omega
  | succ n ih =>
    intro s s' h
    obtain ⟨u, hu, hrest⟩ := Option.bind_eq_some_iff.mp h
    have hafter := ih hrest
    cases bookStep_cases hu with
    | @tick l l' added committed t hl =>
      have hone := hl.tests
      simp only [List.length_append] at hafter ⊢
      omega

theorem LoopRuns.size (heps : 0 < eps) {l l' : Loop τ} {ts : List (TradedOrder τ)}
    (h : LoopRuns eps l ts l') :
    ts.length + l'.book.size + l.spent eps ≤ l.book.size + l'.spent eps := by
  induction h with
  | done l => simp
  | step hs _ ih =>
    have hone := (loopStep_cases hs).size heps
    rw [List.length_append]
    omega

theorem matchOrders_size (heps : 0 < eps) (book : OrderBook τ) :
    (book.trades eps).length + (book.matchOrders eps).size ≤ book.size :=
  (loop_runs book).size heps

/-- A call of `match()` evaluates its loop tests twice for each ask, once for each
trade and once more to return; and each of its trades leaves one order less. -/
theorem match_steps (heps : 0 < eps) (s : BookRun τ) :
    (bookMachine eps).exec ⟨⟨s.book, .outer 0⟩, s.added, s.committed⟩
        (List.replicate (2 * s.book.asks.length + (s.book.trades eps).length + 1) .tick) =
      some (s.settle eps) ∧
    (s.book.trades eps).length + (s.settle eps).book.size ≤ s.book.size := by
  refine ⟨?_, matchOrders_size heps s.book⟩
  obtain ⟨n, hn⟩ := exec_of_loopRuns (@loop_runs τ eps s.book) s.added s.committed
  have htests := ticks_tests n hn
  simp only [Loop.tests, Nat.sub_zero, List.length_append] at htests
  obtain rfl : n = 2 * s.book.asks.length + (s.book.trades eps).length + 1 := by omega
  exact hn

theorem match_steps_of_two :
    (bookMachine epsilon).exec ⟨⟨protectedBook, .outer 0⟩, [], []⟩ (List.replicate 7 .tick) =
      some ((⟨⟨protectedBook, .idle⟩, [], []⟩ : BookRun Nat).settle epsilon) := by
  have htrades : (protectedBook.trades epsilon).length = 2 := by decide +kernel
  have hsteps := (match_steps epsilon_pos (⟨⟨protectedBook, .idle⟩, [], []⟩ : BookRun Nat)).1
  simp only [BookRun.book, htrades] at hsteps
  exact hsteps

/-! ## Calling `match()` again -/

/-- No ask that is still open may trade with the bid in front. -/
def OrderBook.AtRest (eps : ℚ) (book : OrderBook τ) : Prop :=
  ∀ a ∈ book.asks, equal eps a.quantity 0 = false → ∀ b ∈ book.bids.head?, eligible eps a b = false

theorem matchAsk_trades_nil {a : BookOrder τ} {mp : ℚ} {bids : List (BookOrder τ)} :
    (matchAsk eps a mp bids).trades = [] ↔
      (equal eps a.quantity 0 = false → ∀ b ∈ bids.head?, eligible eps a b = false) := by
  cases bids with
  | nil => simp [matchAsk]
  | cons b bids =>
    by_cases hstop : equal eps a.quantity 0 = true ∨ eligible eps a b = false
    · rw [matchAsk_stop hstop]
      simp only [List.head?_cons, Option.mem_some_iff, forall_eq', true_iff]
      intro hopen
      rcases hstop with hused | hnone
      · rw [hused] at hopen
        cases hopen
      · exact hnone
    · rw [matchAsk_eligible mp bids hstop]
      obtain ⟨hopen, hel⟩ := not_or.mp hstop
      simp [hopen, hel]

/-- A call of `match()` commits no trade exactly when no open ask may trade with the
bid in front. -/
theorem trades_nil_iff {book : OrderBook τ} : book.trades eps = [] ↔ book.AtRest eps := by
  obtain ⟨mp, asks, bids, totalAsks, totalBids⟩ := book
  change (matchAsks eps asks bids mp).trades = [] ↔ _
  unfold OrderBook.AtRest
  induction asks with
  | nil => simp [matchAsks]
  | cons a asks ih =>
    rw [List.forall_mem_cons, ← @matchAsk_trades_nil τ eps a mp bids, ← ih, matchAsks_cons]
    constructor
    · intro h
      obtain ⟨hturn, hrest⟩ := List.append_eq_nil_iff.mp h
      rw [matchAsk_no_trades hturn] at hrest
      exact ⟨hturn, hrest⟩
    · intro h
      obtain ⟨hturn, hrest⟩ := h
      rw [List.append_eq_nil_iff]
      refine ⟨hturn, ?_⟩
      rw [matchAsk_no_trades hturn]
      exact hrest

theorem settle_iterate_idle (s : BookRun τ) (hidle : s.pc = .idle) (n : Nat) :
    ((BookRun.settle eps)^[n] s).pc = .idle := by
  cases n with
  | zero => exact hidle
  | succ n => rw [Function.iterate_succ_apply']; rfl

/-- A book at rest stays as it is. -/
theorem settle_iterate_atRest {s : BookRun τ} (hidle : s.pc = .idle) (h : s.book.AtRest eps)
    (n : Nat) : (BookRun.settle eps)^[n] s = s := by
  refine Function.iterate_fixed (settle_idle hidle ?_) n
  rw [BookRun.trading, trades_nil_iff.mpr h]
  rfl

theorem atRest_of_size (heps : 0 < eps) {s : BookRun τ} (hidle : s.pc = .idle) {n : Nat}
    (hn : s.book.size ≤ n) : ((BookRun.settle eps)^[n] s).book.AtRest eps := by
  induction n generalizing s with
  | zero =>
    have hasks : s.book.asks = [] := by
      unfold OrderBook.size at hn
      exact List.eq_nil_of_length_eq_zero (by omega)
    intro a ha
    rw [Function.iterate_zero_apply, hasks] at ha
    cases ha
  | succ n ih =>
    by_cases hrest : s.book.AtRest eps
    · rw [settle_iterate_atRest hidle hrest]
      exact hrest
    · have htrades : (s.book.trades eps).length ≠ 0 := fun hzero =>
        hrest (trades_nil_iff.mp (List.eq_nil_of_length_eq_zero hzero))
      have hless := matchOrders_size heps s.book
      rw [Function.iterate_succ_apply]
      refine ih rfl ?_
      change (s.book.matchOrders eps).size ≤ n
      omega

/-- Calling `match()` as often as there are orders in a book, or oftener, leaves a
book in which no open ask may trade with the bid in front, and which further calls
leave alone. -/
theorem match_comes_to_rest (heps : 0 < eps) {s : BookRun τ} (hidle : s.pc = .idle) {n : Nat}
    (hn : s.book.size ≤ n) :
    ((BookRun.settle eps)^[n] s).book.AtRest eps ∧
      (BookRun.settle eps)^[n] s = (BookRun.settle eps)^[s.book.size] s := by
  refine ⟨atRest_of_size heps hidle hn, ?_⟩
  obtain ⟨k, rfl⟩ := Nat.exists_eq_add_of_le' hn
  rw [Function.iterate_add_apply]
  exact settle_iterate_atRest (settle_iterate_idle s hidle _) (atRest_of_size heps hidle le_rfl) k

/-- Two asks of which the second, in its turn, uncovers the bid the first may trade with. -/
def uncovered : List (BookOrder Nat) :=
  [tklam 1 .ask .limit 1 11, tklam 2 .ask .limit 1 10, tklam 3 .bid .limit 1 11,
    tklam 4 .bid .market 1 10]

theorem uncovered_second_call :
    ((uncovered.foldl (BookRun.add epsilon) {}).settle epsilon).committed.length = 1 ∧
      ((BookRun.settle epsilon)^[4] (uncovered.foldl (BookRun.add epsilon) {})).committed.length = 2 ∧
      ((BookRun.settle epsilon)^[4] (uncovered.foldl (BookRun.add epsilon) {})).book.AtRest
        epsilon :=
  ⟨by decide +kernel, by decide +kernel,
    (match_comes_to_rest epsilon_pos (by decide +kernel) (by decide +kernel)).1⟩

end TradingMarket
