import TradingMarket.Priority

/-! # One call of `match()`, from any book

What a call of `match()` does whatever the book it starts from: sorted or not,
with quantities of any sign. Every trade it commits is a valid one
(`trades_valid`), and it takes bids from the front of `_bids` only
(`bids_consumed_from_front`): the ask that leaves a bid partly filled has
nothing left itself, so its turn is over before it could look past that bid. -/
namespace TradingMarket

open Lib (SuffixUpToHead)

variable {τ : Type} {eps : ℚ}

/-! ## The trades of a call -/

/-- What holds of a trade committed from `book`. -/
structure ValidTrade (eps : ℚ) (t : TradedOrder τ) (book : OrderBook τ) : Prop where
  ask : t.askOrder ∈ book.asks
  bid : t.bidOrder ∈ book.bids
  quantity : t.tradedQuantity = min t.askOrder.quantity t.bidOrder.quantity
  exhausts : (t.askOrder.fill t.tradedQuantity).quantity = 0 ∨
    (t.bidOrder.fill t.tradedQuantity).quantity = 0
  askProtected : t.askOrder.matchType = .limit → t.askOrder.price - eps < t.tradedPrice
  bidProtected : t.bidOrder.matchType = .limit → t.tradedPrice ≤ t.bidOrder.price

/-- An eligible bid is no more than the tolerance below a `Limit` ask. -/
theorem eligible_ask_limit (heps : 0 < eps) {a b : BookOrder τ} (h : eligible eps a b = true)
    (ha : a.matchType = .limit) : a.price - eps < b.price := by
  have hequal : equal eps a.price b.price = true → a.price - eps < b.price := by
    intro he
    have hdiff : |a.price - b.price| < eps := by simpa [equal] using he
    linarith [le_abs_self (a.price - b.price)]
  unfold eligible at h
  rw [ha] at h
  cases hb : b.matchType with
  | limit =>
    rw [hb] at h
    exact hequal h
  | market =>
    rw [hb] at h
    rcases Bool.or_eq_true_iff.mp h with hless | he
    · have hgap : eps < b.price - a.price := by simpa [lessThan] using hless
      linarith
    · exact hequal he

theorem executionPrice_limit {a b : BookOrder τ} (mp : ℚ)
    (h : a.matchType = .limit ∨ b.matchType = .limit) : executionPrice mp a b = b.price := by
  refine if_neg fun hm => ?_
  rcases h with h | h
  · rw [h] at hm; cases hm.1
  · rw [h] at hm; cases hm.2

theorem LoopStep.validTrade (heps : 0 < eps) {l l' : Loop τ} {t : TradedOrder τ}
    (h : LoopStep eps l (some t) l') : ValidTrade eps t l.book := by
  cases h with
  | @trade book i j matched a b t mp ha hb hq ht =>
    obtain ⟨hel, rfl, rfl, htp, htq, -⟩ := tradeOf_some ht
    refine ⟨List.mem_of_getElem? ha, List.mem_of_getElem? hb, htq, ?_, ?_, ?_⟩
    · rw [fill_quantity, fill_quantity, htq]
      by_cases hz : t.bidOrder.quantity - min t.askOrder.quantity t.bidOrder.quantity = 0
      · exact .inr hz
      · exact .inl (min_residue hz)
    · intro hl
      rw [htp, executionPrice_limit _ (.inl hl)]
      exact eligible_ask_limit heps hel hl
    · intro hl
      rw [htp, executionPrice_limit _ (.inr hl)]

/-- A run that commits a trade is a run to that trade, the step that commits it,
and a run from there. -/
theorem LoopRuns.at_trade {l l'' : Loop τ} {ts : List (TradedOrder τ)} (h : LoopRuns eps l ts l'')
    {earlier later : List (TradedOrder τ)} {t : TradedOrder τ} (hts : ts = earlier ++ t :: later) :
    ∃ m m', LoopRuns eps l earlier m ∧ loopStep eps m = some (m', some t) ∧
      LoopRuns eps m' later l'' := by
  induction h generalizing earlier with
  | done => simp at hts
  | @step l l' l'' u ts hs hrest ih =>
    cases u with
    | none =>
      obtain ⟨m, m', hm, hstep, hafter⟩ := ih hts
      exact ⟨m, m', .step hs hm, hstep, hafter⟩
    | some u =>
      cases earlier with
      | nil =>
        obtain ⟨rfl, rfl⟩ := List.cons.inj hts
        exact ⟨l, l', .done l, hs, hrest⟩
      | cons v earlier =>
        obtain ⟨rfl, hrest⟩ := List.cons.inj hts
        obtain ⟨m, m', hm, hstep, hafter⟩ := ih hrest
        exact ⟨m, m', .step hs hm, hstep, hafter⟩

/-- Every trade of a call is committed in a state the earlier trades of the call
lead to. It is valid there, and its step subtracts the traded quantity from
those two orders. -/
theorem trades_valid (heps : 0 < eps) (book : OrderBook τ) {earlier later : List (TradedOrder τ)}
    {t : TradedOrder τ} (h : book.trades eps = earlier ++ t :: later) :
    ∃ l l', LoopRuns eps ⟨book, .outer 0⟩ earlier l ∧ loopStep eps l = some (l', some t) ∧
      LoopRuns eps l' later ⟨book.matchOrders eps, .idle⟩ ∧
      ValidTrade eps t l.book ∧ SubtractsOnce eps t l.book l'.book := by
  obtain ⟨l, l', hbefore, hstep, hafter⟩ := (loop_runs book).at_trade h
  have hcase := loopStep_cases hstep
  exact ⟨l, l', hbefore, hstep, hafter, hcase.validTrade heps, hcase.subtractsOnce⟩

/-- An unsorted book: a limit ask and a market bid that offers more, each with
another order behind it. -/
def protectedBook : OrderBook Nat :=
  { asks := [tklam 1 .ask .limit 2 10, tklam 2 .ask .market 1 10]
    bids := [tklam 3 .bid .market 5 12, tklam 4 .bid .limit 1 10] }

theorem protectedBook_trade :
    ∃ l l', LoopRuns epsilon ⟨protectedBook, .outer 0⟩ [] l ∧
      loopStep epsilon l =
        some (l', some ⟨tklam 1 .ask .limit 2 10, tklam 3 .bid .market 5 12, 12, 2⟩) ∧
      ValidTrade epsilon ⟨tklam 1 .ask .limit 2 10, tklam 3 .bid .market 5 12, 12, 2⟩ l.book := by
  have htrades : protectedBook.trades epsilon =
      [] ++ ⟨tklam 1 .ask .limit 2 10, tklam 3 .bid .market 5 12, 12, 2⟩ ::
        (protectedBook.trades epsilon).drop 1 := by decide +kernel
  obtain ⟨l, l', hbefore, hstep, -, hvalid, -⟩ := trades_valid epsilon_pos protectedBook htrades
  exact ⟨l, l', hbefore, hstep, hvalid⟩

/-! ## The turn of an ask -/

/-- The trades of a turn are with the bids at the front of `bids`, each of which
is erased but for the last one, which may stay partly filled. -/
structure AskTurn.FromFront (turn : AskTurn τ) (askOrder : BookOrder τ)
    (bids : List (BookOrder τ)) : Prop where
  ask : ∀ t ∈ turn.trades, t.askOrder.key = askOrder.key
  initial : turn.trades.map (·.bidOrder) = bids.take turn.trades.length
  erased : turn.bids = bids.drop turn.trades.length ∨
    ∃ t, turn.trades.getLast? = some t ∧
      turn.bids = t.bidOrder.fill t.tradedQuantity :: bids.drop turn.trades.length

theorem matchAsk_exhausted (heps : 0 < eps) {a : BookOrder τ} (h : a.quantity = 0) (mp : ℚ)
    (bids : List (BookOrder τ)) : matchAsk eps a mp bids = ⟨a, bids, mp, false, []⟩ := by
  cases bids with
  | nil => rfl
  | cons b bids => exact matchAsk_stop (.inl (by rw [h]; exact equal_self heps 0))

theorem matchAsk_fromFront (heps : 0 < eps) (bids : List (BookOrder τ)) (a : BookOrder τ)
    (mp : ℚ) : (matchAsk eps a mp bids).FromFront a bids := by
  induction bids generalizing a mp with
  | nil => exact ⟨by simp [matchAsk], by simp [matchAsk], .inl rfl⟩
  | cons b bids ih =>
    by_cases hstop : equal eps a.quantity 0 = true ∨ eligible eps a b = false
    · rw [matchAsk_stop hstop]
      exact ⟨by simp, rfl, .inl rfl⟩
    · rw [matchAsk_eligible mp bids hstop]
      have hrest := ih (a.fill (min a.quantity b.quantity)) (executionPrice mp a b)
      refine ⟨?_, by simp [hrest.initial], ?_⟩
      · intro u hu
        rcases List.mem_cons.mp hu with rfl | hu
        · rfl
        · exact hrest.ask u hu
      dsimp only
      split
      · rcases hrest.erased with hb | ⟨u, hu, hb⟩
        · exact .inl hb
        · exact .inr ⟨u, by rw [List.getLast?_cons, hu]; rfl, hb⟩
      · rename_i hres
        rw [matchAsk_exhausted heps (kept_bid_exhausts heps (by simpa using hres))]
        exact .inr ⟨_, rfl, rfl⟩

/-! ## The two queues -/

/-- Orders that differ at most in their quantity. -/
def SameKey (o p : BookOrder τ) : Prop := o.key = p.key

theorem SameKey.trans (o p r : BookOrder τ) (h : SameKey o p) (h' : SameKey p r) : SameKey o r :=
  Eq.trans h h'

theorem AskTurn.FromFront.suffix {turn : AskTurn τ} {a : BookOrder τ} {bids : List (BookOrder τ)}
    (h : turn.FromFront a bids) : SuffixUpToHead SameKey bids turn.bids := by
  rcases h.erased with hb | ⟨t, ht, hb⟩
  · rw [hb]
    exact .suffix (List.drop_suffix _ _)
  · -- the last bid traded is the one before those left alone
    rw [hb]
    obtain ⟨ts, hts⟩ := List.getLast?_eq_some_iff.mp ht
    have hinit := h.initial
    rw [hts, List.length_append, List.length_singleton] at hinit ⊢
    refine .head (a := t.bidOrder) ?_ rfl
    have hsplit : bids = ts.map (·.bidOrder) ++ t.bidOrder :: bids.drop (ts.length + 1) := by
      conv_lhs => rw [← List.take_append_drop (ts.length + 1) bids, ← hinit]
      simp
    exact ⟨_, hsplit.symm⟩

theorem matchAsks_bids (heps : 0 < eps) (asks bids : List (BookOrder τ)) (mp : ℚ) :
    SuffixUpToHead SameKey bids (matchAsks eps asks bids mp).bids := by
  induction asks generalizing bids mp with
  | nil => exact .suffix (List.suffix_refl bids)
  | cons a asks ih =>
    rw [matchAsks_cons]
    exact (matchAsk_fromFront heps bids a mp).suffix.trans SameKey.trans (ih _ _)

theorem LoopRuns.keys_sublist {l l' : Loop τ} {ts : List (TradedOrder τ)}
    (h : LoopRuns eps l ts l') (side : Side) :
    ((l'.book.queue side).map BookOrder.key).Sublist ((l.book.queue side).map BookOrder.key) := by
  induction h with
  | done => exact .refl _
  | step hs _ ih => exact ih.trans ((loopStep_cases hs).keys_sublist side)

/-- A call leaves a suffix of `_bids` with at most the quantity of its first
order changed, and a subsequence of `_asks` with at most quantities changed. The
turn of each ask takes bids from the front of what the turns before it left. -/
theorem bids_consumed_from_front (heps : 0 < eps) (book : OrderBook τ) :
    SuffixUpToHead SameKey book.bids (book.matchOrders eps).bids ∧
      ((book.matchOrders eps).asks.map BookOrder.key).Sublist (book.asks.map BookOrder.key) ∧
      ∀ before a after, book.asks = before ++ a :: after →
        let began := matchAsks eps before book.bids book.marketPrice
        let turn := matchAsk eps a began.marketPrice began.bids
        LoopRuns eps ⟨book, .outer 0⟩ began.trades
          ⟨{ book with marketPrice := began.marketPrice, asks := began.asks ++ a :: after,
                       bids := began.bids }, .outer began.asks.length⟩ ∧
        LoopRuns eps
          ⟨{ book with marketPrice := began.marketPrice, asks := began.asks ++ a :: after,
                       bids := began.bids }, .outer began.asks.length⟩ turn.trades
          ⟨{ book with marketPrice := turn.marketPrice,
                       asks := (began.asks ++ turn.asks eps) ++ after,
                       bids := turn.bids }, .outer (began.asks ++ turn.asks eps).length⟩ ∧
        turn.FromFront a began.bids := by
  refine ⟨matchAsks_bids heps _ _ _, (loop_runs book).keys_sublist .ask, ?_⟩
  intro before a after hasks
  have hbegan := @asks_run τ eps book.totalAsksSize book.totalBidsSize (a :: after) before []
    book.bids book.marketPrice
  rw [List.nil_append, List.nil_append, ← hasks] at hbegan
  exact ⟨hbegan, turn_runs _ _ _ _ _ _ _, matchAsk_fromFront heps _ _ _⟩

theorem protectedBook_front :
    SuffixUpToHead SameKey protectedBook.bids (protectedBook.matchOrders epsilon).bids ∧
      (protectedBook.matchOrders epsilon).bids =
        [tklam 3 .bid .market 2 12, tklam 4 .bid .limit 1 10] :=
  ⟨(bids_consumed_from_front epsilon_pos protectedBook).1, by decide +kernel⟩

end TradingMarket
