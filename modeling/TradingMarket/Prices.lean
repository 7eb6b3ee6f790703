import TradingMarket.QueueOrder

/-! # The prices of the trades

`match()` keeps the price of the latest trade with a `Limit` side in
`marketPrice` and executes `Market` against `Market` at it. Until there was such
a trade it is the 0 the constructor left, and whether a run ever trades at that
price is decided by its first trade (`realPrices_iff_head`). -/
namespace TradingMarket

open Lib (Machine)

variable {τ : Type} {eps : ℚ}

/-! ## The market price as a function of the log -/

def latestLimitSided (trades : List (TradedOrder τ)) : Option (TradedOrder τ) :=
  (trades.filter TradedOrder.limitSided).getLast?

/-- The price of the latest trade with a `Limit` side, 0 before the first one. -/
def lastPrice (trades : List (TradedOrder τ)) : ℚ :=
  ((latestLimitSided trades).map (·.tradedPrice)).getD 0

@[simp] theorem latestLimitSided_concat (trades : List (TradedOrder τ)) (t : TradedOrder τ) :
    latestLimitSided (trades ++ [t]) =
      if t.limitSided then some t else latestLimitSided trades := by
  cases h : t.limitSided <;> simp [latestLimitSided, h]

theorem limitSided_eq_false {t : TradedOrder τ} : t.limitSided = false ↔
    t.askOrder.matchType = .market ∧ t.bidOrder.matchType = .market := by
  cases ha : t.askOrder.matchType <;> cases hb : t.bidOrder.matchType <;>
    simp [TradedOrder.limitSided, ha, hb]

/-- Every trade executes at the bid's price, or at the market price its
predecessors left when both sides are `Market`. -/
def Priced (trades : List (TradedOrder τ)) : Prop :=
  ∀ earlier t later, trades = earlier ++ t :: later →
    t.tradedPrice = executionPrice (lastPrice earlier) t.askOrder t.bidOrder

theorem Priced.concat {trades : List (TradedOrder τ)} (h : Priced trades) {t : TradedOrder τ}
    (ht : t.tradedPrice = executionPrice (lastPrice trades) t.askOrder t.bidOrder) :
    Priced (trades ++ [t]) := by
  intro earlier u later hsplit
  rcases Lib.concat_eq_split.mp hsplit with ⟨rfl, rfl, rfl⟩ | ⟨later, rfl, hbefore⟩
  · exact ht
  · exact h earlier u later hbefore

theorem priced {s : BookRun τ} (h : (bookMachine eps).Reachable s) :
    s.book.marketPrice = lastPrice s.committed ∧ Priced s.committed := by
  induction h using Machine.Reachable.induct with
  | start => exact ⟨rfl, fun earlier t later h => by simp [bookMachine] at h⟩
  | step s e s' _ hstep ih =>
    cases bookStep_cases hstep with
    | @addOrder book added committed o =>
      refine ⟨?_, ih.2⟩
      rw [← ih.1]
      simp only [BookRun.book, OrderBook.addOrder]
      cases o.type <;> rfl
    | callMatch => exact ih
    | @tick l l' added committed t hl =>
      cases hl with
      | returns | visit | pass | erase => simpa using ih
      | @trade book i j matched a b t mp ha hb hq ht =>
        obtain ⟨hmp, hpriced⟩ := ih
        obtain ⟨-, rfl, rfl, htp, -, rfl⟩ := tradeOf_some ht
        simp only [BookRun.book] at hmp
        rw [hmp] at htp
        refine ⟨?_, hpriced.concat htp⟩
        have hafter : (afterCommit eps book t t.tradedPrice i j).book.marketPrice =
            t.tradedPrice := by
          unfold afterCommit; dsimp only; split <;> rfl
        simp only [BookRun.book, hafter, lastPrice, Option.toList_some, latestLimitSided_concat]
        cases hside : t.limitSided with
        | true => rfl
        | false => rw [htp, executionPrice, if_pos (limitSided_eq_false.mp hside)]; rfl

/-! ## Real prices -/

/-- What the market expects of the price of a trade, given the earlier ones. -/
structure RealPrice (earlier : List (TradedOrder τ)) (t : TradedOrder τ) : Prop where
  positive : 0 < t.tradedPrice
  ofBid : ∃ u ∈ earlier ++ [t], t.tradedPrice = u.bidOrder.price
  atMarket : t.limitSided = false →
    ∃ u, latestLimitSided earlier = some u ∧ t.tradedPrice = u.tradedPrice

def RealPrices (trades : List (TradedOrder τ)) : Prop :=
  ∀ earlier t later, trades = earlier ++ t :: later → RealPrice earlier t

theorem latestLimitSided_some {trades : List (TradedOrder τ)} {t : TradedOrder τ}
    (h : latestLimitSided trades = some t) : t ∈ trades ∧ t.limitSided = true :=
  List.mem_filter.mp (List.mem_of_getLast? h)

/-- Once there was a trade with a `Limit` side there is a latest one. -/
theorem latestLimitSided_isSome {trades : List (TradedOrder τ)} {t : TradedOrder τ}
    (ht : t ∈ trades) (hl : t.limitSided = true) : ∃ u, latestLimitSided trades = some u := by
  have hne : trades.filter TradedOrder.limitSided ≠ [] :=
    List.ne_nil_of_mem (List.mem_filter.mpr ⟨ht, hl⟩)
  exact ⟨_, List.getLast?_eq_getLast_of_ne_nil hne⟩

theorem Priced.limitSided {trades earlier later : List (TradedOrder τ)} {t : TradedOrder τ}
    (h : Priced trades) (hsplit : trades = earlier ++ t :: later) (ht : t.limitSided = true) :
    t.tradedPrice = t.bidOrder.price := by
  rw [h earlier t later hsplit, executionPrice, if_neg]
  intro hm
  rw [limitSided_eq_false.mpr hm] at ht
  cases ht

/-- With real bid prices, the prices of a log are real exactly when its first
trade has a `Limit` side. -/
theorem realPrices_iff_head {trades : List (TradedOrder τ)} (h : Priced trades)
    (hbids : ∀ t ∈ trades, 0 < t.bidOrder.price) :
    RealPrices trades ↔ ∀ t, trades.head? = some t → t.limitSided = true := by
  constructor
  · intro hreal t ht
    obtain ⟨later, rfl⟩ := List.head?_eq_some_iff.mp ht
    cases hside : t.limitSided with
    | true => rfl
    | false =>
      obtain ⟨u, hu, -⟩ := (hreal [] t later rfl).atMarket hside
      cases hu
  · intro hhead earlier t later hsplit
    have hmem : ∀ u ∈ earlier ++ [t], u ∈ trades := by
      intro u hu
      rw [hsplit]
      simp only [List.mem_append, List.mem_cons, List.not_mem_nil, or_false] at hu ⊢
      tauto
    cases hside : t.limitSided with
    | true =>
      have hp := h.limitSided hsplit hside
      refine ⟨hp ▸ hbids t (hmem t (by simp)), ⟨t, by simp, hp⟩, fun hf => ?_⟩
      rw [hside] at hf
      cases hf
    | false =>
      -- the first trade of the log stands before this one
      obtain ⟨first, rest, rfl⟩ : ∃ first rest, earlier = first :: rest := by
        cases earlier with
        | nil => rw [hhead t (by simp [hsplit])] at hside; cases hside
        | cons first rest => exact ⟨first, rest, rfl⟩
      obtain ⟨u, hu⟩ := latestLimitSided_isSome (List.mem_cons_self (a := first) (l := rest))
        (hhead first (by simp [hsplit]))
      obtain ⟨humem, huside⟩ := latestLimitSided_some hu
      have hprice : t.tradedPrice = u.tradedPrice := by
        rw [h _ t later hsplit, executionPrice, if_pos (limitSided_eq_false.mp hside), lastPrice, hu]
        rfl
      obtain ⟨before, after, hu'⟩ := List.append_of_mem humem
      have hub : u.tradedPrice = u.bidOrder.price :=
        h.limitSided (show trades = before ++ u :: (after ++ t :: later) by rw [hsplit, hu']; simp) huside
      have hin : u ∈ (first :: rest) ++ [t] := List.mem_append_left _ humem
      exact ⟨by rw [hprice, hub]; exact hbids u (hmem u hin), ⟨u, hin, hprice.trans hub⟩,
        fun _ => ⟨u, hu, hprice⟩⟩

/-! ## The first trade of a call -/

/-- The first trade of a call of `match()` is with the head bid, by the first
ask with an open quantity that is eligible with it. -/
theorem head_trade (b : BookOrder τ) (bids : List (BookOrder τ)) (mp : ℚ)
    (asks : List (BookOrder τ)) :
    (matchAsks eps asks (b :: bids) mp).trades.head? =
      (asks.find? fun a => !equal eps a.quantity 0 && eligible eps a b).map fun a =>
        ⟨a, b, executionPrice mp a b, min a.quantity b.quantity⟩ := by
  induction asks with
  | nil => rfl
  | cons a asks ih =>
    rw [matchAsks_cons]
    cases hfirst : (!equal eps a.quantity 0 && eligible eps a b) with
    | false =>
      have hstop : equal eps a.quantity 0 = true ∨ eligible eps a b = false := by
        cases hq : equal eps a.quantity 0 <;> simp_all
      simp only [List.find?_cons, hfirst, ← ih, matchAsk_stop hstop, List.nil_append]
    | true =>
      have hgo : ¬ (equal eps a.quantity 0 = true ∨ eligible eps a b = false) := by
        simpa using hfirst
      simp [hfirst, matchAsk_eligible mp bids hgo]

/-- A `Market` ask with an open quantity stands against a `Market` bid. -/
def MarketPair (eps : ℚ) (book : OrderBook τ) : Prop :=
  (∃ a ∈ book.asks, a.matchType = .market ∧ equal eps a.quantity 0 = false) ∧
    ∃ b ∈ book.bids, b.matchType = .market

instance (book : OrderBook τ) : Decidable (MarketPair eps book) :=
  inferInstanceAs (Decidable ((∃ a ∈ book.asks, _) ∧ ∃ b ∈ book.bids, _))

theorem MarketFirst.head {o : BookOrder τ} {orders : List (BookOrder τ)}
    (h : MarketFirst (o :: orders)) {p : BookOrder τ} (hp : p ∈ o :: orders)
    (hm : p.matchType = .market) : o.matchType = .market := by
  rcases List.mem_cons.mp hp with rfl | hp
  · exact hm
  · exact (List.pairwise_cons.mp h).1 p hp hm

/-- The first trade of a call has a `Limit` side unless a market pair opens it. -/
theorem head_limitSided_iff {book : OrderBook τ} (hasks : MarketFirst book.asks)
    (hbids : MarketFirst book.bids) :
    (∀ t, (book.trades eps).head? = some t → t.limitSided = true) ↔ ¬ MarketPair eps book := by
  unfold OrderBook.trades
  cases hb : book.bids with
  | nil => simp [matchAsks_no_bids, MarketPair, hb]
  | cons b bids =>
    rw [head_trade]
    rw [hb] at hbids
    constructor
    · intro hhead hpair
      obtain ⟨⟨a, ha, ham, haq⟩, c, hc, hcm⟩ := hpair
      have hbm : b.matchType = .market := hbids.head (hb ▸ hc) hcm
      have hopen : (!equal eps a.quantity 0 && eligible eps a b) = true := by
        simp [haq, eligible, ham, hbm]
      -- an ask found before `a` stands before it, so it is a market ask too
      cases hfind : book.asks.find? fun a => !equal eps a.quantity 0 && eligible eps a b with
      | none => exact absurd hopen (List.find?_eq_none.mp hfind a ha)
      | some d =>
        obtain ⟨-, before, after, hsplit, hnot⟩ := List.find?_eq_some_iff_append.mp hfind
        have hd : d.matchType = .market := by
          have hin : a ∈ d :: after := by
            rw [hsplit] at ha
            rcases List.mem_append.mp ha with h | h
            · have := hnot a h
              rw [hopen] at this
              cases this
            · exact h
          rw [hsplit] at hasks
          exact MarketFirst.head (List.pairwise_append.mp hasks).2.1 hin ham
        have := hhead _ (by rw [hfind]; rfl)
        rw [limitSided_eq_false.mpr ⟨hd, hbm⟩] at this
        cases this
    · intro hno t ht
      obtain ⟨a, hfind, rfl⟩ := Option.map_eq_some_iff.mp ht
      have hopen := List.find?_some hfind
      cases hside : (⟨a, b, executionPrice book.marketPrice a b,
          min a.quantity b.quantity⟩ : TradedOrder τ).limitSided with
      | true => rfl
      | false =>
        obtain ⟨ham, hbm⟩ := limitSided_eq_false.mp hside
        refine absurd ⟨⟨a, List.mem_of_find?_eq_some hfind, ham, ?_⟩, b, by simp [hb], hbm⟩ hno
        simpa using (Bool.and_eq_true_iff.mp hopen).1

/-! ## Whole runs -/

theorem runCalls_added {calls : List (BookCall τ)} {o : BookOrder τ}
    (h : o ∈ (runCalls eps calls).added) : BookCall.addOrder o ∈ calls := by
  induction calls using List.reverseRecOn with
  | nil => cases h
  | append_singleton calls c ih =>
    rw [runCalls_concat] at h
    cases c with
    | callMatch => exact List.mem_append_left _ (ih h)
    | addOrder p =>
      rcases List.mem_append.mp h with h | h
      · exact List.mem_append_left _ (ih h)
      · obtain rfl : o = p := by simpa using h
        exact List.mem_append_right _ (List.mem_cons_self)

theorem bid_prices {calls : List (BookCall τ)} (hpos : ∀ o, .addOrder o ∈ calls → 0 < o.price) :
    ∀ t ∈ (runCalls eps calls).committed, 0 < t.bidOrder.price := by
  intro t ht
  obtain ⟨o, ho, hk⟩ := (origins (@runCalls_reachable τ eps calls) .bid).traded t ht
  have hprice : t.bidOrder.price = o.price := by
    show (t.order .bid).price = o.price
    rw [eq_of_key hk]
  rw [hprice]
  exact hpos o (runCalls_added (List.mem_filter.mp ho).1)

/-- Until a trade with a `Limit` side, and only until then, the market price is
the 0 of the constructor. -/
theorem marketPrice_eq_zero {calls : List (BookCall τ)}
    (hpos : ∀ o, .addOrder o ∈ calls → 0 < o.price)
    (hhead : ∀ t, (runCalls eps calls).committed.head? = some t → t.limitSided = true) :
    (runCalls eps calls).book.marketPrice = 0 ↔ (runCalls eps calls).committed = [] := by
  obtain ⟨hmp, hpriced⟩ := priced (@runCalls_reachable τ eps calls)
  have hbids := @bid_prices τ eps calls hpos
  constructor
  · intro hzero
    cases hc : (runCalls eps calls).committed with
    | nil => rfl
    | cons t later =>
      obtain ⟨u, hu⟩ := latestLimitSided_isSome
        (List.mem_cons_self (a := t) (l := later)) (hhead t (by rw [hc]; rfl))
      obtain ⟨humem, huside⟩ := latestLimitSided_some hu
      obtain ⟨before, after, hsplit⟩ := List.append_of_mem humem
      have hprice := hpriced.limitSided (hc.trans hsplit) huside
      have hpositive := hbids u (hc ▸ humem)
      rw [hmp, lastPrice, hc, hu, Option.map_some, Option.getD_some, hprice] at hzero
      rw [hzero] at hpositive
      exact absurd hpositive (lt_irrefl 0)
  · intro hc
    rw [hmp, hc]
    rfl

/-- A log is headed by a trade with a `Limit` side exactly when every call of
`match()` before the first such trade finds no market pair. -/
theorem head_committed_iff (calls : List (BookCall τ))
    (hpos : ∀ o, .addOrder o ∈ calls → 0 < o.price) :
    (∀ t, (runCalls eps calls).committed.head? = some t → t.limitSided = true) ↔
      ∀ earlier later, calls = earlier ++ .callMatch :: later →
        (runCalls eps earlier).book.marketPrice = 0 →
          ¬ MarketPair eps (runCalls eps earlier).book := by
  induction calls using List.reverseRecOn with
  | nil => simp
  | append_singleton calls c ih =>
    have hpos' : ∀ o, .addOrder o ∈ calls → 0 < o.price := fun o ho =>
      hpos o (List.mem_append_left _ ho)
    rw [Lib.forall_split_concat, ← ih hpos', runCalls_concat]
    cases c with
    | addOrder o => simp [BookRun.call]
    | callMatch =>
      have hreach := @runCalls_reachable τ eps calls
      have hfirst := @head_limitSided_iff τ eps _ (marketFirst hreach .ask) (marketFirst hreach .bid)
      have hzero := @marketPrice_eq_zero τ eps calls hpos'
      simp only [BookRun.call, forall_const]
      cases hc : (runCalls eps calls).committed with
      | nil =>
        rw [hc] at hzero
        have hmp := (hzero (by simp)).mpr rfl
        simp [hmp, ← hfirst]
      | cons t rest =>
        rw [hc] at hzero
        simp only [List.cons_append, List.head?_cons]
        exact ⟨fun h => ⟨h, fun hmp => absurd ((hzero h).mp hmp) (by simp)⟩, And.left⟩

/-- With positive prices, the trades of a run execute at real prices exactly when
no call of `match()` that finds the market price still 0 finds a market pair. -/
theorem real_prices_iff (calls : List (BookCall τ))
    (hpos : ∀ o, .addOrder o ∈ calls → 0 < o.price) :
    RealPrices (runCalls eps calls).committed ↔
      ∀ earlier later, calls = earlier ++ .callMatch :: later →
        (runCalls eps earlier).book.marketPrice = 0 →
          ¬ MarketPair eps (runCalls eps earlier).book :=
  (realPrices_iff_head (priced (runCalls_reachable calls)).2 (bid_prices hpos)).trans
    (head_committed_iff calls hpos)

/-- The first trade of a new book, between two market orders. -/
def marketOnly : List (BookCall Nat) :=
  [.addOrder (tklam 1 .ask .market 1 10), .addOrder (tklam 2 .bid .market 1 10), .callMatch]

theorem traded_at_zero : (∀ o, .addOrder o ∈ marketOnly → 0 < o.price) ∧
    ¬ RealPrices (runCalls epsilon marketOnly).committed := by
  refine ⟨by simp [marketOnly, tklam], fun h => ?_⟩
  have hone : ∃ t ∈ (runCalls epsilon marketOnly).committed.head?, t.tradedPrice = 0 ∧
      (runCalls epsilon marketOnly).committed = [t] := by decide +kernel
  obtain ⟨t, -, hzero, hc⟩ := hone
  have hpos := (h [] t [] hc).positive
  rw [hzero] at hpos
  exact absurd hpos (lt_irrefl 0)

/-- A limit bid opens the market for the market bid of the second call. -/
def limitOpens : List (BookCall Nat) :=
  [.addOrder (tklam 1 .ask .market 2 10), .addOrder (tklam 2 .bid .limit 1 9), .callMatch,
    .addOrder (tklam 3 .bid .market 1 8), .callMatch]

theorem limit_opens_at_real_price : RealPrices (runCalls epsilon limitOpens).committed := by
  have hcalls : ∀ k < 5, limitOpens[k]? = some .callMatch →
      (runCalls epsilon (limitOpens.take k)).book.marketPrice = 0 →
        ¬ MarketPair epsilon (runCalls epsilon (limitOpens.take k)).book := by decide +kernel
  refine (real_prices_iff limitOpens (by simp [limitOpens, tklam])).mpr ?_
  intro earlier later hsplit hzero
  have hlt : earlier.length < 5 := by
    have hlen := congrArg List.length hsplit
    simp only [limitOpens, List.length_append, List.length_cons, List.length_nil] at hlen
    omega
  have htake : limitOpens.take earlier.length = earlier := by simp [hsplit]
  have h := hcalls earlier.length hlt (by simp [hsplit])
  rw [htake] at h
  exact h hzero

end TradingMarket
