import TradingMarket.Pass

/-! # No exhausted order stays

A trade takes the smaller of two quantities, so it leaves neither side negative,
and what it leaves below the tolerance is erased: the bid at once, the ask when
its turn ends, which it does at the next test of the inner loop. So with orders
of at least the tolerance, whatever rests between calls has at least that
(`matchOrders_open`), and an order leaves in the call of its last trade
(`removed_with_last_trade`). -/
namespace TradingMarket

variable {τ : Type} {eps : ℚ}

/-! ## Open quantities -/

/-- Every order has at least the tolerance left. -/
def AllOpen (eps : ℚ) (orders : List (BookOrder τ)) : Prop := ∀ o ∈ orders, eps ≤ o.quantity

theorem AllOpen.append {l r : List (BookOrder τ)} (hl : AllOpen eps l) (hr : AllOpen eps r) :
    AllOpen eps (l ++ r) := by
  intro o ho
  rcases List.mem_append.mp ho with ho | ho
  · exact hl o ho
  · exact hr o ho

/-- A quantity that is not negative is a residue or open. -/
theorem open_of_not_residue {q : ℚ} (hq : 0 ≤ q) (h : equal eps q 0 = false) : eps ≤ q := by
  simpa [equal, abs_of_nonneg hq] using h

/-- A turn leaves the ask no less than nothing, and the bids open. -/
theorem matchAsk_open {bids : List (BookOrder τ)} {a : BookOrder τ} {mp : ℚ}
    (ha : 0 ≤ a.quantity) (hbids : AllOpen eps bids) :
    0 ≤ (matchAsk eps a mp bids).askOrder.quantity ∧ AllOpen eps (matchAsk eps a mp bids).bids := by
  induction bids generalizing a mp with
  | nil => exact ⟨ha, hbids⟩
  | cons b bids ih =>
    by_cases hstop : equal eps a.quantity 0 = true ∨ eligible eps a b = false
    · rw [matchAsk_stop hstop]
      exact ⟨ha, hbids⟩
    · rw [matchAsk_eligible mp bids hstop]
      have hask : 0 ≤ (a.fill (min a.quantity b.quantity)).quantity :=
        sub_nonneg.mpr (min_le_left _ _)
      obtain ⟨hrest, hopen⟩ := @ih (a.fill (min a.quantity b.quantity)) (executionPrice mp a b) hask
        fun o ho => hbids o (List.mem_cons_of_mem b ho)
      refine ⟨hrest, ?_⟩
      dsimp only
      split
      · exact hopen
      · rename_i hres
        intro o ho
        rcases List.mem_cons.mp ho with rfl | ho
        · exact open_of_not_residue (sub_nonneg.mpr (min_le_right _ _)) (by simpa using hres)
        · exact hopen o ho

/-- An ask that traded has a trade in its turn; one that did not is as it was. -/
theorem matchAsk_matched (a : BookOrder τ) (mp : ℚ) (bids : List (BookOrder τ)) :
    (matchAsk eps a mp bids).isMatchAsk = false ∧ (matchAsk eps a mp bids).askOrder = a ∨
      (matchAsk eps a mp bids).isMatchAsk = true ∧ ∃ t, t ∈ (matchAsk eps a mp bids).trades := by
  cases bids with
  | nil => exact .inl ⟨rfl, rfl⟩
  | cons b bids =>
    by_cases hstop : equal eps a.quantity 0 = true ∨ eligible eps a b = false
    · rw [matchAsk_stop hstop]
      exact .inl ⟨rfl, rfl⟩
    · rw [matchAsk_eligible mp bids hstop]
      exact .inr ⟨rfl, _, List.mem_cons_self⟩

/-- What the code after the inner loop leaves of the ask is open. -/
theorem turn_asks_open (heps : 0 < eps) {bids : List (BookOrder τ)} {a : BookOrder τ} (mp : ℚ)
    (ha : eps ≤ a.quantity) (hbids : AllOpen eps bids) :
    AllOpen eps ((matchAsk eps a mp bids).asks eps) := by
  have hpos := (@matchAsk_open τ eps bids a mp (heps.le.trans ha) hbids).1
  unfold AskTurn.asks
  split
  · intro o ho
    cases ho
  · rename_i hkept
    intro o ho
    rw [List.mem_singleton.mp ho]
    rcases matchAsk_matched a mp bids with ⟨-, heq⟩ | ⟨hm, -⟩
    · rw [heq]
      exact ha
    · exact open_of_not_residue hpos (by simpa [hm] using hkept)

theorem matchAsks_open (heps : 0 < eps) {asks bids : List (BookOrder τ)} (mp : ℚ)
    (hasks : AllOpen eps asks) (hbids : AllOpen eps bids) :
    AllOpen eps (matchAsks eps asks bids mp).asks ∧ AllOpen eps (matchAsks eps asks bids mp).bids := by
  induction asks generalizing bids mp with
  | nil => exact ⟨hasks, hbids⟩
  | cons a asks ih =>
    have ha : eps ≤ a.quantity := hasks a List.mem_cons_self
    obtain ⟨hrest, hleft⟩ := ih (matchAsk eps a mp bids).marketPrice
      (fun o ho => hasks o (List.mem_cons_of_mem a ho))
      (matchAsk_open (heps.le.trans ha) hbids).2
    rw [matchAsks_cons]
    exact ⟨(turn_asks_open heps mp ha hbids).append hrest, hleft⟩

theorem matchOrders_open (heps : 0 < eps) {book : OrderBook τ}
    (h : ∀ side, AllOpen eps (book.queue side)) (side : Side) :
    AllOpen eps ((book.matchOrders eps).queue side) := by
  obtain ⟨hasks, hbids⟩ := matchAsks_open heps book.marketPrice (h .ask) (h .bid)
  cases side with
  | ask => exact hasks
  | bid => exact hbids

theorem addOrder_open {book : OrderBook τ} {o : BookOrder τ} (ho : eps ≤ o.quantity)
    {side : Side} (h : AllOpen eps (book.queue side)) :
    AllOpen eps ((book.addOrder eps o).queue side) := by
  intro e he
  rcases mem_addOrder.mp he with ⟨-, rfl⟩ | he
  · exact ho
  · exact h e he

/-- What a client adds is open. -/
def CallsOpen (eps : ℚ) (calls : List (BookCall τ)) : Prop :=
  ∀ o, BookCall.addOrder o ∈ calls → eps ≤ o.quantity

theorem runCalls_open (heps : 0 < eps) {calls : List (BookCall τ)} (h : CallsOpen eps calls)
    (side : Side) : AllOpen eps ((runCalls eps calls).book.queue side) := by
  induction calls using List.reverseRecOn generalizing side with
  | nil =>
    intro o ho
    cases side <;> cases ho
  | append_singleton calls c ih =>
    have hcalls := ih fun o ho => h o (List.mem_append_left _ ho)
    rw [runCalls_concat]
    cases c with
    | addOrder o => exact addOrder_open (h o (by simp)) (hcalls side)
    | callMatch => exact matchOrders_open heps hcalls side

/-! ## Who leaves is traded -/

/-- The tags of the orders of a queue. -/
def tags (orders : List (BookOrder τ)) : List τ := orders.map (·.tag)

theorem tag_of_key {o p : BookOrder τ} (h : o.key = p.key) : o.tag = p.tag := by
  rw [← key_tag o, h, key_tag]

/-- An ask a turn erases traded in it. -/
theorem turn_ask_leaves (heps : 0 < eps) (a : BookOrder τ) (mp : ℚ) (bids : List (BookOrder τ)) :
    a.tag ∈ tags ((matchAsk eps a mp bids).asks eps) ∨
      ∃ t ∈ (matchAsk eps a mp bids).trades, t.askOrder.tag = a.tag := by
  have hask := (matchAsk_fromFront heps bids a mp).ask
  rcases @matchAsk_matched τ eps a mp bids with ⟨hm, heq⟩ | ⟨-, t, ht⟩
  · left
    simp [AskTurn.asks, hm, heq, tags]
  · exact .inr ⟨t, ht, tag_of_key (hask t ht)⟩

/-- A bid a turn erases traded in it. -/
theorem turn_bid_leaves (heps : 0 < eps) (a : BookOrder τ) (mp : ℚ) {bids : List (BookOrder τ)}
    {tag : τ} (h : tag ∈ tags bids) :
    tag ∈ tags (matchAsk eps a mp bids).bids ∨
      ∃ t ∈ (matchAsk eps a mp bids).trades, t.bidOrder.tag = tag := by
  obtain ⟨-, hinit, herased⟩ := matchAsk_fromFront heps bids a mp
  rw [tags, ← List.take_append_drop (matchAsk eps a mp bids).trades.length bids, ← hinit,
    List.map_append, List.mem_append] at h
  rcases h with h | h
  · right
    simpa using h
  · left
    rcases herased with hb | ⟨t, -, hb⟩
    · rw [hb]
      exact h
    · rw [hb]
      exact List.mem_cons_of_mem _ h

theorem matchAsks_leaves (heps : 0 < eps) (asks : List (BookOrder τ)) (bids : List (BookOrder τ))
    (mp : ℚ) (tag : τ) :
    (tag ∈ tags asks → tag ∈ tags (matchAsks eps asks bids mp).asks ∨
      ∃ t ∈ (matchAsks eps asks bids mp).trades, t.askOrder.tag = tag) ∧
    (tag ∈ tags bids → tag ∈ tags (matchAsks eps asks bids mp).bids ∨
      ∃ t ∈ (matchAsks eps asks bids mp).trades, t.bidOrder.tag = tag) := by
  induction asks generalizing bids mp with
  | nil => exact ⟨.inl, .inl⟩
  | cons a asks ih =>
    obtain ⟨hasks, hbids⟩ := ih (matchAsk eps a mp bids).bids (matchAsk eps a mp bids).marketPrice
    rw [matchAsks_cons]
    simp only [tags, List.map_append, List.mem_append, or_and_right, exists_or] at hasks hbids ⊢
    constructor
    · intro h
      rcases List.mem_cons.mp h with rfl | h
      · exact (turn_ask_leaves heps a mp bids).imp .inl .inl
      · exact (hasks h).imp .inr .inr
    · intro h
      rcases turn_bid_leaves heps a mp h with h | h
      · exact (hbids h).imp_right .inr
      · exact .inr (.inl h)

/-- An order a call of `match()` erases is traded in that call. -/
theorem matchOrders_leaves (heps : 0 < eps) (book : OrderBook τ) (side : Side) {tag : τ}
    (h : tag ∈ tags (book.queue side)) :
    tag ∈ tags ((book.matchOrders eps).queue side) ∨
      ∃ t ∈ book.trades eps, (t.order side).tag = tag := by
  obtain ⟨hasks, hbids⟩ := matchAsks_leaves heps book.asks book.bids book.marketPrice tag
  cases side with
  | ask => exact hasks h
  | bid => exact hbids h

theorem LoopRuns.trades_queued {l l' : Loop τ} {ts : List (TradedOrder τ)}
    (h : LoopRuns eps l ts l') (side : Side) :
    ∀ t ∈ ts, (t.order side).key ∈ (l.book.queue side).map BookOrder.key := by
  induction h with
  | done =>
    intro t ht
    cases ht
  | step hs _ ih =>
    intro t ht
    have hcase := loopStep_cases hs
    rcases List.mem_append.mp ht with ht | ht
    · obtain rfl := Option.mem_toList.mp ht
      exact List.mem_map.mpr ⟨_, hcase.trade_orders side, rfl⟩
    · exact (hcase.keys_sublist side).subset (ih t ht)

/-- A call of `match()` trades orders of its book only. -/
theorem trades_queued {book : OrderBook τ} {t : TradedOrder τ} (ht : t ∈ book.trades eps)
    (side : Side) : (t.order side).tag ∈ tags (book.queue side) := by
  obtain ⟨o, ho, hk⟩ := List.mem_map.mp ((loop_runs book).trades_queued side t ht)
  exact List.mem_map.mpr ⟨o, ho, tag_of_key hk⟩

/-! ## The last trade -/

/-- The order was removed by one of the calls of `match()`, which traded it, and
no trade after that call is for it. -/
def RemovedWithLastTrade (eps : ℚ) (calls : List (BookCall τ)) (side : Side) (tag : τ) : Prop :=
  ∃ earlier later trades, calls = earlier ++ .callMatch :: later ∧
    tag ∈ tags ((runCalls eps earlier).book.queue side) ∧
    tag ∉ tags ((runCalls eps (earlier ++ [.callMatch])).book.queue side) ∧
    (∃ t ∈ (runCalls eps earlier).book.trades eps, (t.order side).tag = tag) ∧
    (runCalls eps calls).committed =
      (runCalls eps (earlier ++ [.callMatch])).committed ++ trades ∧
    ∀ t ∈ trades, (t.order side).tag ≠ tag

/-- Calls that do not trade the order leave its last trade where it was. -/
theorem RemovedWithLastTrade.concat {calls : List (BookCall τ)} {side : Side} {tag : τ}
    (h : RemovedWithLastTrade eps calls side tag) {c : BookCall τ} {ts : List (TradedOrder τ)}
    (hc : (runCalls eps (calls ++ [c])).committed = (runCalls eps calls).committed ++ ts)
    (hts : ∀ t ∈ ts, (t.order side).tag ≠ tag) :
    RemovedWithLastTrade eps (calls ++ [c]) side tag := by
  obtain ⟨earlier, later, trades, rfl, hin, hout, htraded, hlog, hnone⟩ := h
  refine ⟨earlier, later ++ [c], trades ++ ts, by simp, hin, hout, htraded, ?_, ?_⟩
  · rw [hc, hlog, List.append_assoc]
  · intro t ht
    rcases List.mem_append.mp ht with ht | ht
    · exact hnone t ht
    · exact hts t ht

theorem removed_with_last_trade (heps : 0 < eps) (calls : List (BookCall τ)) (side : Side)
    (o : BookOrder τ) (ho : o ∈ (runCalls eps calls).addedTo side)
    (hgone : o.tag ∉ tags ((runCalls eps calls).book.queue side)) :
    RemovedWithLastTrade eps calls side o.tag := by
  induction calls using List.reverseRecOn with
  | nil => cases ho
  | append_singleton calls c ih =>
    rw [runCalls_concat] at ho hgone
    cases c with
    | addOrder p =>
      -- the queue only grew, so the order had left before
      have hadded : o ∈ ((runCalls eps calls).added ++ [p]).filter fun o => o.type = side.type := ho
      have hnot : ∀ e, (p.type = side.type ∧ e = p) ∨ e ∈ (runCalls eps calls).book.queue side →
          o.tag ≠ e.tag := fun e he htag =>
        hgone (List.mem_map.mpr ⟨e, mem_addOrder.mpr he, htag.symm⟩)
      have hold : o ∈ (runCalls eps calls).addedTo side ∧
          o.tag ∉ tags ((runCalls eps calls).book.queue side) := by
        rw [List.filter_append, List.mem_append] at hadded
        constructor
        · refine hadded.resolve_right fun hp => ?_
          obtain ⟨hp, hty⟩ := List.mem_filter.mp hp
          obtain rfl := List.mem_singleton.mp hp
          exact hnot o (.inl ⟨by simpa using hty, rfl⟩) rfl
        · intro h
          obtain ⟨e, he, htag⟩ := List.mem_map.mp h
          exact hnot e (.inr he) htag.symm
      exact (ih hold.1 hold.2).concat (by rw [runCalls_concat]; exact (List.append_nil _).symm)
        (by simp)
    | callMatch =>
      by_cases hin : o.tag ∈ tags ((runCalls eps calls).book.queue side)
      · refine ⟨calls, [], [], rfl, hin, by rwa [runCalls_concat], ?_, by simp, by simp⟩
        exact (matchOrders_leaves heps _ side hin).resolve_left hgone
      · refine (ih ho hin).concat (by rw [runCalls_concat]; rfl) ?_
        intro t ht htag
        exact hin (htag ▸ trades_queued ht side)

/-- Between calls, with orders of at least the tolerance added, every order of
either queue has at least the tolerance, and every order that left was removed
in the call of its last trade. -/
theorem no_exhausted_orders (heps : 0 < eps) {calls : List (BookCall τ)}
    (hopen : CallsOpen eps calls) (side : Side) :
    AllOpen eps ((runCalls eps calls).book.queue side) ∧
      ∀ o ∈ (runCalls eps calls).addedTo side,
        o.tag ∉ tags ((runCalls eps calls).book.queue side) →
          RemovedWithLastTrade eps calls side o.tag :=
  ⟨runCalls_open heps hopen side, removed_with_last_trade heps calls side⟩

theorem filled_bid_leaves :
    RemovedWithLastTrade epsilon
      [.addOrder (tklam 1 .ask .market 5 10), .addOrder (tklam 2 .bid .limit 2 10), .callMatch,
        .addOrder (tklam 3 .bid .limit 1 10), .callMatch] .bid 2 := by
  have hopen : CallsOpen epsilon
      [.addOrder (tklam 1 .ask .market 5 10), .addOrder (tklam 2 .bid .limit 2 10), .callMatch,
        .addOrder (tklam 3 .bid .limit 1 10), .callMatch] := by
    intro o ho
    simp only [List.mem_cons, BookCall.addOrder.injEq, reduceCtorEq, List.not_mem_nil, or_false,
      false_or] at ho
    rcases ho with rfl | rfl | rfl <;> decide +kernel
  exact (no_exhausted_orders epsilon_pos hopen .bid).2 (tklam 2 .bid .limit 2 10)
    (by decide +kernel) (by decide +kernel)

end TradingMarket
