import TradingMarket.Exhausted
import TradingMarket.Lib.Batches

/-! # Batches of orders

`MatchOrderBook::match` adds the batch of orders `Get()` returns and calls
`match()` once, so how the ring cuts the stream into batches decides when the
book is matched. Where the calls that trade come at the same points of the
stream, the cutting makes no difference; nor does it, whatever those points, for
a stream that reaches each queue in the order of its priority and in which every
ask may trade with every bid (`batching_independent`). -/
namespace TradingMarket

open Lib (activePoints)

variable {τ : Type}

section Model
variable (eps : ℚ)

def BookRun.add (s : BookRun τ) (o : BookOrder τ) : BookRun τ := s.call eps (.addOrder o)

def BookRun.settle (s : BookRun τ) : BookRun τ := s.call eps .callMatch

/-- `MatchOrderBook::match`, for the batch `Get()` returns. -/
def BookRun.matchBatch (s : BookRun τ) (batch : List (BookOrder τ)) : BookRun τ :=
  (batch.foldl (BookRun.add eps) s).settle eps

/-- `MatchOrderBook::match` once for each batch, on a new book. -/
def matchBatches (batches : List (List (BookOrder τ))) : BookRun τ :=
  batches.foldl (BookRun.matchBatch eps) {}

/-- The next call of `match()` commits a trade. -/
def BookRun.trading (s : BookRun τ) : Bool := !(s.book.trades eps).isEmpty

/-- After how many orders of the stream the calls of `match()` that commit trades
are made. -/
def tradingPoints (batches : List (List (BookOrder τ))) : List Nat :=
  activePoints (BookRun.add eps) (BookRun.settle eps) (BookRun.trading eps) 0 {} batches

/-- The calls a sequence of batches makes. -/
def batchCalls (batches : List (List (BookOrder τ))) : List (BookCall τ) :=
  batches.flatMap fun batch => batch.map .addOrder ++ [.callMatch]

end Model

variable {eps : ℚ}

/-- Taking batches is a run of the book. -/
theorem matchBatches_runCalls (batches : List (List (BookOrder τ))) :
    matchBatches eps batches = runCalls eps (batchCalls batches) := by
  induction batches using List.reverseRecOn with
  | nil => rfl
  | append_singleton batches batch ih =>
    have hbatch : batchCalls (batches ++ [batch]) =
        batchCalls batches ++ (batch.map .addOrder ++ [.callMatch]) := by
      simp [batchCalls]
    rw [hbatch, matchBatches, List.foldl_concat, ← matchBatches, ih, runCalls, runCalls,
      List.foldl_append, List.foldl_append, List.foldl_map]
    rfl

/-! ## Calls that commit no trade -/

theorem matchAsk_no_trades {a : BookOrder τ} {mp : ℚ} {bids : List (BookOrder τ)}
    (h : (matchAsk eps a mp bids).trades = []) :
    matchAsk eps a mp bids = ⟨a, bids, mp, false, []⟩ := by
  cases bids with
  | nil => rfl
  | cons b bids =>
    by_cases hstop : equal eps a.quantity 0 = true ∨ eligible eps a b = false
    · exact matchAsk_stop hstop
    · rw [matchAsk_eligible mp bids hstop] at h
      cases h

theorem matchAsks_no_trades {asks bids : List (BookOrder τ)} {mp : ℚ}
    (h : (matchAsks eps asks bids mp).trades = []) :
    matchAsks eps asks bids mp = ⟨asks, bids, mp, []⟩ := by
  induction asks with
  | nil => rfl
  | cons a asks ih =>
    rw [matchAsks_cons] at h ⊢
    obtain ⟨hturn, hrest⟩ := List.append_eq_nil_iff.mp h
    rw [matchAsk_no_trades hturn] at hrest ⊢
    rw [ih hrest]
    rfl

/-- A call of `match()` that commits no trade does nothing. -/
theorem settle_idle {s : BookRun τ} (hidle : s.pc = .idle) (h : s.trading eps = false) :
    s.settle eps = s := by
  have hnone : (matchAsks eps s.book.asks s.book.bids s.book.marketPrice).trades = [] := by
    simpa [BookRun.trading, OrderBook.trades] using h
  obtain ⟨⟨book, pc⟩, added, committed⟩ := s
  cases hidle
  simp only [BookRun.settle, BookRun.call, OrderBook.matchOrders, OrderBook.trades,
    matchAsks_no_trades hnone, List.append_nil]

/-- Cuttings of one stream whose trading calls come at the same points. -/
theorem matchBatches_congr {batches batches' : List (List (BookOrder τ))}
    (hstream : batches.flatten = batches'.flatten)
    (hpoints : tradingPoints eps batches = tradingPoints eps batches') :
    matchBatches eps batches = matchBatches eps batches' :=
  Lib.runBatches_congr (P := fun s => s.pc = .idle) (fun _ _ _ => rfl) (fun _ _ => rfl)
    (fun _ => settle_idle) 0 rfl hstream hpoints

/-! ## Matching that can be put off -/

/-- A turn and the one in which the same ask goes on with further bids. -/
def AskTurn.continued (turn next : AskTurn τ) : AskTurn τ :=
  ⟨next.askOrder, next.bids, next.marketPrice, turn.isMatchAsk || next.isMatchAsk,
    turn.trades ++ next.trades⟩

/-- With bids added behind those of a turn, the turn is the same when it used up
the ask; otherwise it used up the bids and goes on with the new ones. -/
theorem matchAsk_append (heps : 0 < eps) {bids : List (BookOrder τ)} {a : BookOrder τ} {mp : ℚ}
    (hel : ∀ b ∈ bids, eligible eps a b = true) (more : List (BookOrder τ)) :
    (equal eps (matchAsk eps a mp bids).askOrder.quantity 0 = true ∧
      matchAsk eps a mp (bids ++ more) =
        { matchAsk eps a mp bids with bids := (matchAsk eps a mp bids).bids ++ more }) ∨
    (equal eps (matchAsk eps a mp bids).askOrder.quantity 0 = false ∧
      (matchAsk eps a mp bids).bids = [] ∧
      matchAsk eps a mp (bids ++ more) = (matchAsk eps a mp bids).continued
        (matchAsk eps (matchAsk eps a mp bids).askOrder (matchAsk eps a mp bids).marketPrice
          more)) := by
  induction bids generalizing a mp with
  | nil =>
    cases hq : equal eps a.quantity 0 with
    | false => exact .inr ⟨hq, rfl, rfl⟩
    | true =>
      refine .inl ⟨hq, ?_⟩
      cases more with
      | nil => rfl
      | cons b more => exact matchAsk_stop (.inl hq)
  | cons b bids ih =>
    have hb := hel b List.mem_cons_self
    by_cases hstop : equal eps a.quantity 0 = true ∨ eligible eps a b = false
    · rw [List.cons_append, matchAsk_stop hstop, matchAsk_stop hstop]
      exact .inl ⟨by simpa [hb] using hstop, rfl⟩
    rw [List.cons_append, matchAsk_eligible mp bids hstop, matchAsk_eligible mp (bids ++ more) hstop]
    dsimp only
    cases hres : equal eps (b.fill (min a.quantity b.quantity)).quantity 0 with
    | true =>
      have hrest := @ih (a.fill (min a.quantity b.quantity)) (executionPrice mp a b)
        fun c hc => hel c (List.mem_cons_of_mem b hc)
      rcases hrest with ⟨hdone, heq⟩ | ⟨hleft, hnone, heq⟩
      · exact .inl ⟨hdone, by rw [heq]; rfl⟩
      · exact .inr ⟨hleft, hnone, by rw [heq]; rfl⟩
    | false =>
      have hzero := kept_bid_exhausts heps hres
      rw [matchAsk_exhausted heps hzero, matchAsk_exhausted heps hzero]
      exact .inl ⟨by rw [hzero]; exact equal_self heps 0, rfl⟩

/-- Every ask may trade with every bid. -/
def AllEligible (eps : ℚ) (asks bids : List (BookOrder τ)) : Prop :=
  ∀ a ∈ asks, ∀ b ∈ bids, eligible eps a b = true

theorem eligible_key {a b c : BookOrder τ} (h : b.key = c.key) :
    eligible eps a b = eligible eps a c := by
  rw [eq_of_key h]
  rfl

/-- An ask that may trade with the bids before a turn may with those after it. -/
theorem turn_eligible (heps : 0 < eps) (a : BookOrder τ) (mp : ℚ) {asks bids : List (BookOrder τ)}
    (h : AllEligible eps asks bids) : AllEligible eps asks (matchAsk eps a mp bids).bids := by
  intro a' ha' b hb
  obtain ⟨c, hc, heq⟩ := (matchAsk_fromFront heps bids a mp).suffix.mem hb
  rcases heq with rfl | hkey
  · exact h a' ha' c hc
  · rw [← eligible_key (show c.key = b.key from hkey)]
    exact h a' ha' c hc

/-- The ask of a turn that goes on is erased exactly when the turn that follows
erases it. -/
theorem continued_asks (a : BookOrder τ) (mp : ℚ) (bids : List (BookOrder τ)) {turn : AskTurn τ}
    (ha : equal eps a.quantity 0 = false) :
    (turn.continued (matchAsk eps a mp bids)).asks eps = (matchAsk eps a mp bids).asks eps := by
  rcases @matchAsk_matched τ eps a mp bids with ⟨hm, heq⟩ | ⟨hm, -⟩
  · simp [AskTurn.asks, AskTurn.continued, heq, ha]
  · simp [AskTurn.asks, AskTurn.continued, hm]

/-- Orders added behind those of both queues before the asks are visited, or
after. -/
theorem matchAsks_append (heps : 0 < eps) {asks bids : List (BookOrder τ)} (mp : ℚ)
    (hopen : AllOpen eps asks) (more : List (BookOrder τ)) (hel : AllEligible eps asks bids)
    (moreBids : List (BookOrder τ)) :
    let m := matchAsks eps asks bids mp
    let next := matchAsks eps (m.asks ++ more) (m.bids ++ moreBids) m.marketPrice
    matchAsks eps (asks ++ more) (bids ++ moreBids) mp =
      ⟨next.asks, next.bids, next.marketPrice, m.trades ++ next.trades⟩ := by
  induction asks generalizing bids mp with
  | nil => rfl
  | cons a asks ih =>
    have ha : equal eps a.quantity 0 = false := open_of_le heps (hopen a List.mem_cons_self)
    dsimp only
    rw [List.cons_append, matchAsks_cons a (asks ++ more), matchAsks_cons a asks]
    have hbids := hel a List.mem_cons_self
    rcases @matchAsk_append τ eps heps bids a mp hbids moreBids with
      ⟨hdone, happ⟩ | ⟨hleft, hnone, happ⟩
    · -- the ask is used up, so it traded and is erased
      have hmatched : (matchAsk eps a mp bids).isMatchAsk = true := by
        rcases @matchAsk_matched τ eps a mp bids with ⟨-, heq⟩ | ⟨hm, -⟩
        · rw [heq, ha] at hdone
          cases hdone
        · exact hm
      have hrest := ih (matchAsk eps a mp bids).marketPrice
        (fun o ho => hopen o (List.mem_cons_of_mem a ho))
        (turn_eligible heps a mp fun a' ha' => hel a' (List.mem_cons_of_mem a ha'))
      rw [happ]
      dsimp only at hrest ⊢
      rw [hrest]
      simp [AskTurn.asks, hmatched, hdone]
    · -- the bids are used up, and the ask waits for more
      have hasks : (matchAsk eps a mp bids).asks eps = [(matchAsk eps a mp bids).askOrder] := by
        simp [AskTurn.asks, hleft]
      rw [happ, hnone, matchAsks_no_bids, hasks]
      dsimp only
      rw [List.singleton_append, List.nil_append, List.append_nil, List.cons_append,
        matchAsks_cons _ (asks ++ more), continued_asks _ _ _ hleft]
      simp [AskTurn.continued]

/-! ## Streams that arrive in order of priority -/

/-- The orders of a batch that go to one side. -/
def ofSide (side : Side) (orders : List (BookOrder τ)) : List (BookOrder τ) :=
  orders.filter fun o => o.type = side.type

/-- No order outranks one that arrived on its side before. -/
def ArrivesRanked (eps : ℚ) (stream : List (BookOrder τ)) : Prop :=
  stream.Pairwise fun earlier later =>
    earlier.type = later.type → higherPriority eps later earlier = false

/-- The run with the orders of a batch behind those of both queues. -/
def BookRun.enqueue (s : BookRun τ) (batch : List (BookOrder τ)) : BookRun τ where
  loop := ⟨{ s.book with
    asks := s.book.asks ++ ofSide .ask batch
    bids := s.book.bids ++ ofSide .bid batch
    totalAsksSize := s.book.totalAsksSize + (ofSide .ask batch).length
    totalBidsSize := s.book.totalBidsSize + (ofSide .bid batch).length }, .idle⟩
  added := s.added ++ batch
  committed := s.committed

theorem enqueue_queue (s : BookRun τ) (batch : List (BookOrder τ)) (side : Side) :
    (s.enqueue batch).book.queue side = s.book.queue side ++ ofSide side batch := by
  cases side <;> rfl

theorem enqueue_cons (s : BookRun τ) (o : BookOrder τ) (batch : List (BookOrder τ)) :
    (s.enqueue [o]).enqueue batch = s.enqueue (o :: batch) := by
  have hcons : ∀ side, ofSide side (o :: batch) = ofSide side [o] ++ ofSide side batch := by
    intro side
    rw [ofSide, ← List.singleton_append, List.filter_append]
    rfl
  simp only [BookRun.enqueue, BookRun.book, hcons, List.length_append, List.append_assoc,
    Nat.add_assoc, List.singleton_append]

theorem insertionPoint_end {o : BookOrder τ} {orders : List (BookOrder τ)}
    (h : ∀ e ∈ orders, higherPriority eps o e = false) :
    insertionPoint eps o orders = orders.length := by
  by_contra hne
  have hlt : insertionPoint eps o orders < orders.length :=
    lt_of_le_of_ne (insertionPoint_le eps o orders) hne
  have hat := insertionPoint_at hlt
  rw [h _ (List.getElem_mem hlt)] at hat
  cases hat

/-- No order of the batch outranks an order of its queue. -/
def Behind (eps : ℚ) (book : OrderBook τ) (batch : List (BookOrder τ)) : Prop :=
  ∀ side, ∀ e ∈ book.queue side, ∀ o ∈ ofSide side batch, higherPriority eps o e = false

theorem add_behind {s : BookRun τ} (hidle : s.pc = .idle) {o : BookOrder τ}
    (h : Behind eps s.book [o]) : s.add eps o = s.enqueue [o] := by
  obtain ⟨⟨book, pc⟩, added, committed⟩ := s
  cases hidle
  have hqueue : ∀ side, (book.addOrder eps o).queue side = book.queue side ++ ofSide side [o] := by
    intro side
    rw [queue_addOrder_eq, ofSide]
    split
    · rename_i hty
      rw [insertionPoint_end fun e he => h side e he o (by simp [ofSide, hty])]
      simp [hty]
    · rename_i hty
      simp [hty]
  have hasks := hqueue .ask
  have hbids := hqueue .bid
  simp only [BookRun.add, BookRun.call, BookRun.enqueue, BookRun.book]
  cases hty : o.type <;>
    simp_all [OrderBook.addOrder, OrderBook.addAskOrder, OrderBook.addBidOrder, OrderBook.queue,
      ofSide, Side.type]

theorem mem_ofSide {side : Side} {orders : List (BookOrder τ)} {o : BookOrder τ} :
    o ∈ ofSide side orders ↔ o ∈ orders ∧ o.type = side.type := by
  simp [ofSide]

/-- A batch that arrives in order of priority, behind what is in the queues,
goes to their ends. -/
theorem foldl_add_behind {batch : List (BookOrder τ)} {s : BookRun τ} (hidle : s.pc = .idle)
    (hranked : ArrivesRanked eps batch) (h : Behind eps s.book batch) :
    batch.foldl (BookRun.add eps) s = s.enqueue batch := by
  induction batch generalizing s with
  | nil =>
    obtain ⟨⟨book, pc⟩, added, committed⟩ := s
    cases hidle
    simp [BookRun.enqueue, ofSide]
  | cons o batch ih =>
    obtain ⟨hfirst, hrest⟩ := List.pairwise_cons.mp hranked
    have hone : Behind eps s.book [o] := by
      intro side e he p hp
      obtain ⟨hp, hty⟩ := mem_ofSide.mp hp
      obtain rfl := List.mem_singleton.mp hp
      exact h side e he p (mem_ofSide.mpr ⟨List.mem_cons_self, hty⟩)
    rw [List.foldl_cons, add_behind hidle hone, ih rfl hrest, enqueue_cons]
    intro side e he p hp
    obtain ⟨hp, hty⟩ := mem_ofSide.mp hp
    rw [enqueue_queue, List.mem_append] at he
    rcases he with he | he
    · exact h side e he p (mem_ofSide.mpr ⟨List.mem_cons_of_mem o hp, hty⟩)
    · obtain ⟨he, heo⟩ := mem_ofSide.mp he
      obtain rfl := List.mem_singleton.mp he
      exact hfirst p hp (heo.trans hty.symm)

theorem higherPriority_key {o e e' : BookOrder τ} (h : e.key = e'.key) :
    higherPriority eps o e = higherPriority eps o e' := by
  rw [eq_of_key h]
  rfl

/-- A stream whose orders have open quantities, reach each queue in the order of
its priority, and may trade with every order of the other side. -/
structure Uniform (eps : ℚ) (stream : List (BookOrder τ)) : Prop where
  quantities : AllOpen eps stream
  ranked : ArrivesRanked eps stream
  eligible : AllEligible eps (ofSide .ask stream) (ofSide .bid stream)

theorem ofSide_append (side : Side) (l r : List (BookOrder τ)) :
    ofSide side (l ++ r) = ofSide side l ++ ofSide side r := List.filter_append l r

/-- Matching part of a uniform stream before the rest of it arrives, or not, comes
to the same. -/
theorem settle_defer (heps : 0 < eps) {before batch : List (BookOrder τ)}
    (h : Uniform eps (before ++ batch)) :
    (batch.foldl (BookRun.add eps) ((before.foldl (BookRun.add eps) {}).settle eps)).settle eps =
      ((before ++ batch).foldl (BookRun.add eps) {}).settle eps := by
  obtain ⟨hopen, hranked, hel⟩ := h
  obtain ⟨hbefore, hbatch, hacross⟩ := List.pairwise_append.mp hranked
  have hempty : ∀ orders, Behind eps ({} : BookRun τ).book orders := by
    intro orders side e he
    cases side <;> cases he
  rw [foldl_add_behind rfl hbefore (hempty _), foldl_add_behind rfl hranked (hempty _),
    foldl_add_behind rfl hbatch]
  · -- both sides of each queue are now explicit
    rw [ofSide_append, ofSide_append] at hel
    have happend := matchAsks_append heps 0
      (fun o ho => hopen o (List.mem_append_left _ (mem_ofSide.mp ho).1)) (ofSide .ask batch)
      (fun a ha b hb => hel a (List.mem_append_left _ ha) b (List.mem_append_left _ hb))
      (ofSide .bid batch)
    dsimp only at happend
    simp only [BookRun.settle, BookRun.call, BookRun.enqueue, BookRun.book, OrderBook.matchOrders,
      OrderBook.trades, ofSide_append, List.nil_append, happend, List.length_append, Nat.zero_add]
  · -- what is left of the first part has the fields the comparator reads
    intro side e he o ho
    have hkeys := (@loop_runs τ eps (({} : BookRun τ).enqueue before).book).keys_sublist side
    obtain ⟨p, hp, hkey⟩ := List.mem_map.mp (hkeys.subset (List.mem_map.mpr ⟨e, he, rfl⟩))
    have hold : p ∈ ofSide side before := by cases side <;> exact hp
    obtain ⟨hpb, hpty⟩ := mem_ofSide.mp hold
    obtain ⟨hob, hoty⟩ := mem_ofSide.mp ho
    rw [← higherPriority_key hkey]
    exact hacross p hpb o hob (hpty.trans hoty.symm)

theorem Uniform.sublist {stream part : List (BookOrder τ)} (h : Uniform eps stream)
    (hp : part.Sublist stream) : Uniform eps part :=
  ⟨fun o ho => h.quantities o (hp.subset ho), h.ranked.sublist hp,
    fun a ha b hb => h.eligible a ((hp.filter _).subset ha) b ((hp.filter _).subset hb)⟩

/-- A limit ask and two bids it may trade with, the second of which outranks the
first. -/
def rivalBids : List (BookOrder Nat) :=
  [tklam 1 .ask .limit 1 10, tklam 2 .bid .limit 1 10, tklam 3 .bid .market 1 10]

end TradingMarket
