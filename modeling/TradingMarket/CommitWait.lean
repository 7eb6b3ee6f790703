import TradingMarket.CommandRun
import TradingMarket.TradedRing

/-! # When a commit waits for ever

The law of the traded-order ring over whole runs (`commits_wait_iff`), and the
run that breaks it: the service takes one order after the other as the
sequential book would (`serves`), so as many pairs of matching orders as the
ring has slots use the ring up, and one more pair leaves `match()` waiting. -/
namespace TradingMarket

open Lib (Machine)

variable {nt : NumberText ℚ} {eps : ℚ} {blank : Order ℚ} {blankTrade : TradedOrder Unit}

/-- In a run, no state waits for ever in a commit exactly when every commit is
begun while fewer trades have been committed than the ring has slots. In such a
run `match()` gets on by the steps of its own thread alone: it returns, unless it
comes to a commit that finds the ring used up. -/
theorem commits_wait_iff {es : List ServiceEvent} {s : Service}
    (h : (serviceMachine nt eps blank blankTrade).exec
      (serviceMachine nt eps blank blankTrade).start es = some s) :
    ((∀ fs gs u, es = fs ++ gs → (serviceMachine nt eps blank blankTrade).exec
        (serviceMachine nt eps blank blankTrade).start fs = some u →
          ¬ WaitsForever nt eps blank blankTrade u) ↔
      (serviceMachine nt eps blank blankTrade).Along RoomAtClaim
        (serviceMachine nt eps blank blankTrade).start es) ∧
    ((serviceMachine nt eps blank blankTrade).Along RoomAtClaim
        (serviceMachine nt eps blank blankTrade).start es →
      s.alive = true → s.InMatch →
        ∃ v, (serviceMachine nt eps blank blankTrade).Repeats .matchingStep s v ∧
          (v.matching = .waitBatch ∨
            ∃ t, v.matching = .committing t .claim ∧ ringSize ≤ v.run.committed.length)) := by
  refine ⟨⟨fun hnever => ?_, fun hroom fs gs u hsplit hu => ?_⟩, fun hroom halive hin => ?_⟩
  · -- a claim without room would be followed by a state that waits for ever
    refine Machine.along_iff.mpr fun fs e gs u hsplit hu => ?_
    intro he t hpc
    subst he
    by_contra hfull
    rw [hsplit, List.append_cons, Machine.exec_append, Machine.exec_concat, hu] at h
    obtain ⟨v, hstep, -⟩ := Option.bind_eq_some_iff.mp h
    obtain ⟨halive, -⟩ := serviceStep_cases hstep
    obtain ⟨v', hstep', hwaits⟩ := @waitsForever_of_claim nt eps blank blankTrade u
      (service_wired ⟨fs, hu⟩) halive t hpc (Nat.le_of_not_lt hfull)
    refine hnever (fs ++ [.matchingStep]) gs v' (by rw [hsplit, List.append_cons]) ?_ hwaits
    rw [Machine.exec_concat, hu]
    exact hstep'
  · rw [hsplit, Machine.along_append hu] at hroom
    exact not_waitsForever (service_wired ⟨fs, hu⟩) (room_of_along hu hroom.1)
  · exact match_ends (service_run ⟨es, h⟩) (service_wired ⟨es, h⟩) halive hin (room_of_along h hroom)

def askCommand : Text := "ORDER 1 ASK MARKET TKLAM 1 10".toList

def bidCommand : Text := "ORDER 2 BID MARKET TKLAM 1 10".toList

/-- The trades of an empty ring. -/
def emptyTrade : TradedOrder Unit := ⟨⟨emptyOrder, ()⟩, ⟨emptyOrder, ()⟩, 0, 0⟩

/-- A market ask and a market bid that arrive together and trade. -/
def onePair : List ServiceEvent :=
  .receive askCommand :: List.replicate 4 .requestStep ++
    .receive bidCommand :: List.replicate 4 .requestStep ++ List.replicate 13 .matchingStep

theorem one_pair_never_waits :
    ∃ s, (serviceMachine rationalText epsilon emptyOrder emptyTrade).exec
      (serviceMachine rationalText epsilon emptyOrder emptyTrade).start onePair = some s ∧
      s.run.committed.length = 1 ∧ ¬ WaitsForever rationalText epsilon emptyOrder emptyTrade s := by
  have hone : ((serviceMachine rationalText epsilon emptyOrder emptyTrade).exec
      (serviceMachine rationalText epsilon emptyOrder emptyTrade).start onePair).map
        (·.run.committed.length) = some 1 := by
    decide +kernel
  obtain ⟨s, hs, hlen⟩ := Option.map_eq_some_iff.mp hone
  have hfew : s.run.committed.length < ringSize := by
    rw [hlen]
    exact Nat.one_lt_two_pow (by decide)
  have hnever := (commits_wait_iff hs).1.mpr (room_of_few_trades hs hfew)
  exact ⟨s, hs, hlen, hnever onePair [] s (List.append_nil _).symm hs⟩

/-! ## One order at a time -/

/-- Both threads wait for input, and the order ring is empty. -/
structure Service.AtRest (s : Service) : Prop where
  alive : s.alive = true
  request : s.request = .receiving
  matching : s.matching = .waitBatch
  cursor : s.orders.cursor = s.ordersGet
  putCursor : s.orders.putCursor = s.ordersGet
  lap : ringSize ≤ s.ordersGet

/-- The requests of a schedule. -/
def requests (es : List ServiceEvent) : List Text :=
  es.filterMap fun
    | .receive request => some request
    | _ => none

theorem requests_append (es fs : List ServiceEvent) :
    requests (es ++ fs) = requests es ++ requests fs := List.filterMap_append

/-- A batch of one order: the order is added and `match()` called. -/
def BookRun.serve (eps : ℚ) (run : BookRun Unit) (o : Order ℚ) : BookRun Unit :=
  (run.call eps (.addOrder ⟨o, ()⟩)).call eps .callMatch

/-- The service after the request thread has put `o` on the order ring. -/
def Service.putOrder (o : Order ℚ) (s : Service) : Service :=
  { s with
    orderTemplate := o
    orders := { s.orders.write ringSize s.ordersGet o with
      cursor := s.ordersGet + 1, putCursor := s.ordersGet + 1 } }

/-- The request thread parses a command and puts the order on the order ring. -/
theorem request_puts {s : Service} (h : s.AtRest) {str : Text} {o : Order ℚ}
    (hparse : (fromCmdStr nt str).run s.orderTemplate = .ok () o) :
    (serviceMachine nt eps blank blankTrade).exec s
        [.receive str, .requestStep, .requestStep, .requestStep, .requestStep] =
      some (s.putOrder o) := by
  obtain ⟨alive, run, template, ⟨ring, cursor, putCursor⟩, get, traded, pub, mpc, rpc⟩ := s
  obtain ⟨halive, hrequest, -, hcursor, hput, hlap⟩ := h
  dsimp only at halive hrequest hcursor hput hlap hparse
  subst halive hrequest hcursor hput
  have hroom : ¬ putCursor ≤ putCursor - ringSize := by
    have := ringSize_pos
    omega
  simp [serviceMachine, serviceStep, Service.receive, Service.requestStep, hparse,
    L3.Disruptor.putStep, L3.Disruptor.write, hroom, Service.putOrder]

/-- The matching thread takes the one order on the ring, adds it and calls `match()`. -/
theorem matching_takes {s : Service} {o : Order ℚ} (halive : s.alive = true)
    (hpc : s.matching = .waitBatch) (hidle : s.run.pc = .idle)
    (hcursor : s.orders.cursor = s.ordersGet + 1)
    (hread : s.orders.read ringSize s.ordersGet = o) :
    (serviceMachine nt eps blank blankTrade).Repeats .matchingStep s { s with
      run := { s.run.call eps (.addOrder ⟨o, ()⟩) with
        loop := ⟨(s.run.call eps (.addOrder ⟨o, ()⟩)).book, .outer 0⟩ }
      ordersGet := s.ordersGet + 1
      matching := .matching } := by
  obtain ⟨alive, ⟨⟨book, pc⟩, added, committed⟩, template, ⟨ring, cursor, putCursor⟩, get, traded,
    pub, mpc, rpc⟩ := s
  dsimp only at halive hpc hcursor hread
  subst halive hpc hcursor hread
  change pc = .idle at hidle
  subst hidle
  refine ⟨3, ?_⟩
  simp [serviceMachine, serviceStep, Service.matchingStep, L3.claimBatch, bookStep, BookRun.call,
    List.replicate]

/-- From rest the service takes a command through the book as a sequential program
would: back to rest, unless `match()` comes to a commit with the ring used up. -/
theorem serves {s : Service} (hrest : s.AtRest) (hw : s.Wired eps) {str : Text} {o : Order ℚ}
    (hparse : ofTokens nt (tokens str) = some o) :
    ∃ es v, (serviceMachine nt eps blank blankTrade).exec s es = some v ∧ requests es = [str] ∧
      ((v.AtRest ∧ v.run = s.run.serve eps o) ∨
        (v.alive = true ∧ ∃ t, v.matching = .committing t .claim ∧
          ringSize ≤ v.run.committed.length ∧
            v.run.committed.length < (s.run.serve eps o).committed.length)) := by
  have hidle : s.run.pc = .idle := by
    have hplace := hw.place
    unfold Service.LoopPlace at hplace
    rwa [hrest.matching] at hplace
  have hput := @request_puts nt eps blank blankTrade s hrest str o (fromCmdStr_ok.mpr hparse)
  obtain ⟨m, htake⟩ := @matching_takes nt eps blank blankTrade (s.putOrder o) o hrest.alive
    hrest.matching hidle rfl (L3.read_write ringSize s.orders s.ordersGet o)
  have hbegun := Machine.exec_trans _ hput htake
  obtain ⟨n, hreturn⟩ := exec_of_loopRuns (@loop_runs Unit eps (s.run.book.addOrder eps ⟨o, ()⟩))
    (s.run.added ++ [⟨o, ()⟩]) s.run.committed
  obtain ⟨v, ⟨k, hticks⟩, hsame, hend⟩ := @match_returns nt eps blank blankTrade n _ _
    (hw.reaches ⟨_, hbegun⟩) hrest.alive rfl hreturn rfl
  refine ⟨_, v, Machine.exec_trans _ hbegun hticks, ?_, ?_⟩
  · simp [requests]
  rcases hend with ⟨hback, hrun⟩ | ⟨t, hclaim, hfull, hlen⟩
  · refine .inl ⟨⟨hsame.alive.trans hrest.alive, hsame.request.trans hrest.request, hback, ?_, ?_,
      ?_⟩, hrun⟩
    · rw [hsame.orders, hsame.ordersGet]
      rfl
    · rw [hsame.orders, hsame.ordersGet]
      rfl
    · rw [hsame.ordersGet]
      exact Nat.le_succ_of_le hrest.lap
  · exact .inr ⟨hsame.alive.trans hrest.alive, t, hclaim, hfull, hlen⟩

/-! ## The ring used up -/

def marketAsk : Order ℚ := ⟨1, .ask, .market, "TKLAM".toList, 1, 10⟩

def marketBid : Order ℚ := ⟨2, .bid, .market, "TKLAM".toList, 1, 10⟩

/-- The commands of `k` pairs of a market ask and a market bid of one unit each. -/
def pairCommands (k : Nat) : List Text :=
  (List.replicate k [askCommand, bidCommand]).flatten

theorem pairCommands_succ (k : Nat) :
    pairCommands (k + 1) = pairCommands k ++ [askCommand, bidCommand] := by
  simp [pairCommands, List.replicate_succ']

/-- At rest after `k` trades, with these asks and no bid on the book. -/
structure Service.Quiet (asks : List (BookOrder Unit)) (k : Nat) (s : Service) : Prop where
  rest : s.AtRest
  wired : s.Wired epsilon
  asks : s.run.book.asks = asks
  bids : s.run.book.bids = []
  trades : s.run.committed.length = k

theorem marketAsk_rests {run : BookRun Unit} (hasks : run.book.asks = [])
    (hbids : run.book.bids = []) :
    (run.serve epsilon marketAsk).book.asks = [⟨marketAsk, ()⟩] ∧
      (run.serve epsilon marketAsk).book.bids = [] ∧
      (run.serve epsilon marketAsk).committed.length = run.committed.length := by
  obtain ⟨⟨⟨mp, asks, bids, ta, tb⟩, pc⟩, added, committed⟩ := run
  dsimp only at hasks hbids
  subst hasks hbids
  simp [BookRun.serve, BookRun.call, OrderBook.addOrder, marketAsk, OrderBook.addAskOrder, addOrder_R,
    OrderBook.matchOrders, OrderBook.trades, matchAsks, matchAsk, AskTurn.asks]

theorem marketBid_trades {run : BookRun Unit} (hasks : run.book.asks = [⟨marketAsk, ()⟩])
    (hbids : run.book.bids = []) :
    (run.serve epsilon marketBid).book.asks = [] ∧
      (run.serve epsilon marketBid).book.bids = [] ∧
      (run.serve epsilon marketBid).committed.length = run.committed.length + 1 := by
  obtain ⟨⟨⟨mp, asks, bids, ta, tb⟩, pc⟩, added, committed⟩ := run
  dsimp only at hasks hbids
  subst hasks hbids
  have hfull : equal epsilon 1 0 = false := by decide +kernel
  have hused : equal epsilon 0 0 = true := by decide +kernel
  simp [BookRun.serve, BookRun.call, OrderBook.addOrder, marketAsk, marketBid, OrderBook.addBidOrder, addOrder_R,
    OrderBook.matchOrders, OrderBook.trades, matchAsks, matchAsk, AskTurn.asks, tradeOf,
    BookOrder.fill, hfull, hused]

/-- A quiet service takes an order back to quiet, with the trades the book makes,
or comes to a commit with the ring used up. -/
theorem Service.Quiet.serves {s : Service} {asks asks' : List (BookOrder Unit)} {k k' : Nat}
    (hs : s.Quiet asks k) {str : Text} {o : Order ℚ}
    (hparse : ofTokens rationalText (tokens str) = some o)
    (hasks : (s.run.serve epsilon o).book.asks = asks')
    (hbids : (s.run.serve epsilon o).book.bids = [])
    (htrades : (s.run.serve epsilon o).committed.length = k') :
    ∃ es v, (serviceMachine rationalText epsilon emptyOrder emptyTrade).exec s es = some v ∧
      requests es = [str] ∧
      (v.Quiet asks' k' ∨ (v.Wired epsilon ∧ v.alive = true ∧
        ∃ t, v.matching = .committing t .claim ∧ ringSize ≤ v.run.committed.length ∧
          v.run.committed.length < k')) := by
  obtain ⟨es, v, hexec, hreq, hend⟩ :=
    @TradingMarket.serves _ epsilon emptyOrder emptyTrade s hs.rest hs.wired str o hparse
  have hw : v.Wired epsilon := hs.wired.reaches ⟨es, hexec⟩
  refine ⟨es, v, hexec, hreq, ?_⟩
  rcases hend with ⟨hrest, hrun⟩ | ⟨halive, t, hclaim, hfull, hlen⟩
  · rw [← hrun] at hasks hbids htrades
    exact .inl ⟨hrest, hw, hasks, hbids, htrades⟩
  · exact .inr ⟨hw, halive, t, hclaim, hfull, htrades ▸ hlen⟩

theorem quiet_start : (Service.start emptyOrder emptyTrade).Quiet [] 0 :=
  ⟨⟨rfl, rfl, rfl, rfl, rfl, le_rfl⟩, wired_start, rfl, rfl, rfl⟩

theorem ask_served {s : Service} {k : Nat} (hs : s.Quiet [] k) :
    ∃ es v, (serviceMachine rationalText epsilon emptyOrder emptyTrade).exec s es = some v ∧
      requests es = [askCommand] ∧ v.Quiet [⟨marketAsk, ()⟩] k := by
  obtain ⟨hasks, hbids, htrades⟩ := marketAsk_rests hs.asks hs.bids
  have hparse : ofTokens rationalText (tokens askCommand) = some marketAsk := by decide +kernel
  obtain ⟨es, v, hexec, hreq, hend⟩ :=
    hs.serves hparse hasks hbids (htrades.trans hs.trades)
  refine ⟨es, v, hexec, hreq, ?_⟩
  rcases hend with hq | ⟨-, -, t, -, hfull, hlen⟩
  · exact hq
  · -- no trade is added, so the ring is not found used up
    have hfits := hs.wired.fits
    rw [hs.trades] at hfits
    omega

theorem bid_served {s : Service} {k : Nat} (hs : s.Quiet [⟨marketAsk, ()⟩] k) :
    ∃ es v, (serviceMachine rationalText epsilon emptyOrder emptyTrade).exec s es = some v ∧
      requests es = [bidCommand] ∧
      ((k < ringSize ∧ v.Quiet [] (k + 1)) ∨
        (k = ringSize ∧ ∃ u, (serviceMachine rationalText epsilon emptyOrder emptyTrade).step v
          .matchingStep = some u ∧ WaitsForever rationalText epsilon emptyOrder emptyTrade u)) := by
  obtain ⟨hasks, hbids, htrades⟩ := marketBid_trades hs.asks hs.bids
  have hparse : ofTokens rationalText (tokens bidCommand) = some marketBid := by decide +kernel
  rw [hs.trades] at htrades
  obtain ⟨es, v, hexec, hreq, hend⟩ := hs.serves hparse hasks hbids htrades
  refine ⟨es, v, hexec, hreq, ?_⟩
  rcases hend with hq | ⟨hw, halive, t, hclaim, hfull, hlen⟩
  · have hfits := hq.wired.fits
    rw [hq.trades] at hfits
    exact .inl ⟨hfits, hq⟩
  · have hfits := hs.wired.fits
    rw [hs.trades] at hfits
    exact .inr ⟨by omega, waitsForever_of_claim hw halive hclaim hfull⟩

theorem pairs_served {k : Nat} (hk : k ≤ ringSize) :
    ∃ es v, (serviceMachine rationalText epsilon emptyOrder emptyTrade).exec
      (serviceMachine rationalText epsilon emptyOrder emptyTrade).start es = some v ∧
      requests es = pairCommands k ∧ v.Quiet [] k := by
  induction k with
  | zero => exact ⟨[], _, rfl, rfl, quiet_start⟩
  | succ k ih =>
    obtain ⟨es, s, hes, hreq, hs⟩ := ih (Nat.le_of_succ_le hk)
    obtain ⟨fs, u, hfs, hask, hu⟩ := ask_served hs
    obtain ⟨gs, v, hgs, hbid, hend⟩ := bid_served hu
    refine ⟨_, v, Machine.exec_trans _ hes (Machine.exec_trans _ hfs hgs), ?_, ?_⟩
    · rw [requests_append, requests_append, hreq, hask, hbid, pairCommands_succ]
      rfl
    · rcases hend with ⟨-, hv⟩ | ⟨hfull, -⟩
      · exact hv
      · omega

/-- One pair of matching orders more than the ring has slots, each delivered after
the one before is served, leaves `match()` waiting for ever in its last commit. -/
theorem ring_used_up :
    ∃ es s, (serviceMachine rationalText epsilon emptyOrder emptyTrade).exec
      (serviceMachine rationalText epsilon emptyOrder emptyTrade).start es = some s ∧
      requests es = pairCommands (ringSize + 1) ∧
      WaitsForever rationalText epsilon emptyOrder emptyTrade s := by
  obtain ⟨es, s, hes, hreq, hs⟩ := pairs_served le_rfl
  obtain ⟨fs, u, hfs, hask, hu⟩ := ask_served hs
  obtain ⟨gs, v, hgs, hbid, ⟨hlt, -⟩ | ⟨-, w, hstep, hw⟩⟩ := bid_served hu
  · exact absurd hlt (lt_irrefl _)
  have hlast : (serviceMachine rationalText epsilon emptyOrder emptyTrade).exec v
      [.matchingStep] = some w := by
    rw [Machine.exec_cons, hstep]
    rfl
  refine ⟨_, w, Machine.exec_trans _ hes (Machine.exec_trans _ hfs (Machine.exec_trans _ hgs hlast)),
    ?_, hw⟩
  rw [requests_append, requests_append, requests_append, hreq, hask, hbid, pairCommands_succ]
  rfl

end TradingMarket
