import TradingMarket.L3.Index
import TradingMarket.L3.Simulation
import TradingMarket.OrderDelivery
import TradingMarket.Serving

/-! # The rings of the programs

The programs' rings are networks with one thread that puts: every run of the order
ring server is a run of its ring with `JOURNAL_ORDER_GET` and `ROUTE_ORDER_GET`
(`server_ring`), and every run of the service is one of its order ring
(`service_orderRing`) and one of its traded-order ring (`service_tradedRing`). So no
slot of theirs is ever read while it is written, and they never come to an index that
wraps. -/
namespace TradingMarket

open Lib (Machine)
open L3 (Get GetPc PutPc Wiring Network NetworkEvent networkMachine network64Machine)

/-! ## The order ring server -/

/-- The consumers of the order ring. -/
inductive OrderGet where
  | journal
  | route
deriving DecidableEq, Repr

def orderRingWiring (RING_SIZE : Nat) : Wiring Unit OrderGet :=
  .single (2 ^ RING_SIZE) (Nat.two_pow_pos _) (.get .route) fun
    | .journal => .ring
    | .route => .get .journal

section Server
variable {RING_SIZE : Nat} {blank : Order ℚ} {results : Stream' Nat} {s s' : OrderRingServer}
  {n : Network (Order ℚ) Unit OrderGet}

/-- The network is the order ring of the process. -/
structure OrderRingServer.Ring (RING_SIZE : Nat) (s : OrderRingServer)
    (n : Network (Order ℚ) Unit OrderGet) : Prop where
  ring : n.ring = s.orders
  puts : n.Puts (orderRingWiring RING_SIZE) () s.putting s.put
  journal : n.Gets .journal s.journalGet s.journaled
  route : n.Gets .route s.routeGet s.sent

theorem OrderRingServer.Ring.step (h : s.Ring RING_SIZE n) (hs : OrderRingStep RING_SIZE s s') :
    ∃ n', (networkMachine (orderRingWiring RING_SIZE) blank).ReachesBy NetworkEvent.Unlimited n n' ∧ s'.Ring RING_SIZE n' := by
  obtain ⟨hring, hputs, hjournal, hroute⟩ := h
  have hvalue : n.value (.get .journal) = s.journalGet.cursor := hjournal.cursor
  have hvalue' : n.value (.get .route) = s.routeGet.cursor := hroute.cursor
  cases hs with
  | generate hnone =>
    rw [hnone] at hputs
    obtain ⟨n', hn, hring', hputs', hgets⟩ := hputs.call blank (PutOrder.next.run s.putOrder).1
    exact ⟨n', hn, hring'.trans hring, hputs', hgets _ _ _ hjournal, hgets _ _ _ hroute⟩
  | put hputting hput =>
    rw [hputting] at hputs
    rw [← hring, ← hvalue'] at hput
    obtain ⟨n', hn, hring', hputs', hgets⟩ := hputs.step blank rfl rfl hput
    refine ⟨n', hn, hring', ?_, hgets _ _ _ hjournal, hgets _ _ _ hroute⟩
    simpa [L3.completed] using hputs'
  | commit hputting hput =>
    rw [hputting] at hputs
    rw [← hring, ← hvalue'] at hput
    obtain ⟨n', hn, hring', hputs', hgets⟩ := hputs.step blank rfl rfl hput
    exact ⟨n', hn, hring', hputs', hgets _ _ _ hjournal, hgets _ _ _ hroute⟩
  | journal hget =>
    rw [← hring] at hget
    obtain ⟨n', hn, hring', hjournal', hputs', hgets⟩ :=
      hjournal.step (w := orderRingWiring RING_SIZE) blank rfl hget
    exact ⟨n', hn, hring'.trans hring, hputs' _ _ _ hputs, hjournal', hgets _ (by simp) _ _ hroute⟩
  | route hget =>
    rw [← hring, ← hvalue] at hget
    obtain ⟨n', hn, hring', hroute', hputs', hgets⟩ :=
      hroute.step (w := orderRingWiring RING_SIZE) blank rfl hget
    exact ⟨n', hn, hring'.trans hring, hputs' _ _ _ hputs, hgets _ (by simp) _ _ hjournal, hroute'⟩

theorem server_ring (h : (orderRingMachine RING_SIZE blank results).Reachable s) :
    ∃ n, (networkMachine (orderRingWiring RING_SIZE) blank).ReachesBy NetworkEvent.Unlimited
      (.start (orderRingWiring RING_SIZE) blank) n ∧ s.Ring RING_SIZE n := by
  refine h.simulated ?_ fun s e s' n _ hring he => hring.step (orderRingStep_cases he)
  exact ⟨rfl, L3.puts_start blank, L3.gets_start blank, L3.gets_start blank⟩

theorem orderRing_guarded (RING_SIZE : Nat) (c : OrderGet) : (orderRingWiring RING_SIZE).Guarded c := by
  have hroute : (orderRingWiring RING_SIZE).Guarded .route := .put (List.mem_singleton.mpr rfl)
  cases c with
  | journal => exact .behind hroute (List.mem_singleton.mpr rfl)
  | route => exact hroute

/-- The order ring of the process is a network, and neither `JournalOrder` nor
`RouteOrder` is about to read the slot `PutOrder` is about to write. -/
theorem server_no_race (h : (orderRingMachine RING_SIZE blank results).Reachable s) :
    (∃ n, (networkMachine (orderRingWiring RING_SIZE) blank).Reachable n ∧ s.Ring RING_SIZE n) ∧
      ∀ order slot, s.putting = some (order, .write slot) →
        ∀ get, get = s.journalGet ∨ get = s.routeGet → ∀ index last, get.pc = .batch index last →
          index ≠ last → slot % 2 ^ RING_SIZE ≠ index % 2 ^ RING_SIZE := by
  obtain ⟨n, hn, hring⟩ := server_ring h
  refine ⟨⟨n, hn.reaches, hring⟩, fun order slot hputting get hget index last hpc hne => ?_⟩
  have hputs := hring.puts
  rw [hputting] at hputs
  have hreads : ∃ c, n.Reads c index := by
    rcases hget with rfl | rfl
    · exact ⟨.journal, hring.journal.reads hpc hne⟩
    · exact ⟨.route, hring.route.reads hpc hne⟩
  obtain ⟨c, hread⟩ := hreads
  exact (L3.network_ok hn.reaches).reads_apart (orderRing_guarded RING_SIZE c) hputs.writes hread

/-- The third order is about to be written over the first while the second is routed. -/
theorem third_order_apart :
    ∃ s order, (orderRingMachine 1 emptyOrder (Stream'.const 0)).exec
        (orderRingMachine 1 emptyOrder (Stream'.const 0)).start (thirdOrder ++ [.routeStep]) = some s ∧
      s.putting = some (order, .write 4) ∧ s.routeGet.pc = .batch 3 4 ∧ 4 % 2 ^ 1 ≠ 3 % 2 ^ 1 := by
  have hrun : ((orderRingMachine 1 emptyOrder (Stream'.const 0)).exec
      (orderRingMachine 1 emptyOrder (Stream'.const 0)).start (thirdOrder ++ [.routeStep])).map
        (fun s => (s.putting.map Prod.snd, s.routeGet.pc)) = some (some (.write 4), .batch 3 4) := by
    rfl
  obtain ⟨s, hs, hat⟩ := Option.map_eq_some_iff.mp hrun
  obtain ⟨hputting, hpc⟩ := Prod.mk.inj hat
  obtain ⟨⟨order, pc⟩, hputting, rfl⟩ := Option.map_eq_some_iff.mp hputting
  obtain ⟨-, hapart⟩ := server_no_race ⟨thirdOrder ++ [.routeStep], hs⟩
  exact ⟨s, order, hs, hputting, hpc, hapart order 4 hputting s.routeGet (.inr rfl) 3 4 hpc (by decide)⟩

/-- The indices of the order ring never wrap: in every interleaving of the three threads it
is the ring with 64-bit indices. -/
theorem server_index (hsize : RING_SIZE < 32)
    (h : (orderRingMachine RING_SIZE blank results).Reachable s) :
    ∃ m, (network64Machine (orderRingWiring RING_SIZE) blank).Reachable m ∧
      s.Ring RING_SIZE m.toNat := by
  obtain ⟨n, hn, hring⟩ := server_ring h
  have hlast : n.ring.putCursor < 2 ^ 64 := by
    have hkeeps := (server_wired h).ring
    have hput := hkeeps.putCursor_le
    have hcursor := hkeeps.cursor
    have hlength := (put_generated h).length_le
    have hlap : 2 ^ RING_SIZE < 2 ^ 32 := Nat.pow_lt_pow_right Nat.one_lt_two hsize
    rw [length_put] at hlength
    unfold iterations at hlength
    rw [hring.ring]
    omega
  obtain ⟨m, hm, rfl⟩ := L3.network64_reaches rfl hsize hn hlast
  exact ⟨m, hm, hring⟩

theorem third_order_index :
    ∃ s m, (orderRingMachine 1 emptyOrder (Stream'.const 0)).exec
        (orderRingMachine 1 emptyOrder (Stream'.const 0)).start thirdOrder = some s ∧
      (network64Machine (orderRingWiring 1) emptyOrder).Reachable m ∧ m.putCursor = 5 ∧
        s.Ring 1 m.toNat := by
  have hrun : ((orderRingMachine 1 emptyOrder (Stream'.const 0)).exec
      (orderRingMachine 1 emptyOrder (Stream'.const 0)).start thirdOrder).map
        (fun s => s.orders.putCursor) = some 5 := by
    rfl
  obtain ⟨s, hs, hput⟩ := Option.map_eq_some_iff.mp hrun
  obtain ⟨m, hm, hring⟩ := server_index (by decide) ⟨thirdOrder, hs⟩
  have hcursor : m.putCursor.toNat = 5 :=
    (congrArg L3.Disruptor.putCursor hring.ring).trans hput
  exact ⟨s, m, hs, hm, UInt64.toNat_inj.mp hcursor, hring⟩

end Server

/-! ## The service -/

/-- The order ring and the traded-order ring of the service: `Put` waits for the one
`Get`, and that for the ring. -/
def serviceWiring : Wiring Unit Unit := .single ringSize ringSize_pos (.get ()) fun _ => .ring

/-- The `Put` of `match()` the matching thread is in. -/
def MatchingPc.put : MatchingPc → Option (TradedOrder Unit × PutPc)
  | .committing tradedOrder put => some (tradedOrder, put)
  | _ => none

section Service
variable {nt : NumberText ℚ} {eps : ℚ} {blank : Order ℚ} {blankTrade : TradedOrder Unit}
  {s s' : Service} {n : Network (Order ℚ) Unit Unit} {m : Network (TradedOrder Unit) Unit Unit}

/-- The network is the order ring of the process. -/
structure Service.OrderRing (s : Service) (n : Network (Order ℚ) Unit Unit) : Prop where
  ring : n.ring = s.orders
  puts : ∃ put, n.Puts serviceWiring () s.request.put put
  gets : n.Gets () s.get (s.run.added.map BookOrder.toOrder)

/-- The network is the traded-order ring of the process. -/
structure Service.TradedRing (s : Service) (m : Network (TradedOrder Unit) Unit Unit) : Prop where
  ring : m.ring = s.traded
  puts : m.Puts serviceWiring () s.matching.put s.run.committed
  gets : m.Gets () ⟨s.pubGet, .waitBatch⟩ []

theorem Service.OrderRing.request {e : ServiceEvent} (h : s.OrderRing n)
    (hs : RequestStep nt s e s') :
    ∃ n', (networkMachine serviceWiring blank).ReachesBy NetworkEvent.Unlimited n n' ∧ s'.OrderRing n' := by
  obtain ⟨hring, ⟨put, hputs⟩, hgets⟩ := h
  have hvalue : n.value (.get ()) = s.ordersGet := hgets.cursor
  cases hs with
  | @parsed request order hreceiving =>
    rw [hreceiving] at hputs
    obtain ⟨n', hn, hring', hputs', hgets'⟩ := hputs.call blank order
    exact ⟨n', hn, hring'.trans hring, ⟨put, hputs'⟩, hgets' _ _ _ hgets⟩
  | dies => exact ⟨n, .refl n, hring, ⟨put, hputs⟩, hgets⟩
  | put hputting hput | committed hputting hput =>
    rw [hputting] at hputs
    rw [← hring, ← hvalue] at hput
    obtain ⟨n', hn, hring', hputs', hgets'⟩ := hputs.step blank rfl rfl hput
    exact ⟨n', hn, hring', ⟨_, hputs'⟩, hgets' _ _ _ hgets⟩

theorem Service.OrderRing.matching (h : s.OrderRing n) (hs : MatchingStep eps s s') :
    ∃ n', (networkMachine serviceWiring blank).ReachesBy NetworkEvent.Unlimited n n' ∧ s'.OrderRing n' := by
  obtain ⟨hring, ⟨put, hputs⟩, hgets⟩ := h
  obtain ⟨taken, hget, hadded, horders, hrequest, -⟩ := hs.get
  rw [← hring] at hget
  obtain ⟨n', hn, hring', hgets', hputs', -⟩ := hgets.step (w := serviceWiring) blank rfl hget
  refine ⟨n', hn, (hring'.trans hring).trans horders.symm, ⟨put, ?_⟩, ?_⟩
  · rw [hrequest]
    exact hputs' _ _ _ hputs
  · rw [hadded, List.map_append, toOrder_bookOrders]
    exact hgets'

theorem Service.TradedRing.matching (h : s.TradedRing m) (hwired : s.Wired eps)
    (hs : MatchingStep eps s s') :
    ∃ m', (networkMachine serviceWiring blankTrade).ReachesBy NetworkEvent.Unlimited m m' ∧ s'.TradedRing m' := by
  obtain ⟨hring, hputs, hgets⟩ := h
  have hvalue : m.value (.get ()) = s.pubGet := hgets.cursor
  have hplace := hwired.place
  unfold Service.LoopPlace at hplace
  cases hs with
  | spin => exact ⟨m, .refl m, hring, hputs, hgets⟩
  | take hpc =>
    rw [hpc] at hputs
    exact ⟨m, .refl m, hring, hputs, hgets⟩
  | add hpc _ hrun =>
    rw [hpc, ← (addOrder_run hrun).1] at hputs
    exact ⟨m, .refl m, hring, hputs, hgets⟩
  | call hpc hrun =>
    rw [hpc, ← (callMatch_run hrun).1] at hputs
    exact ⟨m, .refl m, hring, hputs, hgets⟩
  | @loop l run hpc hl hrun =>
    rw [tick_run hl] at hrun
    cases hrun
    rw [hpc] at hputs
    refine ⟨m, .refl m, hring, ?_, hgets⟩
    -- back in the constructor of `Get` or not, the thread is in no `Put`
    have hnone : (if l.pc = .idle then MatchingPc.waitBatch else .matching).put = none := by
      split <;> rfl
    simp only [BookRun.pc, hnone, Option.toList_none, List.append_nil]
    exact hputs
  | @start l tradedOrder hpc hl =>
    rw [hpc] at hputs
    obtain ⟨m', hm, hring', hputs', hgets'⟩ := hputs.call blankTrade tradedOrder
    exact ⟨m', hm, hring'.trans hring, hputs', hgets' _ _ _ hgets⟩
  | put hpc hput =>
    rw [hpc] at hputs
    rw [← hring, ← hvalue] at hput
    obtain ⟨m', hm, hring', hputs', hgets'⟩ :=
      hputs.step blankTrade rfl rfl (L3.putStep_cases hput)
    refine ⟨m', hm, hring', ?_, hgets' _ _ _ hgets⟩
    simpa [L3.completed, MatchingPc.put] using hputs'
  | committed hpc hput hrun =>
    rw [hpc] at hputs hplace
    obtain ⟨l, hl⟩ := hplace
    rw [tick_run hl] at hrun
    cases hrun
    rw [← hring, ← hvalue] at hput
    obtain ⟨m', hm, hring', hputs', hgets'⟩ :=
      hputs.step blankTrade rfl rfl (L3.putStep_cases hput)
    exact ⟨m', hm, hring', hputs', hgets' _ _ _ hgets⟩

theorem service_orderRing (h : (serviceMachine nt eps blank blankTrade).Reachable s) :
    ∃ n, (networkMachine serviceWiring blank).ReachesBy NetworkEvent.Unlimited
      (.start serviceWiring blank) n ∧ s.OrderRing n := by
  refine h.simulated ?_ fun s e s' n _ hring he => ?_
  · exact ⟨rfl, ⟨[], L3.puts_start blank⟩, L3.gets_start blank⟩
  · obtain ⟨-, ⟨-, hm⟩ | hr⟩ := threads_cases he
    · exact hring.matching hm
    · exact hring.request hr

theorem service_tradedRing (h : (serviceMachine nt eps blank blankTrade).Reachable s) :
    ∃ m, (networkMachine serviceWiring blankTrade).ReachesBy NetworkEvent.Unlimited
      (.start serviceWiring blankTrade) m ∧ s.TradedRing m := by
  refine h.simulated ?_ fun s e s' m hs hring he => ?_
  · exact ⟨rfl, L3.puts_start blankTrade, L3.gets_start blankTrade⟩
  · obtain ⟨-, ⟨-, hm⟩ | ⟨-, hsame⟩⟩ := serviceStep_cases he
    · exact hring.matching (service_wired hs) hm
    · obtain ⟨hrun, -, htraded, hpub, hmatching⟩ := hsame
      refine ⟨m, .refl m, hring.ring.trans htraded.symm, ?_, ?_⟩
      · rw [hmatching, hrun]
        exact hring.puts
      · rw [hpub]
        exact hring.gets

/-- Both rings of the process are networks, and the matching thread is never about to
read the slot of the order ring that the request thread is about to write. -/
theorem service_no_race (h : (serviceMachine nt eps blank blankTrade).Reachable s) :
    (∃ n, (networkMachine serviceWiring blank).Reachable n ∧ s.OrderRing n) ∧
      (∃ m, (networkMachine serviceWiring blankTrade).Reachable m ∧ s.TradedRing m) ∧
        ∀ order slot, s.request = .putting order (.write slot) →
          ∀ index last, s.matching = .batch index last → index ≠ last →
            slot % ringSize ≠ index % ringSize := by
  obtain ⟨n, hn, hring⟩ := service_orderRing h
  obtain ⟨m, hm, htraded⟩ := service_tradedRing h
  refine ⟨⟨n, hn.reaches, hring⟩, ⟨m, hm.reaches, htraded⟩, fun order slot hput index last hpc hne => ?_⟩
  obtain ⟨put, hputs⟩ := hring.puts
  rw [hput] at hputs
  have hguarded : serviceWiring.Guarded () := .put (List.mem_singleton.mpr rfl)
  exact (L3.network_ok hn.reaches).reads_apart hguarded hputs.writes
    (hring.gets.reads (congrArg MatchingPc.get hpc) hne)

/-- The ask is about to be matched and the bid about to be written. -/
def askTaken : List ServiceEvent :=
  .receive askCommand :: List.replicate 4 .requestStep ++
    .matchingStep :: .receive bidCommand :: List.replicate 2 .requestStep

theorem ask_apart_from_bid :
    ∃ s order, (serviceMachine rationalText epsilon emptyOrder emptyTrade).exec
        (serviceMachine rationalText epsilon emptyOrder emptyTrade).start askTaken = some s ∧
      s.request = .putting order (.write (ringSize + 1)) ∧
      s.matching = .batch ringSize (ringSize + 1) ∧ (ringSize + 1) % ringSize ≠ ringSize % ringSize := by
  have hrun : ((serviceMachine rationalText epsilon emptyOrder emptyTrade).exec
      (serviceMachine rationalText epsilon emptyOrder emptyTrade).start askTaken).map
        (fun s => (s.request.put.map Prod.snd, s.matching)) =
      some (some (.write (ringSize + 1)), .batch ringSize (ringSize + 1)) := by
    decide +kernel
  obtain ⟨s, hs, hat⟩ := Option.map_eq_some_iff.mp hrun
  obtain ⟨hrequest, hpc⟩ := Prod.mk.inj hat
  obtain ⟨⟨order, pc⟩, hput, rfl⟩ := Option.map_eq_some_iff.mp hrequest
  have hputting : s.request = .putting order (.write (ringSize + 1)) := by
    cases hr : s.request with
    | receiving => rw [hr] at hput; cases hput
    | putting o pc => rw [hr] at hput; cases hput; rfl
  obtain ⟨-, -, hapart⟩ := service_no_race ⟨askTaken, hs⟩
  exact ⟨s, order, hs, hputting, hpc,
    hapart order _ hputting ringSize (ringSize + 1) hpc (Nat.ne_of_lt (Nat.lt_succ_self _))⟩

end Service

end TradingMarket
