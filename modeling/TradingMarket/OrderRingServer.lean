import TradingMarket.L3.Pipeline
import TradingMarket.Lib.Machine
import TradingMarket.PutOrder

/-! # The order ring server

The process of `OrderRingServer.cpp`: `PutOrder` puts generated orders on a ring
of `2 ^ RING_SIZE` slots, `JournalOrder` prints them to the journal, and
`RouteOrder` sends them to the match engine. The three threads interleave
freely, one atomic access at a time. `ROUTE_ORDER_GET` waits for
`JOURNAL_ORDER_GET` and `PUT_ORDER_PUT` for `ROUTE_ORDER_GET`, which makes the
server a `Pipeline`: orders are journaled before they are routed, and none is
lost, duplicated or overwritten (`journal_before_route`). -/
namespace TradingMarket

open Lib (Machine)
open L3 (Disruptor Get PutPc Pipeline)

/-- The process. What has been put, journaled and sent is recorded besides. -/
structure OrderRingServer where
  orders : Disruptor (Order ℚ)
  putOrder : PutOrder
  /-- The order of the `Put` under way. -/
  putting : Option (Order ℚ × PutPc) := none
  /-- `JOURNAL_ORDER_GET`. -/
  journalGet : Get
  /-- `ROUTE_ORDER_GET`. -/
  routeGet : Get
  put : List (Order ℚ) := []
  journaled : List (Order ℚ) := []
  /-- The orders whose `cmdStr` has been sent. -/
  sent : List (Order ℚ) := []

inductive OrderRingEvent where
  | putStep
  | journalStep
  | routeStep
deriving DecidableEq, Repr

section Model
variable (RING_SIZE : Nat)

/-- A step of `putOrder.put()`: an iteration up to its `Put`, or a step of the `Put`. -/
def OrderRingServer.putStep (s : OrderRingServer) : Option OrderRingServer :=
  match s.putting with
  | none =>
    if s.putOrder.i < iterations then
      let (order, putOrder) := PutOrder.next.run s.putOrder
      some { s with putOrder, putting := some (order, .claim) }
    else none
  | some (order, put) =>
    match s.orders.putStep (2 ^ RING_SIZE) s.routeGet.cursor order put with
    | (orders, some put) => some { s with orders, putting := some (order, put) }
    | (orders, none) => some { s with orders, putting := none, put := s.put ++ [order] }

/-- A step of `journalOrder.save()`. -/
def OrderRingServer.journalStep (s : OrderRingServer) : OrderRingServer :=
  let (journalGet, order) := s.journalGet.step (2 ^ RING_SIZE) s.orders.cursor s.orders
  { s with journalGet, journaled := s.journaled ++ order.toList }

/-- A step of `routeOrder.route(matchEngineSocket)`. -/
def OrderRingServer.routeStep (s : OrderRingServer) : OrderRingServer :=
  let (routeGet, order) := s.routeGet.step (2 ^ RING_SIZE) s.journalGet.cursor s.orders
  { s with routeGet, sent := s.sent ++ order.toList }

def orderRingStep (s : OrderRingServer) : OrderRingEvent → Option OrderRingServer
  | .putStep => s.putStep RING_SIZE
  | .journalStep => some (s.journalStep RING_SIZE)
  | .routeStep => some (s.routeStep RING_SIZE)

/-- The process when its threads start, with the results of `rand()` to come. -/
def OrderRingServer.start (blank : Order ℚ) (results : Stream' Nat) : OrderRingServer where
  orders := .new (2 ^ RING_SIZE) blank
  putOrder := { results }
  journalGet := { cursor := 2 ^ RING_SIZE }
  routeGet := { cursor := 2 ^ RING_SIZE }

def orderRingMachine (blank : Order ℚ) (results : Stream' Nat) :
    Machine OrderRingServer OrderRingEvent :=
  ⟨.start RING_SIZE blank results, orderRingStep RING_SIZE⟩

end Model

variable {RING_SIZE : Nat} {blank : Order ℚ} {results : Stream' Nat} {s s' : OrderRingServer}

/-! ## What a step can do -/

/-- The ways the process moves. -/
inductive OrderRingStep (RING_SIZE : Nat) (s : OrderRingServer) : OrderRingServer → Prop
  | generate : s.putting = none → s.putOrder.i < iterations →
      OrderRingStep RING_SIZE s
        { s with
          putOrder := (PutOrder.next.run s.putOrder).2
          putting := some ((PutOrder.next.run s.putOrder).1, .claim) }
  | put {order pc orders pc'} : s.putting = some (order, pc) →
      L3.PutStep (2 ^ RING_SIZE) s.routeGet.cursor order s.orders pc orders (some pc') →
      OrderRingStep RING_SIZE s { s with orders, putting := some (order, pc') }
  | commit {order pc orders} : s.putting = some (order, pc) →
      L3.PutStep (2 ^ RING_SIZE) s.routeGet.cursor order s.orders pc orders none →
      OrderRingStep RING_SIZE s { s with orders, putting := none, put := s.put ++ [order] }
  | journal {journalGet order} :
      L3.GetStep (2 ^ RING_SIZE) s.orders.cursor s.orders s.journalGet journalGet order →
      OrderRingStep RING_SIZE s { s with journalGet, journaled := s.journaled ++ order.toList }
  | route {routeGet order} :
      L3.GetStep (2 ^ RING_SIZE) s.journalGet.cursor s.orders s.routeGet routeGet order →
      OrderRingStep RING_SIZE s { s with routeGet, sent := s.sent ++ order.toList }

theorem putStep_cases (h : s.putStep RING_SIZE = some s') : OrderRingStep RING_SIZE s s' := by
  unfold OrderRingServer.putStep at h
  split at h
  · rename_i hnone
    split at h
    · rename_i hi
      cases h
      exact .generate hnone hi
    · cases h
  · rename_i order pc hputting
    split at h
    · rename_i hstep
      cases h
      exact .put hputting (L3.putStep_cases hstep)
    · rename_i hstep
      cases h
      exact .commit hputting (L3.putStep_cases hstep)

theorem orderRingStep_cases {e : OrderRingEvent}
    (h : (orderRingMachine RING_SIZE blank results).step s e = some s') :
    OrderRingStep RING_SIZE s s' := by
  cases e with
  | putStep => exact putStep_cases h
  | journalStep =>
    cases h
    exact .journal (L3.getStep_cases rfl)
  | routeStep =>
    cases h
    exact .route (L3.getStep_cases rfl)

/-! ## The server is a pipeline -/

/-- The ring of the server, with what its threads have taken from it. -/
def OrderRingServer.Wired (RING_SIZE : Nat) (s : OrderRingServer) : Prop :=
  Pipeline (2 ^ RING_SIZE) s.put s.journaled s.sent s.putting s.orders s.journalGet s.routeGet

theorem OrderRingServer.Wired.step (h : s.Wired RING_SIZE) (hs : OrderRingStep RING_SIZE s s') :
    s'.Wired RING_SIZE := by
  unfold Wired at h
  cases hs with
  | generate hnone =>
    rw [hnone] at h
    exact h.call _
  | put hputting hput =>
    rw [hputting] at h
    exact h.putStep hput
  | commit hputting hput =>
    rw [hputting] at h
    exact h.commit hput
  | journal hget => exact h.firstStep hget
  | route hget => exact h.secondStep hget

theorem server_wired (h : (orderRingMachine RING_SIZE blank results).Reachable s) :
    s.Wired RING_SIZE := by
  induction h using Machine.Reachable.induct with
  | start => exact L3.pipeline_new blank
  | step s e t _ he ih => exact ih.step (orderRingStep_cases he)

/-- What has been put, what is being put and what is left to generate are the
orders of the generator. -/
def OrderRingServer.Generated (results : Stream' Nat) (s : OrderRingServer) : Prop :=
  s.put ++ (s.putting.map Prod.fst).toList ++ s.putOrder.orders (iterations - s.putOrder.i) =
    PutOrder.put results

theorem OrderRingServer.Generated.step (h : s.Generated results)
    (hs : OrderRingStep RING_SIZE s s') : s'.Generated results := by
  unfold Generated at h ⊢
  cases hs with
  | generate hnone hi =>
    have hleft : iterations - s.putOrder.i = iterations - (s.putOrder.i + 1) + 1 := by omega
    rw [hnone, hleft] at h
    simpa [PutOrder.orders] using h
  | put hputting => simpa [hputting] using h
  | commit hputting => simpa [hputting] using h
  | journal | route => exact h

theorem server_generated (h : (orderRingMachine RING_SIZE blank results).Reachable s) :
    s.Generated results := by
  induction h using Machine.Reachable.induct with
  | start => rfl
  | step s e t _ he ih => exact ih.step (orderRingStep_cases he)

/-- What `PutOrder` has put is what it generates, in that order. -/
theorem put_generated (h : (orderRingMachine RING_SIZE blank results).Reachable s) :
    s.put <+: PutOrder.put results := by
  have hgen := server_generated h
  unfold OrderRingServer.Generated at hgen
  rw [List.append_assoc] at hgen
  exact ⟨_, hgen⟩

/-- In every interleaving of the three threads, what has been sent was journaled
before and what has been journaled was put before, each in the order of the ring;
an order not sent yet is in its slot, and no slot it is in is written. -/
theorem journal_before_route (h : (orderRingMachine RING_SIZE blank results).Reachable s) :
    s.sent <+: s.journaled ∧ s.journaled <+: s.put ∧
      (∀ k order, s.put[k]? = some order → s.sent.length ≤ k →
        s.orders.read (2 ^ RING_SIZE) (2 ^ RING_SIZE + k) = order) ∧
      ∀ order slot, s.putting = some (order, .write slot) → ∀ k < s.put.length,
        (2 ^ RING_SIZE + k) % 2 ^ RING_SIZE = slot % 2 ^ RING_SIZE → k < s.sent.length := by
  have hwired := server_wired h
  refine ⟨hwired.second.order, hwired.first.order, fun k order hk hle => hwired.held hk hle, ?_⟩
  intro order slot hputting k hk hslot
  unfold OrderRingServer.Wired at hwired
  rw [hputting] at hwired
  exact hwired.write_free hk hslot

/-- Three orders over a ring of two slots: the first is routed, the second
journaled, and the third about to be written over the first. -/
def thirdOrder : List OrderRingEvent :=
  List.replicate 5 .putStep ++ List.replicate 3 .journalStep ++ List.replicate 3 .routeStep ++
    List.replicate 5 .putStep ++ List.replicate 3 .journalStep ++ List.replicate 3 .putStep

theorem third_order_free :
    ∃ s, (orderRingMachine 1 emptyOrder (Stream'.const 0)).exec
        (orderRingMachine 1 emptyOrder (Stream'.const 0)).start thirdOrder = some s ∧
      (s.putting.map Prod.snd, s.put.length, s.journaled.length, s.sent.length) =
        (some (.write 4), 2, 2, 1) ∧
      s.sent <+: s.journaled ∧ s.journaled <+: s.put := by
  have hrun : ((orderRingMachine 1 emptyOrder (Stream'.const 0)).exec
      (orderRingMachine 1 emptyOrder (Stream'.const 0)).start thirdOrder).map
        (fun s => (s.putting.map Prod.snd, s.put.length, s.journaled.length, s.sent.length)) =
      some (some (.write 4), 2, 2, 1) := by
    rfl
  obtain ⟨s, hs, hcounts⟩ := Option.map_eq_some_iff.mp hrun
  obtain ⟨hsent, hjournaled, -⟩ := journal_before_route ⟨thirdOrder, hs⟩
  exact ⟨s, hs, hcounts, hsent, hjournaled⟩

end TradingMarket
