import TradingMarket.Generated
import TradingMarket.OrderRingServer
import TradingMarket.Routing
import TradingMarket.Serving

/-! # The market

The three programs together. The order ring server sends its orders to the
frontend of the broker, every service announces itself on the backend and gets
the orders the broker routes to it. Between two programs the sockets keep the
order of the messages; the `ROUTER` socket of the broker may drop a message to a
service instead of queueing it. All threads of all processes interleave freely.

Whatever happens, only orders of the generator get into a book, after they have
been journaled, each at most once, in their order and into one book, and no
service dies (`market_safe`). -/
namespace TradingMarket

open Lib (Machine Multimap)

/-- What a run of the programs is given. -/
structure Deployment (W : Type) where
  nt : NumberText ℚ
  RING_SIZE : Nat
  /-- The results of `rand()` in the order ring server. -/
  results : Stream' Nat
  blank : Order ℚ
  blankTrade : TradedOrder Unit
  /-- The identities the sockets of the broker give to its peers. -/
  clientAddress : Text
  workerAddress : W → Text
  workerAddress_injective : Function.Injective workerAddress

/-- The processes, and the messages on their way between them. -/
structure Market (W : Type) where
  server : OrderRingServer
  broker : Broker ℚ
  service : W → Service
  /-- From the order ring server to the frontend. -/
  toFrontend : List Text := []
  /-- From a service to the backend. -/
  toBackend : W → List Text
  /-- From the backend to a service. -/
  toService : W → List Text := fun _ => []
  /-- The backend has dropped a message. -/
  lost : Bool := false

inductive MarketEvent (W : Type) where
  /-- A thread of the order ring server makes a step. -/
  | server (e : OrderRingEvent)
  /-- The broker receives the next message of the order ring server. -/
  | client (dropped : Bool)
  /-- The broker receives the next message of a service. -/
  | worker (w : W)
  /-- A service receives the next message of the broker. -/
  | receive (w : W)
  /-- A thread of a service makes a step. -/
  | requestStep (w : W)
  | matchingStep (w : W)

section Model
variable {W : Type} [DecidableEq W] (d : Deployment W)

/-- The payloads of the messages to a service. -/
def Deployment.addressed (messages : List Message) (w : W) : List Text :=
  (messages.filter fun m => m.identity = d.workerAddress w).map Message.payload

/-- The backend queues messages to the services they are addressed to. -/
def Deployment.deliver (messages : List Message) (toService : W → List Text) : W → List Text :=
  fun w => toService w ++ d.addressed messages w

def Deployment.serviceStep (s : Market W) (w : W) (e : ServiceEvent) : Option (Market W) :=
  (TradingMarket.serviceStep d.nt epsilon (s.service w) e).map fun service =>
    { s with service := Function.update s.service w service }

def marketStep (s : Market W) : MarketEvent W → Option (Market W)
  | .server e =>
    (orderRingStep d.RING_SIZE s.server e).map fun server =>
      let sent := server.sent.drop s.server.sent.length
      { s with server, toFrontend := s.toFrontend ++ sent.map (Order.cmdStr d.nt) }
  | .client dropped =>
    match s.toFrontend with
    | [] => none
    | workload :: toFrontend =>
      (brokerStep d.nt s.broker (.client d.clientAddress workload)).map fun broker =>
        let sent := broker.sent.drop s.broker.sent.length
        { s with
          broker, toFrontend
          toService := if dropped then s.toService else d.deliver sent s.toService
          lost := s.lost || dropped }
  | .worker w =>
    match s.toBackend w with
    | [] => none
    | payload :: rest =>
      (brokerStep d.nt s.broker (.worker ⟨d.workerAddress w, payload⟩)).map fun broker =>
        { s with broker, toBackend := Function.update s.toBackend w rest }
  | .receive w =>
    match s.toService w with
    | [] => none
    | request :: rest =>
      d.serviceStep { s with toService := Function.update s.toService w rest } w (.receive request)
  | .requestStep w => d.serviceStep s w .requestStep
  | .matchingStep w => d.serviceStep s w .matchingStep

/-- The programs when their threads start. Every service has sent its handshake. -/
def Market.start : Market W where
  server := .start d.RING_SIZE d.blank d.results
  broker := { tmpOrder := d.blank }
  service _ := .start d.blank d.blankTrade
  toBackend _ := [MOTTO, TKLAM]

def marketMachine : Machine (Market W) (MarketEvent W) := ⟨.start d, marketStep d⟩

end Model

/-! ## What the broker forwards -/

section Forwarding
variable {nt : NumberText ℚ} {tmpOrder : Order ℚ}

/-- What the broker has sent in a run: the payloads it received, up to the one that
stopped it, each to the first worker of its code. -/
structure Forwarded (nt : NumberText ℚ) (es : List BrokerEvent) (s : Broker ℚ) : Prop where
  payloads : s.sent.map Message.payload <+: clientWorkloads es
  all : (∀ why, s.pc ≠ .stopped why) → s.sent.map Message.payload = clientWorkloads es
  routed : ∀ m ∈ s.sent, ∃ o, ofTokens nt (tokens m.payload) = some o ∧
    s.workersPerAsset.first o.code = some m.identity
  stopped : ∀ why, s.pc = .stopped why → ∃ workload ∈ clientWorkloads es,
    ofTokens nt (tokens workload) = none ∨ ∃ o, ofTokens nt (tokens workload) = some o ∧
      s.workersPerAsset o.code = none ∧ why = .unknownCode

theorem clientWorkloads_client (es : List BrokerEvent) (clientAddress workload : Text) :
    clientWorkloads (es ++ [.client clientAddress workload]) = clientWorkloads es ++ [workload] := by
  simp [clientWorkloads]

theorem clientWorkloads_worker (es : List BrokerEvent) (m : Message) :
    clientWorkloads (es ++ [.worker m]) = clientWorkloads es := by
  simp [clientWorkloads]

theorem Forwarded.client {es : List BrokerEvent} {s : Broker ℚ} (h : Forwarded nt es s)
    (hne : ∀ code, s.workersPerAsset code ≠ some []) (hpc : s.pc = .poll)
    (clientAddress workload : Text) :
    Forwarded nt (es ++ [.client clientAddress workload]) (s.onClient nt workload) := by
  have hsent : s.sent.map Message.payload = clientWorkloads es :=
    h.all fun why hwhy => nomatch hpc.symm.trans hwhy
  have hmem : workload ∈ clientWorkloads es ++ [workload] := by simp
  cases hparse : (fromCmdStr nt workload).run s.tmpOrder with
  | error failure o =>
    have hnone : ofTokens nt (tokens workload) = none := by
      refine Option.eq_none_iff_forall_ne_some.mpr fun p hp => ?_
      rw [fromCmdStr_ok.mpr hp] at hparse
      cases hparse
    have hafter : s.onClient nt workload =
        { s with tmpOrder := o, pc := .stopped (.command failure) } := by
      simp only [Broker.onClient, hparse]
    rw [hafter]
    refine ⟨?_, fun hgo => absurd rfl (hgo _), h.routed, fun why _ => ⟨workload, ?_, .inl hnone⟩⟩
    · rw [clientWorkloads_client, ← hsent]
      exact List.prefix_append _ _
    · rw [clientWorkloads_client]
      exact hmem
  | ok u o =>
    have ho : ofTokens nt (tokens workload) = some o := fromCmdStr_ok.mp hparse
    cases hfind : s.workersPerAsset o.code with
    | none =>
      have hafter : s.onClient nt workload =
          { s with tmpOrder := o, pc := .stopped .unknownCode } := by
        simp only [Broker.onClient, hparse, hfind]
      rw [hafter]
      refine ⟨?_, fun hgo => absurd rfl (hgo _), h.routed, fun why hwhy => ⟨workload, ?_, .inr ?_⟩⟩
      · rw [clientWorkloads_client, ← hsent]
        exact List.prefix_append _ _
      · rw [clientWorkloads_client]
        exact hmem
      · exact ⟨o, ho, hfind, (BrokerPc.stopped.inj hwhy).symm⟩
    | some ids =>
      obtain ⟨w, ids', hids, hafter⟩ := onClient_routable hne ho (Option.isSome_of_eq_some hfind)
      have hall : (s.sent ++ [Message.mk w workload]).map Message.payload =
          clientWorkloads es ++ [workload] := by
        rw [List.map_append, hsent]
        rfl
      rw [hafter]
      refine ⟨?_, fun _ => ?_, fun m hm => ?_, fun why hwhy => nomatch hpc.symm.trans hwhy⟩
      · rw [clientWorkloads_client, ← hall]
      · rw [clientWorkloads_client, ← hall]
      · rcases List.mem_append.mp hm with hm | hm
        · exact h.routed m hm
        · obtain rfl := List.mem_singleton.mp hm
          exact ⟨o, ho, by rw [Multimap.first, hids]; rfl⟩

/-- A message of a worker changes the table only, and no first worker. -/
theorem Forwarded.worker {es : List BrokerEvent} {s s' : Broker ℚ} {m : Message}
    (h : Forwarded nt es s) (hs : BrokerStep nt s (.worker m) s') :
    Forwarded nt (es ++ [.worker m]) s' := by
  have hgoing : ∀ why, s.pc ≠ .stopped why := by
    intro why hwhy
    cases hs with
    | worker _ hpc | code _ hpc => exact nomatch hpc.symm.trans hwhy
  have hgoing' : ∀ why, s'.pc ≠ .stopped why := by
    intro why hwhy
    cases hs with
    | worker _ hpc =>
      unfold Broker.onWorker at hwhy
      split at hwhy
      · cases hwhy
      · exact nomatch hpc.symm.trans hwhy
    | code => cases hwhy
  obtain ⟨hpayloads, hall, hrouted, -⟩ := h
  rw [← hs.worker_sent] at hpayloads hall hrouted
  refine ⟨?_, fun _ => ?_, fun m hm => ?_, fun why hwhy => absurd hwhy (hgoing' why)⟩
  · rwa [clientWorkloads_worker]
  · rw [clientWorkloads_worker]
    exact hall hgoing
  · obtain ⟨o, ho, hfirst⟩ := hrouted m hm
    exact ⟨o, ho, hs.first_stable hfirst⟩

theorem broker_forwards {es : List BrokerEvent} {s : Broker ℚ}
    (h : (brokerMachine nt tmpOrder).exec (brokerMachine nt tmpOrder).start es = some s) :
    Forwarded nt es s := by
  induction es using List.reverseRecOn generalizing s with
  | nil =>
    cases h
    exact ⟨List.prefix_rfl, fun _ => rfl, nofun, nofun⟩
  | append_singleton es e ih =>
    rw [Machine.exec_concat] at h
    obtain ⟨u, hu, hstep⟩ := Option.bind_eq_some_iff.mp h
    have hcase := brokerStep_cases hstep
    cases e with
    | worker m => exact (ih hu).worker hcase
    | client clientAddress workload =>
      cases hcase with
      | client _ _ hpc => exact (ih hu).client (registered_ne_nil ⟨es, hu⟩) hpc _ _

/-- The broker only appends to what it has sent. -/
theorem BrokerStep.sent_grows {s s' : Broker ℚ} {e : BrokerEvent} (h : BrokerStep nt s e s') :
    s.sent <+: s'.sent := by
  cases e with
  | worker m => rw [h.worker_sent]
  | client clientAddress workload =>
    cases h with
    | client =>
      unfold Broker.onClient
      split
      · exact List.prefix_rfl
      · split
        · exact List.prefix_rfl
        · exact List.prefix_rfl
        · exact List.prefix_append _ _

end Forwarding

/-! ## What is on the way -/

section Delivery
variable {W : Type} {d : Deployment W}

abbrev Deployment.serverMachine (d : Deployment W) : Machine OrderRingServer OrderRingEvent :=
  orderRingMachine d.RING_SIZE d.blank d.results

abbrev Deployment.brokerMachine (d : Deployment W) : Machine (Broker ℚ) BrokerEvent :=
  TradingMarket.brokerMachine d.nt d.blank

abbrev Deployment.serviceMachine (d : Deployment W) : Machine Service ServiceEvent :=
  TradingMarket.serviceMachine d.nt epsilon d.blank d.blankTrade

theorem addressed_append (sent more : List Message) (w : W) :
    d.addressed (sent ++ more) w = d.addressed sent w ++ d.addressed more w := by
  simp [Deployment.addressed]

/-- The order ring server only appends to what it has sent. -/
theorem OrderRingStep.sent_grows {RING_SIZE : Nat} {s s' : OrderRingServer}
    (h : OrderRingStep RING_SIZE s s') : s.sent <+: s'.sent := by
  cases h with
  | route => exact List.prefix_append _ _
  | generate | put | commit | journal => exact List.prefix_rfl

/-- A service is in a state of its machine, and what it has received, with what is on
the way to it, is what has been sent to it, but for messages that were lost. -/
structure Delivered (d : Deployment W) (lost : Bool) (es : List ServiceEvent) (service : Service)
    (toService sent : List Text) : Prop where
  run : d.serviceMachine.exec d.serviceMachine.start es = some service
  sublist : (requests es ++ toService).Sublist sent
  all : lost = false → requests es ++ toService = sent

namespace Delivered

variable {lost : Bool} {es : List ServiceEvent} {service service' : Service}
  {toService sent more : List Text}

theorem queued (h : Delivered d lost es service toService sent) :
    Delivered d lost es service (toService ++ more) (sent ++ more) := by
  refine ⟨h.run, ?_, fun hlost => ?_⟩
  · rw [← List.append_assoc]
    exact h.sublist.append (.refl _)
  · rw [← List.append_assoc, h.all hlost]

theorem dropped (h : Delivered d lost es service toService sent) :
    Delivered d true es service toService (sent ++ more) :=
  ⟨h.run, h.sublist.trans (List.sublist_append_left _ _), fun hlost => by cases hlost⟩

theorem received {request : Text} (h : Delivered d lost es service (request :: toService) sent)
    (hstep : d.serviceMachine.step service (.receive request) = some service') :
    Delivered d lost (es ++ [.receive request]) service' toService sent := by
  have hgot : requests (es ++ [.receive request]) ++ toService =
      requests es ++ request :: toService := by
    rw [requests_append, List.append_assoc]
    rfl
  refine ⟨?_, hgot ▸ h.sublist, hgot ▸ h.all⟩
  rw [Machine.exec_concat, h.run, Option.bind_some, hstep]

theorem thread {e : ServiceEvent} (h : Delivered d lost es service toService sent)
    (he : requests [e] = []) (hstep : d.serviceMachine.step service e = some service') :
    Delivered d lost (es ++ [e]) service' toService sent := by
  have hgot : requests (es ++ [e]) = requests es := by
    rw [requests_append, he, List.append_nil]
  refine ⟨?_, hgot ▸ h.sublist, hgot ▸ h.all⟩
  rw [Machine.exec_concat, h.run, Option.bind_some, hstep]

end Delivered

end Delivery

/-! ## The programs together -/

section Programs
variable {W : Type} [DecidableEq W] {d : Deployment W}

/-- The ways the programs move. -/
inductive MarketStep (d : Deployment W) (s : Market W) : Market W → Prop
  | server {e server} : d.serverMachine.step s.server e = some server →
      MarketStep d s
        { s with
          server
          toFrontend := s.toFrontend ++
            (server.sent.drop s.server.sent.length).map (Order.cmdStr d.nt) }
  | client {workload toFrontend broker} (dropped : Bool) : s.toFrontend = workload :: toFrontend →
      d.brokerMachine.step s.broker (.client d.clientAddress workload) = some broker →
      MarketStep d s
        { s with
          broker, toFrontend
          toService := if dropped then s.toService
            else d.deliver (broker.sent.drop s.broker.sent.length) s.toService
          lost := s.lost || dropped }
  | worker {w payload rest broker} : s.toBackend w = payload :: rest →
      d.brokerMachine.step s.broker (.worker ⟨d.workerAddress w, payload⟩) = some broker →
      MarketStep d s { s with broker, toBackend := Function.update s.toBackend w rest }
  | receive {w request rest service} : s.toService w = request :: rest →
      d.serviceMachine.step (s.service w) (.receive request) = some service →
      MarketStep d s
        { s with
          service := Function.update s.service w service
          toService := Function.update s.toService w rest }
  | thread {w e service} : requests [e] = [] → d.serviceMachine.step (s.service w) e = some service →
      MarketStep d s { s with service := Function.update s.service w service }

theorem marketStep_cases {s s' : Market W} {e : MarketEvent W}
    (h : (marketMachine d).step s e = some s') : MarketStep d s s' := by
  cases e with
  | server e =>
    obtain ⟨server, hserver, rfl⟩ := Option.map_eq_some_iff.mp h
    exact .server hserver
  | client dropped =>
    simp only [marketMachine, marketStep] at h
    split at h
    · cases h
    · rename_i workload toFrontend hqueue
      obtain ⟨broker, hbroker, rfl⟩ := Option.map_eq_some_iff.mp h
      exact .client dropped hqueue hbroker
  | worker w =>
    simp only [marketMachine, marketStep] at h
    split at h
    · cases h
    · rename_i payload rest hqueue
      obtain ⟨broker, hbroker, rfl⟩ := Option.map_eq_some_iff.mp h
      exact .worker hqueue hbroker
  | receive w =>
    simp only [marketMachine, marketStep] at h
    split at h
    · cases h
    · rename_i request rest hqueue
      obtain ⟨service, hservice, rfl⟩ := Option.map_eq_some_iff.mp h
      exact .receive hqueue hservice
  | requestStep w =>
    obtain ⟨service, hservice, rfl⟩ := Option.map_eq_some_iff.mp h
    have hthread : d.serviceMachine.step (s.service w) .requestStep = some service := hservice
    exact .thread rfl hthread
  | matchingStep w =>
    obtain ⟨service, hservice, rfl⟩ := Option.map_eq_some_iff.mp h
    have hthread : d.serviceMachine.step (s.service w) .matchingStep = some service := hservice
    exact .thread rfl hthread

/-- Every program is in a state of its own machine, and what it has received, with
what is on the way to it, is what has been sent to it. -/
structure Market.Linked (d : Deployment W) (s : Market W) : Prop where
  server : d.serverMachine.Reachable s.server
  broker : ∃ es, d.brokerMachine.exec d.brokerMachine.start es = some s.broker ∧
    clientWorkloads es ++ s.toFrontend = s.server.sent.map (Order.cmdStr d.nt)
  service : ∀ w, ∃ es, Delivered d s.lost es (s.service w) (s.toService w)
    (d.addressed s.broker.sent w)

theorem Market.Linked.step {s s' : Market W} (h : s.Linked d) (hs : MarketStep d s s') :
    s'.Linked d := by
  obtain ⟨hserver, ⟨es, hes, hqueue⟩, hservice⟩ := h
  cases hs with
  | @server e server hstep =>
    have hsent := List.prefix_iff_eq_append.mp (orderRingStep_cases hstep).sent_grows
    refine ⟨hserver.reaches (.single hstep), ⟨es, hes, ?_⟩, hservice⟩
    rw [← List.append_assoc, hqueue, ← List.map_append, hsent]
  | @client workload toFrontend broker dropped hnext hstep =>
    have hsent := List.prefix_iff_eq_append.mp (brokerStep_cases hstep).sent_grows
    refine ⟨hserver, ⟨es ++ [.client d.clientAddress workload], ?_, ?_⟩, fun w => ?_⟩
    · rw [Machine.exec_concat, hes, Option.bind_some, hstep]
    · rw [clientWorkloads_client, List.append_assoc, List.singleton_append, ← hnext, hqueue]
    · obtain ⟨fs, hgot⟩ := hservice w
      have hmore := @addressed_append W d s.broker.sent (broker.sent.drop s.broker.sent.length) w
      rw [hsent] at hmore
      refine ⟨fs, ?_⟩
      simp only [hmore]
      cases dropped with
      | true =>
        rw [Bool.or_true]
        exact hgot.dropped
      | false =>
        rw [Bool.or_false]
        exact hgot.queued
  | @worker w payload rest broker hnext hstep =>
    refine ⟨hserver, ⟨es ++ [.worker ⟨d.workerAddress w, payload⟩], ?_, ?_⟩, ?_⟩
    · rw [Machine.exec_concat, hes, Option.bind_some, hstep]
    · rw [clientWorkloads_worker, hqueue]
    · rw [(brokerStep_cases hstep).worker_sent]
      exact hservice
  | @receive w request rest service hnext hstep =>
    refine ⟨hserver, ⟨es, hes, hqueue⟩, fun v => ?_⟩
    obtain ⟨fs, hgot⟩ := hservice v
    by_cases hv : v = w
    · subst hv
      simp only [Function.update_self]
      exact ⟨_, (hnext ▸ hgot).received hstep⟩
    · simp only [Function.update_of_ne hv]
      exact ⟨fs, hgot⟩
  | @thread w e service he hstep =>
    refine ⟨hserver, ⟨es, hes, hqueue⟩, fun v => ?_⟩
    obtain ⟨fs, hgot⟩ := hservice v
    by_cases hv : v = w
    · subst hv
      simp only [Function.update_self]
      exact ⟨_, hgot.thread he hstep⟩
    · simp only [Function.update_of_ne hv]
      exact ⟨fs, hgot⟩

theorem market_linked {s : Market W} (h : (marketMachine d).Reachable s) : s.Linked d := by
  induction h using Machine.Reachable.induct with
  | start => exact ⟨.refl _, ⟨[], rfl, rfl⟩, fun _ => ⟨[], rfl, .refl _, fun _ => rfl⟩⟩
  | step s e t _ he ih => exact ih.step (marketStep_cases he)

end Programs

/-! ## Safety -/

section Safety

/-- A service that gets nothing but orders lives. -/
theorem service_alive {nt : NumberText ℚ} {eps : ℚ} {blank : Order ℚ} {blankTrade : TradedOrder Unit}
    {es : List ServiceEvent} {s : Service}
    (h : (serviceMachine nt eps blank blankTrade).exec
      (serviceMachine nt eps blank blankTrade).start es = some s)
    (horders : ∀ request ∈ requests es, ∃ o, ofTokens nt (tokens request) = some o) :
    s.alive = true := by
  induction es using List.reverseRecOn generalizing s with
  | nil =>
    cases h
    rfl
  | append_singleton es e ih =>
    rw [Machine.exec_concat] at h
    obtain ⟨u, hu, hstep⟩ := Option.bind_eq_some_iff.mp h
    rw [requests_append] at horders
    have halive := ih hu fun request hr => horders request (List.mem_append_left _ hr)
    obtain ⟨-, ⟨-, hm⟩ | hr⟩ := threads_cases hstep
    · obtain ⟨-, -, -, -, -, hsame⟩ := hm.get
      exact hsame.trans halive
    · cases hr with
      | parsed | put | committed => exact halive
      | @dies request order _ hnone =>
        obtain ⟨o, ho⟩ := horders request (List.mem_append_right _ (List.mem_singleton_self _))
        rw [hnone] at ho
        cases ho

/-- The orders among commands. -/
def ordersOf (nt : NumberText ℚ) (workloads : List Text) : List (Order ℚ) :=
  workloads.filterMap fun workload => ofTokens nt (tokens workload)

theorem ordersOf_cmdStr {nt : NumberText ℚ} {orders : List (Order ℚ)}
    (h : ∀ o ∈ orders, ofTokens nt (tokens (o.cmdStr nt)) = some o) :
    ordersOf nt (orders.map (Order.cmdStr nt)) = orders := by
  induction orders with
  | nil => rfl
  | cons o orders ih =>
    have hrest := ih fun p hp => h p (List.mem_cons_of_mem _ hp)
    simp only [List.map_cons, ordersOf, List.filterMap_cons, h o List.mem_cons_self]
    exact congrArg (o :: ·) hrest

/-- The book of a service has some of the orders it was sent, in their order. -/
theorem added_received {nt : NumberText ℚ} {eps : ℚ} {blank : Order ℚ}
    {blankTrade : TradedOrder Unit} {es : List ServiceEvent} {s : Service}
    (h : (serviceMachine nt eps blank blankTrade).exec
      (serviceMachine nt eps blank blankTrade).start es = some s) :
    s.run.added.map BookOrder.toOrder <+: ordersOf nt (requests es) := by
  obtain ⟨put, hfed, hput⟩ := service_fed h
  exact hfed.get.order.trans ⟨_, hput⟩

variable {W : Type} {d : Deployment W} {s : Market W}

namespace Market.Linked

theorem sent_generated (h : s.Linked d) : s.server.sent <+: PutOrder.put d.results :=
  have hwired := server_wired h.server
  (hwired.second.order.trans hwired.first.order).trans (put_generated h.server)

/-- What a service has got are orders the server has sent. -/
theorem requests_sent (h : s.Linked d) (w : W) {es : List ServiceEvent}
    (hgot : Delivered d s.lost es (s.service w) (s.toService w) (d.addressed s.broker.sent w)) :
    (requests es).Sublist (s.server.sent.map (Order.cmdStr d.nt)) := by
  obtain ⟨fs, hfs, hqueue⟩ := h.broker
  have haddressed : (d.addressed s.broker.sent w).Sublist (s.broker.sent.map Message.payload) :=
    List.filter_sublist.map _
  have hworkloads : (clientWorkloads fs).Sublist (s.server.sent.map (Order.cmdStr d.nt)) :=
    hqueue ▸ List.sublist_append_left _ _
  exact (((List.sublist_append_left _ _).trans hgot.sublist).trans haddressed).trans
    ((broker_forwards hfs).payloads.sublist.trans hworkloads)

section
variable (hnt : ∀ o ∈ PutOrder.put d.results, Printable d.nt o)
include hnt

theorem sent_parses (h : s.Linked d) {o : Order ℚ} (ho : o ∈ s.server.sent) :
    ofTokens d.nt (tokens (o.cmdStr d.nt)) = some o :=
  have hput := h.sent_generated.subset ho
  generated_parses hput (hnt o hput)

theorem orders_sent (h : s.Linked d) :
    ordersOf d.nt (s.server.sent.map (Order.cmdStr d.nt)) = s.server.sent :=
  ordersOf_cmdStr fun _ ho => h.sent_parses hnt ho

/-- What the broker receives are the orders sent. -/
theorem workload_order {es : List BrokerEvent} (h : s.Linked d)
    (hqueue : clientWorkloads es ++ s.toFrontend = s.server.sent.map (Order.cmdStr d.nt))
    {workload : Text} (hw : workload ∈ clientWorkloads es) :
    ∃ o ∈ s.server.sent, ofTokens d.nt (tokens workload) = some o ∧ o.code = TKLAM := by
  have hmem : workload ∈ s.server.sent.map (Order.cmdStr d.nt) :=
    hqueue ▸ List.mem_append_left _ hw
  obtain ⟨o, ho, rfl⟩ := List.mem_map.mp hmem
  exact ⟨o, ho, h.sent_parses hnt ho, (put_fields (h.sent_generated.subset ho)).1⟩

/-- Everything the broker has sent went to the first worker of the asset. -/
theorem sent_first (h : s.Linked d) {m : Message} (hm : m ∈ s.broker.sent) :
    s.broker.workersPerAsset.first TKLAM = some m.identity := by
  obtain ⟨es, hes, hqueue⟩ := h.broker
  have hforwarded := broker_forwards hes
  obtain ⟨o, ho, hfirst⟩ := hforwarded.routed m hm
  obtain ⟨o', -, ho', hcode⟩ := h.workload_order hnt hqueue
    (hforwarded.payloads.subset (List.mem_map_of_mem hm))
  obtain rfl : o = o' := Option.some.inj (ho.symm.trans ho')
  exact hcode ▸ hfirst

/-- A service has been sent everything or nothing. -/
theorem addressed_cases (h : s.Linked d) (w : W) :
    d.addressed s.broker.sent w = [] ∨
      (s.broker.workersPerAsset.first TKLAM = some (d.workerAddress w) ∧
        d.addressed s.broker.sent w = s.broker.sent.map Message.payload) := by
  by_cases hw : s.broker.workersPerAsset.first TKLAM = some (d.workerAddress w)
  · refine .inr ⟨hw, ?_⟩
    rw [Deployment.addressed, List.filter_eq_self.mpr fun m hm => ?_]
    exact decide_eq_true (Option.some.inj ((h.sent_first hnt hm).symm.trans hw))
  · refine .inl ?_
    rw [Deployment.addressed, List.filter_eq_nil_iff.mpr fun m hm heq => hw ?_, List.map_nil]
    rw [h.sent_first hnt hm, of_decide_eq_true heq]

theorem alive (h : s.Linked d) (w : W) : (s.service w).alive = true := by
  obtain ⟨es, hgot⟩ := h.service w
  refine service_alive hgot.run fun request hrequest => ?_
  obtain ⟨o, ho, rfl⟩ := List.mem_map.mp ((h.requests_sent w hgot).subset hrequest)
  exact ⟨o, h.sent_parses hnt ho⟩

theorem broker_stop (h : s.Linked d) {why : Stop} (hwhy : s.broker.pc = .stopped why) :
    why = .unknownCode ∧ s.broker.workersPerAsset TKLAM = none := by
  obtain ⟨es, hes, hqueue⟩ := h.broker
  obtain ⟨workload, hworkload, hstop⟩ := (broker_forwards hes).stopped why hwhy
  obtain ⟨o, -, ho, hcode⟩ := h.workload_order hnt hqueue hworkload
  obtain hnone | ⟨o', ho', hfind, hcause⟩ := hstop
  · rw [ho] at hnone
    cases hnone
  · obtain rfl : o = o' := Option.some.inj (ho.symm.trans ho')
    exact ⟨hcause, hcode ▸ hfind⟩

theorem fed (h : s.Linked d) (w : W) :
    ((s.service w).run.added.map BookOrder.toOrder).Sublist s.server.sent := by
  obtain ⟨es, hgot⟩ := h.service w
  have horders := (h.requests_sent w hgot).filterMap fun workload =>
    ofTokens d.nt (tokens workload)
  exact (added_received hgot.run).sublist.trans (h.orders_sent hnt ▸ horders)

theorem fed_in_order (h : s.Linked d) (hlost : s.lost = false) (w : W) :
    (s.service w).run.added.map BookOrder.toOrder <+: s.server.sent := by
  obtain ⟨es, hgot⟩ := h.service w
  obtain ⟨fs, hfs, hqueue⟩ := h.broker
  have hall := hgot.all hlost
  have hrequests : requests es <+: s.server.sent.map (Order.cmdStr d.nt) := by
    obtain hnone | ⟨-, hevery⟩ := h.addressed_cases hnt w
    · rw [hnone] at hall
      rw [(List.append_eq_nil_iff.mp hall).1]
      exact List.nil_prefix
    · rw [hevery] at hall
      have hforwarded : requests es <+: s.broker.sent.map Message.payload := ⟨_, hall⟩
      exact (hforwarded.trans (broker_forwards hfs).payloads).trans ⟨_, hqueue⟩
  have horders := hrequests.filterMap fun workload => ofTokens d.nt (tokens workload)
  exact (added_received hgot.run).trans (h.orders_sent hnt ▸ horders)

/-- The service whose book has orders is the first worker of the asset. -/
theorem fed_first (h : s.Linked d) {w : W} (hw : (s.service w).run.added ≠ []) :
    s.broker.workersPerAsset.first TKLAM = some (d.workerAddress w) := by
  obtain ⟨es, hgot⟩ := h.service w
  obtain hnone | ⟨hfirst, -⟩ := h.addressed_cases hnt w
  · have hrequests : requests es = [] := by
      have hsublist := hgot.sublist
      rw [hnone] at hsublist
      exact (List.append_eq_nil_iff.mp (List.sublist_nil.mp hsublist)).1
    have hadded := added_received hgot.run
    rw [hrequests] at hadded
    exact absurd (List.map_eq_nil_iff.mp (List.prefix_nil.mp hadded)) hw
  · exact hfirst

end

end Market.Linked

/-- What holds whatever the programs do. -/
structure Market.Safe (d : Deployment W) (s : Market W) : Prop where
  alive : ∀ w, (s.service w).alive = true
  /-- The broker stops for one reason: an order came before a service had registered. -/
  broker : ∀ why, s.broker.pc = .stopped why →
    why = .unknownCode ∧ s.broker.workersPerAsset TKLAM = none
  /-- Orders are generated, journaled and sent in one order. -/
  journaled : s.server.sent <+: s.server.journaled ∧ s.server.journaled <+: PutOrder.put d.results
  /-- The orders of a book are orders sent, in their order, each at most once. -/
  fed : ∀ w, ((s.service w).run.added.map BookOrder.toOrder).Sublist s.server.sent
  lossless : s.lost = false → ∀ w, (s.service w).run.added.map BookOrder.toOrder <+: s.server.sent
  oneBook : ∀ w w', (s.service w).run.added ≠ [] → (s.service w').run.added ≠ [] → w = w'

variable [DecidableEq W]

/-- In every interleaving of the programs and whatever messages the broker drops, only
journaled orders get into a book, in their order and each at most once, all into one
book, no service dies, and the broker stops only over an order that no service has
registered for. -/
theorem market_safe (hnt : ∀ o ∈ PutOrder.put d.results, Printable d.nt o)
    (h : (marketMachine d).Reachable s) : s.Safe d := by
  have hlinked := market_linked h
  have hwired := server_wired hlinked.server
  refine ⟨hlinked.alive hnt, fun _ => hlinked.broker_stop hnt, ⟨hwired.second.order, ?_⟩,
    hlinked.fed hnt, hlinked.fed_in_order hnt, fun w w' hw hw' => ?_⟩
  · exact hwired.first.order.trans (put_generated hlinked.server)
  · have hfirst := hlinked.fed_first hnt hw
    exact d.workerAddress_injective (Option.some.inj (hfirst.symm.trans (hlinked.fed_first hnt hw')))

/-! ## One ask and one bid -/

/-- Results of `rand()` for one bid among asks, each for one unit at price one. -/
def oneBid : Stream' Nat := fun k => if k = 4 then 1 else if k % 4 = 0 then 0 else 20000

theorem oneBid_orders {o : Order ℚ} (ho : o ∈ PutOrder.put oneBid) :
    o.quantity = 1 ∧ o.price = 1 := by
  have hdrawn : numberDrawn 20000 = 1 := by
    unfold numberDrawn
    norm_num
  refine @orders_all (fun p => (p.i = 0 ∨ p.prevPrice = 1) ∧
      ∀ k, p.results.get (4 * k + 2) = 20000 ∧ p.results.get (4 * k + 3) = 20000)
    (fun o => o.quantity = 1 ∧ o.price = 1) (fun p hp => ?_) iterations { results := oneBid } ?_ o ho
  · obtain ⟨hprice, hresults⟩ := hp
    have hprice' : priceDrawn p.i p.prevPrice (p.results.get 3) = 1 := by
      rw [(hresults 0).2]
      unfold priceDrawn
      split
      · exact hdrawn
      · rename_i hi
        exact hprice.resolve_left hi
    refine ⟨⟨?_, hprice'⟩, .inr hprice', fun k => hresults (k + 1)⟩
    rw [next_quantity, (hresults 0).1, hdrawn]
  · refine ⟨.inl rfl, fun k => ?_⟩
    have hget : ∀ i, i ≠ 4 → i % 4 ≠ 0 → oneBid.get i = 20000 := fun i h₁ h₂ => by
      simp [oneBid, Stream'.get, h₁, h₂]
    exact ⟨hget _ (by omega) (by omega), hget _ (by omega) (by omega)⟩

/-- One service, behind a ring of two slots. -/
def oneService : Deployment Unit where
  nt := rationalText
  RING_SIZE := 1
  results := oneBid
  blank := emptyOrder
  blankTrade := emptyTrade
  clientAddress := "server".toList
  workerAddress _ := "service".toList
  workerAddress_injective := fun _ _ _ => rfl

theorem oneService_printable : ∀ o ∈ PutOrder.put oneService.results, Printable oneService.nt o := by
  intro o ho
  have hone : oneService.nt.str50 1 = ['1'] ∧ oneService.nt.str 1 = ['1'] ∧
      oneService.nt.ofStr ['1'] = some 1 := by
    decide +kernel
  obtain ⟨hquantity, hprice⟩ := oneBid_orders ho
  refine ⟨?_, ?_, ?_, ?_⟩
  · rw [hquantity, hone.1]
    decide
  · rw [hquantity, hone.1, hone.2.2]
  · rw [hprice, hone.2.1]
    decide
  · rw [hprice, hone.2.1, hone.2.2]

/-- The service registers, and an ask and a bid go all the way to a trade. -/
def oneTrade : List (MarketEvent Unit) :=
  let steps : List (Nat × MarketEvent Unit) :=
    [(2, .worker ()), (10, .server .putStep), (6, .server .journalStep), (6, .server .routeStep),
      (2, .client false), (1, .receive ()), (4, .requestStep ()), (1, .receive ()),
      (4, .requestStep ()), (13, .matchingStep ())]
  steps.flatMap fun (n, e) => List.replicate n e

theorem oneTrade_runs : ∃ s, (marketMachine oneService).exec (marketMachine oneService).start
    oneTrade = some s ∧ s.lost = false ∧ s.server.sent.length = 2 ∧
      (s.service ()).run.added.length = 2 ∧ (s.service ()).run.committed.length = 1 := by
  have hrun : ((marketMachine oneService).exec (marketMachine oneService).start oneTrade).map
      (fun s => (s.lost, s.server.sent.length, (s.service ()).run.added.length,
        (s.service ()).run.committed.length)) = some (false, 2, 2, 1) := by
    decide +kernel
  obtain ⟨s, hs, hcounts⟩ := Option.map_eq_some_iff.mp hrun
  simp only [Prod.mk.injEq] at hcounts
  exact ⟨s, hs, hcounts⟩

theorem oneTrade_safe : ∃ s, (marketMachine oneService).exec (marketMachine oneService).start
    oneTrade = some s ∧ (s.service ()).run.added.map BookOrder.toOrder = s.server.sent := by
  obtain ⟨s, hs, hlost, hsent, hadded, -⟩ := oneTrade_runs
  have hsafe := market_safe oneService_printable ⟨oneTrade, hs⟩
  refine ⟨s, hs, (hsafe.lossless hlost ()).eq_of_length ?_⟩
  rw [List.length_map, hadded, hsent]

end Safety

end TradingMarket
