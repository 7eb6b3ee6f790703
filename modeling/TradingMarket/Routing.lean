import Mathlib.Data.List.Induction
import Mathlib.Data.List.Forall2
import TradingMarket.Registration

/-! # One asset, one book

The broker sends an order to the first worker registered under its code. Workers
are only ever appended to a code's list, so that worker is the same for the
whole life of the process: every order of a code goes to one book, in the order
the broker received them (`one_asset_one_book`). -/
namespace TradingMarket

open Lib (Machine Multimap)

variable {Num : Type}

/-- What the clients of a run sent, in the order of arrival. -/
def clientWorkloads (es : List BrokerEvent) : List Text :=
  es.filterMap fun
    | .client _ workload => some workload
    | .worker _ => none

/-- The code of an order command. -/
def codeOf (nt : NumberText Num) (workload : Text) : Option Text :=
  (ofTokens nt (tokens workload)).map (·.code)

/-- The worker registered first under a code in a run. -/
def firstWorker (es : List BrokerEvent) (code : Text) : Option Text :=
  (Multimap.valuesAt code (registrations (workerMessages es))).head?

variable {nt : NumberText Num} {tmpOrder : Order Num}

theorem first_of_exec {es : List BrokerEvent} {s : Broker Num}
    (h : (brokerMachine nt tmpOrder).exec (brokerMachine nt tmpOrder).start es = some s)
    (code : Text) : s.workersPerAsset.first code = firstWorker es code := by
  rw [table_of_exec h, upcoming_poll rfl]
  exact Multimap.first_pushAll_empty _ code

/-- A message the broker sent for a client's order: the payload, unchanged, to the
first worker of its code. -/
structure RoutedTo (nt : NumberText Num) (first : Text → Option Text) (workload : Text)
    (m : Message) : Prop where
  payload : m.payload = workload
  worker : ∃ code, codeOf nt workload = some code ∧ first code = some m.identity

theorem RoutedTo.mono {first first' : Text → Option Text} {workload : Text} {m : Message}
    (h : RoutedTo nt first workload m)
    (hstable : ∀ code w, first code = some w → first' code = some w) :
    RoutedTo nt first' workload m := by
  obtain ⟨hp, code, hcode, hw⟩ := h
  exact ⟨hp, code, hcode, hstable code _ hw⟩

/-- No event changes the first worker of a code. -/
theorem BrokerStep.first_stable {s s' : Broker Num} {e : BrokerEvent} (h : BrokerStep nt s e s')
    {code w : Text} (hw : s.workersPerAsset.first code = some w) :
    s'.workersPerAsset.first code = some w := by
  cases h with
  | client _ workload => rwa [onClient_table]
  | worker message =>
    unfold Broker.onWorker
    split <;> exact hw
  | code message => exact Multimap.first_pushBack hw

/-- Messages of workers send nothing. -/
theorem BrokerStep.worker_sent {s s' : Broker Num} {m : Message}
    (h : BrokerStep nt s (.worker m) s') : s'.sent = s.sent := by
  cases h with
  | worker =>
    unfold Broker.onWorker
    split <;> rfl
  | code => rfl

/-- In a run whose client messages are all routable, the messages sent are the
client messages one by one, each routed to the first worker of its code. -/
theorem sent_routed {es : List BrokerEvent} {s : Broker Num}
    (h : (brokerMachine nt tmpOrder).exec (brokerMachine nt tmpOrder).start es = some s)
    (hr : AllRoutable nt tmpOrder es) :
    List.Forall₂ (RoutedTo nt s.workersPerAsset.first) (clientWorkloads es) s.sent := by
  induction es using List.reverseRecOn generalizing s with
  | nil =>
    cases h
    exact .nil
  | append_singleton es e ih =>
    rw [Machine.exec_concat] at h
    obtain ⟨u, hu, hstep⟩ := Option.bind_eq_some_iff.mp h
    obtain ⟨hbefore, hlast, -⟩ := (Machine.along_append hu).mp hr
    have hcase := brokerStep_cases hstep
    have hsent : List.Forall₂ (RoutedTo nt s.workersPerAsset.first) (clientWorkloads es) u.sent :=
      (ih hu hbefore).imp fun _ _ hm => hm.mono fun _ _ => hcase.first_stable
    cases e with
    | worker m =>
      have hnone : clientWorkloads (es ++ [.worker m]) = clientWorkloads es := by
        simp [clientWorkloads]
      rw [hnone, hcase.worker_sent]
      exact hsent
    | client clientAddress workload =>
      have hone : clientWorkloads (es ++ [.client clientAddress workload]) =
          clientWorkloads es ++ [workload] := by
        simp [clientWorkloads]
      obtain ⟨o, ho, hcode⟩ := routable_iff.mp (hlast clientAddress workload rfl)
      cases hcase with
      | client _ _ hpc =>
        obtain ⟨w, ids, hids, hafter⟩ := onClient_routable (registered_ne_nil ⟨es, hu⟩) ho hcode
        rw [onClient_table] at hsent
        rw [hone, onClient_table, hafter]
        refine List.rel_append hsent (.cons ⟨rfl, o.code, ?_, ?_⟩ .nil)
        · rw [codeOf, ho]
          rfl
        · rw [Multimap.first, hids]
          rfl

/-! ## By code -/

theorem routed_payloads {first : Text → Option Text} {workloads : List Text} {sent : List Message}
    (h : List.Forall₂ (RoutedTo nt first) workloads sent) : sent.map (·.payload) = workloads := by
  induction h with
  | nil => rfl
  | cons hm _ ih => rw [List.map_cons, ih, hm.payload]

theorem routed_registered {first : Text → Option Text} {workloads : List Text}
    {sent : List Message} (h : List.Forall₂ (RoutedTo nt first) workloads sent) :
    ∀ workload ∈ workloads, ∃ code w, codeOf nt workload = some code ∧ first code = some w := by
  induction h with
  | nil =>
    intro workload hw
    cases hw
  | cons hm _ ih =>
    intro workload hw
    rcases List.mem_cons.mp hw with rfl | hw
    · obtain ⟨code, hcode, hfirst⟩ := hm.worker
      exact ⟨code, _, hcode, hfirst⟩
    · exact ih workload hw

/-- The orders of one code among messages routed to first workers. -/
theorem routed_of_code {first : Text → Option Text} {workloads : List Text} {sent : List Message}
    (h : List.Forall₂ (RoutedTo nt first) workloads sent) {code w : Text}
    (hw : first code = some w) :
    sent.filter (fun m => codeOf nt m.payload = some code) =
      (workloads.filter fun workload => codeOf nt workload = some code).map (⟨w, ·⟩) := by
  induction h with
  | nil => rfl
  | @cons workload m workloads sent hm _ ih =>
    obtain ⟨hp, code', hcode', hw'⟩ := hm
    by_cases hc : codeOf nt workload = some code
    · obtain rfl : code' = code := Option.some.inj (hcode'.symm.trans hc)
      have hmsg : m = ⟨w, workload⟩ := by
        rw [← hp, ← Option.some.inj (hw'.symm.trans hw)]
      rw [List.filter_cons_of_pos (by simpa [hp] using hc), List.filter_cons_of_pos (by simpa using hc),
        ih, hmsg, List.map_cons]
    · rw [List.filter_cons_of_neg (by simpa [hp] using hc),
        List.filter_cons_of_neg (by simpa using hc), ih]

/-- What a run does with the orders of each code. -/
structure RoutedByCode (nt : NumberText Num) (es : List BrokerEvent) (s : Broker Num) : Prop where
  /-- Every order is forwarded once, unchanged, in the order of arrival. -/
  forwarded : s.sent.map (·.payload) = clientWorkloads es
  /-- Every order has a code with a first worker. -/
  registered : ∀ workload ∈ clientWorkloads es, ∃ code w,
    codeOf nt workload = some code ∧ firstWorker es code = some w
  /-- The orders of a code go to its first worker, in order, and to no other. -/
  oneBook : ∀ code w, firstWorker es code = some w →
    s.sent.filter (fun m => codeOf nt m.payload = some code) =
      ((clientWorkloads es).filter fun workload => codeOf nt workload = some code).map (⟨w, ·⟩)
  /-- The first worker of a code is the one it was when the code was registered. -/
  stable : ∀ fs gs code w, es = fs ++ gs → firstWorker fs code = some w →
    firstWorker es code = some w

theorem one_asset_one_book {es : List BrokerEvent} {s : Broker Num}
    (h : (brokerMachine nt tmpOrder).exec (brokerMachine nt tmpOrder).start es = some s)
    (hr : AllRoutable nt tmpOrder es) : RoutedByCode nt es s := by
  have hrouted := sent_routed h hr
  have hfirst : s.workersPerAsset.first = firstWorker es := funext fun code => first_of_exec h code
  rw [hfirst] at hrouted
  refine ⟨routed_payloads hrouted, routed_registered hrouted,
    fun code w hw => routed_of_code hrouted hw, ?_⟩
  intro fs gs code w hes hw
  have hwhole := h
  rw [hes, Machine.exec_append] at h
  obtain ⟨u, hu, hrest⟩ := Option.bind_eq_some_iff.mp h
  rw [← first_of_exec hu] at hw
  rw [← first_of_exec hwhole]
  exact Machine.exec_preserves (P := fun t => t.workersPerAsset.first code = some w)
    (fun a e b ha hstep => (brokerStep_cases hstep).first_stable ha) hw hrest

/-- A second worker registers for the code of the first before an order comes. -/
def rivalWorkers : List BrokerEvent :=
  (handshake alice ++ handshake ("carol".toList, "TKLAM".toList)).map .worker ++ [sampleOrder]

theorem first_worker_serves : ∃ s, (brokerMachine integerText blankOrder).exec
    (brokerMachine integerText blankOrder).start rivalWorkers = some s ∧
      s.sent.filter (fun m => codeOf integerText m.payload = some "TKLAM".toList) =
        [⟨"alice".toList, "ORDER 1 ASK MARKET TKLAM 1 10".toList⟩] := by
  have hroutable : AllRoutable integerText blankOrder rivalWorkers := by
    refine ⟨by rintro _ _ ⟨⟩, fun u hu => ⟨by rintro _ _ ⟨⟩, fun v hv => ⟨by rintro _ _ ⟨⟩,
      fun w hw => ⟨by rintro _ _ ⟨⟩, fun x hx => ⟨?_, fun y _ => trivial⟩⟩⟩⟩⟩
    rintro _ _ ⟨⟩
    cases hu
    cases hv
    cases hw
    cases hx
    exact routable_iff.mpr ⟨⟨1, .ask, .market, "TKLAM".toList, 1, 10⟩, by decide +kernel,
      by decide +kernel⟩
  obtain ⟨s, hs⟩ : ∃ s, (brokerMachine integerText blankOrder).exec
      (brokerMachine integerText blankOrder).start rivalWorkers = some s := ⟨_, rfl⟩
  refine ⟨s, hs, ?_⟩
  rw [(one_asset_one_book hs hroutable).oneBook "TKLAM".toList "alice".toList (by decide +kernel)]
  decide +kernel

end TradingMarket
