import TradingMarket.Command
import TradingMarket.Lib.Machine
import TradingMarket.Lib.Multimap

/-! # The match engine broker

The loop of `MatchEngineBroker.cpp`. An event is one message, of a client on the
frontend or of a worker on the backend; the order of the events is whatever the
two sockets deliver. Having read `MOTTO`, the backend branch waits inside the
loop for the next message on the backend and takes its payload for an asset
code, whoever sent it.

A stopped broker has left the loop: by an exception nothing catches, or by an
operation whose behaviour is undefined. -/
namespace TradingMarket

open Lib (Machine Multimap)

/-- A message on a `ROUTER` socket: the identity frame, then the payload. -/
structure Message where
  identity : Text
  payload : Text
deriving DecidableEq, Repr

/-- How the loop ends: `fromCmdStr` fails, `find()` gives `end()` and it is
dereferenced, or element 0 of an empty vector is taken. -/
inductive Stop where
  | command (failure : Failure)
  | unknownCode
  | noWorker
deriving DecidableEq, Repr

inductive BrokerPc where
  | poll
  | awaitCode (workerAddress : Text)
  | stopped (why : Stop)
deriving DecidableEq, Repr

structure Broker (Num : Type) where
  workersPerAsset : Multimap Text Text := Multimap.empty
  tmpOrder : Order Num
  pc : BrokerPc := .poll
  sent : List Message := []

inductive BrokerEvent where
  | client (clientAddress workload : Text)
  | worker (message : Message)
deriving DecidableEq, Repr

section Model
variable {Num : Type} (nt : NumberText Num)

/-- The frontend branch. -/
def Broker.onClient (s : Broker Num) (workload : Text) : Broker Num :=
  match (fromCmdStr nt workload).run s.tmpOrder with
  | .error failure tmpOrder => { s with tmpOrder, pc := .stopped (.command failure) }
  | .ok () tmpOrder =>
    match s.workersPerAsset tmpOrder.code with
    | none => { s with tmpOrder, pc := .stopped .unknownCode }
    | some [] => { s with tmpOrder, pc := .stopped .noWorker }
    | some (workerAddress :: _) =>
      { s with tmpOrder, sent := s.sent ++ [⟨workerAddress, workload⟩] }

/-- The backend branch up to the wait for the code. -/
def Broker.onWorker (s : Broker Num) (message : Message) : Broker Num :=
  if message.payload = MOTTO then { s with pc := .awaitCode message.identity } else s

/-- The backend branch after the wait: only the payload of the message counts. -/
def Broker.onCode (s : Broker Num) (workerAddress : Text) (message : Message) : Broker Num :=
  { s with workersPerAsset := s.workersPerAsset.pushBack message.payload workerAddress, pc := .poll }

def brokerStep (s : Broker Num) (e : BrokerEvent) : Option (Broker Num) :=
  match s.pc, e with
  | .poll, .client _ workload => some (s.onClient nt workload)
  | .poll, .worker message => some (s.onWorker message)
  | .awaitCode workerAddress, .worker message => some (s.onCode workerAddress message)
  | .awaitCode _, .client _ _ => none
  | .stopped _, _ => none

def brokerMachine (tmpOrder : Order Num) : Machine (Broker Num) BrokerEvent :=
  ⟨{ tmpOrder }, brokerStep nt⟩

end Model

variable {Num : Type} {nt : NumberText Num} {tmpOrder : Order Num}

/-! ## What an event can do -/

inductive BrokerStep (nt : NumberText Num) : Broker Num → BrokerEvent → Broker Num → Prop
  | client {s} (clientAddress workload) : s.pc = .poll →
      BrokerStep nt s (.client clientAddress workload) (s.onClient nt workload)
  | worker {s} (message) : s.pc = .poll → BrokerStep nt s (.worker message) (s.onWorker message)
  | code {s workerAddress} (message) : s.pc = .awaitCode workerAddress →
      BrokerStep nt s (.worker message) (s.onCode workerAddress message)

theorem brokerStep_cases {s s' : Broker Num} {e : BrokerEvent}
    (h : (brokerMachine nt tmpOrder).step s e = some s') : BrokerStep nt s e s' := by
  change brokerStep nt s e = some s' at h
  unfold brokerStep at h
  split at h
  · rename_i workload hpc
    cases h
    exact .client _ workload hpc
  · rename_i message hpc
    cases h
    exact .worker message hpc
  · rename_i workerAddress message hpc
    cases h
    exact .code message hpc
  · cases h
  · cases h

/-- No code is registered without a worker. -/
theorem registered_ne_nil {s : Broker Num} (h : (brokerMachine nt tmpOrder).Reachable s) :
    ∀ code, s.workersPerAsset code ≠ some [] := by
  induction h using Machine.Reachable.induct with
  | start => intro code h; cases h
  | step s e s' _ hstep ih =>
    cases brokerStep_cases hstep with
    | client _ workload =>
      intro code
      unfold Broker.onClient
      split
      · exact ih code
      · split <;> exact ih code
    | worker message =>
      intro code
      unfold Broker.onWorker
      split <;> exact ih code
    | code message => exact Multimap.pushBack_ne_nil ih _ _

/-! ## Client messages -/

/-- The payload is a well-formed order command for a registered code. -/
def Routable (nt : NumberText Num) (workersPerAsset : Multimap Text Text) (workload : Text) : Prop :=
  ∃ tok₂ tok₃ tok₄ code tok₆ tok₇ rest,
    tokens workload = "ORDER".toList :: tok₂ :: tok₃ :: tok₄ :: code :: tok₆ :: tok₇ :: rest ∧
    (∃ n, Lib.scanInt (tok₂.dropWhile isspace) = some n ∧ InIntRange n) ∧
    tok₃ ∈ ["ASK".toList, "BID".toList, "CAN".toList] ∧
    tok₄ ∈ ["MARKET".toList, "LIMIT".toList] ∧
    (nt.ofStr tok₆).isSome ∧ (nt.ofStr tok₇).isSome ∧ (workersPerAsset code).isSome

/-- The broker handled a client message as it should: it goes on serving with
the table it had, and forwarded the payload to a worker registered for the code
of the order, or rejected it. -/
structure Served (nt : NumberText Num) (s s' : Broker Num) (workload : Text) : Prop where
  serving : s'.pc = .poll
  table : s'.workersPerAsset = s.workersPerAsset
  outcome : s'.sent = s.sent ∨ ∃ o ids workerAddress, ofTokens nt (tokens workload) = some o ∧
    s.workersPerAsset o.code = some ids ∧ workerAddress ∈ ids ∧
    s'.sent = s.sent ++ [⟨workerAddress, workload⟩]

theorem routable_iff {table : Multimap Text Text} {workload : Text} :
    Routable nt table workload ↔
      ∃ o, ofTokens nt (tokens workload) = some o ∧ (table o.code).isSome := by
  constructor
  · intro h
    obtain ⟨tok₂, tok₃, tok₄, code, tok₆, tok₇, rest, htok, ⟨n, hn⟩, h₃, h₄, h₆, h₇, hcode⟩ := h
    obtain ⟨type, htype⟩ := typeOf_isOk.mpr h₃
    obtain ⟨matchType, hmatch⟩ := matchTypeOf_isOk.mpr h₄
    obtain rfl := typeOf_eq_ok.mp htype
    obtain rfl := matchTypeOf_eq_ok.mp hmatch
    obtain ⟨quantity, hquantity⟩ := Option.isSome_iff_exists.mp h₆
    obtain ⟨price, hprice⟩ := Option.isSome_iff_exists.mp h₇
    refine ⟨⟨Int64.ofInt n, type, matchType, code, quantity, price⟩, ?_, hcode⟩
    exact ofTokens_eq_some.mpr ⟨tok₂, tok₆, tok₇, rest, n, htok, stoi_eq_ok.mpr hn, rfl, hquantity,
      hprice⟩
  · intro h
    obtain ⟨o, ho, hcode⟩ := h
    obtain ⟨tok₂, tok₆, tok₇, rest, n, htok, h₂, -, h₆, h₇⟩ := ofTokens_eq_some.mp ho
    exact ⟨tok₂, _, _, o.code, tok₆, tok₇, rest, htok, ⟨n, stoi_eq_ok.mp h₂⟩,
      typeOf_isOk.mp ⟨o.type, typeOf_text _⟩, matchTypeOf_isOk.mp ⟨o.matchType, matchTypeOf_text _⟩,
      Option.isSome_of_eq_some h₆, Option.isSome_of_eq_some h₇, hcode⟩

/-- A routable message is forwarded to the first worker of its code. -/
theorem onClient_routable {s : Broker Num} (hne : ∀ code, s.workersPerAsset code ≠ some [])
    {workload : Text} {o : Order Num} (ho : ofTokens nt (tokens workload) = some o)
    (hcode : (s.workersPerAsset o.code).isSome) :
    ∃ workerAddress ids, s.workersPerAsset o.code = some (workerAddress :: ids) ∧
      s.onClient nt workload =
        { s with tmpOrder := o, sent := s.sent ++ [⟨workerAddress, workload⟩] } := by
  have hparse : (fromCmdStr nt workload).run s.tmpOrder = .ok () o := fromCmdStr_ok.mpr ho
  obtain ⟨ids, hids⟩ := Option.isSome_iff_exists.mp hcode
  cases ids with
  | nil => exact absurd hids (hne o.code)
  | cons workerAddress ids => exact ⟨workerAddress, ids, hids, by simp [Broker.onClient, hparse, hids]⟩

/-- A client message is served exactly when it is routable. -/
theorem served_iff {s : Broker Num} (hne : ∀ code, s.workersPerAsset code ≠ some [])
    (hpc : s.pc = .poll) {workload : Text} :
    Served nt s (s.onClient nt workload) workload ↔
      Routable nt s.workersPerAsset workload := by
  rw [routable_iff]
  constructor
  · intro h
    cases hparse : (fromCmdStr nt workload).run s.tmpOrder with
    | error failure o =>
      have hstop : (s.onClient nt workload).pc = .stopped (.command failure) := by
        simp [Broker.onClient, hparse]
      rw [h.serving] at hstop
      cases hstop
    | ok _ o =>
      refine ⟨o, fromCmdStr_ok.mp hparse, ?_⟩
      cases hfind : s.workersPerAsset o.code with
      | some ids => rfl
      | none =>
        have hstop : (s.onClient nt workload).pc = .stopped .unknownCode := by
          simp [Broker.onClient, hparse, hfind]
        rw [h.serving] at hstop
        cases hstop
  · intro h
    obtain ⟨o, ho, hcode⟩ := h
    obtain ⟨workerAddress, ids, hids, hafter⟩ := onClient_routable hne ho hcode
    rw [hafter]
    exact ⟨hpc, rfl, .inr ⟨o, _, workerAddress, ho, hids, List.mem_cons_self, rfl⟩⟩

/-! ## Whole runs -/

/-- Every client message of a run is served when it arrives. -/
def AllServed (nt : NumberText Num) (tmpOrder : Order Num) (es : List BrokerEvent) : Prop :=
  (brokerMachine nt tmpOrder).Along (fun s e => ∀ clientAddress workload s',
    e = .client clientAddress workload → (brokerMachine nt tmpOrder).step s e = some s' →
      Served nt s s' workload) (brokerMachine nt tmpOrder).start es

/-- Every client message of a run is routable when it arrives. -/
def AllRoutable (nt : NumberText Num) (tmpOrder : Order Num) (es : List BrokerEvent) : Prop :=
  (brokerMachine nt tmpOrder).Along (fun s e => ∀ clientAddress workload,
    e = .client clientAddress workload → Routable nt s.workersPerAsset workload)
    (brokerMachine nt tmpOrder).start es

theorem served_step_iff {s s' : Broker Num} {clientAddress workload : Text}
    (hs : (brokerMachine nt tmpOrder).Reachable s)
    (hstep : (brokerMachine nt tmpOrder).step s (.client clientAddress workload) = some s') :
    Served nt s s' workload ↔ Routable nt s.workersPerAsset workload := by
  cases brokerStep_cases hstep with
  | client _ _ hpc => exact served_iff (registered_ne_nil hs) hpc

/-- The broker gets through a run, serving every client message, exactly when
every client message is routable when it arrives. -/
theorem broker_survives_iff {es : List BrokerEvent} {s : Broker Num}
    (h : (brokerMachine nt tmpOrder).exec (brokerMachine nt tmpOrder).start es = some s) :
    (AllServed nt tmpOrder es ∧ ∀ why, s.pc ≠ .stopped why) ↔ AllRoutable nt tmpOrder es := by
  have hiff : AllServed nt tmpOrder es ↔ AllRoutable nt tmpOrder es := by
    refine Machine.along_congr h fun u e v hu hstep => ?_
    constructor
    · intro hserved clientAddress workload he
      subst he
      exact (served_step_iff hu hstep).mp (hserved _ _ v rfl hstep)
    · intro hroutable clientAddress workload v' he hstep'
      subst he
      exact (served_step_iff hu hstep').mpr (hroutable _ _ rfl)
  refine ⟨fun hs => hiff.mp hs.1, fun hr => ⟨hiff.mpr hr, ?_⟩⟩
  refine Machine.exec_preserves_along (P := fun u => ∀ why, u.pc ≠ .stopped why) ?_
    (fun why hwhy => by cases hwhy) (hiff.mpr hr) h
  intro u e v hserved hu hstep why hwhy
  cases brokerStep_cases hstep with
  | client clientAddress workload _ =>
    have hserving := (hserved clientAddress workload _ rfl hstep).serving
    rw [hserving] at hwhy
    cases hwhy
  | worker message _ =>
    unfold Broker.onWorker at hwhy
    split at hwhy
    · cases hwhy
    · exact hu why hwhy
  | code => cases hwhy

def blankOrder : Order Int := ⟨0, .ask, .market, [], 0, 0⟩

def sampleOrder : BrokerEvent := .client "client".toList "ORDER 1 ASK MARKET TKLAM 1 10".toList

/-- A well-formed order before any worker has registered. -/
theorem early_order_stops : ∃ s', (brokerMachine integerText blankOrder).exec
    (brokerMachine integerText blankOrder).start [sampleOrder] = some s' ∧
      s'.pc = .stopped .unknownCode ∧ ¬ AllServed integerText blankOrder [sampleOrder] := by
  have hpc : (Broker.onClient integerText (brokerMachine integerText blankOrder).start
      "ORDER 1 ASK MARKET TKLAM 1 10".toList).pc = .stopped .unknownCode := by decide +kernel
  refine ⟨_, rfl, hpc, fun h => ?_⟩
  have hserving := (h.1 _ _ _ rfl rfl).serving
  rw [hpc] at hserving
  cases hserving

/-- The same order after a worker has registered. -/
def registeredEvents : List BrokerEvent :=
  [.worker ⟨"worker".toList, MOTTO⟩, .worker ⟨"worker".toList, "TKLAM".toList⟩, sampleOrder]

theorem order_after_registration : AllServed integerText blankOrder registeredEvents := by
  have hroutable : AllRoutable integerText blankOrder registeredEvents := by
    refine ⟨by rintro _ _ ⟨⟩, fun u hu => ⟨by rintro _ _ ⟨⟩, fun v hv => ⟨?_, fun w _ => trivial⟩⟩⟩
    rintro _ _ ⟨⟩
    cases hu
    cases hv
    exact routable_iff.mpr ⟨⟨1, .ask, .market, "TKLAM".toList, 1, 10⟩, by decide +kernel,
      by decide +kernel⟩
  exact ((broker_survives_iff rfl).mpr hroutable).1

end TradingMarket
