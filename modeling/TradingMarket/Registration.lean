import Mathlib.Data.List.Nodup
import TradingMarket.Broker

/-! # Worker registration

Each match service sends two messages, `MOTTO` and its asset code. The backend
branch registers the sender of the first under the payload of the message it
happens to receive next, so the table comes out right exactly when the
handshakes arrive one after the other (`registration_correct_iff`). -/
namespace TradingMarket

open Lib (Machine Multimap)

/-- A match service: its identity on the backend socket and the code it serves. -/
abbrev Worker := Text × Text

/-- What a service sends to register. -/
def handshake (w : Worker) : List Message := [⟨w.1, MOTTO⟩, ⟨w.1, w.2⟩]

/-- An arrival order of the handshakes of these workers: each worker's two
messages in their order, and no other message. -/
structure Arrival (workers : List Worker) (msgs : List Message) : Prop where
  identities : (workers.map Prod.fst).Nodup
  senders : ∀ m ∈ msgs, m.identity ∈ workers.map Prod.fst
  inOrder : ∀ w ∈ workers, msgs.filter (·.identity = w.1) = handshake w

/-- The handshakes arrive one after the other: a `MOTTO`, and as the next message
the code its sender announces, of a worker that has not registered yet. -/
def InTurn : List Worker → List Message → Prop
  | workers, m₁ :: m₂ :: msgs => m₁.payload = MOTTO ∧ (m₁.identity, m₂.payload) ∈ workers ∧
      InTurn (workers.erase (m₁.identity, m₂.payload)) msgs
  | _, [_] => False
  | workers, [] => workers = []

/-! ## What the backend branch registers -/

/-- The registrations a sequence of backend messages leads to. -/
def registrations : List Message → List Worker
  | m₁ :: m₂ :: msgs =>
    if m₁.payload = MOTTO then (m₁.identity, m₂.payload) :: registrations msgs
    else registrations (m₂ :: msgs)
  | [_] => []
  | [] => []

def workerMessages (es : List BrokerEvent) : List Message :=
  es.filterMap fun
    | .worker m => some m
    | .client _ _ => none

variable {Num : Type} {nt : NumberText Num} {tmpOrder : Order Num}

/-- The registrations still to come in a state. -/
def Broker.upcoming (s : Broker Num) (msgs : List Message) : List Worker :=
  match s.pc, msgs with
  | .poll, msgs => registrations msgs
  | .awaitCode workerAddress, m :: msgs => (workerAddress, m.payload) :: registrations msgs
  | _, _ => []

theorem upcoming_poll {s : Broker Num} (h : s.pc = .poll) (msgs : List Message) :
    s.upcoming msgs = registrations msgs := by
  simp [Broker.upcoming, h]

theorem upcoming_nil (s : Broker Num) : s.upcoming [] = [] := by
  cases hpc : s.pc <;> simp [Broker.upcoming, registrations, hpc]

theorem onClient_table (s : Broker Num) (workload : Text) :
    (s.onClient nt workload).workersPerAsset = s.workersPerAsset := by
  unfold Broker.onClient
  split
  · rfl
  · split <;> rfl

theorem onClient_pc (s : Broker Num) (workload : Text) :
    (s.onClient nt workload).pc = s.pc ∨ ∃ why, (s.onClient nt workload).pc = .stopped why := by
  unfold Broker.onClient
  split
  · exact .inr ⟨_, rfl⟩
  · split
    · exact .inr ⟨_, rfl⟩
    · exact .inr ⟨_, rfl⟩
    · exact .inl rfl

/-- A stopped broker takes no further message. -/
theorem exec_stopped {s s' : Broker Num} {why : Stop} (hs : s.pc = .stopped why)
    {es : List BrokerEvent} (h : (brokerMachine nt tmpOrder).exec s es = some s') : es = [] := by
  cases es with
  | nil => rfl
  | cons e es =>
    obtain ⟨u, hu, -⟩ := Option.bind_eq_some_iff.mp h
    cases brokerStep_cases hu with
    | client _ _ hpc | worker _ hpc | code _ hpc => rw [hs] at hpc; cases hpc

theorem onWorker_upcoming {s : Broker Num} (hpc : s.pc = .poll) (m : Message)
    (msgs : List Message) : (s.onWorker m).upcoming msgs = registrations (m :: msgs) := by
  by_cases hm : m.payload = MOTTO
  · cases msgs <;> simp [Broker.onWorker, Broker.upcoming, registrations, hm]
  · cases msgs <;> simp [Broker.onWorker, Broker.upcoming, registrations, hm, hpc]

/-- Clients do not touch the table, and workers fill it with their registrations. -/
theorem table_of_exec {es : List BrokerEvent} {s s' : Broker Num}
    (h : (brokerMachine nt tmpOrder).exec s es = some s') :
    s'.workersPerAsset = s.workersPerAsset.pushAll (s.upcoming (workerMessages es)) := by
  induction es generalizing s with
  | nil => cases h; rw [workerMessages, List.filterMap_nil, upcoming_nil]; rfl
  | cons e es ih =>
    obtain ⟨u, hu, hrest⟩ := Option.bind_eq_some_iff.mp h
    rw [ih hrest]
    cases brokerStep_cases hu with
    | client clientAddress workload hpc =>
      rw [onClient_table]
      rcases @onClient_pc Num nt s workload with hu' | ⟨why, hstop⟩
      · rw [upcoming_poll (hu'.trans hpc), upcoming_poll hpc]
        rfl
      · obtain rfl := exec_stopped hstop hrest
        rw [workerMessages, workerMessages, List.filterMap_nil, upcoming_nil]
        exact congrArg _ (upcoming_nil s).symm
    | worker m hpc =>
      have htable : (s.onWorker m).workersPerAsset = s.workersPerAsset := by
        unfold Broker.onWorker
        split <;> rfl
      rw [htable, onWorker_upcoming hpc, upcoming_poll hpc]
      rfl
    | code m hpc =>
      rw [upcoming_poll rfl]
      simp [Broker.upcoming, hpc, Broker.onCode, workerMessages]

/-! ## Which arrivals register every worker -/

theorem registrations_length (msgs : List Message) :
    2 * (registrations msgs).length ≤ msgs.length := by
  induction msgs using registrations.induct with
  | case1 m₁ m₂ msgs hm ih => rw [registrations, if_pos hm]; simp; omega
  | case2 m₁ m₂ msgs hm ih => rw [registrations, if_neg hm]; simp at ih ⊢; omega
  | case3 m => exact Nat.zero_le _
  | case4 => exact Nat.zero_le _

/-- Twice as many messages as workers register all of them exactly in turn. -/
theorem perm_iff_inTurn {workers : List Worker} {msgs : List Message}
    (hlen : msgs.length = 2 * workers.length) :
    (registrations msgs).Perm workers ↔ InTurn workers msgs := by
  induction msgs using registrations.induct generalizing workers with
  | case1 m₁ m₂ msgs hm ih =>
    rw [registrations, if_pos hm, InTurn, List.cons_perm_iff_perm_erase]
    simp only [hm, true_and]
    refine and_congr_right fun hmem => ih ?_
    rw [List.length_erase_of_mem hmem]
    simp at hlen
    omega
  | case2 m₁ m₂ msgs hm ih =>
    rw [registrations, if_neg hm, InTurn]
    constructor
    · intro h
      have hle := registrations_length (m₂ :: msgs)
      rw [h.length_eq] at hle
      simp at hlen hle
      omega
    · intro hrest
      exact absurd hrest.1 hm
  | case3 m => simp at hlen; omega
  | case4 => exact List.nil_perm

/-- Every worker sends two messages. -/
theorem Arrival.length {workers : List Worker} {msgs : List Message} (h : Arrival workers msgs) :
    msgs.length = 2 * workers.length := by
  induction workers generalizing msgs with
  | nil =>
    cases msgs with
    | nil => rfl
    | cons m msgs => exact absurd (h.senders m List.mem_cons_self) List.not_mem_nil
  | cons w workers ih =>
    obtain ⟨hids, hsenders, horder⟩ := h
    rw [List.map_cons, List.nodup_cons] at hids
    have hrest : Arrival workers (msgs.filter fun m => ¬ m.identity = w.1) := by
      refine ⟨hids.2, fun m hm => ?_, fun v hv => ?_⟩
      · obtain ⟨hmem, hne⟩ := List.mem_filter.mp hm
        rcases List.mem_cons.mp (hsenders m hmem) with heq | hin
        · simp [heq] at hne
        · exact hin
      · have hvw : v.1 ≠ w.1 := by
          intro heq
          exact hids.1 (heq ▸ List.mem_map.mpr ⟨v, hv, rfl⟩)
        rw [← horder v (List.mem_cons_of_mem _ hv), List.filter_filter]
        refine List.filter_congr fun m _ => ?_
        by_cases hm : m.identity = v.1 <;> simp [hm, hvw]
    have hsplit := List.length_eq_length_filter_add (l := msgs) (fun m => decide (m.identity = w.1))
    simp only [← decide_not] at hsplit
    rw [hsplit, horder w List.mem_cons_self, ih hrest, handshake, List.length_cons,
      List.length_cons, List.length_nil, List.length_cons]
    omega

/-- What is left to arrive after the handshake of one worker. -/
theorem Arrival.tail {workers : List Worker} {msgs : List Message} {w : Worker} (hw : w ∈ workers)
    (h : Arrival workers (handshake w ++ msgs)) : Arrival (workers.erase w) msgs := by
  obtain ⟨hids, hsenders, horder⟩ := h
  have hnone : msgs.filter (·.identity = w.1) = [] := by
    simpa [handshake, List.filter_append] using horder w hw
  refine ⟨(List.erase_sublist.map _).nodup hids, fun m hm => ?_, fun v hv => ?_⟩
  · obtain ⟨v, hv, hvm⟩ := List.mem_map.mp (hsenders m (List.mem_append_right _ hm))
    have hne : v ≠ w := by
      intro heq
      subst heq
      exact absurd hvm.symm (by simpa using List.filter_eq_nil_iff.mp hnone m hm)
    exact List.mem_map.mpr ⟨v, (List.mem_erase_of_ne hne).mpr hv, hvm⟩
  · have hv' : v ∈ workers := List.mem_of_mem_erase hv
    have hne : v.1 ≠ w.1 := by
      intro heq
      obtain rfl : v = w := List.inj_on_of_nodup_map hids hv' hw heq
      exact (List.Nodup.not_mem_erase (List.Nodup.of_map _ hids)) hv
    have hpast : (handshake w).filter (·.identity = v.1) = [] := by
      simp [handshake, Ne.symm hne]
    rw [← horder v hv', List.filter_append, hpast, List.nil_append]

theorem inTurn_flatMap {workers order : List Worker} (h : order.Perm workers) :
    InTurn workers (order.flatMap handshake) := by
  induction order generalizing workers with
  | nil => exact h.symm.eq_nil
  | cons w order ih =>
    obtain ⟨hw, hrest⟩ := List.cons_perm_iff_perm_erase.mp h
    exact ⟨rfl, hw, ih hrest⟩

theorem InTurn.uninterrupted {workers : List Worker} {msgs : List Message}
    (h : Arrival workers msgs) (hcodes : ∀ w ∈ workers, w.2 ≠ MOTTO) (hturn : InTurn workers msgs) :
    ∃ order : List Worker, order.Perm workers ∧ msgs = order.flatMap handshake := by
  induction workers, msgs using InTurn.induct with
  | case1 workers m₁ m₂ msgs ih =>
    obtain ⟨hm, hw, hrest⟩ := hturn
    -- the second message is its sender's second, for the first would be a greeting
    have hm₂ : m₂ = ⟨m₁.identity, m₂.payload⟩ := by
      obtain ⟨v, hv, hvm⟩ := List.mem_map.mp (h.senders m₂ (by simp))
      have hfilter := h.inOrder v hv
      by_cases hvw : m₁.identity = v.1
      · rw [hvw, hvm]
      · rw [List.filter_cons_of_neg (by simpa using hvw),
          List.filter_cons_of_pos (by simpa using hvm.symm)] at hfilter
        exact absurd (congrArg Message.payload (List.cons.inj hfilter).1) (hcodes _ hw)
    have hhead : m₁ :: m₂ :: msgs = handshake (m₁.identity, m₂.payload) ++ msgs := by
      rw [handshake, List.cons_append, List.cons_append, List.nil_append, ← hm₂, ← hm]
    have htail := (hhead ▸ h : Arrival workers (handshake _ ++ msgs)).tail hw
    obtain ⟨order, hperm, hmsgs⟩ := ih htail (fun v hv => hcodes v (List.mem_of_mem_erase hv)) hrest
    exact ⟨(m₁.identity, m₂.payload) :: order, List.cons_perm_iff_perm_erase.mpr ⟨hw, hperm⟩,
      by rw [List.flatMap_cons, ← hmsgs, hhead]⟩
  | case2 workers m => cases hturn
  | case3 workers => exact ⟨[], hturn ▸ .refl _, rfl⟩

/-- Where no asset code is the greeting itself, the arrival is in turn exactly when
no handshake is interrupted by another. -/
theorem inTurn_iff_uninterrupted {workers : List Worker} {msgs : List Message}
    (h : Arrival workers msgs) (hcodes : ∀ w ∈ workers, w.2 ≠ MOTTO) :
    InTurn workers msgs ↔
      ∃ order : List Worker, order.Perm workers ∧ msgs = order.flatMap handshake :=
  ⟨InTurn.uninterrupted h hcodes, fun ⟨_, hperm, hmsgs⟩ => hmsgs ▸ inTurn_flatMap hperm⟩

/-- Once the broker has received the handshakes of any number of workers, with
any client messages in between, its table holds these registrations and no other
exactly when the handshakes arrived one after the other. -/
theorem registration_correct_iff {workers : List Worker} {es : List BrokerEvent} {s : Broker Num}
    (h : (brokerMachine nt tmpOrder).exec (brokerMachine nt tmpOrder).start es = some s)
    (harrival : Arrival workers (workerMessages es)) :
    s.workersPerAsset.Holds workers ↔ InTurn workers (workerMessages es) := by
  rw [table_of_exec h, upcoming_poll rfl, ← perm_iff_inTurn harrival.length]
  exact Multimap.holds_pushAll

def alice : Worker := ("alice".toList, "TKLAM".toList)

def bob : Worker := ("bob".toList, "OTHER".toList)

/-- Both workers greet before either sends its code. -/
def crossed : List BrokerEvent :=
  [⟨alice.1, MOTTO⟩, ⟨bob.1, MOTTO⟩, ⟨alice.1, alice.2⟩, ⟨bob.1, bob.2⟩].map .worker

theorem crossed_handshakes : Arrival [alice, bob] (workerMessages crossed) ∧
    ∃ s, (brokerMachine integerText blankOrder).exec
      (brokerMachine integerText blankOrder).start crossed = some s ∧
        ¬ s.workersPerAsset.Holds [alice, bob] := by
  obtain ⟨s, hs⟩ : ∃ s, (brokerMachine integerText blankOrder).exec
      (brokerMachine integerText blankOrder).start crossed = some s := ⟨_, rfl⟩
  refine ⟨⟨by decide, by decide, by decide⟩, s, hs, fun h => ?_⟩
  have hmotto : s.workersPerAsset MOTTO = some [alice.1] := by
    cases hs
    decide +kernel
  have hheld := h MOTTO
  rw [hmotto] at hheld
  exact absurd hheld.2 (by decide)

def inTurnEvents : List BrokerEvent := (handshake bob ++ handshake alice).map .worker

theorem handshakes_in_turn : ∃ s, (brokerMachine integerText blankOrder).exec
    (brokerMachine integerText blankOrder).start inTurnEvents = some s ∧
      s.workersPerAsset.Holds [alice, bob] := by
  obtain ⟨s, hs⟩ : ∃ s, (brokerMachine integerText blankOrder).exec
      (brokerMachine integerText blankOrder).start inTurnEvents = some s := ⟨_, rfl⟩
  have harrival : Arrival [alice, bob] (workerMessages inTurnEvents) :=
    ⟨by decide, by decide, by decide⟩
  have hall : ([alice, bob].erase bob).erase alice = [] := by decide
  exact ⟨s, hs, (registration_correct_iff hs harrival).mpr
    ⟨rfl, by decide, rfl, by decide, hall⟩⟩

end TradingMarket
