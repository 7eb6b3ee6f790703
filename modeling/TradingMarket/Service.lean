import TradingMarket.BookRun
import TradingMarket.Command
import TradingMarket.L3.Disruptor

/-! # The match engine service

The process of `MatchEngineService.cpp`: the request thread parses what the
broker sends and puts it on the order ring (`FillOrderBook::fill`), the matching
thread takes batches off that ring, adds them to the book and calls `match()`
(`MatchOrderBook::match`), and `match()` puts every trade on the traded-order
ring (`COMMIT_TRADED_ORDER_PUT`), which waits for the cursor of
`PUB_TRADED_ORDER_GET`. The two threads interleave freely, one atomic access at
a time; the run of the book is the machine of `BookRun`. -/
namespace TradingMarket

open Lib (Machine)
open L3 (Disruptor PutPc)

/-- The number of slots of both rings. -/
def ringSize : Nat := 2 ^ ORDER_BOOK_RING_SIZE

theorem ringSize_pos : 0 < ringSize := Nat.two_pow_pos _

/-- Where the matching thread is: in the constructor of `Get`, in the loop over a
batch, in `match()` between two commits, or in a commit of `match()`. -/
inductive MatchingPc where
  | waitBatch
  | batch (index last : Nat)
  | matching
  | committing (tradedOrder : TradedOrder Unit) (put : PutPc)
deriving DecidableEq, Repr

/-- Where the request thread is: in `s_recv`, or in the `Put` of a parsed order. -/
inductive RequestPc where
  | receiving
  | putting (order : Order ℚ) (put : PutPc)
deriving DecidableEq, Repr

structure Service where
  alive : Bool := true
  run : BookRun Unit := {}
  orderTemplate : Order ℚ
  orders : Disruptor (Order ℚ)
  ordersGet : Nat
  traded : Disruptor (TradedOrder Unit)
  /-- The cursor of `PUB_TRADED_ORDER_GET`. -/
  pubGet : Nat
  matching : MatchingPc := .waitBatch
  request : RequestPc := .receiving

inductive ServiceEvent where
  /-- The broker's next message reaches the request thread. -/
  | receive (request : Text)
  | requestStep
  | matchingStep
deriving DecidableEq, Repr

section Model
variable (nt : NumberText ℚ) (eps : ℚ)

/-- `fillOrderBook.fill(request)` up to the `Put`. A failure of the parser leaves
the thread's function and ends the process. -/
def Service.receive (s : Service) (request : Text) : Option Service :=
  match s.request with
  | .putting _ _ => none
  | .receiving =>
    match (fromCmdStr nt request).run s.orderTemplate with
    | .ok () order => some { s with orderTemplate := order, request := .putting order .claim }
    | .error _ order => some { s with orderTemplate := order, alive := false }

/-- A step of the `Put` of the request thread. -/
def Service.requestStep (s : Service) : Option Service :=
  match s.request with
  | .receiving => none
  | .putting order put =>
    match s.orders.putStep ringSize s.ordersGet order put with
    | (orders, some put) => some { s with orders, request := .putting order put }
    | (orders, none) => some { s with orders, request := .receiving }

/-- A step of the matching thread. -/
def Service.matchingStep (s : Service) : Option Service :=
  match s.matching with
  | .waitBatch =>
    match L3.claimBatch s.orders.cursor s.ordersGet with
    | none => some s
    | some last => some { s with matching := .batch s.ordersGet last }
  | .batch index last =>
    if index = last then
      -- `Get` is destroyed, then `orderBook.match()` is called
      (bookStep eps s.run .callMatch).map fun run =>
        { s with ordersGet := last, run, matching := .matching }
    else
      (bookStep eps s.run (.addOrder ⟨s.orders.read ringSize index, ()⟩)).map fun run =>
        { s with run, matching := .batch (index + 1) last }
  | .matching =>
    match loopStep eps s.run.loop with
    | none => none
    | some (_, some tradedOrder) => some { s with matching := .committing tradedOrder .claim }
    | some (_, none) =>
      (bookStep eps s.run .tick).map fun run =>
        { s with run, matching := if run.pc = .idle then .waitBatch else .matching }
  | .committing tradedOrder put =>
    match s.traded.putStep ringSize s.pubGet tradedOrder put with
    | (traded, some put) => some { s with traded, matching := .committing tradedOrder put }
    | (traded, none) =>
      -- the commit is over; the subtractions follow
      (bookStep eps s.run .tick).map fun run => { s with traded, run, matching := .matching }

def serviceStep (s : Service) (e : ServiceEvent) : Option Service :=
  if s.alive then
    match e with
    | .receive request => s.receive nt request
    | .requestStep => s.requestStep
    | .matchingStep => s.matchingStep eps
  else none

/-- The process after its static variables are initialised. -/
def Service.start (blank : Order ℚ) (blankTrade : TradedOrder Unit) : Service where
  orderTemplate := blank
  orders := .new ringSize blank
  ordersGet := ringSize
  traded := .new ringSize blankTrade
  pubGet := ringSize

def serviceMachine (blank : Order ℚ) (blankTrade : TradedOrder Unit) :
    Machine Service ServiceEvent :=
  ⟨.start blank blankTrade, serviceStep nt eps⟩

end Model

variable {nt : NumberText ℚ} {eps : ℚ} {blank : Order ℚ} {blankTrade : TradedOrder Unit}

/-! ## What a step can do -/

/-- The ways the matching thread moves. -/
inductive MatchingStep (eps : ℚ) : Service → Service → Prop
  | spin {s} : s.matching = .waitBatch → MatchingStep eps s s
  | take {s} : s.matching = .waitBatch → s.ordersGet < s.orders.cursor →
      MatchingStep eps s { s with matching := .batch s.ordersGet s.orders.cursor }
  | add {s index last run} : s.matching = .batch index last → index ≠ last →
      (bookMachine eps).step s.run (.addOrder ⟨s.orders.read ringSize index, ()⟩) = some run →
      MatchingStep eps s { s with run, matching := .batch (index + 1) last }
  | call {s last run} : s.matching = .batch last last → (bookMachine eps).step s.run .callMatch = some run →
      MatchingStep eps s { s with ordersGet := last, run, matching := .matching }
  | loop {s l run} : s.matching = .matching → loopStep eps s.run.loop = some (l, none) →
      (bookMachine eps).step s.run .tick = some run →
      MatchingStep eps s
        { s with run, matching := if run.pc = .idle then .waitBatch else .matching }
  | start {s l tradedOrder} : s.matching = .matching →
      loopStep eps s.run.loop = some (l, some tradedOrder) →
      MatchingStep eps s { s with matching := .committing tradedOrder .claim }
  | put {s tradedOrder put traded put'} : s.matching = .committing tradedOrder put →
      s.traded.putStep ringSize s.pubGet tradedOrder put = (traded, some put') →
      MatchingStep eps s { s with traded, matching := .committing tradedOrder put' }
  | committed {s tradedOrder put traded run} : s.matching = .committing tradedOrder put →
      s.traded.putStep ringSize s.pubGet tradedOrder put = (traded, none) →
      (bookMachine eps).step s.run .tick = some run →
      MatchingStep eps s { s with traded, run, matching := .matching }

theorem matchingStep_cases {s s' : Service} (h : s.matchingStep eps = some s') :
    MatchingStep eps s s' := by
  unfold Service.matchingStep at h
  split at h
  · rename_i hpc
    unfold L3.claimBatch at h
    split at h
    · cases h
      exact .spin hpc
    · rename_i last hlast
      cases h
      split at hlast
      · cases hlast
      · rename_i hlt
        cases hlast
        exact .take hpc (Nat.lt_of_not_le hlt)
  · rename_i index last hpc
    split at h
    · rename_i heq
      obtain ⟨run, hrun, rfl⟩ := Option.map_eq_some_iff.mp h
      exact .call (heq ▸ hpc) hrun
    · rename_i hne
      obtain ⟨run, hrun, rfl⟩ := Option.map_eq_some_iff.mp h
      exact .add hpc hne hrun
  · rename_i hpc
    split at h
    · cases h
    · rename_i l tradedOrder hl
      cases h
      exact .start hpc hl
    · rename_i l hl
      obtain ⟨run, hrun, rfl⟩ := Option.map_eq_some_iff.mp h
      exact .loop hpc hl hrun
  · rename_i tradedOrder put hpc
    split at h
    · rename_i traded put' hput
      cases h
      exact .put hpc hput
    · rename_i traded hput
      obtain ⟨run, hrun, rfl⟩ := Option.map_eq_some_iff.mp h
      exact .committed hpc hput hrun

/-- What the request thread leaves to the matching thread. -/
structure SameMatching (s s' : Service) : Prop where
  run : s'.run = s.run
  ordersGet : s'.ordersGet = s.ordersGet
  traded : s'.traded = s.traded
  pubGet : s'.pubGet = s.pubGet
  matching : s'.matching = s.matching

/-- A step of the process is one of the matching thread, or leaves its state alone. -/
theorem serviceStep_cases {s s' : Service} {e : ServiceEvent}
    (h : (serviceMachine nt eps blank blankTrade).step s e = some s') :
    s.alive = true ∧
      ((e = .matchingStep ∧ MatchingStep eps s s') ∨ (e ≠ .matchingStep ∧ SameMatching s s')) := by
  change serviceStep nt eps s e = some s' at h
  unfold serviceStep at h
  split at h
  · rename_i halive
    refine ⟨halive, ?_⟩
    cases e with
    | matchingStep => exact .inl ⟨rfl, matchingStep_cases h⟩
    | receive request =>
      refine .inr ⟨ServiceEvent.noConfusion, ?_⟩
      simp only [Service.receive] at h
      split at h
      · cases h
      · split at h <;> cases h <;> exact ⟨rfl, rfl, rfl, rfl, rfl⟩
    | requestStep =>
      refine .inr ⟨ServiceEvent.noConfusion, ?_⟩
      simp only [Service.requestStep] at h
      split at h
      · cases h
      · split at h <;> cases h <;> exact ⟨rfl, rfl, rfl, rfl, rfl⟩
  · cases h

/-- The book of the service is a book. -/
theorem MatchingStep.run {s s' : Service} (h : MatchingStep eps s s') :
    (bookMachine eps).Reaches s.run s'.run := by
  cases h with
  | spin | take | start | put => exact .refl _
  | add _ _ hrun => exact .single hrun
  | call _ hrun => exact .single hrun
  | loop _ _ hrun => exact .single hrun
  | committed _ _ hrun => exact .single hrun

theorem service_reaches {s s' : Service}
    (h : (serviceMachine nt eps blank blankTrade).Reaches s s') :
    (bookMachine eps).Reaches s.run s'.run := by
  refine h.preserves (P := fun u => (bookMachine eps).Reaches s.run u.run) ?_ (.refl _)
  intro u e v hu hstep
  obtain ⟨-, ⟨-, hm⟩ | ⟨-, hsame⟩⟩ := serviceStep_cases hstep
  · exact hu.trans hm.run
  · rw [hsame.run]
    exact hu

theorem service_run {s : Service} (h : (serviceMachine nt eps blank blankTrade).Reachable s) :
    (bookMachine eps).Reachable s.run :=
  service_reaches h

end TradingMarket
