import TradingMarket.CommitWait
import TradingMarket.L3.Pipeline
import TradingMarket.MatchOrderBook

/-! # The service runs its batches

Whatever the interleaving of its two threads, the service does what a sequential
program would: the orders of the requests received go through the book in the
order of their arrival, each of them once, cut into batches that are not empty,
and `match()` is called once for each batch (`service_serves`). Where the
batches are cut is all that the interleaving decides, and for a uniform stream
it does not matter (`interleaving_irrelevant`). -/
namespace TradingMarket

open Lib (Machine)
open L3 (Get GetPc PutPc)

variable {nt : NumberText ℚ} {eps : ℚ} {blank : Order ℚ} {blankTrade : TradedOrder Unit}

/-- Orders as the book holds them. -/
def bookOrders (orders : List (Order ℚ)) : List (BookOrder Unit) := orders.map fun o => ⟨o, ()⟩

/-- The orders of the requests in a schedule. -/
def received (nt : NumberText ℚ) (es : List ServiceEvent) : List (Order ℚ) :=
  (requests es).filterMap fun request => ofTokens nt (tokens request)

@[simp] theorem bookOrders_append (l r : List (Order ℚ)) :
    bookOrders (l ++ r) = bookOrders l ++ bookOrders r := List.map_append

theorem received_concat (es : List ServiceEvent) (e : ServiceEvent) :
    received nt (es ++ [e]) = received nt es ++ received nt [e] := by
  simp [received, requests]

/-! ## The order ring of the service -/

/-- The `Put` the request thread is in. -/
def RequestPc.put : RequestPc → Option (Order ℚ × PutPc)
  | .receiving => none
  | .putting order put => some (order, put)

/-- Where the matching thread is in the loop over a batch. -/
def MatchingPc.get : MatchingPc → GetPc
  | .batch index last => .batch index last
  | _ => .waitBatch

/-- `MATCH_ORDER_BOOK_GET`. -/
def Service.get (s : Service) : Get := ⟨s.ordersGet, s.matching.get⟩

/-- The ways the request thread moves. -/
inductive RequestStep (nt : NumberText ℚ) (s : Service) : ServiceEvent → Service → Prop
  | parsed {request order} : s.request = .receiving → ofTokens nt (tokens request) = some order →
      RequestStep nt s (.receive request)
        { s with orderTemplate := order, request := .putting order .claim }
  | dies {request order} : s.request = .receiving → ofTokens nt (tokens request) = none →
      RequestStep nt s (.receive request) { s with orderTemplate := order, alive := false }
  | put {order put orders put'} : s.request = .putting order put →
      L3.PutStep ringSize s.ordersGet order s.orders put orders (some put') →
      RequestStep nt s .requestStep { s with orders, request := .putting order put' }
  | committed {order put orders} : s.request = .putting order put →
      L3.PutStep ringSize s.ordersGet order s.orders put orders none →
      RequestStep nt s .requestStep { s with orders, request := .receiving }

theorem receive_cases {s s' : Service} {request : Text} (h : s.receive nt request = some s') :
    RequestStep nt s (.receive request) s' := by
  unfold Service.receive at h
  split at h
  · cases h
  · rename_i hreceiving
    split at h
    · rename_i order hparse
      cases h
      exact .parsed hreceiving (fromCmdStr_ok.mp hparse)
    · rename_i failure order hparse
      cases h
      refine .dies hreceiving (Option.eq_none_iff_forall_ne_some.mpr fun o ho => ?_)
      rw [fromCmdStr_ok.mpr ho] at hparse
      cases hparse

theorem requestStep_cases {s s' : Service} (h : s.requestStep = some s') :
    RequestStep nt s .requestStep s' := by
  unfold Service.requestStep at h
  split at h
  · cases h
  · rename_i order put hputting
    split at h
    · rename_i hstep
      cases h
      exact .put hputting (L3.putStep_cases hstep)
    · rename_i hstep
      cases h
      exact .committed hputting (L3.putStep_cases hstep)

/-- The ways the process moves. -/
theorem threads_cases {s s' : Service} {e : ServiceEvent}
    (h : (serviceMachine nt eps blank blankTrade).step s e = some s') :
    s.alive = true ∧ ((e = .matchingStep ∧ MatchingStep eps s s') ∨ RequestStep nt s e s') := by
  change serviceStep nt eps s e = some s' at h
  unfold serviceStep at h
  split at h
  · rename_i halive
    refine ⟨halive, ?_⟩
    cases e with
    | matchingStep => exact .inl ⟨rfl, matchingStep_cases h⟩
    | receive request => exact .inr (receive_cases h)
    | requestStep => exact .inr (requestStep_cases h)
  · cases h

/-- The order an event of the book adds. -/
def BookEvent.order : BookEvent Unit → Option (BookOrder Unit)
  | .addOrder o => some o
  | .callMatch | .tick => none

theorem added_run {run run' : BookRun Unit} {e : BookEvent Unit}
    (h : (bookMachine eps).step run e = some run') : run'.added = run.added ++ e.order.toList := by
  cases bookStep_cases h with
  | addOrder => rfl
  | callMatch | tick => exact (List.append_nil _).symm

/-- What a step of the matching thread is to the order ring: a step of its `Get`,
which hands the orders it takes to the book. -/
theorem MatchingStep.get {s s' : Service} (h : MatchingStep eps s s') :
    ∃ taken : Option (Order ℚ), L3.GetStep ringSize s.orders.cursor s.orders s.get s'.get taken ∧
      s'.run.added = s.run.added ++ bookOrders taken.toList ∧ s'.orders = s.orders ∧
        s'.request = s.request ∧ s'.alive = s.alive := by
  have hspin : ∀ {u : Service}, u.get = s.get →
      L3.GetStep ringSize s.orders.cursor s.orders s.get u.get none := fun hget => hget ▸ .spin
  cases h with
  | spin hpc => exact ⟨none, hspin rfl, (List.append_nil _).symm, rfl, rfl, rfl⟩
  | take hpc hlt =>
    refine ⟨none, ?_, (List.append_nil _).symm, rfl, rfl, rfl⟩
    exact .take (congrArg MatchingPc.get hpc) hlt
  | @add index last run hpc hne hrun =>
    refine ⟨some (s.orders.read ringSize index), ?_, ?_, rfl, rfl, rfl⟩
    · exact .handle (congrArg MatchingPc.get hpc) hne
    · exact added_run hrun
  | @call last run hpc hrun =>
    refine ⟨none, ?_, added_run hrun, rfl, rfl, rfl⟩
    exact .release (congrArg MatchingPc.get hpc)
  | @loop l run hpc hl hrun =>
    refine ⟨none, hspin ?_, added_run hrun, rfl, rfl, rfl⟩
    simp only [Service.get, hpc]
    split <;> rfl
  | start hpc =>
    refine ⟨none, hspin ?_, (List.append_nil _).symm, rfl, rfl, rfl⟩
    simp only [Service.get, hpc]
    rfl
  | put hpc =>
    refine ⟨none, hspin ?_, (List.append_nil _).symm, rfl, rfl, rfl⟩
    simp only [Service.get, hpc]
    rfl
  | committed hpc _ hrun =>
    refine ⟨none, hspin ?_, added_run hrun, rfl, rfl, rfl⟩
    simp only [Service.get, hpc]
    rfl

/-- The request thread has put `put` on the order ring, and the book has got a part
of that from its front. -/
structure Service.Fed (put : List (Order ℚ)) (s : Service) : Prop where
  ring : s.orders.Keeps ringSize s.ordersGet put s.request.put
  get : s.get.Follows ringSize s.orders.cursor put (s.run.added.map BookOrder.toOrder)

theorem fed_start : (Service.start blank blankTrade).Fed [] :=
  ⟨L3.keeps_new blank, L3.follows_new [] le_rfl⟩

theorem toOrder_bookOrders (orders : List (Order ℚ)) :
    (bookOrders orders).map BookOrder.toOrder = orders := by
  unfold bookOrders
  rw [List.map_map]
  exact List.map_id orders

theorem Service.Fed.matching {put : List (Order ℚ)} {s s' : Service} (h : s.Fed put)
    (hs : MatchingStep eps s s') : s'.Fed put := by
  obtain ⟨taken, hget, hadded, horders, hrequest, -⟩ := hs.get
  have hahead : s.ordersGet ≤ ringSize + (s.run.added.map BookOrder.toOrder).length := by
    rw [h.get.count]
    exact h.get.begun
  have hfollows := h.get.step h.ring.cursor.le (fun o ho => h.ring.held _ o ho hahead) hget
  have hmoved : s.ordersGet ≤ s'.ordersGet := hget.cursor_le h.get
  have hbound : s'.ordersGet ≤ s.orders.cursor := hfollows.cursor_le
  refine ⟨?_, ?_⟩
  · rw [horders, hrequest]
    exact h.ring.mono hmoved hbound
  · rw [horders, hadded, List.map_append, toOrder_bookOrders]
    exact hfollows

/-- What a step of the request thread puts on the order ring, with what it is then
still putting, is what it had and what it is given. -/
theorem Service.Fed.request {put : List (Order ℚ)} {s s' : Service} {e : ServiceEvent}
    (h : s.Fed put) (hs : RequestStep nt s e s') :
    ∃ put', s'.Fed put' ∧ s'.run = s.run ∧
      put' ++ (s'.request.put.map Prod.fst).toList =
        put ++ (s.request.put.map Prod.fst).toList ++ received nt [e] := by
  obtain ⟨hring, hget⟩ := h
  cases hs with
  | @parsed request order hreceiving hparse =>
    rw [hreceiving] at hring
    refine ⟨put, ⟨hring.call order, hget⟩, rfl, ?_⟩
    simp [RequestPc.put, hreceiving, received, requests, hparse]
  | @dies request order hreceiving hparse =>
    refine ⟨put, ⟨hring, hget⟩, rfl, ?_⟩
    simp [RequestPc.put, hreceiving, received, requests, hparse]
  | @put order pc orders pc' hputting hstep =>
    rw [hputting] at hring
    have hring' := hring.step hstep
    have hsame : s.orders.cursor ≤ orders.cursor := by rw [hring.cursor, hring'.cursor]
    refine ⟨put, ⟨hring', hget.mono hsame List.prefix_rfl⟩, rfl, ?_⟩
    simp [RequestPc.put, hputting, received, requests]
  | @committed order pc orders hputting hstep =>
    rw [hputting] at hring
    have hring' := hring.commit hstep
    have hmore : s.orders.cursor ≤ orders.cursor := by
      rw [hring.cursor, hring'.cursor, List.length_append]
      omega
    refine ⟨put ++ [order], ⟨hring', hget.mono hmore (List.prefix_append _ _)⟩, rfl, ?_⟩
    simp [RequestPc.put, hputting, received, requests]

/-- In every run the orders received are those put on the order ring and the one
that is being put. -/
theorem service_fed {es : List ServiceEvent} {s : Service}
    (h : (serviceMachine nt eps blank blankTrade).exec
      (serviceMachine nt eps blank blankTrade).start es = some s) :
    ∃ put, s.Fed put ∧ put ++ (s.request.put.map Prod.fst).toList = received nt es := by
  induction es using List.reverseRecOn generalizing s with
  | nil =>
    cases h
    exact ⟨[], fed_start, rfl⟩
  | append_singleton es e ih =>
    rw [Machine.exec_concat] at h
    obtain ⟨u, hu, hstep⟩ := Option.bind_eq_some_iff.mp h
    obtain ⟨put, hfed, hput⟩ := ih hu
    rw [received_concat, ← hput]
    obtain ⟨-, ⟨rfl, hm⟩ | hr⟩ := threads_cases hstep
    · refine ⟨put, hfed.matching hm, ?_⟩
      obtain ⟨-, -, -, -, hrequest, -⟩ := hm.get
      rw [hrequest]
      exact (List.append_nil _).symm
    · obtain ⟨put', hfed', -, hput'⟩ := hfed.request hr
      exact ⟨put', hfed', hput'⟩

/-! ## One batch after the other -/

/-- `match()` is called. -/
def BookRun.calling (s : BookRun Unit) : BookRun Unit := { s with loop := ⟨s.book, .outer 0⟩ }

section Model
variable (eps : ℚ)

/-- The book as a sequential program has it that has run the batches and filled in
the orders of one more. -/
def filledBook (batches : List (List (Order ℚ))) (batch : List (Order ℚ)) : BookRun Unit :=
  (bookOrders batch).foldl (BookRun.add eps) (matchBatches eps (batches.map bookOrders))

/-- What the book of the service is when the batches before are done and `batch` is
what it has got of the next one. -/
def Service.AtBatch (batches : List (List (Order ℚ))) (batch : List (Order ℚ)) (s : Service) :
    Prop :=
  match s.matching with
  | .waitBatch => batch = [] ∧ s.run = matchBatches eps (batches.map bookOrders)
  | .batch index last =>
    s.ordersGet + batch.length = index ∧ s.ordersGet < last ∧ s.run = filledBook eps batches batch
  | .matching | .committing _ _ =>
    batch ≠ [] ∧ (bookMachine eps).Repeats .tick (filledBook eps batches batch).calling s.run

/-- The service has run the batches, none of them empty, and is at the next one. -/
structure Service.Serves (batches : List (List (Order ℚ))) (batch : List (Order ℚ))
    (s : Service) : Prop where
  nonempty : ∀ b ∈ batches, b ≠ []
  added : s.run.added = bookOrders (batches.flatten ++ batch)
  place : s.AtBatch eps batches batch

end Model

theorem add_run {run run' : BookRun Unit} {o : BookOrder Unit}
    (h : (bookMachine eps).step run (.addOrder o) = some run') : run' = run.add eps o := by
  cases bookStep_cases h
  rfl

theorem calling_run {run run' : BookRun Unit}
    (h : (bookMachine eps).step run .callMatch = some run') : run' = run.calling := by
  cases bookStep_cases h
  rfl

/-- By ticks `match()` returns what the whole call leaves. -/
theorem calling_settles (run : BookRun Unit) :
    (bookMachine eps).Repeats .tick run.calling (run.settle eps) :=
  exec_of_loopRuns (loop_runs run.book) run.added run.committed

theorem filledBook_concat (batches : List (List (Order ℚ))) (batch : List (Order ℚ)) (o : Order ℚ) :
    filledBook eps batches (batch ++ [o]) = (filledBook eps batches batch).add eps ⟨o, ()⟩ := by
  unfold filledBook
  rw [bookOrders_append, List.foldl_append]
  rfl

theorem filledBook_settle (batches : List (List (Order ℚ))) (batch : List (Order ℚ)) :
    (filledBook eps batches batch).settle eps =
      matchBatches eps ((batches ++ [batch]).map bookOrders) := by
  rw [List.map_append, matchBatches, List.foldl_append]
  rfl

theorem Service.Serves.start : (Service.start blank blankTrade).Serves eps [] [] :=
  ⟨fun _ hb => (List.not_mem_nil hb).elim, rfl, rfl, rfl⟩

/-- A tick of `match()` ends the batch or leaves the service in it. -/
theorem Service.Serves.tick {batches : List (List (Order ℚ))} {batch : List (Order ℚ)}
    {s s' : Service} (hnonempty : ∀ b ∈ batches, b ≠ [])
    (hadded : s.run.added = bookOrders (batches.flatten ++ batch)) (hbatch : batch ≠ [])
    (hticks : (bookMachine eps).Repeats .tick (filledBook eps batches batch).calling s.run)
    (hrun : (bookMachine eps).step s.run .tick = some s'.run)
    (hpc : s'.matching = if s'.run.pc = .idle then .waitBatch else .matching) :
    ∃ batches' batch', s'.Serves eps batches' batch' := by
  have hadded' : s'.run.added = bookOrders (batches.flatten ++ batch) := by
    rw [added_run hrun, hadded]
    exact List.append_nil _
  obtain ⟨n, hn⟩ := hticks
  have hn' : (bookMachine eps).exec (filledBook eps batches batch).calling
      (List.replicate (n + 1) .tick) = some s'.run := by
    rw [List.replicate_succ', Machine.exec_concat, hn, Option.bind_some, hrun]
  by_cases hidle : s'.run.pc = .idle
  · rw [if_pos hidle] at hpc
    obtain ⟨m, hm⟩ := @calling_settles eps (filledBook eps batches batch)
    have hsettled : s'.run = matchBatches eps ((batches ++ [batch]).map bookOrders) :=
      (ticks_unique hn' hidle hm rfl).trans (filledBook_settle batches batch)
    refine ⟨batches ++ [batch], [], fun b hb => ?_, ?_, ?_⟩
    · rcases List.mem_append.mp hb with hb | hb
      · exact hnonempty b hb
      · rw [List.mem_singleton.mp hb]
        exact hbatch
    · simpa using hadded'
    · unfold Service.AtBatch
      rw [hpc]
      exact ⟨rfl, hsettled⟩
  · rw [if_neg hidle] at hpc
    refine ⟨batches, batch, hnonempty, hadded', ?_⟩
    unfold Service.AtBatch
    rw [hpc]
    exact ⟨hbatch, n + 1, hn'⟩

theorem Service.Serves.step {batches : List (List (Order ℚ))} {batch : List (Order ℚ)}
    {s s' : Service} (h : s.Serves eps batches batch) (hs : MatchingStep eps s s') :
    ∃ batches' batch', s'.Serves eps batches' batch' := by
  obtain ⟨hnonempty, hadded, hplace⟩ := h
  unfold Service.AtBatch at hplace
  cases hs with
  | spin hpc =>
    refine ⟨batches, batch, hnonempty, hadded, ?_⟩
    unfold Service.AtBatch
    rw [hpc] at hplace ⊢
    exact hplace
  | take hpc hlt =>
    rw [hpc] at hplace
    obtain ⟨rfl, hrun⟩ := hplace
    exact ⟨batches, [], hnonempty, hadded, rfl, hlt, hrun⟩
  | @add index last run hpc hne hrun =>
    rw [hpc] at hplace
    obtain ⟨hindex, hlast, hfilled⟩ := hplace
    refine ⟨batches, batch ++ [s.orders.read ringSize index], hnonempty, ?_, ?_, hlast, ?_⟩
    · rw [added_run hrun, hadded, ← List.append_assoc, bookOrders_append _ [_]]
      rfl
    · rw [List.length_append, ← Nat.add_assoc, hindex]
      rfl
    · rw [filledBook_concat, ← hfilled]
      exact add_run hrun
  | @call last run hpc hrun =>
    rw [hpc] at hplace
    obtain ⟨hindex, hlast, hfilled⟩ := hplace
    refine ⟨batches, batch, hnonempty, ?_, ?_, ?_⟩
    · rw [added_run hrun, hadded]
      exact List.append_nil _
    · rintro rfl
      exact absurd hindex hlast.ne
    · rw [← hfilled, ← calling_run hrun]
      exact .refl _ _
  | @loop l run hpc hl hrun =>
    rw [hpc] at hplace
    exact Service.Serves.tick hnonempty hadded hplace.1 hplace.2 hrun rfl
  | start hpc =>
    rw [hpc] at hplace
    exact ⟨batches, batch, hnonempty, hadded, hplace⟩
  | put hpc =>
    rw [hpc] at hplace
    exact ⟨batches, batch, hnonempty, hadded, hplace⟩
  | @committed t put traded run hpc hput hrun =>
    rw [hpc] at hplace
    obtain ⟨hbatch, n, hn⟩ := hplace
    refine ⟨batches, batch, hnonempty, ?_, hbatch, n + 1, ?_⟩
    · rw [added_run hrun, hadded]
      exact List.append_nil _
    · rw [List.replicate_succ', Machine.exec_concat, hn, Option.bind_some, hrun]

theorem service_batches {s : Service} (h : (serviceMachine nt eps blank blankTrade).Reachable s) :
    ∃ batches batch, s.Serves eps batches batch := by
  induction h using Machine.Reachable.induct with
  | start => exact ⟨[], [], .start⟩
  | step s e s' _ hstep ih =>
    obtain ⟨batches, batch, hserves⟩ := ih
    obtain ⟨-, ⟨-, hm⟩ | ⟨-, hsame⟩⟩ := serviceStep_cases hstep
    · exact hserves.step hm
    · obtain ⟨hnonempty, hadded, hplace⟩ := hserves
      refine ⟨batches, batch, hnonempty, hsame.run ▸ hadded, ?_⟩
      unfold Service.AtBatch at hplace ⊢
      rw [hsame.run, hsame.ordersGet, hsame.matching]
      exact hplace

/-- In every interleaving of the two threads the service has run some batches, none
of them empty, as the sequential program does, and is at the next one; together
they are the orders received, in the order of their arrival. The orders that
follow are in their slots of the ring, but for one that is being put there. -/
theorem service_serves {es : List ServiceEvent} {s : Service}
    (h : (serviceMachine nt eps blank blankTrade).exec
      (serviceMachine nt eps blank blankTrade).start es = some s) :
    ∃ batches batch, s.Serves eps batches batch ∧ batches.flatten ++ batch <+: received nt es ∧
      ∀ k order, (received nt es)[k]? = some order → (batches.flatten ++ batch).length ≤ k →
        s.orders.read ringSize (ringSize + k) = order ∨
          ∃ put, s.request = .putting order put ∧ k + 1 = (received nt es).length := by
  obtain ⟨put, hfed, hput⟩ := service_fed h
  obtain ⟨batches, batch, hserves⟩ := service_batches ⟨es, h⟩
  have hadded : s.run.added.map BookOrder.toOrder = batches.flatten ++ batch := by
    rw [hserves.added, toOrder_bookOrders]
  have hprefix : batches.flatten ++ batch <+: put := hadded ▸ hfed.get.order
  refine ⟨batches, batch, hserves, hprefix.trans (hput ▸ List.prefix_append _ _), ?_⟩
  intro k order hk hle
  rw [← hput] at hk ⊢
  rcases Nat.lt_or_ge k put.length with hlt | hge
  · rw [List.getElem?_append_left hlt] at hk
    have hbehind : s.ordersGet ≤ ringSize + (batches.flatten ++ batch).length := by
      rw [← hadded, hfed.get.count]
      exact hfed.get.begun
    exact .inl (hfed.ring.held k order hk (by omega))
  · rw [List.getElem?_append_right hge] at hk
    cases hrequest : s.request with
    | receiving =>
      rw [hrequest] at hk
      cases hk
    | putting o pc =>
      rw [hrequest] at hk
      obtain ⟨hlen, ho⟩ := List.getElem?_eq_some_iff.mp hk
      refine .inr ⟨pc, ?_, ?_⟩
      · simp only [RequestPc.put, Option.map_some, Option.toList_some, List.getElem_singleton] at ho
        rw [ho]
      · simp only [RequestPc.put, Option.map_some, Option.toList_some, List.length_singleton] at hlen
        simp only [RequestPc.put, Option.map_some, Option.toList_some, List.length_append,
          List.length_singleton]
        omega

/-- An ask and a bid that are put on the ring before the matching thread looks at
it are one batch. -/
theorem one_pair_served :
    ∃ s batches batch, (serviceMachine rationalText epsilon emptyOrder emptyTrade).exec
      (serviceMachine rationalText epsilon emptyOrder emptyTrade).start onePair = some s ∧
      (s.run.added.length, s.run.committed.length) = (2, 1) ∧
      s.Serves epsilon batches batch ∧ batches.flatten ++ batch <+: received rationalText onePair := by
  have hrun : ((serviceMachine rationalText epsilon emptyOrder emptyTrade).exec
      (serviceMachine rationalText epsilon emptyOrder emptyTrade).start onePair).map
        (fun s => (s.run.added.length, s.run.committed.length)) = some (2, 1) := by
    decide +kernel
  obtain ⟨s, hs, hcounts⟩ := Option.map_eq_some_iff.mp hrun
  obtain ⟨batches, batch, hserves, hprefix, -⟩ := service_serves hs
  exact ⟨s, batches, batch, hs, hcounts, hserves, hprefix⟩

/-! ## At rest -/

theorem Service.Fed.atRest {put : List (Order ℚ)} {s : Service} (h : s.Fed put) (hrest : s.AtRest) :
    s.run.added.map BookOrder.toOrder = put := by
  refine h.get.order.eq_of_length ?_
  have hcount := h.get.count
  have hcursor := h.ring.cursor
  have hindex : s.get.index = s.ordersGet := by
    unfold Service.get Get.index
    rw [hrest.matching]
    rfl
  rw [hindex, ← hrest.cursor, hcursor] at hcount
  exact Nat.add_left_cancel hcount

/-- A service at rest has run all the orders received. -/
theorem atRest_served {es : List ServiceEvent} {s : Service}
    (h : (serviceMachine nt eps blank blankTrade).exec
      (serviceMachine nt eps blank blankTrade).start es = some s) (hrest : s.AtRest) :
    ∃ batches : List (List (Order ℚ)), (∀ b ∈ batches, b ≠ []) ∧
      batches.flatten = received nt es ∧ s.run = matchBatches eps (batches.map bookOrders) := by
  obtain ⟨put, hfed, hput⟩ := service_fed h
  obtain ⟨batches, batch, hnonempty, hadded, hplace⟩ := service_batches ⟨es, h⟩
  unfold Service.AtBatch at hplace
  rw [hrest.matching] at hplace
  obtain ⟨rfl, hrun⟩ := hplace
  refine ⟨batches, hnonempty, ?_, hrun⟩
  rw [← hput, hrest.request, ← hfed.atRest hrest, hadded, toOrder_bookOrders]
  simp [RequestPc.put]

/-- A uniform stream in batches comes to what it comes to at once. -/
theorem matchBatches_uniform (heps : 0 < eps) {batches : List (List (BookOrder Unit))}
    (h : Uniform eps batches.flatten) :
    matchBatches eps batches = (batches.flatten.foldl (BookRun.add eps) {}).settle eps := by
  refine Lib.runBatches_defer rfl fun before batch hprefix => ?_
  exact settle_defer heps (h.sublist hprefix.sublist)

theorem bookOrders_flatten (batches : List (List (Order ℚ))) :
    (batches.map bookOrders).flatten = bookOrders batches.flatten := by
  rw [bookOrders, List.map_flatten]
  rfl

/-- When the orders received are a uniform stream, the book of a service at rest and
the trades it has committed are those of one batch of all of them, whatever the
interleaving was. -/
theorem interleaving_irrelevant (heps : 0 < eps) {es : List ServiceEvent} {s : Service}
    (h : (serviceMachine nt eps blank blankTrade).exec
      (serviceMachine nt eps blank blankTrade).start es = some s) (hrest : s.AtRest)
    (huniform : Uniform eps (bookOrders (received nt es))) :
    s.run = matchBatches eps [bookOrders (received nt es)] := by
  obtain ⟨batches, -, hflatten, hrun⟩ := atRest_served h hrest
  have hstream : (batches.map bookOrders).flatten = bookOrders (received nt es) := by
    rw [bookOrders_flatten, hflatten]
  rw [hrun, matchBatches_uniform heps (hstream ▸ huniform), hstream]
  rfl

/-- An ask and a bid that trade are a uniform stream. -/
theorem pair_uniform : Uniform epsilon (bookOrders [marketAsk, marketBid]) := by
  refine ⟨?_, ?_, ?_⟩
  · unfold AllOpen
    decide +kernel
  · unfold ArrivesRanked
    decide +kernel
  · unfold AllEligible
    decide +kernel

theorem one_pair_at_once :
    ∃ s, (serviceMachine rationalText epsilon emptyOrder emptyTrade).exec
      (serviceMachine rationalText epsilon emptyOrder emptyTrade).start onePair = some s ∧
      s.run = matchBatches epsilon [bookOrders (received rationalText onePair)] := by
  have hrun : ((serviceMachine rationalText epsilon emptyOrder emptyTrade).exec
      (serviceMachine rationalText epsilon emptyOrder emptyTrade).start onePair).map
        (fun s => (s.alive, s.request, s.matching, s.orders.cursor, s.orders.putCursor, s.ordersGet)) =
      some (true, .receiving, .waitBatch, ringSize + 2, ringSize + 2, ringSize + 2) := by
    decide +kernel
  obtain ⟨s, hs, hstate⟩ := Option.map_eq_some_iff.mp hrun
  obtain ⟨halive, hrequest, hmatching, hcursor, hput, hget⟩ := by simpa using hstate
  have hrest : s.AtRest := ⟨halive, hrequest, hmatching, hcursor.trans hget.symm,
    hput.trans hget.symm, hget ▸ Nat.le_add_right _ _⟩
  have hreceived : received rationalText onePair = [marketAsk, marketBid] := by decide +kernel
  exact ⟨s, hs, interleaving_irrelevant epsilon_pos hs hrest (hreceived ▸ pair_uniform)⟩

end TradingMarket
