import TradingMarket.L3.Progress
import TradingMarket.Lib.Fair
import TradingMarket.MatchBounds
import TradingMarket.Serving

/-! # The service comes to rest

Both threads of the service wait by spinning, each for a cursor the other one
moves, and `match()` waits for a cursor nobody moves. Still, as long as the
orders received are at most one more than the traded-order ring has slots, the
service comes to rest under every fair schedule of its threads, with all orders
received in the book and nothing on the order ring (`service_comes_to_rest`):
every step that is not a spin gets something done, and while there is something
left one of the threads does not spin. -/
namespace TradingMarket

open Lib (Machine Fair)
open L3 (PutPc)

variable {nt : NumberText ℚ} {eps : ℚ} {blank : Order ℚ} {blankTrade : TradedOrder Unit}

/-! ## What is left to do -/

def RequestPc.left : RequestPc → Nat
  | .receiving => 0
  | .putting _ put => put.left

/-- How far the matching thread is from adding the next order. -/
def MatchingPc.phase : MatchingPc → Nat
  | .batch index last => if index = last then 3 else 0
  | .matching | .committing _ _ => 2
  | .waitBatch => 1

/-- How far `match()` is from its next tick. -/
def MatchingPc.left : MatchingPc → Nat
  | .matching => 5
  | .committing _ put => put.left
  | .waitBatch | .batch _ _ => 0

/-- The loop tests `match()` has before it, and the orders it may still use up. -/
def Loop.left (eps : ℚ) (l : Loop Unit) : Nat := l.tests + (l.book.size - l.spent eps)

/-- What the service has left to do when `n` orders have been received. -/
def Service.left (eps : ℚ) (n : Nat) (s : Service) : ℕ ×ₗ ℕ ×ₗ ℕ ×ₗ ℕ ×ₗ ℕ :=
  toLex (s.request.left, toLex (n - s.run.added.length, toLex (s.matching.phase,
    toLex (s.run.loop.left eps, s.matching.left))))

theorem spent_le_size (l : Loop Unit) : l.spent eps ≤ l.book.size := by
  unfold Loop.spent
  split
  · split
    · rename_i i j hpc hany
      have hne : l.book.asks ≠ [] := by
        rintro hnil
        rw [hnil] at hany
        cases hany
      have hpos := List.length_pos_of_ne_nil hne
      unfold OrderBook.size
      omega
    · exact Nat.zero_le _
  · exact Nat.zero_le _

/-- Every tick of `match()` gets something done. -/
theorem LoopStep.left (heps : 0 < eps) {l l' : Loop Unit} {t : Option (TradedOrder Unit)}
    (h : LoopStep eps l t l') : l'.left eps < l.left eps := by
  have hsize := h.size heps
  have htests := h.tests
  have hspent := @spent_le_size eps l
  have hspent' := @spent_le_size eps l'
  unfold Loop.left
  cases t with
  | none =>
    simp only [Option.toList_none, List.length_nil] at hsize htests
    omega
  | some t =>
    simp only [Option.toList_some, List.length_singleton] at hsize htests
    omega

theorem tick_left (heps : 0 < eps) {run run' : BookRun Unit}
    (h : (bookMachine eps).step run .tick = some run') : run'.loop.left eps < run.loop.left eps := by
  cases bookStep_cases h with
  | tick hl => exact hl.left heps

section Less
variable {s s' : Service} {n : Nat}

theorem left_lt_of_request (h : s'.request.left < s.request.left) : s'.left eps n < s.left eps n :=
  Prod.Lex.toLex_lt_toLex.mpr (.inl h)

theorem left_lt_of_added (hrequest : s'.request = s.request)
    (h : n - s'.run.added.length < n - s.run.added.length) : s'.left eps n < s.left eps n :=
  Prod.Lex.toLex_lt_toLex.mpr (.inr ⟨congrArg RequestPc.left hrequest,
    Prod.Lex.toLex_lt_toLex.mpr (.inl h)⟩)

theorem left_lt_of_phase (hrequest : s'.request = s.request) (hadded : s'.run.added = s.run.added)
    (h : s'.matching.phase < s.matching.phase) : s'.left eps n < s.left eps n :=
  Prod.Lex.toLex_lt_toLex.mpr (.inr ⟨congrArg RequestPc.left hrequest,
    Prod.Lex.toLex_lt_toLex.mpr (.inr ⟨congrArg (n - List.length ·) hadded,
      Prod.Lex.toLex_lt_toLex.mpr (.inl h)⟩)⟩)

theorem left_lt_of_match (hrequest : s'.request = s.request) (hadded : s'.run.added = s.run.added)
    (hphase : s'.matching.phase = s.matching.phase)
    (h : s'.run.loop.left eps < s.run.loop.left eps ∨
      (s'.run.loop = s.run.loop ∧ s'.matching.left < s.matching.left)) :
    s'.left eps n < s.left eps n :=
  Prod.Lex.toLex_lt_toLex.mpr (.inr ⟨congrArg RequestPc.left hrequest,
    Prod.Lex.toLex_lt_toLex.mpr (.inr ⟨congrArg (n - List.length ·) hadded,
      Prod.Lex.toLex_lt_toLex.mpr (.inr ⟨hphase,
        Prod.Lex.toLex_lt_toLex.mpr (h.imp_right fun h => ⟨congrArg (Loop.left eps) h.1, h.2⟩)⟩)⟩)⟩)

end Less

theorem tick_added {run run' : BookRun Unit} (h : (bookMachine eps).step run .tick = some run') :
    run'.added = run.added :=
  (added_run h).trans (List.append_nil _)

/-! ## A step gets something done, or waits -/

theorem RequestStep.left {s s' : Service} {n : Nat} (h : RequestStep nt s .requestStep s') :
    s' = s ∨ s'.left eps n < s.left eps n := by
  cases h with
  | @put order put orders put' hputting hstep =>
    rcases hstep.left with ⟨rfl, rfl⟩ | hless
    · left
      rw [← hputting]
    · refine .inr (left_lt_of_request ?_)
      rw [hputting]
      exact hless
  | @committed order put orders hputting hstep =>
    refine .inr (left_lt_of_request ?_)
    rw [hputting]
    exact put.left_pos

theorem MatchingStep.left (heps : 0 < eps) {s s' : Service} {n : Nat} (h : MatchingStep eps s s')
    (hn : s'.run.added.length ≤ n) : s' = s ∨ s'.left eps n < s.left eps n := by
  cases h with
  | spin => exact .inl rfl
  | take hpc hlt =>
    refine .inr (left_lt_of_phase rfl rfl ?_)
    rw [hpc]
    simp [MatchingPc.phase, hlt.ne]
  | @add index last run hpc hne hrun =>
    refine .inr (left_lt_of_added rfl ?_)
    have hadded := congrArg List.length (added_run hrun)
    simp only [BookEvent.order, Option.toList_some, List.length_append, List.length_singleton] at hadded
    dsimp only at hn ⊢
    omega
  | @call last run hpc hrun =>
    refine .inr (left_lt_of_phase rfl ((added_run hrun).trans (List.append_nil _)) ?_)
    rw [hpc]
    simp [MatchingPc.phase]
  | @loop l run hpc hl hrun =>
    right
    by_cases hidle : run.pc = .idle
    · refine left_lt_of_phase rfl (tick_added hrun) ?_
      rw [hpc, if_pos hidle]
      exact Nat.one_lt_two
    · refine left_lt_of_match rfl (tick_added hrun) ?_ (.inl (tick_left heps hrun))
      rw [hpc, if_neg hidle]
  | @start l t hpc hl =>
    refine .inr (left_lt_of_match rfl rfl ?_ (.inr ⟨rfl, ?_⟩)) <;> rw [hpc]
    · rfl
    · exact Nat.lt_succ_self 4
  | @put t put traded put' hpc hput =>
    rcases (L3.putStep_cases hput).left with ⟨rfl, rfl⟩ | hless
    · left
      rw [← hpc]
    · refine .inr (left_lt_of_match rfl rfl ?_ (.inr ⟨rfl, ?_⟩)) <;> rw [hpc]
      · rfl
      · exact hless
  | @committed t put traded run hpc hput hrun =>
    refine .inr (left_lt_of_match rfl (tick_added hrun) ?_ (.inl (tick_left heps hrun)))
    rw [hpc]
    rfl

/-! ## Something can be done -/

/-- A trade that few orders lead to finds a free slot. -/
theorem room_of_few_orders (heps : 0 < eps) {es : List ServiceEvent} {s : Service}
    (h : (serviceMachine nt eps blank blankTrade).exec
      (serviceMachine nt eps blank blankTrade).start es = some s)
    (hfew : ((received nt es).filter fun o => o.type ≠ .cancel).length ≤ ringSize + 1)
    {t : TradedOrder Unit} {put : PutPc} (hpc : s.matching = .committing t put) :
    s.run.committed.length < ringSize := by
  have hplace := (service_wired ⟨es, h⟩).place
  unfold Service.LoopPlace at hplace
  rw [hpc] at hplace
  obtain ⟨l, hl⟩ := hplace
  have hneeds := trade_needs_orders heps (service_run ⟨es, h⟩) (tick_run hl) rfl
  obtain ⟨put, hfed, hput⟩ := service_fed h
  have hadded : (s.run.added.map BookOrder.toOrder).Sublist (received nt es) :=
    (hfed.get.order.trans (hput ▸ List.prefix_append _ _)).sublist
  have hplaced : s.run.placed.length =
      ((s.run.added.map BookOrder.toOrder).filter fun o => o.type ≠ .cancel).length := by
    rw [List.filter_map, List.length_map]
    rfl
  have hle := (hadded.filter fun o => o.type ≠ .cancel).length_le
  omega

/-- The matching thread has something to do unless it waits for a batch. -/
theorem matching_moves {s : Service} (hr : (bookMachine eps).Reachable s.run) (hw : s.Wired eps)
    (hroom : ∀ t put, s.matching = .committing t put → s.run.committed.length < ringSize)
    (hbusy : s.matching = .waitBatch → s.ordersGet < s.orders.cursor) :
    ∃ s', s.matchingStep eps = some s' ∧
      (s'.matching ≠ s.matching ∨ (bookMachine eps).step s.run .tick = some s'.run) := by
  have hplace := hw.place
  unfold Service.LoopPlace at hplace
  cases hpc : s.matching with
  | waitBatch =>
    have hclaim : L3.claimBatch s.orders.cursor s.ordersGet = some s.orders.cursor :=
      if_neg (Nat.not_le_of_lt (hbusy hpc))
    refine ⟨{ s with matching := .batch s.ordersGet s.orders.cursor }, ?_, .inl (by simp)⟩
    simp only [Service.matchingStep, hpc, hclaim]
  | batch index last =>
    rw [hpc] at hplace
    by_cases hend : index = last
    · have hcall : bookStep eps s.run .callMatch = some s.run.calling := if_pos hplace
      refine ⟨{ s with ordersGet := last, run := s.run.calling, matching := .matching }, ?_,
        .inl (by simp)⟩
      simp only [Service.matchingStep, hpc, if_pos hend, hcall, Option.map_some]
    · have hadd : bookStep eps s.run (.addOrder ⟨s.orders.read ringSize index, ()⟩) =
          some (s.run.add eps ⟨s.orders.read ringSize index, ()⟩) := if_pos hplace
      refine ⟨{ s with
        run := s.run.add eps ⟨s.orders.read ringSize index, ()⟩
        matching := .batch (index + 1) last }, ?_, .inl fun heq => ?_⟩
      · simp only [Service.matchingStep, hpc, if_neg hend, hadd, Option.map_some]
      · exact absurd (MatchingPc.batch.inj heq).1 (Nat.succ_ne_self index)
  | matching =>
    rw [hpc] at hplace
    obtain ⟨n, w, hexec, hidle⟩ := ticks_return hr hplace
    cases n with
    | zero =>
      cases hexec
      exact absurd hidle hplace
    | succ n =>
      obtain ⟨run, hrun, -⟩ := Option.bind_eq_some_iff.mp hexec
      have hbook : bookStep eps s.run .tick = some run := hrun
      obtain ⟨⟨l, t⟩, hl, -⟩ := Option.map_eq_some_iff.mp hrun
      cases t with
      | none =>
        refine ⟨{ s with run, matching := if run.pc = .idle then .waitBatch else .matching }, ?_,
          .inr hrun⟩
        simp only [Service.matchingStep, hpc, hl, hbook, Option.map_some]
      | some t =>
        refine ⟨{ s with matching := .committing t .claim }, ?_, .inl (by simp)⟩
        simp only [Service.matchingStep, hpc, hl]
  | committing t put =>
    have hlt := hroom t put hpc
    rw [hpc] at hplace
    obtain ⟨l, hl⟩ := hplace
    have hslot := hw.slot
    rw [hpc] at hslot
    cases put with
    | claim =>
      refine ⟨{ s with
        traded := { s.traded with putCursor := s.traded.putCursor + 1 }
        matching := .committing t (.waitBarrier s.traded.putCursor) }, ?_, .inl (by simp)⟩
      simp only [Service.matchingStep, hpc, L3.Disruptor.putStep]
    | waitBarrier slot =>
      have hfree : slot - ringSize < s.pubGet := by
        rw [hslot slot rfl, hw.pubGet, hw.cursor]
        omega
      refine ⟨{ s with matching := .committing t (.write slot) }, ?_, .inl (by simp)⟩
      simp only [Service.matchingStep, hpc, L3.putStep_room hfree]
    | write slot =>
      refine ⟨{ s with
        traded := s.traded.write ringSize slot t, matching := .committing t (.commit slot) }, ?_,
        .inl (by simp)⟩
      simp only [Service.matchingStep, hpc, L3.Disruptor.putStep]
    | commit slot =>
      have hbook : bookStep eps s.run .tick = some ⟨l, s.run.added, s.run.committed ++ [t]⟩ :=
        tick_run hl
      refine ⟨{ s with
        traded := { s.traded with cursor := s.traded.cursor + 1 }
        run := ⟨l, s.run.added, s.run.committed ++ [t]⟩
        matching := .matching }, ?_, .inr (tick_run hl)⟩
      simp only [Service.matchingStep, hpc, L3.putStep_commit (hslot slot rfl).le, hbook,
        Option.map_some]

/-- The `Put` of the request thread has something to do unless the order ring is full. -/
theorem request_moves {put : List (Order ℚ)} {s : Service} {order : Order ℚ} {pc : PutPc}
    (hfed : s.Fed put) (hpc : s.request = .putting order pc)
    (hroom : ∀ slot, pc = .waitBarrier slot → slot - ringSize < s.ordersGet) :
    ∃ s', s.requestStep = some s' ∧ s'.request ≠ .putting order pc := by
  have hplace := hfed.ring.place order pc (by rw [hpc]; rfl)
  cases pc with
  | claim =>
    refine ⟨{ s with
      orders := { s.orders with putCursor := s.orders.putCursor + 1 }
      request := .putting order (.waitBarrier s.orders.putCursor) }, ?_, by simp⟩
    simp only [Service.requestStep, hpc, L3.Disruptor.putStep]
  | waitBarrier slot =>
    refine ⟨{ s with request := .putting order (.write slot) }, ?_, by simp⟩
    simp only [Service.requestStep, hpc, L3.putStep_room (hroom slot rfl)]
  | write slot =>
    refine ⟨{ s with
      orders := s.orders.write ringSize slot order, request := .putting order (.commit slot) }, ?_,
      by simp⟩
    simp only [Service.requestStep, hpc, L3.Disruptor.putStep]
  | commit slot =>
    refine ⟨{ s with
      orders := { s.orders with cursor := s.orders.cursor + 1 }, request := .receiving }, ?_, by simp⟩
    simp only [Service.requestStep, hpc, L3.putStep_commit hplace.1.le]

/-! ## Coming to rest -/

/-- A step of one of the two threads. -/
def ServiceEvent.OfThread (e : ServiceEvent) : Prop := e = .requestStep ∨ e = .matchingStep

section HasReceived
variable (nt : NumberText ℚ) (eps : ℚ) (blank : Order ℚ) (blankTrade : TradedOrder Unit)

/-- The service is alive in a run in which these orders have been received. -/
def Service.HasReceived (orders : List (Order ℚ)) (s : Service) : Prop :=
  s.alive = true ∧ ∃ es, (serviceMachine nt eps blank blankTrade).exec
    (serviceMachine nt eps blank blankTrade).start es = some s ∧ received nt es = orders

end HasReceived

theorem Service.HasReceived.keeps {orders : List (Order ℚ)} {s s' : Service} {e : ServiceEvent}
    (h : s.HasReceived nt eps blank blankTrade orders) (he : e.OfThread)
    (hstep : (serviceMachine nt eps blank blankTrade).step s e = some s') :
    s'.HasReceived nt eps blank blankTrade orders := by
  obtain ⟨halive, es, hes, horders⟩ := h
  refine ⟨?_, es ++ [e], ?_, ?_⟩
  · obtain ⟨-, ⟨-, hm⟩ | hr⟩ := threads_cases hstep
    · obtain ⟨-, -, -, -, -, hsame⟩ := hm.get
      exact hsame.trans halive
    · cases hr with
      | put | committed => exact halive
      | parsed | dies => rcases he with he | he <;> cases he
  · rw [Machine.exec_concat, hes]
    exact hstep
  · rw [received_concat, horders]
    rcases he with rfl | rfl <;> exact List.append_nil _

/-- The book has been given no more orders than have been received. -/
theorem Service.HasReceived.added_le {orders : List (Order ℚ)} {s : Service}
    (h : s.HasReceived nt eps blank blankTrade orders) : s.run.added.length ≤ orders.length := by
  obtain ⟨-, es, hes, rfl⟩ := h
  obtain ⟨put, hfed, hput⟩ := service_fed hes
  have hle := (hfed.get.order.trans (hput ▸ List.prefix_append _ _)).length_le
  rwa [List.length_map] at hle

/-- A step of the matching thread that is not a spin gets something done. -/
theorem matching_gets_done (heps : 0 < eps) {orders : List (Order ℚ)} {s : Service}
    (h : s.HasReceived nt eps blank blankTrade orders)
    (hroom : ∀ t put, s.matching = .committing t put → s.run.committed.length < ringSize)
    (hbusy : s.matching = .waitBatch → s.ordersGet < s.orders.cursor) :
    ∃ s', (serviceMachine nt eps blank blankTrade).step s .matchingStep = some s' ∧
      s'.left eps orders.length < s.left eps orders.length := by
  obtain ⟨halive, es, hes, horders⟩ := id h
  obtain ⟨s', hstep, hmoved⟩ := matching_moves (service_run ⟨es, hes⟩) (service_wired ⟨es, hes⟩)
    hroom hbusy
  have hstep' := @matchingStep_service nt eps blank blankTrade _ _ halive hstep
  refine ⟨s', hstep', ?_⟩
  rcases (matchingStep_cases hstep).left heps (h.keeps (.inr rfl) hstep').added_le with rfl | hless
  · rcases hmoved with hne | htick
    · exact absurd rfl hne
    · exact absurd (tick_left heps htick) (lt_irrefl _)
  · exact hless

theorem request_gets_done {orders : List (Order ℚ)} {s s' : Service}
    (h : s.HasReceived nt eps blank blankTrade orders) (hstep : s.requestStep = some s')
    (hmoved : s'.request ≠ s.request) :
    (serviceMachine nt eps blank blankTrade).step s .requestStep = some s' ∧
      s'.left eps orders.length < s.left eps orders.length := by
  refine ⟨?_, ?_⟩
  · simp only [serviceMachine, serviceStep, h.1, if_true, hstep]
  · rcases (@requestStep_cases nt _ _ hstep).left with rfl | hless
    · exact absurd rfl hmoved
    · exact hless

theorem service_progress (heps : 0 < eps) {orders : List (Order ℚ)}
    (hfew : (orders.filter fun o => o.type ≠ .cancel).length ≤ ringSize + 1) :
    (serviceMachine nt eps blank blankTrade).Progress ServiceEvent.OfThread
      (Service.HasReceived nt eps blank blankTrade orders) Service.AtRest
      (Service.left eps orders.length) where
  keeps _ _ _ h he hstep := h.keeps he hstep
  moves s e t h he hstep := by
    have hadded := (h.keeps he hstep).added_le
    obtain ⟨-, ⟨-, hm⟩ | hr⟩ := threads_cases hstep
    · exact hm.left heps hadded
    · rcases he with rfl | rfl
      · exact hr.left
      · cases hr
  helps s h hleft := by
    obtain ⟨halive, es, hes, rfl⟩ := id h
    obtain ⟨put, hfed, hput⟩ := service_fed hes
    have hroom : ∀ t put, s.matching = .committing t put → s.run.committed.length < ringSize :=
      fun t put => room_of_few_orders heps hes hfew
    by_cases hbusy : s.matching = .waitBatch → s.ordersGet < s.orders.cursor
    · obtain ⟨s', hstep, hless⟩ := matching_gets_done heps h hroom hbusy
      exact ⟨.matchingStep, .inr rfl, s', hstep, hless⟩
    · -- the order ring is empty, so the request thread can put on it
      obtain ⟨hpc, hempty⟩ := Classical.not_imp.mp hbusy
      have hcursor : s.orders.cursor = s.ordersGet :=
        le_antisymm (le_of_not_gt hempty) hfed.ring.bound
      have hlap : ringSize ≤ s.ordersGet := by
        rw [← hcursor, hfed.ring.cursor]
        exact Nat.le_add_right _ _
      cases hrequest : s.request with
      | receiving =>
        have hidle := hfed.ring.idle (by rw [hrequest]; rfl)
        exact absurd ⟨halive, hrequest, hpc, hcursor, hidle.trans hcursor, hlap⟩ hleft
      | putting order pc =>
        have hfree : ∀ slot, pc = .waitBarrier slot → slot - ringSize < s.ordersGet := by
          rintro slot rfl
          have hplace := hfed.ring.place order _ (by rw [hrequest]; rfl)
          have hpos := ringSize_pos
          obtain ⟨rfl, -⟩ := hplace
          omega
        obtain ⟨s', hstep, hmoved⟩ := request_moves hfed hrequest hfree
        obtain ⟨hstep', hless⟩ := request_gets_done h hstep (hrequest ▸ hmoved)
        exact ⟨.requestStep, .inl rfl, s', hstep', hless⟩

/-- After at most one order more than the traded-order ring has slots, every fair
schedule of the two threads brings the service to rest, with the orders received
run through the book in batches that are not empty. -/
theorem service_comes_to_rest (heps : 0 < eps) {es : List ServiceEvent} {s : Service}
    (h : (serviceMachine nt eps blank blankTrade).exec
      (serviceMachine nt eps blank blankTrade).start es = some s) (halive : s.alive = true)
    (hfew : ((received nt es).filter fun o => o.type ≠ .cancel).length ≤ ringSize + 1)
    {schedule : Nat → ServiceEvent} (hfair : Fair ServiceEvent.OfThread schedule) :
    ∃ (n : Nat) (batches : List (List (Order ℚ))),
      ((serviceMachine nt eps blank blankTrade).stateAt schedule s n).AtRest ∧
        (∀ b ∈ batches, b ≠ []) ∧ batches.flatten = received nt es ∧
          ((serviceMachine nt eps blank blankTrade).stateAt schedule s n).run =
            matchBatches eps (batches.map bookOrders) := by
  have hstart : s.HasReceived nt eps blank blankTrade (received nt es) := ⟨halive, es, h, rfl⟩
  have hprogress := @service_progress nt eps blank blankTrade heps (received nt es) hfew
  obtain ⟨n, hrest⟩ := hprogress.comes_to hfair hstart
  obtain ⟨-, fs, hfs, hreceived⟩ := hprogress.stateAt hfair hstart n
  obtain ⟨batches, hnonempty, hflatten, hrun⟩ := atRest_served hfs hrest
  exact ⟨n, batches, hrest, hnonempty, hflatten.trans hreceived, hrun⟩

/-- The threads in turn. -/
def inTurn (n : Nat) : ServiceEvent := if n % 2 = 0 then .requestStep else .matchingStep

theorem inTurn_fair : Fair ServiceEvent.OfThread inTurn := by
  refine ⟨fun n => ?_, fun e he n => ?_⟩
  · unfold inTurn
    split
    · exact .inl rfl
    · exact .inr rfl
  · rcases he with rfl | rfl
    · exact ⟨2 * n, by omega, if_pos (by omega)⟩
    · exact ⟨2 * n + 1, by omega, if_neg (by omega)⟩

/-- An ask is put on the ring, and a bid has come in. -/
def pairReceived : List ServiceEvent :=
  .receive askCommand :: List.replicate 4 .requestStep ++ [.receive bidCommand]

theorem one_pair_comes_to_rest :
    ∃ s, (serviceMachine rationalText epsilon emptyOrder emptyTrade).exec
        (serviceMachine rationalText epsilon emptyOrder emptyTrade).start pairReceived = some s ∧
      s.run.committed = [] ∧
      ∃ (n : Nat) (batches : List (List (Order ℚ))),
        ((serviceMachine rationalText epsilon emptyOrder emptyTrade).stateAt inTurn s n).AtRest ∧
          batches.flatten = [marketAsk, marketBid] ∧
          ((serviceMachine rationalText epsilon emptyOrder emptyTrade).stateAt inTurn s
            n).run.committed.length = 1 := by
  have hparse : received rationalText pairReceived = [marketAsk, marketBid] := by decide +kernel
  have hrun : ((serviceMachine rationalText epsilon emptyOrder emptyTrade).exec
      (serviceMachine rationalText epsilon emptyOrder emptyTrade).start pairReceived).map
        (fun s => (s.alive, s.run.committed)) = some (true, []) := by
    decide +kernel
  obtain ⟨s, hs, hstate⟩ := Option.map_eq_some_iff.mp hrun
  obtain ⟨halive, hnone⟩ := Prod.mk.inj hstate
  have hfew : ((received rationalText pairReceived).filter fun o =>
      o.type ≠ .cancel).length ≤ ringSize + 1 := by
    rw [hparse]
    exact Nat.succ_le_succ Nat.one_le_two_pow
  obtain ⟨n, batches, hrest, -, hflatten, hserved⟩ :=
    service_comes_to_rest epsilon_pos hs halive hfew inTurn_fair
  rw [hparse] at hflatten
  have hstream : (batches.map bookOrders).flatten = bookOrders [marketAsk, marketBid] := by
    rw [bookOrders_flatten, hflatten]
  -- however they come, it is as if they were served one after the other
  have honeByOne : matchBatches epsilon [bookOrders [marketAsk], bookOrders [marketBid]] =
      ((bookOrders [marketAsk, marketBid]).foldl (BookRun.add epsilon) {}).settle epsilon :=
    matchBatches_uniform epsilon_pos pair_uniform
  obtain ⟨hasks, hbids, htrades⟩ := @marketAsk_rests {} rfl rfl
  obtain ⟨-, -, htrades'⟩ := marketBid_trades hasks hbids
  refine ⟨s, hs, hnone, n, batches, hrest, hflatten, ?_⟩
  rw [hserved, matchBatches_uniform epsilon_pos (hstream ▸ pair_uniform), hstream, ← honeByOne]
  exact htrades'.trans (congrArg (· + 1) htrades)

end TradingMarket
