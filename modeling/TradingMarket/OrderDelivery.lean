import TradingMarket.L3.Progress
import TradingMarket.Lib.Fair
import TradingMarket.OrderRingServer

/-! # The server delivers what it generates

The three threads of the order ring server wait for each other in a circle:
`ROUTE_ORDER_GET` for `JOURNAL_ORDER_GET`, `PUT_ORDER_PUT` for
`ROUTE_ORDER_GET`, and `JOURNAL_ORDER_GET` for what is put. They never wait all
at once before the last order is sent, whatever the size of the ring, so every
fair schedule sends all the orders of the generator (`orders_delivered`). -/
namespace TradingMarket

open Lib (Machine Fair)
open L3 (Get PutPc)

variable {RING_SIZE : Nat} {blank : Order ℚ} {results : Stream' Nat} {s s' : OrderRingServer}

/-- What the server has left to do: iterations, steps of the `Put` under way, orders
to journal and orders to send. -/
def OrderRingServer.left (s : OrderRingServer) : ℕ ×ₗ ℕ ×ₗ (ℕ ×ₗ ℕ) ×ₗ (ℕ ×ₗ ℕ) :=
  toLex (iterations - s.putOrder.i, toLex ((s.putting.map fun p => p.2.left).getD 0,
    toLex (s.journalGet.left iterations s.journaled, s.routeGet.left iterations s.sent)))

/-- Every order generated has been journaled and sent. -/
def OrderRingServer.Delivered (results : Stream' Nat) (s : OrderRingServer) : Prop :=
  s.journaled = PutOrder.put results ∧ s.sent = PutOrder.put results

theorem length_orders (n : Nat) (p : PutOrder) : (p.orders n).length = n := by
  induction n generalizing p with
  | zero => rfl
  | succ n ih => exact congrArg (· + 1) (ih _)

theorem length_put (results : Stream' Nat) : (PutOrder.put results).length = iterations :=
  length_orders _ _

/-- No thread has taken more orders than are generated. -/
theorem taken_le (h : (orderRingMachine RING_SIZE blank results).Reachable s) :
    s.journaled.length ≤ iterations ∧ s.sent.length ≤ iterations := by
  have hwired := server_wired h
  have hput := (put_generated h).length_le
  rw [length_put] at hput
  have hjournaled := hwired.first.order.length_le
  have hsent := hwired.second.order.length_le
  omega

/-- A step of the server gets something done, or waits. -/
theorem OrderRingStep.left (h : OrderRingStep RING_SIZE s s') (hjournaled : s'.journaled.length ≤ iterations)
    (hsent : s'.sent.length ≤ iterations) : s' = s ∨ s'.left < s.left := by
  cases h with
  | generate hnone hi =>
    refine .inr (Prod.Lex.toLex_lt_toLex.mpr (.inl ?_))
    rw [next_i]
    omega
  | @put order pc orders pc' hputting hput =>
    rcases hput.left with ⟨rfl, rfl⟩ | hless
    · left
      rw [← hputting]
    · refine .inr (Prod.Lex.toLex_lt_toLex.mpr (.inr ⟨rfl, Prod.Lex.toLex_lt_toLex.mpr (.inl ?_)⟩))
      rw [hputting]
      exact hless
  | @commit order pc orders hputting hput =>
    refine .inr (Prod.Lex.toLex_lt_toLex.mpr (.inr ⟨rfl, Prod.Lex.toLex_lt_toLex.mpr (.inl ?_)⟩))
    rw [hputting]
    exact pc.left_pos
  | @journal journalGet order hget =>
    rcases hget.left hjournaled with ⟨rfl, rfl⟩ | hless
    · left
      simp
    · exact .inr (Prod.Lex.toLex_lt_toLex.mpr (.inr ⟨rfl, Prod.Lex.toLex_lt_toLex.mpr
        (.inr ⟨rfl, Prod.Lex.toLex_lt_toLex.mpr (.inl hless)⟩)⟩))
  | @route routeGet order hget =>
    rcases hget.left hsent with ⟨rfl, rfl⟩ | hless
    · left
      simp
    · exact .inr (Prod.Lex.toLex_lt_toLex.mpr (.inr ⟨rfl, Prod.Lex.toLex_lt_toLex.mpr
        (.inr ⟨rfl, Prod.Lex.toLex_lt_toLex.mpr (.inr ⟨rfl, hless⟩)⟩)⟩))

/-! ## Some thread gets on -/

theorem journal_moves (hbusy : s.journalGet.pc = .waitBatch → s.journalGet.cursor < s.orders.cursor) :
    s.journalStep RING_SIZE ≠ s :=
  fun heq => L3.getStep_moves hbusy (congrArg OrderRingServer.journalGet heq)

theorem route_moves (hbusy : s.routeGet.pc = .waitBatch → s.routeGet.cursor < s.journalGet.cursor) :
    s.routeStep RING_SIZE ≠ s :=
  fun heq => L3.getStep_moves hbusy (congrArg OrderRingServer.routeGet heq)

/-- With a `Put` under way, the putting thread gets on unless the ring is full. -/
theorem put_moves {order : Order ℚ} {pc : PutPc} (hputting : s.putting = some (order, pc))
    (hplace : pc.Place (2 ^ RING_SIZE) s.routeGet.cursor order s.orders)
    (hroom : ∀ slot, pc = .waitBarrier slot → slot - 2 ^ RING_SIZE < s.routeGet.cursor) :
    ∃ s', s.putStep RING_SIZE = some s' ∧ s' ≠ s := by
  have hmoves := L3.putStep_moves hplace hroom
  unfold OrderRingServer.putStep
  rw [hputting]
  dsimp only
  generalize s.orders.putStep (2 ^ RING_SIZE) s.routeGet.cursor order pc = result at hmoves
  obtain ⟨orders, pc'⟩ := result
  cases pc' with
  | none => exact ⟨_, rfl, fun heq => nomatch (congrArg OrderRingServer.putting heq).trans hputting⟩
  | some pc' =>
    refine ⟨_, rfl, fun heq => hmoves ?_⟩
    have hsame := (congrArg OrderRingServer.putting heq).trans hputting
    exact congrArg (Option.map Prod.snd) hsame

/-- Until everything is delivered some thread does not wait. -/
theorem server_moves (h : (orderRingMachine RING_SIZE blank results).Reachable s)
    (hleft : ¬ s.Delivered results) :
    ∃ e s', (orderRingMachine RING_SIZE blank results).step s e = some s' ∧ s' ≠ s := by
  have hwired := server_wired h
  by_cases hjournal : s.journalGet.pc = .waitBatch → s.journalGet.cursor < s.orders.cursor
  · exact ⟨.journalStep, _, rfl, journal_moves hjournal⟩
  by_cases hroute : s.routeGet.pc = .waitBatch → s.routeGet.cursor < s.journalGet.cursor
  · exact ⟨.routeStep, _, rfl, route_moves hroute⟩
  -- both consumers wait, so all three cursors are the same
  obtain ⟨hjpc, hjcursor⟩ := Classical.not_imp.mp hjournal
  obtain ⟨hrpc, hrcursor⟩ := Classical.not_imp.mp hroute
  have hempty : s.routeGet.cursor = s.orders.cursor := by
    have hfirst := hwired.first.cursor_le
    have hsecond := hwired.second.cursor_le
    omega
  have hcursor := hwired.ring.cursor
  cases hputting : s.putting with
  | some p =>
    obtain ⟨order, pc⟩ := p
    have hplace := hwired.ring.place order pc hputting
    have hpos := Nat.two_pow_pos RING_SIZE
    have hroom : ∀ slot, pc = .waitBarrier slot → slot - 2 ^ RING_SIZE < s.routeGet.cursor := by
      rintro slot rfl
      obtain ⟨rfl, -⟩ := hplace
      omega
    obtain ⟨s', hs', hmoved⟩ := put_moves hputting hplace hroom
    exact ⟨.putStep, s', hs', hmoved⟩
  | none =>
    by_cases hi : s.putOrder.i < iterations
    · refine ⟨.putStep, { s with
        putOrder := (PutOrder.next.run s.putOrder).2
        putting := some ((PutOrder.next.run s.putOrder).1, .claim) }, ?_, ?_⟩
      · simp only [orderRingMachine, orderRingStep, OrderRingServer.putStep, hputting, if_pos hi]
        rfl
      · exact fun heq => nomatch (congrArg OrderRingServer.putting heq).trans hputting
    · exfalso
      have hall : s.put = PutOrder.put results := by
        have hgen := server_generated h
        unfold OrderRingServer.Generated at hgen
        rw [hputting, Nat.sub_eq_zero_of_le (Nat.le_of_not_lt hi)] at hgen
        simpa [PutOrder.orders] using hgen
      have hj : s.journaled = s.put := by
        refine hwired.first.order.eq_of_length ?_
        have hcount := hwired.first.count
        have hindex : s.journalGet.index = s.journalGet.cursor := by
          unfold Get.index
          rw [hjpc]
        have hle := hwired.first.cursor_le
        omega
      have hr : s.sent = s.journaled := by
        refine hwired.second.order.eq_of_length ?_
        have hcount := hwired.second.count
        have hindex : s.routeGet.index = s.routeGet.cursor := by
          unfold Get.index
          rw [hrpc]
        have hlen := congrArg List.length hj
        omega
      exact hleft ⟨hj.trans hall, (hr.trans hj).trans hall⟩

/-! ## Every order is delivered -/

theorem server_progress :
    (orderRingMachine RING_SIZE blank results).Progress (fun _ => True)
      (orderRingMachine RING_SIZE blank results).Reachable (OrderRingServer.Delivered results)
      OrderRingServer.left where
  keeps _ _ _ h _ hstep := h.reaches (.single hstep)
  moves _ _ _ h _ hstep := by
    obtain ⟨hjournaled, hsent⟩ := taken_le (h.reaches (.single hstep))
    exact (orderRingStep_cases hstep).left hjournaled hsent
  helps _ h hleft := by
    obtain ⟨e, s', hstep, hmoved⟩ := server_moves h hleft
    obtain ⟨hjournaled, hsent⟩ := taken_le (h.reaches (.single hstep))
    have hless := ((orderRingStep_cases hstep).left hjournaled hsent).resolve_left hmoved
    exact ⟨e, trivial, s', hstep, hless⟩

/-- What is delivered stays so. -/
theorem OrderRingServer.Delivered.reaches (h : s.Delivered results)
    (hr : (orderRingMachine RING_SIZE blank results).Reachable s)
    (hr' : (orderRingMachine RING_SIZE blank results).Reaches s s') : s'.Delivered results := by
  have hall := hr'.preserves (P := fun u => (orderRingMachine RING_SIZE blank results).Reachable u ∧
    u.Delivered results) ?_ ⟨hr, h⟩
  · exact hall.2
  · intro u e v hu hstep
    obtain ⟨hreach, hjournaled, hsent⟩ := hu
    have hreach' := hreach.reaches (.single hstep)
    refine ⟨hreach', ?_⟩
    obtain ⟨hlej, hles⟩ := taken_le hreach'
    have hlen := length_put results
    cases orderRingStep_cases hstep with
    | generate | put | commit => exact ⟨hjournaled, hsent⟩
    | @journal journalGet order =>
      cases order with
      | none => exact ⟨(List.append_nil _).trans hjournaled, hsent⟩
      | some order => simp [hjournaled, hlen] at hlej
    | @route routeGet order =>
      cases order with
      | none => exact ⟨hjournaled, (List.append_nil _).trans hsent⟩
      | some order => simp [hsent, hlen] at hles

/-- From every state of a run, every fair schedule of the three threads journals and
sends all the orders of the generator, each of them once and in their order, and
then leaves it at that. -/
theorem orders_delivered (h : (orderRingMachine RING_SIZE blank results).Reachable s)
    {schedule : Nat → OrderRingEvent} (hfair : Fair (fun _ => True) schedule) :
    ∃ n, ∀ m, n ≤ m →
      ((orderRingMachine RING_SIZE blank results).stateAt schedule s m).journaled =
          PutOrder.put results ∧
        ((orderRingMachine RING_SIZE blank results).stateAt schedule s m).sent =
          PutOrder.put results := by
  have hprogress := @server_progress RING_SIZE blank results
  obtain ⟨n, hn⟩ := hprogress.comes_to hfair h
  refine ⟨n, fun m hm => ?_⟩
  obtain ⟨k, rfl⟩ := Nat.exists_eq_add_of_le hm
  rw [Machine.stateAt_add]
  obtain ⟨es, -, hes⟩ := @Machine.stateAt_exec _ _ (orderRingMachine RING_SIZE blank results)
    (fun _ => True) (fun i => schedule (n + i)) (fun i => hfair.only (n + i)) _ k
  exact hn.reaches (hprogress.stateAt hfair h n) ⟨es, hes⟩

/-- The threads in turn. -/
def threadsInTurn (n : Nat) : OrderRingEvent :=
  match n % 3 with
  | 0 => .putStep
  | 1 => .journalStep
  | _ => .routeStep

theorem threadsInTurn_fair : Fair (fun _ => True) threadsInTurn := by
  refine ⟨fun _ => trivial, fun e _ n => ?_⟩
  cases e with
  | putStep => exact ⟨3 * n, by omega, by simp [threadsInTurn]⟩
  | journalStep => exact ⟨3 * n + 1, by omega, by simp [threadsInTurn, Nat.add_mod]⟩
  | routeStep => exact ⟨3 * n + 2, by omega, by simp [threadsInTurn, Nat.add_mod]⟩

/-- On a ring of a single slot. -/
theorem delivered_through_one_slot : ∃ n, ∀ m, n ≤ m →
    ((orderRingMachine 0 emptyOrder (Stream'.const 0)).stateAt threadsInTurn
        (.start 0 emptyOrder (Stream'.const 0)) m).journaled = PutOrder.put (Stream'.const 0) ∧
      ((orderRingMachine 0 emptyOrder (Stream'.const 0)).stateAt threadsInTurn
        (.start 0 emptyOrder (Stream'.const 0)) m).sent = PutOrder.put (Stream'.const 0) :=
  orders_delivered (.refl _) threadsInTurn_fair

end TradingMarket
