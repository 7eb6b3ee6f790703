import TradingMarket.QueueOrder

/-! # Who trades with whom

`match()` lets an ask trade with the bid at the head of `_bids` only, and leaves
the ask for good when it cannot trade with that bid. So a bid is never passed
over (`bids_from_front`), but an ask left early can stay behind, or be overtaken,
once later asks have consumed the bid it was refused against. -/
namespace TradingMarket

open Lib (Machine)

variable {τ : Type} {eps : ℚ}

/-! ## Bids are consumed from the front -/

/-- `bid_it` is at the head of `_bids`, or the ask is used up exactly. -/
def BookRun.AtFront (s : BookRun τ) : Prop :=
  match s.pc with
  | .inner i j _ => j = 0 ∨ ∃ a, s.book.asks[i]? = some a ∧ a.quantity = 0
  | _ => True

theorem equal_self (heps : 0 < eps) (q : ℚ) : equal eps q q = true := by
  simpa [equal] using heps

/-- Of the two sides of a trade, the bid is used up exactly or the ask is. -/
theorem min_residue {p q : ℚ} (h : q - min p q ≠ 0) : p - min p q = 0 := by
  rcases min_choice p q with hm | hm
  · rw [hm]; exact sub_self p
  · rw [hm] at h; exact absurd (sub_self q) h

/-- A bid that keeps a quantity took all the ask had. -/
theorem kept_bid_exhausts (heps : 0 < eps) {a b : BookOrder τ}
    (h : equal eps (b.fill (min a.quantity b.quantity)).quantity 0 = false) :
    (a.fill (min a.quantity b.quantity)).quantity = 0 := by
  refine min_residue fun hz => ?_
  rw [fill_quantity, hz, equal_self heps] at h
  cases h

theorem bids_from_front (heps : 0 < eps) {s : BookRun τ} (h : (bookMachine eps).Reachable s) :
    s.AtFront := by
  induction h using Machine.Reachable.induct with
  | start => trivial
  | step s e s' hs hstep ih =>
    cases bookStep_cases hstep with
    | addOrder => trivial
    | callMatch => trivial
    | @tick l l' added committed t hl =>
      cases hl with
      | returns | pass | erase => trivial
      | visit => exact .inl rfl
      | @trade book i j matched a b t mp ha hb hq ht =>
        obtain ⟨-, rfl, rfl, -, htq, -⟩ := tradeOf_some ht
        have hj : j = 0 := by
          rcases ih with hj | ⟨a', ha', hzero⟩
          · exact hj
          · obtain rfl : a' = t.askOrder := Option.some.inj (ha'.symm.trans ha)
            rw [hzero, equal_self heps] at hq
            cases hq
        subst hj
        have hlt := (List.getElem?_eq_some_iff.mp ha).1
        cases hres : equal eps (t.bidOrder.fill t.tradedQuantity).quantity 0 with
        | true =>
          rw [afterCommit_erased hres]
          exact .inl rfl
        | false =>
          have hask : (t.askOrder.fill t.tradedQuantity).quantity = 0 := by
            rw [htq] at hres ⊢
            exact kept_bid_exhausts heps hres
          rw [afterCommit_kept hres]
          exact .inr ⟨_, by simp [hlt], hask⟩

/-- A trade is always with the bid at the head of `_bids`. -/
theorem trade_at_head (heps : 0 < eps) {s : BookRun τ} (h : (bookMachine eps).Reachable s)
    {i j : Nat} {matched : Bool} (hpc : s.pc = .inner i j matched) {a : BookOrder τ}
    (ha : s.book.asks[i]? = some a) (hq : equal eps a.quantity 0 = false) : j = 0 := by
  have hf := bids_from_front heps h
  unfold BookRun.AtFront at hf
  rw [hpc] at hf
  rcases hf with hj | ⟨a', ha', hzero⟩
  · exact hj
  · obtain rfl : a' = a := Option.some.inj (ha'.symm.trans ha)
    rw [hzero, equal_self heps] at hq
    cases hq

/-! ## Asks that were left -/

/-- In the running call of `match()`, the turn of the ask at position `k` ended
some steps ago, when the ask was already `e`, and it could not trade with the
bid then at the head of `_bids`, or there was none. -/
def LeftAtHead (eps : ℚ) (s : BookRun τ) (k : Nat) (e : BookOrder τ) : Prop :=
  ∃ s₀ n matched, (bookMachine eps).Reachable s₀ ∧
    (bookMachine eps).exec s₀ (List.replicate n .tick) = some s ∧
    s₀.pc = .inner k 0 matched ∧ s₀.book.asks[k]? = some e ∧
    ∀ b, s₀.book.bids.head? = some b → eligible eps e b = false

theorem LeftAtHead.tick {s s' : BookRun τ} {k : Nat} {e : BookOrder τ}
    (h : LeftAtHead eps s k e) (hstep : (bookMachine eps).step s .tick = some s') :
    LeftAtHead eps s' k e := by
  obtain ⟨s₀, n, matched, hr, hexec, hpc, hask, hhead⟩ := h
  refine ⟨s₀, n + 1, matched, hr, ?_, hpc, hask, hhead⟩
  rw [List.replicate_succ', Machine.exec_concat, hexec]
  exact hstep

/-- The asks before `ask_it`. -/
def LoopPc.asksBefore : LoopPc → Nat
  | .idle => 0
  | .outer i => i
  | .inner i _ _ => i

/-- Every ask before `ask_it` with an open quantity was left at the head bid. -/
def BookRun.AsksLeft (eps : ℚ) (s : BookRun τ) : Prop :=
  ∀ k e, k < s.pc.asksBefore → s.book.asks[k]? = some e → eps ≤ e.quantity → LeftAtHead eps s k e

theorem open_of_le (heps : 0 < eps) {q : ℚ} (h : eps ≤ q) : equal eps q 0 = false := by
  have habs : |q| = q := abs_of_pos (heps.trans_le h)
  simp [equal, habs, h]

theorem asksLeft (heps : 0 < eps) {s : BookRun τ} (h : (bookMachine eps).Reachable s) :
    s.AsksLeft eps := by
  induction h using Machine.Reachable.induct with
  | start => intro k e hk; exact absurd hk (Nat.not_lt_zero k)
  | step s e s' hs hstep ih =>
    cases bookStep_cases hstep with
    | addOrder => intro k e hk; exact absurd hk (Nat.not_lt_zero k)
    | callMatch => intro k e hk; exact absurd hk (Nat.not_lt_zero k)
    | @tick l l' added committed t hl =>
      cases hl with
      | returns => intro k e hk; exact absurd hk (Nat.not_lt_zero k)
      | visit => intro k e hk he hq; exact (ih k e hk he hq).tick hstep
      | @pass book i j matched a ha hstop hm =>
        intro k e hk he hq
        by_cases hki : k = i
        · subst hki
          obtain rfl : e = a := Option.some.inj (he.symm.trans ha)
          obtain rfl := trade_at_head heps hs rfl ha (open_of_le heps hq)
          refine LeftAtHead.tick ⟨_, 0, matched, hs, rfl, rfl, ha, fun b hb => ?_⟩ hstep
          rcases hstop b (by rwa [List.head?_eq_getElem?] at hb) with hz | hel
          · rw [open_of_le heps hq] at hz; cases hz
          · exact hel
        · have hk' : k < i + 1 := hk
          exact (ih k e (show k < i by omega) he hq).tick hstep
      | @erase book i j a ha =>
        intro k e hk he hq
        have hk' : k < i := hk
        refine (ih k e hk' ?_ hq).tick hstep
        rw [← he]
        exact (List.getElem?_eraseIdx_of_lt hk').symm
      | @trade book i j matched a b t mp ha hb hq ht =>
        intro k e hk he hqe
        obtain ⟨j', hpc⟩ := @afterCommit_pc τ eps book t mp i j
        have hk' : k < i := by
          simpa only [BookRun.pc, hpc, LoopPc.asksBefore] using hk
        refine (ih k e hk' ?_ hqe).tick hstep
        rw [← he]
        simp only [BookRun.book, afterCommit_asks]
        exact (List.getElem?_set_ne (by omega)).symm

theorem ticks_keys_sublist {s s' : BookRun τ} {n : Nat} (side : Side)
    (h : (bookMachine eps).exec s (List.replicate n .tick) = some s') :
    ((s'.book.queue side).map BookOrder.key).Sublist ((s.book.queue side).map BookOrder.key) := by
  induction n generalizing s with
  | zero => cases h; exact .refl _
  | succ n ih =>
    obtain ⟨u, hu, hrest⟩ := Option.bind_eq_some_iff.mp h
    cases bookStep_cases hu with
    | tick hl => exact (ih hrest).trans (hl.keys_sublist side)

/-- A market ask is left at the head only when no market bid is in the book, and
then none comes back during the call. -/
theorem LeftAtHead.no_market_bid {s : BookRun τ} {k : Nat} {e : BookOrder τ}
    (h : LeftAtHead eps s k e) (he : e.matchType = .market) :
    ∀ b ∈ s.book.bids, b.matchType ≠ .market := by
  obtain ⟨s₀, n, matched, hr, hexec, -, -, hhead⟩ := h
  have hnone : ∀ b ∈ s₀.book.bids, b.matchType ≠ .market := by
    intro b hb hm
    have hfirst := marketFirst hr .bid
    change MarketFirst s₀.book.bids at hfirst
    cases hbids : s₀.book.bids with
    | nil => rw [hbids] at hb; cases hb
    | cons c bids =>
      rw [hbids] at hb hfirst hhead
      have hc : c.matchType = .market := by
        rcases List.mem_cons.mp hb with rfl | hb
        · exact hm
        · exact (List.pairwise_cons.mp hfirst).1 b hb hm
      have := hhead c rfl
      simp [eligible, he, hc] at this
  intro b hb hm
  obtain ⟨c, hc, hk⟩ := List.mem_map.mp
    ((ticks_keys_sublist .bid hexec).subset (List.mem_map.mpr ⟨b, hb, rfl⟩))
  refine hnone c hc ?_
  rw [eq_of_key hk]
  exact hm

/-! ## Pairs left behind -/

/-- No ask and bid of the book, both with an open quantity, are eligible with
each other. -/
def NoPairLeft (eps : ℚ) (book : OrderBook τ) : Prop :=
  ∀ a ∈ book.asks, ∀ b ∈ book.bids, eps ≤ a.quantity → eps ≤ b.quantity → eligible eps a b = false

/-- A limit ask and a limit bid at one price, behind a limit bid at a higher one. -/
def leftBehind : BookRun Nat := runCalls epsilon
  [.addOrder (tklam 1 .ask .limit 1 10), .addOrder (tklam 2 .bid .limit 1 12),
    .addOrder (tklam 3 .bid .limit 1 10), .callMatch]

/-- The last state of that run inside `match()`. -/
def leavingBehind : BookRun Nat :=
  { leftBehind with loop := ⟨leftBehind.book, .outer 1⟩ }

theorem pair_left_behind :
    (∀ o ∈ leftBehind.added, epsilon ≤ o.quantity) ∧ ¬ NoPairLeft epsilon leftBehind.book := by
  unfold NoPairLeft
  decide +kernel

/-- When `match()` returns, every ask with an open quantity was, when its turn
ended, not eligible with the bid at the head of `_bids`, or there was none; and
no market ask with an open quantity stays together with a market bid. -/
theorem asks_left_at_head (heps : 0 < eps) {s s' : BookRun τ} (h : (bookMachine eps).Reachable s)
    (hstep : (bookMachine eps).step s .tick = some s') (hret : s'.pc = .idle) :
    ∀ k e, s'.book.asks[k]? = some e → eps ≤ e.quantity → LeftAtHead eps s' k e ∧
      (e.matchType = .market → ∀ b ∈ s'.book.bids, b.matchType ≠ .market) := by
  intro k e he hq
  have hleft : LeftAtHead eps s' k e := by
    cases bookStep_cases hstep with
    | @tick l l' added committed t hl =>
      cases hl with
      | @returns book i hi =>
        have hk : k < i := hi ▸ (List.getElem?_eq_some_iff.mp he).1
        exact (asksLeft heps h k e hk he hq).tick hstep
      | visit | pass | erase => cases hret
      | @trade book i j matched a b t mp =>
        obtain ⟨j', hpc⟩ := @afterCommit_pc τ eps book t mp i j
        rw [BookRun.pc, hpc] at hret
        cases hret
  exact ⟨hleft, hleft.no_market_bid⟩

theorem ask_left_behind : LeftAtHead epsilon leftBehind 0 (tklam 1 .ask .limit 1 10) := by
  have hreach : (bookMachine epsilon).Reachable leavingBehind :=
    ⟨[.addOrder (tklam 1 .ask .limit 1 10), .addOrder (tklam 2 .bid .limit 1 12),
      .addOrder (tklam 3 .bid .limit 1 10), .callMatch, .tick, .tick], by decide +kernel⟩
  have hret : (bookMachine epsilon).step leavingBehind .tick = some leftBehind := by
    decide +kernel
  exact (asks_left_at_head epsilon_pos hreach hret (runCalls_idle _) 0 _
    (by decide +kernel) (by decide +kernel)).1

/-! ## Asks overtaken -/

/-- No ask ahead of the trading ask and no bid ahead of the trading bid, with an
open quantity, is eligible for the trade the next step commits. -/
def QueuePriority (eps : ℚ) (s : BookRun τ) : Prop :=
  ∀ i j matched l t, s.pc = .inner i j matched → loopStep eps s.loop = some (l, some t) →
    (∀ e ∈ s.book.asks.take i, eps ≤ e.quantity → eligible eps e t.bidOrder = false) ∧
      ∀ e ∈ s.book.bids.take j, eps ≤ e.quantity → eligible eps t.askOrder e = false

/-- A limit ask at 10 is refused against a market bid at 5; a limit ask at 5
consumes that bid and goes on to a market bid at 20. -/
def overtakingEvents : List (BookEvent Nat) :=
  [.addOrder (tklam 1 .ask .limit 1 10), .addOrder (tklam 2 .ask .limit 2 5),
    .addOrder (tklam 3 .bid .market 1 5), .addOrder (tklam 4 .bid .market 1 20),
    .callMatch] ++ List.replicate 4 .tick

def overtaken : BookRun Nat := ((bookMachine epsilon).exec {} overtakingEvents).getD {}

theorem overtaken_reached : (bookMachine epsilon).Reachable overtaken ∧
    overtaken.pc = .inner 1 0 true :=
  ⟨⟨overtakingEvents, by decide +kernel⟩, by decide +kernel⟩

/-- The next step of `overtaken` fills the ask at 5 over the ask at 10. -/
theorem ask_overtaken : (bookMachine epsilon).Reachable overtaken ∧
    (∀ o ∈ overtaken.added, epsilon ≤ o.quantity) ∧ ¬ QueuePriority epsilon overtaken := by
  obtain ⟨hreach, hpc⟩ := overtaken_reached
  have hstep : ∃ r ∈ loopStep epsilon overtaken.loop, ∃ t ∈ r.2,
      ∃ e ∈ overtaken.book.asks.take 1, epsilon ≤ e.quantity ∧
        eligible epsilon e t.bidOrder = true := by decide +kernel
  refine ⟨hreach, by decide +kernel, fun h => ?_⟩
  obtain ⟨⟨l, t'⟩, hl, t, rfl, e, he, hq, hel⟩ := hstep
  rw [(h 1 0 true l t hpc hl).1 e he hq] at hel
  cases hel

/-- The bid of a trade is the head of `_bids`, so no bid is passed over; every
ask passed over with an open quantity was not eligible with the bid at the head
when its own turn ended; and no market ask is passed over for a market bid. -/
theorem trades_keep_bid_priority (heps : 0 < eps) {s : BookRun τ}
    (h : (bookMachine eps).Reachable s) {i j : Nat} {matched : Bool} {l : Loop τ}
    {t : TradedOrder τ} (hpc : s.pc = .inner i j matched)
    (hstep : loopStep eps s.loop = some (l, some t)) :
    j = 0 ∧ s.book.bids.head? = some t.bidOrder ∧
      ∀ k e, k < i → s.book.asks[k]? = some e → eps ≤ e.quantity → LeftAtHead eps s k e ∧
        ¬ (e.matchType = .market ∧ t.bidOrder.matchType = .market) := by
  obtain ⟨⟨book, pc⟩, added, committed⟩ := s
  cases hpc
  cases loopStep_cases hstep with
  | @trade _ _ _ _ a b _ mp ha hb hq ht =>
    obtain ⟨-, -, htb, -⟩ := tradeOf_some ht
    obtain rfl := trade_at_head heps h rfl ha hq
    refine ⟨rfl, by rw [List.head?_eq_getElem?, htb]; exact hb, fun k e hk he hqe => ?_⟩
    have hleft : LeftAtHead eps _ k e := asksLeft heps h k e hk he hqe
    refine ⟨hleft, fun ⟨hm, hbm⟩ => ?_⟩
    exact hleft.no_market_bid hm b (List.mem_of_getElem? hb) (htb ▸ hbm)

theorem overtaken_ask_was_left : LeftAtHead epsilon overtaken 0 (tklam 1 .ask .limit 1 10) := by
  obtain ⟨hreach, hpc⟩ := overtaken_reached
  have hstep : ∃ r ∈ loopStep epsilon overtaken.loop, r.2.isSome := by decide +kernel
  obtain ⟨⟨l, t⟩, hl, ht⟩ := hstep
  obtain ⟨t, rfl⟩ := Option.isSome_iff_exists.mp ht
  exact ((trades_keep_bid_priority epsilon_pos hreach hpc hl).2.2 0 _ Nat.zero_lt_one
    (by decide +kernel) (by decide +kernel)).1

end TradingMarket
