import TradingMarket.OrderBook
import TradingMarket.Lib.Machine

/-! # `match()` one iteration at a time

The loops of `match()` as they run: the book is updated in place and the two
iterators are positions in its deques. One step is one evaluation of a loop
test with the body it selects, so the states between two steps are the moments
at which a trade has been committed and subtracted, or an ask has been left.
`LoopStep` says once what a step can do; the run of the loops computes
`matchAsks` (`loop_runs`). -/
namespace TradingMarket

variable {τ : Type} (eps : ℚ)

/-- Where `match()` is: not running, at the test of the outer loop, or at the
test of the inner loop. -/
inductive LoopPc where
  | idle
  | outer (askIt : Nat)
  | inner (askIt bidIt : Nat) (isMatchAsk : Bool)
deriving DecidableEq, Repr

structure Loop (τ : Type) where
  book : OrderBook τ := {}
  pc : LoopPc := .idle
deriving DecidableEq, Repr

/-- The code after the inner loop: erase the ask or step past it. -/
def leaveAsk (book : OrderBook τ) (askOrder : BookOrder τ) (askIt : Nat) (isMatchAsk : Bool) :
    Loop τ :=
  if isMatchAsk && equal eps askOrder.quantity 0 then
    ⟨{ book with asks := book.asks.eraseIdx askIt }, .outer askIt⟩
  else ⟨book, .outer (askIt + 1)⟩

/-- The body of the inner loop after a commit: both subtractions, the market
price, and the bid erased or stepped past. -/
def afterCommit (book : OrderBook τ) (tradedOrder : TradedOrder τ) (marketPrice : ℚ)
    (askIt bidIt : Nat) : Loop τ :=
  let askOrder := tradedOrder.askOrder.fill tradedOrder.tradedQuantity
  let bidOrder := tradedOrder.bidOrder.fill tradedOrder.tradedQuantity
  let asks := book.asks.set askIt askOrder
  if equal eps bidOrder.quantity 0 then
    ⟨{ book with asks, bids := book.bids.eraseIdx bidIt, marketPrice }, .inner askIt bidIt true⟩
  else
    ⟨{ book with asks, bids := book.bids.set bidIt bidOrder, marketPrice },
      .inner askIt (bidIt + 1) true⟩

/-- One step of the loops, with the trade it commits. `none`: `match()` is not
running, or `ask_it` does not point to an ask. -/
def loopStep : Loop τ → Option (Loop τ × Option (TradedOrder τ))
  | ⟨_, .idle⟩ => none
  | ⟨book, .outer askIt⟩ =>
    if askIt = book.asks.length then some (⟨book, .idle⟩, none)
    else some (⟨book, .inner askIt 0 false⟩, none)
  | ⟨book, .inner askIt bidIt isMatchAsk⟩ =>
    book.asks[askIt]?.map fun askOrder =>
      match book.bids[bidIt]? with
      | none => (leaveAsk eps book askOrder askIt isMatchAsk, none)
      | some bidOrder =>
        if equal eps askOrder.quantity 0 then (leaveAsk eps book askOrder askIt isMatchAsk, none)
        else
          match tradeOf eps book.marketPrice askOrder bidOrder with
          | none => (leaveAsk eps book askOrder askIt isMatchAsk, none)
          | some (tradedOrder, marketPrice) =>
            (afterCommit eps book tradedOrder marketPrice askIt bidIt, some tradedOrder)

variable {eps}

theorem afterCommit_erased {book : OrderBook τ} {t : TradedOrder τ} {mp : ℚ} {i j : Nat}
    (h : equal eps (t.bidOrder.fill t.tradedQuantity).quantity 0 = true) :
    afterCommit eps book t mp i j =
      ⟨{ book with asks := book.asks.set i (t.askOrder.fill t.tradedQuantity)
                   bids := book.bids.eraseIdx j, marketPrice := mp }, .inner i j true⟩ :=
  if_pos h

theorem afterCommit_kept {book : OrderBook τ} {t : TradedOrder τ} {mp : ℚ} {i j : Nat}
    (h : equal eps (t.bidOrder.fill t.tradedQuantity).quantity 0 = false) :
    afterCommit eps book t mp i j =
      ⟨{ book with asks := book.asks.set i (t.askOrder.fill t.tradedQuantity)
                   bids := book.bids.set j (t.bidOrder.fill t.tradedQuantity), marketPrice := mp },
        .inner i (j + 1) true⟩ :=
  if_neg (Bool.not_eq_true _ ▸ h)

theorem afterCommit_asks (book : OrderBook τ) (t : TradedOrder τ) (mp : ℚ) (i j : Nat) :
    (afterCommit eps book t mp i j).book.asks =
      book.asks.set i (t.askOrder.fill t.tradedQuantity) := by
  unfold afterCommit; dsimp only; split <;> rfl

theorem afterCommit_bids (book : OrderBook τ) (t : TradedOrder τ) (mp : ℚ) (i j : Nat) :
    (afterCommit eps book t mp i j).book.bids =
      if equal eps (t.bidOrder.fill t.tradedQuantity).quantity 0 then book.bids.eraseIdx j
      else book.bids.set j (t.bidOrder.fill t.tradedQuantity) := by
  unfold afterCommit; dsimp only; split <;> rfl

theorem afterCommit_pc (book : OrderBook τ) (t : TradedOrder τ) (mp : ℚ) (i j : Nat) :
    ∃ j', (afterCommit eps book t mp i j).pc = .inner i j' true := by
  unfold afterCommit; dsimp only; split <;> exact ⟨_, rfl⟩

/-! ## What a step can do -/

/-- The ways the inner loop ends at bid position `j`: no bid there, an ask used
up, or a bid the ask cannot trade with. -/
def Stops (eps : ℚ) (book : OrderBook τ) (a : BookOrder τ) (j : Nat) : Prop :=
  ∀ b, book.bids[j]? = some b → equal eps a.quantity 0 = true ∨ eligible eps a b = false

inductive LoopStep (eps : ℚ) : Loop τ → Option (TradedOrder τ) → Loop τ → Prop
  | returns {book i} : i = book.asks.length → LoopStep eps ⟨book, .outer i⟩ none ⟨book, .idle⟩
  | visit {book i} : i ≠ book.asks.length →
      LoopStep eps ⟨book, .outer i⟩ none ⟨book, .inner i 0 false⟩
  | pass {book i j matched a} : book.asks[i]? = some a → Stops eps book a j →
      (matched && equal eps a.quantity 0) = false →
      LoopStep eps ⟨book, .inner i j matched⟩ none ⟨book, .outer (i + 1)⟩
  | erase {book i j a} : book.asks[i]? = some a → Stops eps book a j →
      equal eps a.quantity 0 = true →
      LoopStep eps ⟨book, .inner i j true⟩ none
        ⟨{ book with asks := book.asks.eraseIdx i }, .outer i⟩
  | trade {book i j matched a b t mp} : book.asks[i]? = some a → book.bids[j]? = some b →
      equal eps a.quantity 0 = false → tradeOf eps book.marketPrice a b = some (t, mp) →
      LoopStep eps ⟨book, .inner i j matched⟩ (some t) (afterCommit eps book t mp i j)

theorem leaveAsk_step {book : OrderBook τ} {a : BookOrder τ} {i j : Nat} {matched : Bool}
    (ha : book.asks[i]? = some a) (hs : Stops eps book a j) :
    LoopStep eps ⟨book, .inner i j matched⟩ none (leaveAsk eps book a i matched) := by
  unfold leaveAsk
  split
  · rename_i hm
    obtain ⟨rfl, hq⟩ := Bool.and_eq_true_iff.mp hm
    exact .erase ha hs hq
  · rename_i hm
    exact .pass ha hs (by simpa using hm)

/-- What one step of the loops can do, guards included. -/
theorem loopStep_cases {l l' : Loop τ} {t : Option (TradedOrder τ)}
    (h : loopStep eps l = some (l', t)) : LoopStep eps l t l' := by
  obtain ⟨book, pc⟩ := l
  cases pc with
  | idle => simp [loopStep] at h
  | outer i =>
    simp only [loopStep] at h
    split at h <;> simp only [Option.some.injEq, Prod.mk.injEq] at h <;> obtain ⟨rfl, rfl⟩ := h
    · rename_i hi
      exact .returns hi
    · rename_i hi
      exact .visit hi
  | inner i j matched =>
    simp only [loopStep, Option.map_eq_some_iff] at h
    obtain ⟨a, ha, h⟩ := h
    split at h
    · rename_i hb
      cases h
      exact leaveAsk_step ha (fun b hb' => by rw [hb] at hb'; cases hb')
    · rename_i b hb
      have hsame : ∀ b', book.bids[j]? = some b' → b' = b := by
        intro b' hb'; rw [hb] at hb'; exact (Option.some.inj hb').symm
      split at h
      · rename_i hq
        cases h
        exact leaveAsk_step ha (fun b' _ => .inl hq)
      · rename_i hq
        split at h
        · rename_i hn
          cases h
          exact leaveAsk_step ha (fun b' hb' => .inr (hsame b' hb' ▸ tradeOf_none.mp hn))
        · rename_i t mp ht
          cases h
          exact .trade ha hb (by simpa using hq) ht

/-! ## The run of the loops -/

/-- Steps of the loops one after the other, with the trades they commit. -/
inductive LoopRuns (eps : ℚ) : Loop τ → List (TradedOrder τ) → Loop τ → Prop
  | done (l : Loop τ) : LoopRuns eps l [] l
  | step {l l' l'' t ts} : loopStep eps l = some (l', t) → LoopRuns eps l' ts l'' →
      LoopRuns eps l (t.toList ++ ts) l''

theorem LoopRuns.trans {l l' l'' : Loop τ} {ts us : List (TradedOrder τ)}
    (h : LoopRuns eps l ts l') (h' : LoopRuns eps l' us l'') : LoopRuns eps l (ts ++ us) l'' := by
  induction h with
  | done => exact h'
  | step hs _ ih => rw [List.append_assoc]; exact .step hs (ih h')

theorem LoopRuns.single {l l' : Loop τ} {t : Option (TradedOrder τ)}
    (h : loopStep eps l = some (l', t)) : LoopRuns eps l t.toList l' := by
  simpa using LoopRuns.step h (.done l')

/-- The inner loop, from any bid position to its end, computes `matchAsk`. -/
theorem inner_runs (asks front : List (BookOrder τ)) (ta tb i : Nat) :
    ∀ (bids : List (BookOrder τ)) (a : BookOrder τ) (mp : ℚ) (matched : Bool), i < asks.length →
      LoopRuns eps ⟨⟨mp, asks.set i a, front ++ bids, ta, tb⟩, .inner i front.length matched⟩
        (matchAsk eps a mp bids).trades
        (leaveAsk eps
          ⟨(matchAsk eps a mp bids).marketPrice, asks.set i (matchAsk eps a mp bids).askOrder,
            front ++ (matchAsk eps a mp bids).bids, ta, tb⟩
          (matchAsk eps a mp bids).askOrder i (matched || (matchAsk eps a mp bids).isMatchAsk)) := by
  intro bids
  induction bids generalizing front with
  | nil =>
    intro a mp matched hi
    refine .single (t := none) ?_
    simp [loopStep, matchAsk, hi]
  | cons b bids ih =>
    intro a mp matched hi
    by_cases hq : equal eps a.quantity 0 = true
    · rw [matchAsk_stop (.inl hq)]
      refine .single (t := none) ?_
      simp [loopStep, hi, hq]
    · cases ht : tradeOf eps mp a b with
      | none =>
        rw [matchAsk_stop (.inr (tradeOf_none.mp ht))]
        refine .single (t := none) ?_
        simp [loopStep, hi, hq, ht]
      | some r =>
        obtain ⟨t, mp'⟩ := r
        obtain ⟨-, hta, htb, -⟩ := tradeOf_some ht
        rw [matchAsk_trade (by simpa using hq) ht]
        have hstep : loopStep eps ⟨⟨mp, asks.set i a, front ++ b :: bids, ta, tb⟩,
            .inner i front.length matched⟩ = some (afterCommit eps
              ⟨mp, asks.set i a, front ++ b :: bids, ta, tb⟩ t mp' i front.length, some t) := by
          simp [loopStep, hi, hq, ht]
        refine .step hstep ?_
        simp only [afterCommit, hta, htb, List.set_set]
        by_cases hb : equal eps (b.quantity - t.tradedQuantity) 0 = true
        · have hrest := ih front (a.fill t.tradedQuantity) mp' true hi
          simpa [hq, hb, List.eraseIdx_append_of_length_le] using hrest
        · have hrest := ih (front ++ [b.fill t.tradedQuantity]) (a.fill t.tradedQuantity) mp' true hi
          simpa [hq, hb] using hrest

/-- The turn of one ask, from the test of the outer loop to the next one. -/
theorem turn_runs (ta tb : Nat) (front after bids : List (BookOrder τ)) (a : BookOrder τ)
    (mp : ℚ) :
    LoopRuns eps ⟨⟨mp, front ++ a :: after, bids, ta, tb⟩, .outer front.length⟩
      (matchAsk eps a mp bids).trades
      ⟨⟨(matchAsk eps a mp bids).marketPrice,
        (front ++ (matchAsk eps a mp bids).asks eps) ++ after, (matchAsk eps a mp bids).bids,
        ta, tb⟩, .outer (front ++ (matchAsk eps a mp bids).asks eps).length⟩ := by
  have hvisit : loopStep eps ⟨⟨mp, front ++ a :: after, bids, ta, tb⟩, .outer front.length⟩ =
      some (⟨⟨mp, front ++ a :: after, bids, ta, tb⟩, .inner front.length 0 false⟩, none) := by
    simp [loopStep]
  have hinner := @inner_runs τ eps (front ++ a :: after) [] ta tb front.length bids a mp
    false (by simp)
  simp only [List.set_append_right, Nat.sub_self, List.set_cons_zero, List.nil_append,
    List.length_nil, Bool.false_or, le_refl] at hinner
  refine .step hvisit ?_
  generalize matchAsk eps a mp bids = turn at hinner ⊢
  unfold leaveAsk at hinner
  unfold AskTurn.asks
  split
  · rename_i hm
    simpa [hm, List.eraseIdx_append_of_length_le] using hinner
  · rename_i hm
    simpa [hm] using hinner

/-- The outer loop, over some of the asks, computes `matchAsks` of them. -/
theorem asks_run (ta tb : Nat) (after : List (BookOrder τ)) :
    ∀ (asks front bids : List (BookOrder τ)) (mp : ℚ),
      LoopRuns eps ⟨⟨mp, front ++ asks ++ after, bids, ta, tb⟩, .outer front.length⟩
        (matchAsks eps asks bids mp).trades
        ⟨⟨(matchAsks eps asks bids mp).marketPrice,
          (front ++ (matchAsks eps asks bids mp).asks) ++ after, (matchAsks eps asks bids mp).bids,
          ta, tb⟩, .outer (front ++ (matchAsks eps asks bids mp).asks).length⟩ := by
  intro asks
  induction asks with
  | nil =>
    intro front bids mp
    simpa [matchAsks] using LoopRuns.done _
  | cons a asks ih =>
    intro front bids mp
    have hturn := @turn_runs τ eps ta tb front (asks ++ after) bids a mp
    have hrest := ih (front ++ (matchAsk eps a mp bids).asks eps) (matchAsk eps a mp bids).bids
      (matchAsk eps a mp bids).marketPrice
    rw [List.append_assoc _ asks after] at hrest
    rw [matchAsks_cons]
    simpa [List.append_assoc] using hturn.trans hrest

/-- The outer loop, from any ask position to its end, computes `matchAsks`. -/
theorem outer_runs (ta tb : Nat) (asks front bids : List (BookOrder τ)) (mp : ℚ) :
    LoopRuns eps ⟨⟨mp, front ++ asks, bids, ta, tb⟩, .outer front.length⟩
      (matchAsks eps asks bids mp).trades
      ⟨⟨(matchAsks eps asks bids mp).marketPrice, front ++ (matchAsks eps asks bids mp).asks,
        (matchAsks eps asks bids mp).bids, ta, tb⟩, .idle⟩ := by
  have hasks := @asks_run τ eps ta tb [] asks front bids mp
  simp only [List.append_nil] at hasks
  have hreturn : loopStep eps ⟨⟨(matchAsks eps asks bids mp).marketPrice,
      front ++ (matchAsks eps asks bids mp).asks, (matchAsks eps asks bids mp).bids, ta, tb⟩,
      .outer (front ++ (matchAsks eps asks bids mp).asks).length⟩ = some (⟨⟨_, _, _, _, _⟩, .idle⟩,
        none) := if_pos rfl
  simpa using hasks.trans (.single hreturn)

/-- A call of `match()` returns, with the book of `matchOrders` and the trades
of `trades`. -/
theorem loop_runs (book : OrderBook τ) :
    LoopRuns eps ⟨book, .outer 0⟩ (book.trades eps) ⟨book.matchOrders eps, .idle⟩ :=
  outer_runs book.totalAsksSize book.totalBidsSize book.asks [] book.bids book.marketPrice

end TradingMarket
