import TradingMarket.BookRun
import TradingMarket.Lib.Ledger

/-! # Quantity conservation over whole runs

Each side of a book is a ledger: adding an order opens an account under its
ghost tag, a trade draws the traded quantity from one ask and one bid, erasing
an order closes its account. Every event of a run is a sequence of ledger steps
on either side (`BookStep.ledger`), so the books of a run balance. -/
namespace TradingMarket

open Lib (Machine Ledger)
open Relation (ReflTransGen)

variable {τ : Type} {eps : ℚ}

/-! ## The two sides -/

inductive Side where
  | ask
  | bid
deriving DecidableEq, Repr

def Side.type : Side → OrderType
  | .ask => .ask
  | .bid => .bid

def OrderBook.queue (book : OrderBook τ) : Side → List (BookOrder τ)
  | .ask => book.asks
  | .bid => book.bids

def OrderBook.totalSize (book : OrderBook τ) : Side → Nat
  | .ask => book.totalAsksSize
  | .bid => book.totalBidsSize

def TradedOrder.order (t : TradedOrder τ) : Side → BookOrder τ
  | .ask => t.askOrder
  | .bid => t.bidOrder

/-- The orders a run added to one side. -/
def BookRun.addedTo (s : BookRun τ) (side : Side) : List (BookOrder τ) :=
  s.added.filter fun o => o.type = side.type

def account (o : BookOrder τ) : τ × ℚ := (o.tag, o.quantity)

def TradedOrder.draw (side : Side) (t : TradedOrder τ) : τ × ℚ :=
  ((t.order side).tag, t.tradedQuantity)

/-- One side of a run, as a ledger. -/
def BookRun.ledger (s : BookRun τ) (side : Side) : Ledger τ ℚ :=
  ⟨(s.book.queue side).map account, (s.addedTo side).map account,
    s.committed.map (TradedOrder.draw side)⟩

/-- The residue at which an order leaves the book. -/
def Residue (eps q : ℚ) : Prop := |q| < eps

theorem equal_zero {q : ℚ} : equal eps q 0 = true ↔ Residue eps q := by
  simp [equal, Residue]

@[simp] theorem account_fst (o : BookOrder τ) : (account o).1 = o.tag := rfl

theorem map_account_fst (l : List (BookOrder τ)) :
    (l.map account).map Prod.fst = l.map (·.tag) := by
  simp [Function.comp_def]

/-- Adding an order inserts it at its insertion point, or leaves the queue alone. -/
theorem queue_addOrder_eq (book : OrderBook τ) (o : BookOrder τ) (side : Side) :
    (book.addOrder eps o).queue side =
      if o.type = side.type then
        (book.queue side).take (insertionPoint eps o (book.queue side)) ++ o ::
          (book.queue side).drop (insertionPoint eps o (book.queue side))
      else book.queue side := by
  cases ht : o.type <;> cases side <;>
    simp only [Side.type, reduceCtorEq, if_true, if_false, OrderBook.addOrder, ht, OrderBook.queue,
      OrderBook.addAskOrder, OrderBook.addBidOrder]
  · exact addOrder_R_split eps o book.asks
  · exact addOrder_R_split eps o book.bids

/-- What a queue holds after an order is added. -/
theorem mem_addOrder {book : OrderBook τ} {o e : BookOrder τ} {side : Side} :
    e ∈ (book.addOrder eps o).queue side ↔
      (o.type = side.type ∧ e = o) ∨ e ∈ book.queue side := by
  rw [queue_addOrder_eq]
  split
  · rename_i hty
    rw [Lib.mem_insert]
    simp [hty]
  · rename_i hty
    simp [hty]

/-! ## The current ask -/

/-- `ask_it` points into `_asks` or at its end, to an ask while the inner loop
runs; once `isMatchAsk` is set, a trade of that ask has been committed. -/
def BookRun.AskMarked (s : BookRun τ) : Prop :=
  match s.pc with
  | .idle => True
  | .outer i => i ≤ s.book.asks.length
  | .inner i _ matched => ∃ a, s.book.asks[i]? = some a ∧
      (matched = true → a.tag ∈ s.committed.map (·.askOrder.tag))

theorem askMarked {s : BookRun τ} (h : (bookMachine eps).Reachable s) : s.AskMarked := by
  induction h using Machine.Reachable.induct with
  | start => trivial
  | step s e s' _ hstep ih =>
    cases bookStep_cases hstep with
    | addOrder => trivial
    | callMatch => exact Nat.zero_le _
    | @tick l l' added committed t hl =>
      cases hl with
      | returns => trivial
      | @visit book i hi =>
        have hle : i ≤ book.asks.length := ih
        have hlt : i < book.asks.length := by omega
        exact ⟨book.asks[i], List.getElem?_eq_getElem hlt, by simp⟩
      | pass ha => exact (List.getElem?_eq_some_iff.mp ha).1
      | @erase book i j a ha =>
        have hlt := (List.getElem?_eq_some_iff.mp ha).1
        show i ≤ (book.asks.eraseIdx i).length
        rw [List.length_eraseIdx_of_lt hlt]
        omega
      | @trade book i j matched a b t mp ha hb hq ht =>
        obtain ⟨j', hpc⟩ := @afterCommit_pc τ eps book t mp i j
        obtain ⟨-, hta, -⟩ := tradeOf_some ht
        unfold BookRun.AskMarked
        simp only [BookRun.pc, hpc, BookRun.book, afterCommit_asks]
        have hlt := (List.getElem?_eq_some_iff.mp ha).1
        exact ⟨t.askOrder.fill t.tradedQuantity, by simp [hlt], by simp⟩

/-! ## Every event is a sequence of ledger steps -/

theorem ledger_draw {l r : List (BookOrder τ)} {o : BookOrder τ} {q : ℚ}
    {opened draws : List (τ × ℚ)} :
    Ledger.Step (Residue eps) ⟨(l ++ o :: r).map account, opened, draws⟩
      ⟨(l ++ o.fill q :: r).map account, opened, draws ++ [(o.tag, q)]⟩ := by
  simp only [List.map_append, List.map_cons]
  exact .draw (l.map account) (r.map account) o.tag o.quantity q opened draws

theorem ledger_close {l r : List (BookOrder τ)} {o : BookOrder τ}
    {opened draws : List (τ × ℚ)} (hq : equal eps o.quantity 0 = true)
    (hd : o.tag ∈ draws.map Prod.fst) :
    Ledger.Step (Residue eps) ⟨(l ++ o :: r).map account, opened, draws⟩
      ⟨(l ++ r).map account, opened, draws⟩ := by
  simp only [List.map_append, List.map_cons]
  exact .close (l.map account) (r.map account) o.tag o.quantity opened draws (equal_zero.mp hq) hd

theorem LoopStep.ledger {l l' : Loop τ} {t : Option (TradedOrder τ)} {added : List (BookOrder τ)}
    {committed : List (TradedOrder τ)} (h : LoopStep eps l t l')
    (hm : (⟨l, added, committed⟩ : BookRun τ).AskMarked) (side : Side) :
    ReflTransGen (Ledger.Step (Residue eps)) ((⟨l, added, committed⟩ : BookRun τ).ledger side)
      ((⟨l', added, committed ++ t.toList⟩ : BookRun τ).ledger side) := by
  unfold BookRun.ledger
  cases h with
  | returns | visit | pass =>
    simp only [Option.toList_none, List.append_nil]
    exact .refl
  | @erase book i j a ha _ hq =>
    simp only [Option.toList_none, List.append_nil]
    cases side with
    | bid => exact .refl
    | ask =>
      obtain ⟨a', ha', hmark⟩ := hm
      obtain rfl : a' = a := Option.some.inj (ha'.symm.trans ha)
      obtain ⟨p, r, hasks, rfl⟩ := Lib.split_at ha
      simp only [BookRun.book, OrderBook.queue, hasks, Lib.eraseIdx_split]
      refine .single (ledger_close hq ?_)
      simpa [TradedOrder.draw, TradedOrder.order, Function.comp_def] using hmark rfl
  | @trade book i j matched a b t mp ha hb hq ht =>
    obtain ⟨-, hta, htb, -⟩ := tradeOf_some ht
    simp only [Option.toList_some, List.map_append, List.map_cons, List.map_nil]
    cases side with
    | ask =>
      obtain ⟨p, r, hasks, rfl⟩ := Lib.split_at ha
      simp only [BookRun.book, OrderBook.queue, afterCommit_asks, hasks, Lib.set_split, hta,
        TradedOrder.draw, TradedOrder.order]
      exact .single ledger_draw
    | bid =>
      obtain ⟨p, r, hbids, rfl⟩ := Lib.split_at hb
      have hdraw : ReflTransGen (Ledger.Step (Residue eps))
          ⟨(p ++ b :: r).map account, ((⟨⟨book, .idle⟩, added, committed⟩ : BookRun τ).addedTo
            .bid).map account, committed.map (TradedOrder.draw .bid)⟩
          ⟨(p ++ b.fill t.tradedQuantity :: r).map account, _, _⟩ := .single ledger_draw
      simp only [BookRun.book, OrderBook.queue, afterCommit_bids, hbids, Lib.set_split,
        Lib.eraseIdx_split, htb, TradedOrder.draw, TradedOrder.order]
      split
      · rename_i hres
        exact hdraw.tail (ledger_close hres (by simp))
      · exact hdraw

theorem BookStep.ledger {s s' : BookRun τ} {e : BookEvent τ} (h : BookStep eps s e s')
    (hm : s.AskMarked) (side : Side) :
    ReflTransGen (Ledger.Step (Residue eps)) (s.ledger side) (s'.ledger side) := by
  cases h with
  | @addOrder book added committed o =>
    unfold BookRun.ledger BookRun.addedTo
    simp only [List.filter_append, List.map_append]
    simp only [BookRun.book, queue_addOrder_eq]
    by_cases ht : o.type = side.type
    · have hsplit : (book.queue side).map account =
          ((book.queue side).take (insertionPoint eps o (book.queue side))).map account ++
            ((book.queue side).drop (insertionPoint eps o (book.queue side))).map account := by
        rw [← List.map_append, List.take_append_drop]
      simp only [hsplit, List.map_append, List.map_cons, ht, if_true, decide_true,
        List.filter_cons_of_pos, List.filter_nil, List.map_nil]
      exact .single (.opening _ _ _ _ _ _)
    · simp only [ht, if_false, decide_false, Bool.false_eq_true, not_false_eq_true,
        List.filter_cons_of_neg, List.filter_nil, List.map_nil, List.append_nil]
      exact .refl
  | callMatch => exact .refl
  | tick hl => exact hl.ledger hm side

/-! ## Where the orders of a queue come from -/

/-- A step of `match()` keeps, of either queue, a subsequence of the orders,
changed at most in their quantities. -/
theorem LoopStep.keys_sublist {l l' : Loop τ} {t : Option (TradedOrder τ)}
    (h : LoopStep eps l t l') (side : Side) :
    ((l'.book.queue side).map BookOrder.key).Sublist ((l.book.queue side).map BookOrder.key) := by
  cases h with
  | returns | visit | pass => exact .refl _
  | @erase book i j a ha =>
    cases side with
    | bid => exact .refl _
    | ask => exact (List.eraseIdx_sublist _ _).map _
  | @trade book i j matched a b t mp ha hb hq ht =>
    obtain ⟨-, hta, htb, -⟩ := tradeOf_some ht
    cases side with
    | ask =>
      obtain ⟨p, r, hasks, rfl⟩ := Lib.split_at ha
      simp [OrderBook.queue, afterCommit_asks, hasks, hta]
    | bid =>
      obtain ⟨p, r, hbids, rfl⟩ := Lib.split_at hb
      simp only [OrderBook.queue, afterCommit_bids, hbids, htb]
      split
      · rw [Lib.eraseIdx_split]
        simp
      · simp

/-- The orders of a queue were added to that side and still have all fields but
the quantity; so were both orders of every trade. -/
structure BookRun.Origins (s : BookRun τ) (side : Side) : Prop where
  queued : ∀ e ∈ s.book.queue side, ∃ o ∈ s.addedTo side, e.key = o.key
  traded : ∀ t ∈ s.committed, ∃ o ∈ s.addedTo side, (t.order side).key = o.key
  counted : s.book.totalSize side = (s.addedTo side).length

theorem LoopStep.trade_orders {l l' : Loop τ} {t : TradedOrder τ} (h : LoopStep eps l (some t) l')
    (side : Side) : t.order side ∈ l.book.queue side := by
  cases h with
  | @trade book i j matched a b t mp ha hb hq ht =>
    obtain ⟨-, rfl, rfl, -⟩ := tradeOf_some ht
    cases side with
    | ask => exact List.mem_of_getElem? ha
    | bid => exact List.mem_of_getElem? hb

theorem LoopStep.totalSize {l l' : Loop τ} {t : Option (TradedOrder τ)} (h : LoopStep eps l t l')
    (side : Side) : l'.book.totalSize side = l.book.totalSize side := by
  cases h with
  | returns | visit | pass => rfl
  | erase => cases side <;> rfl
  | trade => unfold afterCommit; dsimp only; split <;> cases side <;> rfl

theorem origins {s : BookRun τ} (h : (bookMachine eps).Reachable s) (side : Side) :
    s.Origins side := by
  induction h using Machine.Reachable.induct with
  | start => cases side <;> exact ⟨by simp [bookMachine, OrderBook.queue], by simp [bookMachine], rfl⟩
  | step s e s' _ hstep ih =>
    obtain ⟨hq, ht, hc⟩ := ih
    cases bookStep_cases hstep with
    | @addOrder book added committed o =>
      have hmono : ∀ p, (∃ o' ∈ added.filter fun o => o.type = side.type, p = o'.key) →
          ∃ o' ∈ (added ++ [o]).filter fun o => o.type = side.type, p = o'.key := by
        intro p hp
        obtain ⟨o', ho', hp⟩ := hp
        rw [List.filter_append]
        exact ⟨o', List.mem_append_left _ ho', hp⟩
      refine ⟨?_, fun t htc => hmono _ (ht t htc), ?_⟩
      · intro e he
        rcases mem_addOrder.mp he with ⟨hty, rfl⟩ | he
        · exact ⟨e, by simp [BookRun.addedTo, hty], rfl⟩
        · exact hmono _ (hq e he)
      · simp only [BookRun.book, BookRun.addedTo] at hc ⊢
        cases hty : o.type <;> cases side <;>
          simp_all [OrderBook.addOrder, OrderBook.totalSize, Side.type, OrderBook.addAskOrder,
            OrderBook.addBidOrder]
    | callMatch => exact ⟨hq, ht, hc⟩
    | @tick l l' added committed t hl =>
      refine ⟨?_, ?_, (hl.totalSize side).trans hc⟩
      · intro e he
        obtain ⟨e', he', hk⟩ := List.mem_map.mp
          ((hl.keys_sublist side).subset (List.mem_map.mpr ⟨e, he, rfl⟩))
        obtain ⟨o, ho, hko⟩ := hq e' he'
        exact ⟨o, ho, hk.symm.trans hko⟩
      · intro u hu
        rcases List.mem_append.mp hu with hu | hu
        · exact ht u hu
        · obtain rfl : t = some u := by simpa using hu
          exact hq _ (hl.trade_orders side)

/-! ## The law -/

section Law
variable [DecidableEq τ]

/-- The sum of `tradedQuantity` over the trades committed for the order of that
side with this tag. -/
def BookRun.tradedFor (s : BookRun τ) (side : Side) (tag : τ) : ℚ :=
  ((s.committed.filter fun t => (t.order side).tag = tag).map (·.tradedQuantity)).sum

/-- What quantity conservation says of one side of a book. -/
structure QuantityLaw (eps : ℚ) (s : BookRun τ) (side : Side) : Prop where
  /-- Each added order occurs at most once. -/
  once : ((s.book.queue side).map (·.tag)).Nodup
  /-- No order that was not added appears. -/
  known : ∀ e ∈ s.book.queue side, ∃ o ∈ s.addedTo side, e.key = o.key
  /-- An order that is still there holds what was added less what was traded. -/
  resting : ∀ o ∈ s.addedTo side, ∀ e ∈ s.book.queue side, e.tag = o.tag →
    o.quantity = e.quantity + s.tradedFor side o.tag
  /-- An order that left was traded, up to a residue below the tolerance. -/
  gone : ∀ o ∈ s.addedTo side, o.tag ∉ (s.book.queue side).map (·.tag) →
    (∃ t ∈ s.committed, (t.order side).tag = o.tag) ∧
      |o.quantity - s.tradedFor side o.tag| < eps
  /-- The counter counts the orders there and the orders removed. -/
  counted : s.book.totalSize side = (s.book.queue side).length +
    ((s.addedTo side).filter fun o => o.tag ∉ (s.book.queue side).map (·.tag)).length

/-- The step that commits `t` subtracts its quantity from one ask and one bid,
and touches no other order. -/
def SubtractsOnce (eps : ℚ) (t : TradedOrder τ) (book book' : OrderBook τ) : Prop :=
  ∃ i j, book.asks[i]? = some t.askOrder ∧ book.bids[j]? = some t.bidOrder ∧
    book'.asks = book.asks.set i (t.askOrder.fill t.tradedQuantity) ∧
    (book'.bids = book.bids.set j (t.bidOrder.fill t.tradedQuantity) ∨
      book'.bids = book.bids.eraseIdx j ∧ |t.bidOrder.quantity - t.tradedQuantity| < eps)

omit [DecidableEq τ] in
theorem LoopStep.subtractsOnce {l l' : Loop τ} {t : TradedOrder τ}
    (h : LoopStep eps l (some t) l') : SubtractsOnce eps t l.book l'.book := by
  cases h with
  | @trade book i j matched a b t mp ha hb hq ht =>
    obtain ⟨-, rfl, rfl, -⟩ := tradeOf_some ht
    refine ⟨i, j, ha, hb, afterCommit_asks book t mp i j, ?_⟩
    rw [afterCommit_bids]
    split
    · rename_i hres
      exact .inr ⟨rfl, equal_zero.mp hres⟩
    · exact .inl rfl

theorem drawn_ledger (s : BookRun τ) (side : Side) (tag : τ) :
    Ledger.drawn (s.ledger side).draws tag = s.tradedFor side tag := by
  simp only [Ledger.drawn, BookRun.ledger, BookRun.tradedFor, List.filter_map, List.map_map]
  rfl

theorem ledger_conserved {s : BookRun τ} (h : (bookMachine eps).Reachable s)
    (htags : (s.added.map (·.tag)).Nodup) (side : Side) :
    Ledger.Conserved (Residue eps) (s.ledger side) := by
  have hopened : ∀ s : BookRun τ, (s.added.map (·.tag)).Nodup →
      ((s.ledger side).opened.map Prod.fst).Nodup := fun s hs => by
    rw [BookRun.ledger, map_account_fst]
    exact (List.filter_sublist.map _).nodup hs
  induction h using Machine.Reachable.induct with
  | start => cases side <;> exact Ledger.Conserved.start _
  | step s e s' hs hstep ih =>
    have hsteps := (bookStep_cases hstep).ledger (askMarked hs) side
    have hadded : s.added.Sublist s'.added := by
      cases bookStep_cases hstep with
      | addOrder => exact List.sublist_append_left _ _
      | callMatch => exact .refl _
      | tick => exact .refl _
    exact Ledger.conserved_of_steps hsteps (hopened s' htags) (ih ((hadded.map _).nodup htags))

/-- The orders added to a side are those in its queue and those removed. -/
theorem split_count {added queue : List (BookOrder τ)} (ha : (added.map (·.tag)).Nodup)
    (hq : (queue.map (·.tag)).Nodup) (hsub : ∀ e ∈ queue, e.tag ∈ added.map (·.tag)) :
    added.length = queue.length +
      (added.filter fun o => o.tag ∉ queue.map (·.tag)).length := by
  have hperm : ((added.filter fun o => o.tag ∈ queue.map (·.tag)).map (·.tag)).Perm
      (queue.map (·.tag)) := by
    refine (List.perm_ext_iff_of_nodup ((List.filter_sublist.map _).nodup ha) hq).mpr fun k => ?_
    constructor
    · intro hk
      obtain ⟨o, ho, rfl⟩ := List.mem_map.mp hk
      simpa using (List.mem_filter.mp ho).2
    · intro hk
      obtain ⟨e, he, rfl⟩ := List.mem_map.mp hk
      obtain ⟨o, ho, hoe⟩ := List.mem_map.mp (hsub e he)
      exact List.mem_map.mpr ⟨o, List.mem_filter.mpr ⟨ho, by simpa [hoe] using ⟨e, he, rfl⟩⟩, hoe⟩
  have hlen := hperm.length_eq
  simp only [List.length_map] at hlen
  have hsplit := List.length_eq_length_filter_add (l := added)
    (fun o => decide (o.tag ∈ queue.map (·.tag)))
  simp only [← decide_not] at hsplit
  omega

theorem quantityLaw {s : BookRun τ} (h : (bookMachine eps).Reachable s)
    (htags : (s.added.map (·.tag)).Nodup) (side : Side) : QuantityLaw eps s side := by
  obtain ⟨honce, hbal, hclosed, -⟩ := ledger_conserved h htags side
  obtain ⟨hknown, -, hcounted⟩ := origins h side
  have haddedTags : ((s.addedTo side).map (·.tag)).Nodup := (List.filter_sublist.map _).nodup htags
  have hfst : (s.ledger side).accounts.map Prod.fst = (s.book.queue side).map (·.tag) :=
    map_account_fst _
  rw [hfst] at honce hclosed
  refine ⟨honce, hknown, ?_, ?_, ?_⟩
  · intro o ho e he htag
    have hb := hbal e.tag e.quantity (List.mem_map.mpr ⟨e, he, rfl⟩)
    rw [drawn_ledger] at hb
    obtain ⟨o', ho', hacc⟩ := List.mem_map.mp hb
    obtain ⟨ht', hq'⟩ := Prod.mk.inj hacc
    obtain rfl : o' = o := List.inj_on_of_nodup_map haddedTags ho' ho (ht'.trans htag)
    rw [hq', htag]
  · intro o ho hgone
    obtain ⟨hd, hres⟩ := hclosed o.tag o.quantity (List.mem_map.mpr ⟨o, ho, rfl⟩) hgone
    rw [drawn_ledger] at hres
    refine ⟨?_, hres⟩
    simpa [BookRun.ledger, TradedOrder.draw, Function.comp_def] using hd
  · rw [hcounted]
    refine split_count haddedTags honce fun e he => ?_
    obtain ⟨o, ho, hk⟩ := hknown e he
    exact List.mem_map.mpr ⟨o, ho, by rw [← key_tag o, ← hk, key_tag]⟩

/-- In every state a run of a new book reaches, with the orders followed by
distinct tags, quantities are conserved on both sides; and every step that
commits a trade subtracts the traded quantity from one ask and one bid. -/
theorem quantity_conserved {s : BookRun τ} (h : (bookMachine eps).Reachable s)
    (htags : (s.added.map (·.tag)).Nodup) :
    (∀ side, QuantityLaw eps s side) ∧
      ∀ e s' t, (bookMachine eps).step s e = some s' → s'.committed = s.committed ++ [t] →
        SubtractsOnce eps t s.book s'.book := by
  refine ⟨quantityLaw h htags, ?_⟩
  intro e s' t hstep ht
  cases bookStep_cases hstep with
  | addOrder => simp at ht
  | callMatch => simp at ht
  | @tick l l' added committed u hl =>
    obtain rfl : u = some t := by
      cases u with
      | none => simp at ht
      | some u => simpa using ht
    exact hl.subtractsOnce

theorem partial_fill_conserved :
    QuantityLaw epsilon (runCalls epsilon
      [.addOrder (tklam 1 .ask .market 5 10), .addOrder (tklam 2 .bid .limit 2 10),
        .callMatch]) .ask :=
  (quantity_conserved (runCalls_reachable _) (by decide +kernel)).1 .ask

end Law

end TradingMarket
