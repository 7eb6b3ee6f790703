import TradingMarket.MatchOrderBook

/-! # What the order of arrival decides

Where an order stands among others is decided once, when it is added: two orders
that rest in a queue never change places, whatever is added, filled or erased
(`queues_keep_order`). And within the batch that `MatchOrderBook::match` takes at
once the order of arrival decides nothing, as long as the comparators can tell
the orders apart (`batch_order_irrelevant`). -/
namespace TradingMarket

open Lib (Machine KeepsOrder)

variable {τ : Type} {eps : ℚ}

/-! ## Standing in the queue -/

section Standing
variable [DecidableEq τ]

omit [DecidableEq τ] in
/-- The orders of a queue have been added. -/
theorem tags_added {s : BookRun τ} (h : (bookMachine eps).Reachable s) (side : Side) :
    ∀ x ∈ tags (s.book.queue side), x ∈ tags s.added := by
  intro x hx
  obtain ⟨e, he, rfl⟩ := List.mem_map.mp hx
  obtain ⟨o, ho, hkey⟩ := (origins h side).queued e he
  rw [tag_of_key hkey]
  exact List.mem_map_of_mem (List.mem_of_mem_filter ho)

/-- What one event does to a queue that holds some of the orders of an older one. -/
theorem BookStep.keepsOrder {old : List τ} {s s' : BookRun τ} {e : BookEvent τ} {side : Side}
    (h : BookStep eps s e s') (hnd : (tags s'.added).Nodup)
    (hqueue : (tags (s.book.queue side)).Nodup) (hold : ∀ x ∈ old, x ∈ tags s.added)
    (hkeeps : KeepsOrder old (tags (s.book.queue side))) :
    KeepsOrder old (tags (s'.book.queue side)) := by
  cases h with
  | callMatch => exact hkeeps
  | @tick l l' added committed t hl =>
    have htags := (hl.keys_sublist side).map (·.tag)
    simp only [List.map_map, Function.comp_def, key_tag] at htags
    exact hkeeps.shrink htags hqueue
  | @addOrder book added committed o =>
    simp only [BookRun.book, queue_addOrder_eq]
    split
    · have hnew : o.tag ∉ tags added := by
        rw [tags, List.map_append, List.nodup_append] at hnd
        exact fun hmem => hnd.2.2 _ hmem o.tag (by simp) rfl
      have hsplit : tags ((book.queue side).take (insertionPoint eps o (book.queue side)) ++ o ::
          (book.queue side).drop (insertionPoint eps o (book.queue side))) =
          (tags (book.queue side)).take (insertionPoint eps o (book.queue side)) ++ o.tag ::
            (tags (book.queue side)).drop (insertionPoint eps o (book.queue side)) := by
        simp [tags]
      rw [hsplit]
      refine hkeeps.grow (Lib.sublist_insert _ _ _) fun x hx hin => ?_
      rcases Lib.mem_insert.mp hin with rfl | hin
      · exact absurd (hold _ hx) hnew
      · exact hin
    · exact hkeeps

/-- From any state of a run to any later one, the orders that still rest in a queue
rest in it in the order they had. -/
theorem queues_keep_order {s s' : BookRun τ} (h : (bookMachine eps).Reachable s)
    (h' : (bookMachine eps).Reaches s s') (htags : (tags s'.added).Nodup) (side : Side) :
    KeepsOrder (tags (s.book.queue side)) (tags (s'.book.queue side)) := by
  have hall := h'.preserves (P := fun u => (bookMachine eps).Reachable u ∧
    (∀ x ∈ tags (s.book.queue side), x ∈ tags u.added) ∧
      ((tags u.added).Nodup → KeepsOrder (tags (s.book.queue side)) (tags (u.book.queue side))))
    ?_ ⟨h, tags_added h side, fun _ => .refl _⟩
  · exact hall.2.2 htags
  · intro u e v hu hstep
    obtain ⟨hreach, hold, hkeeps⟩ := hu
    have hmore : (tags u.added).Sublist (tags v.added) :=
      ((reaches_appends (.single hstep)).1.sublist).map _
    refine ⟨hreach.reaches (.single hstep), fun x hx => hmore.subset (hold x hx), fun hnd => ?_⟩
    have hndu := hmore.nodup hnd
    exact (bookStep_cases hstep).keepsOrder hnd (quantityLaw hreach hndu side).once hold
      (hkeeps hndu)

/-- An ask that is added before the better one, which goes in front of it; the
third is filled. -/
def queueCalls : List (BookCall Nat) :=
  [.addOrder (tklam 1 .ask .limit 1 10), .addOrder (tklam 2 .ask .limit 1 12),
    .addOrder (tklam 3 .ask .market 1 10)]

theorem queueCalls_keep_order :
    tags ((runCalls epsilon queueCalls).book.queue .ask) = [3, 2, 1] ∧
      KeepsOrder (tags ((runCalls epsilon queueCalls).book.queue .ask))
        (tags (((runCalls epsilon queueCalls).call epsilon
          (.addOrder (tklam 4 .ask .limit 1 11))).book.queue .ask)) :=
  ⟨by decide +kernel, queues_keep_order (runCalls_reachable queueCalls)
    (call_reaches _ (runCalls_idle queueCalls) _) (by decide +kernel) .ask⟩

end Standing

/-! ## The order within a batch -/

theorem addOrders_book (batch : List (BookOrder τ)) : ∀ {s : BookRun τ}, s.pc = .idle →
    batch.foldl (BookRun.add eps) s =
      ⟨⟨s.book.addOrders eps batch, .idle⟩, s.added ++ batch, s.committed⟩ := by
  induction batch with
  | nil =>
    intro s hidle
    obtain ⟨⟨book, pc⟩, added, committed⟩ := s
    cases hidle
    simp [OrderBook.addOrders]
  | cons o batch ih =>
    intro s hidle
    rw [List.foldl_cons, ih rfl]
    simp [BookRun.add, BookRun.call, OrderBook.addOrders]

theorem addOrder_marketPrice (book : OrderBook τ) (o : BookOrder τ) :
    (book.addOrder eps o).marketPrice = book.marketPrice := by
  unfold OrderBook.addOrder
  split <;> rfl

theorem addOrder_totalSize (book : OrderBook τ) (o : BookOrder τ) (side : Side) :
    (book.addOrder eps o).totalSize side =
      book.totalSize side + (ofSide side [o]).length := by
  unfold OrderBook.addOrder
  split <;> rename_i hty <;> cases side <;>
    simp [OrderBook.totalSize, OrderBook.addAskOrder, OrderBook.addBidOrder, ofSide, hty, Side.type]

/-- What adding orders leaves of a book besides its queues. -/
theorem addOrders_rest (orders : List (BookOrder τ)) : ∀ book : OrderBook τ,
    (book.addOrders eps orders).marketPrice = book.marketPrice ∧
      ∀ side, (book.addOrders eps orders).totalSize side =
        book.totalSize side + (ofSide side orders).length := by
  induction orders with
  | nil => exact fun book => ⟨rfl, fun side => rfl⟩
  | cons o orders ih =>
    intro book
    obtain ⟨hprice, htotal⟩ := ih (book.addOrder eps o)
    refine ⟨hprice.trans (addOrder_marketPrice book o), fun side => (htotal side).trans ?_⟩
    have hcons : ofSide side (o :: orders) = ofSide side [o] ++ ofSide side orders := by
      rw [← ofSide_append]
      rfl
    rw [addOrder_totalSize, hcons, List.length_append, Nat.add_assoc]

/-- Orders the comparators can tell apart make the same book in whatever order they
are added. -/
theorem addOrders_eq (heps : 0 < eps) {known : List (BookOrder τ)} {book : OrderBook τ}
    (hb : BookRanked known book) {l l' : List (BookOrder τ)} (hp : l.Perm l')
    (ha : Apart eps (known ++ l)) : book.addOrders eps l = book.addOrders eps l' := by
  have hqueues := addOrders_comm heps hb hp ha
  obtain ⟨hprice, htotal⟩ := @addOrders_rest τ eps l book
  obtain ⟨hprice', htotal'⟩ := @addOrders_rest τ eps l' book
  have hlength : ∀ side, (ofSide side l).length = (ofSide side l').length :=
    fun side => (hp.filter _).length_eq
  have htotals : ∀ side, (book.addOrders eps l).totalSize side =
      (book.addOrders eps l').totalSize side := fun side => by rw [htotal, htotal', hlength]
  have hasks := hqueues .ask
  have hbids := hqueues .bid
  have htotalAsks := htotals .ask
  have htotalBids := htotals .bid
  rw [← hprice'] at hprice
  generalize book.addOrders eps l = b at *
  generalize book.addOrders eps l' = b' at *
  obtain ⟨mp, asks, bids, ta, tb⟩ := b
  obtain ⟨mp', asks', bids', ta', tb'⟩ := b'
  simp only [OrderBook.queue, OrderBook.totalSize] at hasks hbids htotalAsks htotalBids hprice
  subst hasks hbids htotalAsks htotalBids hprice
  rfl

theorem BookRanked.matchOrders {known : List (BookOrder τ)} {book : OrderBook τ}
    (h : BookRanked known book) : BookRanked known (book.matchOrders eps) := by
  have hruns : ∀ {l l' : Loop τ} {ts : List (TradedOrder τ)}, LoopRuns eps l ts l' →
      BookRanked known l.book → BookRanked known l'.book := by
    intro l l' ts hr hl
    induction hr with
    | done => exact hl
    | step hs _ ih => exact ih (hl.loopStep (loopStep_cases hs))
  exact hruns (loop_runs book) h

/-- Batch by batch in any order, from books that agree. -/
theorem batches_perm (heps : 0 < eps) {batches batches' : List (List (BookOrder τ))}
    (h : List.Forall₂ List.Perm batches batches') :
    ∀ {known : List (BookOrder τ)} {s s' : BookRun τ}, s.pc = .idle → s'.loop = s.loop →
      s'.committed = s.committed → BookRanked known s.book →
      Apart eps (known ++ batches.flatten) →
      (batches'.foldl (BookRun.matchBatch eps) s').loop =
          (batches.foldl (BookRun.matchBatch eps) s).loop ∧
        (batches'.foldl (BookRun.matchBatch eps) s').committed =
          (batches.foldl (BookRun.matchBatch eps) s).committed := by
  induction h with
  | nil => exact fun _ hloop hcommitted _ _ => ⟨hloop, hcommitted⟩
  | @cons batch batch' batches batches' hperm _ ih =>
    intro known s s' hidle hloop hcommitted hranked hapart
    rw [List.flatten_cons, ← List.append_assoc] at hapart
    have hbatch : Apart eps (known ++ batch) := hapart.sublist (List.sublist_append_left _ _)
    have hbook : s'.book.addOrders eps batch' = s.book.addOrders eps batch := by
      rw [show s'.book = s.book from congrArg Loop.book hloop]
      exact (addOrders_eq heps hranked hperm hbatch).symm
    have hidle' : s'.pc = .idle := (congrArg Loop.pc hloop).trans hidle
    rw [List.foldl_cons, List.foldl_cons]
    refine ih rfl ?_ ?_ ?_ hapart
    · simp only [BookRun.matchBatch, addOrders_book _ hidle, addOrders_book _ hidle', BookRun.settle,
        BookRun.call, hbook]
    · simp only [BookRun.matchBatch, addOrders_book _ hidle, addOrders_book _ hidle', BookRun.settle,
        BookRun.call, hbook, hcommitted]
    · rw [BookRun.matchBatch, addOrders_book _ hidle]
      exact (hranked.addOrders heps hbatch).matchOrders

theorem bookRanked_new : BookRanked [] ({} : BookRun τ).book := by
  intro side
  cases side <;> exact ⟨fun e he => (List.not_mem_nil he).elim, .nil⟩

/-- Orders with distinct sequence numbers and separated prices make the same trades
and leave the same book in whatever order those of each batch arrive. -/
theorem batch_order_irrelevant (heps : 0 < eps) {batches batches' : List (List (BookOrder τ))}
    (h : List.Forall₂ List.Perm batches batches') (ha : Apart eps batches.flatten) :
    (matchBatches eps batches').loop = (matchBatches eps batches).loop ∧
      (matchBatches eps batches').committed = (matchBatches eps batches).committed :=
  batches_perm heps h rfl rfl rfl bookRanked_new ha

/-- The two orders of the second batch the other way round. -/
theorem swapped_batch :
    (matchBatches epsilon [[tklam 1 .bid .limit 2 10], [tklam 3 .ask .limit 1 10,
      tklam 2 .ask .market 1 11]]).committed =
    (matchBatches epsilon [[tklam 1 .bid .limit 2 10], [tklam 2 .ask .market 1 11,
      tklam 3 .ask .limit 1 10]]).committed :=
  (batch_order_irrelevant epsilon_pos (.cons .rfl (.cons (.swap _ _ _) .nil))
    (apart_iff.mpr (by decide +kernel))).2

end TradingMarket
