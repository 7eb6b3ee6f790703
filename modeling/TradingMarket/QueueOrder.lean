import Mathlib.Data.Prod.Lex
import Mathlib.Tactic.Linarith
import TradingMarket.Conservation
import TradingMarket.Lib.Sorting

/-! # The order of the queues

Two facts about what `addOrder_R` and `match()` keep of the order of a queue.
For every comparator outcome the bisection can meet, market orders stay before
limit orders. Where sequence numbers are distinct and unequal prices are more
than the tolerance apart, the comparators agree with a linear order, `rank`, and
the queues stay strictly sorted by it. -/
namespace TradingMarket

open Lib (Machine SortsBy StrictWeakOn)

variable {τ : Type} {eps : ℚ}

/-! ## Market orders first -/

/-- No market order stands behind a limit order. -/
def MarketFirst (orders : List (BookOrder τ)) : Prop :=
  orders.Pairwise fun a b => b.matchType = .market → a.matchType = .market

theorem matchType_cases (o : BookOrder τ) : o.matchType = .market ∨ o.matchType = .limit := by
  cases o.matchType <;> simp

theorem higherPriority_market_limit {a b : BookOrder τ} (ha : a.matchType = .market)
    (hb : b.matchType = .limit) : higherPriority eps a b = true := by
  simp [higherPriority, ha, hb]

theorem higherPriority_limit_market {a b : BookOrder τ} (ha : a.matchType = .limit)
    (hb : b.matchType = .market) : higherPriority eps a b = false := by
  simp [higherPriority, ha, hb]

theorem marketFirst_insert {orders : List (BookOrder τ)} (h : MarketFirst orders)
    (o : BookOrder τ) :
    MarketFirst (orders.take (insertionPoint eps o orders) ++ o ::
      orders.drop (insertionPoint eps o orders)) := by
  have hpw := List.pairwise_iff_getElem.mp h
  have hle := insertionPoint_le eps o orders
  refine Lib.pairwise_insert h ?_ ?_
  · -- the order before the insertion point does not rank after `o`
    intro i a hi ha ho
    have hlast : insertionPoint eps o orders - 1 < orders.length := by omega
    have hb := insertionPoint_before (show 0 < insertionPoint eps o orders by omega) hlast
    have hmarket : orders[insertionPoint eps o orders - 1].matchType = .market := by
      rcases matchType_cases orders[insertionPoint eps o orders - 1] with hm | hl
      · exact hm
      · rw [higherPriority_market_limit ho hl] at hb
        cases hb
    obtain ⟨hia, rfl⟩ := List.getElem?_eq_some_iff.mp ha
    by_cases he : i = insertionPoint eps o orders - 1
    · subst he; exact hmarket
    · exact hpw i _ hia hlast (by omega) hmarket
  · -- the order at the insertion point is one `o` outranks
    intro i a hi ha hm
    obtain ⟨hia, rfl⟩ := List.getElem?_eq_some_iff.mp ha
    have hpos : insertionPoint eps o orders < orders.length := by omega
    have hat := insertionPoint_at hpos
    rcases matchType_cases o with ho | ho
    · exact ho
    · have hlimit : orders[insertionPoint eps o orders].matchType = .market := by
        by_cases he : i = insertionPoint eps o orders
        · subst he; exact hm
        · exact hpw _ i hpos hia (by omega) hm
      rw [higherPriority_limit_market ho hlimit] at hat
      cases hat

theorem marketFirst_keys {orders : List (BookOrder τ)} :
    MarketFirst orders ↔ (orders.map BookOrder.key).Pairwise fun a b =>
      b.matchType = .market → a.matchType = .market := by
  rw [List.pairwise_map]
  rfl

theorem LoopStep.marketFirst {l l' : Loop τ} {t : Option (TradedOrder τ)}
    (h : LoopStep eps l t l') {side : Side} (hm : MarketFirst (l.book.queue side)) :
    MarketFirst (l'.book.queue side) :=
  marketFirst_keys.mpr ((marketFirst_keys.mp hm).sublist (h.keys_sublist side))

theorem marketFirst {s : BookRun τ} (h : (bookMachine eps).Reachable s) (side : Side) :
    MarketFirst (s.book.queue side) := by
  induction h using Machine.Reachable.induct with
  | start => cases side <;> exact List.Pairwise.nil
  | step s e s' _ hstep ih =>
    cases bookStep_cases hstep with
    | @addOrder book added committed o =>
      simp only [BookRun.book, queue_addOrder_eq]
      split
      · exact marketFirst_insert ih o
      · exact ih
    | callMatch => exact ih
    | tick hl => exact hl.marketFirst ih

/-! ## The linear order behind the comparators -/

/-- Market before limit; market orders by sequence; limit orders by falling
price, then by sequence. -/
def rank (o : BookOrder τ) : Nat ×ₗ ℚ ×ₗ Int :=
  match o.matchType with
  | .market => toLex (0, toLex (0, o.sequence.toInt))
  | .limit => toLex (1, toLex (-o.price, o.sequence.toInt))

@[simp] theorem rank_key (o : BookOrder τ) : rank o.key = rank o := rfl

theorem rank_injective {a b : BookOrder τ} (h : rank a = rank b) : a.sequence = b.sequence := by
  unfold rank at h
  cases ha : a.matchType <;> cases hb : b.matchType <;> simp only [ha, hb] at h <;>
    simp_all [Int64.toInt_inj]

/-- Equal prices, or prices more than the tolerance apart. -/
def PricesApart (eps : ℚ) (a b : BookOrder τ) : Prop :=
  a.price ≠ b.price → eps < |a.price - b.price|

theorem higherPriority_iff {a b : BookOrder τ} (heps : 0 < eps) (h : PricesApart eps a b) :
    higherPriority eps a b = true ↔ rank a < rank b := by
  unfold higherPriority rank
  cases ha : a.matchType <;> cases hb : b.matchType <;>
    simp only [Prod.Lex.toLex_lt_toLex, reduceCtorEq, and_false, and_true, and_self, if_true,
      if_false, Bool.false_eq_true, lt_irrefl, false_or, true_and,
      decide_eq_true_eq, Int64.lt_iff_toInt_lt, Nat.zero_lt_one, true_or, Nat.not_lt_zero,
      zero_ne_one, one_ne_zero, false_and, or_self]
  -- two limit orders
  by_cases he : a.price = b.price
  · simp [he, heps, heps.le]
  · have hd := h he
    by_cases hlt : b.price < a.price
    · have habs : |a.price - b.price| = a.price - b.price := abs_of_pos (by linarith)
      rw [habs] at hd
      simp [hd, hlt]
    · have hgt : a.price < b.price := lt_of_le_of_ne (not_lt.mp hlt) he
      have h1 : ¬ eps < a.price - b.price := by linarith
      simp [h1, hlt, he, not_lt.mpr hd.le]

/-- The orders of a run as `PutOrder` produces them: distinct sequence numbers,
and any two unequal prices more than the tolerance apart. -/
structure Apart (eps : ℚ) (orders : List (BookOrder τ)) : Prop where
  sequences : (orders.map (·.sequence)).Nodup
  prices : ∀ a ∈ orders, ∀ b ∈ orders, PricesApart eps a b

theorem Apart.sublist {orders orders' : List (BookOrder τ)} (h : Apart eps orders')
    (hs : orders.Sublist orders') : Apart eps orders :=
  ⟨(hs.map _).nodup h.sequences, fun a ha b hb => h.prices a (hs.subset ha) b (hs.subset hb)⟩

theorem Apart.perm {orders orders' : List (BookOrder τ)} (h : Apart eps orders)
    (hp : orders.Perm orders') : Apart eps orders' :=
  ⟨(hp.map _).nodup_iff.mp h.sequences,
    fun a ha b hb => h.prices a (hp.mem_iff.mpr ha) b (hp.mem_iff.mpr hb)⟩

/-- Strictly sorted by rank. -/
def Ranked (orders : List (BookOrder τ)) : Prop := orders.Pairwise fun a b => rank a < rank b

/-- Every order of the list is, up to its quantity, one of `known`. -/
def From (known orders : List (BookOrder τ)) : Prop := ∀ e ∈ orders, ∃ o ∈ known, e.key = o.key

theorem Apart.of_from {known : List (BookOrder τ)} (h : Apart eps known) {e f o p : BookOrder τ}
    (he : e.key = o.key) (ho : o ∈ known) (hf : f.key = p.key) (hp : p ∈ known) :
    PricesApart eps e f := by
  rw [eq_of_key he, eq_of_key hf]
  exact h.prices o ho p hp

theorem ranked_insert {known orders : List (BookOrder τ)} {o : BookOrder τ} (heps : 0 < eps)
    (ha : Apart eps (known ++ [o])) (hf : From known orders) (hr : Ranked orders) :
    Ranked (orders.take (insertionPoint eps o orders) ++ o ::
      orders.drop (insertionPoint eps o orders)) := by
  have hpw := List.pairwise_iff_getElem.mp hr
  have hrank : ∀ e ∈ orders, (higherPriority eps o e = true ↔ rank o < rank e) ∧
      rank o ≠ rank e := by
    intro e he
    obtain ⟨p, hp, hk⟩ := hf e he
    have hmem : p ∈ known ++ [o] := List.mem_append_left _ hp
    refine ⟨higherPriority_iff heps (ha.of_from rfl (by simp) hk hmem), fun heq => ?_⟩
    have hseq : o.sequence = p.sequence := by
      rw [← rank_key e, hk, rank_key] at heq
      exact rank_injective heq
    have hnd := ha.sequences
    rw [List.map_append, List.nodup_append] at hnd
    exact hnd.2.2 _ (List.mem_map.mpr ⟨p, hp, rfl⟩) o.sequence (by simp) hseq.symm
  -- the orders that `o` outranks stand behind the others
  have hpart : Lib.Partitioned (outranks (higherPriority eps) o orders) 0 orders.length := by
    intro i hi j hj _ hfalse htrue
    rw [outranks_get _ _ hi] at hfalse
    rw [outranks_get _ _ hj] at htrue
    by_contra hij
    have hlt := (hrank _ (List.getElem_mem hj)).1.mp htrue
    have hahead : rank o < rank orders[i] := by
      rcases Nat.lt_or_eq_of_le (Nat.le_of_not_lt hij) with hji | rfl
      · exact hlt.trans (hpw j i hj hi hji)
      · exact hlt
    rw [(hrank _ (List.getElem_mem hi)).1.mpr hahead] at hfalse
    cases hfalse
  refine Lib.pairwise_insert hr ?_ ?_
  · intro i e hi he
    obtain ⟨hlt, rfl⟩ := List.getElem?_eq_some_iff.mp he
    obtain ⟨hiff, hne⟩ := hrank _ (List.getElem_mem hlt)
    have hnot : ¬ rank o < rank orders[i] := fun hahead =>
      Nat.not_le_of_lt hi ((insertionPoint_le_iff hpart hlt).mpr (hiff.mpr hahead))
    exact lt_of_le_of_ne (not_lt.mp hnot) hne.symm
  · intro i e hi he
    obtain ⟨hlt, rfl⟩ := List.getElem?_eq_some_iff.mp he
    exact (hrank _ (List.getElem_mem hlt)).1.mp ((insertionPoint_le_iff hpart hlt).mp hi)

theorem from_insert {known orders : List (BookOrder τ)} (hf : From known orders) (o : BookOrder τ)
    (n : Nat) : From (known ++ [o]) (orders.take n ++ o :: orders.drop n) := by
  intro e he
  rcases Lib.mem_insert.mp he with rfl | he
  · exact ⟨e, by simp, rfl⟩
  · obtain ⟨p, hp, hk⟩ := hf e he
    exact ⟨p, List.mem_append_left _ hp, hk⟩

/-- Both queues come from `known` and are strictly sorted. -/
def BookRanked (known : List (BookOrder τ)) (book : OrderBook τ) : Prop :=
  ∀ side, From known (book.queue side) ∧ Ranked (book.queue side)

theorem BookRanked.addOrder {known : List (BookOrder τ)} {book : OrderBook τ} (heps : 0 < eps)
    (h : BookRanked known book) {o : BookOrder τ} (ha : Apart eps (known ++ [o])) :
    BookRanked (known ++ [o]) (book.addOrder eps o) := by
  intro side
  obtain ⟨hf, hr⟩ := h side
  rw [queue_addOrder_eq]
  split
  · exact ⟨from_insert hf o _, ranked_insert heps ha hf hr⟩
  · refine ⟨fun e he => ?_, hr⟩
    obtain ⟨p, hp, hk⟩ := hf e he
    exact ⟨p, List.mem_append_left _ hp, hk⟩

theorem BookRanked.loopStep {known : List (BookOrder τ)} {l l' : Loop τ}
    {t : Option (TradedOrder τ)} (hl : LoopStep eps l t l') (h : BookRanked known l.book) :
    BookRanked known l'.book := by
  intro side
  obtain ⟨hf, hr⟩ := h side
  have hsub := hl.keys_sublist side
  constructor
  · intro e he
    obtain ⟨e', he', hk⟩ := List.mem_map.mp (hsub.subset (List.mem_map.mpr ⟨e, he, rfl⟩))
    obtain ⟨o, ho, hko⟩ := hf e' he'
    exact ⟨o, ho, hk.symm.trans hko⟩
  · have hkeys : ∀ orders : List (BookOrder τ), Ranked orders ↔
        (orders.map BookOrder.key).Pairwise fun a b => rank a < rank b := fun orders => by
      rw [List.pairwise_map]; rfl
    exact (hkeys _).mpr (((hkeys _).mp hr).sublist hsub)

theorem bookRanked (heps : 0 < eps) {s : BookRun τ} (h : (bookMachine eps).Reachable s)
    (ha : Apart eps s.added) : BookRanked s.added s.book := by
  induction h using Machine.Reachable.induct with
  | start => intro side; cases side <;> exact ⟨fun e he => (List.not_mem_nil he).elim, .nil⟩
  | step s e s' _ hstep ih =>
    cases bookStep_cases hstep with
    | addOrder o => exact (ih (ha.sublist (List.sublist_append_left _ _))).addOrder heps ha
    | callMatch => exact ih ha
    | tick hl => exact (ih ha).loopStep hl

/-! ## Any arrival order -/

/-- Adding orders one after the other. -/
def OrderBook.addOrders (eps : ℚ) (book : OrderBook τ) (orders : List (BookOrder τ)) :
    OrderBook τ :=
  orders.foldl (OrderBook.addOrder eps) book

theorem BookRanked.addOrders (heps : 0 < eps) {orders : List (BookOrder τ)} :
    ∀ {known : List (BookOrder τ)} {book : OrderBook τ}, BookRanked known book →
      Apart eps (known ++ orders) → BookRanked (known ++ orders) (book.addOrders eps orders) := by
  induction orders with
  | nil => intro known book h _; rw [List.append_nil]; exact h
  | cons o orders ih =>
    intro known book h ha
    rw [List.append_cons] at ha ⊢
    exact ih (h.addOrder heps (ha.sublist (List.sublist_append_left _ _))) ha

theorem addOrders_perm (orders : List (BookOrder τ)) (side : Side) :
    ∀ book : OrderBook τ, ((book.addOrders eps orders).queue side).Perm
      (book.queue side ++ orders.filter fun o => o.type = side.type) := by
  induction orders with
  | nil => intro book; simp [OrderBook.addOrders]
  | cons o orders ih =>
    intro book
    refine (ih (book.addOrder eps o)).trans ?_
    rw [queue_addOrder_eq]
    by_cases ht : o.type = side.type
    · rw [if_pos ht, List.filter_cons_of_pos (by simpa using ht)]
      have hins : ((book.queue side).take (insertionPoint eps o (book.queue side)) ++ o ::
          (book.queue side).drop (insertionPoint eps o (book.queue side))).Perm
          (o :: book.queue side) := by
        refine List.perm_middle.trans ?_
        rw [List.take_append_drop]
      exact (hins.append_right _).trans List.perm_middle.symm
    · rw [if_neg ht, List.filter_cons_of_neg (by simpa using ht)]

theorem ranked_unique {orders orders' : List (BookOrder τ)} (h : Ranked orders)
    (h' : Ranked orders') (hp : orders.Perm orders') : orders = orders' :=
  List.Perm.eq_of_pairwise (fun _ _ _ _ hab hba => absurd hba hab.asymm) h h' hp

theorem addOrders_comm (heps : 0 < eps) {known : List (BookOrder τ)} {book : OrderBook τ}
    (hb : BookRanked known book) {l l' : List (BookOrder τ)} (hp : l.Perm l')
    (ha : Apart eps (known ++ l)) (side : Side) :
    (book.addOrders eps l).queue side = (book.addOrders eps l').queue side := by
  refine ranked_unique (hb.addOrders heps ha side).2
    (hb.addOrders heps (ha.perm (hp.append_left _)) side).2 ?_
  exact (addOrders_perm l side book).trans
    (((hp.filter _).append_left _).trans (addOrders_perm l' side book).symm)

/-! ## The comparators on a sorted book -/

theorem strictWeakOn_of_from (heps : 0 < eps) {known orders : List (BookOrder τ)}
    (ha : Apart eps known) (hf : From known orders) :
    StrictWeakOn (higherPriority eps) orders := by
  refine .of_rank rank fun a hma b hmb => ?_
  obtain ⟨o, ho, hk⟩ := hf a hma
  obtain ⟨p, hp, hk'⟩ := hf b hmb
  exact higherPriority_iff heps (ha.of_from hk ho hk' hp)

theorem ranked_higherPriority (heps : 0 < eps) {known orders : List (BookOrder τ)}
    (ha : Apart eps known) (hf : From known orders) (hr : Ranked orders) :
    orders.Pairwise fun a b => higherPriority eps a b = true := by
  refine hr.imp_of_mem fun {a b} hma hmb hab => ?_
  obtain ⟨o, ho, hk⟩ := hf a hma
  obtain ⟨p, hp, hk'⟩ := hf b hmb
  exact (higherPriority_iff heps (ha.of_from hk ho hk' hp)).mpr hab

/-- Runs that add orders with distinct sequence numbers and separated prices
keep both queues sorted by their comparators, so `sortOrders()` changes nothing,
and further such orders give the same queues in whatever order they arrive: those
of before with the orders of their side among them. -/
theorem books_stay_sorted (heps : 0 < eps) {s : BookRun τ} (h : (bookMachine eps).Reachable s)
    (ha : Apart eps s.added)
    {sort : (BookOrder τ → BookOrder τ → Bool) → List (BookOrder τ) → List (BookOrder τ)}
    (hsort : SortsBy sort) :
    (s.book.asks.Pairwise fun a b => SortAskOrders eps a b = true) ∧
      (s.book.bids.Pairwise fun a b => SortBidOrders eps a b = true) ∧
      s.book.sortOrders eps sort = s.book ∧
      (∀ l l' : List (BookOrder τ), l.Perm l' → Apart eps (s.added ++ l) →
        (s.book.addOrders eps l).asks = (s.book.addOrders eps l').asks ∧
          (s.book.addOrders eps l).bids = (s.book.addOrders eps l').bids) ∧
      ∀ (l : List (BookOrder τ)) (side : Side), ((s.book.addOrders eps l).queue side).Perm
        (s.book.queue side ++ l.filter fun o => o.type = side.type) := by
  have hb := bookRanked heps h ha
  have hasks := ranked_higherPriority heps ha (hb .ask).1 (hb .ask).2
  have hbids := ranked_higherPriority heps ha (hb .bid).1 (hb .bid).2
  refine ⟨hasks, hbids, ?_, fun l l' hp hl => ?_, fun l side => addOrders_perm l side s.book⟩
  · have h1 : sort (SortAskOrders eps) s.book.asks = s.book.asks :=
      hsort.of_sorted (strictWeakOn_of_from heps ha (hb .ask).1) hasks
    have h2 : sort (SortBidOrders eps) s.book.bids = s.book.bids :=
      hsort.of_sorted (strictWeakOn_of_from heps ha (hb .bid).1) hbids
    simp only [OrderBook.sortOrders, h1, h2]
  · exact ⟨addOrders_comm heps hb hp hl .ask, addOrders_comm heps hb hp hl .bid⟩

/-- Sequence numbers and prices decided pair by pair. -/
theorem apart_iff {orders : List (BookOrder τ)} : Apart eps orders ↔
    (orders.map (·.sequence)).Nodup ∧
      ∀ a ∈ orders, ∀ b ∈ orders, a.price = b.price ∨ eps < |a.price - b.price| :=
  ⟨fun h => ⟨h.sequences, fun a ha b hb => or_iff_not_imp_left.mpr (h.prices a ha b hb)⟩,
    fun h => ⟨h.1, fun a ha b hb => or_iff_not_imp_left.mp (h.2 a ha b hb)⟩⟩

theorem two_arrivals_agree :
    ((runCalls epsilon [.addOrder (tklam 1 .ask .limit 5 10)]).book.addOrders epsilon
        [tklam 2 .ask .limit 1 11, tklam 3 .ask .market 1 9]).asks =
      ((runCalls epsilon [.addOrder (tklam 1 .ask .limit 5 10)]).book.addOrders epsilon
        [tklam 3 .ask .market 1 9, tklam 2 .ask .limit 1 11]).asks :=
  ((books_stay_sorted epsilon_pos (runCalls_reachable _)
    (apart_iff.mpr (by decide +kernel)) Lib.sortsBy_mergeSort).2.2.2.1 _ _ (List.Perm.swap _ _ _)
      (apart_iff.mpr (by decide +kernel))).1

end TradingMarket
