import TradingMarket.Generated
import TradingMarket.OrderRingServer
import TradingMarket.Serving

/-! # What the programs print

`Order::str` and `TradedOrder::str`: the lines of the journal and of the trades that
`match()` prints. A stream shows six digits of a number, so the numbers cannot be read
back, but all the rest can: the journal tells which orders have been journaled, one
by one (`journal_reads_back`), and the tape of the trades which trades have been made
(`tape_reads_back`). A code may have spaces, and even the words of a line; what it must not
have is the end of a line. -/
namespace TradingMarket

/-! ## Printing -/

section Printing
variable {Num : Type} (shown : Num → Text)

/-- `shown` is what `operator<<` of `cpp_dec_float_50` puts on a new stream. -/
def Order.str (o : Order Num) : Text :=
  "Order #".toList ++ Lib.printInt o.sequence.toInt
    ++ " ".toList ++ o.type.text
    ++ " ".toList ++ o.matchType.text
    ++ " code: ".toList ++ o.code
    ++ " quantity: ".toList ++ shown o.quantity
    ++ " price: ".toList ++ shown o.price

/-- What `JournalOrder::save` prints for the orders it takes. -/
def journal (orders : List (Order Num)) : Text :=
  orders.flatMap fun o => "[JOURNAL] ".toList ++ o.str shown ++ "\n".toList

end Printing

def TradedOrder.str {τ : Type} (shown : ℚ → Text) (t : TradedOrder τ) : Text :=
  "Traded: ".toList ++ "\n".toList
    ++ "    ".toList ++ t.askOrder.str shown ++ "\n".toList
    ++ "    ".toList ++ t.bidOrder.str shown ++ "\n".toList
    ++ " tradedQuantity: ".toList ++ shown t.tradedQuantity
    ++ " tradedPrice: ".toList ++ shown t.tradedPrice

/-- What `match()` prints for the trades it makes. -/
def tape {τ : Type} (shown : ℚ → Text) (trades : List (TradedOrder τ)) : Text :=
  trades.flatMap fun t => t.str shown ++ "\n".toList

/-! ## Reading -/

/-- An order as it is shown. -/
def Order.shownAs {Num : Type} (shown : Num → Text) (o : Order Num) : Order Text :=
  { o with quantity := shown o.quantity, price := shown o.price }

/-- The order a line shows. The code is what stands between the words around it. -/
def readOrder (line : Text) : Option (Order Text) :=
  match line.splitOn ' ' with
  | order :: number :: type :: matchType :: codeLabel :: words =>
    match words.reverse with
    | price :: priceLabel :: quantity :: quantityLabel :: code => do
      guard (order = "Order".toList ∧ number.head? = some '#' ∧ codeLabel = "code:".toList ∧
        quantityLabel = "quantity:".toList ∧ priceLabel = "price:".toList)
      let sequence ← Lib.scanInt number.tail
      let type ← (typeOf type).toOption
      let matchType ← (matchTypeOf matchType).toOption
      return ⟨Int64.ofInt sequence, type, matchType, [' '].intercalate code.reverse, quantity, price⟩
    | _ => none
  | _ => none

/-- The order of a line that starts with `label`. -/
def readLabelled (label line : Text) : Option (Order Text) :=
  if label <+: line then readOrder (line.drop label.length) else none

def readJournal (text : Text) : Option (List (Order Text)) :=
  (text.splitOn '\n').dropLast.mapM (readLabelled "[JOURNAL] ".toList)

/-- A trade as it is shown. -/
structure ShownTrade where
  askOrder : Order Text
  bidOrder : Order Text
  tradedQuantity : Text
  tradedPrice : Text
deriving DecidableEq, Repr

def TradedOrder.shownAs {τ : Type} (shown : ℚ → Text) (t : TradedOrder τ) : ShownTrade :=
  ⟨t.askOrder.shownAs shown, t.bidOrder.shownAs shown, shown t.tradedQuantity, shown t.tradedPrice⟩

def readFigures (line : Text) : Option (Text × Text) :=
  match line.splitOn ' ' with
  | [indent, quantityLabel, quantity, priceLabel, price] => do
    guard (indent = [] ∧ quantityLabel = "tradedQuantity:".toList ∧
      priceLabel = "tradedPrice:".toList)
    return (quantity, price)
  | _ => none

/-- Four lines make a trade. -/
def readTrades : List Text → Option (List ShownTrade)
  | [] => some []
  | head :: ask :: bid :: figures :: lines => do
    guard (head = "Traded: ".toList)
    let askOrder ← readLabelled "    ".toList ask
    let bidOrder ← readLabelled "    ".toList bid
    let (tradedQuantity, tradedPrice) ← readFigures figures
    let trades ← readTrades lines
    return ⟨askOrder, bidOrder, tradedQuantity, tradedPrice⟩ :: trades
  | _ => none

def readTape (text : Text) : Option (List ShownTrade) := readTrades (text.splitOn '\n').dropLast

variable {Num : Type} {shown : Num → Text}

/-! ## One line -/

theorem splitOn_word {word : Text} (h : ' ' ∉ word) (rest : Text) :
    (word ++ ' ' :: rest).splitOn ' ' = word :: rest.splitOn ' ' :=
  List.splitOn_append_cons_self_of_not_mem h rest

theorem str_words (o : Order Num) :
    o.str shown = "Order".toList ++ ' ' :: (('#' :: Lib.printInt o.sequence.toInt) ++ ' ' ::
      (o.type.text ++ ' ' :: (o.matchType.text ++ ' ' :: ("code:".toList ++ ' ' :: (o.code ++ ' ' ::
        ("quantity:".toList ++ ' ' :: (shown o.quantity ++ ' ' :: ("price:".toList ++ ' ' ::
          shown o.price)))))))) := by
  have horder : "Order #".toList = "Order".toList ++ [' ', '#'] := by simp
  have hspace : " ".toList = [' '] := by simp
  have hcode : " code: ".toList = ' ' :: "code:".toList ++ [' '] := by simp
  have hquantity : " quantity: ".toList = ' ' :: "quantity:".toList ++ [' '] := by simp
  have hprice : " price: ".toList = ' ' :: "price:".toList ++ [' '] := by simp
  unfold Order.str
  rw [horder, hspace, hcode, hquantity, hprice]
  simp only [List.append_assoc, List.cons_append, List.nil_append]

theorem splitOn_str (hshown : ∀ x, ' ' ∉ shown x) (o : Order Num) :
    (o.str shown).splitOn ' ' =
      "Order".toList :: ('#' :: Lib.printInt o.sequence.toInt) :: o.type.text :: o.matchType.text ::
        "code:".toList :: (o.code.splitOn ' ' ++
          ["quantity:".toList, shown o.quantity, "price:".toList, shown o.price]) := by
  have htype : ' ' ∉ o.type.text := by cases o.type <;> decide
  have hmatch : ' ' ∉ o.matchType.text := by cases o.matchType <;> decide
  have hnumber : ' ' ∉ '#' :: Lib.printInt o.sequence.toInt := by simp [space_not_mem_printInt]
  rw [str_words, splitOn_word (by simp), splitOn_word hnumber, splitOn_word htype,
    splitOn_word hmatch, splitOn_word (by simp), List.splitOn_append_cons_self,
    splitOn_word (by simp), splitOn_word (hshown _), splitOn_word (by simp),
    List.splitOn_eq_singleton (hshown _)]

theorem readOrder_str (hshown : ∀ x, ' ' ∉ shown x) (o : Order Num) :
    readOrder (o.str shown) = some (o.shownAs shown) := by
  have hreverse : ∀ code : List Text,
      (code ++ ["quantity:".toList, shown o.quantity, "price:".toList, shown o.price]).reverse =
        shown o.price :: "price:".toList :: shown o.quantity :: "quantity:".toList :: code.reverse := by
    simp
  unfold readOrder
  rw [splitOn_str hshown]
  simp [Lib.scanInt_printInt, typeOf_text, matchTypeOf_text, Except.toOption,
    Order.shownAs, List.intercalate_splitOn]

theorem readLabelled_str (label : Text) (hshown : ∀ x, ' ' ∉ shown x) (o : Order Num) :
    readLabelled label (label ++ o.str shown) = some (o.shownAs shown) := by
  unfold readLabelled
  rw [if_pos (List.prefix_append label _), List.drop_left, readOrder_str hshown]

theorem newline_not_mem_printInt (n : Int) : '\n' ∉ Lib.printInt n := by
  intro h
  rcases Lib.mem_printInt h with hd | hm
  · revert hd; decide
  · revert hm; decide

/-- The line of an order is one line. -/
theorem newline_not_mem_str (hshown : ∀ x, '\n' ∉ shown x) {o : Order Num} (hcode : '\n' ∉ o.code) :
    '\n' ∉ o.str shown := by
  have htype : '\n' ∉ o.type.text := by cases o.type <;> decide
  have hmatch : '\n' ∉ o.matchType.text := by cases o.matchType <;> decide
  have happend : ∀ {s label t : Text}, '\n' ∉ s → '\n' ∉ label → '\n' ∉ t → '\n' ∉ s ++ label ++ t :=
    fun hs hlabel ht => List.not_mem_append (List.not_mem_append hs hlabel) ht
  exact happend (happend (happend (happend (happend (List.not_mem_append (by simp) (newline_not_mem_printInt _))
    (by simp) htype) (by simp) hmatch) (by simp) hcode) (by simp) (hshown _)) (by simp) (hshown _)

/-! ## All lines -/

theorem splitOn_lines {lines : List Text} (h : ∀ line ∈ lines, '\n' ∉ line) :
    ((lines.flatMap fun line => line ++ "\n".toList).splitOn '\n').dropLast = lines := by
  have hnewline : "\n".toList = ['\n'] := by simp
  rw [hnewline]
  induction lines with
  | nil => rfl
  | cons line lines ih =>
    obtain ⟨hline, hlines⟩ := List.forall_mem_cons.mp h
    rw [List.flatMap_cons, List.append_assoc, List.singleton_append,
      List.splitOn_append_cons_self_of_not_mem hline,
      List.dropLast_cons_of_ne_nil (List.splitOn_ne_nil _ _), ih hlines]

/-- The lines of orders after a label, whatever it is. -/
theorem mapM_readLabelled (label : Text) (hshown : ∀ x, ' ' ∉ shown x) (orders : List (Order Num)) :
    (orders.map fun o => label ++ o.str shown).mapM (readLabelled label) =
      some (orders.map (Order.shownAs shown)) := by
  have hread : (readLabelled label ∘ fun o : Order Num => label ++ o.str shown) =
      fun o => pure (o.shownAs shown) :=
    funext fun o => readLabelled_str label hshown o
  rw [List.mapM_map, hread, List.mapM_pure]
  rfl

theorem readJournal_journal (hshown : ∀ x, ' ' ∉ shown x ∧ '\n' ∉ shown x) {orders : List (Order Num)}
    (hcode : ∀ o ∈ orders, '\n' ∉ o.code) :
    readJournal (journal shown orders) = some (orders.map (Order.shownAs shown)) := by
  have hlabel : '\n' ∉ "[JOURNAL] ".toList := by simp
  unfold readJournal journal
  generalize "[JOURNAL] ".toList = label at *
  have hlines : (orders.flatMap fun o => label ++ o.str shown ++ "\n".toList) =
      (orders.map fun o => label ++ o.str shown).flatMap fun line => line ++ "\n".toList :=
    (List.flatMap_map (fun o => label ++ o.str shown) (fun line => line ++ "\n".toList) orders).symm
  have hnewline : ∀ line ∈ orders.map fun o => label ++ o.str shown, '\n' ∉ line := by
    intro line hline
    obtain ⟨o, ho, rfl⟩ := List.mem_map.mp hline
    exact List.not_mem_append hlabel (newline_not_mem_str (fun x => (hshown x).2) (hcode o ho))
  rw [hlines, splitOn_lines hnewline]
  exact mapM_readLabelled label (fun x => (hshown x).1) orders

/-! ## The journal of the server -/

section Server
variable {RING_SIZE : Nat} {blank : Order ℚ} {results : Stream' Nat} {s : OrderRingServer}
  {shown : ℚ → Text}

/-- In every interleaving, what `JournalOrder` has printed tells the orders it has taken: the
first that were generated, and all that have been sent. -/
theorem journal_reads_back (hshown : ∀ x, ' ' ∉ shown x ∧ '\n' ∉ shown x)
    (h : (orderRingMachine RING_SIZE blank results).Reachable s) :
    readJournal (journal shown s.journaled) = some (s.journaled.map (Order.shownAs shown)) ∧
      s.journaled <+: PutOrder.put results ∧ s.sent <+: s.journaled := by
  have hwired := server_wired h
  have hgenerated := hwired.first.order.trans (put_generated h)
  refine ⟨readJournal_journal hshown fun o ho => ?_, hgenerated, hwired.second.order⟩
  obtain ⟨hcode, -⟩ := put_fields (hgenerated.subset ho)
  rw [hcode]
  simp [TKLAM]

/-- A `rand()` that counts to four, over and over. -/
def toFour : Stream' Nat := fun n => n % 5

/-- Two orders are put, journaled and sent. -/
def firstOrders : List OrderRingEvent :=
  List.replicate 10 .putStep ++ List.replicate 4 .journalStep ++ List.replicate 4 .routeStep

theorem first_orders_read_back :
    ∃ s, (orderRingMachine 1 emptyOrder toFour).exec (orderRingMachine 1 emptyOrder toFour).start
        firstOrders = some s ∧
      journal (fun q : ℚ => Lib.printInt q.num) s.journaled =
        "[JOURNAL] Order #1 ASK LIMIT code: TKLAM quantity: 5001 price: 10003\n".toList ++
          "[JOURNAL] Order #2 BID MARKET code: TKLAM quantity: 10001 price: 10003\n".toList ∧
      readJournal (journal (fun q : ℚ => Lib.printInt q.num) s.journaled) =
        some (s.journaled.map (Order.shownAs fun q => Lib.printInt q.num)) ∧
      s.journaled.length = 2 ∧ s.sent.length = 2 ∧ s.sent <+: s.journaled := by
  have hrun : ((orderRingMachine 1 emptyOrder toFour).exec
      (orderRingMachine 1 emptyOrder toFour).start firstOrders).map
        (fun s => (journal (fun q : ℚ => Lib.printInt q.num) s.journaled, s.journaled.length,
          s.sent.length)) =
      some ("[JOURNAL] Order #1 ASK LIMIT code: TKLAM quantity: 5001 price: 10003\n".toList ++
        "[JOURNAL] Order #2 BID MARKET code: TKLAM quantity: 10001 price: 10003\n".toList, 2, 2) := by
    decide +kernel
  obtain ⟨s, hs, hstate⟩ := Option.map_eq_some_iff.mp hrun
  simp only [Prod.mk.injEq] at hstate
  obtain ⟨hjournal, hjournaled, hsent⟩ := hstate
  obtain ⟨hread, -, hprefix⟩ := journal_reads_back
    (fun q : ℚ => ⟨space_not_mem_printInt q.num, newline_not_mem_printInt q.num⟩) ⟨firstOrders, hs⟩
  exact ⟨s, hs, hjournal, hread, hjournaled, hsent, hprefix⟩

end Server

/-! ## The tape -/

section Tape
variable {τ : Type} {shown : ℚ → Text}

/-- The lines of a trade. -/
def TradedOrder.lines (shown : ℚ → Text) (t : TradedOrder τ) : List Text :=
  ["Traded: ".toList, "    ".toList ++ t.askOrder.str shown, "    ".toList ++ t.bidOrder.str shown,
    " tradedQuantity: ".toList ++ shown t.tradedQuantity ++ " tradedPrice: ".toList ++
      shown t.tradedPrice]

theorem readFigures_figures (hshown : ∀ x, ' ' ∉ shown x) (quantity price : ℚ) :
    readFigures (" tradedQuantity: ".toList ++ shown quantity ++ " tradedPrice: ".toList ++
      shown price) = some (shown quantity, shown price) := by
  have hquantity : " tradedQuantity: ".toList = [] ++ ' ' :: "tradedQuantity:".toList ++ [' '] := by simp
  have hprice : " tradedPrice: ".toList = ' ' :: "tradedPrice:".toList ++ [' '] := by simp
  rw [hquantity, hprice]
  unfold readFigures
  simp only [List.append_assoc, List.cons_append]
  rw [splitOn_word (by simp), List.nil_append, splitOn_word (by simp), splitOn_word (hshown _),
    splitOn_word (by simp), List.nil_append, List.splitOn_eq_singleton (hshown _)]
  rfl

theorem lines_str (t : TradedOrder τ) :
    t.str shown ++ "\n".toList = (t.lines shown).flatMap fun line => line ++ "\n".toList := by
  unfold TradedOrder.str TradedOrder.lines
  generalize "Traded: ".toList = head
  generalize "\n".toList = newline
  generalize "    ".toList = indent
  generalize " tradedQuantity: ".toList = quantityLabel
  generalize " tradedPrice: ".toList = priceLabel
  simp only [List.flatMap_cons, List.flatMap_nil, List.append_nil, List.append_assoc]

theorem newline_not_mem_lines (hshown : ∀ x, '\n' ∉ shown x) {t : TradedOrder τ}
    (hask : '\n' ∉ t.askOrder.code) (hbid : '\n' ∉ t.bidOrder.code) :
    ∀ line ∈ t.lines shown, '\n' ∉ line := by
  simp only [TradedOrder.lines, List.forall_mem_cons, List.not_mem_nil, false_imp_iff, implies_true,
    and_true]
  refine ⟨by simp, List.not_mem_append (by simp) (newline_not_mem_str hshown hask),
    List.not_mem_append (by simp) (newline_not_mem_str hshown hbid), ?_⟩
  exact List.not_mem_append (List.not_mem_append (List.not_mem_append (by simp) (hshown _)) (by simp))
    (hshown _)

theorem readTrades_lines (hshown : ∀ x, ' ' ∉ shown x) (trades : List (TradedOrder τ)) :
    readTrades (trades.flatMap (TradedOrder.lines shown)) =
      some (trades.map (TradedOrder.shownAs shown)) := by
  induction trades with
  | nil => rfl
  | cons t trades ih =>
    simp only [List.flatMap_cons, TradedOrder.lines, List.cons_append, List.nil_append, readTrades,
      readLabelled_str _ hshown, readFigures_figures hshown, ih]
    rfl

theorem readTape_tape (hshown : ∀ x, ' ' ∉ shown x ∧ '\n' ∉ shown x) {trades : List (TradedOrder τ)}
    (hcode : ∀ t ∈ trades, '\n' ∉ t.askOrder.code ∧ '\n' ∉ t.bidOrder.code) :
    readTape (tape shown trades) = some (trades.map (TradedOrder.shownAs shown)) := by
  have hlines : tape shown trades =
      (trades.flatMap (TradedOrder.lines shown)).flatMap fun line => line ++ "\n".toList := by
    unfold tape
    simp only [lines_str, List.flatMap_assoc]
  have hnewline : ∀ line ∈ trades.flatMap (TradedOrder.lines shown), '\n' ∉ line := by
    intro line hline
    obtain ⟨t, ht, hline⟩ := List.mem_flatMap.mp hline
    exact newline_not_mem_lines (fun x => (hshown x).2) (hcode t ht).1 (hcode t ht).2 line hline
  unfold readTape
  rw [hlines, splitOn_lines hnewline, readTrades_lines fun x => (hshown x).1]

end Tape

section Service
variable {nt : NumberText ℚ} {eps : ℚ} {blank : Order ℚ} {blankTrade : TradedOrder Unit}
  {shown : ℚ → Text} {es : List ServiceEvent} {s : Service}

/-- In every interleaving, where no code that was received has the end of a line, what
`match()` has printed tells the trades it has made. -/
theorem tape_reads_back (hshown : ∀ x, ' ' ∉ shown x ∧ '\n' ∉ shown x)
    (hs : (serviceMachine nt eps blank blankTrade).exec
      (serviceMachine nt eps blank blankTrade).start es = some s)
    (hcode : ∀ o ∈ received nt es, '\n' ∉ o.code) :
    readTape (tape shown s.run.committed) =
      some (s.run.committed.map (TradedOrder.shownAs shown)) := by
  obtain ⟨put, hfed, hput⟩ := service_fed hs
  have hadded : ∀ o ∈ s.run.added, '\n' ∉ o.code := fun o ho => by
    refine hcode o.toOrder ?_
    rw [← hput]
    exact List.mem_append_left _ (hfed.get.order.subset (List.mem_map_of_mem ho))
  have hside : ∀ t ∈ s.run.committed, ∀ side, '\n' ∉ (t.order side).code := by
    intro t ht side
    obtain ⟨o, ho, hkey⟩ := (origins (service_run ⟨es, hs⟩) side).traded t ht
    have hsame : (t.order side).code = o.code := congrArg (·.code) hkey
    rw [hsame]
    exact hadded o (List.mem_filter.mp ho).1
  exact readTape_tape hshown fun t ht => ⟨hside t ht .ask, hside t ht .bid⟩

/-- A pair of orders after another that has traded. -/
def twoPairs : List ServiceEvent :=
  onePair ++ .receive "ORDER 3 ASK MARKET TKLAM 2 10".toList :: List.replicate 4 .requestStep ++
    .receive "ORDER 4 BID MARKET TKLAM 2 10".toList :: List.replicate 4 .requestStep ++
      List.replicate 13 .matchingStep

theorem two_pairs_read_back :
    ∃ s, (serviceMachine rationalText epsilon emptyOrder emptyTrade).exec
        (serviceMachine rationalText epsilon emptyOrder emptyTrade).start twoPairs = some s ∧
      s.run.committed.map (fun t => (t.askOrder.sequence, t.bidOrder.sequence, t.tradedQuantity)) =
        [(1, 2, 1), (3, 4, 2)] ∧
      readTape (tape (fun q => Lib.printInt q.num) s.run.committed) =
        some (s.run.committed.map (TradedOrder.shownAs fun q => Lib.printInt q.num)) := by
  have hrun : ((serviceMachine rationalText epsilon emptyOrder emptyTrade).exec
      (serviceMachine rationalText epsilon emptyOrder emptyTrade).start twoPairs).map
        (fun s => s.run.committed.map fun t =>
          (t.askOrder.sequence, t.bidOrder.sequence, t.tradedQuantity)) =
      some [(1, 2, 1), (3, 4, 2)] := by
    decide +kernel
  obtain ⟨s, hs, htrades⟩ := Option.map_eq_some_iff.mp hrun
  have hcode : ∀ o ∈ received rationalText twoPairs, '\n' ∉ o.code := by decide +kernel
  exact ⟨s, hs, htrades, tape_reads_back
    (fun q => ⟨space_not_mem_printInt q.num, newline_not_mem_printInt q.num⟩) hs hcode⟩

end Service

end TradingMarket
