import Mathlib.Algebra.Order.BigOperators.Group.List
import Mathlib.Tactic.Linarith
import TradingMarket.Conservation
import TradingMarket.Command

/-! # A book driven by commands

`FillOrderBook::fill` parses each command into the static `orderTemplate` and
hands the result to the book. Nothing between the parser and `match()` looks at
the sign of a quantity, so what a run may assume of quantities is what its
commands say: with positive quantities trades only ever take from both orders
(`trades_run_forward`), and a negative one makes them grow. -/
namespace TradingMarket

open Lib (Machine)

variable {τ : Type} {eps : ℚ}

/-! ## Runs with positive quantities -/

/-- Every added ask and bid has a positive quantity. -/
def BookRun.AddedPositive (s : BookRun τ) : Prop :=
  ∀ o ∈ s.added, o.type ≠ .cancel → 0 < o.quantity

/-- No ask is below zero and every bid is above it. -/
structure BookRun.Solvent (s : BookRun τ) : Prop where
  asks : ∀ a ∈ s.book.asks, 0 ≤ a.quantity
  bids : ∀ b ∈ s.book.bids, 0 < b.quantity

theorem equal_of_residue_zero (heps : 0 < eps) {q : ℚ} (h : equal eps q 0 = false) : q ≠ 0 := by
  intro hzero
  subst hzero
  simp [equal, heps] at h

theorem solvent_addOrder {book : OrderBook τ} {o : BookOrder τ} {side : Side} {P : ℚ → Prop}
    (h : ∀ e ∈ book.queue side, P e.quantity) (ho : o.type ≠ .cancel → P o.quantity) :
    ∀ e ∈ (book.addOrder eps o).queue side, P e.quantity := by
  intro e he
  rcases mem_addOrder.mp he with ⟨hty, rfl⟩ | he
  · exact ho (by rw [hty]; cases side <;> simp [Side.type])
  · exact h e he

theorem solvent (heps : 0 < eps) {s : BookRun τ} (h : (bookMachine eps).Reachable s)
    (hpos : s.AddedPositive) : s.Solvent := by
  induction h using Machine.Reachable.induct with
  | start => exact ⟨fun a ha => (List.not_mem_nil ha).elim, fun b hb => (List.not_mem_nil hb).elim⟩
  | step s e s' _ hstep ih =>
    cases bookStep_cases hstep with
    | @addOrder book added committed o =>
      have hadded : (⟨⟨book, .idle⟩, added, committed⟩ : BookRun τ).AddedPositive :=
        fun p hp => hpos p (List.mem_append_left _ hp)
      have ho : o.type ≠ .cancel → 0 < o.quantity := hpos o (List.mem_append_right _ (by simp))
      obtain ⟨hasks, hbids⟩ := ih hadded
      exact ⟨@solvent_addOrder τ eps book o .ask _ hasks fun ht => (ho ht).le,
        @solvent_addOrder τ eps book o .bid _ hbids ho⟩
    | callMatch => exact ⟨(ih hpos).asks, (ih hpos).bids⟩
    | @tick l l' added committed t hl =>
      obtain ⟨hasks, hbids⟩ := ih hpos
      cases hl with
      | returns | visit | pass => exact ⟨hasks, hbids⟩
      | erase => exact ⟨fun a ha => hasks a (List.mem_of_mem_eraseIdx ha), hbids⟩
      | @trade book i j matched a b t mp ha hb hq ht =>
        obtain ⟨-, rfl, rfl, -, htq, -⟩ := tradeOf_some ht
        constructor
        · intro e he
          simp only [BookRun.book, afterCommit_asks] at he
          rcases List.mem_or_eq_of_mem_set he with he | rfl
          · exact hasks e he
          · rw [fill_quantity, htq]
            exact sub_nonneg.mpr (min_le_left _ _)
        · intro e he
          simp only [BookRun.book, afterCommit_bids] at he
          split at he
          · exact hbids e (List.mem_of_mem_eraseIdx he)
          · rename_i hres
            rcases List.mem_or_eq_of_mem_set he with he | rfl
            · exact hbids e he
            · -- the bid stays, so what is left of it is not zero
              have hne := equal_of_residue_zero heps (Bool.not_eq_true _ ▸ hres)
              have hle : 0 ≤ (t.bidOrder.fill t.tradedQuantity).quantity := by
                rw [fill_quantity, htq]
                exact sub_nonneg.mpr (min_le_right _ _)
              exact lt_of_le_of_ne hle hne.symm

/-- A trade takes a positive quantity from an ask and a bid of the book, at most
what each of them has. -/
structure TakesFromBoth (s : BookRun τ) (t : TradedOrder τ) : Prop where
  ask : t.askOrder ∈ s.book.asks
  bid : t.bidOrder ∈ s.book.bids
  positive : 0 < t.tradedQuantity
  le_ask : t.tradedQuantity ≤ t.askOrder.quantity
  le_bid : t.tradedQuantity ≤ t.bidOrder.quantity

theorem takesFromBoth (heps : 0 < eps) {s s' : BookRun τ} {e : BookEvent τ} {t : TradedOrder τ}
    (h : (bookMachine eps).Reachable s) (hpos : s.AddedPositive)
    (hstep : (bookMachine eps).step s e = some s') (ht : s'.committed = s.committed ++ [t]) :
    TakesFromBoth s t := by
  cases bookStep_cases hstep with
  | addOrder | callMatch => simp at ht
  | @tick l l' added committed u hl =>
    obtain rfl : u = some t := by cases u <;> simp_all
    obtain ⟨hasks, hbids⟩ := solvent heps h hpos
    cases hl with
    | @trade book i j matched a b _ mp ha hb hq htrade =>
      obtain ⟨-, rfl, rfl, -, htq, -⟩ := tradeOf_some htrade
      have hask := List.mem_of_getElem? ha
      have hbid := List.mem_of_getElem? hb
      have hopen : 0 < t.askOrder.quantity :=
        lt_of_le_of_ne (hasks _ hask) (equal_of_residue_zero heps hq).symm
      refine ⟨hask, hbid, ?_, htq ▸ min_le_left _ _, htq ▸ min_le_right _ _⟩
      rw [htq]
      exact lt_min hopen (hbids _ hbid)

theorem trades_positive (heps : 0 < eps) {s : BookRun τ} (h : (bookMachine eps).Reachable s)
    (hpos : s.AddedPositive) : ∀ t ∈ s.committed, 0 < t.tradedQuantity := by
  induction h using Machine.Reachable.induct with
  | start => intro t ht; cases ht
  | step s e s' hs hstep ih =>
    cases bookStep_cases hstep with
    | addOrder => exact ih fun p hp => hpos p (List.mem_append_left _ hp)
    | callMatch => exact ih hpos
    | @tick l l' added committed u hl =>
      intro t ht
      rcases List.mem_append.mp ht with ht | ht
      · exact ih hpos t ht
      · obtain rfl : u = some t := by simpa using ht
        exact (takesFromBoth heps hs hpos hstep rfl).positive

/-- While trades take non-negative quantities, no queued order grows. -/
theorem quantity_antitone [DecidableEq τ] {s s' : BookRun τ} (h : (bookMachine eps).Reachable s)
    (hr : (bookMachine eps).Reaches s s') (htags : (s'.added.map (·.tag)).Nodup)
    (htrades : ∀ t ∈ s'.committed, 0 ≤ t.tradedQuantity) {side : Side} {e e' : BookOrder τ}
    (he : e ∈ s.book.queue side) (he' : e' ∈ s'.book.queue side) (htag : e'.tag = e.tag) :
    e'.quantity ≤ e.quantity := by
  obtain ⟨⟨added, hadded⟩, ⟨later, hlater⟩⟩ := reaches_appends hr
  have hlaw := quantityLaw h
    ((hadded ▸ htags : ((s.added ++ added).map (·.tag)).Nodup).sublist
      ((List.sublist_append_left _ _).map _)) side
  have hlaw' := quantityLaw (h.reaches hr) htags side
  obtain ⟨o, ho, hk⟩ := hlaw.known e he
  have hto : e.tag = o.tag := by rw [← key_tag e, hk, key_tag]
  have ho' : o ∈ s'.addedTo side := by
    rw [BookRun.addedTo, ← hadded, List.filter_append]
    exact List.mem_append_left _ ho
  have hbefore := hlaw.resting o ho e he hto
  have hafter := hlaw'.resting o ho' e' he' (htag.trans hto)
  have hmore : s.tradedFor side o.tag ≤ s'.tradedFor side o.tag := by
    rw [BookRun.tradedFor, BookRun.tradedFor, ← hlater, List.filter_append, List.map_append,
      List.sum_append]
    refine le_add_of_nonneg_right (List.sum_nonneg fun q hq => ?_)
    obtain ⟨t, ht, rfl⟩ := List.mem_map.mp hq
    exact htrades t (hlater ▸ List.mem_append_right _ (List.mem_filter.mp ht).1)
  linarith

/-! ## Commands -/

/-- A book and the order `fill` parses into. The ghost tag of an order is its
arrival number. -/
structure CommandRun where
  run : BookRun Nat := {}
  orderTemplate : Order ℚ
deriving DecidableEq, Repr

inductive CommandEvent where
  | fill (orderCmdStr : Text)
  | callMatch
  | tick
deriving DecidableEq, Repr

section Commands
variable (nt : NumberText ℚ) (eps : ℚ)

/-- One event. A command the parser does not accept is no event of these runs. -/
def commandStep (s : CommandRun) : CommandEvent → Option CommandRun
  | .fill orderCmdStr =>
    match (fromCmdStr nt orderCmdStr).run s.orderTemplate with
    | .ok () o => (bookStep eps s.run (.addOrder ⟨o, s.run.added.length⟩)).map fun run => ⟨run, o⟩
    | .error _ _ => none
  | .callMatch => (bookStep eps s.run .callMatch).map fun run => { s with run }
  | .tick => (bookStep eps s.run .tick).map fun run => { s with run }

def commandMachine (orderTemplate : Order ℚ) : Machine CommandRun CommandEvent :=
  ⟨{ orderTemplate }, commandStep nt eps⟩

variable {nt eps} {orderTemplate : Order ℚ}

/-- Every event is an event of the book; a command adds the order it denotes. -/
theorem commandStep_cases {s s' : CommandRun} {e : CommandEvent}
    (h : (commandMachine nt eps orderTemplate).step s e = some s') :
    ∃ b, (bookMachine eps).step s.run b = some s'.run ∧
      ∀ o, b = .addOrder o → ∃ str, e = .fill str ∧
        ofTokens nt (tokens str) = some o.toOrder ∧ o.tag = s.run.added.length := by
  change commandStep nt eps s e = some s' at h
  cases e with
  | fill str =>
    simp only [commandStep] at h
    split at h
    · rename_i o hparse
      obtain ⟨run, hrun, rfl⟩ := Option.map_eq_some_iff.mp h
      refine ⟨.addOrder ⟨o, s.run.added.length⟩, hrun, fun o' ho' => ⟨str, rfl, ?_⟩⟩
      cases ho'
      exact ⟨fromCmdStr_ok.mp hparse, rfl⟩
    · cases h
  | callMatch =>
    obtain ⟨run, hrun, rfl⟩ := Option.map_eq_some_iff.mp h
    exact ⟨.callMatch, hrun, fun o ho => by cases ho⟩
  | tick =>
    obtain ⟨run, hrun, rfl⟩ := Option.map_eq_some_iff.mp h
    exact ⟨.tick, hrun, fun o ho => by cases ho⟩

/-- The command denotes no ask or bid whose quantity is zero or less. -/
def PositiveCommand (nt : NumberText ℚ) (str : Text) : Prop :=
  ∀ o, ofTokens nt (tokens str) = some o → o.type ≠ .cancel → 0 < o.quantity

instance (nt : NumberText ℚ) (str : Text) : Decidable (PositiveCommand nt str) :=
  inferInstanceAs (Decidable (∀ o ∈ ofTokens nt (tokens str), _ → _))

theorem command_reaches {es : List CommandEvent} {s s' : CommandRun}
    (h : (commandMachine nt eps orderTemplate).exec s es = some s') :
    (bookMachine eps).Reaches s.run s'.run := by
  induction es generalizing s with
  | nil => cases h; exact .refl _
  | cons e es ih =>
    obtain ⟨u, hu, hrest⟩ := Option.bind_eq_some_iff.mp h
    obtain ⟨b, hb, -⟩ := commandStep_cases hu
    exact (Machine.Reaches.single hb).trans (ih hrest)

/-- Orders are tagged by their arrival numbers. -/
def BookRun.Numbered (s : BookRun Nat) : Prop :=
  s.added.map (·.tag) = List.range s.added.length

theorem BookRun.Numbered.nodup {s : BookRun Nat} (h : s.Numbered) : (s.added.map (·.tag)).Nodup := by
  rw [h]
  exact List.nodup_range

theorem command_step_added {s s' : CommandRun} {e : CommandEvent}
    (h : (commandMachine nt eps orderTemplate).step s e = some s')
    (hpos : ∀ str, e = .fill str → PositiveCommand nt str)
    (hs : s.run.Numbered ∧ s.run.AddedPositive) : s'.run.Numbered ∧ s'.run.AddedPositive := by
  obtain ⟨b, hb, hfill⟩ := commandStep_cases h
  obtain ⟨run', template'⟩ := s'
  obtain ⟨run, template⟩ := s
  cases bookStep_cases hb with
  | callMatch | tick => exact hs
  | addOrder o =>
    obtain ⟨str, rfl, htok, htag⟩ := hfill o rfl
    obtain ⟨hnum, hadded⟩ := hs
    constructor
    · unfold BookRun.Numbered at hnum ⊢
      simp only [List.map_append, List.map_cons, List.map_nil, List.length_append,
        List.length_cons, List.length_nil, List.range_succ] at hnum htag ⊢
      rw [hnum, htag]
    · intro p hp ht
      rcases List.mem_append.mp hp with hp | hp
      · exact hadded p hp ht
      · obtain rfl : p = o := by simpa using hp
        exact hpos str rfl _ htok ht

theorem command_added {es : List CommandEvent} {s s' : CommandRun}
    (h : (commandMachine nt eps orderTemplate).exec s es = some s')
    (hpos : ∀ str, .fill str ∈ es → PositiveCommand nt str)
    (hs : s.run.Numbered ∧ s.run.AddedPositive) : s'.run.Numbered ∧ s'.run.AddedPositive := by
  induction es generalizing s with
  | nil => cases h; exact hs
  | cons e es ih =>
    obtain ⟨u, hu, hrest⟩ := Option.bind_eq_some_iff.mp h
    refine ih hrest (fun str hstr => hpos str (List.mem_cons_of_mem _ hstr)) ?_
    exact command_step_added hu (fun str he => hpos str (he ▸ List.mem_cons_self)) hs

/-- Integers as number text of the rationals they are. -/
def rationalText : NumberText ℚ where
  ofStr text := (integerText.ofStr text).map Int.cast
  str50 q := Lib.printInt q.num
  str q := Lib.printInt q.num

/-- A negative ask against a positive bid. -/
def backwardEvents : List CommandEvent :=
  [.fill "ORDER 1 ASK MARKET TKLAM -5 10".toList, .fill "ORDER 2 BID MARKET TKLAM 3 10".toList,
    .callMatch, .tick]

def commandRun (events : List CommandEvent) : CommandRun :=
  ((commandMachine rationalText epsilon emptyOrder).exec { orderTemplate := emptyOrder }
    events).getD { orderTemplate := emptyOrder }

/-- A positive ask against the same bid. -/
def forwardEvents : List CommandEvent :=
  [.fill "ORDER 1 ASK MARKET TKLAM 5 10".toList, .fill "ORDER 2 BID MARKET TKLAM 3 10".toList,
    .callMatch, .tick]

/-- What the two orders trade: three units, at the market price of a new book. -/
def forwardTrade : TradedOrder Nat :=
  ⟨⟨⟨1, .ask, .market, "TKLAM".toList, 5, 10⟩, 0⟩, ⟨⟨2, .bid, .market, "TKLAM".toList, 3, 10⟩, 1⟩,
    0, 3⟩

end Commands

end TradingMarket
