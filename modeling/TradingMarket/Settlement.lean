import TradingMarket.Lots
import TradingMarket.Market
import TradingMarket.Relabeling

/-! # What becomes of the orders

An order of the generator that has got into a book is, at any time, in its queue
with exactly what has not been traded of it, or it has left and was traded in
full, however the programs interleave and whatever the broker drops
(`market_settles`). The quantities of the generator are ten-thousandths, far
above the tolerance at which a book drops an order. -/
namespace TradingMarket

open Lib (Machine)

/-- The ten-thousandths. -/
def generatedLots : Lots epsilon :=
  lotsOf epsilon (1 / 10000) epsilon_pos (by unfold epsilon; norm_num)

/-- What has been traded of the order of a side that has this number. -/
def BookRun.filled (run : BookRun Unit) (side : Side) (sequence : Int64) : ℚ :=
  ((run.committed.filter fun t => (t.order side).sequence = sequence).map (·.tradedQuantity)).sum

/-- What becomes of the orders of a book. -/
structure Settles (known : List (Order ℚ)) (run : BookRun Unit) : Prop where
  /-- An order rests with what has not been traded of it, or was traded in full. -/
  fills : ∀ side, ∀ o ∈ run.addedTo side,
    (∃ e ∈ run.book.queue side, e.key = o.key ∧
      e.quantity = o.quantity - run.filled side o.sequence) ∨
    (o.sequence ∉ (run.book.queue side).map (·.sequence) ∧ run.filled side o.sequence = o.quantity)
  /-- What was placed on a side rests there or has been traded. -/
  volumes : ∀ side, volume (run.addedTo side) = volume (run.book.queue side) + run.turnover
  /-- No two orders of a queue have one rank, and the best is first. -/
  sorted : ∀ side, Ranked (run.book.queue side)
  /-- A trade is of a positive quantity, between a known ask and a known bid. -/
  trades : ∀ t ∈ run.committed, 0 < t.tradedQuantity ∧
    ∀ side, ∃ o ∈ run.addedTo side, o.toOrder ∈ known ∧ (t.order side).key = o.key

/-! ## With their numbers for tags -/

section Numbered
variable {run : BookRun Unit}

theorem numbered_queue (run : BookRun Unit) (side : Side) :
    (run.map BookOrder.numbered).book.queue side =
      (run.book.queue side).map BookOrder.numbered := by
  cases side <;> rfl

theorem numbered_addedTo (run : BookRun Unit) (side : Side) :
    (run.map BookOrder.numbered).addedTo side = (run.addedTo side).map BookOrder.numbered := by
  rw [BookRun.addedTo, BookRun.map, List.filter_map]
  rfl

theorem numbered_tradedFor (run : BookRun Unit) (side : Side) (sequence : Int64) :
    (run.map BookOrder.numbered).tradedFor side sequence = run.filled side sequence := by
  rw [BookRun.tradedFor, BookRun.map, List.filter_map, List.map_map]
  cases side <;> rfl

theorem numbered_tags (orders : List (BookOrder Unit)) :
    (orders.map BookOrder.numbered).map (·.tag) = orders.map (·.sequence) := by
  rw [List.map_map]
  rfl

theorem numbered_key {e o : BookOrder Unit} (h : e.numbered.key = o.numbered.key) : e.key = o.key :=
  congrArg (fun p : BookOrder Int64 => (⟨p.toOrder, ()⟩ : BookOrder Unit)) h

/-- The fills of a book whose orders have different numbers and are for lots. -/
theorem numbered_fills {eps : ℚ} {lots : Lots eps} (h : (bookMachine eps).Reachable run)
    (hsequences : (run.added.map (·.sequence)).Nodup) (hadded : InLots lots run.added)
    (side : Side) : ∀ o ∈ run.addedTo side,
      (∃ e ∈ run.book.queue side, e.key = o.key ∧
        e.quantity = o.quantity - run.filled side o.sequence) ∨
      (o.sequence ∉ (run.book.queue side).map (·.sequence) ∧
        run.filled side o.sequence = o.quantity) := by
  intro o ho
  have htags : ((run.map BookOrder.numbered).added.map (·.tag)).Nodup :=
    (numbered_tags run.added).symm ▸ hsequences
  have hlots : InLots lots (run.map BookOrder.numbered).added := by
    intro p hp
    obtain ⟨o, ho, rfl⟩ := List.mem_map.mp hp
    exact hadded o ho
  have hmem : o.numbered ∈ (run.map BookOrder.numbered).addedTo side := by
    rw [numbered_addedTo]
    exact List.mem_map_of_mem ho
  have hfilled := numbered_tradedFor run side o.sequence
  have hqueue : ((run.map BookOrder.numbered).book.queue side).map (·.tag) =
      (run.book.queue side).map (·.sequence) := by
    rw [numbered_queue, numbered_tags]
  by_cases hrests : o.sequence ∈ (run.book.queue side).map (·.sequence)
  · obtain ⟨e', he', hkey, hquantity⟩ :=
      resting_exactly (numbered_reachable h) htags hmem (hqueue ▸ hrests)
    rw [numbered_queue] at he'
    obtain ⟨e, he, rfl⟩ := List.mem_map.mp he'
    exact .inl ⟨e, he, numbered_key hkey, hfilled ▸ hquantity⟩
  · refine .inr ⟨hrests, ?_⟩
    rw [← hfilled]
    exact gone_exactly (numbered_reachable h) htags hlots hmem (hqueue ▸ hrests)

end Numbered

/-! ## The orders of the generator -/

/-- A book of orders of the generator settles them. -/
theorem generated_settles {results : Stream' Nat} {known : List (Order ℚ)} {run : BookRun Unit}
    (h : (bookMachine epsilon).Reachable run) (hknown : known <+: PutOrder.put results)
    (hadded : (run.added.map BookOrder.toOrder).Sublist known) : Settles known run := by
  have hput : (run.added.map BookOrder.toOrder).Sublist (PutOrder.put results) :=
    hadded.trans hknown.sublist
  have hfrom : ∀ o ∈ run.added, o.toOrder ∈ PutOrder.put results := fun o ho =>
    hput.subset (List.mem_map_of_mem ho)
  have hapart : Apart epsilon run.added := apart_generated hput
  have hlots : InLots generatedLots run.added := fun o ho => by
    obtain ⟨-, r, hquantity⟩ := put_fields (hfrom o ho)
    have hgrid : o.quantity ∈ Lib.grid (1 / 10000 : ℚ) := hquantity ▸ numberDrawn_grid r
    exact hgrid
  have hpositive : run.AddedPositive := fun o ho _ => by
    obtain ⟨-, r, hquantity⟩ := put_fields (hfrom o ho)
    exact hquantity ▸ zero_lt_one.trans_le (one_le_numberDrawn r)
  refine ⟨numbered_fills h hapart.1 hlots, side_balances (in_lots h hlots),
    fun side => (bookRanked epsilon_pos h hapart side).2, fun t ht => ?_⟩
  refine ⟨trades_positive epsilon_pos h hpositive t ht, fun side => ?_⟩
  obtain ⟨o, ho, hkey⟩ := (origins h side).traded t ht
  exact ⟨o, ho, hadded.subset (List.mem_map_of_mem (List.mem_filter.mp ho).1), hkey⟩

/-- In every interleaving of the programs and whatever messages the broker drops, every
book settles its orders, which have all been journaled. -/
theorem market_settles {W : Type} [DecidableEq W] {d : Deployment W} {s : Market W}
    (hnt : ∀ o ∈ PutOrder.put d.results, Printable d.nt o) (h : (marketMachine d).Reachable s)
    (w : W) : Settles s.server.journaled (s.service w).run := by
  have hlinked := market_linked h
  have hwired := server_wired hlinked.server
  obtain ⟨es, hgot⟩ := hlinked.service w
  refine generated_settles (service_run ⟨es, hgot.run⟩)
    (hwired.first.order.trans (put_generated hlinked.server)) ?_
  exact (hlinked.fed hnt w).trans hwired.second.order.sublist

theorem oneTrade_settles : ∃ s, (marketMachine oneService).exec (marketMachine oneService).start
    oneTrade = some s ∧ (s.service ()).run.turnover ≠ 0 ∧
      Settles s.server.journaled (s.service ()).run := by
  have hrun : ((marketMachine oneService).exec (marketMachine oneService).start oneTrade).map
      (fun s => (s.service ()).run.turnover) = some 1 := by
    decide +kernel
  obtain ⟨s, hs, hturnover⟩ := Option.map_eq_some_iff.mp hrun
  refine ⟨s, hs, ?_, market_settles oneService_printable ⟨oneTrade, hs⟩ ()⟩
  rw [hturnover]
  exact one_ne_zero

end TradingMarket
