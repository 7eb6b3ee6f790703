import Mathlib.Tactic.FieldSimp
import TradingMarket.Command
import TradingMarket.Lib.Grid
import TradingMarket.PutOrder
import TradingMarket.QueueOrder

/-! # What the generator puts

The orders of `PutOrder` meet what the rest of the system asks of its orders:
they are numbered from 1 in their order, within the range of `int`; they name
the asset the service registers; their quantities are ten-thousandths and their
prices multiples of one unit far above the tolerance, so the comparators tell
any two of them apart (`apart_generated`). -/
namespace TradingMarket

open Lib (grid)

variable {results : Stream' Nat}

/-- The asset. -/
def TKLAM : Text := "TKLAM".toList

/-! ## Field by field -/

@[simp] theorem next_sequence (p : PutOrder) :
    (PutOrder.next.run p).1.sequence = p.sequence.toInt64 := rfl
@[simp] theorem next_nextSequence (p : PutOrder) :
    (PutOrder.next.run p).2.sequence = p.sequence + 1 := rfl
@[simp] theorem next_code (p : PutOrder) : (PutOrder.next.run p).1.code = TKLAM := rfl
@[simp] theorem next_quantity (p : PutOrder) :
    (PutOrder.next.run p).1.quantity = numberDrawn (p.results.get 2) := rfl

theorem orders_sequence (n : Nat) : ∀ (k : Nat) {p : PutOrder}, p.sequence = UInt64.ofNat k →
    (p.orders n).map (·.sequence) = (List.range' k n).map Int64.ofNat := by
  induction n with
  | zero => exact fun _ _ _ => rfl
  | succ n ih =>
    intro k p hp
    have hnext : (PutOrder.next.run p).2.sequence = UInt64.ofNat (k + 1) := by
      rw [next_nextSequence, hp]
      exact (UInt64.ofNat_add k 1).symm
    rw [PutOrder.orders, List.map_cons, ih (k + 1) hnext, next_sequence, hp, List.range'_succ,
      List.map_cons]
    rfl

/-- The orders are numbered from 1. -/
theorem put_sequence (results : Stream' Nat) :
    (PutOrder.put results).map (·.sequence) = (List.range' 1 iterations).map Int64.ofNat :=
  orders_sequence iterations 1 rfl

theorem toInt_ofNat_iteration {k : Nat} (hk : k ∈ List.range' 1 iterations) :
    (Int64.ofNat k).toInt = k := by
  have hlt := (List.mem_range'_1.mp hk).2
  unfold iterations at hlt
  exact Int64.toInt_ofNat_of_lt (by omega)

theorem put_nodup (results : Stream' Nat) : ((PutOrder.put results).map (·.sequence)).Nodup := by
  rw [put_sequence]
  refine List.Nodup.map_on (fun i hi j hj heq => ?_) List.nodup_range'
  have hint := congrArg Int64.toInt heq
  rw [toInt_ofNat_iteration hi, toInt_ofNat_iteration hj] at hint
  exact_mod_cast hint

theorem put_inIntRange {o : Order ℚ} (ho : o ∈ PutOrder.put results) :
    InIntRange o.sequence.toInt := by
  have hmem : o.sequence ∈ (PutOrder.put results).map (·.sequence) := List.mem_map_of_mem ho
  rw [put_sequence] at hmem
  obtain ⟨k, hk, heq⟩ := List.mem_map.mp hmem
  rw [← heq, toInt_ofNat_iteration hk]
  have hlt := (List.mem_range'_1.mp hk).2
  unfold iterations at hlt
  unfold InIntRange
  omega

/-- What holds of every order the loop puts, from a state it can be in. -/
theorem orders_all {I : PutOrder → Prop} {Q : Order ℚ → Prop}
    (hnext : ∀ p, I p → Q (PutOrder.next.run p).1 ∧ I (PutOrder.next.run p).2) (n : Nat)
    {p : PutOrder} (hp : I p) : ∀ o ∈ p.orders n, Q o := by
  induction n generalizing p with
  | zero => exact fun o ho => (List.not_mem_nil ho).elim
  | succ n ih =>
    intro o ho
    rcases List.mem_cons.mp ho with rfl | ho
    · exact (hnext p hp).1
    · exact ih (hnext p hp).2 o ho

/-- The code and the quantity of an order. -/
theorem put_fields {o : Order ℚ} (ho : o ∈ PutOrder.put results) :
    o.code = TKLAM ∧ ∃ r, o.quantity = numberDrawn r :=
  @orders_all (fun _ => True) (fun o => o.code = TKLAM ∧ ∃ r, o.quantity = numberDrawn r)
    (fun p _ => ⟨⟨rfl, p.results.get 2, rfl⟩, trivial⟩) iterations { results } trivial o ho

/-! ## Quantities and prices -/

/-- The ten-thousandths. -/
theorem numberDrawn_grid (r : Nat) : numberDrawn r ∈ grid (1 / 10000 : ℚ) := by
  unfold numberDrawn
  generalize r % 10000 = m
  refine Lib.mem_grid.mpr ⟨10000 + m, ?_⟩
  push_cast
  ring

theorem one_le_numberDrawn (r : Nat) : 1 ≤ numberDrawn r := by
  unfold numberDrawn
  have hpos : (0 : ℚ) ≤ (r % 10000 : Nat) / 10000 := by positivity
  linarith

/-- What divides every ten-thousandth and `spread`. -/
def priceUnit : ℚ := 1 / (10000 * 2 ^ 66)

theorem epsilon_lt_priceUnit : epsilon < priceUnit := by
  unfold epsilon priceUnit
  norm_num

theorem numberDrawn_price (r : Nat) : numberDrawn r ∈ grid priceUnit := by
  unfold numberDrawn priceUnit
  generalize r % 10000 = m
  refine Lib.mem_grid.mpr ⟨(10000 + m) * 2 ^ 66, ?_⟩
  push_cast
  field_simp
  ring

theorem spread_price : spread ∈ grid priceUnit := by
  refine Lib.mem_grid.mpr ⟨7378697629483821 * 10000, ?_⟩
  unfold spread priceUnit
  norm_num

theorem priceDrawn_grid {i r : Nat} {prevPrice : ℚ} (h : prevPrice ∈ grid priceUnit) :
    priceDrawn i prevPrice r ∈ grid priceUnit := by
  unfold priceDrawn
  split
  · exact numberDrawn_price r
  · dsimp only
    split
    · exact add_mem h spread_price
    · split
      · split
        · exact sub_mem h spread_price
        · exact zero_mem _
      · exact h

theorem put_price {o : Order ℚ} (ho : o ∈ PutOrder.put results) : o.price ∈ grid priceUnit :=
  @orders_all (fun p => p.prevPrice ∈ grid priceUnit) (fun o => o.price ∈ grid priceUnit)
    (fun _ hp => ⟨priceDrawn_grid hp, priceDrawn_grid hp⟩) iterations { results } (zero_mem _) o ho

/-- The comparators tell the orders of the generator apart. -/
theorem apart_generated {τ : Type} {orders : List (BookOrder τ)}
    (h : (orders.map BookOrder.toOrder).Sublist (PutOrder.put results)) : Apart epsilon orders := by
  refine ⟨?_, fun a ha b hb hne => ?_⟩
  · have hnodup := (h.map (·.sequence)).nodup (put_nodup results)
    rwa [List.map_map] at hnodup
  · have hprice : ∀ o ∈ orders, o.price ∈ grid priceUnit := fun o ho =>
      put_price (h.subset (List.mem_map_of_mem ho))
    exact epsilon_lt_priceUnit.trans_le (Lib.unit_le_abs_sub (epsilon_pos.trans epsilon_lt_priceUnit)
      (hprice a ha) (hprice b hb) hne)

/-! ## On the wire -/

/-- The numbers of the order print as words that the constructor reads back. -/
structure Printable (nt : NumberText ℚ) (o : Order ℚ) : Prop where
  quantity_word : nt.str50 o.quantity ≠ [] ∧ ' ' ∉ nt.str50 o.quantity
  quantity : nt.ofStr (nt.str50 o.quantity) = some o.quantity
  price_word : nt.str o.price ≠ [] ∧ ' ' ∉ nt.str o.price
  price : nt.ofStr (nt.str o.price) = some o.price

/-- An order of the generator survives the trip through its command. -/
theorem generated_parses {nt : NumberText ℚ} {o : Order ℚ} (ho : o ∈ PutOrder.put results)
    (hnt : Printable nt o) : ofTokens nt (tokens (o.cmdStr nt)) = some o := by
  obtain ⟨hcode, -⟩ := put_fields ho
  have hword : o.code ≠ [] ∧ ' ' ∉ o.code := by
    rw [hcode]
    decide
  rw [tokens_of_words hword hnt.quantity_word hnt.price_word]
  simp [ofTokens, checkPrefix, stoi_printInt, put_inIntRange ho, typeOf_text, matchTypeOf_text,
    Except.toOption, hnt.quantity, hnt.price]

end TradingMarket
