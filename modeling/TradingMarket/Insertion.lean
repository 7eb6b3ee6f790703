import TradingMarket.BookRun

/-! # The binary insertion

`addOrder_R` one call at a time, with every access to the deque as the source
makes it: one outside the deque leads nowhere. Whatever the comparator answers,
the calls get to the insertion, read only elements of the range they began with,
and leave the other orders as they were; where the orders of the range that `o`
outranks stand behind the others, `o` goes between the two (`addOrder_R_inserts`). -/
namespace TradingMarket

open Lib (Machine bisect probes Partitioned)

variable {α : Type}

/-- Where the recursion is: at a call with these bounds, or back from the last one. -/
inductive InsertionPc where
  | call (first last : Nat)
  | returned
deriving DecidableEq, Repr

structure Insertion (α : Type) where
  orders : List α
  pc : InsertionPc
  /-- The indices of the elements read so far. -/
  reads : List Nat := []
deriving DecidableEq, Repr

section Model
variable (higherPriority : α → α → Bool) (o : α)

/-- One call of `addOrder_R`, up to the call it makes. Reading or inserting outside
the deque is undefined, and no step. A deque is too short for the sum of two of
its indices to leave `size_t`. -/
def insertionStep (s : Insertion α) : Option (Insertion α) :=
  match s.pc with
  | .returned => none
  | .call first last =>
    let mid := (first + last) / 2
    if last = first then
      if first ≤ s.orders.length then
        some { s with orders := s.orders.insertIdx first o, pc := .returned }
      else none
    else
      match s.orders[mid]? with
      | none => none
      | some e =>
        some { s with
          pc := if higherPriority o e then .call first mid else .call (mid + 1) last
          reads := s.reads ++ [mid] }

/-- The call `addOrder_R(o, orders, first, last, higherPriority)`. -/
def insertionMachine (orders : List α) (first last : Nat) : Machine (Insertion α) Unit :=
  ⟨{ orders, pc := .call first last }, fun s _ => insertionStep higherPriority o s⟩

end Model

variable {higherPriority : α → α → Bool} {o : α} {orders : List α} {first last : Nat}
  {reads : List Nat}

/-! ## One call -/

theorem insertionStep_insert (h : first ≤ orders.length) :
    insertionStep higherPriority o ⟨orders, .call first first, reads⟩ =
      some ⟨orders.insertIdx first o, .returned, reads⟩ := by
  simp [insertionStep, h]

theorem insertionStep_read (hne : last ≠ first) (hmid : (first + last) / 2 < orders.length) :
    insertionStep higherPriority o ⟨orders, .call first last, reads⟩ =
      some ⟨orders,
        if outranks higherPriority o orders ((first + last) / 2) then
          .call first ((first + last) / 2)
        else .call ((first + last) / 2 + 1) last,
        reads ++ [(first + last) / 2]⟩ := by
  simp [insertionStep, hne, outranks_get _ _ hmid, List.getElem?_eq_getElem hmid]

/-! ## The whole recursion -/

/-- The calls return what `addOrder_R` does, and read what the bisection looks at. -/
theorem insertion_returns {first₀ last₀ : Nat} (hfl : first ≤ last) (hlast : last ≤ orders.length)
    (reads : List Nat) :
    (insertionMachine higherPriority o orders first₀ last₀).Repeats ()
      ⟨orders, .call first last, reads⟩
      ⟨addOrder_R o orders first last higherPriority hfl hlast, .returned,
        reads ++ probes (outranks higherPriority o orders) first last⟩ := by
  rw [addOrder_R_eq]
  induction first, last using Lib.bisect.induct (outranks higherPriority o orders)
    generalizing reads with
  | case1 first last hle =>
    obtain rfl : last = first := by omega
    rw [Lib.bisect_empty _ le_rfl, Lib.probes_empty _ le_rfl, List.append_nil]
    exact .head (insertionStep_insert hlast) (.refl _ _)
  | case2 first last hlt hp ih =>
    have hstep := @insertionStep_read _ higherPriority o orders first last reads
      (by omega) (by omega)
    rw [if_pos hp] at hstep
    have hrest := ih (by omega) (by omega) (reads ++ [(first + last) / 2])
    rw [Lib.bisect_left _ (by omega) hp, Lib.probes_left _ (by omega) hp, List.append_cons]
    exact .head hstep hrest
  | case3 first last hlt hp ih =>
    have hstep := @insertionStep_read _ higherPriority o orders first last reads
      (by omega) (by omega)
    rw [if_neg hp] at hstep
    have hout := Bool.eq_false_of_not_eq_true hp
    have hrest := ih (by omega) (by omega) (reads ++ [(first + last) / 2])
    rw [Lib.bisect_right _ (by omega) hout, Lib.probes_right _ (by omega) hout, List.append_cons]
    exact .head hstep hrest

/-- `after` is `orders` with `o` inserted once, at a position of the range; in a
range whose orders that `o` outranks stand behind the others, between the two. -/
structure InsertedAt (higherPriority : α → α → Bool) (o : α) (orders : List α)
    (first last position : Nat) (after : List α) : Prop where
  lower : first ≤ position
  upper : position ≤ last
  after : after = orders.take position ++ o :: orders.drop position
  boundary : Partitioned (outranks higherPriority o orders) first last →
    ∀ i, first ≤ i → i < last → (position ≤ i ↔ outranks higherPriority o orders i = true)

theorem insertedAt_bisect (hfl : first ≤ last) (hlast : last ≤ orders.length) :
    InsertedAt higherPriority o orders first last
      (bisect (outranks higherPriority o orders) first last)
      (addOrder_R o orders first last higherPriority hfl hlast) := by
  obtain ⟨hlower, hupper⟩ := Lib.bisect_mem (outranks higherPriority o orders) hfl
  refine ⟨hlower, hupper, ?_, fun hpart i hi hlt => hpart.bisect_le_iff hfl hi hlt⟩
  rw [addOrder_R_eq]
  exact Lib.insertIdx_split (hupper.trans hlast) o

/-- From any bounds inside the deque and with any comparator, the recursion returns,
has read only elements of its range, and has inserted the order in it. -/
theorem addOrder_R_inserts (higherPriority : α → α → Bool) (o : α) (orders : List α)
    (hfl : first ≤ last) (hlast : last ≤ orders.length) :
    ∃ after reads position,
      (insertionMachine higherPriority o orders first last).Repeats ()
        (insertionMachine higherPriority o orders first last).start ⟨after, .returned, reads⟩ ∧
      after = addOrder_R o orders first last higherPriority hfl hlast ∧
      (∀ mid ∈ reads, first ≤ mid ∧ mid < last) ∧
      InsertedAt higherPriority o orders first last position after := by
  refine ⟨_, _, _, insertion_returns hfl hlast [], rfl, ?_, insertedAt_bisect hfl hlast⟩
  intro mid hmid
  exact Lib.mem_probes _ hmid

/-- A market ask and two limit asks. -/
def threeAsks : List (BookOrder Nat) :=
  [tklam 1 .ask .market 1 10, tklam 2 .ask .limit 1 12, tklam 3 .ask .limit 1 10]

theorem limit_between : ∃ reads,
    (insertionMachine (SortAskOrders epsilon) (tklam 4 .ask .limit 1 11) threeAsks 1 3).Repeats ()
      (insertionMachine (SortAskOrders epsilon) (tklam 4 .ask .limit 1 11) threeAsks 1 3).start
      ⟨[tklam 1 .ask .market 1 10, tklam 2 .ask .limit 1 12, tklam 4 .ask .limit 1 11,
        tklam 3 .ask .limit 1 10], .returned, reads⟩ ∧
      ∀ mid ∈ reads, 1 ≤ mid ∧ mid < 3 := by
  obtain ⟨after, reads, position, hrun, -, hreads, hins⟩ :=
    addOrder_R_inserts (SortAskOrders epsilon) (tklam 4 .ask .limit 1 11) threeAsks
      (show 1 ≤ 3 from Nat.le_add_left 1 2) le_rfl
  have hpart : Partitioned
      (outranks (SortAskOrders epsilon) (tklam 4 .ask .limit 1 11) threeAsks) 1 3 := by
    decide +kernel
  have hbehind := (hins.boundary hpart 1 le_rfl (by omega)).not.mpr (by decide +kernel)
  have hbefore := (hins.boundary hpart 2 (by omega) (by omega)).mpr (by decide +kernel)
  obtain rfl : position = 2 := by omega
  obtain rfl := hins.after
  exact ⟨reads, hrun, hreads⟩

/-- The recursion reads at most one element more than the binary logarithm of the
length of its range. -/
theorem addOrder_R_reads (higherPriority : α → α → Bool) (o : α) (orders : List α)
    (h : first < last) (hlast : last ≤ orders.length) :
    ∃ after reads,
      (insertionMachine higherPriority o orders first last).Repeats ()
        (insertionMachine higherPriority o orders first last).start ⟨after, .returned, reads⟩ ∧
      2 ^ reads.length ≤ 2 * (last - first) :=
  ⟨_, _, insertion_returns h.le hlast [], Lib.two_pow_probes _ h⟩

end TradingMarket
