import TradingMarket.L3.Disruptor
import TradingMarket.Lib.Machine

/-! # A ring for any number of threads

The L3 ring as its comments promise it: any number of threads put messages, each
`Get` is a consumer with a thread of its own, and every `Get` and the `Put` have
a barrier, a list of cursors of the ring and of other consumers. All threads
share one `Put` type, so one cursor of claims. `Barrier::least()` loads one
cursor after the other, in an order C++ leaves open, while the others go on.

Indices are natural numbers here; `L3.Index` has the ring with those of the code,
and shows where they agree. -/
namespace TradingMarket.L3

open Lib (Machine)

/-- A `cursor` a barrier can name: the one of the ring, or of a `Get`. -/
inductive Cursor (C : Type) where
  | ring
  | get (c : C)
deriving DecidableEq, Repr

inductive CommitPolicy where
  | unique
  | shared
deriving DecidableEq, Repr

/-- How a ring is set up. `CommitPolicy::Unique` never waits for its turn, so it is for
one producer only (`lone`). -/
structure Wiring (P C : Type) where
  size : Nat
  size_pos : 0 < size
  policy : CommitPolicy
  lone : policy = .unique → Subsingleton P
  putBarrier : List (Cursor C)
  putBarrier_ne_nil : putBarrier ≠ []
  getBarrier : C → List (Cursor C)
  getBarrier_ne_nil : ∀ c, getBarrier c ≠ []

/-- A call of `Barrier::least()`: the cursors it has yet to load, and the least of
those it has. -/
structure Least (C : Type) (I : Type := Nat) where
  rest : List (Cursor C)
  least : Option I := none
deriving DecidableEq, Repr

/-- The `i`th of the remaining cursors is loaded. -/
def Least.load {C I : Type} [Min I] (value : Cursor C → I) (l : Least C I) (i : Nat) :
    Option (Least C I) :=
  l.rest[i]?.map fun b =>
    { rest := l.rest.eraseIdx i, least := some (l.least.elim (value b) (min (value b))) }

/-- Where a `Put` is. -/
inductive SharedPutPc (C : Type) (I : Type := Nat) where
  | claim
  | waitBarrier (slot : I) (barrier : Least C I)
  | write (slot : I)
  | commit (slot : I)
deriving DecidableEq, Repr

/-- Which constructor of `Get` is called: with a `maxBatchSize` or not, with `noBlock`
or not. -/
structure GetKind where
  maxBatchSize : Option Nat
  noBlock : Bool
deriving DecidableEq, Repr

/-- Where the thread of a consumer is: between two batches, in a constructor of `Get`,
or in the loop over a batch. -/
inductive ConsumerPc (C : Type) (I : Type := Nat) where
  | idle
  | waitBarrier (kind : GetKind) (barrier : Least C I)
  | batch (index last : I)
deriving DecidableEq, Repr

/-- The ring and its threads. What has been claimed, put and handled is recorded besides. -/
structure Network (α P C : Type) where
  ring : Disruptor α
  put : P → Option (α × SharedPutPc C) := fun _ => none
  cursor : C → Nat
  get : C → ConsumerPc C := fun _ => .idle
  /-- Who has claimed a slot for what, slot by slot. -/
  claims : List (P × α) := []
  /-- What a thread has put. -/
  done : P → List α := fun _ => []
  handled : C → List α := fun _ => []

inductive NetworkEvent (α P C : Type) where
  /-- The thread comes to a `Put() = msg`. -/
  | put (p : P) (msg : α)
  | putLoad (p : P) (i : Nat)
  | putStep (p : P)
  /-- The consumer comes to a `Get`. -/
  | get (c : C) (kind : GetKind)
  | getLoad (c : C) (i : Nat)
  | getStep (c : C)

/-- The thread that takes the event. -/
def NetworkEvent.thread {α P C : Type} : NetworkEvent α P C → P ⊕ C
  | .put p _ | .putLoad p _ | .putStep p => .inl p
  | .get c _ | .getLoad c _ | .getStep c => .inr c

/-- Batches are not limited, as in the programs. -/
def NetworkEvent.Unlimited {α P C : Type} : NetworkEvent α P C → Prop
  | .get _ kind => kind.maxBatchSize = none
  | _ => True

section Model
variable {α P C : Type} [DecidableEq P] [DecidableEq C] (w : Wiring P C)

def Network.value (s : Network α P C) : Cursor C → Nat
  | .ring => s.ring.cursor
  | .get c => s.cursor c

/-- A step of a `Put` that is not a load of its barrier. The commit is one step with the
load that ends its spin. -/
def Network.putStep (s : Network α P C) (p : P) : Option (Network α P C) :=
  match s.put p with
  | none => none
  | some (msg, .claim) =>
    some { s with
      ring := { s.ring with putCursor := s.ring.putCursor + 1 }
      claims := s.claims ++ [(p, msg)]
      put := Function.update s.put p
        (some (msg, .waitBarrier s.ring.putCursor ⟨w.putBarrier, none⟩)) }
  | some (msg, .waitBarrier slot ⟨rest, least⟩) =>
    match rest, least with
    | [], some least =>
      some { s with
        put := Function.update s.put p (some (msg,
          if least ≤ slot - w.size then .waitBarrier slot ⟨w.putBarrier, none⟩ else .write slot)) }
    | _, _ => none
  | some (msg, .write slot) =>
    some { s with
      ring := s.ring.write w.size slot msg
      put := Function.update s.put p (some (msg, .commit slot)) }
  | some (msg, .commit slot) =>
    if w.policy = .shared ∧ s.ring.cursor < slot then some s
    else some { s with
      ring := { s.ring with cursor := s.ring.cursor + 1 }
      put := Function.update s.put p none
      done := Function.update s.done p (s.done p ++ [msg]) }

/-- The end of the batch, where the constructor gets one. -/
def GetKind.batchEnd (kind : GetKind) (first least : Nat) : Option Nat :=
  if kind.noBlock = false ∧ least ≤ first then none
  else some (kind.maxBatchSize.elim least fun n => min least (first + n))

/-- A step of a consumer that is not a load. -/
def Network.getStep (s : Network α P C) (c : C) : Option (Network α P C) :=
  match s.get c with
  | .idle => none
  | .waitBarrier kind ⟨rest, least⟩ =>
    match rest, least with
    | [], some least =>
      some { s with
        get := Function.update s.get c
          (match kind.batchEnd (s.cursor c) least with
          | none => .waitBarrier kind ⟨w.getBarrier c, none⟩
          | some last => .batch (s.cursor c) last) }
    | _, _ => none
  | .batch index last =>
    if index = last then
      some { s with
        cursor := Function.update s.cursor c last
        get := Function.update s.get c .idle }
    else
      some { s with
        handled := Function.update s.handled c (s.handled c ++ [s.ring.read w.size index])
        get := Function.update s.get c (.batch (index + 1) last) }

def networkStep (s : Network α P C) : NetworkEvent α P C → Option (Network α P C)
  | .put p msg =>
    match s.put p with
    | none => some { s with put := Function.update s.put p (some (msg, .claim)) }
    | some _ => none
  | .putLoad p i =>
    match s.put p with
    | some (msg, .waitBarrier slot barrier) =>
      (barrier.load s.value i).map fun barrier =>
        { s with put := Function.update s.put p (some (msg, .waitBarrier slot barrier)) }
    | _ => none
  | .putStep p => s.putStep w p
  | .get c kind =>
    match s.get c with
    | .idle =>
      some { s with
        get := Function.update s.get c (.waitBarrier kind ⟨w.getBarrier c, none⟩) }
    | _ => none
  | .getLoad c i =>
    match s.get c with
    | .waitBarrier kind barrier =>
      (barrier.load s.value i).map fun barrier =>
        { s with get := Function.update s.get c (.waitBarrier kind barrier) }
    | _ => none
  | .getStep c => s.getStep w c

/-- A new ring, all cursors a lap ahead. -/
def Network.start (blank : α) : Network α P C where
  ring := .new w.size blank
  cursor _ := w.size

def networkMachine (blank : α) : Machine (Network α P C) (NetworkEvent α P C) :=
  ⟨.start w blank, networkStep w⟩

end Model

/-! ## What a step can do -/

section Steps
variable {α P C : Type} {w : Wiring P C}

/-- A step of a thread that is in a `Put`, or comes to one. Most change nothing but
where it is. -/
inductive ProducerStep [DecidableEq P] (w : Wiring P C) (s : Network α P C) (p : P) : Network α P C → Prop
  | call {msg} : s.put p = none →
      ProducerStep w s p { s with put := Function.update s.put p (some (msg, .claim)) }
  | load {msg slot barrier barrier' i} : s.put p = some (msg, .waitBarrier slot barrier) →
      barrier.load s.value i = some barrier' →
      ProducerStep w s p
        { s with put := Function.update s.put p (some (msg, .waitBarrier slot barrier')) }
  | full {msg slot least} : s.put p = some (msg, .waitBarrier slot ⟨[], some least⟩) →
      least ≤ slot - w.size →
      ProducerStep w s p
        { s with put := Function.update s.put p (some (msg, .waitBarrier slot ⟨w.putBarrier, none⟩)) }
  | room {msg slot least} : s.put p = some (msg, .waitBarrier slot ⟨[], some least⟩) →
      slot - w.size < least →
      ProducerStep w s p { s with put := Function.update s.put p (some (msg, .write slot)) }
  | waitTurn {msg slot} : s.put p = some (msg, .commit slot) → w.policy = .shared →
      s.ring.cursor < slot → ProducerStep w s p s
  | claim {msg} : s.put p = some (msg, .claim) →
      ProducerStep w s p
        { s with
          ring := { s.ring with putCursor := s.ring.putCursor + 1 }
          claims := s.claims ++ [(p, msg)]
          put := Function.update s.put p
            (some (msg, .waitBarrier s.ring.putCursor ⟨w.putBarrier, none⟩)) }
  | write {msg slot} : s.put p = some (msg, .write slot) →
      ProducerStep w s p
        { s with
          ring := s.ring.write w.size slot msg
          put := Function.update s.put p (some (msg, .commit slot)) }
  | commit {msg slot} : s.put p = some (msg, .commit slot) →
      (w.policy = .shared → slot ≤ s.ring.cursor) →
      ProducerStep w s p
        { s with
          ring := { s.ring with cursor := s.ring.cursor + 1 }
          put := Function.update s.put p none
          done := Function.update s.done p (s.done p ++ [msg]) }

inductive ConsumerStep [DecidableEq C] (w : Wiring P C) (s : Network α P C) (c : C) : Network α P C → Prop
  | construct {kind} : s.get c = .idle →
      ConsumerStep w s c
        { s with get := Function.update s.get c (.waitBarrier kind ⟨w.getBarrier c, none⟩) }
  | load {kind barrier barrier' i} : s.get c = .waitBarrier kind barrier →
      barrier.load s.value i = some barrier' →
      ConsumerStep w s c { s with get := Function.update s.get c (.waitBarrier kind barrier') }
  | again {kind least} : s.get c = .waitBarrier kind ⟨[], some least⟩ →
      kind.batchEnd (s.cursor c) least = none →
      ConsumerStep w s c
        { s with get := Function.update s.get c (.waitBarrier kind ⟨w.getBarrier c, none⟩) }
  | take {kind least last} : s.get c = .waitBarrier kind ⟨[], some least⟩ →
      kind.batchEnd (s.cursor c) least = some last →
      ConsumerStep w s c { s with get := Function.update s.get c (.batch (s.cursor c) last) }
  | release {last} : s.get c = .batch last last →
      ConsumerStep w s c
        { s with
          cursor := Function.update s.cursor c last
          get := Function.update s.get c .idle }
  | handle {index last} : s.get c = .batch index last → index ≠ last →
      ConsumerStep w s c
        { s with
          handled := Function.update s.handled c (s.handled c ++ [s.ring.read w.size index])
          get := Function.update s.get c (.batch (index + 1) last) }

theorem producerStep_cases [DecidableEq P] {s s' : Network α P C} {p : P}
    (h : s.putStep w p = some s') : ProducerStep w s p s' := by
  unfold Network.putStep at h
  split at h
  · cases h
  · rename_i msg hput
    cases h
    exact .claim hput
  · rename_i msg slot rest least hput
    split at h
    · rename_i n
      cases h
      split
      · rename_i hfull
        exact .full hput hfull
      · rename_i hroom
        exact .room hput (Nat.lt_of_not_le hroom)
    · cases h
  · rename_i msg slot hput
    cases h
    exact .write hput
  · rename_i msg slot hput
    split at h
    · rename_i hwait
      cases h
      exact .waitTurn hput hwait.1 hwait.2
    · rename_i hturn
      cases h
      exact .commit hput fun hshared => Nat.le_of_not_lt fun hlt => hturn ⟨hshared, hlt⟩

theorem consumerStep_cases [DecidableEq C] {s s' : Network α P C} {c : C}
    (h : s.getStep w c = some s') : ConsumerStep w s c s' := by
  unfold Network.getStep at h
  split at h
  · cases h
  · rename_i kind rest least hget
    split at h
    · rename_i n
      cases h
      split
      · rename_i hnone
        exact .again hget hnone
      · rename_i last hlast
        exact .take hget hlast
    · cases h
  · rename_i index last hget
    split at h
    · rename_i heq
      cases h
      exact .release (heq ▸ hget)
    · rename_i hne
      cases h
      exact .handle hget hne

/-- An event is a step of its thread. -/
theorem thread_cases [DecidableEq P] [DecidableEq C] {blank : α} {s s' : Network α P C} {e : NetworkEvent α P C}
    (h : (networkMachine w blank).step s e = some s') :
    (∃ p, e.thread = .inl p ∧ ProducerStep w s p s') ∨
      ∃ c, e.thread = .inr c ∧ ConsumerStep w s c s' := by
  change networkStep w s e = some s' at h
  cases e with
  | put p msg =>
    simp only [networkStep] at h
    split at h
    · rename_i hput
      cases h
      exact .inl ⟨p, rfl, .call hput⟩
    · cases h
  | putLoad p i =>
    simp only [networkStep] at h
    split at h
    · rename_i msg slot barrier hput
      obtain ⟨barrier', hload, rfl⟩ := Option.map_eq_some_iff.mp h
      exact .inl ⟨p, rfl, .load hput hload⟩
    · cases h
  | putStep p => exact .inl ⟨p, rfl, producerStep_cases h⟩
  | get c kind =>
    simp only [networkStep] at h
    split at h
    · rename_i hget
      cases h
      exact .inr ⟨c, rfl, .construct hget⟩
    · cases h
  | getLoad c i =>
    simp only [networkStep] at h
    split at h
    · rename_i kind barrier hget
      obtain ⟨barrier', hload, rfl⟩ := Option.map_eq_some_iff.mp h
      exact .inr ⟨c, rfl, .load hget hload⟩
    · cases h
  | getStep c => exact .inr ⟨c, rfl, consumerStep_cases h⟩

theorem networkStep_cases [DecidableEq P] [DecidableEq C] {blank : α} {s s' : Network α P C} {e : NetworkEvent α P C}
    (h : (networkMachine w blank).step s e = some s') :
    (∃ p, ProducerStep w s p s') ∨ ∃ c, ConsumerStep w s c s' := by
  obtain ⟨p, -, hp⟩ | ⟨c, -, hc⟩ := thread_cases h
  · exact .inl ⟨p, hp⟩
  · exact .inr ⟨c, hc⟩

end Steps

end TradingMarket.L3
