import TradingMarket.L3.NetworkSafety

/-! # Rings with single cursors for barriers

Where a barrier is a single cursor, as in the programs, its load and what is made
of it are one atomic access, and a `Put` and a consumer move as `PutStep` and
`GetStep` have it. Every such move is a run of the network, so what holds of all
networks holds of the rings of the programs. -/
namespace TradingMarket.L3

open Lib (Machine)

variable {α P C : Type} {w : Wiring P C}

/-- A ring whose barriers are single cursors. -/
def Wiring.single (size : Nat) (size_pos : 0 < size) (putBarrier : Cursor C)
    (getBarrier : C → Cursor C) : Wiring P C where
  size
  size_pos
  policy := .shared
  lone := fun h => by cases h
  putBarrier := [putBarrier]
  putBarrier_ne_nil := List.cons_ne_nil _ _
  getBarrier c := [getBarrier c]
  getBarrier_ne_nil _ := List.cons_ne_nil _ _

/-- Where a `Put` of a ring is, as a thread of a network. -/
def PutPc.shared (w : Wiring P C) : PutPc → SharedPutPc C
  | .claim => .claim
  | .waitBarrier slot => .waitBarrier slot ⟨w.putBarrier, none⟩
  | .write slot => .write slot
  | .commit slot => .commit slot

/-- Where a consumer of a ring is, as one of a network. -/
def GetPc.consumer : GetPc → ConsumerPc C
  | .waitBatch => .idle
  | .batch index last => .batch index last

/-- What a move of a `Put` claims. -/
def claimedBy (p : P) (msg : α) : PutPc → List (P × α)
  | .claim => [(p, msg)]
  | _ => []

/-- What a move of a `Put` completes. -/
def completed (msg : α) : Option PutPc → List α
  | none => [msg]
  | some _ => []

theorem value_get (s : Network α P C) (get : C → ConsumerPc C) (b : Cursor C) :
    ({ s with get } : Network α P C).value b = s.value b := by
  cases b <;> rfl

section Moves
variable [DecidableEq P] [DecidableEq C] {blank : α} {s : Network α P C}

/-- The network after a move of a `Put`. -/
def Network.afterPut (w : Wiring P C) (s : Network α P C) (p : P) (msg : α) (pc : PutPc)
    (ring : Disruptor α) (pc' : Option PutPc) : Network α P C :=
  { s with
    ring
    claims := s.claims ++ claimedBy p msg pc
    put := Function.update s.put p (pc'.map fun pc' => (msg, pc'.shared w))
    done := Function.update s.done p (s.done p ++ completed msg pc') }

/-- The network after a move of a consumer. -/
def Network.afterGet (s : Network α P C) (c : C) (g : Get) (taken : Option α) : Network α P C :=
  { s with
    cursor := Function.update s.cursor c g.cursor
    get := Function.update s.get c g.pc.consumer
    handled := Function.update s.handled c (s.handled c ++ taken.toList) }

/-- The barrier of a `Put` is loaded. -/
theorem putLoad_reaches {b : Cursor C} (hb : w.putBarrier = [b]) {p : P} {msg : α} {slot : Nat}
    (hput : s.put p = some (msg, .waitBarrier slot ⟨w.putBarrier, none⟩)) :
    (networkMachine w blank).ReachesBy NetworkEvent.Unlimited s
      { s with put := Function.update s.put p (some (msg, .waitBarrier slot ⟨[], some (s.value b)⟩)) } := by
  refine Machine.ReachesBy.single (e := .putLoad p 0) trivial ?_
  simp [networkMachine, networkStep, hput, Least.load, hb]

theorem put_simulated {b : Cursor C} (hshared : w.policy = .shared) (hb : w.putBarrier = [b])
    {p : P} {msg : α} {pc : PutPc} {ring : Disruptor α} {pc' : Option PutPc}
    (hput : s.put p = some (msg, pc.shared w))
    (hs : PutStep w.size (s.value b) msg s.ring pc ring pc') :
    (networkMachine w blank).ReachesBy NetworkEvent.Unlimited s (s.afterPut w p msg pc ring pc') := by
  cases hs with
  | claim =>
    refine Machine.ReachesBy.single (e := .putStep p) trivial ?_
    simp only [PutPc.shared] at hput
    simp [networkMachine, networkStep, Network.putStep, hput, PutPc.shared, Network.afterPut,
      claimedBy, completed]
  | @full slot hfull =>
    refine (putLoad_reaches hb hput).trans (Machine.ReachesBy.single (e := .putStep p) trivial ?_)
    simp [networkMachine, networkStep, Network.putStep, PutPc.shared, Network.afterPut,
      claimedBy, completed, hfull]
  | @room slot hroom =>
    refine (putLoad_reaches hb hput).trans (Machine.ReachesBy.single (e := .putStep p) trivial ?_)
    simp [networkMachine, networkStep, Network.putStep, PutPc.shared, Network.afterPut,
      claimedBy, completed, Nat.not_le.mpr hroom]
  | write =>
    refine Machine.ReachesBy.single (e := .putStep p) trivial ?_
    simp only [PutPc.shared] at hput
    simp [networkMachine, networkStep, Network.putStep, hput, PutPc.shared, Network.afterPut,
      claimedBy, completed]
  | @waitTurn slot hlt =>
    refine Machine.ReachesBy.single (e := .putStep p) trivial ?_
    simp only [PutPc.shared] at hput
    have hsame : Function.update s.put p (some (msg, .commit slot)) = s.put := by
      rw [← hput, Function.update_eq_self]
    simp [networkMachine, networkStep, Network.putStep, hput, PutPc.shared, Network.afterPut,
      claimedBy, completed, hshared, hlt, hsame]
  | commit hle =>
    refine Machine.ReachesBy.single (e := .putStep p) trivial ?_
    simp only [PutPc.shared] at hput
    simp [networkMachine, networkStep, Network.putStep, hput, Network.afterPut,
      claimedBy, completed, Nat.not_lt.mpr hle]

theorem get_simulated {b : Cursor C} {c : C} (hb : w.getBarrier c = [b]) {g g' : Get}
    {taken : Option α} (hcursor : s.cursor c = g.cursor) (hget : s.get c = g.pc.consumer)
    (hs : GetStep w.size (s.value b) s.ring g g' taken) :
    (networkMachine w blank).ReachesBy NetworkEvent.Unlimited s (s.afterGet c g' taken) := by
  cases hs with
  | spin =>
    convert Machine.ReachesBy.refl _ using 1
    simp [Network.afterGet, ← hcursor, ← hget]
  | take hpc hlt =>
    rw [hpc] at hget
    have hsame : Function.update s.cursor c g.cursor = s.cursor := by
      rw [← hcursor, Function.update_eq_self]
    -- a constructor of `Get` that blocks, and finds the barrier passed
    refine ⟨[.get c ⟨none, false⟩, .getLoad c 0, .getStep c], by simp [NetworkEvent.Unlimited], ?_⟩
    simp [networkMachine, networkStep, Network.getStep, hget, GetPc.consumer, Network.afterGet,
      Least.load, hb, GetKind.batchEnd, hcursor, value_get, Nat.not_le.mpr hlt, hsame]
  | @handle index last hpc hne =>
    rw [hpc] at hget
    refine Machine.ReachesBy.single (e := .getStep c) trivial ?_
    simp [networkMachine, networkStep, Network.getStep, hget, GetPc.consumer, Network.afterGet,
       hne, ← hcursor]
  | @release last hpc =>
    rw [hpc] at hget
    refine Machine.ReachesBy.single (e := .getStep c) trivial ?_
    simp [networkMachine, networkStep, Network.getStep, hget, GetPc.consumer, Network.afterGet]

end Moves

/-! ## The threads of a ring, as threads of a network -/

/-- The thread of the network is in the `Put`, and has put `done`. -/
structure Network.Puts (w : Wiring P C) (s : Network α P C) (p : P)
    (putting : Option (α × PutPc)) (done : List α) : Prop where
  put : s.put p = putting.map fun x => (x.1, x.2.shared w)
  done : s.done p = done

/-- The consumer of the network is where the `Get` is, and has handled `taken`. -/
structure Network.Gets (s : Network α P C) (c : C) (g : Get) (taken : List α) : Prop where
  cursor : s.cursor c = g.cursor
  get : s.get c = g.pc.consumer
  handled : s.handled c = taken

section Threads
variable {s : Network α P C} {p : P} {c : C} {putting : Option (α × PutPc)} {done taken : List α}
  {g : Get}

theorem puts_start (blank : α) : (Network.start w blank : Network α P C).Puts w p none [] := ⟨rfl, rfl⟩

theorem gets_start (blank : α) :
    (Network.start w blank : Network α P C).Gets c ⟨w.size, .waitBatch⟩ [] := ⟨rfl, rfl, rfl⟩

/-- The next `Put` is called. -/
theorem Network.Puts.call [DecidableEq P] [DecidableEq C] (h : s.Puts w p none done)
    (blank msg : α) : ∃ s', (networkMachine w blank).ReachesBy NetworkEvent.Unlimited s s' ∧
      s'.ring = s.ring ∧ s'.Puts w p (some (msg, .claim)) done ∧
        ∀ c g taken, s.Gets c g taken → s'.Gets c g taken := by
  have hnone : s.put p = none := h.put
  refine ⟨{ s with put := Function.update s.put p (some (msg, .claim)) }, ?_, rfl, ?_, ?_⟩
  · refine Machine.ReachesBy.single (e := .put p msg) trivial ?_
    simp [networkMachine, networkStep, hnone]
  · exact ⟨by simp [PutPc.shared], h.done⟩
  · exact fun c g taken hc => ⟨hc.cursor, hc.get, hc.handled⟩

theorem Network.Puts.step [DecidableEq P] [DecidableEq C] {msg : α} {pc : PutPc}
    {b : Cursor C} (h : s.Puts w p (some (msg, pc)) done) (blank : α)
    (hshared : w.policy = .shared) (hb : w.putBarrier = [b])
    {ring : Disruptor α} {pc' : Option PutPc}
    (hs : PutStep w.size (s.value b) msg s.ring pc ring pc') :
    ∃ s', (networkMachine w blank).ReachesBy NetworkEvent.Unlimited s s' ∧ s'.ring = ring ∧
      s'.Puts w p (pc'.map fun pc' => (msg, pc')) (done ++ completed msg pc') ∧
        ∀ c g taken, s.Gets c g taken → s'.Gets c g taken := by
  refine ⟨_, put_simulated hshared hb h.put hs, rfl, ?_, ?_⟩
  · refine ⟨?_, ?_⟩
    · simp [Network.afterPut, Function.comp_def]
    · simp [Network.afterPut, h.done]
  · exact fun c g taken hc => ⟨hc.cursor, hc.get, hc.handled⟩

theorem Network.Gets.step [DecidableEq P] [DecidableEq C] {b : Cursor C}
    (h : s.Gets c g taken) (blank : α) (hb : w.getBarrier c = [b]) {g' : Get} {msg : Option α}
    (hs : GetStep w.size (s.value b) s.ring g g' msg) :
    ∃ s', (networkMachine w blank).ReachesBy NetworkEvent.Unlimited s s' ∧ s'.ring = s.ring ∧
      s'.Gets c g' (taken ++ msg.toList) ∧
        (∀ p putting done, s.Puts w p putting done → s'.Puts w p putting done) ∧
          ∀ c', c' ≠ c → ∀ g taken, s.Gets c' g taken → s'.Gets c' g taken := by
  refine ⟨_, get_simulated hb h.cursor h.get hs, rfl, ?_, ?_, ?_⟩
  · exact ⟨by simp [Network.afterGet], by simp [Network.afterGet], by simp [Network.afterGet, h.handled]⟩
  · exact fun p putting done hp => ⟨hp.put, hp.done⟩
  · intro c' hne g taken hc
    refine ⟨?_, ?_, ?_⟩
    · simpa [Network.afterGet, hne] using hc.cursor
    · simpa [Network.afterGet, hne] using hc.get
    · simpa [Network.afterGet, hne] using hc.handled

theorem Network.Puts.writes {msg : α} {slot : Nat} (h : s.Puts w p (some (msg, .write slot)) done) :
    s.Writes p slot :=
  ⟨msg, h.put⟩

theorem Network.Gets.reads {index last : Nat} (h : s.Gets c g taken)
    (hpc : g.pc = .batch index last) (hne : index ≠ last) : s.Reads c index :=
  ⟨last, by rw [h.get, hpc]; rfl, hne⟩

end Threads

end TradingMarket.L3
