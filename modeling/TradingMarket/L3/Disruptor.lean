import Mathlib.Logic.Function.Basic

/-! # The L3 ring

The vendored `L3::Disruptor` with its `Put` and the claim of its `Get`, one
atomic access at a time. All of a disruptor's cursors are static and start at
the size of the ring. `Put() = msg` claims a slot, waits for the barrier, writes
the slot, and commits in slot order (`CommitPolicy::Shared`). A step that finds
its spin condition true leaves everything as it is. -/
namespace TradingMarket.L3

variable {α : Type}

/-- The slots, the cursor of the committed slots and the cursor of `Put`. -/
structure Disruptor (α : Type) where
  ring : Nat → α
  cursor : Nat
  putCursor : Nat

/-- A new ring: default-constructed slots, as if one lap had been done. -/
def Disruptor.new (size : Nat) (blank : α) : Disruptor α := ⟨fun _ => blank, size, size⟩

def Disruptor.read (size : Nat) (d : Disruptor α) (index : Nat) : α := d.ring (index % size)

def Disruptor.write (size : Nat) (d : Disruptor α) (index : Nat) (msg : α) : Disruptor α :=
  { d with ring := Function.update d.ring (index % size) msg }

/-- Where a `Put` is: before its claim, or with its slot before the wait for the
barrier is over, before the write, before the commit. -/
inductive PutPc where
  | claim
  | waitBarrier (slot : Nat)
  | write (slot : Nat)
  | commit (slot : Nat)
deriving DecidableEq, Repr

/-- One step of `Put() = msg`, with `barrier` for `Barrier::least()`. No position
is left when the destructor has committed the slot: the load that ends its spin and
the `fetch_add` are one step, as no other thread waits for that value of the cursor. -/
def Disruptor.putStep (size barrier : Nat) (msg : α) (d : Disruptor α) :
    PutPc → Disruptor α × Option PutPc
  | .claim => ({ d with putCursor := d.putCursor + 1 }, some (.waitBarrier d.putCursor))
  | .waitBarrier slot =>
    if barrier ≤ slot - size then (d, some (.waitBarrier slot)) else (d, some (.write slot))
  | .write slot => (d.write size slot msg, some (.commit slot))
  | .commit slot =>
    if d.cursor < slot then (d, some (.commit slot))
    else ({ d with cursor := d.cursor + 1 }, none)

/-- `Get::claim`: the end of the batch, unless the barrier has not passed its begin. -/
def claimBatch (barrier first : Nat) : Option Nat := if barrier ≤ first then none else some barrier

theorem read_write (size : Nat) (d : Disruptor α) (index : Nat) (msg : α) :
    (d.write size index msg).read size index = msg :=
  Function.update_self _ _ _

variable {size barrier : Nat} {msg : α} {d : Disruptor α}

/-- The ways a `Put` moves. -/
inductive PutStep (size barrier : Nat) (msg : α) (d : Disruptor α) :
    PutPc → Disruptor α → Option PutPc → Prop
  | claim : PutStep size barrier msg d .claim { d with putCursor := d.putCursor + 1 }
      (some (.waitBarrier d.putCursor))
  | full {slot : Nat} : barrier ≤ slot - size →
      PutStep size barrier msg d (.waitBarrier slot) d (some (.waitBarrier slot))
  | room {slot : Nat} : slot - size < barrier →
      PutStep size barrier msg d (.waitBarrier slot) d (some (.write slot))
  | write {slot : Nat} :
      PutStep size barrier msg d (.write slot) (d.write size slot msg) (some (.commit slot))
  | waitTurn {slot : Nat} : d.cursor < slot →
      PutStep size barrier msg d (.commit slot) d (some (.commit slot))
  | commit {slot : Nat} : slot ≤ d.cursor →
      PutStep size barrier msg d (.commit slot) { d with cursor := d.cursor + 1 } none

theorem putStep_cases {d' : Disruptor α} {put : PutPc} {put' : Option PutPc}
    (h : d.putStep size barrier msg put = (d', put')) : PutStep size barrier msg d put d' put' := by
  cases put with
  | claim => cases h; exact .claim
  | write slot => cases h; exact .write
  | waitBarrier slot =>
    simp only [Disruptor.putStep] at h
    split at h
    · rename_i hfull
      cases h
      exact .full hfull
    · rename_i hroom
      cases h
      exact .room (Nat.lt_of_not_le hroom)
  | commit slot =>
    simp only [Disruptor.putStep] at h
    split at h
    · rename_i hturn
      cases h
      exact .waitTurn hturn
    · rename_i hturn
      cases h
      exact .commit (Nat.le_of_not_lt hturn)

theorem putStep_room {slot : Nat} (h : slot - size < barrier) :
    d.putStep size barrier msg (.waitBarrier slot) = (d, some (.write slot)) :=
  if_neg (Nat.not_le_of_lt h)

theorem putStep_commit {slot : Nat} (h : slot ≤ d.cursor) :
    d.putStep size barrier msg (.commit slot) = ({ d with cursor := d.cursor + 1 }, none) :=
  if_neg (Nat.not_lt_of_le h)

end TradingMarket.L3
