import Mathlib.Order.WellFounded
import TradingMarket.L3.NetworkSafety

/-! # A ring does not deadlock

Threads of a ring wait for each other in circles: the consumers for the
producers, `Put` for the consumers, and a thread that has written its slot for
the threads with earlier slots. As long as no consumer waits for itself, over
others, all of them wait at once only when nothing is left to do
(`blocked_only_when_done`). -/
namespace TradingMarket.L3

open Lib (Machine)

variable {α P C : Type} {w : Wiring P C} [DecidableEq P] {s : Network α P C}

/-- The thread is in a `Put` and waits, for the barrier or for its turn to commit. -/
def Network.PutBlocked (w : Wiring P C) (s : Network α P C) (p : P) : Prop :=
  match s.put p with
  | some (_, .waitBarrier slot _) => ¬ Room w s.value slot
  | some (_, .commit slot) => w.policy = .shared ∧ s.ring.cursor < slot
  | _ => False

/-- The consumer is in no batch, and its barrier has not passed its cursor. -/
def Network.GetBlocked (w : Wiring P C) (s : Network α P C) (c : C) : Prop :=
  (∀ index last, s.get c ≠ .batch index last) ∧ ∃ b ∈ w.getBarrier c, s.value b ≤ s.cursor c

/-- Nothing is left to do: no `Put` is under way, and every consumer has handled all
messages; one that `Put` waits for has handled them as they were put. -/
structure Network.Done (w : Wiring P C) (s : Network α P C) : Prop where
  put : ∀ p, s.put p = none
  committed : s.committed w = s.claims
  counted : ∀ c, (s.handled c).length = s.claims.length
  handled : ∀ c, w.Guarded c → s.handled c = s.claims.map Prod.snd

/-- Blocked consumers have handled everything. -/
theorem cursor_of_blocked (hok : s.Ok w)
    (hacyclic : WellFounded fun b c => Cursor.get b ∈ w.getBarrier c)
    (hget : ∀ c, s.GetBlocked w c) (c : C) : s.cursor c = s.ring.cursor := by
  induction c using hacyclic.induction with
  | _ c ih =>
    obtain ⟨-, b, hb, hle⟩ := hget c
    refine le_antisymm (hok.value_le (.get c)) ?_
    cases b with
    | ring => exact hle
    | get a => exact (ih a hb).symm.trans_le hle

/-- The first claim that is not committed is for the slot of the thread it is of. -/
theorem Claimed.first {ring : Disruptor α} {claims : List (P × α)} {p : P} {msg msg' : α}
    {slot : Nat} (h : Claimed w ring claims p msg slot) (hlap : w.size ≤ ring.cursor)
    (hfirst : claims[ring.cursor - w.size]? = some (p, msg')) : slot = ring.cursor := by
  have honly := h.only
  rw [pending_commit hfirst hlap, if_pos rfl, List.singleton_append] at honly
  have hnone := List.tail_eq_of_cons_eq honly
  refine le_antisymm (Nat.le_of_not_lt fun hlt => ?_) h.uncommitted
  have hmem : (p, msg) ∈ claims.drop (ring.cursor + 1 - w.size) := by
    refine List.mem_of_getElem? (i := slot - w.size - (ring.cursor + 1 - w.size)) ?_
    rw [List.getElem?_drop, Nat.add_sub_cancel' (by omega)]
    exact h.number
  have hpending : (p, msg) ∈ pending w { ring with cursor := ring.cursor + 1 } claims p :=
    List.mem_filter.mpr ⟨hmem, decide_eq_true rfl⟩
  rw [hnone] at hpending
  exact List.not_mem_nil hpending

/-- The slot a `Put` has claimed. -/
def SharedPutPc.slot : SharedPutPc C → Option Nat
  | .claim => none
  | .waitBarrier slot _ | .write slot | .commit slot => some slot

theorem PutOk.claimed {ring : Disruptor α} {value : Cursor C → Nat} {claims : List (P × α)} {p : P}
    {msg : α} {pc : SharedPutPc C} {slot : Nat} (h : PutOk w ring value claims p (some (msg, pc)))
    (hslot : pc.slot = some slot) : Claimed w ring claims p msg slot := by
  cases pc with
  | claim => cases hslot
  | waitBarrier | write | commit =>
    cases hslot
    exact h.1

/-- The thread of the first claim that is not committed has the next slot. -/
theorem Network.Ok.first (hok : s.Ok w) {p : P} {msg : α}
    (hfirst : s.claims[s.ring.cursor - w.size]? = some (p, msg)) :
    ∃ msg' pc, s.put p = some (msg', pc) ∧ pc.slot = some s.ring.cursor := by
  have hp := hok.put p
  have hpending : pending w s.ring s.claims p ≠ [] := by
    rw [pending_commit hfirst hok.lap, if_pos rfl]
    exact List.cons_ne_nil _ _
  cases hput : s.put p with
  | none =>
    rw [hput] at hp
    exact absurd hp hpending
  | some x =>
    obtain ⟨msg', pc⟩ := x
    rw [hput] at hp
    refine ⟨msg', pc, rfl, ?_⟩
    cases hslot : pc.slot with
    | none =>
      cases pc with
      | claim => exact absurd hp hpending
      | waitBarrier | write | commit => cases hslot
    | some slot => rw [(hp.claimed hslot).first hok.lap hfirst]

/-- With nothing left for the consumers, the thread of the first claim that is not
committed is not blocked. -/
theorem all_committed (hok : s.Ok w) (hcursor : ∀ c, s.cursor c = s.ring.cursor)
    (hput : ∀ p, s.put p = none ∨ s.PutBlocked w p) :
    s.claims.length ≤ s.ring.cursor - w.size := by
  by_contra hlt
  obtain ⟨x, hx⟩ : ∃ x, s.claims[s.ring.cursor - w.size]? = some x :=
    ⟨_, List.getElem?_eq_getElem (Nat.lt_of_not_le hlt)⟩
  obtain ⟨p, msg⟩ := x
  obtain ⟨msg', pc, hpc, hslot⟩ := hok.first hx
  rcases hput p with hnone | hblocked
  · rw [hpc] at hnone
    cases hnone
  · unfold Network.PutBlocked at hblocked
    rw [hpc] at hblocked
    cases pc with
    | claim | write => exact hblocked
    | waitBarrier slot barrier =>
      cases hslot
      have hpos := w.size_pos
      have hlap := hok.lap
      refine hblocked fun b _ => ?_
      cases b with
      | ring => exact Nat.sub_lt_self hpos hlap
      | get c => exact (Nat.sub_lt_self hpos hlap).trans_eq (hcursor c).symm
    | commit slot =>
      cases hslot
      exact lt_irrefl _ hblocked.2

/-- In every interleaving, when all threads that are in a `Put` wait and so do all
consumers, nothing is left to do. -/
theorem blocked_only_when_done [DecidableEq C] {blank : α}
    (hacyclic : WellFounded fun b c => Cursor.get b ∈ w.getBarrier c)
    (h : (networkMachine w blank).Reachable s) (hput : ∀ p, s.put p = none ∨ s.PutBlocked w p)
    (hget : ∀ c, s.GetBlocked w c) : s.Done w := by
  have hok := network_ok h
  have hcursor := cursor_of_blocked hok hacyclic hget
  have hall := all_committed hok hcursor hput
  have hcommitted : s.committed w = s.claims := List.take_of_length_le hall
  have hlength : ∀ c, (s.handled c).length = s.claims.length := fun c => by
    have hcount := (hok.get c).count
    have hindex : (s.get c).index (s.value (.get c)) = s.ring.cursor := by
      cases hpc : s.get c with
      | batch index last => exact absurd hpc ((hget c).1 index last)
      | idle | waitBarrier => exact hcursor c
    have hroom := hok.room
    rw [hindex] at hcount
    omega
  refine ⟨fun p => ?_, hcommitted, hlength, fun c hc => ?_⟩
  · refine (hput p).resolve_right fun hblocked => ?_
    have hp := hok.put p
    unfold Network.PutBlocked at hblocked
    split at hblocked
    · rename_i msg slot barrier hwait
      rw [hwait] at hp
      have hlt := (List.getElem?_eq_some_iff.mp hp.1.number).1
      have huncommitted := hp.1.uncommitted
      omega
    · rename_i msg slot hcommit
      rw [hcommit] at hp
      have hlt := (List.getElem?_eq_some_iff.mp hp.1.number).1
      have huncommitted := hp.1.uncommitted
      omega
    · exact hblocked
  · refine (hok.order hc).eq_of_length ?_ |>.trans (congrArg _ hcommitted)
    rw [List.length_map, hcommitted, hlength]

/-- The consumer waits for the next message, and no thread is in a `Put`. -/
def emptied : List (NetworkEvent Nat Bool Unit) := overtaken ++ [.getStep ()]

theorem emptied_done : ∃ s, (networkMachine twoThreads 0).exec (networkMachine twoThreads 0).start
    emptied = some s ∧ s.handled () = [1, 2] ∧ s.Done twoThreads := by
  have hrun : ((networkMachine twoThreads 0).exec (networkMachine twoThreads 0).start emptied).map
      (fun s => (s.handled (), s.put false, s.put true, s.get (), s.cursor (), s.ring.cursor)) =
      some ([1, 2], none, none, .idle, 4, 4) := by
    rfl
  obtain ⟨s, hs, hstate⟩ := Option.map_eq_some_iff.mp hrun
  simp only [Prod.mk.injEq] at hstate
  obtain ⟨hhandled, hfalse, htrue, hget, hcursor, hring⟩ := hstate
  refine ⟨s, hs, hhandled, blocked_only_when_done ⟨fun c => ⟨c, fun b hb => ?_⟩⟩ ⟨emptied, hs⟩
    (fun p => .inl ?_) fun c => ⟨fun index last hpc => ?_, .ring, List.mem_singleton_self _, ?_⟩⟩
  · simp [twoThreads] at hb
  · cases p
    · exact hfalse
    · exact htrue
  · rw [hget] at hpc
    cases hpc
  · rw [hcursor]
    exact hring.le

end TradingMarket.L3
