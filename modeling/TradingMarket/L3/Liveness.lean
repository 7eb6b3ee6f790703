import Mathlib.Data.Prod.Lex
import TradingMarket.L3.Deadlock
import TradingMarket.Lib.LeadsTo

/-! # A ring keeps going

As long as every thread goes on, nothing is left lying in the ring: every `Put`
returns, and every consumer comes to every message claimed, whatever the other
threads do in the meantime and however many there are (`put_arrives`). The slots
are taken one after the other. The thread of the first that is not committed
waits for consumers only, and they have messages to take until they have passed
the slot a lap before. -/
namespace TradingMarket.L3

open Lib (Machine Fair)
open Lib.Machine (FairToParties LeadsTo Lasts)

variable {α P C : Type} {w : Wiring P C}

/-- A `Get` is not for batches of nothing. -/
def NetworkEvent.Takes : NetworkEvent α P C → Prop
  | .get _ kind => kind.maxBatchSize ≠ some 0
  | _ => True

/-- A thread in a `Put` goes on with it, and a consumer gets one batch after the other. -/
def Network.Busy (s : Network α P C) : P ⊕ C → Prop
  | .inl p => s.put p ≠ none
  | .inr _ => True

/-! ## What a step leaves to the others -/

section Frames
variable {s s' : Network α P C} {p q : P} {c a : C}

theorem ProducerStep.others [DecidableEq P] (h : ProducerStep w s p s') (hq : q ≠ p) :
    s'.put q = s.put q ∧ s'.done q = s.done q := by
  cases h with
  | waitTurn => exact ⟨rfl, rfl⟩
  | commit => exact ⟨Function.update_of_ne hq _ _, Function.update_of_ne hq _ _⟩
  | _ => exact ⟨Function.update_of_ne hq _ _, rfl⟩

theorem ProducerStep.consumers [DecidableEq P] (h : ProducerStep w s p s') :
    s'.get = s.get ∧ s'.cursor = s.cursor := by
  cases h <;> exact ⟨rfl, rfl⟩

theorem ConsumerStep.others [DecidableEq C] (h : ConsumerStep w s c s') (ha : a ≠ c) :
    s'.get a = s.get a ∧ s'.cursor a = s.cursor a := by
  cases h with
  | release => exact ⟨Function.update_of_ne ha _ _, Function.update_of_ne ha _ _⟩
  | _ => exact ⟨Function.update_of_ne ha _ _, rfl⟩

theorem ConsumerStep.producers [DecidableEq C] (h : ConsumerStep w s c s') :
    s'.put = s.put ∧ s'.done = s.done ∧ s'.ring = s.ring ∧ s'.claims = s.claims := by
  cases h <;> exact ⟨rfl, rfl, rfl, rfl⟩

/-- Cursors never go back. -/
theorem ProducerStep.value_le [DecidableEq P] (h : ProducerStep w s p s') (b : Cursor C) :
    s.value b ≤ s'.value b := by
  cases b with
  | ring =>
    cases h with
    | commit => exact Nat.le_succ _
    | _ => exact le_rfl
  | get c => exact (congrFun h.consumers.2 c).ge

theorem ConsumerStep.value_le [DecidableEq P] [DecidableEq C] (hok : s.Ok w)
    (h : ConsumerStep w s c s') (b : Cursor C) : s.value b ≤ s'.value b := by
  cases b with
  | ring => exact (congrArg Disruptor.cursor h.producers.2.2.1).ge
  | get a =>
    by_cases ha : a = c
    · subst ha
      cases h with
      | release hget =>
        have hbegun := (hok.get a).begun
        rw [hget] at hbegun
        refine hbegun.trans (le_of_eq ?_)
        exact (Function.update_self a _ s.cursor).symm
      | _ => exact le_rfl
    · exact (h.others ha).2.ge

theorem ProducerStep.claims_prefix [DecidableEq P] (h : ProducerStep w s p s') :
    s.claims <+: s'.claims := by
  cases h with
  | claim => exact List.prefix_append _ _
  | _ => exact List.prefix_rfl

end Frames

section Runs
variable [DecidableEq P] [DecidableEq C] {blank : α} {s s' : Network α P C}
  {schedule : Nat → NetworkEvent α P C}

theorem value_le_of_step {e : NetworkEvent α P C} (hok : s.Ok w)
    (h : (networkMachine w blank).step s e = some s') (b : Cursor C) : s.value b ≤ s'.value b := by
  obtain ⟨p, hp⟩ | ⟨c, hc⟩ := networkStep_cases h
  · exact hp.value_le b
  · exact hc.value_le hok b

theorem value_mono (hs : (networkMachine w blank).Reachable s)
    (h : (networkMachine w blank).Reaches s s') (b : Cursor C) : s.value b ≤ s'.value b := by
  have hall := h.preserves
    (P := fun u => (networkMachine w blank).Reachable u ∧ s.value b ≤ u.value b) ?_ ⟨hs, le_rfl⟩
  · exact hall.2
  · intro u e v hu hstep
    exact ⟨hu.1.reaches (.single hstep), hu.2.trans (value_le_of_step (network_ok hu.1) hstep b)⟩

theorem claims_mono (h : (networkMachine w blank).Reaches s s') : s.claims <+: s'.claims := by
  refine h.preserves (P := fun u => s.claims <+: u.claims) (fun u e v hu hstep => ?_)
    List.prefix_rfl
  obtain ⟨p, hp⟩ | ⟨c, hc⟩ := networkStep_cases hstep
  · exact hu.trans hp.claims_prefix
  · rw [hc.producers.2.2.2]
    exact hu

omit [DecidableEq C] in
/-- A consumer that has passed a slot has handled its message. -/
theorem lt_handled (hok : s.Ok w) {c : C} {j : Nat} (h : w.size + j < s.cursor c) :
    j < (s.handled c).length := by
  have hcount := (hok.get c).count
  have hbegun : s.cursor c ≤ _ := (hok.get c).begun
  omega

/-- A guarded consumer that has handled as many messages has handled the same. -/
theorem handled_prefix (hs : (networkMachine w blank).Reachable s)
    (h : (networkMachine w blank).Reaches s s') {c : C}
    (hle : s.claims.length ≤ (s'.handled c).length) (hc : w.Guarded c) :
    s.claims.map Prod.snd <+: s'.handled c := by
  have hok := network_ok (hs.reaches h)
  refine List.prefix_of_prefix_length_le ((claims_mono h).map Prod.snd) ((hok.get c).order hc) ?_
  rw [List.length_map]
  exact hle

theorem value_lasts (hs : (networkMachine w blank).Reachable s) (b : Cursor C) (x : Nat) :
    (networkMachine w blank).Lasts schedule s fun u => x < u.value b :=
  fun n _ hm hx => hx.trans_le
    (value_mono (Machine.stateAt_reachable hs _ n) (Machine.stateAt_reaches _ _ s hm) b)

theorem claims_lasts (s : Network α P C) (j : Nat) :
    (networkMachine w blank).Lasts schedule s fun u => j < u.claims.length :=
  fun _ _ hm hj => hj.trans_le (claims_mono (Machine.stateAt_reaches _ _ s hm)).length_le

end Runs

/-! ## A consumer gets on -/

/-- One of the cursors loaded had not passed the bound. -/
def Least.stale (bound : Nat) (l : Least C) : Bool := l.least.any (· ≤ bound)

theorem Least.stale_some {bound n : Nat} {rest : List (Cursor C)} :
    (⟨rest, some n⟩ : Least C).stale bound = true ↔ n ≤ bound :=
  decide_eq_true_iff

theorem Least.load_left {value : Cursor C → Nat} {barrier : List (Cursor C)} {bound i : Nat}
    {l l' : Least C} (hrest : l.rest ⊆ barrier) (hvalue : ∀ b ∈ barrier, bound < value b)
    (h : l.load value i = some l') :
    l'.stale bound = l.stale bound ∧ l'.rest.length < l.rest.length := by
  obtain ⟨b, hb, rfl⟩ := Option.map_eq_some_iff.mp h
  obtain ⟨hlt, -⟩ := List.getElem?_eq_some_iff.mp hb
  have hpassed := hvalue b (hrest (List.mem_of_getElem? hb))
  refine ⟨?_, ?_⟩
  · cases hl : l.least with
    | none => simp [Least.stale, hl, hpassed]
    | some n => simp [Least.stale, hl, Nat.not_le.mpr hpassed]
  · rw [List.length_eraseIdx_of_lt hlt]
    omega

/-- How far a consumer is from the end of its next batch that is not empty, if its barrier
has passed its cursor. -/
def ConsumerPc.left (cursor : Nat) : ConsumerPc C → ℕ ×ₗ ℕ
  | .batch index last => if cursor < last then toLex (0, last - index) else toLex (3, 0)
  | .waitBarrier kind barrier =>
    if barrier.stale cursor then toLex (5, barrier.rest.length)
    -- a batch of nothing is to come
    else if kind.maxBatchSize = some 0 then toLex (4, barrier.rest.length)
    else toLex (1, barrier.rest.length)
  | .idle => toLex (2, 0)

theorem left_lt {i j m n : ℕ} (h : i < j ∨ i = j ∧ m < n) : toLex (i, m) < toLex (j, n) :=
  Prod.Lex.toLex_lt_toLex.mpr h

theorem ConsumerPc.left_wait (cursor : Nat) (kind : GetKind) (barrier : List (Cursor C)) :
    (ConsumerPc.waitBarrier kind ⟨barrier, none⟩).left cursor =
      if kind.maxBatchSize = some 0 then toLex (4, barrier.length) else toLex (1, barrier.length) :=
  rfl

theorem batchEnd_eq_none {kind : GetKind} {first least : Nat}
    (h : kind.batchEnd first least = none) : least ≤ first := by
  unfold GetKind.batchEnd at h
  split at h
  · rename_i hwait
    exact hwait.2
  · cases h

theorem lt_batchEnd {kind : GetKind} {first least last : Nat} (hlt : first < least)
    (hkind : kind.maxBatchSize ≠ some 0) (h : kind.batchEnd first least = some last) :
    first < last := by
  unfold GetKind.batchEnd at h
  split at h
  · cases h
  · cases h
    cases hmax : kind.maxBatchSize with
    | none => exact hlt
    | some n =>
      have hpos : n ≠ 0 := fun hn => hkind (hn ▸ hmax)
      exact lt_min hlt (by omega)

section Consumers
variable [DecidableEq P] [DecidableEq C] {blank : α} {s s' : Network α P C} {c : C}

/-- A consumer that has something to take gets on. -/
theorem ConsumerStep.left (hok : s.Ok w) (h : ConsumerStep w s c s')
    (hbarrier : ∀ b ∈ w.getBarrier c, s.cursor c < s.value b)
    (hkind : ∀ kind barrier, s.get c = .idle → s'.get c = .waitBarrier kind barrier →
      kind.maxBatchSize ≠ some 0) :
    s.cursor c < s'.cursor c ∨
      s'.cursor c = s.cursor c ∧ (s'.get c).left (s'.cursor c) < (s.get c).left (s.cursor c) := by
  have hc := hok.get c
  cases h with
  | @construct kind hget =>
    have hne := hkind kind _ hget (Function.update_self _ _ _)
    refine .inr ⟨rfl, ?_⟩
    simp only [Function.update_self, hget, ConsumerPc.left_wait, if_neg hne]
    exact left_lt (.inl (by decide))
  | @load kind barrier barrier' i hget hload =>
    have hrest := (hc.loads kind barrier hget).rest
    obtain ⟨hstale, hless⟩ := Least.load_left hrest hbarrier hload
    refine .inr ⟨rfl, ?_⟩
    simp only [Function.update_self, hget, ConsumerPc.left, hstale]
    split
    · exact left_lt (.inr ⟨rfl, hless⟩)
    · split <;> exact left_lt (.inr ⟨rfl, hless⟩)
  | @again kind least hget hnone =>
    have hstale : (⟨[], some least⟩ : Least C).stale (s.cursor c) = true :=
      Least.stale_some.mpr (batchEnd_eq_none hnone)
    refine .inr ⟨rfl, ?_⟩
    simp only [Function.update_self, hget, ConsumerPc.left_wait]
    simp only [ConsumerPc.left, hstale, if_true]
    split <;> exact left_lt (.inl (by decide))
  | @take kind least last hget hlast =>
    refine .inr ⟨rfl, ?_⟩
    simp only [Function.update_self, hget, ConsumerPc.left, Least.stale_some]
    by_cases hstale : least ≤ s.cursor c
    · simp only [if_pos hstale]
      split <;> exact left_lt (.inl (by decide))
    · simp only [if_neg hstale]
      by_cases hzero : kind.maxBatchSize = some 0
      · simp only [if_pos hzero]
        split <;> exact left_lt (.inl (by decide))
      · simp only [if_neg hzero, if_pos (lt_batchEnd (Nat.lt_of_not_le hstale) hzero hlast)]
        exact left_lt (.inl (by decide))
  | @release last hget =>
    rw [hget] at hc
    have hbegun : s.cursor c ≤ last := hc.begun
    simp only [Function.update_self, hget, ConsumerPc.left]
    rcases hbegun.lt_or_eq with hlt | rfl
    · exact .inl hlt
    · rw [if_neg (lt_irrefl _)]
      exact .inr ⟨rfl, left_lt (.inl (by decide))⟩
  | @handle index last hget hne =>
    rw [hget] at hc
    have hbegun : s.cursor c ≤ index := hc.begun
    have hwithin : index ≤ last := hc.within
    refine .inr ⟨rfl, ?_⟩
    simp only [Function.update_self, hget, ConsumerPc.left]
    rw [if_pos (by omega), if_pos (by omega)]
    exact left_lt (.inr ⟨rfl, by omega⟩)

/-- A consumer that is idle comes to a `Get` that takes something. -/
theorem takes_of_idle {e : NetworkEvent α P C} {kind : GetKind} {barrier : Least C} (he : e.Takes)
    (hthread : e.thread = .inr c) (h : (networkMachine w blank).step s e = some s')
    (hidle : s.get c = .idle) (hget : s'.get c = .waitBarrier kind barrier) :
    kind.maxBatchSize ≠ some 0 := by
  change networkStep w s e = some s' at h
  cases e with
  | put | putLoad | putStep => cases hthread
  | get _ kind' =>
    cases hthread
    simp only [networkStep, hidle] at h
    cases h
    simp only [Function.update_self] at hget
    cases hget
    exact he
  | getLoad =>
    cases hthread
    simp only [networkStep, hidle] at h
    cases h
  | getStep =>
    cases hthread
    simp only [networkStep, Network.getStep, hidle] at h
    cases h

end Consumers

/-! ## A `Put` gets on -/

section Producers
variable [DecidableEq P] {s s' : Network α P C} {p : P}

/-- How far a `Put` that has room is from the commit. -/
def SharedPutPc.left (size : Nat) : SharedPutPc C → ℕ ×ₗ ℕ
  | .claim => toLex (4, 0)
  | .waitBarrier slot barrier =>
    if barrier.stale (slot - size) then toLex (3, barrier.rest.length)
    else toLex (2, barrier.rest.length)
  | .write _ => toLex (1, 0)
  | .commit _ => toLex (0, 0)

def Network.putLeft (w : Wiring P C) (s : Network α P C) (p : P) : ℕ ×ₗ ℕ :=
  (s.put p).elim (toLex (4, 0)) fun x => x.2.left w.size

/-- With room for the next slot, its thread gets on. -/
theorem ProducerStep.left (hok : s.Ok w) (h : ProducerStep w s p s') {msg : α}
    (hfirst : s.claims[s.ring.cursor - w.size]? = some (p, msg))
    (hroom : Room w s.value s.ring.cursor) :
    s.ring.cursor < s'.ring.cursor ∨ s'.putLeft w p < s.putLeft w p := by
  have hok' := hok.put p
  obtain ⟨msg', pc, hpc, hslot⟩ := hok.first hfirst
  unfold Network.putLeft
  cases h with
  | call hput =>
    rw [hput] at hpc
    cases hpc
  | claim hput =>
    rw [hput] at hpc
    cases hpc
    cases hslot
  | load hput hload =>
    rw [hput] at hpc hok'
    cases hpc
    cases hslot
    obtain ⟨hstale, hless⟩ := Least.load_left hok'.2.rest hroom hload
    right
    simp only [Function.update_self, hput, Option.elim_some, SharedPutPc.left, hstale]
    split <;> exact left_lt (.inr ⟨rfl, hless⟩)
  | full hput hfull =>
    right
    simp only [Function.update_self, hput, Option.elim_some, SharedPutPc.left, Least.stale_some,
      if_pos hfull]
    exact left_lt (.inl (by decide))
  | room hput hlt =>
    right
    simp only [Function.update_self, hput, Option.elim_some, SharedPutPc.left]
    split <;> exact left_lt (.inl (by decide))
  | waitTurn hput _ hlt =>
    rw [hput] at hpc
    cases hpc
    cases hslot
    exact absurd hlt (lt_irrefl _)
  | write hput =>
    right
    simp only [Function.update_self, hput, Option.elim_some, SharedPutPc.left]
    exact left_lt (.inl (by decide))
  | commit hput => exact .inl (Nat.lt_succ_self _)

/-- A step of a thread in a `Put` ends it or leaves it its slot. -/
theorem ProducerStep.own (h : ProducerStep w s p s') {msg : α} {pc : SharedPutPc C}
    (hput : s.put p = some (msg, pc)) :
    (pc.slot ≠ none ∧ s'.put p = none ∧ s'.done p = s.done p ++ [msg]) ∨
      (∃ pc', s'.put p = some (msg, pc') ∧ pc'.slot ≠ none ∧
        (pc.slot ≠ none → pc'.slot = pc.slot)) ∧ s'.done p = s.done p := by
  cases h with
  | call hcall =>
    rw [hcall] at hput
    cases hput
  | claim hcall =>
    rw [hcall] at hput
    cases hput
    exact .inr ⟨⟨_, Function.update_self _ _ _, Option.some_ne_none _, fun h => absurd rfl h⟩, rfl⟩
  | waitTurn hcall =>
    rw [hcall] at hput
    cases hput
    exact .inr ⟨⟨_, hcall, Option.some_ne_none _, fun _ => rfl⟩, rfl⟩
  | commit hcall =>
    rw [hcall] at hput
    cases hput
    exact .inl ⟨Option.some_ne_none _, Function.update_self _ _ _, Function.update_self _ _ _⟩
  | load hcall | full hcall | room hcall | write hcall =>
    rw [hcall] at hput
    cases hput
    exact .inr ⟨⟨_, Function.update_self _ _ _, Option.some_ne_none _, fun _ => rfl⟩, rfl⟩

/-- The thread is in a `Put` of the message for the slot, and has put `done` before. -/
def Network.PutsAt (s : Network α P C) (p : P) (msg : α) (slot : Nat) (done : List α) : Prop :=
  (∃ pc, s.put p = some (msg, pc) ∧ pc.slot = some slot) ∧ s.done p = done

theorem Network.PutsAt.claimed {msg : α} {slot : Nat} {done : List α} (h : s.PutsAt p msg slot done)
    (hok : s.Ok w) : Claimed w s.ring s.claims p msg slot := by
  obtain ⟨⟨pc, hput, hslot⟩, -⟩ := h
  have hp := hok.put p
  rw [hput] at hp
  exact hp.claimed hslot

theorem Network.PutsAt.step {msg : α} {slot : Nat} {done : List α} [DecidableEq C] {blank : α}
    {e : NetworkEvent α P C} (h : s.PutsAt p msg slot done)
    (hstep : (networkMachine w blank).step s e = some s') :
    (s'.put p = none ∧ s'.done p = done ++ [msg]) ∨ s'.PutsAt p msg slot done := by
  obtain ⟨⟨pc, hput, hslot⟩, hdone⟩ := h
  obtain ⟨q, -, hq⟩ | ⟨a, -, hget⟩ := thread_cases hstep
  · by_cases hpq : p = q
    · subst hpq
      rcases hq.own hput with ⟨-, hnone, hput'⟩ | ⟨⟨pc', hput', -, hslot'⟩, hsame⟩
      · exact .inl ⟨hnone, by rw [hput', hdone]⟩
      · have hclaimed : pc.slot ≠ none := by
          rw [hslot]
          exact Option.some_ne_none _
        exact .inr ⟨⟨pc', hput', (hslot' hclaimed).trans hslot⟩, hsame.trans hdone⟩
    · obtain ⟨hsame, hsame'⟩ := hq.others hpq
      exact .inr ⟨⟨pc, hsame.trans hput, hslot⟩, hsame'.trans hdone⟩
  · obtain ⟨hsame, hsame', -, -⟩ := hget.producers
    exact .inr ⟨⟨pc, by rw [hsame, hput], hslot⟩, by rw [hsame', hdone]⟩

end Producers

/-! ## Threads that are scheduled in turn -/

section Turns
variable [DecidableEq P] [DecidableEq C] {blank : α} {s s' : Network α P C} {p : P}
  {schedule : Nat → NetworkEvent α P C}

/-- Whether an event can happen depends on nothing but where its thread is. -/
theorem happens_congr {e : NetworkEvent α P C} (hput : ∀ p, e.thread = .inl p → s'.put p = s.put p)
    (hget : ∀ c, e.thread = .inr c → s'.get c = s.get c)
    (h : (networkMachine w blank).step s e ≠ none) : (networkMachine w blank).step s' e ≠ none := by
  change networkStep w s e ≠ none at h
  change networkStep w s' e ≠ none
  cases e with
  | put p msg =>
    simp only [networkStep, hput p rfl] at h ⊢
    split at h <;> simp_all
  | putLoad p i =>
    simp only [networkStep, hput p rfl] at h ⊢
    split at h <;> simp_all [Least.load]
  | putStep p =>
    simp only [networkStep, Network.putStep, hput p rfl] at h ⊢
    cases hpc : s.put p with
    | none => simp [hpc] at h
    | some x =>
      obtain ⟨msg, pc⟩ := x
      cases pc with
      | claim | write => simp
      | waitBarrier slot barrier =>
        obtain ⟨rest, least⟩ := barrier
        cases rest <;> cases least <;> simp [hpc] at h ⊢
      | commit slot =>
        simp only
        split <;> exact Option.some_ne_none _
  | get c kind =>
    simp only [networkStep, hget c rfl] at h ⊢
    split at h <;> simp_all
  | getLoad c i =>
    simp only [networkStep, hget c rfl] at h ⊢
    split at h <;> simp_all [Least.load]
  | getStep c =>
    simp only [networkStep, Network.getStep, hget c rfl] at h ⊢
    cases hpc : s.get c with
    | idle => simp [hpc] at h
    | waitBarrier kind barrier =>
      obtain ⟨rest, least⟩ := barrier
      cases rest <;> cases least <;> simp [hpc] at h ⊢
    | batch index last =>
      simp only
      split <;> exact Option.some_ne_none _

omit [DecidableEq C] in
/-- A barrier whose cursors have all been loaded has a least. -/
theorem Least.Loads.cases {value : Cursor C → Nat} {barrier : List (Cursor C)} {lo hi : Nat}
    {l : Least C} (h : l.Loads value barrier lo hi) (hne : barrier ≠ []) :
    (∃ b rest least, l = ⟨b :: rest, least⟩) ∨ ∃ n, l = ⟨[], some n⟩ := by
  obtain ⟨rest, least⟩ := l
  cases rest with
  | cons b rest => exact .inl ⟨b, rest, least, rfl⟩
  | nil =>
    obtain ⟨b, hb⟩ := List.exists_mem_of_ne_nil _ hne
    rcases h.below b hb with hrest | ⟨n, hn, -⟩
    · cases hrest
    · exact .inr ⟨n, by rw [show least = some n from hn]⟩

theorem put_happens (hok : s.Ok w) (hbusy : s.put p ≠ none) :
    (networkMachine w blank).step s (.putLoad p 0) ≠ none ∨
      (networkMachine w blank).step s (.putStep p) ≠ none := by
  have hp := hok.put p
  obtain ⟨⟨msg, pc⟩, hpc⟩ := Option.ne_none_iff_exists'.mp hbusy
  rw [hpc] at hp
  cases pc with
  | claim | write => exact .inr (by simp [networkMachine, networkStep, Network.putStep, hpc])
  | waitBarrier slot barrier =>
    rcases hp.2.cases w.putBarrier_ne_nil with ⟨b, rest, least, rfl⟩ | ⟨n, rfl⟩
    · exact .inl (by simp [networkMachine, networkStep, Least.load, hpc])
    · exact .inr (by simp [networkMachine, networkStep, Network.putStep, hpc])
  | commit slot =>
    right
    simp only [networkMachine, networkStep, Network.putStep, hpc]
    split <;> exact Option.some_ne_none _

theorem get_happens (hok : s.Ok w) (c : C) (kind : GetKind) :
    (networkMachine w blank).step s (.get c kind) ≠ none ∨
      (networkMachine w blank).step s (.getLoad c 0) ≠ none ∨
      (networkMachine w blank).step s (.getStep c) ≠ none := by
  cases hpc : s.get c with
  | idle => exact .inl (by simp [networkMachine, networkStep, hpc])
  | waitBarrier kind' barrier =>
    right
    rcases ((hok.get c).loads kind' barrier hpc).cases (w.getBarrier_ne_nil c) with
      ⟨b, rest, least, rfl⟩ | ⟨n, rfl⟩
    · exact .inl (by simp [networkMachine, networkStep, Least.load, hpc])
    · exact .inr (by simp [networkMachine, networkStep, Network.getStep, hpc])
  | batch index last =>
    refine .inr (.inr ?_)
    simp only [networkMachine, networkStep, Network.getStep, hpc]
    split <;> exact Option.some_ne_none _

/-- A schedule keeps all threads going if it comes back to the steps of each of them. -/
theorem threads_go_on {fair : NetworkEvent α P C → Prop} (hfair : Fair fair schedule)
    (hs : (networkMachine w blank).Reachable s) (htakes : ∀ e, fair e → e.Takes)
    (hput : ∀ p, fair (.putLoad p 0) ∧ fair (.putStep p))
    (hget : ∀ c, (∃ kind, fair (.get c kind)) ∧ fair (.getLoad c 0) ∧ fair (.getStep c)) :
    (networkMachine w blank).FairToParties NetworkEvent.Takes NetworkEvent.thread Network.Busy
      schedule s := by
  refine Machine.fairToParties_of_fair hfair hs htakes (fun u thread hu hbusy => ?_)
    fun u e f v hu hcan hstep hne => ?_
  · have hok := network_ok hu
    cases thread with
    | inl p =>
      rcases put_happens hok hbusy with hload | hstep
      · exact ⟨_, (hput p).1, rfl, hload⟩
      · exact ⟨_, (hput p).2, rfl, hstep⟩
    | inr c =>
      obtain ⟨⟨kind, hkind⟩, hload, hstep⟩ := hget c
      rcases get_happens hok c kind with hcan | hcan | hcan
      · exact ⟨_, hkind, rfl, hcan⟩
      · exact ⟨_, hload, rfl, hcan⟩
      · exact ⟨_, hstep, rfl, hcan⟩
  · refine happens_congr (fun p hp => ?_) (fun c hc => ?_) hcan
    · obtain ⟨q, hq, hqs⟩ | ⟨a, -, has⟩ := thread_cases hstep
      · refine (hqs.others fun heq => hne ?_).1
        rw [hq, hp, heq]
      · rw [has.producers.1]
    · obtain ⟨q, -, hqs⟩ | ⟨a, ha, has⟩ := thread_cases hstep
      · rw [hqs.consumers.1]
      · refine (has.others fun heq => hne ?_).1
        rw [ha, hc, heq]

end Turns

/-! ## Every `Put` returns, and what it has put arrives -/

section Schedules
variable [DecidableEq P] [DecidableEq C] {blank : α} {s : Network α P C}
  {schedule : Nat → NetworkEvent α P C} (hs : (networkMachine w blank).Reachable s)
  (hfair : (networkMachine w blank).FairToParties NetworkEvent.Takes NetworkEvent.thread
    Network.Busy schedule s)
  (hacyclic : WellFounded fun b c => Cursor.get b ∈ w.getBarrier c)

include hs hfair

/-- A consumer passes what the cursors of its barrier have passed. -/
theorem consumer_passes (c : C) (x : Nat) :
    (networkMachine w blank).LeadsTo schedule s (fun u => ∀ b ∈ w.getBarrier c, x < u.value b)
      fun u => x < u.cursor c := by
  -- what is left: the slots it has not passed, then its way to the end of the next batch
  have hbehind := hfair.leadsTo hs (.inr c)
    (P := fun u => u.cursor c ≤ x ∧ ∀ b ∈ w.getBarrier c, x < u.value b)
    (Q := fun u => x < u.cursor c)
    (fun u => toLex (x + 1 - u.cursor c, (u.get c).left (u.cursor c))) (fun _ _ _ => trivial) ?_
  · intro n hn
    by_cases hpassed : x < ((networkMachine w blank).stateAt schedule s n).cursor c
    · exact ⟨n, le_rfl, hpassed⟩
    · exact hbehind n ⟨Nat.le_of_not_lt hpassed, hn⟩
  · intro u e v hu hP he hstep
    obtain ⟨hle, hbarrier⟩ := hP
    have hok := network_ok hu
    by_cases hpassed : x < v.cursor c
    · exact .inl hpassed
    refine .inr ⟨⟨Nat.le_of_not_lt hpassed,
      fun b hb => (hbarrier b hb).trans_le (value_le_of_step hok hstep b)⟩, ?_⟩
    obtain ⟨p, hp, hput⟩ | ⟨a, ha, hget⟩ := thread_cases hstep
    · obtain ⟨hsame, hcursor⟩ := hput.consumers
      rw [hsame, hcursor, hp]
      exact ⟨le_rfl, fun heq => by cases heq⟩
    · by_cases hac : c = a
      · subst hac
        have hless : toLex (x + 1 - v.cursor c, (v.get c).left (v.cursor c)) <
            toLex (x + 1 - u.cursor c, (u.get c).left (u.cursor c)) := by
          refine Prod.Lex.toLex_lt_toLex.mpr ?_
          rcases hget.left hok (fun b hb => hle.trans_lt (hbarrier b hb))
            (fun kind barrier => takes_of_idle he ha hstep) with hlt | ⟨hsame, hless⟩
          · left
            simp only
            omega
          · exact .inr ⟨by rw [hsame], hless⟩
        exact ⟨hless.le, fun _ => hless⟩
      · obtain ⟨hsame, hcursor⟩ := hget.others hac
        rw [hsame, hcursor, ha]
        exact ⟨le_rfl, fun heq => absurd (Sum.inr.inj heq).symm hac⟩

/-- With room for it, the first slot that is not committed is. -/
theorem first_commits (p : P) (msg : α) (j : Nat) :
    (networkMachine w blank).LeadsTo schedule s
      (fun u => u.claims[j]? = some (p, msg) ∧ u.ring.cursor = w.size + j ∧
        ∀ b ∈ w.putBarrier, j < u.value b)
      fun u => w.size + j < u.ring.cursor := by
  refine hfair.leadsTo hs (.inl p) (fun u => u.putLeft w p) ?_ ?_
  · rintro u hu ⟨hclaim, hcursor, -⟩
    have hfirst : u.claims[u.ring.cursor - w.size]? = some (p, msg) := by
      rw [hcursor, Nat.add_sub_cancel_left]
      exact hclaim
    obtain ⟨msg', pc, hput, -⟩ := (network_ok hu).first hfirst
    exact fun hnone => by rw [hput] at hnone; cases hnone
  · rintro u e v hu ⟨hclaim, hcursor, hroom⟩ he hstep
    have hok := network_ok hu
    by_cases hpassed : w.size + j < v.ring.cursor
    · exact .inl hpassed
    have hcursor' : v.ring.cursor = w.size + j :=
      le_antisymm (Nat.le_of_not_lt hpassed) (hcursor.ge.trans (value_le_of_step hok hstep .ring))
    have hclaim' : v.claims[j]? = some (p, msg) := by
      obtain ⟨l, hl⟩ := claims_mono (Machine.Reaches.single hstep)
      rw [← hl, List.getElem?_append_left (List.getElem?_eq_some_iff.mp hclaim).1]
      exact hclaim
    refine .inr ⟨⟨hclaim', hcursor',
      fun b hb => (hroom b hb).trans_le (value_le_of_step hok hstep b)⟩, ?_⟩
    have hslot : u.ring.cursor - w.size = j := by rw [hcursor, Nat.add_sub_cancel_left]
    obtain ⟨q, hq, hput⟩ | ⟨a, ha, hget⟩ := thread_cases hstep
    · by_cases hqp : p = q
      · subst hqp
        have hless : v.putLeft w p < u.putLeft w p := by
          rw [← hslot] at hclaim hroom
          refine (hput.left hok hclaim hroom).resolve_left ?_
          rw [hcursor, hcursor']
          exact lt_irrefl _
        exact ⟨hless.le, fun _ => hless⟩
      · unfold Network.putLeft
        rw [(hput.others hqp).1, hq]
        exact ⟨le_rfl, fun heq => absurd (Sum.inl.inj heq).symm hqp⟩
    · unfold Network.putLeft
      rw [hget.producers.1, ha]
      exact ⟨le_rfl, fun heq => by cases heq⟩

/-- A thread in a `Put` claims a slot. -/
theorem put_claims (p : P) (msg : α) (done : List α) :
    (networkMachine w blank).LeadsTo schedule s
      (fun u => u.put p = some (msg, .claim) ∧ u.done p = done)
      fun u => ∃ slot, u.PutsAt p msg slot done := by
  refine hfair.leadsTo hs (.inl p) (fun _ => 0) ?_ ?_
  · rintro u hu ⟨hput, -⟩ hnone
    rw [hput] at hnone
    cases hnone
  · rintro u e v hu ⟨hput, hdone⟩ he hstep
    obtain ⟨q, hq, hqs⟩ | ⟨a, ha, hget⟩ := thread_cases hstep
    · by_cases hpq : p = q
      · subst hpq
        rcases hqs.own hput with ⟨hslot, -⟩ | ⟨⟨pc, hpc, hslot, -⟩, hsame⟩
        · exact absurd rfl hslot
        · obtain ⟨slot, hslot⟩ := Option.ne_none_iff_exists'.mp hslot
          exact .inl ⟨slot, ⟨pc, hpc, hslot⟩, hsame.trans hdone⟩
      · obtain ⟨hsame, hsame'⟩ := hqs.others hpq
        exact .inr ⟨⟨hsame.trans hput, hsame'.trans hdone⟩, le_rfl,
          fun heq => absurd (Sum.inl.inj (hq.symm.trans heq)).symm hpq⟩
    · obtain ⟨hsame, hsame', -, -⟩ := hget.producers
      refine .inr ⟨⟨by rw [hsame, hput], by rw [hsame', hdone]⟩, le_rfl, fun heq => ?_⟩
      cases ha.symm.trans heq

include hacyclic

/-- Every consumer passes what the ring has passed. -/
theorem consumers_pass (b : Cursor C) (x : Nat) :
    (networkMachine w blank).LeadsTo schedule s (fun u => x < u.ring.cursor)
      fun u => x < u.value b := by
  cases b with
  | ring => exact .of_imp fun _ hx => hx
  | get c =>
    induction c using hacyclic.induction with
    | _ c ih =>
      refine LeadsTo.trans (LeadsTo.all (fun b hb => ?_) fun b _ => value_lasts hs b x)
        (consumer_passes hs hfair c x)
      cases b with
      | ring => exact .of_imp fun _ hx => hx
      | get a => exact ih a hb

/-- The claim of the next slot is committed. -/
theorem next_commits (j : Nat) :
    (networkMachine w blank).LeadsTo schedule s
      (fun u => j < u.claims.length ∧ w.size + j ≤ u.ring.cursor)
      fun u => w.size + j < u.ring.cursor := by
  rintro n ⟨hj, hcursor⟩
  have hpassed : j < ((networkMachine w blank).stateAt schedule s n).ring.cursor :=
    (Nat.lt_add_of_pos_left w.size_pos).trans_le hcursor
  -- the slot a lap before is committed, so the consumers `Put` waits for pass it
  obtain ⟨m, hm, hroom⟩ := LeadsTo.all
    (fun b (_ : b ∈ w.putBarrier) => consumers_pass hs hfair hacyclic b j)
    (fun b _ => value_lasts hs b j) n hpassed
  have hreaches := Machine.stateAt_reaches (networkMachine w blank) schedule s hm
  by_cases hdone : w.size + j < ((networkMachine w blank).stateAt schedule s m).ring.cursor
  · exact ⟨m, hm, hdone⟩
  have hlater := value_mono (Machine.stateAt_reachable hs schedule n) hreaches .ring
  have hsame : ((networkMachine w blank).stateAt schedule s m).ring.cursor = w.size + j :=
    le_antisymm (Nat.le_of_not_lt hdone) (hcursor.trans hlater)
  obtain ⟨k, hk, hcommitted⟩ := first_commits hs hfair _ _ j m
    ⟨List.getElem?_eq_getElem (claims_lasts s j n m hm hj), hsame, hroom⟩
  exact ⟨k, hm.trans hk, hcommitted⟩

/-- Every claim is committed. -/
theorem slot_commits (j : Nat) :
    (networkMachine w blank).LeadsTo schedule s (fun u => j < u.claims.length)
      fun u => w.size + j < u.ring.cursor := by
  induction j with
  | zero =>
    refine LeadsTo.trans (.of_imp fun n hj => ?_) (next_commits hs hfair hacyclic 0)
    exact ⟨hj, (network_ok (Machine.stateAt_reachable hs schedule n)).lap⟩
  | succ j ih =>
    intro n hj
    obtain ⟨m, hm, hcursor⟩ := ih n (Nat.lt_of_succ_lt hj)
    obtain ⟨k, hk, hnext⟩ := next_commits hs hfair hacyclic (j + 1) m
      ⟨claims_lasts s (j + 1) n m hm hj, hcursor⟩
    exact ⟨k, hm.trans hk, hnext⟩

/-- A `Put` that has claimed a slot returns. -/
theorem put_commits (p : P) (msg : α) (slot : Nat) (done : List α) :
    (networkMachine w blank).LeadsTo schedule s (fun u => u.PutsAt p msg slot done)
      fun u => u.put p = none ∧ u.done p = done ++ [msg] := by
  -- the slot is committed, which it is not while the `Put` has it
  refine LeadsTo.unless (R := fun u => slot < u.ring.cursor) (fun n hn => ?_) (fun n hn => ?_)
    fun n hn hpassed => ?_
  · have hclaimed := hn.claimed (network_ok (Machine.stateAt_reachable hs schedule n))
    have hlap := hclaimed.lap
    obtain ⟨hlt, -⟩ := List.getElem?_eq_some_iff.mp hclaimed.number
    obtain ⟨m, hm, hpassed⟩ := slot_commits hs hfair hacyclic (slot - w.size) n hlt
    exact ⟨m, hm, by omega⟩
  · rcases Machine.stateAt_next (networkMachine w blank) schedule s n with heq | hstep
    · rw [heq]
      exact .inr hn
    · exact hn.step hstep
  · have hclaimed := hn.claimed (network_ok (Machine.stateAt_reachable hs schedule n))
    exact absurd hpassed (Nat.not_lt.mpr hclaimed.uncommitted)

/-- A thread that comes to a `Put`, or is in one, returns from it. -/
theorem put_returns (p : P) (msg : α) (done : List α) :
    (networkMachine w blank).LeadsTo schedule s
      (fun u => (∃ pc, u.put p = some (msg, pc)) ∧ u.done p = done)
      fun u => u.put p = none ∧ u.done p = done ++ [msg] := by
  rintro n ⟨⟨pc, hput⟩, hdone⟩
  cases hslot : pc.slot with
  | some slot => exact put_commits hs hfair hacyclic p msg slot done n ⟨⟨pc, hput, hslot⟩, hdone⟩
  | none =>
    cases pc with
    | waitBarrier | write | commit => cases hslot
    | claim =>
      obtain ⟨m, hm, slot, hclaimed⟩ := put_claims hs hfair p msg done n ⟨hput, hdone⟩
      obtain ⟨k, hk, hreturned⟩ := put_commits hs hfair hacyclic p msg slot done m hclaimed
      exact ⟨k, hm.trans hk, hreturned⟩

/-- Every consumer comes to every message claimed, and one that `Put` waits for gets it. -/
theorem claims_arrive (c : C) (claims : List (P × α)) :
    (networkMachine w blank).LeadsTo schedule s (fun u => u.claims = claims)
      fun u => claims.length ≤ (u.handled c).length ∧
        (w.Guarded c → claims.map Prod.snd <+: u.handled c) := by
  intro n hn
  obtain rfl : ((networkMachine w blank).stateAt schedule s n).claims = claims := hn
  suffices harrived : ∃ m, n ≤ m ∧ ((networkMachine w blank).stateAt schedule s n).claims.length ≤
      (((networkMachine w blank).stateAt schedule s m).handled c).length by
    obtain ⟨m, hm, hle⟩ := harrived
    have hreachable := Machine.stateAt_reachable hs schedule n
    exact ⟨m, hm, hle, handled_prefix hreachable (Machine.stateAt_reaches _ _ s hm) hle⟩
  rcases Nat.eq_zero_or_pos ((networkMachine w blank).stateAt schedule s n).claims.length with
    hzero | hpos
  · exact ⟨n, le_rfl, hzero.trans_le (Nat.zero_le _)⟩
  · obtain ⟨m, hm, hcommitted⟩ := slot_commits hs hfair hacyclic _ n (Nat.sub_one_lt_of_lt hpos)
    obtain ⟨k, hk, hpassed⟩ := consumers_pass hs hfair hacyclic (.get c) _ m hcommitted
    have hhandled := lt_handled (network_ok (Machine.stateAt_reachable hs schedule k)) hpassed
    exact ⟨k, hm.trans hk, by omega⟩

/-- From every state of a run, in every schedule that keeps all consumers going and all
threads that are in a `Put`: every `Put` returns and has put its message, and every
message claimed is handled by all consumers, by those `Put` waits for as it was put and
in its place. -/
theorem put_arrives :
    (∀ p msg done, (networkMachine w blank).LeadsTo schedule s
      (fun u => (∃ pc, u.put p = some (msg, pc)) ∧ u.done p = done)
      fun u => u.put p = none ∧ u.done p = done ++ [msg]) ∧
    ∀ c claims, (networkMachine w blank).LeadsTo schedule s (fun u => u.claims = claims)
      fun u => claims.length ≤ (u.handled c).length ∧
        (w.Guarded c → claims.map Prod.snd <+: u.handled c) :=
  ⟨put_returns hs hfair hacyclic, claims_arrive hs hfair hacyclic⟩

end Schedules

/-- The two threads put one message after the other, and the consumer takes them. -/
def oneRound : List (NetworkEvent Nat Bool Unit) :=
  [.put false 1, .put true 2, .putLoad false 0, .putStep false, .putLoad true 0, .putStep true,
    .get () ⟨none, true⟩, .getLoad () 0, .getStep ()]

/-- Round by round. -/
def rounds (n : Nat) : NetworkEvent Nat Bool Unit :=
  oneRound.get ⟨n % oneRound.length, Nat.mod_lt n (Nat.succ_pos 8)⟩

theorem rounds_go_on : (networkMachine twoThreads 0).FairToParties NetworkEvent.Takes
    NetworkEvent.thread Network.Busy rounds (networkMachine twoThreads 0).start := by
  refine threads_go_on (Machine.fair_turns oneRound (Nat.succ_pos 8)) (.refl _)
    (fun e he => ?_) (fun p => ?_) fun c => ⟨⟨⟨none, true⟩, ?_⟩, ?_, ?_⟩
  · simp only [oneRound, List.mem_cons, List.not_mem_nil, or_false] at he
    rcases he with rfl | rfl | rfl | rfl | rfl | rfl | rfl | rfl | rfl <;>
      simp [NetworkEvent.Takes]
  · cases p <;> simp [oneRound]
  all_goals simp [oneRound]

theorem rounds_arrive :
    (∀ p msg done, (networkMachine twoThreads 0).LeadsTo rounds (networkMachine twoThreads 0).start
      (fun u => (∃ pc, u.put p = some (msg, pc)) ∧ u.done p = done)
      fun u => u.put p = none ∧ u.done p = done ++ [msg]) ∧
    ∀ c claims, (networkMachine twoThreads 0).LeadsTo rounds (networkMachine twoThreads 0).start
      (fun u => u.claims = claims)
      fun u => claims.length ≤ (u.handled c).length ∧
        (twoThreads.Guarded c → claims.map Prod.snd <+: u.handled c) :=
  put_arrives (.refl _) rounds_go_on ⟨fun c => ⟨c, fun b hb => by simp [twoThreads] at hb⟩⟩

end TradingMarket.L3
