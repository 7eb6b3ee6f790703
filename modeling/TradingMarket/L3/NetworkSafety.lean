import Mathlib.Data.List.TakeDrop
import TradingMarket.L3.Network
import TradingMarket.L3.Pipeline

/-! # What a ring guarantees its threads

Whatever its threads do, the ring gives every consumer that `Put` waits for, be
it over other consumers, exactly the messages put, in the order of their slots
and none of them overwritten before it is handled; a thread's messages stay in
the thread's order (`network_delivers`).

A thread needs of the others only that cursors never go back, that nobody else
has its slot, and that the slots in use are less than a lap apart. -/
namespace TradingMarket.L3

open Lib (Machine)

variable {α P C : Type} {w : Wiring P C}

/-! ## `Barrier::least()` -/

section Least
variable {value value' : Cursor C → Nat} {barrier : List (Cursor C)} {l l' : Least C} {lo hi : Nat}

/-- What has been loaded is not above the cursors as they are now, and within bounds. -/
structure Least.Loads (value : Cursor C → Nat) (barrier : List (Cursor C)) (lo hi : Nat)
    (l : Least C) : Prop where
  rest : l.rest ⊆ barrier
  below : ∀ b ∈ barrier, b ∈ l.rest ∨ ∃ n, l.least = some n ∧ n ≤ value b
  within : ∀ n, l.least = some n → lo ≤ n ∧ n ≤ hi

theorem Least.Loads.start : (⟨barrier, none⟩ : Least C).Loads value barrier lo hi :=
  ⟨fun _ hb => hb, fun _ hb => .inl hb, fun _ hn => by cases hn⟩

theorem Least.Loads.mono {hi' : Nat} (h : l.Loads value barrier lo hi)
    (hvalue : ∀ b, value b ≤ value' b) (hhi : hi ≤ hi') : l.Loads value' barrier lo hi' := by
  refine ⟨h.rest, fun b hb => ?_, fun n hn => ⟨(h.within n hn).1, (h.within n hn).2.trans hhi⟩⟩
  rcases h.below b hb with hrest | ⟨n, hn, hle⟩
  · exact .inl hrest
  · exact .inr ⟨n, hn, hle.trans (hvalue b)⟩

theorem Least.Loads.load {i : Nat} (h : l.Loads value barrier lo hi)
    (hbounds : ∀ b ∈ barrier, lo ≤ value b ∧ value b ≤ hi) (hload : l.load value i = some l') :
    l'.Loads value barrier lo hi := by
  obtain ⟨b, hb, rfl⟩ := Option.map_eq_some_iff.mp hload
  have hmem := List.mem_of_getElem? hb
  obtain ⟨hlo, hhi⟩ := hbounds b (h.rest hmem)
  refine ⟨fun x hx => h.rest (List.mem_of_mem_eraseIdx hx), fun x hx => ?_, fun n hn => ?_⟩
  · have hleast : ∀ n, l.least = some n → l.least.elim (value b) (min (value b)) = min (value b) n :=
      fun n hn => by rw [hn]; rfl
    rcases h.below x hx with hrest | ⟨n, hn, hle⟩
    · -- either another one, or the one that is loaded now
      obtain ⟨hlt, rfl⟩ := List.getElem?_eq_some_iff.mp hb
      rcases List.mem_iff_getElem.mp hrest with ⟨j, hj, rfl⟩
      by_cases hji : j = i
      · subst hji
        refine .inr ⟨_, rfl, ?_⟩
        cases hn : l.least with
        | none => exact le_rfl
        | some n => exact min_le_left _ _
      · refine .inl (List.mem_eraseIdx_iff_getElem.mpr ⟨j, hj, hji, rfl⟩)
    · exact .inr ⟨_, rfl, by rw [hleast n hn]; exact (min_le_right _ _).trans hle⟩
  · cases hl : l.least with
    | none =>
      rw [hl] at hn
      cases hn
      exact ⟨hlo, hhi⟩
    | some m =>
      rw [hl] at hn
      cases hn
      obtain ⟨hlo', hhi'⟩ := h.within m hl
      exact ⟨le_min hlo hlo', (min_le_left _ _).trans hhi⟩

/-- The least is not above any cursor of the barrier. -/
theorem Least.Loads.all {n : Nat} (h : (⟨[], some n⟩ : Least C).Loads value barrier lo hi) :
    ∀ b ∈ barrier, n ≤ value b := by
  intro b hb
  rcases h.below b hb with hrest | ⟨m, hm, hle⟩
  · cases hrest
  · cases hm
    exact hle

end Least

/-! ## Producers -/

section Producers
variable [DecidableEq P]

/-- The claims of a thread that are not committed. -/
def pending (w : Wiring P C) (ring : Disruptor α) (claims : List (P × α)) (p : P) : List (P × α) :=
  (claims.drop (ring.cursor - w.size)).filter fun x => x.1 = p

/-- The thread has claimed the slot, for the message, and has claimed no other. -/
structure Claimed (w : Wiring P C) (ring : Disruptor α) (claims : List (P × α)) (p : P) (msg : α)
    (slot : Nat) : Prop where
  lap : w.size ≤ slot
  number : claims[slot - w.size]? = some (p, msg)
  uncommitted : ring.cursor ≤ slot
  only : pending w ring claims p = [(p, msg)]

/-- The cursors `Put` waits for have passed the slot a lap before. -/
def Room (w : Wiring P C) (value : Cursor C → Nat) (slot : Nat) : Prop :=
  ∀ b ∈ w.putBarrier, slot - w.size < value b

/-- What holds of a thread by where its `Put` is. -/
def PutOk (w : Wiring P C) (ring : Disruptor α) (value : Cursor C → Nat) (claims : List (P × α))
    (p : P) : Option (α × SharedPutPc C) → Prop
  | none | some (_, .claim) => pending w ring claims p = []
  | some (msg, .waitBarrier slot barrier) =>
    Claimed w ring claims p msg slot ∧ barrier.Loads value w.putBarrier 0 ring.cursor
  | some (msg, .write slot) => Claimed w ring claims p msg slot ∧ Room w value slot
  | some (msg, .commit slot) =>
    Claimed w ring claims p msg slot ∧ Room w value slot ∧ ring.read w.size slot = msg

variable {ring : Disruptor α} {value value' : Cursor C → Nat} {claims : List (P × α)} {p q : P}
  {put : Option (α × SharedPutPc C)} {msg msg' : α} {slot slot' : Nat}

/-- Cursors have gone on. -/
theorem PutOk.mono (h : PutOk w ring value claims p put) (hvalue : ∀ b, value b ≤ value' b) :
    PutOk w ring value' claims p put := by
  have hroom : ∀ {slot}, Room w value slot → Room w value' slot :=
    fun h b hb => (h b hb).trans_le (hvalue b)
  match put, h with
  | none, h | some (_, .claim), h => exact h
  | some (_, .waitBarrier _ _), h => exact ⟨h.1, h.2.mono hvalue le_rfl⟩
  | some (_, .write _), h => exact ⟨h.1, hroom h.2⟩
  | some (_, .commit _), h => exact ⟨h.1, hroom h.2.1, h.2.2⟩

/-- Two threads have different slots. -/
theorem Claimed.ne (h : Claimed w ring claims p msg slot) (h' : Claimed w ring claims q msg' slot')
    (hne : p ≠ q) : slot ≠ slot' := by
  rintro rfl
  exact hne (congrArg Prod.fst (Option.some.inj (h.number.symm.trans h'.number)))

/-- Another thread claims a slot. -/
theorem Claimed.concat (h : Claimed w ring claims p msg slot) (hne : q ≠ p)
    (hcommitted : ring.cursor - w.size ≤ claims.length) :
    Claimed w ring (claims ++ [(q, msg')]) p msg slot := by
  obtain ⟨hlt, -⟩ := List.getElem?_eq_some_iff.mp h.number
  refine ⟨h.lap, ?_, h.uncommitted, ?_⟩
  · rw [List.getElem?_append_left hlt]
    exact h.number
  · have honly := h.only
    unfold pending at honly ⊢
    rw [List.drop_append_of_le_length hcommitted, List.filter_append, honly]
    simp [hne]

theorem PutOk.claim (h : PutOk w ring value claims p put) (hne : q ≠ p)
    (hcommitted : ring.cursor - w.size ≤ claims.length) :
    PutOk w { ring with putCursor := ring.putCursor + 1 } value (claims ++ [(q, msg')]) p put := by
  have hpending : pending w ring claims p = [] →
      pending w { ring with putCursor := ring.putCursor + 1 } (claims ++ [(q, msg')]) p = [] := by
    intro h
    unfold pending at h ⊢
    rw [List.drop_append_of_le_length hcommitted, List.filter_append, h]
    simp [hne]
  have hclaimed : ∀ {msg slot}, Claimed w ring claims p msg slot →
      Claimed w { ring with putCursor := ring.putCursor + 1 } (claims ++ [(q, msg')]) p msg slot :=
    fun h =>
      have hconcat := h.concat hne hcommitted
      ⟨hconcat.lap, hconcat.number, hconcat.uncommitted, hconcat.only⟩
  match put, h with
  | none, h | some (_, .claim), h => exact hpending h
  | some (_, .waitBarrier _ _), h => exact ⟨hclaimed h.1, h.2⟩
  | some (_, .write _), h => exact ⟨hclaimed h.1, h.2⟩
  | some (_, .commit _), h => exact ⟨hclaimed h.1, h.2⟩

omit [DecidableEq P] in
/-- Two slots with room for them, of which neither is committed, are not one slot of
the ring. -/
theorem Room.mod_ne (h : Room w value slot) (h' : Room w value slot')
    (hvalue : ∀ b, value b ≤ ring.cursor) (hle : ring.cursor ≤ slot) (hle' : ring.cursor ≤ slot')
    (hne : slot ≠ slot') : slot % w.size ≠ slot' % w.size := by
  obtain ⟨b, hb⟩ := List.exists_mem_of_ne_nil _ w.putBarrier_ne_nil
  have hroom := h b hb
  have hroom' := h' b hb
  have hbelow := hvalue b
  have hpos := w.size_pos
  rcases Nat.lt_or_gt_of_ne hne with hlt | hlt
  · exact mod_ne_of_lap hlt (by omega)
  · exact (mod_ne_of_lap hlt (by omega)).symm

/-- Another thread writes its slot. -/
theorem PutOk.write (h : PutOk w ring value claims p put) (hne : p ≠ q)
    (hq : Claimed w ring claims q msg' slot') (hroom : Room w value slot')
    (hvalue : ∀ b, value b ≤ ring.cursor) :
    PutOk w (ring.write w.size slot' msg') value claims p put := by
  have hclaimed : ∀ {msg slot}, Claimed w ring claims p msg slot →
      Claimed w (ring.write w.size slot' msg') claims p msg slot :=
    fun h => ⟨h.lap, h.number, h.uncommitted, h.only⟩
  match put, h with
  | none, h | some (_, .claim), h => exact h
  | some (_, .waitBarrier _ _), h => exact ⟨hclaimed h.1, h.2⟩
  | some (_, .write _), h => exact ⟨hclaimed h.1, h.2⟩
  | some (_, .commit slot), h =>
    obtain ⟨hp, hpRoom, hread⟩ := h
    refine ⟨hclaimed hp, hpRoom, ?_⟩
    rw [read_write_ne (hpRoom.mod_ne hroom hvalue hp.uncommitted hq.uncommitted (hp.ne hq hne))]
    exact hread

/-- The claims not committed, when the first of them is. -/
theorem pending_commit (hq : claims[ring.cursor - w.size]? = some (q, msg'))
    (hsize : w.size ≤ ring.cursor) :
    pending w ring claims p = (if q = p then [(q, msg')] else []) ++
      pending w { ring with cursor := ring.cursor + 1 } claims p := by
  obtain ⟨hlt, hget⟩ := List.getElem?_eq_some_iff.mp hq
  unfold pending
  rw [List.drop_eq_getElem_cons hlt, hget, Nat.sub_add_comm hsize]
  by_cases h : q = p <;> simp [h]

/-- Another thread commits its slot, which is the next one. -/
theorem PutOk.commit (h : PutOk w ring value claims p put) (hne : q ≠ p)
    (hq : claims[ring.cursor - w.size]? = some (q, msg')) (hsize : w.size ≤ ring.cursor) :
    PutOk w { ring with cursor := ring.cursor + 1 } value claims p put := by
  have hpending : pending w { ring with cursor := ring.cursor + 1 } claims p =
      pending w ring claims p := by
    rw [pending_commit hq hsize, if_neg hne, List.nil_append]
  have hclaimed : ∀ {msg slot}, Claimed w ring claims p msg slot →
      Claimed w { ring with cursor := ring.cursor + 1 } claims p msg slot := by
    intro msg slot h
    refine ⟨h.lap, h.number, ?_, hpending.trans h.only⟩
    refine Nat.lt_of_le_of_ne h.uncommitted fun heq => hne ?_
    rw [heq] at hq
    exact congrArg Prod.fst (Option.some.inj (hq.symm.trans h.number))
  match put, h with
  | none, h | some (_, .claim), h => exact hpending.trans h
  | some (_, .waitBarrier _ _), h =>
    exact ⟨hclaimed h.1, h.2.mono (fun _ => le_rfl) (Nat.le_succ _)⟩
  | some (_, .write _), h => exact ⟨hclaimed h.1, h.2⟩
  | some (_, .commit _), h => exact ⟨hclaimed h.1, h.2⟩

end Producers

/-! ## Consumers -/

section Consumers
variable {ring ring' : Disruptor α} {value value' : Cursor C → Nat} {messages messages' handled : List α}
  {c : C} {pc : ConsumerPc C}

/-- The next slot a consumer takes a message from. -/
def ConsumerPc.index (cursor : Nat) : ConsumerPc C → Nat
  | .idle | .waitBarrier _ _ => cursor
  | .batch index _ => index

/-- The end of what a consumer may take before it looks at its barrier again. -/
def ConsumerPc.last (cursor : Nat) : ConsumerPc C → Nat
  | .idle | .waitBarrier _ _ => cursor
  | .batch _ last => last

/-- `Put` waits for the consumer, or for one that waits for it. -/
inductive Wiring.Guarded (w : Wiring P C) : C → Prop
  | put {c : C} : .get c ∈ w.putBarrier → Guarded w c
  | behind {b c : C} : Guarded w c → .get b ∈ w.getBarrier c → Guarded w b

/-- What holds of a consumer: it has handled one message for each slot it has passed,
and its batch ends before the cursors of its barrier. -/
structure GetOk (w : Wiring P C) (ring : Disruptor α) (value : Cursor C → Nat) (messages : List α)
    (c : C) (handled : List α) (pc : ConsumerPc C) : Prop where
  begun : value (.get c) ≤ pc.index (value (.get c))
  within : pc.index (value (.get c)) ≤ pc.last (value (.get c))
  bound : pc.last (value (.get c)) ≤ ring.cursor
  barrier : ∀ b ∈ w.getBarrier c, pc.last (value (.get c)) ≤ value b
  count : w.size + handled.length = pc.index (value (.get c))
  order : w.Guarded c → handled <+: messages
  loads : ∀ kind barrier, pc = .waitBarrier kind barrier →
    barrier.Loads value (w.getBarrier c) (value (.get c)) ring.cursor

/-- The other threads have gone on. -/
theorem GetOk.mono (h : GetOk w ring value messages c handled pc)
    (hring : ring.cursor ≤ ring'.cursor) (hvalue : ∀ b, value b ≤ value' b)
    (hsame : value' (.get c) = value (.get c)) (hmessages : messages <+: messages') :
    GetOk w ring' value' messages' c handled pc := by
  obtain ⟨hbegun, hwithin, hbound, hbarrier, hcount, horder, hloads⟩ := h
  rw [← hsame] at hbegun hwithin hbound hbarrier hcount hloads
  exact ⟨hbegun, hwithin, hbound.trans hring, fun b hb => (hbarrier b hb).trans (hvalue b), hcount,
    fun hc => (horder hc).trans hmessages,
    fun kind barrier hpc => (hloads kind barrier hpc).mono hvalue hring⟩

/-- The consumer calls a constructor of `Get`, or its barrier once more. -/
theorem GetOk.construct {kind : GetKind} (h : GetOk w ring value messages c handled pc)
    (hindex : pc.index (value (.get c)) = value (.get c))
    (hlast : pc.last (value (.get c)) = value (.get c)) :
    GetOk w ring value messages c handled (.waitBarrier kind ⟨w.getBarrier c, none⟩) := by
  obtain ⟨-, -, hbound, hbarrier, hcount, horder, -⟩ := h
  rw [hlast] at hbound hbarrier
  rw [hindex] at hcount
  exact ⟨le_rfl, le_rfl, hbound, hbarrier, hcount, horder, fun _ _ hpc => by cases hpc; exact .start⟩

theorem GetOk.load {kind : GetKind} {barrier barrier' : Least C} {i : Nat}
    (h : GetOk w ring value messages c handled (.waitBarrier kind barrier))
    (hbelow : ∀ b, value b ≤ ring.cursor) (hload : barrier.load value i = some barrier') :
    GetOk w ring value messages c handled (.waitBarrier kind barrier') := by
  refine ⟨h.begun, h.within, h.bound, h.barrier, h.count, h.order, fun _ _ hpc => ?_⟩
  cases hpc
  exact (h.loads kind barrier rfl).load (fun b hb => ⟨h.barrier b hb, hbelow b⟩) hload

theorem batchEnd_bounds {kind : GetKind} {first least last : Nat} (hle : first ≤ least)
    (h : kind.batchEnd first least = some last) : first ≤ last ∧ last ≤ least := by
  unfold GetKind.batchEnd at h
  split at h
  · cases h
  · cases h
    cases kind.maxBatchSize with
    | none => exact ⟨hle, le_rfl⟩
    | some n => exact ⟨le_min hle (Nat.le_add_right _ _), min_le_left _ _⟩

/-- A constructor of `Get` gets a batch: none of the ways ends it before it begins. -/
theorem GetOk.take {kind : GetKind} {least last : Nat}
    (h : GetOk w ring value messages c handled (.waitBarrier kind ⟨[], some least⟩))
    (hlast : kind.batchEnd (value (.get c)) least = some last) :
    GetOk w ring value messages c handled (.batch (value (.get c)) last) := by
  have hloads := h.loads kind _ rfl
  obtain ⟨hlo, hhi⟩ := hloads.within least rfl
  obtain ⟨hfirst, hleast⟩ := batchEnd_bounds hlo hlast
  exact ⟨le_rfl, hfirst, hleast.trans hhi, fun b hb => hleast.trans (hloads.all b hb), h.count,
    h.order, fun _ _ hpc => by cases hpc⟩

/-- The consumer handles the message of a slot that holds what comes next. -/
theorem GetOk.handle {index last : Nat} {msg : α}
    (h : GetOk w ring value messages c handled (.batch index last)) (hne : index ≠ last)
    (hread : w.Guarded c → messages[handled.length]? = some msg) :
    GetOk w ring value messages c (handled ++ [msg]) (.batch (index + 1) last) := by
  refine ⟨Nat.le_succ_of_le h.begun, Nat.lt_of_le_of_ne h.within hne, h.bound, h.barrier, ?_,
    fun hc => ?_, fun _ _ hpc => by cases hpc⟩
  · rw [List.length_append, ← Nat.add_assoc, h.count]
    rfl
  · obtain ⟨hlt, hget⟩ := List.getElem?_eq_some_iff.mp (hread hc)
    rw [← hget]
    exact List.concat_get_prefix (h.order hc) hlt

/-- The destructor of `Get` stores the end of the batch. -/
theorem GetOk.release {last : Nat} (h : GetOk w ring value messages c handled (.batch last last))
    (hvalue : ∀ b, value b ≤ value' b) (hlast : value' (.get c) = last) :
    GetOk w ring value' messages c handled .idle := by
  refine ⟨le_rfl, le_rfl, hlast ▸ h.bound, fun b hb => ?_, hlast ▸ h.count, h.order,
    fun _ _ hpc => by cases hpc⟩
  exact hlast ▸ (h.barrier b hb).trans (hvalue b)

/-- A guarded consumer is not behind every cursor `Put` waits for. -/
theorem Wiring.Guarded.behind_put {handled : C → List α} {get : C → ConsumerPc C}
    (h : ∀ c, GetOk w ring value messages c (handled c) (get c)) (hc : w.Guarded c) :
    ∃ b ∈ w.putBarrier, value b ≤ value (.get c) := by
  induction hc with
  | put hmem => exact ⟨_, hmem, le_rfl⟩
  | @behind b c _ hmem ih =>
    obtain ⟨b', hb', hle⟩ := ih
    have hc := h c
    exact ⟨b', hb', hle.trans (hc.begun.trans (hc.within.trans (hc.barrier _ hmem)))⟩

end Consumers

/-! ## All threads together -/

section Network
variable [DecidableEq P]

/-- The claims that are committed, slot by slot. -/
def Network.committed (w : Wiring P C) (s : Network α P C) : List (P × α) :=
  s.claims.take (s.ring.cursor - w.size)

structure Network.Ok (w : Wiring P C) (s : Network α P C) : Prop where
  lap : w.size ≤ s.ring.cursor
  claimed : s.ring.putCursor = w.size + s.claims.length
  uncommitted : s.ring.cursor ≤ s.ring.putCursor
  put : ∀ p, PutOk w s.ring s.value s.claims p (s.put p)
  get : ∀ c, GetOk w s.ring s.value (s.claims.map Prod.snd) c (s.handled c) (s.get c)
  done : ∀ p, ((s.committed w).filter fun x => x.1 = p).map Prod.snd = s.done p
  /-- A committed message that a cursor of the barrier has not passed is in its slot. -/
  held : ∀ k msg, (s.claims.map Prod.snd)[k]? = some msg → w.size + k < s.ring.cursor →
    ∀ b ∈ w.putBarrier, s.value b ≤ w.size + k → s.ring.read w.size (w.size + k) = msg

variable {s s' : Network α P C} {p : P} {c : C}

theorem Network.Ok.start (blank : α) : (Network.start w blank : Network α P C).Ok w := by
  refine ⟨le_rfl, rfl, le_rfl, fun p => ?_, fun c => ?_, fun p => ?_, fun k msg hk => by cases hk⟩
  · exact List.filter_eq_nil_iff.mpr fun x hx => by simp [Network.start] at hx
  · refine ⟨le_rfl, le_rfl, le_rfl, fun b _ => ?_, rfl, fun _ => List.nil_prefix, fun _ _ hpc => ?_⟩
    · cases b <;> exact le_rfl
    · cases hpc
  · simp [Network.committed, Network.start]

/-- No cursor has passed the one of the ring. -/
theorem Network.Ok.value_le (h : s.Ok w) (b : Cursor C) : s.value b ≤ s.ring.cursor := by
  cases b with
  | ring => exact le_rfl
  | get c => exact (h.get c).begun.trans ((h.get c).within.trans (h.get c).bound)

theorem Network.Ok.room (h : s.Ok w) : s.ring.cursor - w.size ≤ s.claims.length := by
  have hclaimed := h.claimed
  have huncommitted := h.uncommitted
  omega

/-! ### Steps of producers -/

/-- A thread only gets to another place in its `Put`. -/
theorem Network.Ok.moved (h : s.Ok w) {put : Option (α × SharedPutPc C)}
    (hput : PutOk w s.ring s.value s.claims p put) :
    { s with put := Function.update s.put p put }.Ok w := by
  refine ⟨h.lap, h.claimed, h.uncommitted, fun q => ?_, h.get, h.done, h.held⟩
  by_cases hq : q = p
  · subst hq
    simp only [Function.update_self]
    exact hput
  · simp only [Function.update_of_ne hq]
    exact h.put q

theorem Network.Ok.claim (h : s.Ok w) {msg : α} (hput : s.put p = some (msg, .claim)) :
    { s with
      ring := { s.ring with putCursor := s.ring.putCursor + 1 }
      claims := s.claims ++ [(p, msg)]
      put := Function.update s.put p
        (some (msg, .waitBarrier s.ring.putCursor ⟨w.putBarrier, none⟩)) }.Ok w := by
  have hroom := h.room
  refine ⟨h.lap, ?_, Nat.le_succ_of_le h.uncommitted, fun q => ?_, fun c => ?_, fun q => ?_,
    fun k msg' hk hlt b hb hle => ?_⟩
  · rw [List.length_append, ← Nat.add_assoc, ← h.claimed]
    rfl
  · by_cases hq : q = p
    · subst hq
      simp only [Function.update_self]
      have hnone := h.put q
      rw [hput] at hnone
      have hslot : s.ring.putCursor - w.size = s.claims.length := by
        rw [h.claimed, Nat.add_sub_cancel_left]
      refine ⟨⟨h.lap.trans h.uncommitted, ?_, h.uncommitted, ?_⟩, .start⟩
      · rw [hslot, List.getElem?_concat_length]
      · unfold pending
        rw [List.drop_append_of_le_length hroom, List.filter_append,
          show List.filter _ _ = [] from hnone]
        simp
    · simp only [Function.update_of_ne hq]
      exact (h.put q).claim (fun heq => hq heq.symm) hroom
  · exact (h.get c).mono le_rfl (fun b => by cases b <;> exact le_rfl) rfl (by simp)
  · rw [← h.done q]
    simp only [Network.committed, List.take_append_of_le_length hroom]
  · have hlen : k < s.claims.length := by
      have hclaimed := h.claimed
      have huncommitted := h.uncommitted
      simp only at hlt
      omega
    rw [List.map_append, List.getElem?_append_left (by simpa using hlen)] at hk
    exact h.held k msg' hk hlt b hb hle

theorem Network.Ok.write (h : s.Ok w) {msg : α} {slot : Nat}
    (hput : s.put p = some (msg, .write slot)) :
    { s with
      ring := s.ring.write w.size slot msg
      put := Function.update s.put p (some (msg, .commit slot)) }.Ok w := by
  have hp := h.put p
  rw [hput] at hp
  obtain ⟨hclaimed, hroom⟩ := hp
  refine ⟨h.lap, h.claimed, h.uncommitted, fun q => ?_,
    fun c => (h.get c).mono le_rfl (fun b => by cases b <;> exact le_rfl) rfl List.prefix_rfl,
    h.done, fun k msg' hk hlt b hb hle => ?_⟩
  · by_cases hq : q = p
    · subst hq
      simp only [Function.update_self]
      exact ⟨⟨hclaimed.lap, hclaimed.number, hclaimed.uncommitted, hclaimed.only⟩, hroom,
        read_write _ _ _ _⟩
    · simp only [Function.update_of_ne hq]
      exact (h.put q).write hq hclaimed hroom h.value_le
  · have hle' : s.value b ≤ w.size + k := hle
    have hbehind := hroom b hb
    have huncommitted := hclaimed.uncommitted
    have hnext : w.size + k < s.ring.cursor := hlt
    rw [read_write_ne (mod_ne_of_lap (by omega) (by omega))]
    exact h.held k msg' hk hlt b hb hle'

/-- A thread that may commit its slot is the next to commit. With `CommitPolicy::Unique`
that is because no other thread has claimed one. -/
theorem Network.Ok.next (h : s.Ok w) {msg : α} {slot : Nat}
    (hclaimed : Claimed w s.ring s.claims p msg slot)
    (hturn : w.policy = .shared → slot ≤ s.ring.cursor) : slot = s.ring.cursor := by
  refine le_antisymm ?_ hclaimed.uncommitted
  cases hpolicy : w.policy with
  | shared => exact hturn hpolicy
  | unique =>
    have hlone := w.lone hpolicy
    have honly := hclaimed.only
    unfold pending at honly
    rw [List.filter_eq_self.mpr fun x _ => decide_eq_true (Subsingleton.elim x.1 p)] at honly
    have hlength := congrArg List.length honly
    obtain ⟨hlt, -⟩ := List.getElem?_eq_some_iff.mp hclaimed.number
    have hlap := h.lap
    rw [List.length_drop, List.length_singleton] at hlength
    omega

theorem Network.Ok.commit (h : s.Ok w) {msg : α} {slot : Nat}
    (hput : s.put p = some (msg, .commit slot))
    (hturn : w.policy = .shared → slot ≤ s.ring.cursor) :
    { s with
      ring := { s.ring with cursor := s.ring.cursor + 1 }
      put := Function.update s.put p none
      done := Function.update s.done p (s.done p ++ [msg]) }.Ok w := by
  have hp := h.put p
  rw [hput] at hp
  obtain ⟨hclaimed, hroom, hread⟩ := hp
  obtain rfl : slot = s.ring.cursor := h.next hclaimed hturn
  have hnext := hclaimed.number
  obtain ⟨hlt, hget⟩ := List.getElem?_eq_some_iff.mp hnext
  have hvalue : ∀ b, s.value b ≤ Network.value { s with
      ring := { s.ring with cursor := s.ring.cursor + 1 } } b := fun b => by
    cases b with
    | ring => exact Nat.le_succ _
    | get c => exact le_rfl
  refine ⟨Nat.le_succ_of_le h.lap, h.claimed, ?_, fun q => ?_,
    fun c => (h.get c).mono (Nat.le_succ _) hvalue rfl List.prefix_rfl, fun q => ?_,
    fun k msg' hk hcommitted b hb hle => ?_⟩
  · have hclaims := h.claimed
    have hlap := h.lap
    simp only
    omega
  · by_cases hq : q = p
    · subst hq
      simp only [Function.update_self]
      have honly := hclaimed.only
      rw [pending_commit hnext h.lap, if_pos rfl, List.singleton_append] at honly
      exact List.tail_eq_of_cons_eq honly
    · simp only [Function.update_of_ne hq]
      exact ((h.put q).commit (fun heq => hq heq.symm) hnext h.lap).mono hvalue
  · have htake : s.claims.take (s.ring.cursor + 1 - w.size) =
        s.claims.take (s.ring.cursor - w.size) ++ [(p, msg)] := by
      rw [Nat.sub_add_comm h.lap, List.take_add_one, hnext]
      rfl
    have hdone := h.done q
    simp only [Network.committed] at hdone ⊢
    rw [htake, List.filter_append, List.map_append, hdone]
    by_cases hq : q = p
    · subst hq
      simp
    · have hne : p ≠ q := fun heq => hq heq.symm
      simp [Function.update_of_ne hq, hne]
  · rcases Nat.lt_or_ge (w.size + k) s.ring.cursor with hlt' | hge
    · exact h.held k msg' hk hlt' b hb (Nat.le_trans (hvalue b) hle)
    · have hlast : w.size + k = s.ring.cursor := Nat.le_antisymm (Nat.lt_succ_iff.mp hcommitted) hge
      have hk' : k = s.ring.cursor - w.size := by omega
      rw [List.getElem?_map, hk', hnext] at hk
      rw [hlast, ← Option.some.inj hk]
      exact hread

theorem Network.Ok.produce (h : s.Ok w) (hs : ProducerStep w s p s') : s'.Ok w := by
  have hp := h.put p
  cases hs with
  | call hput =>
    rw [hput] at hp
    exact h.moved hp
  | load hput hload =>
    rw [hput] at hp
    exact h.moved ⟨hp.1, hp.2.load (fun b _ => ⟨Nat.zero_le _, h.value_le b⟩) hload⟩
  | full hput hfull =>
    rw [hput] at hp
    exact h.moved ⟨hp.1, .start⟩
  | room hput hlt =>
    rw [hput] at hp
    exact h.moved ⟨hp.1, fun b hb => hlt.trans_le (hp.2.all b hb)⟩
  | waitTurn => exact h
  | claim hput => exact h.claim hput
  | write hput => exact h.write hput
  | commit hput hturn => exact h.commit hput hturn

/-! ### Steps of consumers -/

section Consume
variable [DecidableEq C]

/-- A consumer only gets to another place, having handled no message. -/
theorem Network.Ok.turned (h : s.Ok w) {pc : ConsumerPc C}
    (hget : GetOk w s.ring s.value (s.claims.map Prod.snd) c (s.handled c) pc) :
    { s with get := Function.update s.get c pc }.Ok w := by
  refine ⟨h.lap, h.claimed, h.uncommitted, h.put, fun a => ?_, h.done, h.held⟩
  by_cases ha : a = c
  · subst ha
    simp only [Function.update_self]
    exact hget
  · simp only [Function.update_of_ne ha]
    exact h.get a

theorem Network.Ok.handle (h : s.Ok w) {index last : Nat} (hget : s.get c = .batch index last)
    (hne : index ≠ last) :
    { s with
      handled := Function.update s.handled c (s.handled c ++ [s.ring.read w.size index])
      get := Function.update s.get c (.batch (index + 1) last) }.Ok w := by
  have hc := h.get c
  rw [hget] at hc
  have hcount : w.size + (s.handled c).length = index := hc.count
  have hnext : index < s.ring.cursor := (Nat.lt_of_le_of_ne hc.within hne).trans_le hc.bound
  have hread : w.Guarded c →
      (s.claims.map Prod.snd)[(s.handled c).length]? = some (s.ring.read w.size index) := by
    intro hguarded
    obtain ⟨b, hb, hle⟩ := hguarded.behind_put h.get
    have hroom := h.room
    have hlt : (s.handled c).length < (s.claims.map Prod.snd).length := by
      rw [List.length_map]
      omega
    have hmsg := List.getElem?_eq_getElem hlt
    have hbegun : s.value (.get c) ≤ index := hc.begun
    rw [hmsg, ← h.held _ _ hmsg (by omega) b hb (by omega), hcount]
  refine ⟨h.lap, h.claimed, h.uncommitted, h.put, fun a => ?_, h.done, h.held⟩
  by_cases ha : a = c
  · subst ha
    simp only [Function.update_self]
    exact hc.handle hne hread
  · simp only [Function.update_of_ne ha]
    exact h.get a

theorem Network.Ok.release (h : s.Ok w) {last : Nat} (hget : s.get c = .batch last last) :
    { s with
      cursor := Function.update s.cursor c last
      get := Function.update s.get c .idle }.Ok w := by
  have hc := h.get c
  rw [hget] at hc
  have hbegun : s.value (.get c) ≤ last := hc.begun
  have hvalue : ∀ b, s.value b ≤ Network.value { s with
      cursor := Function.update s.cursor c last } b := fun b => by
    cases b with
    | ring => exact le_rfl
    | get a =>
      by_cases ha : a = c
      · subst ha
        simp only [Network.value, Function.update_self]
        exact hbegun
      · simp only [Network.value, Function.update_of_ne ha]
        exact le_rfl
  refine ⟨h.lap, h.claimed, h.uncommitted, fun p => (h.put p).mono hvalue, fun a => ?_, h.done,
    fun k msg hk hlt b hb hle => h.held k msg hk hlt b hb (Nat.le_trans (hvalue b) hle)⟩
  by_cases ha : a = c
  · subst ha
    simp only [Function.update_self]
    exact hc.release hvalue (Function.update_self _ _ _)
  · simp only [Function.update_of_ne ha]
    exact (h.get a).mono le_rfl hvalue (Function.update_of_ne ha _ _) List.prefix_rfl

theorem Network.Ok.consume (h : s.Ok w) (hs : ConsumerStep w s c s') : s'.Ok w := by
  have hc := h.get c
  cases hs with
  | construct hget =>
    rw [hget] at hc
    exact h.turned (hc.construct rfl rfl)
  | load hget hload =>
    rw [hget] at hc
    exact h.turned (hc.load h.value_le hload)
  | again hget hnone =>
    rw [hget] at hc
    exact h.turned (hc.construct rfl rfl)
  | take hget hlast =>
    rw [hget] at hc
    exact h.turned (hc.take hlast)
  | release hget => exact h.release hget
  | handle hget hne => exact h.handle hget hne

theorem network_ok {blank : α} (h : (networkMachine w blank).Reachable s) : s.Ok w := by
  induction h using Machine.Reachable.induct with
  | start => exact .start blank
  | step s e s' _ hstep ih =>
    obtain ⟨p, hp⟩ | ⟨c, hc⟩ := networkStep_cases hstep
    · exact ih.produce hp
    · exact ih.consume hc

end Consume

/-! ## What the threads get -/

/-- The thread is about to write the slot. -/
def Network.Writes (s : Network α P C) (p : P) (slot : Nat) : Prop :=
  ∃ msg, s.put p = some (msg, .write slot)

/-- The consumer is about to read the slot. -/
def Network.Reads (s : Network α P C) (c : C) (slot : Nat) : Prop :=
  ∃ last, s.get c = .batch slot last ∧ slot ≠ last

structure Network.Delivers (w : Wiring P C) (s : Network α P C) : Prop where
  /-- The committed messages of a thread are what it has put, in its order. -/
  puts : ∀ p, ((s.committed w).filter fun x => x.1 = p).map Prod.snd = s.done p
  /-- A guarded consumer has handled the first of the committed messages, as they were put. -/
  order : ∀ c, w.Guarded c → s.handled c <+: (s.committed w).map Prod.snd
  /-- It has handled nothing before the consumers it waits for. -/
  behind : ∀ b c, w.Guarded c → .get b ∈ w.getBarrier c → s.handled c <+: s.handled b
  /-- No two threads are about to write one slot. -/
  writes : ∀ p q slot slot', p ≠ q → s.Writes p slot → s.Writes q slot' →
    slot % w.size ≠ slot' % w.size
  /-- No slot is about to be written while a guarded consumer is about to read it. -/
  reads : ∀ p c slot slot', w.Guarded c → s.Writes p slot → s.Reads c slot' →
    slot % w.size ≠ slot' % w.size

theorem Network.Ok.order (h : s.Ok w) (hc : w.Guarded c) :
    s.handled c <+: (s.committed w).map Prod.snd := by
  have hget := h.get c
  have hlength : (s.handled c).length ≤ s.ring.cursor - w.size := by
    have hcount := hget.count
    have hpassed := hget.within.trans hget.bound
    omega
  rw [Network.committed, List.map_take]
  exact List.prefix_take_iff.mpr ⟨hget.order hc, hlength⟩

theorem Network.Ok.behind (h : s.Ok w) {b : C} (hc : w.Guarded c)
    (hb : .get b ∈ w.getBarrier c) : s.handled c <+: s.handled b := by
  have hget := h.get c
  have hget' := h.get b
  refine List.prefix_of_prefix_length_le (hget.order hc) (hget'.order (hc.behind hb)) ?_
  have hcount := hget.count
  have hcount' := hget'.count
  have hpassed := hget.within.trans (hget.barrier _ hb)
  have hbegun := hget'.begun
  omega

theorem Network.Ok.writes_apart (h : s.Ok w) {q : P} {slot slot' : Nat} (hne : p ≠ q)
    (hp : s.Writes p slot) (hq : s.Writes q slot') : slot % w.size ≠ slot' % w.size := by
  obtain ⟨msg, hput⟩ := hp
  obtain ⟨msg', hput'⟩ := hq
  have hok := h.put p
  have hok' := h.put q
  rw [hput] at hok
  rw [hput'] at hok'
  exact hok.2.mod_ne hok'.2 h.value_le hok.1.uncommitted hok'.1.uncommitted (hok.1.ne hok'.1 hne)

theorem Network.Ok.reads_apart (h : s.Ok w) {slot slot' : Nat} (hc : w.Guarded c)
    (hp : s.Writes p slot) (hread : s.Reads c slot') : slot % w.size ≠ slot' % w.size := by
  obtain ⟨msg, hput⟩ := hp
  obtain ⟨last, hget, hne⟩ := hread
  have hok := h.put p
  have hok' := h.get c
  rw [hput] at hok
  rw [hget] at hok'
  obtain ⟨b, hb, hle⟩ := hc.behind_put h.get
  have hroom := hok.2 b hb
  have huncommitted := hok.1.uncommitted
  have hbegun : s.value (.get c) ≤ slot' := hok'.begun
  have hlast : slot' < s.ring.cursor := (Nat.lt_of_le_of_ne hok'.within hne).trans_le hok'.bound
  exact (mod_ne_of_lap (by omega) (by omega)).symm

theorem Network.Ok.delivers (h : s.Ok w) : s.Delivers w :=
  ⟨h.done, fun _ => h.order, fun _ _ => h.behind, fun _ _ _ _ => h.writes_apart,
    fun _ _ _ _ => h.reads_apart⟩

/-- In every interleaving, whatever the threads put and whichever constructors of `Get`
the consumers call. -/
theorem network_delivers [DecidableEq C] {blank : α} (h : (networkMachine w blank).Reachable s) :
    s.Delivers w :=
  (network_ok h).delivers

/-- A ring of two slots for two threads and a consumer. -/
def twoThreads : Wiring Bool Unit where
  size := 2
  size_pos := Nat.two_pos
  policy := .shared
  lone := fun h => by cases h
  putBarrier := [.get ()]
  putBarrier_ne_nil := List.cons_ne_nil _ _
  getBarrier _ := [.ring]
  getBarrier_ne_nil _ := List.cons_ne_nil _ _

/-- The thread that claims first commits first, though it writes last. -/
def overtaken : List (NetworkEvent Nat Bool Unit) :=
  [.put false 1, .putStep false, .put true 2, .putStep true, .putLoad true 0, .putStep true,
    .putStep true, .putStep true, .putLoad false 0, .putStep false, .putStep false, .putStep false,
    .putStep true, .get () ⟨none, true⟩, .getLoad () 0, .getStep (), .getStep (), .getStep ()]

theorem overtaken_delivers : ∃ s, (networkMachine twoThreads 0).exec
    (networkMachine twoThreads 0).start overtaken = some s ∧
      s.handled () = [1, 2] ∧ s.Delivers twoThreads := by
  have hrun : ((networkMachine twoThreads 0).exec (networkMachine twoThreads 0).start overtaken).map
      (fun s => s.handled ()) = some [1, 2] := by
    rfl
  obtain ⟨s, hs, hhandled⟩ := Option.map_eq_some_iff.mp hrun
  exact ⟨s, hs, hhandled, network_delivers ⟨overtaken, hs⟩⟩

end Network

end TradingMarket.L3
