import Mathlib.Data.List.Infix
import TradingMarket.L3.Disruptor

/-! # Consumers of an L3 ring

A thread that loops over the batches of a `Get`, one atomic access at a time,
and what a ring guarantees when its threads name each other as barriers: the
first consumer waits for the cursor of the ring, the second for the first, and
`Put` for the second. Then the second takes what the first has taken and the
first what has been put, in the order of the ring and each message once, and
`Put` never writes a slot whose message the second has not taken (`Pipeline`).

The three parts of the invariant are proved one by one. A thread needs of the
others only that their cursors and what they have taken grow. -/
namespace TradingMarket.L3

variable {α : Type}

/-- Where the thread of a `Get` is: in its constructor, or in the loop over the
batch it has got. -/
inductive GetPc where
  | waitBatch
  | batch (index last : Nat)
deriving DecidableEq, Repr

/-- A consumer: the cursor of its `Get`, and where its thread is. -/
structure Get where
  cursor : Nat
  pc : GetPc := .waitBatch
deriving DecidableEq, Repr

/-- One step of `for (auto & msg : Get())` in an endless loop, with `barrier` for
`Barrier::least()`, and the message the body of the loop is run for. -/
def Get.step (size barrier : Nat) (d : Disruptor α) (g : Get) : Get × Option α :=
  match g.pc with
  | .waitBatch =>
    match claimBatch barrier g.cursor with
    | none => (g, none)
    | some last => ({ g with pc := .batch g.cursor last }, none)
  | .batch index last =>
    -- the destructor of `Get` stores the end of the batch
    if index = last then ({ cursor := last, pc := .waitBatch }, none)
    else ({ g with pc := .batch (index + 1) last }, some (d.read size index))

/-- The next slot the thread takes a message from. -/
def Get.index (g : Get) : Nat :=
  match g.pc with
  | .waitBatch => g.cursor
  | .batch index _ => index

/-- The end of what the thread may take before it looks at its barrier again. -/
def Get.last (g : Get) : Nat :=
  match g.pc with
  | .waitBatch => g.cursor
  | .batch _ last => last

variable {size barrier barrier' : Nat} {d d' : Disruptor α} {g g' : Get} {msg : α}

@[simp] theorem index_waitBatch (cursor : Nat) : (Get.mk cursor .waitBatch).index = cursor := rfl
@[simp] theorem last_waitBatch (cursor : Nat) : (Get.mk cursor .waitBatch).last = cursor := rfl
@[simp] theorem index_batch (cursor index last : Nat) :
    (Get.mk cursor (.batch index last)).index = index := rfl
@[simp] theorem last_batch (cursor index last : Nat) :
    (Get.mk cursor (.batch index last)).last = last := rfl

/-- The ways a consumer moves. -/
inductive GetStep (size barrier : Nat) (d : Disruptor α) (g : Get) : Get → Option α → Prop
  | spin : GetStep size barrier d g g none
  | take : g.pc = .waitBatch → g.cursor < barrier →
      GetStep size barrier d g { g with pc := .batch g.cursor barrier } none
  | handle {index last : Nat} : g.pc = .batch index last → index ≠ last →
      GetStep size barrier d g { g with pc := .batch (index + 1) last } (some (d.read size index))
  | release {last : Nat} : g.pc = .batch last last →
      GetStep size barrier d g { cursor := last, pc := .waitBatch } none

theorem getStep_cases {taken : Option α} (h : g.step size barrier d = (g', taken)) :
    GetStep size barrier d g g' taken := by
  unfold Get.step at h
  split at h
  · rename_i hpc
    unfold claimBatch at h
    split at h
    · cases h
      exact .spin
    · rename_i last hlast
      cases h
      split at hlast
      · cases hlast
      · rename_i hlt
        cases hlast
        exact .take hpc (Nat.lt_of_not_le hlt)
  · rename_i index last hpc
    split at h
    · rename_i heq
      cases h
      exact .release (heq ▸ hpc)
    · rename_i hne
      cases h
      exact .handle hpc hne

/-! ## A consumer follows its barrier -/

/-- The consumer has taken a part of `source` from its front, one message for each
slot it has passed, and its batch ends before the barrier. -/
structure Get.Follows (size barrier : Nat) (source taken : List α) (g : Get) : Prop where
  begun : g.cursor ≤ g.index
  within : g.index ≤ g.last
  bound : g.last ≤ barrier
  count : size + taken.length = g.index
  order : taken <+: source

/-- A consumer before its first batch. -/
theorem follows_new (source : List α) (h : size ≤ barrier) :
    (Get.mk size .waitBatch).Follows size barrier source [] :=
  ⟨le_refl size, le_refl size, h, rfl, List.nil_prefix⟩

/-- A step of the consumer, when the slot it is at holds what comes next. -/
theorem Get.Follows.step {source taken : List α} {msg : Option α}
    (h : g.Follows size barrier source taken) (hsource : barrier ≤ size + source.length)
    (hread : ∀ o, source[taken.length]? = some o → d.read size (size + taken.length) = o)
    (hs : GetStep size barrier d g g' msg) : g'.Follows size barrier source (taken ++ msg.toList) := by
  obtain ⟨hbegun, hwithin, hbound, hcount, horder⟩ := h
  obtain ⟨cursor, pc⟩ := g
  cases hs with
  | spin => exact ⟨hbegun, hwithin, hbound, by simpa using hcount, by simpa using horder⟩
  | take hpc hlt =>
    cases hpc
    exact ⟨le_refl cursor, Nat.le_of_lt hlt, le_refl barrier, by simpa using hcount,
      by simpa using horder⟩
  | release hpc =>
    cases hpc
    exact ⟨le_refl _, le_refl _, hbound, by simpa using hcount, by simpa using horder⟩
  | @handle index last hpc hne =>
    cases hpc
    simp only [index_batch, last_batch] at hbegun hwithin hbound hcount
    have hmore : index < last := Nat.lt_of_le_of_ne hwithin hne
    have hlen : taken.length < source.length := by omega
    have hnext : d.read size index = source[taken.length] := by
      rw [← hcount]
      exact hread _ (List.getElem?_eq_getElem hlen)
    refine ⟨Nat.le_succ_of_le hbegun, hmore, hbound, ?_, ?_⟩
    · simp [← hcount, Nat.add_assoc]
    · rw [hnext]
      exact List.concat_get_prefix horder hlen

/-- What the other threads do to a consumer: its barrier moves on and its source grows. -/
theorem Get.Follows.mono {source source' taken : List α} (h : g.Follows size barrier source taken)
    (hbarrier : barrier ≤ barrier') (hsource : source <+: source') :
    g.Follows size barrier' source' taken :=
  ⟨h.begun, h.within, Nat.le_trans h.bound hbarrier, h.count, h.order.trans hsource⟩

/-- The cursor of a consumer only moves on. -/
theorem GetStep.cursor_le {source taken : List α} {msg : Option α}
    (hs : GetStep size barrier d g g' msg) (h : g.Follows size barrier source taken) :
    g.cursor ≤ g'.cursor := by
  obtain ⟨cursor, pc⟩ := g
  cases hs with
  | spin | take | handle => exact le_refl cursor
  | release hpc =>
    cases hpc
    exact Nat.le_trans h.begun h.within

theorem Get.Follows.cursor_le {source taken : List α} (h : g.Follows size barrier source taken) :
    g.cursor ≤ barrier :=
  Nat.le_trans h.begun (Nat.le_trans h.within h.bound)

/-! ## The ring keeps what is not taken -/

/-- Where the thread of a `Put` of `msg` is, as the ring shows it. -/
def PutPc.Place (size barrier : Nat) (msg : α) (d : Disruptor α) : PutPc → Prop
  | .claim => d.putCursor = d.cursor
  | .waitBarrier slot => slot = d.cursor ∧ d.putCursor = d.cursor + 1
  | .write slot => slot = d.cursor ∧ d.putCursor = d.cursor + 1 ∧ slot - size < barrier
  | .commit slot => slot = d.cursor ∧ d.putCursor = d.cursor + 1 ∧ d.read size slot = msg

/-- The committed slots are the messages put. From the barrier on they are in the
ring. One thread puts; `putting` is the message of its `Put` and where it is. -/
structure Disruptor.Keeps (size barrier : Nat) (put : List α) (putting : Option (α × PutPc))
    (d : Disruptor α) : Prop where
  cursor : d.cursor = size + put.length
  bound : barrier ≤ d.cursor
  held : ∀ k msg, put[k]? = some msg → barrier ≤ size + k → d.read size (size + k) = msg
  idle : putting = none → d.putCursor = d.cursor
  place : ∀ msg pc, putting = some (msg, pc) → pc.Place size barrier msg d

theorem keeps_new (blank : α) : (Disruptor.new size blank).Keeps size size [] none :=
  ⟨rfl, le_refl size, nofun, fun _ => rfl, nofun⟩

theorem Disruptor.Keeps.putCursor_le {put : List α} {putting : Option (α × PutPc)}
    (h : d.Keeps size barrier put putting) : d.putCursor ≤ d.cursor + 1 := by
  cases hputting : putting with
  | none => exact (h.idle hputting).le.trans (Nat.le_succ _)
  | some x =>
    have hplace := h.place x.1 x.2 hputting
    cases hpc : x.2 <;> rw [hpc] at hplace <;> unfold PutPc.Place at hplace <;> omega

/-- Slots that are less than a lap apart are different. -/
theorem mod_ne_of_lap {i j : Nat} (hij : i < j) (hlap : j < i + size) : i % size ≠ j % size := by
  intro h
  have hdvd : size ∣ j - i := Nat.dvd_of_mod_eq_zero (Nat.sub_mod_eq_zero_of_mod_eq h.symm)
  have hle := Nat.le_of_dvd (Nat.sub_pos_of_lt hij) hdvd
  omega

theorem read_write_ne {i slot : Nat} (h : i % size ≠ slot % size) :
    (d.write size slot msg).read size i = d.read size i :=
  Function.update_of_ne h _ _

/-- `Put` of a message is called. -/
theorem Disruptor.Keeps.call {put : List α} (h : d.Keeps size barrier put none) (msg : α) :
    d.Keeps size barrier put (some (msg, .claim)) :=
  ⟨h.cursor, h.bound, h.held, nofun, fun _ _ hpc => by cases hpc; exact h.idle rfl⟩

/-- A step of the `Put` that does not end it. -/
theorem Disruptor.Keeps.step {put : List α} {pc pc' : PutPc}
    (h : d.Keeps size barrier put (some (msg, pc))) (hs : PutStep size barrier msg d pc d' (some pc')) :
    d'.Keeps size barrier put (some (msg, pc')) := by
  obtain ⟨hcursor, hbound, hheld, -, hplace⟩ := h
  have hplace := hplace msg pc rfl
  cases hs with
  | claim =>
    refine ⟨hcursor, hbound, hheld, nofun, fun _ _ hpc => ?_⟩
    cases hpc
    exact ⟨hplace, congrArg (· + 1) hplace⟩
  | full =>
    exact ⟨hcursor, hbound, hheld, nofun, fun _ _ hpc => by cases hpc; exact hplace⟩
  | room hroom =>
    exact ⟨hcursor, hbound, hheld, nofun, fun _ _ hpc => by cases hpc; exact ⟨hplace.1, hplace.2, hroom⟩⟩
  | waitTurn =>
    exact ⟨hcursor, hbound, hheld, nofun, fun _ _ hpc => by cases hpc; exact hplace⟩
  | @write slot =>
    obtain ⟨hslot, hput, hroom⟩ := hplace
    refine ⟨hcursor, hbound, fun k o hk hle => ?_, nofun, fun _ _ hpc => ?_⟩
    · -- the slot is less than a lap ahead of every message not taken
      have hlen : k < put.length := (List.getElem?_eq_some_iff.mp hk).1
      rw [read_write_ne (mod_ne_of_lap (by omega) (by omega))]
      exact hheld k o hk hle
    · cases hpc
      exact ⟨hslot, hput, read_write _ _ _ _⟩

/-- The commit makes the message the next one put. -/
theorem Disruptor.Keeps.commit {put : List α} {pc : PutPc}
    (h : d.Keeps size barrier put (some (msg, pc))) (hs : PutStep size barrier msg d pc d' none) :
    d'.Keeps size barrier (put ++ [msg]) none := by
  obtain ⟨hcursor, hbound, hheld, -, hplace⟩ := h
  have hplace := hplace msg pc rfl
  cases hs with
  | @commit slot =>
    obtain ⟨hslot, hput, hread⟩ := hplace
    refine ⟨?_, Nat.le_succ_of_le hbound, fun k o hk hle => ?_, fun _ => hput, nofun⟩
    · rw [List.length_append, ← Nat.add_assoc, ← hcursor]
      rfl
    · rcases Nat.lt_or_ge k put.length with hlt | hge
      · rw [List.getElem?_append_left hlt] at hk
        exact hheld k o hk hle
      · have hlen := (List.getElem?_eq_some_iff.mp hk).1
        obtain rfl : k = put.length := by simp at hlen; omega
        rw [List.getElem?_concat_length] at hk
        rw [← hcursor, ← hslot, ← Option.some.inj hk]
        exact hread

/-- What the consumers do to the ring: the barrier of `Put` moves on. -/
theorem Disruptor.Keeps.mono {put : List α} {putting : Option (α × PutPc)}
    (h : d.Keeps size barrier put putting) (hbarrier : barrier ≤ barrier')
    (hbound : barrier' ≤ d.cursor) : d.Keeps size barrier' put putting := by
  obtain ⟨hcursor, -, hheld, hidle, hplace⟩ := h
  refine ⟨hcursor, hbound, fun k o hk hle => hheld k o hk (Nat.le_trans hbarrier hle), hidle, ?_⟩
  intro o pc hpc
  have hat := hplace o pc hpc
  cases pc with
  | claim | waitBarrier | commit => exact hat
  | write slot => exact ⟨hat.1, hat.2.1, Nat.lt_of_lt_of_le hat.2.2 hbarrier⟩

/-- A `Put` is about to write only a slot of which every earlier message is before
the barrier. -/
theorem Disruptor.Keeps.write_free {put : List α} {slot k : Nat}
    (h : d.Keeps size barrier put (some (msg, .write slot))) (hk : k < put.length)
    (hslot : (size + k) % size = slot % size) : size + k < barrier := by
  obtain ⟨hat, -, hroom⟩ := h.place msg _ rfl
  have hcursor := h.cursor
  by_contra hge
  exact mod_ne_of_lap (by omega) (by omega) hslot

/-! ## Two consumers, one after the other -/

/-- The first consumer waits for the cursor of the ring, the second for the first,
and `Put` for the second. -/
structure Pipeline (size : Nat) (put taken₁ taken₂ : List α) (putting : Option (α × PutPc))
    (d : Disruptor α) (get₁ get₂ : Get) : Prop where
  ring : d.Keeps size get₂.cursor put putting
  first : get₁.Follows size d.cursor put taken₁
  second : get₂.Follows size get₁.cursor taken₁ taken₂

section Pipeline
variable {put taken₁ taken₂ : List α} {putting : Option (α × PutPc)} {get₁ get₂ get' : Get}

theorem pipeline_new (blank : α) :
    Pipeline size [] [] [] none (.new size blank) (.mk size .waitBatch) (.mk size .waitBatch) :=
  ⟨keeps_new blank, follows_new [] (le_refl size), follows_new [] (le_refl size)⟩

theorem Pipeline.call (h : Pipeline size put taken₁ taken₂ none d get₁ get₂) (msg : α) :
    Pipeline size put taken₁ taken₂ (some (msg, .claim)) d get₁ get₂ :=
  ⟨h.ring.call msg, h.first, h.second⟩

theorem Pipeline.putStep {pc pc' : PutPc}
    (h : Pipeline size put taken₁ taken₂ (some (msg, pc)) d get₁ get₂)
    (hs : PutStep size get₂.cursor msg d pc d' (some pc')) :
    Pipeline size put taken₁ taken₂ (some (msg, pc')) d' get₁ get₂ := by
  have hring := h.ring.step hs
  have hsame : d.cursor ≤ d'.cursor := by rw [h.ring.cursor, hring.cursor]
  exact ⟨hring, h.first.mono hsame List.prefix_rfl, h.second⟩

theorem Pipeline.commit {pc : PutPc}
    (h : Pipeline size put taken₁ taken₂ (some (msg, pc)) d get₁ get₂)
    (hs : PutStep size get₂.cursor msg d pc d' none) :
    Pipeline size (put ++ [msg]) taken₁ taken₂ none d' get₁ get₂ := by
  have hring := h.ring.commit hs
  have hmore : d.cursor ≤ d'.cursor := by
    rw [h.ring.cursor, hring.cursor, List.length_append]
    omega
  exact ⟨hring, h.first.mono hmore (List.prefix_append _ _), h.second⟩

theorem Pipeline.firstStep {taken : Option α}
    (h : Pipeline size put taken₁ taken₂ putting d get₁ get₂)
    (hs : GetStep size d.cursor d get₁ get' taken) :
    Pipeline size put (taken₁ ++ taken.toList) taken₂ putting d get' get₂ := by
  have hahead : get₂.cursor ≤ size + taken₁.length := by
    rw [h.first.count]
    exact Nat.le_trans h.second.cursor_le h.first.begun
  have hfirst := h.first.step h.ring.cursor.le (fun o ho => h.ring.held _ o ho hahead) hs
  exact ⟨h.ring, hfirst, h.second.mono (hs.cursor_le h.first) (List.prefix_append _ _)⟩

theorem Pipeline.secondStep {taken : Option α}
    (h : Pipeline size put taken₁ taken₂ putting d get₁ get₂)
    (hs : GetStep size get₁.cursor d get₂ get' taken) :
    Pipeline size put taken₁ (taken₂ ++ taken.toList) putting d get₁ get' := by
  have hsource : get₁.cursor ≤ size + taken₁.length := by
    rw [h.first.count]
    exact h.first.begun
  have hahead : get₂.cursor ≤ size + taken₂.length := by
    rw [h.second.count]
    exact h.second.begun
  have hread : ∀ o, taken₁[taken₂.length]? = some o → d.read size (size + taken₂.length) = o := by
    intro o ho
    obtain ⟨hlen, rfl⟩ := List.getElem?_eq_some_iff.mp ho
    exact h.ring.held _ _ (by rw [h.first.order.getElem hlen]; exact List.getElem?_eq_getElem _) hahead
  have hsecond := h.second.step hsource hread hs
  have hbound := Nat.le_trans hsecond.cursor_le h.first.cursor_le
  exact ⟨h.ring.mono (hs.cursor_le h.second) hbound, h.first, hsecond⟩

/-- A slot that `Put` is about to write holds no message the second has not taken. -/
theorem Pipeline.write_free {slot k : Nat}
    (h : Pipeline size put taken₁ taken₂ (some (msg, .write slot)) d get₁ get₂)
    (hk : k < put.length) (hslot : (size + k) % size = slot % size) : k < taken₂.length := by
  have hbehind := h.ring.write_free hk hslot
  have hbegun := h.second.begun
  have hcount := h.second.count
  omega

/-- What the second has not taken is in the ring. -/
theorem Pipeline.held {k : Nat} (h : Pipeline size put taken₁ taken₂ putting d get₁ get₂)
    (hput : put[k]? = some msg) (hk : taken₂.length ≤ k) : d.read size (size + k) = msg := by
  have hbegun := h.second.begun
  have hcount := h.second.count
  exact h.ring.held k msg hput (by omega)

end Pipeline

end TradingMarket.L3
