import Mathlib.Data.List.Induction

/-! # A stream taken in batches

A consumer takes a stream in consecutive batches, adding each element to its
state and settling once after each batch. How the stream is cut makes no
difference to a state machine whose settling can be put off (`runBatches_defer`);
for any other it makes a difference only through the points at which settling
does something (`runBatches_replay`). -/
namespace TradingMarket.Lib

variable {σ α : Type*} (add : σ → α → σ) (settle : σ → σ)

/-- Batch after batch, from a state. -/
def runBatches (s : σ) (batches : List (List α)) : σ :=
  batches.foldl (fun s batch => settle (batch.foldl add s)) s

@[simp] theorem runBatches_cons (s : σ) (batch : List α) (batches : List (List α)) :
    runBatches add settle s (batch :: batches) =
      runBatches add settle (settle (batch.foldl add s)) batches := rfl

theorem runBatches_concat (s : σ) (batches : List (List α)) (batch : List α) :
    runBatches add settle s (batches ++ [batch]) =
      settle (batch.foldl add (runBatches add settle s batches)) := by
  simp [runBatches]

/-! ## Settling that can be put off -/

variable {add settle}

/-- Where settling before more elements and after them comes to settling after
them, one batch of all elements does what any number of batches do. -/
theorem runBatches_defer {s : σ} (hstart : settle s = s) {batches : List (List α)}
    (hdefer : ∀ before batch, before ++ batch <+: batches.flatten →
      settle (batch.foldl add (settle (before.foldl add s))) =
        settle ((before ++ batch).foldl add s)) :
    runBatches add settle s batches = settle (batches.flatten.foldl add s) := by
  induction batches using List.reverseRecOn with
  | nil => exact hstart.symm
  | append_singleton batches batch ih =>
    have hsplit : (batches ++ [batch]).flatten = batches.flatten ++ batch := by simp
    rw [hsplit] at hdefer ⊢
    have hbefore := ih fun before b h => hdefer before b (h.trans (List.prefix_append _ _))
    rw [runBatches_concat, hbefore]
    exact hdefer batches.flatten batch List.prefix_rfl

/-! ## The points at which settling matters -/

variable (add settle) (active : σ → Bool)

/-- How many elements of the stream had been added at each settling that did
something, `n` of them before the first batch. -/
def activePoints : Nat → σ → List (List α) → List Nat
  | _, _, [] => []
  | n, s, batch :: batches =>
    let filled := batch.foldl add s
    let rest := activePoints (n + batch.length) (settle filled) batches
    if active filled then (n + batch.length) :: rest else rest

/-- The stream, settled at the given points only. -/
def replay : Nat → σ → List Nat → List α → σ
  | _, s, [], stream => stream.foldl add s
  | n, s, p :: points, stream =>
    replay p (settle ((stream.take (p - n)).foldl add s)) points (stream.drop (p - n))

variable {add settle active}

theorem activePoints_cons (n : Nat) (s : σ) (batch : List α) (batches : List (List α)) :
    activePoints add settle active n s (batch :: batches) =
      if active (batch.foldl add s) then (n + batch.length) ::
        activePoints add settle active (n + batch.length) (settle (batch.foldl add s)) batches
      else activePoints add settle active (n + batch.length) (settle (batch.foldl add s)) batches :=
  rfl

theorem le_activePoints {n : Nat} {s : σ} {batches : List (List α)} :
    ∀ p ∈ activePoints add settle active n s batches, n ≤ p := by
  induction batches generalizing n s with
  | nil =>
    intro p hp
    cases hp
  | cons batch batches ih =>
    intro p hp
    have hrest : ∀ p ∈ activePoints add settle active (n + batch.length)
        (settle (batch.foldl add s)) batches, n ≤ p := fun p hp =>
      Nat.le_trans (Nat.le_add_right _ _) (ih p hp)
    rw [activePoints_cons] at hp
    split at hp
    · rcases List.mem_cons.mp hp with rfl | hp
      · exact Nat.le_add_right _ _
      · exact hrest p hp
    · exact hrest p hp

/-- Elements added before the first point may as well be added at once. -/
theorem replay_add {n : Nat} {s : σ} {batch stream : List α} {points : List Nat}
    (h : ∀ p ∈ points, n + batch.length ≤ p) :
    replay add settle n s points (batch ++ stream) =
      replay add settle (n + batch.length) (batch.foldl add s) points stream := by
  cases points with
  | nil => simp [replay]
  | cons p points =>
    have hp := h p List.mem_cons_self
    have hlen : p - n = batch.length + (p - (n + batch.length)) := by omega
    simp only [replay, hlen, List.take_length_add_append, List.drop_length_add_append,
      List.foldl_append]

section Replay

/- In the states of an invariant `P`, a settling that is not active does nothing. -/
variable {P : σ → Prop} (hadd : ∀ s a, P s → P (add s a)) (hsettle : ∀ s, P s → P (settle s))
  (hidle : ∀ s, P s → active s = false → settle s = s)

include hadd in
theorem foldl_add_keeps {s : σ} (hs : P s) (xs : List α) : P (xs.foldl add s) := by
  induction xs generalizing s with
  | nil => exact hs
  | cons x xs ih => exact ih (hadd s x hs)

include hadd hsettle hidle

/-- A run is a replay of the stream at its active points, however it was cut. -/
theorem runBatches_replay (n : Nat) {s : σ} (hs : P s) (batches : List (List α)) :
    runBatches add settle s batches =
      replay add settle n s (activePoints add settle active n s batches) batches.flatten := by
  induction batches generalizing n s with
  | nil => rfl
  | cons batch batches ih =>
    have hfilled := foldl_add_keeps hadd hs batch
    rw [runBatches_cons, ih (n + batch.length) (hsettle _ hfilled), List.flatten_cons,
      activePoints_cons]
    split
    · simp [replay]
    · rename_i hact
      rw [hidle _ hfilled (by simpa using hact), replay_add le_activePoints]

/-- Two cuttings of one stream with the same active points end in one state. -/
theorem runBatches_congr (n : Nat) {s : σ} (hs : P s) {batches batches' : List (List α)}
    (hstream : batches.flatten = batches'.flatten)
    (hpoints : activePoints add settle active n s batches =
      activePoints add settle active n s batches') :
    runBatches add settle s batches = runBatches add settle s batches' := by
  rw [runBatches_replay hadd hsettle hidle n hs batches,
    runBatches_replay hadd hsettle hidle n hs batches', hstream, hpoints]

end Replay

end TradingMarket.Lib
