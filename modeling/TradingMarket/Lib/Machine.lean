import Mathlib.Data.List.Basic

/-! # Event-driven machines

A machine takes one event at a time and either moves or refuses the event.
A schedule is a list of events, so every interleaving of the parties of a
concurrent program is one schedule, and a statement about all schedules is a
statement about all interleavings. Invariants are proved for one step and used
for whole runs. -/
namespace TradingMarket.Lib

/-- A machine: where it starts, and what one event does (`none`: the event
cannot happen in that state). -/
structure Machine (σ ε : Type*) where
  start : σ
  step : σ → ε → Option σ

variable {σ ε σ' : Type*}

namespace Machine

/-- The state after a schedule, if every event of it could happen. -/
def exec (M : Machine σ ε) : σ → List ε → Option σ
  | s, [] => some s
  | s, e :: es => (M.step s e).bind fun t => M.exec t es

/-- `t` can be reached from `s` by some schedule. -/
def Reaches (M : Machine σ ε) (s t : σ) : Prop := ∃ es, M.exec s es = some t

/-- A state that some run of the machine visits. -/
def Reachable (M : Machine σ ε) (s : σ) : Prop := M.Reaches M.start s

variable (M : Machine σ ε)

@[simp] theorem exec_nil (s : σ) : M.exec s [] = some s := rfl

@[simp] theorem exec_cons (s : σ) (e : ε) (es : List ε) :
    M.exec s (e :: es) = (M.step s e).bind fun t => M.exec t es := rfl

theorem exec_append (s : σ) (es fs : List ε) :
    M.exec s (es ++ fs) = (M.exec s es).bind fun t => M.exec t fs := by
  induction es generalizing s with
  | nil => rfl
  | cons e es ih =>
    cases h : M.step s e with
    | none => simp [h]
    | some t => simp [h, ih]

theorem exec_concat (s : σ) (es : List ε) (e : ε) :
    M.exec s (es ++ [e]) = (M.exec s es).bind fun t => M.step t e := by
  rw [exec_append]
  congr 1
  funext t
  simp

theorem exec_trans {s t u : σ} {es fs : List ε} (h : M.exec s es = some t)
    (h' : M.exec t fs = some u) : M.exec s (es ++ fs) = some u := by
  rw [exec_append, h]; exact h'

/-! ## Reaching -/

variable {M}

theorem Reaches.refl (s : σ) : M.Reaches s s := ⟨[], rfl⟩

theorem Reaches.trans {s t u : σ} (h : M.Reaches s t) (h' : M.Reaches t u) : M.Reaches s u := by
  obtain ⟨es, hes⟩ := h
  obtain ⟨fs, hfs⟩ := h'
  exact ⟨es ++ fs, M.exec_trans hes hfs⟩

theorem Reaches.single {s t : σ} {e : ε} (h : M.step s e = some t) : M.Reaches s t :=
  ⟨[e], by simp [h]⟩

theorem Reachable.reaches {s t : σ} (h : M.Reachable s) (h' : M.Reaches s t) : M.Reachable t :=
  h.trans h'

/-! ## Runs of certain events -/

/-- `t` is reached from `s` by events that `A` allows. -/
def ReachesBy (M : Machine σ ε) (A : ε → Prop) (s t : σ) : Prop :=
  ∃ es, (∀ e ∈ es, A e) ∧ M.exec s es = some t

theorem ReachesBy.refl {A : ε → Prop} (s : σ) : M.ReachesBy A s s :=
  ⟨[], List.forall_mem_nil A, rfl⟩

theorem ReachesBy.trans {A : ε → Prop} {s t u : σ} (h : M.ReachesBy A s t)
    (h' : M.ReachesBy A t u) : M.ReachesBy A s u := by
  obtain ⟨es, hes, ht⟩ := h
  obtain ⟨fs, hfs, hu⟩ := h'
  exact ⟨es ++ fs, List.forall_mem_append.mpr ⟨hes, hfs⟩, M.exec_trans ht hu⟩

theorem ReachesBy.single {A : ε → Prop} {s t : σ} {e : ε} (he : A e) (h : M.step s e = some t) :
    M.ReachesBy A s t :=
  ⟨[e], List.forall_mem_singleton.mpr he, by simp [h]⟩

theorem ReachesBy.reaches {A : ε → Prop} {s t : σ} (h : M.ReachesBy A s t) : M.Reaches s t := by
  obtain ⟨es, -, ht⟩ := h
  exact ⟨es, ht⟩

/-! ## Repeating one event -/

/-- `t` is reached from `s` by some number of events `e`. -/
def Repeats (M : Machine σ ε) (e : ε) (s t : σ) : Prop :=
  ∃ n, M.exec s (List.replicate n e) = some t

theorem Repeats.refl (e : ε) (s : σ) : M.Repeats e s s := ⟨0, rfl⟩

theorem Repeats.head {e : ε} {s t u : σ} (h : M.step s e = some t) (h' : M.Repeats e t u) :
    M.Repeats e s u := by
  obtain ⟨n, hn⟩ := h'
  exact ⟨n + 1, by rw [List.replicate_succ, exec_cons, h]; exact hn⟩

theorem Repeats.trans {e : ε} {s t u : σ} (h : M.Repeats e s t) (h' : M.Repeats e t u) :
    M.Repeats e s u := by
  obtain ⟨m, hm⟩ := h
  obtain ⟨n, hn⟩ := h'
  exact ⟨m + n, by rw [List.replicate_add]; exact M.exec_trans hm hn⟩

theorem Repeats.reaches {e : ε} {s t : σ} (h : M.Repeats e s t) : M.Reaches s t := by
  obtain ⟨n, hn⟩ := h
  exact ⟨_, hn⟩

/-! ## Invariants -/

/-- What every step preserves, every run preserves. -/
theorem exec_preserves {P : σ → Prop} (hstep : ∀ s e t, P s → M.step s e = some t → P t)
    {es : List ε} {s t : σ} (hs : P s) (h : M.exec s es = some t) : P t := by
  induction es generalizing s with
  | nil => cases h; exact hs
  | cons e es ih =>
    obtain ⟨u, hu, hrest⟩ := Option.bind_eq_some_iff.mp h
    exact ih (hstep s e u hs hu) hrest

theorem Reaches.preserves {P : σ → Prop} (hstep : ∀ s e t, P s → M.step s e = some t → P t)
    {s t : σ} (h : M.Reaches s t) (hs : P s) : P t := by
  obtain ⟨es, hes⟩ := h
  exact exec_preserves hstep hs hes

/-- An invariant: it holds at the start and every step from a reachable state
preserves it. -/
@[elab_as_elim]
theorem Reachable.induct {motive : (s : σ) → M.Reachable s → Prop}
    (start : motive M.start (Reaches.refl _))
    (step : ∀ s e t (hs : M.Reachable s) (he : M.step s e = some t),
      motive s hs → motive t (hs.reaches (.single he)))
    {s : σ} (h : M.Reachable s) : motive s h := by
  have both : ∃ h' : M.Reachable s, motive s h' := by
    refine Reaches.preserves (P := fun s => ∃ h' : M.Reachable s, motive s h') ?_ h ⟨_, start⟩
    intro s e t hboth he
    obtain ⟨hs, hm⟩ := hboth
    exact ⟨_, step s e t hs he hm⟩
  exact both.2

/-- Where every step of `M` is a run of `N` by events that `A` allows, by a relation
between their states, every state `M` reaches is related to one that `N` reaches so. -/
theorem Reachable.simulated {ε' : Type*} {N : Machine σ' ε'} {A : ε' → Prop} {R : σ → σ' → Prop}
    (hstart : R M.start N.start)
    (hstep : ∀ s e t u, M.Reachable s → R s u → M.step s e = some t →
      ∃ v, N.ReachesBy A u v ∧ R t v)
    {s : σ} (h : M.Reachable s) : ∃ u, N.ReachesBy A N.start u ∧ R s u := by
  induction h using Reachable.induct with
  | start => exact ⟨N.start, .refl _, hstart⟩
  | step s e t hs he ih =>
    obtain ⟨u, hu, hr⟩ := ih
    obtain ⟨v, huv, hr'⟩ := hstep s e t u hs hr he
    exact ⟨v, hu.trans huv, hr'⟩

/-! ## Runs under a condition -/

/-- Every step of the schedule is taken in a state that allows it under `C`. -/
def Along (M : Machine σ ε) (C : σ → ε → Prop) : σ → List ε → Prop
  | _, [] => True
  | s, e :: es => C s e ∧ ∀ t, M.step s e = some t → M.Along C t es

theorem along_append {C : σ → ε → Prop} {s t : σ} {es fs : List ε}
    (h : M.exec s es = some t) :
    M.Along C s (es ++ fs) ↔ M.Along C s es ∧ M.Along C t fs := by
  induction es generalizing s with
  | nil => cases h; simp [Along]
  | cons e es ih =>
    obtain ⟨u, hu, hrest⟩ := Option.bind_eq_some_iff.mp h
    simp only [List.cons_append, Along, hu, Option.some.injEq, forall_eq', ih hrest, and_assoc]

/-- A run is taken under a condition when every step of it is. -/
theorem along_iff {C : σ → ε → Prop} {es : List ε} {s : σ} :
    M.Along C s es ↔ ∀ fs e gs u, es = fs ++ e :: gs → M.exec s fs = some u → C u e := by
  induction es generalizing s with
  | nil => simp [Along]
  | cons e es ih =>
    simp only [Along, ih]
    constructor
    · intro h fs f gs u hsplit hu
      obtain ⟨hc, hrest⟩ := h
      cases fs with
      | nil =>
        obtain ⟨rfl, rfl⟩ := List.cons.inj hsplit
        cases hu
        exact hc
      | cons f' fs =>
        obtain ⟨rfl, rfl⟩ := List.cons.inj hsplit
        obtain ⟨t, ht, hu⟩ := Option.bind_eq_some_iff.mp hu
        exact hrest t ht fs f gs u rfl hu
    · intro h
      refine ⟨h [] e es s rfl rfl, fun t ht fs f gs u hsplit hu => ?_⟩
      exact h (e :: fs) f gs u (by rw [hsplit]; rfl) (by rw [exec_cons, ht]; exact hu)

/-- Conditions that agree on every step of a run hold along the same runs. -/
theorem along_congr {C D : σ → ε → Prop} {es : List ε} {s t : σ} (h : M.exec s es = some t)
    (hcd : ∀ u e v, M.Reaches s u → M.step u e = some v → (C u e ↔ D u e)) :
    M.Along C s es ↔ M.Along D s es := by
  induction es generalizing s with
  | nil => exact Iff.rfl
  | cons e es ih =>
    obtain ⟨u, hu, hrest⟩ := Option.bind_eq_some_iff.mp h
    have htail := ih hrest fun v f w hv hf => hcd v f w ((Reaches.single hu).trans hv) hf
    simp only [Along, hu, Option.some.injEq, forall_eq', hcd s e u (.refl s) hu, htail]

/-- What every step preserves under a condition, every run under it preserves. -/
theorem exec_preserves_along {C : σ → ε → Prop} {P : σ → Prop}
    (hstep : ∀ s e t, C s e → P s → M.step s e = some t → P t) {es : List ε} {s t : σ}
    (hs : P s) (hc : M.Along C s es) (h : M.exec s es = some t) : P t := by
  induction es generalizing s with
  | nil => cases h; exact hs
  | cons e es ih =>
    obtain ⟨u, hu, hrest⟩ := Option.bind_eq_some_iff.mp h
    exact ih (hstep s e u hc.1 hs hu) (hc.2 u hu) hrest

/-- Runs under a condition are runs of another machine, where the steps under it are its
steps by a map of the states. -/
theorem exec_map_along {N : Machine σ' ε} {f : σ → σ'} {C : σ → ε → Prop}
    (hstep : ∀ s e, N.Reachable (f s) → C s e → (M.step s e).map f = N.step (f s) e)
    {es : List ε} {s : σ} (hs : N.Reachable (f s)) (hc : M.Along C s es) :
    (M.exec s es).map f = N.exec (f s) es := by
  induction es generalizing s with
  | nil => rfl
  | cons e es ih =>
    have he := hstep s e hs hc.1
    rw [exec_cons, exec_cons, ← he]
    cases ht : M.step s e with
    | none => rfl
    | some t =>
      rw [ht] at he
      exact ih (hs.reaches (.single he.symm)) (hc.2 t ht)

end Machine

end TradingMarket.Lib
