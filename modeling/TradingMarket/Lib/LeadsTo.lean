import TradingMarket.Lib.Fair

/-! # What leads to what

Where each event of a machine is a step of one of its parties, a schedule
without end is fair to the parties when none of them that has something to do is
left out for ever. What a party does then leads to a goal if its own steps lower
a rank and the steps of the others do not raise it
(`FairToParties.leadsTo`). Goals of single parties are put together by
`LeadsTo.trans`, `LeadsTo.all` and `LeadsTo.unless`. -/
namespace TradingMarket.Lib.Machine

variable {σ ε π ρ : Type*} {M : Machine σ ε} {A : ε → Prop} {party : ε → π} {busy : σ → π → Prop}
  {schedule : Nat → ε} {s : σ} {P Q R : σ → Prop}

/-- Whenever `P` holds in the course of the schedule, `Q` holds then or later. -/
def LeadsTo (M : Machine σ ε) (schedule : Nat → ε) (s : σ) (P Q : σ → Prop) : Prop :=
  ∀ n, P (M.stateAt schedule s n) → ∃ m, n ≤ m ∧ Q (M.stateAt schedule s m)

/-- Once `P` holds in the course of the schedule, it does from then on. -/
def Lasts (M : Machine σ ε) (schedule : Nat → ε) (s : σ) (P : σ → Prop) : Prop :=
  ∀ n m, n ≤ m → P (M.stateAt schedule s n) → P (M.stateAt schedule s m)

/-- Every party moves again and again, as long as it has something to do; the events
are in the class `A`. -/
structure FairToParties (M : Machine σ ε) (A : ε → Prop) (party : ε → π) (busy : σ → π → Prop)
    (schedule : Nat → ε) (s : σ) : Prop where
  only : ∀ n, A (schedule n)
  again : ∀ p n, ∃ m, n ≤ m ∧ (busy (M.stateAt schedule s m) p →
    party (schedule m) = p ∧ M.step (M.stateAt schedule s m) (schedule m) ≠ none)

/-! ## States of a schedule -/

/-- An event of a schedule happens or is passed over. -/
theorem stateAt_next (M : Machine σ ε) (schedule : Nat → ε) (s : σ) (n : Nat) :
    M.stateAt schedule s (n + 1) = M.stateAt schedule s n ∨
      M.step (M.stateAt schedule s n) (schedule n) = some (M.stateAt schedule s (n + 1)) := by
  rw [stateAt_succ]
  cases M.step (M.stateAt schedule s n) (schedule n) with
  | none => exact .inl rfl
  | some t => exact .inr rfl

theorem stateAt_reaches (M : Machine σ ε) (schedule : Nat → ε) (s : σ) {n m : Nat} (hm : n ≤ m) :
    M.Reaches (M.stateAt schedule s n) (M.stateAt schedule s m) := by
  induction m, hm using Nat.le_induction with
  | base => exact .refl _
  | succ m _ ih =>
    rcases stateAt_next M schedule s m with heq | hstep
    · rw [heq]
      exact ih
    · exact ih.trans (.single hstep)

theorem stateAt_reachable (hs : M.Reachable s) (schedule : Nat → ε) (n : Nat) :
    M.Reachable (M.stateAt schedule s n) :=
  hs.reaches (stateAt_reaches M schedule s (Nat.zero_le n))

/-- What each event keeps unless it comes to `Q` is there until `Q` is. -/
theorem until_goal (hstep : ∀ n, P (M.stateAt schedule s n) →
    Q (M.stateAt schedule s (n + 1)) ∨ P (M.stateAt schedule s (n + 1)))
    {n m : Nat} (hm : n ≤ m) (h : P (M.stateAt schedule s n)) :
    (∃ k, n ≤ k ∧ Q (M.stateAt schedule s k)) ∨ P (M.stateAt schedule s m) := by
  induction m, hm using Nat.le_induction with
  | base => exact .inr h
  | succ m hm ih =>
    rcases ih with hgoal | hP
    · exact .inl hgoal
    · rcases hstep m hP with hQ | hP'
      · exact .inl ⟨m + 1, Nat.le_succ_of_le hm, hQ⟩
      · exact .inr hP'

/-! ## Chains of goals -/

theorem LeadsTo.of_imp (h : ∀ n, P (M.stateAt schedule s n) → Q (M.stateAt schedule s n)) :
    M.LeadsTo schedule s P Q :=
  fun n hP => ⟨n, le_rfl, h n hP⟩

theorem LeadsTo.trans (h : M.LeadsTo schedule s P Q) (h' : M.LeadsTo schedule s Q R) :
    M.LeadsTo schedule s P R := by
  intro n hP
  obtain ⟨m, hm, hQ⟩ := h n hP
  obtain ⟨k, hk, hR⟩ := h' m hQ
  exact ⟨k, hm.trans hk, hR⟩

/-- Goals that last are all there some time. -/
theorem LeadsTo.all {ι : Type*} {Q : ι → σ → Prop} {l : List ι}
    (h : ∀ i ∈ l, M.LeadsTo schedule s P (Q i)) (hlasts : ∀ i ∈ l, M.Lasts schedule s (Q i)) :
    M.LeadsTo schedule s P (fun u => ∀ i ∈ l, Q i u) := by
  induction l with
  | nil => exact .of_imp fun n _ i hi => absurd hi List.not_mem_nil
  | cons a l ih =>
    intro n hP
    obtain ⟨m, hm, ha⟩ := h a List.mem_cons_self n hP
    obtain ⟨k, hk, hl⟩ := ih (fun i hi => h i (List.mem_cons_of_mem a hi))
      (fun i hi => hlasts i (List.mem_cons_of_mem a hi)) n hP
    refine ⟨max m k, hm.trans (le_max_left m k), fun i hi => ?_⟩
    rcases List.mem_cons.mp hi with rfl | hi
    · exact hlasts i List.mem_cons_self m _ (le_max_left m k) ha
    · exact hlasts i (List.mem_cons_of_mem a hi) k _ (le_max_right m k) (hl i hi)

/-- What can only end with `Q` comes to `Q` if it comes to something that it excludes. -/
theorem LeadsTo.unless (h : M.LeadsTo schedule s P R)
    (hstep : ∀ n, P (M.stateAt schedule s n) →
      Q (M.stateAt schedule s (n + 1)) ∨ P (M.stateAt schedule s (n + 1)))
    (hends : ∀ n, P (M.stateAt schedule s n) → ¬ R (M.stateAt schedule s n)) :
    M.LeadsTo schedule s P Q := by
  intro n hP
  obtain ⟨m, hm, hR⟩ := h n hP
  exact (until_goal hstep hm hP).resolve_right fun hP' => hends m hP' hR

/-! ## Goals of a party -/

/-- A party whose steps lower the rank, which the others do not raise, comes to its goal. -/
theorem FairToParties.leadsTo [Preorder ρ] [WellFoundedLT ρ]
    (h : M.FairToParties A party busy schedule s) (hs : M.Reachable s) (p : π) (rank : σ → ρ)
    (hbusy : ∀ u, M.Reachable u → P u → busy u p)
    (hstep : ∀ u e v, M.Reachable u → P u → A e → M.step u e = some v →
      Q v ∨ P v ∧ rank v ≤ rank u ∧ (party e = p → rank v < rank u)) :
    M.LeadsTo schedule s P Q := by
  have hall : ∀ (r : ρ) (n : Nat), P (M.stateAt schedule s n) ∧ rank (M.stateAt schedule s n) ≤ r →
      ∃ m, n ≤ m ∧ Q (M.stateAt schedule s m) := by
    intro r
    induction r using WellFoundedLT.induction with
    | ind r ih =>
      intro n hn
      obtain ⟨m, hm, hmoves⟩ := h.again p n
      have hkeeps : ∀ i, P (M.stateAt schedule s i) ∧ rank (M.stateAt schedule s i) ≤ r →
          Q (M.stateAt schedule s (i + 1)) ∨
            P (M.stateAt schedule s (i + 1)) ∧ rank (M.stateAt schedule s (i + 1)) ≤ r := by
        intro i hi
        rcases stateAt_next M schedule s i with heq | hnext
        · rw [heq]
          exact .inr hi
        · have hi' := stateAt_reachable hs schedule i
          rcases hstep _ _ _ hi' hi.1 (h.only i) hnext with hQ | ⟨hP, hle, -⟩
          · exact .inl hQ
          · exact .inr ⟨hP, hle.trans hi.2⟩
      rcases until_goal (P := fun u => P u ∧ rank u ≤ r) hkeeps hm hn with hgoal | hmP
      · exact hgoal
      -- the party moves
      have hreachable := stateAt_reachable hs schedule m
      obtain ⟨hparty, hhappens⟩ := hmoves (hbusy _ hreachable hmP.1)
      obtain ⟨t, ht⟩ := Option.ne_none_iff_exists'.mp hhappens
      obtain rfl : M.stateAt schedule s (m + 1) = t := by
        rw [stateAt_succ, ht]
        rfl
      rcases hstep _ _ _ hreachable hmP.1 (h.only m) ht with hQ | ⟨hP, -, hless⟩
      · exact ⟨m + 1, Nat.le_succ_of_le hm, hQ⟩
      · obtain ⟨k, hk, hQ⟩ := ih _ ((hless hparty).trans_le hmP.2) (m + 1) ⟨hP, le_rfl⟩
        exact ⟨k, (Nat.le_succ_of_le hm).trans hk, hQ⟩
  exact fun n hP => hall _ n ⟨hP, le_rfl⟩

/-- A schedule that is fair to events is fair to parties, if a party that has something to
do has an event, which the others do not take from it. -/
theorem fairToParties_of_fair {fair : ε → Prop} (h : Fair fair schedule) (hs : M.Reachable s)
    (hA : ∀ e, fair e → A e)
    (hbusy : ∀ u p, M.Reachable u → busy u p → ∃ e, fair e ∧ party e = p ∧ M.step u e ≠ none)
    (hstays : ∀ u e f v, M.Reachable u → M.step u e ≠ none → M.step u f = some v →
      party f ≠ party e → M.step v e ≠ none) :
    M.FairToParties A party busy schedule s := by
  refine ⟨fun n => hA _ (h.only n), fun p n => ?_⟩
  by_cases hidle : busy (M.stateAt schedule s n) p
  · obtain ⟨e, he, rfl, hcan⟩ := hbusy _ p (stateAt_reachable hs schedule n) hidle
    obtain ⟨m, hm, hat⟩ := h.again e he n
    -- the event is there when its turn comes, or the party has moved before
    have hkeeps : ∀ i, M.step (M.stateAt schedule s i) e ≠ none →
        ¬ (party (schedule i) = party e ∧ M.step (M.stateAt schedule s i) (schedule i) ≠ none) →
        M.step (M.stateAt schedule s (i + 1)) e ≠ none := by
      intro i hi hother
      rcases stateAt_next M schedule s i with heq | hnext
      · rw [heq]
        exact hi
      · have hreachable := stateAt_reachable hs schedule i
        refine hstays _ e _ _ hreachable hi hnext fun hparty => hother ⟨hparty, ?_⟩
        rw [hnext]
        exact Option.some_ne_none _
    by_contra hnever
    push Not at hnever
    have hstill : ∀ i, n ≤ i → M.step (M.stateAt schedule s i) e ≠ none := by
      intro i hi
      induction i, hi using Nat.le_induction with
      | base => exact hcan
      | succ i hi ih => exact hkeeps i ih fun hmoved => hmoved.2 ((hnever i hi).2 hmoved.1)
    refine hstill m hm ?_
    rw [← hat]
    exact (hnever m hm).2 (congrArg party hat)
  · exact ⟨n, le_rfl, fun hbusy => absurd hbusy hidle⟩

/-- Events taken in turn. -/
theorem fair_turns (turns : List ε) (hpos : 0 < turns.length) :
    Fair (· ∈ turns) fun n => turns.get ⟨n % turns.length, Nat.mod_lt n hpos⟩ := by
  refine ⟨fun n => List.get_mem _ _, fun e he n => ?_⟩
  obtain ⟨i, hi, rfl⟩ := List.mem_iff_getElem.mp he
  refine ⟨turns.length * n + i, ?_, ?_⟩
  · exact (Nat.le_mul_of_pos_left n hpos).trans (Nat.le_add_right _ i)
  · simp [Nat.mod_eq_of_lt hi]

end TradingMarket.Lib.Machine
