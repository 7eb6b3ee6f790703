import Mathlib.Algebra.BigOperators.Group.List.Basic
import Mathlib.Algebra.Group.Basic
import Mathlib.Algebra.Group.Subgroup.Defs
import Mathlib.Data.List.Nodup
import Mathlib.Logic.Relation
import Mathlib.Tactic.Abel

/-! # Ledgers of accounts that are opened, drawn on and closed

An account is opened with an amount, draws are taken from it one by one, and it
may be closed once it has been drawn on and what is left is `small`. As long as
no key is opened twice, what was opened is what is left plus what was drawn. -/
namespace TradingMarket.Lib

variable {κ Q : Type*}

structure Ledger (κ Q : Type*) where
  accounts : List (κ × Q)
  opened : List (κ × Q)
  draws : List (κ × Q)

namespace Ledger

/-- What was drawn under a key. -/
def drawn [DecidableEq κ] [AddCommMonoid Q] (draws : List (κ × Q)) (k : κ) : Q :=
  ((draws.filter fun d => d.1 = k).map Prod.snd).sum

inductive Step [Sub Q] (small : Q → Prop) : Ledger κ Q → Ledger κ Q → Prop
  | opening (l r : List (κ × Q)) (k : κ) (q : Q) (opened draws : List (κ × Q)) :
      Step small ⟨l ++ r, opened, draws⟩ ⟨l ++ (k, q) :: r, opened ++ [(k, q)], draws⟩
  | draw (l r : List (κ × Q)) (k : κ) (q x : Q) (opened draws : List (κ × Q)) :
      Step small ⟨l ++ (k, q) :: r, opened, draws⟩
        ⟨l ++ (k, q - x) :: r, opened, draws ++ [(k, x)]⟩
  | close (l r : List (κ × Q)) (k : κ) (q : Q) (opened draws : List (κ × Q)) :
      small q → k ∈ draws.map Prod.fst →
      Step small ⟨l ++ (k, q) :: r, opened, draws⟩ ⟨l ++ r, opened, draws⟩

theorem mem_middle {x a : κ × Q} {l r : List (κ × Q)} :
    x ∈ l ++ a :: r ↔ x = a ∨ x ∈ l ++ r := by
  rw [List.perm_middle.mem_iff, List.mem_cons]

theorem keys_middle {k : κ} {q : Q} {l r : List (κ × Q)} :
    ((l ++ (k, q) :: r).map Prod.fst).Nodup ↔
      k ∉ (l ++ r).map Prod.fst ∧ ((l ++ r).map Prod.fst).Nodup := by
  have hp : (l ++ (k, q) :: r).Perm ((k, q) :: (l ++ r)) := List.perm_middle
  replace hp := hp.map Prod.fst
  rw [hp.nodup_iff, List.map_cons, List.nodup_cons]

theorem mem_keys_middle {j : κ} {a : κ × Q} {l r : List (κ × Q)} :
    j ∈ (l ++ a :: r).map Prod.fst ↔ j = a.1 ∨ j ∈ (l ++ r).map Prod.fst := by
  simp only [List.map_append, List.map_cons, List.mem_append, List.mem_cons]
  tauto

theorem opened_unique {opened : List (κ × Q)} (hn : (opened.map Prod.fst).Nodup) {k : κ}
    {p q : Q} (hp : (k, p) ∈ opened) (hq : (k, q) ∈ opened) : p = q :=
  (Prod.mk.inj (List.inj_on_of_nodup_map hn hp hq rfl)).2

/-- No step forgets an opening. -/
theorem Step.opened_sublist [Sub Q] {small : Q → Prop} {L L' : Ledger κ Q} (h : Step small L L') :
    L.opened.Sublist L'.opened := by
  cases h with
  | opening => exact List.sublist_append_left _ _
  | draw => exact List.Sublist.refl _
  | close => exact List.Sublist.refl _

variable [DecidableEq κ] [AddCommGroup Q]

/-- The books balance. -/
structure Conserved (small : Q → Prop) (L : Ledger κ Q) : Prop where
  accounts_nodup : (L.accounts.map Prod.fst).Nodup
  balance : ∀ k q, (k, q) ∈ L.accounts → (k, q + drawn L.draws k) ∈ L.opened
  closed : ∀ k q, (k, q) ∈ L.opened → k ∉ L.accounts.map Prod.fst →
    k ∈ L.draws.map Prod.fst ∧ small (q - drawn L.draws k)
  drawn_opened : ∀ k ∈ L.draws.map Prod.fst, k ∈ L.opened.map Prod.fst

theorem drawn_append (draws : List (κ × Q)) (j k : κ) (x : Q) :
    drawn (draws ++ [(j, x)]) k = drawn draws k + if j = k then x else 0 := by
  by_cases h : j = k <;> simp [drawn, h]

theorem drawn_of_notMem {draws : List (κ × Q)} {k : κ} (h : k ∉ draws.map Prod.fst) :
    drawn draws k = 0 := by
  have hnil : draws.filter (fun d => d.1 = k) = [] := by
    rw [List.filter_eq_nil_iff]
    intro d hd he
    exact h (List.mem_map.mpr ⟨d, hd, by simpa using he⟩)
  simp [drawn, hnil]

theorem Conserved.start (small : Q → Prop) : Conserved small (⟨[], [], []⟩ : Ledger κ Q) :=
  ⟨List.nodup_nil, by simp, by simp, by simp⟩

theorem Conserved.opening {small : Q → Prop} {l r opened draws : List (κ × Q)} {k : κ} {q : Q}
    (hc : Conserved small ⟨l ++ r, opened, draws⟩) (hfresh : k ∉ opened.map Prod.fst) :
    Conserved small ⟨l ++ (k, q) :: r, opened ++ [(k, q)], draws⟩ := by
  obtain ⟨hnd, hbal, hcl, hdr⟩ := hc
  have hundrawn : k ∉ draws.map Prod.fst := fun hk => hfresh (hdr k hk)
  have hnew : k ∉ (l ++ r).map Prod.fst := by
    intro hk
    obtain ⟨⟨k', q'⟩, hm, rfl⟩ := List.mem_map.mp hk
    exact hfresh (List.mem_map.mpr ⟨_, hbal k' q' hm, rfl⟩)
  refine ⟨keys_middle.mpr ⟨hnew, hnd⟩, ?_, ?_, ?_⟩
  · intro j p hm
    rcases mem_middle.mp hm with he | hm
    · obtain ⟨rfl, rfl⟩ := Prod.mk.inj he
      simp [drawn_of_notMem hundrawn]
    · exact List.mem_append_left _ (hbal j p hm)
  · intro j p hm hj
    rcases List.mem_append.mp hm with hm | hm
    · exact hcl j p hm fun hmem => hj (mem_keys_middle.mpr (.inr hmem))
    · have hjk : j = k := congrArg Prod.fst (List.mem_singleton.mp hm)
      exact absurd (mem_keys_middle.mpr (.inl hjk)) hj
  · intro j hj
    rw [List.map_append]
    exact List.mem_append_left _ (hdr j hj)

theorem Conserved.draw {small : Q → Prop} {l r opened draws : List (κ × Q)} {k : κ} {q : Q}
    (hc : Conserved small ⟨l ++ (k, q) :: r, opened, draws⟩) (x : Q) :
    Conserved small ⟨l ++ (k, q - x) :: r, opened, draws ++ [(k, x)]⟩ := by
  obtain ⟨hnd, hbal, hcl, hdr⟩ := hc
  have hk : (k, q + drawn draws k) ∈ opened := hbal k q (mem_middle.mpr (.inl rfl))
  refine ⟨keys_middle.mpr (keys_middle.mp hnd), ?_, ?_, ?_⟩
  · intro j p hm
    rw [drawn_append]
    rcases mem_middle.mp hm with he | hm
    · obtain ⟨rfl, rfl⟩ := Prod.mk.inj he
      have heq : q - x + (drawn draws j + x) = q + drawn draws j := by abel
      rw [if_pos rfl, heq]
      exact hk
    · have hjk : k ≠ j := fun he => (keys_middle.mp hnd).1 (he ▸ List.mem_map.mpr ⟨_, hm, rfl⟩)
      rw [if_neg hjk, add_zero]
      exact hbal j p (mem_middle.mpr (.inr hm))
  · intro j p hm hj
    have hjk : k ≠ j := fun he => hj (mem_keys_middle.mpr (.inl he.symm))
    have hold : j ∉ (l ++ (k, q) :: r).map Prod.fst := fun hmem =>
      hj (mem_keys_middle.mpr ((mem_keys_middle (a := (k, q))).mp hmem))
    obtain ⟨hd, hs⟩ := hcl j p hm hold
    rw [drawn_append, if_neg hjk, add_zero, List.map_append]
    exact ⟨List.mem_append_left _ hd, hs⟩
  · intro j hj
    rw [List.map_append] at hj
    rcases List.mem_append.mp hj with hj | hj
    · exact hdr j hj
    · have hjk : j = k := by simpa using hj
      rw [hjk]
      exact List.mem_map.mpr ⟨_, hk, rfl⟩

theorem Conserved.close {small : Q → Prop} {l r opened draws : List (κ × Q)} {k : κ} {q : Q}
    (hc : Conserved small ⟨l ++ (k, q) :: r, opened, draws⟩) (hn : (opened.map Prod.fst).Nodup)
    (hsmall : small q) (hdrawn : k ∈ draws.map Prod.fst) :
    Conserved small ⟨l ++ r, opened, draws⟩ := by
  obtain ⟨hnd, hbal, hcl, hdr⟩ := hc
  have hk : (k, q + drawn draws k) ∈ opened := hbal k q (mem_middle.mpr (.inl rfl))
  refine ⟨(keys_middle.mp hnd).2, fun j p hm => hbal j p (mem_middle.mpr (.inr hm)), ?_, hdr⟩
  intro j p hm hj
  by_cases hjk : j = k
  · subst hjk
    rw [opened_unique hn hm hk, add_sub_cancel_right]
    exact ⟨hdrawn, hsmall⟩
  · refine hcl j p hm fun hmem => ?_
    rcases mem_keys_middle.mp hmem with he | he
    · exact hjk he
    · exact hj he

theorem Step.conserved {small : Q → Prop} {L L' : Ledger κ Q} (h : Step small L L')
    (hn : (L'.opened.map Prod.fst).Nodup) (hc : Conserved small L) : Conserved small L' := by
  cases h with
  | opening l r k q opened draws =>
    rw [List.map_append, List.nodup_append] at hn
    exact hc.opening fun hk => hn.2.2 k hk k (by simp) rfl
  | draw l r k q x opened draws => exact hc.draw x
  | close l r k q opened draws hsmall hdrawn => exact hc.close hn hsmall hdrawn

/-- Steps that reuse no key keep the books balanced. -/
theorem conserved_of_steps {small : Q → Prop} {L L' : Ledger κ Q}
    (h : Relation.ReflTransGen (Step small) L L') (hn : (L'.opened.map Prod.fst).Nodup)
    (hc : Conserved small L) : Conserved small L' := by
  induction h with
  | refl => exact hc
  | tail _ hs ih => exact hs.conserved hn (ih ((hs.opened_sublist.map _).nodup hn))

/-! ## In total -/

/-- What the entries come to. -/
def total (entries : List (κ × Q)) : Q := (entries.map Prod.snd).sum

omit [DecidableEq κ] in
theorem total_middle (l r : List (κ × Q)) (a : κ × Q) :
    total (l ++ a :: r) = a.2 + total (l ++ r) := by
  have hp : (l ++ a :: r).Perm (a :: (l ++ r)) := List.perm_middle
  rw [total, (hp.map Prod.snd).sum_eq, List.map_cons, List.sum_cons]
  rfl

omit [DecidableEq κ] in
theorem total_concat (l : List (κ × Q)) (a : κ × Q) : total (l ++ [a]) = total l + a.2 := by
  rw [total_middle, List.append_nil, add_comm]

/-- All amounts are of `G`, and the sums balance. -/
structure Exact (G : AddSubgroup Q) (L : Ledger κ Q) : Prop where
  amounts : ∀ a ∈ L.accounts, a.2 ∈ G
  sum : total L.accounts + total L.draws = total L.opened

omit [DecidableEq κ] in
theorem Exact.start (G : AddSubgroup Q) : Exact G (⟨[], [], []⟩ : Ledger κ Q) :=
  ⟨fun _ ha => (List.not_mem_nil ha).elim, by simp [total]⟩

omit [DecidableEq κ] in
/-- Where nothing of `G` but zero is small, a step that opens and draws amounts of `G`
keeps the sums balanced, whatever the keys are. -/
theorem Step.exact {small : Q → Prop} {G : AddSubgroup Q} (hsmall : ∀ q ∈ G, small q → q = 0)
    {L L' : Ledger κ Q} (h : Step small L L') (hopened : ∀ a ∈ L'.opened, a.2 ∈ G)
    (hdraws : ∀ a ∈ L'.draws, a.2 ∈ G) (hL : Exact G L) : Exact G L' := by
  obtain ⟨hamounts, hsum⟩ := hL
  cases h with
  | opening l r k q opened draws =>
    refine ⟨fun a ha => ?_, ?_⟩
    · rcases mem_middle.mp ha with rfl | ha
      · exact hopened _ (List.mem_append_right _ (List.mem_singleton_self _))
      · exact hamounts a ha
    · rw [total_middle, total_concat, ← hsum]
      dsimp only
      abel
  | draw l r k q x opened draws =>
    refine ⟨fun a ha => ?_, ?_⟩
    · rcases mem_middle.mp ha with rfl | ha
      · exact sub_mem (hamounts _ (mem_middle.mpr (.inl rfl)))
          (hdraws _ (List.mem_append_right _ (List.mem_singleton_self (k, x))))
      · exact hamounts a (mem_middle.mpr (.inr ha))
    · rw [total_middle, total_concat, ← hsum, total_middle]
      dsimp only
      abel
  | close l r k q opened draws hq =>
    have hzero : q = 0 := hsmall q (hamounts (k, q) (mem_middle.mpr (.inl rfl))) hq
    refine ⟨fun a ha => hamounts a (mem_middle.mpr (.inr ha)), ?_⟩
    rw [← hsum, total_middle, hzero, zero_add]

omit [DecidableEq κ] in
theorem Step.draws_sublist {small : Q → Prop} {L L' : Ledger κ Q} (h : Step small L L') :
    L.draws.Sublist L'.draws := by
  cases h with
  | opening | close => exact .refl _
  | draw => exact List.sublist_append_left _ _

omit [DecidableEq κ] in
theorem exact_of_steps {small : Q → Prop} {G : AddSubgroup Q} (hsmall : ∀ q ∈ G, small q → q = 0)
    {L L' : Ledger κ Q} (h : Relation.ReflTransGen (Step small) L L')
    (hopened : ∀ a ∈ L'.opened, a.2 ∈ G) (hdraws : ∀ a ∈ L'.draws, a.2 ∈ G) (hL : Exact G L) :
    Exact G L' := by
  induction h with
  | refl => exact hL
  | tail _ hs ih =>
    refine hs.exact hsmall hopened hdraws (ih (fun a ha => ?_) fun a ha => ?_)
    · exact hopened a (hs.opened_sublist.subset ha)
    · exact hdraws a (hs.draws_sublist.subset ha)

end Ledger

end TradingMarket.Lib
