import Mathlib.Data.List.Basic
import Mathlib.Data.List.Pairwise
import Mathlib.Order.Lattice

/-! # What a comparison sort promises

A sort called with a strict weak order on the elements of a list returns a
permutation of the list in which no element precedes an earlier one. Where the
order is moreover total on the elements, there is one such permutation. -/
namespace TradingMarket.Lib

variable {α : Type*}

/-- `lt` is a strict weak order on the elements of `l`. -/
structure StrictWeakOn (lt : α → α → Bool) (l : List α) : Prop where
  irrefl : ∀ a ∈ l, lt a a = false
  trans : ∀ a ∈ l, ∀ b ∈ l, ∀ c ∈ l, lt a b = true → lt b c = true → lt a c = true
  incomp_trans : ∀ a ∈ l, ∀ b ∈ l, ∀ c ∈ l, lt a b = false → lt b a = false →
    lt b c = false → lt c b = false → lt a c = false ∧ lt c a = false

/-- Comparing by a rank in a linear order is a strict weak order. -/
theorem StrictWeakOn.of_rank {β : Type*} [LinearOrder β] {lt : α → α → Bool} {l : List α}
    (rank : α → β) (h : ∀ a ∈ l, ∀ b ∈ l, lt a b = true ↔ rank a < rank b) :
    StrictWeakOn lt l := by
  have hfalse : ∀ a ∈ l, ∀ b ∈ l, lt a b = false ↔ rank b ≤ rank a := by
    intro a ha b hb
    rw [← Bool.not_eq_true, h a ha b hb, not_lt]
  refine ⟨fun a ha => (hfalse a ha a ha).mpr le_rfl, ?_, ?_⟩
  · intro a ha b hb c hc hab hbc
    exact (h a ha c hc).mpr (((h a ha b hb).mp hab).trans ((h b hb c hc).mp hbc))
  · intro a ha b hb c hc hab hba hbc hcb
    have h1 : rank a = rank b :=
      le_antisymm ((hfalse b hb a ha).mp hba) ((hfalse a ha b hb).mp hab)
    have h2 : rank b = rank c :=
      le_antisymm ((hfalse c hc b hb).mp hcb) ((hfalse b hb c hc).mp hbc)
    exact ⟨(hfalse a ha c hc).mpr (h1.trans h2).ge, (hfalse c hc a ha).mpr (h1.trans h2).le⟩

theorem StrictWeakOn.asymm {lt : α → α → Bool} {l : List α} (h : StrictWeakOn lt l) {a b : α}
    (ha : a ∈ l) (hb : b ∈ l) (hab : lt a b = true) : lt b a = false := by
  by_contra hba
  have := h.trans a ha b hb a ha hab (by simpa using hba)
  rw [h.irrefl a ha] at this
  cases this

/-- Not preceding is transitive under a strict weak order. -/
theorem StrictWeakOn.le_trans {lt : α → α → Bool} {l : List α} (h : StrictWeakOn lt l) {a b c : α}
    (ha : a ∈ l) (hb : b ∈ l) (hc : c ∈ l) (hab : lt b a = false) (hbc : lt c b = false) :
    lt c a = false := by
  by_contra hca
  have hca : lt c a = true := by simpa using hca
  by_cases h1 : lt a b = true
  · have := h.trans c hc a ha b hb hca h1
    rw [hbc] at this; cases this
  · by_cases h2 : lt b c = true
    · have := h.trans b hb c hc a ha h2 hca
      rw [hab] at this; cases this
    · have := (h.incomp_trans a ha b hb c hc (by simpa using h1) hab (by simpa using h2) hbc).2
      rw [hca] at this; cases this

/-- The contract of a comparison sort such as `std::sort`. -/
def SortsBy (sort : (α → α → Bool) → List α → List α) : Prop :=
  ∀ lt l, StrictWeakOn lt l → (sort lt l).Perm l ∧ (sort lt l).Pairwise fun a b => lt b a = false

/-- A sort leaves a list alone in which each element precedes every later one. -/
theorem SortsBy.of_sorted {sort : (α → α → Bool) → List α → List α} (hs : SortsBy sort)
    {lt : α → α → Bool} {l : List α} (hw : StrictWeakOn lt l)
    (hl : l.Pairwise fun a b => lt a b = true) : sort lt l = l := by
  obtain ⟨hperm, hsorted⟩ := hs lt l hw
  have hle : l.Pairwise fun a b => lt b a = false :=
    hl.imp_of_mem fun ha hb hab => hw.asymm ha hb hab
  have htotal : ∀ a ∈ l, ∀ b ∈ l, lt b a = false → lt a b = false → a = b := by
    intro a ha b hb hba hab
    by_contra hne
    rcases List.Pairwise.forall_of_forall_of_flip (R := fun a b => a = b ∨ lt a b = true ∨ lt b a = true)
      (by simp) (hl.imp fun h => .inr (.inl h)) (hl.imp fun h => .inr (.inr h)) ha hb with h | h | h
    · exact hne h
    · rw [hab] at h; cases h
    · rw [hba] at h; cases h
  refine List.Perm.eq_of_pairwise (fun a b ha hb hab hba => ?_) hsorted hle hperm
  exact htotal a (hperm.mem_iff.mp ha) b hb hab hba

/-- Merge sort keeps the contract. -/
theorem sortsBy_mergeSort :
    SortsBy fun (lt : α → α → Bool) l =>
      (l.attach.mergeSort fun a b => !lt b.1 a.1).map Subtype.val := by
  intro lt l hw
  constructor
  · have := (List.mergeSort_perm l.attach fun a b => !lt b.1 a.1).map Subtype.val
    rwa [List.attach_map_subtype_val] at this
  · rw [List.pairwise_map]
    have hsorted := @List.pairwise_mergeSort _ (fun a b : {x // x ∈ l} => !lt b.1 a.1)
      (fun a b c hab hbc => by
        simpa using hw.le_trans a.2 b.2 c.2 (by simpa using hab) (by simpa using hbc))
      (fun a b => by
        by_cases hab : lt a.1 b.1 = true
        · simp [hw.asymm a.2 b.2 hab]
        · simp [hab]) l.attach
    exact hsorted.imp fun h => by simpa using h

end TradingMarket.Lib
