import Mathlib.Data.List.Perm.Basic
import Mathlib.Logic.Function.Basic

/-! # Maps from keys to lists of values

A hash map whose values are vectors, filled by appending: a key comes into the
map with its first value. What matters of such a map is which values it holds
under which key, so it is a partial function. A map filled from empty holds a
collection of entries exactly when it was filled with them in some order. -/
namespace TradingMarket.Lib

def Multimap (κ ν : Type*) := κ → Option (List ν)

namespace Multimap

variable {κ ν : Type*}

def empty : Multimap κ ν := fun _ => none

/-- The values a list of entries puts under one key, in order. -/
def valuesAt [DecidableEq κ] (k : κ) (entries : List (ν × κ)) : List ν :=
  (entries.filter fun e => e.2 = k).map Prod.fst

variable [DecidableEq κ]

/-- `map[key].push_back(value)`. -/
def pushBack (m : Multimap κ ν) (k : κ) (v : ν) : Multimap κ ν :=
  Function.update m k (some ((m k).getD [] ++ [v]))

def pushAll (m : Multimap κ ν) (entries : List (ν × κ)) : Multimap κ ν :=
  entries.foldl (fun m e => m.pushBack e.2 e.1) m

/-- The map holds these entries, no other entry and no other key. -/
def Holds (m : Multimap κ ν) (entries : List (ν × κ)) : Prop :=
  ∀ k, match m k with
    | none => valuesAt k entries = []
    | some vs => vs ≠ [] ∧ vs.Perm (valuesAt k entries)

theorem valuesAt_cons (k : κ) (e : ν × κ) (entries : List (ν × κ)) :
    valuesAt k (e :: entries) =
      if e.2 = k then e.1 :: valuesAt k entries else valuesAt k entries := by
  by_cases he : e.2 = k <;> simp [valuesAt, he]

theorem pushBack_apply (m : Multimap κ ν) (k k' : κ) (v : ν) :
    m.pushBack k v k' = if k' = k then some ((m k).getD [] ++ [v]) else m k' :=
  Function.update_apply m k _ k'

theorem pushBack_ne_nil {m : Multimap κ ν} (h : ∀ k, m k ≠ some []) (k : κ) (v : ν) :
    ∀ k', m.pushBack k v k' ≠ some [] := by
  intro k'
  rw [pushBack_apply]
  split
  · simp
  · exact h k'

@[simp] theorem pushAll_cons (m : Multimap κ ν) (e : ν × κ) (entries : List (ν × κ)) :
    m.pushAll (e :: entries) = (m.pushBack e.2 e.1).pushAll entries := rfl

/-- Filling a map appends the values of each key to those it had. -/
theorem pushAll_apply (m : Multimap κ ν) (entries : List (ν × κ)) (k : κ) :
    m.pushAll entries k =
      if valuesAt k entries = [] then m k else some ((m k).getD [] ++ valuesAt k entries) := by
  induction entries generalizing m with
  | nil => rfl
  | cons e entries ih =>
    rw [pushAll_cons, ih, pushBack_apply, valuesAt_cons]
    by_cases he : e.2 = k
    · subst he
      by_cases hv : valuesAt e.2 entries = [] <;> simp [hv]
    · simp [he, Ne.symm he]

/-! ## The first value of a key -/

/-- `map.find(key)->second[0]`, where there is one. -/
def first (m : Multimap κ ν) (k : κ) : Option ν := (m k).bind List.head?

/-- The first value of a key stays, whatever is appended under any key. -/
theorem first_pushBack {m : Multimap κ ν} {k k' : κ} {v w : ν} (h : m.first k = some v) :
    (m.pushBack k' w).first k = some v := by
  obtain ⟨vs, hvs, hv⟩ := Option.bind_eq_some_iff.mp h
  rw [first, pushBack_apply]
  split
  · rename_i heq
    subst heq
    simp [hvs, hv]
  · exact h

theorem first_pushAll_empty (entries : List (ν × κ)) (k : κ) :
    (empty.pushAll entries).first k = (valuesAt k entries).head? := by
  rw [first, pushAll_apply]
  split
  · rename_i hnone
    rw [hnone]
    rfl
  · rfl

/-! ## What a filled map holds -/

theorem count_valuesAt [DecidableEq ν] (entries : List (ν × κ)) (v : ν) (k : κ) :
    (valuesAt k entries).count v = entries.count (v, k) := by
  induction entries with
  | nil => rfl
  | cons e entries ih =>
    rw [valuesAt_cons, List.count_cons, ← ih]
    by_cases he : e.2 = k
    · by_cases hv : e.1 = v
      · rw [if_pos he, if_pos (by simp [← he, ← hv]), hv, List.count_cons_self]
      · rw [if_pos he, if_neg (by simpa [Prod.ext_iff] using fun h => absurd h hv),
          List.count_cons_of_ne (by simpa using hv), Nat.add_zero]
    · rw [if_neg he, if_neg (by simpa [Prod.ext_iff] using fun _ => he), Nat.add_zero]

/-- A map filled from empty holds exactly the entries it was filled with. -/
theorem holds_pushAll [DecidableEq ν] {added entries : List (ν × κ)} :
    (empty.pushAll added).Holds entries ↔ added.Perm entries := by
  constructor
  · intro h
    refine List.perm_iff_count.mpr fun ⟨v, k⟩ => ?_
    have hk := h k
    rw [pushAll_apply] at hk
    rw [← count_valuesAt, ← count_valuesAt]
    by_cases hv : valuesAt k added = []
    · simp only [hv, if_true, empty] at hk
      rw [hv, hk]
    · simp only [hv, if_false, empty, Option.getD_none, List.nil_append] at hk
      exact hk.2.count_eq v
  · intro h k
    have hperm : (valuesAt k added).Perm (valuesAt k entries) := (h.filter _).map _
    rw [pushAll_apply]
    by_cases hv : valuesAt k added = []
    · rw [hv] at hperm
      simp only [hv, if_true, empty]
      exact hperm.symm.eq_nil
    · simp only [hv, if_false, empty, Option.getD_none, List.nil_append]
      exact ⟨hv, hperm⟩

end Multimap

end TradingMarket.Lib
