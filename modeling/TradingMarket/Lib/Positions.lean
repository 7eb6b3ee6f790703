import Mathlib.Algebra.Group.Nat.Defs
import Mathlib.Data.List.Basic
import Mathlib.Tactic.Tauto
import Mathlib.Order.Defs.LinearOrder

/-! # Positions in a list

A list update at a position as a split of the list around it, what erasing
from the front leaves, and bisection of a range of positions.
`bisect p first last` halves the half-open range until it is empty, going left
where `p` holds. For every `p`, monotone or not, it ends at a boundary of `p`;
where the indices that fail `p` all stand before those that satisfy it, this is
the boundary. -/
namespace TradingMarket.Lib

variable {α : Type*}

theorem split_at {l : List α} {i : Nat} {a : α} (h : l[i]? = some a) :
    ∃ p r, l = p ++ a :: r ∧ p.length = i := by
  obtain ⟨hi, rfl⟩ := List.getElem?_eq_some_iff.mp h
  exact ⟨l.take i, l.drop (i + 1), by simp, by simp; omega⟩

@[simp] theorem set_split (p r : List α) (a b : α) :
    (p ++ a :: r).set p.length b = p ++ b :: r := by simp

@[simp] theorem eraseIdx_split (p r : List α) (a : α) :
    (p ++ a :: r).eraseIdx p.length = p ++ r := by
  simp [List.eraseIdx_append_of_length_le]

/-- A split of a list with one more element is at that element or before it. -/
theorem concat_eq_split {l p r : List α} {a b : α} :
    l ++ [a] = p ++ b :: r ↔
      (l = p ∧ a = b ∧ r = []) ∨ ∃ r', r = r' ++ [a] ∧ l = p ++ b :: r' := by
  constructor
  · intro h
    rcases List.eq_nil_or_concat' r with rfl | ⟨r', c, rfl⟩
    · obtain ⟨rfl, hab⟩ := List.append_inj' h rfl
      exact .inl ⟨rfl, by simpa using hab, rfl⟩
    · rw [← List.cons_append, ← List.append_assoc] at h
      obtain ⟨rfl, hac⟩ := List.append_inj' h rfl
      obtain rfl : a = c := by simpa using hac
      exact .inr ⟨r', rfl, rfl⟩
  · rintro (⟨rfl, rfl, rfl⟩ | ⟨r', rfl, rfl⟩) <;> simp

/-- What holds before every occurrence of an element in a list with one more. -/
theorem forall_split_concat {l : List α} {a b : α} {P : List α → Prop} :
    (∀ p r, l ++ [a] = p ++ b :: r → P p) ↔
      (∀ p r, l = p ++ b :: r → P p) ∧ (a = b → P l) := by
  constructor
  · intro h
    exact ⟨fun p r hl => h p (r ++ [a]) (by rw [hl]; simp), fun hab => h l [] (by rw [hab])⟩
  · intro h p r hl
    obtain ⟨hbefore, hlast⟩ := h
    rcases concat_eq_split.mp hl with ⟨rfl, hab, rfl⟩ | ⟨r', rfl, hl'⟩
    · exact hlast hab
    · exact hbefore p r' hl'

theorem insertIdx_split {l : List α} {i : Nat} (h : i ≤ l.length) (a : α) :
    l.insertIdx i a = l.take i ++ a :: l.drop i := by
  induction l generalizing i with
  | nil => obtain rfl : i = 0 := by simpa using h
           rfl
  | cons b l ih =>
    cases i with
    | zero => rfl
    | succ i => simp [ih (i := i) (by simpa using h)]

theorem mem_insert {l : List α} {n : Nat} {o e : α} :
    e ∈ l.take n ++ o :: l.drop n ↔ e = o ∨ e ∈ l := by
  conv_rhs => rw [← List.take_append_drop n l]
  simp only [List.mem_append, List.mem_cons]
  tauto

theorem sublist_insert (l : List α) (n : Nat) (o : α) : l.Sublist (l.take n ++ o :: l.drop n) := by
  conv_lhs => rw [← List.take_append_drop n l]
  exact (List.Sublist.refl _).append (List.sublist_cons_self _ _)

/-- Inserting where everything before relates to the new element and the new
element relates to everything after keeps a list pairwise related. -/
theorem pairwise_insert {R : α → α → Prop} {l : List α} {n : Nat} {o : α} (h : l.Pairwise R)
    (hbefore : ∀ i a, i < n → l[i]? = some a → R a o)
    (hafter : ∀ i a, n ≤ i → l[i]? = some a → R o a) :
    (l.take n ++ o :: l.drop n).Pairwise R := by
  have htake : ∀ a ∈ l.take n, R a o := fun a ha => by
    obtain ⟨i, hi⟩ := List.mem_iff_getElem?.mp ha
    rw [List.getElem?_take] at hi
    split at hi
    · rename_i hlt
      exact hbefore i a hlt hi
    · cases hi
  have hdrop : ∀ a ∈ l.drop n, R o a := fun a ha => by
    obtain ⟨i, hi⟩ := List.mem_iff_getElem?.mp ha
    rw [List.getElem?_drop] at hi
    exact hafter (n + i) a (by omega) hi
  rw [← List.take_append_drop n l, List.pairwise_append] at h
  refine List.pairwise_append.mpr ⟨h.1, List.pairwise_cons.mpr ⟨hdrop, h.2.1⟩, ?_⟩
  intro a ha b hb
  rcases List.mem_cons.mp hb with rfl | hb
  · exact htake a ha
  · exact h.2.2 a ha b hb

/-! ## Suffixes up to their first element -/

/-- `l'` is a suffix of `l`, but for its first element, which is related by `R`
to the one it had there. -/
inductive SuffixUpToHead (R : α → α → Prop) (l : List α) : List α → Prop
  | suffix {l' : List α} (h : l' <:+ l) : SuffixUpToHead R l l'
  | head {a a' : α} {rest : List α} (h : a :: rest <:+ l) (hr : R a a') :
      SuffixUpToHead R l (a' :: rest)

theorem SuffixUpToHead.trans {R : α → α → Prop} (hR : ∀ a b c, R a b → R b c → R a c)
    {l l' l'' : List α} (h : SuffixUpToHead R l l') (h' : SuffixUpToHead R l' l'') :
    SuffixUpToHead R l l'' := by
  cases h with
  | suffix h =>
    cases h' with
    | suffix h' => exact .suffix (h'.trans h)
    | head h' hr => exact .head (h'.trans h) hr
  | @head a b rest h hr =>
    have hrest : rest <:+ l := (List.suffix_cons a rest).trans h
    cases h' with
    | suffix h' =>
      rcases List.suffix_cons_iff.mp h' with rfl | h'
      · exact .head h hr
      · exact .suffix (h'.trans hrest)
    | @head a' c rest' h' hr' =>
      rcases List.suffix_cons_iff.mp h' with heq | h'
      · obtain ⟨rfl, rfl⟩ := List.cons.inj heq
        exact .head h (hR a a' c hr hr')
      · exact .head (h'.trans hrest) hr'

theorem SuffixUpToHead.mem {R : α → α → Prop} {l l' : List α} (h : SuffixUpToHead R l l')
    {b : α} (hb : b ∈ l') : ∃ a ∈ l, a = b ∨ R a b := by
  cases h with
  | suffix h => exact ⟨b, h.subset hb, .inl rfl⟩
  | @head a b' rest h hr =>
    rcases List.mem_cons.mp hb with rfl | hb
    · exact ⟨a, h.subset List.mem_cons_self, .inr hr⟩
    · exact ⟨b, h.subset (List.mem_cons_of_mem a hb), .inl rfl⟩

/-! ## Elements that stay in order -/

section KeepsOrder
variable [DecidableEq α]

/-- What `new` still has of `old` it has in the order of `old`. -/
def KeepsOrder (old new : List α) : Prop := (old.filter (· ∈ new)).Sublist new

theorem KeepsOrder.refl (l : List α) : KeepsOrder l l := by
  unfold KeepsOrder
  rw [List.filter_eq_self.mpr fun _ h => decide_eq_true h]

theorem filter_mem_sublist {l l' : List α} (h : l'.Sublist l) (hnd : l.Nodup) :
    l.filter (· ∈ l') = l' := by
  induction h with
  | slnil => rfl
  | @cons l' l x h ih =>
    obtain ⟨hx, hnd⟩ := List.nodup_cons.mp hnd
    have hout : x ∉ l' := fun hmem => hx (h.subset hmem)
    rw [List.filter_cons_of_neg (by simpa using hout), ih hnd]
  | @cons_cons l' l x h ih =>
    obtain ⟨hx, hnd⟩ := List.nodup_cons.mp hnd
    have hsame : l.filter (· ∈ x :: l') = l.filter (· ∈ l') := by
      refine List.filter_congr fun y hy => ?_
      have hne : y ≠ x := fun he => hx (he ▸ hy)
      simp [hne]
    rw [List.filter_cons_of_pos (by simp), hsame, ih hnd]

/-- Elements that were not there before come in. -/
theorem KeepsOrder.grow {old mid new : List α} (h : KeepsOrder old mid) (hs : mid.Sublist new)
    (hold : ∀ x ∈ old, x ∈ new → x ∈ mid) : KeepsOrder old new := by
  have hsame : old.filter (· ∈ new) = old.filter (· ∈ mid) := by
    refine List.filter_congr fun x hx => ?_
    simpa using ⟨hold x hx, fun hm => hs.subset hm⟩
  unfold KeepsOrder
  rw [hsame]
  exact h.trans hs

/-- Elements go. -/
theorem KeepsOrder.shrink {old mid new : List α} (h : KeepsOrder old mid) (hs : new.Sublist mid)
    (hnd : mid.Nodup) : KeepsOrder old new := by
  have hsame : old.filter (· ∈ new) = (old.filter (· ∈ mid)).filter (· ∈ new) := by
    rw [List.filter_filter]
    refine List.filter_congr fun x _ => ?_
    simpa using fun hx => hs.subset hx
  have hleft := List.Sublist.filter (· ∈ new) h
  rw [filter_mem_sublist hs hnd] at hleft
  unfold KeepsOrder
  rw [hsame]
  exact hleft

end KeepsOrder

/-! ## Bisection -/

/-- The index at which halving `[first, last)` ends. -/
def bisect (p : Nat → Bool) (first last : Nat) : Nat :=
  if last ≤ first then first
  else if p ((first + last) / 2) then bisect p first ((first + last) / 2)
  else bisect p ((first + last) / 2 + 1) last
termination_by last - first

theorem bisect_empty (p : Nat → Bool) {first last : Nat} (h : last ≤ first) :
    bisect p first last = first := by
  rw [bisect, if_pos h]

theorem bisect_left (p : Nat → Bool) {first last : Nat} (h : first < last)
    (hp : p ((first + last) / 2) = true) :
    bisect p first last = bisect p first ((first + last) / 2) := by
  rw [bisect, if_neg (by omega), if_pos hp]

theorem bisect_right (p : Nat → Bool) {first last : Nat} (h : first < last)
    (hp : p ((first + last) / 2) = false) :
    bisect p first last = bisect p ((first + last) / 2 + 1) last := by
  rw [bisect, if_neg (by omega), if_neg (by simp [hp])]

theorem bisect_mem (p : Nat → Bool) {first last : Nat} (h : first ≤ last) :
    first ≤ bisect p first last ∧ bisect p first last ≤ last := by
  induction first, last using bisect.induct p with
  | case1 first last hle => rw [bisect_empty p hle]; omega
  | case2 first last hlt hp ih =>
    rw [bisect_left p (by omega) hp]
    have := ih (by omega)
    omega
  | case3 first last hlt hp ih =>
    rw [bisect_right p (by omega) (by simpa using hp)]
    have := ih (by omega)
    omega

/-- The index before the result fails `p`. -/
theorem bisect_before (p : Nat → Bool) {first last : Nat}
    (h : first < bisect p first last) : p (bisect p first last - 1) = false := by
  induction first, last using bisect.induct p with
  | case1 first last hle => rw [bisect_empty p hle] at h; omega
  | case2 first last hlt hp ih =>
    rw [bisect_left p (by omega) hp] at h ⊢
    exact ih h
  | case3 first last hlt hp ih =>
    rw [bisect_right p (by omega) (by simpa using hp)] at h ⊢
    by_cases hr : (first + last) / 2 + 1 < bisect p ((first + last) / 2 + 1) last
    · exact ih hr
    · have hm := (@bisect_mem p ((first + last) / 2 + 1) last (by omega)).1
      have he : bisect p ((first + last) / 2 + 1) last - 1 = (first + last) / 2 := by omega
      rw [he]; simpa using hp

/-- The result, when inside the range, satisfies `p`. -/
theorem bisect_at (p : Nat → Bool) {first last : Nat} (hfl : first ≤ last)
    (h : bisect p first last < last) : p (bisect p first last) = true := by
  induction first, last using bisect.induct p with
  | case1 first last hle => rw [bisect_empty p hle] at h; omega
  | case2 first last hlt hp ih =>
    rw [bisect_left p (by omega) hp] at h ⊢
    by_cases hr : bisect p first ((first + last) / 2) < (first + last) / 2
    · exact ih (by omega) hr
    · have hm := (@bisect_mem p first ((first + last) / 2) (by omega)).2
      have he : bisect p first ((first + last) / 2) = (first + last) / 2 := by omega
      rw [he]; exact hp
  | case3 first last hlt hp ih =>
    rw [bisect_right p (by omega) (by simpa using hp)] at h ⊢
    exact ih (by omega) h

/-- In `[first, last)` the indices that fail `p` all stand before those that satisfy it. -/
def Partitioned (p : Nat → Bool) (first last : Nat) : Prop :=
  ∀ i < last, ∀ j < last, first ≤ i ∧ first ≤ j → p i = false → p j = true → i < j

instance (p : Nat → Bool) (first last : Nat) : Decidable (Partitioned p first last) :=
  inferInstanceAs (Decidable (∀ i < last, ∀ j < last, _ → _))

/-- On a partitioned range the bisection ends at the boundary. -/
theorem Partitioned.bisect_le_iff {p : Nat → Bool} {first last : Nat}
    (h : Partitioned p first last) (hfl : first ≤ last) {i : Nat} (hi : first ≤ i)
    (hlt : i < last) : bisect p first last ≤ i ↔ p i = true := by
  obtain ⟨hlower, hupper⟩ := bisect_mem p hfl
  constructor
  · intro hle
    have hat := bisect_at p hfl (by omega)
    by_contra hne
    have hbehind := h i hlt _ (by omega) ⟨hi, hlower⟩ (by simpa using hne) hat
    omega
  · intro hp
    by_contra hlate
    have hbefore := @bisect_before p first last (by omega)
    have hbehind := h _ (by omega) i hlt ⟨by omega, hi⟩ hbefore hp
    omega

/-- The indices the bisection looks at. -/
def probes (p : Nat → Bool) (first last : Nat) : List Nat :=
  if last ≤ first then []
  else
    ((first + last) / 2) ::
      if p ((first + last) / 2) then probes p first ((first + last) / 2)
      else probes p ((first + last) / 2 + 1) last
termination_by last - first

theorem probes_empty (p : Nat → Bool) {first last : Nat} (h : last ≤ first) :
    probes p first last = [] := by
  rw [probes, if_pos h]

theorem probes_left (p : Nat → Bool) {first last : Nat} (h : first < last)
    (hp : p ((first + last) / 2) = true) :
    probes p first last = ((first + last) / 2) :: probes p first ((first + last) / 2) := by
  rw [probes, if_neg (by omega), if_pos hp]

theorem probes_right (p : Nat → Bool) {first last : Nat} (h : first < last)
    (hp : p ((first + last) / 2) = false) :
    probes p first last = ((first + last) / 2) :: probes p ((first + last) / 2 + 1) last := by
  rw [probes, if_neg (by omega), if_neg (by simp [hp])]

/-- Every index looked at is in the range. -/
theorem mem_probes (p : Nat → Bool) {first last i : Nat} (h : i ∈ probes p first last) :
    first ≤ i ∧ i < last := by
  induction first, last using bisect.induct p with
  | case1 first last hle =>
    rw [probes_empty p hle] at h
    cases h
  | case2 first last hlt hp ih =>
    rw [probes_left p (by omega) hp] at h
    rcases List.mem_cons.mp h with rfl | h
    · omega
    · have := ih h
      omega
  | case3 first last hlt hp ih =>
    rw [probes_right p (by omega) (by simpa using hp)] at h
    rcases List.mem_cons.mp h with rfl | h
    · omega
    · have := ih h
      omega

/-- Each look halves the range. -/
theorem two_pow_probes (p : Nat → Bool) {first last : Nat} (h : first < last) :
    2 ^ (probes p first last).length ≤ 2 * (last - first) := by
  induction first, last using bisect.induct p with
  | case1 first last hle => omega
  | case2 first last hlt hp ih =>
    rw [probes_left p h hp, List.length_cons, pow_succ]
    by_cases hmore : first < (first + last) / 2
    · have := ih hmore
      omega
    · rw [probes_empty p (by omega)]
      simp
      omega
  | case3 first last hlt hp ih =>
    rw [probes_right p h (by simpa using hp), List.length_cons, pow_succ]
    by_cases hmore : (first + last) / 2 + 1 < last
    · have := ih hmore
      omega
    · rw [probes_empty p (by omega)]
      simp
      omega

end TradingMarket.Lib
