import Mathlib.Algebra.Group.Nat.Defs
import TradingMarket.L3.NetworkSafety

/-! # A ring with 64-bit indices

`L3::Index` is `uint64_t`. So cursors, `slot - size` and `_begin + maxBatchSize` wrap,
and a slot is found by masking off the high order bits of its index. The comment
on `Index` does without worrying about wrapping, and rightly so: as long as no claim and
no limit of a batch passes the last index, the ring does what it does with natural
numbers (`index_agrees`). -/
namespace TradingMarket.L3

open Lib (Machine)

abbrev Index := UInt64

/-- Where `ring[idx]` is in the storage. -/
def masked (size idx : Index) : Nat := (idx &&& (size - 1)).toNat

/-- The ring and its threads. What has been claimed, put and handled is recorded besides. -/
structure Network64 (α P C : Type) where
  storage : Nat → α
  ringCursor : Index
  putCursor : Index
  put : P → Option (α × SharedPutPc C Index) := fun _ => none
  cursor : C → Index
  get : C → ConsumerPc C Index := fun _ => .idle
  claims : List (P × α) := []
  done : P → List α := fun _ => []
  handled : C → List α := fun _ => []

section Model
variable {α P C : Type} [DecidableEq P] [DecidableEq C] (w : Wiring P C)

def Network64.value (s : Network64 α P C) : Cursor C → Index
  | .ring => s.ringCursor
  | .get c => s.cursor c

/-- `Disruptor::size`. -/
def Wiring.size64 : Index := UInt64.ofNat w.size

/-- A step of a `Put` that is not a load. -/
def Network64.putStep (s : Network64 α P C) (p : P) : Option (Network64 α P C) :=
  match s.put p with
  | none => none
  | some (msg, .claim) =>
    some { s with
      putCursor := s.putCursor + 1
      claims := s.claims ++ [(p, msg)]
      put := Function.update s.put p
        (some (msg, .waitBarrier s.putCursor ⟨w.putBarrier, none⟩)) }
  | some (msg, .waitBarrier slot ⟨rest, least⟩) =>
    match rest, least with
    | [], some least =>
      some { s with
        put := Function.update s.put p (some (msg,
          if least ≤ slot - w.size64 then .waitBarrier slot ⟨w.putBarrier, none⟩
          else .write slot)) }
    | _, _ => none
  | some (msg, .write slot) =>
    some { s with
      storage := Function.update s.storage (masked w.size64 slot) msg
      put := Function.update s.put p (some (msg, .commit slot)) }
  | some (msg, .commit slot) =>
    if w.policy = .shared ∧ s.ringCursor < slot then some s
    else some { s with
      ringCursor := s.ringCursor + 1
      put := Function.update s.put p none
      done := Function.update s.done p (s.done p ++ [msg]) }

/-- The end of the batch, where the constructor gets one. -/
def GetKind.batchEnd64 (kind : GetKind) (first least : Index) : Option Index :=
  if kind.noBlock = false ∧ least ≤ first then none
  else some (kind.maxBatchSize.elim least fun n => min least (first + UInt64.ofNat n))

/-- A step of a consumer that is not a load. -/
def Network64.getStep (s : Network64 α P C) (c : C) : Option (Network64 α P C) :=
  match s.get c with
  | .idle => none
  | .waitBarrier kind ⟨rest, least⟩ =>
    match rest, least with
    | [], some least =>
      some { s with
        get := Function.update s.get c
          (match kind.batchEnd64 (s.cursor c) least with
          | none => .waitBarrier kind ⟨w.getBarrier c, none⟩
          | some last => .batch (s.cursor c) last) }
    | _, _ => none
  | .batch index last =>
    if index = last then
      some { s with
        cursor := Function.update s.cursor c last
        get := Function.update s.get c .idle }
    else
      some { s with
        handled := Function.update s.handled c
          (s.handled c ++ [s.storage (masked w.size64 index)])
        get := Function.update s.get c (.batch (index + 1) last) }

def network64Step (s : Network64 α P C) : NetworkEvent α P C → Option (Network64 α P C)
  | .put p msg =>
    match s.put p with
    | none => some { s with put := Function.update s.put p (some (msg, .claim)) }
    | some _ => none
  | .putLoad p i =>
    match s.put p with
    | some (msg, .waitBarrier slot barrier) =>
      (barrier.load s.value i).map fun barrier =>
        { s with put := Function.update s.put p (some (msg, .waitBarrier slot barrier)) }
    | _ => none
  | .putStep p => s.putStep w p
  | .get c kind =>
    match s.get c with
    | .idle =>
      some { s with
        get := Function.update s.get c (.waitBarrier kind ⟨w.getBarrier c, none⟩) }
    | _ => none
  | .getLoad c i =>
    match s.get c with
    | .waitBarrier kind barrier =>
      (barrier.load s.value i).map fun barrier =>
        { s with get := Function.update s.get c (.waitBarrier kind barrier) }
    | _ => none
  | .getStep c => s.getStep w c

/-- A new ring, all cursors a lap ahead. -/
def Network64.start (blank : α) : Network64 α P C where
  storage _ := blank
  ringCursor := w.size64
  putCursor := w.size64
  cursor _ := w.size64

def network64Machine (blank : α) : Machine (Network64 α P C) (NetworkEvent α P C) :=
  ⟨.start w blank, network64Step w⟩

end Model

/-! ## Where the two rings agree -/

def Least.toNat {C : Type} (l : Least C Index) : Least C := ⟨l.rest, l.least.map UInt64.toNat⟩

def SharedPutPc.toNat {C : Type} : SharedPutPc C Index → SharedPutPc C
  | .claim => .claim
  | .waitBarrier slot barrier => .waitBarrier slot.toNat barrier.toNat
  | .write slot => .write slot.toNat
  | .commit slot => .commit slot.toNat

def ConsumerPc.toNat {C : Type} : ConsumerPc C Index → ConsumerPc C
  | .idle => .idle
  | .waitBarrier kind barrier => .waitBarrier kind barrier.toNat
  | .batch index last => .batch index.toNat last.toNat

/-- The ring with the natural numbers of its indices. -/
def Network64.toNat {α P C : Type} (s : Network64 α P C) : Network α P C where
  ring := ⟨s.storage, s.ringCursor.toNat, s.putCursor.toNat⟩
  put := Option.map (fun x => (x.1, x.2.toNat)) ∘ s.put
  cursor := UInt64.toNat ∘ s.cursor
  get := ConsumerPc.toNat ∘ s.get
  claims := s.claims
  done := s.done
  handled := s.handled

/-- The event takes neither a claim nor the limit of a batch past the last index. -/
def Network64.Fits {α P C : Type} (s : Network64 α P C) : NetworkEvent α P C → Prop
  | .putStep p => ∀ msg, s.put p = some (msg, .claim) → s.putCursor.toNat + 1 < 2 ^ 64
  | .getStep c => ∀ kind barrier n, s.get c = .waitBarrier kind barrier →
      kind.maxBatchSize = some n → (s.cursor c).toNat + n < 2 ^ 64
  | _ => True

section Agreement
variable {α P C : Type} {w : Wiring P C} {n : Nat} {s : Network64 α P C}

theorem toNat_succ {i : Index} (h : i.toNat + 1 < 2 ^ 64) : (i + 1).toNat = i.toNat + 1 := by
  rw [UInt64.toNat_add]
  exact Nat.mod_eq_of_lt h

theorem toNat_min (i j : Index) : (min i j).toNat = min i.toNat j.toNat := by
  change (if i ≤ j then i else j).toNat = _
  simp only [Nat.min_def, UInt64.le_iff_toNat_le]
  split <;> rfl

theorem size64_toNat (hsize : w.size = 2 ^ n) (hn : n < 32) : w.size64.toNat = w.size := by
  unfold Wiring.size64
  refine UInt64.toNat_ofNat_of_lt' ?_
  rw [hsize]
  exact (Nat.pow_lt_pow_right Nat.one_lt_two hn).trans (by decide)

theorem masked_eq (hsize : w.size = 2 ^ n) (hn : n < 32) (idx : Index) :
    masked w.size64 idx = idx.toNat % w.size := by
  have hmask : (w.size64 - 1).toNat = 2 ^ n - 1 := by
    rw [UInt64.toNat_sub_of_le, size64_toNat hsize hn, hsize]
    · rfl
    · rw [UInt64.le_iff_toNat_le, size64_toNat hsize hn]
      exact w.size_pos
  rw [masked, UInt64.toNat_and, hmask, Nat.and_two_pow_sub_one_eq_mod, hsize]

theorem value_toNat (b : Cursor C) : s.toNat.value b = (s.value b).toNat := by
  cases b <;> rfl

theorem load_toNat (l : Least C Index) (i : Nat) :
    (l.load s.value i).map Least.toNat = l.toNat.load s.toNat.value i := by
  unfold Least.load
  rw [Option.map_map]
  refine Option.map_congr fun b _ => ?_
  cases hl : l.least <;> simp [Least.toNat, hl, value_toNat, toNat_min]

/-! ### Steps -/

theorem putStep_toNat [DecidableEq P] (hsize : w.size = 2 ^ n) (hn : n < 32) (hok : s.toNat.Ok w) {p : P}
    (hfits : s.Fits (.putStep p : NetworkEvent α P C)) :
    (s.putStep w p).map Network64.toNat = s.toNat.putStep w p := by
  have hp := hok.put p
  unfold Network64.putStep Network.putStep
  cases hput : s.put p with
  | none => simp [Network64.toNat, hput]
  | some x =>
    obtain ⟨msg, pc⟩ := x
    have hput' : s.toNat.put p = some (msg, pc.toNat) := by simp [Network64.toNat, hput]
    rw [hput'] at hp ⊢
    cases pc with
    | claim =>
      have hsucc := toNat_succ (hfits msg hput)
      simp [Network64.toNat, SharedPutPc.toNat, Least.toNat, Function.comp_update, hsucc]
    | waitBarrier slot barrier =>
      obtain ⟨rest, least⟩ := barrier
      cases rest with
      | cons b rest => simp [SharedPutPc.toNat, Least.toNat]
      | nil =>
        cases least with
        | none => simp [SharedPutPc.toNat, Least.toNat]
        | some least =>
          have hlap : w.size64 ≤ slot := by
            rw [UInt64.le_iff_toNat_le, size64_toNat hsize hn]
            exact hp.1.lap
          have hwrap : least ≤ slot - w.size64 ↔ least.toNat ≤ slot.toNat - w.size := by
            rw [UInt64.le_iff_toNat_le, UInt64.toNat_sub_of_le _ _ hlap, size64_toNat hsize hn]
          by_cases hfull : least ≤ slot - w.size64
          · simp [Network64.toNat, SharedPutPc.toNat, Least.toNat, Function.comp_update, hfull, hwrap.mp hfull]
          · simp [Network64.toNat, SharedPutPc.toNat, Least.toNat, Function.comp_update, hfull, mt hwrap.mpr hfull]
    | write slot =>
      simp [Network64.toNat, SharedPutPc.toNat, Function.comp_update, Disruptor.write,
        masked_eq hsize hn]
    | commit slot =>
      by_cases hturn : w.policy = .shared ∧ s.ringCursor < slot
      · have hturn' : w.policy = .shared ∧ s.ringCursor.toNat < slot.toNat := hturn
        simp [Network64.toNat, SharedPutPc.toNat, hturn, hturn']
      · have hturn' : ¬ (w.policy = .shared ∧ s.ringCursor.toNat < slot.toNat) := hturn
        have hsucc : (s.ringCursor + 1).toNat = s.ringCursor.toNat + 1 := by
          refine toNat_succ ?_
          have hlap := hp.1.lap
          have hclaimed : s.putCursor.toNat = w.size + s.claims.length := hok.claimed
          have huncommitted : s.ringCursor.toNat ≤ slot.toNat := hp.1.uncommitted
          have hnumber : slot.toNat - w.size < s.claims.length :=
            (List.getElem?_eq_some_iff.mp hp.1.number).1
          have hput64 := s.putCursor.toNat_lt
          omega
        simp [Network64.toNat, SharedPutPc.toNat, Function.comp_update, hturn, hturn', hsucc]

theorem batchEnd_toNat {kind : GetKind} {first least : Index}
    (hfits : ∀ n, kind.maxBatchSize = some n → first.toNat + n < 2 ^ 64) :
    (kind.batchEnd64 first least).map UInt64.toNat = kind.batchEnd first.toNat least.toNat := by
  have hspin : least ≤ first ↔ least.toNat ≤ first.toNat := UInt64.le_iff_toNat_le
  unfold GetKind.batchEnd64 GetKind.batchEnd
  by_cases hblock : kind.noBlock = false ∧ least ≤ first
  · simp [hblock, hspin.mp hblock.2]
  · have hblock' : ¬ (kind.noBlock = false ∧ least.toNat ≤ first.toNat) := hblock
    rw [if_neg hblock, if_neg hblock']
    cases hmax : kind.maxBatchSize with
    | none => rfl
    | some n =>
      have hlt := hfits n hmax
      have hadd : (first + UInt64.ofNat n).toNat = first.toNat + n := by
        rw [UInt64.toNat_add, UInt64.toNat_ofNat_of_lt' ((Nat.le_add_left n _).trans_lt hlt)]
        exact Nat.mod_eq_of_lt hlt
      simp [toNat_min, hadd]

theorem getStep_toNat [DecidableEq P] [DecidableEq C] (hsize : w.size = 2 ^ n) (hn : n < 32) (hok : s.toNat.Ok w) {c : C}
    (hfits : s.Fits (.getStep c : NetworkEvent α P C)) :
    (s.getStep w c).map Network64.toNat = s.toNat.getStep w c := by
  have hc := hok.get c
  unfold Network64.getStep Network.getStep
  have hget' : s.toNat.get c = (s.get c).toNat := rfl
  rw [hget'] at hc ⊢
  cases hget : s.get c with
  | idle => rfl
  | waitBarrier kind barrier =>
    obtain ⟨rest, least⟩ := barrier
    cases rest with
    | cons b rest => simp [ConsumerPc.toNat, Least.toNat]
    | nil =>
      cases least with
      | none => simp [ConsumerPc.toNat, Least.toNat]
      | some least =>
        have hend := @batchEnd_toNat kind (s.cursor c) least fun n => hfits kind _ n hget
        have hcursor : s.toNat.cursor c = (s.cursor c).toNat := rfl
        simp only [ConsumerPc.toNat, Least.toNat, Option.map_some, hcursor, ← hend]
        cases kind.batchEnd64 (s.cursor c) least <;>
          simp [Network64.toNat, ConsumerPc.toNat, Least.toNat, Function.comp_update]
  | batch index last =>
    rw [hget] at hc
    by_cases heq : index = last
    · subst heq
      simp [Network64.toNat, ConsumerPc.toNat, Function.comp_update]
    · have hne : index.toNat ≠ last.toNat := fun h => heq (UInt64.toNat_inj.mp h)
      have hsucc : (index + 1).toNat = index.toNat + 1 := by
        refine toNat_succ ?_
        have hwithin : index.toNat ≤ last.toNat := hc.within
        have hlast64 := last.toNat_lt
        omega
      simp [Network64.toNat, ConsumerPc.toNat, Function.comp_update, heq, hne, hsucc,
        Disruptor.read, masked_eq hsize hn]

theorem network64Step_toNat [DecidableEq P] [DecidableEq C] (hsize : w.size = 2 ^ n) (hn : n < 32)
    (hok : s.toNat.Ok w) {e : NetworkEvent α P C} (hfits : s.Fits e) :
    (network64Step w s e).map Network64.toNat = networkStep w s.toNat e := by
  cases e with
  | put p msg =>
    have hput : s.toNat.put p = (s.put p).map fun x => (x.1, x.2.toNat) := rfl
    simp only [network64Step, networkStep, hput]
    cases s.put p with
    | none => simp [Network64.toNat, SharedPutPc.toNat, Function.comp_update]
    | some x => rfl
  | putLoad p i =>
    have hput : s.toNat.put p = (s.put p).map fun x => (x.1, x.2.toNat) := rfl
    simp only [network64Step, networkStep, hput]
    cases s.put p with
    | none => rfl
    | some x =>
      obtain ⟨msg, pc⟩ := x
      cases pc with
      | waitBarrier slot barrier =>
        simp only [Option.map_some, SharedPutPc.toNat, ← load_toNat, Option.map_map]
        refine Option.map_congr fun barrier' _ => ?_
        simp [Network64.toNat, SharedPutPc.toNat, Function.comp_update]
      | claim | write slot | commit slot => rfl
  | putStep p => exact putStep_toNat hsize hn hok hfits
  | get c kind =>
    have hget : s.toNat.get c = (s.get c).toNat := rfl
    simp only [network64Step, networkStep, hget]
    cases s.get c with
    | idle => simp [Network64.toNat, ConsumerPc.toNat, Least.toNat, Function.comp_update]
    | waitBarrier kind barrier | batch index last => rfl
  | getLoad c i =>
    have hget : s.toNat.get c = (s.get c).toNat := rfl
    simp only [network64Step, networkStep, hget]
    cases s.get c with
    | waitBarrier kind barrier =>
      simp only [ConsumerPc.toNat, ← load_toNat, Option.map_map]
      refine Option.map_congr fun barrier' _ => ?_
      simp [Network64.toNat, ConsumerPc.toNat, Function.comp_update]
    | idle | batch index last => rfl
  | getStep c => exact getStep_toNat hsize hn hok hfits

theorem start_toNat (hsize : w.size = 2 ^ n) (hn : n < 32) (blank : α) :
    (Network64.start w blank : Network64 α P C).toNat = .start w blank := by
  have hstart := size64_toNat hsize hn
  simp [Network64.toNat, Network64.start, Network.start, Disruptor.new, Function.comp_def, hstart]
  rfl

section Runs
variable [DecidableEq P] [DecidableEq C] {blank : α} {es : List (NetworkEvent α P C)}

theorem exec_toNat (hsize : w.size = 2 ^ n) (hn : n < 32)
    (hfits : (network64Machine w blank).Along Network64.Fits (.start w blank) es) :
    ((network64Machine w blank).exec (.start w blank) es).map Network64.toNat =
      (networkMachine w blank).exec (.start w blank) es := by
  rw [← start_toNat hsize hn blank]
  refine Machine.exec_map_along (fun s e hs he => ?_) ?_ hfits
  · exact network64Step_toNat hsize hn (network_ok hs) he
  · rw [start_toNat hsize hn blank]
    exact .refl _

/-! ## Runs without limits -/

/-- No consumer is in a constructor with a `maxBatchSize`. -/
def Unlimited (get : C → ConsumerPc C) : Prop :=
  ∀ c kind barrier, get c = .waitBarrier kind barrier → kind.maxBatchSize = none

theorem Unlimited.update {get : C → ConsumerPc C} {c : C} {pc : ConsumerPc C}
    (h : Unlimited get) (hpc : ∀ kind barrier, pc = .waitBarrier kind barrier → kind.maxBatchSize = none) :
    Unlimited (Function.update get c pc) := by
  intro c' kind barrier hget
  by_cases hc : c' = c
  · subst hc
    rw [Function.update_self] at hget
    exact hpc kind barrier hget
  · rw [Function.update_of_ne hc] at hget
    exact h c' kind barrier hget

theorem Unlimited.step {s s' : Network α P C} {e : NetworkEvent α P C} (h : Unlimited s.get)
    (he : e.Unlimited) (hstep : networkStep w s e = some s') : Unlimited s'.get := by
  cases e with
  | put p msg =>
    simp only [networkStep] at hstep
    split at hstep <;> cases hstep
    exact h
  | putLoad p i =>
    simp only [networkStep] at hstep
    split at hstep
    · obtain ⟨barrier', -, rfl⟩ := Option.map_eq_some_iff.mp hstep
      exact h
    · cases hstep
  | putStep p => cases producerStep_cases hstep <;> exact h
  | get c kind =>
    simp only [networkStep] at hstep
    split at hstep <;> cases hstep
    exact h.update fun kind' barrier hpc => by cases hpc; exact he
  | getLoad c i =>
    simp only [networkStep] at hstep
    split at hstep
    · rename_i kind barrier hget
      obtain ⟨barrier', -, rfl⟩ := Option.map_eq_some_iff.mp hstep
      exact h.update fun kind' barrier hpc => by cases hpc; exact h c kind _ hget
    · cases hstep
  | getStep c =>
    change s.getStep w c = some s' at hstep
    unfold Network.getStep at hstep
    split at hstep
    · cases hstep
    · rename_i kind rest least hget
      split at hstep <;> cases hstep
      refine h.update fun kind' barrier hpc => ?_
      split at hpc <;> cases hpc
      exact h c kind _ hget
    · split at hstep <;> cases hstep
      · exact h.update fun kind barrier hpc => by cases hpc
      · exact h.update fun kind barrier hpc => by cases hpc

theorem putCursor_mono {s s' : Network α P C} (h : (networkMachine w blank).Reaches s s') :
    s.ring.putCursor ≤ s'.ring.putCursor := by
  refine h.preserves (P := fun u => s.ring.putCursor ≤ u.ring.putCursor) (fun u e v hu hstep => ?_) le_rfl
  obtain ⟨p, hp⟩ | ⟨c, hc⟩ := networkStep_cases hstep
  · cases hp with
    | claim => exact Nat.le_succ_of_le hu
    | _ => exact hu
  · cases hc <;> exact hu

/-- A run of the ring with natural numbers in which batches are not limited and the
claims stay below the last index is one of the ring with 64-bit indices. -/
theorem fits_along (hsize : w.size = 2 ^ n) (hn : n < 32) {s : Network64 α P C} {s' : Network α P C}
    (hs : (networkMachine w blank).Reachable s.toNat) (hes : ∀ e ∈ es, e.Unlimited)
    (hget : Unlimited s.toNat.get) (h : (networkMachine w blank).exec s.toNat es = some s')
    (hlast : s'.ring.putCursor < 2 ^ 64) :
    (network64Machine w blank).Along Network64.Fits s es := by
  induction es generalizing s with
  | nil => trivial
  | cons e es ih =>
    obtain ⟨he, hes⟩ := List.forall_mem_cons.mp hes
    obtain ⟨u, hu, hrest⟩ := Option.bind_eq_some_iff.mp h
    have hfits : s.Fits e := by
      cases e with
      | putStep p =>
        intro msg hput
        have hclaim : u.ring.putCursor = s.putCursor.toNat + 1 := by
          change s.toNat.putStep w p = some u at hu
          have hput' : s.toNat.put p = some (msg, .claim) := by
            simp [Network64.toNat, hput, SharedPutPc.toNat]
          simp only [Network.putStep, hput'] at hu
          cases hu
          rfl
        rw [← hclaim]
        exact (putCursor_mono ⟨es, hrest⟩).trans_lt hlast
      | getStep c =>
        intro kind barrier n hwait hmax
        have hwait' : s.toNat.get c = .waitBarrier kind barrier.toNat := by
          simp [Network64.toNat, hwait, ConsumerPc.toNat]
        rw [hget c kind _ hwait'] at hmax
        cases hmax
      | _ => trivial
    refine ⟨hfits, fun t ht => ?_⟩
    have htu : t.toNat = u := by
      have hstep := network64Step_toNat hsize hn (network_ok hs) hfits
      change network64Step w s e = some t at ht
      rw [ht] at hstep
      exact Option.some.inj (hstep.trans hu)
    subst htu
    exact ih (hs.reaches (.single hu)) hes (hget.step he hu) hrest

/-- The same from the start. -/
theorem start_fits (hsize : w.size = 2 ^ n) (hn : n < 32) {s : Network α P C}
    (hes : ∀ e ∈ es, e.Unlimited) (h : (networkMachine w blank).exec (.start w blank) es = some s)
    (hlast : s.ring.putCursor < 2 ^ 64) :
    (network64Machine w blank).Along Network64.Fits (.start w blank) es := by
  rw [← start_toNat hsize hn blank] at h
  refine fits_along hsize hn ?_ hes ?_ h hlast <;> rw [start_toNat hsize hn blank]
  · exact .refl _
  · exact fun c kind barrier hget => by cases hget

theorem network64_reaches (hsize : w.size = 2 ^ n) (hn : n < 32) {s : Network α P C}
    (h : (networkMachine w blank).ReachesBy NetworkEvent.Unlimited (.start w blank) s)
    (hlast : s.ring.putCursor < 2 ^ 64) :
    ∃ t, (network64Machine w blank).Reachable t ∧ t.toNat = s := by
  obtain ⟨es, hes, hrun⟩ := h
  have hexec := exec_toNat hsize hn (start_fits hsize hn hes hrun hlast)
  rw [hrun] at hexec
  obtain ⟨t, ht, hts⟩ := Option.map_eq_some_iff.mp hexec
  exact ⟨t, ⟨es, ht⟩, hts⟩

/-- On every schedule along which no index wraps, a ring with the masks and the 64-bit
arithmetic of the code does what it does with natural numbers, and so delivers. -/
theorem index_agrees (hsize : w.size = 2 ^ n) (hn : n < 32)
    (hfits : (network64Machine w blank).Along Network64.Fits (.start w blank) es) :
    ((network64Machine w blank).exec (.start w blank) es).map Network64.toNat =
        (networkMachine w blank).exec (.start w blank) es ∧
      ∀ s, (network64Machine w blank).exec (.start w blank) es = some s → s.toNat.Delivers w := by
  have hexec := exec_toNat hsize hn hfits
  refine ⟨hexec, fun s hs => ?_⟩
  rw [hs] at hexec
  exact (network_ok ⟨es, hexec.symm⟩).delivers

/-- Not so `Get(SIZE_MAX)`: its batch ends before it begins. -/
theorem batchEnd_sizeMax {noBlock : Bool} {first least : Index} (hfirst : 0 < first)
    (hleast : first < least) :
    (GetKind.mk (some (2 ^ 64 - 1)) noBlock).batchEnd64 first least = some (first - 1) := by
  have hwrap : first + UInt64.ofNat (2 ^ 64 - 1) = first - 1 := by
    rw [UInt64.sub_eq_add_neg]
    rfl
  have hspin : ¬ (noBlock = false ∧ least ≤ first) := fun h => UInt64.not_le.mpr hleast h.2
  have hmin : min least (first - 1) = first - 1 := by
    have hone : 1 ≤ first := UInt64.le_iff_toNat_le.mpr (UInt64.lt_iff_toNat_lt.mp hfirst)
    have hlt := UInt64.lt_iff_toNat_lt.mp hleast
    refine UInt64.toNat_inj.mp ?_
    rw [toNat_min, UInt64.toNat_sub_of_le _ _ hone]
    exact min_eq_right (by omega)
  simp only [GetKind.batchEnd64, if_neg hspin, Option.elim_some, hwrap, hmin]

end Runs

/-- The consumer is given all there is, and both threads have put. -/
theorem overtaken_agrees :
    ∃ s, (network64Machine twoThreads 0).exec (.start twoThreads 0) overtaken = some s ∧
      s.handled () = [1, 2] ∧ s.toNat.Delivers twoThreads := by
  have hrun : ((networkMachine twoThreads 0).exec (.start twoThreads 0) overtaken).map
      (fun s => (s.ring.putCursor, s.handled ())) = some (4, [1, 2]) := by
    rfl
  obtain ⟨s, hs, hstate⟩ := Option.map_eq_some_iff.mp hrun
  obtain ⟨hput, hhandled⟩ := Prod.mk.inj hstate
  have hes : ∀ e ∈ overtaken, e.Unlimited := by simp [overtaken, NetworkEvent.Unlimited]
  obtain ⟨hexec, hdelivers⟩ := index_agrees (n := 1) rfl (by decide)
    (start_fits (n := 1) rfl (by decide) hes hs (hput ▸ by decide))
  rw [hs] at hexec
  obtain ⟨t, ht, hts⟩ := Option.map_eq_some_iff.mp hexec
  exact ⟨t, ht, (congrArg (fun u => u.handled ()) hts).trans hhandled, hdelivers t ht⟩

end Agreement

end TradingMarket.L3
