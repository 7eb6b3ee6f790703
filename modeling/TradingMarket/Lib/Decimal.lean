import Mathlib.Data.List.TakeWhile

/-! # Decimal integers as text

`printInt` writes an integer, `scanInt` reads an optional sign and the digits
after it and does not look at the rest. Reading back what was written gives the
integer, whatever its size. -/
namespace TradingMarket.Lib

/-- Decimal notation, a `-` first for a negative number. -/
def printInt (n : Int) : List Char :=
  if n < 0 then '-' :: Nat.toDigits 10 n.natAbs else Nat.toDigits 10 n.natAbs

/-- The number the leading digits denote, if there are any. -/
def scanNat (text : List Char) : Option Nat :=
  let digits := text.takeWhile Char.isDigit
  if digits = [] then none else some (Nat.ofDigitChars 10 digits 0)

/-- The number an optional sign and the digits after it denote. -/
def scanInt : List Char → Option Int
  | [] => none
  | c :: text =>
    if c = '-' then (scanNat text).map fun n : Nat => -(n : Int)
    else if c = '+' then (scanNat text).map fun n : Nat => (n : Int)
    else (scanNat (c :: text)).map fun n : Nat => (n : Int)

theorem scanNat_toDigits (n : Nat) : scanNat (Nat.toDigits 10 n) = some n := by
  have hdigits : (Nat.toDigits 10 n).takeWhile Char.isDigit = Nat.toDigits 10 n :=
    List.takeWhile_eq_self_iff.mpr fun c hc =>
      Nat.isDigit_of_mem_toDigits (by decide) (by decide) hc
  simp [scanNat, hdigits, Nat.ofDigitChars_ten_toDigits]

/-- Every character of a printed integer is a digit or the sign. -/
theorem mem_printInt {n : Int} {c : Char} (h : c ∈ printInt n) : c.isDigit = true ∨ c = '-' := by
  have hdigit : c ∈ Nat.toDigits 10 n.natAbs → c.isDigit = true := fun hc =>
    Nat.isDigit_of_mem_toDigits (by decide) (by decide) hc
  unfold printInt at h
  split at h
  · rcases List.mem_cons.mp h with rfl | h
    · exact .inr rfl
    · exact .inl (hdigit h)
  · exact .inl (hdigit h)

theorem printInt_ne_nil (n : Int) : printInt n ≠ [] := by
  unfold printInt
  split
  · exact List.cons_ne_nil _ _
  · exact Nat.toDigits_ne_nil

theorem scanInt_printInt (n : Int) : scanInt (printInt n) = some n := by
  unfold printInt
  split
  · rename_i hneg
    have hval : -(n.natAbs : Int) = n := by omega
    rw [scanInt, if_pos rfl, scanNat_toDigits, Option.map_some, hval]
  · rename_i hpos
    have hval : (n.natAbs : Int) = n := by omega
    cases htext : Nat.toDigits 10 n.natAbs with
    | nil => exact absurd htext Nat.toDigits_ne_nil
    | cons c text =>
      have hc : c.isDigit = true :=
        Nat.isDigit_of_mem_toDigits (by decide) (by decide) (htext ▸ List.mem_cons_self)
      have hminus : c ≠ '-' := ne_of_apply_ne Char.isDigit (hc ▸ by decide)
      have hplus : c ≠ '+' := ne_of_apply_ne Char.isDigit (hc ▸ by decide)
      rw [scanInt, if_neg hminus, if_neg hplus, ← htext, scanNat_toDigits, Option.map_some, hval]

/-! ## Text that is nothing but an integer -/

/-- The text after an optional sign. -/
def unsigned : List Char → List Char
  | [] => []
  | c :: text => if c = '-' ∨ c = '+' then text else c :: text

theorem unsigned_cons (c : Char) (text : List Char) :
    unsigned (c :: text) = if c = '-' ∨ c = '+' then text else c :: text := rfl

/-- The integer a whole text denotes: an optional sign and digits to the end. -/
def readInt (text : List Char) : Option Int :=
  if (unsigned text).all Char.isDigit then scanInt text else none

/-- A whole integer reads as its leading digits do. -/
theorem readInt_scan {text : List Char} {n : Int} (h : readInt text = some n) :
    scanInt text = some n := by
  unfold readInt at h
  split at h
  · exact h
  · cases h

/-- A whole integer starts with a digit or a sign. -/
theorem readInt_head {text : List Char} {n : Int} (h : readInt text = some n) :
    ∃ c rest, text = c :: rest ∧ (c.isDigit = true ∨ c = '-' ∨ c = '+') := by
  cases text with
  | nil => cases h
  | cons c rest =>
    refine ⟨c, rest, rfl, ?_⟩
    by_cases hsign : c = '-' ∨ c = '+'
    · exact .inr hsign
    · rw [readInt, unsigned_cons, if_neg hsign] at h
      split at h
      · rename_i hall
        exact .inl (List.all_eq_true.mp hall c List.mem_cons_self)
      · cases h

end TradingMarket.Lib
