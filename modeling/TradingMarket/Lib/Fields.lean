import Mathlib.Data.List.Basic

/-! # Records read field by field

A reader that takes one token for each of a list of fields, and writes a field as
soon as its token is accepted. It ends in one of three ways: all fields are
read, the tokens run out, or a token is rejected; whatever was written before
stays written. -/
namespace TradingMarket.Lib

variable {ε σ τ : Type}

/-- What a field makes of its token: an error, or a write to the record. -/
abbrev FieldReader (ε σ τ : Type) := τ → Except ε (σ → σ)

/-- Go on with the next token, or end where there is none. -/
def withToken (missing : ε) (toks : List τ) (s : σ)
    (rest : τ → List τ → EStateM.Result ε σ Unit) : EStateM.Result ε σ Unit :=
  match toks with
  | [] => .error missing s
  | tok :: toks => rest tok toks

/-- Go on with what a conversion returned, or end with its error. -/
def withValue {α : Type} (converted : Except ε α) (s : σ)
    (rest : α → EStateM.Result ε σ Unit) : EStateM.Result ε σ Unit :=
  match converted with
  | .error e => .error e s
  | .ok x => rest x

/-- Read the fields one after the other; `missing` where there is no token. -/
def readFields (missing : ε) : List (FieldReader ε σ τ) → List τ → σ → EStateM.Result ε σ Unit
  | [], _, s => .ok () s
  | field :: fields, toks, s =>
    withToken missing toks s fun tok toks =>
      withValue (field tok) s fun write => readFields missing fields toks (write s)

/-- No token there is for a field is rejected by it. -/
def Accepted (fields : List (FieldReader ε σ τ)) (toks : List τ) : Prop :=
  ∀ p ∈ fields.zip toks, ∃ write, p.1 p.2 = .ok write

variable {missing : ε} {fields : List (FieldReader ε σ τ)} {toks : List τ} {s s' : σ}

@[simp] theorem readFields_nil (toks : List τ) (s : σ) : readFields missing [] toks s = .ok () s := rfl

@[simp] theorem readFields_cons (field : FieldReader ε σ τ) (tok : τ) :
    readFields missing (field :: fields) (tok :: toks) s =
      withValue (field tok) s fun write => readFields missing fields toks (write s) := rfl

/-- A field that converts its token. -/
theorem readFields_map {α : Type} (convert : τ → Except ε α) (write : α → σ → σ) (toks : List τ)
    (s : σ) :
    readFields missing ((fun tok => (convert tok).map write) :: fields) toks s =
      withToken missing toks s fun tok toks =>
        withValue (convert tok) s fun x => readFields missing fields toks (write x s) := by
  cases toks with
  | nil => rfl
  | cons tok toks => cases h : convert tok <;> simp [withToken, withValue, h, Except.map]

/-- A field that takes its token as it is. -/
theorem readFields_write (write : τ → σ → σ) (toks : List τ) (s : σ) :
    readFields missing ((fun tok => .ok (write tok)) :: fields) toks s =
      withToken missing toks s fun tok toks => readFields missing fields toks (write tok s) := rfl

@[simp] theorem accepted_nil : Accepted ([] : List (FieldReader ε σ τ)) toks := by simp [Accepted]

theorem accepted_cons {field : FieldReader ε σ τ} {tok : τ} :
    Accepted (field :: fields) (tok :: toks) ↔
      (∃ write, field tok = .ok write) ∧ Accepted fields toks := by
  simp [Accepted]

theorem readFields_cons_ok {field : FieldReader ε σ τ} :
    readFields missing (field :: fields) toks s = .ok () s' ↔
      ∃ tok rest write, toks = tok :: rest ∧ field tok = .ok write ∧
        readFields missing fields rest (write s) = .ok () s' := by
  cases toks with
  | nil => simp [readFields, withToken]
  | cons tok toks => cases hfield : field tok <;> simp [withValue, hfield]

theorem readFields_map_ok {α : Type} {convert : τ → Except ε α} {write : α → σ → σ} :
    readFields missing ((fun tok => (convert tok).map write) :: fields) toks s = .ok () s' ↔
      ∃ tok rest x, toks = tok :: rest ∧ convert tok = .ok x ∧
        readFields missing fields rest (write x s) = .ok () s' := by
  rw [readFields_map]
  cases toks with
  | nil => simp [withToken]
  | cons tok toks => cases h : convert tok <;> simp [withToken, withValue, h]

theorem readFields_write_ok {write : τ → σ → σ} :
    readFields missing ((fun tok => .ok (write tok)) :: fields) toks s = .ok () s' ↔
      ∃ tok rest, toks = tok :: rest ∧
        readFields missing fields rest (write tok s) = .ok () s' := by
  rw [readFields_write]
  cases toks <;> simp [withToken]

/-- A reader that gets through has accepted a token for each field. -/
theorem readFields_accepted (h : readFields missing fields toks s = .ok () s') :
    Accepted fields toks ∧ fields.length ≤ toks.length := by
  induction fields generalizing toks s with
  | nil => exact ⟨accepted_nil, Nat.zero_le _⟩
  | cons field fields ih =>
    obtain ⟨tok, rest, write, rfl, hfield, hrest⟩ := readFields_cons_ok.mp h
    obtain ⟨hacc, hlen⟩ := ih hrest
    exact ⟨accepted_cons.mpr ⟨⟨write, hfield⟩, hacc⟩, Nat.succ_le_succ hlen⟩

/-- The reader ended at a token its field rejects. Up to there it is the reader of
the fields before. -/
structure Rejected (missing : ε) (fields : List (FieldReader ε σ τ)) (toks : List τ) (s : σ) (i : Nat)
    (e : ε) (s' : σ) : Prop where
  token : ∃ field tok, fields[i]? = some field ∧ toks[i]? = some tok ∧ field tok = .error e
  before : readFields missing (fields.take i) toks s = .ok () s'
  ends : readFields missing fields toks s = .error e s'

theorem Rejected.not_accepted {i : Nat} {e : ε} (h : Rejected missing fields toks s i e s') :
    ¬ Accepted fields toks := by
  intro hacc
  obtain ⟨field, tok, hfield, htok, he⟩ := h.token
  have hzip : (fields.zip toks)[i]? = some (field, tok) := by
    rw [List.getElem?_zip_eq_some]
    exact ⟨hfield, htok⟩
  obtain ⟨write, hw⟩ := hacc _ (List.mem_of_getElem? hzip)
  cases he.symm.trans hw

/-- The three ways a reader ends. -/
theorem readFields_cases (missing : ε) (fields : List (FieldReader ε σ τ)) (toks : List τ) (s : σ) :
    (∃ s', readFields missing fields toks s = .ok () s') ∨
      (Accepted fields toks ∧ toks.length < fields.length ∧
        ∃ s', readFields missing fields toks s = .error missing s') ∨
      ∃ i e s', Rejected missing fields toks s i e s' := by
  induction fields generalizing toks s with
  | nil => exact .inl ⟨s, rfl⟩
  | cons field fields ih =>
    cases toks with
    | nil => exact .inr (.inl ⟨by simp [Accepted], by simp, s, rfl⟩)
    | cons tok toks =>
      cases hfield : field tok with
      | error e =>
        refine .inr (.inr ⟨0, e, s, ⟨field, tok, rfl, rfl, hfield⟩, rfl, ?_⟩)
        simp only [readFields_cons, withValue, hfield]
      | ok write =>
        have hstep : readFields missing (field :: fields) (tok :: toks) s =
            readFields missing fields toks (write s) := by
          simp only [readFields_cons, withValue, hfield]
        rcases ih toks (write s) with ⟨s', hs'⟩ | ⟨hacc, hlen, s', hs'⟩ | ⟨i, e, s', htoken, hbefore, hends⟩
        · exact .inl ⟨s', hstep.trans hs'⟩
        · exact .inr (.inl ⟨accepted_cons.mpr ⟨⟨write, hfield⟩, hacc⟩, Nat.succ_lt_succ hlen, s',
            hstep.trans hs'⟩)
        · refine .inr (.inr ⟨i + 1, e, s', htoken, ?_, hstep.trans hends⟩)
          exact readFields_cons_ok.mpr ⟨tok, toks, write, rfl, hfield, hbefore⟩

end TradingMarket.Lib
