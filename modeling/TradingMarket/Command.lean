import TradingMarket.OrderRing
import TradingMarket.Lib.Decimal

/-! # Order commands

`Order::cmdStr` and `Order::fromCmdStr` (`OrderRing.cpp`): the text an order
travels as, and its parser. The parser writes the fields of the receiving order
one after the other, so it is a state monad over the order whose failures keep
the fields already written.

`cpp_dec_float_50` is a parameter: its two printers and its string constructor. -/
namespace TradingMarket

/-- What the commands use of `cpp_dec_float_50`: the string constructor (`none`:
it throws), `str(50)` and `str()`. -/
structure NumberText (Num : Type) where
  ofStr : Text → Option Num
  str50 : Num → Text
  str : Num → Text

/-- How `fromCmdStr` fails. The last one is no exception: it dereferences the
token iterator at its end, which is undefined. -/
inductive Failure where
  | invalidArgument (what : Text)
  | outOfRange (what : Text)
  | badNumber
  | pastEnd
deriving DecidableEq, Repr

/-! ## Printing -/

def OrderType.text : OrderType → Text
  | .ask => "ASK".toList
  | .bid => "BID".toList
  | .cancel => "CAN".toList

def MatchType.text : MatchType → Text
  | .market => "MARKET".toList
  | .limit => "LIMIT".toList

section Printing
variable {Num : Type} (nt : NumberText Num)

def Order.cmdStr (o : Order Num) : Text :=
  "ORDER ".toList ++ Lib.printInt o.sequence.toInt
    ++ " ".toList ++ o.type.text
    ++ " ".toList ++ o.matchType.text
    ++ " ".toList ++ o.code
    ++ " ".toList ++ nt.str50 o.quantity
    ++ " ".toList ++ nt.str o.price

end Printing

/-! ## Parsing -/

/-- `boost::tokenizer` with `char_separator(" ")`. -/
def tokens (str : Text) : List Text := (str.splitOn ' ').filter (· ≠ [])

/-- `isspace` in the C locale. -/
def isspace (c : Char) : Bool :=
  c = ' ' || c = '\t' || c = '\n' || c = '\x0b' || c = '\x0c' || c = '\r'

/-- The range of `int`. -/
def InIntRange (n : Int) : Prop := -2 ^ 31 ≤ n ∧ n < 2 ^ 31

instance (n : Int) : Decidable (InIntRange n) := inferInstanceAs (Decidable (_ ∧ _))

/-- `std::stoi`. -/
def stoi (str : Text) : Except Failure Int :=
  match Lib.scanInt (str.dropWhile isspace) with
  | none => .error (.invalidArgument "stoi".toList)
  | some n => if InIntRange n then .ok n else .error (.outOfRange "stoi".toList)

def typeOf (tok : Text) : Except Failure OrderType :=
  if tok = "ASK".toList then .ok .ask
  else if tok = "BID".toList then .ok .bid
  else if tok = "CAN".toList then .ok .cancel
  else .error (.invalidArgument "Not an Order command string: incorrect type".toList)

def matchTypeOf (tok : Text) : Except Failure MatchType :=
  if tok = "MARKET".toList then .ok .market
  else if tok = "LIMIT".toList then .ok .limit
  else .error (.invalidArgument "Not an Order command string: incorrect matchType".toList)

section Parsing
variable {Num : Type} (nt : NumberText Num)

abbrev Parser (Num : Type) := EStateM Failure (Order Num)

/-- `*tok_iter` and `++tok_iter`. -/
def next : List Text → Parser Num (Text × List Text)
  | [] => throw .pastEnd
  | tok :: toks => pure (tok, toks)

/-- The constructor of `cpp_dec_float_50`. -/
def number (tok : Text) : Except Failure Num :=
  match nt.ofStr tok with
  | none => .error .badNumber
  | some x => .ok x

def checkPrefix (tok : Text) : Except Failure Unit :=
  if tok = "ORDER".toList then .ok ()
  else .error (.invalidArgument "Not an Order command string: incorrect prefix".toList)

def fromCmdStr (str : Text) : Parser Num Unit := do
  let (tok, toks) ← next (tokens str)
  ofExcept (checkPrefix tok)
  let (tok, toks) ← next toks
  let sequence ← ofExcept (stoi tok)
  modify ({ · with sequence := Int64.ofInt sequence })
  let (tok, toks) ← next toks
  let type ← ofExcept (typeOf tok)
  modify ({ · with type })
  let (tok, toks) ← next toks
  let matchType ← ofExcept (matchTypeOf tok)
  modify ({ · with matchType })
  let (code, toks) ← next toks
  modify ({ · with code })
  let (tok, toks) ← next toks
  let quantity ← ofExcept (number nt tok)
  modify ({ · with quantity })
  let (tok, _) ← next toks
  let price ← ofExcept (number nt tok)
  modify ({ · with price })

/-- The order seven tokens denote. -/
def ofTokens : List Text → Option (Order Num)
  | tok₁ :: tok₂ :: tok₃ :: tok₄ :: code :: tok₆ :: tok₇ :: _ => do
    let () ← (checkPrefix tok₁).toOption
    let sequence ← (stoi tok₂).toOption
    let type ← (typeOf tok₃).toOption
    let matchType ← (matchTypeOf tok₄).toOption
    let quantity ← nt.ofStr tok₆
    let price ← nt.ofStr tok₇
    return ⟨Int64.ofInt sequence, type, matchType, code, quantity, price⟩
  | _ => none

/-! ## What the parts accept -/

theorem stoi_eq_ok {tok : Text} {n : Int} :
    stoi tok = .ok n ↔ Lib.scanInt (tok.dropWhile isspace) = some n ∧ InIntRange n := by
  unfold stoi
  cases Lib.scanInt (tok.dropWhile isspace) with
  | none => simp
  | some m =>
    by_cases hm : InIntRange m
    · simp only [hm, if_true, Except.ok.injEq, Option.some.injEq]
      exact ⟨fun h => ⟨h, h ▸ hm⟩, And.left⟩
    · simp only [hm, if_false, reduceCtorEq, Option.some.injEq, false_iff, not_and]
      exact fun h => h ▸ hm

theorem checkPrefix_eq_ok {tok : Text} : checkPrefix tok = .ok () ↔ tok = "ORDER".toList := by
  unfold checkPrefix
  split <;> simp_all

theorem typeOf_text (t : OrderType) : typeOf t.text = .ok t := by cases t <;> rfl

theorem matchTypeOf_text (m : MatchType) : matchTypeOf m.text = .ok m := by cases m <;> rfl

theorem typeOf_eq_ok {tok : Text} {type : OrderType} : typeOf tok = .ok type ↔ tok = type.text := by
  constructor
  · intro h
    unfold typeOf at h
    split at h
    · rename_i htok
      cases h
      exact htok
    · split at h
      · rename_i htok
        cases h
        exact htok
      · split at h
        · rename_i htok
          cases h
          exact htok
        · cases h
  · intro h
    rw [h, typeOf_text]

theorem matchTypeOf_eq_ok {tok : Text} {matchType : MatchType} :
    matchTypeOf tok = .ok matchType ↔ tok = matchType.text := by
  constructor
  · intro h
    unfold matchTypeOf at h
    split at h
    · rename_i htok
      cases h
      exact htok
    · split at h
      · rename_i htok
        cases h
        exact htok
      · cases h
  · intro h
    rw [h, matchTypeOf_text]

theorem typeOf_isOk {tok : Text} :
    (∃ type, typeOf tok = .ok type) ↔ tok ∈ ["ASK".toList, "BID".toList, "CAN".toList] := by
  simp only [typeOf_eq_ok, List.mem_cons, List.not_mem_nil, or_false]
  constructor
  · intro h
    obtain ⟨type, rfl⟩ := h
    cases type
    · exact .inl rfl
    · exact .inr (.inl rfl)
    · exact .inr (.inr rfl)
  · intro h
    rcases h with h | h | h
    · exact ⟨.ask, h⟩
    · exact ⟨.bid, h⟩
    · exact ⟨.cancel, h⟩

theorem matchTypeOf_isOk {tok : Text} :
    (∃ matchType, matchTypeOf tok = .ok matchType) ↔
      tok ∈ ["MARKET".toList, "LIMIT".toList] := by
  simp only [matchTypeOf_eq_ok, List.mem_cons, List.not_mem_nil, or_false]
  constructor
  · intro h
    obtain ⟨matchType, rfl⟩ := h
    cases matchType
    · exact .inl rfl
    · exact .inr rfl
  · intro h
    rcases h with h | h
    · exact ⟨.market, h⟩
    · exact ⟨.limit, h⟩

theorem toOption_eq_some {α : Type} {e : Except Failure α} {a : α} :
    e.toOption = some a ↔ e = .ok a := by
  cases e <;> simp [Except.toOption]

variable {nt}

/-- Tokens that denote an order spell its type, its match type and its code. -/
theorem ofTokens_eq_some {toks : List Text} {o : Order Num} :
    ofTokens nt toks = some o ↔ ∃ tok₂ tok₆ tok₇ rest n,
      toks = "ORDER".toList :: tok₂ :: o.type.text :: o.matchType.text :: o.code :: tok₆ :: tok₇ ::
        rest ∧ stoi tok₂ = .ok n ∧ o.sequence = Int64.ofInt n ∧ nt.ofStr tok₆ = some o.quantity ∧
        nt.ofStr tok₇ = some o.price := by
  constructor
  · intro h
    unfold ofTokens at h
    split at h
    · simp only [Option.bind_eq_bind, Option.bind_eq_some_iff, Option.pure_def,
        Option.some.injEq, toOption_eq_some] at h
      obtain ⟨_, h₁, n, h₂, type, h₃, matchType, h₄, quantity, h₆, price, h₇, rfl⟩ := h
      obtain rfl := checkPrefix_eq_ok.mp h₁
      obtain rfl := typeOf_eq_ok.mp h₃
      obtain rfl := matchTypeOf_eq_ok.mp h₄
      exact ⟨_, _, _, _, n, rfl, h₂, rfl, h₆, h₇⟩
    · cases h
  · intro h
    obtain ⟨tok₂, tok₆, tok₇, rest, n, rfl, h₂, hseq, h₆, h₇⟩ := h
    have h₁ := checkPrefix_eq_ok.mpr (@rfl _ "ORDER".toList)
    simp only [ofTokens, h₁, h₂, typeOf_text, matchTypeOf_text, h₆, h₇, Except.toOption,
      Option.bind_eq_bind, Option.bind_some, Option.pure_def, ← hseq]

/-! ## What a parse can do -/

variable {α β : Type} {p p' : Order Num}

theorem bind_ok {x : Parser Num α} {f : α → Parser Num β} {b : β} :
    (x >>= f).run p = .ok b p' ↔ ∃ a q, x.run p = .ok a q ∧ (f a).run q = .ok b p' := by
  rw [EStateM.run_bind]
  cases x.run p <;> simp

theorem throw_run (failure : Failure) :
    (throw failure : Parser Num α).run p = .error failure p := rfl

theorem next_ok {toks : List Text} {r : Text × List Text} :
    (next toks : Parser Num _).run p = .ok r p' ↔ toks = r.1 :: r.2 ∧ p' = p := by
  cases toks with
  | nil => simp [next, throw_run]
  | cons tok toks =>
    obtain ⟨tok', toks'⟩ := r
    simp [next, eq_comm, and_assoc]

theorem ofExcept_ok {e : Except Failure α} {a : α} :
    (ofExcept e : Parser Num α).run p = .ok a p' ↔ e.toOption = some a ∧ p' = p := by
  cases e with
  | error e => simp [ofExcept, throw_run, Except.toOption]
  | ok b => simp [ofExcept, Except.toOption, eq_comm]

theorem number_toOption (tok : Text) : (number nt tok).toOption = nt.ofStr tok := by
  unfold number
  split <;> simp_all [Except.toOption]

/-- A parse succeeds exactly when the tokens denote an order, and then leaves that
order, whatever the receiving order was. -/
theorem fromCmdStr_ok {str : Text} {o : Order Num} :
    (fromCmdStr nt str).run p = .ok () o ↔ ofTokens nt (tokens str) = some o := by
  unfold fromCmdStr
  generalize tokens str = toks
  simp only [bind_ok, next_ok, ofExcept_ok, number_toOption, EStateM.run_modify, Prod.exists,
    and_assoc, exists_and_left, exists_eq_left, exists_eq_left', EStateM.Result.ok.injEq, true_and,
    exists_const]
  constructor
  · rintro ⟨tok₁, _, rfl, _, h₁, tok₂, _, rfl, sequence, h₂, tok₃, _, rfl, type, h₃, tok₄, _, rfl,
      matchType, h₄, code, _, rfl, tok₆, _, rfl, quantity, h₆, tok₇, _, rfl, price, h₇, rfl⟩
    simp [ofTokens, h₁, h₂, h₃, h₄, h₆, h₇]
  · intro h
    unfold ofTokens at h
    split at h
    · simp only [Option.bind_eq_bind, Option.bind_eq_some_iff, Option.pure_def,
        Option.some.injEq] at h
      obtain ⟨_, h₁, sequence, h₂, type, h₃, matchType, h₄, quantity, h₆, price, h₇, rfl⟩ := h
      exact ⟨_, _, rfl, _, h₁, _, _, rfl, _, h₂, _, _, rfl, _, h₃, _, _, rfl, _, h₄, _, _, rfl,
        _, _, rfl, _, h₆, _, _, rfl, _, h₇, rfl⟩
    · cases h

/-! ## Round trip -/

/-- What the commands rely on of the printers: non-empty text without spaces that
the constructor reads back. `short`: at most 50 significant decimal digits. -/
structure NumberText.Reads (nt : NumberText Num) (short : Num → Prop) : Prop where
  str50 : ∀ x, short x → nt.str50 x ≠ [] ∧ ' ' ∉ nt.str50 x ∧ nt.ofStr (nt.str50 x) = some x
  str : ∀ x, nt.str x ≠ [] ∧ ' ' ∉ nt.str x ∧ nt.ofStr (nt.str x) = some x

theorem space_not_mem_printInt (n : Int) : ' ' ∉ Lib.printInt n := by
  intro h
  rcases Lib.mem_printInt h with hd | hm
  · revert hd; decide
  · revert hm; decide

theorem isspace_digit {c : Char} (hd : c.isDigit = true) : isspace c = false := by
  cases hs : isspace c with
  | false => rfl
  | true =>
    simp only [isspace, Bool.or_eq_true, decide_eq_true_eq] at hs
    rcases hs with ((((rfl | rfl) | rfl) | rfl) | rfl) | rfl <;> exact absurd hd (by decide)

theorem stoi_printInt (n : Int) : stoi (Lib.printInt n) =
    if InIntRange n then .ok n else .error (.outOfRange "stoi".toList) := by
  have hdrop : (Lib.printInt n).dropWhile isspace = Lib.printInt n := by
    cases htext : Lib.printInt n with
    | nil => rfl
    | cons c text =>
      have hc : isspace c = false := by
        have hmem : c ∈ Lib.printInt n := by rw [htext]; exact List.mem_cons_self
        rcases Lib.mem_printInt hmem with hd | rfl
        · exact isspace_digit hd
        · rfl
      rw [List.dropWhile_cons_of_neg (by simp [hc])]
  rw [stoi, hdrop, Lib.scanInt_printInt]

theorem tokens_intercalate {toks : List Text} (hne : toks ≠ [])
    (htoks : ∀ tok ∈ toks, tok ≠ [] ∧ ' ' ∉ tok) :
    tokens ([' '].intercalate toks) = toks := by
  rw [tokens, List.splitOn_intercalate ' ' (fun tok h => (htoks tok h).2) hne,
    List.filter_eq_self.mpr fun tok h => by simpa using (htoks tok h).1]

/-- The command of an order whose code and numbers are words has these words. -/
theorem tokens_of_words {o : Order Num} (hcode : o.code ≠ [] ∧ ' ' ∉ o.code)
    (hquantity : nt.str50 o.quantity ≠ [] ∧ ' ' ∉ nt.str50 o.quantity)
    (hprice : nt.str o.price ≠ [] ∧ ' ' ∉ nt.str o.price) :
    tokens (o.cmdStr nt) = ["ORDER".toList, Lib.printInt o.sequence.toInt, o.type.text,
      o.matchType.text, o.code, nt.str50 o.quantity, nt.str o.price] := by
  have hwords : o.cmdStr nt = [' '].intercalate ["ORDER".toList, Lib.printInt o.sequence.toInt,
      o.type.text, o.matchType.text, o.code, nt.str50 o.quantity, nt.str o.price] := by
    have horder : "ORDER ".toList = "ORDER".toList ++ [' '] := by decide
    have hspace : " ".toList = [' '] := by decide
    unfold Order.cmdStr
    -- the literals as variables: simp would compute with them
    generalize "ORDER ".toList = first at *
    generalize "ORDER".toList = order at *
    generalize " ".toList = space at *
    subst horder hspace
    simp only [List.intercalate_cons_cons, List.intercalate_singleton, List.append_assoc]
  have htype : o.type.text ≠ [] ∧ ' ' ∉ o.type.text := by cases o.type <;> decide
  have hmatch : o.matchType.text ≠ [] ∧ ' ' ∉ o.matchType.text := by
    cases o.matchType <;> decide
  rw [hwords]
  refine tokens_intercalate (List.cons_ne_nil _ _) ?_
  simp only [List.forall_mem_cons, List.not_mem_nil, false_imp_iff, implies_true, and_true]
  exact ⟨by decide, ⟨Lib.printInt_ne_nil _, space_not_mem_printInt _⟩, htype, hmatch, hcode,
    hquantity, hprice⟩

theorem tokens_cmdStr {short : Num → Prop} (hnt : nt.Reads short) {o : Order Num}
    (hcode : o.code ≠ [] ∧ ' ' ∉ o.code) (hq : short o.quantity) :
    tokens (o.cmdStr nt) = ["ORDER".toList, Lib.printInt o.sequence.toInt, o.type.text,
      o.matchType.text, o.code, nt.str50 o.quantity, nt.str o.price] :=
  tokens_of_words hcode ⟨(hnt.str50 _ hq).1, (hnt.str50 _ hq).2.1⟩ ⟨(hnt.str _).1, (hnt.str _).2.1⟩

/-- An order survives the trip through its command exactly when its sequence
number fits an `int`. -/
theorem cmdStr_roundTrip_iff {short : Num → Prop} (hnt : nt.Reads short) {o : Order Num}
    (hcode : o.code ≠ [] ∧ ' ' ∉ o.code) (hq : short o.quantity) (p : Order Num) :
    (fromCmdStr nt (o.cmdStr nt)).run p = .ok () o ↔ InIntRange o.sequence.toInt := by
  rw [fromCmdStr_ok, tokens_cmdStr hnt hcode hq]
  by_cases h : InIntRange o.sequence.toInt
  · simp [ofTokens, checkPrefix, stoi_printInt, h, typeOf_text, matchTypeOf_text, Except.toOption,
      (hnt.str50 _ hq).2.2, (hnt.str _).2.2]
  · simp [ofTokens, checkPrefix, stoi_printInt, h, Except.toOption]

/-- Integers as number text. -/
def integerText : NumberText Int where
  ofStr text := (Lib.scanInt text).filter (Lib.printInt · = text)
  str50 := Lib.printInt
  str := Lib.printInt

theorem integerText_reads : integerText.Reads fun _ => True := by
  have h : ∀ x, Lib.printInt x ≠ [] ∧ ' ' ∉ Lib.printInt x ∧
      integerText.ofStr (Lib.printInt x) = some x := fun x =>
    ⟨Lib.printInt_ne_nil x, space_not_mem_printInt x, by
      simp [integerText, Lib.scanInt_printInt]⟩
  exact ⟨fun x _ => h x, h⟩

/-- The first sequence number past the range of `int`. -/
def longSequence : Order Int := ⟨2147483648, .ask, .limit, "TKLAM".toList, 1, 10⟩

theorem longSequence_lost : integerText.Reads (fun _ => True) ∧
    longSequence.code ≠ [] ∧ ' ' ∉ longSequence.code ∧
    (fromCmdStr integerText (longSequence.cmdStr integerText)).run longSequence ≠
      .ok () longSequence := by
  refine ⟨integerText_reads, by decide, by decide, ?_⟩
  rw [Ne, fromCmdStr_ok]
  decide +kernel

/-- The last sequence number in the range of `int`. -/
def lastSequence : Order Int := ⟨2147483647, .bid, .market, "TKLAM".toList, 3, -7⟩

theorem lastSequence_roundTrips :
    (fromCmdStr integerText (lastSequence.cmdStr integerText)).run longSequence =
      .ok () lastSequence :=
  (cmdStr_roundTrip_iff integerText_reads (by decide) trivial longSequence).mpr (by decide)

end Parsing

end TradingMarket
