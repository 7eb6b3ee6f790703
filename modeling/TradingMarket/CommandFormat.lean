import Mathlib.Tactic.IntervalCases
import TradingMarket.Command
import TradingMarket.Lib.Fields

/-! # What the parser accepts, and what it leaves behind

`fromCmdStr` as a reader of seven fields (`fromCmdStr_run`), compared with the
format of the commands. It rejects what the format rejects as long as a token
is there to reject; it misses a command that is too short or too long, a
sequence token with more in it than the integer, and a sequence number that
only `int64_t` holds (`format_accepted_iff`). A rejected command leaves written
what stands before the rejected token (`fromCmdStr_writes`). -/
namespace TradingMarket

open Lib (FieldReader readFields Accepted Rejected)

variable {Num : Type} {nt : NumberText Num}

/-! ## The parser as a reader of fields -/

/-- The seven fields of a command, in order: how each token is converted and what
it is written to. -/
def commandFields (nt : NumberText Num) : List (FieldReader Failure (Order Num) Text) :=
  [fun tok => (checkPrefix tok).map fun _ o => o,
    fun tok => (stoi tok).map fun sequence o => { o with sequence := Int64.ofInt sequence },
    fun tok => (typeOf tok).map fun type o => { o with type },
    fun tok => (matchTypeOf tok).map fun matchType o => { o with matchType },
    fun code => .ok fun o => { o with code },
    fun tok => (number nt tok).map fun quantity o => { o with quantity },
    fun tok => (number nt tok).map fun price o => { o with price }]

theorem next_run (rest : Text × List Text → Parser Num Unit) (toks : List Text)
    (o : Order Num) :
    (next toks >>= rest).run o =
      Lib.withToken .pastEnd toks o fun tok toks => (rest (tok, toks)).run o := by
  cases toks <;> rfl

theorem ofExcept_run {α : Type} (converted : Except Failure α) (rest : α → Parser Num Unit)
    (o : Order Num) :
    ((ofExcept converted : Parser Num α) >>= rest).run o =
      Lib.withValue converted o fun x => (rest x).run o := by
  cases converted <;> rfl

theorem modify_run (write : Order Num → Order Num) (rest : PUnit → Parser Num Unit)
    (o : Order Num) : (modify write >>= rest).run o = (rest ⟨⟩).run (write o) := rfl

theorem fromCmdStr_run (str : Text) (o : Order Num) :
    (fromCmdStr nt str).run o = readFields .pastEnd (commandFields nt) (tokens str) o := by
  unfold fromCmdStr commandFields
  simp only [next_run, ofExcept_run, modify_run, EStateM.run_modify, Lib.readFields_map,
    Lib.readFields_write, Lib.readFields_nil]

/-! ## What each field accepts -/

theorem map_isOk {α β : Type} {e : Except Failure α} {f : α → β} :
    (∃ y, e.map f = .ok y) ↔ ∃ x, e = .ok x := by
  cases e <;> simp [Except.map]

theorem map_eq_error {α β : Type} {e : Except Failure α} {f : α → β} {failure : Failure} :
    e.map f = .error failure ↔ e = .error failure := by
  cases e <;> simp [Except.map]

theorem number_eq_ok {tok : Text} {x : Num} : number nt tok = .ok x ↔ nt.ofStr tok = some x := by
  unfold number
  cases nt.ofStr tok <;> simp

/-- `std::stoi` reads a whole integer where `int` holds it. -/
theorem stoi_readInt {tok : Text} {n : Int} (h : Lib.readInt tok = some n) :
    stoi tok = if InIntRange n then .ok n else .error (.outOfRange "stoi".toList) := by
  obtain ⟨c, rest, rfl, hc⟩ := Lib.readInt_head h
  have hspace : isspace c = false := by
    rcases hc with hd | rfl | rfl
    · exact isspace_digit hd
    · rfl
    · rfl
  rw [stoi, List.dropWhile_cons_of_neg (by simp [hspace]), Lib.readInt_scan h]

/-- Every error of a field is an exception. -/
theorem commandFields_error {field : FieldReader Failure (Order Num) Text} {tok : Text} {e : Failure}
    (hfield : field ∈ commandFields nt) (h : field tok = .error e) : e ≠ .pastEnd := by
  intro he
  subst he
  simp only [commandFields, List.mem_cons, List.not_mem_nil, or_false] at hfield
  rcases hfield with rfl | rfl | rfl | rfl | rfl | rfl | rfl <;>
    simp only [map_eq_error, reduceCtorEq] at h
  · unfold checkPrefix at h
    split at h <;> cases h
  · unfold stoi at h
    split at h
    · cases h
    · split at h <;> cases h
  · unfold typeOf at h
    split at h
    · cases h
    · split at h
      · cases h
      · split at h <;> cases h
  · unfold matchTypeOf at h
    split at h
    · cases h
    · split at h <;> cases h
  · unfold number at h
    split at h <;> cases h
  · unfold number at h
    split at h <;> cases h

/-- The fields but the second accept their tokens. -/
theorem accepted_others {tok₁ tok₃ tok₄ code tok₆ tok₇ : Text} (rest : List Text) :
    Accepted ((commandFields nt).eraseIdx 1) (tok₁ :: tok₃ :: tok₄ :: code :: tok₆ :: tok₇ :: rest) ↔
      tok₁ = "ORDER".toList ∧ (∃ type : OrderType, tok₃ = type.text) ∧
        (∃ matchType : MatchType, tok₄ = matchType.text) ∧ (∃ x, nt.ofStr tok₆ = some x) ∧
        ∃ x, nt.ofStr tok₇ = some x := by
  simp only [commandFields, List.eraseIdx_cons_succ, List.eraseIdx_cons_zero, Lib.accepted_cons,
    map_isOk, typeOf_eq_ok, matchTypeOf_eq_ok, number_eq_ok, Except.ok.injEq, exists_eq', true_and,
    Unique.exists_iff, Lib.accepted_nil, and_true]
  exact and_congr checkPrefix_eq_ok Iff.rfl

/-- The fields accept the first seven tokens. -/
theorem accepted_seven {tok₁ tok₂ tok₃ tok₄ code tok₆ tok₇ : Text} (rest : List Text) :
    Accepted (commandFields nt) (tok₁ :: tok₂ :: tok₃ :: tok₄ :: code :: tok₆ :: tok₇ :: rest) ↔
      (∃ n, stoi tok₂ = .ok n) ∧
        Accepted ((commandFields nt).eraseIdx 1) (tok₁ :: tok₃ :: tok₄ :: code :: tok₆ :: tok₇ :: rest) := by
  simp only [commandFields, List.eraseIdx_cons_succ, List.eraseIdx_cons_zero, Lib.accepted_cons,
    map_isOk]
  exact and_left_comm

/-! ## The format -/

/-- The range of `int64_t`. -/
def InInt64Range (n : Int) : Prop := -2 ^ 63 ≤ n ∧ n < 2 ^ 63

instance (n : Int) : Decidable (InInt64Range n) := inferInstanceAs (Decidable (_ ∧ _))

/-- The format of a command, and the order it denotes: seven tokens, the second
nothing but an integer that `int64_t` holds. -/
def Denotes (nt : NumberText Num) (toks : List Text) (o : Order Num) : Prop :=
  ∃ tok₂ tok₆ tok₇ n,
    toks = ["ORDER".toList, tok₂, o.type.text, o.matchType.text, o.code, tok₆, tok₇] ∧
      Lib.readInt tok₂ = some n ∧ InInt64Range n ∧ o.sequence = Int64.ofInt n ∧
      nt.ofStr tok₆ = some o.quantity ∧ nt.ofStr tok₇ = some o.price

/-- The parser reads a command of the format for the order it denotes, throws on
any other text, and never looks past the last token. -/
def ParsesFormat (nt : NumberText Num) (str : Text) (p : Order Num) : Prop :=
  match (fromCmdStr nt str).run p with
  | .ok () o => Denotes nt (tokens str) o
  | .error failure _ => failure ≠ .pastEnd ∧ ∀ o, ¬ Denotes nt (tokens str) o

/-- Seven tokens of which only the second is rejected, and that is an integer
`int64_t` holds but `int` does not. -/
def LongSequence (nt : NumberText Num) (toks : List Text) : Prop :=
  ∃ tok₁ tok₂ tok₃ tok₄ code tok₆ tok₇ n,
    toks = [tok₁, tok₂, tok₃, tok₄, code, tok₆, tok₇] ∧
      Lib.readInt tok₂ = some n ∧ InInt64Range n ∧ ¬ InIntRange n ∧
      Accepted ((commandFields nt).eraseIdx 1) [tok₁, tok₃, tok₄, code, tok₆, tok₇]

/-- The commands the parser goes wrong on. -/
inductive Misread (nt : NumberText Num) (toks : List Text) : Prop
  /-- The tokens run out before one is rejected. -/
  | short : toks.length < 7 → Accepted (commandFields nt) toks → Misread nt toks
  /-- The first seven are accepted, and nothing looks at the others. -/
  | long : 7 < toks.length → Accepted (commandFields nt) toks → Misread nt toks
  /-- All are accepted, though the second is not an integer and nothing else. -/
  | sequence {tok₂ : Text} : toks[1]? = some tok₂ → Lib.readInt tok₂ = none →
      Accepted (commandFields nt) toks → Misread nt toks
  /-- The sequence number is rejected, though `int64_t` holds it. -/
  | range : LongSequence nt toks → Misread nt toks

/-- The command is not of a kind the parser goes wrong on. -/
def KeepsToFormat (nt : NumberText Num) (toks : List Text) : Prop := ¬ Misread nt toks

theorem keepsToFormat_iff {toks : List Text} : KeepsToFormat nt toks ↔
    (Accepted (commandFields nt) toks → toks.length = 7 ∧
      ∃ tok₂ n, toks[1]? = some tok₂ ∧ Lib.readInt tok₂ = some n) ∧
    ¬ LongSequence nt toks := by
  constructor
  · intro h
    refine ⟨fun hacc => ?_, fun hlong => h (.range hlong)⟩
    have hlen : toks.length = 7 := by
      by_contra hne
      rcases Nat.lt_or_gt_of_ne hne with hlt | hgt
      · exact h (.short hlt hacc)
      · exact h (.long hgt hacc)
    have htok := List.getElem?_eq_getElem (show 1 < toks.length by omega)
    cases hn : Lib.readInt toks[1] with
    | none => exact absurd (.sequence htok hn hacc) h
    | some n => exact ⟨hlen, _, n, htok, hn⟩
  · rintro ⟨hwhole, hrange⟩ hmisread
    cases hmisread with
    | short hlt hacc => exact absurd (hwhole hacc).1 (Nat.ne_of_lt hlt)
    | long hgt hacc => exact absurd (hwhole hacc).1 (Nat.ne_of_gt hgt)
    | sequence htok hnone hacc =>
      obtain ⟨-, tok₂, n, htok', hn⟩ := hwhole hacc
      obtain rfl := Option.some.inj (htok.symm.trans htok')
      rw [hnone] at hn
      cases hn
    | range hlong => exact hrange hlong

/-- What is rejected of the format is a sequence number too long for an `int`. -/
theorem denotes_iff_long {toks : List Text} (hrej : ¬ Accepted (commandFields nt) toks) :
    (∃ o, Denotes nt toks o) ↔ LongSequence nt toks := by
  constructor
  · intro h
    obtain ⟨o, tok₂, tok₆, tok₇, n, rfl, hn, hrange, hseq, h₆, h₇⟩ := h
    have hothers : Accepted ((commandFields nt).eraseIdx 1)
        ["ORDER".toList, o.type.text, o.matchType.text, o.code, tok₆, tok₇] :=
      (accepted_others []).mpr
        ⟨rfl, ⟨o.type, rfl⟩, ⟨o.matchType, rfl⟩, ⟨o.quantity, h₆⟩, ⟨o.price, h₇⟩⟩
    refine ⟨_, tok₂, _, _, _, tok₆, tok₇, n, rfl, hn, hrange, fun hint => hrej ?_, hothers⟩
    exact (accepted_seven []).mpr ⟨⟨n, by rw [stoi_readInt hn, if_pos hint]⟩, hothers⟩
  · intro h
    obtain ⟨tok₁, tok₂, tok₃, tok₄, code, tok₆, tok₇, n, rfl, hn, hrange, -, hothers⟩ := h
    obtain ⟨rfl, ⟨type, rfl⟩, ⟨matchType, rfl⟩, ⟨quantity, h₆⟩, price, h₇⟩ :=
      (accepted_others []).mp hothers
    exact ⟨⟨Int64.ofInt n, type, matchType, code, quantity, price⟩, tok₂, tok₆, tok₇, n, rfl, hn,
      hrange, rfl, h₆, h₇⟩

theorem InIntRange.int64 {n : Int} (h : InIntRange n) : InInt64Range n := by
  unfold InIntRange at h
  unfold InInt64Range
  omega

/-- What is accepted is of the format when there are no more tokens and no more in
the second than the integer. -/
theorem denotes_iff_whole {toks : List Text} {o : Order Num} (ho : ofTokens nt toks = some o) :
    Denotes nt toks o ↔
      toks.length = 7 ∧ ∃ tok₂ n, toks[1]? = some tok₂ ∧ Lib.readInt tok₂ = some n := by
  obtain ⟨tok₂, tok₆, tok₇, rest, n, rfl, hn, hseq, h₆, h₇⟩ := ofTokens_eq_some.mp ho
  constructor
  · intro h
    obtain ⟨tok₂', tok₆', tok₇', m, htoks, hm, -⟩ := h
    simp only [List.cons.injEq, true_and] at htoks
    obtain ⟨rfl, rfl, rfl, rfl⟩ := htoks
    exact ⟨rfl, tok₂, m, rfl, hm⟩
  · intro h
    obtain ⟨hlen, tok₂', m, htok, hm⟩ := h
    obtain rfl : tok₂ = tok₂' := Option.some.inj htok
    obtain rfl : rest = [] := by simpa using hlen
    rw [stoi_readInt hm] at hn
    split at hn
    · rename_i hint
      obtain rfl : m = n := Except.ok.inj hn
      exact ⟨tok₂, tok₆, tok₇, m, rfl, hm, hint.int64, hseq, h₆, h₇⟩
    · cases hn

/-- An accepted sequence number is in the range of `int`. -/
theorem not_long_of_accepted {toks : List Text} (h : Accepted (commandFields nt) toks) :
    ¬ LongSequence nt toks := by
  intro hlong
  obtain ⟨tok₁, tok₂, tok₃, tok₄, code, tok₆, tok₇, n, rfl, hn, -, hint, -⟩ := hlong
  obtain ⟨⟨m, hm⟩, -⟩ := (accepted_seven []).mp h
  rw [stoi_readInt hn, if_neg hint] at hm
  cases hm

/-- The parser keeps to its format on a text exactly when the tokens of the text
are not of one of the four kinds it misreads. -/
theorem format_accepted_iff (str : Text) (p : Order Num) :
    ParsesFormat nt str p ↔ KeepsToFormat nt (tokens str) := by
  rw [keepsToFormat_iff]
  unfold ParsesFormat
  rcases Lib.readFields_cases .pastEnd (commandFields nt) (tokens str) p with
    ⟨o, hok⟩ | ⟨hacc, hlen, o, hmissing⟩ | ⟨i, e, o, hrej⟩
  · have hacc := (Lib.readFields_accepted hok).1
    rw [← fromCmdStr_run] at hok
    simp only [hok, denotes_iff_whole (fromCmdStr_ok.mp hok), hacc, true_imp_iff,
      not_long_of_accepted hacc, not_false_eq_true, and_true]
  · -- the tokens run out
    rw [← fromCmdStr_run] at hmissing
    simp only [hmissing, ne_eq, not_true_eq_false, false_and, hacc, true_imp_iff, false_iff]
    intro h
    exact absurd h.1.1 (Nat.ne_of_lt hlen)
  · have hnacc := hrej.not_accepted
    have hends := hrej.ends
    rw [← fromCmdStr_run] at hends
    obtain ⟨field, tok, hfield, -, he⟩ := hrej.token
    have hthrows := commandFields_error (List.mem_of_getElem? hfield) he
    simp only [hends, hnacc, false_imp_iff, true_and, ne_eq, hthrows, not_false_eq_true,
      ← denotes_iff_long hnacc, not_exists]

/-- A command that ends early. -/
def shortCommand : Text := "ORDER 1 ASK".toList

theorem shortCommand_runs_out :
    (fromCmdStr integerText shortCommand).run longSequence =
        .error .pastEnd { longSequence with sequence := 1 } ∧
      ¬ ParsesFormat integerText shortCommand longSequence := by
  have hrun : (fromCmdStr integerText shortCommand).run longSequence =
      .error .pastEnd { longSequence with sequence := 1 } := by rfl
  refine ⟨hrun, ?_⟩
  unfold ParsesFormat
  rw [hrun]
  exact fun h => h.1 rfl

/-! ## What a rejected command leaves behind -/

/-- The first `i` tokens are accepted and the next one is rejected. -/
def RejectedAt (nt : NumberText Num) (toks : List Text) (i : Nat) : Prop :=
  Accepted ((commandFields nt).take i) toks ∧
    ∃ field tok e, (commandFields nt)[i]? = some field ∧ toks[i]? = some tok ∧ field tok = .error e

/-- The fields of `o` whose tokens are among the first `i` hold what these tokens
denote, the others what they held in `p`. -/
structure WrittenBefore (nt : NumberText Num) (toks : List Text) (i : Nat) (p o : Order Num) :
    Prop where
  sequence : if 1 < i then
      ∃ tok n, toks[1]? = some tok ∧ stoi tok = .ok n ∧ o.sequence = Int64.ofInt n
    else o.sequence = p.sequence
  type : if 2 < i then toks[2]? = some o.type.text else o.type = p.type
  matchType : if 3 < i then toks[3]? = some o.matchType.text else o.matchType = p.matchType
  code : if 4 < i then toks[4]? = some o.code else o.code = p.code
  quantity : if 5 < i then ∃ tok, toks[5]? = some tok ∧ nt.ofStr tok = some o.quantity
    else o.quantity = p.quantity
  price : if 6 < i then ∃ tok, toks[6]? = some tok ∧ nt.ofStr tok = some o.price
    else o.price = p.price

/-- What the reader of the first `i` fields leaves. -/
theorem written_take {toks : List Text} {i : Nat} (hi : i ≤ 7) {p o : Order Num}
    (h : readFields .pastEnd ((commandFields nt).take i) toks p = .ok () o) :
    WrittenBefore nt toks i p o := by
  interval_cases i <;>
    simp only [commandFields, List.take_succ_cons, List.take_zero, List.take_nil,
      Lib.readFields_map_ok, Lib.readFields_write_ok, Lib.readFields_nil, EStateM.Result.ok.injEq,
      true_and, typeOf_eq_ok, matchTypeOf_eq_ok, number_eq_ok] at h
  · subst h
    exact ⟨rfl, rfl, rfl, rfl, rfl, rfl⟩
  · obtain ⟨tok₁, _, _, rfl, -, rfl⟩ := h
    exact ⟨rfl, rfl, rfl, rfl, rfl, rfl⟩
  · obtain ⟨tok₁, _, _, rfl, -, tok₂, _, n, rfl, h₂, rfl⟩ := h
    exact ⟨⟨tok₂, n, rfl, h₂, rfl⟩, rfl, rfl, rfl, rfl, rfl⟩
  · obtain ⟨tok₁, _, _, rfl, -, tok₂, _, n, rfl, h₂, _, _, type, rfl, rfl, rfl⟩ := h
    exact ⟨⟨tok₂, n, rfl, h₂, rfl⟩, rfl, rfl, rfl, rfl, rfl⟩
  · obtain ⟨tok₁, _, _, rfl, -, tok₂, _, n, rfl, h₂, _, _, type, rfl, rfl, _, _, matchType, rfl, rfl,
      rfl⟩ := h
    exact ⟨⟨tok₂, n, rfl, h₂, rfl⟩, rfl, rfl, rfl, rfl, rfl⟩
  · obtain ⟨tok₁, _, _, rfl, -, tok₂, _, n, rfl, h₂, _, _, type, rfl, rfl, _, _, matchType, rfl, rfl,
      code, _, rfl, rfl⟩ := h
    exact ⟨⟨tok₂, n, rfl, h₂, rfl⟩, rfl, rfl, rfl, rfl, rfl⟩
  · obtain ⟨tok₁, _, _, rfl, -, tok₂, _, n, rfl, h₂, _, _, type, rfl, rfl, _, _, matchType, rfl, rfl,
      code, _, rfl, tok₆, _, quantity, rfl, h₆, rfl⟩ := h
    exact ⟨⟨tok₂, n, rfl, h₂, rfl⟩, rfl, rfl, rfl, ⟨tok₆, rfl, h₆⟩, rfl⟩
  · obtain ⟨tok₁, _, _, rfl, -, tok₂, _, n, rfl, h₂, _, _, type, rfl, rfl, _, _, matchType, rfl, rfl,
      code, _, rfl, tok₆, _, quantity, rfl, h₆, tok₇, _, price, rfl, h₇, rfl⟩ := h
    exact ⟨⟨tok₂, n, rfl, h₂, rfl⟩, rfl, rfl, rfl, ⟨tok₆, rfl, h₆⟩, tok₇, rfl, h₇⟩

/-- A text of at least seven tokens is read for an order that depends on the text
alone, or rejected by an exception at one of its tokens. Then the fields whose
tokens stand before that one are written and the others are as they were. -/
theorem fromCmdStr_writes {str : Text} (hlen : 7 ≤ (tokens str).length) (p : Order Num) :
    (∀ o, (fromCmdStr nt str).run p = .ok () o → ofTokens nt (tokens str) = some o) ∧
      ∀ failure o, (fromCmdStr nt str).run p = .error failure o →
        failure ≠ .pastEnd ∧
          ∃ i, RejectedAt nt (tokens str) i ∧ WrittenBefore nt (tokens str) i p o := by
  refine ⟨fun o => fromCmdStr_ok.mp, fun failure o hrun => ?_⟩
  rw [fromCmdStr_run] at hrun
  rcases Lib.readFields_cases .pastEnd (commandFields nt) (tokens str) p with
    ⟨o', hok⟩ | ⟨-, hshort, -⟩ | ⟨i, e, o', hrej⟩
  · rw [hok] at hrun
    cases hrun
  · exact absurd hlen (Nat.not_le.mpr hshort)
  · rw [hrej.ends] at hrun
    cases hrun
    obtain ⟨field, tok, hfield, htok, he⟩ := hrej.token
    have hi : i < 7 := (List.getElem?_eq_some_iff.mp hfield).1
    refine ⟨commandFields_error (List.mem_of_getElem? hfield) he, i, ?_, written_take hi.le hrej.before⟩
    exact ⟨(Lib.readFields_accepted hrej.before).1, field, tok, _, hfield, htok, he⟩

/-- A command with a type the parser does not know. -/
def unknownType : Text := "ORDER 5 XXX LIMIT TKLAM 1 10".toList

/-- The call throws, and the sequence number is the new one. -/
theorem unknownType_writes :
    7 ≤ (tokens unknownType).length ∧
      ∃ failure o, (fromCmdStr integerText unknownType).run longSequence = .error failure o ∧
        o ≠ longSequence := by
  have hrun : (fromCmdStr integerText unknownType).run longSequence =
      .error (.invalidArgument "Not an Order command string: incorrect type".toList)
        { longSequence with sequence := 5 } := by rfl
  exact ⟨by decide +kernel, _, _, hrun, by decide +kernel⟩

theorem unknownType_keeps_type : ∃ failure o,
    (fromCmdStr integerText unknownType).run longSequence = .error failure o ∧
      ∃ i, RejectedAt integerText (tokens unknownType) i ∧
        WrittenBefore integerText (tokens unknownType) i longSequence o := by
  obtain ⟨failure, o, hrun⟩ : ∃ failure o,
      (fromCmdStr integerText unknownType).run longSequence = .error failure o := ⟨_, _, rfl⟩
  exact ⟨failure, o, hrun,
    ((fromCmdStr_writes (by decide +kernel) longSequence).2 failure o hrun).2⟩

end TradingMarket
