/-
Integers read back.  The display form of an integer is a program that gives the integer, but for the
least one: a sign is an operator, and the number behind it is one too large to be a literal.
-/
import Monkey.Proofs.Parsing.Following
import Monkey.Proofs.Parsing.Integers
import Monkey.Proofs.Running.Wrapping

namespace Monkey

/-! ### Decimal digits -/

theorem toList_decimal (number : Nat) : (toString number).toList = Nat.toDigits 10 number := by
  rw [Nat.toString_eq_ofList_toDigits, String.toList_ofList]

theorem spells_decimal (number : Nat) : Kind.int.Spells (toString number) := by
  rw [Kind.Spells, toList_decimal]
  exact ⟨Nat.toDigits_ne_nil, fun c hc => Nat.isDigit_of_mem_toDigits (by decide) (by decide) hc⟩

theorem decimalValue_decimal (number : Nat) : decimalValue (toString number) = number := by
  rw [decimalValue, toList_decimal, ofDigits, List.foldl_map]
  exact Nat.ofDigitChars_eq_foldl.symm.trans Nat.ofDigitChars_ten_toDigits

/-- Integers of 64 bits have far fewer digits than a literal may have. -/
theorem readInt_decimal {number : Nat} (h : (number : Int) ≤ maxInteger + 1) :
    readInt (toString number) = .ok number := by
  obtain ⟨hne, hdigits⟩ := spells_decimal number
  have hlength : (toString number).toList.length ≤ maxDigits := by
    rw [toList_decimal]
    refine Nat.le_trans ((Nat.length_toDigits_le_iff (by decide) (by decide)).mpr ?_)
      (show 19 ≤ maxDigits by decide)
    simp only [maxInteger] at h
    omega
  rw [readInt_of_digits hne hdigits, if_neg (Nat.not_lt.mpr hlength), decimalValue_decimal]

theorem display_natCast (number : Nat) : (Value.int number).display = toString number := by
  rw [Value.display]
  rfl

theorem display_neg {number : Nat} (h : 0 < number) :
    (Value.int (-number)).display = "-" ++ toString number := by
  rw [Value.display, Int.toString_eq_repr, Int.repr_eq_if, if_neg (by omega), Int.neg_neg,
    Int.toNat_natCast]
  rfl

/-! ### Programs -/

theorem tokenize_decimal (number : Nat) : tokenize (toString number) =
    ⟨[⟨.int, toString number, .start⟩], Place.start.after (toString number).toList⟩ := by
  have hlegible : Legible [.word .int (toString number)] [] :=
    ⟨⟨spells_decimal number, by simp [Kind.Ends]⟩, trivial⟩
  rw [tokenize, tokenize_of_legible hlegible (by simp [Cursor.ofText, Mark.text])]
  simp [lay, Cursor.ofText, Mark.text]

theorem tokenize_negative (number : Nat) : tokenize ("-" ++ toString number) =
    ⟨[⟨.minus, "-", ⟨1, 1⟩⟩, ⟨.int, toString number, ⟨1, 2⟩⟩],
      Place.after ⟨1, 2⟩ (toString number).toList⟩ := by
  have hlegible : Legible [.word .minus "-", .word .int (toString number)] [] :=
    ⟨⟨rfl, trivial⟩, ⟨spells_decimal number, by simp [Kind.Ends]⟩, trivial⟩
  rw [tokenize, tokenize_of_legible hlegible (by simp [Cursor.ofText, Mark.text])]
  simp only [textOf_cons, textOf_nil, List.append_nil, Place.after_append]
  rfl

/-- A literal in front of the end of the text. -/
theorem derives_decimal {number : Nat} (h : (number : Int) ≤ maxInteger) {token next : Token}
    (hkind : token.kind = .int) (hliteral : token.literal = toString number)
    (hnext : next.kind = .eof) (power : Int) :
    Derives (.expression power (.int (some token) number)) [token] next := by
  have hread : readInt token.literal = .ok (number : Int) := by
    rw [hliteral]
    exact readInt_decimal (by omega)
  have hmin : minInteger ≤ number := by
    unfold minInteger
    omega
  apply Derives.of_opening (.integer hkind hread hmin h)
  exact fun last _ => (inert_of_kind next (by simp [hnext])).stops power last

/-- An expression in front of the end of the text is a program. -/
theorem parses_of_expression {source : String} {first : Token} {rest : List Token} {node : Node}
    (htokens : (tokenize source).tokens = first :: rest)
    (hnode : Derives (.expression Power.lowest node) (first :: rest) (tokenize source).eof) :
    Parses source (.program [.exprStmt (some first) node]) := by
  have hall := DerivesAll.cons (.bare (fun _ => by simp [TokenStream.eof]) (.exprSentence hnode))
    (@DerivesAll.nil (tokenize source).eof)
  exact parses_iff.mpr ⟨_, rfl, by simpa [htokens] using hall⟩

section

variable {number : Nat} (h : (number : Int) ≤ maxInteger) (frame : FrameId)

include h

theorem parses_decimal : ∃ program, Parses (toString number) program ∧
    ∀ depth, program.eval (depth + 4) frame = pure (.int number) := by
  have htokens := tokenize_decimal number
  refine ⟨_, parses_of_expression (congrArg TokenStream.tokens htokens)
    (derives_decimal h rfl rfl rfl _), fun depth => ?_⟩
  simp [Node.eval, runBlock, Value.isSignal, Value.unwrap, Value.shown]

theorem parses_negative : ∃ program, Parses ("-" ++ toString number) program ∧
    ∀ depth, program.eval (depth + 4) frame = pure (.int (-number)) := by
  have htokens := tokenize_negative number
  have hnumber {next : Token} (hnext : next.kind = .eof) :
      Derives (.expression Power.sign (.int (some ⟨.int, toString number, ⟨1, 2⟩⟩) number))
        [⟨.int, toString number, ⟨1, 2⟩⟩] next :=
    derives_decimal h rfl rfl hnext Power.sign
  have hwrap : wrap (-number) = -number := by
    apply wrap_of_bounds
    · simp only [minInteger, maxInteger] at h ⊢
      omega
    · simp only [maxInteger]
      omega
  refine ⟨_, parses_of_expression (congrArg TokenStream.tokens htokens)
    (.of_opening (.sign (Or.inl rfl) (hnumber rfl)) ?_), fun depth => ?_⟩
  · exact fun last _ => (inert_of_kind _ (by simp [TokenStream.eof])).stops _ last
  · simp [Node.eval, runBlock, Value.isSignal, Value.unwrap, Value.shown, unlessError,
      Value.isError, evalPrefix, applyPrefix, hwrap, settle]

end

/-- The number behind the sign of the least integer is reported. -/
theorem least_reported : ∃ program after,
    (parse (Value.int minInteger).display).Gives program after ∧ after.diagnostics ≠ [] := by
  have hdisplay : (Value.int minInteger).display = "-9223372036854775808" := by decide +kernel
  have hreport : (parse "-9223372036854775808").after.diagnostics.map Diagnostic.message =
      ["could not parse 9223372036854775808 as integer (line 1, column 2)"] := by
    decide +kernel
  obtain ⟨program, hgives⟩ := @exists_gives "-9223372036854775808" (by decide +kernel)
  rw [hdisplay]
  refine ⟨program, _, hgives, fun hclean => ?_⟩
  rw [hclean] at hreport
  cases hreport

/-- The display form of an integer is a program that gives the integer in a fresh environment, with
a depth of four levels or more; only that of the least integer is a parse error. -/
theorem display_reads_back {value : Int} (hlow : minInteger ≤ value) (hhigh : value ≤ maxInteger) :
    (value ≠ minInteger ∧ ∃ program, Parses (Value.int value).display program ∧
        ∀ depth, program.eval (depth + 4) rootFrame .start = .ok (.int value) .start) ∨
      (value = minInteger ∧ ∃ program after,
        (parse (Value.int value).display).Gives program after ∧ after.diagnostics ≠ []) := by
  by_cases hleast : value = minInteger
  · exact .inr ⟨hleast, hleast ▸ least_reported⟩
  refine .inl ⟨hleast, ?_⟩
  by_cases hneg : value < 0
  · obtain ⟨number, rfl⟩ := Int.exists_eq_neg_ofNat (Int.le_of_lt hneg)
    have hnumber : (number : Int) ≤ maxInteger := by
      simp only [minInteger, maxInteger] at hlow hleast ⊢
      omega
    obtain ⟨program, hparses, heval⟩ := parses_negative hnumber rootFrame
    rw [display_neg (by omega)]
    exact ⟨program, hparses, fun depth => congrFun (heval depth) .start⟩
  · obtain ⟨number, rfl⟩ := Int.eq_ofNat_of_zero_le (Int.not_lt.mp hneg)
    obtain ⟨program, hparses, heval⟩ := parses_decimal hhigh rootFrame
    rw [display_natCast]
    exact ⟨program, hparses, fun depth => congrFun (heval depth) .start⟩

/-- The least integer that reads back, which is the negative of the greatest literal. -/
theorem display_reads_back_lowest :
    (minInteger ≤ -maxInteger ∧ -maxInteger ≤ maxInteger) ∧
      (Value.int (-maxInteger)).display = "-9223372036854775807" ∧
      ∃ program, Parses "-9223372036854775807" program ∧
        program.eval depthLimit rootFrame .start = .ok (.int (-maxInteger)) .start := by
  have hdisplay : (Value.int (-maxInteger)).display = "-9223372036854775807" := by decide +kernel
  refine ⟨by decide, hdisplay, ?_⟩
  rcases @display_reads_back (-maxInteger) (by decide) (by decide) with
    ⟨_, program, hparses, heval⟩ | ⟨hleast, _⟩
  · exact ⟨program, hdisplay ▸ hparses, heval 4996⟩
  · exact absurd hleast (by decide)

end Monkey
