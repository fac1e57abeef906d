/-
How tokens are spelled.  Most kinds have one spelling; numbers, names and strings are known by
the characters they are made of.  Every token of a source text is spelled as its kind requires.
-/
import Monkey.Lexer

namespace Monkey

/-- The text of a kind that is always spelled the same. -/
def Kind.spelling? : Kind → Option String
  | .illegal | .eof | .int | .string | .ident => none
  | .assign => some "="
  | .eq => some "=="
  | .notEq => some "!="
  | .bang => some "!"
  | .or => some "||"
  | .and => some "&&"
  | .lt => some "<"
  | .gt => some ">"
  | .plus => some "+"
  | .minus => some "-"
  | .asterisk => some "*"
  | .slash => some "/"
  | .caret => some "^"
  | .comma => some ","
  | .colon => some ":"
  | .semicolon => some ";"
  | .lparen => some "("
  | .rparen => some ")"
  | .lbrace => some "\x7b"
  | .rbrace => some "\x7d"
  | .lbracket => some "["
  | .rbracket => some "]"
  | .letWord => some "let"
  | .returnWord => some "return"
  | .fnWord => some "fn"
  | .ifWord => some "if"
  | .elseWord => some "else"
  | .trueWord => some "true"
  | .falseWord => some "false"

/-- The text is one that the kind can have. -/
def Kind.Spells (kind : Kind) (literal : String) : Prop :=
  match kind with
  | .illegal => True
  | .eof => False
  | .int => literal.toList ≠ [] ∧ ∀ c ∈ literal.toList, isDigit c = true
  | .string => '"' ∉ literal.toList
  | .ident => literal.toList ≠ [] ∧ (∀ c ∈ literal.toList, isLetter c = true) ∧
      Kind.ofWord literal = .ident
  | kind => kind.spelling? = some literal

/-- A text is searched, not the whole character set. -/
instance decidableAllChars (p : Char → Bool) (text : List Char) :
    Decidable (∀ c ∈ text, p c = true) :=
  decidable_of_iff (text.all p = true) List.all_eq_true

instance (kind : Kind) (literal : String) : Decidable (kind.Spells literal) := by
  cases kind <;> unfold Kind.Spells <;> infer_instance

theorem Kind.spells_of_spelling? {kind : Kind} {literal : String}
    (h : kind.spelling? = some literal) : kind.Spells literal := by
  cases kind <;> first | exact h | cases h

theorem Kind.eq_of_spells {kind : Kind} {literal spelling : String}
    (h : kind.spelling? = some spelling) (hspells : kind.Spells literal) : literal = spelling := by
  cases kind <;> first | exact (Option.some.inj (h.symm.trans hspells)).symm | cases h

theorem singleKind?_spells {c : Char} {kind : Kind} (h : singleKind? c = some kind) :
    kind.Spells (String.ofList [c]) := by
  apply Kind.spells_of_spelling?
  unfold singleKind? at h
  split at h <;> cases h <;> rfl

theorem pairRule?_spells {c : Char} {rule : PairRule} (h : pairRule? c = some rule) :
    rule.pair.Spells (String.ofList [c, rule.second]) ∧
      rule.alone.Spells (String.ofList [c]) := by
  unfold pairRule? at h
  split at h <;> cases h
  · exact ⟨Kind.spells_of_spelling? rfl, Kind.spells_of_spelling? rfl⟩
  · exact ⟨Kind.spells_of_spelling? rfl, Kind.spells_of_spelling? rfl⟩
  · exact ⟨Kind.spells_of_spelling? rfl, trivial⟩
  · exact ⟨Kind.spells_of_spelling? rfl, trivial⟩

/-- A word is a keyword or a name. -/
theorem Kind.ofWord_cases (word : String) :
    Kind.ofWord word = .ident ∨ (Kind.ofWord word).spelling? = some word := by
  unfold Kind.ofWord keywords
  by_cases hword : word ∈ ["let", "return", "fn", "if", "else", "true", "false"]
  · right
    simp only [List.mem_cons, List.not_mem_nil, or_false] at hword
    rcases hword with rfl | rfl | rfl | rfl | rfl | rfl | rfl <;> rfl
  · left
    simp only [List.mem_cons, List.not_mem_nil, or_false, not_or] at hword
    obtain ⟨hlet, hreturn, hfn, hif, helse, htrue, hfalse⟩ := hword
    simp [List.lookup_cons, beq_false_of_ne hlet, beq_false_of_ne hreturn, beq_false_of_ne hfn,
      beq_false_of_ne hif, beq_false_of_ne helse, beq_false_of_ne htrue, beq_false_of_ne hfalse]

theorem Kind.ofWord_ne_string (word : String) : Kind.ofWord word ≠ .string := by
  intro hstring
  rcases Kind.ofWord_cases word with h | h
  · rw [hstring] at h
    cases h
  · rw [hstring] at h
    cases h

theorem Kind.ofWord_spells {word : List Char} (hne : word ≠ [])
    (hletters : ∀ c ∈ word, isLetter c = true) :
    (Kind.ofWord (String.ofList word)).Spells (String.ofList word) := by
  rcases Kind.ofWord_cases (String.ofList word) with hident | hkeyword
  · rw [hident]
    refine ⟨?_, ?_, hident⟩
    · rwa [String.toList_ofList]
    · rwa [String.toList_ofList]
  · exact Kind.spells_of_spelling? hkeyword

theorem Cursor.span_all (cursor : Cursor) (p : Char → Bool) :
    ∀ c ∈ (cursor.span p).1, p c = true := by
  exact List.all_eq_true.mp List.all_takeWhile

theorem Cursor.span_ne_nil {cursor : Cursor} {p : Char → Bool} {c : Char} {rest : List Char}
    (h : cursor.rest = c :: rest) (hc : p c = true) : (cursor.span p).1 ≠ [] := by
  simp [Cursor.span, h, hc]

theorem Cursor.readString_spells (cursor : Cursor) :
    cursor.readString.1.Spells cursor.readString.2.1 := by
  simp only [Cursor.readString]
  split
  · trivial
  · intro hquote
    rw [String.toList_ofList] at hquote
    have hnot := Cursor.span_all _ _ _ hquote
    simp at hnot

theorem Cursor.readToken_spells {cursor : Cursor} {c : Char} {rest : List Char}
    (h : cursor.rest = c :: rest) :
    (cursor.readToken c).1.kind.Spells (cursor.readToken c).1.literal := by
  unfold Cursor.readToken
  split
  · next rule hrule =>
    obtain ⟨hpair, halone⟩ := pairRule?_spells hrule
    split
    · exact hpair
    · exact halone
  · split
    · next kind hkind => exact singleKind?_spells hkind
    · split
      · exact cursor.readString_spells
      · split
        · next hdigit =>
          refine ⟨?_, ?_⟩
          · rw [String.toList_ofList]
            exact Cursor.span_ne_nil h hdigit
          · rw [String.toList_ofList]
            exact cursor.span_all _
        · split
          · next hletter =>
            exact Kind.ofWord_spells (Cursor.span_ne_nil h hletter) (cursor.span_all _)
          · trivial

/-- Every token of a source text is spelled as its kind requires. -/
theorem Cursor.spells_of_mem_tokenize (cursor : Cursor) :
    ∀ token ∈ cursor.tokenize.tokens, token.kind.Spells token.literal := by
  fun_induction Cursor.tokenize cursor with
  | case1 => simp
  | case2 cursor start c rest hstart _ read stream ih =>
      intro token htoken
      rcases List.mem_cons.mp htoken with rfl | htoken
      · exact Cursor.readToken_spells hstart
      · exact ih token htoken

theorem spells_of_mem_tokenize {source : String} {token : Token}
    (h : token ∈ (tokenize source).tokens) : token.kind.Spells token.literal :=
  Cursor.spells_of_mem_tokenize _ token h

/-- The end token stands for the end of the text only. -/
theorem kind_ne_eof_of_mem_tokenize {source : String} {token : Token}
    (h : token ∈ (tokenize source).tokens) : token.kind ≠ .eof := by
  intro hkind
  have hspells := spells_of_mem_tokenize h
  rw [hkind] at hspells
  exact hspells

end Monkey
