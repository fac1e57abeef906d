/-
The recursion of the parser.  Its functions are written down once more as the bare recursion that
they are: they do not look at the number of tokens left, and nobody promises anything about it.  All
that is counted is how deep their calls are nested.  From every text the calls nest only so deep as
the text has tokens, eight for each of them and a few more, so that the recursion ends by itself;
and it ends as the parser does, at the end of the text or at an integer literal that has more digits
than are read.
-/
import Monkey.Proofs.Parsing.Answers

namespace Monkey

/-- What becomes of a recursion whose calls may be nested only so deep: nothing if they are nested
deeper, otherwise a value or a fault. -/
abbrev Recursion : Type → Type :=
  ExceptT Fault Option

def Reading.ending {n : Nat} {α : Type} : Reading n α → Recursion (α × Parser)
  | .done value parser _ => pure (value, parser)
  | .failed fault _ => throw fault

namespace Recursion

/-- The calls are nested deeper than they may be. -/
def cut {α : Type} : Recursion α :=
  ExceptT.mk none

/-- Reads identifiers separated by commas, and the closing parenthesis after them. -/
def readNames : Nat → Parser → Recursion (Option (List Node) × Parser)
  | 0, _ => cut
  | depth + 1, parser =>
      match parser.expect .ident with
      | (false, parser) => pure (none, parser)
      | (true, parser) => do
          let name := Node.ident (some parser.current) parser.current.literal
          if parser.peek.kind = .comma then
            let (names, parser) ← readNames depth parser.next
            pure (names.map (name :: ·), parser)
          else
            let close := parser.expect .rparen
            pure (if close.1 then some [name] else none, close.2)

def readParameters (depth : Nat) (parser : Parser) : Recursion (Option (List Node) × Parser) :=
  if parser.peek.kind = .rparen then pure (some [], parser.next) else readNames depth parser

mutual

def readExpression : Nat → Parser → Int → Recursion (Node × Parser)
  | 0, _, _ => cut
  | depth + 1, parser, power =>
      match parser.grammar.prefixRule? parser.current.kind with
      | none => pure (.missing, parser.reportNoPrefix parser.current)
      | some rule => do
          let (left, parser) ← readPrefix depth parser rule
          extend depth parser power left

def readPrefix : Nat → Parser → PrefixRule → Recursion (Node × Parser)
  | 0, _, _ => cut
  | depth + 1, parser, rule =>
      let token := parser.current
      match rule with
      | .integer => parser.readInteger.ending
      | .string => pure (.string (some token) token.literal, parser)
      | .boolean => pure (.bool (some token) (token.kind == .trueWord), parser)
      | .identifier => pure (.ident (some token) token.literal, parser)
      | .operator => do
          let (right, parser) ← readExpression depth parser.next Power.sign
          pure (.prefixOp (some token) token.literal right, parser)
      | .grouped => do
          let (inner, parser) ← readExpression depth parser.next Power.lowest
          match parser.expect .rparen with
          | (false, parser) => pure (.missing, parser)
          | (true, parser) => pure (inner, parser)
      | .conditional => readIf depth parser
      | .function =>
          match parser.expect .lparen with
          | (false, parser) => pure (.missing, parser)
          | (true, parser) => do
              let (parameters, parser) ← readParameters depth parser
              match parameters with
              | none => pure (.missing, parser)
              | some parameters =>
                  match parser.expect .lbrace with
                  | (false, parser) => pure (.missing, parser)
                  | (true, parser) => do
                      let (body, parser) ← readBlock depth parser
                      pure (.function (some token) parameters body, parser)
      | .array => do
          let (elements, parser) ← readList depth parser.next .rbracket
          pure (match elements with
            | some elements => .array (some token) elements
            | none => .missing, parser)
      | .hash => do
          let (pairs, parser) ← readPairs depth parser.next
          pure (match pairs with
            | some pairs => .hash (some token) pairs
            | none => .missing, parser)

def readIf : Nat → Parser → Recursion (Node × Parser)
  | 0, _ => cut
  | depth + 1, parser =>
      let token := parser.current
      match parser.expect .lparen with
      | (false, parser) => pure (.missing, parser)
      | (true, parser) => do
          let (condition, parser) ← readExpression depth parser.next Power.lowest
          match parser.expect .rparen with
          | (false, parser) => pure (.missing, parser)
          | (true, parser) =>
              match parser.expect .lbrace with
              | (false, parser) => pure (.missing, parser)
              | (true, parser) => do
                  let (consequence, parser) ← readBlock depth parser
                  readElse depth parser token condition consequence

def readElse : Nat → Parser → Token → Node → Node → Recursion (Node × Parser)
  | 0, _, _, _, _ => cut
  | depth + 1, parser, token, condition, consequence =>
      if parser.peek.kind = .elseWord then
        if parser.next.peek.kind = .lbrace then do
          let (alternative, parser) ← readBlock depth parser.next.next
          pure (.ifElse (some token) condition consequence alternative, parser)
        else if parser.next.peek.kind = .ifWord then do
          let (alternative, parser) ← readIf depth parser.next.next
          pure (.ifElse (some token) condition consequence alternative, parser)
        else pure (.missing, parser.next.reportPeek .lbrace)
      else pure (.ifElse (some token) condition consequence .missing, parser)

def extend : Nat → Parser → Int → Node → Recursion (Node × Parser)
  | 0, _, _, _ => cut
  | depth + 1, parser, power, left =>
      if parser.peek.kind = .eof then pure (left, parser)
      else if power < parser.peekPower then
        match parser.grammar.infixRule? parser.peek.kind with
        | none => pure (left, parser)
        | some rule => do
            let (node, parser) ← readInfix depth parser.next rule left
            extend depth parser power node
      else pure (left, parser)

def readInfix : Nat → Parser → InfixRule → Node → Recursion (Node × Parser)
  | 0, _, _, _ => cut
  | depth + 1, parser, rule, left =>
      let token := parser.current
      match rule with
      | .operator .. => do
          let (right, parser) ← readExpression depth parser.next rule.rightPower
          pure (.infixOp (some token) left token.literal right, parser)
      | .call => do
          let (arguments, parser) ← readList depth parser.next .rparen
          pure (match arguments with
            | some arguments => .call (some token) left arguments
            | none => .missing, parser)
      | .index => do
          let (index, parser) ← readExpression depth parser.next Power.lowest
          match parser.expect .rbracket with
          | (false, parser) => pure (.missing, parser)
          | (true, parser) => pure (.index (some token) left index, parser)

def readList : Nat → Parser → Kind → Recursion (Option (List Node) × Parser)
  | 0, _, _ => cut
  | depth + 1, parser, close =>
      if parser.current.kind = close then pure (some [], parser)
      else readElements depth parser close

def readElements : Nat → Parser → Kind → Recursion (Option (List Node) × Parser)
  | 0, _, _ => cut
  | depth + 1, parser, close => do
      let (element, parser) ← readExpression depth parser Power.lowest
      if parser.peek.kind = .comma then
        let (rest, parser) ← readElements depth parser.next.next close
        pure (rest.map (element :: ·), parser)
      else match parser.expect close with
        | (false, parser) => pure (none, parser)
        | (true, parser) => pure (some [element], parser)

def readPairs : Nat → Parser → Recursion (Option (List (Node × Node)) × Parser)
  | 0, _ => cut
  | depth + 1, parser =>
      if parser.current.kind = .rbrace then pure (some [], parser)
      else do
        let (key, parser) ← readExpression depth parser Power.lowest
        match parser.expect .colon with
        | (false, parser) => pure (none, parser)
        | (true, parser) => do
            let (value, parser) ← readExpression depth parser.next Power.lowest
            if parser.peek.kind = .rbrace then pure (some [(key, value)], parser.next)
            else match parser.expect .comma with
              | (false, parser) => pure (none, parser)
              | (true, parser) => do
                  let (rest, parser) ← readPairs depth parser.next
                  pure (rest.map ((key, value) :: ·), parser)

def readBlock : Nat → Parser → Recursion (Node × Parser)
  | 0, _ => cut
  | depth + 1, parser => do
      let token := parser.current
      let (statements, parser) ← readBody depth parser.next
      if parser.current.kind = .eof then
        pure (.block (some token) statements,
          parser.report "expected RBRACE to close block, got EOF instead" parser.current)
      else pure (.block (some token) statements, parser)

def readBody : Nat → Parser → Recursion (List Node × Parser)
  | 0, _ => cut
  | depth + 1, parser =>
      if parser.current.kind = .rbrace ∨ parser.current.kind = .eof then pure ([], parser)
      else do
        let (statement, parser) ← readStatement depth parser
        let (rest, parser) ← readBody depth parser.next
        pure (statement.toList ++ rest, parser)

/-- Reads a statement but for the semicolon after it. -/
def readSentence : Nat → Parser → Recursion (Option Node × Parser)
  | 0, _ => cut
  | depth + 1, parser =>
      match parser.current.kind with
      | .letWord => readLet depth parser
      | .returnWord => do
          let (node, after) ← readReturn depth parser
          pure (some node, after)
      | .semicolon => pure (none, parser)
      | _ => do
          let (node, after) ← readExpression depth parser Power.lowest
          pure (some (.exprStmt (some parser.current) node), after)

def readStatement : Nat → Parser → Recursion (Option Node × Parser)
  | 0, _ => cut
  | depth + 1, parser => do
      let (statement, parser) ← readSentence depth parser
      if statement.isSome && parser.peek.kind == .semicolon then pure (statement, parser.next)
      else pure (statement, parser)

def readLet : Nat → Parser → Recursion (Option Node × Parser)
  | 0, _ => cut
  | depth + 1, parser =>
      let token := parser.current
      match parser.expect .ident with
      | (false, parser) => pure (none, parser)
      | (true, parser) =>
          let name := Node.ident (some parser.current) parser.current.literal
          match parser.expect .assign with
          | (false, parser) => pure (none, parser)
          | (true, parser) => do
              let (value, parser) ← readExpression depth parser.next Power.lowest
              pure (some (.letStmt (some token) name value), parser)

def readReturn : Nat → Parser → Recursion (Node × Parser)
  | 0, _ => cut
  | depth + 1, parser => do
      let token := parser.current
      let (value, parser) ← readExpression depth parser.next Power.lowest
      pure (.returnStmt (some token) value, parser)

end

def readStatements : Nat → Parser → Recursion (List Node × Parser)
  | 0, _ => cut
  | depth + 1, parser =>
      if parser.current.kind = .eof then pure ([], parser)
      else do
        let (statement, parser) ← readStatement depth parser
        let (rest, parser) ← readStatements depth parser.next
        pure (statement.toList ++ rest, parser)

def readProgram (depth : Nat) (parser : Parser) : Recursion (Node × Parser) := do
  let (statements, parser) ← readStatements depth parser
  pure (.program statements, parser)

end Recursion

namespace Parser

open Reading

/-- The fault refuses an integer literal from the current token on. -/
def Refuses (parser : Parser) (fault : Fault) : Prop :=
  ∃ token ∈ parser.pending, token.kind = .int ∧
    ∃ cause, readInt token.literal = .error cause ∧ fault = .number cause token.literal

/-- The recursion ends, and ends as the reading does: with a value, or with the refusal of a
literal from the parser on. -/
inductive Accords (parser : Parser) {n : Nat} {α : Type} :
    Reading n α → Recursion (α × Parser) → Prop
  | done (value : α) (after : Parser) (left_le : after.left ≤ n) :
      Accords parser (.done value after left_le) (pure (value, after))
  | refused {fault : Fault} (h : parser.Refuses fault) (after : Parser) :
      Accords parser (.failed fault after) (throw fault)

section

variable {parser : Parser} {m n : Nat} {α β : Type} {reading : Reading m α}
  {recursion : Recursion (α × Parser)}

theorem Accords.eq_ending (h : parser.Accords reading recursion) : recursion = reading.ending := by
  cases h with
  | done => rfl
  | refused => rfl

theorem Accords.refuses {fault : Fault} {after : Parser} (h : parser.Accords reading recursion)
    (hfailed : reading = .failed fault after) : parser.Refuses fault := by
  subst hfailed
  cases h with
  | refused h => exact h

theorem Accords.of_before {earlier : Parser} (hbefore : earlier.Before parser)
    (h : parser.Accords reading recursion) : earlier.Accords reading recursion := by
  cases h with
  | done value after left_le => exact .done value after left_le
  | refused h after =>
      obtain ⟨token, htoken, hrest⟩ := h
      exact .refused ⟨token, hbefore.pending.mem htoken, hrest⟩ after

theorem Accords.weaken {hle : m ≤ n} (h : parser.Accords reading recursion) :
    parser.Accords (reading.weaken hle) recursion := by
  cases h with
  | done value after left_le => exact .done value after (Nat.le_trans left_le hle)
  | refused h after => exact .refused h after

theorem Accords.map {f : α → β} {next : α × Parser → Recursion (β × Parser)}
    (h : parser.Accords reading recursion)
    (hnext : ∀ value mid, next (value, mid) = pure (f value, mid)) :
    parser.Accords (reading.map f) (recursion >>= next) := by
  cases h with
  | done value after left_le =>
      rw [pure_bind, hnext]
      exact .done (f value) after left_le
  | refused h after => exact .refused h after

theorem Accords.bind {go : α → (mid : Parser) → mid.left ≤ m → Reading n β}
    {next : α × Parser → Recursion (β × Parser)} (h : parser.Accords reading recursion)
    (hgo : ∀ value mid left_le, reading.Gives value mid →
      parser.Accords (go value mid left_le) (next (value, mid))) :
    parser.Accords (reading.bind go) (recursion >>= next) := by
  cases h with
  | done value after left_le =>
      rw [pure_bind]
      exact hgo value after left_le (gives_done.mpr ⟨rfl, rfl⟩)
  | refused h after => exact .refused h after

end

/-- The recursion for a phrase of this form, nested so deep, accords with the reading from the
start. -/
def AccordsOn (parser : Parser) (depth : Nat) (start : Parser) : Phrase → Prop
  | .expression power _ =>
      parser.Accords (start.readExpression power) (Recursion.readExpression depth start power)
  | .opening rule _ =>
      parser.Accords (start.readPrefix rule) (Recursion.readPrefix depth start rule)
  | .extension power left _ =>
      parser.Accords (start.extend power left) (Recursion.extend depth start power left)
  | .conditional _ => parser.Accords start.readIf (Recursion.readIf depth start)
  | .otherwise token condition consequence _ =>
      parser.Accords (start.readElse token condition consequence)
        (Recursion.readElse depth start token condition consequence)
  | .list close _ => parser.Accords (start.readList close) (Recursion.readList depth start close)
  | .elements close _ =>
      parser.Accords (start.readElements close) (Recursion.readElements depth start close)
  | .pairs _ => parser.Accords start.readPairs (Recursion.readPairs depth start)
  | .block _ => parser.Accords start.readBlock (Recursion.readBlock depth start)
  | .body _ => parser.Accords start.readBody (Recursion.readBody depth start)
  | .sentence _ => parser.Accords start.sentenceReading (Recursion.readSentence depth start)
  | .statement _ => parser.Accords start.readStatement (Recursion.readStatement depth start)

/-- Every depth below the bound is enough for the phrases of a rank below it. -/
def AccordsBelow (bound : Nat) : Prop :=
  ∀ depth < bound, ∀ (parser : Parser) (phrase : Phrase), parser.rank phrase < depth →
    parser.grammar = .standard → parser.Opens phrase → parser.AccordsOn depth parser phrase

theorem AccordsBelow.mono {bound bound' : Nat} (h : AccordsBelow bound) (hle : bound' ≤ bound) :
    AccordsBelow bound' :=
  fun depth hdepth => h depth (Nat.lt_of_lt_of_le hdepth hle)

theorem AccordsBelow.from {depth : Nat} (ih : AccordsBelow (depth + 1)) {parser start : Parser}
    (hbefore : parser.Before start) (phrase : Phrase) (hrank : start.rank phrase < depth)
    (hgrammar : parser.grammar = .standard) (hopens : start.Opens phrase) :
    parser.AccordsOn depth start phrase := by
  have h := ih depth (Nat.lt_succ_self depth) start phrase hrank
    (hbefore.grammar.trans hgrammar) hopens
  cases phrase <;> exact Accords.of_before hbefore h

theorem recursion_readNames (parser : Parser) : ∀ depth > parser.left,
    Recursion.readNames depth parser = pure parser.readNames := by
  fun_induction readNames parser with
  | case1 parser after h =>
      rintro (_ | depth) hdepth
      · cases hdepth
      rw [Recursion.readNames]
      simp only [h]
  | case2 parser after h name hcomma hlt names ih =>
      rintro (_ | depth) hdepth
      · cases hdepth
      have hrest := ih depth (by omega)
      rw [Recursion.readNames]
      simp only [h, hcomma, if_true, hrest, pure_bind]
      rfl
  | case3 parser after h name hcomma close =>
      rintro (_ | depth) hdepth
      · cases hdepth
      rw [Recursion.readNames]
      simp only [h, hcomma, if_false]
      rfl

theorem recursion_readParameters {parser : Parser} {depth : Nat} (hdepth : parser.left < depth) :
    Recursion.readParameters depth parser = pure parser.readParameters := by
  unfold readParameters Recursion.readParameters
  split
  · rfl
  · exact recursion_readNames parser depth hdepth

theorem accords_readInteger {parser : Parser} (hleft : parser.left ≠ 0)
    (hkind : parser.current.kind = .int) :
    parser.Accords parser.readInteger parser.readInteger.ending := by
  cases hread : parser.readInteger with
  | done value after left_le => exact .done value after left_le
  | failed fault after =>
      refine .refused ⟨parser.current, current_mem_pending hleft, hkind, ?_⟩ after
      simp only [readInteger] at hread
      split at hread
      · next cause hcause =>
        cases hread
        exact ⟨cause, hcause, rfl⟩
      · split at hread <;> cases hread

section Accords

variable {parser : Parser} {depth : Nat} (ih : AccordsBelow (depth + 1))
  (hgrammar : parser.grammar = .standard)

include ih hgrammar

theorem accords_function {node : Node} (hrank : parser.rank (.opening .function node) ≤ depth) :
    parser.AccordsOn (depth + 1) parser (.opening .function node) := by
  simp only [AccordsOn]
  simp only [rank, Phrase.rank] at hrank
  rw [readPrefix, Recursion.readPrefix]
  split
  · next opened hopen =>
    simp only [hopen]
    exact .done _ _ _
  next opened hopen =>
  obtain ⟨hkind, rfl⟩ := expect_true hopen
  have hcall := @recursion_readParameters parser.next depth (by rw [left_next]; omega)
  simp only [hopen, hcall, pure_bind]
  have hnamed := (before_next _).trans (before_readParameters parser.next)
  have hle := parser.next.left_readParameters_le
  split
  · next mid hparameters =>
    simp only [hparameters]
    exact .done _ _ _
  next parameters mid hparameters =>
  simp only [hparameters] at hnamed hle ⊢
  split
  · next inside hbrace =>
    simp only [hbrace]
    exact .done _ _ _
  next inside hbrace =>
  obtain ⟨hbraced, rfl⟩ := expect_true hbrace
  have hlt : 1 < mid.left := one_lt_left (by simp [hbraced])
  rw [left_next] at hle
  simp only [hbrace]
  refine Accords.weaken (Accords.map ?_ fun _ _ => rfl)
  exact ih.from (hnamed.trans (before_next _)) (.block .missing)
    (by simp only [rank, Phrase.rank, left_next]; omega) hgrammar hbraced

theorem accords_opening {rule : PrefixRule} {node : Node}
    (hrank : parser.rank (.opening rule node) ≤ depth)
    (hopens : parser.Opens (.opening rule node)) :
    parser.AccordsOn (depth + 1) parser (.opening rule node) := by
  have hkind := Grammar.kind_of_prefixRule? hopens
  have hleft : parser.left ≠ 0 := @left_ne_zero_of_opening parser rule node hopens
  have hnext := before_next parser
  simp only [rank, Phrase.rank] at hrank
  cases rule with
  | function => exact accords_function ih hgrammar hrank
  | integer =>
      simp only [AccordsOn]
      rw [readPrefix, Recursion.readPrefix]
      exact accords_readInteger hleft hkind
  | string | boolean | identifier =>
      simp only [AccordsOn]
      rw [readPrefix, Recursion.readPrefix]
      exact .done _ _ _
  | operator =>
      simp only [AccordsOn]
      rw [readPrefix, Recursion.readPrefix]
      simp only [hleft, ↓reduceDIte]
      exact Accords.bind (ih.from hnext (.expression Power.sign .missing)
        (by simp only [rank, Phrase.rank, left_next]; omega) hgrammar trivial)
        fun right mid _ _ => .done _ _ _
  | grouped =>
      simp only [AccordsOn]
      rw [readPrefix, Recursion.readPrefix]
      simp only [hleft, ↓reduceDIte]
      refine Accords.bind (ih.from hnext (.expression Power.lowest .missing)
        (by simp only [rank, Phrase.rank, left_next]; omega) hgrammar trivial)
        fun inner mid _ _ => ?_
      dsimp only
      split
      · next hclose =>
        simp only [hclose]
        exact .done _ _ _
      · next hclose =>
        simp only [hclose]
        exact .done _ _ _
  | conditional =>
      simp only [AccordsOn]
      rw [readPrefix, Recursion.readPrefix]
      exact ih.from (Before.refl parser) (.conditional node)
        (by simp only [rank, Phrase.rank]; omega) hgrammar hkind
  | array =>
      simp only [AccordsOn]
      rw [readPrefix, Recursion.readPrefix]
      simp only [hleft, ↓reduceDIte]
      exact Accords.bind (ih.from hnext (.list .rbracket none)
        (by simp only [rank, Phrase.rank, left_next]; omega) hgrammar (by simp [Opens]))
        fun elements mid _ _ => .done _ _ _
  | hash =>
      simp only [AccordsOn]
      rw [readPrefix, Recursion.readPrefix]
      simp only [hleft, ↓reduceDIte]
      exact Accords.bind (ih.from hnext (.pairs none)
        (by simp only [rank, Phrase.rank, left_next]; omega) hgrammar trivial)
        fun pairs mid _ _ => .done _ _ _

theorem accords_expression {power : Int} {node : Node}
    (hrank : parser.rank (.expression power node) ≤ depth) :
    parser.AccordsOn (depth + 1) parser (.expression power node) := by
  simp only [AccordsOn]
  simp only [rank, Phrase.rank] at hrank
  rw [readExpression, Recursion.readExpression]
  cases hrule : parser.grammar.prefixRule? parser.current.kind with
  | none => exact .done _ _ _
  | some rule =>
      dsimp only
      refine Accords.bind (ih.from (Before.refl parser) (.opening rule .missing)
        (by simp only [rank, Phrase.rank]; omega) hgrammar (by rwa [Opens, ← hgrammar]))
        fun left mid left_le hleft => Accords.weaken ?_
      exact ih.from (before_of_reads (.opening rule left) hleft) (.extension power left .missing)
        (by simp only [rank, Phrase.rank]; omega) hgrammar trivial

theorem accords_readInfix (rule : InfixRule) (left : Node) (hrank : 8 * parser.left ≤ depth)
    (hleft : parser.left ≠ 0) :
    parser.Accords (parser.readInfix rule left)
      (Recursion.readInfix (depth + 1) parser rule left) := by
  have hnext := before_next parser
  cases rule with
  | operator power right =>
      rw [readInfix, Recursion.readInfix]
      simp only [hleft, ↓reduceDIte]
      exact Accords.bind (ih.from hnext (.expression _ .missing)
        (by simp only [rank, Phrase.rank, left_next]; omega) hgrammar trivial)
        fun operand mid _ _ => .done _ _ _
  | call =>
      rw [readInfix, Recursion.readInfix]
      simp only [hleft, ↓reduceDIte]
      exact Accords.bind (ih.from hnext (.list .rparen none)
        (by simp only [rank, Phrase.rank, left_next]; omega) hgrammar (by simp [Opens]))
        fun arguments mid _ _ => .done _ _ _
  | index =>
      rw [readInfix, Recursion.readInfix]
      simp only [hleft, ↓reduceDIte]
      refine Accords.bind (ih.from hnext (.expression Power.lowest .missing)
        (by simp only [rank, Phrase.rank, left_next]; omega) hgrammar trivial)
        fun index mid _ _ => ?_
      dsimp only
      split
      · next hclose =>
        simp only [hclose]
        exact .done _ _ _
      · next hclose =>
        simp only [hclose]
        exact .done _ _ _

theorem accords_extension {power : Int} {left node : Node}
    (hrank : parser.rank (.extension power left node) ≤ depth) :
    parser.AccordsOn (depth + 1) parser (.extension power left node) := by
  simp only [AccordsOn]
  simp only [rank, Phrase.rank] at hrank
  rw [extend, Recursion.extend]
  split
  · exact .done _ _ _
  next hend =>
  split
  case isFalse => exact .done _ _ _
  next hpower =>
  cases hrule : parser.grammar.infixRule? parser.peek.kind with
  | none => exact .done _ _ _
  | some rule =>
      have hlt : 1 < parser.left := one_lt_left hend
      have hnext : parser.next.left ≠ 0 := by rw [left_next]; omega
      -- The operator is no phrase, so it has no rank: it takes a depth between two phrases.
      obtain ⟨depth, rfl⟩ : ∃ below, depth = below + 1 :=
        Nat.exists_eq_succ_of_ne_zero (by omega)
      have hread := @accords_readInfix parser.next depth (ih.mono (Nat.le_succ _)) hgrammar rule
        left (by rw [left_next]; omega) hnext
      dsimp only
      refine Accords.bind (hread.of_before (before_next parser))
        fun more mid hle hmore => Accords.weaken ?_
      rw [left_next] at hle
      exact ih.from ((before_next parser).trans (before_readInfix (forwardBelow _) hnext hmore))
        (.extension power more .missing) (by simp only [rank, Phrase.rank]; omega) hgrammar trivial

theorem accords_conditional {node : Node} (hrank : parser.rank (.conditional node) ≤ depth) :
    parser.AccordsOn (depth + 1) parser (.conditional node) := by
  simp only [AccordsOn]
  simp only [rank, Phrase.rank] at hrank
  rw [readIf, Recursion.readIf]
  split
  · next hopen =>
    simp only [hopen]
    exact .done _ _ _
  next opened hopen =>
  obtain ⟨hparen, rfl⟩ := expect_true hopen
  have hlt : 1 < parser.left := one_lt_left (by simp [hparen])
  have htwice := (before_next parser).trans (before_next _)
  simp only [hopen]
  refine Accords.bind (ih.from htwice (.expression Power.lowest .missing)
    (by simp only [rank, Phrase.rank, left_next]; omega) hgrammar trivial)
    fun condition mid hle hcondition => ?_
  have hmid := htwice.trans (before_of_reads (.expression _ condition) hcondition)
  rw [left_next, left_next] at hle
  dsimp only
  split
  · next hclose =>
    simp only [hclose]
    exact .done _ _ _
  next closed hclose =>
  obtain ⟨_, rfl⟩ := expect_true hclose
  simp only [hclose]
  split
  · next hbrace =>
    simp only [hbrace]
    exact .done _ _ _
  next braced hbrace =>
  obtain ⟨hbraced, rfl⟩ := expect_true hbrace
  have hinside := (hmid.trans (before_next _)).trans (before_next _)
  simp only [hbrace]
  refine Accords.bind (ih.from hinside (.block .missing)
    (by simp only [rank, Phrase.rank, left_next]; omega) hgrammar hbraced)
    fun consequence last hle' hblock => Accords.weaken ?_
  rw [left_next, left_next] at hle'
  exact ih.from (hinside.trans (before_of_reads (.block consequence) hblock))
    (.otherwise _ _ _ .missing) (by simp only [rank, Phrase.rank]; omega) hgrammar trivial

theorem accords_otherwise {token : Token} {condition consequence node : Node}
    (hrank : parser.rank (.otherwise token condition consequence node) ≤ depth) :
    parser.AccordsOn (depth + 1) parser (.otherwise token condition consequence node) := by
  simp only [AccordsOn]
  simp only [rank, Phrase.rank] at hrank
  rw [readElse, Recursion.readElse]
  split
  case isFalse => exact .done _ _ _
  next hword =>
  have hlt : 1 < parser.left := one_lt_left (by simp [hword])
  have hinside := (before_next parser).trans (before_next _)
  split
  · next hbrace =>
    refine Accords.weaken (Accords.map ?_ fun _ _ => rfl)
    exact ih.from hinside (.block .missing)
      (by simp only [rank, Phrase.rank, left_next]; omega) hgrammar hbrace
  next hbrace =>
  split
  · next hif =>
    refine Accords.weaken (Accords.map ?_ fun _ _ => rfl)
    exact ih.from hinside (.conditional .missing)
      (by simp only [rank, Phrase.rank, left_next]; omega) hgrammar hif
  · exact .done _ _ _

theorem accords_elements {close : Kind} {nodes : Option (List Node)}
    (hrank : parser.rank (.elements close nodes) ≤ depth)
    (hopens : parser.Opens (.elements close nodes)) :
    parser.AccordsOn (depth + 1) parser (.elements close nodes) := by
  simp only [AccordsOn]
  simp only [rank, Phrase.rank] at hrank
  rw [readElements, Recursion.readElements]
  refine Accords.bind (ih.from (Before.refl parser) (.expression Power.lowest .missing)
    (by simp only [rank, Phrase.rank]; omega) hgrammar trivial) fun element mid hle helement => ?_
  have hmid := before_of_reads (.expression _ element) helement
  dsimp only
  split
  · next hcomma =>
    have hlt : 1 < mid.left := one_lt_left (by simp [hcomma])
    refine Accords.weaken (Accords.map ?_ fun _ _ => rfl)
    exact ih.from ((hmid.trans (before_next _)).trans (before_next _)) (.elements close none)
      (by simp only [rank, Phrase.rank, left_next]; omega) hgrammar hopens
  next hcomma =>
  split
  · next hclose =>
    simp only [hclose]
    exact .done _ _ _
  · next hclose =>
    simp only [hclose]
    exact .done _ _ _

theorem accords_pairs {pairs : Option (List (Node × Node))}
    (hrank : parser.rank (.pairs pairs) ≤ depth) :
    parser.AccordsOn (depth + 1) parser (.pairs pairs) := by
  simp only [AccordsOn]
  simp only [rank, Phrase.rank] at hrank
  rw [readPairs, Recursion.readPairs]
  split
  · exact .done _ _ _
  next hclose =>
  refine Accords.bind (ih.from (Before.refl parser) (.expression Power.lowest .missing)
    (by simp only [rank, Phrase.rank]; omega) hgrammar trivial) fun key mid hle hkey => ?_
  have hmid := before_of_reads (.expression _ key) hkey
  dsimp only
  split
  · next hcolon =>
    simp only [hcolon]
    exact .done _ _ _
  next inside hcolon =>
  obtain ⟨hkind, rfl⟩ := expect_true hcolon
  have hlt : 1 < mid.left := one_lt_left (by simp [hkind])
  have hnext := (hmid.trans (before_next _)).trans (before_next _)
  simp only [hcolon]
  refine Accords.bind (ih.from hnext (.expression Power.lowest .missing)
    (by simp only [rank, Phrase.rank, left_next]; omega) hgrammar trivial)
    fun value last hle' hvalue => ?_
  have hlast := hnext.trans (before_of_reads (.expression _ value) hvalue)
  rw [left_next, left_next] at hle'
  dsimp only
  split
  · exact .done _ _ _
  next hbrace =>
  split
  · next hcomma =>
    simp only [hcomma]
    exact .done _ _ _
  next moved hcomma =>
  obtain ⟨_, rfl⟩ := expect_true hcomma
  simp only [hcomma]
  refine Accords.weaken (Accords.map ?_ fun _ _ => rfl)
  exact ih.from ((hlast.trans (before_next _)).trans (before_next _)) (.pairs none)
    (by simp only [rank, Phrase.rank, left_next]; omega) hgrammar trivial

theorem accords_block {node : Node} (hrank : parser.rank (.block node) ≤ depth) :
    parser.AccordsOn (depth + 1) parser (.block node) := by
  simp only [AccordsOn]
  simp only [rank, Phrase.rank] at hrank
  rw [readBlock, Recursion.readBlock]
  refine Accords.bind (ih.from (before_next parser) (.body [])
    (by simp only [rank, Phrase.rank, left_next]; omega) hgrammar trivial)
    fun statements mid _ _ => ?_
  dsimp only
  split
  · exact .done _ _ _
  · exact .done _ _ _

theorem accords_body {statements : List Node} (hrank : parser.rank (.body statements) ≤ depth) :
    parser.AccordsOn (depth + 1) parser (.body statements) := by
  simp only [AccordsOn]
  simp only [rank, Phrase.rank] at hrank
  rw [readBody, Recursion.readBody]
  split
  · exact .done _ _ _
  next hend =>
  have hpos := Parser.left_pos (not_or.mp hend).2
  refine Accords.bind (ih.from (Before.refl parser) (.statement none)
    (by simp only [rank, Phrase.rank]; omega) hgrammar trivial)
    fun statement mid hle hread => Accords.weaken ?_
  exact Accords.map (ih.from ((before_of_reads (.statement statement) hread).trans (before_next _))
    (.body []) (by simp only [rank, Phrase.rank, left_next]; omega) hgrammar trivial)
    fun _ _ => rfl

theorem accords_readReturn (hrank : 8 * parser.left ≤ depth) (hleft : parser.left ≠ 0) :
    parser.Accords parser.readReturn (Recursion.readReturn (depth + 1) parser) := by
  rw [readReturn, Recursion.readReturn]
  refine Accords.weaken (Accords.map ?_ fun _ _ => rfl)
  exact ih.from (before_next parser) (.expression Power.lowest .missing)
    (by simp only [rank, Phrase.rank, left_next]; omega) hgrammar trivial

theorem accords_readLet (hrank : 8 * parser.left ≤ depth) (hleft : parser.left ≠ 0) :
    parser.Accords parser.readLet (Recursion.readLet (depth + 1) parser) := by
  rw [readLet, Recursion.readLet]
  split
  · next hname =>
    simp only [hname]
    exact .done _ _ _
  next named hname =>
  obtain ⟨_, rfl⟩ := expect_true hname
  simp only [hname]
  split
  · next hassign =>
    simp only [hassign]
    exact .done _ _ _
  next assigned hassign =>
  obtain ⟨_, rfl⟩ := expect_true hassign
  simp only [hassign]
  refine Accords.weaken (Accords.map ?_ fun _ _ => rfl)
  exact ih.from (((before_next parser).trans (before_next _)).trans (before_next _))
    (.expression Power.lowest .missing)
    (by simp only [rank, Phrase.rank, left_next]; omega) hgrammar trivial

theorem accords_sentence {statement : Option Node}
    (hrank : parser.rank (.sentence statement) ≤ depth) :
    parser.AccordsOn (depth + 1) parser (.sentence statement) := by
  have hleft (hkind : parser.current.kind ≠ .eof) : parser.left ≠ 0 :=
    Nat.ne_of_gt (Parser.left_pos hkind)
  simp only [AccordsOn]
  simp only [rank, Phrase.rank] at hrank
  -- Let and return statements are no phrases of their own either.
  obtain ⟨depth, rfl⟩ : ∃ below, depth = below + 1 := Nat.exists_eq_succ_of_ne_zero (by omega)
  have hbelow := ih.mono (Nat.le_succ _)
  rw [sentenceReading]
  split
  · next hkind =>
    rw [Recursion.readSentence]
    simp only [hkind]
    exact accords_readLet hbelow hgrammar (by omega) (hleft (by rw [hkind]; decide))
  · next hkind =>
    rw [Recursion.readSentence]
    simp only [hkind]
    refine Accords.map ?_ fun _ _ => rfl
    exact accords_readReturn hbelow hgrammar (by omega) (hleft (by rw [hkind]; decide))
  · next hkind =>
    rw [Recursion.readSentence]
    simp only [hkind]
    exact .done _ _ _
  · next hlet hreturn hsemicolon =>
    rw [Recursion.readSentence]
    split
    · next hkind => exact absurd hkind hlet
    · next hkind => exact absurd hkind hreturn
    · next hkind => exact absurd hkind hsemicolon
    refine Accords.map ?_ fun _ _ => rfl
    exact ih.from (Before.refl parser) (.expression Power.lowest .missing)
      (by simp only [rank, Phrase.rank]; omega) hgrammar trivial

theorem accords_statement {statement : Option Node}
    (hrank : parser.rank (.statement statement) ≤ depth) :
    parser.AccordsOn (depth + 1) parser (.statement statement) := by
  simp only [AccordsOn]
  simp only [rank, Phrase.rank] at hrank
  rw [readStatement, Recursion.readStatement]
  refine Accords.bind (ih.from (Before.refl parser) (.sentence none)
    (by simp only [rank, Phrase.rank]; omega) hgrammar trivial) fun found mid _ _ => ?_
  dsimp only
  split
  · exact .done _ _ _
  · exact .done _ _ _

theorem accords_list {close : Kind} {nodes : Option (List Node)}
    (hrank : parser.rank (.list close nodes) ≤ depth) (hopens : parser.Opens (.list close nodes)) :
    parser.AccordsOn (depth + 1) parser (.list close nodes) := by
  simp only [AccordsOn]
  simp only [rank, Phrase.rank] at hrank
  rw [readList, Recursion.readList]
  split
  · exact .done _ _ _
  · exact ih.from (Before.refl parser) (.elements close nodes)
      (by simp only [rank, Phrase.rank]; omega) hgrammar hopens

end Accords

/-- Under the rules of the language every depth is enough for the phrases of a lower rank.  By
induction on the depth: what a function calls, it calls for a phrase of a rank below its own. -/
theorem accordsBelow (bound : Nat) : AccordsBelow bound := by
  induction bound with
  | zero => exact nofun
  | succ bound ih =>
      intro depth hdepth parser phrase hrank hgrammar hopens
      match depth with
      | depth + 1 =>
      have ih := ih.mono (Nat.le_of_lt_succ hdepth)
      have hrank := Nat.le_of_lt_succ hrank
      cases phrase with
      | expression power node => exact accords_expression ih hgrammar hrank
      | opening rule node => exact accords_opening ih hgrammar hrank hopens
      | extension power left node => exact accords_extension ih hgrammar hrank
      | conditional node => exact accords_conditional ih hgrammar hrank
      | otherwise token condition consequence node => exact accords_otherwise ih hgrammar hrank
      | list close nodes => exact accords_list ih hgrammar hrank hopens
      | elements close nodes => exact accords_elements ih hgrammar hrank hopens
      | pairs pairs => exact accords_pairs ih hgrammar hrank
      | block node => exact accords_block ih hgrammar hrank
      | body statements => exact accords_body ih hgrammar hrank
      | sentence statement => exact accords_sentence ih hgrammar hrank
      | statement statement => exact accords_statement ih hgrammar hrank

theorem accords_readStatements {parser : Parser} {depth : Nat}
    (hdepth : 8 * parser.left + 6 < depth) (hgrammar : parser.grammar = .standard) :
    parser.Accords parser.readStatements (Recursion.readStatements depth parser) := by
  induction depth generalizing parser with
  | zero => exact absurd hdepth (Nat.not_lt_zero _)
  | succ depth ih =>
      rw [readStatements, Recursion.readStatements]
      split
      · exact .done _ _ _
      next hend =>
      have hpos := Parser.left_pos hend
      refine Accords.bind ((accordsBelow (depth + 1)).from (Before.refl parser) (.statement none)
        (by simp only [rank, Phrase.rank]; omega) hgrammar trivial)
        fun statement mid hle hread => Accords.weaken ?_
      have hmid := (before_of_reads (.statement statement) hread).trans (before_next _)
      have hrest := @ih mid.next (by rw [left_next]; omega) (hmid.grammar.trans hgrammar)
      exact (hrest.of_before hmid).map fun _ _ => rfl

/-- Statements are read until the end of the text. -/
theorem kind_eof_of_readStatements {parser after : Parser} {statements : List Node}
    (h : parser.readStatements.Gives statements after) : after.current.kind = .eof := by
  induction h using readStatements_induction with
  | stop hend => exact hend
  | step _ _ _ ih => exact ih

end Parser

/-- Once the end of a text is reached, all of it has been read. -/
theorem pending_eq_nil {source : String} {after : Parser}
    (hbefore : (Parser.ofSource source).Before after) (hend : after.current.kind = .eof) :
    after.pending = [] := by
  cases hpending : after.pending with
  | nil => rfl
  | cons token rest =>
      have hcurrent : after.current = token := by simp [Parser.current, hpending]
      have hmem : token ∈ (tokenize source).tokens :=
        hbefore.pending.mem (by rw [hpending]; exact List.mem_cons_self)
      exact absurd (hcurrent ▸ hend) (kind_ne_eof_of_mem_tokenize hmem)

open Reading in
/-- The recursion ends on every text, and its calls are nested no deeper than the number of tokens
allows.  Either it gives what the parser gives, and stands at the end of the text with all of it
read, or it meets an integer literal that has more digits than are read, and is refused as the
parser is. -/
theorem recursion_ends (source : String) :
    (∃ program after,
      (∀ depth, 8 * (tokenize source).tokens.length + 6 < depth →
        (Recursion.readProgram depth (.ofSource source)).run = some (.ok (program, after))) ∧
      (parse source).Gives program after ∧ after.current.kind = .eof ∧ after.pending = []) ∨
    ∃ token ∈ (tokenize source).tokens, token.kind = .int ∧ maxDigits < token.literal.length ∧
      (∀ depth, 8 * (tokenize source).tokens.length + 6 < depth →
        (Recursion.readProgram depth (.ofSource source)).run =
          some (.error (.number (.tooLong token.literal.length) token.literal))) ∧
      (parse source).toExcept =
        .error (.number (.tooLong token.literal.length) token.literal) := by
  have haccords (depth : Nat) (hdepth : 8 * (tokenize source).tokens.length + 6 < depth) :
      (Parser.ofSource source).Accords (parse source)
        (Recursion.readProgram depth (.ofSource source)) :=
    (Parser.accords_readStatements hdepth rfl).map fun _ _ => rfl
  cases hreading : parse source with
  | done program after left_le =>
      have hgives : (parse source).Gives program after := ⟨left_le, hreading⟩
      obtain ⟨statements, hread, _⟩ := gives_map.mp hgives
      have hend := Parser.kind_eof_of_readStatements hread
      refine .inl ⟨program, after, fun depth hdepth => ?_, gives_done.mpr ⟨rfl, rfl⟩, hend,
        pending_eq_nil (Parser.before_readStatements hread) hend⟩
      rw [(haccords depth hdepth).eq_ending, hreading]
      rfl
  | failed fault after =>
      have hrefuses := (haccords _ (Nat.lt_succ_self _)).refuses hreading
      obtain ⟨token, htoken, hkind, cause, hread, rfl⟩ := hrefuses
      rw [Token.readInt_eq (spells_of_mem_tokenize htoken) hkind] at hread
      split at hread
      · next hlong =>
        cases hread
        refine .inr ⟨token, htoken, hkind, hlong, fun depth hdepth => ?_, rfl⟩
        rw [(haccords depth hdepth).eq_ending, hreading]
        rfl
      · cases hread

end Monkey
