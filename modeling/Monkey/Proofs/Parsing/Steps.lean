/-
What each function of the parser can do.  `Gives` says that a reading ends with a value and
leaves a parser; one equivalence for each function says which readings of its parts that takes.
Nothing else unfolds the parser.
-/
import Monkey.Parser.Tree

namespace Monkey

/-- The reading ends with a value and leaves a parser behind. -/
def Reading.Gives {bound : Nat} {α : Type} (reading : Reading bound α) (value : α)
    (after : Parser) : Prop :=
  ∃ left_le, reading = .done value after left_le

namespace Reading

variable {α β : Type} {m n : Nat}

@[simp] theorem gives_done {value value' : α} {after after' : Parser}
    {left_le : after.left ≤ n} :
    (Reading.done value after left_le).Gives value' after' ↔
      value = value' ∧ after = after' := by
  constructor
  · rintro ⟨_, h⟩
    cases h
    exact ⟨rfl, rfl⟩
  · rintro ⟨rfl, rfl⟩
    exact ⟨left_le, rfl⟩

@[simp] theorem not_gives_failed {fault : Fault} {parser after : Parser} {value : α} :
    ¬ (Reading.failed fault parser : Reading n α).Gives value after := by
  rintro ⟨_, h⟩
  cases h

theorem gives_bind {reading : Reading m α}
    {go : α → (parser : Parser) → parser.left ≤ m → Reading n β} {value : β} {after : Parser} :
    (reading.bind go).Gives value after ↔
      ∃ first mid, ∃ left_le : mid.left ≤ m,
        reading.Gives first mid ∧ (go first mid left_le).Gives value after := by
  cases reading with
  | done first mid left_le =>
      constructor
      · intro h
        exact ⟨first, mid, left_le, by simp, h⟩
      · rintro ⟨first', mid', left_le', h, hgo⟩
        obtain ⟨rfl, rfl⟩ := gives_done.mp h
        exact hgo
  | failed fault parser =>
      constructor
      · intro h
        exact absurd h not_gives_failed
      · rintro ⟨_, _, _, h, _⟩
        exact absurd h not_gives_failed

/-- What a bind can give, once it is known what can follow the first reading. -/
theorem gives_bind_iff {reading : Reading m α}
    {go : α → (parser : Parser) → parser.left ≤ m → Reading n β} {value : β} {after : Parser}
    {Follows : α → Parser → Prop}
    (h : ∀ first mid left_le, (go first mid left_le).Gives value after ↔ Follows first mid) :
    (reading.bind go).Gives value after ↔
      ∃ first mid, reading.Gives first mid ∧ Follows first mid := by
  rw [gives_bind]
  constructor
  · rintro ⟨first, mid, left_le, hreading, hgo⟩
    exact ⟨first, mid, hreading, (h first mid left_le).mp hgo⟩
  · rintro ⟨first, mid, hreading, hfollows⟩
    obtain ⟨left_le, _⟩ := id hreading
    exact ⟨first, mid, left_le, hreading, (h first mid left_le).mpr hfollows⟩

@[simp] theorem gives_weaken {reading : Reading m α} {h : m ≤ n} {value : α} {after : Parser} :
    (reading.weaken h).Gives value after ↔ reading.Gives value after := by
  cases reading with
  | done first mid left_le => simp [weaken]
  | failed fault parser => simp [weaken]

theorem gives_map {reading : Reading n α} {f : α → β} {value : β} {after : Parser} :
    (reading.map f).Gives value after ↔ ∃ first, reading.Gives first after ∧ f first = value := by
  cases reading with
  | done first mid left_le =>
      simp only [map, gives_done]
      constructor
      · rintro ⟨rfl, rfl⟩
        exact ⟨first, ⟨rfl, rfl⟩, rfl⟩
      · rintro ⟨_, ⟨rfl, rfl⟩, rfl⟩
        exact ⟨rfl, rfl⟩
  | failed fault parser => simp [map]

theorem Gives.left_le {reading : Reading n α} {value : α} {after : Parser}
    (h : reading.Gives value after) : after.left ≤ n := by
  obtain ⟨left_le, _⟩ := h
  exact left_le

/-- A reading that comes to an end gives its value. -/
theorem gives_of_toExcept {reading : Reading n α} {value : α}
    (h : reading.toExcept = .ok value) : reading.Gives value reading.after := by
  cases reading with
  | done value' after left_le =>
      cases h
      exact gives_done.mpr ⟨rfl, rfl⟩
  | failed => cases h

/-- A reading gives one value and leaves one parser. -/
theorem Gives.unique {reading : Reading n α} {value value' : α} {after after' : Parser}
    (h : reading.Gives value after) (h' : reading.Gives value' after') :
    value = value' ∧ after = after' := by
  obtain ⟨left_le, rfl⟩ := h
  exact gives_done.mp h'

end Reading

namespace Parser

open Reading

/-- Expecting a token either moves on to it or stays and reports. -/
theorem expect_eq (parser : Parser) (kind : Kind) :
    (parser.peek.kind = kind ∧ parser.expect kind = (true, parser.next)) ∨
      (parser.peek.kind ≠ kind ∧ parser.expect kind = (false, parser.reportPeek kind)) := by
  unfold Parser.expect
  by_cases h : parser.peek.kind = kind
  · exact Or.inl ⟨h, if_pos h⟩
  · exact Or.inr ⟨h, if_neg h⟩

/-- What is expected is there, and the parser stands on it. -/
theorem expect_true {parser after : Parser} {kind : Kind}
    (h : parser.expect kind = (true, after)) : parser.peek.kind = kind ∧ after = parser.next := by
  rcases parser.expect_eq kind with ⟨hkind, heq⟩ | ⟨_, heq⟩
  · rw [heq] at h
    cases h
    exact ⟨hkind, rfl⟩
  · rw [heq] at h
    cases h

theorem readNames_of_ident {parser : Parser} (h : parser.peek.kind = .ident) :
    parser.readNames =
      if parser.next.peek.kind = .comma then
        (parser.next.next.readNames.1.map (.ident (some parser.peek) parser.peek.literal :: ·),
          parser.next.next.readNames.2)
      else if parser.next.peek.kind = .rparen then
        (some [.ident (some parser.peek) parser.peek.literal], parser.next.next)
      else (none, parser.next.reportPeek .rparen) := by
  rw [Parser.readNames]
  rcases parser.expect_eq .ident with ⟨_, heq⟩ | ⟨hnot, _⟩
  · split
    · next hname => simp [heq] at hname
    · next mid hname =>
      have hnext : mid = parser.next := by simp_all
      subst hnext
      rcases parser.next.expect_eq .rparen with ⟨hclose, hceq⟩ | ⟨hclose, hceq⟩
      · simp only [hceq, hclose, if_true]
        rfl
      · simp only [hceq, hclose, if_false]
        rfl
  · exact absurd h hnot

theorem gives_readInteger {parser after : Parser} {node : Node} :
    parser.readInteger.Gives node after ↔
      ∃ value, readInt parser.current.literal = .ok value ∧
        ((minInteger ≤ value ∧ value ≤ maxInteger) ∧
            .int (some parser.current) value = node ∧ parser = after ∨
          ¬ (minInteger ≤ value ∧ value ≤ maxInteger) ∧ .missing = node ∧
            parser.report ("could not parse " ++ parser.current.literal ++ " as integer")
              parser.current = after) := by
  simp only [Parser.readInteger]
  split
  · next hread => simp [hread]
  · next value hread =>
    simp only [hread, Except.ok.injEq, exists_eq_left']
    split
    · next hrange => simp [hrange]
    · next hrange => exact gives_done.trans (by simp [hrange])

theorem gives_readExpression {parser after : Parser} {power : Int} {node : Node} :
    (parser.readExpression power).Gives node after ↔
      (parser.grammar.prefixRule? parser.current.kind = none ∧ .missing = node ∧
        parser.reportNoPrefix parser.current = after) ∨
      ∃ rule, parser.grammar.prefixRule? parser.current.kind = some rule ∧ ∃ left mid,
        (parser.readPrefix rule).Gives left mid ∧ (mid.extend power left).Gives node after := by
  rw [Parser.readExpression]
  split
  · next hnone =>
    exact gives_done.trans (by simp [hnone])
  · next rule hrule =>
    simp only [hrule, reduceCtorEq, false_and, false_or, Option.some.injEq, exists_eq_left']
    exact gives_bind_iff fun left mid _ => gives_weaken

theorem gives_readPrefix_operator {parser after : Parser} {node : Node} :
    (parser.readPrefix .operator).Gives node after ↔
      parser.left ≠ 0 ∧ ∃ right mid,
        (parser.next.readExpression Power.sign).Gives right mid ∧
          .prefixOp (some parser.current) parser.current.literal right = node ∧ mid = after := by
  rw [Parser.readPrefix]
  split
  · next h => simp [h]
  · next h =>
    simp only [ne_eq, h, not_false_eq_true, true_and]
    exact gives_bind_iff fun right mid _ => gives_done

theorem gives_readPrefix_grouped {parser after : Parser} {node : Node} :
    (parser.readPrefix .grouped).Gives node after ↔
      parser.left ≠ 0 ∧ ∃ inner mid,
        (parser.next.readExpression Power.lowest).Gives inner mid ∧
          (mid.peek.kind = .rparen ∧ inner = node ∧ mid.next = after ∨
            mid.peek.kind ≠ .rparen ∧ .missing = node ∧ mid.reportPeek .rparen = after) := by
  rw [Parser.readPrefix]
  split
  · next h => simp [h]
  · next h =>
    simp only [ne_eq, h, not_false_eq_true, true_and]
    apply gives_bind_iff
    intro inner mid _
    rcases mid.expect_eq .rparen with ⟨hkind, heq⟩ | ⟨hkind, heq⟩ <;> split <;> simp_all

theorem gives_readPrefix_function {parser after : Parser} {node : Node} :
    (parser.readPrefix .function).Gives node after ↔
      (parser.peek.kind ≠ .lparen ∧ .missing = node ∧ parser.reportPeek .lparen = after) ∨
      parser.peek.kind = .lparen ∧ ∃ names mid, parser.next.readParameters = (names, mid) ∧
        ((names = none ∧ .missing = node ∧ mid = after) ∨
          ∃ parameters, names = some parameters ∧
            (mid.peek.kind ≠ .lbrace ∧ .missing = node ∧ mid.reportPeek .lbrace = after ∨
              mid.peek.kind = .lbrace ∧ ∃ body, mid.next.readBlock.Gives body after ∧
                .function (some parser.current) parameters body = node)) := by
  rw [Parser.readPrefix]
  rcases parser.expect_eq .lparen with ⟨hopen, heq⟩ | ⟨hopen, heq⟩
  · split
    · simp_all
    · next mid hmid =>
      have hnext : mid = parser.next := by simp_all
      subst hnext
      simp only [hopen, ne_eq, not_true_eq_false, false_and, false_or, true_and]
      split
      · next last hnames => simp [hnames, and_assoc]
      · next names last hnames =>
        simp only [hnames, Prod.mk.injEq, and_assoc, exists_and_left, exists_eq_left',
          reduceCtorEq, false_and, false_or, Option.some.injEq]
        rcases last.expect_eq .lbrace with ⟨hbrace, hbeq⟩ | ⟨hbrace, hbeq⟩
        · split
          · simp_all
          · next inside hinside =>
            have hnext : inside = last.next := by simp_all
            subst hnext
            simp [gives_map, hbrace]
        · split <;> simp_all
  · split <;> simp_all

theorem gives_readPrefix_array {parser after : Parser} {node : Node} :
    (parser.readPrefix .array).Gives node after ↔
      parser.left ≠ 0 ∧ ∃ elements mid,
        (parser.next.readList .rbracket).Gives elements mid ∧
          (match elements with
            | some elements => .array (some parser.current) elements
            | none => .missing) = node ∧ mid = after := by
  rw [Parser.readPrefix]
  split
  · next h => simp [h]
  · next h =>
    simp only [ne_eq, h, not_false_eq_true, true_and]
    exact gives_bind_iff fun elements mid _ => gives_done

theorem gives_readPrefix_hash {parser after : Parser} {node : Node} :
    (parser.readPrefix .hash).Gives node after ↔
      parser.left ≠ 0 ∧ ∃ pairs mid, parser.next.readPairs.Gives pairs mid ∧
        (match pairs with
          | some pairs => .hash (some parser.current) pairs
          | none => .missing) = node ∧ mid = after := by
  rw [Parser.readPrefix]
  split
  · next h => simp [h]
  · next h =>
    simp only [ne_eq, h, not_false_eq_true, true_and]
    exact gives_bind_iff fun pairs mid _ => gives_done

theorem gives_readIf {parser after : Parser} {node : Node} :
    parser.readIf.Gives node after ↔
      (parser.peek.kind ≠ .lparen ∧ .missing = node ∧ parser.reportPeek .lparen = after) ∨
      parser.peek.kind = .lparen ∧ ∃ condition mid,
        (parser.next.next.readExpression Power.lowest).Gives condition mid ∧
          (mid.peek.kind ≠ .rparen ∧ .missing = node ∧ mid.reportPeek .rparen = after ∨
            mid.peek.kind = .rparen ∧
              (mid.next.peek.kind ≠ .lbrace ∧ .missing = node ∧
                  mid.next.reportPeek .lbrace = after ∨
                mid.next.peek.kind = .lbrace ∧ ∃ consequence last,
                  mid.next.next.readBlock.Gives consequence last ∧
                    (last.readElse parser.current condition consequence).Gives node after)) := by
  rw [Parser.readIf]
  rcases parser.expect_eq .lparen with ⟨hopen, heq⟩ | ⟨hopen, heq⟩
  · split
    · simp_all
    · next inside hinside =>
      have hnext : inside = parser.next := by simp_all
      subst hnext
      simp only [hopen, ne_eq, not_true_eq_false, false_and, false_or, true_and]
      apply gives_bind_iff
      intro condition mid _
      rcases mid.expect_eq .rparen with ⟨hclose, hceq⟩ | ⟨hclose, hceq⟩
      · split
        · simp_all
        · next closed hclosed =>
          have hnext : closed = mid.next := by simp_all
          subst hnext
          rcases mid.next.expect_eq .lbrace with ⟨hbrace, hbeq⟩ | ⟨hbrace, hbeq⟩
          · split
            · simp_all
            · next opened hopened =>
              have hnext : opened = mid.next.next := by simp_all
              subst hnext
              simp only [hclose, hbrace, not_true_eq_false, false_and, false_or, true_and]
              exact gives_bind_iff fun consequence last _ => gives_weaken
          · split <;> simp_all
      · split <;> simp_all
  · split <;> simp_all

theorem gives_readElse {parser after : Parser} {token : Token}
    {condition consequence node : Node} :
    (parser.readElse token condition consequence).Gives node after ↔
      (parser.peek.kind ≠ .elseWord ∧
        .ifElse (some token) condition consequence .missing = node ∧ parser = after) ∨
      parser.peek.kind = .elseWord ∧
        ((parser.next.peek.kind = .lbrace ∧ ∃ alternative,
            parser.next.next.readBlock.Gives alternative after ∧
              .ifElse (some token) condition consequence alternative = node) ∨
          (parser.next.peek.kind = .ifWord ∧ ∃ alternative,
            parser.next.next.readIf.Gives alternative after ∧
              .ifElse (some token) condition consequence alternative = node) ∨
          (parser.next.peek.kind ≠ .lbrace ∧ parser.next.peek.kind ≠ .ifWord ∧
            .missing = node ∧ parser.next.reportPeek .lbrace = after)) := by
  rw [Parser.readElse]
  split
  · next helse =>
    split
    · next hbrace => simp [gives_map, helse, hbrace]
    · next hbrace =>
      split
      · next hif => simp [gives_map, helse, hif]
      · next hif => simp [helse, hbrace, hif]
  · next helse => simp [helse]

theorem gives_extend {parser after : Parser} {power : Int} {left node : Node} :
    (parser.extend power left).Gives node after ↔
      ((parser.peek.kind = .eof ∨ parser.peekPower ≤ power ∨
          parser.grammar.infixRule? parser.peek.kind = none) ∧ left = node ∧ parser = after) ∨
      parser.peek.kind ≠ .eof ∧ power < parser.peekPower ∧
        ∃ rule, parser.grammar.infixRule? parser.peek.kind = some rule ∧ ∃ more mid,
          (parser.next.readInfix rule left).Gives more mid ∧
            (mid.extend power more).Gives node after := by
  rw [Parser.extend]
  split
  · next hend => simp [hend]
  · next hend =>
    split
    · next hpower =>
      split
      · next hnone => simp [hnone]
      · next rule hrule =>
        have hnot : ¬ parser.peekPower ≤ power := Int.not_le.mpr hpower
        simp only [hend, hnot, hrule, hpower, reduceCtorEq, or_self, false_and, ne_eq,
          not_false_eq_true, Option.some.injEq, exists_eq_left', true_and, false_or]
        exact gives_bind_iff fun more mid _ => gives_weaken
    · next hpower => simp [Int.not_lt.mp hpower, hpower]

theorem gives_readInfix_operator {parser after : Parser} {power : Int} {right : Bool}
    {left node : Node} (hleft : parser.left ≠ 0) :
    (parser.readInfix (.operator power right) left).Gives node after ↔
      ∃ operand mid,
        (parser.next.readExpression (InfixRule.operator power right).rightPower).Gives
            operand mid ∧
          .infixOp (some parser.current) left parser.current.literal operand = node ∧
            mid = after := by
  rw [Parser.readInfix]
  simp only [hleft, ↓reduceDIte]
  exact gives_bind_iff fun operand mid _ => gives_done

theorem gives_readInfix_call {parser after : Parser} {left node : Node}
    (hleft : parser.left ≠ 0) :
    (parser.readInfix .call left).Gives node after ↔
      ∃ arguments mid, (parser.next.readList .rparen).Gives arguments mid ∧
        (match arguments with
          | some arguments => .call (some parser.current) left arguments
          | none => .missing) = node ∧ mid = after := by
  rw [Parser.readInfix]
  simp only [hleft, ↓reduceDIte]
  exact gives_bind_iff fun arguments mid _ => gives_done

theorem gives_readInfix_index {parser after : Parser} {left node : Node}
    (hleft : parser.left ≠ 0) :
    (parser.readInfix .index left).Gives node after ↔
      ∃ index mid, (parser.next.readExpression Power.lowest).Gives index mid ∧
        (mid.peek.kind = .rbracket ∧ .index (some parser.current) left index = node ∧
            mid.next = after ∨
          mid.peek.kind ≠ .rbracket ∧ .missing = node ∧ mid.reportPeek .rbracket = after) := by
  rw [Parser.readInfix]
  simp only [hleft, ↓reduceDIte]
  apply gives_bind_iff
  intro index mid _
  rcases mid.expect_eq .rbracket with ⟨hkind, heq⟩ | ⟨hkind, heq⟩ <;> split <;> simp_all

theorem gives_readList {parser after : Parser} {close : Kind} {nodes : Option (List Node)} :
    (parser.readList close).Gives nodes after ↔
      (parser.current.kind = close ∧ some [] = nodes ∧ parser = after) ∨
      parser.current.kind ≠ close ∧ (parser.readElements close).Gives nodes after := by
  rw [Parser.readList]
  split
  · next h => simp [h]
  · next h => simp [h]

theorem gives_readElements {parser after : Parser} {close : Kind}
    {nodes : Option (List Node)} :
    (parser.readElements close).Gives nodes after ↔
      ∃ element mid, (parser.readExpression Power.lowest).Gives element mid ∧
        ((mid.peek.kind = .comma ∧ ∃ rest, (mid.next.next.readElements close).Gives rest after ∧
            rest.map (element :: ·) = nodes) ∨
          (mid.peek.kind ≠ .comma ∧ mid.peek.kind = close ∧ some [element] = nodes ∧
            mid.next = after) ∨
          (mid.peek.kind ≠ .comma ∧ mid.peek.kind ≠ close ∧ none = nodes ∧
            mid.reportPeek close = after)) := by
  rw [Parser.readElements]
  apply gives_bind_iff
  intro element mid _
  split
  · next hcomma => simp [gives_map, hcomma]
  · next hcomma =>
    rcases mid.expect_eq close with ⟨hkind, heq⟩ | ⟨hkind, heq⟩ <;> split <;> simp_all

theorem gives_readPairs {parser after : Parser} {pairs : Option (List (Node × Node))} :
    parser.readPairs.Gives pairs after ↔
      (parser.current.kind = .rbrace ∧ some [] = pairs ∧ parser = after) ∨
      parser.current.kind ≠ .rbrace ∧ ∃ key mid,
        (parser.readExpression Power.lowest).Gives key mid ∧
          ((mid.peek.kind ≠ .colon ∧ none = pairs ∧ mid.reportPeek .colon = after) ∨
            mid.peek.kind = .colon ∧ ∃ value last,
              (mid.next.next.readExpression Power.lowest).Gives value last ∧
                ((last.peek.kind = .rbrace ∧ some [(key, value)] = pairs ∧ last.next = after) ∨
                  (last.peek.kind = .comma ∧ ∃ rest, last.next.next.readPairs.Gives rest after ∧
                    rest.map ((key, value) :: ·) = pairs) ∨
                  (last.peek.kind ≠ .rbrace ∧ last.peek.kind ≠ .comma ∧ none = pairs ∧
                    last.reportPeek .comma = after))) := by
  rw [Parser.readPairs]
  split
  · next h => simp [h]
  · next h =>
    simp only [h, false_and, ne_eq, not_false_eq_true, true_and, false_or]
    apply gives_bind_iff
    intro key mid _
    rcases mid.expect_eq .colon with ⟨hcolon, heq⟩ | ⟨hcolon, heq⟩
    · split
      · simp_all
      · next inside hinside =>
        have hnext : inside = mid.next := by simp_all
        subst hnext
        simp only [hcolon, not_true_eq_false, false_and, true_and, false_or]
        apply gives_bind_iff
        intro value last _
        split
        · next hbrace => simp [hbrace]
        · next hbrace =>
          rcases last.expect_eq .comma with ⟨hcomma, hceq⟩ | ⟨hcomma, hceq⟩
          · split
            · simp_all
            · next moved hmoved =>
              have hnext : moved = last.next := by simp_all
              subst hnext
              simp [gives_map, hcomma]
          · split <;> simp_all
    · split <;> simp_all

theorem gives_readBlock {parser after : Parser} {node : Node} :
    parser.readBlock.Gives node after ↔
      ∃ statements mid, parser.next.readBody.Gives statements mid ∧
        .block (some parser.current) statements = node ∧
          (mid.current.kind ≠ .eof ∧ mid = after ∨
            mid.current.kind = .eof ∧
              mid.report "expected RBRACE to close block, got EOF instead" mid.current =
                after) := by
  rw [Parser.readBlock]
  apply gives_bind_iff
  intro statements mid _
  split
  · next h => exact gives_done.trans (by simp [h])
  · next h => exact gives_done.trans (by simp [h])

theorem gives_readBody {parser after : Parser} {statements : List Node} :
    parser.readBody.Gives statements after ↔
      ((parser.current.kind = .rbrace ∨ parser.current.kind = .eof) ∧ [] = statements ∧
        parser = after) ∨
      parser.current.kind ≠ .rbrace ∧ parser.current.kind ≠ .eof ∧ ∃ statement mid,
        parser.readStatement.Gives statement mid ∧ ∃ rest,
          mid.next.readBody.Gives rest after ∧ statement.toList ++ rest = statements := by
  rw [Parser.readBody]
  split
  · next h =>
    rw [gives_done]
    rcases h with h | h <;> simp [h]
  · next h =>
    obtain ⟨hbrace, hend⟩ := not_or.mp h
    simp only [hbrace, hend, or_self, false_and, ne_eq, not_false_eq_true, true_and, false_or]
    apply gives_bind_iff
    intro statement mid _
    exact gives_weaken.trans gives_map

/-- What is read of a statement before the semicolon after it. -/
def GivesSentence (parser : Parser) (statement : Option Node) (after : Parser) : Prop :=
  match parser.current.kind with
  | .letWord => parser.readLet.Gives statement after
  | .returnWord => ∃ node, parser.readReturn.Gives node after ∧ some node = statement
  | .semicolon => none = statement ∧ parser = after
  | _ => ∃ node, (parser.readExpression Power.lowest).Gives node after ∧
      some (.exprStmt (some parser.current) node) = statement

/-- The bound on a reading that passes no token. -/
theorem left_le_left (parser : Parser) : parser.left ≤ parser.left :=
  Nat.le_refl _

/-- The reading behind `GivesSentence`. -/
def sentenceReading (parser : Parser) : Reading parser.left (Option Node) :=
  match parser.current.kind with
  | .letWord => parser.readLet
  | .returnWord => parser.readReturn.map some
  | .semicolon => .done none parser parser.left_le_left
  | _ => (parser.readExpression Power.lowest).map (some <| .exprStmt (some parser.current) ·)

theorem gives_readStatement {parser after : Parser} {statement : Option Node} :
    parser.readStatement.Gives statement after ↔
      ∃ mid, parser.GivesSentence statement mid ∧
        (statement.isSome ∧ mid.peek.kind = .semicolon ∧ mid.next = after ∨
          (statement.isSome → mid.peek.kind ≠ .semicolon) ∧ mid = after) := by
  have hends : ∀ (first : Option Node) (mid : Parser) (left_le : mid.left ≤ parser.left),
      (if first.isSome && mid.peek.kind == .semicolon then
          (.done first mid.next (by simp only [Parser.left_next]; omega) :
            Reading parser.left (Option Node))
        else .done first mid left_le).Gives statement after ↔
      first = statement ∧ (first.isSome ∧ mid.peek.kind = .semicolon ∧ mid.next = after ∨
        (first.isSome → mid.peek.kind ≠ .semicolon) ∧ mid = after) := by
    intro first mid left_le
    by_cases h : first.isSome ∧ mid.peek.kind = .semicolon
    · simp [h]
    · have hnot : first.isSome → mid.peek.kind ≠ .semicolon := not_and.mp h
      rw [if_neg (by simpa using hnot), gives_done]
      constructor
      · rintro ⟨rfl, rfl⟩
        exact ⟨rfl, Or.inr ⟨hnot, rfl⟩⟩
      · rintro ⟨rfl, ⟨hsome, hkind, _⟩ | ⟨_, rfl⟩⟩
        · exact absurd hkind (hnot hsome)
        · exact ⟨rfl, rfl⟩
  have hreading : parser.readStatement.Gives statement after ↔
      ∃ first mid, parser.GivesSentence first mid ∧ first = statement ∧
        (first.isSome ∧ mid.peek.kind = .semicolon ∧ mid.next = after ∨
          (first.isSome → mid.peek.kind ≠ .semicolon) ∧ mid = after) := by
    rw [Parser.readStatement]
    apply (gives_bind_iff hends).trans
    refine exists_congr fun first => exists_congr fun mid => and_congr_left' ?_
    unfold GivesSentence
    split <;> simp_all [gives_map]
  rw [hreading]
  constructor
  · rintro ⟨_, mid, hsentence, rfl, hend⟩
    exact ⟨mid, hsentence, hend⟩
  · rintro ⟨mid, hsentence, hend⟩
    exact ⟨statement, mid, hsentence, rfl, hend⟩

theorem gives_readLet {parser after : Parser} {statement : Option Node} :
    parser.readLet.Gives statement after ↔
      (parser.peek.kind ≠ .ident ∧ none = statement ∧ parser.reportPeek .ident = after) ∨
      parser.peek.kind = .ident ∧
        ((parser.next.peek.kind ≠ .assign ∧ none = statement ∧
            parser.next.reportPeek .assign = after) ∨
          parser.next.peek.kind = .assign ∧ ∃ value,
            (parser.next.next.next.readExpression Power.lowest).Gives value after ∧
              some (.letStmt (some parser.current)
                (.ident (some parser.next.current) parser.next.current.literal) value) =
                  statement) := by
  rw [Parser.readLet]
  rcases parser.expect_eq .ident with ⟨hname, heq⟩ | ⟨hname, heq⟩
  · split
    · simp_all
    · next named hnamed =>
      have hnext : named = parser.next := by simp_all
      subst hnext
      rcases parser.next.expect_eq .assign with ⟨hassign, haeq⟩ | ⟨hassign, haeq⟩
      · split
        · simp_all
        · next assigned hassigned =>
          have hnext : assigned = parser.next.next := by simp_all
          subst hnext
          simp [gives_map, hname, hassign]
      · split <;> simp_all
  · split <;> simp_all

theorem gives_readReturn {parser after : Parser} {node : Node} :
    parser.readReturn.Gives node after ↔
      ∃ value, (parser.next.readExpression Power.lowest).Gives value after ∧
        .returnStmt (some parser.current) value = node := by
  rw [Parser.readReturn]
  exact gives_weaken.trans gives_map

theorem gives_readStatements {parser after : Parser} {statements : List Node} :
    parser.readStatements.Gives statements after ↔
      (parser.current.kind = .eof ∧ [] = statements ∧ parser = after) ∨
      parser.current.kind ≠ .eof ∧ ∃ statement mid,
        parser.readStatement.Gives statement mid ∧ ∃ rest,
          mid.next.readStatements.Gives rest after ∧ statement.toList ++ rest = statements := by
  rw [Parser.readStatements]
  split
  · next h => simp [h]
  · next h =>
    simp only [h, false_and, ne_eq, not_false_eq_true, true_and, false_or]
    apply gives_bind_iff
    intro statement mid _
    exact gives_weaken.trans gives_map

/-- Induction on the statements that are read, from the end of the text back. -/
theorem readStatements_induction {after : Parser}
    {motive : ∀ (parser : Parser) (statements : List Node),
      parser.readStatements.Gives statements after → Prop}
    (stop : ∀ hend : after.current.kind = .eof,
      motive after [] (gives_readStatements.mpr (.inl ⟨hend, rfl, rfl⟩)))
    (step : ∀ {parser mid : Parser} {statement : Option Node} {rest : List Node}
      (hend : parser.current.kind ≠ .eof) (hread : parser.readStatement.Gives statement mid)
      (hrest : mid.next.readStatements.Gives rest after), motive mid.next rest hrest →
      motive parser (statement.toList ++ rest)
        (gives_readStatements.mpr (.inr ⟨hend, statement, mid, hread, rest, hrest, rfl⟩)))
    {parser : Parser} {statements : List Node} (h : parser.readStatements.Gives statements after) :
    motive parser statements h := by
  induction hleft : parser.left using Nat.strongRecOn generalizing parser statements with
  | _ count ih =>
      rcases gives_readStatements.mp h with
        ⟨hend, rfl, rfl⟩ | ⟨hend, statement, mid, hread, rest, hrest, rfl⟩
      · exact stop hend
      · have hpos := Parser.left_pos hend
        have hle := hread.left_le
        exact step hend hread hrest (ih mid.next.left (by rw [left_next]; omega) hrest rfl)

end Parser

end Monkey
