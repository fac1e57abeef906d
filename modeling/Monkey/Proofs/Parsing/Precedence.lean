/-
The parser reads a chain as the tree that it stands for.  The parser goes through a chain from
left to right and compares powers; the tree is split from the top at the lowest level.  The two
meet in `Feeds`: a part of a chain is read at a power, and whatever is read after it goes on from
the tree of the part.
-/
import Monkey.Proofs.Parsing.Chain
import Monkey.Proofs.Parsing.Integers

namespace Monkey

/-! ### Powers and levels -/

def Kind.power (kind : Kind) : Int :=
  match Grammar.standard.infixRule? kind with
  | some rule => rule.power
  | none => Power.lowest

def Kind.rightPower (kind : Kind) : Int :=
  match Grammar.standard.infixRule? kind with
  | some rule => rule.rightPower
  | none => Power.lowest

/-- The operators of the language are those with an infix rule, and bind less than a sign. -/
theorem rule_of_operator {kind : Kind} (h : kind ∈ Kind.operators) :
    Grammar.standard.infixRule? kind = some (.operator kind.power kind.groupsRight) ∧
      (InfixRule.operator kind.power kind.groupsRight).rightPower = kind.rightPower ∧
        Power.lowest < kind.power ∧ kind.power ≤ Power.sign ∧ kind.rightPower ≤ Power.sign := by
  have hall : ∀ kind ∈ Kind.operators,
      Grammar.standard.infixRule? kind = some (.operator kind.power kind.groupsRight) ∧
        (InfixRule.operator kind.power kind.groupsRight).rightPower = kind.rightPower ∧
          Power.lowest < kind.power ∧ kind.power ≤ Power.sign ∧
            kind.rightPower ≤ Power.sign := by decide
  exact hall kind h

/-- After an operator of a higher level, or of the same one that groups to the left, the right
operand is not continued. -/
theorem power_le_rightPower {kind other : Kind} (h : kind ∈ Kind.operators)
    (hother : other ∈ Kind.operators)
    (hlevel : kind.level < other.level ∨ kind.level = other.level ∧ kind.groupsRight = false) :
    kind.power ≤ other.rightPower := by
  have hall : ∀ kind ∈ Kind.operators, ∀ other ∈ Kind.operators,
      kind.level < other.level ∨ kind.level = other.level ∧ kind.groupsRight = false →
        kind.power ≤ other.rightPower := by decide
  exact hall kind h other hother hlevel

/-- An operator of a higher level, or of the same one that groups to the right, continues the
right operand. -/
theorem rightPower_lt_power {link other : Link} (h : link.splitsBefore other) :
    link.kind.rightPower < other.kind.power := by
  have hall : ∀ kind ∈ Kind.operators, ∀ other ∈ Kind.operators,
      kind.level < other.level ∨ kind.level = other.level ∧ kind.groupsRight = true →
        kind.rightPower < other.power := by decide
  exact hall _ link.kind_mem _ other.kind_mem h

/-- No expression that is read at the power goes on at the token. -/
def Token.Yields (token : Token) (power : Int) : Prop :=
  ∀ rule, Grammar.standard.infixRule? token.kind = some rule → rule.power ≤ power

theorem Token.Yields.stops {token : Token} {power : Int} (h : token.Yields power)
    (last : Token) : last.Stops power token := by
  intro rule hrule
  exact h rule (Token.infixRule?_of_continues? hrule).1

theorem Token.Inert.yields {token : Token} (h : token.Inert) (power : Int) :
    token.Yields power := by
  intro rule hrule
  rw [h.1] at hrule
  cases hrule

theorem Link.yields (link : Link) {power : Int} (h : link.kind.power ≤ power) :
    link.operator.Yields power := by
  intro rule hrule
  have hsome : Grammar.standard.infixRule? link.operator.kind = _ :=
    (rule_of_operator link.kind_mem).1
  rw [hsome] at hrule
  cases hrule
  exact h

theorem Link.continues (link : Link) (last : Token) :
    last.continues? link.operator =
      some (.operator link.kind.power link.kind.groupsRight) := by
  have hbracket : link.kind ≠ .lparen ∧ link.kind ≠ .lbracket := by
    constructor <;> exact fun hkind => absurd (hkind ▸ link.kind_mem) (by decide)
  rw [Token.continues?, if_neg]
  · exact (rule_of_operator link.kind_mem).1
  · rintro ⟨hopens | hopens, _⟩
    · exact hbracket.1 hopens
    · exact hbracket.2 hopens

/-! ### Reading on -/

/-- Whatever is read after the tokens goes on from the node, if the given token comes next. -/
def Feeds (power : Int) (tokens : List Token) (node : Node) (follower : Token) : Prop :=
  ∃ front last, tokens = front ++ [last] ∧ ∀ rest next final, rest.headD next = follower →
    Derives (.extension power node final) (last :: rest) next →
      Derives (.expression power final) (front ++ last :: rest) next

theorem Feeds.derives {power : Int} {tokens : List Token} {node : Node} {follower : Token}
    (h : Feeds power tokens node follower) (hyields : follower.Yields power) :
    Derives (.expression power node) tokens follower := by
  obtain ⟨front, last, rfl, hfeeds⟩ := h
  exact hfeeds [] follower node rfl (.stop (hyields.stops last))

theorem feeds_of_opening {power : Int} {front : List Token} {last follower : Token} {node : Node}
    {rule : PrefixRule}
    (h : Derives (.opening rule node) (front ++ [last]) follower) :
    Feeds power (front ++ [last]) node follower := by
  refine ⟨front, last, rfl, fun rest next final hrest hextension => ?_⟩
  subst hrest
  exact .expression h hextension

theorem Arguments.derives {tokens : List Token} {nodes : List Node} (h : Arguments tokens nodes)
    {closer : Token} (hclose : closer.kind = .rparen) (next : Token) :
    Derives (.list .rparen (some nodes)) (tokens ++ [closer]) next := by
  have helements : nodes ≠ [] →
      Derives (.elements .rparen (some nodes)) (tokens ++ [closer]) next := by
    induction h with
    | none => exact fun hne => absurd rfl hne
    | last hnode =>
        intro _
        exact .lastElement hclose (hnode.derives (inert_of_kind closer (by simp [hclose])))
    | more hnode hcomma hne _ ih =>
        intro _
        rw [List.append_assoc]
        exact .moreElements hcomma (hnode.derives (inert_of_kind _ (by simp [hcomma]))) (ih hne)
  cases h with
  | none => exact .emptyList hclose
  | last hnode => exact .list (helements (by simp))
  | more hnode hcomma hne hrest => exact .list (helements (by simp))

/-- The integer literals among the tokens can be read. -/
def Readable (tokens : List Token) : Prop :=
  ∀ token ∈ tokens, token.kind = .int →
    readInt token.literal = .ok (decimalValue token.literal : Int)

/-- Calls and indexes are read before anything else. -/
theorem Applied.feeds {tokens : List Token} {node : Node} (h : Applied tokens node)
    (hreadable : Readable tokens) {power : Int} (hpower : power ≤ Power.sign)
    (follower : Token) : Feeds power tokens node follower := by
  induction h generalizing follower with
  | @name token hkind =>
      exact @feeds_of_opening power [] token follower _ _ (.identifier hkind)
  | @integer token hkind hmax =>
      have hmin : minInteger ≤ (decimalValue token.literal : Int) :=
        Int.le_trans (by decide) (Int.natCast_nonneg _)
      have hread := hreadable token (by simp) hkind
      exact @feeds_of_opening power [] token follower _ _ (.integer hkind hread hmin hmax)
  | @boolean token hkind =>
      exact @feeds_of_opening power [] token follower _ _ (.boolean hkind)
  | @string token hkind =>
      exact @feeds_of_opening power [] token follower _ _ (.string hkind)
  | @grouped opener closer tokens node hopen hclose hnode =>
      have hinner := hnode.derives (inert_of_kind closer (by simp [hclose]))
      exact feeds_of_opening (.grouped hopen hclose hinner)
  | @call front tokens last opener closer callee nodes hcallee hopen hline hclose harguments ih =>
      obtain ⟨front', last', heq, hfeeds⟩ :=
        ih (fun token htoken => hreadable token (by grind)) opener
      obtain ⟨rfl, hlast⟩ := List.append_inj' heq rfl
      obtain rfl := List.singleton_inj.mp hlast
      refine ⟨front ++ last :: opener :: tokens, closer, by simp, fun rest next final _ hext => ?_⟩
      have hrule : last.continues? opener = some .call := by
        rw [continues_of_line hline.symm, hopen]
        rfl
      have hcall := Derives.call hrule (Int.lt_of_le_of_lt hpower (by decide))
        (harguments.derives hclose _) hext
      have hfinal := hfeeds _ next final rfl hcall
      simpa using hfinal
  | @index front tokens last opener closer left position hleft hopen hline hclose hposition ih =>
      obtain ⟨front', last', heq, hfeeds⟩ :=
        ih (fun token htoken => hreadable token (by grind)) opener
      obtain ⟨rfl, hlast⟩ := List.append_inj' heq rfl
      obtain rfl := List.singleton_inj.mp hlast
      refine ⟨front ++ last :: opener :: tokens, closer, by simp, fun rest next final _ hext => ?_⟩
      have hrule : last.continues? opener = some .index := by
        rw [continues_of_line hline.symm, hopen]
        rfl
      have hinside := hposition.derives (inert_of_kind closer (by simp [hclose]))
      have hindex := Derives.index hrule (Int.lt_of_le_of_lt hpower (by decide)) hclose hinside hext
      have hfinal := hfeeds _ next final rfl hindex
      simpa using hfinal

/-- Signs are read before any operator. -/
theorem Signed.feeds {tokens : List Token} {node : Node} (h : Signed tokens node)
    (hreadable : Readable tokens) {power : Int} (hpower : power ≤ Power.sign) {follower : Token}
    (hyields : follower.Yields Power.sign) : Feeds power tokens node follower := by
  induction h generalizing power with
  | applied h => exact h.feeds hreadable hpower follower
  | @sign token tokens node hkind _ ih =>
      have hrest : Readable tokens := fun t ht => hreadable t (List.mem_cons_of_mem token ht)
      have hinner := ih hrest (Int.le_refl _)
      have hright := hinner.derives hyields
      obtain ⟨front, last, rfl, _⟩ := hinner
      exact @feeds_of_opening power (token :: front) last follower _ _ (.sign hkind hright)

/-- A chain is read as its tree where the powers of its operators are above the power, and below
them whatever comes next. -/
theorem splitTree_feeds {head : Operand} {links : List Link}
    (hreadable : Readable (chainTokens head links)) {power : Int} (hpower : power ≤ Power.sign)
    (hlinks : ∀ link ∈ links, power < link.kind.power) {follower : Token}
    (hsign : follower.Yields Power.sign)
    (hyields : ∀ link ∈ links, follower.Yields link.kind.rightPower) :
    Feeds power (chainTokens head links) (splitTree head links) follower := by
  induction hlength : links.length using Nat.strongRecOn
    generalizing head links power follower with
  | _ length ih =>
      rw [splitTree]
      split
      · next hnone =>
          obtain rfl := eq_nil_of_pivot hnone
          simp only [chainTokens, List.flatMap_nil, List.append_nil] at hreadable ⊢
          exact head.signed.feeds hreadable hpower hsign
      · next before link after hpivot =>
          obtain ⟨hbefore, hafter⟩ := pivot_lowest hpivot
          obtain ⟨hlt, hlt'⟩ := pivot_length hpivot
          obtain rfl := pivot_eq_append hpivot
          rw [chainTokens_append] at hreadable ⊢
          obtain ⟨_, hrightPower, _, hhigh, hhigh'⟩ := rule_of_operator link.kind_mem
          have hoperand : Feeds link.kind.rightPower (chainTokens link.operand after)
              (splitTree link.operand after) follower := by
            refine ih _ (hlength ▸ hlt') ?_ hhigh' ?_ hsign ?_ rfl
            · exact fun token htoken => hreadable token (by simp [htoken])
            · exact fun other hother => rightPower_lt_power (hafter other hother)
            · exact fun other hother => hyields other (by simp [hother])
          have hleft : Feeds power (chainTokens head before) (splitTree head before)
              link.operator := by
            refine ih _ (hlength ▸ hlt) ?_ hpower ?_ (link.yields hhigh) ?_ rfl
            · exact fun token htoken => hreadable token (by simp [htoken])
            · exact fun other hother => hlinks other (by simp [hother])
            · exact fun other hother => link.yields
                (power_le_rightPower link.kind_mem other.kind_mem (hbefore other hother))
          have hright := hoperand.derives (hyields link (by simp))
          obtain ⟨front, last, hfront, hresume⟩ := hleft
          obtain ⟨front', last', hfront', _⟩ := hoperand
          rw [hfront'] at hright
          refine ⟨front ++ last :: link.operator :: front', last', by simp [hfront, hfront'], ?_⟩
          rintro rest next final rfl hextension
          rw [← hrightPower] at hright
          have hinfix := Derives.infixOp (link.continues last) (hlinks link (by simp)) hright
            hextension
          have hfinal := hresume _ next final rfl hinfix
          simpa using hfinal

/-! ### Chains as programs -/

theorem Chain.derives (chain : Chain) (hreadable : Readable chain.tokens) {eof : Token}
    (heof : eof.kind = .eof) :
    Derives (.expression Power.lowest chain.tree) chain.tokens eof := by
  have hinert : eof.Inert := inert_of_kind eof (by simp [heof])
  have hfeeds : Feeds Power.lowest chain.tokens chain.tree eof := by
    refine splitTree_feeds hreadable (by decide) ?_ (hinert.yields _) fun _ _ => hinert.yields _
    exact fun link _ => (rule_of_operator link.kind_mem).2.2.1
  exact hfeeds.derives (hinert.yields _)

theorem parses_expression {source : String} {node : Node}
    (h : Derives (.expression Power.lowest node) (tokenize source).tokens (tokenize source).eof) :
    Parses source (.program [.exprStmt (tokenize source).tokens.head? node]) := by
  have hne := h.ne_nil
  generalize htokens : (tokenize source).tokens = tokens at h hne ⊢
  cases tokens with
  | nil => exact absurd rfl hne
  | cons first rest =>
      refine parses_iff.mpr ⟨_, rfl, ?_⟩
      rw [htokens]
      have hsemicolon : (tokenize source).eof.kind ≠ .semicolon := by simp [TokenStream.eof]
      have hall := @DerivesAll.cons (tokenize source).eof
        (some (.exprStmt (some first) node)) [] (first :: rest) []
        (.bare (fun _ => hsemicolon) (.exprSentence h)) .nil
      simpa using hall

/-- A text that is a chain parses without errors exactly if none of its integer literals has too
many digits, and then to the tree of the chain. -/
theorem Chain.parses_iff_splits (chain : Chain) {source : String}
    (h : (tokenize source).tokens = chain.tokens) {program : Node} :
    Parses source program ↔ program = chain.program ∧
      ∀ token ∈ chain.tokens, token.kind = .int → token.literal.length ≤ maxDigits := by
  have hparses : (∀ token ∈ chain.tokens, token.kind = .int → token.literal.length ≤ maxDigits) →
      Parses source chain.program := by
    intro hshort
    have hreadable : Readable chain.tokens := by
      intro token htoken hkind
      have hspells := spells_of_mem_tokenize (h ▸ htoken)
      rw [Token.readInt_eq hspells hkind, if_neg (Nat.not_lt.mpr (hshort token htoken hkind))]
    rw [Chain.program, ← h]
    apply parses_expression
    rw [h]
    exact chain.derives hreadable rfl
  constructor
  · intro hprogram
    have hshort : ∀ token ∈ chain.tokens, token.kind = .int →
        token.literal.length ≤ maxDigits := by
      intro token htoken hkind
      exact hprogram.length_le_maxDigits (h ▸ htoken) hkind
    exact ⟨hprogram.unique (hparses hshort), hshort⟩
  · rintro ⟨rfl, hshort⟩
    exact hparses hshort

/-! ### Two chains -/

theorem readsAlone_name {token : Token} (hkind : token.kind = .ident) :
    ReadsAlone [token] (.ident (some token) token.literal) := by
  have hinert : Token.Inert ⟨.eof, "", .start⟩ := inert_of_kind _ (by decide)
  refine (readsAlone_iff hinert).mpr (.of_opening (.identifier hkind) ?_)
  exact fun last _ => hinert.stops _ last

/-- The text `-f(x) ^ 2 == y - 1 - 2`. -/
def sampleMarks : List Mark :=
  [.word .minus "-", .word .ident "f", .word .lparen "(", .word .ident "x", .word .rparen ")",
   .gap ' ', .word .caret "^", .gap ' ', .word .int "2", .gap ' ', .word .eq "==", .gap ' ',
   .word .ident "y", .gap ' ', .word .minus "-", .gap ' ', .word .int "1", .gap ' ',
   .word .minus "-", .gap ' ', .word .int "2"]

def sampleHead : Operand :=
  let sign : Token := ⟨.minus, "-", ⟨1, 1⟩⟩
  let callee : Token := ⟨.ident, "f", ⟨1, 2⟩⟩
  let opener : Token := ⟨.lparen, "(", ⟨1, 3⟩⟩
  let argument : Token := ⟨.ident, "x", ⟨1, 4⟩⟩
  let closer : Token := ⟨.rparen, ")", ⟨1, 5⟩⟩
  have hcallee : Applied ([] ++ [callee]) (.ident (some callee) "f") := .name rfl
  have hopen : opener.kind = .lparen := rfl
  have hline : opener.place.line = callee.place.line := rfl
  have hclose : closer.kind = .rparen := rfl
  have hargument : ReadsAlone [argument] (.ident (some argument) "x") := readsAlone_name rfl
  have hcall := Applied.call hcallee hopen hline hclose (.last hargument)
  ⟨[sign, callee, opener, argument, closer],
    .prefixOp (some sign) "-" (.call (some opener) (.ident (some callee) "f")
      [.ident (some argument) "x"]),
    .sign (Or.inl rfl) (.applied hcall)⟩

def sampleChain : Chain where
  head := sampleHead
  links := [⟨⟨.caret, "^", ⟨1, 7⟩⟩, by decide, .integer ⟨.int, "2", ⟨1, 9⟩⟩ rfl (by decide)⟩,
    ⟨⟨.eq, "==", ⟨1, 11⟩⟩, by decide, .name ⟨.ident, "y", ⟨1, 14⟩⟩ rfl⟩,
    ⟨⟨.minus, "-", ⟨1, 16⟩⟩, by decide, .integer ⟨.int, "1", ⟨1, 18⟩⟩ rfl (by decide)⟩,
    ⟨⟨.minus, "-", ⟨1, 20⟩⟩, by decide, .integer ⟨.int, "2", ⟨1, 22⟩⟩ rfl (by decide)⟩]

example : sampleChain.tree =
    .infixOp (some ⟨.eq, "==", ⟨1, 11⟩⟩)
      (.infixOp (some ⟨.caret, "^", ⟨1, 7⟩⟩) sampleHead.node "^"
        (.int (some ⟨.int, "2", ⟨1, 9⟩⟩) 2)) "=="
      (.infixOp (some ⟨.minus, "-", ⟨1, 20⟩⟩)
        (.infixOp (some ⟨.minus, "-", ⟨1, 16⟩⟩) (.ident (some ⟨.ident, "y", ⟨1, 14⟩⟩) "y") "-"
          (.int (some ⟨.int, "1", ⟨1, 18⟩⟩) 1)) "-"
        (.int (some ⟨.int, "2", ⟨1, 22⟩⟩) 2)) := by
  cbv

theorem tokens_sampleChain :
    (tokenize "-f(x) ^ 2 == y - 1 - 2").tokens = sampleChain.tokens := by
  have hlegible : Legible sampleMarks [] := by decide
  rw [tokenize, tokenize_of_legible hlegible rfl]
  rfl

theorem sampleChain_parses : (tokenize "-f(x) ^ 2 == y - 1 - 2").tokens = sampleChain.tokens ∧
    Parses "-f(x) ^ 2 == y - 1 - 2" sampleChain.program := by
  refine ⟨tokens_sampleChain, (sampleChain.parses_iff_splits tokens_sampleChain).mpr ⟨rfl, ?_⟩⟩
  decide

/-- A literal of zeros, which is in range however long it is. -/
def zeros (count : Nat) : String :=
  String.ofList (List.replicate count '0')

theorem decimalValue_zeros (count : Nat) : decimalValue (zeros count) = 0 := by
  unfold decimalValue zeros
  rw [String.toList_ofList, List.map_replicate]
  induction count with
  | zero => rfl
  | succ count ih => rwa [List.replicate_succ]

def paddedMarks (count : Nat) : List Mark :=
  [.word .int (zeros count), .gap ' ', .word .plus "+", .gap ' ', .word .ident "x"]

/-- The chain `0 + x` with a number of zeros. -/
def paddedChain (count : Nat) : Chain :=
  let literal : Token := ⟨.int, zeros count, .start⟩
  let operator : Token :=
    ⟨.plus, "+", (Place.start.after (Mark.word .int (zeros count)).text).next ' '⟩
  let name : Token := ⟨.ident, "x", (operator.place.after (Mark.word .plus "+").text).next ' '⟩
  have hmax : (decimalValue literal.literal : Int) ≤ maxInteger := by
    rw [decimalValue_zeros]
    decide
  have hoperator : operator.kind ∈ Kind.operators := show Kind.plus ∈ Kind.operators by decide
  ⟨.integer literal rfl hmax, [⟨operator, hoperator, .name name rfl⟩]⟩

theorem tokens_paddedChain (count : Nat) :
    (tokenize (String.ofList (textOf (paddedMarks (count + 1))))).tokens =
      (paddedChain (count + 1)).tokens := by
  have hzeros : Kind.int.Spells (zeros (count + 1)) := by
    constructor
    · simp [zeros]
    · intro c hc
      rw [zeros, String.toList_ofList] at hc
      rw [List.eq_of_mem_replicate hc]
      decide
  have hlegible : Legible (paddedMarks (count + 1)) [] := by
    have hrest : Legible [.gap ' ', .word .plus "+", .gap ' ', .word .ident "x"] [] := by decide
    exact ⟨⟨hzeros, by decide⟩, hrest⟩
  rw [tokenize, tokenize_of_legible hlegible (String.toList_ofList)]
  rfl

/-- A chain can be too long for its integer literals although they are in range. -/
theorem paddedChain_not_parsed :
    ¬ ∀ (chain : Chain) (source : String), (tokenize source).tokens = chain.tokens →
      Parses source chain.program := by
  intro h
  have htokens := tokens_paddedChain maxDigits
  have hparses := h (paddedChain (maxDigits + 1)) _ htokens
  have hmem : ⟨.int, zeros (maxDigits + 1), .start⟩ ∈
      (tokenize (String.ofList (textOf (paddedMarks (maxDigits + 1))))).tokens := by
    rw [htokens]
    exact List.mem_cons_self
  have hle := hparses.length_le_maxDigits hmem rfl
  simp only [zeros, String.length_ofList, List.length_replicate] at hle
  omega

end Monkey
