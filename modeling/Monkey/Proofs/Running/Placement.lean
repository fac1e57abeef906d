/-
Where return statements stand.  A return can be reached from the body around it through blocks,
expression statements and the branches of an if; where the value of an expression is worked on
there is no way out.  In a complete tree no return stands there if every if that returns is the
whole expression of a statement, or the alternative of such an if.
-/
import Monkey.Proofs.Parsing.WellFormed

namespace Monkey

mutual

/-- A return statement stands in the node; those of functions in it are not counted. -/
def Node.hasReturn : Node → Bool
  | .returnStmt .. => true
  | .program statements | .block _ statements => anyReturn statements
  | .exprStmt _ expression => expression.hasReturn
  | .letStmt _ _ value => value.hasReturn
  | .prefixOp _ _ right => right.hasReturn
  | .infixOp _ left _ right => left.hasReturn || right.hasReturn
  | .ifElse _ condition consequence alternative =>
      condition.hasReturn || consequence.hasReturn || alternative.hasReturn
  | .call _ callee arguments => callee.hasReturn || anyReturn arguments
  | .array _ elements => anyReturn elements
  | .index _ left position => left.hasReturn || position.hasReturn
  | .hash _ pairs => anyPairReturn pairs
  | _ => false

def anyReturn : List Node → Bool
  | [] => false
  | node :: rest => node.hasReturn || anyReturn rest

def anyPairReturn : List (Node × Node) → Bool
  | [] => false
  | (key, value) :: rest => key.hasReturn || value.hasReturn || anyPairReturn rest

end

/-- An if with a return in one of its branches. -/
def Node.isReturningIf : Node → Bool
  | .ifElse _ _ consequence alternative => consequence.hasReturn || alternative.hasReturn
  | _ => false

/-- The children of a node in all places but two: the expression of a statement, and the
alternative of an if. -/
def Node.confined : Node → List Node
  | .exprStmt .. => []
  | .ifElse _ condition consequence _ => [condition, consequence]
  | node => node.children

/-- An if with a return in one of its branches is only ever the whole expression of a statement, or
the alternative of an if; that one then has a return in a branch as well. -/
def Node.returnsInPlace (node : Node) : Bool :=
  node.parts.all fun part => part.confined.all fun child => !child.isReturningIf

/-- The nodes whose values a node works on.  Of the values of its other children it hands one on,
if any. -/
def Node.operands : Node → List Node
  | .letStmt _ _ child | .returnStmt _ child | .prefixOp _ _ child
  | .ifElse _ child _ _ => [child]
  | .infixOp _ first _ second | .index _ first second => [first, second]
  | .call _ callee arguments => callee :: arguments
  | .array _ elements => elements
  | .hash _ pairs => pairs.flatMap fun (key, value) => [key, value]
  | _ => []

mutual

/-- Every return stands where it can be reached from the body around it; none may if the node is
an operand. -/
def Node.straight (may : Bool) : Node → Bool
  | .returnStmt _ value => may && value.straight false
  | .program statements => straightAll true statements
  | .block _ statements => straightAll may statements
  | .exprStmt _ expression => expression.straight may
  | .letStmt _ _ value => value.straight false
  | .prefixOp _ _ right => right.straight false
  | .infixOp _ left _ right => left.straight false && right.straight false
  | .ifElse _ condition consequence alternative =>
      condition.straight false && (consequence.straight may && alternative.straight may)
  | .function _ _ body => body.straight true
  | .call _ callee arguments => callee.straight false && straightAll false arguments
  | .array _ elements => straightAll false elements
  | .index _ left position => left.straight false && position.straight false
  | .hash _ pairs => straightPairs pairs
  | _ => true

def straightAll (may : Bool) : List Node → Bool
  | [] => true
  | node :: rest => node.straight may && straightAll may rest

def straightPairs : List (Node × Node) → Bool
  | [] => true
  | (key, value) :: rest => key.straight false && (value.straight false && straightPairs rest)

end

theorem anyReturn_eq_false {nodes : List Node} :
    anyReturn nodes = false ↔ ∀ node ∈ nodes, node.hasReturn = false := by
  induction nodes with
  | nil => simp [anyReturn]
  | cons node rest ih => simp [anyReturn, ih]

theorem anyPairReturn_eq_false {pairs : List (Node × Node)} :
    anyPairReturn pairs = false ↔
      ∀ pair ∈ pairs, pair.1.hasReturn = false ∧ pair.2.hasReturn = false := by
  induction pairs with
  | nil => simp [anyPairReturn]
  | cons pair rest ih => simp [anyPairReturn, ih]

theorem straightAll_iff {may : Bool} {nodes : List Node} :
    straightAll may nodes = true ↔ ∀ node ∈ nodes, node.straight may = true := by
  induction nodes with
  | nil => simp [straightAll]
  | cons node rest ih => simp [straightAll, ih]

theorem straightPairs_iff {pairs : List (Node × Node)} :
    straightPairs pairs = true ↔
      ∀ pair ∈ pairs, pair.1.straight false = true ∧ pair.2.straight false = true := by
  induction pairs with
  | nil => simp [straightPairs]
  | cons pair rest ih => simp [straightPairs, ih, and_assoc]

theorem Node.mem_children_of_operand {node operand : Node} (h : operand ∈ node.operands) :
    operand ∈ node.children := by
  cases node <;> simp_all [Node.operands, Node.children]

theorem Node.mem_confined_of_operand {node operand : Node} (h : operand ∈ node.operands) :
    operand ∈ node.confined := by
  cases node <;> simp_all [Node.operands, Node.confined, Node.children]

/-- An operand is an expression. -/
theorem Node.WellFormed.operand {tokens : List Token} {node operand : Node}
    (h : node.WellFormed tokens) (hoperand : operand ∈ node.operands) :
    operand.isExpression = true := by
  cases node with
  | hash token pairs =>
      obtain ⟨pair, hpair, hside⟩ := List.mem_flatMap.mp hoperand
      obtain ⟨hkey, hvalue⟩ := h.2 pair hpair
      rcases List.mem_cons.mp hside with rfl | hside
      · exact hkey
      · rwa [List.mem_singleton.mp hside]
  | call token callee arguments =>
      rcases List.mem_cons.mp hoperand with rfl | hargument
      · exact h.2.1
      · exact h.2.2 operand hargument
  | infixOp _ first _ second | index _ first second =>
      rcases List.mem_cons.mp hoperand with rfl | hsecond
      · simp_all [Node.WellFormed]
      · simp_all [Node.WellFormed, List.mem_singleton.mp hsecond]
  | _ => simp_all [Node.operands, Node.WellFormed]

/-- In an expression returns come from its operands, or from the branches of an if. -/
theorem Node.hasReturn_of_operands {node : Node} (hsort : node.isExpression = true)
    (hif : node.isReturningIf = false)
    (h : ∀ operand ∈ node.operands, operand.hasReturn = false) : node.hasReturn = false := by
  cases node with
  | hash token pairs =>
      rw [Node.hasReturn, anyPairReturn_eq_false]
      intro pair hpair
      exact ⟨h _ (List.mem_flatMap.mpr ⟨pair, hpair, by simp⟩),
        h _ (List.mem_flatMap.mpr ⟨pair, hpair, by simp⟩)⟩
  | call | array => simp_all [Node.hasReturn, Node.operands, anyReturn_eq_false]
  | _ => simp_all [Node.hasReturn, Node.operands, Node.isExpression, Node.isReturningIf]

/-- The tree is complete, and its returns are in place. -/
structure Node.Placed (tokens : List Token) (node : Node) : Prop where
  whole : node.Everywhere (Node.WellFormed tokens)
  inPlace : node.Everywhere fun part => ∀ child ∈ part.confined, child.isReturningIf = false

namespace Node.Placed

variable {tokens : List Token} {node : Node}

theorem child (h : node.Placed tokens) {child : Node} (hchild : child ∈ node.children) :
    child.Placed tokens where
  whole := (Node.everywhere_iff.mp h.whole).2 child hchild
  inPlace := (Node.everywhere_iff.mp h.inPlace).2 child hchild

theorem operand (h : node.Placed tokens) {operand : Node} (hoperand : operand ∈ node.operands) :
    operand.Placed tokens ∧ operand.isExpression = true ∧ operand.isReturningIf = false :=
  ⟨h.child (Node.mem_children_of_operand hoperand),
    (Node.everywhere_iff.mp h.whole).1.operand hoperand,
    (Node.everywhere_iff.mp h.inPlace).1 operand (Node.mem_confined_of_operand hoperand)⟩

/-- No return stands in an expression that is worked on. -/
theorem hasReturn (h : node.Placed tokens) (hsort : node.isExpression = true)
    (hif : node.isReturningIf = false) : node.hasReturn = false := by
  induction hlength : node.parts.length using Nat.strongRecOn generalizing node with
  | _ bound ih =>
      refine Node.hasReturn_of_operands hsort hif fun operand hoperand => ?_
      obtain ⟨hplaced, hsort', hif'⟩ := h.operand hoperand
      have hlt := Node.length_parts_lt (Node.mem_children_of_operand hoperand)
      exact ih _ (hlength ▸ hlt) hplaced hsort' hif' rfl

theorem straight (h : node.Placed tokens) {may : Bool}
    (hmay : may = true ∨ node.hasReturn = false) : node.straight may = true := by
  induction hlength : node.parts.length using Nat.strongRecOn generalizing node may with
  | _ bound ih =>
      subst hlength
      have hchild {child : Node} (hmem : child ∈ node.children) {may : Bool}
          (hmay : may = true ∨ child.hasReturn = false) : child.straight may = true :=
        ih _ (Node.length_parts_lt hmem) (h.child hmem) hmay rfl
      have hoperand {operand : Node} (hmem : operand ∈ node.operands) :
          operand.straight false = true := by
        obtain ⟨hplaced, hsort, hif⟩ := h.operand hmem
        exact hchild (Node.mem_children_of_operand hmem) (Or.inr (hplaced.hasReturn hsort hif))
      cases node with
      | returnStmt token value =>
          have hvalue : value.straight false = true := hoperand (by simp [Node.operands])
          simpa [Node.straight, hvalue, Node.hasReturn] using hmay
      | program statements =>
          exact straightAll_iff.mpr fun statement hmem => hchild hmem (Or.inl rfl)
      | block token statements =>
          refine straightAll_iff.mpr fun statement hmem => hchild hmem (hmay.imp id fun hno => ?_)
          exact anyReturn_eq_false.mp hno statement hmem
      | exprStmt token expression =>
          have hmem : expression ∈ (Node.exprStmt token expression).children := by
            simp [Node.children]
          exact hchild hmem hmay
      | ifElse token condition consequence alternative =>
          have hcondition : condition.straight false = true :=
            hoperand (by simp [Node.operands])
          have hbranches : may = true ∨
              consequence.hasReturn = false ∧ alternative.hasReturn = false := by
            refine hmay.imp id fun hno => ?_
            simp only [Node.hasReturn, Bool.or_eq_false_iff] at hno
            exact ⟨hno.1.2, hno.2⟩
          have hconsequence : consequence.straight may = true :=
            hchild (by simp [Node.children]) (hbranches.imp id And.left)
          have halternative : alternative.straight may = true :=
            hchild (by simp [Node.children]) (hbranches.imp id And.right)
          simp [Node.straight, hcondition, hconsequence, halternative]
      | function token parameters body =>
          have hmem : body ∈ (Node.function token parameters body).children := by
            simp [Node.children]
          exact hchild hmem (Or.inl rfl)
      | call token callee arguments =>
          have hcallee : callee.straight false = true := hoperand (by simp [Node.operands])
          have harguments : straightAll false arguments = true :=
            straightAll_iff.mpr fun argument hmem => hoperand (by simp [Node.operands, hmem])
          simp [Node.straight, hcallee, harguments]
      | array token elements => exact straightAll_iff.mpr fun element hmem => hoperand hmem
      | hash token pairs =>
          refine straightPairs_iff.mpr fun pair hpair => ⟨hoperand ?_, hoperand ?_⟩
          · exact List.mem_flatMap.mpr ⟨pair, hpair, by simp⟩
          · exact List.mem_flatMap.mpr ⟨pair, hpair, by simp⟩
      | letStmt token _ value | prefixOp token _ value =>
          have hvalue : value.straight false = true := hoperand (by simp [Node.operands])
          exact hvalue
      | infixOp _ first _ second | index _ first second =>
          have hfirst : first.straight false = true := hoperand (by simp [Node.operands])
          have hsecond : second.straight false = true := hoperand (by simp [Node.operands])
          simp [Node.straight, hfirst, hsecond]
      | _ => rfl

end Node.Placed

theorem Parses.straight {source : String} {program : Node} (h : Parses source program)
    (hplace : program.returnsInPlace = true) : program.straight true = true := by
  obtain ⟨_, _, hwhole⟩ := h.complete
  have hplaced : program.Placed (tokenize source).tokens := by
    refine ⟨hwhole, fun part hpart child hchild => ?_⟩
    have hchildren := List.all_eq_true.mp hplace part hpart
    simpa using List.all_eq_true.mp hchildren child hchild
  exact hplaced.straight (Or.inl rfl)

end Monkey
