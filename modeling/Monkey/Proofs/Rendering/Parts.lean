/-
The parts of a tree, and what does not change when tokens are left out of account.
-/
import Monkey.Syntax.Basic

namespace Monkey

mutual

/-- A node and all nodes below it. -/
def Node.parts : Node → List Node
  | .program statements => .program statements :: partsOfAll statements
  | .exprStmt token expression => .exprStmt token expression :: expression.parts
  | .letStmt token name value => .letStmt token name value :: (name.parts ++ value.parts)
  | .returnStmt token value => .returnStmt token value :: value.parts
  | .block token statements => .block token statements :: partsOfAll statements
  | .prefixOp token operator right => .prefixOp token operator right :: right.parts
  | .infixOp token left operator right =>
      .infixOp token left operator right :: (left.parts ++ right.parts)
  | .ifElse token condition consequence alternative =>
      .ifElse token condition consequence alternative ::
        (condition.parts ++ consequence.parts ++ alternative.parts)
  | .function token parameters body =>
      .function token parameters body :: (partsOfAll parameters ++ body.parts)
  | .call token callee arguments =>
      .call token callee arguments :: (callee.parts ++ partsOfAll arguments)
  | .array token elements => .array token elements :: partsOfAll elements
  | .index token left index => .index token left index :: (left.parts ++ index.parts)
  | .hash token pairs => .hash token pairs :: partsOfPairs pairs
  | .missing => [.missing]
  | .text value => [.text value]
  | .flag value => [.flag value]
  | .ident token name => [.ident token name]
  | .int token value => [.int token value]
  | .string token value => [.string token value]
  | .bool token value => [.bool token value]

def partsOfAll : List Node → List Node
  | [] => []
  | node :: rest => node.parts ++ partsOfAll rest

def partsOfPairs : List (Node × Node) → List Node
  | [] => []
  | (key, value) :: rest => key.parts ++ value.parts ++ partsOfPairs rest

end

/-- The nodes just below a node. -/
def Node.children : Node → List Node
  | .program statements | .block _ statements => statements
  | .exprStmt _ child | .returnStmt _ child | .prefixOp _ _ child => [child]
  | .letStmt _ first second | .infixOp _ first _ second | .index _ first second =>
      [first, second]
  | .ifElse _ condition consequence alternative => [condition, consequence, alternative]
  | .function _ parameters body => parameters ++ [body]
  | .call _ callee arguments => callee :: arguments
  | .array _ elements => elements
  | .hash _ pairs => pairs.flatMap fun (key, value) => [key, value]
  | .missing | .text _ | .flag _ | .ident .. | .int .. | .string .. | .bool .. => []

theorem partsOfAll_eq (nodes : List Node) : partsOfAll nodes = nodes.flatMap Node.parts := by
  induction nodes with
  | nil => rfl
  | cons node rest ih => rw [partsOfAll, ih, List.flatMap_cons]

theorem partsOfPairs_eq (pairs : List (Node × Node)) : partsOfPairs pairs =
    (pairs.flatMap fun (key, value) => [key, value]).flatMap Node.parts := by
  induction pairs with
  | nil => rfl
  | cons pair rest ih =>
      obtain ⟨key, value⟩ := pair
      rw [partsOfPairs, ih]
      simp

theorem Node.parts_eq (node : Node) : node.parts = node :: node.children.flatMap Node.parts := by
  cases node <;> simp [Node.parts, Node.children, partsOfAll_eq, partsOfPairs_eq]

/-- Something holds of a node and of all nodes below it. -/
def Node.Everywhere (p : Node → Prop) (node : Node) : Prop :=
  ∀ part ∈ node.parts, p part

theorem Node.everywhere_iff {p : Node → Prop} {node : Node} :
    node.Everywhere p ↔ p node ∧ ∀ child ∈ node.children, child.Everywhere p := by
  unfold Node.Everywhere
  rw [Node.parts_eq, List.forall_mem_cons]
  simp only [List.mem_flatMap, forall_exists_index, and_imp]
  exact and_congr_right fun _ => ⟨fun h child hchild part => h part child hchild,
    fun h part child hchild => h child hchild part⟩

theorem Node.length_parts_lt {child node : Node} (h : child ∈ node.children) :
    child.parts.length < node.parts.length := by
  have hsublist : child.parts.Sublist (node.children.flatMap Node.parts) := by
    rw [List.flatMap_def]
    exact List.sublist_flatten_of_mem (List.mem_map_of_mem h)
  rw [node.parts_eq, List.length_cons]
  exact Nat.lt_succ_of_le hsublist.length_le

/-- What holds everywhere in a node holds everywhere in each of its parts. -/
theorem Node.Everywhere.part {p : Node → Prop} {node part : Node} (h : node.Everywhere p)
    (hpart : part ∈ node.parts) : part.Everywhere p := by
  induction hlength : node.parts.length using Nat.strongRecOn generalizing node with
  | _ bound ih =>
      rw [node.parts_eq] at hpart
      rcases List.mem_cons.mp hpart with rfl | hpart
      · exact h
      · obtain ⟨child, hchild, hpart⟩ := List.mem_flatMap.mp hpart
        have hlt : child.parts.length < bound := hlength ▸ Node.length_parts_lt hchild
        exact ih _ hlt ((Node.everywhere_iff.mp h).2 child hchild) hpart rfl

theorem Node.Everywhere.mono {p q : Node → Prop} {node : Node} (h : node.Everywhere p)
    (hpq : ∀ part, p part → q part) : node.Everywhere q :=
  fun part hpart => hpq part (h part hpart)

/-- A call or an index: an expression that a bracket applies to something. -/
def Node.isApplication : Node → Bool
  | .call .. | .index .. => true
  | _ => false

/-- A call of a string literal, or an index into one, where the literal spans lines. -/
def Node.appliesBrokenString : Node → Bool
  | .call _ (.string _ value) _ | .index _ (.string _ value) _ => value.toList.contains '\n'
  | _ => false

mutual

theorem Node.parts_bare : ∀ node : Node, node.bare.parts = node.parts.map Node.bare
  | .missing | .text _ | .flag _ | .ident _ _ | .int _ _ | .string _ _ | .bool _ _ => rfl
  | .program statements => by simp [Node.bare, Node.parts, partsOfAll_bare statements]
  | .exprStmt _ expression => by simp [Node.bare, Node.parts, Node.parts_bare expression]
  | .letStmt _ name value => by
      simp [Node.bare, Node.parts, Node.parts_bare name, Node.parts_bare value]
  | .returnStmt _ value => by simp [Node.bare, Node.parts, Node.parts_bare value]
  | .block _ statements => by simp [Node.bare, Node.parts, partsOfAll_bare statements]
  | .prefixOp _ _ right => by simp [Node.bare, Node.parts, Node.parts_bare right]
  | .infixOp _ left _ right => by
      simp [Node.bare, Node.parts, Node.parts_bare left, Node.parts_bare right]
  | .ifElse _ condition consequence alternative => by
      simp [Node.bare, Node.parts, Node.parts_bare condition, Node.parts_bare consequence,
        Node.parts_bare alternative]
  | .function _ parameters body => by
      simp [Node.bare, Node.parts, partsOfAll_bare parameters, Node.parts_bare body]
  | .call _ callee arguments => by
      simp [Node.bare, Node.parts, Node.parts_bare callee, partsOfAll_bare arguments]
  | .array _ elements => by simp [Node.bare, Node.parts, partsOfAll_bare elements]
  | .index _ left index => by
      simp [Node.bare, Node.parts, Node.parts_bare left, Node.parts_bare index]
  | .hash _ pairs => by simp [Node.bare, Node.parts, partsOfPairs_bare pairs]

theorem partsOfAll_bare :
    ∀ nodes : List Node, partsOfAll (bareAll nodes) = (partsOfAll nodes).map Node.bare
  | [] => rfl
  | node :: rest => by
      simp [bareAll, partsOfAll, Node.parts_bare node, partsOfAll_bare rest]

theorem partsOfPairs_bare :
    ∀ pairs : List (Node × Node),
      partsOfPairs (barePairs pairs) = (partsOfPairs pairs).map Node.bare
  | [] => rfl
  | (key, value) :: rest => by
      simp [barePairs, partsOfPairs, Node.parts_bare key, Node.parts_bare value,
        partsOfPairs_bare rest]

end

theorem Node.isApplication_bare (node : Node) : node.bare.isApplication = node.isApplication := by
  cases node <;> rfl

/-- The number of brackets that are applied to something. -/
def Node.applications (node : Node) : Nat :=
  node.parts.countP Node.isApplication

theorem Node.applications_bare (node : Node) : node.bare.applications = node.applications := by
  unfold Node.applications
  rw [Node.parts_bare, List.countP_map]
  exact List.countP_congr fun part _ => by simp [Node.isApplication_bare]

mutual

/-- Two trees are the same exactly if they are equal without their tokens. -/
theorem Node.same_iff_bare :
    ∀ left right : Node, left.same right = true ↔ left.bare = right.bare
  | .missing, right => by cases right <;> simp [Node.same, Node.bare]
  | .text _, right => by cases right <;> simp [Node.same, Node.bare]
  | .flag _, right => by cases right <;> simp [Node.same, Node.bare]
  | .ident _ _, right => by cases right <;> simp [Node.same, Node.bare]
  | .int _ _, right => by cases right <;> simp [Node.same, Node.bare]
  | .string _ _, right => by cases right <;> simp [Node.same, Node.bare]
  | .bool _ _, right => by cases right <;> simp [Node.same, Node.bare]
  | .program statements, right => by
      cases right <;> simp [Node.same, Node.bare, sameAll_iff_bareAll statements]
  | .exprStmt _ expression, right => by
      cases right <;> simp [Node.same, Node.bare, Node.same_iff_bare expression]
  | .letStmt _ name value, right => by
      cases right <;>
        simp [Node.same, Node.bare, Node.same_iff_bare name, Node.same_iff_bare value]
  | .returnStmt _ value, right => by
      cases right <;> simp [Node.same, Node.bare, Node.same_iff_bare value]
  | .block _ statements, right => by
      cases right <;> simp [Node.same, Node.bare, sameAll_iff_bareAll statements]
  | .prefixOp _ _ operand, right => by
      cases right <;> simp [Node.same, Node.bare, Node.same_iff_bare operand]
  | .infixOp _ first _ second, right => by
      cases right <;>
        simp [Node.same, Node.bare, Node.same_iff_bare first, Node.same_iff_bare second,
          and_assoc]
  | .ifElse _ condition consequence alternative, right => by
      cases right <;>
        simp [Node.same, Node.bare, Node.same_iff_bare condition,
          Node.same_iff_bare consequence, Node.same_iff_bare alternative, and_assoc]
  | .function _ parameters body, right => by
      cases right <;>
        simp [Node.same, Node.bare, sameAll_iff_bareAll parameters, Node.same_iff_bare body]
  | .call _ callee arguments, right => by
      cases right <;>
        simp [Node.same, Node.bare, Node.same_iff_bare callee, sameAll_iff_bareAll arguments]
  | .array _ elements, right => by
      cases right <;> simp [Node.same, Node.bare, sameAll_iff_bareAll elements]
  | .index _ first second, right => by
      cases right <;>
        simp [Node.same, Node.bare, Node.same_iff_bare first, Node.same_iff_bare second]
  | .hash _ pairs, right => by
      cases right <;> simp [Node.same, Node.bare, samePairs_iff_barePairs pairs]

theorem sameAll_iff_bareAll :
    ∀ left right : List Node, sameAll left right = true ↔ bareAll left = bareAll right
  | [], [] => by simp [sameAll]
  | [], _ :: _ => by simp [sameAll, bareAll]
  | _ :: _, [] => by simp [sameAll, bareAll]
  | node :: rest, node' :: rest' => by
      simp [sameAll, bareAll, Node.same_iff_bare node, sameAll_iff_bareAll rest]

theorem samePairs_iff_barePairs :
    ∀ left right : List (Node × Node),
      samePairs left right = true ↔ barePairs left = barePairs right
  | [], [] => by simp [samePairs]
  | [], (_, _) :: _ => by simp [samePairs, barePairs]
  | (_, _) :: _, [] => by simp [samePairs, barePairs]
  | (key, value) :: rest, (key', value') :: rest' => by
      simp [samePairs, barePairs, Node.same_iff_bare key, Node.same_iff_bare value,
        samePairs_iff_barePairs rest]

end

end Monkey
