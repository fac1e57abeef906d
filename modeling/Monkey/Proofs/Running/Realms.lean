/-
Realms.  The code of one is complete and keeps the tokens of some texts, that of the widest one is
any code.  What is closed in a realm is closed in a wider one.
-/
import Monkey.Proofs.Parsing.WellFormed
import Monkey.Proofs.Running.Bounds

namespace Monkey

/-- The tokens that running a node can report, its children left out: that of an operation, or of
a name that is bound, or of a key. -/
def Node.reported : Node → List (Option Token)
  | .letStmt _ name _ => [name.token?]
  | .ident token _ | .prefixOp token _ _ | .infixOp token _ _ _ | .call token _ _
  | .index token _ _ => [token]
  | .hash _ pairs => pairs.map fun pair => pair.1.token?
  | _ => []

/-- A node beside itself. -/
theorem Node.matches_self {token : Option Token → Prop} {code : Node → Prop} {node : Node}
    (htokens : ∀ reported ∈ node.reported, token reported)
    (hchildren : ∀ child ∈ node.children, code child) :
    node.Matches (fun first second => token first ∧ first = second) Eq
      (fun first second => code first ∧ first = second) node := by
  have hself (nodes : List Node) (h : ∀ node ∈ nodes, code node) :
      List.Forall₂ (fun first second => code first ∧ first = second) nodes nodes :=
    forall₂_eq_iff.mpr ⟨h, rfl⟩
  cases node with
  | missing => exact .missing
  | text value => exact .text value
  | flag value => exact .flag value
  | int _ value => exact .int value
  | string _ value => exact .string value
  | bool _ value => exact .bool value
  | ident _ name => exact .ident name ⟨htokens _ List.mem_cons_self, rfl⟩
  | program statements => exact .program (hself statements hchildren)
  | block _ statements => exact .block (hself statements hchildren)
  | array _ elements => exact .array (hself elements hchildren)
  | exprStmt _ expression => exact .exprStmt ⟨hchildren expression (by simp [children]), rfl⟩
  | returnStmt _ value => exact .returnStmt ⟨hchildren value (by simp [children]), rfl⟩
  | letStmt _ name value =>
      exact .letStmt rfl ⟨htokens _ List.mem_cons_self, rfl⟩
        ⟨hchildren value (by simp [children]), rfl⟩
  | prefixOp _ operator right =>
      exact .prefixOp operator ⟨htokens _ List.mem_cons_self, rfl⟩
        ⟨hchildren right (by simp [children]), rfl⟩
  | infixOp _ left operator right =>
      exact .infixOp operator ⟨htokens _ List.mem_cons_self, rfl⟩
        ⟨hchildren left (by simp [children]), rfl⟩ ⟨hchildren right (by simp [children]), rfl⟩
  | ifElse _ condition consequence alternative =>
      exact .ifElse ⟨hchildren condition (by simp [children]), rfl⟩
        ⟨hchildren consequence (by simp [children]), rfl⟩
        ⟨hchildren alternative (by simp [children]), rfl⟩
  | function _ parameters body =>
      exact .function rfl ⟨hchildren body (by simp [children]), rfl⟩
  | call _ callee arguments =>
      obtain ⟨hcallee, harguments⟩ := List.forall_mem_cons.mp hchildren
      exact .call ⟨htokens _ List.mem_cons_self, rfl⟩ ⟨hcallee, rfl⟩ (hself arguments harguments)
  | index _ left position =>
      exact .index ⟨htokens _ List.mem_cons_self, rfl⟩
        ⟨hchildren left (by simp [children]), rfl⟩ ⟨hchildren position (by simp [children]), rfl⟩
  | hash _ pairs =>
      refine .hash (List.forall₂_same.mpr fun pair hpair => ?_)
      have hkey : code pair.1 := hchildren _ (List.mem_flatMap.mpr ⟨pair, hpair, by simp⟩)
      have hvalue : code pair.2 := hchildren _ (List.mem_flatMap.mpr ⟨pair, hpair, by simp⟩)
      have htoken : token pair.1.token? := htokens _ (List.mem_map.mpr ⟨pair, hpair, rfl⟩)
      exact ⟨⟨htoken, rfl⟩, ⟨hkey, rfl⟩, hvalue, rfl⟩

/-- A node has its own form. -/
theorem Node.matches_rfl (node : Node) : node.Matches Eq Eq Eq node := by
  have hself := @Node.matches_self (fun _ => True) (fun _ => True) node (fun _ _ => trivial)
    fun _ _ => trivial
  simpa only [true_and] using hself

namespace Realm

/-- All code. -/
def free : Realm where
  token _ := True
  code _ := True
  closed _ := Node.matches_self (fun _ _ => trivial) fun _ _ => trivial

/-! ### The code of texts -/

theorem keeps_of_isExpression {tokens : List Token} {node : Node}
    (hnode : node.WellFormed tokens) (hsort : node.isExpression = true) :
    Monkey.Keeps tokens node.token? := by
  cases node with
  | int =>
      obtain ⟨⟨found, hfound, htoken, _⟩, _⟩ := hnode
      exact ⟨found, hfound, htoken⟩
  | bool => exact hnode
  | missing | text | flag | program | exprStmt | letStmt | returnStmt | block => cases hsort
  | _ => exact hnode.1

/-- Complete code keeps every token that running it can report. -/
theorem keeps_reported {tokens : List Token} {node : Node}
    (hnode : node.Everywhere (Node.WellFormed tokens)) :
    ∀ reported ∈ node.reported, Monkey.Keeps tokens reported := by
  obtain ⟨hself, hchildren⟩ := Node.everywhere_iff.mp hnode
  have hchild (child : Node) (hmem : child ∈ node.children) : child.WellFormed tokens :=
    (Node.everywhere_iff.mp (hchildren child hmem)).1
  intro reported hreported
  cases node with
  | letStmt _ name value =>
      rw [List.mem_singleton.mp hreported]
      apply keeps_of_isExpression (hchild name (by simp [Node.children]))
      have hname := hself.2.1
      cases name <;> first | rfl | cases hname
  | hash _ pairs =>
      obtain ⟨pair, hpair, rfl⟩ := List.mem_map.mp hreported
      apply keeps_of_isExpression (hchild pair.1 (List.mem_flatMap.mpr ⟨pair, hpair, by simp⟩))
      exact (hself.2 pair hpair).1
  | ident | prefixOp | infixOp | call | index =>
      rw [List.mem_singleton.mp hreported]
      exact hself.1
  | _ => cases hreported

/-- The code that is complete and keeps some tokens. -/
def reading (tokens : List Token) : Realm where
  token := Monkey.Keeps tokens
  code := Node.Everywhere (Node.WellFormed tokens)
  closed hnode :=
    Node.matches_self (keeps_reported hnode) (Node.everywhere_iff.mp hnode).2

theorem keeps_mono {tokens more : List Token} (hsubset : tokens ⊆ more) {token : Option Token}
    (h : Monkey.Keeps tokens token) : Monkey.Keeps more token := by
  obtain ⟨found, hfound, htoken⟩ := h
  exact ⟨found, hsubset hfound, htoken⟩

theorem wellFormed_mono {tokens more : List Token} (hsubset : tokens ⊆ more) {node : Node}
    (h : node.WellFormed tokens) : node.WellFormed more := by
  cases node with
  | missing | text | flag | program => exact h
  | bool => exact keeps_mono hsubset h
  | int =>
      obtain ⟨⟨found, hfound, htoken⟩, hvalue⟩ := h
      exact ⟨⟨found, hsubset hfound, htoken⟩, hvalue⟩
  | _ => exact ⟨keeps_mono hsubset h.1, h.2⟩

/-! ### Wider realms -/

variable {realm wider : Realm} {machine : Machine}

/-- The wider realm has all tokens and all code of the other one. -/
structure Within (realm wider : Realm) : Prop where
  token : ∀ {token}, realm.token token → wider.token token
  code : ∀ {node}, realm.code node → wider.code node

theorem within_reading {tokens more : List Token} (hsubset : tokens ⊆ more) :
    (reading tokens).Within (reading more) where
  token h := keeps_mono hsubset h
  code h := h.mono fun _ hpart => wellFormed_mono hsubset hpart

theorem Admits.widen {bounds : Bounds} {value : Value} (h : realm.Admits bounds value)
    (hwithin : realm.Within wider) : wider.Admits bounds value := by
  cases value with
  | function => exact ⟨h.1, h.2.1, hwithin.code h.2.2⟩
  | error => exact ⟨hwithin.token h.1, h.2⟩
  | _ => exact h

theorem Contains.widen (h : realm.Contains machine) (hwithin : realm.Within wider) :
    wider.Contains machine where
  clear frame hframe binding hbinding part hpart := refuses_eq_false.mpr
    ((refuses_eq_false.mp (h.clear frame hframe binding hbinding part hpart)).widen hwithin)
  errorless := h.errorless
  outer_lt := h.outer_lt
  warned hmem := hwithin.token (h.warned hmem)

end Realm

end Monkey
