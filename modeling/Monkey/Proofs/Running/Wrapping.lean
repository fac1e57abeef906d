/-
Wrapping once.  The evaluator wraps the result of every operation; for sums, differences, products,
signs and powers it could as well compute with unbounded integers and wrap the last result only,
because the wrap keeps an integer modulo 2 ^ 64 and these operations respect that.
-/
import Monkey.Eval
import Monkey.Parser.Tree
import Monkey.Proofs.Running.Arithmetic

namespace Monkey

/-! ### Wraps within wraps -/

theorem wrap_modEq (value : Int) : wrap value ≡ value [ZMOD wordSize] :=
  Int.bmod_emod

theorem wrap_congr {left right : Int} (h : left ≡ right [ZMOD wordSize]) :
    wrap left = wrap right := by
  rw [← wrap_emod left, h, wrap_emod right]

/-- An integer of 64 bits is its own wrap. -/
theorem wrap_of_bounds {value : Int} (hlow : minInteger ≤ value) (hhigh : value ≤ maxInteger) :
    wrap value = value := by
  unfold minInteger at hlow
  unfold maxInteger at hhigh
  apply Int.bmod_eq_of_le
  · simp only [wordSize]
    omega
  · simp only [wordSize]
    omega

theorem wrap_neg_wrap (value : Int) : wrap (-wrap value) = wrap (-value) :=
  wrap_congr (wrap_modEq value).neg

theorem wrap_add_wrap (left right : Int) : wrap (wrap left + wrap right) = wrap (left + right) :=
  wrap_congr ((wrap_modEq left).add (wrap_modEq right))

theorem wrap_sub_wrap (left right : Int) : wrap (wrap left - wrap right) = wrap (left - right) :=
  wrap_congr ((wrap_modEq left).sub (wrap_modEq right))

theorem wrap_mul_wrap (left right : Int) : wrap (wrap left * wrap right) = wrap (left * right) :=
  wrap_congr ((wrap_modEq left).mul (wrap_modEq right))

theorem wrap_pow_wrap (base : Int) (exponent : Nat) :
    wrap (wrap base ^ exponent) = wrap (base ^ exponent) :=
  wrap_congr ((wrap_modEq base).pow exponent)

/-! ### Trees -/

/-- The tree is built from integer literals and variables bound to integers of 64 bits by sums,
differences, products, signs and powers to literals, and has the value over unbounded integers.
What is bound to the name of a built-in function is never looked up. -/
inductive Node.Exact (machine : Machine) (frame : FrameId) : Node → Int → Prop where
  | literal {token : Option Token} {value : Int} (low : minInteger ≤ value)
      (high : value ≤ maxInteger) : Exact machine frame (.int token value) value
  | binding {token : Option Token} {name : String} {value : Int}
      (unreserved : Builtin.ofName? name = none)
      (bound : machine.store.lookup frame (.name name) = some (.int value))
      (low : minInteger ≤ value) (high : value ≤ maxInteger) :
      Exact machine frame (.ident token name) value
  | sign {token : Option Token} {right : Node} {value : Int}
      (operand : Exact machine frame right value) :
      Exact machine frame (.prefixOp token "-" right) (-value)
  | sum {token : Option Token} {left right : Node} {value value' : Int}
      (first : Exact machine frame left value) (second : Exact machine frame right value') :
      Exact machine frame (.infixOp token left "+" right) (value + value')
  | difference {token : Option Token} {left right : Node} {value value' : Int}
      (first : Exact machine frame left value) (second : Exact machine frame right value') :
      Exact machine frame (.infixOp token left "-" right) (value - value')
  | product {token : Option Token} {left right : Node} {value value' : Int}
      (first : Exact machine frame left value) (second : Exact machine frame right value') :
      Exact machine frame (.infixOp token left "*" right) (value * value')
  | power {token token' : Option Token} {left : Node} {value : Int} {exponent : Nat}
      (base : Exact machine frame left value) :
      Exact machine frame (.infixOp token left "^" (.int token' exponent)) (value ^ exponent)

/-- How many operators of a tree stand above one another, and one for what is at the bottom. -/
def Node.height : Node → Nat
  | .prefixOp _ _ right => right.height + 1
  | .infixOp _ left _ right => max left.height right.height + 1
  | _ => 1

theorem Node.height_pos (node : Node) : 0 < node.height := by
  unfold Node.height
  split <;> omega

section

variable {α β : Type} {machine : Machine} {frame : FrameId}

theorem bind_of_ok {action : Action α} {go : α → Action β} {value : α} {after : Machine}
    (h : action machine = .ok value after) : (action >>= go) machine = go value after := by
  simp only [Bind.bind, EStateM.bind, h]

theorem evalName_of_bound {token : Option Token} {name : String} {value : Value}
    (hname : Builtin.ofName? name = none)
    (hbound : machine.store.lookup frame (.name name) = some value) :
    evalName frame token name machine = .ok value machine := by
  have hlookup : Action.lookup frame (.name name) machine = .ok (some value) machine :=
    congrArg (EStateM.Result.ok · machine) hbound
  simp only [evalName, hname, bind_of_ok hlookup]
  rfl

theorem eval_prefixOp {depth : Nat} {token : Option Token} {operator : String} {right : Node}
    {value : Int} (h : right.eval depth frame machine = .ok (.int value) machine) :
    (Node.prefixOp token operator right).eval (depth + 1) frame machine =
      .ok (evalPrefix token operator (.int value)) machine := by
  rw [Node.eval, bind_of_ok h]
  rfl

theorem eval_infixOp {depth : Nat} {token : Option Token} {operator : String}
    {left right : Node} {value value' : Int}
    (h : left.eval depth frame machine = .ok (.int value) machine)
    (h' : right.eval depth frame machine = .ok (.int value') machine) :
    (Node.infixOp token left operator right).eval (depth + 1) frame machine =
      .ok (settle token (applyIntInfix operator value value')) machine := by
  rw [Node.eval, bind_of_ok h]
  exact bind_of_ok h'

/-- A tree of integer operators has its exact value, wrapped once, wherever evaluation may be as
deep as the tree is high. -/
theorem Node.Exact.eval_eq_wrap {node : Node} {value : Int} (h : node.Exact machine frame value)
    {depth : Nat} (hdepth : node.height ≤ depth) :
    node.eval depth frame machine = .ok (.int (wrap value)) machine := by
  induction depth generalizing node value with
  | zero => exact absurd hdepth (Nat.not_le.mpr node.height_pos)
  | succ depth ih =>
      cases h with
      | literal low high =>
          rw [wrap_of_bounds low high]
          rfl
      | binding unreserved bound low high =>
          rw [wrap_of_bounds low high]
          exact evalName_of_bound unreserved bound
      | sign operand =>
          rw [eval_prefixOp (ih operand (Nat.le_of_succ_le_succ hdepth)), ← wrap_neg_wrap]
          rfl
      | sum first second =>
          obtain ⟨hfirst, hsecond⟩ := Nat.max_le.mp (Nat.le_of_succ_le_succ hdepth)
          rw [eval_infixOp (ih first hfirst) (ih second hsecond), ← wrap_add_wrap]
          rfl
      | difference first second =>
          obtain ⟨hfirst, hsecond⟩ := Nat.max_le.mp (Nat.le_of_succ_le_succ hdepth)
          rw [eval_infixOp (ih first hfirst) (ih second hsecond), ← wrap_sub_wrap]
          rfl
      | product first second =>
          obtain ⟨hfirst, hsecond⟩ := Nat.max_le.mp (Nat.le_of_succ_le_succ hdepth)
          rw [eval_infixOp (ih first hfirst) (ih second hsecond), ← wrap_mul_wrap]
          rfl
      | @power token token' left base exponent base =>
          obtain ⟨hbase, hexponent⟩ := Nat.max_le.mp (Nat.le_of_succ_le_succ hdepth)
          have hliteral : (Node.int token' exponent).eval depth frame machine =
              .ok (.int exponent) machine := by
            obtain ⟨depth, rfl⟩ := Nat.exists_eq_add_of_le' hexponent
            rfl
          rw [eval_infixOp (ih base hbase) hliteral, ← wrap_pow_wrap]
          simp only [applyIntInfix, power?_of_nonneg _ (Int.natCast_nonneg exponent), settle,
            Int.toNat_natCast]

/-- The sum and the power both leave the range; the result is that of the exact product. -/
theorem eval_exact_product : ∃ (machine : Machine) (node : Node),
    node.Exact machine rootFrame (-(3 + maxInteger) * 3 ^ 70) ∧ node.height ≤ 4 ∧
      node.eval 4 rootFrame machine =
        .ok (.int (wrap (-(3 + maxInteger) * 3 ^ 70))) machine := by
  let machine : Machine :=
    { Machine.start with store := Machine.start.store.set rootFrame (.name "x") (.int 3) }
  have hx : Node.Exact machine rootFrame (.ident none "x") 3 :=
    .binding rfl (Store.lookup_of_bound _ rfl) (by decide) (by decide)
  have hnode : Node.Exact machine rootFrame
      (.infixOp none
        (.prefixOp none "-" (.infixOp none (.ident none "x") "+" (.int none maxInteger)))
        "*" (.infixOp none (.ident none "x") "^" (.int none 70)))
      (-(3 + maxInteger) * 3 ^ 70) :=
    .product (.sign (.sum hx (.literal (by decide) (by decide)))) (.power hx)
  exact ⟨machine, _, hnode, by decide, hnode.eval_eq_wrap (by decide)⟩

end

end Monkey
