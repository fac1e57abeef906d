/-
Where returned values go.  A return hands its value on wrapped, up to the call or the program
around it.  On its way the wrapped value may come to where the value of an expression is used,
and then it is kept like any other; this happens exactly in runs where a return statement has its
value while the value of the expression around it is wanted to be kept.
-/
import Monkey.Proofs.Lexing.Layout
import Monkey.Proofs.Parsing.Following
import Monkey.Proofs.Parsing.Programs
import Monkey.Proofs.Running.Watch

namespace Monkey

open Traced

variable {α β : Type}

/-- No return is on its way to where it would be kept, and no value that is put somewhere holds a
returned value. -/
def Occurrence.Unreturned (occurrence : Occurrence) : Prop :=
  occurrence ≠ .returns .kept ∧ occurrence.Clear Value.isReturned

/-- A return was on its way to where it was kept. -/
def Leaked (trace : List Occurrence) : Prop :=
  .returns .kept ∈ trace ∧ ∃ value, .keeps value ∈ trace ∧ value.isReturned = true

theorem Leaked.of_subset {trace trace' : List Occurrence} (h : Leaked trace)
    (hsubset : trace ⊆ trace') : Leaked trace' := by
  obtain ⟨hreturns, value, hkeeps, hvalue⟩ := h
  exact ⟨hsubset hreturns, value, hsubset hkeeps, hvalue⟩

/-- A run of a node that has leaked a return, or ends with one on its way to be kept. -/
def Leaking (use : Use) (out : Outcome Value) : Prop :=
  Leaked out.1 ∨ (use = .kept ∧ .returns .kept ∈ out.1 ∧
    ∃ identity value machine, out.2 = .ok (.returned identity value) machine)

theorem Traced.subset_bind (traced : Traced α) (go : α → Traced β) (machine : Machine) :
    (traced machine).1 ⊆ ((traced >>= go) machine).1 := by
  simp only [Bind.bind]
  split
  · next heq =>
      rw [heq]
      exact List.subset_append_left _ _
  · next heq =>
      rw [heq]
      exact List.Subset.refl _

theorem Leaking.after {use : Use} {before : List Occurrence} {out : Outcome Value}
    (h : Leaking use out) : Leaking use (out.after before) := by
  rcases h with hleaked | ⟨huse, hreturns, hresult⟩
  · exact Or.inl (hleaked.of_subset (List.subset_append_right _ _))
  · exact Or.inr ⟨huse, List.mem_append_right _ hreturns, hresult⟩

theorem Leaking.block {use : Use} {traced : Traced Value} {go : Value → Traced Value}
    {machine : Machine} (hgo : ∀ value : Value, value.isSignal = true → go value = pure value)
    (h : Leaking use (traced machine)) : Leaking use ((traced >>= go) machine) := by
  rcases h with hleaked | ⟨huse, hreturns, identity, value, machine', hresult⟩
  · exact Or.inl (hleaked.of_subset (subset_bind traced go machine))
  · refine Or.inr ⟨huse, subset_bind traced go machine hreturns, identity, value, machine', ?_⟩
    generalize hrun : traced machine = out at hresult
    obtain ⟨trace, result⟩ := out
    obtain rfl : result = .ok (.returned identity value) machine' := hresult
    simp only [Bind.bind, hrun, hgo (.returned identity value) rfl, Pure.pure]

theorem Leaking.keep {eval : Node → Traced Value} {node : Node} {machine : Machine}
    (h : Leaking .kept (eval node machine)) : Leaked (keep eval node machine).1 := by
  rcases h with hleaked | ⟨-, hreturns, identity, value, machine', hresult⟩
  · exact hleaked.of_subset (subset_bind (eval node) _ machine)
  · refine ⟨subset_bind (eval node) _ machine hreturns, .returned identity value, ?_, rfl⟩
    generalize hrun : eval node machine = out at hresult
    obtain ⟨trace, result⟩ := out
    obtain rfl : result = .ok (.returned identity value) machine' := hresult
    rw [Traced.keep]
    simp only [Bind.bind, hrun]
    exact List.mem_append_right _ List.mem_cons_self

/-- A value that an undisturbed node may have: nothing but the value itself may be returned, and
not even that where it is kept. -/
def Settled : Use → Value → Prop
  | .kept, value => value.Clear Value.isReturned
  | _, value => value.unwrap.Clear Value.isReturned

theorem Settled.of_clear {use : Use} {value : Value} (h : value.Clear Value.isReturned) :
    Settled use value := by
  cases use with
  | kept => exact h
  | passed | tested => exact h.unwrap

theorem Settled.clear_unwrap {use : Use} {value : Value} (h : Settled use value) :
    value.unwrap.Clear Value.isReturned := by
  cases use with
  | kept => exact Value.Clear.unwrap h
  | passed | tested => exact h

/-- Watching for returns. -/
def Watch.returned : Watch where
  bad := Value.isReturned
  kind := signalKind_isReturned
  calm := Occurrence.Unreturned
  good := Settled
  upset _ out := Leaked out.1
  loose := Leaking
  calm_enters h := ⟨nofun, h⟩
  calm_shows := ⟨nofun, trivial⟩
  calm_binds h := ⟨nofun, h⟩
  calm_keeps h := ⟨nofun, h⟩
  calm_gives h := ⟨nofun, h⟩
  good_of_clear h := .of_clear h
  clear_of_kept h := h
  clear_unwrap h := h.clear_unwrap
  upset_after _ h := h.of_subset (List.subset_append_right _ _)
  upset_bind _ h := h.of_subset (subset_bind _ _ _)
  loose_of_upset h := Or.inl h
  upset_of_loose huse h := h.elim id fun hkept => absurd hkept.1 huse
  loose_after _ h := h.after
  loose_block hgo h := h.block hgo
  upset_keep h := h.keep
  makes {occurrence error machine} hmade hclear := by
    refine Or.inl ⟨?_, ?_, hclear⟩
    · intro found hfound
      rw [List.mem_singleton.mp hfound]
      cases occurrence with
      | makes | refuses => exact ⟨nofun, trivial⟩
      | _ => cases hmade
    · cases occurrence with
      | makes node problem machine' | refuses builtin node problem machine' =>
          obtain ⟨rfl, -⟩ := Prod.mk.inj (Option.some.inj hmade)
          exact clear_of_parts rfl rfl
      | _ => cases hmade
  returns {use identity value machine} hvalue hmachine := by
    by_cases huse : use = .kept
    · refine Or.inr (Or.inr ⟨huse, ?_, identity, value, machine, rfl⟩)
      rw [huse]
      exact List.mem_cons_self
    · refine Or.inl ⟨?_, ?_, hmachine⟩
      · intro occurrence hoccurrence
        rw [List.mem_singleton.mp hoccurrence]
        exact ⟨fun heq => huse (Occurrence.returns.inj heq), trivial⟩
      · cases use with
        | kept => exact absurd rfl huse
        | passed | tested => exact hvalue

/-- In a run of a program on a machine that holds no returned value, nothing comes to hold one
exactly if no return statement runs where the value of the expression around it is kept. -/
theorem Node.eval_clear_iff (depth : Nat) (program : Node) (frame : FrameId)
    {machine : Machine} (h : machine.Clear Value.isReturned) :
    (program.trace depth .passed frame machine).2 = program.eval depth frame machine ∧
      ((program.trace depth .passed frame machine).Clear Value.isReturned ↔
        .returns .kept ∉ (program.trace depth .passed frame machine).1) := by
  refine ⟨congrFun (Node.erase_trace depth .passed program frame) machine, ?_⟩
  rcases Watch.returned.hands_trace depth .passed program frame machine h with
    ⟨hcalm, hends⟩ | hleaking
  · refine ⟨fun _ hreturns => (hcalm _ hreturns).1 rfl, fun _ => ⟨?_, ?_⟩⟩
    · exact fun occurrence hmem => (hcalm occurrence hmem).2
    · exact hends.mono fun _ _ => trivial
  · obtain ⟨hreturns, value, hkeeps, hvalue⟩ :=
      Watch.returned.upset_of_loose (by decide) hleaking
    refine ⟨fun hclear => ?_, fun hnone => absurd hreturns hnone⟩
    have hself := Value.Clear.self (hclear.holds _ hkeeps)
    rw [hvalue] at hself
    cases hself

/-! ### A returned value that is bound -/

def returnedLetMarks : List Mark :=
  [.word .letWord "let", .gap ' ', .word .ident "x", .gap ' ', .word .assign "=", .gap ' ',
   .word .ifWord "if", .gap ' ', .word .lparen "(", .word .trueWord "true", .word .rparen ")",
   .gap ' ', .word .lbrace "\x7b", .gap ' ', .word .returnWord "return", .gap ' ',
   .word .falseWord "false", .gap ' ', .word .rbrace "\x7d"]

def returnedLet : Node :=
  .program [.letStmt (some ⟨.letWord, "let", ⟨1, 1⟩⟩) (.ident (some ⟨.ident, "x", ⟨1, 5⟩⟩) "x")
    (.ifElse (some ⟨.ifWord, "if", ⟨1, 9⟩⟩) (.bool (some ⟨.trueWord, "true", ⟨1, 13⟩⟩) true)
      (.block (some ⟨.lbrace, "\x7b", ⟨1, 19⟩⟩)
        [.returnStmt (some ⟨.returnWord, "return", ⟨1, 21⟩⟩)
          (.bool (some ⟨.falseWord, "false", ⟨1, 28⟩⟩) false)])
      .missing)]

theorem parses_returnedLet : Parses "let x = if (true) \x7b return false \x7d" returnedLet := by
  have hlegible : Legible returnedLetMarks [] := by decide
  refine parses_iff.mpr ⟨_, rfl, ?_⟩
  rw [tokenize, tokenize_of_legible hlegible rfl]
  let binder : Token := ⟨.letWord, "let", ⟨1, 1⟩⟩
  let name : Token := ⟨.ident, "x", ⟨1, 5⟩⟩
  let assign : Token := ⟨.assign, "=", ⟨1, 7⟩⟩
  let word : Token := ⟨.ifWord, "if", ⟨1, 9⟩⟩
  let opener : Token := ⟨.lparen, "(", ⟨1, 12⟩⟩
  let condition : Token := ⟨.trueWord, "true", ⟨1, 13⟩⟩
  let closer : Token := ⟨.rparen, ")", ⟨1, 17⟩⟩
  let brace : Token := ⟨.lbrace, "\x7b", ⟨1, 19⟩⟩
  let giver : Token := ⟨.returnWord, "return", ⟨1, 21⟩⟩
  let literal : Token := ⟨.falseWord, "false", ⟨1, 28⟩⟩
  let brace' : Token := ⟨.rbrace, "\x7d", ⟨1, 34⟩⟩
  let eof : Token := ⟨.eof, "", ⟨1, 35⟩⟩
  have hcondition : Derives (.expression Power.lowest (.bool (some condition) true))
      [condition] closer :=
    .of_opening (.boolean (Or.inl rfl)) fun last _ =>
      (inert_of_kind closer (by decide)).stops _ last
  have hliteral : Derives (.expression Power.lowest (.bool (some literal) false))
      [literal] brace' :=
    .of_opening (.boolean (Or.inr rfl)) fun last _ =>
      (inert_of_kind brace' (by decide)).stops _ last
  have hbrace : brace'.kind ≠ .semicolon := by decide
  have hbody : Derives (.body [.returnStmt (some giver) (.bool (some literal) false)])
      [giver, literal, brace'] eof :=
    .body (.bare (fun _ => hbrace) (.returnSentence rfl hliteral)) (.emptyBody rfl)
  have hif : Derives (.conditional (.ifElse (some word) (.bool (some condition) true)
      (.block (some brace) [.returnStmt (some giver) (.bool (some literal) false)]) .missing))
      [word, opener, condition, closer, brace, giver, literal, brace'] eof :=
    @Derives.ifElse word opener closer brace' eof _ _ _ [condition] [brace, giver, literal] []
      rfl rfl rfl hcondition (.block rfl hbody) (.noElse (by decide))
  have hvalue := @Derives.of_opening Power.lowest _ _ eof _ (.conditional hif) fun last _ =>
    (inert_of_kind eof (by decide)).stops _ last
  have hlet := @Derives.letSentence binder name assign eof _ _ rfl rfl rfl hvalue
  have heof : eof.kind ≠ .semicolon := by decide
  exact @DerivesAll.cons eof (some _) [] _ [] (.bare (fun _ => heof) hlet) .nil

theorem binds_returnedLet : Occurrence.binds rootFrame (.name "x") (.returned 0 (.bool false)) ∈
    (returnedLet.trace depthLimit .passed rootFrame Machine.start).1 := by
  have hbinds : (returnedLet.trace depthLimit .passed rootFrame Machine.start).1[10]? =
      some (.binds rootFrame (.name "x") (.returned 0 (.bool false))) := rfl
  exact List.mem_of_getElem? hbinds

/-- A name can be bound to a returned value. -/
theorem returnedLet_not_clear :
    ¬ ∀ source program, Parses source program → ∀ machine : Machine,
      machine.Clear Value.isReturned →
        (program.trace depthLimit .passed rootFrame machine).Clear Value.isReturned := by
  intro h
  have hclear := h _ _ parses_returnedLet Machine.start clear_start
  exact absurd (Value.Clear.self (hclear.holds _ binds_returnedLet)) (by decide)

theorem returnedLet_clear_iff : Machine.start.Clear Value.isReturned ∧
    (returnedLet.trace depthLimit .passed rootFrame Machine.start).2 =
      returnedLet.eval depthLimit rootFrame Machine.start ∧
    ((returnedLet.trace depthLimit .passed rootFrame Machine.start).Clear Value.isReturned ↔
      .returns .kept ∉ (returnedLet.trace depthLimit .passed rootFrame Machine.start).1) :=
  ⟨clear_start, returnedLet.eval_clear_iff depthLimit rootFrame clear_start⟩

end Monkey
