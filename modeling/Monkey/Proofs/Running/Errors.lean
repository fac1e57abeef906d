/-
Errors end programs.  The first error that is made is the result, just as it was made and on the
machine it was made on; nothing occurs after it; and nothing ever holds an error.
-/
import Monkey.Proofs.Running.Watch

namespace Monkey

open Traced

variable {α β : Type}

theorem Occurrence.isError_of_made? {occurrence : Occurrence} {error : Value} {machine : Machine}
    (h : occurrence.made? = some (error, machine)) : error.isError = true := by
  cases occurrence with
  | makes node problem machine' | refuses builtin node problem machine' =>
      obtain ⟨rfl, -⟩ := Prod.mk.inj (Option.some.inj h)
      rfl
  | _ => cases h

/-- No error is made, and no value that is put somewhere holds one. -/
def Occurrence.Errorless (occurrence : Occurrence) : Prop :=
  occurrence.made? = none ∧ occurrence.Clear Value.isError

/-- A run that ends when its first error is made. -/
inductive Stopped (failed : Value → α) : Outcome α → Prop
  | intro {before : List Occurrence} {made : Occurrence} {error : Value} {machine : Machine}
      (errorless : ∀ occurrence ∈ before, occurrence.Errorless)
      (makes : made.made? = some (error, machine))
      (clear : machine.Clear Value.isError) :
      Stopped failed (before ++ [made], .ok (failed error) machine)

theorem Stopped.after {failed : Value → α} {before : List Occurrence} {out : Outcome α}
    (hbefore : ∀ occurrence ∈ before, occurrence.Errorless) (h : Stopped failed out) :
    Stopped failed (out.after before) := by
  cases h with
  | intro herrorless hmakes hclear =>
      simp only [Outcome.after, ← List.append_assoc]
      refine .intro ?_ hmakes hclear
      intro occurrence hoccurrence
      rcases List.mem_append.mp hoccurrence with hmem | hmem
      · exact hbefore occurrence hmem
      · exact herrorless occurrence hmem

theorem Stopped.bind {failed : Value → α} {failed' : Value → β} {traced : Traced α}
    {go : α → Traced β} {machine : Machine}
    (hgo : ∀ error : Value, error.isError = true → go (failed error) = pure (failed' error))
    (h : Stopped failed (traced machine)) : Stopped failed' ((traced >>= go) machine) := by
  generalize hrun : traced machine = out at h
  cases h with
  | @intro before made error machine' herrorless hmakes hclear =>
      have hbind : (traced >>= go) machine = (before ++ [made], .ok (failed' error) machine') := by
        simp only [Bind.bind, hrun, hgo error (Occurrence.isError_of_made? hmakes), Pure.pure,
          List.append_nil]
      rw [hbind]
      exact .intro herrorless hmakes hclear

/-- Watching for errors. -/
def Watch.errors : Watch where
  bad := Value.isError
  kind := signalKind_isError
  calm := Occurrence.Errorless
  good _ value := value.Clear Value.isError
  upset failed out := Stopped failed out
  loose _ out := Stopped id out
  calm_enters h := ⟨rfl, h⟩
  calm_shows := ⟨rfl, trivial⟩
  calm_binds h := ⟨rfl, h⟩
  calm_keeps h := ⟨rfl, h⟩
  calm_gives h := ⟨rfl, h⟩
  good_of_clear h := h
  clear_of_kept h := h
  clear_unwrap h := h.unwrap
  upset_after hbefore h := h.after hbefore
  upset_bind hgo h := h.bind hgo
  loose_of_upset h := h
  upset_of_loose _ h := h
  loose_after hbefore h := h.after hbefore
  loose_block hgo h := h.bind fun error herror => hgo error (by
    cases error with
    | error => rfl
    | _ => cases herror)
  upset_keep h := h.bind fun error herror => by rw [id_eq, record, if_pos herror]
  makes hmade hclear :=
    Or.inr (.intro (fun _ hmem => absurd hmem List.not_mem_nil) hmade hclear)
  returns hvalue hmachine := by
    refine Or.inl ⟨?_, hvalue.returned rfl, hmachine⟩
    intro occurrence hoccurrence
    rw [List.mem_singleton.mp hoccurrence]
    exact ⟨rfl, trivial⟩

/-- What becomes of errors in a run: the first that is made is the result, unchanged, with nothing
behind it; a result is an error only if one was made; and nothing holds an error at any point. -/
structure EndsAtError (out : Outcome Value) : Prop where
  stops : ∀ before made later error machine, out.1 = before ++ made :: later →
    made.made? = some (error, machine) → later = [] ∧ out.2 = .ok error machine
  faultless : (∀ occurrence ∈ out.1, occurrence.made? = none) →
    ∀ value machine, out.2 = .ok value machine → value.isError = false
  clear : out.Clear Value.isError

theorem EndsAtError.of_fine {out : Outcome Value}
    (h : Fine Value.isError Occurrence.Errorless (Value.Clear Value.isError) out) :
    EndsAtError out where
  stops before made later error machine htrace hmade := by
    have hnone := (h.calm made (by simp [htrace])).1
    rw [hmade] at hnone
    cases hnone
  faultless _ value machine hresult := by
    have hends := h.ends
    rw [hresult] at hends
    exact hends.1.self
  clear :=
    ⟨fun occurrence hmem => (h.calm occurrence hmem).2, h.ends.mono fun _ _ => trivial⟩

theorem EndsAtError.of_stopped {out : Outcome Value} (h : Stopped id out) : EndsAtError out := by
  cases h with
  | @intro before made error machine herrorless hmakes hclear =>
      refine ⟨?_, ?_, ?_, trivial, hclear⟩
      · -- Nothing before the last occurrence makes an error, so the split is at the last one.
        intro before' made' later error' machine' htrace hmade'
        rcases List.eq_nil_or_concat later with rfl | ⟨front, last, rfl⟩
        · obtain ⟨-, hlast⟩ := List.append_inj' htrace rfl
          obtain rfl := List.head_eq_of_cons_eq hlast
          obtain ⟨rfl, rfl⟩ := Prod.mk.inj (Option.some.inj (hmakes.symm.trans hmade'))
          exact ⟨rfl, rfl⟩
        · have hfront : before = before' ++ made' :: front := by
            simp only [List.concat_eq_append, ← List.cons_append, ← List.append_assoc] at htrace
            exact (List.append_inj' htrace rfl).1
          have hnone := (herrorless made' (by simp [hfront])).1
          rw [hmade'] at hnone
          cases hnone
      · intro hnone
        have hmade := hnone made (by simp)
        rw [hmakes] at hmade
        cases hmade
      · intro occurrence hoccurrence
        rcases List.mem_append.mp hoccurrence with hmem | hmem
        · exact (herrorless occurrence hmem).2
        · obtain rfl := List.mem_singleton.mp hmem
          cases occurrence with
          | makes | refuses => trivial
          | _ => cases hmakes

/-- However deep evaluation may go, a program on a machine that holds no error ends at the first
error. -/
theorem Node.eval_endsAtError (depth : Nat) (program : Node) (frame : FrameId)
    {machine : Machine} (h : machine.Clear Value.isError) :
    (program.trace depth .passed frame machine).2 = program.eval depth frame machine ∧
      EndsAtError (program.trace depth .passed frame machine) := by
  refine ⟨congrFun (Node.erase_trace depth .passed program frame) machine, ?_⟩
  rcases Watch.errors.hands_trace depth .passed program frame machine h with hfine | hstopped
  · exact .of_fine hfine
  · exact .of_stopped hstopped

/-- The program `puts(len(1)); puts(2)`, of which only `len(1)` is done. -/
def refusedCall : Node :=
  let opener : Token := ⟨.lparen, "(", ⟨1, 9⟩⟩
  .program [
    .exprStmt none (.call none (.ident none "puts")
      [.call (some opener) (.ident none "len") [.int none 1]]),
    .exprStmt none (.call none (.ident none "puts") [.int none 2])]

theorem refusedCall_endsAtError : Machine.start.Clear Value.isError ∧
    (refusedCall.trace depthLimit .passed rootFrame Machine.start).2 =
      refusedCall.eval depthLimit rootFrame Machine.start ∧
    EndsAtError (refusedCall.trace depthLimit .passed rootFrame Machine.start) :=
  ⟨clear_start, refusedCall.eval_endsAtError depthLimit rootFrame clear_start⟩

example : refusedCall.eval depthLimit rootFrame Machine.start =
    .ok (.error "argument to len not supported, got INTEGER"
      (some ⟨.lparen, "(", ⟨1, 9⟩⟩) none) Machine.start := by
  rfl

end Monkey
