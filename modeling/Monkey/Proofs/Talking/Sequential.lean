/-
Groups of lines, run one after the other in one environment, and what is printed on the way.  No
more is carried from one group to the next than the machine.
-/
import Monkey.Proofs.Talking.Script

namespace Monkey

/-! ### What is printed -/

section

variable (style : Style)

/-- The excerpt of a notice with its span marked, where it is shown. -/
def Notice.diagnosis (notice : Notice) (color : Color) : String :=
  if notice.hasDiagnosis then notice.diagnose style color ++ "\n" else ""

/-- The report of an error, and of where it is if it has a token. -/
def errorText (place : Option Excerpt) (message : String) (messages : List String) : String :=
  match place with
  | none =>
      Reporter.errorLines style (.plain message "" { diagnosed := false, messages := messages })
        ++ "\n"
  | some excerpt =>
      let notice := excerpt.notice message messages
      (Reporter.header (promptPath, ⟨some excerpt.line, some excerpt.number⟩)).getD ""
        ++ Reporter.errorLines style notice ++ "\n" ++ notice.diagnosis style .red

def warningText (place : Option Excerpt) (message : String) : String :=
  match place with
  | none => style.boldIn .magenta "warning: " ++ message ++ "\n"
  | some excerpt =>
      let notice := excerpt.notice message []
      style.bold (promptPath ++ ":" ++ toString excerpt.number ++ ":" ++ toString (notice.start + 1)
          ++ ": ")
        ++ style.boldIn .magenta "warning: " ++ message ++ "\n" ++ notice.diagnosis style .magenta

variable (source : String) (number : Int)

/-- What a run lets the outside see, the tokens located in the text that is run. -/
def Event.text : Event → String
  | .wrote line => line ++ "\n"
  | .warned message token => warningText style (token.map (locate source number)) message

def outputText (events : Array Event) : String :=
  String.join (events.toList.map (Event.text style source number))

/-- A result as it is displayed; a run that ends with an error is reported. -/
def resultText : Value → String
  | .error message token _ => errorText style (token.map (locate source number)) message []
  | .nil => ""
  | result => result.display ++ "\n"

end

/-! ### Running groups -/

/-- The text of a group: its lines, each with a newline at its end. -/
def groupText (group : List String) : String :=
  String.join (group.map fun line => dropNewlines line ++ "\n")

theorem groupText_concat (group : List String) (line : String) :
    groupText (group ++ [line]) = groupText group ++ dropNewlines line ++ "\n" := by
  simp [groupText, String.join_append, String.append_assoc]

theorem isEmpty_groupText (group : List String) : (groupText group).isEmpty = group.isEmpty := by
  cases group with
  | nil => rfl
  | cons line rest =>
      rw [groupText, List.map_cons, String.join_cons, List.isEmpty_cons, ← Bool.not_eq_true,
        String.isEmpty_iff]
      simp

/-- How far a conversation has come: the machine, and all that was printed. -/
structure Conversation where
  machine : Machine
  printed : String

namespace Conversation

def start : Conversation :=
  ⟨.start, ""⟩

def print (conversation : Conversation) (text : String) : Conversation :=
  { conversation with printed := conversation.printed ++ text }

variable (host : Host)

/-- Evaluates a program in the environment. -/
def evaluate (conversation : Conversation) (source : String) (number : Int) (program : Node) :
    Option Conversation :=
  match program.eval host.depth rootFrame conversation.machine with
  | .error _ _ => none
  | .ok result machine =>
      some (print ⟨{ machine with events := #[] }, conversation.printed⟩
        (outputText host.style source number machine.events
          ++ resultText host.style source number result))

/-- Runs a text.  One that does not parse without errors is only reported; a fault gives nothing. -/
def run (showTree : Bool) (conversation : Conversation) (source : String) (number : Int) :
    Option Conversation :=
  match parse source with
  | .failed _ _ => none
  | .done program parser _ =>
      match parser.diagnostics with
      | first :: rest =>
          let messages := (first :: rest).map Diagnostic.message
          some (conversation.print
            (errorText host.style (some (locate source number first.token)) first.message
              messages))
      | [] =>
          let tree := if showTree then dropNewlines program.render ++ "\n" else ""
          (conversation.print tree).evaluate host source number program

/-- Gives what is asked for; a blank group does nothing. -/
def answer (showTree : Bool) (conversation : Conversation) : Request → Option Conversation
  | .help => some (conversation.print helpText)
  | .run number group =>
      if isBlankText (groupText group) then some conversation
      else conversation.run host showTree (groupText group) number

def answerAll (showTree : Bool) (conversation : Conversation) (requests : List Request) :
    Option Conversation :=
  requests.foldlM (answer host showTree) conversation

theorem answerAll_append {showTree : Bool} {conversation : Conversation}
    {requests rest : List Request} : conversation.answerAll host showTree (requests ++ rest) =
      (conversation.answerAll host showTree requests).bind (answerAll host showTree · rest) :=
  List.foldlM_append

end Conversation

end Monkey
