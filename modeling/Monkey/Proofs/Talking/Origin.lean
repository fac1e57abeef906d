/-
Where the tokens of a conversation come from.  The code that a group leaves behind in functions
keeps the tokens of its text, and running later groups never makes up a token.
-/
import Monkey.Proofs.Running.Realms
import Monkey.Proofs.Talking.Sequential

namespace Monkey

/-- The tokens of the lines of a group. -/
def groupTokens (group : List String) : List Token :=
  (tokenize (groupText group)).tokens

def Request.tokens : Request → List Token
  | .help => []
  | .run _ group => groupTokens group

namespace Conversation

/-- There is a frame to run groups in, and all code in the machine keeps some tokens. -/
structure Recalls (tokens : List Token) (conversation : Conversation) : Prop where
  contains : (Realm.reading tokens).Contains conversation.machine
  root : rootFrame < conversation.machine.store.frames.size

variable {host : Host} {tokens : List Token} {conversation after : Conversation}
  {showTree : Bool}

theorem recalls_start : start.Recalls [] :=
  ⟨Realm.contains_start, Nat.one_pos⟩

theorem Recalls.widen {more : List Token} (h : conversation.Recalls tokens)
    (hsubset : tokens ⊆ more) : conversation.Recalls more :=
  ⟨h.contains.widen (Realm.within_reading hsubset), h.root⟩

/-- Running a program whose code keeps the tokens. -/
theorem Recalls.closes (h : conversation.Recalls tokens) {program : Node}
    (hprogram : program.Everywhere (Node.WellFormed tokens)) (depth : Nat) :
    (Realm.reading tokens).Closes conversation.machine.bounds
      (program.eval depth rootFrame conversation.machine) :=
  h.contains.closes_eval hprogram h.root depth

theorem Recalls.evaluate (h : conversation.Recalls tokens) {program : Node} {source : String}
    {number : Int} (hprogram : program.Everywhere (Node.WellFormed tokens))
    (hafter : conversation.evaluate host source number program = some after) :
    after.Recalls tokens := by
  have hcloses := h.closes hprogram host.depth
  rw [Conversation.evaluate] at hafter
  cases heval : program.eval host.depth rootFrame conversation.machine with
  | error fault machine =>
      rw [heval] at hafter
      cases hafter
  | ok result machine =>
      rw [heval] at hafter hcloses
      cases hafter
      cases hcloses with
      | ok hle _ hcontains => exact ⟨hcontains.drain, Nat.lt_of_lt_of_le h.root hle.frames⟩

/-- What is asked for adds no tokens but its own. -/
theorem Recalls.answer (h : conversation.Recalls tokens) {request : Request}
    (hafter : conversation.answer host showTree request = some after) :
    after.Recalls (tokens ++ request.tokens) := by
  have hwider : conversation.Recalls (tokens ++ request.tokens) :=
    h.widen (List.subset_append_left ..)
  cases request with
  | help =>
      cases hafter
      exact ⟨hwider.contains, hwider.root⟩
  | run number group =>
      rw [Conversation.answer] at hafter
      split at hafter
      · cases hafter
        exact hwider
      · rw [Conversation.run] at hafter
        split at hafter
        · cases hafter
        · next program parser left_le hparse =>
            split at hafter
            · cases hafter
              exact ⟨hwider.contains, hwider.root⟩
            · next hclean =>
                have hparses : Parses (groupText group) program :=
                  ⟨parser, ⟨left_le, hparse⟩, hclean⟩
                obtain ⟨_, _, hcomplete⟩ := hparses.complete
                have hprogram : program.Everywhere
                    (Node.WellFormed (tokens ++ groupTokens group)) :=
                  hcomplete.mono fun _ =>
                    Realm.wellFormed_mono (List.subset_append_right ..)
                have hprinted : (conversation.print
                    (if showTree then dropNewlines program.render ++ "\n" else "")).Recalls
                      (tokens ++ groupTokens group) :=
                  ⟨hwider.contains, hwider.root⟩
                exact hprinted.evaluate hprogram hafter

/-- All that is asked for, by induction on the requests. -/
theorem Recalls.answerAll {requests : List Request} (h : conversation.Recalls tokens)
    (hafter : conversation.answerAll host showTree requests = some after) :
    after.Recalls (tokens ++ requests.flatMap Request.tokens) := by
  induction requests generalizing conversation tokens with
  | nil =>
      cases hafter
      rwa [List.flatMap_nil, List.append_nil]
  | cons request rest ih =>
      rw [Conversation.answerAll, List.foldlM_cons] at hafter
      obtain ⟨mid, hmid, hrest⟩ := Option.bind_eq_some_iff.mp hafter
      rw [List.flatMap_cons, ← List.append_assoc]
      exact ih (h.answer hmid) hrest

end Conversation

end Monkey
