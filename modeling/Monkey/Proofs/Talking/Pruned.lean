/-
Programs without the blank lines in their strings.  A text and another one that is left of it parse
in the same cases, to programs that say the same in all but their strings.
-/
import Mathlib.Data.List.Nodup
import Monkey.Proofs.Parsing.Rewording
import Monkey.Proofs.Talking.Blanks

namespace Monkey

/-- Strings without their blank lines. -/
def pruning : Rewording where
  token := Token.pruned
  text _ := pruneText
  kind_token := Token.kind_pruned
  place_token := Token.place_pruned
  token_eq token hstring hillegal := by
    rw [Token.pruned, if_neg (not_or.mpr ⟨hstring, hillegal⟩)]
  text_token token hkind := by
    rw [Token.pruned, if_pos (.inl hkind)]

/-! ### Blank lines put back -/

/-- The first of the tokens of which that token is left. -/
def restore (tokens : List Token) (token : Token) : Token :=
  (tokens.find? (·.pruned = token)).getD token

theorem restore_eq_or (tokens : List Token) (token : Token) :
    restore tokens token = token ∨ (restore tokens token).pruned = token := by
  unfold restore
  cases hfound : tokens.find? (·.pruned = token) with
  | none => exact .inl rfl
  | some found => exact .inr (by simpa using List.find?_some hfound)

theorem kind_restore (tokens : List Token) (token : Token) :
    (restore tokens token).kind = token.kind := by
  rcases restore_eq_or tokens token with heq | heq
  · rw [heq]
  · rw [← Token.kind_pruned, heq]

/-- Strings with the blank lines that they have in the tokens. -/
def restoring (tokens : List Token) : Rewording where
  token := restore tokens
  text token _ := literalOf (token.map (restore tokens))
  kind_token := kind_restore tokens
  place_token token := by
    rcases restore_eq_or tokens token with heq | heq
    · rw [heq]
    · rw [← Token.place_pruned, heq]
  token_eq token hstring hillegal := by
    rcases restore_eq_or tokens token with heq | heq
    · exact heq
    · rw [Token.pruned, kind_restore, if_neg (not_or.mpr ⟨hstring, hillegal⟩)] at heq
      exact heq
  text_token _ _ := rfl

/-- Every token has a place of its own. -/
theorem nodup_places {passed : List Char} {marks : List Mark} (h : AllLongest marks) :
    ((tokensAfter passed marks).map Token.place).Nodup := by
  induction marks generalizing passed with
  | nil => exact List.nodup_nil
  | cons mark marks ih =>
      obtain ⟨hmark, hmarks⟩ := h
      cases mark with
      | gap c => exact ih hmarks
      | word kind literal =>
          have hword : kind.Longest literal (textOf marks) := hmark
          refine List.nodup_cons.mpr ⟨fun hmem => ?_, ih hmarks⟩
          obtain ⟨token, htoken, hplace⟩ := List.mem_map.mp hmem
          obtain ⟨front, back, -, hafter, -⟩ := exists_text_of_mem hmarks htoken
          rw [hafter, List.append_assoc, ← Place.after_placeAfter] at hplace
          exact Place.after_ne _ (by simp [hword.nonempty]) hplace

theorem nodup_places_tokenize (source : String) :
    ((tokenize source).tokens.map Token.place).Nodup := by
  obtain ⟨marks, htext, htokens, hlongest⟩ := (Cursor.ofText source).exists_marks
  have hstart : (Cursor.ofText source).place = placeAfter [] := rfl
  rw [tokenize, htokens, hstart, lay_placeAfter]
  exact nodup_places hlongest

theorem restore_pruned {tokens : List Token} (h : (tokens.map Token.place).Nodup) {token : Token}
    (htoken : token ∈ tokens) : restore tokens token.pruned = token := by
  have hfound : (tokens.find? (·.pruned = token.pruned)).isSome = true :=
    List.find?_isSome.mpr ⟨token, htoken, by simp⟩
  obtain ⟨found, hfound⟩ := Option.isSome_iff_exists.mp hfound
  have hpruned : found.pruned = token.pruned := by simpa using List.find?_some hfound
  -- no other token of which the same is left stands in the same place
  have hplace : found.place = token.place := by
    rw [← Token.place_pruned found, hpruned, Token.place_pruned]
  rw [restore, hfound]
  exact List.inj_on_of_nodup_map h (List.mem_of_find?_eq_some hfound) htoken hplace

/-- All blank lines can be put back. -/
theorem map_restoring {tokens : List Token} (h : (tokens.map Token.place).Nodup) :
    (tokens.map Token.pruned).map (restoring tokens).token = tokens := by
  rw [List.map_map]
  exact (List.map_congr_left fun token htoken => restore_pruned h htoken).trans (List.map_id _)

/-! ### Programs -/

/-- The texts parse in the same cases, and the second program is the first one without the blank
lines in its strings. -/
structure ParsesPruned (source source' : String) : Prop where
  parses : ∀ program, Parses source program →
    ∃ program', Parses source' program' ∧ (pruning.node program).same program' = true
  parsed : ∀ program', Parses source' program' → ∃ program, Parses source program

theorem parsesPruned {source source' : String}
    (h : (tokenize source).pruned.Respaces (tokenize source')) : ParsesPruned source source' := by
  -- the first stream without its blank lines is read in between
  let stream := tokenize source
  have hends : ∀ token ∈ stream.pruned.tokens, token.kind ≠ .eof := by
    intro token htoken
    obtain ⟨token', htoken', rfl⟩ := List.mem_map.mp htoken
    rw [Token.kind_pruned]
    exact kind_ne_eof_of_mem_tokenize htoken'
  have heof (rewording : Rewording) : rewording.token stream.eof = stream.eof :=
    rewording.token_of_kind (show stream.eof.kind = .eof from rfl) (by decide)
  refine ⟨fun program hparses => ?_, fun program' hparses' => ?_⟩
  · obtain ⟨statements, rfl, hderives⟩ := parses_iff.mp hparses
    have hpruned := hderives.reworded pruning
    rw [heof] at hpruned
    obtain ⟨statements', hderives', hsame⟩ := @DerivesAll.respaced stream.pruned _ h hends _ hpruned
    refine ⟨.program statements', parses_iff.mpr ⟨statements', rfl, hderives'⟩, ?_⟩
    exact (sameAll_iff_bareAll _ _).mpr hsame
  · obtain ⟨statements', rfl, hderives'⟩ := parses_iff.mp hparses'
    obtain ⟨statements, hpruned, -⟩ := hderives'.respaced h.symm fun token htoken =>
      kind_ne_eof_of_mem_tokenize htoken
    let restored := (restoring stream.tokens).nodes statements
    have hderives : DerivesAll restored
        ((stream.tokens.map Token.pruned).map (restoring stream.tokens).token)
        ((restoring stream.tokens).token stream.eof) := hpruned.reworded (restoring stream.tokens)
    rw [map_restoring (nodup_places_tokenize source), heof] at hderives
    exact ⟨.program restored, parses_iff.mpr ⟨restored, rfl, hderives⟩⟩

end Monkey
