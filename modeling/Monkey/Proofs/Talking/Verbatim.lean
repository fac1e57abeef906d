/-
Texts shown as they stand.  A template of texts with doubled braces and of empty slots between them
shows the texts and what fills the slots one after another, whatever braces are in them.
-/
import Monkey.Report.Notice

namespace Monkey

theorem mapError_ok {ε ε' α : Type} (f : ε → ε') (value : α) :
    (Except.ok value : Except ε α).mapError f = .ok value :=
  rfl

/-- A template of texts, with an empty slot in front of each but the first. -/
def slotTemplate (first : String) (texts : List String) : String :=
  escapeTemplate first ++ String.join (texts.map fun text => "\x7b\x7d" ++ escapeTemplate text)

/-- The slot that takes the next filling and shows it as it is. -/
def Slot.empty : Slot := ⟨[], none, []⟩

/-- The part of a template with an empty slot in front of each text. -/
def slotted (texts : List (List Char)) : List Char :=
  texts.flatMap fun text => '\x7b' :: '\x7d' :: escapeBraces text

theorem toList_slotTemplate (first : String) (texts : List String) :
    (slotTemplate first texts).toList =
      escapeBraces first.toList ++ slotted (texts.map String.toList) := by
  simp [slotTemplate, slotted, escapeTemplate, List.flatMap_map]

theorem pieces_slot (rest : List Char) :
    pieces ('\x7b' :: '\x7d' :: rest) = .slot .empty :: pieces rest := by
  have hread : readSlot ('\x7d' :: rest) = .ok (.empty, rest) := rfl
  rw [pieces]
  · split
    · next hfault => simp [hread] at hfault
    · next hslot =>
      rw [hread] at hslot
      cases hslot
      rfl
  all_goals simp

theorem pieces_slotted_cons (text : List Char) (texts : List (List Char)) :
    pieces (slotted (text :: texts)) =
      .slot .empty :: (text.map .literal ++ pieces (slotted texts)) := by
  rw [slotted, List.flatMap_cons, List.cons_append, List.cons_append, pieces_slot,
    pieces_escapeBraces_append, slotted]

/-- So many slots have taken their fillings, and none of them by number. -/
def Numbering.Took (numbering : Numbering) (count : Nat) : Prop :=
  numbering.choose [] = .ok (count, .automatic (count + 1))

theorem took_undecided : Numbering.undecided.Took 0 := rfl

theorem took_automatic (count : Nat) : (Numbering.automatic count).Took count := rfl

section

variable (fillLayout : Numbering → List Char → Filling) {fillings : List (List Char)}
  {numbering : Numbering} {count : Nat}

/-- An empty slot shows the next filling as it is: its braces are not read. -/
theorem fillSlot_empty {filling : List Char} (htook : numbering.Took count)
    (hfilling : fillings[count]? = some filling) :
    fillSlot fillLayout fillings numbering .empty = .ok (filling, .automatic (count + 1)) := by
  have hpath : followPath (.text filling) [] = .ok (.text filling) := by rw [followPath]
  simp only [fillSlot, Slot.empty, List.takeWhile_nil, List.dropWhile_nil]
  rw [show numbering.choose [] = _ from htook]
  simp [bind, Except.bind, hfilling, hpath, Subject.convert, Subject.set, setText_nil,
    mapError_ok, pure, Except.pure]

/-- By induction on the texts.  What is left of the fillings starts with those of the slots that
are left. -/
theorem fillPieces_slotted {parts : List (List Char × List Char)} {more : List (List Char)}
    (htook : numbering.Took count)
    (hfillings : fillings.drop count = parts.map Prod.fst ++ more) :
    ∃ after, fillPieces fillLayout fillings numbering (pieces (slotted (parts.map Prod.snd))) =
      .ok (parts.flatMap fun (filling, text) => filling ++ text, after) := by
  induction parts generalizing numbering count with
  | nil => exact ⟨numbering, by simp [slotted, pieces, fillPieces]⟩
  | cons part parts ih =>
      have hfilling : fillings[count]? = some part.1 := by
        rw [← List.head?_drop, hfillings]
        rfl
      have hrest : fillings.drop (count + 1) = parts.map Prod.fst ++ more := by
        rw [← List.tail_drop, hfillings]
        rfl
      obtain ⟨after, hafter⟩ := ih (took_automatic (count + 1)) hrest
      refine ⟨after, ?_⟩
      rw [List.map_cons, pieces_slotted_cons, fillPieces, fillSlot_empty fillLayout htook hfilling]
      simp only [bind, Except.bind]
      rw [fillPieces_literal_append, hafter]
      simp [Except.map]

end

/-- A text, and further ones with a filling in front of each. -/
def interleave (first : String) (parts : List (String × String)) : String :=
  first ++ String.join (parts.map fun (filling, text) => filling ++ text)

theorem fillTemplate_slotTemplate (first : String) (parts : List (String × String))
    (more : List String) :
    fillTemplate (slotTemplate first (parts.map Prod.snd)) (parts.map Prod.fst ++ more) =
      .ok (interleave first parts) := by
  let chars := parts.map fun (filling, text) => (filling.toList, text.toList)
  have htexts : (parts.map Prod.snd).map String.toList = chars.map Prod.snd := by
    simp [chars]
  have hfillings : (parts.map Prod.fst ++ more).map String.toList =
      chars.map Prod.fst ++ more.map String.toList := by
    simp [chars]
  obtain ⟨after, hafter⟩ := fillPieces_slotted
    (fillNested ((parts.map Prod.fst ++ more).map String.toList) 1) took_undecided hfillings
  rw [fillTemplate, nestingLimit, fillNested, toList_slotTemplate, pieces_escapeBraces_append,
    fillPieces_literal_append, htexts, hafter]
  simp only [Except.map, Except.ok.injEq]
  rw [← String.toList_inj]
  simp [interleave, chars, List.flatMap_map]

variable (style : Style)

/-- The same with fillings in bold. -/
theorem fillTemplate_slotTemplate_bold (first : String) (parts : List (String × String))
    (more : List String) :
    fillTemplate (slotTemplate first (parts.map Prod.snd))
        ((parts.map Prod.fst ++ more).map style.bold) =
      .ok (interleave first (parts.map fun (filling, text) => (style.bold filling, text))) := by
  have hmessage := fillTemplate_slotTemplate first
    (parts.map fun (filling, text) => (style.bold filling, text)) (more.map style.bold)
  have htexts : (parts.map fun (filling, text) => (style.bold filling, text)).map Prod.snd =
      parts.map Prod.snd := by
    simp
  have hfillings : (parts.map fun (filling, text) => (style.bold filling, text)).map Prod.fst ++
      more.map style.bold = (parts.map Prod.fst ++ more).map style.bold := by
    simp
  rwa [htexts, hfillings] at hmessage

namespace Notice

variable {template message : String} {fillings : List String}

/-- A message can be filled in without fillings, and still there is no notice. -/
theorem fill_nil (h : fillTemplate template [] = .ok message) (details : Details) :
    fill style template [] details = .error .noExcerpt := by
  simp [fill, h, bind, Except.bind, mapError_ok]

theorem fill_cons {excerpt : String}
    (h : fillTemplate template ((excerpt :: fillings).map style.bold) = .ok message)
    (details : Details) :
    fill style template (excerpt :: fillings) details = .ok (.plain message excerpt details) := by
  simp only [fill, h, bind, Except.bind, mapError_ok]

/-- A message with its braces doubled makes the plain notice. -/
theorem fill_escapeTemplate (message excerpt : String) (details : Details) :
    fill style (escapeTemplate message) [excerpt] details = .ok (.plain message excerpt details) :=
  fill_cons style (fillTemplate_escapeTemplate message _) details

/-- A notice made from such a template has for its message the texts as they stand and the fillings
in bold between them; fillings that no slot takes are not shown.  It is made if there is any filling
at all, since the first one is the excerpt. -/
theorem fill_verbatim_iff (first : String) (parts : List (String × String)) (more : List String)
    (details : Details) :
    (∃ notice,
      fill style (slotTemplate first (parts.map Prod.snd)) (parts.map Prod.fst ++ more) details =
          .ok notice ∧
        notice.message =
          interleave first (parts.map fun (filling, text) => (style.bold filling, text))) ↔
      parts ≠ [] ∨ more ≠ [] := by
  have hmessage := fillTemplate_slotTemplate_bold style first parts more
  have hany : parts ≠ [] ∨ more ≠ [] ↔ parts.map Prod.fst ++ more ≠ [] := by
    rw [ne_eq (parts.map Prod.fst ++ more), List.append_eq_nil_iff, List.map_eq_nil_iff,
      Classical.not_and_iff_not_or_not]
  rw [hany]
  cases hfillings : parts.map Prod.fst ++ more with
  | nil =>
      rw [hfillings] at hmessage
      simp [fill_nil style hmessage details]
  | cons excerpt others =>
      rw [hfillings] at hmessage
      exact ⟨fun _ => List.cons_ne_nil _ _, fun _ => ⟨_, fill_cons style hmessage details, rfl⟩⟩

/-- A text alone has no excerpt, so no notice shows it, in whatever style. -/
theorem fill_needs_excerpt : ¬ ∃ style notice,
    fill style (slotTemplate "plain" []) [] {} = .ok notice ∧
      notice.message = interleave "plain" [] := by
  have hmessage : fillTemplate (slotTemplate "plain" []) [] = .ok (interleave "plain" []) :=
    fillTemplate_slotTemplate "plain" [] []
  simp [fill_nil _ hmessage]

end Notice

end Monkey
