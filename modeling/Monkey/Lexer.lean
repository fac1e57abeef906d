/-
The lexer.  A cursor stands somewhere in a source text and looks at most one character ahead;
reading a token moves it past the token.  Text that belongs to no token becomes an illegal
token, so lexing never fails.
-/
import Monkey.Text.Letter
import Monkey.Token

namespace Monkey

/-- The text from the cursor on, the number of characters passed, and the place reached. -/
structure Cursor where
  rest : List Char
  offset : Nat
  place : Place
deriving Repr

def Cursor.ofText (source : String) : Cursor :=
  ⟨source.toList, 0, .start⟩

/-- The character under the cursor. -/
def Cursor.char? (cursor : Cursor) : Option Char :=
  cursor.rest.head?

/-- The character after the one under the cursor. -/
def Cursor.peek? (cursor : Cursor) : Option Char :=
  cursor.rest.tail.head?

/-- One step to the right.  Past the end of the text the offset and the column still grow. -/
def Cursor.advance (cursor : Cursor) : Cursor :=
  match cursor.rest with
  | [] => ⟨[], cursor.offset + 1, ⟨cursor.place.line, cursor.place.column + 1⟩⟩
  | c :: rest => ⟨rest, cursor.offset + 1, cursor.place.next c⟩

/-- Passes a number of characters of the text. -/
def Cursor.pass (cursor : Cursor) : Nat → Cursor
  | 0 => cursor
  | count + 1 => cursor.advance.pass count

theorem Cursor.rest_advance (cursor : Cursor) : cursor.advance.rest = cursor.rest.tail := by
  cases h : cursor.rest <;> simp [Cursor.advance, h]

theorem Cursor.rest_pass (cursor : Cursor) (count : Nat) :
    (cursor.pass count).rest = cursor.rest.drop count := by
  induction count generalizing cursor with
  | zero => rfl
  | succ count ih => simp [Cursor.pass, ih, Cursor.rest_advance]

theorem Cursor.place_pass (cursor : Cursor) {count : Nat} (h : count ≤ cursor.rest.length) :
    (cursor.pass count).place = cursor.place.after (cursor.rest.take count) := by
  induction count generalizing cursor with
  | zero => rfl
  | succ count ih =>
      match hrest : cursor.rest with
      | [] => simp [hrest] at h
      | c :: rest =>
          have htail : cursor.advance.rest = rest := by simp [Cursor.rest_advance, hrest]
          rw [Cursor.pass, ih cursor.advance (by simpa [htail, hrest] using h), htail]
          simp [Cursor.advance, hrest, Place.after_cons]

/-- Passes the longest run of characters of a class, and gives it. -/
def Cursor.span (cursor : Cursor) (p : Char → Bool) : List Char × Cursor :=
  let run := cursor.rest.takeWhile p
  (run, cursor.pass run.length)

theorem Cursor.rest_span (cursor : Cursor) (p : Char → Bool) :
    (cursor.span p).2.rest = cursor.rest.dropWhile p := by
  simp only [Cursor.span, Cursor.rest_pass]
  induction cursor.rest with
  | nil => rfl
  | cons c rest ih => by_cases h : p c = true <;> simp [h, ih]

/-- Between tokens stand spaces, tabs, newlines and carriage returns. -/
def isLayout (c : Char) : Bool :=
  c == ' ' || c == '\t' || c == '\n' || c == '\r'

def Cursor.skipLayout (cursor : Cursor) : Cursor :=
  (cursor.span isLayout).2

/-- Reads a string with the cursor on its opening quote.  Without a closing quote the rest of
the text, the quote included, is illegal. -/
def Cursor.readString (cursor : Cursor) : Kind × String × Cursor :=
  let body := cursor.advance.span (· != '"')
  match body.2.rest with
  | [] => (.illegal, String.ofList cursor.rest, body.2)
  | _ :: _ => (.string, String.ofList body.1, body.2.advance)

/-- The tokens that one character makes whatever follows it. -/
def singleKind? : Char → Option Kind
  | '+' => some .plus
  | '-' => some .minus
  | '*' => some .asterisk
  | '/' => some .slash
  | '^' => some .caret
  | '<' => some .lt
  | '>' => some .gt
  | ',' => some .comma
  | ':' => some .colon
  | ';' => some .semicolon
  | '(' => some .lparen
  | ')' => some .rparen
  | '\x7b' => some .lbrace
  | '\x7d' => some .rbrace
  | '[' => some .lbracket
  | ']' => some .rbracket
  | _ => none

/-- The characters that make one token with a certain second character, and another without. -/
structure PairRule where
  second : Char
  pair : Kind
  alone : Kind

def pairRule? : Char → Option PairRule
  | '=' => some ⟨'=', .eq, .assign⟩
  | '!' => some ⟨'=', .notEq, .bang⟩
  | '&' => some ⟨'&', .and, .illegal⟩
  | '|' => some ⟨'|', .or, .illegal⟩
  | _ => none

/-- Reads the token that starts with the character under the cursor. -/
def Cursor.readToken (cursor : Cursor) (c : Char) : Token × Cursor :=
  let token (kind : Kind) (literal : List Char) : Token :=
    ⟨kind, String.ofList literal, cursor.place⟩
  match pairRule? c with
  | some rule =>
      if cursor.peek? = some rule.second then
        (token rule.pair [c, rule.second], cursor.pass 2)
      else (token rule.alone [c], cursor.advance)
  | none =>
  match singleKind? c with
  | some kind => (token kind [c], cursor.advance)
  | none =>
      if c = '"' then
        let string := cursor.readString
        (⟨string.1, string.2.1, cursor.place⟩, string.2.2)
      else if isDigit c then
        let digits := cursor.span isDigit
        (token .int digits.1, digits.2)
      else if isLetter c then
        let word := cursor.span isLetter
        (token (.ofWord (String.ofList word.1)) word.1, word.2)
      else (token .illegal [c], cursor.advance)

/-- Skips layout and reads a token; at the end of the text that is always the end token. -/
def Cursor.nextToken (cursor : Cursor) : Token × Cursor :=
  let start := cursor.skipLayout
  match start.rest with
  | [] => (⟨.eof, "", start.place⟩, start)
  | c :: _ => start.readToken c

theorem Cursor.length_advance (cursor : Cursor) :
    cursor.advance.rest.length = cursor.rest.length - 1 := by
  simp [Cursor.rest_advance]

theorem Cursor.length_span_le (cursor : Cursor) (p : Char → Bool) :
    (cursor.span p).2.rest.length ≤ cursor.rest.length := by
  rw [Cursor.rest_span]
  exact (List.dropWhile_suffix p).length_le

theorem Cursor.length_span_lt {cursor : Cursor} {p : Char → Bool} {c : Char} {rest : List Char}
    (h : cursor.rest = c :: rest) (hc : p c = true) :
    (cursor.span p).2.rest.length < cursor.rest.length := by
  rw [Cursor.rest_span, h, List.dropWhile_cons_of_pos hc, List.length_cons]
  exact Nat.lt_succ_of_le (List.dropWhile_suffix p).length_le

theorem Cursor.length_readString_lt {cursor : Cursor} {c : Char} {rest : List Char}
    (h : cursor.rest = c :: rest) :
    cursor.readString.2.2.rest.length < cursor.rest.length := by
  have hspan := cursor.advance.length_span_le (· != '"')
  rw [Cursor.length_advance, h] at hspan
  simp only [List.length_cons, Nat.add_sub_cancel] at hspan
  rw [h, Cursor.readString]
  split
  · simp only [List.length_cons]
    omega
  · rw [Cursor.length_advance, List.length_cons]
    omega

/-- A token takes at least one character. -/
theorem Cursor.length_readToken_lt {cursor : Cursor} {c : Char} {rest : List Char}
    (h : cursor.rest = c :: rest) :
    (cursor.readToken c).2.rest.length < cursor.rest.length := by
  have hone : cursor.advance.rest.length < cursor.rest.length := by
    rw [Cursor.length_advance, h]
    simp
  have htwo : (cursor.pass 2).rest.length < cursor.rest.length := by
    rw [Cursor.rest_pass, h]
    simp only [List.length_drop, List.length_cons]
    omega
  unfold Cursor.readToken
  split
  · split
    · exact htwo
    · exact hone
  · split
    · exact hone
    · split
      · exact Cursor.length_readString_lt h
      · split
        · exact Cursor.length_span_lt h ‹_›
        · split
          · exact Cursor.length_span_lt h ‹_›
          · exact hone

/-- The tokens up to the end of the text, and the place of the end token. -/
structure TokenStream where
  tokens : List Token
  finish : Place
deriving Repr

/-- The end token of a stream. -/
def TokenStream.eof (stream : TokenStream) : Token :=
  ⟨.eof, "", stream.finish⟩

/-- All tokens from the cursor on. -/
def Cursor.tokenize (cursor : Cursor) : TokenStream :=
  let start := cursor.skipLayout
  match h : start.rest with
  | [] => ⟨[], start.place⟩
  | c :: _ =>
      have : (start.readToken c).2.rest.length < cursor.rest.length :=
        Nat.lt_of_lt_of_le (Cursor.length_readToken_lt h) (cursor.length_span_le isLayout)
      let read := start.readToken c
      let stream := read.2.tokenize
      ⟨read.1 :: stream.tokens, stream.finish⟩
termination_by cursor.rest.length

def tokenize (source : String) : TokenStream :=
  (Cursor.ofText source).tokenize

end Monkey
