/-
Terminal styles.  How a text is put in bold is up to the terminal, which may also show it as it
stands.
-/

namespace Monkey

inductive Color where
  | red
  | magenta
deriving Repr, DecidableEq

/-- How a text is put in bold, in the usual color or in another one. -/
structure Style where
  bold : String → String
  boldIn : Color → String → String

/-- All texts as they stand, for what is no terminal. -/
def Style.plain : Style where
  bold text := text
  boldIn _ text := text

def Color.code : Color → String
  | .red => "\x1b[31m"
  | .magenta => "\x1b[35m"

/-- Escape codes: a text between the switch to bold and the reset, also if it is empty. -/
def Style.ansi : Style where
  bold text := "\x1b[1m" ++ text ++ "\x1b[0m"
  boldIn color text := "\x1b[1m" ++ color.code ++ text ++ "\x1b[0m"

end Monkey
