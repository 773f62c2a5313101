import WatScript.Lexing.Literal
import WatScript.Lexing.Grouping
import WatScript.Lexing.Tokenize
import WatScript.Text.Glyph

/-!
# Lexing

`explode` turns a text into one atom per character; `group` runs the three lexing passes over a run.
The passes see the outermost level only: what stands in brackets stays a run of characters until it is
resolved, which runs the same passes on it. Atoms that an earlier pass grouped go through unchanged.
-/

namespace WatScript

/-- One unclassified atom per character. -/
def explode (lv : Level) (text : Text) : List Atom := text.toChars.map (.unknown lv)

/-- Literals, brackets, then words and operators. -/
def group (lv : Level) (run : List Atom) : Except ReadFault (List Atom) := do
  let atoms ← extractLiterals lv run
  let atoms ← groupBrackets lv atoms
  tokenize lv atoms

def scan (lv : Level) (text : Text) : Except ReadFault (List Atom) := group lv (explode lv text)

end WatScript
