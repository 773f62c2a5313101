/-!
# Character classes

White space separates words and disappears; separators end a word and stay as atoms of their own.
Brackets come in three pairs, which are grouped in the order listed.
-/

namespace WatScript

def isSpace (c : Char) : Bool := c == ' ' || c == '\t' || c == '\n' || c == '\r'

def isSeparator (c : Char) : Bool := c == ';' || c == ':' || c == ','

inductive Bracket where
  | brace
  | square
  | round
  deriving DecidableEq, Repr, Inhabited

namespace Bracket

def all : List Bracket := [brace, square, round]

def opener : Bracket → Char
  | brace => '\x7b'
  | square => '['
  | round => '('

def closer : Bracket → Char
  | brace => '\x7d'
  | square => ']'
  | round => ')'

end Bracket

end WatScript
