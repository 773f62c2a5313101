/-!
# Operators

One table drives both tokenization and the splitting of runs. Lexemes are listed longest first and
alphabetically among equals, so the first lexeme that begins a run of operator characters is the
longest one: `<=` never splits into `<` and `=`.
-/

namespace WatScript

/-- How an operator groups with operators of its own priority. -/
inductive Assoc where
  | left
  | right
  | unary
  deriving DecidableEq, Repr, Inhabited

namespace Assoc

def ofCode? : Nat → Option Assoc
  | 0 => some left
  | 1 => some right
  | 2 => some unary
  | _ => none

def name : Assoc → String
  | left => "left"
  | right => "right"
  | unary => "prefix"

def nameOfCode (code : Nat) : String :=
  ((ofCode? code).map name).getD "assoc(?)"

end Assoc

/-- One entry of the operator table. Lower priorities bind more loosely. -/
structure Operator where
  lexeme : String
  priority : Int
  assoc : Assoc
  deriving DecidableEq, Repr, Inhabited

namespace Operator

/-- The priority that all assignment operators share, the lowest of the table. -/
def assignPriority : Int := -4

def table : List Operator := [
  ⟨"!=", 0, .left⟩,
  ⟨"%=", assignPriority, .right⟩,
  ⟨"&&", -2, .left⟩,
  ⟨"**", 3, .right⟩,
  ⟨"*=", assignPriority, .right⟩,
  ⟨"+=", assignPriority, .right⟩,
  ⟨"-=", assignPriority, .right⟩,
  ⟨"/=", assignPriority, .right⟩,
  ⟨"<=", 0, .left⟩,
  ⟨"==", 0, .left⟩,
  ⟨">=", 0, .left⟩,
  ⟨"||", -3, .left⟩,
  ⟨"!", -1, .unary⟩,
  ⟨"%", 2, .left⟩,
  ⟨"*", 2, .left⟩,
  ⟨"+", 1, .left⟩,
  ⟨"-", 1, .left⟩,
  ⟨"/", 2, .left⟩,
  ⟨"<", 0, .left⟩,
  ⟨"=", assignPriority, .right⟩,
  ⟨">", 0, .left⟩,
  ⟨"@", 2, .left⟩]

def lexemes : List String := table.map lexeme

def find? (lexeme : String) : Option Operator := table.find? (·.lexeme == lexeme)

def match? (cs : List Char) : Option String :=
  lexemes.find? fun lexeme => lexeme.toList.isPrefixOf cs

def isOperatorChar (c : Char) : Bool := lexemes.any fun lexeme => lexeme.toList.contains c

def isAssignment (lexeme : String) : Bool :=
  match find? lexeme with
  | some op => op.priority == assignPriority
  | none => false

/-- The arithmetic operator behind a compound assignment, such as `+` for `+=`. -/
def compoundBase? (lexeme : String) : Option String :=
  if isAssignment lexeme && lexeme != "=" then some (String.ofList lexeme.toList.dropLast) else none

end Operator

end WatScript
