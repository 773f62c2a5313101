import WatScript.Atom.Level

/-!
# Atoms

A source text is a run of atoms. It starts as one `unknown` atom per character; passes group
characters into literals, words, operators and brackets, and brackets into calls, clauses, operations
and statements. A bracket is grouped in two phases: first it holds the run between its characters
unread (`raw`), later that run is read and replaced by what it means (`contents`, `body`, `args`,
`index` or `exprs`), and the atom is `resolved`.

Statements are atoms too. A comment is an expression while a run is being grouped, and a statement once
it has been hoisted out of one.
-/

namespace WatScript

inductive Atom where
  | unknown (lv : Level) (c : Char)
  | literal (lv : Level) (text : String)
  | comment (lv : Level) (text : String) (block : Bool)
  | word (lv : Level) (text : String)
  | operator (lv : Level) (lexeme : String)
  | block (lv : Level) (raw : List Atom) (resolved : Bool) (body : List Atom)
  | paren (lv : Level) (raw : List Atom) (resolved : Bool) (contents : List Atom)
  /-- A list in square brackets; once resolved it holds one item per element. -/
  | list (lv : Level) (raw : List Atom) (resolved : Bool) (contents : List Atom)
  /-- One operand slot: a side of an operator or one argument. An empty item on the left of an
  operator marks its use without a left operand. -/
  | item (lv : Level) (raw : List Atom) (resolved : Bool) (contents : List Atom)
  /-- A call, or an operator applied to two items. `split` says that the argument run has been cut
  into slots. -/
  | call (lv : Level) (callee : Atom) (raw : List Atom) (resolved split : Bool) (args : List Atom)
  | access (lv : Level) (callee : Atom) (raw : List Atom) (resolved : Bool) (index : List Atom)
  /-- A clause word with its condition, if it takes one, and its block. -/
  | clause (lv : Level) (name : String) (cond : Option Atom) (body : Atom)
  | chain (lv : Level) (clauses : List Atom)
  | exprStmt (lv : Level) (raw : List Atom) (resolved : Bool) (exprs : List Atom)
  | controlStmt (lv : Level) (head : String) (raw : List Atom) (resolved : Bool)
      (exprs : List Atom)
  deriving Repr, Inhabited

namespace Atom

def level : Atom → Level
  | unknown lv _ | literal lv _ | comment lv _ _ | word lv _ | operator lv _ => lv
  | block lv _ _ _ | paren lv _ _ _ | list lv _ _ _ | item lv _ _ _ => lv
  | call lv _ _ _ _ _ | access lv _ _ _ _ | clause lv _ _ _ | chain lv _ => lv
  | exprStmt lv _ _ _ | controlStmt lv _ _ _ _ => lv

/-- The atom with its level changed; what it holds stays as it is. -/
def mapLevel (f : Level → Level) : Atom → Atom
  | unknown lv c => unknown (f lv) c
  | literal lv text => literal (f lv) text
  | comment lv text b => comment (f lv) text b
  | word lv text => word (f lv) text
  | operator lv lexeme => operator (f lv) lexeme
  | block lv raw r body => block (f lv) raw r body
  | paren lv raw r contents => paren (f lv) raw r contents
  | list lv raw r contents => list (f lv) raw r contents
  | item lv raw r contents => item (f lv) raw r contents
  | call lv callee raw r s args => call (f lv) callee raw r s args
  | access lv callee raw r index => access (f lv) callee raw r index
  | clause lv name cond body => clause (f lv) name cond body
  | chain lv clauses => chain (f lv) clauses
  | exprStmt lv raw r exprs => exprStmt (f lv) raw r exprs
  | controlStmt lv head raw r exprs => controlStmt (f lv) head raw r exprs

/-- The atom moved to another level; what it holds stays where it is. -/
def relevel (lv : Level) (a : Atom) : Atom := a.mapLevel lv.moveTo

def kindName : Atom → String
  | unknown .. => "Unknown"
  | literal .. => "StringLit"
  | comment .. => "Comment"
  | word .. => "Word"
  | operator .. => "Operator"
  | block .. => "Block"
  | paren .. => "ParenBlock"
  | list .. => "ListBlock"
  | item .. => "Item"
  | call .. => "Func"
  | access .. => "ListAccess"
  | clause .. => "SyntaxClause"
  | chain .. => "SyntaxChain"
  | exprStmt .. => "ExprStmt"
  | controlStmt .. => "ControlStmt"

def raw : Atom → List Atom
  | block _ raw _ _ | paren _ raw _ _ | list _ raw _ _ | item _ raw _ _ => raw
  | call _ _ raw _ _ _ | access _ _ raw _ _ => raw
  | exprStmt _ raw _ _ | controlStmt _ _ raw _ _ => raw
  | _ => []

def withRaw (raw : List Atom) : Atom → Atom
  | block lv _ r body => block lv raw r body
  | paren lv _ r contents => paren lv raw r contents
  | list lv _ r contents => list lv raw r contents
  | item lv _ r contents => item lv raw r contents
  | call lv callee _ r s args => call lv callee raw r s args
  | access lv callee _ r index => access lv callee raw r index
  | exprStmt lv _ r exprs => exprStmt lv raw r exprs
  | controlStmt lv head _ r exprs => controlStmt lv head raw r exprs
  | a => a

/-- The flag of an atom with an unread run; other atoms count as resolved. -/
def settled : Atom → Bool
  | block _ _ r _ | paren _ _ r _ | list _ _ r _ | item _ _ r _ => r
  | call _ _ _ r _ _ | access _ _ _ r _ => r
  | exprStmt _ _ r _ | controlStmt _ _ _ r _ => r
  | _ => true

/-- A clause is resolved once its condition and its block are. -/
def clauseSettled : Atom → Bool
  | clause _ _ cond body => cond.all settled && body.settled
  | _ => true

/-- Whether an atom is resolved; `none` for atoms that have nothing to resolve. -/
def isResolved? : Atom → Option Bool
  | unknown .. | literal .. | comment .. | word .. | operator .. => none
  | a@(clause ..) => some a.clauseSettled
  | chain _ clauses => some (clauses.all clauseSettled)
  | a => some a.settled

def isEmptyItem? : Atom → Option Bool
  | item _ raw resolved contents => some (if resolved then contents.isEmpty else raw.isEmpty)
  | _ => none

def clauseName : Atom → String
  | clause _ name _ _ => name
  | _ => ""

/-- The word of a chain's first clause; `none` for other atoms. -/
def chainHead? : Atom → Option String
  | chain _ clauses => some ((clauses.head?.map clauseName).getD "")
  | _ => none

def isOperator : Atom → Bool
  | operator .. => true
  | _ => false

def isOperation? : Atom → Option Bool
  | call _ callee _ _ _ _ => some callee.isOperator
  | _ => none

def isComment : Atom → Bool
  | comment .. => true
  | _ => false

def isStatement : Atom → Bool
  | comment .. | exprStmt .. | controlStmt .. => true
  | _ => false

end Atom

def relevel (lv : Level) (run : List Atom) : List Atom := run.map (Atom.relevel lv)

end WatScript
