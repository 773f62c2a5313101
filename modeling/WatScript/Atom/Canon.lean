import WatScript.Atom.Basic
import WatScript.Text.Quoted

/-!
# Canonical text

The canonical text of an atom does not depend on white space in the source: unclassified characters
are quoted, operands stand in angle brackets, and an unresolved atom shows its unread run.
-/

namespace WatScript

def commentText (text : String) (block : Bool) : String :=
  if block then "/*" ++ text ++ "*/" else "//" ++ text

mutual

def Atom.canon : Atom → String
  | .unknown _ c => Text.quoteChar c
  | .literal _ text => Text.quoteString text
  | .comment _ text b => commentText text b
  | .word _ text => text
  | .operator _ lexeme => lexeme
  | .block _ raw resolved body =>
    "\x7b" ++ " ".intercalate (if resolved then canons body else canons raw) ++ "\x7d"
  | .paren _ raw resolved contents =>
    "(" ++ " ".intercalate (if resolved then canons contents else canons raw) ++ ")"
  | .list _ raw resolved contents =>
    "[" ++ (if resolved then ", ".intercalate (canons contents)
      else " ".intercalate (canons raw)) ++ "]"
  | .item _ raw resolved contents =>
    "<" ++ " ".intercalate (if resolved then canons contents else canons raw) ++ ">"
  | .call _ callee raw resolved split args =>
    callee.canon ++ "(" ++ (if resolved || split then ", ".intercalate (canons args)
      else " ".intercalate (canons raw)) ++ ")"
  | .access _ callee raw resolved index =>
    callee.canon ++ "[" ++ (if resolved then ", ".intercalate (canons index)
      else " ".intercalate (canons raw)) ++ "]"
  | .clause _ name cond body => name ++ canonOption cond ++ body.canon
  | .chain _ clauses => "chain[" ++ " ".intercalate (canons clauses) ++ "]"
  | .exprStmt _ raw resolved exprs =>
    " ".intercalate (if resolved then canons exprs else canons raw) ++ ";"
  | .controlStmt _ head raw resolved exprs =>
    " ".intercalate (head :: (if resolved then canons exprs else canons raw)) ++ ";"

def canonOption : Option Atom → String
  | none => ""
  | some a => a.canon

def canons : List Atom → List String
  | [] => []
  | a :: rest => a.canon :: canons rest

end

/-- The canonical text of a run: its atoms with blanks between them. -/
def canonRun (run : List Atom) : String := " ".intercalate (canons run)

end WatScript
