import WatScript.Atom.Basic
import WatScript.Lexicon.Keyword

/-!
# Statements

A tokenized run is cut at its semicolons. Comments are hoisted in front of the statement they stand
in. What is left of a cut becomes a statement unless it is empty: a control statement if it begins with
a control word, else a statement of expressions.
-/

namespace WatScript

def statementOf? (lv : Level) : List Atom → Option Atom
  | [] => none
  | .word l w :: rest =>
    if Keyword.isControl w then some (.controlStmt lv w rest false [])
    else some (.exprStmt lv (.word l w :: rest) false [])
  | run => some (.exprStmt lv run false [])

/-- The statements of one cut: its comments, then what is left of it. -/
def cutStatements (lv : Level) (run : List Atom) : List Atom :=
  run.filter Atom.isComment ++ (statementOf? lv (run.filter (!·.isComment))).toList

/-- Cuts a run at semicolons; `held` is the open cut, last atom first. -/
def splitStatementsFrom (lv : Level) : List Atom → List Atom → List Atom
  | held, [] => cutStatements lv held.reverse
  | held, .unknown l c :: rest =>
    if c == ';' then cutStatements lv held.reverse ++ splitStatementsFrom lv [] rest
    else splitStatementsFrom lv (.unknown l c :: held) rest
  | held, a :: rest => splitStatementsFrom lv (a :: held) rest

def splitStatements (lv : Level) (run : List Atom) : List Atom := splitStatementsFrom lv [] run

end WatScript
