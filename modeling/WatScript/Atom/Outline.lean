import WatScript.Atom.Canon

/-!
# Children and outlines

`Atom.children` lists what an atom holds directly: its unread run and what that run was read as.
`Atom.outline` prints an atom and everything below it, one line per atom with its kind and level;
`Atom.inspect` lists the same atoms in the same order.
-/

namespace WatScript

namespace Atom

def children : Atom → List Atom
  | block _ raw resolved body => if resolved then body else raw
  | paren _ raw _ contents | list _ raw _ contents | item _ raw _ contents => raw ++ contents
  | call _ callee raw _ _ args => callee :: raw ++ args
  | access _ callee raw _ index => callee :: raw ++ index
  | clause _ _ cond body => cond.toList ++ [body]
  | chain _ clauses => clauses
  | exprStmt _ raw _ exprs | controlStmt _ _ raw _ exprs => raw ++ exprs
  | _ => []

def remark : Atom → String
  | a@(unknown ..) | a@(literal ..) | a@(comment ..) | a@(word ..) | a@(operator ..) =>
    " " ++ a.canon
  | clause _ name _ _ => " " ++ name
  | controlStmt _ head _ _ _ => " " ++ head
  | _ => ""

def line (indent : Nat) (a : Atom) : String :=
  "".pushn ' ' (2 * indent) ++ a.kindName ++ " d=" ++ toString a.level.depth.toInt ++ " l=" ++
    toString a.level.loops.toInt ++ a.remark ++
    (if a.isResolved? == some false then " (raw)" else "") ++ "\n"

end Atom

mutual

/-- An atom followed by everything below it, each with its distance from the top. Atoms that `skip`
picks are listed but not entered. -/
def Atom.walk (skip : Atom → Bool) (indent : Nat) (a : Atom) : List (Nat × Atom) :=
  (indent, a) :: (if skip a then [] else
    match a with
    | .block _ raw resolved body =>
      if resolved then walks skip (indent + 1) body else walks skip (indent + 1) raw
    | .paren _ raw _ contents | .list _ raw _ contents | .item _ raw _ contents =>
      walks skip (indent + 1) raw ++ walks skip (indent + 1) contents
    | .call _ callee raw _ _ args =>
      callee.walk skip (indent + 1) ++ walks skip (indent + 1) raw ++
        walks skip (indent + 1) args
    | .access _ callee raw _ index =>
      callee.walk skip (indent + 1) ++ walks skip (indent + 1) raw ++
        walks skip (indent + 1) index
    | .clause _ _ cond body =>
      walkOption skip (indent + 1) cond ++ body.walk skip (indent + 1)
    | .chain _ clauses => walks skip (indent + 1) clauses
    | .exprStmt _ raw _ exprs | .controlStmt _ _ raw _ exprs =>
      walks skip (indent + 1) raw ++ walks skip (indent + 1) exprs
    | .unknown .. | .literal .. | .comment .. | .word .. | .operator .. => [])

def walkOption (skip : Atom → Bool) (indent : Nat) : Option Atom → List (Nat × Atom)
  | none => []
  | some a => a.walk skip indent

def walks (skip : Atom → Bool) (indent : Nat) : List Atom → List (Nat × Atom)
  | [] => []
  | a :: rest => a.walk skip indent ++ walks skip indent rest

end

/-- An atom and everything below it in depth-first order; atoms that `skip` picks are not entered. -/
def Atom.inspect (skip : Atom → Bool) (a : Atom) : List Atom := (a.walk skip 0).map (·.2)

def Atom.outline (a : Atom) : String :=
  String.join ((a.walk (fun _ => false) 0).map fun (indent, b) => b.line indent)

def outlineRun (run : List Atom) : String := String.join (run.map Atom.outline)

end WatScript
