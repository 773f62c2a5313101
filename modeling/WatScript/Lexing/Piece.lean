import WatScript.Atom.Basic

/-!
# Pieces

A lexing pass cuts a run into pieces. Each piece knows the stretch of the run it was cut from and the
atom it contributes to the result, so nothing of the run is lost: the stretches of the pieces, one
after the other, are the run itself.
-/

namespace WatScript

inductive Piece where
  | kept (a : Atom)
  | dropped (a : Atom)
  /-- A fresh atom made from the characters of the stretch. -/
  | made (stretch : List Atom) (a : Atom)
  /-- A fresh bracket; what stood between its two characters is its unread run. -/
  | wrapped (opener closer : Atom) (a : Atom)
  deriving Repr, Inhabited

namespace Piece

def atom? : Piece → Option Atom
  | kept a | made _ a | wrapped _ _ a => some a
  | dropped _ => none

def stretch : Piece → List Atom
  | kept a | dropped a => [a]
  | made s _ => s
  | wrapped opener closer a => opener :: a.raw ++ [closer]

end Piece

def atomsOf (pieces : List Piece) : List Atom := pieces.filterMap Piece.atom?

end WatScript
