import WatScript.Fault.Reading
import WatScript.Lexicon.Char
import WatScript.Lexicon.Operator
import WatScript.Lexing.Piece

/-!
# Words and operators

The third lexing pass turns characters into words and operators. White space ends a word and
disappears; separators end a word and stay; any other atom ends a word and passes through. Between
these, operator characters are cut into lexemes, longest first, so `a&&!b` yields `a`, `&&`, `!` and
`b`.
-/

namespace WatScript

/-- A character of the run together with the level it has there. -/
structure Mark where
  lv : Level
  c : Char
  deriving DecidableEq, Repr, Inhabited

def Mark.atom (m : Mark) : Atom := .unknown m.lv m.c

def markText (ms : List Mark) : String := String.ofList (ms.map Mark.c)

/-- Cuts operator characters into lexemes; `skip` of them belong to the lexeme found last. -/
def cutOperators (lv : Level) : Nat → List Mark → Except ReadFault (List Piece)
  | _, [] => .ok []
  -- the rest of a lexeme that has been cut
  | skip + 1, _ :: rest => cutOperators lv skip rest
  | 0, m :: rest =>
    match Operator.match? ((m :: rest).map Mark.c) with
    | none => .error .unknownSymbol
    | some lexeme => do
      let pieces ← cutOperators lv (lexeme.length - 1) rest
      return .made (((m :: rest).take lexeme.length).map Mark.atom) (.operator lv lexeme) :: pieces

/-- Cuts a sequence of characters into stretches of operator characters and stretches of others.
`open?` is the stretch being read, last one first. -/
def splitMarks : Option (Bool × List Mark) → List Mark → List (Bool × List Mark)
  | none, [] => []
  | some (isOp, held), [] => [(isOp, held.reverse)]
  | none, m :: rest => splitMarks (some (Operator.isOperatorChar m.c, [m])) rest
  | some (isOp, held), m :: rest =>
    if Operator.isOperatorChar m.c == isOp then splitMarks (some (isOp, m :: held)) rest
    else (isOp, held.reverse) :: splitMarks (some (!isOp, [m])) rest

/-- The pieces of one stretch: the lexemes of operator characters, or one word. -/
def cutStretch (lv : Level) : Bool × List Mark → Except ReadFault (List Piece)
  | (true, ms) => cutOperators lv 0 ms
  | (false, ms) => .ok [.made (ms.map Mark.atom) (.word lv (markText ms))]

/-- Cuts a sequence of characters without white space into words and operators. -/
def cutWord (lv : Level) (ms : List Mark) : Except ReadFault (List Piece) := do
  let pieces ← (splitMarks none ms).mapM (cutStretch lv)
  return pieces.flatten

/-- Scans a run; `held` are the characters of the open word, last one first. -/
def scanWords (lv : Level) : List Mark → List Atom → Except ReadFault (List Piece)
  | held, [] => cutWord lv held.reverse
  | held, .unknown l c :: rest =>
    if isSpace c then do
      let word ← cutWord lv held.reverse
      let pieces ← scanWords lv [] rest
      return word ++ .dropped (.unknown l c) :: pieces
    else if isSeparator c then do
      let word ← cutWord lv held.reverse
      let pieces ← scanWords lv [] rest
      return word ++ .kept (.unknown l c) :: pieces
    else scanWords lv (⟨l, c⟩ :: held) rest
  | held, a :: rest => do
    let word ← cutWord lv held.reverse
    let pieces ← scanWords lv [] rest
    return word ++ .kept a :: pieces

def cutWords (lv : Level) (run : List Atom) : Except ReadFault (List Piece) := scanWords lv [] run

def tokenize (lv : Level) (run : List Atom) : Except ReadFault (List Atom) :=
  (cutWords lv run).map atomsOf

end WatScript
