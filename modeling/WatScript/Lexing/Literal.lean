import WatScript.Fault.Reading
import WatScript.Lexing.Piece

/-!
# Literals and comments

The first lexing pass collapses quoted strings and comments into single atoms. Inside a quotation a
backslash escapes exactly the next character. A line comment that is still open at the end of the run
ends there; an open quotation or block comment is a failure, and so is an atom other than a character
inside any of the three.
-/

namespace WatScript

inductive LiteralState where
  | outside
  | quotation (escaped : Bool)
  | lineComment
  | blockComment
  deriving DecidableEq, Repr, Inhabited

def commentPiece (lv : Level) (seen : List Atom) (text : List Char) (block : Bool) : Piece :=
  .made seen.reverse (.comment lv (String.ofList text.reverse) block)

def quotationPiece (lv : Level) (seen : List Atom) (text : List Char) : Piece :=
  .made seen.reverse (.literal lv (String.ofList text.reverse))

/-- Scans a run from a given state. `seen` and `text` are the atoms and the text of the open literal,
last one first. -/
def scanLiterals (lv : Level) :
    LiteralState → List Atom → List Char → List Atom → Except ReadFault (List Piece)
  | .outside, _, _, [] => .ok []
  | .quotation _, _, _, [] => .error .quotationNotClosed
  | .blockComment, _, _, [] => .error .commentNotClosed
  | .lineComment, seen, text, [] => .ok [commentPiece lv seen text false]
  | .outside, _, _, .unknown l '/' :: .unknown l' '*' :: rest =>
    scanLiterals lv .blockComment [.unknown l' '*', .unknown l '/'] [] rest
  | .outside, _, _, .unknown l '/' :: .unknown l' '/' :: rest =>
    scanLiterals lv .lineComment [.unknown l' '/', .unknown l '/'] [] rest
  | .outside, _, _, .unknown l '"' :: rest =>
    scanLiterals lv (.quotation false) [.unknown l '"'] [] rest
  | .outside, _, _, a :: rest => do
    let pieces ← scanLiterals lv .outside [] [] rest
    return .kept a :: pieces
  | .quotation true, seen, text, .unknown l c :: rest =>
    scanLiterals lv (.quotation false) (.unknown l c :: seen) (c :: text) rest
  | .quotation false, seen, text, .unknown l '\\' :: rest =>
    scanLiterals lv (.quotation true) (.unknown l '\\' :: seen) text rest
  | .quotation false, seen, text, .unknown l '"' :: rest => do
    let pieces ← scanLiterals lv .outside [] [] rest
    return quotationPiece lv (.unknown l '"' :: seen) text :: pieces
  | .quotation false, seen, text, .unknown l c :: rest =>
    scanLiterals lv (.quotation false) (.unknown l c :: seen) (c :: text) rest
  | .lineComment, seen, text, .unknown l '\n' :: rest => do
    let pieces ← scanLiterals lv .outside [] [] rest
    return commentPiece lv (.unknown l '\n' :: seen) text false :: pieces
  | .lineComment, seen, text, .unknown l c :: rest =>
    scanLiterals lv .lineComment (.unknown l c :: seen) (c :: text) rest
  | .blockComment, seen, text, .unknown l '*' :: .unknown l' '/' :: rest => do
    let pieces ← scanLiterals lv .outside [] [] rest
    return commentPiece lv (.unknown l' '/' :: .unknown l '*' :: seen) text true :: pieces
  | .blockComment, seen, text, .unknown l c :: rest =>
    scanLiterals lv .blockComment (.unknown l c :: seen) (c :: text) rest
  | _, _, _, _ :: _ => .error .groupedLiteral

theorem scanLiterals_outside_nil (lv : Level) (seen : List Atom) (text : List Char) :
    scanLiterals lv .outside seen text [] = .ok [] := by
  rw [scanLiterals]

def cutLiterals (lv : Level) (run : List Atom) : Except ReadFault (List Piece) :=
  scanLiterals lv .outside [] [] run

def extractLiterals (lv : Level) (run : List Atom) : Except ReadFault (List Atom) :=
  (cutLiterals lv run).map atomsOf

end WatScript
