import WatScript.Fault.Reading
import WatScript.Lexicon.Char
import WatScript.Lexing.Piece

/-!
# Bracket grouping

The second lexing pass collapses the outermost brackets of a run into unresolved atoms. The three
pairs are grouped one after the other, braces first, so an inner pair is never split before the
enclosing one is found.
-/

namespace WatScript

def Bracket.atom (pair : Bracket) (lv : Level) (raw : List Atom) : Atom :=
  match pair with
  | .brace => .block lv raw false []
  | .square => .list lv raw false []
  | .round => .paren lv raw false []

/-- An open group: the atom that opened it, how many further pairs are open inside, and what it
holds so far, last one first. -/
structure OpenGroup where
  opener : Atom
  inner : Nat
  held : List Atom
  deriving Repr, Inhabited

def scanBrackets (pair : Bracket) (lv : Level) :
    Option OpenGroup → List Atom → Except ReadFault (List Piece)
  | none, [] => .ok []
  | some _, [] => .error .braceNotClosed
  | none, .unknown l c :: rest =>
    if c == pair.opener then scanBrackets pair lv (some ⟨.unknown l c, 0, []⟩) rest
    else if c == pair.closer then .error .braceNotOpened
    else do
      let pieces ← scanBrackets pair lv none rest
      return .kept (.unknown l c) :: pieces
  | some g, .unknown l c :: rest =>
    if c == pair.opener then
      scanBrackets pair lv (some ⟨g.opener, g.inner + 1, .unknown l c :: g.held⟩) rest
    else if c == pair.closer then
      match g.inner with
      | 0 => do
        let pieces ← scanBrackets pair lv none rest
        return .wrapped g.opener (.unknown l c) (pair.atom lv g.held.reverse) :: pieces
      | n + 1 => scanBrackets pair lv (some ⟨g.opener, n, .unknown l c :: g.held⟩) rest
    else scanBrackets pair lv (some ⟨g.opener, g.inner, .unknown l c :: g.held⟩) rest
  | none, a :: rest => do
    let pieces ← scanBrackets pair lv none rest
    return .kept a :: pieces
  | some g, a :: rest => scanBrackets pair lv (some ⟨g.opener, g.inner, a :: g.held⟩) rest

theorem scanBrackets_none_nil (pair : Bracket) (lv : Level) :
    scanBrackets pair lv none [] = .ok [] := by
  rw [scanBrackets]

def cutBrackets (pair : Bracket) (lv : Level) (run : List Atom) : Except ReadFault (List Piece) :=
  scanBrackets pair lv none run

def groupPair (pair : Bracket) (lv : Level) (run : List Atom) : Except ReadFault (List Atom) :=
  (cutBrackets pair lv run).map atomsOf

def groupBrackets (lv : Level) (run : List Atom) : Except ReadFault (List Atom) :=
  Bracket.all.foldlM (fun atoms pair => groupPair pair lv atoms) run

end WatScript
