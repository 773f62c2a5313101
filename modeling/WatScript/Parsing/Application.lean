import WatScript.Atom.Basic
import WatScript.Lexicon.Keyword

/-!
# Calls and subscripts

A bracket directly after a callable atom applies to it: parentheses make a call, square brackets a
subscript. The result is callable again, so `f(1)[2](3)` is one atom that nests from left to right.
Argument runs stay unread.
-/

namespace WatScript

def Atom.isCallable : Atom → Bool
  | .word _ text => !Keyword.isKeyword text
  | .call .. | .access .. | .chain .. => true
  | _ => false

def Atom.isArgumentBracket : Atom → Bool
  | .paren .. | .list .. => true
  | _ => false

def Atom.applyTo (callee : Atom) : Atom → Atom
  | .paren lv raw _ _ => .call lv.bare callee raw false false []
  | .list lv raw _ _ => .access lv.bare callee raw false []
  | a => a

/-- An atom with the brackets that apply to it, first one first. -/
structure Application where
  head : Atom
  brackets : List Atom
  deriving Repr, Inhabited

namespace Application

def atom (p : Application) : Atom := p.brackets.foldl Atom.applyTo p.head

/-- The next atom of the run applies to what has been read so far. -/
def takes (p : Application) (a : Atom) : Bool :=
  a.isArgumentBracket && (!p.brackets.isEmpty || p.head.isCallable)

def push (p : Application) (a : Atom) : Application := { p with brackets := p.brackets ++ [a] }

end Application

/-- Cuts a run into atoms with the brackets that apply to them, starting with an open application. -/
def applicationsFrom : Option Application → List Atom → List Application
  | none, [] => []
  | some p, [] => [p]
  | none, a :: rest => applicationsFrom (some ⟨a, []⟩) rest
  | some p, a :: rest =>
    if p.takes a then applicationsFrom (some (p.push a)) rest
    else p :: applicationsFrom (some ⟨a, []⟩) rest

def applications (run : List Atom) : List Application := applicationsFrom none run

/-- One round of merging: every callable atom takes the brackets directly after it. The flag says
whether anything was merged. -/
def mergeCalls (run : List Atom) : List Atom × Bool :=
  let ps := applications run
  (ps.map Application.atom, ps.any fun p => !p.brackets.isEmpty)

/-- Merges calls and subscripts. What one round leaves has nothing left to merge, since an
application is callable and has already taken every bracket after it. -/
def groupCalls (run : List Atom) : List Atom := (mergeCalls run).1

end WatScript
