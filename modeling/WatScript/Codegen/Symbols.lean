import WatScript.Atom.Outline
import WatScript.Codegen.Number
import WatScript.Lexicon.Keyword

/-!
# Symbols

What generated code refers to outside its own instructions: locals to declare, hosts to import, and
whether linear memory is addressed. A word is a call if it is the callee of one, and a local if it is
neither a callee nor a literal nor reserved.
-/

namespace WatScript

def isReserved (w : String) : Bool := Keyword.isKeyword w || w == "let" || w == "mut"

def isNameable (w : String) : Bool := !isReserved w && !isNumeric w && w != Keyword.memory

def insertSorted (s : String) : List String → List String
  | [] => [s]
  | t :: rest => if s < t then s :: t :: rest else if s == t then t :: rest else t :: insertSorted s rest

def sortedUnique (xs : List String) : List String := xs.foldr insertSorted []

/-- One mention of a word: as the callee of a call, or elsewhere. -/
structure Mention where
  word : String
  isCallee : Bool
  deriving DecidableEq, Repr, Inhabited

mutual

def Atom.mentions : Atom → List Mention
  | .unknown .. | .literal .. | .comment .. | .operator .. => []
  | .word _ w => [⟨w, false⟩]
  | .block _ raw resolved body => if resolved then mentionsAll body else mentionsAll raw
  | .paren _ raw _ contents | .list _ raw _ contents | .item _ raw _ contents =>
    mentionsAll raw ++ mentionsAll contents
  | .call _ callee raw _ _ args =>
    (match callee with
      | .word _ w => [⟨w, true⟩]
      | callee => callee.mentions) ++ mentionsAll raw ++ mentionsAll args
  | .access _ callee raw _ index => callee.mentions ++ mentionsAll raw ++ mentionsAll index
  | .clause _ _ cond body => mentionsOption cond ++ body.mentions
  | .chain _ clauses => mentionsAll clauses
  | .exprStmt _ raw _ exprs | .controlStmt _ _ raw _ exprs => mentionsAll raw ++ mentionsAll exprs

def mentionsOption : Option Atom → List Mention
  | none => []
  | some a => a.mentions

def mentionsAll : List Atom → List Mention
  | [] => []
  | a :: rest => a.mentions ++ mentionsAll rest

end

/-- What generated code refers to; both lists are increasing and hold each name once. -/
structure Symbols where
  locals : List String
  calls : List String
  usesMemory : Bool
  deriving DecidableEq, Repr, Inhabited

namespace Symbols

def ofMentions (ms : List Mention) : Symbols :=
  let plain := (ms.filter (!·.isCallee)).map Mention.word
  { locals := sortedUnique (plain.filter isNameable)
    calls := sortedUnique ((ms.filter (·.isCallee)).map Mention.word)
    usesMemory := plain.contains Keyword.memory }

def ofRun (run : List Atom) : Symbols := ofMentions (mentionsAll run)

def localsExcept (s : Symbols) (params : List String) : List String :=
  s.locals.filter (!params.contains ·)

end Symbols

end WatScript
