import WatScript.Atom.Basic
import WatScript.Fault.Reading
import WatScript.Lexicon.Keyword

/-!
# Clauses and chains

A clause is a clause word, a condition in parentheses if the word takes one, and a block. Clauses that
stand side by side form chains: `if elif* else?`, `while else?`, `for else?` and `loop`.

`members` finds the clauses of a run and `phrases` joins them into chains; both keep hold of the atoms
they used up. `groupSyntax` is the pass itself.
-/

namespace WatScript

inductive Member where
  | given (a : Atom)
  /-- A clause put together from its word and the atoms after it. -/
  | fresh (word : Atom) (clause : Atom)
  deriving Repr, Inhabited

def Member.atom : Member → Atom
  | given a => a
  | fresh _ clause => clause

/-- Finds the clauses of a run. -/
def members (lv : Level) : List Atom → Except ReadFault (List Member)
  | [] => .ok []
  | .word l w :: rest =>
    if Keyword.isClause w then
      if Keyword.hasCondition w then
        match rest with
        | .paren pl praw pr pc :: .block bl braw br bb :: rest' => do
          let ms ← members lv rest'
          return .fresh (.word l w)
            (.clause lv w (some (.paren pl praw pr pc)) (.block bl braw br bb)) :: ms
        | .paren .. :: _ => .error .missingBody
        | _ => .error .missingCondition
      else
        match rest with
        | .block bl braw br bb :: rest' => do
          let ms ← members lv rest'
          return .fresh (.word l w) (.clause lv w none (.block bl braw br bb)) :: ms
        | _ => .error .missingBody
    else do
      let ms ← members lv rest
      return .given (.word l w) :: ms
  | a :: rest => do
    let ms ← members lv rest
    return .given a :: ms

inductive Phrase where
  | atom (a : Atom)
  | chain (clauses : List Member)
  deriving Repr, Inhabited

def Phrase.toAtom (lv : Level) : Phrase → Atom
  | atom a => a
  | chain clauses => .chain lv (clauses.map Member.atom)

/-- The word of the first clause of an open chain, whose clauses are listed last one first. -/
def openHead (clauses : List Member) : String :=
  ((clauses.getLast?.map Member.atom).map Atom.clauseName).getD ""

def closeChain : Option (List Member) → List Phrase
  | none => []
  | some clauses => [.chain clauses.reverse]

/-- Joins clauses into chains. The open chain lists its clauses last one first. -/
def joinClauses : Option (List Member) → List Member → Except ReadFault (List Phrase)
  | chain?, [] => .ok (closeChain chain?)
  | chain?, m :: rest =>
    match m.atom with
    | .clause _ name _ _ =>
      if Keyword.isChainHead name then do
        let ps ← joinClauses (some [m]) rest
        return closeChain chain? ++ ps
      else
        match chain? with
        | none => .error .orphanClause
        | some clauses =>
          if name == "elif" then
            if openHead clauses == "if" then joinClauses (some (m :: clauses)) rest
            else .error .clauseOrder
          else if name == "else" then
            if openHead clauses == "loop" then .error .clauseOrder
            -- an `else` is the last clause of its chain
            else do
              let ps ← joinClauses none rest
              return .chain (m :: clauses).reverse :: ps
          else .error .clauseOrder
    | a => do
      let ps ← joinClauses none rest
      return closeChain chain? ++ .atom a :: ps

def phrases (lv : Level) (run : List Atom) : Except ReadFault (List Phrase) := do
  let ms ← members lv run
  joinClauses none ms

/-- Replaces the clauses of a run by the chains they form. -/
def groupSyntax (lv : Level) (run : List Atom) : Except ReadFault (List Atom) :=
  (phrases lv run).map (List.map (Phrase.toAtom lv))

end WatScript
