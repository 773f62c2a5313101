import WatScript.Fault.Kind

/-!
# Failures of reading a source text

Lexing and parsing stop at the first failure. Each cause is a constructor; its kind and its message
are fixed.
-/

namespace WatScript

inductive ReadFault where
  | quotationNotClosed
  | commentNotClosed
  | braceNotClosed
  | braceNotOpened
  /-- Operator characters that form no lexeme, such as a lone `&`. -/
  | unknownSymbol
  /-- An already grouped atom stands inside an open literal. -/
  | groupedLiteral
  | orphanClause
  | clauseOrder
  | missingCondition
  | missingBody
  | unknownOperator
  | unexpectedSeparator
  | nestingTooDeep
  | unexpectedNode
  deriving DecidableEq, Repr, Inhabited

namespace ReadFault

def kind : ReadFault → Kind
  | quotationNotClosed | commentNotClosed | unknownSymbol => .lexical
  | braceNotClosed | braceNotOpened | nestingTooDeep => .structural
  | groupedLiteral | unexpectedNode => .internal
  | orphanClause | clauseOrder | missingCondition | missingBody => .grammar
  | unknownOperator => .operator
  | unexpectedSeparator => .shape

def message : ReadFault → String
  | quotationNotClosed => "lexer: quotation not closed"
  | commentNotClosed => "lexer: comment block not closed"
  | braceNotClosed => "lexer: brace not closed"
  | braceNotOpened => "lexer: brace not opened"
  | unknownSymbol => "lexer: unknown symbol"
  | groupedLiteral => "lexer: grouped atom inside literal"
  | orphanClause => "parser: elif or else without a preceding chain head"
  | clauseOrder => "parser: clause not allowed at this position of the chain"
  | missingCondition => "parser: clause requires a parenthesized condition"
  | missingBody => "parser: clause requires a block body"
  | unknownOperator => "parser: operator missing from precedence table"
  | unexpectedSeparator => "parser: unexpected separator in expression"
  | nestingTooDeep => "parser: nesting too deep"
  | unexpectedNode => "parser: unexpected node kind"

/-- The input ended inside a literal, a comment or a bracket, so more input could still mend it. -/
def isIncomplete : ReadFault → Bool
  | quotationNotClosed | commentNotClosed | braceNotClosed => true
  | _ => false

def diagnostic (f : ReadFault) : Diagnostic := ⟨f.kind, f.message⟩

end ReadFault

end WatScript
