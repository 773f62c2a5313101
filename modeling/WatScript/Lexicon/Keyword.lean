/-!
# Reserved words

Clause words introduce a clause of a chain, control words head a control statement. The sets are
closed.
-/

namespace WatScript.Keyword

def isClause (w : String) : Bool := ["if", "elif", "else", "loop", "for", "while"].contains w

def isChainHead (w : String) : Bool := ["if", "loop", "for", "while"].contains w

/-- The clause takes a parenthesized condition before its body. -/
def hasCondition (w : String) : Bool := ["if", "elif", "for", "while"].contains w

def isLoop (w : String) : Bool := ["for", "while"].contains w

def isControl (w : String) : Bool := ["return", "break", "continue", "assert"].contains w

def isKeyword (w : String) : Bool := isClause w || isControl w

def memory : String := "__mem"

end WatScript.Keyword
