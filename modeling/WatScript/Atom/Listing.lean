import WatScript.Atom.Basic
import WatScript.Text.Quoted

/-!
# Listings

A listing shows every field of a tree with its type, one per line. A sequence that was never filled is
shown as `<nil>`; one that was filled with nothing is shown as empty.
-/

namespace WatScript

inductive Listing where
  | scalar (text : String)
  /-- Named fields; `shared` if the record stands behind a reference. -/
  | record (type : String) (shared : Bool) (fields : List (String × Listing))
  /-- A sequence; `present` tells an empty one from one that was never filled. -/
  | sequence (type : String) (present : Bool) (items : List Listing)
  deriving Inhabited

namespace Listing

def int (n : Int) : Listing := .scalar ("(int) " ++ toString n)

def bool (b : Bool) : Listing := .scalar ("(bool) " ++ toString b)

def string (s : String) : Listing :=
  let length := if s.isEmpty then "" else "(len=" ++ toString s.utf8ByteSize ++ ") "
  .scalar ("(string) " ++ length ++ Text.quoteString s)

def absent (type : String) : Listing := .scalar ("(*" ++ type ++ ")(<nil>)")

/-- Puts a comma after every line group but the last one, and joins the groups. -/
def separate : List (List String) → List String
  | [] => []
  | [lines] => lines
  | lines :: rest =>
    lines.dropLast ++ (lines.getLast?.map (· ++ ",")).toList ++ separate rest

def named (name : String) : List String → List String
  | [] => []
  | line :: rest => (name ++ ": " ++ line) :: rest

def indent (lines : List String) : List String := lines.map ("  " ++ ·)

mutual

def lines : Listing → List String
  | .scalar text => [text]
  | .record type true fields =>
    ("(*" ++ type ++ ")(\x7b") :: indent (separate (fieldLines fields)) ++ ["\x7d)"]
  | .record type false fields =>
    ("(" ++ type ++ ") \x7b") :: indent (separate (fieldLines fields)) ++ ["\x7d"]
  | .sequence type _ (item :: rest) =>
    ("([]" ++ type ++ ") (len=" ++ toString (rest.length + 1) ++ ") \x7b") ::
      indent (separate (itemLines (item :: rest))) ++ ["\x7d"]
  | .sequence type true [] => ["([]" ++ type ++ ") \x7b", "\x7d"]
  | .sequence type false [] => ["([]" ++ type ++ ") <nil>"]

def fieldLines : List (String × Listing) → List (List String)
  | [] => []
  | (name, value) :: rest => named name value.lines :: fieldLines rest

def itemLines : List Listing → List (List String)
  | [] => []
  | item :: rest => item.lines :: itemLines rest

end

def text (l : Listing) : String := String.join (l.lines.map (· ++ "\n"))

def node (kind : String) (lv : Level) (fields : List (String × Listing)) : Listing :=
  let level := record "ast.Level" false [("Depth", int lv.depth.toInt), ("LoopDepth", int lv.loops.toInt)]
  .record ("ast." ++ kind) true (("Level", level) :: fields)

/-- Expressions; `present` if the sequence was filled even when it is empty. -/
def exprs (present : Bool) (items : List Listing) : Listing := .sequence "ast.Expr" present items

def deferred (kind : String) (lv : Level) (raw : List Listing) (resolved : Bool)
    (fields : List (String × Listing)) : Listing :=
  node kind lv (("Deferred",
    .record "ast.Deferred" false [("Raw", exprs false raw), ("Resolved", bool resolved)]) :: fields)

end Listing

mutual

def Atom.listing : Atom → Listing
  | .unknown lv c => .node "Unknown" lv [("Char", .scalar ("(int32) " ++ toString c.toNat))]
  | .literal lv text => .node "StringLit" lv [("Text", .string text)]
  | .comment lv text b => .node "Comment" lv [("Text", .string text), ("Block", .bool b)]
  | .word lv text => .node "Word" lv [("Text", .string text)]
  | .operator lv lexeme => .node "Operator" lv [("Lexeme", .string lexeme)]
  | .block lv raw resolved body =>
    .deferred "Block" lv (listings raw) resolved [("Body", .sequence "ast.Stmt" false (listings body))]
  | .paren lv raw resolved contents =>
    .deferred "ParenBlock" lv (listings raw) resolved
      [("Contents", .exprs resolved (listings contents))]
  | .list lv raw resolved contents =>
    .deferred "ListBlock" lv (listings raw) resolved [("Contents", .exprs false (listings contents))]
  | .item lv raw resolved contents =>
    .deferred "Item" lv (listings raw) resolved [("Contents", .exprs resolved (listings contents))]
  | .call lv callee raw resolved _ args =>
    .deferred "Func" lv (listings raw) resolved
      [("Callee", callee.listing), ("Args", .exprs false (listings args))]
  | .access lv callee raw resolved index =>
    .deferred "ListAccess" lv (listings raw) resolved
      [("Callee", callee.listing), ("Index", .exprs false (listings index))]
  | .clause lv name cond body =>
    .node "SyntaxClause" lv
      [("Name", .string name), ("Cond", listingOption cond), ("Body", body.listing)]
  | .chain lv clauses =>
    .node "SyntaxChain" lv [("Clauses", .sequence "*ast.SyntaxClause" true (listings clauses))]
  | .exprStmt lv raw resolved exprs =>
    .deferred "ExprStmt" lv (listings raw) resolved [("Exprs", .exprs resolved (listings exprs))]
  | .controlStmt lv head raw resolved exprs =>
    .deferred "ControlStmt" lv (listings raw) resolved
      [("Head", .string head), ("Exprs", .exprs resolved (listings exprs))]

def listingOption : Option Atom → Listing
  | none => .absent "ast.ParenBlock"
  | some a => a.listing

def listings : List Atom → List Listing
  | [] => []
  | a :: rest => a.listing :: listings rest

end

def listRun (run : List Atom) : String := String.join (run.map fun a => a.listing.text)

end WatScript
