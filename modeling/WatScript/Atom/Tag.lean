import WatScript.Atom.Basic

/-!
# Tags

Two trees can hold the same atom: a run, say, and the statements it was cut into. What happens to the
atom in one of them then shows in the other. Tags say which atoms are the same: `tagAll` gives one to
every atom that has none, wherever it is in a tree, and `graftAll` puts the present form of atoms into a
tree wherever their tags stand.

Tags are handed out in order from one, so that a table of atoms by tag is an array.
-/

namespace WatScript

def Level.assignTag (lv : Level) : StateM Nat Level := fun next =>
  if lv.tag == 0 then ({ lv with tag := next }, next + 1) else (lv, next)

mutual

/-- Gives a tag to an atom and to every atom in it that has none; the state is the next tag. -/
def Atom.assignTags (a : Atom) : StateM Nat Atom := do
  let lv ← a.level.assignTag
  match a with
  | .unknown _ c => return .unknown lv c
  | .literal _ text => return .literal lv text
  | .comment _ text b => return .comment lv text b
  | .word _ text => return .word lv text
  | .operator _ lexeme => return .operator lv lexeme
  | .block _ raw r body => return .block lv (← assignTagsAll raw) r (← assignTagsAll body)
  | .paren _ raw r contents => return .paren lv (← assignTagsAll raw) r (← assignTagsAll contents)
  | .list _ raw r contents => return .list lv (← assignTagsAll raw) r (← assignTagsAll contents)
  | .item _ raw r contents => return .item lv (← assignTagsAll raw) r (← assignTagsAll contents)
  | .call _ callee raw r s args =>
    return .call lv (← callee.assignTags) (← assignTagsAll raw) r s (← assignTagsAll args)
  | .access _ callee raw r index =>
    return .access lv (← callee.assignTags) (← assignTagsAll raw) r (← assignTagsAll index)
  | .clause _ name cond body =>
    return .clause lv name (← assignTagsOption cond) (← body.assignTags)
  | .chain _ clauses => return .chain lv (← assignTagsAll clauses)
  | .exprStmt _ raw r exprs => return .exprStmt lv (← assignTagsAll raw) r (← assignTagsAll exprs)
  | .controlStmt _ head raw r exprs =>
    return .controlStmt lv head (← assignTagsAll raw) r (← assignTagsAll exprs)

def assignTagsOption : Option Atom → StateM Nat (Option Atom)
  | none => return none
  | some a => return some (← a.assignTags)

def assignTagsAll : List Atom → StateM Nat (List Atom)
  | [] => return []
  | a :: rest => return (← a.assignTags) :: (← assignTagsAll rest)

end

/-- Gives tags in a run; the second part is the next tag after it. -/
def tagAll (next : Nat) (run : List Atom) : List Atom × Nat := (assignTagsAll run).run next

/-! ## Tables of atoms -/

abbrev TagTable := Array (Option Atom)

namespace TagTable

def empty (next : Nat) : TagTable := Array.replicate next none

def find? (t : TagTable) (tag : Nat) : Option Atom := if tag == 0 then none else (t[tag]?).join

def insert (t : TagTable) (a : Atom) : TagTable := t.setIfInBounds a.level.tag (some a)

end TagTable

mutual

def Atom.enterInto (t : TagTable) (a : Atom) : TagTable :=
  let t := t.insert a
  match a with
  | .unknown .. | .literal .. | .comment .. | .word .. | .operator .. => t
  | .block _ raw _ held | .paren _ raw _ held | .list _ raw _ held | .item _ raw _ held =>
    enterAll (enterAll t raw) held
  | .exprStmt _ raw _ held | .controlStmt _ _ raw _ held => enterAll (enterAll t raw) held
  | .call _ callee raw _ _ args => enterAll (enterAll (callee.enterInto t) raw) args
  | .access _ callee raw _ index => enterAll (enterAll (callee.enterInto t) raw) index
  | .clause _ _ cond body => body.enterInto (enterOption t cond)
  | .chain _ clauses => enterAll t clauses

def enterOption (t : TagTable) : Option Atom → TagTable
  | none => t
  | some a => a.enterInto t

def enterAll (t : TagTable) : List Atom → TagTable
  | [] => t
  | a :: rest => enterAll (a.enterInto t) rest

end

mutual

/-- Replaces every atom that stands in the table, outermost first. -/
def Atom.graft (t : TagTable) (a : Atom) : Atom :=
  match t.find? a.level.tag with
  | some a' => a'
  | none =>
    match a with
    | .unknown .. | .literal .. | .comment .. | .word .. | .operator .. => a
    | .block lv raw r body => .block lv (graftAll t raw) r (graftAll t body)
    | .paren lv raw r contents => .paren lv (graftAll t raw) r (graftAll t contents)
    | .list lv raw r contents => .list lv (graftAll t raw) r (graftAll t contents)
    | .item lv raw r contents => .item lv (graftAll t raw) r (graftAll t contents)
    | .call lv callee raw r s args =>
      .call lv (callee.graft t) (graftAll t raw) r s (graftAll t args)
    | .access lv callee raw r index =>
      .access lv (callee.graft t) (graftAll t raw) r (graftAll t index)
    | .clause lv name cond body => .clause lv name (graftOption t cond) (body.graft t)
    | .chain lv clauses => .chain lv (graftAll t clauses)
    | .exprStmt lv raw r exprs => .exprStmt lv (graftAll t raw) r (graftAll t exprs)
    | .controlStmt lv head raw r exprs =>
      .controlStmt lv head (graftAll t raw) r (graftAll t exprs)

def graftOption (t : TagTable) : Option Atom → Option Atom
  | none => none
  | some a => some (a.graft t)

def graftAll (t : TagTable) : List Atom → List Atom
  | [] => []
  | a :: rest => a.graft t :: graftAll t rest

end

end WatScript
