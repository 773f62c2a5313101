import WatScript.Proofs.Reading

/-!
# Resolved trees

The grammar of what reading produces. Every atom of a tree is resolved, and its level is the level of
the run it stands in: one deeper inside each bracket, and one loop deeper in the body of a `while` or
`for` clause. `ExprTree`, `ItemTree`, `ClauseTree` and `StmtTree` are the trees of expressions, operand
slots, clauses and statements. `parseExpr_trees` and `parseStmts_trees` say that reading yields such
trees, and fails only for reasons that a source text can give.
-/

namespace WatScript

mutual

/-- A resolved expression at a level. -/
inductive ExprTree : Level → Atom → Prop
  | literal {lv text} : ExprTree lv (.literal lv text)
  | word {lv w} : w ≠ "" → ExprTree lv (.word lv w)
  | block {lv body} : (∀ s ∈ body, StmtTree lv.enter s) → ExprTree lv (.block lv [] true body)
  | paren {lv contents} : (∀ a ∈ contents, ExprTree lv.enter a) →
      ExprTree lv (.paren lv [] true contents)
  | list {lv items} : (∀ a ∈ items, ItemTree lv.enter a) → ExprTree lv (.list lv [] true items)
  | operation {lv o left right} : (Operator.find? o).isSome → ItemTree lv left → ItemTree lv right →
      ExprTree lv (.call lv (.operator lv o) [] true true [left, right])
  | call {lv callee args} : callee.isCallable = true →
      ExprTree lv callee → (∀ a ∈ args, ItemTree lv.enter a) →
      ExprTree lv (.call lv callee [] true true args)
  | access {lv callee index} : callee.isCallable = true →
      ExprTree lv callee → (∀ a ∈ index, ItemTree lv.enter a) →
      ExprTree lv (.access lv callee [] true index)
  | chain {lv clauses} : isChainOf (clauses.map Atom.clauseName) = true →
      (∀ c ∈ clauses, ClauseTree lv c) → ExprTree lv (.chain lv clauses)

/-- A resolved operand slot at a level. -/
inductive ItemTree : Level → Atom → Prop
  | intro {lv contents} : (∀ a ∈ contents, ExprTree lv a) → ItemTree lv (.item lv [] true contents)

/-- A resolved clause at a level. -/
inductive ClauseTree : Level → Atom → Prop
  | conditional {lv name cond body} :
      Keyword.isClause name = true → Keyword.hasCondition name = true →
      (∀ a ∈ cond, ExprTree lv.enter a) → (∀ s ∈ body, StmtTree (bodyLevel lv name) s) →
      ClauseTree lv (.clause lv name (some (.paren lv [] true cond)) (.block lv [] true body))
  | unconditional {lv name body} :
      Keyword.isClause name = true → Keyword.hasCondition name = false →
      (∀ s ∈ body, StmtTree (bodyLevel lv name) s) →
      ClauseTree lv (.clause lv name none (.block lv [] true body))

/-- A resolved statement at a level. -/
inductive StmtTree : Level → Atom → Prop
  | comment {lv text block} : StmtTree lv (.comment lv text block)
  | exprs {lv exprs} : (∀ a ∈ exprs, ExprTree lv a) → StmtTree lv (.exprStmt lv [] true exprs)
  | control {lv head exprs} : Keyword.isControl head = true →
      (∀ a ∈ exprs, ExprTree lv a) → StmtTree lv (.controlStmt lv head [] true exprs)

end

/-! ## Readings are trees -/

theorem ReadsExpr.isCallable_eq {lv a a'} (h : ReadsExpr lv a a') :
    a'.isCallable = a.isCallable := by
  cases h <;> rfl

theorem ReadsClause.clauseName_eq {lv a a'} (h : ReadsClause lv a a') :
    a'.clauseName = a.clauseName := by
  cases h <;> rfl

theorem clauseNames_eq {lv : Level} {as bs : List Atom} (hn : as.length = bs.length)
    (h : ∀ a b, (a, b) ∈ as.zip bs → ReadsClause lv a b) :
    bs.map Atom.clauseName = as.map Atom.clauseName := by
  have hr : List.Forall₂ (ReadsClause lv) as bs := List.forall₂_iff_zip.2 ⟨hn, fun hz => h _ _ hz⟩
  induction hr with
  | nil => rfl
  | cons hc _ ih =>
    rw [List.map_cons, List.map_cons, hc.clauseName_eq, ih (by simpa using hn)]
    exact fun a b hz => h a b (List.mem_cons_of_mem _ hz)

mutual

/-- What is read is a tree. -/
theorem ReadsRun.trees : ∀ {lv raw out}, ReadsRun lv raw out → ∀ b ∈ out, ExprTree lv b
  | _, _, _, .intro _ _ _ _ hn h, b, hb =>
    have ⟨a, hz⟩ := exists_zip_of_mem hn hb
    (h a b hz).tree

theorem ReadsStmts.trees : ∀ {lv raw out}, ReadsStmts lv raw out → ∀ b ∈ out, StmtTree lv b
  | _, _, _, .intro _ _ _ hn h, b, hb =>
    have ⟨a, hz⟩ := exists_zip_of_mem hn hb
    (h a b hz).tree

theorem ReadsSlots.trees : ∀ {lv raw out}, ReadsSlots lv raw out → ∀ b ∈ out, ItemTree lv b
  | _, _, _, .intro _ _ _ hn h, b, hb =>
    have ⟨a, hz⟩ := exists_zip_of_mem hn hb
    (h a b hz).tree

theorem ReadsExpr.tree : ∀ {lv a a'}, ReadsExpr lv a a' → ExprTree lv a'
  | _, _, _, .literal => .literal
  | _, _, _, .word hw => .word hw
  | _, _, _, .block h => .block h.trees
  | _, _, _, .paren h => .paren h.trees
  | _, _, _, .list h => .list h.trees
  | _, _, _, .operation ho hl hr => .operation ho hl.tree hr.tree
  | _, _, _, .call hc h hs => .call (h.isCallable_eq.trans hc) h.tree hs.trees
  | _, _, _, .access hc h hs => .access (h.isCallable_eq.trans hc) h.tree hs.trees
  | _, _, _, .chain hw hn h => .chain (by rw [clauseNames_eq hn h]; exact hw) fun b hb =>
    have ⟨a, hz⟩ := exists_zip_of_mem hn hb
    (h a b hz).tree

theorem ReadsItem.tree : ∀ {lv a a'}, ReadsItem lv a a' → ItemTree lv a'
  | _, _, _, .intro h => .intro h.trees

theorem ReadsClause.tree : ∀ {lv a a'}, ReadsClause lv a a' → ClauseTree lv a'
  | _, _, _, .conditional hn hc h hb => .conditional hn hc h.trees hb.trees
  | _, _, _, .unconditional hn hc hb => .unconditional hn hc hb.trees

theorem ReadsStmt.tree : ∀ {lv a a'}, ReadsStmt lv a a' → StmtTree lv a'
  | _, _, _, .comment => .comment
  | _, _, _, .exprs _ _ _ hn h => .exprs fun b hb =>
    have ⟨a, hz⟩ := exists_zip_of_mem hn hb
    (h a b hz).tree
  | _, _, _, .control _ hc _ _ hn h => .control hc fun b hb =>
    have ⟨a, hz⟩ := exists_zip_of_mem hn hb
    (h a b hz).tree

end

theorem parseExpr_trees (limit : Int64) (text : Text) :
    Ends (fun exprs => ∀ a ∈ exprs, ExprTree .top a) (·.isFromSource = true)
      (parseExpr limit text) :=
  (parseExpr_reads limit text).mono fun _ ⟨_, _, h⟩ => h.trees

theorem parseStmts_trees (limit : Int64) (text : Text) :
    Ends (fun stmts => ∀ a ∈ stmts, StmtTree .top a) (·.isFromSource = true)
      (parseStmts limit text) :=
  (parseStmts_reads limit text).mono fun _ ⟨_, _, h⟩ => h.trees

end WatScript
