import WatScript.Proofs.Agreement
import WatScript.Proofs.Lowered

/-!
# Comments generate no code

The comments of resolved trees stand among the statements of a text or of a body, never in an
expression. Taking them out of a list of statements changes nothing in the code that is generated for
it, nor in the failure of generating it (`generateStmts_tidy`).
-/

namespace WatScript

open List Atom

/-! ## Trees without comments -/

section
variable {lv : Level} {a : Atom} {as : List Atom} {keep : Bool}

@[simp] theorem Atom.tidy_word (l : Level) (w : String) : (Atom.word l w).tidy keep = .word l w := rfl

@[simp] theorem Atom.tidy_operator (l : Level) (o : String) :
    (Atom.operator l o).tidy keep = .operator l o := rfl

theorem tidyAll_of_noComment (h : ∀ a ∈ as, a.isComment = false) :
    tidyAll false as = as.map (tidy false) := by
  induction as with
  | nil => rfl
  | cons a as ih =>
    obtain ⟨ha, has⟩ := forall_mem_cons.1 h
    rw [tidyAll_cons_kept (by simp [isKept, ha]), ih has, map_cons]

theorem ExprTree.isComment (h : ExprTree lv a) : a.isComment = false := by
  cases h <;> rfl

theorem ItemTree.isComment (h : ItemTree lv a) : a.isComment = false := by
  cases h
  rfl

theorem ClauseTree.isComment (h : ClauseTree lv a) : a.isComment = false := by
  cases h <;> rfl

theorem ClauseTree.settled_tidy (h : ClauseTree lv a) : (a.tidy keep).clauseSettled = true := by
  cases h <;> rfl

theorem ExprTree.isReady_tidy (h : ExprTree lv a) : (a.tidy false).isReady = true := by
  cases h with
  | @chain _ clauses hw hc =>
    rw [tidy, tidyAll_of_noComment fun c hm => (hc c hm).isComment]
    have hall : (clauses.map (tidy false)).all clauseSettled = true := by
      rw [all_map, all_eq_true]
      exact fun c hm => (hc c hm).settled_tidy
    rw [Atom.isReady, isResolved?, hall]
    rfl
  | _ => rfl

theorem Atom.tidy_eq_word {l w} : a.tidy keep = .word l w ↔ a = .word l w := by
  cases a <;> simp [tidy]

theorem Atom.isItem_tidy : (a.tidy keep).isItem = a.isItem := by
  cases a <;> rfl

theorem ItemTree.isEmptyItem?_tidy (h : ItemTree lv a) :
    (a.tidy false).isEmptyItem? = a.isEmptyItem? := by
  cases h with
  | intro h =>
    rw [tidy, tidyAll_of_noComment fun b hb => (h b hb).isComment]
    simp [isEmptyItem?]

end

/-! ## Code of expressions -/

section
variable {lv : Level}

theorem genSingle_map {contents} (h : ∀ a ∈ contents, genExpr (a.tidy false) = genExpr a) :
    genSingle (contents.map (tidy false)) = genSingle contents := by
  match contents, h with
  | [], _ => rfl
  | [a], h => exact h a mem_cons_self
  | a :: b :: rest, _ => rfl

theorem genEach_map {args} (h : ∀ a ∈ args, genExpr (a.tidy false) = genExpr a) :
    genEach (args.map (tidy false)) = genEach args := by
  induction args with
  | nil => rfl
  | cons a args ih =>
    obtain ⟨ha, hargs⟩ := forall_mem_cons.1 h
    rw [map_cons, genEach, genEach, ha, ih hargs]

theorem genCell_map {callee index} (hc : ExprTree lv callee)
    (h : ∀ a ∈ index, genExpr (a.tidy false) = genExpr a) (resolved : Bool) :
    genCell (callee.tidy false) resolved (index.map (tidy false)) =
      genCell callee resolved index := by
  unfold genCell
  cases hc with
  | word =>
    cases index with
    | nil => rfl
    | cons a rest =>
      cases rest with
      | nil =>
        rw [map_cons, map_nil]
        simp only [h a mem_cons_self]
        rfl
      | cons => rfl
  | _ => rfl

theorem genOperation_tidy {o left right} (hl : ItemTree lv left)
    (hleft : genExpr (left.tidy false) = genExpr left)
    (hright : genExpr (right.tidy false) = genExpr right) :
    genOperation o [left.tidy false, right.tidy false] = genOperation o [left, right] := by
  rw [genOperation, genOperation, isItem_tidy, isItem_tidy, hl.isEmptyItem?_tidy, hleft,
    hright]

mutual

theorem ExprTree.genExpr_tidy : ∀ {lv a}, ExprTree lv a → genExpr (a.tidy false) = genExpr a
  | _, _, .literal => rfl
  | _, _, .word _ => rfl
  | _, _, .block h => by rw [tidy, genExpr, genExpr]; rfl
  | _, _, .paren h => by
    rw [tidy, tidyAll_of_noComment fun a ha => (h a ha).isComment, genExpr, genExpr]
    rw [genSingle_map fun a ha => (h a ha).genExpr_tidy]
    rfl
  | _, _, .list h => by rw [tidy, genExpr, genExpr]; rfl
  | _, _, .operation ho hl hr => by
    rw [tidy, tidyAll_of_noComment (by simp [hl.isComment, hr.isComment]), tidy_operator,
      genExpr, genExpr]
    exact congrArg _ (funext fun _ => genOperation_tidy hl hl.genExpr_tidy hr.genExpr_tidy)
  | _, _, .call hcall hc h => by
    have hargs := genEach_map fun a ha => (h a ha).genExpr_tidy
    rw [tidy, tidyAll_of_noComment fun a ha => (h a ha).isComment]
    cases hc with
    | word hw =>
      rw [tidy_word, genExpr, genExpr, hargs]
      rfl
    | _ =>
      unfold genExpr
      rfl
  | _, _, .access hcall hc h => by
    rw [tidy, tidyAll_of_noComment fun a ha => (h a ha).isComment, genExpr, genExpr]
    rw [genCell_map hc fun a ha => (h a ha).genExpr_tidy]
    rfl
  | _, _, .chain hw h => by
    have hready := (ExprTree.chain hw h).isReady
    have htidy := (ExprTree.chain hw h).isReady_tidy
    rw [tidy] at htidy ⊢
    rw [genExpr, genExpr, hready, htidy]

theorem ItemTree.genExpr_tidy : ∀ {lv a}, ItemTree lv a → genExpr (a.tidy false) = genExpr a
  | _, _, .intro h => by
    rw [tidy, tidyAll_of_noComment fun a ha => (h a ha).isComment, genExpr, genExpr]
    rw [genSingle_map fun a ha => (h a ha).genExpr_tidy]
    rfl

end

end

/-! ## Code of statements -/

section
variable {lv : Level}

theorem map_tidy_eq_words {as bs : List Atom} (h : as.map (tidy false) = bs)
    (hb : ∀ b ∈ bs, ∃ l w, b = .word l w) : as = bs := by
  induction bs generalizing as with
  | nil => exact map_eq_nil_iff.1 h
  | cons b bs ih =>
    obtain ⟨a, as, rfl, ha, has⟩ := map_eq_cons_iff.1 h
    obtain ⟨l, w, rfl⟩ := hb b mem_cons_self
    rw [tidy_eq_word.1 ha, ih has fun b hm => hb b (mem_cons_of_mem _ hm)]

theorem declared?_map (contents : List Atom) :
    declared? (contents.map (tidy false)) = declared? contents := by
  fun_cases declared? contents with
  | case1 _ _ name h | case2 _ _ name h | case3 _ _ _ name h | case4 _ _ _ name h =>
    simp [declared?, h]
  | case5 _ htwo hthree =>
    unfold declared?
    split
    · rename_i heq
      exact absurd (map_tidy_eq_words heq (by simp)) (htwo _ _ _)
    · rename_i heq
      exact absurd (map_tidy_eq_words heq (by simp)) (hthree _ _ _ _)
    · rfl

theorem genSetLocal_tidy (name : String) (op : Option BinOp) {right} (hr : ItemTree lv right) :
    genSetLocal name op (right.tidy false) = genSetLocal name op right := by
  rw [genSetLocal, genSetLocal, hr.genExpr_tidy]

theorem genStore_tidy (address : Gen Unit) (op : Option BinOp) {right} (hr : ItemTree lv right) :
    genStore address op (right.tidy false) = genStore address op right := by
  rw [genStore, genStore, hr.genExpr_tidy]

theorem genAssignTo_tidy {contents} (op : Option BinOp) {right}
    (h : ∀ a ∈ contents, ExprTree lv a) (hr : ItemTree lv right) :
    genAssignTo (contents.map (tidy false)) op (right.tidy false) =
      genAssignTo contents op right := by
  unfold genAssignTo
  rw [declared?_map]
  cases declared? contents with
  | some name => simp only [genSetLocal_tidy _ _ hr]
  | none =>
    match contents, h with
    | [], _ => rfl
    | [a], h =>
      cases h a mem_cons_self with
      | word => simp only [map_cons, map_nil, tidy_word, genSetLocal_tidy _ _ hr]
      | access hcall hc hi =>
        have hcell := genCell_map hc (fun a ha => (hi a ha).genExpr_tidy) true
        rw [map_cons, map_nil, tidy,
          tidyAll_of_noComment fun a ha => (hi a ha).isComment]
        cases hc with
        | access => rfl
        | _ => simp only [tidy] at hcell ⊢; rw [hcell, genStore_tidy _ _ hr]
      | _ => rfl
    | a :: b :: rest, h => cases h a mem_cons_self <;> rfl

theorem genAssign_tidy (o : String) {left right} (hl : ItemTree lv left) (hr : ItemTree lv right) :
    genAssign o [left.tidy false, right.tidy false] = genAssign o [left, right] := by
  cases hl with
  | intro hcontents =>
    have hassign := fun op => genAssignTo_tidy op hcontents hr
    cases hr with
    | intro =>
      rw [tidy, tidyAll_of_noComment fun a ha => (hcontents a ha).isComment]
      simp only [tidy] at hassign ⊢
      simp only [genAssign, hassign]

theorem genControl_map (loops : Int64) (head : String) {exprs} (h : ∀ a ∈ exprs, ExprTree lv a) :
    genControl loops head (exprs.map (tidy false)) = genControl loops head exprs := by
  have hsingle := genSingle_map fun a ha => (h a ha).genExpr_tidy
  have hjump : ∀ label, genControl.genJump loops (exprs.map (tidy false)) label =
      genControl.genJump loops exprs label := by
    intro label
    simp only [genControl.genJump, isEmpty_map]
  unfold genControl
  split
  · match exprs, h with
    | [], _ => rfl
    | [a], h =>
      simp only [map_cons, map_nil, (h a mem_cons_self).genExpr_tidy]
    | a :: b :: rest, _ => rfl
  · exact hjump _
  · exact hjump _
  · rw [hsingle]
  · rfl

theorem genStmts_tidy {inBody stmts}
    (h : ∀ s ∈ stmts, StmtTree lv s ∧ genStmt inBody (s.tidy false) = genStmt inBody s) :
    genStmts inBody (tidyAll false stmts) = genStmts inBody stmts := by
  induction stmts with
  | nil => rfl
  | cons s stmts ih =>
    obtain ⟨⟨ht, hs⟩, hstmts⟩ := forall_mem_cons.1 h
    cases ht with
    | comment =>
      rw [tidyAll_cons_dropped rfl, ih hstmts, genStmts, genStmt]
      rfl
    | _ => rw [tidyAll_cons_kept rfl, genStmts, hs, ih hstmts, genStmts]

/-- Every statement in the body of a clause generates the same without its comments. -/
def BodyTidies (lv : Level) (c : Atom) : Prop :=
  ∀ s ∈ c.bodyStmts, StmtTree (bodyLevel lv c.clauseName) s ∧
    genStmt true (s.tidy false) = genStmt true s

theorem genArms_map {clauses} (hc : ∀ c ∈ clauses, ClauseTree lv c)
    (hb : ∀ c ∈ clauses, BodyTidies lv c) (isFirst : Bool) :
    genArms isFirst (clauses.map (tidy false)) = genArms isFirst clauses := by
  induction clauses generalizing isFirst with
  | nil => rfl
  | cons c clauses ih =>
    obtain ⟨hc, hclauses⟩ := forall_mem_cons.1 hc
    obtain ⟨hb, hbodies⟩ := forall_mem_cons.1 hb
    have hbody := genStmts_tidy hb
    have hrest := ih hclauses hbodies false
    cases hc with
    | conditional _ _ hcond _ =>
      have hparen := (ExprTree.paren hcond).genExpr_tidy
      simp only [tidy, bodyStmts] at hparen hbody
      simp only [map_cons, tidy, tidyOption, genArms, genCondition, genBody, hparen, hbody,
        hrest]
    | unconditional _ _ _ =>
      simp only [bodyStmts] at hbody
      simp only [map_cons, tidy, tidyOption, genArms, genCondition, genBody, hbody, hrest]

theorem genWhile_tidy {c} (hc : ClauseTree lv c) (hb : BodyTidies lv c) :
    genWhile (c.tidy false) = genWhile c := by
  have hbody := genStmts_tidy hb
  cases hc with
  | conditional _ _ hcond _ =>
    have hparen := (ExprTree.paren hcond).genExpr_tidy
    simp only [tidy, bodyStmts] at hparen hbody
    simp only [tidy, tidyOption, genWhile, genCondition, genBody, hparen, hbody]
    rfl
  | unconditional _ _ _ =>
    simp only [bodyStmts] at hbody
    simp only [tidy, tidyOption, genWhile, genCondition, genBody, hbody]

theorem Atom.clauseName_tidy (a : Atom) : (a.tidy false).clauseName = a.clauseName := by
  cases a <;> rfl

theorem genChain_tidy {clauses} (inBody : Bool)
    (hw : isChainOf (clauses.map clauseName) = true) (hc : ∀ c ∈ clauses, ClauseTree lv c)
    (hb : ∀ c ∈ clauses, BodyTidies lv c) :
    genExprStmt inBody [(Atom.chain lv clauses).tidy false] =
      genExprStmt inBody [.chain lv clauses] := by
  have hready := (ExprTree.chain hw hc).isReady
  have htidy := (ExprTree.chain hw hc).isReady_tidy
  have hhead : (Atom.chain lv (clauses.map (tidy false))).chainHead? =
      (Atom.chain lv clauses).chainHead? := by
    simp [chainHead?, Function.comp_def, clauseName_tidy]
  rw [tidy, tidyAll_of_noComment fun c hm => (hc c hm).isComment] at htidy ⊢
  unfold genExprStmt
  simp only [hready, htidy, hhead, genArms_map hc hb]
  -- only a loop looks at the number of clauses
  cases clauses with
  | nil => rfl
  | cons c rest =>
    cases rest with
    | nil =>
      simp only [map_cons, map_nil,
        genWhile_tidy (hc c mem_cons_self) (hb c mem_cons_self)]
    | cons => rfl

theorem ExprTree.genValue_tidy {a} (h : ExprTree lv a) (hchain : a.chainHead? = none)
    (inBody : Bool) : genExprStmt inBody [a.tidy false] = genExprStmt inBody [a] := by
  have hvalue := h.genExpr_tidy
  unfold genExprStmt
  cases h with
  | chain => cases hchain
  | literal | word => rfl
  | operation _ hl hr =>
    rw [tidy, tidyAll_of_noComment (by simp [hl.isComment, hr.isComment])] at hvalue ⊢
    simp only [tidy_operator, map_cons, map_nil, genAssign_tidy _ hl hr] at hvalue ⊢
    rw [hvalue]
  | call _ hc _ =>
    cases hc <;> exact hvalue
  | _ =>
    simp only [tidy] at hvalue ⊢
    simp only [hvalue]

theorem genExprStmt_map {exprs inBody}
    (h : ∀ a ∈ exprs, genExprStmt inBody [a.tidy false] = genExprStmt inBody [a]) :
    genExprStmt inBody (exprs.map (tidy false)) = genExprStmt inBody exprs := by
  match exprs, h with
  | [], _ => rfl
  | [a], h => exact h a mem_cons_self
  | a :: b :: rest, _ =>
    have hd := declared?_map (a :: b :: rest)
    simp only [map_cons] at hd ⊢
    unfold genExprStmt
    rw [hd]

mutual

theorem ExprTree.genExprStmt_tidy : ∀ {lv a}, ExprTree lv a → ∀ inBody : Bool,
    genExprStmt inBody [a.tidy false] = genExprStmt inBody [a]
  | _, _, .chain hw hc, inBody => genChain_tidy inBody hw hc fun c hm => (hc c hm).bodyTidies
  | _, _, .literal, inBody => ExprTree.literal.genValue_tidy rfl inBody
  | _, _, .word hw, inBody => (ExprTree.word hw).genValue_tidy rfl inBody
  | _, _, .block h, inBody => (ExprTree.block h).genValue_tidy rfl inBody
  | _, _, .paren h, inBody => (ExprTree.paren h).genValue_tidy rfl inBody
  | _, _, .list h, inBody => (ExprTree.list h).genValue_tidy rfl inBody
  | _, _, .operation ho hl hr, inBody => (ExprTree.operation ho hl hr).genValue_tidy rfl inBody
  | _, _, .call hcall hc h, inBody => (ExprTree.call hcall hc h).genValue_tidy rfl inBody
  | _, _, .access hcall hc h, inBody => (ExprTree.access hcall hc h).genValue_tidy rfl inBody

theorem ClauseTree.bodyTidies : ∀ {lv c}, ClauseTree lv c → BodyTidies lv c
  | _, _, .conditional _ _ _ hb, s, hs => ⟨hb s hs, (hb s hs).genStmt_tidy true⟩
  | _, _, .unconditional _ _ hb, s, hs => ⟨hb s hs, (hb s hs).genStmt_tidy true⟩

theorem StmtTree.genStmt_tidy : ∀ {lv s}, StmtTree lv s → ∀ inBody : Bool,
    genStmt inBody (s.tidy false) = genStmt inBody s
  | _, _, .comment, _ => rfl
  | _, _, .exprs h, inBody => by
    rw [tidy, tidyAll_of_noComment fun a ha => (h a ha).isComment, genStmt, genStmt]
    rw [genExprStmt_map fun a ha => (h a ha).genExprStmt_tidy inBody]
    rfl
  | _, _, .control _ h, inBody => by
    rw [tidy, tidyAll_of_noComment fun a ha => (h a ha).isComment, genStmt, genStmt]
    rw [genControl_map _ _ h]
    rfl

end

end

/-- The code of a text does not depend on its comments. -/
theorem generateStmts_tidy {stmts} (h : ∀ s ∈ stmts, StmtTree .top s) :
    generateStmts (tidyAll false stmts) = generateStmts stmts := by
  rw [generateStmts, generateStmts,
    genStmts_tidy fun s hs => ⟨h s hs, (h s hs).genStmt_tidy false⟩]

end WatScript
