import Mathlib.Control.Traversable.Instances
import WatScript.Atom.Outline
import WatScript.Proofs.Trees

/-!
# What holds at every node of a resolved tree

`Atom.WellFormed` says of one node what code that works on resolved trees relies on: it is resolved and
holds nothing unread, its lists of expressions are lists of operands or a single operation
(`IsExprList`), operators stand only at the head of an operation on two items, clauses only in chains,
and resolving the node once more gives the node itself. `Everywhere P` carries a property of nodes
through a whole tree.

`ReadsExpr.wellFormed` and its companions show, rule by rule, that reading only makes such trees, and
`resolved_trees_wellFormed` says it of every node of what was read of a text.
-/

namespace WatScript

open List Atom

variable {P : Atom → Prop} {a b n : Atom}

/-! ## Nodes -/

namespace Atom

/-- The lists of expressions that an atom holds. -/
def exprLists : Atom → List (List Atom)
  | paren _ _ _ exprs | list _ _ _ exprs | item _ _ _ exprs => [exprs]
  | call _ _ _ _ _ exprs | access _ _ _ _ exprs => [exprs]
  | exprStmt _ _ _ exprs | controlStmt _ _ _ _ exprs => [exprs]
  | _ => []

/-- The atom is neither an operator nor a clause. -/
def isPlain (a : Atom) : Bool := !a.isOperator && !a.isClause

/-- The atom can stand in a list of expressions. -/
def isOperand (a : Atom) : Bool := !a.isComment && a.isPlain

end Atom

/-- A list of resolved expressions: operands side by side, or one operation. -/
structure IsExprList (exprs : List Atom) : Prop where
  isOperand : ∀ a ∈ exprs, a.isOperand = true
  split : (∃ a, exprs = [a] ∧ a.isOperation? = some true) ∨
    ∀ a ∈ exprs, a.isOperation? ≠ some true

/-- What holds of a node of a resolved tree. -/
structure Atom.WellFormed (a : Atom) : Prop where
  known : ∀ lv c, a ≠ .unknown lv c
  resolved : a.isResolved? ≠ some false
  noRaw : a.raw = []
  exprLists : ∀ exprs ∈ a.exprLists, IsExprList exprs
  operator : ∀ b ∈ a.children, b.isOperator = true →
    ∃ lv args, a = .call lv b [] true true args
  operands : ∀ {lv op raw r s args}, a = .call lv op raw r s args → op.isOperator = true →
    ∃ l₁ c₁ l₂ c₂, args = [.item l₁ [] true c₁, .item l₂ [] true c₂]
  clause : ∀ b ∈ a.children, b.isClause = true → ∃ lv clauses, a = .chain lv clauses
  resolve : ∀ limit, a.resolve limit = .ok a

/-- All atoms of the tree satisfy `P`. -/
inductive Everywhere (P : Atom → Prop) : Atom → Prop
  | intro {a : Atom} : P a → (∀ b ∈ a.children, Everywhere P b) → Everywhere P a

theorem mem_walks {skip k x} : ∀ {run}, x ∈ walks skip k run → ∃ a ∈ run, x ∈ a.walk skip k
  | a :: rest, h => by
    rw [walks, mem_append] at h
    rcases h with h | h
    · exact ⟨a, mem_cons_self, h⟩
    · obtain ⟨b, hb, hx⟩ := mem_walks h
      exact ⟨b, mem_cons_of_mem _ hb, hx⟩

theorem mem_walk {k x} (h : x ∈ a.walk (fun _ => false) k) :
    x.2 = a ∨ ∃ b ∈ a.children, x ∈ b.walk (fun _ => false) (k + 1) := by
  rw [walk.eq_def, mem_cons] at h
  rcases h with rfl | h
  · exact .inl rfl
  refine .inr ?_
  simp only [Bool.false_eq_true, if_false] at h
  cases a with
  | block lv raw resolved body =>
    cases resolved with
    | true => exact mem_walks h
    | false => exact mem_walks h
  | clause lv name cond body =>
    rw [mem_append] at h
    rcases h with h | h
    · cases cond with
      | none => cases h
      | some c => exact ⟨c, by simp [children], h⟩
    · exact ⟨body, by simp [children], h⟩
  | paren | list | item | exprStmt | controlStmt =>
    rw [mem_append] at h
    rcases h with h | h
    all_goals
      obtain ⟨b, hb, hx⟩ := mem_walks h
      exact ⟨b, by simp [children, hb], hx⟩
  | call | access =>
    rw [mem_append, mem_append] at h
    rcases h with (h | h) | h
    · exact ⟨_, by simp [children], h⟩
    all_goals
      obtain ⟨b, hb, hx⟩ := mem_walks h
      exact ⟨b, by simp [children, hb], hx⟩
  | chain => exact mem_walks h
  | _ => cases h

theorem Everywhere.of_mem_walk : ∀ {a}, Everywhere P a →
    ∀ {k : Nat} {x : Nat × Atom}, x ∈ a.walk (fun _ => false) k → P x.2
  | _, .intro ha hc, _, _, hx => by
    rcases mem_walk hx with rfl | ⟨b, hb, hx⟩
    · exact ha
    · exact (hc b hb).of_mem_walk hx

theorem Everywhere.of_mem_inspect (h : Everywhere P a)
    (hn : n ∈ a.inspect fun _ => false) : P n := by
  obtain ⟨x, hx, rfl⟩ := mem_map.1 hn
  exact h.of_mem_walk hx

theorem mem_walks_of_mem {skip k x a} : ∀ {run}, a ∈ run → x ∈ a.walk skip k → x ∈ walks skip k run
  | b :: rest, ha, hx => by
    rw [walks, mem_append]
    rcases mem_cons.1 ha with rfl | ha
    · exact .inl hx
    · exact .inr (mem_walks_of_mem ha hx)

theorem mem_walk_of_child {k x} (hb : b ∈ a.children)
    (hx : x ∈ b.walk (fun _ => false) (k + 1)) : x ∈ a.walk (fun _ => false) k := by
  have hruns {run : List Atom} (h : b ∈ run) := mem_walks_of_mem h hx
  rw [walk.eq_def, mem_cons]
  refine .inr ?_
  simp only [Bool.false_eq_true, if_false]
  cases a with
  | block lv raw resolved body => cases resolved <;> exact hruns hb
  | clause lv name cond body =>
    rw [mem_append]
    rcases mem_append.1 hb with hb | hb
    · cases cond with
      | none => cases hb
      | some c =>
        obtain rfl := mem_singleton.1 hb
        exact .inl hx
    · obtain rfl := mem_singleton.1 hb
      exact .inr hx
  | paren | list | item | exprStmt | controlStmt =>
    exact mem_append.2 ((mem_append.1 hb).imp hruns hruns)
  | call | access =>
    rw [mem_append, mem_append]
    rcases mem_cons.1 hb with rfl | hb
    · exact .inl (.inl hx)
    rcases mem_append.1 hb with hb | hb
    · exact .inl (.inr (hruns hb))
    · exact .inr (hruns hb)
  | chain => exact hruns hb
  | _ => cases hb

/-- `n` is an atom of the tree. -/
inductive Below (n : Atom) : Atom → Prop
  | self : Below n n
  | child {a b : Atom} : b ∈ a.children → Below n b → Below n a

theorem Below.mem_walk (h : Below n a) : ∀ k, ∃ j, (j, n) ∈ a.walk (fun _ => false) k := by
  induction h with
  | self => exact fun k => ⟨k, by rw [walk.eq_def]; exact mem_cons_self⟩
  | child hb _ ih => exact fun k => (ih (k + 1)).imp fun _ hx => mem_walk_of_child hb hx

theorem Below.mem_inspect (h : Below n a) : n ∈ a.inspect fun _ => false := by
  obtain ⟨j, hj⟩ := h.mem_walk 0
  exact mem_map.2 ⟨_, hj, rfl⟩

/-! ## Lists of expressions -/

section
variable {lv : Level} {parts out : List Atom}

theorem ReadsExpr.isOperand (h : ReadsExpr lv a b) : b.isOperand = true := by
  cases h <;> rfl

theorem ReadsExpr.isOperation_eq (h : ReadsExpr lv a b) : b.isOperation? = a.isOperation? := by
  cases h with
  | call hc h hs =>
    simp only [isOperation?, isOperator_of_isCallable hc,
      isOperator_of_isCallable (h.isCallable_eq.trans hc)]
  | _ => rfl

theorem IsToken.isOperation_ne (h : IsToken lv a) : a.isOperation? ≠ some true := by
  cases h with
  | call hc => simp [isOperation?, isOperator_of_isCallable hc]
  | @bracket pair => cases pair <;> simp [Bracket.atom, isOperation?]
  | _ => simp [isOperation?]

theorem isExprList_of_structureRun {run} (hlv : lv.tag = 0) (ht : Tokens lv run)
    (hs : structureRun lv run = .ok parts) (hn : parts.length = out.length)
    (h : ∀ a b, (a, b) ∈ parts.zip out → ReadsExpr lv a b) : IsExprList out := by
  refine ⟨fun b hb => ?_, ?_⟩
  · obtain ⟨a, hz⟩ := exists_zip_of_mem hn hb
    exact (h a b hz).isOperand
  have hends := structureRun_ends hlv ht
  rw [hs] at hends
  obtain ⟨run', hparts, hsplit⟩ := hends
  cases hsplit with
  | terms =>
    refine .inr fun b hb => ?_
    obtain ⟨a, hz⟩ := exists_zip_of_mem hn hb
    rw [(h a b hz).isOperation_eq]
    exact (hparts a (of_mem_zip hz).1).1.isOperation_ne
  | @operation o left right =>
    obtain ⟨b, rfl⟩ := length_eq_one_iff.1 hn.symm
    have hb := h (operation lv (.operator lv o) left right) b (by simp)
    exact .inl ⟨b, rfl, hb.isOperation_eq⟩

theorem IsExprList.of_items (h : ∀ b ∈ out, ItemTree lv b) : IsExprList out := by
  refine ⟨fun b hb => ?_, .inr fun b hb => ?_⟩
  · cases h b hb
    rfl
  · cases h b hb
    simp [isOperation?]

end

/-! ## One node -/

theorem Atom.resolve_of_settled (h : a.isResolved? ≠ some false)
    (hclause : a.isClause = false) (hchain : a.chainHead? = none) (limit : Int64) :
    a.resolve limit = .ok a := by
  cases a with
  | clause => cases hclause
  | chain => cases hchain
  | exprStmt | controlStmt =>
    simp only [isResolved?, settled, ne_eq, Option.some.injEq, Bool.not_eq_false] at h
    simp [resolve, resolveStmt, h]
  | unknown | literal | comment | word | operator => simp [resolve, resolveExpr]
  | _ =>
    simp only [isResolved?, settled, ne_eq, Option.some.injEq, Bool.not_eq_false] at h
    simp [resolve, resolveExpr, h]

theorem Atom.isPlain_iff : a.isPlain = true ↔ a.isOperator = false ∧ a.isClause = false := by
  simp [isPlain]

theorem Atom.WellFormed.of_plain (hknown : ∀ lv c, a ≠ .unknown lv c)
    (hclause : a.isClause = false) (hchain : a.chainHead? = none)
    (hresolved : a.isResolved? ≠ some false) (hraw : a.raw = [])
    (hlists : ∀ exprs ∈ a.exprLists, IsExprList exprs)
    (hplain : ∀ b ∈ a.children, b.isPlain = true) : a.WellFormed where
  known := hknown
  resolved := hresolved
  noRaw := hraw
  exprLists := hlists
  operator b hb ho := by
    rw [(isPlain_iff.1 (hplain b hb)).1] at ho
    cases ho
  operands := by
    rintro lv op raw r s args rfl ho
    rw [(isPlain_iff.1 (hplain op (by simp [children]))).1] at ho
    cases ho
  clause b hb hc := by
    rw [(isPlain_iff.1 (hplain b hb)).2] at hc
    cases hc
  resolve := resolve_of_settled hresolved hclause hchain

section
variable {lv : Level} {exprs : List Atom}

theorem IsExprList.isPlain (h : IsExprList exprs) : ∀ a ∈ exprs, a.isPlain = true := by
  intro a ha
  have hop := h.isOperand a ha
  simp only [Atom.isOperand, Bool.and_eq_true] at hop
  exact hop.2

theorem StmtTree.isPlain (h : StmtTree lv a) : a.isPlain = true := by
  cases h <;> rfl

theorem ExprTree.isPlain (h : ExprTree lv a) : a.isPlain = true := by
  cases h <;> rfl

theorem wellFormed_leaf (hknown : ∀ lv c, a ≠ .unknown lv c)
    (h : a.isResolved? = none) : a.WellFormed := by
  have hresolved : a.isResolved? ≠ some false := by simp [h]
  cases a with
  | unknown l c => exact absurd rfl (hknown l c)
  | literal | word | comment | operator =>
    exact .of_plain hknown rfl rfl hresolved rfl (by simp [exprLists]) (by simp [children])
  | _ => simp [isResolved?] at h

theorem wellFormed_block {body} (h : ∀ s ∈ body, s.isPlain = true) :
    (Atom.block lv [] true body).WellFormed :=
  .of_plain (by simp) rfl rfl (by simp [isResolved?, settled]) rfl
    (by simp [exprLists]) h

theorem wellFormed_holder (hlists : a.exprLists = [exprs]) (h : IsExprList exprs)
    (hresolved : a.isResolved? = some true) (hraw : a.raw = [])
    (hchildren : ∀ b ∈ a.children, b.isPlain = true ∨ b ∈ exprs) : a.WellFormed := by
  have hplain : ∀ b ∈ a.children, b.isPlain = true := fun b hb =>
    (hchildren b hb).elim id (h.isPlain b)
  refine .of_plain ?_ ?_ ?_ (by simp [hresolved]) hraw (by simpa [hlists] using h) hplain
  · rintro lv c rfl
    cases hlists
  · cases a <;> first | rfl | cases hlists
  · cases a <;> first | rfl | cases hlists

theorem wellFormed_operation {o left right} :
    (Atom.call lv (.operator lv o) [] true true
      [.item lv [] true left, .item lv [] true right]).WellFormed where
  known := by simp
  resolved := by simp [isResolved?, settled]
  noRaw := rfl
  exprLists := by
    have hitems : IsExprList [Atom.item lv [] true left, .item lv [] true right] :=
      ⟨by simp [Atom.isOperand, isComment, isPlain, isOperator, isClause],
        .inr (by simp [isOperation?])⟩
    simpa [exprLists] using hitems
  operator b hb ho := by
    rcases mem_cons.1 hb with rfl | hb
    · exact ⟨_, _, rfl⟩
    rcases mem_pair.1 hb with rfl | rfl <;> cases ho
  operands := by
    rintro lv op raw r s args ⟨⟩ -
    exact ⟨_, _, _, _, rfl⟩
  clause b hb hc := by
    rcases mem_cons.1 hb with rfl | hb
    · cases hc
    rcases mem_pair.1 hb with rfl | rfl <;> cases hc
  resolve := resolve_of_settled (by simp [isResolved?, settled]) rfl rfl

theorem resolveExpr_clauseTree {c} (h : ClauseTree lv c) (fuel : Nat) (limit : Int64)
    (nest : Nat) : resolveExpr (fuel + 2) limit nest c = .ok c := by
  cases h with
  | @conditional _ name cond body =>
    have hcond : resolveExpr (fuel + 1) limit nest (.paren lv [] true cond) =
        .ok (.paren lv [] true cond) := by rw [resolveExpr, if_pos rfl]
    simp only [resolveExpr, Option.mapM, hcond]
    rfl
  | unconditional =>
    simp only [resolveExpr, Option.mapM]
    rfl

theorem wellFormed_clause {c} (h : ClauseTree lv c) : c.WellFormed := by
  have hresolve : ∀ limit, c.resolve limit = .ok c := fun limit => by
    have hc := resolveExpr_clauseTree h (c.weight + 2) limit 0
    cases h <;> exact hc
  cases h with
  | conditional =>
    exact ⟨by simp, by simp [isResolved?, clauseSettled, settled], rfl,
      by simp [exprLists], by simp [children, isOperator], by simp,
      by simp [children, isClause], hresolve⟩
  | unconditional =>
    exact ⟨by simp, by simp [isResolved?, clauseSettled, settled], rfl,
      by simp [exprLists], by simp [children, isOperator], by simp,
      by simp [children, isClause], hresolve⟩

theorem wellFormed_chain {clauses} (h : ∀ c ∈ clauses, ClauseTree lv c) :
    (Atom.chain lv clauses).WellFormed where
  known := by simp
  resolved := by
    have hall : clauses.all clauseSettled = true := all_eq_true.2 fun c hc => by
      cases h c hc <;> rfl
    simp [isResolved?, hall]
  noRaw := rfl
  exprLists := by simp [exprLists]
  operator b hb ho := by cases h b hb <;> cases ho
  operands := by simp
  clause b hb hc := ⟨_, _, rfl⟩
  resolve limit := by
    have hmap : clauses.mapM (resolveExpr ((Atom.chain lv clauses).weight + 3) limit 0) =
        .ok clauses :=
      mapM_eq_self fun c hc => resolveExpr_clauseTree (h c hc) (_ + 1) limit 0
    rw [resolve, resolveExpr, hmap]
    · rfl
    · simp
    · simp

end

/-! ## Whole trees -/

theorem everywhere_applied {lv : Level} {callee : Atom} {args : List Atom}
    (hlists : a.exprLists = [args]) (hchildren : a.children = callee :: args)
    (hresolved : a.isResolved? = some true) (hraw : a.raw = []) (hcallee : ExprTree lv callee)
    (hbelow : Everywhere Atom.WellFormed callee) (hitems : ∀ b ∈ args, ItemTree lv.enter b)
    (hargs : ∀ b ∈ args, Everywhere Atom.WellFormed b) : Everywhere Atom.WellFormed a := by
  refine .intro (wellFormed_holder hlists (.of_items hitems) hresolved hraw fun b hb => ?_)
    fun b hb => ?_
  all_goals
    rw [hchildren, mem_cons] at hb
    rcases hb with rfl | hb
  · exact .inl hcallee.isPlain
  · exact .inr hb
  · exact hbelow
  · exact hargs b hb

mutual

theorem ReadsRun.wellFormed : ∀ {lv raw out}, ReadsRun lv raw out →
    IsExprList out ∧ ∀ b ∈ out, Everywhere Atom.WellFormed b
  | _, _, _, .intro hlv hr hg hs hn h => by
    refine ⟨isExprList_of_structureRun hlv (tokens_of_group hlv hr hg) hs hn h, fun b hb => ?_⟩
    have ⟨a, hz⟩ := exists_zip_of_mem hn hb
    exact (h a b hz).wellFormed

theorem ReadsStmts.wellFormed : ∀ {lv raw out}, ReadsStmts lv raw out →
    ∀ b ∈ out, Everywhere Atom.WellFormed b
  | _, _, _, .intro _ _ _ hn h, b, hb =>
    have ⟨a, hz⟩ := exists_zip_of_mem hn hb
    (h a b hz).wellFormed

theorem ReadsSlots.wellFormed : ∀ {lv raw out}, ReadsSlots lv raw out →
    ∀ b ∈ out, Everywhere Atom.WellFormed b
  | _, _, _, .intro _ _ _ hn h, b, hb =>
    have ⟨a, hz⟩ := exists_zip_of_mem hn hb
    (h a b hz).wellFormed

theorem ReadsExpr.wellFormed : ∀ {lv a a'}, ReadsExpr lv a a' → Everywhere Atom.WellFormed a'
  | _, _, _, .literal => .intro (wellFormed_leaf (by simp) rfl) (by simp [children])
  | _, _, _, .word _ => .intro (wellFormed_leaf (by simp) rfl) (by simp [children])
  | _, _, _, .block h => .intro (wellFormed_block fun s hs => (h.trees s hs).isPlain) h.wellFormed
  | _, _, _, .paren h =>
    .intro (wellFormed_holder rfl h.wellFormed.1 rfl rfl fun _ hb => .inr hb) h.wellFormed.2
  | _, _, _, .list h =>
    .intro (wellFormed_holder rfl (.of_items h.trees) rfl rfl fun _ hb => .inr hb) h.wellFormed
  | _, _, _, .operation _ hl hr => by
    have hleft := hl.wellFormed
    have hright := hr.wellFormed
    cases hl with
    | intro hl =>
      cases hr with
      | intro hr =>
        refine .intro wellFormed_operation fun b hb => ?_
        rcases mem_cons.1 hb with rfl | hb
        · exact .intro (wellFormed_leaf (by simp) rfl) (by simp [children])
        · rcases mem_pair.1 hb with rfl | rfl
          · exact hleft
          · exact hright
  | _, _, _, .call _ h hs =>
    everywhere_applied rfl rfl rfl rfl h.tree h.wellFormed hs.trees hs.wellFormed
  | _, _, _, .access _ h hs =>
    everywhere_applied rfl rfl rfl rfl h.tree h.wellFormed hs.trees hs.wellFormed
  | _, _, _, .chain _ hn h => by
    refine .intro (wellFormed_chain fun b hb => ?_) fun b hb => ?_
    · obtain ⟨a, hz⟩ := exists_zip_of_mem hn hb
      exact (h a b hz).tree
    · have ⟨a, hz⟩ := exists_zip_of_mem hn hb
      exact (h a b hz).wellFormed

theorem ReadsItem.wellFormed : ∀ {lv a a'}, ReadsItem lv a a' → Everywhere Atom.WellFormed a'
  | _, _, _, .intro h =>
    .intro (wellFormed_holder rfl h.wellFormed.1 rfl rfl fun _ hb => .inr hb) h.wellFormed.2

theorem ReadsClause.wellFormed : ∀ {lv a a'}, ReadsClause lv a a' → Everywhere Atom.WellFormed a'
  | _, _, _, .conditional hn hc h hb => by
    refine .intro (wellFormed_clause (.conditional hn hc h.trees hb.trees)) fun b hm => ?_
    rcases mem_pair.1 hm with rfl | rfl
    · exact .intro (wellFormed_holder rfl h.wellFormed.1 rfl rfl fun _ hb => .inr hb)
        h.wellFormed.2
    · exact .intro (wellFormed_block fun s hs => (hb.trees s hs).isPlain) hb.wellFormed
  | _, _, _, .unconditional hn hc hb => by
    refine .intro (wellFormed_clause (.unconditional hn hc hb.trees)) fun b hm => ?_
    rcases mem_singleton.1 hm with rfl
    exact .intro (wellFormed_block fun s hs => (hb.trees s hs).isPlain) hb.wellFormed

theorem ReadsStmt.wellFormed : ∀ {lv a a'}, ReadsStmt lv a a' → Everywhere Atom.WellFormed a'
  | _, _, _, .comment => .intro (wellFormed_leaf (by simp) rfl) (by simp [children])
  | _, _, _, .exprs hlv ht hs hn h =>
    .intro (wellFormed_holder rfl (isExprList_of_structureRun hlv ht hs hn h) rfl rfl
      fun _ hb => .inr hb) fun b hb =>
        have ⟨a, hz⟩ := exists_zip_of_mem hn hb
        (h a b hz).wellFormed
  | _, _, _, .control hlv _ ht hs hn h =>
    .intro (wellFormed_holder rfl (isExprList_of_structureRun hlv ht hs hn h) rfl rfl
      fun _ hb => .inr hb) fun b hb =>
        have ⟨a, hz⟩ := exists_zip_of_mem hn hb
        (h a b hz).wellFormed

end

/-- All atoms of a list of trees, as inspecting the trees visits them. -/
def nodes (trees : List Atom) : List Atom := trees.flatMap (inspect fun _ => false)

theorem everywhere_nodes {trees : List Atom} (h : ∀ t ∈ trees, Everywhere P t) :
    ∀ n ∈ nodes trees, P n := by
  intro n hn
  obtain ⟨t, ht, hn⟩ := mem_flatMap.1 hn
  exact (h t ht).of_mem_inspect hn

/-- What is read of a text is a list of expressions or of statements, and every node of it is
resolved for good. -/
theorem resolved_trees_wellFormed (limit : Int64) (text : Text) :
    (∀ exprs, parseExpr limit text = .ok exprs →
      IsExprList exprs ∧ ∀ n ∈ nodes exprs, n.WellFormed) ∧
    ∀ stmts, parseStmts limit text = .ok stmts →
      (∀ s ∈ stmts, s.isStatement = true) ∧ ∀ n ∈ nodes stmts, n.WellFormed := by
  have hexpr := parseExpr_reads limit text
  have hstmts := parseStmts_reads limit text
  refine ⟨fun exprs h => ?_, fun stmts h => ?_⟩
  · rw [h] at hexpr
    obtain ⟨raw, -, hreads⟩ := hexpr
    exact ⟨hreads.wellFormed.1, everywhere_nodes hreads.wellFormed.2⟩
  · rw [h] at hstmts
    obtain ⟨raw, -, hreads⟩ := hstmts
    refine ⟨fun s hs => ?_, everywhere_nodes hreads.wellFormed⟩
    cases hreads.trees s hs <;> rfl

theorem resolved_trees_wellFormed_loop :
    ∃ stmts, parseStmts 8 (.ofString "while (a) { f(x)[1] = -y; /* ! */ }; g(1)(2);") = .ok stmts ∧
      (nodes stmts).length = 32 ∧ ∀ n ∈ nodes stmts, n.WellFormed := by
  have hok : ((parseStmts 8 (.ofString "while (a) { f(x)[1] = -y; /* ! */ }; g(1)(2);")).map
      fun stmts => (nodes stmts).length) = .ok 32 := by
    decide +kernel
  obtain ⟨stmts, h, hlen⟩ := map_ok hok
  exact ⟨stmts, h, hlen, ((resolved_trees_wellFormed 8 _).2 stmts h).2⟩

end WatScript
