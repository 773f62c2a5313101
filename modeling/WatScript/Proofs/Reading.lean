import WatScript.Proofs.Structure

/-!
# Reading as a relation

`readRun`, `readStatements`, `resolveExpr` and `resolveStmt` recur on a budget and stop at a nesting
limit. The relations here say what they compute when they succeed, without budget and limit, by one
rule for each kind of atom. `ReadsRun`, `ReadsStmts` and `ReadsSlots` are about a run at a level, read
as expressions, as statements or as argument slots; `ReadsExpr`, `ReadsItem`, `ReadsClause` and
`ReadsStmt` are about one atom. What holds of every reading is shown by induction on these
rules.

`readRun_reads` and its companions lead from the functions to the relations. They also say that reading
fails only for reasons that a source text can give.
-/

namespace WatScript

mutual

/-- Reading a run as expressions: lex it, find its structure, read every part. -/
inductive ReadsRun : Level → List Atom → List Atom → Prop
  | intro {lv raw toks parts out} : lv.tag = 0 → Readable lv raw →
      group lv (relevel lv raw) = .ok toks → structureRun lv toks = .ok parts →
      parts.length = out.length → (∀ a b, (a, b) ∈ parts.zip out → ReadsExpr lv a b) →
      ReadsRun lv raw out

/-- Reading a run as statements: lex it, cut it, read every statement. -/
inductive ReadsStmts : Level → List Atom → List Atom → Prop
  | intro {lv raw toks out} : lv.tag = 0 → Readable lv raw →
      group lv (relevel lv raw) = .ok toks → (splitStatements lv toks).length = out.length →
      (∀ a b, (a, b) ∈ (splitStatements lv toks).zip out → ReadsStmt lv a b) → ReadsStmts lv raw out

/-- Reading a run as slots: lex it, cut it at commas, read every slot. -/
inductive ReadsSlots : Level → List Atom → List Atom → Prop
  | intro {lv raw toks out} : lv.tag = 0 → Readable lv raw →
      group lv (relevel lv raw) = .ok toks → (slots lv toks).length = out.length →
      (∀ a b, (a, b) ∈ (slots lv toks).zip out → ReadsItem lv a b) → ReadsSlots lv raw out

/-- Reading what is left unread in an expression. -/
inductive ReadsExpr : Level → Atom → Atom → Prop
  | literal {lv text} : ReadsExpr lv (.literal lv text) (.literal lv text)
  | word {lv w} : w ≠ "" → ReadsExpr lv (.word lv w) (.word lv w)
  | block {lv raw body} : ReadsStmts lv.enter raw body →
      ReadsExpr lv (.block lv raw false []) (.block lv [] true body)
  | paren {lv raw contents} : ReadsRun lv.enter raw contents →
      ReadsExpr lv (.paren lv raw false []) (.paren lv [] true contents)
  | list {lv raw items} : ReadsSlots lv.enter raw items →
      ReadsExpr lv (.list lv raw false []) (.list lv [] true items)
  | operation {lv o left right left' right'} :
      (Operator.find? o).isSome → ReadsItem lv left left' → ReadsItem lv right right' →
      ReadsExpr lv (.call lv (.operator lv o) [] false true [left, right])
        (.call lv (.operator lv o) [] true true [left', right'])
  | call {lv callee callee' raw args} :
      callee.isCallable = true → ReadsExpr lv callee callee' → ReadsSlots lv.enter raw args →
      ReadsExpr lv (.call lv callee raw false false []) (.call lv callee' [] true true args)
  | access {lv callee callee' raw index} :
      callee.isCallable = true → ReadsExpr lv callee callee' → ReadsSlots lv.enter raw index →
      ReadsExpr lv (.access lv callee raw false []) (.access lv callee' [] true index)
  | chain {lv clauses clauses'} :
      isChainOf (clauses.map Atom.clauseName) = true → clauses.length = clauses'.length →
      (∀ a b, (a, b) ∈ clauses.zip clauses' → ReadsClause lv a b) →
      ReadsExpr lv (.chain lv clauses) (.chain lv clauses')

/-- Reading an item. -/
inductive ReadsItem : Level → Atom → Atom → Prop
  | intro {lv raw contents} : ReadsRun lv raw contents →
      ReadsItem lv (.item lv raw false []) (.item lv [] true contents)

/-- Reading the condition and the block of a clause. -/
inductive ReadsClause : Level → Atom → Atom → Prop
  | conditional {lv name craw braw cond body} :
      Keyword.isClause name = true → Keyword.hasCondition name = true →
      ReadsRun lv.enter craw cond → ReadsStmts (bodyLevel lv name) braw body → ReadsClause lv
        (.clause lv name (some (.paren lv craw false [])) (.block lv braw false []))
        (.clause lv name (some (.paren lv [] true cond)) (.block lv [] true body))
  | unconditional {lv name braw body} :
      Keyword.isClause name = true → Keyword.hasCondition name = false →
      ReadsStmts (bodyLevel lv name) braw body →
      ReadsClause lv (.clause lv name none (.block lv braw false []))
        (.clause lv name none (.block lv [] true body))

/-- Reading a statement: find the structure of its run, read every part. -/
inductive ReadsStmt : Level → Atom → Atom → Prop
  | comment {lv text block} : ReadsStmt lv (.comment lv text block) (.comment lv text block)
  | exprs {lv raw parts out} : lv.tag = 0 → Tokens lv raw →
      structureRun lv raw = .ok parts → parts.length = out.length →
      (∀ a b, (a, b) ∈ parts.zip out → ReadsExpr lv a b) →
      ReadsStmt lv (.exprStmt lv raw false []) (.exprStmt lv [] true out)
  | control {lv head raw parts out} : lv.tag = 0 → Keyword.isControl head = true → Tokens lv raw →
      structureRun lv raw = .ok parts → parts.length = out.length →
      (∀ a b, (a, b) ∈ parts.zip out → ReadsExpr lv a b) →
      ReadsStmt lv (.controlStmt lv head raw false []) (.controlStmt lv head [] true out)

end

/-! ## What is left to read -/

/-- An expression that reading resolves: a part of a lexed run, or an operation on two such runs. -/
inductive Pending (lv : Level) : Atom → Prop
  | part {a} : IsToken lv a → a.isVoid = false → a.isOperator = false → Pending lv a
  | operation {o left right} : (Operator.find? o).isSome →
      Tokens lv left → Tokens lv right → Pending lv (operation lv (.operator lv o) left right)

section
variable {lv : Level} {run out : List Atom}

theorem SplitOnce.pending (hparts : Parts lv run) (h : SplitOnce lv run out) :
    ∀ a ∈ out, Pending lv a := by
  cases h with
  | terms hop => exact fun a ha => .part (hparts a ha).1 (hparts a ha).2 (hop a ha)
  | @operation o left right heq =>
    subst heq
    simp only [Parts, List.forall_mem_append, List.forall_mem_cons] at hparts
    obtain ⟨hl, ⟨ho, -⟩, hr⟩ := hparts
    simp only [List.mem_singleton, forall_eq]
    exact .operation ho.operator_inv.2 (fun a ha => (hl a ha).1) fun a ha => (hr a ha).1

theorem structureRun_pending (hlv : lv.tag = 0) (h : Tokens lv run) :
    Ends (fun out => ∀ a ∈ out, Pending lv a) (·.isFromRun = true) (structureRun lv run) :=
  (structureRun_ends hlv h).mono fun _ ⟨_, hparts, hs⟩ => hs.pending hparts

theorem IsToken.pending_callee {callee} (h : IsToken lv callee)
    (hc : callee.isCallable = true) : Pending lv callee :=
  .part h (Atom.isVoid_of_isCallable hc) (Atom.isOperator_of_isCallable hc)

end

/-! ## From the functions to the relations -/

theorem splitArgs_reads {lv raw f} (hlv : lv.tag = 0) (hraw : RawRun raw)
    (hf : ∀ raw, Tokens lv raw → Ends (ReadsItem lv (.item lv raw false [])) (·.isFromSource = true)
        (f (.item lv raw false []))) : Ends (ReadsSlots lv raw) (·.isFromSource = true)
      (splitArgs lv raw >>= fun items => items.mapM f) := by
  rw [splitArgs, bind_assoc]
  refine (group_ends hlv (.raw hraw)).fromSource.with_eq.bind fun toks ⟨hgroup, htoks⟩ => ?_
  refine (Ends.mapM_zip fun a ha => ?_).mono fun out h =>
    .intro hlv (.raw hraw) hgroup h.1 h.2
  obtain ⟨r, hr, rfl⟩ := slots_items htoks a ha
  exact hf r hr

theorem resolveExpr_operator (fuel : Nat) (limit : Int64) (nest : Nat) (lv : Level) (o : String) :
    Ends (· = .operator lv o) (·.isFromSource = true)
      (resolveExpr fuel limit nest (.operator lv o)) := by
  cases fuel <;> rw [resolveExpr] <;> rfl

mutual

theorem readRun_reads : ∀ (fuel : Nat) (limit : Int64) (nest : Nat) {lv raw},
    lv.tag = 0 → Readable lv raw →
      Ends (ReadsRun lv raw) (·.isFromSource = true) (readRun fuel limit nest lv raw)
  | 0, _, _, _, _, _, _ => by rw [readRun]; rfl
  | fuel + 1, limit, nest, lv, raw, hlv, hraw => by
    rw [readRun]
    split
    · rfl
    refine (group_ends hlv hraw).fromSource.with_eq.bind fun toks ⟨hgroup, htoks⟩ => ?_
    refine (structureRun_pending hlv htoks).fromSource.with_eq.bind fun parts ⟨hstruct, hparts⟩ => ?_
    refine (Ends.mapM_zip fun a ha => resolveExpr_reads fuel limit _ hlv (hparts a ha)).mono ?_
    exact fun out h => .intro hlv hraw hgroup hstruct h.1 h.2

theorem readStatements_reads : ∀ (fuel : Nat) (limit : Int64) (nest : Nat) {lv raw},
    lv.tag = 0 → Readable lv raw →
      Ends (ReadsStmts lv raw) (·.isFromSource = true) (readStatements fuel limit nest lv raw)
  | 0, _, _, _, _, _, _ => by rw [readStatements]; rfl
  | fuel + 1, limit, nest, lv, raw, hlv, hraw => by
    rw [readStatements]
    split
    · rfl
    refine (group_ends hlv hraw).fromSource.with_eq.bind fun toks ⟨hgroup, htoks⟩ => ?_
    have hstmts := splitStatements_statements htoks
    refine (Ends.mapM_zip fun a ha => resolveStmt_reads fuel limit _ hlv (hstmts a ha)).mono ?_
    exact fun out h => .intro hlv hraw hgroup h.1 h.2

theorem resolveExpr_reads : ∀ (fuel : Nat) (limit : Int64) (nest : Nat) {lv a},
    lv.tag = 0 → Pending lv a →
      Ends (ReadsExpr lv a) (·.isFromSource = true) (resolveExpr fuel limit nest a)
  | 0, _, _, _, _, _, _ => by rw [resolveExpr]; rfl
  | fuel + 1, limit, nest, lv, a, hlv, h => by
    have hslots {raw : List Atom} (hraw : RawRun raw) :
        Ends (ReadsSlots lv.enter raw) (·.isFromSource = true)
          (splitArgs lv.enter raw >>= fun items => items.mapM (resolveExpr fuel limit nest)) :=
      splitArgs_reads rfl hraw fun raw ht => resolveItem_reads fuel limit nest rfl ht
    cases h with
    | part ht hv ho =>
      cases ht with
      | separator | comment => cases hv
      | operator => cases ho
      | literal => rw [resolveExpr]; exact .literal
      | word hw => rw [resolveExpr]; exact .word hw
      | @bracket pair raw hraw =>
        cases pair with
        | brace =>
          rw [Bracket.atom, resolveExpr]
          exact (readStatements_reads fuel limit nest rfl (.raw hraw)).bind fun out h => .block h
        | square =>
          rw [Bracket.atom, resolveExpr, ← bind_assoc]
          exact (hslots hraw).bind fun out h => .list h
        | round =>
          rw [Bracket.atom, resolveExpr]
          exact (readRun_reads fuel limit nest rfl (.raw hraw)).bind fun out h => .paren h
      | call hcall hc hraw =>
        rw [resolveExpr]
        simp only [Bool.false_eq_true, if_false, Atom.isOperator_of_isCallable hcall]
        refine (resolveExpr_reads fuel limit nest hlv (hc.pending_callee hcall)).bind fun _ h => ?_
        rw [← bind_assoc]
        exact (hslots hraw).bind fun out hs => .call hcall h hs
      | access hcall hc hraw =>
        rw [resolveExpr]
        simp only [Bool.false_eq_true, if_false]
        refine (resolveExpr_reads fuel limit nest hlv (hc.pending_callee hcall)).bind fun _ h => ?_
        rw [← bind_assoc]
        exact (hslots hraw).bind fun out hs => .access hcall h hs
      | chain hc hw =>
        rw [resolveExpr]
        refine (Ends.mapM_zip fun a ha => ?_).bind fun out h => .chain hw h.1 h.2
        exact resolveClause_reads fuel limit nest hlv (hc a ha)
    | @operation o left right ho hl hr =>
      rw [operation, resolveExpr]
      simp only [Bool.false_eq_true, if_false, Atom.isOperator, if_true, pure_bind, List.mapM_cons,
        List.mapM_nil, bind_assoc]
      refine (resolveExpr_operator fuel limit nest lv o).bind ?_
      rintro _ rfl
      refine (resolveItem_reads fuel limit nest hlv hl).bind fun l' hl' => ?_
      refine (resolveItem_reads fuel limit nest hlv hr).bind fun r' hr' => ?_
      exact .operation ho hl' hr'

theorem resolveItem_reads : ∀ (fuel : Nat) (limit : Int64) (nest : Nat) {lv raw}, lv.tag = 0 → Tokens lv raw →
      Ends (ReadsItem lv (.item lv raw false [])) (·.isFromSource = true)
        (resolveExpr fuel limit nest (.item lv raw false []))
  | 0, _, _, _, _, _, _ => by rw [resolveExpr]; rfl
  | fuel + 1, limit, nest, lv, raw, hlv, ht => by
    rw [resolveExpr]
    simp only [Bool.false_eq_true, if_false, Level.bare_of_untagged hlv]
    exact (readRun_reads fuel limit nest hlv (.tokens ht)).bind fun out h => .intro h

theorem resolveClause_reads : ∀ (fuel : Nat) (limit : Int64) (nest : Nat) {lv a},
    lv.tag = 0 → IsClause lv a →
      Ends (ReadsClause lv a) (·.isFromSource = true) (resolveExpr fuel limit nest a)
  | 0, _, _, _, _, _, _ => by rw [resolveExpr]; rfl
  | fuel + 1, limit, nest, lv, a, hlv, h => by
    cases h with
    | @conditional name craw braw hn hcond hcraw hbraw =>
      rw [resolveExpr]
      have hparen : Ends (fun c => ∃ out, c = some (.paren lv [] true out) ∧
          ReadsRun lv.enter craw out) (·.isFromSource = true)
          ((some (Atom.paren lv craw false [])).mapM (resolveExpr fuel limit nest)) := by
        refine (resolveExpr_reads fuel limit nest hlv
          (.part (@IsToken.bracket lv .round craw hcraw) rfl rfl)).bind fun a ha => ?_
        cases ha with
        | paren h => exact ⟨_, rfl, h⟩
      refine hparen.bind ?_
      rintro _ ⟨cond, rfl, hc⟩
      refine (readStatements_reads fuel limit nest (tag_bodyLevel ..) (.raw hbraw)).bind ?_
      exact fun body hb => .conditional hn hcond hc hb
    | unconditional hn hcond hbraw =>
      rw [resolveExpr]
      refine (readStatements_reads fuel limit nest (tag_bodyLevel ..) (.raw hbraw)).bind ?_
      exact fun body hb => .unconditional hn hcond hb

theorem resolveStmt_reads : ∀ (fuel : Nat) (limit : Int64) (nest : Nat) {lv a},
    lv.tag = 0 → IsUnreadStmt lv a →
      Ends (ReadsStmt lv a) (·.isFromSource = true) (resolveStmt fuel limit nest a)
  | 0, _, _, _, _, _, _ => by rw [resolveStmt]; rfl
  | fuel + 1, limit, nest, lv, a, hlv, h => by
    have heach : ∀ {raw}, Tokens lv raw → Ends (fun out => ∃ parts,
        structureRun lv raw = .ok parts ∧ parts.length = out.length ∧
          ∀ a b, (a, b) ∈ parts.zip out → ReadsExpr lv a b) (·.isFromSource = true)
        (structureRun lv.bare raw >>= fun atoms => atoms.mapM (resolveExpr fuel limit nest)) := by
      intro raw ht
      rw [Level.bare_of_untagged hlv]
      refine (structureRun_pending hlv ht).fromSource.with_eq.bind fun parts ⟨hs, hp⟩ => ?_
      refine (Ends.mapM_zip fun a ha => resolveExpr_reads fuel limit nest hlv (hp a ha)).mono ?_
      exact fun out h => ⟨parts, hs, h⟩
    cases h with
    | comment => rw [resolveStmt]; exact .comment
    | exprs ht =>
      rw [resolveStmt]
      simp only [Bool.false_eq_true, if_false]
      rw [← bind_assoc]
      exact (heach ht).bind fun out ⟨parts, hs, hn, h⟩ => .exprs hlv ht hs hn h
    | control hhead ht =>
      rw [resolveStmt]
      simp only [Bool.false_eq_true, if_false]
      rw [← bind_assoc]
      exact (heach ht).bind fun out ⟨parts, hs, hn, h⟩ => .control hlv hhead ht hs hn h

end

/-! ## Steps of reading -/

section
variable {limit : Int64} {nest : Nat} {lv : Level}

theorem readRun_open (h : mayOpen limit nest lv = true) (n : Nat) (raw : List Atom) :
    readRun (n + 1) limit nest lv raw = group lv (relevel lv raw) >>= fun toks =>
      structureRun lv toks >>= List.mapM (resolveExpr n limit (nest + 1)) := by
  rw [readRun]
  simp only [h, Bool.not_true, Bool.false_eq_true, if_false]

theorem readStatements_open (h : mayOpen limit nest lv = true) (n : Nat) (raw : List Atom) :
    readStatements (n + 1) limit nest lv raw = group lv (relevel lv raw) >>= fun toks =>
      (splitStatements lv toks).mapM (resolveStmt n limit (nest + 1)) := by
  rw [readStatements]
  simp only [h, Bool.not_true, Bool.false_eq_true, if_false]

/-- Reads the body of a clause. -/
def readBody (limit : Int64) (nest : Nat) (lv : Level) (n : Nat) : Atom → Except ReadFault Atom
  | .block bl raw false _ => return .block bl [] true (← readStatements n limit nest lv raw)
  | body => .ok body

theorem resolveExpr_clause (n : Nat) (name : String) (cond : Option Atom) (body : Atom) :
    resolveExpr (n + 1) limit nest (.clause lv name cond body) = do
      let conds ← cond.toList.mapM (resolveExpr n limit nest)
      return .clause lv name conds.head? (← readBody limit nest (bodyLevel lv name) n body) := by
  have hcond : cond.mapM (resolveExpr n limit nest) =
      (cond.toList.mapM (resolveExpr n limit nest)).map List.head? := by
    cases cond with
    | none => rfl
    | some a =>
      simp only [Option.mapM_some, Option.toList_some, List.mapM_cons, List.mapM_nil]
      cases resolveExpr n limit nest a <;> rfl
  rw [resolveExpr, hcond]
  cases cond.toList.mapM (resolveExpr n limit nest) with
  | error f => rfl
  | ok conds =>
    cases body with
    | block bl raw r stmts =>
      cases r with
      | true => rfl
      | false =>
        simp only [readBody]
        cases readStatements n limit nest (bodyLevel lv name) raw <;> rfl
    | _ => rfl

end

/-! ## Whole texts -/

theorem readRun_congr {fuel limit nest lv raw raw'}
    (h : group lv (relevel lv raw) = group lv (relevel lv raw')) :
    readRun fuel limit nest lv raw = readRun fuel limit nest lv raw' := by
  cases fuel <;> simp only [readRun, h]

theorem readStatements_congr {fuel limit nest lv raw raw'}
    (h : group lv (relevel lv raw) = group lv (relevel lv raw')) :
    readStatements fuel limit nest lv raw = readStatements fuel limit nest lv raw' := by
  cases fuel <;> simp only [readStatements, h]

/-- Reading ends in a tree that is read off the run, or in a failure of the source. -/
theorem parseExpr_reads (limit : Int64) (text : Text) :
    Ends (fun out => ∃ raw, extractLiterals .top (explode .top text) = .ok raw ∧
      ReadsRun .top raw out) (·.isFromSource = true) (parseExpr limit text) := by
  unfold parseExpr
  cases h : extractLiterals .top (explode .top text) with
  | ok raw =>
    simp only
    rw [readRun_congr (group_explode h)]
    refine (readRun_reads _ limit 0 rfl (.raw (rawRun_extractLiterals h))).mono fun out hout => ?_
    exact ⟨raw, rfl, hout⟩
  | error f =>
    obtain ⟨hg, hf⟩ := group_explode_error h
    simp only [readRun, hg]
    split
    · rfl
    · exact (Bool.and_eq_true_iff.1 hf).1

theorem parseStmts_reads (limit : Int64) (text : Text) :
    Ends (fun out => ∃ raw, extractLiterals .top (explode .top text) = .ok raw ∧
      ReadsStmts .top raw out) (·.isFromSource = true) (parseStmts limit text) := by
  unfold parseStmts
  cases h : extractLiterals .top (explode .top text) with
  | ok raw =>
    simp only
    rw [readStatements_congr (group_explode h)]
    refine (readStatements_reads _ limit 0 rfl (.raw (rawRun_extractLiterals h))).mono
      fun out hout => ?_
    exact ⟨raw, rfl, hout⟩
  | error f =>
    obtain ⟨hg, hf⟩ := group_explode_error h
    simp only [readStatements, hg]
    split
    · rfl
    · exact (Bool.and_eq_true_iff.1 hf).1

end WatScript
