import WatScript.Proofs.Bricks
import WatScript.Proofs.Trees

/-!
# Reading keeps every token in its place

`Atom.tokens` walks a resolved tree in order: an operation as left operand, operator and right operand,
a call or a subscript as callee and bracketed arguments, every bracket around what it holds, a clause
or a control statement after its word. `tokens_conserved` says that this walk meets exactly the lexemes
of the source text, in their order and each once.

Between the two stand runs whose brackets are unread. Every pass keeps what they spell
(`spelled_structureRun`, `spelled_slots`, `spelled_splitStatements`), and reading an atom turns what it
spells into its tokens (`ReadsExpr.tokens_eq` and companions).
-/

namespace WatScript

open Atom

mutual

/-- The tokens of a resolved tree, in order. -/
def Atom.tokens : Atom → List Token
  | .unknown .. | .comment .. => []
  | .literal _ text => [.literal text]
  | .word _ w => [.word w]
  | .operator _ o => [.operator o]
  | .block _ _ _ body => .opening .brace :: (treeTokens body ++ [.closing .brace])
  | .paren _ _ _ contents => .opening .round :: (treeTokens contents ++ [.closing .round])
  | .list _ _ _ items => .opening .square :: (treeTokens items ++ [.closing .square])
  | .item _ _ _ contents => treeTokens contents
  | .call _ (.operator _ o) _ _ _ [left, right] => left.tokens ++ .operator o :: right.tokens
  | .call _ callee _ _ _ args =>
    callee.tokens ++ .opening .round :: (treeTokens args ++ [.closing .round])
  | .access _ callee _ _ index =>
    callee.tokens ++ .opening .square :: (treeTokens index ++ [.closing .square])
  | .clause _ name cond body => .word name :: (tokensOption cond ++ body.tokens)
  | .chain _ clauses => treeTokens clauses
  | .exprStmt _ _ _ exprs => treeTokens exprs
  | .controlStmt _ head _ _ exprs => .word head :: treeTokens exprs

def tokensOption : Option Atom → List Token
  | none => []
  | some a => a.tokens

def treeTokens : List Atom → List Token
  | [] => []
  | a :: rest => a.tokens ++ treeTokens rest

end

/-! ## Runs -/

section
variable {lv : Level} {run out : List Atom}

/-- Finding the structure of a lexed run keeps what it spells. -/
theorem spelled_structureRun (hlv : lv.tag = 0) (ht : Tokens lv run)
    (h : structureRun lv run = .ok out) : out.flatMap spelled = run.flatMap spelled := by
  have hp := structureRun_pending hlv ht
  rw [h] at hp
  rw [spelled_of_isBuilt fun a ha => (hp a ha).isBuilt, bricks_structureRun hlv ht h,
    spelled_of_isBuilt fun a ha => (ht a ha).isBuilt]

theorem spelled_slots (ht : Tokens lv run) :
    (slots lv run).flatMap spelled = run.flatMap spelled := by
  have hitems : ∀ a ∈ slots lv run, a.IsBuilt := fun a ha => by
    obtain ⟨raw, hraw, rfl⟩ := slots_items ht a ha
    exact hraw.isBuilt_item
  rw [spelled_of_isBuilt hitems, bricks_slots, spelled_of_isBuilt fun a ha => (ht a ha).isBuilt]

theorem spelled_splitStatements (ht : Tokens lv run) :
    (splitStatements lv run).flatMap spelled = run.flatMap spelled := by
  rw [spelled_of_isBuilt fun a ha => (splitStatements_statements ht a ha).isBuilt,
    bricks_splitStatements, spelled_of_isBuilt fun a ha => (ht a ha).isBuilt]

end

/-! ## Trees -/

theorem treeTokens_of_zip : ∀ {as bs : List Atom}, as.length = bs.length →
    (∀ a b, (a, b) ∈ as.zip bs → b.tokens = a.spelled) → treeTokens bs = as.flatMap spelled
  | [], [], _, _ => rfl
  | a :: as, b :: bs, hn, h => by
    have ih := treeTokens_of_zip (Nat.succ.inj hn) fun a b hz => h a b (List.mem_cons_of_mem _ hz)
    rw [treeTokens, List.flatMap_cons, ih, h a b List.mem_cons_self]

section
variable {lv : Level} {callee : Atom} {raw args : List Atom} {resolved split : Bool}

theorem tokens_call (hc : callee.isCallable = true) :
    (Atom.call lv callee raw resolved split args).tokens =
      callee.tokens ++ .opening .round :: (treeTokens args ++ [.closing .round]) := by
  cases callee <;> first | rfl | cases hc

end

mutual

/-- What is read has the tokens of the run. -/
theorem ReadsRun.tokens_eq : ∀ {lv raw out}, ReadsRun lv raw out → treeTokens out = spell [] raw
  | _, _, _, .intro hlv hr hg hs hn h => by
    rw [treeTokens_of_zip hn fun a b hz => (h a b hz).tokens_eq,
      spelled_structureRun hlv (tokens_of_group hlv hr hg) hs, spelled_group hlv hr hg]

theorem ReadsStmts.tokens_eq : ∀ {lv raw out}, ReadsStmts lv raw out → treeTokens out = spell [] raw
  | _, _, _, .intro hlv hr hg hn h => by
    rw [treeTokens_of_zip hn fun a b hz => (h a b hz).tokens_eq,
      spelled_splitStatements (tokens_of_group hlv hr hg), spelled_group hlv hr hg]

theorem ReadsSlots.tokens_eq : ∀ {lv raw out}, ReadsSlots lv raw out → treeTokens out = spell [] raw
  | _, _, _, .intro hlv hr hg hn h => by
    rw [treeTokens_of_zip hn fun a b hz => (h a b hz).tokens_eq,
      spelled_slots (tokens_of_group hlv hr hg), spelled_group hlv hr hg]

theorem ReadsExpr.tokens_eq : ∀ {lv a a'}, ReadsExpr lv a a' → a'.tokens = a.spelled
  | _, _, _, .literal => rfl
  | _, _, _, .word _ => rfl
  | _, _, _, .block h => by rw [tokens, spelled, h.tokens_eq]
  | _, _, _, .paren h => by rw [tokens, spelled, h.tokens_eq]
  | _, _, _, .list h => by rw [tokens, spelled, h.tokens_eq]
  | _, _, _, .operation _ hl hr => by
    rw [tokens, spelled, hl.tokens_eq, hr.tokens_eq]
  | _, _, _, .call hc h hs => by
    rw [tokens_call (h.isCallable_eq.trans hc), spelled_call hc, h.tokens_eq, hs.tokens_eq]
  | _, _, _, .access _ h hs => by rw [tokens, spelled, h.tokens_eq, hs.tokens_eq]
  | _, _, _, .chain _ hn h => by
    rw [tokens, spelled, treeTokens_of_zip hn fun a b hz => (h a b hz).tokens_eq,
      spelledAll_eq]

theorem ReadsItem.tokens_eq : ∀ {lv a a'}, ReadsItem lv a a' → a'.tokens = a.spelled
  | _, _, _, .intro h => h.tokens_eq

theorem ReadsClause.tokens_eq : ∀ {lv a a'}, ReadsClause lv a a' → a'.tokens = a.spelled
  | _, _, _, .conditional _ _ h hb => by
    simp only [tokens, spelled, tokensOption, spelledOption, h.tokens_eq, hb.tokens_eq]
  | _, _, _, .unconditional _ _ hb => by
    simp only [tokens, spelled, tokensOption, spelledOption, hb.tokens_eq]

theorem ReadsStmt.tokens_eq : ∀ {lv a a'}, ReadsStmt lv a a' → a'.tokens = a.spelled
  | _, _, _, .comment => rfl
  | _, _, _, .exprs hlv ht hs hn h => by
    rw [tokens, spelled, treeTokens_of_zip hn fun a b hz => (h a b hz).tokens_eq,
      spelled_structureRun hlv ht hs, ht.spell_eq]
  | _, _, _, .control hlv _ ht hs hn h => by
    rw [tokens, spelled, treeTokens_of_zip hn fun a b hz => (h a b hz).tokens_eq,
      spelled_structureRun hlv ht hs, ht.spell_eq]

end

/-- Walking what was read of a text in order meets exactly the words, operators, literals and brackets
of the text, in their order and each once. -/
theorem tokens_conserved (limit : Int64) (text : Text) :
    (∀ exprs, parseExpr limit text = .ok exprs → treeTokens exprs = lexemes text) ∧
      ∀ stmts, parseStmts limit text = .ok stmts → treeTokens stmts = lexemes text := by
  have hexpr := parseExpr_reads limit text
  have hstmts := parseStmts_reads limit text
  refine ⟨fun exprs h => ?_, fun stmts h => ?_⟩
  · rw [h] at hexpr
    obtain ⟨raw, hraw, hreads⟩ := hexpr
    rw [hreads.tokens_eq, spell_extractLiterals hraw]
  · rw [h] at hstmts
    obtain ⟨raw, hraw, hreads⟩ := hstmts
    rw [hreads.tokens_eq, spell_extractLiterals hraw]

theorem tokens_conserved_chain :
    ∃ stmts, parseStmts 8 (.ofString "if (!a) { b = -1 /* minus */ } // end") = .ok stmts ∧
      treeTokens stmts = [.word "if", .opening .round, .operator "!", .word "a", .closing .round,
        .opening .brace, .word "b", .operator "=", .operator "-", .word "1", .closing .brace] := by
  have hok : ((parseStmts 8 (.ofString "if (!a) { b = -1 /* minus */ } // end")).map
      (!·.isEmpty)) = .ok true := by
    decide +kernel
  obtain ⟨stmts, h, -⟩ := map_ok hok
  refine ⟨stmts, h, ((tokens_conserved 8 _).2 stmts h).trans ?_⟩
  decide +kernel

end WatScript
