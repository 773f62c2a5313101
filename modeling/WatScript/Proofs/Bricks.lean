import WatScript.Proofs.Lexemes
import WatScript.Proofs.Reading

/-!
# What structured runs are made of

Finding the structure of a lexed run puts its tokens together to clauses, chains, calls, operations,
items and statements, and moves none of them. `Atom.bricks` takes a structured atom apart again, into
lexemes and bracketed runs that are still unread. Every pass keeps the bricks of a run
(`bricks_structureRun`, `bricks_slots`, `bricks_splitStatements`); what goes are separators and comments,
which are no bricks.
-/

namespace WatScript

open List Atom

/-- What structured atoms are made of: a lexeme, or an unread run in brackets. -/
inductive Brick where
  | token (t : Token)
  | group (pair : Bracket) (raw : List Atom)

/-- The tokens of a brick. -/
def Brick.spelled : Brick → List Token
  | token t => [t]
  | group pair raw => .opening pair :: (spell [] raw ++ [.closing pair])

mutual

/-- The bricks of an atom whose runs are unread. -/
def Atom.bricks : Atom → List Brick
  | .unknown .. | .comment .. => []
  | .literal _ text => [.token (.literal text)]
  | .word _ w => [.token (.word w)]
  | .operator _ o => [.token (.operator o)]
  | .block _ raw _ _ => [.group .brace raw]
  | .paren _ raw _ _ => [.group .round raw]
  | .list _ raw _ _ => [.group .square raw]
  | .item _ raw _ _ | .exprStmt _ raw _ _ => bricksOf raw
  | .call _ (.operator _ o) _ _ _ [left, right] =>
    left.bricks ++ .token (.operator o) :: right.bricks
  | .call _ callee raw _ _ _ => callee.bricks ++ [.group .round raw]
  | .access _ callee raw _ _ => callee.bricks ++ [.group .square raw]
  | .clause _ name cond body => .token (.word name) :: (bricksOption cond ++ body.bricks)
  | .chain _ clauses => bricksOf clauses
  | .controlStmt _ head raw _ _ => .token (.word head) :: bricksOf raw

def bricksOption : Option Atom → List Brick
  | none => []
  | some a => a.bricks

def bricksOf : List Atom → List Brick
  | [] => []
  | a :: rest => a.bricks ++ bricksOf rest

end

attribute [local simp] bricks bricksOption

theorem bricksOf_eq : ∀ run : List Atom, bricksOf run = run.flatMap bricks
  | [] => rfl
  | a :: rest => by rw [bricksOf, bricksOf_eq rest, flatMap_cons]

theorem Bracket.bricks_atom (pair : Bracket) (lv : Level) (raw : List Atom) :
    (pair.atom lv raw).bricks = [.group pair raw] := by
  cases pair <;> rfl

/-! ## Clauses and chains -/

section
variable {lv : Level} {run out : List Atom}

theorem bricks_filter_comments (run : List Atom) :
    (run.filter (!·.isComment)).flatMap bricks = run.flatMap bricks := by
  induction run with
  | nil => rfl
  | cons a rest ih =>
    cases a with
    | comment l text block => simpa [isComment] using ih
    | _ => simpa [isComment] using ih

theorem bricks_dropComments (h : dropComments run = .ok out) :
    out.flatMap bricks = run.flatMap bricks := by
  simp only [dropComments] at h
  split at h
  · cases h
  · cases h
    exact bricks_filter_comments run

theorem MembersOf.bricks_eq {ms} (h : MembersOf lv run ms) :
    (ms.map Member.atom).flatMap bricks = run.flatMap bricks := by
  induction h with
  | nil => rfl
  | cons hm _ ih => cases hm <;> simp [ih, Member.atom]

theorem bricks_chain (clauses : List Member) : (Phrase.toAtom lv (.chain clauses)).bricks =
      (clauses.map Member.atom).flatMap bricks := by
  rw [Phrase.toAtom, bricks, bricksOf_eq]

theorem Joined.bricks_eq {ms ps} (h : Joined ms ps) :
    (ps.map (Phrase.toAtom lv)).flatMap bricks = (ms.map Member.atom).flatMap bricks := by
  induction h with
  | nil => rfl
  | atom _ _ ih => simp [ih, Phrase.toAtom]
  | chain _ _ _ ih => simp [ih, bricks_chain]

theorem bricks_groupSyntax (h : groupSyntax lv run = .ok out) :
    out.flatMap bricks = run.flatMap bricks := by
  obtain ⟨ps, hps, rfl⟩ := map_ok h
  obtain ⟨ms, hms, hps⟩ := phrases_inv hps
  exact hps.bricks_eq.trans hms.bricks_eq

/-! ## Calls and subscripts -/

theorem bricks_applyTo (callee : Atom) {b} (hb : b.isArgumentBracket = true) :
    (callee.applyTo b).bricks = callee.bricks ++ b.bricks := by
  cases b with
  | paren l raw r contents => cases callee <;> rfl
  | list l raw r contents => rfl
  | _ => cases hb

theorem bricks_foldl_applyTo : ∀ {bs : List Atom} {callee : Atom},
    (∀ b ∈ bs, b.isArgumentBracket = true) →
    (bs.foldl applyTo callee).bricks = callee.bricks ++ bs.flatMap bricks
  | [], _, _ => by simp
  | b :: bs, callee, h => by
    obtain ⟨hb, hbs⟩ := forall_mem_cons.1 h
    rw [foldl_cons, bricks_foldl_applyTo hbs, bricks_applyTo callee hb, flatMap_cons,
      append_assoc]

theorem bricks_groupCalls (run : List Atom) :
    (groupCalls run).flatMap bricks = run.flatMap bricks := by
  have hatom : ∀ p ∈ applications run, p.atom.bricks = p.source.flatMap bricks :=
    fun p hp => bricks_foldl_applyTo (applications_applies run p hp).arguments
  calc ((applications run).map Application.atom).flatMap bricks
      = (applications run).flatMap fun p => p.source.flatMap bricks := by
        rw [flatMap_map]
        exact flatMap_congr hatom
    _ = run.flatMap bricks := by rw [← flatMap_assoc, source_applications]

/-! ## Operations, slots and statements -/

theorem SplitOnce.bricks_eq (h : SplitOnce lv run out) :
    out.flatMap bricks = run.flatMap bricks := by
  cases h with
  | terms => rfl
  | operation heq =>
    subst heq
    simp [WatScript.operation, bricksOf_eq]

/-- Finding the structure of a lexed run keeps its bricks. -/
theorem bricks_structureRun (hlv : lv.tag = 0) (ht : Tokens lv run)
    (h : structureRun lv run = .ok out) : out.flatMap bricks = run.flatMap bricks := by
  obtain ⟨r₁, h₁, h⟩ := bind_ok h
  obtain ⟨r₂, h₂, h⟩ := bind_ok h
  have hp₁ := dropComments_ends ht
  rw [h₁] at hp₁
  have hp₂ : Ends _ _ (groupSyntax lv r₁) := groupSyntax_ends hp₁
  rw [h₂] at hp₂
  have hs := reduce_ends (groupCalls_parts hlv hp₂)
  rw [h] at hs
  rw [SplitOnce.bricks_eq hs, bricks_groupCalls, bricks_groupSyntax h₂, bricks_dropComments h₁]

theorem bricks_slotsFrom (held run : List Atom) : (slotsFrom lv held run).flatMap bricks =
      held.reverse.flatMap bricks ++ run.flatMap bricks := by
  fun_induction slotsFrom lv held run with
  | case1 => rfl
  | case2 held _ => simp [bricksOf_eq]
  | case3 held l c rest _ ih => simp [ih, bricksOf_eq]
  | case4 held l c rest _ ih | case5 held a rest _ ih => simp [ih]

theorem bricks_slots (run : List Atom) : (slots lv run).flatMap bricks = run.flatMap bricks :=
  bricks_slotsFrom [] run

theorem bricks_statementOf? (run : List Atom) :
    (statementOf? lv run).toList.flatMap bricks = run.flatMap bricks := by
  unfold statementOf?
  split
  · rfl
  · split <;> simp [bricksOf_eq]
  · simp [bricksOf_eq]

theorem bricks_cutStatements (run : List Atom) :
    (cutStatements lv run).flatMap bricks = run.flatMap bricks := by
  have hcomments : (run.filter isComment).flatMap bricks = [] := by
    refine flatMap_eq_nil_iff.2 fun a ha => ?_
    have := (mem_filter.1 ha).2
    cases a <;> first | rfl | cases this
  rw [cutStatements, flatMap_append, hcomments, nil_append, bricks_statementOf?,
    bricks_filter_comments]

theorem bricks_splitStatementsFrom (held run : List Atom) :
    (splitStatementsFrom lv held run).flatMap bricks =
      held.reverse.flatMap bricks ++ run.flatMap bricks := by
  fun_induction splitStatementsFrom lv held run with
  | case1 held => simp [bricks_cutStatements]
  | case2 held l c rest _ ih => simp [bricks_cutStatements, ih]
  | case3 held l c rest _ ih | case4 held a rest _ ih => simp [ih]

theorem bricks_splitStatements (run : List Atom) :
    (splitStatements lv run).flatMap bricks = run.flatMap bricks :=
  bricks_splitStatementsFrom [] run

/-! ## Lexemes -/

/-- The tokens of bricks. -/
def spellBricks (bs : List Brick) : List Token := bs.flatMap Brick.spelled

theorem spellBricks_append (bs bs' : List Brick) :
    spellBricks (bs ++ bs') = spellBricks bs ++ spellBricks bs' := flatMap_append

/-- The atom spells what its bricks spell. -/
def Atom.IsBuilt (a : Atom) : Prop := a.spelled = spellBricks a.bricks

theorem spelled_of_isBuilt {as : List Atom} (h : ∀ a ∈ as, a.IsBuilt) :
    as.flatMap spelled = spellBricks (as.flatMap bricks) := by
  induction as with
  | nil => rfl
  | cons a as ih =>
    obtain ⟨ha, has⟩ := forall_mem_cons.1 h
    rw [flatMap_cons, flatMap_cons, spellBricks_append, ih has, ha]

theorem spelled_call {callee raw args resolved split} (hc : callee.isCallable = true) :
    (Atom.call lv callee raw resolved split args).spelled =
      callee.spelled ++ .opening .round :: (spell [] raw ++ [.closing .round]) := by
  cases callee <;> first | rfl | cases hc

theorem bricks_call {callee raw args resolved split} (hc : callee.isCallable = true) :
    (Atom.call lv callee raw resolved split args).bricks = callee.bricks ++ [.group .round raw] := by
  cases callee <;> first | rfl | cases hc

theorem IsClause.isBuilt {a} (h : IsClause lv a) : a.IsBuilt := by
  cases h with
  | conditional | unconditional =>
    simp [Atom.IsBuilt, spelled, spelledOption, spellBricks, Brick.spelled]

theorem IsToken.isBuilt {a} (h : IsToken lv a) : a.IsBuilt := by
  unfold Atom.IsBuilt
  induction h with
  | separator | literal | comment | word | operator => rfl
  | @bracket pair raw => simp [Bracket.spelled_atom, Bracket.bricks_atom, spellBricks, Brick.spelled]
  | call hc _ _ ih =>
    rw [spelled_call hc, bricks_call hc, spellBricks_append, ← ih]
    simp [spellBricks, Brick.spelled]
  | access _ _ _ ih =>
    rw [spelled, bricks, spellBricks_append, ← ih]
    simp [spellBricks, Brick.spelled]
  | chain hclauses _ =>
    rw [spelled, bricks, spelledAll_eq, bricksOf_eq,
      spelled_of_isBuilt fun c hc => (hclauses c hc).isBuilt]

theorem Tokens.spell_bricks (h : Tokens lv run) :
    spell [] run = spellBricks (run.flatMap bricks) := by
  rw [h.spell_eq, spelled_of_isBuilt fun a ha => (h a ha).isBuilt]

theorem Tokens.isBuilt_item (h : Tokens lv run) : (Atom.item lv run false []).IsBuilt := by
  rw [Atom.IsBuilt, spelled, bricks, bricksOf_eq, h.spell_bricks]

theorem Pending.isBuilt {a} (h : Pending lv a) : a.IsBuilt := by
  cases h with
  | part h => exact h.isBuilt
  | @operation o left right _ hl hr =>
    simp [Atom.IsBuilt, WatScript.operation, spelled, bricksOf_eq, hl.spell_bricks,
      hr.spell_bricks, spellBricks, Brick.spelled]

theorem IsUnreadStmt.isBuilt {a} (h : IsUnreadStmt lv a) : a.IsBuilt := by
  cases h with
  | comment => rfl
  | exprs ht | control _ ht =>
    simp [Atom.IsBuilt, spelled, bricksOf_eq, ht.spell_bricks, spellBricks, Brick.spelled]

end

end WatScript
