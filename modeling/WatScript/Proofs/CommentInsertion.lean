import WatScript.Proofs.Cuts
import WatScript.Proofs.TidyCode
import WatScript.Proofs.TokenOrder

/-!
# Inserting a comment

A block comment between two tokens of a program does not change the code of the program
(`comment_insertion_keeps_code`). Reading meets the same trees apart from the comment, and the code does
not depend on comments.

The place of the comment matters in one case. A slot of a call with nothing in it is no argument, but a
slot with a comment in it is one, and an argument without a value has no code
(`comment_in_empty_slot_fails`).
-/

namespace WatScript

/-! ## Texts that can be read are legible -/

/-- The operators are those of the table. -/
def AllKnown (ts : List Token) : Prop := ∀ o, .operator o ∈ ts → (Operator.find? o).isSome

section
variable {ts ts' : List Token}

theorem AllKnown.append (h : AllKnown ts) (h' : AllKnown ts') : AllKnown (ts ++ ts') := fun o ho =>
  (List.mem_append.1 ho).elim (h o) (h' o)

theorem AllKnown.word (w : String) (h : AllKnown ts) : AllKnown (.word w :: ts) := fun o ho =>
  h o (by simpa using ho)

theorem AllKnown.bracketed (pair : Bracket) (h : AllKnown ts) :
    AllKnown (.opening pair :: (ts ++ [.closing pair])) := fun o ho => h o (by simpa using ho)

theorem allKnown_treeTokens {as} (h : ∀ a ∈ as, AllKnown a.tokens) : AllKnown (treeTokens as) := by
  induction as with
  | nil => simp [AllKnown, treeTokens]
  | cons a as ih =>
    obtain ⟨ha, has⟩ := List.forall_mem_cons.1 h
    exact ha.append (ih has)

end

mutual

theorem ExprTree.allKnown : ∀ {lv a}, ExprTree lv a → AllKnown a.tokens
  | _, _, .literal => by simp [AllKnown, Atom.tokens]
  | _, _, .word _ => by simp [AllKnown, Atom.tokens]
  | _, _, .block h => (allKnown_treeTokens fun s hs => (h s hs).allKnown).bracketed .brace
  | _, _, .paren h => (allKnown_treeTokens fun a ha => (h a ha).allKnown).bracketed .round
  | _, _, .list h => (allKnown_treeTokens fun a ha => (h a ha).allKnown).bracketed .square
  | _, _, .operation ho hl hr => by
    refine hl.allKnown.append fun o hmem => ?_
    rcases List.mem_cons.1 hmem with heq | hmem
    · cases heq
      exact ho
    · exact hr.allKnown o hmem
  | _, _, .call hcall hc h => by
    rw [tokens_call hcall]
    exact hc.allKnown.append ((allKnown_treeTokens fun a ha => (h a ha).allKnown).bracketed .round)
  | _, _, .access _ hc h =>
    hc.allKnown.append ((allKnown_treeTokens fun a ha => (h a ha).allKnown).bracketed .square)
  | _, _, .chain _ h => allKnown_treeTokens fun c hm => (h c hm).allKnown

theorem ItemTree.allKnown : ∀ {lv a}, ItemTree lv a → AllKnown a.tokens
  | _, _, .intro h => allKnown_treeTokens fun a ha => (h a ha).allKnown

theorem ClauseTree.allKnown : ∀ {lv c}, ClauseTree lv c → AllKnown c.tokens
  | _, _, .conditional _ _ h hb =>
    .word _ (((allKnown_treeTokens fun a ha => (h a ha).allKnown).bracketed .round).append
      ((allKnown_treeTokens fun s hs => (hb s hs).allKnown).bracketed .brace))
  | _, _, .unconditional _ _ hb =>
    .word _ ((allKnown_treeTokens fun s hs => (hb s hs).allKnown).bracketed .brace)

theorem StmtTree.allKnown : ∀ {lv s}, StmtTree lv s → AllKnown s.tokens
  | _, _, .comment => by simp [AllKnown, Atom.tokens]
  | _, _, .exprs h => allKnown_treeTokens fun a ha => (h a ha).allKnown
  | _, _, .control _ h => .word _ (allKnown_treeTokens fun a ha => (h a ha).allKnown)

end

theorem legible_of_parseStmts {limit text stmts} (h : parseStmts limit text = .ok stmts) :
    ∃ raw, extractLiterals .top (explode .top text) = .ok raw ∧ Legible raw := by
  have hreads := parseStmts_reads limit text
  have htrees := parseStmts_trees limit text
  rw [h] at hreads htrees
  obtain ⟨raw, hraw, hreads⟩ := hreads
  have hknown : AllKnown (treeTokens stmts) := allKnown_treeTokens fun s hs => (htrees s hs).allKnown
  rw [hreads.tokens_eq] at hknown
  exact ⟨raw, hraw, rawRun_extractLiterals hraw, hknown⟩

/-! ## Inserting a comment -/

/-- A block comment with a space on each side may stand between any two tokens of a program, except in
an empty slot: the program still compiles, to the same code. -/
theorem comment_insertion_keeps_code (limit : Int64) {pre post comment : Text} {stmts : List Atom}
    {code : List Instr} (hparse : parseStmts limit (pre ++ post) = .ok stmts)
    (hcode : generateStmts stmts = .ok code) (hcut : Boundary pre post)
    (hslot : ¬ InEmptySlot pre post) (hcomment : ¬ ['*', '/'] <:+: comment.toChars) :
    ∃ stmts', parseStmts limit (pre ++ (spacedComment comment ++ post)) = .ok stmts' ∧
      generateStmts stmts' = .ok code := by
  obtain ⟨raw, hraw, hlegible⟩ := legible_of_parseStmts hparse
  obtain ⟨raw', hraw', hspell, hins⟩ := hcut.inserted hcomment hslot hraw
  have hlegible' : Legible raw' := ⟨rawRun_extractLiterals hraw', hspell ▸ hlegible.known⟩
  have hagree := (lockstep_inserted rfl).parseStmts_agree limit .brace hraw hraw'
    ⟨hlegible, hlegible', hins⟩
  rw [hparse] at hagree
  obtain ⟨stmts', hparse', htidy⟩ := hagree.exists_ok
  have htrees := parseStmts_trees limit (pre ++ post)
  have htrees' := parseStmts_trees limit (pre ++ (spacedComment comment ++ post))
  rw [hparse] at htrees
  rw [hparse'] at htrees'
  refine ⟨stmts', hparse', ?_⟩
  rw [← generateStmts_tidy htrees', ← htidy, generateStmts_tidy htrees, hcode]

/-- A comment before an argument of a call in the body of a loop. -/
theorem comment_insertion_keeps_code_argument :
    let pre : Text := .ofString "while (i < n) \x7b i = f(i,"
    let post : Text := .ofString "1) \x7d"
    Boundary pre post ∧ ¬ InEmptySlot pre post ∧
    ∃ stmts, parseStmts 8 (pre ++ (spacedComment (.ofString "), \"") ++ post)) = .ok stmts ∧
      generateStmts stmts = .ok [⟨.loop, .ofString "$L0"⟩, ⟨.block, .ofString "$B0"⟩, .localGet "i",
        .localGet "n", .plain (.binary .lt), .plain .eqz, ⟨.brIf, .ofString "$B0"⟩, .localGet "i",
        .const 1, .call "f", .localSet "i", ⟨.br, .ofString "$L0"⟩, .plain .endFrame,
        .plain .endFrame] := by
  intro pre post
  have hok : (parseStmts 8 (pre ++ post)).map generateStmts = .ok (.ok
      [⟨.loop, .ofString "$L0"⟩, ⟨.block, .ofString "$B0"⟩, .localGet "i", .localGet "n",
        .plain (.binary .lt), .plain .eqz, ⟨.brIf, .ofString "$B0"⟩, .localGet "i", .const 1, .call "f",
        .localSet "i", ⟨.br, .ofString "$L0"⟩, .plain .endFrame, .plain .endFrame]) := by
    decide +kernel
  obtain ⟨stmts, hparse, hcode⟩ := map_ok hok
  have hcut : Boundary pre post :=
    ⟨⟨_, scans_plain (by decide +kernel) (by decide +kernel)⟩, by decide +kernel⟩
  have hslot : ¬ InEmptySlot pre post := by
    -- the second part begins with a digit, neither white space nor a closing bracket
    rintro ⟨-, gap, c, after, hpost, hgap, hc⟩
    have hpost : ['1', ')', ' ', '\x7d'] = gap ++ c :: after := hpost
    cases gap with
    | nil =>
      obtain ⟨rfl, -⟩ := List.cons.inj hpost
      exact absurd hc (by decide)
    | cons d gap =>
      obtain ⟨rfl, -⟩ := List.cons.inj hpost
      exact absurd (hgap '1' (by simp)) (by decide)
  exact ⟨hcut, hslot, comment_insertion_keeps_code 8 hparse hcode hcut hslot (by decide +kernel)⟩

/-- An empty slot is no argument, but with a comment in it it is one, and has no value. -/
theorem comment_in_empty_slot_fails :
    let pre : Text := .ofString "f("
    let post : Text := .ofString ")"
    Boundary pre post ∧
    (∃ stmts, parseStmts 8 (pre ++ post) = .ok stmts ∧ generateStmts stmts = .ok [.call "f"]) ∧
    ∃ stmts, parseStmts 8 (pre ++ (spacedComment (.ofString " c ") ++ post)) = .ok stmts ∧
      generateStmts stmts = .error .notOneValue := by
  intro pre post
  have hcode : (parseStmts 8 (pre ++ post)).map generateStmts = .ok (.ok [.call "f"]) := by
    decide +kernel
  have hfault : (parseStmts 8 (pre ++ (spacedComment (.ofString " c ") ++ post))).map generateStmts =
      .ok (.error .notOneValue) := by
    decide +kernel
  have hcut : Boundary pre post :=
    ⟨⟨_, scans_plain (by decide +kernel) (by decide +kernel)⟩, by decide +kernel⟩
  exact ⟨hcut, map_ok hcode, map_ok hfault⟩

end WatScript
