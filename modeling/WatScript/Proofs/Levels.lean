import Mathlib.Algebra.Group.Nat.Defs
import WatScript.Proofs.CommentPlaces

/-!
# Levels record nesting

The level of every node that was read of a text is the number of brackets, and of loop bodies, that are
open where the node stands in the text (`levels_record_nesting`). For most nodes that is `Situated`, since
they begin with a lexeme. The level of a comment is that of the point where it is written, which
`Tells` leads back to.
-/

namespace WatScript

/-! ## Sizes -/

theorem length_munchFrom (skip : Nat) (held cs : List Char) :
    (munchFrom skip held cs).length ≤ held.length + cs.length := by
  have hword (held : List Char) : (heldWord held).length ≤ held.length := by
    cases held <;> simp [heldWord]
  fun_induction munchFrom skip held cs with
  | case1 _ held => exact hword held
  | case2 _ _ _ _ ih => simp at ih ⊢; omega
  | case3 held c cs _ o _ ih | case4 held c cs _ _ ih =>
    have := hword held
    simp at ih ⊢
    omega
  | case5 held c cs _ ih => simp at ih ⊢; omega

/-- How many tokens may come from what is held. -/
def LexMode.size : LexMode → Nat
  | .plain held => held.length
  | .quotation .. => 1
  | .lineComment | .blockComment => 0

theorem length_lexFrom (mode : LexMode) (cs : List Char) :
    (lexFrom mode cs).length ≤ mode.size + cs.length := by
  have hmunch (held : List Char) : (munch held.reverse).length ≤ held.length := by
    simpa [munch] using length_munchFrom 0 [] held.reverse
  fun_induction lexFrom mode cs with
  | case1 held => exact hmunch held
  | case2 | case3 | case4 => simp [LexMode.size]
  | case5 held _ ih | case6 held _ ih | case7 held _ ih | case8 held _ _ _ _ _ _ ih
  | case9 held _ _ _ _ _ _ _ _ ih =>
    have := hmunch held
    simp [LexMode.size] at ih ⊢
    omega
  | case10 _ _ _ _ _ _ _ _ ih | case11 _ _ _ ih | case12 _ _ ih | case13 _ _ ih
  | case14 _ _ _ _ _ ih | case15 _ ih | case16 _ _ _ ih | case17 _ ih | case18 _ _ _ ih =>
    simp [LexMode.size] at ih ⊢
    omega

theorem length_lexemes (text : Text) : (lexemes text).length ≤ text.length := by
  simpa [lexemes, LexMode.size, Text.toChars] using length_lexFrom (.plain []) text.toChars

theorem Surroundings.depth_passAll (s : Surroundings) (ts : List Token) :
    (s.passAll ts).depth ≤ s.depth + ts.length := by
  induction ts generalizing s with
  | nil => exact Nat.le_refl _
  | cons t ts ih =>
    have hpass : (s.pass t).depth ≤ s.depth + 1 := by
      obtain ⟨scopes, ahead⟩ := s
      cases t with
      | closing pair => cases scopes <;> simp [Surroundings.pass, Surroundings.depth]; omega
      | _ => simp [Surroundings.pass, Surroundings.depth]
    have hrest := ih (s.pass t)
    rw [Surroundings.passAll_cons, List.length_cons]
    omega

/-! ## Levels -/

/-- The level is that of a point of the text with these surroundings. Levels are counted in 64 bits,
which is exact for a text of less than 2^63 characters. -/
structure Level.IsAt (lv : Level) (text : Text) (s : Surroundings) : Prop where
  records : lv.Records s
  exact : text.length < 2 ^ 63 → lv.depth.toInt = s.depth ∧ lv.loops.toInt = s.loops

theorem Level.Records.isAt {lv : Level} {text : Text} {before : List Token}
    (h : lv.Records (surroundings before)) (hlen : before.length ≤ text.length) :
    lv.IsAt text (surroundings before) := by
  refine ⟨h, fun hsize => ?_⟩
  have hdepth : (surroundings before).depth ≤ 0 + before.length := Surroundings.depth_passAll _ before
  have hloops : (surroundings before).loops ≤ (surroundings before).depth := List.countP_le_length
  exact ⟨by rw [h.depth, Int64.toInt_ofNat_of_lt (by omega)],
    by rw [h.loops, Int64.toInt_ofNat_of_lt (by omega)]⟩

/-- The levels of trees that were read of a text are those of the text. -/
structure RecordsNesting (text : Text) (trees : List Atom) : Prop where
  closed : surroundings (lexemes text) = ⟨[], .nothing⟩
  placed : (placesOf [] trees).map Prod.snd = nodes trees
  /-- A node begins at its place and closes the brackets that it opens. -/
  stands : ∀ x ∈ placesOf [] trees, (∃ after, lexemes text = x.1 ++ (x.2.tokens ++ after)) ∧
    Neutral x.2.tokens
  level : ∀ x ∈ placesOf [] trees, x.2.level.IsAt text (surroundings x.1)
  /-- A comment is placed in front of its statement. Its level is that of the point where it is written,
  outside of quotations and other comments. -/
  comment : ∀ l comment block, .comment l comment block ∈ nodes trees → ∃ pre post,
    text = pre ++ post ∧ BeginsComment comment block post.toChars ∧
      (∃ raw, Scans post.toChars pre.toChars raw) ∧ l.IsAt text (surroundings (lexemes pre))
  /-- What a node holds without a bracket of its own around it has the level of the node. -/
  fellows : ∀ n ∈ nodes trees, ∀ b ∈ n.fellows, b.level = n.level

theorem AllNest.recordsNesting {text : Text} {raw trees : List Atom}
    (hraw : extractLiterals .top (explode .top text) = .ok raw) (h : AllNest .top trees)
    (htokens : treeTokens trees = spell [] raw) (hwalked : ∀ a ∈ trees, a.Walked)
    (htells : Tells raw trees) : RecordsNesting text trees := by
  have hlex : treeTokens trees = lexemes text := htokens.trans (spell_extractLiterals hraw)
  have hplaced := map_placesOf_eq_nodes hwalked []
  have hsituated : ∀ x ∈ placesOf [] trees, Situated (lexemes text) x := by
    rw [← hlex]
    exact h.situated ⟨rfl, rfl, rfl⟩
  have hnode : ∀ n ∈ nodes trees, ∃ at_, (at_, n) ∈ placesOf [] trees := fun n hn => by
    rw [← hplaced] at hn
    obtain ⟨⟨at_, _⟩, hx, rfl⟩ := List.mem_map.1 hn
    exact ⟨at_, hx⟩
  refine ⟨?_, hplaced, fun x hx => ⟨(hsituated x hx).stands, (hsituated x hx).closed⟩, fun x hx => ?_,
    fun l comment block hmem => ?_, fun n hn => ?_⟩
  · rw [← hlex]
    exact h.neutral _ rfl
  · obtain ⟨after, heq⟩ := (hsituated x hx).stands
    refine (hsituated x hx).recorded.isAt (Nat.le_trans ?_ (length_lexemes text))
    rw [heq, List.length_append]
    exact Nat.le_add_right ..
  · obtain ⟨at_, hx⟩ := hnode _ hmem
    obtain ⟨ts, hholds, hscopes⟩ := htells hx
    obtain ⟨pre, post, rfl, hbegins, hscans, rfl⟩ := hholds.written hraw
    refine ⟨pre, post, rfl, hbegins, hscans, Level.Records.isAt ?_ ?_⟩
    · exact (hsituated _ hx).recorded.of_scopes hscopes
    · exact Nat.le_trans (length_lexemes pre) (by simp)
  · obtain ⟨at_, hx⟩ := hnode n hn
    exact (hsituated _ hx).fellows

/-- The level of every node of what was read of a text is the number of brackets and of loop bodies that
enclose it there. -/
theorem levels_record_nesting (limit : Int64) (text : Text) :
    (∀ exprs, parseExpr limit text = .ok exprs → RecordsNesting text exprs) ∧
      ∀ stmts, parseStmts limit text = .ok stmts → RecordsNesting text stmts := by
  have hexpr := parseExpr_reads limit text
  have hstmts := parseStmts_reads limit text
  refine ⟨fun exprs h => ?_, fun stmts h => ?_⟩
  · rw [h] at hexpr
    obtain ⟨raw, hraw, hreads⟩ := hexpr
    exact hreads.allNest.recordsNesting hraw hreads.tokens_eq (fun a ha => (hreads.trees a ha).walked)
      (hreads.lexes.tells (rawRun_extractLiterals hraw) hreads.covers)
  · rw [h] at hstmts
    obtain ⟨raw, hraw, hreads⟩ := hstmts
    exact hreads.allNest.recordsNesting hraw hreads.tokens_eq (fun a ha => (hreads.trees a ha).walked)
      (hreads.lexes.tells (rawRun_extractLiterals hraw) hreads.covers)

/-- A comment between operands in the body of a loop. -/
theorem levels_record_nesting_loop :
    let text : Text := .ofString "while (i) \x7b x = [i] /* c */ + 1; \x7d"
    ∃ stmts, parseStmts 8 text = .ok stmts ∧ RecordsNesting text stmts ∧
      (nodes stmts).map (fun n => (n.kindName, n.level.depth, n.level.loops)) =
        [("ExprStmt", 0, 0), ("SyntaxChain", 0, 0), ("SyntaxClause", 0, 0), ("ParenBlock", 0, 0),
          ("Word", 1, 0), ("Block", 0, 0), ("Comment", 1, 1), ("ExprStmt", 1, 1), ("Func", 1, 1),
          ("Operator", 1, 1), ("Item", 1, 1), ("Word", 1, 1), ("Item", 1, 1), ("Func", 1, 1),
          ("Operator", 1, 1), ("Item", 1, 1), ("ListBlock", 1, 1), ("Item", 2, 1), ("Word", 2, 1),
          ("Item", 1, 1), ("Word", 1, 1)] := by
  intro text
  have hok : (parseStmts 8 text).map
      (fun stmts => (nodes stmts).map fun n => (n.kindName, n.level.depth, n.level.loops)) = .ok
        [("ExprStmt", 0, 0), ("SyntaxChain", 0, 0), ("SyntaxClause", 0, 0), ("ParenBlock", 0, 0),
          ("Word", 1, 0), ("Block", 0, 0), ("Comment", 1, 1), ("ExprStmt", 1, 1), ("Func", 1, 1),
          ("Operator", 1, 1), ("Item", 1, 1), ("Word", 1, 1), ("Item", 1, 1), ("Func", 1, 1),
          ("Operator", 1, 1), ("Item", 1, 1), ("ListBlock", 1, 1), ("Item", 2, 1), ("Word", 2, 1),
          ("Item", 1, 1), ("Word", 1, 1)] := by
    decide +kernel
  obtain ⟨stmts, hparse, hlevels⟩ := map_ok hok
  exact ⟨stmts, hparse, (levels_record_nesting 8 text).2 stmts hparse, hlevels⟩

end WatScript
