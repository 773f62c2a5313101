import WatScript.Proofs.Caches
import WatScript.Proofs.InstructionText
import WatScript.Proofs.TokenOrder

/-!
# The text of a program reads back

An instruction of generated code has a listed mnemonic, and its immediate is a number, a label or a word of
the source text (`Instr.IsSpelled`). A word holds no separator, so it never starts a comment; but it may
hold blanks: four characters end a word of the source (`isSpace`), while all white space ends a field of
instruction text. Blanks in words are the only thing that can go wrong (`readCode_iff_solid`).
-/

namespace WatScript

open List Text
open Instr (plain)

/-! ## What immediates are made of -/

/-- The instruction has a listed operation, and an immediate only if it takes one: a number, a label, or a
word among the tokens. -/
inductive Instr.IsSpelled (tokens : List Token) : Instr → Prop
  | plain {op} : op ∈ Op.listed → IsSpelled tokens (plain op)
  | const (v : Int32) : IsSpelled tokens (.const v)
  | loopLabel {op} (n : Int64) : op ∈ Op.listed → op.takesImmediate = true →
      IsSpelled tokens ⟨op, Instr.loopLabel n⟩
  | blockLabel {op} (n : Int64) : op ∈ Op.listed → op.takesImmediate = true →
      IsSpelled tokens ⟨op, Instr.blockLabel n⟩
  | word {op w} : op ∈ Op.listed → op.takesImmediate = true →
      Token.word w ∈ tokens → IsSpelled tokens ⟨op, Instr.ident w⟩

/-- The tokens spell all instructions. -/
def Spells (tokens : List Token) (code : List Instr) : Prop := ∀ i ∈ code, i.IsSpelled tokens

namespace Spells
variable {tokens tokens' : List Token} {code code' : List Instr} {i : Instr} {w : String}

theorem nil : Spells tokens [] := forall_mem_nil _

theorem cons (hi : i.IsSpelled tokens) (h : Spells tokens code) : Spells tokens (i :: code) :=
  forall_mem_cons.2 ⟨hi, h⟩

theorem append (h : Spells tokens code) (h' : Spells tokens code') : Spells tokens (code ++ code') :=
  forall_mem_append.2 ⟨h, h'⟩

theorem plain {op} (hop : op ∈ Op.listed) (h : Spells tokens code) :
    Spells tokens (.plain op :: code) :=
  h.cons (.plain hop)

theorem binary {op} (h : Spells tokens code) : Spells tokens (.plain (.binary op) :: code) :=
  h.cons (.plain (by cases op <;> decide))

theorem localGet (hw : .word w ∈ tokens) (h : Spells tokens code) :
    Spells tokens (.localGet w :: code) :=
  h.cons (@Instr.IsSpelled.word _ .localGet w (by decide) rfl hw)

theorem localSet (hw : .word w ∈ tokens) (h : Spells tokens code) :
    Spells tokens (.localSet w :: code) :=
  h.cons (@Instr.IsSpelled.word _ .localSet w (by decide) rfl hw)

theorem call (hw : .word w ∈ tokens) (h : Spells tokens code) : Spells tokens (.call w :: code) :=
  h.cons (@Instr.IsSpelled.word _ .call w (by decide) rfl hw)

theorem mono (h : Spells tokens code) (hsub : ∀ t ∈ tokens, t ∈ tokens') : Spells tokens' code := by
  intro i hi
  cases h i hi with
  | plain hop => exact .plain hop
  | const v => exact .const v
  | loopLabel n hop htakes => exact .loopLabel n hop htakes
  | blockLabel n hop htakes => exact .blockLabel n hop htakes
  | word hop htakes hw => exact .word hop htakes (hsub _ hw)

end Spells

mutual

theorem ExprCode.spells : ∀ {a code}, ExprCode a code → Spells a.tokens code
  | _, _, .number _ _ => .cons (.const _) .nil
  | _, _, .name _ _ => .localGet mem_cons_self .nil
  | _, _, .paren h | _, _, .item h => h.spells.mono (by simp +contextual [Atom.tokens, treeTokens])
  | _, _, .binary _ hl hr =>
    (hl.spells.mono (by simp +contextual [Atom.tokens])).append
      ((hr.spells.mono (by simp +contextual [Atom.tokens])).append (.binary .nil))
  | _, _, .unary _ _ hr =>
    .cons (.const _) ((hr.spells.mono (by simp +contextual [Atom.tokens])).append (.binary .nil))
  | _, _, .call _ _ h =>
    (h.spells.mono (by simp +contextual [Atom.tokens])).append (.call (by simp [Atom.tokens]) .nil)
  | _, _, .load h =>
    (h.spells.mono (by simp +contextual [Atom.tokens, treeTokens])).append (.plain (by decide) .nil)

theorem ArgsCode.spells : ∀ {args code}, ArgsCode args code → Spells (treeTokens args) code
  | _, _, .nil => .nil
  | _, _, .cons h hs =>
    (h.spells.mono (by simp +contextual [treeTokens])).append
      (hs.spells.mono (by simp +contextual [treeTokens]))

end

theorem AssignCode.spells {contents op rcode code tokens}
    (h : AssignCode contents op rcode code) (hr : Spells tokens rcode)
    (hsub : ∀ t ∈ treeTokens contents, t ∈ tokens) : Spells tokens code := by
  cases h with
  | declare _ hd =>
    refine hr.append (.localSet (hsub _ ?_) .nil)
    obtain ⟨-, ⟨l, l', rfl⟩ | ⟨l, l', l'', rfl⟩⟩ := declared?_inv hd <;>
      simp [treeTokens, Atom.tokens]
  | setLocal =>
    exact hr.append (.localSet (hsub _ (by simp [treeTokens, Atom.tokens])) .nil)
  | @updateLocal _ name =>
    have hw := hsub (.word name) (by simp [treeTokens, Atom.tokens])
    exact .localGet hw (hr.append (.binary (.localSet hw .nil)))
  | setCell hi =>
    have hcell := hi.spells.mono fun t ht => hsub t (by simp [treeTokens, Atom.tokens, ht])
    exact hcell.append (hr.append (.plain (by decide) .nil))
  | updateCell hi =>
    have hcell := hi.spells.mono fun t ht => hsub t (by simp [treeTokens, Atom.tokens, ht])
    exact hcell.append (hcell.append (.plain (by decide) (hr.append (.binary (.plain (by decide) .nil)))))

mutual

theorem StmtCode.spells : ∀ {loop a code}, StmtCode loop a code → Spells a.tokens code
  | _, _, _, .comment | _, _, _, .nothing | _, _, _, .declare _ => .nil
  | _, _, _, .value h => h.spells.mono (by simp +contextual [Atom.tokens, treeTokens])
  | _, _, _, .assign _ hr h =>
    h.spells (hr.spells.mono (by simp +contextual [Atom.tokens, treeTokens]))
      (by simp +contextual [Atom.tokens, treeTokens])
  | _, _, _, .branches h => h.spells.mono (by simp +contextual [Atom.tokens, treeTokens])
  | _, _, _, .whileLoop hc hb =>
    .cons (.loopLabel _ (by decide) rfl) (.cons (.blockLabel _ (by decide) rfl)
      ((hc.spells.mono (by simp +contextual [Atom.tokens, treeTokens, tokensOption])).append
        (.plain (by decide) (.cons (.blockLabel _ (by decide) rfl)
          ((hb.spells.mono (by simp +contextual [Atom.tokens, treeTokens])).append
            (.cons (.loopLabel _ (by decide) rfl)
              (.plain (by decide) (.plain (by decide) .nil))))))))
  | _, _, _, .ret => .plain (by decide) .nil
  | _, _, _, .retValue h =>
    (h.spells.mono (by simp +contextual [Atom.tokens, treeTokens])).append (.plain (by decide) .nil)
  | _, _, _, .brk => .cons (.blockLabel _ (by decide) rfl) (.plain (by decide) .nil)
  | _, _, _, .cont => .cons (.loopLabel _ (by decide) rfl) (.plain (by decide) .nil)
  | _, _, _, .assertion h =>
    (h.spells.mono (by simp +contextual [Atom.tokens, treeTokens])).append
      (.plain (by decide) (.plain (by decide) (.plain (by decide) (.plain (by decide) .nil))))

theorem ArmsCode.spells : ∀ {loop clauses code},
    ArmsCode loop clauses code → Spells (treeTokens clauses) code
  | _, _, _, .intro _ hc hb he =>
    (hc.spells.mono (by simp +contextual [Atom.tokens, treeTokens, tokensOption])).append
      (.plain (by decide) ((hb.spells.mono (by simp +contextual [Atom.tokens, treeTokens])).append
        ((he.spells.mono (by simp +contextual [treeTokens])).append (.plain (by decide) .nil))))

theorem ElseCode.spells : ∀ {loop clauses code},
    ElseCode loop clauses code → Spells (treeTokens clauses) code
  | _, _, _, .nil => .nil
  | _, _, _, .arms h => .plain (by decide) h.spells
  | _, _, _, .otherwise h =>
    .plain (by decide) (h.spells.mono (by simp +contextual [Atom.tokens, treeTokens]))

theorem StmtsCode.spells : ∀ {loop stmts code},
    StmtsCode loop stmts code → Spells (treeTokens stmts) code
  | _, _, _, .nil => .nil
  | _, _, _, .cons h hs =>
    (h.spells.mono (by simp +contextual [treeTokens])).append
      (hs.spells.mono (by simp +contextual [treeTokens]))

end

/-! ## Characters of immediates -/

theorem mem_toString_int {n : Int} {c : Char} (h : c ∈ (toString n).toList) :
    c = '-' ∨ c.isDigit = true := by
  rw [Int.toString_eq_repr, Int.repr_eq_if] at h
  split at h
  · rw [Nat.repr_eq_ofList_toDigits, String.toList_ofList] at h
    exact .inr (Nat.isDigit_of_mem_toDigits (by decide) (by decide) h)
  · rw [Nat.repr_eq_ofList_toDigits, String.toList_append, @String.toList_ofList (Nat.toDigits _ _)] at h
    rcases mem_append.1 h with h | h
    · exact .inl (mem_singleton.1 h)
    · exact .inr (Nat.isDigit_of_mem_toDigits (by decide) (by decide) h)

theorem not_isBlank_of_isDigit {c} (h : c.isDigit = true) : isBlank c = false ∧ c ≠ ';' := by
  have hlo : 48 ≤ c.toNat ∧ c.toNat ≤ 57 := by
    simpa [Char.isDigit, UInt32.le_iff_toNat_le] using h
  refine ⟨?_, ?_⟩
  · simp only [isBlank, Bool.or_eq_false_iff, Bool.and_eq_false_iff, decide_eq_false_iff_not,
      beq_eq_false_iff_ne]
    omega
  · rintro rfl
    exact absurd h (by decide)

/-- The glyph is a character that starts no comment, and if it is a blank, it comes from the text and ends
no word there. -/
def IsWordGlyph (text : Text) (g : Glyph) : Prop :=
  ∃ c, g = .char c ∧ c ≠ ';' ∧ (isBlank c = true → c ∈ text.toChars ∧ isSpace c = false)

section
variable {text : Text}

theorem isWordGlyph_of_solid {c} (hc : isBlank c = false ∧ c ≠ ';') : IsWordGlyph text (.char c) :=
  ⟨c, rfl, hc.2, fun hblank => by rw [hc.1] at hblank; cases hblank⟩

theorem isWordGlyph_number (n : Int) : ∀ g ∈ ofString (toString n), IsWordGlyph text g := by
  intro g hg
  obtain ⟨c, hc, rfl⟩ := mem_map.1 hg
  rcases mem_toString_int hc with rfl | hc
  · exact isWordGlyph_of_solid (by decide)
  · exact isWordGlyph_of_solid (not_isBlank_of_isDigit hc)

theorem isWordGlyph_label {letter : String} (hletter : ∀ c ∈ letter.toList, isBlank c = false ∧ c ≠ ';')
    (n : Int) : ∀ g ∈ Instr.ident (letter ++ toString n), IsWordGlyph text g := by
  intro g hg
  rcases mem_cons.1 hg with rfl | hg
  · exact isWordGlyph_of_solid (by decide)
  rw [ofString, String.toList_append, map_append] at hg
  rcases mem_append.1 hg with hg | hg
  · obtain ⟨c, hc, rfl⟩ := mem_map.1 hg
    exact isWordGlyph_of_solid (hletter c hc)
  · exact isWordGlyph_number n g hg

theorem Instr.IsSpelled.imm {i : Instr} (h : i.IsSpelled (lexemes text)) :
    ∀ g ∈ i.imm, IsWordGlyph text g := by
  cases h with
  | plain => exact forall_mem_nil _
  | const v => exact isWordGlyph_number v.toInt
  | loopLabel n => exact isWordGlyph_label (forall_mem_singleton.2 (by decide)) n.toInt
  | blockLabel n => exact isWordGlyph_label (forall_mem_singleton.2 (by decide)) n.toInt
  | word _ _ hw =>
    intro g hg
    rcases mem_cons.1 hg with rfl | hg
    · exact isWordGlyph_of_solid (by decide)
    obtain ⟨c, hc, rfl⟩ := mem_map.1 hg
    obtain ⟨htext, hspace, hsep⟩ := word_mem_lexemes hw c hc
    refine ⟨c, rfl, ?_, fun _ => ⟨htext, hspace⟩⟩
    rintro rfl
    exact absurd hsep (by decide)

theorem Instr.IsSpelled.isWritable {i : Instr} (h : i.IsSpelled (lexemes text))
    (hsolid : ∀ g ∈ i.imm, isBlankGlyph g = false) : i.IsWritable where
  listed := by
    cases h with
    | plain hop | loopLabel _ hop | blockLabel _ hop | word hop => exact hop
    | const v => exact (by decide : Op.const ∈ Op.listed)
  taken himm := by
    cases h with
    | plain => exact absurd rfl himm
    | loopLabel _ _ htakes | blockLabel _ _ htakes | word _ htakes => exact htakes
    | const => rfl
  solid := hsolid
  uncommented hi := by
    obtain ⟨c, hc, hsemi, -⟩ := h.imm _ (hi.subset mem_cons_self)
    exact hsemi (Glyph.char.inj hc).symm

end

/-! ## Texts of programs -/

theorem Text.ofString_toString {t} (h : ∀ g ∈ t, ∃ c, g = .char c) : ofString t.toString = t := by
  rw [ofString, Text.toString, String.toList_ofList, toChars, map_map]
  have hid : t.map (Glyph.char ∘ Glyph.toChar) = t.map id := by
    refine map_congr_left fun g hg => ?_
    obtain ⟨c, rfl⟩ := h g hg
    rfl
  rw [hid, map_id]

theorem mem_formatLines {code} : ∀ {level line},
    line ∈ formatLines level code → ∃ i ∈ code, ∃ indent, line = instrLine indent i := by
  induction code with
  | nil =>
    intro level line h
    cases h
  | cons i code ih =>
    intro level line h
    obtain ⟨indent, level', hlines⟩ := formatLines_cons level i code
    rw [hlines] at h
    rcases mem_cons.1 h with rfl | h
    · exact ⟨i, mem_cons_self, indent, rfl⟩
    · obtain ⟨j, hj, hline⟩ := ih h
      exact ⟨j, mem_cons_of_mem _ hj, hline⟩

theorem formatCode_chars {code} (h : ∀ i ∈ code, ∀ g ∈ i.imm, ∃ c, g = .char c) :
    ∀ g ∈ formatCode code, ∃ c, g = .char c := by
  have hname : ∀ (i : Instr), ∀ g ∈ ofString i.op.name, ∃ c, g = .char c := by
    intro i g hg
    obtain ⟨c, -, rfl⟩ := mem_map.1 hg
    exact ⟨c, rfl⟩
  intro g hg
  obtain ⟨line, hline, hg⟩ := mem_flatten.1 hg
  obtain ⟨i, hi, indent, rfl⟩ := mem_formatLines hline
  rcases mem_append.1 hg with hg | hg
  · rcases mem_append.1 hg with hg | hg
    · exact ⟨' ', eq_of_mem_replicate hg⟩
    rw [Instr.text] at hg
    split at hg
    · exact hname i g hg
    · rcases mem_append.1 hg with hg | hg
      · exact hname i g hg
      · rcases mem_cons.1 hg with rfl | hg
        · exact ⟨' ', rfl⟩
        · exact h i hi g hg
  · exact ⟨'\n', mem_singleton.1 hg⟩

section
variable {maxDepth : Int64} {isExpr : Bool} {source : Text} {p : Program}

theorem treeTokens_of_read {atoms} (h : Program.read maxDepth isExpr source = .ok atoms) :
    treeTokens atoms = lexemes source := by
  cases isExpr with
  | true =>
    have hreads := parseExpr_reads maxDepth source
    rw [show parseExpr maxDepth source = .ok atoms from h] at hreads
    obtain ⟨raw, hraw, hreads⟩ := hreads
    rw [hreads.tokens_eq, spell_extractLiterals hraw]
  | false =>
    have hreads := parseStmts_reads maxDepth source
    rw [show parseStmts maxDepth source = .ok atoms from h] at hreads
    obtain ⟨raw, hraw, hreads⟩ := hreads
    rw [hreads.tokens_eq, spell_extractLiterals hraw]

theorem spells_of_generate {atoms code} (hr : Program.read maxDepth isExpr source = .ok atoms)
    (hg : Program.generate isExpr atoms = .ok code) : Spells (lexemes source) code := by
  rw [← treeTokens_of_read hr]
  cases isExpr with
  | true =>
    obtain ⟨a, rfl, hcode⟩ := exprCode_of_generate hr hg
    exact hcode.spells.mono (by simp [treeTokens])
  | false => exact (stmtsCode_of_generate hr hg).spells

theorem Program.spells_of_direct (h : Program.direct maxDepth isExpr source = .ok p) :
    Spells (lexemes p.source) p.code ∧ p.wat = (formatCode p.code).toString := by
  unfold Program.direct at h
  obtain ⟨atoms, hr, h⟩ := bind_ok h
  obtain ⟨code, hg, h⟩ := bind_ok h
  cases h
  exact ⟨spells_of_generate (mapError_ok hr) (mapError_ok hg), rfl⟩

/-- The text of a program reads back unless a word of the program holds blanks. -/
theorem Program.readCode_iff_solid (h : Program.direct maxDepth isExpr source = .ok p) :
    readCode (.ofString p.wat) = .ok p.code ↔
      ∀ i ∈ p.code, ∀ g ∈ i.imm, isBlankGlyph g = false := by
  obtain ⟨hspells, hwat⟩ := Program.spells_of_direct h
  have hchars : ∀ i ∈ p.code, ∀ g ∈ i.imm, ∃ c, g = .char c := by
    intro i hi g hg
    obtain ⟨c, hc, -⟩ := (hspells i hi).imm g hg
    exact ⟨c, hc⟩
  rw [hwat, ofString_toString (formatCode_chars hchars)]
  constructor
  · exact fun hread i hi => (readCode_writable hread i hi).solid
  · exact fun hsolid => readCode_formatCode fun i hi => (hspells i hi).isWritable (hsolid i hi)

theorem Program.solid_of_spaces (h : Program.direct maxDepth isExpr source = .ok p)
    (hspaces : ∀ c ∈ p.source.toChars, isBlank c = true → isSpace c = true) :
    ∀ i ∈ p.code, ∀ g ∈ i.imm, isBlankGlyph g = false := by
  intro i hi g hg
  obtain ⟨c, rfl, -, hblank⟩ := ((Program.spells_of_direct h).1 i hi).imm g hg
  rw [isBlankGlyph, ← Bool.not_eq_true]
  intro hc
  obtain ⟨htext, hspace⟩ := hblank hc
  rw [hspaces c htext hc] at hspace
  cases hspace

end

theorem Engine.IsFilled.compiled {hashed : List (List UInt8)} {e : Engine} (h : e.IsFilled hashed)
    {isExpr : Bool} {source : Text} {p : Program} (hp : (e.compile isExpr source).2 = .ok p) :
    ∃ maxDepth isExpr' source', Program.direct maxDepth isExpr' source' = .ok p := by
  obtain ⟨stats, -, ⟨q, hget, hr⟩ | ⟨f, -, hr⟩ | ⟨q, hq, hr⟩⟩ := e.compile_cases isExpr source
  · rw [hr] at hp
    cases hp
    obtain ⟨maxDepth, isExpr', source', -, -, hdirect⟩ :=
      h.programs _ ((AdaptiveCache.get?_entries _ _).1 p hget)
    exact ⟨maxDepth, isExpr', _, hdirect⟩
  · rw [hr] at hp
    cases hp
  · rw [hr] at hp
    cases hp
    exact ⟨_, isExpr, source, hq⟩

/-- The text of a compiled program reads back as its code if and only if no immediate holds a blank; so it
does whenever all white space of the source consists of the four characters that end words. -/
theorem program_text_reads_back (hasStore : Bool) (history : List Event) (n : Nat) (e : Engine)
    (he : ((Fleet.start hasStore).afterAll history).engine? n = some e) (isExpr : Bool) (source : Text)
    (p : Program) (hp : (e.compile isExpr source).2 = .ok p) :
    (readCode (.ofString p.wat) = .ok p.code ↔
      ∀ i ∈ p.code, ∀ g ∈ i.imm, Text.isBlankGlyph g = false) ∧
    ((∀ c ∈ p.source.toChars, Text.isBlank c = true → isSpace c = true) →
      readCode (.ofString p.wat) = .ok p.code) := by
  have hfilled : e.IsFilled ((Fleet.start hasStore).hashed history) :=
    ((Fleet.isFilled_start hasStore).afterAll history).engine? he
  obtain ⟨maxDepth, isExpr', source', hdirect⟩ := hfilled.compiled hp
  have hiff := Program.readCode_iff_solid hdirect
  exact ⟨hiff, fun hspaces => hiff.2 (Program.solid_of_spaces hdirect hspaces)⟩

/-- A word beyond ASCII, and each of the four spaces. -/
theorem program_text_reads_back_spaced :
    ∃ e p, ((Fleet.start false).afterAll [.launch .standard]).engine? 0 = some e ∧
      (e.compile false (.ofString "let é =\t1;\r\nf(é)")).2 = .ok p ∧
      (∀ c ∈ p.source.toChars, Text.isBlank c = true → isSpace c = true) ∧
      p.wat = "i32.const 1\nlocal.set $é\nlocal.get $é\ncall $f\n" ∧
      readCode (.ofString p.wat) = .ok p.code := by
  have hok : ((Engine.create .standard none).compile false (.ofString "let é =\t1;\r\nf(é)")).2.map
      (fun p => (p.wat, p.source.toChars.all fun c => !Text.isBlank c || isSpace c)) =
      .ok ("i32.const 1\nlocal.set $é\nlocal.get $é\ncall $f\n", true) := by
    decide +kernel
  obtain ⟨p, hp, hview⟩ := map_ok hok
  obtain ⟨hwat, hall⟩ := Prod.mk.inj hview
  have hspaces : ∀ c ∈ p.source.toChars, Text.isBlank c = true → isSpace c = true := by
    intro c hc hblank
    have hc := List.all_eq_true.1 hall c hc
    simpa [hblank] using hc
  exact ⟨_, p, rfl, hp, hspaces, hwat,
    (program_text_reads_back false [.launch .standard] 0 _ rfl false _ p hp).2 hspaces⟩

/-- A no-break space does not end a word, but it ends a field. -/
theorem no_break_space_splits_operand :
    ((Engine.create .standard none).compile false (.ofString "a\u00A0b")).2.map
        (fun p => (p.wat, p.code, readCode (.ofString p.wat))) =
      .ok ("local.get $a\u00A0b\n", [.localGet "a\u00A0b"],
        .error ⟨1, .ofString "local.get $a\u00A0b", .tooManyOperands⟩) := by
  decide +kernel

end WatScript
