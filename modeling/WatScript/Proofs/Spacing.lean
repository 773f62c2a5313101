import WatScript.Proofs.Flattening

/-!
# White space between tokens

`Renders none xs chars` says that characters are a rendering of a sequence of lexemes: white space may
stand before, between and after them, and has to stand between two words and between two operators. All
renderings of a sequence have the same flattening (`Renders.lexed`), and reading texts with the same
flattening ends alike (`lockstep_flat`), so the white space of a text does not show in what is read.
-/

namespace WatScript

open List Operator

variable {c : Char} {o w : String} {prev : Option Lexeme}

/-! ## Renderings -/

/-- What a text is made of, apart from spaces and comments. -/
inductive Lexeme where
  | word (w : String)
  | operator (o : String)
  | separator (c : Char)
  | opening (pair : Bracket)
  | closing (pair : Bracket)
  | literal (text : String)
  deriving DecidableEq, Repr

/-- The character is part of a word. -/
def isWordChar (c : Char) : Bool :=
  !(isSpace c || isSeparator c || isOperatorChar c || (bracketToken? c).isSome || c == '"')

namespace Lexeme

/-- The ways to write a lexeme. -/
inductive Written : Lexeme → List Char → Prop
  | word {w : String} : w ≠ "" → (∀ c ∈ w.toList, isWordChar c = true) → Written (word w) w.toList
  | operator {o : String} : o ∈ Operator.lexemes → Written (operator o) o.toList
  | separator {c : Char} : isSeparator c = true → Written (separator c) [c]
  | opening {pair : Bracket} : Written (opening pair) [pair.opener]
  | closing {pair : Bracket} : Written (closing pair) [pair.closer]
  | literal {text : String} {chars : List Char} : Quoted text.toList chars →
      Written (literal text) ('"' :: (chars ++ ['"']))

/-- Without white space between them, the two would run together. -/
def sticksTo : Lexeme → Lexeme → Bool
  | word _, word _ | operator _, operator _ => true
  | _, _ => false

/-- The lexeme as an atom. -/
def atom : Lexeme → Atom
  | word w => .word .top w
  | operator o => .operator .top o
  | separator c => .unknown .top c
  | opening pair => .unknown .top pair.opener
  | closing pair => .unknown .top pair.closer
  | literal text => .literal .top text

end Lexeme

/-- The renderings of a sequence of lexemes that follows the lexeme `prev`, if there is one. -/
inductive Renders : Option Lexeme → List Lexeme → List Char → Prop
  | nil {prev : Option Lexeme} {gap : List Char} : (∀ c ∈ gap, isSpace c = true) →
      Renders prev [] gap
  | cons {prev : Option Lexeme} {gap : List Char} {x : Lexeme} {chars : List Char}
      {xs : List Lexeme} {rest : List Char} : (∀ c ∈ gap, isSpace c = true) →
      (∀ p, prev = some p → p.sticksTo x = true → gap ≠ []) → x.Written chars →
      Renders (some x) xs rest → Renders prev (x :: xs) (gap ++ chars ++ rest)

/-! ## Operators -/

theorem Operator.chars_of_mem (h : o ∈ Operator.lexemes) :
    ∃ c cs, o.toList = c :: cs ∧ isOperatorChar c = true ∧
      match? (c :: cs) = some o ∧ c ≠ '"' ∧ opensComment (c :: cs) = false ∧
      ∀ d ∈ cs, d ≠ '"' ∧ d ≠ '/' := by
  have hall : ∀ o ∈ Operator.lexemes, o.toList ≠ [] ∧
      (o.toList.head?.all fun c => isOperatorChar c && c != '"') = true ∧
      match? o.toList = some o ∧ opensComment o.toList = false ∧
      (o.toList.tail.all fun d => d != '"' && d != '/') = true := by
    decide +kernel
  obtain ⟨hne, hhead, hm, hc, hcs⟩ := hall o h
  cases hchars : o.toList with
  | nil => exact absurd hchars hne
  | cons c cs =>
    rw [hchars] at hhead hm hc hcs
    simp only [head?_cons, Option.all_some, tail_cons, all_eq_true, Bool.and_eq_true,
      bne_iff_ne] at hhead hcs
    exact ⟨c, cs, rfl, hhead.1, hm, hhead.2, hc, hcs⟩

theorem literalsOf_operator (h : o ∈ Operator.lexemes) {rest}
    (hr : ∀ c, rest.head? = some c → isOperatorChar c = false) :
    literalsOf (o.toList ++ rest) = (literalsOf rest).map (o.toList.map (.unknown .top) ++ ·) := by
  obtain ⟨c, cs, ho, -, -, hq, hc, hcs⟩ := chars_of_mem h
  have hc' : opensComment (c :: (cs ++ rest)) = false := by
    cases cs with
    | cons d cs => exact hc
    | nil =>
      cases rest with
      | nil => rfl
      | cons d rest =>
        rw [← Bool.not_eq_true, nil_append, opensComment_cons_cons]
        rintro ⟨-, rfl | rfl⟩ <;> exact absurd (hr _ rfl) (by decide)
  rw [ho, cons_append, literalsOf_cons hq hc', literalsOf_plain hcs, except_map_map]
  rfl

/-! ## Words and operators -/

theorem munchFrom_append_word {w} (h : ∀ c ∈ w, isOperatorChar c = false)
    (held s : List Char) : munchFrom 0 held (w ++ s) = munchFrom 0 (w.reverse ++ held) s := by
  induction w generalizing held with
  | nil => rfl
  | cons c w ih =>
    obtain ⟨hc, hw⟩ := forall_mem_cons.1 h
    rw [cons_append, munchFrom_word hc, ih hw]
    simp

theorem munch_word (hne : w ≠ "") (hw : ∀ c ∈ w.toList, isOperatorChar c = false) {s}
    (hs : ∀ c, s.head? = some c → isOperatorChar c = true) :
    munch (w.toList ++ s) = .word w :: munch s := by
  have hheld : heldWord w.toList.reverse = [.word w] := by
    cases hr : w.toList.reverse with
    | nil => exact absurd (by simpa using hr) hne
    | cons c held =>
      rw [heldWord, ← hr, reverse_reverse, String.ofList_toList]
      simp
  rw [munch, munchFrom_append_word hw, append_nil]
  cases s with
  | nil => rw [munchFrom, hheld]; rfl
  | cons c s => rw [munchFrom_operator (hs c rfl), hheld]; rfl

theorem munchFrom_skip (held cs s : List Char) :
    munchFrom cs.length held (cs ++ s) = munchFrom 0 held s := by
  induction cs with
  | nil => rfl
  | cons c cs ih => exact ih

theorem munch_operator (h : o ∈ Operator.lexemes) {s}
    (hs : ∀ c, s.head? = some c → isOperatorChar c = false) :
    munch (o.toList ++ s) = .operator o :: munch s := by
  obtain ⟨c, cs, ho, hc, hm, -⟩ := chars_of_mem h
  have hskip : o.length - 1 = cs.length := by simp [← String.length_toList, ho]
  rw [ho, cons_append, munch, munchFrom, if_pos hc, ← cons_append,
    match?_append hs, hm]
  simp only [hskip, munchFrom_skip]
  rfl

/-! ## Character classes -/

section
variable {c : Char}

theorem isOperatorChar_of_space (h : isSpace c = true) : isOperatorChar c = false := by
  simp only [isSpace, Bool.or_eq_true, beq_iff_eq] at h
  rcases h with ((rfl | rfl) | rfl) | rfl <;> decide

theorem isOperatorChar_of_separator (h : isSeparator c = true) : isOperatorChar c = false := by
  simp only [isSeparator, Bool.or_eq_true, beq_iff_eq] at h
  rcases h with (rfl | rfl) | rfl <;> decide

theorem inStretch_of_operator (h : isOperatorChar c = true) : inStretch c = true := by
  have hspace : isSpace c = false := by
    rw [← Bool.not_eq_true]
    exact fun hc => absurd (h.symm.trans (isOperatorChar_of_space hc)) (by decide)
  have hsep : isSeparator c = false := by
    rw [← Bool.not_eq_true]
    exact fun hc => absurd (h.symm.trans (isOperatorChar_of_separator hc)) (by decide)
  have hnone : bracketToken? c = none := by
    rw [Option.eq_none_iff_forall_not_mem]
    intro t ht
    obtain ⟨pair, ⟨rfl, -⟩ | ⟨rfl, -⟩⟩ := bracketToken?_eq_some ht <;>
      cases pair <;> revert h <;> decide
  simp [inStretch, hspace, hsep, hnone]

theorem isWordChar_iff :
    isWordChar c = true ↔ inStretch c = true ∧ isOperatorChar c = false ∧ c ≠ '"' := by
  simp only [isWordChar, inStretch, Bool.not_eq_true', Bool.or_eq_false_iff, beq_eq_false_iff_ne]
  tauto

end

/-! ## Flattened renderings -/

section
variable {raw : List Atom}

theorem flatten_gap {gap : List Char} (h : ∀ c ∈ gap, isSpace c = true) :
    flatten [] (gap.map (.unknown .top) ++ raw) = flatten [] raw := by
  induction gap with
  | nil => rfl
  | cons c gap ih =>
    obtain ⟨hc, hgap⟩ := forall_mem_cons.1 h
    rw [map_cons, cons_append, flatten, if_neg (by simp [inStretch, hc]), if_pos hc,
      ih hgap]
    rfl

theorem flatten_append_stretch {chars : List Char} (h : ∀ c ∈ chars, inStretch c = true)
    (held : List Char) :
    flatten held (chars.map (.unknown .top) ++ raw) = flatten (chars.reverse ++ held) raw := by
  induction chars generalizing held with
  | nil => rfl
  | cons c chars ih =>
    obtain ⟨hc, hchars⟩ := forall_mem_cons.1 h
    rw [map_cons, cons_append, flatten, if_pos hc, ih hchars]
    simp

theorem flatten_word (hne : w ≠ "") (hw : ∀ c ∈ w.toList, isWordChar c = true)
    (hfree : LiteralFree raw) (hr : ∀ l c rest, raw = .unknown l c :: rest → isWordChar c = false) :
    flatten [] (w.toList.map (.unknown .top) ++ raw) = .word .top w :: flatten [] raw := by
  obtain ⟨s, ts, out, -, hflat, hhead⟩ := exists_stretch raw
  have hs : ∀ c, s.head? = some c → isOperatorChar c = true := by
    intro c hc
    obtain ⟨hin, l, rest, rfl⟩ := hhead c hc
    have hword := hr l c rest rfl
    have hq : c ≠ '"' := by
      rintro rfl
      cases hfree.1
    rw [← Bool.not_eq_true, isWordChar_iff] at hword
    by_contra hop
    exact hword ⟨hin, by simpa using hop, hq⟩
  rw [flatten_append_stretch fun c hc => (isWordChar_iff.1 (hw c hc)).1, hflat, hflat,
    append_nil, reverse_reverse,
    munch_word hne (fun c hc => (isWordChar_iff.1 (hw c hc)).2.1) hs]
  rfl

theorem flatten_operator (ho : o ∈ Operator.lexemes)
    (hr : ∀ l c rest, raw = .unknown l c :: rest → isOperatorChar c = false) :
    flatten [] (o.toList.map (.unknown .top) ++ raw) = .operator .top o :: flatten [] raw := by
  obtain ⟨s, ts, out, -, hflat, hhead⟩ := exists_stretch raw
  have hchars : ∀ c ∈ o.toList, inStretch c = true := fun c hc =>
    inStretch_of_operator (any_eq_true.2 ⟨o, ho, by simpa using hc⟩)
  have hs : ∀ c, s.head? = some c → isOperatorChar c = false := by
    intro c hc
    obtain ⟨-, l, rest, rfl⟩ := hhead c hc
    exact hr l c rest rfl
  rw [flatten_append_stretch hchars, hflat, hflat, append_nil, reverse_reverse,
    munch_operator ho hs]
  rfl

end

section
variable {x : Lexeme} {xs : List Lexeme} {chars : List Char}

theorem Lexeme.Written.ne_nil (h : x.Written chars) : chars ≠ [] := by
  cases h with
  | word hne => simpa using hne
  | operator ho =>
    obtain ⟨c, cs, heq, -⟩ := chars_of_mem ho
    simp [heq]
  | _ => simp

theorem Renders.head (h : Renders (some x) xs chars) (hc : chars.head? = some c) :
    isSpace c = true ∨ ∃ y cs, Lexeme.Written y (c :: cs) ∧ x.sticksTo y = false := by
  cases h with
  | nil hgap => exact .inl (hgap c (mem_of_mem_head? hc))
  | @cons _ gap y cs _ _ hgap hstick hy _ =>
    cases gap with
    | cons d gap =>
      obtain rfl : d = c := by simpa using hc
      exact .inl (hgap d mem_cons_self)
    | nil =>
      obtain ⟨d, cs, rfl⟩ := exists_cons_of_ne_nil hy.ne_nil
      obtain rfl : d = c := by simpa using hc
      refine .inr ⟨y, cs, hy, ?_⟩
      rw [← Bool.not_eq_true]
      exact fun hxy => hstick x rfl hxy rfl

theorem Renders.head_word (h : Renders (some (.word w)) xs chars)
    (hc : chars.head? = some c) : isWordChar c = false := by
  rw [← Bool.not_eq_true, isWordChar_iff]
  rintro ⟨hin, hop, hq⟩
  rcases h.head hc with hspace | ⟨y, cs, hy, hstick⟩
  · simp [inStretch, hspace] at hin
  · generalize hchars : c :: cs = chars at hy
    cases hy with
    | word => cases hstick
    | operator ho =>
      obtain ⟨d, ds, heq, hd, -⟩ := chars_of_mem ho
      rw [← hchars] at heq
      cases heq
      rw [hop] at hd
      cases hd
    | separator hsep => cases hchars; simp [inStretch, hsep] at hin
    | opening => cases hchars; simp [inStretch, bracketToken?_opener] at hin
    | closing => cases hchars; simp [inStretch, bracketToken?_closer] at hin
    | literal => cases hchars; exact hq rfl

theorem Renders.head_operator (h : Renders (some (.operator o)) xs chars)
    (hc : chars.head? = some c) : isOperatorChar c = false := by
  rcases h.head hc with hspace | ⟨y, cs, hy, hstick⟩
  · exact isOperatorChar_of_space hspace
  · generalize hchars : c :: cs = chars at hy
    cases hy with
    | word _ hw => exact (isWordChar_iff.1 (hw c (hchars ▸ mem_cons_self))).2.1
    | operator => cases hstick
    | separator hsep => cases hchars; exact isOperatorChar_of_separator hsep
    | @opening pair => cases hchars; cases pair <;> decide
    | @closing pair => cases hchars; cases pair <;> decide
    | literal => cases hchars; decide

theorem Lexeme.Written.lexed (h : x.Written chars) {rest : List Char}
    (hrest : Renders (some x) xs rest) {raw : List Atom} (hraw : literalsOf rest = .ok raw) :
    ∃ out, literalsOf (chars ++ rest) = .ok (out ++ raw) ∧
      flatten [] (out ++ raw) = x.atom :: flatten [] raw := by
  have hplain : ∀ {chars : List Char}, (∀ c ∈ chars, c ≠ '"' ∧ c ≠ '/') →
      literalsOf (chars ++ rest) = .ok (chars.map (.unknown .top) ++ raw) := by
    intro chars hchars
    rw [literalsOf_plain hchars, hraw]
    rfl
  cases h with
  | @word w hne hw =>
    refine ⟨_, hplain fun c hc => ?_, ?_⟩
    · obtain ⟨-, hop, hq⟩ := isWordChar_iff.1 (hw c hc)
      exact ⟨hq, by rintro rfl; cases hop⟩
    · exact flatten_word hne hw (literalFree_extractLiterals hraw) fun l c t ht =>
        hrest.head_word (head_of_literalsOf hraw ht)
  | operator ho =>
    refine ⟨_, ?_, flatten_operator ho fun l c t ht => ?_⟩
    · rw [literalsOf_operator ho fun c => hrest.head_operator, hraw]
      rfl
    · exact hrest.head_operator (head_of_literalsOf hraw ht)
  | @separator c hc =>
    refine ⟨_, hplain (forall_mem_singleton.2 ?_), ?_⟩
    · constructor <;> rintro rfl <;> cases hc
    · have hspace : isSpace c = false := by
        simp only [isSeparator, Bool.or_eq_true, beq_iff_eq] at hc
        rcases hc with (rfl | rfl) | rfl <;> rfl
      rw [map_singleton, singleton_append, flatten, if_neg (by simp [inStretch, hc]),
        if_neg (by simp [hspace])]
      rfl
  | @opening pair =>
    refine ⟨_, hplain (forall_mem_singleton.2 ?_), flatten_opener .top⟩
    cases pair <;> decide
  | @closing pair =>
    refine ⟨_, hplain (forall_mem_singleton.2 ?_), flatten_closer .top⟩
    cases pair <;> decide
  | @literal text _ hq =>
    refine ⟨[.literal .top text], ?_, flatten_shown rfl⟩
    rw [cons_append, append_assoc, singleton_append, literalsOf_quoted hq, hraw]
    rfl

/-- The literals of a rendering can be found, and what is left is flattened to the lexemes. -/
theorem Renders.lexed (h : Renders prev xs chars) :
    ∃ raw, literalsOf chars = .ok raw ∧ flatten [] raw = xs.map Lexeme.atom := by
  have hplain {gap : List Char} (hgap : ∀ c ∈ gap, isSpace c = true) :
      ∀ c ∈ gap, c ≠ '"' ∧ c ≠ '/' := by
    intro c hc
    have hspace := hgap c hc
    constructor <;> rintro rfl <;> cases hspace
  induction h with
  | @nil _ gap hgap =>
    refine ⟨gap.map (.unknown .top) ++ [], ?_, flatten_gap hgap⟩
    rw [← append_nil gap, literalsOf_plain (hplain hgap)]
    simp [literalsOf, extractLiterals, cutLiterals, scanLiterals, Except.map]
  | @cons _ gap x chars xs rest hgap _ hx hrest ih =>
    obtain ⟨raw, hraw, hflat⟩ := ih
    obtain ⟨out, hout, hatom⟩ := hx.lexed hrest hraw
    refine ⟨gap.map (.unknown .top) ++ (out ++ raw), ?_, ?_⟩
    · rw [append_assoc, literalsOf_plain (hplain hgap), hout]
      rfl
    · rw [flatten_gap hgap, hatom, hflat]
      rfl

theorem Renders.known (h : Renders prev xs chars)
    (ho : Atom.operator .top o ∈ xs.map Lexeme.atom) : (Operator.find? o).isSome := by
  induction h with
  | nil => cases ho
  | cons _ _ hx _ ih =>
    rcases mem_cons.1 ho with ho | ho
    · cases hx with
      | operator hmem => cases ho; exact find?_isSome_of_mem hmem
      | _ => cases ho
    · exact ih ho

theorem Renders.legible {text : Text} (h : Renders prev xs text.toChars)
    {raw : List Atom} (hraw : extractLiterals .top (explode .top text) = .ok raw)
    (hflat : flatten [] raw = xs.map Lexeme.atom) : Legible raw := by
  have htext := extractLiterals_explode .top text
  rw [hraw] at htext
  refine legible_of_flatten (rawRun_extractLiterals hraw) (fun a ha => (htext a ha).1) fun o ho => ?_
  exact h.known (hflat ▸ ho)

end

/-! ## Reading -/

/-- Lexing keeps runs with the same flattening in step. -/
theorem lockstep_flat :
    Lockstep true (fun _ => True) (FlatRuns fun _ flat flat' => flat = flat') where
  fault _ _ := trivial
  lex := by
    intro pair raw raw' lv hlv h
    have hgroup : Agree (fun _ => True) (fun flat flat' => flat = flat')
        (groupBrackets .top (flatten [] raw)) (groupBrackets .top (flatten [] raw')) := by
      rw [h.flat]
      cases groupBrackets .top (flatten [] raw') with
      | ok toks => exact .ok rfl
      | error f => exact .error trivial
    refine (h.group_agree hlv hgroup).mono fun toks toks' ⟨hfresh, hfresh', hflat⟩ => ?_
    have hsame : Forall₂ (FlatTwin fun _ flat flat' => flat = flat') (toks.map Atom.flat)
        (toks'.map Atom.flat) := by
      rw [hflat, forall₂_same]
      rintro a -
      refine ⟨rfl, ?_⟩
      rintro pair raw raw' rfl heq
      simpa using congrArg Atom.raw heq
    have hnear : Near _ lv true toks toks' :=
      .of_twins (fun a ha => (hfresh a ha).isToken) (fun a ha => (hfresh' a ha).isToken)
        (twins_of_flat hfresh hfresh' hsame)
    exact ⟨hnear, fun _ => slots_twins hnear⟩

/-- Reading does not see the white space between tokens: all renderings of a sequence of lexemes end
with the same trees, levels included, or with the same failure. -/
theorem whitespace_irrelevant (limit : Int64) {xs : List Lexeme} {text text' : Text}
    (h : Renders none xs text.toChars) (h' : Renders none xs text'.toChars) :
    parseExpr limit text = parseExpr limit text' ∧ parseStmts limit text = parseStmts limit text' := by
  obtain ⟨raw, hraw, hflat⟩ := h.lexed
  obtain ⟨raw', hraw', hflat'⟩ := h'.lexed
  have hruns : FlatRuns (fun _ flat flat' => flat = flat') .brace raw raw' :=
    ⟨h.legible hraw hflat, h'.legible hraw' hflat', hflat.trans hflat'.symm⟩
  have hexpr := lockstep_flat.parseExpr_agree limit .brace hraw hraw' hruns
  have hstmts := lockstep_flat.parseStmts_agree limit .brace hraw hraw' hruns
  simp only [tidyAll_true] at hexpr hstmts
  exact ⟨hexpr.eq, hstmts.eq⟩

/-- White space is needed between `let` and `x` and between `=` and `-`, and nowhere else. -/
theorem whitespace_irrelevant_let :
    let xs := [.word "let", .word "x", .operator "=", .operator "-", .opening .round, .literal "1",
      .closing .round]
    Renders none xs (Text.toChars (.ofString "let x= -(\"1\")")) ∧
    Renders none xs (Text.toChars (.ofString "\tlet\nx = - ( \"\\1\" ) ")) ∧
    parseStmts 8 (.ofString "let x= -(\"1\")") =
      parseStmts 8 (.ofString "\tlet\nx = - ( \"\\1\" ) ") := by
  intro xs
  have hrenders : ∀ (g₀ g₁ g₂ g₃ g₄ g₅ g₆ g₇ quoted : List Char),
      (∀ g ∈ [g₀, g₁, g₂, g₃, g₄, g₅, g₆, g₇], ∀ c ∈ g, isSpace c = true) → g₁ ≠ [] → g₃ ≠ [] →
      Quoted "1".toList quoted →
      Renders none xs (g₀ ++ "let".toList ++ (g₁ ++ "x".toList ++ (g₂ ++ "=".toList ++
        (g₃ ++ "-".toList ++ (g₄ ++ ['('] ++ (g₅ ++ ('"' :: (quoted ++ ['"'])) ++
        (g₆ ++ [')'] ++ g₇))))))) := by
    intro g₀ g₁ g₂ g₃ g₄ g₅ g₆ g₇ quoted hg h₁ h₃ hq
    simp only [List.forall_mem_cons] at hg
    obtain ⟨hg₀, hg₁, hg₂, hg₃, hg₄, hg₅, hg₆, hg₇, -⟩ := hg
    refine .cons hg₀ (by simp) (.word (by decide) (List.all_eq_true.1 (by decide))) ?_
    refine .cons hg₁ (fun _ _ _ => h₁) (.word (by decide) (List.all_eq_true.1 (by decide))) ?_
    refine .cons hg₂ (by simp [Lexeme.sticksTo]) (.operator (by decide)) ?_
    refine .cons hg₃ (fun _ _ _ => h₃) (.operator (by decide)) ?_
    refine .cons hg₄ (by simp [Lexeme.sticksTo]) .opening ?_
    refine .cons hg₅ (by simp [Lexeme.sticksTo]) (.literal hq) ?_
    exact .cons hg₆ (by simp [Lexeme.sticksTo]) .closing (.nil hg₇)
  have h : Renders none xs (Text.toChars (.ofString "let x= -(\"1\")")) :=
    hrenders [] [' '] [] [' '] [] [] [] [] ['1'] (by simp [isSpace]) (by decide) (by decide)
      (.plain (by decide) (by decide) .nil)
  have h' : Renders none xs (Text.toChars (.ofString "\tlet\nx = - ( \"\\1\" ) ")) :=
    hrenders ['\t'] ['\n'] [' '] [' '] [' '] [' '] [' '] [' '] ['\\', '1'] (by simp [isSpace])
      (by decide) (by decide) (.escaped .nil)
  exact ⟨h, h', (whitespace_irrelevant 8 h h').2⟩

end WatScript
