import WatScript.Lexing.Basic
import WatScript.Proofs.Result

/-!
# Runs without literals

Runs are lexed again at every level, so the literal pass meets its own output. `LiteralFree` says that
no quotation and no comment opens anywhere in a run. The pass leaves such a run as it is
(`extractLiterals_of_literalFree`), its result is such a run (`literalFree_extractLiterals`), and so is
every stretch of one (`LiteralFree.stretch`). A run of characters only fails in the literal pass for an
open quotation or an open comment (`extractLiterals_explode`), and makes one atom of every quotation and
every comment (`extractLiterals_quoted`, `extractLiterals_lineComment`, `extractLiterals_blockComment`).
-/

namespace WatScript

open List

variable {c : Char} {chars text : List Char} {lv : Level} {rest run seen t : List Atom}

/-! ## Pieces -/

section
variable (a opener closer : Atom) (stretch : List Atom) (pieces : List Piece)

@[simp] theorem atomsOf_nil : atomsOf [] = [] := rfl

@[simp] theorem atomsOf_kept : atomsOf (.kept a :: pieces) = a :: atomsOf pieces := rfl

@[simp] theorem atomsOf_dropped : atomsOf (.dropped a :: pieces) = atomsOf pieces := rfl

@[simp] theorem atomsOf_made : atomsOf (.made stretch a :: pieces) = a :: atomsOf pieces := rfl

@[simp] theorem atomsOf_wrapped : atomsOf (.wrapped opener closer a :: pieces) = a :: atomsOf pieces := rfl

end

@[simp] theorem atomsOf_append (ps qs : List Piece) : atomsOf (ps ++ qs) = atomsOf ps ++ atomsOf qs :=
  filterMap_append

theorem atomsOf_map_kept (run : List Atom) : atomsOf (run.map .kept) = run := by
  induction run with
  | nil => rfl
  | cons a rest ih => rw [map_cons, atomsOf_kept, ih]

/-! ## Literal-free runs -/

/-- A quotation or a comment opens here. -/
def opensLiteral : List Atom → Bool
  | .unknown _ '"' :: _ => true
  | .unknown _ '/' :: .unknown _ '*' :: _ => true
  | .unknown _ '/' :: .unknown _ '/' :: _ => true
  | _ => false

/-- No quotation and no comment opens in the run. -/
def LiteralFree : List Atom → Prop
  | [] => True
  | a :: rest => opensLiteral (a :: rest) = false ∧ LiteralFree rest

theorem opensLiteral_inv (h : opensLiteral run = true) : (∃ l rest, run = .unknown l '"' :: rest) ∨
      ∃ l l' c rest, (c = '*' ∨ c = '/') ∧ run = .unknown l '/' :: .unknown l' c :: rest := by
  unfold opensLiteral at h
  split at h
  · exact .inl ⟨_, _, rfl⟩
  · exact .inr ⟨_, _, _, _, .inl rfl, rfl⟩
  · exact .inr ⟨_, _, _, _, .inr rfl, rfl⟩
  · cases h

theorem opensLiteral_append (u : List Atom) (h : opensLiteral t = true) :
    opensLiteral (t ++ u) = true := by
  obtain ⟨l, rest, rfl⟩ | ⟨l, l', c, rest, rfl | rfl, rfl⟩ := opensLiteral_inv h <;> rfl

theorem opensLiteral_cons_of_head {a out} (h : opensLiteral (a :: rest) = false)
    (hhead : ∀ l c t, out = .unknown l c :: t → ∃ rest', rest = .unknown l c :: rest') :
    opensLiteral (a :: out) = false := by
  rw [← Bool.not_eq_true]
  intro ho
  obtain ⟨l, rest', heq⟩ | ⟨l, l', c, rest', hc, heq⟩ := opensLiteral_inv ho
  · cases heq
    cases h
  · obtain ⟨rfl, ht⟩ := List.cons.inj heq
    obtain ⟨rest', rfl⟩ := hhead _ _ _ ht
    rcases hc with rfl | rfl <;> cases h

/-! ## Stretches of a literal-free run -/

theorem LiteralFree.of_append_left : ∀ {t u}, LiteralFree (t ++ u) → LiteralFree t
  | [], _, _ => trivial
  | a :: t, u, h => by
    refine ⟨?_, LiteralFree.of_append_left h.2⟩
    cases hc : opensLiteral (a :: t) with
    | false => rfl
    | true =>
      have := opensLiteral_append u hc
      exact absurd (h.1.symm.trans this) (by simp)

theorem LiteralFree.of_append_right : ∀ {t u}, LiteralFree (t ++ u) → LiteralFree u
  | [], _, h => h
  | _ :: _, _, h => LiteralFree.of_append_right h.2

theorem LiteralFree.stretch {u} (h : LiteralFree u) (hi : t <:+: u) : LiteralFree t := by
  obtain ⟨s, s', rfl⟩ := hi
  exact h.of_append_left.of_append_right

theorem literalFree_of_chars :
    ∀ {run}, (∀ l c, .unknown l c ∈ run → c ≠ '"' ∧ c ≠ '/') → LiteralFree run
  | [], _ => trivial
  | a :: rest, h => by
    refine ⟨?_, literalFree_of_chars fun l c hm => h l c (mem_cons_of_mem _ hm)⟩
    cases a with
    | unknown l c =>
      obtain ⟨hq, hs⟩ := h l c mem_cons_self
      rw [← Bool.not_eq_true]
      intro ho
      obtain ⟨l, rest', heq⟩ | ⟨l, l', c, rest', -, heq⟩ := opensLiteral_inv ho
      · cases heq
        exact hq rfl
      · cases heq
        exact hs rfl
    | _ => rfl

/-! ## The literal pass on a literal-free run -/

theorem scanLiterals_outside_cons {a} (h : opensLiteral (a :: rest) = false) :
    scanLiterals lv .outside seen text (a :: rest) =
      (scanLiterals lv .outside [] [] rest).map (.kept a :: ·) := by
  rw [scanLiterals]
  · rfl
  · rintro l l' rest' rfl rfl; cases h
  · rintro l l' rest' rfl rfl; cases h
  · rintro l rfl; cases h

theorem scanLiterals_of_literalFree (lv : Level) :
    ∀ {run} (seen : List Atom) (text : List Char), LiteralFree run →
      scanLiterals lv .outside seen text run = .ok (run.map .kept)
  | [], seen, text, _ => scanLiterals_outside_nil lv seen text
  | a :: rest, seen, text, h => by
    rw [scanLiterals_outside_cons h.1, scanLiterals_of_literalFree lv [] [] h.2]
    rfl

theorem extractLiterals_of_literalFree (lv : Level) (h : LiteralFree run) :
    extractLiterals lv run = .ok run := by
  simp only [extractLiterals, cutLiterals, scanLiterals_of_literalFree lv [] [] h, Except.map,
    atomsOf_map_kept]

/-! ## What the literal pass leaves -/

theorem head_of_scanLiterals {st pieces} (h : scanLiterals lv st seen text run = .ok pieces)
    {l} (ht : atomsOf pieces = .unknown l c :: t) :
    st = .outside ∧ ∃ rest, run = .unknown l c :: rest := by
  fun_induction scanLiterals lv st seen text run generalizing pieces with
  | case1 => cases h; cases ht
  | case2 | case3 => cases h
  | case4 => cases h; cases ht
  | case5 _ _ _ _ _ ih | case6 _ _ _ _ _ ih | case7 _ _ _ _ ih => cases (ih h ht).1
  | case8 =>
    obtain ⟨ps, -, h⟩ := bind_ok h
    cases h
    cases ht
    exact ⟨rfl, _, rfl⟩
  | case9 _ _ _ _ _ ih | case10 _ _ _ _ ih | case12 _ _ _ _ _ _ _ ih => cases (ih h ht).1
  | case14 _ _ _ _ _ _ ih | case16 _ _ _ _ _ _ ih => cases (ih h ht).1
  | case11 | case13 | case15 =>
    obtain ⟨ps, -, h⟩ := bind_ok h
    cases h
    cases ht
  | case17 => simp at h

theorem literalFree_scanLiterals {st pieces}
    (h : scanLiterals lv st seen text run = .ok pieces) : LiteralFree (atomsOf pieces) := by
  fun_induction scanLiterals lv st seen text run generalizing pieces with
  | case1 => cases h; trivial
  | case2 | case3 => cases h
  | case4 => cases h; exact ⟨rfl, trivial⟩
  | case5 _ _ _ _ _ ih | case6 _ _ _ _ _ ih | case7 _ _ _ _ ih => exact ih h
  | case8 _ _ a rest hblock hline hquote ih =>
    obtain ⟨ps, hps, h⟩ := bind_ok h
    cases h
    have ha : opensLiteral (a :: rest) = false := by
      rw [← Bool.not_eq_true]
      intro ho
      obtain ⟨l, t, heq⟩ | ⟨l, l', c, t, rfl | rfl, heq⟩ := opensLiteral_inv ho
      · cases heq; exact hquote _ rfl
      · cases heq; exact hblock _ _ _ rfl rfl
      · cases heq; exact hline _ _ _ rfl rfl
    -- what follows `a` in the result is what followed it in the run, or a fresh atom
    exact ⟨opensLiteral_cons_of_head ha fun _ _ _ ht => (head_of_scanLiterals hps ht).2, ih hps⟩
  | case9 _ _ _ _ _ ih | case10 _ _ _ _ ih | case12 _ _ _ _ _ _ _ ih => exact ih h
  | case14 _ _ _ _ _ _ ih | case16 _ _ _ _ _ _ ih => exact ih h
  | case11 _ _ _ _ ih | case13 _ _ _ _ ih | case15 _ _ _ _ _ ih =>
    obtain ⟨ps, hps, h⟩ := bind_ok h
    cases h
    exact ⟨rfl, ih hps⟩
  | case17 => simp at h

theorem literalFree_extractLiterals {out}
    (h : extractLiterals lv run = .ok out) : LiteralFree out := by
  obtain ⟨pieces, hp, rfl⟩ := map_ok h
  exact literalFree_scanLiterals hp

/-! ## The literal pass on characters -/

/-- The atom is what the literal pass leaves of a text. -/
def Atom.isText : Atom → Bool
  | .unknown .. | .literal .. | .comment .. => true
  | _ => false

/-- The fault of a quotation or a comment without an end. -/
def ReadFault.isOpenLiteral : ReadFault → Bool
  | .quotationNotClosed | .commentNotClosed => true
  | _ => false

theorem scanLiterals_chars (lv : Level) (st : LiteralState) (seen : List Atom) (text : List Char)
    (run : List Atom) (hrun : ∀ a ∈ run, ∃ c, a = .unknown lv c) :
    Ends (fun pieces => ∀ a ∈ atomsOf pieces, a.isText = true ∧ a.level = lv)
      (·.isOpenLiteral = true) (scanLiterals lv st seen text run) := by
  fun_induction scanLiterals lv st seen text run with
  | case1 => simp [Ends]
  | case2 | case3 => rfl
  | case4 => simp [Ends, commentPiece, Atom.isText, Atom.level]
  | case5 _ _ _ _ _ ih | case6 _ _ _ _ _ ih => exact ih (by simp_all)
  | case7 _ _ _ _ ih | case10 _ _ _ _ ih => exact ih (by simp_all)
  | case8 _ _ a rest _ _ _ ih =>
    refine (ih (by simp_all)).bind fun pieces hp => ?_
    obtain ⟨c, rfl⟩ := hrun a mem_cons_self
    simpa [Ends, pure, Except.pure, Atom.isText, Atom.level] using hp
  | case9 _ _ _ _ _ ih | case12 _ _ _ _ _ _ _ ih => exact ih (by simp_all)
  | case14 _ _ _ _ _ _ ih | case16 _ _ _ _ _ _ ih => exact ih (by simp_all)
  | case11 _ _ _ _ ih | case13 _ _ _ _ ih | case15 _ _ _ _ _ ih =>
    refine (ih (by simp_all)).bind fun pieces hp => ?_
    simpa [Ends, pure, Except.pure, Atom.isText, Atom.level, quotationPiece, commentPiece] using hp
  | case17 st _ _ a rest _ _ _ hout hesc _ _ hq _ hl _ hb =>
    -- a character has a rule in every state
    obtain ⟨c, rfl⟩ := hrun a mem_cons_self
    cases st with
    | outside => exact (hout rfl).elim
    | quotation escaped =>
      cases escaped with
      | true => exact (hesc lv c rfl rfl).elim
      | false => exact (hq lv c rfl rfl).elim
    | lineComment => exact (hl lv c rfl rfl).elim
    | blockComment => exact (hb lv c rfl rfl).elim

theorem extractLiterals_explode (lv : Level) (text : Text) :
    Ends (fun out => ∀ a ∈ out, a.isText = true ∧ a.level = lv) (·.isOpenLiteral = true)
      (extractLiterals lv (explode lv text)) := by
  refine (scanLiterals_chars lv .outside [] [] _ fun a ha => ?_).map fun _ h => h
  obtain ⟨c, -, rfl⟩ := mem_map.1 ha
  exact ⟨c, rfl⟩

/-! ## Characters -/

/-- The literal pass over characters. -/
def literalsOf (chars : List Char) : Except ReadFault (List Atom) :=
  extractLiterals .top (chars.map (.unknown .top))

/-- A comment opens here. -/
def opensComment : List Char → Bool
  | c :: d :: _ => c == '/' && (d == '/' || d == '*')
  | _ => false

theorem opensComment_cons_cons {d cs} :
    opensComment (c :: d :: cs) = true ↔ c = '/' ∧ (d = '/' ∨ d = '*') := by
  simp [opensComment]

theorem opensComment_of_ne (h : c ≠ '/') (cs : List Char) : opensComment (c :: cs) = false := by
  cases cs <;> simp [opensComment, h]

theorem extractLiterals_cons (lv l : Level) (hq : c ≠ '"')
    (hc : opensComment (c :: chars) = false) : extractLiterals lv ((c :: chars).map (.unknown l)) =
      (extractLiterals lv (chars.map (.unknown l))).map (.unknown l c :: ·) := by
  have hopens : opensLiteral (.unknown l c :: chars.map (.unknown l)) = false := by
    rw [← Bool.not_eq_true]
    intro ho
    obtain ⟨l, rest, heq⟩ | ⟨l, l', d, rest, hd, heq⟩ := opensLiteral_inv ho
    · cases heq
      exact hq rfl
    · obtain ⟨heq, htail⟩ := List.cons.inj heq
      cases heq
      obtain ⟨d', chars', rfl, heq, -⟩ := map_eq_cons_iff.1 htail
      cases heq
      exact Bool.false_ne_true (hc.symm.trans (opensComment_cons_cons.2 ⟨rfl, hd.symm⟩))
  rw [extractLiterals, cutLiterals, map_cons, scanLiterals_outside_cons hopens, except_map_map]
  simp only [atomsOf_kept]
  rw [extractLiterals, cutLiterals, except_map_map]

theorem literalsOf_cons (hq : c ≠ '"') (hc : opensComment (c :: chars) = false) :
    literalsOf (c :: chars) = (literalsOf chars).map (.unknown .top c :: ·) :=
  extractLiterals_cons .top .top hq hc

theorem literalsOf_plain (h : ∀ c ∈ chars, c ≠ '"' ∧ c ≠ '/') (rest : List Char) :
    literalsOf (chars ++ rest) = (literalsOf rest).map (chars.map (.unknown .top) ++ ·) := by
  induction chars with
  | nil => cases hr : literalsOf rest <;> simp [Except.map, hr]
  | cons c chars ih =>
    obtain ⟨⟨hq, hs⟩, hchars⟩ := forall_mem_cons.1 h
    rw [cons_append, literalsOf_cons hq (opensComment_of_ne hs _), ih hchars, except_map_map]
    rfl

theorem head_of_literalsOf {raw} (h : literalsOf chars = .ok raw)
    {l} (hraw : raw = .unknown l c :: rest) : chars.head? = some c := by
  obtain ⟨pieces, hp, rfl⟩ := map_ok h
  obtain ⟨-, rest', hrun⟩ := head_of_scanLiterals hp hraw
  obtain ⟨c', chars', rfl, heq, -⟩ := map_eq_cons_iff.1 hrun
  cases heq
  rfl

/-- The ways to write text between quotation marks. Any character may be escaped; quotation marks and
backslashes have to be. -/
inductive Quoted : List Char → List Char → Prop
  | nil : Quoted [] []
  | plain {c : Char} {text chars : List Char} : c ≠ '"' → c ≠ '\\' → Quoted text chars →
      Quoted (c :: text) (c :: chars)
  | escaped {c : Char} {text chars : List Char} : Quoted text chars →
      Quoted (c :: text) ('\\' :: c :: chars)

section
variable (lv l : Level)

theorem scanLiterals_quoted (h : Quoted text chars) (seen : List Atom)
    (held : List Char) (rest : List Atom) : ∃ seen', scanLiterals lv (.quotation false) seen held
        (chars.map (.unknown l) ++ .unknown l '"' :: rest) =
      (scanLiterals lv .outside [] [] rest).map
        (quotationPiece lv seen' (text.reverse ++ held) :: ·) := by
  induction h generalizing seen held with
  | nil => exact ⟨_, rfl⟩
  | @plain c text chars hq hb _ ih =>
    obtain ⟨seen', ih⟩ := ih (.unknown l c :: seen) (c :: held)
    refine ⟨seen', ?_⟩
    rw [map_cons, cons_append, scanLiterals, ih]
    · simp
    · exact hb
    · exact hq
  | @escaped c text chars _ ih =>
    obtain ⟨seen', ih⟩ := ih (.unknown l c :: .unknown l '\\' :: seen) (c :: held)
    refine ⟨seen', ?_⟩
    rw [map_cons, map_cons, cons_append, cons_append, scanLiterals, scanLiterals,
      ih]
    simp

theorem scanLiterals_inLine (h : '\n' ∉ text) (seen : List Atom) (held : List Char)
    (rest : List Atom) : ∃ seen',
      scanLiterals lv .lineComment seen held (text.map (.unknown l) ++ rest) =
        scanLiterals lv .lineComment seen' (text.reverse ++ held) rest := by
  induction text generalizing seen held with
  | nil => exact ⟨seen, rfl⟩
  | cons c text ih =>
    obtain ⟨hc, htext⟩ := not_or.1 (mem_cons.not.1 h)
    obtain ⟨seen', ih⟩ := ih htext (.unknown l c :: seen) (c :: held)
    refine ⟨seen', ?_⟩
    rw [map_cons, cons_append, scanLiterals, ih]
    · simp
    · exact fun hn => hc hn.symm

theorem scanLiterals_newline (seen : List Atom) (held : List Char) (rest : List Atom) :
    scanLiterals lv .lineComment seen held (.unknown l '\n' :: rest) =
      (scanLiterals lv .outside [] [] rest).map
        (commentPiece lv (.unknown l '\n' :: seen) held false :: ·) := rfl

theorem scanLiterals_blockComment (h : ¬ ['*', '/'] <:+: text)
    (seen : List Atom) (held : List Char) (rest : List Atom) :
    ∃ seen', scanLiterals lv .blockComment seen held
        (text.map (.unknown l) ++ .unknown l '*' :: .unknown l '/' :: rest) =
      (scanLiterals lv .outside [] [] rest).map
        (commentPiece lv seen' (text.reverse ++ held) true :: ·) := by
  induction text generalizing seen held with
  | nil => exact ⟨_, rfl⟩
  | cons c text ih =>
    obtain ⟨seen', ih⟩ := ih (fun hi => h (hi.trans (suffix_cons ..).isInfix))
      (.unknown l c :: seen) (c :: held)
    refine ⟨seen', ?_⟩
    rw [map_cons, cons_append, scanLiterals, ih]
    · simp
    · rintro l rest' heq rfl
      cases text with
      | nil => cases heq
      | cons d text =>
        cases heq
        exact h (prefix_append ['*', '/'] text).isInfix

theorem extractLiterals_quoted {text : String} (h : Quoted text.toList chars) (rest : List Char) :
    extractLiterals lv (('"' :: (chars ++ '"' :: rest)).map (.unknown l)) =
      (extractLiterals lv (rest.map (.unknown l))).map (.literal lv text :: ·) := by
  obtain ⟨seen, hscan⟩ :=
    scanLiterals_quoted lv l h [.unknown l '"'] [] (rest.map (.unknown l))
  simp only [extractLiterals, cutLiterals, map_cons, map_append]
  rw [scanLiterals, hscan, except_map_map, except_map_map]
  simp [quotationPiece]

theorem extractLiterals_lineComment {text} (h : '\n' ∉ text.toList) (rest : List Char) :
    extractLiterals lv (('/' :: '/' :: (text.toList ++ '\n' :: rest)).map (.unknown l)) =
      (extractLiterals lv (rest.map (.unknown l))).map (.comment lv text false :: ·) := by
  obtain ⟨seen, hscan⟩ := scanLiterals_inLine lv l h [.unknown l '/', .unknown l '/'] []
    (.unknown l '\n' :: rest.map (.unknown l))
  simp only [extractLiterals, cutLiterals, map_cons, map_append]
  rw [scanLiterals, hscan, scanLiterals_newline, except_map_map, except_map_map]
  simp [commentPiece]

theorem extractLiterals_blockComment {text} (h : ¬ ['*', '/'] <:+: text.toList) (rest : List Char) :
    extractLiterals lv (('/' :: '*' :: (text.toList ++ '*' :: '/' :: rest)).map (.unknown l)) =
      (extractLiterals lv (rest.map (.unknown l))).map (.comment lv text true :: ·) := by
  obtain ⟨seen, hscan⟩ := scanLiterals_blockComment lv l h [.unknown l '*', .unknown l '/'] []
    (rest.map (.unknown l))
  simp only [extractLiterals, cutLiterals, map_cons, map_append]
  rw [scanLiterals, hscan, except_map_map, except_map_map]
  simp [commentPiece]

end

theorem literalsOf_quoted {text : String} (h : Quoted text.toList chars) (rest : List Char) :
    literalsOf ('"' :: (chars ++ '"' :: rest)) = (literalsOf rest).map (.literal .top text :: ·) :=
  extractLiterals_quoted .top .top h rest

theorem literalsOf_lineComment {text} (h : '\n' ∉ text.toList) (rest : List Char) :
    literalsOf ('/' :: '/' :: (text.toList ++ '\n' :: rest)) =
      (literalsOf rest).map (.comment .top text false :: ·) :=
  extractLiterals_lineComment .top .top h rest

theorem literalsOf_blockComment {text} (h : ¬ ['*', '/'] <:+: text.toList) (rest : List Char) :
    literalsOf ('/' :: '*' :: (text.toList ++ '*' :: '/' :: rest)) =
      (literalsOf rest).map (.comment .top text true :: ·) :=
  extractLiterals_blockComment .top .top h rest

theorem scanLiterals_quotation_inv : ∀ {chars : List Char} {seen : List Atom} {held : List Char}
    {pieces : List Piece},
    scanLiterals .top (.quotation false) seen held (chars.map (.unknown .top)) = .ok pieces →
    ∃ text quoted rest pieces', chars = quoted ++ '"' :: rest ∧ Quoted text quoted ∧
      scanLiterals .top .outside [] [] (rest.map (.unknown .top)) = .ok pieces' ∧
      atomsOf pieces = .literal .top (String.ofList (held.reverse ++ text)) :: atomsOf pieces'
  | [], _, _, _, h => by simp [scanLiterals] at h
  | c :: chars, seen, held, pieces, h => by
    by_cases hq : c = '"'
    · subst hq
      obtain ⟨ps, hps, h⟩ := bind_ok h
      cases h
      exact ⟨[], [], chars, ps, rfl, .nil, hps, by simp [quotationPiece]⟩
    by_cases hb : c = '\\'
    · subst hb
      cases chars with
      | nil => simp [scanLiterals] at h
      | cons c chars =>
        simp only [map_cons, scanLiterals] at h
        obtain ⟨text, quoted, rest, pieces', rfl, hquoted, hp, heq⟩ := scanLiterals_quotation_inv h
        exact ⟨c :: text, '\\' :: c :: quoted, rest, pieces', rfl, .escaped hquoted, hp,
          by simpa using heq⟩
    rw [map_cons, scanLiterals] at h
    · obtain ⟨text, quoted, rest, pieces', rfl, hquoted, hp, heq⟩ := scanLiterals_quotation_inv h
      exact ⟨c :: text, c :: quoted, rest, pieces', rfl, .plain hq hb hquoted, hp,
        by simpa using heq⟩
    · exact hb
    · exact hq

theorem scanLiterals_lineComment_inv : ∀ {chars seen held pieces},
    scanLiterals .top .lineComment seen held (chars.map (.unknown .top)) = .ok pieces →
    (∃ text rest pieces', chars = text ++ '\n' :: rest ∧ '\n' ∉ text ∧
      scanLiterals .top .outside [] [] (rest.map (.unknown .top)) = .ok pieces' ∧
      atomsOf pieces = .comment .top (String.ofList (held.reverse ++ text)) false :: atomsOf pieces') ∨
    ('\n' ∉ chars ∧ atomsOf pieces = [.comment .top (String.ofList (held.reverse ++ chars)) false])
  | [], _, _, _, h => by
    cases h
    exact .inr ⟨not_mem_nil, by simp [commentPiece]⟩
  | c :: chars, seen, held, pieces, h => by
    by_cases hn : c = '\n'
    · subst hn
      obtain ⟨ps, hps, h⟩ := bind_ok h
      cases h
      exact .inl ⟨[], chars, ps, rfl, not_mem_nil, hps, by simp [commentPiece]⟩
    rw [map_cons, scanLiterals] at h
    · rcases scanLiterals_lineComment_inv h with ⟨text, rest, pieces', rfl, ht, hp, heq⟩ | ⟨ht, heq⟩
      · exact .inl ⟨c :: text, rest, pieces', rfl, by simp [ht, Ne.symm hn], hp, by simpa using heq⟩
      · exact .inr ⟨by simp [ht, Ne.symm hn], by simpa using heq⟩
    · exact hn

theorem scanLiterals_blockComment_inv : ∀ {chars seen held pieces},
    scanLiterals .top .blockComment seen held (chars.map (.unknown .top)) = .ok pieces →
    ∃ text rest pieces', chars = text ++ '*' :: '/' :: rest ∧ ¬ ['*', '/'] <:+: text ∧
      scanLiterals .top .outside [] [] (rest.map (.unknown .top)) = .ok pieces' ∧
      atomsOf pieces = .comment .top (String.ofList (held.reverse ++ text)) true :: atomsOf pieces'
  | [], _, _, _, h => by simp [scanLiterals] at h
  | c :: chars, seen, held, pieces, h => by
    by_cases hend : ∃ rest, c = '*' ∧ chars = '/' :: rest
    · obtain ⟨rest, rfl, rfl⟩ := hend
      obtain ⟨ps, hps, h⟩ := bind_ok h
      cases h
      exact ⟨[], rest, ps, rfl, by simp, hps, by simp [commentPiece]⟩
    rw [map_cons, scanLiterals] at h
    · obtain ⟨text, rest, pieces', rfl, ht, hp, heq⟩ := scanLiterals_blockComment_inv h
      refine ⟨c :: text, rest, pieces', rfl, fun hi => ?_, hp, by simpa using heq⟩
      rcases infix_cons_iff.1 hi with hi | hi
      · -- the end of the comment would be found here already
        obtain ⟨rfl, tail, rfl⟩ := cons_prefix_cons.1 hi
        exact hend ⟨_, rfl, rfl⟩
      · exact ht hi
    · rintro l rest' heq rfl
      obtain ⟨d, chars', rfl, hd, -⟩ := map_eq_cons_iff.1 heq
      cases hd
      exact hend ⟨chars', rfl, rfl⟩

theorem literalsOf_cons_ok {raw} (h : literalsOf (c :: chars) = .ok raw) :
    (∃ raw', raw = .unknown .top c :: raw' ∧ literalsOf chars = .ok raw') ∨
      ∀ l d t, raw ≠ .unknown l d :: t := by
  have hinside (st : LiteralState) {seen : List Atom} {held : List Char} {run : List Atom}
      (hst : st ≠ .outside) (h : (scanLiterals .top st seen held run).map atomsOf = .ok raw) :
      ∀ l d t, raw ≠ .unknown l d :: t := by
    obtain ⟨pieces, hp, rfl⟩ := map_ok h
    exact fun l d t ht => hst (head_of_scanLiterals hp ht).1
  by_cases hq : c = '"'
  · subst hq
    exact .inr (hinside (.quotation false) (by simp) h)
  · cases hc : opensComment (c :: chars) with
    | false =>
      rw [literalsOf_cons hq hc] at h
      obtain ⟨raw', hraw', rfl⟩ := map_ok h
      exact .inl ⟨raw', rfl, hraw'⟩
    | true =>
      cases chars with
      | nil => cases hc
      | cons d chars =>
        obtain ⟨rfl, rfl | rfl⟩ := opensComment_cons_cons.1 hc
        · exact .inr (hinside .lineComment (by simp) h)
        · exact .inr (hinside .blockComment (by simp) h)

end WatScript
