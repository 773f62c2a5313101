import WatScript.Proofs.Literals

/-!
# Segments

The literal pass undoes a rendering. A `Segment` is a single character, a quotation or a comment, and
`Segment.render` writes it: with a backslash before each quotation mark and each backslash of a
quotation, and between comment marks. As long as no slash joins with what follows it
(`Segment.KeepsApart`), the segments are read back as they were written, each as one atom
(`Rendering.extractLiterals_eq`).
-/

namespace WatScript

open List

/-- A part of a text that is read as one atom. -/
inductive Segment where
  | plain (c : Char) (noQuote : c ≠ '"')
  | quotation (text : String)
  | lineComment (text : String) (oneLine : '\n' ∉ text.toList)
  | blockComment (text : String) (noEnd : ¬ ['*', '/'] <:+: text.toList)

/-- Text with a backslash before each quotation mark and each backslash. -/
def withEscapes (text : List Char) : List Char :=
  text.flatMap fun c => if c = '"' ∨ c = '\\' then ['\\', c] else [c]

theorem quoted_withEscapes : ∀ text : List Char, Quoted text (withEscapes text)
  | [] => .nil
  | c :: text => by
    rw [withEscapes, flatMap_cons]
    split
    · exact .escaped (quoted_withEscapes text)
    · rename_i hc
      obtain ⟨hq, hb⟩ := not_or.1 hc
      exact .plain hq hb (quoted_withEscapes text)

namespace Segment

/-- The characters of a segment. -/
def render : Segment → List Char
  | plain c _ => [c]
  | quotation text => '"' :: (withEscapes text.toList ++ ['"'])
  | lineComment text _ => '/' :: '/' :: (text.toList ++ ['\n'])
  | blockComment text _ => '/' :: '*' :: (text.toList ++ ['*', '/'])

/-- The atom that is read: a character keeps the level `l` of the text, and a literal has the level `lv`
of the pass. -/
def atom (lv l : Level) : Segment → Atom
  | plain c _ => .unknown l c
  | quotation text => .literal lv text
  | lineComment text _ => .comment lv text false
  | blockComment text _ => .comment lv text true

/-- The first segment is no slash that begins a comment together with the second one. -/
def KeepsApart : Segment → Segment → Prop
  | plain c _, plain d _ => c = '/' → d ≠ '/' ∧ d ≠ '*'
  | plain c _, lineComment .. | plain c _, blockComment .. => c ≠ '/'
  | _, _ => True

end Segment

/-- The characters are the segments one after the other. A line comment at the end may go without the end
of its line. -/
inductive Rendering : List Segment → List Char → Prop
  | nil : Rendering [] []
  | cons {s segments chars} : Rendering segments chars →
      Rendering (s :: segments) (s.render ++ chars)
  | openLine {text h} : Rendering [.lineComment text h] ('/' :: '/' :: text.toList)

section
variable {segments : List Segment} {chars : List Char}

theorem Rendering.opensComment_cons {c hc} (h : Rendering segments chars)
    (ha : (Segment.plain c hc :: segments).IsChain Segment.KeepsApart) :
    opensComment (c :: chars) = false := by
  rw [← Bool.not_eq_true]
  intro ho
  cases h with
  | nil => cases ho
  | @cons s segments chars _ =>
    have hs := (isChain_cons_cons.1 ha).1
    cases s with
    | plain d _ =>
      obtain ⟨rfl, hd⟩ := opensComment_cons_cons.1 ho
      exact hd.elim (hs rfl).1 (hs rfl).2
    | quotation text => exact absurd (opensComment_cons_cons.1 ho).2 (by decide)
    | lineComment text _ | blockComment text _ => exact hs (opensComment_cons_cons.1 ho).1
  | openLine => exact (isChain_cons_cons.1 ha).1 (opensComment_cons_cons.1 ho).1

theorem Rendering.extractLiterals_eq (lv l : Level) (h : Rendering segments chars)
    (ha : segments.IsChain Segment.KeepsApart) :
    extractLiterals lv (chars.map (.unknown l)) = .ok (segments.map (Segment.atom lv l)) := by
  induction h with
  | nil => exact extractLiterals_of_literalFree lv trivial
  | @cons s segments chars h ih =>
    have ih := ih ha.of_cons
    cases s with
    | plain c hc =>
      rw [Segment.render, singleton_append, extractLiterals_cons lv l hc (h.opensComment_cons ha), ih]
      rfl
    | quotation text =>
      rw [Segment.render, cons_append, append_assoc, singleton_append,
        extractLiterals_quoted lv l (quoted_withEscapes text.toList), ih]
      rfl
    | lineComment text ht =>
      rw [Segment.render, cons_append, cons_append, append_assoc, singleton_append,
        extractLiterals_lineComment lv l ht, ih]
      rfl
    | blockComment text ht =>
      rw [Segment.render, cons_append, cons_append, append_assoc, cons_append,
        singleton_append, extractLiterals_blockComment lv l ht, ih]
      rfl
  | @openLine text ht =>
    obtain ⟨seen, hscan⟩ := scanLiterals_inLine lv l ht [.unknown l '/', .unknown l '/'] [] []
    rw [append_nil] at hscan
    rw [extractLiterals, cutLiterals, map_cons, map_cons, scanLiterals, hscan, scanLiterals]
    simp [Except.map, commentPiece, Segment.atom]

end

/-- The literal pass reads a rendered text back into its segments, one atom for each in order. It leaves
every stretch of what it has read as it is, at whatever level. -/
theorem literals_invert_rendering (lv : Level) :
    (∀ (l : Level) (segments : List Segment) (text : Text), Rendering segments text.toChars →
      segments.IsChain Segment.KeepsApart →
      extractLiterals lv (explode l text) = .ok (segments.map (Segment.atom lv l))) ∧
    ∀ run out, extractLiterals lv run = .ok out →
      ∀ part, part <:+: out → ∀ lv', extractLiterals lv' part = .ok part := by
  refine ⟨fun l segments text h ha => h.extractLiterals_eq lv l ha, ?_⟩
  intro run out hout part hpart lv'
  exact extractLiterals_of_literalFree lv' ((literalFree_extractLiterals hout).stretch hpart)

/-- Comment marks in a quotation, quotation marks in comments, and a comment that the text ends in. -/
theorem literals_invert_rendering_marks :
    ∃ out, extractLiterals .top (explode .top (.ofString "\"/*\\\"\\\\\"*/*/ \" **//\"\"//\" /*")) = .ok out ∧
      out = [.literal .top "/*\"\\", .unknown .top '*', .comment .top "/ \" *" true,
        .unknown .top '/', .literal .top "", .comment .top "\" /*" false] ∧
      extractLiterals (.nested 1 0) (out.drop 3) = .ok (out.drop 3) := by
  have hread := (literals_invert_rendering .top).1 .top
    [.quotation "/*\"\\", .plain '*' (by decide), .blockComment "/ \" *" (by decide),
      .plain '/' (by decide), .quotation "", .lineComment "\" /*" (by decide)]
    (.ofString "\"/*\\\"\\\\\"*/*/ \" **//\"\"//\" /*")
    (.cons (.cons (.cons (.cons (.cons .openLine)))))
    (by simp [Segment.KeepsApart])
  exact ⟨_, hread, rfl,
    (literals_invert_rendering .top).2 _ _ hread _ (List.drop_suffix 3 _).isInfix (.nested 1 0)⟩

end WatScript
