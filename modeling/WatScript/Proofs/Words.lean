import WatScript.Proofs.Brackets

/-!
# Words and operators

What the last lexing pass makes of a run: its atoms that are no characters and its separators stay, and
all other atoms of the result are words that are not empty and operators of the table
(`mem_tokenize`). The pass fails only for operator characters that form no lexeme (`tokenize_ends`), and
it leaves a run whose only characters are separators as it is (`tokenize_of_separators`).
-/

namespace WatScript

open List

/-- The atom is a character other than a separator. -/
def Atom.isLetter : Atom → Bool
  | .unknown _ c => !isSeparator c
  | _ => false

/-- An atom that the word pass makes: a word that is not empty, or an operator of the table. -/
inductive IsLexeme (lv : Level) : Atom → Prop
  | word {w} : w ≠ "" → IsLexeme lv (.word lv w)
  | operator {o} : (Operator.find? o).isSome → IsLexeme lv (.operator lv o)

/-! ## The operator table -/

theorem Operator.find?_isSome_of_mem {o} (h : o ∈ Operator.lexemes) :
    (Operator.find? o).isSome := by
  have hall : ∀ o ∈ Operator.lexemes, (Operator.find? o).isSome := by decide
  exact hall o h

theorem Operator.find?_isSome_of_match? {cs o}
    (h : Operator.match? cs = some o) : (Operator.find? o).isSome :=
  Operator.find?_isSome_of_mem (mem_of_find?_eq_some h)

/-! ## One word -/

theorem cutOperators_ends (lv : Level) (skip : Nat) (ms : List Mark) :
    Ends (fun pieces => ∀ a ∈ atomsOf pieces, IsLexeme lv a) (· = .unknownSymbol)
      (cutOperators lv skip ms) := by
  fun_induction cutOperators lv skip ms with
  | case1 => simp [Ends]
  | case2 _ _ _ ih => exact ih
  | case3 => rfl
  | case4 m rest o ho ih =>
    refine ih.bind fun pieces hp => ?_
    rintro a (_ | ⟨_, ha⟩)
    · exact .operator (Operator.find?_isSome_of_match? ho)
    · exact hp a ha

theorem splitMarks_ne_nil (isOpen : Option (Bool × List Mark)) (ms : List Mark)
    (h : ∀ p, isOpen = some p → p.2 ≠ []) : ∀ p ∈ splitMarks isOpen ms, p.2 ≠ [] := by
  fun_induction splitMarks isOpen ms with
  | case1 => simp
  | case2 isOp held =>
    have := h _ rfl
    simpa using this
  | case3 m rest ih => exact ih (by simp)
  | case4 isOp held m rest _ ih => exact ih (by simp)
  | case5 isOp held m rest _ ih =>
    rintro p (_ | ⟨_, hp⟩)
    · simpa using h _ rfl
    · exact ih (by simp) p hp

theorem markText_ne_empty {ms} (h : ms ≠ []) : markText ms ≠ "" := by
  cases ms with
  | nil => exact absurd rfl h
  | cons m ms => simp [markText]

theorem cutWord_ends (lv : Level) (ms : List Mark) :
    Ends (fun pieces => ∀ a ∈ atomsOf pieces, IsLexeme lv a) (· = .unknownSymbol)
      (cutWord lv ms) := by
  have hstretch : ∀ p ∈ splitMarks none ms,
      Ends (fun pieces => ∀ a ∈ atomsOf pieces, IsLexeme lv a) (· = .unknownSymbol)
        (cutStretch lv p) := by
    rintro ⟨isOp, held⟩ hp
    cases isOp with
    | true => exact cutOperators_ends lv 0 held
    | false =>
      have hne := splitMarks_ne_nil none ms (by simp) _ hp
      intro a ha
      simp only [atomsOf_made, atomsOf_nil, mem_singleton] at ha
      rw [ha]
      exact .word (markText_ne_empty hne)
  refine (Ends.mapM hstretch).bind fun pieces hp => ?_
  intro a ha
  simp only [atomsOf, mem_filterMap, mem_flatten] at ha hp
  obtain ⟨p, ⟨ps, hps, hpp⟩, ha⟩ := ha
  exact hp ps hps a ⟨p, hpp, ha⟩

/-! ## The pass -/

theorem scanWords_ends (lv : Level) (held : List Mark) (run : List Atom) :
    Ends (fun pieces => ∀ a ∈ atomsOf pieces, (a ∈ run ∧ a.isLetter = false) ∨ IsLexeme lv a)
      (· = .unknownSymbol) (scanWords lv held run) := by
  fun_induction scanWords lv held run with
  | case1 held => exact (cutWord_ends lv held.reverse).mono fun pieces h a ha => .inr (h a ha)
  | case2 held l c rest _ ih =>
    refine (cutWord_ends lv held.reverse).bind fun word hw => ih.bind fun pieces hp => ?_
    intro a ha
    simp only [atomsOf_append, atomsOf_dropped, mem_append] at ha
    rcases ha with ha | ha
    · exact .inr (hw a ha)
    · rcases hp a ha with ⟨hm, hl⟩ | hx
      · exact .inl ⟨mem_cons_of_mem _ hm, hl⟩
      · exact .inr hx
  | case3 held l c rest _ hc ih =>
    refine (cutWord_ends lv held.reverse).bind fun word hw => ih.bind fun pieces hp => ?_
    intro a ha
    simp only [atomsOf_append, atomsOf_kept, mem_append, mem_cons] at ha
    rcases ha with ha | rfl | ha
    · exact .inr (hw a ha)
    · exact .inl ⟨mem_cons_self, by simp [Atom.isLetter, hc]⟩
    · rcases hp a ha with ⟨hm, hl⟩ | hx
      · exact .inl ⟨mem_cons_of_mem _ hm, hl⟩
      · exact .inr hx
  | case4 held l c rest _ _ ih =>
    refine ih.mono fun pieces h a ha => ?_
    rcases h a ha with ⟨hm, hl⟩ | hx
    · exact .inl ⟨mem_cons_of_mem _ hm, hl⟩
    · exact .inr hx
  | case5 held a rest hne ih =>
    refine (cutWord_ends lv held.reverse).bind fun word hw => ih.bind fun pieces hp => ?_
    intro b hb
    simp only [atomsOf_append, atomsOf_kept, mem_append, mem_cons] at hb
    rcases hb with hb | rfl | hb
    · exact .inr (hw b hb)
    · refine .inl ⟨mem_cons_self, ?_⟩
      cases b with
      | unknown l c => exact (hne l c rfl).elim
      | _ => rfl
    · rcases hp b hb with ⟨hm, hl⟩ | hx
      · exact .inl ⟨mem_cons_of_mem _ hm, hl⟩
      · exact .inr hx

/-- Cutting words leaves no letter. -/
theorem tokenize_ends (lv : Level) (run : List Atom) :
    Ends (fun out => ∀ a ∈ out, (a ∈ run ∧ a.isLetter = false) ∨ IsLexeme lv a)
      (· = .unknownSymbol) (tokenize lv run) :=
  (scanWords_ends lv [] run).map fun _ h => h

theorem cutWord_nil (lv : Level) : cutWord lv [] = .ok [] := rfl

theorem scanWords_of_separators (lv : Level) : ∀ {run}, (∀ a ∈ run, a.isLetter = false) →
      scanWords lv [] run = .ok (run.map .kept)
  | [], _ => by rw [scanWords]; rfl
  | a :: rest, h => by
    have ih := scanWords_of_separators lv fun b hb => h b (mem_cons_of_mem _ hb)
    have ha := h a mem_cons_self
    cases a with
    | unknown l c =>
      have hc : isSeparator c = true := by simpa [Atom.isLetter] using ha
      have hs : isSpace c = false := by
        simp only [isSeparator, Bool.or_eq_true, beq_iff_eq] at hc
        rcases hc with (rfl | rfl) | rfl <;> rfl
      simp [scanWords, hs, hc, ih, cutWord_nil, bind, Except.bind, pure, Except.pure]
    | _ => simp [scanWords, ih, cutWord_nil, bind, Except.bind, pure, Except.pure]

theorem tokenize_of_separators (lv : Level) {run} (h : ∀ a ∈ run, a.isLetter = false) :
    tokenize lv run = .ok run := by
  simp only [tokenize, cutWords, scanWords_of_separators lv h, Except.map, atomsOf_map_kept]

end WatScript
