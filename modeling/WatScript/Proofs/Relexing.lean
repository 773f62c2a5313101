import WatScript.Proofs.RebuiltLexing
import WatScript.Proofs.Spacing

/-!
# Lexed runs

`Lexed lv run out` says where each atom of a lexed run comes from: an atom that is no character, or is a
separator, was there before; a word and an operator are made from adjacent characters; a literal stands
for its characters, and a bracket for all that it encloses. White space is gone. Lexing gives such a run
(`lexed_group`), in which separators are the only characters, so lexing it once more changes nothing
(`group_of_separators`).
-/

namespace WatScript

open List

/-- A quotation or a comment at the level. -/
inductive IsLiteral (lv : Level) : Atom → Prop
  | quotation {text} : IsLiteral lv (.literal lv text)
  | comment {text block} : IsLiteral lv (.comment lv text block)

/-- The run `out` is what lexing makes of the run. -/
inductive Lexed (lv : Level) : List Atom → List Atom → Prop
  | nil : Lexed lv [] []
  | keep {a : Atom} {rest out : List Atom} : a.isLetter = false → Lexed lv rest out →
      Lexed lv (a :: rest) (a :: out)
  | space {l : Level} {c : Char} {rest out : List Atom} : isSpace c = true → Lexed lv rest out →
      Lexed lv (.unknown l c :: rest) out
  | literal {ms : List Mark} {a : Atom} {rest out : List Atom} : ms ≠ [] → IsLiteral lv a →
      Lexed lv rest out → Lexed lv (ms.map Mark.atom ++ rest) (a :: out)
  | bracket {pair : Bracket} {l l' : Level} {inner raw rest out : List Atom} : Lexed lv rest out →
      Lexed lv (.unknown l pair.opener :: inner ++ .unknown l' pair.closer :: rest)
        (pair.atom lv raw :: out)
  | word {ms : List Mark} {rest out : List Atom} : ms ≠ [] → (∀ m ∈ ms, isWordChar m.c = true) →
      Lexed lv rest out → Lexed lv (ms.map Mark.atom ++ rest) (.word lv (markText ms) :: out)
  | operator {ms : List Mark} {rest out : List Atom} : markText ms ∈ Operator.lexemes →
      Lexed lv rest out → Lexed lv (ms.map Mark.atom ++ rest) (.operator lv (markText ms) :: out)

/-! ## Words and operators -/

/-- The character is part of a word or an operator. -/
structure Mark.IsHeld (m : Mark) : Prop where
  noSpace : isSpace m.c = false
  noSeparator : isSeparator m.c = false
  noBracket : ∀ pair : Bracket, pair.has m.c = false
  noQuote : m.c ≠ '"'

theorem Mark.IsHeld.isWordChar {m : Mark} (h : m.IsHeld) (ho : Operator.isOperatorChar m.c = false) :
    isWordChar m.c = true := by
  have hbracket : bracketToken? m.c = none := bracketToken?_of_marks (l := m.lv) h.noBracket
  simp [WatScript.isWordChar, h.noSpace, h.noSeparator, hbracket, h.noQuote, ho]

theorem held_cons (l : Level) (c : Char) (held : List Mark) (rest : List Atom) :
    (⟨l, c⟩ :: held : List Mark).reverse.map Mark.atom ++ rest =
      held.reverse.map Mark.atom ++ .unknown l c :: rest := by
  simp [Mark.atom]

theorem markText_take_match {ms : List Mark} {o : String}
    (h : Operator.match? (ms.map Mark.c) = some o) : markText (ms.take o.length) = o := by
  have hfound := @find?_some _ (fun lexeme : String => lexeme.toList.isPrefixOf (ms.map Mark.c)) _ _ h
  have hpre := isPrefixOf_iff_prefix.1 hfound
  rw [markText, map_take, ← String.length_toList, ← prefix_iff_eq_take.1 hpre,
    String.ofList_toList]

theorem splitMarks_kind (isOpen : Option (Bool × List Mark)) (ms : List Mark)
    (h : ∀ p, isOpen = some p → ∀ m ∈ p.2, Operator.isOperatorChar m.c = p.1) :
    ∀ p ∈ splitMarks isOpen ms, ∀ m ∈ p.2, Operator.isOperatorChar m.c = p.1 := by
  fun_induction splitMarks isOpen ms with
  | case1 => simp
  | case2 isOp held => simpa using h _ rfl
  | case3 m rest ih => exact ih (by simp)
  | case4 isOp held m rest hm ih =>
    refine ih ?_
    rintro _ ⟨⟩
    exact forall_mem_cons.2 ⟨beq_iff_eq.1 hm, h _ rfl⟩
  | case5 isOp held m rest hm ih =>
    refine forall_mem_cons.2 ⟨by simpa using h _ rfl, ih ?_⟩
    rintro _ ⟨⟩
    exact forall_mem_singleton.2 (Bool.eq_not.2 (by simpa using hm))

section
variable {lv : Level} {rest out : List Atom} {ms : List Mark} {pieces : List Piece}

theorem Lexed.cutOperators {skip : Nat} (hrest : Lexed lv rest out)
    (h : cutOperators lv skip ms = .ok pieces) :
    Lexed lv ((ms.drop skip).map Mark.atom ++ rest) (atomsOf pieces ++ out) := by
  fun_induction WatScript.cutOperators lv skip ms generalizing pieces with
  | case1 =>
    cases h
    rw [drop_nil]
    exact hrest
  | case2 skip m ms ih => exact ih h
  | case3 => cases h
  | case4 m ms o ho ih =>
    obtain ⟨ps, hps, h⟩ := bind_ok h
    cases h
    rw [drop_zero, ← take_append_drop_match ho, map_append, append_assoc, atomsOf_made]
    have hlexeme := markText_take_match ho
    have hop := Lexed.operator (hlexeme.symm ▸ mem_of_find?_eq_some ho) (ih hps)
    rwa [hlexeme] at hop

theorem Lexed.cutStretch {p : Bool × List Mark} (hrest : Lexed lv rest out)
    (h : cutStretch lv p = .ok pieces) (hne : p.2 ≠ [])
    (hp : ∀ m ∈ p.2, m.IsHeld ∧ Operator.isOperatorChar m.c = p.1) :
    Lexed lv (p.2.map Mark.atom ++ rest) (atomsOf pieces ++ out) := by
  obtain ⟨isOp, ms⟩ := p
  cases isOp with
  | true => exact hrest.cutOperators h
  | false =>
    cases h
    exact .word hne (fun m hm => (hp m hm).1.isWordChar (hp m hm).2) hrest

theorem Lexed.cutWord (hrest : Lexed lv rest out) (h : cutWord lv ms = .ok pieces)
    (hms : ∀ m ∈ ms, m.IsHeld) : Lexed lv (ms.map Mark.atom ++ rest) (atomsOf pieces ++ out) := by
  obtain ⟨pss, hpss, hflat⟩ := bind_ok h
  cases hflat
  clear h
  have hne := splitMarks_ne_nil none ms (by simp)
  have hkind := splitMarks_kind none ms (by simp)
  have hcut : ms = (splitMarks none ms).flatMap Prod.snd := by rw [flatMap_splitMarks]; rfl
  rw [hcut] at hms ⊢
  generalize splitMarks none ms = stretches at hpss hne hkind hms
  induction stretches generalizing pss with
  | nil =>
    cases hpss
    exact hrest
  | cons p stretches ih =>
    obtain ⟨ps, pss, hps, hrests, rfl⟩ := mapM_cons_ok hpss
    obtain ⟨hne, hne'⟩ := forall_mem_cons.1 hne
    obtain ⟨hkind, hkind'⟩ := forall_mem_cons.1 hkind
    rw [flatMap_cons] at hms
    obtain ⟨hms, hms'⟩ := forall_mem_append.1 hms
    rw [flatMap_cons, map_append, append_assoc, flatten_cons, atomsOf_append,
      append_assoc]
    exact (ih pss hrests hne' hkind' hms').cutStretch hps hne fun m hm => ⟨hms m hm, hkind m hm⟩

end

theorem lexed_scanWords {lv : Level} {held : List Mark} {run : List Atom} {pieces : List Piece}
    (h : scanWords lv held run = .ok pieces) (hheld : ∀ m ∈ held, m.IsHeld) (hrun : NoBrackets run)
    (hfree : LiteralFree run) : Lexed lv (held.reverse.map Mark.atom ++ run) (atomsOf pieces) := by
  have hword {held : List Mark} (hheld : ∀ m ∈ held, m.IsHeld) : ∀ m ∈ held.reverse, m.IsHeld :=
    fun m hm => hheld m (mem_reverse.1 hm)
  fun_induction scanWords lv held run generalizing pieces with
  | case1 held =>
    have := Lexed.nil.cutWord h (hword hheld)
    rwa [append_nil (atomsOf pieces)] at this
  | case2 held l c rest hc ih =>
    obtain ⟨word, hw, h⟩ := bind_ok h
    obtain ⟨ps, hps, h⟩ := bind_ok h
    cases h
    rw [atomsOf_append, atomsOf_dropped]
    exact (Lexed.space hc (ih hps (by simp) hrun.tail hfree.2)).cutWord hw (hword hheld)
  | case3 held l c rest _ hc ih =>
    obtain ⟨word, hw, h⟩ := bind_ok h
    obtain ⟨ps, hps, h⟩ := bind_ok h
    cases h
    rw [atomsOf_append, atomsOf_kept]
    have hsep : (Atom.unknown l c).isLetter = false := by rw [Atom.isLetter, hc]; rfl
    exact (Lexed.keep hsep (ih hps (by simp) hrun.tail hfree.2)).cutWord hw (hword hheld)
  | case4 held l c rest hspace hsep ih =>
    have hc : Mark.IsHeld ⟨l, c⟩ := by
      refine ⟨by simpa using hspace, by simpa using hsep, fun pair => hrun pair _ mem_cons_self, ?_⟩
      rintro rfl
      cases hfree.1
    have := ih h (forall_mem_cons.2 ⟨hc, hheld⟩) hrun.tail hfree.2
    rwa [held_cons] at this
  | case5 held a rest hne ih =>
    obtain ⟨word, hw, h⟩ := bind_ok h
    obtain ⟨ps, hps, h⟩ := bind_ok h
    cases h
    rw [atomsOf_append, atomsOf_kept]
    have ha : a.isLetter = false := by
      cases a with
      | unknown l c => exact (hne l c rfl).elim
      | _ => rfl
    exact (Lexed.keep ha (ih hps (by simp) hrun.tail hfree.2)).cutWord hw (hword hheld)

/-! ## Literals and brackets -/

/-- Literals and brackets of the run are single atoms of `out`. All other atoms stay. -/
inductive Collapsed (lv : Level) : List Atom → List Atom → Prop
  | nil : Collapsed lv [] []
  | keep {a : Atom} {rest out : List Atom} : Collapsed lv rest out → Collapsed lv (a :: rest) (a :: out)
  | literal {ms : List Mark} {a : Atom} {rest out : List Atom} : ms ≠ [] → IsLiteral lv a →
      Collapsed lv rest out → Collapsed lv (ms.map Mark.atom ++ rest) (a :: out)
  | bracket {pair : Bracket} {l l' : Level} {inner raw rest out : List Atom} : Collapsed lv rest out →
      Collapsed lv (.unknown l pair.opener :: inner ++ .unknown l' pair.closer :: rest)
        (pair.atom lv raw :: out)

theorem Grouped.collapsed {pair lv run out} (h : Grouped pair lv run out) :
    Collapsed lv run out := by
  induction h with
  | nil => exact .nil
  | keep _ _ ih => exact .keep ih
  | wrap _ ih => exact .bracket ih

/-- What an open literal has taken stands before the rest of the run. -/
def LiteralState.before : LiteralState → List Mark → List Atom → List Atom
  | .outside, _, run => run
  | .quotation _, seen, run | .lineComment, seen, run | .blockComment, seen, run =>
    seen.reverse.map Mark.atom ++ run

theorem collapsed_scanLiterals (ms : List Mark) {lv : Level} {st : LiteralState} {text : List Char}
    {seen run : List Atom} {pieces : List Piece} (h : scanLiterals lv st seen text run = .ok pieces)
    (hseen : st ≠ .outside → ms ≠ [] ∧ seen = ms.map Mark.atom) :
    Collapsed lv (st.before ms run) (atomsOf pieces) := by
  have hmade {ms : List Mark} {a : Atom} {rest out : List Atom} (hne : ms ≠ []) (ha : IsLiteral lv a)
      (hrest : Collapsed lv rest out) :
      Collapsed lv (ms.reverse.map Mark.atom ++ rest) (a :: out) :=
    .literal (mt reverse_eq_nil_iff.1 hne) ha hrest
  fun_induction scanLiterals lv st seen text run generalizing pieces ms with
  | case1 =>
    cases h
    exact .nil
  | case2 | case3 => cases h
  | case4 seen text =>
    cases h
    exact hmade (hseen (by simp)).1 .comment .nil
  | case5 seen text l l' rest ih =>
    exact ih [⟨l', '*'⟩, ⟨l, '/'⟩] h fun _ => ⟨by simp, rfl⟩
  | case6 seen text l l' rest ih =>
    exact ih [⟨l', '/'⟩, ⟨l, '/'⟩] h fun _ => ⟨by simp, rfl⟩
  | case7 seen text l rest ih => exact ih [⟨l, '"'⟩] h fun _ => ⟨by simp, rfl⟩
  | case8 seen text a rest _ _ _ ih =>
    obtain ⟨ps, hps, h⟩ := bind_ok h
    cases h
    exact .keep (ih [] hps (by simp))
  | case9 seen text l c rest ih | case12 seen text l c rest _ _ ih | case14 seen text l c rest _ ih
  | case16 seen text l c rest _ ih =>
    obtain ⟨-, rfl⟩ := hseen (by simp)
    rw [LiteralState.before, ← held_cons l c]
    exact ih (⟨l, c⟩ :: ms) h fun _ => ⟨by simp, rfl⟩
  | case10 seen text l rest ih =>
    obtain ⟨-, rfl⟩ := hseen (by simp)
    rw [LiteralState.before, ← held_cons l '\\']
    exact ih (⟨l, '\\'⟩ :: ms) h fun _ => ⟨by simp, rfl⟩
  | case11 seen text l rest ih =>
    obtain ⟨ps, hps, h⟩ := bind_ok h
    cases h
    rw [LiteralState.before, ← held_cons l '"']
    exact hmade (by simp) .quotation (ih [] hps (by simp))
  | case13 seen text l rest ih =>
    obtain ⟨ps, hps, h⟩ := bind_ok h
    cases h
    rw [LiteralState.before, ← held_cons l '\n']
    exact hmade (by simp) .comment (ih [] hps (by simp))
  | case15 seen text l l' rest ih =>
    obtain ⟨ps, hps, h⟩ := bind_ok h
    cases h
    rw [LiteralState.before, ← held_cons l '*', ← held_cons l' '/']
    exact hmade (by simp) .comment (ih [] hps (by simp))
  | case17 => simp at h

section
variable {lv : Level} {run out : List Atom}

theorem Collapsed.marks : ∀ (ms : List Mark) {run : List Atom},
    Collapsed lv run (ms.map Mark.atom ++ out) →
    ∃ rest, run = ms.map Mark.atom ++ rest ∧ Collapsed lv rest out
  | [], run, h => ⟨run, rfl, h⟩
  | m :: ms, run, h => by
    generalize hout : (m :: ms).map Mark.atom ++ out = mid at h
    cases h with
    | nil => cases hout
    | keep h =>
      cases hout
      obtain ⟨rest, rfl, hrest⟩ := Collapsed.marks ms h
      exact ⟨rest, rfl, hrest⟩
    | literal _ ha =>
      cases hout
      cases ha
    | @bracket pair => cases pair <;> cases hout

theorem Collapsed.split {u : List Atom} : ∀ {t run : List Atom}, Collapsed lv run (t ++ u) →
    ∃ front rest, run = front ++ rest ∧ Collapsed lv rest u
  | [], run, h => ⟨[], run, rfl, h⟩
  | a :: t, run, h => by
    generalize hout : a :: t ++ u = mid at h
    cases h with
    | nil => cases hout
    | keep h =>
      cases hout
      obtain ⟨front, rest, rfl, hrest⟩ := Collapsed.split h
      exact ⟨a :: front, rest, rfl, hrest⟩
    | @literal ms _ _ _ _ _ h =>
      cases hout
      obtain ⟨front, rest, rfl, hrest⟩ := Collapsed.split h
      exact ⟨ms.map Mark.atom ++ front, rest, (append_assoc ..).symm, hrest⟩
    | @bracket pair l l' inner _ _ _ h =>
      obtain ⟨-, rfl⟩ := List.cons.inj hout
      obtain ⟨front, rest, rfl, hrest⟩ := Collapsed.split h
      exact ⟨.unknown l pair.opener :: inner ++ .unknown l' pair.closer :: front, rest, by simp, hrest⟩

theorem Collapsed.lexed {mid} (h : Lexed lv mid out) (hc : Collapsed lv run mid) :
    Lexed lv run out := by
  induction h generalizing run with
  | nil =>
    cases hc
    exact .nil
  | keep ha _ ih =>
    cases hc with
    | keep hc => exact .keep ha (ih hc)
    | literal hne hl hc => exact .literal hne hl (ih hc)
    | bracket hc => exact .bracket (ih hc)
  | @space l c rest out hspace _ ih =>
    obtain ⟨rest, rfl, hrest⟩ := Collapsed.marks [⟨l, c⟩] hc
    exact .space hspace (ih hrest)
  | literal hne hl _ ih =>
    obtain ⟨rest, rfl, hrest⟩ := Collapsed.marks _ hc
    exact .literal hne hl (ih hrest)
  | @bracket pair l l' inner raw rest out _ ih =>
    obtain ⟨inside, rfl, hinside⟩ := Collapsed.marks [⟨l, pair.opener⟩] hc
    obtain ⟨inner, behind, rfl, hbehind⟩ := Collapsed.split hinside
    obtain ⟨rest, rfl, hrest⟩ := Collapsed.marks [⟨l', pair.closer⟩] hbehind
    exact .bracket (ih hrest)
  | word hne hms _ ih =>
    obtain ⟨rest, rfl, hrest⟩ := Collapsed.marks _ hc
    exact .word hne hms (ih hrest)
  | operator ho _ ih =>
    obtain ⟨rest, rfl, hrest⟩ := Collapsed.marks _ hc
    exact .operator ho (ih hrest)

end

/-! ## Lexing -/

section
variable {lv : Level} {run out : List Atom}

theorem lexed_group (h : group lv run = .ok out) : Lexed lv run out := by
  obtain ⟨literals, hliterals, h⟩ := bind_ok h
  obtain ⟨brackets, hbrackets, h⟩ := bind_ok h
  obtain ⟨words, hwords, rfl⟩ := map_ok h
  obtain ⟨pieces, hpieces, rfl⟩ := map_ok hliterals
  have hcollapsed : Collapsed lv run (atomsOf pieces) :=
    collapsed_scanLiterals [] hpieces (by simp)
  obtain ⟨braces, squares, hbraces, hsquares, hrounds⟩ := groupBrackets_ok hbrackets
  have hfree := hrounds.literalFree (hsquares.literalFree (hbraces.literalFree
    (literalFree_extractLiterals hliterals)))
  have hlexed := lexed_scanWords hwords (by simp) (noBrackets_groupBrackets hbrackets) hfree
  exact hcollapsed.lexed (hbraces.collapsed.lexed (hsquares.collapsed.lexed (hrounds.collapsed.lexed hlexed)))

theorem Lexed.isLetter (h : Lexed lv run out) : ∀ a ∈ out, a.isLetter = false := by
  induction h with
  | nil => simp
  | keep ha _ ih => exact forall_mem_cons.2 ⟨ha, ih⟩
  | space _ _ ih => exact ih
  | literal _ ha _ ih =>
    refine forall_mem_cons.2 ⟨?_, ih⟩
    cases ha <;> rfl
  | @bracket pair _ _ _ _ _ _ _ ih =>
    refine forall_mem_cons.2 ⟨?_, ih⟩
    cases pair <;> rfl
  | word _ _ _ ih | operator _ _ ih => exact forall_mem_cons.2 ⟨rfl, ih⟩

/-- Separators begin no literal, and are no brackets. -/
theorem group_of_separators (lv : Level) (h : ∀ a ∈ run, a.isLetter = false) :
    group lv run = .ok run := by
  have hsep (l : Level) (c : Char) (hc : .unknown l c ∈ run) : isSeparator c = true := by
    simpa [Atom.isLetter] using h _ hc
  have hfree : LiteralFree run := literalFree_of_chars fun l c hc => by
    constructor <;> rintro rfl <;> exact absurd (hsep l _ hc) (by decide)
  have hbrackets : NoBrackets run := by
    intro pair a ha
    cases a with
    | unknown l c =>
      have hc := hsep l c ha
      simp only [isSeparator, Bool.or_eq_true, beq_iff_eq] at hc
      rcases hc with (rfl | rfl) | rfl <;> cases pair <;> rfl
    | _ => rfl
  rw [group, extractLiterals_of_literalFree lv hfree]
  show (groupBrackets lv run >>= tokenize lv) = .ok run
  rw [groupBrackets_of_noBrackets lv hbrackets]
  exact tokenize_of_separators lv h

end

/-- Lexing a run, be it of characters or of atoms grouped before, leaves no characters but separators. The
words that it makes are stretches of word characters, and the operators that it makes are in the table;
all else in the result is a literal, a bracket or an atom of the run. The result is lexed to itself, at
whatever level. -/
theorem lexing_idempotent_complete {lv : Level} {run out : List Atom} (h : group lv run = .ok out) :
    Lexed lv run out ∧ (∀ l c, .unknown l c ∈ out → c = ',' ∨ c = ':' ∨ c = ';') ∧
      ∀ lv', group lv' out = .ok out := by
  have hlexed := lexed_group h
  refine ⟨hlexed, fun l c hc => ?_, fun lv' => group_of_separators lv' hlexed.isLetter⟩
  have hsep : isSeparator c = true := by simpa [Atom.isLetter] using hlexed.isLetter _ hc
  simp only [isSeparator, Bool.or_eq_true, beq_iff_eq] at hsep
  rcases hsep with (rfl | rfl) | rfl <;> simp

/-- Characters between atoms grouped before, of which one is a word that lexing would not make. -/
theorem lexing_idempotent_complete_mixed :
    ∃ out, group .top [.unknown .top 'a', .word .top "b c", .unknown .top '+', .unknown .top '=',
        .unknown .top '(', .operator .top "++", .unknown .top '!', .unknown .top ')', .unknown .top ' ',
        .unknown .top ';'] = .ok out ∧
      out = [.word .top "a", .word .top "b c", .operator .top "+=",
        .paren .top [.operator .top "++", .unknown .top '!'] false [], .unknown .top ';'] ∧
      group (.nested 1 0) out = .ok out := by
  have h : group .top [.unknown .top 'a', .word .top "b c", .unknown .top '+', .unknown .top '=',
        .unknown .top '(', .operator .top "++", .unknown .top '!', .unknown .top ')', .unknown .top ' ',
        .unknown .top ';'] = .ok [.word .top "a", .word .top "b c", .operator .top "+=",
        .paren .top [.operator .top "++", .unknown .top '!'] false [], .unknown .top ';'] := by
    rfl
  exact ⟨_, h, rfl, (lexing_idempotent_complete h).2.2 _⟩

end WatScript
