import WatScript.Proofs.CommentRuns

/-!
# Cuts between tokens

A text can be cut into two where a comment may be inserted: outside of quotations and comments, and not
between the characters of one token (`Boundary`). The flattening of the text is then that of its parts
one after the other (`flatten_append_of_spell`), and a comment between the parts is a comment between
their flattenings (`Boundary.inserted`).
-/

namespace WatScript

open List Atom

/-! ## Outside of literals -/

/-- Followed by `post`, the characters are single characters, quotations and comments that are closed.
The run has an atom for each of them. -/
inductive Scans (post : List Char) : List Char → List Atom → Prop
  | nil : Scans post [] []
  | char {c chars raw} : c ≠ '"' →
      opensComment (c :: (chars ++ post)) = false → Scans post chars raw →
      Scans post (c :: chars) (.unknown .top c :: raw)
  | quotation {text quoted chars raw} : Quoted text.toList quoted → Scans post chars raw →
      Scans post ('"' :: (quoted ++ '"' :: chars)) (.literal .top text :: raw)
  | lineComment {text chars raw} : '\n' ∉ text.toList → Scans post chars raw →
      Scans post ('/' :: '/' :: (text.toList ++ '\n' :: chars)) (.comment .top text false :: raw)
  | blockComment {text chars raw} : ¬ ['*', '/'] <:+: text.toList → Scans post chars raw →
      Scans post ('/' :: '*' :: (text.toList ++ '*' :: '/' :: chars)) (.comment .top text true :: raw)

section
variable {pre post post' : List Char} {raw : List Atom}

theorem Scans.literalsOf (h : Scans post pre raw) :
    literalsOf (pre ++ post) = (literalsOf post).map (raw ++ ·) := by
  induction h with
  | nil => cases hp : WatScript.literalsOf post <;> simp [Except.map, hp]
  | char hq hc _ ih =>
    rw [cons_append, literalsOf_cons hq hc, ih, except_map_map]
    rfl
  | quotation hq _ ih =>
    rw [cons_append, append_assoc, cons_append, literalsOf_quoted hq, ih, except_map_map]
    rfl
  | lineComment ht _ ih =>
    rw [cons_append, cons_append, append_assoc, cons_append,
      literalsOf_lineComment ht, ih, except_map_map]
    rfl
  | blockComment ht _ ih =>
    rw [cons_append, cons_append, append_assoc, cons_append, cons_append,
      literalsOf_blockComment ht, ih, except_map_map]
    rfl

theorem scans_plain (hq : '"' ∉ pre) (hs : '/' ∉ pre) : Scans post pre (pre.map (.unknown .top)) := by
  induction pre with
  | nil => exact .nil
  | cons c chars ih =>
    have hqc := ne_of_not_mem_cons hq
    have hsc := ne_of_not_mem_cons hs
    exact .char hqc.symm (opensComment_of_ne hsc.symm _)
      (ih (not_mem_of_not_mem_cons hq) (not_mem_of_not_mem_cons hs))

theorem Scans.change (h : Scans post pre raw) (hpost : ∀ c, post'.head? = some c → c ≠ '/' ∧ c ≠ '*') :
    Scans post' pre raw := by
  induction h with
  | nil => exact .nil
  | @char c chars raw hq hc _ ih =>
    refine .char hq ?_ ih
    cases chars with
    | cons d chars => exact hc
    | nil =>
      cases post' with
      | nil => rfl
      | cons d post' =>
        rw [← Bool.not_eq_true, nil_append, opensComment_cons_cons]
        rintro ⟨-, rfl | rfl⟩
        · exact (hpost _ rfl).1 rfl
        · exact (hpost _ rfl).2 rfl
  | quotation hq _ ih => exact .quotation hq ih
  | lineComment ht _ ih => exact .lineComment ht ih
  | blockComment ht _ ih => exact .blockComment ht ih

theorem Scans.literalsOf_self (h : Scans post pre raw) : WatScript.literalsOf pre = .ok raw := by
  have hend : Scans [] pre raw := h.change (by simp)
  have := hend.literalsOf
  rw [append_nil] at this
  exact this.trans (congrArg Except.ok (append_nil raw))

end

/-! ## Flattening at a cut -/

section
variable {raw raw' : List Atom}

theorem exists_open (held : List Char) : ∀ raw : List Atom,
    ∃ (out : List Atom) (ts : List Token) (stretch : List Char),
      (∀ rest, flatten held (raw ++ rest) = out ++ flatten stretch rest) ∧
      ∀ rest, spell held (raw ++ rest) = ts ++ spell stretch rest := by
  intro raw
  induction raw generalizing held with
  | nil => exact ⟨[], [], held, fun _ => rfl, fun _ => rfl⟩
  | cons a raw ih =>
    cases hs : a.isStretch with
    | true =>
      obtain ⟨out, ts, stretch, hflat, hspell⟩ := ih (a.char :: held)
      refine ⟨out, ts, stretch, fun rest => ?_, fun rest => ?_⟩
      · rw [cons_append, flatten_stretch hs, hflat]
      · rw [cons_append, spell_stretch hs, hspell]
    | false =>
      obtain ⟨us, -, hus⟩ := spell_shown hs
      obtain ⟨out, ts, stretch, hflat, hspell⟩ := ih []
      refine ⟨munched held ++ (a.shown ++ out), munch held.reverse ++ (us ++ ts), stretch,
        fun rest => ?_, fun rest => ?_⟩
      · rw [cons_append, flatten_shown hs, hflat]
        simp
      · rw [cons_append, hus, hspell]
        simp

/-- A run is flattened part by part if it is spelled part by part. -/
theorem flatten_append_of_spell (h : spell [] (raw ++ raw') = spell [] raw ++ spell [] raw') :
    flatten [] (raw ++ raw') = flatten [] raw ++ flatten [] raw' := by
  obtain ⟨out, ts, stretch, hflat, hspell⟩ := exists_open [] raw
  obtain ⟨s, us, out', hspell', hflat', -⟩ := exists_stretch raw'
  have hraw : flatten [] raw = out ++ munched stretch := by
    have := hflat []
    rwa [append_nil, flatten] at this
  have hmunch : munch (stretch.reverse ++ s) = munch stretch.reverse ++ munch s := by
    have hend := hspell []
    rw [append_nil, spell] at hend
    rw [hspell, hspell', hend, hspell', append_assoc, append_cancel_left_eq,
      reverse_nil, nil_append, ← append_assoc] at h
    exact append_cancel_right h
  rw [hflat, hraw, hflat', hflat', hmunch, munched]
  simp

theorem flatten_append_comment (raw raw' : List Atom) (text : String) :
    let run := raw ++ ([.unknown .top ' ', .comment .top text true, .unknown .top ' '] ++ raw')
    flatten [] run = flatten [] raw ++ .comment .top text true :: flatten [] raw' ∧
      spell [] run = spell [] raw ++ spell [] raw' := by
  obtain ⟨out, ts, stretch, hflat, hspell⟩ := exists_open [] raw
  have hraw := hflat []
  have hraw' := hspell []
  rw [append_nil] at hraw hraw'
  intro run
  rw [hflat, hspell, hraw, hraw']
  simp [flatten, spell, flat, spelled, munched, munch, munchFrom, heldWord, inStretch,
    isSpace]

end

/-! ## Slots at a cut -/

theorem munchFrom_ne_nil {skip held} (h : held ≠ []) (cs : List Char) :
    munchFrom skip held cs ≠ [] := by
  have hword : ∀ {held : List Char}, held ≠ [] → heldWord held ≠ [] := by
    intro held h
    cases held with
    | nil => exact absurd rfl h
    | cons c held => simp [heldWord]
  fun_induction munchFrom skip held cs with
  | case1 => exact hword h
  | case2 _ _ _ _ ih => exact ih h
  | case3 | case4 => simp
  | case5 _ _ _ _ ih => exact ih (by simp)

theorem munch_cons_ne_nil (c : Char) (cs : List Char) : munch (c :: cs) ≠ [] := by
  rw [munch]
  cases hc : Operator.isOperatorChar c with
  | true =>
    rw [munchFrom, if_pos hc]
    split <;> simp
  | false =>
    rw [munchFrom_word hc]
    exact munchFrom_ne_nil (by simp) cs

section
variable {pre post : List Char} {raw : List Atom}

theorem endsOpen_munched (held : List Char) : endsOpen false (munched held) = false := by
  cases h : (munched held).getLast? with
  | none => simp [endsOpen, h]
  | some a =>
    obtain ⟨t, ht, rfl⟩ := mem_map.1 (mem_of_getLast? h)
    rcases mem_munch ht with ⟨w, rfl⟩ | ⟨o, rfl⟩ <;> simp [endsOpen, h, Token.atom, opensSlot]

theorem endsOpen_flatten_cons {a} (hs : a.isStretch = false)
    (ha : endsOpen false a.shown = false) (held : List Char) :
    endsOpen false (flatten held (a :: raw)) = endsOpen false (flatten [] raw) := by
  rw [flatten_shown hs, endsOpen_append, endsOpen_munched, endsOpen_append, ha]

theorem Scans.isSpace (h : Scans post pre raw) (hflat : flatten [] raw = []) :
    ∀ c ∈ pre, isSpace c = true := by
  induction h with
  | nil => simp
  | @char c chars raw _ _ _ ih =>
    cases hs : inStretch c with
    | true =>
      obtain ⟨s, ts, out, -, hout, -⟩ := exists_stretch raw
      rw [flatten, if_pos hs, hout, append_eq_nil_iff, map_eq_nil_iff] at hflat
      exact absurd hflat.1 (munch_cons_ne_nil _ _)
    | false =>
      rw [flatten, if_neg (by simp [hs])] at hflat
      split at hflat
      · rename_i hc
        exact forall_mem_cons.2 ⟨hc, ih hflat⟩
      · simp at hflat
  | quotation | lineComment | blockComment => simp [flatten] at hflat

/-- The last of the characters before `post`, apart from white space, begins an argument slot: it is a
comma or an opening bracket of arguments, outside of literals. -/
def SlotBegins (pre post : List Char) : Prop :=
  ∃ (before : List Char) (o : Char) (gap : List Char) (raw : List Atom), pre = before ++ o :: gap ∧
    (∀ c ∈ gap, isSpace c = true) ∧ o ∈ [',', '(', '['] ∧ Scans (o :: (gap ++ post)) before raw

/-- The first of the characters, apart from white space, is a closing bracket of arguments. -/
def SlotsEnd (post : List Char) : Prop :=
  ∃ (gap : List Char) (c : Char) (after : List Char), post = gap ++ c :: after ∧
    (∀ d ∈ gap, isSpace d = true) ∧ c ∈ [')', ']']

theorem Scans.endsOpen (h : Scans post pre raw) : ∀ {held},
    endsOpen false (flatten held raw) = true → SlotBegins pre post := by
  induction h with
  | nil =>
    intro held he
    rw [flatten, endsOpen_munched] at he
    cases he
  | @char c chars raw hq hc h ih =>
    intro held he
    have hlater {held : List Char} (he : WatScript.endsOpen false (flatten held raw) = true) :
        SlotBegins (c :: chars) post := by
      obtain ⟨before, o, gap, raw', rfl, hgap, ho, hb⟩ := ih he
      refine ⟨c :: before, o, gap, _, rfl, hgap, ho, .char hq ?_ hb⟩
      rw [← hc, append_assoc]
      rfl
    cases hs : (Atom.unknown .top c).isStretch with
    | true =>
      rw [flatten_stretch hs] at he
      exact hlater he
    | false =>
      rw [flatten_shown hs, endsOpen_append, endsOpen_munched, endsOpen_append, shown] at he
      split at he
      · exact hlater he
      · -- the last token that is left is this character, or it stands further behind
        cases hflat : flatten [] raw with
        | nil =>
          have ho : c ∈ [',', '(', '['] := by
            simpa [hflat, WatScript.endsOpen, opensSlot, or_assoc] using he
          exact ⟨[], c, chars, [], rfl, h.isSpace hflat, ho, .nil⟩
        | cons a rest =>
          refine @hlater [] ?_
          rwa [hflat, endsOpen_cons] at he ⊢
  | quotation hq _ ih =>
    intro held he
    rw [endsOpen_flatten_cons rfl rfl] at he
    obtain ⟨before, o, gap, raw', rfl, hgap, ho, hb⟩ := ih he
    exact ⟨_, o, gap, _, by simp, hgap, ho, .quotation hq hb⟩
  | lineComment ht _ ih =>
    intro held he
    rw [endsOpen_flatten_cons rfl rfl] at he
    obtain ⟨before, o, gap, raw', rfl, hgap, ho, hb⟩ := ih he
    exact ⟨_, o, gap, _, by simp, hgap, ho, .lineComment ht hb⟩
  | blockComment ht _ ih =>
    intro held he
    rw [endsOpen_flatten_cons rfl rfl] at he
    obtain ⟨before, o, gap, raw', rfl, hgap, ho, hb⟩ := ih he
    exact ⟨_, o, gap, _, by simp, hgap, ho, .blockComment ht hb⟩

theorem startsClosed_literalsOf : ∀ {post raw},
    literalsOf post = .ok raw → startsClosed false (flatten [] raw) = true → SlotsEnd post
  | [], raw, h, he => by
    cases h
    cases he
  | c :: post, raw, h, he => by
    rcases literalsOf_cons_ok h with ⟨raw, rfl, hraw⟩ | hraw
    · cases hs : (Atom.unknown .top c).isStretch with
      | true =>
        obtain ⟨s, ts, out, -, hout, -⟩ := exists_stretch raw
        obtain ⟨t, us, hus⟩ := exists_cons_of_ne_nil (munch_cons_ne_nil c s)
        have ht : t ∈ munch (c :: s) := hus ▸ mem_cons_self
        rw [flatten_stretch hs, hout, char, reverse_singleton, singleton_append,
          hus] at he
        rcases mem_munch ht with ⟨w, rfl⟩ | ⟨o, rfl⟩ <;> cases he
      | false =>
        rw [flatten_shown hs, munched_nil, nil_append, shown] at he
        split at he
        · rename_i hc
          obtain ⟨gap, o, after, rfl, hgap, ho⟩ := startsClosed_literalsOf hraw he
          exact ⟨c :: gap, o, after, rfl, forall_mem_cons.2 ⟨hc, hgap⟩, ho⟩
        · exact ⟨[], c, post, rfl, by simp, by simpa [startsClosed, closesSlots] using he⟩
    · cases raw with
      | nil => cases he
      | cons a rest =>
        cases a with
        | unknown l d => exact absurd rfl (hraw l d rest)
        | _ =>
          rw [flatten_shown rfl] at he
          cases he

end

/-! ## Inserting a comment -/

/-- A text may be cut here: outside of quotations and comments, and not within a token. -/
structure Boundary (pre post : Text) : Prop where
  outside : ∃ raw, Scans post.toChars pre.toChars raw
  tokens : lexemes (pre ++ post) = lexemes pre ++ lexemes post

/-- The cut is in the last of some argument slots, and nothing else is in it. -/
def InEmptySlot (pre post : Text) : Prop := SlotBegins pre.toChars post.toChars ∧ SlotsEnd post.toChars

/-- A block comment with a space on each side. -/
def spacedComment (comment : Text) : Text := .ofString " /*" ++ comment ++ .ofString "*/ "

section
variable {pre post comment : Text} {raw : List Atom}

theorem toChars_append (text text' : Text) :
    Text.toChars (text ++ text') = text.toChars ++ text'.toChars :=
  map_append

theorem scans_spacedComment (h : ¬ ['*', '/'] <:+: comment.toChars) (post : List Char) :
    Scans post (spacedComment comment).toChars [.unknown .top ' ',
      .comment .top (.ofList comment.toChars) true, .unknown .top ' '] := by
  have hchars : (spacedComment comment).toChars =
      ' ' :: '/' :: '*' :: ((String.ofList comment.toChars).toList ++ '*' :: '/' :: [' ']) := by
    rw [spacedComment, toChars_append, toChars_append, String.toList_ofList]
    rfl
  rw [hchars]
  have hend : Scans post [' '] [.unknown .top ' '] :=
    .char (by decide) (opensComment_of_ne (by decide) _) .nil
  refine .char (by decide) rfl (.blockComment ?_ hend)
  rwa [String.toList_ofList]

/-- A comment at a cut is a comment between the flattenings of the parts, and adds no tokens. -/
theorem Boundary.inserted (h : Boundary pre post) (hcomment : ¬ ['*', '/'] <:+: comment.toChars)
    (hslot : ¬ InEmptySlot pre post)
    (hraw : extractLiterals .top (explode .top (pre ++ post)) = .ok raw) :
    ∃ raw', extractLiterals .top (explode .top (pre ++ (spacedComment comment ++ post))) = .ok raw' ∧
      spell [] raw' = spell [] raw ∧
      Inserted (.comment .top (.ofList comment.toChars) true) .brace (flatten [] raw)
        (flatten [] raw') := by
  obtain ⟨raw₁, hpre⟩ := h.outside
  have hins := scans_spacedComment hcomment post.toChars
  -- a space follows `pre` once the comment is inserted, and no comment begins with a space
  have hpre' : Scans ((spacedComment comment).toChars ++ post.toChars) pre.toChars raw₁ :=
    hpre.change (by rintro c ⟨⟩; decide)
  have hboth : literalsOf (pre.toChars ++ post.toChars) = .ok raw := by
    rwa [← toChars_append]
  rw [hpre.literalsOf] at hboth
  obtain ⟨raw₂, hpost, rfl⟩ := map_ok hboth
  have hpre₀ := hpre.literalsOf_self
  have hspell : spell [] (raw₁ ++ raw₂) = spell [] raw₁ ++ spell [] raw₂ := by
    rw [spell_extractLiterals hraw, h.tokens, ← spell_extractLiterals hpre₀,
      ← spell_extractLiterals hpost]
  obtain ⟨hflat', hspell'⟩ := flatten_append_comment raw₁ raw₂ (.ofList comment.toChars)
  refine ⟨_, ?_, hspell'.trans hspell.symm, ?_⟩
  · show literalsOf _ = _
    rw [toChars_append, toChars_append, hpre'.literalsOf, hins.literalsOf, hpost]
    rfl
  · rw [hflat', flatten_append_of_spell hspell]
    refine .here ?_
    rw [← Bool.not_eq_true, Bool.and_eq_true]
    rintro ⟨hopen, hclose⟩
    exact hslot ⟨hpre.endsOpen hopen, startsClosed_literalsOf hpost hclose⟩

end

end WatScript
