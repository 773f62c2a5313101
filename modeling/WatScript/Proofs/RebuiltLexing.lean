import WatScript.Proofs.Outcomes

/-!
# Lexing a run again

A lexing pass cuts a run into pieces, and it looks at nothing but the faces of the atoms (`IsCut`). So a
run that is rebuilt from what an attempt left is cut like the run that the attempt had, and the tokens of
the one are rebuilt from those of the other (`cutPasses_rebuilt`). In the other direction, the outcomes of
tokens are carried back to outcomes of the atoms of the run (`fits_restoreCuts`).
-/

namespace WatScript

open List

variable {lv : Level} {pieces : List Piece} {run run' : List Atom}

/-! ## Pieces -/

/-- Pieces that are cut in the same way. -/
inductive Piece.Like : Piece → Piece → Prop
  | kept {a b : Atom} : Like (.kept a) (.kept b)
  | dropped {a b : Atom} : Like (.dropped a) (.dropped b)
  | made {stretch stretch' : List Atom} {a : Atom} : a.isLeaf = true →
      stretch'.length = stretch.length → Like (.made stretch a) (.made stretch' a)
  | wrapped {opener opener' closer closer' : Atom} {pair : Bracket} {lv : Level}
      {raw raw' : List Atom} : raw'.length = raw.length →
      Like (.wrapped opener closer (pair.atom lv raw)) (.wrapped opener' closer' (pair.atom lv raw'))

/-- A pass that cuts runs into stretches, and that sees the faces of their atoms only. -/
structure IsCut (cut : List Atom → Except ReadFault (List Piece)) : Prop where
  stretches : ∀ {run : List Atom} {pieces : List Piece}, cut run = .ok pieces →
    pieces.flatMap Piece.stretch = run
  like : ∀ {run run'}, SameFaces run' run →
    Agree (fun _ => True) (Forall₂ Piece.Like) (cut run) (cut run')

@[simp] theorem Bracket.isUnreadBracket_atom (pair : Bracket) (lv : Level) (raw : List Atom) :
    (pair.atom lv raw).isUnreadBracket = true := by
  cases pair <;> rfl

@[simp] theorem Bracket.withRaw_atom (pair : Bracket) (lv : Level) (raw raw' : List Atom) :
    (pair.atom lv raw).withRaw raw' = pair.atom lv raw' := by
  cases pair <;> rfl

section
variable {run run' : List Atom} {pieces pieces' : List Piece} {os : List Outcome}

theorem fits_restorePieces (h : Forall₂ Fits (atomsOf pieces) os) :
    Forall₂ Fits (pieces.flatMap Piece.stretch) (restorePieces pieces os) := by
  induction pieces generalizing os with
  | nil => exact .nil
  | cons p pieces ih =>
    rw [flatMap_cons]
    cases p with
    | kept a =>
      cases h with
      | cons ha h => exact .cons ha (ih h)
    | dropped a =>
      rw [restorePieces]
      exact .cons (fits_untouched a) (ih h)
    | made stretch a =>
      cases h with
      | cons ha h => exact rel_append (fits_untouchedRun stretch) (ih h)
    | wrapped opener closer a =>
      cases h with
      | cons ha h =>
        rw [restorePieces, Piece.stretch]
        simp only [cons_append, append_assoc, nil_append]
        refine .cons (fits_untouched opener) (rel_append ha.run ?_)
        exact .cons (fits_untouched closer) (ih h)

theorem rebuilt_atomsOf (hlike : Forall₂ Piece.Like pieces pieces')
    (hfits : Forall₂ Fits (atomsOf pieces) os)
    (h : Forall₃ Rebuilt (pieces.flatMap Piece.stretch) (restorePieces pieces os)
      (pieces'.flatMap Piece.stretch))
    (hl : SameLevels (pieces'.flatMap Piece.stretch) (pieces.flatMap Piece.stretch)) :
    Forall₃ Rebuilt (atomsOf pieces) os (atomsOf pieces') ∧
      SameLevels (atomsOf pieces') (atomsOf pieces) := by
  induction hlike generalizing os with
  | nil =>
    cases hfits
    exact ⟨.nil, rfl⟩
  | cons hp _ ih =>
    rw [flatMap_cons, flatMap_cons] at h hl
    cases hp with
    | kept =>
      cases hfits with
      | cons ha hfits =>
        cases h with
        | cons hr h =>
          obtain ⟨hlevel, hl⟩ := sameLevels_cons.1 hl
          obtain ⟨hrest, hlrest⟩ := ih hfits h hl
          exact ⟨.cons hr hrest, sameLevels_cons.2 ⟨hlevel, hlrest⟩⟩
    | dropped =>
      rw [restorePieces] at h
      cases h with
      | cons _ h => exact ih hfits h (sameLevels_cons.1 hl).2
    | made ha hlen =>
      cases hfits with
      | cons hfit hfits =>
        obtain ⟨-, hrest⟩ := h.of_append_of_length (by simp) hlen
        obtain ⟨hrest, hlrest⟩ := ih hfits hrest ((SameLevels.append_iff hlen).1 hl).2
        exact ⟨.cons (hfit.rebuilt_leaf ha) hrest, sameLevels_cons.2 ⟨rfl, hlrest⟩⟩
    | @wrapped _ _ _ _ pair lv raw raw' hlen =>
      cases hfits with
      | cons ha hfits =>
        -- the group stands between its opener and its closer
        have hrun := ha.run.length_eq
        simp only [restorePieces, Piece.stretch, Bracket.raw_atom, cons_append,
          append_assoc, nil_append] at h hl hrun
        cases h with
        | cons _ h =>
          obtain ⟨hraw, h⟩ := h.of_append_of_length hrun hlen
          cases h with
          | cons _ h =>
            obtain ⟨hlraw, hl⟩ := (SameLevels.append_iff hlen).1 (sameLevels_cons.1 hl).2
            obtain ⟨hrest, hlrest⟩ := ih hfits h (sameLevels_cons.1 hl).2
            refine ⟨.cons ?_ hrest, sameLevels_cons.2 ⟨by simp, hlrest⟩⟩
            rw [← Bracket.withRaw_atom pair lv raw raw']
            refine .of_run ha (Atom.parts_of_isUnreadBracket (by simp)) ?_ (.inl ?_)
            · simpa using hraw
            · simpa using hlraw

end

namespace IsCut
variable {cut : List Atom → Except ReadFault (List Piece)} {run run' : List Atom}
  {pieces : List Piece} {os : List Outcome}

theorem fits (hcut : IsCut cut) (h : cut run = .ok pieces)
    (hfits : Forall₂ Fits (atomsOf pieces) os) : Forall₂ Fits run (restorePieces pieces os) := by
  rw [← hcut.stretches h]
  exact fits_restorePieces hfits

theorem rebuilt (hcut : IsCut cut) (h : cut run = .ok pieces)
    (hfits : Forall₂ Fits (atomsOf pieces) os)
    (hr : Forall₃ Rebuilt run (restorePieces pieces os) run') (hl : SameLevels run' run) :
    ∃ pieces', cut run' = .ok pieces' ∧ Forall₃ Rebuilt (atomsOf pieces) os (atomsOf pieces') ∧
      SameLevels (atomsOf pieces') (atomsOf pieces) := by
  have hagree := hcut.like (Rebuilt.sameFaces hr)
  rw [h] at hagree
  obtain ⟨pieces', h', hlike⟩ := hagree.exists_ok
  rw [← hcut.stretches h, ← hcut.stretches h'] at hr hl
  exact ⟨pieces', h', rebuilt_atomsOf hlike hfits hr hl⟩

end IsCut

/-! ## Brackets -/

theorem stretches_scanBrackets {pair g} (h : scanBrackets pair lv g run = .ok pieces) :
    pieces.flatMap Piece.stretch = OpenGroup.before g run := by
  fun_induction scanBrackets pair lv g run generalizing pieces with
  | case1 =>
    cases h
    rfl
  | case2 | case4 => cases h
  | case3 l c rest _ ih => exact ih h
  | case5 l c rest _ _ ih | case10 a rest _ ih =>
    obtain ⟨ps, hps, h⟩ := bind_ok h
    cases h
    rw [flatMap_cons, ih hps]
    rfl
  | case6 g l c rest _ ih | case8 g l c rest _ _ n _ ih | case9 g l c rest _ _ ih
  | case11 g a rest _ ih => exact (ih h).trans (OpenGroup.before_held ..)
  | case7 g l c rest _ _ _ ih =>
    obtain ⟨ps, hps, h⟩ := bind_ok h
    cases h
    rw [flatMap_cons, ih hps]
    simp [OpenGroup.before, Piece.stretch]

/-- Open groups that hold as much. -/
inductive OpenGroup.Like : Option OpenGroup → Option OpenGroup → Prop
  | closed : Like none none
  | opened {opener opener' inner held held'} :
      held'.length = held.length → Like (some ⟨opener, inner, held⟩) (some ⟨opener', inner, held'⟩)

theorem Bracket.marks_of_face {a b} (h : b.face = a.face) (pair : Bracket) :
    pair.marks b = pair.marks a :=
  Atom.eq_of_face (fun c => by cases c <;> rfl) h

theorem Bracket.of_marks {pair : Bracket} {a : Atom} (h : pair.marks a = true) :
    ∃ l, a = .unknown l pair.opener ∨ a = .unknown l pair.closer := by
  cases a with
  | unknown l c =>
    have hc : c = pair.opener ∨ c = pair.closer := by simpa [Bracket.marks, Bracket.has] using h
    rcases hc with rfl | rfl
    · exact ⟨l, .inl rfl⟩
    · exact ⟨l, .inr rfl⟩
  | _ => cases h

theorem like_scanBrackets (pair : Bracket) (lv : Level)
    (hrun : SameFaces run' run) {g g' : Option OpenGroup} (hg : OpenGroup.Like g g') :
    Agree (fun _ => True) (Forall₂ Piece.Like) (scanBrackets pair lv g run)
      (scanBrackets pair lv g' run') := by
  induction run generalizing run' g g' with
  | nil =>
    cases length_eq_zero_iff.1 hrun.length_eq
    cases hg with
    | closed =>
      rw [scanBrackets]
      exact .ok .nil
    | opened =>
      rw [scanBrackets, scanBrackets]
      exact .error trivial
  | cons a run ih =>
    cases run' with
    | nil => cases hrun.length_eq
    | cons b run' =>
      obtain ⟨hface, hrest⟩ := sameFaces_cons.1 hrun
      cases ha : pair.marks a with
      | false =>
        have hb : pair.marks b = false := by rw [Bracket.marks_of_face hface, ha]
        cases hg with
        | closed =>
          rw [scanBrackets_none_cons ha, scanBrackets_none_cons hb]
          exact (ih hrest .closed).map fun _ _ h => .cons .kept h
        | opened hlen =>
          rw [scanBrackets_some_cons ha, scanBrackets_some_cons hb]
          exact ih hrest (.opened (by simp [hlen]))
      | true =>
        obtain ⟨l, rfl | rfl⟩ := Bracket.of_marks ha
        · obtain ⟨l', rfl⟩ := Atom.of_face_unknown hface
          cases hg with
          | closed =>
            rw [scanBrackets_none_opener, scanBrackets_none_opener]
            exact ih hrest (.opened rfl)
          | opened hlen =>
            rw [scanBrackets_some_opener, scanBrackets_some_opener]
            exact ih hrest (.opened (by simp [hlen]))
        · obtain ⟨l', rfl⟩ := Atom.of_face_unknown hface
          cases hg with
          | closed =>
            rw [scanBrackets_none_closer, scanBrackets_none_closer]
            exact .error trivial
          | @opened _ _ inner _ _ hlen =>
            cases inner with
            | zero =>
              rw [scanBrackets_closer_outer, scanBrackets_closer_outer]
              exact (ih hrest .closed).map fun _ _ h => .cons (.wrapped (by simp [hlen])) h
            | succ n =>
              rw [scanBrackets_closer_inner, scanBrackets_closer_inner]
              exact ih hrest (.opened (by simp [hlen]))

theorem isCut_brackets (pair : Bracket) (lv : Level) : IsCut (cutBrackets pair lv) where
  stretches := stretches_scanBrackets
  like h := like_scanBrackets pair lv h .closed

/-! ## Words -/

theorem Operator.length_pos_of_match? {cs o} (h : Operator.match? cs = some o) : 0 < o.length := by
  have hall : ∀ o ∈ Operator.lexemes, 0 < o.length := by decide
  exact hall o (mem_of_find?_eq_some h)

theorem take_append_drop_match {m rest o} (h : Operator.match? ((m :: rest).map Mark.c) = some o) :
    (m :: rest).take o.length ++ rest.drop (o.length - 1) = m :: rest := by
  obtain ⟨n, hn⟩ := Nat.exists_eq_add_of_lt (Operator.length_pos_of_match? h)
  rw [hn, Nat.zero_add, take_succ_cons, Nat.add_sub_cancel, cons_append,
    take_append_drop]

theorem stretches_cutOperators {skip ms} (h : cutOperators lv skip ms = .ok pieces) :
    pieces.flatMap Piece.stretch = (ms.drop skip).map Mark.atom := by
  fun_induction cutOperators lv skip ms generalizing pieces with
  | case1 =>
    cases h
    rw [drop_nil]
    rfl
  | case2 skip m rest ih => exact ih h
  | case3 => cases h
  | case4 m rest o ho ih =>
    obtain ⟨ps, hps, h⟩ := bind_ok h
    cases h
    rw [flatMap_cons, ih hps, drop_zero, Piece.stretch, ← map_append,
      take_append_drop_match ho]

theorem flatMap_splitMarks (isOpen : Option (Bool × List Mark)) (ms : List Mark) :
    (splitMarks isOpen ms).flatMap Prod.snd = (isOpen.toList.flatMap fun p => p.2.reverse) ++ ms := by
  fun_induction splitMarks isOpen ms with
  | case1 => rfl
  | case2 isOp held => simp
  | case3 m rest ih => simp [ih]
  | case4 isOp held m rest _ ih => simp [ih]
  | case5 isOp held m rest _ ih => simp [ih]

theorem stretches_cutStretch {p}
    (h : cutStretch lv p = .ok pieces) : pieces.flatMap Piece.stretch = p.2.map Mark.atom := by
  obtain ⟨isOp, ms⟩ := p
  cases isOp with
  | true => exact stretches_cutOperators h
  | false =>
    cases h
    exact append_nil _

theorem stretches_mapM {stretches : List (Bool × List Mark)} {pss : List (List Piece)}
    (h : stretches.mapM (cutStretch lv) = .ok pss) :
    pss.flatten.flatMap Piece.stretch = (stretches.flatMap Prod.snd).map Mark.atom := by
  induction stretches generalizing pss with
  | nil =>
    cases h
    rfl
  | cons p stretches ih =>
    obtain ⟨ps, pss, hps, hrest, rfl⟩ := mapM_cons_ok h
    rw [flatten_cons, flatMap_append, stretches_cutStretch hps, ih hrest, flatMap_cons, map_append]

theorem stretches_cutWord {ms : List Mark}
    (h : cutWord lv ms = .ok pieces) : pieces.flatMap Piece.stretch = ms.map Mark.atom := by
  obtain ⟨pss, hpss, hflat⟩ := bind_ok h
  cases hflat
  rw [stretches_mapM hpss, flatMap_splitMarks]
  rfl

theorem stretches_scanWords {held} (h : scanWords lv held run = .ok pieces) :
    pieces.flatMap Piece.stretch = held.reverse.map Mark.atom ++ run := by
  fun_induction scanWords lv held run generalizing pieces with
  | case1 held => rw [stretches_cutWord h, append_nil]
  | case2 held l c rest _ ih | case3 held l c rest _ _ ih | case5 held a rest _ ih =>
    obtain ⟨word, hw, h⟩ := bind_ok h
    obtain ⟨ps, hps, h⟩ := bind_ok h
    cases h
    rw [flatMap_append, stretches_cutWord hw, flatMap_cons, ih hps]
    rfl
  | case4 held l c rest _ _ ih =>
    rw [ih h, reverse_cons, map_append, append_assoc]
    rfl

/-- The marks have the same characters. -/
def SameText (ms ms' : List Mark) : Prop := ms.map Mark.c = ms'.map Mark.c

section
variable {ms ms' : List Mark}

@[simp] theorem sameText_cons {m m'} :
    SameText (m :: ms) (m' :: ms') ↔ m.c = m'.c ∧ SameText ms ms' := by
  simp [SameText]

theorem SameText.length_eq (h : SameText ms ms') : ms.length = ms'.length := by
  simpa using congrArg List.length h

theorem SameText.reverse (h : SameText ms ms') : SameText ms.reverse ms'.reverse := by
  unfold SameText at *
  rw [map_reverse, h, map_reverse]

theorem like_cutOperators (lv : Level) (skip : Nat) (h : SameText ms' ms) :
    Agree (fun _ => True) (Forall₂ Piece.Like) (cutOperators lv skip ms)
      (cutOperators lv skip ms') := by
  induction ms generalizing ms' skip with
  | nil =>
    cases length_eq_zero_iff.1 h.length_eq
    rw [cutOperators]
    exact .ok .nil
  | cons m ms ih =>
    cases ms' with
    | nil => cases h.length_eq
    | cons m' ms' =>
      have hrest := (sameText_cons.1 h).2
      cases skip with
      | succ skip => exact ih skip hrest
      | zero =>
        rw [cutOperators, cutOperators, show (m' :: ms').map Mark.c = (m :: ms).map Mark.c from h]
        cases Operator.match? ((m :: ms).map Mark.c) with
        | none => exact .error trivial
        | some o =>
          refine (ih _ hrest).bind fun ps ps' hps => .ok (.cons (.made rfl ?_) hps)
          simp [hrest.length_eq]

theorem like_splitMarks {isOpen isOpen'} (h : SameText ms' ms)
    (ho : Option.Rel (fun p p' => p'.1 = p.1 ∧ SameText p'.2 p.2) isOpen isOpen') :
    Forall₂ (fun p p' => p'.1 = p.1 ∧ SameText p'.2 p.2) (splitMarks isOpen ms)
      (splitMarks isOpen' ms') := by
  induction ms generalizing ms' isOpen isOpen' with
  | nil =>
    cases length_eq_zero_iff.1 h.length_eq
    cases ho with
    | none => exact .nil
    | some hp =>
      rw [splitMarks, splitMarks]
      exact .cons ⟨hp.1, hp.2.reverse⟩ .nil
  | cons m ms ih =>
    cases ms' with
    | nil => cases h.length_eq
    | cons m' ms' =>
      obtain ⟨hm, h⟩ := sameText_cons.1 h
      have hone : SameText [m'] [m] := sameText_cons.2 ⟨hm, rfl⟩
      cases ho with
      | none =>
        rw [splitMarks, splitMarks, hm]
        exact ih h (.some ⟨rfl, hone⟩)
      | @some p p' hp =>
        obtain ⟨isOp, held⟩ := p
        obtain ⟨isOp', held'⟩ := p'
        obtain ⟨rfl, hheld⟩ := hp
        rw [splitMarks, splitMarks, hm]
        split
        · exact ih h (.some ⟨rfl, sameText_cons.2 ⟨hm, hheld⟩⟩)
        · exact .cons ⟨rfl, hheld.reverse⟩ (ih h (.some ⟨rfl, hone⟩))

theorem like_cutStretch (lv : Level) (isOp : Bool) (h : SameText ms' ms) :
    Agree (fun _ => True) (Forall₂ Piece.Like) (cutStretch lv (isOp, ms))
      (cutStretch lv (isOp, ms')) := by
  cases isOp with
  | true => exact like_cutOperators lv 0 h
  | false =>
    rw [cutStretch, cutStretch, markText, markText, h]
    exact .ok (.cons (.made rfl (by simp [h.length_eq])) .nil)

theorem forall₂_flatten {α β : Type} {R : α → β → Prop} {xss : List (List α)} {yss : List (List β)}
    (h : Forall₂ (Forall₂ R) xss yss) : Forall₂ R xss.flatten yss.flatten := by
  induction h with
  | nil => exact .nil
  | cons hx _ ih => exact rel_append hx ih

theorem like_cutWord (lv : Level) (h : SameText ms' ms) :
    Agree (fun _ => True) (Forall₂ Piece.Like) (cutWord lv ms) (cutWord lv ms') := by
  have hsplit := @like_splitMarks _ _ none none h .none
  refine (Agree.mapM hsplit ?_).bind fun pss pss' hpss => .ok (forall₂_flatten hpss)
  rintro ⟨isOp, held⟩ - ⟨isOp', held'⟩ - ⟨rfl, hheld⟩
  exact like_cutStretch lv _ hheld

theorem like_scanWords (lv : Level) {held held' : List Mark}
    (hheld : SameText held' held) (hrun : SameFaces run' run) :
    Agree (fun _ => True) (Forall₂ Piece.Like) (scanWords lv held run)
      (scanWords lv held' run') := by
  induction run generalizing held held' run' with
  | nil =>
    cases length_eq_zero_iff.1 hrun.length_eq
    rw [scanWords, scanWords]
    exact like_cutWord lv hheld.reverse
  | cons a run ih =>
    cases run' with
    | nil => cases hrun.length_eq
    | cons b run' =>
      obtain ⟨hface, hrest⟩ := sameFaces_cons.1 hrun
      -- a word that ends here, the atom that ends it, and the rest
      have hword : ∀ {p p' : Piece}, p.Like p' → Agree (fun _ => True) (Forall₂ Piece.Like)
          (do let word ← cutWord lv held.reverse; let ps ← scanWords lv [] run; return word ++ p :: ps)
          (do let word ← cutWord lv held'.reverse; let ps ← scanWords lv [] run'; return word ++ p' :: ps) :=
        fun hp => (like_cutWord lv hheld.reverse).bind fun _ _ hw =>
          (ih rfl hrest).bind fun _ _ hps => .ok (rel_append hw (.cons hp hps))
      by_cases ha : ∃ l c, a = .unknown l c
      · obtain ⟨l, c, rfl⟩ := ha
        obtain ⟨l', rfl⟩ := Atom.of_face_unknown hface
        rw [scanWords, scanWords]
        split
        · exact hword .dropped
        · split
          · exact hword .kept
          · exact ih (sameText_cons.2 ⟨rfl, hheld⟩) hrest
      · have hb : ∀ l c, b ≠ .unknown l c := by
          rintro l c rfl
          obtain ⟨l', rfl⟩ := Atom.of_face_unknown hface.symm
          exact ha ⟨l', c, rfl⟩
        rw [scanWords, scanWords]
        · exact hword .kept
        · exact hb
        · exact fun l c h => ha ⟨l, c, h⟩

end

theorem isCut_words (lv : Level) : IsCut (cutWords lv) where
  stretches := stretches_scanWords
  like h := like_scanWords lv rfl h

/-! ## All passes -/

theorem opensLiteral_of_sameFaces (h : SameFaces run' run)
    (hopens : opensLiteral run = true) : opensLiteral run' = true := by
  have hcons : ∀ {l : Level} {c : Char} {rest run' : List Atom},
      SameFaces run' (.unknown l c :: rest) → ∃ l' rest', run' = .unknown l' c :: rest' ∧
        SameFaces rest' rest := by
    intro l c rest run' h
    cases run' with
    | nil => cases h.length_eq
    | cons b run' =>
      obtain ⟨hface, hrest⟩ := sameFaces_cons.1 h
      obtain ⟨l', rfl⟩ := Atom.of_face_unknown hface
      exact ⟨l', run', rfl, hrest⟩
  obtain ⟨l, rest, rfl⟩ | ⟨l, l', c, rest, hc, rfl⟩ := opensLiteral_inv hopens
  · obtain ⟨l, rest, rfl, -⟩ := hcons h
    rfl
  · obtain ⟨l, rest, rfl, hrest⟩ := hcons h
    obtain ⟨l', rest, rfl, -⟩ := hcons hrest
    rcases hc with rfl | rfl <;> rfl

theorem LiteralFree.of_sameFaces (h : SameFaces run' run)
    (hfree : LiteralFree run) : LiteralFree run' := by
  induction h using SameFaces.induction with
  | nil => trivial
  | cons hb h ih =>
    refine ⟨?_, ih hfree.2⟩
    by_contra hopens
    have := opensLiteral_of_sameFaces (sameFaces_cons.2 ⟨hb.symm, h.symm⟩) (Bool.not_eq_false _ ▸ hopens)
    exact Bool.false_ne_true (hfree.1.symm.trans this)

/-- The passes over a run without literals. -/
structure CutInto (lv : Level) (run : List Atom) (ps₁ ps₂ ps₃ ps₄ : List Piece) : Prop where
  braces : cutBrackets .brace lv run = .ok ps₁
  squares : cutBrackets .square lv (atomsOf ps₁) = .ok ps₂
  rounds : cutBrackets .round lv (atomsOf ps₂) = .ok ps₃
  words : cutWords lv (atomsOf ps₃) = .ok ps₄

section
variable {lv : Level} {run run' : List Atom} {cuts : List (List Piece)} {os : List Outcome}

theorem cutPasses_eq_ok_iff (hfree : LiteralFree run) : cutPasses lv run = .ok cuts ↔
    ∃ braces squares rounds words, CutInto lv run braces squares rounds words ∧
      cuts = [run.map .kept, braces, squares, rounds, words] := by
  rw [cutPasses, cutLiterals, scanLiterals_of_literalFree lv [] [] hfree]
  constructor
  · intro h
    obtain ⟨_, heq, h⟩ := bind_ok h
    cases heq
    rw [atomsOf_map_kept] at h
    obtain ⟨braces, hbraces, h⟩ := bind_ok h
    obtain ⟨squares, hsquares, h⟩ := bind_ok h
    obtain ⟨rounds, hrounds, h⟩ := bind_ok h
    obtain ⟨words, hwords, h⟩ := bind_ok h
    cases h
    exact ⟨braces, squares, rounds, words, ⟨hbraces, hsquares, hrounds, hwords⟩, rfl⟩
  · rintro ⟨braces, squares, rounds, words, h, rfl⟩
    simp only [atomsOf_map_kept, bind, Except.bind, h.braces, h.squares, h.rounds, h.words]
    rfl

theorem restorePieces_map_kept (h : run.length = os.length) : restorePieces (run.map .kept) os = os := by
  induction run generalizing os with
  | nil =>
    cases length_eq_zero_iff.1 h.symm
    rfl
  | cons a run ih =>
    cases os with
    | nil => cases h
    | cons o os => rw [map_cons, restorePieces, ih (Nat.succ.inj h)]

/-- Outcomes that fit the tokens are carried back to outcomes that fit the run. -/
theorem fits_restoreCuts (hfree : LiteralFree run) (h : cutPasses lv run = .ok cuts)
    (hfits : Forall₂ Fits (tokensOf cuts) os) : Forall₂ Fits run (restoreCuts cuts os) := by
  obtain ⟨braces, squares, rounds, words, hcut, rfl⟩ := (cutPasses_eq_ok_iff hfree).1 h
  have hwords := (isCut_words lv).fits hcut.words hfits
  have hrounds := (isCut_brackets .round lv).fits hcut.rounds hwords
  have hsquares := (isCut_brackets .square lv).fits hcut.squares hrounds
  have hbraces := (isCut_brackets .brace lv).fits hcut.braces hsquares
  simp only [restoreCuts, foldr_cons, foldr_nil]
  rwa [restorePieces_map_kept hbraces.length_eq]

/-- A run that is rebuilt is cut into tokens that are rebuilt. -/
theorem cutPasses_rebuilt (hfree : LiteralFree run) (h : cutPasses lv run = .ok cuts)
    (hfits : Forall₂ Fits (tokensOf cuts) os)
    (hr : Forall₃ Rebuilt run (restoreCuts cuts os) run') (hl : SameLevels run' run) :
    ∃ cuts', cutPasses lv run' = .ok cuts' ∧ Forall₃ Rebuilt (tokensOf cuts) os (tokensOf cuts') ∧
      SameLevels (tokensOf cuts') (tokensOf cuts) := by
  have hfree' := hfree.of_sameFaces (Rebuilt.sameFaces hr)
  obtain ⟨braces, squares, rounds, words, hcut, rfl⟩ := (cutPasses_eq_ok_iff hfree).1 h
  have hfwords := (isCut_words lv).fits hcut.words hfits
  have hfrounds := (isCut_brackets .round lv).fits hcut.rounds hfwords
  have hfsquares := (isCut_brackets .square lv).fits hcut.squares hfrounds
  have hfbraces := (isCut_brackets .brace lv).fits hcut.braces hfsquares
  simp only [restoreCuts, foldr_cons, foldr_nil] at hr
  rw [restorePieces_map_kept hfbraces.length_eq] at hr
  obtain ⟨braces', hbraces, hr, hl⟩ := (isCut_brackets .brace lv).rebuilt hcut.braces hfsquares hr hl
  obtain ⟨squares', hsquares, hr, hl⟩ :=
    (isCut_brackets .square lv).rebuilt hcut.squares hfrounds hr hl
  obtain ⟨rounds', hrounds, hr, hl⟩ := (isCut_brackets .round lv).rebuilt hcut.rounds hfwords hr hl
  obtain ⟨words', hwords, hr, hl⟩ := (isCut_words lv).rebuilt hcut.words hfits hr hl
  exact ⟨_, (cutPasses_eq_ok_iff hfree').2
    ⟨braces', squares', rounds', words', ⟨hbraces, hsquares, hrounds, hwords⟩, rfl⟩, hr, hl⟩

end

end WatScript
