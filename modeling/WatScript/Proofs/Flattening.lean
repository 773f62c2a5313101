import WatScript.Proofs.Agreement
import WatScript.Proofs.Lexemes

/-!
# Runs lexed in one go

Lexing is lazy: words and operators are found level by level, once the brackets around them have been
grouped. `flatten [] run` finds them all at once. White space is left out, words and operators are
atoms, separators and bracket characters stay where they stand, and what is unread in a bracket is
flattened too. Levels are forgotten.

Grouping brackets and flattening can be done in either order (`flatten_groupPair`), so lexing an unread
run and flattening the result is grouping the brackets of the flattened run (`flatten_group`).
-/

namespace WatScript

open List Operator

/-- The token as an atom outside of all brackets. -/
def Token.atom : Token → Atom
  | .word w => .word .top w
  | .operator o => .operator .top o
  | .literal text => .literal .top text
  | .opening pair => .unknown .top pair.opener
  | .closing pair => .unknown .top pair.closer

/-- The words and operators of a stretch of characters, listed last one first. -/
def munched (held : List Char) : List Atom := (munch held.reverse).map Token.atom

mutual

/-- The atom with the unread runs in it flattened, outside of all brackets. -/
def Atom.flat : Atom → Atom
  | .unknown _ c => .unknown .top c
  | .literal _ text => .literal .top text
  | .comment _ text block => .comment .top text block
  | .word _ w => .word .top w
  | .operator _ o => .operator .top o
  | .block _ raw _ _ => .block .top (flatten [] raw) false []
  | .paren _ raw _ _ => .paren .top (flatten [] raw) false []
  | .list _ raw _ _ => .list .top (flatten [] raw) false []
  | a => a

/-- The run lexed in one go; `held` are the characters of the open stretch, last one first. -/
def flatten : List Char → List Atom → List Atom
  | held, [] => munched held
  | held, .unknown _ c :: rest =>
    if inStretch c then flatten (c :: held) rest
    else if isSpace c then munched held ++ flatten [] rest
    else munched held ++ .unknown .top c :: flatten [] rest
  | held, a :: rest => munched held ++ a.flat :: flatten [] rest

end

/-- The flat atom, unless it is a space. -/
def Atom.shown : Atom → List Atom
  | .unknown _ c => if isSpace c then [] else [.unknown .top c]
  | a => [a.flat]

section
variable {a : Atom} {held : List Char} {rest : List Atom}

theorem flatten_stretch (h : a.isStretch = true) :
    flatten held (a :: rest) = flatten (a.char :: held) rest := by
  cases a with
  | unknown l c =>
    have hc : inStretch c = true := h
    rw [flatten, if_pos hc, Atom.char]
  | _ => cases h

theorem flatten_shown (h : a.isStretch = false) :
    flatten held (a :: rest) = munched held ++ (a.shown ++ flatten [] rest) := by
  cases a with
  | unknown l c =>
    rw [flatten, if_neg (by simpa [Atom.isStretch] using h), Atom.shown]
    split <;> rfl
  | _ => rw [flatten]; rfl; simp

theorem munched_nil : munched [] = [] := rfl

theorem Bracket.flat_atom (pair : Bracket) (lv : Level) (raw : List Atom) :
    (pair.atom lv raw).flat = pair.atom .top (flatten [] raw) := by
  cases pair <;> rfl

theorem Bracket.flatten_atom (pair : Bracket) (lv : Level) (raw : List Atom) :
    flatten held (pair.atom lv raw :: rest) =
      munched held ++ pair.atom .top (flatten [] raw) :: flatten [] rest := by
  rw [flatten_shown (by cases pair <;> rfl), ← Bracket.flat_atom pair lv]
  cases pair <;> rfl

/-! ## Levels -/

theorem Atom.isStretch_relevel (lv : Level) (a : Atom) :
    (a.relevel lv).isStretch = a.isStretch := by
  cases a <;> rfl

theorem Atom.char_relevel (lv : Level) (a : Atom) : (a.relevel lv).char = a.char := by
  cases a <;> rfl

theorem Atom.shown_relevel (lv : Level) {a : Atom} (h : a.isSimple = true) :
    (a.relevel lv).shown = a.shown := by
  cases a <;> first | rfl | cases h

theorem flatten_relevel (lv : Level) : ∀ {run : List Atom} (held : List Char),
    (∀ a ∈ run, a.isSimple = true) → flatten held (relevel lv run) = flatten held run
  | [], _, _ => rfl
  | a :: run, held, h => by
    obtain ⟨ha, hrun⟩ := forall_mem_cons.1 h
    have ih := fun held => flatten_relevel lv held hrun
    have hs := Atom.isStretch_relevel lv a
    rw [relevel, map_cons, ← relevel]
    cases hstretch : a.isStretch with
    | true =>
      rw [flatten_stretch (hs.trans hstretch), flatten_stretch hstretch, ih, Atom.char_relevel]
    | false =>
      rw [flatten_shown (hs.trans hstretch), flatten_shown hstretch, ih, Atom.shown_relevel lv ha]

/-! ## The first stretch -/

theorem exists_stretch (run : List Atom) : ∃ (s : List Char) (ts : List Token) (out : List Atom),
    (∀ held, spell held run = munch (held.reverse ++ s) ++ ts) ∧
    (∀ held, flatten held run = (munch (held.reverse ++ s)).map Token.atom ++ out) ∧
    ∀ c, s.head? = some c → inStretch c = true ∧ ∃ l rest, run = .unknown l c :: rest := by
  induction run with
  | nil => exact ⟨[], [], [], by simp [spell], by simp [flatten, munched], by simp⟩
  | cons a run ih =>
    cases hs : a.isStretch with
    | true =>
      cases a with
      | unknown l c =>
        obtain ⟨s, ts, out, hspell, hflat, -⟩ := ih
        refine ⟨c :: s, ts, out, fun held => ?_, fun held => ?_, fun c' h => ?_⟩
        · rw [spell_stretch hs, hspell]
          simp
        · rw [flatten_stretch hs, hflat]
          simp
        · cases h
          exact ⟨hs, l, run, rfl⟩
      | _ => cases hs
    | false =>
      obtain ⟨ts, -, hts⟩ := spell_shown hs
      refine ⟨[], ts ++ spell [] run, a.shown ++ flatten [] run, fun held => ?_, fun held => ?_,
        by simp⟩
      · rw [hts, append_nil]
      · rw [flatten_shown hs, append_nil, munched]

/-! ## Grouping brackets -/

variable {pair : Bracket} {lv : Level}

theorem marks_munched (pair : Bracket) (held : List Char) :
    ∀ a ∈ munched held, pair.marks a = false := by
  intro a ha
  obtain ⟨t, ht, rfl⟩ := mem_map.1 ha
  rcases mem_munch ht with ⟨w, rfl⟩ | ⟨o, rfl⟩ <;> rfl

theorem marks_shown (h : pair.marks a = false) : ∀ b ∈ a.shown, pair.marks b = false := by
  intro b hb
  cases a with
  | unknown l c =>
    rw [Atom.shown] at hb
    split at hb
    · cases hb
    · obtain rfl := mem_singleton.1 hb
      exact h
  | _ => obtain rfl := mem_singleton.1 hb; rfl

theorem eq_of_marks (h : pair.marks a = true) :
    ∃ l, a = .unknown l pair.opener ∨ a = .unknown l pair.closer := by
  cases a with
  | unknown l c =>
    simp only [Bracket.marks, Bracket.has, Bool.or_eq_true, beq_iff_eq] at h
    rcases h with rfl | rfl
    · exact ⟨l, .inl rfl⟩
    · exact ⟨l, .inr rfl⟩
  | _ => cases h

theorem flatten_opener (l : Level) : flatten held (.unknown l pair.opener :: rest) =
      munched held ++ .unknown .top pair.opener :: flatten [] rest := by
  rw [flatten_shown (by cases pair <;> rfl)]
  cases pair <;> rfl

theorem flatten_closer (l : Level) : flatten held (.unknown l pair.closer :: rest) =
      munched held ++ .unknown .top pair.closer :: flatten [] rest := by
  rw [flatten_shown (by cases pair <;> rfl)]
  cases pair <;> rfl

/-- `held` is flattened to `held'`, except for the characters of a stretch that is still open. Both are
listed last one first. -/
def Held (held held' : List Atom) (stretch : List Char) : Prop :=
  ∀ rest, flatten [] (held.reverse ++ rest) = held'.reverse ++ flatten stretch rest

theorem Held.cons {K K' stretch} (h : Held K K' stretch) (rest : List Atom) :
    flatten [] ((a :: K).reverse ++ rest) = K'.reverse ++ flatten stretch (a :: rest) := by
  rw [reverse_cons, append_assoc]
  exact h (a :: rest)

/-- A pass over the run commutes with flattening, both where no group is open and where one is. -/
structure ScanFlattens (pair : Bracket) (lv : Level) (run : List Atom) : Prop where
  outside : ∀ held, (scanBrackets pair lv none run).map (fun ps => flatten held (atomsOf ps)) =
    (scanBrackets pair .top none (flatten held run)).map atomsOf
  inside : ∀ (held : List Char) (o o' : Atom) (n : Nat) (K K' : List Atom) (stretch : List Char),
    Held K K' stretch →
    (scanBrackets pair lv (some ⟨o, n, K⟩) run).map (fun ps => flatten held (atomsOf ps)) =
      (scanBrackets pair .top (some ⟨o', n, K'⟩) (flatten stretch run)).map
        fun ps => munched held ++ atomsOf ps

theorem scanFlattens_nil (pair : Bracket) (lv : Level) : ScanFlattens pair lv [] where
  outside held := by
    rw [flatten, scanBrackets_of_noMarks pair .top (marks_munched pair held), scanBrackets]
    simp [Except.map, flatten, atomsOf_map_kept]
  inside held o o' n K K' stretch hK := by
    rw [flatten, ← append_nil (munched stretch),
      scanBrackets_some_append (marks_munched pair stretch), scanBrackets, scanBrackets]
    rfl

namespace ScanFlattens
variable (ih : ScanFlattens pair lv rest)
include ih

theorem stretch (hm : pair.marks a = false)
    (hs : a.isStretch = true) : ScanFlattens pair lv (a :: rest) where
  outside held := by
    rw [scanBrackets_none_cons hm, except_map_map, flatten_stretch hs, ← ih.outside]
    simp only [atomsOf_kept, flatten_stretch hs]
  inside held o o' n K K' stretch hK := by
    rw [scanBrackets_some_cons hm, flatten_stretch hs]
    refine ih.inside held o o' n (a :: K) K' _ fun rest => ?_
    rw [hK.cons, flatten_stretch hs]

theorem shown (hm : pair.marks a = false)
    (hs : a.isStretch = false) : ScanFlattens pair lv (a :: rest) where
  outside held := by
    rw [scanBrackets_none_cons hm, except_map_map, flatten_shown hs,
      scanBrackets_none_append (marks_munched pair held), scanBrackets_none_append (marks_shown hm)]
    simp only [except_map_map, atomsOf_append, atomsOf_map_kept, atomsOf_kept, flatten_shown hs]
    rw [← except_map_map _ atomsOf fun out => munched held ++ (a.shown ++ out), ← ih.outside,
      except_map_map]
  inside held o o' n K K' stretch hK := by
    rw [scanBrackets_some_cons hm, flatten_shown hs,
      scanBrackets_some_append (marks_munched pair stretch),
      scanBrackets_some_append (marks_shown hm)]
    refine ih.inside held o o' n (a :: K) _ [] fun rest => ?_
    rw [hK.cons, flatten_shown hs]
    simp

theorem opener (l : Level) :
    ScanFlattens pair lv (.unknown l pair.opener :: rest) where
  outside held := by
    rw [scanBrackets_none_opener, flatten_opener,
      scanBrackets_none_append (marks_munched pair held), scanBrackets_none_opener, except_map_map]
    simp only [atomsOf_append, atomsOf_map_kept]
    exact ih.inside held _ _ 0 [] [] [] fun rest => rfl
  inside held o o' n K K' stretch hK := by
    rw [scanBrackets_some_opener, flatten_opener,
      scanBrackets_some_append (marks_munched pair stretch), scanBrackets_some_opener]
    refine ih.inside held o o' (n + 1) _ _ [] fun rest => ?_
    rw [hK.cons, flatten_opener]
    simp

theorem closer (l : Level) :
    ScanFlattens pair lv (.unknown l pair.closer :: rest) where
  outside held := by
    rw [scanBrackets_none_closer, flatten_closer,
      scanBrackets_none_append (marks_munched pair held), scanBrackets_none_closer]
    rfl
  inside held o o' n K K' stretch hK := by
    rw [flatten_closer, scanBrackets_some_append (marks_munched pair stretch)]
    cases n with
    | succ n =>
      rw [scanBrackets_closer_inner, scanBrackets_closer_inner]
      refine ih.inside held o o' n _ _ [] fun rest => ?_
      rw [hK.cons, flatten_closer]
      simp
    | zero =>
      -- the group is complete, and what it holds is flattened like any other run
      have hraw : flatten [] K.reverse = K'.reverse ++ munched stretch := by
        have := hK []
        rwa [append_nil, flatten] at this
      rw [scanBrackets_closer_outer, scanBrackets_closer_outer]
      simp only [except_map_map, atomsOf_wrapped, Bracket.flatten_atom, hraw,
        reverse_append, reverse_reverse]
      rw [← except_map_map _ atomsOf fun out =>
        munched held ++ pair.atom .top (K'.reverse ++ munched stretch) :: out, ← ih.outside,
        except_map_map]

end ScanFlattens

theorem scanFlattens (pair : Bracket) (lv : Level) (run : List Atom) : ScanFlattens pair lv run := by
  induction run with
  | nil => exact scanFlattens_nil pair lv
  | cons a run ih =>
    cases hm : pair.marks a with
    | false =>
      cases hs : a.isStretch with
      | true => exact ih.stretch hm hs
      | false => exact ih.shown hm hs
    | true =>
      obtain ⟨l, rfl | rfl⟩ := eq_of_marks hm
      · exact ih.opener l
      · exact ih.closer l

/-- Grouping the brackets of one pair commutes with flattening. -/
theorem flatten_groupPair (pair : Bracket) (lv : Level) (run : List Atom) :
    (groupPair pair lv run).map (flatten []) = groupPair pair .top (flatten [] run) := by
  rw [groupPair, except_map_map]
  exact (scanFlattens pair lv run).outside []

theorem flatten_groupBrackets (lv : Level) (run : List Atom) :
    (groupBrackets lv run).map (flatten []) = groupBrackets .top (flatten [] run) := by
  have hpairs : ∀ (pairs : List Bracket) (run : List Atom),
      (pairs.foldlM (fun atoms pair => groupPair pair lv atoms) run).map (flatten []) =
        pairs.foldlM (fun atoms pair => groupPair pair .top atoms) (flatten [] run) := by
    intro pairs
    induction pairs with
    | nil => exact fun run => rfl
    | cons pair pairs ih =>
      intro run
      rw [foldlM_cons, foldlM_cons, ← flatten_groupPair pair lv]
      cases groupPair pair lv run with
      | error f => rfl
      | ok out => exact ih out
  exact hpairs Bracket.all run

end

/-! ## Words and operators -/

theorem Operator.match?_of_find? {c} (h : (Operator.find? (String.singleton c)).isSome)
    (cs : List Char) : match? (c :: cs) ≠ none := by
  obtain ⟨op, hop⟩ := Option.isSome_iff_exists.1 h
  have hlex : op.lexeme = String.singleton c := by simpa using find?_some hop
  intro hnone
  have := find?_eq_none.1 hnone op.lexeme (mem_map_of_mem (mem_of_find?_eq_some hop))
  simp [hlex] at this

section
variable (lv : Level)

theorem cutOperators_of_known {skip ms} (hms : ∀ m ∈ ms, isOperatorChar m.c = true) {r}
    (hr : ∀ c, r.head? = some c → isOperatorChar c = false)
    (h : ∀ o, .operator o ∈ munchFrom skip [] (ms.map Mark.c ++ r) → (Operator.find? o).isSome) :
    ∃ pieces, cutOperators lv skip ms = .ok pieces := by
  fun_induction cutOperators lv skip ms with
  | case1 => exact ⟨_, rfl⟩
  | case2 skip m rest ih => exact ih (forall_mem_cons.1 hms).2 h
  | case3 m rest hnone =>
    have hmatch : match? (m.c :: (rest.map Mark.c ++ r)) = none := by
      rw [← cons_append, match?_append hr]
      exact hnone
    rw [map_cons, cons_append, munchFrom, if_pos (forall_mem_cons.1 hms).1,
      hmatch] at h
    exact absurd hmatch (match?_of_find? (h (String.singleton m.c) (by simp)) _)
  | case4 m rest o ho ih =>
    obtain ⟨hm, hrest⟩ := forall_mem_cons.1 hms
    have hmatch : match? (m.c :: (rest.map Mark.c ++ r)) = some o := by
      rw [← cons_append, match?_append hr]
      exact ho
    rw [map_cons, cons_append, munchFrom, if_pos hm, hmatch] at h
    obtain ⟨pieces, hp⟩ := ih hrest fun o' ho' => h o' (by simp [ho'])
    exact ⟨_, by rw [hp]; rfl⟩

theorem cutStretch_of_known {isOp held} (hheld : ∀ m ∈ held, isOperatorChar m.c = isOp) {r}
    (hr : ∀ c, r.head? = some c → isOperatorChar c = !isOp)
    (h : ∀ o, .operator o ∈ munchOpen (some (isOp, held)) r → (Operator.find? o).isSome) :
    ∃ pieces, cutStretch lv (isOp, held.reverse) = .ok pieces := by
  cases isOp with
  | true => exact cutOperators_of_known lv (fun m hm => hheld m (mem_reverse.1 hm)) hr h
  | false => exact ⟨_, rfl⟩

theorem splitMarks_of_known {isOpen ms}
    (hopen : ∀ p, isOpen = some p → p.2 ≠ [] ∧ ∀ m ∈ p.2, isOperatorChar m.c = p.1)
    (h : ∀ o, .operator o ∈ munchOpen isOpen (ms.map Mark.c) → (Operator.find? o).isSome) :
    ∃ pieces, (splitMarks isOpen ms).mapM (cutStretch lv) = .ok pieces := by
  fun_induction splitMarks isOpen ms with
  | case1 => exact ⟨[], rfl⟩
  | case2 isOp held =>
    obtain ⟨ps, hps⟩ := cutStretch_of_known lv (hopen _ rfl).2 (r := []) (by simp) h
    exact ⟨[ps], by rw [mapM_cons, hps]; rfl⟩
  | case3 m rest ih =>
    rw [map_cons, munchOpen_none_cons] at h
    exact ih (by rintro _ ⟨⟩; simp) h
  | case4 isOp held m rest hm ih =>
    have hm : isOperatorChar m.c = isOp := by simpa using hm
    rw [map_cons, munchOpen_some_cons hm] at h
    exact ih (by rintro _ ⟨⟩; exact ⟨by simp, forall_mem_cons.2 ⟨hm, (hopen _ rfl).2⟩⟩) h
  | case5 isOp held m rest hm ih =>
    have hm : isOperatorChar m.c = !isOp := Bool.eq_not.2 (by simpa using hm)
    obtain ⟨hne, hheld⟩ := hopen _ rfl
    have hr : ∀ c, (m.c :: rest.map Mark.c).head? = some c →
        isOperatorChar c = !isOp := by simpa using hm
    obtain ⟨ps, hps⟩ := cutStretch_of_known lv hheld hr h
    have hrest : munchFrom 0 [] (m.c :: rest.map Mark.c) =
        munchOpen (some (!isOp, [m])) (rest.map Mark.c) := hm ▸ munchOpen_none_cons m _
    rw [map_cons, munchOpen_cutStretch hps hne hheld hr, hrest] at h
    obtain ⟨qs, hqs⟩ := ih (by rintro _ ⟨⟩; simpa using hm) fun o ho => h o (by simp [ho])
    exact ⟨ps :: qs, by rw [mapM_cons, hps, hqs]; rfl⟩

theorem flat_of_lexemes {atoms : List Atom} (h : ∀ a ∈ atoms, IsLexeme lv a) :
    atoms.map Atom.flat = (atoms.flatMap Atom.spelled).map Token.atom := by
  induction atoms with
  | nil => rfl
  | cons a rest ih =>
    obtain ⟨ha, hrest⟩ := forall_mem_cons.1 h
    rw [map_cons, flatMap_cons, map_append, ih hrest]
    cases ha <;> rfl

theorem cutWord_of_known {held : List Mark}
    (h : ∀ o, .operator o ∈ munch (held.map Mark.c).reverse → (Operator.find? o).isSome) :
    ∃ pieces, cutWord lv held.reverse = .ok pieces ∧
      (atomsOf pieces).map Atom.flat = munched (held.map Mark.c) := by
  obtain ⟨ps, hps⟩ : ∃ ps, (splitMarks none held.reverse).mapM (cutStretch lv) = .ok ps :=
    splitMarks_of_known lv (by simp) (by rwa [map_reverse])
  have hcut : cutWord lv held.reverse = .ok ps.flatten := by rw [cutWord, hps]; rfl
  have hlex := cutWord_ends lv held.reverse
  rw [hcut] at hlex
  refine ⟨_, hcut, ?_⟩
  rw [flat_of_lexemes lv hlex, spelled_cutWord hcut, munched, map_reverse]

theorem scanWords_of_known {held : List Mark} {run} (hb : NoBrackets run)
    (h : ∀ o, .operator o ∈ spell (held.map Mark.c) run → (Operator.find? o).isSome) :
    ∃ pieces, scanWords lv held run = .ok pieces ∧
      (atomsOf pieces).map Atom.flat = flatten (held.map Mark.c) run := by
  fun_induction scanWords lv held run with
  | case1 held => exact cutWord_of_known lv h
  | case2 held l c rest hc ih =>
    rw [spell, if_pos (by simp [hc])] at h
    obtain ⟨ps, hps, hflat⟩ := cutWord_of_known lv fun o ho => h o (mem_append_left _ ho)
    obtain ⟨qs, hqs, hrest⟩ := ih hb.tail fun o ho => h o (mem_append_right _ ho)
    refine ⟨_, by rw [hps, hqs]; rfl, ?_⟩
    rw [flatten, if_neg (by simp [inStretch, hc]), if_pos hc, ← hflat, ← map_nil, ← hrest]
    simp
  | case3 held l c rest hc hsep ih =>
    rw [spell, if_pos (by simp [hsep])] at h
    obtain ⟨ps, hps, hflat⟩ := cutWord_of_known lv fun o ho => h o (mem_append_left _ ho)
    obtain ⟨qs, hqs, hrest⟩ := ih hb.tail fun o ho => h o (mem_append_right _ ho)
    refine ⟨_, by rw [hps, hqs]; rfl, ?_⟩
    rw [flatten, if_neg (by simp [inStretch, hsep]), if_neg hc, ← hflat, ← map_nil, ← hrest]
    simp [Atom.flat]
  | case4 held l c rest hc hsep ih =>
    have hnone : bracketToken? c = none :=
      bracketToken?_of_marks fun pair => hb pair _ mem_cons_self
    rw [spell, if_neg (by simp [hc, hsep]), hnone] at h
    rw [flatten, if_pos (by simp [inStretch, hc, hsep, hnone])]
    exact ih hb.tail h
  | case5 held a rest hne ih =>
    rw [spell_atom hne] at h
    obtain ⟨ps, hps, hflat⟩ := cutWord_of_known lv fun o ho => h o (mem_append_left _ ho)
    obtain ⟨qs, hqs, hrest⟩ := ih hb.tail fun o ho =>
      h o (mem_append_right _ (mem_append_right _ ho))
    refine ⟨_, by rw [hps, hqs]; rfl, ?_⟩
    rw [flatten, ← hflat, ← map_nil, ← hrest]
    · simp
    · exact hne

/-- An unread run whose operators are known. -/
structure Legible (run : List Atom) : Prop where
  rawRun : RawRun run
  known : ∀ o, .operator o ∈ spell [] run → (Operator.find? o).isSome

/-- Lexing a legible run is grouping the brackets of the flattened run. -/
theorem flatten_group {run} (h : Legible run) :
    (group lv (relevel lv run)).map (List.map Atom.flat) = groupBrackets .top (flatten [] run) := by
  rw [group_raw h.rawRun, ← flatten_relevel lv [] fun a ha => (h.rawRun.isRaw a ha).isSimple,
    ← flatten_groupBrackets lv]
  cases hg : groupBrackets lv (relevel lv run) with
  | error f => rfl
  | ok atoms =>
    obtain ⟨r₁, r₂, h₁, h₂, h₃⟩ := groupBrackets_ok hg
    have hspell : spell [] atoms = spell [] run := by
      rw [spell_grouped h₃, spell_grouped h₂, spell_grouped h₁, spell_relevel]
    obtain ⟨pieces, hp, hflat⟩ : ∃ pieces, scanWords lv [] atoms = .ok pieces ∧
        (atomsOf pieces).map Atom.flat = flatten [] atoms :=
      scanWords_of_known lv (noBrackets_groupBrackets hg) (by rw [map_nil, hspell]; exact h.known)
    have htok : tokenize lv atoms = .ok (atomsOf pieces) := by rw [tokenize, cutWords, hp]; rfl
    exact (congrArg (Except.map (List.map Atom.flat)) htok).trans (congrArg Except.ok hflat)

end

theorem legible_of_flatten {run} (hraw : RawRun run) (ht : ∀ a ∈ run, a.isText = true)
    (h : ∀ o, Atom.operator .top o ∈ flatten [] run → (Operator.find? o).isSome) : Legible run := by
  have hmem : ∀ (o : String) (run : List Atom) (held : List Char), (∀ a ∈ run, a.isText = true) →
      .operator o ∈ spell held run → Atom.operator .top o ∈ flatten held run := by
    intro o run
    induction run with
    | nil => exact fun held _ h => mem_map.2 ⟨_, h, rfl⟩
    | cons a run ih =>
      intro held ht h
      obtain ⟨ha, hrun⟩ := forall_mem_cons.1 ht
      cases hs : a.isStretch with
      | true =>
        rw [spell_stretch hs] at h
        rw [flatten_stretch hs]
        exact ih _ hrun h
      | false =>
        obtain ⟨ts, hts, hspell⟩ := spell_shown hs
        rw [hspell] at h
        rw [flatten_shown hs]
        rcases mem_append.1 h with h | h
        · exact mem_append_left _ (mem_map.2 ⟨_, h, rfl⟩)
        · refine mem_append_right _ (mem_append_right _ (ih [] hrun ?_))
          exact (mem_append.1 h).resolve_left (hts ha o)
  exact ⟨hraw, fun o ho => h o (hmem o run [] ht ho)⟩

/-! ## Related runs -/

/-- An atom that lexing makes, with legible contents. -/
structure IsFresh (lv : Level) (a : Atom) : Prop where
  isToken : IsToken lv a
  isSimple : a.isSimple = true
  legible : ∀ (pair : Bracket) (raw : List Atom), a = pair.atom lv raw → Legible raw

/-- Atoms that are the same except for what is unread in brackets, where `F` holds. -/
def FlatTwin (F : Bracket → List Atom → List Atom → Prop) (b b' : Atom) : Prop :=
  b.withRaw [] = b'.withRaw [] ∧
    ∀ (pair : Bracket) (raw raw' : List Atom), b = pair.atom .top raw → b' = pair.atom .top raw' →
      F pair raw raw'

/-- Legible runs that are related when they are flat. -/
structure FlatRuns (F : Bracket → List Atom → List Atom → Prop) (pair : Bracket)
    (run run' : List Atom) : Prop where
  left : Legible run
  right : Legible run'
  flat : F pair (flatten [] run) (flatten [] run')

section
variable {lv : Level} {a a' : Atom} {run run' toks : List Atom}
  {F : Bracket → List Atom → List Atom → Prop}

theorem Legible.fresh (h : Legible run) (hlv : lv.tag = 0)
    (hg : group lv (relevel lv run) = .ok toks) : ∀ a ∈ toks, IsFresh lv a := by
  intro a ha
  have ht := tokens_of_group hlv (.raw h.rawRun) hg a ha
  refine ⟨ht, isSimple_of_group hlv h.rawRun hg a ha, ?_⟩
  rintro pair raw rfl
  refine ⟨ht.rawRun, fun o ho => h.known o ?_⟩
  rw [← spelled_group hlv (.raw h.rawRun) hg]
  refine mem_flatMap.2 ⟨_, ha, ?_⟩
  rw [Bracket.spelled_atom]
  exact mem_cons_of_mem _ (mem_append_left _ ho)

theorem IsFresh.withRaw_eq (h : IsFresh lv a) :
    a.withRaw [] = (a.flat.withRaw []).mapLevel fun _ => lv := by
  obtain ⟨ht, hs, -⟩ := h
  cases ht with
  | call | access | chain => cases hs
  | @bracket pair raw => cases pair <;> rfl
  | _ => rfl

theorem Twin.of_flat (h : IsFresh lv a) (h' : IsFresh lv a') (hf : FlatTwin F a.flat a'.flat) :
    Twin (FlatRuns F) lv a a' := by
  refine .of_withRaw h.isToken h'.isToken h.isSimple ?_ ?_
  · rw [h.withRaw_eq, h'.withRaw_eq, hf.1]
  · rintro pair raw raw' rfl rfl
    exact ⟨h.legible pair raw rfl, h'.legible pair raw' rfl,
      hf.2 pair _ _ (Bracket.flat_atom ..) (Bracket.flat_atom ..)⟩

theorem twins_of_flat {toks toks'} (h : ∀ a ∈ toks, IsFresh lv a) (h' : ∀ a ∈ toks', IsFresh lv a)
    (hf : Forall₂ (FlatTwin F) (toks.map Atom.flat) (toks'.map Atom.flat)) :
    Forall₂ (Twin (FlatRuns F) lv) toks toks' := by
  rw [forall₂_map_left_iff, forall₂_map_right_iff] at hf
  induction hf with
  | nil => exact .nil
  | cons hab _ ih =>
    obtain ⟨ha, hrest⟩ := forall_mem_cons.1 h
    obtain ⟨ha', hrest'⟩ := forall_mem_cons.1 h'
    exact .cons (.of_flat ha ha' hab) (ih hrest hrest')

theorem FlatRuns.group_agree {E S pair} (h : FlatRuns F pair run run') (hlv : lv.tag = 0)
    (hS : Agree E S (groupBrackets .top (flatten [] run)) (groupBrackets .top (flatten [] run'))) :
    Agree E (fun toks toks' => (∀ a ∈ toks, IsFresh lv a) ∧ (∀ a ∈ toks', IsFresh lv a) ∧
        S (toks.map Atom.flat) (toks'.map Atom.flat))
      (group lv (relevel lv run)) (group lv (relevel lv run')) := by
  rw [← flatten_group lv h.left, ← flatten_group lv h.right] at hS
  exact hS.of_map.with_eq.mono fun toks toks' ⟨hg, hg', hflat⟩ =>
    ⟨h.left.fresh hlv hg, h.right.fresh hlv hg', hflat⟩

end

end WatScript
