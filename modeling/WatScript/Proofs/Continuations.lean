import Mathlib.Data.List.Infix
import WatScript.Command.Session
import WatScript.Proofs.BracketBalance
import WatScript.Proofs.CommentRuns
import WatScript.Proofs.Immediates
import WatScript.Proofs.Lexemes

/-!
# Continuations

What may follow a text so that the whole can be lexed. The passes run one after the other and each reports
its first failure only, so a text may be incomplete for one pass and beyond repair for a later one, which
was never reached.
-/

namespace WatScript

open List WatScript.Bracket

variable {a : Atom} {pairs : List Bracket} {run : List Atom}

/-! ## Words -/

/-- The atom ends a word: white space, a separator, or anything but a character. -/
def Atom.endsWord : Atom → Bool
  | .unknown _ c => isSpace c || isSeparator c
  | _ => true

section
variable {a : Atom} {held : List Mark} {rest : List Atom}

theorem isOk_scanWords_cons (h : a.endsWord = true) : (scanWords .top held (a :: rest)).isOk =
      ((cutWord .top held.reverse).isOk && (scanWords .top [] rest).isOk) := by
  have hbind (x y : Except ReadFault (List Piece)) (f : List Piece → List Piece → List Piece) :
      (do let word ← x; let pieces ← y; return f word pieces : Except ReadFault _).isOk =
        (x.isOk && y.isOk) := by
    cases x <;> cases y <;> rfl
  cases a with
  | unknown l c =>
    rw [scanWords]
    split
    · exact hbind _ _ _
    · rename_i hspace
      rw [Atom.endsWord, Bool.eq_false_of_not_eq_true hspace, Bool.false_or] at h
      rw [if_pos h]
      exact hbind _ _ _
  | _ =>
    rw [scanWords]
    · exact hbind _ _ _
    · rintro l c ⟨⟩

theorem scanWords_letter (h : a.endsWord = false) :
    ∃ m : Mark, ∀ held rest, scanWords .top held (a :: rest) = scanWords .top (m :: held) rest := by
  cases a with
  | unknown l c =>
    obtain ⟨hspace, hsep⟩ := Bool.or_eq_false_iff.1 h
    exact ⟨⟨l, c⟩, fun held rest => by rw [scanWords, hspace, hsep]; rfl⟩
  | _ => cases h

theorem isOk_scanWords_append {tail ok}
    (h : ∀ held, (scanWords .top held tail).isOk = ((cutWord .top held.reverse).isOk && ok))
    (held : List Mark) (run : List Atom) :
    (scanWords .top held (run ++ tail)).isOk = ((scanWords .top held run).isOk && ok) := by
  induction run generalizing held with
  | nil =>
    rw [scanWords]
    exact h held
  | cons b run ih =>
    rw [cons_append]
    cases hb : b.endsWord with
    | true => rw [isOk_scanWords_cons hb, isOk_scanWords_cons hb, ih, Bool.and_assoc]
    | false =>
      obtain ⟨m, hm⟩ := scanWords_letter hb
      rw [hm, hm, ih]

end

/-- At the end of a run the atom makes no difference to its words. -/
def Atom.IsIdle (a : Atom) : Prop :=
  ∀ held run, (scanWords .top held (run ++ [a])).isOk = (scanWords .top held run).isOk

theorem Atom.isIdle_of_endsWord (h : a.endsWord = true) : a.IsIdle := by
  intro held run
  rw [isOk_scanWords_append (fun held => isOk_scanWords_cons h), scanWords]
  exact Bool.and_true _

/-! ### A slash at the end -/

theorem match?_slash (c : Char) (cs : List Char) :
    Operator.match? (c :: (cs ++ ['/'])) = Operator.match? (c :: cs) := by
  have htail : Operator.lexemes.all (·.toList.tail.all (· != '/')) = true := by decide
  refine find?_congr fun o ho => ?_
  have htail := all_eq_true.1 (all_eq_true.1 htail o ho)
  cases hl : o.toList with
  | nil => rfl
  | cons x l =>
    rw [hl, tail_cons] at htail
    simp only [List.isPrefixOf, isPrefixOf_append (s := cs) (r := ['/']) htail (by simp)]

section
variable {m : Mark} (hm : m.c = '/')
include hm

theorem isOk_cutOperators_slash (skip : Nat) (ms : List Mark) :
    (cutOperators .top skip (ms ++ [m])).isOk = (cutOperators .top skip ms).isOk := by
  have hmatch (n : Mark) (rest : List Mark) :
      Operator.match? ((n :: (rest ++ [m])).map Mark.c) = Operator.match? ((n :: rest).map Mark.c) := by
    simp [hm, match?_slash]
  have hbind (x : Except ReadFault (List Piece)) (f : List Piece → List Piece) :
      (do let pieces ← x; return f pieces : Except ReadFault _).isOk = x.isOk := by
    cases x <;> rfl
  fun_induction cutOperators .top skip ms with
  | case1 skip =>
    cases skip with
    | zero =>
      have hlone : Operator.match? ([m].map Mark.c) = some "/" := by simp only [List.map, hm]; decide
      rw [nil_append, cutOperators, hlone]
      rfl
    | succ skip => rfl
  | case2 skip n rest ih => exact ih
  | case3 n rest hnone => rw [cons_append, cutOperators, hmatch, hnone]
  | case4 n rest o ho ih =>
    rw [cons_append, cutOperators, hmatch, ho]
    exact (hbind _ _).trans (ih.trans (hbind _ _).symm)

theorem isOk_splitMarks_slash (isOpen : Option (Bool × List Mark)) (ms : List Mark) :
    ((splitMarks isOpen (ms ++ [m])).all fun s => (cutStretch .top s).isOk) =
      (splitMarks isOpen ms).all fun s => (cutStretch .top s).isOk := by
  have hop : Operator.isOperatorChar m.c = true := by rw [hm]; decide
  have hlone : (cutStretch .top (true, [m])).isOk = true := isOk_cutOperators_slash hm 0 []
  fun_induction splitMarks isOpen ms with
  | case1 => simp [splitMarks, hop, hlone]
  | case2 isOp held =>
    cases isOp with
    | true => simpa [splitMarks, hop, cutStretch] using isOk_cutOperators_slash hm 0 held.reverse
    | false => simp [splitMarks, hop, hlone]
  | case3 n rest ih => exact ih
  | case4 isOp held n rest h ih => simpa [splitMarks, h] using ih
  | case5 isOp held n rest h ih => simp [splitMarks, h, ih]

theorem isOk_cutWord_slash (ms : List Mark) :
    (cutWord .top (ms ++ [m])).isOk = (cutWord .top ms).isOk := by
  have hmapM (ss : List (Bool × List Mark)) :
      (ss.mapM (cutStretch .top)).isOk = ss.all fun s => (cutStretch .top s).isOk := by
    induction ss with
    | nil => rfl
    | cons s ss ih =>
      rw [mapM_cons, all_cons, ← ih]
      cases cutStretch .top s <;> cases ss.mapM (cutStretch .top) <;> rfl
  have hword (ms : List Mark) :
      (cutWord .top ms).isOk = (splitMarks none ms).all fun s => (cutStretch .top s).isOk := by
    rw [← hmapM, cutWord]
    cases (splitMarks none ms).mapM (cutStretch .top) <;> rfl
  rw [hword, hword, isOk_splitMarks_slash hm]

end

theorem isIdle_slash : (Atom.unknown .top '/').IsIdle := by
  have hlast (held : List Mark) : (scanWords .top held [.unknown .top '/']).isOk =
      ((cutWord .top held.reverse).isOk && true) := by
    have hword : scanWords .top held [.unknown .top '/'] =
        cutWord .top (held.reverse ++ [⟨.top, '/'⟩]) := by
      simp [scanWords, isSpace, isSeparator]
    rw [hword, isOk_cutWord_slash rfl, Bool.and_true]
  intro held run
  rw [isOk_scanWords_append hlast, Bool.and_true]

/-! ## Brackets -/

/-- The bracket passes, then the words. -/
def passes : List Bracket → List Atom → Except ReadFault (List Atom)
  | [], run => tokenize .top run
  | pair :: pairs, run => groupPair pair .top run >>= passes pairs

/-- Some run that begins with the end of a word completes the run for the passes. -/
def Mends (pairs : List Bracket) (run : List Atom) : Prop :=
  ∃ a rest, a.endsWord = true ∧ (passes pairs (run ++ a :: rest)).isOk = true

/-- The closing brackets. -/
def closing (closers : List Bracket) : List Atom := closers.map fun pair => .unknown .top pair.closer

/-- Closing brackets complete the run for the passes, behind whatever ends its last word. -/
def Closable (pairs : List Bracket) (run : List Atom) : Prop :=
  ∃ closers : List Bracket, (∀ pair ∈ closers, pair ∈ pairs) ∧ ∀ gaps ≠ [],
    (∀ a ∈ gaps, a.endsWord = true) → (passes pairs (run ++ (gaps ++ closing closers))).isOk = true

theorem isOk_tokenize (run : List Atom) : (tokenize .top run).isOk = (scanWords .top [] run).isOk := by
  rw [tokenize, cutWords]
  cases scanWords .top [] run <;> rfl

theorem Bracket.marks_of_endsWord (h : a.endsWord = true) (pair : Bracket) :
    pair.marks a = false := by
  cases a with
  | unknown l c =>
    rw [← Bool.not_eq_true]
    intro hm
    obtain ⟨l, h' | h'⟩ := eq_of_marks hm <;> cases h' <;> cases pair <;> cases h
  | _ => rfl

theorem Closable.mends (h : Closable pairs run) : Mends pairs run := by
  obtain ⟨closers, -, hok⟩ := h
  exact ⟨.unknown .top '\n', _, rfl, hok [.unknown .top '\n'] (by simp) (by simp [Atom.endsWord, isSpace])⟩

theorem mends_nil : Mends [] run ↔ (tokenize .top run).isOk = true := by
  have hgap {a : Atom} (ha : a.endsWord = true) (rest : List Atom) :
      (tokenize .top (run ++ a :: rest)).isOk =
        ((tokenize .top run).isOk && (tokenize .top rest).isOk) := by
    simp only [isOk_tokenize]
    exact isOk_scanWords_append (fun held => isOk_scanWords_cons ha) [] run
  constructor
  · rintro ⟨a, rest, ha, hok⟩
    rw [passes, hgap ha, Bool.and_eq_true] at hok
    exact hok.1
  · intro hok
    exact ⟨.unknown .top '\n', [], rfl, by rw [passes, hgap rfl, hok]; rfl⟩

theorem halfway_or_failed (pair : Bracket) (run : List Atom) :
    (∃ ps g, Halfway pair .top run ps g) ∨
      ∃ f, ∀ rest, scanBrackets pair .top none (run ++ rest) = .error f := by
  cases scanned pair .top run with
  | failed h => exact .inr ⟨_, h⟩
  | closed ps h => exact .inl ⟨ps, none, h⟩
  | opened h => exact .inl ⟨_, some _, h⟩

section
variable {pair : Bracket} {pairs : List Bracket} {run : List Atom} {ps : List Piece} {g : Option OpenGroup}

theorem passes_of_scanBrackets {r} (h : scanBrackets pair .top none run = r) :
    passes (pair :: pairs) run = r >>= fun qs => passes pairs (atomsOf qs) := by
  rw [passes, groupPair, cutBrackets, h]
  cases r <;> rfl

theorem Halfway.passes_closed (h : Halfway pair .top run ps none) :
    passes (pair :: pairs) run = passes pairs (atomsOf ps) := by
  have hscan : scanBrackets pair .top none run = .ok ps := by
    simpa [scanBrackets_none_nil, Except.map] using h []
  exact passes_of_scanBrackets hscan

theorem Halfway.passes_open {g} (h : Halfway pair .top run ps (some g)) :
    passes (pair :: pairs) run = .error .braceNotClosed := by
  have hscan : scanBrackets pair .top none run = .error .braceNotClosed := by
    simpa [scanBrackets, Except.map] using h []
  exact passes_of_scanBrackets hscan

theorem not_mends_of_failed {f}
    (h : ∀ rest, scanBrackets pair .top none (run ++ rest) = .error f) : ¬Mends (pair :: pairs) run := by
  rintro ⟨a, rest, -, hok⟩
  rw [passes_of_scanBrackets (h _)] at hok
  cases hok

theorem Halfway.peel (h : Halfway pair .top run ps g) (hm : Mends (pair :: pairs) run) :
    Mends pairs (atomsOf ps) := by
  obtain ⟨a, rest, ha, hok⟩ := hm
  rw [passes_of_scanBrackets (h _)] at hok
  cases hrest : scanBrackets pair .top g (a :: rest) with
  | error f =>
    rw [hrest] at hok
    cases hok
  | ok qs =>
    rw [hrest] at hok
    have hok : (passes pairs (atomsOf (ps ++ qs))).isOk = true := hok
    rw [atomsOf_append] at hok
    cases g with
    | none =>
      rw [scanBrackets_none_cons (marks_of_endsWord ha pair)] at hrest
      obtain ⟨ts, -, rfl⟩ := map_ok hrest
      exact ⟨a, atomsOf ts, ha, hok⟩
    | some g =>
      cases closes pair .top g.inner (a :: rest) with
      | failed hf =>
        rw [hf g.opener g.held] at hrest
        cases hrest
      | closed _ hc =>
        rw [hc g.opener g.held] at hrest
        obtain ⟨ts, -, rfl⟩ := map_ok hrest
        exact ⟨_, atomsOf ts, by cases pair <;> rfl, hok⟩

theorem scanBrackets_closers (o : Atom) (n : Nat) (held rest : List Atom) :
    ∃ raw, scanBrackets pair .top (some ⟨o, n, held⟩)
        (List.replicate (n + 1) (.unknown .top pair.closer) ++ rest) =
      (scanBrackets pair .top none rest).map
        (.wrapped o (.unknown .top pair.closer) (pair.atom .top raw) :: ·) := by
  induction n generalizing held with
  | zero => exact ⟨_, scanBrackets_closer_outer ..⟩
  | succ n ih =>
    obtain ⟨raw, hraw⟩ := ih (.unknown .top pair.closer :: held)
    exact ⟨raw, (scanBrackets_closer_inner ..).trans hraw⟩

theorem Halfway.closable (h : Halfway pair .top run ps g) (hpair : pair ∉ pairs)
    (hc : Closable pairs (atomsOf ps)) : Closable (pair :: pairs) run := by
  obtain ⟨closers, hmem, hok⟩ := hc
  have hkeep : ∀ a ∈ closing closers, pair.marks a = false := by
    intro a ha
    obtain ⟨p, hp, rfl⟩ := mem_map.1 ha
    have hne : p ≠ pair := fun heq => hpair (heq ▸ hmem p hp)
    exact (marks_of_ne hne .top).2
  have hscan := scanBrackets_of_noMarks pair .top hkeep
  have hgaps {gaps : List Atom} (hg : ∀ a ∈ gaps, a.endsWord = true) : ∀ a ∈ gaps, pair.marks a = false :=
    fun a ha => marks_of_endsWord (hg a ha) pair
  cases g with
  | none =>
    refine ⟨closers, fun p hp => mem_cons_of_mem _ (hmem p hp), fun gaps hne hg => ?_⟩
    rw [passes_of_scanBrackets (h _), scanBrackets_none_append (hgaps hg), hscan]
    simpa [Except.map, bind, Except.bind, atomsOf_append, atomsOf_map_kept] using hok gaps hne hg
  | some g =>
    refine ⟨List.replicate (g.inner + 1) pair ++ closers, fun p hp => ?_, fun gaps hne hg => ?_⟩
    · obtain hp | hp := mem_append.1 hp
      · rw [eq_of_mem_replicate hp]
        exact mem_cons_self
      · exact mem_cons_of_mem _ (hmem p hp)
    · obtain ⟨raw, hraw⟩ := scanBrackets_closers g.opener g.inner (gaps.reverse ++ g.held) (closing closers)
      have hatom : (pair.atom .top raw).endsWord = true := by cases pair <;> rfl
      rw [closing, map_append, map_replicate, passes_of_scanBrackets (h _),
        scanBrackets_some_append (hgaps hg)]
      rw [← closing, hraw, hscan]
      simpa [Except.map, bind, Except.bind, atomsOf_append, atomsOf_map_kept] using
        hok [pair.atom .top raw] (by simp) (by simpa using hatom)

end

theorem closable_of_mends (hpairs : pairs.Nodup) (h : Mends pairs run) : Closable pairs run := by
  induction pairs generalizing run with
  | nil =>
    refine ⟨[], by simp, fun gaps _ hg => ?_⟩
    rw [mends_nil, isOk_tokenize] at h
    rw [passes, isOk_tokenize, closing, map_nil, append_nil]
    clear * - h hg
    induction gaps using List.reverseRecOn with
    | nil => rwa [append_nil]
    | append_singleton gaps a ih =>
      obtain ⟨hgaps, ha⟩ := forall_mem_append.1 hg
      rw [← append_assoc, Atom.isIdle_of_endsWord (ha a (by simp))]
      exact ih hgaps
  | cons pair pairs ih =>
    obtain ⟨hpair, hpairs⟩ := nodup_cons.1 hpairs
    obtain ⟨ps, g, hs⟩ | ⟨f, hf⟩ := halfway_or_failed pair run
    · exact hs.closable hpair (ih hpairs (hs.peel h))
    · exact absurd h (not_mends_of_failed hf)

/-! ### What the end of a run matters -/

section
variable {pair : Bracket} {pairs : List Bracket} {run : List Atom} {ps : List Piece} {g : Option OpenGroup}

theorem Halfway.mends_iff (hpairs : (pair :: pairs).Nodup) (h : Halfway pair .top run ps g) :
    Mends (pair :: pairs) run ↔ Mends pairs (atomsOf ps) := by
  obtain ⟨hpair, hpairs⟩ := nodup_cons.1 hpairs
  exact ⟨h.peel, fun hm => (h.closable hpair (closable_of_mends hpairs hm)).mends⟩

theorem mends_iff_isOk (hpairs : pairs.Nodup) (h : passes pairs run ≠ .error .braceNotClosed) :
    Mends pairs run ↔ (passes pairs run).isOk = true := by
  induction pairs generalizing run with
  | nil => exact mends_nil
  | cons pair pairs ih =>
    obtain ⟨ps, g, hs⟩ | ⟨f, hf⟩ := halfway_or_failed pair run
    · cases g with
      | none =>
        rw [hs.mends_iff hpairs, hs.passes_closed]
        rw [hs.passes_closed] at h
        exact ih hpairs.of_cons h
      | some g => exact absurd hs.passes_open h
    · refine iff_of_false (not_mends_of_failed hf) ?_
      rw [passes_of_scanBrackets (append_nil run ▸ hf [])]
      exact Bool.false_ne_true

theorem mends_snoc (hpairs : pairs.Nodup) (h : passes pairs (run ++ [a]) = .error .braceNotClosed ∨
      a.IsIdle ∧ ∀ pair ∈ pairs, pair.marks a = false) :
    Mends pairs (run ++ [a]) ↔ Mends pairs run := by
  induction pairs generalizing run a with
  | nil =>
    obtain h | ⟨hidle, -⟩ := h
    · exact absurd h ((tokenize_ends .top _).ne_error (by simp))
    · rw [mends_nil, mends_nil, isOk_tokenize, isOk_tokenize, hidle]
  | cons pair pairs ih =>
    -- a pass that has failed already fails with the atom too
    obtain ⟨ps, g, hs⟩ | ⟨f, hf⟩ := halfway_or_failed pair run
    · -- later passes see one atom more, or nothing of it
      have hopen {g' : OpenGroup} (hs' : Halfway pair .top (run ++ [a]) ps (some g')) :
          Mends (pair :: pairs) (run ++ [a]) ↔ Mends (pair :: pairs) run := by
        rw [hs'.mends_iff hpairs, hs.mends_iff hpairs]
      have hpiece {p : Piece} {b : Atom} (hp : atomsOf [p] = [b]) (hb : pair.marks a = false → b = a)
          (hs' : Halfway pair .top (run ++ [a]) (ps ++ [p]) none) :
          Mends (pair :: pairs) (run ++ [a]) ↔ Mends (pair :: pairs) run := by
        rw [hs'.mends_iff hpairs, hs.mends_iff hpairs, atomsOf_append, hp]
        refine ih hpairs.of_cons ?_
        obtain h | ⟨hidle, hmarks⟩ := h
        · rw [hs'.passes_closed, atomsOf_append, hp] at h
          exact .inl h
        · rw [hb (hmarks pair mem_cons_self)]
          exact .inr ⟨hidle, fun q hq => hmarks q (mem_cons_of_mem _ hq)⟩
      cases hs.advance a with
      | stray hm hstray =>
        obtain h | ⟨-, hmarks⟩ := h
        · rw [passes_of_scanBrackets (append_nil (run ++ [a]) ▸ hstray [])] at h
          cases h
        · rw [hmarks pair mem_cons_self] at hm
          cases hm
      | opens _ hs' | takes hs' => exact hopen hs'
      | keeps _ hs' => exact hpiece rfl (fun _ => rfl) hs'
      | closes hm hs' => exact hpiece rfl (fun hno => by rw [hm] at hno; cases hno) hs'
    · have hf' (rest : List Atom) : scanBrackets pair .top none (run ++ [a] ++ rest) = .error f := by
        rw [append_assoc]
        exact hf _
      exact iff_of_false (not_mends_of_failed hf') (not_mends_of_failed hf)

end

/-! ## Literals -/

/-- The literal pass, from some state on. -/
def literalsFrom (st : LiteralState) (seen : List Atom) (text cs : List Char) :
    Except ReadFault (List Atom) :=
  (scanLiterals .top st seen text (cs.map (.unknown .top))).map atomsOf

/-- What the literal pass makes of the characters behind the beginning of a literal. In a block comment a
star may be the beginning of its end. -/
inductive OpenLiteral : (List Char → Except ReadFault (List Atom)) → Prop
  | quotation (escaped : Bool) (seen : List Atom) (text : List Char) :
      OpenLiteral (literalsFrom (.quotation escaped) seen text)
  | lineComment (seen : List Atom) (text : List Char) : OpenLiteral (literalsFrom .lineComment seen text)
  | blockComment (seen : List Atom) (text : List Char) : OpenLiteral (literalsFrom .blockComment seen text)
  | star (seen : List Atom) (text : List Char) :
      OpenLiteral fun rest => literalsFrom .blockComment seen text ('*' :: rest)

/-- Whatever follows, the open literal ends and is one atom. -/
def LiteralCloses (k : List Char → Except ReadFault (List Atom)) : Prop :=
  ∃ a : Atom, a.endsWord = true ∧ ∀ rest, k rest = (literalsOf rest).map (a :: ·)

section
variable {k : List Char → Except ReadFault (List Atom)}

theorem literalCloses_of_scan {p} (hp : p.atom? = some a) (ha : a.endsWord = true)
    (h : ∀ rest, k rest = (do
      let pieces ← scanLiterals .top .outside [] [] (rest.map (.unknown .top))
      return p :: pieces : Except ReadFault (List Piece)).map atomsOf) : LiteralCloses k := by
  refine ⟨a, ha, fun rest => ?_⟩
  rw [h, literalsOf, extractLiterals, cutLiterals]
  cases scanLiterals .top .outside [] [] (rest.map (.unknown .top)) with
  | error f => rfl
  | ok pieces => simp [bind, Except.bind, Except.map, pure, Except.pure, atomsOf, hp]

theorem OpenLiteral.snoc (h : OpenLiteral k) (c : Char) :
    LiteralCloses (fun rest => k (c :: rest)) ∨ OpenLiteral fun rest => k (c :: rest) := by
  cases h with
  | quotation escaped seen text =>
    cases escaped with
    | true =>
      simp only [literalsFrom, map_cons, scanLiterals]
      exact .inr (quotation false _ _)
    | false =>
      by_cases hb : c = '\\'
      · subst hb
        simp only [literalsFrom, map_cons, scanLiterals]
        exact .inr (quotation true _ _)
      by_cases hq : c = '"'
      · subst hq
        simp only [literalsFrom, map_cons, scanLiterals]
        exact .inl (literalCloses_of_scan rfl rfl fun rest => rfl)
      · simp only [literalsFrom, map_cons, scanLiterals]
        exact .inr (quotation false _ _)
  | lineComment seen text =>
    by_cases hn : c = '\n'
    · subst hn
      simp only [literalsFrom, map_cons, scanLiterals]
      exact .inl (literalCloses_of_scan rfl rfl fun rest => rfl)
    · simp only [literalsFrom, map_cons, scanLiterals]
      exact .inr (lineComment _ _)
  | blockComment seen text =>
    -- a star may begin the end of the comment, so it is a state of its own
    by_cases hs : c = '*'
    · exact .inr (hs ▸ star seen text)
    · simp only [literalsFrom, map_cons, scanLiterals, hs, implies_true, imp_self]
      exact .inr (blockComment _ _)
  | star seen text =>
    by_cases hs : c = '/'
    · subst hs
      simp only [literalsFrom, map_cons, scanLiterals]
      exact .inl (literalCloses_of_scan rfl rfl fun rest => rfl)
    by_cases hs' : c = '*'
    · subst hs'
      exact .inr (star (.unknown .top '*' :: seen) ('*' :: text))
    · have hstep (rest : List Atom) : scanLiterals .top .blockComment seen text
          (.unknown .top '*' :: .unknown .top c :: rest) = scanLiterals .top .blockComment
            (.unknown .top c :: .unknown .top '*' :: seen) (c :: '*' :: text) rest := by
        simp [scanLiterals, hs, hs']
      simp only [literalsFrom, map_cons, hstep]
      exact .inr (blockComment _ _)

theorem OpenLiteral.nil (h : OpenLiteral k) :
    (∃ f, k [] = .error f ∧ f.isIncomplete = true) ∨ ∃ a : Atom, a.endsWord = true ∧ k [] = .ok [a] := by
  cases h with
  | quotation => exact .inl ⟨.quotationNotClosed, by simp [literalsFrom, scanLiterals, Except.map], rfl⟩
  | lineComment => exact .inr ⟨_, rfl, by simp only [literalsFrom, map_nil, scanLiterals]; rfl⟩
  | blockComment | star =>
    exact .inl ⟨.commentNotClosed, by simp [literalsFrom, scanLiterals, Except.map], rfl⟩

theorem OpenLiteral.head (h : OpenLiteral k) {cs out}
    (hk : k cs = .ok (a :: out)) : a.endsWord = true := by
  have hinside {st : LiteralState} (hst : st ≠ .outside) {seen : List Atom} {text cs : List Char}
      (hk : literalsFrom st seen text cs = .ok (a :: out)) : a.endsWord = true := by
    obtain ⟨ps, hps, hout⟩ := map_ok hk
    cases a with
    | unknown l c => exact absurd (head_of_scanLiterals hps hout).1 hst
    | _ => rfl
  cases h with
  | quotation | lineComment | blockComment | star => exact hinside (by simp) hk

/-- The marks that end literals behind the end of a line. -/
def literalMarks : List String := ["", "\"", "*/"]

theorem OpenLiteral.exists_mark (h : OpenLiteral k) :
    ∃ mark ∈ literalMarks, LiteralCloses fun rest => k ('\n' :: (mark.toList ++ rest)) := by
  cases h with
  | quotation escaped seen text =>
    refine ⟨"\"", by decide, ?_⟩
    cases escaped <;> exact literalCloses_of_scan rfl rfl fun rest => by simp [literalsFrom, scanLiterals]; rfl
  | lineComment seen text =>
    exact ⟨"", by decide, literalCloses_of_scan rfl rfl fun rest => by simp [literalsFrom, scanLiterals]; rfl⟩
  | blockComment | star =>
    exact ⟨"*/", by decide, literalCloses_of_scan rfl rfl fun rest => by simp [literalsFrom, scanLiterals]; rfl⟩

end

/-- Behind the characters the literal pass has left `out` outside of the literal that it is in, if any. A
slash is left too, but may still turn out to begin a comment. -/
inductive LiteralEnd (cs : List Char) : List Atom → Prop
  | outside {out} :
      (∀ rest, literalsOf (cs ++ rest) = (literalsOf rest).map (out ++ ·)) → LiteralEnd cs out
  | slash {out} : (∀ rest, literalsOf (cs ++ rest) = (literalsOf ('/' :: rest)).map (out ++ ·)) →
      LiteralEnd cs (out ++ [.unknown .top '/'])
  | inside {out k} : OpenLiteral k →
      (∀ rest, literalsOf (cs ++ rest) = (k rest).map (out ++ ·)) → LiteralEnd cs out

/-! ## Lexing -/

/-- The passes over characters. -/
def lexed (cs : List Char) : Except ReadFault (List Atom) := literalsOf cs >>= passes Bracket.all

theorem scan_eq_lexed (text : Text) : scan .top text = lexed text.toChars := by
  have hpasses (pairs : List Bracket) : passes pairs = fun run =>
      pairs.foldlM (fun atoms pair => groupPair pair .top atoms) run >>= tokenize .top := by
    induction pairs with
    | nil => rfl
    | cons pair pairs ih =>
      funext run
      rw [passes, ih, foldlM_cons, bind_assoc]
  rw [lexed, hpasses]
  rfl

/-- Lexing fails for want of more text. -/
def IsOpen (cs : List Char) : Prop := ∃ f, lexed cs = .error f ∧ f.isIncomplete = true

theorem isIncomplete_iff {text} : isIncomplete text = true ↔ IsOpen text.toChars := by
  rw [isIncomplete, scan_eq_lexed, IsOpen]
  cases lexed text.toChars <;> simp

theorem passes_incomplete {f}
    (h : passes pairs run = .error f) (hf : f.isIncomplete = true) : f = .braceNotClosed := by
  induction pairs generalizing run with
  | nil =>
    have hend := tokenize_ends .top run
    rw [passes] at h
    rw [h] at hend
    cases hend
    cases hf
  | cons pair pairs ih =>
    rw [passes] at h
    have hend := groupPair_ends pair .top run
    cases hg : groupPair pair .top run with
    | ok out =>
      rw [hg] at h
      exact ih h
    | error e =>
      rw [hg] at h hend
      cases h
      have hunmatched : f.isUnmatched = true := hend
      revert hunmatched hf
      cases f <;> simp [ReadFault.isUnmatched, ReadFault.isIncomplete]

theorem literalsOf_nil : literalsOf [] = .ok [] := extractLiterals_of_literalFree .top trivial

theorem Bracket.nodup_all : Bracket.all.Nodup := by decide

section
variable {cs : List Char} {out : List Atom}

theorem lexed_of_literals {atoms} (h : literalsOf cs = .ok atoms) :
    lexed cs = passes Bracket.all atoms := by
  rw [lexed, h]
  rfl

theorem mends_gap (h : a.endsWord = true) :
    Mends Bracket.all (out ++ [a]) ↔ Mends Bracket.all out :=
  mends_snoc nodup_all (.inr ⟨Atom.isIdle_of_endsWord h, fun pair _ => marks_of_endsWord h pair⟩)

theorem mends_slash : Mends Bracket.all (out ++ [.unknown .top '/']) ↔ Mends Bracket.all out :=
  mends_snoc nodup_all (.inr ⟨isIdle_slash, by decide⟩)

theorem LiteralEnd.mends_iff (h : LiteralEnd cs out) (hc : ¬IsOpen cs) :
    Mends Bracket.all out ↔ (lexed cs).isOk = true := by
  have hread {atoms : List Atom} (hr : literalsOf cs = .ok atoms) :
      Mends Bracket.all atoms ↔ (lexed cs).isOk = true := by
    rw [lexed_of_literals hr]
    exact mends_iff_isOk nodup_all fun he =>
      hc ⟨.braceNotClosed, (lexed_of_literals hr).trans he, rfl⟩
  cases h with
  | outside h =>
    have h := h []
    rw [append_nil, literalsOf_nil] at h
    exact hread (h.trans (by simp [Except.map]))
  | slash h =>
    have h := h []
    rw [append_nil, literalsOf_cons (by decide) rfl, literalsOf_nil] at h
    exact hread h
  | inside hk h =>
    have h := h []
    rw [append_nil] at h
    obtain ⟨f, hf, hi⟩ | ⟨a, ha, hok⟩ := hk.nil
    · rw [hf] at h
      exact absurd ⟨f, by rw [lexed, h]; rfl, hi⟩ hc
    · rw [hok] at h
      exact (mends_gap ha).symm.trans (hread h)

theorem LiteralEnd.newline (h : LiteralEnd cs out) :
    (∀ rest, literalsOf (cs ++ '\n' :: rest) = (literalsOf rest).map (out ++ .unknown .top '\n' :: ·)) ∨
      ∃ k, OpenLiteral k ∧ ∀ rest, literalsOf (cs ++ rest) = (k rest).map (out ++ ·) := by
  have hnl (rest : List Char) : literalsOf ('\n' :: rest) = (literalsOf rest).map (.unknown .top '\n' :: ·) :=
    literalsOf_cons (by decide) (opensComment_of_ne (by decide) rest)
  cases h with
  | outside h => exact .inl fun rest => by rw [h, hnl, except_map_map]
  | slash h =>
    refine .inl fun rest => ?_
    rw [h, literalsOf_cons (by decide) rfl, hnl, except_map_map, except_map_map]
    simp
  | inside hk h => exact .inr ⟨_, hk, h⟩

theorem LiteralEnd.mends (h : LiteralEnd cs out) {t} (hok : (lexed (cs ++ '\n' :: t)).isOk = true) :
    Mends Bracket.all out := by
  cases hr : literalsOf (cs ++ '\n' :: t) with
  | error f =>
    rw [lexed, hr] at hok
    cases hok
  | ok atoms =>
    rw [lexed_of_literals hr] at hok
    obtain hnl | ⟨k, hk, hcs⟩ := h.newline
    · rw [hnl] at hr
      obtain ⟨rest, -, rfl⟩ := map_ok hr
      exact ⟨_, rest, rfl, hok⟩
    · rw [hcs] at hr
      obtain ⟨rest, hrest, rfl⟩ := map_ok hr
      cases rest with
      | nil =>
        rw [append_nil] at hok
        exact (mends_iff_isOk nodup_all (by rintro he; rw [he] at hok; cases hok)).2 hok
      | cons a rest => exact ⟨a, rest, hk.head hrest, hok⟩

theorem LiteralEnd.exists_closers (h : LiteralEnd cs out) (hm : Mends Bracket.all out) :
    ∃ mark ∈ literalMarks, ∃ closers : List Bracket,
      (lexed (cs ++ '\n' :: (mark.toList ++ closers.map closer))).isOk = true := by
  obtain ⟨closers, -, hok⟩ := closable_of_mends nodup_all hm
  have hclosers : literalsOf (closers.map closer) = .ok (closing closers) := by
    have hplain : ∀ c ∈ closers.map closer, c ≠ '"' ∧ c ≠ '/' := by
      intro c hc
      obtain ⟨pair, -, rfl⟩ := mem_map.1 hc
      cases pair <;> decide
    have hread := literalsOf_plain hplain []
    rw [append_nil, literalsOf_nil] at hread
    simpa [closing, Except.map, Function.comp_def] using hread
  have hdone {mark : String} {a : Atom} (ha : a.endsWord = true)
      (hr : ∀ rest, literalsOf (cs ++ '\n' :: (mark.toList ++ rest)) = (literalsOf rest).map (out ++ a :: ·)) :
      (lexed (cs ++ '\n' :: (mark.toList ++ closers.map closer))).isOk = true := by
    have hr := hr (closers.map closer)
    rw [hclosers] at hr
    rw [lexed_of_literals hr]
    exact hok [a] (by simp) (by simpa using ha)
  obtain hnl | ⟨k, hk, hcs⟩ := h.newline
  · exact ⟨"", by decide, closers, hdone rfl hnl⟩
  · obtain ⟨mark, hmark, a, ha, hclose⟩ := hk.exists_mark
    refine ⟨mark, hmark, closers, hdone ha fun rest => ?_⟩
    rw [hcs, show k _ = _ from hclose rest, except_map_map]

/-- One character more. If something is left open then, the character does not matter: it belongs to what
is open, or it does not matter at the end. -/
theorem literalEnd_snoc (c : Char)
    (h : ∀ rest, literalsOf (cs ++ c :: rest) = (literalsOf (c :: rest)).map (out ++ ·)) :
    ∃ out', LiteralEnd (cs ++ [c]) out' ∧
      (IsOpen (cs ++ [c]) → (Mends Bracket.all out' ↔ Mends Bracket.all out)) := by
  have h (rest : List Char) : literalsOf (cs ++ [c] ++ rest) = (literalsOf (c :: rest)).map (out ++ ·) := by
    rw [append_assoc]
    exact h rest
  by_cases hq : c = '"'
  · subst hq
    refine ⟨out, .inside (.quotation false [.unknown .top '"'] []) fun rest => ?_, fun _ => Iff.rfl⟩
    rw [h, literalsOf, extractLiterals, cutLiterals, map_cons, scanLiterals]
    rfl
  by_cases hs : c = '/'
  · subst hs
    exact ⟨_, .slash h, fun _ => mends_slash⟩
  · have hend (rest : List Char) :
        literalsOf (cs ++ [c] ++ rest) = (literalsOf rest).map (out ++ [.unknown .top c] ++ ·) := by
      rw [h, literalsOf_cons hq (opensComment_of_ne hs rest), except_map_map]
      simp
    refine ⟨_, .outside hend, ?_⟩
    rintro ⟨f, hf, hi⟩
    refine mends_snoc nodup_all (.inl ?_)
    have hread : literalsOf (cs ++ [c]) = .ok (out ++ [.unknown .top c]) := by
      simpa [literalsOf_nil, Except.map] using hend []
    rw [lexed_of_literals hread] at hf
    rw [hf, passes_incomplete hf hi]

theorem LiteralEnd.snoc (h : LiteralEnd cs out) (c : Char) : ∃ out', LiteralEnd (cs ++ [c]) out' ∧
      (IsOpen (cs ++ [c]) → (Mends Bracket.all out' ↔ Mends Bracket.all out)) := by
  have happ (rest : List Char) : cs ++ [c] ++ rest = cs ++ c :: rest := by simp
  cases h with
  | outside h => exact literalEnd_snoc c fun rest => h (c :: rest)
  | @slash out h =>
    by_cases hb : c = '*'
    · subst hb
      refine ⟨out, .inside (.blockComment [.unknown .top '*', .unknown .top '/'] []) fun rest => ?_,
        fun _ => mends_slash.symm⟩
      rw [happ, h, literalsOf, extractLiterals, cutLiterals, map_cons, map_cons, scanLiterals]
      rfl
    by_cases hl : c = '/'
    · subst hl
      refine ⟨out, .inside (.lineComment [.unknown .top '/', .unknown .top '/'] []) fun rest => ?_,
        fun _ => mends_slash.symm⟩
      rw [happ, h, literalsOf, extractLiterals, cutLiterals, map_cons, map_cons, scanLiterals]
      rfl
    · refine literalEnd_snoc c fun rest => ?_
      rw [h, literalsOf_cons (by decide) (by simp [opensComment, hb, hl]), except_map_map]
      simp
  | @inside _ k hk h =>
    obtain ⟨a, ha, hclose⟩ | hk := hk.snoc c
    · refine ⟨_, .outside fun rest => ?_, fun _ => mends_gap ha⟩
      rw [happ, h, show k (c :: rest) = _ from hclose rest, except_map_map]
      simp
    · exact ⟨out, .inside hk fun rest => by rw [happ, h], fun _ => Iff.rfl⟩

end

/-! ## Sessions -/

/-- The longest beginning of a text in which nothing is left open. -/
def settledPart (src : Text) : Text := (src.inits.reverse.find? fun part => !isIncomplete part).getD []

theorem settledPart_snoc (src : Text) (g : Glyph) :
    settledPart (src ++ [g]) = if isIncomplete (src ++ [g]) then settledPart src else src ++ [g] := by
  have hinits : (src ++ [g]).inits.reverse = (src ++ [g]) :: src.inits.reverse := by
    simp [inits_append]
  rw [settledPart, hinits, find?_cons]
  cases isIncomplete (src ++ [g]) <;> rfl

theorem literalEnd_settledPart (src : Text) : ∃ out, LiteralEnd src.toChars out ∧
      (Mends Bracket.all out ↔ (scan .top (settledPart src)).isOk = true) := by
  induction src using List.reverseRecOn with
  | nil =>
    have hend : LiteralEnd [] [] := .outside fun rest => by
      cases hr : literalsOf rest <;> simp [hr, Except.map]
    have hnil : ¬isIncomplete ([] : Text) = true := by decide
    exact ⟨[], hend, hend.mends_iff fun ho => hnil (isIncomplete_iff.2 ho)⟩
  | append_singleton src g ih =>
    obtain ⟨out, hend, hiff⟩ := ih
    obtain ⟨out', hend', hopen⟩ := hend.snoc g.toChar
    have hchars : Text.toChars (src ++ [g]) = Text.toChars src ++ [g.toChar] := map_append
    rw [← hchars] at hend' hopen
    refine ⟨out', hend', ?_⟩
    rw [settledPart_snoc]
    split
    · rename_i hinc
      exact (hopen (isIncomplete_iff.1 hinc)).trans hiff
    · rename_i hinc
      rw [scan_eq_lexed]
      exact hend'.mends_iff fun ho => hinc (isIncomplete_iff.2 ho)

theorem scan_newline (src t : Text) :
    scan .top (src ++ .char '\n' :: t) = lexed (src.toChars ++ '\n' :: t.toChars) := by
  rw [scan_eq_lexed]
  simp [Text.toChars, Glyph.toChar]

theorem isOk_settledPart {src t} (h : (scan .top (src ++ .char '\n' :: t)).isOk = true) :
    (scan .top (settledPart src)).isOk = true := by
  obtain ⟨out, hend, hiff⟩ := literalEnd_settledPart src
  rw [scan_newline] at h
  exact hiff.1 (hend.mends h)

theorem settledPart_of_complete {src} (h : isIncomplete src = false) : settledPart src = src := by
  cases src using List.reverseRecOn with
  | nil => rfl
  | append_singleton src g => rw [settledPart_snoc, h, if_neg Bool.false_ne_true]

/-- The session does not give up too early: a text that fails for another reason than being incomplete
fails however it goes on. -/
theorem broken_text_stays_broken (src t : Text) (hfail : (scan .top src).isOk = false)
    (hcomplete : isIncomplete src = false) : (scan .top (src ++ .char '\n' :: t)).isOk = false := by
  rw [← Bool.not_eq_true] at hfail ⊢
  intro hok
  have hsettled := isOk_settledPart hok
  rw [settledPart_of_complete hcomplete] at hsettled
  exact hfail hsettled

/-- A stray bracket between a quotation and a comment, and brackets and quotation marks behind it. -/
theorem broken_text_stays_broken_bracket :
    (scan .top (.ofString "\"(\" ) // \"")).isOk = false ∧
      (scan .top (.ofString "\"(\" ) // \"\n(\"")).isOk = false :=
  ⟨by decide, broken_text_stays_broken (.ofString "\"(\" ) // \"") (.ofString "(\"") (by decide) (by decide)⟩

/-- A mark that ends a literal, and closing brackets. -/
def closingText (mark : String) (closers : List Bracket) : Text :=
  .ofString (mark ++ .ofList (closers.map closer))

/-- Some continuation completes a text if and only if its longest beginning with nothing left open is
complete. Then a mark that ends a literal and closing brackets complete it. -/
theorem completable_iff_settledPart (src : Text) :
    ((∃ t, (scan .top (src ++ .char '\n' :: t)).isOk = true) ↔
      (scan .top (settledPart src)).isOk = true) ∧
    ((scan .top (settledPart src)).isOk = true → ∃ mark ∈ literalMarks, ∃ closers,
      (scan .top (src ++ .char '\n' :: closingText mark closers)).isOk = true) := by
  have hclose (h : (scan .top (settledPart src)).isOk = true) : ∃ mark ∈ literalMarks, ∃ closers,
      (scan .top (src ++ .char '\n' :: closingText mark closers)).isOk = true := by
    obtain ⟨out, hend, hiff⟩ := literalEnd_settledPart src
    obtain ⟨mark, hmark, closers, hok⟩ := hend.exists_closers (hiff.2 h)
    refine ⟨mark, hmark, closers, ?_⟩
    rw [scan_newline, closingText, Text.toChars_ofString]
    simpa using hok
  refine ⟨⟨fun ⟨t, hok⟩ => isOk_settledPart hok, fun h => ?_⟩, hclose⟩
  obtain ⟨mark, -, closers, hok⟩ := hclose h
  exact ⟨_, hok⟩

/-- An open brace hides a stray bracket before it: the text counts as incomplete, and nothing completes it. -/
theorem stray_bracket_behind_open_brace :
    isIncomplete (.ofString "] \x7b") = true ∧
      ∀ t, (scan .top (Text.ofString "] \x7b" ++ .char '\n' :: t)).isOk = false := by
  refine ⟨by decide, fun t => ?_⟩
  rw [← Bool.not_eq_true]
  intro hok
  have hsettled := isOk_settledPart hok
  revert hsettled
  decide

end WatScript
