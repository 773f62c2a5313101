import Mathlib.Data.List.Find
import WatScript.Proofs.Structure

/-!
# The lexemes of a source text

`lexemes text` is the sequence of words, operators, string literals and bracket characters of a text,
read off its characters from left to right in one go. Reading works otherwise: it lexes every run
again, bracket by bracket, and leaves what stands in brackets for later. `spell` is the sequence of
lexemes of a run on the way, where some characters are grouped already and others are not.

Finding the literals of a text leaves a run that spells its lexemes (`spell_extractLiterals`), and
lexing a run keeps what it spells (`spelled_group`).
-/

namespace WatScript

open List Atom Operator

variable {a : Atom} {c : Char} {lv : Level} {ms : List Mark} {out raw run : List Atom}
  {pieces : List Piece} {r : List Char}

/-- What a source text is made of, besides white space, separators and comments. -/
inductive Token where
  | word (w : String)
  | operator (o : String)
  | literal (text : String)
  | opening (pair : Bracket)
  | closing (pair : Bracket)
  deriving DecidableEq, Repr

/-! ## Lexing in one go -/

/-- The word that has been read, last character first. -/
def heldWord : List Char → List Token
  | [] => []
  | held => [.word (String.ofList held.reverse)]

/-- Cuts characters into words and operators, longest operator first; an operator character that begins
no operator stands for itself. `skip` characters belong to the operator found last. -/
def munchFrom : Nat → List Char → List Char → List Token
  | _, held, [] => heldWord held
  | skip + 1, held, _ :: cs => munchFrom skip held cs
  | 0, held, c :: cs =>
    if isOperatorChar c then
      match match? (c :: cs) with
      | some o => heldWord held ++ .operator o :: munchFrom (o.length - 1) [] cs
      | none => heldWord held ++ .operator (String.singleton c) :: munchFrom 0 [] cs
    else munchFrom 0 (c :: held) cs

/-- The words and operators of characters that hold nothing else. -/
def munch (cs : List Char) : List Token := munchFrom 0 [] cs

def Token.isBracket : Token → Bool
  | .opening _ | .closing _ => true
  | _ => false

theorem mem_munchFrom (skip : Nat) (held cs : List Char) :
    ∀ t ∈ munchFrom skip held cs, (∃ w, t = .word w) ∨ ∃ o, t = .operator o := by
  have hword : ∀ held, ∀ t ∈ heldWord held, (∃ w, t = .word w) ∨ ∃ o, t = .operator o := by
    intro held t ht
    cases held with
    | nil => cases ht
    | cons c held => exact .inl ⟨_, mem_singleton.1 ht⟩
  fun_induction munchFrom skip held cs with
  | case1 _ held => exact hword held
  | case2 _ _ _ _ ih => exact ih
  | case3 _ _ _ _ o _ ih | case4 _ _ _ _ _ ih =>
    exact forall_mem_append.2 ⟨hword _, forall_mem_cons.2 ⟨.inr ⟨_, rfl⟩, ih⟩⟩
  | case5 _ _ _ _ ih => exact ih

theorem mem_munch {cs t} (h : t ∈ munch cs) : (∃ w, t = .word w) ∨ ∃ o, t = .operator o :=
  mem_munchFrom 0 [] cs t h

/-- The token of a bracket. -/
def bracketToken? (c : Char) : Option Token :=
  Bracket.all.findSome? fun pair =>
    if c == pair.opener then some (.opening pair)
    else if c == pair.closer then some (.closing pair)
    else none

/-- Where the lexer stands: in a stretch of words and operators, in a quotation, or in a comment. What
has been read of a stretch or a quotation is listed last character first. -/
inductive LexMode where
  | plain (held : List Char)
  | quotation (escaped : Bool) (text : List Char)
  | lineComment
  | blockComment

/-- The lexemes of characters from a given mode on. -/
def lexFrom : LexMode → List Char → List Token
  | .plain held, [] => munch held.reverse
  | .quotation _ text, [] => [.literal (String.ofList text.reverse)]
  | .lineComment, [] | .blockComment, [] => []
  | .plain held, '/' :: '*' :: cs => munch held.reverse ++ lexFrom .blockComment cs
  | .plain held, '/' :: '/' :: cs => munch held.reverse ++ lexFrom .lineComment cs
  | .plain held, '"' :: cs => munch held.reverse ++ lexFrom (.quotation false []) cs
  | .plain held, c :: cs =>
    if isSpace c || isSeparator c then munch held.reverse ++ lexFrom (.plain []) cs
    else
      match bracketToken? c with
      | some t => munch held.reverse ++ t :: lexFrom (.plain []) cs
      | none => lexFrom (.plain (c :: held)) cs
  | .quotation true text, c :: cs => lexFrom (.quotation false (c :: text)) cs
  | .quotation false text, '\\' :: cs => lexFrom (.quotation true text) cs
  | .quotation false text, '"' :: cs =>
    .literal (String.ofList text.reverse) :: lexFrom (.plain []) cs
  | .quotation false text, c :: cs => lexFrom (.quotation false (c :: text)) cs
  | .lineComment, '\n' :: cs => lexFrom (.plain []) cs
  | .lineComment, _ :: cs => lexFrom .lineComment cs
  | .blockComment, '*' :: '/' :: cs => lexFrom (.plain []) cs
  | .blockComment, _ :: cs => lexFrom .blockComment cs

/-- The tokens of a text. -/
def lexemes (text : Text) : List Token := lexFrom (.plain []) text.toChars

/-! ## What unread runs spell -/

mutual

/-- The lexemes of an atom whose runs are unread. Separators, comments and single characters have
none. -/
def Atom.spelled : Atom → List Token
  | .unknown .. | .comment .. => []
  | .literal _ text => [.literal text]
  | .word _ w => [.word w]
  | .operator _ o => [.operator o]
  | .block _ raw _ _ => .opening .brace :: (spell [] raw ++ [.closing .brace])
  | .paren _ raw _ _ => .opening .round :: (spell [] raw ++ [.closing .round])
  | .list _ raw _ _ => .opening .square :: (spell [] raw ++ [.closing .square])
  | .item _ raw _ _ => spell [] raw
  | .call _ (.operator _ o) _ _ _ [left, right] => left.spelled ++ .operator o :: right.spelled
  | .call _ callee raw _ _ _ =>
    callee.spelled ++ .opening .round :: (spell [] raw ++ [.closing .round])
  | .access _ callee raw _ _ =>
    callee.spelled ++ .opening .square :: (spell [] raw ++ [.closing .square])
  | .clause _ name cond body => .word name :: (spelledOption cond ++ body.spelled)
  | .chain _ clauses => spelledAll clauses
  | .exprStmt _ raw _ _ => spell [] raw
  | .controlStmt _ head raw _ _ => .word head :: spell [] raw

def spelledOption : Option Atom → List Token
  | none => []
  | some a => a.spelled

def spelledAll : List Atom → List Token
  | [] => []
  | a :: rest => a.spelled ++ spelledAll rest

/-- The lexemes of a run; `held` are the characters of the open stretch, last one first. -/
def spell : List Char → List Atom → List Token
  | held, [] => munch held.reverse
  | held, .unknown _ c :: rest =>
    if isSpace c || isSeparator c then munch held.reverse ++ spell [] rest
    else
      match bracketToken? c with
      | some t => munch held.reverse ++ t :: spell [] rest
      | none => spell (c :: held) rest
  | held, a :: rest => munch held.reverse ++ (a.spelled ++ spell [] rest)

end

theorem spell_nil (held : List Char) : spell held [] = munch held.reverse := rfl

theorem spell_unknown (l : Level) (c : Char) (held : List Char) (rest : List Atom) :
    spell held (.unknown l c :: rest) =
      if isSpace c || isSeparator c then munch held.reverse ++ spell [] rest
      else (bracketToken? c).elim (spell (c :: held) rest) fun t =>
        munch held.reverse ++ t :: spell [] rest := by
  rw [spell]
  cases bracketToken? c <;> rfl

theorem spelledAll_eq (atoms : List Atom) : spelledAll atoms = atoms.flatMap spelled := by
  induction atoms with
  | nil => rfl
  | cons a rest ih =>
    have hcons : spelledAll (a :: rest) = a.spelled ++ spelledAll rest := rfl
    rw [hcons, ih, flatMap_cons]

/-! ## Runs and stretches -/

/-- The character is part of a word or an operator. -/
def inStretch (c : Char) : Bool := !(isSpace c || isSeparator c || (bracketToken? c).isSome)

/-- The atom is such a character. -/
def Atom.isStretch : Atom → Bool
  | .unknown _ c => inStretch c
  | _ => false

/-- The character of an atom. -/
@[simp] def Atom.char : Atom → Char
  | .unknown _ c => c
  | _ => ' '

section
variable {held : List Char} {rest run : List Atom}

theorem spell_atom (h : ∀ l c, a ≠ .unknown l c) (held : List Char) (rest : List Atom) :
    spell held (a :: rest) = munch held.reverse ++ (a.spelled ++ spell [] rest) := by
  cases a with
  | unknown l c => exact absurd rfl (h l c)
  | _ => rfl

theorem spell_nil_atom (h : ∀ l c, a ≠ .unknown l c) (rest : List Atom) :
    spell [] (a :: rest) = a.spelled ++ spell [] rest :=
  spell_atom h [] rest

theorem bracketToken?_opener (pair : Bracket) :
    bracketToken? pair.opener = some (.opening pair) := by
  cases pair <;> rfl

theorem bracketToken?_closer (pair : Bracket) :
    bracketToken? pair.closer = some (.closing pair) := by
  cases pair <;> rfl

theorem bracketToken?_eq_some {t} (h : bracketToken? c = some t) : ∃ pair : Bracket,
      (c = pair.opener ∧ t = .opening pair) ∨ (c = pair.closer ∧ t = .closing pair) := by
  obtain ⟨pair, -, hpair⟩ := exists_of_findSome?_eq_some h
  refine ⟨pair, ?_⟩
  split at hpair
  · rename_i ho
    exact .inl ⟨beq_iff_eq.1 ho, (Option.some.inj hpair).symm⟩
  · split at hpair
    · rename_i hc
      exact .inr ⟨beq_iff_eq.1 hc, (Option.some.inj hpair).symm⟩
    · cases hpair

theorem spell_stretch (h : a.isStretch = true) :
    spell held (a :: rest) = spell (a.char :: held) rest := by
  cases a with
  | unknown l c =>
    simp only [isStretch, inStretch, Bool.not_eq_true', Bool.or_eq_false_iff,
      Option.isSome_eq_false_iff, Option.isNone_iff_eq_none] at h
    rw [spell_unknown, if_neg (by simp [h.1]), h.2, char]
    rfl
  | _ => cases h

theorem spell_shown (h : a.isStretch = false) : ∃ ts, (a.isText = true → ∀ o, .operator o ∉ ts) ∧
      ∀ held rest, spell held (a :: rest) = munch held.reverse ++ (ts ++ spell [] rest) := by
  cases a with
  | unknown l c =>
    by_cases hsep : (isSpace c || isSeparator c) = true
    · exact ⟨[], by simp, fun held rest => by rw [spell_unknown, if_pos hsep, nil_append]⟩
    · cases hb : bracketToken? c with
      | none => simp [isStretch, inStretch, hb, hsep] at h
      | some t =>
        refine ⟨[t], fun _ o ho => ?_, fun held rest => by rw [spell_unknown, if_neg hsep, hb]; rfl⟩
        obtain rfl := mem_singleton.1 ho
        obtain ⟨pair, ⟨-, ht⟩ | ⟨-, ht⟩⟩ := bracketToken?_eq_some hb <;> cases ht
  | literal l text => exact ⟨[.literal text], by simp, spell_atom (by simp)⟩
  | comment => exact ⟨[], by simp, spell_atom (by simp)⟩
  | _ => exact ⟨_, by simp [isText], spell_atom (by simp)⟩

theorem spell_opener (pair : Bracket) (l : Level) (held : List Char) (rest : List Atom) :
    spell held (.unknown l pair.opener :: rest) =
      munch held.reverse ++ .opening pair :: spell [] rest := by
  rw [spell_unknown, if_neg (by cases pair <;> decide), bracketToken?_opener]
  rfl

theorem spell_closer (pair : Bracket) (l : Level) (held : List Char) (rest : List Atom) :
    spell held (.unknown l pair.closer :: rest) =
      munch held.reverse ++ .closing pair :: spell [] rest := by
  rw [spell_unknown, if_neg (by cases pair <;> decide), bracketToken?_closer]
  rfl

theorem spell_append_shown {a} (h : a.isStretch = false) (rest : List Atom) :
    ∀ (held : List Char) (run : List Atom),
      spell held (run ++ a :: rest) = spell held run ++ spell [] (a :: rest)
  | held, [] => by
    obtain ⟨ts, -, hts⟩ := spell_shown h
    rw [nil_append, hts, hts, spell_nil]
    rfl
  | held, b :: run => by
    cases hs : b.isStretch with
    | true => rw [cons_append, spell_stretch hs, spell_stretch hs, spell_append_shown h]
    | false =>
      obtain ⟨ts, -, hts⟩ := spell_shown hs
      rw [cons_append, hts, hts, spell_append_shown h]
      simp only [append_assoc]

theorem spell_append_closer (pair : Bracket) (l : Level) (rest : List Atom) (held : List Char)
    (run : List Atom) : spell held (run ++ .unknown l pair.closer :: rest) =
      spell held run ++ .closing pair :: spell [] rest := by
  rw [spell_append_shown (by cases pair <;> rfl), spell_closer]
  rfl

theorem Bracket.spelled_atom (pair : Bracket) (lv : Level) (raw : List Atom) :
    (pair.atom lv raw).spelled = .opening pair :: (spell [] raw ++ [.closing pair]) := by
  cases pair <;> rfl

theorem spell_grouped {pair} (h : Grouped pair lv run out)
    (held : List Char) : spell held out = spell held run := by
  induction h generalizing held with
  | nil => rfl
  | @keep a rest out _ _ ih =>
    by_cases hs : a.isStretch = true
    · rw [spell_stretch hs, spell_stretch hs, ih]
    · obtain ⟨ts, -, h⟩ := spell_shown (Bool.eq_false_iff.2 hs)
      rw [h, h, ih]
  | @wrap l l' raw rest out _ ih =>
    have hrun : spell held (.unknown l pair.opener :: raw ++ .unknown l' pair.closer :: rest) =
        munch held.reverse ++ .opening pair :: (spell [] raw ++ .closing pair :: spell [] rest) := by
      rw [cons_append, spell_opener, spell_append_closer]
    rw [hrun, spell_atom (by cases pair <;> simp [Bracket.atom]), Bracket.spelled_atom, ih]
    simp

theorem Atom.spelled_relevel (lv : Level) (a : Atom) : (a.relevel lv).spelled = a.spelled := by
  cases a with
  | call lv' callee raw resolved split args =>
    cases callee <;> rcases args with _ | ⟨_, _ | ⟨_, _ | _⟩⟩ <;> rfl
  | _ => rfl

theorem spell_relevel (lv : Level) : ∀ (held : List Char) (run : List Atom),
    spell held (relevel lv run) = spell held run
  | held, [] => rfl
  | held, a :: rest => by
    have ih := fun held => spell_relevel lv held rest
    rw [relevel, map_cons, ← relevel]
    cases a with
    | unknown l c =>
      rw [Atom.relevel, mapLevel, spell_unknown, spell_unknown, ih, ih]
    | _ =>
      rw [spell_atom (fun _ _ h => by cases h), spell_atom (fun _ _ h => by cases h),
        spelled_relevel, ih]

theorem spell_of_separators : ∀ {run}, (∀ a ∈ run, a.isLetter = false) →
    spell [] run = run.flatMap spelled
  | [], _ => rfl
  | a :: rest, h => by
    obtain ⟨ha, hrest⟩ := forall_mem_cons.1 h
    have ih := spell_of_separators hrest
    cases a with
    | unknown l c =>
      have hc : isSeparator c = true := by simpa [isLetter] using ha
      rw [spell_unknown, hc, Bool.or_true, if_pos rfl, ih, flatMap_cons]
      rfl
    | _ =>
      rw [spell_atom (by simp), ih, flatMap_cons]
      rfl

end

/-! ## One stretch -/

theorem isPrefixOf_append {p : Char → Bool} {l s : List Char} (hl : ∀ c ∈ l, p c = true)
    (hr : ∀ c, r.head? = some c → p c = false) : l.isPrefixOf (s ++ r) = l.isPrefixOf s := by
  induction l generalizing s with
  | nil => simp
  | cons x l ih =>
    obtain ⟨hx, hl⟩ := forall_mem_cons.1 hl
    cases s with
    | cons y s => simp only [cons_append, List.isPrefixOf, ih hl]
    | nil =>
      cases r with
      | nil => rfl
      | cons y r =>
        have hy := hr y rfl
        have hne : x ≠ y := by
          rintro rfl
          rw [hx] at hy
          cases hy
        simp [List.isPrefixOf, hne]

theorem Operator.match?_append {s : List Char}
    (hr : ∀ c, r.head? = some c → isOperatorChar c = false) : match? (s ++ r) = match? s := by
  have hall : ∀ o ∈ Operator.lexemes, o.toList.isPrefixOf (s ++ r) = o.toList.isPrefixOf s := by
    intro o ho
    refine isPrefixOf_append (fun c hc => ?_) hr
    exact any_eq_true.2 ⟨o, ho, by simpa using hc⟩
  unfold match?
  exact find?_congr hall

theorem munchFrom_cutOperators {skip} (h : cutOperators lv skip ms = .ok pieces)
    (hms : ∀ m ∈ ms, isOperatorChar m.c = true) (hskip : skip ≤ ms.length)
    (hr : ∀ c, r.head? = some c → isOperatorChar c = false) :
    munchFrom skip [] (ms.map Mark.c ++ r) =
      (atomsOf pieces).flatMap spelled ++ munchFrom 0 [] r := by
  fun_induction cutOperators lv skip ms generalizing pieces with
  | case1 skip =>
    cases h
    obtain rfl := Nat.le_zero.1 hskip
    rfl
  | case2 skip m rest ih =>
    exact ih h (forall_mem_cons.1 hms).2 (by simpa using hskip)
  | case3 => cases h
  | case4 m rest o ho ih =>
    obtain ⟨ps, hps, h⟩ := bind_ok h
    cases h
    obtain ⟨hm, hms⟩ := forall_mem_cons.1 hms
    have hlen : o.length - 1 ≤ rest.length := by
      have hp : o.toList <+: (m :: rest).map Mark.c := by
        simpa using find?_some ho
      have := hp.length_le
      simp only [map_cons, length_cons, length_map, String.length_toList] at this
      omega
    have hmatch : match? (m.c :: (rest.map Mark.c ++ r)) = some o := by
      rw [← cons_append, match?_append hr]
      exact ho
    rw [map_cons, cons_append, munchFrom, if_pos hm, hmatch]
    simp only [heldWord, nil_append, ih hps hms hlen, atomsOf_made, flatMap_cons,
      spelled, cons_append]

theorem munchFrom_operator (hc : isOperatorChar c = true) (held cs : List Char) :
    munchFrom 0 held (c :: cs) = heldWord held ++ munchFrom 0 [] (c :: cs) := by
  rw [munchFrom, munchFrom, if_pos hc, if_pos hc]
  split <;> rfl

theorem munchFrom_word (hc : isOperatorChar c = false) (held cs : List Char) :
    munchFrom 0 held (c :: cs) = munchFrom 0 (c :: held) cs := by
  rw [munchFrom, if_neg (by simp [hc])]

/-- The tokens of an open stretch and what follows it. -/
def munchOpen : Option (Bool × List Mark) → List Char → List Token
  | none, cs => munchFrom 0 [] cs
  | some (true, held), cs => munchFrom 0 [] (held.reverse.map Mark.c ++ cs)
  | some (false, held), cs => munchFrom 0 (held.map Mark.c) cs

theorem munchOpen_cutStretch {isOp held}
    (h : cutStretch lv (isOp, held.reverse) = .ok pieces) (hne : held ≠ [])
    (hheld : ∀ m ∈ held, isOperatorChar m.c = isOp)
    (hr : ∀ c, r.head? = some c → isOperatorChar c = !isOp) : munchOpen (some (isOp, held)) r =
      (atomsOf pieces).flatMap spelled ++ munchFrom 0 [] r := by
  cases isOp with
  | true =>
    exact munchFrom_cutOperators h (fun m hm => hheld m (mem_reverse.1 hm)) (Nat.zero_le _) hr
  | false =>
    cases h
    have hword : heldWord (held.map Mark.c) = [.word (markText held.reverse)] := by
      cases held with
      | nil => exact absurd rfl hne
      | cons m held => simp [heldWord, markText]
    have hr' : munchFrom 0 (held.map Mark.c) r = heldWord (held.map Mark.c) ++ munchFrom 0 [] r := by
      cases r with
      | nil => simp [munchFrom, heldWord]
      | cons c r => exact munchFrom_operator (hr c rfl) ..
    simp only [munchOpen, hr', hword, atomsOf_made, atomsOf_nil, flatMap_cons, flatMap_nil,
      spelled, append_nil]

theorem munchOpen_none_cons (m : Mark) (cs : List Char) :
    munchOpen none (m.c :: cs) = munchOpen (some (isOperatorChar m.c, [m])) cs := by
  cases hm : isOperatorChar m.c with
  | true => rfl
  | false => exact munchFrom_word hm ..

theorem munchOpen_some_cons {isOp m} (hm : isOperatorChar m.c = isOp)
    (held : List Mark) (cs : List Char) :
    munchOpen (some (isOp, held)) (m.c :: cs) = munchOpen (some (isOp, m :: held)) cs := by
  cases isOp with
  | true => simp [munchOpen]
  | false => exact munchFrom_word hm ..

theorem munchOpen_splitMarks {isOpen pieces} (h : (splitMarks isOpen ms).mapM (cutStretch lv) = .ok pieces)
    (hopen : ∀ p, isOpen = some p → p.2 ≠ [] ∧ ∀ m ∈ p.2, isOperatorChar m.c = p.1) :
    munchOpen isOpen (ms.map Mark.c) = (atomsOf pieces.flatten).flatMap spelled := by
  fun_induction splitMarks isOpen ms generalizing pieces with
  | case1 => cases h; rfl
  | case2 isOp held =>
    obtain ⟨hne, hheld⟩ := hopen _ rfl
    obtain ⟨ps, qs, hps, hqs, rfl⟩ := mapM_cons_ok h
    cases hqs
    simpa [munchFrom, heldWord] using munchOpen_cutStretch hps hne hheld (r := []) (by simp)
  | case3 m rest ih =>
    rw [← ih h (by rintro _ ⟨⟩; simp)]
    exact munchOpen_none_cons ..
  | case4 isOp held m rest hm ih =>
    have hm : isOperatorChar m.c = isOp := by simpa using hm
    obtain ⟨-, hheld⟩ := hopen _ rfl
    rw [← ih h (by rintro _ ⟨⟩; exact ⟨by simp, forall_mem_cons.2 ⟨hm, hheld⟩⟩)]
    exact munchOpen_some_cons hm ..
  | case5 isOp held m rest hm ih =>
    have hm : isOperatorChar m.c = !isOp := Bool.eq_not.2 (by simpa using hm)
    obtain ⟨hne, hheld⟩ := hopen _ rfl
    obtain ⟨ps, qs, hps, hqs, rfl⟩ := mapM_cons_ok h
    have hrest := ih hqs (by rintro _ ⟨⟩; simpa using hm)
    have hopen' : munchFrom 0 [] (m.c :: rest.map Mark.c) =
        munchOpen (some (!isOp, [m])) (rest.map Mark.c) := hm ▸ munchOpen_none_cons m _
    rw [map_cons, munchOpen_cutStretch hps hne hheld (by simpa using hm), hopen', hrest,
      flatten_cons, atomsOf_append, flatMap_append]

theorem spelled_cutWord (h : cutWord lv ms = .ok pieces) :
    (atomsOf pieces).flatMap spelled = munch (ms.map Mark.c) := by
  obtain ⟨ps, hps, h⟩ := bind_ok h
  cases h
  exact (munchOpen_splitMarks hps (by simp)).symm

/-! ## The passes -/

theorem bracketToken?_of_marks {l}
    (h : ∀ pair : Bracket, pair.marks (.unknown l c) = false) : bracketToken? c = none := by
  simp only [Bracket.marks, Bracket.has, Bool.or_eq_false_iff, beq_eq_false_iff_ne] at h
  simp [bracketToken?, h]

theorem spell_scanWords {held} (h : scanWords lv held run = .ok pieces) (hb : NoBrackets run) :
    (atomsOf pieces).flatMap spelled = spell (held.map Mark.c) run := by
  fun_induction scanWords lv held run generalizing pieces with
  | case1 held =>
    rw [spelled_cutWord h, spell_nil, map_reverse]
  | case2 held l c rest hc ih =>
    obtain ⟨word, hword, h⟩ := bind_ok h
    obtain ⟨ps, hps, h⟩ := bind_ok h
    cases h
    rw [spell_unknown, if_pos (by simp [hc]), ← map_reverse, ← spelled_cutWord hword,
      ← map_nil, ← ih hps hb.tail]
    simp
  | case3 held l c rest _ hsep ih =>
    obtain ⟨word, hword, h⟩ := bind_ok h
    obtain ⟨ps, hps, h⟩ := bind_ok h
    cases h
    rw [spell_unknown, if_pos (by simp [hsep]), ← map_reverse, ← spelled_cutWord hword,
      ← map_nil, ← ih hps hb.tail]
    simp [spelled]
  | case4 held l c rest hc hsep ih =>
    have hnone : bracketToken? c = none :=
      bracketToken?_of_marks fun pair => hb pair _ mem_cons_self
    rw [spell_unknown, if_neg (by simp [hc, hsep]), hnone]
    exact ih h hb.tail
  | case5 held a rest hne ih =>
    obtain ⟨word, hword, h⟩ := bind_ok h
    obtain ⟨ps, hps, h⟩ := bind_ok h
    cases h
    rw [spell_atom hne, ← map_reverse, ← spelled_cutWord hword, ← map_nil,
      ← ih hps hb.tail]
    simp

theorem spell_tokenize (h : tokenize lv run = .ok out)
    (hb : NoBrackets run) : out.flatMap spelled = spell [] run := by
  obtain ⟨pieces, hp, rfl⟩ := map_ok h
  exact spell_scanWords hp hb

theorem spelled_groupBrackets_tokenize (h : groupBrackets lv run >>= tokenize lv = .ok out) :
    out.flatMap spelled = spell [] run := by
  obtain ⟨atoms, ha, h⟩ := bind_ok h
  obtain ⟨r₁, r₂, h₁, h₂, h₃⟩ := groupBrackets_ok ha
  rw [spell_tokenize h (noBrackets_groupBrackets ha), spell_grouped h₃, spell_grouped h₂,
    spell_grouped h₁]

/-- The mode of the lexer in a state of the literal pass. -/
@[simp] def LiteralState.mode (held text : List Char) : LiteralState → LexMode
  | .outside => .plain held
  | .quotation escaped => .quotation escaped text
  | .lineComment => .lineComment
  | .blockComment => .blockComment

/-- The stretch that is held outside of literals. -/
@[simp] def LiteralState.stretch (held : List Char) : LiteralState → List Char
  | .outside => held
  | _ => []

theorem spell_of_head (h : ∀ l c t, run ≠ .unknown l c :: t) (held : List Char) :
    spell held run = munch held.reverse ++ spell [] run := by
  cases run with
  | nil => rw [spell_nil, spell_nil]; simp [munch, munchFrom, heldWord]
  | cons a rest =>
    have ha : ∀ l c, a ≠ .unknown l c := fun l c heq => h l c rest (by rw [heq])
    rw [spell_atom ha, spell_atom ha]
    rfl

theorem lexFrom_plain_cons {cs} (hq : c ≠ '"')
    (hblock : ∀ cs', c = '/' → cs ≠ '*' :: cs') (hline : ∀ cs', c = '/' → cs ≠ '/' :: cs')
    (held : List Char) : lexFrom (.plain held) (c :: cs) =
      if isSpace c || isSeparator c then munch held.reverse ++ lexFrom (.plain []) cs else
        match bracketToken? c with
        | some t => munch held.reverse ++ t :: lexFrom (.plain []) cs
        | none => lexFrom (.plain (c :: held)) cs := by
  rw [lexFrom]
  · exact fun cs' h h' => hblock cs' h h'
  · exact fun cs' h h' => hline cs' h h'
  · exact hq

theorem spell_scanLiterals_inside {st seen text} (hst : st ≠ .outside)
    (h : scanLiterals lv st seen text run = .ok pieces) (held : List Char) :
    spell held (atomsOf pieces) = munch held.reverse ++ spell [] (atomsOf pieces) :=
  spell_of_head (fun _ _ _ ht => hst (head_of_scanLiterals h ht).1) held

theorem lexFrom_scanLiterals {st seen text} (h : scanLiterals lv st seen text run = .ok pieces)
    (hrun : ∀ a ∈ run, ∃ c, a = .unknown lv c) (held : List Char) :
    lexFrom (st.mode held text) (run.map char) = spell (st.stretch held) (atomsOf pieces) := by
  fun_induction scanLiterals lv st seen text run generalizing pieces held with
  | case1 => cases h; simp [lexFrom, spell]
  | case2 | case3 => cases h
  | case4 => cases h; simp [lexFrom, spell, commentPiece, spelled, munch, munchFrom, heldWord]
  | case5 _ _ l l' rest ih | case6 _ _ l l' rest ih =>
    have hrest := (forall_mem_cons.1 (forall_mem_cons.1 hrun).2).2
    rw [LiteralState.stretch, spell_scanLiterals_inside (by simp) h]
    simpa [lexFrom] using ih h hrest []
  | case7 _ _ l rest ih =>
    rw [LiteralState.stretch, spell_scanLiterals_inside (by simp) h]
    simpa [lexFrom] using ih h (forall_mem_cons.1 hrun).2 []
  | case8 _ _ a rest hblock hline hquote ih =>
    -- outside of literals the character joins the stretch that is held, or ends it
    obtain ⟨ps, hps, h⟩ := bind_ok h
    cases h
    obtain ⟨⟨c, rfl⟩, hrest⟩ := forall_mem_cons.1 hrun
    have ih : ∀ held, _ = _ := fun held => ih hps hrest held
    simp only [LiteralState.mode, LiteralState.stretch] at ih
    simp only [map_cons, char, LiteralState.mode, LiteralState.stretch, atomsOf_kept]
    rw [lexFrom_plain_cons, spell, ih, ih]
    · rintro rfl
      exact hquote lv rfl
    · rintro cs rfl heq
      obtain ⟨b, rest', rfl, hb, -⟩ := map_eq_cons_iff.1 heq
      obtain ⟨c, rfl⟩ := hrest b mem_cons_self
      obtain rfl : c = '*' := hb
      exact hblock lv lv rest' rfl rfl
    · rintro cs rfl heq
      obtain ⟨b, rest', rfl, hb, -⟩ := map_eq_cons_iff.1 heq
      obtain ⟨c, rfl⟩ := hrest b mem_cons_self
      obtain rfl : c = '/' := hb
      exact hline lv lv rest' rfl rfl
  | case9 _ _ l c rest ih => simpa [lexFrom] using ih h (forall_mem_cons.1 hrun).2 []
  | case10 _ _ l rest ih => simpa [lexFrom] using ih h (forall_mem_cons.1 hrun).2 []
  | case11 _ _ l rest ih =>
    obtain ⟨ps, hps, h⟩ := bind_ok h
    cases h
    have := ih hps (forall_mem_cons.1 hrun).2 []
    simpa [lexFrom, quotationPiece, spell_nil_atom, spelled] using this
  | case12 _ _ l c rest hesc hq ih =>
    have := ih h (forall_mem_cons.1 hrun).2 []
    simpa [lexFrom, hesc, hq] using this
  | case13 _ _ l rest ih =>
    obtain ⟨ps, hps, h⟩ := bind_ok h
    cases h
    have := ih hps (forall_mem_cons.1 hrun).2 []
    simpa [lexFrom, commentPiece, spell_nil_atom, spelled] using this
  | case14 _ _ l c rest hn ih =>
    have := ih h (forall_mem_cons.1 hrun).2 []
    simpa [lexFrom, hn] using this
  | case15 _ _ l l' rest ih =>
    obtain ⟨ps, hps, h⟩ := bind_ok h
    cases h
    have := ih hps (forall_mem_cons.1 (forall_mem_cons.1 hrun).2).2 []
    simpa [lexFrom, commentPiece, spell_nil_atom, spelled] using this
  | case16 _ _ l c rest hend ih =>
    obtain ⟨-, hrest⟩ := forall_mem_cons.1 hrun
    have := ih h hrest []
    simp only [map_cons, char, LiteralState.mode, LiteralState.stretch] at this ⊢
    rw [lexFrom, this]
    rintro cs rfl heq
    obtain ⟨b, rest', rfl, hb, -⟩ := map_eq_cons_iff.1 heq
    obtain ⟨c, rfl⟩ := hrest b mem_cons_self
    obtain rfl : c = '/' := hb
    exact hend lv rest' rfl rfl
  | case17 => simp at h

theorem spell_literalsOf {chars} (h : literalsOf chars = .ok raw) :
    spell [] raw = lexFrom (.plain []) chars := by
  obtain ⟨pieces, hp, rfl⟩ := map_ok h
  have hchars : ∀ a ∈ chars.map (Atom.unknown .top), ∃ c, a = .unknown .top c := fun a ha => by
    obtain ⟨c, -, rfl⟩ := mem_map.1 ha
    exact ⟨c, rfl⟩
  have htext : (chars.map (Atom.unknown .top)).map char = chars := by
    simp [Function.comp_def]
  have hlex := lexFrom_scanLiterals hp hchars []
  rw [htext] at hlex
  exact hlex.symm

/-- Finding the literals of a text keeps its lexemes. -/
theorem spell_extractLiterals {text}
    (h : extractLiterals .top (explode .top text) = .ok raw) : spell [] raw = lexemes text :=
  spell_literalsOf h

theorem Tokens.spell_eq (h : Tokens lv run) : spell [] run = run.flatMap spelled :=
  spell_of_separators fun a ha => (h a ha).isLetter

/-- Lexing a run keeps what it spells. -/
theorem spelled_group (hlv : lv.tag = 0) (hraw : Readable lv raw)
    (h : group lv (relevel lv raw) = .ok out) : out.flatMap spelled = spell [] raw := by
  cases hraw with
  | raw hraw =>
    rw [group, extractLiterals_of_literalFree lv hraw.literalFree.relevel] at h
    rw [spelled_groupBrackets_tokenize h, spell_relevel]
  | tokens ht =>
    rw [ht.group_eq hlv] at h
    cases h
    exact ht.spell_eq.symm

/-! ## The characters of words -/

section
variable {w : String}

theorem mem_heldWord {held} (h : Token.word w ∈ heldWord held) : ∀ c ∈ w.toList, c ∈ held := by
  cases held with
  | nil => cases h
  | cons d held =>
    cases mem_singleton.1 h
    intro c hc
    rw [String.toList_ofList] at hc
    exact mem_reverse.1 hc

theorem word_mem_munchFrom (skip : Nat) (held cs : List Char) (h : Token.word w ∈ munchFrom skip held cs) :
    ∀ c ∈ w.toList, c ∈ held ∨ c ∈ cs := by
  fun_induction munchFrom skip held cs with
  | case1 _ held => exact fun c hc => .inl (mem_heldWord h c hc)
  | case2 skip held d cs ih =>
    exact fun c hc => (ih h c hc).imp_right (mem_cons_of_mem _)
  | case3 held d cs hd o ho ih | case4 held d cs hd ho ih =>
    rcases mem_append.1 h with h | h
    · exact fun c hc => .inl (mem_heldWord h c hc)
    rcases mem_cons.1 h with h | h
    · cases h
    · intro c hc
      have hrest := (ih h c hc).resolve_left not_mem_nil
      exact .inr (mem_cons_of_mem _ hrest)
  | case5 held d cs hd ih =>
    intro c hc
    rcases ih h c hc with hc | hc
    · rcases mem_cons.1 hc with rfl | hc
      · exact .inr mem_cons_self
      · exact .inl hc
    · exact .inr (mem_cons_of_mem _ hc)

theorem word_mem_munch {held : List Char} (h : Token.word w ∈ munch held.reverse) :
    ∀ c ∈ w.toList, c ∈ held := by
  intro c hc
  have hmem := word_mem_munchFrom 0 [] held.reverse h c hc
  simpa using hmem

/-- The stretch that is held. -/
def LexMode.stretch : LexMode → List Char
  | .plain held => held
  | _ => []

/-- What holds of the characters read so far, and of every one to come that ends no word, holds of the
characters of each word. -/
theorem word_mem_lexFrom {P : Char → Prop} (mode : LexMode) (cs : List Char)
    (hheld : ∀ c ∈ mode.stretch, P c)
    (hcs : ∀ c ∈ cs, isSpace c = false → isSeparator c = false → P c)
    (h : Token.word w ∈ lexFrom mode cs) : ∀ c ∈ w.toList, P c := by
  have htail : ∀ {d : Char} {cs : List Char},
      (∀ c ∈ d :: cs, isSpace c = false → isSeparator c = false → P c) →
      ∀ c ∈ cs, isSpace c = false → isSeparator c = false → P c :=
    fun h c hc => h c (mem_cons_of_mem _ hc)
  -- where a stretch ends, a word is one of the stretch or comes later
  have hcut : ∀ {held : List Char} {rest : List Token}, (∀ c ∈ held, P c) →
      Token.word w ∈ munch held.reverse ++ rest → (Token.word w ∈ rest → ∀ c ∈ w.toList, P c) →
      ∀ c ∈ w.toList, P c := by
    intro held rest hheld h hrest
    rcases mem_append.1 h with h | h
    · exact fun c hc => hheld c (word_mem_munch h c hc)
    · exact hrest h
  have hnil : ∀ c ∈ ([] : List Char), P c := forall_mem_nil _
  fun_induction lexFrom mode cs with
  | case1 held => exact fun c hc => hheld c (word_mem_munch h c hc)
  | case2 | case3 | case4 => simp at h
  | case5 held cs ih | case6 held cs ih => exact hcut hheld h (ih hnil (htail (htail hcs)))
  | case7 held cs ih | case8 held c cs _ _ _ _ ih => exact hcut hheld h (ih hnil (htail hcs))
  | case9 held c cs _ _ _ _ t ht ih =>
    refine hcut hheld h fun h => ?_
    rcases mem_cons.1 h with rfl | h
    · obtain ⟨pair, hpair⟩ := bracketToken?_eq_some ht
      rcases hpair with ⟨-, hw⟩ | ⟨-, hw⟩ <;> cases hw
    · exact ih hnil (htail hcs) h
  | case10 held c cs _ _ _ hends _ ih =>
    have hc : isSpace c = false ∧ isSeparator c = false := by simpa using hends
    exact ih (forall_mem_cons.2 ⟨hcs c mem_cons_self hc.1 hc.2, hheld⟩) (htail hcs) h
  | case11 text c cs ih | case14 text c cs _ _ ih => exact ih hnil (htail hcs) h
  | case12 text cs ih | case15 cs ih | case16 c cs _ ih | case18 c cs _ ih =>
    exact ih hnil (htail hcs) h
  | case13 text cs ih =>
    rcases mem_cons.1 h with h | h
    · cases h
    · exact ih hnil (htail hcs) h
  | case17 cs ih => exact ih hnil (htail (htail hcs)) h

theorem word_mem_lexemes {text : Text} (h : Token.word w ∈ lexemes text) :
    ∀ c ∈ w.toList, c ∈ text.toChars ∧ isSpace c = false ∧ isSeparator c = false :=
  word_mem_lexFrom (.plain []) text.toChars (forall_mem_nil _)
    (fun _ hc hspace hsep => ⟨hc, hspace, hsep⟩) h

end

end WatScript
