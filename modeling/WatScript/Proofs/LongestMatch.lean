import Mathlib.Data.List.SplitBy
import WatScript.Proofs.Relexing

/-!
# Longest match

The word pass on a run of characters. It fails exactly if some block of equal characters `&` or `|`
that cannot be extended has odd length, since these two stand in lexemes only in pairs (`hasLone`).
Otherwise it cuts the run into pieces that keep every character but white space; each operator is
the longest lexeme at its place, and words end only where a character of another kind follows
(`Piece.Fits`). The main result is `tokenize_takes_longest_match`.
-/

namespace WatScript

open List Operator

/-! ## Paired characters -/

/-- The character comes in pairs only. -/
def isPaired (c : Char) : Bool := c == '&' || c == '|'

/-- Whether some paired character is without a partner when each is taken together with an equal one
right behind it. The first argument is the one that waits for its partner. -/
def hasLone : Option Char → List Char → Bool
  | none, [] => false
  | some _, [] => true
  | none, c :: cs => hasLone (if isPaired c then some c else none) cs
  | some d, c :: cs => if c == d then hasLone none cs else true

/-- A block of equal paired characters of odd length. -/
def isOddBlock (block : List Char) : Bool := block.head?.any isPaired && block.length % 2 == 1

/-- Among the longest blocks of equal characters, one of paired characters has odd length. -/
def HasOddBlock (cs : List Char) : Prop :=
  ∃ block ∈ cs.splitBy (· == ·), isOddBlock block = true

theorem hasLone_cons_of_not_paired {c} (h : isPaired c = false) (cs : List Char) :
    hasLone none (c :: cs) = hasLone none cs := by
  simp [hasLone, h]

theorem hasLone_cons_of_paired {c} (h : isPaired c = true) {cs}
    (hcs : cs.head? ≠ some c) : hasLone none (c :: cs) = true := by
  cases cs with
  | nil => simp [hasLone, h]
  | cons d cs =>
    have hne : d ≠ c := by simpa using hcs
    simp [hasLone, h, hne]

theorem hasLone_append {cs} (h : ∀ c ∈ cs, isPaired c = false) (rest : List Char) :
    hasLone none (cs ++ rest) = hasLone none rest := by
  induction cs with
  | nil => rfl
  | cons c cs ih =>
    obtain ⟨hc, hcs⟩ := forall_mem_cons.1 h
    rw [cons_append, hasLone_cons_of_not_paired hc, ih hcs]

theorem hasLone_replicate {c rest} (hrest : rest.head? ≠ some c) :
    ∀ n, hasLone none (replicate n c ++ rest) = (isPaired c && n % 2 == 1 || hasLone none rest)
  | 0 => by simp
  | 1 => by
    cases hc : isPaired c with
    | false => simp [hasLone_cons_of_not_paired hc]
    | true => simp [hasLone_cons_of_paired hc hrest]
  | n + 2 => by
    have hpair : hasLone none (replicate (n + 2) c ++ rest) =
        hasLone none (replicate n c ++ rest) := by
      cases hc : isPaired c <;> simp [replicate_succ, hasLone, hc]
    rw [hpair, hasLone_replicate hrest n, Nat.add_mod_right]

theorem hasLone_flatten : ∀ {blocks : List (List Char)}, [] ∉ blocks →
    (∀ block ∈ blocks, block.IsChain fun c d => (c == d) = true) → (blocks.IsChain fun block next =>
      ∃ hb hn, (block.getLast hb == next.head hn) = false) →
    hasLone none blocks.flatten = blocks.any isOddBlock
  | [], _, _, _ => rfl
  | [] :: _, hnil, _, _ => absurd mem_cons_self hnil
  | (c :: block) :: blocks, hnil, hblocks, hchain => by
    obtain ⟨hblock, htail⟩ := forall_mem_cons.1 hblocks
    obtain ⟨n, rfl⟩ : ∃ n, block = replicate n c :=
      ⟨_, isChain_cons_eq_iff_eq_replicate.1 (by simpa using hblock)⟩
    have hlast : (c :: replicate n c).getLast (cons_ne_nil _ _) = c :=
      @eq_of_mem_replicate _ _ _ (n + 1) (getLast_mem _)
    have hhead : blocks.flatten.head? ≠ some c := by
      cases blocks with
      | nil => simp
      | cons next blocks =>
        obtain ⟨_, hn, hdiff⟩ := (isChain_cons_cons.1 hchain).1
        rw [hlast] at hdiff
        obtain ⟨d, next, rfl⟩ := exists_cons_of_ne_nil hn
        rintro ⟨⟩
        simp at hdiff
    rw [flatten_cons, ← replicate_succ, hasLone_replicate hhead,
      hasLone_flatten (fun h => hnil (mem_cons_of_mem _ h)) htail hchain.tail, any_cons]
    simp [isOddBlock, replicate_succ]

theorem hasLone_iff (cs : List Char) : hasLone none cs = true ↔ HasOddBlock cs := by
  have h := hasLone_flatten (nil_notMem_splitBy (· == ·) cs)
    (fun _ => isChain_of_mem_splitBy) (isChain_getLast_head_splitBy _ cs)
  rw [flatten_splitBy] at h
  rw [h, any_eq_true]
  rfl

/-! ## Lexemes -/

/-- The lexeme is the longest one that begins the operator characters in front of `cs`. -/
structure IsLongest (o : String) (cs : List Char) : Prop where
  listed : o ∈ Operator.lexemes
  begins : o.toList <+: cs.takeWhile isOperatorChar
  longest : ∀ o' ∈ Operator.lexemes, o'.toList <+: cs.takeWhile isOperatorChar →
    o'.length ≤ o.length

theorem lexemes_sorted : Operator.lexemes.Pairwise fun o o' => o'.length ≤ o.length := by decide

theorem isOperatorChar_of_mem {o} (ho : o ∈ Operator.lexemes) {c}
    (hc : c ∈ o.toList) : isOperatorChar c = true :=
  any_eq_true.2 ⟨o, ho, by simpa using hc⟩

theorem isLongest_of_match? {cs rest o} (h : match? cs = some o)
    (hcs : ∀ c ∈ cs, isOperatorChar c = true)
    (hrest : ∀ c, rest.head? = some c → isOperatorChar c = false) : IsLongest o (cs ++ rest) := by
  have hrun : (cs ++ rest).takeWhile isOperatorChar = cs := by
    rw [takeWhile_append_of_pos hcs]
    cases rest with
    | nil => simp
    | cons c rest => simp [hrest c rfl]
  obtain ⟨hbegins, before, after, hlex, hbefore⟩ := find?_eq_some_iff_append.1 h
  refine ⟨mem_of_find?_eq_some h, ?_, fun o' ho' hbegins' => ?_⟩ <;> rw [hrun] at *
  · exact isPrefixOf_iff_prefix.1 hbegins
  · rw [hlex] at ho'
    -- a lexeme listed before the one found does not begin the characters
    rcases mem_append.1 ho' with hm | hm
    · simpa [ isPrefixOf_iff_prefix.2 hbegins'] using hbefore o' hm
    · have hsorted := (pairwise_append.1 (hlex ▸ lexemes_sorted)).2.1
      rcases mem_cons.1 hm with rfl | hm
      · exact Nat.le_refl _
      · exact (pairwise_cons.1 hsorted).1 o' hm

theorem hasLone_lexeme {o} (ho : o ∈ Operator.lexemes) (rest : List Char) :
    hasLone none (o.toList ++ rest) = hasLone none rest := by
  have hall : ∀ o ∈ Operator.lexemes, ∀ rest,
      hasLone none (o.toList ++ rest) = hasLone none rest := by
    simp [Operator.lexemes, table, hasLone, isPaired]
  exact hall o ho rest

/-- Operator characters without a lexeme begin with a paired character that stands alone. -/
theorem hasLone_of_match?_eq_none {c cs} (hc : isOperatorChar c = true)
    (h : match? (c :: cs) = none) : hasLone none (c :: cs) = true := by
  have hall : ∀ o ∈ Operator.lexemes, o.toList.all fun c =>
      isPaired c && Operator.lexemes.contains (String.ofList [c, c]) ||
        (Operator.find? (String.singleton c)).isSome := by decide
  obtain ⟨o, ho, hmem⟩ := any_eq_true.1 hc
  have hcase := all_eq_true.1 (hall o ho) c (by simpa using hmem)
  rw [Bool.or_eq_true, Bool.and_eq_true, contains_iff_mem] at hcase
  rcases hcase with ⟨hpaired, hdouble⟩ | hsingle
  · refine hasLone_cons_of_paired hpaired fun hhead => ?_
    obtain ⟨cs, rfl⟩ := head?_eq_some_iff.1 hhead
    simpa using find?_eq_none.1 h _ hdouble
  · exact absurd h (match?_of_find? hsingle cs)

/-! ## Pieces -/

/-- The characters that an atom of the word pass stands for. -/
def Atom.chars : Atom → List Char
  | .unknown _ c => [c]
  | .word _ s | .operator _ s => s.toList
  | _ => []

/-- The characters that the pieces were cut from. -/
def charsOf (pieces : List Piece) : List Char := (pieces.flatMap Piece.stretch).flatMap Atom.chars

@[simp] theorem chars_map_atom (ms : List Mark) :
    (ms.map Mark.atom).flatMap Atom.chars = ms.map Mark.c := by
  induction ms with
  | nil => rfl
  | cons m ms ih => rw [map_cons, flatMap_cons, ih]; rfl

theorem charsOf_of_stretches {pieces : List Piece} {ms : List Mark}
    (h : pieces.flatMap Piece.stretch = ms.map Mark.atom) : charsOf pieces = ms.map Mark.c := by
  rw [charsOf, h, chars_map_atom]

@[simp] theorem charsOf_cons (p : Piece) (ps : List Piece) :
    charsOf (p :: ps) = p.stretch.flatMap Atom.chars ++ charsOf ps := by
  simp [charsOf]

@[simp] theorem charsOf_append (ps qs : List Piece) :
    charsOf (ps ++ qs) = charsOf ps ++ charsOf qs := by
  simp [charsOf]

/-- The kind of stretch a character stands in: operators, or a word. White space and separators
stand in none. -/
def stretchKind (c : Char) : Option Bool :=
  if isSpace c || isSeparator c then none else some (isOperatorChar c)

section
variable {c : Char}

theorem stretchKind_of_ne (h : stretchKind c ≠ none) : stretchKind c = some (isOperatorChar c) := by
  simp only [stretchKind] at h ⊢
  split <;> simp_all

theorem isSpace_of_kind (h : stretchKind c ≠ none) : isSpace c = false := by
  simp only [stretchKind] at h
  split at h <;> simp_all

theorem isOperatorChar_of_kind (h : stretchKind c ≠ some true) : isOperatorChar c = false := by
  simp only [stretchKind] at h
  split at h
  next hsep =>
    rcases Bool.or_eq_true_iff.1 hsep with hsep | hsep
    · exact isOperatorChar_of_space hsep
    · exact isOperatorChar_of_separator hsep
  next => simpa using h

end

/-- The piece can stand in front of the characters `rest`: it keeps what is not white space, its
operator is the longest and its word cannot be extended. -/
inductive Piece.Fits (lv : Level) : Piece → List Char → Prop
  | space {m : Mark} {rest : List Char} : isSpace m.c = true → Fits lv (.dropped m.atom) rest
  | separator {m : Mark} {rest : List Char} : isSpace m.c = false → isSeparator m.c = true →
      Fits lv (.kept m.atom) rest
  | word {ms : List Mark} {rest : List Char} : ms ≠ [] → (∀ m ∈ ms, stretchKind m.c = some false) →
      (∀ c, rest.head? = some c → stretchKind c ≠ some false) →
      Fits lv (.made (ms.map Mark.atom) (.word lv (markText ms))) rest
  | operator {ms : List Mark} {o : String} {rest : List Char} : ms.map Mark.c = o.toList →
      IsLongest o (o.toList ++ rest) → Fits lv (.made (ms.map Mark.atom) (.operator lv o)) rest

/-- Every piece can stand where it does when `rest` follows the last one. -/
def Laid (lv : Level) (rest : List Char) : List Piece → Prop
  | [] => True
  | p :: ps => p.Fits lv (charsOf ps ++ rest) ∧ Laid lv rest ps

section
variable {lv : Level} {rest : List Char}

theorem Laid.append {ps qs} (hps : Laid lv (charsOf qs ++ rest) ps)
    (hqs : Laid lv rest qs) : Laid lv rest (ps ++ qs) := by
  induction ps with
  | nil => exact hqs
  | cons p ps ih =>
    have hp := hps.1
    rw [← append_assoc, ← charsOf_append] at hp
    exact ⟨hp, ih hps.2⟩

theorem Laid.of_suffix {p : Piece} {after ps : List Piece} (h : Laid lv rest ps)
    (hs : p :: after <:+ ps) : p.Fits lv (charsOf after ++ rest) := by
  induction ps with
  | nil => simp at hs
  | cons q ps ih =>
    rcases suffix_cons_iff.1 hs with heq | hs
    · cases heq
      exact h.1
    · exact ih h.2 hs

theorem Piece.Fits.hasLone {p : Piece} (h : p.Fits lv rest) :
    hasLone none (p.stretch.flatMap Atom.chars ++ rest) = hasLone none rest := by
  -- a paired character is an operator character
  have hpaired : ∀ {c : Char}, isOperatorChar c = false → isPaired c = false := by
    intro c hc
    rw [← Bool.not_eq_true, isPaired, Bool.or_eq_true, beq_iff_eq, beq_iff_eq]
    rintro (rfl | rfl) <;> exact absurd hc (by decide)
  cases h with
  | space hc => exact hasLone_cons_of_not_paired (hpaired (isOperatorChar_of_space hc)) rest
  | separator _ hc =>
    exact hasLone_cons_of_not_paired (hpaired (isOperatorChar_of_separator hc)) rest
  | word _ hms _ =>
    rw [Piece.stretch, chars_map_atom]
    refine hasLone_append (fun c hc => ?_) rest
    obtain ⟨m, hm, rfl⟩ := mem_map.1 hc
    exact hpaired (isOperatorChar_of_kind (by simp [hms m hm]))
  | operator htext ho =>
    rw [Piece.stretch, chars_map_atom, htext]
    exact hasLone_lexeme ho.listed rest

theorem Laid.hasLone {ps} (h : Laid lv rest ps) :
    hasLone none (charsOf ps ++ rest) = hasLone none rest := by
  induction ps with
  | nil => rfl
  | cons p ps ih => rw [charsOf_cons, append_assoc, h.1.hasLone, ih h.2]

theorem Piece.Fits.chars {p : Piece} (h : p.Fits lv rest) :
    p.atom?.toList.flatMap Atom.chars = (charsOf [p]).filter (!isSpace ·) := by
  have hkept : ∀ {cs : List Char}, (∀ c ∈ cs, isSpace c = false) → cs.filter (!isSpace ·) = cs := by
    intro cs hcs
    exact filter_eq_self.2 fun c hc => by simp [hcs c hc]
  cases h with
  | space hc => simp [charsOf, Piece.atom?, Piece.stretch, Mark.atom, Atom.chars, hc]
  | separator hc _ => simp [charsOf, Piece.atom?, Piece.stretch, Mark.atom, Atom.chars, hc]
  | @word ms _ _ hms _ =>
    have hspace : ∀ c ∈ ms.map Mark.c, isSpace c = false := by
      intro c hc
      obtain ⟨m, hm, rfl⟩ := mem_map.1 hc
      exact isSpace_of_kind (by simp [hms m hm])
    simp [charsOf, Piece.atom?, Piece.stretch, Atom.chars, markText, hkept hspace]
  | @operator ms o _ htext ho =>
    have hspace : ∀ c ∈ o.toList, isSpace c = false := by
      intro c hc
      rw [← Bool.not_eq_true]
      intro hs
      exact absurd (isOperatorChar_of_mem ho.listed hc) (by simp [isOperatorChar_of_space hs])
    simp [charsOf, Piece.atom?, Piece.stretch, Atom.chars, htext, hkept hspace]

end

/-! ## The pass -/

/-- The failure of the pass on characters among which a paired one stands alone. -/
def Lone (cs : List Char) (e : ReadFault) : Prop := e = .unknownSymbol ∧ hasLone none cs = true

theorem lone_congr {cs cs'} (h : hasLone none cs = hasLone none cs') : Lone cs = Lone cs' := by
  funext e
  rw [Lone, Lone, h]

section
variable {lv : Level} {rest : List Char}

theorem laid_cutOperators {skip : Nat} {ms : List Mark} (hms : ∀ m ∈ ms, isOperatorChar m.c = true)
    (hrest : ∀ c, rest.head? = some c → isOperatorChar c = false) :
    Ends (Laid lv rest) (Lone ((ms.drop skip).map Mark.c ++ rest)) (cutOperators lv skip ms) := by
  fun_induction cutOperators lv skip ms with
  | case1 => trivial
  | case2 skip m ms ih => exact ih (forall_mem_cons.1 hms).2
  | case3 m ms hnone =>
    rw [← match?_append hrest] at hnone
    exact ⟨rfl, hasLone_of_match?_eq_none (hms m mem_cons_self) hnone⟩
  | case4 m ms o ho ih =>
    have htext : ((m :: ms).take o.length).map Mark.c = o.toList := by
      rw [← String.toList_ofList (l := map _ _), ← markText, markText_take_match ho]
    have hchars : (m :: ms).map Mark.c = o.toList ++ (ms.drop (o.length - 1)).map Mark.c := by
      rw [← htext, ← map_append, take_append_drop_match ho]
    have hlongest := isLongest_of_match? ho (by simpa using hms) hrest
    rw [drop_zero, hchars, append_assoc, lone_congr (hasLone_lexeme hlongest.listed _)]
    refine (ih (forall_mem_cons.1 hms).2).with_eq.bind fun ps hok => ?_
    obtain ⟨hps, hlaid⟩ := hok
    refine ⟨.operator htext ?_, hlaid⟩
    rw [charsOf_of_stretches (stretches_cutOperators hps), ← append_assoc, ← hchars]
    exact hlongest

theorem laid_cutStretch {isOp ms} (hne : ms ≠ []) (hms : ∀ m ∈ ms, stretchKind m.c = some isOp)
    (hrest : ∀ c, rest.head? = some c → stretchKind c ≠ some isOp) :
    Ends (Laid lv rest) (Lone (ms.map Mark.c ++ rest)) (cutStretch lv (isOp, ms)) := by
  cases isOp with
  | false => exact ⟨.word hne hms hrest, trivial⟩
  | true =>
    refine @laid_cutOperators lv rest 0 ms (fun m hm => ?_) fun c hc =>
      isOperatorChar_of_kind (hrest c hc)
    have hkind := stretchKind_of_ne (c := m.c) (by simp [hms m hm])
    simpa [hms m hm] using hkind.symm

/-- The stretches of a word, the first one still being read, when what follows the word stands in
no stretch. -/
theorem laid_splitMarks {isOpen : Option (Bool × List Mark)} {ms : List Mark}
    (hopen : ∀ p, isOpen = some p → p.2 ≠ [] ∧ ∀ m ∈ p.2, stretchKind m.c = some p.1)
    (hms : ∀ m ∈ ms, stretchKind m.c ≠ none)
    (hrest : ∀ c, rest.head? = some c → stretchKind c = none) :
    Ends (fun pss => Laid lv rest pss.flatten)
      (Lone (((isOpen.toList.flatMap fun p => p.2.reverse) ++ ms).map Mark.c ++ rest))
      ((splitMarks isOpen ms).mapM (cutStretch lv)) := by
  fun_induction splitMarks isOpen ms with
  | case1 => trivial
  | case2 isOp held =>
    obtain ⟨hne, hheld⟩ := hopen _ rfl
    have hcut := @laid_cutStretch lv rest isOp held.reverse (by simpa using hne)
      (by simpa using hheld) (fun c hc => by simp [hrest c hc])
    rw [mapM_cons]
    simp only [Option.toList_some, flatMap_cons, flatMap_nil, append_nil]
    refine hcut.bind fun ps hps => ?_
    show Laid lv rest (ps ++ [])
    rwa [append_nil]
  | case3 m ms ih =>
    obtain ⟨hm, hms⟩ := forall_mem_cons.1 hms
    refine ih (fun p hp => ?_) hms
    cases hp
    simpa using stretchKind_of_ne hm
  | case4 isOp held m ms hkind ih =>
    obtain ⟨hm, hms⟩ := forall_mem_cons.1 hms
    have hnext : stretchKind m.c = some isOp := by rw [stretchKind_of_ne hm, beq_iff_eq.1 hkind]
    have hheld : ∀ n ∈ m :: held, stretchKind n.c = some isOp :=
      forall_mem_cons.2 ⟨hnext, (hopen _ rfl).2⟩
    simpa using ih (fun p hp => by cases hp; exact ⟨cons_ne_nil _ _, hheld⟩) hms
  | case5 isOp held m ms hkind ih =>
    obtain ⟨hm, hms⟩ := forall_mem_cons.1 hms
    obtain ⟨hne, hheld⟩ := hopen _ rfl
    have hnext : stretchKind m.c = some !isOp := by
      rw [stretchKind_of_ne hm]
      cases isOp <;> simp_all
    have hcut := @laid_cutStretch lv ((m :: ms).map Mark.c ++ rest) isOp held.reverse
      (by simpa using hne) (by simpa using hheld) (fun c hc => by cases hc; simp [hnext])
    rw [mapM_cons]
    simp only [Option.toList_some, flatMap_cons, flatMap_nil, append_nil, map_append,
      append_assoc] at ih ⊢
    refine hcut.with_eq.bind fun ps hok => ?_
    obtain ⟨hps, hlaid⟩ := hok
    have hlone := hlaid.hasLone
    rw [charsOf_of_stretches (stretches_cutStretch hps)] at hlone
    rw [lone_congr hlone]
    refine (ih (fun p hp => by cases hp; simpa using hnext) hms).with_eq.bind
      fun pss hmore => ?_
    obtain ⟨hpss, hrest⟩ := hmore
    refine Laid.append ?_ hrest
    rw [charsOf_of_stretches (stretches_mapM hpss), flatMap_splitMarks]
    exact hlaid

theorem laid_cutWord {ms} (hms : ∀ m ∈ ms, stretchKind m.c ≠ none)
    (hrest : ∀ c, rest.head? = some c → stretchKind c = none) :
    Ends (Laid lv rest) (Lone (ms.map Mark.c ++ rest)) (cutWord lv ms) :=
  (@laid_splitMarks lv rest none ms (by simp) hms hrest).bind fun _ h => h

/-- A word, the character behind it that stands in no stretch, and what was cut from the rest. -/
theorem laid_flush {held ms : List Mark} {m : Mark} {q : Piece} {x : Except ReadFault (List Piece)}
    (hheld : ∀ m ∈ held, stretchKind m.c ≠ none) (hm : stretchKind m.c = none)
    (hq : ∀ rest, q.Fits lv rest) (hstretch : q.stretch = [m.atom])
    (hx : ∀ ps, x = .ok ps → charsOf ps = ms.map Mark.c)
    (ih : Ends (Laid lv []) (Lone (ms.map Mark.c)) x) :
    Ends (Laid lv []) (Lone (held.reverse.map Mark.c ++ (m :: ms).map Mark.c)) (do
      let word ← cutWord lv held.reverse
      let pieces ← x return word ++ q :: pieces) := by
  refine (laid_cutWord (by simpa using hheld) (fun c hc => ?_)).with_eq.bind
    fun word hok => ?_
  · cases hc
    exact hm
  obtain ⟨hword, hlaid⟩ := hok
  have hlone := hlaid.hasLone
  have hmark := (hq (ms.map Mark.c)).hasLone
  rw [charsOf_of_stretches (stretches_cutWord hword)] at hlone
  rw [hstretch] at hmark
  rw [lone_congr (hlone.trans hmark)]
  refine ih.with_eq.bind fun ps hmore => ?_
  obtain ⟨hps, hrest⟩ := hmore
  refine Laid.append ?_ ⟨hq _, hrest⟩
  rw [charsOf_cons, hstretch, hx ps hps, append_nil]
  exact hlaid

theorem laid_scanWords (held ms : List Mark) (hheld : ∀ m ∈ held, stretchKind m.c ≠ none) :
    Ends (Laid lv []) (Lone (held.reverse.map Mark.c ++ ms.map Mark.c))
      (scanWords lv held (ms.map Mark.atom)) := by
  induction ms generalizing held with
  | nil => exact laid_cutWord (by simpa using hheld) (by simp)
  | cons m ms ih =>
    have hchars : ∀ ps, scanWords lv [] (ms.map Mark.atom) = .ok ps → charsOf ps = ms.map Mark.c :=
      fun ps hps => charsOf_of_stretches (stretches_scanWords hps)
    show Ends _ _ (scanWords lv held (.unknown m.lv m.c :: ms.map Mark.atom))
    rw [scanWords]
    split
    next hspace =>
      exact laid_flush hheld (by simp [stretchKind, hspace]) (fun _ => .space hspace) rfl hchars
        (ih [] (by simp))
    next hspace =>
      split
      next hsep =>
        exact laid_flush hheld (by simp [stretchKind, hsep])
          (fun _ => .separator (by simpa using hspace) hsep) rfl hchars (ih [] (by simp))
      next hsep =>
        simpa using ih (m :: held) (forall_mem_cons.2 ⟨by simp [stretchKind, hspace, hsep], hheld⟩)

end

/-! ## The whole run -/

section
variable {lv : Level} {pieces : List Piece}

theorem Laid.chars {rest : List Char} (h : Laid lv rest pieces) :
    (atomsOf pieces).flatMap Atom.chars = (charsOf pieces).filter (!isSpace ·) := by
  induction pieces with
  | nil => rfl
  | cons p ps ih =>
    have hp := h.1.chars
    have hatoms : atomsOf (p :: ps) = p.atom?.toList ++ atomsOf ps := by
      cases hatom : p.atom? <;> simp [atomsOf, hatom]
    rw [hatoms, flatMap_append, hp, ih h.2, ← filter_append, ← charsOf_append]
    rfl

/-- What stands between two words that follow each other in the result is white space. -/
theorem Laid.space_between {p q between after k l v w}
    (h : Laid lv [] pieces) (hs : p :: between ++ q :: after <:+ pieces)
    (hp : p.atom? = some (.word k v)) (hq : q.atom? = some (.word l w))
    (hnone : atomsOf between = []) : ∃ c ∈ charsOf between, isSpace c = true := by
  have hsuffix : between ++ q :: after <:+ pieces := (suffix_cons _ _).trans hs
  cases between with
  | nil =>
    -- the second word would extend the first one
    cases h.of_suffix hs with
    | space | separator | operator => cases hp
    | word _ _ hend =>
      cases h.of_suffix hsuffix with
      | space | separator | operator => cases hq
      | word hne hms =>
        obtain ⟨m, ms, rfl⟩ := exists_cons_of_ne_nil hne
        exact absurd (hms m mem_cons_self) (hend m.c rfl)
  | cons r between =>
    cases h.of_suffix hsuffix with
    | @space m _ hc => exact ⟨m.c, by simp [Piece.stretch, Mark.atom, Atom.chars], hc⟩
    | separator | word | operator => simp [atomsOf, Piece.atom?] at hnone

end

/-- Cutting a run of characters fails exactly if a block of `&` or `|` has odd length. Otherwise the
run falls into pieces that keep all characters but white space, whose operators are the longest
lexemes at their places, and among which two words in a row have white space between them. -/
theorem tokenize_takes_longest_match (lv : Level) (ms : List Mark) :
    (tokenize lv (ms.map Mark.atom) = .error .unknownSymbol ↔ HasOddBlock (ms.map Mark.c)) ∧
    (¬ HasOddBlock (ms.map Mark.c) → ∃ pieces,
      tokenize lv (ms.map Mark.atom) = .ok (atomsOf pieces) ∧
      pieces.flatMap Piece.stretch = ms.map Mark.atom ∧
      (atomsOf pieces).flatMap Atom.chars = (ms.map Mark.c).filter (!isSpace ·) ∧
      (∀ p l o after, p :: after <:+ pieces → p.atom? = some (.operator l o) →
        IsLongest o (charsOf (p :: after))) ∧
      ∀ p k v between q l w after, p :: between ++ q :: after <:+ pieces →
        p.atom? = some (.word k v) → q.atom? = some (.word l w) → atomsOf between = [] →
          ∃ c ∈ charsOf between, isSpace c = true) := by
  have hends := @laid_scanWords lv [] ms (by simp)
  have hlone := hasLone_iff (ms.map Mark.c)
  cases hcut : scanWords lv [] (ms.map Mark.atom) with
  | error e =>
    rw [hcut] at hends
    obtain ⟨rfl, hodd⟩ := hends
    have hfails : tokenize lv (ms.map Mark.atom) = .error .unknownSymbol := by
      rw [tokenize, cutWords, hcut]
      rfl
    exact ⟨iff_of_true hfails (hlone.1 hodd), fun hnot => absurd (hlone.1 hodd) hnot⟩
  | ok pieces =>
    rw [hcut] at hends
    have hstretches := stretches_scanWords hcut
    have hchars : charsOf pieces = ms.map Mark.c := charsOf_of_stretches hstretches
    have hok : tokenize lv (ms.map Mark.atom) = .ok (atomsOf pieces) := by
      rw [tokenize, cutWords, hcut]
      rfl
    have heven : ¬ HasOddBlock (ms.map Mark.c) := by
      rw [← hlone, ← hchars, ← append_nil (charsOf pieces), hends.hasLone]
      simp [hasLone]
    refine ⟨iff_of_false (by simp [hok]) heven, fun _ => ⟨pieces, hok, hstretches, ?_, ?_, ?_⟩⟩
    · rw [hends.chars, hchars]
    · intro p l o after hs ho
      cases hends.of_suffix hs with
      | operator htext hlongest =>
        cases ho
        simpa [Piece.stretch, htext] using hlongest
      | space | separator | word => cases ho
    · intro p k v between q l w after hs hp hq hnone
      exact hends.space_between hs hp hq hnone

end WatScript
