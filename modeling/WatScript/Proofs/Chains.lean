import WatScript.Proofs.Structure

/-!
# Chains

A run is read as a sequence of clauses and other atoms (`Element`), and the clauses are joined into chains
of the form `if elif* else?`, `while else?`, `for else?` or `loop` (`Chain`). A `Passage` is such a chain,
or an atom outside every clause. Joining clauses succeeds on the elements of passages and on nothing else,
and makes one chain atom of each chain (`groupSyntax_eq_ok_iff`).

In terms of the atoms of a run: a run has elements if and only if each clause word is followed by the atoms
that its clause needs (`exists_elements_iff`), and its elements are those of passages if and only if each
maximal sequence of adjacent clauses is made of chains (`exists_passages_iff`).
-/

namespace WatScript

open List Atom Keyword

/-! ## Clauses and chains -/

def Atom.isParen : Atom → Bool
  | .paren .. => true
  | _ => false

def Atom.isBlock : Atom → Bool
  | .block .. => true
  | _ => false

/-- The atom is no clause, and no word that begins one. -/
def Atom.isClauseless : Atom → Bool
  | .clause .. => false
  | .word _ w => !Keyword.isClause w
  | _ => true

/-- A clause as it stands in a run: its word, its condition if the word takes one, and its body. -/
structure Clause where
  lv : Level
  word : String
  condition? : Option Atom
  body : Atom
  isClause : Keyword.isClause word = true := by decide
  takes : condition?.isSome = hasCondition word := by decide
  isParen : ∀ a, condition? = some a → a.isParen = true := by rintro _ ⟨⟩ <;> rfl
  isBlock : body.isBlock = true := by rfl

namespace Clause

/-- The atoms of the run that make up the clause. -/
def atoms (c : Clause) : List Atom := .word c.lv c.word :: (c.condition?.toList ++ [c.body])

/-- The clause as an atom. -/
def atom (lv : Level) (c : Clause) : Atom := .clause lv c.word c.condition? c.body

/-- The member that is read for the clause. -/
def member (lv : Level) (c : Clause) : Member := .fresh (.word c.lv c.word) (c.atom lv)

end Clause

/-- The clauses of a chain: `if elif* else?`, `while else?`, `for else?` or `loop`. -/
structure Chain where
  head : Clause
  elifs : List Clause
  last? : Option Clause
  isHead : isChainHead head.word = true := by decide
  isElif : ∀ c ∈ elifs, c.word = "elif" := by simp
  isElse : ∀ c, last? = some c → c.word = "else" := by simp
  onlyIf : elifs ≠ [] → head.word = "if" := by simp
  noLoop : last? ≠ none → head.word ≠ "loop" := by simp

namespace Chain

/-- The clauses in their order. -/
def clauses (ch : Chain) : List Clause := ch.head :: (ch.elifs ++ ch.last?.toList)

/-- The chain of one clause. -/
def single (c : Clause) (h : isChainHead c.word = true) : Chain where
  head := c
  elifs := []
  last? := none
  isHead := h

/-- The chain with one `elif` more. -/
def addElif (ch : Chain) (c : Clause) (hc : c.word = "elif") (hif : ch.head.word = "if") : Chain where
  head := ch.head
  elifs := ch.elifs ++ [c]
  last? := ch.last?
  isHead := ch.isHead
  isElif := forall_mem_append.2 ⟨ch.isElif, forall_mem_singleton.2 hc⟩
  isElse := ch.isElse
  onlyIf := fun _ => hif
  noLoop := ch.noLoop

/-- The chain with its `else`. -/
def addElse (ch : Chain) (c : Clause) (hc : c.word = "else") (hloop : ch.head.word ≠ "loop") :
    Chain where
  head := ch.head
  elifs := ch.elifs
  last? := some c
  isHead := ch.isHead
  isElif := ch.isElif
  isElse := by rintro _ ⟨⟩; exact hc
  onlyIf := ch.onlyIf
  noLoop := fun _ => hloop

section
variable {ch : Chain} {c : Clause} (h : ch.last? = none)
include h

theorem clauses_addElif (hc : c.word = "elif") (hif : ch.head.word = "if") :
    (ch.addElif c hc hif).clauses = ch.clauses ++ [c] := by
  simp [clauses, addElif, h]

theorem clauses_addElse (hc : c.word = "else") (hloop : ch.head.word ≠ "loop") :
    (ch.addElse c hc hloop).clauses = ch.clauses ++ [c] := by
  simp [clauses, addElse, h]

end

end Chain

/-- A chain of a run, or an atom outside every clause. -/
inductive Passage where
  | other (a : Atom) (noClause : a.isClauseless = true)
  | chain (ch : Chain)

namespace Passage

def atoms : Passage → List Atom
  | other a _ => [a]
  | chain ch => ch.clauses.flatMap Clause.atoms

/-- The atom that stands for the passage once chains are found. -/
def atom (lv : Level) : Passage → Atom
  | other a _ => a
  | chain ch => .chain lv (ch.clauses.map (Clause.atom lv))

/-- The phrase that is read for the passage. -/
def phrase (lv : Level) : Passage → Phrase
  | other a _ => .atom a
  | chain ch => .chain (ch.clauses.map (Clause.member lv))

theorem toAtom_phrase (lv : Level) (p : Passage) : (p.phrase lv).toAtom lv = p.atom lv := by
  cases p with
  | other a _ => rfl
  | chain ch => simp [phrase, atom, Phrase.toAtom, Clause.member, Member.atom]

end Passage

/-- A clause of a run, or an atom outside every clause. -/
inductive Element where
  | other (a : Atom) (noClause : a.isClauseless = true)
  | clause (c : Clause)

namespace Element

def atoms : Element → List Atom
  | other a _ => [a]
  | clause c => c.atoms

def member (lv : Level) : Element → Member
  | other a _ => .given a
  | clause c => c.member lv

end Element

/-- The passage, clause by clause. -/
def Passage.elements : Passage → List Element
  | other a h => [.other a h]
  | chain ch => ch.clauses.map .clause

theorem Passage.atoms_eq (p : Passage) : p.atoms = p.elements.flatMap Element.atoms := by
  cases p with
  | other a _ => rfl
  | chain ch => simp [atoms, elements, flatMap_map, Element.atoms]

/-! ## Finding clauses -/

theorem Atom.isParen_inv {a : Atom} (h : a.isParen = true) :
    ∃ l raw r contents, a = .paren l raw r contents := by
  cases a with
  | paren l raw r contents => exact ⟨l, raw, r, contents, rfl⟩
  | _ => cases h

theorem Atom.isBlock_inv {a : Atom} (h : a.isBlock = true) :
    ∃ l raw r body, a = .block l raw r body := by
  cases a with
  | block l raw r body => exact ⟨l, raw, r, body, rfl⟩
  | _ => cases h

theorem members_clause (lv : Level) (c : Clause) (rest : List Atom) :
    members lv (c.atoms ++ rest) = (members lv rest).map (c.member lv :: ·) := by
  obtain ⟨l, w, condition?, body, hclause, htakes, hparen, hblock⟩ := c
  obtain ⟨bl, braw, br, bb, rfl⟩ := isBlock_inv hblock
  cases condition? with
  | none =>
    have hcond : hasCondition w = false := htakes.symm
    simp only [Clause.atoms, Option.toList, nil_append, cons_append, members, hclause, hcond]
    rfl
  | some a =>
    obtain ⟨pl, praw, pr, pc, rfl⟩ := isParen_inv (hparen _ rfl)
    have hcond : hasCondition w = true := htakes.symm
    simp only [Clause.atoms, Option.toList, nil_append, cons_append, members, hclause, hcond]
    rfl

theorem members_other (lv : Level) {a} (h : a.isClauseless = true) (rest : List Atom) :
    members lv (a :: rest) = (members lv rest).map (.given a :: ·) := by
  cases a with
  | word l w =>
    have hw : Keyword.isClause w = false := by simpa [isClauseless] using h
    rw [members.eq_def]
    simp only [hw]
    rfl
  | _ => rw [members] <;> first | rfl | simp

theorem members_element (lv : Level) (e : Element) (rest : List Atom) :
    members lv (e.atoms ++ rest) = (members lv rest).map (e.member lv :: ·) := by
  cases e with
  | other a ha => exact members_other lv ha rest
  | clause c => exact members_clause lv c rest

theorem members_elements (lv : Level) (elements : List Element) :
    members lv (elements.flatMap Element.atoms) = .ok (elements.map (Element.member lv)) := by
  induction elements with
  | nil => rfl
  | cons e elements ih =>
    rw [flatMap_cons, members_element, ih]
    rfl

/-- The word is followed by the atoms that its clause needs: a condition if it takes one, and a body. -/
def hasNeeded (w : String) : List Atom → Bool
  | .paren .. :: .block .. :: _ => hasCondition w
  | .block .. :: _ => !Keyword.hasCondition w
  | _ => false

section
variable {w : String} {after : List Atom}

theorem exists_clause (l : Level) (hw : Keyword.isClause w = true) (h : hasNeeded w after = true) :
    ∃ (c : Clause) (rest : List Atom), .word l w :: after = c.atoms ++ rest := by
  unfold hasNeeded at h
  split at h
  · refine ⟨⟨l, w, some _, _, hw, h.symm, ?_, ?_⟩, _, rfl⟩
    · rintro _ ⟨⟩
      rfl
    · rfl
  · have hcond : hasCondition w = false := by simpa using h
    exact ⟨⟨l, w, none, _, hw, hcond.symm, by simp, by rfl⟩, _, rfl⟩
  · cases h

theorem members_missing (lv l : Level) (hw : Keyword.isClause w = true) (h : hasNeeded w after = false) :
    ∃ f, members lv (.word l w :: after) = .error f := by
  rw [members.eq_def]
  simp only [hw, if_true]
  split
  · rename_i hcond
    split
    · exact absurd (h.symm.trans hcond) Bool.false_ne_true
    all_goals exact ⟨_, rfl⟩
  · rename_i hcond
    split
    · simp [hasNeeded, hcond] at h
    · exact ⟨_, rfl⟩

/-- Some clause word of the run is not followed by the atoms that its clause needs. -/
def LacksNeeded (run : List Atom) : Prop :=
  ∃ l w after, .word l w :: after <:+ run ∧ Keyword.isClause w = true ∧ hasNeeded w after = false

theorem elements_or_missing (lv : Level) : ∀ run : List Atom, (∀ a ∈ run, a.isClause = false) →
    (∃ elements : List Element, run = elements.flatMap Element.atoms) ∨
      (∃ f, members lv run = .error f) ∧ LacksNeeded run
  | [], _ => .inl ⟨[], rfl⟩
  | a :: rest, hrun => by
    -- an element is found at the head of the run, and the rest of the run is shorter
    have hstep (e : Element) (rest' : List Atom) (heq : a :: rest = e.atoms ++ rest')
        (hlt : rest'.length < (a :: rest).length) :
        (∃ elements : List Element, a :: rest = elements.flatMap Element.atoms) ∨
          (∃ f, members lv (a :: rest) = .error f) ∧ LacksNeeded (a :: rest) := by
      rw [heq] at hrun ⊢
      rcases elements_or_missing lv rest' (forall_mem_append.1 hrun).2 with
        ⟨elements, rfl⟩ | ⟨⟨f, hf⟩, l, w, after, hsuffix, h⟩
      · exact .inl ⟨e :: elements, rfl⟩
      · exact .inr ⟨⟨f, by rw [members_element, hf]; rfl⟩, l, w, after,
          hsuffix.trans (suffix_append ..), h⟩
    by_cases ha : a.isClauseless = true
    · exact hstep (.other a ha) rest rfl (Nat.lt_succ_self _)
    · cases a with
      | clause => cases (forall_mem_cons.1 hrun).1
      | word l w =>
        have hw : Keyword.isClause w = true := by simpa [isClauseless] using ha
        cases hneeded : hasNeeded w rest with
        | false => exact .inr ⟨members_missing lv l hw hneeded, l, w, rest, suffix_rfl, hw, hneeded⟩
        | true =>
          obtain ⟨c, rest', heq⟩ := exists_clause l hw hneeded
          refine hstep (.clause c) rest' heq ?_
          rw [heq, length_append]
          simp [Clause.atoms]
      | _ => exact (ha rfl).elim
termination_by run => run.length
decreasing_by exact hlt

end

/-! ## Joining clauses -/

section
variable {lv : Level} {held? : Option Chain} {ch : Chain} {c : Clause} {rest : List Member}
  {ps : List Phrase}

/-- The clauses that are held for a chain, last first. -/
def openChain (lv : Level) (held? : Option Chain) : Option (List Member) :=
  held?.map fun ch => (ch.clauses.map (Clause.member lv)).reverse

/-- The passage of the chain that ends here, if one is open. -/
def closedPassage (held? : Option Chain) : List Passage := held?.toList.map .chain

theorem closeChain_openChain (lv : Level) (held? : Option Chain) :
    closeChain (openChain lv held?) = (closedPassage held?).map (Passage.phrase lv) := by
  cases held? with
  | none => rfl
  | some ch => simp [openChain, closeChain, closedPassage, Passage.phrase]

theorem openHead_clauses (lv : Level) (ch : Chain) :
    openHead (ch.clauses.map (Clause.member lv)).reverse = ch.head.word := by
  simp [openHead, Chain.clauses, Clause.member, Member.atom, Clause.atom, clauseName]

theorem joinClauses_other (chain? : Option (List Member)) {a} (ha : a.isClauseless = true)
    (rest : List Member) : joinClauses chain? (.given a :: rest) =
      (joinClauses none rest).map (closeChain chain? ++ .atom a :: ·) := by
  cases a with
  | clause => cases ha
  | _ => rfl

theorem joinClauses_head (chain? : Option (List Member)) (h : isChainHead c.word = true)
    (rest : List Member) : joinClauses chain? (c.member lv :: rest) =
      (joinClauses (some [c.member lv]) rest).map (closeChain chain? ++ ·) := by
  rw [joinClauses]
  simp only [Clause.member, Member.atom, Clause.atom, h]
  rfl

theorem Clause.atom_member (lv : Level) (c : Clause) :
    (c.member lv).atom = .clause lv c.word c.condition? c.body := rfl

theorem joinClauses_elif (hlast : ch.last? = none) (hc : c.word = "elif") (hif : ch.head.word = "if")
    (rest : List Member) : joinClauses (openChain lv (some ch)) (c.member lv :: rest) =
      joinClauses (openChain lv (some (ch.addElif c hc hif))) rest := by
  have hhead : isChainHead "elif" = false := rfl
  rw [joinClauses]
  simp [c.atom_member, openChain, ch.clauses_addElif hlast, hc, hhead, openHead_clauses, hif]

theorem joinClauses_else (hlast : ch.last? = none) (hc : c.word = "else")
    (hloop : ch.head.word ≠ "loop") (rest : List Member) :
    joinClauses (openChain lv (some ch)) (c.member lv :: rest) =
      (joinClauses none rest).map ((Passage.chain (ch.addElse c hc hloop)).phrase lv :: ·) := by
  have hhead : isChainHead "else" = false := rfl
  have hphrase : (Passage.chain (ch.addElse c hc hloop)).phrase lv =
      .chain (c.member lv :: (ch.clauses.map (Clause.member lv)).reverse).reverse := by
    simp [Passage.phrase, ch.clauses_addElse hlast]
  rw [joinClauses, hphrase]
  simp only [c.atom_member, openChain, Option.map_some, hc, hhead, openHead_clauses]
  rw [if_neg Bool.false_ne_true, if_neg (by decide), if_pos (beq_self_eq_true _),
    if_neg (by simpa using hloop)]
  rfl

theorem joinClauses_clause_inv (hhead : isChainHead c.word = false)
    (h : joinClauses (openChain lv held?) (c.member lv :: rest) = .ok ps) : ∃ ch, held? = some ch ∧
      (c.word = "elif" ∧ ch.head.word = "if" ∨ c.word = "else" ∧ ch.head.word ≠ "loop") := by
  rw [joinClauses] at h
  simp only [c.atom_member, hhead] at h
  cases held? with
  | none => cases h
  | some ch =>
    refine ⟨ch, rfl, ?_⟩
    simp only [openChain, Option.map_some, openHead_clauses] at h
    split at h
    · cases ‹false = true›
    split at h
    · rename_i hc
      split at h
      · rename_i hif
        exact .inl ⟨beq_iff_eq.1 hc, beq_iff_eq.1 hif⟩
      · cases h
    · split at h
      · rename_i hc
        split at h
        · cases h
        · rename_i hloop
          exact .inr ⟨beq_iff_eq.1 hc, fun heq => hloop (beq_iff_eq.2 heq)⟩
      · cases h

theorem passages_of_joinClauses : ∀ {elements} (held? : Option Chain) {ps},
    (∀ ch, held? = some ch → ch.last? = none) →
    joinClauses (openChain lv held?) (elements.map (Element.member lv)) = .ok ps →
    ∃ passages : List Passage,
      (closedPassage held?).flatMap Passage.elements ++ elements = passages.flatMap Passage.elements ∧
        ps = passages.map (Passage.phrase lv)
  | [], held?, ps, _, h => by
    rw [map_nil, joinClauses, closeChain_openChain] at h
    cases h
    exact ⟨closedPassage held?, append_nil _, rfl⟩
  | .other a ha :: elements, held?, ps, _, h => by
    rw [map_cons, Element.member, joinClauses_other _ ha] at h
    obtain ⟨ps, hps, rfl⟩ := map_ok h
    obtain ⟨passages, heq, rfl⟩ := passages_of_joinClauses none (by simp) hps
    refine ⟨closedPassage held? ++ .other a ha :: passages, ?_, ?_⟩
    · rw [flatMap_append, flatMap_cons, ← heq]
      rfl
    · rw [closeChain_openChain, map_append]
      rfl
  | .clause c :: elements, held?, ps, hopen, h => by
    rw [map_cons, Element.member] at h
    cases hhead : isChainHead c.word with
    | true =>
      rw [joinClauses_head _ hhead] at h
      obtain ⟨ps, hps, rfl⟩ := map_ok h
      obtain ⟨passages, heq, rfl⟩ :=
        passages_of_joinClauses (some (.single c hhead)) (by rintro _ ⟨⟩; rfl) hps
      refine ⟨closedPassage held? ++ passages, ?_, ?_⟩
      · rw [flatMap_append, ← heq]
        rfl
      · rw [closeChain_openChain, map_append]
    | false =>
      obtain ⟨ch, rfl, ⟨hc, hif⟩ | ⟨hc, hloop⟩⟩ := joinClauses_clause_inv hhead h
      · have hlast := hopen ch rfl
        rw [joinClauses_elif hlast hc hif] at h
        obtain ⟨passages, heq, rfl⟩ :=
          passages_of_joinClauses (some (ch.addElif c hc hif)) (by rintro _ ⟨⟩; exact hlast) h
        refine ⟨passages, ?_, rfl⟩
        rw [← heq]
        simp [closedPassage, Passage.elements, ch.clauses_addElif hlast]
      · have hlast := hopen ch rfl
        rw [joinClauses_else hlast hc hloop] at h
        obtain ⟨ps, hps, rfl⟩ := map_ok h
        obtain ⟨passages, heq, rfl⟩ := passages_of_joinClauses none (by simp) hps
        refine ⟨.chain (ch.addElse c hc hloop) :: passages, ?_, rfl⟩
        rw [flatMap_cons, ← heq]
        simp [closedPassage, Passage.elements, ch.clauses_addElse hlast]

theorem joinClauses_elifs (lv : Level) (rest : List Member) : ∀ {cs} (ch : Chain),
    ch.last? = none → (∀ c ∈ cs, c.word = "elif") → (cs ≠ [] → ch.head.word = "if") →
    ∃ ch' : Chain, ch'.last? = none ∧ ch'.head = ch.head ∧ ch'.clauses = ch.clauses ++ cs ∧
      joinClauses (openChain lv (some ch)) (cs.map (Clause.member lv) ++ rest) =
        joinClauses (openChain lv (some ch')) rest
  | [], ch, hlast, _, _ => ⟨ch, hlast, rfl, (append_nil _).symm, rfl⟩
  | c :: cs, ch, hlast, hcs, hif => by
    obtain ⟨hc, hcs⟩ := forall_mem_cons.1 hcs
    have hif := hif (by simp)
    obtain ⟨ch', hlast', hhead, hclauses, hjoin⟩ :=
      joinClauses_elifs lv rest (ch.addElif c hc hif) hlast hcs fun _ => hif
    refine ⟨ch', hlast', hhead, ?_, ?_⟩
    · rw [hclauses, ch.clauses_addElif hlast, append_assoc]
      rfl
    · rw [map_cons, cons_append, joinClauses_elif hlast hc hif, hjoin]

theorem joinClauses_passages (lv : Level) : ∀ (passages : List Passage) (held? : Option Chain),
    (∀ ch, held? = some ch → ch.last? = none) →
    joinClauses (openChain lv held?) ((passages.flatMap Passage.elements).map (Element.member lv)) =
      .ok ((closedPassage held? ++ passages).map (Passage.phrase lv))
  | [], held?, _ => by
    rw [flatMap_nil, map_nil, joinClauses, closeChain_openChain, append_nil]
  | .other a ha :: passages, held?, _ => by
    have ih : joinClauses none _ = _ := joinClauses_passages lv passages none (by simp)
    have hcons : ((Passage.other a ha :: passages).flatMap Passage.elements).map (Element.member lv) =
        .given a :: (passages.flatMap Passage.elements).map (Element.member lv) := rfl
    rw [hcons, joinClauses_other _ ha, ih, closeChain_openChain]
    simp [Except.map, closedPassage, Passage.phrase]
  | .chain ch :: passages, held?, _ => by
    have hcons : ((Passage.chain ch :: passages).flatMap Passage.elements).map (Element.member lv) =
        ch.head.member lv :: (ch.elifs.map (Clause.member lv) ++ (ch.last?.toList.map (Clause.member lv) ++
          (passages.flatMap Passage.elements).map (Element.member lv))) := by
      simp [Passage.elements, Chain.clauses, Function.comp_def, Element.member]
    obtain ⟨ch', hlast', hhead, hclauses, hjoin⟩ := joinClauses_elifs lv
      (ch.last?.toList.map (Clause.member lv) ++ (passages.flatMap Passage.elements).map (Element.member lv))
      (.single ch.head ch.isHead) rfl ch.isElif ch.onlyIf
    have hjoin : joinClauses (some [ch.head.member lv]) _ = _ := hjoin
    rw [hcons, joinClauses_head _ ch.isHead, hjoin, closeChain_openChain]
    cases hlast : ch.last? with
    | none =>
      have hsame : ch'.clauses = ch.clauses := by
        rw [hclauses]
        simp [Chain.clauses, Chain.single, hlast]
      have ih := joinClauses_passages lv passages (some ch') (by rintro _ ⟨⟩; exact hlast')
      rw [Option.toList_none, map_nil, nil_append, ih]
      simp [Except.map, closedPassage, Passage.phrase, hsame]
    | some c =>
      have hc := ch.isElse c hlast
      have hloop : ch'.head.word ≠ "loop" := hhead ▸ ch.noLoop (by simp [hlast])
      have hsame : (ch'.addElse c hc hloop).clauses = ch.clauses := by
        rw [ch'.clauses_addElse hlast', hclauses]
        simp [Chain.clauses, Chain.single, hlast]
      have ih : joinClauses none _ = _ := joinClauses_passages lv passages none (by simp)
      rw [Option.toList_some, map_singleton, singleton_append,
        joinClauses_else hlast' hc hloop, ih]
      simp [Except.map, closedPassage, Passage.phrase, hsame]

end

/-! ## Chains of a run -/

theorem flatMap_passage_atoms (passages : List Passage) :
    passages.flatMap Passage.atoms = (passages.flatMap Passage.elements).flatMap Element.atoms := by
  rw [flatMap_assoc]
  exact flatMap_congr fun p _ => p.atoms_eq

theorem groupSyntax_passages (lv : Level) (passages : List Passage) :
    groupSyntax lv (passages.flatMap Passage.atoms) = .ok (passages.map (Passage.atom lv)) := by
  have hjoin : joinClauses none _ = _ := joinClauses_passages lv passages none (by simp)
  rw [groupSyntax, phrases, flatMap_passage_atoms, members_elements]
  show (joinClauses none _).map _ = _
  rw [hjoin]
  simp [Except.map, closedPassage, Function.comp_def, Passage.toAtom_phrase]

theorem groupSyntax_eq_ok_iff {lv run out} (hrun : ∀ a ∈ run, a.isClause = false) :
    groupSyntax lv run = .ok out ↔ ∃ passages : List Passage, run = passages.flatMap Passage.atoms ∧
      out = passages.map (Passage.atom lv) := by
  constructor
  · intro h
    obtain ⟨ps, hps, rfl⟩ := map_ok h
    obtain ⟨ms, hms, hps⟩ := bind_ok hps
    rcases elements_or_missing lv run hrun with ⟨elements, rfl⟩ | ⟨⟨f, hf⟩, -⟩
    · cases (members_elements lv elements).symm.trans hms
      obtain ⟨passages, heq, rfl⟩ := passages_of_joinClauses none (by simp) hps
      have heq : elements = passages.flatMap Passage.elements := heq
      refine ⟨passages, by rw [flatMap_passage_atoms, ← heq], ?_⟩
      simp [Function.comp_def, Passage.toAtom_phrase]
    · cases hms.symm.trans hf
  · rintro ⟨passages, rfl, rfl⟩
    exact groupSyntax_passages lv passages

theorem groupSyntax_of_clauseless (lv : Level) {run} (h : ∀ a ∈ run, a.isClauseless = true) :
    groupSyntax lv run = .ok run := by
  have hpassages := groupSyntax_passages lv (run.attach.map fun a => .other a.1 (h a.1 a.2))
  simpa [flatMap_map, Function.comp_def, Passage.atoms, Passage.atom] using hpassages

/-! ## Where clauses stand -/

section
variable {c c' : Clause} {x y before after : List Atom} {l : Level} {w : String}

theorem Clause.append_inj (h : c.atoms ++ x = c'.atoms ++ y) : c = c' ∧ x = y := by
  obtain ⟨l, w, condition?, body, hclause, htakes, hparen, hblock⟩ := c
  obtain ⟨l', w', condition'?, body', hclause', htakes', hparen', hblock'⟩ := c'
  obtain ⟨hword, h⟩ := List.cons.inj h
  obtain ⟨rfl, rfl⟩ := Atom.word.inj hword
  have hsome : condition?.isSome = condition'?.isSome := htakes.trans htakes'.symm
  cases condition? with
  | none =>
    cases condition'? with
    | none =>
      obtain ⟨rfl, rfl⟩ := List.cons.inj h
      exact ⟨rfl, rfl⟩
    | some a' => cases hsome
  | some a =>
    cases condition'? with
    | none => cases hsome
    | some a' =>
      obtain ⟨rfl, h⟩ := List.cons.inj h
      obtain ⟨rfl, rfl⟩ := List.cons.inj h
      exact ⟨rfl, rfl⟩

theorem Clause.eq_nil_of_word (h : c.atoms = before ++ .word l w :: after) : before = [] := by
  cases before with
  | nil => rfl
  | cons a before =>
    obtain ⟨-, h⟩ := List.cons.inj h
    have hmem : Atom.word l w ∈ c.condition?.toList ++ [c.body] := h ▸ by simp
    rcases mem_append.1 hmem with hmem | hmem
    · cases c.isParen _ (Option.mem_toList.1 hmem)
    · have hblock := c.isBlock
      rw [← mem_singleton.1 hmem] at hblock
      cases hblock

theorem Clause.hasNeeded (h : c.atoms ++ x = .word l w :: after) : hasNeeded w after = true := by
  obtain ⟨hword, rfl⟩ := List.cons.inj h
  obtain ⟨rfl, rfl⟩ := Atom.word.inj hword
  obtain ⟨l, w, condition?, body, hclause, htakes, hparen, hblock⟩ := c
  obtain ⟨bl, braw, br, bb, rfl⟩ := isBlock_inv hblock
  cases condition? with
  | none =>
    have hcond : hasCondition w = false := htakes.symm
    simp [WatScript.hasNeeded, hcond]
  | some a =>
    obtain ⟨pl, praw, pr, pc, rfl⟩ := isParen_inv (hparen _ rfl)
    exact htakes.symm

theorem Clause.ne_other {a} (ha : a.isClauseless = true) : a :: x ≠ c.atoms ++ y := by
  intro h
  obtain ⟨rfl, -⟩ := List.cons.inj h
  simp [isClauseless, c.isClause] at ha

end

section
variable {elements : List Element} {before after : List Atom} {l : Level} {w : String}

theorem elements_at_word (hw : Keyword.isClause w = true)
    (h : elements.flatMap Element.atoms = before ++ .word l w :: after) :
    ∃ front c back, elements = front ++ .clause c :: back ∧ front.flatMap Element.atoms = before ∧
      c.atoms ++ back.flatMap Element.atoms = .word l w :: after := by
  induction elements generalizing before with
  | nil => simp at h
  | cons e elements ih =>
    rw [flatMap_cons] at h
    rcases append_eq_split h with ⟨mid, hmid⟩ | ⟨mid, rfl, hrest⟩
    · cases e with
      | other a ha =>
        have hmem : .word l w ∈ (Element.other a ha).atoms := by simp [hmid]
        obtain rfl := mem_singleton.1 hmem
        simp [isClauseless, hw] at ha
      | clause c =>
        obtain rfl := Clause.eq_nil_of_word hmid
        exact ⟨[], c, elements, rfl, rfl, h⟩
    · obtain ⟨front, c, back, rfl, rfl, hat⟩ := ih hrest
      exact ⟨e :: front, c, back, rfl, rfl, hat⟩

theorem elements_at_clauses {cs : List Clause}
    (h : elements.flatMap Element.atoms = cs.flatMap Clause.atoms ++ after) :
    ∃ back, elements = cs.map .clause ++ back ∧ back.flatMap Element.atoms = after := by
  induction cs generalizing elements with
  | nil => exact ⟨elements, rfl, h⟩
  | cons c cs ih =>
    rw [flatMap_cons, append_assoc] at h
    cases elements with
    | nil => cases h
    | cons e elements =>
      rw [flatMap_cons] at h
      cases e with
      | other a ha => exact (Clause.ne_other ha h).elim
      | clause c' =>
        obtain ⟨rfl, hrest⟩ := Clause.append_inj h
        obtain ⟨back, rfl, hback⟩ := ih hrest
        exact ⟨back, rfl, hback⟩

theorem elements_around {c : Clause} {cs : List Clause}
    (h : elements.flatMap Element.atoms = before ++ ((c :: cs).flatMap Clause.atoms ++ after)) :
    ∃ front back, elements = front ++ ((c :: cs).map .clause ++ back) ∧
      front.flatMap Element.atoms = before ∧ back.flatMap Element.atoms = after := by
  obtain ⟨front, c', back, rfl, hfront, hat⟩ := elements_at_word c.isClause h
  have hrest : (Element.clause c' :: back).flatMap Element.atoms = (c :: cs).flatMap Clause.atoms ++ after :=
    hat
  obtain ⟨back', heq, hback'⟩ := elements_at_clauses hrest
  exact ⟨front, back', by rw [heq], hfront, hback'⟩

end

theorem eq_nil_of_flatMap_atoms {elements} (h : elements.flatMap Element.atoms = []) :
    elements = [] := by
  cases elements with
  | nil => rfl
  | cons e elements =>
    rw [flatMap_cons] at h
    cases e <;> cases h

/-! ## Maximal sequences of clauses -/

/-- The clauses stand side by side in the run, and no further clause stands next to them. -/
structure MaximalClauses (run before : List Atom) (clauses : List Clause) (after : List Atom) : Prop where
  run_eq : run = before ++ (clauses.flatMap Clause.atoms ++ after)
  left : ∀ (front : List Atom) (c : Clause), before ≠ front ++ c.atoms
  right : ∀ (c : Clause) (rest : List Atom), after ≠ c.atoms ++ rest

/-- The same of elements. -/
structure MaximalElements (elements front : List Element) (clauses : List Clause) (back : List Element) :
    Prop where
  elements_eq : elements = front ++ (clauses.map .clause ++ back)
  left : ∀ c, front.getLast? ≠ some (.clause c)
  right : ∀ c, back.head? ≠ some (.clause c)

theorem MaximalElements.clauses {elements front back cs}
    (h : MaximalElements elements front cs back) :
    MaximalClauses (elements.flatMap Element.atoms) (front.flatMap Element.atoms) cs
      (back.flatMap Element.atoms) := by
  refine ⟨?_, fun before c heq => ?_, fun c rest heq => ?_⟩
  · rw [h.elements_eq, flatMap_append, flatMap_append, flatMap_map]
    rfl
  · have heq : front.flatMap Element.atoms = before ++ ([c].flatMap Clause.atoms ++ []) := by simp [heq]
    obtain ⟨front', back', rfl, -, hback'⟩ := elements_around heq
    obtain rfl := eq_nil_of_flatMap_atoms hback'
    exact h.left c (by simp)
  · have heq : back.flatMap Element.atoms = [c].flatMap Clause.atoms ++ rest := by simp [heq]
    obtain ⟨back', rfl, -⟩ := elements_at_clauses heq
    exact h.right c rfl

theorem MaximalClauses.elements {elements before after c cs}
    (h : MaximalClauses (elements.flatMap Element.atoms) before (c :: cs) after) :
    ∃ front back, MaximalElements elements front (c :: cs) back := by
  obtain ⟨front, back, heq, rfl, rfl⟩ := elements_around h.run_eq
  refine ⟨front, back, heq, fun c hc => ?_, fun c hc => ?_⟩
  · obtain ⟨front', rfl⟩ := getLast?_eq_some_iff.1 hc
    exact h.left (front'.flatMap Element.atoms) c (by simp [Element.atoms])
  · obtain ⟨back', rfl⟩ := head?_eq_some_iff.1 hc
    exact h.right c _ rfl

theorem chains_of_passages {passages : List Passage} {front back : List Element} {cs : List Clause}
    (h : MaximalElements (passages.flatMap Passage.elements) front cs back) :
    ∃ chains : List Chain, cs = chains.flatMap Chain.clauses := by
  induction passages generalizing front cs with
  | nil =>
    obtain ⟨-, hrest⟩ := append_eq_nil_iff.1 h.elements_eq.symm
    exact ⟨[], map_eq_nil_iff.1 (append_eq_nil_iff.1 hrest).1⟩
  | cons p passages ih =>
    have heq := h.elements_eq
    rw [flatMap_cons] at heq
    cases p with
    | other a ha =>
      cases front with
      | nil =>
        cases cs with
        | nil => exact ⟨[], rfl⟩
        | cons c cs => cases heq
      | cons e front =>
        obtain ⟨-, heq⟩ := List.cons.inj heq
        refine ih ⟨heq, fun c hc => h.left c ?_, h.right⟩
        rw [getLast?_cons, hc]
        rfl
    | chain ch =>
      rcases append_eq_append_iff.1 heq with ⟨front', rfl, hrest⟩ | ⟨mid, hmid, hrest⟩
      · refine ih ⟨hrest, fun c hc => h.left c ?_, h.right⟩
        rw [getLast?_append, hc]
        rfl
      · -- the sequence begins with the chain, because no clause stands before it
        have hclause : ∀ e ∈ front ++ mid, ∃ c, e = .clause c := by
          rw [← hmid]
          intro e he
          obtain ⟨c, -, rfl⟩ := mem_map.1 he
          exact ⟨c, rfl⟩
        obtain rfl : front = [] := by
          cases hlast : front.getLast? with
          | none => exact getLast?_eq_none_iff.1 hlast
          | some e =>
            obtain ⟨c, rfl⟩ := hclause e (mem_append_left _ (mem_of_getLast? hlast))
            exact (h.left c hlast).elim
        have hinj : Function.Injective (List.map Element.clause) :=
          map_injective_iff.2 fun _ _ => Element.clause.inj
        have hmid : ch.clauses.map .clause = mid := hmid
        subst hmid
        -- it ends with the chain or goes on with the chains behind it
        rcases append_eq_append_iff.1 hrest with ⟨mid, hch, hback⟩ | ⟨mid, hcs, hpassages⟩
        · cases mid with
          | nil => exact ⟨[ch], by simpa using (hinj (hch.trans (append_nil _))).symm⟩
          | cons e mid =>
            obtain ⟨c, rfl⟩ := hclause e (by simp [hch])
            exact (h.right c (by simp [hback])).elim
        · obtain ⟨cs₁, cs₂, rfl, hcs₁, rfl⟩ := map_eq_append_iff.1 hcs
          obtain rfl := hinj hcs₁
          obtain ⟨chains, rfl⟩ := ih ⟨hpassages, h.left, h.right⟩
          exact ⟨ch :: chains, rfl⟩

/-- Elements in which clauses that stand side by side are those of chains, are those of passages. The
clauses `cs` are the ones that were met last. -/
theorem passages_of_chains (elements : List Element) (cs : List Clause)
    (h : ∀ front cs' back, MaximalElements (cs.map .clause ++ elements) front cs' back →
      ∃ chains : List Chain, cs' = chains.flatMap Chain.clauses) :
    ∃ passages : List Passage, cs.map .clause ++ elements = passages.flatMap Passage.elements := by
  have hchains (chains : List Chain) : (chains.flatMap Chain.clauses).map Element.clause =
      (chains.map Passage.chain).flatMap Passage.elements := by
    rw [map_flatMap, flatMap_map]
    rfl
  induction elements generalizing cs with
  | nil =>
    obtain ⟨chains, rfl⟩ := h [] cs [] ⟨by simp, by simp, by simp⟩
    exact ⟨chains.map .chain, by rw [append_nil, hchains]⟩
  | cons e elements ih =>
    cases e with
    | clause c =>
      have hcons : cs.map .clause ++ .clause c :: elements = (cs ++ [c]).map .clause ++ elements := by simp
      rw [hcons] at h ⊢
      exact ih (cs ++ [c]) h
    | other a ha =>
      obtain ⟨chains, rfl⟩ := h [] cs (.other a ha :: elements) ⟨rfl, by simp, by simp⟩
      obtain ⟨passages, hpassages⟩ := ih [] fun front cs' back hmax => by
        refine h ((chains.flatMap Chain.clauses).map .clause ++ .other a ha :: front) cs' back
          ⟨?_, fun c => ?_, hmax.right⟩
        · rw [← nil_append elements, ← map_nil, hmax.elements_eq]
          simp
        · rw [getLast?_append, getLast?_cons]
          cases hlast : front.getLast? with
          | none => simp
          | some e => simpa [hlast] using hmax.left c
      refine ⟨chains.map .chain ++ .other a ha :: passages, ?_⟩
      rw [flatMap_append, flatMap_cons, ← hpassages, hchains]
      rfl

/-! ## The grammar -/

theorem exists_elements_iff {run} (hrun : ∀ a ∈ run, a.isClause = false) :
    (∃ elements : List Element, run = elements.flatMap Element.atoms) ↔
      ∀ l w after, .word l w :: after <:+ run → Keyword.isClause w = true → hasNeeded w after = true := by
  constructor
  · rintro ⟨elements, rfl⟩ l w after ⟨before, heq⟩ hw
    obtain ⟨front, c, back, -, -, hat⟩ := elements_at_word hw heq.symm
    exact Clause.hasNeeded hat
  · intro hneeded
    rcases elements_or_missing .top run hrun with helements | ⟨-, l, w, after, hsuffix, hw, hmissing⟩
    · exact helements
    · exact absurd (hneeded l w after hsuffix hw) (by simp [hmissing])

theorem exists_passages_iff {elements : List Element} :
    (∃ passages : List Passage, elements = passages.flatMap Passage.elements) ↔
      ∀ before clauses after, MaximalClauses (elements.flatMap Element.atoms) before clauses after →
        ∃ chains : List Chain, clauses = chains.flatMap Chain.clauses := by
  constructor
  · rintro ⟨passages, rfl⟩ before clauses after hmax
    cases clauses with
    | nil => exact ⟨[], rfl⟩
    | cons c cs =>
      obtain ⟨front, back, hmax⟩ := hmax.elements
      exact chains_of_passages hmax
  · intro hmax
    exact passages_of_chains elements [] fun front cs back h => hmax _ cs _ (MaximalElements.clauses h)

/-- A run without clauses is grouped if and only if each clause word is followed by the atoms that its
clause needs, and clauses that stand side by side, with no further clause next to them, are those of chains
one after the other. Then each chain becomes one atom with its clauses in order, the other atoms stay in
order, and neither clauses nor clause words are left among them. -/
theorem chains_follow_grammar (lv : Level) {run : List Atom} (hrun : ∀ a ∈ run, a.isClause = false) :
    ((∃ out, groupSyntax lv run = .ok out) ↔
      (∀ l w after, .word l w :: after <:+ run → Keyword.isClause w = true → hasNeeded w after = true) ∧
      ∀ before clauses after, MaximalClauses run before clauses after →
        ∃ chains : List Chain, clauses = chains.flatMap Chain.clauses) ∧
    ∀ out, (groupSyntax lv run = .ok out ↔ ∃ passages : List Passage,
        run = passages.flatMap Passage.atoms ∧ out = passages.map (Passage.atom lv)) ∧
      (groupSyntax lv run = .ok out → ∀ a ∈ out, a.isClauseless = true) := by
  refine ⟨?_, fun out => ⟨groupSyntax_eq_ok_iff hrun, fun h => ?_⟩⟩
  · rw [← exists_elements_iff hrun]
    constructor
    · rintro ⟨out, h⟩
      obtain ⟨passages, rfl, -⟩ := (groupSyntax_eq_ok_iff hrun).1 h
      rw [flatMap_passage_atoms]
      exact ⟨⟨_, rfl⟩, exists_passages_iff.1 ⟨passages, rfl⟩⟩
    · rintro ⟨⟨elements, rfl⟩, hmax⟩
      obtain ⟨passages, rfl⟩ := exists_passages_iff.2 hmax
      rw [← flatMap_passage_atoms]
      exact ⟨_, groupSyntax_passages lv passages⟩
  · obtain ⟨passages, -, rfl⟩ := (groupSyntax_eq_ok_iff hrun).1 h
    intro a ha
    obtain ⟨p, -, rfl⟩ := List.mem_map.1 ha
    cases p with
    | other a hother => exact hother
    | chain ch => rfl

/-- A chain of two clauses, a chain of one right behind it, and a word. -/
theorem chains_follow_grammar_two :
    groupSyntax .top [.word .top "if", .paren .top [] false [], .block .top [] false [],
        .word .top "else", .block .top [] false [], .word .top "loop", .block .top [] false [],
        .word .top "x"] =
      .ok [.chain .top [.clause .top "if" (some (.paren .top [] false [])) (.block .top [] false []),
          .clause .top "else" none (.block .top [] false [])],
        .chain .top [.clause .top "loop" none (.block .top [] false [])], .word .top "x"] := by
  let body : Atom := .block .top [] false []
  let ifClause : Clause :=
    { lv := .top, word := "if", condition? := some (.paren .top [] false []), body := body }
  let elseClause : Clause := { lv := .top, word := "else", condition? := none, body := body }
  let loopClause : Clause := { lv := .top, word := "loop", condition? := none, body := body }
  exact ((chains_follow_grammar .top (by decide)).2 _).1.2
    ⟨[.chain ((Chain.single ifClause rfl).addElse elseClause rfl (show "if" ≠ "loop" by decide)),
      .chain (.single loopClause rfl), .other (.word .top "x") rfl], rfl, rfl⟩

end WatScript
