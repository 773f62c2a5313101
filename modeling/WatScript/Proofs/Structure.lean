import WatScript.Proofs.Runs

/-!
# The structure of a lexed run

What the passes after lexing make of tokens. Dropping comments leaves `Parts`: tokens that are neither
separators nor comments. Finding chains and calls keeps that (`groupSyntax_ends`, `groupCalls_parts`),
and the operator split leaves either the run itself, without operators, or a single operation
(`SplitOnce`). Cutting a run gives unread items (`slots_items`) or unread statements
(`splitStatements_statements`).
-/

namespace WatScript

open List Atom

variable {a : Atom} {chain? : Option (List Member)} {l : Level} {ms : List Member}
  {ps : List Phrase} {r : Bool} {raw : List Atom} {ws : List String}

/-- The atom is a separator or a comment, which are no part of an expression. -/
def Atom.isVoid : Atom → Bool
  | .unknown .. | .comment .. => true
  | _ => false

/-- The atom is a clause. -/
def Atom.isClause : Atom → Bool
  | .clause .. => true
  | _ => false

/-- A lexed run without separators and comments. -/
def Parts (lv : Level) (run : List Atom) : Prop := ∀ a ∈ run, IsToken lv a ∧ a.isVoid = false

section
variable {lv : Level} {run : List Atom}

theorem IsToken.isClause (h : IsToken lv a) : a.isClause = false := by
  cases h with
  | @bracket pair => cases pair <;> rfl
  | _ => rfl

theorem Tokens.isClause (h : Tokens lv run) : ∀ a ∈ run, a.isClause = false :=
  fun a ha => (h a ha).isClause

/-! ## Comments -/

theorem dropComments_ends (h : Tokens lv run) :
    Ends (Parts lv) (·.isFromRun = true) (dropComments run) := by
  unfold dropComments
  simp only
  split
  · rfl
  · rename_i hsep
    simp only [any_eq_true, not_exists, not_and] at hsep
    intro a ha
    obtain ⟨hm, hc⟩ := mem_filter.1 ha
    refine ⟨h a hm, ?_⟩
    cases a with
    | unknown l c => exact absurd (h _ hm).char (hsep _ hm)
    | comment l text block => cases hc
    | _ => rfl

/-! ## Clauses -/

/-- A member of a lexed run: a part of it, or a clause put together from parts. -/
inductive IsMember (lv : Level) : Member → Prop
  | given {a : Atom} : IsToken lv a → a.isVoid = false → IsMember lv (.given a)
  | fresh {w clause : Atom} : IsClause lv clause → IsMember lv (.fresh w clause)

theorem IsToken.paren_inv (h : IsToken lv a) {contents} (ha : a = .paren l raw r contents) :
    l = lv ∧ r = false ∧ contents = [] ∧ RawRun raw := by
  cases h with
  | @bracket pair raw' hraw =>
    cases pair <;> cases ha
    exact ⟨rfl, rfl, rfl, hraw⟩
  | _ => cases ha

theorem IsToken.list_inv (h : IsToken lv a) {contents} (ha : a = .list l raw r contents) :
    l = lv ∧ r = false ∧ contents = [] ∧ RawRun raw := by
  cases h with
  | @bracket pair raw' hraw =>
    cases pair <;> cases ha
    exact ⟨rfl, rfl, rfl, hraw⟩
  | _ => cases ha

theorem IsToken.block_inv (h : IsToken lv a) {body} (ha : a = .block l raw r body) :
    l = lv ∧ r = false ∧ body = [] ∧ RawRun raw := by
  cases h with
  | @bracket pair raw' hraw =>
    cases pair <;> cases ha
    exact ⟨rfl, rfl, rfl, hraw⟩
  | _ => cases ha

theorem members_ends (h : Parts lv run) :
    Ends (fun ms => ∀ m ∈ ms, IsMember lv m) (·.isFromRun = true) (members lv run) := by
  fun_induction members lv run with
  | case1 => simp [Ends]
  | case2 l w hw hc pl praw pr pc bl braw br bb rest ih =>
    simp only [Parts, forall_mem_cons] at h
    obtain ⟨-, ⟨hp, -⟩, ⟨hb, -⟩, hrest⟩ := h
    refine (ih hrest).bind fun ms hms => ?_
    obtain ⟨rfl, rfl, rfl, hpraw⟩ := hp.paren_inv rfl
    obtain ⟨rfl, rfl, rfl, hbraw⟩ := hb.block_inv rfl
    exact forall_mem_cons.2 ⟨.fresh (.conditional hw hc hpraw hbraw), hms⟩
  | case3 | case4 | case6 => rfl
  | case5 l w hw hc bl braw br bb rest ih =>
    simp only [Parts, forall_mem_cons] at h
    obtain ⟨-, ⟨hb, -⟩, hrest⟩ := h
    refine (ih hrest).bind fun ms hms => ?_
    obtain ⟨rfl, rfl, rfl, hbraw⟩ := hb.block_inv rfl
    exact forall_mem_cons.2 ⟨.fresh (.unconditional hw (by simpa using hc) hbraw), hms⟩
  | case7 l w rest _ ih =>
    obtain ⟨hw, hrest⟩ := forall_mem_cons.1 h
    exact (ih hrest).bind fun ms hms => forall_mem_cons.2 ⟨.given hw.1 hw.2, hms⟩
  | case8 a rest _ ih =>
    obtain ⟨ha, hrest⟩ := forall_mem_cons.1 h
    exact (ih hrest).bind fun ms hms => forall_mem_cons.2 ⟨.given ha.1 ha.2, hms⟩

/-- The atoms that a member is put together from. -/
inductive Member.Spans (lv : Level) : Member → List Atom → Prop
  | given {a : Atom} : (∀ l w, a = .word l w → Keyword.isClause w = false) → Spans lv (.given a) [a]
  | conditional {l pl bl : Level} {w : String} {praw pc braw bb : List Atom} {pr br : Bool} :
      Keyword.isClause w = true → Keyword.hasCondition w = true →
      Spans lv (.fresh (.word l w) (.clause lv w (some (.paren pl praw pr pc)) (.block bl braw br bb)))
        [.word l w, .paren pl praw pr pc, .block bl braw br bb]
  | unconditional {l bl : Level} {w : String} {braw bb : List Atom} {br : Bool} :
      Keyword.isClause w = true → Keyword.hasCondition w = false →
      Spans lv (.fresh (.word l w) (.clause lv w none (.block bl braw br bb)))
        [.word l w, .block bl braw br bb]

/-- The members of a run, one after the other. -/
inductive MembersOf (lv : Level) : List Atom → List Member → Prop
  | nil : MembersOf lv [] []
  | cons {m : Member} {ms : List Member} {part rest : List Atom} : m.Spans lv part →
      MembersOf lv rest ms → MembersOf lv (part ++ rest) (m :: ms)

theorem membersOf_of_members (h : members lv run = .ok ms) : MembersOf lv run ms := by
  fun_induction members lv run generalizing ms with
  | case1 =>
    cases h
    exact .nil
  | case2 l w hw hc pl praw pr pc bl braw br bb rest ih =>
    obtain ⟨ms, hms, h⟩ := bind_ok h
    cases h
    exact .cons (.conditional hw hc) (ih hms)
  | case3 | case4 | case6 => cases h
  | case5 l w hw hc bl braw br bb rest ih =>
    obtain ⟨ms, hms, h⟩ := bind_ok h
    cases h
    exact .cons (.unconditional hw (by simpa using hc)) (ih hms)
  | case7 l w rest hw ih =>
    obtain ⟨ms, hms, h⟩ := bind_ok h
    cases h
    refine .cons (.given ?_) (ih hms)
    rintro _ _ ⟨⟩
    simpa using hw
  | case8 a rest hne ih =>
    obtain ⟨ms, hms, h⟩ := bind_ok h
    cases h
    exact .cons (.given fun l w ha => (hne l w ha).elim) (ih hms)

theorem MembersOf.forall_mem {P : Atom → Prop} {Q : Member → Prop}
    (h : MembersOf lv run ms) (hrun : ∀ a ∈ run, P a)
    (hQ : ∀ m part, m.Spans lv part → (∀ a ∈ part, P a) → Q m) : ∀ m ∈ ms, Q m := by
  induction h with
  | nil => exact forall_mem_nil _
  | cons hm _ ih =>
    obtain ⟨hpart, hrest⟩ := forall_mem_append.1 hrun
    exact forall_mem_cons.2 ⟨hQ _ _ hm hpart, ih hrest⟩

theorem MembersOf.members_eq (h : MembersOf lv run ms) : members lv run = .ok ms := by
  induction h with
  | nil => rw [members]
  | cons hm _ ih =>
    cases hm with
    | @given a hw =>
      cases a with
      | word l w =>
        rw [singleton_append, members.eq_def]
        simp [hw l w rfl, ih]
      | _ => simp [members, ih]
    | conditional hw hc | unconditional hw hc => simp [members, hw, hc, ih]

/-! ## Chains -/

/-- Clauses next to each other are joined into chains. -/
inductive Joined : List Member → List Phrase → Prop
  | nil : Joined [] []
  | atom {m ms ps} : m.atom.isClause = false → Joined ms ps → Joined (m :: ms) (.atom m.atom :: ps)
  | chain {clauses ms ps} : clauses ≠ [] →
      (∀ m ∈ clauses, m.atom.isClause = true) → Joined ms ps → Joined (clauses ++ ms) (.chain clauses :: ps)

/-- The open chain holds clauses, at least one. -/
def AreOpen (chain? : Option (List Member)) : Prop :=
  ∀ clauses, chain? = some clauses → clauses ≠ [] ∧ ∀ m ∈ clauses, m.atom.isClause = true

theorem Joined.close (h : Joined ms ps) (hopen : AreOpen chain?) :
    Joined ((chain?.getD []).reverse ++ ms) (closeChain chain? ++ ps) := by
  cases chain? with
  | none => exact h
  | some clauses =>
    obtain ⟨hne, hclauses⟩ := hopen clauses rfl
    exact .chain (by simpa using hne) (by simpa using hclauses) h

theorem joined_of_joinClauses (h : joinClauses chain? ms = .ok ps) (hopen : AreOpen chain?) :
    Joined ((chain?.getD []).reverse ++ ms) ps := by
  fun_induction joinClauses chain? ms generalizing ps with
  | case1 chain? =>
    cases h
    simpa using Joined.nil.close hopen
  | case2 chain? m rest l name cond body hm _ ih =>
    obtain ⟨qs, hqs, h⟩ := bind_ok h
    cases h
    exact (ih hqs (by rintro _ ⟨⟩; simp [hm, isClause])).close hopen
  | case3 | case5 | case6 | case8 => cases h
  | case4 m rest l name cond body hm _ clauses _ _ ih =>
    have hmore : AreOpen (some (m :: clauses)) := by
      rintro _ ⟨⟩
      exact ⟨by simp, forall_mem_cons.2 ⟨by rw [hm]; rfl, (hopen clauses rfl).2⟩⟩
    simpa using ih h hmore
  | case7 m rest l name cond body hm _ clauses _ _ _ ih =>
    obtain ⟨qs, hqs, h⟩ := bind_ok h
    cases h
    have hall : ∀ m' ∈ (m :: clauses).reverse, m'.atom.isClause = true := by
      intro m' hm'
      rcases mem_cons.1 (mem_reverse.1 hm') with rfl | hm'
      · rw [hm]
        rfl
      · exact (hopen clauses rfl).2 m' hm'
    simpa using Joined.chain (by simp) hall (ih hqs (by simp [AreOpen]))
  | case9 chain? m rest hm ih =>
    obtain ⟨qs, hqs, h⟩ := bind_ok h
    cases h
    refine (Joined.atom ?_ (ih hqs (by simp [AreOpen]))).close hopen
    cases ha : m.atom with
    | clause => exact (hm _ _ _ _ ha).elim
    | _ => rfl

/-- Clauses with these words form a chain that can go on. -/
def isOpenChain : List String → Bool
  | "if" :: rest => rest.all (· == "elif")
  | ["loop"] | ["while"] | ["for"] => true
  | _ => false

theorem areArms_of_elifs : ∀ {ws}, ws.all (· == "elif") = true →
    areArms ws = true ∧ areArms (ws ++ ["else"]) = true
  | [], _ => ⟨rfl, rfl⟩
  | w :: ws, h => by
    simp only [all_cons, Bool.and_eq_true, beq_iff_eq] at h
    obtain ⟨rfl, h⟩ := h
    simpa [areArms] using areArms_of_elifs h

theorem isChainOf_of_open (h : isOpenChain ws = true) : isChainOf ws = true := by
  unfold isOpenChain at h
  split at h
  · exact (areArms_of_elifs h).1
  all_goals first | rfl | cases h

theorem isOpenChain_elif (h : isOpenChain ws = true)
    (hif : ws.head?.getD "" = "if") : isOpenChain (ws ++ ["elif"]) = true := by
  unfold isOpenChain at h
  split at h
  · simpa [isOpenChain] using h
  all_goals first | exact absurd hif (by decide) | cases h

theorem isChainOf_else (h : isOpenChain ws = true)
    (hloop : ws.head?.getD "" ≠ "loop") : isChainOf (ws ++ ["else"]) = true := by
  unfold isOpenChain at h
  split at h
  · exact (areArms_of_elifs h).2
  · exact absurd rfl hloop
  all_goals first | rfl | cases h

theorem isOpenChain_head {w} (h : Keyword.isChainHead w = true) : isOpenChain [w] = true := by
  have : w = "if" ∨ w = "loop" ∨ w = "for" ∨ w = "while" := by
    simpa [Keyword.isChainHead] using h
  rcases this with rfl | rfl | rfl | rfl <;> rfl

/-- The words of the clauses, which are held last first. -/
def wordsOf (clauses : List Member) : List String :=
  clauses.reverse.map fun m => m.atom.clauseName

theorem wordsOf_cons (m : Member) (clauses : List Member) :
    wordsOf (m :: clauses) = wordsOf clauses ++ [m.atom.clauseName] := by
  simp [wordsOf]

theorem openHead_eq (clauses : List Member) : openHead clauses = (wordsOf clauses).head?.getD "" := by
  simp only [openHead, wordsOf, head?_map, head?_reverse, Option.map_map]
  rfl

/-- The clauses are those of a chain that can go on. -/
structure IsOpenChain (lv : Level) (clauses : List Member) : Prop where
  isClause : ∀ m ∈ clauses, IsClause lv m.atom
  words : isOpenChain (wordsOf clauses) = true

/-- A phrase of a lexed run. -/
inductive IsPhrase (lv : Level) : Phrase → Prop
  | atom {a : Atom} : IsToken lv a → a.isVoid = false → IsPhrase lv (.atom a)
  | chain {clauses : List Member} : (∀ m ∈ clauses, IsClause lv m.atom) →
      isChainOf (clauses.map fun m => m.atom.clauseName) = true → IsPhrase lv (.chain clauses)

theorem IsMember.isClause {m} {name : String} {cond : Option Atom} {body : Atom} (h : IsMember lv m)
    (hm : m.atom = .clause l name cond body) : IsClause lv m.atom := by
  cases h with
  | fresh hc => exact hc
  | @given a ha _ =>
    obtain rfl : a = _ := hm
    generalize hb : Atom.clause l name cond body = b at ha
    cases ha with
    | @bracket pair => cases pair <;> cases hb
    | _ => cases hb

theorem closeChain_phrases (h : ∀ clauses, chain? = some clauses → IsOpenChain lv clauses) :
    ∀ p ∈ closeChain chain?, IsPhrase lv p := by
  cases chain? with
  | none => simp [closeChain]
  | some clauses =>
    obtain ⟨hc, hw⟩ := h clauses rfl
    simp only [closeChain, mem_singleton]
    rintro p rfl
    exact .chain (fun m hm => hc m (mem_reverse.1 hm)) (isChainOf_of_open hw)

theorem joinClauses_ends (chain? : Option (List Member)) (ms : List Member)
    (hopen : ∀ clauses, chain? = some clauses → IsOpenChain lv clauses)
    (hms : ∀ m ∈ ms, IsMember lv m) :
    Ends (fun ps => ∀ p ∈ ps, IsPhrase lv p) (·.isFromRun = true) (joinClauses chain? ms) := by
  fun_induction joinClauses chain? ms with
  | case1 chain? => exact closeChain_phrases hopen
  | case2 chain? m rest l name cond body hm hname ih =>
    obtain ⟨hmem, hrest⟩ := forall_mem_cons.1 hms
    have hfresh : IsOpenChain lv [m] := by
      refine ⟨by simpa using hmem.isClause hm, ?_⟩
      simpa [wordsOf, hm, clauseName] using isOpenChain_head hname
    refine (ih (by rintro _ ⟨⟩; exact hfresh) hrest).bind fun ps hps => ?_
    exact forall_mem_append.2 ⟨closeChain_phrases hopen, hps⟩
  | case3 | case5 | case6 | case8 => rfl
  | case4 m rest l name cond body hm _ clauses hname hhead ih =>
    obtain ⟨hmem, hrest⟩ := forall_mem_cons.1 hms
    obtain ⟨hc, hw⟩ := hopen clauses rfl
    refine ih ?_ hrest
    rintro _ ⟨⟩
    refine ⟨forall_mem_cons.2 ⟨hmem.isClause hm, hc⟩, ?_⟩
    rw [wordsOf_cons, hm, clauseName, beq_iff_eq.1 hname]
    exact isOpenChain_elif hw (by rw [← openHead_eq]; exact beq_iff_eq.1 hhead)
  | case7 m rest l name cond body hm _ clauses _ hname hhead ih =>
    obtain ⟨hmem, hrest⟩ := forall_mem_cons.1 hms
    obtain ⟨hc, hw⟩ := hopen clauses rfl
    refine (ih (by simp) hrest).bind fun ps hps => forall_mem_cons.2 ⟨.chain ?_ ?_, hps⟩
    · intro m' hm'
      rcases mem_cons.1 (mem_reverse.1 hm') with rfl | hm'
      · exact hmem.isClause hm
      · exact hc m' hm'
    · change isChainOf (wordsOf (m :: clauses)) = true
      rw [wordsOf_cons, hm, clauseName, beq_iff_eq.1 hname]
      exact isChainOf_else hw (by rw [← openHead_eq]; simpa using hhead)
  | case9 chain? m rest hm ih =>
    obtain ⟨hmem, hrest⟩ := forall_mem_cons.1 hms
    refine (ih (by simp) hrest).bind fun ps hps => ?_
    refine forall_mem_append.2 ⟨closeChain_phrases hopen, forall_mem_cons.2 ⟨?_, hps⟩⟩
    cases hmem with
    | given ha hv => exact .atom ha hv
    | fresh hc => cases hc <;> exact (hm _ _ _ _ rfl).elim

theorem phrases_inv (h : phrases lv run = .ok ps) : ∃ ms, MembersOf lv run ms ∧ Joined ms ps := by
  obtain ⟨ms, hms, hps⟩ := bind_ok h
  exact ⟨ms, membersOf_of_members hms, joined_of_joinClauses hps (by simp [AreOpen])⟩

theorem groupSyntax_ends (h : Parts lv run) :
    Ends (Parts lv) (·.isFromRun = true) (groupSyntax lv run) := by
  have hphrases : Ends (fun ps => ∀ p ∈ ps, IsPhrase lv p) (·.isFromRun = true)
      (phrases lv run) :=
    (members_ends h).bind fun ms hms => joinClauses_ends none ms (by simp) hms
  refine hphrases.map fun ps hps a ha => ?_
  obtain ⟨p, hp, rfl⟩ := mem_map.1 ha
  cases hps p hp with
  | atom ht hv => exact ⟨ht, hv⟩
  | chain hc hw =>
    refine ⟨.chain (fun a ha => ?_) (by rw [map_map]; exact hw), rfl⟩
    obtain ⟨m, hm, rfl⟩ := mem_map.1 ha
    exact hc m hm

/-! ## Calls and subscripts -/

theorem applyTo_isToken {callee b} (hlv : lv.tag = 0) (hc : IsToken lv callee)
    (ho : callee.isCallable = true) (hb : IsToken lv b) (hbr : b.isArgumentBracket = true) :
    IsToken lv (callee.applyTo b) ∧ (callee.applyTo b).isCallable = true := by
  cases b with
  | paren l raw r contents =>
    obtain ⟨rfl, -, -, hraw⟩ := hb.paren_inv rfl
    simp only [applyTo, Level.bare_of_untagged hlv]
    exact ⟨.call ho hc hraw, rfl⟩
  | list l raw r contents =>
    obtain ⟨rfl, -, -, hraw⟩ := hb.list_inv rfl
    simp only [applyTo, Level.bare_of_untagged hlv]
    exact ⟨.access ho hc hraw, rfl⟩
  | _ => cases hbr

/-- An application whose head and whose brackets stand in a lexed run. -/
structure IsApplication (lv : Level) (p : Application) : Prop where
  head : IsToken lv p.head ∧ p.head.isVoid = false
  brackets : ∀ b ∈ p.brackets, IsToken lv b ∧ b.isArgumentBracket = true
  callable : p.brackets ≠ [] → p.head.isCallable = true

theorem Atom.isVoid_of_isCallable (h : a.isCallable = true) : a.isVoid = false := by
  cases a <;> first | rfl | cases h

theorem Atom.isOperator_of_isCallable (h : a.isCallable = true) : a.isOperator = false := by
  cases a <;> first | rfl | cases h

theorem foldl_applyTo_isToken (hlv : lv.tag = 0) :
    ∀ {bs : List Atom} {callee}, IsToken lv callee → callee.isCallable = true →
      (∀ b ∈ bs, IsToken lv b ∧ b.isArgumentBracket = true) →
      IsToken lv (bs.foldl applyTo callee) ∧ (bs.foldl applyTo callee).isVoid = false
  | [], _, hc, ho, _ => ⟨hc, isVoid_of_isCallable ho⟩
  | b :: bs, callee, hc, ho, hbs => by
    obtain ⟨⟨hb, hbr⟩, hbs⟩ := forall_mem_cons.1 hbs
    obtain ⟨hc', ho'⟩ := applyTo_isToken hlv hc ho hb hbr
    rw [foldl_cons]
    exact foldl_applyTo_isToken hlv hc' ho' hbs

theorem IsApplication.atom {p : Application} (hlv : lv.tag = 0) (h : IsApplication lv p) :
    IsToken lv p.atom ∧ p.atom.isVoid = false := by
  obtain ⟨head, brackets⟩ := p
  cases brackets with
  | nil => exact h.head
  | cons b bs => exact foldl_applyTo_isToken hlv h.head.1 (h.callable (by simp)) h.brackets

/-- The atoms of the application. -/
def Application.source (p : Application) : List Atom := p.head :: p.brackets

theorem source_applicationsFrom (p? : Option Application) (run : List Atom) :
    (applicationsFrom p? run).flatMap Application.source =
      p?.toList.flatMap Application.source ++ run := by
  fun_induction applicationsFrom p? run with
  | case1 => rfl
  | case2 p => simp
  | case3 a rest ih => simp [ih, Application.source]
  | case4 p a rest _ ih =>
    rw [ih]
    simp [Application.source, Application.push]
  | case5 p a rest _ ih => simp [ih, Application.source]

theorem source_applications (run : List Atom) : (applications run).flatMap Application.source = run :=
  source_applicationsFrom none run

/-- The brackets of an application hold arguments, and only a callable atom has brackets. -/
structure Application.Applies (p : Application) : Prop where
  arguments : ∀ b ∈ p.brackets, b.isArgumentBracket = true
  callable : p.brackets ≠ [] → p.head.isCallable = true

theorem Application.Applies.push {p : Application} (h : p.Applies) (ht : p.takes a = true) :
    (p.push a).Applies := by
  simp only [Application.takes, Bool.and_eq_true, Bool.or_eq_true] at ht
  refine ⟨forall_mem_append.2 ⟨h.arguments, forall_mem_singleton.2 ht.1⟩, fun _ => ?_⟩
  rcases ht.2 with hne | hcall
  · exact h.callable (by simpa using hne)
  · exact hcall

theorem applicationsFrom_applies (p? : Option Application) (run : List Atom)
    (hp : ∀ p, p? = some p → p.Applies) : ∀ p ∈ applicationsFrom p? run, p.Applies := by
  have hone (a : Atom) : Application.Applies ⟨a, []⟩ := ⟨forall_mem_nil _, by simp⟩
  fun_induction applicationsFrom p? run with
  | case1 => exact forall_mem_nil _
  | case2 p => simpa using hp
  | case3 a rest ih => exact ih (by rintro _ ⟨⟩; exact hone a)
  | case4 p a rest ht ih => exact ih (by rintro _ ⟨⟩; exact (hp p rfl).push ht)
  | case5 p a rest _ ih => exact forall_mem_cons.2 ⟨hp p rfl, ih (by rintro _ ⟨⟩; exact hone a)⟩

theorem applications_applies (run : List Atom) : ∀ p ∈ applications run, p.Applies :=
  applicationsFrom_applies none run (by simp)

theorem forall_source {P : Atom → Prop} (h : ∀ a ∈ run, P a) :
    ∀ p ∈ applications run, ∀ a ∈ p.source, P a := by
  rw [← source_applications run] at h
  exact fun p hp a ha => h a (mem_flatMap.2 ⟨p, hp, ha⟩)

theorem applications_isApplication (h : Parts lv run) : ∀ p ∈ applications run, IsApplication lv p := by
  intro p hp
  obtain ⟨hhead, hbrackets⟩ := forall_mem_cons.1 (forall_source h p hp)
  have happlies := applications_applies run p hp
  exact ⟨hhead, fun b hb => ⟨(hbrackets b hb).1, happlies.arguments b hb⟩, happlies.callable⟩

theorem groupCalls_parts (hlv : lv.tag = 0) (h : Parts lv run) : Parts lv (groupCalls run) := by
  intro a ha
  obtain ⟨p, hp, rfl⟩ := mem_map.1 ha
  exact (applications_isApplication h p hp).atom hlv

/-! ## The operator split -/

/-- What the operator split makes of a run: nothing if it has no operators, else one operation. -/
inductive SplitOnce (lv : Level) (run : List Atom) : List Atom → Prop
  | terms : (∀ a ∈ run, a.isOperator = false) → SplitOnce lv run run
  | operation {o left right} : run = left ++ .operator lv o :: right →
      SplitOnce lv run [operation lv (.operator lv o) left right]

/-- The split point is the best so far, or is found in the run. -/
def SplitPoint.Within (i : Nat) (best : Option SplitPoint) (run : List Atom) (p : SplitPoint) :
    Prop :=
  best = some p ∨ ∃ left l o right, run = left ++ .operator l o :: right ∧ p.at_ = i + left.length

theorem SplitPoint.Within.cons {i : Nat} {best : Option SplitPoint} {p : SplitPoint}
    (h : p.Within (i + 1) best run) (a : Atom) : p.Within i best (a :: run) := by
  rcases h with h | ⟨left, l, o, right, rfl, hp⟩
  · exact .inl h
  · exact .inr ⟨a :: left, l, o, right, rfl, by simp [hp]; omega⟩

theorem SplitPoint.better_cases (best : Option SplitPoint) (next : SplitPoint) :
    SplitPoint.better best next = next ∨ best = some (SplitPoint.better best next) := by
  cases best with
  | none => exact .inl rfl
  | some b =>
    simp only [SplitPoint.better]
    split
    · exact .inl rfl
    · split
      · exact .inl rfl
      · exact .inr rfl

theorem splitPointFrom_within {i : Nat} {after : Bool} {best : Option SplitPoint} {p : SplitPoint}
    (h : splitPointFrom i after best run = .ok (some p)) : p.Within i best run := by
  fun_induction splitPointFrom i after best run with
  | case1 => exact .inl (Except.ok.inj h)
  | case2 i best l o rest ih => exact (ih h).cons _
  | case3 => cases h
  | case4 i after best l o rest _ op _ ih =>
    rcases ih h with hp | hp
    · obtain rfl := Option.some.inj hp
      rcases SplitPoint.better_cases best ⟨i, op⟩ with hb | hb
      · exact .inr ⟨[], l, o, rest, rfl, by rw [hb]; rfl⟩
      · exact .inl hb
    · exact SplitPoint.Within.cons (.inr hp) _
  | case5 i after best a rest _ ih => exact (ih h).cons a

theorem splitPointFrom_ends (i : Nat) (after : Bool) (best : Option SplitPoint)
    (h : ∀ l o, .operator l o ∈ run → (Operator.find? o).isSome) : Ends (fun
      | some p => p.Within i best run
      | none => best = none ∧ (after = false → ∀ a ∈ run, a.isOperator = false))
      (·.isFromRun = true) (splitPointFrom i after best run) := by
  have hnone : Ends (fun r => r = none →
      best = none ∧ (after = false → ∀ a ∈ run, a.isOperator = false))
      (·.isFromRun = true) (splitPointFrom i after best run) := by
    fun_induction splitPointFrom i after best run with
    | case1 i after best => exact fun hbest => ⟨hbest, fun _ => forall_mem_nil _⟩
    | case2 i best l o rest ih =>
      refine (ih fun l o hm => h l o (mem_cons_of_mem _ hm)).mono fun r hr hn => ?_
      exact ⟨(hr hn).1, by simp⟩
    | case3 i after best l o rest _ hnone =>
      have := h l o mem_cons_self
      simp [hnone] at this
    | case4 i after best l o rest _ op hop ih =>
      refine (ih fun l o hm => h l o (mem_cons_of_mem _ hm)).mono fun r hr hn => ?_
      cases (hr hn).1
    | case5 i after best a rest hne ih =>
      refine (ih fun l o hm => h l o (mem_cons_of_mem _ hm)).mono fun r hr hn => ?_
      refine ⟨(hr hn).1, fun _ => forall_mem_cons.2 ⟨?_, (hr hn).2 rfl⟩⟩
      cases a with
      | operator l o => exact (hne l o rfl).elim
      | _ => rfl
  refine hnone.with_eq.mono fun r hr => ?_
  cases r with
  | none => exact hr.2 rfl
  | some p => exact splitPointFrom_within hr.1

theorem IsToken.operator_inv {o} (h : IsToken lv (.operator l o)) :
    l = lv ∧ (Operator.find? o).isSome := by
  generalize ha : Atom.operator l o = a at h
  cases h with
  | operator ho => cases ha; exact ⟨rfl, ho⟩
  | @bracket pair => cases pair <;> cases ha
  | _ => cases ha

theorem reduce_ends (h : Parts lv run) :
    Ends (SplitOnce lv run) (·.isFromRun = true) (reduce lv run) := by
  refine (splitPointFrom_ends 0 false none fun l o hm => (h _ hm).1.operator_inv.2).bind
    fun r hr => ?_
  cases r with
  | none => exact .terms (hr.2 rfl)
  | some p =>
    rcases hr with hp | ⟨left, l, o, right, rfl, hp⟩
    · cases hp
    · obtain ⟨rfl, -⟩ := (h (.operator l o) (by simp)).1.operator_inv
      have hat : p.at_ = left.length := by omega
      simp only [hat, drop_left, take_left]
      exact .operation rfl

/-- A run of tokens is structured into operands, or into one operation. -/
theorem structureRun_ends (hlv : lv.tag = 0) (h : Tokens lv run) :
    Ends (fun out => ∃ parts, Parts lv parts ∧ SplitOnce lv parts out) (·.isFromRun = true)
      (structureRun lv run) := by
  refine (dropComments_ends h).bind fun atoms ha => ?_
  refine (groupSyntax_ends ha).bind fun atoms hb => ?_
  have hparts := groupCalls_parts hlv hb
  exact (reduce_ends hparts).mono fun out hout => ⟨_, hparts, hout⟩

/-! ## Cuts -/

theorem slotsFrom_items (held : List Atom) (hheld : Tokens lv held) (h : Tokens lv run) :
    ∀ a ∈ slotsFrom lv held run, ∃ raw, Tokens lv raw ∧ a = .item lv raw false [] := by
  have hrev : ∀ {held}, Tokens lv held → Tokens lv held.reverse :=
    fun hh a ha => hh a (mem_reverse.1 ha)
  fun_induction slotsFrom lv held run with
  | case1 => simp
  | case2 held _ =>
    rintro a (_ | ⟨_, ⟨⟩⟩)
    exact ⟨_, hrev hheld, rfl⟩
  | case3 held l c rest _ ih =>
    obtain ⟨-, hrest⟩ := forall_mem_cons.1 h
    exact forall_mem_cons.2 ⟨⟨_, hrev hheld, rfl⟩, ih (by simp [Tokens]) hrest⟩
  | case4 held l c rest _ ih | case5 held a rest _ ih =>
    obtain ⟨ha, hrest⟩ := forall_mem_cons.1 h
    exact ih (forall_mem_cons.2 ⟨ha, hheld⟩) hrest

theorem slots_items (h : Tokens lv run) :
    ∀ a ∈ slots lv run, ∃ raw, Tokens lv raw ∧ a = .item lv raw false [] :=
  slotsFrom_items [] (by simp [Tokens]) h

/-- A statement whose run is unread. -/
inductive IsUnreadStmt (lv : Level) : Atom → Prop
  | comment {text : String} {block : Bool} : IsUnreadStmt lv (.comment lv text block)
  | exprs {raw : List Atom} : Tokens lv raw → IsUnreadStmt lv (.exprStmt lv raw false [])
  | control {head : String} {raw : List Atom} : Keyword.isControl head = true → Tokens lv raw →
      IsUnreadStmt lv (.controlStmt lv head raw false [])

theorem statementOf?_statement (h : Tokens lv run) :
    ∀ a ∈ statementOf? lv run, IsUnreadStmt lv a := by
  intro a ha
  unfold statementOf? at ha
  split at ha
  · cases ha
  · rename_i l w rest
    split at ha
    · rename_i hw
      cases ha
      exact .control hw (forall_mem_cons.1 h).2
    · cases ha
      exact .exprs h
  · cases ha
    exact .exprs h

theorem cutStatements_statements (h : Tokens lv run) :
    ∀ a ∈ cutStatements lv run, IsUnreadStmt lv a := by
  refine forall_mem_append.2 ⟨fun a ha => ?_, fun a ha => ?_⟩
  · obtain ⟨hm, hc⟩ := mem_filter.1 ha
    cases a with
    | comment l text block =>
      obtain rfl : l = lv := (h _ hm).level
      exact .comment
    | _ => cases hc
  · exact statementOf?_statement (fun b hb => h b (mem_filter.1 hb).1) a
      (Option.mem_toList.1 ha)

theorem splitStatementsFrom_statements (held : List Atom) (hheld : Tokens lv held)
    (h : Tokens lv run) : ∀ a ∈ splitStatementsFrom lv held run, IsUnreadStmt lv a := by
  have hcut : ∀ {held}, Tokens lv held → ∀ a ∈ cutStatements lv held.reverse, IsUnreadStmt lv a :=
    fun hh => cutStatements_statements fun a ha => hh a (mem_reverse.1 ha)
  fun_induction splitStatementsFrom lv held run with
  | case1 held => exact hcut hheld
  | case2 held l c rest _ ih =>
    obtain ⟨-, hrest⟩ := forall_mem_cons.1 h
    exact forall_mem_append.2 ⟨hcut hheld, ih (by simp [Tokens]) hrest⟩
  | case3 held l c rest _ ih | case4 held a rest _ ih =>
    obtain ⟨ha, hrest⟩ := forall_mem_cons.1 h
    exact ih (forall_mem_cons.2 ⟨ha, hheld⟩) hrest

theorem splitStatements_statements (h : Tokens lv run) :
    ∀ a ∈ splitStatements lv run, IsUnreadStmt lv a :=
  splitStatementsFrom_statements [] (by simp [Tokens]) h

end

end WatScript
