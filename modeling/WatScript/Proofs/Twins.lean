import Mathlib.Data.Option.Basic
import WatScript.Proofs.Reading

/-!
# Runs that differ in what is unread

Finding the structure of a lexed run never looks into a bracket. So two runs whose atoms differ only in
what is unread in their brackets get the same structure. `Twin R lv` relates two such atoms, where `R`
relates what stands unread in a pair of brackets, and `Near keep R lv` two such runs; unless comments
are kept, their comments may differ too.

The passes respect this relation: `structureRun_twins`, `slots_twins` and `splitStatements_twins`.
-/

namespace WatScript

open List Atom

variable {chain? : Option (List Member)} {held held' : List Atom} {p p' : Application}

section
variable (R : Bracket → List Atom → List Atom → Prop) (lv : Level)

/-- Two clauses that differ only in what is unread. -/
inductive TwinClause : Atom → Atom → Prop
  | conditional {name craw craw' braw braw'} : R .round craw craw' →
      R .brace braw braw' → TwinClause
        (.clause lv name (some (.paren lv craw false [])) (.block lv braw false []))
        (.clause lv name (some (.paren lv craw' false [])) (.block lv braw' false []))
  | unconditional {name braw braw'} : R .brace braw braw' →
      TwinClause (.clause lv name none (.block lv braw false []))
        (.clause lv name none (.block lv braw' false []))

/-- Two atoms of lexed runs that differ only in what is unread. -/
inductive Twin : Atom → Atom → Prop
  | unknown {c} : Twin (.unknown lv c) (.unknown lv c)
  | literal {text} : Twin (.literal lv text) (.literal lv text)
  | comment {text block} : Twin (.comment lv text block) (.comment lv text block)
  | word {w} : Twin (.word lv w) (.word lv w)
  | operator {o} : Twin (.operator lv o) (.operator lv o)
  | block {raw raw'} : R .brace raw raw' → Twin (.block lv raw false []) (.block lv raw' false [])
  | list {raw raw'} : R .square raw raw' → Twin (.list lv raw false []) (.list lv raw' false [])
  | paren {raw raw'} : R .round raw raw' → Twin (.paren lv raw false []) (.paren lv raw' false [])
  | call {callee callee' raw raw'} : callee.isCallable = true →
      Twin callee callee' → R .round raw raw' →
      Twin (.call lv callee raw false false []) (.call lv callee' raw' false false [])
  | access {callee callee' raw raw'} : callee.isCallable = true →
      Twin callee callee' → R .square raw raw' →
      Twin (.access lv callee raw false []) (.access lv callee' raw' false [])
  | chain {clauses clauses'} : Forall₂ (TwinClause R lv) clauses clauses' →
      Twin (.chain lv clauses) (.chain lv clauses')

/-- The atom is no comment, or comments are kept. -/
def Atom.isKept (keep : Bool) (a : Atom) : Bool := keep || !a.isComment

/-- Two lexed runs that differ only in what is unread, and in comments that are not kept. -/
structure Near (keep : Bool) (run run' : List Atom) : Prop where
  left : Tokens lv run
  right : Tokens lv run'
  twins : Forall₂ (Twin R lv) (run.filter (isKept keep)) (run'.filter (isKept keep))

/-- Two expressions that reading resolves: twins, or operations on runs that differ only in what is
unread. -/
inductive Ready (keep : Bool) : Atom → Atom → Prop
  | twin {a a'} : Twin R lv a a' → Ready keep a a'
  | operation {o left left' right right'} : Near R lv keep left left' →
      Near R lv keep right right' → Ready keep
        (operation lv (.operator lv o) left right) (operation lv (.operator lv o) left' right')

/-- Items of near runs. -/
inductive NearItem (keep : Bool) : Atom → Atom → Prop
  | intro {raw raw'} : Near R lv keep raw raw' →
      NearItem keep (.item lv raw false []) (.item lv raw' false [])

/-- Two statements whose runs differ only in what is unread. -/
inductive NearStmt (keep : Bool) : Atom → Atom → Prop
  | comment {text block} : NearStmt keep (.comment lv text block) (.comment lv text block)
  | exprs {raw raw'} : Near R lv keep raw raw' →
      NearStmt keep (.exprStmt lv raw false []) (.exprStmt lv raw' false [])
  | control {head raw raw'} : Near R lv keep raw raw' →
      NearStmt keep (.controlStmt lv head raw false []) (.controlStmt lv head raw' false [])

end

section
variable {R : Bracket → List Atom → List Atom → Prop} {lv : Level} {keep : Bool} {a a' : Atom}
  {run run' : List Atom}

theorem Twin.isComment_eq (h : Twin R lv a a') : a'.isComment = a.isComment := by
  cases h <;> rfl

theorem Twin.isKept_eq (h : Twin R lv a a') : a'.isKept keep = a.isKept keep := by
  rw [isKept, isKept, h.isComment_eq]

theorem Twin.isCallable_eq (h : Twin R lv a a') : a'.isCallable = a.isCallable := by
  cases h <;> rfl

theorem Twin.isArgumentBracket_eq (h : Twin R lv a a') :
    a'.isArgumentBracket = a.isArgumentBracket := by
  cases h <;> rfl

theorem Twin.isClause_eq (h : Twin R lv a a') : a.isClause = false ∧ a'.isClause = false := by
  cases h <;> exact ⟨rfl, rfl⟩

theorem TwinClause.isClause_eq (h : TwinClause R lv a a') : a.isClause = true ∧ a'.isClause = true := by
  cases h <;> exact ⟨rfl, rfl⟩

theorem TwinClause.clauseName_eq (h : TwinClause R lv a a') : a'.clauseName = a.clauseName := by
  cases h <;> rfl

theorem Near.of_twins (ht : Tokens lv run) (ht' : Tokens lv run')
    (h : Forall₂ (Twin R lv) run run') : Near R lv keep run run' :=
  ⟨ht, ht', rel_filter (fun _ _ h => by simp only [h.isKept_eq]) h⟩

theorem Near.without_comments (h : Near R lv keep run run') :
    Forall₂ (Twin R lv) (run.filter (!·.isComment)) (run'.filter (!·.isComment)) := by
  have hkept : (fun a : Atom => !a.isComment && a.isKept keep) = (!·.isComment) := by
    funext a
    cases hc : a.isComment <;> simp [isKept, hc]
  have hboth := rel_filter (p := (!·.isComment)) (q := (!·.isComment))
    (fun _ _ h => by simp only [h.isComment_eq]) h.twins
  rwa [filter_filter, filter_filter, hkept] at hboth

/-! ## The structure of a run -/

/-- The atom is a comma or a semicolon. -/
def Atom.isSeparatorAtom : Atom → Bool
  | .unknown _ c => isSeparator c
  | _ => false

theorem dropComments_eq (run : List Atom) : dropComments run =
      if (run.filter (!·.isComment)).any isSeparatorAtom then .error .unexpectedSeparator
      else .ok (run.filter (!·.isComment)) := by
  have hany : (run.filter (!·.isComment)).any isSeparatorAtom =
      run.any isSeparatorAtom := by
    rw [any_filter]
    congr 1
    funext a
    cases a <;> rfl
  rw [hany]
  rfl

theorem any_isSeparatorAtom_twins (h : Forall₂ (Twin R lv) run run') :
    run'.any isSeparatorAtom = run.any isSeparatorAtom := by
  induction h with
  | nil => rfl
  | cons h _ ih =>
    rw [any_cons, any_cons, ih]
    cases h <;> rfl

variable {E : ReadFault → Prop} (hE : ∀ f, f.isUnmatched = false → E f)
include hE

theorem dropComments_twins (h : Near R lv keep run run') :
    Agree E (Forall₂ (Twin R lv)) (dropComments run) (dropComments run') := by
  have htwins := h.without_comments
  rw [dropComments_eq, dropComments_eq, any_isSeparatorAtom_twins htwins]
  split
  · exact .error (hE _ rfl)
  · exact .ok htwins

/-- Members that are twins, or clauses that are. -/
def TwinMember (R : Bracket → List Atom → List Atom → Prop) (lv : Level) (m m' : Member) : Prop :=
  Twin R lv m.atom m'.atom ∨ TwinClause R lv m.atom m'.atom

theorem members_twins (h : Forall₂ (Twin R lv) run run') :
    Agree E (Forall₂ (TwinMember R lv)) (members lv run) (members lv run') := by
  fun_induction members lv run generalizing run' with
  | case1 => cases h; exact .ok .nil
  | case2 l w hw hc pl praw pr pc bl braw br bb rest ih =>
    obtain _ | ⟨⟨⟩, _ | ⟨hparen, _ | ⟨hblock, hrest⟩⟩⟩ := h
    cases hparen with | paren hcond =>
    cases hblock with | block hbody =>
    rw [members.eq_def lv (.word lv w :: _)]
    simp only [hw, hc, if_true]
    exact (ih hrest).bind fun ms ms' hms => .ok (.cons (.inr (.conditional hcond hbody)) hms)
  | case3 l w hw hc pl praw pr pc rest hne =>
    obtain _ | ⟨⟨⟩, _ | ⟨hparen, hrest⟩⟩ := h
    cases hparen
    rw [members.eq_def]
    simp only [hw, hc, if_true]
    cases hrest with
    | nil => exact .error (hE _ rfl)
    | cons hb _ =>
      cases hb with
      | block => exact (hne _ _ _ _ _ rfl).elim
      | _ => exact .error (hE _ rfl)
  | case4 l w rest hw hc hne hne' =>
    obtain _ | ⟨⟨⟩, hrest⟩ := h
    rw [members.eq_def]
    simp only [hw, hc, if_true]
    cases hrest with
    | nil => exact .error (hE _ rfl)
    | cons hb _ =>
      cases hb with
      | paren => exact (hne' _ _ _ _ _ rfl).elim
      | _ => exact .error (hE _ rfl)
  | case5 l w hw hc bl braw br bb rest ih =>
    obtain _ | ⟨⟨⟩, _ | ⟨hblock, hrest⟩⟩ := h
    cases hblock with | block hbody =>
    rw [members.eq_def lv (.word lv w :: _)]
    simp only [hw, hc, if_true]
    exact (ih hrest).bind fun ms ms' hms => .ok (.cons (.inr (.unconditional hbody)) hms)
  | case6 l w rest hw hc hne =>
    obtain _ | ⟨⟨⟩, hrest⟩ := h
    rw [members.eq_def]
    simp only [hw, hc, if_true]
    cases hrest with
    | nil => exact .error (hE _ rfl)
    | cons hb _ =>
      cases hb with
      | block => exact (hne _ _ _ _ _ rfl).elim
      | _ => exact .error (hE _ rfl)
  | case7 l w rest hw ih =>
    obtain _ | ⟨⟨⟩, hrest⟩ := h
    rw [members.eq_def lv (.word lv w :: _)]
    simp only [hw]
    exact (ih hrest).bind fun ms ms' hms => .ok (.cons (.inl .word) hms)
  | case8 a rest hne ih =>
    obtain _ | ⟨ha, hrest⟩ := h
    rw [members]
    · exact (ih hrest).bind fun ms ms' hms => .ok (.cons (.inl ha) hms)
    · rintro l w rfl
      cases ha
      exact hne _ _ rfl

omit hE in
theorem joinClauses_clause {m rest} (hm : m.atom.isClause = true) : joinClauses chain? (m :: rest) =
      if Keyword.isChainHead m.atom.clauseName then
        (joinClauses (some [m]) rest).map (closeChain chain? ++ ·) else
        match chain? with
        | none => .error .orphanClause
        | some clauses => if m.atom.clauseName == "elif" then
            if openHead clauses == "if" then joinClauses (some (m :: clauses)) rest
            else .error .clauseOrder else if m.atom.clauseName == "else" then
            if openHead clauses == "loop" then .error .clauseOrder
            else (joinClauses none rest).map (.chain (m :: clauses).reverse :: ·)
          else .error .clauseOrder := by
  rw [joinClauses.eq_def]
  cases ha : m.atom with
  | clause =>
    simp only [ha]
    rfl
  | _ =>
    rw [ha] at hm
    cases hm

omit hE in
theorem joinClauses_atom {m rest} (hm : m.atom.isClause = false) : joinClauses chain? (m :: rest) =
      (joinClauses none rest).map (closeChain chain? ++ .atom m.atom :: ·) := by
  rw [joinClauses.eq_def]
  cases ha : m.atom with
  | clause =>
    rw [ha] at hm
    cases hm
  | _ =>
    simp only [ha]
    rfl

omit hE in
theorem openHead_eq_of_forall₂ {C}
    (hC : ∀ {m m'}, C m m' → m'.atom.clauseName = m.atom.clauseName) {clauses clauses'}
    (h : Forall₂ C clauses clauses') : openHead clauses' = openHead clauses := by
  have hwords : wordsOf clauses' = wordsOf clauses := by
    rw [wordsOf, wordsOf, map_reverse, map_reverse]
    congr 1
    induction h with
    | nil => rfl
    | cons h _ ih => rw [map_cons, map_cons, ih, hC h]
  rw [openHead_eq, openHead_eq, hwords]

theorem joinClauses_agree {M C Q} (hC : ∀ {m m'}, C m m' → m'.atom.clauseName = m.atom.clauseName)
    (hM : ∀ {m m'}, M m m' →
      m.atom.isClause = false ∧ m'.atom.isClause = false ∧ Q (.atom m.atom) (.atom m'.atom) ∨
        m.atom.isClause = true ∧ m'.atom.isClause = true ∧ C m m')
    (hQ : ∀ {clauses clauses'}, Forall₂ C clauses clauses' → Q (.chain clauses) (.chain clauses'))
    {chain?' ms ms'} (hopen : Option.Rel (Forall₂ C) chain? chain?') (h : Forall₂ M ms ms') :
    Agree E (Forall₂ Q) (joinClauses chain? ms) (joinClauses chain?' ms') := by
  have hclose {chain? chain?' : Option (List Member)} (h : Option.Rel (Forall₂ C) chain? chain?') :
      Forall₂ Q (closeChain chain?) (closeChain chain?') := by
    cases h with
    | none => exact .nil
    | some h => exact .cons (hQ (forall₂_reverse_iff.2 h)) .nil
  induction h generalizing chain? chain?' with
  | nil =>
    rw [joinClauses, joinClauses]
    exact .ok (hclose hopen)
  | @cons m m' rest rest' hm _ ih =>
    obtain ⟨hm, hm', hatom⟩ | ⟨hm, hm', hclause⟩ := hM hm
    · -- no clause: the open chain ends here
      rw [joinClauses_atom hm, joinClauses_atom hm']
      exact (ih .none).map fun ps ps' hps => rel_append (hclose hopen) (.cons hatom hps)
    · rw [joinClauses_clause hm, joinClauses_clause hm', hC hclause]
      split
      · exact (ih (.some (.cons hclause .nil))).map fun ps ps' hps => rel_append (hclose hopen) hps
      · cases hopen with
        | none => exact .error (hE _ rfl)
        | some hc =>
          simp only [openHead_eq_of_forall₂ hC hc]
          split
          · split
            · exact ih (.some (.cons hclause hc))
            · exact .error (hE _ rfl)
          · split
            · split
              · exact .error (hE _ rfl)
              · exact (ih .none).map fun ps ps' hps =>
                  .cons (hQ (forall₂_reverse_iff.2 (.cons hclause hc))) hps
            · exact .error (hE _ rfl)

theorem groupSyntax_twins (h : Forall₂ (Twin R lv) run run') :
    Agree E (Forall₂ (Twin R lv)) (groupSyntax lv run) (groupSyntax lv run') := by
  have hphrases : Agree E (Forall₂ fun p p' => Twin R lv (p.toAtom lv) (p'.toAtom lv))
      (phrases lv run) (phrases lv run') := by
    refine (members_twins hE h).bind fun ms ms' hms => joinClauses_agree hE
      (C := fun m m' => TwinClause R lv m.atom m'.atom) TwinClause.clauseName_eq ?_ ?_ .none hms
    · rintro m m' (hm | hm)
      · exact .inl ⟨hm.isClause_eq.1, hm.isClause_eq.2, hm⟩
      · exact .inr ⟨hm.isClause_eq.1, hm.isClause_eq.2, hm⟩
    · intro clauses clauses' hc
      exact .chain (forall₂_map_left_iff.2 (forall₂_map_right_iff.2 hc))
  exact hphrases.map fun ps ps' hps => forall₂_map_left_iff.2 (forall₂_map_right_iff.2 hps)

omit hE

/-! ## Calls and subscripts -/

/-- Applications of twins to twins. -/
structure TwinApplication (R : Bracket → List Atom → List Atom → Prop) (lv : Level)
    (p p' : Application) : Prop where
  head : Twin R lv p.head p'.head
  brackets : Forall₂ (Twin R lv) p.brackets p'.brackets
  arguments : ∀ b ∈ p.brackets, b.isArgumentBracket = true
  callable : p.brackets ≠ [] → p.head.isCallable = true

theorem applyTo_twins (hlv : lv.tag = 0) {callee callee' b b'} (hc : Twin R lv callee callee')
    (ho : callee.isCallable = true) (hb : Twin R lv b b') (hbr : b.isArgumentBracket = true) :
    Twin R lv (callee.applyTo b) (callee'.applyTo b') ∧ (callee.applyTo b).isCallable = true := by
  cases hb with
  | paren hraw =>
    simp only [applyTo, Level.bare_of_untagged hlv]
    exact ⟨.call ho hc hraw, rfl⟩
  | list hraw =>
    simp only [applyTo, Level.bare_of_untagged hlv]
    exact ⟨.access ho hc hraw, rfl⟩
  | _ => cases hbr

theorem foldl_applyTo_twins (hlv : lv.tag = 0) :
    ∀ {bs bs' callee callee'}, Twin R lv callee callee' →
      callee.isCallable = true → Forall₂ (Twin R lv) bs bs' →
      (∀ b ∈ bs, b.isArgumentBracket = true) →
      Twin R lv (bs.foldl applyTo callee) (bs'.foldl applyTo callee')
  | _, _, _, _, hc, _, .nil, _ => hc
  | _, _, _, _, hc, ho, .cons hb hbs, hbr => by
    obtain ⟨hb', hbs'⟩ := forall_mem_cons.1 hbr
    obtain ⟨hc', ho'⟩ := applyTo_twins hlv hc ho hb hb'
    rw [foldl_cons, foldl_cons]
    exact foldl_applyTo_twins hlv hc' ho' hbs hbs'

theorem TwinApplication.atom (hlv : lv.tag = 0)
    (h : TwinApplication R lv p p') : Twin R lv p.atom p'.atom := by
  obtain ⟨head, brackets⟩ := p
  obtain ⟨head', brackets'⟩ := p'
  obtain ⟨hhead, hbrackets, harguments, hcallable⟩ := h
  cases brackets with
  | nil => cases hbrackets; exact hhead
  | cons b bs => exact foldl_applyTo_twins hlv hhead (hcallable (by simp)) hbrackets harguments

theorem TwinApplication.takes_eq (h : TwinApplication R lv p p')
    (ha : Twin R lv a a') : p'.takes a' = p.takes a := by
  have hempty : p'.brackets.isEmpty = p.brackets.isEmpty := by
    rw [Bool.eq_iff_iff, isEmpty_iff_length_eq_zero, isEmpty_iff_length_eq_zero,
      h.brackets.length_eq]
  rw [Application.takes, Application.takes, ha.isArgumentBracket_eq, h.head.isCallable_eq, hempty]

theorem TwinApplication.push (h : TwinApplication R lv p p')
    (ha : Twin R lv a a') (ht : p.takes a = true) :
    TwinApplication R lv (p.push a) (p'.push a') := by
  simp only [Application.takes, Bool.and_eq_true, Bool.or_eq_true] at ht
  refine ⟨h.head, rel_append h.brackets (.cons ha .nil), ?_, fun _ => ?_⟩
  · exact forall_mem_append.2 ⟨h.arguments, by simpa using ht.1⟩
  · rcases ht.2 with hne | hcall
    · exact h.callable (by simpa using hne)
    · exact hcall

theorem TwinApplication.single (ha : Twin R lv a a') : TwinApplication R lv ⟨a, []⟩ ⟨a', []⟩ :=
  ⟨ha, .nil, by simp, by simp⟩

theorem applicationsFrom_twins {p? p?'}
    (hp : Option.Rel (TwinApplication R lv) p? p?') (h : Forall₂ (Twin R lv) run run') :
    Forall₂ (TwinApplication R lv) (applicationsFrom p? run) (applicationsFrom p?' run') := by
  induction h generalizing p? p?' with
  | nil =>
    cases hp with
    | none => exact .nil
    | some hp => exact .cons hp .nil
  | cons ha _ ih =>
    cases hp with
    | none => exact ih (.some (.single ha))
    | some hp =>
      rw [applicationsFrom, applicationsFrom, hp.takes_eq ha]
      split
      · rename_i ht
        exact ih (.some (hp.push ha ht))
      · exact .cons hp (ih (.some (.single ha)))

theorem groupCalls_twins (hlv : lv.tag = 0) (h : Forall₂ (Twin R lv) run run') :
    Forall₂ (Twin R lv) (groupCalls run) (groupCalls run') := by
  refine forall₂_map_left_iff.2 (forall₂_map_right_iff.2 ?_)
  exact (applicationsFrom_twins .none h).imp fun _ _ hp => hp.atom hlv

/-! ## The operator split -/

theorem splitPointFrom_twins (h : Forall₂ (Twin R lv) run run') (i : Nat) (after : Bool)
    (best : Option SplitPoint) :
    splitPointFrom i after best run' = splitPointFrom i after best run := by
  induction h generalizing i after best with
  | nil => rfl
  | cons ha _ ih =>
    cases ha with
    | operator => simp only [splitPointFrom, ih]
    | _ => rw [splitPointFrom, splitPointFrom, ih] <;> simp

theorem splitPointFrom_error {i after best f}
    (h : splitPointFrom i after best run = .error f) : f = .unknownOperator := by
  fun_induction splitPointFrom i after best run with
  | case1 => cases h
  | case2 _ _ _ _ _ ih => exact ih h
  | case3 => cases h; rfl
  | case4 _ _ _ _ _ _ _ _ _ ih => exact ih h
  | case5 _ _ _ _ _ _ ih => exact ih h

theorem Near.of_parts (hp : Parts lv run) (hp' : Parts lv run')
    (h : Forall₂ (Twin R lv) run run') : Near R lv keep run run' :=
  .of_twins (fun a ha => (hp a ha).1) (fun a ha => (hp' a ha).1) h

include hE

theorem reduce_twins (hp : Parts lv run) (hp' : Parts lv run') (h : Forall₂ (Twin R lv) run run') :
    Agree E (Forall₂ (Ready R lv keep)) (reduce lv run) (reduce lv run') := by
  have hends := splitPointFrom_ends 0 false none fun l o hm => (hp _ hm).1.operator_inv.2
  rw [reduce, reduce, splitPoint?, splitPoint?, splitPointFrom_twins h]
  cases hs : splitPointFrom 0 false none run with
  | error f =>
    obtain rfl := splitPointFrom_error hs
    exact .error (hE _ rfl)
  | ok r =>
    rw [hs] at hends
    cases r with
    | none => exact .ok (h.imp fun _ _ => .twin)
    | some p =>
      rcases hends with hnone | ⟨left, l, o, right, rfl, hat⟩
      · cases hnone
      have hat : p.at_ = left.length := by omega
      have htake := forall₂_take left.length h
      have hdrop := forall₂_drop left.length h
      rw [take_left] at htake
      rw [drop_left] at hdrop
      generalize hd : run'.drop left.length = rest' at hdrop
      obtain _ | @⟨_, op', _, right', hop, hright⟩ := hdrop
      cases hop
      have hleft : Near R lv keep left (run'.take left.length) :=
        .of_parts (fun a ha => hp a (mem_append_left _ ha))
          (fun a ha => hp' a (mem_of_mem_take ha)) htake
      have hright : Near R lv keep right right' := by
        refine .of_parts (fun a ha => hp a (by simp [ha])) (fun a ha => hp' a ?_) hright
        exact mem_of_mem_drop (hd ▸ mem_cons_of_mem _ ha)
      simp only [hat, hd, take_left, drop_left, bind, Except.bind, pure, Except.pure]
      exact .ok (.cons (.operation hleft hright) .nil)

/-- Near runs have the same structure. -/
theorem structureRun_twins (hlv : lv.tag = 0) (h : Near R lv keep run run') :
    Agree E (Forall₂ (Ready R lv keep)) (structureRun lv run) (structureRun lv run') := by
  have hparts : ∀ {run out}, Tokens lv run → dropComments run = .ok out → Parts lv out := by
    intro run out ht heq
    have := dropComments_ends ht
    rwa [heq] at this
  have hjoined : ∀ {run out}, Parts lv run → groupSyntax lv run = .ok out → Parts lv out := by
    intro run out hp heq
    have := groupSyntax_ends hp
    rwa [heq] at this
  refine (dropComments_twins hE h).with_eq.bind fun r r' ⟨hr, hr', htwins⟩ => ?_
  refine (groupSyntax_twins hE htwins).with_eq.bind fun t t' ⟨ht, ht', htwins⟩ => ?_
  refine reduce_twins hE ?_ ?_ (groupCalls_twins hlv htwins)
  · exact groupCalls_parts hlv (hjoined (hparts h.left hr) ht)
  · exact groupCalls_parts hlv (hjoined (hparts h.right hr') ht')

omit hE

/-! ## Cuts -/

theorem NearItem.of_held (hheld : Tokens lv held) (hheld' : Tokens lv held')
    (hh : Forall₂ (Twin R lv) (held.filter (isKept keep)) (held'.filter (isKept keep))) :
    NearItem R lv keep (.item lv held.reverse false []) (.item lv held'.reverse false []) := by
  refine .intro ⟨fun a ha => hheld a (mem_reverse.1 ha),
    fun a ha => hheld' a (mem_reverse.1 ha), ?_⟩
  rw [filter_reverse, filter_reverse]
  exact rel_reverse hh

theorem slotsFrom_cons_twins (hheld : Tokens lv held)
    (hheld' : Tokens lv held') (ha : Twin R lv a a')
    (hh : Forall₂ (Twin R lv) (held.filter (isKept keep)) (held'.filter (isKept keep)))
    (hclosed : ∀ l, a = .unknown l ',' →
      Forall₂ (NearItem R lv keep) (slotsFrom lv [] run) (slotsFrom lv [] run'))
    (hopen : Forall₂ (Twin R lv) ((a :: held).filter (isKept keep))
        ((a' :: held').filter (isKept keep)) →
      Forall₂ (NearItem R lv keep) (slotsFrom lv (a :: held) run)
        (slotsFrom lv (a' :: held') run')) :
    Forall₂ (NearItem R lv keep) (slotsFrom lv held (a :: run))
      (slotsFrom lv held' (a' :: run')) := by
  have hopen := hopen (by
    rw [filter_cons, filter_cons, ha.isKept_eq]
    split
    · exact .cons ha hh
    · exact hh)
  cases ha with
  | @unknown c =>
    rw [slotsFrom, slotsFrom]
    split
    · rename_i hc
      exact .cons (.of_held hheld hheld' hh) (hclosed lv (by rw [beq_iff_eq.1 hc]))
    · exact hopen
  | _ =>
    rw [slotsFrom, slotsFrom]
    · exact hopen
    all_goals simp

/-- Runs that differ only in what is unread have near slots, also if comments that are not kept have
been read before them. -/
theorem slotsFrom_twins (hheld : Tokens lv held) (hheld' : Tokens lv held')
    (ht : Tokens lv run) (ht' : Tokens lv run')
    (hh : Forall₂ (Twin R lv) (held.filter (isKept keep)) (held'.filter (isKept keep)))
    (hempty : run = [] → (held = [] ↔ held' = [])) (h : Forall₂ (Twin R lv) run run') :
    Forall₂ (NearItem R lv keep) (slotsFrom lv held run) (slotsFrom lv held' run') := by
  induction h generalizing held held' with
  | nil =>
    have hiff := hempty rfl
    cases held with
    | nil =>
      obtain rfl := hiff.1 rfl
      exact .nil
    | cons b held =>
      cases held' with
      | nil => cases hiff.2 rfl
      | cons b' held' => exact .cons (.of_held hheld hheld' hh) .nil
  | cons ha _ ih =>
    obtain ⟨hta, hrest⟩ := forall_mem_cons.1 ht
    obtain ⟨hta', hrest'⟩ := forall_mem_cons.1 ht'
    refine slotsFrom_cons_twins hheld hheld' ha hh (fun _ _ => ?_) fun hcons => ?_
    · exact ih (fun _ h => nomatch h) (fun _ h => nomatch h) hrest hrest' .nil fun _ => Iff.rfl
    · exact ih (forall_mem_cons.2 ⟨hta, hheld⟩) (forall_mem_cons.2 ⟨hta', hheld'⟩) hrest
        hrest' hcons fun _ => by simp

theorem filter_isKept_true (run : List Atom) : run.filter (isKept true) = run :=
  filter_eq_self.2 fun _ _ => rfl

/-- Where comments are kept, near runs have near slots. -/
theorem slots_twins (h : Near R lv true run run') :
    Forall₂ (NearItem R lv keep) (slots lv run) (slots lv run') := by
  have htwins := h.twins
  rw [filter_isKept_true, filter_isKept_true] at htwins
  exact slotsFrom_twins (fun _ h => nomatch h) (fun _ h => nomatch h) h.left h.right .nil
    (fun _ => Iff.rfl) htwins

theorem statementOf?_twins (ht : Tokens lv run) (ht' : Tokens lv run')
    (h : Forall₂ (Twin R lv) run run') :
    Forall₂ (NearStmt R lv keep) (statementOf? lv run).toList (statementOf? lv run').toList := by
  have hexprs : NearStmt R lv keep (.exprStmt lv run false []) (.exprStmt lv run' false []) :=
    .exprs (.of_twins ht ht' h)
  cases h with
  | nil => exact .nil
  | cons ha hrest =>
    cases ha with
    | word =>
      rw [statementOf?, statementOf?]
      split
      · refine .cons (.control (.of_twins ?_ ?_ hrest)) .nil
        · exact (forall_mem_cons.1 ht).2
        · exact (forall_mem_cons.1 ht').2
      · exact .cons hexprs .nil
    | _ => exact .cons hexprs .nil

theorem cutStatements_twins (ht : Tokens lv run) (ht' : Tokens lv run')
    (h : Forall₂ (Twin R lv) run run') :
    Forall₂ (NearStmt R lv keep) (cutStatements lv run) (cutStatements lv run') := by
  have hcomments : Forall₂ (NearStmt R lv keep) (run.filter isComment)
      (run'.filter isComment) := by
    clear ht ht'
    induction h with
    | nil => exact .nil
    | cons ha _ ih =>
      cases ha with
      | comment => exact .cons .comment ih
      | _ => exact ih
  refine rel_append hcomments (statementOf?_twins ?_ ?_ ?_)
  · exact fun a ha => ht a (mem_filter.1 ha).1
  · exact fun a ha => ht' a (mem_filter.1 ha).1
  · exact rel_filter (fun _ _ h => by simp only [h.isComment_eq]) h

theorem splitStatementsFrom_twins (hheld : Tokens lv held)
    (hheld' : Tokens lv held') (ht : Tokens lv run) (ht' : Tokens lv run')
    (hh : Forall₂ (Twin R lv) held held') (h : Forall₂ (Twin R lv) run run') :
    Forall₂ (NearStmt R lv keep) (splitStatementsFrom lv held run)
      (splitStatementsFrom lv held' run') := by
  have hcut : ∀ {held held'}, Tokens lv held → Tokens lv held' →
      Forall₂ (Twin R lv) held held' → Forall₂ (NearStmt R lv keep)
        (cutStatements lv held.reverse) (cutStatements lv held'.reverse) :=
    fun ht ht' hh => cutStatements_twins (fun a ha => ht a (mem_reverse.1 ha))
      (fun a ha => ht' a (mem_reverse.1 ha)) (rel_reverse hh)
  induction h generalizing held held' with
  | nil =>
    rw [splitStatementsFrom, splitStatementsFrom]
    exact hcut hheld hheld' hh
  | @cons a a' rest rest' ha _ ih =>
    obtain ⟨hta, hrest⟩ := forall_mem_cons.1 ht
    obtain ⟨hta', hrest'⟩ := forall_mem_cons.1 ht'
    have hopen := ih (forall_mem_cons.2 ⟨hta, hheld⟩) (forall_mem_cons.2 ⟨hta', hheld'⟩)
      hrest hrest' (.cons ha hh)
    have hclosed : Forall₂ (NearStmt R lv keep) (splitStatementsFrom lv [] rest)
        (splitStatementsFrom lv [] rest') :=
      ih (by simp [Tokens]) (by simp [Tokens]) hrest hrest' .nil
    cases ha with
    | @unknown c =>
      rw [splitStatementsFrom, splitStatementsFrom]
      split
      · exact rel_append (hcut hheld hheld' hh) hclosed
      · exact hopen
    | _ =>
      rw [splitStatementsFrom, splitStatementsFrom]
      · exact hopen
      all_goals simp

theorem filter_cutStatements (keep : Bool) (lv : Level) (run : List Atom) :
    (cutStatements lv run).filter (isKept keep) = cutStatements lv (run.filter (isKept keep)) := by
  cases keep with
  | true => rw [filter_isKept_true, filter_isKept_true]
  | false =>
    have hstmt : ∀ a, statementOf? lv (run.filter (!·.isComment)) = some a →
        a.isComment = false := by
      intro a ha
      unfold statementOf? at ha
      split at ha
      · cases ha
      · split at ha <;> (cases ha; rfl)
      · cases ha
        rfl
    have hkept : isKept false = (!·.isComment) := by
      funext a
      rfl
    simpa [cutStatements, hkept] using hstmt

theorem filter_splitStatementsFrom (keep : Bool) (lv : Level) (held run : List Atom) :
    (splitStatementsFrom lv held run).filter (isKept keep) =
      splitStatementsFrom lv (held.filter (isKept keep)) (run.filter (isKept keep)) := by
  fun_induction splitStatementsFrom lv held run with
  | case1 held =>
    rw [filter_cutStatements, filter_nil, splitStatementsFrom, filter_reverse]
  | case2 held l c rest hc ih =>
    rw [filter_append, filter_cutStatements, ih, filter_cons_of_pos (by cases keep <;> rfl),
      splitStatementsFrom, if_pos hc, filter_reverse, filter_nil]
  | case3 held l c rest hc ih =>
    rw [ih, filter_cons_of_pos (by cases keep <;> rfl),
      filter_cons_of_pos (by cases keep <;> rfl), splitStatementsFrom, if_neg hc]
  | case4 held a rest hne ih =>
    rw [ih, filter_cons, filter_cons]
    split
    · rw [splitStatementsFrom]
      exact hne
    · rfl

/-- Near runs have near statements, apart from comments that are not kept. -/
theorem splitStatements_twins (h : Near R lv keep run run') :
    Forall₂ (NearStmt R lv keep) ((splitStatements lv run).filter (isKept keep))
      ((splitStatements lv run').filter (isKept keep)) := by
  rw [splitStatements, splitStatements, filter_splitStatementsFrom, filter_splitStatementsFrom]
  refine splitStatementsFrom_twins (by simp [Tokens]) (by simp [Tokens]) ?_ ?_ .nil h.twins
  · exact fun a ha => h.left a (mem_filter.1 ha).1
  · exact fun a ha => h.right a (mem_filter.1 ha).1

/-! ## Freshly lexed runs -/

/-- The atom is one that lexing leaves: no call, subscript or chain has been found. -/
def Atom.isSimple : Atom → Bool
  | .unknown .. | .literal .. | .comment .. | .word .. | .operator .. => true
  | .block .. | .paren .. | .list .. => true
  | _ => false

theorem Bracket.isSimple_atom (pair : Bracket) (lv : Level) (raw : List Atom) :
    (pair.atom lv raw).isSimple = true := by
  cases pair <;> rfl

theorem IsToken.rawRun {pair : Bracket} {l : Level} {raw : List Atom}
    (h : IsToken lv (pair.atom l raw)) : RawRun raw := by
  cases pair with
  | brace => exact (h.block_inv rfl).2.2.2
  | square => exact (h.list_inv rfl).2.2.2
  | round => exact (h.paren_inv rfl).2.2.2

theorem IsRaw.isSimple (h : IsRaw a) : a.isSimple = true := by
  cases h with
  | text htext => cases a <;> first | rfl | cases htext
  | bracket => exact Bracket.isSimple_atom ..

theorem group_raw (hraw : RawRun run) :
    group lv (relevel lv run) = groupBrackets lv (relevel lv run) >>= tokenize lv := by
  rw [group, extractLiterals_of_literalFree lv hraw.literalFree.relevel]
  rfl

theorem isSimple_of_group {toks} (hlv : lv.tag = 0) (hraw : RawRun run)
    (h : group lv (relevel lv run) = .ok toks) : ∀ a ∈ toks, a.isSimple = true := by
  rw [group_raw hraw] at h
  obtain ⟨grouped, hgrouped, h⟩ := bind_ok h
  obtain ⟨r₁, r₂, h₁, h₂, h₃⟩ := groupBrackets_ok hgrouped
  have hrun : ∀ a ∈ relevel lv run, a.isSimple = true := by
    intro a ha
    obtain ⟨b, hb, rfl⟩ := mem_map.1 ha
    exact ((hraw.isRaw b hb).relevel hlv).1.isSimple
  have hsimple : ∀ a ∈ grouped, a.isSimple = true := by
    refine h₃.all (h₂.all (h₁.all hrun ?_) ?_) ?_
    all_goals exact fun _ _ => Bracket.isSimple_atom ..
  have hends := tokenize_ends lv grouped
  rw [h] at hends
  intro a ha
  rcases hends a ha with ⟨hm, -⟩ | hx
  · exact hsimple a hm
  · cases hx <;> rfl

theorem Twin.of_withRaw (h : IsToken lv a) (h' : IsToken lv a') (hs : a.isSimple = true)
    (heq : a.withRaw [] = a'.withRaw [])
    (hR : ∀ pair raw raw', a = pair.atom lv raw → a' = pair.atom lv raw' → R pair raw raw') :
    Twin R lv a a' := by
  cases h with
  | call | access | chain => cases hs
  | @bracket pair raw =>
    cases h' with
    | @bracket pair' raw' =>
      cases pair <;> cases pair' <;> cases heq
      · exact .block (hR .brace raw raw' rfl rfl)
      · exact .list (hR .square raw raw' rfl rfl)
      · exact .paren (hR .round raw raw' rfl rfl)
    | _ => cases pair <;> cases heq
  | separator | literal | comment | word | operator =>
    cases h' with
    | @bracket pair' => cases pair' <;> cases heq
    | _ => cases heq <;> constructor

end

end WatScript
