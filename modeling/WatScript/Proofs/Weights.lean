import Mathlib.Algebra.GroupWithZero.Nat
import WatScript.Proofs.Structure

/-!
# No pass raises the weight of a run

The budget of a reading is computed from the weight of what is read. The lemmas here say that a pass
leaves a run no heavier than it was: `weights_group` for lexing,
`weights_structureRun` for chains, calls and the operator split. Cutting a run adds at most what one
more item or one more statement weighs (`weights_slots`, `weights_splitStatements`).
-/

namespace WatScript

open List

/-! ## Runs -/

@[simp] theorem weights_append (as bs : List Atom) : weights (as ++ bs) = weights as + weights bs := by
  induction as with
  | nil => simp
  | cons a as ih =>
    rw [cons_append, weights_cons, weights_cons, ih]
    omega

@[simp] theorem weights_reverse (run : List Atom) : weights run.reverse = weights run := by
  induction run with
  | nil => rfl
  | cons a rest ih =>
    rw [reverse_cons, weights_append, weights_cons, weights_nil, weights_cons, ih]
    omega

theorem weight_le_weights {a run} (h : a ∈ run) : a.weight ≤ weights run := by
  induction run with
  | nil => cases h
  | cons b rest ih =>
    rw [weights_cons]
    rcases mem_cons.1 h with rfl | h
    · omega
    · have := ih h
      omega

theorem weights_filter_le (p : Atom → Bool) (run : List Atom) :
    weights (run.filter p) ≤ weights run := by
  induction run with
  | nil => simp
  | cons a rest ih =>
    rw [filter_cons, weights_cons]
    split
    · rw [weights_cons]
      omega
    · omega

theorem Atom.weight_relevel (lv : Level) (a : Atom) : (a.relevel lv).weight = a.weight := by
  cases a <;> rfl

@[simp] theorem weights_relevel (lv : Level) (run : List Atom) :
    weights (relevel lv run) = weights run := by
  induction run with
  | nil => rfl
  | cons a rest ih =>
    rw [relevel, map_cons, ← relevel, weights_cons, weights_cons, ih, Atom.weight_relevel]

/-! ## Lexing -/

section
variable {lv : Level} {run out : List Atom} {pieces : List Piece}

/-- What the open literal weighs. -/
def LiteralState.weight : LiteralState → Nat
  | .outside => 0
  | _ => 10

theorem weights_scanLiterals {st seen text} (h : scanLiterals lv st seen text run = .ok pieces) :
    weights (atomsOf pieces) ≤ st.weight + weights run := by
  fun_induction scanLiterals lv st seen text run generalizing pieces with
  | case1 => cases h; simp
  | case2 | case3 => cases h
  | case4 => cases h; simp [commentPiece, Atom.weight, LiteralState.weight]
  | case5 _ _ _ _ _ ih | case6 _ _ _ _ _ ih | case7 _ _ _ _ ih =>
    have := ih h
    simp only [LiteralState.weight, weights_cons, Atom.weight] at this ⊢
    omega
  | case8 _ _ a rest _ _ _ ih =>
    obtain ⟨ps, hps, h⟩ := bind_ok h
    cases h
    have := ih hps
    simp only [atomsOf_kept, weights_cons]
    omega
  | case9 _ _ _ _ _ ih | case10 _ _ _ _ ih | case12 _ _ _ _ _ _ _ ih =>
    have := ih h
    simp only [LiteralState.weight, weights_cons] at this ⊢
    omega
  | case14 _ _ _ _ _ _ ih | case16 _ _ _ _ _ _ ih =>
    have := ih h
    simp only [LiteralState.weight, weights_cons] at this ⊢
    omega
  | case11 _ _ _ _ ih | case13 _ _ _ _ ih | case15 _ _ _ _ _ ih =>
    obtain ⟨ps, hps, h⟩ := bind_ok h
    cases h
    have := ih hps
    simp only [quotationPiece, commentPiece, atomsOf_made, weights_cons, Atom.weight,
      LiteralState.weight] at this ⊢
    omega
  | case17 => simp at h

theorem weights_extractLiterals (h : extractLiterals lv run = .ok out) :
    weights out ≤ weights run := by
  obtain ⟨pieces, hp, rfl⟩ := map_ok h
  have := weights_scanLiterals hp
  simpa [LiteralState.weight] using this

theorem Bracket.weight_atom_le (pair : Bracket) (lv : Level) (raw : List Atom) :
    (pair.atom lv raw).weight ≤ 4 + weights raw := by
  cases pair <;> (simp only [Bracket.atom, Atom.weight]; omega)

theorem weights_grouped {pair} (h : Grouped pair lv run out) : weights out ≤ weights run := by
  induction h with
  | nil => simp
  | keep _ _ ih =>
    rw [weights_cons, weights_cons]
    omega
  | @wrap l l' raw rest out _ ih =>
    have := pair.weight_atom_le lv raw
    simp only [weights_cons, cons_append, weights_append, Atom.weight]
    omega

theorem weights_of_lexemes (h : ∀ a ∈ run, IsLexeme lv a) : weights run = 10 * run.length := by
  induction run with
  | nil => rfl
  | cons a rest ih =>
    obtain ⟨ha, hrest⟩ := forall_mem_cons.1 h
    have hweight : a.weight = 10 := by cases ha <;> rfl
    rw [weights_cons, hweight, ih hrest, length_cons]
    omega

theorem length_cutOperators {skip ms}
    (h : cutOperators lv skip ms = .ok pieces) : (atomsOf pieces).length ≤ ms.length := by
  fun_induction cutOperators lv skip ms generalizing pieces with
  | case1 => cases h; simp
  | case2 _ _ _ ih =>
    have := ih h
    rw [length_cons]
    omega
  | case3 => cases h
  | case4 m rest o _ ih =>
    obtain ⟨ps, hps, h⟩ := bind_ok h
    cases h
    have := ih hps
    rw [atomsOf_made, length_cons, length_cons]
    omega

/-- How many marks are held. -/
def openLength : Option (Bool × List Mark) → Nat
  | none => 0
  | some (_, held) => held.length

theorem length_splitMarks {isOpen ms stretches} (hopen : ∀ p, isOpen = some p → p.2 ≠ [])
    (h : (splitMarks isOpen ms).mapM (cutStretch lv) = .ok stretches) :
    (atomsOf stretches.flatten).length ≤ openLength isOpen + ms.length := by
  have hstretch : ∀ {isOp held ps}, held ≠ [] →
      cutStretch lv (isOp, held.reverse) = .ok ps → (atomsOf ps).length ≤ held.length := by
    intro isOp held ps hne hps
    cases isOp with
    | true => simpa using length_cutOperators hps
    | false =>
      cases hps
      have := length_pos_of_ne_nil hne
      simp only [atomsOf_made, atomsOf_nil, length_cons, length_nil]
      omega
  fun_induction splitMarks isOpen ms generalizing stretches with
  | case1 => cases h; simp
  | case2 isOp held =>
    obtain ⟨ps, qs, hps, hqs, rfl⟩ := mapM_cons_ok h
    cases hqs
    simpa [openLength] using hstretch (hopen _ rfl) hps
  | case3 m rest ih =>
    have := ih (by simp) h
    simp only [openLength, length_cons, length_nil] at this ⊢
    omega
  | case4 isOp held m rest _ ih =>
    have := ih (by simp) h
    simp only [openLength, length_cons] at this ⊢
    omega
  | case5 isOp held m rest _ ih =>
    obtain ⟨ps, qs, hps, hqs, rfl⟩ := mapM_cons_ok h
    have hrest := ih (by simp) hqs
    have hhead : (atomsOf ps).length ≤ held.length := hstretch (hopen _ rfl) hps
    simp only [openLength, length_cons, length_nil, flatten_cons, atomsOf_append,
      length_append] at hrest ⊢
    omega

theorem weights_cutWord {ms} (h : cutWord lv ms = .ok pieces) :
    weights (atomsOf pieces) ≤ 10 * ms.length := by
  have hlex := cutWord_ends lv ms
  rw [h] at hlex
  rw [weights_of_lexemes hlex]
  obtain ⟨ps, hps, h⟩ := bind_ok h
  cases h
  have := length_splitMarks (by simp) hps
  simp only [openLength] at this
  omega

theorem weights_scanWords {held} (h : scanWords lv held run = .ok pieces) :
    weights (atomsOf pieces) ≤ 10 * held.length + weights run := by
  have hword : ∀ {held : List Mark} {word}, cutWord lv held.reverse = .ok word →
      weights (atomsOf word) ≤ 10 * held.length := by
    intro held word hw
    simpa using weights_cutWord hw
  fun_induction scanWords lv held run generalizing pieces with
  | case1 held => simpa using hword h
  | case2 held l c rest _ ih =>
    obtain ⟨word, hw, h⟩ := bind_ok h
    obtain ⟨ps, hps, h⟩ := bind_ok h
    cases h
    have hhead := hword hw
    have hrest := ih hps
    simp only [atomsOf_append, atomsOf_dropped, weights_append, weights_cons, length_nil]
      at hrest ⊢
    omega
  | case3 held l c rest _ _ ih | case5 held a rest _ ih =>
    obtain ⟨word, hw, h⟩ := bind_ok h
    obtain ⟨ps, hps, h⟩ := bind_ok h
    cases h
    have hhead := hword hw
    have hrest := ih hps
    simp only [atomsOf_append, atomsOf_kept, weights_append, weights_cons, length_nil]
      at hrest ⊢
    omega
  | case4 held l c rest _ _ ih =>
    have := ih h
    simp only [length_cons, weights_cons, Atom.weight] at this ⊢
    omega

/-- Lexing makes a run no heavier. -/
theorem weights_group (h : group lv (relevel lv run) = .ok out) : weights out ≤ weights run := by
  obtain ⟨raw, hraw, h⟩ := bind_ok h
  obtain ⟨grouped, hgrouped, h⟩ := bind_ok h
  obtain ⟨pieces, hp, rfl⟩ := map_ok h
  obtain ⟨r₁, r₂, h₁, h₂, h₃⟩ := groupBrackets_ok hgrouped
  have hliterals := weights_extractLiterals hraw
  have hbrace := weights_grouped h₁
  have hsquare := weights_grouped h₂
  have hround := weights_grouped h₃
  have hwords := weights_scanWords hp
  simp only [weights_relevel, length_nil] at hliterals hwords
  omega

/-! ## The structure of a run -/

theorem weights_dropComments (h : dropComments run = .ok out) : weights out ≤ weights run := by
  simp only [dropComments] at h
  split at h
  · cases h
  · cases h
    exact weights_filter_le ..

/-- What a member takes up of the weight of its run. -/
def Member.cost : Member → Nat
  | .given a => a.weight
  | .fresh _ clause => 1 + clause.weight

/-- The sum of the costs. -/
def costs (ms : List Member) : Nat := (ms.map Member.cost).sum

@[simp] theorem costs_nil : costs [] = 0 := rfl

@[simp] theorem costs_cons (m : Member) (ms : List Member) : costs (m :: ms) = m.cost + costs ms := by
  simp [costs]

theorem costs_append (ms ms' : List Member) : costs (ms ++ ms') = costs ms + costs ms' := by
  rw [costs, map_append, sum_append, costs, costs]

theorem MembersOf.costs_le {ms} (h : MembersOf lv run ms) : costs ms ≤ weights run := by
  induction h with
  | nil => simp
  | cons hm _ ih =>
    cases hm <;> simp only [cons_append, nil_append, costs_cons, Member.cost, Atom.weight,
      weightOption, weights_cons] <;> omega

theorem MembersOf.cost_eq {ms} (h : MembersOf lv run ms) (hrun : ∀ a ∈ run, a.isClause = false) :
    ∀ m ∈ ms, m.atom.isClause = true → m.cost = 1 + m.atom.weight := by
  refine h.forall_mem hrun fun m part hm hpart hc => ?_
  cases hm with
  | given => cases (hpart _ (mem_singleton.2 rfl)).symm.trans hc
  | _ => rfl

theorem weights_le_costs : ∀ {ms}, (∀ m ∈ ms, m.cost = 1 + m.atom.weight) →
    weights (ms.map Member.atom) + ms.length ≤ costs ms
  | [], _ => by simp
  | m :: ms, h => by
    obtain ⟨hm, hms⟩ := forall_mem_cons.1 h
    have := weights_le_costs hms
    simp only [map_cons, weights_cons, costs_cons, length_cons, hm]
    omega

theorem weight_chain {clauses} (hne : clauses ≠ [])
    (h : ∀ m ∈ clauses, m.cost = 1 + m.atom.weight) :
    (Phrase.toAtom lv (.chain clauses)).weight ≤ costs clauses := by
  have hpos := length_pos_of_ne_nil hne
  have := weights_le_costs h
  rw [Phrase.toAtom, Atom.weight]
  omega

theorem Joined.weights_le {ms ps} (h : Joined ms ps)
    (hms : ∀ m ∈ ms, m.atom.isClause = true → m.cost = 1 + m.atom.weight) :
    weights (ps.map (Phrase.toAtom lv)) ≤ costs ms := by
  induction h with
  | nil => simp
  | @atom m ms ps _ _ ih =>
    have htail := ih (forall_mem_cons.1 hms).2
    have hcost : m.atom.weight ≤ m.cost := by
      cases m with
      | given a => exact Nat.le_refl _
      | fresh w c => exact Nat.le_add_left ..
    simp only [map_cons, weights_cons, Phrase.toAtom, costs_cons]
    omega
  | @chain clauses ms ps hne hclauses _ ih =>
    obtain ⟨hpaid, hrest⟩ := forall_mem_append.1 hms
    have hchain : (Phrase.toAtom lv (.chain clauses)).weight ≤ costs clauses :=
      weight_chain hne fun m hm => hpaid m hm (hclauses m hm)
    have htail := ih hrest
    simp only [map_cons, weights_cons, costs_append]
    omega

theorem weights_groupSyntax (hrun : ∀ a ∈ run, a.isClause = false)
    (h : groupSyntax lv run = .ok out) : weights out ≤ weights run := by
  obtain ⟨ps, hps, rfl⟩ := map_ok h
  obtain ⟨ms, hms, hps⟩ := phrases_inv hps
  exact Nat.le_trans (hps.weights_le (hms.cost_eq hrun)) hms.costs_le

theorem weight_applyTo (callee : Atom) {b} (hb : b.isArgumentBracket = true) :
    (callee.applyTo b).weight ≤ callee.weight + b.weight := by
  cases b with
  | paren l raw r contents =>
    simp only [Atom.applyTo, Atom.weight, weights_nil]
    split <;> omega
  | list l raw r contents =>
    simp only [Atom.applyTo, Atom.weight]
    omega
  | _ => cases hb

theorem weight_foldl_applyTo : ∀ (callee : Atom) {bs}, (∀ b ∈ bs, b.isArgumentBracket = true) →
    (bs.foldl Atom.applyTo callee).weight ≤ callee.weight + weights bs
  | _, [], _ => by simp
  | callee, b :: bs, h => by
    obtain ⟨hb, hbs⟩ := forall_mem_cons.1 h
    have hhead := weight_applyTo callee hb
    have htail := weight_foldl_applyTo (callee.applyTo b) hbs
    rw [foldl_cons, weights_cons]
    omega

theorem weights_groupCalls (run : List Atom) : weights (groupCalls run) ≤ weights run := by
  have hle (ps : List Application) (h : ∀ p ∈ ps, p.Applies) :
      weights (ps.map Application.atom) ≤ weights (ps.flatMap Application.source) := by
    induction ps with
    | nil => simp
    | cons p ps ih =>
      obtain ⟨hp, hps⟩ := forall_mem_cons.1 h
      have hhead : p.atom.weight ≤ _ := weight_foldl_applyTo p.head hp.arguments
      have htail := ih hps
      simp only [map_cons, flatMap_cons, weights_cons, weights_append, Application.source]
      omega
  have h := hle _ (applications_applies run)
  rwa [source_applications] at h

theorem weights_reduce (h : reduce lv run = .ok out) : weights out ≤ weights run := by
  obtain ⟨point, hpoint, h⟩ := bind_ok h
  cases point with
  | none =>
    cases h
    exact Nat.le_refl _
  | some p =>
    rcases splitPointFrom_within hpoint with hnone | ⟨left, l, o, right, rfl, hat⟩
    · cases hnone
    · have hat : p.at_ = left.length := by omega
      simp only [hat, drop_left, take_left] at h
      cases h
      simp only [operation, weights_append, weights_cons, weights_nil, Atom.weight, Atom.isOperator,
        if_true]
      omega

/-- Finding the structure of a run without clauses makes it no heavier. -/
theorem weights_structureRun (hrun : ∀ a ∈ run, a.isClause = false)
    (h : structureRun lv run = .ok out) : weights out ≤ weights run := by
  obtain ⟨r₁, h₁, h⟩ := bind_ok h
  obtain ⟨r₂, h₂, h⟩ := bind_ok h
  have hkept : ∀ a ∈ r₁, a.isClause = false := by
    simp only [dropComments] at h₁
    split at h₁
    · cases h₁
    · cases h₁
      exact fun a ha => hrun a (mem_filter.1 ha).1
  calc weights out ≤ weights (groupCalls r₂) := weights_reduce h
    _ ≤ weights r₂ := weights_groupCalls r₂
    _ ≤ weights r₁ := weights_groupSyntax hkept h₂
    _ ≤ weights run := weights_dropComments h₁

/-! ## Cuts -/

theorem weights_slotsFrom (lv : Level) (held run : List Atom) :
    weights (slotsFrom lv held run) ≤ 3 + weights held + weights run := by
  fun_induction slotsFrom lv held run with
  | case1 => simp
  | case2 held _ => simp [Atom.weight]
  | case3 held l c rest _ ih =>
    simp only [weights_cons, Atom.weight, weights_reverse, weights_nil] at ih ⊢
    omega
  | case4 held l c rest _ ih | case5 held a rest _ ih =>
    simp only [weights_cons] at ih ⊢
    omega

/-- A comma pays for the slot it closes. -/
theorem weights_slots (lv : Level) (run : List Atom) : weights (slots lv run) ≤ 3 + weights run := by
  simpa [slots] using weights_slotsFrom lv [] run

theorem weights_statementOf? (lv : Level) (run : List Atom) :
    weights (statementOf? lv run).toList ≤ 1 + weights run := by
  unfold statementOf?
  split
  · simp
  · split <;> simp [Atom.weight]
  · simp [Atom.weight]

theorem weights_cutStatements (lv : Level) (run : List Atom) :
    weights (cutStatements lv run) ≤ 1 + weights run := by
  have hrest := weights_statementOf? lv (run.filter (!·.isComment))
  have hsum : weights (run.filter Atom.isComment) + weights (run.filter (!·.isComment)) =
      weights run := by
    clear hrest
    induction run with
    | nil => rfl
    | cons a rest ih =>
      cases ha : a.isComment <;> simp [ha] <;> omega
  rw [cutStatements, weights_append]
  omega

theorem weights_splitStatementsFrom (lv : Level) (held run : List Atom) :
    weights (splitStatementsFrom lv held run) ≤ 1 + weights held + weights run := by
  fun_induction splitStatementsFrom lv held run with
  | case1 held => simpa using weights_cutStatements lv held.reverse
  | case2 held l c rest _ ih =>
    have hcut := weights_cutStatements lv held.reverse
    simp only [weights_append, weights_cons, Atom.weight, weights_reverse, weights_nil]
      at hcut ih ⊢
    omega
  | case3 held l c rest _ ih | case4 held a rest _ ih =>
    simp only [weights_cons] at ih ⊢
    omega

/-- A semicolon pays for the statement it ends. -/
theorem weights_splitStatements (lv : Level) (run : List Atom) :
    weights (splitStatements lv run) ≤ 1 + weights run := by
  simpa [splitStatements] using weights_splitStatementsFrom lv [] run

end

end WatScript
