import Mathlib.Data.List.TakeWhile
import WatScript.Atom.Canon
import WatScript.Proofs.Chains
import WatScript.Proofs.Reading
import WatScript.Proofs.Weights

/-!
# Operators by climbing

A run of operators and operands is split once, at its loosest operator, and the two sides are split again
when they are read. `climb` reads the same run from left to right. It keeps the least priority that an
operator may have to be read on with; the right operand of an operator is read with the priority of the
operator, or the next one if it is left-associative.

Both give the same tree (`operators_resolve_by_climbing`). What `climb` reads of a run ends before the first
operator behind an operand that is too loose, and of that stretch alone the operator it applied last is the
one where it splits (`Resolves.split`). Operators behind operators are no candidates for the split of the
run, but the first of them is one for the right side, where it has no left operand.
-/

namespace WatScript

open List

variable {after : Bool} {l : Level} {left right : List Atom} {o : String}

/-! ## The climb -/

/-- The entry of an operator in the table. -/
def Operator.entry (lexeme : String) : Operator := (find? lexeme).getD default

/-- The least priority in the right operand of an operator. -/
def Operator.rightPriority (op : Operator) : Int :=
  if op.assoc = .left then op.priority + 1 else op.priority

/-- An operator applied to what was read on its two sides. -/
def resolvedOperation (lv : Level) (op : Atom) (left right : List Atom) : Atom :=
  .call lv op [] true true [.item lv [] true left, .item lv [] true right]

/-- An operand that was read of a run, and the rest of the run. -/
structure Climbed (run : List Atom) where
  operand : List Atom
  rest : List Atom
  length_le : rest.length ≤ run.length

/-- The same operand read of a longer run. -/
def Climbed.within {run run' : List Atom} (c : Climbed run) (h : run.length ≤ run'.length) :
    Climbed run' :=
  ⟨c.operand, c.rest, Nat.le_trans c.length_le h⟩

mutual

/-- Reads an operand in which operators have at least the priority `least`, except for those without a
left operand. -/
def climb (lv : Level) (least : Int) (run : List Atom) : Climbed run :=
  match run with
  | .operator l o :: rest =>
    match climb lv (max least (Operator.entry o).rightPriority) rest with
    | ⟨right, rest', h⟩ =>
      (climbOn lv least [resolvedOperation lv (.operator l o) [] right] rest').within (Nat.le_succ_of_le h)
  | run =>
    (climbOn lv least (run.takeWhile (!·.isOperator)) (run.dropWhile (!·.isOperator))).within
      (dropWhile_suffix _).length_le
termination_by (run.length, 1)
decreasing_by
  · exact .left _ _ (Nat.lt_succ_self _)
  · exact .left _ _ (Nat.lt_succ_of_le h)
  · rcases Nat.lt_or_eq_of_le (dropWhile_suffix (!·.isOperator) (l := run)).length_le with h | h
    · exact .left _ _ h
    · rw [h]
      exact .right _ (by decide)

/-- Reads on behind a left operand, as long as the next operator has the priority for it. -/
def climbOn (lv : Level) (least : Int) (left run : List Atom) : Climbed run :=
  match run with
  | .operator l o :: rest =>
    if least ≤ (Operator.entry o).priority then
      match climb lv (Operator.entry o).rightPriority rest with
      | ⟨right, rest', h⟩ =>
        (climbOn lv least [resolvedOperation lv (.operator l o) left right] rest').within (Nat.le_succ_of_le h)
    else ⟨left, .operator l o :: rest, Nat.le_refl _⟩
  | run => ⟨left, run, Nat.le_refl _⟩
termination_by (run.length, 0)
decreasing_by
  · exact .left _ _ (Nat.lt_succ_self _)
  · exact .left _ _ (Nat.lt_succ_of_le h)

end

/-! ## Runs without comments -/

section
variable {run : List Atom}

theorem dropComments_of_isVoid (h : ∀ a ∈ run, a.isVoid = false) : dropComments run = .ok run := by
  unfold dropComments
  simp only
  rw [if_neg, filter_eq_self.2]
  · intro a ha
    have hv := h a ha
    cases a <;> first | rfl | cases hv
  · rw [any_eq_true]
    rintro ⟨a, ha, hsep⟩
    have hv := h a ha
    cases a <;> first | cases hsep | cases hv

end

/-! ## Runs of operators and words -/

/-- An operator of the table, or a word that is not reserved. -/
def Atom.IsTerm : Atom → Prop
  | .operator _ o => (Operator.find? o).isSome
  | .word _ w => Keyword.isKeyword w = false
  | _ => False

/-- Terms at one level. -/
def Terms (lv : Level) (run : List Atom) : Prop := ∀ a ∈ run, a.IsTerm ∧ a.relevel lv = a

section
variable {lv : Level} {run : List Atom}

theorem Terms.relevel_eq (h : Terms lv run) : relevel lv run = run := by
  rw [relevel, map_congr_left (g := id) fun a ha => (h a ha).2, map_id]

theorem terms_relevel (lv : Level) (h : ∀ a ∈ run, a.IsTerm) : Terms lv (relevel lv run) := by
  intro a ha
  obtain ⟨b, hb, rfl⟩ := mem_map.1 ha
  have hb := h b hb
  cases b with
  | word | operator => exact ⟨hb, rfl⟩
  | _ => exact hb.elim

theorem Terms.group_eq (h : Terms lv run) : group lv (relevel lv run) = .ok run := by
  have hknown : ∀ l c, .unknown l c ∉ run := fun l c hm => (h _ hm).1
  have hb : NoBrackets run := fun pair a ha => by
    cases a with
    | unknown l c => exact absurd ha (hknown l c)
    | _ => rfl
  have hletters : ∀ a ∈ run, a.isLetter = false := fun a ha => by
    cases a with
    | unknown l c => exact absurd ha (hknown l c)
    | _ => rfl
  have hfree : LiteralFree run := literalFree_of_chars fun l c hm => absurd hm (hknown l c)
  simp only [group, h.relevel_eq, extractLiterals_of_literalFree lv hfree,
    groupBrackets_of_noBrackets lv hb, bind, Except.bind]
  exact tokenize_of_separators lv hletters

theorem Terms.dropComments_eq (h : Terms lv run) : dropComments run = .ok run := by
  refine dropComments_of_isVoid fun a ha => ?_
  have hterm := (h a ha).1
  cases a with
  | word | operator => rfl
  | _ => exact hterm.elim

theorem Terms.groupSyntax_eq (h : Terms lv run) : groupSyntax lv run = .ok run := by
  refine groupSyntax_of_clauseless lv fun a ha => ?_
  have hterm := (h a ha).1
  cases a with
  | word l w =>
    have hw : Keyword.isKeyword w = false := hterm
    simp only [Keyword.isKeyword, Bool.or_eq_false_iff] at hw
    simp [Atom.isClauseless, hw.1]
  | operator => rfl
  | _ => exact hterm.elim

theorem Terms.groupCalls_eq (h : Terms lv run) : groupCalls run = run := by
  have hbare : ∀ p ∈ applications run, [p.atom] = p.source := by
    intro p hp
    have hterms := forall_source (fun a ha => (h a ha).1) p hp
    obtain ⟨head, brackets⟩ := p
    cases brackets with
    | nil => rfl
    | cons b bs =>
      have hb := (applications_applies run _ hp).arguments b mem_cons_self
      have hterm := hterms b (mem_cons_of_mem _ mem_cons_self)
      cases b with
      | word | operator => cases hb
      | _ => exact hterm.elim
  calc groupCalls run = (applications run).flatMap fun p => [p.atom] := map_eq_flatMap
    _ = (applications run).flatMap Application.source := flatMap_congr hbare
    _ = run := source_applications run

theorem Terms.structureRun_eq (h : Terms lv run) : structureRun lv run = reduce lv run := by
  simp only [structureRun, h.dropComments_eq, h.groupSyntax_eq, bind, Except.bind, h.groupCalls_eq]

end

/-! ## Candidates for the split -/

theorem Operator.find?_eq_entry (h : (find? o).isSome) : find? o = some (entry o) := by
  rw [entry, ← Option.some_get h, Option.getD_some]

theorem Operator.assoc_eq_of_priority_eq {o'} (h : (find? o).isSome) (h' : (find? o').isSome)
    (hp : (entry o).priority = (entry o').priority) : (entry o).assoc = (entry o').assoc := by
  have htable : ∀ a ∈ table, ∀ b ∈ table, a.priority = b.priority → a.assoc = b.assoc := by decide
  exact htable _ (mem_of_find?_eq_some (find?_eq_entry h)) _
    (mem_of_find?_eq_some (find?_eq_entry h')) hp

/-- A run that splits at the first operator rather splits at the second, which stands behind it. -/
def Operator.YieldsTo (op next : Operator) : Prop :=
  next.priority < op.priority ∨ next.priority = op.priority ∧ next.assoc = .left

/-- The operators at which a run may split. `after` says that an operator stands before the run. -/
def candidates : Bool → List Atom → List String
  | _, [] => []
  | after, .operator _ o :: rest => if after then candidates true rest else o :: candidates true rest
  | _, _ :: rest => candidates false rest

/-- The last atom of a run, or what stands before it if it is empty, is an operator. -/
def endsAfter : Bool → List Atom → Bool
  | after, [] => after
  | _, a :: rest => endsAfter a.isOperator rest

theorem endsAfter_append (after : Bool) (left right : List Atom) :
    endsAfter after (left ++ right) = endsAfter (endsAfter after left) right := by
  induction left generalizing after with
  | nil => rfl
  | cons a left ih => exact ih _

theorem candidates_append (after : Bool) (left right : List Atom) :
    candidates after (left ++ right) = candidates after left ++ candidates (endsAfter after left) right := by
  induction left generalizing after with
  | nil => rfl
  | cons a left ih =>
    cases a with
    | operator l o => cases after <;> simp [candidates, endsAfter, Atom.isOperator, ih]
    | _ => exact ih _

theorem endsAfter_words {run} (h : ∀ a ∈ run, a.isOperator = false)
    (hne : run ≠ []) : endsAfter after run = false := by
  rw [← dropLast_append_getLast hne, endsAfter_append]
  exact h _ (getLast_mem hne)

theorem SplitPoint.better_eq (p next : SplitPoint) :
    (p.op.YieldsTo next.op → SplitPoint.better (some p) next = next) ∧
      (¬ p.op.YieldsTo next.op → SplitPoint.better (some p) next = p) := by
  unfold Operator.YieldsTo SplitPoint.better
  grind

section
variable {lv : Level} {i : Nat} {after : Bool} {run : List Atom}

theorem splitPointFrom_none (h : ∀ a ∈ run, a.isOperator = false) (best : Option SplitPoint) :
    splitPointFrom i after best run = .ok best := by
  induction run generalizing i after with
  | nil => rfl
  | cons a rest ih =>
    obtain ⟨ha, hrest⟩ := forall_mem_cons.1 h
    cases a with
    | operator => cases ha
    | _ => exact ih hrest

theorem splitPointFrom_keep {p} (hrun : ∀ a ∈ run, a.IsTerm)
    (h : ∀ o ∈ candidates after run, ¬ p.op.YieldsTo (.entry o)) :
    splitPointFrom i after (some p) run = .ok (some p) := by
  induction run generalizing i after with
  | nil => rfl
  | cons a rest ih =>
    obtain ⟨ha, hrest⟩ := forall_mem_cons.1 hrun
    cases a with
    | operator l o =>
      cases after with
      | true => exact ih hrest h
      | false =>
        obtain ⟨ho, h⟩ := forall_mem_cons.1 h
        rw [splitPointFrom, if_neg Bool.false_ne_true, Operator.find?_eq_entry ha]
        simp only [(SplitPoint.better_eq p ⟨i, .entry o⟩).2 ho]
        exact ih hrest h
    | word => exact ih hrest h
    | _ => exact ha.elim

theorem splitPointFrom_eq {best} (hrun : ∀ a ∈ left ++ .operator l o :: right, a.IsTerm)
    (hbest : ∀ p, best = some p → p.op.YieldsTo (.entry o))
    (hleft : ∀ c ∈ candidates after left, (Operator.entry c).YieldsTo (.entry o))
    (hafter : endsAfter after left = false)
    (hright : ∀ c ∈ candidates true right, ¬ (Operator.entry o).YieldsTo (.entry c)) :
    splitPointFrom i after best (left ++ .operator l o :: right) =
      .ok (some ⟨i + left.length, .entry o⟩) := by
  induction left generalizing i after best with
  | nil =>
    obtain ⟨ho, hrest⟩ := forall_mem_cons.1 hrun
    obtain rfl : after = false := hafter
    have hbetter : SplitPoint.better best ⟨i, .entry o⟩ = ⟨i, .entry o⟩ := by
      cases best with
      | none => rfl
      | some p => exact (SplitPoint.better_eq p _).1 (hbest p rfl)
    rw [nil_append, splitPointFrom, if_neg Bool.false_ne_true, Operator.find?_eq_entry ho]
    simp only [hbetter]
    exact splitPointFrom_keep hrest hright
  | cons a left ih =>
    obtain ⟨ha, hrest⟩ := forall_mem_cons.1 hrun
    have hlength : i + (a :: left).length = i + 1 + left.length := by simp; omega
    rw [hlength]
    cases a with
    | operator l' c =>
      cases after with
      | true => exact ih hrest hbest hleft hafter
      | false =>
        obtain ⟨hc, hleft⟩ := forall_mem_cons.1 hleft
        rw [cons_append, splitPointFrom, if_neg Bool.false_ne_true, Operator.find?_eq_entry ha]
        -- the best so far yields to the operator, whichever of the two it is
        refine ih hrest ?_ hleft hafter
        rintro _ ⟨⟩
        rcases SplitPoint.better_cases best ⟨i, .entry c⟩ with hb | hb
        · rw [hb]
          exact hc
        · exact hbest _ hb
    | word => exact ih hrest hbest hleft hafter
    | _ => exact ha.elim

end

/-! ## What a stretch resolves to -/

/-- Without a limit, the run is read as `out`. -/
def Resolves (lv : Level) (run out : List Atom) : Prop :=
  ∀ (fuel : Nat) (limit : Int64) (nest : Nat), limit ≤ 0 → weights run < fuel →
    readRun fuel limit nest lv run = .ok out

section
variable {lv : Level} {run : List Atom}

theorem Terms.readRun_eq (h : Terms lv run) {limit} (hlimit : limit ≤ 0) (fuel nest : Nat) :
    readRun (fuel + 1) limit nest lv run =
      reduce lv run >>= List.mapM (resolveExpr fuel limit (nest + 1)) := by
  rw [readRun_open (by simp [mayOpen, hlimit]), h.group_eq]
  simp only [bind, Except.bind, h.structureRun_eq]

theorem Terms.resolves_words (h : Terms lv run) (hwords : ∀ a ∈ run, a.isOperator = false) :
    Resolves lv run run := by
  intro fuel limit nest hlimit hfuel
  cases fuel with
  | zero => cases hfuel
  | succ fuel =>
    have hreduce : reduce lv run = .ok run := by
      rw [reduce, splitPoint?, splitPointFrom_none hwords]
      rfl
    rw [h.readRun_eq hlimit, hreduce]
    refine mapM_eq_self fun a ha => ?_
    have hpos := Nat.lt_of_lt_of_le a.weight_pos (weight_le_weights ha)
    obtain ⟨n, rfl⟩ := Nat.exists_eq_add_of_lt (Nat.lt_of_lt_of_le hpos (Nat.le_of_lt_succ hfuel))
    have hterm := (h a ha).1
    cases a with
    | word => rw [resolveExpr]
    | operator => cases hwords _ ha
    | _ => exact hterm.elim

/-- A run is read as the operator where it splits, applied to what its two sides are read as. -/
theorem Resolves.split {left' right'} (hlv : lv.tag = 0)
    (h : Terms lv (left ++ .operator l o :: right))
    (hleft : ∀ c ∈ candidates false left, (Operator.entry c).YieldsTo (.entry o))
    (hafter : endsAfter false left = false)
    (hright : ∀ c ∈ candidates true right, ¬ (Operator.entry o).YieldsTo (.entry c))
    (hl : Resolves lv left left') (hr : Resolves lv right right') :
    Resolves lv (left ++ .operator l o :: right) [resolvedOperation lv (.operator l o) left' right'] := by
  intro fuel limit nest hlimit hfuel
  have hpoint : splitPointFrom 0 false none (left ++ .operator l o :: right) =
      .ok (some ⟨0 + left.length, .entry o⟩) :=
    splitPointFrom_eq (fun a ha => (h a ha).1) (by rintro _ ⟨⟩) hleft hafter hright
  have hreduce : reduce lv (left ++ .operator l o :: right) =
      .ok [operation lv (.operator l o) left right] := by
    rw [reduce, splitPoint?, hpoint]
    simp only [bind, Except.bind, Nat.zero_add, drop_left, take_left]
    rfl
  simp only [weights_append, weights_cons, Atom.weight] at hfuel
  obtain ⟨fuel, rfl⟩ : ∃ n, fuel = n + 4 := ⟨fuel - 4, by omega⟩
  have hitem : ∀ {run out}, Resolves lv run out → weights run < fuel + 1 →
      resolveExpr (fuel + 2) limit (nest + 1) (.item lv run false []) = .ok (.item lv [] true out) := by
    intro run out hres hw
    rw [resolveExpr, Level.bare_of_untagged hlv]
    simp only [Bool.false_eq_true, if_false, hres _ _ _ hlimit hw]
    rfl
  rw [h.readRun_eq hlimit, hreduce, operation]
  simp only [bind, Except.bind, mapM_cons, mapM_nil]
  rw [resolveExpr, resolveExpr]
  simp only [Bool.false_eq_true, if_false, Atom.isOperator, if_true, bind, Except.bind, pure, Except.pure,
    mapM_cons, mapM_nil, hitem hl (by omega), hitem hr (by omega)]
  rfl

end

/-! ## What the climb reads -/

section
variable {o o' c : String}

theorem Operator.YieldsTo.trans {a b c : Operator} (hab : a.YieldsTo b) (hbc : b.YieldsTo c) :
    a.YieldsTo c := by
  unfold YieldsTo at *
  grind

theorem Operator.priority_le_rightPriority (op : Operator) : op.priority ≤ op.rightPriority := by
  unfold rightPriority
  split <;> omega

theorem Operator.yieldsTo_of_lt (ho : (find? o).isSome) (ho' : (find? o').isSome)
    (h : (entry o').priority < (entry o).rightPriority) : (entry o).YieldsTo (.entry o') := by
  have hassoc := assoc_eq_of_priority_eq ho' ho
  unfold YieldsTo rightPriority at *
  grind

theorem Operator.not_yieldsTo_of_le (ho : (find? o).isSome) (hc : (find? c).isSome)
    (h : (entry o).rightPriority ≤ (entry c).priority) : ¬ (entry o).YieldsTo (.entry c) := by
  have hassoc := assoc_eq_of_priority_eq hc ho
  unfold YieldsTo rightPriority at *
  grind

end

theorem mem_of_mem_candidates {run} (h : o ∈ candidates after run) : ∃ l, .operator l o ∈ run := by
  fun_induction candidates after run with
  | case1 => cases h
  | case2 l o' rest ih =>
    obtain ⟨l, hm⟩ := ih h
    exact ⟨l, .tail _ hm⟩
  | case3 after l o' rest hafter ih =>
    rcases mem_cons.1 h with rfl | h
    · exact ⟨l, .head _⟩
    · obtain ⟨l, hm⟩ := ih h
      exact ⟨l, .tail _ hm⟩
  | case4 after a rest ha ih =>
    obtain ⟨l, hm⟩ := ih h
    exact ⟨l, .tail _ hm⟩

/-- A stretch of a run was read as an operand of this priority. What is left of the run starts with an
operator, to which the candidates of the stretch yield if it has the priority to be read on with. -/
structure Stretch (lv : Level) (least : Int) (read operand rest : List Atom) : Prop where
  resolves : Resolves lv read operand
  tight : ∀ c ∈ candidates true read, least ≤ (Operator.entry c).priority
  next : ∀ a ∈ rest.head?, ∃ l o, a = .operator l o ∧ endsAfter true read = false ∧
    (least ≤ (Operator.entry o).priority →
      ∀ c ∈ candidates false read, (Operator.entry c).YieldsTo (.entry o))

/-- The operand that was read is all of the run up to an operator that is too loose. -/
structure Climbed.Complete {run : List Atom} (lv : Level) (least : Int) (before : List Atom)
    (c : Climbed run) : Prop where
  stretch : ∃ read, run = read ++ c.rest ∧ Stretch lv least (before ++ read) c.operand c.rest
  loose : ∀ l o rest, c.rest = .operator l o :: rest → (Operator.entry o).priority < least

section
variable {lv : Level} {least : Int} {run : List Atom}

theorem Terms.find?_isSome (h : Terms lv run)
    (ho : o ∈ candidates after run) : (Operator.find? o).isSome := by
  obtain ⟨l, hm⟩ := mem_of_mem_candidates ho
  exact (h _ hm).1

theorem Stretch.operator {left' right' rest : List Atom} {m : Int}
    (hlv : lv.tag = 0) (hterms : Terms lv (left ++ .operator l o :: (right ++ rest)))
    (hm : m = max least (Operator.entry o).rightPriority) (hleft : Resolves lv left left')
    (hyields : ∀ c ∈ candidates false left, (Operator.entry c).YieldsTo (.entry o))
    (hafter : endsAfter false left = false)
    (htight : ∀ c ∈ candidates true (left ++ [.operator l o]), least ≤ (Operator.entry c).priority)
    (hright : Stretch lv m right right' rest)
    (hloose : ∀ l o rest', rest = .operator l o :: rest' → (Operator.entry o).priority < m) :
    Stretch lv least (left ++ .operator l o :: right)
    [resolvedOperation lv (.operator l o) left' right'] rest := by
  have hread : Terms lv (left ++ .operator l o :: right) := fun a ha => hterms a (by
    simp only [mem_append, mem_cons] at ha ⊢
    tauto)
  have ho : (Operator.find? o).isSome := (hread (.operator l o) (by simp)).1
  have hright' : Terms lv right := fun a ha => hread a (by simp [ha])
  refine ⟨.split hlv hread hyields hafter (fun c hmem => ?_) hleft hright.resolves, fun c hmem => ?_,
    fun a ha => ?_⟩
  · have := hright.tight c hmem
    exact Operator.not_yieldsTo_of_le ho (hright'.find?_isSome hmem) (by omega)
  · rw [append_cons, candidates_append, endsAfter_append, mem_append] at hmem
    rcases hmem with hmem | hmem
    · exact htight c hmem
    · have := hright.tight c hmem
      omega
  · obtain ⟨l', o', rfl, hends, -⟩ := hright.next a ha
    obtain ⟨rest', rfl⟩ : ∃ rest', rest = .operator l' o' :: rest' := head?_eq_some_iff.1 ha
    have hlt := hloose l' o' rest' rfl
    have ho' : (Operator.find? o').isSome := (hterms (.operator l' o') (by simp)).1
    refine ⟨l', o', rfl, ?_, fun hle c hmem => ?_⟩
    · rw [endsAfter_append]
      exact hends
    · have hop : (Operator.entry o).YieldsTo (.entry o') := Operator.yieldsTo_of_lt ho ho' (by omega)
      rw [candidates_append, hafter, mem_append] at hmem
      rcases hmem with hmem | hmem
      · exact (hyields c hmem).trans hop
      · rcases mem_cons.1 hmem with rfl | hmem
        · exact hop
        · exact .inl (Int.lt_of_lt_of_le hlt (hright.tight c hmem))

theorem Stretch.words {read rest} (h : Terms lv read) (hwords : ∀ a ∈ read, a.isOperator = false)
    (hrest : ∀ a ∈ rest.head?, a.isOperator = true ∧ read ≠ []) : Stretch lv least read read rest := by
  have hnone : ∀ after, candidates after read = [] := fun after => by
    refine eq_nil_iff_forall_not_mem.2 fun o ho => ?_
    obtain ⟨l, hm⟩ := mem_of_mem_candidates ho
    cases hwords _ hm
  refine ⟨h.resolves_words hwords, by simp [hnone], fun a ha => ?_⟩
  obtain ⟨hop, hne⟩ := hrest a ha
  cases a with
  | operator l o => exact ⟨l, o, rfl, endsAfter_words hwords hne, by simp [hnone]⟩
  | _ => cases hop

theorem Stretch.leading_words (h : Terms lv run) (hrun : ∀ l o rest, run = .operator l o :: rest → False) :
    Stretch lv least (run.takeWhile (!·.isOperator)) (run.takeWhile (!·.isOperator))
      (run.dropWhile (!·.isOperator)) := by
  refine .words (fun a ha => h a ((List.takeWhile_prefix _).subset ha)) (fun a ha => ?_) (fun a ha => ?_)
  · simpa using mem_takeWhile_imp ha
  · have hfirst : run.find? Atom.isOperator = some a := by
      rw [find?_eq_head?_dropWhile_not]
      exact ha
    have hoperator := find?_some hfirst
    refine ⟨hoperator, fun hnil => ?_⟩
    have hall : run.dropWhile (!·.isOperator) = run := by
      simpa [hnil] using takeWhile_append_dropWhile (p := (!·.isOperator)) (l := run)
    rw [hall] at ha
    cases a with
    | operator l o =>
      obtain ⟨rest, heq⟩ := head?_eq_some_iff.1 ha
      exact hrun l o rest heq
    | _ => cases hoperator

theorem Climbed.Complete.within {run' before read : List Atom} {c : Climbed run}
    (hc : c.Complete lv least (before ++ read)) (heq : run' = read ++ run) (h : run.length ≤ run'.length) :
    (c.within h).Complete lv least before := by
  obtain ⟨read', hrun, hstretch⟩ := hc.stretch
  refine ⟨⟨read ++ read', heq.trans ?_, ?_⟩, hc.loose⟩
  · rw [append_assoc]
    exact congrArg _ hrun
  · rwa [← append_assoc]

theorem climb_complete (hlv : lv.tag = 0) :
    (∀ least run, Terms lv run → (climb lv least run).Complete lv least []) ∧
      ∀ least left run, ∀ before, Terms lv (before ++ run) → Stretch lv least before left run →
        (climbOn lv least left run).Complete lv least before := by
  refine climb.mutual_induct lv _ _ ?operator ?words ?next ?loose ?nothing
  case operator =>
    intro least l o rest right' rest' hlen heq ihRight ihOn h
    have hc := ihRight (fun a ha => h a (.tail _ ha))
    rw [heq] at hc
    obtain ⟨right, hrest, hright⟩ := hc.stretch
    obtain rfl : rest = right ++ rest' := hrest
    have hnil : Resolves lv [] [] := Terms.resolves_words (by simp [Terms]) (by simp)
    have hstretch : Stretch lv least ([] ++ .operator l o :: right) _ rest' :=
      .operator hlv h rfl hnil (by simp [candidates]) rfl (by simp [candidates]) hright hc.loose
    rw [climb, heq]
    exact (ihOn _ h hstretch).within rfl _
  case words =>
    intro least run hrun ihOn h
    have hsplit := takeWhile_append_dropWhile (p := (!·.isOperator)) (l := run)
    have hstretch : Stretch lv least ([] ++ run.takeWhile (!·.isOperator)) _ _ := .leading_words h hrun
    rw [climb.eq_2 lv least run hrun]
    exact (ihOn _ (by rwa [nil_append, hsplit]) hstretch).within hsplit.symm _
  case next =>
    intro least left l o rest hleast right' rest' hlen heq ihRight ihOn before h hstretch
    obtain ⟨_, _, ⟨⟩, hends, hyields⟩ := hstretch.next _ rfl
    have hc := ihRight (fun a ha => h a (by simp [ha]))
    rw [heq] at hc
    obtain ⟨right, hrest, hright⟩ := hc.stretch
    obtain rfl : rest = right ++ rest' := hrest
    -- the right operand binds at least as tightly as the stretch it is part of
    have hm : (Operator.entry o).rightPriority = max least (Operator.entry o).rightPriority := by
      have := (Operator.entry o).priority_le_rightPriority
      omega
    have hafter : endsAfter false before = false := by
      cases before with
      | nil => cases hends
      | cons => exact hends
    have htight : ∀ c ∈ candidates true (before ++ [.operator l o]),
        least ≤ (Operator.entry c).priority := by
      intro c hmem
      rw [candidates_append, hends, mem_append] at hmem
      rcases hmem with hmem | hmem
      · exact hstretch.tight c hmem
      · rwa [mem_singleton.1 hmem]
    have hstretch := Stretch.operator hlv h hm hstretch.resolves (hyields hleast) hafter htight hright
      hc.loose
    rw [climbOn, if_pos hleast, heq]
    exact (ihOn (before ++ .operator l o :: right) (by simpa using h) hstretch).within rfl _
  case loose =>
    intro least left l o rest hleast before h hstretch
    rw [climbOn, if_neg hleast]
    refine ⟨⟨[], rfl, by simpa using hstretch⟩, ?_⟩
    rintro _ _ _ ⟨⟩
    omega
  case nothing =>
    intro least left run hrun before h hstretch
    rw [climbOn.eq_2 lv least left run hrun]
    exact ⟨⟨[], rfl, by simpa using hstretch⟩, fun l o rest heq => (hrun l o rest heq).elim⟩

end

theorem Operator.assignPriority_le (h : (find? o).isSome) :
    assignPriority ≤ (entry o).priority := by
  have htable : ∀ op ∈ table, assignPriority ≤ op.priority := by decide
  exact htable _ (mem_of_find?_eq_some (find?_eq_entry h))

/-- A run of operators and words is resolved as climbing from the lowest priority reads it. -/
theorem operators_resolve_by_climbing (lv : Level) {run : List Atom} (h : ∀ a ∈ run, a.IsTerm)
    (contents : List Atom) {limit : Int64} (hlimit : limit ≤ 0) :
    let c := climb lv.bare Operator.assignPriority (relevel lv.bare run)
    c.rest = [] ∧ (Atom.item lv run false contents).resolve limit = .ok (.item lv [] true c.operand) := by
  intro c
  have hterms := terms_relevel lv.bare h
  obtain ⟨⟨read, hread, hstretch⟩, hloose⟩ :=
    (climb_complete lv.tag_bare).1 Operator.assignPriority _ hterms
  have hrest : c.rest = [] := by
    cases hc : c.rest with
    | nil => rfl
    | cons a rest =>
      obtain ⟨l, o, rfl, -⟩ := hstretch.next a (by rw [hc]; rfl)
      have hmem : .operator l o ∈ relevel lv.bare run := by
        rw [hread, hc]
        simp
      have hle := Operator.assignPriority_le (hterms _ hmem).1
      have hlt := hloose l o rest hc
      omega
  have hall : relevel lv.bare run = read :=
    hread.trans ((congrArg (read ++ ·) hrest).trans (List.append_nil read))
  have hreads : ∀ fuel, weights run < fuel → readRun fuel limit 0 lv.bare run = .ok c.operand := by
    intro fuel hfuel
    have hweights : weights read = weights run := by rw [← hall, weights_relevel]
    rw [← hstretch.resolves fuel limit 0 hlimit (by rwa [List.nil_append, hweights])]
    cases fuel with
    | zero => cases hfuel
    | succ n =>
      have hopen : mayOpen limit 0 lv.bare = true := by simp [mayOpen, hlimit]
      rw [readRun_open hopen, readRun_open hopen, List.nil_append, ← hall, hterms.relevel_eq]
  refine ⟨hrest, ?_⟩
  change resolveExpr ((Atom.item lv run false contents).weight + 4) limit 0 _ = _
  rw [resolveExpr, hreads _ (by simp only [Atom.weight]; omega)]
  rfl

/-- A loose operator without a left operand behind a tight one, and operators that group to both sides. -/
theorem operators_resolve_by_climbing_prefix :
    let word := Atom.word .top
    let op := Atom.operator .top
    let run := [word "x", op "=", word "a", op "*", op "!", word "b", op "-", word "c", op "-", word "d",
      op "&&", op "-", word "e", op "**", word "f", op "**", word "g"]
    (∀ a ∈ run, a.IsTerm) ∧
      (Atom.item .top run false []).resolve 0 =
        .ok (.item .top [] true (climb .top Operator.assignPriority run).operand) ∧
      ((Atom.item .top run false []).resolve 0).map Atom.canon = .ok
        "<=(<x>, <&&(<-(<-(<*(<a>, <!(<>, <b>)>)>, <c>)>, <d>)>, <-(<>, <**(<e>, <**(<f>, <g>)>)>)>)>)>" := by
  intro word op run
  have hterms : ∀ a ∈ run, a.IsTerm := by
    simp only [run, word, op, List.forall_mem_cons, Atom.IsTerm, List.not_mem_nil, false_imp_iff,
      implies_true]
    decide
  refine ⟨hterms, (operators_resolve_by_climbing .top hterms [] (Int64.le_refl 0)).2, ?_⟩
  decide +kernel

end WatScript
