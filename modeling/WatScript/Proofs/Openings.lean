import Mathlib.Algebra.Group.Int.Defs
import WatScript.Proofs.Reading

/-!
# Runs that reading opens

A nesting limit is asked whenever reading opens a run: at which depth, and inside how many others. `opensRun`
and its companions list what is asked for, in order, up to the end of the reading or to its first failure;
a run that the limit refuses is the last one of the list.

Nothing else of a reading depends on its limit. So a reading under a limit is the same as under one that
allows more, cut where that one first opens a run that the limit refuses (`cutsAt`).
-/

namespace WatScript

/-! ## Limits -/

/-- Every run that may be opened under the first limit may be opened under the second. -/
def NoStricter (limit₁ limit₂ : Int64) : Prop :=
  ∀ nest lv, mayOpen limit₁ nest lv = true → mayOpen limit₂ nest lv = true

theorem noStricter_refl (limit : Int64) : NoStricter limit limit := fun _ _ h => h

theorem toInt_mul_nestingFactor {limit} (h : 0 < limit) (hsmall : limit.toInt < 2 ^ 61) :
    (limit * nestingFactor).toInt = limit.toInt * 4 := by
  have hpos : 0 < limit.toInt := Int64.lt_iff_toInt_lt.1 h
  have hfactor : nestingFactor.toInt = 4 := rfl
  rw [Int64.toInt_mul, hfactor]
  exact Int.bmod_eq_of_le (by omega) (by omega)

theorem noStricter_of_le {limit₁ limit₂} (hpos : 0 < limit₁) (hle : limit₁ ≤ limit₂)
    (hsmall : limit₂.toInt < 2 ^ 61) : NoStricter limit₁ limit₂ := by
  intro nest lv h
  have hpos₂ : 0 < limit₂ := Int64.lt_of_lt_of_le hpos hle
  have hle' := Int64.le_iff_toInt_le.1 hle
  simp only [mayOpen, Bool.or_eq_true, Bool.and_eq_true, decide_eq_true_eq] at h ⊢
  rcases h with h | ⟨hdepth, hnest⟩
  · exact absurd h (by simpa using hpos)
  · refine .inr ⟨Int64.le_trans hdepth hle, ?_⟩
    rw [Int64.lt_iff_toInt_lt, toInt_mul_nestingFactor hpos₂ hsmall]
    rw [Int64.lt_iff_toInt_lt, toInt_mul_nestingFactor hpos (by omega)] at hnest
    omega

theorem noStricter_unlimited (limit₁ : Int64) {limit₂} (h : limit₂ ≤ 0) :
    NoStricter limit₁ limit₂ := by
  intro nest lv _
  simp [mayOpen, h]

/-! ## Openings -/

/-- The opening of a run: how many runs are open around it, and its depth. -/
structure Opening where
  around : Nat
  depth : Int64
  deriving DecidableEq, Repr

/-- The limit allows the run. -/
def Opening.isGranted (limit : Int64) (o : Opening) : Bool :=
  mayOpen limit o.around (.nested o.depth 0)

/-- What follows on a result, nothing after a failure. -/
def onOk {ε α β : Type} (x : Except ε α) (k : α → List β) : List β :=
  match x with
  | .ok a => k a
  | .error _ => []

/-- What visiting atoms in order opens, up to the first one that can not be resolved. -/
def opensEach (resolve : Atom → Except ReadFault Atom) (opens : Atom → List Opening) :
    List Atom → List Opening
  | [] => []
  | a :: rest => opens a ++ onOk (resolve a) fun _ => opensEach resolve opens rest

/-- The runs that are opened for a body. -/
def opensBody (opens : List Atom → List Opening) : Atom → List Opening
  | .block _ raw false _ => opens raw
  | _ => []

mutual

/-- What reading a run as expressions opens, the run itself first. -/
def opensRun : Nat → Int64 → Nat → Level → List Atom → List Opening
  | 0, _, _, _, _ => []
  | fuel + 1, limit, nest, lv, raw =>
    ⟨nest, lv.depth⟩ :: if mayOpen limit nest lv then
      onOk (group lv (relevel lv raw)) fun toks =>
        onOk (structureRun lv toks) fun parts =>
          opensEach (resolveExpr fuel limit (nest + 1)) (opensExpr fuel limit (nest + 1)) parts
    else []

/-- What reading a run as statements opens, the run itself first. -/
def opensStatements : Nat → Int64 → Nat → Level → List Atom → List Opening
  | 0, _, _, _, _ => []
  | fuel + 1, limit, nest, lv, raw =>
    ⟨nest, lv.depth⟩ :: if mayOpen limit nest lv then
      onOk (group lv (relevel lv raw)) fun toks =>
        opensEach (resolveStmt fuel limit (nest + 1)) (opensStmt fuel limit (nest + 1))
          (splitStatements lv toks)
    else []

/-- The runs that are opened for an expression. -/
def opensExpr : Nat → Int64 → Nat → Atom → List Opening
  | 0, _, _, _ => []
  | fuel + 1, limit, nest, a =>
    match a with
    | .unknown .. | .literal .. | .comment .. | .word .. | .operator .. => []
    | .block lv raw resolved _ => if resolved then [] else opensStatements fuel limit nest lv.enter raw
    | .paren lv raw resolved _ => if resolved then [] else opensRun fuel limit nest lv.enter raw
    | .list lv raw resolved _ =>
      if resolved then []
      else
        onOk (splitArgs lv.enter raw) fun items =>
          opensEach (resolveExpr fuel limit nest) (opensExpr fuel limit nest) items
    | .item lv raw resolved _ => if resolved then [] else opensRun fuel limit nest lv.bare raw
    | .call lv callee raw resolved _ args =>
      if resolved then []
      else
        opensExpr fuel limit nest callee ++ onOk (resolveExpr fuel limit nest callee) fun _ =>
          onOk (if callee.isOperator then pure args else splitArgs lv.enter raw) fun items =>
            opensEach (resolveExpr fuel limit nest) (opensExpr fuel limit nest) items
    | .access lv callee raw resolved _ =>
      if resolved then []
      else
        opensExpr fuel limit nest callee ++ onOk (resolveExpr fuel limit nest callee) fun _ =>
          onOk (splitArgs lv.enter raw) fun items =>
            opensEach (resolveExpr fuel limit nest) (opensExpr fuel limit nest) items
    | .clause lv name cond body =>
      opensEach (resolveExpr fuel limit nest) (opensExpr fuel limit nest) cond.toList ++
        onOk (cond.toList.mapM (resolveExpr fuel limit nest)) fun _ =>
          opensBody (opensStatements fuel limit nest (bodyLevel lv name)) body
    | .chain _ clauses => opensEach (resolveExpr fuel limit nest) (opensExpr fuel limit nest) clauses
    | .exprStmt .. | .controlStmt .. => []

/-- The runs that are opened for a statement. -/
def opensStmt : Nat → Int64 → Nat → Atom → List Opening
  | 0, _, _, _ => []
  | fuel + 1, limit, nest, a =>
    match a with
    | .exprStmt lv raw resolved _ | .controlStmt lv _ raw resolved _ =>
      if resolved then []
      else
        onOk (structureRun lv.bare raw) fun parts =>
          opensEach (resolveExpr fuel limit nest) (opensExpr fuel limit nest) parts
    | _ => []

end

/-! ## Cut readings -/

/-- A computation that ends at the first of its openings that a limit refuses. -/
def cut {α : Type} (limit : Int64) (log : List Opening) (x : Except ReadFault α) : Except ReadFault α :=
  if log.all (·.isGranted limit) then x else .error .nestingTooDeep

section
variable {α β : Type} {limit : Int64} {log : List Opening} {x : Except ReadFault α}
  {f : α → Except ReadFault β} {k : α → List Opening}

theorem cut_nil : cut limit [] x = x := rfl

theorem cut_cons {o} (h : o.isGranted limit = true) : cut limit (o :: log) x = cut limit log x := by
  simp only [cut, List.all_cons, h, Bool.true_and]

theorem cut_refused {o} (h : o.isGranted limit = false) :
    cut limit (o :: log) x = .error .nestingTooDeep := by
  simp only [cut, List.all_cons, h, Bool.false_and, Bool.false_eq_true, if_false]

theorem cut_bind : cut limit (log ++ onOk x k) (x >>= f) =
    cut limit log x >>= fun a => cut limit (k a) (f a) := by
  unfold cut
  rw [List.all_append]
  cases log.all (·.isGranted limit) with
  | false => rfl
  | true => cases x <;> rfl

theorem cut_onOk : cut limit (onOk x k) (x >>= f) = x >>= fun a => cut limit (k a) (f a) :=
  @cut_bind _ _ limit [] x f k

theorem cut_pure {g : α → β} :
    cut limit log (x >>= fun a => pure (g a)) = cut limit log x >>= fun a => pure (g a) := by
  unfold cut
  split <;> rfl

/-- Opening a run: what a limit refuses is cut right there, and what it allows where the rest is. -/
theorem cut_opening {limit₂ nest lv} {x₁ : Except ReadFault α} (hlimit : NoStricter limit limit₂)
    (h : x₁ = cut limit log x) :
    (if !mayOpen limit nest lv then throw .nestingTooDeep else x₁) =
      cut limit (⟨nest, lv.depth⟩ :: if mayOpen limit₂ nest lv then log else [])
        (if !mayOpen limit₂ nest lv then throw .nestingTooDeep else x) := by
  cases hopen : mayOpen limit nest lv with
  | false =>
    have hrefused : (Opening.mk nest lv.depth).isGranted limit = false := hopen
    rw [cut_refused hrefused]
    rfl
  | true =>
    have hgranted : (Opening.mk nest lv.depth).isGranted limit = true := hopen
    rw [hlimit nest lv hopen, cut_cons hgranted]
    exact h

theorem cut_mapM {resolve resolve' : Atom → Except ReadFault Atom} {opens : Atom → List Opening}
    (h : ∀ a, resolve' a = cut limit (opens a) (resolve a)) (as : List Atom) :
    as.mapM resolve' = cut limit (opensEach resolve opens as) (as.mapM resolve) := by
  induction as with
  | nil => rfl
  | cons a rest ih =>
    rw [List.mapM_cons, List.mapM_cons, opensEach, cut_bind, h a]
    congr 1
    funext b
    rw [cut_pure, ih]

end

/-- Reading under the first limit is reading under the second, cut at what the first refuses. -/
structure CutsAt (limit₁ limit₂ : Int64) (fuel : Nat) : Prop where
  run : ∀ nest lv raw, readRun fuel limit₁ nest lv raw =
    cut limit₁ (opensRun fuel limit₂ nest lv raw) (readRun fuel limit₂ nest lv raw)
  statements : ∀ nest lv raw, readStatements fuel limit₁ nest lv raw =
    cut limit₁ (opensStatements fuel limit₂ nest lv raw) (readStatements fuel limit₂ nest lv raw)
  expr : ∀ nest a, resolveExpr fuel limit₁ nest a =
    cut limit₁ (opensExpr fuel limit₂ nest a) (resolveExpr fuel limit₂ nest a)
  stmt : ∀ nest a, resolveStmt fuel limit₁ nest a =
    cut limit₁ (opensStmt fuel limit₂ nest a) (resolveStmt fuel limit₂ nest a)

section
variable {limit₁ limit₂ : Int64} {fuel : Nat}

theorem cutsAt_zero (limit₁ limit₂ : Int64) : CutsAt limit₁ limit₂ 0 where
  run nest lv raw := by rw [readRun, readRun, opensRun, cut_nil]
  statements nest lv raw := by rw [readStatements, readStatements, opensStatements, cut_nil]
  expr nest a := by rw [resolveExpr, resolveExpr, opensExpr, cut_nil]
  stmt nest a := by rw [resolveStmt, resolveStmt, opensStmt, cut_nil]

namespace CutsAt
variable (ih : CutsAt limit₁ limit₂ fuel)
include ih

theorem exprs (nest : Nat) (as : List Atom) :
    as.mapM (resolveExpr fuel limit₁ nest) =
      cut limit₁ (opensEach (resolveExpr fuel limit₂ nest) (opensExpr fuel limit₂ nest) as)
        (as.mapM (resolveExpr fuel limit₂ nest)) :=
  cut_mapM (ih.expr nest) as

theorem body (nest : Nat) (lv : Level) (body : Atom) :
    readBody limit₁ nest lv fuel body =
      cut limit₁ (opensBody (opensStatements fuel limit₂ nest lv) body)
        (readBody limit₂ nest lv fuel body) := by
  cases body with
  | block bl raw resolved stmts =>
    cases resolved with
    | true => rfl
    | false => rw [readBody, readBody, opensBody, cut_pure, ih.statements]
  | _ => rfl

theorem run_succ (hlimit : NoStricter limit₁ limit₂) (nest : Nat)
    (lv : Level) (raw : List Atom) : readRun (fuel + 1) limit₁ nest lv raw =
      cut limit₁ (opensRun (fuel + 1) limit₂ nest lv raw) (readRun (fuel + 1) limit₂ nest lv raw) := by
  rw [readRun, readRun, opensRun]
  refine cut_opening hlimit ?_
  dsimp only
  rw [cut_onOk]
  congr 1
  funext toks
  rw [cut_onOk]
  congr 1
  funext parts
  exact ih.exprs (nest + 1) parts

theorem statements_succ (hlimit : NoStricter limit₁ limit₂) (nest : Nat)
    (lv : Level) (raw : List Atom) : readStatements (fuel + 1) limit₁ nest lv raw =
      cut limit₁ (opensStatements (fuel + 1) limit₂ nest lv raw)
        (readStatements (fuel + 1) limit₂ nest lv raw) := by
  rw [readStatements, readStatements, opensStatements]
  refine cut_opening hlimit ?_
  dsimp only
  rw [cut_onOk]
  congr 1
  funext toks
  exact cut_mapM (ih.stmt (nest + 1)) _

theorem expr_succ (nest : Nat) (a : Atom) :
    resolveExpr (fuel + 1) limit₁ nest a =
      cut limit₁ (opensExpr (fuel + 1) limit₂ nest a) (resolveExpr (fuel + 1) limit₂ nest a) := by
  cases a with
  | unknown | literal | comment | word | operator | exprStmt | controlStmt =>
    rw [resolveExpr, resolveExpr, opensExpr, cut_nil]
  | block lv raw resolved body =>
    rw [resolveExpr, resolveExpr, opensExpr]
    split
    · rfl
    · rw [cut_pure, ih.statements]
  | paren lv raw resolved contents | item lv raw resolved contents =>
    rw [resolveExpr, resolveExpr, opensExpr]
    split
    · rfl
    · rw [cut_pure, ih.run]
  | list lv raw resolved items =>
    rw [resolveExpr, resolveExpr, opensExpr]
    split
    · rfl
    rw [cut_onOk]
    congr 1
    funext items
    rw [cut_pure, ih.exprs]
  | call lv callee raw resolved split args =>
    rw [resolveExpr, resolveExpr, opensExpr]
    split
    · rfl
    rw [cut_bind, ih.expr]
    congr 1
    funext callee'
    have hitems : ∀ items, (items.mapM (resolveExpr fuel limit₁ nest) >>= fun args =>
        pure (Atom.call lv callee' [] true true args)) =
          cut limit₁ (opensEach (resolveExpr fuel limit₂ nest) (opensExpr fuel limit₂ nest) items)
            (items.mapM (resolveExpr fuel limit₂ nest) >>= fun args =>
              pure (.call lv callee' [] true true args)) := by
      intro items
      rw [cut_pure, ih.exprs]
    cases callee.isOperator with
    | true => exact hitems args
    | false =>
      simp only [Bool.false_eq_true, if_false, cut_onOk]
      congr 1
      funext items
      exact hitems items
  | access lv callee raw resolved index =>
    rw [resolveExpr, resolveExpr, opensExpr]
    split
    · rfl
    rw [cut_bind, ih.expr]
    congr 1
    funext callee'
    rw [cut_onOk]
    congr 1
    funext items
    rw [cut_pure, ih.exprs]
  | clause lv name cond body =>
    rw [resolveExpr_clause, resolveExpr_clause, opensExpr, cut_bind, ih.exprs]
    congr 1
    funext conds
    rw [cut_pure, ih.body]
  | chain lv clauses =>
    rw [resolveExpr, resolveExpr, opensExpr, cut_pure, ih.exprs]

theorem stmt_succ (nest : Nat) (a : Atom) :
    resolveStmt (fuel + 1) limit₁ nest a =
      cut limit₁ (opensStmt (fuel + 1) limit₂ nest a) (resolveStmt (fuel + 1) limit₂ nest a) := by
  cases a with
  | exprStmt lv raw resolved exprs | controlStmt lv head raw resolved exprs =>
    rw [resolveStmt, resolveStmt, opensStmt]
    split
    · rfl
    rw [cut_onOk]
    congr 1
    funext parts
    rw [cut_pure, ih.exprs]
  | _ => rw [resolveStmt, resolveStmt, opensStmt, cut_nil] <;> simp

end CutsAt

/-- By induction on the fuel. -/
theorem cutsAt (hlimit : NoStricter limit₁ limit₂) (fuel : Nat) : CutsAt limit₁ limit₂ fuel := by
  induction fuel with
  | zero => exact cutsAt_zero limit₁ limit₂
  | succ fuel ih => exact ⟨ih.run_succ hlimit, ih.statements_succ hlimit, ih.expr_succ, ih.stmt_succ⟩

end

end WatScript
