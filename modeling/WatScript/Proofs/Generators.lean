import WatScript.Codegen.Generator

/-!
# Generators keep no trace of earlier calls

Working with a generator does what emission says (`Follows`): it appends the instructions that are
emitted, ends as emission ends and leaves the count of bodies as it was, whether it fails or not. Whether
some body is open is all that lowering reads off the count. So a call on a generator that has served any
calls before emits and fails as on a fresh one (`generator_calls_are_independent`).
-/

namespace WatScript

/-- What is generated, behind the code so far. -/
def Gen.onto (g : Gen Unit) (gen : Generator) : Except GenFault Unit × Generator :=
  (g.result, { gen with code := gen.code ++ g.code })

/-- The fault of a generation. -/
def Gen.fault? (g : Gen Unit) : Option GenFault :=
  match g.result with
  | .ok _ => none
  | .error e => some e

/-- `m` does what `g` emits, on every generator on which it depends on `inBody` whether some body is
open. -/
def Follows (inBody : Bool) (m : Lowering Unit) (g : Gen Unit) : Prop :=
  ∀ gen : Generator, 0 ≤ gen.bodies → decide (0 < gen.bodies) = inBody → m.run gen = g.onto gen

theorem Lowering.run_bind (m : Lowering Unit) (f : Unit → Lowering Unit) (gen : Generator) :
    (m >>= f).run gen =
      match m.run gen with
      | (.ok a, gen) => (f a).run gen
      | (.error e, gen) => (.error e, gen) := by
  change ExceptT.bind m f gen = _
  simp only [ExceptT.bind, ExceptT.bindCont, ExceptT.mk, ExceptT.run, bind, StateT.bind]
  cases m gen with
  | mk result gen => cases result <;> rfl

theorem Lowering.run_inBody {m gen after result}
    (h : m.run { gen with bodies := gen.bodies + 1 } = (result, after)) :
    (Lowering.inBody m).run gen = (result, { after with bodies := after.bodies - 1 }) := by
  unfold Lowering.inBody
  rw [Lowering.run_bind]
  change (tryFinally m _ : Lowering Unit).run { gen with bodies := gen.bodies + 1 } = _
  simp only [ExceptT.run] at h
  simp only [tryFinally, tryFinally', ExceptT.run, ExceptT.mk, Functor.map, ExceptT.map, bind, StateT.bind, h]
  cases result <;> rfl

namespace Follows

variable {b : Bool} {m m' : Lowering Unit} {g g' : Gen Unit}

theorem pure : Follows b (Pure.pure ()) (Pure.pure ()) := by
  intro gen _ _
  simp [Gen.onto, Pure.pure, Gen.pure]
  rfl

theorem fail (e : GenFault) : Follows b (Lowering.fail e) (Gen.fail e) := by
  intro gen _ _
  simp [Gen.onto, Gen.fail]
  rfl

theorem fail_of_eq {e} (h : g = Gen.fail e) : Follows b (Lowering.fail e) g := h ▸ fail e

theorem collect (g : Gen Unit) : Follows b (Lowering.collect g) g := by
  intro gen _ _
  unfold Lowering.collect Gen.onto
  cases g.result <;> rfl

theorem require (c : Bool) (e : GenFault) : Follows b (Lowering.require c e) (Gen.require c e) := by
  cases c with
  | false => exact fail e
  | true => exact pure

theorem requireNoBody : Follows b Lowering.requireNoBody (Gen.require (!b) .notOneValue) := by
  intro gen hgen hb
  subst hb
  exact require _ _ gen hgen rfl

theorem bind (h : Follows b m g) (h' : Follows b m' g') :
    Follows b (m >>= fun _ => m') (g >>= fun _ => g') := by
  intro gen hgen hb
  rw [Lowering.run_bind, h gen hgen hb]
  simp only [Gen.onto, Bind.bind, Gen.bind]
  cases g.result with
  | error e => rfl
  | ok a =>
    rw [← List.append_assoc]
    exact h' ⟨_, gen.bodies⟩ hgen hb

theorem bindIf (c : Bool) (h : Follows b m g) (h' : Follows b m' g') :
    Follows b (if c then m >>= fun _ => m' else m') (if c then g >>= fun _ => g' else g') := by
  cases c with
  | false => exact h'
  | true => exact h.bind h'

theorem inBody (h : Follows true m g) : Follows b (Lowering.inBody m) g := by
  intro gen hgen _
  have hin := h { gen with bodies := gen.bodies + 1 } (Int.le_add_one hgen)
    (decide_eq_true (Int.lt_add_one_of_le hgen))
  rw [Lowering.run_inBody hin, Int.add_sub_cancel]
  rfl

end Follows

namespace Lowering

mutual

theorem follows_stmt (b : Bool) (a : Atom) : Follows b (stmt a) (genStmt b a) := by
  unfold stmt genStmt
  refine .bind (.require _ _) ?_
  cases a with
  | comment => exact .pure
  | exprStmt _ _ _ exprs => exact follows_exprStmt b exprs
  | controlStmt lv head _ _ exprs => exact .collect _
  | _ => exact .fail _

theorem follows_exprStmt (b : Bool) : ∀ exprs : List Atom, Follows b (exprStmt exprs) (genExprStmt b exprs)
  | [] => .pure
  | [a] => by
    unfold exprStmt genExprStmt
    cases a with
    | chain lv clauses =>
      refine .bind (.require _ _) ?_
      generalize (Atom.chain lv clauses).chainHead?.getD "" = head
      split
      · exact follows_arms b true clauses
      · rcases clauses with _ | ⟨clause, _ | ⟨_, _⟩⟩
        · exact .fail _
        · exact follows_whileClause b clause
        · exact .fail _
      · exact .fail _
      · exact .fail _
      · exact .fail_of_eq (by simp [*])
    | call lv callee _ _ _ args =>
      cases callee with
      | operator _ lexeme =>
        dsimp only
        split
        · exact .collect _
        · exact .bind .requireNoBody (.collect _)
      | _ => exact .collect _
    | _ => exact .bind .requireNoBody (.collect _)
  | _ :: _ :: _ => .require _ _

theorem follows_arms (b isFirst : Bool) : ∀ clauses : List Atom,
    Follows b (arms isFirst clauses) (genArms isFirst clauses)
  | [] => .pure
  | a :: rest => by
    have hrest := follows_arms b false rest
    cases a with
    | clause lv name cond body =>
      have hbody := follows_blockBody b body
      rw [arms, genArms]
      refine .bindIf _ (.collect _) ?_
      split
      · exact .bind (.collect _) (.bind (.collect _) (.bind hbody (.bind hrest (.collect _))))
      · split
        · exact .bind hbody hrest
        · exact .fail _
    | _ => exact .fail _

theorem follows_whileClause (b : Bool) (a : Atom) : Follows b (whileClause a) (genWhile a) := by
  cases a with
  | clause lv name cond body =>
    rw [whileClause, genWhile]
    exact .bind (.require _ _) (.bind (.collect _) (.bind (.collect _) (.bind (.collect _)
      (.bind (.collect _) (.bind (.collect _) (.bind (follows_blockBody b body) (.bind (.collect _)
        (.bind (.collect _) (.collect _)))))))))
  | _ => exact .fail _

theorem follows_blockBody (b : Bool) (a : Atom) : Follows b (blockBody a) (genBody a) := by
  cases a with
  | block _ _ _ body => exact (follows_stmts true body).inBody
  | _ => exact .fail _

theorem follows_stmts (b : Bool) : ∀ atoms : List Atom, Follows b (stmts atoms) (genStmts b atoms)
  | [] => .pure
  | a :: rest => by
    rw [stmts, genStmts]
    exact .bind (follows_stmt b a) (follows_stmts b rest)

end

theorem stmts_append (xs ys : List Atom) : stmts (xs ++ ys) = stmts xs >>= fun _ => stmts ys := by
  induction xs with
  | nil => simp [stmts]
  | cons a xs ih => simp [stmts, ih]

end Lowering

namespace Generator

/-- A call of the generator. -/
inductive Call where
  | stmts (atoms : List Atom)
  | expr (a : Atom)

/-- The generator after a call, and the failure of the call. -/
def Call.on (gen : Generator) : Call → Generator × Option GenFault
  | .stmts atoms => gen.stmts atoms
  | .expr a => gen.expr a

/-- The generator after several calls, and the failure of each of them. -/
def callAll (gen : Generator) : List Call → Generator × List (Option GenFault)
  | [] => (gen, [])
  | call :: rest => ((callAll (call.on gen).1 rest).1, (call.on gen).2 :: (callAll (call.on gen).1 rest).2)

/-- What the call generates. -/
def Call.emission : Call → Gen Unit
  | .stmts atoms => genStmts false atoms
  | .expr a => genExpr a

theorem perform_of_follows {m g} (h : Follows false m g) (code : List Instr) :
    Generator.perform ⟨code, 0⟩ m = (⟨code ++ g.code, 0⟩, g.fault?) := by
  unfold Generator.perform
  rw [h ⟨code, 0⟩ (Int.le_refl 0) rfl, Gen.onto, Gen.fault?]
  cases g.result <;> rfl

theorem Call.on_eq (call : Call) (code : List Instr) :
    call.on ⟨code, 0⟩ = (⟨code ++ call.emission.code, 0⟩, call.emission.fault?) := by
  cases call with
  | stmts atoms => exact perform_of_follows (Lowering.follows_stmts false atoms) code
  | expr a => exact perform_of_follows (.collect _) code

theorem callAll_eq (calls : List Call) : ∀ code : List Instr, callAll ⟨code, 0⟩ calls =
      (⟨code ++ calls.flatMap (·.emission.code), 0⟩, calls.map (·.emission.fault?)) := by
  induction calls with
  | nil => intro code; simp [callAll]
  | cons call rest ih => intro code; simp [callAll, Call.on_eq, ih]

theorem stmts_append (gen : Generator) (xs ys : List Atom) : gen.stmts (xs ++ ys) =
      match gen.stmts xs with
      | (gen, none) => gen.stmts ys
      | (gen, some e) => (gen, some e) := by
  simp only [Generator.stmts, Generator.perform, Lowering.stmts_append, Lowering.run_bind]
  cases (Lowering.stmts xs).run gen with
  | mk result gen => cases result <;> rfl

theorem generateStmts_eq (xs : List Atom) : generateStmts xs =
      match Generator.empty.stmts xs with
      | (gen, none) => .ok gen.code
      | (_, some e) => .error e := by
  have hrun : Generator.empty.stmts xs = _ := Call.on_eq (.stmts xs) []
  rw [hrun, generateStmts, Gen.toExcept, Gen.fault?, Call.emission]
  cases (genStmts false xs).result <;> rfl

theorem generateStmts_append (xs ys : List Atom) : generateStmts (xs ++ ys) = do
      let code ← generateStmts xs
      let code' ← generateStmts ys return code ++ code' := by
  have hrun : ∀ code zs, Generator.stmts ⟨code, 0⟩ zs = _ := fun code zs => Call.on_eq (.stmts zs) code
  rw [generateStmts_eq (xs ++ ys), stmts_append, generateStmts_eq xs, generateStmts_eq ys]
  simp only [Generator.empty, hrun, Gen.fault?, Call.emission]
  cases (genStmts false xs).result with
  | error e => rfl
  | ok _ =>
    simp only [hrun, Gen.fault?, Call.emission]
    cases (genStmts false ys).result <;> rfl

/-- However many calls a generator has served, and whether they failed or not: each call adds the
instructions and ends with the failure that it has on a fresh generator, and no body is left open. So
statements are lowered one after the other, and compiling them is one call on a fresh generator. -/
theorem generator_calls_are_independent :
    (∀ calls : List Call, callAll .empty calls =
      (⟨calls.flatMap fun call => (call.on .empty).1.code, 0⟩, calls.map fun call => (call.on .empty).2)) ∧
    (∀ (gen : Generator) (xs ys : List Atom), gen.stmts (xs ++ ys) =
      match gen.stmts xs with
      | (gen, none) => gen.stmts ys
      | (gen, some e) => (gen, some e)) ∧
    (∀ xs : List Atom, generateStmts xs =
      match Generator.empty.stmts xs with
      | (gen, none) => .ok gen.code
      | (_, some e) => .error e) ∧
    ∀ xs ys : List Atom, generateStmts (xs ++ ys) = do
      let code ← generateStmts xs
      let code' ← generateStmts ys
      return code ++ code' := by
  refine ⟨fun calls => ?_, stmts_append, generateStmts_eq, generateStmts_append⟩
  simpa only [Generator.empty, Call.on_eq, List.nil_append] using callAll_eq calls []

end Generator

end WatScript
