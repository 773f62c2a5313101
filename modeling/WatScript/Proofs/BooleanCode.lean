import WatScript.Proofs.CompiledExpressions

/-!
# Boolean code

Conditions are lowered to bitwise instructions, and both sides of `&&` and `||` are always evaluated. A
`Formula` is what a condition says, over locals and over comparisons of integer expressions, and
`Formula.holds` is its truth as a Boolean. `Atom.Says a f` relates a resolved expression to its formula,
which `Atom.formula?` computes.

The operands are evaluated in order, and what a host answers may depend on the calls before
(`Formula.eval`). No expression changes locals or memory (`Atom.eval_steady`), so by induction on the formula
each part evaluates to 0 or 1 (`Atom.Says.eval_eq`), and the code of the condition pushes that value
(`ExprCode.crosses`). Among hosts whose answers depend on their arguments only, all operands have the values
that they have on their own (`Formula.eval_of_pure`).
-/

namespace WatScript

open List Atom Eval

/-! ## What an expression leaves alone -/

/-- The worlds have the same locals and the same memory. -/
structure World.Alike (w w' : World) : Prop where
  locals : w'.locals = w.locals
  memory : w'.memory = w.memory

namespace World.Alike
variable {w w₁ w₂ : World}

theorem refl : w.Alike w := ⟨rfl, rfl⟩

theorem symm (h : w.Alike w₁) : w₁.Alike w := ⟨h.locals.symm, h.memory.symm⟩

theorem trans (h : w.Alike w₁) (h' : w₁.Alike w₂) : w.Alike w₂ :=
  ⟨h'.locals.trans h.locals, h'.memory.trans h.memory⟩

end World.Alike

/-- What the hosts return depends on nothing but their arguments. -/
def HostTable.Pure (hosts : HostTable) : Prop :=
  ∀ name host, hosts.lookup name = some host → ∀ history history' args,
    (host.call history' args).results = (host.call history args).results

/-- The evaluation changes neither locals nor memory. Its result depends on nothing else, if the hosts
are pure. -/
structure Eval.Steady (hosts : HostTable) {α : Type} (x : Eval α) : Prop where
  keeps : ∀ w : World, w.Alike (x w).2
  result_eq : hosts.Pure → ∀ {w w'}, w.Alike w' → (x w').1 = (x w).1

theorem Eval.bind_ok {α β : Type} {x : Eval α} {f : α → Eval β} {w w'' : World} {b : β}
    (h : (x >>= f) w = (.ok b, w'')) : ∃ a w', x w = (.ok a, w') ∧ f a w' = (.ok b, w'') := by
  cases hx : x w with
  | mk r w' =>
    cases r with
    | ok a => exact ⟨a, w', rfl, by rwa [bind_of_ok hx] at h⟩
    | error e =>
      rw [bind_of_error hx] at h
      cases h

namespace Eval.Steady
variable {α β : Type} {hosts : HostTable}

theorem pure {a} : Steady hosts (Pure.pure a : Eval α) := ⟨fun _ => .refl, fun _ _ _ _ => rfl⟩

theorem halt {e} : Steady hosts (Eval.halt e : Eval α) := ⟨fun _ => .refl, fun _ _ _ _ => rfl⟩

theorem lift (r : Except Trap α) : Steady hosts (Eval.lift r) := by
  cases r with
  | ok a => exact .pure
  | error t => exact .halt

theorem bind {x : Eval α} {f : α → Eval β} (hx : Steady hosts x) (hf : ∀ a, Steady hosts (f a)) :
    Steady hosts (x >>= f) := by
  have hkeeps (w : World) : w.Alike ((x >>= f) w).2 := by
    have hw := hx.keeps w
    cases hr : x w with
    | mk r w₁ =>
      rw [hr] at hw
      cases r with
      | ok a =>
        rw [bind_of_ok hr]
        exact hw.trans ((hf a).keeps w₁)
      | error e =>
        rw [bind_of_error hr]
        exact hw
  refine ⟨hkeeps, fun hpure {w w'} hww' => ?_⟩
  have heq := hx.result_eq hpure hww'
  have hw := hx.keeps w
  have hw' := hx.keeps w'
  cases hr : x w with
  | mk r w₁ =>
    cases hr' : x w' with
    | mk r' w₁' =>
      rw [hr, hr'] at heq
      obtain rfl : r' = r := heq
      rw [hr] at hw
      rw [hr'] at hw'
      cases r' with
      | ok a =>
        rw [bind_of_ok hr, bind_of_ok hr']
        exact (hf a).result_eq hpure (hw.symm.trans (hww'.trans hw'))
      | error e => rw [bind_of_error hr, bind_of_error hr']

theorem get (name : String) : Steady hosts (Eval.get name) :=
  ⟨fun _ => .refl, fun _ _ _ h => congrArg Except.ok (congrFun h.locals name)⟩

theorem load (addr : Int32) : Steady hosts (Eval.load addr) := by
  refine ⟨fun w => ?_, fun hpure {w w'} h => ?_⟩
  · have hlift : Steady hosts (Eval.lift (w.memory.load addr)) := lift _
    exact hlift.keeps w
  · show (Eval.lift (w'.memory.load addr) w').1 = (Eval.lift (w.memory.load addr) w).1
    rw [h.memory]
    exact (lift (w.memory.load addr)).result_eq hpure h

theorem callHost (name : String) (args : List Int32) : Steady hosts (Eval.callHost hosts name args) := by
  unfold Eval.callHost
  split
  · exact .halt
  · next host hhost =>
    refine ⟨fun w => ?_, fun hpure {w w'} _ => ?_⟩
    · dsimp only
      split <;> exact ⟨rfl, rfl⟩
    · dsimp only
      rw [hpure name host hhost w.history w'.history args]
      split <;> rfl

theorem applyOperator (o : String) (a b : Int32) : Steady hosts (WatScript.applyOperator o a b) := by
  unfold WatScript.applyOperator
  split
  · exact .lift _
  · exact .halt

theorem frontOperand (o : String) : Steady hosts (WatScript.frontOperand o) := by
  unfold WatScript.frontOperand
  split
  · exact .pure
  · exact .pure
  · exact .halt

theorem evalWord (w : String) : Steady hosts (WatScript.evalWord w) := by
  unfold WatScript.evalWord
  split
  · split
    · exact .pure
    · exact .halt
  · exact .get w

end Eval.Steady

section
variable (hosts : HostTable)

mutual

theorem Atom.eval_steady : ∀ a : Atom, (a.eval hosts).Steady hosts
  | .word _ w => by
    rw [eval]
    exact .evalWord w
  | .paren _ _ _ contents | .item _ _ _ contents => by
    rw [eval]
    exact evalSingle_steady contents
  | .call _ callee _ _ _ args => by
    cases callee with
    | operator _ o =>
      rw [eval]
      exact evalOperation_steady o args
    | word _ name =>
      rw [eval]
      refine (evalArgs_steady args).bind fun vs => (Eval.Steady.callHost name vs).bind fun rs => ?_
      split
      · exact .pure
      · exact .halt
    | _ =>
      simp only [eval]
      exact .halt
  | .access _ callee _ _ index => by
    cases callee with
    | word _ w =>
      rw [eval]
      split
      · exact (evalSingle_steady index).bind fun addr => .load addr
      · exact .halt
    | _ =>
      simp only [eval]
      exact .halt
  | .unknown .. | .literal .. | .comment .. | .operator .. | .block .. | .list .. | .clause ..
  | .chain .. | .exprStmt .. | .controlStmt .. => by
    simp only [eval]
    exact .halt

theorem evalSingle_steady : ∀ contents : List Atom, (evalSingle hosts contents).Steady hosts
  | [a] => by
    rw [evalSingle]
    exact a.eval_steady
  | [] | _ :: _ :: _ => by
    simp only [evalSingle]
    exact .halt

theorem evalArgs_steady : ∀ args : List Atom, (evalArgs hosts args).Steady hosts
  | [] => by
    rw [evalArgs]
    exact .pure
  | a :: rest => by
    rw [evalArgs]
    exact a.eval_steady.bind fun v => (evalArgs_steady rest).bind fun vs => .pure

theorem evalOperation_steady (o : String) : ∀ args : List Atom, (evalOperation hosts o args).Steady hosts
  | [left, right] => by
    have hright := right.eval_steady
    have hboth := left.eval_steady.bind fun a => hright.bind fun b => .applyOperator o a b
    have hfront := (Eval.Steady.frontOperand o).bind fun a => hright.bind fun b =>
      .applyOperator o a b
    unfold evalOperation
    split
    · cases ‹[left, right] = _›
      exact hfront
    · cases ‹[left, right] = _›
      exact hboth
    · exact .halt
  | [] | [_] | _ :: _ :: _ :: _ => by
    rw [evalOperation]
    · exact .halt
    all_goals simp

end

end

/-! ## Formulas -/

/-- A relation between integers that an operator stands for. -/
inductive Comparison where
  | eq
  | ne
  | lt
  | le
  | gt
  | ge
  deriving DecidableEq, Repr

namespace Comparison

/-- The operator that writes the comparison. -/
def lexeme : Comparison → String
  | eq => "=="
  | ne => "!="
  | lt => "<"
  | le => "<="
  | gt => ">"
  | ge => ">="

/-- The comparison of two numbers. -/
def holds : Comparison → Int → Int → Bool
  | eq, a, b => a == b
  | ne, a, b => a != b
  | lt, a, b => a < b
  | le, a, b => a ≤ b
  | gt, a, b => a > b
  | ge, a, b => a ≥ b

theorem operation?_lexeme (c : Comparison) (a b : Int32) :
    operation? c.lexeme a b = some (.ok (truth (c.holds a.toInt b.toInt = true))) := by
  cases c <;> simp [lexeme, holds, operation?, truth]

/-- The comparison that an operator writes. -/
def ofLexeme? (text : String) : Option Comparison :=
  [eq, ne, lt, le, gt, ge].find? fun c => c.lexeme == text

theorem ofLexeme?_lexeme (c : Comparison) : ofLexeme? c.lexeme = some c := by
  cases c <;> rfl

theorem lexeme_of_ofLexeme? {text c} (h : ofLexeme? text = some c) : c.lexeme = text := by
  simpa using find?_some h

end Comparison

/-- What a condition says, over locals and over comparisons of integer expressions. -/
inductive Formula where
  | const (b : Bool)
  | name (x : String)
  | compare (c : Comparison) (left right : Atom)
  | not (f : Formula)
  | and (f g : Formula)
  | or (f g : Formula)

namespace Formula

/-- The truth of a formula, for given locals and given values of integer expressions. -/
def holds (locals : String → Int32) (value : Atom → Int) : Formula → Bool
  | .const b => b
  | .name x => locals x == 1
  | .compare c left right => c.holds (value left) (value right)
  | .not f => !f.holds locals value
  | .and f g => f.holds locals value && g.holds locals value
  | .or f g => f.holds locals value || g.holds locals value

/-- The names that are read, from left to right. -/
def names : Formula → List String
  | .const _ | .compare .. => []
  | .name x => [x]
  | .not f => f.names
  | .and f g | .or f g => f.names ++ g.names

/-- The integer expressions that a formula compares. -/
def operands : Formula → List Atom
  | .const _ | .name _ => []
  | .compare _ left right => [left, right]
  | .not f => f.operands
  | .and f g | .or f g => f.operands ++ g.operands

/-- The truth of a formula whose comparisons are evaluated in order, all of them. -/
def eval (hosts : HostTable) : Formula → Eval Bool
  | .const b => pure b
  | .name x => do return (← Eval.get x) == 1
  | .compare c left right => do
    let u ← left.eval hosts
    let v ← right.eval hosts
    return c.holds u.toInt v.toInt
  | .not f => do return !(← f.eval hosts)
  | .and f g => do
    let b ← f.eval hosts
    let c ← g.eval hosts
    return b && c
  | .or f g => do
    let b ← f.eval hosts
    let c ← g.eval hosts
    return b || c

end Formula

/-- The expression says what the formula says. The empty item in front of `!` marks that it has no left
operand. -/
inductive Atom.Says : Atom → Formula → Prop
  | isTrue {lv} : Says (.word lv "true") (.const true)
  | isFalse {lv} : Says (.word lv "false") (.const false)
  | name {lv x} : isNameable x = true → Says (.word lv x) (.name x)
  | paren {lv raw r a f} : Says a f → Says (.paren lv raw r [a]) f
  | item {lv raw r a f} : Says a f → Says (.item lv raw r [a]) f
  | compare {lv lo raw r s} (c : Comparison) {left right} :
      Says (.call lv (.operator lo c.lexeme) raw r s [left, right]) (.compare c left right)
  | not {lv lo li raw iraw r s ir right f} : Says right f →
      Says (.call lv (.operator lo "!") raw r s [.item li iraw ir [], right]) (.not f)
  | and {lv lo raw r s left right f g} : Says left f → Says right g →
      Says (.call lv (.operator lo "&&") raw r s [left, right]) (.and f g)
  | or {lv lo raw r s left right f g} : Says left f → Says right g →
      Says (.call lv (.operator lo "||") raw r s [left, right]) (.or f g)

/-- The formula of an expression, where it has one. -/
def Atom.formula? : Atom → Option Formula
  | .word _ x =>
    if x = "true" then some (.const true)
    else if x = "false" then some (.const false)
    else if isNameable x then some (.name x)
    else none
  | .paren _ _ _ [a] | .item _ _ _ [a] => a.formula?
  | .call _ (.operator _ op) _ _ _ [left, right] =>
    match Comparison.ofLexeme? op with
    | some c => some (.compare c left right)
    | none =>
      if op = "&&" then return .and (← left.formula?) (← right.formula?)
      else if op = "||" then return .or (← left.formula?) (← right.formula?)
      else match op, left with
        | "!", .item _ _ _ [] => return .not (← right.formula?)
        | _, _ => none
  | _ => none

theorem Atom.says_of_formula? {a : Atom} {f : Formula} (h : a.formula? = some f) : a.Says f := by
  fun_induction formula? a generalizing f with
  | case1 => cases h; exact .isTrue
  | case2 => cases h; exact .isFalse
  | case3 _ _ _ _ hx => cases h; exact .name hx
  | case5 _ _ _ a ih => exact .paren (ih h)
  | case6 _ _ _ a ih => exact .item (ih h)
  | case7 _ _ _ _ _ _ _ _ c hc =>
    cases h
    obtain rfl := Comparison.lexeme_of_ofLexeme? hc
    exact .compare c
  | case8 _ _ _ _ _ _ _ _ ihl ihr =>
    obtain ⟨f₁, hl, h⟩ := Option.bind_eq_some_iff.1 h
    obtain ⟨f₂, hr, h⟩ := Option.bind_eq_some_iff.1 h
    cases h
    exact .and (ihl hl) (ihr hr)
  | case9 _ _ _ _ _ _ _ _ _ ihl ihr =>
    obtain ⟨f₁, hl, h⟩ := Option.bind_eq_some_iff.1 h
    obtain ⟨f₂, hr, h⟩ := Option.bind_eq_some_iff.1 h
    cases h
    exact .or (ihl hl) (ihr hr)
  | case10 _ _ _ _ _ _ _ _ _ _ _ _ ih =>
    obtain ⟨f, hf, h⟩ := Option.bind_eq_some_iff.1 h
    cases h
    exact .not (ih hf)
  | case4 | case11 | case12 => cases h

theorem Atom.Says.formula?_eq {a : Atom} {f : Formula} (h : a.Says f) : a.formula? = some f := by
  induction h with
  | isTrue => rfl
  | isFalse => rfl
  | name hx =>
    -- `true` and `false` are keywords, so they do not name locals
    rw [formula?, if_neg, if_neg, if_pos hx]
    · rintro rfl
      exact absurd hx (by decide)
    · rintro rfl
      exact absurd hx (by decide)
  | paren _ ih => exact ih
  | item _ ih => exact ih
  | compare c => simp [formula?, Comparison.ofLexeme?_lexeme]
  | not _ ih => simp [formula?, ih, show Comparison.ofLexeme? "!" = none from rfl]
  | and _ _ ihl ihr => simp [formula?, ihl, ihr, show Comparison.ofLexeme? "&&" = none from rfl]
  | or _ _ ihl ihr => simp [formula?, ihl, ihr, show Comparison.ofLexeme? "||" = none from rfl]

theorem Atom.says_iff {a : Atom} {f : Formula} : a.Says f ↔ a.formula? = some f :=
  ⟨Says.formula?_eq, says_of_formula?⟩

/-! ## Evaluation of formulas -/

/-- The integer that an expression evaluates to in a world, and zero if it has none. -/
def Atom.valueIn (hosts : HostTable) (w : World) (a : Atom) : Int :=
  match (a.eval hosts w).1 with
  | .ok v => v.toInt
  | .error _ => 0

theorem truth_and (b c : Bool) :
    truth (b = true) &&& truth (c = true) = truth ((b && c) = true) := by
  cases b <;> cases c <;> decide

theorem truth_or (b c : Bool) :
    truth (b = true) ||| truth (c = true) = truth ((b || c) = true) := by
  cases b <;> cases c <;> decide

theorem one_xor_truth (b : Bool) : 1 ^^^ truth (b = true) = truth ((!b) = true) := by
  cases b <;> decide

section
variable {hosts : HostTable} {w w' : World} {b : Bool} {f : Formula}

theorem Formula.eval_steady (hosts : HostTable) (f : Formula) : (f.eval hosts).Steady hosts := by
  induction f with
  | const => exact .pure
  | name x => exact (Eval.Steady.get x).bind fun _ => .pure
  | compare c left right =>
    exact (left.eval_steady hosts).bind fun _ => (right.eval_steady hosts).bind fun _ => .pure
  | not _ ih => exact ih.bind fun _ => .pure
  | and _ _ ihl ihr | or _ _ ihl ihr => exact ihl.bind fun _ => ihr.bind fun _ => .pure

theorem Eval.Steady.alike {α : Type} {x : Eval α} {r} (h : x.Steady hosts) (hx : x w = (r, w')) :
    w.Alike w' := by
  have hw := h.keeps w
  rwa [hx] at hw

theorem Atom.valueIn_of_ok {a v} (h : (Atom.eval hosts a w).1 = .ok v) : a.valueIn hosts w = v.toInt := by
  rw [valueIn, h]

theorem Atom.valueIn_alike (hpure : hosts.Pure) (h : w.Alike w') : valueIn hosts w' = valueIn hosts w := by
  funext a
  rw [valueIn, valueIn, (a.eval_steady hosts).result_eq hpure h]

/-- If the hosts are pure, the values of the operands are those that they have where the evaluation
starts. -/
theorem Formula.eval_of_pure (hpure : hosts.Pure) (h : f.eval hosts w = (.ok b, w')) :
    b = f.holds w.locals (valueIn hosts w) := by
  induction f generalizing w w' b with
  | const | name =>
    cases h
    rfl
  | compare c left right =>
    obtain ⟨u, w₁, hu, h⟩ := Eval.bind_ok h
    obtain ⟨v, w₂, hv, h⟩ := Eval.bind_ok h
    cases h
    have hright := (right.eval_steady hosts).result_eq hpure ((left.eval_steady hosts).alike hu)
    rw [holds, valueIn_of_ok (congrArg Prod.fst hu), valueIn_of_ok (hright.symm.trans (congrArg Prod.fst hv))]
  | not f ih =>
    obtain ⟨u, w₁, hu, h⟩ := Eval.bind_ok h
    cases h
    rw [holds, ← ih hu]
  | and f g ihl ihr | or f g ihl ihr =>
    obtain ⟨u, w₁, hu, h⟩ := Eval.bind_ok h
    obtain ⟨v, w₂, hv, h⟩ := Eval.bind_ok h
    cases h
    have hw := (f.eval_steady hosts).alike hu
    rw [holds, ← ihl hu, ← hw.locals, ← valueIn_alike hpure hw, ← ihr hv]

theorem evalOperation_both {o : String} {left right : Atom} {u v : Int32} {w₁ w₂ : World}
    (hl : left.eval hosts w = (.ok u, w₁)) (hr : right.eval hosts w₁ = (.ok v, w₂)) :
    evalOperation hosts o [left, right] w = applyOperator o u v w₂ := by
  have hne : ∀ lv raw r, left ≠ .item lv raw r [] := by
    rintro lv raw r rfl
    cases hl
  rw [evalOperation, bind_of_ok hl, bind_of_ok hr]
  exact fun lv raw r hitem => absurd hitem (hne lv raw r)

/-- A condition evaluates to 1 or 0, according to the truth of its formula. -/
theorem Atom.Says.eval_eq {a : Atom} (h : a.Says f)
    (hlocals : ∀ x ∈ f.names, w.locals x = 0 ∨ w.locals x = 1) (hf : f.eval hosts w = (.ok b, w')) :
    a.eval hosts w = (.ok (truth (b = true)), w') := by
  induction h generalizing w w' b with
  | isTrue | isFalse =>
    cases hf
    rfl
  | @name lv x hx =>
    cases hf
    rw [eval, evalWord, isNumeric_of_isNameable hx, if_neg Bool.false_ne_true]
    show (Except.ok (w.locals x), w) = _
    rcases hlocals x mem_cons_self with hv | hv <;> rw [hv] <;> rfl
  | paren _ ih | item _ ih =>
    rw [eval, evalSingle]
    exact ih hlocals hf
  | compare c =>
    obtain ⟨u, w₁, hu, hf⟩ := Eval.bind_ok hf
    obtain ⟨v, w₂, hv, hf⟩ := Eval.bind_ok hf
    cases hf
    rw [eval, evalOperation_both hu hv, applyOperator, c.operation?_lexeme]
    rfl
  | not _ ih =>
    obtain ⟨u, w₁, hu, hf⟩ := Eval.bind_ok hf
    cases hf
    have hpure : (frontOperand "!") w = (.ok 1, w) := rfl
    rw [eval, evalOperation, bind_of_ok hpure, bind_of_ok (ih hlocals hu), ← one_xor_truth]
    rfl
  | @and _ _ _ _ _ _ _ f g _ _ ihl ihr =>
    obtain ⟨hll, hlr⟩ := forall_mem_append.1 hlocals
    obtain ⟨u, w₁, hu, hf⟩ := Eval.bind_ok hf
    obtain ⟨v, w₂, hv, hf⟩ := Eval.bind_ok hf
    cases hf
    rw [← ((f.eval_steady hosts).alike hu).locals] at hlr
    rw [eval, evalOperation_both (ihl hll hu) (ihr hlr hv), ← truth_and]
    rfl
  | @or _ _ _ _ _ _ _ f g _ _ ihl ihr =>
    obtain ⟨hll, hlr⟩ := forall_mem_append.1 hlocals
    obtain ⟨u, w₁, hu, hf⟩ := Eval.bind_ok hf
    obtain ⟨v, w₂, hv, hf⟩ := Eval.bind_ok hf
    cases hf
    rw [← ((f.eval_steady hosts).alike hu).locals] at hlr
    rw [eval, evalOperation_both (ihl hll hu) (ihr hlr hv), ← truth_or]
    rfl

end

/-! ## The code of a formula -/

theorem generateExpr_eq_ok_iff {a code} :
    generateExpr [a] = .ok code ↔ (genExpr a).result = .ok () ∧ (genExpr a).code = code := by
  simp only [generateExpr, genSingle, Gen.toExcept]
  cases h : (genExpr a).result with
  | ok => simp
  | error => simp

theorem Gen.bind_result {α β : Type} {g : Gen α} {f : α → Gen β} {a : α} (h : g.result = .ok a) :
    (g >>= f).result = (f a).result := by
  simp only [Bind.bind, Gen.bind, h]

theorem Gen.require_result {β : Type} {c : Bool} {e : GenFault} {f : Unit → Gen β} (h : c = true) :
    (Gen.require c e >>= f).result = (f ()).result := by
  subst h
  exact Gen.bind_result rfl

section
variable {lv : Level} {a left right : Atom} {o : String} {op : BinOp}

theorem genOperation_result (hop : binaryOp? o = some op) (ho : Operator.isAssignment o = false)
    (hl : ItemTree lv left) (hr : ItemTree lv right)
    (hleft : (left = .item lv [] true [] ∧ (implicitLeft? o).isSome) ∨
      (genExpr left).result = .ok ())
    (hright : (genExpr right).result = .ok ()) : (genOperation o [left, right]).result = .ok () := by
  have hitems : (left.isItem && right.isItem) = true := by
    cases hl
    cases hr
    rfl
  rw [genOperation, Gen.require_result hitems, Gen.require_result (by rw [ho]; rfl), hop]
  rcases hleft with ⟨rfl, hv⟩ | hleft
  · obtain ⟨v, hv⟩ := Option.isSome_iff_exists.1 hv
    simp only [isEmptyItem?, isEmpty_nil, if_true, beq_self_eq_true, hv]
    rw [Gen.bind_result rfl, Gen.bind_result hright]
    rfl
  · have hne : (left.isEmptyItem? == some true) = false := by
      cases hl with
      | @intro _ contents _ =>
        cases contents with
        | nil => cases hleft
        | cons => rfl
    simp only [hne, Bool.false_eq_true, if_false]
    rw [Gen.bind_result hleft, Gen.bind_result hright]
    rfl

theorem ExprTree.operation_inv {l lo : Level} {raw : List Atom} {r s : Bool}
    (h : ExprTree lv (.call l (.operator lo o) raw r s [left, right])) :
    ItemTree lv left ∧ ItemTree lv right ∧
      (genExpr (.call l (.operator lo o) raw r s [left, right])).result =
        (genOperation o [left, right]).result := by
  cases h with
  | operation ho hl hr =>
    refine ⟨hl, hr, ?_⟩
    rw [genExpr, Gen.require_result (ExprTree.operation ho hl hr).isReady]
  | call hcall => cases hcall

theorem Atom.Says.genExpr_result {f : Formula} (h : a.Says f) (ht : ExprTree lv a ∨ ItemTree lv a)
    (hoperands : ∀ x ∈ f.operands, (genExpr x).result = .ok ()) : (genExpr a).result = .ok () := by
  induction h generalizing lv with
  | isTrue | isFalse =>
    rw [genExpr]
    exact Gen.require_result rfl
  | @name l x hx =>
    simp only [isNameable, Bool.and_eq_true, Bool.not_eq_true', bne_iff_ne, ne_eq] at hx
    obtain ⟨⟨hreserved, hnumeric⟩, hmemory⟩ := hx
    rw [genExpr]
    refine (Gen.require_result rfl).trans ?_
    simp [genWord, hnumeric, hmemory, hreserved, Gen.emit]
  | paren _ ih =>
    obtain ht | ht := ht <;> cases ht
    rename_i hc
    rw [genExpr, genSingle]
    exact (Gen.require_result rfl).trans (ih (.inl (hc _ mem_cons_self)) hoperands)
  | item _ ih =>
    obtain ht | ht := ht <;> cases ht
    rename_i hc
    rw [genExpr, genSingle]
    exact (Gen.require_result rfl).trans (ih (.inl (hc _ mem_cons_self)) hoperands)
  | compare c =>
    obtain ht | ht := ht
    · obtain ⟨hl, hr, heq⟩ := ht.operation_inv
      obtain ⟨hleft, hright⟩ := forall_mem_cons.1 hoperands
      obtain ⟨op, hop, ho⟩ : ∃ op, binaryOp? c.lexeme = some op ∧
          Operator.isAssignment c.lexeme = false := by
        cases c <;> exact ⟨_, rfl, by decide⟩
      rw [heq]
      exact genOperation_result hop ho hl hr (.inr hleft) (hright _ mem_cons_self)
    · cases ht
  | not _ ih =>
    obtain ht | ht := ht
    · obtain ⟨hl, hr, heq⟩ := ht.operation_inv
      rw [heq]
      refine genOperation_result rfl (by decide) hl hr (.inl ⟨?_, rfl⟩) (ih (.inr hr) hoperands)
      cases hl
      rfl
    · cases ht
  | and _ _ ihl ihr | or _ _ ihl ihr =>
    obtain ht | ht := ht
    · obtain ⟨hl, hr, heq⟩ := ht.operation_inv
      obtain ⟨hol, hor⟩ := forall_mem_append.1 hoperands
      rw [heq]
      exact genOperation_result rfl (by decide) hl hr (.inr (ihl (.inr hl) hol)) (ihr (.inr hr) hor)
    · cases ht

theorem exprCode_of_result (ht : ExprTree lv a ∨ ItemTree lv a) (h : (genExpr a).result = .ok ()) :
    ExprCode a (genExpr a).code := by
  have hy : (genExpr a).Yields (ExprCode a) := ht.elim ExprTree.yields ItemTree.yields
  unfold Gen.Yields at hy
  rwa [h] at hy

end

/-! ## Boolean code -/

/-- A resolved condition over locals that are 0 or 1 and over comparisons of integer expressions that
evaluate without a trap has code. Wherever the code stands, a run goes through it, one step for each
instruction, and leaves 0 or 1 on top of what was on the stack: 1 if and only if the formula of the
condition is true. Its truth depends on the order of the operands only if the answers of hosts do. -/
theorem boolean_code_leaves_truth {lv : Level} {a : Atom} {f : Formula} {b : Bool} (hosts : HostTable)
    (w w' : World) (ht : ExprTree lv a ∨ ItemTree lv a) (hf : a.Says f)
    (hlocals : ∀ x ∈ f.names, w.locals x = 0 ∨ w.locals x = 1)
    (hcode : ∀ x ∈ f.operands, ∃ code, generateExpr [x] = .ok code)
    (hvalue : f.eval hosts w = (.ok b, w'))
    (hcalls : ∀ site ∈ a.callSites true, hosts.Answers site) :
    ∃ code v, generateExpr [a] = .ok code ∧ (v = 0 ∨ v = 1) ∧ (v = 1 ↔ b = true) ∧
      (hosts.Pure → b = f.holds w.locals (Atom.valueIn hosts w)) ∧ w.Alike w' ∧
      ∀ (m : Machine) (names calls : List String) (s : State), m.Knows names hosts calls →
        m.Placed s.pc code → w.Shows names s → s.canceled = false →
        m.GoesThrough names code.length s (.ok v, w') := by
  have hresult : (genExpr a).result = .ok () := hf.genExpr_result ht fun x hx => by
    obtain ⟨code, hx⟩ := hcode x hx
    exact (generateExpr_eq_ok_iff.1 hx).1
  have hexpr := exprCode_of_result ht hresult
  refine ⟨_, truth (b = true), generateExpr_eq_ok_iff.2 ⟨hresult, rfl⟩, ?_, ?_,
    fun hpure => f.eval_of_pure hpure hvalue, (f.eval_steady hosts).alike hvalue, ?_⟩
  · cases b
    · exact .inl rfl
    · exact .inr rfl
  · cases b <;> decide
  intro m names calls s hm hp hw hc
  have hcross : Crosses m names True _ ⟨s.pc, s.labels, s.stack.live, w⟩ _ _ :=
    hexpr.crosses hm hp fun site hsite => ⟨hcalls site hsite, .inl trivial⟩
  unfold Crosses at hcross
  rw [hf.eval_eq hlocals hvalue] at hcross
  exact Crossed.goesThrough hcross hc hw

/-- A negated comparison or a local, run by an engine. -/
theorem boolean_code_leaves_truth_or :
    ∃ p logs, Program.build Config.standard true (.ofString "!(a < 2) || b") = .ok p ∧
      (Engine.create .standard none).run p false [1, 1] = .ok ⟨1, p.code.length, logs, none⟩ := by
  obtain ⟨e, he⟩ : ∃ e, e = Engine.create .standard none := ⟨_, rfl⟩
  obtain ⟨w, hw⟩ : ∃ w : World, w = .initial 1 1 ⟨#[]⟩ := ⟨_, rfl⟩
  rw [← he]
  have hok : (Program.read Config.standard.maxDepth true (.ofString "!(a < 2) || b")).map (fun atoms =>
      (atoms.map fun a => a.formula?.map fun f => decide (f.names = ["b"] ∧
          (∀ x ∈ f.operands, (generateExpr [x]).toOption.isSome) ∧
          (f.eval e.hosts w).1.toOption = some true ∧ a.callSites true = []),
        (generateExpr atoms).map List.length, Symbols.ofRun atoms)) =
      .ok ([some true], .ok 7, ⟨["a", "b"], [], false⟩) := by
    rw [he, hw]
    decide +kernel
  subst hw
  obtain ⟨atoms, hread, hfacts⟩ := map_ok hok
  obtain ⟨hatoms, hrest⟩ := Prod.mk.inj hfacts
  obtain ⟨hlength, hsymbols⟩ := Prod.mk.inj hrest
  obtain ⟨a, rfl, ha⟩ := List.map_eq_singleton_iff.1 hatoms
  obtain ⟨f, hf, hfacts⟩ := Option.map_eq_some_iff.1 ha
  obtain ⟨hnames, hoperands, hholds, hsites⟩ := of_decide_eq_true hfacts
  have htree := parseExpr_trees Config.standard.maxDepth (.ofString "!(a < 2) || b")
  rw [show parseExpr _ _ = _ from hread] at htree
  obtain ⟨code, v, hcode, -, hv, -, -, hgoes⟩ := boolean_code_leaves_truth e.hosts _ _
    (.inl (htree a List.mem_cons_self)) (Atom.says_iff.2 hf)
    (by rw [hnames]; exact List.forall_mem_singleton.2 (.inr rfl))
    (fun x hx => (Option.isSome_iff_exists.1 (hoperands x hx)).imp fun _ => toOption_ok)
    (Prod.ext (toOption_ok hholds) rfl)
    (by rw [hsites]; exact List.forall_mem_nil _)
  obtain rfl : v = 1 := hv.2 rfl
  obtain ⟨p, hp, rfl, hsymbols'⟩ := Program.build_ok hread hcode
  rw [hsymbols] at hsymbols'
  have hsound := Program.sound_of_build hp
  have hcalls : p.symbols.calls = [] := by rw [hsymbols']
  have hmemory : Memory.create (if p.symbols.usesMemory then e.config.memoryPages else 0) 0 =
      .ok ⟨#[]⟩ := by
    rw [hsymbols', if_neg (by decide)]
    rfl
  obtain ⟨m, hosts, x, hlink, hx, hlimit, hshows⟩ :=
    hsound.exists_instance (by rw [hcalls]; exact List.forall_mem_nil _) hmemory
  have hlinked := hsound.linked hlink hx
  have hstart := hshows 1 1
  have hplaced : x.machine.Placed 0 p.code := ⟨[], [], by rw [hlinked.code]; simp, rfl⟩
  have hthrough : x.machine.GoesThrough _ _ (x.initialState (Engine.fullArgs [1, 1])) _ :=
    hgoes _ _ _ _ hlinked.knows hplaced hstart.world hstart.canceled
  obtain ⟨-, -, -, htail⟩ := Program.build_inv hp
  obtain ⟨hyields, htailCall⟩ := Prod.mk.inj htail
  refine ⟨p, _, hp, hthrough.runsAs hlink hx hlinked.code ?_ ?_ (Nat.le_refl 2)⟩
  · exact (Engine.result_of_none hlink htailCall).trans hyields
  · rw [hcode] at hlength
    rw [hlimit, Except.ok.inj hlength, he]
    decide +kernel

end WatScript
