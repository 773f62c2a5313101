import Mathlib.Algebra.Group.Int.Defs
import Mathlib.Logic.Function.Basic
import WatScript.Codegen.Lower
import WatScript.Engine.Library
import WatScript.Machine.Step

/-!
# Evaluation of statements

What a resolved tree means, without instructions. Expressions are evaluated from left to right, every
operand of every operator, over 32 bit integers that wrap around. Statements run in order and end with a
signal: normally, or on the way out of a loop or of the program. A compound assignment `t op= e` is
read as `t = t op e`.

Evaluation is a function on the tree with a bound on the iterations of each loop. It halts with a trap
of the program, or because a loop had no iterations left, or, for trees that mean nothing, stuck.
Statements evaluate to what they end with under some bound (`Evaluates`); they diverge if no bound is
enough (`Diverges`).
-/

namespace WatScript

/-- What statements work on. Every name has a value. -/
structure World where
  locals : String → Int32
  memory : Memory
  calls : List HostCall
  logs : List Int32

/-- What a host is told of the run. -/
def World.history (w : World) : History := ⟨w.calls, w.logs⟩

/-- Why an evaluation ends early. -/
inductive Halt where
  | trap (t : Trap)
  | outOfFuel
  | stuck
  deriving DecidableEq, Repr

/-- How a statement ends. -/
inductive Signal where
  | normal
  | brk
  | cont
  | ret (value : Option Int32)
  deriving DecidableEq, Repr

/-- An evaluation. One that halts early leaves what it did to the world. -/
def Eval (α : Type) := World → Except Halt α × World

namespace Eval
variable {α β : Type}

instance : Monad Eval where
  pure a := fun w => (.ok a, w)
  bind x f := fun w =>
    match x w with
    | (.ok a, w) => f a w
    | (.error h, w) => (.error h, w)

theorem bind_of_ok {x : Eval α} {f : α → Eval β} {w w' : World} {a : α} (h : x w = (.ok a, w')) :
    (x >>= f) w = f a w' := by
  simp only [bind, h]

theorem bind_of_error {x : Eval α} {f : α → Eval β} {w w' : World} {e : Halt}
    (h : x w = (.error e, w')) : (x >>= f) w = (.error e, w') := by
  simp only [bind, h]

/-- Ends the evaluation. -/
def halt (h : Halt) : Eval α := fun w => (.error h, w)

/-- A value, or the trap that takes its place. -/
def lift : Except Trap α → Eval α
  | .ok a => pure a
  | .error t => halt (.trap t)

/-- Reads a local. -/
def get (name : String) : Eval Int32 := fun w => (.ok (w.locals name), w)

/-- Writes a local. -/
def set (name : String) (v : Int32) : Eval Unit := fun w =>
  (.ok (), { w with locals := Function.update w.locals name v })

/-- Reads a word of memory. -/
def load (addr : Int32) : Eval Int32 := fun w => lift (w.memory.load addr) w

/-- Writes a word of memory. -/
def store (addr v : Int32) : Eval Unit := fun w =>
  match w.memory.store addr v with
  | .ok memory => (.ok (), { w with memory })
  | .error t => (.error (.trap t), w)

/-- Calls a host, which finds what was done so far; the call is recorded whatever it answers. -/
def callHost (hosts : HostTable) (name : String) (args : List Int32) : Eval (List Int32) :=
  match hosts.lookup name with
  | none => halt .stuck
  | some host => fun w =>
    let reply := host.call w.history args
    let w := { w with calls := ⟨name, args⟩ :: w.calls, logs := reply.logs }
    match reply.results with
    | .ok results => (.ok results, w)
    | .error d => (.error (.trap (.host d)), w)

/-- Repeats a body while a condition is not zero, at most `fuel` times. -/
def loopFor (cond : Eval Int32) (body : Eval Signal) : Nat → Eval Signal
  | 0 => halt .outOfFuel
  | fuel + 1 => do
    let c ← cond
    if c = 0 then pure .normal
    else
      match ← body with
      | .normal | .cont => loopFor cond body fuel
      | .brk => pure .normal
      | .ret v => pure (.ret v)

end Eval

/-! ## Operators -/

/-- Truth values are one and zero. -/
def truth (p : Prop) [Decidable p] : Int32 := if p then 1 else 0

theorem truth_ne_zero {p} [Decidable p] (h : p) : truth p ≠ 0 := by
  rw [truth, if_pos h]
  decide

theorem truth_eq_zero {p} [Decidable p] (h : ¬ p) : truth p = 0 := if_neg h

/-- What an operator computes: arithmetic on integers, taken back into 32 bits. Division truncates;
it traps on a zero divisor, and where the quotient has no 32 bits. -/
def operation? (o : String) (a b : Int32) : Option (Except Trap Int32) :=
  match o with
  | "+" => some (.ok (.ofInt (a.toInt + b.toInt)))
  | "-" => some (.ok (.ofInt (a.toInt - b.toInt)))
  | "*" => some (.ok (.ofInt (a.toInt * b.toInt)))
  | "/" =>
    if b.toInt = 0 then some (.error .divisionByZero)
    else if a.toInt.tdiv b.toInt = 2 ^ 31 then some (.error .overflow)
    else some (.ok (.ofInt (a.toInt.tdiv b.toInt)))
  | "%" =>
    if b.toInt = 0 then some (.error .divisionByZero)
    else some (.ok (.ofInt (a.toInt.tmod b.toInt)))
  | "&&" => some (.ok (a &&& b))
  | "||" => some (.ok (a ||| b))
  | "!" => some (.ok (a ^^^ b))
  | "==" => some (.ok (truth (a.toInt = b.toInt)))
  | "!=" => some (.ok (truth (a.toInt ≠ b.toInt)))
  | "<" => some (.ok (truth (a.toInt < b.toInt)))
  | ">" => some (.ok (truth (b.toInt < a.toInt)))
  | "<=" => some (.ok (truth (a.toInt ≤ b.toInt)))
  | ">=" => some (.ok (truth (b.toInt ≤ a.toInt)))
  | _ => none

/-- Applies an operator to evaluated operands. -/
def applyOperator (o : String) (a b : Int32) : Eval Int32 :=
  match operation? o a b with
  | some r => Eval.lift r
  | none => Eval.halt .stuck

/-- The left operand of an operator that stands in front: `-x` is `0 - x`, `!x` is `1 ! x`. -/
def frontOperand (o : String) : Eval Int32 :=
  match o with
  | "-" => pure 0
  | "!" => pure 1
  | _ => Eval.halt .stuck

/-- The operator inside a compound assignment. -/
def compound? : String → Option String
  | "+=" => some "+"
  | "-=" => some "-"
  | "*=" => some "*"
  | "/=" => some "/"
  | "%=" => some "%"
  | _ => none

/-! ## Expressions -/

/-- A numeral is its number, a name the value of the local. -/
def evalWord (w : String) : Eval Int32 :=
  if isNumeric w then
    match parseNumber w with
    | .ok v => pure v
    | .error _ => Eval.halt .stuck
  else Eval.get w

mutual

/-- The value of an expression. -/
def Atom.eval (hosts : HostTable) : Atom → Eval Int32
  | .word _ w => evalWord w
  | .paren _ _ _ contents | .item _ _ _ contents => evalSingle hosts contents
  | .call _ callee _ _ _ args =>
    match callee with
    | .operator _ o => evalOperation hosts o args
    | .word _ name => do
      match ← Eval.callHost hosts name (← evalArgs hosts args) with
      | [v] => pure v
      | _ => Eval.halt .stuck
    | _ => Eval.halt .stuck
  | .access _ (.word _ w) _ _ index =>
    if w = Keyword.memory then do Eval.load (← evalSingle hosts index) else Eval.halt .stuck
  | _ => Eval.halt .stuck

/-- The value of a run that must be one expression. -/
def evalSingle (hosts : HostTable) : List Atom → Eval Int32
  | [a] => a.eval hosts
  | _ => Eval.halt .stuck

/-- The values of arguments, from left to right. -/
def evalArgs (hosts : HostTable) : List Atom → Eval (List Int32)
  | [] => pure []
  | a :: rest => do
    let v ← a.eval hosts
    let vs ← evalArgs hosts rest
    return v :: vs

/-- The value of an operator between two operands; the left one may be absent. -/
def evalOperation (hosts : HostTable) (o : String) : List Atom → Eval Int32
  | [.item _ _ _ [], right] => do
    let a ← frontOperand o
    let b ← right.eval hosts
    applyOperator o a b
  | [left, right] => do
    let a ← left.eval hosts
    let b ← right.eval hosts
    applyOperator o a b
  | _ => Eval.halt .stuck

end

/-! ## Statements -/

/-- Gives a target the value that `value` evaluates to; the address of a cell comes first. -/
def assignTo (hosts : HostTable) (target : List Atom) (value : Eval Int32) : Eval Unit :=
  match declared? target with
  | some name => do Eval.set name (← value)
  | none =>
    match target with
    | [.word _ name] => do Eval.set name (← value)
    | [.access _ (.word _ w) _ _ index] =>
      if w = Keyword.memory then do
        let addr ← evalSingle hosts index
        Eval.store addr (← value)
      else Eval.halt .stuck
    | _ => Eval.halt .stuck

/-- Runs `target = right` or, as `target = target op right`, a compound assignment. -/
def execAssign (hosts : HostTable) (o : String) : List Atom → Eval Unit
  | [.item _ _ _ target, right] =>
    match compound? o with
    | none => assignTo hosts target (right.eval hosts)
    | some base => assignTo hosts target do
      let a ← evalSingle hosts target
      let b ← right.eval hosts
      applyOperator base a b
  | _ => Eval.halt .stuck

/-- Control statements. -/
def execControl (hosts : HostTable) (head : String) (exprs : List Atom) : Eval Signal :=
  match head with
  | "return" =>
    match exprs with
    | [] => pure (.ret none)
    | exprs => do return .ret (some (← evalSingle hosts exprs))
  | "break" => pure .brk
  | "continue" => pure .cont
  | "assert" => do
    if (← evalSingle hosts exprs) = 0 then Eval.halt (.trap .unreachable) else pure .normal
  | _ => Eval.halt .stuck

/-- The chain is a `while` without an `else`. -/
def isWhile : List Atom → Bool
  | [.clause _ "while" _ _] => true
  | _ => false

mutual

/-- The effect of a statement. Fuel bounds the rounds of its loops. -/
def Atom.exec (hosts : HostTable) (fuel : Nat) : Atom → Eval Signal
  | .comment .. => pure .normal
  | .exprStmt _ _ _ exprs => execExprs hosts fuel exprs
  | .controlStmt _ head _ _ exprs => execControl hosts head exprs
  | _ => Eval.halt .stuck

/-- Runs what stands alone as a statement. The results of a call are dropped, however many. -/
def execExprs (hosts : HostTable) (fuel : Nat) : List Atom → Eval Signal
  | [] => pure .normal
  | [a] =>
    match a with
    | .chain _ clauses =>
      if isWhile clauses then execLoop hosts fuel clauses else execArms hosts fuel clauses
    | .call _ (.operator _ o) _ _ _ args =>
      if o = "=" ∨ (compound? o).isSome then do
        execAssign hosts o args
        return .normal
      else do
        let _ ← a.eval hosts
        return .normal
    | .call _ (.word _ name) _ _ _ args => do
      let _ ← Eval.callHost hosts name (← evalArgs hosts args)
      return .normal
    | _ => do
      let _ ← a.eval hosts
      return .normal
  | exprs => if (declared? exprs).isSome then pure .normal else Eval.halt .stuck

/-- A `while`. -/
def execLoop (hosts : HostTable) (fuel : Nat) : List Atom → Eval Signal
  | [.clause _ _ (some cond) body] => Eval.loopFor (cond.eval hosts) (execBody hosts fuel body) fuel
  | _ => Eval.halt .stuck

/-- The arms of an `if`: the first one whose condition holds. -/
def execArms (hosts : HostTable) (fuel : Nat) : List Atom → Eval Signal
  | [] => pure .normal
  | .clause _ _ (some cond) body :: rest => do
    if (← cond.eval hosts) = 0 then execArms hosts fuel rest else execBody hosts fuel body
  | .clause _ _ none body :: _ => execBody hosts fuel body
  | _ :: _ => Eval.halt .stuck

/-- The statements of a block. -/
def execBody (hosts : HostTable) (fuel : Nat) : Atom → Eval Signal
  | .block _ _ _ stmts => execStmts hosts fuel stmts
  | _ => Eval.halt .stuck

/-- Runs statements until one does not end normally. -/
def execStmts (hosts : HostTable) (fuel : Nat) : List Atom → Eval Signal
  | [] => pure .normal
  | s :: rest => do
    match ← s.exec hosts fuel with
    | .normal => execStmts hosts fuel rest
    | signal => pure signal

end

/-! ## With enough fuel -/

/-- Statements end, in another world: with a signal or with a trap. -/
def Evaluates (hosts : HostTable) (stmts : List Atom) (w : World) (r : Except Halt Signal)
    (w' : World) : Prop :=
  r ≠ .error .outOfFuel ∧ ∃ fuel, execStmts hosts fuel stmts w = (r, w')

/-- No bound on the iterations of loops is enough for statements to end. -/
def Diverges (hosts : HostTable) (stmts : List Atom) (w : World) : Prop :=
  ∀ fuel, (execStmts hosts fuel stmts w).1 = .error .outOfFuel

/-! ## Calls and hosts -/

/-- A call in a program: the host, the number of arguments, and whether a value is taken from it. -/
structure CallSite where
  name : String
  args : Nat
  isValue : Bool
  deriving DecidableEq, Repr

mutual

/-- The calls in a part of a program. Only a call that is a statement has no value taken from it. -/
def Atom.callSites (isValue : Bool) : Atom → List CallSite
  | .call _ (.word _ name) _ _ _ args => ⟨name, args.length, isValue⟩ :: callSitesOf true args
  | .call _ callee _ _ _ args => callee.callSites true ++ callSitesOf true args
  | .access _ callee _ _ index => callee.callSites true ++ callSitesOf true index
  | .paren _ _ _ contents | .list _ _ _ contents | .item _ _ _ contents => callSitesOf true contents
  | .block _ _ _ body => callSitesOf true body
  | .clause _ _ cond body => callSitesOption cond ++ body.callSites true
  | .chain _ clauses => callSitesOf true clauses
  | .exprStmt _ _ _ exprs => callSitesOf false exprs
  | .controlStmt _ _ _ _ exprs => callSitesOf true exprs
  | _ => []

def callSitesOption : Option Atom → List CallSite
  | none => []
  | some a => a.callSites true

def callSitesOf (isValue : Bool) : List Atom → List CallSite
  | [] => []
  | a :: rest => a.callSites isValue ++ callSitesOf isValue rest

end

/-- The table has the called host with as many parameters as the call passes arguments, and with one result
if the value is taken. Called so, after whatever history, the host does not cancel the run. -/
def HostTable.Answers (hosts : HostTable) (site : CallSite) : Prop :=
  ∃ host, hosts.lookup site.name = some host ∧ host.params = site.args ∧
    (site.isValue = true → host.results = 1) ∧
    ∀ history args, args.length = site.args → (host.call history args).cancels = false

/-- The table has the called host with as many parameters as the call passes arguments. Called so, after
whatever history, the host does not cancel the run and returns as many results as it declares, one if the
value is taken. -/
def HostTable.Serves (hosts : HostTable) (site : CallSite) : Prop :=
  ∃ host, hosts.lookup site.name = some host ∧ host.params = site.args ∧
    (∀ history args, args.length = site.args → (host.call history args).cancels = false ∧
      ∀ results, (host.call history args).results = .ok results →
        (results.length : Int) = host.results) ∧
    (site.isValue = true → host.results = 1)

theorem HostTable.Serves.answers {hosts : HostTable} {site : CallSite} (h : hosts.Serves site) :
    hosts.Answers site := by
  obtain ⟨host, hhost, hparams, hreply, hvalue⟩ := h
  exact ⟨host, hhost, hparams, hvalue, fun history args hargs => (hreply history args hargs).1⟩

/-! ## Operators and instructions -/

theorem toInt_eq_zero {b : Int32} : b.toInt = 0 ↔ b = 0 := by
  rw [← Int32.toInt_zero, Int32.toInt_inj]

theorem tdiv_eq_two_pow_iff (a b : Int32) :
    a.toInt.tdiv b.toInt = 2 ^ 31 ↔ a = Int32.minValue ∧ b = -1 := by
  constructor
  · intro h
    have hlo := a.le_toInt
    have hhi := a.toInt_lt
    have habs : a.toInt.natAbs / b.toInt.natAbs = 2 ^ 31 :=
      (Int.natAbs_tdiv a.toInt b.toInt).symm.trans (by rw [h]; rfl)
    have hb : b.toInt.natAbs = 1 := by
      match hn : b.toInt.natAbs with
      | 0 => rw [hn] at habs; omega
      | 1 => rfl
      | n + 2 =>
        rw [hn] at habs
        have hle : a.toInt.natAbs / (n + 2) ≤ a.toInt.natAbs / 2 :=
          Nat.div_le_div_left (by omega) (by decide)
        rw [habs] at hle
        omega
    rw [hb, Nat.div_one] at habs
    have ha : a.toInt = -2 ^ 31 := by omega
    refine ⟨Int32.toInt_inj.1 (ha.trans Int32.toInt_minValue.symm), Int32.toInt_inj.1 ?_⟩
    rcases Int.natAbs_eq_iff.1 hb with hb | hb
    · rw [ha, hb] at h
      exact absurd h (by decide)
    · exact hb
  · rintro ⟨rfl, rfl⟩
    decide

theorem ofInt_tdiv_toInt (a b : Int32) : Int32.ofInt (a.toInt.tdiv b.toInt) = a / b := by
  rw [Int32.ofInt_eq_iff_bmod_eq_toInt, Int32.toInt_div]

theorem ofInt_tmod_toInt (a b : Int32) : Int32.ofInt (a.toInt.tmod b.toInt) = a % b := by
  rw [← Int32.toInt_mod, Int32.ofInt_toInt]

theorem operation?_eq {o : String} {op : BinOp} (h : binaryOp? o = some op) (a b : Int32) :
    operation? o a b = some (op.eval a b) := by
  unfold binaryOp? at h
  split at h <;> cases h
  · simp [operation?, BinOp.eval, Int32.ofInt_add]
  · simp [operation?, BinOp.eval, Int32.ofInt_sub]
  · simp [operation?, BinOp.eval, Int32.ofInt_mul]
  · have hmin := tdiv_eq_two_pow_iff a b
    simp only [operation?, BinOp.eval, toInt_eq_zero, hmin, ofInt_tdiv_toInt, beq_iff_eq,
      Bool.and_eq_true, apply_ite some]
  · simp only [operation?, BinOp.eval, toInt_eq_zero, ofInt_tmod_toInt, beq_iff_eq, apply_ite some]
    split
    · rfl
    split
    · rename_i hb
      rw [hb, ← ofInt_tmod_toInt]
      have : a.toInt.tmod (-1 : Int32).toInt = 0 := by
        rw [show (-1 : Int32).toInt = -1 from rfl, Int.tmod_neg, Int.tmod_one]
      rw [this]
      rfl
    · rfl
  · rfl
  · rfl
  · rfl
  · simp [operation?, BinOp.eval, truth, ofBool, Int32.toInt_inj]
  · simp [operation?, BinOp.eval, truth, ofBool, Int32.toInt_inj]
  · simp [operation?, BinOp.eval, truth, ofBool, Int32.lt_iff_toInt_lt]
  · simp [operation?, BinOp.eval, truth, ofBool, Int32.lt_iff_toInt_lt]
  · simp [operation?, BinOp.eval, truth, ofBool, Int32.le_iff_toInt_le]
  · simp [operation?, BinOp.eval, truth, ofBool, Int32.le_iff_toInt_le]

end WatScript
