import WatScript.Machine.Host
import WatScript.Machine.Link
import WatScript.Machine.Memory
import WatScript.Machine.Stack
import WatScript.Text.Numeral
import WatScript.Wat.Module

/-!
# One step of the machine

A stack machine over 32 bit integers. It walks the flat instruction list with a stack of labels, one
for each frame that has been entered. A step either goes on, or finishes the function, or traps.
-/

namespace WatScript

structure Label where
  isLoop : Bool
  name : Text
  start : Nat
  stop : Nat
  height : Nat
  deriving DecidableEq, Repr, Inhabited

structure Machine where
  module : Module
  code : Array Instr
  links : Links
  slots : Array Text
  hosts : List (String × Host)
  limit : Nat

structure State where
  pc : Nat
  stack : Stack
  labels : List Label
  locals : Array Int32
  memory : Memory
  steps : Nat
  canceled : Bool
  calls : List HostCall
  logs : List Int32
  deriving Repr, Inhabited

inductive Step where
  | next (s : State)
  | finished (s : State)
  | trapped (s : State) (t : Trap)

def ofBool (b : Bool) : Int32 := if b then 1 else 0

def BinOp.eval (op : BinOp) (a b : Int32) : Except Trap Int32 :=
  match op with
  | .add => .ok (a + b)
  | .sub => .ok (a - b)
  | .mul => .ok (a * b)
  | .div =>
    if b == 0 then .error .divisionByZero
    else if a == Int32.minValue && b == -1 then .error .overflow
    else .ok (a / b)
  | .rem =>
    if b == 0 then .error .divisionByZero
    -- also for the least value, whose quotient would overflow
    else if b == -1 then .ok 0
    else .ok (a % b)
  | .and => .ok (a &&& b)
  | .or => .ok (a ||| b)
  | .xor => .ok (a ^^^ b)
  | .eq => .ok (ofBool (a == b))
  | .ne => .ok (ofBool (a != b))
  | .lt => .ok (ofBool (a < b))
  | .gt => .ok (ofBool (b < a))
  | .le => .ok (ofBool (a ≤ b))
  | .ge => .ok (ofBool (b ≤ a))

namespace State

def history (s : State) : History := ⟨s.calls, s.logs⟩

def advance (s : State) : State := { s with pc := s.pc + 1 }

def withStack (s : State) (stack : Stack) : State := { s with stack, pc := s.pc + 1 }

/-- How many labels a branch leaves behind to reach its target: a distance up to the number of labels,
or the innermost label of that name. -/
def branchDistance? (s : State) (target : Text) : Option Nat :=
  match Numeral.int64? target.toChars with
  -- one past the outermost label stands for the function itself
  | some n => if 0 ≤ n && n ≤ (s.labels.length : Int) then some n.toNat else none
  | none =>
    let i := s.labels.findIdx fun l => !l.name.isEmpty && l.name == target
    if i < s.labels.length then some i else none

/-- Branches to a target. A loop starts again, another frame is left, and a branch past all labels
finishes the function. -/
def branch (s : State) (target : Text) : Step :=
  match s.branchDistance? target with
  | none => .trapped s .unknownLabel
  | some n =>
    match s.labels.drop n with
    | [] => .finished s
    | l :: outer =>
      let stack := s.stack.setHeight l.height
      if l.isLoop then .next { s with stack, labels := l :: outer, pc := l.start + 1 }
      else .next { s with stack, labels := outer, pc := l.stop + 1 }

end State

namespace Machine

def slot? (m : Machine) (imm : Text) : Option Nat := m.slots.findIdx? (· == imm)

def callee? (m : Machine) (name : String) : Option (Import × Host) := do
  let i ← m.module.findImport? name
  let h ← m.hosts.lookup name
  return (i, h)

/-- The name behind a `$name` operand. No host has a name with a stray byte. -/
def nameOf? : Text → Option String
  | .char '$' :: name => Text.string? name
  | name => Text.string? name

def callHost (m : Machine) (s : State) (imm : Text) : Step :=
  match (nameOf? imm).bind fun name => (m.callee? name).map (name, ·) with
  | none => .trapped s .unknownFunction
  | some (name, i, host) =>
    match s.stack.popMany i.params.toNat with
    | .error t => .trapped s t
    | .ok (args, stack) =>
      -- the call is on record, and may cancel the run, even if the host fails
      let reply := host s.history args
      let s := { s with
        stack
        calls := ⟨name, args⟩ :: s.calls
        logs := reply.logs
        canceled := s.canceled || reply.cancels }
      match reply.results with
      | .error d => .trapped s (.host d)
      | .ok results =>
        if (results.length : Int) != i.results then .trapped s .hostResults
        else .next (s.withStack (stack.pushAll results))

def enterFrame (m : Machine) (s : State) (isLoop : Bool) (name : Text) : Step :=
  match m.links.at? s.pc with
  | none => .trapped s .malformed
  | some span =>
    let l : Label := ⟨isLoop, name, s.pc, span.stop, s.stack.height⟩
    .next { s with labels := l :: s.labels, pc := s.pc + 1 }

/-- Enters the arm of an if that its condition picks, or passes over it. -/
def enterIf (m : Machine) (s : State) : Step :=
  match s.stack.pop with
  | .error t => .trapped s t
  | .ok (cond, stack) =>
    match m.links.at? s.pc with
    | none => .trapped s .malformed
    | some span =>
      -- without a name: no branch finds it but by distance
      let l : Label := ⟨false, [], s.pc, span.stop, stack.height⟩
      if cond != 0 then .next { s with stack, labels := l :: s.labels, pc := s.pc + 1 }
      else
        match span.alt with
        | some e => .next { s with stack, labels := l :: s.labels, pc := e + 1 }
        | none => .next { s with stack, pc := span.stop + 1 }

def leaveArm (m : Machine) (s : State) : Step :=
  match m.links.at? s.pc with
  | none => .trapped s .malformed
  | some span => .next { s with labels := s.labels.tail, pc := span.stop + 1 }

def setLocal (m : Machine) (s : State) (imm : Text) (keep : Bool) : Step :=
  match m.slot? imm with
  | none => .trapped s .unknownLocal
  | some slot =>
    match s.stack.pop with
    | .error t => .trapped s t
    | .ok (v, stack) =>
      .next { s with
        locals := s.locals.setIfInBounds slot v
        stack := if keep then stack.push v else stack
        pc := s.pc + 1 }

def exec (m : Machine) (s : State) (i : Instr) : Step :=
  match i.op with
  | .nop => .next s.advance
  | .unreachable => .trapped s .unreachable
  | .block => m.enterFrame s false i.imm
  | .loop => m.enterFrame s true i.imm
  | .ifThen => m.enterIf s
  | .elseArm => m.leaveArm s
  | .endFrame => .next { s with labels := s.labels.tail, pc := s.pc + 1 }
  | .br => s.branch i.imm
  | .brIf =>
    match s.stack.pop with
    | .error t => .trapped s t
    | .ok (cond, stack) =>
      if cond == 0 then .next (s.withStack stack) else { s with stack }.branch i.imm
  | .ret => .finished s
  | .call => m.callHost s i.imm
  | .drop =>
    match s.stack.pop with
    | .error t => .trapped s t
    | .ok (_, stack) => .next (s.withStack stack)
  | .localGet =>
    match m.slot? i.imm with
    | none => .trapped s .unknownLocal
    | some slot => .next (s.withStack (s.stack.push (s.locals.getD slot 0)))
  | .localSet => m.setLocal s i.imm false
  | .localTee => m.setLocal s i.imm true
  | .load =>
    match s.stack.pop with
    | .error t => .trapped s t
    | .ok (addr, stack) =>
      match s.memory.load addr with
      | .error t => .trapped { s with stack } t
      | .ok v => .next (s.withStack (stack.push v))
  | .store =>
    match s.stack.pop2 with
    | .error t => .trapped s t
    | .ok (addr, v, stack) =>
      match s.memory.store addr v with
      | .error t => .trapped { s with stack } t
      | .ok memory => .next { s.withStack stack with memory }
  | .const =>
    match Numeral.int32? i.imm.toChars with
    | none => .trapped s .malformed
    | some v => .next (s.withStack (s.stack.push v))
  | .eqz =>
    match s.stack.pop with
    | .error t => .trapped s t
    | .ok (v, stack) => .next (s.withStack (stack.push (ofBool (v == 0))))
  | .binary op =>
    match s.stack.pop2 with
    | .error t => .trapped s t
    | .ok (a, b, stack) =>
      match op.eval a b with
      | .error t => .trapped { s with stack } t
      | .ok v => .next (s.withStack (stack.push v))
  | .unlisted _ => .trapped s .unknownInstruction

end Machine

end WatScript
