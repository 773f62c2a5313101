import WatScript.Machine.Step

/-!
# Running a function

A run starts with zeroed memory and locals and with empty stacks, and ends when the function falls off
its end or returns, or with a trap. The step limit bounds the number of instructions; cancellation is
noticed when the run starts and at every step whose number is a multiple of 1024.

An instance keeps what a run leaves: its memory and its number of steps, to be looked at, and the cells
of its value stack, which the next run finds above its empty stack. A run that is refused before it
starts leaves all of them as they were.
-/

namespace WatScript

/-- The number of steps between two looks at the cancellation. -/
def cancelInterval : Nat := 1024

def defaultStepLimit : Nat := 10000000

inductive Ending where
  | finished
  | trapped (t : Trap)
  deriving DecidableEq, Repr, Inhabited

namespace Machine

/-- Counts one step and looks at the cancellation, then executes the instruction. -/
def step (m : Machine) (s : State) (i : Instr) : Step :=
  let s := { s with steps := s.steps + 1 }
  if s.steps % cancelInterval == 0 && s.canceled then .trapped s .canceled else m.exec s i

def runFor (m : Machine) : Nat → State → State × Ending
  | fuel, s =>
    match m.code[s.pc]? with
    -- falling off the end takes no step, so the limit does not matter
    | none => (s, .finished)
    | some i =>
      match fuel with
      | 0 => (s, .trapped .stepLimit)
      | fuel + 1 =>
        match m.step s i with
        | .next s => m.runFor fuel s
        | .finished s => (s, .finished)
        | .trapped s t => (s, .trapped t)

end Machine

/-- What a finished or refused run shows besides its value: the host calls and the log, in order. -/
structure RunResult where
  result : Except Trap Int32
  calls : List HostCall
  logs : List Int32

/-- A machine with the memory, the step count and the stack cells that the last run left. -/
structure Instance where
  machine : Machine
  memory : Memory
  steps : Nat
  /-- The cells of the value stack that were written so far, lowest first. -/
  cells : List Int32

/-- The slots of parameters and locals: one for each name, in order of first occurrence. -/
def slotNames (names : List Text) : List Text :=
  names.foldl (fun slots n => if slots.contains n then slots else slots ++ [n]) []

namespace Instance

/-- Links a module and creates its memory. A limit of zero means the default. -/
def create (m : Module) (hosts : List (String × Host)) (limit : Nat) (maxPages : Int) :
    Except Trap Instance := do
  let links ← link m.body
  let memory ← Memory.create m.pages maxPages
  let slots := slotNames ((m.params ++ m.locals).map Instr.ident)
  let limit := if limit == 0 then defaultStepLimit else limit
  return ⟨⟨m, m.body.toArray, links, slots.toArray, hosts, limit⟩, memory, 0, []⟩

/-- The locals at the start: arguments by position, extra ones dropped, and zeros. -/
def initialLocals (slots : Nat) (args : List Int32) : Array Int32 :=
  ((args ++ List.replicate slots 0).take slots).toArray

def initialState (x : Instance) (args : List Int32) : State :=
  { pc := 0
    stack := ⟨[], x.cells⟩
    labels := []
    locals := initialLocals x.machine.slots.size args
    memory := x.memory.reset
    steps := 0
    canceled := false
    calls := []
    logs := [] }

/-- The value of a function that ended in a state: the top of the stack, or zero without a result. -/
def resultOf (x : Instance) (s : State) : Except Trap Int32 :=
  if x.machine.module.result then s.stack.pop.map (·.1) else .ok 0

def keep (x : Instance) (s : State) : Instance :=
  { x with memory := s.memory, steps := s.steps, cells := s.stack.cells }

def run (x : Instance) (canceled : Bool) (args : List Int32) : Instance × RunResult :=
  if canceled then (x, ⟨.error .canceled, [], []⟩)
  else if args.length != x.machine.module.params.length then (x, ⟨.error .argumentCount, [], []⟩)
  else
    let (s, ending) := x.machine.runFor x.machine.limit (x.initialState args)
    let result := match ending with
      | .finished => x.resultOf s
      | .trapped t => .error t
    (x.keep s, ⟨result, s.calls.reverse, s.logs.reverse⟩)

end Instance

end WatScript
