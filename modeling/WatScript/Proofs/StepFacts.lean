import WatScript.Machine.Run

/-!
# What every instruction keeps to

An instruction traps only for a reason of its own (`Machine.Raises`): only a branch misses a label, which
is then not there, and no instruction ends at the step limit. No instruction counts steps or resizes the
memory. Both hold in whatever state it is executed (`Machine.exec_keeps`).
-/

namespace WatScript

open Machine

/-! ## Traps of single operations -/

section
variable {t : Trap}

theorem Stack.pop_error {st : Stack} (h : st.pop = .error t) : t = .stackUnderflow := by
  unfold Stack.pop at h
  split at h <;> cases h
  rfl

theorem Stack.pop2_error {st : Stack} (h : st.pop2 = .error t) : t = .stackUnderflow := by
  unfold Stack.pop2 at h
  cases hb : st.pop with
  | error t' =>
    rw [hb] at h
    cases h
    exact Stack.pop_error hb
  | ok x =>
    rw [hb] at h
    cases ha : x.2.pop with
    | error t' =>
      simp only [bind, Except.bind, ha] at h
      cases h
      exact Stack.pop_error ha
    | ok y =>
      simp only [bind, Except.bind, ha] at h
      cases h

theorem Stack.popMany_error {st : Stack} {n : Nat} (h : st.popMany n = .error t) :
    t = .stackUnderflow := by
  unfold Stack.popMany at h
  split at h <;> cases h
  rfl

theorem Memory.load_error {m : Memory} {addr : Int32} (h : m.load addr = .error t) :
    t = .invalidAddress := by
  simp only [Memory.load] at h
  split at h <;> cases h
  rfl

theorem Memory.store_error {m : Memory} {addr v : Int32} (h : m.store addr v = .error t) :
    t = .invalidAddress := by
  simp only [Memory.store] at h
  split at h <;> cases h
  rfl

theorem Memory.size_store {m m' : Memory} {addr v : Int32} (h : m.store addr v = .ok m') :
    m'.size = m.size := by
  simp only [Memory.store] at h
  split at h <;> cases h
  simp [Memory.size, Memory.putWord]

theorem BinOp.eval_error {op : BinOp} {a b : Int32} (h : op.eval a b = .error t) :
    t = .divisionByZero ∨ t = .overflow := by
  cases op with
  | div =>
    simp only [BinOp.eval] at h
    split at h
    · cases h
      exact .inl rfl
    · split at h <;> cases h
      exact .inr rfl
  | rem =>
    simp only [BinOp.eval] at h
    split at h
    · cases h
      exact .inl rfl
    · split at h <;> cases h
  | _ => cases h

end

/-! ## Instructions -/

/-- The instruction pops operands. -/
def Op.pops : Op → Bool
  | .ifThen | .brIf | .call | .drop | .localSet | .localTee | .load | .store | .eqz | .binary _ => true
  | _ => false

/-- The instruction branches to a label. -/
def Op.branches (op : Op) : Bool := op == .br || op == .brIf

/-- The instruction names a local. -/
def Op.namesLocal (op : Op) : Bool := op == .localGet || op == .localSet || op == .localTee

/-- What the state has to lack for an instruction to end in a trap. -/
def Machine.Raises (m : Machine) (s : State) (i : Instr) : Trap → Prop
  | .stackUnderflow => i.op.pops = true
  | .unreachable => i.op = .unreachable
  | .unknownLabel => i.op.branches = true ∧ s.branchDistance? i.imm = none
  | .malformed => (i.op.opensFrame = true ∨ i.op = .elseArm) ∧ m.links.at? s.pc = none ∨
      i.op = .const ∧ Numeral.int32? i.imm.toChars = none
  | .unknownFunction => i.op = .call ∧ (nameOf? i.imm).bind m.callee? = none
  | .hostResults | .host _ => i.op = .call
  | .unknownLocal => i.op.namesLocal = true ∧ m.slot? i.imm = none
  | .invalidAddress => i.op = .load ∨ i.op = .store
  | .divisionByZero | .overflow => ∃ op, i.op = .binary op
  | .unknownInstruction => ∃ code, i.op = .unlisted code
  | .stepLimit | .argumentCount | .outOfMemory | .canceled => False

/-- The state that a step ends in. -/
def Step.state : Step → State
  | .next s | .finished s | .trapped s _ => s

/-- What no instruction changes. -/
structure State.Frame (s s' : State) : Prop where
  steps : s'.steps = s.steps
  size : s'.memory.size = s.memory.size

/-- The step of an instruction keeps the frame of a state, and a trap of it has its reason. -/
structure Machine.Keeps (m : Machine) (s : State) (i : Instr) (r : Step) : Prop where
  frame : s.Frame r.state
  raises : ∀ s' t, r = .trapped s' t → m.Raises s i t

section
variable {m : Machine} {s s' : State} {i : Instr} {imm : Text} {t : Trap}

theorem Machine.keeps_next (h : s.Frame s') : m.Keeps s i (.next s') := ⟨h, nofun⟩

theorem Machine.keeps_finished (h : s.Frame s') : m.Keeps s i (.finished s') := ⟨h, nofun⟩

theorem Machine.keeps_trapped (h : s.Frame s') (ht : m.Raises s i t) :
    m.Keeps s i (.trapped s' t) :=
  ⟨h, by rintro _ _ ⟨⟩; exact ht⟩

theorem Machine.keeps_underflow (ht : t = .stackUnderflow) (hi : i.op.pops = true) :
    m.Keeps s i (.trapped s t) := by
  subst ht
  exact keeps_trapped ⟨rfl, rfl⟩ hi

theorem State.branch_keeps {u} (h : s.Frame u) (hl : u.labels = s.labels)
    (hi : i.op.branches = true) : m.Keeps s i (u.branch i.imm) := by
  have hdistance : u.branchDistance? i.imm = s.branchDistance? i.imm := by
    simp only [State.branchDistance?, hl]
  unfold State.branch
  split
  · next hnone => exact keeps_trapped h ⟨hi, hdistance ▸ hnone⟩
  · split
    · exact keeps_finished h
    · dsimp only
      split
      · exact keeps_next ⟨h.steps, h.size⟩
      · exact keeps_next ⟨h.steps, h.size⟩

theorem Machine.enterFrame_keeps (hi : i.op.opensFrame = true) (isLoop : Bool) (name : Text) :
    m.Keeps s i (m.enterFrame s isLoop name) := by
  unfold enterFrame
  split
  · next hnone => exact keeps_trapped ⟨rfl, rfl⟩ (.inl ⟨.inl hi, hnone⟩)
  · exact keeps_next ⟨rfl, rfl⟩

theorem Machine.enterIf_keeps : m.Keeps s ⟨.ifThen, imm⟩ (m.enterIf s) := by
  unfold enterIf
  split
  · next hpop => exact keeps_underflow (Stack.pop_error hpop) rfl
  · split
    · next hnone => exact keeps_trapped ⟨rfl, rfl⟩ (.inl ⟨.inl rfl, hnone⟩)
    · dsimp only
      split
      · exact keeps_next ⟨rfl, rfl⟩
      · split <;> exact keeps_next ⟨rfl, rfl⟩

theorem Machine.leaveArm_keeps : m.Keeps s ⟨.elseArm, imm⟩ (m.leaveArm s) := by
  unfold leaveArm
  split
  · next hnone => exact keeps_trapped ⟨rfl, rfl⟩ (.inl ⟨.inr rfl, hnone⟩)
  · exact keeps_next ⟨rfl, rfl⟩

theorem Machine.setLocal_keeps (hlocal : i.op.namesLocal = true) (hpops : i.op.pops = true)
    (keep : Bool) : m.Keeps s i (m.setLocal s i.imm keep) := by
  unfold setLocal
  split
  · next hnone => exact keeps_trapped ⟨rfl, rfl⟩ ⟨hlocal, hnone⟩
  · split
    · next hpop => exact keeps_underflow (Stack.pop_error hpop) hpops
    · exact keeps_next ⟨rfl, rfl⟩

theorem Machine.callHost_keeps : m.Keeps s ⟨.call, imm⟩ (m.callHost s imm) := by
  unfold callHost
  split
  · next hnone =>
    refine keeps_trapped ⟨rfl, rfl⟩ ⟨rfl, ?_⟩
    cases hname : nameOf? imm with
    | none => rfl
    | some name => simpa [hname] using hnone
  · split
    · next hpop => exact keeps_underflow (Stack.popMany_error hpop) rfl
    · dsimp only
      split
      · exact keeps_trapped ⟨rfl, rfl⟩ rfl
      · split
        · exact keeps_trapped ⟨rfl, rfl⟩ rfl
        · exact keeps_next ⟨rfl, rfl⟩

/-- Whatever the state, an instruction keeps its frame and traps only with a reason. -/
theorem Machine.exec_keeps (m : Machine) (s : State) (i : Instr) : m.Keeps s i (m.exec s i) := by
  obtain ⟨op, imm⟩ := i
  have hsame : s.Frame s := ⟨rfl, rfl⟩
  cases op with
  | nop => exact keeps_next ⟨rfl, rfl⟩
  | unreachable => exact keeps_trapped hsame rfl
  | unlisted code => exact keeps_trapped hsame ⟨code, rfl⟩
  | block | loop => exact enterFrame_keeps rfl _ imm
  | ifThen => exact enterIf_keeps
  | elseArm => exact leaveArm_keeps
  | endFrame => exact keeps_next ⟨rfl, rfl⟩
  | br => exact State.branch_keeps hsame rfl rfl
  | brIf =>
    simp only [exec]
    split
    · next hpop => exact keeps_underflow (Stack.pop_error hpop) rfl
    · split
      · exact keeps_next ⟨rfl, rfl⟩
      · refine State.branch_keeps (i := ⟨.brIf, imm⟩) ⟨?_, ?_⟩ ?_ rfl <;> rfl
  | ret => exact keeps_finished hsame
  | call => exact callHost_keeps
  | localSet | localTee => exact setLocal_keeps rfl rfl _
  | localGet =>
    simp only [exec]
    split
    · next hnone => exact keeps_trapped hsame ⟨rfl, hnone⟩
    · exact keeps_next ⟨rfl, rfl⟩
  | const =>
    simp only [exec]
    split
    · next hnone => exact keeps_trapped hsame (.inr ⟨rfl, hnone⟩)
    · exact keeps_next ⟨rfl, rfl⟩
  | drop | eqz =>
    simp only [exec]
    split
    · next hpop => exact keeps_underflow (Stack.pop_error hpop) rfl
    · exact keeps_next ⟨rfl, rfl⟩
  | load =>
    simp only [exec]
    split
    · next hpop => exact keeps_underflow (Stack.pop_error hpop) rfl
    · split
      · next hload =>
        cases Memory.load_error hload
        exact keeps_trapped ⟨rfl, rfl⟩ (.inl rfl)
      · exact keeps_next ⟨rfl, rfl⟩
  | store =>
    simp only [exec]
    split
    · next hpop => exact keeps_underflow (Stack.pop2_error hpop) rfl
    · split
      · next hstore =>
        cases Memory.store_error hstore
        exact keeps_trapped ⟨rfl, rfl⟩ (.inr rfl)
      · next hstore => exact keeps_next ⟨rfl, Memory.size_store hstore⟩
  | binary op =>
    simp only [exec]
    split
    · next hpop => exact keeps_underflow (Stack.pop2_error hpop) rfl
    · split
      · next heval =>
        rcases BinOp.eval_error heval with rfl | rfl <;>
          exact keeps_trapped ⟨rfl, rfl⟩ ⟨op, rfl⟩
      · exact keeps_next ⟨rfl, rfl⟩

theorem Machine.step_frame (m : Machine) (s : State) (i : Instr) :
    (m.step s i).state.steps = s.steps + 1 ∧ (m.step s i).state.memory.size = s.memory.size := by
  unfold step
  dsimp only
  split
  · exact ⟨rfl, rfl⟩
  · have h := (m.exec_keeps { s with steps := s.steps + 1 } i).frame
    exact ⟨h.steps, h.size⟩

theorem Machine.Raises.of_counted {n} (h : m.Raises { s with steps := n } i t) :
    m.Raises s i t := by
  cases t <;> exact h

theorem Machine.step_raises (h : m.step s i = .trapped s' t) : t = .canceled ∨ m.Raises s i t := by
  unfold step at h
  dsimp only at h
  split at h
  · cases h
    exact .inl rfl
  · exact .inr ((m.exec_keeps _ i).raises s' t h).of_counted

end

/-! ## Runs -/

section
variable {m : Machine} {s : State} {i : Instr}

theorem Machine.runFor_off (h : m.code[s.pc]? = none) (fuel : Nat) :
    m.runFor fuel s = (s, .finished) := by
  rw [runFor.eq_def]
  simp only [h]

theorem Machine.runFor_cut (hi : m.code[s.pc]? = some i) :
    m.runFor 0 s = (s, .trapped .stepLimit) := by
  rw [runFor.eq_def]
  simp only [hi]

theorem Machine.runFor_step (hi : m.code[s.pc]? = some i) (fuel : Nat) :
    m.runFor (fuel + 1) s = match m.step s i with
      | .next s => m.runFor fuel s
      | .finished s => (s, .finished)
      | .trapped s t => (s, .trapped t) := by
  have hrun := runFor.eq_def m (fuel + 1) s
  simp only [hi] at hrun
  exact hrun

theorem Machine.runFor_keeps {P : State → Prop} (hstep : ∀ s i, P s → P (m.step s i).state)
    (hs : P s) (fuel : Nat) : P (m.runFor fuel s).1 := by
  induction fuel generalizing s with
  | zero =>
    cases hi : m.code[s.pc]? with
    | none => rwa [runFor_off hi]
    | some i => rwa [runFor_cut hi]
  | succ fuel ih =>
    cases hi : m.code[s.pc]? with
    | none => rwa [runFor_off hi]
    | some i =>
      have hnext := hstep s i hs
      rw [runFor_step hi]
      cases hr : m.step s i with
      | next t =>
        rw [hr] at hnext
        exact ih hnext
      | finished t | trapped t trap =>
        rw [hr] at hnext
        exact hnext

theorem Machine.runFor_withLimit (m : Machine) (limit : Nat) : ∀ (fuel : Nat) (s : State),
    { m with limit }.runFor fuel s = m.runFor fuel s
  | 0, s => by
    rw [runFor, runFor]
  | fuel + 1, s => by
    rw [runFor, runFor]
    simp only [runFor_withLimit m limit fuel]
    rfl

end

end WatScript
