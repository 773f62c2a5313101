import WatScript.Proofs.StepLimit

/-!
# Runs on a used instance

A run finds the cells that earlier runs left above its empty stack. It never reads one of them before it
has written it: a branch moves the top of the stack no higher than where it stood when its frame was
entered, so every cell that it uncovers was written in this run (`State.Covered`). Hence a run does the
same whatever cells lie above those it has written (`Machine.runFor_within`).
-/

namespace WatScript

open List Machine

/-! ## Stacks with more cells above -/

/-- The second stack has the values and the cells of the first, and maybe more cells above. -/
structure Stack.Within (a b : Stack) : Prop where
  live : b.live = a.live
  stale : a.stale <+: b.stale

/-- What operations make of two such stacks: again such stacks, with no fewer cells than before. -/
structure Stack.Follows (a a' b' : Stack) : Prop where
  within : a'.Within b'
  grows : a.cells.length ≤ a'.cells.length

namespace Stack
variable {a b a' b' a'' b'' : Stack}

theorem length_cells (a : Stack) : a.cells.length = a.live.length + a.stale.length := by
  simp [cells]

theorem cells_lower (n : Nat) (a : Stack) : (lower n a).cells = a.cells := by
  fun_induction lower n a with
  | case1 n v live stale ih => simpa [cells] using ih
  | case2 => rfl

theorem cells_raise (n : Nat) (a : Stack) : (raise n a).cells = a.cells := by
  fun_induction raise n a with
  | case1 n live v stale ih => simpa [cells] using ih
  | case2 => rfl

theorem Follows.trans (h : a.Follows a' b') (h' : a'.Follows a'' b'') : a.Follows a'' b'' :=
  ⟨h'.within, Nat.le_trans h.grows h'.grows⟩

namespace Within
variable (h : a.Within b)
include h

theorem follows : a.Follows a b := ⟨h, Nat.le_refl _⟩

theorem height_eq : b.height = a.height := congrArg List.length h.live

theorem push (v : Int32) : a.Follows (a.push v) (b.push v) := by
  obtain ⟨extra, hextra⟩ := h.stale
  refine ⟨⟨congrArg (v :: ·) h.live, ?_⟩, ?_⟩
  · show a.stale.tail <+: b.stale.tail
    rw [← hextra]
    cases a.stale with
    | nil => exact nil_prefix
    | cons c stale => exact prefix_append stale extra
  · simp only [length_cells, Stack.push, length_cons, length_tail]
    omega

theorem pushAll (vs : List Int32) : a.Follows (a.pushAll vs) (b.pushAll vs) := by
  induction vs generalizing a b with
  | nil => exact h.follows
  | cons v vs ih => exact (h.push v).trans (ih (h.push v).within)

theorem pop : (∃ t, a.pop = .error t ∧ b.pop = .error t) ∨
    ∃ v a' b', a.pop = .ok (v, a') ∧ b.pop = .ok (v, b') ∧ a.Follows a' b' := by
  unfold Stack.pop
  rw [h.live]
  cases hl : a.live with
  | nil => exact .inl ⟨_, rfl, rfl⟩
  | cons v live =>
    refine .inr ⟨v, _, _, rfl, rfl, ⟨rfl, (prefix_cons_inj v).2 h.stale⟩, ?_⟩
    simp only [length_cells, hl, length_cons]
    omega

theorem pop2 : (∃ t, a.pop2 = .error t ∧ b.pop2 = .error t) ∨
    ∃ v w a' b', a.pop2 = .ok (v, w, a') ∧ b.pop2 = .ok (v, w, b') ∧ a.Follows a' b' := by
  unfold Stack.pop2
  rcases h.pop with ⟨t, ha, hb⟩ | ⟨w, a₁, b₁, ha, hb, hf⟩ <;> rw [ha, hb]
  · exact .inl ⟨t, rfl, rfl⟩
  · rcases hf.within.pop with ⟨t, ha, hb⟩ | ⟨v, a₂, b₂, ha, hb, hf'⟩ <;>
      simp only [bind, Except.bind, ha, hb]
    · exact .inl ⟨t, rfl, rfl⟩
    · exact .inr ⟨v, w, a₂, b₂, rfl, rfl, hf.trans hf'⟩

theorem popMany (n : Nat) :
    (∃ t, a.popMany n = .error t ∧ b.popMany n = .error t) ∨
    ∃ vs a' b', a.popMany n = .ok (vs, a') ∧ b.popMany n = .ok (vs, b') ∧ a.Follows a' b' := by
  unfold Stack.popMany
  rw [h.height_eq, h.live]
  split
  · exact .inl ⟨_, rfl, rfl⟩
  · refine .inr ⟨_, _, _, rfl, rfl, ⟨rfl, (prefix_append_right_inj _).2 h.stale⟩, ?_⟩
    simp only [length_cells, length_append, length_drop, length_reverse,
      length_take]
    omega

theorem lower (n : Nat) : (a.lower n).Within (b.lower n) := by
  induction n generalizing a b with
  | zero => exact h
  | succ n ih =>
    obtain ⟨values, cells⟩ := a
    obtain ⟨values', cells'⟩ := b
    obtain rfl : values' = values := h.live
    cases values' with
    | nil => exact h
    | cons v values => exact ih ⟨rfl, (prefix_cons_inj v).2 h.stale⟩

theorem raise {n} (hn : n ≤ a.stale.length) : (a.raise n).Within (b.raise n) := by
  induction n generalizing a b with
  | zero => exact h
  | succ n ih =>
    obtain ⟨values, cells⟩ := a
    obtain ⟨values', cells'⟩ := b
    obtain rfl : values' = values := h.live
    obtain ⟨extra, rfl⟩ : cells <+: cells' := h.stale
    cases cells with
    | nil => exact absurd hn (Nat.not_succ_le_zero n)
    | cons v cells => exact ih ⟨rfl, prefix_append cells extra⟩ (Nat.le_of_succ_le_succ hn)

theorem setHeight {n} (hn : n ≤ a.cells.length) :
    a.Follows (a.setHeight n) (b.setHeight n) := by
  unfold Stack.setHeight
  rw [h.height_eq]
  split
  · exact ⟨h.lower _, Nat.le_of_eq (congrArg List.length (cells_lower _ a).symm)⟩
  · refine ⟨h.raise ?_, Nat.le_of_eq (congrArg List.length (cells_raise _ a).symm)⟩
    rw [length_cells] at hn
    unfold Stack.height
    omega

end Within

end Stack

/-! ## Steps -/

/-- Each entered frame was entered at a height up to which the stack has cells. -/
def State.Covered (s : State) : Prop := ∀ l ∈ s.labels, l.height ≤ s.stack.cells.length

/-- The states differ in their stacks only, and one stack lies within the other. -/
structure State.Within (s t : State) : Prop where
  rest : t = { s with stack := t.stack }
  stack : s.stack.Within t.stack
  covered : s.Covered

/-- The steps end alike, in such states. -/
inductive Step.Within : Step → Step → Prop
  | next {s t} : s.Within t → Step.Within (.next s) (.next t)
  | finished {s t} : s.Within t → Step.Within (.finished s) (.finished t)
  | trapped {s t trap} : s.Within t → Step.Within (.trapped s trap) (.trapped t trap)

section
variable {m : Machine} {s : State} {b a' b' : Stack}

theorem State.Covered.follows (h : s.Covered) (hf : s.stack.Follows a' b') :
    ∀ l ∈ s.labels, l.height ≤ a'.cells.length :=
  fun l hl => Nat.le_trans (h l hl) hf.grows

theorem Stack.height_le_cells (a : Stack) : a.height ≤ a.cells.length := by
  rw [Stack.length_cells]
  exact Nat.le_add_right _ _

variable (hb : s.stack.Within b) (hs : s.Covered)
include hb hs

theorem State.branch_within (target : Text) :
    Step.Within (s.branch target) ({ s with stack := b }.branch target) := by
  have hsame : s.Within { s with stack := b } := ⟨rfl, hb, hs⟩
  have hdistance : ({ s with stack := b } : State).branchDistance? target =
    s.branchDistance? target := rfl
  unfold State.branch
  rw [hdistance]
  cases s.branchDistance? target with
  | none => exact .trapped hsame
  | some n =>
    dsimp only
    cases hdrop : s.labels.drop n with
    | nil => exact .finished hsame
    | cons l outer =>
      have hmem : ∀ l' ∈ l :: outer, l' ∈ s.labels := fun l' hl =>
        mem_of_mem_drop (hdrop ▸ hl)
      -- the frame that is branched to was entered in this run
      have hset := hb.setHeight (hs l (hmem l mem_cons_self))
      have hcovered : ∀ l' ∈ l :: outer, l'.height ≤ _ :=
        fun l' hl => hs.follows hset l' (hmem l' hl)
      dsimp only
      split
      · exact .next ⟨rfl, hset.within, hcovered⟩
      · exact .next ⟨rfl, hset.within, fun l' hl => hcovered l' (mem_cons_of_mem _ hl)⟩

theorem Machine.enterFrame_within (isLoop : Bool) (name : Text) :
    Step.Within (m.enterFrame s isLoop name) (m.enterFrame { s with stack := b } isLoop name) := by
  unfold enterFrame
  dsimp only
  cases m.links.at? s.pc with
  | none => exact .trapped ⟨rfl, hb, hs⟩
  | some span =>
    rw [hb.height_eq]
    exact .next ⟨rfl, hb, forall_mem_cons.2 ⟨s.stack.height_le_cells, hs⟩⟩

theorem Machine.enterIf_within :
    Step.Within (m.enterIf s) (m.enterIf { s with stack := b }) := by
  unfold enterIf
  rcases hb.pop with ⟨t, ha, hb'⟩ | ⟨v, a', b', ha, hb', hf⟩ <;> simp only [ha, hb']
  · exact .trapped ⟨rfl, hb, hs⟩
  · cases m.links.at? s.pc with
    | none => exact .trapped ⟨rfl, hb, hs⟩
    | some span =>
      have hcovered := hs.follows hf
      have hentered : ∀ l ∈ ⟨false, [], s.pc, span.stop, a'.height⟩ :: s.labels,
        l.height ≤ a'.cells.length := forall_mem_cons.2 ⟨a'.height_le_cells, hcovered⟩
      dsimp only
      rw [hf.within.height_eq]
      split
      · exact .next ⟨rfl, hf.within, hentered⟩
      · cases span.alt with
        | some e => exact .next ⟨rfl, hf.within, hentered⟩
        | none => exact .next ⟨rfl, hf.within, hcovered⟩

theorem Machine.leaveArm_within :
    Step.Within (m.leaveArm s) (m.leaveArm { s with stack := b }) := by
  unfold leaveArm
  dsimp only
  cases m.links.at? s.pc with
  | none => exact .trapped ⟨rfl, hb, hs⟩
  | some span => exact .next ⟨rfl, hb, fun l hl => hs l (mem_of_mem_tail hl)⟩

theorem Machine.setLocal_within (imm : Text) (keep : Bool) :
    Step.Within (m.setLocal s imm keep) (m.setLocal { s with stack := b } imm keep) := by
  unfold setLocal
  cases m.slot? imm with
  | none => exact .trapped ⟨rfl, hb, hs⟩
  | some slot =>
    rcases hb.pop with ⟨t, ha, hb'⟩ | ⟨v, a', b', ha, hb', hf⟩ <;> simp only [ha, hb']
    · exact .trapped ⟨rfl, hb, hs⟩
    · cases keep with
      | false => exact .next ⟨rfl, hf.within, hs.follows hf⟩
      | true =>
        have hpush := hf.trans (hf.within.push v)
        exact .next ⟨rfl, hpush.within, hs.follows hpush⟩

theorem Machine.callHost_within (imm : Text) :
    Step.Within (m.callHost s imm) (m.callHost { s with stack := b } imm) := by
  unfold callHost
  cases (nameOf? imm).bind fun name => (m.callee? name).map (name, ·) with
  | none => exact .trapped ⟨rfl, hb, hs⟩
  | some callee =>
    obtain ⟨name, i, host⟩ := callee
    have hhistory : { s with stack := b }.history = s.history := rfl
    rcases hb.popMany i.params.toNat with ⟨t, ha, hb'⟩ | ⟨args, a', b', ha, hb', hf⟩ <;>
      simp only [ha, hb', hhistory]
    · exact .trapped ⟨rfl, hb, hs⟩
    · cases (host s.history args).results with
      | error d => exact .trapped ⟨rfl, hf.within, hs.follows hf⟩
      | ok results =>
        have hpush := hf.trans (hf.within.pushAll results)
        dsimp only
        split
        · exact .trapped ⟨rfl, hf.within, hs.follows hf⟩
        · exact .next ⟨rfl, hpush.within, hs.follows hpush⟩

theorem Machine.exec_within (m : Machine) (i : Instr) :
    Step.Within (m.exec s i) (m.exec { s with stack := b } i) := by
  obtain ⟨op, imm⟩ := i
  have hsame : s.Within { s with stack := b } := ⟨rfl, hb, hs⟩
  have hpop := hb.pop
  have hpop2 := hb.pop2
  -- what is popped is the same, for all cells above the live ones are out of reach
  cases op with
  | nop => exact .next ⟨rfl, hb, hs⟩
  | unreachable | unlisted => exact .trapped hsame
  | block | loop => exact enterFrame_within hb hs _ imm
  | ifThen => exact enterIf_within hb hs
  | elseArm => exact leaveArm_within hb hs
  | endFrame => exact .next ⟨rfl, hb, fun l hl => hs l (mem_of_mem_tail hl)⟩
  | br => exact State.branch_within hb hs imm
  | ret => exact .finished hsame
  | call => exact callHost_within hb hs imm
  | localSet | localTee => exact setLocal_within hb hs imm _
  | brIf =>
    simp only [exec]
    rcases hpop with ⟨t, ha, hb'⟩ | ⟨v, a', b', ha, hb', hf⟩ <;> simp only [ha, hb']
    · exact .trapped hsame
    · split
      · exact .next ⟨rfl, hf.within, hs.follows hf⟩
      · exact State.branch_within (s := { s with stack := a' }) hf.within (hs.follows hf) imm
  | drop =>
    simp only [exec]
    rcases hpop with ⟨t, ha, hb'⟩ | ⟨v, a', b', ha, hb', hf⟩ <;> simp only [ha, hb']
    · exact .trapped hsame
    · exact .next ⟨rfl, hf.within, hs.follows hf⟩
  | localGet =>
    simp only [exec]
    cases m.slot? imm with
    | none => exact .trapped hsame
    | some slot =>
      have hpush := hb.push (s.locals.getD slot 0)
      exact .next ⟨rfl, hpush.within, hs.follows hpush⟩
  | const =>
    simp only [exec]
    cases Numeral.int32? imm.toChars with
    | none => exact .trapped hsame
    | some v =>
      have hpush := hb.push v
      exact .next ⟨rfl, hpush.within, hs.follows hpush⟩
  | eqz =>
    simp only [exec]
    rcases hpop with ⟨t, ha, hb'⟩ | ⟨v, a', b', ha, hb', hf⟩ <;> simp only [ha, hb']
    · exact .trapped hsame
    · have hpush := hf.trans (hf.within.push (ofBool (v == 0)))
      exact .next ⟨rfl, hpush.within, hs.follows hpush⟩
  | load =>
    simp only [exec]
    rcases hpop with ⟨t, ha, hb'⟩ | ⟨addr, a', b', ha, hb', hf⟩ <;> simp only [ha, hb']
    · exact .trapped hsame
    · cases s.memory.load addr with
      | error t => exact .trapped ⟨rfl, hf.within, hs.follows hf⟩
      | ok v =>
        have hpush := hf.trans (hf.within.push v)
        exact .next ⟨rfl, hpush.within, hs.follows hpush⟩
  | store =>
    simp only [exec]
    rcases hpop2 with ⟨t, ha, hb'⟩ | ⟨addr, v, a', b', ha, hb', hf⟩ <;> simp only [ha, hb']
    · exact .trapped hsame
    · cases s.memory.store addr v with
      | error t => exact .trapped ⟨rfl, hf.within, hs.follows hf⟩
      | ok memory => exact .next ⟨rfl, hf.within, hs.follows hf⟩
  | binary op =>
    simp only [exec]
    rcases hpop2 with ⟨t, ha, hb'⟩ | ⟨v, w, a', b', ha, hb', hf⟩ <;> simp only [ha, hb']
    · exact .trapped hsame
    · cases op.eval v w with
      | error t => exact .trapped ⟨rfl, hf.within, hs.follows hf⟩
      | ok u =>
        have hpush := hf.trans (hf.within.push u)
        exact .next ⟨rfl, hpush.within, hs.follows hpush⟩

end

/-! ## Runs -/

section
variable {m : Machine} {s t : State}

theorem Machine.step_within (h : s.Within t) (i : Instr) :
    Step.Within (m.step s i) (m.step t i) := by
  obtain ⟨hrest, hb, hs⟩ := h
  rw [hrest]
  unfold step
  dsimp only
  split
  · exact .trapped ⟨rfl, hb, hs⟩
  · exact exec_within (s := { s with steps := s.steps + 1 }) hb hs m i

/-- Runs from such states end alike. -/
theorem Machine.runFor_within (h : s.Within t) (fuel : Nat) :
    (m.runFor fuel s).1.Within (m.runFor fuel t).1 ∧ (m.runFor fuel t).2 = (m.runFor fuel s).2 := by
  induction fuel generalizing s t with
  | zero =>
    have hpc : t.pc = s.pc := by rw [h.rest]
    cases hi : m.code[s.pc]? with
    | none =>
      rw [runFor_off hi, runFor_off (hpc ▸ hi)]
      exact ⟨h, rfl⟩
    | some i =>
      rw [runFor_cut hi, runFor_cut (hpc ▸ hi)]
      exact ⟨h, rfl⟩
  | succ fuel ih =>
    have hpc : t.pc = s.pc := by rw [h.rest]
    cases hi : m.code[s.pc]? with
    | none =>
      rw [runFor_off hi, runFor_off (hpc ▸ hi)]
      exact ⟨h, rfl⟩
    | some i =>
      have hstep := m.step_within h i
      rw [runFor_step hi, runFor_step (hpc ▸ hi)]
      generalize m.step s i = r at hstep ⊢
      generalize m.step t i = r' at hstep ⊢
      cases hstep with
      | next h => exact ih h
      | finished h | trapped h => exact ⟨h, rfl⟩

end

/-! ## Instances -/

/-- The instance after runs: runs that ended or were refused, and runs that found themselves canceled
from outside when they counted the next step. -/
inductive Instance.Reused (x : Instance) : Instance → Prop
  | fresh : x.Reused x
  | run {y} (canceled : Bool) (args : List Int32) : x.Reused y → x.Reused (y.run canceled args).1
  | stopped {y args n s} : x.Reused y →
      y.machine.Steps n (y.initialState args) s → x.Reused (y.keep { s with steps := s.steps + 1 })

section
variable {x y : Instance} {args : List Int32} {n : Nat} {s t : State}

theorem Machine.Steps.memory_size {m : Machine} (h : m.Steps n s t) :
    t.memory.size = s.memory.size := by
  induction h with
  | refl => rfl
  | @head _ s _ _ i _ hs _ ih =>
    have hsize := (m.step_frame s i).2
    rw [hs] at hsize
    exact ih.trans hsize

theorem Machine.runFor_memory_size (m : Machine) (fuel : Nat) (s : State) :
    (m.runFor fuel s).1.memory.size = s.memory.size :=
  runFor_keeps (P := fun t => t.memory.size = s.memory.size)
    (fun t i ht => (m.step_frame t i).2.trans ht) rfl fuel

theorem Memory.size_reset (memory : Memory) : memory.reset.size = memory.size := by
  simp [Memory.reset, Memory.size]

theorem Memory.reset_eq {memory memory' : Memory} (h : memory'.size = memory.size) :
    memory'.reset = memory.reset := by
  unfold Memory.reset
  rw [h]

theorem Instance.run_left (x : Instance) (canceled : Bool) (args : List Int32) :
    (x.run canceled args).1 = x ∨
      (x.run canceled args).1 = x.keep (x.machine.runFor x.machine.limit (x.initialState args)).1 := by
  unfold Instance.run
  split
  · exact .inl rfl
  · split
    · exact .inl rfl
    · exact .inr rfl

theorem Instance.Reused.same (h : x.Reused y) :
    y.machine = x.machine ∧ y.memory.size = x.memory.size := by
  induction h with
  | fresh => exact ⟨rfl, rfl⟩
  | @run y canceled args _ ih =>
    rcases y.run_left canceled args with hleft | hleft
    · rwa [hleft]
    · rw [hleft]
      refine ⟨ih.1, ?_⟩
      calc (y.machine.runFor _ (y.initialState args)).1.memory.size
          = y.memory.reset.size := y.machine.runFor_memory_size _ _
        _ = x.memory.size := (Memory.size_reset _).trans ih.2
  | stopped _ hsteps ih => exact ⟨ih.1, (hsteps.memory_size.trans (Memory.size_reset _)).trans ih.2⟩

theorem Instance.Reused.initialState_within (h : x.Reused y) (hcells : x.cells = [])
    (args : List Int32) : (x.initialState args).Within (y.initialState args) := by
  obtain ⟨hmachine, hsize⟩ := h.same
  refine ⟨?_, ⟨rfl, ?_⟩, ?_⟩
  · simp only [Instance.initialState, hmachine, Memory.reset_eq hsize]
  · simp only [Instance.initialState, hcells]
    exact nil_prefix
  · simp only [State.Covered, Instance.initialState]
    exact fun l hl => absurd hl not_mem_nil

theorem State.Within.outcome_eq (h : s.Within t) (hmachine : y.machine = x.machine)
    (ending : Ending) : y.outcome t ending = x.outcome s ending := by
  cases ending with
  | trapped => rfl
  | finished =>
    unfold Instance.outcome Instance.resultOf
    rw [hmachine]
    have hpop : t.stack.pop.map (·.1) = s.stack.pop.map (·.1) := by
      rcases h.stack.pop with ⟨trap, hs, ht⟩ | ⟨v, a', b', hs, ht, -⟩
      · rw [hs, ht]
      · rw [hs, ht]
        rfl
    rw [hpop]

end

/-- Runs do not remember earlier runs. A run that is not refused gives on a used instance the result, the
host calls, the log, the steps and the memory that it gives on the instance as it was created. -/
theorem runs_forget_earlier_runs {m : Module} {hosts : List (String × Host)} {limit : Nat}
    {maxPages : Int} {x y : Instance} {args : List Int32}
    (hx : Instance.create m hosts limit maxPages = .ok x) (hy : x.Reused y)
    (hargs : args.length = m.params.length) :
    (y.run false args).2 = (x.run false args).2 ∧
    (y.run false args).1.steps = (x.run false args).1.steps ∧
    (y.run false args).1.memory = (x.run false args).1.memory := by
  obtain ⟨hmodule, -, -, hcells⟩ := Instance.create_parts hx
  have hmachine := hy.same.1
  obtain ⟨hwithin, hending⟩ := Machine.runFor_within (m := x.machine)
    (hy.initialState_within hcells args) x.machine.limit
  rcases hs : x.machine.runFor x.machine.limit (x.initialState args) with ⟨s, ending⟩
  rcases ht : x.machine.runFor x.machine.limit (y.initialState args) with ⟨t, ending'⟩
  rw [hs, ht] at hwithin hending
  obtain rfl : ending' = ending := hending
  have hrest : t = { s with stack := t.stack } := hwithin.rest
  rw [Instance.run_of_runFor (hmodule ▸ hargs) hs,
    Instance.run_of_runFor (hmachine ▸ hmodule ▸ hargs) (hmachine ▸ ht)]
  rw [hwithin.outcome_eq hmachine, hrest]
  exact ⟨rfl, rfl, rfl⟩

/-- The branch finds the stack lower than where its frame was entered, and uncovers the first argument
again: that of this run, not the sum that an earlier run left there. -/
theorem runs_forget_earlier_runs_raised :
    ∃ x y, Instance.create (Module.trial [.localGet "a", ⟨.block, Instr.ident "B"⟩,
        Instr.plain .drop, ⟨.br, Instr.ident "B"⟩, Instr.plain .endFrame, .localGet "b",
        Instr.plain (.binary .add)]) [] 0 0 = .ok x ∧
      y = (x.run false [40, 50]).1 ∧ x.cells = [] ∧ y.cells = [90, 50] ∧
      (x.run false [7, 8]).2.result = .ok 15 ∧
      (y.run false [7, 8]).2 = (x.run false [7, 8]).2 ∧
      (y.run false [7, 8]).1.steps = (x.run false [7, 8]).1.steps := by
  obtain ⟨m, hm⟩ : ∃ m, m = Module.trial [.localGet "a", ⟨.block, Instr.ident "B"⟩,
    Instr.plain .drop, ⟨.br, Instr.ident "B"⟩, Instr.plain .endFrame, .localGet "b",
    Instr.plain (.binary .add)] := ⟨_, rfl⟩
  rw [← hm]
  have hruns : ((Instance.create m [] 0 0).map fun x =>
      decide (x.cells = [] ∧ (x.run false [40, 50]).1.cells = [90, 50] ∧
        (x.run false [7, 8]).2.result = .ok 15)).toOption = some true := by
    rw [hm]
    decide +kernel
  obtain ⟨x, hx, hruns⟩ := map_ok (toOption_ok hruns)
  obtain ⟨hfresh, hcells, hvalue⟩ := of_decide_eq_true hruns
  have hargs : [(7 : Int32), 8].length = m.params.length := by rw [hm]; rfl
  obtain ⟨hsame, hsteps, -⟩ := runs_forget_earlier_runs hx (.run false [40, 50] .fresh) hargs
  exact ⟨x, _, hx, rfl, hfresh, hcells, hvalue, hsame, hsteps⟩

end WatScript
