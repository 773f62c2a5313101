import Mathlib.Data.List.Induction
import WatScript.Proofs.Simulation
import WatScript.Proofs.StepFacts

/-!
# Where control comes from

`Machine.step_does` lists what a step can do. It goes on to the next instruction, or behind one that
belongs to a frame: to the body of a loop, behind the end of a frame, or behind an `else`
(`Machine.Stepped.target`). Entered frames come from the links of the body, so that holds in every state of
a run (`Framed`). Hence code without frames is entered only at its start: a run that stands somewhere in it
has just executed all of it from its start on (`Machine.Steps.through`).
-/

namespace WatScript

open List Machine

/-! ## Targets of links -/

/-- The instruction at `k` has the operation `op`. -/
def OpAt (body : List Instr) (k : Nat) (op : Op) : Prop := ∃ i, body[k]? = some i ∧ i.op = op

theorem OpAt.length {pre post i op} (h : i.op = op) : OpAt (pre ++ i :: post) pre.length op :=
  ⟨i, by simp, h⟩

theorem spansFrom_targets : ∀ {code} (pre : List Instr) {frames spans},
    spansFrom pre.length frames code = .ok spans →
    (∀ f ∈ frames, ∀ e ∈ f.alt, OpAt (pre ++ code) e .elseArm) → ∀ x ∈ spans,
    OpAt (pre ++ code) x.2.stop .endFrame ∧ ∀ e ∈ x.2.alt, OpAt (pre ++ code) e .elseArm
  | [], pre, frames, spans, h, _, x, hx => by
    cases frames with
    | cons f inner => cases h
    | nil =>
      cases h
      cases hx
  | i :: code, pre, frames, spans, h, hframes, x, hx => by
    have hpre : (pre ++ [i]).length = pre.length + 1 := by simp
    have hall : pre ++ i :: code = (pre ++ [i]) ++ code := by simp
    obtain ⟨-, hc⟩ | ⟨-, hc⟩ | ⟨start, outer, hop, rfl, hc⟩ | ⟨f, outer, later, hop, rfl, hc, rfl⟩ :=
      spansFrom_cases h
    · rw [← hpre] at hc
      rw [hall] at hframes ⊢
      exact spansFrom_targets _ hc hframes x hx
    · rw [← hpre] at hc
      rw [hall] at hframes ⊢
      exact spansFrom_targets _ hc (forall_mem_cons.2 ⟨(fun e he => nomatch he), hframes⟩) x hx
    · have helse : OpAt (pre ++ i :: code) pre.length .elseArm := .length hop
      rw [← hpre] at hc
      rw [hall] at hframes helse ⊢
      refine spansFrom_targets _ hc (forall_mem_cons.2 ⟨?_, ?_⟩) x hx
      · rintro e ⟨⟩
        exact helse
      · exact (forall_mem_cons.1 hframes).2
    · have hend : OpAt (pre ++ i :: code) pre.length .endFrame := .length hop
      obtain ⟨hf, houter⟩ := forall_mem_cons.1 hframes
      rcases mem_append.1 hx with hx | hx
      · rcases mem_cons.1 hx with rfl | hx
        · exact ⟨hend, hf⟩
        · obtain ⟨e, -, rfl⟩ := by simpa using hx
          exact ⟨hend, fun e he => nomatch he⟩
      · rw [← hpre] at hc
        rw [hall] at houter ⊢
        exact spansFrom_targets _ hc houter x hx

theorem link_targets {body links k span}
    (h : link body = .ok links) (hk : links.at? k = some span) :
    OpAt body span.stop .endFrame ∧ ∀ e ∈ span.alt, OpAt body e .elseArm := by
  obtain ⟨spans, hs, hmem⟩ := mem_spans_of_link h hk
  exact spansFrom_targets [] hs (fun f hf => nomatch hf) (k, span) hmem

/-! ## Moves of the machine -/

section
variable {m : Machine} {s s' : State} {i : Instr}

/-- The label of the frame that an instruction opens. That of an `if` has no name. -/
def Instr.label (i : Instr) (pc stop height : Nat) : Label :=
  ⟨i.op == .loop, if i.op == .ifThen then [] else i.imm, pc, stop, height⟩

/-- Where a step may lead, and what it does to the entered frames. -/
inductive Machine.Moves (m : Machine) (i : Instr) (s s' : State) : Prop
  | next : i.op.isFlat = true → s'.pc = s.pc + 1 → s'.labels = s.labels → Moves m i s s'
  | enter {span height} : i.op.opensFrame = true → m.links.at? s.pc = some span →
      s'.labels = i.label s.pc span.stop height :: s.labels →
      s'.pc = s.pc + 1 ∨ (∃ e ∈ span.alt, s'.pc = e + 1) → Moves m i s s'
  | pass {span} : i.op = .ifThen → m.links.at? s.pc = some span → s'.pc = span.stop + 1 →
      s'.labels = s.labels → Moves m i s s'
  | leaveArm {span} : i.op = .elseArm → m.links.at? s.pc = some span →
      s'.pc = span.stop + 1 → s'.labels = s.labels.tail → Moves m i s s'
  | leave : i.op = .endFrame → s'.pc = s.pc + 1 → s'.labels = s.labels.tail → Moves m i s s'
  | repeat {l n outer} : i.op.branches = true →
      s.labels.drop n = l :: outer → l.isLoop = true → s'.pc = l.start + 1 →
      s'.labels = l :: outer → Moves m i s s'
  | exit {l n outer} : i.op.branches = true →
      s.labels.drop n = l :: outer → s'.pc = l.stop + 1 → s'.labels = outer → Moves m i s s'

/-- What a step that goes on does to where the state stands; there are as many locals as before. -/
structure Machine.Stepped (m : Machine) (i : Instr) (s s' : State) : Prop where
  moves : m.Moves i s s'
  size : s'.locals.size = s.locals.size

/-- The calls on record are those of before, and one more at most behind a call. -/
def Instr.Adds (i : Instr) (s s' : State) : Prop :=
  s'.calls = s.calls ∨
    i.op = .call ∧ ∃ c, Machine.nameOf? i.imm = some c.name ∧ s'.calls = c :: s.calls

/-- What the execution of an instruction comes to. -/
inductive Machine.Does (m : Machine) (i : Instr) (s : State) : Step → Prop
  | next {s' : State} : m.Stepped i s s' → i.Adds s s' → Does m i s (.next s')
  | finished {s' : State} : s'.pc = s.pc → s'.calls = s.calls → Does m i s (.finished s')
  | trapped {s' : State} {t : Trap} : i.Adds s s' → Does m i s (.trapped s' t)

theorem State.branch_does {t : State} (hi : i.op.branches = true) (hpc : t.pc = s.pc)
    (hl : t.labels = s.labels) (hs : t.locals.size = s.locals.size) (hc : t.calls = s.calls)
    (target : Text) : m.Does i s (t.branch target) := by
  unfold State.branch
  split
  · exact .trapped (.inl hc)
  · split
    · exact .finished hpc hc
    · rename_i l outer hdrop
      rw [hl] at hdrop
      dsimp only
      split
      · exact .next ⟨.repeat hi hdrop ‹_› rfl rfl, hs⟩ (.inl hc)
      · exact .next ⟨.exit hi hdrop rfl rfl, hs⟩ (.inl hc)

theorem Machine.enterFrame_does {isLoop : Bool} {name : Text} (hi : i.op.opensFrame = true)
    (hl : ∀ pc stop height, ⟨isLoop, name, pc, stop, height⟩ = i.label pc stop height) :
    m.Does i s (m.enterFrame s isLoop name) := by
  unfold enterFrame
  split
  · exact .trapped (.inl rfl)
  · rename_i hspan
    exact .next ⟨.enter hi hspan (congrArg (· :: _) (hl ..)) (.inl rfl), rfl⟩ (.inl rfl)

theorem Machine.enterIf_does {imm : Text} : m.Does ⟨.ifThen, imm⟩ s (m.enterIf s) := by
  unfold enterIf
  split
  · exact .trapped (.inl rfl)
  · split
    · exact .trapped (.inl rfl)
    · rename_i span hspan
      dsimp only
      split
      · exact .next ⟨.enter rfl hspan rfl (.inl rfl), rfl⟩ (.inl rfl)
      · split
        · rename_i e halt
          exact .next ⟨.enter rfl hspan rfl (.inr ⟨e, halt, rfl⟩), rfl⟩ (.inl rfl)
        · exact .next ⟨.pass rfl hspan rfl rfl, rfl⟩ (.inl rfl)

theorem Machine.leaveArm_does {imm : Text} : m.Does ⟨.elseArm, imm⟩ s (m.leaveArm s) := by
  unfold Machine.leaveArm
  split
  · exact .trapped (.inl rfl)
  · rename_i hspan
    exact .next ⟨.leaveArm rfl hspan rfl rfl, rfl⟩ (.inl rfl)

theorem Machine.setLocal_does (hi : i.op.isFlat = true) (imm : Text) (keep : Bool) :
    m.Does i s (m.setLocal s imm keep) := by
  unfold setLocal
  split
  · exact .trapped (.inl rfl)
  · split
    · exact .trapped (.inl rfl)
    · exact .next ⟨.next hi rfl rfl, Array.size_setIfInBounds⟩ (.inl rfl)

theorem Machine.callHost_does {imm : Text} : m.Does ⟨.call, imm⟩ s (m.callHost s imm) := by
  unfold callHost
  split
  · exact .trapped (.inl rfl)
  · next name _ _ hcallee =>
    obtain ⟨_, hname, hcallee⟩ := Option.bind_eq_some_iff.1 hcallee
    obtain ⟨_, -, hsame⟩ := Option.map_eq_some_iff.1 hcallee
    have hname : nameOf? imm = some name := hname.trans (congrArg (some ·.1) hsame)
    split
    · exact .trapped (.inl rfl)
    · dsimp only
      split
      · exact .trapped (.inr ⟨rfl, _, hname, rfl⟩)
      · split
        · exact .trapped (.inr ⟨rfl, _, hname, rfl⟩)
        · exact .next ⟨.next rfl rfl rfl, rfl⟩ (.inr ⟨rfl, _, hname, rfl⟩)

theorem Machine.exec_does (m : Machine) (i : Instr) (s : State) : m.Does i s (m.exec s i) := by
  obtain ⟨op, imm⟩ := i
  cases op with
  | nop => exact .next ⟨.next rfl rfl rfl, rfl⟩ (.inl rfl)
  | block | loop => exact enterFrame_does rfl fun _ _ _ => rfl
  | ifThen => exact enterIf_does
  | elseArm => exact leaveArm_does
  | endFrame => exact .next ⟨.leave rfl rfl rfl, rfl⟩ (.inl rfl)
  | br => exact State.branch_does rfl rfl rfl rfl rfl imm
  | brIf =>
    simp only [exec]
    split
    · exact .trapped (.inl rfl)
    · split
      · exact .next ⟨.next rfl rfl rfl, rfl⟩ (.inl rfl)
      · refine State.branch_does ?_ ?_ ?_ ?_ ?_ imm <;> rfl
  | ret => exact .finished rfl rfl
  | call => exact callHost_does
  | localSet => exact setLocal_does rfl imm false
  | localTee => exact setLocal_does rfl imm true
  | localGet | drop | eqz | const =>
    simp only [exec]
    split
    · exact .trapped (.inl rfl)
    · exact .next ⟨.next rfl rfl rfl, rfl⟩ (.inl rfl)
  | load | store | binary =>
    simp only [exec]
    split
    · exact .trapped (.inl rfl)
    · split
      · exact .trapped (.inl rfl)
      · exact .next ⟨.next rfl rfl rfl, rfl⟩ (.inl rfl)
  | unreachable | unlisted => exact .trapped (.inl rfl)

theorem Machine.Moves.of_counted {n} (h : m.Moves i { s with steps := n } s') :
    m.Moves i s s' := by
  cases h with
  | next hi hpc hl => exact .next hi hpc hl
  | enter hi hspan hl hpc => exact .enter hi hspan hl hpc
  | pass hi hspan hpc hl => exact .pass hi hspan hpc hl
  | leaveArm hi hspan hpc hl => exact .leaveArm hi hspan hpc hl
  | leave hi hpc hl => exact .leave hi hpc hl
  | «repeat» hi hdrop hloop hpc hl => exact .repeat hi hdrop hloop hpc hl
  | exit hi hdrop hpc hl => exact .exit hi hdrop hpc hl

theorem Machine.Does.of_counted {n r} (h : m.Does i { s with steps := n } r) :
    m.Does i s r := by
  cases h with
  | next h hadds => exact .next ⟨h.moves.of_counted, h.size⟩ hadds
  | finished hpc hc => exact .finished hpc hc
  | trapped hadds => exact .trapped hadds

/-- What a step can do. -/
theorem Machine.step_does (m : Machine) (i : Instr) (s : State) : m.Does i s (m.step s i) := by
  unfold step
  dsimp only
  split
  · exact .trapped (.inl rfl)
  · exact (m.exec_does i _).of_counted

theorem Machine.step_stepped (h : m.step s i = .next s') : m.Stepped i s s' := by
  have hdoes := m.step_does i s
  rw [h] at hdoes
  cases hdoes with
  | next hstepped => exact hstepped

/-! ## Frames of a run -/

/-- Spans stop at ends, and their alternatives are `else`s. -/
def Machine.Matched (m : Machine) : Prop := ∀ k span, m.links.at? k = some span →
  OpAt m.code.toList span.stop .endFrame ∧ ∀ e ∈ span.alt, OpAt m.code.toList e .elseArm

/-- The entered frames are frames of the code. -/
def Framed (m : Machine) (s : State) : Prop := ∀ l ∈ s.labels,
  OpAt m.code.toList l.stop .endFrame ∧ (l.isLoop = true → OpAt m.code.toList l.start .loop)

theorem Machine.Stepped.framed (h : m.Stepped i s s') (hm : m.Matched) (hi : m.code[s.pc]? = some i)
    (hf : Framed m s) : Framed m s' := by
  have htail : ∀ l ∈ s.labels.tail, _ := fun l hl => hf l (mem_of_mem_tail hl)
  have hdropped {n : Nat} {l : Label} {outer : List Label} (hdrop : s.labels.drop n = l :: outer) :
      ∀ l' ∈ l :: outer, _ := fun l' hl => hf l' (mem_of_mem_drop (hdrop ▸ hl))
  unfold Framed
  cases h.moves with
  | next _ _ hl | pass _ _ _ hl =>
    rw [hl]
    exact hf
  | enter _ hspan hl _ =>
    rw [hl]
    refine forall_mem_cons.2 ⟨⟨(hm _ _ hspan).1, fun hloop => ?_⟩, hf⟩
    exact ⟨i, by simpa [Instr.label] using hi, eq_of_beq hloop⟩
  | leaveArm _ _ _ hl | leave _ _ hl =>
    rw [hl]
    exact htail
  | «repeat» _ hdrop _ _ hl =>
    rw [hl]
    exact hdropped hdrop
  | exit _ hdrop _ hl =>
    rw [hl]
    exact (forall_mem_cons.1 (hdropped hdrop)).2

/-- A step goes on to the next instruction, or behind one that belongs to a frame. -/
theorem Machine.Stepped.target (h : m.Stepped i s s') (hm : m.Matched) (hf : Framed m s) :
    s'.pc = s.pc + 1 ∨ ∃ k op, s'.pc = k + 1 ∧ OpAt m.code.toList k op ∧ op.isFlat = false := by
  have hlabel {n : Nat} {l : Label} {outer : List Label} (hdrop : s.labels.drop n = l :: outer) :=
    hf l (mem_of_mem_drop (hdrop ▸ mem_cons_self))
  cases h.moves with
  | next _ hpc _ | leave _ hpc _ => exact .inl hpc
  | enter _ hspan _ hpc =>
    rcases hpc with hpc | ⟨e, he, hpc⟩
    · exact .inl hpc
    · exact .inr ⟨e, _, hpc, (hm _ _ hspan).2 e he, rfl⟩
  | pass _ hspan hpc _ | leaveArm _ hspan hpc _ => exact .inr ⟨_, _, hpc, (hm _ _ hspan).1, rfl⟩
  | «repeat» _ hdrop hloop hpc _ => exact .inr ⟨_, _, hpc, (hlabel hdrop).2 hloop, rfl⟩
  | exit _ hdrop hpc _ => exact .inr ⟨_, _, hpc, (hlabel hdrop).1, rfl⟩

end

namespace Machine.Steps
variable {m : Machine} {n : Nat} {s₀ s s' : State}

theorem tail_inv (h : m.Steps (n + 1) s₀ s') : ∃ s i, m.Steps n s₀ s ∧ m.code[s.pc]? = some i ∧
    m.step s i = .next s' := by
  induction n generalizing s₀ with
  | zero =>
    cases h with
    | head hi hs h =>
      cases h
      exact ⟨s₀, _, .refl, hi, hs⟩
  | succ n ih =>
    cases h with
    | head hi hs h =>
      obtain ⟨t, j, hsteps, hj, hstep⟩ := ih h
      exact ⟨t, j, .head hi hs hsteps, hj, hstep⟩

theorem snoc {i} (h : m.Steps n s₀ s) (hi : m.code[s.pc]? = some i)
    (hs : m.step s i = .next s') : m.Steps (n + 1) s₀ s' :=
  h.trans (.head hi hs .refl)

theorem split {n'} (h : m.Steps (n + n') s₀ s') : ∃ s, m.Steps n s₀ s ∧ m.Steps n' s s' := by
  induction n generalizing s₀ with
  | zero => exact ⟨s₀, .refl, Nat.zero_add n' ▸ h⟩
  | succ n ih =>
    rw [Nat.add_right_comm] at h
    cases h with
    | head hi hs h =>
      obtain ⟨t, hleft, hright⟩ := ih h
      exact ⟨t, .head hi hs hleft, hright⟩

theorem framed (h : m.Steps n s₀ s) (hm : m.Matched) (hf : Framed m s₀) : Framed m s := by
  induction h with
  | refl => exact hf
  | head hi hs _ ih => exact ih ((step_stepped hs).framed hm hi hf)

theorem locals_size (h : m.Steps n s₀ s) : s.locals.size = s₀.locals.size := by
  induction h with
  | refl => rfl
  | head _ hs _ ih => exact ih.trans (step_stepped hs).size

theorem through {code pc} (hm : m.Matched) (hf : Framed m s₀)
    (hpc₀ : s₀.pc = 0) (hp : m.Placed pc code) (hflat : ∀ i ∈ code, i.op.isFlat = true)
    (h : m.Steps n s₀ s) (hpc : s.pc = pc + code.length) :
    ∃ n₁ s₁, m.Steps n₁ s₀ s₁ ∧ m.Steps code.length s₁ s ∧ s₁.pc = pc ∧ n = n₁ + code.length := by
  -- by induction on the code from its end: the instruction before was executed just before
  induction code using List.reverseRecOn generalizing n s with
  | nil => exact ⟨n, s, h, .refl, hpc, rfl⟩
  | append_singleton code i ih =>
    obtain ⟨hflat, hi⟩ := forall_mem_append.1 hflat
    have hi : i.op.isFlat = true := hi i (mem_singleton_self i)
    have hlast : m.code[pc + code.length]? = some i := hp.right.head
    rw [length_append, length_singleton, ← Nat.add_assoc] at hpc
    cases n with
    | zero =>
      cases h
      omega
    | succ n =>
      obtain ⟨t, j, hsteps, hj, hstep⟩ := h.tail_inv
      have hpct : t.pc = pc + code.length := by
        obtain hnext | ⟨k, op, hk, ⟨i', hi', rfl⟩, hop⟩ :=
          (step_stepped hstep).target hm (hsteps.framed hm hf)
        · omega
        · obtain rfl : k = pc + code.length := by omega
          rw [Array.getElem?_toList, hlast] at hi'
          cases hi'
          rw [hi] at hop
          cases hop
      obtain ⟨n₁, s₁, hbefore, hthrough, hpc₁, rfl⟩ := ih hp.left hflat hsteps hpct
      refine ⟨n₁, s₁, hbefore, ?_, hpc₁, ?_⟩
      · rw [length_append]
        exact hthrough.snoc hj hstep
      · rw [length_append, length_singleton, Nat.add_assoc]

end Machine.Steps

/-! ## The last step of a run -/

/-- How a run ends in a state: behind the last instruction, at the limit, or with a last step. -/
inductive Machine.Last (m : Machine) (s : State) : State → Ending → Prop
  | off : m.code[s.pc]? = none → m.Last s s .finished
  | limit : m.Last s s (.trapped .stepLimit)
  | finished {i s'} : m.code[s.pc]? = some i → m.step s i = .finished s' → m.Last s s' .finished
  | trapped {i s' t} : m.code[s.pc]? = some i →
      m.step s i = .trapped s' t → m.Last s s' (.trapped t)

theorem Machine.runFor_inv {m : Machine} {fuel : Nat} {s s' : State} {ending : Ending}
    (h : m.runFor fuel s = (s', ending)) : ∃ n t, m.Steps n s t ∧ m.Last t s' ending := by
  induction fuel generalizing s with
  | zero =>
    rw [runFor] at h
    split at h
    · next hnone =>
      cases h
      exact ⟨0, _, .refl, .off hnone⟩
    · cases h
      exact ⟨0, _, .refl, .limit⟩
  | succ fuel ih =>
    rw [runFor] at h
    split at h
    · next hnone =>
      cases h
      exact ⟨0, _, .refl, .off hnone⟩
    · next i hi =>
      dsimp only at h
      split at h
      · next t hstep =>
        obtain ⟨n, u, hsteps, hlast⟩ := ih h
        exact ⟨n + 1, u, .head hi hstep hsteps, hlast⟩
      · next hstep =>
        cases h
        exact ⟨0, _, .refl, .finished hi hstep⟩
      · next hstep =>
        cases h
        exact ⟨0, _, .refl, .trapped hi hstep⟩

theorem Machine.runFor_raises {m : Machine} {fuel : Nat} {s s' : State} {t : Trap}
    (h : m.runFor fuel s = (s', .trapped t)) : t = .stepLimit ∨ t = .canceled ∨
      ∃ n u i, m.Steps n s u ∧ m.code[u.pc]? = some i ∧ m.Raises u i t := by
  obtain ⟨n, u, hsteps, hlast⟩ := runFor_inv h
  cases hlast with
  | limit => exact .inl rfl
  | trapped hi hstep =>
    rcases step_raises hstep with rfl | hraises
    · exact .inr (.inl rfl)
    · exact .inr (.inr ⟨n, u, _, hsteps, hi, hraises⟩)

end WatScript
