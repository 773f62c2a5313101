import Mathlib.Data.List.Nodup
import WatScript.Machine.Run
import WatScript.Proofs.Evaluation
import WatScript.Proofs.Immediates

/-!
# Runs of the machine

A configuration (`Conf`) is what matters of a state between two instructions: where it stands, the
entered frames, the values on the stack, and the world of the source program. The step count and the
cells above the stack are left out. `Goes m names n c c'` says that `n` steps lead from every state
that shows `c` to one that shows `c'`; there is one such lemma for each instruction.

Steps are taken whatever the step limit is: `runFor` with enough fuel goes on where the steps end, and
with less it ends at the limit (`runFor_of_steps`, `runFor_stepLimit`).
-/

namespace WatScript

open List Machine Instr

variable {addr v : Int32} {args : List Int32} {host : HostEntry} {s : State} {t : Trap}

/-! ## Steps -/

/-- So many steps lead from one state to another. -/
inductive Machine.Steps (m : Machine) : Nat → State → State → Prop
  | refl {s : State} : Steps m 0 s s
  | head {n : Nat} {s s' s'' : State} {i : Instr} : m.code[s.pc]? = some i →
      m.step s i = .next s' → Steps m n s' s'' → Steps m (n + 1) s s''

namespace Machine.Steps
variable {m : Machine} {n n' : Nat} {s s' s'' : State}

theorem trans (h : m.Steps n s s') (h' : m.Steps n' s' s'') : m.Steps (n + n') s s'' := by
  induction h with
  | refl => rwa [Nat.zero_add]
  | head hi hs _ ih =>
    rw [Nat.add_right_comm]
    exact .head hi hs (ih h')

theorem runFor_of_steps (h : m.Steps n s s') (fuel : Nat) :
    m.runFor (n + fuel) s = m.runFor fuel s' := by
  induction h with
  | refl => rw [Nat.zero_add]
  | head hi hs _ ih =>
    rw [Nat.add_right_comm, runFor]
    simp only [hi, hs]
    exact ih

/-- A run that has more steps before it than its fuel ends at the step limit. -/
theorem runFor_stepLimit (h : m.Steps n s s') {fuel : Nat} (hf : fuel < n) :
    ∃ s'', m.runFor fuel s = (s'', .trapped .stepLimit) := by
  induction h generalizing fuel with
  | refl => exact absurd hf (Nat.not_lt_zero _)
  | @head n s s' s'' i hi hs _ ih =>
    cases fuel with
    | zero =>
      refine ⟨s, ?_⟩
      rw [runFor]
      simp only [hi]
    | succ fuel =>
      obtain ⟨t, ht⟩ := ih (Nat.lt_of_succ_lt_succ hf)
      refine ⟨t, ?_⟩
      rw [runFor]
      simp only [hi, hs]
      exact ht

end Machine.Steps

theorem Machine.step_of_not_canceled {m : Machine} {i : Instr} (h : s.canceled = false) :
    m.step s i = m.exec { s with steps := s.steps + 1 } i := by
  simp [step, h]

/-! ## Configurations -/

/-- A state holds a world: the locals by slot, the memory, the calls and the log. -/
structure World.Shows (names : List String) (w : World) (s : State) : Prop where
  locals : s.locals.toList = names.map w.locals
  memory : s.memory = w.memory
  calls : s.calls = w.calls
  logs : s.logs = w.logs

theorem World.Shows.history {names} {w : World} (h : w.Shows names s) : s.history = w.history := by
  rw [State.history, World.history, h.calls, h.logs]

/-- A state between two instructions, as far as it matters. -/
structure Conf where
  pc : Nat
  labels : List Label
  live : List Int32
  world : World

/-- The configuration is that of the machine. -/
structure Conf.Shows (names : List String) (c : Conf) (s : State) : Prop where
  pc : s.pc = c.pc
  labels : s.labels = c.labels
  live : s.stack.live = c.live
  world : c.world.Shows names s
  canceled : s.canceled = false

/-- In `n` steps the machine comes from `c` to `c'`. -/
def Goes (m : Machine) (names : List String) (n : Nat) (c c' : Conf) : Prop :=
  ∀ s, c.Shows names s → ∃ s', m.Steps n s s' ∧ c'.Shows names s'

/-- After `n` steps from `c` the machine traps, in the world `w`. -/
def Traps (m : Machine) (names : List String) (n : Nat) (c : Conf) (t : Trap) (w : World) : Prop :=
  ∀ s, c.Shows names s → ∃ s' i s'', m.Steps n s s' ∧ m.code[s'.pc]? = some i ∧
    m.step s' i = .trapped s'' t ∧ w.Shows names s''

/-- The next instruction finishes the function, with a value on top of the stack if there is one. -/
def Finishes (m : Machine) (names : List String) (c : Conf) (value : Option Int32) : Prop :=
  ∀ s, c.Shows names s → ∃ i s', m.code[s.pc]? = some i ∧ m.step s i = .finished s' ∧
    c.world.Shows names s' ∧ ∀ v ∈ value, s'.stack.live.head? = some v

section
variable {m : Machine} {names : List String} {n n' : Nat} {c c' c'' : Conf} {i : Instr} {t : Trap}
  {w : World}

theorem Goes.refl : Goes m names 0 c c := fun s hs => ⟨s, .refl, hs⟩

theorem Goes.trans (h : Goes m names n c c') (h' : Goes m names n' c' c'') :
    Goes m names (n + n') c c'' := by
  intro s hs
  obtain ⟨s', hsteps, hs'⟩ := h s hs
  obtain ⟨s'', hsteps', hs''⟩ := h' s' hs'
  exact ⟨s'', hsteps.trans hsteps', hs''⟩

theorem Goes.traps (h : Goes m names n c c') (h' : Traps m names n' c' t w) :
    Traps m names (n + n') c t w := by
  intro s hs
  obtain ⟨s', hsteps, hs'⟩ := h s hs
  obtain ⟨s₁, i, s₂, hsteps', hi, hstep, hw⟩ := h' s' hs'
  exact ⟨s₁, i, s₂, hsteps.trans hsteps', hi, hstep, hw⟩

theorem Conf.Shows.counted (h : c.Shows names s) :
    c.Shows names { s with steps := s.steps + 1 } :=
  ⟨h.pc, h.labels, h.live, ⟨h.world.locals, h.world.memory, h.world.calls, h.world.logs⟩, h.canceled⟩

theorem Goes.of_exec (hi : m.code[c.pc]? = some i)
    (h : ∀ s, c.Shows names s → ∃ s', m.exec s i = .next s' ∧ c'.Shows names s') :
    Goes m names 1 c c' := by
  intro s hs
  obtain ⟨s', he, hs'⟩ := h _ hs.counted
  refine ⟨s', .head (hs.pc ▸ hi) ?_ .refl, hs'⟩
  rwa [step_of_not_canceled hs.canceled]

theorem Traps.of_exec (hi : m.code[c.pc]? = some i)
    (h : ∀ s, c.Shows names s → ∃ s', m.exec s i = .trapped s' t ∧ w.Shows names s') :
    Traps m names 0 c t w := by
  intro s hs
  obtain ⟨s', he, hs'⟩ := h _ hs.counted
  refine ⟨s, i, s', .refl, hs.pc ▸ hi, ?_, hs'⟩
  rwa [step_of_not_canceled hs.canceled]

end

/-! ## The value stack -/

namespace Stack
variable {s : Stack} {v a b : Int32} {live : List Int32}

theorem pop_of_live (h : s.live = v :: live) : s.pop = .ok (v, ⟨live, v :: s.stale⟩) := by
  simp [pop, h]

theorem pop2_of_live (h : s.live = b :: a :: live) :
    s.pop2 = .ok (a, b, ⟨live, a :: b :: s.stale⟩) := by
  rw [pop2, pop_of_live h]
  rfl

theorem popMany_of_live {vs} (h : s.live = vs.reverse ++ live) :
    s.popMany vs.length = .ok (vs, ⟨live, vs ++ s.stale⟩) := by
  have htake : (s.live.take vs.length).reverse = vs := by simp [h]
  have hdrop : s.live.drop vs.length = live := by simp [h]
  have hheight : ¬ s.height < vs.length := by simp [height, h]
  simp only [popMany, if_neg hheight, htake, hdrop]

theorem live_pushAll (vs : List Int32) : (s.pushAll vs).live = vs.reverse ++ s.live := by
  induction vs generalizing s with
  | nil => rfl
  | cons v vs ih =>
    rw [pushAll, foldl_cons, ← pushAll, ih, reverse_cons, append_assoc]
    rfl

theorem live_lower (extra : List Int32) : ∀ {s}, s.live = extra ++ live →
    (lower extra.length s).live = live := by
  induction extra with
  | nil =>
    intro s h
    rw [length_nil, lower]
    · exact h
    · rintro n v l st ⟨⟩
  | cons v extra ih =>
    rintro ⟨l, stale⟩ h
    obtain rfl : l = v :: (extra ++ live) := h
    rw [length_cons, lower]
    exact ih rfl

theorem live_setHeight {extra} (h : s.live = extra ++ live) :
    (s.setHeight live.length).live = live := by
  have hheight : s.height = extra.length + live.length := by simp [height, h]
  rw [setHeight, if_pos (by omega), hheight, Nat.add_sub_cancel]
  exact live_lower extra h

end Stack

/-! ## Instructions -/

section
variable {m : Machine} {names : List String} {pc : Nat} {Λ : List Label} {L : List Int32} {w : World}

theorem World.Shows.withStack (h : w.Shows names s) (stack : Stack) :
    w.Shows names { s with stack } :=
  ⟨h.locals, h.memory, h.calls, h.logs⟩

theorem World.Shows.onward (h : w.Shows names s) (stack : Stack) :
    w.Shows names (s.withStack stack) :=
  ⟨h.locals, h.memory, h.calls, h.logs⟩

theorem Conf.Shows.move {pc' Λ' L' stack}
    (h : Conf.Shows names ⟨pc, Λ, L, w⟩ s) (hstack : stack.live = L') :
    Conf.Shows names ⟨pc', Λ', L', w⟩ { s with pc := pc', labels := Λ', stack := stack } :=
  ⟨rfl, rfl, hstack, ⟨h.world.locals, h.world.memory, h.world.calls, h.world.logs⟩, h.canceled⟩

theorem Conf.Shows.withStack {L' stack}
    (h : Conf.Shows names ⟨pc, Λ, L, w⟩ s) (hstack : stack.live = L') :
    Conf.Shows names ⟨pc + 1, Λ, L', w⟩ (s.withStack stack) := by
  obtain rfl : s.pc = pc := h.pc
  obtain rfl : s.labels = Λ := h.labels
  exact h.move hstack

theorem Machine.exec_const (m : Machine) (s : State) (v : Int32) :
    m.exec s (.const v) = .next (s.withStack (s.stack.push v)) := by
  have hop : (const v).op = .const := rfl
  simp only [exec, hop, Numeral.int32?_const]

theorem goes_const (hi : m.code[pc]? = some (.const v)) :
    Goes m names 1 ⟨pc, Λ, L, w⟩ ⟨pc + 1, Λ, v :: L, w⟩ :=
  .of_exec hi fun s hs => ⟨_, m.exec_const s v, hs.withStack (congrArg (v :: ·) hs.live)⟩

theorem goes_eqz (hi : m.code[pc]? = some (.plain .eqz)) :
    Goes m names 1 ⟨pc, Λ, v :: L, w⟩ ⟨pc + 1, Λ, truth (v = 0) :: L, w⟩ := by
  refine .of_exec hi fun s hs =>
    ⟨s.withStack (Stack.push ⟨L, v :: s.stack.stale⟩ (ofBool (v == 0))), ?_, hs.withStack ?_⟩
  · simp only [exec, plain, Stack.pop_of_live hs.live]
  · simp [Stack.push, ofBool, truth]

theorem goes_binary {op a b} (hi : m.code[pc]? = some (.plain (.binary op)))
    (hv : op.eval a b = .ok v) : Goes m names 1 ⟨pc, Λ, b :: a :: L, w⟩ ⟨pc + 1, Λ, v :: L, w⟩ := by
  refine .of_exec hi fun s hs =>
    ⟨s.withStack (Stack.push ⟨L, a :: b :: s.stack.stale⟩ v), ?_, hs.withStack ?_⟩
  · simp only [exec, plain, Stack.pop2_of_live hs.live, hv]
  · rfl

theorem traps_binary {op a b}
    (hi : m.code[pc]? = some (.plain (.binary op))) (hv : op.eval a b = .error t) :
    Traps m names 0 ⟨pc, Λ, b :: a :: L, w⟩ t w := by
  refine .of_exec hi fun s hs =>
    ⟨{ s with stack := ⟨L, a :: b :: s.stack.stale⟩ }, ?_, hs.world.withStack _⟩
  simp only [exec, plain, Stack.pop2_of_live hs.live, hv]

theorem goes_load (hi : m.code[pc]? = some (.plain .load)) (hv : w.memory.load addr = .ok v) :
    Goes m names 1 ⟨pc, Λ, addr :: L, w⟩ ⟨pc + 1, Λ, v :: L, w⟩ := by
  refine .of_exec hi fun s hs =>
    ⟨s.withStack (Stack.push ⟨L, addr :: s.stack.stale⟩ v), ?_, hs.withStack ?_⟩
  · simp only [exec, plain, Stack.pop_of_live hs.live, hs.world.memory, hv]
  · rfl

theorem traps_load (hi : m.code[pc]? = some (.plain .load))
    (hv : w.memory.load addr = .error t) : Traps m names 0 ⟨pc, Λ, addr :: L, w⟩ t w := by
  refine .of_exec hi fun s hs =>
    ⟨{ s with stack := ⟨L, addr :: s.stack.stale⟩ }, ?_, hs.world.withStack _⟩
  simp only [exec, plain, Stack.pop_of_live hs.live, hs.world.memory, hv]

theorem goes_store {memory} (hi : m.code[pc]? = some (.plain .store))
    (hv : w.memory.store addr v = .ok memory) :
    Goes m names 1 ⟨pc, Λ, v :: addr :: L, w⟩ ⟨pc + 1, Λ, L, { w with memory }⟩ := by
  refine .of_exec hi fun s hs =>
    ⟨{ s.withStack ⟨L, addr :: v :: s.stack.stale⟩ with memory }, ?_, ?_⟩
  · simp only [exec, plain, Stack.pop2_of_live hs.live, hs.world.memory, hv]
  · exact ⟨congrArg (· + 1) hs.pc, hs.labels, rfl, ⟨hs.world.locals, rfl, hs.world.calls,
      hs.world.logs⟩, hs.canceled⟩

theorem traps_store (hi : m.code[pc]? = some (.plain .store))
    (hv : w.memory.store addr v = .error t) : Traps m names 0 ⟨pc, Λ, v :: addr :: L, w⟩ t w := by
  refine .of_exec hi fun s hs =>
    ⟨{ s with stack := ⟨L, addr :: v :: s.stack.stale⟩ }, ?_, hs.world.withStack _⟩
  simp only [exec, plain, Stack.pop2_of_live hs.live, hs.world.memory, hv]

theorem traps_unreachable (hi : m.code[pc]? = some (.plain .unreachable)) :
    Traps m names 0 ⟨pc, Λ, L, w⟩ .unreachable w :=
  .of_exec hi fun s hs => ⟨s, rfl, hs.world⟩

/-! ## Locals and hosts -/

/-- The machine has a slot for each name, in order, and the hosts behind the called names. -/
structure Machine.Provides (m : Machine) (names : List String) (hosts : HostTable)
    (calls : List String) : Prop where
  slots : m.slots = (names.map ident).toArray
  nodup : names.Nodup
  callee : ∀ name ∈ calls, ∀ host, hosts.lookup name = some host →
    ∃ i, m.callee? name = some (i, host.call) ∧ i.params = host.params ∧ i.results = host.results

/-- The names in the code of the machine have slots and hosts. -/
structure Machine.Knows (m : Machine) (names : List String) (hosts : HostTable)
    (calls : List String) : Prop where
  provides : m.Provides names hosts calls
  locals : ∀ name, .localGet name ∈ m.code → name ∈ names
  callees : ∀ name, .call name ∈ m.code → name ∈ calls

variable {hosts : HostTable} {calls : List String} {name : String}

theorem Machine.Provides.slot? (hm : m.Provides names hosts calls) (hn : name ∈ names) :
    m.slot? (ident name) = some (names.idxOf name) := by
  have hfun : (fun n => ident n == ident name) = (· == name) := by
    funext n
    simpa [beq_eq_beq] using ⟨ident_injective, congrArg ident⟩
  rw [Machine.slot?, hm.slots, findIdx?_toArray, findIdx?_map]
  refine (findIdx?_eq_some_of_exists ⟨name, hn, ?_⟩).trans ?_
  · simp
  · rw [Function.comp_def, hfun]
    rfl

theorem World.Shows.local_eq (h : w.Shows names s) (hn : name ∈ names) :
    s.locals.getD (names.idxOf name) 0 = w.locals name := by
  have hget : s.locals[names.idxOf name]? = some (w.locals name) := by
    rw [← Array.getElem?_toList, h.locals, getElem?_map, getElem?_idxOf hn, Option.map_some]
  rw [Array.getD_eq_getD_getElem?, hget, Option.getD_some]

theorem World.Shows.update (h : w.Shows names s) (hnodup : names.Nodup)
    (hn : name ∈ names) : (s.locals.setIfInBounds (names.idxOf name) v).toList =
      names.map (Function.update w.locals name v) := by
  rw [hnodup.map_update, if_pos hn, Array.toList_setIfInBounds, h.locals]

theorem goes_localGet (hm : m.Knows names hosts calls) (hi : m.code[pc]? = some (.localGet name)) :
    Goes m names 1 ⟨pc, Λ, L, w⟩ ⟨pc + 1, Λ, w.locals name :: L, w⟩ := by
  have hn := hm.locals name (Array.mem_of_getElem? hi)
  refine .of_exec hi fun s hs =>
    ⟨s.withStack (s.stack.push (w.locals name)), ?_, hs.withStack ?_⟩
  · simp only [exec, localGet, hm.provides.slot? hn, hs.world.local_eq hn]
  · exact congrArg (w.locals name :: ·) hs.live

theorem goes_localSet (hm : m.Provides names hosts calls) (hn : name ∈ names)
    (hi : m.code[pc]? = some (.localSet name)) :
    Goes m names 1 ⟨pc, Λ, v :: L, w⟩
      ⟨pc + 1, Λ, L, { w with locals := Function.update w.locals name v }⟩ := by
  refine .of_exec hi fun s hs => ⟨{ s with
    locals := s.locals.setIfInBounds (names.idxOf name) v
    stack := ⟨L, v :: s.stack.stale⟩
    pc := s.pc + 1 }, ?_, ?_⟩
  · simp only [exec, localSet, setLocal, hm.slot? hn,
      Stack.pop_of_live hs.live, Bool.false_eq_true, if_false]
  · exact ⟨congrArg (· + 1) hs.pc, hs.labels, rfl, ⟨hs.world.update hm.nodup hn, hs.world.memory,
      hs.world.calls, hs.world.logs⟩, hs.canceled⟩

/-! ## Calls -/

theorem Text.string?_ofString (s : String) : Text.string? (Text.ofString s) = some s := by
  have hchars : ∀ cs : List Char, (cs.map Glyph.char).mapM Glyph.char? = some cs := by
    intro cs
    induction cs with
    | nil => rfl
    | cons c cs ih =>
      rw [map_cons, mapM_cons, ih]
      rfl
  rw [Text.string?, Text.ofString, hchars, Option.map_some, String.ofList_toList]

theorem Machine.nameOf?_ident (name : String) : nameOf? (ident name) = some name :=
  Text.string?_ofString name

/-- The state after a call. -/
def State.called (s : State) (live : List Int32) (call : HostCall) (reply : Reply) : State :=
  { s with
    stack := ⟨live, call.args ++ s.stack.stale⟩
    calls := call :: s.calls
    logs := reply.logs
    canceled := s.canceled || reply.cancels }

/-- A call takes the arguments off the stack, records the call, and pushes the results if they are as
many as were declared. -/
theorem Machine.exec_call
    (hm : m.Knows names hosts calls) (hi : .call name ∈ m.code) (hhost : hosts.lookup name = some host)
    (hparams : host.params = args.length) (hlive : s.stack.live = args.reverse ++ L) :
    m.exec s (.call name) =
      let reply := host.call s.history args
      match reply.results with
      | .error d => .trapped (s.called L ⟨name, args⟩ reply) (.host d)
      | .ok results => if (results.length : Int) = host.results then
          .next ((s.called L ⟨name, args⟩ reply).withStack
            (Stack.pushAll ⟨L, args ++ s.stack.stale⟩ results))
        else .trapped (s.called L ⟨name, args⟩ reply) .hostResults := by
  obtain ⟨i, hcallee, hip, hir⟩ := hm.provides.callee name (hm.callees name hi) host hhost
  have hcount : i.params.toNat = args.length := by rw [hip, hparams, Int.toNat_natCast]
  simp only [exec, Instr.call, callHost, nameOf?_ident, Option.bind_some,
    hcallee, Option.map_some, hcount, Stack.popMany_of_live hlive, hir, bne_iff_ne, ne_eq, ite_not]
  rfl

/-- The world after a call. -/
def World.called (w : World) (call : HostCall) (reply : Reply) : World :=
  { w with calls := call :: w.calls, logs := reply.logs }

theorem World.Shows.called {call reply} (h : w.Shows names s) :
    (w.called call reply).Shows names (s.called L call reply) :=
  ⟨h.locals, h.memory, congrArg _ h.calls, rfl⟩

theorem goes_call {results} (hm : m.Knows names hosts calls) (hhost : hosts.lookup name = some host)
    (hparams : host.params = args.length) (hquiet : (host.call w.history args).cancels = false)
    (hr : (host.call w.history args).results = .ok results)
    (hlen : (results.length : Int) = host.results) (hi : m.code[pc]? = some (.call name)) :
    Goes m names 1 ⟨pc, Λ, args.reverse ++ L, w⟩
      ⟨pc + 1, Λ, results.reverse ++ L, w.called ⟨name, args⟩ (host.call w.history args)⟩ := by
  refine .of_exec hi fun s hs =>
    ⟨(s.called L ⟨name, args⟩ (host.call w.history args)).withStack
      (Stack.pushAll ⟨L, args ++ s.stack.stale⟩ results), ?_, ?_⟩
  · simp only [exec_call hm (Array.mem_of_getElem? hi) hhost hparams hs.live, hs.world.history, hr, hlen,
      if_true]
  · exact ⟨congrArg (· + 1) hs.pc, hs.labels, Stack.live_pushAll _, hs.world.called.onward _,
      Bool.or_eq_false_iff.2 ⟨hs.canceled, hquiet⟩⟩

theorem traps_call {d} (hm : m.Knows names hosts calls) (hhost : hosts.lookup name = some host)
    (hparams : host.params = args.length) (hr : (host.call w.history args).results = .error d)
    (hi : m.code[pc]? = some (.call name)) : Traps m names 0 ⟨pc, Λ, args.reverse ++ L, w⟩ (.host d)
      (w.called ⟨name, args⟩ (host.call w.history args)) := by
  refine .of_exec hi fun s hs =>
    ⟨s.called L ⟨name, args⟩ (host.call w.history args), ?_, hs.world.called⟩
  simp only [exec_call hm (Array.mem_of_getElem? hi) hhost hparams hs.live, hs.world.history, hr]

/-! ## Frames and branches -/

theorem Conf.Shows.height_eq (h : Conf.Shows names ⟨pc, Λ, L, w⟩ s) : s.stack.height = L.length :=
  congrArg List.length h.live

theorem goes_enter {b label span}
    (hi : m.code[pc]? = some ⟨bif b then .loop else .block, label⟩) (hl : m.links.at? pc = some span) :
    Goes m names 1 ⟨pc, Λ, L, w⟩ ⟨pc + 1, ⟨b, label, pc, span.stop, L.length⟩ :: Λ, L, w⟩ := by
  refine .of_exec hi fun s hs => ⟨{ s with
    labels := ⟨b, label, pc, span.stop, L.length⟩ :: Λ, pc := pc + 1 }, ?_, hs.move hs.live⟩
  have hpc : s.pc = pc := hs.pc
  have hlabels : s.labels = Λ := hs.labels
  cases b <;> simp only [exec, enterFrame, cond_true, cond_false, hpc, hl, hlabels,
    hs.height_eq]

section
variable {span : Span} {v : Int32} (hi : m.code[pc]? = some (.plain .ifThen))
  (hl : m.links.at? pc = some span)
include hi hl

theorem goes_if_arm {e} (he : (if v ≠ 0 then some pc else span.alt) = some e) :
    Goes m names 1 ⟨pc, Λ, v :: L, w⟩ ⟨e + 1, ⟨false, [], pc, span.stop, L.length⟩ :: Λ, L, w⟩ := by
  refine .of_exec hi fun s hs => ⟨{ s with
    stack := ⟨L, v :: s.stack.stale⟩
    labels := ⟨false, [], pc, span.stop, L.length⟩ :: Λ, pc := e + 1 }, ?_, hs.move rfl⟩
  have hpc : s.pc = pc := hs.pc
  have hlabels : s.labels = Λ := hs.labels
  simp only [exec, plain, enterIf, Stack.pop_of_live hs.live, hpc, hl, hlabels,
    bne_iff_ne]
  split at he
  · next hv =>
    obtain rfl : pc = e := Option.some.inj he
    rw [if_pos hv]
    rfl
  · next hv =>
    rw [if_neg hv, he]
    rfl

theorem goes_if_skip (halt : span.alt = none) : Goes m names 1 ⟨pc, Λ, 0 :: L, w⟩
    ⟨span.stop + 1, Λ, L, w⟩ := by
  refine .of_exec hi fun s hs => ⟨{ s with
    stack := ⟨L, 0 :: s.stack.stale⟩, labels := Λ, pc := span.stop + 1 }, ?_, hs.move rfl⟩
  have hpc : s.pc = pc := hs.pc
  have hlabels : s.labels = Λ := hs.labels
  simp only [exec, plain, enterIf, Stack.pop_of_live hs.live, hpc, hl, halt,
    bne_self_eq_false, Bool.false_eq_true, if_false, hlabels]

end

theorem goes_else {l span} (hi : m.code[pc]? = some (.plain .elseArm))
    (hl : m.links.at? pc = some span) :
    Goes m names 1 ⟨pc, l :: Λ, L, w⟩ ⟨span.stop + 1, Λ, L, w⟩ := by
  refine .of_exec hi fun s hs => ⟨{ s with labels := Λ, pc := span.stop + 1 }, ?_, hs.move hs.live⟩
  have hpc : s.pc = pc := hs.pc
  have hlabels : s.labels = l :: Λ := hs.labels
  simp only [exec, plain, leaveArm, hpc, hl, hlabels, tail_cons]

theorem goes_end {l} (hi : m.code[pc]? = some (.plain .endFrame)) :
    Goes m names 1 ⟨pc, l :: Λ, L, w⟩ ⟨pc + 1, Λ, L, w⟩ := by
  refine .of_exec hi fun s hs => ⟨{ s with labels := Λ, pc := pc + 1 }, ?_, hs.move hs.live⟩
  have hpc : s.pc = pc := hs.pc
  have hlabels : s.labels = l :: Λ := hs.labels
  simp only [exec, plain, hpc, hlabels, tail_cons]

/-- Where a branch to the label leads, and the labels there. -/
def Label.target (l : Label) (outer : List Label) : Nat × List Label :=
  if l.isLoop then (l.start + 1, l :: outer) else (l.stop + 1, outer)

section
variable {l : Label} {inner outer : List Label} {extra : List Int32}

theorem branchDistance?_ident (hlabels : s.labels = inner ++ l :: outer)
    (hinner : ∀ x ∈ inner, x.name ≠ ident name) (hl : l.name = ident name) :
    s.branchDistance? (ident name) = some inner.length := by
  have hidx : (inner ++ l :: outer).findIdx
      (fun l => !l.name.isEmpty && l.name == ident name) = inner.length := by
    have hnone : inner.findIdx (fun l => !l.name.isEmpty && l.name == ident name) =
        inner.length := by
      refine findIdx_eq_length.2 fun x hx => ?_
      simp [hinner x hx]
    have hfound : (l :: outer).findIdx
        (fun l => !l.name.isEmpty && l.name == ident name) = 0 := by
      simp [findIdx_cons, hl, ident]
    rw [findIdx_append, hnone, if_neg (Nat.lt_irrefl _), hfound, Nat.zero_add]
  rw [State.branchDistance?, Numeral.int64?_ident]
  simp only [hlabels, hidx, length_append, length_cons]
  exact if_pos (by omega)

theorem branch_ident (hlabels : s.labels = inner ++ l :: outer)
    (hinner : ∀ x ∈ inner, x.name ≠ ident name) (hl : l.name = ident name) :
    s.branch (ident name) = .next { s with
      stack := s.stack.setHeight l.height
      labels := (l.target outer).2
      pc := (l.target outer).1 } := by
  simp only [State.branch, branchDistance?_ident hlabels hinner hl, hlabels, drop_left]
  cases hloop : l.isLoop <;> simp [Label.target, hloop]

variable (hinner : ∀ x ∈ inner, x.name ≠ ident name) (hl : l.name = ident name)
  (hheight : l.height = L.length)
include hinner hl hheight

theorem goes_br (hi : m.code[pc]? = some ⟨.br, ident name⟩) :
    Goes m names 1 ⟨pc, inner ++ l :: outer, extra ++ L, w⟩
      ⟨(l.target outer).1, (l.target outer).2, L, w⟩ := by
  refine .of_exec hi fun s hs => ⟨_, branch_ident hs.labels hinner hl, hs.move ?_⟩
  rw [hheight]
  exact Stack.live_setHeight hs.live

theorem goes_brIf_taken (hv : v ≠ 0) (hi : m.code[pc]? = some ⟨.brIf, ident name⟩) :
    Goes m names 1 ⟨pc, inner ++ l :: outer, v :: (extra ++ L), w⟩
      ⟨(l.target outer).1, (l.target outer).2, L, w⟩ := by
  refine .of_exec hi fun s hs => ⟨{ s with
    stack := Stack.setHeight ⟨extra ++ L, v :: s.stack.stale⟩ l.height
    labels := (l.target outer).2
    pc := (l.target outer).1 }, ?_, hs.move ?_⟩
  · simp only [exec, Stack.pop_of_live hs.live, beq_iff_eq, hv, if_false]
    exact branch_ident hs.labels hinner hl
  · rw [hheight]
    exact Stack.live_setHeight rfl

end

theorem goes_brIf_passed {label} (hi : m.code[pc]? = some ⟨.brIf, label⟩) :
    Goes m names 1 ⟨pc, Λ, 0 :: L, w⟩ ⟨pc + 1, Λ, L, w⟩ := by
  refine .of_exec hi fun s hs => ⟨s.withStack ⟨L, 0 :: s.stack.stale⟩, ?_, hs.withStack rfl⟩
  simp only [exec, Stack.pop_of_live hs.live, beq_self_eq_true, if_true]

theorem finishes_ret {value : Option Int32} (hi : m.code[pc]? = some (.plain .ret))
    (hv : ∀ v ∈ value, L.head? = some v) : Finishes m names ⟨pc, Λ, L, w⟩ value := by
  intro s hs
  have hpc : s.pc = pc := hs.pc
  refine ⟨_, { s with steps := s.steps + 1 }, hpc ▸ hi, ?_, hs.counted.world, fun v h => ?_⟩
  · rw [step_of_not_canceled hs.canceled]
    rfl
  · exact (congrArg List.head? hs.live).trans (hv v h)

end

/-! ## Ends of runs -/

section
variable {m : Machine} {names : List String} {n limit : Nat} {c c' : Conf} {t : Trap} {w : World}
  {s : State} (hs : c.Shows names s)
include hs

theorem Goes.runFor_end (h : Goes m names n c c') (hend : m.code[c'.pc]? = none) (hn : n ≤ limit) :
    ∃ s', m.runFor limit s = (s', .finished) ∧ c'.world.Shows names s' := by
  obtain ⟨s', hsteps, hs'⟩ := h s hs
  obtain ⟨k, rfl⟩ := Nat.exists_eq_add_of_le hn
  refine ⟨s', ?_, hs'.world⟩
  rw [hsteps.runFor_of_steps, Machine.runFor, hs'.pc, hend]

theorem Goes.runFor_finishes {value : Option Int32} (h : Goes m names n c c')
    (hf : Finishes m names c' value) (hn : n < limit) :
    ∃ s', m.runFor limit s = (s', .finished) ∧ c'.world.Shows names s' ∧
      ∀ v ∈ value, s'.stack.live.head? = some v := by
  obtain ⟨s₁, hsteps, hs₁⟩ := h s hs
  obtain ⟨i, s', hi, hstep, hw, hv⟩ := hf s₁ hs₁
  obtain ⟨k, rfl⟩ := Nat.exists_eq_add_of_lt hn
  refine ⟨s', ?_, hw, hv⟩
  rw [Nat.add_assoc, hsteps.runFor_of_steps, Machine.runFor]
  simp only [hi, hstep]

theorem Traps.runFor_trapped (h : Traps m names n c t w) (hn : n < limit) :
    ∃ s', m.runFor limit s = (s', .trapped t) ∧ w.Shows names s' := by
  obtain ⟨s₁, i, s', hsteps, hi, hstep, hw⟩ := h s hs
  obtain ⟨k, rfl⟩ := Nat.exists_eq_add_of_lt hn
  refine ⟨s', ?_, hw⟩
  rw [Nat.add_assoc, hsteps.runFor_of_steps, Machine.runFor]
  simp only [hi, hstep]

theorem Goes.runFor_stepLimit (h : Goes m names n c c') (hn : limit < n) :
    ∃ s', m.runFor limit s = (s', .trapped .stepLimit) := by
  obtain ⟨s', hsteps, -⟩ := h s hs
  exact hsteps.runFor_stepLimit hn

end

end WatScript
