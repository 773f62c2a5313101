import WatScript.Proofs.CleanRuns
import WatScript.Proofs.JumpTargets

/-!
# Runs through the code of an expression

`ExprCode.sim` follows an expression where its hosts keep to the rules. Here nothing is asked of a host
but to take as many arguments as it is passed, and to have one result where its value is used: it may
cancel the run, and it may return too many results. So a run need not come through the code of an
expression; but if it does, the code has pushed what the expression evaluates to (`ExprCode.ran`).
-/

namespace WatScript

open List Atom
open Instr (plain)

/-- The table has the called host, with as many parameters as the call passes arguments, and with one
result if its value is used. -/
def HostTable.Takes (hosts : HostTable) (site : CallSite) : Prop :=
  ∃ host, hosts.lookup site.name = some host ∧ host.params = site.args ∧
    (site.isValue = true → host.results = 1)

/-! ## Steps that do what an evaluation does -/

/-- A state that stands at `pc` with values on the stack and shows a world, canceled or not. -/
structure State.At (names : List String) (s : State) (pc : Nat) (L : List Int32) (w : World) :
    Prop where
  pc : s.pc = pc
  live : s.stack.live = L
  world : w.Shows names s

/-- So many steps, if they can be taken at all, do what an evaluation in a world does. -/
def Ran {α : Type} (m : Machine) (n : Nat) (s : State) (w : World) (x : Eval α)
    (Q : α → World → State → Prop) : Prop :=
  ∀ s', m.Steps n s s' → ∃ a w', x w = (.ok a, w') ∧ Q a w' s'

section
variable {α β : Type} {m : Machine} {names : List String} {n n' pc : Nat} {s : State} {w : World}
  {x : Eval α} {f : α → Eval β} {Q : α → World → State → Prop} {R : β → World → State → Prop}
  {L : List Int32} {i : Instr}

theorem Ran.pure {a} (h : Q a w s) : Ran m 0 s w (Pure.pure a) Q := by
  intro s' hsteps
  cases hsteps
  exact ⟨a, w, rfl, h⟩

theorem Ran.bind (h : Ran m n s w x Q) (hf : ∀ a w' s', Q a w' s' → Ran m n' s' w' (f a) R) :
    Ran m (n + n') s w (x >>= f) R := by
  intro s' hsteps
  obtain ⟨t, hleft, hright⟩ := hsteps.split
  obtain ⟨a, w', hx, ha⟩ := h t hleft
  obtain ⟨b, w'', hb, hr⟩ := hf a w' t ha s' hright
  refine ⟨b, w'', ?_, hr⟩
  rw [Eval.bind_of_ok hx]
  exact hb

theorem Ran.finish (h : Ran m n s w x Q) (hf : ∀ a w' s', Q a w' s' → Ran m 0 s' w' (f a) R) :
    Ran m n s w (x >>= f) R := h.bind hf

theorem Ran.of_exec (hs : s.At names pc L w) (hi : m.code[pc]? = some i)
    (h : ∀ t t', t.At names pc L w → m.exec t i = .next t' → ∃ a w', x w = (.ok a, w') ∧ Q a w' t') :
    Ran m 1 s w x Q := by
  intro s' hsteps
  obtain ⟨t, j, hrefl, hj, hstep⟩ := hsteps.tail_inv
  cases hrefl
  rw [hs.pc, hi] at hj
  cases hj
  unfold Machine.step at hstep
  dsimp only at hstep
  split at hstep
  · cases hstep
  · refine h { s with steps := s.steps + 1 } s' ⟨hs.pc, hs.live, ?_⟩ hstep
    exact ⟨hs.world.locals, hs.world.memory, hs.world.calls, hs.world.logs⟩

theorem State.At.withStack {stack L'} (h : s.At names pc L w)
    (hstack : stack.live = L') : (s.withStack stack).At names (pc + 1) L' w :=
  ⟨congrArg (· + 1) h.pc, hstack, h.world.onward stack⟩

/-- The state behind code that was run: at `pc`, with what it left on the stack. -/
def Behind (names : List String) (pc : Nat) (live : α → List Int32) (a : α) (w : World) (s : State) :
    Prop := s.At names pc (live a) w

theorem ran_const {v} (hs : s.At names pc L w) (hi : m.code[pc]? = some (.const v)) :
    Ran m 1 s w (Pure.pure v) (Behind names (pc + 1) (· :: L)) := by
  refine .of_exec hs hi fun t t' ht hexec => ⟨v, w, rfl, ?_⟩
  cases (m.exec_const t v).symm.trans hexec
  exact ht.withStack (congrArg (v :: ·) ht.live)

theorem ran_binary {o op a b} (hop : binaryOp? o = some op)
    (hs : s.At names pc (b :: a :: L) w) (hi : m.code[pc]? = some (plain (.binary op))) :
    Ran m 1 s w (applyOperator o a b) (Behind names (pc + 1) (· :: L)) := by
  refine .of_exec hs hi fun t t' ht hexec => ?_
  unfold applyOperator
  rw [operation?_eq hop]
  simp only [Machine.exec, plain, Stack.pop2_of_live ht.live] at hexec
  cases hv : op.eval a b with
  | error e =>
    rw [hv] at hexec
    cases hexec
  | ok v =>
    rw [hv] at hexec
    cases hexec
    exact ⟨v, w, rfl, ht.withStack rfl⟩

theorem ran_load {addr} (hs : s.At names pc (addr :: L) w) (hi : m.code[pc]? = some (plain .load)) :
    Ran m 1 s w (Eval.load addr) (Behind names (pc + 1) (· :: L)) := by
  refine .of_exec hs hi fun t t' ht hexec => ?_
  unfold Eval.load
  simp only [Machine.exec, plain, Stack.pop_of_live ht.live, ht.world.memory] at hexec
  cases hv : w.memory.load addr with
  | error e =>
    rw [hv] at hexec
    cases hexec
  | ok v =>
    rw [hv] at hexec
    cases hexec
    exact ⟨v, w, rfl, ht.withStack rfl⟩

/-! ## Locals and hosts -/

variable {hosts : HostTable} {calls : List String} {name : String}

theorem ran_localGet (hm : m.Knows names hosts calls) (hs : s.At names pc L w)
    (hi : m.code[pc]? = some (.localGet name)) :
    Ran m 1 s w (Eval.get name) (Behind names (pc + 1) (· :: L)) := by
  have hn := hm.locals name (Array.mem_of_getElem? hi)
  refine .of_exec hs hi fun t t' ht hexec => ⟨w.locals name, w, rfl, ?_⟩
  simp only [Machine.exec, Instr.localGet, hm.provides.slot? hn, ht.world.local_eq hn] at hexec
  cases hexec
  exact ht.withStack (congrArg (_ :: ·) ht.live)

theorem ran_callHost {args host} (hm : m.Knows names hosts calls)
    (hhost : hosts.lookup name = some host) (hparams : host.params = args.length)
    (hs : s.At names pc (args.reverse ++ L) w) (hi : m.code[pc]? = some (.call name)) :
    Ran m 1 s w (Eval.callHost hosts name args) fun results w' s' =>
      (results.length : Int) = host.results ∧ s'.At names (pc + 1) (results.reverse ++ L) w' := by
  refine .of_exec hs hi fun t t' ht hexec => ?_
  rw [Machine.exec_call hm (Array.mem_of_getElem? hi) hhost hparams ht.live, ht.world.history] at hexec
  simp only [Eval.callHost, hhost]
  cases hr : (host.call w.history args).results with
  | error d => simp [hr] at hexec
  | ok results =>
    simp only [hr] at hexec
    split at hexec
    · next hlen =>
      cases hexec
      refine ⟨results, _, rfl, hlen, ?_⟩
      exact ⟨congrArg (· + 1) ht.pc, Stack.live_pushAll _, ht.world.called.onward _⟩
    · cases hexec

/-! ## Expressions -/

mutual

/-- A run through the code of an expression pushes its value. -/
theorem ExprCode.ran : ∀ {a code}, ExprCode a code → ∀ {pc L w s}, m.Knows names hosts calls →
    m.Placed pc code → (∀ site ∈ a.callSites true, hosts.Takes site) → s.At names pc L w →
    Ran m code.length s w (a.eval hosts) (Behind names (pc + code.length) (· :: L))
  | _, _, .number hnum hv, _, _, w, _, _, hp, _, hs => by
    rw [eval, evalWord, if_pos hnum, hv]
    exact ran_const hs hp.head
  | _, _, .name hw hn, _, _, _, _, hm, hp, _, hs => by
    rw [eval, evalWord, isNumeric_of_isNameable hn, if_neg Bool.false_ne_true]
    exact ran_localGet hm hs hp.head
  | _, _, .paren h, _, _, _, _, hm, hp, ht, hs => h.ran hm hp (sites_singleton.1 ht) hs
  | _, _, .item h, _, _, _, _, hm, hp, ht, hs => h.ran hm hp (sites_singleton.1 ht) hs
  | _, _, .binary hop hl hr, pc, _, _, _, hm, hp, ht, hs => by
    obtain ⟨htl, htr⟩ := sites_cons.1 (sites_operation ht)
    rw [eval, hl.evalOperation_eq, length_append, length_append, ← Nat.add_assoc pc,
      ← Nat.add_assoc (pc + _)]
    refine (hl.ran hm hp.left htl hs).bind fun a w₁ s₁ h₁ => ?_
    refine (hr.ran hm hp.right.left (sites_singleton.1 htr) h₁).bind fun b w₂ s₂ h₂ => ?_
    exact ran_binary hop h₂ hp.right.right.head
  | _, _, .unary hop hv hr, pc, L, w, s, hm, hp, ht, hs => by
    obtain ⟨-, htr⟩ := sites_cons.1 (sites_operation ht)
    rw [eval, evalOperation, frontOperand_eq hv, length_cons, length_append,
      Nat.add_comm _ 1, ← Nat.add_assoc pc, ← Nat.add_assoc (pc + _)]
    refine (ran_const hs hp.head).bind fun a w₁ s₁ h₁ => ?_
    refine (hr.ran hm hp.tail.left (sites_singleton.1 htr) h₁).bind fun b w₂ s₂ h₂ => ?_
    exact ran_binary hop h₂ hp.tail.right.head
  | _, _, .call hw hn h, pc, L, w, s, hm, hp, ht, hs => by
    obtain ⟨⟨host, hhost, hparams, hvalue⟩, hargs⟩ := sites_call ht
    rw [eval, length_append, ← Nat.add_assoc]
    refine (h.ran hm hp.left hargs hs).bind fun vs w₁ s₁ h₁ => ?_
    rw [← h₁.1] at hparams
    refine (ran_callHost hm hhost hparams h₁.2 hp.right.head).finish fun results w₂ s₂ h₂ => ?_
    have hone := hvalue rfl
    obtain ⟨v, rfl⟩ := length_eq_one_iff.1 (by have := h₂.1; omega : results.length = 1)
    exact .pure h₂.2
  | _, _, .load h, pc, L, w, s, hm, hp, ht, hs => by
    rw [eval, if_pos rfl, length_append, ← Nat.add_assoc]
    refine (h.ran hm hp.left (sites_singleton.1 ht) hs).bind fun addr w₁ s₁ h₁ => ?_
    exact ran_load h₁ hp.right.head

theorem ArgsCode.ran : ∀ {args code}, ArgsCode args code → ∀ {pc L w s}, m.Knows names hosts calls →
    m.Placed pc code → (∀ site ∈ callSitesOf true args, hosts.Takes site) → s.At names pc L w →
    Ran m code.length s w (evalArgs hosts args) fun vs w' s' => vs.length = args.length ∧
      s'.At names (pc + code.length) (vs.reverse ++ L) w'
  | _, _, .nil, _, _, _, _, _, _, _, hs => .pure ⟨rfl, hs⟩
  | _, _, .cons h hs, _, _, _, _, hm, hp, ht, hat => by
    obtain ⟨hta, htrest⟩ := sites_cons.1 ht
    rw [evalArgs, length_append, ← Nat.add_assoc]
    refine (h.ran hm hp.left hta hat).bind fun v w₁ s₁ h₁ => ?_
    refine (hs.ran hm hp.right htrest h₁).finish fun vs w₂ s₂ h₂ => ?_
    refine .pure ⟨congrArg (· + 1) h₂.1, ?_⟩
    rw [reverse_cons, append_assoc]
    exact h₂.2

end

end

/-! ## Runs of linked programs -/

theorem State.exists_world {names s} (hn : names.Nodup)
    (hsize : s.locals.size = names.length) : ∃ w : World, w.Shows names s := by
  refine ⟨⟨fun name => s.locals.getD (names.idxOf name) 0, s.memory, s.calls, s.logs⟩, ?_, rfl, rfl, rfl⟩
  refine ext_getElem (by simpa using hsize) fun k hk hk' => ?_
  have hk'' : k < names.length := by simpa using hk'
  simp [hn.idxOf_getElem k hk'', show k < s.locals.size by omega]

section
variable {e : Engine} {p : Program} {m : Module} {hosts : List (String × Host)} {limit : Nat}
  {maxPages : Int} {x : Instance}

/-- The instance runs the code of the program. -/
structure Instance.Linked (x : Instance) (p : Program) (names : List String) (hosts : HostTable) :
    Prop where
  code : x.machine.code = p.code.toArray
  knows : x.machine.Knows names hosts p.symbols.calls
  matched : x.machine.Matched

theorem Program.Sound.linked (h : p.Sound) (hlink : e.link p = .ok (m, hosts))
    (hx : Instance.create m hosts limit maxPages = .ok x) :
    x.Linked p (m.params ++ m.locals) e.hosts := by
  obtain ⟨hbody, -⟩ := Engine.link_inv hlink
  obtain ⟨links, memory, hl, -, rfl⟩ := Instance.create_inv (h.nodup hlink) hx
  have hcode : (m.machine hosts links (if limit == 0 then defaultStepLimit else limit)).code =
      p.code.toArray := congrArg List.toArray hbody
  exact ⟨hcode, (h.machine_covers hlink).toKnows, fun k span hk => link_targets hl hk⟩

namespace Instance.Linked
variable {names : List String} {table : HostTable} {args : List Int32} {n : Nat} {s : State}
  {pre code post : List Instr}

theorem placed (h : x.Linked p names table) (hcode : p.code = pre ++ (code ++ post)) :
    x.machine.Placed pre.length code :=
  ⟨pre, post, by rw [h.code, hcode], rfl⟩

theorem framed_initialState : Framed x.machine (x.initialState args) := forall_mem_nil _

theorem code_eq (h : x.Linked p names table) {k i} (hi : x.machine.code[k]? = some i) :
    p.code = p.code.take k ++ i :: p.code.drop (k + 1) ∧ (p.code.take k).length = k := by
  rw [h.code, getElem?_toArray] at hi
  obtain ⟨hlt, rfl⟩ := List.getElem?_eq_some_iff.1 hi
  exact ⟨by rw [getElem_cons_drop, take_append_drop], length_take_of_le hlt.le⟩

theorem exists_world (h : x.Linked p names table) (hs : x.machine.Steps n (x.initialState args) s) :
    ∃ w : World, w.Shows names s := by
  refine State.exists_world h.knows.provides.nodup (hs.locals_size.trans ?_)
  simp [Instance.initialState, Instance.initialLocals, h.knows.provides.slots]

theorem through (h : x.Linked p names table) (hcode : p.code = pre ++ (code ++ post))
    (hflat : ∀ i ∈ code, i.op.isFlat = true) (hs : x.machine.Steps n (x.initialState args) s)
    (hpc : s.pc = pre.length + code.length) :
    ∃ n₁ s₁ w, x.machine.Steps n₁ (x.initialState args) s₁ ∧ x.machine.Steps code.length s₁ s ∧
      s₁.At names pre.length s₁.stack.live w := by
  obtain ⟨n₁, s₁, hbefore, hthrough, hpc₁, -⟩ := hs.through h.matched framed_initialState rfl
    (h.placed hcode) hflat hpc
  obtain ⟨w, hw⟩ := h.exists_world hbefore
  exact ⟨n₁, s₁, w, hbefore, hthrough, hpc₁, rfl, hw⟩

end Instance.Linked

end

end WatScript
