import WatScript.Engine.Basic
import WatScript.Proofs.CodeSymbols
import WatScript.Proofs.Simulation
import WatScript.Proofs.StepFacts

/-!
# Runs of compiled programs

An engine links a program whose calls its hosts serve (`Engine.link_ok`), and an instance of the module
starts in the initial world of the program (`initialState_shows`): the arguments in the parameters, zeros
in the locals and in memory. From there on the run follows the evaluation of the statements, whatever
they are (`compiled_statements_simulate`).
-/

namespace WatScript

open List Engine

/-! ## Linking -/

theorem Engine.importsOf_lookup {hosts} : ∀ {names},
    (∀ name ∈ names, ∃ host, hosts.lookup name = some host) →
    ∃ imports, Engine.importsOf hosts names = .ok imports ∧ ∀ name ∈ names, ∀ host,
      hosts.lookup name = some host → (imports.map (·.1)).find? (·.name == name) =
        some ⟨Engine.importScope, name, host.params, host.results⟩ ∧
      (imports.map fun (i, h) => (i.name, h.call)).lookup name = some host.call
  | [], _ => ⟨[], rfl, fun _ h => nomatch h⟩
  | n :: rest, h => by
    obtain ⟨⟨first, hfirst⟩, hrest⟩ := forall_mem_cons.1 h
    obtain ⟨imports, hi, hfind⟩ := importsOf_lookup hrest
    refine ⟨(⟨importScope, n, first.params, first.results⟩, first) :: imports, ?_, ?_⟩
    · simp only [importsOf, hfirst, hi]
      rfl
    · intro name hname host hhost
      by_cases hn : n = name
      · subst hn
        rw [hfirst] at hhost
        cases hhost
        simp
      · have hmem : name ∈ rest := (mem_cons.1 hname).resolve_left (Ne.symm hn)
        have hne : (name == n) = false := beq_false_of_ne (Ne.symm hn)
        simpa [find?_cons, lookup_cons, hn, hne] using hfind name hmem host hhost

/-- The module of a program whose calls have hosts. -/
theorem Engine.link_ok {e : Engine} {p : Program}
    (h : ∀ name ∈ p.symbols.calls, ∃ host, e.hosts.lookup name = some host) :
    ∃ m hosts, e.link p = .ok (m, hosts) ∧ m.body = p.code ∧ m.params = entryParams ∧
      m.locals = p.symbols.localsExcept entryParams ∧
      m.pages = (if p.symbols.usesMemory then e.config.memoryPages else 0) ∧
      ∀ name ∈ p.symbols.calls, ∀ host, e.hosts.lookup name = some host →
        m.findImport? name = some ⟨Engine.importScope, name, host.params, host.results⟩ ∧
        hosts.lookup name = some host.call := by
  obtain ⟨imports, hi, hfind⟩ := importsOf_lookup h
  cases hlink : e.link p with
  | error f =>
    rw [Engine.link, hi] at hlink
    cases hlink
  | ok x =>
    rw [Engine.link, hi] at hlink
    cases hlink
    exact ⟨_, _, rfl, rfl, rfl, rfl, rfl, hfind⟩

theorem Engine.lookup_of_importsOf {hosts} : ∀ {names imports}, Engine.importsOf hosts names = .ok imports →
    ∀ name ∈ names, ∃ host, hosts.lookup name = some host
  | [], _, _ => fun _ hname => nomatch hname
  | n :: rest, imports, h => by
    rw [importsOf] at h
    cases hn : hosts.lookup n with
    | none =>
      rw [hn] at h
      cases h
    | some host =>
      rw [hn] at h
      obtain ⟨later, hlater, -⟩ := bind_ok h
      exact forall_mem_cons.2 ⟨⟨host, hn⟩, lookup_of_importsOf hlater⟩

theorem Engine.link_inv {e : Engine} {p : Program} {m : Module} {hosts : List (String × Host)}
    (h : e.link p = .ok (m, hosts)) : m.body = p.code ∧ m.params = entryParams ∧
      m.locals = p.symbols.localsExcept entryParams ∧
      ∀ name ∈ p.symbols.calls, ∃ host, e.hosts.lookup name = some host ∧
        m.findImport? name = some ⟨Engine.importScope, name, host.params, host.results⟩ ∧
        hosts.lookup name = some host.call := by
  obtain ⟨imports, hi, -⟩ := bind_ok h
  have hhosts := lookup_of_importsOf hi
  obtain ⟨m', hosts', hlink, hbody, hparams, hlocals, -, hcalls⟩ := link_ok hhosts
  rw [h] at hlink
  cases hlink
  refine ⟨hbody, hparams, hlocals, fun name hname => ?_⟩
  obtain ⟨host, hhost⟩ := hhosts name hname
  exact ⟨host, hhost, hcalls name hname host hhost⟩

theorem slotNames_of_nodup {names} (h : names.Nodup) : slotNames names = names := by
  have hfold : ∀ (rest slots : List Text), (slots ++ rest).Nodup →
      rest.foldl (fun slots n => if slots.contains n then slots else slots ++ [n]) slots =
        slots ++ rest := by
    intro rest
    induction rest with
    | nil => exact fun slots _ => (append_nil slots).symm
    | cons n rest ih =>
      intro slots h
      have hn : slots.contains n = false := by
        rw [nodup_append] at h
        simpa using fun hmem => h.2.2 n hmem n mem_cons_self rfl
      rw [foldl_cons, if_neg (by rw [hn]; exact Bool.false_ne_true), ih _ (by simpa using h),
        append_assoc]
      rfl
  exact hfold names [] h

/-! ## Instances -/

section
variable {m : Module} {hosts : List (String × Host)} {limit : Nat} {maxPages : Int} {links : Links}
  {memory : Memory}

/-- The machine that runs a module of which the parameters and locals are distinct. -/
def Module.machine (m : Module) (hosts : List (String × Host)) (links : Links) (limit : Nat) : Machine :=
  ⟨m, m.body.toArray, links, ((m.params ++ m.locals).map Instr.ident).toArray, hosts, limit⟩

theorem Module.runFor_machine (fuel : Nat) (s : State) :
    (m.machine hosts links limit).runFor fuel s = (m.machine hosts links 0).runFor fuel s :=
  (m.machine hosts links 0).runFor_withLimit limit fuel s

theorem Instance.create_ok (hn : (m.params ++ m.locals).Nodup) (hl : link m.body = .ok links)
    (hm : Memory.create m.pages maxPages = .ok memory) : Instance.create m hosts limit maxPages =
      .ok ⟨m.machine hosts links (if limit == 0 then defaultStepLimit else limit), memory, 0, []⟩ := by
  have hslots : slotNames ((m.params ++ m.locals).map Instr.ident) =
      (m.params ++ m.locals).map Instr.ident :=
    slotNames_of_nodup (hn.map fun _ _ => Instr.ident_injective)
  simp only [Instance.create, hl, hm, hslots]
  rfl

theorem Instance.create_inv {x} (hn : (m.params ++ m.locals).Nodup)
    (h : Instance.create m hosts limit maxPages = .ok x) :
    ∃ links memory, link m.body = .ok links ∧ Memory.create m.pages maxPages = .ok memory ∧
      x = ⟨m.machine hosts links (if limit == 0 then defaultStepLimit else limit), memory, 0, []⟩ := by
  obtain ⟨links, hl, hrest⟩ := bind_ok h
  obtain ⟨memory, hm, -⟩ := bind_ok hrest
  rw [Instance.create_ok hn hl hm] at h
  exact ⟨links, memory, hl, hm, (Except.ok.inj h).symm⟩

theorem Instance.create_parts {x} (h : Instance.create m hosts limit maxPages = .ok x) :
    x.machine.module = m ∧ x.machine.code = m.body.toArray ∧ link m.body = .ok x.machine.links ∧
      x.cells = [] := by
  obtain ⟨links, hl, h⟩ := bind_ok h
  obtain ⟨memory, -, h⟩ := bind_ok h
  cases h
  exact ⟨rfl, rfl, hl, rfl⟩

theorem Memory.reset_of_create {pages} (h : Memory.create pages maxPages = .ok memory) :
    memory.reset = memory := by
  have hbytes : memory = ⟨Array.replicate (Memory.byteCount pages) 0⟩ := by
    simp only [Memory.create] at h
    generalize (if maxPages == 0 then defaultMaxPages else maxPages) = bound at h
    split at h
    · cases h
    · exact (Except.ok.inj h).symm
  simp [hbytes, Memory.reset, Memory.size]

/-- The world that a run with the arguments `a` and `b` starts in. -/
def World.initial (a b : Int32) (memory : Memory) : World where
  locals := fun name => if name = "a" then a else if name = "b" then b else 0
  memory := memory
  calls := []
  logs := []

/-- An instance starts in the initial world. -/
theorem initialState_shows {a b} (hp : m.params = ["a", "b"])
    (hn : (m.params ++ m.locals).Nodup) (hm : Memory.create m.pages maxPages = .ok memory) :
    Conf.Shows (m.params ++ m.locals) ⟨0, [], [], .initial a b memory⟩
      (Instance.initialState ⟨m.machine hosts links limit, memory, 0, []⟩ [a, b]) := by
  have hlocals : m.locals.map (World.initial a b memory).locals =
      List.replicate m.locals.length 0 := by
    rw [hp] at hn
    refine map_eq_replicate_iff.2 fun name hname => ?_
    have hne : name ≠ "a" ∧ name ≠ "b" := by
      constructor <;> rintro rfl <;> simp [hname] at hn
    simp [World.initial, hne]
  have hsize : ((m.params ++ m.locals).map Instr.ident).toArray.size = m.locals.length + 2 := by
    simp [hp]
  have htake : (List.replicate (m.locals.length + 2) (0 : Int32)).take m.locals.length =
      List.replicate m.locals.length 0 := by simp
  refine ⟨rfl, rfl, rfl, ⟨?_, Memory.reset_of_create hm, rfl, rfl⟩, rfl⟩
  change (Instance.initialLocals ((m.params ++ m.locals).map Instr.ident).toArray.size [a, b]).toList = _
  rw [hsize, hp, map_append, hlocals]
  exact congrArg (a :: b :: ·) htake

theorem Module.machine_provides {table calls}
    (hn : (m.params ++ m.locals).Nodup)
    (h : ∀ name ∈ calls, ∀ host, table.lookup name = some host →
      m.findImport? name = some ⟨Engine.importScope, name, host.params, host.results⟩ ∧
        hosts.lookup name = some host.call) :
    (m.machine hosts links limit).Provides (m.params ++ m.locals) table calls where
  slots := rfl
  nodup := hn
  callee := by
    intro name hname host hhost
    obtain ⟨himport, hcall⟩ := h name hname host hhost
    refine ⟨⟨Engine.importScope, name, host.params, host.results⟩, ?_, rfl, rfl⟩
    simp only [Machine.callee?, Module.machine, himport, hcall]
    rfl

end

/-! ## Runs of an engine -/

/-- What a run reports, as an execution. -/
def Execution.ofRun : Instance × RunResult → Execution
  | (x, r) =>
    match r.result with
    | .ok value => ⟨value, x.steps, r.logs, none⟩
    | .error t => ⟨0, x.steps, r.logs, some t⟩

theorem Execution.trap_ofRun {xr t}
    (h : (Execution.ofRun xr).trap = some t) : xr.2.result = .error t := by
  obtain ⟨x, ⟨result, calls, logs⟩⟩ := xr
  cases result with
  | ok value => cases h
  | error t' => exact congrArg Except.error (Option.some.inj h)

/-- The arguments of the entry function: missing ones are zero. -/
def Engine.fullArgs (args : List Int32) : List Int32 :=
  args ++ List.replicate (entryParams.length - args.length) 0

theorem Engine.run_eq (e : Engine) (p : Program) (canceled : Bool) {args}
    (hargs : args.length ≤ entryParams.length) : e.run p canceled args = e.link p >>= fun l =>
      ((Instance.create l.1 l.2 e.config.stepLimit 0).mapError .running).map fun x =>
        .ofRun (x.run canceled (fullArgs args)) := by
  unfold Engine.run
  rw [if_neg (Nat.not_lt.2 hargs)]
  cases e.link p with
  | error f => rfl
  | ok l =>
    show (Instance.create l.1 l.2 e.config.stepLimit 0).mapError EngineFault.running >>= _ =
      ((Instance.create l.1 l.2 e.config.stepLimit 0).mapError EngineFault.running).map _
    cases Instance.create l.1 l.2 e.config.stepLimit 0 <;> rfl

theorem exists_run (e : Engine) (config : Config) (isExpr : Bool) (text : Text) (limit : Nat)
    (maxPages : Int) (check : Program → Instance → Bool)
    (h : (Program.build config isExpr text >>= fun p => e.link p >>= fun l =>
      ((Instance.create l.1 l.2 limit maxPages).mapError .running).map (check p)).toOption = some true) :
    ∃ p m hosts x, Program.build config isExpr text = .ok p ∧ e.link p = .ok (m, hosts) ∧
      Instance.create m hosts limit maxPages = .ok x ∧ check p x = true := by
  obtain ⟨p, hp, h⟩ := bind_ok (toOption_ok h)
  obtain ⟨⟨m, hosts⟩, hlink, h⟩ := bind_ok h
  obtain ⟨x, hx, hcheck⟩ := map_ok h
  exact ⟨p, m, hosts, x, hp, hlink, mapError_ok hx, hcheck⟩

/-! ## Runs of a module -/

section
variable {m : Module} {hosts : List (String × Host)} {limit : Nat} {maxPages : Int} {links : Links}
  {memory : Memory} {args : List Int32} {s : State} {ending : Ending}

/-- What a run that ended in a state returns. -/
def Instance.outcome (x : Instance) (s : State) : Ending → Except Trap Int32
  | .finished => x.resultOf s
  | .trapped t => .error t

/-- With a step limit a module runs on arguments to an end, which is what the run shows. -/
def Module.RunsTo (m : Module) (hosts : List (String × Host)) (limit : Nat) (maxPages : Int)
    (args : List Int32) (s : State) (ending : Ending) : Prop :=
  ∃ x, Instance.create m hosts limit maxPages = .ok x ∧
    x.machine.runFor x.machine.limit (x.initialState args) = (s, ending) ∧
    x.run false args = (x.keep s, ⟨x.outcome s ending, s.calls.reverse, s.logs.reverse⟩)

theorem Instance.run_of_runFor {x : Instance} (hargs : args.length = x.machine.module.params.length)
    (h : x.machine.runFor x.machine.limit (x.initialState args) = (s, ending)) :
    x.run false args = (x.keep s, ⟨x.outcome s ending, s.calls.reverse, s.logs.reverse⟩) := by
  cases ending <;> simp [Instance.run, hargs, h, Instance.outcome]

theorem Instance.run_refused {x : Instance} (hargs : args.length ≠ x.machine.module.params.length) :
    x.run false args = (x, ⟨.error .argumentCount, [], []⟩) := by
  simp [Instance.run, hargs]

theorem Instance.outcome_error {x : Instance} {t : Trap} (h : x.outcome s ending = .error t) :
    ending = .trapped t ∨ t = .stackUnderflow := by
  cases ending with
  | trapped =>
    cases h
    exact .inl rfl
  | finished =>
    unfold Instance.outcome Instance.resultOf at h
    dsimp only at h
    split at h
    · cases hpop : s.stack.pop with
      | error t' =>
        rw [hpop] at h
        cases h
        exact .inr (Stack.pop_error hpop)
      | ok v =>
        rw [hpop] at h
        cases h
    · cases h

theorem Instance.run_error {x : Instance} {canceled : Bool} {t : Trap}
    (h : (x.run canceled args).2.result = .error t) :
    t = .canceled ∨ t = .argumentCount ∨ t = .stackUnderflow ∨
      ∃ s, x.machine.runFor x.machine.limit (x.initialState args) = (s, .trapped t) := by
  cases canceled with
  | true =>
    cases h
    exact .inl rfl
  | false =>
    by_cases hargs : args.length = x.machine.module.params.length
    · rcases hrun : x.machine.runFor x.machine.limit (x.initialState args) with ⟨s, ending⟩
      rw [Instance.run_of_runFor hargs hrun] at h
      rcases Instance.outcome_error h with rfl | ht
      · exact .inr (.inr (.inr ⟨s, rfl⟩))
      · exact .inr (.inr (.inl ht))
    · rw [Instance.run_refused hargs] at h
      cases h
      exact .inr (.inl rfl)

/-- The module ends in a world, with a value on top of the stack if there is one, under every step
limit that is large enough. -/
def Module.EndsIn (m : Module) (hosts : List (String × Host)) (maxPages : Int) (args : List Int32)
    (ending : Ending) (w : World) (value : Option Int32) : Prop :=
  ∃ n, ∀ limit, n ≤ limit → ∃ s, m.RunsTo hosts limit maxPages args s ending ∧
    w.Shows (m.params ++ m.locals) s ∧ ∀ v ∈ value, s.stack.live.head? = some v

/-- How a module has to end where statements end. -/
def Module.EndsAs (m : Module) (hosts : List (String × Host)) (maxPages : Int) (args : List Int32) :
    Except Halt Signal → World → Prop
  | .ok .normal, w => m.EndsIn hosts maxPages args .finished w none
  | .ok (.ret value), w => m.EndsIn hosts maxPages args .finished w value
  | .error (.trap t), w => m.EndsIn hosts maxPages args (.trapped t) w none
  | _, _ => False

theorem Module.runsTo_of_runFor (hn : (m.params ++ m.locals).Nodup) (hl : link m.body = .ok links)
    (hm : Memory.create m.pages maxPages = .ok memory) (hargs : args.length = m.params.length)
    (h : (m.machine hosts links 0).runFor (if limit == 0 then defaultStepLimit else limit)
      (Instance.initialState ⟨m.machine hosts links 0, memory, 0, []⟩ args) = (s, ending)) :
    m.RunsTo hosts limit maxPages args s ending := by
  have hrun {k : Nat} : (m.machine hosts links k).runFor (if limit == 0 then defaultStepLimit else limit)
      (Instance.initialState ⟨m.machine hosts links k, memory, 0, []⟩ args) = (s, ending) :=
    (Module.runFor_machine _ _).trans h
  exact ⟨_, Instance.create_ok hn hl hm, hrun, Instance.run_of_runFor hargs hrun⟩

variable {table : HostTable} {calls : List String} {stmts : List Atom} {a b : Int32}

theorem StmtsCode.endsAs (h : StmtsCode none stmts m.body) (hp : m.params = ["a", "b"])
    (hcovers : ∀ links, (m.machine hosts links 0).Covers (m.params ++ m.locals) table calls)
    (hs : ∀ site ∈ callSitesOf true stmts, table.Serves site)
    (hm : Memory.create m.pages maxPages = .ok memory) :
    (∀ r w, Evaluates table stmts (.initial a b memory) r w → m.EndsAs hosts maxPages [a, b] r w) ∧
      (Diverges table stmts (.initial a b memory) →
        ∀ limit, ∃ s, m.RunsTo hosts limit maxPages [a, b] s (.trapped .stepLimit)) := by
  obtain ⟨links, hl⟩ := h.balanced.link_ok
  have hn := (hcovers links).provides.nodup
  have hshows := @initialState_shows m hosts 0 maxPages links memory a b hp hn hm
  have hended (fuel : Nat) : Ended (m.machine hosts links 0) (m.params ++ m.locals) fuel
      ⟨0, [], [], .initial a b memory⟩
      (Left (m.machine hosts links 0) (m.params ++ m.locals) none (0 + m.body.length) [] [])
      (execStmts table fuel stmts (.initial a b memory)) :=
    h.sim rfl (hcovers links) ⟨[], [], by simp [Module.machine], rfl⟩
      (linked_of_link hl) hs (by rintro f ⟨⟩)
  have hruns {limit : Nat} {s : State} {ending : Ending} :=
    @Module.runsTo_of_runFor m hosts limit maxPages links memory [a, b] s ending hn hl hm
      (by rw [hp]; rfl)
  have hlimit {n limit : Nat} (h : n < limit) : n < if limit == 0 then defaultStepLimit else limit := by
    rwa [if_neg (by simpa using Nat.ne_of_gt (Nat.zero_lt_of_lt h))]
  constructor
  · rintro r w ⟨hne, fuel, he⟩
    have h := hended fuel
    rw [he] at h
    match r, h with
    | .ok .normal, ⟨n, _, hgo, hw, extra, w', hc⟩ =>
      subst hc hw
      refine ⟨n + 1, fun limit hle => ?_⟩
      obtain ⟨s, hrun, hw⟩ :=
        hgo.runFor_end hshows (by simp [Module.machine]) (Nat.le_of_lt (hlimit hle))
      exact ⟨s, hruns hrun, hw, by rintro _ ⟨⟩⟩
    | .ok (.ret value), ⟨n, _, hgo, hw, hf⟩ =>
      subst hw
      refine ⟨n + 1, fun limit hle => ?_⟩
      obtain ⟨s, hrun, hw, hv⟩ := hgo.runFor_finishes hshows hf (hlimit hle)
      exact ⟨s, hruns hrun, hw, hv⟩
    | .error (.trap t), ⟨n, ht⟩ =>
      refine ⟨n + 1, fun limit hle => ?_⟩
      obtain ⟨s, hrun, hw⟩ := ht.runFor_trapped hshows (hlimit hle)
      exact ⟨s, hruns hrun, hw, by rintro _ ⟨⟩⟩
    | .error .outOfFuel, _ => exact hne rfl
  · intro hdiverges limit
    obtain ⟨steps, hsteps⟩ : ∃ n, n = if limit == 0 then defaultStepLimit else limit := ⟨_, rfl⟩
    -- a bound on the iterations that the step limit does not reach
    have h := hended (steps + 1)
    rw [← Prod.eta (execStmts ..), hdiverges] at h
    obtain ⟨n, c, hle, hgo⟩ := h
    obtain ⟨s, hrun⟩ := hgo.runFor_stepLimit hshows hle
    exact ⟨s, hruns (hsteps ▸ hrun)⟩

end

/-! ## Linked programs -/

theorem Symbols.nodup_localsExcept (run : List Atom) :
    (entryParams ++ (Symbols.ofRun run).localsExcept entryParams).Nodup := by
  refine nodup_append.2 ⟨by decide, (sortedUnique_nodup _).filter _, ?_⟩
  rintro name hparam _ hlocal rfl
  have hnot := (mem_filter.1 hlocal).2
  simp [hparam] at hnot

section
variable {e : Engine} {p : Program} {m : Module} {hosts : List (String × Host)} {links : Links}
  {limit : Nat}

/-- What holds of a program that was built. -/
structure Program.Sound (p : Program) : Prop where
  codeOf : CodeOf p.atoms p.code
  balanced : Balanced p.code
  symbols : p.symbols = Symbols.ofRun p.atoms

theorem Program.Sound.nodup (h : p.Sound) (hlink : e.link p = .ok (m, hosts)) :
    (m.params ++ m.locals).Nodup := by
  obtain ⟨-, hparams, hlocals, -⟩ := link_inv hlink
  rw [hparams, hlocals, h.symbols]
  exact Symbols.nodup_localsExcept p.atoms

theorem Program.Sound.mem_names {name} (h : p.Sound) (hlink : e.link p = .ok (m, hosts)) {i : Instr}
    (hi : i ∈ p.code) (hop : i.op = .localGet ∨ i.op = .localSet) (himm : i.imm = Instr.ident name) :
    name ∈ m.params ++ m.locals := by
  obtain ⟨-, hparams, hlocals, -⟩ := link_inv hlink
  obtain ⟨_, hname, himm'⟩ := h.codeOf.local_mem hi hop
  obtain rfl := Instr.ident_injective (himm.symm.trans himm')
  rw [hparams, hlocals, h.symbols, mem_append]
  by_cases hparam : name ∈ entryParams
  · exact .inl hparam
  · exact .inr (mem_filter.2 ⟨hname, by simpa using hparam⟩)

/-- The machine of a linked program covers the names in its code. -/
theorem Program.Sound.machine_covers (h : p.Sound) (hlink : e.link p = .ok (m, hosts)) :
    (m.machine hosts links limit).Covers (m.params ++ m.locals) e.hosts p.symbols.calls := by
  obtain ⟨hbody, -, -, hcalls⟩ := link_inv hlink
  have hcode {i : Instr} (hi : i ∈ (m.machine hosts links limit).code) : i ∈ p.code :=
    hbody ▸ mem_toArray.1 hi
  refine ⟨⟨?_, fun name hi => h.mem_names hlink (hcode hi) (.inl rfl) rfl, fun name hi => ?_⟩,
    fun name hi => h.mem_names hlink (hcode hi) (.inr rfl) rfl⟩
  · refine Module.machine_provides (h.nodup hlink) fun name hname host hhost => ?_
    obtain ⟨host', hhost', himport⟩ := hcalls name hname
    rw [hhost] at hhost'
    cases hhost'
    exact himport
  · obtain ⟨_, hmem, himm⟩ := h.codeOf.call_mem_iff.1 (hcode hi)
    rw [h.symbols]
    exact Instr.ident_injective himm ▸ hmem

end

theorem Program.sound_of_build {config isExpr text p}
    (h : Program.build config isExpr text = .ok p) : p.Sound := by
  obtain ⟨hr, hg, hsymbols, -⟩ := Program.build_inv h
  cases isExpr with
  | true =>
    obtain ⟨a, ha, hcode⟩ := exprCode_of_generate hr hg
    exact ⟨ha ▸ hcode.codeOf, hcode.balanced, hsymbols⟩
  | false =>
    have hcode := stmtsCode_of_generate hr hg
    exact ⟨hcode.codeOf, hcode.balanced, hsymbols⟩

/-! ## Compiled statements -/

/-- Statements that are read and lowered, with calls that the hosts of an engine serve, are compiled to
a module that does what they do, on every pair of arguments. If they end, every run with a large enough
step limit ends alike, in a state that shows the same locals, memory, calls and log, and with the same
trap if there is one. If they diverge, every run ends at its step limit. -/
theorem compiled_statements_simulate (e : Engine) {text : Text} {stmts : List Atom}
    {code : List Instr} (hp : parseStmts e.config.maxDepth text = .ok stmts)
    (hg : generateStmts stmts = .ok code) (hs : ∀ site ∈ callSitesOf true stmts, e.hosts.Serves site) :
    ∃ p m hosts, Program.build e.config false text = .ok p ∧ e.link p = .ok (m, hosts) ∧
      m.body = code ∧ m.params = ["a", "b"] ∧
      m.pages = (if (Symbols.ofRun stmts).usesMemory then e.config.memoryPages else 0) ∧
      ∀ maxPages memory, Memory.create m.pages maxPages = .ok memory → ∀ a b : Int32,
        (∀ r w, Evaluates e.hosts stmts (.initial a b memory) r w →
          m.EndsAs hosts maxPages [a, b] r w) ∧
        (Diverges e.hosts stmts (.initial a b memory) →
          ∀ limit, ∃ s, m.RunsTo hosts limit maxPages [a, b] s (.trapped .stepLimit)) := by
  have hcode := stmtsCode_of_generate hp hg
  obtain ⟨p, hb, rfl, hsymbols⟩ := @Program.build_ok _ _ _ _ false hp hg
  have hhosts := hcode.codeOf.calls_served hs
  rw [← hsymbols] at hhosts
  obtain ⟨m, hosts, hlink, hbody, hparams, -, hpages, -⟩ := Engine.link_ok hhosts
  rw [hsymbols] at hpages
  refine ⟨p, m, hosts, hb, hlink, hbody, hparams, hpages, fun maxPages memory hm a b => ?_⟩
  rw [← hbody] at hcode
  exact hcode.endsAs hparams (fun _ => (Program.sound_of_build hb).machine_covers hlink) hs hm

/-- A loop that a host ends: `next` answers by how many calls were made before. -/
theorem compiled_statements_simulate_countdown :
    let e := (Engine.create .standard none).register "next" ⟨0, 1, fun history _ =>
      history.reply (.ok [ofBool (history.calls.length < 4)])⟩
    ∃ p m hosts w, Program.build Config.standard false (.ofString
        "while (next()) { log(a); a -= b }; assert(a)") = .ok p ∧
      e.link p = .ok (m, hosts) ∧ w.locals "a" = 1 ∧
      w.calls = [⟨"next", []⟩, ⟨"log", [2]⟩, ⟨"next", []⟩, ⟨"log", [3]⟩, ⟨"next", []⟩] ∧
      m.EndsIn hosts 0 [3, 1] .finished w none := by
  intro e
  have hok : (parseStmts Config.standard.maxDepth (.ofString
      "while (next()) { log(a); a -= b }; assert(a)") >>= fun stmts =>
        (generateStmts stmts).mapError (fun _ => .unexpectedNode) >>= fun _ =>
          let x := execStmts e.hosts 3 stmts (.initial 3 1 ⟨#[]⟩)
          .ok (decide (callSitesOf true stmts = [⟨"next", 0, true⟩, ⟨"log", 1, false⟩] ∧
            (Symbols.ofRun stmts).usesMemory = false ∧ x.1 = .ok .normal ∧ x.2.locals "a" = 1 ∧
            x.2.calls =
              [⟨"next", []⟩, ⟨"log", [2]⟩, ⟨"next", []⟩, ⟨"log", [3]⟩, ⟨"next", []⟩]))) = .ok true := by
    decide +kernel
  obtain ⟨stmts, hp, hok⟩ := bind_ok hok
  obtain ⟨code, hg, hx⟩ := bind_ok hok
  obtain ⟨hsites, hmemory, hr, ha, hcalls⟩ := of_decide_eq_true (Except.ok.inj hx)
  have hg := mapError_ok hg
  have hserves : ∀ site ∈ callSitesOf true stmts, e.hosts.Serves site := by
    rw [hsites]
    refine List.forall_mem_cons.2 ⟨⟨_, rfl, rfl, fun _ _ _ => ⟨rfl, ?_⟩, fun _ => rfl⟩,
      List.forall_mem_singleton.2 ⟨_, rfl, rfl, fun _ _ _ => ⟨rfl, ?_⟩, fun h => Bool.noConfusion h⟩⟩
    all_goals
      rintro _ ⟨⟩
      rfl
  obtain ⟨p, m, hosts, hb, hlink, -, -, hpages, hends⟩ := compiled_statements_simulate e hp hg hserves
  have hcreate : Memory.create m.pages 0 = .ok ⟨#[]⟩ := by
    rw [hpages, hmemory, if_neg Bool.false_ne_true]
    rfl
  refine ⟨p, m, hosts, _, hb, hlink, ha, hcalls, ?_⟩
  exact (hends 0 ⟨#[]⟩ hcreate 3 1).1 (.ok .normal) _ ⟨(fun h => nomatch h), 3, Prod.ext hr rfl⟩

end WatScript
