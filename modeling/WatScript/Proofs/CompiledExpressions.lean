import WatScript.Proofs.Returns
import WatScript.Proofs.StepLimit

/-!
# Compiled expressions run as they evaluate

A run through the code of an expression follows its evaluation instruction by instruction
(`ExprCode.crosses`). It comes to the end of the code after exactly as many steps as it has instructions,
with the value on top of an otherwise unchanged stack, or meets the trap of the evaluation on the way
(`ExprCode.through`).
-/

namespace WatScript

open Engine

/-! ## Through the code of an expression -/

/-- So many steps lead from a state to where an evaluation ended, with its value on top of what was on
the stack before; or fewer of them lead to a step that ends in the trap of the evaluation. -/
def Machine.GoesThrough (m : Machine) (names : List String) (n : Nat) (s : State) :
    Except Halt Int32 × World → Prop
  | (.ok v, w) => ∃ s', m.Steps n s s' ∧ s'.pc = s.pc + n ∧ s'.labels = s.labels ∧
      s'.stack.live = v :: s.stack.live ∧ w.Shows names s'
  | (.error (.trap t), w) => ∃ k s' i s'', k < n ∧ m.Steps k s s' ∧ m.code[s'.pc]? = some i ∧
      m.step s' i = .trapped s'' t ∧ w.Shows names s''
  | _ => False

section
variable {m : Machine} {names calls : List String} {s : State} {w : World}

theorem Crossed.goesThrough {n r} (h : Crossed m names False n ⟨s.pc, s.labels, s.stack.live, w⟩
      (Pushed (s.pc + n) s.labels s.stack.live) r) (hc : s.canceled = false) (hw : w.Shows names s) :
    m.GoesThrough names n s r := by
  have hshows : Conf.Shows names ⟨s.pc, s.labels, s.stack.live, w⟩ s := ⟨rfl, rfl, rfl, hw, hc⟩
  match r, h with
  | (.ok v, _), ⟨_, hgo, rfl, _, rfl⟩ =>
    obtain ⟨s', hsteps, hs'⟩ := hgo s hshows
    exact ⟨s', hsteps, hs'.pc, hs'.labels, hs'.live, hs'.world⟩
  | (.error (.trap t), _), ⟨k, hk, htraps⟩ =>
    obtain ⟨s', i, s'', hsteps, hi, hstep, hw'⟩ := htraps s hshows
    exact ⟨k, s', i, s'', hk, hsteps, hi, hstep, hw'⟩

/-- A run from the start of the code of an expression goes through all of it, unless the evaluation
traps. -/
theorem ExprCode.through {hosts : HostTable} {a code} (h : ExprCode a code)
    (hm : m.Knows names hosts calls) (hp : m.Placed s.pc code)
    (hs : ∀ site ∈ a.callSites true, hosts.Serves site) (hc : s.canceled = false)
    (hw : w.Shows names s) : m.GoesThrough names code.length s (a.eval hosts w) :=
  Crossed.goesThrough (h.crosses hm hp fun site hsite => ⟨(hs site hsite).answers, .inr (hs site hsite)⟩)
    hc hw

end

/-! ## Words in memory -/

/-- The number that bytes stand for, lowest byte first. -/
def littleEndian : List UInt8 → Nat
  | [] => 0
  | b :: bs => b.toNat + 256 * littleEndian bs

theorem or_shiftLeft {a i} (h : a < 2 ^ i) (b : Nat) : a ||| b <<< i = a + b <<< i := by
  rw [Nat.or_comm, ← Nat.shiftLeft_add_eq_or_of_lt h, Nat.add_comm]

theorem toNat_shifted (b : UInt8) {k} (h : k.toNat ≤ 24) :
    (b.toUInt32 <<< k).toNat = b.toNat <<< k.toNat := by
  have hb := b.toNat_lt
  have hk : k.toNat % 32 = k.toNat := Nat.mod_eq_of_lt (by omega)
  rw [UInt32.toNat_shiftLeft, UInt8.toNat_toUInt32, hk, Nat.shiftLeft_eq]
  refine Nat.mod_eq_of_lt ?_
  calc b.toNat * 2 ^ k.toNat < 2 ^ 8 * 2 ^ k.toNat := Nat.mul_lt_mul_of_pos_right hb (by positivity)
    _ ≤ 2 ^ 8 * 2 ^ 24 := Nat.mul_le_mul_left _ (Nat.pow_le_pow_right (by decide) h)

theorem toNat_word (a b c d : UInt8) :
    (a.toUInt32 ||| b.toUInt32 <<< 8 ||| c.toUInt32 <<< 16 ||| d.toUInt32 <<< 24).toNat =
      littleEndian [a, b, c, d] := by
  have ha := a.toNat_lt
  have hb := b.toNat_lt
  have hc := c.toNat_lt
  have h8 : (b.toUInt32 <<< 8).toNat = b.toNat <<< 8 := toNat_shifted b (by decide)
  have h16 : (c.toUInt32 <<< 16).toNat = c.toNat <<< 16 := toNat_shifted c (by decide)
  have h24 : (d.toUInt32 <<< 24).toNat = d.toNat <<< 24 := toNat_shifted d (by decide)
  rw [UInt32.toNat_or, UInt32.toNat_or, UInt32.toNat_or, h8, h16, h24, UInt8.toNat_toUInt32]
  rw [or_shiftLeft (i := 8) ha, or_shiftLeft (i := 16), or_shiftLeft (i := 24)]
  · simp only [Nat.shiftLeft_eq, littleEndian]
    omega
  · simp only [Nat.shiftLeft_eq]
    omega
  · simp only [Nat.shiftLeft_eq]
    omega

theorem Memory.load_eq (memory : Memory) (addr : Int32) : memory.load addr =
    let i := Memory.position addr
    if i + 4 ≤ memory.size then
      .ok (.ofNat (littleEndian [memory.byteAt i, memory.byteAt (i + 1), memory.byteAt (i + 2),
        memory.byteAt (i + 3)]))
    else .error .invalidAddress := by
  have hword (w : UInt32) : w.toInt32 = .ofNat w.toNat := by
    apply Int32.toBitVec_inj.1
    simp
  unfold Memory.load
  dsimp only
  rw [hword, toNat_word]

/-! ## Expression programs -/

/-- What an engine shows of a run that does what an evaluation did: the value, after one step for each
instruction, or the trap. -/
def Engine.RunsAs (e : Engine) (p : Program) (args : List Int32) : Except Halt Int32 × World → Prop
  | (.ok v, w) => e.run p false args = .ok ⟨v, p.code.length, w.logs.reverse, none⟩
  | (.error (.trap t), w) => ∃ steps ≤ p.code.length,
      e.run p false args = .ok ⟨0, steps, w.logs.reverse, some t⟩
  | _ => False

section
variable {e : Engine} {p : Program} {m : Module} {hosts : List (String × Host)} {x : Instance}
  {args : List Int32} {r : Except Halt Int32 × World} {names : List String}

theorem Machine.GoesThrough.runsAs
    (h : x.machine.GoesThrough names p.code.length (x.initialState (fullArgs args)) r)
    (hlink : e.link p = .ok (m, hosts)) (hx : Instance.create m hosts e.config.stepLimit 0 = .ok x)
    (hcode : x.machine.code = p.code.toArray) (hresult : m.result = true)
    (hlimit : p.code.length ≤ x.machine.limit) (hargs : args.length ≤ entryParams.length) :
    e.RunsAs p args r := by
  match r, h with
  | (.ok v, w), ⟨s, hsteps, hpc, _, hlive, hw⟩ =>
    obtain ⟨k, hk⟩ := Nat.exists_eq_add_of_le hlimit
    have hoff : x.machine.code[s.pc]? = none := by
      rw [hcode, hpc]
      simp [Instance.initialState]
    have hrun : x.machine.runFor x.machine.limit (x.initialState (fullArgs args)) =
        (s, .finished) := by
      rw [hk, hsteps.runFor_of_steps]
      exact Machine.runFor_off hoff k
    have hvalue : x.resultOf s = .ok v := by
      rw [Instance.resultOf, Instance.create_module hx, if_pos hresult, Stack.pop_of_live hlive]
      rfl
    have hcount : s.steps = p.code.length := hsteps.steps_eq.trans (Nat.zero_add _)
    unfold Engine.RunsAs
    rw [run_finished hlink hx hargs hrun hvalue, hcount, hw.logs]
  | (.error (.trap t), w), ⟨n, s, i, s', hlt, hsteps, hi, hstep, hw⟩ =>
    obtain ⟨k, hk⟩ := Nat.exists_eq_add_of_le (Nat.le_trans hlt hlimit)
    have hrun : x.machine.runFor x.machine.limit (x.initialState (fullArgs args)) =
        (s', .trapped t) := by
      rw [hk, Nat.succ_add_eq_add_succ, hsteps.runFor_of_steps, Machine.runFor_step hi, hstep]
    have hcount : s'.steps = n + 1 := by
      have hlast := (x.machine.step_frame s i).1
      rw [hstep, hsteps.steps_eq] at hlast
      exact hlast.trans (congrArg (· + 1) (Nat.zero_add n))
    refine ⟨n + 1, hlt, ?_⟩
    rw [run_of_runFor hlink hx hargs hrun]
    simp only [Execution.ofRun, Instance.outcome, Instance.keep, hcount, hw.logs]

theorem Program.Sound.exists_instance (h : p.Sound) {memory}
    (hhosts : ∀ name ∈ p.symbols.calls, ∃ host, e.hosts.lookup name = some host)
    (hm : Memory.create (if p.symbols.usesMemory then e.config.memoryPages else 0) 0 = .ok memory) :
    ∃ m hosts x, e.link p = .ok (m, hosts) ∧ Instance.create m hosts e.config.stepLimit 0 = .ok x ∧
      x.machine.limit = (if e.config.stepLimit == 0 then defaultStepLimit else e.config.stepLimit) ∧
      ∀ a b, Conf.Shows (m.params ++ m.locals) ⟨0, [], [], .initial a b memory⟩
        (x.initialState [a, b]) := by
  obtain ⟨m, hosts, hlink, hbody, hparams, -, hpages, -⟩ := link_ok hhosts
  obtain ⟨links, hl⟩ := h.balanced.link_ok
  rw [← hbody] at hl
  rw [← hpages] at hm
  have hn := h.nodup hlink
  exact ⟨m, hosts, _, hlink, Instance.create_ok hn hl hm, rfl,
    fun a b => initialState_shows hparams hn hm⟩

end

theorem Engine.fullArgs_eq {args} (h : args.length ≤ entryParams.length) :
    fullArgs args = [args.getD 0 0, args.getD 1 0] := by
  match args, h with
  | [], _ | [_], _ | [_, _], _ => rfl

theorem Config.exists_memory {config : Config} (h : config.memoryPages ≤ defaultMaxPages)
    (uses : Bool) :
    ∃ memory, Memory.create (if uses then config.effective.memoryPages else 0) 0 = .ok memory := by
  obtain ⟨pages, hpages⟩ : ∃ pages, pages = if uses then config.effective.memoryPages else 0 :=
    ⟨_, rfl⟩
  have hbounds : 0 ≤ pages ∧ pages ≤ defaultMaxPages := by
    rw [hpages, Config.effective]
    dsimp only
    split
    · split
      · decide
      · omega
    · decide
  rw [← hpages]
  refine ⟨⟨Array.replicate (Memory.byteCount pages) 0⟩, if_neg ?_⟩
  simp only [Bool.or_eq_true, decide_eq_true_eq, beq_self_eq_true, if_true]
  omega

/-- An expression that is compiled, with calls that the hosts of an engine serve, runs as it evaluates: to
its value, in as many steps as it has instructions, or to the first trap of the evaluation. Memory is read
in words of four bytes, lowest byte first. Wherever the code of the expression stands, it leaves what is
below it on the stack and pushes one value. -/
theorem compiled_expression_evaluates {config settings : Config} {text : Text} {p : Program}
    {e : Engine} (hp : Program.build config true text = .ok p) (he : e.config = settings.effective)
    (hpages : settings.memoryPages ≤ 16)
    (hlimit : p.code.length ≤ if e.config.stepLimit == 0 then defaultStepLimit else e.config.stepLimit)
    (hserves : ∀ site ∈ callSitesOf true p.atoms, e.hosts.Serves site) {args : List Int32}
    (hargs : args.length ≤ Engine.entryParams.length) :
    ∃ a memory, p.atoms = [a] ∧
      Memory.create (if p.symbols.usesMemory then e.config.memoryPages else 0) 0 = .ok memory ∧
      e.RunsAs p args (a.eval e.hosts (.initial (args.getD 0 0) (args.getD 1 0) memory)) ∧
      (∀ (memory : Memory) (addr : Int32), memory.load addr =
        let i := Memory.position addr
        if i + 4 ≤ memory.size then
          .ok (.ofNat (littleEndian [memory.byteAt i, memory.byteAt (i + 1), memory.byteAt (i + 2),
            memory.byteAt (i + 3)]))
        else .error .invalidAddress) ∧
      ∀ (m : Machine) (names calls : List String) (s : State) (w : World),
        m.Knows names e.hosts calls → m.Placed s.pc p.code → s.canceled = false → w.Shows names s →
        m.GoesThrough names p.code.length s (a.eval e.hosts w) := by
  have hsound := Program.sound_of_build hp
  obtain ⟨hr, hg, hsymbols, htail⟩ := Program.build_inv hp
  obtain ⟨a, ha, hcode⟩ := exprCode_of_generate hr hg
  obtain ⟨memory, hm⟩ := Config.exists_memory hpages p.symbols.usesMemory
  rw [← he] at hm
  rw [ha] at hserves hsymbols
  have hhosts := hcode.codeOf.calls_served hserves
  rw [← hsymbols] at hhosts
  obtain ⟨m, hosts, x, hlink, hx, hxlimit, hshows⟩ := hsound.exists_instance hhosts hm
  have hlinked := hsound.linked hlink hx
  have hsites := sites_singleton.1 hserves
  have hplaced : x.machine.Placed 0 p.code := ⟨[], [], by rw [hlinked.code]; simp, rfl⟩
  refine ⟨a, memory, ha, hm, ?_, Memory.load_eq, fun _ _ _ _ _ hm' hp' hc' hw' =>
    hcode.through hm' hp' hsites hc' hw'⟩
  have hstart := hshows (args.getD 0 0) (args.getD 1 0)
  rw [← Engine.fullArgs_eq hargs] at hstart
  have hthrough := hcode.through hlinked.knows hplaced hsites hstart.canceled hstart.world
  refine hthrough.runsAs hlink hx hlinked.code ?_ (hxlimit ▸ hlimit) hargs
  obtain ⟨hyields, htailCall⟩ := Prod.mk.inj htail
  exact (Engine.result_of_none hlink htailCall).trans hyields

/-- A quotient that truncates, and the trap of its divisor where that is zero. -/
theorem compiled_expression_evaluates_quotient :
    ∃ p, Program.build Config.standard true (.ofString "-max(a, b) / (b - 2)") = .ok p ∧
      p.code.length = 9 ∧
      (Engine.create .standard none).withLibrary.run p false [3, 5] = .ok ⟨-1, 9, [], none⟩ ∧
      ∃ steps ≤ 9, (Engine.create .standard none).withLibrary.run p false [3, 2] =
        .ok ⟨0, steps, [], some .divisionByZero⟩ := by
  obtain ⟨e, he⟩ : ∃ e, e = (Engine.create .standard none).withLibrary := ⟨_, rfl⟩
  rw [← he]
  have hcheck : ((Program.build Config.standard true (.ofString "-max(a, b) / (b - 2)")).map fun p =>
      let value := evalSingle e.hosts p.atoms (.initial 3 5 ⟨#[]⟩)
      let trap := evalSingle e.hosts p.atoms (.initial 3 2 ⟨#[]⟩)
      decide (p.code.length = 9 ∧ callSitesOf true p.atoms = [⟨"max", 2, true⟩] ∧
        p.symbols.usesMemory = false ∧ value.1 = .ok (-1) ∧ value.2.logs = [] ∧
        trap.1 = .error (.trap .divisionByZero) ∧ trap.2.logs = [])).toOption = some true := by
    rw [he]
    decide +kernel
  obtain ⟨p, hp, hcheck⟩ := map_ok (toOption_ok hcheck)
  obtain ⟨hlength, hsites, hmemory, hvalue, hlogs, htrap, htlogs⟩ := of_decide_eq_true hcheck
  have hserves : ∀ site ∈ callSitesOf true p.atoms, e.hosts.Serves site := by
    rw [hsites, he]
    refine List.forall_mem_singleton.2 ⟨_, rfl, rfl, fun _ args hargs => ?_, fun _ => rfl⟩
    obtain ⟨a, b, rfl⟩ := List.length_eq_two.1 hargs
    refine ⟨rfl, ?_⟩
    rintro _ ⟨⟩
    rfl
  have hlimit : p.code.length ≤ if e.config.stepLimit == 0 then defaultStepLimit
      else e.config.stepLimit := by
    rw [hlength, he]
    decide +kernel
  have hconfig : e.config = Config.standard.effective := he ▸ rfl
  have hruns (a b : Int32) : e.RunsAs p [a, b] (evalSingle e.hosts p.atoms (.initial a b ⟨#[]⟩)) := by
    obtain ⟨expr, memory, hexpr, hm, hruns, -⟩ :=
      compiled_expression_evaluates hp hconfig (by decide) hlimit hserves (Nat.le_refl [a, b].length)
    have hempty : Memory.create (if p.symbols.usesMemory then e.config.memoryPages else 0) 0 =
        .ok ⟨#[]⟩ := by
      rw [hmemory, if_neg Bool.false_ne_true]
      rfl
    obtain rfl : memory = ⟨#[]⟩ := Except.ok.inj (hm.symm.trans hempty)
    rw [hexpr]
    exact hruns
  refine ⟨p, hp, hlength, ?_, ?_⟩
  · have hrun := hruns 3 5
    rw [← Prod.eta (evalSingle ..), hvalue] at hrun
    simpa only [Engine.RunsAs, hlength, hlogs, List.reverse_nil] using hrun
  · have hrun := hruns 3 2
    rw [← Prod.eta (evalSingle ..), htrap] at hrun
    simpa only [Engine.RunsAs, hlength, htlogs, List.reverse_nil] using hrun

end WatScript
