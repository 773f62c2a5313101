import WatScript.Command.Session
import WatScript.Proofs.Caches
import WatScript.Proofs.CompiledRuns
import WatScript.Proofs.JumpTargets

/-!
# Sessions

An input leaves two things behind for the inputs after it: entries in the cache of the engine, and the
settings of the session. The cache has no programs but those that earlier inputs compile to
(`Session.Remembers`), so unless digests collide it makes no difference, and a run depends on nothing of
an engine but its configuration and its hosts. What is left are the settings
(`Session.eval_depends_on_settings`).

Arguments are set by a command that reads no more of them than the entry function has parameters
(`length_readArguments`). So no run is refused for their number (`Engine.run_takesArguments`).
-/

namespace WatScript

open List Engine

/-! ## Arguments -/

theorem length_readArgumentsFrom : ∀ {i parts args},
    readArgumentsFrom i parts = .ok args → args.length = parts.length
  | _, [], _, h => by
    cases h
    rfl
  | _, t :: rest, args, h => by
    unfold readArgumentsFrom at h
    dsimp only at h
    split at h
    · cases h
    · obtain ⟨later, hlater, h⟩ := bind_ok h
      cases h
      exact congrArg (· + 1) (length_readArgumentsFrom hlater)

theorem length_readArguments {t args} (h : readArguments t = .ok args) :
    args.length ≤ entryParams.length := by
  unfold readArguments at h
  split at h
  · cases h
    exact Nat.zero_le _
  · dsimp only at h
    split at h
    · cases h
    · next hle =>
      rw [length_readArgumentsFrom h]
      exact Nat.not_lt.1 hle

/-- The run is not refused for the number of its arguments, neither by the engine nor by the machine. -/
def TakesArguments : Except EngineFault Execution → Prop :=
  Ends (fun x => x.trap ≠ some .argumentCount) fun f =>
    f ≠ .tooManyArguments ∧ f ≠ .running .argumentCount

theorem spansFrom_ends (pc : Nat) (frames : List OpenFrame) (code : List Instr) :
    Ends (fun _ => True) (· = .malformed) (spansFrom pc frames code) := by
  fun_induction spansFrom pc frames code with
  | case1 => trivial
  | case2 | case7 | case8 => rfl
  | case3 _ _ _ _ _ ih | case4 _ _ _ _ _ ih | case5 _ _ _ _ _ ih => exact ih
  | case6 _ _ _ _ _ _ ih => exact ih
  | case9 _ _ _ _ _ _ ih => exact ih.bind fun _ _ => trivial
  | case10 _ _ _ _ _ _ _ _ _ ih => exact ih

theorem Instance.create_ends (m : Module) (hosts : List (String × Host)) (limit : Nat) (maxPages : Int) :
    Ends (fun x => x.machine.module = m) (· ≠ .argumentCount) (Instance.create m hosts limit maxPages) := by
  have hlink : Ends (fun _ => True) (· ≠ Trap.argumentCount) (link m.body) := by
    have hspans := spansFrom_ends 0 [] m.body
    unfold link
    cases hs : spansFrom 0 [] m.body with
    | error t =>
      rw [hs] at hspans
      rintro rfl
      cases hspans
    | ok spans => trivial
  have hmemory : Ends (fun _ => True) (· ≠ Trap.argumentCount) (Memory.create m.pages maxPages) := by
    simp only [Memory.create]
    generalize (if maxPages == 0 then defaultMaxPages else maxPages) = bound
    split
    · simp [Ends]
    · trivial
  exact hlink.bind fun links _ => hmemory.bind fun memory _ => rfl

theorem Engine.importsOf_ends (hosts : HostTable) : ∀ names : List String,
    Ends (fun _ => True) (fun f => f ≠ .tooManyArguments ∧ f ≠ .running .argumentCount)
      (importsOf hosts names)
  | [] => trivial
  | name :: rest => by
    rw [importsOf]
    split
    · exact ⟨by simp, by simp⟩
    · exact (importsOf_ends hosts rest).bind fun _ _ => trivial

/-- With no more arguments than there are parameters, missing ones are filled in and the machine gets as
many as it asks for. -/
theorem Engine.run_takesArguments (e : Engine) (p : Program) (canceled : Bool) {args}
    (hargs : args.length ≤ entryParams.length) : TakesArguments (e.run p canceled args) := by
  have hlink : Ends (fun l => l.1.params = entryParams)
      (fun f => f ≠ .tooManyArguments ∧ f ≠ .running .argumentCount) (e.link p) :=
    (Engine.importsOf_ends e.hosts p.symbols.calls).bind fun _ _ => rfl
  rw [run_eq e p canceled hargs]
  refine hlink.bind fun l hl => ?_
  have hcreate := Instance.create_ends l.1 l.2 e.config.stepLimit 0
  cases hx : Instance.create l.1 l.2 e.config.stepLimit 0 with
  | error t =>
    rw [hx] at hcreate
    exact ⟨by simp, fun h => hcreate (EngineFault.running.inj h)⟩
  | ok x =>
    rw [hx] at hcreate
    intro htrap
    have hlength : (fullArgs args).length = x.machine.module.params.length := by
      rw [hcreate, hl, fullArgs, length_append, length_replicate]
      omega
    have hresult := Execution.trap_ofRun htrap
    cases canceled with
    | true => cases hresult
    | false =>
      rcases hrun : x.machine.runFor x.machine.limit (x.initialState (fullArgs args)) with
        ⟨s, ending⟩
      rw [Instance.run_of_runFor hlength hrun] at hresult
      rcases Instance.outcome_error hresult with rfl | ht
      · rcases Machine.runFor_raises hrun with ht | ht | ⟨_, _, _, -, -, hr⟩
        · cases ht
        · cases ht
        · exact hr
      · cases ht

/-! ## What an engine carries over -/

theorem Engine.run_congr {e e' : Engine} (hconfig : e'.config = e.config) (hhosts : e'.hosts = e.hosts)
    (p : Program) (canceled : Bool) (args : List Int32) :
    e'.run p canceled args = e.run p canceled args := by
  unfold run Engine.link
  rw [hconfig, hhosts]

theorem Engine.compile_keeps (e : Engine) (isExpr : Bool) (source : Text) :
    (e.compile isExpr source).1.config = e.config ∧ (e.compile isExpr source).1.hosts = e.hosts ∧
      ∀ x ∈ (e.compile isExpr source).1.programs.entries, x ∈ e.programs.entries ∨
        ∃ p, Program.direct e.config.maxDepth isExpr source = .ok p ∧ x = (p.key, p) := by
  have hlooked := (AdaptiveCache.get?_entries e.programs
    (Program.keyOf e.config.maxDepth isExpr source.normalize)).2
  obtain ⟨stats, -, ⟨p, -, hr⟩ | ⟨f, -, hr⟩ | ⟨p, hp, hr⟩⟩ := e.compile_cases isExpr source
  · rw [hr]
    exact ⟨rfl, rfl, fun x hx => .inl (hlooked x hx)⟩
  · rw [hr]
    exact ⟨rfl, rfl, fun x hx => .inl (hlooked x hx)⟩
  · rw [hr]
    refine ⟨rfl, rfl, fun x hx => ?_⟩
    rcases AdaptiveCache.mem_of_add hx with rfl | hx
    · exact .inr ⟨p, hp, rfl⟩
    · exact .inl (hlooked x hx)

/-! ## Evaluating inputs -/

namespace Session

/-- The input is a command to the session. -/
def isCommand (source : Text) : Bool :=
  (Text.trimBoth Text.isBlankGlyph source).head? == some (.char ':')

/-- The arguments that an input gives, if it is the command to set them. -/
def givenArguments? (source : Text) : Option (Except ArgumentFault (List Int32)) :=
  let fields := Text.fields (Text.trimBoth Text.isBlankGlyph source)
  if isCommand source ∧ fields.head?.map Text.toString = some ":args" then
    some (readArguments fields.tail.flatten)
  else none

/-- A session on a new engine with the standard library. -/
def opened (config : Config) (store : Option Store) : Session :=
  .start (create config store).withLibrary

/-- The session after inputs, first one first. Inputs arrive as bytes. -/
def evalAll (s : Session) (inputs : List (List UInt8)) : Session :=
  inputs.foldl (fun s input => (s.eval (.decode input)).session) s

/-- The bytes that inputs take the digests of. -/
def hashed (maxDepth : Int64) (inputs : List (List UInt8)) : List (List UInt8) :=
  (inputs.filter fun input => !isCommand (.decode input)).map (fingerprintBytes maxDepth false)

/-- The sessions have the same arguments and show the same. -/
structure SameSettings (s s' : Session) : Prop where
  args : s'.args = s.args
  showsWat : s'.showsWat = s.showsWat

/-- What a session answers to a compiled input, or to one that fails. -/
def answer (s : Session) : Engine × Except EngineFault Program → SessionStep
  | (engine, .error f) => ⟨{ s with engine }, f.diagnostic.text ++ "\n", true⟩
  | (engine, .ok p) => ⟨{ s with engine },
      (if s.showsWat then p.wat else "") ++ outcome (engine.run p false s.args), true⟩

end Session

/-- The steps write the same and leave the same settings. -/
structure SessionStep.Agrees (x x' : SessionStep) : Prop where
  out : x'.out = x.out
  more : x'.more = x.more
  settings : x.session.SameSettings x'.session

namespace Session
variable {s s' : Session} {source : Text}

theorem eval_command (h : isCommand source = true) :
    s.eval source = s.command (Text.fields (Text.trimBoth Text.isBlankGlyph source)) := if_pos h

theorem eval_program (h : isCommand source = false) :
    s.eval source = s.answer (s.engine.compile false source) := by
  refine (if_neg (by simpa [isCommand] using h)).trans ?_
  rcases s.engine.compile false source with ⟨engine, f | p⟩ <;> rfl

theorem command_agrees (h : s.SameSettings s') (fields : List Text) :
    (s.command fields).Agrees (s'.command fields) := by
  obtain ⟨hargs, hwat⟩ := h
  unfold command
  split
  · exact ⟨rfl, rfl, hargs, hwat⟩
  · exact ⟨rfl, rfl, hargs, hwat⟩
  · exact ⟨rfl, rfl, hargs, congrArg (!·) hwat⟩
  · cases readArguments fields.tail.flatten with
    | error f => exact ⟨rfl, rfl, hargs, hwat⟩
    | ok args => exact ⟨rfl, rfl, rfl, hwat⟩
  · exact ⟨rfl, rfl, hargs, hwat⟩

theorem answer_agrees (h : s.SameSettings s') {e e' : Engine} (hconfig : e'.config = e.config)
    (hhosts : e'.hosts = e.hosts) (r : Except EngineFault Program) :
    (s.answer (e, r)).Agrees (s'.answer (e', r)) := by
  obtain ⟨hargs, hwat⟩ := h
  cases r with
  | error f => exact ⟨rfl, rfl, hargs, hwat⟩
  | ok p =>
    refine ⟨?_, rfl, hargs, hwat⟩
    simp only [answer, hargs, hwat, run_congr hconfig hhosts]

theorem command_keeps (s : Session) (fields : List Text) :
    (s.command fields).session.engine = s.engine ∧ ((s.command fields).session.args = s.args ∨
        (s.command fields).session.args.length ≤ entryParams.length) := by
  unfold command
  split
  · exact ⟨rfl, .inl rfl⟩
  · exact ⟨rfl, .inl rfl⟩
  · exact ⟨rfl, .inl rfl⟩
  · cases hread : readArguments fields.tail.flatten with
    | error f => exact ⟨rfl, .inl rfl⟩
    | ok args => exact ⟨rfl, .inr (length_readArguments hread)⟩
  · exact ⟨rfl, .inl rfl⟩

theorem answer_keeps (s : Session) (r : Engine × Except EngineFault Program) :
    (s.answer r).session = { s with engine := r.1 } := by
  obtain ⟨engine, f | p⟩ := r <;> rfl

theorem eval_args_failed {f} (h : givenArguments? source = some (.error f)) :
    s.eval source = ⟨s, f.message ++ "\n", true⟩ := by
  unfold givenArguments? at h
  dsimp only at h
  split at h
  · next hargs =>
    obtain ⟨hcommand, hname⟩ := hargs
    rw [eval_command hcommand]
    unfold command
    rw [hname, Option.some.inj h]
    rfl
  · cases h

/-! ## What a session remembers -/

/-- A session that was opened on an engine and has taken the digests of some bytes. -/
structure Remembers (e : Engine) (hashed : List (List UInt8)) (s : Session) : Prop where
  config : s.engine.config = e.config
  hosts : s.engine.hosts = e.hosts
  programs : ∀ x ∈ s.engine.programs.entries, Entered hashed x.1 x.2
  args : s.args.length ≤ entryParams.length

namespace Remembers
variable {e : Engine} {hashed : List (List UInt8)} {input : List UInt8} {inputs : List (List UInt8)}

theorem opened (config : Config) (store : Option Store) (hashed : List (List UInt8)) :
    (Session.opened config store).Remembers (Session.opened config store).engine hashed :=
  ⟨rfl, rfl, fun _ hx => (by cases hx), Nat.zero_le _⟩

theorem eval (h : s.Remembers e hashed) (hmem : isCommand (.decode input) = false →
      fingerprintBytes e.config.maxDepth false input ∈ hashed) :
    (s.eval (.decode input)).session.Remembers e hashed := by
  cases hc : isCommand (.decode input) with
  | true =>
    rw [eval_command hc]
    obtain ⟨hengine, hargs⟩ :=
      s.command_keeps (Text.fields (Text.trimBoth Text.isBlankGlyph (Text.decode input)))
    refine ⟨hengine ▸ h.config, hengine ▸ h.hosts, hengine ▸ h.programs, ?_⟩
    rcases hargs with hargs | hargs
    · exact hargs ▸ h.args
    · exact hargs
  | false =>
    rw [eval_program hc, answer_keeps]
    obtain ⟨hconfig, hhosts, hentries⟩ := s.engine.compile_keeps false (.decode input)
    refine ⟨hconfig.trans h.config, hhosts.trans h.hosts, fun x hx => ?_, h.args⟩
    rcases hentries x hx with hx | ⟨p, hp, rfl⟩
    · exact h.programs x hx
    · rw [h.config] at hp
      exact .of_direct (hmem hc) hp

theorem evalAll (h : s.Remembers e hashed)
    (hmem : ∀ x ∈ Session.hashed e.config.maxDepth inputs, x ∈ hashed) :
    (s.evalAll inputs).Remembers e hashed := by
  induction inputs generalizing s with
  | nil => exact h
  | cons input inputs ih =>
    refine ih (h.eval fun hc => hmem _ ?_) fun x hx => hmem x ?_
    · simp [Session.hashed, hc]
    · rw [Session.hashed] at hx ⊢
      obtain ⟨y, hy, rfl⟩ := mem_map.1 hx
      rw [mem_filter] at hy
      exact mem_map.2 ⟨y, mem_filter.2 ⟨mem_cons_of_mem _ hy.1, hy.2⟩, rfl⟩

end Remembers

theorem Remembers.agrees {e hashed hashed' input}
    (h : s.Remembers e hashed) (h' : s'.Remembers e hashed') (hsettings : s.SameSettings s')
    (hfree : CollisionFree hashed) (hfree' : CollisionFree hashed')
    (hmem : isCommand (.decode input) = false →
      fingerprintBytes e.config.maxDepth false input ∈ hashed ∧
        fingerprintBytes e.config.maxDepth false input ∈ hashed') :
    (s.eval (.decode input)).Agrees (s'.eval (.decode input)) := by
  cases hc : isCommand (.decode input) with
  | true =>
    rw [eval_command hc, eval_command hc]
    exact command_agrees hsettings _
  | false =>
    obtain ⟨hm, hm'⟩ := hmem hc
    rw [← h.config] at hm
    rw [← h'.config] at hm'
    have hdirect := compile_eq_direct h.programs hfree hm
    have hdirect' := compile_eq_direct h'.programs hfree' hm'
    obtain ⟨hconfig, hhosts, -⟩ := s.engine.compile_keeps false (.decode input)
    obtain ⟨hconfig', hhosts', -⟩ := s'.engine.compile_keeps false (.decode input)
    rw [h.config] at hdirect hconfig
    rw [h'.config] at hdirect' hconfig'
    rw [eval_program hc, eval_program hc, ← Prod.mk.eta (p := s.engine.compile _ _),
      ← Prod.mk.eta (p := s'.engine.compile _ _), hdirect, hdirect']
    refine answer_agrees hsettings (hconfig'.trans hconfig.symm) ?_ _
    rw [hhosts, hhosts', h.hosts, h'.hosts]

/-- What an input writes in a session depends on nothing but the settings at that point, whatever was
evaluated before, and so do the settings it leaves. Setting arguments without success changes nothing.
There are never more than two arguments, and no program is refused for their number. -/
theorem eval_depends_on_settings (config : Config) (store : Option Store)
    (first : List (List UInt8)) (input : List UInt8) :
    let s := (opened config store).evalAll first
    (∀ second, s.SameSettings ((opened config store).evalAll second) →
      CollisionFree (hashed config.effective.maxDepth (first ++ [input])) →
      CollisionFree (hashed config.effective.maxDepth (second ++ [input])) →
      (s.eval (.decode input)).Agrees (((opened config store).evalAll second).eval (.decode input))) ∧
    (∀ f, givenArguments? (.decode input) = some (.error f) →
      s.eval (.decode input) = ⟨s, f.message ++ "\n", true⟩) ∧
    s.args.length ≤ 2 ∧
    ∀ p, (s.engine.compile false (.decode input)).2 = .ok p →
      TakesArguments ((s.engine.compile false (.decode input)).1.run p false s.args) := by
  intro s
  have hremembers (inputs : List (List UInt8)) :
      ((opened config store).evalAll inputs).Remembers (opened config store).engine
        (hashed config.effective.maxDepth (inputs ++ [input])) := by
    refine (Remembers.opened config store _).evalAll fun x hx => ?_
    rw [hashed, filter_append, map_append]
    exact mem_append_left _ hx
  refine ⟨fun second hsettings hfree hfree' => ?_, fun f hf => eval_args_failed hf,
    (hremembers first).args, fun p _ => Engine.run_takesArguments _ p false (hremembers first).args⟩
  refine (hremembers first).agrees (hremembers second) hsettings hfree hfree' fun hc => ?_
  constructor <;> simp [hashed, hc, opened, Session.start, Engine.create, Engine.withLibrary]

/-- The program `a + 1`, after itself and as the first input. -/
theorem eval_depends_on_settings_repeated :
    let input : List UInt8 := [97, 32, 43, 32, 49]
    let s := opened .standard none
    isCommand (.decode input) = false ∧ (s.evalAll [input]).SameSettings s ∧
      ((s.evalAll [input]).eval (.decode input)).Agrees (s.eval (.decode input)) := by
  intro input s
  have hcommand : isCommand (.decode input) = false := by decide
  have hsettings : (s.evalAll [input]).SameSettings s := by
    have heval : s.evalAll [input] = (s.eval (.decode input)).session := rfl
    rw [heval, eval_program hcommand, answer_keeps]
    exact ⟨rfl, rfl⟩
  have hfree {maxDepth : Int64} {inputs : List (List UInt8)} (h : ∀ x ∈ inputs, x = input) :
      CollisionFree (hashed maxDepth inputs) := by
    have hbytes : ∀ x ∈ hashed maxDepth inputs, x = fingerprintBytes maxDepth false input := by
      intro x hx
      obtain ⟨y, hy, rfl⟩ := mem_map.1 hx
      rw [h y (mem_filter.1 hy).1]
    exact fun x hx y hy _ => (hbytes x hx).trans (hbytes y hy).symm
  refine ⟨hcommand, hsettings, ?_⟩
  exact (eval_depends_on_settings .standard none [input] input).1 [] hsettings (hfree (by simp))
    (hfree (by simp))

end Session

end WatScript
