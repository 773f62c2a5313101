import WatScript.Proofs.PassedArguments

/-!
# The step limit

A run with a bound on its steps is cut after exactly that many, or it ends by itself within them, and
then it ends alike under every larger bound (`Machine.runFor_cut_or_ends`). No instruction ends in the
trap of the limit, so a run that shows this trap was cut.
-/

namespace WatScript

/-! ## Runs under a bound -/

section
variable {m : Machine} {s s' : State} {n : Nat} {ending : Ending} {i : Instr}

theorem Machine.steps_of_next (hs : m.step s i = .next s') : s'.steps = s.steps + 1 := by
  have hcount := (m.step_frame s i).1
  rwa [hs] at hcount

theorem Machine.Steps.steps_eq (h : m.Steps n s s') : s'.steps = s.steps + n := by
  induction h with
  | refl => rfl
  | head _ hs _ ih =>
    rw [ih, Machine.steps_of_next hs]
    omega

/-- Under every bound from `n` on the run ends in the same way after `n` steps, and not at the limit. -/
structure Machine.EndsBy (m : Machine) (n : Nat) (s s' : State) (ending : Ending) : Prop where
  own : ending ≠ .trapped .stepLimit
  steps : s'.steps = s.steps + n
  same : ∀ fuel, n ≤ fuel → m.runFor fuel s = (s', ending)

theorem Machine.EndsBy.off (h : m.code[s.pc]? = none) : m.EndsBy 0 s s .finished :=
  ⟨nofun, rfl, fun fuel _ => Machine.runFor_off h fuel⟩

theorem Machine.EndsBy.step {t} (hi : m.code[s.pc]? = some i) (hs : m.step s i = .next t)
    (h : m.EndsBy n t s' ending) : m.EndsBy (n + 1) s s' ending := by
  refine ⟨h.own, ?_, fun fuel hle => ?_⟩
  · rw [h.steps, Machine.steps_of_next hs]
    omega
  · obtain ⟨k, rfl⟩ : ∃ k, fuel = k + 1 := ⟨fuel - 1, by omega⟩
    rw [Machine.runFor_step hi, hs]
    exact h.same k (by omega)

theorem Machine.EndsBy.finished (hi : m.code[s.pc]? = some i) (hs : m.step s i = .finished s') :
    m.EndsBy 1 s s' .finished := by
  refine ⟨nofun, ?_, fun fuel hle => ?_⟩
  · have hcount := (m.step_frame s i).1
    rwa [hs] at hcount
  · obtain ⟨k, rfl⟩ : ∃ k, fuel = k + 1 := ⟨fuel - 1, by omega⟩
    rw [Machine.runFor_step hi, hs]

theorem Machine.EndsBy.trapped {t} (hi : m.code[s.pc]? = some i)
    (hs : m.step s i = .trapped s' t) : m.EndsBy 1 s s' (.trapped t) := by
  refine ⟨?_, ?_, fun fuel hle => ?_⟩
  · rintro ⟨⟩
    rcases Machine.step_raises hs with ht | ht <;> cases ht
  · have hcount := (m.step_frame s i).1
    rwa [hs] at hcount
  · obtain ⟨k, rfl⟩ : ∃ k, fuel = k + 1 := ⟨fuel - 1, by omega⟩
    rw [Machine.runFor_step hi, hs]

/-- A run is cut after as many steps as it may take, or ends by itself before. -/
theorem Machine.runFor_cut_or_ends (m : Machine) (fuel : Nat) (s : State) :
    (∃ s', m.Steps fuel s s' ∧ m.runFor fuel s = (s', .trapped .stepLimit)) ∨
      ∃ n s' ending, n ≤ fuel ∧ m.EndsBy n s s' ending := by
  induction fuel generalizing s with
  | zero =>
    cases hi : m.code[s.pc]? with
    | none => exact .inr ⟨0, s, _, Nat.le_refl 0, .off hi⟩
    | some i => exact .inl ⟨s, .refl, Machine.runFor_cut hi⟩
  | succ fuel ih =>
    cases hi : m.code[s.pc]? with
    | none => exact .inr ⟨0, s, _, Nat.zero_le _, .off hi⟩
    | some i =>
      cases hs : m.step s i with
      | next t =>
        rcases ih t with ⟨s', hsteps, hrun⟩ | ⟨n, s', ending, hle, hends⟩
        · refine .inl ⟨s', .head hi hs hsteps, ?_⟩
          rw [Machine.runFor_step hi, hs]
          exact hrun
        · exact .inr ⟨n + 1, s', ending, Nat.succ_le_succ hle, hends.step hi hs⟩
      | finished t => exact .inr ⟨1, t, _, by omega, .finished hi hs⟩
      | trapped t trap => exact .inr ⟨1, t, _, by omega, .trapped hi hs⟩

theorem Machine.step_calls_suffix (m : Machine) (s : State) (i : Instr) :
    s.calls <:+ (m.step s i).state.calls := by
  rcases m.step_calls s i with h | ⟨-, c, -, h⟩
  · exact ⟨[], h.symm⟩
  · rw [h]
    exact List.suffix_cons c s.calls

theorem Machine.runFor_calls_suffix (m : Machine) (fuel : Nat) (s : State) :
    s.calls <:+ (m.runFor fuel s).1.calls :=
  Machine.runFor_keeps (P := fun t => s.calls <:+ t.calls)
    (fun t i ht => ht.trans (m.step_calls_suffix t i)) (List.suffix_refl s.calls) fuel

end

/-! ## Limits of an instance -/

/-- The instance with another limit. -/
def Instance.withLimit (x : Instance) (limit : Nat) : Instance :=
  { x with machine := { x.machine with limit } }

section
variable {m : Module} {hosts : List (String × Host)} {n k : Nat} {maxPages : Int} {x : Instance}
  {args : List Int32} {s : State} {ending : Ending}

theorem Instance.create_withLimit (hx : Instance.create m hosts n maxPages = .ok x) (hn : 0 < n)
    (hk : 0 < k) : x.steps = 0 ∧ x.machine.limit = n ∧
      Instance.create m hosts k maxPages = .ok (x.withLimit k) := by
  obtain ⟨links, hl, hx⟩ := bind_ok hx
  obtain ⟨memory, hm, hx⟩ := bind_ok hx
  have hpositive {j : Nat} (hj : 0 < j) : (if j == 0 then defaultStepLimit else j) = j :=
    if_neg (by simpa using Nat.ne_of_gt hj)
  rw [hpositive hn] at hx
  cases hx
  refine ⟨rfl, rfl, ?_⟩
  simp only [Instance.create, hl, hm, hpositive hk]
  rfl

theorem Instance.run_withLimit (hargs : args.length = x.machine.module.params.length)
    (h : x.machine.runFor k (x.initialState args) = (s, ending)) :
    (x.withLimit k).run false args = ((x.withLimit k).keep s,
      ⟨x.outcome s ending, s.calls.reverse, s.logs.reverse⟩) :=
  Instance.run_of_runFor hargs ((Machine.runFor_withLimit x.machine k k _).trans h)

theorem Instance.calls_prefix (hargs : args.length = x.machine.module.params.length)
    (h : x.machine.Steps n (x.initialState args) s) (hle : n ≤ k) :
    s.calls.reverse <+: ((x.withLimit k).run false args).2.calls := by
  obtain ⟨j, rfl⟩ := Nat.exists_eq_add_of_le hle
  rw [Instance.run_withLimit hargs (Prod.eta _).symm, h.runFor_of_steps]
  exact List.reverse_prefix.2 (x.machine.runFor_calls_suffix j s)

end

/-- The step limit only cuts a run. With a limit of `n` a run takes at most `n` steps, and ends at the
limit only after `n` of them. If it does not end there, it gives the same result, calls, log, steps and
memory under every larger limit. If it does, a run under a larger limit makes the same calls first. -/
theorem step_limit_only_cuts {m : Module} {hosts : List (String × Host)} {n : Nat} {maxPages : Int}
    {x : Instance} (hn : 0 < n) (hx : Instance.create m hosts n maxPages = .ok x)
    (args : List Int32) :
    (x.run false args).1.steps ≤ n ∧
    ((x.run false args).2.result = .error .stepLimit → (x.run false args).1.steps = n) ∧
    ∀ k, n ≤ k → ∃ y, Instance.create m hosts k maxPages = .ok y ∧
      ((x.run false args).2.result ≠ .error .stepLimit →
        (y.run false args).2 = (x.run false args).2 ∧
        (y.run false args).1.steps = (x.run false args).1.steps ∧
        (y.run false args).1.memory = (x.run false args).1.memory) ∧
      ((x.run false args).2.result = .error .stepLimit →
        (x.run false args).2.calls <+: (y.run false args).2.calls) := by
  obtain ⟨hzero, hlimit, -⟩ := Instance.create_withLimit hx hn hn
  have hself : x = x.withLimit n := by rw [← hlimit]; rfl
  have hcreate {k : Nat} (hle : n ≤ k) : Instance.create m hosts k maxPages = .ok (x.withLimit k) :=
    (Instance.create_withLimit hx hn (Nat.lt_of_lt_of_le hn hle)).2.2
  by_cases hargs : args.length = x.machine.module.params.length
  · rcases x.machine.runFor_cut_or_ends n (x.initialState args) with
      ⟨s, hsteps, hrun⟩ | ⟨j, s, ending, hle, hends⟩
    · -- the run is cut, where a larger limit lets it go on
      have hcut := Instance.run_withLimit hargs hrun
      rw [← hself] at hcut
      have hcount : s.steps = n := hsteps.steps_eq.trans (Nat.zero_add n)
      rw [hcut]
      refine ⟨Nat.le_of_eq hcount, fun _ => hcount, fun k hk =>
        ⟨_, hcreate hk, fun h => ?_, fun _ => ?_⟩⟩
      · exact absurd rfl h
      · exact Instance.calls_prefix hargs hsteps hk
    · -- the run ends by itself, as it does with any larger limit
      have hended {k : Nat} (hk : j ≤ k) := Instance.run_withLimit hargs (hends.same k hk)
      have hcount : s.steps = j := hends.steps.trans (Nat.zero_add j)
      have hrun := hended hle
      have hown : x.outcome s ending ≠ .error .stepLimit :=
        fun h => hends.own ((Instance.outcome_error h).resolve_right nofun)
      rw [← hself] at hrun
      rw [hrun]
      refine ⟨(Nat.le_of_eq hcount).trans hle, fun h => absurd h hown, fun k hk =>
        ⟨_, hcreate hk, fun _ => ?_, fun h => ?_⟩⟩
      · rw [hended (Nat.le_trans hle hk)]
        exact ⟨rfl, rfl, rfl⟩
      · exact absurd h hown
  · rw [Instance.run_refused hargs]
    refine ⟨hzero ▸ Nat.zero_le n, nofun, fun k hk => ⟨_, hcreate hk, fun _ => ?_, nofun⟩⟩
    rw [Instance.run_refused (x := x.withLimit k) hargs]
    exact ⟨rfl, rfl, rfl⟩

/-- A loop that calls a host, cut in its second round; with a larger limit it comes to a third. -/
theorem step_limit_only_cuts_loop :
    ∃ m x y, m = { Module.trial [⟨.loop, Instr.ident "L"⟩, .localGet "a", .call "f", .localGet "a",
          .const 1, Instr.plain (.binary .sub), ⟨.localTee, Instr.ident "a"⟩, ⟨.brIf, Instr.ident "L"⟩,
          Instr.plain .endFrame, .localGet "b"] with imports := [⟨"env", "f", 1, 0⟩] } ∧
      Instance.create m [("f", .ofFunction fun _ => .ok [])] 12 0 = .ok x ∧
      Instance.create m [("f", .ofFunction fun _ => .ok [])] 50 0 = .ok y ∧
      (x.run false [3, 7]).2.result = .error .stepLimit ∧ (x.run false [3, 7]).1.steps = 12 ∧
      (x.run false [3, 7]).2.calls = [⟨"f", [3]⟩, ⟨"f", [2]⟩] ∧
      (x.run false [3, 7]).2.calls <+: (y.run false [3, 7]).2.calls ∧
      (y.run false [3, 7]).2.calls.length = 3 := by
  obtain ⟨m, hm⟩ : ∃ m, m = { Module.trial [⟨.loop, Instr.ident "L"⟩, .localGet "a", .call "f",
      .localGet "a", .const 1, Instr.plain (.binary .sub), ⟨.localTee, Instr.ident "a"⟩,
      ⟨.brIf, Instr.ident "L"⟩, Instr.plain .endFrame, .localGet "b"] with
    imports := [⟨"env", "f", 1, 0⟩] } := ⟨_, rfl⟩
  have hcut : ((Instance.create m [("f", .ofFunction fun _ => .ok [])] 12 0).map fun x =>
      let r := (x.run false [3, 7]).2
      decide (r.result = .error .stepLimit ∧ r.calls = [⟨"f", [3]⟩, ⟨"f", [2]⟩])).toOption =
        some true := by
    rw [hm]
    decide +kernel
  have hwhole : ((Instance.create m [("f", .ofFunction fun _ => .ok [])] 50 0).map fun y =>
      decide ((y.run false [3, 7]).2.calls.length = 3)).toOption = some true := by
    rw [hm]
    decide +kernel
  obtain ⟨x, hx, hcut⟩ := map_ok (toOption_ok hcut)
  obtain ⟨y, hy, hthree⟩ := map_ok (toOption_ok hwhole)
  obtain ⟨hresult, hcalls⟩ := of_decide_eq_true hcut
  obtain ⟨-, hsteps, hlarger⟩ := step_limit_only_cuts (by decide) hx [3, 7]
  obtain ⟨y', hy', -, hprefix⟩ := hlarger 50 (by decide)
  rw [hy] at hy'
  cases hy'
  exact ⟨m, x, y, hm, hx, hy, hresult, hsteps hresult, hcalls, hprefix hresult,
    of_decide_eq_true hthree⟩

end WatScript
