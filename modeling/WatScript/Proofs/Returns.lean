import WatScript.Proofs.ExprRuns
import WatScript.Proofs.MarkedCode

/-!
# Returned values

What a run gives that ends at a `return`, wherever in the program it stands: in arms of branches, in
bodies of loops, with values of earlier statements on the stack. Each `ret` in the code belongs to one
return statement, and in front of it stands the code of what is returned. So its value is on top of the
stack when the function ends. The entry function has a result only if the program ends in a value
(`EndsInValue`); otherwise what is returned is dropped and the run gives zero.
-/

namespace WatScript

open List Atom Program Engine
open Instr (plain)

/-! ## Return statements -/

mutual

/-- What the return statements in a tree return, in order: nothing or one expression each. -/
def Atom.returns : Atom → List (List Atom)
  | .controlStmt _ head _ _ exprs => if head = "return" then [exprs] else []
  | .exprStmt _ _ _ exprs => returnsOf exprs
  | .chain _ clauses => returnsOf clauses
  | .clause _ _ _ body => body.returns
  | .block _ _ _ body => returnsOf body
  | _ => []

def returnsOf : List Atom → List (List Atom)
  | [] => []
  | a :: rest => a.returns ++ returnsOf rest

end

mutual

theorem Atom.returns_sites : ∀ (a : Atom) (isValue : Bool),
    ∀ exprs ∈ a.returns, callSitesOf true exprs ⊆ a.callSites isValue
  | .controlStmt _ head _ _ exprs, _ => by
    simp only [returns, callSites]
    split
    · exact forall_mem_singleton.2 (List.Subset.refl _)
    · exact forall_mem_nil _
  | .exprStmt _ _ _ exprs, _ => by
    simp only [returns, callSites]
    exact returnsOf_sites exprs false
  | .chain _ clauses, _ => by
    simp only [returns, callSites]
    exact returnsOf_sites clauses true
  | .clause _ _ _ body, _ => fun exprs h => by
    simp only [returns, callSites] at h ⊢
    exact List.Subset.trans (body.returns_sites true exprs h) (subset_append_right ..)
  | .block _ _ _ body, _ => by
    simp only [returns, callSites]
    exact returnsOf_sites body true
  | .unknown .., _ | .literal .., _ | .comment .., _ | .word .., _ | .operator .., _ | .paren .., _
  | .list .., _ | .item .., _ | .call .., _ | .access .., _ => by
    simp only [returns]
    exact forall_mem_nil _

theorem returnsOf_sites : ∀ (as : List Atom) (isValue : Bool),
    ∀ exprs ∈ returnsOf as, callSitesOf true exprs ⊆ callSitesOf isValue as
  | [], _ => forall_mem_nil _
  | a :: rest, isValue => forall_mem_append.2
      ⟨fun exprs h =>
          List.Subset.trans (a.returns_sites isValue exprs h) (subset_append_left ..),
        fun exprs h =>
          List.Subset.trans (returnsOf_sites rest isValue exprs h) (subset_append_right ..)⟩

end

/-! ## Returns in code -/

/-- The instruction returns, and its own code is that of the value. -/
def ReturnFits (exprs : List Atom) (own : List Instr) (i : Instr) : Prop :=
  i = plain .ret ∧ exprs.length ≤ 1 ∧ ArgsCode exprs own

/-- The returns of the code are those of the statements, in order, each behind the code of what it
returns. -/
abbrev RetsAre (code : List Instr) (returns : List (List Atom)) : Prop :=
  Marks .ret ReturnFits code returns

theorem ExprCode.args {a code} (h : ExprCode a code) : ArgsCode [a] code :=
  append_nil code ▸ .cons h .nil

theorem ArgsCode.single {a code} (h : ArgsCode [a] code) : ExprCode a code := by
  cases h with
  | cons ha hrest =>
    cases hrest
    rwa [append_nil]

theorem Straight.retsAre {code} (h : Straight code) : RetsAre code [] := by
  refine .none fun i hi hop => ?_
  cases h i hi <;> cases hop

theorem ExprCode.retsAre {a code} (h : ExprCode a code) : RetsAre code [] :=
  h.straight.retsAre

theorem ExprCode.returns_eq {a code} (h : ExprCode a code) : a.returns = [] := by
  cases h <;> rfl

theorem returnsOf_declared {exprs name} (h : declared? exprs = some name) :
    returnsOf exprs = [] := by
  obtain ⟨-, ⟨l, l', rfl⟩ | ⟨l, l', l'', rfl⟩⟩ := declared?_inv h
  · rfl
  · rfl

mutual

theorem StmtCode.retsAre : ∀ {loop a code}, StmtCode loop a code → RetsAre code a.returns
  | _, _, _, .comment | _, _, _, .nothing => .nil
  | _, _, _, .declare hd => by
    rw [returns, returnsOf_declared hd]
    exact .nil
  | _, _, _, .value h => by
    simp only [returns, returnsOf, h.returns_eq]
    exact h.retsAre
  | _, _, _, .assign _ hr h => (h.straight hr.straight).retsAre
  | _, _, _, .branches h => by
    simp only [returns, returnsOf, append_nil]
    exact h.retsAre
  | _, _, _, .whileLoop hc hb => by
    simp only [returns, returnsOf, append_nil]
    exact .quiet rfl (.quiet rfl (hc.retsAre.append (.quiet rfl (.quiet rfl (hb.retsAre.trail
      (.quiet rfl (.quiet rfl (.quiet rfl .nil))))))))
  | _, _, _, .ret =>
    show RetsAre ([] ++ [plain .ret]) ([] ++ [[]]) from .mark rfl ⟨rfl, Nat.zero_le _, .nil⟩ .nil
  | _, _, _, .retValue h => show RetsAre (_ ++ [plain .ret]) ([] ++ [[_]]) from
    .mark rfl ⟨rfl, Nat.le_refl _, h.args⟩ h.retsAre
  | _, _, _, .brk | _, _, _, .cont => .quiet rfl (.quiet rfl .nil)
  | _, _, _, .assertion h =>
    h.retsAre.append (.quiet rfl (.quiet rfl (.quiet rfl (.quiet rfl .nil))))

theorem ArmsCode.retsAre : ∀ {loop clauses code},
    ArmsCode loop clauses code → RetsAre code (returnsOf clauses)
  | _, _, _, .intro _ hc hb he => by
    simp only [returns, returnsOf]
    exact hc.retsAre.append (.quiet rfl (hb.retsAre.append (he.retsAre.trail (.quiet rfl .nil))))

theorem ElseCode.retsAre : ∀ {loop clauses code},
    ElseCode loop clauses code → RetsAre code (returnsOf clauses)
  | _, _, _, .nil => .nil
  | _, _, _, .arms h => .quiet rfl h.retsAre
  | _, _, _, .otherwise h => by
    simp only [returns, returnsOf, append_nil]
    exact .quiet rfl h.retsAre

theorem StmtsCode.retsAre : ∀ {loop stmts code},
    StmtsCode loop stmts code → RetsAre code (returnsOf stmts)
  | _, _, _, .nil => .nil
  | _, _, _, .cons h hs => h.retsAre.append hs.retsAre

end

/-! ## Programs that end in a value -/

/-- An expression that leaves a value: it is neither an assignment nor a chain, and if it is a call, the
host has results. -/
def Atom.LeavesResult (hosts : HostTable) : Atom → Prop
  | .chain .. => False
  | .call _ (.operator _ o) .. => Operator.isAssignment o = false
  | .call _ (.word _ name) .. => ∃ host, hosts.lookup name = some host ∧ 0 < host.results
  | _ => True

/-- A statement that leaves a value: such an expression, or a `return` of something. -/
def Atom.LeavesValue (hosts : HostTable) : Atom → Prop
  | .controlStmt _ head _ _ exprs => head = "return" ∧ exprs ≠ []
  | .exprStmt _ _ _ [a] => a.LeavesResult hosts
  | _ => False

/-- The last statement that is no comment leaves a value. -/
def EndsInValue (hosts : HostTable) (stmts : List Atom) : Prop :=
  ∃ s, stmts.reverse.find? (!·.isComment) = some s ∧ s.LeavesValue hosts

section
variable {config : Config} {text : Text} {e : Engine} {p : Program} {m : Module}
  {hosts : List (String × Host)} {stmts : List Atom} {name : String}

theorem Engine.link_result (h : e.link p = .ok (m, hosts)) :
    ∃ imports, m.imports = imports.map Prod.fst ∧ m.result = hasResult p imports := by
  obtain ⟨imports, -, h⟩ := bind_ok h
  cases h
  exact ⟨imports, rfl, rfl⟩

theorem Engine.result_of_none (h : e.link p = .ok (m, hosts)) (ht : p.tailCall = none) :
    m.result = p.yields := by
  obtain ⟨imports, -, hresult⟩ := link_result h
  rw [hresult, hasResult, ht, find?_eq_none.2]
  exact fun _ _ => Bool.false_ne_true

theorem Engine.result_of_some (h : e.link p = .ok (m, hosts)) (ht : p.tailCall = some name)
    (hn : name ∈ p.symbols.calls) :
    ∃ host, e.hosts.lookup name = some host ∧ m.result = decide (0 < host.results) := by
  obtain ⟨imports, himports, hresult⟩ := link_result h
  obtain ⟨-, -, -, hcalls⟩ := link_inv h
  obtain ⟨host, hhost, himport, -⟩ := hcalls name hn
  rw [Module.findImport?, himports, find?_map, Option.map_eq_some_iff] at himport
  obtain ⟨⟨i, entry⟩, hfind, rfl⟩ := himport
  have hsame : (fun x : Import × HostEntry => p.tailCall == some x.1.name) =
      (fun i : Import => i.name == name) ∘ Prod.fst := by
    funext x
    simp [ht, eq_comm]
  refine ⟨host, hhost, ?_⟩
  rw [hresult, hasResult, hsame, hfind]

theorem mem_mentionsAll {a as x} (ha : a ∈ as) (hx : x ∈ a.mentions) : x ∈ mentionsAll as := by
  induction as with
  | nil => cases ha
  | cons b rest ih =>
    rw [mentionsAll, mem_append]
    rcases mem_cons.1 ha with rfl | ha
    · exact .inl hx
    · exact .inr (ih ha)

theorem tailOfExpr_fst {a} (h : (tailOfExpr a).2 = some name) : (tailOfExpr a).1 = false := by
  unfold tailOfExpr at h ⊢
  split at h <;> simp_all

theorem tailOf_fst (h : (tailOf stmts).2 = some name) : (tailOf stmts).1 = false := by
  unfold tailOf at h ⊢
  split at h
  · cases h
  · exact tailOfExpr_fst h
  · cases h

theorem tailCall_mem (h : (tailOf stmts).2 = some name) : name ∈ (Symbols.ofRun stmts).calls := by
  unfold tailOf at h
  split at h
  · cases h
  · rename_i lv raw resolved a hfind
    have hmem : Atom.exprStmt lv raw resolved [a] ∈ stmts :=
      mem_reverse.1 (mem_of_find?_eq_some hfind)
    refine Symbols.mem_calls.2 (mem_mentionsAll hmem ?_)
    unfold tailOfExpr at h
    split at h
    · cases h
    · cases h
    · cases h
      simp [mentions, mentionsAll]
    · cases h
  · cases h

theorem leavesResult_iff {hosts a} : a.LeavesResult hosts ↔
    (tailOfExpr a).1 = true ∨ ∃ name host, (tailOfExpr a).2 = some name ∧
      hosts.lookup name = some host ∧ 0 < host.results := by
  cases a with
  | call lv callee raw resolved split args =>
    cases callee <;> simp [Atom.LeavesResult, tailOfExpr]
  | _ => simp [Atom.LeavesResult, tailOfExpr]

theorem endsInValue_iff {hosts} : EndsInValue hosts stmts ↔
    (tailOf stmts).1 = true ∨ ∃ name host, (tailOf stmts).2 = some name ∧
      hosts.lookup name = some host ∧ 0 < host.results := by
  unfold EndsInValue tailOf
  cases stmts.reverse.find? (!·.isComment) with
  | none => simp
  | some s =>
    simp only [Option.some.injEq, exists_eq_left']
    cases s with
    | controlStmt => simp [Atom.LeavesValue]
    | exprStmt lv raw resolved exprs =>
      match exprs with
      | [a] => exact leavesResult_iff
      | [] | _ :: _ :: _ => simp [Atom.LeavesValue]
    | _ => simp [Atom.LeavesValue]

theorem Program.result_iff (hp : build config false text = .ok p)
    (hlink : e.link p = .ok (m, hosts)) : m.result = true ↔ EndsInValue e.hosts p.atoms := by
  obtain ⟨-, -, hsymbols, htail⟩ := build_inv hp
  have hyields : p.yields = (tailOf p.atoms).1 := congrArg Prod.fst htail
  have hcall : p.tailCall = (tailOf p.atoms).2 := congrArg Prod.snd htail
  rw [endsInValue_iff]
  cases ht : p.tailCall with
  | none =>
    rw [result_of_none hlink ht, hyields, ← hcall, ht]
    simp
  | some name =>
    have hn : name ∈ p.symbols.calls := hsymbols ▸ tailCall_mem (hcall ▸ ht)
    obtain ⟨host, hhost, hresult⟩ := result_of_some hlink ht hn
    rw [hresult, ← hcall, ht, tailOf_fst (hcall ▸ ht)]
    simp [hhost]

end

/-! ## The end of a run -/

section
variable {m : Machine} {s s' : State} {i : Instr}

theorem Machine.step_finished (h : m.step s i = .finished s') : s'.pc = s.pc := by
  have hdoes := m.step_does i s
  rw [h] at hdoes
  cases hdoes with
  | finished hpc => exact hpc

theorem Machine.step_ret (h : m.step s (plain .ret) = .finished s') :
    s' = { s with steps := s.steps + 1 } := by
  unfold Machine.step at h
  dsimp only at h
  split at h
  · cases h
  · cases h
    rfl

end

/-- A run ends with the execution of a return statement. -/
def Instance.EndsAtReturn (x : Instance) (args : List Int32) (s : State) : Prop :=
  x.machine.runFor x.machine.limit (x.initialState args) = (s, .finished) ∧
    x.machine.code[s.pc]? = some (plain .ret)

theorem Instance.EndsAtReturn.last {x : Instance} {args : List Int32} {s : State}
    (h : x.EndsAtReturn args s) : ∃ n t, x.machine.Steps n (x.initialState args) t ∧
      x.machine.code[t.pc]? = some (plain .ret) ∧ x.machine.step t (plain .ret) = .finished s := by
  obtain ⟨n, t, hsteps, hlast⟩ := Machine.runFor_inv h.1
  have hret := h.2
  cases hlast with
  | off hnone =>
    rw [hnone] at hret
    cases hret
  | finished hi hstep =>
    rw [Machine.step_finished hstep, hi] at hret
    cases hret
    exact ⟨n, t, hsteps, hi, hstep⟩

section
variable {e : Engine} {p : Program} {m : Module} {hosts : List (String × Host)} {x : Instance}
  {args : List Int32} {s : State} {v : Int32}

theorem Instance.create_module {limit maxPages}
    (hx : Instance.create m hosts limit maxPages = .ok x) : x.machine.module = m :=
  (Instance.create_parts hx).1

theorem Engine.run_of_runFor {ending} (hlink : e.link p = .ok (m, hosts))
    (hx : Instance.create m hosts e.config.stepLimit 0 = .ok x)
    (hargs : args.length ≤ entryParams.length)
    (hrun : x.machine.runFor x.machine.limit (x.initialState (fullArgs args)) = (s, ending)) :
    e.run p false args =
      .ok (.ofRun (x.keep s, ⟨x.outcome s ending, s.calls.reverse, s.logs.reverse⟩)) := by
  obtain ⟨-, hparams, -⟩ := link_inv hlink
  have hlen : (fullArgs args).length = x.machine.module.params.length := by
    rw [Instance.create_module hx, hparams, fullArgs, length_append, length_replicate]
    omega
  rw [run_eq e p false hargs, hlink]
  simp only [bind, Except.bind, hx, Except.mapError, Except.map, Instance.run_of_runFor hlen hrun]

theorem Engine.run_finished (hlink : e.link p = .ok (m, hosts))
    (hx : Instance.create m hosts e.config.stepLimit 0 = .ok x)
    (hargs : args.length ≤ entryParams.length)
    (hrun : x.machine.runFor x.machine.limit (x.initialState (fullArgs args)) = (s, .finished))
    (hv : x.resultOf s = .ok v) : e.run p false args = .ok ⟨v, s.steps, s.logs.reverse, none⟩ := by
  rw [run_of_runFor hlink hx hargs hrun]
  simp only [Execution.ofRun, Instance.outcome, hv, Instance.keep]

end

/-- A machine gets from `s₁` through the code of an expression and finishes the function with it. -/
structure Machine.Returns (m : Machine) (names : List String) (hosts : HostTable) (a : Atom)
    (v : Int32) (s₁ s : State) : Prop where
  /-- The code from `s₁` on is that of the expression, and the return. -/
  through : ∃ code t, ExprCode a code ∧ m.Placed s₁.pc (code ++ [plain .ret]) ∧
    m.Steps code.length s₁ t ∧ t.pc = s₁.pc + code.length ∧ m.step t (plain .ret) = .finished s
  value : ∃ w w', w.Shows names s₁ ∧ a.eval hosts w = (.ok v, w') ∧ w'.Shows names s

/-- A run of statements that ends at a `return`, wherever it stands. What is returned is evaluated where
the run enters the code of the return statement. If the statements end in a value, the run gives the value
of what is returned. If they do not, it gives zero, also where nothing is returned. -/
theorem return_ends_run {config : Config} {text : Text} {p : Program} {e : Engine} {m : Module}
    {hosts : List (String × Host)} {x : Instance} (hp : Program.build config false text = .ok p)
    (hlink : e.link p = .ok (m, hosts)) (hfit : ∀ site ∈ callSitesOf true p.atoms, e.hosts.Takes site)
    (hx : Instance.create m hosts e.config.stepLimit 0 = .ok x) {args : List Int32}
    (hargs : args.length ≤ Engine.entryParams.length) {s : State}
    (hs : x.EndsAtReturn (Engine.fullArgs args) s) :
    ∃ exprs, (returnsOf p.atoms)[countOp .ret (p.code.take s.pc)]? = some exprs ∧
      (exprs = [] ∧ (¬ EndsInValue e.hosts p.atoms →
          e.run p false args = .ok ⟨0, s.steps, s.logs.reverse, none⟩) ∨
        ∃ a n s₁ v, exprs = [a] ∧ x.machine.Steps n (x.initialState (Engine.fullArgs args)) s₁ ∧
          x.machine.Returns (m.params ++ m.locals) e.hosts a v s₁ s ∧
          (EndsInValue e.hosts p.atoms →
            e.run p false args = .ok ⟨v, s.steps, s.logs.reverse, none⟩) ∧
          (¬ EndsInValue e.hosts p.atoms →
            e.run p false args = .ok ⟨0, s.steps, s.logs.reverse, none⟩)) := by
  have hl := (Program.sound_of_build hp).linked hlink hx
  obtain ⟨hr, hg, -⟩ := Program.build_inv hp
  have hresult : x.machine.module.result = true ↔ EndsInValue e.hosts p.atoms := by
    rw [Instance.create_module hx]
    exact Program.result_iff hp hlink
  have hzero : ¬ EndsInValue e.hosts p.atoms →
      e.run p false args = .ok ⟨0, s.steps, s.logs.reverse, none⟩ := by
    intro hends
    refine Engine.run_finished hlink hx hargs hs.1 ?_
    rw [Instance.resultOf, if_neg (mt hresult.1 hends)]
  -- the return in the code belongs to a statement, and the code of what it returns stands before it
  obtain ⟨_, t, hsteps, hi, hstep⟩ := hs.last
  obtain rfl := Machine.step_ret hstep
  obtain ⟨hcode, hpc⟩ := hl.code_eq hi
  obtain ⟨exprs, front, own, hexprs, hpre, -, hlen, hown⟩ :=
    (stmtsCode_of_generate hr hg).retsAre.placed _ _ _ hcode rfl
  rw [hpre, List.append_assoc] at hcode
  rw [hpre, List.length_append] at hpc
  refine ⟨exprs, hexprs, ?_⟩
  match exprs, hlen, hown with
  | [], _, _ => exact .inl ⟨rfl, hzero⟩
  | [a], _, hown =>
    have ha : ExprCode a own := hown.single
    have hsites : ∀ site ∈ callSitesOf true [a], e.hosts.Takes site := fun site hsite =>
      hfit site (returnsOf_sites p.atoms true [a] (List.mem_of_getElem? hexprs) hsite)
    -- so the run has come through that code
    obtain ⟨n, s₁, w, hsteps₁, hthrough, hs₁⟩ := hl.through hcode hown.straight.isFlat hsteps hpc.symm
    obtain ⟨v, w', heval, ht⟩ :=
      ha.ran hl.knows (hl.placed hcode) (sites_singleton.1 hsites) hs₁ t hthrough
    refine .inr ⟨a, n, s₁, v, rfl, hsteps₁, ⟨⟨own, t, ha, ?_, hthrough, ?_, hstep⟩, w, w', hs₁.world,
      heval, ht.world.locals, ht.world.memory, ht.world.calls, ht.world.logs⟩, fun hends => ?_, hzero⟩
    · rw [hs₁.pc]
      exact hl.placed (hcode.trans (by rw [List.append_assoc]; rfl))
    · rw [hs₁.pc, hpc]
    · refine Engine.run_finished hlink hx hargs hs.1 ?_
      rw [Instance.resultOf, if_pos (hresult.2 hends), Stack.pop_of_live ht.live]
      rfl

/-- A `return` in a branch in a loop, with a value on the stack and an expression at the end. -/
theorem return_ends_run_in_loop :
    ∃ p m hosts x s a n s₁, Program.build Config.standard false (.ofString
        "7; while (a) { if (a == 2) { return max(a, b) * 10; }; a -= 1 }; 1") = .ok p ∧
      (Engine.create .standard none).withLibrary.link p = .ok (m, hosts) ∧
      Instance.create m hosts Config.standard.stepLimit 0 = .ok x ∧ x.EndsAtReturn [3, 5] s ∧
      x.machine.Steps n (x.initialState [3, 5]) s₁ ∧
      x.machine.Returns (m.params ++ m.locals) (Engine.create .standard none).withLibrary.hosts a 50
        s₁ s ∧
      (Engine.create .standard none).withLibrary.run p false [3, 5] =
        .ok ⟨50, s.steps, s.logs.reverse, none⟩ := by
  obtain ⟨p, m, hosts, x, hp, hlink, hx, hcheck⟩ :=
    exists_run (Engine.create .standard none).withLibrary .standard false
      (.ofString "7; while (a) { if (a == 2) { return max(a, b) * 10; }; a -= 1 }; 1")
      Config.standard.stepLimit 0
      (fun p x =>
        let r := x.machine.runFor x.machine.limit (x.initialState [3, 5])
        decide (callSitesOf true p.atoms = [⟨"max", 2, true⟩] ∧ (Program.tailOf p.atoms).1 = true ∧
          (returnsOf p.atoms).all (!·.isEmpty) = true ∧ r.2 = .finished ∧
          x.machine.code[r.1.pc]? = some (plain .ret) ∧ (x.resultOf r.1).toOption = some 50))
      (by decide +kernel)
  obtain ⟨hsites, htail, hreturns, hfinished, hret, hvalue⟩ := of_decide_eq_true hcheck
  have hfit : ∀ site ∈ callSitesOf true p.atoms,
      (Engine.create .standard none).withLibrary.hosts.Takes site := by
    rw [hsites]
    exact List.forall_mem_singleton.2 ⟨_, rfl, rfl, fun _ => rfl⟩
  have hs : x.EndsAtReturn (Engine.fullArgs [3, 5]) _ := ⟨Prod.ext rfl hfinished, hret⟩
  have hargs : [(3 : Int32), 5].length ≤ Engine.entryParams.length := Nat.le_refl 2
  obtain ⟨exprs, hexprs, ⟨rfl, -⟩ | ⟨a, n, s₁, v, rfl, hsteps, hreturns, hrun, -⟩⟩ :=
    return_ends_run hp hlink hfit hx hargs hs
  · have := List.all_eq_true.1 hreturns [] (List.mem_of_getElem? hexprs)
    cases this
  · have hrun' := Engine.run_finished hlink hx hargs hs.1 (toOption_ok hvalue)
    obtain rfl : v = 50 := by
      have := (hrun (endsInValue_iff.2 (.inl htail))).symm.trans hrun'
      cases this
      rfl
    exact ⟨p, m, hosts, x, _, a, n, s₁, hp, hlink, hx, hs, hsteps, hreturns, hrun'⟩

/-- Without a value at the end of the program what an early `return` gives is dropped, and with one a
`return` of nothing leaves the function without its result. -/
theorem early_return_against_ending :
    (∃ p m hosts x s, Program.build Config.standard false (.ofString "if (a) { return 5; }; x = 1") =
        .ok p ∧ (Engine.create .standard none).link p = .ok (m, hosts) ∧
      Instance.create m hosts Config.standard.stepLimit 0 = .ok x ∧ x.EndsAtReturn [1, 0] s ∧
      (returnsOf p.atoms).map mentionsAll = [[⟨"5", false⟩]] ∧
      ∃ out, (Engine.create .standard none).run p false [1] = .ok out ∧
        out.value = 0 ∧ out.trap = none) ∧
    ∃ p m hosts x s, Program.build Config.standard false (.ofString "if (a) { return; }; 5") = .ok p ∧
      (Engine.create .standard none).link p = .ok (m, hosts) ∧
      Instance.create m hosts Config.standard.stepLimit 0 = .ok x ∧ x.EndsAtReturn [1, 0] s ∧
      (returnsOf p.atoms).map mentionsAll = [[]] ∧
      ∃ out, (Engine.create .standard none).run p false [1] = .ok out ∧
        out.trap = some .stackUnderflow := by
  constructor
  · obtain ⟨p, m, hosts, x, hp, hlink, hx, hcheck⟩ := exists_run (Engine.create .standard none)
      .standard false (.ofString "if (a) { return 5; }; x = 1") Config.standard.stepLimit 0
      (fun p x =>
        let r := x.machine.runFor x.machine.limit (x.initialState [1, 0])
        let run := (Engine.create .standard none).run p false [1]
        decide (r.2 = .finished ∧ x.machine.code[r.1.pc]? = some (plain .ret) ∧
          (returnsOf p.atoms).map mentionsAll = [[⟨"5", false⟩]] ∧
          (run.map fun out => (out.value, out.trap)).toOption = some (0, none))) (by decide +kernel)
    obtain ⟨hfinished, hret, hreturns, hrun⟩ := of_decide_eq_true hcheck
    obtain ⟨out, hout, hshown⟩ := map_ok (toOption_ok hrun)
    exact ⟨p, m, hosts, x, _, hp, hlink, hx, ⟨Prod.ext rfl hfinished, hret⟩, hreturns, out, hout,
      congrArg Prod.fst hshown, congrArg Prod.snd hshown⟩
  · obtain ⟨p, m, hosts, x, hp, hlink, hx, hcheck⟩ := exists_run (Engine.create .standard none)
      .standard false (.ofString "if (a) { return; }; 5") Config.standard.stepLimit 0
      (fun p x =>
        let r := x.machine.runFor x.machine.limit (x.initialState [1, 0])
        let run := (Engine.create .standard none).run p false [1]
        decide (r.2 = .finished ∧ x.machine.code[r.1.pc]? = some (plain .ret) ∧
          (returnsOf p.atoms).map mentionsAll = [[]] ∧
          (run.map fun out => out.trap).toOption = some (some .stackUnderflow))) (by decide +kernel)
    obtain ⟨hfinished, hret, hreturns, hrun⟩ := of_decide_eq_true hcheck
    obtain ⟨out, hout, hshown⟩ := map_ok (toOption_ok hrun)
    exact ⟨p, m, hosts, x, _, hp, hlink, hx, ⟨Prod.ext rfl hfinished, hret⟩, hreturns, out, hout,
      hshown⟩

end WatScript
