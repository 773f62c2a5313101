import WatScript.Proofs.ExprRuns
import WatScript.Proofs.MarkedCode
import WatScript.Proofs.StepFacts

/-!
# Arguments of calls

Each call in the code of a tree belongs to one call of the tree, and right in front of it stands the code
of the arguments of that call (`CallsAre`). A run can only get to the call through that code, from its
start to its end. So the host is called with what these arguments evaluate to, and the values that the
stack held before them stay where they are.
-/

namespace WatScript

open List Atom
open Instr (plain)

/-! ## Calls in a tree -/

/-- A call as it is written: the host and the argument expressions. -/
structure WrittenCall where
  name : String
  args : List Atom

mutual

/-- The calls of a tree, in the order in which their arguments are complete. A compound assignment reads
its target before it writes it, so the calls in the target are there twice. -/
def Atom.writtenCalls : Atom → List WrittenCall
  | .call _ (.word _ name) _ _ _ args => writtenCallsOf args ++ [⟨name, args⟩]
  | .call _ (.operator _ o) _ _ _ args =>
    (if (compound? o).isSome then writtenCallsOfHead args else []) ++ writtenCallsOf args
  | .call _ _ _ _ _ args | .access _ _ _ _ args => writtenCallsOf args
  | .paren _ _ _ contents | .list _ _ _ contents | .item _ _ _ contents => writtenCallsOf contents
  | .block _ _ _ body => writtenCallsOf body
  | .clause _ _ cond body => writtenCallsOfOption cond ++ body.writtenCalls
  | .chain _ clauses => writtenCallsOf clauses
  | .exprStmt _ _ _ exprs | .controlStmt _ _ _ _ exprs => writtenCallsOf exprs
  | _ => []

def writtenCallsOfOption : Option Atom → List WrittenCall
  | none => []
  | some a => a.writtenCalls

def writtenCallsOfHead : List Atom → List WrittenCall
  | [] => []
  | a :: _ => a.writtenCalls

def writtenCallsOf : List Atom → List WrittenCall
  | [] => []
  | a :: rest => a.writtenCalls ++ writtenCallsOf rest

end

/-! ## Calls in code -/

/-- The instruction calls the function, and its own code is that of the arguments. -/
def WrittenCall.Fits (c : WrittenCall) (own : List Instr) (i : Instr) : Prop :=
  i = .call c.name ∧ ArgsCode c.args own

/-- The calls of the code are the written ones, in order, each behind the code of its arguments. -/
abbrev CallsAre (code : List Instr) (calls : List WrittenCall) : Prop :=
  Marks .call WrittenCall.Fits code calls

theorem compound?_of_binaryOp {o op} (h : binaryOp? o = some op) : compound? o = none := by
  unfold binaryOp? at h
  split at h
  all_goals first | rfl | cases h

mutual

theorem ExprCode.callsAre : ∀ {a code}, ExprCode a code → CallsAre code a.writtenCalls
  | _, _, .number .. | _, _, .name .. => by
    simp only [writtenCalls]
    exact .quiet rfl .nil
  | _, _, .paren h | _, _, .item h => by
    simp only [writtenCalls, writtenCallsOf, append_nil]
    exact h.callsAre
  | _, _, .binary hop hl hr => by
    simp only [writtenCalls, compound?_of_binaryOp hop, writtenCallsOf, append_nil]
    exact hl.callsAre.append (hr.callsAre.trail (.quiet rfl .nil))
  | _, _, .unary hop _ hr => by
    simp only [writtenCalls, compound?_of_binaryOp hop, writtenCallsOf, append_nil]
    exact .quiet rfl (hr.callsAre.trail (.quiet rfl .nil))
  | _, _, .call _ _ h => by
    rw [writtenCalls]
    exact .mark rfl ⟨rfl, h⟩ h.callsAre
  | _, _, .load h => by
    simp only [writtenCalls, writtenCallsOf, append_nil]
    exact h.callsAre.trail (.quiet rfl .nil)

theorem ArgsCode.callsAre : ∀ {args code}, ArgsCode args code → CallsAre code (writtenCallsOf args)
  | _, _, .nil => .nil
  | _, _, .cons h hs => h.callsAre.append hs.callsAre

end

theorem writtenCallsOf_declared {exprs name}
    (h : declared? exprs = some name) : writtenCallsOf exprs = [] := by
  obtain ⟨-, ⟨l, l', rfl⟩ | ⟨l, l', l'', rfl⟩⟩ := declared?_inv h
  · rfl
  · rfl

theorem AssignCode.callsAre {contents op rcode code calls}
    (h : AssignCode contents op rcode code) (hr : CallsAre rcode calls) :
    CallsAre code ((if op.isSome then writtenCallsOf contents else []) ++
      (writtenCallsOf contents ++ calls)) := by
  cases h with
  | declare _ hd =>
    rw [writtenCallsOf_declared hd]
    exact hr.trail (.quiet rfl .nil)
  | setLocal => exact hr.trail (.quiet rfl .nil)
  | updateLocal => exact .quiet rfl (hr.trail (.quiet rfl
      (.quiet rfl .nil)))
  | setCell hi =>
    simp only [writtenCalls, writtenCallsOf, append_nil]
    exact hi.callsAre.append (hr.trail (.quiet rfl .nil))
  | updateCell hi =>
    simp only [writtenCalls, writtenCallsOf, append_nil]
    exact hi.callsAre.append (hi.callsAre.append (.quiet rfl
      (hr.trail (.quiet rfl (.quiet rfl .nil)))))

theorem compound?_of_assignOp {o op} (h : assignOp? o = some op) :
    (compound? o).isSome = op.isSome := by
  unfold assignOp? at h
  split at h
  all_goals cases h
  all_goals rfl

mutual

theorem StmtCode.callsAre : ∀ {loop a code}, StmtCode loop a code → CallsAre code a.writtenCalls
  | _, _, _, .comment | _, _, _, .nothing => .nil
  | _, _, _, .declare hd => by
    rw [writtenCalls, writtenCallsOf_declared hd]
    exact .nil
  | _, _, _, .value h => by
    simp only [writtenCalls, writtenCallsOf, append_nil]
    exact h.callsAre
  | _, _, _, .assign ho hr h => by
    simp only [writtenCalls, writtenCallsOf, writtenCallsOfHead, compound?_of_assignOp ho,
      append_nil]
    exact h.callsAre hr.callsAre
  | _, _, _, .branches h => by
    simp only [writtenCalls, writtenCallsOf, append_nil]
    exact h.callsAre
  | _, _, _, .whileLoop hc hb => by
    simp only [writtenCalls, writtenCallsOf, writtenCallsOfOption, append_nil]
    exact .quiet rfl (.quiet rfl (hc.callsAre.append (.quiet rfl (.quiet rfl (hb.callsAre.trail
      (.quiet rfl (.quiet rfl (.quiet rfl .nil))))))))
  | _, _, _, .ret => .quiet rfl .nil
  | _, _, _, .retValue h => by
    simp only [writtenCalls, writtenCallsOf, append_nil]
    exact h.callsAre.trail (.quiet rfl .nil)
  | _, _, _, .brk | _, _, _, .cont => .quiet rfl (.quiet rfl .nil)
  | _, _, _, .assertion h => by
    simp only [writtenCalls, writtenCallsOf, append_nil]
    exact h.callsAre.trail (.quiet rfl (.quiet rfl (.quiet rfl (.quiet rfl .nil))))

theorem ArmsCode.callsAre : ∀ {loop clauses code},
    ArmsCode loop clauses code → CallsAre code (writtenCallsOf clauses)
  | _, _, _, .intro _ hc hb he => by
    simp only [writtenCalls, writtenCallsOf, writtenCallsOfOption, append_assoc]
    exact hc.callsAre.append (.quiet rfl (hb.callsAre.append (he.callsAre.trail (.quiet rfl .nil))))

theorem ElseCode.callsAre : ∀ {loop clauses code},
    ElseCode loop clauses code → CallsAre code (writtenCallsOf clauses)
  | _, _, _, .nil => .nil
  | _, _, _, .arms h => .quiet rfl h.callsAre
  | _, _, _, .otherwise h => by
    simp only [writtenCalls, writtenCallsOf, writtenCallsOfOption, nil_append,
      append_nil]
    exact .quiet rfl h.callsAre

theorem StmtsCode.callsAre : ∀ {loop stmts code},
    StmtsCode loop stmts code → CallsAre code (writtenCallsOf stmts)
  | _, _, _, .nil => .nil
  | _, _, _, .cons h hs => h.callsAre.append hs.callsAre

end

/-- The calls of a program are those of its source. -/
theorem Program.callsAre {config isExpr text p}
    (h : Program.build config isExpr text = .ok p) : CallsAre p.code (writtenCallsOf p.atoms) := by
  obtain ⟨hr, hg, -⟩ := Program.build_inv h
  cases isExpr with
  | true =>
    obtain ⟨a, ha, hcode⟩ := exprCode_of_generate hr hg
    rw [ha, writtenCallsOf, writtenCallsOf, append_nil]
    exact hcode.callsAre
  | false => exact (stmtsCode_of_generate hr hg).callsAre

/-! ## Calls of a run -/

section
variable {m : Machine} {s s' : State} {i : Instr} {fuel : Nat} {ending : Ending}

theorem Machine.step_calls (m : Machine) (s : State) (i : Instr) :
    (m.step s i).state.calls = s.calls ∨
      i.op = .call ∧ ∃ c, nameOf? i.imm = some c.name ∧ (m.step s i).state.calls = c :: s.calls := by
  have hdoes := m.step_does i s
  generalize m.step s i = r at hdoes
  cases hdoes with
  | next _ hadds | trapped hadds => exact hadds
  | finished _ hcalls => exact .inl hcalls

theorem Machine.Steps.call {n before after c}
    (h : m.Steps n s s') (hc : s'.calls = after ++ c :: before) (hle : s.calls.length ≤ before.length) :
    ∃ k t i, m.Steps k s t ∧ m.code[t.pc]? = some i ∧ t.calls = before ∧
      (m.step t i).state.calls = c :: t.calls := by
  induction n generalizing s' after with
  | zero =>
    cases h
    rw [hc] at hle
    simp at hle
    omega
  | succ n ih =>
    obtain ⟨t, i, hsteps, hi, hstep⟩ := h.tail_inv
    have hstate : (m.step t i).state = s' := by rw [hstep]; rfl
    rcases m.step_calls t i with hsame | ⟨-, c', -, hcall⟩
    · rw [hstate] at hsame
      exact ih hsteps (hsame ▸ hc)
    · have hcalls : c' :: t.calls = after ++ c :: before := by rw [← hcall, hstate, hc]
      cases after with
      | nil =>
        obtain ⟨rfl, hbefore⟩ := List.cons.inj hcalls
        exact ⟨n, t, i, hsteps, hi, hbefore, hcall⟩
      | cons _ after => exact ih hsteps (List.cons.inj hcalls).2

theorem Machine.runFor_call {before after c}
    (h : m.runFor fuel s = (s', ending)) (hs : s.calls = []) (hc : s'.calls = after ++ c :: before) :
    ∃ k t i, m.Steps k s t ∧ m.code[t.pc]? = some i ∧ t.calls = before ∧
      (m.step t i).state.calls = c :: t.calls := by
  have hle : s.calls.length ≤ before.length := hs ▸ Nat.zero_le _
  obtain ⟨n, t, hsteps, hlast⟩ := Machine.runFor_inv h
  have hstate : s' = t ∨ ∃ i, m.code[t.pc]? = some i ∧ (m.step t i).state = s' := by
    cases hlast with
    | off hcode | limit => exact .inl rfl
    | finished hi hstep | trapped hi hstep => exact .inr ⟨_, hi, by rw [hstep]; rfl⟩
  rcases hstate with rfl | ⟨i, hi, rfl⟩
  · exact hsteps.call hc hle
  · rcases m.step_calls t i with hsame | ⟨-, c', -, hcall⟩
    · exact hsteps.call (hsame ▸ hc) hle
    · cases after with
      | nil =>
        obtain ⟨rfl, hbefore⟩ := List.cons.inj (hcall.symm.trans hc)
        exact ⟨n, t, i, hsteps, hi, hbefore, hcall⟩
      | cons _ after => exact hsteps.call (List.cons.inj (hcall.symm.trans hc)).2 hle

/-- What is left on the stack by the step that makes a call: what was there below the arguments, with
the results on top if the host has returned them. -/
def Step.Leaves (live : List Int32) (reply : Reply) : Step → Prop
  | .next s => ∃ results, reply.results = .ok results ∧ s.stack.live = results.reverse ++ live
  | .trapped s _ => s.stack.live = live
  | .finished _ => False

theorem Machine.step_call {names calls hosts name host args live c} (hm : m.Knows names hosts calls)
    (hi : .call name ∈ m.code) (hhost : hosts.lookup name = some host) (hparams : host.params = args.length)
    (hlive : s.stack.live = args.reverse ++ live)
    (hc : (m.step s (.call name)).state.calls = c :: s.calls) :
    c = ⟨name, args⟩ ∧ (m.step s (.call name)).Leaves live (host.call s.history args) := by
  unfold Machine.step at hc ⊢
  dsimp only at hc ⊢
  split at hc
  · simp [Step.state] at hc
  · rename_i hquiet
    rw [if_neg hquiet]
    have hexec := Machine.exec_call (s := { s with steps := s.steps + 1 }) hm hi hhost hparams hlive
    have hhistory : { s with steps := s.steps + 1 }.history = s.history := rfl
    rw [hexec, hhistory] at hc ⊢
    cases hr : (host.call s.history args).results with
    | error d =>
      simp only [hr] at hc ⊢
      exact ⟨(List.cons.inj hc).1.symm, rfl⟩
    | ok results =>
      simp only [hr] at hc ⊢
      split at hc
      · next hlen =>
        rw [if_pos hlen]
        exact ⟨(List.cons.inj hc).1.symm, results, hr, Stack.live_pushAll _⟩
      · next hlen =>
        rw [if_neg hlen]
        exact ⟨(List.cons.inj hc).1.symm, rfl⟩

theorem Instance.run_call {x : Instance} {canceled : Bool} {args : List Int32}
    {before after : List HostCall} {c : HostCall}
    (h : (x.run canceled args).2.calls = before ++ c :: after) :
    ∃ n t i, x.machine.Steps n (x.initialState args) t ∧ x.machine.code[t.pc]? = some i ∧
      t.calls.reverse = before ∧ (x.machine.step t i).state.calls = c :: t.calls := by
  unfold Instance.run at h
  split at h
  · simp at h
  split at h
  · simp at h
  cases hrun : x.machine.runFor x.machine.limit (x.initialState args) with
  | mk s ending =>
    rw [hrun] at h
    have hcalls : s.calls = after.reverse ++ c :: before.reverse := by
      rw [← reverse_reverse s.calls]
      exact (congrArg List.reverse h).trans (by simp)
    obtain ⟨n, t, i, hsteps, hi, hbefore, hcall⟩ := Machine.runFor_call hrun rfl hcalls
    exact ⟨n, t, i, hsteps, hi, by rw [hbefore, reverse_reverse], hcall⟩

/-- A machine gets from `s₁` to `s` through the arguments of a written call, and there calls the host. -/
structure Machine.Makes (m : Machine) (names : List String) (hosts : HostTable)
    (written : WrittenCall) (c : HostCall) (s₁ s : State) : Prop where
  name : c.name = written.name
  /-- The code from `s₁` to `s` is that of the arguments. -/
  through : ∃ code, ArgsCode written.args code ∧ m.Placed s₁.pc (code ++ [.call written.name]) ∧
    m.Steps code.length s₁ s ∧ s.pc = s₁.pc + code.length
  values : ∃ w w', w.Shows names s₁ ∧ evalArgs hosts written.args w = (.ok c.args, w') ∧
    w'.Shows names s
  pushed : s.stack.live = c.args.reverse ++ s₁.stack.live
  made : ∃ host, hosts.lookup c.name = some host ∧
    (m.step s (.call c.name)).state.calls = c :: s.calls ∧
    (m.step s (.call c.name)).Leaves s₁.stack.live (host.call s.history c.args)

end

/-- The host of a written call has as many parameters as arguments are written there, and the hosts of the
calls in these arguments take theirs, with one result each. -/
structure HostTable.Suits (hosts : HostTable) (written : WrittenCall) : Prop where
  own : ∃ host, hosts.lookup written.name = some host ∧ host.params = written.args.length
  nested : ∀ site ∈ callSitesOf true written.args, hosts.Takes site

/-- Calls pass exactly their own arguments. Any call of any run is made at a call in the code that was
emitted for a call of the tree. If the hosts suit that one call, whatever becomes of others, the values
passed are those of the arguments that are written there. They were pushed on what the stack held, and that
is what the call leaves below its results. -/
theorem calls_pass_own_arguments {config : Config} {isExpr : Bool} {text : Text} {p : Program}
    {e : Engine} {m : Module} {hosts : List (String × Host)} {limit : Nat} {maxPages : Int}
    {x : Instance} (hp : Program.build config isExpr text = .ok p) (hlink : e.link p = .ok (m, hosts))
    (hx : Instance.create m hosts limit maxPages = .ok x) {canceled : Bool} {args : List Int32}
    {before after : List HostCall} {c : HostCall}
    (hc : (x.run canceled args).2.calls = before ++ c :: after) :
    ∃ k s written, x.machine.Steps k (x.initialState args) s ∧ s.calls.reverse = before ∧
      x.machine.code[s.pc]? = some (.call c.name) ∧
      (x.machine.step s (.call c.name)).state.calls = c :: s.calls ∧
      (writtenCallsOf p.atoms)[countOp .call (p.code.take s.pc)]? = some written ∧
      written.name = c.name ∧
      (e.hosts.Suits written → ∃ n s₁, x.machine.Steps n (x.initialState args) s₁ ∧
        x.machine.Makes (m.params ++ m.locals) e.hosts written c s₁ s) := by
  have hl := (Program.sound_of_build hp).linked hlink hx
  obtain ⟨k, s, i, hsteps, hi, hbefore, hcall⟩ := Instance.run_call hc
  have hop : i.op = .call ∧ Machine.nameOf? i.imm = some c.name := by
    rcases x.machine.step_calls s i with hsame | ⟨hop, c', hname, hcall'⟩
    · rw [hsame] at hcall
      simp at hcall
    · obtain ⟨rfl, -⟩ := List.cons.inj (hcall'.symm.trans hcall)
      exact ⟨hop, hname⟩
  -- the call in the code belongs to a written call, and the code of the arguments stands before it
  obtain ⟨hcode, hpc⟩ := hl.code_eq hi
  obtain ⟨⟨name, written⟩, front, own, hwritten, hpre, rfl, hargs⟩ :=
    (Program.callsAre hp).placed _ i _ hcode hop.1
  obtain rfl : name = c.name := Option.some.inj ((Machine.nameOf?_ident name).symm.trans hop.2)
  rw [hpre, List.append_assoc] at hcode
  rw [hpre, List.length_append] at hpc
  refine ⟨k, s, _, hsteps, hbefore, hi, hcall, hwritten, rfl, fun hsuits => ?_⟩
  obtain ⟨host, hhost, hparams⟩ := hsuits.own
  -- so the run has come through the code of the arguments
  obtain ⟨n, s₁, w, hsteps₁, hthrough, hs₁⟩ := hl.through hcode hargs.straight.isFlat hsteps hpc.symm
  obtain ⟨vs, w', heval, hlen, hs⟩ :=
    hargs.ran hl.knows (hl.placed hcode) hsuits.nested hs₁ s hthrough
  obtain ⟨hvs, hleaves⟩ := Machine.step_call hl.knows (Array.mem_of_getElem? hi) hhost
    (hparams.trans (congrArg _ hlen.symm)) hs.live hcall
  obtain rfl : c.args = vs := congrArg HostCall.args hvs
  refine ⟨n, s₁, hsteps₁, rfl, ⟨own, hargs, ?_, hthrough, ?_⟩, ⟨w, w', hs₁.world, heval, hs.world⟩,
    hs.live, host, hhost, hcall, hleaves⟩
  · rw [hs₁.pc]
    exact hl.placed (hcode.trans (by rw [List.append_assoc]; rfl))
  · rw [hs₁.pc, hpc]

/-- Two nested calls in a loop, after a call that its host does not fit. -/
theorem calls_pass_own_arguments_nested :
    let e := (Engine.create .standard none).withLibrary.register "f" ⟨2, 1, .ofFunction fun args =>
      .ok [args.sum]⟩
    ∃ p m hosts x, Program.build Config.standard false
        (.ofString "7; f(2); while (a) { min(a, max(1, b) + 2); a -= 1 }") = .ok p ∧
      e.link p = .ok (m, hosts) ∧ Instance.create m hosts 0 0 = .ok x ∧
      (x.run false [1, 3]).2.calls = [⟨"f", [7, 2]⟩, ⟨"max", [1, 3]⟩, ⟨"min", [1, 5]⟩] ∧
      ∃ n s₁ s written, x.machine.Steps n (x.initialState [1, 3]) s₁ ∧
        s.calls.reverse = [⟨"f", [7, 2]⟩, ⟨"max", [1, 3]⟩] ∧
        (writtenCallsOf p.atoms)[countOp .call (p.code.take s.pc)]? = some written ∧
        x.machine.Makes (m.params ++ m.locals) e.hosts written ⟨"min", [1, 5]⟩ s₁ s := by
  intro e
  obtain ⟨p, m, hosts, x, hp, hlink, hx, hcheck⟩ := exists_run e .standard false
    (.ofString "7; f(2); while (a) { min(a, max(1, b) + 2); a -= 1 }") 0 0
    (fun p x => decide ((∀ c ∈ writtenCallsOf p.atoms, c.name = "min" → c.args.length = 2 ∧
        callSitesOf true c.args = [⟨"max", 2, true⟩]) ∧
      (x.run false [1, 3]).2.calls = [⟨"f", [7, 2]⟩, ⟨"max", [1, 3]⟩, ⟨"min", [1, 5]⟩]))
    (by decide +kernel)
  obtain ⟨hwritten, hcalls⟩ := of_decide_eq_true hcheck
  have hsplit : (x.run false [1, 3]).2.calls =
      [⟨"f", [7, 2]⟩, ⟨"max", [1, 3]⟩] ++ ⟨"min", [1, 5]⟩ :: [] := hcalls
  obtain ⟨-, s, written, -, hbefore, -, -, hat, hname, hmakes⟩ :=
    calls_pass_own_arguments hp hlink hx hsplit
  obtain ⟨hlen, hsites⟩ := hwritten written (List.mem_of_getElem? hat) hname
  have hsuits : e.hosts.Suits written := by
    refine ⟨⟨_, by rw [hname]; rfl, by rw [hlen]; rfl⟩, ?_⟩
    rw [hsites]
    exact List.forall_mem_singleton.2 ⟨_, rfl, rfl, fun _ => rfl⟩
  obtain ⟨n, s₁, hsteps, hmakes⟩ := hmakes hsuits
  exact ⟨p, m, hosts, x, hp, hlink, hx, hcalls, n, s₁, s, written, hsteps, hbefore, hat, hmakes⟩

/-- A host that has more parameters than it is passed arguments takes what is below them, and one that
leaves no value for an argument lets the call take what is below in its place. -/
theorem calls_take_values_below :
    (∃ p m hosts x, Program.build Config.standard false (.ofString "5; f(2)") = .ok p ∧
      ((Engine.create .standard none).register "f" ⟨2, 1, .ofFunction fun args => .ok [args.sum]⟩).link p =
        .ok (m, hosts) ∧ Instance.create m hosts 0 0 = .ok x ∧
      callSitesOf false p.atoms = [⟨"f", 1, false⟩] ∧
      (x.run false [0, 0]).2.calls = [⟨"f", [5, 2]⟩]) ∧
    ∃ p m hosts x, Program.build Config.standard false (.ofString "7; f(g())") = .ok p ∧
      (((Engine.create .standard none).register "f" ⟨1, 1, .ofFunction fun args => .ok [args.sum]⟩).register "g"
        ⟨0, 0, .ofFunction fun _ => .ok []⟩).link p = .ok (m, hosts) ∧ Instance.create m hosts 0 0 = .ok x ∧
      callSitesOf false p.atoms = [⟨"f", 1, false⟩, ⟨"g", 0, true⟩] ∧
      (x.run false [0, 0]).2.calls = [⟨"g", []⟩, ⟨"f", [7]⟩] := by
  constructor
  · obtain ⟨p, m, hosts, x, hp, hlink, hx, hcheck⟩ := exists_run
      ((Engine.create .standard none).register "f" ⟨2, 1, .ofFunction fun args => .ok [args.sum]⟩)
      .standard false (.ofString "5; f(2)") 0 0 (fun p x => decide (callSitesOf false p.atoms = [⟨"f", 1, false⟩] ∧
        (x.run false [0, 0]).2.calls = [⟨"f", [5, 2]⟩])) (by decide +kernel)
    exact ⟨p, m, hosts, x, hp, hlink, hx, of_decide_eq_true hcheck⟩
  · obtain ⟨p, m, hosts, x, hp, hlink, hx, hcheck⟩ := exists_run
      (((Engine.create .standard none).register "f" ⟨1, 1, .ofFunction fun args => .ok [args.sum]⟩).register "g"
        ⟨0, 0, .ofFunction fun _ => .ok []⟩) .standard false (.ofString "7; f(g())") 0 0
      (fun p x => decide (callSitesOf false p.atoms = [⟨"f", 1, false⟩, ⟨"g", 0, true⟩] ∧
        (x.run false [0, 0]).2.calls = [⟨"g", []⟩, ⟨"f", [7]⟩])) (by decide +kernel)
    exact ⟨p, m, hosts, x, hp, hlink, hx, of_decide_eq_true hcheck⟩

end WatScript
