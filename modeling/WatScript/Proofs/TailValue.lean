import WatScript.Proofs.Returns

/-!
# Values at the end of a program

What a run gives that falls off the end of a program: the value of the last statement that is no comment.
A plain expression has one (`Atom.lastValue`). A call that is a statement leaves all results of its host,
and the last of them is the value; a host without results leaves nothing. All other statements leave
nothing either, and the run gives zero.

Where the last statement has a value, its code has no frames. So a run that falls off the end has just
passed through it, and its value is on top of whatever earlier statements left on the stack. A `return` at
the end would give the function a result too, but no run falls off behind it.
-/

namespace WatScript

open List
open Instr (plain)

/-! ## Last statements -/

/-- Calls a host for the last of its results. -/
def Eval.lastResult (hosts : HostTable) (name : String) (args : List Int32) : Eval Int32 := do
  match (← Eval.callHost hosts name args).getLast? with
  | some v => pure v
  | none => Eval.halt .stuck

/-- How an expression at the end of a program gives a value, if it does. -/
def Atom.lastValue (hosts : HostTable) : Atom → Option (Eval Int32)
  | .chain .. => none
  | .call _ (.operator _ o) _ _ _ args =>
    if Operator.isAssignment o then none else some (evalOperation hosts o args)
  | .call _ (.word _ name) _ _ _ args =>
    if (hosts.lookup name).any (0 < ·.results) then
      some do Eval.lastResult hosts name (← evalArgs hosts args)
    else none
  | a => some (a.eval hosts)

/-- How the last statement that is no comment gives a value, if it does. -/
def tailValue (hosts : HostTable) (stmts : List Atom) : Option (Eval Int32) :=
  match stmts.reverse.find? (!·.isComment) with
  | some (.exprStmt _ _ _ [a]) => a.lastValue hosts
  | _ => none

theorem isSome_lastValue_iff {hosts : HostTable} {a : Atom} :
    (a.lastValue hosts).isSome ↔ a.LeavesResult hosts := by
  cases a with
  | call lv callee raw resolved split args =>
    cases callee <;> simp [Atom.lastValue, Atom.LeavesResult, Option.any_eq_true]
  | _ => simp [Atom.lastValue, Atom.LeavesResult]

theorem tailValue_eq_some {hosts stmts ev}
    (h : tailValue hosts stmts = some ev) : ∃ lv raw resolved a,
      stmts.reverse.find? (!·.isComment) = some (.exprStmt lv raw resolved [a]) ∧
        a.lastValue hosts = some ev := by
  unfold tailValue at h
  split at h
  · next hlast => exact ⟨_, _, _, _, hlast, h⟩
  · cases h

theorem exists_last {stmts : List Atom} {s : Atom} (h : stmts.reverse.find? (!·.isComment) = some s) :
    ∃ before comments, stmts = before ++ s :: comments ∧ ∀ c ∈ comments, c.isComment = true := by
  obtain ⟨-, after, before, heq, hafter⟩ := find?_eq_some_iff_append.1 h
  refine ⟨before.reverse, after.reverse, ?_, fun c hc => by simpa using hafter c (mem_reverse.1 hc)⟩
  rw [← reverse_reverse stmts, heq]
  simp

theorem callSites_subset {a as} (isValue : Bool) (h : a ∈ as) :
    a.callSites isValue ⊆ callSitesOf isValue as := by
  induction as with
  | nil => cases h
  | cons b rest ih =>
    rw [callSitesOf]
    rcases mem_cons.1 h with rfl | h
    · exact subset_append_left ..
    · exact List.Subset.trans (ih h) (subset_append_right ..)

section
variable {loop : Option Int64} {before after comments : List Atom} {s a : Atom} {code : List Instr}

theorem StmtsCode.split (h : StmtsCode loop (before ++ after) code) :
    ∃ pre post, code = pre ++ post ∧ StmtsCode loop before pre ∧ StmtsCode loop after post := by
  induction before generalizing code with
  | nil => exact ⟨[], code, rfl, .nil, h⟩
  | cons b before ih =>
    cases h with
    | cons hb hrest =>
      obtain ⟨pre, post, rfl, hpre, hpost⟩ := ih hrest
      exact ⟨_, post, (append_assoc ..).symm, .cons hb hpre, hpost⟩

theorem StmtsCode.comments_eq (h : StmtsCode loop comments code)
    (hc : ∀ c ∈ comments, c.isComment = true) : code = [] := by
  induction comments generalizing code with
  | nil =>
    cases h
    rfl
  | cons c comments ih =>
    obtain ⟨hcomment, hrest⟩ := forall_mem_cons.1 hc
    cases h with
    | cons hs hcode =>
      rw [ih hcode hrest]
      cases hs <;> first | rfl | cases hcomment

theorem StmtsCode.last (h : StmtsCode loop (before ++ s :: comments) code)
    (hc : ∀ c ∈ comments, c.isComment = true) :
    ∃ pre own, code = pre ++ own ∧ StmtsCode loop before pre ∧ StmtCode loop s own := by
  obtain ⟨pre, post, rfl, hpre, hpost⟩ := h.split
  cases hpost with
  | cons hs hrest =>
    obtain rfl := hrest.comments_eq hc
    exact ⟨pre, _, by rw [append_nil], hpre, hs⟩

theorem isAssignment_of_assignOp {o op} (h : assignOp? o = some op) :
    Operator.isAssignment o = true := by
  unfold assignOp? at h
  split at h <;> first | rfl | cases h

theorem StmtCode.exprCode {lv raw resolved hosts}
    (h : StmtCode loop (.exprStmt lv raw resolved [a]) code) (ha : a.LeavesResult hosts) :
    ExprCode a code := by
  cases h with
  | declare hd =>
    obtain ⟨-, ⟨_, _, heq⟩ | ⟨_, _, _, heq⟩⟩ := declared?_inv hd <;> cases heq
  | value h => exact h
  | assign ho =>
    have hassign := isAssignment_of_assignOp ho
    rw [show Operator.isAssignment _ = false from ha] at hassign
    cases hassign
  | branches | whileLoop => exact ha.elim

end

/-! ## Runs through the last statement -/

section
variable {m : Machine} {names calls : List String} {hosts : HostTable} {pc : Nat} {L : List Int32}
  {w : World} {s : State} {a : Atom} {code : List Instr} {ev : Eval Int32}

theorem ExprCode.ran_lastValue (h : ExprCode a code) (hev : a.lastValue hosts = some ev)
    (hm : m.Knows names hosts calls) (hp : m.Placed pc code)
    (ht : ∀ site ∈ a.callSites false, hosts.Takes site) (hs : s.At names pc L w) :
    Ran m code.length s w ev fun v w' s' => ∃ L', s'.At names (pc + code.length) (v :: L') w' := by
  have hvalue : a.callSites false = a.callSites true → ev = a.eval hosts →
      Ran m code.length s w ev fun v w' s' => ∃ L', s'.At names (pc + code.length) (v :: L') w' := by
    rintro hsites rfl s' hsteps
    obtain ⟨v, w', hv, hbehind⟩ := h.ran hm hp (hsites ▸ ht) hs s' hsteps
    exact ⟨v, w', hv, L, hbehind⟩
  cases h with
  | number | name | paren | item | load =>
    cases hev
    exact hvalue rfl rfl
  | binary | unary =>
    refine hvalue rfl ?_
    simp only [Atom.lastValue] at hev
    split at hev
    · cases hev
    · cases hev
      rfl
  | @call lv name args code hw hn hargs =>
    obtain ⟨⟨host, hhost, hparams, -⟩, htargs⟩ := sites_call ht
    rw [Atom.lastValue, hhost] at hev
    split at hev
    · next hresults =>
      cases hev
      rw [length_append, ← Nat.add_assoc]
      refine (hargs.ran hm hp.left htargs hs).bind fun vs w₁ s₁ h₁ => ?_
      rw [← h₁.1] at hparams
      refine (ran_callHost hm hhost hparams h₁.2 hp.right.head).finish fun results w₂ s₂ h₂ => ?_
      have hne : results ≠ [] := by
        rintro rfl
        have := h₂.1
        simp at hresults this
        omega
      rw [getLast?_eq_getLast_of_ne_nil hne]
      refine .pure ⟨results.dropLast.reverse ++ L, ?_⟩
      have hlive := h₂.2
      rwa [← dropLast_append_getLast hne, reverse_append] at hlive
    · cases hev

end

/-! ## The end of the code -/

/-- A run ends behind the last instruction. -/
def Instance.FallsOffEnd (x : Instance) (args : List Int32) (s : State) : Prop :=
  x.machine.runFor x.machine.limit (x.initialState args) = (s, .finished) ∧
    x.machine.code[s.pc]? = none

section
variable {p : Program} {names : List String} {table : HostTable} {x : Instance} {args : List Int32}
  {s : State} {n : Nat}

theorem Instance.Linked.pc_le (h : x.Linked p names table)
    (hs : x.machine.Steps n (x.initialState args) s) : s.pc ≤ p.code.length := by
  cases n with
  | zero =>
    cases hs
    exact Nat.zero_le _
  | succ n =>
    obtain ⟨t, i, hsteps, hi, hstep⟩ := hs.tail_inv
    have hlt : ∀ {k : Nat} {j : Instr}, x.machine.code[k]? = some j → k < p.code.length := by
      intro k j hj
      rw [h.code, getElem?_toArray] at hj
      exact (List.getElem?_eq_some_iff.1 hj).1
    obtain hnext | ⟨k, op, hk, ⟨j, hj, -⟩, -⟩ := (Machine.step_stepped hstep).target h.matched
      (hsteps.framed h.matched Instance.Linked.framed_initialState)
    · have := hlt hi
      omega
    · have := hlt (by rwa [Array.getElem?_toList] at hj)
      omega

theorem Instance.FallsOffEnd.last (hs : x.FallsOffEnd args s) (h : x.Linked p names table) :
    ∃ n, x.machine.Steps n (x.initialState args) s ∧ s.pc = p.code.length := by
  obtain ⟨n, t, hsteps, hlast⟩ := Machine.runFor_inv hs.1
  have hoff := hs.2
  cases hlast with
  | off hnone =>
    rw [h.code, getElem?_toArray, List.getElem?_eq_none_iff] at hnone
    exact ⟨n, hsteps, Nat.le_antisymm (h.pc_le hsteps) hnone⟩
  | finished hi hstep =>
    rw [Machine.step_finished hstep, hi] at hoff
    cases hoff

theorem Instance.Linked.not_behind_ret {pre post} (h : x.Linked p names table)
    (hcode : p.code = pre ++ ([plain .ret] ++ post)) (hs : x.machine.Steps n (x.initialState args) s) :
    s.pc ≠ pre.length + 1 := by
  intro hpc
  obtain ⟨_, s₁, _, -, hthrough, hs₁⟩ :=
    h.through hcode (forall_mem_singleton.2 rfl) hs hpc
  obtain ⟨t, i, hrefl, hi, hstep⟩ := Machine.Steps.tail_inv hthrough
  cases hrefl
  rw [hs₁.pc, (h.placed hcode).head] at hi
  cases hi
  unfold Machine.step at hstep
  dsimp only at hstep
  split at hstep <;> cases hstep

end

/-! ## Main statement -/

/-- A machine comes to the last statement in `s₁` and performs it up to `s`, where its value is `v`. -/
structure Machine.EndsWith (m : Machine) (p : Program) (names : List String) (ev : Eval Int32)
    (v : Int32) (s₁ s : State) : Prop where
  /-- What is left of the code is that of the last statement. -/
  through : ∃ before last comments pre own, p.atoms = before ++ last :: comments ∧
    last.isComment = false ∧ (∀ c ∈ comments, c.isComment = true) ∧ p.code = pre ++ own ∧
    StmtsCode none before pre ∧ StmtCode none last own ∧ s₁.pc = pre.length ∧ m.Steps own.length s₁ s
  value : ∃ w w', w.Shows names s₁ ∧ ev w = (.ok v, w') ∧ w'.Shows names s

section
variable {config : Config} {text : Text} {p : Program} {e : Engine} {m : Module}
  {hosts : List (String × Host)} {x : Instance} {args : List Int32} {s : State}

theorem Instance.FallsOffEnd.isSome_tailValue_iff (hs : x.FallsOffEnd args s)
    (hp : Program.build config false text = .ok p) (hl : x.Linked p (m.params ++ m.locals) e.hosts) :
    (tailValue e.hosts p.atoms).isSome ↔ EndsInValue e.hosts p.atoms := by
  obtain ⟨hr, hg, -⟩ := Program.build_inv hp
  obtain ⟨n, hsteps, hpc⟩ := hs.last hl
  unfold tailValue EndsInValue
  cases hlast : p.atoms.reverse.find? (!·.isComment) with
  | none => simp
  | some last =>
    simp only [Option.some.injEq, exists_eq_left']
    obtain ⟨before, comments, hatoms, hcomments⟩ := exists_last hlast
    obtain ⟨pre, own, hcode, -, hown⟩ := (hatoms ▸ stmtsCode_of_generate hr hg).last hcomments
    cases last with
    | exprStmt lv raw resolved exprs =>
      rcases exprs with _ | ⟨a, _ | ⟨b, rest⟩⟩
      · simp [Atom.LeavesValue]
      · exact isSome_lastValue_iff
      · simp [Atom.LeavesValue]
    | controlStmt lv head raw resolved exprs =>
      refine ⟨fun h => Bool.noConfusion h, ?_⟩
      rintro ⟨hhead, hne⟩
      cases hown with
      | ret => exact absurd rfl hne
      | @retValue _ _ a code _ =>
        have hcode' : p.code = (pre ++ code) ++ ([plain .ret] ++ []) := by simp [hcode]
        refine absurd hpc ?_
        rw [hcode', length_append]
        exact hl.not_behind_ret hcode' hsteps
      | assertion => exact absurd hhead (by decide)
    | _ => simp [Atom.LeavesValue]

end

/-- A run of statements that falls off their end. If the last statement that is no comment is a plain
expression, the run gives its value, and if it is a call of a host with results, the last of them, both
evaluated where the run enters the code of the statement. In every other case the run gives zero. -/
theorem falling_off_gives_tail_value {config : Config} {text : Text} {p : Program} {e : Engine} {m : Module}
    {hosts : List (String × Host)} {x : Instance} (hp : Program.build config false text = .ok p)
    (hlink : e.link p = .ok (m, hosts)) (hfit : ∀ site ∈ callSitesOf true p.atoms, e.hosts.Takes site)
    (hx : Instance.create m hosts e.config.stepLimit 0 = .ok x) {args : List Int32}
    (hargs : args.length ≤ Engine.entryParams.length) {s : State}
    (hs : x.FallsOffEnd (Engine.fullArgs args) s) :
    ∃ v, e.run p false args = .ok ⟨v, s.steps, s.logs.reverse, none⟩ ∧
      (tailValue e.hosts p.atoms = none → v = 0) ∧
      ∀ ev, tailValue e.hosts p.atoms = some ev → ∃ n s₁,
        x.machine.Steps n (x.initialState (Engine.fullArgs args)) s₁ ∧
        x.machine.EndsWith p (m.params ++ m.locals) ev v s₁ s := by
  have hl := (Program.sound_of_build hp).linked hlink hx
  obtain ⟨hr, hg, -⟩ := Program.build_inv hp
  have hresult : x.machine.module.result = true ↔ (tailValue e.hosts p.atoms).isSome := by
    rw [Instance.create_module hx, hs.isSome_tailValue_iff hp hl]
    exact Program.result_iff hp hlink
  cases htail : tailValue e.hosts p.atoms with
  | none =>
    refine ⟨0, Engine.run_finished hlink hx hargs hs.1 ?_, fun _ => rfl,
      fun ev h => (Option.some_ne_none ev h.symm).elim⟩
    rw [Instance.resultOf, if_neg (by simp [hresult, htail])]
  | some ev =>
    -- the last statement is an expression, and the code ends with that of the expression
    obtain ⟨lv, raw, resolved, a, hlast, hev⟩ := tailValue_eq_some htail
    obtain ⟨before, comments, hatoms, hcomments⟩ := exists_last hlast
    obtain ⟨pre, own, hcode, hbefore, hown⟩ := (hatoms ▸ stmtsCode_of_generate hr hg).last hcomments
    have ha : ExprCode a own := hown.exprCode (isSome_lastValue_iff.1 (by rw [hev]; rfl))
    have hcode' : p.code = pre ++ (own ++ []) := by rw [List.append_nil, hcode]
    have hsites : ∀ site ∈ a.callSites false, e.hosts.Takes site := fun site hsite =>
      hfit site (callSites_subset true (List.mem_reverse.1 (List.mem_of_find?_eq_some hlast))
        (callSites_subset false (List.mem_singleton_self a) hsite))
    -- so the run has come through that code
    obtain ⟨n, hsteps, hpc⟩ := hs.last hl
    obtain ⟨n₁, s₁, w, hsteps₁, hthrough, hs₁⟩ := hl.through hcode' ha.straight.isFlat hsteps
      (by rw [hpc, hcode, List.length_append])
    obtain ⟨v, w', heval, L, ht⟩ :=
      ha.ran_lastValue hev hl.knows (hl.placed hcode') hsites hs₁ s hthrough
    refine ⟨v, Engine.run_finished hlink hx hargs hs.1 ?_, fun h => (Option.some_ne_none ev h).elim, ?_⟩
    · rw [Instance.resultOf, if_pos (hresult.2 (by rw [htail]; rfl)), Stack.pop_of_live ht.live]
      rfl
    · rintro _ ⟨⟩
      exact ⟨n₁, s₁, hsteps₁, ⟨before, _, comments, pre, own, hatoms, rfl, hcomments, hcode, hbefore,
        hown, hs₁.pc, hthrough⟩, w, w', hs₁.world, heval, ht.world⟩

/-- A call with two results at the end, above those of a statement and of calls in a loop. -/
theorem falling_off_gives_tail_value_of_call :
    let e := (Engine.create .standard none).register "both" ⟨2, 2, .ofFunction fun args => .ok args⟩
    ∃ p m hosts x s ev n s₁, Program.build Config.standard false
        (.ofString "7; while (a) { both(a, b); a -= 1 }; both(a, b + 1); // end") = .ok p ∧
      e.link p = .ok (m, hosts) ∧ Instance.create m hosts Config.standard.stepLimit 0 = .ok x ∧
      x.FallsOffEnd [3, 5] s ∧ tailValue e.hosts p.atoms = some ev ∧
      x.machine.Steps n (x.initialState [3, 5]) s₁ ∧
      x.machine.EndsWith p (m.params ++ m.locals) ev 6 s₁ s ∧
      e.run p false [3, 5] = .ok ⟨6, s.steps, s.logs.reverse, none⟩ := by
  intro e
  obtain ⟨p, m, hosts, x, hp, hlink, hx, hcheck⟩ := exists_run e .standard false
    (.ofString "7; while (a) { both(a, b); a -= 1 }; both(a, b + 1); // end") Config.standard.stepLimit 0
    (fun p x =>
      let r := x.machine.runFor x.machine.limit (x.initialState [3, 5])
      decide (callSitesOf true p.atoms = [⟨"both", 2, false⟩, ⟨"both", 2, false⟩] ∧ r.2 = .finished ∧
        x.machine.code[r.1.pc]? = none ∧ (tailValue e.hosts p.atoms).isSome ∧
        (x.resultOf r.1).toOption = some 6))
    (by decide +kernel)
  obtain ⟨hsites, hfinished, hend, htail, hvalue⟩ := of_decide_eq_true hcheck
  have hfit : ∀ site ∈ callSitesOf true p.atoms, e.hosts.Takes site := by
    rw [hsites]
    rintro site hsite
    obtain rfl : site = ⟨"both", 2, false⟩ := by simpa using hsite
    exact ⟨_, rfl, rfl, fun h => Bool.noConfusion h⟩
  have hs : x.FallsOffEnd (Engine.fullArgs [3, 5]) _ := ⟨Prod.ext rfl hfinished, hend⟩
  have hargs : [(3 : Int32), 5].length ≤ Engine.entryParams.length := Nat.le_refl 2
  obtain ⟨ev, hev⟩ := Option.isSome_iff_exists.1 htail
  obtain ⟨v, hrun, -, hends⟩ := falling_off_gives_tail_value hp hlink hfit hx hargs hs
  obtain ⟨n, s₁, hsteps, hends⟩ := hends ev hev
  obtain rfl : v = 6 := by
    have := hrun.symm.trans (Engine.run_finished hlink hx hargs hs.1 (toOption_ok hvalue))
    cases this
    rfl
  exact ⟨p, m, hosts, x, _, ev, n, s₁, hp, hlink, hx, hs, hev, hsteps, hends, hrun⟩

end WatScript
