import WatScript.Proofs.CodeSymbols
import WatScript.Proofs.CompiledRuns
import WatScript.Proofs.JumpTargets
import WatScript.Proofs.VerifiedCode

/-!
# Runs of code whose symbols are known

Linking gives generated code a slot for every local it names, an import and a host for every call, and
an end for every frame (`Machine.Closed`). No instruction of such code ends in a trap about a missing
local or function, an unknown instruction or a malformed body, in whatever state it is executed
(`Machine.Closed.raises_clean`), so no run does (`Machine.Closed.runFor_clean`).
-/

namespace WatScript

open Engine

open Instr (plain)

/-! ## Foreign traps -/

/-- The trap is one of code that is not well formed. -/
def Trap.isForeign : Trap → Bool
  | .unknownLocal | .unknownFunction | .unknownInstruction | .malformed => true
  | _ => false

/-- It ends in no such trap. -/
def Clean {α : Type} (x : Except Trap α) : Prop := Ends (fun _ => True) (·.isForeign = false) x

theorem Clean.error {α : Type} {x : Except Trap α} {t : Trap} (h : Clean x) (hx : x = .error t) :
    t.isForeign = false := by
  subst hx
  exact h

theorem Memory.create_clean (pages maxPages : Int) : Clean (Memory.create pages maxPages) := by
  simp only [Memory.create]
  generalize (if maxPages == 0 then defaultMaxPages else maxPages) = bound
  split
  · rfl
  · trivial

/-- Everything that the instructions refer to is there. -/
structure Machine.Closed (m : Machine) : Prop where
  names : ∀ i ∈ m.code, ∃ x, i.Names x
  slot : ∀ name, .localGet name ∈ m.code ∨ .localSet name ∈ m.code →
    ∃ k, m.slot? (Instr.ident name) = some k
  callee : ∀ name, .call name ∈ m.code → ∃ c, m.callee? name = some c
  span : ∀ pc i, m.code[pc]? = some i → i.op.isMatched = true → ∃ span, m.links.at? pc = some span

section
variable {m : Machine} {s : State} {i : Instr} {t : Trap}

/-- Whatever the state, an instruction of closed code has no reason to end in a foreign trap. -/
theorem Machine.Closed.raises_clean (h : m.Closed) (hi : m.code[s.pc]? = some i)
    (hr : m.Raises s i t) : t.isForeign = false := by
  have hmem : i ∈ m.code := Array.mem_of_getElem? hi
  obtain ⟨x, hx⟩ := h.names i hmem
  cases t with
  | malformed =>
    rcases hr with ⟨hop, hnone⟩ | ⟨hop, hnone⟩
    · have hm : i.op.isMatched = true := by simpa [Op.isMatched] using hop
      obtain ⟨span, hspan⟩ := h.span s.pc i hi hm
      rw [hspan] at hnone
      cases hnone
    · cases hx with
      | const v =>
        have hv := Numeral.int32?_const v
        rw [hnone] at hv
        cases hv
      | quiet hq =>
        rw [hop] at hq
        cases hq
      | _ => cases hop
  | unknownFunction =>
    obtain ⟨hop, hnone⟩ := hr
    cases hx with
    | call name =>
      obtain ⟨c, hc⟩ := h.callee name hmem
      rw [Instr.call, Machine.nameOf?_ident, Option.bind_some, hc] at hnone
      cases hnone
    | quiet hq =>
      rw [hop] at hq
      cases hq
    | _ => cases hop
  | unknownLocal =>
    obtain ⟨hop, hnone⟩ := hr
    cases hx with
    | localGet =>
      obtain ⟨k, hk⟩ := h.slot _ (.inl hmem)
      exact absurd (hk.symm.trans hnone) (Option.some_ne_none k)
    | localSet =>
      obtain ⟨k, hk⟩ := h.slot _ (.inr hmem)
      exact absurd (hk.symm.trans hnone) (Option.some_ne_none k)
    | quiet hq =>
      obtain ⟨op, imm⟩ := i
      cases op <;> simp [Op.namesLocal, Op.isQuiet] at hop hq
    | _ => cases hop
  | unknownInstruction =>
    obtain ⟨code, hop⟩ := hr
    cases hx with
    | quiet hq =>
      rw [hop] at hq
      cases hq
    | _ => cases hop
  | _ => rfl

/-- No run of closed code ends in a foreign trap. -/
theorem Machine.Closed.runFor_clean (h : m.Closed) {fuel s'}
    (hrun : m.runFor fuel s = (s', .trapped t)) : t.isForeign = false := by
  rcases Machine.runFor_raises hrun with rfl | rfl | ⟨n, u, i, -, hi, hr⟩
  · rfl
  · rfl
  · exact h.raises_clean hi hr

end

theorem Instance.run_clean {x : Instance} (h : x.machine.Closed) (canceled : Bool)
    (args : List Int32) : Clean (x.run canceled args).2.result := by
  cases hresult : (x.run canceled args).2.result with
  | ok v => trivial
  | error t =>
    rcases Instance.run_error hresult with rfl | rfl | rfl | ⟨s, hrun⟩
    · rfl
    · rfl
    · rfl
    · exact h.runFor_clean hrun

/-! ## Linked programs -/

section
variable {e : Engine} {p : Program} {m : Module} {hosts : List (String × Host)} {links : Links}
  {limit : Nat} {maxPages : Int} {x : Instance} {t : Trap}

theorem Program.Sound.machine_closed (h : p.Sound) (hlink : e.link p = .ok (m, hosts))
    (hl : link m.body = .ok links) : (m.machine hosts links limit).Closed := by
  obtain ⟨hbody, -, -, hcalls⟩ := link_inv hlink
  have hcovers : (m.machine hosts links limit).Covers _ _ _ := h.machine_covers hlink
  have hcode {i : Instr} : i ∈ (m.machine hosts links limit).code ↔ i ∈ p.code := by
    rw [← hbody]
    exact List.mem_toArray
  refine ⟨fun i hi => h.codeOf.refers.names i (hcode.1 hi), ?_, ?_, ?_⟩
  · intro name hname
    exact ⟨_, hcovers.provides.slot? (hname.elim (hcovers.locals name) (hcovers.sets name))⟩
  · intro name hname
    have hmem := hcovers.callees name hname
    obtain ⟨host, hhost, -⟩ := hcalls name hmem
    obtain ⟨i, hcallee, -⟩ := hcovers.provides.callee name hmem host hhost
    exact ⟨_, hcallee⟩
  · intro pc i hi hm
    have hi : m.body[pc]? = some i := by simpa [Module.machine] using hi
    obtain ⟨span, hspan⟩ := (linked_of_link hl).exists_at? hi hm
    exact ⟨span, Nat.zero_add pc ▸ hspan⟩

theorem Program.Sound.create_clean (h : p.Sound) (hlink : e.link p = .ok (m, hosts)) :
    Clean (Instance.create m hosts limit maxPages) := by
  obtain ⟨hbody, -⟩ := link_inv hlink
  obtain ⟨links, hl⟩ := h.balanced.link_ok
  rw [← hbody] at hl
  rw [Instance.create, hl]
  exact (Memory.create_clean m.pages maxPages).bind fun memory _ => trivial

theorem Program.Sound.run_clean (h : p.Sound) (hlink : e.link p = .ok (m, hosts))
    (hx : Instance.create m hosts limit maxPages = .ok x) (canceled : Bool) (args : List Int32) :
    Clean (x.run canceled args).2.result := by
  obtain ⟨links, memory, hl, -, rfl⟩ := Instance.create_inv (h.nodup hlink) hx
  exact Instance.run_clean (h.machine_closed hlink hl) canceled args

end

/-- The fault is no such trap. -/
def EngineFault.IsClean (f : EngineFault) : Prop := ∀ t, f = .running t → t.isForeign = false

theorem Engine.importsOf_clean (hosts : HostTable) : ∀ names : List String,
    Ends (fun _ => True) EngineFault.IsClean (importsOf hosts names)
  | [] => trivial
  | name :: rest => by
    rw [importsOf]
    split
    · rintro t ⟨⟩
    · exact (importsOf_clean hosts rest).bind fun _ _ => trivial

theorem Engine.link_clean (e : Engine) (p : Program) :
    Ends (fun _ => True) EngineFault.IsClean (e.link p) :=
  (Engine.importsOf_clean e.hosts p.symbols.calls).bind fun _ _ => trivial

theorem Program.Sound.engine_run_clean {e : Engine} {p : Program} (h : p.Sound) (canceled : Bool)
    (args : List Int32) : Ends (fun x => ∀ t, x.trap = some t → t.isForeign = false)
      EngineFault.IsClean (e.run p canceled args) := by
  by_cases hargs : args.length ≤ entryParams.length
  · rw [run_eq e p canceled hargs]
    refine (e.link_clean p).with_eq.bind fun l hl => ?_
    have hcreate : Clean (Instance.create l.1 l.2 e.config.stepLimit 0) := h.create_clean hl.1
    cases hx : Instance.create l.1 l.2 e.config.stepLimit 0 with
    | error t =>
      rintro _ ⟨⟩
      exact hcreate.error hx
    | ok x =>
      intro t ht
      refine (h.run_clean hl.1 hx canceled (fullArgs args)).error ?_
      exact Execution.trap_ofRun ht
  · unfold run
    rw [if_pos (Nat.not_le.1 hargs)]
    exact fun t ht => nomatch ht

/-- The symbols of a text that is read and lowered are those of its code, and linked with them no run of
it misses anything. The calls of the code are the calls among the symbols. Each local that the code gets
or sets is among the locals, and a local that it neither gets nor sets is only declared, by a `let`
without a value. Memory is used if the code loads or stores. Both lists are increasing. -/
theorem symbols_agree_with_code {maxDepth : Int64} {isExpr : Bool} {text : Text} {atoms : List Atom}
    {code : List Instr} (hr : Program.read maxDepth isExpr text = .ok atoms)
    (hg : Program.generate isExpr atoms = .ok code) :
    (∀ imm, ⟨.call, imm⟩ ∈ code ↔ ∃ name ∈ (Symbols.ofRun atoms).calls, imm = Instr.ident name) ∧
    (∀ i ∈ code, i.op = .localGet ∨ i.op = .localSet →
      ∃ name ∈ (Symbols.ofRun atoms).locals, i.imm = Instr.ident name) ∧
    (∀ name ∈ (Symbols.ofRun atoms).locals, .localGet name ∉ code → .localSet name ∉ code →
      ⟨name, false⟩ ∉ usesAll atoms ∧ DeclaredIn atoms name) ∧
    ((Symbols.ofRun atoms).usesMemory = true ↔ ∃ i ∈ code, i.op = .load ∨ i.op = .store) ∧
    (Symbols.ofRun atoms).locals.Pairwise (· < ·) ∧ (Symbols.ofRun atoms).calls.Pairwise (· < ·) ∧
    ∀ e : Engine, e.config.maxDepth = maxDepth → ∃ p, Program.build e.config isExpr text = .ok p ∧
      p.code = code ∧ p.symbols = Symbols.ofRun atoms ∧
      ∀ t ∈ [Trap.unknownLocal, .unknownFunction, .unknownInstruction, .malformed],
        (∀ m hosts, e.link p = .ok (m, hosts) → ∀ limit maxPages,
          Instance.create m hosts limit maxPages ≠ .error t ∧
          ∀ x, Instance.create m hosts limit maxPages = .ok x →
            ∀ canceled args, (x.run canceled args).2.result ≠ .error t) ∧
        ∀ canceled args, e.run p canceled args ≠ .error (.running t) ∧
          ∀ x, e.run p canceled args = .ok x → x.trap ≠ some t := by
  have hcode : CodeOf atoms code := by
    cases isExpr with
    | true =>
      obtain ⟨a, rfl, hcode⟩ := exprCode_of_generate hr hg
      exact hcode.codeOf
    | false => exact (stmtsCode_of_generate hr hg).codeOf
  refine ⟨fun imm => hcode.call_mem_iff, fun i => hcode.local_mem, fun name => hcode.local_unused,
    hcode.usesMemory_iff, sortedUnique_pairwise _, sortedUnique_pairwise _, ?_⟩
  rintro e rfl
  obtain ⟨p, hp, hpcode, hsymbols⟩ := Program.build_ok hr hg
  have hsound := Program.sound_of_build hp
  refine ⟨p, hp, hpcode, hsymbols, fun t ht => ?_⟩
  have hforeign : ¬ t.isForeign = false := by
    simp only [List.mem_cons, List.not_mem_nil, or_false] at ht
    rcases ht with rfl | rfl | rfl | rfl <;> decide
  refine ⟨fun m hosts hlink limit maxPages => ⟨?_, fun x hx canceled args => ?_⟩,
    fun canceled args => ⟨?_, ?_⟩⟩
  · exact (hsound.create_clean hlink).ne_error hforeign
  · exact (hsound.run_clean hlink hx canceled args).ne_error hforeign
  · refine (hsound.engine_run_clean canceled args).ne_error ?_
    exact fun h => hforeign (h t rfl)
  · intro x hx htrap
    have hrun := hsound.engine_run_clean (e := e) canceled args
    rw [hx] at hrun
    exact hforeign (hrun t htrap)

/-- A local that is only declared, in a program that loads from memory and calls a host. -/
theorem symbols_agree_with_code_declaration :
    ∃ atoms code, Program.read Config.standard.maxDepth false
        (.ofString "let x; let mut y = __mem[b]; while (y) { log(y); y -= 1 }") = .ok atoms ∧
      Program.generate false atoms = .ok code ∧
      Symbols.ofRun atoms = ⟨["b", "x", "y"], ["log"], true⟩ ∧ DeclaredIn atoms "x" ∧
      .call "log" ∈ code ∧ ∃ p, Program.build Config.standard false
        (.ofString "let x; let mut y = __mem[b]; while (y) { log(y); y -= 1 }") = .ok p ∧
        ∀ args x, (Engine.create .standard none).run p false args = .ok x →
          x.trap ≠ some .unknownLocal := by
  have hok : (Program.read Config.standard.maxDepth false
      (.ofString "let x; let mut y = __mem[b]; while (y) { log(y); y -= 1 }") >>= fun atoms =>
        (Program.generate false atoms).mapError (fun _ => .unexpectedNode) >>= fun code =>
          .ok (decide (Symbols.ofRun atoms = ⟨["b", "x", "y"], ["log"], true⟩ ∧
            .localGet "x" ∉ code ∧ .localSet "x" ∉ code))) = .ok true := by
    decide +kernel
  obtain ⟨atoms, hr, hok⟩ := bind_ok hok
  obtain ⟨code, hg, hx⟩ := bind_ok hok
  obtain ⟨hsymbols, hget, hset⟩ := of_decide_eq_true (Except.ok.inj hx)
  have hg := mapError_ok hg
  obtain ⟨hcalls, -, hunused, -, -, -, hruns⟩ := symbols_agree_with_code hr hg
  rw [hsymbols] at hcalls hunused
  obtain ⟨p, hp, -, -, hrun⟩ := hruns (Engine.create .standard none) rfl
  refine ⟨atoms, code, hr, hg, hsymbols, ?_, ?_, p, hp, fun args x => ?_⟩
  · exact (hunused "x" (by simp) hget hset).2
  · exact (hcalls _).2 ⟨"log", by simp, rfl⟩
  · exact ((hrun .unknownLocal (by simp)).2 false args).2 x

end WatScript
