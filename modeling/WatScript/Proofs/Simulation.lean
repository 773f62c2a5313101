import WatScript.Proofs.LinkedCode
import WatScript.Proofs.MachineRuns
import WatScript.Proofs.VerifiedCode

/-!
# Compiled statements run as they evaluate

The machine running lowered code follows the evaluation of the tree (`ExprCode.sim`, `StmtCode.sim`).
`Sim m names fuel c x Q` relates a run from the configuration `c` to an evaluation `x`: it ends in `Q`
if `x` ends, traps if `x` traps, with the same world; if `x` is out of fuel the run takes at least `fuel`
steps. Running code in sequence is evaluating in sequence (`Sim.bind`), so each construct is
followed piece by piece; a loop is followed by induction on its iterations (`sim_loop`).
-/

namespace WatScript

open List Atom Eval
open Instr (plain)

/-! ## Code in place -/

/-- The code stands at `pc` in the code of the machine. -/
def Machine.Placed (m : Machine) (pc : Nat) (code : List Instr) : Prop :=
  ∃ before after, m.code.toList = before ++ (code ++ after) ∧ before.length = pc

namespace Machine.Placed
variable {m : Machine} {pc : Nat} {i : Instr} {c c' : List Instr}

theorem head (h : m.Placed pc (i :: c)) : m.code[pc]? = some i := by
  obtain ⟨before, after, hcode, rfl⟩ := h
  rw [← Array.getElem?_toList, hcode, getElem?_append_right (Nat.le_refl _), Nat.sub_self]
  rfl

theorem left (h : m.Placed pc (c ++ c')) : m.Placed pc c := by
  obtain ⟨before, after, hcode, hlen⟩ := h
  exact ⟨before, c' ++ after, by rw [hcode, append_assoc], hlen⟩

theorem right (h : m.Placed pc (c ++ c')) : m.Placed (pc + c.length) c' := by
  obtain ⟨before, after, hcode, rfl⟩ := h
  exact ⟨before ++ c, after, by simp [hcode], length_append⟩

theorem tail (h : m.Placed pc (i :: c)) : m.Placed (pc + 1) c := right (c := [i]) h

end Machine.Placed

variable {a right : Atom} {as contents : List Atom} {bcode code : List Instr} {f : LoopFrames}
  {lv : Level} {name o : String} {op : BinOp} {v : Int32}

/-! ## Simulation of evaluations -/

section
variable {α β : Type}

/-- The machine ends as the evaluation does. -/
def Ended (m : Machine) (names : List String) (fuel : Nat) (c : Conf) (Q : α → Conf → Prop) :
    Except Halt α × World → Prop
  | (.ok a, w) => ∃ n c', Goes m names n c c' ∧ c'.world = w ∧ Q a c'
  | (.error (.trap t), w) => ∃ n, Traps m names n c t w
  | (.error .outOfFuel, _) => ∃ n c', fuel ≤ n ∧ Goes m names n c c'
  | (.error .stuck, _) => False

/-- From `c` the machine ends as `x` does, and then `Q` holds. -/
def Sim (m : Machine) (names : List String) (fuel : Nat) (c : Conf) (x : Eval α)
    (Q : α → Conf → Prop) : Prop :=
  Ended m names fuel c Q (x c.world)

variable {m : Machine} {names : List String} {fuel n : Nat} {c c' : Conf} {x : Eval α}
  {f : α → Eval β} {Q Q' : α → Conf → Prop} {R : β → Conf → Prop} {r : Except Halt α × World}

theorem Ended.after (hgo : Goes m names n c c') (h : Ended m names fuel c' Q r) :
    Ended m names (n + fuel) c Q r := by
  match r, h with
  | (.ok a, w), ⟨n', c'', hgo', h⟩ => exact ⟨n + n', c'', hgo.trans hgo', h⟩
  | (.error (.trap t), w), ⟨n', h⟩ => exact ⟨n + n', hgo.traps h⟩
  | (.error .outOfFuel, w), ⟨n', c'', hle, hgo'⟩ =>
    exact ⟨n + n', c'', Nat.add_le_add_left hle n, hgo.trans hgo'⟩

theorem Ended.of_le {fuel'} (h : Ended m names fuel c Q r) (hle : fuel' ≤ fuel) :
    Ended m names fuel' c Q r := by
  match r, h with
  | (.ok a, w), h => exact h
  | (.error (.trap t), w), h => exact h
  | (.error .outOfFuel, w), ⟨n, c', hn, hgo⟩ => exact ⟨n, c', Nat.le_trans hle hn, hgo⟩

namespace Sim

theorem pure {a} (h : Q a c) : Sim m names fuel c (Pure.pure a) Q := ⟨0, c, .refl, rfl, h⟩

theorem mono (h : Sim m names fuel c x Q) (hq : ∀ a c', Q a c' → Q' a c') :
    Sim m names fuel c x Q' := by
  unfold Sim at h ⊢
  match x c.world, h with
  | (.ok a, w), ⟨n, c', hgo, hw, ha⟩ => exact ⟨n, c', hgo, hw, hq a c' ha⟩
  | (.error (.trap t), w), h => exact h
  | (.error .outOfFuel, w), h => exact h

theorem followed (h : Sim m names fuel c x Q) (hq : ∀ a c', Q a c' →
      ∃ n c'', Goes m names n c' c'' ∧ c''.world = c'.world ∧ Q' a c'') :
    Sim m names fuel c x Q' := by
  unfold Sim at h ⊢
  match x c.world, h with
  | (.ok a, w), ⟨n, c', hgo, hw, ha⟩ =>
    obtain ⟨n', c'', hgo', hw', ha'⟩ := hq a c' ha
    exact ⟨n + n', c'', hgo.trans hgo', hw'.trans hw, ha'⟩
  | (.error (.trap t), w), h => exact h
  | (.error .outOfFuel, w), h => exact h

theorem after (hgo : Goes m names n c c') (hw : c'.world = c.world) (h : Sim m names fuel c' x Q) :
    Sim m names (n + fuel) c x Q := by
  unfold Sim at h ⊢
  rw [hw] at h
  exact Ended.after hgo h

theorem of_le {fuel'} (h : Sim m names fuel c x Q) (hle : fuel' ≤ fuel) : Sim m names fuel' c x Q :=
  Ended.of_le h hle

theorem step (hgo : Goes m names n c c') (hw : c'.world = c.world) (h : Sim m names fuel c' x Q) :
    Sim m names fuel c x Q :=
  of_le (after hgo hw h) (Nat.le_add_left ..)

theorem bind (h : Sim m names fuel c x Q) (hf : ∀ a c', Q a c' → Sim m names fuel c' (f a) R) :
    Sim m names fuel c (x >>= f) R := by
  unfold Sim at h ⊢
  cases hx : x c.world with
  | mk r w =>
    rw [hx] at h
    cases r with
    | ok a =>
      obtain ⟨n, c', hgo, hw, ha⟩ := h
      subst hw
      rw [bind_of_ok hx]
      exact (Ended.after hgo (hf a c' ha)).of_le (Nat.le_add_left ..)
    | error e =>
      rw [bind_of_error hx]
      cases e with
      | trap | outOfFuel | stuck => exact h

end Sim

end

/-! ## Evaluations that take a number of steps -/

section
variable {α β : Type}

/-- Where an evaluation ended, `n` steps lead to `Q`, or fewer of them to the trap of the evaluation. It
got stuck only if `stuck`. -/
def Crossed (m : Machine) (names : List String) (stuck : Prop) (n : Nat) (c : Conf)
    (Q : α → Conf → Prop) : Except Halt α × World → Prop
  | (.ok a, w) => ∃ c', Goes m names n c c' ∧ c'.world = w ∧ Q a c'
  | (.error (.trap t), w) => ∃ k < n, Traps m names k c t w
  | (.error .stuck, _) => stuck
  | (.error .outOfFuel, _) => False

/-- A run from `c` does what the evaluation does, in `n` steps. -/
def Crosses (m : Machine) (names : List String) (stuck : Prop) (n : Nat) (c : Conf) (x : Eval α)
    (Q : α → Conf → Prop) : Prop :=
  Crossed m names stuck n c Q (x c.world)

variable {m : Machine} {names : List String} {stuck : Prop} {fuel n n' : Nat} {c c' : Conf}
  {x : Eval α} {f : α → Eval β} {Q : α → Conf → Prop} {R : β → Conf → Prop}
  {r : Except Halt α × World}

theorem Crossed.after (hgo : Goes m names n c c') (h : Crossed m names stuck n' c' Q r) :
    Crossed m names stuck (n + n') c Q r := by
  match r, h with
  | (.ok a, w), ⟨c'', hgo', h⟩ => exact ⟨c'', hgo.trans hgo', h⟩
  | (.error (.trap t), w), ⟨k, hk, h⟩ => exact ⟨n + k, Nat.add_lt_add_left hk n, hgo.traps h⟩
  | (.error .stuck, w), h => exact h

namespace Crosses

theorem pure {a} (h : Q a c) : Crosses m names stuck 0 c (Pure.pure a) Q := ⟨c, .refl, rfl, h⟩

theorem bind (h : Crosses m names stuck n c x Q)
    (hf : ∀ a c', Q a c' → Crosses m names stuck n' c' (f a) R) :
    Crosses m names stuck (n + n') c (x >>= f) R := by
  unfold Crosses at h ⊢
  cases hx : x c.world with
  | mk r w =>
    rw [hx] at h
    cases r with
    | ok a =>
      obtain ⟨c', hgo, rfl, ha⟩ := h
      rw [bind_of_ok hx]
      exact .after hgo (hf a c' ha)
    | error e =>
      rw [bind_of_error hx]
      cases e with
      | trap t =>
        obtain ⟨k, hk, h⟩ := h
        exact ⟨k, Nat.lt_add_right n' hk, h⟩
      | outOfFuel | stuck => exact h

theorem finish (h : Crosses m names stuck n c x Q)
    (hf : ∀ a c', Q a c' → Crosses m names stuck 0 c' (f a) R) :
    Crosses m names stuck n c (x >>= f) R := h.bind hf

theorem sim (h : Crosses m names False n c x Q) : Sim m names fuel c x Q := by
  unfold Crosses at h
  unfold Sim
  match x c.world, h with
  | (.ok a, w), ⟨c', h⟩ => exact ⟨n, c', h⟩
  | (.error (.trap t), w), ⟨k, _, h⟩ => exact ⟨k, h⟩

end Crosses

end

/-! ## Call sites of parts -/

section
variable {P : CallSite → Prop} {isValue : Bool} {lv : Level}

theorem sites_cons : (∀ site ∈ callSitesOf isValue (a :: as), P site) ↔
    (∀ site ∈ a.callSites isValue, P site) ∧ ∀ site ∈ callSitesOf isValue as, P site := by
  rw [callSitesOf, forall_mem_append]

theorem sites_singleton : (∀ site ∈ callSitesOf isValue [a], P site) ↔
    ∀ site ∈ a.callSites isValue, P site := by
  rw [callSitesOf, callSitesOf, append_nil]

theorem sites_operation
    (h : ∀ site ∈ (Atom.call lv (.operator lv o) [] true true as).callSites isValue, P site) :
    ∀ site ∈ callSitesOf true as, P site := h

theorem sites_call (h : ∀ site ∈ (Atom.call lv (.word lv name) [] true true as).callSites isValue,
    P site) : P ⟨name, as.length, isValue⟩ ∧ ∀ site ∈ callSitesOf true as, P site := by
  obtain ⟨hcall, hargs⟩ := forall_mem_append.1 (show ∀ site ∈
    [⟨name, as.length, isValue⟩] ++ callSitesOf true as, P site from h)
  exact ⟨hcall _ (mem_singleton.2 rfl), hargs⟩

theorem sites_clause {cond body rest} (h : ∀ site ∈ callSitesOf isValue
      (.clause lv name (some cond) (.block lv [] true body) :: rest), P site) :
    (∀ site ∈ cond.callSites true, P site) ∧ (∀ site ∈ callSitesOf true body, P site) ∧
      ∀ site ∈ callSitesOf isValue rest, P site := by
  obtain ⟨hclause, hrest⟩ := sites_cons.1 h
  obtain ⟨hcond, hbody⟩ := forall_mem_append.1 (show ∀ site ∈
    cond.callSites true ++ callSitesOf true body, P site from hclause)
  exact ⟨hcond, hbody, hrest⟩

end

/-! ## Expressions -/

/-- The value has been pushed. -/
def Pushed (pc : Nat) (Λ : List Label) (L : List Int32) (v : Int32) (c : Conf) : Prop :=
  ∃ w, c = ⟨pc, Λ, v :: L, w⟩

/-- The machine stands at `pc` with the labels and the stack. -/
def Standing (pc : Nat) (Λ : List Label) (L : List Int32) (c : Conf) : Prop := ∃ w, c = ⟨pc, Λ, L, w⟩

section
variable {m : Machine} {names calls : List String} {hosts : HostTable} {stuck : Prop} {fuel pc : Nat}
  {Λ : List Label} {L : List Int32} {w : World} {host : HostEntry}

theorem crosses_applyOperator {a b} (hop : binaryOp? o = some op)
    (hi : m.code[pc]? = some (plain (.binary op))) :
    Crosses m names stuck 1 ⟨pc, Λ, b :: a :: L, w⟩ (applyOperator o a b) (Pushed (pc + 1) Λ L) := by
  unfold Crosses applyOperator
  rw [operation?_eq hop]
  cases hv : op.eval a b with
  | error t => exact ⟨0, Nat.one_pos, traps_binary hi hv⟩
  | ok v => exact ⟨_, goes_binary hi hv, rfl, w, rfl⟩

theorem crosses_load {addr} (hi : m.code[pc]? = some (plain .load)) :
    Crosses m names stuck 1 ⟨pc, Λ, addr :: L, w⟩ (load addr) (Pushed (pc + 1) Λ L) := by
  unfold Crosses load
  cases hv : w.memory.load addr with
  | error t => exact ⟨0, Nat.one_pos, traps_load hi hv⟩
  | ok v => exact ⟨_, goes_load hi hv, rfl, w, rfl⟩

theorem callHost_eq (args : List Int32) (w : World) (hhost : hosts.lookup name = some host) :
    callHost hosts name args w =
    (match (host.call w.history args).results with
      | .ok results => .ok results
      | .error d => .error (.trap (.host d)), w.called ⟨name, args⟩ (host.call w.history args)) := by
  simp only [callHost, hhost]
  cases (host.call w.history args).results <;> rfl

theorem sim_callHost {args isValue} (hm : m.Knows names hosts calls)
    (hs : hosts.Serves ⟨name, args.length, isValue⟩) (hi : m.code[pc]? = some (.call name)) :
    Sim m names fuel ⟨pc, Λ, args.reverse ++ L, w⟩ (callHost hosts name args)
      fun results => Standing (pc + 1) Λ (results.reverse ++ L) := by
  obtain ⟨host, hhost, hparams, hreply, -⟩ := hs
  obtain ⟨hquiet, hresults⟩ := hreply w.history args rfl
  unfold Sim
  rw [callHost_eq args w hhost]
  cases hr : (host.call w.history args).results with
  | error d => exact ⟨0, traps_call hm hhost hparams hr hi⟩
  | ok results =>
    exact ⟨1, _, goes_call hm hhost hparams hquiet hr (hresults results hr) hi, rfl, _, rfl⟩

theorem ExprCode.evalOperation_eq {left} (h : ExprCode left code) : evalOperation hosts o
    [left, right] =
      (left.eval hosts >>= fun a => right.eval hosts >>= fun b => applyOperator o a b) := by
  cases h <;> rfl

theorem frontOperand_eq (h : implicitLeft? o = some v) : frontOperand o = pure v := by
  unfold implicitLeft? at h
  split at h <;> cases h <;> rfl

theorem isNumeric_of_isNameable (h : isNameable name = true) : isNumeric name = false := by
  simp only [isNameable, Bool.and_eq_true, Bool.not_eq_true'] at h
  exact h.1.2

mutual

/-- Running the code of an expression pushes its value, after one step for each instruction. It gets stuck
only on a host that does not return as many results as it declares. -/
theorem ExprCode.crosses : ∀ {a code}, ExprCode a code → ∀ {pc Λ L w}, m.Knows names hosts calls →
    m.Placed pc code →
    (∀ site ∈ a.callSites true, hosts.Answers site ∧ (stuck ∨ hosts.Serves site)) →
    Crosses m names stuck code.length ⟨pc, Λ, L, w⟩ (a.eval hosts) (Pushed (pc + code.length) Λ L)
  | _, _, .number hnum hv, _, _, _, w, _, hp, _ => by
    rw [eval, evalWord, if_pos hnum, hv]
    exact ⟨_, goes_const hp.head, rfl, w, rfl⟩
  | _, _, .name hw hn, _, _, _, w, hm, hp, _ => by
    rw [eval, evalWord, isNumeric_of_isNameable hn, if_neg Bool.false_ne_true]
    exact ⟨_, goes_localGet hm hp.head, rfl, w, rfl⟩
  | _, _, .paren h, _, _, _, _, hm, hp, hs => h.crosses hm hp (sites_singleton.1 hs)
  | _, _, .item h, _, _, _, _, hm, hp, hs => h.crosses hm hp (sites_singleton.1 hs)
  | _, _, .binary hop hl hr, pc, _, _, _, hm, hp, hs => by
    obtain ⟨hsl, hsr⟩ := sites_cons.1 (sites_operation hs)
    rw [eval, hl.evalOperation_eq, length_append, length_append, ← Nat.add_assoc pc,
      ← Nat.add_assoc (pc + _)]
    refine (hl.crosses hm hp.left hsl).bind ?_
    rintro a _ ⟨w₁, rfl⟩
    refine (hr.crosses hm hp.right.left (sites_singleton.1 hsr)).bind ?_
    rintro b _ ⟨w₂, rfl⟩
    exact crosses_applyOperator hop hp.right.right.head
  | _, _, @ExprCode.unary _ _ _ v _ _ hop hv hr, pc, Λ, L, w, hm, hp, hs => by
    obtain ⟨-, hsr⟩ := sites_cons.1 (sites_operation hs)
    have hfront : Crosses m names stuck 1 ⟨pc, Λ, L, w⟩ (pure v) (Pushed (pc + 1) Λ L) :=
      ⟨_, goes_const hp.head, rfl, w, rfl⟩
    rw [eval, evalOperation, frontOperand_eq hv, length_cons, length_append,
      Nat.add_comm _ 1, ← Nat.add_assoc pc, ← Nat.add_assoc (pc + _)]
    refine hfront.bind ?_
    rintro a _ ⟨w₁, rfl⟩
    refine (hr.crosses hm hp.tail.left (sites_singleton.1 hsr)).bind ?_
    rintro b _ ⟨w₂, rfl⟩
    exact crosses_applyOperator hop hp.tail.right.head
  | _, _, .call hw hn h, pc, Λ, L, w, hm, hp, hs => by
    obtain ⟨⟨⟨host, hhost, hparams, hone, hquiet⟩, hserves⟩, hargs⟩ := sites_call hs
    rw [eval, length_append, ← Nat.add_assoc]
    refine (h.crosses hm hp.left hargs).bind ?_
    rintro vs _ ⟨hlen, w₁, rfl⟩
    rw [← hlen] at hparams hquiet
    have hcall := callHost_eq vs w₁ hhost
    unfold Crosses
    cases hr : (host.call w₁.history vs).results with
    | error d =>
      rw [hr] at hcall
      rw [bind_of_error hcall]
      exact ⟨0, Nat.one_pos, traps_call hm hhost hparams hr hp.right.head⟩
    | ok results =>
      rw [hr] at hcall
      rw [bind_of_ok hcall]
      by_cases hcount : results.length = 1
      · obtain ⟨v, rfl⟩ := length_eq_one_iff.1 hcount
        exact ⟨_, goes_call hm hhost hparams (hquiet _ vs rfl) hr (hone rfl).symm hp.right.head, rfl,
          _, rfl⟩
      · split
        · exact absurd rfl hcount
        · refine hserves.resolve_right ?_
          rintro ⟨host', hhost', -, hreply, -⟩
          obtain rfl := Option.some.inj (hhost.symm.trans hhost')
          have := (hreply _ vs hlen).2 results hr
          have := hone rfl
          omega
  | _, _, .load h, pc, _, _, _, hm, hp, hs => by
    rw [eval, if_pos rfl, length_append, ← Nat.add_assoc]
    refine (h.crosses hm hp.left (sites_singleton.1 hs)).bind ?_
    rintro addr _ ⟨w₁, rfl⟩
    exact crosses_load hp.right.head

theorem ArgsCode.crosses : ∀ {args code}, ArgsCode args code → ∀ {pc Λ L w},
    m.Knows names hosts calls → m.Placed pc code →
    (∀ site ∈ callSitesOf true args, hosts.Answers site ∧ (stuck ∨ hosts.Serves site)) →
    Crosses m names stuck code.length ⟨pc, Λ, L, w⟩ (evalArgs hosts args) fun vs c =>
      vs.length = args.length ∧ Standing (pc + code.length) Λ (vs.reverse ++ L) c
  | _, _, .nil, _, _, _, w, _, _, _ => .pure ⟨rfl, w, rfl⟩
  | _, _, .cons h hs, pc, _, _, _, hm, hp, hsites => by
    obtain ⟨hsa, hsrest⟩ := sites_cons.1 hsites
    rw [evalArgs, length_append, ← Nat.add_assoc]
    refine (h.crosses hm hp.left hsa).bind ?_
    rintro v _ ⟨w₁, rfl⟩
    refine (hs.crosses hm hp.right hsrest).finish ?_
    rintro vs _ ⟨hlen, w₂, rfl⟩
    refine .pure ⟨congrArg (· + 1) hlen, w₂, ?_⟩
    rw [reverse_cons, append_assoc]
    rfl

end

theorem ExprCode.sim (h : ExprCode a code) (hm : m.Knows names hosts calls) (hp : m.Placed pc code)
    (hs : ∀ site ∈ a.callSites true, hosts.Serves site) :
    Sim m names fuel ⟨pc, Λ, L, w⟩ (a.eval hosts) (Pushed (pc + code.length) Λ L) :=
  (h.crosses hm hp fun site hsite => ⟨(hs site hsite).answers, .inr (hs site hsite)⟩).sim

end

/-! ## Frames of a loop -/

/-- The two frames of an entered loop: where its code stands, and what is around it. -/
structure LoopFrames where
  depth : Int64
  start : Nat
  blockStop : Nat
  loopStop : Nat
  outer : List Label
  live : List Int32

namespace LoopFrames

/-- The label of the loop. -/
def loop (f : LoopFrames) : Label :=
  ⟨true, Instr.loopLabel f.depth, f.start, f.loopStop, f.live.length⟩

/-- The label of the block around it. -/
def block (f : LoopFrames) : Label :=
  ⟨false, Instr.blockLabel f.depth, f.start + 1, f.blockStop, f.live.length⟩

/-- Only frames without name were entered, and nothing was taken off the stack, since the loop was. -/
def Around (ctx : Option LoopFrames) (Λ : List Label) (L : List Int32) : Prop :=
  ∀ f ∈ ctx, ∃ inner extra, Λ = inner ++ f.block :: f.loop :: f.outer ∧
    (∀ l ∈ inner, l.name = []) ∧ L = extra ++ f.live

variable {ctx : Option LoopFrames} {Λ : List Label} {L : List Int32}

theorem Around.push (h : Around ctx Λ L) {l} (hl : l.name = []) : Around ctx (l :: Λ) L := by
  intro f hf
  obtain ⟨inner, extra, rfl, hinner, rfl⟩ := h f hf
  exact ⟨l :: inner, extra, rfl, forall_mem_cons.2 ⟨hl, hinner⟩, rfl⟩

theorem Around.grow (h : Around ctx Λ L) (extra : List Int32) : Around ctx Λ (extra ++ L) := by
  intro f hf
  obtain ⟨inner, extra', rfl, hinner, rfl⟩ := h f hf
  exact ⟨inner, extra ++ extra', rfl, hinner, (append_assoc ..).symm⟩

theorem Around.self (f : LoopFrames) : Around (some f) (f.block :: f.loop :: f.outer) f.live := by
  rintro _ ⟨⟩
  exact ⟨[], [], rfl, (fun _ h => nomatch h), rfl⟩

end LoopFrames

/-- How statements leave the machine: behind their code with the frames as they were, or at the exit or
the start of the loop around them, or about to finish the function. -/
def Left (m : Machine) (names : List String) (ctx : Option LoopFrames) (pc : Nat) (Λ : List Label)
    (L : List Int32) : Signal → Conf → Prop
  | .normal, c => ∃ extra w, c = ⟨pc, Λ, extra ++ L, w⟩
  | .brk, c => ∃ f ∈ ctx, ∃ w, c = ⟨f.blockStop + 1, f.loop :: f.outer, f.live, w⟩
  | .cont, c => ∃ f ∈ ctx, ∃ w, c = ⟨f.start + 1, f.loop :: f.outer, f.live, w⟩
  | .ret v, c => Finishes m names c v

section
variable {m : Machine} {names calls : List String} {hosts : HostTable} {fuel pc : Nat}
  {ctx : Option LoopFrames} {Λ : List Label} {L : List Int32} {w : World}

theorem Left.shrink {extra} : ∀ {signal c},
    Left m names ctx pc Λ (extra ++ L) signal c → Left m names ctx pc Λ L signal c
  | .normal, _, ⟨extra', w, rfl⟩ => ⟨extra' ++ extra, w, by rw [append_assoc]⟩
  | .brk, _, h => h
  | .cont, _, h => h
  | .ret _, _, h => h

theorem Left.leave {pc' l} (hgo : ∀ L w,
      Goes m names 1 ⟨pc, l :: Λ, L, w⟩ ⟨pc', Λ, L, w⟩) : ∀ (signal : Signal) (c : Conf),
    Left m names ctx pc (l :: Λ) L signal c →
    ∃ n c', Goes m names n c c' ∧ c'.world = c.world ∧ Left m names ctx pc' Λ L signal c'
  | .normal, _, ⟨extra, w, h⟩ => ⟨1, _, h ▸ hgo _ w, h ▸ rfl, extra, w, rfl⟩
  | .brk, c, h => ⟨0, c, .refl, rfl, h⟩
  | .cont, c, h => ⟨0, c, .refl, rfl, h⟩
  | .ret _, c, h => ⟨0, c, .refl, rfl, h⟩

theorem goes_break (hf : LoopFrames.Around (some f) Λ L)
    (hi : m.code[pc]? = some ⟨.br, Instr.blockLabel f.depth⟩) :
    Goes m names 1 ⟨pc, Λ, L, w⟩ ⟨f.blockStop + 1, f.loop :: f.outer, f.live, w⟩ := by
  obtain ⟨inner, extra, rfl, hinner, rfl⟩ := hf f rfl
  refine goes_br (l := f.block) (fun x hx => ?_) rfl rfl hi
  rw [hinner x hx]
  exact (Instr.ident_ne_nil _).symm

theorem goes_exit (hf : LoopFrames.Around (some f) Λ L) (hv : v ≠ 0)
    (hi : m.code[pc]? = some ⟨.brIf, Instr.blockLabel f.depth⟩) :
    Goes m names 1 ⟨pc, Λ, v :: L, w⟩ ⟨f.blockStop + 1, f.loop :: f.outer, f.live, w⟩ := by
  obtain ⟨inner, extra, rfl, hinner, rfl⟩ := hf f rfl
  refine goes_brIf_taken (l := f.block) (fun x hx => ?_) rfl rfl hv hi
  rw [hinner x hx]
  exact (Instr.ident_ne_nil _).symm

theorem goes_continue (hf : LoopFrames.Around (some f) Λ L)
    (hi : m.code[pc]? = some ⟨.br, Instr.loopLabel f.depth⟩) :
    Goes m names 1 ⟨pc, Λ, L, w⟩ ⟨f.start + 1, f.loop :: f.outer, f.live, w⟩ := by
  obtain ⟨inner, extra, rfl, hinner, rfl⟩ := hf f rfl
  have hlabels : inner ++ f.block :: f.loop :: f.outer = (inner ++ [f.block]) ++ f.loop :: f.outer := by
    simp
  rw [hlabels]
  refine goes_br (l := f.loop) (fun x hx => ?_) rfl rfl hi
  obtain hx | hx := mem_append.1 hx
  · rw [hinner x hx]
    exact (Instr.ident_ne_nil _).symm
  · obtain rfl := mem_singleton.1 hx
    exact Instr.blockLabel_ne_loopLabel f.depth f.depth

theorem left_loop (hi : m.code[f.blockStop + 1]? = some (plain .endFrame))
    (hstop : f.loopStop = f.blockStop + 1) :
    Sim m names fuel ⟨f.blockStop + 1, f.loop :: f.outer, f.live, w⟩ (pure .normal)
      (Left m names ctx (f.loopStop + 1) f.outer f.live) := by
  rw [hstop]
  exact .step (goes_end hi) rfl (.pure ⟨[], w, rfl⟩)

/-- The iterations of a loop, from its start, once its condition and its body are simulated. Each of
them takes a step at least, for entering the block. -/
theorem sim_loop {f cond body test again}
    (hblock : m.code[f.start + 1]? = some ⟨.block, Instr.blockLabel f.depth⟩)
    (hlink : m.links.at? (f.start + 1) = some ⟨f.blockStop, none⟩)
    (hcond : ∀ w, Sim m names fuel ⟨f.start + 1 + 1, f.block :: f.loop :: f.outer, f.live, w⟩ cond
      (Pushed test (f.block :: f.loop :: f.outer) f.live))
    (heqz : m.code[test]? = some (plain .eqz))
    (hexit : m.code[test + 1]? = some ⟨.brIf, Instr.blockLabel f.depth⟩)
    (hbody : ∀ w, Sim m names fuel ⟨test + 1 + 1, f.block :: f.loop :: f.outer, f.live, w⟩ body
      (Left m names (some f) again (f.block :: f.loop :: f.outer) f.live))
    (hagain : m.code[again]? = some ⟨.br, Instr.loopLabel f.depth⟩)
    (hend : m.code[f.blockStop + 1]? = some (plain .endFrame))
    (hstop : f.loopStop = f.blockStop + 1) : ∀ (k : Nat) (w : World), k ≤ fuel →
    Sim m names k ⟨f.start + 1, f.loop :: f.outer, f.live, w⟩ (loopFor cond body k)
      (Left m names ctx (f.loopStop + 1) f.outer f.live)
  | 0, w, _ => ⟨0, _, Nat.le_refl _, .refl⟩
  | k + 1, w, hk => by
    have hself := LoopFrames.Around.self f
    rw [loopFor, Nat.add_comm k 1]
    refine .after (goes_enter (b := false) hblock hlink) rfl (Sim.bind ((hcond w).of_le (by omega)) ?_)
    rintro v _ ⟨w₁, rfl⟩
    refine .step (goes_eqz heqz) rfl ?_
    by_cases hv : v = 0
    · -- the condition fails, and the block is left
      rw [if_pos hv]
      exact .step (goes_exit hself (truth_ne_zero hv) hexit) rfl (left_loop hend hstop)
    · rw [if_neg hv, truth_eq_zero hv]
      refine .step (goes_brIf_passed hexit) rfl (Sim.bind ((hbody w₁).of_le (by omega)) ?_)
      rintro (_ | _ | _ | r) c hc
      · obtain ⟨extra, w₂, rfl⟩ := hc
        refine .step (goes_continue (hself.grow extra) hagain) rfl ?_
        exact sim_loop hblock hlink hcond heqz hexit hbody hagain hend hstop k w₂ (by omega)
      · obtain ⟨_, ⟨⟩, w₂, rfl⟩ := hc
        exact left_loop hend hstop
      · obtain ⟨_, ⟨⟩, w₂, rfl⟩ := hc
        exact sim_loop hblock hlink hcond heqz hexit hbody hagain hend hstop k w₂ (by omega)
      · exact .pure hc

/-! ## Assignments -/

/-- The machine knows the names in its code, and those of the locals that it sets. -/
structure Machine.Covers (m : Machine) (names : List String) (hosts : HostTable)
    (calls : List String) : Prop extends m.Knows names hosts calls where
  sets : ∀ name, .localSet name ∈ m.code → name ∈ names

theorem sim_set (hm : m.Covers names hosts calls) (hi : m.code[pc]? = some (.localSet name)) :
    Sim m names fuel ⟨pc, Λ, v :: L, w⟩ (Eval.set name v) fun _ => Standing (pc + 1) Λ L :=
  ⟨1, _, goes_localSet hm.provides (hm.sets name (Array.mem_of_getElem? hi)) hi, rfl, _, rfl⟩

theorem sim_store {addr} (hi : m.code[pc]? = some (plain .store)) :
    Sim m names fuel ⟨pc, Λ, v :: addr :: L, w⟩ (store addr v) fun _ => Standing (pc + 1) Λ L := by
  unfold Sim store
  cases hv : w.memory.store addr v with
  | error t => exact ⟨0, traps_store hi hv⟩
  | ok memory => exact ⟨1, _, goes_store hi hv, rfl, _, rfl⟩

theorem sim_setTo {value pc'} (hm : m.Covers names hosts calls)
    (hvalue : Sim m names fuel ⟨pc, Λ, L, w⟩ value (Pushed pc' Λ L))
    (hi : m.code[pc']? = some (.localSet name)) :
    Sim m names fuel ⟨pc, Λ, L, w⟩ (value >>= Eval.set name) fun _ => Standing (pc' + 1) Λ L := by
  refine hvalue.bind ?_
  rintro v _ ⟨w₁, rfl⟩
  exact sim_set hm hi

theorem assignOp?_none (h : assignOp? o = some none) : o = "=" ∧ compound? o = none := by
  unfold assignOp? at h
  split at h <;> cases h
  exact ⟨rfl, rfl⟩

theorem assignOp?_some (h : assignOp? o = some (some op)) :
    ∃ base, compound? o = some base ∧ binaryOp? base = some op := by
  unfold assignOp? at h
  split at h <;> cases h <;> exact ⟨_, rfl, rfl⟩

theorem assignTo_declared (h : declared? contents = some name)
    (value : Eval Int32) : assignTo hosts contents value = value >>= Eval.set name := by
  unfold assignTo
  rw [h]

theorem assignTo_word (value : Eval Int32) :
    assignTo hosts [.word lv name] value = value >>= Eval.set name := by
  simp [assignTo, declared?]

theorem assignTo_cell {index} (value : Eval Int32) :
    assignTo hosts [.access lv (.word lv Keyword.memory) [] true [index]] value =
      (index.eval hosts >>= fun addr => value >>= store addr) := by
  unfold assignTo
  exact if_pos rfl

theorem execAssign_plain
    (h : assignOp? o = some none) : execAssign hosts o [.item lv [] true contents, right] =
      assignTo hosts contents (right.eval hosts) := by
  rw [execAssign, (assignOp?_none h).2]

theorem execAssign_compound {base t tcode} (h : compound? o = some base) (ht : ExprCode t tcode) :
    execAssign hosts o [.item lv [] true [t], right] = assignTo hosts [t]
      ((Atom.call lv (.operator lv base) [] true true [t, right]).eval hosts) := by
  rw [execAssign, h, eval, ht.evalOperation_eq]
  rfl

theorem ExprCode.sim_compound {base t tcode rcode} (ht : ExprCode t tcode)
    (hr : ExprCode right rcode) (hop : binaryOp? base = some op) (hm : m.Knows names hosts calls)
    (hp : m.Placed pc (tcode ++ (rcode ++ [plain (.binary op)])))
    (hst : ∀ site ∈ t.callSites true, hosts.Serves site)
    (hsr : ∀ site ∈ right.callSites true, hosts.Serves site) :
    Sim m names fuel ⟨pc, Λ, L, w⟩
      ((Atom.call lv (.operator lv base) [] true true [t, right]).eval hosts)
      (Pushed (pc + (tcode ++ (rcode ++ [plain (.binary op)])).length) Λ L) := by
  have hcode : ExprCode (.call lv (.operator lv base) [] true true [t, right]) _ := .binary hop ht hr
  have hs : ∀ site ∈ callSitesOf true [t, right], hosts.Serves site :=
    sites_cons.2 ⟨hst, sites_singleton.2 hsr⟩
  exact hcode.sim hm hp hs

theorem sim_storeTo {index value pc₁ pc₂}
    (hindex : Sim m names fuel ⟨pc, Λ, L, w⟩ index (Pushed pc₁ Λ L))
    (hvalue : ∀ addr w, Sim m names fuel ⟨pc₁, Λ, addr :: L, w⟩ value (Pushed pc₂ Λ (addr :: L)))
    (hi : m.code[pc₂]? = some (plain .store)) :
    Sim m names fuel ⟨pc, Λ, L, w⟩ (index >>= fun addr => value >>= store addr) fun _ =>
      Standing (pc₂ + 1) Λ L := by
  refine hindex.bind ?_
  rintro addr _ ⟨w₁, rfl⟩
  refine (hvalue addr w₁).bind ?_
  rintro v _ ⟨w₂, rfl⟩
  exact sim_store hi

theorem AssignCode.sim {op rcode} (h : AssignCode contents op rcode code)
    (hr : ExprCode right rcode) (ho : assignOp? o = some op) (hm : m.Covers names hosts calls)
    (hp : m.Placed pc code) (hst : ∀ site ∈ callSitesOf true contents, hosts.Serves site)
    (hsr : ∀ site ∈ right.callSites true, hosts.Serves site) :
    Sim m names fuel ⟨pc, Λ, L, w⟩ (execAssign hosts o [.item lv [] true contents, right]) fun _ =>
      Standing (pc + code.length) Λ L := by
  cases h with
  | declare hw hd =>
    rw [execAssign_plain ho, assignTo_declared hd, length_append, ← Nat.add_assoc]
    exact sim_setTo hm (hr.sim hm.toKnows hp.left hsr) hp.right.head
  | setLocal hw hn =>
    rw [execAssign_plain ho, assignTo_word, length_append, ← Nat.add_assoc]
    exact sim_setTo hm (hr.sim hm.toKnows hp.left hsr) hp.right.head
  | @updateLocal tlv name op _ hw hn =>
    obtain ⟨base, hc, hop⟩ := assignOp?_some ho
    have ht : ExprCode (.word tlv name) [.localGet name] := .name hw hn
    have hcode : (.localGet name :: (rcode ++ [plain (.binary op), .localSet name]) : List Instr) =
        ([.localGet name] ++ (rcode ++ [plain (.binary op)])) ++ [.localSet name] := by simp
    rw [hcode] at hp ⊢
    rw [execAssign_compound hc ht, assignTo_word, length_append, ← Nat.add_assoc]
    exact sim_setTo hm (ht.sim_compound hr hop hm.toKnows hp.left (sites_singleton.1 hst) hsr)
      hp.right.head
  | setCell hi =>
    have hindex := sites_singleton.1 (sites_singleton.1 hst)
    rw [execAssign_plain ho, assignTo_cell, length_append, length_append, ← Nat.add_assoc,
      ← Nat.add_assoc]
    exact sim_storeTo (hi.sim hm.toKnows hp.left hindex) (fun _ _ => hr.sim hm.toKnows hp.right.left hsr)
      hp.right.right.head
  | @updateCell tlv index op icode _ hi =>
    obtain ⟨base, hc, hop⟩ := assignOp?_some ho
    have hcell := sites_singleton.1 hst
    have ht : ExprCode (.access tlv (.word tlv Keyword.memory) [] true [index])
        (icode ++ [plain .load]) := .load hi
    have hcode :
        icode ++ (icode ++ (plain .load :: (rcode ++ [plain (.binary op), plain .store]))) =
          icode ++ (((icode ++ [plain .load]) ++ (rcode ++ [plain (.binary op)])) ++
            [plain .store]) := by simp
    rw [hcode] at hp ⊢
    rw [execAssign_compound hc ht, assignTo_cell, length_append, length_append,
      ← Nat.add_assoc, ← Nat.add_assoc]
    exact sim_storeTo (hi.sim hm.toKnows hp.left (sites_singleton.1 hcell))
      (fun _ _ => ht.sim_compound hr hop hm.toKnows hp.right.left hcell hsr) hp.right.right.head

/-! ## Statements -/

theorem not_assignment (h : binaryOp? o = some op) : ¬ (o = "=" ∨ (compound? o).isSome = true) := by
  unfold binaryOp? at h
  split at h <;> cases h <;> decide

theorem ExprCode.sim_alone (h : ExprCode a code)
    (hm : m.Knows names hosts calls) (hp : m.Placed pc code)
    (hs : ∀ site ∈ a.callSites false, hosts.Serves site) :
    Sim m names fuel ⟨pc, Λ, L, w⟩ (execExprs hosts fuel [a])
      (Left m names ctx (pc + code.length) Λ L) := by
  have hvalue (hs : ∀ site ∈ a.callSites true, hosts.Serves site)
      (he : execExprs hosts fuel [a] = (a.eval hosts >>= fun _ => pure .normal)) :
      Sim m names fuel ⟨pc, Λ, L, w⟩ (execExprs hosts fuel [a])
        (Left m names ctx (pc + code.length) Λ L) := by
    rw [he]
    refine (h.sim hm hp hs).bind ?_
    rintro v _ ⟨w₁, rfl⟩
    exact .pure ⟨[v], w₁, rfl⟩
  cases h with
  | call hw hn hargs =>
    -- a call in this place may have any number of results
    obtain ⟨hfits, hsargs⟩ := sites_call hs
    rw [execExprs, length_append, ← Nat.add_assoc]
    refine (hargs.crosses hm hp.left fun site hsite =>
      ⟨(hsargs site hsite).answers, .inr (hsargs site hsite)⟩).sim.bind ?_
    rintro vs _ ⟨hlen, w₁, rfl⟩
    rw [← hlen] at hfits
    refine (sim_callHost hm hfits hp.right.head).bind ?_
    rintro results _ ⟨w₂, rfl⟩
    exact .pure ⟨results.reverse, w₂, rfl⟩
  | binary hop => exact hvalue hs (if_neg (not_assignment hop))
  | unary hop => exact hvalue hs (if_neg (not_assignment hop))
  | _ => exact hvalue hs rfl

theorem execExprs_declared {exprs} (h : declared? exprs = some name) :
    execExprs hosts fuel exprs = pure .normal := by
  have hsome : (declared? exprs).isSome = true := by rw [h]; rfl
  obtain ⟨-, ⟨l, l', rfl⟩ | ⟨l, l', l'', rfl⟩⟩ := declared?_inv h
  · exact if_pos hsome
  · exact if_pos hsome

theorem execExprs_assign {op args} (h : assignOp? o = some op) :
    execExprs hosts fuel [.call lv (.operator lv o) [] true true args] =
      (execAssign hosts o args >>= fun _ => pure .normal) := by
  rw [execExprs, if_pos]
  unfold assignOp? at h
  split at h <;> cases h <;> decide

theorem ArmsCode.execExprs_eq {loop clauses} (h : ArmsCode loop clauses code) :
    execExprs hosts fuel [.chain lv clauses] = execArms hosts fuel clauses := by
  obtain ⟨hname, -⟩ := h
  rw [execExprs, if_neg]
  obtain rfl | rfl := hname <;> simp [isWhile]

theorem execControl_return (a : Atom) : execControl hosts "return" [a] =
    (a.eval hosts >>= fun v => pure (.ret (some v))) := rfl

theorem execControl_assert (a : Atom) : execControl hosts "assert" [a] =
    (a.eval hosts >>= fun v => if v = 0 then Eval.halt (.trap .unreachable) else pure .normal) := rfl

theorem ElseCode.leaves {loop rest ecode} (h : ElseCode loop rest ecode) (hb : Balanced bcode)
    (hp : m.Placed pc (plain .ifThen :: (bcode ++ (ecode ++ [plain .endFrame]))))
    (hl : Linked m.links pc (plain .ifThen :: (bcode ++ (ecode ++ [plain .endFrame])))) :
    (∃ span, m.links.at? pc = some span) ∧ Linked m.links (pc + 1) bcode ∧ ∀ l L w,
      Goes m names 1 ⟨pc + 1 + bcode.length, l :: Λ, L, w⟩
        ⟨pc + 1 + bcode.length + ecode.length + 1, Λ, L, w⟩ := by
  cases h with
  | nil =>
    obtain ⟨hspan, hlb, -⟩ := Linked.frame_inv rfl hb hl
    exact ⟨⟨_, hspan⟩, hlb, fun _ _ _ => goes_end hp.tail.right.head⟩
  | arms h | otherwise h =>
    obtain ⟨hspan, halt, hlb, -⟩ := Linked.ifElse_inv hb h.balanced hl
    refine ⟨⟨_, hspan⟩, hlb, fun l L w => ?_⟩
    rw [length_cons, ← Nat.add_assoc, Nat.add_right_comm (pc + 1 + bcode.length)]
    exact goes_else hp.tail.right.head halt

theorem sim_else {x} (hb : Balanced bcode) (hc : Balanced code)
    (hp : m.Placed pc (plain .ifThen :: (bcode ++ plain .elseArm :: (code ++ [plain .endFrame]))))
    (hl : Linked m.links pc
      (plain .ifThen :: (bcode ++ plain .elseArm :: (code ++ [plain .endFrame]))))
    (hx : ∀ l : Label, l.name = [] → m.Placed (pc + 1 + bcode.length + 1) code →
      Linked m.links (pc + 1 + bcode.length + 1) code →
      Sim m names fuel ⟨pc + 1 + bcode.length + 1, l :: Λ, L, w⟩ x
        (Left m names ctx (pc + 1 + bcode.length + 1 + code.length) (l :: Λ) L)) :
    Sim m names fuel ⟨pc, Λ, 0 :: L, w⟩ x
      (Left m names ctx (pc + 1 + bcode.length + (code.length + 1) + 1) Λ L) := by
  obtain ⟨hspan, -, -, hlarm, -⟩ := Linked.ifElse_inv hb hc hl
  refine .step (goes_if_arm hp.head hspan rfl) rfl ?_
  refine (hx _ rfl hp.tail.right.tail.left hlarm).followed ?_
  rw [Nat.add_comm code.length 1, ← Nat.add_assoc (pc + 1 + bcode.length)]
  exact Left.leave fun _ _ => goes_end hp.tail.right.tail.right.head

theorem sim_while {n : Int64} {cond : Eval Int32} {body : Eval Signal} {ccode} (hc : Balanced ccode)
    (hb : Balanced bcode)
    (hcode : code = ⟨.loop, Instr.loopLabel n⟩ :: ⟨.block, Instr.blockLabel n⟩ ::
      (ccode ++ (plain .eqz :: ⟨.brIf, Instr.blockLabel n⟩ ::
        (bcode ++ [⟨.br, Instr.loopLabel n⟩, plain .endFrame, plain .endFrame]))))
    (hp : m.Placed pc code) (hl : Linked m.links pc code)
    (hcond : ∀ {f : LoopFrames} {pc w}, m.Placed pc ccode →
      Sim m names fuel ⟨pc, f.block :: f.loop :: f.outer, f.live, w⟩ cond
        (Pushed (pc + ccode.length) (f.block :: f.loop :: f.outer) f.live))
    (hbody : ∀ {f : LoopFrames} {pc w}, f.depth = n → m.Placed pc bcode → Linked m.links pc bcode →
      Sim m names fuel ⟨pc, f.block :: f.loop :: f.outer, f.live, w⟩ body
        (Left m names (some f) (pc + bcode.length) (f.block :: f.loop :: f.outer) f.live)) :
    Sim m names fuel ⟨pc, Λ, L, w⟩ (loopFor cond body fuel)
      (Left m names ctx (pc + code.length) Λ L) := by
  -- what is repeated, inside both frames
  obtain ⟨round, hround⟩ : ∃ round : List Instr, round = ccode ++ (plain .eqz ::
      ⟨.brIf, Instr.blockLabel n⟩ :: (bcode ++ [⟨.br, Instr.loopLabel n⟩])) := ⟨_, rfl⟩
  have hbal : Balanced round :=
    hround ▸ hc.append (.flat rfl (.flat rfl (hb.append (.one rfl))))
  rw [hcode, loopCode_eq, ← hround] at hp hl
  obtain ⟨hloop, hlblock, -⟩ := Linked.frame_inv rfl (.frame rfl rfl hbal .nil) hl
  obtain ⟨hblock, hlround, -⟩ := Linked.frame_inv rfl hbal hlblock
  have hinside := hp.tail.left.tail.left
  have hend := hp.tail.right.head
  have hstop : pc + 1 + (⟨.block, Instr.blockLabel n⟩ :: (round ++ [plain .endFrame])).length =
      pc + 1 + 1 + round.length + 1 := by
    simp only [length_cons, length_append, length_nil]
    omega
  have hlen : pc + code.length = pc + 1 + 1 + round.length + 1 + 1 := by
    simp only [hcode, hround, length_cons, length_append, length_nil]
    omega
  rw [hround] at hlround hinside
  obtain ⟨-, hltest⟩ := Linked.append_inv hc hlround
  obtain ⟨hlb, -⟩ := Linked.append_inv hb ((hltest.flat_inv rfl).flat_inv rfl)
  rw [hstop] at hloop hend
  rw [hlen]
  let f : LoopFrames := ⟨n, pc, pc + 1 + 1 + round.length, pc + 1 + 1 + round.length + 1, Λ, L⟩
  refine .step (goes_enter (b := true) hp.head hloop) rfl ?_
  exact sim_loop (f := f) hp.tail.left.head hblock (fun _ => hcond hinside.left)
    hinside.right.head hinside.right.tail.head (fun _ => hbody rfl hinside.right.tail.tail.left hlb)
    hinside.right.tail.tail.right.head hend rfl fuel w (Nat.le_refl _)

mutual

/-- Running the code of a statement does what the statement does. -/
theorem StmtCode.sim : ∀ {loop a code}, StmtCode loop a code → ∀ {ctx fuel pc Λ L w},
    ctx.map (·.depth) = loop → m.Covers names hosts calls → m.Placed pc code →
    Linked m.links pc code → (∀ site ∈ a.callSites true, hosts.Serves site) → LoopFrames.Around ctx Λ L →
    Sim m names fuel ⟨pc, Λ, L, w⟩ (a.exec hosts fuel) (Left m names ctx (pc + code.length) Λ L)
  | _, _, _, .comment, _, _, _, _, _, w, _, _, _, _, _, _ => .pure ⟨[], w, rfl⟩
  | _, _, _, .nothing, _, _, _, _, _, w, _, _, _, _, _, _ => .pure ⟨[], w, rfl⟩
  | _, _, _, .declare hd, _, _, _, _, _, w, _, _, _, _, _, _ => by
    rw [exec, execExprs_declared hd]
    exact .pure ⟨[], w, rfl⟩
  | _, _, _, .value h, _, _, _, _, _, _, _, hm, hp, _, hs, _ =>
    h.sim_alone hm.toKnows hp (sites_singleton.1 hs)
  | _, _, _, .assign ho hr h, _, _, _, _, _, _, _, hm, hp, _, hs, _ => by
    obtain ⟨hst, hsr⟩ := sites_cons.1 (sites_operation (sites_singleton.1 hs))
    rw [exec, execExprs_assign ho]
    refine (h.sim hr ho hm hp hst (sites_singleton.1 hsr)).bind ?_
    rintro _ _ ⟨w₁, rfl⟩
    exact .pure ⟨[], w₁, rfl⟩
  | _, _, _, .branches h, _, _, _, _, _, _, hctx, hm, hp, hl, hs, hΛ => by
    rw [exec, h.execExprs_eq]
    exact h.sim hctx hm hp hl (sites_singleton.1 hs) hΛ
  | _, _, _, .whileLoop hc hb, _, _, _, _, _, _, _, hm, hp, hl, hs, _ => by
    obtain ⟨hsc, hsb, -⟩ := sites_clause (sites_singleton.1 hs)
    exact sim_while hc.balanced hb.balanced rfl hp hl (fun hpc => hc.sim hm.toKnows hpc hsc)
      fun hf hpb hlb => hb.sim (congrArg some hf) hm hpb hlb hsb (.self _)
  | _, _, _, .ret, _, _, _, _, _, w, _, _, hp, _, _, _ =>
    .pure (finishes_ret hp.head fun _ h => nomatch h)
  | _, _, _, .retValue h, _, _, _, _, _, _, _, hm, hp, _, hs, _ => by
    rw [exec, execControl_return]
    refine (h.sim hm.toKnows hp.left (sites_singleton.1 hs)).bind ?_
    rintro v _ ⟨w₁, rfl⟩
    refine .pure (finishes_ret hp.right.head ?_)
    rintro _ ⟨⟩
    rfl
  | _, _, _, .brk, some f, _, _, _, _, w, hctx, _, hp, _, _, hΛ => by
    obtain rfl := Option.some.inj hctx
    exact .step (goes_break hΛ hp.head) rfl (.pure ⟨f, rfl, w, rfl⟩)
  | _, _, _, .cont, some f, _, _, _, _, w, hctx, _, hp, _, _, hΛ => by
    obtain rfl := Option.some.inj hctx
    exact .step (goes_continue hΛ hp.head) rfl (.pure ⟨f, rfl, w, rfl⟩)
  | _, _, _, @StmtCode.assertion _ _ _ code h, _, _, pc, _, _, _, _, hm, hp, hl, hs, _ => by
    obtain ⟨-, hlif⟩ := Linked.append_inv h.balanced hl
    obtain ⟨hspan, -⟩ := Linked.frame_inv (c := [_]) rfl (.one rfl) (hlif.flat_inv rfl)
    rw [exec, execControl_assert]
    refine (h.sim hm.toKnows hp.left (sites_singleton.1 hs)).bind ?_
    rintro v _ ⟨w₁, rfl⟩
    refine .step (goes_eqz hp.right.head) rfl ?_
    by_cases hv : v = 0
    · rw [if_pos hv]
      refine .step (goes_if_arm hp.right.tail.head hspan (if_pos (truth_ne_zero hv))) rfl ?_
      exact ⟨0, traps_unreachable hp.right.tail.tail.head⟩
    · rw [if_neg hv, truth_eq_zero hv, length_append, ← Nat.add_assoc]
      exact .step (goes_if_skip hp.right.tail.head hspan rfl) rfl (.pure ⟨[], w₁, rfl⟩)

theorem ArmsCode.sim : ∀ {loop clauses code},
    ArmsCode loop clauses code → ∀ {ctx fuel pc Λ L w}, ctx.map (·.depth) = loop →
    m.Covers names hosts calls → m.Placed pc code → Linked m.links pc code →
    (∀ site ∈ callSitesOf true clauses, hosts.Serves site) →
    LoopFrames.Around ctx Λ L → Sim m names fuel ⟨pc, Λ, L, w⟩ (execArms hosts fuel clauses)
      (Left m names ctx (pc + code.length) Λ L)
  | _, _, _, @ArmsCode.intro _ _ _ _ _ _ ccode bcode ecode _ hc hb he, _, _, pc, _, _, _, hctx, hm, hp,
      hl, hs, hΛ => by
    obtain ⟨hsc, hsb, hsrest⟩ := sites_clause hs
    obtain ⟨-, hlif⟩ := Linked.append_inv hc.balanced hl
    obtain ⟨⟨span, hspan⟩, hlb, hleave⟩ := he.leaves hb.balanced hp.right hlif
    have hstop :
        pc + (ccode ++ (plain .ifThen :: (bcode ++ (ecode ++ [plain .endFrame])))).length =
          pc + ccode.length + 1 + bcode.length + ecode.length + 1 := by
      simp only [length_append, length_cons, length_nil]
      omega
    rw [execArms, hstop]
    refine (hc.sim hm.toKnows hp.left hsc).bind ?_
    rintro v _ ⟨w₁, rfl⟩
    by_cases hv : v = 0
    · rw [if_pos hv, hv]
      exact he.sim hb.balanced hctx hm hp.right hlif hsrest hΛ
    · rw [if_neg hv]
      refine .step (goes_if_arm hp.right.head hspan (if_pos hv)) rfl ?_
      refine (hb.sim hctx hm hp.right.tail.left hlb hsb (hΛ.push rfl)).followed ?_
      exact Left.leave (hleave _)

theorem ElseCode.sim : ∀ {loop rest bcode ecode},
    ElseCode loop rest ecode → Balanced bcode → ∀ {ctx fuel pc Λ L w}, ctx.map (·.depth) = loop →
    m.Covers names hosts calls →
    m.Placed pc (plain .ifThen :: (bcode ++ (ecode ++ [plain .endFrame]))) →
    Linked m.links pc (plain .ifThen :: (bcode ++ (ecode ++ [plain .endFrame]))) →
    (∀ site ∈ callSitesOf true rest, hosts.Serves site) → LoopFrames.Around ctx Λ L →
    Sim m names fuel ⟨pc, Λ, 0 :: L, w⟩ (execArms hosts fuel rest)
      (Left m names ctx (pc + 1 + bcode.length + ecode.length + 1) Λ L)
  | _, _, _, _, .nil, hbal, _, _, _, _, _, w, _, _, hp, hl, _, _ => by
    obtain ⟨hspan, -⟩ := Linked.frame_inv rfl hbal hl
    exact .step (goes_if_skip hp.head hspan rfl) rfl (.pure ⟨[], w, rfl⟩)
  | _, _, _, _, .arms h, hbal, _, _, _, _, _, _, hctx, hm, hp, hl, hs, hΛ =>
    sim_else hbal h.balanced hp hl fun _ hname hparm hlarm =>
      h.sim hctx hm hparm hlarm hs (hΛ.push hname)
  | _, _, _, _, .otherwise h, hbal, _, _, _, _, _, _, hctx, hm, hp, hl, hs, hΛ =>
    sim_else hbal h.balanced hp hl fun _ hname hparm hlarm =>
      h.sim hctx hm hparm hlarm (sites_singleton.1 hs) (hΛ.push hname)

/-- By induction on the code: the machine ends as the statements do. -/
theorem StmtsCode.sim : ∀ {loop stmts code},
    StmtsCode loop stmts code → ∀ {ctx fuel pc Λ L w}, ctx.map (·.depth) = loop →
    m.Covers names hosts calls → m.Placed pc code → Linked m.links pc code →
    (∀ site ∈ callSitesOf true stmts, hosts.Serves site) →
    LoopFrames.Around ctx Λ L → Sim m names fuel ⟨pc, Λ, L, w⟩ (execStmts hosts fuel stmts)
      (Left m names ctx (pc + code.length) Λ L)
  | _, _, _, .nil, _, _, _, _, _, w, _, _, _, _, _, _ => .pure ⟨[], w, rfl⟩
  | _, _, _, .cons h hrest, _, _, _, _, _, _, hctx, hm, hp, hl, hs, hΛ => by
    obtain ⟨hsa, hsrest⟩ := sites_cons.1 hs
    obtain ⟨hla, hlrest⟩ := Linked.append_inv h.balanced hl
    rw [execStmts, length_append, ← Nat.add_assoc]
    refine (h.sim hctx hm hp.left hla hsa hΛ).bind ?_
    rintro (_ | _ | _ | r) c hc
    · -- what the statement left on the stack stays below
      obtain ⟨extra, w₁, rfl⟩ := hc
      exact (hrest.sim hctx hm hp.right hlrest hsrest (hΛ.grow extra)).mono fun _ _ => Left.shrink
    all_goals exact .pure hc

end

end

end WatScript
