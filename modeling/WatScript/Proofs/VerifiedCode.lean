import WatScript.Engine.Basic
import WatScript.Proofs.Immediates
import WatScript.Proofs.Lowered

/-!
# Generated code verifies

Lowered code is balanced: checked under any frames in which the labels of the enclosing loop are open,
it shows no fault and leaves the same frames open (`StmtCode.passes`). So `verify` finds nothing in a
generated body, and no engine rejects one.

The branches of a body are bound by their labels, each to the innermost open frame of that label
(`branchesOf`). They are the ones that the source asks for (`Atom.jumps`): `break` and `continue` go to
the block and the loop of the innermost `while` around them, and each `while` has its exit and its way
back. Loops are told apart by number, in the order in which the source, or the body, begins them.
-/

namespace WatScript

open List Atom Program Instr

variable {a : Atom} {code : List Instr} {isExpr : Bool} {name : String}

/-! ## Checking code piece by piece -/

/-- Checking `code` under the frames `before` reports nothing and leaves the frames `after` open. -/
def Passes (before : List VerifyFrame) (code : List Instr) (after : List VerifyFrame) : Prop :=
  ∀ offset rest,
    verifyFrom offset before (code ++ rest) = verifyFrom (offset + code.length) after rest

namespace Passes
variable {fs fs' fs'' : List VerifyFrame} {i : Instr} {c c' : List Instr}

theorem nil : Passes fs [] fs := fun _ _ => rfl

theorem cons (h : verifyInstr fs i = (fs', none)) (hc : Passes fs' c fs'') :
    Passes fs (i :: c) fs'' := by
  intro offset rest
  rw [cons_append, verifyFrom, h, length_cons, Nat.add_comm c.length, ← Nat.add_assoc]
  exact hc (offset + 1) rest

theorem append (h : Passes fs c fs') (h' : Passes fs' c' fs'') : Passes fs (c ++ c') fs'' := by
  intro offset rest
  rw [append_assoc, h, h', length_append, Nat.add_assoc]

theorem one (h : verifyInstr fs i = (fs', none)) : Passes fs [i] fs' := cons h nil

theorem verify_eq_nil (h : Passes [] c []) : verify c = [] := by
  have hc := h 0 []
  rw [append_nil] at hc
  exact hc

end Passes

section
variable {fs : List VerifyFrame}

theorem verifyInstr_const (v : Int32) : verifyInstr fs (.const v) = (fs, none) := by
  have hop : (Instr.const v).op = .const := rfl
  unfold verifyInstr
  rw [hop, Numeral.int32?_const]
  rfl

theorem isName_ident (h : name ≠ "") : isName (ident name) = true := by
  have hne : Text.ofString name ≠ [] := fun hnil =>
    h (Text.ofString_injective (hnil.trans (show [] = Text.ofString "" from rfl)))
  obtain ⟨g, rest, hg⟩ := exists_cons_of_ne_nil hne
  rw [ident, hg]
  rfl

theorem verifyInstr_localGet (h : name ≠ "") : verifyInstr fs (.localGet name) = (fs, none) := by
  simp [verifyInstr, Instr.localGet, isName_ident h]

theorem verifyInstr_localSet (h : name ≠ "") : verifyInstr fs (.localSet name) = (fs, none) := by
  simp [verifyInstr, Instr.localSet, isName_ident h]

theorem verifyInstr_call (h : name ≠ "") : verifyInstr fs (.call name) = (fs, none) := by
  simp [verifyInstr, Instr.call, isName_ident h]

theorem labelInScope_ident (h : ∃ f ∈ fs, f.label = ident name) :
    labelInScope fs (ident name) = true := by
  obtain ⟨f, hf, hl⟩ := h
  rw [labelInScope, Numeral.int64?_ident]
  simp only [Bool.and_eq_true]
  exact ⟨rfl, any_eq_true.2 ⟨f, hf, beq_iff_eq.2 hl⟩⟩

theorem Instr.IsStraight.verifyInstr_eq {i} (h : i.IsStraight) : verifyInstr fs i = (fs, none) := by
  cases h with
  | const v => exact verifyInstr_const v
  | localGet hw => exact verifyInstr_localGet hw
  | localSet hw => exact verifyInstr_localSet hw
  | call hw => exact verifyInstr_call hw
  | binary | load | store => rfl

theorem Straight.passes (h : Straight code) : Passes fs code fs := by
  induction code with
  | nil => exact .nil
  | cons i code ih =>
    obtain ⟨hi, hcode⟩ := forall_mem_cons.1 h
    exact .cons hi.verifyInstr_eq (ih hcode)

theorem ExprCode.passes (h : ExprCode a code) : Passes fs code fs :=
  h.straight.passes

end

/-! ## Statements -/

/-- The labels of the innermost loop are open. -/
def LabelsOpen (loop : Option Int64) (fs : List VerifyFrame) : Prop :=
  ∀ n ∈ loop, (∃ f ∈ fs, f.label = blockLabel n) ∧ ∃ f ∈ fs, f.label = loopLabel n

section
variable {loop : Option Int64} {fs : List VerifyFrame}

theorem LabelsOpen.push (h : LabelsOpen loop fs) (f : VerifyFrame) : LabelsOpen loop (f :: fs) := by
  intro n hn
  obtain ⟨⟨b, hb, hbl⟩, l, hl, hll⟩ := h n hn
  exact ⟨⟨b, mem_cons_of_mem _ hb, hbl⟩, l, mem_cons_of_mem _ hl, hll⟩

theorem LabelsOpen.frames (n : Int64) : LabelsOpen (some n)
    (⟨.block, blockLabel n, false⟩ :: ⟨.loop, loopLabel n, false⟩ :: fs) := by
  rintro _ ⟨⟩
  exact ⟨⟨_, mem_cons_self, rfl⟩, _, mem_cons_of_mem _ mem_cons_self, rfl⟩

theorem LabelsOpen.br_block {n op} (h : LabelsOpen (some n) fs)
    (hop : op = .br ∨ op = .brIf) : verifyInstr fs ⟨op, blockLabel n⟩ = (fs, none) := by
  have hl : labelInScope fs (blockLabel n) = true := labelInScope_ident (h n rfl).1
  rcases hop with rfl | rfl <;> simp [verifyInstr, hl]

theorem LabelsOpen.br_loop {n} (h : LabelsOpen (some n) fs) :
    verifyInstr fs ⟨.br, loopLabel n⟩ = (fs, none) := by
  have hl : labelInScope fs (loopLabel n) = true := labelInScope_ident (h n rfl).2
  simp [verifyInstr, hl]

mutual

theorem StmtCode.passes : ∀ {loop a code},
    StmtCode loop a code → ∀ {fs}, LabelsOpen loop fs → Passes fs code fs
  | _, _, _, .comment, _, _ => .nil
  | _, _, _, .nothing, _, _ => .nil
  | _, _, _, .declare _, _, _ => .nil
  | _, _, _, .value h, _, _ => h.passes
  | _, _, _, .assign _ hr h, _, _ => (h.straight hr.straight).passes
  | _, _, _, .branches h, _, hl => h.passes hl
  | _, _, _, .whileLoop hc hb, fs, _ => by
    refine .cons rfl (.cons rfl (hc.passes.append ?_))
    refine .cons rfl (.cons ((LabelsOpen.frames _).br_block (.inr rfl)) ?_)
    refine (hb.passes (.frames _)).append ?_
    exact .cons (LabelsOpen.frames _).br_loop (.cons rfl (.one rfl))
  | _, _, _, .ret, _, _ => .one rfl
  | _, _, _, .retValue h, _, _ => h.passes.append (.one rfl)
  | _, _, _, .brk, _, hl => .cons (hl.br_block (.inl rfl)) (.one rfl)
  | _, _, _, .cont, _, hl => .cons hl.br_loop (.one rfl)
  | _, _, _, .assertion h, _, _ =>
    h.passes.append (.cons rfl (.cons rfl (.cons rfl (.one rfl))))

theorem ArmsCode.passes : ∀ {loop clauses code},
    ArmsCode loop clauses code → ∀ {fs}, LabelsOpen loop fs → Passes fs code fs
  | _, _, _, .intro _ hc hb he, _, hl => by
    obtain ⟨hasElse, hrest⟩ := he.passes hl
    refine hc.passes.append (.cons rfl ((hb.passes (hl.push _)).append ?_))
    exact hrest.append (.one rfl)

theorem ElseCode.passes : ∀ {loop clauses code},
    ElseCode loop clauses code → ∀ {fs}, LabelsOpen loop fs →
    ∃ hasElse, Passes (⟨.ifThen, [], false⟩ :: fs) code (⟨.ifThen, [], hasElse⟩ :: fs)
  | _, _, _, .nil, _, _ => ⟨false, .nil⟩
  | _, _, _, .arms h, _, hl => ⟨true, .cons rfl (h.passes (hl.push _))⟩
  | _, _, _, .otherwise h, _, hl => ⟨true, .cons rfl (h.passes (hl.push _))⟩

theorem StmtsCode.passes : ∀ {loop stmts code},
    StmtsCode loop stmts code → ∀ {fs}, LabelsOpen loop fs → Passes fs code fs
  | _, _, _, .nil, _, _ => .nil
  | _, _, _, .cons h hs, _, hl => (h.passes hl).append (hs.passes hl)

end

end

/-! ## Where branches go -/

/-- A branch, and the frame that its label is bound to: what opened it, and the number of the loop that
it is or that it stands in. -/
structure Branch where
  op : Op
  target : Option (Op × Option Nat)
  deriving DecidableEq, Repr

mutual

/-- The number of loops that begin in a part of a program. -/
def Atom.loopCount : Atom → Nat
  | .exprStmt _ _ _ exprs => loopCountOf exprs
  | .chain _ clauses => loopCountOf clauses
  | .clause _ name _ body => if name == "while" then body.loopCount + 1 else body.loopCount
  | .block _ _ _ body => loopCountOf body
  | _ => 0

def loopCountOf : List Atom → Nat
  | [] => 0
  | a :: rest => a.loopCount + loopCountOf rest

end

mutual

/-- The branches that a part of a program asks for, in order. `first` numbers the next loop, and
`inner` is the number of the innermost loop around the part. -/
def Atom.jumps (first : Nat) (inner : Option Nat) : Atom → List Branch
  | .exprStmt _ _ _ exprs => jumpsOf first inner exprs
  | .chain _ clauses => jumpsOf first inner clauses
  | .clause _ name _ body =>
    if name == "while" then
      ⟨.brIf, some (.block, some first)⟩ ::
        (body.jumps (first + 1) (some first) ++ [⟨.br, some (.loop, some first)⟩])
    else body.jumps first inner
  | .block _ _ _ body => jumpsOf first inner body
  | .controlStmt _ "break" _ _ _ => [⟨.br, some (.block, inner)⟩]
  | .controlStmt _ "continue" _ _ _ => [⟨.br, some (.loop, inner)⟩]
  | _ => []

def jumpsOf (first : Nat) (inner : Option Nat) : List Atom → List Branch
  | [] => []
  | a :: rest => a.jumps first inner ++ jumpsOf (first + a.loopCount) inner rest

end

/-- The branch is bound to a frame of some loop. -/
def Branch.IsInLoop (b : Branch) : Prop := ∃ frame number, b.target = some (frame, some number)

/-- An open frame of a body, with the number of the loop that it is or that it stands in. -/
structure NumberedFrame where
  op : Op
  label : Text
  loop : Option Nat

/-- The branches of code under open frames, innermost first; `first` numbers the next loop. -/
def branchesFrom (first : Nat) (frames : List NumberedFrame) : List Instr → List Branch
  | [] => []
  | i :: rest =>
    match i.op with
    | .loop => branchesFrom (first + 1) (⟨.loop, i.imm, some first⟩ :: frames) rest
    | .block | .ifThen =>
      branchesFrom first (⟨i.op, i.imm, frames.head?.bind (·.loop)⟩ :: frames) rest
    | .endFrame => branchesFrom first frames.tail rest
    | .br | .brIf =>
      ⟨i.op, (frames.find? (·.label == i.imm)).map fun f => (f.op, f.loop)⟩ ::
        branchesFrom first frames rest
    | _ => branchesFrom first frames rest

/-- The branches of a body, each with the innermost open frame of its label. -/
def branchesOf (code : List Instr) : List Branch := branchesFrom 0 [] code

section
variable {n : Nat} {fs : List NumberedFrame} {rest : List Instr}

/-- The instruction neither opens nor ends a frame, nor branches. -/
def Op.isStraight : Op → Bool
  | .block | .loop | .ifThen | .endFrame | .br | .brIf => false
  | _ => true

theorem branchesFrom_straight {i} (h : i.op.isStraight = true) :
    branchesFrom n fs (i :: rest) = branchesFrom n fs rest := by
  rw [branchesFrom]
  split <;> simp_all [Op.isStraight]

theorem Straight.branchesFrom_append (h : Straight code) :
    branchesFrom n fs (code ++ rest) = branchesFrom n fs rest := by
  induction code with
  | nil => rfl
  | cons i code ih =>
    obtain ⟨hi, hcode⟩ := forall_mem_cons.1 h
    have hop : i.op.isStraight = true := by cases hi <;> rfl
    rw [cons_append, branchesFrom_straight hop, ih hcode]

theorem ExprCode.jumps_eq (h : ExprCode a code) (k : Option Nat) :
    a.jumps n k = [] ∧ a.loopCount = 0 := by
  cases h <;> exact ⟨rfl, rfl⟩

/-- The labels of the loop `loop` are bound to the frames of loop number `inner`. -/
def Bound (loop : Option Int64) (inner : Option Nat) (fs : List NumberedFrame) : Prop :=
  ∀ d ∈ loop, inner.isSome = true ∧
    fs.find? (·.label == blockLabel d) = some ⟨.block, blockLabel d, inner⟩ ∧
      fs.find? (·.label == loopLabel d) = some ⟨.loop, loopLabel d, inner⟩

theorem Bound.push_if {loop inner} (h : Bound loop inner fs)
    (k : Option Nat) : Bound loop inner (⟨.ifThen, [], k⟩ :: fs) := by
  intro d hd
  have hb : (([] : Text) == blockLabel d) = false := rfl
  have hl : (([] : Text) == loopLabel d) = false := rfl
  rw [find?_cons, find?_cons, hb, hl]
  exact h d hd

theorem Bound.frames (d : Int64) : Bound (some d) (some n)
    (⟨.block, blockLabel d, some n⟩ :: ⟨.loop, loopLabel d, some n⟩ :: fs) := by
  rintro _ ⟨⟩
  have hne : (blockLabel d == loopLabel d) = false :=
    beq_eq_false_iff_ne.2 (blockLabel_ne_loopLabel d d)
  simp [hne]

theorem branchesFrom_branch {op label f} (hop : op = .br ∨ op = .brIf)
    (hf : fs.find? (·.label == label) = some f) : branchesFrom n fs (⟨op, label⟩ :: rest) =
      ⟨op, some (f.op, f.loop)⟩ :: branchesFrom n fs rest := by
  rcases hop with rfl | rfl <;> simp only [branchesFrom, hf, Option.map_some]

theorem branchesFrom_frames (d : Int64) :
    branchesFrom n fs (⟨.loop, loopLabel d⟩ :: ⟨.block, blockLabel d⟩ :: rest) =
      branchesFrom (n + 1) (⟨.block, blockLabel d, some n⟩ ::
        ⟨.loop, loopLabel d, some n⟩ :: fs) rest := rfl

theorem declared?_jumps {exprs} (h : declared? exprs = some name)
    (k : Option Nat) : jumpsOf n k exprs = [] ∧ loopCountOf exprs = 0 := by
  obtain ⟨-, ⟨l, l', rfl⟩ | ⟨l, l', l'', rfl⟩⟩ := declared?_inv h
  · exact ⟨rfl, rfl⟩
  · exact ⟨rfl, rfl⟩

/-- The branches of code are `jumps`, all of them in loops, and it begins `count` loops. -/
structure Jumps (n : Nat) (fs : List NumberedFrame) (code : List Instr) (count : Nat)
    (jumps : List Branch) : Prop where
  eq : ∀ rest, branchesFrom n fs (code ++ rest) = jumps ++ branchesFrom (n + count) fs rest
  inside : ∀ b ∈ jumps, b.IsInLoop

namespace Jumps
variable {count count' : Nat} {code code' : List Instr} {jumps jumps' : List Branch}

theorem of_straight (h : Straight code) : Jumps n fs code 0 [] :=
  ⟨fun _ => h.branchesFrom_append, forall_mem_nil _⟩

theorem nil : Jumps n fs [] 0 [] := of_straight (forall_mem_nil _)

theorem append (h : Jumps n fs code count jumps) (h' : Jumps (n + count) fs code' count' jumps') :
    Jumps n fs (code ++ code') (count + count') (jumps ++ jumps') where
  eq rest := by rw [append_assoc, h.eq, h'.eq, append_assoc, Nat.add_assoc]
  inside := forall_mem_append.2 ⟨h.inside, h'.inside⟩

theorem cons {i} (hi : i.op.isStraight = true) (h : Jumps n fs code count jumps) :
    Jumps n fs (i :: code) count jumps :=
  ⟨fun rest => (branchesFrom_straight hi).trans (h.eq rest), h.inside⟩

theorem branch {op label f} (hop : op = .br ∨ op = .brIf)
    (hf : fs.find? (·.label == label) = some f) (hloop : f.loop.isSome = true)
    (h : Jumps n fs code count jumps) :
    Jumps n fs (⟨op, label⟩ :: code) count (⟨op, some (f.op, f.loop)⟩ :: jumps) := by
  obtain ⟨k, hk⟩ := Option.isSome_iff_exists.1 hloop
  refine ⟨fun rest => ?_, forall_mem_cons.2 ⟨⟨f.op, k, by rw [hk]⟩, h.inside⟩⟩
  rw [cons_append, branchesFrom_branch hop hf, h.eq, cons_append]

theorem ifThen (h : Jumps n (⟨.ifThen, [], fs.head?.bind (·.loop)⟩ :: fs) code count jumps) :
    Jumps n fs (.plain .ifThen :: (code ++ [.plain .endFrame])) count jumps := by
  refine ⟨fun rest => ?_, h.inside⟩
  rw [cons_append, append_assoc]
  exact h.eq _

theorem loop {d : Int64} (h : Jumps (n + 1)
      (⟨.block, blockLabel d, some n⟩ :: ⟨.loop, loopLabel d, some n⟩ :: fs) code count jumps) :
    Jumps n fs (⟨.loop, loopLabel d⟩ :: ⟨.block, blockLabel d⟩ ::
      (code ++ [.plain .endFrame, .plain .endFrame])) (count + 1) jumps := by
  refine ⟨fun rest => ?_, h.inside⟩
  rw [cons_append, cons_append, append_assoc, branchesFrom_frames, h.eq, Nat.add_right_comm]
  rfl

end Jumps

mutual

/-- The branches of the code are the jumps of the source, and each finds its frame. -/
theorem StmtCode.jumps : ∀ {loop a code}, StmtCode loop a code → ∀ {n k fs}, Bound loop k fs →
    Jumps n fs code a.loopCount (a.jumps n k)
  | _, _, _, .comment, _, _, _, _ => .nil
  | _, _, _, .nothing, _, _, _, _ => .nil
  | _, _, _, .declare h, n, k, _, _ => by
    obtain ⟨hj, hc⟩ := declared?_jumps (n := n) h k
    rw [Atom.jumps, loopCount, hj, hc]
    exact .nil
  | _, _, _, .value h, n, k, _, _ => by
    obtain ⟨hj, hc⟩ := h.jumps_eq (n := n) k
    rw [Atom.jumps, loopCount, jumpsOf, loopCountOf, hj, hc]
    exact .of_straight h.straight
  | _, _, _, .assign _ hr h, _, _, _, _ => .of_straight (h.straight hr.straight)
  | _, _, _, .branches h, n, k, fs, hb => by
    simpa [Atom.jumps, jumpsOf, loopCount, loopCountOf] using h.jumps hb
  | _, _, _, @StmtCode.whileLoop _ lv _ _ ccode bcode hc hbody, n, k, fs, _ => by
    have hbound := @Bound.frames n fs lv.loops
    obtain ⟨-, hblock, hloop⟩ := hbound _ rfl
    -- what is repeated, inside both frames
    have hround := (Jumps.of_straight (n := n + 1) hc.straight).append (.cons (i := .plain .eqz) rfl
      (.branch (.inr rfl) hblock rfl ((hbody.jumps hbound).append (.branch (.inl rfl) hloop rfl .nil))))
    simpa [Atom.jumps, jumpsOf, loopCount, loopCountOf] using hround.loop
  | _, _, _, .ret, _, _, _, _ => .cons rfl .nil
  | _, _, _, .retValue h, _, _, _, _ => (Jumps.of_straight h.straight).append (.cons rfl .nil)
  | _, _, _, .brk, _, _, _, hb =>
    .branch (.inl rfl) (hb _ rfl).2.1 (hb _ rfl).1 (.cons rfl .nil)
  | _, _, _, .cont, _, _, _, hb =>
    .branch (.inl rfl) (hb _ rfl).2.2 (hb _ rfl).1 (.cons rfl .nil)
  | _, _, _, .assertion h, _, _, _, _ =>
    (Jumps.of_straight h.straight).append (.cons rfl (.ifThen (.cons rfl .nil)))

theorem ArmsCode.jumps : ∀ {loop clauses code}, ArmsCode loop clauses code → ∀ {n k fs},
    Bound loop k fs → Jumps n fs code (loopCountOf clauses) (jumpsOf n k clauses)
  | _, _, _, @ArmsCode.intro _ lv name _ _ _ _ _ _ hname hc hb he, n, k, fs, hbound => by
    have hwhile : (name == "while") = false := by rcases hname with rfl | rfl <;> rfl
    have hpush := hbound.push_if (fs.head?.bind (·.loop))
    have hinside := (Jumps.of_straight hc.straight).append
      (.ifThen ((hb.jumps (n := n) hpush).append (he.jumps hpush)))
    simpa [Atom.jumps, jumpsOf, loopCount, loopCountOf, hwhile] using hinside

theorem ElseCode.jumps : ∀ {loop clauses code}, ElseCode loop clauses code → ∀ {n k fs},
    Bound loop k fs → Jumps n fs code (loopCountOf clauses) (jumpsOf n k clauses)
  | _, _, _, .nil, _, _, _, _ => .nil
  | _, _, _, .arms h, _, _, _, hb => .cons rfl (h.jumps hb)
  | _, _, _, .otherwise h, _, _, _, hb => by
    simpa [Atom.jumps, jumpsOf, loopCount, loopCountOf] using Jumps.cons rfl (h.jumps hb)

theorem StmtsCode.jumps : ∀ {loop stmts code}, StmtsCode loop stmts code → ∀ {n k fs},
    Bound loop k fs → Jumps n fs code (loopCountOf stmts) (jumpsOf n k stmts)
  | _, _, _, .nil, _, _, _, _ => .nil
  | _, _, _, .cons h hs, _, _, _, hb => (h.jumps hb).append (hs.jumps hb)

end

end

/-! ## Generated bodies -/

section
variable {limit : Int64} {text : Text} {atoms : List Atom} {code : List Instr}

theorem verify_generateStmts (hp : parseStmts limit text = .ok atoms)
    (hg : generateStmts atoms = .ok code) : verify code = [] :=
  ((stmtsCode_of_generate hp hg).passes (fun _ hn => by cases hn)).verify_eq_nil

theorem verify_generateExpr (hp : parseExpr limit text = .ok atoms)
    (hg : generateExpr atoms = .ok code) : verify code = [] := by
  obtain ⟨a, -, hc⟩ := exprCode_of_generate hp hg
  exact hc.passes.verify_eq_nil

theorem branchesOf_generateStmts (hp : parseStmts limit text = .ok atoms)
    (hg : generateStmts atoms = .ok code) :
    branchesOf code = jumpsOf 0 none atoms ∧ ∀ b ∈ branchesOf code, b.IsInLoop := by
  have hjumps : Jumps 0 [] code _ (jumpsOf 0 none atoms) :=
    (stmtsCode_of_generate hp hg).jumps fun _ hd => by cases hd
  have hb := hjumps.eq []
  rw [append_nil, branchesFrom, append_nil] at hb
  exact ⟨hb, fun b h => hjumps.inside b (hb ▸ h)⟩

theorem branchesOf_generateExpr (hp : parseExpr limit text = .ok atoms)
    (hg : generateExpr atoms = .ok code) : branchesOf code = [] := by
  obtain ⟨a, -, hc⟩ := exprCode_of_generate hp hg
  have hb : branchesFrom 0 [] (code ++ []) = branchesFrom 0 [] [] := hc.straight.branchesFrom_append
  rwa [append_nil] at hb

theorem Program.verify_generate {maxDepth} (hr : read maxDepth isExpr text = .ok atoms)
    (hg : generate isExpr atoms = .ok code) : verify code = [] := by
  cases isExpr with
  | true => exact verify_generateExpr hr hg
  | false => exact verify_generateStmts hr hg

theorem Program.build_ok {config isExpr} (hr : read config.maxDepth isExpr text = .ok atoms)
    (hg : generate isExpr atoms = .ok code) : ∃ p, build config isExpr text = .ok p ∧
      p.code = code ∧ p.symbols = Symbols.ofRun atoms := by
  have hv := verify_generate hr hg
  simp only [build, hr, hg, hv, Except.mapError, bind, Except.bind, pure, Except.pure]
  cases config.verify <;> exact ⟨_, rfl, rfl, rfl⟩

theorem Program.build_inv {config p} (h : build config isExpr text = .ok p) :
    read config.maxDepth isExpr text = .ok p.atoms ∧
      generate isExpr p.atoms = .ok p.code ∧ p.symbols = Symbols.ofRun p.atoms ∧
      (p.yields, p.tailCall) = if isExpr then (true, none) else tailOf p.atoms := by
  unfold build at h
  obtain ⟨atoms, hr, h⟩ := bind_ok h
  obtain ⟨code, hg, h⟩ := bind_ok h
  have hr := mapError_ok hr
  have hg := mapError_ok hg
  simp only [verify_generate hr hg] at h
  cases hverify : config.verify
  all_goals
    rw [hverify] at h
    cases h
    exact ⟨hr, hg, rfl, rfl⟩

theorem Program.build_ne_rejected (config : Config) (isExpr : Bool) (f : VerifyFault) :
    build config isExpr text ≠ .error (.rejected f) := by
  intro h
  cases hr : read config.maxDepth isExpr text with
  | error e =>
    rw [build, hr] at h
    cases h
  | ok atoms =>
    cases hg : generate isExpr atoms with
    | error e =>
      simp only [build, hr, hg, Except.mapError, bind, Except.bind] at h
      cases h
    | ok code =>
      obtain ⟨p, hp, -⟩ := build_ok hr hg
      rw [hp] at h
      cases h

theorem Engine.compile_ne_rejected (e : Engine) (isExpr : Bool) (f : VerifyFault) :
    (e.compile isExpr text).2 ≠ .error (.rejected f) := by
  unfold Engine.compile Engine.compileNormal
  split
  · exact fun h => by cases h
  · dsimp only
    split
    · rename_i hb
      intro h
      cases h
      exact build_ne_rejected _ _ _ hb
    · exact fun h => by cases h

end

/-- Whatever the text and the nesting limit, code that is generated for it passes verification, so no
engine rejects it. The branches of a body are those that its statements ask for, all of them in loops:
each `break` and `continue` is bound to the block and the loop of the innermost `while` around it. -/
theorem generated_code_verifies (limit : Int64) (text : Text) :
    (∀ stmts code, parseStmts limit text = .ok stmts → generateStmts stmts = .ok code →
      verify code = [] ∧ branchesOf code = jumpsOf 0 none stmts ∧
        ∀ b ∈ branchesOf code, b.IsInLoop) ∧
    (∀ exprs code, parseExpr limit text = .ok exprs → generateExpr exprs = .ok code →
      verify code = [] ∧ branchesOf code = []) ∧
    ∀ (e : Engine) (isExpr : Bool) (f : VerifyFault),
      (e.compile isExpr text).2 ≠ .error (.rejected f) := by
  refine ⟨fun stmts code hp hg => ?_, fun exprs code hp hg => ?_, fun e isExpr f => ?_⟩
  · exact ⟨verify_generateStmts hp hg, branchesOf_generateStmts hp hg⟩
  · exact ⟨verify_generateExpr hp hg, branchesOf_generateExpr hp hg⟩
  · exact e.compile_ne_rejected isExpr f

/-- A `break` of the outer loop after an inner one, and a `continue` of the inner loop. -/
theorem generated_code_verifies_nested :
    ∃ stmts code,
      parseStmts 8 (.ofString
        "while (a) { while (b) { if (f(a)) { continue }; b -= 1 }; break }") = .ok stmts ∧
      generateStmts stmts = .ok code ∧ verify code = [] ∧
      branchesOf code = [⟨.brIf, some (.block, some 0)⟩, ⟨.brIf, some (.block, some 1)⟩,
        ⟨.br, some (.loop, some 1)⟩, ⟨.br, some (.loop, some 1)⟩, ⟨.br, some (.block, some 0)⟩,
        ⟨.br, some (.loop, some 0)⟩] := by
  have hok : (parseStmts 8 (.ofString
      "while (a) { while (b) { if (f(a)) { continue }; b -= 1 }; break }") >>= fun stmts =>
        (generateStmts stmts).mapError (fun _ => .unexpectedNode) >>= fun _ =>
          .ok (jumpsOf 0 none stmts)) = .ok [⟨.brIf, some (.block, some 0)⟩,
        ⟨.brIf, some (.block, some 1)⟩, ⟨.br, some (.loop, some 1)⟩, ⟨.br, some (.loop, some 1)⟩,
        ⟨.br, some (.block, some 0)⟩, ⟨.br, some (.loop, some 0)⟩] := by
    decide +kernel
  obtain ⟨stmts, hp, hok⟩ := bind_ok hok
  obtain ⟨code, hg, hj⟩ := bind_ok hok
  have hg := mapError_ok hg
  obtain ⟨hv, hb, -⟩ := (generated_code_verifies 8 _).1 stmts code hp hg
  exact ⟨stmts, code, hp, hg, hv, hb.trans (Except.ok.inj hj)⟩

end WatScript
