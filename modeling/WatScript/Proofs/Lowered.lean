import WatScript.Codegen.Lower
import WatScript.Proofs.Trees

/-!
# Lowered code

Which instructions a resolved tree is lowered to. `ExprCode a code` and `StmtCode loop a code` list the
trees that have code, one rule for each construct, with the code put together from the code of the
parts. `loop` is the depth that names the frames of the innermost enclosing `while`, if there is one.

Lowering a tree that reading produced either yields such code, or fails for a reason other than an
unexpected tree (`ExprTree.yields`, `StmtTree.yields`). So what holds of all generated code is shown by
induction on these rules.
-/

namespace WatScript

open List Atom
open Instr (plain)

variable {P : List Instr → Prop} {contents exprs : List Atom} {e : GenFault} {name o w : String}
  {op : Option BinOp} {right : Atom}

/-! ## Emission -/

/-- Emission that ends with code in `P`, or fails on a tree that reading may produce. -/
def Gen.Yields (P : List Instr → Prop) (g : Gen Unit) : Prop :=
  match g.result with
  | .ok _ => P g.code
  | .error e => e ≠ .unexpectedTree

namespace Gen.Yields
variable {P Q : List Instr → Prop} {g : Gen Unit} {f : Unit → Gen Unit}

theorem pure (h : P []) : Yields P (Pure.pure ()) := h

theorem emit {i} (h : P [i]) : Yields P (Gen.emit i) := h

theorem fail (h : e ≠ .unexpectedTree) : Yields P (Gen.fail e) := h

theorem mono (hg : Yields P g) (h : ∀ c, P c → Q c) : Yields Q g := by
  unfold Yields at hg ⊢
  split <;> simp_all

theorem bind (hg : Yields P g) (hf : ∀ c, P c → Yields (fun c' => Q (c ++ c')) (f ())) :
    Yields Q (g >>= f) := by
  simp only [Yields, Bind.bind, Gen.bind] at hg ⊢
  cases hr : g.result with
  | error e =>
    rw [hr] at hg
    exact hg
  | ok u =>
    rw [hr] at hg
    exact hf g.code hg

theorem with_code (hg : Yields P g) : Yields (fun c => c = g.code ∧ P c) g := by
  unfold Yields at hg ⊢
  split at hg
  · exact ⟨rfl, hg⟩
  · exact hg

theorem emit_bind {i} (hf : Yields (fun c => P (i :: c)) (f ())) : Yields P (Gen.emit i >>= f) :=
  bind (P := (· = [i])) rfl fun _ h => h ▸ hf

theorem require_bind {c} (hc : c = false → e ≠ .unexpectedTree)
    (hf : c = true → Yields P (f ())) : Yields P (Gen.require c e >>= f) := by
  cases c with
  | false => exact hc rfl
  | true => exact hf rfl

end Gen.Yields

/-! ## Code of expressions -/

mutual

/-- The code of an expression, which leaves one value. -/
inductive ExprCode : Atom → List Instr → Prop
  | number {lv w v} : isNumeric w = true → parseNumber w = .ok v → ExprCode (.word lv w) [.const v]
  | name {lv w} : w ≠ "" → isNameable w = true → ExprCode (.word lv w) [.localGet w]
  | paren {lv a code} : ExprCode a code → ExprCode (.paren lv [] true [a]) code
  | item {lv a code} : ExprCode a code → ExprCode (.item lv [] true [a]) code
  | binary {lv o op left right lcode rcode} :
      binaryOp? o = some op → ExprCode left lcode → ExprCode right rcode →
      ExprCode (.call lv (.operator lv o) [] true true [left, right])
        (lcode ++ (rcode ++ [plain (.binary op)]))
  | unary {lv o op v right rcode} :
      binaryOp? o = some op → implicitLeft? o = some v → ExprCode right rcode →
      ExprCode (.call lv (.operator lv o) [] true true [.item lv [] true [], right])
        (.const v :: (rcode ++ [plain (.binary op)]))
  | call {lv name args code} : name ≠ "" → isNameable name = true → ArgsCode args code →
      ExprCode (.call lv (.word lv name) [] true true args) (code ++ [.call name])
  | load {lv index code} : ExprCode index code →
      ExprCode (.access lv (.word lv Keyword.memory) [] true [index]) (code ++ [plain .load])

/-- The code of arguments, which leaves one value for each. -/
inductive ArgsCode : List Atom → List Instr → Prop
  | nil : ArgsCode [] []
  | cons {a rest code codes} : ExprCode a code →
      ArgsCode rest codes → ArgsCode (a :: rest) (code ++ codes)

end

theorem parseNumber_error (h : parseNumber w = .error e) : e = .invalidNumber := by
  unfold parseNumber at h
  split at h
  · cases h
  split at h
  · cases h
  split at h
  · cases h; rfl
  split at h
  · cases h
  · cases h; rfl

section
variable {lv : Level} {a : Atom}

theorem genWord_yields (hw : w ≠ "") : (genWord w).Yields (ExprCode (.word lv w)) := by
  unfold genWord
  split
  · rename_i hnum
    cases hn : parseNumber w with
    | error e =>
      obtain rfl := parseNumber_error hn
      exact (by decide : GenFault.invalidNumber ≠ .unexpectedTree)
    | ok v => exact .emit (.number hnum hn)
  · rename_i hnum
    split
    · exact .fail (by decide)
    · rename_i hmem
      split
      · exact .fail (by decide)
      · rename_i hres
        refine .emit (.name hw ?_)
        simp only [Bool.not_eq_true] at hnum hres
        simpa [isNameable, hnum, hres] using hmem

theorem genSingle_yields (h : ∀ a ∈ contents, (genExpr a).Yields (ExprCode a)) :
    (genSingle contents).Yields (fun c => ∃ a, contents = [a] ∧ ExprCode a c) := by
  unfold genSingle
  split
  · exact (h _ mem_cons_self).mono fun c hc => ⟨_, rfl, hc⟩
  · exact .fail (by decide)

theorem genEach_yields : ∀ {args}, (∀ a ∈ args, (genExpr a).Yields (ExprCode a)) →
    (genEach args).Yields (ArgsCode args)
  | [], _ => by
    rw [genEach]
    exact .pure .nil
  | a :: rest, h => by
    rw [genEach]
    obtain ⟨ha, hrest⟩ := forall_mem_cons.1 h
    exact ha.bind fun c hc => (genEach_yields hrest).mono fun cs hcs => .cons hc hcs

theorem ClauseTree.settled (h : ClauseTree lv a) : a.clauseSettled = true := by
  cases h <;> rfl

theorem ExprTree.isReady (h : ExprTree lv a) : a.isReady = true := by
  cases h with
  | chain hw hc =>
    have : List.all _ clauseSettled = true := all_eq_true.2 fun c hm => (hc c hm).settled
    simp only [isReady, isResolved?, this]
    rfl
  | _ => rfl

theorem genCell_yields {callee index} (hc : ExprTree lv callee)
    (h : ∀ a ∈ index, (genExpr a).Yields (ExprCode a)) : (genCell callee true index).Yields fun c =>
      ∃ a, callee = .word lv Keyword.memory ∧ index = [a] ∧ ExprCode a c := by
  unfold genCell
  cases hc with
  | word =>
    refine .require_bind (fun h => by cases h) fun _ => ?_
    refine .require_bind (fun _ => by decide) fun hmem => ?_
    split
    · rename_i a
      exact (h a mem_cons_self).mono fun c hcode => ⟨a, by rw [beq_iff_eq.1 hmem], rfl, hcode⟩
    · exact .fail (by decide)
  | _ => exact .require_bind (fun h => by cases h) fun _ => .fail (by decide)

theorem genOperation_yields {left} (hl : ItemTree lv left)
    (hr : ItemTree lv right) (hleft : (genExpr left).Yields (ExprCode left))
    (hright : (genExpr right).Yields (ExprCode right)) : (genOperation o [left, right]).Yields
      (ExprCode (.call lv (.operator lv o) [] true true [left, right])) := by
  rw [genOperation]
  refine .require_bind (fun h => ?_) fun _ => .require_bind (fun _ => by decide) fun _ => ?_
  · cases hl; cases hr; cases h
  split
  · exact .fail (by decide)
  rename_i op hop
  cases hl with
  | @intro _ contents _ =>
    cases contents with
    | nil =>
      simp only [isEmptyItem?, isEmpty_nil, if_true, beq_self_eq_true]
      split
      · rename_i v hv
        refine .emit_bind (hright.bind fun c hc => .emit ?_)
        exact .unary hop hv hc
      · exact Gen.Yields.fail (P := fun _ => True) (by decide)
    | cons a rest =>
      simp only [isEmptyItem?, isEmpty_cons, if_true]
      refine hleft.bind fun c hc => hright.bind fun c' hc' => .emit ?_
      exact .binary hop hc hc'

theorem ExprTree.require_ready {f} (h : ExprTree lv a) (hf : (f ()).Yields P) :
    (Gen.require a.isReady .unexpectedTree >>= f).Yields P :=
  .require_bind (fun hr => by rw [h.isReady] at hr; cases hr) fun _ => hf

mutual

theorem ExprTree.yields : ∀ {lv a}, ExprTree lv a → (genExpr a).Yields (ExprCode a)
  | _, _, .literal => by
    rw [genExpr]
    exact ExprTree.literal.require_ready (.fail (by decide))
  | _, _, .word hw => by
    rw [genExpr]
    exact (ExprTree.word hw).require_ready (genWord_yields hw)
  | _, _, .block h => by
    rw [genExpr]
    exact (ExprTree.block h).require_ready (.fail (by decide))
  | _, _, .paren h => by
    rw [genExpr]
    refine (ExprTree.paren h).require_ready ?_
    refine (genSingle_yields fun a ha => (h a ha).yields).mono ?_
    rintro c ⟨a, rfl, hc⟩
    exact .paren hc
  | _, _, .list h => by
    rw [genExpr]
    exact (ExprTree.list h).require_ready (.fail (by decide))
  | _, _, .operation ho hl hr => by
    rw [genExpr]
    refine (ExprTree.operation ho hl hr).require_ready ?_
    exact genOperation_yields hl hr hl.yields hr.yields
  | _, _, .call hcall hc h => by
    have hready := fun {P f} => (ExprTree.call hcall hc h).require_ready (P := P) (f := f)
    cases hc with
    | word hw =>
      rw [genExpr]
      refine hready (.require_bind (fun _ => by decide) fun hname => ?_)
      refine (genEach_yields fun a ha => (h a ha).yields).bind fun c hargs => .emit ?_
      exact .call hw hname hargs
    | _ =>
      unfold genExpr
      exact hready (.fail (by decide))
  | _, _, .access hcall hc h => by
    rw [genExpr]
    refine (ExprTree.access hcall hc h).require_ready ?_
    refine (genCell_yields hc fun a ha => (h a ha).yields).bind ?_
    rintro c ⟨a, rfl, rfl, hcode⟩
    exact .emit (.load hcode)
  | _, _, .chain hw h => by
    rw [genExpr]
    exact (ExprTree.chain hw h).require_ready (.fail (by decide))

theorem ItemTree.yields : ∀ {lv a}, ItemTree lv a → (genExpr a).Yields (ExprCode a)
  | _, _, .intro h => by
    rw [genExpr]
    refine .require_bind (fun h => by cases h) fun _ => ?_
    refine (genSingle_yields fun a ha => (h a ha).yields).mono ?_
    rintro c ⟨a, rfl, hc⟩
    exact .item hc

end

end

/-! ## Code of statements -/

/-- The operation behind an assignment operator; the inner `none` is plain assignment. -/
def assignOp? : String → Option (Option BinOp)
  | "=" => some none
  | "+=" => some (some .add)
  | "-=" => some (some .sub)
  | "*=" => some (some .mul)
  | "/=" => some (some .div)
  | "%=" => some (some .rem)
  | _ => none

/-- The code of an assignment to a target that was read as `contents`, around the code of the value
to assign. -/
inductive AssignCode : List Atom → Option BinOp → List Instr → List Instr → Prop
  | declare {contents name rcode} : name ≠ "" →
      declared? contents = some name → AssignCode contents none rcode (rcode ++ [.localSet name])
  | setLocal {lv name rcode} : name ≠ "" →
      isNameable name = true → AssignCode [.word lv name] none rcode (rcode ++ [.localSet name])
  | updateLocal {lv name op rcode} : name ≠ "" →
      isNameable name = true → AssignCode [.word lv name] (some op) rcode
        (.localGet name :: (rcode ++ [plain (.binary op), .localSet name]))
  | setCell {lv index icode rcode} : ExprCode index icode →
      AssignCode [.access lv (.word lv Keyword.memory) [] true [index]] none rcode
        (icode ++ (rcode ++ [plain .store]))
  | updateCell {lv index op icode rcode} : ExprCode index icode →
      AssignCode [.access lv (.word lv Keyword.memory) [] true [index]] (some op) rcode
        (icode ++ (icode ++ (plain .load :: (rcode ++ [plain (.binary op), plain .store]))))

/-- The instructions of expressions and assignments. -/
inductive Instr.IsStraight : Instr → Prop
  | const (v : Int32) : IsStraight (.const v)
  | localGet {name : String} : name ≠ "" → IsStraight (.localGet name)
  | localSet {name : String} : name ≠ "" → IsStraight (.localSet name)
  | call {name : String} : name ≠ "" → IsStraight (.call name)
  | binary (op : BinOp) : IsStraight (plain (.binary op))
  | load : IsStraight (plain .load)
  | store : IsStraight (plain .store)

/-- Code without frames and jumps. -/
def Straight (code : List Instr) : Prop := ∀ i ∈ code, i.IsStraight

namespace Straight
variable {i : Instr} {c c' : List Instr}

theorem one (h : i.IsStraight) : Straight [i] := forall_mem_singleton.2 h

theorem cons (h : i.IsStraight) (hc : Straight c) : Straight (i :: c) := forall_mem_cons.2 ⟨h, hc⟩

theorem append (h : Straight c) (h' : Straight c') : Straight (c ++ c') := forall_mem_append.2 ⟨h, h'⟩

end Straight

mutual

theorem ExprCode.straight : ∀ {a code}, ExprCode a code → Straight code
  | _, _, .number .. => .one (.const _)
  | _, _, .name hw _ => .one (.localGet hw)
  | _, _, .paren h | _, _, .item h => h.straight
  | _, _, .binary _ hl hr => hl.straight.append (hr.straight.append (.one (.binary _)))
  | _, _, .unary _ _ hr => .cons (.const _) (hr.straight.append (.one (.binary _)))
  | _, _, .call hw _ h => h.straight.append (.one (.call hw))
  | _, _, .load h => h.straight.append (.one .load)

theorem ArgsCode.straight : ∀ {args code}, ArgsCode args code → Straight code
  | _, _, .nil => forall_mem_nil _
  | _, _, .cons h hs => h.straight.append hs.straight

end

theorem AssignCode.straight {rcode code} (h : AssignCode contents op rcode code)
    (hr : Straight rcode) : Straight code := by
  cases h with
  | declare hw | setLocal hw => exact hr.append (.one (.localSet hw))
  | updateLocal hw => exact .cons (.localGet hw) (hr.append (.cons (.binary _) (.one (.localSet hw))))
  | setCell hi => exact hi.straight.append (hr.append (.one .store))
  | updateCell hi =>
    exact hi.straight.append (hi.straight.append (.cons .load (hr.append (.cons (.binary _) (.one .store)))))

mutual

/-- The code of a statement inside the loop with frames named after `loop`. -/
inductive StmtCode : Option Int64 → Atom → List Instr → Prop
  | comment {loop lv text block} : StmtCode loop (.comment lv text block) []
  | nothing {loop lv} : StmtCode loop (.exprStmt lv [] true []) []
  | declare {loop lv exprs name} :
      declared? exprs = some name → StmtCode loop (.exprStmt lv [] true exprs) []
  | value {loop lv a code} : ExprCode a code → StmtCode loop (.exprStmt lv [] true [a]) code
  | assign {loop lv o op contents right rcode code} : assignOp? o = some op →
      ExprCode right rcode → AssignCode contents op rcode code → StmtCode loop (.exprStmt lv [] true
        [.call lv (.operator lv o) [] true true [.item lv [] true contents, right]]) code
  | branches {loop lv clauses code} :
      ArmsCode loop clauses code → StmtCode loop (.exprStmt lv [] true [.chain lv clauses]) code
  | whileLoop {loop lv cond body ccode bcode} : ExprCode cond ccode → StmtsCode (some lv.loops) body bcode →
      StmtCode loop (.exprStmt lv [] true
          [.chain lv [.clause lv "while" (some cond) (.block lv [] true body)]])
        (⟨.loop, Instr.loopLabel lv.loops⟩ :: ⟨.block, Instr.blockLabel lv.loops⟩ ::
          (ccode ++ (plain .eqz :: ⟨.brIf, Instr.blockLabel lv.loops⟩ ::
            (bcode ++ [⟨.br, Instr.loopLabel lv.loops⟩, plain .endFrame, plain .endFrame]))))
  | ret {loop lv} : StmtCode loop (.controlStmt lv "return" [] true []) [plain .ret]
  | retValue {loop lv a code} : ExprCode a code →
      StmtCode loop (.controlStmt lv "return" [] true [a]) (code ++ [plain .ret])
  | brk {n lv} : StmtCode (some n) (.controlStmt lv "break" [] true [])
      [⟨.br, Instr.blockLabel n⟩, plain .unreachable]
  | cont {n lv} : StmtCode (some n) (.controlStmt lv "continue" [] true [])
      [⟨.br, Instr.loopLabel n⟩, plain .unreachable]
  | assertion {loop lv a code} : ExprCode a code →
      StmtCode loop (.controlStmt lv "assert" [] true [a])
        (code ++ [plain .eqz, plain .ifThen, plain .unreachable, plain .endFrame])

/-- The code of the arms of a chain from one with a condition on. -/
inductive ArmsCode : Option Int64 → List Atom → List Instr → Prop
  | intro {loop lv name cond body rest ccode bcode ecode} : name = "if" ∨ name = "elif" → ExprCode cond ccode →
      StmtsCode loop body bcode → ElseCode loop rest ecode →
      ArmsCode loop (.clause lv name (some cond) (.block lv [] true body) :: rest)
        (ccode ++ (plain .ifThen :: (bcode ++ (ecode ++ [plain .endFrame]))))

/-- The code of what is left of a chain after an arm with a condition. -/
inductive ElseCode : Option Int64 → List Atom → List Instr → Prop
  | nil {loop} : ElseCode loop [] []
  | arms {loop clauses code} :
      ArmsCode loop clauses code → ElseCode loop clauses (plain .elseArm :: code)
  | otherwise {loop lv body code} : StmtsCode loop body code →
      ElseCode loop [.clause lv "else" none (.block lv [] true body)] (plain .elseArm :: code)

/-- The code of statements. -/
inductive StmtsCode : Option Int64 → List Atom → List Instr → Prop
  | nil {loop} : StmtsCode loop [] []
  | cons {loop s rest code codes} : StmtCode loop s code → StmtsCode loop rest codes →
      StmtsCode loop (s :: rest) (code ++ codes)

end

/-! ## Lowering statements -/

section
variable {lv : Level} {loop : Option Int64}

/-- Statements at the level stand in the body of the loop with frames named after `loop`. -/
def Level.InLoop (lv : Level) (loop : Option Int64) : Prop := lv.loops = loop.elim 0 (· + 1)

theorem assignOp?_eq (h : Operator.isAssignment o = true) :
    assignOp? o = match Operator.compoundBase? o with
      | none => some none
      | some base => (binaryOp? base).map some := by
  have hmem : o ∈ Operator.lexemes := by
    unfold Operator.isAssignment at h
    split at h
    · rename_i op hop
      refine mem_map.2 ⟨op, mem_of_find?_eq_some hop, ?_⟩
      simpa using find?_some hop
    · cases h
  revert h
  have hall : ∀ o ∈ Operator.lexemes, Operator.isAssignment o = true →
      assignOp? o = match Operator.compoundBase? o with
        | none => some none
        | some base => (binaryOp? base).map some := by decide
  exact hall o hmem

theorem declared?_inv (h : declared? contents = some name) :
    isNameable name = true ∧ ((∃ l l', contents = [.word l "let", .word l' name]) ∨
      ∃ l l' l'', contents = [.word l "let", .word l' "mut", .word l'' name]) := by
  unfold declared? at h
  split at h
  · obtain ⟨hn, rfl⟩ : isNameable _ = true ∧ _ = name := by simpa using h
    exact ⟨hn, .inl ⟨_, _, rfl⟩⟩
  · obtain ⟨hn, rfl⟩ : isNameable _ = true ∧ _ = name := by simpa using h
    exact ⟨hn, .inr ⟨_, _, _, rfl⟩⟩
  · cases h

theorem declared?_ne_empty
    (h : declared? contents = some name) (hc : ∀ a ∈ contents, ExprTree lv a) : name ≠ "" := by
  have hword : ∀ {l w}, Atom.word l w ∈ contents → w ≠ "" := fun hm => by
    cases hc _ hm with
    | word hw => exact hw
  obtain ⟨-, ⟨l, l', rfl⟩ | ⟨l, l', l'', rfl⟩⟩ := declared?_inv h
  · exact hword (.tail _ (.head _))
  · exact hword (.tail _ (.tail _ (.head _)))

theorem genSetLocal_yields (hr : (genExpr right).Yields (ExprCode right))
    (hset : ∀ c, ExprCode right c → op = none → P (c ++ [.localSet name]))
    (hupdate : ∀ c o, ExprCode right c → op = some o →
      P (.localGet name :: (c ++ [plain (.binary o), .localSet name]))) :
    (genSetLocal name op right).Yields P := by
  cases op with
  | none => exact hr.bind fun c hc => .emit (hset c hc rfl)
  | some o =>
    exact .emit_bind (hr.bind fun c hc => .emit_bind (.emit (hupdate c o hc rfl)))

theorem genStore_yields {Q address} (ha : address.Yields Q)
    (hr : (genExpr right).Yields (ExprCode right))
    (hset : ∀ c c', Q c → ExprCode right c' → op = none → P (c ++ (c' ++ [plain .store])))
    (hupdate : ∀ c c' o, Q c → ExprCode right c' → op = some o →
      P (c ++ (c ++ (plain .load :: (c' ++ [plain (.binary o), plain .store]))))) :
    (genStore address op right).Yields P := by
  cases op with
  | none => exact ha.bind fun c hc => hr.bind fun c' hc' => .emit (hset c c' hc hc' rfl)
  | some o =>
    refine ha.with_code.bind ?_
    rintro _ ⟨rfl, hc⟩
    refine ha.with_code.bind ?_
    rintro _ ⟨rfl, -⟩
    refine .emit_bind (hr.bind fun c' hc' => .emit_bind (.emit ?_))
    exact hupdate _ c' o hc hc' rfl

theorem genAssignTo_yields
    (hc : ∀ a ∈ contents, ExprTree lv a) (hr : (genExpr right).Yields (ExprCode right)) :
    (genAssignTo contents op right).Yields fun c =>
      ∃ rcode, ExprCode right rcode ∧ AssignCode contents op rcode c := by
  unfold genAssignTo
  split
  · rename_i name hname
    cases op with
    | some o => exact .fail (by decide)
    | none =>
      have hne := declared?_ne_empty hname hc
      refine @genSetLocal_yields _ _ none _ hr (fun c h _ => ?_) fun _ _ _ ho => by cases ho
      exact ⟨c, h, .declare hne hname⟩
  · split
    · rename_i name _
      split
      · rename_i hname
        have hne : name ≠ "" := by
          cases hc _ mem_cons_self with
          | word hw => exact hw
        refine genSetLocal_yields hr (fun c h ho => ⟨c, h, ?_⟩) fun c o h ho => ⟨c, h, ?_⟩
        · exact ho ▸ .setLocal hne hname
        · exact ho ▸ .updateLocal hne hname
      · exact .fail (by decide)
    · split
      · exact .fail (by decide)
      · cases hc _ mem_cons_self with
        | access _ hcallee hindex =>
          have hcell := genCell_yields hcallee fun a ha => (hindex a ha).yields
          refine genStore_yields hcell hr ?_ ?_
          · rintro c c' ⟨a, rfl, rfl, hcode⟩ h rfl
            exact ⟨c', h, .setCell hcode⟩
          · rintro c c' o ⟨a, rfl, rfl, hcode⟩ h rfl
            exact ⟨c', h, .updateCell hcode⟩
    · exact .fail (by decide)

theorem genAssign_yields {left} (ho : Operator.isAssignment o = true)
    (hl : ItemTree lv left) (hr : ItemTree lv right) :
    (genAssign o [left, right]).Yields (StmtCode loop (.exprStmt lv [] true
      [.call lv (.operator lv o) [] true true [left, right]])) := by
  have hright := hr.yields
  have hop := assignOp?_eq ho
  cases hl with
  | intro hc =>
    cases hr with
    | intro =>
      rw [genAssign]
      refine .require_bind (fun h => by cases h) fun _ => ?_
      split
      · rename_i hbase
        rw [hbase] at hop
        refine (genAssignTo_yields hc hright).mono ?_
        rintro c ⟨rcode, hrc, hassign⟩
        exact .assign hop hrc hassign
      · rename_i base hbase
        rw [hbase] at hop
        split
        · exact .fail (by decide)
        · rename_i op hbin
          simp only [hbin, Option.map_some] at hop
          refine (genAssignTo_yields hc hright).mono ?_
          rintro c ⟨rcode, hrc, hassign⟩
          exact .assign hop hrc hassign

theorem genControl_yields {head} (hlv : lv.InLoop loop)
    (hhead : Keyword.isControl head = true) (h : ∀ a ∈ exprs, ExprTree lv a) :
    (genControl lv.loops head exprs).Yields
      (StmtCode loop (.controlStmt lv head [] true exprs)) := by
  have hjump : ∀ {label : Int64 → Text} {P : List Instr → Prop},
      (∀ n, exprs = [] → loop = some n → P [⟨.br, label n⟩, plain .unreachable]) →
      (genControl.genJump lv.loops exprs label).Yields P := by
    intro label P hP
    refine .require_bind (fun _ => by decide) fun hempty => ?_
    refine .require_bind (fun _ => by decide) fun hdeep => ?_
    cases loop with
    | none =>
      rw [hlv] at hdeep
      cases hdeep
    | some n =>
      have hn : lv.loops - 1 = n := by
        rw [hlv]
        exact Int64.add_sub_cancel ..
      rw [hn]
      exact .emit_bind (.emit (hP n (List.isEmpty_iff.1 hempty) rfl))
  have hmem : head = "return" ∨ head = "break" ∨ head = "continue" ∨ head = "assert" := by
    simpa [Keyword.isControl] using hhead
  rcases hmem with rfl | rfl | rfl | rfl
  · unfold genControl
    match exprs, h with
    | [], _ => exact .emit .ret
    | [e], h =>
      exact (h e mem_cons_self).yields.bind fun c hc => .emit (.retValue hc)
    | _ :: _ :: _, _ => exact (by decide : GenFault.notOneValue ≠ .unexpectedTree)
  · refine hjump ?_
    rintro n rfl rfl
    exact .brk
  · refine hjump ?_
    rintro n rfl rfl
    exact .cont
  · unfold genControl
    refine (genSingle_yields fun a ha => (h a ha).yields).bind ?_
    rintro c ⟨a, rfl, hc⟩
    exact .emit_bind (.emit_bind (.emit_bind (.emit (.assertion hc))))

theorem genStmts_yields {inBody} :
    ∀ {stmts}, (∀ s ∈ stmts, (genStmt inBody s).Yields (StmtCode loop s)) →
      (genStmts inBody stmts).Yields (StmtsCode loop stmts)
  | [], _ => by
    rw [genStmts]
    exact .pure .nil
  | s :: rest, h => by
    rw [genStmts]
    obtain ⟨hs, hrest⟩ := forall_mem_cons.1 h
    exact hs.bind fun c hc => (genStmts_yields hrest).mono fun cs hcs => .cons hc hcs

/-- The statements of a clause. -/
def Atom.bodyStmts : Atom → List Atom
  | .clause _ _ _ (.block _ _ _ stmts) => stmts
  | _ => []

/-- Code is generated for the bodies of the clauses. -/
def BodiesYield (loop : Option Int64) (clauses : List Atom) : Prop :=
  ∀ c ∈ clauses, ∀ s ∈ c.bodyStmts, (genStmt true s).Yields (StmtCode loop s)

theorem genArms_condition_yields {c rest} (hc : ClauseTree lv c)
    (hname : c.clauseName = "if" ∨ c.clauseName = "elif") (hb : BodiesYield loop (c :: rest))
    (hrest : (genArms false rest).Yields (ElseCode loop rest)) (isFirst : Bool) :
    (genArms isFirst (c :: rest)).Yields fun code => ∃ arms, ArmsCode loop (c :: rest) arms ∧
      code = if isFirst then arms else plain .elseArm :: arms := by
  cases hc with
  | @conditional _ name cond body _ _ hcond _ =>
    have hparen : (genExpr (.paren lv [] true cond)).Yields (ExprCode (.paren lv [] true cond)) :=
      (ExprTree.paren hcond).yields
    have hbody : (genStmts true body).Yields (StmtsCode loop body) :=
      genStmts_yields (hb _ mem_cons_self)
    have harm : (name == "if" || name == "elif") = true := by
      simpa [clauseName] using hname
    have hcode : (do
        genExpr (.paren lv [] true cond)
        Gen.op .ifThen
        genStmts true body
        genArms false rest
        Gen.op .endFrame).Yields (ArmsCode loop
          (.clause lv name (some (.paren lv [] true cond)) (.block lv [] true body) :: rest)) := by
      refine hparen.bind fun cc hcc => .emit_bind (hbody.bind fun cb hcb => ?_)
      exact hrest.bind fun ce hce => .emit (.intro hname hcc hcb hce)
    simp only [genArms, genCondition, genBody, harm, if_true]
    cases isFirst with
    | true => exact hcode.mono fun c hc => ⟨c, hc, rfl⟩
    | false => exact .emit_bind (hcode.mono fun c hc => ⟨c, hc, rfl⟩)
  | unconditional _ hcond =>
    rcases hname with hn | hn <;> (cases hn; cases hcond)

theorem genArms_else_yields : ∀ {clauses}, (∀ c ∈ clauses, ClauseTree lv c) →
    BodiesYield loop clauses → areArms (clauses.map clauseName) = true →
    (genArms false clauses).Yields (ElseCode loop clauses)
  | [], _, _, _ => by
    rw [genArms]
    exact .pure .nil
  | c :: rest, hcs, hb, hn => by
    obtain ⟨hc, hrest⟩ := forall_mem_cons.1 hcs
    simp only [map_cons] at hn
    unfold areArms at hn
    split at hn
    · rename_i heq; cases heq
    · rename_i heq
      -- an `else` is the last clause
      obtain ⟨hname, hnil⟩ := List.cons.inj heq
      obtain rfl := map_eq_nil_iff.1 hnil
      cases hc with
      | conditional _ hcond => cases hname; cases hcond
      | unconditional =>
        obtain rfl := hname
        have hbody := genStmts_yields (hb _ mem_cons_self)
        simp only [genArms, genBody]
        refine .emit_bind (hbody.bind fun cb hcb => .pure ?_)
        rw [append_nil]
        exact .otherwise hcb
    · rename_i heq
      obtain ⟨hname, rfl⟩ := List.cons.inj heq
      have harms := genArms_else_yields hrest (fun c hm => hb c (mem_cons_of_mem _ hm)) hn
      refine (genArms_condition_yields hc (.inr hname) hb harms false).mono ?_
      rintro _ ⟨arms, h, rfl⟩
      exact .arms h
    · cases hn

theorem genArms_yields {clauses ws} (hc : ∀ c ∈ clauses, ClauseTree lv c)
    (hb : BodiesYield loop clauses) (hn : clauses.map clauseName = "if" :: ws)
    (hws : areArms ws = true) : (genArms true clauses).Yields (ArmsCode loop clauses) := by
  cases clauses with
  | nil => cases hn
  | cons c rest =>
    obtain ⟨hname, rfl⟩ := List.cons.inj hn
    obtain ⟨hc, hrest⟩ := forall_mem_cons.1 hc
    have helse := genArms_else_yields hrest (fun c hm => hb c (mem_cons_of_mem _ hm)) hws
    refine (genArms_condition_yields hc (.inl hname) hb helse true).mono ?_
    rintro _ ⟨arms, h, rfl⟩
    exact h

theorem genWhile_yields {c} (hc : ClauseTree lv c) (hname : c.clauseName = "while")
    (hb : BodiesYield (some lv.loops) [c]) :
    (genWhile c).Yields (StmtCode loop (.exprStmt lv [] true [.chain lv [c]])) := by
  cases hc with
  | @conditional _ name cond body _ _ hcond _ =>
    obtain rfl : name = "while" := hname
    have hparen := (show ExprTree lv (.paren lv [] true _) from .paren hcond).yields
    have hbody : (genStmts true body).Yields (StmtsCode (some lv.loops) body) :=
      genStmts_yields (hb _ mem_cons_self)
    simp only [genWhile, genCondition, genBody]
    refine .require_bind (fun h => by cases h) fun _ => .emit_bind (.emit_bind ?_)
    refine hparen.bind fun cc hcc => .emit_bind (.emit_bind (hbody.bind fun cb hcb => ?_))
    exact .emit_bind (.emit_bind (.emit (.whileLoop hcc hcb)))
  | unconditional _ hcond =>
    cases hname
    cases hcond

theorem isLoop_of_arms {ws} (hw : w ∈ "if" :: ws)
    (hws : areArms ws = true) : Keyword.isLoop w = false := by
  fun_induction areArms ws with
  | case1 | case2 =>
    simp only [mem_cons, not_mem_nil, or_false] at hw
    rcases hw with rfl | rfl <;> rfl
  | case3 rest ih =>
    simp only [mem_cons] at hw ih
    rcases hw with rfl | rfl | hw
    · rfl
    · rfl
    · exact ih (.inr hw) hws
  | case4 => cases hws

theorem Level.InLoop.body (hlv : lv.InLoop loop)
    (hname : Keyword.isLoop name = false) : (bodyLevel lv name).InLoop loop := by
  simp only [bodyLevel, hname]
  exact hlv

theorem Level.InLoop.while : (bodyLevel lv "while").InLoop (some lv.loops) := rfl

theorem genChain_yields {clauses inBody} (hlv : lv.InLoop loop)
    (hw : isChainOf (clauses.map clauseName) = true) (hc : ∀ c ∈ clauses, ClauseTree lv c)
    (hb : ∀ c ∈ clauses, ∀ loop, (bodyLevel lv c.clauseName).InLoop loop →
      ∀ s ∈ c.bodyStmts, (genStmt true s).Yields (StmtCode loop s)) :
    (genExprStmt inBody [.chain lv clauses]).Yields
      (StmtCode loop (.exprStmt lv [] true [.chain lv clauses])) := by
  have hready := (ExprTree.chain hw hc).isReady
  have hhead : (Atom.chain lv clauses).chainHead?.getD "" =
      (clauses.map clauseName).head?.getD "" := by
    simp [chainHead?, head?_map]
  unfold genExprStmt
  refine .require_bind (fun h => by rw [hready] at h; cases h) fun _ => ?_
  rw [hhead]
  unfold isChainOf at hw
  split at hw
  · rename_i ws hn
    rw [hn]
    refine (genArms_yields hc (fun c hm s hs => hb c hm loop ?_ s hs) hn hw).mono fun c h => .branches h
    have hcw : c.clauseName ∈ "if" :: ws := hn ▸ mem_map_of_mem hm
    exact hlv.body (isLoop_of_arms hcw hw)
  · rename_i hn
    rw [hn]
    exact .fail (by decide)
  · rename_i hn
    rw [hn]
    obtain ⟨c, rfl, hname⟩ := map_eq_singleton_iff.1 hn
    refine genWhile_yields (hc c mem_cons_self) hname fun c' hm s hs => ?_
    obtain rfl := mem_singleton.1 hm
    exact hb c' hm _ (hname ▸ Level.InLoop.while) s hs
  · rename_i hn
    rw [hn]
    obtain ⟨c, rest, rfl, -, hrest⟩ := map_eq_cons_iff.1 hn
    obtain ⟨c', rfl, -⟩ := map_eq_singleton_iff.1 hrest
    exact .fail (by decide)
  · rename_i hn
    rw [hn]
    exact .fail (by decide)
  · rename_i hn
    rw [hn]
    exact .fail (by decide)
  · cases hw

theorem ExprTree.value_yields {a} (h : ExprTree lv a) (hchain : a.chainHead? = none)
    (inBody : Bool) :
    (genExprStmt inBody [a]).Yields (StmtCode loop (.exprStmt lv [] true [a])) := by
  have hvalue : (genExpr a).Yields (StmtCode loop (.exprStmt lv [] true [a])) :=
    h.yields.mono fun c hc => .value hc
  unfold genExprStmt
  cases h with
  | chain => cases hchain
  | @operation _ o left right _ hl hr =>
    simp only
    split
    · rename_i ho
      exact genAssign_yields ho hl hr
    · exact .require_bind (fun _ => by decide) fun _ => hvalue
  | call hcall hc _ =>
    cases hc with
    | _ => exact hvalue
  | _ => exact .require_bind (fun _ => by decide) fun _ => hvalue

theorem genExprStmt_yields {inBody}
    (h : ∀ a ∈ exprs, (genExprStmt inBody [a]).Yields (StmtCode loop (.exprStmt lv [] true [a]))) :
    (genExprStmt inBody exprs).Yields (StmtCode loop (.exprStmt lv [] true exprs)) := by
  match exprs, h with
  | [], _ =>
    unfold genExprStmt
    exact .pure .nothing
  | [a], h => exact h a mem_cons_self
  | a :: b :: rest, _ =>
    unfold genExprStmt
    cases hd : declared? (a :: b :: rest) with
    | none => exact (by decide : GenFault.notOneValue ≠ .unexpectedTree)
    | some name => exact .pure (.declare hd)

mutual

theorem ExprTree.stmt_yields : ∀ {lv a}, ExprTree lv a → ∀ {loop}, lv.InLoop loop → ∀ inBody : Bool,
      (genExprStmt inBody [a]).Yields (StmtCode loop (.exprStmt lv [] true [a]))
  | _, _, .chain hw hc, _, hlv, _ =>
    genChain_yields hlv hw hc fun c hm _ hloop => (hc c hm).body_yields hloop
  | _, _, .literal, _, _, inBody => ExprTree.literal.value_yields rfl inBody
  | _, _, .word hw, _, _, inBody => (ExprTree.word hw).value_yields rfl inBody
  | _, _, .block h, _, _, inBody => (ExprTree.block h).value_yields rfl inBody
  | _, _, .paren h, _, _, inBody => (ExprTree.paren h).value_yields rfl inBody
  | _, _, .list h, _, _, inBody => (ExprTree.list h).value_yields rfl inBody
  | _, _, .operation ho hl hr, _, _, inBody =>
    (ExprTree.operation ho hl hr).value_yields rfl inBody
  | _, _, .call hcall hc h, _, _, inBody => (ExprTree.call hcall hc h).value_yields rfl inBody
  | _, _, .access hcall hc h, _, _, inBody => (ExprTree.access hcall hc h).value_yields rfl inBody

theorem ClauseTree.body_yields : ∀ {lv c}, ClauseTree lv c →
    ∀ {loop}, (bodyLevel lv c.clauseName).InLoop loop →
      ∀ s ∈ c.bodyStmts, (genStmt true s).Yields (StmtCode loop s)
  | _, _, .conditional _ _ _ hb, _, hlv, s, hs => (hb s hs).yields hlv true
  | _, _, .unconditional _ _ hb, _, hlv, s, hs => (hb s hs).yields hlv true

theorem StmtTree.yields : ∀ {lv s}, StmtTree lv s → ∀ {loop}, lv.InLoop loop → ∀ inBody : Bool,
      (genStmt inBody s).Yields (StmtCode loop s)
  | _, _, .comment, _, hlv, inBody => by
    unfold genStmt
    exact .require_bind (fun h => by cases h) fun _ => .pure .comment
  | _, _, .exprs h, _, hlv, inBody => by
    unfold genStmt
    refine .require_bind (fun h => by cases h) fun _ => ?_
    exact genExprStmt_yields fun a ha => (h a ha).stmt_yields hlv inBody
  | _, _, .control hhead h, _, hlv, inBody => by
    unfold genStmt
    exact .require_bind (fun h => by cases h) fun _ => genControl_yields hlv hhead h

end

end

/-! ## Whole programs -/

theorem generateExpr_lowered (h : ∀ a ∈ exprs, ExprTree .top a) :
    Ends (fun code => ∃ a, exprs = [a] ∧ ExprCode a code) (· ≠ .unexpectedTree)
      (generateExpr exprs) := by
  have hy := genSingle_yields fun a ha => (h a ha).yields
  unfold Gen.Yields at hy
  unfold generateExpr Gen.toExcept
  split <;> simp_all [Ends]

theorem generateStmts_lowered {stmts} (h : ∀ a ∈ stmts, StmtTree .top a) :
    Ends (StmtsCode none stmts) (· ≠ .unexpectedTree) (generateStmts stmts) := by
  have hy : (genStmts false stmts).Yields (StmtsCode none stmts) :=
    genStmts_yields fun a ha => (h a ha).yields (show Level.top.InLoop none from rfl) false
  unfold Gen.Yields at hy
  unfold generateStmts Gen.toExcept
  split <;> simp_all [Ends]

section
variable {limit : Int64} {text : Text} {atoms : List Atom} {code : List Instr}

/-- What is generated from a text is the code of its statements. -/
theorem stmtsCode_of_generate (hp : parseStmts limit text = .ok atoms)
    (hg : generateStmts atoms = .ok code) : StmtsCode none atoms code := by
  have ht := parseStmts_trees limit text
  rw [hp] at ht
  have hc := generateStmts_lowered ht
  rw [hg] at hc
  exact hc

theorem exprCode_of_generate (hp : parseExpr limit text = .ok atoms)
    (hg : generateExpr atoms = .ok code) : ∃ a, atoms = [a] ∧ ExprCode a code := by
  have ht := parseExpr_trees limit text
  rw [hp] at ht
  have hc := generateExpr_lowered ht
  rw [hg] at hc
  exact hc

end

/-! ## Faults that no source text has -/

/-- Whatever the text and the nesting limit, reading never meets a grouped atom in a literal, an
operator outside the table or an atom that can not be resolved, and what it reads never is a tree that
lowering does not expect. -/
theorem internal_faults_unreachable (limit : Int64) (text : Text) :
    (∀ f : ReadFault, f = .groupedLiteral ∨ f = .unexpectedNode ∨ f = .unknownOperator →
      parseExpr limit text ≠ .error f ∧ parseStmts limit text ≠ .error f) ∧
    (∀ exprs, parseExpr limit text = .ok exprs →
      generateExpr exprs ≠ .error .unexpectedTree) ∧
    (∀ stmts, parseStmts limit text = .ok stmts →
      generateStmts stmts ≠ .error .unexpectedTree) := by
  have hexpr := parseExpr_trees limit text
  have hstmts := parseStmts_trees limit text
  refine ⟨fun f hf => ?_, fun exprs h => ?_, fun stmts h => ?_⟩
  · have hsource : ¬ f.isFromSource = true := by rcases hf with rfl | rfl | rfl <;> decide
    exact ⟨hexpr.ne_error hsource, hstmts.ne_error hsource⟩
  · rw [h] at hexpr
    exact (generateExpr_lowered hexpr).ne_error (by simp)
  · rw [h] at hstmts
    exact (generateStmts_lowered hstmts).ne_error (by simp)

theorem internal_faults_unreachable_loop :
    ∃ stmts, parseStmts 8 (.ofString "while (a < 9) { if (f(a)) { break } else { a += 1 } }") =
        .ok stmts ∧ stmts ≠ [] ∧ generateStmts stmts ≠ .error .unexpectedTree := by
  have hok : ((parseStmts 8 (.ofString "while (a < 9) { if (f(a)) { break } else { a += 1 } }")).map
      (!·.isEmpty)) = .ok true := by
    decide +kernel
  obtain ⟨stmts, h, hne⟩ := map_ok hok
  exact ⟨stmts, h, by simpa using hne, (internal_faults_unreachable 8 _).2.2 stmts h⟩

end WatScript
