import WatScript.Proofs.MachineRuns
import WatScript.Proofs.Symbols
import WatScript.Proofs.TreeInvariant

/-!
# Symbols in lowered code

What the instructions of a body refer to by name is what its tree mentions, except for the words of
statements that only declare a local, for which there is no code. `Atom.uses` lists the words outside
such statements, `Instr.Names` gives the word behind an instruction, and `StmtsCode.refers` says that
both are the same symbols.
-/

namespace WatScript

open List Atom
open Instr (plain)

variable {code : List Instr} {i : Instr} {m : Option Mention} {name : String}

/-! ## Words in use -/

mutual

/-- The words a resolved atom mentions, except in statements that only declare a local. -/
def Atom.uses : Atom → List Mention
  | .unknown .. | .literal .. | .comment .. | .operator .. => []
  | .word _ w => [⟨w, false⟩]
  | .block _ _ _ body => usesAll body
  | .paren _ _ _ contents | .list _ _ _ contents | .item _ _ _ contents => usesAll contents
  | .call _ callee _ _ _ args =>
    (match callee with
      | .word _ w => [⟨w, true⟩]
      | callee => callee.uses) ++ usesAll args
  | .access _ callee _ _ index => callee.uses ++ usesAll index
  | .clause _ _ cond body => usesOption cond ++ body.uses
  | .chain _ clauses => usesAll clauses
  | .exprStmt _ _ _ exprs => if (declared? exprs).isSome then [] else usesAll exprs
  | .controlStmt _ _ _ _ exprs => usesAll exprs

def usesOption : Option Atom → List Mention
  | none => []
  | some a => a.uses

/-- The words in use in the atoms of a run. -/
def usesAll : List Atom → List Mention
  | [] => []
  | a :: rest => a.uses ++ usesAll rest

end

mutual

theorem ExprCode.uses_eq : ∀ {a code}, ExprCode a code → a.uses = a.mentions
  | _, _, .number .. => rfl
  | _, _, .name .. => rfl
  | _, _, .paren h => by simp [uses, usesAll, mentions, mentionsAll, h.uses_eq]
  | _, _, .item h => by simp [uses, usesAll, mentions, mentionsAll, h.uses_eq]
  | _, _, .binary _ hl hr => by
    simp [uses, usesAll, mentions, mentionsAll, hl.uses_eq, hr.uses_eq]
  | _, _, .unary _ _ hr => by simp [uses, usesAll, mentions, mentionsAll, hr.uses_eq]
  | _, _, .call _ _ h => by simp [uses, mentions, mentionsAll, h.usesAll_eq]
  | _, _, .load h => by simp [uses, usesAll, mentions, mentionsAll, h.uses_eq]

theorem ArgsCode.usesAll_eq : ∀ {args code}, ArgsCode args code → usesAll args = mentionsAll args
  | _, _, .nil => rfl
  | _, _, .cons h hs => by rw [usesAll, mentionsAll, h.uses_eq, hs.usesAll_eq]

end

/-! ## Words behind instructions -/

/-- The mention is one of a host, a local or linear memory, not of a number or a reserved word. -/
def Mention.isSymbol (x : Mention) : Bool :=
  x.isCallee || isNameable x.word || x.word == Keyword.memory

theorem isSymbol_of_nameable {w} (h : isNameable w = true) :
    Mention.isSymbol ⟨w, false⟩ = true := by
  simp [Mention.isSymbol, h]

theorem isSymbol_of_numeric {w} (h : isNumeric w = true) : Mention.isSymbol ⟨w, false⟩ = false := by
  have hmem : w ≠ Keyword.memory := by
    rintro rfl
    exact absurd h (by decide)
  simp [Mention.isSymbol, isNameable, h, hmem]

/-- The instruction refers to nothing. -/
def Op.isQuiet : Op → Bool
  | .block | .loop | .ifThen | .elseArm | .endFrame | .br | .brIf | .ret | .unreachable => true
  | .eqz | .binary _ => true
  | _ => false

/-- What a lowered instruction refers to: a host, a local, linear memory, or nothing. -/
inductive Instr.Names : Instr → Option Mention → Prop
  | quiet {i : Instr} : i.op.isQuiet = true → Names i none
  | const (v : Int32) : Names (.const v) none
  | call (name : String) : Names (.call name) (some ⟨name, true⟩)
  | localGet {name : String} : isNameable name = true → Names (.localGet name) (some ⟨name, false⟩)
  | localSet {name : String} : isNameable name = true → Names (.localSet name) (some ⟨name, false⟩)
  | load : Names (plain .load) (some ⟨Keyword.memory, false⟩)
  | store : Names (plain .store) (some ⟨Keyword.memory, false⟩)

theorem Instr.Names.eq (h : i.Names m) : m = match i.op with
      | .call => (Machine.nameOf? i.imm).map (⟨·, true⟩)
      | .localGet | .localSet => (Machine.nameOf? i.imm).map (⟨·, false⟩)
      | .load | .store => some ⟨Keyword.memory, false⟩
      | _ => none := by
  cases h with
  | quiet hq =>
    obtain ⟨op, imm⟩ := i
    cases op <;> first | rfl | cases hq
  | call | localGet | localSet =>
    simp [Instr.call, Instr.localGet, Instr.localSet, Machine.nameOf?_ident]
  | _ => rfl

theorem Instr.Names.unique {m' : Option Mention} (h : i.Names m) (h' : i.Names m') : m = m' :=
  h.eq.trans h'.eq.symm

theorem Instr.Names.of_call (h : i.Names m) (hi : i.op = .call) :
    ∃ name, i.imm = Instr.ident name ∧ m = some ⟨name, true⟩ := by
  cases h with
  | quiet hq =>
    rw [hi] at hq
    cases hq
  | call name => exact ⟨name, rfl, rfl⟩
  | _ => cases hi

theorem Instr.Names.of_local (h : i.Names m) (hi : i.op = .localGet ∨ i.op = .localSet) :
    ∃ name, i.imm = Instr.ident name ∧ isNameable name = true ∧ m = some ⟨name, false⟩ := by
  cases h with
  | quiet hq => rcases hi with hi | hi <;> (rw [hi] at hq; cases hq)
  | localGet hn | localSet hn => exact ⟨_, rfl, hn, rfl⟩
  | _ => rcases hi with hi | hi <;> cases hi

theorem Instr.Names.of_memory (h : i.Names m)
    (hi : i.op = .load ∨ i.op = .store) : m = some ⟨Keyword.memory, false⟩ := by
  cases h with
  | quiet hq => rcases hi with hi | hi <;> (rw [hi] at hq; cases hq)
  | load | store => rfl
  | _ => rcases hi with hi | hi <;> cases hi

theorem Instr.Names.local_cases (h : i.Names (some ⟨name, false⟩)) :
    (isNameable name = true ∧ (i = .localGet name ∨ i = .localSet name)) ∨
      (name = Keyword.memory ∧ (i.op = .load ∨ i.op = .store)) := by
  cases h with
  | localGet hn => exact .inl ⟨hn, .inl rfl⟩
  | localSet hn => exact .inl ⟨hn, .inr rfl⟩
  | load => exact .inr ⟨rfl, .inl rfl⟩
  | store => exact .inr ⟨rfl, .inr rfl⟩

/-- The instructions are lowered ones that refer to the symbols among the words. -/
structure Refers (code : List Instr) (words : List Mention) : Prop where
  names : ∀ i ∈ code, ∃ m, i.Names m
  mem_iff : ∀ x, (∃ i ∈ code, i.Names (some x)) ↔ x ∈ words ∧ x.isSymbol = true

namespace Refers
variable {i : Instr} {code code' : List Instr} {words words' : List Mention} {x : Mention}
  {name : String}

theorem nil : Refers [] [] := ⟨by simp, by simp⟩

theorem append (h : Refers code words) (h' : Refers code' words') :
    Refers (code ++ code') (words ++ words') where
  names := forall_mem_append.2 ⟨h.names, h'.names⟩
  mem_iff x := by
    rw [mem_append, or_and_right, ← h.mem_iff x, ← h'.mem_iff x]
    simp only [mem_append, or_and_right, exists_or]

theorem cons (hi : i.Names m) (hm : ∀ x ∈ m, x.isSymbol = true)
    (h : Refers code words) : Refers (i :: code) (m.toList ++ words) where
  names := forall_mem_cons.2 ⟨⟨m, hi⟩, h.names⟩
  mem_iff x := by
    have hx : i.Names (some x) ↔ x ∈ m.toList ∧ x.isSymbol = true := by
      rw [Option.mem_toList]
      exact ⟨fun hn => ⟨hi.unique hn, hm x (hi.unique hn)⟩, fun hx => hx.1 ▸ hi⟩
    rw [mem_append, or_and_right, ← h.mem_iff x, ← hx]
    simp only [mem_cons, exists_eq_or_imp]

theorem quiet (hi : i.op.isQuiet = true) (h : Refers code words) : Refers (i :: code) words :=
  cons (.quiet hi) (by simp) h

theorem const (v : Int32) (h : Refers code words) : Refers (.const v :: code) words :=
  cons (.const v) (by simp) h

theorem call (h : Refers code words) : Refers (.call name :: code) (⟨name, true⟩ :: words) :=
  cons (.call name) (by simp [Mention.isSymbol]) h

theorem localGet (hn : isNameable name = true) (h : Refers code words) :
    Refers (.localGet name :: code) (⟨name, false⟩ :: words) :=
  cons (.localGet hn) (by simp [isSymbol_of_nameable hn]) h

theorem localSet (hn : isNameable name = true) (h : Refers code words) :
    Refers (.localSet name :: code) (⟨name, false⟩ :: words) :=
  cons (.localSet hn) (by simp [isSymbol_of_nameable hn]) h

theorem load (h : Refers code words) :
    Refers (plain .load :: code) (⟨Keyword.memory, false⟩ :: words) :=
  cons .load (by decide) h

theorem store (h : Refers code words) :
    Refers (plain .store :: code) (⟨Keyword.memory, false⟩ :: words) :=
  cons .store (by decide) h

theorem skip {front} (hf : ∀ x ∈ front, x.isSymbol = false) (h : Refers code words) :
    Refers code (front ++ words) where
  names := h.names
  mem_iff x := by
    rw [mem_append, or_and_right, h.mem_iff x]
    refine (or_iff_right ?_).symm
    rintro ⟨hx, hs⟩
    rw [hf x hx] at hs
    cases hs

theorem congr (h : Refers code words) (hw : ∀ x, x ∈ words ↔ x ∈ words') : Refers code words' where
  names := h.names
  mem_iff x := by rw [← hw x]; exact h.mem_iff x

end Refers

/-! ## Lowered code -/

mutual

theorem ExprCode.refers : ∀ {a code}, ExprCode a code → Refers code a.mentions
  | _, _, .number hw _ => by
    rw [mentions, ← append_nil [_]]
    exact .skip (forall_mem_singleton.2 (isSymbol_of_numeric hw)) (.const _ .nil)
  | _, _, .name _ hn => .localGet hn .nil
  | _, _, .paren h | _, _, .item h => by
    simp only [mentions, mentionsAll, nil_append, append_nil]
    exact h.refers
  | _, _, .binary _ hl hr => by
    simp only [mentions, mentionsAll, nil_append]
    exact hl.refers.append (hr.refers.append (.quiet rfl .nil))
  | _, _, .unary _ _ hr => by
    simp only [mentions, mentionsAll, nil_append]
    exact .const _ (hr.refers.append (.quiet rfl .nil))
  | _, _, .call _ _ h =>
    -- the name of the host stands in front of the arguments, and its call after them
    (h.refers.append (.call .nil)).congr fun x => by simp [mentions, mentionsAll, or_comm]
  | _, _, .load h =>
    (h.refers.append (.load .nil)).congr fun x => by simp [mentions, mentionsAll, or_comm]

theorem ArgsCode.refers : ∀ {args code}, ArgsCode args code → Refers code (mentionsAll args)
  | _, _, .nil => .nil
  | _, _, .cons h hs => h.refers.append hs.refers

end

theorem declared?_mentions {exprs} (h : declared? exprs = some name) :
    isNameable name = true ∧ ∃ front, mentionsAll exprs = front ++ [⟨name, false⟩] ∧
      ∀ x ∈ front, x.isSymbol = false := by
  obtain ⟨hn, ⟨l, l', rfl⟩ | ⟨l, l', l'', rfl⟩⟩ := declared?_inv h
  · exact ⟨hn, [⟨"let", false⟩], rfl, by decide⟩
  · exact ⟨hn, [⟨"let", false⟩, ⟨"mut", false⟩], rfl, by decide⟩

theorem AssignCode.refers {contents op rcode} {words : List Mention}
    (h : AssignCode contents op rcode code) (hr : Refers rcode words) :
    Refers code (mentionsAll contents ++ words) := by
  cases h with
  | declare _ hd =>
    obtain ⟨hn, front, hwords, hfront⟩ := declared?_mentions hd
    rw [hwords, append_assoc]
    exact .skip hfront ((hr.append (.localSet hn .nil)).congr (by grind))
  | setLocal _ hn =>
    exact (hr.append (.localSet hn .nil)).congr (by grind [mentions, mentionsAll])
  | updateLocal _ hn =>
    exact .congr (.localGet hn (hr.append (.quiet rfl (.localSet hn .nil))))
      (by grind [mentions, mentionsAll])
  | setCell hi =>
    exact (hi.refers.append (hr.append (.store .nil))).congr (by grind [mentions, mentionsAll])
  | updateCell hi =>
    exact .congr (hi.refers.append (hi.refers.append (.load (hr.append (.quiet rfl (.store .nil))))))
      (by grind [mentions, mentionsAll])

theorem AssignCode.usesAll_eq {contents op rcode} (h : AssignCode contents op rcode code) :
    usesAll contents = mentionsAll contents := by
  cases h with
  | declare _ hd =>
    obtain ⟨-, ⟨l, l', rfl⟩ | ⟨l, l', l'', rfl⟩⟩ := declared?_inv hd
    · rfl
    · rfl
  | setLocal | updateLocal => rfl
  | setCell hi | updateCell hi => simp [usesAll, mentionsAll, (ExprCode.load hi).uses_eq]

theorem uses_exprStmt (lv : Level) (a : Atom) : (Atom.exprStmt lv [] true [a]).uses = a.uses := by
  simp [uses, usesAll, declared?]

theorem mentions_exprStmt (lv : Level) (exprs : List Atom) :
    (Atom.exprStmt lv [] true exprs).mentions = mentionsAll exprs := by
  simp [mentions, mentionsAll]

mutual

theorem StmtCode.refers : ∀ {loop a code}, StmtCode loop a code → Refers code a.uses
  | _, _, _, .comment => .nil
  | _, _, _, .nothing => .nil
  | _, _, _, .declare hd => by
    rw [uses, hd]
    exact .nil
  | _, _, _, .value h => by
    rw [uses_exprStmt, h.uses_eq]
    exact h.refers
  | _, _, _, .assign _ hr h => by
    rw [uses_exprStmt]
    exact (h.refers hr.refers).congr fun x => by
      simp [uses, usesAll, h.usesAll_eq, hr.uses_eq]
  | _, _, _, .branches h => by
    rw [uses_exprStmt, uses]
    exact h.refers
  | _, _, _, .whileLoop hc hb => by
    rw [uses_exprStmt]
    refine .quiet rfl (.quiet rfl (.congr (hc.refers.append (.quiet rfl (.quiet rfl
      (hb.refers.append (.quiet rfl (.quiet rfl (.quiet rfl .nil))))))) fun x => ?_))
    simp [uses, usesAll, usesOption, hc.uses_eq]
  | _, _, _, .ret => .quiet rfl .nil
  | _, _, _, .retValue h => by
    simp only [uses, usesAll, h.uses_eq]
    exact h.refers.append (.quiet rfl .nil)
  | _, _, _, .brk => .quiet rfl (.quiet rfl .nil)
  | _, _, _, .cont => .quiet rfl (.quiet rfl .nil)
  | _, _, _, .assertion h => by
    simp only [uses, usesAll, h.uses_eq]
    exact h.refers.append (.quiet rfl (.quiet rfl (.quiet rfl (.quiet rfl .nil))))

theorem ArmsCode.refers : ∀ {loop clauses code},
    ArmsCode loop clauses code → Refers code (usesAll clauses)
  | _, _, _, .intro _ hc hb he => by
    exact .congr (hc.refers.append (.quiet rfl (hb.refers.append (he.refers.append
      (.quiet rfl .nil))))) fun x => by simp [usesAll, uses, usesOption, hc.uses_eq]

theorem ElseCode.refers : ∀ {loop clauses code},
    ElseCode loop clauses code → Refers code (usesAll clauses)
  | _, _, _, .nil => .nil
  | _, _, _, .arms h => .quiet rfl h.refers
  | _, _, _, .otherwise h => by
    exact .quiet rfl (h.refers.congr fun x => by simp [usesAll, uses, usesOption])

theorem StmtsCode.refers : ∀ {loop stmts code},
    StmtsCode loop stmts code → Refers code (usesAll stmts)
  | _, _, _, .nil => .nil
  | _, _, _, .cons h hs => h.refers.append hs.refers

end

/-! ## Words without code -/

/-- The name that a statement declares and gives no value. -/
def Atom.declares? : Atom → Option String
  | .exprStmt _ _ _ exprs => declared? exprs
  | _ => none

theorem Atom.isNameable_of_declares? {n : Atom} (h : n.declares? = some name) :
    isNameable name = true := by
  cases n with
  | exprStmt => exact (declared?_mentions h).1
  | _ => cases h

/-- The name is declared without a value somewhere in the trees. -/
def DeclaredIn (trees : List Atom) (name : String) : Prop :=
  ∃ n ∈ nodes trees, n.declares? = some name

theorem DeclaredIn.of_below {trees t n} (ht : t ∈ trees)
    (hn : Below n t) (h : n.declares? = some name) : DeclaredIn trees name :=
  ⟨n, mem_flatMap.2 ⟨t, ht, hn.mem_inspect⟩, h⟩

/-- The words that trees mention are those in use, and symbols that they only declare. -/
structure Accounted (trees : List Atom) (words used : List Mention) : Prop where
  sound : ∀ x ∈ used, x ∈ words
  complete : ∀ x ∈ words, x.isSymbol = true → x ∈ used ∨ x.isCallee = false ∧
    ∃ t ∈ trees, ∃ n, Below n t ∧ n.declares? = some x.word

namespace Accounted
variable {trees trees' : List Atom} {words words' used used' : List Mention} {a : Atom}

theorem of_eq (h : used = words) : Accounted trees words used where
  sound _ hx := h ▸ hx
  complete _ hx _ := .inl (h ▸ hx)

theorem append (h : Accounted trees words used) (h' : Accounted trees' words' used') :
    Accounted (trees ++ trees') (words ++ words') (used ++ used') where
  sound x hx := by
    rw [mem_append] at hx ⊢
    exact hx.imp (h.sound x) (h'.sound x)
  complete x hx hs := by
    rw [mem_append]
    rcases mem_append.1 hx with hx | hx
    · obtain hu | ⟨hc, t, ht, hn⟩ := h.complete x hx hs
      · exact .inl (.inl hu)
      · exact .inr ⟨hc, t, mem_append_left _ ht, hn⟩
    · obtain hu | ⟨hc, t, ht, hn⟩ := h'.complete x hx hs
      · exact .inl (.inr hu)
      · exact .inr ⟨hc, t, mem_append_right _ ht, hn⟩

theorem singleton (h : Accounted [a] a.mentions a.uses) : Accounted [a] (mentionsAll [a]) (usesAll [a]) :=
  h.append (show Accounted [] [] [] from of_eq rfl)

theorem parent (h : Accounted trees words used) (hc : ∀ t ∈ trees, t ∈ a.children) :
    Accounted [a] words used where
  sound := h.sound
  complete x hx hs := by
    refine (h.complete x hx hs).imp_right ?_
    rintro ⟨hx, t, ht, n, hn, hd⟩
    exact ⟨hx, a, mem_singleton_self a, n, .child (hc t ht) hn, hd⟩

theorem clause {lv body} (cond : Option Atom) (hc : usesOption cond = mentionsOption cond)
    (h : Accounted body (mentionsAll body) (usesAll body)) :
    Accounted [.clause lv name cond (.block lv [] true body)]
      (Atom.clause lv name cond (.block lv [] true body)).mentions
      (Atom.clause lv name cond (.block lv [] true body)).uses := by
  have hblock : Accounted [.block lv [] true body] (mentionsAll body) (usesAll body) :=
    h.parent fun t ht => ht
  have hcond : Accounted [] (mentionsOption cond) (usesOption cond) := of_eq hc
  simp only [mentions, uses, if_true]
  exact (hcond.append hblock).parent fun t ht => mem_append_right _ ht

theorem chain {lv clauses} (h : Accounted clauses (mentionsAll clauses) (usesAll clauses)) :
    Accounted [.exprStmt lv [] true [.chain lv clauses]]
      (Atom.exprStmt lv [] true [.chain lv clauses]).mentions
      (Atom.exprStmt lv [] true [.chain lv clauses]).uses := by
  rw [uses_exprStmt, mentions_exprStmt, uses, mentionsAll, mentions, mentionsAll,
    append_nil]
  exact (h.parent (a := .chain lv clauses) fun t ht => ht).parent fun t ht => ht

end Accounted

mutual

theorem StmtCode.accounted : ∀ {loop a code}, StmtCode loop a code → Accounted [a] a.mentions a.uses
  | _, _, _, .comment => .of_eq rfl
  | _, _, _, .nothing => .of_eq rfl
  | _, _, _, .declare hd => by
    obtain ⟨-, front, hwords, hfront⟩ := declared?_mentions hd
    refine ⟨by simp [uses, hd], fun x hx hs => .inr ?_⟩
    rw [mentions_exprStmt, hwords, mem_append, mem_singleton] at hx
    rcases hx with hx | rfl
    · rw [hfront x hx] at hs
      cases hs
    · exact ⟨rfl, _, mem_singleton_self _, _, .self, hd⟩
  | _, _, _, .value h => .of_eq (by simp [uses_exprStmt, mentions_exprStmt, mentionsAll, h.uses_eq])
  | _, _, _, .assign _ hr h => .of_eq (by
      rw [uses_exprStmt, mentions_exprStmt]
      simp [uses, usesAll, mentions, mentionsAll, h.usesAll_eq, hr.uses_eq])
  | _, _, _, .branches h => .chain h.accounted
  | _, _, _, .whileLoop hc hb =>
    .chain (.singleton (.clause (some _) hc.uses_eq hb.accounted))
  | _, _, _, .ret => .of_eq rfl
  | _, _, _, .retValue h | _, _, _, .assertion h => .of_eq (by
      simp [uses, usesAll, mentions, mentionsAll, h.uses_eq])
  | _, _, _, .brk => .of_eq rfl
  | _, _, _, .cont => .of_eq rfl

theorem ArmsCode.accounted : ∀ {loop clauses code},
    ArmsCode loop clauses code → Accounted clauses (mentionsAll clauses) (usesAll clauses)
  | _, _, _, .intro _ hc hb he =>
    (Accounted.clause (some _) hc.uses_eq hb.accounted).append he.accounted

theorem ElseCode.accounted : ∀ {loop clauses code},
    ElseCode loop clauses code → Accounted clauses (mentionsAll clauses) (usesAll clauses)
  | _, _, _, .nil => .of_eq rfl
  | _, _, _, .arms h => h.accounted
  | _, _, _, .otherwise h =>
    .singleton (.clause none rfl h.accounted)

theorem StmtsCode.accounted : ∀ {loop stmts code},
    StmtsCode loop stmts code → Accounted stmts (mentionsAll stmts) (usesAll stmts)
  | _, _, _, .nil => .of_eq rfl
  | _, _, _, .cons h hs => h.accounted.append hs.accounted

end

/-! ## The symbols of a program -/

theorem Symbols.mem_usesMemory {run} :
    (Symbols.ofRun run).usesMemory = true ↔ ⟨Keyword.memory, false⟩ ∈ mentionsAll run := by
  simp only [Symbols.ofRun, Symbols.ofMentions, contains_iff_mem, mem_map, mem_filter]
  refine ⟨?_, fun h => ⟨_, ⟨h, rfl⟩, rfl⟩⟩
  rintro ⟨⟨word, isCallee⟩, ⟨h, hc⟩, rfl⟩
  cases isCallee with
  | false => exact h
  | true => cases hc

/-- The code refers to the symbols that its source mentions. -/
structure CodeOf (atoms : List Atom) (code : List Instr) : Prop where
  refers : Refers code (usesAll atoms)
  accounted : Accounted atoms (mentionsAll atoms) (usesAll atoms)

theorem StmtsCode.codeOf {loop stmts} (h : StmtsCode loop stmts code) : CodeOf stmts code :=
  ⟨h.refers, h.accounted⟩

theorem ExprCode.codeOf {a} (h : ExprCode a code) : CodeOf [a] code := by
  have huses : usesAll [a] = mentionsAll [a] := by simp [usesAll, mentionsAll, h.uses_eq]
  refine ⟨huses ▸ h.refers.congr fun x => by simp [mentionsAll], .of_eq huses⟩

namespace CodeOf
variable {atoms : List Atom} {code : List Instr} {x : Mention} {name : String} {imm : Text}
  (h : CodeOf atoms code)
include h

theorem mem_mentions (hi : i ∈ code) (hn : i.Names (some x)) :
    x ∈ mentionsAll atoms :=
  h.accounted.sound x ((h.refers.mem_iff x).1 ⟨i, hi, hn⟩).1

theorem exists_names (hx : x ∈ mentionsAll atoms) (hs : x.isSymbol = true) :
    (∃ i ∈ code, i.Names (some x)) ∨ x.isCallee = false ∧ DeclaredIn atoms x.word := by
  rw [h.refers.mem_iff x]
  refine (h.accounted.complete x hx hs).imp (fun hu => ⟨hu, hs⟩) ?_
  rintro ⟨hc, t, ht, n, hn, hd⟩
  exact ⟨hc, .of_below ht hn hd⟩

theorem call_mem_iff :
    ⟨.call, imm⟩ ∈ code ↔ ∃ name ∈ (Symbols.ofRun atoms).calls, imm = Instr.ident name := by
  constructor
  · intro hi
    obtain ⟨m, hm⟩ := h.refers.names _ hi
    obtain ⟨name, himm, rfl⟩ := hm.of_call rfl
    exact ⟨name, Symbols.mem_calls.2 (h.mem_mentions hi hm), himm⟩
  · rintro ⟨name, hname, rfl⟩
    obtain ⟨i, hi, hn⟩ | ⟨hc, -⟩ := h.exists_names (Symbols.mem_calls.1 hname) rfl
    · cases hn
      exact hi
    · cases hc

theorem local_mem (hi : i ∈ code)
    (hop : i.op = .localGet ∨ i.op = .localSet) :
    ∃ name ∈ (Symbols.ofRun atoms).locals, i.imm = Instr.ident name := by
  obtain ⟨m, hm⟩ := h.refers.names i hi
  obtain ⟨name, himm, hn, rfl⟩ := hm.of_local hop
  exact ⟨name, Symbols.mem_locals.2 ⟨h.mem_mentions hi hm, hn⟩, himm⟩

theorem local_unused (hname : name ∈ (Symbols.ofRun atoms).locals)
    (hget : .localGet name ∉ code) (hset : .localSet name ∉ code) :
    ⟨name, false⟩ ∉ usesAll atoms ∧ DeclaredIn atoms name := by
  obtain ⟨hmention, hn⟩ := Symbols.mem_locals.1 hname
  have hs := isSymbol_of_nameable hn
  have hnone : ¬ ∃ i ∈ code, i.Names (some ⟨name, false⟩) := by
    rintro ⟨i, hi, hi'⟩
    obtain ⟨-, rfl | rfl⟩ | ⟨rfl, -⟩ := hi'.local_cases
    · exact hget hi
    · exact hset hi
    · exact absurd hn (by decide)
  refine ⟨fun hu => hnone ((h.refers.mem_iff _).2 ⟨hu, hs⟩), ?_⟩
  exact ((h.exists_names hmention hs).resolve_left hnone).2

theorem usesMemory_iff : (Symbols.ofRun atoms).usesMemory = true ↔
    ∃ i ∈ code, i.op = .load ∨ i.op = .store := by
  rw [Symbols.mem_usesMemory]
  constructor
  · intro hx
    obtain ⟨i, hi, hn⟩ | ⟨-, n, -, hd⟩ := h.exists_names hx (by decide)
    · obtain ⟨hm, -⟩ | ⟨-, hop⟩ := hn.local_cases
      · exact absurd hm (by decide)
      · exact ⟨i, hi, hop⟩
    · exact absurd (isNameable_of_declares? hd) (by decide)
  · rintro ⟨i, hi, hop⟩
    obtain ⟨m, hm⟩ := h.refers.names i hi
    obtain rfl := hm.of_memory hop
    exact h.mem_mentions hi hm

end CodeOf

/-! ## Call sites -/

theorem exists_append {words words' : List Mention} {sites sites' : List CallSite} {x : Mention}
    (h : x ∈ words → ∃ site ∈ sites, site.name = name)
    (h' : x ∈ words' → ∃ site ∈ sites', site.name = name) (hx : x ∈ words ++ words') :
    ∃ site ∈ sites ++ sites', site.name = name := by
  rcases mem_append.1 hx with hx | hx
  · obtain ⟨site, hsite, hname⟩ := h hx
    exact ⟨site, mem_append_left _ hsite, hname⟩
  · obtain ⟨site, hsite, hname⟩ := h' hx
    exact ⟨site, mem_append_right _ hsite, hname⟩

mutual

theorem Atom.exists_callSite : ∀ (a : Atom) (isValue : Bool), ⟨name, true⟩ ∈ a.uses →
    ∃ site ∈ a.callSites isValue, site.name = name
  | .unknown .., _, h | .literal .., _, h | .comment .., _, h | .operator .., _, h
  | .word .., _, h => by simp [uses] at h
  | .block _ _ _ body, _, h => by
    rw [uses] at h
    exact exists_callSiteOf body true h
  | .paren _ _ _ contents, _, h | .list _ _ _ contents, _, h | .item _ _ _ contents, _, h => by
    rw [uses] at h
    exact exists_callSiteOf contents true h
  | .call _ callee _ _ _ args, isValue, h => by
    have hargs (h : ⟨name, true⟩ ∈ usesAll args) := exists_callSiteOf args true h
    have hcallee (h : ⟨name, true⟩ ∈ callee.uses) := callee.exists_callSite true h
    cases callee with
    | word l w =>
      obtain hw | h := mem_cons.1 h
      · cases hw
        exact ⟨_, mem_cons_self, rfl⟩
      · obtain ⟨site, hsite, hname⟩ := hargs h
        exact ⟨site, mem_cons_of_mem _ hsite, hname⟩
    | _ => exact exists_append hcallee hargs h
  | .access _ callee _ _ index, _, h =>
    exists_append (callee.exists_callSite true) (exists_callSiteOf index true) h
  | .clause _ _ cond body, _, h =>
    exists_append (exists_callSiteOption cond) (body.exists_callSite true) h
  | .chain _ clauses, _, h => exists_callSiteOf clauses true h
  | .exprStmt _ _ _ exprs, _, h => by
    rw [uses] at h
    split at h
    · cases h
    · exact exists_callSiteOf exprs false h
  | .controlStmt _ _ _ _ exprs, _, h => exists_callSiteOf exprs true h

theorem exists_callSiteOption : ∀ a : Option Atom, ⟨name, true⟩ ∈ usesOption a →
    ∃ site ∈ callSitesOption a, site.name = name
  | some a, h => a.exists_callSite true h

/-- A word that is called in trees is the name of one of their call sites. -/
theorem exists_callSiteOf : ∀ (as : List Atom) (isValue : Bool), ⟨name, true⟩ ∈ usesAll as →
    ∃ site ∈ callSitesOf isValue as, site.name = name
  | a :: rest, isValue, h =>
    exists_append (a.exists_callSite isValue) (exists_callSiteOf rest isValue) h

end

/-- Every import has a host if the call sites are served. -/
theorem CodeOf.calls_served {hosts : HostTable} {atoms} (h : CodeOf atoms code)
    (hs : ∀ site ∈ callSitesOf true atoms, hosts.Serves site) :
    ∀ name ∈ (Symbols.ofRun atoms).calls, ∃ host, hosts.lookup name = some host := by
  intro name hname
  obtain ⟨i, hi, hn⟩ | ⟨hc, -⟩ := h.exists_names (Symbols.mem_calls.1 hname) rfl
  · obtain ⟨site, hsite, rfl⟩ := exists_callSiteOf atoms true ((h.refers.mem_iff _).1 ⟨i, hi, hn⟩).1
    obtain ⟨host, hhost, -⟩ := hs site hsite
    exact ⟨host, hhost⟩
  · cases hc

end WatScript
