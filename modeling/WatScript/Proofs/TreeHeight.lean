import WatScript.Proofs.Climbing
import WatScript.Proofs.NestingGuard

/-!
# How high trees grow

A nesting limit counts the runs that are being read inside each other. Brackets, operands, conditions and
blocks open a run, so a path through a tree can not cross many of them. A callee opens none: it is read
together with the call. So a tree under a limit can be as high as its longest row of calls and subscripts,
`f()()()`, which no limit restricts (`limit_does_not_bound_height`), and apart from such rows the limit does
bound its height (`height_bounded_by_limit_and_rows`).
-/

namespace WatScript

open List Atom

/-! ## Heights -/

mutual

/-- The number of atoms on the longest path down from an atom. -/
def Atom.height : Atom → Nat
  | .unknown .. | .literal .. | .comment .. | .word .. | .operator .. => 1
  | .block _ raw resolved body => (if resolved then heights body else heights raw) + 1
  | .paren _ raw _ contents | .list _ raw _ contents | .item _ raw _ contents =>
    max (heights raw) (heights contents) + 1
  | .call _ callee raw _ _ args => max callee.height (max (heights raw) (heights args)) + 1
  | .access _ callee raw _ index => max callee.height (max (heights raw) (heights index)) + 1
  | .clause _ _ cond body => max (heightOption cond) body.height + 1
  | .chain _ clauses => heights clauses + 1
  | .exprStmt _ raw _ exprs | .controlStmt _ _ raw _ exprs => max (heights raw) (heights exprs) + 1

def heightOption : Option Atom → Nat
  | none => 0
  | some a => a.height

def heights : List Atom → Nat
  | [] => 0
  | a :: rest => max a.height (heights rest)

end

theorem heights_append (as bs : List Atom) : heights (as ++ bs) = max (heights as) (heights bs) := by
  induction as with
  | nil => simp [heights]
  | cons a rest ih => rw [cons_append, heights, heights, ih, Nat.max_assoc]

theorem Atom.height_eq (a : Atom) : a.height = heights a.children + 1 := by
  cases a with
  | block lv raw resolved body => cases resolved <;> rfl
  | clause lv name cond body =>
    cases cond <;> simp [height, heightOption, children, heights]
  | paren | list | item | exprStmt | controlStmt => rw [height, children, heights_append]
  | call | access => rw [height, children, cons_append, heights, heights_append]
  | _ => rfl

theorem heights_le {n as} (h : ∀ a ∈ as, a.height ≤ n) : heights as ≤ n := by
  induction as with
  | nil => exact Nat.zero_le n
  | cons a rest ih =>
    obtain ⟨ha, hrest⟩ := forall_mem_cons.1 h
    exact Nat.max_le.2 ⟨ha, ih hrest⟩

theorem Atom.height_le {a : Atom} {n : Nat} (h : ∀ b ∈ a.children, b.height ≤ n) : a.height ≤ n + 1 := by
  rw [height_eq]
  exact Nat.succ_le_succ (heights_le h)

/-- How many calls and subscripts are applied one after the other, `f(1)[2](3)` being a row of three. -/
def Atom.row : Atom → Nat
  | .call _ callee .. | .access _ callee .. => callee.row + 1
  | _ => 0

/-- No row of the tree is longer than `k`. -/
def RowsWithin (k : Nat) (a : Atom) : Prop := ∀ n, Below n a → n.row ≤ k

/-! ## Heights under a limit -/

/-- How many runs may be read inside each other under a limit. -/
def openRuns (limit : Int64) : Nat := (limit * nestingFactor).toInt.toNat

/-- How high the part of a tree can be that is read inside `nest` runs, apart from the row that it is. -/
def room (limit : Int64) (k nest : Nat) : Nat := (k + 4) * (openRuns limit - nest)

section
variable {limit : Int64} {k : Nat}

theorem RowsWithin.child {a b} (h : RowsWithin k a) (hb : b ∈ a.children) : RowsWithin k b :=
  fun n hn => h n (.child hb hn)

theorem RowsWithin.height_le {a b n} (h : RowsWithin k a) (hb : b ∈ a.children)
    (hheight : b.height ≤ n + (b.row + 1)) : b.height ≤ n + (k + 1) := by
  have := h b (.child hb .self)
  omega

theorem Granted.room_eq (hpos : 0 < limit) (k : Nat) {nest depth log}
    (h : Granted limit (⟨nest, depth⟩ :: log)) (hn : nest ≤ openRuns limit) :
    nest + 1 ≤ openRuns limit ∧ room limit k nest = room limit k (nest + 1) + (k + 4) := by
  have hlt : Int64.ofNat nest < limit * nestingFactor :=
    ((isGranted_iff hpos).1 (h _ mem_cons_self)).2
  have hmax := (limit * nestingFactor).toInt_lt
  have hopen : nest < openRuns limit := by
    unfold openRuns at hn ⊢
    rw [Int64.lt_iff_toInt_lt, Int64.toInt_ofNat_of_lt (by omega)] at hlt
    omega
  refine ⟨hopen, ?_⟩
  rw [room, room, ← Nat.mul_succ]
  congr 1
  omega

mutual

theorem ExprTree.height_le (hpos : 0 < limit) : ∀ {lv a} {nest : Nat}, ExprTree lv a →
    nest ≤ openRuns limit → Granted limit (a.openings nest) → RowsWithin k a →
      a.height ≤ room limit k nest + (a.row + 1)
  | _, _, _, .literal, _, _, _ | _, _, _, .word _, _, _, _ => Nat.le_add_left ..
  | _, _, _, .block h, hn, ho, hr => by
    obtain ⟨hn', hroom⟩ := ho.room_eq hpos k hn
    refine Nat.le_trans (height_le fun s hs =>
      (h s hs).height_le hpos hn' (ho.tail.of_mem hs) (hr.child hs)) ?_
    omega
  | _, _, _, .paren h, hn, ho, hr => by
    obtain ⟨hn', hroom⟩ := ho.room_eq hpos k hn
    refine Nat.le_trans (height_le fun a ha => hr.height_le ha
      ((h a ha).height_le hpos hn' (ho.tail.of_mem ha) (hr.child ha))) ?_
    omega
  | _, _, _, .list h, hn, ho, hr =>
    height_le fun a ha => (h a ha).height_le hpos hn (ho.of_mem ha) (hr.child ha)
  | _, _, _, .operation _ hl hright, hn, ho, hr => by
    have hleft := hl.height_le hpos hn (ho.right.of_mem mem_cons_self)
      (hr.child (mem_cons_of_mem _ mem_cons_self))
    have hright := hright.height_le hpos hn
      (ho.right.of_mem (mem_cons_of_mem _ mem_cons_self))
      (hr.child (mem_cons_of_mem _ (mem_cons_of_mem _ mem_cons_self)))
    refine height_le (forall_mem_cons.2 ⟨Nat.le_add_left .., forall_mem_cons.2
      ⟨Nat.le_succ_of_le hleft, forall_mem_singleton.2 (Nat.le_succ_of_le hright)⟩⟩)
  | _, _, _, .call _ hc h, hn, ho, hr | _, _, _, .access _ hc h, hn, ho, hr => by
    refine height_le (forall_mem_cons.2 ⟨?_, fun a ha => ?_⟩)
    · exact hc.height_le hpos hn ho.left (hr.child mem_cons_self)
    · exact Nat.le_trans ((h a ha).height_le hpos hn (ho.right.of_mem ha)
        (hr.child (mem_cons_of_mem _ ha))) (Nat.le_add_right ..)
  | _, _, _, .chain _ h, hn, ho, hr =>
    height_le fun a ha => (h a ha).height_le hpos hn (ho.of_mem ha) (hr.child ha)

theorem ItemTree.height_le (hpos : 0 < limit) : ∀ {lv a} {nest : Nat}, ItemTree lv a →
    nest ≤ openRuns limit → Granted limit (a.openings nest) → RowsWithin k a →
      a.height ≤ room limit k nest
  | _, _, _, .intro h, hn, ho, hr => by
    obtain ⟨hn', hroom⟩ := ho.room_eq hpos k hn
    refine Nat.le_trans (height_le fun a ha => hr.height_le ha
      ((h a ha).height_le hpos hn' (ho.tail.of_mem ha) (hr.child ha))) ?_
    omega

theorem ClauseTree.height_le (hpos : 0 < limit) : ∀ {lv a} {nest : Nat},
    ClauseTree lv a → nest ≤ openRuns limit → Granted limit (a.openings nest) → RowsWithin k a →
      a.height ≤ room limit k nest
  | _, _, _, .conditional _ _ hc hb, hn, ho, hr => by
    obtain ⟨hn', hroom⟩ := ho.left.room_eq hpos k hn
    have hcond := hr.child mem_cons_self
    have hbody := hr.child (mem_cons_of_mem _ mem_cons_self)
    rw [hroom]
    refine height_le (forall_mem_cons.2 ⟨Nat.le_succ_of_le (height_le fun a ha =>
      hcond.height_le ha ?_), forall_mem_singleton.2 (height_le fun s hs => ?_)⟩)
    · exact (hc a ha).height_le hpos hn' (ho.left.tail.of_mem ha) (hcond.child ha)
    · exact (hb s hs).height_le hpos hn' (ho.right.tail.of_mem hs) (hbody.child hs)
  | _, _, _, .unconditional _ _ hb, hn, ho, hr => by
    obtain ⟨hn', hroom⟩ := ho.right.room_eq hpos k hn
    have hbody := hr.child mem_cons_self
    rw [hroom]
    refine height_le (forall_mem_singleton.2 (height_le fun s hs => ?_))
    exact (hb s hs).height_le hpos hn' (ho.right.tail.of_mem hs) (hbody.child hs)

theorem StmtTree.height_le (hpos : 0 < limit) : ∀ {lv a} {nest : Nat}, StmtTree lv a →
    nest ≤ openRuns limit → Granted limit (a.openings nest) → RowsWithin k a →
      a.height ≤ room limit k nest + (k + 2)
  | _, _, _, .comment, _, _, _ => by
    rw [height]
    omega
  | _, _, _, .exprs h, hn, ho, hr | _, _, _, .control _ h, hn, ho, hr =>
    height_le fun a ha =>
      hr.height_le ha ((h a ha).height_le hpos hn (ho.of_mem ha) (hr.child ha))

end

theorem openRuns_eq (hpos : 0 < limit) (hsmall : limit.toInt < 2 ^ 61) :
    (openRuns limit : Int) = 4 * limit.toInt := by
  have hpos' : 0 < limit.toInt := Int64.lt_iff_toInt_lt.1 hpos
  rw [openRuns, toInt_mul_nestingFactor hpos hsmall]
  omega

end

/-! ## Rows of calls -/

/-- A name with `n` pairs of parentheses behind it. -/
def callText (n : Nat) : Text := .char 'f' :: (List.replicate n [.char '(', .char ')']).flatten

/-- Calls of calls, unread. -/
def unreadCalls : Nat → Atom
  | 0 => .word .top "f"
  | n + 1 => .call .top (unreadCalls n) [] false false []

/-- Calls of calls. -/
def callTree : Nat → Atom
  | 0 => .word .top "f"
  | n + 1 => .call .top (callTree n) [] true true []

theorem height_callTree (n : Nat) : (callTree n).height = n + 1 := by
  induction n with
  | zero => rfl
  | succ n ih => rw [callTree, height_eq, children, append_nil, heights, ih]; rfl

theorem row_callTree (n : Nat) : (callTree n).row = n := by
  induction n with
  | zero => rfl
  | succ n ih => rw [callTree, row, ih]

theorem rows_callTree {n k} (h : n ≤ k) : Everywhere (·.row ≤ k) (callTree n) := by
  induction n with
  | zero => exact .intro h (forall_mem_nil _)
  | succ n ih =>
    refine .intro (by rw [row_callTree]; exact h) (forall_mem_singleton.2 (ih ?_))
    exact Nat.le_of_succ_le h

theorem explode_callText (n : Nat) : explode .top (callText n) =
    .unknown .top 'f' :: (List.replicate n [Atom.unknown .top '(', .unknown .top ')']).flatten := by
  simp [explode, callText, Text.toChars, map_flatten, Glyph.toChar]

theorem mem_explode_callText {n a} (h : a ∈ explode .top (callText n)) :
    ∃ c ∈ ['f', '(', ')'], a = .unknown .top c := by
  rw [explode_callText, mem_cons, mem_flatten] at h
  rcases h with rfl | ⟨pair, hpair, ha⟩
  · exact ⟨_, mem_cons_self, rfl⟩
  · obtain rfl := eq_of_mem_replicate hpair
    rcases mem_pair.1 ha with rfl | rfl
    · exact ⟨'(', by decide, rfl⟩
    · exact ⟨')', by decide, rfl⟩

theorem scanBrackets_calls (n : Nat) :
    scanBrackets .round .top none (List.replicate n [Atom.unknown .top '(', .unknown .top ')']).flatten =
      .ok (List.replicate n (.wrapped (.unknown .top '(') (.unknown .top ')') (.paren .top [] false []))) := by
  induction n with
  | zero => rw [replicate_zero, flatten_nil, scanBrackets_none_nil]; rfl
  | succ n ih =>
    rw [replicate_succ, flatten_cons, cons_append, cons_append, nil_append]
    refine (scanBrackets_none_opener .round .top _).trans
      ((scanBrackets_closer_outer .round .top _ [] _).trans ?_)
    rw [ih]
    rfl

theorem group_callText (n : Nat) : group .top (relevel .top (explode .top (callText n))) =
    .ok (.word .top "f" :: List.replicate n (.paren .top [] false [])) := by
  have hother (pair : Bracket) (hpair : pair ≠ .round) :
      groupPair pair .top (explode .top (callText n)) = .ok (explode .top (callText n)) := by
    refine groupPair_of_noMarks pair .top fun a ha => ?_
    obtain ⟨c, hc, rfl⟩ := mem_explode_callText ha
    simp only [mem_cons, not_mem_nil, or_false] at hc
    cases pair with
    | round => exact absurd rfl hpair
    | brace | square => rcases hc with rfl | rfl | rfl <;> rfl
  have hround : groupPair .round .top (explode .top (callText n)) =
      .ok (.unknown .top 'f' :: List.replicate n (.paren .top [] false [])) := by
    rw [explode_callText, groupPair, cutBrackets, scanBrackets_none_cons rfl, scanBrackets_calls]
    simp [Except.map, atomsOf, filterMap_replicate, Piece.atom?]
  have hplain : ∀ c ∈ ['f', '(', ')'], c ≠ '"' ∧ c ≠ '/' := by simp
  have hfree : LiteralFree (explode .top (callText n)) := literalFree_of_chars fun l c hm => by
    obtain ⟨c, hc, heq⟩ := mem_explode_callText hm
    cases heq
    exact hplain c hc
  have hword : scanWords .top [⟨.top, 'f'⟩] (List.replicate n (.paren .top [] false [])) =
      .ok (.made [.unknown .top 'f'] (.word .top "f") ::
        (List.replicate n (.paren .top [] false [])).map .kept) := by
    cases n with
    | zero => rw [replicate_zero, scanWords]; rfl
    | succ n =>
      have hletters (a : Atom) (ha : a ∈ List.replicate n (.paren .top [] false [])) :
          a.isLetter = false := by
        rw [eq_of_mem_replicate ha]
        rfl
      rw [replicate_succ, scanWords, scanWords_of_separators .top hletters]
      · rfl
      · simp
  rw [relevel_explode, group, extractLiterals_of_literalFree .top hfree]
  simp only [groupBrackets, Bracket.all, List.foldlM, hother .brace (by decide), hother .square (by decide),
    hround, bind, Except.bind, pure, Except.pure, tokenize, cutWords, scanWords]
  rw [if_neg (by decide), if_neg (by decide), hword]
  simp [Except.map, atomsOf, filterMap_replicate, Piece.atom?]

theorem applicationsFrom_brackets {p} (h : p.head.isCallable = true) (n : Nat) :
    applicationsFrom (some p) (List.replicate n (.paren .top [] false [])) =
      [⟨p.head, p.brackets ++ List.replicate n (.paren .top [] false [])⟩] := by
  induction n generalizing p with
  | zero => rw [replicate_zero, applicationsFrom, append_nil]
  | succ n ih =>
    have htakes : p.takes (.paren .top [] false []) = true := by
      simp [Application.takes, isArgumentBracket, h]
    have hpush : (p.push (.paren .top [] false [])).head.isCallable = true := h
    rw [replicate_succ, applicationsFrom, if_pos htakes, ih hpush]
    simp [Application.push]

theorem foldl_applyTo_unreadCalls (n : Nat) :
    (List.replicate n (.paren .top [] false [])).foldl applyTo (.word .top "f") = unreadCalls n := by
  induction n with
  | zero => rfl
  | succ n ih => rw [replicate_succ', foldl_append, ih]; rfl

theorem structureRun_calls (n : Nat) :
    structureRun .top (.word .top "f" :: List.replicate n (.paren .top [] false [])) =
      .ok [unreadCalls n] := by
  have hrun {P : Atom → Prop} (hword : P (.word .top "f")) (hparen : P (.paren .top [] false [])) :
      ∀ a ∈ .word .top "f" :: List.replicate n (.paren .top [] false []), P a :=
    forall_mem_cons.2 ⟨hword, fun a ha => by rw [eq_of_mem_replicate ha]; exact hparen⟩
  have hcalls : groupCalls (.word .top "f" :: List.replicate n (.paren .top [] false [])) =
      [unreadCalls n] := by
    have happlied := applicationsFrom_brackets (p := ⟨.word .top "f", []⟩) (by decide) n
    rw [groupCalls, mergeCalls, applications, applicationsFrom, happlied]
    simp only [nil_append, map_cons, map_nil, Application.atom, foldl_applyTo_unreadCalls]
  have hplain : (unreadCalls n).isOperator = false := by cases n <;> rfl
  simp only [structureRun, dropComments_of_isVoid (hrun rfl rfl),
    groupSyntax_of_clauseless .top (hrun (by decide) rfl), hcalls, reduce, splitPoint?, bind, Except.bind]
  rw [splitPointFrom_none (forall_mem_singleton.2 hplain)]
  rfl

theorem resolveExpr_unreadCalls (limit : Int64) (nest n : Nat) : ∀ {fuel},
    (unreadCalls n).weight ≤ fuel → resolveExpr fuel limit nest (unreadCalls n) = .ok (callTree n) := by
  induction n with
  | zero =>
    intro fuel h
    obtain ⟨fuel, rfl⟩ : ∃ m, fuel = m + 1 := ⟨fuel - 1, by rw [unreadCalls, weight] at h; omega⟩
    rw [unreadCalls, resolveExpr, callTree]
  | succ n ih =>
    intro fuel h
    have hplain : (unreadCalls n).isOperator = false := by cases n <;> rfl
    simp only [unreadCalls, weight, hplain, Bool.false_eq_true, if_false, weights_nil] at h
    obtain ⟨fuel, rfl⟩ : ∃ m, fuel = m + 1 := ⟨fuel - 1, by omega⟩
    rw [unreadCalls, resolveExpr, ih (by omega)]
    simp only [Bool.false_eq_true, if_false, hplain]
    rfl

theorem parseExpr_callText {limit} (h : mayOpen limit 0 .top = true) (n : Nat) :
    parseExpr limit (callText n) = .ok [callTree n] := by
  have htokens := weights_group (group_callText n)
  have hparts := weights_structureRun
    (forall_mem_cons.2 ⟨rfl, fun a ha => by rw [eq_of_mem_replicate ha]; rfl⟩) (structureRun_calls n)
  rw [weights_cons, weights_nil] at hparts
  unfold parseExpr
  dsimp only
  rw [readRun_open h, group_callText]
  simp only [bind, Except.bind, structureRun_calls]
  rw [mapM_cons, resolveExpr_unreadCalls limit 1 n (by omega)]
  rfl

theorem mayOpen_top {limit} (hpos : 0 < limit) (hsmall : limit.toInt < 2 ^ 61) :
    mayOpen limit 0 .top = true := by
  refine (isGranted_iff (o := ⟨0, 0⟩) hpos).2 ⟨Int64.le_of_lt hpos, ?_⟩
  have hzero : (Int64.ofNat 0).toInt = 0 := rfl
  have hpos' : 0 < limit.toInt := Int64.lt_iff_toInt_lt.1 hpos
  rw [Int64.lt_iff_toInt_lt, toInt_mul_nestingFactor hpos hsmall, hzero]
  omega

/-- Apart from rows of calls and subscripts, a limit bounds the height of what is read under it. Rows can be
as long as one likes. -/
theorem height_bounded_by_limit_and_rows {limit : Int64} (hpos : 0 < limit) :
    (∀ text out k, parseExpr limit text = .ok out ∨ parseStmts limit text = .ok out →
      (∀ n ∈ nodes out, n.row ≤ k) → ∀ a ∈ out, a.height ≤ (k + 4) * openRuns limit) ∧
    (limit.toInt < 2 ^ 61 → (openRuns limit : Int) = 4 * limit.toInt ∧
      ∀ k, ∃ text out, parseExpr limit text = .ok out ∧ (∀ n ∈ nodes out, n.row ≤ k) ∧
        ∃ a ∈ out, k < a.height) := by
  refine ⟨fun text out k hout hrows a ha => ?_, fun hsmall => ⟨openRuns_eq hpos hsmall, fun k => ?_⟩⟩
  · have hr : RowsWithin k a := fun n hn => hrows n (List.mem_flatMap.2 ⟨a, ha, hn.mem_inspect⟩)
    have hcuts := cutsAt (noStricter_refl limit) (weights (explode .top text) + 4)
    have hroot : room limit k 0 = (k + 4) * openRuns limit := rfl
    rcases hout with hout | hout
    · have htrees := parseExpr_trees limit text
      obtain ⟨-, ho⟩ := granted_of_cut (parseExpr_accounts limit text)
        ((hcuts.run 0 .top _).symm.trans hout)
      obtain ⟨hn, hroom⟩ := ho.room_eq hpos k (Nat.zero_le _)
      rw [hout] at htrees
      have hheight := (htrees a ha).height_le hpos hn (ho.tail.of_mem ha) hr
      have hrow := hr a .self
      omega
    · have htrees := parseStmts_trees limit text
      obtain ⟨-, ho⟩ := granted_of_cut (parseStmts_accounts limit text)
        ((hcuts.statements 0 .top _).symm.trans hout)
      obtain ⟨hn, hroom⟩ := ho.room_eq hpos k (Nat.zero_le _)
      rw [hout] at htrees
      have hheight := (htrees a ha).height_le hpos hn (ho.tail.of_mem ha) hr
      omega
  · refine ⟨callText k, [callTree k], parseExpr_callText (mayOpen_top hpos hsmall) k, ?_,
      _, List.mem_cons_self, ?_⟩
    · exact everywhere_nodes (List.forall_mem_singleton.2 (rows_callTree (Nat.le_refl k)))
    · rw [height_callTree]
      exact Nat.lt_succ_self k

theorem height_bounded_by_limit_and_rows_statements :
    0 < (2 : Int64) ∧ ∃ stmts, parseStmts 2 (.ofString "if (x) \x7b f(-y)(1)[2] \x7d; g()") = .ok stmts ∧
      (∀ n ∈ nodes stmts, n.row ≤ 3) ∧ stmts.map Atom.height = [12, 3] ∧
      ∀ a ∈ stmts, a.height ≤ (3 + 4) * openRuns 2 := by
  have hpos : 0 < (2 : Int64) := by decide
  have hok : (parseStmts 2 (.ofString "if (x) \x7b f(-y)(1)[2] \x7d; g()")).map (fun stmts =>
      ((nodes stmts).all (fun n => n.row ≤ 3), stmts.map Atom.height)) = .ok (true, [12, 3]) := by
    decide +kernel
  obtain ⟨stmts, hparse, heq⟩ := map_ok hok
  obtain ⟨hrows, hheights⟩ := Prod.mk.inj heq
  have hrows' : ∀ n ∈ nodes stmts, n.row ≤ 3 := by simpa using hrows
  exact ⟨hpos, stmts, hparse, hrows', hheights,
    (height_bounded_by_limit_and_rows hpos).1 _ stmts 3 (.inr hparse) hrows'⟩

/-- No limit bounds the height of all trees that are read under it. -/
theorem limit_does_not_bound_height : ¬ ∀ limit : Int64, 0 < limit → ∃ bound : Nat, ∀ text out,
    parseExpr limit text = .ok out ∨ parseStmts limit text = .ok out → ∀ a ∈ out, a.height ≤ bound := by
  intro h
  obtain ⟨bound, hbound⟩ := h 1 (by decide)
  have hle := hbound (callText bound) _ (.inl (parseExpr_callText (by decide) bound)) _ List.mem_cons_self
  rw [height_callTree] at hle
  omega

end WatScript
