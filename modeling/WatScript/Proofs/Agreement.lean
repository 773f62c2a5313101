import WatScript.Proofs.Twins
import WatScript.Proofs.Weights

/-!
# Reading two runs side by side

`Lockstep keep E R` says of a relation `R` between unread runs that lexing two related runs gives runs
that differ only in what is unread, and that what is unread in them is related again. Reading related
runs then ends alike: with the same failure, which is in `E`, or with the same trees, apart from
comments that are not kept (`Lockstep.parseExpr_agree`, `Lockstep.parseStmts_agree`).

The two readings may have different budgets. Each of them is enough, as no pass raises the weight of
what is left to read.
-/

namespace WatScript

open List Atom

/-! ## Trees without comments -/

mutual

/-- The tree without its comments, unless they are kept. -/
def Atom.tidy (keep : Bool) : Atom → Atom
  | .block lv raw r body => .block lv raw r (tidyAll keep body)
  | .paren lv raw r contents => .paren lv raw r (tidyAll keep contents)
  | .list lv raw r contents => .list lv raw r (tidyAll keep contents)
  | .item lv raw r contents => .item lv raw r (tidyAll keep contents)
  | .call lv callee raw r s args => .call lv (callee.tidy keep) raw r s (tidyAll keep args)
  | .access lv callee raw r index => .access lv (callee.tidy keep) raw r (tidyAll keep index)
  | .clause lv name cond body => .clause lv name (tidyOption keep cond) (body.tidy keep)
  | .chain lv clauses => .chain lv (tidyAll keep clauses)
  | .exprStmt lv raw r exprs => .exprStmt lv raw r (tidyAll keep exprs)
  | .controlStmt lv head raw r exprs => .controlStmt lv head raw r (tidyAll keep exprs)
  | a => a

def tidyOption (keep : Bool) : Option Atom → Option Atom
  | none => none
  | some a => some (a.tidy keep)

def tidyAll (keep : Bool) : List Atom → List Atom
  | [] => []
  | a :: rest => if a.isKept keep then a.tidy keep :: tidyAll keep rest else tidyAll keep rest

end

section
variable {keep : Bool}

theorem tidyAll_cons_kept {a} (h : a.isKept keep = true) (rest : List Atom) :
    tidyAll keep (a :: rest) = a.tidy keep :: tidyAll keep rest := by
  rw [tidyAll, if_pos h]

theorem tidyAll_cons_dropped {a} (h : a.isKept keep = false) (rest : List Atom) :
    tidyAll keep (a :: rest) = tidyAll keep rest := by
  rw [tidyAll, if_neg (by simp [h])]

/-- The atoms are the same when tidied. -/
structure Same (keep : Bool) (a a' : Atom) : Prop where
  tidy_eq : a.tidy keep = a'.tidy keep
  isKept_eq : a.isKept keep = a'.isKept keep

theorem same_of_tidy_eq {a a'} (h : a.tidy keep = a'.tidy keep) : Same keep a a' := by
  have hcomment : ∀ b : Atom, (b.tidy keep).isComment = b.isComment := by
    intro b
    cases b <;> rfl
  exact ⟨h, by rw [isKept, isKept, ← hcomment a, ← hcomment a', h]⟩

theorem tidyAll_eq_of_same {as as'} (h : Forall₂ (Same keep) as as') :
    tidyAll keep as = tidyAll keep as' := by
  induction h with
  | nil => rfl
  | cons h _ ih => rw [tidyAll, tidyAll, h.tidy_eq, h.isKept_eq, ih]

mutual

theorem Atom.tidy_true : ∀ a : Atom, a.tidy true = a
  | .unknown .. | .literal .. | .comment .. | .word .. | .operator .. => by rw [tidy] <;> simp
  | .block _ _ _ body => by rw [tidy, tidyAll_true body]
  | .paren _ _ _ contents => by rw [tidy, tidyAll_true contents]
  | .list _ _ _ contents => by rw [tidy, tidyAll_true contents]
  | .item _ _ _ contents => by rw [tidy, tidyAll_true contents]
  | .call _ callee _ _ _ args => by rw [tidy, Atom.tidy_true callee, tidyAll_true args]
  | .access _ callee _ _ index => by rw [tidy, Atom.tidy_true callee, tidyAll_true index]
  | .clause _ _ cond body => by rw [tidy, tidyOption_true cond, Atom.tidy_true body]
  | .chain _ clauses => by rw [tidy, tidyAll_true clauses]
  | .exprStmt _ _ _ exprs => by rw [tidy, tidyAll_true exprs]
  | .controlStmt _ _ _ _ exprs => by rw [tidy, tidyAll_true exprs]

theorem tidyOption_true : ∀ cond : Option Atom, tidyOption true cond = cond
  | none => rfl
  | some a => by rw [tidyOption, Atom.tidy_true a]

theorem tidyAll_true : ∀ as : List Atom, tidyAll true as = as
  | [] => rfl
  | a :: rest => by rw [tidyAll_cons_kept rfl, Atom.tidy_true a, tidyAll_true rest]

end

end

/-! ## Reading side by side -/

/-- Two readings fail alike, or give the same trees apart from comments that are not kept. -/
abbrev AgreeAll (keep : Bool) (E : ReadFault → Prop) (x x' : Except ReadFault (List Atom)) : Prop :=
  Agree E (fun out out' => tidyAll keep out = tidyAll keep out') x x'

/-- Lexing related runs gives runs that differ only in what is unread; what stands in argument brackets
also gives slots that do. -/
structure Lockstep (keep : Bool) (E : ReadFault → Prop)
    (R : Bracket → List Atom → List Atom → Prop) : Prop where
  fault : ∀ f, f.isUnmatched = false → E f
  lex : ∀ {pair raw raw' lv}, lv.tag = 0 → R pair raw raw' →
    Agree E (fun toks toks' => Near R lv keep toks toks' ∧
        (pair ≠ .brace → Forall₂ (NearItem R lv keep) (slots lv toks) (slots lv toks')))
      (group lv (relevel lv raw)) (group lv (relevel lv raw'))

/-- The runs are lexed into near runs, or into faults that agree. -/
def LexNear (keep : Bool) (E : ReadFault → Prop) (R : Bracket → List Atom → List Atom → Prop)
    (lv : Level) (raw raw' : List Atom) : Prop :=
  Agree E (Near R lv keep) (group lv (relevel lv raw)) (group lv (relevel lv raw'))

section
variable {keep : Bool} {E : ReadFault → Prop} {R : Bracket → List Atom → List Atom → Prop}
  {lv : Level}

theorem Lockstep.lexNear (h : Lockstep keep E R) (hlv : lv.tag = 0) {pair raw raw'}
    (hr : R pair raw raw') : LexNear keep E R lv raw raw' :=
  (h.lex hlv hr).mono fun _ _ h => h.1

theorem Near.lexNear (hlv : lv.tag = 0) {toks toks'} (h : Near R lv keep toks toks') :
    LexNear keep E R lv toks toks' := by
  rw [LexNear, h.left.group_eq hlv, h.right.group_eq hlv]
  exact .ok h

theorem agree_mapM_same {S : Atom → Atom → Prop} {f f' : Atom → Except ReadFault Atom}
    {as as' : List Atom} (h : Forall₂ S as as')
    (hf : ∀ a ∈ as, ∀ a' ∈ as', S a a' → Agree E (Same keep) (f a) (f' a')) :
    AgreeAll keep E (as.mapM f) (as'.mapM f') :=
  (Agree.mapM h hf).mono fun _ _ => tidyAll_eq_of_same

/-- Readings that agree still agree once their trees are put into an atom. -/
theorem Agree.holder {x x' : Except ReadFault (List Atom)} {g g' : List Atom → Atom}
    (h : AgreeAll keep E x x')
    (hg : ∀ out out', tidyAll keep out = tidyAll keep out' → (g out).tidy keep = (g' out').tidy keep) :
    Agree E (Same keep) (x >>= fun out => pure (g out)) (x' >>= fun out => pure (g' out)) :=
  h.bind fun out out' hout => .ok (same_of_tidy_eq (hg out out' hout))

/-- Comments are statements that resolve to themselves, so leaving them out of a list of statements
leaves them out of what the list resolves to. -/
theorem mapM_filter_isKept {f : Atom → Except ReadFault Atom} :
    ∀ {stmts : List Atom}, (∀ a ∈ stmts, a.isKept keep = false → f a = .ok a) →
      (stmts.mapM f).map (tidyAll keep) = ((stmts.filter (isKept keep)).mapM f).map (tidyAll keep)
  | [], _ => rfl
  | a :: rest, h => by
    obtain ⟨ha, hrest⟩ := forall_mem_cons.1 h
    have ih := mapM_filter_isKept hrest
    cases hkept : a.isKept keep with
    | true =>
      have hcons : ∀ (b : Atom) (x : Except ReadFault (List Atom)),
          (x >>= fun bs => pure (b :: bs)).map (tidyAll keep) =
            (x.map (tidyAll keep)).map
              fun ys => if b.isKept keep then b.tidy keep :: ys else ys := by
        intro b x
        cases x with
        | error e => rfl
        | ok bs => exact congrArg Except.ok (tidyAll.eq_2 keep b bs)
      rw [filter_cons_of_pos hkept, mapM_cons, mapM_cons]
      cases f a with
      | error e => rfl
      | ok b => exact (hcons b _).trans (ih ▸ (hcons b _).symm)
    | false =>
      rw [filter_cons_of_neg (by simp [hkept]), mapM_cons, ha hkept, ← ih]
      show (rest.mapM f >>= fun bs => pure (a :: bs)).map (tidyAll keep) = _
      cases rest.mapM f with
      | error e => rfl
      | ok bs => exact congrArg Except.ok (tidyAll_cons_dropped hkept bs)

theorem agree_mapM_stmts {f f' : Atom → Except ReadFault Atom} {stmts stmts' : List Atom}
    (hcomment : ∀ a ∈ stmts, a.isKept keep = false → f a = .ok a)
    (hcomment' : ∀ a ∈ stmts', a.isKept keep = false → f' a = .ok a)
    (hstmts : Forall₂ (NearStmt R lv keep) (stmts.filter (isKept keep))
      (stmts'.filter (isKept keep))) (hf : ∀ a ∈ stmts, ∀ a' ∈ stmts', NearStmt R lv keep a a' →
      Agree E (Same keep) (f a) (f' a')) :
    AgreeAll keep E (stmts.mapM f) (stmts'.mapM f') := by
  refine .of_map ?_
  rw [mapM_filter_isKept hcomment, mapM_filter_isKept hcomment']
  refine (Agree.mapM hstmts fun a ha a' ha' h => ?_).map fun _ _ => tidyAll_eq_of_same
  exact hf a (mem_filter.1 ha).1 a' (mem_filter.1 ha').1 h

theorem Lockstep.splitArgs_agree (hR : Lockstep keep E R) (hlv : lv.tag = 0) {pair : Bracket}
    {raw raw' : List Atom} (hr : R pair raw raw') (hpair : pair ≠ .brace)
    {f f' : Atom → Except ReadFault Atom}
    (hf : ∀ a a', a.weight ≤ 3 + weights raw → a'.weight ≤ 3 + weights raw' →
      NearItem R lv keep a a' → Agree E (Same keep) (f a) (f' a')) :
    AgreeAll keep E
      (splitArgs lv raw >>= fun items => items.mapM f)
      (splitArgs lv raw' >>= fun items => items.mapM f') := by
  have hweight : ∀ {raw toks a}, group lv (relevel lv raw) = .ok toks → a ∈ slots lv toks →
      a.weight ≤ 3 + weights raw := by
    intro raw toks a hg ha
    calc a.weight ≤ weights (slots lv toks) := weight_le_weights ha
      _ ≤ 3 + weights toks := weights_slots lv toks
      _ ≤ 3 + weights raw := Nat.add_le_add_left (weights_group hg) 3
  rw [splitArgs, splitArgs, bind_assoc, bind_assoc]
  refine (hR.lex hlv hr).with_eq.bind fun toks toks' htoks => ?_
  obtain ⟨hg, hg', -, hslots⟩ := htoks
  refine agree_mapM_same (hslots hpair) fun a ha a' ha' h => ?_
  exact hf a a' (hweight hg ha) (hweight hg' ha') h

theorem Lockstep.structureRun_agree (hR : Lockstep keep E R) (hlv : lv.tag = 0) {toks toks'}
    (hnear : Near R lv keep toks toks') {f f' : Atom → Except ReadFault Atom}
    (hf : ∀ a a', a.weight ≤ weights toks → a'.weight ≤ weights toks' →
      Ready R lv keep a a' → Agree E (Same keep) (f a) (f' a')) :
    AgreeAll keep E (structureRun lv toks >>= fun parts => parts.mapM f)
      (structureRun lv toks' >>= fun parts => parts.mapM f') := by
  refine (structureRun_twins hR.fault hlv hnear).with_eq.bind
    fun parts parts' ⟨hs, hs', hready⟩ => agree_mapM_same hready fun a ha a' ha' h => hf a a' ?_ ?_ h
  · exact Nat.le_trans (weight_le_weights ha) (weights_structureRun hnear.left.isClause hs)
  · exact Nat.le_trans (weight_le_weights ha') (weights_structureRun hnear.right.isClause hs')

end

theorem resolveStmt_dropped {keep fuel limit nest a}
    (hfuel : 0 < fuel) (h : a.isKept keep = false) : resolveStmt fuel limit nest a = .ok a := by
  cases fuel with
  | zero => cases hfuel
  | succ fuel =>
    cases a with
    | comment => rw [resolveStmt]
    | _ => simp [isKept, isComment] at h

section
variable {keep : Bool} {E : ReadFault → Prop} {R : Bracket → List Atom → List Atom → Prop}

mutual

theorem Lockstep.readRun_agree (hR : Lockstep keep E R) (limit : Int64) :
    ∀ (fuel fuel' nest : Nat) {lv : Level} {raw raw' : List Atom}, lv.tag = 0 →
      weights raw < fuel → weights raw' < fuel' → LexNear keep E R lv raw raw' →
      AgreeAll keep E
        (readRun fuel limit nest lv raw) (readRun fuel' limit nest lv raw')
  | 0, _, _, _, _, _, _, hw, _, _ => (Nat.not_lt_zero _ hw).elim
  | _ + 1, 0, _, _, _, _, _, _, hw', _ => (Nat.not_lt_zero _ hw').elim
  | fuel + 1, fuel' + 1, nest, lv, raw, raw', hlv, hw, hw', h => by
    rw [readRun, readRun]
    split
    · exact .error (hR.fault _ rfl)
    refine Agree.with_eq h |>.bind fun toks toks' ⟨hg, hg', hnear⟩ => ?_
    have htoks := weights_group hg
    have htoks' := weights_group hg'
    exact hR.structureRun_agree hlv hnear fun a a' ha ha' =>
      hR.resolveExpr_agree limit fuel fuel' (nest + 1) hlv (by omega) (by omega)

theorem Lockstep.readStatements_agree (hR : Lockstep keep E R) (limit : Int64) :
    ∀ (fuel fuel' nest : Nat) {lv : Level} {raw raw' : List Atom}, lv.tag = 0 →
      weights raw + 1 < fuel → weights raw' + 1 < fuel' → LexNear keep E R lv raw raw' →
      AgreeAll keep E
        (readStatements fuel limit nest lv raw) (readStatements fuel' limit nest lv raw')
  | 0, _, _, _, _, _, _, hw, _, _ => (Nat.not_lt_zero _ hw).elim
  | _ + 1, 0, _, _, _, _, _, _, hw', _ => (Nat.not_lt_zero _ hw').elim
  | fuel + 1, fuel' + 1, nest, lv, raw, raw', hlv, hw, hw', h => by
    rw [readStatements, readStatements]
    split
    · exact .error (hR.fault _ rfl)
    refine Agree.with_eq h |>.bind fun toks toks' ⟨hg, hg', hnear⟩ => ?_
    have hstmts := weights_splitStatements lv toks
    have hstmts' := weights_splitStatements lv toks'
    have htoks := weights_group hg
    have htoks' := weights_group hg'
    refine agree_mapM_stmts ?_ ?_ (splitStatements_twins hnear) fun a ha a' ha' hn => ?_
    · exact fun a ha => resolveStmt_dropped (by omega)
    · exact fun a ha => resolveStmt_dropped (by omega)
    · have := weight_le_weights ha
      have := weight_le_weights ha'
      exact hR.resolveStmt_agree limit fuel fuel' (nest + 1) hlv (by omega) (by omega) hn

theorem Lockstep.resolveExpr_agree (hR : Lockstep keep E R) (limit : Int64) :
    ∀ (fuel fuel' nest : Nat) {lv : Level} {a a' : Atom}, lv.tag = 0 → a.weight ≤ fuel →
      a'.weight ≤ fuel' → Ready R lv keep a a' →
      Agree E (Same keep) (resolveExpr fuel limit nest a) (resolveExpr fuel' limit nest a')
  | 0, _, _, _, a, _, _, hw, _, _ => absurd hw (Nat.not_le.2 a.weight_pos)
  | _ + 1, 0, _, _, _, a', _, _, hw', _ => absurd hw' (Nat.not_le.2 a'.weight_pos)
  | fuel + 1, fuel' + 1, nest, lv, a, a', hlv, hw, hw', h => by
    have hslots {pair raw raw'} (hr : R pair raw raw') (hpair : pair ≠ .brace)
        (hb : 3 + weights raw ≤ fuel) (hb' : 3 + weights raw' ≤ fuel') :
        AgreeAll keep E
          (splitArgs lv.enter raw >>= fun items => items.mapM (resolveExpr fuel limit nest))
          (splitArgs lv.enter raw' >>= fun items => items.mapM (resolveExpr fuel' limit nest)) :=
      hR.splitArgs_agree rfl hr hpair fun b b' hwb hwb' h =>
        hR.resolveItem_agree limit fuel fuel' nest rfl (Nat.le_trans hwb hb) (Nat.le_trans hwb' hb') h
    cases h with
    | twin h =>
      cases h with
      | unknown | literal | comment | word | operator =>
        rw [resolveExpr, resolveExpr]
        exact .ok ⟨rfl, rfl⟩
      | block hr =>
        rw [weight] at hw hw'
        rw [resolveExpr, resolveExpr]
        refine (hR.readStatements_agree limit fuel fuel' nest rfl (by omega) (by omega)
          (hR.lexNear rfl hr)).holder fun out out' hout => ?_
        rw [tidy, tidy, hout]
      | list hr =>
        rw [weight] at hw hw'
        rw [resolveExpr, resolveExpr]
        simp only [Bool.false_eq_true, if_false]
        rw [← bind_assoc, ← bind_assoc]
        refine (hslots hr (by simp) (by omega) (by omega)).holder fun out out' hout => ?_
        rw [tidy, tidy, hout]
      | paren hr =>
        rw [weight] at hw hw'
        rw [resolveExpr, resolveExpr]
        refine (hR.readRun_agree limit fuel fuel' nest rfl (by omega) (by omega)
          (hR.lexNear rfl hr)).holder fun out out' hout => ?_
        rw [tidy, tidy, hout]
      | @call callee callee' raw raw' hc h hr =>
        have ho := isOperator_of_isCallable hc
        have ho' := isOperator_of_isCallable (h.isCallable_eq.trans hc)
        have hpos := callee.weight_pos
        have hpos' := callee'.weight_pos
        simp only [weight, ho, ho', Bool.false_eq_true, if_false] at hw hw'
        rw [resolveExpr, resolveExpr]
        simp only [Bool.false_eq_true, if_false, ho, ho']
        refine (hR.resolveExpr_agree limit fuel fuel' nest hlv (by omega) (by omega) (.twin h)).bind
          fun c c' hcallee => ?_
        rw [← bind_assoc, ← bind_assoc]
        refine (hslots hr (by simp) (by omega) (by omega)).holder fun out out' hout => ?_
        rw [tidy, tidy, hcallee.tidy_eq, hout]
      | @access callee callee' raw raw' hc h hr =>
        have hpos := callee.weight_pos
        have hpos' := callee'.weight_pos
        rw [weight] at hw hw'
        rw [resolveExpr, resolveExpr]
        simp only [Bool.false_eq_true, if_false]
        refine (hR.resolveExpr_agree limit fuel fuel' nest hlv (by omega) (by omega) (.twin h)).bind
          fun c c' hcallee => ?_
        rw [← bind_assoc, ← bind_assoc]
        refine (hslots hr (by simp) (by omega) (by omega)).holder fun out out' hout => ?_
        rw [tidy, tidy, hcallee.tidy_eq, hout]
      | @chain clauses clauses' h =>
        rw [weight] at hw hw'
        rw [resolveExpr, resolveExpr]
        have hclauses : AgreeAll keep E
            (clauses.mapM (resolveExpr fuel limit nest))
            (clauses'.mapM (resolveExpr fuel' limit nest)) := by
          refine agree_mapM_same h fun b hb b' hb' hc => ?_
          have := weight_le_weights hb
          have := weight_le_weights hb'
          exact hR.resolveClause_agree limit fuel fuel' nest hlv (by omega) (by omega) hc
        refine hclauses.holder fun out out' hout => ?_
        rw [tidy, tidy, hout]
    | @operation o left left' right right' hl hr =>
      simp only [operation, weight, isOperator, if_true, weights_cons, weights_nil] at hw hw'
      rw [operation, operation, resolveExpr, resolveExpr]
      simp only [Bool.false_eq_true, if_false, isOperator, if_true, pure_bind]
      have hop : ∀ n, 0 < n → resolveExpr n limit nest (.operator lv o) = .ok (.operator lv o) := by
        intro n hn
        cases n with
        | zero => cases hn
        | succ n => rw [resolveExpr]
      rw [hop fuel (by omega), hop fuel' (by omega)]
      have hitems : AgreeAll keep E
          ([.item lv left false [], .item lv right false []].mapM (resolveExpr fuel limit nest))
          ([.item lv left' false [], .item lv right' false []].mapM
            (resolveExpr fuel' limit nest)) := by
        refine agree_mapM_same (.cons (.intro hl) (.cons (.intro hr) .nil))
          fun b hb b' hb' hitem => hR.resolveItem_agree limit fuel fuel' nest hlv ?_ ?_ hitem
        · have := weight_le_weights hb
          simp only [weights_cons, weights_nil, weight] at this
          omega
        · have := weight_le_weights hb'
          simp only [weights_cons, weights_nil, weight] at this
          omega
      refine hitems.holder fun out out' hout => ?_
      rw [tidy, tidy, hout]

theorem Lockstep.resolveItem_agree (hR : Lockstep keep E R) (limit : Int64) :
    ∀ (fuel fuel' nest : Nat) {lv a a'}, lv.tag = 0 → a.weight ≤ fuel →
      a'.weight ≤ fuel' → NearItem R lv keep a a' →
      Agree E (Same keep) (resolveExpr fuel limit nest a) (resolveExpr fuel' limit nest a')
  | 0, _, _, _, a, _, _, hw, _, _ => absurd hw (Nat.not_le.2 a.weight_pos)
  | _ + 1, 0, _, _, _, a', _, _, hw', _ => absurd hw' (Nat.not_le.2 a'.weight_pos)
  | fuel + 1, fuel' + 1, nest, lv, a, a', hlv, hw, hw', h => by
    obtain ⟨h⟩ := h
    rw [weight] at hw hw'
    rw [resolveExpr, resolveExpr]
    simp only [Bool.false_eq_true, if_false, Level.bare_of_untagged hlv]
    refine (hR.readRun_agree limit fuel fuel' nest hlv (by omega) (by omega)
      (h.lexNear hlv)).holder fun out out' hout => ?_
    rw [tidy, tidy, hout]

theorem Lockstep.resolveClause_agree (hR : Lockstep keep E R) (limit : Int64) :
    ∀ (fuel fuel' nest : Nat) {lv a a'}, lv.tag = 0 → a.weight ≤ fuel →
      a'.weight ≤ fuel' → TwinClause R lv a a' →
      Agree E (Same keep) (resolveExpr fuel limit nest a) (resolveExpr fuel' limit nest a')
  | 0, _, _, _, a, _, _, hw, _, _ => absurd hw (Nat.not_le.2 a.weight_pos)
  | _ + 1, 0, _, _, _, a', _, _, hw', _ => absurd hw' (Nat.not_le.2 a'.weight_pos)
  | fuel + 1, fuel' + 1, nest, lv, a, a', hlv, hw, hw', h => by
    cases h with
    | @conditional name craw craw' braw braw' hc hb =>
      simp only [weight, weightOption] at hw hw'
      have hparen : Agree E (fun c c' => tidyOption keep c = tidyOption keep c')
          ((some (Atom.paren lv craw false [])).mapM (resolveExpr fuel limit nest))
          ((some (Atom.paren lv craw' false [])).mapM (resolveExpr fuel' limit nest)) := by
        refine (hR.resolveExpr_agree limit fuel fuel' nest hlv ?_ ?_ (.twin (.paren hc))).bind
          fun c c' h => .ok ?_
        · rw [weight]
          omega
        · rw [weight]
          omega
        · rw [tidyOption, tidyOption, h.tidy_eq]
      rw [resolveExpr, resolveExpr]
      refine hparen.bind fun c c' hcond => ?_
      refine (hR.readStatements_agree limit fuel fuel' nest (tag_bodyLevel ..) (by omega) (by omega)
        (hR.lexNear (tag_bodyLevel ..) hb)).holder fun out out' hout => ?_
      simp only [tidy, hcond, hout]
    | unconditional hb =>
      simp only [weight, weightOption] at hw hw'
      rw [resolveExpr, resolveExpr]
      refine (hR.readStatements_agree limit fuel fuel' nest (tag_bodyLevel ..) (by omega) (by omega)
        (hR.lexNear (tag_bodyLevel ..) hb)).holder fun out out' hout => ?_
      simp only [tidy, hout]

theorem Lockstep.resolveStmt_agree (hR : Lockstep keep E R) (limit : Int64) :
    ∀ (fuel fuel' nest : Nat) {lv : Level} {a a' : Atom}, lv.tag = 0 → a.weight ≤ fuel →
      a'.weight ≤ fuel' → NearStmt R lv keep a a' →
      Agree E (Same keep) (resolveStmt fuel limit nest a) (resolveStmt fuel' limit nest a')
  | 0, _, _, _, a, _, _, hw, _, _ => absurd hw (Nat.not_le.2 a.weight_pos)
  | _ + 1, 0, _, _, _, a', _, _, hw', _ => absurd hw' (Nat.not_le.2 a'.weight_pos)
  | fuel + 1, fuel' + 1, nest, lv, a, a', hlv, hw, hw', h => by
    cases h with
    | comment =>
      rw [resolveStmt, resolveStmt]
      exact .ok ⟨rfl, rfl⟩
    | exprs hn | control hn =>
      rw [weight] at hw hw'
      rw [resolveStmt, resolveStmt]
      simp only [Bool.false_eq_true, if_false, Level.bare_of_untagged hlv]
      rw [← bind_assoc, ← bind_assoc]
      refine (hR.structureRun_agree hlv hn fun a a' ha ha' =>
        hR.resolveExpr_agree limit fuel fuel' nest hlv (by omega) (by omega)).holder
          fun out out' hout => ?_
      rw [tidy, tidy, hout]

end

/-! ## Whole texts -/

variable {text text' : Text} {raw raw' : List Atom}

/-- Reading as expressions two texts that are related once their literals are found ends alike. -/
theorem Lockstep.parseExpr_agree (hR : Lockstep keep E R) (limit : Int64) (pair : Bracket)
    (hraw : extractLiterals .top (explode .top text) = .ok raw)
    (hraw' : extractLiterals .top (explode .top text') = .ok raw') (h : R pair raw raw') :
    Agree E (fun out out' => tidyAll keep out = tidyAll keep out') (parseExpr limit text)
      (parseExpr limit text') := by
  have hw := weights_extractLiterals hraw
  have hw' := weights_extractLiterals hraw'
  simp only [parseExpr, readRun_congr (group_explode hraw), readRun_congr (group_explode hraw')]
  exact hR.readRun_agree limit _ _ 0 rfl (by omega) (by omega) (hR.lexNear rfl h)

/-- Reading as statements two texts that are related once their literals are found ends alike. -/
theorem Lockstep.parseStmts_agree (hR : Lockstep keep E R) (limit : Int64) (pair : Bracket)
    (hraw : extractLiterals .top (explode .top text) = .ok raw)
    (hraw' : extractLiterals .top (explode .top text') = .ok raw') (h : R pair raw raw') :
    Agree E (fun out out' => tidyAll keep out = tidyAll keep out') (parseStmts limit text)
      (parseStmts limit text') := by
  have hw := weights_extractLiterals hraw
  have hw' := weights_extractLiterals hraw'
  simp only [parseStmts, readStatements_congr (group_explode hraw),
    readStatements_congr (group_explode hraw')]
  exact hR.readStatements_agree limit _ _ 0 rfl (by omega) (by omega) (hR.lexNear rfl h)

end

end WatScript
