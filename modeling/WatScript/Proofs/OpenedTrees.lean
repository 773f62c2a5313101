import WatScript.Proofs.Openings
import WatScript.Proofs.Trees
import WatScript.Proofs.Weights

/-!
# What was opened for a tree

A tree shows which runs were opened to read it: one for each bracket and for each operand, argument and
block (`Atom.openings`). `Accounts` says of a reading that it opened just those if it gives a tree, that it
asked for a run that the limit refuses if it fails because of the limit, and that every run it opened stands
in another one or directly where the reading starts.

`readRun_accounts` and its companions show this of readings with a large enough budget. So a reading without
a limit never fails because of one.
-/

namespace WatScript

open List Atom

variable {fuel nest : Nat} {log : List Opening} {lv : Level} {raw : List Atom}

/-! ## Trees -/

mutual

/-- The runs that were opened for a resolved tree, inside `nest` others. -/
def Atom.openings (nest : Nat) : Atom → List Opening
  | .unknown .. | .literal .. | .comment .. | .word .. | .operator .. => []
  | .block lv _ _ contents | .paren lv _ _ contents =>
    ⟨nest, lv.depth + 1⟩ :: openingsOf (nest + 1) contents
  | .item lv _ _ contents => ⟨nest, lv.depth⟩ :: openingsOf (nest + 1) contents
  | .list _ _ _ items => openingsOf nest items
  | .call _ callee _ _ _ args => callee.openings nest ++ openingsOf nest args
  | .access _ callee _ _ index => callee.openings nest ++ openingsOf nest index
  | .clause _ _ cond body => openingsOption nest cond ++ body.openings nest
  | .chain _ clauses => openingsOf nest clauses
  | .exprStmt _ _ _ exprs | .controlStmt _ _ _ _ exprs => openingsOf nest exprs

def openingsOption (nest : Nat) : Option Atom → List Opening
  | none => []
  | some a => a.openings nest

/-- The runs that were opened for trees, one after the other. -/
def openingsOf (nest : Nat) : List Atom → List Opening
  | [] => []
  | a :: rest => a.openings nest ++ openingsOf nest rest

end

theorem openings_subset {a as} (h : a ∈ as) : a.openings nest ⊆ openingsOf nest as := by
  induction as with
  | nil => cases h
  | cons b rest ih =>
    rw [openingsOf]
    rcases mem_cons.1 h with rfl | h
    · exact subset_append_left ..
    · exact List.Subset.trans (ih h) (subset_append_right ..)

/-! ## Accounts -/

/-- The run `o` is opened right inside of `p`. -/
def Opening.IsIn (p o : Opening) : Prop :=
  o.around = p.around + 1 ∧ (o.depth = p.depth ∨ o.depth = p.depth + 1)

/-- Every run is one of `S`, or is opened inside of another. -/
def Rooted (S : Opening → Prop) (log : List Opening) : Prop :=
  ∀ o ∈ log, S o ∨ ∃ p ∈ log, p.IsIn o

theorem Rooted.append {S log'} (h : Rooted S log)
    (h' : Rooted S log') : Rooted S (log ++ log') := by
  intro o ho
  rcases mem_append.1 ho with ho | ho
  · exact (h o ho).imp_right fun ⟨p, hp, hin⟩ => ⟨p, mem_append_left _ hp, hin⟩
  · exact (h' o ho).imp_right fun ⟨p, hp, hin⟩ => ⟨p, mem_append_right _ hp, hin⟩

theorem Rooted.mono {S S'} (h : Rooted S log) (hS : ∀ o, S o → S' o) : Rooted S' log :=
  fun o ho => (h o ho).imp_left (hS o)

theorem Rooted.cons {p} (h : Rooted p.IsIn log) : Rooted (· = p) (p :: log) := by
  intro o ho
  rcases mem_cons.1 ho with rfl | ho
  · exact .inl rfl
  · rcases h o ho with hin | ⟨q, hq, hin⟩
    · exact .inr ⟨p, mem_cons_self, hin⟩
    · exact .inr ⟨q, mem_cons_of_mem _ hq, hin⟩

/-- A reading with what it opened: `P` holds of a result, and a failure because of the limit is that of a
run that is refused. -/
structure Accounts {α : Type} (limit : Int64) (S : Opening → Prop) (P : List Opening → α → Prop)
    (log : List Opening) (x : Except ReadFault α) : Prop where
  ends : Ends (P log) (fun f => f = .nestingTooDeep → log.all (·.isGranted limit) = false) x
  rooted : Rooted S log

section
variable {α β : Type} {limit : Int64} {S S' : Opening → Prop} {P : List Opening → α → Prop}
  {Q : List Opening → β → Prop} {log : List Opening} {x : Except ReadFault α}
  {f : α → Except ReadFault β} {k : α → List Opening}

theorem Accounts.pure {a} (h : P [] a) : Accounts limit S P [] (.ok a) :=
  ⟨h, forall_mem_nil _⟩

theorem Accounts.bind (h : Accounts limit S P log x)
    (hf : ∀ a, P log a → Accounts limit S (fun log' b => Q (log ++ log') b) (k a) (f a)) :
    Accounts limit S Q (log ++ onOk x k) (x >>= f) := by
  obtain ⟨hends, hrooted⟩ := h
  cases x with
  | error e =>
    refine ⟨fun he => ?_, hrooted.append (forall_mem_nil _)⟩
    rw [all_append, hends he, Bool.false_and]
  | ok a =>
    obtain ⟨hends', hrooted'⟩ := hf a hends
    refine ⟨?_, hrooted.append hrooted'⟩
    show Ends (Q (log ++ k a)) _ (f a)
    cases hb : f a with
    | error e =>
      rw [hb] at hends'
      intro he
      rw [all_append, onOk, hends' he, Bool.and_false]
    | ok b =>
      rw [hb] at hends'
      exact hends'

theorem Accounts.pass {R} (h : Ends R (·.isFromRun = true) x)
    (hf : ∀ a, x = .ok a → R a → Accounts limit S Q (k a) (f a)) :
    Accounts limit S Q (onOk x k) (x >>= f) := by
  cases x with
  | error e =>
    refine ⟨?_, forall_mem_nil _⟩
    rintro rfl
    cases h
  | ok a => exact hf a rfl h

theorem Accounts.map {g : α → β} (h : Accounts limit S P log x) (hg : ∀ a, P log a → Q log (g a)) :
    Accounts limit S Q log (x >>= fun a => Pure.pure (g a)) := by
  refine ⟨?_, h.rooted⟩
  have hends := h.ends
  cases x with
  | error e => exact hends
  | ok a => exact hg a hends

theorem Accounts.mono (h : Accounts limit S P log x) (hS : ∀ o, S o → S' o) :
    Accounts limit S' P log x := ⟨h.ends, h.rooted.mono hS⟩

theorem Accounts.each {resolve : Atom → Except ReadFault Atom}
    {opens : Atom → List Opening} : ∀ {as : List Atom},
    (∀ a ∈ as, Accounts limit S (fun log b => log = b.openings nest) (opens a) (resolve a)) →
    Accounts limit S (fun log bs => log = openingsOf nest bs) (opensEach resolve opens as)
      (as.mapM resolve)
  | [], _ => .pure rfl
  | a :: rest, h => by
    obtain ⟨ha, hrest⟩ := forall_mem_cons.1 h
    rw [opensEach, mapM_cons]
    refine ha.bind fun b hb => (Accounts.each hrest).map fun bs hbs => ?_
    rw [openingsOf, hb, hbs]

theorem Accounts.option {resolve : Atom → Except ReadFault Atom}
    {opens : Atom → List Opening} {cond : Option Atom}
    (h : ∀ a ∈ cond, Accounts limit S (fun log b => log = b.openings nest) (opens a) (resolve a)) :
    Accounts limit S (fun log conds => log = openingsOption nest conds.head?)
      (opensEach resolve opens cond.toList) (cond.toList.mapM resolve) := by
  cases cond with
  | none => exact .pure rfl
  | some a =>
    rw [Option.toList_some, opensEach, mapM_cons]
    refine (h a rfl).bind fun b hb => .pure ?_
    rw [append_nil]
    exact hb

end

/-! ## Readings -/

section
variable {limit : Int64}

/-- Reading a run opens it, and what is in it. -/
abbrev AccountsRun (limit : Int64) (nest : Nat) (lv : Level) (log : List Opening)
    (x : Except ReadFault (List Atom)) : Prop :=
  Accounts limit (· = ⟨nest, lv.depth⟩)
    (fun log out => log = ⟨nest, lv.depth⟩ :: openingsOf (nest + 1) out) log x

/-- Resolving an atom opens the runs in it. -/
abbrev AccountsAt (limit : Int64) (nest : Nat) (lv : Level) (log : List Opening)
    (x : Except ReadFault Atom) : Prop :=
  Accounts limit (Opening.IsIn ⟨nest, lv.depth⟩) (fun log b => log = b.openings (nest + 1)) log x

theorem opensRun_congr {raw'} (h : group lv (relevel lv raw) = group lv (relevel lv raw')) :
    opensRun fuel limit nest lv raw = opensRun fuel limit nest lv raw' := by
  cases fuel <;> simp only [opensRun, h]

theorem opensStatements_congr {raw'} (h : group lv (relevel lv raw) = group lv (relevel lv raw')) :
    opensStatements fuel limit nest lv raw = opensStatements fuel limit nest lv raw' := by
  cases fuel <;> simp only [opensStatements, h]

theorem Accounts.run {x}
    (h : Accounts limit (Opening.IsIn ⟨nest, lv.depth⟩) (fun log out => log = openingsOf (nest + 1) out)
      log x) : AccountsRun limit nest lv (⟨nest, lv.depth⟩ :: log) x := by
  refine ⟨?_, h.rooted.cons⟩
  have hends := h.ends
  cases x with
  | ok out => exact congrArg _ hends
  | error f =>
    intro hf
    rw [all_cons, hends hf, Bool.and_false]

theorem accountsRun_opening {x} (h : Accounts limit (Opening.IsIn ⟨nest, lv.depth⟩)
      (fun log out => log = openingsOf (nest + 1) out) log x) :
    AccountsRun limit nest lv (⟨nest, lv.depth⟩ :: if mayOpen limit nest lv then log else [])
      (if !mayOpen limit nest lv then throw .nestingTooDeep else x) := by
  cases hopen : mayOpen limit nest lv with
  | true => exact h.run
  | false =>
    have hrefused : (Opening.mk nest lv.depth).isGranted limit = false := hopen
    refine ⟨fun _ => ?_, Rooted.cons (forall_mem_nil _)⟩
    rw [all_cons, hrefused, Bool.false_and]

theorem Accounts.holder {lv' : Level}
    {x : Except ReadFault (List Atom)} {g : List Atom → Atom} (h : AccountsRun limit (nest + 1) lv' log x)
    (hdepth : lv'.depth = lv.depth ∨ lv'.depth = lv.depth + 1)
    (hg : ∀ out, (g out).openings (nest + 1) = ⟨nest + 1, lv'.depth⟩ :: openingsOf (nest + 2) out) :
    AccountsAt limit nest lv log (x >>= fun out => Pure.pure (g out)) := by
  refine (h.mono ?_).map fun out hout => hout.trans (hg out).symm
  rintro _ rfl
  exact ⟨rfl, hdepth⟩

theorem depth_bodyLevel (lv : Level) (name : String) : (bodyLevel lv name).depth = lv.depth + 1 := by
  unfold bodyLevel
  split <;> rfl

theorem splitArgs_ends (hlv : lv.tag = 0) (hraw : RawRun raw) :
    Ends (fun items => weights items ≤ 3 + weights raw ∧
      ∀ a ∈ items, ∃ r, Tokens lv r ∧ a = .item lv r false []) (·.isFromRun = true)
      (splitArgs lv raw) := by
  refine (group_ends hlv (.raw hraw)).with_eq.bind fun toks hread => ?_
  obtain ⟨hgroup, htoks⟩ := hread
  have hw := weights_group hgroup
  have hslots := weights_slots lv toks
  refine ⟨by omega, fun a ha => ?_⟩
  obtain ⟨r, hr, rfl⟩ := slots_items htoks a ha
  exact ⟨r, hr, rfl⟩

mutual

theorem readRun_accounts (limit : Int64) : ∀ (fuel nest : Nat) {lv raw},
    weights raw < fuel → lv.tag = 0 → Readable lv raw →
      AccountsRun limit nest lv (opensRun fuel limit nest lv raw) (readRun fuel limit nest lv raw)
  | 0, _, _, _, hw, _, _ => (Nat.not_lt_zero _ hw).elim
  | fuel + 1, nest, lv, raw, hw, hlv, hraw => by
    rw [opensRun, readRun]
    refine accountsRun_opening (.pass (group_ends hlv hraw) fun toks hgroup htoks => ?_)
    refine .pass (structureRun_pending hlv htoks) fun parts hstruct hparts => .each fun a ha => ?_
    have htoksw := weights_group hgroup
    have hpartsw := weights_structureRun htoks.isClause hstruct
    have haw := weight_le_weights ha
    exact resolveExpr_accounts limit fuel nest (by omega) hlv (hparts a ha)

theorem readStatements_accounts (limit : Int64) : ∀ (fuel nest : Nat) {lv raw},
    weights raw + 1 < fuel → lv.tag = 0 → Readable lv raw →
      AccountsRun limit nest lv (opensStatements fuel limit nest lv raw)
        (readStatements fuel limit nest lv raw)
  | 0, _, _, _, hw, _, _ => (Nat.not_lt_zero _ hw).elim
  | fuel + 1, nest, lv, raw, hw, hlv, hraw => by
    rw [opensStatements, readStatements]
    refine accountsRun_opening (.pass (group_ends hlv hraw) fun toks hgroup htoks => .each fun a ha => ?_)
    have htoksw := weights_group hgroup
    have hstmtsw := weights_splitStatements lv toks
    have haw := weight_le_weights ha
    exact resolveStmt_accounts limit fuel nest (by omega) hlv (splitStatements_statements htoks a ha)

theorem resolveExpr_accounts (limit : Int64) : ∀ (fuel nest : Nat) {lv : Level} {a : Atom},
    a.weight ≤ fuel → lv.tag = 0 → Pending lv a →
      AccountsAt limit nest lv (opensExpr fuel limit (nest + 1) a) (resolveExpr fuel limit (nest + 1) a)
  | 0, _, _, a, hw, _, _ => absurd hw (Nat.not_le.2 a.weight_pos)
  | fuel + 1, nest, lv, a, hw, hlv, h => by
    -- a run of arguments stands one level deeper
    have hargs {raw : List Atom} (before : List Opening) (g : List Atom → Atom) (hraw : RawRun raw)
        (hb : 3 + weights raw ≤ fuel)
        (hg : ∀ args, (g args).openings (nest + 1) = before ++ openingsOf (nest + 1) args) :
        Accounts limit (Opening.IsIn ⟨nest, lv.depth⟩)
          (fun log b => before ++ log = b.openings (nest + 1))
          (onOk (splitArgs lv.enter raw) fun items =>
            opensEach (resolveExpr fuel limit (nest + 1)) (opensExpr fuel limit (nest + 1)) items)
          (splitArgs lv.enter raw >>= fun items =>
            items.mapM (resolveExpr fuel limit (nest + 1)) >>= fun args => Pure.pure (g args)) := by
      refine .pass (splitArgs_ends rfl hraw) fun items _ ⟨hw, hitems⟩ => ?_
      refine Accounts.map (.each fun a ha => ?_) fun args hargs => (by rw [hg, hargs])
      obtain ⟨r, hr, rfl⟩ := hitems a ha
      have := weight_le_weights ha
      exact resolveItem_accounts limit fuel nest (.inr rfl) (by omega) rfl hr
    cases h with
    | part ht hv ho =>
      cases ht with
      | separator | comment => cases hv
      | operator => cases ho
      | literal | word =>
        rw [opensExpr, resolveExpr]
        exact .pure rfl
      | @bracket pair raw hraw =>
        cases pair with
        | brace =>
          rw [Bracket.atom, weight] at hw
          rw [Bracket.atom, opensExpr, resolveExpr]
          exact (readStatements_accounts limit fuel (nest + 1) (by omega) rfl (.raw hraw)).holder
            (.inr rfl) fun out => rfl
        | square =>
          rw [Bracket.atom, weight] at hw
          rw [Bracket.atom, opensExpr, resolveExpr]
          exact hargs [] (.list lv [] true) hraw (by omega) fun args => rfl
        | round =>
          rw [Bracket.atom, weight] at hw
          rw [Bracket.atom, opensExpr, resolveExpr]
          exact (readRun_accounts limit fuel (nest + 1) (by omega) rfl (.raw hraw)).holder (.inr rfl)
            fun out => rfl
      | @call callee raw hcall hc hraw =>
        have ho := isOperator_of_isCallable hcall
        have hpos := callee.weight_pos
        simp only [weight, ho, Bool.false_eq_true, if_false] at hw
        rw [opensExpr, resolveExpr]
        simp only [Bool.false_eq_true, if_false, ho]
        refine (resolveExpr_accounts limit fuel nest (by omega) hlv (hc.pending_callee hcall)).bind
          fun callee' hcallee => ?_
        exact hargs _ (.call lv callee' [] true true) hraw (by omega) fun args => by rw [hcallee]; rfl
      | @access callee raw hcall hc hraw =>
        have hpos := callee.weight_pos
        rw [weight] at hw
        rw [opensExpr, resolveExpr]
        simp only [Bool.false_eq_true, if_false]
        refine (resolveExpr_accounts limit fuel nest (by omega) hlv (hc.pending_callee hcall)).bind
          fun callee' hcallee => ?_
        exact hargs _ (.access lv callee' [] true) hraw (by omega) fun args => by rw [hcallee]; rfl
      | @chain clauses hc hchain =>
        rw [weight] at hw
        rw [opensExpr, resolveExpr]
        refine Accounts.map (.each fun a ha => ?_) fun out hout => hout
        have := weight_le_weights ha
        exact resolveClause_accounts limit fuel nest (by omega) hlv (hc a ha)
    | @operation o left right ho hl hr =>
      simp only [operation, weight, isOperator, if_true, weights_cons, weights_nil] at hw
      rw [operation, opensExpr, resolveExpr]
      simp only [Bool.false_eq_true, if_false, isOperator, if_true]
      have hop : AccountsAt limit nest lv (opensExpr fuel limit (nest + 1) (.operator lv o))
          (resolveExpr fuel limit (nest + 1) (.operator lv o)) := by
        obtain ⟨n, rfl⟩ : ∃ n, fuel = n + 1 := ⟨fuel - 1, by omega⟩
        rw [opensExpr, resolveExpr]
        exact .pure rfl
      have hitems (a : Atom) (ha : a ∈ [Atom.item lv left false [], .item lv right false []]) :
          AccountsAt limit nest lv (opensExpr fuel limit (nest + 1) a)
            (resolveExpr fuel limit (nest + 1) a) := by
        rcases mem_pair.1 ha with rfl | rfl
        · exact resolveItem_accounts limit fuel nest (.inl rfl) (by rw [weight]; omega) hlv hl
        · exact resolveItem_accounts limit fuel nest (.inl rfl) (by rw [weight]; omega) hlv hr
      refine hop.bind fun callee' hcallee => (Accounts.each hitems).map fun args hargs => ?_
      rw [openings, hcallee, hargs]

theorem resolveItem_accounts (limit : Int64) : ∀ (fuel nest : Nat) {lv lv' : Level} {raw : List Atom},
    lv'.depth = lv.depth ∨ lv'.depth = lv.depth + 1 → (Atom.item lv' raw false []).weight ≤ fuel →
      lv'.tag = 0 → Tokens lv' raw →
      AccountsAt limit nest lv (opensExpr fuel limit (nest + 1) (.item lv' raw false []))
        (resolveExpr fuel limit (nest + 1) (.item lv' raw false []))
  | 0, _, _, _, _, _, hw, _, _ => absurd hw (Nat.not_le.2 (weight_pos _))
  | fuel + 1, nest, lv, lv', raw, hdepth, hw, hlv, ht => by
    rw [weight] at hw
    rw [opensExpr, resolveExpr]
    simp only [Bool.false_eq_true, if_false, Level.bare_of_untagged hlv]
    exact (readRun_accounts limit fuel (nest + 1) (by omega) hlv (.tokens ht)).holder hdepth fun out => rfl

theorem resolveClause_accounts (limit : Int64) : ∀ (fuel nest : Nat) {lv : Level} {a : Atom},
    a.weight ≤ fuel → lv.tag = 0 → IsClause lv a →
      AccountsAt limit nest lv (opensExpr fuel limit (nest + 1) a) (resolveExpr fuel limit (nest + 1) a)
  | 0, _, _, a, hw, _, _ => absurd hw (Nat.not_le.2 a.weight_pos)
  | fuel + 1, nest, lv, a, hw, hlv, h => by
    have hbody {name : String} {raw : List Atom} {before : List Opening} (hraw : RawRun raw)
        (hb : weights raw + 1 < fuel) {cond : Option Atom} (hc : before = openingsOption (nest + 1) cond) :
        Accounts limit (Opening.IsIn ⟨nest, lv.depth⟩)
          (fun log (b : Atom) => before ++ log = b.openings (nest + 1))
          (opensBody (opensStatements fuel limit (nest + 1) (bodyLevel lv name)) (.block lv raw false []))
          (readBody limit (nest + 1) (bodyLevel lv name) fuel (.block lv raw false []) >>= fun body =>
            Pure.pure (Atom.clause lv name cond body)) := by
      have hread : AccountsAt limit nest lv
          (opensStatements fuel limit (nest + 1) (bodyLevel lv name) raw)
          (readBody limit (nest + 1) (bodyLevel lv name) fuel (.block lv raw false [])) :=
        (readStatements_accounts limit fuel (nest + 1) hb (tag_bodyLevel ..) (.raw hraw)).holder
          (.inr (depth_bodyLevel ..)) fun out => by rw [openings, depth_bodyLevel]
      exact hread.map fun body hbody => by rw [openings, hc, hbody]
    cases h with
    | @conditional name craw braw hn hcond hcraw hbraw =>
      simp only [weight, weightOption] at hw
      rw [opensExpr, resolveExpr_clause]
      refine (Accounts.option fun a ha => ?_).bind fun conds hconds => hbody hbraw (by omega) hconds
      obtain rfl := Option.mem_some.1 ha
      exact resolveExpr_accounts limit fuel nest (by rw [weight]; omega) hlv
        (.part (@IsToken.bracket lv .round craw hcraw) rfl rfl)
    | @unconditional name braw hn hcond hbraw =>
      simp only [weight, weightOption] at hw
      rw [opensExpr, resolveExpr_clause]
      refine (Accounts.option fun a ha => ?_).bind fun conds hconds => hbody hbraw (by omega) hconds
      cases ha

theorem resolveStmt_accounts (limit : Int64) : ∀ (fuel nest : Nat) {lv : Level} {a : Atom},
    a.weight ≤ fuel → lv.tag = 0 → IsUnreadStmt lv a →
      AccountsAt limit nest lv (opensStmt fuel limit (nest + 1) a) (resolveStmt fuel limit (nest + 1) a)
  | 0, _, _, a, hw, _, _ => absurd hw (Nat.not_le.2 a.weight_pos)
  | fuel + 1, nest, lv, a, hw, hlv, h => by
    have heach {raw : List Atom} {g : List Atom → Atom} (ht : Tokens lv raw) (hb : weights raw ≤ fuel)
        (hg : ∀ exprs, (g exprs).openings (nest + 1) = openingsOf (nest + 1) exprs) :
        AccountsAt limit nest lv
          (onOk (structureRun lv.bare raw) fun parts =>
            opensEach (resolveExpr fuel limit (nest + 1)) (opensExpr fuel limit (nest + 1)) parts)
          (structureRun lv.bare raw >>= fun parts =>
            parts.mapM (resolveExpr fuel limit (nest + 1)) >>= fun exprs => Pure.pure (g exprs)) := by
      rw [Level.bare_of_untagged hlv]
      refine .pass (structureRun_pending hlv ht) fun parts hstruct hparts => ?_
      have hpartsw := weights_structureRun ht.isClause hstruct
      refine Accounts.map (.each fun a ha => ?_) fun exprs hexprs => hexprs.trans (hg exprs).symm
      have := weight_le_weights ha
      exact resolveExpr_accounts limit fuel nest (by omega) hlv (hparts a ha)
    cases h with
    | comment =>
      rw [opensStmt, resolveStmt]
      · exact .pure rfl
      · simp
      · simp
    | exprs ht =>
      rw [weight] at hw
      rw [opensStmt, resolveStmt]
      exact heach ht (by omega) fun exprs => rfl
    | control hhead ht =>
      rw [weight] at hw
      rw [opensStmt, resolveStmt]
      exact heach ht (by omega) fun exprs => rfl

end

end

/-! ## Whole texts -/

/-- What reading a text as expressions opens. -/
def exprOpenings (limit : Int64) (text : Text) : List Opening :=
  let raw := explode .top text
  opensRun (weights raw + 4) limit 0 .top raw

/-- What reading a text as statements opens. -/
def stmtOpenings (limit : Int64) (text : Text) : List Opening :=
  let raw := explode .top text
  opensStatements (weights raw + 4) limit 0 .top raw

theorem group_explode_ends {text f} (h : extractLiterals .top (explode .top text) = .error f) :
    Ends (fun _ => False) (·.isFromRun = true) (group .top (relevel .top (explode .top text))) := by
  obtain ⟨hg, hf⟩ := group_explode_error h
  rw [hg]
  exact hf

/-- The runs that are opened for a text are those of its tree. -/
theorem parseExpr_accounts (limit : Int64) (text : Text) :
    AccountsRun limit 0 .top (exprOpenings limit text) (parseExpr limit text) := by
  unfold parseExpr exprOpenings
  dsimp only
  cases h : extractLiterals .top (explode .top text) with
  | ok raw =>
    have hw := weights_extractLiterals h
    rw [readRun_congr (group_explode h), opensRun_congr (group_explode h)]
    exact readRun_accounts limit _ 0 (by omega) rfl (.raw (rawRun_extractLiterals h))
  | error f =>
    rw [opensRun, readRun]
    exact accountsRun_opening (.pass (group_explode_ends h) fun _ _ hfalse => hfalse.elim)

theorem parseStmts_accounts (limit : Int64) (text : Text) :
    AccountsRun limit 0 .top (stmtOpenings limit text) (parseStmts limit text) := by
  unfold parseStmts stmtOpenings
  dsimp only
  cases h : extractLiterals .top (explode .top text) with
  | ok raw =>
    have hw := weights_extractLiterals h
    rw [readStatements_congr (group_explode h), opensStatements_congr (group_explode h)]
    exact readStatements_accounts limit _ 0 (by omega) rfl (.raw (rawRun_extractLiterals h))
  | error f =>
    rw [opensStatements, readStatements]
    exact accountsRun_opening (.pass (group_explode_ends h) fun _ _ hfalse => hfalse.elim)

end WatScript
