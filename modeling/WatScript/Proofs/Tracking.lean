import WatScript.Proofs.Agreement
import WatScript.Proofs.RebuiltLexing
import WatScript.Proofs.RebuiltRows

/-!
# A later attempt

One attempt to resolve an atom has left an outcome; a later attempt finds the atom rebuilt from it.
`Tracked resolve a o f` says what the later attempt, `resolve`, makes of that: the same as it makes of the
atom before the first attempt, and where the first attempt succeeded, the atom it left. `TrackedAll`,
`TrackedTokens` and `TrackedRun` say the same of lists of atoms, of lexed runs and of unread runs. The
lemmas here lead from the atoms that a run consists of to the run, and from its run to an atom.

The attempts may have different budgets. What a budget that is large enough gives does not depend on the
budget (`resolveExpr_budget` and its companions).
-/

namespace WatScript

open List Atom

/-! ## Budgets -/

/-- One unread run. -/
def SameRun (_ : Bracket) (raw raw' : List Atom) : Prop := raw' = raw ∧ RawRun raw

section
variable {lv : Level} {a : Atom} {run : List Atom}

theorem IsClause.twin_self (h : IsClause lv a) : TwinClause SameRun lv a a := by
  cases h with
  | conditional _ _ hc hb => exact .conditional ⟨rfl, hc⟩ ⟨rfl, hb⟩
  | unconditional _ _ hb => exact .unconditional ⟨rfl, hb⟩

theorem IsToken.twin_self (h : IsToken lv a) : Twin SameRun lv a a := by
  induction h with
  | separator => exact .unknown
  | literal => exact .literal
  | comment => exact .comment
  | word => exact .word
  | operator => exact .operator
  | @bracket pair raw hraw =>
    cases pair with
    | brace => exact .block ⟨rfl, hraw⟩
    | square => exact .list ⟨rfl, hraw⟩
    | round => exact .paren ⟨rfl, hraw⟩
  | call hc _ hraw ih => exact .call hc ih ⟨rfl, hraw⟩
  | access hc _ hraw ih => exact .access hc ih ⟨rfl, hraw⟩
  | chain hc => exact .chain (forall₂_same.2 fun a ha => (hc a ha).twin_self)

theorem Tokens.near_self (h : Tokens lv run) : Near SameRun lv true run run :=
  .of_twins h h (forall₂_same.2 fun a ha => (h a ha).twin_self)

theorem Pending.ready_self (h : Pending lv a) : Ready SameRun lv true a a := by
  cases h with
  | part ht => exact .twin ht.twin_self
  | operation _ hl hr => exact .operation hl.near_self hr.near_self

theorem IsUnreadStmt.near_self (h : IsUnreadStmt lv a) : NearStmt SameRun lv true a a := by
  cases h with
  | comment => exact .comment
  | exprs ht => exact .exprs ht.near_self
  | control _ ht => exact .control ht.near_self

end

theorem lockstep_self : Lockstep true (fun _ => True) SameRun where
  fault _ _ := trivial
  lex {pair raw raw' lv} hlv h := by
    obtain ⟨rfl, hraw⟩ := h
    cases hg : group lv (relevel lv raw') with
    | error f => exact .error trivial
    | ok toks =>
      have hnear := (tokens_of_group hlv (.raw hraw) hg).near_self
      exact .ok ⟨hnear, fun _ => slots_twins hnear⟩

theorem Agree.eq_of_same {E : ReadFault → Prop} {x y : Except ReadFault Atom}
    (h : Agree E (Same true) x y) : y = x := by
  refine (h.mono fun a a' hs => ?_).eq.symm
  rw [← a.tidy_true, hs.tidy_eq, a'.tidy_true]

theorem Agree.eq_of_tidyAll {E : ReadFault → Prop} {x y : Except ReadFault (List Atom)}
    (h : AgreeAll true E x y) : y = x := by
  refine (h.mono fun out out' hs => ?_).eq.symm
  rwa [tidyAll_true, tidyAll_true] at hs

section
variable {lv : Level} {a : Atom} {raw : List Atom} {limit : Int64} {nest n n' : Nat}

theorem resolveExpr_budget (hlv : lv.tag = 0) (h : Pending lv a) (hn : a.weight ≤ n)
    (hn' : a.weight ≤ n') : resolveExpr n' limit nest a = resolveExpr n limit nest a :=
  (lockstep_self.resolveExpr_agree limit n n' nest hlv hn hn' h.ready_self).eq_of_same

theorem resolveItem_budget (hlv : lv.tag = 0) (h : Tokens lv raw)
    (hn : (Atom.item lv raw false []).weight ≤ n) (hn' : (Atom.item lv raw false []).weight ≤ n') :
    resolveExpr n' limit nest (.item lv raw false []) = resolveExpr n limit nest (.item lv raw false []) :=
  (lockstep_self.resolveItem_agree limit n n' nest hlv hn hn' (.intro h.near_self)).eq_of_same

theorem resolveClause_budget (hlv : lv.tag = 0) (h : IsClause lv a) (hn : a.weight ≤ n)
    (hn' : a.weight ≤ n') : resolveExpr n' limit nest a = resolveExpr n limit nest a :=
  (lockstep_self.resolveClause_agree limit n n' nest hlv hn hn' h.twin_self).eq_of_same

theorem resolveStmt_budget (hlv : lv.tag = 0) (h : IsUnreadStmt lv a) (hn : a.weight ≤ n)
    (hn' : a.weight ≤ n') : resolveStmt n' limit nest a = resolveStmt n limit nest a :=
  (lockstep_self.resolveStmt_agree limit n n' nest hlv hn hn' h.near_self).eq_of_same

/-- Reads the contents of a bracket with slots. -/
def readSlots (limit : Int64) (nest : Nat) (lv : Level) (n : Nat) (raw : List Atom) :
    Except ReadFault (List Atom) := do
  let items ← splitArgs lv raw
  items.mapM (resolveExpr (n + 3) limit nest)

theorem readSlots_budget (hlv : lv.tag = 0) (h : RawRun raw) (hn : weights raw ≤ n)
    (hn' : weights raw ≤ n') : readSlots limit nest lv n' raw = readSlots limit nest lv n raw := by
  have hsame : SameRun .square raw raw := ⟨rfl, h⟩
  refine (lockstep_self.splitArgs_agree hlv hsame (by simp) fun a a' hw hw' hitem => ?_).eq_of_tidyAll
  exact lockstep_self.resolveItem_agree limit _ _ nest hlv (by omega) (by omega) hitem

theorem Readable.lexNear_self (hlv : lv.tag = 0) (h : Readable lv raw) :
    LexNear true (fun _ => True) SameRun lv raw raw := by
  cases h with
  | raw hraw =>
    have hsame : SameRun .round raw raw := ⟨rfl, hraw⟩
    exact lockstep_self.lexNear hlv hsame
  | tokens ht => exact ht.near_self.lexNear hlv

theorem readRun_budget (hlv : lv.tag = 0) (h : Readable lv raw) (hn : weights raw < n)
    (hn' : weights raw < n') : readRun n' limit nest lv raw = readRun n limit nest lv raw :=
  (lockstep_self.readRun_agree limit n n' nest hlv hn hn' (h.lexNear_self hlv)).eq_of_tidyAll

theorem readStatements_budget (hlv : lv.tag = 0) (h : Readable lv raw) (hn : weights raw + 1 < n)
    (hn' : weights raw + 1 < n') :
    readStatements n' limit nest lv raw = readStatements n limit nest lv raw :=
  (lockstep_self.readStatements_agree limit n n' nest hlv hn hn' (h.lexNear_self hlv)).eq_of_tidyAll

end

/-! ## What a later attempt finds -/

/-- What a later attempt, with a budget, makes of an atom that is rebuilt from an outcome. -/
structure Tracked (resolve : Nat → Atom → Except ReadFault Atom) (a : Atom) (o : Outcome)
    (f : Option ReadFault) : Prop where
  fits : FitsAt a o
  finished : ∀ {n}, f = none → a.weight ≤ n → resolve n a = .ok o.now
  again : ∀ {b n n'}, RebuiltAt a o b → a.weight ≤ n → b.weight ≤ n' →
    resolve n' b = resolve n a

/-- What a later attempt makes of atoms one after the other. -/
structure TrackedAll (resolve : Nat → Atom → Except ReadFault Atom) (as : List Atom)
    (os : List Outcome) (f : Option ReadFault) : Prop where
  fits : Forall₂ FitsAt as os
  finished : ∀ {n}, f = none → weights as ≤ n → as.mapM (resolve n) = .ok (os.map Outcome.now)
  again : ∀ {bs n n'}, Forall₃ RebuiltAt as os bs → weights as ≤ n →
    weights bs ≤ n' → bs.mapM (resolve n') = as.mapM (resolve n)

section
variable {resolve : Nat → Atom → Except ReadFault Atom} {a b : Atom} {as : List Atom} {o : Outcome}
  {f : Option ReadFault}

theorem RebuiltAt.of_untouched (h : RebuiltAt a (.untouched a) b) : b = a :=
  eq_of_unplaced h.rebuilt.of_untouched h.level

theorem Tracked.untouched (g : ReadFault)
    (hbudget : ∀ {n n'}, a.weight ≤ n → a.weight ≤ n' → resolve n' a = resolve n a) :
    Tracked resolve a (.untouched a) (some g) where
  fits := fitsAt_untouched a
  finished h := by cases h
  again h hn hn' := by
    obtain rfl := h.of_untouched
    exact hbudget hn hn'

theorem tracked_self (hresolve : ∀ n, resolve (n + 1) a = .ok a) :
    Tracked resolve a (.untouched a) none := by
  have hok : ∀ {n : Nat}, a.weight ≤ n → resolve n a = .ok a := by
    intro n hn
    cases n with
    | zero => exact absurd hn (Nat.not_le.2 a.weight_pos)
    | succ n => exact hresolve n
  refine ⟨fitsAt_untouched a, ?_, ?_⟩
  · intro n _ hn
    rw [now_untouched]
    exact hok hn
  · intro b n n' h hn hn'
    obtain rfl := h.of_untouched
    rw [hok hn, hok hn']

theorem trackedAll_nil (f : Option ReadFault) : TrackedAll resolve [] [] f :=
  ⟨.nil, fun _ _ => rfl, fun h _ _ => by cases h; rfl⟩

theorem TrackedAll.cons {os g} (ha : Tracked resolve a o g)
    (h : TrackedAll resolve as os f) (hg : f = none → g = none) :
    TrackedAll resolve (a :: as) (o :: os) f where
  fits := .cons ha.fits h.fits
  finished {n} hf hn := by
    rw [weights_cons] at hn
    rw [mapM_cons, ha.finished (hg hf) (by omega), h.finished hf (by omega)]
    rfl
  again {bs n n'} hb hn hn' := by
    rw [weights_cons] at hn
    cases hb with
    | cons hb hbs =>
      rw [weights_cons] at hn'
      rw [mapM_cons, mapM_cons, ha.again (n := n) hb (by omega) (by omega),
        h.again (n := n) hbs (by omega) (by omega)]

theorem trackedAll_untouched (hidle : ∀ a ∈ as, ∀ g, Tracked resolve a (.untouched a) (some g))
    (g : ReadFault) : TrackedAll resolve as (untouchedRun as) (some g) := by
  induction as with
  | nil => exact trackedAll_nil (some g)
  | cons a as ih =>
    obtain ⟨ha, has⟩ := forall_mem_cons.1 hidle
    exact (ih has).cons (ha g) fun h => by cases h

theorem trackedAll_visitAll {visit} (hvisit : ∀ a ∈ as, Tracked resolve a (visit a).1 (visit a).2)
    (hidle : ∀ a ∈ as, ∀ g, Tracked resolve a (.untouched a) (some g)) :
    TrackedAll resolve as (visitAll visit as).1 (visitAll visit as).2 := by
  induction as with
  | nil => exact trackedAll_nil none
  | cons a as ih =>
    obtain ⟨hva, hvas⟩ := forall_mem_cons.1 hvisit
    obtain ⟨-, hidles⟩ := forall_mem_cons.1 hidle
    rw [visitAll]
    cases hv : visit a with
    | mk o g =>
      rw [hv] at hva
      cases g with
      | some g => exact (trackedAll_untouched hidles g).cons hva fun h => by cases h
      | none => exact (ih hvas hidles).cons hva fun _ => rfl

end

/-! ## Runs -/

/-- What a later reading, with a budget, makes of a run that is rebuilt from its outcomes. `F` says which
outcomes fit, and `R` how atoms are rebuilt. -/
structure TrackedRun (F : Atom → Outcome → Prop) (R : Atom → Outcome → Atom → Prop)
    (read : Nat → List Atom → Except ReadFault (List Atom)) (run : List Atom) (r : RunOutcome) :
    Prop where
  fits : Forall₂ F run r.left
  finished : ∀ {n out}, r.result = .ok out → weights run ≤ n → read n run = .ok out
  again : ∀ {run' n n'}, Forall₃ R run r.left run' → weights run ≤ n →
    weights run' ≤ n' → read n' run' = read n run

section
variable {F : Atom → Outcome → Prop} {R : Atom → Outcome → Atom → Prop}
  {read : Nat → List Atom → Except ReadFault (List Atom)} {run : List Atom} {r : RunOutcome}

theorem TrackedRun.more (h : TrackedRun F R read run r) (extra : Nat) :
    TrackedRun F R (fun n => read (n + extra)) run r where
  fits := h.fits
  finished hr hn := h.finished hr (by omega)
  again hrun hn hn' := h.again hrun (by omega) (by omega)

theorem TrackedRun.at_levels (h : TrackedRun Fits Rebuilt read run r) (hl : SameLevels r.nows run) :
    TrackedRun FitsAt RebuiltAt read run r where
  fits := fitsAt_iff.2 ⟨h.fits, hl⟩
  finished := h.finished
  again hrun := h.again (rebuiltAt_iff.1 hrun).1

/-- A run that is read by resolving atoms one after the other. Finding these atoms in a run may raise its
weight by `slack`. -/
theorem TrackedAll.visited {resolve as v restore} (h : TrackedAll resolve as v.1 v.2) (slack : Nat)
    (hfits : Forall₂ F run (restore v.1)) (hw : weights as ≤ slack + weights run)
    (hread : ∀ n, read n run = as.mapM (resolve (n + slack)))
    (hagain : ∀ {run'}, Forall₃ R run (restore v.1) run' →
      ∃ as', Forall₃ RebuiltAt as v.1 as' ∧ weights as' ≤ slack + weights run' ∧
        ∀ n, read n run' = as'.mapM (resolve (n + slack))) :
    TrackedRun F R read run (.visited restore v) := by
  obtain ⟨os, f⟩ := v
  have hleft : (RunOutcome.visited restore (os, f)).left = restore os := by cases f <;> rfl
  refine ⟨by rwa [hleft], ?_, ?_⟩
  · intro n out hr hn
    cases f with
    | some g => cases hr
    | none =>
      cases hr
      rw [hread, h.finished rfl (by omega)]
  · intro run' n n' hrun hn hn'
    rw [hleft] at hrun
    obtain ⟨as', has, hw', hread'⟩ := hagain hrun
    rw [hread, hread']
    exact h.again has (by omega) (by omega)

end

/-! ## Runs that nothing happened to -/

section
variable {lv : Level} {a : Atom} {run raw raw' : List Atom} {os : List Outcome}

theorem Fits.relevel {o} (h : Fits a o) (lv : Level) : Fits (a.relevel lv) o := by
  obtain ⟨hparts, hl, hrun, hlrun, hnow⟩ := h
  refine .intro (by simpa using hparts) (by simpa using hl) (by simpa using hrun) ?_ ?_
  · simpa using hlrun
  · simpa using hnow

theorem Fits.of_relevel {o} (h : Fits (a.relevel lv) o) : Fits a o := by
  have hback : (a.relevel lv).relevel a.level = a := by
    refine eq_of_unplaced (by simp) ?_
    simp [Atom.relevel, level_mapLevel, Level.moveTo]
  rw [← hback]
  exact h.relevel _

theorem fits_of_relevel (h : Forall₂ Fits (relevel lv run) os) : Forall₂ Fits run os := by
  induction run generalizing os with
  | nil => exact h
  | cons a run ih =>
    cases h with
    | cons ha h => exact .cons ha.of_relevel (ih h)

theorem map_unplaced_relevel (lv : Level) (run : List Atom) :
    (relevel lv run).map unplaced = run.map unplaced := by
  simp [relevel, Function.comp_def]

theorem relevel_of_unplaced (h : raw'.map unplaced = raw.map unplaced) (lv : Level) :
    relevel lv raw' = relevel lv raw := by
  induction raw generalizing raw' with
  | nil =>
    cases map_eq_nil_iff.1 h
    rfl
  | cons a raw ih =>
    obtain ⟨b, rest, rfl, hb, hrest⟩ := map_eq_cons_iff.1 h
    simp only [relevel, map_cons, Atom.relevel_of_unplaced hb lv]
    exact congrArg _ (ih hrest)

theorem IsRaw.isBasic (h : IsRaw a) : IsBasic a := by
  induction h with
  | text ht =>
    refine .leaf ?_
    rename_i a _
    cases a <;> first | rfl | cases ht
  | @bracket pair lv raw _ _ _ ih =>
    refine .bracket ?_ (by simpa using ih)
    cases pair <;> rfl

theorem Readable.relevel (hlv : lv.tag = 0) (h : Readable lv run) : Readable lv (relevel lv run) := by
  cases h with
  | raw hr =>
    refine .raw ⟨hr.literalFree.relevel, fun a ha => ?_⟩
    obtain ⟨b, hb, rfl⟩ := mem_map.1 ha
    exact ((hr.isRaw b hb).relevel hlv).1
  | tokens ht =>
    rw [ht.relevel_eq hlv]
    exact .tokens ht

theorem Readable.literalFree (h : Readable lv run) : LiteralFree run := by
  cases h with
  | raw hr => exact hr.literalFree
  | tokens ht => exact ht.literalFree

/-- Reading has failed before anything happened, or when the run had been moved to its level. The later
reading moves the run first, so it does not see which of the two it was. -/
theorem trackedRun_failed {read} (lv : Level)
    (hrun : run = raw ∨ run = relevel lv raw) (f : ReadFault)
    (hread : ∀ {raw' n n'}, relevel lv raw' = relevel lv raw → weights raw ≤ n →
      weights raw ≤ n' → read n' raw' = read n raw) :
    TrackedRun Fits Rebuilt read raw (.failed run f) := by
  refine ⟨?_, fun h => (by cases h), fun {raw' n n'} h hn hn' => ?_⟩
  · rcases hrun with rfl | rfl
    · exact fits_untouchedRun run
    · exact fits_of_relevel (fits_untouchedRun (relevel lv raw))
  · have hlevel : relevel lv raw' = relevel lv raw := by
      rcases hrun with rfl | rfl
      · exact relevel_of_unplaced (rebuilt_of_untouchedRun h) lv
      · have hmoved := rebuilt_of_untouchedRun (Rebuilt.relevel_all h lv lv)
        rw [map_unplaced_relevel, map_unplaced_relevel] at hmoved
        exact relevel_of_unplaced hmoved lv
    have hw : weights raw' = weights raw := by
      rw [← weights_relevel lv raw', hlevel, weights_relevel]
    exact hread hlevel hn (by omega)

end

/-! ## Lexing -/

section
variable {lv : Level} {run raw : List Atom} {cuts : List (List Piece)}

theorem group_eq_cutPasses (lv : Level) (run : List Atom) :
    group lv run = (cutPasses lv run).map tokensOf := by
  rw [group, cutPasses, extractLiterals]
  cases cutLiterals lv run with
  | error f => rfl
  | ok literals =>
    simp only [Except.map, bind, Except.bind, groupBrackets, Bracket.all, List.foldlM, groupPair]
    cases cutBrackets .brace lv (atomsOf literals) with
    | error f => rfl
    | ok braces =>
      simp only
      cases cutBrackets .square lv (atomsOf braces) with
      | error f => rfl
      | ok squares =>
        simp only
        cases cutBrackets .round lv (atomsOf squares) with
        | error f => rfl
        | ok rounds =>
          simp only [tokenize, pure, Except.pure]
          cases cutWords lv (atomsOf rounds) <;> rfl

theorem TrackedRun.lexed {read r}
    (hlv : lv.tag = 0) (hraw : Readable lv raw) (hcuts : cutPasses lv (relevel lv raw) = .ok cuts)
    (h : TrackedRun FitsAt RebuiltAt read (tokensOf cuts) r) :
    TrackedRun Fits Rebuilt (fun n raw => group lv (relevel lv raw) >>= read n) raw
      ⟨restoreCuts cuts r.left, r.result⟩ := by
  have hgroup : ∀ {raw : List Atom} {cuts : List (List Piece)},
      cutPasses lv (relevel lv raw) = .ok cuts →
        group lv (relevel lv raw) = .ok (tokensOf cuts) ∧ weights (tokensOf cuts) ≤ weights raw := by
    intro raw cuts hcuts
    have hok : group lv (relevel lv raw) = .ok (tokensOf cuts) := by
      rw [group_eq_cutPasses, hcuts]
      rfl
    exact ⟨hok, weights_group hok⟩
  obtain ⟨hok, hw⟩ := hgroup hcuts
  have hfree := (hraw.relevel hlv).literalFree
  have hfits := (fitsAt_iff.1 h.fits).1
  refine ⟨fits_of_relevel (fits_restoreCuts hfree hcuts hfits), ?_, ?_⟩
  · intro n out hr hn
    simp only [hok]
    exact h.finished hr (by omega)
  · intro raw' n n' hrun hn hn'
    have hl := (Rebuilt.sameFaces hrun).sameLevels_relevel lv
    obtain ⟨cuts', hcuts', htokens, hl'⟩ :=
      cutPasses_rebuilt hfree hcuts hfits (Rebuilt.relevel_all hrun lv lv) hl
    obtain ⟨hok', hw'⟩ := hgroup hcuts'
    simp only [hok, hok']
    exact h.again (rebuiltAt_iff.2 ⟨htokens, hl'⟩) (by omega) (by omega)

theorem tokens_of_cutPasses (hlv : lv.tag = 0) (hraw : Readable lv raw)
    (hcuts : cutPasses lv (relevel lv raw) = .ok cuts) : Tokens lv (tokensOf cuts) := by
  refine tokens_of_group hlv hraw ?_
  rw [group_eq_cutPasses, hcuts]
  rfl

theorem trackedRun_unlexed (read : Nat → List Atom → Except ReadFault (List Atom)) {f}
    (hcuts : cutPasses lv (relevel lv raw) = .error f) :
    TrackedRun Fits Rebuilt (fun n raw => group lv (relevel lv raw) >>= read n) raw
      (.failed (relevel lv raw) f) := by
  have hgroup : group lv (relevel lv raw) = .error f := by
    rw [group_eq_cutPasses, hcuts]
    rfl
  refine trackedRun_failed lv (.inr rfl) f fun hsame _ _ => ?_
  simp only [hsame, hgroup]
  rfl

theorem Tokens.cutPasses_eq (hlv : lv.tag = 0) (h : Tokens lv run) :
    ∃ cuts, cutPasses lv (relevel lv run) = .ok cuts ∧ tokensOf cuts = run ∧
      ∀ os : List Outcome, run.length = os.length → restoreCuts cuts os = os := by
  have hpair : ∀ pair : Bracket, cutBrackets pair lv run = .ok (run.map .kept) :=
    fun pair => scanBrackets_of_noMarks pair lv fun a ha => (h a ha).marks pair
  have hwords : cutWords lv run = .ok (run.map .kept) :=
    scanWords_of_separators lv fun a ha => (h a ha).isLetter
  refine ⟨List.replicate 5 (run.map .kept), ?_, ?_, fun os hos => ?_⟩
  · rw [h.relevel_eq hlv]
    refine (cutPasses_eq_ok_iff h.literalFree).2 ⟨_, _, _, _, ⟨hpair .brace, ?_, ?_, ?_⟩, rfl⟩
    · rw [atomsOf_map_kept, hpair]
    · rw [atomsOf_map_kept, hpair]
    · rw [atomsOf_map_kept, hwords]
  · exact atomsOf_map_kept run
  · simp only [restoreCuts, List.replicate, foldr_cons, foldr_nil, restorePieces_map_kept hos]

end

/-! ## Tokens -/

section
variable {lv : Level} {run : List Atom} {resolve : Nat → Atom → Except ReadFault Atom}
  {visit : Atom → Outcome × Option ReadFault}

theorem trackedRun_trackTokens (hlv : lv.tag = 0) (ht : Tokens lv run)
    (hvisit : ∀ a, Pending lv a → Tracked resolve a (visit a).1 (visit a).2)
    (hidle : ∀ a, Pending lv a → ∀ g, Tracked resolve a (.untouched a) (some g)) :
    TrackedRun FitsAt RebuiltAt (fun n run => structureRun lv run >>= List.mapM (resolve n)) run
      (trackTokens visit lv run) := by
  rw [trackTokens]
  cases hs : structured lv run with
  | error f =>
    have hrun : structureRun lv run = .error f := by rw [structureRun_eq, hs]; rfl
    refine ⟨?_, fun h => (by cases h), fun {run' n n'} h _ _ => ?_⟩
    · refine fitsAt_iff.2 ⟨fits_untouchedRun run, ?_⟩
      exact congrArg (List.map level) (map_now_untouchedRun run)
    · obtain ⟨hrebuilt, hl⟩ := rebuiltAt_iff.1 h
      rw [eq_of_unplaced_of_sameLevels (rebuilt_of_untouchedRun hrebuilt) hl, hrun]
      rfl
  | ok s =>
    have hrun : structureRun lv run = .ok s.atoms := by rw [structureRun_eq, hs]; rfl
    have hpending := structureRun_pending hlv ht
    rw [hrun] at hpending
    have hall : TrackedAll resolve s.atoms (visitAll visit s.atoms).1 (visitAll visit s.atoms).2 :=
      trackedAll_visitAll (fun a ha => hvisit a (hpending a ha)) fun a ha => hidle a (hpending a ha)
    have hweights : ∀ {run out : List Atom}, (∀ a ∈ run, a.isClause = false) →
        structureRun lv run = .ok out → weights out ≤ 0 + weights run := fun hrun h => by
      rw [Nat.zero_add]
      exact weights_structureRun hrun h
    refine hall.visited 0 (fits_restore hlv ht hs hall.fits) (hweights ht.isClause hrun)
      (fun n => by rw [hrun]; rfl) fun {run'} h => ?_
    obtain ⟨s', hs', hatoms⟩ := structured_rebuilt hlv ht hs hall.fits h
    have hrun' : structureRun lv run' = .ok s'.atoms := by rw [structureRun_eq, hs']; rfl
    have hclause : run'.any isClause = false := by
      rw [any_of_sameFaces isClause_of_face (Rebuilt.sameFaces (rebuiltAt_iff.1 h).1)]
      simpa using ht.isClause
    exact ⟨s'.atoms, hatoms, hweights (by simpa using hclause) hrun', fun n => by rw [hrun']; rfl⟩

theorem trackedRun_statements (ht : Tokens lv run)
    (hvisit : ∀ a, IsUnreadStmt lv a → Tracked resolve a (visit a).1 (visit a).2)
    (hidle : ∀ a, IsUnreadStmt lv a → ∀ g, Tracked resolve a (.untouched a) (some g)) :
    TrackedRun FitsAt RebuiltAt (fun n run => (splitStatements lv run).mapM (resolve (n + 1))) run
      (.visited (restoreStatements run) (visitAll visit (splitStatements lv run))) := by
  have hstmts := splitStatements_statements ht
  have hall := trackedAll_visitAll (fun a ha => hvisit a (hstmts a ha)) fun a ha => hidle a (hstmts a ha)
  refine hall.visited 1 (fits_restoreStatements ht hall.fits) (weights_splitStatements lv run)
    (fun _ => rfl) fun {run'} h => ?_
  exact ⟨_, statements_rebuilt ht hall.fits h, weights_splitStatements lv run', fun _ => rfl⟩

theorem trackedRun_slots (ht : Tokens lv run)
    (hvisit : ∀ raw, Tokens lv raw → Tracked resolve (.item lv raw false [])
      (visit (.item lv raw false [])).1 (visit (.item lv raw false [])).2)
    (hidle : ∀ raw, Tokens lv raw → ∀ g, Tracked resolve (.item lv raw false [])
      (.untouched (.item lv raw false [])) (some g)) :
    TrackedRun FitsAt RebuiltAt (fun n run => (slots lv run).mapM (resolve (n + 3))) run
      (.visited (fun os => restoreFiltered isComma run (os.flatMap Outcome.run))
        (visitAll visit (slots lv run))) := by
  have hall : TrackedAll resolve (slots lv run) (visitAll visit (slots lv run)).1
      (visitAll visit (slots lv run)).2 := by
    refine trackedAll_visitAll (fun a ha => ?_) fun a ha => ?_
    · obtain ⟨raw, hraw, rfl⟩ := slots_items ht a ha
      exact hvisit raw hraw
    · obtain ⟨raw, hraw, rfl⟩ := slots_items ht a ha
      exact hidle raw hraw
  refine hall.visited 3 (fits_restoreSlots ht hall.fits) (weights_slots lv run) (fun _ => rfl)
    fun {run'} h => ?_
  exact ⟨_, slots_rebuilt ht hall.fits h, weights_slots lv run', fun _ => rfl⟩

end

end WatScript
