import WatScript.Proofs.Openings
import WatScript.Proofs.Tracking

/-!
# Trying again

An attempt to resolve an atom that has failed may be followed by another one, under a nesting limit that
allows at least the runs that the first one allows. The second attempt ends as it would have without the
first (`failed_resolution_can_be_retried`): with the same failure, or with the same tree.

The proof follows an attempt through the atoms that it visits. For each kind of atom a lemma says that the
atom is tracked if what it is made of is; `tracksAt_succ` collects them into what one step of an attempt
preserves, and `tracksAt` is what all of its steps do.
-/

namespace WatScript

open List Atom

/-! ## Brackets and rows -/

section
variable {resolve : Nat → Atom → Except ReadFault Atom} {a : Atom} {done : List Atom → Atom}
  {read : Nat → List Atom → Except ReadFault (List Atom)} {r : RunOutcome} {extra : Nat}

theorem Atom.level_withRaw (raw : List Atom) (a : Atom) : (a.withRaw raw).level = a.level := by
  cases a <;> rfl

/-- An atom is resolved by reading its unread run, which takes `extra` of its budget. -/
structure ResolvedBy (resolve : Nat → Atom → Except ReadFault Atom)
    (read : Nat → List Atom → Except ReadFault (List Atom)) (done : List Atom → Atom) (extra : Nat)
    (a : Atom) : Prop where
  weight_withRaw : ∀ raw, (a.withRaw raw).weight = extra + weights raw
  resolve_withRaw : ∀ n raw, resolve (n + extra) (a.withRaw raw) = (read n raw).map done

namespace ResolvedBy
variable {F : Atom → Outcome → Prop} {R : Atom → Outcome → Atom → Prop} {n n' : Nat}
  (h : ResolvedBy resolve read done extra a)
include h

theorem eq_read {raw} (hn : (a.withRaw raw).weight ≤ n) :
    ∃ m, weights raw ≤ m ∧ resolve n (a.withRaw raw) = (read m raw).map done := by
  rw [h.weight_withRaw] at hn
  obtain ⟨m, rfl⟩ := Nat.exists_eq_add_of_le' (Nat.le_of_add_right_le hn)
  exact ⟨m, by omega, h.resolve_withRaw m raw⟩

theorem eq_read_raw (hn : a.weight ≤ n) :
    ∃ m, weights a.raw ≤ m ∧ resolve n a = (read m a.raw).map done := by
  rw [← a.withRaw_raw] at hn
  have heq := h.eq_read hn
  rwa [a.withRaw_raw] at heq

theorem finished (hrun : TrackedRun F R read a.raw r)
    {out} (hr : r.result = .ok out) (hn : a.weight ≤ n) : resolve n a = .ok (done out) := by
  obtain ⟨m, hm, heq⟩ := h.eq_read_raw hn
  rw [heq, hrun.finished hr hm]
  rfl

theorem again (hrun : TrackedRun F R read a.raw r) {b raw}
    (hraw : Forall₃ R a.raw r.left raw) (hb : b.unplaced = (a.withRaw raw).unplaced)
    (hl : b.level = a.level) (hn : a.weight ≤ n) (hn' : b.weight ≤ n') :
    resolve n' b = resolve n a := by
  obtain rfl : b = a.withRaw raw := eq_of_unplaced hb (by rw [hl, level_withRaw])
  obtain ⟨m, hm, heq⟩ := h.eq_read_raw hn
  obtain ⟨m', hm', heq'⟩ := h.eq_read hn'
  rw [heq, heq', hrun.again hraw hm hm']

end ResolvedBy

theorem settle_ok {out} (h : r.result = .ok out) (done kept : List Atom → Atom) :
    settle r done kept = (.mk (done out) r.left [], none) := by
  rw [settle, h]

theorem settle_error {f} (h : r.result = .error f) (done kept : List Atom → Atom) :
    settle r done kept = (.mk (kept r.nows) r.left [], some f) := by
  rw [settle, h]

theorem tracked_bracket (ha : a.isUnreadBracket = true)
    (hdone : ∀ out, (done out).settled = true ∧ (done out).face = a.face ∧ (done out).level = a.level)
    (hsettled : ∀ n out, resolve (n + 1) (done out) = .ok (done out))
    (hby : ResolvedBy resolve read done extra a) (h : TrackedRun Fits Rebuilt read a.raw r) :
    Tracked resolve a (settle r done a.withRaw).1 (settle r done a.withRaw).2 := by
  cases hr : r.result with
  | ok out =>
    obtain ⟨hs, hface, hlevel⟩ := hdone out
    rw [settle_ok hr]
    refine ⟨⟨.of_bracket ha h.fits rfl (.inl ⟨hs, hface⟩), hlevel⟩,
      fun _ hn => hby.finished h hr hn, ?_⟩
    intro b n n' hb hn hn'
    rcases hb.rebuilt.bracket_cases ha with ⟨-, -, hnow⟩ | ⟨raw, hraw, -, hnow⟩
    · -- the bracket has been resolved and stays as it is
      obtain rfl : b = done out := eq_of_unplaced hnow (by rw [hb.level, hlevel])
      obtain ⟨m, rfl⟩ := Nat.exists_eq_add_of_lt (Nat.lt_of_lt_of_le (done out).weight_pos hn')
      rw [hby.finished h hr hn, Nat.zero_add, hsettled]
    · exact hby.again h hraw hnow hb.level hn hn'
  | error f =>
    have hopen : (a.withRaw r.nows).settled ≠ true := by
      cases a <;> simp_all [isUnreadBracket, withRaw, settled]
    rw [settle_error hr]
    refine ⟨⟨.of_bracket ha h.fits rfl (.inr rfl), level_withRaw _ a⟩, fun h => (by cases h), ?_⟩
    intro b n n' hb hn hn'
    rcases hb.rebuilt.bracket_cases ha with ⟨hs, -⟩ | ⟨raw, hraw, -, hnow⟩
    · exact absurd hs hopen
    · exact hby.again h hraw hnow hb.level hn hn'

theorem tracked_row (ha : a.isUnreadRow = true) (hdone : ∀ out, (done out).level = a.level)
    (hby : ResolvedBy resolve read done extra a) (h : TrackedRun FitsAt RebuiltAt read a.raw r) :
    Tracked resolve a (settle r done a.withRaw).1 (settle r done a.withRaw).2 := by
  have hagain : ∀ {o : Outcome} {b : Atom} {n n' : Nat}, o.run = r.left → RebuiltAt a o b →
      a.weight ≤ n → b.weight ≤ n' → resolve n' b = resolve n a := by
    intro o b n n' ho hb hn hn'
    obtain ⟨raw, hraw, hsame, hnow⟩ := hb.rebuilt.row_inv ha
    rw [ho] at hraw
    exact hby.again h (rebuiltAt_iff.2 ⟨hraw, hsame⟩) hnow hb.level hn hn'
  cases hr : r.result with
  | ok out =>
    rw [settle_ok hr]
    exact ⟨⟨.of_row ha h.fits rfl, hdone out⟩, fun _ hn => hby.finished h hr hn, hagain rfl⟩
  | error f =>
    rw [settle_error hr]
    exact ⟨⟨.of_row ha h.fits rfl, level_withRaw _ a⟩, fun h => (by cases h), hagain rfl⟩

end

/-! ## Calls, subscripts, operations, clauses and chains -/

section
variable {limit : Int64} {nest : Nat} {lv : Level} {callee : Atom} {raw : List Atom} {o oc : Outcome}

/-- The outcome of slots as that of a run. -/
def SlotOutcome.toRun (s : SlotOutcome) : RunOutcome where
  left := s.left
  result := match s.fault with
    | none => .ok ((s.items.getD []).map Outcome.now)
    | some f => .error f

/-- The calls or the subscripts, unread and resolved: the callee is resolved first, then what it is applied
to. -/
structure Applies (lv : Level) (unread done : Atom → List Atom → Atom) : Prop where
  kind : ∀ callee raw, (unread callee raw).isUnreadRow = false ∧ (unread callee raw).isLeaf = false ∧
    (unread callee raw).isUnreadBracket = false
  parts : ∀ callee raw, (unread callee raw).parts = [callee] ∧ (unread callee raw).raw = raw
  assemble : ∀ callee raw callee' raw', (unread callee raw).assemble [callee'] raw' = unread callee' raw'
  level : ∀ callee raw, (unread callee raw).level = lv
  weight : ∀ {callee raw}, callee.isOperator = false →
    (unread callee raw).weight = 3 + callee.weight + weights raw
  resolve : ∀ (limit : Int64) (nest n : Nat) {callee raw},
    callee.isOperator = false → resolveExpr (n + 4) limit nest (unread callee raw) = do
      let callee' ← resolveExpr (n + 3) limit nest callee
      return done callee' (← readSlots limit nest lv.enter n raw)

theorem applies_call (lv : Level) : Applies lv (fun callee raw => .call lv callee raw false false [])
    (fun callee args => .call lv callee [] true true args) where
  kind _ _ := ⟨rfl, rfl, rfl⟩
  parts _ _ := ⟨rfl, rfl⟩
  assemble _ _ _ _ := rfl
  level _ _ := rfl
  weight h := by simp [weight, h]
  resolve limit nest n callee raw h := by
    rw [resolveExpr]
    simp only [Bool.false_eq_true, if_false, h, readSlots, bind_assoc]

theorem applies_access (lv : Level) : Applies lv (fun callee raw => .access lv callee raw false [])
    (fun callee index => .access lv callee [] true index) where
  kind _ _ := ⟨rfl, rfl, rfl⟩
  parts _ _ := ⟨rfl, rfl⟩
  assemble _ _ _ _ := rfl
  level _ _ := rfl
  weight _ := by rw [weight]
  resolve limit nest n callee raw _ := by
    rw [resolveExpr]
    simp only [Bool.false_eq_true, if_false, readSlots, bind_assoc]

theorem tracked_applied {unread done r f fc}
    (h : Applies lv unread done) (hcallee : callee.isOperator = false)
    (hparts : o.parts = [oc]) (hrun : o.run = r.left) (hlevel : o.now.level = lv)
    (hc : Tracked (resolveExpr · limit nest) callee oc fc)
    (hr : TrackedRun Fits Rebuilt (readSlots limit nest lv.enter) raw r)
    (hf : f = none → fc = none ∧ ∃ out, r.result = .ok out ∧ o.now = done oc.now out) :
    Tracked (resolveExpr · limit nest) (unread callee raw) o f := by
  have hbudget : ∀ {callee : Atom} {raw : List Atom} {n : Nat}, callee.isOperator = false →
      (unread callee raw).weight ≤ n →
        ∃ m, n = m + 4 ∧ callee.weight ≤ m + 3 ∧ weights raw ≤ m := by
    intro callee raw n ho hn
    have hpos := callee.weight_pos
    rw [h.weight ho] at hn
    exact ⟨n - 4, by omega, by omega, by omega⟩
  obtain ⟨hrow, hleaf, hbracket⟩ := h.kind callee raw
  obtain ⟨hcparts, hraw⟩ := h.parts callee raw
  refine ⟨⟨.of_parts ?_ ?_ hrow hleaf hbracket, hlevel.trans (h.level callee raw).symm⟩, ?_, ?_⟩
  · rw [hcparts, hparts]
    exact .cons hc.fits .nil
  · rw [hraw, hrun]
    exact hr.fits
  · intro n hnone hn
    obtain ⟨hfc, out, hout, hnow⟩ := hf hnone
    obtain ⟨m, rfl, hcm, hrm⟩ := hbudget hcallee hn
    simp only [h.resolve limit nest m hcallee, hc.finished hfc hcm, hr.finished hout hrm, hnow]
    rfl
  · intro b n n' hb hn hn'
    obtain ⟨bparts, raw', rfl, hbparts, hraw'⟩ := hb.inv hbracket
    rw [hcparts, hparts] at hbparts
    cases hbparts with
    | @cons _ _ callee' _ _ _ hc' hnil =>
      cases hnil
      rw [h.assemble] at hn' ⊢
      have hcallee' : callee'.isOperator = false := by
        rw [isOperator_of_face hc'.rebuilt.face_eq, hcallee]
      obtain ⟨m, rfl, hcm, hrm⟩ := hbudget hcallee hn
      obtain ⟨m', rfl, hcm', hrm'⟩ := hbudget hcallee' hn'
      rw [hraw, hrun] at hraw'
      have hagain : resolveExpr (m' + 3) limit nest callee' = resolveExpr (m + 3) limit nest callee :=
        hc.again hc' hcm hcm'
      rw [h.resolve limit nest m hcallee, h.resolve limit nest m' hcallee', hagain,
        hr.again hraw' hrm hrm']

theorem tracked_operation {op args os f}
    (hparts : o.parts = .untouched (.operator lv op) :: os) (hrun : o.run = [])
    (hlevel : o.now.level = lv) (hargs : TrackedAll (resolveExpr · limit nest) args os f)
    (hnow : f = none → o.now = .call lv (.operator lv op) [] true true (os.map Outcome.now)) :
    Tracked (resolveExpr · limit nest) (.call lv (.operator lv op) [] false true args) o f := by
  have hresolve : ∀ (n : Nat) (args : List Atom),
      resolveExpr (n + 2) limit nest (.call lv (.operator lv op) [] false true args) =
        (args.mapM (resolveExpr (n + 1) limit nest)).map (.call lv (.operator lv op) [] true true) := by
    intro n args
    rw [resolveExpr]
    simp only [Bool.false_eq_true, if_false, isOperator, if_true, pure_bind, resolveExpr]
    rfl
  have hbudget : ∀ {args : List Atom} {n : Nat},
      (Atom.call lv (.operator lv op) [] false true args).weight ≤ n →
        ∃ m, n = m + 2 ∧ weights args ≤ m + 1 := by
    intro args n hn
    simp only [weight, isOperator, if_true, weights_nil] at hn
    exact ⟨n - 2, by omega, by omega⟩
  refine ⟨⟨.of_parts ?_ ?_ rfl rfl rfl, hlevel⟩, ?_, ?_⟩
  · rw [hparts]
    exact .cons (fitsAt_untouched _) hargs.fits
  · rw [hrun]
    exact .nil
  · intro n hf hn
    obtain ⟨m, rfl, hm⟩ := hbudget hn
    rw [hresolve, hargs.finished hf hm, hnow hf]
    rfl
  · intro b n n' hb hn hn'
    obtain ⟨bparts, raw, rfl, hbparts, hraw⟩ := hb.inv rfl
    obtain rfl : raw = [] := length_eq_zero_iff.1 hraw.length_right
    rw [hparts] at hbparts
    cases hbparts with
    | @cons _ _ _ _ _ args' hop hargs' =>
      obtain rfl := hop.of_untouched
      obtain ⟨m, rfl, hm⟩ := hbudget hn
      obtain ⟨m', rfl, hm'⟩ := @hbudget args' _ hn'
      show resolveExpr _ _ _ (.call lv (.operator lv op) [] false true args') = _
      rw [hresolve, hresolve, hargs.again hargs' hm hm']

theorem tracked_chain {clauses os f}
    (hparts : o.parts = os) (hrun : o.run = []) (hnow : o.now = .chain lv (os.map Outcome.now))
    (h : TrackedAll (resolveExpr · limit nest) clauses os f) :
    Tracked (resolveExpr · limit nest) (.chain lv clauses) o f := by
  have hresolve : ∀ (n : Nat) (clauses : List Atom), resolveExpr (n + 1) limit nest (.chain lv clauses) =
      (clauses.mapM (resolveExpr n limit nest)).map (.chain lv) := by
    intro n clauses
    rw [resolveExpr]
    rfl
  have hbudget : ∀ {clauses : List Atom} {n : Nat}, (Atom.chain lv clauses).weight ≤ n →
      ∃ m, n = m + 1 ∧ weights clauses ≤ m := by
    intro clauses n hn
    rw [weight] at hn
    exact ⟨n - 1, by omega, by omega⟩
  subst hparts
  refine ⟨⟨.of_parts h.fits (by rw [hrun]; exact .nil) rfl rfl rfl, by rw [hnow]; rfl⟩, ?_, ?_⟩
  · intro n hf hn
    obtain ⟨m, rfl, hm⟩ := hbudget hn
    rw [hresolve, h.finished hf hm, hnow]
    rfl
  · intro b n n' hb hn hn'
    obtain ⟨clauses', _, rfl, hclauses, -⟩ := hb.inv rfl
    obtain ⟨m, rfl, hm⟩ := hbudget hn
    obtain ⟨m', rfl, hm'⟩ := @hbudget clauses' _ hn'
    show resolveExpr _ _ _ (.chain lv clauses') = _
    rw [hresolve, hresolve, h.again hclauses hm hm']

theorem tracked_clause {name cond body conds ob f fc fb} (hparts : o.parts = conds ++ [ob])
    (hrun : o.run = []) (hlevel : o.now.level = lv)
    (hc : TrackedAll (resolveExpr · limit nest) cond.toList conds fc)
    (hb : Tracked (readBody limit nest (bodyLevel lv name)) body ob fb)
    (hf : f = none → fc = none ∧ fb = none ∧
      o.now = .clause lv name (conds.map Outcome.now).head? ob.now) :
    Tracked (resolveExpr · limit nest) (.clause lv name cond body) o f := by
  have hbudget : ∀ {cond : Option Atom} {body : Atom} {n : Nat},
      (Atom.clause lv name cond body).weight ≤ n →
        ∃ m, n = m + 1 ∧ weights cond.toList ≤ m ∧ body.weight ≤ m := by
    intro cond body n hn
    have hcond : weights cond.toList = weightOption cond := by cases cond <;> rfl
    rw [weight] at hn
    exact ⟨n - 1, by omega, by omega, by omega⟩
  refine ⟨⟨.of_parts ?_ (by rw [hrun]; exact .nil) rfl rfl rfl, hlevel⟩, ?_, ?_⟩
  · rw [hparts]
    exact rel_append hc.fits (.cons hb.fits .nil)
  · intro n hnone hn
    obtain ⟨hfc, hfb, hnow⟩ := hf hnone
    obtain ⟨m, rfl, hcm, hbm⟩ := hbudget hn
    simp only [resolveExpr_clause, hc.finished hfc hcm, hb.finished hfb hbm, hnow]
    rfl
  · intro c n n' h hn hn'
    obtain ⟨cparts, _, rfl, hrebuilt, -⟩ := h.inv rfl
    rw [hparts] at hrebuilt
    obtain ⟨conds', _, rfl, hcond, hbody⟩ := hrebuilt.of_append hc.fits.length_eq
    -- a clause has one condition at most
    obtain ⟨cond', rfl⟩ : ∃ cond' : Option Atom, conds' = cond'.toList := by
      have hlen := hcond.length_right
      cases cond with
      | none => exact ⟨none, length_eq_zero_iff.1 hlen⟩
      | some =>
        obtain ⟨x, hx⟩ := length_eq_one_iff.1 hlen
        exact ⟨some x, hx⟩
    cases hbody with
    | @cons _ _ body' _ _ _ hbody hnil =>
      cases hnil
      have hclause : (Atom.clause lv name cond body).assemble (cond'.toList ++ [body']) ‹_› =
          .clause lv name cond' body' := by cases cond' <;> rfl
      rw [hclause] at hn' ⊢
      obtain ⟨m, rfl, hcm, hbm⟩ := hbudget hn
      obtain ⟨m', rfl, hcm', hbm'⟩ := hbudget hn'
      have hagain : cond'.toList.mapM (resolveExpr m' limit nest) =
          cond.toList.mapM (resolveExpr m limit nest) := hc.again hcond hcm hcm'
      rw [resolveExpr_clause, resolveExpr_clause, hagain, hb.again hbody hbm hbm']

end

/-! ## Runs -/

section
variable {limit : Int64} {nest : Nat} {lv : Level} {raw : List Atom}

theorem trackedRun_trackSlots {visit} (hlv : lv.tag = 0) (hraw : RawRun raw)
    (hvisit : ∀ raw, Tokens lv raw → Tracked (resolveExpr · limit nest)
      (.item lv raw false []) (visit (.item lv raw false [])).1 (visit (.item lv raw false [])).2)
    (hidle : ∀ raw, Tokens lv raw → ∀ g, Tracked (resolveExpr · limit nest)
      (.item lv raw false []) (.untouched (.item lv raw false [])) (some g)) :
    TrackedRun Fits Rebuilt (readSlots limit nest lv) raw (trackSlots visit lv raw).toRun := by
  have hsplit : readSlots limit nest lv = fun n raw => group lv (relevel lv raw) >>= fun toks =>
      (slots lv toks).mapM (resolveExpr (n + 3) limit nest) := by
    funext n raw
    simp only [readSlots, splitArgs, bind_assoc, pure_bind]
  rw [hsplit]
  cases hcuts : cutPasses lv (relevel lv raw) with
  | error f =>
    simp only [trackSlots, hcuts]
    exact trackedRun_unlexed _ hcuts
  | ok cuts =>
    have ht := tokens_of_cutPasses hlv (.raw hraw) hcuts
    have hlexed := (trackedRun_slots ht hvisit hidle).lexed hlv (.raw hraw) hcuts
    simp only [trackSlots, hcuts]
    cases hv : visitAll visit (slots lv (tokensOf cuts)) with
    | mk os f =>
      rw [hv] at hlexed
      cases f <;> exact hlexed

variable {limit₁ limit₂ : Int64}

/-- What an attempt under the first limit leaves is tracked by an attempt under the second. -/
def Tracks (limit₁ : Int64) (fuel nest : Nat) (resolve : Nat → Atom → Except ReadFault Atom) (a : Atom) :
    Prop :=
  Tracked resolve a (track fuel limit₁ nest a).1 (track fuel limit₁ nest a).2

theorem trackedRun_readRun_failed (hlv : lv.tag = 0) (hraw : Readable lv raw) (f : ReadFault) :
    TrackedRun Fits Rebuilt (fun n raw => readRun (n + 1) limit nest lv raw) raw (.failed raw f) := by
  refine trackedRun_failed lv (.inl rfl) f fun {raw' n n'} hsame hn hn' => ?_
  simp only [readRun_congr (congrArg (group lv) hsame)]
  exact readRun_budget hlv hraw (by omega) (by omega)

theorem trackedRun_readStatements_failed (hlv : lv.tag = 0) (hraw : Readable lv raw) (f : ReadFault) :
    TrackedRun Fits Rebuilt (fun n raw => readStatements (n + 2) limit nest lv raw) raw
      (.failed raw f) := by
  refine trackedRun_failed lv (.inl rfl) f fun {raw' n n'} hsame hn hn' => ?_
  simp only [readStatements_congr (congrArg (group lv) hsame)]
  exact readStatements_budget hlv hraw (by omega) (by omega)

theorem trackedRun_readSlots_failed (hlv : lv.tag = 0) (hraw : RawRun raw) (f : ReadFault) :
    TrackedRun Fits Rebuilt (readSlots limit nest lv) raw (.failed raw f) := by
  refine trackedRun_failed lv (.inl rfl) f fun {raw' n n'} hsame hn hn' => ?_
  have hcongr : readSlots limit nest lv n' raw' = readSlots limit nest lv n' raw := by
    rw [readSlots, readSlots, splitArgs, splitArgs, hsame]
  rw [hcongr, readSlots_budget hlv hraw hn hn']

theorem trackedRun_trackRun {fuel} (hlv : lv.tag = 0) (hraw : Readable lv raw)
    (hopen : mayOpen limit₁ nest lv = true → mayOpen limit₂ nest lv = true)
    (hvisit : ∀ a, Pending lv a → Tracks limit₁ fuel (nest + 1) (resolveExpr · limit₂ (nest + 1)) a)
    (hidle : ∀ a, Pending lv a → ∀ g,
      Tracked (resolveExpr · limit₂ (nest + 1)) a (.untouched a) (some g)) :
    TrackedRun Fits Rebuilt (fun n raw => readRun (n + 1) limit₂ nest lv raw) raw
      (trackRun (fuel + 1) limit₁ nest lv raw) := by
  rw [trackRun]
  cases hmay : mayOpen limit₁ nest lv with
  | false => exact trackedRun_readRun_failed hlv hraw _
  | true =>
    simp only [readRun_open (hopen hmay)]
    cases hcuts : cutPasses lv (relevel lv raw) with
    | error f => exact trackedRun_unlexed _ hcuts
    | ok cuts =>
      have ht := tokens_of_cutPasses hlv hraw hcuts
      exact (trackedRun_trackTokens hlv ht hvisit hidle).lexed hlv hraw hcuts

theorem trackedRun_trackStatements {fuel} (hlv : lv.tag = 0) (hraw : Readable lv raw)
    (hopen : mayOpen limit₁ nest lv = true → mayOpen limit₂ nest lv = true)
    (hvisit : ∀ a, IsUnreadStmt lv a →
      Tracks limit₁ fuel (nest + 1) (resolveStmt · limit₂ (nest + 1)) a)
    (hidle : ∀ a, IsUnreadStmt lv a → ∀ g,
      Tracked (resolveStmt · limit₂ (nest + 1)) a (.untouched a) (some g)) :
    TrackedRun Fits Rebuilt (fun n raw => readStatements (n + 2) limit₂ nest lv raw) raw
      (trackStatements (fuel + 1) limit₁ nest lv raw) := by
  rw [trackStatements]
  cases hmay : mayOpen limit₁ nest lv with
  | false => exact trackedRun_readStatements_failed hlv hraw _
  | true =>
    simp only [readStatements_open (hopen hmay)]
    cases hcuts : cutPasses lv (relevel lv raw) with
    | error f => exact trackedRun_unlexed _ hcuts
    | ok cuts =>
      have ht := tokens_of_cutPasses hlv hraw hcuts
      have hlexed := (trackedRun_statements ht hvisit hidle).lexed hlv hraw hcuts
      simp only [Bool.not_true, Bool.false_eq_true, if_false]
      cases hv : visitAll (track fuel limit₁ (nest + 1)) (splitStatements lv (tokensOf cuts)) with
      | mk os f =>
        rw [hv] at hlexed
        cases f <;> exact hlexed

end

/-! ## Steps of an attempt -/

section
variable {limit limit₁ limit₂ : Int64} {fuel nest : Nat} {lv : Level} {a : Atom} {raw : List Atom}

/-- An attempt with some budget is tracked, whatever it visits. -/
structure TracksAt (limit₁ limit₂ : Int64) (fuel : Nat) : Prop where
  expr : ∀ {nest lv a}, lv.tag = 0 → Pending lv a →
    Tracks limit₁ fuel nest (resolveExpr · limit₂ nest) a
  item : ∀ {nest lv raw}, lv.tag = 0 → Tokens lv raw →
    Tracks limit₁ fuel nest (resolveExpr · limit₂ nest) (.item lv raw false [])
  clause : ∀ {nest lv a}, lv.tag = 0 → IsClause lv a →
    Tracks limit₁ fuel nest (resolveExpr · limit₂ nest) a
  stmt : ∀ {nest lv a}, lv.tag = 0 → IsUnreadStmt lv a →
    Tracks limit₁ fuel nest (resolveStmt · limit₂ nest) a
  run : ∀ {nest lv raw}, lv.tag = 0 → Readable lv raw →
    TrackedRun Fits Rebuilt (fun n raw => readRun (n + 1) limit₂ nest lv raw) raw
      (trackRun fuel limit₁ nest lv raw)
  levels : ∀ {nest lv raw}, lv.tag = 0 → Tokens lv raw →
    SameLevels (trackRun fuel limit₁ nest lv raw).nows raw
  statements : ∀ {nest lv raw}, lv.tag = 0 → RawRun raw →
    TrackedRun Fits Rebuilt (fun n raw => readStatements (n + 2) limit₂ nest lv raw) raw
      (trackStatements fuel limit₁ nest lv raw)

/-! Atoms that are not visited. -/

theorem Pending.idle (hlv : lv.tag = 0) (h : Pending lv a) (g : ReadFault) :
    Tracked (resolveExpr · limit nest) a (.untouched a) (some g) :=
  .untouched g (resolveExpr_budget hlv h)

theorem Tokens.item_idle (hlv : lv.tag = 0) (h : Tokens lv raw) (g : ReadFault) :
    Tracked (resolveExpr · limit nest) (.item lv raw false [])
      (.untouched (.item lv raw false [])) (some g) :=
  .untouched g (resolveItem_budget hlv h)

theorem IsClause.idle (hlv : lv.tag = 0) (h : IsClause lv a) (g : ReadFault) :
    Tracked (resolveExpr · limit nest) a (.untouched a) (some g) :=
  .untouched g (resolveClause_budget hlv h)

theorem IsUnreadStmt.idle (hlv : lv.tag = 0) (h : IsUnreadStmt lv a) (g : ReadFault) :
    Tracked (resolveStmt · limit nest) a (.untouched a) (some g) :=
  .untouched g (resolveStmt_budget hlv h)

theorem body_idle {lv'} (hlv' : lv'.tag = 0) (hraw : RawRun raw) (g : ReadFault) :
    Tracked (readBody limit nest lv') (.block lv raw false []) (.untouched (.block lv raw false []))
      (some g) := by
  refine .untouched g fun {n n'} hn hn' => ?_
  rw [weight] at hn hn'
  have hsame : readStatements n' limit nest lv' raw = readStatements n limit nest lv' raw :=
    readStatements_budget hlv' (.raw hraw) (by omega) (by omega)
  simp only [readBody, hsame]

theorem tracksAt_zero (limit₁ limit₂ : Int64) : TracksAt limit₁ limit₂ 0 where
  expr hlv h := by
    rw [Tracks, track_zero]
    exact h.idle hlv _
  item hlv h := by
    rw [Tracks, track_zero]
    exact h.item_idle hlv _
  clause hlv h := by
    rw [Tracks, track_zero]
    exact h.idle hlv _
  stmt hlv h := by
    rw [Tracks, track_zero]
    exact h.idle hlv _
  run hlv h := by
    rw [trackRun_zero]
    exact trackedRun_readRun_failed hlv h _
  levels hlv h := by
    rw [trackRun_zero]
    exact congrArg (List.map level) (map_now_untouchedRun _)
  statements hlv h := by
    rw [trackStatements_zero]
    exact trackedRun_readStatements_failed hlv (.raw h) _

/-! Atoms that are visited with one step more. -/

namespace TracksAt
variable (ih : TracksAt limit₁ limit₂ fuel)
include ih

theorem slots (hlv : lv.tag = 0) (hraw : RawRun raw) :
    TrackedRun Fits Rebuilt (readSlots limit₂ nest lv) raw
      (trackSlots (track fuel limit₁ nest) lv raw).toRun :=
  trackedRun_trackSlots hlv hraw (fun _ ht => ih.item hlv ht) fun _ ht => ht.item_idle hlv

theorem bracket (pair : Bracket) (hraw : RawRun raw) :
    Tracks limit₁ (fuel + 1) nest (resolveExpr · limit₂ nest) (pair.atom lv raw) := by
  cases pair with
  | brace =>
    rw [Tracks, Bracket.atom, track]
    refine @tracked_bracket _ (.block lv raw false []) (.block lv [] true) _ _ 3 rfl
      (fun _ => ⟨rfl, rfl, rfl⟩) (fun n out => by rw [resolveExpr]; rfl) ⟨fun raw => ?_, fun n raw => ?_⟩
      (ih.statements rfl hraw)
    · rw [withRaw, weight]
    · rw [withRaw, resolveExpr]
      rfl
  | square =>
    have htrack : track (fuel + 1) limit₁ nest (.list lv raw false []) =
        settle (trackSlots (track fuel limit₁ nest) lv.enter raw).toRun (.list lv [] true)
          (.list lv · false []) := by
      rw [track]
      cases hf : (trackSlots (track fuel limit₁ nest) lv.enter raw).fault <;>
        simp only [SlotOutcome.toRun, settle, RunOutcome.nows, hf]
    rw [Tracks, Bracket.atom, htrack]
    refine @tracked_bracket _ (.list lv raw false []) (.list lv [] true) _ _ 4 rfl
      (fun _ => ⟨rfl, rfl, rfl⟩) (fun n out => by rw [resolveExpr]; rfl) ⟨fun raw => ?_, fun n raw => ?_⟩
      (ih.slots rfl hraw)
    · rw [withRaw, weight]
    · rw [withRaw, resolveExpr, readSlots]
      cases splitArgs lv.enter raw <;> rfl
  | round =>
    rw [Tracks, Bracket.atom, track]
    refine @tracked_bracket _ (.paren lv raw false []) (.paren lv [] true) _ _ 3 rfl
      (fun _ => ⟨rfl, rfl, rfl⟩) (fun n out => by rw [resolveExpr]; rfl) ⟨fun raw => ?_, fun n raw => ?_⟩
      ((ih.run rfl (.raw hraw)).more 1)
    · rw [withRaw, weight]
    · rw [withRaw, resolveExpr]
      rfl

theorem body {lv'} (hlv' : lv'.tag = 0) (hraw : RawRun raw) :
    let v := settle (trackStatements fuel limit₁ nest lv' raw) (.block lv [] true) (.block lv · false [])
    Tracked (readBody limit₂ nest lv') (.block lv raw false []) v.1 v.2 := by
  refine @tracked_bracket _ (.block lv raw false []) (.block lv [] true) _ _ 3 rfl
    (fun _ => ⟨rfl, rfl, rfl⟩) (fun _ _ => rfl) ⟨fun raw => ?_, fun n raw => rfl⟩
    ((ih.statements hlv' hraw).more 1)
  rw [withRaw, weight]

variable (hlv : lv.tag = 0)
include hlv

theorem applied {unread done} (h : Applies lv unread done) {callee} (hcall : callee.isCallable = true)
    (hc : IsToken lv callee) (hraw : RawRun raw)
    (hfailed : ∀ o f, track fuel limit₁ nest callee = (o, some f) →
      track (fuel + 1) limit₁ nest (unread callee raw) =
        (.mk (unread o.now raw) (untouchedRun raw) [o], some f))
    (happlied : ∀ o, track fuel limit₁ nest callee = (o, none) →
      ∃ now, let s := trackSlots (track fuel limit₁ nest) lv.enter raw
        track (fuel + 1) limit₁ nest (unread callee raw) = (.mk now s.left [o], s.fault) ∧
          now.level = lv ∧ (s.fault = none → now = done o.now ((s.items.getD []).map Outcome.now))) :
    Tracks limit₁ (fuel + 1) nest (resolveExpr · limit₂ nest) (unread callee raw) := by
  have hcallee := isOperator_of_isCallable hcall
  have hvisit : Tracks limit₁ fuel nest (resolveExpr · limit₂ nest) callee :=
    ih.expr hlv (hc.pending_callee hcall)
  rw [Tracks] at hvisit ⊢
  cases hv : track fuel limit₁ nest callee with
  | mk o f =>
    rw [hv] at hvisit
    cases f with
    | some f =>
      rw [hfailed o f hv]
      exact tracked_applied h hcallee rfl rfl (h.level _ _) hvisit
        (trackedRun_readSlots_failed rfl hraw f) fun h => (by cases h)
    | none =>
      obtain ⟨now, htrack, hlevel, hnow⟩ := happlied o hv
      rw [htrack]
      refine tracked_applied h hcallee rfl rfl hlevel hvisit (ih.slots rfl hraw)
        fun hf => ⟨rfl, _, ?_, hnow hf⟩
      have hf : (trackSlots (track fuel limit₁ nest) lv.enter raw).fault = none := hf
      simp only [SlotOutcome.toRun, hf]

theorem call {callee} (hcall : callee.isCallable = true) (hc : IsToken lv callee)
    (hraw : RawRun raw) : Tracks limit₁ (fuel + 1) nest (resolveExpr · limit₂ nest)
      (.call lv callee raw false false []) := by
  refine ih.applied hlv (applies_call lv) hcall hc hraw (fun o f hv => ?_) fun o hv => ?_
  · simp only [track, hv]
    rfl
  · simp only [track, hv, isOperator_of_isCallable hcall, Bool.false_eq_true, if_false]
    refine ⟨_, rfl, ?_, fun hf => by simp only [hf]⟩
    cases (trackSlots (track fuel limit₁ nest) lv.enter raw).fault <;>
      cases (trackSlots (track fuel limit₁ nest) lv.enter raw).items <;> rfl

theorem access {callee} (hcall : callee.isCallable = true) (hc : IsToken lv callee)
    (hraw : RawRun raw) : Tracks limit₁ (fuel + 1) nest (resolveExpr · limit₂ nest)
      (.access lv callee raw false []) := by
  refine ih.applied hlv (applies_access lv) hcall hc hraw (fun o f hv => ?_) fun o hv => ?_
  · simp only [track, hv]
  · simp only [track, hv]
    refine ⟨_, rfl, ?_, fun hf => by simp only [hf]⟩
    cases (trackSlots (track fuel limit₁ nest) lv.enter raw).fault <;> rfl

theorem operation {op left right} (hl : Tokens lv left) (hr : Tokens lv right) :
    Tracks limit₁ (fuel + 1) nest (resolveExpr · limit₂ nest)
      (operation lv (.operator lv op) left right) := by
  have hitem : ∀ a ∈ [Atom.item lv left false [], .item lv right false []],
      ∃ raw, Tokens lv raw ∧ a = .item lv raw false [] := by
    intro a ha
    rcases mem_pair.1 ha with rfl | rfl
    · exact ⟨left, hl, rfl⟩
    · exact ⟨right, hr, rfl⟩
  have hidle : ∀ a ∈ [Atom.item lv left false [], .item lv right false []], ∀ g,
      Tracked (resolveExpr · limit₂ nest) a (.untouched a) (some g) := by
    intro a ha g
    obtain ⟨raw, ht, rfl⟩ := hitem a ha
    exact ht.item_idle hlv g
  rw [Tracks, WatScript.operation, track]
  cases fuel with
  | zero =>
    rw [track_zero]
    exact tracked_operation rfl rfl rfl (trackedAll_untouched hidle _) fun h => (by cases h)
  | succ fuel =>
    have hall : TrackedAll (resolveExpr · limit₂ nest)
        [.item lv left false [], .item lv right false []]
        (visitAll (track (fuel + 1) limit₁ nest) [.item lv left false [], .item lv right false []]).1
        (visitAll (track (fuel + 1) limit₁ nest) [.item lv left false [], .item lv right false []]).2 := by
      refine trackedAll_visitAll (fun a ha => ?_) hidle
      obtain ⟨raw, ht, rfl⟩ := hitem a ha
      exact ih.item hlv ht
    rw [track]
    simp only [isOperator, if_true, now_untouched]
    refine tracked_operation rfl rfl ?_ hall fun h => ?_
    · cases (visitAll (track (fuel + 1) limit₁ nest)
        [.item lv left false [], .item lv right false []]).2 <;> rfl
    · simp only [h]
      rfl

theorem clause_of_parts (name : String) {cond} (hcond : ∀ a ∈ cond.toList, Pending lv a)
    (hraw : RawRun raw) : Tracks limit₁ (fuel + 1) nest (resolveExpr · limit₂ nest)
      (.clause lv name cond (.block lv raw false [])) := by
  have hc : TrackedAll (resolveExpr · limit₂ nest) cond.toList
      (visitAll (track fuel limit₁ nest) cond.toList).1 (visitAll (track fuel limit₁ nest) cond.toList).2 :=
    trackedAll_visitAll (fun a ha => ih.expr hlv (hcond a ha)) fun a ha => (hcond a ha).idle hlv
  rw [Tracks, track]
  cases hv : visitAll (track fuel limit₁ nest) cond.toList with
  | mk conds f =>
    rw [hv] at hc
    cases f with
    | some g =>
      exact tracked_clause rfl rfl rfl hc (body_idle (tag_bodyLevel ..) hraw g) fun h => (by cases h)
    | none =>
      refine tracked_clause rfl rfl rfl hc (ih.body (tag_bodyLevel ..) hraw) fun h => ⟨rfl, h, ?_⟩
      rw [head?_map]
      rfl

theorem clause_succ (h : IsClause lv a) :
    Tracks limit₁ (fuel + 1) nest (resolveExpr · limit₂ nest) a := by
  cases h with
  | @conditional name craw braw _ _ hc hb =>
    have hcond : Pending lv (.paren lv craw false []) := .part (@IsToken.bracket lv .round craw hc) rfl rfl
    exact ih.clause_of_parts hlv name (by simpa using hcond) hb
  | @unconditional name braw _ _ hb => exact ih.clause_of_parts hlv name (by simp) hb

theorem stmt_succ (h : IsUnreadStmt lv a) :
    Tracks limit₁ (fuel + 1) nest (resolveStmt · limit₂ nest) a := by
  rw [Tracks]
  cases h with
  | comment =>
    rw [track]
    exact tracked_self fun n => by rw [resolveStmt]
  | @exprs raw ht =>
    rw [track, Level.bare_of_untagged hlv]
    refine @tracked_row _ (.exprStmt lv raw false []) (.exprStmt lv [] true) _ _ 1 rfl (fun _ => rfl)
      ⟨fun raw => ?_, fun n raw => ?_⟩
      (trackedRun_trackTokens hlv ht (fun a ha => ih.expr hlv ha) fun a ha => ha.idle hlv)
    · rw [withRaw, weight]
    · rw [withRaw, resolveStmt, Level.bare_of_untagged hlv]
      cases structureRun lv raw <;> rfl
  | @control head raw _ ht =>
    rw [track, Level.bare_of_untagged hlv]
    refine @tracked_row _ (.controlStmt lv head raw false []) (.controlStmt lv head [] true) _ _ 1 rfl
      (fun _ => rfl) ⟨fun raw => ?_, fun n raw => ?_⟩
      (trackedRun_trackTokens hlv ht (fun a ha => ih.expr hlv ha) fun a ha => ha.idle hlv)
    · rw [withRaw, weight]
    · rw [withRaw, resolveStmt, Level.bare_of_untagged hlv]
      cases structureRun lv raw <;> rfl

theorem item_succ (ht : Tokens lv raw) :
    Tracks limit₁ (fuel + 1) nest (resolveExpr · limit₂ nest) (.item lv raw false []) := by
  rw [Tracks, track, Level.bare_of_untagged hlv]
  refine @tracked_row _ (.item lv raw false []) (.item lv [] true) _ _ 3 rfl (fun _ => rfl)
    ⟨fun raw => ?_, fun n raw => ?_⟩
    (((ih.run hlv (.tokens ht)).at_levels (ih.levels hlv ht)).more 1)
  · rw [withRaw, weight]
  · rw [withRaw, resolveExpr, Level.bare_of_untagged hlv]
    rfl

theorem expr_succ (h : Pending lv a) :
    Tracks limit₁ (fuel + 1) nest (resolveExpr · limit₂ nest) a := by
  cases h with
  | part ht hv ho =>
    cases ht with
    | separator | comment => cases hv
    | operator => cases ho
    | literal | word =>
      rw [Tracks, track]
      exact tracked_self fun n => by rw [resolveExpr]
    | @bracket pair raw hraw => exact ih.bracket pair hraw
    | call hcall hc hraw => exact ih.call hlv hcall hc hraw
    | access hcall hc hraw => exact ih.access hlv hcall hc hraw
    | @chain clauses hc _ =>
      rw [Tracks, track]
      exact tracked_chain rfl rfl rfl
        (trackedAll_visitAll (fun a ha => ih.clause hlv (hc a ha)) fun a ha => (hc a ha).idle hlv)
  | operation _ hl hr => exact ih.operation hlv hl hr

theorem levels_succ (ht : Tokens lv raw) :
    SameLevels (trackRun (fuel + 1) limit₁ nest lv raw).nows raw := by
  rw [trackRun]
  cases hmay : mayOpen limit₁ nest lv with
  | false => exact congrArg (List.map level) (map_now_untouchedRun _)
  | true =>
    obtain ⟨cuts, hcuts, htokens, hrestore⟩ := ht.cutPasses_eq hlv
    have hfits : Forall₂ FitsAt raw (trackTokens (track fuel limit₁ (nest + 1)) lv raw).left :=
      (trackedRun_trackTokens hlv ht (fun a ha => ih.expr hlv ha) fun a ha => ha.idle hlv).fits
    simp only [Bool.not_true, Bool.false_eq_true, if_false, hcuts, htokens, RunOutcome.nows]
    rw [hrestore _ hfits.length_eq]
    exact (fitsAt_iff.1 hfits).2

end TracksAt

/-- One step more. -/
theorem tracksAt_succ (hlimit : NoStricter limit₁ limit₂) (ih : TracksAt limit₁ limit₂ fuel) :
    TracksAt limit₁ limit₂ (fuel + 1) where
  expr := ih.expr_succ
  item := ih.item_succ
  clause := ih.clause_succ
  stmt := ih.stmt_succ
  run hlv hraw := trackedRun_trackRun hlv hraw (hlimit _ _) (fun _ h => ih.expr hlv h)
    fun _ h => h.idle hlv
  levels := ih.levels_succ
  statements hlv hraw := trackedRun_trackStatements hlv (.raw hraw) (hlimit _ _)
    (fun _ h => ih.stmt hlv h) fun _ h => h.idle hlv

/-- All steps of an attempt. -/
theorem tracksAt (hlimit : NoStricter limit₁ limit₂) (fuel : Nat) : TracksAt limit₁ limit₂ fuel := by
  induction fuel with
  | zero => exact tracksAt_zero limit₁ limit₂
  | succ fuel ih => exact tracksAt_succ hlimit ih

end

/-! ## What a source text is made of -/

section
variable {lv : Level} {run out : List Atom} {text : Text}

theorem isBasic_of_grouped {pair} (h : Grouped pair lv run out) (hrun : ∀ a ∈ run, IsBasic a) :
    ∀ a ∈ out, IsBasic a := by
  refine h.all hrun fun raw hraw => .bracket (by cases pair <;> rfl) fun a ha => ?_
  rw [Bracket.raw_atom] at ha
  exact hrun a (hraw.subset ha)

theorem isBasic_of_tokens (hrun : ∀ a ∈ run, IsBasic a)
    (h : (groupBrackets lv run >>= tokenize lv) = .ok out) : ∀ a ∈ out, IsBasic a := by
  obtain ⟨grouped, hgroup, htoks⟩ := bind_ok h
  obtain ⟨r₁, r₂, h₁, h₂, h₃⟩ := groupBrackets_ok hgroup
  have hgrouped := isBasic_of_grouped h₃ (isBasic_of_grouped h₂ (isBasic_of_grouped h₁ hrun))
  have hends := tokenize_ends lv grouped
  rw [htoks] at hends
  intro a ha
  rcases hends a ha with ⟨hm, -⟩ | hx
  · exact hgrouped a hm
  · cases hx <;> exact .leaf rfl

theorem scan_tokens (hlv : lv.tag = 0) (h : scan lv text = .ok out) :
    Tokens lv out ∧ ∀ a ∈ out, IsBasic a := by
  obtain ⟨raw, hraw, hout⟩ := bind_ok h
  have htext := extractLiterals_explode lv text
  rw [hraw] at htext
  have hisRaw : ∀ a ∈ raw, IsRaw a ∧ a.level = lv := fun a ha =>
    ⟨.text (htext a ha).1 (by rw [(htext a ha).2, hlv]), (htext a ha).2⟩
  have htokens := tokens_of_literalFree hlv (literalFree_extractLiterals hraw) hisRaw
  rw [hout] at htokens
  exact ⟨htokens, isBasic_of_tokens (fun a ha => (hisRaw a ha).1.isBasic) hout⟩

theorem mem_of_mem_statementAtoms {a isStart} (h : a ∈ statementAtoms isStart run) : a ∈ run := by
  fun_induction statementAtoms isStart run with
  | case1 => exact h
  | case2 _ _ _ _ ih => exact mem_cons_of_mem _ (ih h)
  | case3 _ _ _ _ ih =>
    rcases mem_cons.1 h with rfl | h
    · exact mem_cons_self
    · exact mem_cons_of_mem _ (ih h)

theorem mem_of_mem_statement {a x} (ha : a ∈ splitStatements lv run) (hx : x ∈ a.raw) : x ∈ run := by
  have hmem : x ∈ (splitStatements lv run).flatMap raw := mem_flatMap.2 ⟨a, ha, hx⟩
  rw [splitStatements, raws_splitStatementsFrom lv (forall_mem_nil _)] at hmem
  exact mem_of_mem_statementAtoms hmem

end

/-! ## The second attempt -/

section
variable {limit limit₁ limit₂ : Int64} {fuel nest : Nat} {lv : Level} {a a' : Atom} {f : ReadFault}

theorem attempt_failed (h : a.attempt limit = (a', some f)) :
    a.resolve limit = .error f ∧ a' = (track (a.weight + 4) limit 0 a).1.now := by
  rw [attempt] at h
  cases hr : a.resolve limit with
  | ok b =>
    rw [hr] at h
    cases h
  | error g =>
    rw [hr] at h
    cases h
    exact ⟨rfl, rfl⟩

theorem resolve_leaf (ha : a.isLeaf = true) : a.resolve limit = .ok a := by
  cases a with
  | unknown | literal | comment | word | operator =>
    show resolveExpr (_ + 4) limit 0 _ = _
    rw [resolveExpr]
  | _ => cases ha

theorem resolve_of_face {pair : Bracket} {raw : List Atom} (h : a.face = (pair.atom lv raw).face) :
    a.resolve limit = resolveExpr (a.weight + 4) limit 0 a := by
  cases pair <;> cases a <;> first | rfl | (simp [Bracket.atom, face] at h)

theorem resolve_bracket_again (hlimit : NoStricter limit₁ limit₂) {pair : Bracket} {raw : List Atom}
    (hlv : lv.tag = 0) (hraw : RawRun raw) (hfail : (pair.atom lv raw).attempt limit₁ = (a', some f)) :
    a'.resolve limit₂ = (pair.atom lv raw).resolve limit₂ := by
  obtain ⟨-, rfl⟩ := attempt_failed hfail
  have hpending : Pending lv (pair.atom lv raw) :=
    .part (.bracket hraw) (by cases pair <;> rfl) (by cases pair <;> rfl)
  have hbasic : IsBasic (pair.atom lv raw) :=
    .bracket (by cases pair <;> rfl) fun x hx => (hraw.isRaw x (by simpa using hx)).isBasic
  have h : Tracks limit₁ _ 0 (resolveExpr · limit₂ 0) (pair.atom lv raw) :=
    (tracksAt hlimit ((pair.atom lv raw).weight + 4)).expr hlv hpending
  rw [Tracks] at h
  have hnow := Fits.rebuilt_now hbasic _ h.fits.fits
  rw [resolve_of_face hnow.face_eq, resolve_of_face rfl]
  exact h.again ⟨hnow, h.fits.level⟩ (by omega) (by omega)

theorem track_statement (ha : IsUnreadStmt lv a) (hrow : a.isUnreadRow = true)
    (h : (track (fuel + 1) limit nest a).2 ≠ none) : (track (fuel + 1) limit nest a).1.now =
      a.withRaw ((track (fuel + 1) limit nest a).1.run.map Outcome.now) := by
  have hsettle : ∀ (r : RunOutcome) (done kept : List Atom → Atom), (settle r done kept).2 ≠ none →
      (settle r done kept).1.now = kept ((settle r done kept).1.run.map Outcome.now) := by
    intro r done kept h
    cases hr : r.result with
    | ok out =>
      rw [settle_ok hr] at h
      exact absurd rfl h
    | error f =>
      rw [settle_error hr]
      rfl
  cases ha with
  | comment => cases hrow
  | exprs | control =>
    rw [track] at h ⊢
    exact hsettle _ _ _ h

theorem resolve_statement (ha : a.isUnreadRow = true) (hstmt : IsUnreadStmt lv a) (raw : List Atom) :
    (a.withRaw raw).resolve limit = resolveStmt ((a.withRaw raw).weight + 4) limit 0 (a.withRaw raw) := by
  cases hstmt with
  | comment => cases ha
  | exprs | control => rfl

theorem resolve_statement_again (hlimit : NoStricter limit₁ limit₂) (hlv : lv.tag = 0)
    (hstmt : IsUnreadStmt lv a) (hrow : a.isUnreadRow = true) (hraw : ∀ x ∈ a.raw, IsBasic x)
    (hfail : a.attempt limit₁ = (a', some f)) : a'.resolve limit₂ = a.resolve limit₂ := by
  obtain ⟨herror, rfl⟩ := attempt_failed hfail
  have hself : ∀ limit, a.resolve limit = resolveStmt (a.weight + 4) limit 0 a := by
    intro limit
    have heq := @resolve_statement limit lv a hrow hstmt a.raw
    rwa [a.withRaw_raw] at heq
  -- the first attempt has failed, so it tracks a failure
  have hfault : (track (a.weight + 4) limit₁ 0 a).2 ≠ none := by
    intro hnone
    have hfirst : Tracks limit₁ _ 0 (resolveStmt · limit₁ 0) a :=
      (tracksAt (noStricter_refl limit₁) (a.weight + 4)).stmt hlv hstmt
    have hok := hfirst.finished (n := a.weight + 4) hnone (by omega)
    rw [hself, hok] at herror
    cases herror
  have h : Tracks limit₁ _ 0 (resolveStmt · limit₂ 0) a :=
    (tracksAt hlimit (a.weight + 4)).stmt hlv hstmt
  rw [Tracks] at h
  have hnow := track_statement hstmt hrow hfault
  obtain ⟨hfits, hl⟩ := fitsAt_iff.1 (h.fits.fits.row hrow)
  have hrebuilt : Rebuilt a (track (a.weight + 4) limit₁ 0 a).1 (track (a.weight + 4) limit₁ 0 a).1.now := by
    rw [hnow]
    exact .of_run h.fits.fits (parts_of_isUnreadRow hrow)
      (rebuilt_nows hfits fun x hx => Fits.rebuilt_now (hraw x hx)) (.inl hl)
  have hagain := h.again ⟨hrebuilt, h.fits.level⟩ (n := a.weight + 4) (by omega) (Nat.le_add_right _ 4)
  rw [hself, ← hagain, hnow]
  exact resolve_statement hrow hstmt _

/-- An attempt that has failed can be followed by another one, under a limit that allows as much: the
second attempt ends as it would have without the first. -/
theorem failed_resolution_can_be_retried {depth loops : Int64} {text : Text} {atoms : List Atom}
    (hscan : scan (.nested depth loops) text = .ok atoms)
    (ha : a ∈ atoms ∨ a ∈ splitStatements (.nested depth loops) atoms)
    (hlimit : NoStricter limit₁ limit₂) (hfail : a.attempt limit₁ = (a', some f)) :
    a'.resolve limit₂ = a.resolve limit₂ := by
  obtain ⟨htokens, hbasic⟩ := scan_tokens rfl hscan
  have hleaf : a.isLeaf ≠ true := by
    intro hl
    have herror := (attempt_failed hfail).1
    rw [resolve_leaf hl] at herror
    cases herror
  rcases ha with ha | ha
  · have htoken := htokens a ha
    cases htoken with
    | separator | literal | comment | word | operator => exact absurd rfl hleaf
    | bracket hraw => exact resolve_bracket_again hlimit rfl hraw hfail
    | call | access | chain =>
      cases hbasic _ ha with
      | leaf hl | bracket hl => cases hl
  · have hstmt := splitStatements_statements htokens a ha
    have hrow : a.isUnreadRow = true := by
      cases hstmt with
      | comment => exact absurd rfl hleaf
      | exprs | control => rfl
    exact resolve_statement_again hlimit rfl hstmt hrow
      (fun x hx => hbasic x (mem_of_mem_statement ha hx)) hfail

end

/-- The first attempt resolves the block and fails in the parentheses, the second one resolves both. -/
theorem failed_resolution_can_be_retried_deeper :
    ∃ a a' b rest, scan .top (.ofString "({a}((b)))") = .ok [a] ∧
      a.attempt 2 = (a', some .nestingTooDeep) ∧ a'.raw = b :: rest ∧ b.isLeaf = false ∧ b.settled = true ∧
      NoStricter 2 3 ∧ a'.resolve 3 = a.resolve 3 ∧ (a.resolve 3).isOk = true := by
  have hview : (scan .top (.ofString "({a}((b)))")).map (fun atoms => atoms.map fun a =>
      ((a.attempt 2).2, (a.attempt 2).1.raw.head?.map (fun b => (b.isLeaf, b.settled)), (a.resolve 3).isOk)) =
      .ok [(some .nestingTooDeep, some (false, true), true)] := by
    decide +kernel
  obtain ⟨atoms, hscan, hatoms⟩ := map_ok hview
  obtain ⟨a, rfl, ha⟩ := List.map_eq_singleton_iff.1 hatoms
  obtain ⟨hfault, hhead, hok⟩ : (a.attempt 2).2 = some .nestingTooDeep ∧ _ ∧ _ := by
    simpa only [Prod.mk.injEq] using ha
  obtain ⟨b, hb, hview⟩ := Option.map_eq_some_iff.1 hhead
  obtain ⟨rest, hraw⟩ := List.head?_eq_some_iff.1 hb
  obtain ⟨hleaf, hsettled⟩ := Prod.mk.inj hview
  have hlimit : NoStricter 2 3 :=
    noStricter_of_le (by decide) (by decide) (by decide)
  have hattempt : a.attempt 2 = ((a.attempt 2).1, some .nestingTooDeep) := by rw [← hfault]
  exact ⟨a, _, b, rest, hscan, hattempt, hraw, hleaf, hsettled, hlimit,
    failed_resolution_can_be_retried hscan (.inl List.mem_cons_self) hlimit hattempt, hok⟩

end WatScript
