import WatScript.Proofs.RebuiltStructure

/-!
# Cutting a run again

An argument run is cut into slots and a block into statements; both are rows that hold a stretch of the
run unread (`rowGrouping`). A run that is rebuilt is cut at the same places, so its slots
(`slots_rebuilt`) and its statements (`statements_rebuilt`) are rebuilt too. Separators, comments and the
words that head statements stand in no row; an attempt leaves them as they are.
-/

namespace WatScript

open List Atom

/-! ## Rows -/

/-- Rows of one kind that hold as much. -/
inductive LikeRow : Atom → Atom → Prop
  | leaf {a} : a.isLeaf = true → LikeRow a a
  | row {a raw} : a.isUnreadRow = true → raw.length = a.raw.length → LikeRow a (a.withRaw raw)

/-- Items and statements are cut from a run. -/
def rowGrouping : Grouping Atom where
  source := raw
  atom := id
  restore _ := Outcome.run
  Proper a := a.isLeaf = true ∨ a.isUnreadRow = true
  Like := LikeRow
  length_source h := by
    cases h with
    | leaf => rfl
    | row _ hlen => rw [raw_withRaw hlen, hlen]
  fits {a o} ha h := by
    rcases ha with ha | ha
    · rw [raw_of_isLeaf ha, h.fits.run_nil (raw_of_isLeaf ha)]
      exact .nil
    · exact h.fits.row ha
  rebuilt {a b o} _ hlike hfits h := by
    cases hlike with
    | leaf ha => exact ⟨hfits.fits.rebuilt_leaf ha, rfl⟩
    | row ha hlen =>
      rw [raw_withRaw hlen] at h
      obtain ⟨hraw, hl⟩ := rebuiltAt_iff.1 h
      refine ⟨.of_run hfits.fits (parts_of_isUnreadRow ha) hraw (.inl hl), ?_⟩
      cases a <;> rfl

theorem restoreAll_rows {rows os} (h : rows.length = os.length) :
    rowGrouping.restoreAll rows os = os.flatMap Outcome.run := by
  induction rows generalizing os with
  | nil =>
    cases length_eq_zero_iff.1 h.symm
    rfl
  | cons a rows ih =>
    cases os with
    | nil => cases h
    | cons o os =>
      rw [flatMap_cons, ← ih (Nat.succ.inj h)]
      rfl

section
variable {lv : Level} {run run' rows rows' : List Atom} {os : List Outcome}

theorem fits_rows (hproper : ∀ a ∈ rows, a.isLeaf = true ∨ a.isUnreadRow = true)
    (h : Forall₂ FitsAt rows os) : Forall₂ FitsAt (rows.flatMap raw) (os.flatMap Outcome.run) := by
  rw [← restoreAll_rows h.length_eq]
  exact rowGrouping.fits_all hproper (by rw [show rows.map rowGrouping.atom = rows from map_id _]; exact h)

theorem rebuilt_rows (hlike : Forall₂ LikeRow rows rows')
    (hproper : ∀ a ∈ rows, a.isLeaf = true ∨ a.isUnreadRow = true) (hfits : Forall₂ FitsAt rows os)
    (h : Forall₃ RebuiltAt (rows.flatMap raw) (os.flatMap Outcome.run) (rows'.flatMap raw)) :
    Forall₃ RebuiltAt rows os rows' := by
  have hid : ∀ rows : List Atom, rows.map rowGrouping.atom = rows := fun rows => map_id rows
  rw [← restoreAll_rows hfits.length_eq] at h
  have := rowGrouping.rebuilt_all hlike hproper (by rw [hid]; exact hfits) h
  rwa [hid, hid] at this

/-! ## Slots -/

theorem isComma_of_face {a b} (h : b.face = a.face) : isComma b = isComma a :=
  eq_of_face (fun c => by cases c <;> rfl) h

theorem slotsFrom_comma {a} (h : isComma a = true) (held : List Atom) :
    slotsFrom lv held (a :: run) = .item lv held.reverse false [] :: slotsFrom lv [] run := by
  cases a with
  | unknown l c =>
    have hc : (c == ',') = true := h
    rw [slotsFrom, if_pos hc]
  | _ => cases h

theorem slotsFrom_other {a} (h : isComma a = false) (held : List Atom) :
    slotsFrom lv held (a :: run) = slotsFrom lv (a :: held) run := by
  cases a with
  | unknown l c =>
    have hc : ¬ (c == ',') = true := by simpa [isComma] using h
    rw [slotsFrom, if_neg hc]
  | _ => rw [slotsFrom]; simp

theorem raws_slotsFrom (lv : Level) (held run : List Atom) :
    (slotsFrom lv held run).flatMap raw = held.reverse ++ run.filter (!isComma ·) := by
  induction run generalizing held with
  | nil => cases held <;> simp [slotsFrom, raw]
  | cons a run ih =>
    cases ha : isComma a with
    | true =>
      rw [slotsFrom_comma ha, flatMap_cons, ih, filter_cons_of_neg (by simp [ha])]
      rfl
    | false =>
      rw [slotsFrom_other ha, ih, filter_cons_of_pos (by simp [ha]), reverse_cons,
        append_assoc]
      rfl

theorem slotsFrom_like {held held'} (hheld : held'.length = held.length) (h : SameFaces run' run) :
    Forall₂ LikeRow (slotsFrom lv held run) (slotsFrom lv held' run') := by
  have hitem : ∀ {held held' : List Atom}, held'.length = held.length →
      LikeRow (.item lv held.reverse false []) (.item lv held'.reverse false []) :=
    fun hlen => .row rfl (by simpa [raw] using hlen)
  induction h using SameFaces.induction generalizing held held' with
  | nil =>
    cases held with
    | nil =>
      cases length_eq_zero_iff.1 hheld
      exact .nil
    | cons a held =>
      cases held' with
      | nil => cases hheld
      | cons b held' => exact .cons (hitem hheld) .nil
  | @cons b a _ _ hb _ ih =>
    cases ha : isComma a with
    | true =>
      rw [slotsFrom_comma ha, slotsFrom_comma ((isComma_of_face hb).trans ha)]
      exact .cons (hitem hheld) (ih rfl)
    | false =>
      rw [slotsFrom_other ha, slotsFrom_other ((isComma_of_face hb).trans ha)]
      exact ih (by simp [hheld])

theorem proper_slots (ht : Tokens lv run) :
    ∀ a ∈ slots lv run, a.isLeaf = true ∨ a.isUnreadRow = true := by
  intro a ha
  obtain ⟨raw, -, rfl⟩ := slots_items ht a ha
  exact .inr rfl

theorem fits_restoreSlots (ht : Tokens lv run) (h : Forall₂ FitsAt (slots lv run) os) :
    Forall₂ FitsAt run (restoreFiltered isComma run (os.flatMap Outcome.run)) := by
  have hrows := fits_rows (proper_slots ht) h
  rw [slots, raws_slotsFrom] at hrows
  exact fits_restoreFiltered hrows

/-- A lexed run that is rebuilt has slots that are rebuilt. -/
theorem slots_rebuilt (ht : Tokens lv run) (hfits : Forall₂ FitsAt (slots lv run) os)
    (hr : Forall₃ RebuiltAt run (restoreFiltered isComma run (os.flatMap Outcome.run)) run') :
    Forall₃ RebuiltAt (slots lv run) os (slots lv run') := by
  have hraws := fits_rows (proper_slots ht) hfits
  rw [slots, raws_slotsFrom] at hraws
  have hkept := rebuilt_restoreFiltered isComma_of_face hraws.length_eq hr
  refine rebuilt_rows (slotsFrom_like rfl (Rebuilt.sameFaces (rebuiltAt_iff.1 hr).1)) (proper_slots ht)
    hfits ?_
  rw [slots, slots, raws_slotsFrom, raws_slotsFrom]
  exact hkept

end

/-! ## Statements -/

/-- The atom ends a statement. -/
def Atom.isSemicolon : Atom → Bool
  | .unknown _ c => c == ';'
  | _ => false

/-- The atom heads a control statement. -/
def Atom.isControlWord : Atom → Bool
  | .word _ w => Keyword.isControl w
  | _ => false

/-- The atom stands in no row. -/
def isOutside (isStart : Bool) (a : Atom) : Bool :=
  a.isComment || a.isSemicolon || (isStart && a.isControlWord)

/-- A statement starts behind the atom. -/
def startsAfter (isStart : Bool) (a : Atom) : Bool :=
  if a.isComment then isStart else a.isSemicolon

/-- The atoms that stand in rows. -/
def statementAtoms : Bool → List Atom → List Atom
  | _, [] => []
  | isStart, a :: rest =>
    if isOutside isStart a then statementAtoms (startsAfter isStart a) rest
    else a :: statementAtoms (startsAfter isStart a) rest

section
variable {lv : Level} {run run' : List Atom} {os : List Outcome} {isStart : Bool}

theorem restoreStatementRuns_out {a} (h : isOutside isStart a = true) :
    restoreStatementRuns isStart (a :: run) os =
      .untouched a :: restoreStatementRuns (startsAfter isStart a) run os := by
  rw [restoreStatementRuns.eq_def]
  cases a with
  | unknown l c =>
    have hc : c = ';' := by simpa [isOutside, isComment, isSemicolon, isControlWord] using h
    subst hc
    rfl
  | word l w =>
    have hw : isStart = true ∧ Keyword.isControl w = true := by
      simpa [isOutside, isComment, isSemicolon, isControlWord] using h
    simp [hw, startsAfter, isComment, isSemicolon]
  | comment => rfl
  | _ => simp [isOutside, isComment, isSemicolon, isControlWord] at h

theorem restoreStatementRuns_in {a} (h : isOutside isStart a = false) (o : Outcome) :
    restoreStatementRuns isStart (a :: run) (o :: os) =
      o :: restoreStatementRuns (startsAfter isStart a) run os := by
  rw [restoreStatementRuns.eq_def]
  cases a with
  | unknown l c =>
    have hc : (c == ';') = false := by
      simpa [isOutside, isComment, isSemicolon, isControlWord] using h
    simp [hc, startsAfter, isComment, isSemicolon, beq_eq_false_iff_ne.1 hc]
  | word l w =>
    have hw : isStart = true → Keyword.isControl w = false := by
      simpa [isOutside, isComment, isSemicolon, isControlWord] using h
    cases isStart with
    | true => simp [hw rfl, startsAfter, isComment, isSemicolon]
    | false => simp [startsAfter, isComment, isSemicolon]
  | comment => simp [isOutside, isComment] at h
  | _ => rfl

theorem isOutside_of_face {a b} (h : b.face = a.face) : isOutside isStart b = isOutside isStart a :=
  eq_of_face (fun c => by cases c <;> rfl) h

theorem startsAfter_of_face {a b} (h : b.face = a.face) :
    startsAfter isStart b = startsAfter isStart a :=
  eq_of_face (fun c => by cases c <;> rfl) h

theorem fits_restoreStatementRuns (h : Forall₂ FitsAt (statementAtoms isStart run) os) :
    Forall₂ FitsAt run (restoreStatementRuns isStart run os) := by
  induction run generalizing isStart os with
  | nil => exact .nil
  | cons a run ih =>
    rw [statementAtoms] at h
    cases hout : isOutside isStart a with
    | true =>
      rw [if_pos hout] at h
      rw [restoreStatementRuns_out hout]
      exact .cons (fitsAt_untouched a) (ih h)
    | false =>
      rw [if_neg (by simp [hout])] at h
      cases h with
      | cons ho h =>
        rw [restoreStatementRuns_in hout]
        exact .cons ho (ih h)

theorem rebuilt_restoreStatementRuns (hlen : (statementAtoms isStart run).length = os.length)
    (h : Forall₃ RebuiltAt run (restoreStatementRuns isStart run os) run') :
    Forall₃ RebuiltAt (statementAtoms isStart run) os (statementAtoms isStart run') := by
  induction run generalizing isStart os run' with
  | nil =>
    cases h
    cases length_eq_zero_iff.1 hlen.symm
    exact .nil
  | cons a run ih =>
    rw [statementAtoms] at hlen ⊢
    by_cases hout : isOutside isStart a = true
    · rw [if_pos hout] at hlen ⊢
      rw [restoreStatementRuns_out hout] at h
      cases h with
      | cons hb h =>
        have hface := hb.rebuilt.face_eq
        rw [statementAtoms, isOutside_of_face hface, if_pos hout, startsAfter_of_face hface]
        exact ih hlen h
    · rw [if_neg hout] at hlen ⊢
      cases os with
      | nil => cases hlen
      | cons o os =>
        rw [restoreStatementRuns_in (Bool.not_eq_true _ ▸ hout)] at h
        cases h with
        | cons hb h =>
          have hface := hb.rebuilt.face_eq
          rw [statementAtoms, isOutside_of_face hface, if_neg hout, startsAfter_of_face hface]
          exact .cons hb (ih (Nat.succ.inj hlen) h)

theorem statementAtoms_semicolon {seg a} (ha : a.isSemicolon = true) :
    statementAtoms isStart (seg ++ a :: run) = statementAtoms isStart seg ++ statementAtoms true run := by
  induction seg generalizing isStart with
  | nil =>
    have hout : isOutside isStart a = true := by simp [isOutside, ha]
    have hstart : startsAfter isStart a = true := by
      cases a <;> first | exact ha | cases ha
    show statementAtoms isStart (a :: run) = statementAtoms true run
    rw [statementAtoms, if_pos hout, hstart]
  | cons b seg ih =>
    rw [cons_append, statementAtoms, statementAtoms]
    split
    · exact ih
    · rw [ih, cons_append]

theorem statementAtoms_inner (h : ∀ a ∈ run, a.isSemicolon = false) :
    statementAtoms false run = run.filter (!·.isComment) := by
  induction run with
  | nil => rfl
  | cons a run ih =>
    obtain ⟨ha, hrun⟩ := forall_mem_cons.1 h
    have hstart : startsAfter false a = false := by simp [startsAfter, ha]
    rw [statementAtoms, hstart, ih hrun, filter_cons]
    cases hc : a.isComment <;> simp [isOutside, ha, hc]

theorem raws_statementOf? (lv : Level) (h : ∀ a ∈ run, a.isSemicolon = false) :
    (statementOf? lv (run.filter (!·.isComment))).toList.flatMap raw = statementAtoms true run := by
  induction run with
  | nil => rfl
  | cons a run ih =>
    obtain ⟨ha, hrun⟩ := forall_mem_cons.1 h
    cases hc : a.isComment with
    | true =>
      have hstart : startsAfter true a = true := by simp [startsAfter, hc]
      rw [filter_cons_of_neg (by simp [hc]), statementAtoms, if_pos (by simp [isOutside, hc]),
        hstart, ih hrun]
    | false =>
      have hstart : startsAfter true a = false := by simp [startsAfter, hc, ha]
      rw [filter_cons_of_pos (by simp [hc]), statementAtoms, hstart, statementAtoms_inner hrun]
      cases a with
      | word l w =>
        cases hw : Keyword.isControl w <;>
          simp [statementOf?, isOutside, isComment, isSemicolon, isControlWord, hw, raw]
      | _ => simp_all [statementOf?, isOutside, isControlWord, raw]

theorem raws_cutStatements (lv : Level) (h : ∀ a ∈ run, a.isSemicolon = false) :
    (cutStatements lv run).flatMap raw = statementAtoms true run := by
  have hcomments : (run.filter isComment).flatMap raw = [] := by
    rw [flatMap_eq_nil_iff]
    intro a ha
    have hc := (mem_filter.1 ha).2
    cases a <;> first | rfl | cases hc
  rw [cutStatements, flatMap_append, hcomments, nil_append, raws_statementOf? lv h]

theorem splitStatementsFrom_semicolon {a} (h : a.isSemicolon = true) (held : List Atom) :
    splitStatementsFrom lv held (a :: run) =
      cutStatements lv held.reverse ++ splitStatementsFrom lv [] run := by
  cases a with
  | unknown l c =>
    have hc : (c == ';') = true := h
    rw [splitStatementsFrom, if_pos hc]
  | _ => cases h

theorem splitStatementsFrom_other {a} (h : a.isSemicolon = false) (held : List Atom) :
    splitStatementsFrom lv held (a :: run) = splitStatementsFrom lv (a :: held) run := by
  cases a with
  | unknown l c =>
    have hc : ¬ (c == ';') = true := by simpa [isSemicolon] using h
    rw [splitStatementsFrom, if_neg hc]
  | _ => rw [splitStatementsFrom]; simp

theorem raws_splitStatementsFrom (lv : Level) {held} (h : ∀ a ∈ held, a.isSemicolon = false) :
    (splitStatementsFrom lv held run).flatMap raw = statementAtoms true (held.reverse ++ run) := by
  induction run generalizing held with
  | nil =>
    rw [splitStatementsFrom, append_nil]
    exact raws_cutStatements lv fun a ha => h a (mem_reverse.1 ha)
  | cons a run ih =>
    cases ha : a.isSemicolon with
    | true =>
      rw [splitStatementsFrom_semicolon ha, flatMap_append,
        raws_cutStatements lv fun b hb => h b (mem_reverse.1 hb), ih (forall_mem_nil _),
        statementAtoms_semicolon ha]
      rfl
    | false =>
      rw [splitStatementsFrom_other ha, ih (forall_mem_cons.2 ⟨ha, h⟩), reverse_cons,
        append_assoc]
      rfl

theorem SameFaces.filter {p} (hp : ∀ {a b}, b.face = a.face → p b = p a)
    (h : SameFaces run' run) : SameFaces (run'.filter p) (run.filter p) := by
  induction h using SameFaces.induction with
  | nil => rfl
  | cons hb _ ih =>
    rw [filter_cons, filter_cons, hp hb]
    split
    · exact sameFaces_cons.2 ⟨hb, ih⟩
    · exact ih

theorem filter_isComment_eq (h : SameFaces run' run) (hl : SameLevels run' run) :
    run'.filter isComment = run.filter isComment := by
  induction h using SameFaces.induction with
  | nil => rfl
  | @cons b a _ _ hb _ ih =>
    obtain ⟨hlevel, hl⟩ := sameLevels_cons.1 hl
    cases hc : a.isComment with
    | false =>
      rw [filter_cons_of_neg (by simp [isComment_of_face hb, hc]),
        filter_cons_of_neg (by simp [hc]), ih hl]
    | true =>
      have hleaf : ∀ {a : Atom}, a.isComment = true → a.isLeaf = true := by
        intro a ha
        cases a <;> first | rfl | cases ha
      have hbc := (isComment_of_face hb).trans hc
      have heq : b = a := by
        refine eq_of_unplaced ?_ hlevel
        rw [← face_of_isLeaf (hleaf hbc), hb, face_of_isLeaf (hleaf hc)]
      rw [filter_cons_of_pos hbc, filter_cons_of_pos hc, ih hl, heq]

theorem statementOf?_like (h : SameFaces run' run) :
    Forall₂ LikeRow (statementOf? lv run).toList (statementOf? lv run').toList := by
  cases run with
  | nil =>
    cases length_eq_zero_iff.1 h.length_eq
    exact .nil
  | cons a run =>
    obtain ⟨b, rest, rfl, hb, hrest⟩ := sameFaces_cons_inv h
    have hexpr : LikeRow (.exprStmt lv (a :: run) false []) (.exprStmt lv (b :: rest) false []) :=
      .row rfl (by simpa [raw] using hrest.length_eq)
    cases a with
    | word l w =>
      obtain ⟨l', rfl⟩ := of_face_word hb
      simp only [statementOf?]
      split
      · exact .cons (.row rfl hrest.length_eq) .nil
      · exact .cons hexpr .nil
    | _ =>
      have hw : ∀ l w, b ≠ .word l w := by
        rintro l w rfl
        obtain ⟨l', heq⟩ := of_face_word hb.symm
        cases heq
      have hsome : statementOf? lv (b :: rest) = some (.exprStmt lv (b :: rest) false []) := by
        cases b <;> first | rfl | exact (hw _ _ rfl).elim
      rw [hsome]
      exact .cons hexpr .nil

theorem cutStatements_like (h : SameFaces run' run) (hl : SameLevels run' run) :
    Forall₂ LikeRow (cutStatements lv run) (cutStatements lv run') := by
  rw [cutStatements, cutStatements, filter_isComment_eq h hl]
  refine rel_append (forall₂_same.2 fun a ha => ?_) (statementOf?_like (h.filter ?_))
  · have hc := (mem_filter.1 ha).2
    refine .leaf ?_
    cases a <;> first | rfl | cases hc
  · intro a b hb
    rw [isComment_of_face hb]

theorem splitStatementsFrom_like {held held'} (hheld : SameFaces held' held)
    (hlheld : SameLevels held' held) (h : SameFaces run' run) (hl : SameLevels run' run) :
    Forall₂ LikeRow (splitStatementsFrom lv held run) (splitStatementsFrom lv held' run') := by
  have hcut : ∀ {held held'}, SameFaces held' held → SameLevels held' held →
      Forall₂ LikeRow (cutStatements lv held.reverse) (cutStatements lv held'.reverse) :=
    fun h hl => cutStatements_like h.reverse hl.reverse
  induction h using SameFaces.induction generalizing held held' with
  | nil =>
    rw [splitStatementsFrom, splitStatementsFrom]
    exact hcut hheld hlheld
  | @cons b a _ _ hb _ ih =>
    obtain ⟨hlevel, hlrest⟩ := sameLevels_cons.1 hl
    have hsemi : b.isSemicolon = a.isSemicolon := eq_of_face (fun c => by cases c <;> rfl) hb
    cases ha : a.isSemicolon with
    | true =>
      rw [splitStatementsFrom_semicolon ha, splitStatementsFrom_semicolon (hsemi.trans ha)]
      exact rel_append (hcut hheld hlheld) (ih rfl rfl hlrest)
    | false =>
      rw [splitStatementsFrom_other ha, splitStatementsFrom_other (hsemi.trans ha)]
      exact ih (sameFaces_cons.2 ⟨hb, hheld⟩) (sameLevels_cons.2 ⟨hlevel, hlheld⟩) hlrest

theorem proper_statements (ht : Tokens lv run) :
    ∀ a ∈ splitStatements lv run, a.isLeaf = true ∨ a.isUnreadRow = true := by
  intro a ha
  cases splitStatements_statements ht a ha with
  | comment => exact .inl rfl
  | exprs | control => exact .inr rfl

theorem fits_restoreStatements (ht : Tokens lv run)
    (h : Forall₂ FitsAt (splitStatements lv run) os) :
    Forall₂ FitsAt run (restoreStatements run os) := by
  have hrows := fits_rows (proper_statements ht) h
  rw [splitStatements, raws_splitStatementsFrom lv (forall_mem_nil _)] at hrows
  exact fits_restoreStatementRuns hrows

/-- A lexed run that is rebuilt has statements that are rebuilt. -/
theorem statements_rebuilt (ht : Tokens lv run) (hfits : Forall₂ FitsAt (splitStatements lv run) os)
    (hr : Forall₃ RebuiltAt run (restoreStatements run os) run') :
    Forall₃ RebuiltAt (splitStatements lv run) os (splitStatements lv run') := by
  have hrows := fits_rows (proper_statements ht) hfits
  rw [splitStatements, raws_splitStatementsFrom lv (forall_mem_nil _)] at hrows
  have hatoms := rebuilt_restoreStatementRuns hrows.length_eq hr
  obtain ⟨hrebuilt, hl⟩ := rebuiltAt_iff.1 hr
  have hlike : Forall₂ LikeRow (splitStatements lv run) (splitStatements lv run') :=
    splitStatementsFrom_like rfl rfl (Rebuilt.sameFaces hrebuilt) hl
  refine rebuilt_rows hlike (proper_statements ht) hfits ?_
  rw [splitStatements, splitStatements, raws_splitStatementsFrom lv (forall_mem_nil _),
    raws_splitStatementsFrom lv (forall_mem_nil _)]
  exact hatoms

end

end WatScript
