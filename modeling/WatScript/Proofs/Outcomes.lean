import Mathlib.Data.List.Forall2
import WatScript.Parsing.Outcome
import WatScript.Proofs.Runs

/-!
# What an attempt leaves of a run

An attempt to resolve an atom leaves an outcome. `Fits a o` says that `o` is shaped like an outcome of `a`:
the atoms that `a` was put together from and the atoms of its unread run have outcomes of their own.

A later attempt starts from the atoms as they are now and puts new atoms together from them.
`Rebuilt a o b` says that `b` is such an atom, where the first attempt had `a`: what is unread in `b` was
unread in `a`, apart from brackets that the first attempt has resolved. The passes see no difference
between the two (`Rebuilt.face_eq`). At the atoms of a run that is still unread, the later attempt just
has what is there now (`Fits.rebuilt_now`).

Reading moves the atoms of a run to the level at which it is read. So the level of `b` itself is left open,
while the levels of what it was put together from are not.
-/

namespace WatScript

open List Atom

/-! ## Three lists side by side -/

/-- The lists are related element by element. -/
inductive Forall₃ {α β γ : Type} (R : α → β → γ → Prop) : List α → List β → List γ → Prop
  | nil : Forall₃ R [] [] []
  | cons {a b c as bs cs} : R a b c → Forall₃ R as bs cs → Forall₃ R (a :: as) (b :: bs) (c :: cs)

namespace Forall₃
variable {α β γ : Type} {R : α → β → γ → Prop} {as as' : List α} {bs bs' : List β} {cs cs' : List γ}

theorem length_right (h : Forall₃ R as bs cs) : cs.length = as.length := by
  induction h with
  | nil => rfl
  | cons _ _ ih => simp [ih]

theorem of_append (hb : as.length = bs.length) (h : Forall₃ R (as ++ as') (bs ++ bs') cs) :
    ∃ cs₁ cs₂, cs = cs₁ ++ cs₂ ∧ Forall₃ R as bs cs₁ ∧ Forall₃ R as' bs' cs₂ := by
  induction as generalizing bs cs with
  | nil =>
    cases length_eq_zero_iff.1 hb.symm
    exact ⟨[], cs, rfl, .nil, h⟩
  | cons a as ih =>
    cases bs with
    | nil => cases hb
    | cons b bs =>
      cases h with
      | cons hr h =>
        obtain ⟨cs₁, cs₂, rfl, h₁, h₂⟩ := ih (Nat.succ.inj hb) h
        exact ⟨_ :: cs₁, cs₂, rfl, .cons hr h₁, h₂⟩

theorem of_append_of_length (hb : as.length = bs.length) (hc : cs.length = as.length)
    (h : Forall₃ R (as ++ as') (bs ++ bs') (cs ++ cs')) :
    Forall₃ R as bs cs ∧ Forall₃ R as' bs' cs' := by
  obtain ⟨cs₁, cs₂, heq, h₁, h₂⟩ := h.of_append hb
  obtain ⟨rfl, rfl⟩ := append_inj heq (hc.trans h₁.length_right.symm)
  exact ⟨h₁, h₂⟩

end Forall₃

/-! ## Atoms up to what they hold -/

namespace Atom

/-- The atom outside of all brackets. -/
def unplaced (a : Atom) : Atom := a.relevel .top

/-- Nothing is in the atom. -/
def isLeaf : Atom → Bool
  | unknown .. | literal .. | comment .. | word .. | operator .. => true
  | _ => false

/-- A bracket whose contents are unread. -/
def isUnreadBracket : Atom → Bool
  | block _ _ r _ | paren _ _ r _ | list _ _ r _ => !r
  | _ => false

/-- A row whose atoms are unread. -/
def isUnreadRow : Atom → Bool
  | item _ _ r _ | exprStmt _ _ r _ | controlStmt _ _ _ r _ => !r
  | _ => false

/-- What the passes see of an atom: a leaf without its place, and the kind of any other atom. -/
def face : Atom → Atom
  | block lv _ _ _ => block (Level.top.moveTo lv) [] true []
  | paren lv _ _ _ => paren (Level.top.moveTo lv) [] true []
  | list lv _ _ _ => list (Level.top.moveTo lv) [] true []
  | item lv _ _ _ => item (Level.top.moveTo lv) [] true []
  | call lv _ _ _ _ _ => call (Level.top.moveTo lv) (word .top "") [] true true []
  | access lv _ _ _ _ => access (Level.top.moveTo lv) (word .top "") [] true []
  | clause lv name _ _ => clause (Level.top.moveTo lv) name none (word .top "")
  | chain lv _ => chain (Level.top.moveTo lv) []
  | exprStmt lv _ _ _ => exprStmt (Level.top.moveTo lv) [] true []
  | controlStmt lv head _ _ _ => controlStmt (Level.top.moveTo lv) head [] true []
  | a => a.unplaced

/-- The atoms that an atom was put together from. -/
def parts : Atom → List Atom
  | call _ callee _ _ _ args => callee :: args
  | access _ callee _ _ _ => [callee]
  | clause _ _ cond body => cond.toList ++ [body]
  | chain _ clauses => clauses
  | _ => []

/-- The atom with other parts and another unread run. -/
def assemble (parts raw : List Atom) : Atom → Atom
  | call lv _ _ r split _ => call lv (parts.headD (word .top "")) raw r split parts.tail
  | access lv _ _ r index => access lv (parts.headD (word .top "")) raw r index
  | clause lv name _ _ => clause lv name parts.dropLast.head? (parts.getLastD (word .top ""))
  | chain lv _ => chain lv parts
  | a => a.withRaw raw

/-- What is left of the atom without its parts. -/
def shell (a : Atom) : Atom := (a.assemble [] []).unplaced

variable {a b : Atom} {lv : Level}

@[simp] theorem unplaced_relevel (lv : Level) (a : Atom) : (a.relevel lv).unplaced = a.unplaced := by
  cases a <;> rfl

@[simp] theorem face_relevel (lv : Level) (a : Atom) : (a.relevel lv).face = a.face := by
  cases a <;> rfl

@[simp] theorem isLeaf_relevel (lv : Level) (a : Atom) : (a.relevel lv).isLeaf = a.isLeaf := by
  cases a <;> rfl

@[simp] theorem isUnreadBracket_relevel (lv : Level) (a : Atom) :
    (a.relevel lv).isUnreadBracket = a.isUnreadBracket := by
  cases a <;> rfl

@[simp] theorem isUnreadRow_relevel (lv : Level) (a : Atom) :
    (a.relevel lv).isUnreadRow = a.isUnreadRow := by
  cases a <;> rfl

@[simp] theorem withRaw_relevel (lv : Level) (raw : List Atom) (a : Atom) :
    (a.relevel lv).withRaw raw = (a.withRaw raw).relevel lv := by
  cases a <;> rfl

@[simp] theorem withRaw_raw (a : Atom) : a.withRaw a.raw = a := by
  cases a <;> rfl

@[simp] theorem shell_relevel (lv : Level) (a : Atom) : (a.relevel lv).shell = a.shell := by
  cases a <;> rfl

@[simp] theorem parts_relevel (lv : Level) (a : Atom) : (a.relevel lv).parts = a.parts := by
  cases a <;> rfl

@[simp] theorem shell_withRaw (raw : List Atom) (a : Atom) : (a.withRaw raw).shell = a.shell := by
  cases a <;> rfl

@[simp] theorem parts_withRaw (raw : List Atom) (a : Atom) : (a.withRaw raw).parts = a.parts := by
  cases a <;> rfl

theorem raw_withRaw {raw} (h : raw.length = a.raw.length) : (a.withRaw raw).raw = raw := by
  cases a <;> first | rfl | exact (length_eq_zero_iff.1 h).symm

@[simp] theorem level_assemble (parts raw : List Atom) (a : Atom) :
    (a.assemble parts raw).level = a.level := by
  cases a <;> rfl

theorem assemble_self (a : Atom) : a.assemble a.parts a.raw = a := by
  cases a with
  | clause lv name cond body => cases cond <;> rfl
  | _ => rfl

theorem assemble_eq_withRaw (h : a.isUnreadBracket = true ∨ a.isUnreadRow = true)
    (parts raw : List Atom) : a.assemble parts raw = a.withRaw raw := by
  cases a <;> first | rfl | (rcases h with h | h <;> cases h)

theorem unplaced_of_shell (h : b.shell = a.shell) :
    b.unplaced = (a.assemble b.parts b.raw).unplaced := by
  have hback : ∀ c : Atom, c.shell.assemble b.parts b.raw = (c.assemble b.parts b.raw).unplaced :=
    fun c => by cases c <;> rfl
  rw [← hback a, ← h, hback, assemble_self]

theorem face_unplaced (a : Atom) : a.unplaced.face = a.face := face_relevel .top a

theorem face_of_unplaced (h : a.unplaced = b.unplaced) : a.face = b.face := by
  rw [← face_unplaced a, h, face_unplaced]

theorem face_of_shell (h : a.shell = b.shell) : a.face = b.face := by
  have hface : ∀ c : Atom, c.shell.face = c.face := fun c => by cases c <;> rfl
  rw [← hface a, h, hface]

/-! The kinds of atoms exclude each other. -/

theorem isUnreadBracket_of_isUnreadRow (h : a.isUnreadRow = true) : a.isUnreadBracket = false := by
  cases a <;> first | rfl | cases h

theorem isUnreadRow_of_isUnreadBracket (h : a.isUnreadBracket = true) : a.isUnreadRow = false := by
  cases a <;> first | rfl | cases h

theorem isLeaf_of_isUnreadBracket (h : a.isUnreadBracket = true) : a.isLeaf = false := by
  cases a <;> first | rfl | cases h

theorem isLeaf_of_isUnreadRow (h : a.isUnreadRow = true) : a.isLeaf = false := by
  cases a <;> first | rfl | cases h

theorem parts_of_isUnreadBracket (h : a.isUnreadBracket = true) : a.parts = [] := by
  cases a <;> first | rfl | cases h

theorem parts_of_isUnreadRow (h : a.isUnreadRow = true) : a.parts = [] := by
  cases a <;> first | rfl | cases h

theorem face_of_isLeaf (h : a.isLeaf = true) : a.face = a.unplaced := by
  cases a <;> first | rfl | cases h

theorem parts_of_isLeaf (h : a.isLeaf = true) : a.parts = [] := by
  cases a <;> first | rfl | cases h

theorem withRaw_of_isLeaf (h : a.isLeaf = true) (raw : List Atom) : a.withRaw raw = a := by
  cases a <;> first | rfl | cases h

theorem raw_of_isLeaf (h : a.isLeaf = true) : a.raw = [] := by
  cases a <;> first | rfl | cases h

theorem eq_of_unplaced (h : a.unplaced = b.unplaced) (hlevel : a.level = b.level) : a = b := by
  have hback : ∀ c : Atom, c.unplaced.mapLevel (fun _ => c.level) = c := fun c => by
    cases c <;> rfl
  rw [← hback a, h, hlevel, hback]

theorem relevel_of_unplaced (h : a.unplaced = b.unplaced) (lv : Level) :
    a.relevel lv = b.relevel lv := by
  have hback : ∀ c : Atom, c.unplaced.relevel lv = c.relevel lv := fun c => by cases c <;> rfl
  rw [← hback a, h, hback]

/-! The passes see the face. -/

section
variable {l : Level}

theorem of_face_unknown {c} (h : b.face = (unknown l c).face) : ∃ l', b = unknown l' c := by
  cases b <;> simp [face, unplaced, relevel, mapLevel] at h
  exact ⟨_, by rw [h.2]⟩

theorem of_face_word {w} (h : b.face = (word l w).face) : ∃ l', b = word l' w := by
  cases b <;> simp [face, unplaced, relevel, mapLevel] at h
  exact ⟨_, by rw [h.2]⟩

theorem of_face_operator {o} (h : b.face = (operator l o).face) : ∃ l', b = operator l' o := by
  cases b <;> simp [face, unplaced, relevel, mapLevel] at h
  exact ⟨_, by rw [h.2]⟩

theorem of_face_block {raw body r} (h : b.face = (block l raw r body).face) :
    ∃ l' raw' r' body', b = block l' raw' r' body' := by
  cases b <;> simp [face, unplaced, relevel, mapLevel] at h
  exact ⟨_, _, _, _, rfl⟩

theorem of_face_paren {raw contents r} (h : b.face = (paren l raw r contents).face) :
    ∃ l' raw' r' contents', b = paren l' raw' r' contents' := by
  cases b <;> simp [face, unplaced, relevel, mapLevel] at h
  exact ⟨_, _, _, _, rfl⟩

end

theorem eq_of_face {α : Type} {f : Atom → α} (hf : ∀ c : Atom, f c.face = f c)
    (h : a.face = b.face) : f a = f b := by
  rw [← hf a, h, hf]

theorem tag_of_face (h : a.face = b.face) : a.level.tag = b.level.tag :=
  eq_of_face (f := fun c => c.level.tag) (fun c => by cases c <;> rfl) h

theorem level_relevel_of_face (h : a.face = b.face) (lv : Level) :
    (a.relevel lv).level = (b.relevel lv).level := by
  rw [relevel, relevel, level_mapLevel, level_mapLevel, Level.moveTo, Level.moveTo, tag_of_face h]

theorem isComment_of_face (h : a.face = b.face) : a.isComment = b.isComment :=
  eq_of_face (fun c => by cases c <;> rfl) h

theorem isOperator_of_face (h : a.face = b.face) : a.isOperator = b.isOperator :=
  eq_of_face (fun c => by cases c <;> rfl) h

theorem isCallable_of_face (h : a.face = b.face) : a.isCallable = b.isCallable :=
  eq_of_face (fun c => by cases c <;> rfl) h

theorem isArgumentBracket_of_face (h : a.face = b.face) :
    a.isArgumentBracket = b.isArgumentBracket :=
  eq_of_face (fun c => by cases c <;> rfl) h

end Atom

/-- Atom by atom, the runs have the same levels. -/
def SameLevels (run run' : List Atom) : Prop := run.map level = run'.map level

/-- Atom by atom, the runs have the same faces. -/
def SameFaces (run run' : List Atom) : Prop := run.map face = run'.map face

section
variable {a b : Atom} {run run' front front' : List Atom}

@[simp] theorem sameLevels_cons :
    SameLevels (a :: run) (b :: run') ↔ a.level = b.level ∧ SameLevels run run' := by
  simp [SameLevels]

@[simp] theorem sameFaces_cons :
    SameFaces (a :: run) (b :: run') ↔ a.face = b.face ∧ SameFaces run run' := by
  simp [SameFaces]

theorem SameFaces.reverse (h : SameFaces run run') : SameFaces run.reverse run'.reverse := by
  unfold SameFaces at *
  rw [map_reverse, h, map_reverse]

theorem SameLevels.reverse (h : SameLevels run run') : SameLevels run.reverse run'.reverse := by
  unfold SameLevels at *
  rw [map_reverse, h, map_reverse]

theorem SameFaces.length_eq (h : SameFaces run run') : run.length = run'.length := by
  simpa using congrArg List.length h

/-- Induction along two runs with the same faces. -/
@[elab_as_elim] theorem SameFaces.induction {motive : ∀ run run', SameFaces run run' → Prop}
    (nil : motive [] [] rfl)
    (cons : ∀ {a b run run'} (ha : a.face = b.face) (h : SameFaces run run'), motive run run' h →
      motive (a :: run) (b :: run') (sameFaces_cons.2 ⟨ha, h⟩)) :
    ∀ {run run'} (h : SameFaces run run'), motive run run' h
  | [], [], _ => nil
  | _ :: _, _ :: _, h => cons (sameFaces_cons.1 h).1 _ (induction nil cons (sameFaces_cons.1 h).2)

theorem SameLevels.append_iff (hl : front.length = front'.length) :
    SameLevels (front ++ run) (front' ++ run') ↔ SameLevels front front' ∧ SameLevels run run' := by
  unfold SameLevels
  rw [map_append, map_append]
  constructor
  · exact fun h => append_inj h (by simpa using hl)
  · rintro ⟨h, h'⟩
    rw [h, h']

theorem SameFaces.sameLevels_relevel (h : SameFaces run run') (lv : Level) :
    SameLevels (relevel lv run) (relevel lv run') := by
  induction h using SameFaces.induction with
  | nil => rfl
  | cons ha _ ih => exact sameLevels_cons.2 ⟨level_relevel_of_face ha lv, ih⟩

end

/-! ## Outcomes and what is rebuilt from them -/

/-- What a later attempt has in place of `a`, if the outcome of `a` was `o`: a bracket that the attempt has
resolved, or an atom that is as unread as before. An unread run is rebuilt from its atoms as they are now,
at the levels they had or, unless a row holds it, at the levels they have now. -/
inductive Rebuilt : Atom → Outcome → Atom → Prop
  | done {a b o} : a.isUnreadBracket = true → o.now.settled = true →
      o.now.face = a.face → b.unplaced = o.now.unplaced → Rebuilt a o b
  | again {a b o} : b.shell = a.shell → Forall₃ Rebuilt a.parts o.parts b.parts →
      SameLevels b.parts a.parts → Forall₃ Rebuilt a.raw o.run b.raw →
      SameLevels b.raw a.raw ∨ a.isUnreadRow = false ∧ b.raw = o.run.map Outcome.now → Rebuilt a o b

/-- The outcome is shaped like one of the atom. -/
inductive Fits : Atom → Outcome → Prop
  | intro {a o} : Forall₂ Fits a.parts o.parts →
      SameLevels (o.parts.map Outcome.now) a.parts → Forall₂ Fits a.raw o.run →
      (a.isUnreadRow = true → SameLevels (o.run.map Outcome.now) a.raw) →
      (a.isLeaf = true ∨ a.isUnreadBracket = true →
        (a.isUnreadBracket = true ∧ o.now.settled = true ∧ o.now.face = a.face) ∨
          o.now.unplaced = (a.withRaw (o.run.map Outcome.now)).unplaced) → Fits a o

/-- The outcome fits, at the level of the atom. -/
structure FitsAt (a : Atom) (o : Outcome) : Prop where
  fits : Fits a o
  level : o.now.level = a.level

/-- The atom is rebuilt at its level. -/
structure RebuiltAt (a : Atom) (o : Outcome) (b : Atom) : Prop where
  rebuilt : Rebuilt a o b
  level : b.level = a.level

theorem fitsAt_iff {run os} : Forall₂ FitsAt run os ↔
    Forall₂ Fits run os ∧ SameLevels (os.map Outcome.now) run := by
  constructor
  · intro h
    induction h with
    | nil => exact ⟨.nil, rfl⟩
    | cons ha _ ih => exact ⟨.cons ha.fits ih.1, sameLevels_cons.2 ⟨ha.level, ih.2⟩⟩
  · rintro ⟨h, hl⟩
    induction h with
    | nil => exact .nil
    | cons ha _ ih =>
      obtain ⟨hlevel, hl⟩ := sameLevels_cons.1 hl
      exact .cons ⟨ha, hlevel⟩ (ih hl)

theorem rebuiltAt_iff {run run' os} : Forall₃ RebuiltAt run os run' ↔
    Forall₃ Rebuilt run os run' ∧ SameLevels run' run := by
  constructor
  · intro h
    induction h with
    | nil => exact ⟨.nil, rfl⟩
    | cons ha _ ih => exact ⟨.cons ha.rebuilt ih.1, sameLevels_cons.2 ⟨ha.level, ih.2⟩⟩
  · rintro ⟨h, hl⟩
    induction h with
    | nil => exact .nil
    | cons ha _ ih =>
      obtain ⟨hlevel, hl⟩ := sameLevels_cons.1 hl
      exact .cons ⟨ha, hlevel⟩ (ih hl)

namespace Fits
variable {a : Atom} {o : Outcome}

theorem parts (h : Fits a o) : Forall₂ FitsAt a.parts o.parts := by
  obtain ⟨hparts, hl⟩ := h
  exact fitsAt_iff.2 ⟨hparts, hl⟩

theorem run (h : Fits a o) : Forall₂ Fits a.raw o.run := by
  obtain ⟨_, _, hrun⟩ := h
  exact hrun

theorem row (h : Fits a o) (ha : a.isUnreadRow = true) : Forall₂ FitsAt a.raw o.run := by
  obtain ⟨_, _, hrun, hl⟩ := h
  exact fitsAt_iff.2 ⟨hrun, hl ha⟩

theorem now (h : Fits a o) (ha : a.isLeaf = true ∨ a.isUnreadBracket = true) :
    (a.isUnreadBracket = true ∧ o.now.settled = true ∧ o.now.face = a.face) ∨
      o.now.unplaced = (a.withRaw (o.run.map Outcome.now)).unplaced := by
  obtain ⟨_, _, _, _, hnow⟩ := h
  exact hnow ha

theorem of_parts (hparts : Forall₂ FitsAt a.parts o.parts) (hrun : Forall₂ Fits a.raw o.run)
    (hrow : a.isUnreadRow = false) (hleaf : a.isLeaf = false) (hbracket : a.isUnreadBracket = false) :
    Fits a o := by
  obtain ⟨hparts, hl⟩ := fitsAt_iff.1 hparts
  exact .intro hparts hl hrun (by simp [hrow]) (by simp [hleaf, hbracket])

theorem of_bracket (ha : a.isUnreadBracket = true) (hrun : Forall₂ Fits a.raw o.run)
    (hparts : o.parts = []) (hnow : (o.now.settled = true ∧ o.now.face = a.face) ∨
      o.now.unplaced = (a.withRaw (o.run.map Outcome.now)).unplaced) : Fits a o := by
  have hnil := parts_of_isUnreadBracket ha
  refine .intro ?_ ?_ hrun ?_ fun _ => hnow.imp_left fun h => ⟨ha, h⟩
  · rw [hparts, hnil]
    exact .nil
  · rw [hparts, hnil]
    rfl
  · simp [isUnreadRow_of_isUnreadBracket ha]

theorem of_row (ha : a.isUnreadRow = true) (h : Forall₂ FitsAt a.raw o.run)
    (hparts : o.parts = []) : Fits a o := by
  have hnil := parts_of_isUnreadRow ha
  obtain ⟨hrun, hl⟩ := fitsAt_iff.1 h
  refine .intro ?_ ?_ hrun (fun _ => hl) ?_
  · rw [hparts, hnil]
    exact .nil
  · rw [hparts, hnil]
    rfl
  · simp [isLeaf_of_isUnreadRow ha, isUnreadBracket_of_isUnreadRow ha]

theorem parts_nil (h : Fits a o) (ha : a.parts = []) : o.parts = [] := by
  have hparts := h.parts
  rw [ha] at hparts
  exact forall₂_nil_left_iff.1 hparts

theorem run_nil (h : Fits a o) (ha : a.raw = []) : o.run = [] := by
  have hrun := h.run
  rw [ha] at hrun
  exact forall₂_nil_left_iff.1 hrun

end Fits

namespace Rebuilt
variable {a b c : Atom} {o : Outcome} {run run' raw : List Atom} {os : List Outcome}

theorem face_eq (h : Rebuilt a o b) : b.face = a.face := by
  cases h with
  | done _ _ hface hb => exact (face_of_unplaced hb).trans hface
  | again hb => exact face_of_shell hb

theorem sameFaces (h : Forall₃ Rebuilt run os run') : SameFaces run' run := by
  induction h with
  | nil => rfl
  | cons hr _ ih => exact sameFaces_cons.2 ⟨hr.face_eq, ih⟩

theorem relevel (h : Rebuilt a o b) (lv lv' : Level) : Rebuilt (a.relevel lv) o (b.relevel lv') := by
  cases h with
  | done ha hs hface hb => exact .done (by simpa using ha) hs (by simpa using hface) (by simpa using hb)
  | again hb hparts hl hraw hlraw =>
    refine .again (by simpa using hb) (by simpa using hparts) (by simpa using hl) ?_ ?_
    · simpa using hraw
    · simpa using hlraw

theorem relevel_all (h : Forall₃ Rebuilt run os run') (lv lv' : Level) :
    Forall₃ Rebuilt (WatScript.relevel lv run) os (WatScript.relevel lv' run') := by
  induction h with
  | nil => exact .nil
  | cons hr _ ih => exact .cons (hr.relevel lv lv') ih

theorem of_unplaced (h : Rebuilt a o b) (hc : c.unplaced = b.unplaced) : Rebuilt a o c := by
  have hback : ∀ x : Atom, x.relevel x.level = x := fun x => by cases x <;> rfl
  have hmoved := h.relevel a.level c.level
  rwa [hback, ← Atom.relevel_of_unplaced hc, hback] at hmoved

theorem of_run (hfits : Fits a o) (ha : a.parts = []) (hraw : Forall₃ Rebuilt a.raw o.run raw)
    (hl : SameLevels raw a.raw ∨ a.isUnreadRow = false ∧ raw = o.run.map Outcome.now) :
    Rebuilt a o (a.withRaw raw) := by
  have hsame := raw_withRaw hraw.length_right
  refine .again (shell_withRaw raw a) ?_ (by rw [parts_withRaw]; rfl) ?_ ?_
  · rw [parts_withRaw, ha, hfits.parts_nil ha]
    exact .nil
  · rwa [hsame]
  · rwa [hsame]

theorem of_parts (hfits : Fits a o) (hb : b.shell = a.shell) (ha : a.raw = []) (hraw : b.raw = [])
    (hparts : Forall₃ RebuiltAt a.parts o.parts b.parts) : Rebuilt a o b := by
  obtain ⟨hparts, hl⟩ := rebuiltAt_iff.1 hparts
  refine .again hb hparts hl ?_ (.inl (by rw [ha, hraw]; rfl))
  rw [ha, hraw, hfits.run_nil ha]
  exact .nil

theorem inv (h : Rebuilt a o b) (ha : a.isUnreadBracket = false) :
    b.unplaced = (a.assemble b.parts b.raw).unplaced ∧ Forall₃ RebuiltAt a.parts o.parts b.parts ∧
      Forall₃ Rebuilt a.raw o.run b.raw ∧
      (SameLevels b.raw a.raw ∨ a.isUnreadRow = false ∧ b.raw = o.run.map Outcome.now) := by
  cases h with
  | done hbracket => simp [hbracket] at ha
  | again hb hparts hl hraw hlraw =>
    exact ⟨unplaced_of_shell hb, rebuiltAt_iff.2 ⟨hparts, hl⟩, hraw, hlraw⟩

theorem row_inv (h : Rebuilt a o b) (ha : a.isUnreadRow = true) :
    ∃ raw, Forall₃ Rebuilt a.raw o.run raw ∧ SameLevels raw a.raw ∧
      b.unplaced = (a.withRaw raw).unplaced := by
  obtain ⟨hb, -, hraw, hl | ⟨hrow, -⟩⟩ := h.inv (isUnreadBracket_of_isUnreadRow ha)
  · exact ⟨b.raw, hraw, hl, by rw [hb, assemble_eq_withRaw (.inr ha)]⟩
  · simp [ha] at hrow

theorem bracket_cases (h : Rebuilt a o b) (ha : a.isUnreadBracket = true) :
    (o.now.settled = true ∧ o.now.face = a.face ∧ b.unplaced = o.now.unplaced) ∨
      ∃ raw, Forall₃ Rebuilt a.raw o.run raw ∧ (SameLevels raw a.raw ∨ raw = o.run.map Outcome.now) ∧
        b.unplaced = (a.withRaw raw).unplaced := by
  cases h with
  | done _ hs hface hb => exact .inl ⟨hs, hface, hb⟩
  | again hb _ _ hraw hl =>
    refine .inr ⟨b.raw, hraw, hl.imp_right And.right, ?_⟩
    rw [unplaced_of_shell hb, assemble_eq_withRaw (.inl ha)]

end Rebuilt

theorem RebuiltAt.inv {a b o} (h : RebuiltAt a o b)
    (ha : a.isUnreadBracket = false) : ∃ parts raw, b = a.assemble parts raw ∧
      Forall₃ RebuiltAt a.parts o.parts parts ∧ Forall₃ Rebuilt a.raw o.run raw := by
  obtain ⟨hb, hparts, hraw, -⟩ := h.rebuilt.inv ha
  exact ⟨b.parts, b.raw, eq_of_unplaced hb (by rw [h.level, level_assemble]), hparts, hraw⟩

theorem eq_of_unplaced_of_sameLevels {run run'}
    (h : run'.map unplaced = run.map unplaced) (hl : SameLevels run' run) : run' = run := by
  induction run generalizing run' with
  | nil => simpa using h
  | cons a run ih =>
    cases run' with
    | nil => simp at h
    | cons b run' =>
      rw [map_cons, map_cons, List.cons.injEq] at h
      obtain ⟨hlevel, hl⟩ := sameLevels_cons.1 hl
      rw [eq_of_unplaced h.1 hlevel, ih h.2 hl]

/-! ## Nothing has happened -/

theorem eq_of_untouchedRun {a : Atom} {run run' : List Atom}
    (h : run'.map unplaced = run.map unplaced)
    (hl : SameLevels run' run ∨ a.isUnreadRow = false ∧ run' = (untouchedRun run).map Outcome.now) :
    run' = run := by
  rcases hl with hl | ⟨-, hl⟩
  · exact eq_of_unplaced_of_sameLevels h hl
  · rw [hl, map_now_untouchedRun]

theorem parts_untouched (a : Atom) : (Outcome.untouched a).parts = untouchedRun a.parts := by
  cases a with
  | clause lv name cond body => cases cond <;> rfl
  | _ => rfl

theorem Level.two_le_sizeOf (lv : Level) : 2 ≤ sizeOf lv := by
  obtain ⟨⟨depth⟩, loops, tag⟩ := lv
  simp
  omega

theorem Atom.sizeOf_raw_lt (a : Atom) : sizeOf a.raw < sizeOf a := by
  have hlevel := a.level.two_le_sizeOf
  cases a <;> simp [raw, level] at hlevel ⊢ <;> omega

theorem Atom.sizeOf_parts_lt (a : Atom) : sizeOf a.parts < sizeOf a := by
  have hlevel := a.level.two_le_sizeOf
  cases a with
  | clause lv name cond body => cases cond <;> simp [parts, level] at hlevel ⊢ <;> omega
  | _ => simp [parts, level] at hlevel ⊢ <;> omega

mutual

theorem Rebuilt.of_untouched {a b : Atom} (h : Rebuilt a (.untouched a) b) :
    b.unplaced = a.unplaced := by
  cases h with
  | done ha hs =>
    rw [now_untouched] at hs
    cases a <;> simp_all [isUnreadBracket, settled]
  | again hb hparts hl hraw hlraw =>
    have := a.sizeOf_raw_lt
    have := a.sizeOf_parts_lt
    rw [parts_untouched] at hparts
    rw [run_untouched] at hraw hlraw
    rw [unplaced_of_shell hb,
      eq_of_unplaced_of_sameLevels (rebuilt_of_untouchedRun hparts) hl,
      eq_of_untouchedRun (rebuilt_of_untouchedRun hraw) hlraw, assemble_self]
termination_by sizeOf a

theorem rebuilt_of_untouchedRun {run run'} (h : Forall₃ Rebuilt run (untouchedRun run) run') :
    run'.map unplaced = run.map unplaced := by
  cases run with
  | nil =>
    cases h
    rfl
  | cons a run =>
    rw [untouchedRun] at h
    cases h with
    | cons hr h => rw [map_cons, map_cons, hr.of_untouched, rebuilt_of_untouchedRun h]
termination_by sizeOf run

end

mutual

theorem fits_untouched (a : Atom) : Fits a (.untouched a) := by
  have := a.sizeOf_raw_lt
  have := a.sizeOf_parts_lt
  refine .intro ?_ ?_ ?_ (fun _ => ?_) (fun _ => .inr ?_)
  · rw [parts_untouched]
    exact fits_untouchedRun a.parts
  · rw [parts_untouched, map_now_untouchedRun]
    rfl
  · rw [run_untouched]
    exact fits_untouchedRun a.raw
  · rw [run_untouched, map_now_untouchedRun]
    rfl
  · rw [now_untouched, run_untouched, map_now_untouchedRun, withRaw_raw]
termination_by sizeOf a

theorem fits_untouchedRun (run : List Atom) : Forall₂ Fits run (untouchedRun run) := by
  cases run with
  | nil => exact .nil
  | cons a run => exact .cons (fits_untouched a) (fits_untouchedRun run)
termination_by sizeOf run

end

theorem fitsAt_untouched (a : Atom) : FitsAt a (.untouched a) :=
  ⟨fits_untouched a, by rw [now_untouched]⟩

/-! ## What is there now -/

/-- An atom of a run before its structure is found: a leaf or an unread bracket. -/
inductive IsBasic : Atom → Prop
  | leaf {a} : a.isLeaf = true → IsBasic a
  | bracket {a} : a.isUnreadBracket = true → (∀ x ∈ a.raw, IsBasic x) → IsBasic a

theorem rebuilt_nows {run os} (h : Forall₂ Fits run os)
    (hrun : ∀ a ∈ run, ∀ o, Fits a o → Rebuilt a o o.now) :
    Forall₃ Rebuilt run os (os.map Outcome.now) := by
  induction h with
  | nil => exact .nil
  | cons ha _ ih =>
    obtain ⟨hhead, hrun⟩ := forall_mem_cons.1 hrun
    exact .cons (hhead _ ha) (ih hrun)

theorem Fits.rebuilt_leaf {a o} (h : Fits a o) (ha : a.isLeaf = true) : Rebuilt a o a := by
  have hraw := raw_of_isLeaf ha
  have hparts := parts_of_isLeaf ha
  refine .of_parts h rfl hraw hraw ?_
  rw [hparts, h.parts_nil hparts]
  exact .nil

/-- A later attempt has an atom that is not part of another one as it is now. -/
theorem Fits.rebuilt_now {a} (hbasic : IsBasic a) : ∀ o, Fits a o → Rebuilt a o o.now := by
  induction hbasic with
  | leaf ha =>
    intro o h
    rcases h.now (.inl ha) with ⟨hbracket, -⟩ | hnow
    · simp [isLeaf_of_isUnreadBracket hbracket] at ha
    · rw [withRaw_of_isLeaf ha] at hnow
      exact (h.rebuilt_leaf ha).of_unplaced hnow
  | bracket ha _ ih =>
    intro o h
    rcases h.now (.inr ha) with ⟨-, hs, hface⟩ | hnow
    · exact .done ha hs hface rfl
    · have hl := isUnreadRow_of_isUnreadBracket ha
      exact (Rebuilt.of_run h (parts_of_isUnreadBracket ha) (rebuilt_nows h.run ih)
        (.inr ⟨hl, rfl⟩)).of_unplaced hnow

end WatScript
