import WatScript.Proofs.Outcomes
import WatScript.Proofs.Twins

/-!
# Finding the structure of a run again

Every pass after lexing groups the atoms of a run: a clause is put together from its word, its condition
and its block, a call from a callee and a bracket. The outcome of a group is carried back to the atoms it
was put together from, and a group is rebuilt if these atoms are (`Grouping`). The passes see only the
faces of atoms, so they form the same groups again when a run is read a second time
(`structured_rebuilt`).
-/

namespace WatScript

open List

variable {a b : Atom} {m m' : Member} {ms : List Member} {o : Outcome} {out : List Atom}
  {point : Option SplitPoint} {ps : List Phrase}

/-! ## Runs with the same faces -/

section
variable {run run' : List Atom}

theorem sameFaces_cons_inv (h : SameFaces run' (a :: run)) :
    ∃ b rest, run' = b :: rest ∧ b.face = a.face ∧ SameFaces rest run := by
  cases run' with
  | nil => cases h.length_eq
  | cons b rest => exact ⟨b, rest, rfl, sameFaces_cons.1 h⟩

theorem any_of_sameFaces {p} (hp : ∀ {a b}, b.face = a.face → p b = p a)
    (h : SameFaces run' run) : run'.any p = run.any p := by
  induction h using SameFaces.induction with
  | nil => rfl
  | cons hb _ ih => rw [any_cons, any_cons, hp hb, ih]

end

/-! ## Groups -/

/-- A way to put atoms together from atoms of a run. `Like` relates groups that are formed in the same
way. -/
structure Grouping (γ : Type) where
  source : γ → List Atom
  atom : γ → Atom
  restore : γ → Outcome → List Outcome
  Proper : γ → Prop
  Like : γ → γ → Prop
  length_source : ∀ {g g'}, Like g g' → (source g').length = (source g).length
  fits : ∀ {g o}, Proper g → FitsAt (atom g) o →
    Forall₂ FitsAt (source g) (restore g o)
  rebuilt : ∀ {g g' o}, Proper g → Like g g' → FitsAt (atom g) o →
    Forall₃ RebuiltAt (source g) (restore g o) (source g') → RebuiltAt (atom g) o (atom g')

namespace Grouping
variable {γ : Type} (G : Grouping γ) {groups groups' : List γ} {os : List Outcome}

/-- The outcomes of the atoms, from those of the groups. -/
def restoreAll (groups : List γ) (os : List Outcome) : List Outcome :=
  (List.zipWith G.restore groups os).flatten

theorem fits_all (hproper : ∀ g ∈ groups, G.Proper g) (h : Forall₂ FitsAt (groups.map G.atom) os) :
    Forall₂ FitsAt (groups.flatMap G.source) (G.restoreAll groups os) := by
  induction groups generalizing os with
  | nil =>
    cases h
    exact .nil
  | cons g groups ih =>
    obtain ⟨hg, hgroups⟩ := forall_mem_cons.1 hproper
    cases h with
    | cons ho h => exact rel_append (G.fits hg ho) (ih hgroups h)

theorem rebuilt_all (hlike : Forall₂ G.Like groups groups') (hproper : ∀ g ∈ groups, G.Proper g)
    (hfits : Forall₂ FitsAt (groups.map G.atom) os)
    (h : Forall₃ RebuiltAt (groups.flatMap G.source) (G.restoreAll groups os)
      (groups'.flatMap G.source)) :
    Forall₃ RebuiltAt (groups.map G.atom) os (groups'.map G.atom) := by
  induction hlike generalizing os with
  | nil =>
    cases hfits
    exact .nil
  | cons hg _ ih =>
    obtain ⟨hhead, htail⟩ := forall_mem_cons.1 hproper
    cases hfits with
    | cons ho hfits =>
      obtain ⟨hsource, hrest⟩ := h.of_append_of_length (G.fits hhead ho).length_eq (G.length_source hg)
      exact .cons (G.rebuilt hhead hg ho hsource) (ih htail hfits hrest)

end Grouping

/-! ## Atoms that are left out -/

section
variable {isOut : Atom → Bool} {run run' : List Atom} {os : List Outcome}

theorem restoreFiltered_out (h : isOut a = true) :
    restoreFiltered isOut (a :: run) os = .untouched a :: restoreFiltered isOut run os := by
  rw [restoreFiltered.eq_def]
  simp [h]

theorem restoreFiltered_in (h : isOut a = false) (o : Outcome) :
    restoreFiltered isOut (a :: run) (o :: os) = o :: restoreFiltered isOut run os := by
  rw [restoreFiltered.eq_def]
  simp [h]

theorem fits_restoreFiltered (h : Forall₂ FitsAt (run.filter (!isOut ·)) os) :
    Forall₂ FitsAt run (restoreFiltered isOut run os) := by
  induction run generalizing os with
  | nil => exact .nil
  | cons a run ih =>
    cases hout : isOut a with
    | true =>
      rw [filter_cons_of_neg (by simp [hout])] at h
      rw [restoreFiltered_out hout]
      exact .cons (fitsAt_untouched a) (ih h)
    | false =>
      rw [filter_cons_of_pos (by simp [hout])] at h
      cases h with
      | cons ho h =>
        rw [restoreFiltered_in hout]
        exact .cons ho (ih h)

theorem rebuilt_restoreFiltered (hface : ∀ {a b}, b.face = a.face → isOut b = isOut a)
    (hlen : (run.filter (!isOut ·)).length = os.length)
    (h : Forall₃ RebuiltAt run (restoreFiltered isOut run os) run') :
    Forall₃ RebuiltAt (run.filter (!isOut ·)) os (run'.filter (!isOut ·)) := by
  induction run generalizing os run' with
  | nil =>
    cases h
    cases length_eq_zero_iff.1 hlen.symm
    exact .nil
  | cons a run ih =>
    cases hout : isOut a with
    | true =>
      rw [filter_cons_of_neg (by simp [hout])] at hlen ⊢
      rw [restoreFiltered_out hout] at h
      cases h with
      | cons hb h =>
        rw [filter_cons_of_neg (by simp [hface hb.rebuilt.face_eq, hout])]
        exact ih hlen h
    | false =>
      rw [filter_cons_of_pos (by simp [hout])] at hlen ⊢
      cases os with
      | nil => cases hlen
      | cons o os =>
        rw [restoreFiltered_in hout] at h
        cases h with
        | cons hb h =>
          rw [filter_cons_of_pos (by simp [hface hb.rebuilt.face_eq, hout])]
          exact .cons hb (ih (Nat.succ.inj hlen) h)

end

/-! ## Clauses and chains -/

theorem Atom.isClause_of_face (h : b.face = a.face) : b.isClause = a.isClause :=
  Atom.eq_of_face (fun c => by cases c <;> rfl) h

namespace Member

/-- The atoms that a member was put together from. -/
def source : Member → List Atom
  | given a => [a]
  | fresh word clause => word :: clause.parts

/-- The member is an atom of the run, or a clause. -/
def Proper : Member → Prop
  | given _ => True
  | fresh _ clause => clause.isClause = true

/-- Members that were put together in the same way. -/
inductive Like : Member → Member → Prop
  | given {a b : Atom} : b.face = a.face → Like (.given a) (.given b)
  | conditional {word word' cond cond' body body' : Atom} {lv : Level} {name : String} :
      Like (.fresh word (.clause lv name (some cond) body))
        (.fresh word' (.clause lv name (some cond') body'))
  | unconditional {word word' body body' : Atom} {lv : Level} {name : String} :
      Like (.fresh word (.clause lv name none body)) (.fresh word' (.clause lv name none body'))

theorem length_source (h : m.Like m') : m'.source.length = m.source.length := by
  cases h <;> rfl

theorem fits (h : FitsAt m.atom o) : Forall₂ FitsAt m.source (restoreMember m o) := by
  cases m with
  | given => exact .cons h .nil
  | fresh word clause => exact .cons (fitsAt_untouched word) h.fits.parts

theorem rebuilt (hlike : m.Like m') (hfits : FitsAt m.atom o)
    (h : Forall₃ RebuiltAt m.source (restoreMember m o) m'.source) : RebuiltAt m.atom o m'.atom := by
  cases hlike with
  | given =>
    cases h with
    | cons h _ => exact h
  | conditional | unconditional =>
    cases h with
    | cons _ h => exact ⟨.of_parts hfits.fits rfl rfl rfl h, rfl⟩

end Member

/-- Clauses, from their words, conditions and bodies. -/
def memberGrouping : Grouping Member where
  source := Member.source
  atom := Member.atom
  restore := restoreMember
  Proper _ := True
  Like := Member.Like
  length_source := Member.length_source
  fits _ h := Member.fits h
  rebuilt _ hlike hfits h := Member.rebuilt hlike hfits h

namespace Phrase

/-- The atoms that a phrase was put together from. -/
def source : Phrase → List Atom
  | atom a => [a]
  | chain clauses => clauses.flatMap Member.source

/-- Phrases that were put together in the same way. -/
inductive Like : Phrase → Phrase → Prop
  | atom {a b : Atom} : Like (.atom a) (.atom b)
  | chain {clauses clauses' : List Member} : Forall₂ Member.Like clauses clauses' →
      Like (.chain clauses) (.chain clauses')

end Phrase

/-- Chains, from their clauses. -/
def phraseGrouping (lv : Level) : Grouping Phrase where
  source := Phrase.source
  atom := Phrase.toAtom lv
  restore := restorePhrase
  Proper _ := True
  Like := Phrase.Like
  length_source h := by
    cases h with
    | atom => rfl
    | chain hclauses =>
      rw [Phrase.source, Phrase.source, length_flatMap, length_flatMap]
      congr 1
      induction hclauses with
      | nil => rfl
      | cons hm _ ih => rw [map_cons, map_cons, ih, Member.length_source hm]
  fits {p o} _ h := by
    cases p with
    | atom a => exact .cons h .nil
    | chain clauses => exact memberGrouping.fits_all (fun _ _ => trivial) h.fits.parts
  rebuilt {p p' o} _ hlike hfits h := by
    cases hlike with
    | atom =>
      cases h with
      | cons h _ => exact h
    | chain hclauses =>
      have hparts := memberGrouping.rebuilt_all hclauses (fun _ _ => trivial) hfits.fits.parts h
      exact ⟨.of_parts hfits.fits rfl rfl rfl hparts, rfl⟩

section
variable {lv : Level} {run run' : List Atom}

theorem MembersOf.source_eq (h : MembersOf lv run ms) : ms.flatMap Member.source = run := by
  induction h with
  | nil => rfl
  | cons hm _ ih =>
    rw [flatMap_cons, ih]
    cases hm <;> rfl

theorem MembersOf.proper (h : MembersOf lv run ms) : ∀ m ∈ ms, m.Proper := by
  induction h with
  | nil => exact forall_mem_nil _
  | cons hm _ ih =>
    refine forall_mem_cons.2 ⟨?_, ih⟩
    cases hm <;> trivial

theorem MembersOf.like (h : MembersOf lv run ms) (hface : SameFaces run' run) :
    ∃ ms', MembersOf lv run' ms' ∧ Forall₂ Member.Like ms ms' := by
  induction h generalizing run' with
  | nil =>
    cases length_eq_zero_iff.1 hface.length_eq
    exact ⟨[], .nil, .nil⟩
  | cons hm _ ih =>
    cases hm with
    | given hw =>
      obtain ⟨b, run', rfl, hb, hrest⟩ := sameFaces_cons_inv hface
      obtain ⟨ms', hms', hlike⟩ := ih hrest
      refine ⟨_, .cons (.given ?_) hms', .cons (.given hb) hlike⟩
      rintro l w rfl
      obtain ⟨l', rfl⟩ := Atom.of_face_word hb.symm
      exact hw l' w rfl
    | conditional hw hc =>
      obtain ⟨word, run', rfl, hword, hface₁⟩ := sameFaces_cons_inv hface
      obtain ⟨paren, run', rfl, hparen, hface₂⟩ := sameFaces_cons_inv hface₁
      obtain ⟨block, run', rfl, hblock, hrest⟩ := sameFaces_cons_inv hface₂
      obtain ⟨l', rfl⟩ := Atom.of_face_word hword
      obtain ⟨pl', praw', pr', pc', rfl⟩ := Atom.of_face_paren hparen
      obtain ⟨bl', braw', br', bb', rfl⟩ := Atom.of_face_block hblock
      obtain ⟨ms', hms', hlike⟩ := ih hrest
      exact ⟨_, .cons (.conditional hw hc) hms', .cons .conditional hlike⟩
    | unconditional hw hc =>
      obtain ⟨word, run', rfl, hword, hface₁⟩ := sameFaces_cons_inv hface
      obtain ⟨block, run', rfl, hblock, hrest⟩ := sameFaces_cons_inv hface₁
      obtain ⟨l', rfl⟩ := Atom.of_face_word hword
      obtain ⟨bl', braw', br', bb', rfl⟩ := Atom.of_face_block hblock
      obtain ⟨ms', hms', hlike⟩ := ih hrest
      exact ⟨_, .cons (.unconditional hw hc) hms', .cons .unconditional hlike⟩

theorem Joined.source_eq (h : Joined ms ps)
    (hms : ∀ m ∈ ms, m.Proper) : ps.flatMap Phrase.source = ms.flatMap Member.source := by
  induction h with
  | nil => rfl
  | @atom m _ _ hm _ ih =>
    obtain ⟨hproper, hrest⟩ := forall_mem_cons.1 hms
    rw [flatMap_cons, flatMap_cons, ih hrest]
    cases m with
    | given => rfl
    | fresh => exact absurd hproper (by simpa [Member.Proper, Member.atom] using hm)
  | chain _ _ _ ih =>
    rw [flatMap_cons, flatMap_append, ih (forall_mem_append.1 hms).2]
    rfl

theorem Member.Like.clauseName_eq (h : m.Like m') : m'.atom.clauseName = m.atom.clauseName := by
  cases h with
  | given h => exact Atom.eq_of_face (fun c => by cases c <;> rfl) h
  | _ => rfl

theorem Member.Like.split (h : m.Like m') :
    m.atom.isClause = false ∧ m'.atom.isClause = false ∧ Phrase.Like (.atom m.atom) (.atom m'.atom) ∨
      m.atom.isClause = true ∧ m'.atom.isClause = true ∧ m.Like m' := by
  have heq : m'.atom.isClause = m.atom.isClause := by
    cases h with
    | given h => exact Atom.isClause_of_face h
    | _ => rfl
  cases hm : m.atom.isClause with
  | false => exact .inl ⟨rfl, heq.trans hm, .atom⟩
  | true => exact .inr ⟨rfl, heq.trans hm, h⟩

theorem phrases_source (h : phrases lv run = .ok ps) : ps.flatMap Phrase.source = run := by
  obtain ⟨ms, hms, hps⟩ := phrases_inv h
  exact (hps.source_eq hms.proper).trans hms.source_eq

theorem phrases_like (hface : SameFaces run' run) (h : phrases lv run = .ok ps) :
    ∃ ps', phrases lv run' = .ok ps' ∧ Forall₂ Phrase.Like ps ps' := by
  obtain ⟨ms, hms, hps⟩ := bind_ok h
  obtain ⟨ms', hms', hlike⟩ := (membersOf_of_members hms).like hface
  have hjoin : Agree (fun _ => True) (Forall₂ Phrase.Like) (joinClauses none ms)
      (joinClauses none ms') :=
    joinClauses_agree (fun _ _ => trivial) Member.Like.clauseName_eq Member.Like.split .chain .none hlike
  rw [hps] at hjoin
  rw [phrases, hms'.members_eq]
  exact hjoin.exists_ok

variable {ps : List Phrase} {os : List Outcome}

theorem fits_restorePhrases (h : phrases lv run = .ok ps)
    (hfits : Forall₂ FitsAt (ps.map (Phrase.toAtom lv)) os) :
    Forall₂ FitsAt run ((List.zipWith restorePhrase ps os).flatten) := by
  rw [← phrases_source h]
  exact (phraseGrouping lv).fits_all (fun _ _ => trivial) hfits

theorem phrases_rebuilt (h : phrases lv run = .ok ps)
    (hfits : Forall₂ FitsAt (ps.map (Phrase.toAtom lv)) os)
    (hr : Forall₃ RebuiltAt run ((List.zipWith restorePhrase ps os).flatten) run') :
    ∃ ps', phrases lv run' = .ok ps' ∧
      Forall₃ RebuiltAt (ps.map (Phrase.toAtom lv)) os (ps'.map (Phrase.toAtom lv)) := by
  obtain ⟨ps', hps', hlike⟩ := phrases_like (Rebuilt.sameFaces (rebuiltAt_iff.1 hr).1) h
  rw [← phrases_source h, ← phrases_source hps'] at hr
  exact ⟨ps', hps', (phraseGrouping lv).rebuilt_all hlike (fun _ _ => trivial) hfits hr⟩

end

/-! ## Calls and subscripts -/

/-- Applications of heads with one face to as many brackets. -/
structure Application.Like (p p' : Application) : Prop where
  head : p'.head.face = p.head.face
  length : p'.brackets.length = p.brackets.length

section
variable {lv : Level}

theorem Application.Like.takes_eq {p p' : Application} (h : p.Like p')
    (hface : b.face = a.face) : p'.takes b = p.takes a := by
  have hempty : p'.brackets.isEmpty = p.brackets.isEmpty := by
    rw [Bool.eq_iff_iff, isEmpty_iff_length_eq_zero, isEmpty_iff_length_eq_zero, h.length]
  rw [Application.takes, Application.takes, Atom.isArgumentBracket_of_face hface,
    Atom.isCallable_of_face h.head, hempty]

theorem applicationsFrom_like {run run' : List Atom} {p? p?' : Option Application}
    (hp : Option.Rel Application.Like p? p?') (h : SameFaces run' run) :
    Forall₂ Application.Like (applicationsFrom p? run) (applicationsFrom p?' run') := by
  induction h using SameFaces.induction generalizing p? p?' with
  | nil =>
    cases hp with
    | none => exact .nil
    | some hp => exact .cons hp .nil
  | @cons b a _ _ hb _ ih =>
    have hone : Application.Like ⟨a, []⟩ ⟨b, []⟩ := ⟨hb, rfl⟩
    cases hp with
    | none =>
      rw [applicationsFrom, applicationsFrom]
      exact ih (.some hone)
    | some hp =>
      rw [applicationsFrom, applicationsFrom, hp.takes_eq hb]
      split
      · exact ih (.some ⟨hp.head, by simp [Application.push, hp.length]⟩)
      · exact .cons hp (ih (.some hone))

theorem fitsAt_bracket {os} (hb : b.isUnreadBracket = true)
    (h : Forall₂ Fits b.raw os) : FitsAt b (.mk (b.withRaw (os.map Outcome.now)) os []) := by
  refine ⟨.of_bracket hb h rfl (.inr rfl), ?_⟩
  cases b <;> rfl

theorem rebuiltAt_bracket {b' os} (hb : b.isUnreadBracket = true)
    (h : RebuiltAt b (.mk (b.withRaw (os.map Outcome.now)) os []) b') :
    ∃ raw, Forall₃ Rebuilt b.raw os raw ∧ (SameLevels raw b.raw ∨ raw = os.map Outcome.now) ∧
      b' = b.withRaw raw := by
  rcases h.rebuilt.bracket_cases hb with ⟨hs, -⟩ | ⟨raw, hraw, hl, heq⟩
  · cases b <;> first | cases hb | simp_all [Outcome.now, Atom.withRaw, Atom.settled, Atom.isUnreadBracket]
  · refine ⟨raw, hraw, hl, Atom.eq_of_unplaced heq ?_⟩
    rw [h.level]
    cases b <;> rfl

theorem IsToken.isUnreadBracket (hb : IsToken lv b) (hbr : b.isArgumentBracket = true) :
    b.isUnreadBracket = true := by
  cases b with
  | paren l raw r contents =>
    obtain ⟨-, rfl, -⟩ := hb.paren_inv rfl
    rfl
  | list l raw r contents =>
    obtain ⟨-, rfl, -⟩ := hb.list_inv rfl
    rfl
  | _ => cases hbr

theorem parts_applyTo (hbr : b.isArgumentBracket = true) (callee : Atom) :
    (callee.applyTo b).parts = [callee] ∧ (callee.applyTo b).raw = b.raw ∧
      (callee.applyTo b).isUnreadRow = false := by
  cases b <;> first | exact ⟨rfl, rfl, rfl⟩ | cases hbr

theorem shell_applyTo (callee callee' b : Atom) (raw : List Atom) :
    (callee'.applyTo (b.withRaw raw)).shell = (callee.applyTo b).shell ∧
      (callee'.applyTo (b.withRaw raw)).level = (callee.applyTo b).level := by
  cases b <;> exact ⟨rfl, rfl⟩

theorem applyTo_fits {callee} (hbr : b.isArgumentBracket = true) (h : FitsAt (callee.applyTo b) o) :
    ∃ oc, o.parts = [oc] ∧ FitsAt callee oc ∧ Forall₂ Fits b.raw o.run := by
  obtain ⟨hparts, hraw, -⟩ := parts_applyTo hbr callee
  have hfits := h.fits.parts
  have hrun := h.fits.run
  rw [hparts] at hfits
  rw [hraw] at hrun
  obtain ⟨oc, os, hc, hnil, ho⟩ := forall₂_cons_left_iff.1 hfits
  rw [forall₂_nil_left_iff.1 hnil] at ho
  exact ⟨oc, ho, hc, hrun⟩

theorem applyTo_rebuilt {callee callee' oc raw}
    (hbr : b.isArgumentBracket = true) (ho : o.parts = [oc]) (hcallee : RebuiltAt callee oc callee')
    (hraw : Forall₃ Rebuilt b.raw o.run raw)
    (hl : SameLevels raw b.raw ∨ raw = o.run.map Outcome.now) :
    RebuiltAt (callee.applyTo b) o (callee'.applyTo (b.withRaw raw)) := by
  have hbr' : (b.withRaw raw).isArgumentBracket = true := by cases b <;> first | rfl | cases hbr
  obtain ⟨hparts, hrun, hrow⟩ := parts_applyTo hbr callee
  obtain ⟨hparts', hrun', -⟩ := parts_applyTo hbr' callee'
  obtain ⟨hshell, hlevel⟩ := shell_applyTo callee callee' b raw
  rw [Atom.raw_withRaw hraw.length_right] at hrun'
  refine ⟨.again hshell ?_ ?_ ?_ ?_, hlevel⟩
  · rw [hparts, ho, hparts']
    exact .cons hcallee.rebuilt .nil
  · rw [hparts, hparts']
    exact sameLevels_cons.2 ⟨hcallee.level, rfl⟩
  · rwa [hrun, hrun']
  · rw [hrun, hrun']
    exact hl.imp_right fun h => ⟨hrow, h⟩

/-- The head, applied to the brackets. -/
def applied (head : Atom) (brackets : List Atom) : Atom :=
  brackets.foldr (fun b callee => callee.applyTo b) head

theorem Application.atom_eq (p : Application) : p.atom = applied p.head p.brackets.reverse := by
  rw [Application.atom, applied, foldr_reverse]

theorem fits_restoreBrackets {head brackets}
    (hb : ∀ b ∈ brackets, IsToken lv b ∧ b.isArgumentBracket = true)
    (h : FitsAt (applied head brackets) o) :
    Forall₂ FitsAt (head :: brackets.reverse) (restoreBrackets brackets o) := by
  induction brackets generalizing o with
  | nil => exact .cons h .nil
  | cons b brackets ih =>
    obtain ⟨⟨ht, hbr⟩, hrest⟩ := forall_mem_cons.1 hb
    obtain ⟨oc, hparts, hcallee, hrun⟩ := applyTo_fits hbr h
    simp only [restoreBrackets, hparts]
    rw [reverse_cons, ← cons_append]
    exact rel_append (ih hrest hcallee) (.cons (fitsAt_bracket (ht.isUnreadBracket hbr) hrun) .nil)

theorem rebuilt_restoreBrackets {head head' brackets brackets'}
    (hb : ∀ b ∈ brackets, IsToken lv b ∧ b.isArgumentBracket = true)
    (hlen : brackets'.length = brackets.length) (hfits : FitsAt (applied head brackets) o)
    (h : Forall₃ RebuiltAt (head :: brackets.reverse) (restoreBrackets brackets o)
      (head' :: brackets'.reverse)) :
    RebuiltAt (applied head brackets) o (applied head' brackets') := by
  induction brackets generalizing o brackets' with
  | nil =>
    cases length_eq_zero_iff.1 hlen
    cases h with
    | cons h _ => exact h
  | cons b brackets ih =>
    cases brackets' with
    | nil => cases hlen
    | cons b' brackets' =>
      obtain ⟨⟨ht, hbr⟩, hrest⟩ := forall_mem_cons.1 hb
      obtain ⟨oc, hparts, hcallee, -⟩ := applyTo_fits hbr hfits
      simp only [restoreBrackets, hparts] at h
      rw [reverse_cons, reverse_cons, ← cons_append, ← cons_append] at h
      -- the callee has all brackets but the last
      obtain ⟨hinner, hlast⟩ := h.of_append_of_length
        (fits_restoreBrackets hrest hcallee).length_eq (by simpa using hlen)
      cases hlast with
      | cons hb' _ =>
        obtain ⟨raw, hraw, hl, rfl⟩ := rebuiltAt_bracket (ht.isUnreadBracket hbr) hb'
        exact applyTo_rebuilt hbr hparts (ih hrest (Nat.succ.inj hlen) hcallee hinner) hraw hl

end

/-- Calls and subscripts are put together from an atom and the brackets after it. -/
def applicationGrouping (lv : Level) : Grouping Application where
  source := Application.source
  atom := Application.atom
  restore p := restoreBrackets p.brackets.reverse
  Proper := IsApplication lv
  Like := Application.Like
  length_source h := by rw [Application.source, Application.source, length_cons, h.length]; rfl
  fits {p o} hp h := by
    rw [Application.atom_eq] at h
    have := fits_restoreBrackets (fun b hb => hp.brackets b (mem_reverse.1 hb)) h
    rwa [reverse_reverse] at this
  rebuilt {p p' o} hp hlike hfits h := by
    rw [Application.atom_eq] at hfits ⊢
    rw [Application.atom_eq]
    refine rebuilt_restoreBrackets (fun b hb => hp.brackets b (mem_reverse.1 hb)) ?_ hfits ?_
    · simpa using hlike.length
    · rw [reverse_reverse, reverse_reverse]
      exact h

section
variable {lv : Level} {run run' : List Atom} {os : List Outcome}

theorem fits_restoreApplications (hp : Parts lv run) (hfits : Forall₂ FitsAt (groupCalls run) os) :
    Forall₂ FitsAt run (restoreApplications (applications run) os) := by
  have h : Forall₂ FitsAt ((applications run).flatMap Application.source)
      (restoreApplications (applications run) os) :=
    (applicationGrouping lv).fits_all (applications_isApplication hp) hfits
  rwa [source_applications] at h

theorem groupCalls_rebuilt (hp : Parts lv run) (hfits : Forall₂ FitsAt (groupCalls run) os)
    (hr : Forall₃ RebuiltAt run (restoreApplications (applications run) os) run') :
    Forall₃ RebuiltAt (groupCalls run) os (groupCalls run') := by
  have hface := Rebuilt.sameFaces (rebuiltAt_iff.1 hr).1
  refine (applicationGrouping lv).rebuilt_all (applicationsFrom_like .none hface)
    (applications_isApplication hp) hfits ?_
  show Forall₃ RebuiltAt ((applications run).flatMap Application.source) _
    ((applications run').flatMap Application.source)
  rw [source_applications, source_applications]
  exact hr

end

/-! ## The operator split -/

section
variable {lv : Level} {run run' : List Atom} {os : List Outcome}

theorem splitPointFrom_of_sameFaces (h : SameFaces run' run) (i : Nat) (after : Bool)
    (best : Option SplitPoint) :
    splitPointFrom i after best run' = splitPointFrom i after best run := by
  induction h using SameFaces.induction generalizing i after best with
  | nil => rfl
  | @cons b a _ _ hb _ ih =>
    cases a with
    | operator l o =>
      obtain ⟨l', rfl⟩ := Atom.of_face_operator hb
      simp only [splitPointFrom, ih]
    | _ =>
      rw [splitPointFrom, splitPointFrom, ih]
      · simp
      · rintro l o rfl
        obtain ⟨l', heq⟩ := Atom.of_face_operator hb.symm
        cases heq

theorem reduce_cases (hp : Parts lv run)
    (hpoint : splitPoint? run = .ok point) (h : reduce lv run = .ok out) :
    (point = none ∧ out = run) ∨ ∃ p left op right, point = some p ∧ run = left ++ op :: right ∧
      op.isOperator = true ∧ p.at_ = left.length ∧ out = [operation lv op left right] := by
  have hends := splitPointFrom_ends 0 false none fun l o hm => (hp _ hm).1.operator_inv.2
  rw [reduce, hpoint] at h
  rw [splitPoint?] at hpoint
  rw [hpoint] at hends
  cases point with
  | none =>
    cases h
    exact .inl ⟨rfl, rfl⟩
  | some p =>
    rcases hends with hnone | ⟨left, l, o, right, rfl, hat⟩
    · cases hnone
    · have hat : p.at_ = left.length := by omega
      simp only [bind, Except.bind, hat, drop_left, take_left] at h
      cases h
      exact .inr ⟨p, left, _, right, rfl, rfl, rfl, hat, rfl⟩

theorem reduce_of_splitPoint {p left right op}
    (h : splitPoint? (left ++ op :: right) = .ok (some p)) (hat : p.at_ = left.length) :
    reduce lv (left ++ op :: right) = .ok [operation lv op left right] := by
  rw [reduce, h]
  simp only [bind, Except.bind, hat, drop_left, take_left]
  rfl

theorem operation_parts {op left right}
    (h : FitsAt (operation lv op left right) o) : ∃ oop ol or, o.parts = [oop, ol, or] ∧
      FitsAt op oop ∧ FitsAt (.item lv left false []) ol ∧ FitsAt (.item lv right false []) or := by
  obtain ⟨oop, os, hop, hargs, ho⟩ := forall₂_cons_left_iff.1 h.fits.parts
  cases hargs with
  | cons hl hargs =>
    cases hargs with
    | cons hr hargs =>
      cases hargs
      exact ⟨oop, _, _, ho, hop, hl, hr⟩

theorem fits_restoreSplit (hp : Parts lv run)
    (hpoint : splitPoint? run = .ok point) (h : reduce lv run = .ok out)
    (hfits : Forall₂ FitsAt out os) : Forall₂ FitsAt run (restoreSplit point.isSome os) := by
  rcases reduce_cases hp hpoint h with ⟨rfl, rfl⟩ | ⟨p, left, op, right, rfl, rfl, -, -, rfl⟩
  · exact hfits
  · cases hfits with
    | cons ho hfits =>
      cases hfits
      obtain ⟨oop, ol, or, hparts, hop, hleft, hright⟩ := operation_parts ho
      simp only [restoreSplit, Option.isSome_some, hparts]
      exact rel_append (hleft.fits.row rfl) (.cons hop (hright.fits.row rfl))

theorem reduce_rebuilt (hp : Parts lv run)
    (hpoint : splitPoint? run = .ok point) (h : reduce lv run = .ok out)
    (hfits : Forall₂ FitsAt out os)
    (hr : Forall₃ RebuiltAt run (restoreSplit point.isSome os) run') :
    splitPoint? run' = .ok point ∧ ∃ out', reduce lv run' = .ok out' ∧
      Forall₃ RebuiltAt out os out' := by
  have hpoint' : splitPoint? run' = .ok point := by
    rw [splitPoint?, splitPointFrom_of_sameFaces (Rebuilt.sameFaces (rebuiltAt_iff.1 hr).1)]
    exact hpoint
  refine ⟨hpoint', ?_⟩
  rcases reduce_cases hp hpoint h with ⟨rfl, rfl⟩ | ⟨p, left, op, right, rfl, rfl, -, hat, rfl⟩
  · refine ⟨run', ?_, hr⟩
    rw [reduce, hpoint']
    rfl
  · cases hfits with
    | cons ho hfits =>
      cases hfits
      obtain ⟨oop, ol, or, hparts, hoop, hleft, hright⟩ := operation_parts ho
      simp only [restoreSplit, Option.isSome_some, hparts] at hr
      obtain ⟨left', rest', rfl, hleft', hrest⟩ := hr.of_append (hleft.fits.row rfl).length_eq
      cases hrest with
      | @cons _ _ op' _ _ right' hop' hright' =>
        refine ⟨_, reduce_of_splitPoint hpoint' (hat.trans hleft'.length_right.symm), .cons ?_ .nil⟩
        have hitem : ∀ {raw raw' : List Atom} {oi : Outcome}, FitsAt (.item lv raw false []) oi →
            Forall₃ RebuiltAt raw oi.run raw' →
            RebuiltAt (.item lv raw false []) oi (.item lv raw' false []) := by
          intro raw raw' oi hfits h
          obtain ⟨hraw, hl⟩ := rebuiltAt_iff.1 h
          exact ⟨.of_run hfits.fits rfl hraw (.inl hl), rfl⟩
        have hargs := Forall₃.cons (hitem hleft hleft') (.cons (hitem hright hright') .nil)
        exact ⟨.of_parts ho.fits rfl rfl rfl (by rw [hparts]; exact .cons hop' hargs), rfl⟩

end

/-! ## The whole structure -/

section
variable {lv : Level} {run run' : List Atom} {s : Structured} {os : List Outcome}

theorem structureRun_eq (lv : Level) (run : List Atom) :
    structureRun lv run = (structured lv run).map Structured.atoms := by
  rw [structureRun, structured]
  cases dropComments run with
  | error f => rfl
  | ok kept =>
    simp only [groupSyntax, bind, Except.bind]
    cases phrases lv kept with
    | error f => rfl
    | ok ps =>
      simp only [Except.map, groupCalls, mergeCalls]
      generalize (applications _).map Application.atom = merged
      cases hpoint : splitPoint? merged with
      | error f => simp only [reduce, hpoint, bind, Except.bind]
      | ok point => cases reduce lv merged <;> rfl

theorem isSeparatorAtom_of_face (h : b.face = a.face) : b.isSeparatorAtom = a.isSeparatorAtom :=
  Atom.eq_of_face (fun c => by cases c <;> rfl) h

theorem dropComments_eq_ok {kept} : dropComments run = .ok kept ↔
    run.any Atom.isSeparatorAtom = false ∧ kept = run.filter (!·.isComment) := by
  have heq : dropComments run = if run.any Atom.isSeparatorAtom then .error .unexpectedSeparator
      else .ok (run.filter (!·.isComment)) := rfl
  rw [heq]
  cases run.any Atom.isSeparatorAtom <;> simp [eq_comm]

theorem structured_ok (ht : Tokens lv run) (h : structured lv run = .ok s) :
    ∃ ps point, phrases lv (run.filter (!·.isComment)) = .ok ps ∧
      s = ⟨run, ps, applications (ps.map (Phrase.toAtom lv)), point.isSome, s.atoms⟩ ∧
      splitPoint? (groupCalls (ps.map (Phrase.toAtom lv))) = .ok point ∧
      reduce lv (groupCalls (ps.map (Phrase.toAtom lv))) = .ok s.atoms ∧
      run.any Atom.isSeparatorAtom = false ∧
      Parts lv (run.filter (!·.isComment)) ∧ Parts lv (ps.map (Phrase.toAtom lv)) := by
  obtain ⟨kept, hkept, h⟩ := bind_ok h
  obtain ⟨ps, hps, h⟩ := bind_ok h
  obtain ⟨point, hpoint, h⟩ := bind_ok h
  obtain ⟨atoms, hatoms, h⟩ := bind_ok h
  cases h
  have hparts := dropComments_ends ht
  rw [hkept] at hparts
  have hjoined := groupSyntax_ends hparts
  rw [groupSyntax, hps] at hjoined
  obtain ⟨hsep, rfl⟩ := dropComments_eq_ok.1 hkept
  exact ⟨ps, point, hps, rfl, hpoint, hatoms, hsep, hparts, hjoined⟩

theorem fits_restore (hlv : lv.tag = 0) (ht : Tokens lv run) (h : structured lv run = .ok s)
    (hfits : Forall₂ FitsAt s.atoms os) : Forall₂ FitsAt run (s.restore os) := by
  obtain ⟨ps, point, hps, hs, hpoint, hreduce, -, hkept, hparts⟩ := structured_ok ht h
  have hmerged := fits_restoreSplit (groupCalls_parts hlv hparts) hpoint hreduce hfits
  have hphrases := fits_restoreApplications hparts hmerged
  have hatoms := fits_restorePhrases hps hphrases
  rw [hs]
  exact fits_restoreFiltered hatoms

/-- A lexed run that is rebuilt has a structure that is rebuilt. -/
theorem structured_rebuilt (hlv : lv.tag = 0) (ht : Tokens lv run) (h : structured lv run = .ok s)
    (hfits : Forall₂ FitsAt s.atoms os) (hr : Forall₃ RebuiltAt run (s.restore os) run') :
    ∃ s', structured lv run' = .ok s' ∧ Forall₃ RebuiltAt s.atoms os s'.atoms := by
  obtain ⟨ps, point, hps, hs, hpoint, hreduce, hsep, hkept, hparts⟩ := structured_ok ht h
  have hfmerged := fits_restoreSplit (groupCalls_parts hlv hparts) hpoint hreduce hfits
  have hfphrases := fits_restoreApplications hparts hfmerged
  have hfatoms := fits_restorePhrases hps hfphrases
  rw [hs] at hr
  have hface := Rebuilt.sameFaces (rebuiltAt_iff.1 hr).1
  have hdrop : dropComments run' = .ok (run'.filter (!·.isComment)) :=
    dropComments_eq_ok.2 ⟨by rw [any_of_sameFaces isSeparatorAtom_of_face hface, hsep], rfl⟩
  have hatoms := rebuilt_restoreFiltered (fun h => Atom.isComment_of_face h) hfatoms.length_eq hr
  obtain ⟨ps', hps', hphrases⟩ := phrases_rebuilt hps hfphrases hatoms
  have hmerged := groupCalls_rebuilt hparts hfmerged hphrases
  obtain ⟨hpoint', out', hreduce', hout⟩ :=
    reduce_rebuilt (groupCalls_parts hlv hparts) hpoint hreduce hfits hmerged
  refine ⟨⟨run', ps', applications (ps'.map (Phrase.toAtom lv)), point.isSome, out'⟩, ?_, hout⟩
  rw [structured, hdrop]
  show (phrases lv _ >>= _) = _
  rw [hps']
  show (splitPoint? (groupCalls (ps'.map (Phrase.toAtom lv))) >>= _) = _
  rw [hpoint']
  show (reduce lv (groupCalls (ps'.map (Phrase.toAtom lv))) >>= _) = _
  rw [hreduce']
  rfl

end

end WatScript
