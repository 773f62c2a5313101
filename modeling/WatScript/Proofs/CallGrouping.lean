import Mathlib.Data.List.Chain
import WatScript.Proofs.Structure

/-!
# Grouping calls

One round of merging leaves nothing to merge: a callable atom has taken every bracket behind it, and what
came of them is callable again and no bracket (`isChain_groupCalls`). A run in which no bracket applies stays
as it is (`mergeCalls_of_isChain`), so merging until nothing changes takes two rounds at most. The brackets of
an application are its outermost layers, the last one first (`Atom.expand_foldl`).
-/

namespace WatScript

open List Atom

/-- Merging round after round up to the first one that merges nothing, with the number of rounds. -/
inductive MergeRounds : List Atom → List Atom → Nat → Prop
  | last {run} : (mergeCalls run).2 = false → MergeRounds run (mergeCalls run).1 1
  | more {run out n} : (mergeCalls run).2 = true → MergeRounds (mergeCalls run).1 out n →
      MergeRounds run out (n + 1)

namespace Atom

/-- The second atom is no bracket that applies to the first. -/
def Spares (a b : Atom) : Prop := a.isCallable = true → b.isArgumentBracket = false

/-- What a call or a subscript applies, and the bracket that it was made of. -/
def unapplied? : Atom → Option (Atom × Atom)
  | .call lv callee raw _ _ _ => some (callee, .paren lv raw false [])
  | .access lv callee raw _ _ => some (callee, .list lv raw false [])
  | _ => none

/-- The atom with its outermost `n` applications taken apart. -/
def expand : Nat → Atom → List Atom
  | 0, a => [a]
  | n + 1, a =>
    match a.unapplied? with
    | some (callee, bracket) => expand n callee ++ [bracket]
    | none => [a]

end Atom

section
variable {run : List Atom} {p : Application}

/-! ## What one round leaves -/

theorem Application.Applies.atom_cases (h : p.Applies) : p.brackets = [] ∧ p.atom = p.head ∨
    p.brackets ≠ [] ∧ p.atom.isCallable = true ∧ p.atom.isArgumentBracket = false := by
  obtain ⟨head, brackets⟩ := p
  rcases eq_nil_or_concat brackets with rfl | ⟨bs, b, rfl⟩
  · exact .inl ⟨rfl, rfl⟩
  · refine .inr ⟨by simp, ?_⟩
    have hb : b.isArgumentBracket = true := h.arguments b (by simp)
    simp only [Application.atom, concat_eq_append, foldl_append, foldl_cons, foldl_nil]
    cases b with
    | paren | list => exact ⟨rfl, rfl⟩
    | _ => cases hb

theorem applicationsFrom_some (p : Application) (run : List Atom) :
    ∃ bs later, applicationsFrom (some p) run = ⟨p.head, bs⟩ :: later := by
  induction run generalizing p with
  | nil => exact ⟨p.brackets, [], by rw [applicationsFrom]⟩
  | cons a run ih =>
    rw [applicationsFrom]
    split
    · exact ih (p.push a)
    · exact ⟨p.brackets, _, rfl⟩

theorem isChain_applicationsFrom (p? : Option Application) (run : List Atom) :
    (applicationsFrom p? run).IsChain fun p q => p.takes q.head = false := by
  fun_induction applicationsFrom p? run with
  | case1 => exact .nil
  | case2 p => exact .singleton p
  | case3 a rest ih => exact ih
  | case4 p a rest _ ih => exact ih
  | case5 p a rest htakes ih =>
    obtain ⟨bs, later, heq⟩ := applicationsFrom_some ⟨a, []⟩ rest
    rw [heq] at ih ⊢
    exact isChain_cons_cons.2 ⟨by simpa using htakes, ih⟩

theorem isChain_groupCalls (run : List Atom) : (groupCalls run).IsChain Spares := by
  have happlies := applications_applies run
  have htakes := isChain_iff_forall_rel_of_append_cons_cons.1 (isChain_applicationsFrom none run)
  refine (isChain_map Application.atom).2 (isChain_iff_forall_rel_of_append_cons_cons.2 ?_)
  intro p q before after heq hcallable
  have hp : p.Applies := happlies p (by simp [heq])
  have hq : q.Applies := happlies q (by simp [heq])
  have hrefused : p.takes q.head = false := htakes heq
  rcases hq.atom_cases with ⟨-, hq⟩ | ⟨-, -, hq⟩
  · -- the bracket was refused, so the atom before it is neither callable nor an application
    rw [hq]
    rcases hp.atom_cases with ⟨hnil, hp⟩ | ⟨hne, -⟩
    · rw [hp] at hcallable
      simpa [Application.takes, hnil, hcallable] using hrefused
    · simpa [Application.takes, hne] using hrefused
  · exact hq

theorem applicationsFrom_of_isChain {a} (h : (a :: run).IsChain Spares) :
    applicationsFrom (some ⟨a, []⟩) run = (a :: run).map (⟨·, []⟩) := by
  induction run generalizing a with
  | nil => rw [applicationsFrom]; rfl
  | cons b run ih =>
    obtain ⟨hab, hrest⟩ := isChain_cons_cons.1 h
    have htakes : (⟨a, []⟩ : Application).takes b = false := by
      cases hcallable : a.isCallable with
      | false => simp [Application.takes, hcallable]
      | true => simp [Application.takes, hab hcallable]
    rw [applicationsFrom, if_neg (by simp [htakes]), ih hrest]
    rfl

theorem mergeCalls_of_isChain (h : run.IsChain Spares) : mergeCalls run = (run, false) := by
  have happlications : applications run = run.map (⟨·, []⟩) := by
    cases run with
    | nil => rfl
    | cons a run =>
      rw [applications, applicationsFrom]
      exact applicationsFrom_of_isChain h
  simp [mergeCalls, happlications, Application.atom, Function.comp_def]

theorem mergeRounds_groupCalls (run : List Atom) : ∃ n ≤ 2, MergeRounds run (groupCalls run) n := by
  cases hmerged : (mergeCalls run).2 with
  | false => exact ⟨1, by decide, .last hmerged⟩
  | true =>
    have hagain := mergeCalls_of_isChain (isChain_groupCalls run)
    have hlast : MergeRounds (groupCalls run) (mergeCalls (groupCalls run)).1 1 := .last (by rw [hagain])
    rw [hagain] at hlast
    exact ⟨2, Nat.le_refl 2, .more hmerged hlast⟩

/-! ## Taking applications apart -/

/-- A bracket that holds nothing but an unread run of arguments. -/
def Atom.IsUnreadArgument (b : Atom) : Prop :=
  ∃ lv raw, b = .paren lv raw false [] ∨ b = .list lv raw false []

theorem Atom.expand_foldl {bs : List Atom} (h : ∀ b ∈ bs, b.IsUnreadArgument) (callee : Atom) (n : Nat) :
    expand (bs.length + n) (bs.foldl applyTo callee) = expand n callee ++ bs.map (mapLevel Level.bare) := by
  induction bs generalizing callee n with
  | nil => simp
  | cons b bs ih =>
    obtain ⟨⟨lv, raw, hb⟩, h⟩ := forall_mem_cons.1 h
    rw [length_cons, Nat.add_right_comm, Nat.add_assoc, foldl_cons, ih h]
    rcases hb with rfl | rfl <;> simp [expand, applyTo, unapplied?, mapLevel]

theorem Application.Applies.expand_atom (h : p.Applies)
    (hunread : ∀ b ∈ p.brackets, b.isArgumentBracket = true → b.IsUnreadArgument) :
    (expand p.brackets.length p.atom).map (mapLevel Level.bare) = p.source.map (mapLevel Level.bare) := by
  have hexpand := expand_foldl (fun b hb => hunread b hb (h.arguments b hb)) p.head 0
  rw [Nat.add_zero] at hexpand
  rw [Application.atom, hexpand, Application.source, expand, singleton_append, map_cons, map_cons, map_map]
  congr 2
  funext b
  cases b <;> rfl

end

/-- Merging is done after one round: a second one merges nothing, so that merging until nothing changes takes
at most two. In the result no bracket stands behind a callable atom, and taking the new applications apart
again, layer by layer, gives the run (up to tags, which new atoms do not have). -/
theorem calls_merge_in_one_round {run : List Atom}
    (hunread : ∀ a ∈ run, a.isArgumentBracket = true → a.IsUnreadArgument) :
    mergeCalls (mergeCalls run).1 = ((mergeCalls run).1, false) ∧
    (∃ n ≤ 2, MergeRounds run (groupCalls run) n) ∧
    ((groupCalls run).IsChain fun a b => a.isCallable = true → b.isArgumentBracket = false) ∧
    ∃ layers : List Nat, layers.length = (groupCalls run).length ∧
      (zipWith expand layers (groupCalls run)).flatten.map (mapLevel Level.bare) =
        run.map (mapLevel Level.bare) := by
  refine ⟨mergeCalls_of_isChain (isChain_groupCalls run), mergeRounds_groupCalls run, isChain_groupCalls run,
    (applications run).map (·.brackets.length), by simp [groupCalls, mergeCalls], ?_⟩
  have hsource : ∀ p ∈ applications run,
      (expand p.brackets.length p.atom).map (mapLevel Level.bare) = p.source.map (mapLevel Level.bare) := by
    intro p hp
    refine (applications_applies run p hp).expand_atom fun b hb => ?_
    exact forall_source hunread p hp b (mem_cons_of_mem _ hb)
  have hzip : zipWith expand ((applications run).map (·.brackets.length)) (groupCalls run) =
      (applications run).map fun p => expand p.brackets.length p.atom := by
    rw [groupCalls, mergeCalls, zipWith_map, zipWith_self]
  calc ((zipWith expand _ (groupCalls run)).flatten).map (mapLevel Level.bare)
      = (applications run).flatMap fun p => (expand p.brackets.length p.atom).map (mapLevel Level.bare) := by
        rw [hzip, ← flatMap_def, map_flatMap]
    _ = (applications run).flatMap fun p => p.source.map (mapLevel Level.bare) := flatMap_congr hsource
    _ = run.map (mapLevel Level.bare) := by rw [← map_flatMap, source_applications]

/-- `f(1)[2](3) if (x)`: the brackets behind `f` apply to it, those behind `if` do not. -/
theorem calls_merge_in_one_round_curried :
    let run := [.word .top "f", .paren .top [.unknown .top '1'] false [], .list .top [.unknown .top '2'] false [],
      .paren .top [.unknown .top '3'] false [], .word .top "if", .paren .top [.unknown .top 'x'] false []]
    (∀ a ∈ run, a.isArgumentBracket = true → a.IsUnreadArgument) ∧ (groupCalls run).length = 3 ∧
      (groupCalls run).IsChain fun a b => a.isCallable = true → b.isArgumentBracket = false := by
  intro run
  have hunread : ∀ a ∈ run, a.isArgumentBracket = true → a.IsUnreadArgument := by
    simp [run, isArgumentBracket, IsUnreadArgument]
  exact ⟨hunread, by decide, (calls_merge_in_one_round hunread).2.2.1⟩

end WatScript
