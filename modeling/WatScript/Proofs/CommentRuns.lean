import Mathlib.Data.List.Induction
import WatScript.Proofs.Flattening

/-!
# Runs with one comment more

`Inserted c pair run run'` says that `run'` is `run` with the comment `c` in it, in the run itself or
in one of its brackets. The comment may stand anywhere except alone in the last argument slot: there it
would make a slot of what was none, as `f()` has no arguments and `f(/**/)` has one.

Grouping brackets keeps runs that differ in a comment (`Inserted.groupPair`), so reading them goes in
step (`lockstep_inserted`).
-/

namespace WatScript

open List

/-! ## Slots -/

/-- The contents are separated by commas. -/
def Bracket.hasSlots : Bracket → Bool
  | .brace => false
  | .square | .round => true

/-- An argument slot begins after the atom: it is a comma or opens argument brackets. -/
def Atom.opensSlot : Atom → Bool
  | .unknown _ c => c == ',' || c == '(' || c == '['
  | _ => false

/-- The atom closes a pair with slots. -/
def Atom.closesSlots : Atom → Bool
  | .unknown _ c => c == ')' || c == ']'
  | _ => false

/-- An argument slot begins where the run ends; `open₀` says whether one has begun before it. -/
def endsOpen (open₀ : Bool) (run : List Atom) : Bool := (run.getLast?.map Atom.opensSlot).getD open₀

/-- The argument brackets are closed where the run begins; `close₀` says whether they are closed after
it. -/
def startsClosed (close₀ : Bool) (run : List Atom) : Bool :=
  (run.head?.map Atom.closesSlots).getD close₀

/-- The run with a comment inserted, in it or in one of its brackets, that is not alone in the last
argument slot. -/
inductive Inserted (c : Atom) : Bracket → List Atom → List Atom → Prop
  | same {pair run} : Inserted c pair run run
  | here {pair before after} :
      (endsOpen pair.hasSlots before && startsClosed pair.hasSlots after) = false →
      Inserted c pair (before ++ after) (before ++ c :: after)
  | inside {pair pair' before after raw raw'} : Inserted c pair' raw raw' →
      Inserted c pair (before ++ pair'.atom .top raw :: after) (before ++ pair'.atom .top raw' :: after)

/-! ## One pass -/

section
variable {pair : Bracket} {lv : Level}

theorem endsOpen_append (d : Bool) (run run' : List Atom) :
    endsOpen d (run ++ run') = endsOpen (endsOpen d run) run' := by
  cases h : run'.getLast? <;> simp [endsOpen, getLast?_append, h]

@[simp] theorem endsOpen_singleton (d : Bool) (a : Atom) : endsOpen d [a] = a.opensSlot := rfl

theorem endsOpen_cons (d : Bool) (a : Atom) (run : List Atom) :
    endsOpen d (a :: run) = endsOpen a.opensSlot run :=
  endsOpen_append d [a] run

theorem opensSlot_opener (pair : Bracket) (l : Level) :
    (Atom.unknown l pair.opener).opensSlot = pair.hasSlots := by
  cases pair <;> rfl

theorem closesSlots_closer (pair : Bracket) (l : Level) :
    (Atom.unknown l pair.closer).closesSlots = pair.hasSlots := by
  cases pair <;> rfl

theorem opensSlot_atom (pair : Bracket) (lv : Level) (raw : List Atom) :
    (pair.atom lv raw).opensSlot = false := by
  cases pair <;> rfl

theorem closesSlots_atom (pair : Bracket) (lv : Level) (raw : List Atom) :
    (pair.atom lv raw).closesSlots = false := by
  cases pair <;> rfl

/-- A pass has made `ps` of the first part of a run, and the bracket `g` is open after that part. -/
def Halfway (pair : Bracket) (lv : Level) (run : List Atom) (ps : List Piece) (g : Option OpenGroup) :
    Prop :=
  ∀ rest, scanBrackets pair lv none (run ++ rest) = (scanBrackets pair lv g rest).map (ps ++ ·)

/-- What a pass that has come halfway does with the next atom. -/
inductive Advance (pair : Bracket) (lv : Level) (run : List Atom) (ps : List Piece) (a : Atom) :
    Option OpenGroup → Prop
  | stray : pair.marks a = true →
      (∀ rest, scanBrackets pair lv none (run ++ [a] ++ rest) = .error .braceNotOpened) →
      Advance pair lv run ps a none
  | opens {l} : a = .unknown l pair.opener → Halfway pair lv (run ++ [a]) ps (some ⟨a, 0, []⟩) →
      Advance pair lv run ps a none
  | keeps : pair.marks a = false → Halfway pair lv (run ++ [a]) (ps ++ [.kept a]) none →
      Advance pair lv run ps a none
  | takes {o n m held} :
      Halfway pair lv (run ++ [a]) ps (some ⟨o, m, a :: held⟩) → Advance pair lv run ps a (some ⟨o, n, held⟩)
  | closes {o held} : pair.marks a = true →
      Halfway pair lv (run ++ [a]) (ps ++ [.wrapped o a (pair.atom lv held.reverse)]) none →
      Advance pair lv run ps a (some ⟨o, 0, held⟩)

theorem Halfway.advance {run ps g} (h : Halfway pair lv run ps g) (a : Atom) :
    Advance pair lv run ps a g := by
  have hnext (rest : List Atom) : scanBrackets pair lv none (run ++ [a] ++ rest) =
      (scanBrackets pair lv g (a :: rest)).map (ps ++ ·) := by
    rw [append_assoc]
    exact h _
  have hpush {p : Piece} (hp : ∀ rest, scanBrackets pair lv g (a :: rest) =
      (scanBrackets pair lv none rest).map (p :: ·)) : Halfway pair lv (run ++ [a]) (ps ++ [p]) none := by
    intro rest
    rw [hnext, hp, except_map_map]
    exact congrArg (Except.map · _) (funext fun qs => append_cons ps p qs)
  have hstay {g' : OpenGroup} (hg : ∀ rest, scanBrackets pair lv g (a :: rest) =
      scanBrackets pair lv (some g') rest) : Halfway pair lv (run ++ [a]) ps (some g') :=
    fun rest => (hnext rest).trans (hg rest ▸ rfl)
  cases g with
  | none =>
    cases hm : pair.marks a with
    | false => exact .keeps hm (hpush fun rest => scanBrackets_none_cons hm rest)
    | true =>
      obtain ⟨l, rfl | rfl⟩ := eq_of_marks hm
      · exact .opens rfl (hstay fun rest => scanBrackets_none_opener ..)
      · exact .stray hm fun rest => by rw [hnext, scanBrackets_none_closer]; rfl
  | some g =>
    obtain ⟨o, n, held⟩ := g
    cases hm : pair.marks a with
    | false => exact .takes (hstay fun rest => scanBrackets_some_cons hm ..)
    | true =>
      obtain ⟨l, rfl | rfl⟩ := eq_of_marks hm
      · exact .takes (hstay fun rest => scanBrackets_some_opener ..)
      · cases n with
        | zero => exact .closes hm (hpush fun rest => scanBrackets_closer_outer ..)
        | succ n => exact .takes (hstay fun rest => scanBrackets_closer_inner ..)

/-- What a pass makes of the first part of a run: it fails, or it has grouped that part, or a bracket is
open. A slot begins after the grouped part, or after what the bracket holds, only if one begins after
the part itself. -/
inductive Scanned (pair : Bracket) (lv : Level) (run : List Atom) : Prop
  | failed {f} : (∀ rest, scanBrackets pair lv none (run ++ rest) = .error f) → Scanned pair lv run
  | closed (ps : List Piece) : Halfway pair lv run ps none →
      (∀ d, endsOpen d (atomsOf ps) = true → endsOpen d run = true) → Scanned pair lv run
  | opened {ps o n held} : Halfway pair lv run ps (some ⟨o, n, held⟩) →
      (∀ d, endsOpen pair.hasSlots held.reverse = true → endsOpen d run = true) →
      Scanned pair lv run

theorem scanned (pair : Bracket) (lv : Level) (run : List Atom) : Scanned pair lv run := by
  induction run using List.reverseRecOn with
  | nil =>
    refine .closed [] (fun rest => ?_) fun _ h => h
    cases h : scanBrackets pair lv none rest <;> simp [h, Except.map]
  | append_singleton run a ih =>
    have hlast (d : Bool) : endsOpen d (run ++ [a]) = a.opensSlot := endsOpen_append ..
    cases ih with
    | failed h => exact .failed fun rest => by rw [append_assoc]; exact h _
    | closed ps h =>
      cases h.advance a with
      | stray _ hf => exact .failed hf
      | opens ha h' =>
        refine .opened h' fun d hd => ?_
        rw [hlast, ha, opensSlot_opener]
        exact hd
      | keeps _ h' =>
        refine .closed _ h' fun d hd => ?_
        rwa [atomsOf_append, endsOpen_append, atomsOf_kept, atomsOf_nil, endsOpen_singleton,
          ← hlast d] at hd
    | opened h =>
      cases h.advance a with
      | takes h' =>
        refine .opened h' fun d hd => ?_
        rwa [reverse_cons, endsOpen_append, endsOpen_singleton, ← hlast d] at hd
      | closes _ h' =>
        refine .closed _ h' fun d hd => ?_
        rw [atomsOf_append, endsOpen_append, atomsOf_wrapped, atomsOf_nil, endsOpen_singleton,
          opensSlot_atom] at hd
        cases hd

/-- What a pass makes of a run while a bracket is open: it fails, or the bracket is closed. -/
inductive Closes (pair : Bracket) (lv : Level) (n : Nat) (run : List Atom) : Prop
  | failed {f} : (∀ o held, scanBrackets pair lv (some ⟨o, n, held⟩) run = .error f) →
      Closes pair lv n run
  | closed {inner rest l} : run = inner ++ .unknown l pair.closer :: rest →
      (∀ o held, scanBrackets pair lv (some ⟨o, n, held⟩) run =
        (scanBrackets pair lv none rest).map
          (.wrapped o (.unknown l pair.closer) (pair.atom lv (held.reverse ++ inner)) :: ·)) →
      Closes pair lv n run

theorem Closes.cons {a n m run} (h : Closes pair lv m run)
    (hstep : ∀ o held, scanBrackets pair lv (some ⟨o, n, held⟩) (a :: run) =
      scanBrackets pair lv (some ⟨o, m, a :: held⟩) run) : Closes pair lv n (a :: run) := by
  cases h with
  | failed h => exact .failed fun o held => (hstep o held).trans (h ..)
  | @closed inner rest l heq h =>
    have heq : a :: run = (a :: inner) ++ .unknown l pair.closer :: rest := by rw [heq]; rfl
    refine .closed heq fun o held => ?_
    rw [hstep, h]
    simp

theorem closes (pair : Bracket) (lv : Level) : ∀ (n : Nat) (run : List Atom), Closes pair lv n run
  | n, [] => .failed fun o held => rfl
  | n, a :: run => by
    cases hm : pair.marks a with
    | false => exact (closes pair lv n run).cons fun o held => scanBrackets_some_cons hm ..
    | true =>
      obtain ⟨l, rfl | rfl⟩ := eq_of_marks hm
      · exact (closes pair lv (n + 1) run).cons fun o held => scanBrackets_some_opener ..
      · cases n with
        | succ n => exact (closes pair lv n run).cons fun o held => scanBrackets_closer_inner ..
        | zero =>
          refine .closed (nil_append _).symm fun o held => ?_
          rw [scanBrackets_closer_outer, append_nil]

theorem startsClosed_of_scanBrackets {run ps}
    (h : scanBrackets pair lv none run = .ok ps) (e : Bool)
    (he : startsClosed e (atomsOf ps) = true) : startsClosed e run = true := by
  cases run with
  | nil => cases h; exact he
  | cons a run =>
    cases hm : pair.marks a with
    | false =>
      rw [scanBrackets_none_cons hm] at h
      obtain ⟨qs, -, rfl⟩ := map_ok h
      exact he
    | true =>
      obtain ⟨l, rfl | rfl⟩ := eq_of_marks hm
      · rw [scanBrackets_none_opener] at h
        cases closes pair lv 0 run with
        | failed hf => rw [hf] at h; cases h
        | closed heq hc =>
          rw [hc] at h
          obtain ⟨qs, -, rfl⟩ := map_ok h
          rw [atomsOf_wrapped, startsClosed, head?_cons, Option.map_some, closesSlots_atom] at he
          cases he
      · rw [scanBrackets_none_closer] at h
        cases h

/-- A run that is replaced in a longer one, which a pass leaves outside of its brackets or takes into
one of them. -/
inductive Replaced (pair : Bracket) (mid mid' before after : List Atom) :
    List Atom → List Atom → Prop
  | outside {left right} : (∀ d, endsOpen d left = true → endsOpen d before = true) →
      (∀ e, startsClosed e right = true → startsClosed e after = true) →
      Replaced pair mid mid' before after (left ++ (mid ++ right)) (left ++ (mid' ++ right))
  | inside {left right first last} :
      (∀ d, endsOpen pair.hasSlots first = true → endsOpen d before = true) →
      (∀ e, startsClosed pair.hasSlots last = true → startsClosed e after = true) →
      Replaced pair mid mid' before after (left ++ pair.atom .top (first ++ (mid ++ last)) :: right)
        (left ++ pair.atom .top (first ++ (mid' ++ last)) :: right)

theorem groupPair_replaced {mid mid'} (h : ∀ a ∈ mid, pair.marks a = false)
    (h' : ∀ a ∈ mid', pair.marks a = false) (before after : List Atom) :
    Agree (fun _ => True) (Replaced pair mid mid' before after)
      (groupPair pair .top (before ++ (mid ++ after)))
      (groupPair pair .top (before ++ (mid' ++ after))) := by
  refine Agree.map (S := fun ps ps' =>
    Replaced pair mid mid' before after (atomsOf ps) (atomsOf ps')) ?_ fun _ _ h => h
  rw [cutBrackets, cutBrackets]
  cases scanned pair .top before with
  | failed hf =>
    rw [hf, hf]
    exact .error trivial
  | closed ps hscan hends =>
    rw [hscan, hscan, scanBrackets_none_append h, scanBrackets_none_append h']
    cases hafter : scanBrackets pair .top none after with
    | error f => exact .error trivial
    | ok qs =>
      refine .ok ?_
      simp only [atomsOf_append, atomsOf_map_kept]
      exact .outside hends (startsClosed_of_scanBrackets hafter)
  | @opened ps o n held hscan hends =>
    rw [hscan, hscan, scanBrackets_some_append h, scanBrackets_some_append h']
    cases closes pair .top n after with
    | failed hf =>
      rw [hf, hf]
      exact .error trivial
    | @closed inner rest l heq hclose =>
      rw [hclose, hclose]
      cases scanBrackets pair .top none rest with
      | error f => exact .error trivial
      | ok qs =>
        refine .ok ?_
        simp only [atomsOf_append, atomsOf_wrapped, reverse_append, reverse_reverse,
          append_assoc]
        refine .inside hends fun e he => ?_
        cases inner with
        | nil =>
          rw [heq, nil_append, startsClosed, head?_cons, Option.map_some,
            closesSlots_closer]
          exact he
        | cons a inner => rw [heq]; exact he

end

/-! ## All passes -/

section
variable {c : Atom} {pair : Bracket} {run run' : List Atom}

/-- A pass keeps runs that differ in a comment. -/
theorem Inserted.groupPair (hc : c.isComment = true) (pair' : Bracket)
    (h : Inserted c pair run run') :
    Agree (fun _ => True) (Inserted c pair) (groupPair pair' .top run) (groupPair pair' .top run') := by
  have hatom (p q : Bracket) (raw : List Atom) :
      ∀ a ∈ [p.atom .top raw], q.marks a = false := by
    rintro a ha
    obtain rfl := mem_singleton.1 ha
    exact Bracket.marks_atom ..
  cases h with
  | same =>
    cases WatScript.groupPair pair' .top run with
    | error f => exact .error trivial
    | ok out => exact .ok .same
  | @here _ before after hedge =>
    have hmark : ∀ a ∈ [c], pair'.marks a = false := by
      rintro a ha
      obtain rfl := mem_singleton.1 ha
      cases a <;> first | rfl | cases hc
    have hagree : Agree _ (Replaced pair' [] [c] before after) _ _ :=
      groupPair_replaced (by simp) hmark before after
    have hkeep {d e d' e' : Bool} {left right : List Atom}
        (hl : endsOpen d left = true → endsOpen d' before = true)
        (hr : startsClosed e right = true → startsClosed e' after = true)
        (h : (endsOpen d' before && startsClosed e' after) = false) :
        (endsOpen d left && startsClosed e right) = false := by
      rw [← Bool.not_eq_true, Bool.and_eq_true] at h ⊢
      exact fun ⟨h₁, h₂⟩ => h ⟨hl h₁, hr h₂⟩
    refine hagree.mono fun out out' hr => ?_
    cases hr with
    | outside hl hr => exact .here (hkeep (hl _) (hr _) hedge)
    | inside hl hr => exact .inside (.here (hkeep (hl _) (hr _) hedge))
  | @inside _ p before after raw raw' h =>
    have hagree : Agree _ (Replaced pair' [p.atom .top raw] [p.atom .top raw'] before after) _ _ :=
      groupPair_replaced (hatom _ _ _) (hatom _ _ _) before after
    refine hagree.mono fun out out' hr => ?_
    cases hr with
    | outside => exact .inside h
    | inside => exact .inside (.inside h)

theorem Inserted.groupBrackets (hc : c.isComment = true) (h : Inserted c pair run run') :
    Agree (fun _ => True) (Inserted c pair) (groupBrackets .top run) (groupBrackets .top run') := by
  have hpasses : ∀ (pairs : List Bracket) {run run' : List Atom}, Inserted c pair run run' →
      Agree (fun _ => True) (Inserted c pair)
        (pairs.foldlM (fun atoms pair' => WatScript.groupPair pair' .top atoms) run)
        (pairs.foldlM (fun atoms pair' => WatScript.groupPair pair' .top atoms) run') := by
    intro pairs
    induction pairs with
    | nil => exact fun h => .ok h
    | cons pair' pairs ih => exact fun h => (h.groupPair hc pair').bind fun _ _ h => ih h
  exact hpasses Bracket.all h

end

/-! ## Reading -/

section
variable {c : Atom} {pair : Bracket} {lv : Level} {toks toks' : List Atom}

theorem endsOpen_flat (d : Bool) (run : List Atom) :
    endsOpen d (run.map Atom.flat) = endsOpen d run := by
  have hflat (a : Atom) : a.flat.opensSlot = a.opensSlot := by cases a <;> rfl
  simp [endsOpen, getLast?_map, Function.comp_def, hflat]

theorem startsClosed_flat (e : Bool) (run : List Atom) :
    startsClosed e (run.map Atom.flat) = startsClosed e run := by
  have hflat (a : Atom) : a.flat.closesSlots = a.closesSlots := by cases a <;> rfl
  simp [startsClosed, Function.comp_def, hflat]

theorem flatTwin_same (a : Atom) : FlatTwin (Inserted c) a a := by
  refine ⟨rfl, ?_⟩
  rintro pair raw raw' rfl heq
  obtain rfl : raw = raw' := by simpa using congrArg Atom.raw heq
  exact .same

theorem twins_of_flat_eq (h : ∀ a ∈ toks, IsFresh lv a) (h' : ∀ a ∈ toks', IsFresh lv a)
    (heq : toks.map Atom.flat = toks'.map Atom.flat) :
    Forall₂ (Twin (FlatRuns (Inserted c)) lv) toks toks' :=
  twins_of_flat h h' (heq ▸ forall₂_same.2 fun a _ => flatTwin_same a)

theorem Inserted.twins (hc : c.isComment = true) (h : ∀ a ∈ toks, IsFresh lv a)
    (h' : ∀ a ∈ toks', IsFresh lv a)
    (hf : Inserted c pair (toks.map Atom.flat) (toks'.map Atom.flat)) :
    Forall₂ (Twin (FlatRuns (Inserted c)) lv) toks toks' ∨
    ∃ before before' after after' comment, toks = before ++ after ∧
      toks' = before' ++ comment :: after' ∧ comment.isComment = true ∧
      Forall₂ (Twin (FlatRuns (Inserted c)) lv) before before' ∧
      Forall₂ (Twin (FlatRuns (Inserted c)) lv) after after' ∧
      (endsOpen pair.hasSlots before && startsClosed pair.hasSlots after) = false := by
  generalize hflat : toks.map Atom.flat = flat at hf
  generalize hflat' : toks'.map Atom.flat = flat' at hf
  cases hf with
  | same => exact .inl (twins_of_flat_eq h h' (hflat.trans hflat'.symm))
  | @inside _ p before after raw raw' hin =>
    have hbracket : FlatTwin (Inserted c) (p.atom .top raw) (p.atom .top raw') := by
      refine ⟨by cases p <;> rfl, fun q r r' hr hr' => ?_⟩
      cases p <;> cases q <;> cases hr <;> cases hr' <;> exact hin
    have hsame (run : List Atom) : Forall₂ (FlatTwin (Inserted c)) run run :=
      forall₂_same.2 fun a _ => flatTwin_same a
    refine .inl (twins_of_flat h h' ?_)
    rw [hflat, hflat']
    exact rel_append (hsame before) (.cons hbracket (hsame after))
  | @here _ before after hedge =>
    obtain ⟨tb, ta, rfl, hb, ha⟩ := map_eq_append_iff.1 hflat
    obtain ⟨tb', tc, rfl, hb', htc⟩ := map_eq_append_iff.1 hflat'
    obtain ⟨comment, ta', rfl, rfl, ha'⟩ := map_eq_cons_iff.1 htc
    obtain ⟨hfb, hfa⟩ := forall_mem_append.1 h
    obtain ⟨hfb', hfa'⟩ := forall_mem_append.1 h'
    refine .inr ⟨tb, tb', ta, ta', comment, rfl, rfl, ?_, ?_, ?_, ?_⟩
    · cases comment <;> first | rfl | cases hc
    · exact twins_of_flat_eq hfb hfb' (hb.trans hb'.symm)
    · exact twins_of_flat_eq hfa (forall_mem_cons.1 hfa').2 (ha.trans ha'.symm)
    · rwa [← hb, ← ha, endsOpen_flat, startsClosed_flat] at hedge

theorem Inserted.near (hc : c.isComment = true) (h : ∀ a ∈ toks, IsFresh lv a)
    (h' : ∀ a ∈ toks', IsFresh lv a)
    (hf : Inserted c pair (toks.map Atom.flat) (toks'.map Atom.flat)) :
    Near (FlatRuns (Inserted c)) lv false toks toks' := by
  have ht : Tokens lv toks := fun a ha => (h a ha).isToken
  have ht' : Tokens lv toks' := fun a ha => (h' a ha).isToken
  rcases hf.twins hc h h' with htwins |
    ⟨before, before', after, after', comment, rfl, rfl, hcomment, hb, ha, -⟩
  · exact .of_twins ht ht' htwins
  · have hfilter {run run'} (h : Forall₂ (Twin (FlatRuns (Inserted c)) lv) run run') :=
      rel_filter (p := Atom.isKept false) (q := Atom.isKept false)
        (fun _ _ h => by simp only [h.isKept_eq]) h
    refine ⟨ht, ht', ?_⟩
    rw [filter_append, filter_append, filter_cons_of_neg]
    · exact rel_append (hfilter hb) (hfilter ha)
    · simp [Atom.isKept, hcomment]

theorem endsOpen_mono {d run} (h : endsOpen false run = true) : endsOpen d run = true := by
  cases hl : run.getLast? <;> simp_all [endsOpen]

theorem slotsFrom_inserted {R held held' before before' after after' comment}
    (hheld : Tokens lv held) (hheld' : Tokens lv held') (hbefore : Tokens lv before)
    (hbefore' : Tokens lv before') (hafter : Tokens lv after)
    (hafter' : Tokens lv (comment :: after')) (hc : comment.isComment = true)
    (hh : Forall₂ (Twin R lv) (held.filter (Atom.isKept false)) (held'.filter (Atom.isKept false)))
    (hb : Forall₂ (Twin R lv) before before') (ha : Forall₂ (Twin R lv) after after')
    (hedge : (endsOpen held.isEmpty before && startsClosed true after) = false) :
    Forall₂ (NearItem R lv false) (slotsFrom lv held (before ++ after))
      (slotsFrom lv held' (before' ++ comment :: after')) := by
  induction hb generalizing held held' with
  | nil =>
    obtain ⟨hcomment, hafter'⟩ := forall_mem_cons.1 hafter'
    have hslots : slotsFrom lv held' (comment :: after') = slotsFrom lv (comment :: held') after' := by
      cases comment with
      | comment => rw [slotsFrom]; simp
      | _ => cases hc
    rw [nil_append, nil_append, hslots]
    refine slotsFrom_twins hheld (forall_mem_cons.2 ⟨hcomment, hheld'⟩) hafter hafter' ?_ ?_ ha
    · rwa [filter_cons_of_neg (by simp [Atom.isKept, hc])]
    · rintro rfl
      have hne : held ≠ [] := by
        rintro rfl
        cases hedge
      simp [hne]
  | @cons a a' before before' hab _ ih =>
    obtain ⟨hta, hbefore⟩ := forall_mem_cons.1 hbefore
    obtain ⟨hta', hbefore'⟩ := forall_mem_cons.1 hbefore'
    rw [endsOpen_cons] at hedge
    refine slotsFrom_cons_twins hheld hheld' hab hh ?_ fun hcons => ?_
    · intro l hl
      rw [hl] at hedge
      exact ih (forall_mem_nil _) (forall_mem_nil _) hbefore hbefore' .nil hedge
    · refine ih (forall_mem_cons.2 ⟨hta, hheld⟩) (forall_mem_cons.2 ⟨hta', hheld'⟩) hbefore
        hbefore' hcons ?_
      rw [← Bool.not_eq_true, Bool.and_eq_true] at hedge ⊢
      rintro ⟨h₁, h₂⟩
      exact hedge ⟨endsOpen_mono h₁, h₂⟩

/-- Reading goes in step over runs that differ in a comment. -/
theorem lockstep_inserted (hc : c.isComment = true) :
    Lockstep false (fun _ => True) (FlatRuns (Inserted c)) where
  fault _ _ := trivial
  lex := by
    intro pair raw raw' lv hlv h
    refine (h.group_agree hlv (h.flat.groupBrackets hc)).mono
      fun toks toks' ⟨hfresh, hfresh', hflat⟩ => ⟨hflat.near hc hfresh hfresh', fun hpair => ?_⟩
    have ht : Tokens lv toks := fun a ha => (hfresh a ha).isToken
    have ht' : Tokens lv toks' := fun a ha => (hfresh' a ha).isToken
    rcases hflat.twins hc hfresh hfresh' with htwins |
      ⟨before, before', after, after', comment, rfl, rfl, hcomment, hb, ha, hedge⟩
    · exact slots_twins (.of_twins ht ht' htwins)
    · obtain ⟨hbefore, hafter⟩ := forall_mem_append.1 ht
      obtain ⟨hbefore', hafter'⟩ := forall_mem_append.1 ht'
      have hslots : pair.hasSlots = true := by
        cases pair with
        | brace => exact absurd rfl hpair
        | square | round => rfl
      rw [hslots] at hedge
      exact slotsFrom_inserted (fun _ h => nomatch h) (fun _ h => nomatch h) hbefore hbefore' hafter
        hafter' hcomment .nil hb ha hedge

end

end WatScript
