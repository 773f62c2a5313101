import WatScript.Proofs.Literals

/-!
# Bracket grouping

What bracket grouping makes of a run. `Grouped pair lv run out` says that `out` is `run` with its
outermost brackets of one pair collapsed: an atom that is no bracket of the pair stays, and an opening
bracket, a stretch and a closing bracket become one atom that holds the stretch. One pass succeeds only
with such a result and fails only for an unmatched bracket (`groupPair_ends`).

After all three passes no bracket character is left (`noBrackets_groupBrackets`), and a run without
bracket characters passes through unchanged (`groupBrackets_of_noBrackets`).
-/

namespace WatScript

open List WatScript.Bracket

/-- The character opens or closes the pair. -/
def Bracket.has (pair : Bracket) (c : Char) : Bool := c == pair.opener || c == pair.closer

/-- The atom is a bracket of the pair. -/
def Bracket.marks (pair : Bracket) : Atom → Bool
  | .unknown _ c => pair.has c
  | _ => false

/-- The fault of a bracket without its partner. -/
def ReadFault.isUnmatched : ReadFault → Bool
  | .braceNotClosed | .braceNotOpened => true
  | _ => false

/-- `out` is the run with its outermost brackets of one pair collapsed. -/
inductive Grouped (pair : Bracket) (lv : Level) : List Atom → List Atom → Prop
  | nil : Grouped pair lv [] []
  | keep {a rest out} : pair.marks a = false → Grouped pair lv rest out →
      Grouped pair lv (a :: rest) (a :: out)
  | wrap {l l' raw rest out} : Grouped pair lv rest out →
      Grouped pair lv (.unknown l pair.opener :: raw ++ .unknown l' pair.closer :: rest)
        (pair.atom lv raw :: out)

/-! ## One pass -/

/-- What an open group has taken stands before the rest of the run. -/
def OpenGroup.before : Option OpenGroup → List Atom → List Atom
  | none, run => run
  | some g, run => g.opener :: g.held.reverse ++ run

theorem OpenGroup.before_held (o a : Atom) (n : Nat) (held rest : List Atom) :
    OpenGroup.before (some ⟨o, n, a :: held⟩) rest =
      OpenGroup.before (some ⟨o, n, held⟩) (a :: rest) := by
  simp [OpenGroup.before]

theorem grouped_of_scanBrackets {pair lv g run pieces} (h : scanBrackets pair lv g run = .ok pieces)
    (hg : ∀ g', g = some g' → ∃ l, g'.opener = .unknown l pair.opener) :
    Grouped pair lv (OpenGroup.before g run) (atomsOf pieces) := by
  fun_induction scanBrackets pair lv g run generalizing pieces with
  | case1 => cases h; exact .nil
  | case2 => cases h
  | case3 l c rest hc ih =>
    refine ih h fun g' hg' => ?_
    cases hg'
    exact ⟨l, by rw [beq_iff_eq.1 hc]⟩
  | case4 => cases h
  | case5 l c rest ho hc ih =>
    obtain ⟨ps, hps, h⟩ := bind_ok h
    cases h
    exact .keep (by simp [marks, has, ho, hc]) (ih hps (by simp))
  | case6 g l c rest _ ih | case8 g l c rest _ _ n _ ih =>
    have := ih h (fun g' hg' => by cases hg'; exact hg g rfl)
    rwa [OpenGroup.before_held] at this
  | case7 g l c rest _ hc _ ih =>
    -- the closer of the open group
    obtain ⟨ps, hps, h⟩ := bind_ok h
    cases h
    obtain ⟨lo, ho⟩ := hg g rfl
    rw [OpenGroup.before, ho, beq_iff_eq.1 hc]
    exact .wrap (ih hps (by simp))
  | case9 g l c rest _ _ ih =>
    have := ih h (fun g' hg' => by cases hg'; exact hg g rfl)
    rwa [OpenGroup.before_held] at this
  | case10 a rest hne ih =>
    obtain ⟨ps, hps, h⟩ := bind_ok h
    cases h
    refine .keep ?_ (ih hps (by simp))
    cases a with
    | unknown l c => exact (hne l c rfl).elim
    | _ => rfl
  | case11 g a rest _ ih =>
    have := ih h (fun g' hg' => by cases hg'; exact hg g rfl)
    rwa [OpenGroup.before_held] at this

theorem scanBrackets_ends (pair : Bracket) (lv : Level) (g : Option OpenGroup) (run : List Atom) :
    Ends (fun _ => True) (·.isUnmatched = true) (scanBrackets pair lv g run) := by
  fun_induction scanBrackets pair lv g run with
  | case1 => trivial
  | case2 | case4 => rfl
  | case3 _ _ _ _ ih => exact ih
  | case5 _ _ _ _ _ ih => exact ih.bind fun _ _ => trivial
  | case6 _ _ _ _ _ ih | case8 _ _ _ _ _ _ _ _ ih => exact ih
  | case7 _ _ _ _ _ _ _ ih => exact ih.bind fun _ _ => trivial
  | case9 _ _ _ _ _ _ ih | case11 _ _ _ _ ih => exact ih
  | case10 _ _ _ ih => exact ih.bind fun _ _ => trivial

theorem groupPair_ends (pair : Bracket) (lv : Level) (run : List Atom) :
    Ends (Grouped pair lv run) (·.isUnmatched = true) (groupPair pair lv run) := by
  have h := scanBrackets_ends pair lv none run
  cases hs : scanBrackets pair lv none run with
  | ok pieces =>
    simp only [groupPair, cutBrackets, hs, Except.map]
    exact grouped_of_scanBrackets hs (by simp)
  | error f =>
    simp only [groupPair, cutBrackets, hs, Except.map]
    rwa [hs] at h

section
variable {pair : Bracket} {lv : Level} {a : Atom}

theorem scanBrackets_none_cons (ha : pair.marks a = false) (rest : List Atom) :
    scanBrackets pair lv none (a :: rest) =
      (scanBrackets pair lv none rest).map (.kept a :: ·) := by
  cases a with
  | unknown l c =>
    simp only [marks, has, Bool.or_eq_false_iff] at ha
    simp only [scanBrackets, ha.1, ha.2]
    rfl
  | _ => rw [scanBrackets] <;> simp [Except.map, bind, Except.bind, pure, Except.pure]

theorem scanBrackets_some_cons (ha : pair.marks a = false) (g : OpenGroup) (rest : List Atom) :
    scanBrackets pair lv (some g) (a :: rest) =
      scanBrackets pair lv (some ⟨g.opener, g.inner, a :: g.held⟩) rest := by
  cases a with
  | unknown l c =>
    simp only [marks, has, Bool.or_eq_false_iff] at ha
    simp only [scanBrackets, ha.1, ha.2]
    rfl
  | _ => rw [scanBrackets]; simp

theorem scanBrackets_none_append : ∀ {run}, (∀ a ∈ run, pair.marks a = false) →
    ∀ rest, scanBrackets pair lv none (run ++ rest) =
      (scanBrackets pair lv none rest).map (run.map .kept ++ ·)
  | [], _, rest => by cases h : scanBrackets pair lv none rest <;> simp [h, Except.map]
  | a :: run, h, rest => by
    obtain ⟨ha, hrun⟩ := forall_mem_cons.1 h
    rw [cons_append, scanBrackets_none_cons ha, scanBrackets_none_append hrun, except_map_map]
    rfl

theorem scanBrackets_some_append : ∀ {run}, (∀ a ∈ run, pair.marks a = false) →
    ∀ (o : Atom) (n : Nat) (held rest : List Atom),
      scanBrackets pair lv (some ⟨o, n, held⟩) (run ++ rest) =
        scanBrackets pair lv (some ⟨o, n, run.reverse ++ held⟩) rest
  | [], _, _, _, _, _ => rfl
  | a :: run, h, o, n, held, rest => by
    obtain ⟨ha, hrun⟩ := forall_mem_cons.1 h
    rw [cons_append, scanBrackets_some_cons ha, scanBrackets_some_append hrun,
      reverse_cons, append_assoc]
    rfl

variable (pair)

theorem scanBrackets_none_opener (l : Level) (rest : List Atom) :
    scanBrackets pair lv none (.unknown l pair.opener :: rest) =
      scanBrackets pair lv (some ⟨.unknown l pair.opener, 0, []⟩) rest := by
  rw [scanBrackets, if_pos (beq_self_eq_true _)]

theorem scanBrackets_some_opener (l : Level) (g : OpenGroup) (rest : List Atom) :
    scanBrackets pair lv (some g) (.unknown l pair.opener :: rest) =
      scanBrackets pair lv (some ⟨g.opener, g.inner + 1, .unknown l pair.opener :: g.held⟩) rest := by
  rw [scanBrackets, if_pos (beq_self_eq_true _)]

theorem Bracket.closer_ne_opener : (pair.closer == pair.opener) = false := by
  cases pair <;> rfl

theorem scanBrackets_none_closer (l : Level) (rest : List Atom) :
    scanBrackets pair lv none (.unknown l pair.closer :: rest) = .error .braceNotOpened := by
  rw [scanBrackets, if_neg (by simp [pair.closer_ne_opener]), if_pos (beq_self_eq_true _)]

theorem scanBrackets_closer_inner (l : Level) (o : Atom) (n : Nat) (held rest : List Atom) :
    scanBrackets pair lv (some ⟨o, n + 1, held⟩) (.unknown l pair.closer :: rest) =
      scanBrackets pair lv (some ⟨o, n, .unknown l pair.closer :: held⟩) rest := by
  rw [scanBrackets, if_neg (by simp [pair.closer_ne_opener]), if_pos (beq_self_eq_true _)]

theorem scanBrackets_closer_outer (l : Level) (o : Atom) (held rest : List Atom) :
    scanBrackets pair lv (some ⟨o, 0, held⟩) (.unknown l pair.closer :: rest) =
      (scanBrackets pair lv none rest).map
        (.wrapped o (.unknown l pair.closer) (pair.atom lv held.reverse) :: ·) := by
  rw [scanBrackets, if_neg (by simp [pair.closer_ne_opener]), if_pos (beq_self_eq_true _)]
  rfl

end

/-! ## What a pass keeps -/

section
variable {pair : Bracket} {lv : Level} {run out : List Atom}

theorem Grouped.all {P : Atom → Prop} (h : Grouped pair lv run out) (hrun : ∀ a ∈ run, P a)
    (hwrap : ∀ raw, raw <:+: run → P (pair.atom lv raw)) : ∀ a ∈ out, P a := by
  induction h with
  | nil => simp
  | @keep a rest out _ _ ih =>
    have hrest := ih (fun b hb => hrun b (mem_cons_of_mem _ hb))
      fun raw hr => hwrap raw (hr.trans (suffix_cons a rest).isInfix)
    rintro b (_ | ⟨_, hb⟩)
    · exact hrun _ mem_cons_self
    · exact hrest b hb
  | @wrap l l' raw rest out _ ih =>
    have hsuf : rest <:+: .unknown l pair.opener :: raw ++ .unknown l' pair.closer :: rest :=
      ⟨.unknown l pair.opener :: raw ++ [.unknown l' pair.closer], [], by simp⟩
    have hrest := ih (fun b hb => hrun b (hsuf.subset hb)) fun r hr => hwrap r (hr.trans hsuf)
    rintro b (_ | ⟨_, hb⟩)
    · exact hwrap raw ⟨[.unknown l pair.opener], .unknown l' pair.closer :: rest, by simp⟩
    · exact hrest b hb

theorem Bracket.marks_atom (pair pair' : Bracket) (lv : Level) (raw : List Atom) :
    pair.marks (pair'.atom lv raw) = false := by
  cases pair' <;> rfl

theorem Grouped.noMarks (h : Grouped pair lv run out) : ∀ a ∈ out, pair.marks a = false := by
  induction h with
  | nil => simp
  | keep ha _ ih => simpa [ha] using ih
  | wrap _ ih => simpa [marks_atom] using ih

theorem Grouped.head {l c t} (h : Grouped pair lv run out)
    (ht : out = .unknown l c :: t) : ∃ rest, run = .unknown l c :: rest := by
  cases h with
  | nil => cases ht
  | keep => cases ht; exact ⟨_, rfl⟩
  | wrap => cases pair <;> cases ht

theorem Grouped.literalFree (h : Grouped pair lv run out) (hrun : LiteralFree run) :
    LiteralFree out := by
  induction h with
  | nil => trivial
  | keep _ hg ih => exact ⟨opensLiteral_cons_of_head hrun.1 fun _ _ _ ht => hg.head ht, ih hrun.2⟩
  | wrap _ ih =>
    have hrest := ih (LiteralFree.of_append_right (t := _ :: _ ++ [_]) (by simpa using hrun))
    cases pair <;> exact ⟨rfl, hrest⟩

end

/-! ## All passes -/

/-- No bracket is left in the run. -/
def NoBrackets (run : List Atom) : Prop := ∀ (pair : Bracket), ∀ a ∈ run, pair.marks a = false

theorem NoBrackets.tail {a rest} (h : NoBrackets (a :: rest)) : NoBrackets rest :=
  fun pair b hb => h pair b (mem_cons_of_mem _ hb)

theorem groupBrackets_ends (lv : Level) (run : List Atom) :
    Ends (fun out => ∃ r₁ r₂, Grouped .brace lv run r₁ ∧ Grouped .square lv r₁ r₂ ∧
      Grouped .round lv r₂ out) (·.isUnmatched = true) (groupBrackets lv run) := by
  simp only [groupBrackets, Bracket.all, List.foldlM]
  refine (groupPair_ends .brace lv run).bind fun r₁ h₁ => ?_
  refine (groupPair_ends .square lv r₁).bind fun r₂ h₂ => ?_
  refine (groupPair_ends .round lv r₂).bind fun out h₃ => ?_
  exact ⟨r₁, r₂, h₁, h₂, h₃⟩

/-- Braces are grouped first, then square brackets, then parentheses. -/
theorem groupBrackets_ok {lv run out} (h : groupBrackets lv run = .ok out) :
    ∃ r₁ r₂, Grouped .brace lv run r₁ ∧ Grouped .square lv r₁ r₂ ∧ Grouped .round lv r₂ out := by
  have := groupBrackets_ends lv run
  rwa [h] at this

theorem noBrackets_groupBrackets {lv : Level} {run out : List Atom}
    (h : groupBrackets lv run = .ok out) : NoBrackets out := by
  obtain ⟨r₁, r₂, h₁, h₂, h₃⟩ := groupBrackets_ok h
  have hbrace := h₂.all h₁.noMarks fun _ _ => marks_atom ..
  intro pair
  cases pair with
  | brace => exact h₃.all hbrace fun _ _ => marks_atom ..
  | square => exact h₃.all h₂.noMarks fun _ _ => marks_atom ..
  | round => exact h₃.noMarks

theorem scanBrackets_of_noMarks (pair : Bracket) (lv : Level) {run}
    (h : ∀ a ∈ run, pair.marks a = false) :
    scanBrackets pair lv none run = .ok (run.map .kept) := by
  have happ : scanBrackets pair lv none (run ++ []) = _ := scanBrackets_none_append h []
  simpa [scanBrackets_none_nil, Except.map] using happ

theorem groupPair_of_noMarks (pair : Bracket) (lv : Level) {run}
    (h : ∀ a ∈ run, pair.marks a = false) : groupPair pair lv run = .ok run := by
  simp only [groupPair, cutBrackets, scanBrackets_of_noMarks pair lv h, Except.map, atomsOf_map_kept]

theorem groupBrackets_of_noBrackets (lv : Level) {run} (h : NoBrackets run) :
    groupBrackets lv run = .ok run := by
  simp [groupBrackets, Bracket.all, groupPair_of_noMarks _ lv (h _), bind, Except.bind, pure,
    Except.pure]

end WatScript
