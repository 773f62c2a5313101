import WatScript.Proofs.Agreement
import WatScript.Proofs.TokenOrder

/-!
# Bracket balance

Brackets are grouped by three passes, one for each pair, that only count their own pair; what stands in
a bracket is grouped when it is read. No single pass sees that `([)]` is wrong. `ProperlyNested` is the
language that reading decides nonetheless: words over the three pairs in which every bracket closes the
one opened last.

A run is `Nested` if its brackets are, at every level. The passes group such a run without failing and
what they leave unread is nested again (`groupBrackets_nested`), so no unmatched bracket is met on the
way (`lockstep_nested`). And what has been read always has nested brackets (`nested_treeTokens`), which
are those of the text.
-/

namespace WatScript

open List WatScript.Bracket

variable {a : Atom} {pair : Bracket} {run : List Atom} {w : List Token}

/-! ## Nested words -/

/-- Words over the three pairs of brackets in which every bracket closes the one opened last. -/
inductive ProperlyNested : List Token → Prop
  | nil : ProperlyNested []
  | wrap {pair w w'} : ProperlyNested w → ProperlyNested w' →
      ProperlyNested (.opening pair :: w ++ .closing pair :: w')

/-- Reads a word with a stack of the brackets that are open, the last one first. -/
def closesAll : List Bracket → List Token → Bool
  | [], [] => true
  | stack, .opening pair :: w => closesAll (pair :: stack) w
  | pair :: stack, .closing pair' :: w => pair == pair' && closesAll stack w
  | _, _ => false

/-- The word closes the open brackets, innermost first, and is nested in between. -/
def ClosesBy : List Bracket → List Token → Prop
  | [], w => ProperlyNested w
  | pair :: stack, w => ∃ v v', w = v ++ .closing pair :: v' ∧ ProperlyNested v ∧ ClosesBy stack v'

theorem ProperlyNested.append {w'} (h : ProperlyNested w) (h' : ProperlyNested w') :
    ProperlyNested (w ++ w') := by
  induction h with
  | nil => exact h'
  | wrap hw _ _ ih =>
    rw [append_assoc, cons_append]
    exact .wrap hw ih

theorem ProperlyNested.closesAll_append (h : ProperlyNested w)
    (stack : List Bracket) (v : List Token) : closesAll stack (w ++ v) = closesAll stack v := by
  induction h generalizing stack v with
  | nil => rfl
  | @wrap pair w w' _ _ ih ih' =>
    have hopen : closesAll stack (.opening pair :: (w ++ .closing pair :: (w' ++ v))) =
        closesAll (pair :: stack) (w ++ .closing pair :: (w' ++ v)) := by
      cases stack <;> rfl
    rw [append_assoc, cons_append, cons_append, hopen, ih, closesAll, beq_self_eq_true,
      Bool.true_and, ih']

theorem closesBy_of_closesAll {stack} (h : closesAll stack w = true) : ClosesBy stack w := by
  fun_induction closesAll stack w with
  | case1 => exact .nil
  | case2 stack pair w ih =>
    obtain ⟨v, v', rfl, hv, hv'⟩ := ih h
    cases stack with
    | nil => exact .wrap hv hv'
    | cons p stack =>
      obtain ⟨u, u', rfl, hu, hu'⟩ := hv'
      exact ⟨.opening pair :: v ++ .closing pair :: u, u', by simp, .wrap hv hu, hu'⟩
  | case3 pair stack pair' w ih =>
    simp only [Bool.and_eq_true, beq_iff_eq] at h
    obtain ⟨rfl, h⟩ := h
    exact ⟨[], w, rfl, .nil, ih h⟩
  | case4 => cases h

theorem properlyNested_iff (w : List Token) : closesAll [] w = true ↔ ProperlyNested w := by
  refine ⟨closesBy_of_closesAll, fun h => ?_⟩
  have := h.closesAll_append [] []
  rwa [append_nil] at this

instance (w : List Token) : Decidable (ProperlyNested w) :=
  decidable_of_iff _ (properlyNested_iff w)

/-- The token of an atom that is a bracket character. -/
def Atom.bracketToken? : Atom → Option Token
  | .unknown _ c => WatScript.bracketToken? c
  | _ => none

/-- The brackets of a run. -/
def bracketsOf (run : List Atom) : List Token := run.filterMap Atom.bracketToken?

/-! ## Nested runs -/

/-- The brackets of a run are nested, also in what is unread in it. -/
inductive Nested : List Atom → Prop
  | nil : Nested []
  | atom {a : Atom} {rest : List Atom} : (∀ pair : Bracket, pair.marks a = false) → Nested a.raw →
      Nested rest → Nested (a :: rest)
  | wrap {pair : Bracket} {l l' : Level} {raw rest : List Atom} : Nested raw → Nested rest →
      Nested (.unknown l pair.opener :: raw ++ .unknown l' pair.closer :: rest)

theorem Nested.append {run' : List Atom} (h : Nested run) (h' : Nested run') :
    Nested (run ++ run') := by
  induction h with
  | nil => exact h'
  | atom ha hraw _ _ ih => exact .atom ha hraw ih
  | wrap hraw _ _ ih =>
    rw [append_assoc, cons_append]
    exact .wrap hraw ih

theorem Bracket.marks_relevel (pair : Bracket) (lv : Level) (a : Atom) :
    pair.marks (a.relevel lv) = pair.marks a := by
  cases a <;> rfl

theorem Nested.relevel (lv : Level) {run : List Atom} (h : Nested run) : Nested (relevel lv run) := by
  induction h with
  | nil => exact .nil
  | @atom a rest ha hraw _ _ ih =>
    refine .atom (fun pair => ?_) ?_ ih
    · rw [marks_relevel, ha]
    · rwa [Atom.raw_relevel]
  | wrap _ _ ih ih' =>
    rw [WatScript.relevel, map_append, map_cons, map_cons]
    exact .wrap ih ih'

/-! ## One pass -/

theorem Bracket.marks_of_ne {pair'} (h : pair' ≠ pair) (l : Level) :
    pair.marks (.unknown l pair'.opener) = false ∧ pair.marks (.unknown l pair'.closer) = false := by
  cases pair <;> cases pair' <;> first | exact absurd rfl h | exact ⟨rfl, rfl⟩

theorem Nested.scanBrackets_some (h : Nested run) (pair : Bracket) (lv : Level)
    (o : Atom) (n : Nat) (held rest : List Atom) :
    scanBrackets pair lv (some ⟨o, n, held⟩) (run ++ rest) =
      scanBrackets pair lv (some ⟨o, n, run.reverse ++ held⟩) rest := by
  induction h generalizing n held rest with
  | nil => rfl
  | @atom a run ha _ _ _ ih =>
    rw [cons_append, scanBrackets_some_cons (ha pair), ih]
    simp
  | @wrap pair' l l' raw run _ _ ih ih' =>
    simp only [cons_append, append_assoc]
    by_cases hpair : pair' = pair
    · subst hpair
      rw [scanBrackets_some_opener, ih, scanBrackets_closer_inner, ih']
      simp
    · obtain ⟨ho, hc⟩ := marks_of_ne hpair l
      obtain ⟨ho', hc'⟩ := marks_of_ne hpair l'
      rw [scanBrackets_some_cons ho, ih, scanBrackets_some_cons hc', ih']
      simp

theorem Nested.scanBrackets_none (h : Nested run) (pair : Bracket) (lv : Level) :
    ∃ pieces, Nested (atomsOf pieces) ∧ ∀ rest, scanBrackets pair lv none (run ++ rest) =
        (scanBrackets pair lv none rest).map (pieces ++ ·) := by
  induction h with
  | nil =>
    refine ⟨[], .nil, fun rest => ?_⟩
    rw [nil_append]
    cases scanBrackets pair lv none rest <;> rfl
  | @atom a run ha hraw _ _ ih =>
    obtain ⟨pieces, hn, hscan⟩ := ih
    refine ⟨.kept a :: pieces, .atom ha hraw hn, fun rest => ?_⟩
    rw [cons_append, scanBrackets_none_cons (ha pair), hscan]
    cases scanBrackets pair lv none rest <;> rfl
  | @wrap pair' l l' raw run hraw _ ih ih' =>
    obtain ⟨pieces, hn, hscan⟩ := ih
    obtain ⟨pieces', hn', hscan'⟩ := ih'
    by_cases hpair : pair' = pair
    · subst hpair
      refine ⟨.wrapped (.unknown l pair'.opener) (.unknown l' pair'.closer) (pair'.atom lv raw) ::
        pieces', ?_, fun rest => ?_⟩
      · refine .atom (fun pair => marks_atom ..) ?_ hn'
        cases pair' <;> exact hraw
      · simp only [cons_append, append_assoc]
        rw [scanBrackets_none_opener, hraw.scanBrackets_some, scanBrackets_closer_outer, hscan',
          append_nil, reverse_reverse]
        cases scanBrackets pair' lv none rest <;> rfl
    · obtain ⟨ho, -⟩ := marks_of_ne hpair l
      obtain ⟨-, hc⟩ := marks_of_ne hpair l'
      refine ⟨.kept (.unknown l pair'.opener) :: pieces ++ .kept (.unknown l' pair'.closer) :: pieces',
        ?_, fun rest => ?_⟩
      · rw [cons_append, atomsOf_kept, atomsOf_append, atomsOf_kept]
        exact .wrap hn hn'
      · simp only [cons_append, append_assoc]
        rw [scanBrackets_none_cons ho, hscan, scanBrackets_none_cons hc, hscan']
        cases scanBrackets pair lv none rest <;> rfl

theorem groupPair_nested (h : Nested run) (pair : Bracket) (lv : Level) :
    ∃ out, groupPair pair lv run = .ok out ∧ Nested out := by
  obtain ⟨pieces, hn, hscan⟩ := h.scanBrackets_none pair lv
  refine ⟨atomsOf pieces, ?_, hn⟩
  have := hscan []
  rw [append_nil] at this
  simp [groupPair, cutBrackets, this, scanBrackets, Except.map]

/-- The three passes group the brackets of a nested run and leave a nested run. -/
theorem groupBrackets_nested (h : Nested run) (lv : Level) :
    ∃ out, groupBrackets lv run = .ok out ∧ Nested out := by
  obtain ⟨r₁, h₁, hn₁⟩ := groupPair_nested h .brace lv
  obtain ⟨r₂, h₂, hn₂⟩ := groupPair_nested hn₁ .square lv
  obtain ⟨r₃, h₃, hn₃⟩ := groupPair_nested hn₂ .round lv
  exact ⟨r₃, by simp [groupBrackets, Bracket.all, h₁, h₂, h₃, bind, Except.bind, pure, Except.pure],
    hn₃⟩

/-! ## Reading nested runs -/

theorem Nested.raw (h : Nested run) (hb : NoBrackets run) : ∀ a ∈ run, Nested a.raw := by
  induction h with
  | nil => simp
  | atom _ hraw _ _ ih => exact forall_mem_cons.2 ⟨hraw, ih hb.tail⟩
  | @wrap pair l =>
    have := hb pair (.unknown l pair.opener) (by simp)
    simp [marks, has] at this

theorem group_nested {lv : Level} (hraw : RawRun run) (h : Nested run) :
    Ends (fun toks => ∀ a ∈ toks, Nested a.raw) (·.isUnmatched = false)
      (group lv (WatScript.relevel lv run)) := by
  rw [group_raw hraw]
  obtain ⟨grouped, hg, hn⟩ := groupBrackets_nested (h.relevel lv) lv
  rw [hg]
  have hraws := hn.raw (noBrackets_groupBrackets hg)
  show Ends _ _ (tokenize lv grouped)
  have ht := tokenize_ends lv grouped
  cases htoks : tokenize lv grouped with
  | error f =>
    rw [htoks] at ht
    obtain rfl : f = .unknownSymbol := ht
    rfl
  | ok toks =>
    rw [htoks] at ht
    intro a ha
    rcases ht a ha with ⟨hm, -⟩ | hx
    · exact hraws a hm
    · cases hx <;> exact .nil

/-- One run, unread and properly nested. -/
structure NestedRun (run run' : List Atom) : Prop where
  eq : run = run'
  isRaw : RawRun run
  nested : Nested run

theorem lockstep_nested :
    Lockstep true (·.isUnmatched = false) fun _ run run' => NestedRun run run' where
  fault _ h := h
  lex := by
    rintro pair raw _ lv hlv ⟨rfl, hraw, hn⟩
    have hends : Ends _ _ (group lv (relevel lv raw)) := group_nested hraw hn
    cases hg : group lv (relevel lv raw) with
    | error f =>
      rw [hg] at hends
      exact .error hends
    | ok toks =>
      rw [hg] at hends
      have ht := tokens_of_group hlv (.raw hraw) hg
      have htwins : Forall₂ (Twin (fun _ run run' => NestedRun run run') lv) toks toks := by
        refine forall₂_same.2 fun a ha => ?_
        refine .of_withRaw (ht a ha) (ht a ha) (isSimple_of_group hlv hraw hg a ha) rfl ?_
        rintro pair raw raw' rfl heq
        have hraws := congrArg Atom.raw heq
        rw [raw_atom, raw_atom] at hraws
        exact ⟨hraws, (ht _ ha).rawRun, by simpa using hends _ ha⟩
      have hnear : Near _ lv true toks toks := .of_twins ht ht htwins
      exact .ok ⟨hnear, fun _ => slots_twins hnear⟩

theorem Atom.eq_opener (h : a.bracketToken? = some (.opening pair)) :
    ∃ l, a = .unknown l pair.opener := by
  cases a with
  | unknown l c =>
    obtain ⟨pair', ⟨rfl, ht⟩ | ⟨rfl, ht⟩⟩ := bracketToken?_eq_some h
    · cases ht; exact ⟨l, rfl⟩
    · cases ht
  | _ => cases h

theorem Atom.eq_closer (h : a.bracketToken? = some (.closing pair)) :
    ∃ l, a = .unknown l pair.closer := by
  cases a with
  | unknown l c =>
    obtain ⟨pair', ⟨rfl, ht⟩ | ⟨rfl, ht⟩⟩ := bracketToken?_eq_some h
    · cases ht
    · cases ht; exact ⟨l, rfl⟩
  | _ => cases h

theorem Bracket.marks_of_bracketToken? (h : a.bracketToken? = none) (pair : Bracket) :
    pair.marks a = false := by
  rw [← Bool.not_eq_true]
  intro hm
  cases a with
  | unknown l c =>
    simp only [marks, has, Bool.or_eq_true, beq_iff_eq] at hm
    rcases hm with rfl | rfl
    · rw [Atom.bracketToken?, bracketToken?_opener] at h
      cases h
    · rw [Atom.bracketToken?, bracketToken?_closer] at h
      cases h
  | _ => cases hm

theorem nested_of_noTokens (hraw : ∀ a ∈ run, a.raw = [])
    (h : ∀ a ∈ run, a.bracketToken? = none) : Nested run := by
  induction run with
  | nil => exact .nil
  | cons a rest ih =>
    obtain ⟨ha, hrest⟩ := forall_mem_cons.1 h
    obtain ⟨hra, hrrest⟩ := forall_mem_cons.1 hraw
    exact .atom (marks_of_bracketToken? ha) (hra ▸ .nil) (ih hrrest hrest)

theorem nested_of_properlyNested {ts} (h : ProperlyNested ts) :
    ∀ {run : List Atom}, (∀ a ∈ run, a.raw = []) → bracketsOf run = ts → Nested run := by
  induction h with
  | nil => exact fun hraw hts => nested_of_noTokens hraw (filterMap_eq_nil_iff.1 hts)
  | @wrap pair w w' _ _ ih ih' =>
    intro run hraw hts
    -- the run is split where its bracket characters are
    obtain ⟨before, o, rest, rfl, hbefore, ho, hts⟩ := filterMap_eq_cons_iff.1 hts
    obtain ⟨inner, rest, rfl, hinner, hts⟩ := filterMap_eq_append_iff.1 hts
    obtain ⟨gap, c, after, rfl, hgap, hc, hafter⟩ := filterMap_eq_cons_iff.1 hts
    obtain ⟨l, rfl⟩ := Atom.eq_opener ho
    obtain ⟨l', rfl⟩ := Atom.eq_closer hc
    simp only [forall_mem_append, forall_mem_cons] at hraw
    obtain ⟨hbraw, -, hiraw, hgraw, -, haraw⟩ := hraw
    have hbody : Nested (inner ++ gap) :=
      (ih hiraw hinner).append (nested_of_noTokens hgraw hgap)
    have hwrap : Nested (.unknown l pair.opener :: (inner ++ gap) ++
        .unknown l' pair.closer :: after) := .wrap hbody (ih' haraw hafter)
    simpa using (nested_of_noTokens hbraw hbefore).append hwrap

/-! ## What has been read -/

theorem ProperlyNested.single (pair : Bracket) {ts}
    (h : ProperlyNested (ts.filter Token.isBracket)) :
    ProperlyNested ((.opening pair :: (ts ++ [.closing pair])).filter Token.isBracket) := by
  simpa [filter_cons, Token.isBracket] using ProperlyNested.wrap h .nil

theorem Atom.tokens_call_cases (lv : Level) (callee : Atom) (raw : List Atom) (r s : Bool)
    (args : List Atom) : (Atom.call lv callee raw r s args).tokens =
        callee.tokens ++ .opening .round :: (treeTokens args ++ [.closing .round]) ∨
      ∃ o left right, args = [left, right] ∧
        (Atom.call lv callee raw r s args).tokens = left.tokens ++ .operator o :: right.tokens := by
  cases callee with
  | operator l o =>
    rcases args with _ | ⟨left, _ | ⟨right, _ | ⟨a, args⟩⟩⟩
    · exact .inl rfl
    · exact .inl rfl
    · exact .inr ⟨o, left, right, rfl, rfl⟩
    · exact .inl rfl
  | _ => exact .inl rfl

mutual

theorem Atom.nested_tokens : ∀ a : Atom, ProperlyNested (a.tokens.filter Token.isBracket)
  | .unknown .. | .comment .. | .literal .. | .word .. | .operator .. => by
    simpa [Atom.tokens, Token.isBracket] using ProperlyNested.nil
  | .block _ _ _ body => by
    rw [Atom.tokens]
    exact .single .brace (nested_treeTokens body)
  | .paren _ _ _ contents => by
    rw [Atom.tokens]
    exact .single .round (nested_treeTokens contents)
  | .list _ _ _ items => by
    rw [Atom.tokens]
    exact .single .square (nested_treeTokens items)
  | .item _ _ _ contents => by
    rw [Atom.tokens]
    exact nested_treeTokens contents
  | .call _ callee _ _ _ args => by
    have hcallee := Atom.nested_tokens callee
    have hargs := nested_treeTokens args
    rcases Atom.tokens_call_cases _ callee _ _ _ args with h | ⟨o, left, right, rfl, h⟩
    · rw [h, filter_append]
      exact hcallee.append (.single .round hargs)
    · rw [h]
      simpa [treeTokens, filter_cons, Token.isBracket] using hargs
  | .access _ callee _ _ index => by
    rw [Atom.tokens, filter_append]
    exact (Atom.nested_tokens callee).append (.single .square (nested_treeTokens index))
  | .clause _ name cond body => by
    rw [Atom.tokens, filter_cons_of_neg (by simp [Token.isBracket]), filter_append]
    exact (nested_tokensOption cond).append (Atom.nested_tokens body)
  | .chain _ clauses => by
    rw [Atom.tokens]
    exact nested_treeTokens clauses
  | .exprStmt _ _ _ exprs => by
    rw [Atom.tokens]
    exact nested_treeTokens exprs
  | .controlStmt _ head _ _ exprs => by
    rw [Atom.tokens, filter_cons_of_neg (by simp [Token.isBracket])]
    exact nested_treeTokens exprs

theorem nested_tokensOption : ∀ cond : Option Atom,
    ProperlyNested ((tokensOption cond).filter Token.isBracket)
  | none => .nil
  | some a => Atom.nested_tokens a

theorem nested_treeTokens : ∀ as : List Atom,
    ProperlyNested ((treeTokens as).filter Token.isBracket)
  | [] => .nil
  | a :: rest => by
    rw [treeTokens, filter_append]
    exact (Atom.nested_tokens a).append (nested_treeTokens rest)

end

theorem filter_munch (cs : List Char) : (munch cs).filter Token.isBracket = [] :=
  filter_eq_nil_iff.2 fun t ht => by
    rcases mem_munch ht with ⟨w, rfl⟩ | ⟨o, rfl⟩ <;> simp [Token.isBracket]

theorem bracketToken?_of_separator {c} (h : (isSpace c || isSeparator c) = true) :
    bracketToken? c = none := by
  simp only [isSpace, isSeparator, Bool.or_eq_true, beq_iff_eq] at h
  rcases h with (((rfl | rfl) | rfl) | rfl) | (rfl | rfl) | rfl <;> rfl

theorem filter_isBracket_spell (held : List Char) : ∀ {run}, (∀ a ∈ run, a.isText = true) →
      (spell held run).filter Token.isBracket = bracketsOf run
  | [], _ => by rw [spell, filter_munch]; rfl
  | a :: rest, h => by
    obtain ⟨ha, hrest⟩ := forall_mem_cons.1 h
    have ih := fun held => filter_isBracket_spell held hrest
    cases a with
    | unknown l c =>
      rw [spell, bracketsOf, filterMap_cons, Atom.bracketToken?]
      split
      · rename_i hc
        rw [filter_append, filter_munch, ih, bracketToken?_of_separator hc]
        rfl
      · cases hb : bracketToken? c with
        | none => exact ih _
        | some t =>
          have ht : t.isBracket = true := by
            obtain ⟨pair, ⟨-, rfl⟩ | ⟨-, rfl⟩⟩ := bracketToken?_eq_some hb <;> rfl
          simp only [filter_append, filter_munch, filter_cons_of_pos ht, ih]
          rfl
    | literal l text | comment l text block =>
      rw [spell_atom (by simp), filter_append, filter_munch, filter_append, ih]
      rfl
    | _ => cases ha

/-- Reading decides bracket balance. If the brackets outside the literals of a text are nested, reading
fails for no unmatched bracket; if they are not, reading fails. -/
theorem bracket_balance_decided (limit : Int64) (text : Text) {raw : List Atom}
    (hraw : extractLiterals .top (explode .top text) = .ok raw) :
    (ProperlyNested (bracketsOf raw) →
      (parseExpr limit text ≠ .error .braceNotClosed ∧
        parseExpr limit text ≠ .error .braceNotOpened) ∧
      parseStmts limit text ≠ .error .braceNotClosed ∧
        parseStmts limit text ≠ .error .braceNotOpened) ∧
    (¬ ProperlyNested (bracketsOf raw) →
      (∃ f, parseExpr limit text = .error f) ∧ ∃ f, parseStmts limit text = .error f) := by
  have htext := extractLiterals_explode .top text
  rw [hraw] at htext
  refine ⟨fun hn => ?_, fun hn => ?_⟩
  · have hnested : Nested raw := by
      refine nested_of_properlyNested hn (fun a ha => ?_) rfl
      have := (htext a ha).1
      cases a <;> first | rfl | cases this
    have hrun : NestedRun raw raw := ⟨rfl, rawRun_extractLiterals hraw, hnested⟩
    have hexpr := (lockstep_nested.parseExpr_agree limit .brace hraw hraw hrun).left
    have hstmts := (lockstep_nested.parseStmts_agree limit .brace hraw hraw hrun).left
    exact ⟨⟨hexpr.ne_error (by decide), hexpr.ne_error (by decide)⟩,
      hstmts.ne_error (by decide), hstmts.ne_error (by decide)⟩
  · have hbrackets := filter_isBracket_spell [] fun a ha => (htext a ha).1
    have hexpr := parseExpr_reads limit text
    have hstmts := parseStmts_reads limit text
    rw [hraw] at hexpr hstmts
    refine ⟨?_, ?_⟩
    · cases hp : parseExpr limit text with
      | error f => exact ⟨f, rfl⟩
      | ok exprs =>
        rw [hp] at hexpr
        obtain ⟨_, ⟨⟩, hreads⟩ := hexpr
        rw [← hbrackets, ← hreads.tokens_eq] at hn
        exact (hn (nested_treeTokens exprs)).elim
    · cases hp : parseStmts limit text with
      | error f => exact ⟨f, rfl⟩
      | ok stmts =>
        rw [hp] at hstmts
        obtain ⟨_, ⟨⟩, hreads⟩ := hstmts
        rw [← hbrackets, ← hreads.tokens_eq] at hn
        exact (hn (nested_treeTokens stmts)).elim

/-- Brackets that cross fail to be read, although each pass for itself finds its pairs. -/
theorem bracket_balance_decided_crossing :
    ∃ raw, extractLiterals .top (explode .top (.ofString "f(a[\"\x7b\")] // \x7d")) = .ok raw ∧
      ¬ ProperlyNested (bracketsOf raw) ∧
      (∃ f, parseExpr 8 (.ofString "f(a[\"\x7b\")] // \x7d") = .error f) ∧
      ∃ f, parseStmts 8 (.ofString "f(a[\"\x7b\")] // \x7d") = .error f := by
  have hok : ((extractLiterals .top (explode .top (.ofString "f(a[\"\x7b\")] // \x7d"))).map
      (closesAll [] ∘ bracketsOf)) = .ok false := by
    decide +kernel
  obtain ⟨raw, hraw, hn⟩ := map_ok hok
  have hn : ¬ ProperlyNested (bracketsOf raw) := by
    rw [← properlyNested_iff]
    simpa using hn
  exact ⟨raw, hraw, hn, (bracket_balance_decided 8 _ hraw).2 hn⟩

end WatScript
