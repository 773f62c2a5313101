import WatScript.Parsing.Resolve
import WatScript.Proofs.Words

/-!
# Runs that reading meets

Reading lexes a run, finds its outermost structure and goes on with the runs inside. The runs it meets
on the way have a grammar of their own. `RawRun` is what stands unread in a bracket: characters,
literals, comments and further brackets. `IsToken lv` is an atom of a lexed run at level `lv`, before
or after chains and calls have been found. A run can be read (`Readable`) if it is raw or lexed
already; a text is a raw run once its literals are found (`rawRun_extractLiterals`).

Every pass leads from one kind of run to the next: `group_ends`, `structureRun_ends`, `slots_items` and
`splitStatements_statements`. None of them fails for a reason that no source text gives, nor because of
a limit (`ReadFault.isFromRun`).
-/

namespace WatScript

/-- The failure is one that a source text can give. -/
def ReadFault.isFromSource : ReadFault → Bool
  | .groupedLiteral | .unknownOperator | .unexpectedNode => false
  | _ => true

/-- The failure is one that a run of a source text can give under any limit. -/
def ReadFault.isFromRun (f : ReadFault) : Bool := f.isFromSource && f != .nestingTooDeep

theorem Ends.fromSource {α : Type} {P : α → Prop} {x : Except ReadFault α}
    (h : Ends P (·.isFromRun = true) x) : Ends P (·.isFromSource = true) x := by
  cases x with
  | ok a => exact h
  | error f => exact (Bool.and_eq_true_iff.1 h).1

/-! ## Levels -/

namespace Level
variable {lv : Level}

@[simp] theorem tag_bare : lv.bare.tag = 0 := rfl

theorem bare_of_untagged (h : lv.tag = 0) : lv.bare = lv := by
  cases lv
  cases h
  rfl

theorem moveTo_of_untagged {old} (h : lv.tag = 0) (hold : old.tag = 0) : lv.moveTo old = lv := by
  cases lv
  cases old
  cases h
  cases hold
  rfl

end Level

@[simp] theorem tag_bodyLevel (lv : Level) (name : String) : (bodyLevel lv name).tag = 0 := by
  unfold bodyLevel
  split <;> rfl

@[simp] theorem Atom.level_mapLevel (f : Level → Level) (a : Atom) :
    (a.mapLevel f).level = f a.level := by
  cases a <;> rfl

theorem Atom.mapLevel_of_level {f : Level → Level} {a : Atom} (h : f a.level = a.level) :
    a.mapLevel f = a := by
  cases a <;> simp_all [mapLevel, level]

@[simp] theorem Atom.raw_relevel (lv : Level) (a : Atom) : (a.relevel lv).raw = a.raw := by
  cases a <;> rfl

theorem relevel_of_level {lv : Level} {run : List Atom} (hlv : lv.tag = 0)
    (h : ∀ a ∈ run, a.level = lv) : relevel lv run = run := by
  rw [relevel, List.map_congr_left (g := id), List.map_id]
  intro a ha
  refine Atom.mapLevel_of_level ?_
  rw [h a ha]
  exact Level.moveTo_of_untagged hlv hlv

theorem opensLiteral_of_relevel {lv run}
    (h : opensLiteral (relevel lv run) = true) : opensLiteral run = true := by
  -- the characters that open a literal stand in the run itself
  have hchar : ∀ {a : Atom} {l : Level} {c : Char}, a.relevel lv = .unknown l c →
      ∃ l', a = .unknown l' c := by
    intro a l c ha
    cases a <;> cases ha
    exact ⟨_, rfl⟩
  obtain ⟨l, rest, heq⟩ | ⟨l, l', c, rest, hc, heq⟩ := opensLiteral_inv h
  · obtain ⟨a, rest, rfl, ha, -⟩ := List.map_eq_cons_iff.1 heq
    obtain ⟨l', rfl⟩ := hchar ha
    rfl
  · obtain ⟨a, rest, rfl, ha, ht⟩ := List.map_eq_cons_iff.1 heq
    obtain ⟨b, rest, rfl, hb, -⟩ := List.map_eq_cons_iff.1 ht
    obtain ⟨l', rfl⟩ := hchar ha
    obtain ⟨l'', rfl⟩ := hchar hb
    rcases hc with rfl | rfl <;> rfl

theorem LiteralFree.relevel {lv} : ∀ {run}, LiteralFree run → LiteralFree (relevel lv run)
  | [], _ => trivial
  | a :: rest, h => by
    refine ⟨?_, LiteralFree.relevel h.2⟩
    rw [← Bool.not_eq_true]
    intro ho
    exact absurd (h.1.symm.trans (@opensLiteral_of_relevel _ (a :: rest) ho)) (by simp)

/-! ## Unread runs -/

/-- An atom of an unread run. -/
inductive IsRaw : Atom → Prop
  | text {a : Atom} : a.isText = true → a.level.tag = 0 → IsRaw a
  | bracket {pair : Bracket} {lv : Level} {raw : List Atom} : lv.tag = 0 → LiteralFree raw →
      (∀ a ∈ raw, IsRaw a) → IsRaw (pair.atom lv raw)

/-- A run that stands unread in a bracket. -/
structure RawRun (run : List Atom) : Prop where
  literalFree : LiteralFree run
  isRaw : ∀ a ∈ run, IsRaw a

@[simp] theorem Bracket.level_atom (pair : Bracket) (lv : Level) (raw : List Atom) :
    (pair.atom lv raw).level = lv := by
  cases pair <;> rfl

@[simp] theorem Bracket.raw_atom (pair : Bracket) (lv : Level) (raw : List Atom) :
    (pair.atom lv raw).raw = raw := by
  cases pair <;> rfl

theorem Bracket.relevel_atom (pair : Bracket) (lv lv' : Level) (raw : List Atom) :
    (pair.atom lv raw).relevel lv' = pair.atom (lv'.moveTo lv) raw := by
  cases pair <;> rfl

theorem IsRaw.untagged {a} (h : IsRaw a) : a.level.tag = 0 := by
  cases h with
  | text _ ht => exact ht
  | bracket ht => simpa using ht

theorem IsRaw.relevel {a : Atom} {lv : Level} (hlv : lv.tag = 0) (h : IsRaw a) :
    IsRaw (a.relevel lv) ∧ (a.relevel lv).level = lv := by
  have hlevel : (a.relevel lv).level = lv := by
    rw [Atom.relevel, Atom.level_mapLevel, Level.moveTo_of_untagged hlv h.untagged]
  refine ⟨?_, hlevel⟩
  cases h with
  | text htext _ =>
    refine .text ?_ (by rw [hlevel]; exact hlv)
    cases a <;> first | rfl | cases htext
  | bracket ht hfree hraw =>
    rw [Bracket.relevel_atom, Level.moveTo_of_untagged hlv ht]
    exact .bracket hlv hfree hraw

/-! ## Lexed runs -/

/-- An unread clause at the level. -/
inductive IsClause (lv : Level) : Atom → Prop
  | conditional {name : String} {craw braw : List Atom} : Keyword.isClause name = true →
      Keyword.hasCondition name = true → RawRun craw → RawRun braw →
      IsClause lv (.clause lv name (some (.paren lv craw false [])) (.block lv braw false []))
  | unconditional {name : String} {braw : List Atom} : Keyword.isClause name = true →
      Keyword.hasCondition name = false → RawRun braw →
      IsClause lv (.clause lv name none (.block lv braw false []))

/-- The words of the clauses that may follow an `if`. -/
def areArms : List String → Bool
  | [] | ["else"] => true
  | "elif" :: rest => areArms rest
  | _ => false

/-- Clauses with these words form a chain. -/
def isChainOf : List String → Bool
  | "if" :: rest => areArms rest
  | ["loop"] | ["while"] | ["while", "else"] | ["for"] | ["for", "else"] => true
  | _ => false

/-- An atom of a lexed run. Calls, subscripts and chains are there once they have been found. -/
inductive IsToken (lv : Level) : Atom → Prop
  | separator {c : Char} : isSeparator c = true → IsToken lv (.unknown lv c)
  | literal {text : String} : IsToken lv (.literal lv text)
  | comment {text : String} {block : Bool} : IsToken lv (.comment lv text block)
  | word {w : String} : w ≠ "" → IsToken lv (.word lv w)
  | operator {o : String} : (Operator.find? o).isSome → IsToken lv (.operator lv o)
  | bracket {pair : Bracket} {raw : List Atom} : RawRun raw → IsToken lv (pair.atom lv raw)
  | call {callee : Atom} {raw : List Atom} : callee.isCallable = true → IsToken lv callee →
      RawRun raw → IsToken lv (.call lv callee raw false false [])
  | access {callee : Atom} {raw : List Atom} : callee.isCallable = true → IsToken lv callee →
      RawRun raw → IsToken lv (.access lv callee raw false [])
  | chain {clauses : List Atom} : (∀ a ∈ clauses, IsClause lv a) →
      isChainOf (clauses.map Atom.clauseName) = true → IsToken lv (.chain lv clauses)

/-- All atoms are tokens at the level. -/
def Tokens (lv : Level) (run : List Atom) : Prop := ∀ a ∈ run, IsToken lv a

section
variable {lv : Level} {a : Atom} {run : List Atom}

theorem IsLexeme.isToken (h : IsLexeme lv a) : IsToken lv a := by
  cases h with
  | word hw => exact .word hw
  | operator ho => exact .operator ho

theorem IsRaw.isToken (h : IsRaw a) (hlv : a.level = lv) (hl : a.isLetter = false) :
    IsToken lv a := by
  cases h with
  | text htext _ =>
    cases a with
    | unknown l c =>
      cases hlv
      exact .separator (by simpa [Atom.isLetter] using hl)
    | literal l text => cases hlv; exact .literal
    | comment l text block => cases hlv; exact .comment
    | _ => cases htext
  | bracket _ hfree hraw =>
    rw [Bracket.level_atom] at hlv
    rw [hlv]
    exact .bracket ⟨hfree, hraw⟩

theorem IsToken.level (h : IsToken lv a) : a.level = lv := by
  cases h with
  | bracket => exact Bracket.level_atom ..
  | _ => rfl

theorem IsToken.isLetter (h : IsToken lv a) : a.isLetter = false := by
  cases h with
  | separator hc => simp [Atom.isLetter, hc]
  | @bracket pair => cases pair <;> rfl
  | _ => rfl

theorem IsToken.char {l : Level} {c : Char} (h : IsToken lv (.unknown l c)) :
    isSeparator c = true := by
  simpa [Atom.isLetter] using h.isLetter

theorem IsToken.marks (pair : Bracket) (h : IsToken lv a) : pair.marks a = false := by
  cases a with
  | unknown l c =>
    have hc := h.char
    simp only [isSeparator, Bool.or_eq_true, beq_iff_eq] at hc
    rcases hc with (rfl | rfl) | rfl <;> cases pair <;> rfl
  | _ => rfl

theorem Tokens.relevel_eq (hlv : lv.tag = 0) (h : Tokens lv run) : relevel lv run = run :=
  relevel_of_level hlv fun a ha => (h a ha).level

theorem Tokens.literalFree (h : Tokens lv run) : LiteralFree run :=
  literalFree_of_chars fun l c hm => by
    have hc := (h _ hm).char
    simp only [isSeparator, Bool.or_eq_true, beq_iff_eq] at hc
    rcases hc with (rfl | rfl) | rfl <;> decide

end

/-! ## Lexing -/

/-- A run that can be read at a level. -/
inductive Readable (lv : Level) (run : List Atom) : Prop
  | raw : RawRun run → Readable lv run
  | tokens : Tokens lv run → Readable lv run

section
variable {lv : Level} {run : List Atom}

theorem Tokens.group_eq (hlv : lv.tag = 0) (h : Tokens lv run) :
    group lv (relevel lv run) = .ok run := by
  have hb : NoBrackets run := fun pair a ha => (h a ha).marks pair
  simp only [group, h.relevel_eq hlv, extractLiterals_of_literalFree lv h.literalFree,
    groupBrackets_of_noBrackets lv hb, bind, Except.bind]
  exact tokenize_of_separators lv fun a ha => (h a ha).isLetter

theorem tokens_of_literalFree (hlv : lv.tag = 0) (hfree : LiteralFree run)
    (hraw : ∀ a ∈ run, IsRaw a ∧ a.level = lv) :
    Ends (Tokens lv) (·.isFromRun = true) (groupBrackets lv run >>= tokenize lv) := by
  have hgroup : ∀ {pair run out}, LiteralFree run → (∀ a ∈ run, IsRaw a ∧ a.level = lv) →
      Grouped pair lv run out → LiteralFree out ∧ ∀ a ∈ out, IsRaw a ∧ a.level = lv := by
    intro pair run out hfree hraw hg
    refine ⟨hg.literalFree hfree, hg.all hraw fun raw hr => ⟨?_, Bracket.level_atom ..⟩⟩
    exact .bracket hlv (hfree.stretch hr) fun a ha => (hraw a (hr.subset ha)).1
  have hb := groupBrackets_ends lv run
  cases hout : groupBrackets lv run with
  | error f =>
    rw [hout] at hb
    have hf : f.isUnmatched = true := hb
    show f.isFromRun = true
    cases f <;> first | rfl | cases hf
  | ok out =>
    obtain ⟨r₁, r₂, h₁, h₂, h₃⟩ := groupBrackets_ok hout
    obtain ⟨f₁, a₁⟩ := hgroup hfree hraw h₁
    obtain ⟨f₂, a₂⟩ := hgroup f₁ a₁ h₂
    obtain ⟨-, a₃⟩ := hgroup f₂ a₂ h₃
    show Ends _ _ (tokenize lv out)
    have ht := tokenize_ends lv out
    cases htoks : tokenize lv out with
    | error f =>
      rw [htoks] at ht
      obtain rfl : f = .unknownSymbol := ht
      rfl
    | ok toks =>
      rw [htoks] at ht
      intro a ha
      rcases ht a ha with ⟨hm, hl⟩ | hx
      · exact (a₃ a hm).1.isToken (a₃ a hm).2 hl
      · exact hx.isToken

/-- Lexing turns a run that can be read into tokens. -/
theorem group_ends (hlv : lv.tag = 0) (h : Readable lv run) :
    Ends (Tokens lv) (·.isFromRun = true) (group lv (relevel lv run)) := by
  cases h with
  | raw hraw =>
    have hfree : LiteralFree (relevel lv run) := hraw.literalFree.relevel
    rw [group, extractLiterals_of_literalFree lv hfree]
    refine tokens_of_literalFree hlv hfree fun a ha => ?_
    obtain ⟨b, hb, rfl⟩ := List.mem_map.1 ha
    exact (hraw.isRaw b hb).relevel hlv
  | tokens ht =>
    rw [ht.group_eq hlv]
    exact ht

theorem tokens_of_group {out : List Atom} (hlv : lv.tag = 0) (hr : Readable lv run)
    (h : group lv (relevel lv run) = .ok out) : Tokens lv out := by
  have ht := group_ends hlv hr
  rwa [h] at ht

end

/-! ## Whole texts -/

theorem relevel_explode (text : Text) : relevel .top (explode .top text) = explode .top text := by
  refine relevel_of_level rfl fun a ha => ?_
  obtain ⟨c, -, rfl⟩ := List.mem_map.1 ha
  rfl

/-- Once its literals are found, a text is an unread run. -/
theorem rawRun_extractLiterals {text : Text} {raw : List Atom}
    (h : extractLiterals .top (explode .top text) = .ok raw) : RawRun raw := by
  have hl := extractLiterals_explode .top text
  rw [h] at hl
  exact ⟨literalFree_extractLiterals h, fun a ha => .text (hl a ha).1 (by rw [(hl a ha).2]; rfl)⟩

theorem group_explode {text raw} (h : extractLiterals .top (explode .top text) = .ok raw) :
    group .top (relevel .top (explode .top text)) = group .top (relevel .top raw) := by
  have hl := extractLiterals_explode .top text
  rw [h] at hl
  rw [relevel_of_level rfl fun a ha => (hl a ha).2, relevel_explode, group, group, h,
    extractLiterals_of_literalFree .top (literalFree_extractLiterals h)]

theorem group_explode_error {text f} (h : extractLiterals .top (explode .top text) = .error f) :
    group .top (relevel .top (explode .top text)) = .error f ∧ f.isFromRun = true := by
  have hl := extractLiterals_explode .top text
  rw [h] at hl
  refine ⟨by rw [relevel_explode, group, h]; rfl, ?_⟩
  have hf : f.isOpenLiteral = true := hl
  cases f <;> first | rfl | cases hf

end WatScript
