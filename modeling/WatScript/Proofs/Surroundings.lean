import WatScript.Proofs.TokenOrder

/-!
# What surrounds a point of a source text

Scanning the lexemes before a point from left to right finds the brackets that are still open there. A
brace is the body of a loop if it opens right behind the closed condition of a `while` or `for`, and a
condition opens right behind such a word. `Surroundings` is what the scan knows: the open brackets and
what a bracket that opens next would be. `Level.Records` says that a level has the two counts.

A bracketed stretch of lexemes leaves the scan as it was (`Neutral`). So does every tree that is read, for
a word that is no part of a clause is no loop word (`structureRun_loopless`).
-/

namespace WatScript

open List

/-- What a bracket would be that opens next. -/
inductive Ahead where
  | nothing
  | condition
  | body
  deriving DecidableEq, Repr

/-- An open bracket: whether it is the body of a loop, and what comes behind it. -/
structure Scope where
  isLoopBody : Bool
  behind : Ahead
  deriving DecidableEq, Repr

/-- The open brackets around a point, innermost first. -/
structure Surroundings where
  scopes : List Scope
  ahead : Ahead
  deriving DecidableEq, Repr

namespace Surroundings

/-- The scope of a bracket that opens here. -/
def scope (s : Surroundings) (pair : Bracket) : Scope where
  isLoopBody := s.ahead == .body && pair == .brace
  behind := if s.ahead == .condition && pair == .round then .body else .nothing

/-- The surroundings behind a token. -/
def pass (s : Surroundings) : Token → Surroundings
  | .word w => ⟨s.scopes, if Keyword.isLoop w then .condition else .nothing⟩
  | .operator _ | .literal _ => ⟨s.scopes, .nothing⟩
  | .opening pair => ⟨s.scope pair :: s.scopes, .nothing⟩
  | .closing _ =>
    match s.scopes with
    | [] => ⟨[], .nothing⟩
    | scope :: outer => ⟨outer, scope.behind⟩

/-- The surroundings behind tokens. -/
def passAll (s : Surroundings) (ts : List Token) : Surroundings := ts.foldl pass s

def depth (s : Surroundings) : Nat := s.scopes.length

def loops (s : Surroundings) : Nat := s.scopes.countP (·.isLoopBody)

theorem passAll_append (s : Surroundings) (ts us : List Token) :
    s.passAll (ts ++ us) = (s.passAll ts).passAll us := foldl_append

theorem passAll_cons (s : Surroundings) (t : Token) (ts : List Token) :
    s.passAll (t :: ts) = (s.pass t).passAll ts := rfl

end Surroundings

/-- What surrounds the point behind some lexemes. -/
def surroundings (before : List Token) : Surroundings := Surroundings.passAll ⟨[], .nothing⟩ before

theorem surroundings_append (before ts : List Token) :
    surroundings (before ++ ts) = (surroundings before).passAll ts :=
  Surroundings.passAll_append ..

/-- The level has as many brackets and bodies of loops as are open. -/
structure Level.Records (lv : Level) (s : Surroundings) : Prop where
  depth : lv.depth = Int64.ofNat s.depth
  loops : lv.loops = Int64.ofNat s.loops

section
variable {lv : Level} {s : Surroundings}

theorem Level.Records.of_scopes {s'} (h : lv.Records s) (heq : s'.scopes = s.scopes) :
    lv.Records s' :=
  ⟨by rw [h.depth, Surroundings.depth, Surroundings.depth, heq],
    by rw [h.loops, Surroundings.loops, Surroundings.loops, heq]⟩

theorem Level.Records.enter (h : lv.Records s) {pair}
    (hs : (s.scope pair).isLoopBody = false) : lv.enter.Records (s.pass (.opening pair)) := by
  constructor
  · show lv.depth + 1 = Int64.ofNat (s.depth + 1)
    rw [h.depth, Int64.ofNat_add]
    rfl
  · show lv.loops = Int64.ofNat (List.countP _ (_ :: _))
    rw [h.loops, countP_cons_of_neg (by rw [hs]; exact Bool.false_ne_true)]
    rfl

theorem Level.Records.enterLoop (h : lv.Records s) {pair}
    (hs : (s.scope pair).isLoopBody = true) : lv.enterLoop.Records (s.pass (.opening pair)) := by
  constructor
  · show lv.depth + 1 = Int64.ofNat (s.depth + 1)
    rw [h.depth, Int64.ofNat_add]
    rfl
  · show lv.loops + 1 = Int64.ofNat (List.countP _ (_ :: _))
    rw [h.loops, countP_cons_of_pos (by rw [hs]), Int64.ofNat_add]
    rfl

end

/-! ## Lexemes that leave the surroundings as they were -/

/-- Where nothing is ahead, passing the lexemes changes nothing. -/
def Neutral (ts : List Token) : Prop := ∀ s : Surroundings, s.ahead = .nothing → s.passAll ts = s

namespace Neutral
variable {ts us : List Token}

theorem nil : Neutral [] := fun _ _ => rfl

theorem append (h : Neutral ts) (h' : Neutral us) : Neutral (ts ++ us) := fun s hs => by
  rw [Surroundings.passAll_append, h s hs, h' s hs]

theorem word {w} (hw : Keyword.isLoop w = false) : Neutral [.word w] := by
  rintro ⟨scopes, _⟩ rfl
  simp [Surroundings.passAll, Surroundings.pass, hw]

theorem operator (o : String) : Neutral [.operator o] := by
  rintro ⟨scopes, _⟩ rfl
  rfl

theorem literal (text : String) : Neutral [.literal text] := by
  rintro ⟨scopes, _⟩ rfl
  rfl

theorem passAll_bracket (h : Neutral ts) (pair : Bracket) (s : Surroundings) :
    s.passAll (.opening pair :: (ts ++ [.closing pair])) = ⟨s.scopes, (s.scope pair).behind⟩ := by
  rw [Surroundings.passAll_cons, Surroundings.passAll_append, h _ rfl]
  rfl

theorem bracket (h : Neutral ts) (pair : Bracket) :
    Neutral (.opening pair :: (ts ++ [.closing pair])) := by
  rintro ⟨scopes, _⟩ rfl
  exact h.passAll_bracket pair _

theorem conditional (w : String) (hc : Neutral ts) (hb : Neutral us) :
    Neutral (.word w :: ((.opening .round :: (ts ++ [.closing .round])) ++
      .opening .brace :: (us ++ [.closing .brace]))) := by
  rintro ⟨scopes, _⟩ rfl
  rw [Surroundings.passAll_cons, Surroundings.passAll_append, hc.passAll_bracket, hb.passAll_bracket]
  simp [Surroundings.scope, Surroundings.pass]

end Neutral

/-! ## Loop words -/

/-- The atom heads a loop. -/
def Atom.isLoopWord : Atom → Bool
  | .word _ w => Keyword.isLoop w
  | _ => false

theorem Keyword.isClause_of_isLoop {w} (h : Keyword.isLoop w = true) :
    Keyword.isClause w = true := by
  simp only [Keyword.isLoop, Keyword.isClause, contains_iff_mem, mem_cons,
    not_mem_nil, or_false] at h ⊢
  rcases h with rfl | rfl <;> simp

theorem Atom.isLoopWord_of_isCallable {a : Atom} (h : a.isCallable = true) :
    a.isLoopWord = false := by
  cases a with
  | word lv w =>
    refine Bool.eq_false_iff.2 fun hw => ?_
    have hclause := Keyword.isClause_of_isLoop hw
    simp [Atom.isCallable, Keyword.isKeyword, hclause] at h
  | _ => rfl

section
variable {lv : Level} {run out : List Atom}

theorem MembersOf.loopless {ms} (h : MembersOf lv run ms) :
    ∀ m ∈ ms, m.atom.isLoopWord = false := by
  refine h.forall_mem (fun _ _ => trivial) fun m part hm _ => ?_
  cases hm with
  | @given a hw =>
    cases a with
    | word l w => exact Bool.eq_false_iff.2 (mt Keyword.isClause_of_isLoop (by simp [hw l w rfl]))
    | _ => rfl
  | _ => rfl

theorem Joined.loopless {ms ps} (h : Joined ms ps)
    (hms : ∀ m ∈ ms, m.atom.isLoopWord = false) : ∀ p ∈ ps, (p.toAtom lv).isLoopWord = false := by
  induction h with
  | nil => exact forall_mem_nil _
  | atom _ _ ih =>
    obtain ⟨hm, hrest⟩ := forall_mem_cons.1 hms
    exact forall_mem_cons.2 ⟨hm, ih hrest⟩
  | chain _ _ _ ih => exact forall_mem_cons.2 ⟨rfl, ih (forall_mem_append.1 hms).2⟩

theorem groupSyntax_loopless (h : groupSyntax lv run = .ok out) :
    ∀ a ∈ out, a.isLoopWord = false := by
  obtain ⟨ps, hps, rfl⟩ := map_ok h
  obtain ⟨ms, hms, hps⟩ := phrases_inv hps
  exact forall_mem_map.2 (hps.loopless hms.loopless)

theorem foldl_applyTo_loopless : ∀ {bs : List Atom} {callee : Atom}, callee.isLoopWord = false →
    (∀ b ∈ bs, b.isLoopWord = false) → (bs.foldl Atom.applyTo callee).isLoopWord = false
  | [], _, hc, _ => hc
  | b :: bs, callee, _, h => by
    obtain ⟨hb, hbs⟩ := forall_mem_cons.1 h
    rw [foldl_cons]
    refine foldl_applyTo_loopless ?_ hbs
    cases b with
    | paren | list => rfl
    | _ => exact hb

theorem groupCalls_loopless (h : ∀ a ∈ run, a.isLoopWord = false) :
    ∀ a ∈ groupCalls run, a.isLoopWord = false := by
  refine forall_mem_map.2 fun p hp => ?_
  obtain ⟨hhead, hbrackets⟩ := forall_mem_cons.1 (forall_source h p hp)
  exact foldl_applyTo_loopless hhead hbrackets

/-- The structure of a run has no loop word in it: they all have become clauses. -/
theorem structureRun_loopless (hlv : lv.tag = 0) (ht : Tokens lv run)
    (h : structureRun lv run = .ok out) : ∀ a ∈ out, a.isLoopWord = false := by
  obtain ⟨r₁, h₁, h⟩ := bind_ok h
  obtain ⟨r₂, h₂, h⟩ := bind_ok h
  have hp₁ := dropComments_ends ht
  rw [h₁] at hp₁
  have hp₂ : Ends _ _ (groupSyntax lv r₁) := groupSyntax_ends hp₁
  rw [h₂] at hp₂
  have hs := reduce_ends (groupCalls_parts hlv hp₂)
  rw [h] at hs
  cases hs with
  | terms => exact groupCalls_loopless (groupSyntax_loopless h₂)
  | operation => exact forall_mem_singleton.2 rfl

end

end WatScript
