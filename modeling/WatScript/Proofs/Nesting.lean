import WatScript.Proofs.Surroundings
import WatScript.Proofs.TreeInvariant

/-!
# Where the nodes of a tree stand

`placesOf before trees` lists the nodes of trees that begin behind some lexemes, each with the lexemes
before it. There is one place for each node that a walk meets (`map_placesOf_eq_nodes`).

`Situated` says what holds of a node at its place: that its level has the counts of what surrounds it there,
above all. `Nests lv a` says that of all nodes of a tree, wherever it begins at the level `lv`. Reading
makes only such trees (`ReadsExpr.nests` and companions). A bracket is one level deeper inside, and the
bracket behind the condition of a loop is one loop deeper too (`nests_conditional`).
-/

namespace WatScript

open List Atom Keyword

/-! ## Where the nodes of a tree stand -/

mutual

/-- The nodes of a resolved tree as a walk meets them, each with the lexemes before it. -/
def Atom.places (before : List Token) : Atom → List (List Token × Atom)
  | .block lv raw resolved body =>
    (before, .block lv raw resolved body) :: placesOf (before ++ [.opening .brace]) body
  | .paren lv raw resolved contents =>
    (before, .paren lv raw resolved contents) :: placesOf (before ++ [.opening .round]) contents
  | .list lv raw resolved items =>
    (before, .list lv raw resolved items) :: placesOf (before ++ [.opening .square]) items
  | .item lv raw resolved contents =>
    (before, .item lv raw resolved contents) :: placesOf before contents
  | .call lv (.operator l o) raw resolved split [left, right] =>
    (before, .call lv (.operator l o) raw resolved split [left, right]) ::
      (before ++ left.tokens, .operator l o) ::
        (left.places before ++ right.places (before ++ (left.tokens ++ [.operator o])))
  | .call lv callee raw resolved split args =>
    (before, .call lv callee raw resolved split args) ::
      (callee.places before ++ placesOf (before ++ (callee.tokens ++ [.opening .round])) args)
  | .access lv callee raw resolved index =>
    (before, .access lv callee raw resolved index) ::
      (callee.places before ++ placesOf (before ++ (callee.tokens ++ [.opening .square])) index)
  | .clause lv name cond body =>
    (before, .clause lv name cond body) :: (placesOption (before ++ [.word name]) cond ++
      body.places (before ++ .word name :: tokensOption cond))
  | .chain lv clauses => (before, .chain lv clauses) :: placesOf before clauses
  | .exprStmt lv raw resolved exprs =>
    (before, .exprStmt lv raw resolved exprs) :: placesOf before exprs
  | .controlStmt lv head raw resolved exprs =>
    (before, .controlStmt lv head raw resolved exprs) :: placesOf (before ++ [.word head]) exprs
  | a => [(before, a)]

def placesOption (before : List Token) : Option Atom → List (List Token × Atom)
  | none => []
  | some a => a.places before

def placesOf (before : List Token) : List Atom → List (List Token × Atom)
  | [] => []
  | a :: rest => a.places before ++ placesOf (before ++ a.tokens) rest

end

theorem places_call {lv callee raw args resolved split before} (hc : callee.isCallable = true) :
    (Atom.call lv callee raw resolved split args).places before =
      (before, .call lv callee raw resolved split args) ::
        (callee.places before ++ placesOf (before ++ (callee.tokens ++ [.opening .round])) args) := by
  cases callee with
  | word | call | access | chain => rw [places]; simp
  | _ => cases hc

/-- The resolved bracket. -/
def Bracket.node (lv : Level) (held : List Atom) : Bracket → Atom
  | .brace => .block lv [] true held
  | .square => .list lv [] true held
  | .round => .paren lv [] true held

theorem Bracket.tokens_node (pair : Bracket) (lv : Level) (held : List Atom) :
    (pair.node lv held).tokens = .opening pair :: (treeTokens held ++ [.closing pair]) := by
  cases pair <;> rfl

theorem Bracket.places_node (pair : Bracket) (lv : Level) (held : List Atom) (before : List Token) :
    (pair.node lv held).places before =
      (before, pair.node lv held) :: placesOf (before ++ [.opening pair]) held := by
  cases pair <;> rfl

/-! ## What holds of every place -/

/-- What a node holds without a bracket of its own around it: the callee, the operator and the operands
of an application, the condition and the block of a clause, and all that an item, a chain or a statement
holds. -/
def Atom.fellows : Atom → List Atom
  | .item _ _ _ exprs | .exprStmt _ _ _ exprs | .controlStmt _ _ _ _ exprs => exprs
  | .call _ (.operator l o) _ _ _ operands => .operator l o :: operands
  | .call _ callee _ _ _ _ | .access _ callee _ _ _ => [callee]
  | .clause _ _ cond body => cond.toList ++ [body]
  | .chain _ clauses => clauses
  | _ => []

theorem fellows_call {lv callee raw args resolved split} (hc : callee.isCallable = true) :
    (Atom.call lv callee raw resolved split args).fellows = [callee] := by
  cases callee <;> first | rfl | cases hc

/-- The node stands at its place in a sequence of lexemes and closes every bracket that it opens. Its
level has the counts of what surrounds the place. -/
structure Situated (ts : List Token) (x : List Token × Atom) : Prop where
  stands : ∃ after, ts = x.1 ++ (x.2.tokens ++ after)
  closed : Neutral x.2.tokens
  recorded : x.2.level.Records (surroundings x.1)
  fellows : ∀ b ∈ x.2.fellows, b.level = x.2.level

theorem Situated.extend {ts ts' x} (h : Situated ts x)
    (more : List Token) (heq : ts' = ts ++ more) : Situated ts' x := by
  obtain ⟨after, rfl⟩ := h.stands
  exact ⟨⟨after ++ more, by rw [heq]; simp⟩, h.closed, h.recorded, h.fellows⟩

theorem Situated.self {before a} (hclosed : Neutral a.tokens)
    (h : a.level.Records (surroundings before)) (hfellows : ∀ b ∈ a.fellows, b.level = a.level) :
    Situated (before ++ a.tokens) (before, a) :=
  ⟨⟨[], by simp⟩, hclosed, h, hfellows⟩

/-- Nothing is ahead behind the lexemes, and the level has the counts of what surrounds the point. -/
structure Level.Opens (lv : Level) (before : List Token) : Prop where
  ahead : (surroundings before).ahead = .nothing
  records : lv.Records (surroundings before)

/-- The atom stands at the level, and what is in it at the levels that its tokens say. -/
structure Nests (lv : Level) (a : Atom) : Prop where
  level : a.level = lv
  neutral : Neutral a.tokens
  situated : ∀ {before}, lv.Opens before →
    ∀ x ∈ a.places before, Situated (before ++ a.tokens) x

/-- The same of atoms one after the other. -/
structure AllNest (lv : Level) (as : List Atom) : Prop where
  level : ∀ a ∈ as, a.level = lv
  neutral : Neutral (treeTokens as)
  situated : ∀ {before}, lv.Opens before →
    ∀ x ∈ placesOf before as, Situated (before ++ treeTokens as) x

section
variable {lv : Level} {before ts : List Token}

theorem Level.Opens.behind (h : lv.Opens before) (hts : Neutral ts) : lv.Opens (before ++ ts) := by
  have heq : surroundings (before ++ ts) = surroundings before := by
    rw [surroundings_append, hts _ h.ahead]
  exact ⟨heq ▸ h.ahead, heq ▸ h.records⟩

theorem Level.Opens.inside (h : lv.Opens before) (pair : Bracket) :
    lv.enter.Opens (before ++ [.opening pair]) := by
  have hscope : ((surroundings before).scope pair).isLoopBody = false := by
    simp [Surroundings.scope, h.ahead]
  exact ⟨by rw [surroundings_append]; rfl, by rw [surroundings_append]; exact h.records.enter hscope⟩

theorem allNest : ∀ {as}, (∀ a ∈ as, Nests lv a) → AllNest lv as
  | [], _ => ⟨forall_mem_nil _, .nil, fun _ _ hx => nomatch hx⟩
  | a :: as, h => by
    obtain ⟨ha, has⟩ := forall_mem_cons.1 h
    have ih := allNest has
    refine ⟨forall_mem_cons.2 ⟨ha.level, ih.level⟩, ha.neutral.append ih.neutral,
      fun {before} hb x hx => ?_⟩
    rw [placesOf, mem_append] at hx
    rcases hx with hx | hx
    · exact (ha.situated hb x hx).extend (treeTokens as) (by simp [treeTokens])
    · exact (ih.situated (hb.behind ha.neutral) x hx).extend [] (by simp [treeTokens])

/-! ## Nodes around trees side by side -/

variable {n callee : Atom} {as : List Atom} {pair : Bracket}

theorem AllNest.situated_node {inner} (h : AllNest inner as)
    (hrec : lv.Records (surroundings before)) (hin : inner.Opens (before ++ [.opening pair])) :
    ∀ x ∈ (pair.node lv as).places before, Situated (before ++ (pair.node lv as).tokens) x := by
  intro x hx
  rw [pair.places_node, mem_cons] at hx
  rcases hx with rfl | hx
  · refine .self (pair.tokens_node lv as ▸ h.neutral.bracket pair) ?_ ?_
    · cases pair <;> exact hrec
    · cases pair <;> exact forall_mem_nil _
  · exact (h.situated hin x hx).extend [.closing pair] (by rw [pair.tokens_node]; simp)

theorem AllNest.node (h : AllNest lv.enter as) (pair : Bracket) : Nests lv (pair.node lv as) where
  level := by cases pair <;> rfl
  neutral := pair.tokens_node lv as ▸ h.neutral.bracket pair
  situated hb := h.situated_node hb.records (hb.inside pair)

theorem AllNest.row {head} (h : AllNest lv as) (hhead : Neutral head)
    (hn : n.level = lv) (hfellows : n.fellows = as) (htokens : n.tokens = head ++ treeTokens as)
    (hplaces : ∀ before, n.places before = (before, n) :: placesOf (before ++ head) as) :
    Nests lv n where
  level := hn
  neutral := htokens ▸ hhead.append h.neutral
  situated {before} hb x hx := by
    rw [hplaces, mem_cons] at hx
    rcases hx with rfl | hx
    · refine .self (htokens ▸ hhead.append h.neutral) (hn ▸ hb.records) ?_
      rw [hfellows, hn]
      exact h.level
    · exact (h.situated (hb.behind hhead) x hx).extend [] (by rw [htokens]; simp)

theorem Nests.apply (hc : Nests lv callee) (h : AllNest lv.enter as) (hn : n.level = lv)
    (hfellows : n.fellows = [callee])
    (htokens : n.tokens = callee.tokens ++ .opening pair :: (treeTokens as ++ [.closing pair]))
    (hplaces : ∀ before, n.places before = (before, n) ::
      (callee.places before ++ placesOf (before ++ (callee.tokens ++ [.opening pair])) as)) :
    Nests lv n where
  level := hn
  neutral := htokens ▸ hc.neutral.append (h.neutral.bracket pair)
  situated {before} hb x hx := by
    rw [hplaces, mem_cons, mem_append] at hx
    rcases hx with rfl | hx | hx
    · refine .self (htokens ▸ hc.neutral.append (h.neutral.bracket pair)) (hn ▸ hb.records) ?_
      rw [hfellows, hn, forall_mem_singleton]
      exact hc.level
    · exact (hc.situated hb x hx).extend _ (by rw [htokens, ← append_assoc])
    · rw [← append_assoc] at hx
      exact (h.situated ((hb.behind hc.neutral).inside pair) x hx).extend [.closing pair]
        (by rw [htokens]; simp)

theorem nests_operation {o left right} (hl : Nests lv left)
    (hr : Nests lv right) : Nests lv (.call lv (.operator lv o) [] true true [left, right]) := by
  have hclosed : Neutral (left.tokens ++ .operator o :: right.tokens) :=
    hl.neutral.append ((Neutral.operator o).append hr.neutral)
  refine ⟨rfl, hclosed, fun {before} hb x hx => ?_⟩
  rw [places, mem_cons, mem_cons, mem_append] at hx
  rcases hx with rfl | rfl | hx | hx
  · refine .self hclosed hb.records ?_
    simp only [fellows, forall_mem_cons]
    exact ⟨rfl, hl.level, hr.level, forall_mem_nil _⟩
  · exact ⟨⟨right.tokens, by simp [tokens]⟩, .operator o, (hb.behind hl.neutral).records,
      forall_mem_nil _⟩
  · exact (hl.situated hb x hx).extend (.operator o :: right.tokens) (by simp [tokens])
  · exact (hr.situated (hb.behind (hl.neutral.append (.operator o))) x hx).extend []
      (by simp [tokens])

/-! ## Clauses -/

theorem Level.Records.ahead {s s' ahead} (h : lv.Records s)
    (heq : s' = ⟨s.scopes, ahead⟩) : lv.Records s' := h.of_scopes (by rw [heq])

theorem surroundings_word (before : List Token) (w : String) : surroundings (before ++ [.word w]) =
      ⟨(surroundings before).scopes, if isLoop w then .condition else .nothing⟩ := by
  rw [surroundings_append]
  rfl

theorem surroundings_condition (h : Neutral ts) (before : List Token) (w : String) :
    surroundings (before ++ .word w :: .opening .round :: (ts ++ [.closing .round])) =
      ⟨(surroundings before).scopes, if isLoop w then .body else .nothing⟩ := by
  rw [surroundings_append, Surroundings.passAll_cons, h.passAll_bracket]
  cases hw : isLoop w <;> simp [Surroundings.pass, Surroundings.scope, hw]

theorem Level.Opens.condition (h : lv.Opens before) (w : String) :
    lv.enter.Opens (before ++ [.word w] ++ [.opening .round]) := by
  have hword := surroundings_word before w
  refine ⟨by rw [surroundings_append]; rfl, ?_⟩
  rw [surroundings_append]
  refine (h.records.ahead hword).enter ?_
  rw [hword]
  cases isLoop w <;> rfl

theorem Level.Opens.body (h : lv.Opens before) {w} (hts : surroundings (before ++ ts) =
      ⟨(surroundings before).scopes, if isLoop w then .body else .nothing⟩) :
    (bodyLevel lv w).Opens (before ++ ts ++ [.opening .brace]) := by
  have hrec : lv.Records (surroundings (before ++ ts)) := h.records.ahead hts
  refine ⟨by rw [surroundings_append]; rfl, ?_⟩
  rw [surroundings_append, bodyLevel]
  cases hw : isLoop w with
  | true => exact hrec.enterLoop (by rw [hts, hw]; rfl)
  | false => exact hrec.enter (by rw [hts, hw]; rfl)

theorem nests_conditional {name cond body} (hc : AllNest lv.enter cond)
    (hb : AllNest (bodyLevel lv name) body) :
    Nests lv (.clause lv name (some (.paren lv [] true cond)) (.block lv [] true body)) := by
  have hclosed := Neutral.conditional name hc.neutral hb.neutral
  refine ⟨rfl, hclosed, fun {before} h x hx => ?_⟩
  have hword := surroundings_word before name
  have hbehind := surroundings_condition hc.neutral before name
  rw [places, mem_cons, mem_append] at hx
  rcases hx with rfl | hx | hx
  · exact .self hclosed h.records (by simp [fellows, level])
  · have hparen := hc.situated_node (h.records.ahead hword) (h.condition name) x hx
    refine hparen.extend (Atom.block lv [] true body).tokens ?_
    rw [append_assoc, append_assoc]
    rfl
  · have hblock := hb.situated_node (h.records.ahead hbehind) (h.body hbehind) x hx
    refine hblock.extend [] ?_
    rw [append_nil, append_assoc]
    rfl

theorem nests_unconditional {name body} (hname : isLoop name = false)
    (hb : AllNest (bodyLevel lv name) body) :
    Nests lv (.clause lv name none (.block lv [] true body)) := by
  have hclosed := (Neutral.word hname).append (hb.neutral.bracket .brace)
  refine ⟨rfl, hclosed, fun {before} h x hx => ?_⟩
  have hword : surroundings (before ++ [.word name]) =
      ⟨(surroundings before).scopes, if isLoop name then .body else .nothing⟩ := by
    rw [surroundings_word, hname]
    rfl
  rcases mem_cons.1 hx with rfl | hx
  · exact .self hclosed h.records (by simp [fellows, level])
  · have hblock := hb.situated_node (h.records.ahead hword) (h.body hword) x hx
    refine hblock.extend [] ?_
    rw [append_nil, append_assoc]
    rfl

theorem Keyword.hasCondition_of_isLoop {w} (h : isLoop w = true) : hasCondition w = true := by
  simp only [isLoop, hasCondition, contains_iff_mem, mem_cons,
    not_mem_nil, or_false] at h ⊢
  rcases h with rfl | rfl <;> simp

theorem Keyword.isLoop_of_isControl {w} (h : isControl w = true) : isLoop w = false := by
  simp only [isControl, contains_iff_mem, mem_cons, not_mem_nil,
    or_false] at h
  rcases h with rfl | rfl | rfl | rfl <;> rfl

end

/-! ## Readings nest -/

theorem allNest_of_zip {lv : Level} {parts out : List Atom} (hn : parts.length = out.length)
    (hparts : ∀ a ∈ parts, a.isLoopWord = false)
    (h : ∀ a b, (a, b) ∈ parts.zip out → a.isLoopWord = false → Nests lv b) : AllNest lv out := by
  refine allNest fun b hb => ?_
  obtain ⟨a, hz⟩ := exists_zip_of_mem hn hb
  exact h a b hz (hparts a (of_mem_zip hz).1)

mutual

theorem ReadsRun.allNest : ∀ {lv raw out}, ReadsRun lv raw out → AllNest lv out
  | _, _, _, .intro hlv hr hg hs hn h =>
    allNest_of_zip hn (structureRun_loopless hlv (tokens_of_group hlv hr hg) hs)
      fun a b hz => (h a b hz).nests

theorem ReadsStmts.allNest : ∀ {lv raw out}, ReadsStmts lv raw out → AllNest lv out
  | _, _, _, .intro _ _ _ hn h => WatScript.allNest fun b hb =>
    have ⟨a, hz⟩ := exists_zip_of_mem hn hb
    (h a b hz).nests

theorem ReadsSlots.allNest : ∀ {lv raw out}, ReadsSlots lv raw out → AllNest lv out
  | _, _, _, .intro _ _ _ hn h => WatScript.allNest fun b hb =>
    have ⟨a, hz⟩ := exists_zip_of_mem hn hb
    (h a b hz).nests

theorem ReadsExpr.nests : ∀ {lv a a'}, ReadsExpr lv a a' → a.isLoopWord = false → Nests lv a'
  | lv, _, _, @ReadsExpr.literal _ text, _ =>
    ⟨rfl, .literal text, fun hb x hx => by
      obtain rfl := mem_singleton.1 hx
      exact .self (.literal text) hb.records (forall_mem_nil _)⟩
  | lv, _, _, .word _, hw =>
    ⟨rfl, .word hw, fun hb x hx => by
      obtain rfl := mem_singleton.1 hx
      exact .self (.word hw) hb.records (forall_mem_nil _)⟩
  | _, _, _, .block h, _ => h.allNest.node .brace
  | _, _, _, .paren h, _ => h.allNest.node .round
  | _, _, _, .list h, _ => h.allNest.node .square
  | _, _, _, .operation _ hl hr, _ => nests_operation hl.nests hr.nests
  | _, _, _, .call hc h hs, _ =>
    have hc' := h.isCallable_eq.trans hc
    (h.nests (isLoopWord_of_isCallable hc)).apply hs.allNest rfl (fellows_call hc')
      (tokens_call hc') fun _ => places_call hc'
  | _, _, _, .access hc h hs, _ =>
    (h.nests (isLoopWord_of_isCallable hc)).apply hs.allNest rfl rfl rfl fun _ => rfl
  | _, _, _, .chain _ hn h, _ =>
    (WatScript.allNest fun b hb =>
      have ⟨a, hz⟩ := exists_zip_of_mem hn hb
      (h a b hz).nests).row .nil rfl rfl rfl fun before => by rw [append_nil]; rfl

theorem ReadsItem.nests : ∀ {lv a a'}, ReadsItem lv a a' → Nests lv a'
  | _, _, _, .intro h => h.allNest.row .nil rfl rfl rfl fun before => by rw [append_nil]; rfl

theorem ReadsClause.nests : ∀ {lv a a'}, ReadsClause lv a a' → Nests lv a'
  | _, _, _, .conditional _ _ h hb => nests_conditional h.allNest hb.allNest
  | _, _, _, .unconditional _ hc hb =>
    nests_unconditional (Bool.eq_false_iff.2 fun hw => by
      rw [hasCondition_of_isLoop hw] at hc
      cases hc) hb.allNest

theorem ReadsStmt.nests : ∀ {lv a a'}, ReadsStmt lv a a' → Nests lv a'
  | _, _, _, .comment =>
    ⟨rfl, .nil, fun hb x hx => by
      obtain rfl := mem_singleton.1 hx
      exact .self .nil hb.records (forall_mem_nil _)⟩
  | _, _, _, .exprs hlv ht hs hn h =>
    (allNest_of_zip hn (structureRun_loopless hlv ht hs) fun a b hz => (h a b hz).nests).row .nil
      rfl rfl rfl fun before => by rw [append_nil]; rfl
  | _, _, _, .control hlv hhead ht hs hn h =>
    (allNest_of_zip hn (structureRun_loopless hlv ht hs) fun a b hz => (h a b hz).nests).row
      (.word (isLoop_of_isControl hhead)) rfl rfl rfl fun _ => rfl

end

/-! ## Every node has its place -/

/-- The places are those of a walk over the tree. -/
def Atom.Walked (a : Atom) : Prop :=
  ∀ (before : List Token) (k : Nat),
    (a.places before).map Prod.snd = (a.walk (fun _ => false) k).map Prod.snd

theorem map_placesOf : ∀ {as}, (∀ a ∈ as, a.Walked) → ∀ (before : List Token) (k : Nat),
    (placesOf before as).map Prod.snd = (walks (fun _ => false) k as).map Prod.snd
  | [], _, _, _ => rfl
  | a :: as, h, before, k => by
    obtain ⟨ha, has⟩ := forall_mem_cons.1 h
    rw [placesOf, walks, map_append, map_append, ha, map_placesOf has]

theorem walked_node (pair : Bracket) (lv : Level) {held} (h : ∀ a ∈ held, a.Walked) :
    (pair.node lv held).Walked := fun before k => by
  have hheld := map_placesOf h (before ++ [.opening pair]) (k + 1)
  rw [pair.places_node, map_cons, hheld]
  cases pair <;> simp [Bracket.node, walk.eq_def, walks]

mutual

theorem ExprTree.walked : ∀ {lv a}, ExprTree lv a → a.Walked
  | _, _, .literal => fun _ _ => rfl
  | _, _, .word _ => fun _ _ => rfl
  | _, _, .block h => walked_node .brace _ fun s hs => (h s hs).walked
  | _, _, .paren h => walked_node .round _ fun a ha => (h a ha).walked
  | _, _, .list h => walked_node .square _ fun a ha => (h a ha).walked
  | _, _, @ExprTree.operation _ o left right _ hl hr => fun before k => by
    have hl := hl.walked before (k + 1)
    have hr := hr.walked (before ++ (left.tokens ++ [.operator o])) (k + 1)
    rw [places, walk.eq_def]
    simp [walks, hl, hr, walk.eq_def _ _ (Atom.operator _ _)]
  | _, _, @ExprTree.call _ callee args hc h hs => fun before k => by
    have hcallee := h.walked before (k + 1)
    have hargs := map_placesOf (fun a ha => (hs a ha).walked)
      (before ++ (callee.tokens ++ [.opening .round])) (k + 1)
    rw [places_call hc, walk.eq_def]
    simp [walks, hcallee, hargs]
  | _, _, @ExprTree.access _ callee index hc h hs => fun before k => by
    have hcallee := h.walked before (k + 1)
    have hindex := map_placesOf (fun a ha => (hs a ha).walked)
      (before ++ (callee.tokens ++ [.opening .square])) (k + 1)
    rw [places, walk.eq_def]
    simp [walks, hcallee, hindex]
  | _, _, .chain _ h => fun before k => by
    have hclauses := map_placesOf (fun c hc => (h c hc).walked) before (k + 1)
    simpa [places, walk.eq_def] using hclauses

theorem ItemTree.walked : ∀ {lv a}, ItemTree lv a → a.Walked
  | _, _, .intro h => fun before k => by
    have hcontents := map_placesOf (fun a ha => (h a ha).walked) before (k + 1)
    simpa [places, walk.eq_def, walks] using hcontents

theorem ClauseTree.walked : ∀ {lv a}, ClauseTree lv a → a.Walked
  | lv, _, @ClauseTree.conditional _ name cond body _ _ h hb => fun before k => by
    have hcond : (Atom.paren lv [] true cond).Walked :=
      walked_node .round lv fun a ha => (h a ha).walked
    have hbody : (Atom.block lv [] true body).Walked :=
      walked_node .brace lv fun s hs => (hb s hs).walked
    rw [places, walk.eq_def]
    simp only [Bool.false_eq_true, if_false, map_cons, map_append, placesOption, walkOption]
    rw [hcond _ (k + 1), hbody _ (k + 1)]
  | lv, _, @ClauseTree.unconditional _ name body _ _ hb => fun before k => by
    have hbody : (Atom.block lv [] true body).Walked :=
      walked_node .brace lv fun s hs => (hb s hs).walked
    rw [places, walk.eq_def]
    simp only [Bool.false_eq_true, if_false, map_cons, map_append, map_nil,
      placesOption, walkOption]
    rw [hbody _ (k + 1)]

theorem StmtTree.walked : ∀ {lv a}, StmtTree lv a → a.Walked
  | _, _, .comment => fun _ _ => rfl
  | _, _, .exprs h => fun before k => by
    have hexprs := map_placesOf (fun a ha => (h a ha).walked) before (k + 1)
    simpa [places, walk.eq_def, walks] using hexprs
  | _, _, @StmtTree.control _ head _ _ h => fun before k => by
    have hexprs := map_placesOf (fun a ha => (h a ha).walked) (before ++ [.word head]) (k + 1)
    simpa [places, walk.eq_def, walks] using hexprs

end

/-- The places of trees side by side are those of their nodes. -/
theorem map_placesOf_eq_nodes {as} (h : ∀ a ∈ as, a.Walked) (before : List Token) :
    (placesOf before as).map Prod.snd = nodes as := by
  induction as generalizing before with
  | nil => rfl
  | cons a as ih =>
    obtain ⟨ha, has⟩ := forall_mem_cons.1 h
    rw [placesOf, map_append, ih has, ha before 0]
    rfl

end WatScript
