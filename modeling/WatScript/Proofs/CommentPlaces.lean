import WatScript.Proofs.Nesting
import WatScript.Proofs.SourceComments

/-!
# Where comments were written

A comment has no lexeme, and reading puts it in front of the statement it was written in. Where it was
written is found on the way back from the trees to the text. What was read of some bricks holds the
comments of their brackets, and those beside the bricks (`Covers`). So a comment in trees that an unread
run was read as stands in that run (`Tells`), behind lexemes that leave the same brackets open, and lexing
does not move it (`Holds.of_group`). The outermost run is made from the text (`Holds.written`).
-/

namespace WatScript

open List Atom

variable {bs : List Brick} {callee x : Atom} {lv : Level} {raw run toks : List Atom}
  {ts : List Token}

/-! ## Comments in unread runs -/

/-- Somewhere in the run, perhaps in brackets, the comment stands behind the lexemes. -/
inductive Holds (text : String) (block : Bool) : List Atom → List Token → Prop
  | here {pre post l} : Holds text block (pre ++ .comment l text block :: post) (spell [] pre)
  | inside {pre post raw pair l ts} : Holds text block raw ts →
      Holds text block (pre ++ pair.atom l raw :: post) (spell [] pre ++ .opening pair :: ts)

section
variable {text : String} {block : Bool} {run out pre post raw : List Atom} {ts : List Token}
  {pair : Bracket} {lv : Level}

theorem Holds.behind_opener (h : Holds text block raw ts) (l : Level) (pre post : List Atom) :
    Holds text block (pre ++ .unknown l pair.opener :: (raw ++ post))
      (spell [] pre ++ .opening pair :: ts) := by
  have hspell : ∀ rest, spell [] (pre ++ .unknown l pair.opener :: rest) =
      spell [] pre ++ .opening pair :: spell [] rest := fun rest => by
    rw [spell_append_shown (by cases pair <;> rfl), spell_opener]
    rfl
  cases h with
  | @here p q l' =>
    rw [← hspell, append_assoc, cons_append, ← cons_append, ← append_assoc]
    exact .here
  | @inside p q raw' pair' l' ts' h =>
    have := @Holds.inside text block (pre ++ .unknown l pair.opener :: p) (q ++ post) raw' pair' l' _ h
    rw [hspell] at this
    simpa using this

theorem Grouped.split (h : Grouped pair lv run (pre ++ x :: post)) :
    (∃ pre' post', run = pre' ++ x :: post' ∧ Grouped pair lv pre' pre) ∨
      ∃ pre' l raw post', run = pre' ++ .unknown l pair.opener :: (raw ++ post') ∧
        Grouped pair lv pre' pre ∧ x = pair.atom lv raw := by
  induction pre generalizing run with
  | nil =>
    cases h with
    | keep hm h => exact .inl ⟨[], _, rfl, .nil⟩
    | wrap h => exact .inr ⟨[], _, _, _, rfl, .nil, rfl⟩
  | cons a pre ih =>
    cases h with
    | keep hm h =>
      rcases ih h with ⟨pre', post', rfl, hpre⟩ | ⟨pre', l, raw, post', rfl, hpre, hx⟩
      · exact .inl ⟨a :: pre', post', rfl, .keep hm hpre⟩
      · exact .inr ⟨a :: pre', l, raw, post', rfl, .keep hm hpre, hx⟩
    | @wrap l l' raw' rest _ h =>
      rcases ih h with ⟨pre', post', rfl, hpre⟩ | ⟨pre', l₂, raw, post', rfl, hpre, hx⟩
      · exact .inl ⟨.unknown l pair.opener :: raw' ++ .unknown l' pair.closer :: pre', post',
          by simp, .wrap hpre⟩
      · exact .inr ⟨.unknown l pair.opener :: raw' ++ .unknown l' pair.closer :: pre', l₂, raw,
          post', by simp, .wrap hpre, hx⟩

theorem Bracket.atom_inj {pair pair' : Bracket} {l l' : Level} {raw' : List Atom}
    (h : pair.atom l raw = pair'.atom l' raw') : pair = pair' ∧ raw = raw' := by
  cases pair <;> cases pair' <;> cases h <;> exact ⟨rfl, rfl⟩

theorem Holds.of_grouped (hg : Grouped pair lv run out) (h : Holds text block out ts) :
    Holds text block run ts := by
  cases h with
  | @here pre post l =>
    rcases hg.split with ⟨pre', post', rfl, hpre⟩ | ⟨_, _, _, _, _, _, hx⟩
    · rw [spell_grouped hpre]
      exact .here
    · cases pair <;> cases hx
  | @inside pre post raw pair' l ts h =>
    rcases hg.split with ⟨pre', post', rfl, hpre⟩ | ⟨pre', l', raw', post', rfl, hpre, hx⟩
    · rw [spell_grouped hpre]
      exact .inside h
    · obtain ⟨rfl, rfl⟩ := Bracket.atom_inj hx
      rw [spell_grouped hpre]
      exact h.behind_opener l' pre' post'

theorem Holds.of_relevel (h : Holds text block (relevel lv run) ts) : Holds text block run ts := by
  generalize hrun : relevel lv run = run' at h
  cases h with
  | @here pre post l =>
    obtain ⟨pre', rest, rfl, rfl, hrest⟩ := map_eq_append_iff.1 hrun
    obtain ⟨a, post', rfl, ha, -⟩ := map_eq_cons_iff.1 hrest
    rw [← relevel, spell_relevel]
    cases a <;> cases ha
    exact .here
  | @inside pre post raw pair l ts h =>
    obtain ⟨pre', rest, rfl, rfl, hrest⟩ := map_eq_append_iff.1 hrun
    obtain ⟨a, post', rfl, ha, -⟩ := map_eq_cons_iff.1 hrest
    rw [← relevel, spell_relevel]
    obtain ⟨l', rfl⟩ : ∃ l', a = pair.atom l' raw := by
      cases pair <;> cases a <;> cases ha <;> exact ⟨_, rfl⟩
    exact .inside h

theorem cutWord_split {held : List Mark} {word : List Piece} {tail : List Atom}
    (h : cutWord lv held.reverse = .ok word) (hx : ¬ IsLexeme lv x)
    (hsplit : atomsOf word ++ tail = pre ++ x :: post) : ∃ mid, tail = mid ++ x :: post ∧
      pre.flatMap spelled = munch (held.map Mark.c).reverse ++ mid.flatMap spelled := by
  have hlex := cutWord_ends lv held.reverse
  rw [h] at hlex
  rcases append_eq_split hsplit with ⟨mid, hword⟩ | ⟨mid, rfl, htail⟩
  · exact absurd (hlex x (by simp [hword])) hx
  · refine ⟨mid, htail, ?_⟩
    rw [flatMap_append, spelled_cutWord h, map_reverse]

theorem kept_split {held a rest tail mid}
    (ha : ∀ run, spell held (a :: run) = munch held.reverse ++ (a.spelled ++ spell [] run))
    (hmid : a :: tail = mid ++ x :: post)
    (htail : ∀ {pre}, tail = pre ++ x :: post → ∃ pre' post', rest = pre' ++ x :: post' ∧
      pre.flatMap spelled = spell [] pre') : ∃ pre' post', a :: rest = pre' ++ x :: post' ∧
      munch held.reverse ++ mid.flatMap spelled = spell held pre' := by
  cases mid with
  | nil =>
    obtain ⟨rfl, -⟩ := List.cons.inj hmid
    exact ⟨[], rest, rfl, by rw [spell]; simp⟩
  | cons b mid =>
    obtain ⟨rfl, hmid'⟩ := List.cons.inj hmid
    obtain ⟨pre', post', rfl, hpre⟩ := htail hmid'
    exact ⟨a :: pre', post', rfl, by rw [ha, flatMap_cons, hpre]⟩

theorem scanWords_split {held : List Mark} {pieces : List Piece}
    (h : scanWords lv held run = .ok pieces) (hb : NoBrackets run) (hx : ¬ IsLexeme lv x)
    (hsplit : atomsOf pieces = pre ++ x :: post) : ∃ pre' post', run = pre' ++ x :: post' ∧
      pre.flatMap spelled = spell (held.map Mark.c) pre' := by
  fun_induction scanWords lv held run generalizing pieces pre with
  | case1 held =>
    obtain ⟨mid, hmid, -⟩ := cutWord_split h hx ((append_nil _).trans hsplit)
    simp at hmid
  | case2 held l c rest hc ih =>
    obtain ⟨word, hword, h⟩ := bind_ok h
    obtain ⟨ps, hps, h⟩ := bind_ok h
    cases h
    rw [atomsOf_append, atomsOf_dropped] at hsplit
    obtain ⟨mid, hmid, hpre⟩ := cutWord_split hword hx hsplit
    obtain ⟨pre', post', rfl, hmid⟩ := ih hps hb.tail hmid
    exact ⟨.unknown l c :: pre', post', rfl, by rw [hpre, hmid, spell, if_pos (by simp [hc])]; rfl⟩
  | case3 held l c rest _ hsep ih =>
    obtain ⟨word, hword, h⟩ := bind_ok h
    obtain ⟨ps, hps, h⟩ := bind_ok h
    cases h
    rw [atomsOf_append, atomsOf_kept] at hsplit
    obtain ⟨mid, hmid, hpre⟩ := cutWord_split hword hx hsplit
    rw [hpre]
    refine kept_split (fun run => ?_) hmid fun hps' => ih hps hb.tail hps'
    rw [spell, if_pos (by simp [hsep])]
    rfl
  | case4 held l c rest hc hsep ih =>
    have hnone : bracketToken? c = none :=
      bracketToken?_of_marks fun pair => hb pair _ mem_cons_self
    obtain ⟨pre', post', rfl, hpre⟩ := ih h hb.tail hsplit
    refine ⟨.unknown l c :: pre', post', rfl, ?_⟩
    rw [hpre, spell, if_neg (by simp [hc, hsep]), hnone]
    rfl
  | case5 held a rest hne ih =>
    obtain ⟨word, hword, h⟩ := bind_ok h
    obtain ⟨ps, hps, h⟩ := bind_ok h
    cases h
    rw [atomsOf_append, atomsOf_kept] at hsplit
    obtain ⟨mid, hmid, hpre⟩ := cutWord_split hword hx hsplit
    rw [hpre]
    exact kept_split (spell_atom hne _) hmid fun hps' => ih hps hb.tail hps'

/-- Lexing does not move comments. -/
theorem Holds.of_group (hlv : lv.tag = 0) (hraw : RawRun raw)
    (hg : group lv (relevel lv raw) = .ok toks) (h : Holds text block toks ts) :
    Holds text block raw ts := by
  have ht := tokens_of_group hlv (.raw hraw) hg
  rw [group_raw hraw] at hg
  obtain ⟨grouped, hgrouped, hg⟩ := bind_ok hg
  obtain ⟨r₁, r₂, h₁, h₂, h₃⟩ := groupBrackets_ok hgrouped
  obtain ⟨pieces, hp, rfl⟩ := map_ok hg
  refine .of_relevel (.of_grouped h₁ (.of_grouped h₂ (.of_grouped h₃ ?_)))
  have hb := noBrackets_groupBrackets hgrouped
  have hspell {pre post : List Atom} {x : Atom} (htoks : atomsOf pieces = pre ++ x :: post) :
      spell [] pre = pre.flatMap spelled :=
    Tokens.spell_eq fun a ha => ht a (by simp [htoks, ha])
  generalize htoks : atomsOf pieces = toks at h
  cases h with
  | @here pre post l =>
    obtain ⟨pre', post', rfl, hpre⟩ := scanWords_split hp hb (by rintro ⟨⟩) htoks
    rw [hspell htoks, hpre]
    exact .here
  | @inside pre post raw' pair l ts h =>
    obtain ⟨pre', post', rfl, hpre⟩ := scanWords_split hp hb (by cases pair <;> rintro ⟨⟩) htoks
    rw [hspell htoks, hpre]
    exact .inside h

/-! ## Comments in bricks -/

/-- In brackets somewhere among the bricks, the comment stands behind the lexemes. -/
def HoldsIn (text : String) (block : Bool) (bs : List Brick) (ts : List Token) : Prop :=
  ∃ (pre : List Brick) (pair : Bracket) (raw : List Atom) (post : List Brick) (us : List Token),
    bs = pre ++ .group pair raw :: post ∧ Holds text block raw us ∧
      ts = spellBricks pre ++ .opening pair :: us

theorem HoldsIn.append_left (h : HoldsIn text block bs ts) (bs' : List Brick) :
    HoldsIn text block (bs ++ bs') ts := by
  obtain ⟨pre, pair, raw, post, us, rfl, h, rfl⟩ := h
  exact ⟨pre, pair, raw, post ++ bs', us, by simp, h, rfl⟩

theorem HoldsIn.append_right (h : HoldsIn text block bs ts) (bs' : List Brick) :
    HoldsIn text block (bs' ++ bs) (spellBricks bs' ++ ts) := by
  obtain ⟨pre, pair, raw, post, us, rfl, h, rfl⟩ := h
  exact ⟨bs' ++ pre, pair, raw, post, us, by simp, h, by simp [spellBricks_append]⟩

theorem exists_of_bricks_eq {b bs'}
    (hsimple : ∀ a ∈ run, a.isSimple = true) (h : run.flatMap bricks = bs ++ b :: bs') :
    ∃ pre a post, run = pre ++ a :: post ∧ a.bricks = [b] ∧ pre.flatMap bricks = bs := by
  induction run generalizing bs with
  | nil => simp at h
  | cons a run ih =>
    obtain ⟨ha, hrun⟩ := forall_mem_cons.1 hsimple
    rw [flatMap_cons] at h
    rcases append_eq_split h with ⟨mid, hmid⟩ | ⟨mid, rfl, hmid⟩
    · -- a simple atom has one brick at most
      have hone : a.bricks.length ≤ 1 := by
        cases a <;> first | exact Nat.zero_le _ | exact Nat.le_refl _ | cases ha
      rw [hmid, length_append, length_cons] at hone
      obtain rfl : bs = [] := eq_nil_of_length_eq_zero (by omega)
      obtain rfl : mid = [] := eq_nil_of_length_eq_zero (by omega)
      exact ⟨[], a, run, rfl, hmid, rfl⟩
    · obtain ⟨pre, a', post, rfl, ha', rfl⟩ := ih hrun hmid
      exact ⟨a :: pre, a', post, rfl, ha', rfl⟩

theorem HoldsIn.holds (ht : Tokens lv toks) (hsimple : ∀ a ∈ toks, a.isSimple = true)
    (h : HoldsIn text block (toks.flatMap bricks) ts) : Holds text block toks ts := by
  obtain ⟨bs, pair, raw, bs', us, hbs, h, rfl⟩ := h
  obtain ⟨pre, a, post, rfl, ha, rfl⟩ := exists_of_bricks_eq hsimple hbs
  have hpre : Tokens lv pre := fun b hb => ht b (mem_append_left _ hb)
  have hs : a.isSimple = true := hsimple a (by simp)
  obtain rfl : a = pair.atom lv raw := by
    cases ht a (by simp) with
    | @bracket pair' raw' =>
      rw [Bracket.bricks_atom] at ha
      cases ha
      rfl
    | call | access | chain => cases hs
    | _ => cases ha
  rw [← hpre.spell_bricks]
  exact .inside h

end

/-! ## Brackets that are closed again -/

/-- Behind the tokens the open scopes are those before them. -/
def Scoped (ts : List Token) : Prop := ∀ s : Surroundings, (s.passAll ts).scopes = s.scopes

theorem Scoped.append {us} (h : Scoped ts) (h' : Scoped us) : Scoped (ts ++ us) :=
  fun s => by rw [Surroundings.passAll_append, h', h]

theorem Neutral.scoped_bracket (h : Neutral ts) (pair : Bracket) :
    Scoped (.opening pair :: (ts ++ [.closing pair])) := fun s => by
  rw [h.passAll_bracket]

theorem Token.isScoped {t} (h : t.isBracket = false) : Scoped [t] := fun s => by
  cases t <;> first | rfl | cases h

theorem scoped_spellBricks (h : ∀ b ∈ bs, Scoped b.spelled) : Scoped (spellBricks bs) := by
  induction bs with
  | nil => exact fun _ => rfl
  | cons b bs ih =>
    obtain ⟨hb, hbs⟩ := forall_mem_cons.1 h
    exact hb.append (ih hbs)

theorem Scoped.scopes_eq (h : Scoped ts) (before : List Token) :
    (surroundings (before ++ ts)).scopes = (surroundings before).scopes := by
  rw [surroundings_append, h]

/-! ## From trees back to runs -/

/-- The bricks were read as the trees. Every comment in the trees stands in the brackets of the bricks,
with the same open brackets around it, or is one of the comments beside the bricks. -/
structure Covers (beside : Atom → Prop) (bs : List Brick) (trees : List Atom) : Prop where
  tokens : treeTokens trees = spellBricks bs
  closed : ∀ b ∈ bs, Scoped b.spelled
  comments : ∀ {before at_ l text block},
    (at_, .comment l text block) ∈ placesOf before trees →
      (∃ ts, HoldsIn text block bs ts ∧
        (surroundings (before ++ ts)).scopes = (surroundings at_).scopes) ∨
      (beside (.comment l text block) ∧ (surroundings before).scopes = (surroundings at_).scopes)

/-- The unread run was read as the trees. Every comment in the trees stands in the run, with the same
open brackets around it. -/
def Tells (raw trees : List Atom) : Prop :=
  ∀ {before at_ : List Token} {l : Level} {text : String} {block : Bool},
    (at_, .comment l text block) ∈ placesOf before trees →
      ∃ ts, Holds text block raw ts ∧
        (surroundings (before ++ ts)).scopes = (surroundings at_).scopes

section
variable {beside : Atom → Prop} {bs bs' : List Brick} {trees trees' : List Atom} {n : Atom}

theorem placesOf_append (as bs : List Atom) (before : List Token) :
    placesOf before (as ++ bs) = placesOf before as ++ placesOf (before ++ treeTokens as) bs := by
  induction as generalizing before with
  | nil => simp [placesOf, treeTokens]
  | cons a as ih => simp [placesOf, treeTokens, ih]

theorem treeTokens_append (as bs : List Atom) :
    treeTokens (as ++ bs) = treeTokens as ++ treeTokens bs := by
  induction as with
  | nil => rfl
  | cons a as ih => simp [treeTokens, ih]

theorem Covers.nil : Covers beside [] [] := ⟨rfl, forall_mem_nil _, fun h => nomatch h⟩

theorem Covers.append (h : Covers beside bs trees) (h' : Covers beside bs' trees') :
    Covers beside (bs ++ bs') (trees ++ trees') := by
  refine ⟨?_, forall_mem_append.2 ⟨h.closed, h'.closed⟩, fun {before _ _ _ _} hmem => ?_⟩
  · rw [treeTokens_append, spellBricks_append, h.tokens, h'.tokens]
  · rw [placesOf_append, mem_append] at hmem
    rcases hmem with hmem | hmem
    · exact (h.comments hmem).imp_left fun ⟨ts, hts, heq⟩ => ⟨ts, hts.append_left bs', heq⟩
    · rw [h.tokens] at hmem
      rcases h'.comments hmem with ⟨ts, hts, heq⟩ | ⟨hb, heq⟩
      · exact .inl ⟨_, hts.append_right bs, by rw [← append_assoc]; exact heq⟩
      · exact .inr ⟨hb, by rw [← heq, (scoped_spellBricks h.closed).scopes_eq]⟩

theorem Covers.node (h : Covers beside bs trees) (htokens : n.tokens = treeTokens trees)
    (hplaces : ∀ {before x}, x ∈ n.places before →
      x.2.isComment = true → x ∈ placesOf before trees) : Covers beside bs [n] := by
  refine ⟨?_, h.closed, fun hmem => h.comments (hplaces ?_ rfl)⟩
  · rw [← h.tokens, ← htokens, treeTokens, treeTokens, append_nil]
  · rwa [placesOf, placesOf, append_nil] at hmem

theorem Covers.row (h : Covers beside bs trees) (htokens : n.tokens = treeTokens trees)
    (hplaces : ∀ before, n.places before = (before, n) :: placesOf before trees)
    (hn : n.isComment = false) : Covers beside bs [n] := by
  refine h.node htokens fun {before x} hx hc => ?_
  rw [hplaces, mem_cons] at hx
  rcases hx with rfl | hx
  · exact absurd hc (by simp [hn])
  · exact hx

theorem covers_leaf {t} (ht : t.isBracket = false) (htokens : n.tokens = [t])
    (hplaces : ∀ before, n.places before = [(before, n)]) (hn : n.isComment = false) :
    Covers beside [.token t] [n] := by
  refine ⟨by simp [treeTokens, htokens, spellBricks, Brick.spelled],
    forall_mem_singleton.2 (Token.isScoped ht), fun hmem => ?_⟩
  rw [placesOf, placesOf, append_nil, hplaces, mem_singleton] at hmem
  cases hmem
  cases hn

theorem covers_group {as} (pair : Bracket) (lv : Level) (h : Tells raw as)
    (hneutral : Neutral (treeTokens as)) (hspell : treeTokens as = spell [] raw) :
    Covers beside [.group pair raw] [pair.node lv as] := by
  refine ⟨by simp [treeTokens, pair.tokens_node, hspell, spellBricks, Brick.spelled], ?_,
    fun hmem => ?_⟩
  · exact forall_mem_singleton.2 ((hspell ▸ hneutral).scoped_bracket pair)
  · rw [placesOf, placesOf, append_nil, pair.places_node, mem_cons] at hmem
    rcases hmem with hmem | hmem
    · cases pair <;> cases hmem
    · obtain ⟨ts, hts, heq⟩ := h hmem
      refine .inl ⟨_, ⟨[], pair, raw, [], ts, rfl, hts, rfl⟩, ?_⟩
      rw [← heq, append_assoc]
      rfl

theorem Covers.apply {as pair}
    (hc : Covers beside bs [callee]) (h : Covers beside [.group pair raw] [pair.node lv as])
    (htokens : n.tokens = callee.tokens ++ .opening pair :: (treeTokens as ++ [.closing pair]))
    (hplaces : ∀ before, n.places before = (before, n) ::
      (callee.places before ++ placesOf (before ++ (callee.tokens ++ [.opening pair])) as))
    (hn : n.isComment = false) : Covers beside (bs ++ [.group pair raw]) [n] := by
  refine (hc.append h).node ?_ fun {before x} hx hcomment => ?_
  · simp [treeTokens, htokens, pair.tokens_node]
  · rw [hplaces, mem_cons, mem_append] at hx
    rcases hx with rfl | hx | hx
    · exact absurd hcomment (by simp [hn])
    · simp [placesOf, hx]
    · simp [placesOf, pair.places_node, hx]

theorem covers_operation {o left right}
    (hl : Covers beside bs [left]) (hr : Covers beside bs' [right]) :
    Covers beside (bs ++ .token (.operator o) :: bs')
      [.call lv (.operator lv o) [] true true [left, right]] := by
  have hop : Covers beside [.token (.operator o)] [.operator lv o] :=
    covers_leaf rfl rfl (fun _ => rfl) rfl
  refine (hl.append (hop.append hr)).node ?_ fun {before x} hx hcomment => ?_
  · simp [tokens, treeTokens]
  · simp only [places, mem_cons, mem_append] at hx
    rcases hx with rfl | rfl | hx | hx
    · cases hcomment
    · cases hcomment
    · simp [placesOf, hx]
    · simp [placesOf, tokens, hx]

theorem Covers.behind_word (h : Covers beside bs trees) {w}
    (htokens : n.tokens = .word w :: treeTokens trees)
    (hplaces : ∀ before, n.places before = (before, n) :: placesOf (before ++ [.word w]) trees)
    (hn : n.isComment = false) : Covers beside (.token (.word w) :: bs) [n] := by
  have hword : Covers beside [.token (.word w)] [.word .top w] :=
    covers_leaf rfl rfl (fun _ => rfl) rfl
  refine (hword.append h).node ?_ fun {before x} hx hcomment => ?_
  · rw [htokens]
    rfl
  · rw [hplaces, mem_cons] at hx
    rcases hx with rfl | hx
    · exact absurd hcomment (by simp [hn])
    · exact mem_append_right _ hx

theorem covers_of_zip : ∀ {as out : List Atom}, as.length = out.length →
    (∀ a b, (a, b) ∈ as.zip out → Covers beside a.bricks [b]) →
    Covers beside (as.flatMap bricks) out
  | [], [], _, _ => .nil
  | a :: as, b :: out, hn, h => by
    have ih := covers_of_zip (Nat.succ.inj hn) fun a b hz => h a b (mem_cons_of_mem _ hz)
    exact (h a b mem_cons_self).append ih

theorem Covers.tells (hlv : lv.tag = 0) (hraw : RawRun raw)
    (hg : group lv (relevel lv raw) = .ok toks)
    (h : Covers (· ∈ toks) (toks.flatMap bricks) trees) : Tells raw trees := by
  intro before at_ l text block hmem
  have ht := tokens_of_group hlv (.raw hraw) hg
  rcases h.comments hmem with ⟨ts, hts, heq⟩ | ⟨hmem, heq⟩
  · exact ⟨ts, (hts.holds ht (isSimple_of_group hlv hraw hg)).of_group hlv hraw hg, heq⟩
  · obtain ⟨pre, post, rfl⟩ := append_of_mem hmem
    refine ⟨spell [] pre, Holds.here.of_group hlv hraw hg, ?_⟩
    have hpre : Tokens lv pre := fun a ha => ht a (mem_append_left _ ha)
    have hscoped : Scoped (spellBricks (pre.flatMap bricks)) :=
      scoped_spellBricks fun b hb => h.closed b (by simp_all)
    rw [hpre.spell_bricks, hscoped.scopes_eq, heq]

end

/-! ## Readings -/

section
variable {lv : Level} {a : Atom} {raw out : List Atom}

theorem Pending.isToken (h : Pending lv a) (ha : a.isOperation? ≠ some true) : IsToken lv a := by
  cases h with
  | part h => exact h
  | operation => exact absurd rfl ha

theorem IsToken.call_inv (h : IsToken lv (.call lv callee raw false false [])) :
    IsToken lv callee ∧ RawRun raw := by
  generalize ha : Atom.call lv callee raw false false [] = a at h
  cases h with
  | call _ hc hraw =>
    cases ha
    exact ⟨hc, hraw⟩
  | @bracket pair => cases pair <;> cases ha
  | _ => cases ha

theorem IsToken.access_inv (h : IsToken lv (.access lv callee raw false [])) :
    IsToken lv callee ∧ RawRun raw := by
  generalize ha : Atom.access lv callee raw false [] = a at h
  cases h with
  | access _ hc hraw =>
    cases ha
    exact ⟨hc, hraw⟩
  | @bracket pair => cases pair <;> cases ha
  | _ => cases ha

theorem IsToken.chain_inv {clauses} (h : IsToken lv (.chain lv clauses)) :
    ∀ c ∈ clauses, IsClause lv c := by
  generalize ha : Atom.chain lv clauses = a at h
  cases h with
  | chain hc =>
    cases ha
    exact hc
  | @bracket pair => cases pair <;> cases ha
  | _ => cases ha

theorem Pending.operation_inv {o left right}
    (h : Pending lv (.call lv (.operator lv o) [] false true [left, right])) :
    (∃ raw, Tokens lv raw ∧ left = .item lv raw false []) ∧
      ∃ raw, Tokens lv raw ∧ right = .item lv raw false [] := by
  generalize ha : Atom.call lv (.operator lv o) [] false true [left, right] = a at h
  cases h with
  | part h =>
    cases h with
    | @bracket pair => cases pair <;> cases ha
    | _ => cases ha
  | operation _ hl hr =>
    cases ha
    exact ⟨⟨_, hl, rfl⟩, _, hr, rfl⟩

/-- The run is lexed without a fault. -/
def Lexes (lv : Level) (raw : List Atom) : Prop :=
  lv.tag = 0 ∧ ∃ toks, group lv (relevel lv raw) = .ok toks

theorem ReadsRun.lexes : ReadsRun lv raw out → Lexes lv raw
  | .intro hlv _ hg _ _ _ => ⟨hlv, _, hg⟩

theorem ReadsStmts.lexes : ReadsStmts lv raw out → Lexes lv raw
  | .intro hlv _ hg _ _ => ⟨hlv, _, hg⟩

theorem ReadsSlots.lexes : ReadsSlots lv raw out → Lexes lv raw
  | .intro hlv _ hg _ _ => ⟨hlv, _, hg⟩

theorem Lexes.tells (h : Lexes lv raw) (hraw : RawRun raw)
    (hc : ∀ {toks}, group lv (relevel lv raw) = .ok toks →
      Covers (· ∈ toks) (toks.flatMap bricks) out) : Tells raw out := by
  obtain ⟨hlv, _, hg⟩ := h
  exact (hc hg).tells hlv hraw hg

theorem mem_of_mem_cutStatements (ha : a.isComment = true)
    (h : a ∈ cutStatements lv run) : a ∈ run := by
  rcases mem_append.1 h with h | h
  · exact (mem_filter.1 h).1
  · rw [Option.mem_toList] at h
    unfold statementOf? at h
    split at h
    · cases h
    · split at h <;> cases h <;> cases ha
    · cases h
      cases ha

theorem mem_of_mem_splitStatementsFrom {held} (ha : a.isComment = true)
    (h : a ∈ splitStatementsFrom lv held run) : a ∈ held ∨ a ∈ run := by
  fun_induction splitStatementsFrom lv held run with
  | case1 held => exact .inl (mem_reverse.1 (mem_of_mem_cutStatements ha h))
  | case2 held l c rest _ ih =>
    rcases mem_append.1 h with h | h
    · exact .inl (mem_reverse.1 (mem_of_mem_cutStatements ha h))
    · exact .inr (mem_cons_of_mem _ ((ih h).resolve_left not_mem_nil))
  | case3 held l c rest _ ih | case4 held b rest _ ih =>
    rcases ih h with h | h
    · exact (mem_cons.1 h).elim (fun h => .inr (h ▸ mem_cons_self)) .inl
    · exact .inr (mem_cons_of_mem _ h)

theorem mem_of_mem_splitStatements (h : a ∈ splitStatements lv run)
    (ha : a.isComment = true) : a ∈ run :=
  (mem_of_mem_splitStatementsFrom ha h).resolve_left not_mem_nil

end

mutual

theorem ReadsRun.covers : ∀ {lv raw out} {beside : Atom → Prop},
    ReadsRun lv raw out → ∀ {toks : List Atom}, group lv (relevel lv raw) = .ok toks →
      Covers beside (toks.flatMap bricks) out
  | _, _, _, _, .intro hlv hr hg hs hn h, toks, hg' => by
    obtain rfl := Except.ok.inj (hg.symm.trans hg')
    have ht := tokens_of_group hlv hr hg
    have hp := structureRun_pending hlv ht
    rw [hs] at hp
    rw [← bricks_structureRun hlv ht hs]
    exact covers_of_zip hn fun a b hz => (h a b hz).covers (hp a (of_mem_zip hz).1)

theorem ReadsStmts.covers : ∀ {lv raw out}, ReadsStmts lv raw out →
    ∀ {toks : List Atom}, group lv (relevel lv raw) = .ok toks →
      Covers (· ∈ toks) (toks.flatMap bricks) out
  | _, _, _, .intro hlv hr hg hn h, toks, hg' => by
    obtain rfl := Except.ok.inj (hg.symm.trans hg')
    have hstmts := splitStatements_statements (tokens_of_group hlv hr hg)
    rw [← bricks_splitStatements]
    refine covers_of_zip hn fun a b hz => ?_
    have ha := (of_mem_zip hz).1
    exact (h a b hz).covers (hstmts a ha) (mem_of_mem_splitStatements ha)

theorem ReadsSlots.covers : ∀ {lv raw out} {beside : Atom → Prop},
    ReadsSlots lv raw out → ∀ {toks : List Atom}, group lv (relevel lv raw) = .ok toks →
      Covers beside (toks.flatMap bricks) out
  | _, _, _, _, .intro hlv hr hg hn h, toks, hg' => by
    obtain rfl := Except.ok.inj (hg.symm.trans hg')
    have hitems := slots_items (tokens_of_group hlv hr hg)
    rw [← bricks_slots]
    exact covers_of_zip hn fun a b hz => (h a b hz).covers (hitems a (of_mem_zip hz).1)

theorem ReadsExpr.covers : ∀ {lv a a'} {beside : Atom → Prop},
    ReadsExpr lv a a' → Pending lv a → Covers beside a.bricks [a']
  | _, _, _, _, .literal, _ => covers_leaf rfl rfl (fun _ => rfl) rfl
  | _, _, _, _, .word _, _ => covers_leaf rfl rfl (fun _ => rfl) rfl
  | _, _, _, _, .block h, hp =>
    have hraw := ((hp.isToken nofun).block_inv rfl).2.2.2
    covers_group .brace _ (h.lexes.tells hraw h.covers) h.allNest.neutral h.tokens_eq
  | _, _, _, _, .paren h, hp =>
    have hraw := ((hp.isToken nofun).paren_inv rfl).2.2.2
    covers_group .round _ (h.lexes.tells hraw h.covers) h.allNest.neutral h.tokens_eq
  | _, _, _, _, .list h, hp =>
    have hraw := ((hp.isToken nofun).list_inv rfl).2.2.2
    covers_group .square _ (h.lexes.tells hraw h.covers) h.allNest.neutral h.tokens_eq
  | _, _, _, _, .operation _ hl hr, hp =>
    covers_operation (hl.covers hp.operation_inv.1) (hr.covers hp.operation_inv.2)
  | lv, _, _, _, .call hc h hs, hp => by
    have hc' := h.isCallable_eq.trans hc
    have hne := mt Option.some.inj (Bool.eq_false_iff.1 (isOperator_of_isCallable hc))
    obtain ⟨hcallee, hraw⟩ := (hp.isToken hne).call_inv
    rw [bricks_call hc]
    exact (h.covers (hcallee.pending_callee hc)).apply
      (covers_group .round lv (hs.lexes.tells hraw hs.covers) hs.allNest.neutral hs.tokens_eq)
      (tokens_call hc') (fun _ => places_call hc') rfl
  | lv, _, _, _, .access hc h hs, hp => by
    obtain ⟨hcallee, hraw⟩ := (hp.isToken nofun).access_inv
    exact (h.covers (hcallee.pending_callee hc)).apply
      (covers_group .square lv (hs.lexes.tells hraw hs.covers) hs.allNest.neutral hs.tokens_eq)
      rfl (fun _ => rfl) rfl
  | _, _, _, _, .chain _ hn h, hp => by
    have hclauses := (hp.isToken nofun).chain_inv
    rw [bricks, bricksOf_eq]
    exact (covers_of_zip hn fun a b hz => (h a b hz).covers
      (hclauses a (of_mem_zip hz).1)).row rfl (fun _ => rfl) rfl

theorem ReadsItem.covers : ∀ {lv a a' beside},
    ReadsItem lv a a' → (∃ raw, Tokens lv raw ∧ a = .item lv raw false []) →
      Covers beside a.bricks [a']
  | _, _, _, _, .intro h, ⟨_, ht, heq⟩ => by
    cases heq
    rw [bricks, bricksOf_eq]
    exact (h.covers (ht.group_eq h.lexes.1)).row rfl (fun _ => rfl) rfl

theorem ReadsClause.covers : ∀ {lv a a' beside},
    ReadsClause lv a a' → IsClause lv a → Covers beside a.bricks [a']
  | lv, _, _, beside, @ReadsClause.conditional _ name craw braw cond body _ _ h hb,
      .conditional _ _ hcraw hbraw => by
    have hcond : Covers beside [.group .round craw] [.paren lv [] true cond] :=
      covers_group .round lv (h.lexes.tells hcraw h.covers) h.allNest.neutral h.tokens_eq
    have hbody : Covers beside [.group .brace braw] [.block lv [] true body] :=
      covers_group .brace lv (hb.lexes.tells hbraw hb.covers) hb.allNest.neutral hb.tokens_eq
    refine (hcond.append hbody).behind_word ?_ (fun before => ?_) rfl
    · simp [tokens, tokensOption, treeTokens]
    · simp [places, placesOption, placesOf, tokensOption]
  | lv, _, _, beside, @ReadsClause.unconditional _ name braw body _ _ hb,
      .unconditional _ _ hbraw => by
    have hbody : Covers beside [.group .brace braw] [.block lv [] true body] :=
      covers_group .brace lv (hb.lexes.tells hbraw hb.covers) hb.allNest.neutral hb.tokens_eq
    refine hbody.behind_word ?_ (fun before => ?_) rfl
    · simp [tokens, tokensOption, treeTokens]
    · simp [places, placesOption, placesOf, tokensOption]

theorem ReadsStmt.covers : ∀ {lv a a'} {beside : Atom → Prop},
    ReadsStmt lv a a' → IsUnreadStmt lv a → (a.isComment = true → beside a) →
      Covers beside a.bricks [a']
  | _, _, _, _, .comment, _, hb => by
    refine ⟨rfl, forall_mem_nil _, fun hmem => .inr ?_⟩
    obtain ⟨rfl, heq⟩ := Prod.mk.inj (mem_singleton.1 hmem)
    exact ⟨heq ▸ hb rfl, rfl⟩
  | _, _, _, _, .exprs hlv ht hs hn h, _, _ => by
    have hp := structureRun_pending hlv ht
    rw [hs] at hp
    rw [bricks, bricksOf_eq, ← bricks_structureRun hlv ht hs]
    exact (covers_of_zip hn fun a b hz => (h a b hz).covers (hp a (of_mem_zip hz).1)).row rfl
      (fun _ => rfl) rfl
  | _, _, _, _, .control hlv _ ht hs hn h, _, _ => by
    have hp := structureRun_pending hlv ht
    rw [hs] at hp
    rw [bricks, bricksOf_eq, ← bricks_structureRun hlv ht hs]
    exact (covers_of_zip hn fun a b hz =>
      (h a b hz).covers (hp a (of_mem_zip hz).1)).behind_word rfl (fun _ => rfl) rfl

end

/-! ## The outermost run -/

/-- Where a comment of an unread text is written. -/
theorem Holds.written {text comment block}
    (hraw : extractLiterals .top (explode .top text) = .ok raw) (h : Holds comment block raw ts) :
    ∃ pre post, text = pre ++ post ∧ BeginsComment comment block post.toChars ∧
      (∃ raw, Scans post.toChars pre.toChars raw) ∧ lexemes pre = ts := by
  have htext := extractLiterals_explode .top text
  rw [hraw] at htext
  cases h with
  | @inside pre post raw pair l ts h =>
    have := (htext (pair.atom l raw) (by simp)).1
    cases pair <;> cases this
  | @here pre post l =>
    obtain ⟨cs, rest, hchars, hscans, hbegins⟩ := exists_comment hraw
    obtain ⟨front, back, rfl, rfl, rfl⟩ := map_eq_append_iff.1 hchars
    exact ⟨front, back, rfl, hbegins, ⟨pre, hscans⟩, (spell_literalsOf hscans.literalsOf_self).symm⟩

end WatScript
