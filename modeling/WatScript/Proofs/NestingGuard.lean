import WatScript.Proofs.OpenedTrees
import WatScript.Proofs.TreeInvariant

/-!
# The nesting guard only cuts

A nesting limit changes nothing about a reading but where it ends: what is read under a limit is what is
read without it, and a failure for another reason is the same failure (`nesting_guard_only_cuts`). The
reading is cut just if the other one opens a run that is too deep or inside too many others. Since every run
stands in another one, the first such run is hardly beyond the limit (`exists_first_exceeding`), so any
larger limit lets it be opened.
-/

namespace WatScript

open List

/-! ## What a limit refuses -/

/-- The run is deeper than the limit, or four times as many runs as the limit are being read around it. -/
def Opening.Exceeds (limit : Int64) (o : Opening) : Prop :=
  limit < o.depth ∨ 4 * limit.toInt ≤ o.around

/-- The limit allows every run that was opened. -/
def Granted (limit : Int64) (log : List Opening) : Prop := ∀ o ∈ log, o.isGranted limit = true

section
variable {limit limit' : Int64} {o p : Opening} {log : List Opening} {S : Opening → Prop}

theorem isGranted_iff (hpos : 0 < limit) :
    o.isGranted limit = true ↔ o.depth ≤ limit ∧ Int64.ofNat o.around < limit * nestingFactor := by
  have hnot : ¬ limit ≤ 0 := by simpa using hpos
  simp only [Opening.isGranted, mayOpen, Bool.or_eq_true, Bool.and_eq_true, decide_eq_true_eq, hnot,
    false_or]
  exact Iff.rfl

theorem isGranted_unlimited (h : limit ≤ 0) : o.isGranted limit = true := by
  simp [Opening.isGranted, mayOpen, h]

theorem all_isGranted : log.all (·.isGranted limit) = true ↔ Granted limit log := all_eq_true

theorem Granted.of_mem {nest a as} (h : Granted limit (openingsOf nest as))
    (ha : a ∈ as) : Granted limit (a.openings nest) := fun o ho => h o (openings_subset ha ho)

theorem toInt_ofNat_le (n : Nat) : (Int64.ofNat n).toInt ≤ n := by
  have hmod : (n : Int) % Int64.size ≤ n := by exact_mod_cast Nat.mod_le n Int64.size
  rw [Int64.toInt_ofNat', Int.bmod]
  split <;> omega

theorem isGranted_of_not_exceeds (hpos : 0 < limit) (hsmall : limit.toInt < 2 ^ 61)
    (h : ¬ o.Exceeds limit) : o.isGranted limit = true := by
  obtain ⟨hdepth, haround⟩ := not_or.1 h
  rw [isGranted_iff hpos, Int64.lt_iff_toInt_lt, toInt_mul_nestingFactor hpos hsmall]
  have := toInt_ofNat_le o.around
  exact ⟨Int64.not_lt.1 hdepth, by omega⟩

theorem not_exceeds_of_isGranted (hpos : 0 < limit) (hsmall : limit.toInt < 2 ^ 61)
    (haround : o.around ≤ 4 * limit.toInt) (h : o.isGranted limit = true) : ¬ o.Exceeds limit := by
  rw [isGranted_iff hpos, Int64.lt_iff_toInt_lt, toInt_mul_nestingFactor hpos hsmall,
    Int64.toInt_ofNat_of_lt (by omega)] at h
  exact not_or.2 ⟨Int64.not_lt.2 h.1, by omega⟩

theorem Rooted.exists_first {root : Opening} {P : Opening → Prop} (hlog : Rooted (· = root) log)
    (hroot : ¬ P root) (ho : o ∈ log) (h : P o) : ∃ p ∈ log, P p ∧ ∃ q ∈ log, q.IsIn p ∧ ¬ P q := by
  -- the run around one that is not the first has the property too, and fewer runs around it
  induction hn : o.around generalizing o with
  | zero =>
    rcases hlog o ho with rfl | ⟨q, -, haround, -⟩
    · exact absurd h hroot
    · omega
  | succ n ih =>
    rcases hlog o ho with rfl | ⟨q, hq, hin⟩
    · exact absurd h hroot
    by_cases hPq : P q
    · exact ih hq hPq (by have := hin.1; omega)
    · exact ⟨o, ho, h, q, hq, hin, hPq⟩

/-- The first run that exceeds a limit is the next one after the last that does not. -/
theorem exists_first_exceeding (hpos : 0 < limit) (hsmall : limit.toInt < 2 ^ 61)
    (hlog : Rooted (· = ⟨0, 0⟩) log) (h : ∃ o ∈ log, o.Exceeds limit) :
    ∃ o ∈ log, o.Exceeds limit ∧ o.depth.toInt ≤ limit.toInt + 1 ∧ o.around ≤ 4 * limit.toInt := by
  have hpos' : 0 < limit.toInt := Int64.lt_iff_toInt_lt.1 hpos
  have hroot : ¬ Opening.Exceeds limit ⟨0, 0⟩ :=
    not_or.2 ⟨Int64.not_lt.2 (Int64.le_of_lt hpos), by simp only; omega⟩
  obtain ⟨o, ho, hexceeds⟩ := h
  obtain ⟨p, hp, hP, q, -, ⟨haround, hdepth⟩, hq⟩ := hlog.exists_first hroot ho hexceeds
  obtain ⟨hqdepth, hqaround⟩ := not_or.1 hq
  have hqdepth' := Int64.le_iff_toInt_le.1 (Int64.not_lt.1 hqdepth)
  refine ⟨p, hp, hP, ?_, by omega⟩
  rcases hdepth with hdepth | hdepth
  · rw [hdepth]
    omega
  · have hone : (1 : Int64).toInt = 1 := rfl
    have := q.depth.le_toInt
    rw [hdepth, Int64.toInt_add, hone, Int.bmod_eq_of_le (by omega) (by omega)]
    omega

end

/-! ## Depths -/

section
variable {limit : Int64}

/-- No atom is nested deeper than the limit. -/
abbrev Shallow (limit : Int64) : Atom → Prop := Everywhere (·.level.depth ≤ limit)

theorem Granted.depth_le (hpos : 0 < limit) {o log}
    (h : Granted limit (o :: log)) : o.depth ≤ limit :=
  ((isGranted_iff hpos).1 (h o mem_cons_self)).1

theorem Granted.tail {o log} (h : Granted limit (o :: log)) : Granted limit log :=
  fun p hp => h p (mem_cons_of_mem _ hp)

theorem Granted.left {log log'} (h : Granted limit (log ++ log')) : Granted limit log :=
  fun o ho => h o (mem_append_left _ ho)

theorem Granted.right {log log'} (h : Granted limit (log ++ log')) : Granted limit log' :=
  fun o ho => h o (mem_append_right _ ho)

mutual

theorem ExprTree.shallow (hpos : 0 < limit) : ∀ {lv a nest}, ExprTree lv a →
    lv.depth ≤ limit → Granted limit (a.openings nest) → Shallow limit a
  | _, _, _, .literal, hlv, _ | _, _, _, .word _, hlv, _ => .intro hlv (forall_mem_nil _)
  | _, _, _, .block h, hlv, ho => .intro hlv fun s hs =>
    (h s hs).shallow hpos (ho.depth_le hpos) (ho.tail.of_mem hs)
  | _, _, _, .paren h, hlv, ho => .intro hlv fun a ha =>
    (h a ha).shallow hpos (ho.depth_le hpos) (ho.tail.of_mem ha)
  | _, _, _, .list h, hlv, ho => .intro hlv fun a ha => (h a ha).shallow hpos (ho.of_mem ha)
  | _, _, _, .operation _ hl hr, hlv, ho => by
    have hleft := hl.shallow hpos (ho.right.of_mem mem_cons_self)
    have hright := hr.shallow hpos (ho.right.of_mem (mem_cons_of_mem _ mem_cons_self))
    exact .intro hlv (forall_mem_cons.2 ⟨.intro hlv (forall_mem_nil _),
      forall_mem_cons.2 ⟨hleft, forall_mem_singleton.2 hright⟩⟩)
  | _, _, _, .call _ hc h, hlv, ho | _, _, _, .access _ hc h, hlv, ho =>
    .intro hlv (forall_mem_cons.2 ⟨hc.shallow hpos hlv ho.left, fun a ha =>
      (h a ha).shallow hpos (ho.right.of_mem ha)⟩)
  | _, _, _, .chain _ h, hlv, ho => .intro hlv fun a ha => (h a ha).shallow hpos hlv (ho.of_mem ha)

theorem ItemTree.shallow (hpos : 0 < limit) : ∀ {lv a nest}, ItemTree lv a →
    Granted limit (a.openings nest) → Shallow limit a
  | _, _, _, .intro h, ho => .intro (ho.depth_le hpos) fun a ha =>
    (h a ha).shallow hpos (ho.depth_le hpos) (ho.tail.of_mem ha)

theorem ClauseTree.shallow (hpos : 0 < limit) : ∀ {lv a nest},
    ClauseTree lv a → lv.depth ≤ limit → Granted limit (a.openings nest) → Shallow limit a
  | _, _, _, .conditional _ _ hc hb, hlv, ho => by
    refine .intro hlv fun b hm => ?_
    rcases mem_pair.1 hm with rfl | rfl
    · exact .intro hlv fun a ha => (hc a ha).shallow hpos (ho.left.depth_le hpos) (ho.left.tail.of_mem ha)
    · exact .intro hlv fun s hs => (hb s hs).shallow hpos
        (by rw [depth_bodyLevel]; exact ho.right.depth_le hpos) (ho.right.tail.of_mem hs)
  | _, _, _, .unconditional _ _ hb, hlv, ho => by
    refine .intro hlv fun b hm => ?_
    rcases mem_singleton.1 hm with rfl
    exact .intro hlv fun s hs => (hb s hs).shallow hpos
      (by rw [depth_bodyLevel]; exact ho.right.depth_le hpos) (ho.right.tail.of_mem hs)

theorem StmtTree.shallow (hpos : 0 < limit) : ∀ {lv a nest}, StmtTree lv a →
    lv.depth ≤ limit → Granted limit (a.openings nest) → Shallow limit a
  | _, _, _, .comment, hlv, _ => .intro hlv (forall_mem_nil _)
  | _, _, _, .exprs h, hlv, ho | _, _, _, .control _ h, hlv, ho =>
    .intro hlv fun a ha => (h a ha).shallow hpos hlv (ho.of_mem ha)

end

end

/-! ## Cut readings of a text -/

/-- How a reading under a limit relates to one under a limit that allows more, which asks to open these
runs. -/
structure OnlyCuts (limit limit' : Int64) (asked : List Opening)
    (limited whole : Except ReadFault (List Atom)) : Prop where
  /-- What is read is the same, and no node of it is deeper than the limit. -/
  trees : ∀ out, limited = .ok out → whole = .ok out ∧ ∀ n ∈ nodes out, n.level.depth ≤ limit
  faults : ∀ f, limited = .error f → f ≠ .nestingTooDeep → whole = .error f
  tooDeep : limited = .error .nestingTooDeep ↔ ∃ o ∈ asked, o.Exceeds limit
  opens : limit' ≤ 0 ∨ limit < limit' → limited = .error .nestingTooDeep →
    ∃ o ∈ asked, o.isGranted limit' = true ∧ o.Exceeds limit
  /-- The runs are the whole text and what the trees of the reading hold. -/
  asked : ∀ out, whole = .ok out → asked = ⟨0, 0⟩ :: openingsOf 1 out
  unlimited : limit' ≤ 0 → whole ≠ .error .nestingTooDeep

section
variable {limit limit' : Int64} {text : Text}

/-- The second limit is none, or is no smaller. Limits whose product with the nesting factor wraps around
are left out. -/
def AllowsMore (limit limit' : Int64) : Prop :=
  limit' ≤ 0 ∨ limit ≤ limit' ∧ limit'.toInt < 2 ^ 61

theorem AllowsMore.noStricter (hpos : 0 < limit) (h : AllowsMore limit limit') : NoStricter limit limit' := by
  rcases h with h | ⟨hle, hsmall⟩
  · exact noStricter_unlimited limit h
  · exact noStricter_of_le hpos hle hsmall

theorem AllowsMore.isGranted_first (hmore : AllowsMore limit limit') {o : Opening}
    (hother : limit' ≤ 0 ∨ limit < limit') (hdepth : o.depth.toInt ≤ limit.toInt + 1)
    (haround : o.around ≤ 4 * limit.toInt) : o.isGranted limit' = true := by
  by_cases hnone : limit' ≤ 0
  · exact isGranted_unlimited hnone
  have hlt := Int64.lt_iff_toInt_lt.1 (hother.resolve_left hnone)
  refine isGranted_of_not_exceeds (Int64.not_le.1 hnone) (hmore.resolve_left hnone).2 (not_or.2 ⟨?_, by omega⟩)
  rw [Int64.lt_iff_toInt_lt]
  omega

theorem granted_of_cut {asked whole out}
    (hwhole : AccountsRun limit' 0 .top asked whole) (hcut : cut limit asked whole = .ok out) :
    whole = .ok out ∧ Granted limit (⟨0, 0⟩ :: openingsOf 1 out) := by
  unfold cut at hcut
  split at hcut
  · next hall =>
    have hasked := hwhole.ends
    rw [hcut] at hasked
    exact ⟨hcut, hasked ▸ all_isGranted.1 hall⟩
  · cases hcut

theorem onlyCuts (hpos : 0 < limit) (hsmall : limit.toInt < 2 ^ 61) (hmore : AllowsMore limit limit')
    {asked : List Opening} {limited whole : Except ReadFault (List Atom)}
    (hcut : limited = cut limit asked whole) (hwhole : AccountsRun limit' 0 .top asked whole)
    (hshallow : ∀ out, limited = .ok out → Granted limit (openingsOf 1 out) → ∀ a ∈ out, Shallow limit a) :
    OnlyCuts limit limit' asked limited whole := by
  have hgranted (h : Granted limit asked) : limited = whole := by
    rw [hcut, cut, if_pos (all_isGranted.2 h)]
  have hrefused (h : ¬ Granted limit asked) : limited = .error .nestingTooDeep := by
    rw [hcut, cut, if_neg (mt all_isGranted.1 h)]
  have hasked (out : List Atom) (h : whole = .ok out) : asked = ⟨0, 0⟩ :: openingsOf 1 out := by
    have hends := hwhole.ends
    rw [h] at hends
    exact hends
  have hfault (h : whole = .error .nestingTooDeep) : ¬ Granted limit' asked := by
    have hends := hwhole.ends
    rw [h] at hends
    rw [← all_isGranted, hends rfl]
    exact Bool.false_ne_true
  have hexceeds : limited = .error .nestingTooDeep ↔ ∃ o ∈ asked, o.Exceeds limit := by
    constructor
    · intro hlimited
      by_contra hnone
      have h : Granted limit asked := fun o ho =>
        isGranted_of_not_exceeds hpos hsmall fun he => hnone ⟨o, ho, he⟩
      -- so the other limit refuses a run that this one lets be opened
      refine hfault ((hgranted h).symm.trans hlimited) fun o ho => ?_
      exact hmore.noStricter hpos _ _ (h o ho)
    · intro h
      obtain ⟨o, ho, he, -, haround⟩ := exists_first_exceeding hpos hsmall hwhole.rooted h
      exact hrefused fun h => not_exceeds_of_isGranted hpos hsmall haround (h o ho) he
  refine ⟨fun out hout => ?_, fun f hf hne => ?_, hexceeds, fun hother hlimited => ?_, hasked, fun h hw => ?_⟩
  · obtain ⟨hok, h⟩ := granted_of_cut hwhole (hcut.symm.trans hout)
    exact ⟨hok, everywhere_nodes (hshallow out hout h.tail)⟩
  · by_cases h : Granted limit asked
    · exact (hgranted h).symm.trans hf
    · rw [hrefused h] at hf
      cases hf
      exact absurd rfl hne
  · obtain ⟨o, ho, he, hdepth, haround⟩ :=
      exists_first_exceeding hpos hsmall hwhole.rooted (hexceeds.1 hlimited)
    exact ⟨o, ho, hmore.isGranted_first hother hdepth haround, he⟩
  · exact hfault hw fun o _ => isGranted_unlimited h

/-- Reading a text under a limit is reading it without one, or under a larger one, as long as that opens
nothing beyond the limit. -/
theorem nesting_guard_only_cuts (hpos : 0 < limit) (hsmall : limit.toInt < 2 ^ 61)
    (hmore : AllowsMore limit limit') (text : Text) :
    OnlyCuts limit limit' (exprOpenings limit' text) (parseExpr limit text) (parseExpr limit' text) ∧
      OnlyCuts limit limit' (stmtOpenings limit' text) (parseStmts limit text)
        (parseStmts limit' text) := by
  have hcuts := cutsAt (hmore.noStricter hpos) (weights (explode .top text) + 4)
  have htop : Level.top.depth ≤ limit := Int64.le_of_lt hpos
  have hexpr := parseExpr_trees limit text
  have hstmts := parseStmts_trees limit text
  constructor
  · refine onlyCuts hpos hsmall hmore (hcuts.run 0 .top _) (parseExpr_accounts limit' text)
      fun out hout h a ha => ?_
    rw [hout] at hexpr
    exact (hexpr a ha).shallow hpos htop (h.of_mem ha)
  · refine onlyCuts hpos hsmall hmore (hcuts.statements 0 .top _) (parseStmts_accounts limit' text)
      fun out hout h a ha => ?_
    rw [hout] at hstmts
    exact (hstmts a ha).shallow hpos htop (h.of_mem ha)

end

/-- Operands nest without becoming deeper, so a row of operators is cut by their number. -/
theorem nesting_guard_only_cuts_operators :
    let text : Text := .ofString "- - - - x"
    (0 < (1 : Int64) ∧ (1 : Int64).toInt < 2 ^ 61 ∧ AllowsMore 1 2) ∧
      OnlyCuts 1 2 (exprOpenings 2 text) (parseExpr 1 text) (parseExpr 2 text) ∧
      exprOpenings 2 text = [⟨0, 0⟩, ⟨1, 0⟩, ⟨1, 0⟩, ⟨2, 0⟩, ⟨2, 0⟩, ⟨3, 0⟩, ⟨3, 0⟩, ⟨4, 0⟩, ⟨4, 0⟩] ∧
      parseExpr 1 text = .error .nestingTooDeep ∧ ∃ out, parseExpr 2 text = .ok out := by
  intro text
  have hlimits : 0 < (1 : Int64) ∧ (1 : Int64).toInt < 2 ^ 61 ∧ AllowsMore 1 2 :=
    ⟨by decide, by decide, .inr ⟨by decide, by decide⟩⟩
  have hcuts := (nesting_guard_only_cuts hlimits.1 hlimits.2.1 hlimits.2.2 text).1
  have hasked : exprOpenings 2 text =
      [⟨0, 0⟩, ⟨1, 0⟩, ⟨1, 0⟩, ⟨2, 0⟩, ⟨2, 0⟩, ⟨3, 0⟩, ⟨3, 0⟩, ⟨4, 0⟩, ⟨4, 0⟩] := by
    decide +kernel
  have hlimited : parseExpr 1 text = .error .nestingTooDeep :=
    hcuts.tooDeep.2 ⟨⟨4, 0⟩, by rw [hasked]; decide, .inr (by decide)⟩
  have hok : (parseExpr 2 text).map List.length = .ok 1 := by decide +kernel
  obtain ⟨out, hout, -⟩ := map_ok hok
  exact ⟨hlimits, hcuts, hasked, hlimited, out, hout⟩

end WatScript
