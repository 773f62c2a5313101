import WatScript.Proofs.Cuts

/-!
# The comments of a text

Finding the literals of a text makes one atom of every comment. `exists_comment` leads back from the
atom to the text: the comment is written there, outside of quotations and other comments, behind the
characters of the atoms before it.
-/

namespace WatScript

/-- The characters begin a comment with the text. -/
inductive BeginsComment (text : String) : Bool → List Char → Prop
  | line {rest} : '\n' ∉ text.toList →
      BeginsComment text false ('/' :: '/' :: (text.toList ++ '\n' :: rest))
  | lastLine : '\n' ∉ text.toList → BeginsComment text false ('/' :: '/' :: text.toList)
  | block {rest} : ¬ ['*', '/'] <:+: text.toList →
      BeginsComment text true ('/' :: '*' :: (text.toList ++ '*' :: '/' :: rest))

/-- The end of a text, which may be a comment without its line end. -/
inductive IsTail : List Char → List Atom → Prop
  | nil : IsTail [] []
  | lineComment {text} : '\n' ∉ text.toList →
      IsTail ('/' :: '/' :: text.toList) [.comment .top text false]

theorem exists_scans {chars raw} (h : literalsOf chars = .ok raw) :
    ∃ cs last raw' raw'', chars = cs ++ last ∧ raw = raw' ++ raw'' ∧ Scans last cs raw' ∧
      IsTail last raw'' := by
  induction hn : chars.length using Nat.strong_induction_on generalizing chars raw with
  | _ n ih =>
  -- what follows a literal is shorter, so strong induction reaches it
  have hlater {rest : List Char} {pieces : List Piece} (hlt : rest.length < n)
      (hp : scanLiterals .top .outside [] [] (rest.map (.unknown .top)) = .ok pieces) :=
    @ih rest.length hlt rest (atomsOf pieces) (by
      rw [literalsOf, extractLiterals, cutLiterals, hp]
      rfl) rfl
  cases chars with
  | nil =>
    cases h
    exact ⟨[], [], [], [], rfl, rfl, .nil, .nil⟩
  | cons c chars =>
    by_cases hq : c = '"'
    · subst hq
      obtain ⟨pieces, hp, rfl⟩ := map_ok h
      obtain ⟨text, quoted, rest, pieces', rfl, hquoted, hp, heq⟩ := scanLiterals_quotation_inv hp
      obtain ⟨cs, last, raw', raw'', rfl, hraw, hscans, hlast⟩ := hlater (by simp at hn; omega) hp
      have hquoted' : Quoted (String.ofList text).toList quoted := by rwa [String.toList_ofList]
      exact ⟨_, last, _, raw'', by simp, by rw [heq, hraw]; rfl, .quotation hquoted' hscans, hlast⟩
    cases hc : opensComment (c :: chars) with
    | false =>
      rw [literalsOf_cons hq hc] at h
      obtain ⟨raw, hraw, rfl⟩ := map_ok h
      obtain ⟨cs, last, raw', raw'', rfl, rfl, hscans, hlast⟩ :=
        ih chars.length (by simp at hn; omega) hraw rfl
      exact ⟨_, last, _, raw'', rfl, rfl, .char hq hc hscans, hlast⟩
    | true =>
      cases chars with
      | nil => cases hc
      | cons d chars =>
        obtain ⟨pieces, hp, rfl⟩ := map_ok h
        obtain ⟨rfl, rfl | rfl⟩ := opensComment_cons_cons.1 hc
        · rcases scanLiterals_lineComment_inv hp with
            ⟨text, rest, pieces', rfl, ht, hp, heq⟩ | ⟨ht, heq⟩
          · obtain ⟨cs, last, raw', raw'', rfl, hraw, hscans, hlast⟩ :=
              hlater (by simp at hn; omega) hp
            have ht' : '\n' ∉ (String.ofList text).toList := by rwa [String.toList_ofList]
            refine ⟨_, last, _, raw'', ?_, by rw [heq, hraw]; rfl, .lineComment ht' hscans, hlast⟩
            simp
          · have ht' : '\n' ∉ (String.ofList chars).toList := by rwa [String.toList_ofList]
            refine ⟨[], _, [], _, ?_, heq, .nil, .lineComment ht'⟩
            simp
        · obtain ⟨text, rest, pieces', rfl, ht, hp, heq⟩ := scanLiterals_blockComment_inv hp
          obtain ⟨cs, last, raw', raw'', rfl, hraw, hscans, hlast⟩ :=
            hlater (by simp at hn; omega) hp
          have ht' : ¬ ['*', '/'] <:+: (String.ofList text).toList := by rwa [String.toList_ofList]
          refine ⟨_, last, _, raw'', ?_, by rw [heq, hraw]; rfl, .blockComment ht' hscans, hlast⟩
          simp

theorem Scans.split {post chars pre tail l text block}
    (h : Scans post chars (pre ++ .comment l text block :: tail)) :
    ∃ cs rest, chars = cs ++ rest ∧ Scans (rest ++ post) cs pre ∧
      BeginsComment text block (rest ++ post) := by
  generalize hraw : pre ++ .comment l text block :: tail = raw at h
  induction h generalizing pre with
  | nil => simp at hraw
  | @char c chars raw hq hc h ih =>
    cases pre with
    | nil => cases hraw
    | cons a pre =>
      obtain ⟨rfl, hraw'⟩ := List.cons.inj hraw
      obtain ⟨cs, rest, rfl, hscans, hbegins⟩ := ih hraw'
      exact ⟨c :: cs, rest, rfl, .char hq (List.append_assoc .. ▸ hc) hscans, hbegins⟩
  | @quotation text' quoted chars raw hq h ih =>
    cases pre with
    | nil => cases hraw
    | cons a pre =>
      obtain ⟨rfl, hraw'⟩ := List.cons.inj hraw
      obtain ⟨cs, rest, rfl, hscans, hbegins⟩ := ih hraw'
      exact ⟨_, rest, by simp, .quotation hq hscans, hbegins⟩
  | @lineComment text' chars raw ht h ih =>
    cases pre with
    | nil =>
      cases hraw
      exact ⟨[], _, rfl, .nil, by simpa using BeginsComment.line ht⟩
    | cons a pre =>
      obtain ⟨rfl, hraw'⟩ := List.cons.inj hraw
      obtain ⟨cs, rest, rfl, hscans, hbegins⟩ := ih hraw'
      exact ⟨_, rest, by simp, .lineComment ht hscans, hbegins⟩
  | @blockComment text' chars raw ht h ih =>
    cases pre with
    | nil =>
      cases hraw
      exact ⟨[], _, rfl, .nil, by simpa using BeginsComment.block ht⟩
    | cons a pre =>
      obtain ⟨rfl, hraw'⟩ := List.cons.inj hraw
      obtain ⟨cs, rest, rfl, hscans, hbegins⟩ := ih hraw'
      exact ⟨_, rest, by simp, .blockComment ht hscans, hbegins⟩

/-- A comment that was found in characters begins where it stands. -/
theorem exists_comment {chars pre post l text block}
    (h : literalsOf chars = .ok (pre ++ .comment l text block :: post)) :
    ∃ cs rest, chars = cs ++ rest ∧ Scans rest cs pre ∧ BeginsComment text block rest := by
  obtain ⟨cs, last, raw, raw', rfl, hraw, hscans, hlast⟩ := exists_scans h
  rcases append_eq_split hraw.symm with ⟨mid, rfl⟩ | ⟨mid, rfl, hmid⟩
  · obtain ⟨cs, rest, rfl, hscans, hbegins⟩ := hscans.split
    exact ⟨cs, rest ++ last, by simp, hscans, hbegins⟩
  · cases hlast with
    | nil => simp at hmid
    | lineComment ht =>
      cases mid with
      | cons b mid => simp at hmid
      | nil =>
        cases hmid
        exact ⟨cs, _, rfl, by simpa using hscans, .lastLine ht⟩

end WatScript
