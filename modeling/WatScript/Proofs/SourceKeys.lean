import WatScript.Engine.Program
import WatScript.Proofs.Immediates
import WatScript.Proofs.Utf8

/-!
# Keys of source texts

The key of a program is the digest of a fingerprint: the mode, the nesting limit and the source text in
normal form. Two sources with the same bytes in their fingerprints are the same source under the same
settings (`Program.encode_fingerprint_injective`). Normal forms of texts that were read are again texts
that can be read from bytes, since normalizing leaves stray bytes where they are and never removes all
the characters between two of them (`Text.isDecoded_normalize`).
-/

namespace WatScript

open List

namespace Text

/-! ## Normal forms -/

theorem decomposeTo_ne_nil (depth n : Nat) : decomposeTo depth n ≠ [] := by
  induction depth generalizing n with
  | zero => simp [decomposeTo]
  | succ depth ih =>
    rw [decomposeTo]
    repeat' split
    · simp
    · simp [hangulLetters]
    · simp [ih]
    · exact ih _
    · simp

theorem cutAtBoundaries_flatten (held run : List Nat) :
    (cutAtBoundaries held run).flatten = held.reverse ++ run := by
  induction run generalizing held with
  | nil => simp [cutAtBoundaries]
  | cons n run ih =>
    rw [cutAtBoundaries]
    split <;> simp [ih]

theorem decomposeSegment_ne_nil (segment : List Nat) : ∀ held : List Nat, held ≠ [] ∨ segment ≠ [] →
    (decomposeSegment held segment).flatten ≠ [] := by
  induction segment with
  | nil => simp [decomposeSegment]
  | cons n rest ih =>
    intro held _
    have hd : decomposition n ≠ [] := decomposeTo_ne_nil 8 n
    rw [decomposeSegment]
    split
    · exact ih _ (.inl (by simp [hd]))
    · have hcut := cutAtBoundaries_flatten held.reverse (decomposition n)
      generalize cutAtBoundaries held.reverse (decomposition n) = pieces at hcut
      rw [flatten_append]
      intro hnil
      obtain ⟨hfront, hlast⟩ := append_eq_nil_iff.1 hnil
      rcases eq_nil_or_concat pieces with rfl | ⟨front, last, rfl⟩
      · simp [hd] at hcut
      · rw [concat_eq_append] at hfront hlast hcut
        rw [dropLast_concat] at hfront
        rw [getLast?_concat, Option.getD_some] at hlast
        by_cases hl : last = []
        · rw [flatten_concat, hfront, hl] at hcut
          simp [hd] at hcut
        · exact ih last (.inl hl) hlast

theorem segmentsFrom_ne_nil (run : List Nat) : ∀ (count : Nat) (segment : List Nat),
    segment ≠ [] ∨ run ≠ [] → ∃ s ∈ segmentsFrom count segment run, s ≠ [] := by
  induction run with
  | nil => simp [segmentsFrom]
  | cons n rest ih =>
    intro count segment _
    rw [segmentsFrom]
    dsimp only
    split
    · exact ⟨_, mem_cons_self, by simp⟩
    split
    · obtain ⟨s, hs, hne⟩ := ih (marks n).2 [n] (.inl (by simp))
      exact ⟨s, mem_cons_of_mem _ hs, hne⟩
    · exact ih _ _ (.inl (by simp))

theorem insertMark_ne_nil (n : Nat) (pending : List Nat) : insertMark n pending ≠ [] := by
  cases pending with
  | nil => simp [insertMark]
  | cons m rest =>
    rw [insertMark]
    split <;> simp

theorem reorderFrom_ne_nil (run : List Nat) : ∀ pending : List Nat, pending ≠ [] ∨ run ≠ [] →
    reorderFrom pending run ≠ [] := by
  induction run with
  | nil => simp [reorderFrom]
  | cons n rest ih =>
    intro pending _
    rw [reorderFrom]
    split
    · simp
    · exact ih _ (.inl (insertMark_ne_nil n pending))

theorem composeSegment_ne_nil {run} (h : run ≠ []) : composeSegment run ≠ [] := by
  cases run with
  | nil => exact absurd rfl h
  | cons n rest => simp [composeSegment, Composed.toList]

theorem normalizeRun_ne_nil {run} (h : run ≠ []) : normalizeRun run ≠ [] := by
  obtain ⟨s, hs, hne⟩ := segmentsFrom_ne_nil run 0 [] (.inr h)
  intro hnil
  refine decomposeSegment_ne_nil s [] (.inr hne) (flatten_eq_nil_iff.2 fun d hd => ?_)
  by_contra hd'
  exact composeSegment_ne_nil (reorderFrom_ne_nil d [] (.inr hd'))
    (flatMap_eq_nil_iff.1 hnil d (mem_flatMap.2 ⟨s, hs, hd⟩))

theorem takeWhile_normalizeFrom_run (t : Text) : ∀ {run}, run ≠ [] →
    (normalizeFrom run t).takeWhile Glyph.isStray = [] := by
  have hdone : ∀ {run : List Nat} (rest : Text), run ≠ [] →
      (((normalizeRun run.reverse).map fun n => Glyph.char (Char.ofNat n)) ++ rest).takeWhile
        Glyph.isStray = [] := by
    intro run rest h
    obtain ⟨n, ns, hn⟩ := exists_cons_of_ne_nil
      (normalizeRun_ne_nil (reverse_ne_nil_iff.2 h))
    rw [hn]
    rfl
  induction t with
  | nil =>
    intro run h
    simpa [normalizeFrom] using hdone [] h
  | cons g t ih =>
    intro run h
    cases g with
    | char c => exact ih (by simp)
    | stray b =>
      rw [normalizeFrom]
      split <;> exact hdone _ h

theorem takeWhile_normalize (t : Text) :
    (normalize t).takeWhile Glyph.isStray = t.takeWhile Glyph.isStray := by
  unfold normalize
  induction t with
  | nil => rfl
  | cons g t ih =>
    cases g with
    | char c => exact takeWhile_normalizeFrom_run t (by simp)
    | stray b =>
      rw [normalizeFrom]
      split
      · rfl
      · exact congrArg (Glyph.stray b :: ·) ih

theorem isDecoded_normalizeFrom {t} (h : IsDecoded t) : ∀ run : List Nat,
    IsDecoded (normalizeFrom run t) := by
  have hdone : ∀ (run : List Nat) {rest : Text}, IsDecoded rest →
      IsDecoded (((normalizeRun run.reverse).map fun n => Glyph.char (Char.ofNat n)) ++ rest) := by
    intro run rest h
    refine (isDecoded_append (fun g hg => ?_) rest).2 h
    obtain ⟨n, -, rfl⟩ := mem_map.1 hg
    rfl
  induction t with
  | nil =>
    intro run
    simpa [normalizeFrom] using @hdone run [] trivial
  | cons g t ih =>
    intro run
    cases g with
    | char c => exact ih h _
    | stray b =>
      rw [normalizeFrom]
      split
      · exact hdone run h
      · refine hdone run ⟨?_, ih h.2 []⟩
        rw [← normalize, takeWhile_normalize]
        exact h.1

theorem isDecoded_normalize {t} (h : IsDecoded t) : IsDecoded (normalize t) :=
  isDecoded_normalizeFrom h []

end Text

/-! ## Fingerprints -/

theorem append_cons_inj {α : Type} {a : α} {front front' rest rest' : List α} (h : a ∉ front)
    (h' : a ∉ front') (heq : front ++ a :: rest = front' ++ a :: rest') :
    front = front' ∧ rest = rest' := by
  have hmore : ∀ {front more rest rest' : List α}, a ∉ front ++ more →
      a :: rest = more ++ a :: rest' → more = [] ∧ rest = rest' := by
    intro front more rest rest' hnot hcut
    cases more with
    | nil => exact ⟨rfl, (List.cons.inj hcut).2⟩
    | cons x more =>
      obtain ⟨rfl, -⟩ := List.cons.inj hcut
      exact absurd (by simp) hnot
  rcases append_eq_append_iff.1 heq with ⟨more, rfl, hcut⟩ | ⟨more, rfl, hcut⟩
  · obtain ⟨rfl, rfl⟩ := hmore h' hcut
    simp
  · obtain ⟨rfl, rfl⟩ := hmore h hcut
    simp

namespace Program

theorem colon_notMem_toString (n : Int) : ':' ∉ (toString n).toList := by
  have hdigits : ∀ m : Nat, ':' ∉ Nat.toDigits 10 m := fun m hm =>
    absurd (Nat.isDigit_of_mem_toDigits (by decide) (by decide) hm) (by decide)
  rw [Int.toString_eq_repr, Int.repr_eq_if]
  split <;> simp [Nat.repr_eq_ofList_toDigits, hdigits]

theorem toString_toInt_injective {m n : Int64} (h : toString m.toInt = toString n.toInt) : m = n := by
  have hread := congrArg (fun s : String => Numeral.decimal 64 s.toList) h
  rw [Numeral.decimal_toString (by decide) m.le_toInt m.toInt_lt,
    Numeral.decimal_toString (by decide) n.le_toInt n.toInt_lt] at hread
  exact Int64.toInt_inj.1 (Except.ok.inj hread)

theorem fingerprint_eq (maxDepth : Int64) (isExpr : Bool) (source : Text) :
    fingerprint maxDepth isExpr source = .char (if isExpr then 'e' else 's') ::
      (Text.ofString (toString maxDepth.toInt) ++ .char ':' :: source) := by
  cases isExpr <;> simp [fingerprint, Text.ofString]

theorem isDecoded_fingerprint {source} (h : source.IsDecoded) (maxDepth : Int64)
    (isExpr : Bool) : (fingerprint maxDepth isExpr source).IsDecoded := by
  refine (Text.isDecoded_append (fun g hg => ?_) source).2 h
  obtain ⟨c, -, rfl⟩ := mem_map.1 hg
  rfl

section
variable {maxDepth maxDepth' : Int64} {isExpr isExpr' : Bool} {source source' : Text}

theorem fingerprint_injective
    (h : fingerprint maxDepth isExpr source = fingerprint maxDepth' isExpr' source') :
    maxDepth = maxDepth' ∧ isExpr = isExpr' ∧ source = source' := by
  have hcolon : ∀ n : Int, Glyph.char ':' ∉ Text.ofString (toString n) := fun n hn => by
    obtain ⟨c, hc, hcolon⟩ := mem_map.1 hn
    exact colon_notMem_toString n (Glyph.char.inj hcolon ▸ hc)
  rw [fingerprint_eq, fingerprint_eq] at h
  obtain ⟨hmode, hrest⟩ := List.cons.inj h
  obtain ⟨hdepth, hsource⟩ := append_cons_inj (hcolon _) (hcolon _) hrest
  refine ⟨toString_toInt_injective (Text.ofString_injective hdepth), ?_, hsource⟩
  revert hmode
  cases isExpr <;> cases isExpr' <;> simp

/-- The bytes of a fingerprint determine what it is made from. -/
theorem encode_fingerprint_injective (hs : source.IsDecoded) (hs' : source'.IsDecoded)
    (h : (fingerprint maxDepth isExpr source).encode =
      (fingerprint maxDepth' isExpr' source').encode) :
    maxDepth = maxDepth' ∧ isExpr = isExpr' ∧ source = source' :=
  fingerprint_injective (Text.encode_injective (isDecoded_fingerprint hs _ _)
    (isDecoded_fingerprint hs' _ _) h)

end

end Program

end WatScript
