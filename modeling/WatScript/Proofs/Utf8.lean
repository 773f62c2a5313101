import WatScript.Text.Glyph

/-!
# Texts and their bytes

A text that was read from bytes is written as these bytes again, and no other such text is
(`Text.encode_injective`). Arbitrary glyphs do not have this property: two stray bytes may be the bytes of
a character. In a text that was read (`Text.IsDecoded`) no stray byte begins a well-formed sequence, and
whether it does is decided by the stray bytes right after it, since a character never starts with a
continuation byte (`Text.sequence?_stop`).
-/

namespace WatScript

open List

/-- The glyph is a byte outside every sequence. -/
def Glyph.isStray : Glyph → Bool
  | char _ => false
  | stray _ => true

namespace Text

/-! ## Sequences -/

theorem between_iff {lo hi b} :
    between lo hi b = true ↔ lo.toNat ≤ b.toNat ∧ b.toNat ≤ hi.toNat := by
  simp [between, UInt8.le_iff_toNat_le]

theorem not_between_of {lo hi b} (h : b.toNat < lo.toNat ∨ hi.toNat < b.toNat) :
    between lo hi b = false := by
  rw [← Bool.not_eq_true, between_iff]
  omega

section
variable {b b₁ b₂ b₃ : UInt8} {bytes : List UInt8}

theorem sequence?_one (h : b.toNat < 128) : sequence? (b :: bytes) = some (Char.ofNat b.toNat, 1) := by
  rw [sequence?, if_pos (UInt8.lt_iff_toNat_lt.2 h)]

theorem not_ascii_of_between {lo hi} (h : between lo hi b = true) (hlo : 128 ≤ lo.toNat) : ¬ b < 0x80 :=
  Nat.not_lt.2 (Nat.le_trans hlo (between_iff.1 h).1)

theorem sequence?_two (hb : between 0xC2 0xDF b = true) (h₁ : continues b₁ = true) :
    sequence? (b :: b₁ :: bytes) = some (Char.ofNat ((b.toNat % 32) * 64 + payload b₁), 2) := by
  have hfirst := not_ascii_of_between hb (by decide)
  simp [sequence?, hfirst, hb, h₁]

theorem sequence?_three (hb : between 0xE0 0xEF b = true)
    (h₁ : between (secondByteBounds b).1 (secondByteBounds b).2 b₁ = true)
    (h₂ : continues b₂ = true) : sequence? (b :: b₁ :: b₂ :: bytes) =
      some (Char.ofNat ((b.toNat % 16) * 4096 + payload b₁ * 64 + payload b₂), 3) := by
  obtain ⟨hlo, hhi⟩ := between_iff.1 hb
  have hfirst := not_ascii_of_between hb (by decide)
  have hnot : between 0xC2 0xDF b = false := not_between_of (by simp at *; omega)
  simp [sequence?, hfirst, hnot, hb, h₁, h₂]

theorem sequence?_four (hb : between 0xF0 0xF4 b = true)
    (h₁ : between (secondByteBounds b).1 (secondByteBounds b).2 b₁ = true)
    (h₂ : continues b₂ = true) (h₃ : continues b₃ = true) :
    sequence? (b :: b₁ :: b₂ :: b₃ :: bytes) =
      some (Char.ofNat ((b.toNat % 8) * 262144 + payload b₁ * 4096 + payload b₂ * 64 + payload b₃),
        4) := by
  obtain ⟨hlo, hhi⟩ := between_iff.1 hb
  have hfirst := not_ascii_of_between hb (by decide)
  have hnot : between 0xC2 0xDF b = false := not_between_of (by simp at *; omega)
  have hnot' : between 0xE0 0xEF b = false := not_between_of (by simp at *; omega)
  simp [sequence?, hfirst, hnot, hnot', hb, h₁, h₂, h₃]

end

section
variable {n m : Nat}

theorem toNat_byte (h : n < 256) : (UInt8.ofNat n).toNat = n := UInt8.toNat_ofNat_of_lt' h

theorem between_ofNat {lo hi} (hn : n < 256) (h : lo.toNat ≤ n ∧ n ≤ hi.toNat) :
    between lo hi (UInt8.ofNat n) = true := by
  rwa [between_iff, toNat_byte hn]

theorem payload_ofNat (h : n < 64) : payload (UInt8.ofNat (n + 128)) = n := by
  rw [payload, toNat_byte (show n + 128 < 256 by omega)]
  omega

theorem continues_ofNat (h : n < 64) : continues (UInt8.ofNat (n + 128)) = true :=
  between_ofNat (by omega) (by simp; omega)

/-- After the first byte of an overlong sequence, of a surrogate or of a number that is too large, not all
continuations are allowed. -/
theorem second_ofNat (hm : m < 256) (hn : n < 64) (hlong₃ : m = 224 → 32 ≤ n) (hsurr : m = 237 → n < 32)
    (hlong₄ : m = 240 → 16 ≤ n) (hmax : m = 244 → n < 16) :
    between (secondByteBounds (UInt8.ofNat m)).1 (secondByteBounds (UInt8.ofNat m)).2
      (UInt8.ofNat (n + 128)) = true := by
  have hne : ∀ k : UInt8, UInt8.ofNat m = k ↔ m = k.toNat := fun k => by
    rw [← UInt8.toNat_inj, toNat_byte hm]
  refine between_ofNat (by omega) ?_
  simp only [secondByteBounds, hne]
  repeat' split
  all_goals simp at *
  all_goals omega
end

theorem sequence?_encodeChar (c : Char) (rest : List UInt8) :
    sequence? (String.utf8EncodeChar c ++ rest) = some (c, (String.utf8EncodeChar c).length) := by
  have hvalid : c.val.toNat < 55296 ∨ (57343 < c.val.toNat ∧ c.val.toNat < 1114112) := c.valid
  have hc : Char.ofNat c.val.toNat = c := Char.ofNat_toNat c
  unfold String.utf8EncodeChar
  generalize c.val.toNat = v at hvalid hc
  dsimp only
  split
  · have hv : (UInt8.ofNat v).toNat = v := toNat_byte (by omega)
    rw [singleton_append, sequence?_one (by omega), hv, hc]
    rfl
  split
  · have hv : (UInt8.ofNat (v / 64 % 32 + 192)).toNat = v / 64 % 32 + 192 :=
      toNat_byte (by omega)
    refine (sequence?_two (between_ofNat (by omega) (by simp; omega))
      (continues_ofNat (by omega))).trans ?_
    rw [payload_ofNat (by omega), hv, show (v / 64 % 32 + 192) % 32 * 64 + v % 64 = v by omega, hc]
    rfl
  split
  · have hv : (UInt8.ofNat (v / 4096 % 16 + 224)).toNat = v / 4096 % 16 + 224 :=
      toNat_byte (by omega)
    refine (sequence?_three (between_ofNat (by omega) (by simp; omega))
      (second_ofNat (by omega) (by omega) (by omega) (by omega) (by omega) (by omega))
      (continues_ofNat (by omega))).trans ?_
    rw [payload_ofNat (by omega), payload_ofNat (by omega), hv,
      show (v / 4096 % 16 + 224) % 16 * 4096 + v / 64 % 64 * 64 + v % 64 = v by omega, hc]
    rfl
  · have hv : (UInt8.ofNat (v / 262144 % 8 + 240)).toNat = v / 262144 % 8 + 240 :=
      toNat_byte (by omega)
    refine (sequence?_four (between_ofNat (by omega) (by simp; omega))
      (second_ofNat (by omega) (by omega) (by omega) (by omega) (by omega) (by omega))
      (continues_ofNat (by omega)) (continues_ofNat (by omega))).trans ?_
    rw [payload_ofNat (by omega), payload_ofNat (by omega), payload_ofNat (by omega), hv,
      show (v / 262144 % 8 + 240) % 8 * 262144 + v / 4096 % 64 * 4096 + v / 64 % 64 * 64 + v % 64 = v
        by omega, hc]
    rfl

theorem continues_of_second {b b₁}
    (h : between (secondByteBounds b).1 (secondByteBounds b).2 b₁ = true) : continues b₁ = true := by
  rw [continues, between_iff]
  rw [between_iff] at h
  simp only [secondByteBounds] at h
  repeat' split at h
  all_goals simp at *
  all_goals omega

theorem sequence?_inv {b bytes r} (h : sequence? (b :: bytes) = some r) :
    ∃ tail rest, bytes = tail ++ rest ∧ (∀ x ∈ tail, continues x = true) ∧
      ∀ rest', sequence? (b :: (tail ++ rest')) = some r := by
  rw [sequence?] at h
  split at h
  · rename_i hb
    exact ⟨[], bytes, rfl, by simp, fun rest' => by rw [← h, sequence?, if_pos hb]⟩
  dsimp only at h
  split at h
  · rename_i b₁ rest₁ 
    split at h
    · rename_i hb
      split at h
      · rename_i h₁
        cases h
        exact ⟨[b₁], rest₁, rfl, by simpa using h₁, fun rest' => sequence?_two hb h₁⟩
      · cases h
    split at h
    · rename_i hb
      split at h
      · rename_i b₂ rest₂
        split at h
        · rename_i hs
          obtain ⟨h₁, h₂⟩ := Bool.and_eq_true_iff.1 hs
          cases h
          exact ⟨[b₁, b₂], rest₂, rfl, by simp [continues_of_second h₁, h₂],
            fun rest' => sequence?_three hb h₁ h₂⟩
        · cases h
      · cases h
    split at h
    · rename_i hb
      split at h
      · rename_i b₂ b₃ rest₃
        split at h
        · rename_i hs
          obtain ⟨hs, h₃⟩ := Bool.and_eq_true_iff.1 hs
          obtain ⟨h₁, h₂⟩ := Bool.and_eq_true_iff.1 hs
          cases h
          exact ⟨[b₁, b₂, b₃], rest₃, rfl, by simp [continues_of_second h₁, h₂, h₃],
            fun rest' => sequence?_four hb h₁ h₂ h₃⟩
        · cases h
      · cases h
    · cases h
  · cases h

theorem sequence?_append {b bytes more}
    (h : sequence? (b :: (bytes ++ more)) = none) : sequence? (b :: bytes) = none := by
  cases hs : sequence? (b :: bytes) with
  | none => rfl
  | some r =>
    obtain ⟨tail, rest, rfl, -, hany⟩ := sequence?_inv hs
    rw [append_assoc, hany] at h
    cases h

theorem sequence?_stop {b bytes next}
    (hnext : ∀ x ∈ next.head?, continues x = false) (h : sequence? (b :: bytes) = none) :
    sequence? (b :: (bytes ++ next)) = none := by
  cases hs : sequence? (b :: (bytes ++ next)) with
  | none => rfl
  | some r =>
    obtain ⟨tail, rest, happ, hcont, hany⟩ := sequence?_inv hs
    rcases append_eq_append_iff.1 happ with ⟨more, rfl, hmore⟩ | ⟨more, rfl, -⟩
    · cases more with
      | nil =>
        have := hany []
        simp [h] at this
      | cons x more =>
        have hx := hnext x (by simp [hmore])
        rw [hcont x (by simp)] at hx
        cases hx
    · rw [hany] at h
      cases h

theorem continues_head_encodeChar (c : Char) :
    ∀ x ∈ (String.utf8EncodeChar c).head?, continues x = false := by
  have hvalid : c.val.toNat < 55296 ∨ (57343 < c.val.toNat ∧ c.val.toNat < 1114112) := c.valid
  have hfirst : ∀ n : Nat, n < 256 → n < 128 ∨ 192 ≤ n → continues (UInt8.ofNat n) = false := by
    intro n hn h
    refine not_between_of ?_
    rw [toNat_byte hn]
    simpa using h.imp_right fun h => by omega
  intro x hx
  unfold String.utf8EncodeChar at hx
  generalize c.val.toNat = v at hvalid hx
  dsimp only at hx
  repeat' split at hx
  all_goals
    obtain rfl := Option.some.inj hx
    exact hfirst _ (by omega) (by omega)

/-! ## Texts that come from bytes -/

/-- No stray byte begins a sequence with those after it. -/
def IsDecoded : Text → Prop
  | [] => True
  | .char _ :: rest => IsDecoded rest
  | .stray b :: rest => sequence? (b :: encode (rest.takeWhile Glyph.isStray)) = none ∧ IsDecoded rest

theorem continues_head_dropWhile (t : Text) :
    ∀ x ∈ (encode (t.dropWhile Glyph.isStray)).head?, continues x = false := by
  induction t with
  | nil => simp [encode]
  | cons g t ih =>
    cases g with
    | char c =>
      obtain ⟨b, bytes, hc⟩ := exists_cons_of_ne_nil (String.utf8EncodeChar_ne_nil (c := c))
      have hhead := continues_head_encodeChar c
      simpa [encode, Glyph.isStray, Glyph.encode, hc] using hhead
    | stray b =>
      rw [dropWhile_cons_of_pos rfl]
      exact ih

theorem encode_append (t t' : Text) : encode (t ++ t') = encode t ++ encode t' :=
  flatMap_append

theorem IsDecoded.sequence?_eq_none {b rest} (h : IsDecoded (.stray b :: rest)) :
    sequence? (b :: encode rest) = none := by
  have hstop := sequence?_stop (continues_head_dropWhile rest) h.1
  rwa [← encode_append, takeWhile_append_dropWhile] at hstop

theorem decodeFrom_append (bytes rest : List UInt8) :
    decodeFrom bytes.length (bytes ++ rest) = decodeFrom 0 rest := by
  induction bytes with
  | nil => rfl
  | cons b bytes ih => exact ih

theorem decode_encode {t} (h : IsDecoded t) : decode (encode t) = t := by
  induction t with
  | nil => rfl
  | cons g rest ih =>
    cases g with
    | char c =>
      obtain ⟨b, bytes, hc⟩ := exists_cons_of_ne_nil (String.utf8EncodeChar_ne_nil (c := c))
      have hseq := sequence?_encodeChar c (encode rest)
      have henc : encode (.char c :: rest) = b :: (bytes ++ encode rest) := by
        simp [encode, Glyph.encode, hc]
      rw [hc, cons_append] at hseq
      rw [decode, henc, decodeFrom]
      simp only [hseq, length_cons, Nat.add_sub_cancel]
      rw [decodeFrom_append]
      exact congrArg _ (ih h)
    | stray b =>
      have hseq := h.sequence?_eq_none
      have henc : encode (.stray b :: rest) = b :: encode rest := rfl
      rw [decode, henc, decodeFrom]
      simp only [hseq]
      exact congrArg _ (ih h.2)

theorem encode_injective {t t'} (h : IsDecoded t) (h' : IsDecoded t')
    (heq : encode t = encode t') : t = t' := by
  rw [← decode_encode h, heq, decode_encode h']

theorem encode_takeWhile_decode (bytes : List UInt8) :
    encode ((decode bytes).takeWhile Glyph.isStray) <+: bytes := by
  induction bytes with
  | nil => exact nil_prefix
  | cons b rest ih =>
    rw [decode, decodeFrom]
    split
    · exact nil_prefix
    · exact cons_prefix_cons.2 ⟨rfl, ih⟩

theorem isDecoded_decodeFrom (skip : Nat) (bytes : List UInt8) : IsDecoded (decodeFrom skip bytes) := by
  induction bytes generalizing skip with
  | nil => cases skip <;> exact trivial
  | cons b rest ih =>
    cases skip with
    | succ skip => exact ih skip
    | zero =>
      rw [decodeFrom]
      split
      · exact ih _
      · rename_i hseq
        refine ⟨?_, ih 0⟩
        obtain ⟨more, hmore⟩ := encode_takeWhile_decode rest
        rw [← hmore] at hseq
        exact sequence?_append hseq

theorem isDecoded_decode (bytes : List UInt8) : IsDecoded (decode bytes) := isDecoded_decodeFrom 0 bytes

theorem isDecoded_append {front} (h : ∀ g ∈ front, g.isStray = false) (t : Text) :
    IsDecoded (front ++ t) ↔ IsDecoded t := by
  induction front with
  | nil => rfl
  | cons g front ih =>
    obtain ⟨hg, h⟩ := forall_mem_cons.1 h
    cases g with
    | char c => exact ih ‹_›
    | stray b => cases hg

end Text

end WatScript
