import Mathlib.Data.List.Basic
import WatScript.Log.Logger
import WatScript.Proofs.Utf8

/-!
# Log lines decode

`decodeLine` reads a line of keys and values back: a key up to `=`, then a quoted text if a quote
follows and otherwise all up to the next blank. Whatever chain of calls made a logger, every context
list is padded on its own, so the values of a record stay paired (`context_run`), and the line
written for them decodes to exactly their texts (`log_lines_decode`).
-/

namespace WatScript

open List

/-! ## Reading a line back -/

/-- The value of a hexadecimal digit. -/
def hexValue? (c : Char) : Option Nat :=
  if '0' ≤ c ∧ c ≤ '9' then some (c.toNat - 48)
  else if 'a' ≤ c ∧ c ≤ 'f' then some (c.toNat - 87)
  else if 'A' ≤ c ∧ c ≤ 'F' then some (c.toNat - 55)
  else none

/-- The number that the next `width` hexadecimal digits stand for, and what follows them. -/
def readHex : Nat → Text → Option (Nat × Text)
  | 0, t => some (0, t)
  | width + 1, t =>
    match readHex width t with
    | some (n, .char c :: rest) => (hexValue? c).map fun d => (n * 16 + d, rest)
    | _ => none

/-- The character that a letter stands for after a backslash. -/
def escaped? : Char → Option Char
  | 'a' => some '\x07'
  | 'b' => some '\x08'
  | 't' => some '\t'
  | 'n' => some '\n'
  | 'v' => some '\x0b'
  | 'f' => some '\x0c'
  | 'r' => some '\r'
  | '\\' => some '\\'
  | '"' => some '"'
  | _ => none

/-- The number of digits that a letter announces after a backslash. -/
def codeWidth? : Char → Option Nat
  | 'x' => some 2
  | 'u' => some 4
  | 'U' => some 8
  | _ => none

/-- What digits after a backslash stand for: two of them for a byte, more for a character. -/
def glyphOfCode (width n : Nat) : Glyph :=
  if width = 2 ∧ 0x80 ≤ n then .stray (UInt8.ofNat n) else .char (Char.ofNat n)

/-- The glyph at the front of a quoted text, written out or as an escape. -/
def readGlyph : Text → Option (Glyph × Text)
  | .char '\\' :: .char c :: rest =>
    match codeWidth? c with
    | some width => (readHex width rest).map fun (n, rest) => (glyphOfCode width n, rest)
    | none => (escaped? c).map fun d => (.char d, rest)
  | .char '\\' :: _ => none
  | g :: rest => some (g, rest)
  | [] => none

/-- The text up to the closing quote, and what follows the quote. -/
def unquote (t : Text) : Option (Text × Text) :=
  if t.head? = some (.char '"') then some ([], t.tail)
  else match readGlyph t with
    | none => none
    | some (g, rest) =>
      if rest.length < t.length then (unquote rest).map fun (text, rest) => (g :: text, rest)
      else none
termination_by t.length

/-- Reads one value, and what follows it. -/
def readValue : Text → Option (Text × Text)
  | .char '"' :: rest => unquote rest
  | t => some (t.takeWhile (· ≠ .char ' '), t.dropWhile (· ≠ .char ' '))

/-- The keys and values of a line. -/
def decodeLine (t : Text) : Option (List (Text × Text)) :=
  if t = [] then some []
  else
    let key := t.takeWhile (· ≠ .char '=')
    match readValue (t.drop (key.length + 1)) with
    | some (value, []) => some [(key, value)]
    | some (value, .char ' ' :: rest) =>
      if rest.length < t.length then (decodeLine rest).map ((key, value) :: ·) else none
    | _ => none
termination_by t.length

/-! ## Quoted texts -/

theorem hexValue?_hexDigit : ∀ d < 16, hexValue? (Text.hexDigit d) = some d := by decide

/-- The number of values that `width` hexadecimal digits have. -/
def hexBound : Nat → Nat
  | 0 => 1
  | width + 1 => 16 * hexBound width

theorem readHex_hexDigits (width : Nat) {n} (h : n < hexBound width) (rest : Text) :
    readHex width ((Text.hexDigits width n).map .char ++ rest) = some (n, rest) := by
  induction width generalizing n rest with
  | zero =>
    obtain rfl := Nat.lt_one_iff.1 h
    rfl
  | succ width ih =>
    rw [hexBound] at h
    rw [Text.hexDigits, map_append, append_assoc, readHex, ih (by omega)]
    simp only [map_cons, map_nil, cons_append, nil_append,
      hexValue?_hexDigit _ (Nat.mod_lt n (by decide)), Option.map_some, Nat.div_add_mod']

/-- A glyph that arrived in a text: a stray byte is none that a character has. -/
def Glyph.IsGenuine : Glyph → Prop
  | .char _ => True
  | .stray b => 0x80 ≤ b.toNat

theorem readGlyph_char {c} (h : c ≠ '\\') (rest : Text) :
    readGlyph (.char c :: rest) = some (.char c, rest) := by
  simp [readGlyph, h]

theorem readGlyph_code {c width n} (hc : codeWidth? c = some width) (h : n < hexBound width)
    (rest : Text) : readGlyph (('\\' :: c :: Text.hexDigits width n).map .char ++ rest) =
      some (glyphOfCode width n, rest) := by
  simp only [map_cons, cons_append, readGlyph, hc, readHex_hexDigits width h, Option.map_some]

theorem readGlyph_escapeChar (c : Char) (rest : Text) :
    readGlyph ((Text.escapeChar '"' c).map .char ++ rest) = some (.char c, rest) := by
  have hcode : Char.ofNat c.toNat = c := Char.ofNat_toNat c
  unfold Text.escapeChar
  split
  next h =>
    rw [Bool.or_eq_true, decide_eq_true_iff, decide_eq_true_iff] at h
    rcases h with rfl | rfl <;> rfl
  next h =>
    split
    next =>
      refine readGlyph_char ?_ rest
      rintro rfl
      simp at h
    next =>
      split
      next letter hletter =>
        unfold Text.controlLetter? at hletter
        split at hletter <;> cases hletter
        all_goals
          rename_i hn
          rw [← hcode, hn]
          rfl
      next =>
        split
        next hlow =>
          have hbyte : c.toNat < 0x80 := by
            simp only [Bool.or_eq_true, decide_eq_true_eq] at hlow
            omega
          rw [readGlyph_code rfl (Nat.lt_trans hbyte (by decide)), glyphOfCode, if_neg (by omega),
            hcode]
        next =>
          split
          next hn => rw [readGlyph_code rfl hn, glyphOfCode, if_neg (by omega), hcode]
          next =>
            have hmax : c.toNat < 0x100000000 := c.val.toNat_lt
            rw [readGlyph_code rfl hmax, glyphOfCode, if_neg (by omega), hcode]

theorem readGlyph_escapeGlyph {g} (hg : g.IsGenuine) (rest : Text) :
    readGlyph ((Text.escapeGlyph '"' g).map .char ++ rest) = some (g, rest) := by
  cases g with
  | char c => exact readGlyph_escapeChar c rest
  | stray b =>
    rw [Text.escapeGlyph, readGlyph_code rfl b.toNat_lt, glyphOfCode, if_pos ⟨rfl, hg⟩,
      UInt8.ofNat_toNat]

/-- Inside quotes no glyph begins with a quote, and none takes up no room. -/
theorem head?_escapeGlyph (g : Glyph) : ∃ c cs, Text.escapeGlyph '"' g = c :: cs ∧ c ≠ '"' := by
  cases g with
  | stray b => exact ⟨_, _, rfl, by decide⟩
  | char c =>
    rw [Text.escapeGlyph, Text.escapeChar]
    repeat' split
    all_goals exact ⟨_, _, rfl, by simp_all⟩

theorem unquote_flatMap {t} (ht : ∀ g ∈ t, g.IsGenuine) (rest : Text) :
    unquote ((t.flatMap (Text.escapeGlyph '"')).map .char ++ .char '"' :: rest) =
      some (t, rest) := by
  induction t with
  | nil => rw [unquote]; simp
  | cons g t ih =>
    obtain ⟨hg, ht⟩ := forall_mem_cons.1 ht
    obtain ⟨c, cs, hesc, hc⟩ := head?_escapeGlyph g
    have hrest := ih ht
    rw [flatMap_cons, map_append, append_assoc]
    generalize (t.flatMap (Text.escapeGlyph '"')).map Glyph.char ++ .char '"' :: rest = tail
      at hrest ⊢
    have hless : tail.length < ((Text.escapeGlyph '"' g).map Glyph.char ++ tail).length := by
      rw [length_append, hesc, map_cons, length_cons]
      omega
    rw [unquote, if_neg (by simp [hesc, hc]), readGlyph_escapeGlyph hg]
    simp only [if_pos hless, hrest, Option.map_some]

theorem readValue_quote {t} (ht : ∀ g ∈ t, g.IsGenuine) (rest : Text) :
    readValue (.ofString (Text.quote t) ++ rest) = some (t, rest) := by
  rw [Text.ofString, Text.quote, String.toList_ofList, cons_append, map_cons, cons_append,
    map_append, append_assoc]
  exact unquote_flatMap ht rest

theorem isGenuine_of_isDecoded {t : Text} (h : t.IsDecoded) : ∀ g ∈ t, g.IsGenuine := by
  induction t with
  | nil => simp
  | cons g t ih =>
    cases g with
    | char c => exact forall_mem_cons.2 ⟨trivial, ih h⟩
    | stray b =>
      refine forall_mem_cons.2 ⟨?_, ih h.2⟩
      have hnone := h.1
      by_contra hb
      have hlow : b < 0x80 := UInt8.lt_iff_toNat_lt.2 (Nat.not_le.1 hb)
      simp [Text.sequence?, hlow] at hnone

/-! ## Values -/

theorem newline_notMem_hexDigits (width n : Nat) : '\n' ∉ Text.hexDigits width n := by
  have hdigit : ∀ d < 16, Text.hexDigit d ≠ '\n' := by decide
  induction width generalizing n with
  | zero => simp [Text.hexDigits]
  | succ width ih =>
    have hlast := hdigit (n % 16) (Nat.mod_lt n (by decide))
    simp [Text.hexDigits, ih, hlast.symm]

theorem newline_notMem_escapeGlyph (g : Glyph) : '\n' ∉ Text.escapeGlyph '"' g := by
  cases g with
  | stray b => simp [Text.escapeGlyph, newline_notMem_hexDigits]
  | char c =>
    rw [Text.escapeGlyph, Text.escapeChar]
    split
    next h =>
      rw [Bool.or_eq_true, decide_eq_true_iff, decide_eq_true_iff] at h
      rcases h with rfl | rfl <;> decide
    next =>
      split
      next hprint =>
        rw [mem_singleton]
        rintro rfl
        cases hprint
      next =>
        split
        next letter hletter =>
          unfold Text.controlLetter? at hletter
          split at hletter <;> cases hletter <;> decide
        next =>
          repeat' split
          all_goals simp [newline_notMem_hexDigits]

/-- The text of a value as it was given. -/
def LogValue.bare : LogValue → Text
  | .absent => .ofString "nil"
  | .bool b => .ofString (toString b)
  | .int n => .ofString (toString n)
  | .string t => t
  | _ => []

/-- A string, integer or boolean, or no value. -/
inductive LogValue.IsScalar : LogValue → Prop
  | absent : IsScalar .absent
  | bool (b : Bool) : IsScalar (.bool b)
  | int (n : Int) : IsScalar (.int n)
  | string {t} : t.IsDecoded → IsScalar (.string t)

/-- The value is written as `w`, on one line, and is read back from there. -/
structure LogValue.WrittenAs (v : LogValue) (w : Text) : Prop where
  text : ∀ forTerminal, v.text forTerminal = .ok w
  oneLine : .char '\n' ∉ w
  reads : ∀ rest : Text, (∀ g, rest.head? = some g → g = .char ' ') →
    readValue (w ++ rest) = some (v.bare, rest)

theorem toChar_of_plain {t} (h : needsQuoting t = false) {g} (hg : g ∈ t) :
    ' ' < g.toChar ∧ g.toChar ≠ '"' := by
  rw [needsQuoting, Bool.or_eq_false_iff, any_eq_false] at h
  have hc := h.2 g.toChar (mem_map_of_mem hg)
  simp only [Bool.or_eq_true, decide_eq_true_eq, beq_iff_eq, not_or, Char.not_le] at hc
  exact ⟨hc.1.1, hc.2⟩

/-- A text that needs no quotes is read back as it stands. -/
theorem readValue_plain {t} (h : needsQuoting t = false) {rest}
    (hrest : ∀ g, rest.head? = some g → g = .char ' ') :
    readValue (t ++ rest) = some (t, rest) := by
  obtain ⟨g, t, rfl⟩ := exists_cons_of_ne_nil fun hnil : t = [] => by simp [hnil, needsQuoting] at h
  have hword : ∀ x ∈ g :: t, decide (x ≠ .char ' ') = true := by
    intro x hx
    have hlt := (toChar_of_plain h hx).1
    rw [decide_eq_true_iff]
    rintro rfl
    exact absurd hlt (by decide)
  have hstop : rest.takeWhile (· ≠ .char ' ') = [] ∧ rest.dropWhile (· ≠ .char ' ') = rest := by
    cases rest with
    | nil => exact ⟨rfl, rfl⟩
    | cons x rest => simp [hrest x rfl]
  have hquote : g ≠ .char '"' := by
    rintro rfl
    exact (toChar_of_plain h mem_cons_self).2 rfl
  rw [cons_append, readValue.eq_2 _ (by simpa using hquote), ← cons_append,
    takeWhile_append_of_pos hword, dropWhile_append_of_pos hword, hstop.1, hstop.2, append_nil]

/-- A text without need of quotes is written as it stands. -/
theorem newline_notMem_of_plain {t} (h : needsQuoting t = false) : .char '\n' ∉ t := by
  intro hmem
  exact absurd (toChar_of_plain h hmem).1 (by decide)

theorem needsQuoting_ofList {cs} (hne : cs ≠ []) (h : ∀ c ∈ cs, c.isDigit = true ∨ c = '-') :
    needsQuoting (.ofString (String.ofList cs)) = false := by
  have hchars : Text.toChars (.ofString (String.ofList cs)) = cs := by
    simp [Text.toChars, Text.ofString, Function.comp_def, Glyph.toChar]
  rw [needsQuoting, hchars, Bool.or_eq_false_iff, any_eq_false]
  refine ⟨by simpa [Text.ofString] using hne, fun c hc => ?_⟩
  rcases h c hc with hdigit | rfl
  · simp only [Char.isDigit, Bool.and_eq_true, decide_eq_true_eq] at hdigit
    simp only [Bool.or_eq_true, decide_eq_true_eq, beq_iff_eq, not_or]
    refine ⟨⟨fun hle => ?_, ?_⟩, ?_⟩
    · exact absurd (UInt32.le_trans hdigit.1 (Char.le_def.1 hle)) (by decide)
    · rintro rfl
      exact absurd hdigit.2 (by decide)
    · rintro rfl
      exact absurd hdigit.1 (by decide)
  · decide

theorem needsQuoting_toString (n : Int) : needsQuoting (.ofString (toString n)) = false := by
  have hdigit : ∀ m : Nat, ∀ c ∈ Nat.toDigits 10 m, c.isDigit = true := fun m c hc =>
    Nat.isDigit_of_mem_toDigits (by decide) (by decide) hc
  rw [Int.toString_eq_repr, Int.repr_eq_if]
  split
  · rw [Nat.repr_eq_ofList_toDigits]
    exact needsQuoting_ofList (by simp) fun c hc => .inl (hdigit _ c hc)
  · rw [Nat.repr_eq_ofList_toDigits, show "-" = String.ofList ['-'] from rfl,
      ← String.ofList_append]
    refine needsQuoting_ofList (by simp) (forall_mem_cons.2 ⟨.inr rfl, fun c hc => ?_⟩)
    exact .inl (hdigit _ c hc)

theorem needsQuoting_bool (b : Bool) : needsQuoting (.ofString (toString b)) = false := by
  cases b <;> decide

theorem LogValue.IsScalar.writtenAs {v : LogValue} (h : v.IsScalar) : ∃ w, v.WrittenAs w := by
  have hplain : ∀ {v : LogValue}, (∀ forTerminal, v.text forTerminal = .ok v.bare) →
      needsQuoting v.bare = false → ∃ w, v.WrittenAs w := fun htext hq =>
    ⟨_, htext, newline_notMem_of_plain hq, fun _ => readValue_plain hq⟩
  cases h with
  | absent => exact hplain (fun _ => rfl) (by decide)
  | bool b => exact hplain (fun _ => rfl) (needsQuoting_bool b)
  | int n => exact hplain (fun _ => rfl) (needsQuoting_toString n)
  | @string t ht =>
    cases hq : needsQuoting t with
    | false => exact hplain (fun _ => by simp [LogValue.text, escapeText, hq, LogValue.bare]) hq
    | true =>
      refine ⟨.ofString (Text.quote t), fun _ => by simp [LogValue.text, escapeText, hq], ?_,
        fun rest _ => readValue_quote (isGenuine_of_isDecoded ht) rest⟩
      simp [Text.ofString, Text.quote, newline_notMem_escapeGlyph]

/-! ## Pairs -/

/-- A key that can be told from the value behind it. -/
structure IsKey (k : Text) : Prop where
  noSign : .char '=' ∉ k
  oneLine : .char '\n' ∉ k

theorem IsKey.takeWhile {k} (hk : IsKey k) (rest : Text) :
    (k ++ .char '=' :: rest).takeWhile (· ≠ .char '=') = k := by
  rw [takeWhile_append_of_pos fun g hg => ?_]
  · simp
  · rw [decide_eq_true_iff]
    rintro rfl
    exact hk.noSign hg

theorem decodeLine_nil : decodeLine [] = some [] := by
  rw [decodeLine, if_pos rfl]

theorem decodeLine_pair {k w : Text} {v : LogValue} (hk : IsKey k) (hw : v.WrittenAs w) :
    decodeLine (k ++ .char '=' :: w) = some [(k, v.bare)] := by
  have hread := hw.reads [] (by simp)
  rw [append_nil] at hread
  rw [decodeLine, if_neg (by simp), hk.takeWhile]
  simp [hread]

theorem decodeLine_pair_cons {k w : Text} {v : LogValue} (hk : IsKey k) (hw : v.WrittenAs w)
    (rest : Text) : decodeLine (k ++ .char '=' :: w ++ .char ' ' :: rest) =
      (decodeLine rest).map ((k, v.bare) :: ·) := by
  have hread := hw.reads (.char ' ' :: rest) (by simp)
  have hdrop : (k ++ .char '=' :: (w ++ .char ' ' :: rest)).drop (k.length + 1) =
      w ++ .char ' ' :: rest := by simp
  have hless : rest.length < (k ++ .char '=' :: (w ++ .char ' ' :: rest)).length := by
    simp only [length_append, length_cons]
    omega
  rw [append_assoc, cons_append, decodeLine, if_neg (by simp), hk.takeWhile]
  simp only [hdrop, hread, if_pos hless]

/-- The values that keys and values make up. -/
def unpair (ps : List (Text × LogValue)) : List LogValue := ps.flatMap fun p => [.string p.1, p.2]

theorem pairTexts_unpair {ps : List (Text × LogValue)} (h : ∀ p ∈ ps, IsKey p.1 ∧ p.2.IsScalar) :
    ∃ texts, (∀ forTerminal length, pairTexts none forTerminal length (unpair ps) = .ok texts) ∧
      .char '\n' ∉ [Glyph.char ' '].intercalate texts ∧
      decodeLine ([Glyph.char ' '].intercalate texts) = some (ps.map fun p => (p.1, p.2.bare)) := by
  induction ps with
  | nil => exact ⟨[], by simp [unpair, pairTexts], by simp, decodeLine_nil⟩
  | cons p ps ih =>
    obtain ⟨⟨hk, hv⟩, h⟩ := forall_mem_cons.1 h
    obtain ⟨w, hw⟩ := hv.writtenAs
    obtain ⟨texts, htexts, hline, hdecode⟩ := ih h
    refine ⟨(p.1 ++ .char '=' :: w) :: texts, fun forTerminal length => ?_, ?_, ?_⟩
    · have hrest := htexts forTerminal length
      simp only [unpair] at hrest
      simp only [unpair, flatMap_cons, cons_append, nil_append, pairTexts, pairText, hw.text, paint,
        hrest]
      rfl
    · cases texts <;> simp_all [List.intercalate, hk.oneLine, hw.oneLine]
    · cases texts with
      | nil =>
        have hnil := decodeLine_nil.symm.trans hdecode
        rw [map_cons, ← Option.some.inj hnil]
        simpa [List.intercalate] using decodeLine_pair hk hw
      | cons t texts =>
        have hsplit : [Glyph.char ' '].intercalate ((p.1 ++ .char '=' :: w) :: t :: texts) =
            p.1 ++ .char '=' :: w ++ .char ' ' :: [Glyph.char ' '].intercalate (t :: texts) := by
          simp [List.intercalate]
        rw [hsplit, decodeLine_pair_cons hk hw, hdecode, Option.map_some, map_cons]

/-! ## Argument lists -/

/-- Keys and scalar values in turn; the last key may lack its value. -/
inductive Alternating : List LogValue → Prop
  | nil : Alternating []
  | lone {k} : IsKey k → Alternating [.string k]
  | pair {k v rest} : IsKey k → v.IsScalar → Alternating rest → Alternating (.string k :: v :: rest)

/-- Arguments that are keys and values by turns, or one table. -/
inductive Loggable : List LogValue → Prop
  | list {args} : Alternating args → Loggable args
  | table {es : List (String × LogValue)} : (∀ e ∈ es, IsKey (.ofString e.1) ∧ e.2.IsScalar) →
      Loggable [.pairs es]

/-- The keys and the texts of the values; a table stands for its entries, and a list of odd length is filled
up and marked. -/
def entries : List LogValue → List (Text × Text)
  | [.pairs es] => es.map fun (k, v) => (.ofString k, v.bare)
  | [] => []
  | [k] => [(k.bare, .ofString "nil"),
      (errorKey, .ofString "Normalized odd number of arguments by adding nil")]
  | k :: v :: rest => (k.bare, v.bare) :: entries rest

theorem Alternating.normalizeContext_eq {args} (h : Alternating args) :
    normalizeContext args = if args.length % 2 == 0 then args else args ++ oddMark := by
  cases h <;> rfl

theorem Alternating.normalize {args} (h : Alternating args) :
    ∃ ps, normalizeContext args = unpair ps ∧ (∀ p ∈ ps, IsKey p.1 ∧ p.2.IsScalar) ∧
      (ps.map fun p => (p.1, p.2.bare)) = entries args := by
  induction h with
  | nil => exact ⟨[], rfl, by simp, rfl⟩
  | @lone k hk =>
    have hmark : Text.IsDecoded (.ofString "Normalized odd number of arguments by adding nil") := by
      simp [Text.ofString, Text.IsDecoded]
    have herror : IsKey errorKey := ⟨by decide, by decide⟩
    refine ⟨[(k, .absent), (errorKey, .string _)], rfl, ?_, rfl⟩
    simpa using ⟨⟨hk, .absent⟩, herror, .string hmark⟩
  | @pair k v rest hk hv hrest ih =>
    obtain ⟨ps, hps, hall, hentries⟩ := ih
    rw [hrest.normalizeContext_eq] at hps
    refine ⟨(k, v) :: ps, ?_, forall_mem_cons.2 ⟨⟨hk, hv⟩, hall⟩, ?_⟩
    · rw [(Alternating.pair hk hv hrest).normalizeContext_eq, unpair, flatMap_cons, ← unpair, ← hps]
      simp only [length_cons, Nat.add_assoc, Nat.add_mod_right]
      split <;> rfl
    · rw [map_cons, hentries]
      rfl

theorem Loggable.normalize {args} (h : Loggable args) :
    ∃ ps, normalizeContext args = unpair ps ∧ (∀ p ∈ ps, IsKey p.1 ∧ p.2.IsScalar) ∧
      (ps.map fun p => (p.1, p.2.bare)) = entries args := by
  cases h with
  | list h => exact h.normalize
  | @table es h =>
    refine ⟨es.map fun e => (.ofString e.1, e.2), ?_, forall_mem_map.2 h, ?_⟩
    · have hvalues : es.flatMap (fun (k, v) => [.string (.ofString k), v]) =
          unpair (es.map fun e => (.ofString e.1, e.2)) := by
        rw [unpair, flatMap_map]
      have heven (ps : List (Text × LogValue)) : (unpair ps).length % 2 = 0 := by
        simp [unpair]
      rw [normalizeContext, hvalues, heven]
      rfl
    · rw [map_map]
      rfl

/-! ## Loggers -/

/-- A call that makes a child or changes a handler. -/
inductive LogStep where
  | child (parent : Nat) (args : List LogValue)
  | handler (i : Nat) (h : LogHandler)

/-- The loggers after a step. -/
def Loggers.step (ls : Loggers) : LogStep → Loggers
  | .child parent args => ls.addChild parent args
  | .handler i h => ls.setHandler i h

/-- The loggers after all steps. -/
def Loggers.run (steps : List LogStep) : Loggers := steps.foldl Loggers.step .start

/-- One call more, in terms of the argument lists that led to each logger. -/
def lineageStep (lines : List (List (List LogValue))) : LogStep → List (List (List LogValue))
  | .child parent args => lines ++ [lines.getD parent [] ++ [args]]
  | .handler _ _ => lines

/-- The argument lists of the calls from the root down to each logger. -/
def lineages (steps : List LogStep) : List (List (List LogValue)) := steps.foldl lineageStep [[]]

section
variable {ls : Loggers} {lines : List (List (List LogValue))}
  (h : ls.map Logger.context = lines.map (·.flatMap normalizeContext))
include h

theorem Loggers.context_get (i : Nat) :
    (ls.get i).context = (lines.getD i []).flatMap normalizeContext := by
  have hi := congrArg (·[i]?) h
  simp only [getElem?_map] at hi
  simp only [Loggers.get, getD_eq_getElem?_getD]
  cases hl : ls[i]? <;> cases hm : lines[i]? <;> simp_all

theorem context_step (s : LogStep) :
    (ls.step s).map Logger.context = (lineageStep lines s).map (·.flatMap normalizeContext) := by
  cases s with
  | child parent args =>
    simp [Loggers.step, Loggers.addChild, lineageStep, h, Loggers.context_get h]
  | handler i handler =>
    rw [lineageStep, ← h]
    refine ext_getElem? fun j => ?_
    rw [Loggers.step, Loggers.setHandler, getElem?_map, getElem?_map, getElem?_modify]
    cases ls[j]? with
    | none => rfl
    | some l => by_cases hij : i = j <;> simp [hij]

theorem context_foldl (steps : List LogStep) :
    (steps.foldl Loggers.step ls).map Logger.context =
      (steps.foldl lineageStep lines).map (·.flatMap normalizeContext) := by
  induction steps generalizing ls lines with
  | nil => exact h
  | cons s steps ih => exact ih (context_step h s)

end

/-- A logger puts the contexts of the calls that led to it, each padded on its own, in front. -/
theorem context_run (steps : List LogStep) (i : Nat) :
    ((Loggers.run steps).get i).context = ((lineages steps).getD i []).flatMap normalizeContext :=
  Loggers.context_get (context_foldl (by rfl) steps) i

theorem Loggable.flatMap {lists : List (List LogValue)} (h : ∀ args ∈ lists, Loggable args) :
    ∃ ps, lists.flatMap normalizeContext = unpair ps ∧ (∀ p ∈ ps, IsKey p.1 ∧ p.2.IsScalar) ∧
      (ps.map fun p => (p.1, p.2.bare)) = lists.flatMap entries := by
  induction lists with
  | nil => exact ⟨[], rfl, by simp, rfl⟩
  | cons args lists ih =>
    obtain ⟨hargs, h⟩ := forall_mem_cons.1 h
    obtain ⟨ps, hps, hall, hentries⟩ := hargs.normalize
    obtain ⟨qs, hqs, hrest, hmore⟩ := ih h
    refine ⟨ps ++ qs, ?_, forall_mem_append.2 ⟨hall, hrest⟩, ?_⟩
    · rw [flatMap_cons, hps, hqs, unpair, unpair, unpair, flatMap_append]
    · rw [map_append, hentries, hmore, flatMap_cons]

/-- The keys and values of every record that a logger makes are written on one line. It decodes to
the keys and values of all contexts down to the logger and of the record. -/
theorem log_lines_decode (steps : List LogStep) (i : Nat) (level : LogLevel) (time : Int)
    (message : String) (args : List LogValue)
    (h : ∀ values ∈ (lineages steps).getD i [] ++ [args], Loggable values) :
    let r := (Loggers.run steps).record i level time message args
    ∃ body, .char '\n' ∉ body ∧
      (∀ forTerminal, contextLine none forTerminal r.context = .ok (body ++ [.char '\n'])) ∧
      decodeLine body = some (((lineages steps).getD i [] ++ [args]).flatMap entries) := by
  intro r
  obtain ⟨ps, hps, hall, hentries⟩ := Loggable.flatMap h
  obtain ⟨texts, htexts, hline, hdecode⟩ := pairTexts_unpair hall
  have hcontext : r.context = unpair ps := by
    rw [← hps, flatMap_append, ← context_run]
    simp [r, Loggers.record]
  refine ⟨_, hline, fun forTerminal => ?_, hdecode.trans (by rw [hentries])⟩
  rw [contextLine, hcontext, htexts]
  rfl

/-- A value with a stray byte and a blank, and a list of odd length, on the way to the logger; then a
table. -/
theorem log_lines_decode_grandchild :
    let steps := [LogStep.child 0 [.string [.char 'k'], .string [.stray 0xFF, .char ' ']],
      .child 1 [.string [.char 'l']]]
    let r := (Loggers.run steps).record 2 .info 0 "" [.pairs [("", .int (-1))]]
    ∃ body, contextLine none false r.context = .ok (body ++ [.char '\n']) ∧
      decodeLine body = some [([.char 'k'], [.stray 0xFF, .char ' ']),
        ([.char 'l'], Text.ofString "nil"),
        (errorKey, Text.ofString "Normalized odd number of arguments by adding nil"),
        ([], Text.ofString "-1")] := by
  intro steps
  have hk : IsKey [.char 'k'] := ⟨by decide, by decide⟩
  have hl : IsKey [.char 'l'] := ⟨by decide, by decide⟩
  have hempty : IsKey [] := ⟨by decide, by decide⟩
  obtain ⟨body, -, hline, hdecode⟩ :=
    log_lines_decode steps 2 .info 0 "" [.pairs [("", .int (-1))]] (by
      simp only [steps, lineages, foldl_cons, foldl_nil, lineageStep, getD_cons_succ,
        getD_cons_zero, cons_append, nil_append, forall_mem_cons]
      exact ⟨.list (.pair hk (.string ⟨by decide, trivial⟩) .nil), .list (.lone hl),
        .table (forall_mem_singleton.2 ⟨hempty, .int _⟩), by simp⟩)
  exact ⟨body, hline false, hdecode⟩

end WatScript
