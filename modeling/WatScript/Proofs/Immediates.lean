import Mathlib.Data.Nat.Digits.Defs
import WatScript.Text.Numeral
import WatScript.Wat.Op

/-!
# Immediates

What the immediates of generated instructions read back as. The decimal text of a 32 bit integer reads
back as that integer (`Numeral.int32?_const`). A `$name` is no numeral, so a label is looked up by
its text and never taken for a distance (`Numeral.int64?_ident`), and the labels of a loop and of its
block differ from each other and from the empty label of an `if` (`blockLabel_ne_loopLabel`).
-/

namespace WatScript

theorem Text.toChars_ofString (s : String) : (Text.ofString s).toChars = s.toList := by
  simp only [Text.toChars, Text.ofString, List.map_map]
  exact List.map_id _

theorem Text.ofString_injective {s t} (h : Text.ofString s = Text.ofString t) : s = t := by
  have hl := congrArg Text.toChars h
  rw [Text.toChars_ofString, Text.toChars_ofString] at hl
  exact String.toList_injective hl

namespace Numeral

/-! ## Decimal numerals -/

theorem digitValue?_digitChar : ∀ d < 10, digitValue? (Nat.digitChar d) = some d := by decide

theorem readDigits_append (base bound : Nat) (free : Bool) (ds es : List Char) : ∀ n : Nat,
    readDigits base bound free n (ds ++ es) =
      readDigits base bound free n ds >>= fun m => readDigits base bound free m es := by
  induction ds with
  | nil => intro n; rfl
  | cons c ds ih =>
    intro n
    simp only [List.cons_append, readDigits]
    repeat' split
    all_goals first | exact ih _ | rfl

theorem readDigits_toDigits {bound} (n : Nat) (hn : n ≤ bound) :
    readDigits 10 bound false 0 (Nat.toDigits 10 n) = .ok n := by
  induction n using Nat.strongRecOn with
  | ind n ih =>
    have hd : n % 10 < 10 := Nat.mod_lt _ (by decide)
    have hvalue : n / 10 * 10 + n % 10 = n := by omega
    rw [Nat.toDigits_eq_if (by decide)]
    split
    · rename_i hlt
      simp [readDigits, digitValue?_digitChar n hlt, Nat.not_le.2 hlt, Nat.not_lt.2 hn]
    · rename_i hge
      rw [readDigits_append, ih (n / 10) (by omega) (by omega)]
      simp [bind, Except.bind, readDigits, digitValue?_digitChar _ hd, Nat.not_le.2 hd, hvalue,
        Nat.not_lt.2 hn]

theorem unsigned_toDigits {bits n} (hn : n < 2 ^ bits) :
    unsigned 10 bits (Nat.toDigits 10 n) = .ok n := by
  have hne : (Nat.toDigits 10 n).isEmpty = false := by simp
  rw [unsigned, hne]
  exact readDigits_toDigits n (Nat.le_sub_one_of_lt hn)

theorem decimal_toDigits {bits n} (hn : n < 2 ^ (bits - 1)) :
    decimal bits (Nat.toDigits 10 n) = .ok (n : Int) := by
  have hle : 2 ^ (bits - 1) ≤ 2 ^ bits := Nat.pow_le_pow_right (by decide) (Nat.sub_le _ _)
  have hread := unsigned_toDigits (Nat.lt_of_lt_of_le hn hle)
  have hdigits : ∀ c ∈ Nat.toDigits 10 n, c.isDigit = true := fun c hc =>
    Nat.isDigit_of_mem_toDigits (by decide) (by decide) hc
  unfold decimal withSign
  split
  · rename_i heq
    simp at heq
  · rename_i heq
    exact absurd (hdigits '-' (heq ▸ List.mem_cons_self)) (by decide)
  · rename_i heq
    exact absurd (hdigits '+' (heq ▸ List.mem_cons_self)) (by decide)
  · rw [hread]
    simp [bind, Except.bind, pure, Except.pure, hn]

theorem decimal_neg_toDigits {bits n} (hb : 0 < bits) (hn : n ≤ 2 ^ (bits - 1)) :
    decimal bits ('-' :: Nat.toDigits 10 n) = .ok (-(n : Int)) := by
  have hlt : 2 ^ (bits - 1) < 2 ^ bits := Nat.pow_lt_pow_right (by decide) (by omega)
  simp [decimal, withSign, unsigned_toDigits (Nat.lt_of_le_of_lt hn hlt), bind, Except.bind, pure,
    Except.pure, hn]

theorem decimal_toString {bits n} (hb : 0 < bits) (hlo : -2 ^ (bits - 1) ≤ n)
    (hhi : n < 2 ^ (bits - 1)) : decimal bits (toString n).toList = .ok n := by
  rw [Int.toString_eq_repr, Int.repr_eq_if]
  split
  · rename_i hpos
    have hlt : n.toNat < 2 ^ (bits - 1) := by
      rw [Int.toNat_lt hpos]
      simpa using hhi
    rw [Nat.repr_eq_ofList_toDigits, String.toList_ofList, decimal_toDigits hlt,
      Int.toNat_of_nonneg hpos]
  · have hneg : (-n).toNat ≤ 2 ^ (bits - 1) := by
      rw [Int.toNat_le]
      simpa using Int.neg_le_of_neg_le hlo
    rw [Nat.repr_eq_ofList_toDigits, String.toList_append, @String.toList_ofList (Nat.toDigits _ _)]
    refine (decimal_neg_toDigits hb hneg).trans ?_
    rw [Int.toNat_of_nonneg (by omega), Int.neg_neg]

theorem int32?_toString (v : Int32) : int32? (toString v.toInt).toList = some v := by
  rw [int32?, decimal_toString (by decide) v.le_toInt v.toInt_lt]
  exact congrArg some (Int32.ofInt_toInt v)

theorem int32?_const (v : Int32) : int32? (Instr.const v).imm.toChars = some v := by
  rw [Instr.const, Text.toChars_ofString]
  exact int32?_toString v

theorem int64?_ident (name : String) : int64? (Instr.ident name).toChars = none := by
  have hhead : (Instr.ident name).toChars = '$' :: name.toList := by
    rw [← Text.toChars_ofString name]
    rfl
  rw [hhead]
  rfl

end Numeral

/-! ## Labels -/

namespace Instr

theorem ident_injective {m n} (h : ident m = ident n) : m = n :=
  Text.ofString_injective (List.cons.inj h).2

/-- The block of a loop is not named as any loop. -/
theorem blockLabel_ne_loopLabel (m n : Int64) : blockLabel m ≠ loopLabel n := by
  intro h
  have hl := congrArg String.toList (ident_injective h)
  simp at hl

theorem ident_ne_nil (name : String) : ident name ≠ [] := List.cons_ne_nil _ _

end Instr

end WatScript
