import WatScript.Codegen.Number
import WatScript.Proofs.MachineRuns
import WatScript.Proofs.VerifiedCode

/-!
# Number literals

Which words are number literals, and with which values (`IsNumber`), said by the digits that they are
written with. Reading accepts exactly these words (`parseNumber_ok_iff`). The bound of a base is checked
after each digit; values only grow, so the check at the last digit implies all the others
(`Numeral.readDigits_ok_iff`).
-/

namespace WatScript

open List

variable {base n : Nat} {cs : List Char} {w : String}

namespace Numeral

/-! ## Digits -/

/-- The character writes the digit `d` of the base; the letters may be in either case. -/
def IsDigit (base : Nat) (c : Char) (d : Nat) : Prop :=
  d < base ∧ (c = Nat.digitChar d ∨ c = (Nat.digitChar d).toUpper)

/-- The characters are digits of the base, the highest first, and their value is `n`. -/
def Writes (base : Nat) (cs : List Char) (n : Nat) : Prop :=
  cs ≠ [] ∧ ∃ ds, Forall₂ (IsDigit base) cs ds ∧ n = Nat.ofDigits base ds.reverse

theorem digitValue?_of_isDigit : ∀ d < 16,
    digitValue? (Nat.digitChar d) = some d ∧ digitValue? (Nat.digitChar d).toUpper = some d := by
  decide

theorem char_of_digitValue : ∀ d < 16, (d < 10 → Char.ofNat (d + 48) = Nat.digitChar d) ∧
    (10 ≤ d → Char.ofNat (d + 87) = Nat.digitChar d) ∧
    (10 ≤ d → Char.ofNat (d + 55) = (Nat.digitChar d).toUpper) := by
  decide

theorem digitValue?_iff (hbase : base ≤ 16) {c d} :
    digitValue? c = some d ∧ d < base ↔ IsDigit base c d := by
  constructor
  · rintro ⟨hd, hlt⟩
    refine ⟨hlt, ?_⟩
    obtain ⟨hdec, hlow, hup⟩ := char_of_digitValue d (by omega)
    have hc : ∀ k, c.toNat = k → c = Char.ofNat k := fun k hk => hk ▸ (Char.ofNat_toNat c).symm
    simp only [digitValue?, Bool.and_eq_true, decide_eq_true_eq, Char.le_def, UInt32.le_iff_toNat_le]
      at hd
    split at hd
    · rename_i hrange
      obtain rfl : c.toNat - 48 = d := Option.some.inj hd
      have hr : 48 ≤ c.toNat ∧ c.toNat ≤ 57 := hrange
      exact .inl ((hc _ (by omega)).trans (hdec (by omega)))
    · split at hd
      · rename_i hrange
        obtain rfl : c.toNat - 87 = d := Option.some.inj hd
        have hr : 97 ≤ c.toNat ∧ c.toNat ≤ 122 := hrange
        exact .inl ((hc _ (by omega)).trans (hlow (by omega)))
      · split at hd
        · rename_i hrange
          obtain rfl : c.toNat - 55 = d := Option.some.inj hd
          have hr : 65 ≤ c.toNat ∧ c.toNat ≤ 90 := hrange
          exact .inr ((hc _ (by omega)).trans (hup (by omega)))
        · cases hd
  · rintro ⟨hlt, rfl | rfl⟩
    · exact ⟨(digitValue?_of_isDigit d (by omega)).1, hlt⟩
    · exact ⟨(digitValue?_of_isDigit d (by omega)).2, hlt⟩

/-! ## Values -/

theorem ofDigits_shift (base n d : Nat) (ds : List Nat) :
    Nat.ofDigits base (ds ++ [n * base + d]) = Nat.ofDigits base (ds ++ [d, n]) := by
  simp [Nat.ofDigits_append, Nat.ofDigits_cons, Nat.mul_comm, Nat.add_comm]

theorem le_ofDigits_append (hbase : 0 < base) (ds : List Nat) (n : Nat) :
    n ≤ Nat.ofDigits base (ds ++ [n]) := by
  rw [Nat.ofDigits_append, Nat.ofDigits_singleton]
  exact Nat.le_add_left_of_le (Nat.le_mul_of_pos_left n (Nat.pow_pos hbase))

variable {base bound : Nat}

theorem readDigits_ok_iff (hbase : 0 < base ∧ base ≤ 16) : ∀ {n m}, n ≤ bound →
    (readDigits base bound false n cs = .ok m ↔
      ∃ ds, Forall₂ (IsDigit base) cs ds ∧ m = Nat.ofDigits base (ds.reverse ++ [n]) ∧ m ≤ bound) := by
  induction cs with
  | nil =>
    intro n m hn
    simp only [readDigits, Except.ok.injEq, forall₂_nil_left_iff, exists_eq_left, reverse_nil,
      nil_append, Nat.ofDigits_singleton]
    exact ⟨fun h => h ▸ ⟨rfl, hn⟩, fun h => h.1.symm⟩
  | cons c cs ih =>
    intro n m hn
    constructor
    · intro h
      simp only [readDigits, Bool.false_and, Bool.false_eq_true, if_false] at h
      split at h
      · cases h
      · rename_i d hd
        split_ifs at h with hlarge hover
        obtain ⟨ds, hds, hm, hle⟩ := (ih (by omega)).1 h
        refine ⟨d :: ds, .cons ((digitValue?_iff hbase.2).1 ⟨hd, by omega⟩) hds, ?_, hle⟩
        rw [hm, ofDigits_shift]
        simp
    · rintro ⟨all, hall, hm, hle⟩
      obtain ⟨d, ds, hd, hds, rfl⟩ := forall₂_cons_left_iff.1 hall
      obtain ⟨hvalue, hlt⟩ := (digitValue?_iff hbase.2).2 hd
      have hm : m = Nat.ofDigits base (ds.reverse ++ [n * base + d]) := by
        rw [hm, ofDigits_shift]
        simp
      have hnext : n * base + d ≤ bound := (hm ▸ le_ofDigits_append hbase.1 _ _).trans hle
      simp only [readDigits, Bool.false_and, Bool.false_eq_true, if_false, hvalue,
        if_neg (Nat.not_le.2 hlt), if_neg (Nat.not_lt.2 hnext)]
      exact (ih hnext).2 ⟨ds, hds, hm, hle⟩

theorem unsigned_ok_iff (hbase : 0 < base ∧ base ≤ 16) {bits m} :
    unsigned base bits cs = .ok m ↔ Writes base cs m ∧ m < 2 ^ bits := by
  have hbound : m ≤ Nat.pow 2 bits - 1 ↔ m < 2 ^ bits :=
    (Nat.lt_iff_le_pred (Nat.pow_pos (by decide))).symm
  cases cs with
  | nil => simp [unsigned, Writes]
  | cons c cs =>
    simp only [unsigned, isEmpty_cons, Bool.false_eq_true, if_false,
      readDigits_ok_iff hbase (Nat.zero_le _), hbound, Nat.ofDigits_append, Nat.ofDigits_singleton,
      Nat.mul_zero, Nat.add_zero, Writes]
    constructor
    · rintro ⟨ds, hds, hm, hlt⟩
      exact ⟨⟨by simp, ds, hds, hm⟩, hlt⟩
    · rintro ⟨⟨-, ds, hds, hm⟩, hlt⟩
      exact ⟨ds, hds, hm, hlt⟩

end Numeral

open Numeral (IsDigit Writes)

/-! ## Literals -/

/-- The letters that mark a base, with the base. -/
def baseMarks : List (Char × Nat) := [('x', 16), ('X', 16), ('b', 2), ('B', 2)]

/-- The word begins with a decimal digit and does not end in an underscore. -/
def IsNumberShaped (w : String) : Prop :=
  (∃ c d, w.toList.head? = some c ∧ IsDigit 10 c d) ∧ w.toList.getLast? ≠ some '_'

/-- The characters of a word that are no underscores. -/
def bare (w : String) : List Char := w.toList.filter (· != '_')

/-- The word is a number literal of this value. Decimal literals are signed; behind a base mark stand the
32 bits of the value in two's complement. -/
inductive IsNumber : String → Int → Prop
  | yes : IsNumber "true" 1
  | no : IsNumber "false" 0
  | decimal {w : String} {n : Nat} : IsNumberShaped w → Writes 10 (bare w) n → n ≤ 2 ^ 31 - 1 →
      IsNumber w n
  | marked {w : String} {mark : Char} {base : Nat} {digits : List Char} {n : Nat} : IsNumberShaped w →
      (mark, base) ∈ baseMarks → bare w = '0' :: mark :: digits → Writes base digits n → n < 2 ^ 32 →
      IsNumber w (if n < 2 ^ 31 then n else n - 2 ^ 32)

theorem not_writes_mark {mark} (hmark : (mark, base) ∈ baseMarks) : ¬Writes 10
    ('0' :: mark :: cs) n := by
  rintro ⟨-, ds, hds, -⟩
  obtain ⟨_, _, -, hrest, -⟩ := forall₂_cons_left_iff.1 hds
  obtain ⟨d, _, hd, -, -⟩ := forall₂_cons_left_iff.1 hrest
  obtain ⟨hvalue, hlt⟩ := (Numeral.digitValue?_iff (by decide)).2 hd
  simp only [baseMarks, mem_cons, Prod.mk.injEq, not_mem_nil, or_false] at hmark
  obtain ⟨rfl, -⟩ | ⟨rfl, -⟩ | ⟨rfl, -⟩ | ⟨rfl, -⟩ := hmark <;>
    (cases hvalue; revert hlt; decide)

theorem parseDigits_marked {mark} (hmark : (mark, base) ∈ baseMarks)
    (cs : List Char) : (0 < base ∧ base ≤ 16) ∧
      parseDigits ('0' :: mark :: cs) = Numeral.unsigned base 32 cs := by
  simp only [baseMarks, mem_cons, Prod.mk.injEq, not_mem_nil, or_false] at hmark
  obtain ⟨rfl, rfl⟩ | ⟨rfl, rfl⟩ | ⟨rfl, rfl⟩ | ⟨rfl, rfl⟩ := hmark <;> exact ⟨by decide, rfl⟩

theorem parseDigits_cases (cs : List Char) :
    (∃ mark base rest, (mark, base) ∈ baseMarks ∧ cs = '0' :: mark :: rest) ∨
      parseDigits cs = Numeral.unsigned 10 31 cs := by
  unfold parseDigits
  split
  · exact .inl ⟨'x', 16, _, by decide, rfl⟩
  · exact .inl ⟨'X', 16, _, by decide, rfl⟩
  · exact .inl ⟨'b', 2, _, by decide, rfl⟩
  · exact .inl ⟨'B', 2, _, by decide, rfl⟩
  · exact .inr rfl

theorem parseDigits_ok_iff : parseDigits cs = .ok n ↔ (Writes 10 cs n ∧ n < 2 ^ 31) ∨
      ∃ mark base digits, (mark, base) ∈ baseMarks ∧ cs = '0' :: mark :: digits ∧
        Writes base digits n ∧ n < 2 ^ 32 := by
  constructor
  · intro h
    obtain ⟨mark, base, rest, hmark, rfl⟩ | hdec := parseDigits_cases cs
    · obtain ⟨hbase, heq⟩ := parseDigits_marked hmark rest
      rw [heq, Numeral.unsigned_ok_iff hbase] at h
      exact .inr ⟨mark, base, rest, hmark, rfl, h⟩
    · rw [hdec, Numeral.unsigned_ok_iff (by decide)] at h
      exact .inl h
  · rintro (⟨hw, hlt⟩ | ⟨mark, base, digits, hmark, rfl, h⟩)
    · obtain ⟨mark, base, rest, hmark, rfl⟩ | hdec := parseDigits_cases cs
      · exact absurd hw (not_writes_mark hmark)
      · exact hdec.trans ((Numeral.unsigned_ok_iff (by decide)).2 ⟨hw, hlt⟩)
    · obtain ⟨hbase, heq⟩ := parseDigits_marked hmark digits
      exact heq.trans ((Numeral.unsigned_ok_iff hbase).2 h)

/-! ## Reading literals -/

theorem isDigit_ten_iff {c} : (∃ d, IsDigit 10 c d) ↔ ('0' ≤ c && c ≤ '9') = true := by
  constructor
  · rintro ⟨d, hd, hc⟩
    revert hc
    have hten : ∀ d < 10, Nat.digitChar d = (Nat.digitChar d).toUpper ∧
        ('0' ≤ Nat.digitChar d && Nat.digitChar d ≤ '9') = true := by decide
    rw [← (hten d hd).1, or_self]
    rintro rfl
    exact (hten d hd).2
  · intro h
    have hvalue : Numeral.digitValue? c = some (c.toNat - 48) := if_pos h
    simp only [Bool.and_eq_true, decide_eq_true_eq, Char.le_def, UInt32.le_iff_toNat_le] at h
    have hr : 48 ≤ c.toNat ∧ c.toNat ≤ 57 := h
    exact ⟨_, (Numeral.digitValue?_iff (by decide)).1 ⟨hvalue, by omega⟩⟩

theorem isNumberShaped_iff (ht : w ≠ "true") (hf : w ≠ "false") :
    IsNumberShaped w ↔ (!isNumeric w || w.toList.getLast? == some '_') = false := by
  have hhead : isNumeric w = true ↔ ∃ c d, w.toList.head? = some c ∧ IsDigit 10 c d := by
    simp only [isNumeric, beq_eq_false_iff_ne.2 ht, beq_eq_false_iff_ne.2 hf, Bool.false_or,
      Option.any_eq_true, ← isDigit_ten_iff, exists_and_left]
  rw [IsNumberShaped, ← hhead]
  simp

theorem IsNumberShaped.ne_truth (h : IsNumberShaped w) : w ≠ "true" ∧ w ≠ "false" := by
  obtain ⟨⟨c, d, hc, hd⟩, -⟩ := h
  have hten := isDigit_ten_iff.1 ⟨d, hd⟩
  refine ⟨?_, ?_⟩ <;> rintro rfl <;> cases hc <;> exact absurd hten (by decide)

/-- A word of the right shape is read as its digits are. -/
theorem IsNumberShaped.parseNumber_ok_iff (h : IsNumberShaped w) {v} :
    parseNumber w = .ok v ↔ ∃ n : Nat, parseDigits (bare w) = .ok n ∧ Int32.ofInt n = v := by
  obtain ⟨ht, hf⟩ := h.ne_truth
  have hshape := (isNumberShaped_iff ht hf).1 h
  simp only [parseNumber, beq_eq_false_iff_ne.2 ht, beq_eq_false_iff_ne.2 hf, hshape,
    Bool.false_eq_true, if_false, bare]
  cases parseDigits (w.toList.filter (· != '_')) with
  | ok n => simp
  | error e => simp

theorem toInt_ofInt_natCast (h : n < 2 ^ 32) :
    (Int32.ofInt n).toInt = if n < 2 ^ 31 then (n : Int) else n - 2 ^ 32 := by
  rw [Int32.toInt_ofInt, Int.bmod_def, Int32.size]
  split_ifs <;> omega

/-- Reading accepts the number literals, with their values. -/
theorem parseNumber_ok_iff {v : Int32} : parseNumber w = .ok v ↔ IsNumber w v.toInt := by
  constructor
  · intro h
    by_cases ht : w = "true"
    · subst ht
      obtain rfl : 1 = v := Except.ok.inj h
      exact .yes
    by_cases hf : w = "false"
    · subst hf
      obtain rfl : 0 = v := Except.ok.inj h
      exact .no
    by_cases hshape : IsNumberShaped w
    · obtain ⟨n, hn, rfl⟩ := hshape.parseNumber_ok_iff.1 h
      obtain ⟨hw, hlt⟩ | ⟨mark, base, digits, hmark, hbare, hw, hlt⟩ := parseDigits_ok_iff.1 hn
      · rw [toInt_ofInt_natCast (by omega), if_pos hlt]
        exact .decimal hshape hw (Nat.le_sub_one_of_lt hlt)
      · rw [toInt_ofInt_natCast hlt]
        exact .marked hshape hmark hbare hw hlt
    · rw [isNumberShaped_iff ht hf, Bool.not_eq_false] at hshape
      simp [parseNumber, ht, hf, hshape] at h
  · intro h
    generalize hx : v.toInt = x at h
    cases h with
    | yes => exact congrArg Except.ok (Int32.toInt_inj.1 hx.symm)
    | no => exact congrArg Except.ok (Int32.toInt_inj.1 hx.symm)
    | @decimal _ n hshape hw hle =>
      have hlt : n < 2 ^ 31 := by omega
      refine hshape.parseNumber_ok_iff.2 ⟨n, parseDigits_ok_iff.2 (.inl ⟨hw, hlt⟩), Int32.toInt_inj.1 ?_⟩
      rw [hx, toInt_ofInt_natCast (by omega), if_pos hlt]
    | @marked _ mark base digits n hshape hmark hbare hw hlt =>
      refine hshape.parseNumber_ok_iff.2
        ⟨n, parseDigits_ok_iff.2 (.inr ⟨mark, base, digits, hmark, hbare, hw, hlt⟩), Int32.toInt_inj.1 ?_⟩
      rw [hx, toInt_ofInt_natCast hlt]

theorem IsNumber.fits {x} (h : IsNumber w x) : ∃ v : Int32, v.toInt = x := by
  have hrange : -2 ^ 31 ≤ x ∧ x < 2 ^ 31 := by
    cases h with
    | yes | no => decide
    | decimal _ _ hle => omega
    | marked _ _ _ _ hlt => split <;> omega
  exact ⟨Int32.ofInt x, Int32.toInt_ofInt_of_le hrange.1 hrange.2⟩

/-! ## Constants -/

/-- A word reads as `v` if and only if it is a literal of that value, and any word that is no literal is an
invalid number. The constant that is written for `v` shows no fault wherever it stands, and pushes `v`. -/
theorem number_literals_read_exactly :
    (∀ (w : String) (v : Int32), parseNumber w = .ok v ↔ IsNumber w v.toInt) ∧
    (∀ w : String, parseNumber w = .error .invalidNumber ↔ ¬∃ x, IsNumber w x) ∧
    ∀ v : Int32,
      (∀ offset frames rest,
        verifyFrom offset frames (.const v :: rest) = verifyFrom (offset + 1) frames rest) ∧
      ∀ (m : Machine) (s : State), m.exec s (.const v) = .next (s.withStack (s.stack.push v)) := by
  refine ⟨fun w v => parseNumber_ok_iff, fun w => ⟨?_, ?_⟩, fun v => ⟨?_, fun m s => m.exec_const s v⟩⟩
  · rintro herror ⟨x, hx⟩
    obtain ⟨v, rfl⟩ := hx.fits
    rw [parseNumber_ok_iff.2 hx] at herror
    cases herror
  · intro hnone
    cases hread : parseNumber w with
    | ok v => exact absurd ⟨_, parseNumber_ok_iff.1 hread⟩ hnone
    | error e => rw [parseNumber_error hread]
  · intro offset frames rest
    rw [verifyFrom, verifyInstr_const]
    rfl

end WatScript
