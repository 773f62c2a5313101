import Mathlib.Algebra.Group.Int.Defs
import Mathlib.Data.Int.ModEq
import WatScript.Engine.Library

/-!
# Powers of words

`Library.pow` squares and multiplies words, and products of words wrap around. Modulo `2 ^ 32` nothing is
lost by wrapping, so the result is congruent to the power of the integers (`Library.powFrom_modEq`), and it
is the word that multiplying so many times gives (`Library.eq_of_toInt_modEq`). On words the exponent is
shifted right until nothing is left of it: a round keeps the result that the remaining rounds are going to
have, and 31 rounds are enough (`Library.Squaring.rounds_end`).
-/

namespace WatScript

namespace Library

/-! ## Products modulo `2 ^ 32` -/

theorem toInt_mul_modEq (a b : Int32) : (a * b).toInt ≡ a.toInt * b.toInt [ZMOD 2 ^ 32] := by
  rw [Int32.toInt_mul]
  exact Int.bmod_emod

theorem eq_of_toInt_modEq {a b : Int32} (h : a.toInt ≡ b.toInt [ZMOD 2 ^ 32]) : a = b := by
  have ha := a.toInt_lt
  have ha' := a.le_toInt
  have hb := b.toInt_lt
  have hb' := b.le_toInt
  unfold Int.ModEq at h
  exact Int32.toInt_inj.1 (by omega)

/-- A word multiplied `n` times; every product wraps around. -/
def product (base : Int32) : Nat → Int32
  | 0 => 1
  | n + 1 => product base n * base

theorem product_modEq (base : Int32) (n : Nat) :
    (product base n).toInt ≡ base.toInt ^ n [ZMOD 2 ^ 32] := by
  induction n with
  | zero => rw [product, pow_zero, Int32.toInt_one]
  | succ n ih =>
    rw [pow_succ base.toInt n]
    exact (toInt_mul_modEq _ _).trans (ih.mul_right _)

theorem powFrom_modEq (result base : Int32) (n : Nat) :
    (powFrom result base n).toInt ≡ result.toInt * base.toInt ^ n [ZMOD 2 ^ 32] := by
  fun_induction powFrom result base n with
  | case1 result base =>
    rw [pow_zero, mul_one]
  | case2 result base n hn ih =>
    have hsquare : (base * base).toInt ^ (n / 2) ≡ base.toInt ^ (2 * (n / 2)) [ZMOD 2 ^ 32] := by
      rw [pow_mul, pow_two]
      exact (toInt_mul_modEq base base).pow _
    split at ih
    · rename_i hodd
      have hstep : n = 1 + 2 * (n / 2) := by omega
      calc (powFrom (if n % 2 = 1 then result * base else result) (base * base) (n / 2)).toInt
          ≡ (result * base).toInt * (base * base).toInt ^ (n / 2) [ZMOD 2 ^ 32] := by
            rw [if_pos hodd]
            exact ih
        _ ≡ result.toInt * base.toInt * base.toInt ^ (2 * (n / 2)) [ZMOD 2 ^ 32] :=
            (toInt_mul_modEq result base).mul hsquare
        _ = result.toInt * base.toInt ^ n := by
            rw [mul_assoc, ← pow_succ', Nat.add_comm, ← hstep]
    · rename_i heven
      have hstep : n = 2 * (n / 2) := by omega
      calc (powFrom (if n % 2 = 1 then result * base else result) (base * base) (n / 2)).toInt
          ≡ result.toInt * (base * base).toInt ^ (n / 2) [ZMOD 2 ^ 32] := by
            rw [if_neg heven]
            exact ih
        _ ≡ result.toInt * base.toInt ^ (2 * (n / 2)) [ZMOD 2 ^ 32] := hsquare.mul_left _
        _ = result.toInt * base.toInt ^ n := by rw [← hstep]

/-! ## Rounds on words -/

/-- What is kept from one round of squaring to the next. -/
structure Squaring where
  result : Int32
  base : Int32
  exponent : Int32

namespace Squaring
variable {s : Squaring}

/-- Multiplies for the lowest bit of the exponent, and shifts it out. -/
def round (s : Squaring) : Squaring where
  result := if s.exponent &&& 1 = 1 then s.result * s.base else s.result
  base := s.base * s.base
  exponent := s.exponent >>> 1

theorem toInt_shiftRight_one (e : Int32) : (e >>> 1).toInt = e.toInt / 2 := by
  rw [← Int32.toInt_toBitVec, Int32.toBitVec_shiftRight]
  show (e.toBitVec.sshiftRight 1).toInt = _
  rw [BitVec.toInt_sshiftRight, Int32.toInt_toBitVec, Int.shiftRight_eq_div_pow]
  rfl

theorem and_one_eq_one_iff (e : Int32) : e &&& 1 = 1 ↔ e.toInt % 2 = 1 := by
  have hbit : e.toBitVec &&& 1#32 = 1#32 ↔ e.toBitVec.toNat % 2 = 1 := by
    rw [← BitVec.toNat_inj, BitVec.toNat_and]
    show e.toBitVec.toNat &&& 1 = 1 ↔ _
    rw [Nat.and_one_is_mod]
  rw [← Int32.toBitVec_inj, Int32.toBitVec_and, ← Int32.toInt_toBitVec,
    BitVec.toInt_eq_toNat_bmod]
  refine hbit.trans ?_
  have := e.toBitVec.isLt
  rw [Int.bmod_def]
  omega

/-- What the rounds from here on make of the result. -/
def outcome (s : Squaring) : Int32 := powFrom s.result s.base s.exponent.toInt.toNat

theorem outcome_round (h : 0 < s.exponent) : s.round.outcome = s.outcome := by
  have hpos : 0 < s.exponent.toInt := Int32.lt_iff_toInt_lt.1 h
  have hodd : s.exponent &&& 1 = 1 ↔ s.exponent.toInt.toNat % 2 = 1 := by
    rw [and_one_eq_one_iff]
    omega
  have hhalf : (s.exponent >>> 1).toInt.toNat = s.exponent.toInt.toNat / 2 := by
    rw [toInt_shiftRight_one]
    omega
  unfold outcome
  conv_rhs => rw [powFrom, if_neg (by omega)]
  simp only [round, hodd, hhalf]

theorem result_eq_outcome (h : s.exponent = 0) : s.result = s.outcome := by
  simp [outcome, h, powFrom]

/-- The run lemma: an exponent below `2 ^ k` is shifted out in at most `k` rounds, and the result is then
the outcome that it had before the first one. -/
theorem rounds_end (k : Nat) (hnonneg : 0 ≤ s.exponent) (hbound : s.exponent.toInt < 2 ^ k) :
    ∃ n ≤ k, (∀ j < n, 0 < (round^[j] s).exponent) ∧ (round^[n] s).exponent = 0 ∧
      (round^[n] s).result = s.outcome := by
  have hnonneg' : 0 ≤ s.exponent.toInt := Int32.le_iff_toInt_le.1 hnonneg
  induction k generalizing s with
  | zero =>
    have hzero : s.exponent = 0 := by
      apply Int32.toInt_inj.1
      rw [pow_zero] at hbound
      rw [Int32.toInt_zero]
      omega
    exact ⟨0, Nat.le_refl 0, fun j hj => absurd hj (Nat.not_lt_zero j), hzero,
      result_eq_outcome hzero⟩
  | succ k ih =>
    by_cases hzero : s.exponent = 0
    · exact ⟨0, Nat.zero_le _, fun j hj => absurd hj (Nat.not_lt_zero j), hzero,
        result_eq_outcome hzero⟩
    · have hne : s.exponent.toInt ≠ 0 := fun h => hzero (Int32.toInt_inj.1 h)
      have hpos : 0 < s.exponent := by
        rw [Int32.lt_iff_toInt_lt, Int32.toInt_zero]
        omega
      have hhalf : s.round.exponent.toInt = s.exponent.toInt / 2 := toInt_shiftRight_one _
      have hround : 0 ≤ s.round.exponent.toInt := by omega
      obtain ⟨n, hn, hbefore, hend, hresult⟩ := @ih s.round (Int32.le_iff_toInt_le.2 hround)
        (by rw [pow_succ] at hbound; omega) hround
      refine ⟨n + 1, by omega, fun j hj => ?_, hend, hresult.trans (outcome_round hpos)⟩
      cases j with
      | zero => exact hpos
      | succ j => exact hbefore j (by omega)

end Squaring

/-! ## The host -/

/-- The host under the name `pow` gives the power modulo `2 ^ 32`, which is also the product of words, and
fails for negative exponents only. The rounds go on while the exponent is positive, and end. -/
theorem pow_host_gives_power (base n : Int32) (history : History) :
    ∃ h, functions.lookup "pow" = some h ∧
      (n < 0 → h.call history [base, n] = history.reply (.error negativeExponent)) ∧
      (0 ≤ n → ∃ r, h.call history [base, n] = history.reply (.ok [r]) ∧
        r.toInt ≡ base.toInt ^ n.toInt.toNat [ZMOD 2 ^ 32] ∧
        r = product base n.toInt.toNat ∧
        ∃ k ≤ 31, (∀ j < k, 0 < (Squaring.round^[j] ⟨1, base, n⟩).exponent) ∧
          (Squaring.round^[k] ⟨1, base, n⟩).exponent = 0 ∧
          (Squaring.round^[k] ⟨1, base, n⟩).result = r) := by
  refine ⟨_, rfl, fun hneg => ?_, fun hnonneg => ?_⟩
  · simp [host2, pow, hneg, Host.ofFunction]
  · have hpower : (powFrom 1 base n.toInt.toNat).toInt ≡ base.toInt ^ n.toInt.toNat [ZMOD 2 ^ 32] := by
      have h := powFrom_modEq 1 base n.toInt.toNat
      rwa [Int32.toInt_one, one_mul] at h
    have hproduct : powFrom 1 base n.toInt.toNat = product base n.toInt.toNat :=
      eq_of_toInt_modEq (hpower.trans (product_modEq _ _).symm)
    refine ⟨_, ?_, hpower, hproduct, Squaring.rounds_end 31 hnonneg n.toInt_lt⟩
    have hnot : ¬n < 0 := Int32.not_lt.2 hnonneg
    simp [host2, pow, hnot, Host.ofFunction]

/-- The last square and the last product both overflow. -/
theorem pow_host_gives_power_wrapped :
    ∃ h history, functions.lookup "pow" = some h ∧
      h.call history [-3, 21] = history.reply (.ok [-1870418611]) ∧
      h.call history [-3, -21] = history.reply (.error negativeExponent) := by
  obtain ⟨h, hh, -, hpower⟩ := pow_host_gives_power (-3) 21 ⟨[], []⟩
  obtain ⟨h', hh', hfails, -⟩ := pow_host_gives_power (-3) (-21) ⟨[], []⟩
  obtain ⟨r, hr, -, hproduct, -⟩ := hpower (by decide)
  have hvalue : product (-3) (21 : Int32).toInt.toNat = -1870418611 := by decide
  rw [hproduct, hvalue] at hr
  rw [Option.some.inj (hh'.symm.trans hh)] at hfails
  exact ⟨h, _, hh, hr, hfails (by decide)⟩

end Library

end WatScript
