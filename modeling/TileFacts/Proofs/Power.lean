import TileFacts.Proofs.Word
import Mathlib.Data.Nat.Factorization.Basic

/-! The greatest power of two that divides a word.

In two's complement a word and its negative share the lowest bit that is set and differ in all bits
above it, so what they have in common is that bit alone (`Word.lowestBit`). It is the greatest power
of two that divides the word, signed or not. `Word.powerDivisor` is that bit, no larger than the
largest tracked power, to which zero is given (`Word.powerDivisor_eq`). Main statement:
`Word.powerDivisor_greatest`. -/
namespace TileFacts.Word

/-- The lowest bit that is set in a word, alone. -/
def lowestBit (n : Int64) : UInt64 := n.toUInt64 &&& -n.toUInt64

/-! ### Two's complement -/

/-- A number with lowest bit `k`, less one, has that bit cleared, those below set and those above
kept; the negative of the number has the opposite of each. -/
theorem and_two_pow_sub {k q width : Nat} (hlt : 2 ^ (k + 1) * q + 2 ^ k < 2 ^ width) :
    (2 ^ (k + 1) * q + 2 ^ k) &&& (2 ^ width - (2 ^ (k + 1) * q + 2 ^ k)) = 2 ^ k := by
  have hpos : 0 < 2 ^ k := Nat.two_pow_pos k
  have hk : k < width := (Nat.pow_lt_pow_iff_right Nat.one_lt_two).mp (by omega)
  have hbelow : 2 ^ k < 2 ^ (k + 1) := Nat.pow_lt_pow_right (by decide) (by omega)
  have hpred : 2 ^ width - (2 ^ (k + 1) * q + 2 ^ k) =
      2 ^ width - (2 ^ (k + 1) * q + (2 ^ k - 1) + 1) := by omega
  apply Nat.eq_of_testBit_eq
  intro i
  rw [Nat.testBit_and, hpred, Nat.testBit_two_pow_sub_succ (by omega),
    Nat.testBit_two_pow_mul_add _ hbelow, Nat.testBit_two_pow_mul_add _ (by omega),
    Nat.testBit_two_pow_sub_one, Nat.testBit_two_pow]
  by_cases hi : i < k + 1
  · by_cases hik : k = i
    · subst hik
      simp [hk]
    · simp [hi, hik]
  · have hne : k ≠ i := by omega
    simp only [hi, hne, if_false, decide_false]
    cases q.testBit (i - (k + 1)) <;> simp

theorem toNat_ne_zero {n : Int64} (h : n ≠ 0) : n.toUInt64.toNat ≠ 0 := by
  intro hzero
  apply h
  apply eq_of_modEq
  have hmod := toNat_modEq n
  rw [hzero] at hmod
  exact hmod.symm

/-- A word other than zero is its lowest bit and a multiple of twice that bit. -/
theorem exists_lowestBit {n : Int64} (h : n ≠ 0) :
    ∃ k q, n.toUInt64.toNat = 2 ^ (k + 1) * q + 2 ^ k ∧ (lowestBit n).toNat = 2 ^ k := by
  obtain ⟨k, odd, ⟨q, rfl⟩, hn⟩ := Nat.exists_eq_two_pow_mul_odd (toNat_ne_zero h)
  have hsplit : 2 ^ k * (2 * q + 1) = 2 ^ (k + 1) * q + 2 ^ k := by ring
  rw [hsplit] at hn
  have hlt := n.toUInt64.toNat_lt
  have hpos := Nat.two_pow_pos k
  refine ⟨k, q, hn, ?_⟩
  rw [lowestBit, UInt64.toNat_and, UInt64.toNat_neg, UInt64.size, Nat.mod_eq_of_lt (by omega), hn]
  exact and_two_pow_sub (hn ▸ hlt)

/-! ### Divisors -/

/-- A power of two up to the size of words divides both readings of a word, or neither. -/
theorem two_pow_dvd_toInt_iff {n : Int64} {k : Nat} (hk : k ≤ 64) :
    2 ^ k ∣ n.toInt ↔ 2 ^ k ∣ n.toUInt64.toNat := by
  have hdvd : (2 : Int) ^ k ∣ 2 ^ 64 := pow_dvd_pow 2 hk
  rw [← ((toNat_modEq n).of_dvd hdvd).dvd_iff]
  exact_mod_cast Iff.rfl

/-- The power divisor of a word whose lowest bit is `k`. -/
theorem toInt_powerDivisor {n : Int64} {k q : Nat}
    (h : n.toUInt64.toNat = 2 ^ (k + 1) * q + 2 ^ k) : (powerDivisor n).toInt = 2 ^ min k 62 := by
  have hlt := n.toUInt64.toNat_lt
  have hk : k < 64 := (Nat.pow_lt_pow_iff_right Nat.one_lt_two).mp (by omega)
  obtain ⟨p, hp, hpow⟩ := isPower_powerDivisor n
  have hle : p ≤ k := by
    by_contra hgt
    have hdvd := powerDivisor_dvd n
    rw [hpow, two_pow_dvd_toInt_iff (by omega), h] at hdvd
    have hnext : 2 ^ (k + 1) ∣ 2 ^ k :=
      (Nat.dvd_add_right (dvd_mul_right ..)).mp ((pow_dvd_pow 2 (by omega)).trans hdvd)
    have := (Nat.pow_dvd_pow_iff_le_right Nat.one_lt_two).mp hnext
    omega
  have hge : min k 62 ≤ p := by
    apply le_of_two_pow_dvd
    rw [← hpow]
    apply two_pow_dvd_powerDivisor (Nat.min_le_right ..)
    rw [two_pow_dvd_toInt_iff (by omega), h]
    have hsmall : 2 ^ min k 62 ∣ 2 ^ k := pow_dvd_pow 2 (Nat.min_le_left ..)
    have hlarge : 2 ^ k ∣ 2 ^ (k + 1) * q := (pow_dvd_pow 2 (Nat.le_succ k)).mul_right q
    exact hsmall.trans (dvd_add hlarge (dvd_refl _))
  have hmin : p = min k 62 := by omega
  rw [hpow, hmin]

theorem toNat_min_maxPower {b : UInt64} {k : Nat} (h : b.toNat = 2 ^ k) :
    (min b maxPower.toUInt64).toNat = 2 ^ min k 62 := by
  have hmax : maxPower.toUInt64.toNat = 2 ^ 62 := by decide
  have hiff : b ≤ maxPower.toUInt64 ↔ k ≤ 62 := by
    rw [UInt64.le_iff_toNat_le, h, hmax, Nat.pow_le_pow_iff_right Nat.one_lt_two]
  show (if b ≤ maxPower.toUInt64 then b else maxPower.toUInt64).toNat = _
  by_cases hk : k ≤ 62
  · rw [if_pos (hiff.mpr hk), h, Nat.min_eq_left hk]
  · rw [if_neg (mt hiff.mp hk), hmax, Nat.min_eq_right (by omega)]

/-- The power divisor is the lowest bit, as far as powers are tracked. -/
theorem powerDivisor_eq (n : Int64) : powerDivisor n =
    if n = 0 then maxPower else (min (lowestBit n) maxPower.toUInt64).toInt64 := by
  by_cases h : n = 0
  · rw [if_pos h, h]
    decide
  · rw [if_neg h]
    obtain ⟨k, q, hn, hbit⟩ := exists_lowestBit h
    apply eq_of_modEq
    calc (powerDivisor n).toInt
        = 2 ^ min k 62 := toInt_powerDivisor hn
      _ = ((min (lowestBit n) maxPower.toUInt64).toNat : Int) := by
          rw [toNat_min_maxPower hbit]
          norm_cast
      _ ≡ (min (lowestBit n) maxPower.toUInt64).toInt64.toInt [ZMOD 2 ^ 64] :=
          (toInt_toInt64_modEq _).symm

/-- The power divisor of a word, zero and the least word included, is a tracked power of two that
divides it, and every tracked power of two that divides the word divides it. It is what a word has
in common with its negative in two's complement, no larger than the largest tracked power. -/
theorem powerDivisor_greatest (n : Int64) :
    (∃ k ≤ 62, (powerDivisor n).toInt = 2 ^ k) ∧
    (powerDivisor n).toInt ∣ n.toInt ∧
    (∀ q : Int, (∃ k, q = 2 ^ k) → q ≤ 2 ^ 62 → q ∣ n.toInt → q ∣ (powerDivisor n).toInt) ∧
    powerDivisor n =
      if n = 0 then maxPower else (min (lowestBit n) maxPower.toUInt64).toInt64 := by
  refine ⟨isPower_powerDivisor n, powerDivisor_dvd n, ?_, powerDivisor_eq n⟩
  rintro q ⟨k, rfl⟩ hle hdvd
  have hk : k ≤ 62 := (pow_le_pow_iff_right₀ (by decide)).mp hle
  exact two_pow_dvd_powerDivisor hk hdvd

end TileFacts.Word
