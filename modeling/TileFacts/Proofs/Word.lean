import TileFacts.Word
import Mathlib.Data.Int.ModEq
import Mathlib.Data.Nat.Prime.Basic
import Mathlib.Tactic.Ring
import Mathlib.Tactic.NormNum

/-! Words as integers modulo `2 ^ 64`.

Sums, differences, products and left shifts of words are those of integers up to multiples
of `2 ^ 64`, whichever way the words are read (`toInt_add_modEq` and its siblings). Facts
speak of divisors that are powers of two up to `2 ^ 62` (`IsPower`); each divides `2 ^ 64`,
so what such a divisor says of a word survives wrapping (`IsPower.of_modEq`). The divisors
that rules compute stay such powers. -/
namespace TileFacts.Word

/-! ### Wrapping -/

theorem bmod_modEq (n : Int) : n.bmod (2 ^ 64) ≡ n [ZMOD 2 ^ 64] := by
  exact_mod_cast Int.bmod_emod (x := n) (m := 2 ^ 64)

theorem toInt_add_modEq (a b : Int64) : (a + b).toInt ≡ a.toInt + b.toInt [ZMOD 2 ^ 64] := by
  rw [Int64.toInt_add]
  exact bmod_modEq _

theorem toInt_sub_modEq (a b : Int64) : (a - b).toInt ≡ a.toInt - b.toInt [ZMOD 2 ^ 64] := by
  rw [Int64.toInt_sub]
  exact bmod_modEq _

theorem toInt_mul_modEq (a b : Int64) : (a * b).toInt ≡ a.toInt * b.toInt [ZMOD 2 ^ 64] := by
  rw [Int64.toInt_mul]
  exact bmod_modEq _

theorem toInt_ofNat_modEq (n : Nat) : (Int64.ofNat n).toInt ≡ n [ZMOD 2 ^ 64] := by
  rw [Int64.toInt_ofNat']
  exact bmod_modEq _

theorem toInt_ofInt_modEq (n : Int) : (Int64.ofInt n).toInt ≡ n [ZMOD 2 ^ 64] := by
  rw [Int64.toInt_ofInt]
  exact bmod_modEq _

/-- Words with one residue are one word. -/
theorem eq_of_modEq {a b : Int64} (h : a.toInt ≡ b.toInt [ZMOD 2 ^ 64]) : a = b := by
  have ha := a.le_toInt
  have ha' := a.toInt_lt
  have hb := b.le_toInt
  have hb' := b.toInt_lt
  obtain ⟨k, hk⟩ := Int.modEq_iff_dvd.mp h
  have hk0 : k = 0 := by omega
  subst hk0
  exact Int64.toInt_inj.mp (by omega)

/-- The unsigned reading of a word has the residue of the signed one. -/
theorem toNat_modEq (a : Int64) : (a.toUInt64.toNat : Int) ≡ a.toInt [ZMOD 2 ^ 64] := by
  have h : a.toInt = (a.toUInt64.toNat : Int).bmod (2 ^ 64) :=
    BitVec.toInt_eq_toNat_bmod a.toBitVec
  rw [h]
  exact (bmod_modEq _).symm

theorem toInt_toInt64_modEq (u : UInt64) : u.toInt64.toInt ≡ u.toNat [ZMOD 2 ^ 64] :=
  (toNat_modEq u.toInt64).symm

theorem toInt_of_checkedSub {a b c : Int64} (h : checkedSub a b = .ok c) :
    c.toInt = a.toInt - b.toInt := by
  unfold checkedSub inRange at h
  split at h
  · next w hw =>
    cases h
    exact ofInt?_eq_some.mp hw
  · cases h

theorem checkedDiv_eq_ok {a b c : Int64} :
    checkedDiv a b = .ok c ↔ b ≠ 0 ∧ divOverflows a b = false ∧ a / b = c := by
  unfold checkedDiv
  split
  · simp_all
  · split <;> simp_all

/-- A remainder of zero tells a divisor, and any other remainder that there is none. -/
theorem checkedRem_eq_zero_iff {a b rest : Int64} (h : checkedRem a b = .ok rest) :
    rest = 0 ↔ b.toInt ∣ a.toInt := by
  have hmod : a % b = rest := by
    unfold checkedRem at h
    split at h
    · cases h
    · split at h
      · cases h
      · exact Except.ok.inj h
  rw [← hmod, ← Int64.toInt_inj, Int64.toInt_mod, Int.dvd_iff_tmod_eq_zero]
  rfl

theorem min_cases (a b : Int64) : min a b = a ∨ min a b = b ∧ b.toInt < a.toInt := by
  by_cases h : a ≤ b
  · exact .inl (if_pos h)
  · refine .inr ⟨if_neg h, ?_⟩
    have := mt Int64.le_iff_toInt_le.mpr h
    omega

theorem toInt_min (a b : Int64) : (min a b).toInt = min a.toInt b.toInt := by
  by_cases h : a ≤ b
  · rw [show min a b = a from if_pos h, min_eq_left (Int64.le_iff_toInt_le.mp h)]
  · rw [show min a b = b from if_neg h,
      min_eq_right (not_le.mp (mt Int64.le_iff_toInt_le.mpr h)).le]

theorem max_cases (a b : Int64) : max a b = a ∨ max a b = b := by
  by_cases h : a ≤ b
  · exact .inr (if_pos h)
  · exact .inl (if_neg h)

theorem max_comm (a b : Int64) : max a b = max b a := by
  show (if a ≤ b then b else a) = if b ≤ a then a else b
  simp only [Int64.le_iff_toInt_le]
  split
  · next hab =>
    split
    · next hba => exact Int64.toInt_inj.mp (le_antisymm hba hab)
    · rfl
  · next hab => rw [if_pos (by omega)]

/-! ### Shifts -/

/-- A usable shift amount is a number below 64. -/
theorem isShiftAmount_iff {s : Int64} : isShiftAmount s = true ↔ 0 ≤ s.toInt ∧ s.toInt < 64 := by
  have h64 : (64 : Int64).toInt = 64 := by decide
  simp only [isShiftAmount, Bool.and_eq_true, decide_eq_true_eq, Int64.le_iff_toInt_le,
    Int64.lt_iff_toInt_lt, Int64.toInt_zero, h64]

section Shift

variable {s : Int64} (h : 0 ≤ s.toInt ∧ s.toInt < 64)
include h

theorem checkedShl_of_small (a : Int64) : checkedShl a s = .ok (a <<< s) :=
  if_pos (isShiftAmount_iff.mpr h)

theorem checkedShr_of_small (a : Int64) : checkedShr a s = .ok (a >>> s) :=
  if_pos (isShiftAmount_iff.mpr h)

/-- The bits of a small shift amount are the amount. -/
theorem toNat_toBitVec_of_small : s.toBitVec.toNat = s.toInt.toNat := by
  have hmod := toNat_modEq s
  have hlt : s.toBitVec.toNat < 2 ^ 64 := s.toBitVec.isLt
  have hs : (s.toUInt64.toNat : Int) = s.toBitVec.toNat := rfl
  rw [hs] at hmod
  obtain ⟨k, hk⟩ := Int.modEq_iff_dvd.mp hmod
  omega

theorem smod_of_small : (s.toBitVec.smod 64).toNat = s.toInt.toNat := by
  have hs : s.toBitVec.toInt = s.toInt := rfl
  have hsmod : (s.toBitVec.smod 64).toInt = s.toInt := by
    rw [BitVec.toInt_smod, hs]
    show s.toInt.fmod 64 = s.toInt
    rw [Int.fmod_eq_emod_of_nonneg _ (by decide)]
    omega
  have hmod := toNat_modEq (Int64.ofBitVec (s.toBitVec.smod 64))
  have hlt : (s.toBitVec.smod 64).toNat < 2 ^ 64 := (s.toBitVec.smod 64).isLt
  have hl : ((Int64.ofBitVec (s.toBitVec.smod 64)).toUInt64.toNat : Int) =
      (s.toBitVec.smod 64).toNat := rfl
  have hr : (Int64.ofBitVec (s.toBitVec.smod 64)).toInt = (s.toBitVec.smod 64).toInt := rfl
  rw [hl, hr, hsmod] at hmod
  obtain ⟨k, hk⟩ := Int.modEq_iff_dvd.mp hmod
  omega

/-- A left shift multiplies by a power of two. -/
theorem toInt_shiftLeft_modEq (a : Int64) :
    (a <<< s).toInt ≡ a.toInt * 2 ^ s.toInt.toNat [ZMOD 2 ^ 64] := by
  have hbits : (a <<< s).toInt = (a.toBitVec <<< s.toBitVec.smod 64).toInt := by
    rw [← Int64.toBitVec_shiftLeft]
    rfl
  rw [hbits, BitVec.shiftLeft_eq', smod_of_small h, BitVec.toInt_shiftLeft, Nat.shiftLeft_eq]
  push_cast
  refine (bmod_modEq _).trans ?_
  exact (toNat_modEq a).mul_right _

/-- A left shift is the wrapped product with a power of two. -/
theorem shiftLeft_eq_ofInt (a : Int64) : a <<< s = Int64.ofInt (a.toInt * 2 ^ s.toInt.toNat) :=
  eq_of_modEq ((toInt_shiftLeft_modEq h a).trans (toInt_ofInt_modEq _).symm)

/-- An arithmetic right shift divides by a power of two and rounds down. -/
theorem toInt_shiftRight (a : Int64) : (a >>> s).toInt = a.toInt / 2 ^ s.toInt.toNat := by
  have hbits : (a >>> s).toInt = (a.toBitVec.sshiftRight' (s.toBitVec.smod 64)).toInt := by
    rw [← Int64.toBitVec_shiftRight]
    rfl
  rw [hbits, BitVec.sshiftRight_eq', smod_of_small h, BitVec.toInt_sshiftRight,
    Int.shiftRight_eq_div_pow]
  push_cast
  rfl

/-- A logical right shift divides the unsigned reading. -/
theorem toNat_shiftRight (a : Int64) :
    (a.toUInt64 >>> s.toUInt64).toNat = a.toUInt64.toNat / 2 ^ s.toInt.toNat := by
  have hs : s.toUInt64.toNat = s.toInt.toNat := toNat_toBitVec_of_small h
  rw [UInt64.toNat_shiftRight, hs, Nat.shiftRight_eq_div_pow, Nat.mod_eq_of_lt (by omega)]

end Shift

/-! ### Tracked powers of two -/

/-- A divisor that facts may speak of. -/
def IsPower (m : Int64) : Prop := ∃ k ≤ 62, m.toInt = 2 ^ k

theorem IsPower.pos {m : Int64} (h : IsPower m) : 0 < m.toInt := by
  obtain ⟨k, _, hk⟩ := h
  rw [hk]
  positivity

theorem IsPower.dvd_size {m : Int64} (h : IsPower m) : m.toInt ∣ 2 ^ 64 := by
  obtain ⟨k, hk62, hk⟩ := h
  rw [hk]
  exact pow_dvd_pow 2 (by omega)

/-- Words that agree up to wrapping agree up to multiples of a tracked power. -/
theorem IsPower.of_modEq {m : Int64} (h : IsPower m) {x y : Int} (hxy : x ≡ y [ZMOD 2 ^ 64]) :
    x ≡ y [ZMOD m.toInt] :=
  hxy.of_dvd h.dvd_size

/-- A word wraps at multiples of every tracked power: before any other word nothing wraps. -/
theorem IsPower.toInt_succ {m a : Int64} (hm : IsPower m) (h : ¬ m.toInt ∣ (a + 1).toInt) :
    (a + 1).toInt = a.toInt + 1 := by
  have hone : (1 : Int64).toInt = 1 := rfl
  have hmin : (a + 1).toInt ≠ -2 ^ 63 := by
    intro hmin
    obtain ⟨k, hk, hmk⟩ := hm
    rw [hmin, hmk] at h
    exact h (Int.dvd_neg.mpr (pow_dvd_pow 2 (by omega)))
  obtain ⟨k, hk⟩ := Int.modEq_iff_dvd.mp (toInt_add_modEq a 1)
  have := a.le_toInt
  have := a.toInt_lt
  have := (a + 1).le_toInt
  have := (a + 1).toInt_lt
  omega

theorem IsPower.toNat_succ {m a : Int64} (hm : IsPower m) (h : ¬ m.toInt ∣ (a + 1).toInt) :
    (a + 1).toUInt64.toNat = a.toUInt64.toNat + 1 := by
  have hadd : (a + 1).toUInt64.toNat = (a.toUInt64.toNat + 1) % 2 ^ 64 := by
    rw [Int64.toUInt64_add, UInt64.toNat_add]
    rfl
  have hlt := a.toUInt64.toNat_lt
  by_cases hwrap : a.toUInt64.toNat + 1 = 2 ^ 64
  · have hzero : (a + 1).toUInt64.toNat = 0 := by omega
    have hmod := toNat_modEq (a + 1)
    rw [hzero] at hmod
    exact absurd ((hm.of_modEq hmod).dvd_iff.mp (dvd_zero _)) h
  · omega

theorem isPower_one : IsPower 1 := ⟨0, by decide, by decide⟩

theorem isPower_maxPower : IsPower maxPower := ⟨62, by decide, by decide⟩

/-! ### Greatest common divisors -/

theorem toInt_gcd_of_pos {a b : Int64} (ha : 0 < a.toInt) :
    (gcd a b).toInt = Int.gcd a.toInt b.toInt := by
  have hle : Nat.gcd a.toInt.natAbs b.toInt.natAbs ≤ a.toInt.natAbs :=
    Nat.gcd_le_left _ (by omega)
  have hlt := a.toInt_le
  rw [toInt_gcd]
  show _ = ((Nat.gcd a.toInt.natAbs b.toInt.natAbs : Nat) : Int)
  omega

theorem gcd_pos {a b : Int64} (ha : 0 < a.toInt) : 0 < (gcd a b).toInt := by
  rw [toInt_gcd_of_pos ha]
  exact_mod_cast Int.gcd_pos_of_ne_zero_left b.toInt (by omega)

theorem gcd_dvd_left {a b : Int64} (ha : 0 < a.toInt) : (gcd a b).toInt ∣ a.toInt := by
  rw [toInt_gcd_of_pos ha]
  exact Int.gcd_dvd_left ..

theorem gcd_dvd_right {a b : Int64} (ha : 0 < a.toInt) : (gcd a b).toInt ∣ b.toInt := by
  rw [toInt_gcd_of_pos ha]
  exact Int.gcd_dvd_right ..

/-- What a power of two has in common with anything is a power of two. -/
theorem IsPower.gcd {a : Int64} (ha : IsPower a) (b : Int64) : IsPower (gcd a b) := by
  have hdvd := gcd_dvd_left (b := b) ha.pos
  have hpos := gcd_pos (b := b) ha.pos
  obtain ⟨k, hk62, hk⟩ := ha
  rw [hk] at hdvd
  obtain ⟨j, hj, heq⟩ := (Nat.dvd_prime_pow Nat.prime_two).mp (Int.natAbs_dvd_natAbs.mpr hdvd)
  refine ⟨j, hj.trans hk62, ?_⟩
  have hnat : (Word.gcd a b).toInt = ((Word.gcd a b).toInt.natAbs : Int) := by omega
  rw [hnat, heq]
  norm_num

theorem isPower_powerDivisor (n : Int64) : IsPower (powerDivisor n) := by
  rw [powerDivisor, gcd_comm]
  exact isPower_maxPower.gcd n

theorem powerDivisor_dvd (n : Int64) : (powerDivisor n).toInt ∣ n.toInt := by
  rw [powerDivisor, gcd_comm]
  exact gcd_dvd_right isPower_maxPower.pos

theorem gcd_dvd_gcd {a b c d : Int64} (ha : 0 < a.toInt) (hc : 0 < c.toInt)
    (hac : a.toInt ∣ c.toInt) (hbd : b.toInt ∣ d.toInt) : (gcd a b).toInt ∣ (gcd c d).toInt := by
  rw [toInt_gcd_of_pos hc]
  exact Int.dvd_coe_gcd ((gcd_dvd_left ha).trans hac) ((gcd_dvd_right ha).trans hbd)

theorem gcd_one_left (b : Int64) : gcd 1 b = 1 :=
  Int64.toInt_inj.mp (Int.eq_one_of_dvd_one (gcd_pos (by decide)).le (gcd_dvd_left (by decide)))

/-- No tracked power of two that divides a word is larger than its power divisor. -/
theorem two_pow_dvd_powerDivisor {n : Int64} {k : Nat} (hk : k ≤ 62) (h : 2 ^ k ∣ n.toInt) :
    2 ^ k ∣ (powerDivisor n).toInt := by
  have hmax : 2 ^ k ∣ maxPower.toInt := pow_dvd_pow 2 hk
  rw [powerDivisor, gcd_comm, toInt_gcd_of_pos isPower_maxPower.pos]
  exact Int.dvd_coe_gcd hmax h

theorem IsPower.dvd_powerDivisor {m n : Int64} (hm : IsPower m) (h : m.toInt ∣ n.toInt) :
    m.toInt ∣ (powerDivisor n).toInt := by
  obtain ⟨k, hk, hmk⟩ := hm
  rw [hmk] at h ⊢
  exact two_pow_dvd_powerDivisor hk h

/-! ### Lengths of runs -/

theorem max_of_dvd_left {a b : Int64} (hb : 0 < b.toInt) (h : a.toInt ∣ b.toInt) : max a b = b :=
  if_pos (Int64.le_iff_toInt_le.mpr (Int.le_of_dvd hb h))

/-- `n` elements can be cut into runs of this length. -/
structure Cuts (run : Int64) (n : Nat) : Prop where
  pos : 0 < run.toInt
  dvd : run.toInt ∣ n

theorem cuts_one (n : Nat) : Cuts 1 n := ⟨by decide, by simp⟩

theorem Cuts.gcd {a : Int64} {n : Nat} (h : Cuts a n) (b : Int64) : Cuts (gcd a b) n :=
  ⟨gcd_pos h.pos, (gcd_dvd_left h.pos).trans h.dvd⟩

theorem Cuts.max {a b : Int64} {n : Nat} (ha : Cuts a n) (hb : Cuts b n) : Cuts (max a b) n := by
  cases max_cases a b with
  | inl h =>
    rw [h]
    exact ha
  | inr h =>
    rw [h]
    exact hb

/-! ### Scaling -/

/-- A quotient of powers of two is one of the difference of their exponents. -/
theorem toInt_max_one_of_quotient {q : Int64} {k j : Nat} (hq : q.toInt = 2 ^ k / 2 ^ j) :
    (max q 1).toInt = 2 ^ (k - j) := by
  have hone : (1 : Int64).toInt = 1 := by decide
  by_cases hle : j ≤ k
  · have hquot : q.toInt = 2 ^ (k - j) := by
      rw [hq]
      exact Int.ediv_eq_of_eq_mul_left (by positivity) (by rw [← pow_add]; congr 1; omega)
    have hpos : (1 : Int) ≤ 2 ^ (k - j) := one_le_pow₀ (by decide)
    show (if q ≤ 1 then 1 else q).toInt = _
    split
    · next h =>
      have hq1 := Int64.le_iff_toInt_le.mp h
      omega
    · exact hquot
  · have hzero : q.toInt = 0 := by
      rw [hq]
      exact Int.ediv_eq_zero_of_lt (by positivity) (pow_lt_pow_right₀ (by decide) (by omega))
    have hle1 : q ≤ 1 := Int64.le_iff_toInt_le.mpr (by omega)
    show (if q ≤ 1 then 1 else q).toInt = _
    rw [if_pos hle1, Nat.sub_eq_zero_of_le (by omega)]
    exact hone

/-- A quotient of powers of two is one of their difference, or gives way to one. -/
theorem max_one_of_quotient {q : Int64} {k j : Nat} (hq : q.toInt = 2 ^ k / 2 ^ j) :
    max q 1 = 1 ∨ j ≤ k ∧ (max q 1).toInt = 2 ^ (k - j) := by
  have hmax := toInt_max_one_of_quotient hq
  by_cases hle : j ≤ k
  · exact .inr ⟨hle, hmax⟩
  · rw [Nat.sub_eq_zero_of_le (by omega)] at hmax
    exact .inl (Int64.toInt_inj.mp hmax)

theorem isPower_max_one {q : Int64} {k j : Nat} (hk : k ≤ 62) (hq : q.toInt = 2 ^ k / 2 ^ j) :
    IsPower (max q 1) :=
  ⟨k - j, by omega, toInt_max_one_of_quotient hq⟩

theorem toInt_ofNat_of_small {n : Nat} (h : n < 2 ^ 63) : (Int64.ofNat n).toInt = n :=
  Int64.toInt_ofNat_of_lt h

theorem log2_of_power {m : Int64} {k : Nat} (h : m.toInt = 2 ^ k) : log2 m = k := by
  have hnat : m.toInt.toNat = 2 ^ k := by
    rw [h]
    norm_cast
  rw [log2, hnat, Nat.log2_two_pow]

/-- Words that have no highest bit are not asked for it. -/
theorem checkedLog2_eq (n : Int64) : checkedLog2 n = .ok (log2 n) := by
  unfold checkedLog2
  split
  · next h =>
    have hle : n.toInt ≤ 1 := Int64.le_iff_toInt_le.mp h
    have hsmall : n.toInt.toNat = 0 ∨ n.toInt.toNat = 1 := by omega
    rcases hsmall with hn | hn <;> rw [log2, hn] <;> rfl
  · next h =>
    have hgt : ¬ n.toInt ≤ 1 := fun hle => h (Int64.le_iff_toInt_le.mpr hle)
    have hpos : 0 < n := Int64.lt_iff_toInt_lt.mpr (show 0 < n.toInt by omega)
    exact if_pos hpos

theorem log2_lt (n : Int64) : log2 n < 64 := by
  have hn := n.toInt_lt
  rcases Nat.eq_zero_or_pos n.toInt.toNat with h0 | hpos
  · simp [log2, h0]
  · exact (Nat.log2_lt (by omega)).mpr (by omega)

theorem toInt_of_isPowerOfTwo {n : Int64} (h : isPowerOfTwo n = true) :
    n.toInt = 2 ^ log2 n := by
  simp only [isPowerOfTwo, Bool.and_eq_true, decide_eq_true_eq, beq_iff_eq,
    Int64.lt_iff_toInt_lt, Nat.shiftLeft_eq, one_mul] at h
  have hpos : (0 : Int) < n.toInt := h.1
  have hcast : n.toInt = (n.toInt.toNat : Int) := by omega
  rw [hcast, ← h.2]
  norm_cast

theorem pos_of_isPowerOfTwo {n : Int64} (h : isPowerOfTwo n = true) : 0 < n.toInt := by
  rw [toInt_of_isPowerOfTwo h]
  positivity

/-- A quotient by a power of two exists and fits. -/
theorem checkedDiv_of_isPowerOfTwo (a : Int64) {b : Int64} (h : isPowerOfTwo b = true) :
    checkedDiv a b = .ok (a / b) := by
  have hpos := pos_of_isPowerOfTwo h
  have hzero : b ≠ 0 := by
    rintro rfl
    exact absurd hpos (by decide)
  have hone : b ≠ -1 := by
    rintro rfl
    exact absurd hpos (by decide)
  exact checkedDiv_eq_ok.mpr ⟨hzero, by simp [divOverflows, hone], rfl⟩

/-- Only powers of two are divided by. -/
theorem checkedScaleDown_eq (divisibility divisor : Int64) :
    checkedScaleDown divisibility divisor = .ok (scaleDown divisibility divisor) := by
  unfold checkedScaleDown scaleDown
  split
  · next h =>
    rw [checkedDiv_of_isPowerOfTwo divisibility h]
    rfl
  · rfl

theorem toInt_div_of_power {a b : Int64} {k j : Nat} (ha : a.toInt = 2 ^ k)
    (hb : b.toInt = 2 ^ j) : (a / b).toInt = 2 ^ k / 2 ^ j := by
  have hne : b ≠ -1 := by
    intro h
    have hpos : (0 : Int) < 2 ^ j := by positivity
    rw [← hb, h] at hpos
    exact absurd hpos (by decide)
  rw [Int64.toInt_div_of_ne_right _ _ hne, ha, hb]
  exact Int.tdiv_eq_ediv_of_nonneg (by positivity)

/-- What is left of a power of two after a division is one. -/
theorem IsPower.scaleDown {m : Int64} (hm : IsPower m) (divisor : Int64) :
    IsPower (scaleDown m divisor) := by
  unfold Word.scaleDown
  split
  · next hdivisor =>
    obtain ⟨k, hk, hmk⟩ := hm
    exact isPower_max_one hk (toInt_div_of_power hmk (toInt_of_isPowerOfTwo hdivisor))
  · exact isPower_one

/-- What is left of a divisor divides quotients of its multiples. -/
theorem IsPower.scaleDown_dvd {m : Int64} (hm : IsPower m) {divisor : Int64}
    (hdivisor : isPowerOfTwo divisor = true) {u : Int} (hu : m.toInt ∣ u) :
    (Word.scaleDown m divisor).toInt ∣ u.tdiv divisor.toInt := by
  obtain ⟨k, _, hmk⟩ := hm
  obtain ⟨v, rfl⟩ := hu
  have hpow := toInt_of_isPowerOfTwo hdivisor
  have hscale : Word.scaleDown m divisor = max (m / divisor) 1 := if_pos hdivisor
  rcases max_one_of_quotient (toInt_div_of_power hmk hpow) with hone | ⟨hle, hquot⟩
  · rw [hscale, hone]
    exact one_dvd _
  · have hsplit : m.toInt = 2 ^ (k - log2 divisor) * 2 ^ log2 divisor := by
      rw [hmk, ← pow_add]
      congr 1
      omega
    rw [hscale, hquot, hsplit, hpow, mul_right_comm, Int.mul_tdiv_cancel _ (by positivity)]
    exact dvd_mul_right ..

theorem le_of_two_pow_dvd {k j : Nat} (h : (2 : Int) ^ k ∣ 2 ^ j) : k ≤ j :=
  (Nat.pow_dvd_pow_iff_le_right Nat.one_lt_two).mp (by exact_mod_cast h)

/-- The more a power of two is, the more of it a division leaves. -/
theorem IsPower.max_one_dvd {m n b : Int64} (hm : IsPower m) (hn : IsPower n)
    (hb : isPowerOfTwo b = true) (h : m.toInt ∣ n.toInt) :
    (max (m / b) 1).toInt ∣ (max (n / b) 1).toInt := by
  have hpow := toInt_of_isPowerOfTwo hb
  obtain ⟨k, _, hk⟩ := hm
  obtain ⟨j, _, hj⟩ := hn
  rw [hk, hj] at h
  have hle := le_of_two_pow_dvd h
  rw [toInt_max_one_of_quotient (toInt_div_of_power hk hpow),
    toInt_max_one_of_quotient (toInt_div_of_power hj hpow)]
  exact pow_dvd_pow 2 (by omega)

/-- With a small shift nothing overflows on the way, and the cap is met in time. -/
theorem scaleUp_of_small {value shift : Int64} (hvalue : 0 < value.toInt)
    (hshift : 0 ≤ shift.toInt ∧ shift.toInt < 64) : scaleUp value shift =
      .ok (if 62 < shift.toInt + log2 value then maxPower else value <<< shift) := by
  have hcond : (value ≤ 0 || shift < 0) = false := by
    simp only [Bool.or_eq_false_iff, decide_eq_false_iff_not, Int64.le_iff_toInt_le,
      Int64.lt_iff_toInt_lt, Int64.toInt_zero]
    omega
  have hlog := log2_lt value
  have hbits : (Int64.ofNat (log2 value)).toInt = log2 value := toInt_ofNat_of_small (by omega)
  have htop : checkedAdd shift (Int64.ofNat (log2 value)) =
      .ok (Int64.ofInt (shift.toInt + log2 value)) := by
    have hmin := Int64.toInt_minValue
    have hmax := Int64.toInt_maxValue
    unfold checkedAdd inRange ofInt?
    rw [hbits, if_pos (by omega)]
  have hcap : 62 < Int64.ofInt (shift.toInt + log2 value) ↔ 62 < shift.toInt + log2 value := by
    have h62 : (62 : Int64).toInt = 62 := by decide
    rw [Int64.lt_iff_toInt_lt, Int64.toInt_ofInt_of_le (by omega) (by omega), h62]
  rw [scaleUp, hcond, checkedLog2_eq, checkedShl_of_small hshift]
  show (do
    let top ← checkedAdd shift (Int64.ofNat (log2 value))
    if 62 < top then return maxPower else .ok (value <<< shift)) = _
  rw [htop]
  show (if _ then _ else _) = _
  simp only [hcap]
  split <;> rfl

/-- Small shifts never overflow. -/
theorem exists_scaleUp (value : Int64) {shift : Int64} (h : shift.toInt < 64) :
    ∃ w, scaleUp value shift = .ok w := by
  by_cases hcond : (value ≤ 0 || shift < 0) = true
  · exact ⟨1, if_pos hcond⟩
  · simp only [Bool.or_eq_true, decide_eq_true_eq, not_or, Int64.le_iff_toInt_le,
      Int64.lt_iff_toInt_lt, Int64.toInt_zero] at hcond
    exact ⟨_, scaleUp_of_small (by omega) (by omega)⟩

/-- A power of two is moved up to a power of two, no further than the largest. -/
theorem scaleUp_eq_ok {value shift : Int64} {k s : Nat} (hv : value.toInt = 2 ^ k) (hs : s < 64)
    (hshift : shift.toInt = s) :
    ∃ w, scaleUp value shift = .ok w ∧ w.toInt = 2 ^ min (k + s) 62 := by
  have hpos : 0 < value.toInt := by
    rw [hv]
    positivity
  refine ⟨_, scaleUp_of_small hpos (by omega), ?_⟩
  rw [log2_of_power hv, hshift]
  by_cases hle : k + s ≤ 62
  · have hlt : (2 : Int) ^ (k + s) < 2 ^ 63 := pow_lt_pow_right₀ (by decide) (by omega)
    have hge : (0 : Int) < 2 ^ (k + s) := by positivity
    rw [if_neg (by omega), shiftLeft_eq_ofInt (by omega), hv, hshift, Int.toNat_natCast, ← pow_add,
      Int64.toInt_ofInt_of_le (by omega) hlt, Nat.min_eq_left hle]
  · rw [if_pos (by omega), Nat.min_eq_right (by omega)]
    decide

/-- A power of two moved up is the product with a power of two, no larger than the largest that is
tracked, and divides the exact product. -/
theorem IsPower.scaleUp {a s : Int64} (ha : IsPower a) (hs : 0 ≤ s.toInt ∧ s.toInt < 64) :
    ∃ w, Word.scaleUp a s = .ok w ∧ IsPower w ∧
      w.toInt = min (a.toInt * 2 ^ s.toInt.toNat) (2 ^ 62) ∧
      w.toInt ∣ a.toInt * 2 ^ s.toInt.toNat := by
  obtain ⟨k, _, hak⟩ := ha
  obtain ⟨w, hw, hpow⟩ := scaleUp_eq_ok hak (by omega : s.toInt.toNat < 64)
    (Int.toNat_of_nonneg hs.1).symm
  have hmono : Monotone fun n : Nat => (2 : Int) ^ n := pow_right_mono₀ (by decide)
  rw [hak, ← pow_add]
  refine ⟨w, hw, ⟨_, Nat.min_le_right .., hpow⟩, ?_, ?_⟩
  · rw [hpow]
    exact hmono.map_min
  · rw [hpow]
    exact pow_dvd_pow 2 (Nat.min_le_left ..)

/-- Moved up by the logarithm of a power of two, a power of two is multiplied by it. -/
theorem IsPower.scaleUp_log2 {a b : Int64} (ha : IsPower a) (hb : IsPower b) :
    ∃ w, Word.scaleUp a (Int64.ofNat (log2 b)) = .ok w ∧ IsPower w ∧
      w.toInt = min (a.toInt * b.toInt) (2 ^ 62) ∧ w.toInt ∣ a.toInt * b.toInt := by
  obtain ⟨j, hj, hbj⟩ := hb
  have hshift : (Int64.ofNat j).toInt = j := toInt_ofNat_of_small (by omega)
  have hscale := ha.scaleUp (s := Int64.ofNat j) (by omega)
  rw [hshift, Int.toNat_natCast, ← hbj] at hscale
  rw [log2_of_power hbj]
  exact hscale

end TileFacts.Word
