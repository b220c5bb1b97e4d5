import TileFacts.Proofs.Rule.Arithmetic
import TileFacts.Rule.Quotient

/-! Unsigned remainders along a line.

The remainder rule speaks where the dividend counts up by one over the whole line and the
divisor stands still. A remainder keeps its residue modulo whatever divides the divisor
(`evaluate_remU_modEq`), and it counts up with the dividend until that divides the dividend
again (`evaluate_remU_succ`): neither the word nor the remainder wraps in between. Of signed
remainders this is not true, since those of negative dividends count towards zero. -/
namespace TileFacts

theorem evaluate_remU {a b c : Int64} (h : BinaryOp.remU.evaluate a b = some c) :
    c.toInt ≡ (a.toUInt64.toNat % b.toUInt64.toNat : Nat) [ZMOD 2 ^ 64] := by
  simp only [BinaryOp.evaluate] at h
  split at h
  · cases h
  · cases h
    refine (Word.toInt_toInt64_modEq _).trans ?_
    rw [UInt64.toNat_mod]

/-- A remainder keeps the residue modulo every divisor of the divisor. -/
theorem evaluate_remU_modEq {m a b c : Int64} (hm : Word.IsPower m)
    (h : BinaryOp.remU.evaluate a b = some c) (hb : m.toInt ∣ b.toInt) :
    c.toInt ≡ a.toInt [ZMOD m.toInt] := by
  have hdvd : m.toInt ∣ (b.toUInt64.toNat : Int) :=
    (hm.of_modEq (Word.toNat_modEq b)).dvd_iff.mpr hb
  refine (hm.of_modEq (evaluate_remU h)).trans ?_
  push_cast
  have hrem : ((a.toUInt64.toNat : Int) % b.toUInt64.toNat) ≡ a.toUInt64.toNat [ZMOD m.toInt] :=
    (Int.mod_modEq _ _).of_dvd hdvd
  exact hrem.trans (hm.of_modEq (Word.toNat_modEq a))

theorem succ_mod_of_not_dvd {x y : Nat} (h : ¬ y ∣ x + 1) : (x + 1) % y = x % y + 1 := by
  rcases Nat.eq_zero_or_pos y with rfl | hy
  · simp
  have hsplit : x + 1 = x % y + 1 + y * (x / y) := by
    have := Nat.mod_add_div x y
    omega
  have hlt := Nat.mod_lt x hy
  have hne : x % y + 1 ≠ y := by
    intro heq
    refine h ⟨1 + x / y, ?_⟩
    rw [hsplit, heq]
    ring
  calc (x + 1) % y
      = (x % y + 1 + y * (x / y)) % y := by rw [← hsplit]
    _ = (x % y + 1) % y := Nat.add_mul_mod_self_left ..
    _ = x % y + 1 := Nat.mod_eq_of_lt (by omega)

/-- The remainder counts up with the dividend as long as a divisor of the divisor does not
divide the dividend. -/
theorem evaluate_remU_succ {m a b c d : Int64} (hm : Word.IsPower m)
    (hc : BinaryOp.remU.evaluate a b = some c) (hd : BinaryOp.remU.evaluate (a + 1) b = some d)
    (hb : m.toInt ∣ b.toInt) (ha : ¬ m.toInt ∣ (a + 1).toInt) : d = c + 1 := by
  have hbdvd : m.toInt ∣ (b.toUInt64.toNat : Int) :=
    (hm.of_modEq (Word.toNat_modEq b)).dvd_iff.mpr hb
  have hadvd : ¬ m.toInt ∣ ((a + 1).toUInt64.toNat : Int) := fun h =>
    ha ((hm.of_modEq (Word.toNat_modEq (a + 1))).dvd_iff.mp h)
  have hsucc := hm.toNat_succ ha
  have hrem := succ_mod_of_not_dvd (x := a.toUInt64.toNat) (y := b.toUInt64.toNat) fun hdvd =>
    hadvd (by rw [hsucc]; exact hbdvd.trans (by exact_mod_cast hdvd))
  apply Word.eq_of_modEq
  calc d.toInt
      ≡ ((a + 1).toUInt64.toNat % b.toUInt64.toNat : Nat) [ZMOD 2 ^ 64] := evaluate_remU hd
    _ = (a.toUInt64.toNat % b.toUInt64.toNat : Nat) + 1 := by
      rw [hsucc, hrem]
      push_cast
      rfl
    _ ≡ c.toInt + 1 [ZMOD 2 ^ 64] := (evaluate_remU hc).symm.add_right 1
    _ ≡ (c + 1).toInt [ZMOD 2 ^ 64] := (Word.toInt_add_modEq c 1).symm

namespace Rule

variable {l r : Lane} {n : Nat} {x y z : Nat → Int64} {extent : Int64}

/-- A contiguous dividend meets a divisor that is constant. -/
def CountsUp (l r : Lane) (extent : Int64) : Prop :=
  l.isContiguousOver extent = true ∧ r.isConstantOver extent = true

instance (l r : Lane) (extent : Int64) : Decidable (CountsUp l r extent) :=
  inferInstanceAs (Decidable (_ ∧ _))

theorem CountsUp.remainderAxis_eq (h : CountsUp l r extent) : remainderAxis l r extent =
    ⟨Word.gcd l.divisibility r.divisibility,
      Word.gcd l.contiguity (Word.gcd l.divisibility r.divisibility), 1⟩ := by
  simp [remainderAxis, h.1, h.2]

theorem remainderAxis_of_not (h : ¬ CountsUp l r extent) : remainderAxis l r extent = .top := by
  unfold CountsUp at h
  rw [← Bool.and_eq_true] at h
  exact if_neg h

/-- Unsigned remainders of a counting line by a standing one count up, in runs of what their
divisors have in common. -/
theorem remainderAxis_describes (hl : l.Describes n x) (hr : r.Describes n y)
    (hn : extent.toInt = n)
    (hz : ∀ p < n, BinaryOp.remU.evaluate (x p) (y p) = some (z p)) :
    (remainderAxis l r extent).Describes n z := by
  by_cases hcounts : CountsUp l r extent
  · rw [hcounts.remainderAxis_eq]
    have hnext {p : Nat} (hp : p + 1 < n) := Axis.Steps.contiguous hl.axis.steps hn hcounts.1 hp
    have hstay {p : Nat} (hp : p + 1 < n) := Axis.Steps.constant hr.axis.steps hn hcounts.2 hp
    have hpow := hl.axis.power.gcd r.divisibility
    have hcl : (Word.gcd l.divisibility r.divisibility).toInt ∣ l.divisibility.toInt :=
      Word.gcd_dvd_left hl.axis.power.pos
    have hcr : (Word.gcd l.divisibility r.divisibility).toInt ∣ r.divisibility.toInt :=
      Word.gcd_dvd_right hl.axis.power.pos
    -- Position `p` is `p` above a multiple of the dividend's divisor, and the divisor is one.
    have hx : ∀ p < n, (x p).toInt ≡ p [ZMOD l.divisibility.toInt] := by
      intro p hp
      rcases Nat.eq_zero_or_pos p with rfl | hpos
      · simpa using hl.axis.congruent hp (.inl rfl)
      · have hs := (hnext (p := 0) (by omega)).1
        have := hl.axis.congruent hp (.inr (by rw [hs]; decide))
        simpa [hs] using this
    have hy : ∀ p < n, r.divisibility.toInt ∣ (y p).toInt := by
      intro p hp
      rcases Nat.eq_zero_or_pos p with rfl | hpos
      · exact hr.axis.head hp
      · have hs := (hstay (p := 0) (by omega)).1
        have := hr.axis.congruent hp (.inr (by rw [hs]; decide))
        exact Int.modEq_zero_iff_dvd.mp (by simpa [hs] using this)
    refine .of_congruent hpow (Word.gcd_pos hl.axis.contiguity_pos) ?_ ?_
    · intro p hp _
      have hres := evaluate_remU_modEq hpow (hz p hp) (hcr.trans (hy p hp))
      simpa using hres.trans ((hx p hp).of_dvd hcl)
    · intro _ p hp hdvd
      have hlast := hz (p + 1) hp
      rw [(hnext hp).2, (hstay hp).2] at hlast
      refine evaluate_remU_succ hpow (hz p (by omega)) hlast (hcr.trans (hy p (by omega))) ?_
      intro hdiv
      rw [← (hnext hp).2] at hdiv
      have hp1 : (Word.gcd l.divisibility r.divisibility).toInt ∣ (p + 1 : Nat) :=
        ((hx (p + 1) hp).of_dvd hcl).dvd_iff.mp hdiv
      exact hdvd ((Word.gcd_dvd_right hl.axis.contiguity_pos).trans hp1)
  · rw [remainderAxis_of_not hcounts]
    exact Axis.describes_top

end Rule

end TileFacts
