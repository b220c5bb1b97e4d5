import TileFacts.Proofs.Word
import TileFacts.Fact
import TileFacts.Operator.Evaluate

/-! What an axis says of a line.

A line is what is met when one index of a tensor runs and the others stand still: `x p` is
the element at position `p`. An axis describes a line (`Axis.Describes`) when its divisor
divides the first element, when a known step leads from each position to the next inside a
run, and when the elements of a known step stay on course: element `p` is `p` steps away from
a multiple of the divisor, whichever run it is in. The last part is what an access needs to be
aligned in every run and not only in the first.

Nothing here is asked of the first element of later runs beyond that. A product keeps the
divisor of its first element and no step, so its later elements may be anything. -/
namespace TileFacts

structure Axis.Describes (a : Axis) (extent : Nat) (x : Nat → Int64) : Prop where
  power : Word.IsPower a.divisibility
  run_pos : 0 < a.run.toInt
  /-- The divisor divides the first element. -/
  head : 0 < extent → a.divisibility.toInt ∣ (x 0).toInt
  /-- A known step is kept from the start of the line, up to multiples of the divisor. -/
  aligned : a.step ≠ unknownStep →
    ∀ p < extent, (x p).toInt ≡ p * a.step.toInt [ZMOD a.divisibility.toInt]
  /-- A known step leads from each element of a run to the next. -/
  steps : a.step ≠ unknownStep →
    ∀ p, p + 1 < extent → ¬ a.run.toInt ∣ (p + 1 : Nat) → x (p + 1) = x p + a.step

namespace Axis

variable {a b : Axis} {n : Nat} {x y : Nat → Int64}

/-- A known step leads from each element of a run to the next, whatever the divisor. -/
def Steps (a : Axis) (n : Nat) (x : Nat → Int64) : Prop := a.step ≠ unknownStep →
  ∀ p, p + 1 < n → ¬ a.run.toInt ∣ (p + 1 : Nat) → x (p + 1) = x p + a.step

/-- Where an axis speaks of an element: at the start, and everywhere if the step is known. -/
def Speaks (a : Axis) (p : Nat) : Prop := p = 0 ∨ a.step ≠ unknownStep

theorem Describes.congruent (h : a.Describes n x) {p : Nat} (hp : p < n) (hs : a.Speaks p) :
    (x p).toInt ≡ p * a.step.toInt [ZMOD a.divisibility.toInt] := by
  rcases hs with rfl | hs
  · have := h.head hp
    simpa using Int.modEq_zero_iff_dvd.mpr this
  · exact h.aligned hs p hp

/-- The two statements about divisors are one, made where the axis speaks. -/
theorem Describes.of_congruent (power : Word.IsPower a.divisibility) (run_pos : 0 < a.run.toInt)
    (congruent : ∀ p < n, a.Speaks p →
      (x p).toInt ≡ p * a.step.toInt [ZMOD a.divisibility.toInt])
    (steps : a.step ≠ unknownStep →
      ∀ p, p + 1 < n → ¬ a.run.toInt ∣ (p + 1 : Nat) → x (p + 1) = x p + a.step) :
    a.Describes n x where
  power := power
  run_pos := run_pos
  head hn := by
    have := congruent 0 hn (.inl rfl)
    exact Int.modEq_zero_iff_dvd.mp (by simpa using this)
  aligned hs p hp := congruent p hp (.inr hs)
  steps := steps

theorem Describes.congr (h : a.Describes n x) (hxy : ∀ p < n, x p = y p) : a.Describes n y where
  power := h.power
  run_pos := h.run_pos
  head hn := by
    rw [← hxy 0 hn]
    exact h.head hn
  aligned hs p hp := by
    rw [← hxy p hp]
    exact h.aligned hs p hp
  steps hs p hp hrun := by
    rw [← hxy p (by omega), ← hxy (p + 1) hp]
    exact h.steps hs p hp hrun

/-! ### Axes that say little, and axes that say all -/

/-- A divisor of one and runs of one say nothing, whatever the step. -/
theorem describes_of_unit (step : Int64) : (⟨1, 1, step⟩ : Axis).Describes n x := by
  have hone : (1 : Int64).toInt = 1 := by decide
  refine .of_congruent Word.isPower_one (by simp [hone]) ?_ ?_
  · intro p _ _
    simp only [hone]
    exact Int.modEq_one
  · intro _ p _ hrun
    exact absurd (by simp [hone]) hrun

theorem describes_top : Axis.top.Describes n x := describes_of_unit unknownStep

/-- A line of one number, with a divisor of it and runs of any length. -/
theorem describes_uniform {m run c : Int64} (hm : Word.IsPower m) (hrun : 0 < run.toInt)
    (hmc : m.toInt ∣ c.toInt) (hx : ∀ p < n, x p = c) : (⟨m, run, 0⟩ : Axis).Describes n x := by
  refine .of_congruent hm hrun ?_ ?_
  · intro p hp _
    rw [hx p hp]
    simpa using Int.modEq_zero_iff_dvd.mpr hmc
  · intro _ p hp _
    rw [hx p (by omega), hx (p + 1) hp]
    simp

theorem describes_constant {run c : Int64} (hrun : 0 < run.toInt) (hx : ∀ p < n, x p = c) :
    (⟨Word.powerDivisor c, run, 0⟩ : Axis).Describes n x :=
  describes_uniform (Word.isPower_powerDivisor c) hrun (Word.powerDivisor_dvd c) hx

/-- There is little to say of an empty line. -/
theorem describes_empty {m run step : Int64} (hm : Word.IsPower m) (hrun : 0 < run.toInt) :
    (⟨m, run, step⟩ : Axis).Describes 0 x := by
  refine .of_congruent hm hrun ?_ ?_
  · intro p hp
    omega
  · intro _ p hp
    omega

/-- Without a step, all there is to say is what divides the first element. -/
theorem describes_of_head {m run : Int64} (hm : Word.IsPower m) (hrun : 0 < run.toInt)
    (hhead : 0 < n → m.toInt ∣ (x 0).toInt) : (⟨m, run, unknownStep⟩ : Axis).Describes n x where
  power := hm
  run_pos := hrun
  head := hhead
  aligned hs := absurd rfl hs
  steps hs := absurd rfl hs

/-! ### Multiples -/

/-- Each of two factors contributes its divisor, and a factor may be given up to multiples of
its own. -/
theorem mul_modEq_mul {m k x s c : Int} (hx : x ≡ s [ZMOD m]) (hc : k ∣ c) :
    x * c ≡ s * c [ZMOD m * k] := by
  rw [Int.modEq_iff_dvd] at hx ⊢
  rw [← sub_mul]
  exact mul_dvd_mul hx hc

/-- The steps of a line multiplied by one factor are multiplied by it, and runs stay runs. -/
theorem Steps.scale (h : a.Steps n x) {c : Int} {m run step : Int64}
    (hy : ∀ p < n, (y p).toInt ≡ (x p).toInt * c [ZMOD 2 ^ 64]) (hra : run.toInt ∣ a.run.toInt)
    (hstep : step ≠ unknownStep →
      a.step ≠ unknownStep ∧ step.toInt ≡ a.step.toInt * c [ZMOD 2 ^ 64]) :
    (⟨m, run, step⟩ : Axis).Steps n y := by
  intro hs p hp hdvd
  obtain ⟨has, hmod⟩ := hstep hs
  have hx := h has p hp fun hr => hdvd (hra.trans hr)
  apply Word.eq_of_modEq
  calc (y (p + 1)).toInt
      ≡ (x (p + 1)).toInt * c [ZMOD 2 ^ 64] := hy (p + 1) hp
    _ ≡ ((x p).toInt + a.step.toInt) * c [ZMOD 2 ^ 64] := by
      rw [hx]
      exact (Word.toInt_add_modEq _ _).mul_right _
    _ = (x p).toInt * c + a.step.toInt * c := by ring
    _ ≡ (y p).toInt + step.toInt [ZMOD 2 ^ 64] := ((hy p (by omega)).add hmod).symm
    _ ≡ (y p + step).toInt [ZMOD 2 ^ 64] := (Word.toInt_add_modEq _ _).symm

/-- A line multiplied by one factor: so are its divisor and its step, and runs stay runs. -/
theorem Describes.scale (h : a.Describes n x) {c : Int} {m run step : Int64}
    (hy : ∀ p < n, (y p).toInt ≡ (x p).toInt * c [ZMOD 2 ^ 64]) (hm : Word.IsPower m)
    (hmc : m.toInt ∣ a.divisibility.toInt * c) (hrun : 0 < run.toInt)
    (hra : run.toInt ∣ a.run.toInt)
    (hstep : step ≠ unknownStep →
      a.step ≠ unknownStep ∧ step.toInt ≡ a.step.toInt * c [ZMOD 2 ^ 64]) :
    (⟨m, run, step⟩ : Axis).Describes n y := by
  refine .of_congruent hm hrun ?_ (Steps.scale h.steps hy hra hstep)
  rintro p hp hs
  refine (hm.of_modEq (hy p hp)).trans ?_
  rcases hs with rfl | hs
  · have hx := h.congruent hp (.inl rfl)
    simpa using (mul_modEq_mul hx (dvd_refl c)).of_dvd hmc
  · obtain ⟨has, hmod⟩ := hstep hs
    refine ((mul_modEq_mul (h.aligned has p hp) (dvd_refl c)).of_dvd hmc).trans ?_
    rw [mul_assoc]
    exact (hm.of_modEq (hmod.mul_left p)).symm

/-! ### Less knowledge -/

/-- Weaker divisors, shorter runs and a forgotten step describe what was described. -/
theorem Describes.weaken (h : a.Describes n x) {m run step : Int64} (hm : Word.IsPower m)
    (hma : m.toInt ∣ a.divisibility.toInt) (hrun : 0 < run.toInt)
    (hra : run.toInt ∣ a.run.toInt) (hstep : step = a.step ∨ step = unknownStep) :
    (⟨m, run, step⟩ : Axis).Describes n x := by
  have hknown : step ≠ unknownStep → step = a.step := fun hs => hstep.resolve_right hs
  refine .of_congruent hm hrun ?_ ?_
  · rintro p hp (rfl | hs)
    · have := h.head hp
      simpa using Int.modEq_zero_iff_dvd.mpr (hma.trans this)
    · have hs' : step = a.step := hknown hs
      subst hs'
      exact (h.aligned hs p hp).of_dvd hma
  · intro hs p hp hdvd
    have hs' : step = a.step := hknown hs
    subst hs'
    exact h.steps hs p hp fun hr => hdvd (hra.trans hr)

theorem join_comm (a b : Axis) : a.join b = b.join a := by
  simp only [join, Word.gcd_comm a.divisibility, Word.gcd_comm a.run, mk.injEq, true_and]
  by_cases h : a.step = b.step
  · simp [h]
  · simp [h, Ne.symm h]

/-- What two axes have in common describes what either describes. -/
theorem Describes.join_left (h : a.Describes n x) (b : Axis) : (a.join b).Describes n x := by
  refine h.weaken (h.power.gcd _) (Word.gcd_dvd_left h.power.pos) (Word.gcd_pos h.run_pos)
    (Word.gcd_dvd_left h.run_pos) ?_
  by_cases hs : a.step = b.step
  · simp [hs]
  · simp [hs]

theorem Describes.join_right (h : b.Describes n x) (a : Axis) : (a.join b).Describes n x := by
  rw [join_comm]
  exact h.join_left a

/-- Two lines described alike, from one of which each element is taken. The choice may change
only between runs. -/
theorem Describes.choice {c : Nat → Prop} [DecidablePred c] {run : Int64} (hx : a.Describes n x)
    (hy : a.Describes n y) (hc : ∀ p, p + 1 < n → ¬ run.toInt ∣ (p + 1 : Nat) → (c (p + 1) ↔ c p)) :
    ({ a with run := Word.gcd a.run run } : Axis).Describes n
      fun p => if c p then x p else y p := by
  refine .of_congruent hx.power (Word.gcd_pos hx.run_pos) ?_ ?_
  · intro p hp hs
    show (if c p then x p else y p).toInt ≡ _ [ZMOD _]
    split
    · exact hx.congruent hp hs
    · exact hy.congruent hp hs
  · intro hs p hp hdvd
    have hrun : ¬ a.run.toInt ∣ (p + 1 : Nat) :=
      fun h => hdvd ((Word.gcd_dvd_left hx.run_pos).trans h)
    have hcond : ¬ run.toInt ∣ (p + 1 : Nat) :=
      fun h => hdvd ((Word.gcd_dvd_right hx.run_pos).trans h)
    have := hc p hp hcond
    by_cases hcp : c p
    · rw [if_pos (this.mpr hcp), if_pos hcp]
      exact hx.steps hs p hp hrun
    · rw [if_neg (mt this.mp hcp), if_neg hcp]
      exact hy.steps hs p hp hrun

/-- Inside a constant run nothing changes. -/
theorem Steps.constancy (h : a.Steps n x) {p : Nat} (hp : p + 1 < n)
    (hrun : ¬ a.constancy.toInt ∣ (p + 1 : Nat)) : x (p + 1) = x p := by
  by_cases hs : a.step = 0
  · have hrun' : ¬ a.run.toInt ∣ (p + 1 : Nat) := by simpa [Axis.constancy, hs] using hrun
    have := h (by rw [hs]; decide) p hp hrun'
    simpa [hs] using this
  · refine absurd ?_ hrun
    simp [Axis.constancy, hs]

/-- The condition of a choice is constant on its constant runs. -/
theorem Describes.constancy_steps (h : a.Describes n x) {p : Nat} (hp : p + 1 < n)
    (hrun : ¬ a.constancy.toInt ∣ (p + 1 : Nat)) : x (p + 1) = x p :=
  Steps.constancy h.steps hp hrun

/-- A line longer than one that is a single run of one step makes that step everywhere. -/
theorem Steps.whole (h : a.Steps n x) {extent step : Int64} (hn : extent.toInt = n)
    (hknown : step ≠ unknownStep) (hc : (if a.step == step then a.run else 1) = extent) {p : Nat}
    (hp : p + 1 < n) : a.step = step ∧ x (p + 1) = x p + step := by
  by_cases hs : a.step = step
  · have hrun : a.run.toInt = n := by
      rw [← hn, ← hc, hs]
      simp
    refine ⟨hs, ?_⟩
    rw [← hs] at hknown ⊢
    refine h hknown p hp fun hdvd => ?_
    rw [hrun] at hdvd
    have := Int.le_of_dvd (by omega) hdvd
    omega
  · have : extent.toInt = 1 := by
      rw [← hc]
      simp [hs]
    omega

theorem Steps.contiguous (h : a.Steps n x) {extent : Int64} (hn : extent.toInt = n)
    (hc : a.isContiguousOver extent = true) {p : Nat} (hp : p + 1 < n) :
    a.step = 1 ∧ x (p + 1) = x p + 1 :=
  h.whole hn (by decide) (beq_iff_eq.mp hc) hp

theorem Steps.constant (h : a.Steps n x) {extent : Int64} (hn : extent.toInt = n)
    (hc : a.isConstantOver extent = true) {p : Nat} (hp : p + 1 < n) :
    a.step = 0 ∧ x (p + 1) = x p := by
  have := h.whole hn (by decide) (beq_iff_eq.mp hc) hp
  simpa using this

theorem constancy_cases (a : Axis) : a.constancy = a.run ∨ a.constancy = 1 := by
  by_cases h : (a.step == 0) = true
  · exact .inl (if_pos h)
  · exact .inr (if_neg h)

theorem contiguity_cases (a : Axis) : a.contiguity = a.run ∨ a.contiguity = 1 := by
  by_cases h : (a.step == 1) = true
  · exact .inl (if_pos h)
  · exact .inr (if_neg h)

theorem constancy_cuts {n : Nat} (h : Word.Cuts a.run n) : Word.Cuts a.constancy n := by
  cases a.constancy_cases with
  | inl hrun => exact hrun ▸ h
  | inr hone => exact hone ▸ Word.cuts_one n

theorem contiguity_cuts {n : Nat} (h : Word.Cuts a.run n) : Word.Cuts a.contiguity n := by
  cases a.contiguity_cases with
  | inl hrun => exact hrun ▸ h
  | inr hone => exact hone ▸ Word.cuts_one n

theorem constancy_pos (h : 0 < a.run.toInt) : 0 < a.constancy.toInt := by
  cases a.constancy_cases with
  | inl hrun => exact hrun ▸ h
  | inr hone => exact hone ▸ (by decide)

theorem contiguity_pos (h : 0 < a.run.toInt) : 0 < a.contiguity.toInt := by
  cases a.contiguity_cases with
  | inl hrun => exact hrun ▸ h
  | inr hone => exact hone ▸ (by decide)

theorem Describes.constancy_pos (h : a.Describes n x) : 0 < a.constancy.toInt :=
  Axis.constancy_pos h.run_pos

theorem Describes.contiguity_pos (h : a.Describes n x) : 0 < a.contiguity.toInt :=
  Axis.contiguity_pos h.run_pos

theorem constancy_dvd_run (a : Axis) : a.constancy.toInt ∣ a.run.toInt := by
  cases a.constancy_cases with
  | inl hrun => exact hrun ▸ dvd_rfl
  | inr hone => exact hone ▸ one_dvd _

end Axis

end TileFacts
