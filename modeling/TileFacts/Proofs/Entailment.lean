import TileFacts.Proofs.Runs
import TileFacts.Proofs.Rule.Remainder

/-! Precision and what facts say.

A fact that is weaker than another in the order of precision compares divisors, runs and steps one
by one. What they say of a tensor is not independent: shorter runs have more first elements, and
the divisor speaks of all of them. So a weaker fact follows from a stronger one only where cutting
the runs keeps the divisor (`Axis.KeepsHeads`), and along one dimension exactly there
(`Axis.Below.entails_iff`). Main statement: under that condition a weaker fact, and the join of a
fact with any other, holds of every tensor that the stronger fact holds of. -/
namespace TileFacts

/-! ### Along a line -/

namespace Axis

variable {a b : Axis} {n : Nat} {x : Nat → Int64}

/-- The divisor of `a` divides the first elements of the runs of `a` on lines of `n` elements that
`b` holds of: there is one run, or no run is cut, or there is nothing to divide, or a run of `a`
covers a multiple of the divisor. -/
def KeepsHeads (a b : Axis) (n : Nat) : Prop :=
  n ≤ a.run.toInt ∨ a.run = b.run ∨ a.divisibility = 1 ∨
    b.step ≠ unknownStep ∧ a.divisibility.toInt ∣ a.run.toInt * b.step.toInt

instance (a b : Axis) (n : Nat) : Decidable (a.KeepsHeads b n) :=
  inferInstanceAs (Decidable (_ ∨ _))

theorem KeepsHeads.heads (h : a.KeepsHeads b n) (hab : a.Below b) (ha : a.Tracked)
    (hx : b.Holds n x) {p : Nat} (hp : p < n) (hrun : a.run.toInt ∣ p) :
    a.divisibility.toInt ∣ (x p).toInt := by
  rcases h with hone | hsame | hunit | ⟨hstep, hcovers⟩
  · have hzero : p = 0 := by
      have := Int.eq_zero_of_dvd_of_nonneg_of_lt (by omega) (by omega) hrun
      omega
    subst hzero
    exact hab.divisibility.trans (hx.heads 0 hp (dvd_zero _))
  · exact hab.divisibility.trans (hx.heads p hp (hsame ▸ hrun))
  · rw [hunit]
    exact one_dvd _
  · have hcut := hcovers.trans (mul_dvd_mul_right hab.run b.step.toInt)
    have hcount := hx.congruent hstep hab.divisibility hcut ha.power.dvd_size p hp
    exact hcount.dvd_iff.mpr (hcovers.trans (mul_dvd_mul_right hrun _))

theorem Below.steps (hab : a.Below b) (hx : b.Holds n x) (hs : a.step ≠ unknownStep) {p : Nat}
    (hp : p + 1 < n) (hrun : ¬ a.run.toInt ∣ (p + 1 : Nat)) : x (p + 1) = x p + a.step := by
  have hsame : a.step = b.step := hab.step.resolve_left hs
  rw [hsame] at hs ⊢
  exact hx.steps hs p hp fun h => hrun (hab.run.trans h)

theorem KeepsHeads.holds (h : a.KeepsHeads b n) (hab : a.Below b) (ha : a.Tracked)
    (hx : b.Holds n x) : a.Holds n x where
  heads _ hp hrun := h.heads hab ha hx hp hrun
  steps hs _ hp hrun := hab.steps hx hs hp hrun

/-- On a line of one number there is nothing to lose. -/
theorem Below.holds_of_constant (hab : a.Below b) (hx : b.Holds n x) {c : Int64}
    (hc : ∀ p < n, x p = c) : a.Holds n x where
  heads p hp _ := by
    have hfirst := hx.heads 0 (by omega) (dvd_zero _)
    rw [hc 0 (by omega)] at hfirst
    rw [hc p hp]
    exact hab.divisibility.trans hfirst
  steps hs _ hp hrun := hab.steps hx hs hp hrun

/-! ### Lines that lose a divisor -/

/-- A line that says no more than the axis: every run counts up from zero by the step, or leaves
zero for one if there is none. -/
def sample (b : Axis) (p : Nat) : Int64 :=
  if b.step = unknownStep then if b.run.toInt ∣ p then 0 else 1
  else Int64.ofNat (p % b.run.toInt.toNat) * b.step

theorem sample_of_head {p : Nat} (hb : b.Tracked) (hp : b.run.toInt ∣ p) : b.sample p = 0 := by
  by_cases hs : b.step = unknownStep
  · simp only [sample, hs, hp, if_true]
  · have hnat : b.run.toInt.toNat ∣ p := by
      rw [← Int.natCast_dvd_natCast, Int.toNat_of_nonneg hb.run_pos.le]
      exact hp
    rw [sample, if_neg hs, Nat.mod_eq_zero_of_dvd hnat]
    exact Int64.zero_mul

theorem sample_succ {p : Nat} (hb : b.Tracked) (hs : b.step ≠ unknownStep)
    (hp : ¬ b.run.toInt ∣ (p + 1 : Nat)) : b.sample (p + 1) = b.sample p + b.step := by
  have hnat : ¬ b.run.toInt.toNat ∣ p + 1 := by
    rw [← Int.natCast_dvd_natCast, Int.toNat_of_nonneg hb.run_pos.le]
    exact hp
  rw [sample, sample, if_neg hs, if_neg hs, succ_mod_of_not_dvd hnat, Int64.ofNat_add,
    Int64.add_mul]
  exact congrArg _ (Int64.one_mul b.step)

theorem sample_holds (hb : b.Tracked) (n : Nat) : b.Holds n b.sample where
  heads p _ hrun := by
    rw [sample_of_head hb hrun]
    exact dvd_zero _
  steps hs _ _ hrun := sample_succ hb hs hrun

/-- The first place where a run of `b` is cut tells whether the divisor is kept. -/
theorem KeepsHeads.of_sample (hab : a.Below b) (ha : a.Tracked) (hb : b.Tracked)
    (hx : a.Holds n b.sample) : a.KeepsHeads b n := by
  by_cases hn : (n : Int) ≤ a.run.toInt
  · exact .inl hn
  by_cases hsame : a.run = b.run
  · exact .inr (.inl hsame)
  refine .inr (.inr ?_)
  obtain ⟨r, hr⟩ : ∃ r : Nat, a.run.toInt = r := Int.eq_ofNat_of_zero_le ha.run_pos.le
  have hshort : (r : Int) < b.run.toInt := by
    have hne : a.run.toInt ≠ b.run.toInt := fun h => hsame (Int64.toInt_inj.mp h)
    have hle := Int.le_of_dvd hb.run_pos hab.run
    omega
  have hcut : a.divisibility.toInt ∣ (b.sample r).toInt := hx.heads r (by omega) (by rw [hr])
  by_cases hs : b.step = unknownStep
  · have hinside : ¬ b.run.toInt ∣ r := fun h => by
      have hpos := ha.run_pos
      have hle := Int.le_of_dvd (by omega) h
      omega
    rw [sample, if_pos hs, if_neg hinside] at hcut
    exact .inl (Int64.toInt_inj.mp (Int.eq_one_of_dvd_one ha.power.pos.le hcut))
  · rw [sample, if_neg hs, Nat.mod_eq_of_lt (by omega)] at hcut
    have hproduct : (Int64.ofNat r * b.step).toInt ≡ r * b.step.toInt [ZMOD 2 ^ 64] :=
      (Word.toInt_mul_modEq _ _).trans ((Word.toInt_ofNat_modEq r).mul_right _)
    rw [hr]
    exact .inr ⟨hs, (ha.power.of_modEq hproduct).dvd_iff.mp hcut⟩

/-- Of two axes that are ordered, the weaker follows from the stronger exactly where it keeps its
divisor. -/
theorem Below.entails_iff (hab : a.Below b) (ha : a.Tracked) (hb : b.Tracked) (n : Nat) :
    (∀ x, b.Holds n x → a.Holds n x) ↔ a.KeepsHeads b n := by
  constructor
  · intro h
    exact .of_sample hab ha hb (h _ (sample_holds hb n))
  · intro h x hx
    exact h.holds hab ha hx

end Axis

/-! ### Of tensors -/

/-- Every axis of `a` keeps its divisor on tensors of this shape that `b` holds of. A constant gives
the divisors by itself. -/
def Fact.KeepsHeads (a b : Fact) (shape : Shape) : Prop :=
  b.constant = none → ∀ (d : Nat) (p q : Axis), a.axes[d]? = some p → b.axes[d]? = some q →
    p.KeepsHeads q (shape.getD d 1)

namespace Fact

variable {a b c : Fact} {x : Tensor}

theorem Below.holds (hab : a.Below b) (ha : a.Tracked) (hkeeps : a.KeepsHeads b x.shape)
    (hx : b.Holds x) : a.Holds x where
  rank := hab.rank.trans hx.rank
  axes d p hp i hi := by
    obtain ⟨q, hq⟩ := exists_axis_of_rank hab.rank hp
    have hpq := hab.axes d p q hp hq
    have hline := hx.axes d q hq i hi
    cases hc : b.constant with
    | none => exact (hkeeps hc d p q hp hq).holds hpq (ha.axis hp) hline
    | some value => exact hpq.holds_of_constant hline fun k hk => hx.constant value hc _ (hi.set hk)
  constant value hvalue := hx.constant value (hab.constant value hvalue)

theorem Tracked.join (hb : b.Tracked) {j : Fact} (hj : b.join c = .ok j) : j.Tracked := by
  intro p hp
  obtain ⟨d, hd⟩ := List.mem_iff_getElem?.mp hp
  obtain ⟨l, r, hl, _, rfl⟩ := axis_of_join hj hd
  exact ⟨(hb.axis hl).power.gcd _, Word.gcd_pos (hb.axis hl).run_pos⟩

/-- A fact of one dimension without a constant is its axis. -/
theorem eq_of_rank_one (hrank : a.rank = 1) (hconstant : a.constant = none) :
    ∃ p, a = ⟨[p], none⟩ := by
  obtain ⟨axes, constant⟩ := a
  obtain ⟨p, rfl⟩ := List.length_eq_one_iff.mp hrank
  cases hconstant
  exact ⟨p, rfl⟩

/-- In one dimension the condition is also needed. -/
theorem Below.keepsHeads_of_entails (hab : a.Below b) (ha : a.Tracked) (hb : b.Tracked)
    (hrank : a.rank = 1) {n : Nat} (h : ∀ x : Tensor, x.shape = [n] → b.Holds x → a.Holds x) :
    a.KeepsHeads b [n] := by
  intro hconstant
  have hnone : a.constant = none := by
    cases hc : a.constant with
    | none => rfl
    | some c => rw [hab.constant c hc] at hconstant; cases hconstant
  obtain ⟨q, rfl⟩ := eq_of_rank_one (hab.rank ▸ hrank) hconstant
  obtain ⟨p, rfl⟩ := eq_of_rank_one hrank hnone
  intro d p' q' hp hq
  cases d with
  | zero =>
    cases hp
    cases hq
    apply (Axis.Below.entails_iff (hab.axes 0 p q rfl rfl) (ha.axis (d := 0) rfl)
      (hb.axis (d := 0) rfl) n).mp
    intro line hline
    exact holds_along.mp (h _ rfl (holds_along.mpr hline))
  | succ d => cases hp

/-- When a weaker fact follows from a stronger one. Of facts with tracked powers of two for divisors
and runs that have a length, a weaker one holds of every tensor that the stronger one holds of,
provided that the first elements of its runs are still multiples of its divisors; and so does the
join with any fact of the same rank. In one dimension nothing less than the proviso will do. -/
theorem weaker_entails (ha : a.Tracked) (hb : b.Tracked) (hab : a.Weaker b)
    (hc : b.rank = c.rank) :
    (∀ x : Tensor, a.KeepsHeads b x.shape → b.Holds x → a.Holds x) ∧
    (∃ j, b.join c = .ok j ∧ ∀ x : Tensor, j.KeepsHeads b x.shape → b.Holds x → j.Holds x) ∧
    ∀ n, a.rank = 1 →
      ((∀ x : Tensor, x.shape = [n] → b.Holds x → a.Holds x) ↔ a.KeepsHeads b [n]) := by
  have hbelow : a.Below b := ha.positive.weakerOrEqual_iff.mp hab
  have hjoin := join_eq_ok.mpr ⟨hc, rfl⟩
  refine ⟨fun x hkeeps hx => hbelow.holds ha hkeeps hx, ⟨_, hjoin, ?_⟩, fun n hrank => ⟨?_, ?_⟩⟩
  · intro x hkeeps hx
    exact (hb.positive.below_self.join_left hjoin).holds (hb.join hjoin) hkeeps hx
  · exact hbelow.keepsHeads_of_entails ha hb hrank
  · intro hkeeps x hx
    rw [← hx] at hkeeps
    exact hbelow.holds ha hkeeps

/-- Runs of four steps of two, cut in half: the divisor eight is lost and four is kept. -/
theorem weaker_entails_halved :
    Tracked ⟨[⟨4, 2, 2⟩], none⟩ ∧ Tracked ⟨[⟨8, 4, 2⟩], none⟩ ∧
    Weaker ⟨[⟨4, 2, 2⟩], none⟩ ⟨[⟨8, 4, 2⟩], none⟩ ∧
    KeepsHeads ⟨[⟨4, 2, 2⟩], none⟩ ⟨[⟨8, 4, 2⟩], none⟩ [8] ∧
    Holds ⟨[⟨8, 4, 2⟩], none⟩ (.along 8 fun p => Int64.ofNat (2 * p)) ∧
    Holds ⟨[⟨4, 2, 2⟩], none⟩ (.along 8 fun p => Int64.ofNat (2 * p)) := by
  have ha : Tracked ⟨[⟨4, 2, 2⟩], none⟩ := by decide +kernel
  have hb : Tracked ⟨[⟨8, 4, 2⟩], none⟩ := by decide +kernel
  have hab : Weaker ⟨[⟨4, 2, 2⟩], none⟩ ⟨[⟨8, 4, 2⟩], none⟩ := by decide +kernel
  have hx : Holds ⟨[⟨8, 4, 2⟩], none⟩ (.along 8 fun p => Int64.ofNat (2 * p)) :=
    holds_along.mpr (by decide +kernel)
  obtain ⟨hentails, _⟩ := weaker_entails ha hb hab (c := ⟨[⟨4, 6, 2⟩], none⟩) rfl
  have hkeeps : KeepsHeads ⟨[⟨4, 2, 2⟩], none⟩ ⟨[⟨8, 4, 2⟩], none⟩ [8] := by
    intro _ d p q hp hq
    cases d with
    | zero =>
      cases hp
      cases hq
      decide +kernel
    | succ d => cases hp
  exact ⟨ha, hb, hab, hkeeps, hx, hentails _ hkeeps hx⟩

/-- Runs of four that start at multiples of sixteen, as zero, one, two and three do, are not runs of
two that start at multiples of sixteen. -/
theorem weaker_not_entails :
    Tracked ⟨[⟨16, 2, 1⟩], none⟩ ∧ Tracked ⟨[⟨16, 4, 1⟩], none⟩ ∧
    Weaker ⟨[⟨16, 2, 1⟩], none⟩ ⟨[⟨16, 4, 1⟩], none⟩ ∧
    join ⟨[⟨16, 4, 1⟩], none⟩ ⟨[⟨16, 2, 1⟩], none⟩ = .ok ⟨[⟨16, 2, 1⟩], none⟩ ∧
    Holds ⟨[⟨16, 4, 1⟩], none⟩ (.along 4 Int64.ofNat) ∧
    ¬ Holds ⟨[⟨16, 2, 1⟩], none⟩ (.along 4 Int64.ofNat) := by
  refine ⟨by decide +kernel, by decide +kernel, by decide +kernel, by decide +kernel, ?_, ?_⟩
  · exact holds_along.mpr (by decide +kernel)
  · intro h
    exact absurd (holds_along.mp h) (by decide +kernel)

end Fact

end TileFacts
