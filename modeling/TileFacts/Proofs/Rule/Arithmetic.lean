import TileFacts.Proofs.Line
import TileFacts.Rule.Binary

/-! Sums and products along a line.

A policy is sound for an operator (`Policy.Sound`) when the axis it works out describes the
line of results, whatever lines its operands' axes describe. Steps of sums add up, also where
they wrap. A product has a step only if one factor is a known constant, and then it is the
other factor's line scaled; otherwise only the divisor of its first element is known. -/
namespace TileFacts

/-! ### Lanes -/

/-- What an axis and a constant say of a line. -/
structure Lane.Describes (l : Lane) (n : Nat) (x : Nat → Int64) : Prop where
  axis : l.toAxis.Describes n x
  constant : ∀ c, l.constant = some c → ∀ p < n, x p = c

theorem BinaryOp.fold_eq_some {op : BinaryOp} {a b : Option Int64} {c : Int64}
    (h : op.fold a b = some c) : ∃ l r, a = some l ∧ b = some r ∧ op.evaluate l r = some c := by
  cases a with
  | none => cases h
  | some l =>
    cases b with
    | none => cases h
    | some r => exact ⟨l, r, rfl, rfl, h⟩

namespace Lane

variable {op : BinaryOp} {l r : Lane} {n : Nat} {x y z : Nat → Int64}

/-- The constant that two constants combine to is every result. -/
theorem Describes.fold (hl : l.Describes n x) (hr : r.Describes n y)
    (hz : ∀ p < n, op.evaluate (x p) (y p) = some (z p)) {c : Int64}
    (hc : op.fold l.constant r.constant = some c) : ∀ p < n, z p = c := by
  obtain ⟨cl, cr, hcl, hcr, heval⟩ := BinaryOp.fold_eq_some hc
  intro p hp
  have := hz p hp
  rw [hl.constant cl hcl p hp, hr.constant cr hcr p hp, heval] at this
  exact (Option.some.inj this).symm

end Lane

/-! ### Policies -/

namespace Policy

/-- The axis that a policy works out describes every line of results. -/
def Sound (policy : Policy) (op : BinaryOp) : Prop :=
  ∀ {l r : Lane} {n : Nat} {x y z : Nat → Int64}, l.Describes n x → r.Describes n y →
    (∀ p < n, op.evaluate (x p) (y p) = some (z p)) →
    ∀ {a : Axis}, policy.axis op l r (policy.constant op l.constant r.constant) = .ok a →
      a.Describes n z

/-- Without a constant, an axis is worked out if its divisor and its step are. -/
theorem axis_none_eq_ok {policy : Policy} {op : BinaryOp} {l r : Lane} {a : Axis} :
    policy.axis op l r none = .ok a ↔ ∃ m s, policy.divisibility op l r = .ok m ∧
      policy.step op l r = .ok s ∧ a = ⟨m, policy.run op l r, s⟩ := by
  constructor
  · intro h
    obtain ⟨m, hm, h⟩ := bind_eq_ok.mp h
    obtain ⟨s, hs, h⟩ := bind_eq_ok.mp h
    exact ⟨m, s, hm, hs, (Except.ok.inj h).symm⟩
  · rintro ⟨m, s, hm, hs, rfl⟩
    exact bind_eq_ok.mpr ⟨m, hm, bind_eq_ok.mpr ⟨s, hs, rfl⟩⟩

/-- A policy that combines constants as the operator does is sound if it is on values that are
not both constant. -/
theorem sound_of_variable {policy : Policy} {op : BinaryOp}
    (hfold : policy.constant = BinaryOp.fold)
    (h : ∀ {l r : Lane} {n : Nat} {x y z : Nat → Int64}, l.Describes n x → r.Describes n y →
      (∀ p < n, op.evaluate (x p) (y p) = some (z p)) → op.fold l.constant r.constant = none →
      ∀ {m s : Int64}, policy.divisibility op l r = .ok m → policy.step op l r = .ok s →
        (⟨m, policy.run op l r, s⟩ : Axis).Describes n z) :
    policy.Sound op := by
  intro l r n x y z hl hr hz a ha
  rw [hfold] at ha
  cases hc : op.fold l.constant r.constant with
  | some c =>
    rw [hc] at ha
    cases ha
    refine Axis.describes_constant ?_ (hl.fold hr hz hc)
    show 0 < (if l.run ≤ r.run then r.run else l.run).toInt
    split
    · exact hr.axis.run_pos
    · exact hl.axis.run_pos
  | none =>
    rw [hc] at ha
    obtain ⟨m, s, hm, hs, rfl⟩ := axis_none_eq_ok.mp ha
    exact h hl hr hz hc hm hs

/-! ### Sums and differences -/

/-- The word that sums and differences compute, of elements as well as of steps. -/
def sumWord (op : BinaryOp) (a b : Int64) : Int64 := if op = .sub then a - b else a + b

/-- With which sign the right operand enters. -/
def sign (op : BinaryOp) : Int := if op = .sub then -1 else 1

theorem toInt_sumWord_modEq (op : BinaryOp) (a b : Int64) :
    (sumWord op a b).toInt ≡ a.toInt + sign op * b.toInt [ZMOD 2 ^ 64] := by
  unfold sumWord sign
  split
  · rw [neg_one_mul, ← sub_eq_add_neg]
    exact Word.toInt_sub_modEq a b
  · rw [one_mul]
    exact Word.toInt_add_modEq a b

theorem sumWord_add_add (op : BinaryOp) (a b s t : Int64) :
    sumWord op (a + s) (b + t) = sumWord op a b + sumWord op s t := by
  unfold sumWord
  split <;> grind

theorem sumStep_ne_unknown {op : BinaryOp} {l r : Int64} (h : sumStep op l r ≠ unknownStep) :
    l ≠ unknownStep ∧ r ≠ unknownStep ∧ sumStep op l r = sumWord op l r := by
  unfold sumStep at h ⊢
  by_cases hl : l = unknownStep
  · simp [hl] at h
  · by_cases hr : r = unknownStep
    · simp [hr] at h
    · simp [hl, hr, sumWord]

theorem evaluate_eq_sumWord {op : BinaryOp} (hop : op = .add ∨ op = .sub) {a b c : Int64}
    (h : op.evaluate a b = some c) : c = sumWord op a b := by
  rcases hop with rfl | rfl <;> exact (Option.some.inj h).symm

/-- Steps of sums add up inside runs that are inside runs of both operands. -/
theorem sum_steps {op : BinaryOp} {l r : Lane} {n : Nat} {x y z : Nat → Int64} {m : Int64}
    (hl : 0 < l.run.toInt) (hx : l.Steps n x) (hy : r.Steps n y)
    (hz : ∀ p < n, z p = sumWord op (x p) (y p)) :
    (⟨m, Word.gcd l.run r.run, sumStep op l.step r.step⟩ : Axis).Steps n z := by
  intro hs p hp hdvd
  obtain ⟨hls, hrs, hstep⟩ := sumStep_ne_unknown hs
  have hxl := hx hls p hp fun h => hdvd ((Word.gcd_dvd_left hl).trans h)
  have hyr := hy hrs p hp fun h => hdvd ((Word.gcd_dvd_right hl).trans h)
  rw [hz p (by omega), hz (p + 1) hp, hxl, hyr, hstep, sumWord_add_add]

theorem sum_sound {op : BinaryOp} (hop : op = .add ∨ op = .sub) : sum.Sound op := by
  apply sound_of_variable rfl
  intro l r n x y z hl hr hz _ m s hm hs
  cases hm
  cases hs
  have hz' : ∀ p < n, z p = sumWord op (x p) (y p) := fun p hp =>
    evaluate_eq_sumWord hop (hz p hp)
  have hpow := hl.axis.power.gcd r.divisibility
  have hdl : (Word.gcd l.divisibility r.divisibility).toInt ∣ l.divisibility.toInt :=
    Word.gcd_dvd_left hl.axis.power.pos
  have hdr : (Word.gcd l.divisibility r.divisibility).toInt ∣ r.divisibility.toInt :=
    Word.gcd_dvd_right hl.axis.power.pos
  refine .of_congruent hpow (Word.gcd_pos hl.axis.run_pos) ?_
    (sum_steps hl.axis.run_pos hl.axis.steps hr.axis.steps hz')
  intro p hp hs
  rw [hz' p hp]
  refine (hpow.of_modEq (toInt_sumWord_modEq op (x p) (y p))).trans ?_
  rcases hs with rfl | hs
  · have hxl := (hl.axis.congruent hp (.inl rfl)).of_dvd hdl
    have hyr := (hr.axis.congruent hp (.inl rfl)).of_dvd hdr
    simpa using hxl.add (hyr.mul_left (sign op))
  · obtain ⟨hls, hrs, hstep⟩ := sumStep_ne_unknown hs
    have hxl := (hl.axis.congruent hp (.inr hls)).of_dvd hdl
    have hyr := (hr.axis.congruent hp (.inr hrs)).of_dvd hdr
    refine (hxl.add (hyr.mul_left (sign op))).trans ?_
    show _ ≡ p * (sumStep op l.step r.step).toInt [ZMOD _]
    rw [hstep]
    have hsum := hpow.of_modEq (toInt_sumWord_modEq op l.step r.step)
    have hcollect : p * l.step.toInt + sign op * (p * r.step.toInt) =
        p * (l.step.toInt + sign op * r.step.toInt) := by ring
    rw [hcollect]
    exact (hsum.mul_left p).symm

/-! ### Products -/

theorem toInt_scaledStep {step c : Int64} (h : scaledStep step (some c) ≠ unknownStep) :
    (scaledStep step (some c)).toInt = step.toInt * c.toInt := by
  unfold scaledStep at h ⊢
  cases hmul : Word.mul? step c with
  | none => simp [hmul] at h
  | some w => simpa [hmul] using Word.ofInt?_eq_some.mp hmul

theorem max_unknownStep_right {s : Int64} (h : max s unknownStep ≠ unknownStep) :
    max s unknownStep = s := by
  show (if s ≤ unknownStep then unknownStep else s) = s
  split
  · next hle => exact absurd (show (if s ≤ unknownStep then _ else _) = _ by rw [if_pos hle]) h
  · rfl

theorem max_unknownStep_left {s : Int64} (h : max unknownStep s ≠ unknownStep) :
    max unknownStep s = s := by
  show (if unknownStep ≤ s then s else unknownStep) = s
  split
  · rfl
  · next hle => exact absurd (show (if unknownStep ≤ s then _ else _) = _ by rw [if_neg hle]) h

/-- A known product step comes from one constant operand: it is the exact multiple of the
other operand's step. -/
theorem productStep_ne_unknown {l r : Lane} (h : productStep l r ≠ unknownStep)
    (hfold : BinaryOp.mul.fold l.constant r.constant = none) :
    l.step ≠ unknownStep ∧ r.step ≠ unknownStep ∧
      ((∃ c, r.constant = some c ∧ (productStep l r).toInt = l.step.toInt * c.toInt) ∨
        ∃ c, l.constant = some c ∧ (productStep l r).toInt = r.step.toInt * c.toInt) := by
  by_cases hl : l.step = unknownStep
  · simp [productStep, hl] at h
  by_cases hr : r.step = unknownStep
  · simp [productStep, hr] at h
  have hstep : productStep l r =
      max (scaledStep l.step r.constant) (scaledStep r.step l.constant) := by
    simp [productStep, hl, hr]
  rw [hstep] at h ⊢
  refine ⟨hl, hr, ?_⟩
  cases hlc : l.constant with
  | none =>
    cases hrc : r.constant with
    | none =>
      rw [hlc, hrc] at h
      exact absurd rfl h
    | some c =>
      rw [hlc, hrc] at h
      have hmax := max_unknownStep_right h
      refine .inl ⟨c, rfl, ?_⟩
      show (max (scaledStep l.step (some c)) unknownStep).toInt = _
      rw [hmax]
      exact toInt_scaledStep (hmax ▸ h)
  | some c =>
    cases hrc : r.constant with
    | none =>
      rw [hlc, hrc] at h
      have hmax := max_unknownStep_left h
      refine .inr ⟨c, rfl, ?_⟩
      show (max unknownStep (scaledStep r.step (some c))).toInt = _
      rw [hmax]
      exact toInt_scaledStep (hmax ▸ h)
    | some d =>
      rw [hlc, hrc] at hfold
      cases hfold

/-- The run of a product divides the runs of both operands. -/
theorem product_run_dvd {l : Lane} (hl : 0 < l.run.toInt) (r : Lane) :
    0 < (product.run .mul l r).toInt ∧ (product.run .mul l r).toInt ∣ l.run.toInt ∧
      (product.run .mul l r).toInt ∣ r.run.toInt := by
  have hcl := Axis.constancy_pos hl
  show 0 < (if _ ≤ _ then _ else _ : Int64).toInt ∧ (if _ ≤ _ then _ else _ : Int64).toInt ∣ _ ∧
    (if _ ≤ _ then _ else _ : Int64).toInt ∣ _
  split
  · exact ⟨Word.gcd_pos hl, Word.gcd_dvd_left hl,
      (Word.gcd_dvd_right hl).trans r.constancy_dvd_run⟩
  · exact ⟨Word.gcd_pos hcl, (Word.gcd_dvd_left hcl).trans l.constancy_dvd_run,
      Word.gcd_dvd_right hcl⟩

/-- Every word has a logarithm to move a divisor up by. -/
theorem product_divisibility_eq (op : BinaryOp) (l r : Lane) : product.divisibility op l r =
    Word.scaleUp l.divisibility (Int64.ofNat (Word.log2 r.divisibility)) := by
  simp only [product, Word.checkedLog2_eq]
  rfl

/-- The divisor of a product divides the product of the divisors. -/
theorem product_divisibility {l r : Lane} {m : Int64} (hl : Word.IsPower l.divisibility)
    (hr : Word.IsPower r.divisibility) (hm : product.divisibility .mul l r = .ok m) :
    Word.IsPower m ∧ m.toInt ∣ l.divisibility.toInt * r.divisibility.toInt := by
  obtain ⟨w, hw, hpow, _, hdvd⟩ := hl.scaleUp_log2 hr
  rw [product_divisibility_eq, hw] at hm
  cases hm
  exact ⟨hpow, hdvd⟩

/-- Inside a run of a product one operand stands still, and the steps of the other are scaled. -/
theorem product_steps {l r : Lane} {n : Nat} {x y z : Nat → Int64} {m : Int64}
    (hl : 0 < l.run.toInt) (hx : l.Steps n x) (hy : r.Steps n y)
    (hcx : ∀ c, l.constant = some c → ∀ p < n, x p = c)
    (hcy : ∀ c, r.constant = some c → ∀ p < n, y p = c)
    (hfold : BinaryOp.mul.fold l.constant r.constant = none)
    (hz : ∀ p < n, (z p).toInt ≡ (x p).toInt * (y p).toInt [ZMOD 2 ^ 64]) :
    (⟨m, product.run .mul l r, productStep l r⟩ : Axis).Steps n z := by
  intro hs
  obtain ⟨_, hrl, hrr⟩ := product_run_dvd hl r
  obtain ⟨hls, hrs, ⟨c, hc, hstep⟩ | ⟨c, hc, hstep⟩⟩ := productStep_ne_unknown hs hfold
  · refine hx.scale (c := c.toInt) (fun p hp => ?_) hrl (fun _ => ⟨hls, by rw [hstep]⟩) hs
    rw [← hcy c hc p hp]
    exact hz p hp
  · refine hy.scale (c := c.toInt) (fun p hp => ?_) hrr (fun _ => ⟨hrs, by rw [hstep]⟩) hs
    rw [← hcx c hc p hp, mul_comm]
    exact hz p hp

theorem product_sound : product.Sound .mul := by
  apply sound_of_variable rfl
  intro l r n x y z hl hr hz hfold m s hm hstep
  cases hstep
  have hz' : ∀ p < n, z p = x p * y p := fun p hp => (Option.some.inj (hz p hp)).symm
  have hmod : ∀ p < n, (z p).toInt ≡ (x p).toInt * (y p).toInt [ZMOD 2 ^ 64] := by
    intro p hp
    rw [hz' p hp]
    exact Word.toInt_mul_modEq (x p) (y p)
  obtain ⟨hpow, hdvd⟩ := product_divisibility hl.axis.power hr.axis.power hm
  obtain ⟨hrun, hrl, hrr⟩ := product_run_dvd hl.axis.run_pos r
  show (⟨m, product.run .mul l r, productStep l r⟩ : Axis).Describes n z
  rcases Nat.eq_zero_or_pos n with rfl | h0
  · exact Axis.describes_empty hpow hrun
  by_cases hs : productStep l r = unknownStep
  · rw [hs]
    refine Axis.describes_of_head hpow hrun fun h0 => ?_
    refine ((hpow.of_modEq (hmod 0 h0)).dvd_iff).mpr (hdvd.trans ?_)
    exact mul_dvd_mul (hl.axis.head h0) (hr.axis.head h0)
  · obtain ⟨hls, hrs, ⟨c, hc, hstep⟩ | ⟨c, hc, hstep⟩⟩ := productStep_ne_unknown hs hfold
    · have hcy : r.divisibility.toInt ∣ c.toInt := hr.constant c hc 0 h0 ▸ hr.axis.head h0
      refine hl.axis.scale (c := c.toInt) (fun p hp => ?_) hpow
        (hdvd.trans (mul_dvd_mul_left _ hcy)) hrun hrl fun _ => ⟨hls, by rw [hstep]⟩
      rw [← hr.constant c hc p hp]
      exact hmod p hp
    · have hcx : l.divisibility.toInt ∣ c.toInt := hl.constant c hc 0 h0 ▸ hl.axis.head h0
      rw [mul_comm] at hdvd
      refine hr.axis.scale (c := c.toInt) (fun p hp => ?_) hpow
        (hdvd.trans (mul_dvd_mul_left _ hcx)) hrun hrr fun _ => ⟨hrs, by rw [hstep]⟩
      rw [← hl.constant c hc p hp, mul_comm]
      exact hmod p hp

end Policy

end TileFacts
