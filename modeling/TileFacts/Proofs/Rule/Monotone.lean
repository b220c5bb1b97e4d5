import TileFacts.Proofs.Rule.Comparison
import TileFacts.Proofs.Rule.Quotient
import TileFacts.Proofs.WellFormed

/-! Rules and the order of precision.

Most rules know more when more is known of their operands: greatest common divisors, scaled divisors
and kept steps all grow with what they are made of, and a run that covers a dimension still covers
it. Where they know less, it is by a change of method: two constants are folded and runs forgotten,
or buckets cut the runs of a dividend whose divisor they would have kept.

Runs that a rule takes from the extents of a shape may be negative, since extents wrap. So answers
are compared as the comparison does it, word by word (`Axis.Under`), and not by the order on
positive words alone. -/
namespace TileFacts

/-! ### The comparison, word by word -/

/-- The comparison finds one axis to say no more than the other. -/
structure Axis.Under (a b : Axis) : Prop where
  divisibility : Fact.divides a.divisibility b.divisibility = .ok true
  run : Fact.divides a.run b.run = .ok true
  step : a.step = unknownStep ∨ a.step = b.step

/-- The comparison finds one fact to say no more than the other, ranks apart. -/
structure Fact.Under (a b : Fact) : Prop where
  axes : ∀ (d : Nat) (x y : Axis), a.axes[d]? = some x → b.axes[d]? = some y → x.Under y
  constant : ∀ c, a.constant = some c → b.constant = some c

namespace Fact

variable {a b : Fact}

theorem divides_eq_true_of_pos {x y : Int64} (hx : 0 < x.toInt) :
    divides x y = .ok true ↔ x.toInt ∣ y.toInt := by
  rw [divides_of_pos hx, Except.ok.injEq, decide_eq_true_eq]

theorem divides_self {x : Int64} (hx : x ≠ 0) : divides x x = .ok true := by
  have hmin : ¬ (x = Int64.minValue ∧ x = -1) := by
    intro h
    exact absurd (h.1.symm.trans h.2) (by decide)
  have hrem : x % x = 0 := by
    rw [← Int64.toInt_inj, Int64.toInt_mod]
    exact Int.tmod_self
  simp [divides, Word.checkedRem, Word.divOverflows, hx, hmin, hrem, Functor.map, Except.map]

theorem dividesAll_eq_true {pairs : List (Int64 × Int64)} :
    dividesAll pairs = .ok true ↔ ∀ p ∈ pairs, divides p.1 p.2 = .ok true := by
  induction pairs with
  | nil => simp [dividesAll]
  | cons p rest ih =>
    rw [List.forall_mem_cons, ← ih, dividesAll, bind_eq_ok]
    constructor
    · intro h
      obtain ⟨answer, hanswer, hrest⟩ := h
      cases answer with
      | true => exact ⟨hanswer, hrest⟩
      | false => cases hrest
    · intro h
      exact ⟨true, h.1, h.2⟩

/-- Tests that are made one after another and all hold. -/
theorem and_then_eq_true {x y : Checked Bool} {z : Bool} :
    (do
      if ← x then
        if ← y then return z else return false
      else return false : Checked Bool) = .ok true ↔ x = .ok true ∧ y = .ok true ∧ z = true := by
  cases x with
  | error e => exact iff_of_false (by rintro ⟨⟩) (by rintro ⟨⟨⟩, _⟩)
  | ok b =>
    cases y with
    | error e => cases b <;> exact iff_of_false (by rintro ⟨⟩) (by rintro ⟨_, ⟨⟩, _⟩)
    | ok c => cases b <;> cases c <;> simp [bind, Except.bind, pure, Except.pure]

/-- A comparison is made property by property. -/
theorem weaker_iff : a.Weaker b ↔ a.rank = b.rank ∧ a.Under b := by
  unfold Weaker weakerOrEqual
  by_cases hrank : a.rank = b.rank
  · rw [if_neg (not_not.mpr hrank), and_then_eq_true, dividesAll_eq_true, dividesAll_eq_true,
      Bool.and_eq_true, constant_below_iff, List.all_eq_true]
    unfold divisibilities runs steps
    rw [forall_mem_zip, forall_mem_zip, forall_mem_zip]
    simp only [stepWeaker, Bool.or_eq_true, beq_iff_eq]
    constructor
    · intro h
      obtain ⟨hdivisibility, hrun, hstep, hconstant⟩ := h
      exact ⟨hrank, fun d x y hx hy =>
        ⟨hdivisibility d x y hx hy, hrun d x y hx hy, hstep d x y hx hy⟩, hconstant⟩
    · intro h
      exact ⟨fun d x y hx hy => (h.2.axes d x y hx hy).divisibility,
        fun d x y hx hy => (h.2.axes d x y hx hy).run,
        fun d x y hx hy => (h.2.axes d x y hx hy).step, h.2.constant⟩
  · rw [if_pos hrank]
    exact iff_of_false (by rintro ⟨⟩) fun h => hrank h.1

end Fact

theorem Axis.Below.under {a b : Axis} (h : a.Below b) : a.Under b :=
  ⟨(Fact.divides_eq_true_of_pos h.divisibility_pos).mpr h.divisibility,
    (Fact.divides_eq_true_of_pos h.run_pos).mpr h.run, h.step⟩

theorem Fact.Below.under {a b : Fact} (h : a.Below b) : a.Under b :=
  ⟨fun d x y hx hy => (h.axes d x y hx hy).under, h.constant⟩

/-! ### Runs of one step -/

namespace Word

variable {a b : Int64}

theorem max_of_dvd_right (ha : 0 < a.toInt) (h : b.toInt ∣ a.toInt) : max a b = a := by
  have hle := Int.le_of_dvd ha h
  show (if a ≤ b then b else a) = a
  split
  · next hab =>
    have hab := Int64.le_iff_toInt_le.mp hab
    exact Int64.toInt_inj.mp (by omega)
  · rfl

/-- Of two lengths one of which divides the other, both divide the longer one. -/
theorem dvd_max (ha : 0 < a.toInt) (hb : 0 < b.toInt) (h : a.toInt ∣ b.toInt ∨ b.toInt ∣ a.toInt) :
    a.toInt ∣ (max a b).toInt ∧ b.toInt ∣ (max a b).toInt := by
  rcases h with h | h
  · rw [max_of_dvd_left hb h]
    exact ⟨h, dvd_rfl⟩
  · rw [max_of_dvd_right ha h]
    exact ⟨dvd_rfl, h⟩

theorem nested_of_dvd_max (ha : a.toInt ∣ (max a b).toInt) (hb : b.toInt ∣ (max a b).toInt) :
    a.toInt ∣ b.toInt ∨ b.toInt ∣ a.toInt := by
  have hmax : max a b = b ∨ max a b = a := ite_eq_or_eq ..
  rcases hmax with hmax | hmax
  · exact .inl (hmax ▸ ha)
  · exact .inr (hmax ▸ hb)

theorem Cuts.of_dvd {n : Nat} (h : Cuts b n) (ha : 0 < a.toInt) (hab : a.toInt ∣ b.toInt) :
    Cuts a n :=
  ⟨ha, hab.trans h.dvd⟩

theorem cuts_of_dvd (ha : 0 < a.toInt) (h : a.toInt ∣ b.toInt) : Cuts a b.toInt.natAbs :=
  ⟨ha, Int.dvd_natAbs.mpr h⟩

end Word

namespace Axis

variable {a b : Axis} {extent : Int64}

theorem Below.step_eq (h : a.Below b) {step : Int64} (hs : step ≠ unknownStep)
    (ha : a.step = step) : b.step = step := by
  rw [← ha] at hs ⊢
  exact (h.step.resolve_left hs).symm

theorem Below.constancy_dvd (h : a.Below b) : a.constancy.toInt ∣ b.constancy.toInt := by
  by_cases hs : a.step = 0
  · have hs' := h.step_eq (by decide) hs
    simpa [constancy, hs, hs'] using h.run
  · simp [constancy, hs]

theorem Below.contiguity_dvd (h : a.Below b) : a.contiguity.toInt ∣ b.contiguity.toInt := by
  by_cases hs : a.step = 1
  · have hs' := h.step_eq (by decide) hs
    simpa [contiguity, hs, hs'] using h.run
  · simp [contiguity, hs]

/-- A length between another and a whole that are the same. -/
theorem eq_extent_of_dvd {x y : Int64} (hx : 0 < x.toInt) (hy : 0 < y.toInt)
    (hxy : x.toInt ∣ y.toInt) (hye : y.toInt ∣ extent.toInt.natAbs) (h : x = extent) :
    y = extent := by
  subst h
  exact Int64.toInt_inj.mp (Int.dvd_antisymm hy.le hx.le (Int.dvd_natAbs.mp hye) hxy)

/-- A run that covers a dimension still does when more is known. -/
theorem Below.isConstantOver (h : a.Below b) (hb : Word.Cuts b.run extent.toInt.natAbs)
    (ha : a.isConstantOver extent = true) : b.isConstantOver extent = true :=
  beq_iff_eq.mpr (eq_extent_of_dvd (constancy_pos h.run_pos) (constancy_pos hb.pos) h.constancy_dvd
    (constancy_cuts hb).dvd (beq_iff_eq.mp ha))

theorem Below.isContiguousOver (h : a.Below b) (hb : Word.Cuts b.run extent.toInt.natAbs)
    (ha : a.isContiguousOver extent = true) : b.isContiguousOver extent = true :=
  beq_iff_eq.mpr (eq_extent_of_dvd (contiguity_pos h.run_pos) (contiguity_pos hb.pos)
    h.contiguity_dvd (contiguity_cuts hb).dvd (beq_iff_eq.mp ha))

end Axis

/-! ### Lanes -/

/-- What one lane says the other says too, and both are tracked. -/
structure Lane.Below (l l' : Lane) : Prop where
  weaker : l.toAxis.Tracked
  stronger : l'.toAxis.Tracked
  axis : l.toAxis.Below l'.toAxis
  constant : ∀ c, l.constant = some c → l'.constant = some c

theorem Lane.Below.constant_cases {l l' : Lane} (h : l.Below l') :
    l.constant = l'.constant ∨ l.constant = none := by
  cases hc : l.constant with
  | none => exact .inr rfl
  | some c => exact .inl (h.constant c hc).symm

theorem Lane.Below.constant_of_none {l l' : Lane} (h : l.Below l') (hnone : l'.constant = none) :
    l.constant = none := by
  rcases h.constant_cases with hc | hc
  · exact hc.trans hnone
  · exact hc

/-- What is said of one dimension agrees with the constant, if there is one. -/
def Lane.Coherent (l : Lane) : Prop := ∀ c, l.constant = some c →
  l.divisibility.toInt ∣ c.toInt ∧ (l.step = 0 ∨ l.step = unknownStep)

namespace Lane.Below

variable {l l' : Lane} (h : l.Below l') (hcoherent : l'.Coherent) {c : Int64}
  (hc : l'.constant = some c)
include h hcoherent hc

theorem step_still : l.step = 0 ∨ l.step = unknownStep := by
  rcases h.axis.step with hs | hs
  · exact .inr hs
  · rw [hs]
    exact (hcoherent c hc).2

/-- A lane below one with a constant describes the constant, on a line of one element. -/
theorem describes : l.Describes 1 fun _ => c where
  axis := by
    refine .of_congruent h.weaker.power h.weaker.run_pos ?_ ?_
    · intro p hp _
      have hzero : p = 0 := by omega
      subst hzero
      have hdvd := h.axis.divisibility.trans (hcoherent c hc).1
      simpa using Int.modEq_zero_iff_dvd.mpr hdvd
    · intro _ p hp
      omega
  constant k hk _ _ := Option.some.inj (hc.symm.trans (h.constant k hk))

end Lane.Below

theorem Fact.Below.lane {a b : Fact} (h : a.Below b) (ha : a.Tracked) (hb : b.Tracked) {d : Nat}
    {l l' : Lane} (hl : a.lane d = .ok l) (hl' : b.lane d = .ok l') : l.Below l' := by
  obtain ⟨hx, hc⟩ := Fact.lane_eq_ok.mp hl
  obtain ⟨hy, hc'⟩ := Fact.lane_eq_ok.mp hl'
  refine ⟨ha.axis hx, hb.axis hy, h.axes d _ _ hx hy, ?_⟩
  rw [hc, hc']
  exact h.constant

/-- Constants that combine still do when more is known. -/
theorem BinaryOp.fold_mono {op : BinaryOp} {a b a' b' : Option Int64} {v : Int64}
    (ha : ∀ c, a = some c → a' = some c) (hb : ∀ c, b = some c → b' = some c)
    (h : op.fold a b = some v) : op.fold a' b' = some v := by
  obtain ⟨l, r, hl, hr, heval⟩ := fold_eq_some h
  rw [ha l hl, hb r hr]
  exact heval

theorem BinaryOp.fold_eq_none_of_mono {op : BinaryOp} {a b a' b' : Option Int64}
    (ha : ∀ c, a = some c → a' = some c) (hb : ∀ c, b = some c → b' = some c)
    (h : op.fold a' b' = none) : op.fold a b = none := by
  cases hfold : op.fold a b with
  | none => rfl
  | some v =>
    rw [fold_mono ha hb hfold] at h
    cases h

/-! ### Policies -/

namespace Policy

variable {policy : Policy} {op : BinaryOp} {l r l' r' : Lane}

theorem shiftAmount_mono (h : r.Below r') {s : Int64} (hs : shiftAmount r = some s) :
    shiftAmount r' = some s := by
  obtain ⟨hc, hamount⟩ := Option.filter_eq_some_iff.mp hs
  exact Option.filter_eq_some_iff.mpr ⟨h.constant s hc, hamount⟩

/-- Along runs of one operand that stand still, runs of a product are those that both have. -/
theorem product_run_of_zero (hl : 0 < l.run.toInt) (h : l.step = 0 ∨ r.step = 0) :
    product.run op l r = Word.gcd l.run r.run := by
  show max (Word.gcd l.constancy r.run) (Word.gcd l.run r.constancy) = _
  rcases h with h | h
  · have hcl : l.constancy = l.run := by simp [Axis.constancy, h]
    rw [hcl]
    exact Word.max_of_dvd_right (Word.gcd_pos hl)
      (Word.gcd_dvd_gcd hl hl dvd_rfl r.constancy_dvd_run)
  · have hcr : r.constancy = r.run := by simp [Axis.constancy, h]
    rw [hcr]
    exact Word.max_of_dvd_left (Word.gcd_pos hl)
      (Word.gcd_dvd_gcd (Axis.constancy_pos hl) hl l.constancy_dvd_run dvd_rfl)

theorem product_run_of_ne_zero (h : ¬ (l.step = 0 ∨ r.step = 0)) : product.run op l r = 1 := by
  obtain ⟨hl, hr⟩ := not_or.mp h
  have hcl : l.constancy = 1 := by simp [Axis.constancy, hl]
  have hcr : r.constancy = 1 := by simp [Axis.constancy, hr]
  show max (Word.gcd l.constancy r.run) (Word.gcd l.run r.constancy) = 1
  rw [hcl, hcr, Word.gcd_comm l.run, Word.gcd_one_left, Word.gcd_one_left]
  rfl

theorem productStep_of_none (hl : l.constant = none) (hr : r.constant = none) :
    productStep l r = unknownStep := by
  unfold productStep
  rw [hl, hr]
  split <;> rfl

/-- At most one factor is constant, and the step follows the other one. -/
theorem productStep_mono (hl : l.Below l') (hr : r.Below r')
    (hfold : BinaryOp.mul.fold l'.constant r'.constant = none) :
    productStep l r = unknownStep ∨ productStep l r = productStep l' r' := by
  rcases hl.axis.step with hls | hls
  · simp [productStep, hls]
  rcases hr.axis.step with hrs | hrs
  · simp [productStep, hrs]
  cases hlc' : l'.constant with
  | none =>
    have hlc := hl.constant_of_none hlc'
    rcases hr.constant_cases with hrc | hrc
    · simp [productStep, hls, hrs, hlc, hlc', hrc]
    · exact .inl (productStep_of_none hlc hrc)
  | some c =>
    have hrc' : r'.constant = none := by
      cases hrc' : r'.constant with
      | none => rfl
      | some c' =>
        rw [hlc', hrc'] at hfold
        cases hfold
    have hrc := hr.constant_of_none hrc'
    rcases hl.constant_cases with hlc | hlc
    · simp [productStep, hls, hrs, hlc, hrc, hrc']
    · exact .inl (productStep_of_none hlc hrc)

theorem toInt_product_divisibility {k j : Nat} (hlk : l.divisibility.toInt = 2 ^ k) (hj : j ≤ 62)
    (hrj : r.divisibility.toInt = 2 ^ j) {m : Int64}
    (hm : product.divisibility op l r = .ok m) : m.toInt = 2 ^ min (k + j) 62 := by
  obtain ⟨w, hw, hpow⟩ := Word.scaleUp_eq_ok hlk (by omega : j < 64)
    (Word.toInt_ofNat_of_small (by omega))
  rw [product_divisibility_eq, Word.log2_of_power hrj, hw] at hm
  cases hm
  exact hpow

theorem toInt_shiftLeft_divisibility {s : Int64} (hs : shiftAmount r = some s) {k : Nat}
    (hlk : l.divisibility.toInt = 2 ^ k) {m : Int64}
    (hm : shiftLeft.divisibility op l r = .ok m) : m.toInt = 2 ^ min (k + s.toInt.toNat) 62 := by
  obtain ⟨_, _, hlow, hhigh⟩ := shiftAmount_eq_some hs
  have hnat : s.toInt = s.toInt.toNat := (Int.toNat_of_nonneg hlow).symm
  obtain ⟨w, hw, hpow⟩ := Word.scaleUp_eq_ok hlk (by omega) hnat
  simp only [shiftLeft, hs, hw] at hm
  cases hm
  exact hpow

section Mono

variable (h : policy.Serves op) (hl : l.Below l') (hr : r.Below r')
include h hl hr

theorem Serves.run_mono : (policy.run op l r).toInt ∣ (policy.run op l' r').toInt := by
  have hgcd := Word.gcd_dvd_gcd hl.axis.run_pos hl.stronger.run_pos hl.axis.run hr.axis.run
  cases h with
  | add | sub => exact hgcd
  | mul =>
    by_cases hzero : l.step = 0 ∨ r.step = 0
    · have hzero' := hzero.imp (hl.axis.step_eq (by decide)) (hr.axis.step_eq (by decide))
      rw [product_run_of_zero hl.axis.run_pos hzero,
        product_run_of_zero hl.stronger.run_pos hzero']
      exact hgcd
    · rw [product_run_of_ne_zero hzero]
      exact one_dvd _
  | shl =>
    show (if (shiftAmount r).isSome then l.run else 1).toInt ∣
      (if (shiftAmount r').isSome then l'.run else 1).toInt
    cases hs : shiftAmount r with
    | none => exact one_dvd _
    | some s =>
      rw [shiftAmount_mono hr hs]
      exact hl.axis.run
  | shrS | shrU =>
    show (if shiftAmount r == some 0 then l.run else 1).toInt ∣
      (if shiftAmount r' == some 0 then l'.run else 1).toInt
    split
    · next hs =>
      rw [shiftAmount_mono hr (beq_iff_eq.mp hs)]
      exact hl.axis.run
    · exact one_dvd _

/-- A known step is kept when more is known, unless the operands become constants. -/
theorem Serves.step_mono (hfold : op.fold l'.constant r'.constant = none) {s s' : Int64}
    (hs : policy.step op l r = .ok s) (hs' : policy.step op l' r' = .ok s') :
    s = unknownStep ∨ s = s' := by
  cases h with
  | add | sub =>
    cases hs
    cases hs'
    show sumStep _ l.step r.step = _ ∨ sumStep _ l.step r.step = sumStep _ l'.step r'.step
    rcases hl.axis.step with hls | hls
    · simp [sumStep, hls]
    · rcases hr.axis.step with hrs | hrs
      · simp [sumStep, hrs]
      · simp [hls, hrs]
  | mul =>
    cases hs
    cases hs'
    exact productStep_mono hl hr hfold
  | shl =>
    cases hamount : shiftAmount r with
    | none =>
      simp only [shiftLeft, hamount] at hs
      exact .inl (Except.ok.inj hs).symm
    | some amount =>
      simp only [shiftLeft, hamount] at hs
      simp only [shiftLeft, shiftAmount_mono hr hamount] at hs'
      rcases hl.axis.step with hls | hls
      · rw [hls] at hs
        exact .inl (Except.ok.inj hs).symm
      · rw [← hls] at hs'
        exact .inr (Except.ok.inj (hs.symm.trans hs'))
  | shrS | shrU =>
    cases hs
    cases hs'
    by_cases hamount : shiftAmount r = some 0
    · rcases hl.axis.step with hls | hls
      · simp [hamount, hls]
      · simp [hamount, shiftAmount_mono hr hamount, hls]
    · simp [hamount]

/-- The divisor of a result grows with those of the operands. -/
theorem Serves.divisibility_mono {m m' : Int64} (hm : policy.divisibility op l r = .ok m)
    (hm' : policy.divisibility op l' r' = .ok m') : m.toInt ∣ m'.toInt := by
  obtain ⟨k, hk, hlk⟩ := hl.weaker.power
  obtain ⟨k', hk', hlk'⟩ := hl.stronger.power
  have hkk : k ≤ k' := Word.le_of_two_pow_dvd (by rw [← hlk, ← hlk']; exact hl.axis.divisibility)
  cases h with
  | add | sub =>
    cases hm
    cases hm'
    exact Word.gcd_dvd_gcd hl.weaker.power.pos hl.stronger.power.pos hl.axis.divisibility
      hr.axis.divisibility
  | mul =>
    obtain ⟨j, hj, hrj⟩ := hr.weaker.power
    obtain ⟨j', hj', hrj'⟩ := hr.stronger.power
    have hjj : j ≤ j' := Word.le_of_two_pow_dvd (by rw [← hrj, ← hrj']; exact hr.axis.divisibility)
    rw [toInt_product_divisibility hlk hj hrj hm, toInt_product_divisibility hlk' hj' hrj' hm']
    exact pow_dvd_pow 2 (by omega)
  | shl =>
    cases hs : shiftAmount r with
    | none =>
      simp only [shiftLeft, hs] at hm
      cases hm
      exact one_dvd _
    | some s =>
      rw [toInt_shiftLeft_divisibility hs hlk hm,
        toInt_shiftLeft_divisibility (shiftAmount_mono hr hs) hlk' hm']
      exact pow_dvd_pow 2 (by omega)
  | shrS | shrU =>
    cases hs : shiftAmount r with
    | none =>
      simp only [shiftRight, hs] at hm
      cases hm
      exact one_dvd _
    | some s =>
      obtain ⟨_, _, hbounds⟩ := shiftAmount_eq_some hs
      cases (shiftRight_divisibility _ l hs).symm.trans hm
      cases (shiftRight_divisibility _ l' (shiftAmount_mono hr hs)).symm.trans hm'
      rw [Word.toInt_max_one_of_quotient (by rw [Word.toInt_shiftRight hbounds, hlk]),
        Word.toInt_max_one_of_quotient (by rw [Word.toInt_shiftRight hbounds, hlk'])]
      exact pow_dvd_pow 2 (by omega)

/-- What is said of one dimension grows, as long as the operands are not both constants. -/
theorem Serves.axis_mono (hfold : op.fold l'.constant r'.constant = none) {x y : Axis}
    (hx : policy.axis op l r none = .ok x) (hy : policy.axis op l' r' none = .ok y) :
    x.Below y := by
  obtain ⟨m, s, hm, hs, rfl⟩ := axis_none_eq_ok.mp hx
  obtain ⟨m', s', hm', hs', rfl⟩ := axis_none_eq_ok.mp hy
  have hpos : 0 < (policy.run op l r).toInt :=
    (h.cuts (Word.cuts_of_dvd hl.axis.run_pos dvd_rfl)).pos
  exact ⟨(h.power hl.weaker.power hr.weaker.power hm).pos, h.divisibility_mono hl hr hm hm', hpos,
    h.run_mono hl hr, h.step_mono hl hr hfold hs hs'⟩

end Mono

/-! ### Constants folded by policies -/

theorem mul?_zero (factor : Int64) : Word.mul? 0 factor = some 0 :=
  Word.ofInt?_eq_some.mpr (zero_mul factor.toInt).symm

theorem scaledStep_still (factor : Option Int64) :
    scaledStep 0 factor = 0 ∨ scaledStep 0 factor = unknownStep := by
  cases factor with
  | none => exact .inr rfl
  | some c =>
    left
    unfold scaledStep
    rw [Option.bind_some, mul?_zero]
    rfl

theorem shiftedStep_zero {shift : Int64} (h : 0 ≤ shift.toInt ∧ shift.toInt < 64) :
    shiftedStep 0 shift = .ok 0 := by
  rw [shiftedStep_eq 0 h, mul?_zero]
  rfl

theorem max_still {x y : Int64} (hx : x = 0 ∨ x = unknownStep) (hy : y = 0 ∨ y = unknownStep) :
    max x y = 0 ∨ max x y = unknownStep := by
  rcases hx with rfl | rfl <;> rcases hy with rfl | rfl <;> decide

/-- Operands that stand still, as far as is known, have results that do. -/
theorem Serves.step_still (h : policy.Serves op) (hl : l.step = 0 ∨ l.step = unknownStep)
    (hr : r.step = 0 ∨ r.step = unknownStep) {s : Int64} (hs : policy.step op l r = .ok s) :
    s = 0 ∨ s = unknownStep := by
  cases h with
  | add | sub =>
    cases hs
    show sumStep _ l.step r.step = 0 ∨ sumStep _ l.step r.step = unknownStep
    rcases hl with hl | hl <;> rcases hr with hr | hr <;> rw [hl, hr] <;> decide
  | mul =>
    cases hs
    show productStep l r = 0 ∨ productStep l r = unknownStep
    unfold productStep
    split
    · exact .inr rfl
    · next hknown =>
      simp only [Bool.or_eq_true, beq_iff_eq, not_or] at hknown
      rw [hl.resolve_right hknown.1, hr.resolve_right hknown.2]
      exact max_still (scaledStep_still _) (scaledStep_still _)
  | shl =>
    cases hamount : shiftAmount r with
    | none =>
      simp only [shiftLeft, hamount] at hs
      exact .inr (Except.ok.inj hs).symm
    | some amount =>
      simp only [shiftLeft, hamount] at hs
      rcases hl with hl | hl
      · have hzero := shiftedStep_zero (shiftAmount_eq_some hamount).2.2
        rw [hl, if_neg (by decide), hzero] at hs
        exact .inl (Except.ok.inj hs).symm
      · rw [hl] at hs
        exact .inr (Except.ok.inj hs).symm
  | shrS | shrU =>
    cases hs
    show (if _ then l.step else unknownStep) = 0 ∨ (if _ then l.step else unknownStep) = unknownStep
    split
    · exact hl
    · exact .inr rfl

/-- Two constants give a constant, and everything that could be said without knowing both of them
follows from it. -/
theorem Serves.axis_of_fold (h : policy.Serves op) (hl : l.Below l') (hr : r.Below r')
    (hlc : l'.Coherent) (hrc : r'.Coherent) {v : Int64}
    (hfold' : op.fold l'.constant r'.constant = some v)
    (hfold : op.fold l.constant r.constant = none) {x : Axis}
    (hx : policy.axis op l r none = .ok x) {run : Int64} (hrun : l'.run.toInt ∣ run.toInt) :
    x.Below ⟨Word.powerDivisor v, run, 0⟩ := by
  obtain ⟨cl, cr, hcl, hcr, heval⟩ := BinaryOp.fold_eq_some hfold'
  have hstep : x.step = 0 ∨ x.step = unknownStep := by
    obtain ⟨m, s, _, hs, rfl⟩ := axis_none_eq_ok.mp hx
    exact h.step_still (hl.step_still hlc hcl) (hr.step_still hrc hcr) hs
  have hcut : x.run.toInt ∣ l.run.toInt := by
    obtain ⟨m, s, _, _, rfl⟩ := axis_none_eq_ok.mp hx
    exact Int.dvd_natAbs.mp (h.cuts (Word.cuts_of_dvd hl.axis.run_pos dvd_rfl)).dvd
  -- A line of one element is enough to see the divisor.
  have hline : x.Describes 1 fun _ => v := by
    refine h.sound (hl.describes hlc hcl) (hr.describes hrc hcr) (fun _ _ => heval) ?_
    rw [h.constant, hfold]
    exact hx
  exact ⟨hline.power.pos, hline.power.dvd_powerDivisor (hline.head Nat.one_pos), hline.run_pos,
    hcut.trans (hl.axis.run.trans hrun), hstep.symm⟩

/-- Whether constants are folded or not, more is said of a dimension when more is known of it. Two
constants have the longer of their runs, and so the shorter one has to be a part of it. -/
theorem Serves.axis_grows (h : policy.Serves op) (hl : l.Below l') (hr : r.Below r')
    (hlc : l'.Coherent) (hrc : r'.Coherent)
    (hnested : op.fold l'.constant r'.constant ≠ none →
      l'.run.toInt ∣ r'.run.toInt ∨ r'.run.toInt ∣ l'.run.toInt) {x y : Axis}
    (hx : policy.axis op l r (op.fold l.constant r.constant) = .ok x)
    (hy : policy.axis op l' r' (op.fold l'.constant r'.constant) = .ok y) : x.Below y := by
  cases hfold' : op.fold l'.constant r'.constant with
  | none =>
    have hfold := BinaryOp.fold_eq_none_of_mono hl.constant hr.constant hfold'
    rw [hfold] at hx
    rw [hfold'] at hy
    exact h.axis_mono hl hr hfold' hx hy
  | some v =>
    obtain ⟨hleft, hright⟩ := Word.dvd_max hl.stronger.run_pos hr.stronger.run_pos
      (hnested (by rw [hfold']; exact Option.some_ne_none v))
    rw [hfold'] at hy
    cases hy
    cases hfold : op.fold l.constant r.constant with
    | none =>
      rw [hfold] at hx
      exact h.axis_of_fold hl hr hlc hrc hfold' hfold hx hleft
    | some w =>
      have hsame := BinaryOp.fold_mono hl.constant hr.constant hfold
      rw [hfold'] at hsame
      cases hsame
      rw [hfold] at hx
      cases hx
      have hpos := (Word.isPower_powerDivisor v).pos
      have hcuts := (Word.cuts_of_dvd hl.axis.run_pos (hl.axis.run.trans hleft)).max
        (Word.cuts_of_dvd hr.axis.run_pos (hr.axis.run.trans hright))
      exact ⟨hpos, dvd_rfl, hcuts.pos, Int.dvd_natAbs.mp hcuts.dvd, .inr rfl⟩

end Policy

/-! ### Quotients -/

namespace Rule

variable {l r l' r' : Lane} {extent divisor : Int64}

/-- Buckets are as long as the runs of the dividend, or leave no divisor that could be lost. -/
def KeepsDivisor (l r : Lane) (extent : Int64) : Prop := ∀ divisor, Buckets l r extent divisor →
  bucketRun l r = l.run ∨ Word.scaleDown l.divisibility divisor = 1

theorem Buckets.step_ne_zero (h : Buckets l r extent divisor) : l.step ≠ 0 := by
  intro hs
  have hpos := h.step_pos
  rw [hs] at hpos
  exact absurd hpos (by decide)

section Quotient

variable (hl : l.Below l') (hr : r.Below r') (hcl : Word.Cuts l'.run extent.toInt.natAbs)
  (hcr : Word.Cuts r'.run extent.toInt.natAbs)
include hl

theorem Buckets.step_eq (h : Buckets l r extent divisor) : l'.step = l.step :=
  hl.axis.step_eq h.step_ne_unknown rfl

include hr hcl hcr

/-- Buckets are still there when more is known. -/
theorem Buckets.mono (h : Buckets l r extent divisor) : Buckets l' r' extent divisor where
  constant := hr.constant divisor h.constant
  divisor := h.divisor
  varies := by
    have hsame : l'.constancy = l.constancy := by
      simp [Axis.constancy, h.step_eq hl, h.step_ne_zero]
    unfold Axis.isConstantOver
    rw [hsame]
    exact h.varies
  strided := by
    have hpos : 0 < extent.toInt := by
      rw [← beq_iff_eq.mp h.steady]
      exact Axis.constancy_pos hr.axis.run_pos
    have hdvd := Int.dvd_natAbs.mp hcl.dvd
    have hle : l'.run ≤ extent := Int64.le_iff_toInt_le.mpr (Int.le_of_dvd hpos hdvd)
    simp [Axis.isStridedWithin, h.step_eq hl, h.step_ne_unknown, hle]
  steady := hr.axis.isConstantOver hcr h.steady
  step := by
    rw [h.step_eq hl]
    exact h.step

theorem quotientAxis_mono (hkeeps : KeepsDivisor l' r' extent) {x y : Axis}
    (hx : quotientAxis l r extent = .ok x) (hy : quotientAxis l' r' extent = .ok y) :
    x.Below y := by
  rcases eq_of_quotientAxis hx with ⟨divisor, h, rfl⟩ | rfl
  · have h' := h.mono hl hr hcl hcr
    have hstep := h.step_eq hl
    have hrun : (bucketRun l r).toInt ∣ (bucketRun l' r').toInt := by
      refine Word.gcd_dvd_gcd hl.axis.run_pos hl.stronger.run_pos hl.axis.run ?_
      rw [hstep]
      exact (hl.weaker.power.gcd _).max_one_dvd (hl.stronger.power.gcd _) h.step
        (Word.gcd_dvd_gcd hl.axis.divisibility_pos hl.stronger.power.pos hl.axis.divisibility
          hr.axis.divisibility)
    have hscale : (Word.scaleDown l.divisibility divisor).toInt ∣
        (Word.scaleDown l'.divisibility divisor).toInt := by
      simp only [Word.scaleDown, h.divisor, if_true]
      exact hl.weaker.power.max_one_dvd hl.stronger.power h.divisor hl.axis.divisibility
    cases h'.quotientAxis_eq.symm.trans hy
    refine ⟨?_, ?_, Word.gcd_pos hl.axis.run_pos, hrun, .inr (by rw [hstep])⟩
    · show 0 < (if _ then Word.scaleDown l.divisibility divisor else 1).toInt
      split
      · exact (hl.weaker.power.scaleDown divisor).pos
      · decide
    · show (if _ then Word.scaleDown l.divisibility divisor else 1).toInt ∣
        (if _ then Word.scaleDown l'.divisibility divisor else 1).toInt
      split
      · rcases hkeeps divisor h' with hwhole | hnone
        · rw [if_pos (beq_iff_eq.mpr hwhole)]
          exact hscale
        · rw [hnone] at hscale ⊢
          rwa [ite_self]
      · exact one_dvd _
  · exact Axis.top_below y

end Quotient

/-- A dividend that stands still, as far as is known, has no buckets. -/
theorem quotientAxis_of_still (hl : l.step = 0 ∨ l.step = unknownStep) (r : Lane)
    (extent : Int64) : quotientAxis l r extent = .ok .top := by
  rcases quotientAxis_cases l r extent with ⟨divisor, h⟩ | htop
  · rcases hl with hs | hs
    · exact absurd hs h.step_ne_zero
    · exact absurd hs h.step_ne_unknown
  · exact htop

/-! ### Remainders -/

section Mono

variable (hl : l.Below l') (hr : r.Below r') (hcl : Word.Cuts l'.run extent.toInt.natAbs)
  (hcr : Word.Cuts r'.run extent.toInt.natAbs)
include hl hr hcl hcr

theorem CountsUp.mono (h : CountsUp l r extent) : CountsUp l' r' extent :=
  ⟨hl.axis.isContiguousOver hcl h.1, hr.axis.isConstantOver hcr h.2⟩

theorem remainderAxis_mono : (remainderAxis l r extent).Below (remainderAxis l' r' extent) := by
  by_cases h : CountsUp l r extent
  · rw [h.remainderAxis_eq, (h.mono hl hr hcl hcr).remainderAxis_eq]
    have hcommon := Word.gcd_dvd_gcd hl.axis.divisibility_pos hl.stronger.power.pos
      hl.axis.divisibility hr.axis.divisibility
    have hpos := Axis.contiguity_pos hl.axis.run_pos
    have hpos' := Axis.contiguity_pos hl.stronger.run_pos
    exact ⟨Word.gcd_pos hl.axis.divisibility_pos, hcommon, Word.gcd_pos hpos,
      Word.gcd_dvd_gcd hpos hpos' hl.axis.contiguity_dvd hcommon, .inr rfl⟩
  · rw [remainderAxis_of_not h]
    exact Axis.top_below _

end Mono

/-! ### Comparisons -/

section Comparison

variable {a b a' b' : Axis}

theorem strictRun_mono (ha : a.Below a') (hb : b.Below b')
    (hca : Word.Cuts a'.run extent.toInt.natAbs) (hcb : Word.Cuts b'.run extent.toInt.natAbs)
    (hpos : 0 < a'.divisibility.toInt) :
    (strictRun a b extent).toInt ∣ (strictRun a' b' extent).toInt := by
  by_cases h : Crosses a b extent
  · have h' : Crosses a' b' extent :=
      h.imp (.imp (ha.isConstantOver hca) (hb.isContiguousOver hcb))
        (.imp (ha.isContiguousOver hca) (hb.isConstantOver hcb))
    have hextent := h.extent_pos ha.run_pos
    rw [h.strictRun_eq ha.run_pos, h'.strictRun_eq hca.pos]
    exact Word.gcd_dvd_gcd hextent hextent dvd_rfl
      (Word.gcd_dvd_gcd ha.divisibility_pos hpos ha.divisibility hb.divisibility)
  · have hboth := Word.gcd_dvd_gcd (Axis.constancy_pos ha.run_pos) (Axis.constancy_pos hca.pos)
      ha.constancy_dvd hb.constancy_dvd
    rw [strictRun_of_not h]
    by_cases h' : Crosses a' b' extent
    · rw [h'.gcd_constancy] at hboth
      exact hboth.trans (one_dvd _)
    · rw [strictRun_of_not h']
      exact hboth

end Comparison

end Rule

/-! ### Choices -/

namespace Axis

variable {a b : Axis}

theorem Below.shorten_left (h : a.Below b) (x : Int64) :
    ({ a with run := Word.gcd a.run x } : Axis).Below b :=
  ⟨h.divisibility_pos, h.divisibility, Word.gcd_pos h.run_pos,
    (Word.gcd_dvd_left h.run_pos).trans h.run, h.step⟩

theorem Below.shorten (h : a.Below b) {x y : Int64} (hpos : 0 < b.run.toInt)
    (hxy : x.toInt ∣ y.toInt) :
    ({ a with run := Word.gcd a.run x } : Axis).Below { b with run := Word.gcd b.run y } :=
  ⟨h.divisibility_pos, h.divisibility, Word.gcd_pos h.run_pos,
    Word.gcd_dvd_gcd h.run_pos hpos h.run hxy, h.step⟩

end Axis

end TileFacts
