import TileFacts.Proofs.Rule.Quotient

/-! Sums, products and shifts, run by run.

A policy works out divisors, runs and steps apart from each other. Steps are right: along a run of
the answer both operands make their own steps, or stand still (`Policy.Serves.steps`). The divisor
is right of every element that is made of multiples of the divisors of the operands
(`Policy.Serves.divisibility_dvd`), and the facts of the operands vouch for these at the first
elements of their runs, and everywhere if nothing changes along a run.

But the runs of an answer can be shorter than those of an operand, and then some start inside a run
of the operand, at an element that is no multiple of its divisor.

Main statement: what is answered holds of the results, run by run, exactly if the divisor divides
the first elements of those runs. Left shifts keep the runs of their operand. -/
namespace TileFacts

/-! ### Elements that an operand vouches for -/

/-- The divisor of a lane is known to divide the element at a position: the first of a run, and any
element if nothing changes. -/
def Lane.Vouches (l : Lane) (p : Nat) : Prop :=
  l.run.toInt ∣ p ∨ l.step = 0 ∨ l.constant.isSome = true

instance (l : Lane) (p : Nat) : Decidable (l.Vouches p) :=
  inferInstanceAs (Decidable (_ ∨ _))

theorem Lane.Holds.dvd {l : Lane} {n : Nat} {x : Nat → Int64} (h : l.Holds n x)
    (hl : Word.IsPower l.divisibility) {p : Nat} (hp : p < n) (hv : l.Vouches p) :
    l.divisibility.toInt ∣ (x p).toInt := by
  have hfirst := h.axis.heads 0 (by omega) (dvd_zero _)
  rcases hv with hrun | hstep | hconstant
  · exact h.axis.heads p hp hrun
  · have hzero : l.step.toInt = 0 := by
      rw [hstep]
      rfl
    have hmod := h.axis.congruent (by rw [hstep]; decide) dvd_rfl (by simp [hzero]) hl.dvd_size p hp
    rw [hzero, mul_zero] at hmod
    exact Int.modEq_zero_iff_dvd.mp hmod
  · obtain ⟨c, hc⟩ := Option.isSome_iff_exists.mp hconstant
    rw [h.constant c hc p hp, ← h.constant c hc 0 (by omega)]
    exact hfirst

/-! ### Policies along a line -/

namespace Policy

variable {policy : Policy} {op : BinaryOp} {l r : Lane} {m : Int64}

/-- The divisor of the answer divides what multiples of the divisors of both operands make. -/
theorem Serves.divisibility_dvd (h : policy.Serves op) (hl : Word.IsPower l.divisibility)
    (hr : Word.IsPower r.divisibility) (hm : policy.divisibility op l r = .ok m) {a b c : Int64}
    (ha : l.divisibility.toInt ∣ a.toInt) (hb : r.divisibility.toInt ∣ b.toInt)
    (hconstant : ∀ s, r.constant = some s → b = s) (hc : op.evaluate a b = some c) :
    m.toInt ∣ c.toInt := by
  have hsum (hop : op = .add ∨ op = .sub) (hm : sum.divisibility op l r = .ok m) :
      m.toInt ∣ c.toInt := by
    cases hm
    rw [evaluate_eq_sumWord hop hc]
    apply ((hl.gcd r.divisibility).of_modEq (toInt_sumWord_modEq op a b)).dvd_iff.mpr
    exact Int.dvd_add ((Word.gcd_dvd_left hl.pos).trans ha)
      (Dvd.dvd.mul_left ((Word.gcd_dvd_right hl.pos).trans hb) _)
  have hshr (hop : op = .shrS ∨ op = .shrU) (hm : shiftRight.divisibility op l r = .ok m) :
      m.toInt ∣ c.toInt := by
    cases hs : shiftAmount r with
    | none =>
      simp only [shiftRight, hs] at hm
      cases hm
      exact one_dvd _
    | some shift =>
      obtain ⟨hshift, _, hbounds⟩ := shiftAmount_eq_some hs
      rw [hconstant shift hshift] at hc
      obtain ⟨_, u, hu, hcu⟩ := evaluate_shiftRight hop hc
      obtain ⟨hpow, hquot⟩ := shiftRight_divisor hl hbounds
      cases (shiftRight_divisibility op l hs).symm.trans hm
      apply (hpow.of_modEq hcu).dvd_iff.mpr
      exact hquot u ((hl.of_modEq hu).dvd_iff.mpr ha)
  cases h with
  | add => exact hsum (.inl rfl) hm
  | sub => exact hsum (.inr rfl) hm
  | mul =>
    obtain ⟨hpow, hdvd⟩ := product_divisibility hl hr hm
    cases hc
    apply (hpow.of_modEq (Word.toInt_mul_modEq a b)).dvd_iff.mpr
    exact hdvd.trans (mul_dvd_mul ha hb)
  | shl =>
    cases hs : shiftAmount r with
    | none =>
      simp only [shiftLeft, hs] at hm
      cases hm
      exact one_dvd _
    | some shift =>
      rw [hconstant shift (shiftAmount_eq_some hs).1] at hc
      obtain ⟨hpow, hdvd⟩ := shiftLeft_divisibility hl hs hm
      apply (hpow.of_modEq (evaluate_shiftLeft hc).2).dvd_iff.mpr
      exact hdvd.trans (mul_dvd_mul_right ha _)
  | shrS => exact hshr (.inl rfl) hm
  | shrU => exact hshr (.inr rfl) hm

section Lines

variable {n : Nat} {x y z : Nat → Int64}

/-- A right shift has the steps of its operand if it shifts by nothing, and no others. -/
theorem shiftRight_steps (hop : op = .shrS ∨ op = .shrU) (hx : l.Holds n x) (hy : r.Holds n y)
    (hz : ∀ p < n, op.evaluate (x p) (y p) = some (z p)) :
    (⟨m, shiftRight.run op l r, if shiftAmount r == some 0 then l.step else unknownStep⟩ :
      Axis).Steps n z := by
  by_cases hs : shiftAmount r = some 0
  · have hsame : ∀ p < n, x p = z p := by
      intro p hp
      have heval := hz p hp
      rw [hy.constant 0 (shiftAmount_eq_some hs).1 p hp] at heval
      obtain ⟨_, u, hu, hzu⟩ := evaluate_shiftRight hop heval
      exact Word.eq_of_modEq (hu.symm.trans (by simpa using hzu.symm))
    simp only [shiftRight, hs, beq_self_eq_true, if_true]
    exact (hx.axis.congr hsame).steps
  · intro hstep
    simp [hs] at hstep

/-- Along the runs of an answer, its step leads from each element to the next. -/
theorem Serves.steps (h : policy.Serves op) (hl : 0 < l.run.toInt) (hx : l.Holds n x)
    (hy : r.Holds n y) (hfold : op.fold l.constant r.constant = none)
    (hz : ∀ p < n, op.evaluate (x p) (y p) = some (z p)) {step : Int64}
    (hstep : policy.step op l r = .ok step) :
    (⟨m, policy.run op l r, step⟩ : Axis).Steps n z := by
  cases h with
  | add =>
    cases hstep
    exact sum_steps hl hx.axis.steps hy.axis.steps fun p hp =>
      evaluate_eq_sumWord (.inl rfl) (hz p hp)
  | sub =>
    cases hstep
    exact sum_steps hl hx.axis.steps hy.axis.steps fun p hp =>
      evaluate_eq_sumWord (.inr rfl) (hz p hp)
  | mul =>
    cases hstep
    refine product_steps hl hx.axis.steps hy.axis.steps hx.constant hy.constant hfold fun p hp => ?_
    rw [← Option.some.inj (hz p hp)]
    exact Word.toInt_mul_modEq (x p) (y p)
  | shl =>
    cases hs : shiftAmount r with
    | none =>
      simp only [shiftLeft, hs] at hstep
      cases hstep
      exact fun hknown => absurd rfl hknown
    | some shift =>
      have hrun : shiftLeft.run .shl l r = l.run := by simp [shiftLeft, hs]
      rw [hrun]
      refine Axis.Steps.scale hx.axis.steps (fun p hp => ?_) dvd_rfl
        (shiftLeft_step hs hstep)
      have heval := hz p hp
      rw [hy.constant shift (shiftAmount_eq_some hs).1 p hp] at heval
      exact (evaluate_shiftLeft heval).2
  | shrS =>
    cases hstep
    exact shiftRight_steps (.inl rfl) hx hy hz
  | shrU =>
    cases hstep
    exact shiftRight_steps (.inr rfl) hx hy hz

/-- One dimension of an answer that is no constant holds of a line of results exactly if its divisor
divides the first elements of its runs where an operand does not vouch for it. -/
theorem Serves.axis_holds_iff (h : policy.Serves op) (hl : l.toAxis.Tracked)
    (hr : r.toAxis.Tracked) (hx : l.Holds n x) (hy : r.Holds n y)
    (hfold : op.fold l.constant r.constant = none)
    (hz : ∀ p < n, op.evaluate (x p) (y p) = some (z p)) {axis : Axis}
    (haxis : policy.axis op l r none = .ok axis) :
    axis.Holds n z ↔ ∀ p < n, axis.run.toInt ∣ p → ¬ (l.Vouches p ∧ r.Vouches p) →
      axis.divisibility.toInt ∣ (z p).toInt := by
  obtain ⟨m, step, hm, hstep, rfl⟩ := axis_none_eq_ok.mp haxis
  constructor
  · intro hholds p hp hrun _
    exact hholds.heads p hp hrun
  · intro hheads
    refine ⟨fun p hp hrun => ?_, h.steps hl.run_pos hx hy hfold hz hstep⟩
    by_cases hv : l.Vouches p ∧ r.Vouches p
    · exact h.divisibility_dvd hl.power hr.power hm (hx.dvd hl.power hp hv.1)
        (hy.dvd hr.power hp hv.2) (fun s hs => hy.constant s hs p hp) (hz p hp)
    · exact hheads p hp hrun hv

/-- A left shift starts its runs where its operand does, or claims nothing of them. -/
theorem shiftLeft_heads {axis : Axis} (haxis : shiftLeft.axis .shl l r none = .ok axis) {p : Nat}
    (hrun : axis.run.toInt ∣ p) : (l.Vouches p ∧ r.Vouches p) ∨ axis.divisibility = 1 := by
  obtain ⟨m, _, hm, _, rfl⟩ := axis_none_eq_ok.mp haxis
  cases hs : shiftAmount r with
  | none =>
    simp only [shiftLeft, hs] at hm
    cases hm
    exact .inr rfl
  | some shift =>
    have hkeeps : shiftLeft.run .shl l r = l.run := by simp [shiftLeft, hs]
    have hconstant : r.constant.isSome = true := by simp [(shiftAmount_eq_some hs).1]
    exact .inl ⟨.inl (hkeeps ▸ hrun), .inr (.inr hconstant)⟩

end Lines

end Policy

/-! ### Results as tensors -/

section Tensors

variable {ctx : Context} {policy : Policy} {op : BinaryOp} {a b : Fact} {x y z : Tensor}

theorem Rule.policy_answer_iff (hpolicy : policy.Serves op) (h : ctx.Binary op a b) (ha : a.Tracked)
    (hb : b.Tracked) (hx : a.Holds x) (hy : b.Holds y) (hz : Tensor.Combines op x y z) :
    ∃ f, policy.rule ctx [a, b] = .ok f ∧ f.rank = ctx.rank ∧
      (f.Holds z ↔ ∀ (d : Nat) (axis : Axis) (l r : Lane), f.axes[d]? = some axis →
        a.lane d = .ok l → b.lane d = .ok r → ∀ i, z.shape.Contains i →
        ∀ p < z.shape.getD d 1, axis.run.toInt ∣ p → ¬ (l.Vouches p ∧ r.Vouches p) →
          axis.divisibility.toInt ∣ (z.line d i p).toInt) ∧
      (op = .shl → f.Holds z) := by
  obtain ⟨axes, hrule, hlen, haxes⟩ := policy.rule_eq_ok hpolicy.total h
  rw [hpolicy.constant] at hrule haxes
  have hrank : axes.length = max z.shape.length 1 := by rw [hlen, ← h.left, hx.rank, hz.left]
  refine ⟨_, hrule, hlen, ?_⟩
  cases hfold : op.fold a.constant b.constant with
  | some q =>
    have hconstant := hz.fold hx.constant hy.constant hfold
    have hholds : (⟨axes, some q⟩ : Fact).Holds z := by
      refine Fact.holds_of_isConstant hconstant hrank fun d axis haxis => ?_
      obtain ⟨l, r, _, _, haxis⟩ := haxes d axis haxis
      rw [hfold] at haxis
      cases haxis
      exact ⟨_, rfl⟩
    refine ⟨iff_of_true hholds ?_, fun _ => hholds⟩
    intro d axis l r haxis _ _ i hi p hp hrun _
    exact (hholds.axes d axis haxis i hi).heads p hp hrun
  | none =>
    have hline : ∀ (d : Nat) (axis : Axis), axes[d]? = some axis → ∃ l r, a.lane d = .ok l ∧
        b.lane d = .ok r ∧ policy.axis op l r none = .ok axis ∧ ∀ i, z.shape.Contains i →
        (axis.Holds (z.shape.getD d 1) (z.line d i) ↔ ∀ p < z.shape.getD d 1,
          axis.run.toInt ∣ p → ¬ (l.Vouches p ∧ r.Vouches p) →
            axis.divisibility.toInt ∣ (z.line d i p).toInt) := by
      intro d axis haxis
      obtain ⟨l, r, hl, hr, haxis⟩ := haxes d axis haxis
      rw [hfold] at haxis
      have hfoldLane : op.fold l.constant r.constant = none := by
        rwa [(Fact.lane_eq_ok.mp hl).2, (Fact.lane_eq_ok.mp hr).2]
      refine ⟨l, r, hl, hr, haxis, fun i hi => ?_⟩
      obtain ⟨hxl, hyr⟩ := hz.lanes_hold hx hy hl hr hi
      exact hpolicy.axis_holds_iff (ha.lane hl) (hb.lane hr) hxl hyr hfoldLane
        (fun p hp => hz.elements _ (hi.set hp)) haxis
    rw [Fact.holds_none_iff hrank]
    refine ⟨⟨fun hall d axis l r haxis hl hr i hi => ?_, fun hheads d axis haxis i hi => ?_⟩, ?_⟩
    · obtain ⟨l', r', hl', hr', _, hiff⟩ := hline d axis haxis
      cases hl.symm.trans hl'
      cases hr.symm.trans hr'
      exact (hiff i hi).mp (hall d axis haxis i hi)
    · obtain ⟨l, r, hl, hr, _, hiff⟩ := hline d axis haxis
      exact (hiff i hi).mpr (hheads d axis l r haxis hl hr i hi)
    · rintro rfl d axis haxis i hi
      cases hpolicy
      obtain ⟨l, r, _, _, haxis, hiff⟩ := hline d axis haxis
      apply (hiff i hi).mpr
      intro p _ hrun hv
      rw [(Policy.shiftLeft_heads haxis hrun).resolve_left hv]
      exact one_dvd _

end Tensors

/-! ### The standard rulebook -/

section Standard

variable {g : Graph} {v : ValueId} {ctx : Context} {policy : Policy} {op : BinaryOp} {a b : Fact}
  {x y z : Tensor}

/-- What is answered for a sum, a product or a shift, of numbers or of a pointer and an offset,
holds of the results exactly if its divisor divides the first element of every run that starts
inside a run of an operand. What is answered for a left shift always does. -/
theorem Rulebook.policy_holds_iff (hg : g.WellTyped) (hctx : g.context v = .ok ctx)
    (hop : ctx.binaryOp = .ok op) (hpolicy : policy.Serves op) (ha : a.Tracked) (hb : b.Tracked)
    (hx : a.Holds x) (hy : b.Holds y) (hz : Tensor.Combines op x y z)
    (hshape : z.shape = ctx.type.shape) :
    ∃ f, policy.rule ctx [a, b] = .ok f ∧ standard.transfer ctx [a, b] = .ok f ∧
      (f.Holds z ↔ ∀ (d : Nat) (axis : Axis) (l r : Lane), f.axes[d]? = some axis →
        a.lane d = .ok l → b.lane d = .ok r → ∀ i, z.shape.Contains i →
        ∀ p < z.shape.getD d 1, axis.run.toInt ∣ p → ¬ (l.Vouches p ∧ r.Vouches p) →
          axis.divisibility.toInt ∣ (z.line d i p).toInt) ∧
      (op = .shl → f.Holds z) := by
  have hbinary := (hg.typed_of_context hctx).binary_of_holds hop hz hshape hx hy
  have hrule : standard.rule ctx.kind = some policy.rule := by
    rw [standard_rule_of_binaryOp hop]
    cases hpolicy <;> rfl
  obtain ⟨f, hf, hrank, hiff⟩ := Rule.policy_answer_iff hpolicy hbinary ha hb hx hy hz
  exact ⟨f, hf, transfer_eq_ok hrule hf hrank, hiff⟩

/-- Runs of eight and runs of four, both by ones: their sum goes by twos in runs of four, and the
second one starts inside the run of eight, with four. -/
theorem Rulebook.policy_holds_iff_inside : (Graph.divided .add 0).WellTyped ∧
    (Graph.divided .add 0).context 2 = .ok (.divided .add) ∧ Policy.sum.Serves .add ∧
    Fact.Tracked ⟨[⟨8, 8, 1⟩], none⟩ ∧ Fact.Tracked ⟨[⟨4, 4, 1⟩], none⟩ ∧
    Fact.Holds ⟨[⟨8, 8, 1⟩], none⟩ (.along 8 .ofNat) ∧
    Fact.Holds ⟨[⟨4, 4, 1⟩], none⟩ (.along 8 fun p => .ofNat (p % 4)) ∧
    Tensor.Combines .add (.along 8 .ofNat) (.along 8 fun p => .ofNat (p % 4))
      (.along 8 fun p => .ofNat (p + p % 4)) ∧
    ∃ f, standard.transfer (.divided .add) [⟨[⟨8, 8, 1⟩], none⟩, ⟨[⟨4, 4, 1⟩], none⟩] = .ok f ∧
      f = ⟨[⟨4, 4, 2⟩], none⟩ ∧ f.Holds (.along 8 fun p => .ofNat (p + p % 4)) := by
  have hg := (Graph.divided_built .add 0).wellTyped
  have ha : Fact.Tracked ⟨[⟨8, 8, 1⟩], none⟩ := by decide +kernel
  have hb : Fact.Tracked ⟨[⟨4, 4, 1⟩], none⟩ := by decide +kernel
  have hx : Fact.Holds ⟨[⟨8, 8, 1⟩], none⟩ (.along 8 .ofNat) :=
    Fact.holds_along.mpr (by decide +kernel)
  have hy : Fact.Holds ⟨[⟨4, 4, 1⟩], none⟩ (.along 8 fun p => .ofNat (p % 4)) :=
    Fact.holds_along.mpr (by decide +kernel)
  have hz : Tensor.Combines .add (.along 8 .ofNat) (.along 8 fun p => .ofNat (p % 4))
      (.along 8 fun p => .ofNat (p + p % 4)) :=
    ⟨rfl, rfl, Shape.forall_contains_singleton (by decide +kernel)⟩
  obtain ⟨f, _, htransfer, hiff, _⟩ := policy_holds_iff hg (Graph.context_divided .add 0) rfl .add
    ha hb hx hy hz rfl
  have heq : f = ⟨[⟨4, 4, 2⟩], none⟩ := Except.ok.inj (htransfer.symm.trans (by decide +kernel))
  subst heq
  refine ⟨hg, rfl, .add, ha, hb, hx, hy, hz, _, htransfer, rfl, hiff.mpr ?_⟩
  intro d axis l r haxis _ _ i hi p hp hrun _
  cases d with
  | zero =>
    cases haxis
    obtain ⟨q, j, rfl, _, _⟩ := Shape.contains_cons.mp hi
    have hheads : ∀ p : Nat, p < 8 → (4 : Int) ∣ p →
        (4 : Int) ∣ (Int64.ofNat (p + p % 4)).toInt := by
      decide +kernel
    exact hheads p hp hrun
  | succ d => cases haxis

/-- Runs that are cut start anywhere. The halves of the numbers below eight, and their squares, are
said to be multiples of large powers of two. The sum of runs of four and of pairs is said to have
runs of two that start with multiples of four, and the second one starts with six. -/
theorem Rulebook.policy_not_holds :
    Fact.Tracked ⟨[⟨Word.maxPower, 8, 1⟩], none⟩ ∧
    Fact.Holds ⟨[⟨Word.maxPower, 8, 1⟩], none⟩ (.along 8 .ofNat) ∧
    ((Graph.divided .shrU 1).WellTyped ∧
      (Graph.divided .shrU 1).context 2 = .ok (.divided .shrU) ∧
      Fact.Tracked (.ofConstant 1 [8]) ∧ Fact.Holds (.ofConstant 1 [8]) (.along 8 fun _ => 1) ∧
      standard.transfer (.divided .shrU)
        [⟨[⟨Word.maxPower, 8, 1⟩], none⟩, .ofConstant 1 [8]] =
        .ok ⟨[⟨Word.maxPower / 2, 1, unknownStep⟩], none⟩ ∧
      Tensor.Combines .shrU (.along 8 .ofNat) (.along 8 fun _ => 1)
        (.along 8 fun p => .ofNat (p / 2)) ∧
      ¬ Fact.Holds ⟨[⟨Word.maxPower / 2, 1, unknownStep⟩], none⟩
        (.along 8 fun p => .ofNat (p / 2))) ∧
    ((Graph.divided .mul 0).WellTyped ∧
      (Graph.divided .mul 0).context 2 = .ok (.divided .mul) ∧
      standard.transfer (.divided .mul)
        [⟨[⟨Word.maxPower, 8, 1⟩], none⟩, ⟨[⟨Word.maxPower, 8, 1⟩], none⟩] =
        .ok ⟨[⟨Word.maxPower, 1, unknownStep⟩], none⟩ ∧
      Tensor.Combines .mul (.along 8 .ofNat) (.along 8 .ofNat) (.along 8 fun p => .ofNat (p * p)) ∧
      ¬ Fact.Holds ⟨[⟨Word.maxPower, 1, unknownStep⟩], none⟩ (.along 8 fun p => .ofNat (p * p))) ∧
    ((Graph.divided .add 0).WellTyped ∧
      (Graph.divided .add 0).context 2 = .ok (.divided .add) ∧
      Fact.Tracked ⟨[⟨4, 4, 1⟩], none⟩ ∧ Fact.Tracked ⟨[⟨4, 2, 0⟩], none⟩ ∧
      Fact.Holds ⟨[⟨4, 4, 1⟩], none⟩ (.along 8 fun p => .ofNat (p % 4)) ∧
      Fact.Holds ⟨[⟨4, 2, 0⟩], none⟩ (.along 8 fun p => .ofNat (p / 2 * 4)) ∧
      standard.transfer (.divided .add) [⟨[⟨4, 4, 1⟩], none⟩, ⟨[⟨4, 2, 0⟩], none⟩] =
        .ok ⟨[⟨4, 2, 1⟩], none⟩ ∧
      Tensor.Combines .add (.along 8 fun p => .ofNat (p % 4)) (.along 8 fun p => .ofNat (p / 2 * 4))
        (.along 8 fun p => .ofNat (p % 4 + p / 2 * 4)) ∧
      ¬ Fact.Holds ⟨[⟨4, 2, 1⟩], none⟩ (.along 8 fun p => .ofNat (p % 4 + p / 2 * 4))) := by
  refine ⟨by decide +kernel, Fact.holds_along.mpr (by decide +kernel), ?_, ?_, ?_⟩
  · refine ⟨(Graph.divided_built .shrU 1).wellTyped, rfl, by decide +kernel, Fact.holds_eight 1,
      by decide +kernel, ⟨rfl, rfl, Shape.forall_contains_singleton (by decide +kernel)⟩, ?_⟩
    exact mt Fact.holds_along.mp (by decide +kernel)
  · refine ⟨(Graph.divided_built .mul 0).wellTyped, rfl, by decide +kernel,
      ⟨rfl, rfl, Shape.forall_contains_singleton (by decide +kernel)⟩, ?_⟩
    exact mt Fact.holds_along.mp (by decide +kernel)
  · refine ⟨(Graph.divided_built .add 0).wellTyped, rfl, by decide +kernel, by decide +kernel,
      Fact.holds_along.mpr (by decide +kernel), Fact.holds_along.mpr (by decide +kernel),
      by decide +kernel, ⟨rfl, rfl, Shape.forall_contains_singleton (by decide +kernel)⟩, ?_⟩
    exact mt Fact.holds_along.mp (by decide +kernel)

end Standard

end TileFacts
