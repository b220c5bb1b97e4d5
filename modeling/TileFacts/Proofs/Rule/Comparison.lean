import TileFacts.Proofs.Describes
import TileFacts.Proofs.Runs

/-! Comparisons, run by run.

A strict comparison of a constant side with one that counts up changes its answer once, where the
sides meet. The rule answers with runs that divide both the extent and what the divisors of the
sides have in common. The counting side enters a run at a multiple of that common divisor and the
constant side is one, so the sides only meet at the first element of a run.

If the counting side is the one that has to be less, it stops being less there, and the run has one
answer. If it has to be greater, it is not yet greater there, but on the rest of the run it is. The
rule treats both alike.

Main statement: what the rule answers holds of the comparison, run by run, unless the sides meet in
a run along which the side that has to be greater counts up. Comparisons that are not strict are
given runs of one. -/
namespace TileFacts

/-! ### Sides and readings -/

namespace Comparison

variable {predicate : Comparison} {m l r : Int64}

/-- The side that is compared as the greater one. -/
def upper {α : Type} : Comparison → α → α → α
  | sgt, l, _ | sge, l, _ | ugt, l, _ | uge, l, _ => l
  | _, _, r => r

/-- The integer that a word stands for in a comparison. -/
def reading : Comparison → Int64 → Int
  | ult, a | ule, a | ugt, a | uge, a => a.toUInt64.toNat
  | _, a => a.toInt

theorem upper_cases (predicate : Comparison) :
    (∀ {α : Type} (l r : α), predicate.upper l r = l) ∨
      ∀ {α : Type} (l r : α), predicate.upper l r = r := by
  cases predicate with
  | sgt | sge | ugt | uge => exact .inl fun _ _ => rfl
  | _ => exact .inr fun _ _ => rfl

theorem reading_inj (h : predicate.reading l = predicate.reading r) : l = r := by
  have hmod (a : Int64) : predicate.reading a ≡ a.toInt [ZMOD 2 ^ 64] := by
    cases predicate with
    | ult | ule | ugt | uge => exact Word.toNat_modEq a
    | _ => rfl
  exact Word.eq_of_modEq ((hmod l).symm.trans (h ▸ hmod r))

theorem reading_succ (hm : Word.IsPower m) (h : ¬ m.toInt ∣ (l + 1).toInt) :
    predicate.reading (l + 1) = predicate.reading l + 1 := by
  cases predicate with
  | ult | ule | ugt | uge => exact congrArg _ (hm.toNat_succ h)
  | _ => exact hm.toInt_succ h

/-- A strict comparison holds if the reading of the upper side is greater. -/
theorem evaluate_of_isStrict (h : predicate.isStrict = true) (l r : Int64) :
    predicate.evaluate l r = decide
      (predicate.reading (predicate.upper r l) < predicate.reading (predicate.upper l r)) := by
  cases predicate with
  | slt | sgt => exact decide_eq_decide.mpr Int64.lt_iff_toInt_lt
  | ult | ugt => exact decide_eq_decide.mpr (UInt64.lt_iff_toNat_lt.trans Nat.cast_lt.symm)
  | _ => cases h

/-- Where the upper side counts up, the answer changes after the sides have met. -/
theorem upper_succ_iff (hm : Word.IsPower m) (h : ¬ m.toInt ∣ (r + 1).toInt) :
    (predicate.reading l < predicate.reading (r + 1) ↔ predicate.reading l < predicate.reading r) ↔
      l ≠ r := by
  rw [reading_succ hm h]
  constructor
  · rintro hsame rfl
    omega
  · intro hne
    have : predicate.reading l ≠ predicate.reading r := fun heq => hne (reading_inj heq)
    omega

/-- Where the lower side counts up, the answer would change before a multiple. -/
theorem lower_succ_iff (hm : Word.IsPower m) (h : ¬ m.toInt ∣ (l + 1).toInt)
    (hr : m.toInt ∣ r.toInt) :
    predicate.reading (l + 1) < predicate.reading r ↔
      predicate.reading l < predicate.reading r := by
  have hne : predicate.reading (l + 1) ≠ predicate.reading r := by
    intro heq
    rw [reading_inj heq] at h
    exact h hr
  rw [reading_succ hm h] at hne ⊢
  omega

end Comparison

/-! ### Sides that cross -/

namespace Rule

variable {a b : Axis} {extent : Int64}

/-- One side is constant and the other one contiguous. -/
def Crosses (a b : Axis) (extent : Int64) : Prop :=
  a.isConstantOver extent = true ∧ b.isContiguousOver extent = true ∨
    a.isContiguousOver extent = true ∧ b.isConstantOver extent = true

/-- A dimension is not both constant and contiguous, unless it has one element. -/
theorem constancy_eq_one_of_contiguous (ha : a.isConstantOver extent = true)
    (hb : b.isContiguousOver extent = true) : a.constancy = 1 ∨ b.constancy = 1 := by
  by_cases hs : b.step = 1
  · exact .inr (by simp [Axis.constancy, hs])
  · have hone : extent = 1 := by
      rw [← beq_iff_eq.mp hb]
      simp [Axis.contiguity, hs]
    exact .inl ((beq_iff_eq.mp ha).trans hone)

theorem Crosses.gcd_constancy (h : Crosses a b extent) : Word.gcd a.constancy b.constancy = 1 := by
  have hone : a.constancy = 1 ∨ b.constancy = 1 := by
    rcases h with ⟨ha, hb⟩ | ⟨ha, hb⟩
    · exact constancy_eq_one_of_contiguous ha hb
    · exact (constancy_eq_one_of_contiguous hb ha).symm
  rcases hone with hone | hone
  · rw [hone, Word.gcd_one_left]
  · rw [hone, Word.gcd_comm, Word.gcd_one_left]

theorem Crosses.extent_pos (h : Crosses a b extent) (ha : 0 < a.run.toInt) : 0 < extent.toInt := by
  rcases h with ⟨h, _⟩ | ⟨h, _⟩
  · exact beq_iff_eq.mp h ▸ Axis.constancy_pos ha
  · exact beq_iff_eq.mp h ▸ Axis.contiguity_pos ha

/-- Where sides cross, a comparison is constant on what their divisors have in common. -/
theorem Crosses.strictRun_eq (h : Crosses a b extent) (ha : 0 < a.run.toInt) :
    strictRun a b extent = Word.gcd extent (Word.gcd a.divisibility b.divisibility) := by
  have hmax : max 1 (Word.gcd extent (Word.gcd a.divisibility b.divisibility)) = _ :=
    Word.max_of_dvd_left (Word.gcd_pos (h.extent_pos ha)) (one_dvd _)
  simp only [strictRun, h.gcd_constancy]
  split
  · next hcond =>
    rw [Bool.and_eq_true] at hcond
    rw [beq_iff_eq.mp hcond.2]
    exact hmax
  · next hcond =>
    rw [Bool.and_eq_true] at hcond
    obtain ⟨hcontiguous, hconstant⟩ := h.resolve_left hcond
    rw [hcontiguous, hconstant, beq_iff_eq.mp hcontiguous]
    exact hmax

theorem strictRun_of_not (h : ¬ Crosses a b extent) :
    strictRun a b extent = Word.gcd a.constancy b.constancy := by
  obtain ⟨hleft, hright⟩ := not_or.mp h
  rw [← Bool.and_eq_true] at hleft hright
  simp only [strictRun]
  rw [if_neg hleft, if_neg hright]

/-! ### Comparisons along a line -/

variable {predicate : Comparison} {n : Nat} {x y : Nat → Int64}

/-- Inside runs of a truth value nothing changes. -/
theorem holds_truth_iff {run : Int64} {c : Nat → Bool} :
    (⟨1, run, 0⟩ : Axis).Holds n (fun p => if c p then 1 else 0) ↔
      ∀ p, p + 1 < n → ¬ run.toInt ∣ (p + 1 : Nat) → c (p + 1) = c p := by
  have hword (t u : Bool) : (if t then 1 else 0 : Int64) = (if u then 1 else 0) + 0 ↔ t = u := by
    cases t <;> cases u <;> decide
  constructor
  · intro h p hp hrun
    exact (hword _ _).mp (h.steps (by decide : (0 : Int64) ≠ unknownStep) p hp hrun)
  · intro h
    exact ⟨fun _ _ _ => one_dvd _, fun _ p hp hrun => (hword _ _).mpr (h p hp hrun)⟩

/-- Where sides cross, the answer changes between multiples of the common divisor only after a
meeting of the sides, and only if the upper side counts up. -/
theorem Crosses.evaluate_succ_iff (h : Crosses a b extent) (hn : extent.toInt = n)
    (ha : Word.IsPower a.divisibility) (hx : a.Holds n x) (hy : b.Holds n y)
    (hstrict : predicate.isStrict = true) {p : Nat} (hp : p + 1 < n)
    (hrun : ¬ (Word.gcd a.divisibility b.divisibility).toInt ∣ (p + 1 : Nat)) :
    predicate.evaluate (x (p + 1)) (y (p + 1)) = predicate.evaluate (x p) (y p) ↔
      ((predicate.upper a b).step = 1 → x p ≠ y p) := by
  have hcommon := ha.gcd b.divisibility
  have hleft : (Word.gcd a.divisibility b.divisibility).toInt ∣ a.divisibility.toInt :=
    Word.gcd_dvd_left ha.pos
  have hright : (Word.gcd a.divisibility b.divisibility).toInt ∣ b.divisibility.toInt :=
    Word.gcd_dvd_right ha.pos
  rw [Comparison.evaluate_of_isStrict hstrict, Comparison.evaluate_of_isStrict hstrict,
    decide_eq_decide]
  rcases h with ⟨hconstant, hcounts⟩ | ⟨hcounts, hconstant⟩
  · obtain ⟨hstep, hstay⟩ := Axis.Steps.constant hx.steps hn hconstant hp
    obtain ⟨hstep', hnext⟩ := Axis.Steps.contiguous hy.steps hn hcounts hp
    have hinside := mt (hy.counts hn hcounts hcommon hright (p + 1) hp).dvd_iff.mp hrun
    rw [hnext] at hinside
    rw [hstay, hnext]
    rcases predicate.upper_cases with hside | hside
    · simp only [hside, hstep]
      exact iff_of_true (Comparison.lower_succ_iff hcommon hinside
        (hleft.trans (hx.stands_dvd hn hconstant (by omega)))) fun h01 => absurd h01 (by decide)
    · simp only [hside, hstep', true_imp_iff]
      exact Comparison.upper_succ_iff hcommon hinside
  · obtain ⟨hstep, hnext⟩ := Axis.Steps.contiguous hx.steps hn hcounts hp
    obtain ⟨hstep', hstay⟩ := Axis.Steps.constant hy.steps hn hconstant hp
    have hinside := mt (hx.counts hn hcounts hcommon hleft (p + 1) hp).dvd_iff.mp hrun
    rw [hnext] at hinside
    rw [hstay, hnext]
    rcases predicate.upper_cases with hside | hside
    · simp only [hside, hstep, true_imp_iff]
      exact (Comparison.upper_succ_iff hcommon hinside).trans ne_comm
    · simp only [hside, hstep']
      exact iff_of_true (Comparison.lower_succ_iff hcommon hinside
        (hright.trans (hy.stands_dvd hn hconstant (by omega)))) fun h01 => absurd h01 (by decide)

/-- Sides that do not cross both stand still along the runs of the answer. -/
theorem step_ne_one_of_not_crosses (predicate : Comparison) (ha : 0 < a.run.toInt)
    (h : ¬ Crosses a b extent) {p : Nat} (hrun : ¬ (strictRun a b extent).toInt ∣ (p + 1 : Nat)) :
    (¬ a.constancy.toInt ∣ (p + 1 : Nat) ∧ ¬ b.constancy.toInt ∣ (p + 1 : Nat)) ∧
      (predicate.upper a b).step ≠ 1 := by
  rw [strictRun_of_not h] at hrun
  have hpos := Axis.constancy_pos ha
  have hleft : ¬ a.constancy.toInt ∣ (p + 1 : Nat) := fun hd =>
    hrun ((Word.gcd_dvd_left hpos).trans hd)
  have hright : ¬ b.constancy.toInt ∣ (p + 1 : Nat) := fun hd =>
    hrun ((Word.gcd_dvd_right hpos).trans hd)
  have hstill {c : Axis} (hc : ¬ c.constancy.toInt ∣ (p + 1 : Nat)) : c.step ≠ 1 := by
    intro hs
    apply hc
    simp [Axis.constancy, hs]
  refine ⟨⟨hleft, hright⟩, ?_⟩
  rcases predicate.upper_cases with hside | hside
  · rw [hside]
    exact hstill hleft
  · rw [hside]
    exact hstill hright

theorem strictRun_holds_iff (hfits : 0 < extent.toInt → extent.toInt = n) (ha : a.Tracked)
    (hx : a.Holds n x) (hy : b.Holds n y) (hstrict : predicate.isStrict = true) :
    (⟨1, strictRun a b extent, 0⟩ : Axis).Holds n
        (fun p => if predicate.evaluate (x p) (y p) then 1 else 0) ↔
      ((predicate.upper a b).step = 1 → ∀ p, p + 1 < n →
        ¬ (strictRun a b extent).toInt ∣ (p + 1 : Nat) → x p ≠ y p) := by
  have hsame {p : Nat} (hp : p + 1 < n) (hrun : ¬ (strictRun a b extent).toInt ∣ (p + 1 : Nat)) :
      predicate.evaluate (x (p + 1)) (y (p + 1)) = predicate.evaluate (x p) (y p) ↔
        ((predicate.upper a b).step = 1 → x p ≠ y p) := by
    by_cases h : Crosses a b extent
    · have hpos := h.extent_pos ha.run_pos
      rw [h.strictRun_eq ha.run_pos] at hrun
      exact h.evaluate_succ_iff (hfits hpos) ha.power hx hy hstrict hp fun hd =>
        hrun ((Word.gcd_dvd_right hpos).trans hd)
    · obtain ⟨⟨hleft, hright⟩, hstep⟩ :=
        step_ne_one_of_not_crosses predicate ha.run_pos h hrun
      rw [Axis.Steps.constancy hx.steps hp hleft, Axis.Steps.constancy hy.steps hp hright]
      exact iff_of_true rfl fun hone => absurd hone hstep
  rw [holds_truth_iff (c := fun p => predicate.evaluate (x p) (y p))]
  constructor
  · intro h hstep p hp hrun
    exact (hsame hp hrun).mp (h p hp hrun) hstep
  · intro h p hp hrun
    exact (hsame hp hrun).mpr fun hstep => h hstep p hp hrun

end Rule

/-! ### Comparisons of tensors -/

/-- The truth values of a comparison as words. -/
def Tensor.compared (predicate : Comparison) (x y : Tensor) : Tensor :=
  ⟨x.shape, fun i => if predicate.evaluate (x i) (y i) then 1 else 0⟩

section Tensors

variable {ctx : Context} {predicate : Comparison} {u v : ValueId} {a b : Fact} {x y : Tensor}

theorem Comparison.axes_upper (predicate : Comparison) {d : Nat} {l r : Axis}
    (hl : a.axes[d]? = some l) (hr : b.axes[d]? = some r) :
    (predicate.upper a b).axes[d]? = some (predicate.upper l r) := by
  rcases predicate.upper_cases with hside | hside
  · rwa [hside, hside]
  · rwa [hside, hside]

theorem Rule.comparison_answer_iff (hop : ctx.op = .cmp predicate u v)
    (hoperands : ctx.twoOperands [a, b] = .ok (a, b))
    (hfits : ∀ n ∈ ctx.type.shape, n < UInt64.size) (ha : a.Tracked)
    (hxs : x.shape = ctx.type.shape) (hys : y.shape = ctx.type.shape) (hx : a.Holds x)
    (hy : b.Holds y) :
    ∃ f, comparison ctx [a, b] = .ok f ∧ f.rank = ctx.rank ∧
      (predicate.isStrict = false → f.Holds (.compared predicate x y)) ∧
      (f.Holds (.compared predicate x y) ↔
        (f.constant = none → ∀ (d : Nat) (axis side : Axis), f.axes[d]? = some axis →
          (predicate.upper a b).axes[d]? = some side → side.step = 1 →
          ∀ i, x.shape.Contains i → ∀ p, p + 1 < x.shape.getD d 1 →
            ¬ axis.run.toInt ∣ (p + 1 : Nat) → x.line d i p ≠ y.line d i p)) := by
  have hrank : ctx.rank = max x.shape.length 1 := by
    rw [hxs]
    rfl
  have har : a.rank = ctx.rank := hx.rank.trans hrank.symm
  have hbr : b.rank = ctx.rank := by
    rw [hy.rank, hys, ← hxs]
    exact hrank.symm
  rcases comparison_cases hop hoperands har hbr with
    ⟨l, r, hl, hr, hrule⟩ | ⟨axes, hrule, hlen, hall⟩
  · have hconstant : (Tensor.compared predicate x y).IsConstant
        (if predicate.evaluate l r then 1 else 0) := by
      intro i hi
      show (if predicate.evaluate (x i) (y i) then 1 else 0 : Int64) = _
      rw [hx.constant l hl i hi, hy.constant r hr i (hys ▸ hxs ▸ hi)]
    have hlength : ctx.shape.length = ctx.rank := ctx.length_shape
    have hholds := Fact.holds_ofConstant hconstant (hlength.trans hrank)
    exact ⟨_, hrule, (Fact.rank_ofConstant _ ctx.shape).trans hlength, fun _ => hholds,
      iff_of_true hholds (by rintro ⟨⟩)⟩
  -- One dimension at a time: runs of one are never wrong, and strict ones as the lines say.
  have hline : ∀ (d : Nat) (axis : Axis), axes[d]? = some axis →
      ∃ side, (predicate.upper a b).axes[d]? = some side ∧ ∀ i, x.shape.Contains i →
        (predicate.isStrict = false →
          axis.Holds (x.shape.getD d 1) ((Tensor.compared predicate x y).line d i)) ∧
        (axis.Holds (x.shape.getD d 1) ((Tensor.compared predicate x y).line d i) ↔
          (side.step = 1 → ∀ p, p + 1 < x.shape.getD d 1 → ¬ axis.run.toInt ∣ (p + 1 : Nat) →
            x.line d i p ≠ y.line d i p)) := by
    intro d axis haxis
    obtain ⟨l, r, extent, hl, hr, hextent, rfl⟩ := hall d axis haxis
    refine ⟨_, predicate.axes_upper hl hr, fun i hi => ?_⟩
    have hxl := hx.axes d l hl i hi
    have hyr := hy.axes d r hr i (hys ▸ hxs ▸ hi)
    rw [hys, ← hxs] at hyr
    cases hstrict : predicate.isStrict with
    | false =>
      have hunit : (⟨1, 1, 0⟩ : Axis).Holds (x.shape.getD d 1)
          ((Tensor.compared predicate x y).line d i) := Axis.holds_unit 0
      exact ⟨fun _ => hunit, iff_of_true hunit fun _ p _ hrun => absurd (one_dvd _) hrun⟩
    | true =>
      refine ⟨by rintro ⟨⟩, ?_⟩
      apply strictRun_holds_iff (fun hpos => ?_) (ha.axis hl) hxl hyr hstrict
      rw [hxs]
      exact ValueType.extent_of_pos hfits hextent hpos
  refine ⟨_, hrule, hlen, ?_⟩
  rw [Fact.holds_none_iff (x := .compared predicate x y) (hlen.trans hrank)]
  constructor
  · intro hstrict d axis haxis i hi
    obtain ⟨_, _, hside⟩ := hline d axis haxis
    exact (hside i hi).1 hstrict
  · constructor
    · intro h _ d axis side haxis hside hstep i hi
      obtain ⟨_, hside', hiff⟩ := hline d axis haxis
      cases hside.symm.trans hside'
      exact (hiff i hi).2.mp (h d axis haxis i hi) hstep
    · intro h d axis haxis i hi
      obtain ⟨side, hside, hiff⟩ := hline d axis haxis
      exact (hiff i hi).2.mpr fun hstep => h rfl d axis side haxis hside hstep i hi

end Tensors

/-! ### The standard rulebook -/

section Standard

variable {g : Graph} {v u w : ValueId} {ctx : Context} {a b : Fact} {x y : Tensor}

/-- What is answered for a comparison holds of it, if the comparison is not strict. If it is, and
not of two constants, it holds exactly if the sides are nowhere equal before the last element of a
run along which the side that is compared as the greater one counts up. -/
theorem Rulebook.comparison_holds_iff (hg : g.WellTyped) (hctx : g.context v = .ok ctx)
    {predicate : Comparison} (hop : ctx.op = .cmp predicate u w)
    (hfits : ∀ n ∈ ctx.type.shape, n < UInt64.size) (ha : a.Tracked)
    (hxs : x.shape = ctx.type.shape) (hys : y.shape = ctx.type.shape) (hx : a.Holds x)
    (hy : b.Holds y) :
    ∃ f, Rule.comparison ctx [a, b] = .ok f ∧ standard.transfer ctx [a, b] = .ok f ∧
      (predicate.isStrict = false → f.Holds (.compared predicate x y)) ∧
      (f.Holds (.compared predicate x y) ↔
        (f.constant = none → ∀ (d : Nat) (axis side : Axis), f.axes[d]? = some axis →
          (predicate.upper a b).axes[d]? = some side → side.step = 1 →
          ∀ i, x.shape.Contains i → ∀ p, p + 1 < x.shape.getD d 1 →
            ¬ axis.run.toInt ∣ (p + 1 : Nat) → x.line d i p ≠ y.line d i p)) := by
  obtain ⟨s, t, htypes, hs, ht⟩ := (hg.typed_of_context hctx).comparison hop
  have hoperands : ctx.twoOperands [a, b] = .ok (a, b) := by
    refine Context.twoOperands_eq_ok htypes ?_ ?_
    · rw [hx.rank, hxs, ← hs]
      rfl
    · rw [hy.rank, hys, ← ht]
      rfl
  have hrule : standard.rule ctx.kind = some Rule.comparison := by
    rw [Context.kind, hop]
    rfl
  obtain ⟨f, hf, hrank, hloose, hiff⟩ :=
    Rule.comparison_answer_iff hop hoperands hfits ha hxs hys hx hy
  exact ⟨f, hf, transfer_eq_ok hrule hf hrank, hloose, hiff⟩

/-- Two tensors of eight numbers, compared. -/
def Graph.eights (predicate : Comparison) : Graph :=
  ⟨[⟨.arg 0, ⟨.i32, [8]⟩⟩, ⟨.arg 1, ⟨.i32, [8]⟩⟩, ⟨.cmp predicate 0 1, ⟨.bool, [8]⟩⟩]⟩

theorem Graph.eights_built (predicate : Comparison) : (Graph.eights predicate).Built :=
  .of_requests [.define (.arg 0 ⟨.i32, [8]⟩), .define (.arg 1 ⟨.i32, [8]⟩),
    .define (.cmp predicate 0 1)] .empty rfl

/-- The context of the comparison. -/
def Context.eights (predicate : Comparison) : Context :=
  ⟨2, .cmp predicate 0 1, ⟨.bool, [8]⟩, [⟨.i32, [8]⟩, ⟨.i32, [8]⟩]⟩

theorem Graph.context_eights (predicate : Comparison) :
    (Graph.eights predicate).context 2 = .ok (.eights predicate) := rfl

/-- Eight against minus four to three, without signs: the first four are greater and the last four
are not, and no number is eight. -/
theorem Rulebook.comparison_holds_iff_wrapping : (Graph.eights .ult).WellTyped ∧
    (Graph.eights .ult).context 2 = .ok (.eights .ult) ∧
    Fact.Tracked (.ofConstant 8 [8]) ∧ Fact.Holds (.ofConstant 8 [8]) (.along 8 fun _ => 8) ∧
    Fact.Holds ⟨[⟨4, 8, 1⟩], none⟩ (.along 8 fun p => .ofNat p - 4) ∧
    ∃ f, standard.transfer (.eights .ult) [.ofConstant 8 [8], ⟨[⟨4, 8, 1⟩], none⟩] = .ok f ∧
      f = ⟨[⟨1, 4, 0⟩], none⟩ ∧
      f.Holds (.compared .ult (.along 8 fun _ => 8) (.along 8 fun p => .ofNat p - 4)) := by
  have hg := (Graph.eights_built .ult).wellTyped
  have ha : Fact.Tracked (.ofConstant 8 [8]) := by decide +kernel
  have hx : Fact.Holds (.ofConstant 8 [8]) (.along 8 fun _ => 8) :=
    Fact.holds_ofConstant (fun _ _ => rfl) rfl
  have hy : Fact.Holds ⟨[⟨4, 8, 1⟩], none⟩ (.along 8 fun p => .ofNat p - 4) :=
    Fact.holds_along.mpr (by decide +kernel)
  obtain ⟨f, _, htransfer, _, hiff⟩ := comparison_holds_iff hg (Graph.context_eights .ult) rfl
    (by decide) ha rfl rfl hx hy
  have heq : f = ⟨[⟨1, 4, 0⟩], none⟩ := Except.ok.inj (htransfer.symm.trans (by decide +kernel))
  subst heq
  refine ⟨hg, rfl, ha, hx, hy, _, htransfer, rfl, hiff.mpr ?_⟩
  intro _ d axis side haxis _ _ i hi p hp _
  have hne : ∀ q < 8, (8 : Int64) ≠ .ofNat q - 4 := by decide +kernel
  cases d with
  | zero =>
    obtain ⟨q, j, rfl, _, _⟩ := Shape.contains_cons.mp hi
    exact hne p (Nat.lt_of_succ_lt hp)
  | succ d => cases haxis

/-- Every strict comparison of zero with the numbers below eight goes wrong, if the numbers are the
side that is compared as the greater one: it is said to have one answer, and the first differs. -/
theorem Rulebook.comparison_not_holds :
    Fact.Tracked ⟨[⟨Word.maxPower, 8, 1⟩], none⟩ ∧ Fact.Tracked (.ofConstant 0 [8]) ∧
    Fact.Holds ⟨[⟨Word.maxPower, 8, 1⟩], none⟩ (.along 8 .ofNat) ∧
    Fact.Holds (.ofConstant 0 [8]) (.along 8 fun _ => 0) ∧
    ∀ predicate : Comparison, predicate.isStrict = true →
      (Graph.eights predicate).WellTyped ∧
      (Graph.eights predicate).context 2 = .ok (.eights predicate) ∧
      standard.transfer (.eights predicate)
        [predicate.upper ⟨[⟨Word.maxPower, 8, 1⟩], none⟩ (.ofConstant 0 [8]),
          predicate.upper (.ofConstant 0 [8]) ⟨[⟨Word.maxPower, 8, 1⟩], none⟩] =
        .ok ⟨[⟨1, 8, 0⟩], none⟩ ∧
      ¬ Fact.Holds ⟨[⟨1, 8, 0⟩], none⟩ (.compared predicate
        (predicate.upper (.along 8 .ofNat) (.along 8 fun _ => 0))
        (predicate.upper (.along 8 fun _ => 0) (.along 8 .ofNat))) := by
  refine ⟨by decide +kernel, by decide +kernel, Fact.holds_along.mpr (by decide +kernel),
    Fact.holds_ofConstant (fun _ _ => rfl) rfl, fun predicate hstrict => ?_⟩
  refine ⟨(Graph.eights_built predicate).wellTyped, rfl, ?_, fun h => ?_⟩
  · cases predicate with
    | slt | sgt | ult | ugt => decide +kernel
    | _ => cases hstrict
  · have hfirst : ¬ Axis.Holds ⟨1, 8, 0⟩ 8 fun p => if p = 0 then 0 else 1 := by decide +kernel
    refine hfirst (Fact.holds_along.mp (h.congr ?_ ?_))
    · cases predicate with
      | slt | sgt | ult | ugt => rfl
      | _ => cases hstrict
    · apply Shape.forall_contains_singleton
      cases predicate with
      | slt | sgt | ult | ugt => decide +kernel
      | _ => cases hstrict

end Standard

end TileFacts
