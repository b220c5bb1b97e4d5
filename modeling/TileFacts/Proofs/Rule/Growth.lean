import TileFacts.Proofs.Rule.Monotone

/-! Answers that grow with the facts they are worked out from.

A pair of facts grows when the second one says more (`Fact.Grows`). For each rule: given pairs that
grow, the answer from the first ones says no more than the answer from the second ones
(`Fact.Under`). Comparisons, choices, layouts, bitwise operators and extrema need nothing else.
Sums, products and shifts need constants that agree with the divisors and steps beside them, and
nested runs where two constants are folded (`Policy.Serves.rule_under`). Quotients need buckets that
cost no divisor (`Rule.quotient_under`), and remainders must not have counted up before they
become constant (`Rule.remainder_under`). -/
namespace TileFacts

/-! ### Facts that are compared -/

/-- What the rules are promised of the fact of an operand: it has the rank of the type, divisors are
tracked powers of two, and runs cut the extents. -/
structure Fact.Regular (f : Fact) (t : ValueType) : Prop where
  rank : f.rank = t.factRank
  tracked : f.Tracked
  cuts : ∀ (d : Nat) (a : Axis) (extent : Int64), f.axes[d]? = some a →
    t.factShape[d]? = some extent → Word.Cuts a.run extent.toInt.natAbs

/-- A constant is a multiple of every divisor and goes with no step but zero. -/
def Fact.Coherent (f : Fact) : Prop := ∀ c, f.constant = some c → ∀ a ∈ f.axes,
  a.divisibility.toInt ∣ c.toInt ∧ (a.step = 0 ∨ a.step = unknownStep)

/-- Two facts of an operand of this shape, of which the second one says more. -/
structure Fact.Grows (shape : List Int64) (a a' : Fact) : Prop where
  below : a.Below a'
  weaker : a.Tracked
  stronger : a'.Tracked
  cuts : ∀ (d : Nat) (x : Axis) (extent : Int64), a'.axes[d]? = some x →
    shape[d]? = some extent → Word.Cuts x.run extent.toInt.natAbs

namespace Fact

variable {a a' b : Fact} {t : ValueType} {shape : List Int64} {d : Nat} {l l' : Lane}
  {extent : Int64}

theorem Regular.grows (ha : a.Regular t) (ha' : a'.Regular t) (h : a.Weaker a') :
    a.Grows t.factShape a' :=
  ⟨ha.tracked.positive.weakerOrEqual_iff.mp h, ha.tracked, ha'.tracked, ha'.cuts⟩

theorem Coherent.lane (h : a.Coherent) (hl : a.lane d = .ok l) : l.Coherent := by
  obtain ⟨haxis, hconstant⟩ := lane_eq_ok.mp hl
  intro c hc
  exact h c (hconstant ▸ hc) l.toAxis (List.mem_of_getElem? haxis)

theorem Grows.lane (h : a.Grows shape a') (hl : a.lane d = .ok l) (hl' : a'.lane d = .ok l') :
    l.Below l' :=
  h.below.lane h.weaker h.stronger hl hl'

theorem Grows.lane_cuts (h : a.Grows shape a') (hl' : a'.lane d = .ok l')
    (hd : shape[d]? = some extent) : Word.Cuts l'.run extent.toInt.natAbs :=
  h.cuts d _ _ (lane_eq_ok.mp hl').1 hd

theorem Grows.axis (h : a.Grows shape a') {x : Axis} (hx : a.axes[d]? = some x) :
    ∃ x', a'.axes[d]? = some x' ∧ x.Below x' := by
  obtain ⟨x', hx'⟩ := exists_axis_of_rank h.below.rank hx
  exact ⟨x', hx', h.below.axes d x x' hx hx'⟩

theorem top_under (n : Nat) (a : Fact) : (top n).Under a where
  axes d x y hx _ := by
    rw [(List.mem_replicate.mp (List.mem_of_getElem? hx)).2]
    exact (Axis.top_below y).under
  constant := by rintro _ ⟨⟩

end Fact

theorem Axis.under_self {a : Axis} (hpos : 0 < a.divisibility.toInt) (hrun : a.run ≠ 0) :
    a.Under a :=
  ⟨(Fact.divides_eq_true_of_pos hpos).mpr dvd_rfl, Fact.divides_self hrun, .inr rfl⟩

/-- A divisor is kept along a dimension that is constant, whatever its extent. -/
theorem Axis.Below.spread {a b : Axis} (h : a.Below b) {extent : Int64} (hextent : extent ≠ 0) :
    (⟨a.divisibility, extent, 0⟩ : Axis).Under ⟨b.divisibility, extent, 0⟩ :=
  ⟨h.under.divisibility, Fact.divides_self hextent, .inr rfl⟩

theorem Fact.ofConstant_under {shape : List Int64} (hshape : ∀ extent ∈ shape, extent ≠ 0)
    (value : Int64) : (Fact.ofConstant value shape).Under (.ofConstant value shape) where
  axes d x y hx hy := by
    rw [hx] at hy
    cases hy
    obtain ⟨extent, hextent, rfl⟩ := Option.map_eq_some_iff.mp (List.getElem?_map .. ▸ hx)
    exact Axis.under_self (Word.isPower_powerDivisor value).pos
      (hshape extent (List.mem_of_getElem? hextent))
  constant _ hc := hc

/-! ### Binary operators -/

/-- Along every dimension, the run of one fact divides that of the other. -/
def Fact.Nested (a b : Fact) : Prop := ∀ (d : Nat) (x y : Axis), a.axes[d]? = some x →
  b.axes[d]? = some y → x.run.toInt ∣ y.run.toInt ∨ y.run.toInt ∣ x.run.toInt

section Binary

variable {ctx : Context} {op : BinaryOp} {a b a' b' f f' : Fact}

theorem Policy.Serves.rule_under {policy : Policy} (hpolicy : policy.Serves op)
    (h : ctx.Binary op a b) (h' : ctx.Binary op a' b') (ha : a.Grows ctx.shape a')
    (hb : b.Grows ctx.shape b') (hcoherent : a'.Coherent ∧ b'.Coherent)
    (hnested : op.fold a'.constant b'.constant ≠ none → a'.Nested b')
    (hf : policy.rule ctx [a, b] = .ok f) (hf' : policy.rule ctx [a', b'] = .ok f') :
    f.Under f' := by
  obtain ⟨axes, hrule, _, hall⟩ := policy.rule_eq_ok hpolicy.total h
  obtain ⟨axes', hrule', _, hall'⟩ := policy.rule_eq_ok hpolicy.total h'
  rw [hf] at hrule
  rw [hf'] at hrule'
  cases hrule
  cases hrule'
  rw [hpolicy.constant] at hall hall' ⊢
  refine ⟨fun d x y hx hy => ?_, fun v => BinaryOp.fold_mono ha.below.constant hb.below.constant⟩
  obtain ⟨l, r, hl, hr, hx⟩ := hall d x hx
  obtain ⟨l', r', hl', hr', hy⟩ := hall' d y hy
  obtain ⟨_, hlc⟩ := Fact.lane_eq_ok.mp hl
  obtain ⟨_, hrc⟩ := Fact.lane_eq_ok.mp hr
  obtain ⟨hlx', hlc'⟩ := Fact.lane_eq_ok.mp hl'
  obtain ⟨hrx', hrc'⟩ := Fact.lane_eq_ok.mp hr'
  rw [← hlc, ← hrc] at hx
  rw [← hlc', ← hrc'] at hy hnested
  exact (hpolicy.axis_grows (ha.lane hl hl') (hb.lane hr hr') (hcoherent.1.lane hl')
    (hcoherent.2.lane hr') (fun hfold => hnested hfold d _ _ hlx' hrx') hx hy).under

namespace Rule

theorem keepsDividend_eq_true : keepsDividend a b = true ↔
    b.constant = some 1 ∨ a.constant = some 0 := by
  simp [keepsDividend]

theorem keepsDividend_mono (ha : a.Below a') (hb : b.Below b') (h : keepsDividend a b = true) :
    keepsDividend a' b' = true :=
  keepsDividend_eq_true.mpr
    ((keepsDividend_eq_true.mp h).imp (hb.constant 1) (ha.constant 0))

/-- A dividend that is kept only now had a constant that was not known before. -/
theorem fold_of_keepsDividend (ha : a.Below a') (hb : b.Below b')
    (hkeeps : keepsDividend a b = false) (hkeeps' : keepsDividend a' b' = true) :
    op.fold a.constant b.constant = none := by
  cases hfold : op.fold a.constant b.constant with
  | none => rfl
  | some v =>
    obtain ⟨l, r, hl, hr, _⟩ := BinaryOp.fold_eq_some hfold
    rw [keepsDividend, ha.constant l hl, hb.constant r hr, ← hl, ← hr, ← keepsDividend,
      hkeeps] at hkeeps'
    cases hkeeps'

section Folds

variable {axis : Lane → Lane → Int64 → Checked Axis} {axes axes' : List Axis}
  (hall : FoldsTo ctx op a b axis axes)
include hall

/-- Axes that say nothing, below any others. -/
theorem FoldsTo.under_of_top (hfold : op.fold a.constant b.constant = none)
    (htop : ∀ d l r y extent, a.lane d = .ok l → b.lane d = .ok r → f'.axes[d]? = some y →
      ctx.shape[d]? = some extent → axis l r extent = .ok .top) :
    Fact.Under ⟨axes, op.fold a.constant b.constant⟩ f' where
  axes d x y hx hy := by
    obtain ⟨l, r, extent, hl, hr, hextent, hx⟩ := hall d x hx
    rw [hfold] at hx
    cases (htop d l r y extent hl hr hy hextent).symm.trans hx
    exact (Axis.top_below y).under
  constant := by
    rw [hfold]
    rintro _ ⟨⟩

/-- Axes that grow where constants do not combine, and say nothing where they come to. -/
theorem FoldsTo.under (hall' : FoldsTo ctx op a' b' axis axes') (ha : a.Grows ctx.shape a')
    (hb : b.Grows ctx.shape b')
    (haxis : ∀ d l r l' r' extent, a.lane d = .ok l → b.lane d = .ok r → a'.lane d = .ok l' →
      b'.lane d = .ok r' → ctx.shape[d]? = some extent →
      (op.fold a'.constant b'.constant = none → ∀ x y, axis l r extent = .ok x →
        axis l' r' extent = .ok y → x.Below y) ∧
      (op.fold a'.constant b'.constant ≠ none → axis l r extent = .ok .top)) :
    Fact.Under ⟨axes, op.fold a.constant b.constant⟩ ⟨axes', op.fold a'.constant b'.constant⟩ where
  axes d x y hx hy := by
    obtain ⟨l, r, extent, hl, hr, hextent, hx⟩ := hall d x hx
    obtain ⟨l', r', extent', hl', hr', hextent', hy⟩ := hall' d y hy
    rw [hextent] at hextent'
    cases hextent'
    obtain ⟨hbelow, htop⟩ := haxis d l r l' r' extent hl hr hl' hr' hextent
    apply Axis.Below.under
    cases hfold' : op.fold a'.constant b'.constant with
    | none =>
      have hfold : op.fold a.constant b.constant = none :=
        BinaryOp.fold_eq_none_of_mono ha.below.constant hb.below.constant hfold'
      rw [hfold] at hx
      rw [hfold'] at hy
      exact hbelow hfold' x y hx hy
    | some q =>
      cases hfold : op.fold a.constant b.constant with
      | none =>
        rw [hfold] at hx
        cases (htop (by rw [hfold']; exact Option.some_ne_none q)).symm.trans hx
        exact Axis.top_below y
      | some v =>
        have hsame := BinaryOp.fold_mono ha.below.constant hb.below.constant hfold
        rw [hfold'] at hsame
        cases hsame
        have hlane := (ha.lane hl hl').axis
        rw [hfold] at hx
        rw [hfold'] at hy
        rw [hx, hy]
        exact ⟨(Word.isPower_powerDivisor q).pos, dvd_rfl, Axis.constancy_pos hlane.run_pos,
          hlane.constancy_dvd, .inr rfl⟩
  constant _ := BinaryOp.fold_mono ha.below.constant hb.below.constant

end Folds

/-- A dividend with a constant has no buckets, whatever else is said of it. -/
theorem quotientAxis_of_constant (ha : a.Grows ctx.shape a') (hcoherent : a'.Coherent) {c : Int64}
    (hc : a'.constant = some c) {d : Nat} {l l' : Lane} (hl : a.lane d = .ok l)
    (hl' : a'.lane d = .ok l') (r : Lane) (extent : Int64) : quotientAxis l r extent = .ok .top :=
  quotientAxis_of_still ((ha.lane hl hl').step_still (hcoherent.lane hl')
    ((Fact.lane_eq_ok.mp hl').2.trans hc)) r extent

section Under

variable (h : ctx.Binary op a b) (h' : ctx.Binary op a' b') (ha : a.Grows ctx.shape a')
  (hb : b.Grows ctx.shape b')
include h h' ha hb

theorem quotient_under (hcoherent : a'.Coherent)
    (hkept : keepsDividend a' b' = false → op.fold a'.constant b'.constant = none →
      ∀ d l r extent, a'.lane d = .ok l → b'.lane d = .ok r → ctx.shape[d]? = some extent →
        KeepsDivisor l r extent)
    (hf : quotient ctx [a, b] = .ok f) (hf' : quotient ctx [a', b'] = .ok f') : f.Under f' := by
  rcases quotient_cases h with ⟨hkeeps, hrule⟩ | ⟨hkeeps, axes, hrule, _, hall⟩
  · rcases quotient_cases h' with ⟨_, hrule'⟩ | ⟨hkeeps', _⟩
    · rw [hf] at hrule
      rw [hf'] at hrule'
      cases hrule
      cases hrule'
      exact ha.below.under
    · rw [keepsDividend_mono ha.below hb.below hkeeps] at hkeeps'
      cases hkeeps'
  · rw [hf] at hrule
    cases hrule
    rcases quotient_cases h' with ⟨hkeeps', hrule'⟩ | ⟨hkeeps', axes', hrule', _, hall'⟩
    · rw [hf'] at hrule'
      cases hrule'
      apply FoldsTo.under_of_top hall (fold_of_keepsDividend ha.below hb.below hkeeps hkeeps')
      intro d l r y extent hl hr hy _
      rcases keepsDividend_eq_true.mp hkeeps' with hone | hzero
      · rcases quotientAxis_cases l r extent with ⟨divisor, hbuckets⟩ | htop
        · -- The divisor was known before, so it is not one.
          have hdivisor : b.constant = some divisor :=
            (Fact.lane_eq_ok.mp hr).2.symm.trans hbuckets.constant
          rw [hb.below.constant divisor hdivisor] at hone
          rw [keepsDividend_eq_true.mpr (.inl (hdivisor.trans hone))] at hkeeps
          cases hkeeps
        · exact htop
      · exact quotientAxis_of_constant ha hcoherent hzero hl
          (Fact.lane_eq_ok.mpr ⟨hy, rfl⟩ : a'.lane d = .ok ⟨y, a'.constant⟩) r extent
    · rw [hf'] at hrule'
      cases hrule'
      apply FoldsTo.under hall hall' ha hb
      intro d l r l' r' extent hl hr hl' hr' hextent
      constructor
      · intro hfold' _ _
        exact quotientAxis_mono (ha.lane hl hl') (hb.lane hr hr') (ha.lane_cuts hl' hextent)
          (hb.lane_cuts hr' hextent) (hkept hkeeps' hfold' d l' r' extent hl' hr' hextent)
      · intro hfold'
        obtain ⟨v, hfold'⟩ := Option.ne_none_iff_exists'.mp hfold'
        obtain ⟨c, _, hc, _⟩ := BinaryOp.fold_eq_some hfold'
        exact quotientAxis_of_constant ha hcoherent hc hl hl' r extent

theorem remainder_under (hshape : ∀ extent ∈ ctx.shape, extent ≠ 0)
    (hquiet : keepsDividend a' b' = true ∨ op.fold a'.constant b'.constant ≠ none →
      ∀ d l r extent, a'.lane d = .ok l → b'.lane d = .ok r → ctx.shape[d]? = some extent →
        ¬ CountsUp l r extent)
    (hf : remainder ctx [a, b] = .ok f) (hf' : remainder ctx [a', b'] = .ok f') : f.Under f' := by
  have htop : keepsDividend a' b' = true ∨ op.fold a'.constant b'.constant ≠ none →
      ∀ d l r extent, a.lane d = .ok l → b.lane d = .ok r → ctx.shape[d]? = some extent →
        remainderAxis l r extent = .top := by
    intro hcase d l r extent hl hr hextent
    have hlt := Context.lt_rank_of_shape hextent
    obtain ⟨l', hl'⟩ := Fact.exists_lane (h'.left.symm ▸ hlt)
    obtain ⟨r', hr'⟩ := Fact.exists_lane (h'.right.symm ▸ hlt)
    apply remainderAxis_of_not
    intro hcounts
    exact hquiet hcase d l' r' extent hl' hr' hextent (hcounts.mono (ha.lane hl hl')
      (hb.lane hr hr') (ha.lane_cuts hl' hextent) (hb.lane_cuts hr' hextent))
  rcases remainder_cases h with ⟨hkeeps, hrule⟩ | ⟨hkeeps, axes, hrule, _, hall⟩
  · rcases remainder_cases h' with ⟨_, hrule'⟩ | ⟨hkeeps', _⟩
    · rw [hf] at hrule
      rw [hf'] at hrule'
      cases hrule
      cases hrule'
      exact Fact.ofConstant_under hshape 0
    · rw [keepsDividend_mono ha.below hb.below hkeeps] at hkeeps'
      cases hkeeps'
  · rw [hf] at hrule
    cases hrule
    rcases remainder_cases h' with ⟨hkeeps', _⟩ | ⟨_, axes', hrule', _, hall'⟩
    · apply FoldsTo.under_of_top hall (fold_of_keepsDividend ha.below hb.below hkeeps hkeeps')
      intro d l r y extent hl hr _ hextent
      exact congrArg Except.ok (htop (.inl hkeeps') d l r extent hl hr hextent)
    · rw [hf'] at hrule'
      cases hrule'
      apply FoldsTo.under hall hall' ha hb
      intro d l r l' r' extent hl hr hl' hr' hextent
      constructor
      · rintro _ _ _ ⟨⟩ ⟨⟩
        exact remainderAxis_mono (ha.lane hl hl') (hb.lane hr hr') (ha.lane_cuts hl' hextent)
          (hb.lane_cuts hr' hextent)
      · intro hfold'
        exact congrArg Except.ok (htop (.inr hfold') d l r extent hl hr hextent)

/-- Bitwise operators and extrema know something of constants only. -/
theorem logic_under (hf : logic ctx [a, b] = .ok f) (hf' : logic ctx [a', b'] = .ok f') :
    f.Under f' := by
  simp only [logic, h.operands, h.op, ok_bind] at hf
  simp only [logic, h'.operands, h'.op, ok_bind] at hf'
  cases hfold : op.fold a.constant b.constant with
  | none =>
    rw [hfold] at hf
    cases hf
    exact Fact.top_under _ f'
  | some value =>
    obtain ⟨l, r, hl, hr, _⟩ := BinaryOp.fold_eq_some hfold
    rw [BinaryOp.fold_mono ha.below.constant hb.below.constant hfold,
      ha.below.constant l hl, ← hl] at hf'
    rw [hfold] at hf
    simp only at hf hf'
    split at hf
    · next hext =>
      rw [if_pos hext] at hf'
      split at hf
      · next hleft =>
        rw [if_pos hleft] at hf'
        cases hf
        cases hf'
        exact ha.below.under
      · next hleft =>
        rw [if_neg hleft] at hf'
        cases hf
        cases hf'
        exact hb.below.under
    · next hext =>
      rw [if_neg hext] at hf'
      cases hf
      cases hf'
      exact ⟨(Fact.top_under ctx.rank (Fact.top ctx.rank)).axes, fun _ hc => hc⟩

end Under

end Rule

end Binary

/-! ### Comparisons and choices -/

namespace Rule

section Choice

variable {ctx : Context} {a b c a' b' c' f f' : Fact}

theorem comparison_under {predicate : Comparison} {u v : ValueId}
    (hop : ctx.op = .cmp predicate u v) (hoperands : ctx.twoOperands [a, b] = .ok (a, b))
    (hoperands' : ctx.twoOperands [a', b'] = .ok (a', b')) (ha : a.Grows ctx.shape a')
    (hb : b.Grows ctx.shape b') (hshape : ∀ extent ∈ ctx.shape, extent ≠ 0)
    (hf : comparison ctx [a, b] = .ok f) (hf' : comparison ctx [a', b'] = .ok f') :
    f.Under f' := by
  simp only [comparison, hoperands, hop, ok_bind] at hf
  simp only [comparison, hoperands', hop, ok_bind] at hf'
  split at hf
  · next l r hl hr =>
    rw [ha.below.constant l hl, hb.below.constant r hr] at hf'
    cases hf
    cases hf'
    exact Fact.ofConstant_under hshape _
  · obtain ⟨axes, haxes, hf⟩ := bind_eq_ok.mp hf
    cases hf
    refine ⟨fun d x y hx hy => ?_, by rintro _ ⟨⟩⟩
    obtain ⟨extent, hextent, hx⟩ := Context.getElem?_axes haxes hx
    obtain ⟨l, hl, hx⟩ := bind_eq_ok.mp hx
    obtain ⟨r, hr, hx⟩ := bind_eq_ok.mp hx
    cases hx
    obtain ⟨l', hl', hll⟩ := ha.axis (Fact.axis_eq_ok.mp hl)
    obtain ⟨r', hr', hrr⟩ := hb.axis (Fact.axis_eq_ok.mp hr)
    have hcl := ha.cuts d l' extent hl' hextent
    have hcr := hb.cuts d r' extent hr' hextent
    have hcuts : Word.Cuts (if predicate.isStrict then strictRun l r extent else 1)
        extent.toInt.natAbs := by
      split
      · exact strictRun_cuts extent (hcl.of_dvd hll.run_pos hll.run)
          (hcr.of_dvd hrr.run_pos hrr.run)
      · exact Word.cuts_one _
    split at hf'
    · cases hf'
      obtain ⟨extent', hextent', rfl⟩ := Option.map_eq_some_iff.mp (List.getElem?_map .. ▸ hy)
      rw [hextent] at hextent'
      cases hextent'
      exact Axis.Below.under
        ⟨Word.isPower_one.pos, one_dvd _, hcuts.pos, Int.dvd_natAbs.mp hcuts.dvd, .inr rfl⟩
    · obtain ⟨axes', haxes', hf'⟩ := bind_eq_ok.mp hf'
      cases hf'
      obtain ⟨extent', hextent', hy⟩ := Context.getElem?_axes haxes' hy
      rw [hextent] at hextent'
      cases hextent'
      rw [Fact.axis_eq_ok.mpr hl', Fact.axis_eq_ok.mpr hr'] at hy
      cases hy
      refine Axis.Below.under ⟨Word.isPower_one.pos, dvd_rfl, hcuts.pos, ?_, .inr rfl⟩
      show (if _ then strictRun l r extent else 1).toInt ∣
        (if _ then strictRun l' r' extent else 1).toInt
      split
      · exact strictRun_mono hll hrr hcl hcr (ha.stronger.axis hl').power.pos
      · exact dvd_rfl

/-- One dimension of a choice that is open: what the branches share, on shorter runs. -/
theorem exists_run_of_choice {joined : Fact} {decidesAll : Bool} {d : Nat} {extent : Int64}
    {x : Axis} (h : (do
      let condRun ← if decidesAll then pure extent else Axis.constancy <$> c.axis d
      let both ← joined.axis d
      return { both with run := Word.gcd both.run condRun }) = Except.ok x) :
    ∃ both run, joined.axes[d]? = some both ∧ x = { both with run := Word.gcd both.run run } ∧
      (if decidesAll then pure extent else Axis.constancy <$> c.axis d) = Except.ok run := by
  have hopen : ∀ condRun : Checked Int64, (do
      let run ← condRun
      let both ← joined.axis d
      return { both with run := Word.gcd both.run run }) = Except.ok x →
      ∃ both run, joined.axes[d]? = some both ∧ x = { both with run := Word.gcd both.run run } ∧
        condRun = Except.ok run := by
    intro condRun h
    obtain ⟨run, hrun, h⟩ := bind_eq_ok.mp h
    obtain ⟨both, hboth, h⟩ := bind_eq_ok.mp h
    cases h
    exact ⟨both, run, Fact.axis_eq_ok.mp hboth, rfl, hrun⟩
  cases decidesAll with
  | true => exact hopen _ h
  | false => exact hopen _ h

/-- The longer the condition is constant, the longer are the runs of a choice. -/
theorem choiceRun_dvd (hc : c.Below c') {decidesAll : Bool} {d : Nat} {extent run run' : Int64}
    (hrun : (if decidesAll then pure extent else Axis.constancy <$> c.axis d) = Except.ok run)
    (hrun' : (if decidesAll then pure extent else Axis.constancy <$> c'.axis d) = Except.ok run') :
    run.toInt ∣ run'.toInt := by
  cases decidesAll with
  | true =>
    cases hrun
    cases hrun'
    exact dvd_rfl
  | false =>
    obtain ⟨x, hx, rfl⟩ := map_eq_ok.mp hrun
    obtain ⟨y, hy, rfl⟩ := map_eq_ok.mp hrun'
    exact (hc.axes d x y (Fact.axis_eq_ok.mp hx) (Fact.axis_eq_ok.mp hy)).constancy_dvd

/-- A choice that is made keeps one branch, and branches never share more than one of them says. -/
theorem choice_under (hoperands : ctx.threeOperands [c, a, b] = .ok (c, a, b))
    (hoperands' : ctx.threeOperands [c', a', b'] = .ok (c', a', b')) (hc : c.Below c')
    (ha : a.Grows ctx.shape a') (hb : b.Grows ctx.shape b')
    (hf : choice ctx [c, a, b] = .ok f) (hf' : choice ctx [c', a', b'] = .ok f') :
    f.Under f' := by
  simp only [choice, hoperands, ok_bind] at hf
  simp only [choice, hoperands', ok_bind] at hf'
  cases hcond : c.constant with
  | some value =>
    rw [hcond] at hf
    rw [hc.constant value hcond] at hf'
    cases hf
    cases hf'
    split
    · exact ha.below.under
    · exact hb.below.under
  | none =>
    rw [hcond] at hf
    obtain ⟨condType, htype, hf⟩ := bind_eq_ok.mp hf
    obtain ⟨joined, hjoin, hf⟩ := bind_eq_ok.mp hf
    obtain ⟨axes, haxes, hf⟩ := bind_eq_ok.mp hf
    cases hf
    have hleft := ha.below.join_left hjoin
    have hright := hb.below.join_right hjoin
    cases hcond' : c'.constant with
    | some value =>
      rw [hcond'] at hf'
      cases hf'
      have hbranch : joined.Below (if value != 0 then a' else b') := by
        split
        · exact hleft
        · exact hright
      refine ⟨fun d x y hx hy => ?_, hbranch.constant⟩
      obtain ⟨extent, _, hx⟩ := Context.getElem?_axes haxes hx
      obtain ⟨both, run, hboth, rfl, _⟩ := exists_run_of_choice hx
      exact ((hbranch.axes d both y hboth hy).shorten_left run).under
    | none =>
      rw [hcond'] at hf'
      obtain ⟨condType', htype', hf'⟩ := bind_eq_ok.mp hf'
      obtain ⟨joined', hjoin', hf'⟩ := bind_eq_ok.mp hf'
      obtain ⟨axes', haxes', hf'⟩ := bind_eq_ok.mp hf'
      cases hf'
      rw [htype] at htype'
      cases htype'
      have hjoined := hleft.le_join hright ha.stronger.positive hjoin'
      refine ⟨fun d x y hx hy => ?_, hjoined.constant⟩
      obtain ⟨extent, hextent, hx⟩ := Context.getElem?_axes haxes hx
      obtain ⟨extent', hextent', hy⟩ := Context.getElem?_axes haxes' hy
      rw [hextent] at hextent'
      cases hextent'
      obtain ⟨both, run, hboth, rfl, hrun⟩ := exists_run_of_choice hx
      obtain ⟨both', run', hboth', rfl, hrun'⟩ := exists_run_of_choice hy
      have hpos := (ha.stronger.positive.join hjoin').axis hboth'
      exact ((hjoined.axes d both both' hboth hboth').shorten hpos.run
        (choiceRun_dvd hc hrun hrun')).under

end Choice

/-! ### Layouts -/

section Layout

variable {ctx : Context} {a a' f f' : Fact}

theorem range_under {start stop : Int64} (hop : ctx.op = .range start stop) (horder : start < stop)
    (hf : range ctx [] = .ok f) : f.Under f := by
  simp only [range, hop, Context.noOperands, pure_bind] at hf
  obtain ⟨count, hcount, hf⟩ := bind_eq_ok.mp hf
  cases hf
  refine ⟨fun d x y hx hy => ?_, fun _ hc => hc⟩
  rw [hx] at hy
  cases hy
  cases d with
  | succ d => cases hx
  | zero =>
    cases hx
    refine Axis.under_self (Word.isPower_powerDivisor start).pos ?_
    intro hzero
    have hsub := Word.toInt_of_checkedSub hcount
    have hlt := Int64.lt_iff_toInt_lt.mp horder
    rw [show count = 0 from hzero, Int64.toInt_zero] at hsub
    omega

theorem splat_under (hoperand : ctx.oneOperand [a] = .ok a)
    (hoperand' : ctx.oneOperand [a'] = .ok a') (ha : a.Below a')
    (hshape : ∀ extent ∈ ctx.shape, extent ≠ 0) (hf : splat ctx [a] = .ok f)
    (hf' : splat ctx [a'] = .ok f') : f.Under f' := by
  simp only [splat, hoperand, ok_bind] at hf
  simp only [splat, hoperand', ok_bind] at hf'
  obtain ⟨axes, haxes, hf⟩ := bind_eq_ok.mp hf
  obtain ⟨axes', haxes', hf'⟩ := bind_eq_ok.mp hf'
  cases hf
  cases hf'
  refine ⟨fun d x y hx hy => ?_, ha.constant⟩
  obtain ⟨extent, hextent, hx⟩ := Context.getElem?_axes haxes hx
  obtain ⟨extent', hextent', hy⟩ := Context.getElem?_axes haxes' hy
  rw [hextent] at hextent'
  cases hextent'
  obtain ⟨source, hsource, hx⟩ := bind_eq_ok.mp hx
  obtain ⟨source', hsource', hy⟩ := bind_eq_ok.mp hy
  cases hx
  cases hy
  exact (ha.axes 0 source source' (Fact.axis_eq_ok.mp hsource)
    (Fact.axis_eq_ok.mp hsource')).spread (hshape extent (List.mem_of_getElem? hextent))

theorem broadcast_under (hoperand : ctx.oneOperand [a] = .ok a)
    (hoperand' : ctx.oneOperand [a'] = .ok a') (ha : a.Below a')
    (hshape : ∀ extent ∈ ctx.shape, extent ≠ 0) (hf : broadcast ctx [a] = .ok f)
    (hf' : broadcast ctx [a'] = .ok f') : f.Under f' := by
  simp only [broadcast, hoperand, ok_bind] at hf
  simp only [broadcast, hoperand', ok_bind] at hf'
  obtain ⟨s, hs, hf⟩ := bind_eq_ok.mp hf
  rw [hs, ok_bind] at hf'
  split at hf
  · next hcond =>
    rw [if_pos hcond] at hf'
    obtain ⟨axes, haxes, hf⟩ := bind_eq_ok.mp hf
    obtain ⟨axes', haxes', hf'⟩ := bind_eq_ok.mp hf'
    cases hf
    cases hf'
    refine ⟨fun d x y hx hy => ?_, ha.constant⟩
    obtain ⟨extent, hextent, hx⟩ := Context.getElem?_axes haxes hx
    obtain ⟨extent', hextent', hy⟩ := Context.getElem?_axes haxes' hy
    rw [hextent] at hextent'
    cases hextent'
    obtain ⟨sourceExtent, hsize, hx⟩ := bind_eq_ok.mp hx
    rw [hsize, ok_bind] at hy
    split at hx
    · next hone =>
      rw [if_pos hone] at hy
      obtain ⟨source, hsource, hx⟩ := bind_eq_ok.mp hx
      obtain ⟨source', hsource', hy⟩ := bind_eq_ok.mp hy
      cases hx
      cases hy
      exact (ha.axes _ source source' (Fact.axis_eq_ok.mp hsource)
        (Fact.axis_eq_ok.mp hsource')).spread (hshape extent (List.mem_of_getElem? hextent))
    · next hone =>
      rw [if_neg hone] at hy
      exact (ha.axes d x y (Fact.axis_eq_ok.mp hx) (Fact.axis_eq_ok.mp hy)).under
  · cases hf

/-- Axes put between others are compared like them. -/
theorem insert_under (ha : a.Below a') {n : Nat} {p : Axis} (hp : p.Under p) :
    Fact.Under ⟨a.axes.insertIdx n p, a.constant⟩ ⟨a'.axes.insertIdx n p, a'.constant⟩ where
  axes d x y hx hy := by
    rcases Nat.lt_trichotomy d n with hd | rfl | hd
    · rw [List.getElem?_insertIdx_of_lt hd] at hx hy
      exact (ha.axes d x y hx hy).under
    · have hlen : a.axes.length = a'.axes.length := ha.rank
      rw [List.getElem?_insertIdx_self, hlen] at hx
      rw [List.getElem?_insertIdx_self] at hy
      split at hx
      · next hd =>
        rw [if_pos hd] at hy
        cases hx
        cases hy
        exact hp
      · cases hx
    · rw [List.getElem?_insertIdx_of_gt hd] at hx hy
      exact (ha.axes (d - 1) x y hx hy).under
  constant := ha.constant

theorem expandDims_under (hoperand : ctx.oneOperand [a] = .ok a)
    (hoperand' : ctx.oneOperand [a'] = .ok a') (ha : a.Below a') {u : ValueId} {n : Nat}
    (hop : ctx.op = .expandDims u n) (hf : expandDims ctx [a] = .ok f)
    (hf' : expandDims ctx [a'] = .ok f') : f.Under f' := by
  simp only [expandDims, hoperand, hop, ok_bind] at hf
  simp only [expandDims, hoperand', hop, ok_bind] at hf'
  obtain ⟨s, hs, hf⟩ := bind_eq_ok.mp hf
  rw [hs, ok_bind] at hf'
  split at hf
  · next hscalar =>
    rw [if_pos hscalar] at hf'
    cases hf
    cases hf'
    exact ha.under
  · next hscalar =>
    rw [if_neg hscalar] at hf'
    obtain ⟨axes, haxes, hf⟩ := bind_eq_ok.mp hf
    obtain ⟨axes', haxes', hf'⟩ := bind_eq_ok.mp hf'
    cases hf
    cases hf'
    rw [(insertAt_eq_ok.mp haxes).2, (insertAt_eq_ok.mp haxes').2]
    exact insert_under ha (Axis.under_self (by decide) (by decide))

end Layout

end Rule

end TileFacts
