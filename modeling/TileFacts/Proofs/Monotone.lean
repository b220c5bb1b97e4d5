import TileFacts.Proofs.Rule.Growth

/-! Where the standard rules are monotone.

A rule is monotone at some facts of its operands when no facts that say less give an answer that
says more (`Rulebook.MonotoneAt`). Casts, layouts, comparisons and choices are so everywhere, and so
are bitwise operators and extrema. Other binary operators are where knowing more costs nothing
(`Context.Steady`). Main statement: rules that are monotone at some facts are steady there, and the
converse holds of facts that agree with their constants (`Rulebook.standard_monotoneAt`).

The converse is seen by knowing less on purpose: with runs cut down to single elements
(`Fact.cut`), or without constants (`Fact.forget`). -/
namespace TileFacts

/-! ### The standard rulebook -/

theorem ValueType.factShape_congr {s t : ValueType} (h : s.shape = t.shape) :
    s.factShape = t.factShape := by
  unfold factShape isScalar
  rw [h]

/-- Nothing was said with less that is lost now. Where two constants are folded their runs are
nested, buckets cut no runs that have a divisor left to lose, and a remainder that is constant would
not have counted up. -/
def BinaryOp.Steady (op : BinaryOp) (shape : List Int64) (a b : Fact) : Prop :=
  match op with
  | .add | .sub | .mul | .shl | .shrS | .shrU =>
    op.fold a.constant b.constant ≠ none → a.Nested b
  | .divS | .divU =>
    Rule.keepsDividend a b = false → op.fold a.constant b.constant = none →
      ∀ d l r extent, a.lane d = .ok l → b.lane d = .ok r → shape[d]? = some extent →
        Rule.KeepsDivisor l r extent
  | .remS | .remU =>
    Rule.keepsDividend a b = true ∨ op.fold a.constant b.constant ≠ none →
      ∀ d l r extent, a.lane d = .ok l → b.lane d = .ok r → shape[d]? = some extent →
        ¬ Rule.CountsUp l r extent
  | .and | .or | .xor | .maxS | .maxU | .minS | .minU => True

/-- Operators whose rules, once a constant is known, answer from it alone what they had answered
from divisors and steps before. -/
def BinaryOp.trustsConstants : BinaryOp → Bool
  | .add | .sub | .mul | .shl | .shrS | .shrU | .divS | .divU => true
  | _ => false

namespace Context

/-- One fact per operand, as the rules are promised them. -/
def Regular (ctx : Context) (facts : List Fact) : Prop :=
  List.Forall₂ Fact.Regular facts ctx.operandTypes

/-- Knowing these facts costs nothing. Only binary operators may lose something. -/
def Steady (ctx : Context) (facts : List Fact) : Prop :=
  ∀ op a b, ctx.binaryOp = .ok op → facts = [a, b] → op.Steady ctx.shape a b

/-- The facts agree with their constants, where a rule trusts those. -/
def Coherent (ctx : Context) (facts : List Fact) : Prop :=
  ∀ op, ctx.binaryOp = .ok op → op.trustsConstants = true → ∀ f ∈ facts, f.Coherent

theorem Regular.ranked {ctx : Context} {facts : List Fact} (h : ctx.Regular facts) :
    ctx.Ranked facts := by
  unfold Ranked
  rw [← List.forall₂_eq_eq_eq, List.forall₂_map_left_iff, List.forall₂_map_right_iff]
  exact h.imp fun f t hf => hf.rank

section Operands

variable {ctx : Context} {facts facts' : List Fact} (h : ctx.Regular facts)
  (h' : ctx.Regular facts') (hweaker : List.Forall₂ Fact.Weaker facts facts')
include h h' hweaker

theorem Regular.one {s : ValueType} (htypes : ctx.operandTypes = [s]) :
    ∃ a a', facts = [a] ∧ facts' = [a'] ∧ ctx.oneOperand [a] = .ok a ∧
      ctx.oneOperand [a'] = .ok a' ∧ a.Grows s.factShape a' := by
  unfold Regular at h h'
  rw [htypes] at h h'
  rcases h with _ | ⟨ha, ⟨⟩⟩
  rcases h' with _ | ⟨ha', ⟨⟩⟩
  rcases hweaker with _ | ⟨haa, _⟩
  exact ⟨_, _, rfl, rfl, oneOperand_eq_ok htypes ha.rank, oneOperand_eq_ok htypes ha'.rank,
    ha.grows ha' haa⟩

theorem Regular.two {s t : ValueType} (htypes : ctx.operandTypes = [s, t]) :
    ∃ a b a' b', facts = [a, b] ∧ facts' = [a', b'] ∧ ctx.twoOperands [a, b] = .ok (a, b) ∧
      ctx.twoOperands [a', b'] = .ok (a', b') ∧ a.Grows s.factShape a' ∧
      b.Grows t.factShape b' := by
  unfold Regular at h h'
  rw [htypes] at h h'
  rcases h with _ | ⟨ha, _ | ⟨hb, ⟨⟩⟩⟩
  rcases h' with _ | ⟨ha', _ | ⟨hb', ⟨⟩⟩⟩
  rcases hweaker with _ | ⟨haa, _ | ⟨hbb, _⟩⟩
  exact ⟨_, _, _, _, rfl, rfl, twoOperands_eq_ok htypes ha.rank hb.rank,
    twoOperands_eq_ok htypes ha'.rank hb'.rank, ha.grows ha' haa, hb.grows hb' hbb⟩

theorem Regular.three {s t u : ValueType} (htypes : ctx.operandTypes = [s, t, u]) :
    ∃ a b c a' b' c', facts = [a, b, c] ∧ facts' = [a', b', c'] ∧
      ctx.threeOperands [a, b, c] = .ok (a, b, c) ∧
      ctx.threeOperands [a', b', c'] = .ok (a', b', c') ∧ a.Grows s.factShape a' ∧
      b.Grows t.factShape b' ∧ c.Grows u.factShape c' := by
  unfold Regular at h h'
  rw [htypes] at h h'
  rcases h with _ | ⟨ha, _ | ⟨hb, _ | ⟨hc, ⟨⟩⟩⟩⟩
  rcases h' with _ | ⟨ha', _ | ⟨hb', _ | ⟨hc', ⟨⟩⟩⟩⟩
  rcases hweaker with _ | ⟨haa, _ | ⟨hbb, _ | ⟨hcc, _⟩⟩⟩
  exact ⟨_, _, _, _, _, _, rfl, rfl, threeOperands_eq_ok htypes ha.rank hb.rank hc.rank,
    threeOperands_eq_ok htypes ha'.rank hb'.rank hc'.rank, ha.grows ha' haa, hb.grows hb' hbb,
    hc.grows hc' hcc⟩

/-- The operands of a binary operation have the rank and the extents of the result. -/
theorem Regular.binary {types : ValueId → Option ValueType} (htyped : ctx.Typed types)
    {op : BinaryOp} (hop : ctx.binaryOp = .ok op) :
    ∃ a b a' b', facts = [a, b] ∧ facts' = [a', b'] ∧ ctx.Binary op a b ∧ ctx.Binary op a' b' ∧
      a.Grows ctx.shape a' ∧ b.Grows ctx.shape b' := by
  obtain ⟨s, t, htypes, hs, ht⟩ := htyped.binary hop
  obtain ⟨a, b, rfl, hab⟩ := h.ranked.binary htypes hs ht hop
  obtain ⟨a', b', rfl, hab'⟩ := h'.ranked.binary htypes hs ht hop
  obtain ⟨_, _, _, _, heq, heq', _, _, ha, hb⟩ := h.two h' hweaker htypes
  cases heq
  cases heq'
  rw [ValueType.factShape_congr hs] at ha
  rw [ValueType.factShape_congr ht] at hb
  exact ⟨a, b, a', b', rfl, rfl, hab, hab', ha, hb⟩

end Operands

end Context

namespace Rulebook

section Standard

variable {ctx : Context} {types : ValueId → Option ValueType} {facts facts' : List Fact}
  {a b a' b' f f' : Fact} {op : BinaryOp}

theorem binaryRule_under (h : ctx.Binary op a b) (h' : ctx.Binary op a' b')
    (ha : a.Grows ctx.shape a') (hb : b.Grows ctx.shape b')
    (hshape : ∀ extent ∈ ctx.shape, extent ≠ 0) (hsteady : op.Steady ctx.shape a' b')
    (hcoherent : op.trustsConstants = true → a'.Coherent ∧ b'.Coherent)
    (hf : binaryRule op ctx [a, b] = .ok f) (hf' : binaryRule op ctx [a', b'] = .ok f') :
    f.Under f' := by
  cases op with
  | add => exact Policy.Serves.add.rule_under h h' ha hb (hcoherent rfl) hsteady hf hf'
  | sub => exact Policy.Serves.sub.rule_under h h' ha hb (hcoherent rfl) hsteady hf hf'
  | mul => exact Policy.Serves.mul.rule_under h h' ha hb (hcoherent rfl) hsteady hf hf'
  | shl => exact Policy.Serves.shl.rule_under h h' ha hb (hcoherent rfl) hsteady hf hf'
  | shrS => exact Policy.Serves.shrS.rule_under h h' ha hb (hcoherent rfl) hsteady hf hf'
  | shrU => exact Policy.Serves.shrU.rule_under h h' ha hb (hcoherent rfl) hsteady hf hf'
  | divS | divU => exact Rule.quotient_under h h' ha hb (hcoherent rfl).1 hsteady hf hf'
  | remS | remU => exact Rule.remainder_under h h' ha hb hshape hsteady hf hf'
  | _ => exact Rule.logic_under h h' ha hb hf hf'

theorem binary_under (h : ctx.Typed types) (hfacts : ctx.Regular facts)
    (hfacts' : ctx.Regular facts') (hweaker : List.Forall₂ Fact.Weaker facts facts')
    (hop : ctx.binaryOp = .ok op) (hshape : ∀ extent ∈ ctx.shape, extent ≠ 0)
    (hsteady : ctx.Steady facts') (hcoherent : ctx.Coherent facts')
    (hf : standard.transfer ctx facts = .ok f) (hf' : standard.transfer ctx facts' = .ok f') :
    f.Under f' := by
  obtain ⟨a, b, a', b', rfl, rfl, hab, hab', ha, hb⟩ := hfacts.binary hfacts' hweaker h hop
  have hrule := standard_rule_of_binaryOp hop
  refine binaryRule_under hab hab' ha hb hshape (hsteady op a' b' hop rfl) ?_
    (rule_of_transfer hrule hf) (rule_of_transfer hrule hf')
  intro htrusts
  have hall := hcoherent op hop htrusts
  exact ⟨hall a' (by simp), hall b' (by simp)⟩

theorem standard_under (h : ctx.Typed types)
    (hsize : ∀ extent ∈ ctx.type.shape, extent < UInt64.size) (hfacts : ctx.Regular facts)
    (hfacts' : ctx.Regular facts') (hweaker : List.Forall₂ Fact.Weaker facts facts')
    (hsteady : ctx.Steady facts') (hcoherent : ctx.Coherent facts')
    (hf : standard.transfer ctx facts = .ok f) (hf' : standard.transfer ctx facts' = .ok f') :
    f.Under f' := by
  have hshape : ∀ extent ∈ ctx.shape, extent ≠ 0 := fun extent hextent =>
    ValueType.ne_zero_of_mem_factShape h.extents hsize hextent
  obtain ⟨value, op, type, operandTypes⟩ := ctx
  have hop := h.op
  cases hop with
  | arg | constFloat | reshape | merge | atomicRmw | gatherAtomicRmw =>
    rw [transfer_of_none rfl] at hf
    cases hf
    exact Fact.top_under _ f'
  | const hint =>
    cases h.operandTypes_eq [] rfl
    rcases hfacts with ⟨⟩
    rcases hfacts' with ⟨⟩
    cases rule_of_transfer rfl hf
    cases rule_of_transfer rfl hf'
    exact Fact.ofConstant_under hshape _
  | range horder hcount =>
    cases h.operandTypes_eq [] rfl
    rcases hfacts with ⟨⟩
    rcases hfacts' with ⟨⟩
    rw [hf] at hf'
    cases hf'
    exact Rule.range_under rfl horder (rule_of_transfer rfl hf)
  | @cast _ _ s _ hsource _ =>
    cases h.operandTypes_eq [s] (by simp [Op.operands, hsource])
    obtain ⟨a, a', rfl, rfl, hone, hone', ha⟩ := hfacts.one hfacts' hweaker rfl
    cases (rule_of_transfer rfl hf).symm.trans hone
    cases (rule_of_transfer rfl hf').symm.trans hone'
    exact ha.below.under
  | binary | addPtr =>
    exact binary_under h hfacts hfacts' hweaker rfl hshape hsteady hcoherent hf hf'
  | @cmp _ _ _ t hlhs hrhs =>
    cases h.operandTypes_eq [t, t] (by simp [Op.operands, hlhs, hrhs])
    obtain ⟨a, b, a', b', rfl, rfl, htwo, htwo', ha, hb⟩ := hfacts.two hfacts' hweaker rfl
    exact Rule.comparison_under rfl htwo htwo' ha hb hshape (rule_of_transfer rfl hf)
      (rule_of_transfer rfl hf')
  | @select _ _ _ c _ hcond hTrue hFalse _ _ =>
    cases h.operandTypes_eq [c, type, type] (by simp [Op.operands, hcond, hTrue, hFalse])
    obtain ⟨c, a, b, c', a', b', rfl, rfl, hthree, hthree', hc, ha, hb⟩ :=
      hfacts.three hfacts' hweaker rfl
    exact Rule.choice_under hthree hthree' hc.below ha hb (rule_of_transfer rfl hf)
      (rule_of_transfer rfl hf')
  | @splat _ s _ hsource hscalar =>
    cases h.operandTypes_eq [s] (by simp [Op.operands, hsource])
    obtain ⟨a, a', rfl, rfl, hone, hone', ha⟩ := hfacts.one hfacts' hweaker rfl
    exact Rule.splat_under hone hone' ha.below hshape (rule_of_transfer rfl hf)
      (rule_of_transfer rfl hf')
  | @broadcast _ s shape hsource hstretch =>
    cases h.operandTypes_eq [s] (by simp [Op.operands, hsource])
    obtain ⟨a, a', rfl, rfl, hone, hone', ha⟩ := hfacts.one hfacts' hweaker rfl
    exact Rule.broadcast_under hone hone' ha.below hshape (rule_of_transfer rfl hf)
      (rule_of_transfer rfl hf')
  | @expandDims _ _ s hsource haxis =>
    cases h.operandTypes_eq [s] (by simp [Op.operands, hsource])
    obtain ⟨a, a', rfl, rfl, hone, hone', ha⟩ := hfacts.one hfacts' hweaker rfl
    exact Rule.expandDims_under hone hone' ha.below rfl (rule_of_transfer rfl hf)
      (rule_of_transfer rfl hf')

end Standard

end Rulebook

/-! ### Knowing less -/

namespace Fact

variable {f : Fact} {t : ValueType} {d : Nat} {l : Lane}

/-- The fact with every run cut down to single elements. -/
def cut (f : Fact) : Fact := ⟨f.axes.map fun a => { a with run := 1 }, f.constant⟩

/-- The fact without its constant. -/
def forget (f : Fact) : Fact := { f with constant := none }

theorem lane_cut (h : f.lane d = .ok l) : f.cut.lane d = .ok { l with run := 1 } := by
  obtain ⟨haxis, hconstant⟩ := lane_eq_ok.mp h
  refine lane_eq_ok.mpr ⟨?_, hconstant⟩
  show (f.axes.map _)[d]? = _
  rw [List.getElem?_map, haxis]
  rfl

theorem lane_forget (h : f.lane d = .ok l) : f.forget.lane d = .ok { l with constant := none } :=
  lane_eq_ok.mpr ⟨(lane_eq_ok.mp h).1, rfl⟩

theorem Tracked.cut_weaker (h : f.Tracked) : f.cut.Weaker f := by
  refine Below.weakerOrEqual ⟨List.length_map .., fun d x y hx hy => ?_, fun _ hc => hc⟩
  obtain ⟨z, hz, rfl⟩ := Option.map_eq_some_iff.mp (List.getElem?_map .. ▸ hx)
  rw [hy] at hz
  cases hz
  exact ⟨(h.axis hy).power.pos, dvd_rfl, Word.isPower_one.pos, one_dvd _, .inr rfl⟩

theorem Tracked.forget_weaker (h : f.Tracked) : f.forget.Weaker f := by
  refine Below.weakerOrEqual ⟨rfl, fun d x y hx hy => ?_, by rintro _ ⟨⟩⟩
  exact (h.positive.below_self).axes d x y hx hy

theorem Regular.weaker_self (h : f.Regular t) : f.Weaker f :=
  Below.weakerOrEqual h.tracked.positive.below_self

theorem Regular.cut (h : f.Regular t) : f.cut.Regular t where
  rank := (List.length_map ..).trans h.rank
  tracked x hx := by
    obtain ⟨a, ha, rfl⟩ := List.mem_map.mp hx
    exact ⟨(h.tracked a ha).power, Word.isPower_one.pos⟩
  cuts d x extent hx _ := by
    obtain ⟨a, _, rfl⟩ := Option.map_eq_some_iff.mp (List.getElem?_map .. ▸ hx)
    exact Word.cuts_one _

theorem Regular.forget (h : f.Regular t) : f.forget.Regular t := ⟨h.rank, h.tracked, h.cuts⟩

end Fact

/-- Whatever less is known of the operands, no more is answered than from these facts. -/
def Rulebook.MonotoneAt (book : Rulebook) (ctx : Context) (facts' : List Fact) : Prop :=
  ∀ facts, ctx.Regular facts → List.Forall₂ Fact.Weaker facts facts' →
    ∃ f f', book.transfer ctx facts = .ok f ∧ book.transfer ctx facts' = .ok f' ∧ f.Weaker f'

/-- The answers from two pairs of facts, of which the second one says more. -/
structure Rule.Compares (rule : Rule) (ctx : Context) (op : BinaryOp) (a b a' b' f f' : Fact) :
    Prop where
  weaker : ctx.Binary op a b
  stronger : ctx.Binary op a' b'
  answer : rule ctx [a, b] = .ok f
  answer' : rule ctx [a', b'] = .ok f'
  under : f.Under f'

section Converse

variable {ctx : Context} {op : BinaryOp} {a b a' b' f f' : Fact} {d : Nat} {l r : Lane}
  {extent : Int64}

theorem Context.Binary.lt_rank (h : ctx.Binary op a b) (hl : a.lane d = .ok l) : d < ctx.rank := by
  rw [← h.left]
  exact (List.getElem?_eq_some_iff.mp (Fact.lane_eq_ok.mp hl).1).1

theorem Policy.Serves.run_of_fold {policy : Policy} (hpolicy : policy.Serves op)
    (h : ctx.Binary op a b) (hf : policy.rule ctx [a, b] = .ok f)
    (hfold : op.fold a.constant b.constant ≠ none) (hl : a.lane d = .ok l)
    (hr : b.lane d = .ok r) : ∃ x, f.axes[d]? = some x ∧ x.run = max l.run r.run := by
  obtain ⟨v, hfold⟩ := Option.ne_none_iff_exists'.mp hfold
  obtain ⟨axes, hrule, hlen, hall⟩ := policy.rule_eq_ok hpolicy.total h
  rw [hf] at hrule
  cases hrule
  have hx := List.getElem?_eq_getElem (hlen.symm ▸ h.lt_rank hl)
  obtain ⟨l', r', hl', hr', haxis⟩ := hall d _ hx
  rw [hl] at hl'
  rw [hr] at hr'
  cases hl'
  cases hr'
  rw [hpolicy.constant, hfold] at haxis
  exact ⟨_, hx, (congrArg Axis.run (Except.ok.inj haxis)).symm⟩

/-- Two constants are folded, and then have runs that are nested: cut one operand down to single
elements, and the run of the other one is left. -/
theorem Policy.Serves.nested {policy : Policy} (hpolicy : policy.Serves op) {g g' : Fact}
    (hleft : Rule.Compares policy.rule ctx op a.cut b a b f f')
    (hright : Rule.Compares policy.rule ctx op a b.cut a b g g') (ha : a.Tracked) (hb : b.Tracked)
    (hfold : op.fold a.constant b.constant ≠ none) : a.Nested b := by
  intro d x y hx hy
  have hl : a.lane d = .ok ⟨x, a.constant⟩ := Fact.lane_eq_ok.mpr ⟨hx, rfl⟩
  have hr : b.lane d = .ok ⟨y, b.constant⟩ := Fact.lane_eq_ok.mpr ⟨hy, rfl⟩
  obtain ⟨z, hz, hrun⟩ := hpolicy.run_of_fold hleft.stronger hleft.answer' hfold hl hr
  obtain ⟨u, hu, hleftRun⟩ := hpolicy.run_of_fold hleft.weaker hleft.answer hfold
    (Fact.lane_cut hl) hr
  obtain ⟨w, hw, hrightRun⟩ := hpolicy.run_of_fold hright.weaker hright.answer hfold hl
    (Fact.lane_cut hr)
  have hxpos := (ha.axis hx).run_pos
  have hypos := (hb.axis hy).run_pos
  have huy : u.run = y.run := hleftRun.trans (Word.max_of_dvd_left hypos (one_dvd _))
  have hwx : w.run = x.run := hrightRun.trans (Word.max_of_dvd_right hxpos (one_dvd _))
  have hsame : g' = f' := Except.ok.inj (hright.answer'.symm.trans hleft.answer')
  subst hsame
  have hyz := (hleft.under.axes d u z hu hz).run
  have hxz := (hright.under.axes d w z hw hz).run
  rw [huy, hrun, Fact.divides_eq_true_of_pos hypos] at hyz
  rw [hwx, hrun, Fact.divides_eq_true_of_pos hxpos] at hxz
  exact Word.nested_of_dvd_max hxz hyz

namespace Rule

theorem FoldsTo.getElem? {axis : Lane → Lane → Int64 → Checked Axis} {axes : List Axis}
    (hall : FoldsTo ctx op a b axis axes) (hlen : axes.length = ctx.rank) (hl : a.lane d = .ok l)
    (hr : b.lane d = .ok r) (hextent : ctx.shape[d]? = some extent) :
    ∃ x, axes[d]? = some x ∧ match op.fold a.constant b.constant with
      | some q => x = ⟨Word.powerDivisor q, l.constancy, 0⟩
      | none => axis l r extent = .ok x := by
  have hx := List.getElem?_eq_getElem (hlen.symm ▸ Context.lt_rank_of_shape hextent)
  obtain ⟨l', r', extent', hl', hr', hextent', haxis⟩ := hall d _ hx
  rw [hl] at hl'
  rw [hr] at hr'
  rw [hextent] at hextent'
  cases hl'
  cases hr'
  cases hextent'
  exact ⟨_, hx, haxis⟩

theorem Buckets.quotientAxis_divisibility {divisor : Int64} (h : Buckets l r extent divisor)
    {x : Axis} (hx : quotientAxis l r extent = .ok x) : x.divisibility =
      if bucketRun l r = l.run then Word.scaleDown l.divisibility divisor else 1 := by
  cases h.quotientAxis_eq.symm.trans hx
  simp only [beq_iff_eq]

/-- A dividend cut down to single elements has buckets of single elements. -/
theorem Buckets.cut {divisor : Int64} (h : Buckets l r extent divisor) (hpos : 0 < l.run.toInt) :
    Buckets { l with run := 1 } r extent divisor where
  constant := h.constant
  divisor := h.divisor
  varies := by
    have hone : l.constancy = 1 := by simp [Axis.constancy, h.step_ne_zero]
    have hvaries := h.varies
    rw [Axis.isConstantOver, hone] at hvaries
    simpa [Axis.isConstantOver, Axis.constancy, h.step_ne_zero] using hvaries
  strided := by
    have hstrided := h.strided
    simp only [Axis.isStridedWithin, Bool.and_eq_true, decide_eq_true_eq] at hstrided ⊢
    refine ⟨hstrided.1, ?_⟩
    have hle := Int64.le_iff_toInt_le.mp hstrided.2
    have hone : (1 : Int64).toInt = 1 := by decide
    exact Int64.le_iff_toInt_le.mpr (by omega)
  steady := h.steady
  step := h.step

/-- Single elements of the dividend keep what is left of the divisor, so longer runs have to. -/
theorem quotient_keepsDivisor (h : Compares quotient ctx op a.cut b a b f f') (ha : a.Tracked)
    (hkeeps : keepsDividend a b = false) (hfold : op.fold a.constant b.constant = none)
    (hl : a.lane d = .ok l) (hr : b.lane d = .ok r) (hextent : ctx.shape[d]? = some extent) :
    KeepsDivisor l r extent := by
  intro divisor hbuckets
  have hcut : keepsDividend a.cut b = false := hkeeps
  rcases quotient_cases h.weaker with ⟨hkept, _⟩ | ⟨_, axes, hrule, hlen, hall⟩
  · rw [hcut] at hkept
    cases hkept
  rcases quotient_cases h.stronger with ⟨hkept, _⟩ | ⟨_, axes', hrule', hlen', hall'⟩
  · rw [hkeeps] at hkept
    cases hkept
  have hf := Except.ok.inj (h.answer.symm.trans hrule)
  have hf' := Except.ok.inj (h.answer'.symm.trans hrule')
  have hunder := h.under
  rw [hf, hf'] at hunder
  obtain ⟨x, hx, hxaxis⟩ := hall.getElem? hlen (Fact.lane_cut hl) hr hextent
  obtain ⟨y, hy, hyaxis⟩ := hall'.getElem? hlen' hl hr hextent
  rw [show op.fold a.cut.constant b.constant = none from hfold] at hxaxis
  rw [hfold] at hyaxis
  have hunit : bucketRun { l with run := 1 } r = 1 := Word.gcd_one_left _
  have hpos := ((ha.lane hl).power.scaleDown divisor).pos
  have hdvd := (hunder.axes d x y hx hy).divisibility
  rw [(hbuckets.cut (ha.lane hl).run_pos).quotientAxis_divisibility hxaxis, if_pos hunit,
    hbuckets.quotientAxis_divisibility hyaxis] at hdvd
  split at hdvd
  · next hrun => exact .inl hrun
  · rw [Fact.divides_eq_true_of_pos hpos] at hdvd
    exact .inr (Int64.toInt_inj.mp (Int.eq_one_of_dvd_one hpos.le hdvd))

/-- A remainder that counts up without constants must not be constant with them. -/
theorem not_countsUp (h : Compares remainder ctx op a.forget b.forget a b f f')
    (hconstant : keepsDividend a b = true ∨ op.fold a.constant b.constant ≠ none)
    (hl : a.lane d = .ok l) (hr : b.lane d = .ok r) (hextent : ctx.shape[d]? = some extent) :
    ¬ CountsUp l r extent := by
  intro hcounts
  have hcounts₀ : CountsUp { l with constant := none } { r with constant := none } extent := hcounts
  -- Without constants the remainder counts up,
  have hx : ∃ x, f.axes[d]? = some x ∧ x.step = 1 := by
    rcases remainder_cases h.weaker with ⟨hkept, _⟩ | ⟨_, axes, hrule, hlen, hall⟩
    · cases hkept
    · rw [Except.ok.inj (h.answer.symm.trans hrule)]
      obtain ⟨x, hx, hxaxis⟩ :=
        hall.getElem? hlen (Fact.lane_forget hl) (Fact.lane_forget hr) hextent
      refine ⟨x, hx, ?_⟩
      rw [← Except.ok.inj hxaxis, hcounts₀.remainderAxis_eq]
  -- and with them it stands still.
  have hy : ∃ y, f'.axes[d]? = some y ∧ y.step = 0 := by
    rcases remainder_cases h.stronger with ⟨_, hrule⟩ | ⟨hkeeps, axes, hrule, hlen, hall⟩
    · rw [Except.ok.inj (h.answer'.symm.trans hrule)]
      refine ⟨⟨Word.powerDivisor 0, extent, 0⟩, ?_, rfl⟩
      show (ctx.shape.map _)[d]? = _
      rw [List.getElem?_map, hextent]
      rfl
    · rw [hkeeps] at hconstant
      obtain ⟨q, hfold⟩ := Option.ne_none_iff_exists'.mp (hconstant.resolve_left (by rintro ⟨⟩))
      rw [Except.ok.inj (h.answer'.symm.trans hrule)]
      obtain ⟨y, hy, hyaxis⟩ := hall.getElem? hlen hl hr hextent
      rw [hfold] at hyaxis
      exact ⟨y, hy, congrArg Axis.step hyaxis⟩
  obtain ⟨x, hx, hxstep⟩ := hx
  obtain ⟨y, hy, hystep⟩ := hy
  have hstep := (h.under.axes d x y hx hy).step
  rw [hxstep, hystep] at hstep
  exact absurd hstep (by decide)

end Rule

end Converse

/-! ### Where rules are monotone -/

namespace Rulebook

section Monotone

variable {g : Graph} {v : ValueId} {ctx : Context} {types : ValueId → Option ValueType}
  {facts' : List Fact} {op : BinaryOp} {a b a' b' : Fact}

theorem MonotoneAt.compares (h : standard.MonotoneAt ctx [a', b']) (htyped : ctx.Typed types)
    (hop : ctx.binaryOp = .ok op) (hregular' : ctx.Regular [a', b'])
    (hregular : ctx.Regular [a, b]) (ha : a.Weaker a') (hb : b.Weaker b') :
    ∃ f f', Rule.Compares (binaryRule op) ctx op a b a' b' f f' := by
  have hweaker : List.Forall₂ Fact.Weaker [a, b] [a', b'] := .cons ha (.cons hb .nil)
  obtain ⟨f, f', hf, hf', hff⟩ := h _ hregular hweaker
  obtain ⟨_, _, _, _, heq, heq', hab, hab', _⟩ := hregular.binary hregular' hweaker htyped hop
  cases heq
  cases heq'
  have hrule := standard_rule_of_binaryOp hop
  exact ⟨f, f', hab, hab', rule_of_transfer hrule hf, rule_of_transfer hrule hf',
    (Fact.weaker_iff.mp hff).2⟩

/-- Rules that are monotone are steady. Facts cut down to single elements show it, and for
remainders facts without their constants. -/
theorem MonotoneAt.steady (h : standard.MonotoneAt ctx facts') (htyped : ctx.Typed types)
    (hfacts' : ctx.Regular facts') : ctx.Steady facts' := by
  intro op a b hop hpair
  subst hpair
  obtain ⟨s, t, htypes, _⟩ := htyped.binary hop
  have hregular : ∀ {c d : Fact}, c.Regular s → d.Regular t → ctx.Regular [c, d] := by
    intro c d hc hd
    unfold Context.Regular
    rw [htypes]
    exact .cons hc (.cons hd .nil)
  obtain ⟨ha, hb⟩ : a.Regular s ∧ b.Regular t := by
    unfold Context.Regular at hfacts'
    rw [htypes] at hfacts'
    rcases hfacts' with _ | ⟨ha, _ | ⟨hb, _⟩⟩
    exact ⟨ha, hb⟩
  obtain ⟨_, _, hleft⟩ := h.compares htyped hop hfacts' (hregular ha.cut hb)
    ha.tracked.cut_weaker hb.weaker_self
  obtain ⟨_, _, hright⟩ := h.compares htyped hop hfacts' (hregular ha hb.cut) ha.weaker_self
    hb.tracked.cut_weaker
  obtain ⟨_, _, hforget⟩ := h.compares htyped hop hfacts' (hregular ha.forget hb.forget)
    ha.tracked.forget_weaker hb.tracked.forget_weaker
  cases op with
  | add => exact Policy.Serves.add.nested hleft hright ha.tracked hb.tracked
  | sub => exact Policy.Serves.sub.nested hleft hright ha.tracked hb.tracked
  | mul => exact Policy.Serves.mul.nested hleft hright ha.tracked hb.tracked
  | shl => exact Policy.Serves.shl.nested hleft hright ha.tracked hb.tracked
  | shrS => exact Policy.Serves.shrS.nested hleft hright ha.tracked hb.tracked
  | shrU => exact Policy.Serves.shrU.nested hleft hright ha.tracked hb.tracked
  | divS | divU =>
    intro hkeeps hfold d l r extent hl hr hextent
    exact Rule.quotient_keepsDivisor hleft ha.tracked hkeeps hfold hl hr hextent
  | remS | remU =>
    intro hconstant d l r extent hl hr hextent
    exact Rule.not_countsUp hforget hconstant hl hr hextent
  | _ => trivial

/-- In a well-typed graph, take facts of the operands of any value: of their ranks, with tracked
powers of two for divisors and with runs that cut their extents. If no facts that say less give an
answer that says more, then these are steady. If they are steady, and agree with their constants
where a rule trusts those, then no facts that say less give an answer that says more. -/
theorem standard_monotoneAt (hg : g.WellTyped) (hctx : g.context v = .ok ctx)
    (hsize : ∀ extent ∈ ctx.type.shape, extent < UInt64.size) (hfacts' : ctx.Regular facts') :
    (standard.MonotoneAt ctx facts' → ctx.Steady facts') ∧
      (ctx.Steady facts' → ctx.Coherent facts' → standard.MonotoneAt ctx facts') := by
  have htyped := hg.typed_of_context hctx
  refine ⟨fun h => h.steady htyped hfacts', ?_⟩
  intro hsteady hcoherent facts hfacts hweaker
  obtain ⟨f, hf, _⟩ := standard_answers htyped hfacts.ranked
  obtain ⟨f', hf', _⟩ := standard_answers htyped hfacts'.ranked
  refine ⟨f, f', hf, hf', Fact.weaker_iff.mpr ⟨?_, ?_⟩⟩
  · rw [rank_of_transfer hf, rank_of_transfer hf']
  · exact standard_under htyped hsize hfacts hfacts' hweaker hsteady hcoherent hf hf'

end Monotone

end Rulebook

/-- Two arguments of twelve elements, combined. -/
def Graph.combined (op : BinaryOp) : Graph :=
  ⟨[⟨.arg 0, ⟨.i32, [12]⟩⟩, ⟨.arg 1, ⟨.i32, [12]⟩⟩, ⟨.binary op 0 1, ⟨.i32, [12]⟩⟩]⟩

theorem Graph.combined_built (op : BinaryOp) : (Graph.combined op).Built :=
  .of_requests [.define (.arg 0 ⟨.i32, [12]⟩), .define (.arg 1 ⟨.i32, [12]⟩),
    .define (.binary op 0 1)] .empty rfl

def Context.combined (op : BinaryOp) : Context :=
  ⟨2, .binary op 0 1, ⟨.i32, [12]⟩, [⟨.i32, [12]⟩, ⟨.i32, [12]⟩]⟩

instance (run : Int64) (n : Nat) : Decidable (Word.Cuts run n) :=
  decidable_of_iff (0 < run.toInt ∧ run.toInt ∣ n) ⟨fun h => ⟨h.1, h.2⟩, fun h => ⟨h.pos, h.dvd⟩⟩

theorem Context.regular_combined (op : BinaryOp) {x y : Axis} (c d : Option Int64)
    (hx : x.Tracked ∧ Word.Cuts x.run 12) (hy : y.Tracked ∧ Word.Cuts y.run 12) :
    (Context.combined op).Regular [⟨[x], c⟩, ⟨[y], d⟩] := by
  have hregular : ∀ {z : Axis} {e : Option Int64}, z.Tracked ∧ Word.Cuts z.run 12 →
      Fact.Regular ⟨[z], e⟩ ⟨.i32, [12]⟩ := by
    intro z e hz
    refine ⟨rfl, by simpa [Fact.Tracked] using hz.1, fun d a extent ha hextent => ?_⟩
    cases d with
    | zero =>
      cases ha
      cases hextent
      exact hz.2
    | succ d => cases ha
  exact .cons (hregular hx) (.cons (hregular hy) .nil)

/-- Sixteen and four: runs of four are buckets, and nothing is lost. One run of twelve is cut into
buckets, and loses its divisor. -/
theorem Rulebook.standard_monotoneAt_buckets : (Graph.combined .divU).WellTyped ∧
    (Graph.combined .divU).context 2 = .ok (.combined .divU) ∧
    (Context.combined .divU).Regular [⟨[⟨16, 4, 1⟩], none⟩, ⟨[⟨4, 12, 0⟩], some 4⟩] ∧
    standard.MonotoneAt (.combined .divU) [⟨[⟨16, 4, 1⟩], none⟩, ⟨[⟨4, 12, 0⟩], some 4⟩] ∧
    (Context.combined .divU).Regular [⟨[⟨16, 12, 1⟩], none⟩, ⟨[⟨4, 12, 0⟩], some 4⟩] ∧
    ¬ standard.MonotoneAt (.combined .divU) [⟨[⟨16, 12, 1⟩], none⟩, ⟨[⟨4, 12, 0⟩], some 4⟩] := by
  have hg := (Graph.combined_built .divU).wellTyped
  have hctx : (Graph.combined .divU).context 2 = .ok (.combined .divU) := rfl
  have hsize : ∀ extent ∈ (Context.combined .divU).type.shape, extent < UInt64.size := by decide
  have hshort := Context.regular_combined .divU (x := ⟨16, 4, 1⟩) (y := ⟨4, 12, 0⟩) none (some 4)
    (by decide +kernel) (by decide +kernel)
  have hlong := Context.regular_combined .divU (x := ⟨16, 12, 1⟩) (y := ⟨4, 12, 0⟩) none (some 4)
    (by decide +kernel) (by decide +kernel)
  refine ⟨hg, hctx, hshort, (standard_monotoneAt hg hctx hsize hshort).2 ?_ ?_, hlong, ?_⟩
  · intro op a b hop hpair
    cases hop
    cases hpair
    intro _ _ d l r extent hl hr _ divisor _
    cases d with
    | zero =>
      cases hl
      cases hr
      exact .inl (by decide +kernel)
    | succ d => cases hl
  · intro _ _ _ f hf c hc x hx
    rcases List.mem_pair.mp hf with rfl | rfl
    · cases hc
    · cases hc
      cases List.mem_singleton.mp hx
      exact ⟨by decide, .inl rfl⟩
  · intro h
    have hsteady := (standard_monotoneAt hg hctx hsize hlong).1 h
    have hbuckets : Rule.Buckets ⟨⟨16, 12, 1⟩, none⟩ ⟨⟨4, 12, 0⟩, some 4⟩ 12 4 :=
      ⟨rfl, by decide +kernel, by decide, by decide, by decide, by decide +kernel⟩
    exact absurd (hsteady .divU _ _ rfl rfl rfl rfl 0 _ _ 12 rfl rfl rfl 4 hbuckets)
      (by decide +kernel)

/-- More is known of the operands of a value, and something is lost in the answer. -/
def Graph.Loses (g : Graph) (v : ValueId) (facts facts' : List Fact) : Prop :=
  ∃ ctx f f', g.context v = .ok ctx ∧ ctx.Regular facts ∧ ctx.Regular facts' ∧
    List.Forall₂ Fact.Weaker facts facts' ∧ Rulebook.standard.transfer ctx facts = .ok f ∧
    Rulebook.standard.transfer ctx facts' = .ok f' ∧ ¬ f.Weaker f'

theorem Graph.loses_combined {op : BinaryOp} {x y x' y' : Axis} {c d c' d' : Option Int64}
    (f f' : Fact)
    (hregular : (x.Tracked ∧ Word.Cuts x.run 12) ∧ (y.Tracked ∧ Word.Cuts y.run 12) ∧
      (x'.Tracked ∧ Word.Cuts x'.run 12) ∧ (y'.Tracked ∧ Word.Cuts y'.run 12))
    (hweaker : Fact.Weaker ⟨[x], c⟩ ⟨[x'], c'⟩ ∧ Fact.Weaker ⟨[y], d⟩ ⟨[y'], d'⟩)
    (htransfer : Rulebook.standard.transfer (.combined op) [⟨[x], c⟩, ⟨[y], d⟩] = .ok f ∧
      Rulebook.standard.transfer (.combined op) [⟨[x'], c'⟩, ⟨[y'], d'⟩] = .ok f' ∧ ¬ f.Weaker f') :
    (Graph.combined op).Loses 2 [⟨[x], c⟩, ⟨[y], d⟩] [⟨[x'], c'⟩, ⟨[y'], d'⟩] := by
  obtain ⟨hx, hy, hx', hy'⟩ := hregular
  exact ⟨.combined op, f, f', rfl, Context.regular_combined op c d hx hy,
    Context.regular_combined op c' d' hx' hy', .cons hweaker.1 (.cons hweaker.2 .nil), htransfer⟩

/-- A quotient by four loses its divisor to a longer run, and a sum of constants its run. A
remainder counts up until the divisor turns out to be one. A constant that is not a multiple of the
divisor takes its place. -/
theorem Rulebook.standard_not_monotone : (∀ op, (Graph.combined op).WellTyped) ∧
    (Graph.combined .divU).Loses 2 [⟨[⟨16, 4, 1⟩], none⟩, ⟨[⟨4, 12, 0⟩], some 4⟩]
      [⟨[⟨16, 12, 1⟩], none⟩, ⟨[⟨4, 12, 0⟩], some 4⟩] ∧
    (Graph.combined .add).Loses 2 [⟨[⟨1, 4, 0⟩], some 1⟩, ⟨[⟨1, 1, 0⟩], some 1⟩]
      [⟨[⟨1, 4, 0⟩], some 1⟩, ⟨[⟨1, 6, 0⟩], some 1⟩] ∧
    (Graph.combined .remU).Loses 2 [⟨[⟨16, 12, 1⟩], none⟩, ⟨[⟨1, 12, 0⟩], none⟩]
      [⟨[⟨16, 12, 1⟩], none⟩, ⟨[⟨1, 12, 0⟩], some 1⟩] ∧
    (Graph.combined .add).Loses 2 [⟨[⟨4, 12, 0⟩], none⟩, ⟨[⟨4, 12, 0⟩], some 0⟩]
      [⟨[⟨4, 12, 0⟩], some 1⟩, ⟨[⟨4, 12, 0⟩], some 0⟩] := by
  refine ⟨fun op => (Graph.combined_built op).wellTyped, ?_, ?_, ?_, ?_⟩
  · apply Graph.loses_combined ⟨[⟨4, 4, 0⟩], none⟩ ⟨[⟨1, 4, 0⟩], none⟩ <;> decide +kernel
  · apply Graph.loses_combined ⟨[⟨2, 4, 0⟩], some 2⟩ ⟨[⟨2, 6, 0⟩], some 2⟩ <;> decide +kernel
  · apply Graph.loses_combined ⟨[⟨1, 1, 1⟩], none⟩ (.zero [12]) <;> decide +kernel
  · apply Graph.loses_combined ⟨[⟨4, 12, 0⟩], none⟩ ⟨[⟨1, 12, 0⟩], some 1⟩ <;> decide +kernel

end TileFacts
