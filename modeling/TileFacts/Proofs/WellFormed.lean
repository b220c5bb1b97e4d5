import TileFacts.Proofs.Describes

/-! Facts that are well formed.

Along each dimension, a well-formed fact has a tracked power of two for its divisor and a run that
the dimension can be cut into; a constant is a multiple of every divisor and goes with no step but
zero (`Axis.WellFormed`, `Fact.WellFormed`). A join is well formed as soon as one side is
(`Fact.wellFormed_inherited`), and every standard rule answers well-formed facts with a well-formed
one (`Answer.wellFormed`). Main statement: so is every fact that the inference ends with, whatever
the budget. -/
namespace TileFacts

/-- What a fact may say along a dimension of `extent` elements, if the whole has this constant. -/
structure Axis.WellFormed (a : Axis) (extent : Nat) (constant : Option Int64) : Prop where
  power : Word.IsPower a.divisibility
  run : Word.Cuts a.run extent
  constant : ∀ c, constant = some c →
    a.divisibility.toInt ∣ c.toInt ∧ (a.step = 0 ∨ a.step = unknownStep)

/-- What a fact may say of a value of this shape. A scalar counts as one element. -/
structure Fact.WellFormed (f : Fact) (shape : Shape) : Prop where
  rank : f.rank = max shape.length 1
  axes : ∀ (d : Nat) (a : Axis), f.axes[d]? = some a →
    a.WellFormed (shape.getD d 1) f.constant

/-! ### Axes -/

namespace Axis

variable {a b : Axis} {extent : Nat} {constant : Option Int64}

theorem wellFormed_of_none (hpower : Word.IsPower a.divisibility) (hrun : Word.Cuts a.run extent) :
    a.WellFormed extent none :=
  ⟨hpower, hrun, by rintro _ ⟨⟩⟩

theorem wellFormed_unit (extent : Nat) (constant : Option Int64) {step : Int64}
    (hstep : step = 0 ∨ step = unknownStep) : (⟨1, 1, step⟩ : Axis).WellFormed extent constant :=
  ⟨Word.isPower_one, Word.cuts_one extent, fun _ _ => ⟨one_dvd _, hstep⟩⟩

theorem wellFormed_top (extent : Nat) (constant : Option Int64) :
    Axis.top.WellFormed extent constant :=
  wellFormed_unit extent constant (.inr rfl)

theorem wellFormed_constant {run : Int64} (value : Int64) (hrun : Word.Cuts run extent) :
    (⟨Word.powerDivisor value, run, 0⟩ : Axis).WellFormed extent (some value) := by
  refine ⟨Word.isPower_powerDivisor value, hrun, fun c hc => ?_⟩
  cases hc
  exact ⟨Word.powerDivisor_dvd value, .inl rfl⟩

/-- A divisor is kept along a dimension that is new. -/
theorem WellFormed.spread (h : a.WellFormed extent constant) {run : Int64} {other : Nat}
    (hrun : Word.Cuts run other) : (⟨a.divisibility, run, 0⟩ : Axis).WellFormed other constant :=
  ⟨h.power, hrun, fun c hc => ⟨(h.constant c hc).1, .inl rfl⟩⟩

theorem WellFormed.shorten (h : a.WellFormed extent constant) (run : Int64) :
    ({ a with run := Word.gcd a.run run } : Axis).WellFormed extent constant :=
  ⟨h.power, h.run.gcd run, h.constant⟩

/-- Less may be known of the constant after a join than before. -/
theorem WellFormed.join (h : a.WellFormed extent constant) (b : Axis) {common : Option Int64}
    (hcommon : ∀ c, common = some c → constant = some c) : (a.join b).WellFormed extent common := by
  refine ⟨h.power.gcd _, h.run.gcd _, fun c hc => ?_⟩
  obtain ⟨hdvd, hstep⟩ := h.constant c (hcommon c hc)
  refine ⟨(Word.gcd_dvd_left h.power.pos).trans hdvd, ?_⟩
  by_cases hsame : (a.step == b.step) = true
  · have hkept : (a.join b).step = a.step := if_pos hsame
    rw [hkept]
    exact hstep
  · exact .inr (if_neg hsame)

end Axis

/-! ### Binary operators -/

namespace Policy

variable {op : BinaryOp} {l r : Lane} {extent : Nat} {c d : Option Int64}

/-- The divisor that a policy gives is a tracked power of two. -/
theorem Serves.power {policy : Policy} (h : policy.Serves op) (hl : Word.IsPower l.divisibility)
    (hr : Word.IsPower r.divisibility) {m : Int64} (hm : policy.divisibility op l r = .ok m) :
    Word.IsPower m := by
  cases h with
  | add | sub =>
    cases hm
    exact hl.gcd _
  | mul => exact (product_divisibility hl hr hm).1
  | shl =>
    cases hs : shiftAmount r with
    | none =>
      simp only [shiftLeft, hs] at hm
      cases hm
      exact Word.isPower_one
    | some shift => exact (shiftLeft_divisibility hl hs hm).1
  | shrS | shrU =>
    cases hs : shiftAmount r with
    | none =>
      simp only [shiftRight, hs] at hm
      cases hm
      exact Word.isPower_one
    | some shift =>
      cases (shiftRight_divisibility _ l hs).symm.trans hm
      exact (shiftRight_divisor hl (shiftAmount_eq_some hs).2.2).1

/-- The run that a policy gives cuts what the run of the first operand cuts. -/
theorem Serves.cuts {policy : Policy} (h : policy.Serves op) (hl : Word.Cuts l.run extent) :
    Word.Cuts (policy.run op l r) extent := by
  cases h with
  | add | sub => exact hl.gcd _
  | mul => exact ((Axis.constancy_cuts hl).gcd _).max (hl.gcd _)
  | shl =>
    show Word.Cuts (if (shiftAmount r).isSome then l.run else 1) extent
    split
    · exact hl
    · exact Word.cuts_one extent
  | shrS | shrU =>
    show Word.Cuts (if shiftAmount r == some 0 then l.run else 1) extent
    split
    · exact hl
    · exact Word.cuts_one extent

theorem Serves.wellFormed {policy : Policy} (h : policy.Serves op)
    (hl : l.toAxis.WellFormed extent c) (hr : r.toAxis.WellFormed extent d)
    {constant : Option Int64} {axis : Axis} (haxis : policy.axis op l r constant = .ok axis) :
    axis.WellFormed extent constant := by
  cases constant with
  | some value =>
    cases haxis
    exact Axis.wellFormed_constant value (hl.run.max hr.run)
  | none =>
    obtain ⟨m, _, hm, _, rfl⟩ := axis_none_eq_ok.mp haxis
    exact Axis.wellFormed_of_none (h.power hl.power hr.power hm) (h.cuts hl.run)

end Policy

namespace Rule

variable {l r : Lane} {extent : Nat} {c : Option Int64} (size : Int64)

theorem quotientAxis_wellFormed (hl : l.toAxis.WellFormed extent c) {axis : Axis}
    (haxis : quotientAxis l r size = .ok axis) : axis.WellFormed extent none := by
  refine Axis.wellFormed_of_none (quotientAxis_power hl.power haxis) ?_
  rcases eq_of_quotientAxis haxis with ⟨divisor, _, rfl⟩ | rfl
  · exact hl.run.gcd _
  · exact Word.cuts_one extent

theorem remainderAxis_wellFormed (hl : l.toAxis.WellFormed extent c) :
    (remainderAxis l r size).WellFormed extent none := by
  unfold remainderAxis
  split
  · exact Axis.wellFormed_of_none (hl.power.gcd _) ((Axis.contiguity_cuts hl.run).gcd _)
  · exact Axis.wellFormed_top extent none

theorem strictRun_cuts {l r : Axis} (hl : Word.Cuts l.run extent) (hr : Word.Cuts r.run extent) :
    Word.Cuts (strictRun l r size) extent := by
  have hboth := (Axis.constancy_cuts hl).gcd r.constancy
  unfold strictRun
  split
  · exact hboth.max ((Axis.contiguity_cuts hr).gcd _)
  · split
    · exact hboth.max ((Axis.contiguity_cuts hl).gcd _)
    · exact hboth

end Rule

/-! ### Facts -/

namespace Fact

variable {a b : Fact} {shape : Shape}

theorem wellFormed_top (shape : Shape) : (Fact.top (max shape.length 1)).WellFormed shape := by
  refine ⟨Fact.rank_top _, fun d a ha => ?_⟩
  rw [(List.mem_replicate.mp (List.mem_of_getElem? ha)).2]
  exact Axis.wellFormed_top _ _

theorem wellFormed_inherited (shape : Shape) : Fact.Inherited fun f => f.WellFormed shape := by
  constructor
  · intro a b c hc h
    refine ⟨(Fact.rank_of_join hc).1.symm.trans h.rank, fun d x hx => ?_⟩
    obtain ⟨l, r, hl, _, rfl⟩ := Fact.axis_of_join hc hx
    exact (h.axes d l hl).join r fun k hk => (Fact.constant_of_join hc hk).1
  · intro a b c hc h
    refine ⟨(Fact.rank_of_join hc).2.symm.trans h.rank, fun d x hx => ?_⟩
    obtain ⟨l, r, _, hr, rfl⟩ := Fact.axis_of_join hc hx
    rw [Axis.join_comm]
    exact (h.axes d r hr).join l fun k hk => (Fact.constant_of_join hc hk).2

theorem WellFormed.lane (h : a.WellFormed shape) {d : Nat} {l : Lane} (hl : a.lane d = .ok l) :
    l.toAxis.WellFormed (shape.getD d 1) a.constant :=
  h.axes d _ (Fact.lane_eq_ok.mp hl).1

end Fact

/-- Axes give way to the constant that two constants combine to, and are well formed otherwise. -/
theorem Rule.FoldsTo.wellFormed {ctx : Context} {op : BinaryOp} {a b : Fact} {axes : List Axis}
    {axis : Lane → Lane → Int64 → Checked Axis} (h : FoldsTo ctx op a b axis axes) {shape : Shape}
    (ha : a.WellFormed shape)
    (haxis : ∀ (l r : Lane) (size : Int64) (x : Axis) (extent : Nat) (c : Option Int64),
      l.toAxis.WellFormed extent c → axis l r size = .ok x → x.WellFormed extent none)
    {d : Nat} {x : Axis} (hx : axes[d]? = some x) :
    x.WellFormed (shape.getD d 1) (op.fold a.constant b.constant) := by
  obtain ⟨l, r, size, hl, _, _, hfolded⟩ := h d x hx
  have hlane := ha.lane hl
  cases hfold : op.fold a.constant b.constant with
  | some q =>
    rw [hfold] at hfolded
    subst hfolded
    exact Axis.wellFormed_constant q (Axis.constancy_cuts hlane.run)
  | none =>
    rw [hfold] at hfolded
    exact haxis l r size x _ _ hlane hfolded

/-! ### Answers -/

section Answers

variable {ctx : Context} {types : ValueId → Option ValueType}

/-- The extents of a result fit words. -/
structure Context.Measured (types : ValueId → Option ValueType) (ctx : Context) : Prop where
  typed : ctx.Typed types
  fit : ∀ extent ∈ ctx.type.shape, extent < 2 ^ 63

theorem Context.Measured.cuts (h : ctx.Measured types) {d : Nat} {extent : Int64}
    (hd : ctx.shape[d]? = some extent) : Word.Cuts extent (ctx.type.shape.getD d 1) := by
  obtain ⟨heq, hpos⟩ := ValueType.extent_of_factShape h.fit h.typed.extents hd
  exact ⟨hpos, heq ▸ dvd_rfl⟩

theorem Context.Measured.ofConstant (h : ctx.Measured types) (value : Int64) {d : Nat} {a : Axis}
    (ha : (Fact.ofConstant value ctx.shape).axes[d]? = some a) :
    a.WellFormed (ctx.type.shape.getD d 1) (some value) := by
  obtain ⟨extent, hextent, rfl⟩ := Option.map_eq_some_iff.mp (List.getElem?_map .. ▸ ha)
  exact Axis.wellFormed_constant value (h.cuts hextent)

/-- The one dimension of a range is one run. -/
theorem Context.Measured.range (h : ctx.Measured types) {start stop count : Int64}
    (hop : ctx.op = .range start stop) (hcount : Word.checkedSub stop start = .ok count) {d : Nat}
    {a : Axis} (ha : [(⟨Word.powerDivisor start, count, 1⟩ : Axis)][d]? = some a) :
    a.WellFormed (ctx.type.shape.getD d 1) none := by
  obtain ⟨horder, hshape⟩ := h.typed.range hop hcount
  cases d with
  | succ d => simp at ha
  | zero =>
    cases ha
    have hpos : 0 < count.toInt := by
      have := Word.toInt_of_checkedSub hcount
      have := Int64.lt_iff_toInt_lt.mp horder
      omega
    refine Axis.wellFormed_of_none (Word.isPower_powerDivisor start) ⟨hpos, ?_⟩
    show count.toInt ∣ (ctx.type.shape.getD 0 1 : Nat)
    rw [hshape]
    exact dvd_of_eq (Int.toNat_of_nonneg hpos.le).symm

/-- A new dimension of extent one, between dimensions that keep what is known of them. -/
theorem Fact.WellFormed.insert {a : Fact} {shape : Shape} (h : a.WellFormed shape)
    (hshape : shape ≠ []) {n : Nat} (hn : n ≤ shape.length) {d : Nat} {axis : Axis}
    (haxis : (a.axes.insertIdx n ⟨1, 1, 0⟩)[d]? = some axis) :
    axis.WellFormed ((shape.insertIdx n 1).getD d 1) a.constant := by
  have hlen : a.axes.length = shape.length := by
    have : a.axes.length = max shape.length 1 := h.rank
    have := List.length_pos_iff.mpr hshape
    omega
  rw [List.getD_eq_getElem?_getD]
  rcases Nat.lt_trichotomy d n with hd | rfl | hd
  · rw [List.getElem?_insertIdx_of_lt hd] at haxis ⊢
    exact List.getD_eq_getElem?_getD .. ▸ h.axes d axis haxis
  · rw [List.getElem?_insertIdx_self, if_pos (hlen ▸ hn)] at haxis
    cases haxis
    exact Axis.wellFormed_unit _ _ (.inl rfl)
  · rw [List.getElem?_insertIdx_of_gt hd] at haxis ⊢
    exact List.getD_eq_getElem?_getD .. ▸ h.axes (d - 1) axis haxis

/-- A dimension of extent one is spread, any other is kept. -/
theorem Fact.WellFormed.stretch {a : Fact} {source target : Shape} (h : a.WellFormed source)
    {d e : Nat} (he : source[d]? = some e)
    (hstretch : source.getD d 1 = target.getD d 1 ∨ source.getD d 1 = 1) {extent : Int64}
    (hextent : Word.Cuts extent (target.getD d 1)) {x : Axis} (hx : a.axes[d]? = some x) :
    (if Int64.ofNat e = 1 then ⟨x.divisibility, extent, 0⟩ else x : Axis).WellFormed
      (target.getD d 1) a.constant := by
  have hx' := h.axes d x hx
  split
  · exact hx'.spread hextent
  · next hne =>
    have hsame : source.getD d 1 = target.getD d 1 := by
      refine hstretch.resolve_right fun hone => hne ?_
      rw [List.getD_eq_getElem?_getD, he] at hone
      have : e = 1 := hone
      rw [this]
      rfl
    exact hsame ▸ hx'

/-- The standard rules answer well-formed facts with well-formed ones. -/
theorem Answer.wellFormed {facts : List Fact} {f : Fact} (h : Answer ctx facts f)
    (hctx : ctx.Measured types)
    (hfacts : List.Forall₂ (fun f t => Fact.WellFormed f t.shape) facts ctx.operandTypes)
    (hrank : f.rank = ctx.rank) : f.WellFormed ctx.type.shape := by
  cases h with
  | unknown => exact Fact.wellFormed_top _
  | constant | noRemainder | compared => exact ⟨hrank, fun _ _ => hctx.ofConstant _⟩
  | range hop hcount => exact ⟨hrank, fun _ _ => hctx.range hop hcount⟩
  | identity hop =>
    obtain ⟨s, htypes, hs⟩ := hctx.typed.cast hop
    rw [htypes] at hfacts
    rcases hfacts with _ | ⟨ha, _⟩
    exact hs ▸ ha
  | policy hop hpolicy haxes =>
    obtain ⟨s, t, htypes, hs, ht⟩ := hctx.typed.binary hop
    rw [htypes] at hfacts
    rcases hfacts with _ | ⟨ha, _ | ⟨hb, _⟩⟩
    refine ⟨hrank, fun d axis haxis => ?_⟩
    obtain ⟨l, r, hl, hr, haxis⟩ := haxes d axis haxis
    exact hpolicy.wellFormed (hs ▸ ha.lane hl) (ht ▸ hb.lane hr) haxis
  | dividend hop | extremumLeft hop =>
    obtain ⟨s, t, htypes, hs, _⟩ := hctx.typed.binary hop
    rw [htypes] at hfacts
    rcases hfacts with _ | ⟨ha, _⟩
    exact hs ▸ ha
  | extremumRight hop =>
    obtain ⟨s, t, htypes, _, ht⟩ := hctx.typed.binary hop
    rw [htypes] at hfacts
    rcases hfacts with _ | ⟨_, _ | ⟨hb, _⟩⟩
    exact ht ▸ hb
  | quotient hop _ haxes =>
    obtain ⟨s, t, htypes, hs, _⟩ := hctx.typed.binary hop
    rw [htypes] at hfacts
    rcases hfacts with _ | ⟨ha, _⟩
    refine ⟨hrank, fun d axis haxis => hs ▸ haxes.wellFormed ha ?_ haxis⟩
    exact fun l r size x extent c hl hx => Rule.quotientAxis_wellFormed size hl hx
  | remainder hop _ haxes =>
    obtain ⟨s, t, htypes, hs, _⟩ := hctx.typed.binary hop
    rw [htypes] at hfacts
    rcases hfacts with _ | ⟨ha, _⟩
    refine ⟨hrank, fun d axis haxis => hs ▸ haxes.wellFormed ha ?_ haxis⟩
    intro l r size x extent c hl hx
    cases hx
    exact Rule.remainderAxis_wellFormed size hl
  | folded =>
    refine ⟨hrank, fun d axis haxis => ?_⟩
    rw [(List.mem_replicate.mp (List.mem_of_getElem? haxis)).2]
    exact Axis.wellFormed_top _ _
  | comparison hop haxes =>
    obtain ⟨s, t, htypes, hs, ht⟩ := hctx.typed.comparison hop
    rw [htypes] at hfacts
    rcases hfacts with _ | ⟨ha, _ | ⟨hb, _⟩⟩
    refine ⟨hrank, fun d axis haxis => ?_⟩
    obtain ⟨l, r, extent, hl, hr, _, rfl⟩ := haxes d axis haxis
    refine Axis.wellFormed_of_none Word.isPower_one ?_
    show Word.Cuts (if _ then Rule.strictRun l r extent else 1) _
    split
    · exact Rule.strictRun_cuts extent (hs ▸ ha.axes d l hl).run (ht ▸ hb.axes d r hr).run
    · exact Word.cuts_one _
  | decided hop =>
    obtain ⟨c, s, t, htypes, _, hs, ht⟩ := hctx.typed.select hop
    rw [htypes] at hfacts
    rcases hfacts with _ | ⟨_, _ | ⟨ha, _ | ⟨hb, _⟩⟩⟩
    split
    · exact hs ▸ ha
    · exact ht ▸ hb
  | choice hop hjoin _ haxes =>
    obtain ⟨c, s, t, htypes, _, hs, _⟩ := hctx.typed.select hop
    rw [htypes] at hfacts
    rcases hfacts with _ | ⟨_, _ | ⟨ha, _⟩⟩
    refine ⟨hrank, fun d axis haxis => ?_⟩
    obtain ⟨both, run, hboth, rfl, _⟩ := haxes d axis haxis
    have hjoined := (Fact.wellFormed_inherited _).left hjoin (hs ▸ ha)
    exact (hjoined.axes d both hboth).shorten run
  | splat hop haxes =>
    obtain ⟨s, htypes, _⟩ := hctx.typed.splat hop
    rw [htypes] at hfacts
    rcases hfacts with _ | ⟨ha, _⟩
    refine ⟨hrank, fun d axis haxis => ?_⟩
    obtain ⟨extent, source, hextent, hsource, rfl⟩ := haxes d axis haxis
    exact (ha.axes 0 source hsource).spread (hctx.cuts hextent)
  | broadcastScalar hop _ _ haxes =>
    obtain ⟨s, htypes, _⟩ := hctx.typed.broadcast hop
    rw [htypes] at hfacts
    rcases hfacts with _ | ⟨ha, _⟩
    refine ⟨hrank, fun d axis haxis => ?_⟩
    obtain ⟨extent, source, hextent, hsource, rfl⟩ := haxes d axis haxis
    exact (ha.axes 0 source hsource).spread (hctx.cuts hextent)
  | broadcast hop hs htensor haxes =>
    obtain ⟨s, htypes, hstretch⟩ := hctx.typed.broadcast hop
    rw [htypes] at hfacts hs
    cases hs
    rcases hfacts with _ | ⟨ha, _⟩
    refine ⟨hrank, fun d axis haxis => ?_⟩
    obtain ⟨extent, e, source, hextent, he, hsource, rfl⟩ := haxes d axis haxis
    exact ha.stretch he ((hstretch.resolve_left htensor).2 d) (hctx.cuts hextent) hsource
  | expandScalar hop hs hscalar =>
    obtain ⟨s, htypes, hn, hshape⟩ := hctx.typed.expandDims hop
    rw [htypes] at hfacts hs
    cases hs
    rcases hfacts with _ | ⟨ha, _⟩
    rw [hscalar] at ha hn hshape
    rw [Nat.le_zero.mp hn] at hshape
    rw [hshape]
    refine ⟨ha.rank, fun d axis haxis => ?_⟩
    have hone : (([] : Shape).insertIdx 0 1).getD d 1 = ([] : Shape).getD d 1 := by
      cases d <;> rfl
    rw [hone]
    exact ha.axes d axis haxis
  | expandDims hop hs htensor =>
    obtain ⟨s, htypes, hn, hshape⟩ := hctx.typed.expandDims hop
    rw [htypes] at hfacts hs
    cases hs
    rcases hfacts with _ | ⟨ha, _⟩
    rw [hshape]
    refine ⟨hshape ▸ hrank, fun d axis haxis => ha.insert htensor hn haxis⟩

end Answers

/-! ### Inferences -/

namespace Inference

variable {g : Graph} {settings : Settings} {users : List (List ValueId)}

/-- What is worked out from well-formed facts is well formed. -/
theorem evaluate_wellFormed (hg : g.WellTyped) (hfit : g.ExtentsFit)
    {fact : ValueId → Checked (Option Fact)}
    (hfact : ∀ u < g.size, ∀ f, fact u = .ok (some f) →
      Fits g u f ∧ ∃ t, g.typeOf? u = some t ∧ f.WellFormed t.shape)
    {v : ValueId} {node : Node} (hnode : g.nodes[v]? = some node) {f : Fact}
    (hf : evaluate g .standard fact v = .ok (some f)) : f.WellFormed node.type.shape := by
  have hoperand : ∀ u ∈ node.op.operands, ∀ k, fact u = .ok (some k) →
      Fits g u k ∧ ∃ t, g.typeOf? u = some t ∧ k.WellFormed t.shape := fun u hu =>
    hfact u (hg.lt_size_of_uses ⟨node, hnode, hu⟩)
  cases evaluated_of_eq_ok hnode hf with
  | merged hop hknown _ hfound =>
    obtain ⟨k, hk⟩ := exists_of_mergeFact hfound
    obtain ⟨u, hu, huk⟩ := exists_of_forall₂ hknown.flip hk
    obtain ⟨_, t, ht, hwf⟩ := hoperand u hu k huk
    have hshape : g.typeOf? u = some node.type := hg.typeOf?_of_merge hnode hop hu
    rw [hshape] at ht
    cases ht
    obtain ⟨j, hj, hwf⟩ := (Fact.wellFormed_inherited _).mergeFact hfound hk hwf
    cases hj
    exact hwf
  | @answered facts ctx _ hop hfacts hctx htransfer =>
    obtain ⟨ctx', hctx', hctxop, hctxtype, htyped⟩ := hg.context hnode
    rw [hctx] at hctx'
    cases hctx'
    have hall := (List.forall₂_and_left _ _).mpr ⟨hoperand, hfacts⟩
    have hranked : ctx.Ranked facts := ranked_of_operands htyped hctxop
      (hall.imp fun u k h => (h.1 k h.2).1)
    obtain ⟨f', hf', hanswer⟩ := Rulebook.standard_answers htyped hranked
    rw [htransfer] at hf'
    cases hf'
    rw [← hctxtype]
    refine hanswer.wellFormed ⟨htyped, ?_⟩ ?_ (Rulebook.rank_of_transfer htransfer)
    · rw [hctxtype]
      exact hfit node (List.mem_of_getElem? hnode)
    · refine forall₂_of_common (hctxop ▸ hall) htyped.forall₂_types ?_
      rintro u k t ⟨hu, huk⟩ ht
      obtain ⟨_, s, hs, hwf⟩ := hu k huk
      rw [ht] at hs
      cases hs
      exact hwf

theorem equations_wellFormed (hg : g.WellTyped) (hfit : g.ExtentsFit) (settings : Settings)
    (husers : users.length = g.size) : (equations g .standard settings users).Total g.size
      fun v f => Fits g v f ∧ ∃ t, g.typeOf? v = some t ∧ f.WellFormed t.shape := by
  refine (equations_total hg (Rulebook.standard_reliable hg) settings husers).and ?_ ?_
  · intro fact hfact v hv f hf
    have hnode : g.nodes[v]? = some g.nodes[v] := List.getElem?_eq_getElem hv
    exact ⟨_, by rw [Graph.typeOf?, hnode]; rfl, evaluate_wellFormed hg hfit hfact hnode hf⟩
  · rintro v t f htop ⟨s, hs, _⟩
    obtain ⟨node, hnode, rfl⟩ := Option.map_eq_some_iff.mp hs
    rw [top_eq_ok .standard settings users hnode] at htop
    cases htop
    exact ⟨_, hs, Fact.wellFormed_top _⟩

/-- Whatever graph is built, as long as its extents fit words, and however often a value may be
looked at: the inference ends, and every fact it ends with is well formed. Along each dimension the
divisor is a power of two from `1` to `2 ^ 62`, the run is at least one and divides the extent, and
a constant is a multiple of the divisor and leaves a step of zero or none. -/
theorem facts_wellFormed (hg : g.Built) (hfit : g.ExtentsFit) (settings : Settings) :
    ∃ inference, (run g .standard settings).2 = .ok inference ∧
      ∀ v f, inference.lookup v = some f → ∃ t, g.typeOf? v = some t ∧ f.WellFormed t.shape := by
  obtain ⟨users, final, htrace⟩ :=
    exists_trace hg.wellTyped (Rulebook.standard_reliable hg.wellTyped) settings
  refine ⟨_, htrace.result, fun v f hf => ?_⟩
  exact (htrace.good (equations_wellFormed hg.wellTyped hfit settings htrace.length) hf).2

end Inference

/-- Sixteen indices in buckets of four, which a loop shifts up, laid out in eight rows. -/
def Graph.buckets : Graph :=
  ⟨[⟨.range 0 16, ⟨.i32, [16]⟩⟩, ⟨.const 4, ⟨.i32, [16]⟩⟩, ⟨.binary .divU 0 1, ⟨.i32, [16]⟩⟩,
    ⟨.merge [2, 4], ⟨.i32, [16]⟩⟩, ⟨.binary .shl 3 1, ⟨.i32, [16]⟩⟩,
    ⟨.expandDims 4 0, ⟨.i32, [1, 16]⟩⟩, ⟨.broadcast 5, ⟨.i32, [8, 16]⟩⟩]⟩

theorem Graph.buckets_built : Graph.buckets.Built :=
  .of_requests [.define (.range 0 16), .define (.const 4 ⟨.i32, [16]⟩),
    .define (.binary .divU 0 1), .define (.merge 2), .define (.binary .shl 3 1),
    .addMergeInput 3 4, .define (.expandDims 4 0), .define (.broadcast 5 [8, 16])] .empty
    (by decide)

theorem Inference.facts_wellFormed_buckets : Graph.buckets.Built ∧ Graph.buckets.ExtentsFit ∧
    ∃ inference, (Inference.run .buckets .standard .standard).2 = .ok inference ∧
      inference.lookup 1 = some ⟨[⟨4, 16, 0⟩], some 4⟩ ∧
      Fact.WellFormed ⟨[⟨4, 16, 0⟩], some 4⟩ [16] ∧
      inference.lookup 6 = some ⟨[⟨1, 8, 0⟩, ⟨16, 4, 0⟩], none⟩ ∧
      Fact.WellFormed ⟨[⟨1, 8, 0⟩, ⟨16, 4, 0⟩], none⟩ [8, 16] := by
  have hfit : Graph.buckets.ExtentsFit := by decide
  obtain ⟨inference, hrun, hall⟩ :=
    Inference.facts_wellFormed Graph.buckets_built hfit .standard
  have hfour : inference.lookup 1 = some ⟨[⟨4, 16, 0⟩], some 4⟩ :=
    Inference.lookup_of_run hrun (by decide +kernel)
  have hrows : inference.lookup 6 = some ⟨[⟨1, 8, 0⟩, ⟨16, 4, 0⟩], none⟩ :=
    Inference.lookup_of_run hrun (by decide +kernel)
  refine ⟨Graph.buckets_built, hfit, inference, hrun, hfour, ?_, hrows, ?_⟩
  · obtain ⟨t, ht, hwf⟩ := hall 1 _ hfour
    cases ht
    exact hwf
  · obtain ⟨t, ht, hwf⟩ := hall 6 _ hrows
    cases ht
    exact hwf

end TileFacts
