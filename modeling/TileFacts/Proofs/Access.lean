import TileFacts.Proofs.WellFormed
import TileFacts.Access

/-! Access patterns that can always be told.

A pattern is told from the last dimension of an offset: the divisor there is divided by the length
of a block, and that is the one step that could fault. It does not, since every divisor that is
inferred is a tracked power of two, whatever the extents (`Inference.get_powers`), and no extent
that fits 64 bits is zero as a word (`AccessPattern.exists_classify`). -/
namespace TileFacts

/-- All divisors of a fact are tracked powers of two. -/
def Fact.Powers (f : Fact) : Prop := ∀ a ∈ f.axes, Word.IsPower a.divisibility

namespace Fact.Powers

theorem top (rank : Nat) : (Fact.top rank).Powers := by
  intro a ha
  rw [(List.mem_replicate.mp ha).2]
  exact Word.isPower_one

theorem ofConstant (value : Int64) (shape : List Int64) : (Fact.ofConstant value shape).Powers := by
  intro a ha
  obtain ⟨_, _, rfl⟩ := List.mem_map.mp ha
  exact Word.isPower_powerDivisor value

theorem of_axes {axes : List Axis} {constant : Option Int64}
    (h : ∀ (d : Nat) (axis : Axis), axes[d]? = some axis → Word.IsPower axis.divisibility) :
    (⟨axes, constant⟩ : Fact).Powers := by
  intro a ha
  obtain ⟨d, hd⟩ := List.getElem?_of_mem ha
  exact h d a hd

variable {f : Fact}

theorem axis (h : f.Powers) {d : Nat} {a : Axis} (ha : f.axes[d]? = some a) :
    Word.IsPower a.divisibility :=
  h a (List.mem_of_getElem? ha)

theorem lane (h : f.Powers) {d : Nat} {l : Lane} (hl : f.lane d = .ok l) :
    Word.IsPower l.divisibility :=
  h.axis (Fact.lane_eq_ok.mp hl).1

theorem inherited : Fact.Inherited Fact.Powers := by
  constructor
  · intro a b c hc h
    refine of_axes fun d x hx => ?_
    obtain ⟨l, r, hl, _, rfl⟩ := Fact.axis_of_join hc hx
    exact (h.axis hl).gcd _
  · intro a b c hc h
    refine of_axes fun d x hx => ?_
    obtain ⟨l, r, _, hr, rfl⟩ := Fact.axis_of_join hc hx
    rw [Axis.join_comm]
    exact (h.axis hr).gcd _

end Fact.Powers

/-! ### Answers -/

theorem Rule.remainderAxis_power {l r : Lane} (size : Int64) (hl : Word.IsPower l.divisibility) :
    Word.IsPower (remainderAxis l r size).divisibility := by
  unfold remainderAxis
  split
  · exact hl.gcd _
  · exact Word.isPower_one

/-- Axes of quotients and remainders have powers of two for divisors if the axes of what constants
do not fold to do. -/
theorem Rule.FoldsTo.powers {ctx : Context} {op : BinaryOp} {a b : Fact} {axes : List Axis}
    {axis : Lane → Lane → Int64 → Checked Axis} (h : FoldsTo ctx op a b axis axes)
    (haxis : ∀ d l r extent x, a.lane d = .ok l → axis l r extent = .ok x →
      Word.IsPower x.divisibility) (constant : Option Int64) : Fact.Powers ⟨axes, constant⟩ := by
  refine .of_axes fun d x hx => ?_
  obtain ⟨l, r, extent, hl, _, _, hfolded⟩ := h d x hx
  split at hfolded
  · subst hfolded
    exact Word.isPower_powerDivisor _
  · exact haxis d l r extent x hl hfolded

theorem Policy.Serves.axis_power {policy : Policy} {op : BinaryOp} (h : policy.Serves op)
    {l r : Lane} (hl : Word.IsPower l.divisibility) (hr : Word.IsPower r.divisibility)
    {constant : Option Int64} {axis : Axis} (haxis : policy.axis op l r constant = .ok axis) :
    Word.IsPower axis.divisibility := by
  cases constant with
  | some value =>
    cases haxis
    exact Word.isPower_powerDivisor value
  | none =>
    obtain ⟨m, _, hm, _, rfl⟩ := Policy.axis_none_eq_ok.mp haxis
    exact h.power hl hr hm

/-- The standard rules answer tracked powers of two with tracked powers of two. -/
theorem Answer.powers {ctx : Context} {facts : List Fact} {f : Fact} (h : Answer ctx facts f)
    (hfacts : ∀ f ∈ facts, f.Powers) : f.Powers := by
  cases h with
  | unknown => exact .top _
  | constant | noRemainder | compared => exact .ofConstant _ _
  | identity | dividend | extremumLeft | expandScalar => exact hfacts _ (List.mem_cons_self ..)
  | extremumRight => exact hfacts _ (by simp)
  | policy _ hpolicy haxes =>
    refine .of_axes fun d axis haxis => ?_
    obtain ⟨l, r, hl, hr, haxis⟩ := haxes d axis haxis
    exact hpolicy.axis_power ((hfacts _ (by simp)).lane hl) ((hfacts _ (by simp)).lane hr) haxis
  | quotient _ _ haxes =>
    refine haxes.powers (fun d l r extent x hl hx => ?_) _
    exact Rule.quotientAxis_power ((hfacts _ (by simp)).lane hl) hx
  | remainder _ _ haxes =>
    refine haxes.powers (fun d l r extent x hl hx => ?_) _
    cases hx
    exact Rule.remainderAxis_power extent ((hfacts _ (by simp)).lane hl)
  | folded => exact .top _
  | comparison _ haxes =>
    refine .of_axes fun d axis haxis => ?_
    obtain ⟨_, _, _, _, _, _, rfl⟩ := haxes d axis haxis
    exact Word.isPower_one
  | decided =>
    split
    · exact hfacts _ (by simp)
    · exact hfacts _ (by simp)
  | choice _ hjoin _ haxes =>
    refine .of_axes fun d axis haxis => ?_
    obtain ⟨both, _, hboth, rfl, _⟩ := haxes d axis haxis
    have hjoined := Fact.Powers.inherited.left hjoin (hfacts _ (by simp))
    exact hjoined both (List.mem_of_getElem? hboth)
  | range =>
    intro a ha
    rw [List.mem_singleton.mp ha]
    exact Word.isPower_powerDivisor _
  | splat _ haxes | broadcastScalar _ _ _ haxes =>
    refine .of_axes fun d axis haxis => ?_
    obtain ⟨_, source, _, hsource, rfl⟩ := haxes d axis haxis
    exact hfacts _ (List.mem_cons_self ..) source (List.mem_of_getElem? hsource)
  | broadcast _ _ _ haxes =>
    refine .of_axes fun d axis haxis => ?_
    obtain ⟨_, _, source, _, _, hsource, rfl⟩ := haxes d axis haxis
    have hpower := (hfacts _ (List.mem_cons_self ..)).axis hsource
    split
    · exact hpower
    · exact hpower
  | expandDims =>
    intro a ha
    rcases List.eq_or_mem_of_mem_insertIdx ha with rfl | ha
    · exact Word.isPower_one
    · exact hfacts _ (List.mem_cons_self ..) a ha

/-! ### Inferences -/

namespace Inference

variable {g : Graph} {settings : Settings} {users : List (List ValueId)}

theorem evaluate_powers (hg : g.WellTyped) {fact : ValueId → Checked (Option Fact)}
    (hfact : ∀ u < g.size, ∀ f, fact u = .ok (some f) → Fits g u f ∧ f.Powers)
    {v : ValueId} {node : Node} (hnode : g.nodes[v]? = some node) {f : Fact}
    (hf : evaluate g .standard fact v = .ok (some f)) : f.Powers := by
  have hoperand : ∀ u ∈ node.op.operands, ∀ k, fact u = .ok (some k) → Fits g u k ∧ k.Powers :=
    fun u hu => hfact u (hg.lt_size_of_uses ⟨node, hnode, hu⟩)
  cases evaluated_of_eq_ok hnode hf with
  | merged hop hknown _ hfound =>
    obtain ⟨k, hk⟩ := exists_of_mergeFact hfound
    obtain ⟨u, hu, huk⟩ := exists_of_forall₂ hknown.flip hk
    obtain ⟨j, hj, hpowers⟩ := Fact.Powers.inherited.mergeFact hfound hk (hoperand u hu k huk).2
    cases hj
    exact hpowers
  | @answered facts ctx _ hop hfacts hctx htransfer =>
    obtain ⟨ctx', hctx', hctxop, _, htyped⟩ := hg.context hnode
    rw [hctx] at hctx'
    cases hctx'
    have hall := (List.forall₂_and_left _ _).mpr ⟨hoperand, hfacts⟩
    have hranked : ctx.Ranked facts := ranked_of_operands htyped hctxop
      (hall.imp fun u k h => (h.1 k h.2).1)
    obtain ⟨f', hf', hanswer⟩ := Rulebook.standard_answers htyped hranked
    rw [htransfer] at hf'
    cases hf'
    refine hanswer.powers fun k hk => ?_
    obtain ⟨u, _, hu⟩ := exists_of_forall₂ hall.flip hk
    exact (hu.1 k hu.2).2

theorem equations_powers (hg : g.WellTyped) (settings : Settings) (husers : users.length = g.size) :
    (equations g .standard settings users).Total g.size fun v f => Fits g v f ∧ f.Powers := by
  refine (equations_total hg (Rulebook.standard_reliable hg) settings husers).and ?_ ?_
  · intro fact hfact v hv f hf
    exact evaluate_powers hg hfact (List.getElem?_eq_getElem hv) hf
  · intro v t f htop _
    obtain ⟨type, _, htop⟩ := bind_eq_ok.mp htop
    cases htop
    exact .top _

/-- Something can be told of every value of the graph, with divisors that are tracked powers of
two. -/
theorem get_powers (hg : g.WellTyped) {inference : Inference}
    (hrun : (run g .standard settings).2 = .ok inference) {v : ValueId} {t : ValueType}
    (hv : g.typeOf? v = some t) :
    ∃ f, inference.get v = .ok f ∧ f.rank = t.factRank ∧ f.Powers := by
  obtain ⟨users, final, htrace⟩ := exists_trace hg (Rulebook.standard_reliable hg) settings
  rw [htrace.result] at hrun
  cases hrun
  unfold get
  cases hlookup : (ofWorklist g final).lookup v with
  | some f =>
    obtain ⟨⟨t', ht', hrank⟩, hpowers⟩ :=
      htrace.good (equations_powers hg settings htrace.length) hlookup
    rw [hv] at ht'
    cases ht'
    exact ⟨f, rfl, hrank, hpowers⟩
  | none =>
    obtain ⟨node, hnode, rfl⟩ := Option.map_eq_some_iff.mp hv
    have hranks : element (ofWorklist g final).ranks v = .ok node.type.factRank := by
      rw [element_eq_ok]
      simp [ofWorklist, hnode]
    refine ⟨.top node.type.factRank, ?_, Fact.rank_top _, .top _⟩
    simp only [hranks]
    rfl

end Inference

/-! ### Patterns -/

/-- A positive word has a remainder by every word but zero. -/
theorem Word.exists_checkedRem {a b : Int64} (ha : 0 < a.toInt) (hb : b ≠ 0) :
    ∃ rest, checkedRem a b = .ok rest := by
  have hmin : a ≠ Int64.minValue := by
    rintro rfl
    exact absurd ha (by decide)
  exact ⟨a % b, by simp [checkedRem, divOverflows, hb, hmin]⟩

namespace AccessPattern

theorem exists_ofAxis {a : Axis} {extent : Int64} (ha : 0 < a.divisibility.toInt)
    (hextent : extent ≠ 0) : ∃ pattern, ofAxis a extent = .ok pattern := by
  unfold ofAxis
  split
  · exact ⟨_, rfl⟩
  · split
    · next hblock =>
      have hwidth : min a.contiguity extent ≠ 0 := by
        rcases Word.min_cases a.contiguity extent with hmin | ⟨hmin, _⟩
        · rw [hmin]
          rintro hzero
          rw [hzero] at hblock
          exact absurd hblock (by decide)
        · rw [hmin]
          exact hextent
      obtain ⟨rest, hrest⟩ := Word.exists_checkedRem ha hwidth
      exact ⟨_, bind_eq_ok.mpr ⟨rest, hrest, rfl⟩⟩
    · split
      · exact ⟨_, rfl⟩
      · exact ⟨_, rfl⟩

/-- A pattern is read off the last dimension. -/
theorem classify_eq_ok {f : Fact} {t : ValueType} {pattern : AccessPattern} :
    classify f t = .ok pattern ↔ ∃ a extent, f.axes[t.factRank - 1]? = some a ∧
      t.factShape[t.factRank - 1]? = some extent ∧ ofAxis a extent = .ok pattern := by
  rw [← t.length_factShape]
  constructor
  · intro h
    obtain ⟨extent, hextent, h⟩ := bind_eq_ok.mp h
    obtain ⟨a, ha, h⟩ := bind_eq_ok.mp h
    exact ⟨a, extent, Fact.axis_eq_ok.mp ha, element_eq_ok.mp hextent, h⟩
  · rintro ⟨a, extent, ha, hextent, h⟩
    exact bind_eq_ok.mpr ⟨extent, element_eq_ok.mpr hextent,
      bind_eq_ok.mpr ⟨a, Fact.axis_eq_ok.mpr ha, h⟩⟩

/-- A pattern can be told of every type whose extents fit 64 bits. -/
theorem exists_classify {f : Fact} {t : ValueType} (hrank : f.rank = t.factRank)
    (hf : ∀ a ∈ f.axes, 0 < a.divisibility.toInt) (hzero : 0 ∉ t.shape)
    (hfits : ∀ extent ∈ t.shape, extent < UInt64.size) : ∃ pattern, classify f t = .ok pattern := by
  have hlast : t.factRank - 1 < t.factRank := by
    rw [ValueType.factRank]
    omega
  have hlt : t.factRank - 1 < t.factShape.length := by
    rw [t.length_factShape]
    exact hlast
  have hlastf : t.factRank - 1 < f.rank := by
    rw [hrank]
    exact hlast
  obtain ⟨a, ha⟩ := Fact.exists_axis hlastf
  have hextent := ValueType.ne_zero_of_mem_factShape hzero hfits (List.getElem_mem hlt)
  obtain ⟨pattern, hpattern⟩ := exists_ofAxis (hf a (List.mem_of_getElem? ha)) hextent
  exact ⟨pattern, classify_eq_ok.mpr ⟨a, _, ha, List.getElem?_eq_getElem hlt, hpattern⟩⟩

end AccessPattern

end TileFacts
