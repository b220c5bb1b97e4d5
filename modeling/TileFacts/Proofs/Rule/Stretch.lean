import TileFacts.Proofs.Rule.Context

/-! Values laid out over longer shapes.

A broadcast repeats a value along its dimensions of extent one, and a splat repeats a scalar along
every dimension. What either rule answers depends on the two shapes only (`Fact.stretch`), and along
one dimension only on the two extents (`Axis.stretch`). -/
namespace TileFacts

/-- The axis of a value that is repeated along a dimension of extent one. Along any other the value
stays as it is. -/
def Axis.stretch (a : Axis) (source target : Int64) : Axis :=
  if source = 1 then ⟨a.divisibility, target, 0⟩ else a

namespace Fact

/-- The axis that dimension `d` of a stretched value comes from: a scalar has only one. -/
def sourceAxis (f : Fact) (source : Shape) (d : Nat) : Axis :=
  f.axes.getD (if source.isEmpty then 0 else d) Axis.top

/-- The fact of a value that is laid out over another shape. -/
def stretch (f : Fact) (source target : Shape) : Fact where
  axes := (List.range (max target.length 1)).map fun d =>
    (f.sourceAxis source d).stretch (Int64.ofNat (source.getD d 1)) (Int64.ofNat (target.getD d 1))
  constant := f.constant

theorem rank_stretch (f : Fact) (source target : Shape) :
    (f.stretch source target).rank = max target.length 1 := by
  simp [rank, stretch]

end Fact

/-! ### Dimensions of the result -/

theorem ValueType.factShape_getElem? {t : ValueType} {d : Nat} {extent : Int64}
    (h : t.factShape[d]? = some extent) : extent = Int64.ofNat (t.shape.getD d 1) := by
  obtain ⟨element, shape⟩ := t
  cases shape with
  | nil =>
    cases d with
    | zero => exact (Option.some.inj h).symm
    | succ d => cases h
  | cons e es =>
    obtain ⟨x, hx, rfl⟩ := Option.map_eq_some_iff.mp ((List.getElem?_map ..).symm.trans h)
    simp [List.getD, hx]

/-- Axes that each dimension determines. -/
theorem Context.axes_eq_map {ctx : Context} {axis : Nat → Int64 → Checked Axis} {f : Nat → Axis}
    (h : ∀ d < ctx.rank, axis d (Int64.ofNat (ctx.type.shape.getD d 1)) = .ok (f d)) :
    ctx.axes axis = .ok ((List.range ctx.rank).map f) := by
  have hrange : (List.range ctx.rank).map f = ctx.shape.zipIdx.map fun p => f p.2 := by
    rw [← ctx.length_shape, List.range_eq_range', ← List.zipIdx_map_snd, List.map_map]
    rfl
  rw [hrange]
  apply mapM_eq_ok.mpr
  rw [List.forall₂_map_right_iff, List.forall₂_same]
  rintro ⟨extent, d⟩ hmem
  have hd : ctx.shape[d]? = some extent := List.mem_zipIdx_iff_getElem?.mp hmem
  rw [ValueType.factShape_getElem? hd]
  exact h d (Context.lt_rank_of_shape hd)

theorem element_getD {α : Type} {xs : List α} {i : Nat} (h : i < xs.length) (x : α) :
    element xs i = .ok (xs.getD i x) :=
  element_eq_ok.mpr (by simp [h])

section Source

variable {s : ValueType} {d : Nat} (hd : s.shape = [] ∨ d < s.rank)
include hd

theorem ValueType.extent_source :
    s.extent (if s.isScalar then 0 else d) = .ok (Int64.ofNat (s.shape.getD d 1)) := by
  by_cases hs : s.shape = []
  · simp [extent, isScalar, hs]
  · have hscalar : s.isScalar = false := by simpa [isScalar] using hs
    have hlt : d < s.shape.length := hd.resolve_left hs
    simp only [extent, hscalar, Bool.false_eq_true, if_false, element_getD hlt 1]
    rfl

theorem Fact.axis_source {f : Fact} (hf : f.rank = s.factRank) :
    f.axis (if s.isScalar then 0 else d) = .ok (f.sourceAxis s.shape d) := by
  apply element_getD
  show _ < f.rank
  rw [hf, ValueType.factRank]
  split
  · exact Nat.lt_of_lt_of_le Nat.zero_lt_one (Nat.le_max_right ..)
  · next hs =>
    have hs : s.shape ≠ [] := by simpa [ValueType.isScalar] using hs
    exact Nat.lt_of_lt_of_le (hd.resolve_left hs) (Nat.le_max_left ..)

end Source

/-- A dimension of the result is one of a tensor of the same rank. -/
theorem ValueType.lt_rank_of_context {ctx : Context} {s : ValueType} {d : Nat}
    (hshape : s.shape = [] ∨ s.rank = ctx.type.rank) (hd : d < ctx.rank) :
    s.shape = [] ∨ d < s.rank := by
  by_cases hs : s.shape = []
  · exact .inl hs
  · have hrank := hshape.resolve_left hs
    have hpos : 0 < s.rank := List.length_pos_iff.mpr hs
    have hd : d < max ctx.type.rank 1 := hd
    exact .inr (by omega)

/-- A dimension of the stretched value has the extent of the result. -/
theorem Fact.axis_of_stretch {ctx : Context} {f : Fact} {source : Shape} {d : Nat} {axis : Axis}
    (h : (f.stretch source ctx.type.shape).axes[d]? = some axis) :
    ∃ extent, ctx.shape[d]? = some extent ∧
      axis = (f.sourceAxis source d).stretch (Int64.ofNat (source.getD d 1)) extent := by
  have hlt : d < ctx.shape.length := by
    have hd := (List.getElem?_eq_some_iff.mp h).1
    rw [ctx.length_shape]
    exact Nat.lt_of_lt_of_eq hd (f.rank_stretch source ctx.type.shape)
  obtain ⟨extent, hextent⟩ : ∃ extent, ctx.shape[d]? = some extent :=
    ⟨_, List.getElem?_eq_getElem hlt⟩
  refine ⟨extent, hextent, ?_⟩
  rw [ValueType.factShape_getElem? hextent]
  simp only [stretch, List.getElem?_map, Option.map_eq_some_iff] at h
  obtain ⟨k, hk, rfl⟩ := h
  have hdk : d = k := by
    obtain ⟨_, hget⟩ := List.getElem?_eq_some_iff.mp hk
    rwa [List.getElem_range] at hget
  rw [hdk]

/-! ### Rules -/

namespace Rule

variable {ctx : Context} {s : ValueType} {a : Fact}

theorem splat_eq_stretch (htypes : ctx.operandTypes = [s]) (hscalar : s.shape = [])
    (ha : a.rank = s.factRank) : splat ctx [a] = .ok (a.stretch [] ctx.type.shape) := by
  refine bind_eq_ok.mpr ⟨a, Context.oneOperand_eq_ok htypes ha, ?_⟩
  refine bind_eq_ok.mpr ⟨_, Context.axes_eq_map fun d _ => ?_, rfl⟩
  have haxis := Fact.axis_source (d := d) (.inl hscalar) ha
  simp only [ValueType.isScalar, hscalar, List.isEmpty_nil, if_true] at haxis
  rw [haxis]
  rfl

theorem broadcast_eq_stretch (htypes : ctx.operandTypes = [s])
    (hshape : s.shape = [] ∨ s.rank = ctx.type.rank) (ha : a.rank = s.factRank) :
    broadcast ctx [a] = .ok (a.stretch s.shape ctx.type.shape) := by
  have htype : ctx.operandType 0 = .ok s := element_eq_ok.mpr (by rw [htypes]; rfl)
  have hcond : (s.isScalar || s.rank == ctx.type.rank) = true := by
    simpa [ValueType.isScalar] using hshape
  refine bind_eq_ok.mpr ⟨a, Context.oneOperand_eq_ok htypes ha, ?_⟩
  refine bind_eq_ok.mpr ⟨s, htype, ?_⟩
  rw [if_pos hcond]
  refine bind_eq_ok.mpr ⟨_, Context.axes_eq_map fun d hd => ?_, rfl⟩
  have hsource : s.shape = [] ∨ d < s.rank :=
    ValueType.lt_rank_of_context hshape hd
  have haxis := Fact.axis_source hsource ha
  simp only [ValueType.extent_source hsource, haxis, ok_bind, Axis.stretch, beq_iff_eq]
  split
  · rfl
  · next hextent =>
    -- A scalar has extent one, so this is a tensor, and its own dimension.
    have hscalar : s.isScalar = false := by
      by_contra hs
      apply hextent
      simp only [ValueType.isScalar, Bool.not_eq_false, List.isEmpty_iff] at hs
      rw [hs]
      rfl
    rwa [hscalar, if_neg (by decide)] at haxis

end Rule

end TileFacts
