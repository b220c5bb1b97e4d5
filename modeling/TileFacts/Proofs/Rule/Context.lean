import TileFacts.Rulebook
import TileFacts.Proofs.Typing
import TileFacts.Proofs.Rule.Shift
import Mathlib.Data.List.Forall2

/-! Contexts that rules see, and the machinery that rules share.

In a context that is typed (`Context.Typed`), given facts of the ranks its operands have
(`Context.Ranked`), the operands of a rule are the facts it was given, and axes can be worked out
one by one as long as each of them can (`Context.axes_eq_ok`). Policies never fault on any lanes,
so neither do their rules (`Policy.rule_eq_ok`). -/
namespace TileFacts

theorem ok_bind {ε α β : Type} (a : α) (f : α → Except ε β) : (Except.ok a >>= f) = f a := rfl

theorem map_eq_ok {ε α β : Type} {x : Except ε α} {f : α → β} {b : β} :
    f <$> x = .ok b ↔ ∃ a, x = .ok a ∧ f a = b := by
  cases x <;> simp [Functor.map, Except.map]

theorem mapM_eq_ok {α β : Type} {f : α → Checked β} {xs : List α} {ys : List β} :
    xs.mapM f = .ok ys ↔ List.Forall₂ (fun x y => f x = .ok y) xs ys := by
  induction xs generalizing ys with
  | nil => simp [pure, Except.pure, eq_comm]
  | cons x xs ih =>
    rw [List.mapM_cons, bind_eq_ok, List.forall₂_cons_left_iff]
    constructor
    · rintro ⟨y, hy, h⟩
      obtain ⟨rest, hrest, h⟩ := bind_eq_ok.mp h
      cases h
      exact ⟨y, rest, hy, ih.mp hrest, rfl⟩
    · rintro ⟨y, rest, hy, hrest, rfl⟩
      exact ⟨y, hy, bind_eq_ok.mpr ⟨rest, ih.mpr hrest, rfl⟩⟩

/-- Every result of a list of computations is the result of one. -/
theorem mapM_getElem? {α β : Type} {f : α → Checked β} {xs : List α} {ys : List β}
    (h : xs.mapM f = .ok ys) {k : Nat} {y : β} (hy : ys[k]? = some y) :
    ∃ x, xs[k]? = some x ∧ f x = .ok y := by
  obtain ⟨hk, rfl⟩ := List.getElem?_eq_some_iff.mp hy
  have hall := mapM_eq_ok.mp h
  have hk' : k < xs.length := hall.length_eq ▸ hk
  exact ⟨xs[k], List.getElem?_eq_getElem hk', by simpa using hall.get hk' hk⟩

/-- What is on the left of related lists is related to something on the right. -/
theorem exists_of_forall₂ {α β : Type} {R : α → β → Prop} {xs : List α} {ys : List β}
    (h : List.Forall₂ R xs ys) {x : α} (hx : x ∈ xs) : ∃ y ∈ ys, R x y := by
  obtain ⟨k, hk, rfl⟩ := List.mem_iff_getElem.mp hx
  have hk' : k < ys.length := h.length_eq ▸ hk
  exact ⟨ys[k], List.getElem_mem hk', by simpa using h.get hk hk'⟩

theorem exists_forall₂ {α β : Type} {R : α → β → Prop} {xs : List α}
    (h : ∀ x ∈ xs, ∃ y, R x y) : ∃ ys, List.Forall₂ R xs ys := by
  induction xs with
  | nil => exact ⟨[], .nil⟩
  | cons x xs ih =>
    obtain ⟨y, hy⟩ := h x (List.mem_cons_self ..)
    obtain ⟨ys, hys⟩ := ih fun x hx => h x (List.mem_cons_of_mem _ hx)
    exact ⟨y :: ys, .cons hy hys⟩

/-- Computations that all succeed make a list that does. -/
theorem exists_mapM_eq_ok {α β : Type} {f : α → Checked β} {xs : List α}
    (h : ∀ x ∈ xs, ∃ y, f x = .ok y) : ∃ ys, xs.mapM f = .ok ys := by
  obtain ⟨ys, hys⟩ := exists_forall₂ h
  exact ⟨ys, mapM_eq_ok.mpr hys⟩

namespace Context

variable {ctx : Context} {types : ValueId → Option ValueType}

/-- A context as the graph makes it: of a typed operation, with the types of its operands. -/
structure Typed (types : ValueId → Option ValueType) (ctx : Context) : Prop where
  op : ctx.op.HasType types ctx.type
  operands : ctx.op.operands.map types = ctx.operandTypes.map some
  extents : 0 ∉ ctx.type.shape

theorem Typed.operandTypes_eq (h : ctx.Typed types) (ts : List ValueType)
    (hts : ctx.op.operands.map types = ts.map some) : ctx.operandTypes = ts := by
  have hmap : ctx.operandTypes.map some = ts.map some := h.operands.symm.trans hts
  exact List.map_injective_iff.mpr (Option.some_injective _) hmap

/-- Operand by operand, the types are those of the operands. -/
theorem Typed.forall₂_types (h : ctx.Typed types) :
    List.Forall₂ (fun u t => types u = some t) ctx.op.operands ctx.operandTypes := by
  rw [← List.forall₂_map_right_iff, ← List.forall₂_map_left_iff, h.operands]
  exact List.forall₂_refl _

/-- One fact per operand, of the rank of its type. -/
def Ranked (ctx : Context) (facts : List Fact) : Prop :=
  facts.map Fact.rank = ctx.operandTypes.map ValueType.factRank

/-! ### Types of operands -/

section Typed

variable (h : ctx.Typed types)
include h

theorem Typed.cast {op : CastOp} {u : ValueId} (hop : ctx.op = .cast op u) :
    ∃ s, ctx.operandTypes = [s] ∧ s.shape = ctx.type.shape := by
  obtain ⟨value, op, type, operandTypes⟩ := ctx
  cases hop
  cases h.op with
  | @cast _ _ s _ hsource _ =>
    exact ⟨s, h.operandTypes_eq [s] (by simp [Op.operands, hsource]), rfl⟩

theorem Typed.binary {op : BinaryOp} (hop : ctx.binaryOp = .ok op) :
    ∃ s t, ctx.operandTypes = [s, t] ∧ s.shape = ctx.type.shape ∧ t.shape = ctx.type.shape := by
  obtain ⟨value, ctxop, type, operandTypes⟩ := ctx
  cases h.op with
  | binary hlhs hrhs _ =>
    exact ⟨type, type, h.operandTypes_eq _ (by simp [Op.operands, hlhs, hrhs]), rfl, rfl⟩
  | @addPtr _ _ _ o hptr hoffset _ _ ho =>
    exact ⟨type, o, h.operandTypes_eq _ (by simp [Op.operands, hptr, hoffset]), rfl, ho.symm⟩
  | _ => cases hop

theorem Typed.comparison {predicate : Comparison} {u v : ValueId}
    (hop : ctx.op = .cmp predicate u v) :
    ∃ s t, ctx.operandTypes = [s, t] ∧ s.shape = ctx.type.shape ∧ t.shape = ctx.type.shape := by
  obtain ⟨value, op, type, operandTypes⟩ := ctx
  cases hop
  cases h.op with
  | @cmp _ _ _ t hlhs hrhs =>
    exact ⟨t, t, h.operandTypes_eq _ (by simp [Op.operands, hlhs, hrhs]), rfl, rfl⟩

theorem Typed.select {u v w : ValueId} (hop : ctx.op = .select u v w) :
    ∃ c s t, ctx.operandTypes = [c, s, t] ∧ (c.shape = [] ∨ c.shape = ctx.type.shape) ∧
      s.shape = ctx.type.shape ∧ t.shape = ctx.type.shape := by
  obtain ⟨value, op, type, operandTypes⟩ := ctx
  cases hop
  cases h.op with
  | @select _ _ _ c _ hcond hTrue hFalse _ hc =>
    exact ⟨c, type, type, h.operandTypes_eq _ (by simp [Op.operands, hcond, hTrue, hFalse]), hc,
      rfl, rfl⟩

theorem Typed.range {start stop count : Int64} (hop : ctx.op = .range start stop)
    (hcount : Word.checkedSub stop start = .ok count) :
    start < stop ∧ ctx.type.shape = [count.toInt.toNat] := by
  obtain ⟨value, op, type, operandTypes⟩ := ctx
  cases hop
  cases h.op with
  | range horder hcount' =>
    rw [hcount] at hcount'
    cases hcount'
    exact ⟨horder, rfl⟩

theorem Typed.splat {u : ValueId} (hop : ctx.op = .splat u) :
    ∃ s, ctx.operandTypes = [s] ∧ s.shape = [] := by
  obtain ⟨value, op, type, operandTypes⟩ := ctx
  cases hop
  cases h.op with
  | @splat _ s _ hsource hscalar =>
    exact ⟨s, h.operandTypes_eq [s] (by simp [Op.operands, hsource]), hscalar⟩

/-- The source of a broadcast is a scalar, or stretches to the result. -/
theorem Typed.broadcast {u : ValueId} (hop : ctx.op = .broadcast u) :
    ∃ s, ctx.operandTypes = [s] ∧ (s.shape = [] ∨ s.shape.length = ctx.type.shape.length ∧
      ∀ d, s.shape.getD d 1 = ctx.type.shape.getD d 1 ∨ s.shape.getD d 1 = 1) := by
  obtain ⟨value, op, type, operandTypes⟩ := ctx
  cases hop
  cases h.op with
  | @broadcast _ s _ hsource hstretches =>
    exact ⟨s, h.operandTypes_eq [s] (by simp [Op.operands, hsource]),
      Shape.stretchesTo_iff.mp hstretches⟩

theorem Typed.expandDims {u : ValueId} {n : Nat} (hop : ctx.op = .expandDims u n) :
    ∃ s, ctx.operandTypes = [s] ∧ n ≤ s.shape.length ∧
      ctx.type.shape = s.shape.insertIdx n 1 := by
  obtain ⟨value, op, type, operandTypes⟩ := ctx
  cases hop
  cases h.op with
  | @expandDims _ _ s hsource haxis =>
    exact ⟨s, h.operandTypes_eq [s] (by simp [Op.operands, hsource]), haxis, rfl⟩

end Typed

/-! ### Operands -/

theorem ranked_nil {facts : List Fact} (h : ctx.Ranked facts) (ht : ctx.operandTypes = []) :
    facts = [] := by
  simpa [Ranked, ht] using h

theorem ranked_one {facts : List Fact} {s : ValueType} (h : ctx.Ranked facts)
    (ht : ctx.operandTypes = [s]) : ∃ a, facts = [a] ∧ a.rank = s.factRank := by
  simpa [Ranked, ht, List.map_eq_cons_iff] using h

theorem ranked_two {facts : List Fact} {s t : ValueType} (h : ctx.Ranked facts)
    (ht : ctx.operandTypes = [s, t]) :
    ∃ a b, facts = [a, b] ∧ a.rank = s.factRank ∧ b.rank = t.factRank := by
  simp only [Ranked, ht, List.map_cons, List.map_nil, List.map_eq_cons_iff,
    List.map_eq_nil_iff] at h
  obtain ⟨a, _, rfl, ha, b, _, rfl, hb, rfl⟩ := h
  exact ⟨a, b, rfl, ha, hb⟩

theorem ranked_three {facts : List Fact} {s t u : ValueType} (h : ctx.Ranked facts)
    (ht : ctx.operandTypes = [s, t, u]) :
    ∃ a b c, facts = [a, b, c] ∧ a.rank = s.factRank ∧ b.rank = t.factRank ∧
      c.rank = u.factRank := by
  simp only [Ranked, ht, List.map_cons, List.map_nil, List.map_eq_cons_iff,
    List.map_eq_nil_iff] at h
  obtain ⟨a, _, rfl, ha, b, _, rfl, hb, c, _, rfl, hc, rfl⟩ := h
  exact ⟨a, b, c, rfl, ha, hb, hc⟩

theorem checkRank_eq_ok {i : Nat} {a : Fact} {s : ValueType} (hs : ctx.operandTypes[i]? = some s)
    (ha : a.rank = s.factRank) : ctx.checkRank i a = .ok () := by
  simp [checkRank, operandType, element, hs, ha, bind, Except.bind, pure, Except.pure]

theorem oneOperand_eq_ok {a : Fact} {s : ValueType} (ht : ctx.operandTypes = [s])
    (ha : a.rank = s.factRank) : ctx.oneOperand [a] = .ok a := by
  simp only [oneOperand, checkRank_eq_ok (i := 0) (by rw [ht]; rfl) ha]
  rfl

theorem twoOperands_eq_ok {a b : Fact} {s t : ValueType} (ht : ctx.operandTypes = [s, t])
    (ha : a.rank = s.factRank) (hb : b.rank = t.factRank) :
    ctx.twoOperands [a, b] = .ok (a, b) := by
  simp only [twoOperands, checkRank_eq_ok (i := 0) (by rw [ht]; rfl) ha,
    checkRank_eq_ok (i := 1) (by rw [ht]; rfl) hb]
  rfl

theorem threeOperands_eq_ok {a b c : Fact} {s t u : ValueType} (ht : ctx.operandTypes = [s, t, u])
    (ha : a.rank = s.factRank) (hb : b.rank = t.factRank) (hc : c.rank = u.factRank) :
    ctx.threeOperands [a, b, c] = .ok (a, b, c) := by
  simp only [threeOperands, checkRank_eq_ok (i := 0) (by rw [ht]; rfl) ha,
    checkRank_eq_ok (i := 1) (by rw [ht]; rfl) hb, checkRank_eq_ok (i := 2) (by rw [ht]; rfl) hc]
  rfl

/-! ### Axes -/

theorem length_shape (ctx : Context) : ctx.shape.length = ctx.rank := ctx.type.length_factShape

theorem getElem?_axes {axis : Nat → Int64 → Checked Axis} {axes : List Axis}
    (h : ctx.axes axis = .ok axes) {d : Nat} {x : Axis} (hx : axes[d]? = some x) :
    ∃ extent, ctx.shape[d]? = some extent ∧ axis d extent = .ok x := by
  obtain ⟨⟨extent, k⟩, hk, haxis⟩ := mapM_getElem? h hx
  rw [List.getElem?_zipIdx] at hk
  obtain ⟨e, he, heq⟩ := Option.map_eq_some_iff.mp hk
  cases heq
  exact ⟨extent, he, by simpa using haxis⟩

/-- Axes worked out one by one, where each of them can be. -/
theorem axes_eq_ok (ctx : Context) (axis : Nat → Int64 → Checked Axis)
    (h : ∀ d extent, ctx.shape[d]? = some extent → ∃ a, axis d extent = .ok a) :
    ∃ axes, ctx.axes axis = .ok axes ∧ axes.length = ctx.rank ∧
      ∀ d a, axes[d]? = some a → ∃ extent, ctx.shape[d]? = some extent ∧ axis d extent = .ok a := by
  obtain ⟨axes, haxes⟩ := exists_mapM_eq_ok (f := fun p : Int64 × Nat => axis p.2 p.1)
    fun ⟨extent, d⟩ hmem => h d extent (List.mem_zipIdx_iff_getElem?.mp hmem)
  refine ⟨axes, haxes, ?_, fun d a ha => getElem?_axes haxes ha⟩
  rw [← (mapM_eq_ok.mp haxes).length_eq, List.length_zipIdx, length_shape]

theorem lt_rank_of_shape {d : Nat} {extent : Int64} (h : ctx.shape[d]? = some extent) :
    d < ctx.rank := by
  rw [← length_shape]
  exact (List.getElem?_eq_some_iff.mp h).1

end Context

theorem Fact.axis_eq_ok {f : Fact} {d : Nat} {a : Axis} : f.axis d = .ok a ↔ f.axes[d]? = some a :=
  element_eq_ok

theorem Fact.exists_axis {f : Fact} {d : Nat} (h : d < f.rank) : ∃ a, f.axes[d]? = some a :=
  ⟨_, List.getElem?_eq_getElem h⟩

theorem Fact.lane_eq_ok {f : Fact} {d : Nat} {l : Lane} :
    f.lane d = .ok l ↔ f.axes[d]? = some l.toAxis ∧ l.constant = f.constant := by
  unfold lane
  rw [bind_eq_ok]
  simp only [Fact.axis_eq_ok]
  constructor
  · rintro ⟨a, ha, h⟩
    cases h
    exact ⟨ha, rfl⟩
  · rintro ⟨ha, hc⟩
    obtain ⟨a, c⟩ := l
    cases hc
    exact ⟨a, ha, rfl⟩

theorem Fact.exists_lane {f : Fact} {d : Nat} (h : d < f.rank) : ∃ l, f.lane d = .ok l := by
  obtain ⟨a, ha⟩ := exists_axis h
  exact ⟨⟨a, f.constant⟩, lane_eq_ok.mpr ⟨ha, rfl⟩⟩

theorem Fact.join_eq_ok {a b c : Fact} : a.join b = .ok c ↔ a.rank = b.rank ∧
    c = ⟨List.zipWith Axis.join a.axes b.axes, Fact.commonConstant a.constant b.constant⟩ := by
  unfold Fact.join
  split
  · next hrank =>
    rw [Except.ok.injEq, eq_comm]
    exact (and_iff_right hrank).symm
  · next hrank => exact iff_of_false (by rintro ⟨⟩) fun h => hrank h.1

theorem Fact.axis_of_join {a b c : Fact} (h : a.join b = .ok c) {d : Nat} {x : Axis}
    (hx : c.axes[d]? = some x) :
    ∃ l r, a.axes[d]? = some l ∧ b.axes[d]? = some r ∧ l.join r = x := by
  rw [(Fact.join_eq_ok.mp h).2] at hx
  exact List.getElem?_zipWith_eq_some.mp hx

/-- A constant of a join is one of both sides. -/
theorem Fact.constant_of_join {a b c : Fact} (h : a.join b = .ok c) {value : Int64}
    (hc : c.constant = some value) : a.constant = some value ∧ b.constant = some value := by
  rw [(Fact.join_eq_ok.mp h).2] at hc
  simp only [Fact.commonConstant] at hc
  split at hc
  · next heq => exact ⟨hc, heq ▸ hc⟩
  · cases hc

/-! ### Binary operators -/

/-- The operands of a binary rule have the rank of the result. -/
structure Context.Binary (ctx : Context) (op : BinaryOp) (a b : Fact) : Prop where
  operands : ctx.twoOperands [a, b] = .ok (a, b)
  op : ctx.binaryOp = .ok op
  left : a.rank = ctx.rank
  right : b.rank = ctx.rank

/-- Axes worked out from the lanes of both operands, which any two lanes allow. -/
theorem Context.Binary.axes_eq_ok {ctx : Context} {op : BinaryOp} {a b : Fact}
    (h : ctx.Binary op a b) (axis : Lane → Lane → Int64 → Checked Axis)
    (htotal : ∀ l r extent, ∃ x, axis l r extent = .ok x) :
    ∃ axes, (ctx.axes fun d extent => do
        let l ← a.lane d
        let r ← b.lane d
        axis l r extent) = .ok axes ∧ axes.length = ctx.rank ∧
      ∀ d x, axes[d]? = some x → ∃ l r extent, a.lane d = .ok l ∧ b.lane d = .ok r ∧
        ctx.shape[d]? = some extent ∧ axis l r extent = .ok x := by
  obtain ⟨axes, haxes, hlen, hall⟩ := ctx.axes_eq_ok (fun d extent => do
      let l ← a.lane d
      let r ← b.lane d
      axis l r extent) <| by
    intro d extent hd
    have hlt := Context.lt_rank_of_shape hd
    obtain ⟨l, hl⟩ := Fact.exists_lane (h.left.symm ▸ hlt)
    obtain ⟨r, hr⟩ := Fact.exists_lane (h.right.symm ▸ hlt)
    obtain ⟨x, hx⟩ := htotal l r extent
    exact ⟨x, bind_eq_ok.mpr ⟨l, hl, bind_eq_ok.mpr ⟨r, hr, hx⟩⟩⟩
  refine ⟨axes, haxes, hlen, fun d x hd => ?_⟩
  obtain ⟨extent, hextent, hx⟩ := hall d x hd
  obtain ⟨l, hl, hx⟩ := bind_eq_ok.mp hx
  obtain ⟨r, hr, hx⟩ := bind_eq_ok.mp hx
  exact ⟨l, r, extent, hl, hr, hextent, hx⟩

namespace Policy

/-- A policy that works out every axis. -/
def Total (policy : Policy) (op : BinaryOp) : Prop :=
  ∀ l r constant, ∃ a, policy.axis op l r constant = .ok a

theorem total_of_parts {policy : Policy} {op : BinaryOp}
    (hdivisor : ∀ l r, ∃ m, policy.divisibility op l r = .ok m)
    (hstep : ∀ l r, ∃ s, policy.step op l r = .ok s) : policy.Total op := by
  intro l r constant
  cases constant with
  | some value => exact ⟨_, rfl⟩
  | none =>
    obtain ⟨m, hm⟩ := hdivisor l r
    obtain ⟨s, hs⟩ := hstep l r
    exact ⟨_, axis_none_eq_ok.mpr ⟨m, s, hm, hs, rfl⟩⟩

theorem sum_total (op : BinaryOp) : sum.Total op :=
  total_of_parts (fun _ _ => ⟨_, rfl⟩) fun _ _ => ⟨_, rfl⟩

theorem product_total (op : BinaryOp) : product.Total op := by
  refine total_of_parts (fun l r => ?_) fun _ _ => ⟨_, rfl⟩
  have hlog := Word.log2_lt r.divisibility
  rw [product_divisibility_eq]
  refine Word.exists_scaleUp _ ?_
  rw [Word.toInt_ofNat_of_small (by omega)]
  omega

/-- A left shift is by a usable amount, of divisors as of steps. -/
theorem shiftLeft_total (op : BinaryOp) : shiftLeft.Total op := by
  apply total_of_parts
  · intro l r
    cases hs : shiftAmount r with
    | none => exact ⟨1, by simp only [shiftLeft, hs]⟩
    | some shift =>
      obtain ⟨m, hm⟩ := Word.exists_scaleUp l.divisibility (shiftAmount_eq_some hs).2.2.2
      exact ⟨m, by simp only [shiftLeft, hs, hm]⟩
  · intro l r
    cases hs : shiftAmount r with
    | none => exact ⟨unknownStep, by simp only [shiftLeft, hs]⟩
    | some shift =>
      simp only [shiftLeft, hs, shiftedStep_eq l.step (shiftAmount_eq_some hs).2.2]
      split <;> exact ⟨_, rfl⟩

theorem shiftRight_total (op : BinaryOp) : shiftRight.Total op := by
  refine total_of_parts (fun l r => ?_) fun _ _ => ⟨_, rfl⟩
  cases hs : shiftAmount r with
  | none => exact ⟨1, by simp only [shiftRight, hs]⟩
  | some shift => exact ⟨_, shiftRight_divisibility op l hs⟩

theorem rule_eq_ok {policy : Policy} {ctx : Context} {op : BinaryOp} {a b : Fact}
    (hpolicy : policy.Total op) (h : ctx.Binary op a b) :
    ∃ axes, policy.rule ctx [a, b] = .ok ⟨axes, policy.constant op a.constant b.constant⟩ ∧
      axes.length = ctx.rank ∧ ∀ d axis, axes[d]? = some axis →
        ∃ l r, a.lane d = .ok l ∧ b.lane d = .ok r ∧
          policy.axis op l r (policy.constant op a.constant b.constant) = .ok axis := by
  obtain ⟨axes, haxes, hlen, hall⟩ := h.axes_eq_ok
    (fun l r _ => policy.axis op l r (policy.constant op a.constant b.constant))
    fun l r _ => hpolicy l r _
  refine ⟨axes, ?_, hlen, ?_⟩
  · exact bind_eq_ok.mpr ⟨_, h.operands, bind_eq_ok.mpr ⟨_, h.op, bind_eq_ok.mpr ⟨_, haxes, rfl⟩⟩⟩
  · intro d axis hd
    obtain ⟨l, r, _, hl, hr, _, haxis⟩ := hall d axis hd
    exact ⟨l, r, hl, hr, haxis⟩

end Policy

end TileFacts
