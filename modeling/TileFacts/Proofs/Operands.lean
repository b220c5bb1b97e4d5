import TileFacts.Proofs.Tensor
import TileFacts.Proofs.Rule.Context

/-! The tensors of the operands of an operation.

The operands of a typed operation have tensors of the shapes of their types (`Context.Computes`),
so that what an operation means can be read off tensors of fitting shapes: two of the shape of the
result, combined element by element (`Tensor.Combines`), a condition and two branches
(`Tensor.Chooses`), or one tensor that is laid out anew. -/
namespace TileFacts

/-- `z` is what `x` and `y` combine to, element by element. -/
structure Tensor.Combines (op : BinaryOp) (x y z : Tensor) : Prop where
  left : x.shape = z.shape
  right : y.shape = z.shape
  elements : ∀ i, z.shape.Contains i → op.evaluate (x i) (y i) = some (z i)

/-- `z` is `x` where the condition `c` holds and `y` elsewhere. -/
structure Tensor.Chooses (c x y z : Tensor) : Prop where
  condition : c.shape = [] ∨ c.shape = z.shape
  left : x.shape = z.shape
  right : y.shape = z.shape
  elements : ∀ i, z.shape.Contains i →
    z i = if c (if c.shape = [] then [] else i) ≠ 0 then x i else y i

/-- Where the condition of an element stands. -/
theorem Tensor.Chooses.contains_condition {c x y z : Tensor} (h : Tensor.Chooses c x y z)
    {i : Position} (hi : z.shape.Contains i) :
    c.shape.Contains (if c.shape = [] then [] else i) := by
  split
  · next hnil => simp [hnil]
  · next hne => exact h.condition.resolve_left hne ▸ hi

namespace Context

/-- A typed operation computes a tensor from tensors of the types of its operands. -/
structure Computes (types : ValueId → Option ValueType) (ctx : Context) (xs : List Tensor)
    (z : Tensor) : Prop where
  typed : ctx.Typed types
  operands : List.Forall₂ (fun (t : ValueType) (x : Tensor) => x.shape = t.shape)
    ctx.operandTypes xs
  means : ctx.op.Means xs z
  shape : z.shape = ctx.type.shape

namespace Computes

variable {types : ValueId → Option ValueType} {ctx : Context} {x y z c : Tensor} {xs : List Tensor}

theorem constant (h : ctx.Computes types xs z) {value : Int64} (hop : ctx.op = .const value) :
    z.IsConstant value := by
  have hmeans := h.means
  rw [hop] at hmeans
  cases hmeans with
  | const hz => exact hz

theorem range (h : ctx.Computes types xs z) {start stop count : Int64}
    (hop : ctx.op = .range start stop) (hcount : Word.checkedSub stop start = .ok count) :
    start < stop ∧ z.shape = [count.toInt.toNat] ∧
      ∀ i, z.shape.Contains i → z i = start + Int64.ofNat (i.headD 0) := by
  obtain ⟨horder, hshape⟩ := h.typed.range hop hcount
  have hmeans := h.means
  rw [hop] at hmeans
  cases hmeans with
  | range hz => exact ⟨horder, h.shape.trans hshape, hz⟩

theorem cast (h : ctx.Computes types [x] z) {op : CastOp} {u : ValueId}
    (hop : ctx.op = .cast op u) :
    x.shape = z.shape ∧ ∀ i, z.shape.Contains i → z i = x i := by
  obtain ⟨s, htypes, hs⟩ := h.typed.cast hop
  have hoperands := h.operands
  rw [htypes] at hoperands
  have hmeans := h.means
  rw [hop] at hmeans
  cases hmeans with
  | cast hz =>
    cases hoperands with
    | cons hx _ => exact ⟨hx.trans (hs.trans h.shape.symm), hz⟩

theorem combines (h : ctx.Computes types [x, y] z) {op : BinaryOp}
    (hop : ctx.binaryOp = .ok op) : Tensor.Combines op x y z := by
  obtain ⟨s, t, htypes, hs, ht⟩ := h.typed.binary hop
  obtain ⟨_, hoperands, hmeans, hshape⟩ := h
  rw [htypes] at hoperands
  rcases hoperands with _ | ⟨hx, _ | ⟨hy, _⟩⟩
  refine ⟨hx.trans (hs.trans hshape.symm), hy.trans (ht.trans hshape.symm), ?_⟩
  obtain ⟨value, ctxop, type, operandTypes⟩ := ctx
  cases hmeans with
  | binary hz =>
    cases hop
    exact hz
  | addPtr hz =>
    cases hop
    intro i hi
    rw [hz i hi]
    rfl
  | cmp => cases hop

theorem comparison (h : ctx.Computes types [x, y] z) {predicate : Comparison} {u v : ValueId}
    (hop : ctx.op = .cmp predicate u v) : x.shape = z.shape ∧ y.shape = z.shape ∧
      ∀ i, z.shape.Contains i → z i = if predicate.evaluate (x i) (y i) then 1 else 0 := by
  obtain ⟨s, t, htypes, hs, ht⟩ := h.typed.comparison hop
  obtain ⟨_, hoperands, hmeans, hshape⟩ := h
  rw [htypes] at hoperands
  rcases hoperands with _ | ⟨hx, _ | ⟨hy, _⟩⟩
  rw [hop] at hmeans
  cases hmeans with
  | cmp hz => exact ⟨hx.trans (hs.trans hshape.symm), hy.trans (ht.trans hshape.symm), hz⟩

theorem chooses (h : ctx.Computes types [c, x, y] z) {u v w : ValueId}
    (hop : ctx.op = .select u v w) : Tensor.Chooses c x y z := by
  obtain ⟨r, s, t, htypes, hr, hs, ht⟩ := h.typed.select hop
  obtain ⟨_, hoperands, hmeans, hshape⟩ := h
  rw [htypes] at hoperands
  rcases hoperands with _ | ⟨hc, _ | ⟨hx, _ | ⟨hy, _⟩⟩⟩
  rw [hop] at hmeans
  cases hmeans with
  | select hz =>
    rw [← hc, ← hshape] at hr
    exact ⟨hr, hx.trans (hs.trans hshape.symm), hy.trans (ht.trans hshape.symm), hz⟩

theorem splat (h : ctx.Computes types [x] z) {u : ValueId} (hop : ctx.op = .splat u) :
    x.shape = [] ∧ ∀ i, z.shape.Contains i → z i = x [] := by
  obtain ⟨s, htypes, hscalar⟩ := h.typed.splat hop
  obtain ⟨_, hoperands, hmeans, _⟩ := h
  rw [htypes] at hoperands
  rw [hop] at hmeans
  cases hmeans with
  | splat hz =>
    cases hoperands with
    | cons hx _ => exact ⟨hx.trans hscalar, hz⟩

theorem broadcast (h : ctx.Computes types [x] z) {u : ValueId} (hop : ctx.op = .broadcast u) :
    (x.shape = [] ∨ x.shape.length = z.shape.length ∧
      ∀ d, x.shape.getD d 1 = z.shape.getD d 1 ∨ x.shape.getD d 1 = 1) ∧
      ∀ i, z.shape.Contains i → z i = x (x.shape.stretched i) := by
  obtain ⟨s, htypes, hs⟩ := h.typed.broadcast hop
  obtain ⟨_, hoperands, hmeans, hshape⟩ := h
  rw [htypes] at hoperands
  rw [hop] at hmeans
  cases hmeans with
  | broadcast hz =>
    cases hoperands with
    | cons hx _ =>
      rw [← hx, ← hshape] at hs
      exact ⟨hs, hz⟩

theorem expandDims (h : ctx.Computes types [x] z) {u : ValueId} {n : Nat}
    (hop : ctx.op = .expandDims u n) : n ≤ x.shape.length ∧ z.shape = x.shape.insertIdx n 1 ∧
      ∀ i, z.shape.Contains i → x.shape.Contains (i.eraseIdx n) ∧ z i = x (i.eraseIdx n) := by
  obtain ⟨s, htypes, hn, hs⟩ := h.typed.expandDims hop
  obtain ⟨_, hoperands, hmeans, hshape⟩ := h
  rw [htypes] at hoperands
  rw [hop] at hmeans
  cases hmeans with
  | expandDims hz =>
    cases hoperands with
    | cons hx _ =>
      rw [← hx] at hn hs
      refine ⟨hn, hshape.trans hs, fun i hi => ⟨?_, hz i hi⟩⟩
      have := hi.eraseIdx n
      rwa [hshape, hs, List.eraseIdx_insertIdx_self] at this

/-- A reshape keeps the order of the elements. -/
theorem reshape (h : ctx.Computes types [x] z) {u : ValueId} (hop : ctx.op = .reshape u) :
    ∀ k < z.shape.prod, z.lane k = x.lane k := by
  have hmeans := h.means
  rw [hop] at hmeans
  cases hmeans with
  | reshape hz => exact hz

/-- The tensor of the first operand has the shape of its type. -/
theorem shape_head (h : ctx.Computes types (x :: xs) z) {s : ValueType}
    (hs : ctx.operandTypes[0]? = some s) : x.shape = s.shape := by
  obtain ⟨_, hoperands, _, _⟩ := h
  obtain ⟨value, op, type, operandTypes⟩ := ctx
  cases hoperands with
  | cons hx _ =>
    cases hs
    exact hx

end Computes

end Context

end TileFacts
