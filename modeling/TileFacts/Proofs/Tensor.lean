import TileFacts.Graph
import TileFacts.Operator.Evaluate
import Mathlib.Algebra.Group.Nat.Defs
import Mathlib.Data.List.Forall2
import Mathlib.Data.List.InsertIdx

/-! Tensors of words, and what operations make of them.

A tensor has a word at every position of its shape. `Op.Means` says what an operation computes,
position by position: it relates the tensors of the operands to the tensor of the result, and is
silent about operations whose result comes from outside the graph. Elements are counted row by
row (`Shape.position`), and a reshape keeps that order. -/
namespace TileFacts

/-- A position in a tensor, one number per dimension. -/
abbrev Position := List Nat

namespace Shape

/-- The positions of a tensor of this shape. -/
def Contains (shape : Shape) (i : Position) : Prop := List.Forall₂ (· < ·) i shape

/-- The position of the element with the given number, counted row by row. -/
def position : Shape → Nat → Position
  | [], _ => []
  | _ :: rest, k => k / rest.prod :: position rest (k % rest.prod)

/-- Where in a tensor of this shape an element is found that was stretched to a position. -/
def stretched (shape : Shape) (i : Position) : Position :=
  List.zipWith (fun extent p => if extent = 1 then 0 else p) shape i

@[simp] theorem contains_nil {i : Position} : Shape.Contains [] i ↔ i = [] := by
  simp [Contains]

theorem contains_cons {extent : Nat} {rest : Shape} {i : Position} :
    Shape.Contains (extent :: rest) i ↔ ∃ p j, i = p :: j ∧ p < extent ∧ rest.Contains j := by
  unfold Contains
  rw [List.forall₂_cons_right_iff]
  constructor
  · rintro ⟨p, j, hp, hj, rfl⟩
    exact ⟨p, j, rfl, hp, hj⟩
  · rintro ⟨p, j, rfl, hp, hj⟩
    exact ⟨p, j, hp, hj, rfl⟩

theorem forall_contains_singleton {n : Nat} {P : Position → Prop} (h : ∀ p < n, P [p]) :
    ∀ i, Shape.Contains [n] i → P i := by
  intro i hi
  obtain ⟨p, j, rfl, hp, hj⟩ := contains_cons.mp hi
  rw [contains_nil.mp hj]
  exact h p hp

/-- A position moved along one dimension stays inside. -/
theorem Contains.set {shape : Shape} {i : Position} (h : shape.Contains i) {d p : Nat}
    (hp : p < shape.getD d 1) : shape.Contains (i.set d p) := by
  induction shape generalizing i d with
  | nil => simp [contains_nil.mp h]
  | cons extent rest ih =>
    obtain ⟨q, j, rfl, hq, hj⟩ := contains_cons.mp h
    cases d with
    | zero => exact contains_cons.mpr ⟨p, j, rfl, by simpa using hp, hj⟩
    | succ d => exact contains_cons.mpr ⟨q, j.set d p, rfl, hq, ih hj (by simpa using hp)⟩

/-- A position without one of its numbers is a position of the shape without that dimension. -/
theorem Contains.eraseIdx {shape : Shape} {i : Position} (h : shape.Contains i) (n : Nat) :
    Shape.Contains (shape.eraseIdx n) (i.eraseIdx n) := by
  induction shape generalizing i n with
  | nil => simp [contains_nil.mp h]
  | cons extent rest ih =>
    obtain ⟨q, j, rfl, hq, hj⟩ := contains_cons.mp h
    cases n with
    | zero => exact hj
    | succ n => exact contains_cons.mpr ⟨q, j.eraseIdx n, rfl, hq, ih hj n⟩

/-- A shape without empty dimensions has a position. -/
theorem exists_contains {shape : Shape} (h : 0 ∉ shape) : ∃ i, shape.Contains i := by
  induction shape with
  | nil => exact ⟨[], by simp⟩
  | cons extent rest ih =>
    obtain ⟨hextent, hrest⟩ := List.ne_and_not_mem_of_not_mem_cons h
    obtain ⟨j, hj⟩ := ih hrest
    exact ⟨0 :: j, contains_cons.mpr ⟨0, j, rfl, Nat.pos_of_ne_zero hextent.symm, hj⟩⟩

theorem contains_position {shape : Shape} {k : Nat} (h : k < shape.prod) :
    shape.Contains (shape.position k) := by
  induction shape generalizing k with
  | nil => simp [position]
  | cons extent rest ih =>
    have hrest : 0 < rest.prod := by
      rcases Nat.eq_zero_or_pos rest.prod with hz | hpos
      · simp [hz] at h
      · exact hpos
    refine contains_cons.mpr ⟨_, _, rfl, ?_, ih (Nat.mod_lt k hrest)⟩
    rw [List.prod_cons] at h
    exact Nat.div_lt_of_lt_mul (by rwa [Nat.mul_comm])

/-! ### Positions in a stretched tensor -/

theorem contains_stretched {source target : Shape} {i : Position} (hi : target.Contains i)
    (hlen : source.length = target.length)
    (hst : ∀ d, source.getD d 1 = target.getD d 1 ∨ source.getD d 1 = 1) :
    source.Contains (source.stretched i) := by
  induction source generalizing target i with
  | nil => simp [stretched]
  | cons extent rest ih =>
    cases target with
    | nil => simp at hlen
    | cons limit limits =>
      obtain ⟨p, j, rfl, hp, hj⟩ := contains_cons.mp hi
      refine contains_cons.mpr ⟨_, _, rfl, ?_, ih hj (by simpa using hlen) fun d => ?_⟩
      · have := hst 0
        simp only [List.getD_cons_zero] at this
        show (if extent = 1 then 0 else p) < extent
        split <;> omega
      · simpa using hst (d + 1)

/-- A position moved along a dimension that is not stretched moves the element with it. -/
theorem stretched_set_of_ne {shape : Shape} {d : Nat} (hd : shape.getD d 1 ≠ 1) (i : Position)
    (p : Nat) : shape.stretched (i.set d p) = (shape.stretched i).set d p := by
  induction shape generalizing i d with
  | nil => simp at hd
  | cons extent rest ih =>
    cases i with
    | nil => simp [stretched]
    | cons q j =>
      cases d with
      | zero =>
        have : extent ≠ 1 := by simpa using hd
        simp [stretched, this]
      | succ d =>
        have := ih (d := d) (by simpa using hd) j
        simp only [stretched, List.set_cons_succ, List.zipWith_cons_cons] at this ⊢
        rw [this]

/-- A position moved along a stretched dimension leads to the first element there. -/
theorem stretched_set_of_eq {shape : Shape} {d : Nat} (hd : shape.getD d 1 = 1) (i : Position)
    (p : Nat) : shape.stretched (i.set d p) = (shape.stretched i).set d 0 := by
  induction shape generalizing i d with
  | nil => simp [stretched]
  | cons extent rest ih =>
    cases i with
    | nil => simp [stretched]
    | cons q j =>
      cases d with
      | zero =>
        have : extent = 1 := by simpa using hd
        simp [stretched, this]
      | succ d =>
        have := ih (d := d) (by simpa using hd) j
        simp only [stretched, List.set_cons_succ, List.zipWith_cons_cons] at this ⊢
        rw [this]

end Shape

/-! ### Tensors -/

/-- A word at every position of a shape; what stands outside means nothing. -/
structure Tensor where
  shape : Shape
  entry : Position → Int64

instance : CoeFun Tensor fun _ => Position → Int64 := ⟨Tensor.entry⟩

namespace Tensor

/-- The element with the given number, counted row by row. -/
def lane (x : Tensor) (k : Nat) : Int64 := x (x.shape.position k)

/-- Elements that depend on one index. -/
def along (n : Nat) (f : Nat → Int64) : Tensor := ⟨[n], fun i => f (i.headD 0)⟩

/-- Every element is `c`. -/
def IsConstant (x : Tensor) (c : Int64) : Prop := ∀ i, x.shape.Contains i → x i = c

/-- The elements met when a position is moved along one dimension. A scalar has one element
wherever it is moved to. -/
def line (x : Tensor) (d : Nat) (i : Position) (p : Nat) : Int64 := x (i.set d p)

end Tensor

/-- What an operation computes from the tensors of its operands. A condition that is a scalar
decides for all elements. -/
inductive Op.Means : Op → List Tensor → Tensor → Prop
  | const {value : Int64} {z : Tensor} (h : ∀ i, z.shape.Contains i → z i = value) :
    Means (.const value) [] z
  | range {start stop : Int64} {z : Tensor}
    (h : ∀ i, z.shape.Contains i → z i = start + Int64.ofNat (i.headD 0)) :
    Means (.range start stop) [] z
  | cast {op : CastOp} {u : ValueId} {x z : Tensor} (h : ∀ i, z.shape.Contains i → z i = x i) :
    Means (.cast op u) [x] z
  | binary {op : BinaryOp} {u v : ValueId} {x y z : Tensor}
    (h : ∀ i, z.shape.Contains i → op.evaluate (x i) (y i) = some (z i)) :
    Means (.binary op u v) [x, y] z
  | addPtr {u v : ValueId} {x y z : Tensor} (h : ∀ i, z.shape.Contains i → z i = x i + y i) :
    Means (.addPtr u v) [x, y] z
  | cmp {predicate : Comparison} {u v : ValueId} {x y z : Tensor}
    (h : ∀ i, z.shape.Contains i → z i = if predicate.evaluate (x i) (y i) then 1 else 0) :
    Means (.cmp predicate u v) [x, y] z
  | select {u v w : ValueId} {c x y z : Tensor}
    (h : ∀ i, z.shape.Contains i →
      z i = if c (if c.shape = [] then [] else i) ≠ 0 then x i else y i) :
    Means (.select u v w) [c, x, y] z
  | splat {u : ValueId} {x z : Tensor} (h : ∀ i, z.shape.Contains i → z i = x []) :
    Means (.splat u) [x] z
  | broadcast {u : ValueId} {x z : Tensor}
    (h : ∀ i, z.shape.Contains i → z i = x (x.shape.stretched i)) :
    Means (.broadcast u) [x] z
  | expandDims {u : ValueId} {axis : Nat} {x z : Tensor}
    (h : ∀ i, z.shape.Contains i → z i = x (i.eraseIdx axis)) :
    Means (.expandDims u axis) [x] z
  | reshape {u : ValueId} {x z : Tensor} (h : ∀ k < z.shape.prod, z.lane k = x.lane k) :
    Means (.reshape u) [x] z

/-- An operation takes one tensor per operand. -/
theorem Op.Means.length_eq {op : Op} {xs : List Tensor} {z : Tensor} (h : op.Means xs z) :
    xs.length = op.operands.length := by
  cases h <;> rfl

theorem Op.Means.kind_ne_merge {op : Op} {xs : List Tensor} {z : Tensor} (h : op.Means xs z) :
    op.kind ≠ .merge := by
  cases h <;> rintro ⟨⟩

end TileFacts
