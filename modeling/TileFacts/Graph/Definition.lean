import TileFacts.Graph
import TileFacts.Refusal
import TileFacts.Word

/-! How values are defined.

A `Definition` says what a new value is to be. `Graph.define` checks it against the values
it builds on and works out the node, so the type of a value follows from its definition and
from the types of its operands. Checks are made in a fixed order, operands first, and the
first that fails is the one reported. -/
namespace TileFacts

inductive Definition where
  | arg (index : Nat) (type : ValueType)
  | const (value : Int64) (type : ValueType)
  | constFloat (bits : UInt64) (type : ValueType)
  | cast (op : CastOp) (source : ValueId) (element : Element)
  | binary (op : BinaryOp) (lhs rhs : ValueId)
  | addPtr (ptr offset : ValueId)
  | cmp (predicate : Comparison) (lhs rhs : ValueId)
  | select (cond onTrue onFalse : ValueId)
  | range (start stop : Int64)
  | splat (source : ValueId) (shape : Shape)
  | broadcast (source : ValueId) (shape : Shape)
  | expandDims (source : ValueId) (axis : Nat)
  | reshape (source : ValueId) (shape : Shape)
  /-- A merge with its first input. -/
  | merge (init : ValueId)
  | atomicRmw (op : RmwOp) (ptr value : ValueId) (mask : Option ValueId)
  | gatherAtomicRmw (op : AtomicOp) (base values indices : ValueId) (mask : Option ValueId)
  deriving DecidableEq

/-- The constant of a literal, at the type it was written at. -/
def Definition.literal (l : Literal) : Definition := .const l.word (.scalar (.scalar l.scalar))

/-- Which conversions exist from one element to another. -/
def CastOp.accepts : CastOp → Element → Element → Bool
  | .intToPtr, source, target => source.isInt && target.isPointer
  | .ptrToInt, source, target => source.isPointer && target.isInt
  | .bitcast, source, target => source.bytes == target.bytes
  | _, source, target => source.isInt && target.isInt

namespace Graph

/-- The type of a value that a request names. -/
def known (g : Graph) (v : ValueId) : Attempt Refusal ValueType :=
  match g.nodes[v]? with
  | some node => .ok node.type
  | none => .error (.refused (.unknownValue v g.size))

/-- Elements are compared before shapes. -/
def requireSame (kind : Kind) (a b : ValueType) : Attempt Refusal Unit := do
  require (a.element == b.element) (.elementMismatch kind a.element b.element)
  require (a.shape == b.shape) (.shapeMismatch kind a.shape b.shape)

/-- The mask of an atomic update decides for each element whether it takes part. -/
def requireMask (g : Graph) (shape : Shape) : Option ValueId → Attempt Refusal Unit
  | none => return
  | some mask => do
    let m ← g.known mask
    require m.element.isBool (.notBool m.element)
    require (shape == m.shape) (.shapeMismatch .atomicRmw shape m.shape)

/-- The mask of a gathered update may be any integer. -/
def requireGatherMask (g : Graph) (shape : Shape) : Option ValueId → Attempt Refusal Unit
  | none => return
  | some mask => do
    let m ← g.known mask
    require m.element.isInt (.badElement .gatherAtomicRmw m.element)
    require (shape == m.shape) (.shapeMismatch .gatherAtomicRmw shape m.shape)

/-- The node that a definition describes. -/
def define (g : Graph) : Definition → Attempt Refusal Node
  | .arg index type => do
    let _ ← type.shape.validate
    return ⟨.arg index, type⟩
  | .const value type => do
    let _ ← type.shape.validate
    require type.element.isInt (.badElement .const type.element)
    return ⟨.const value, type⟩
  | .constFloat bits type => do
    let _ ← type.shape.validate
    require type.element.isFloat (.badElement .constFloat type.element)
    return ⟨.constFloat bits, type⟩
  | .cast op source element => do
    let s ← g.known source
    require (op.accepts s.element element) (.badElement (.cast op) element)
    return ⟨.cast op source, s.withElement element⟩
  | .binary op lhs rhs => do
    let l ← g.known lhs
    let r ← g.known rhs
    requireSame (.binary op) l r
    require l.element.isInt (.badElement (.binary op) l.element)
    return ⟨.binary op lhs rhs, l⟩
  | .addPtr ptr offset => do
    let p ← g.known ptr
    let o ← g.known offset
    require p.element.isPointer (.notPointer .addPtr p.element)
    require o.element.isInt (.badElement .addPtr o.element)
    require (p.shape == o.shape) (.shapeMismatch .addPtr p.shape o.shape)
    return ⟨.addPtr ptr offset, p⟩
  | .cmp predicate lhs rhs => do
    let l ← g.known lhs
    let r ← g.known rhs
    requireSame .cmp l r
    return ⟨.cmp predicate lhs rhs, l.withElement .bool⟩
  | .select cond onTrue onFalse => do
    let c ← g.known cond
    let t ← g.known onTrue
    let f ← g.known onFalse
    requireSame .select t f
    require c.element.isBool (.notBool c.element)
    require (c.isScalar || c.shape == t.shape) (.shapeMismatch .select c.shape t.shape)
    return ⟨.select cond onTrue onFalse, t⟩
  | .range start stop => do
    require (start < stop) (.emptyRange start stop)
    let count ← checked (Word.checkedSub stop start)
    return ⟨.range start stop, ⟨.i32, [count.toInt.toNat]⟩⟩
  | .splat source shape => do
    let s ← g.known source
    require s.isScalar (.notScalar .splat s.shape)
    let shape ← shape.validate
    return ⟨.splat source, s.withShape shape⟩
  | .broadcast source shape => do
    let s ← g.known source
    s.shape.requireStretch shape
    let shape ← shape.validate
    return ⟨.broadcast source, s.withShape shape⟩
  | .expandDims source axis => do
    let s ← g.known source
    require (axis ≤ s.rank) (.badAxis axis s.rank)
    return ⟨.expandDims source axis, s.withShape (s.shape.insertIdx axis 1)⟩
  | .reshape source shape => do
    let s ← g.known source
    let shape ← shape.validate
    let input ← checked s.shape.numElements
    let output ← checked shape.numElements
    require (input == output) (.sizeMismatch input output)
    return ⟨.reshape source, s.withShape shape⟩
  | .merge init => do
    let t ← g.known init
    return ⟨.merge [init], t⟩
  | .atomicRmw op ptr value mask => do
    let p ← g.known ptr
    let v ← g.known value
    match p.element.pointee? with
    | none => throw (.refused (.notPointer .atomicRmw p.element))
    | some pointee =>
      require (pointee == v.element) (.elementMismatch .atomicRmw pointee v.element)
      require (p.shape == v.shape) (.shapeMismatch .atomicRmw p.shape v.shape)
      g.requireMask v.shape mask
      return ⟨.atomicRmw op ptr value mask, v⟩
  | .gatherAtomicRmw op base values indices mask => do
    let b ← g.known base
    let v ← g.known values
    let i ← g.known indices
    require b.element.isPointer (.notPointer .gatherAtomicRmw b.element)
    require b.isScalar (.notScalar .gatherAtomicRmw b.shape)
    require i.element.isInt (.badElement .gatherAtomicRmw i.element)
    require (i.shape == v.shape) (.shapeMismatch .gatherAtomicRmw v.shape i.shape)
    g.requireGatherMask v.shape mask
    return ⟨.gatherAtomicRmw op base values indices mask, v⟩

/-- Adds an input to a merge. -/
def addMergeInput (g : Graph) (merge input : ValueId) : Attempt Refusal Graph := do
  let m ← g.known merge
  let i ← g.known input
  requireSame .merge m i
  match g.nodes[merge]? with
  | some ⟨.merge inputs, type⟩ => return g.set merge ⟨.merge (inputs ++ [input]), type⟩
  | _ => throw (.refused (.notMerge merge))

/-- Redirects all uses of a value to another of the same type. -/
def replaceAllUses (g : Graph) (old new : ValueId) : Attempt Refusal Graph := do
  let o ← g.known old
  let n ← g.known new
  requireSame .merge o n
  return g.redirectUses old new

end Graph

end TileFacts
