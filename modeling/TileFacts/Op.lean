import TileFacts.Kind
import TileFacts.Fault

/-! Operations: what defines a value, and from which operands.

`operands` lists the operands in position, a mask last; `mapOperands` renames them and
keeps everything else. -/
namespace TileFacts

inductive Op where
  | const (value : Int64)
  /-- A float, by the bits of its 64-bit format. -/
  | constFloat (bits : UInt64)
  | arg (index : Nat)
  | cast (op : CastOp) (source : ValueId)
  | binary (op : BinaryOp) (lhs rhs : ValueId)
  | addPtr (ptr offset : ValueId)
  | cmp (predicate : Comparison) (lhs rhs : ValueId)
  | select (cond onTrue onFalse : ValueId)
  /-- The numbers from `start` up to `stop`, which is left out. -/
  | range (start stop : Int64)
  | splat (source : ValueId)
  | broadcast (source : ValueId)
  | expandDims (source : ValueId) (axis : Nat)
  | reshape (source : ValueId)
  | merge (inputs : List ValueId)
  | atomicRmw (op : RmwOp) (ptr value : ValueId) (mask : Option ValueId)
  | gatherAtomicRmw (op : AtomicOp) (base values indices : ValueId) (mask : Option ValueId)
  deriving DecidableEq

namespace Op

def kind : Op → Kind
  | const _ => .const
  | constFloat _ => .constFloat
  | arg _ => .arg
  | cast op _ => .cast op
  | binary op _ _ => .binary op
  | addPtr .. => .addPtr
  | cmp .. => .cmp
  | select .. => .select
  | range .. => .range
  | splat _ => .splat
  | broadcast _ => .broadcast
  | expandDims .. => .expandDims
  | reshape _ => .reshape
  | merge _ => .merge
  | atomicRmw .. => .atomicRmw
  | gatherAtomicRmw .. => .gatherAtomicRmw

def operands : Op → List ValueId
  | const _ | constFloat _ | arg _ | range .. => []
  | cast _ source | splat source | broadcast source | expandDims source _ | reshape source =>
    [source]
  | binary _ lhs rhs | cmp _ lhs rhs => [lhs, rhs]
  | addPtr ptr offset => [ptr, offset]
  | select cond onTrue onFalse => [cond, onTrue, onFalse]
  | merge inputs => inputs
  | atomicRmw _ ptr value mask => [ptr, value] ++ mask.toList
  | gatherAtomicRmw _ base values indices mask => [base, values, indices] ++ mask.toList

def mapOperands (f : ValueId → ValueId) : Op → Op
  | const value => const value
  | constFloat bits => constFloat bits
  | arg index => arg index
  | cast op source => cast op (f source)
  | binary op lhs rhs => binary op (f lhs) (f rhs)
  | addPtr ptr offset => addPtr (f ptr) (f offset)
  | cmp predicate lhs rhs => cmp predicate (f lhs) (f rhs)
  | select cond onTrue onFalse => select (f cond) (f onTrue) (f onFalse)
  | range start stop => range start stop
  | splat source => splat (f source)
  | broadcast source => broadcast (f source)
  | expandDims source axis => expandDims (f source) axis
  | reshape source => reshape (f source)
  | merge inputs => merge (inputs.map f)
  | atomicRmw op ptr value mask => atomicRmw op (f ptr) (f value) (mask.map f)
  | gatherAtomicRmw op base values indices mask =>
    gatherAtomicRmw op (f base) (f values) (f indices) (mask.map f)

@[simp] theorem operands_mapOperands (f : ValueId → ValueId) (op : Op) :
    (op.mapOperands f).operands = op.operands.map f := by
  cases op with
  | atomicRmw _ _ _ mask => cases mask <;> rfl
  | gatherAtomicRmw _ _ _ _ mask => cases mask <;> rfl
  | _ => rfl

@[simp] theorem kind_mapOperands (f : ValueId → ValueId) (op : Op) :
    (op.mapOperands f).kind = op.kind := by
  cases op <;> rfl

/-- Operations that change memory; they must run even if their value is not used. -/
def hasSideEffects : Op → Bool
  | atomicRmw .. | gatherAtomicRmw .. => true
  | _ => false

end Op

/-! ### Equality of operations

Two operations are equal when they have the same parts, floats compared as numbers: a
NaN differs from itself, and the two zeros are equal. -/

/-- The bits of a float without its sign. -/
def floatMagnitude (bits : UInt64) : UInt64 := bits &&& 0x7fffffffffffffff

def floatIsNaN (bits : UInt64) : Bool := 0x7ff0000000000000 < floatMagnitude bits

/-- Equality of the numbers that two bit patterns stand for. -/
def floatEqual (a b : UInt64) : Bool :=
  !floatIsNaN a && !floatIsNaN b && (a == b || (floatMagnitude a == 0 && floatMagnitude b == 0))

def Op.equal : Op → Op → Bool
  | constFloat a, constFloat b => floatEqual a b
  | a, b => a == b

end TileFacts
