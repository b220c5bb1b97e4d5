import TileFacts.Operator

/-! The kinds of operation a value can be defined by. A kind says what is computed but not
from which operands: rules are chosen by kind, and messages name it. -/
namespace TileFacts

inductive Kind where
  | const
  | constFloat
  | arg
  | cast (op : CastOp)
  | binary (op : BinaryOp)
  | addPtr
  | cmp
  | select
  | range
  | splat
  | broadcast
  | expandDims
  | reshape
  | merge
  | atomicRmw
  | gatherAtomicRmw
  deriving DecidableEq, Inhabited

namespace Kind

def all : List Kind :=
  [const, constFloat, arg] ++ CastOp.all.map cast ++ BinaryOp.all.map binary ++
    [addPtr, cmp, select, range, splat, broadcast, expandDims, reshape, merge, atomicRmw,
      gatherAtomicRmw]

def name : Kind → String
  | const => "Const"
  | constFloat => "ConstFloat"
  | arg => "Arg"
  | cast op => s!"Cast({op.name})"
  | binary op => s!"Binary({op.name})"
  | addPtr => "AddPtr"
  | cmp => "Cmp"
  | select => "Select"
  | range => "MakeRange"
  | splat => "Splat"
  | broadcast => "Broadcast"
  | expandDims => "ExpandDims"
  | reshape => "Reshape"
  | merge => "Merge"
  | atomicRmw => "AtomicRmw"
  | gatherAtomicRmw => "GatherAtomicRmw"

theorem mem_all (k : Kind) : k ∈ all := by
  cases k with
  | cast op => cases op <;> decide
  | binary op => cases op <;> decide
  | _ => decide

end Kind

end TileFacts
