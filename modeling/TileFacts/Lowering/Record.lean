import TileFacts.Access
import TileFacts.Operator

/-! What is reported of a lowered atomic update. -/
namespace TileFacts

/-- An update of one element goes through a tensor of one; an update of a tensor is
scattered over the memory behind its base. -/
inductive LoweringPath where
  | scalar
  | scattered
  deriving DecidableEq

def LoweringPath.name : LoweringPath → String
  | .scalar => "Scalar"
  | .scattered => "Scattered"

structure LoweringRecord where
  atomic : ValueId
  /-- The value that takes over all uses. -/
  replacement : ValueId
  op : AtomicOp
  path : LoweringPath
  pattern : AccessPattern
  deriving DecidableEq

end TileFacts
