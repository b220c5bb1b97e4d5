import TileFacts.Fact

/-! Access patterns: how memory is touched by a tensor of offsets.

Only the last dimension matters, since neighbouring lanes of the hardware walk along it.
Offsets that do not change there touch one place; offsets that count up touch a block, which
is aligned if the fact says so; offsets with another known step touch every so many places;
anything else has to be gathered. -/
namespace TileFacts

inductive AccessPattern where
  | uniform
  | contiguous (width : Int64) (aligned : Bool)
  | strided (step : Int64)
  | gather
  deriving DecidableEq

namespace AccessPattern

/-- The pattern along a dimension of the given extent. -/
def ofAxis (a : Axis) (extent : Int64) : Checked AccessPattern :=
  if extent ≤ a.constancy then .ok uniform
  else if 1 < a.contiguity then do
    let width := min a.contiguity extent
    let rest ← Word.checkedRem a.divisibility width
    return contiguous width (rest == 0)
  else if 1 < a.run && a.isStridedWithin extent && a.step != 0 then .ok (strided a.step)
  else .ok gather

/-- The pattern of offsets of the given type, by their fact. -/
def classify (fact : Fact) (type : ValueType) : Checked AccessPattern := do
  let last := type.factShape.length - 1
  let extent ← element type.factShape last
  ofAxis (← fact.axis last) extent

/-- Patterns that one wide memory access can serve. -/
def isVectorizable : AccessPattern → Bool
  | uniform => true
  | contiguous .. => true
  | strided _ => false
  | gather => false

def text : AccessPattern → String
  | uniform => "uniform"
  | contiguous width true => s!"contiguous({width}, aligned)"
  | contiguous width false => s!"contiguous({width})"
  | strided step => s!"strided({step})"
  | gather => "gather"

end AccessPattern

end TileFacts
