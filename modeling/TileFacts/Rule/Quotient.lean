import TileFacts.Rule.Binary

/-! Rules of quotients and remainders.

Dividing by one, or dividing zero, needs no arithmetic. Two constants give a constant whose
runs are those of the dividend. Otherwise something is kept only where a contiguous or
strided dividend meets a divisor that is constant along the dimension: then quotients step
by the divided step inside shorter runs, and remainders count up from zero inside runs that
end at multiples of both. -/
namespace TileFacts.Rule

/-- The quotient by one, and the quotient of zero, is the dividend. -/
def keepsDividend (lhs rhs : Fact) : Bool := rhs.constant == some 1 || lhs.constant == some 0

/-- One dimension of the quotient of values that are not both constant. -/
def quotientAxis (l r : Lane) (extent : Int64) : Checked Axis :=
  match r.constant with
  | none => .ok .top
  | some divisor =>
    if Word.isPowerOfTwo divisor && !l.isConstantOver extent && l.isStridedWithin extent &&
        r.isConstantOver extent && Word.isPowerOfTwo l.step then do
      let common := Word.gcd l.divisibility r.divisibility
      let run := Word.gcd l.run (max (← Word.checkedDiv common l.step) 1)
      let divisibility ←
        if run == l.run then Word.checkedScaleDown l.divisibility divisor else pure 1
      return ⟨divisibility, run, ← Word.checkedDiv l.step divisor⟩
    else .ok .top

def quotient : Rule := fun ctx facts => do
  let (lhs, rhs) ← ctx.twoOperands facts
  let op ← ctx.binaryOp
  if keepsDividend lhs rhs then return lhs
  else
    let quotient := op.fold lhs.constant rhs.constant
    let axes ← ctx.axes fun d extent => do
      let l ← lhs.lane d
      let r ← rhs.lane d
      match quotient with
      | some q => return ⟨Word.powerDivisor q, l.constancy, 0⟩
      | none => quotientAxis l r extent
    return ⟨axes, quotient⟩

/-- One dimension of the remainder of values that are not both constant. -/
def remainderAxis (l r : Lane) (extent : Int64) : Axis :=
  if l.isContiguousOver extent && r.isConstantOver extent then
    let common := Word.gcd l.divisibility r.divisibility
    ⟨common, Word.gcd l.contiguity common, 1⟩
  else .top

def remainder : Rule := fun ctx facts => do
  let (lhs, rhs) ← ctx.twoOperands facts
  let op ← ctx.binaryOp
  if keepsDividend lhs rhs then return .zero ctx.shape
  else
    let remainder := op.fold lhs.constant rhs.constant
    let axes ← ctx.axes fun d extent => do
      let l ← lhs.lane d
      let r ← rhs.lane d
      match remainder with
      | some q => return ⟨Word.powerDivisor q, l.constancy, 0⟩
      | none => return remainderAxis l r extent
    return ⟨axes, remainder⟩

end TileFacts.Rule
