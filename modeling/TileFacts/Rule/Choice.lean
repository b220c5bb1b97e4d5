import TileFacts.Rule.Context
import TileFacts.Operator.Evaluate

/-! Rules of comparisons and of values chosen by them.

A strict comparison of a constant with a contiguous value is constant on runs that do not
cross a common multiple of their divisors. A choice keeps what both branches share, on runs
along which the condition is constant. -/
namespace TileFacts.Rule

/-- The length of runs along which a strict comparison is constant. -/
def strictRun (l r : Axis) (extent : Int64) : Int64 :=
  let both := Word.gcd l.constancy r.constancy
  let common := Word.gcd l.divisibility r.divisibility
  if l.isConstantOver extent && r.isContiguousOver extent then
    max both (Word.gcd r.contiguity common)
  else if l.isContiguousOver extent && r.isConstantOver extent then
    max both (Word.gcd l.contiguity common)
  else both

def comparison : Rule := fun ctx facts => do
  let (lhs, rhs) ← ctx.twoOperands facts
  match ctx.op with
  | .cmp predicate _ _ =>
    match lhs.constant, rhs.constant with
    | some l, some r => return .ofConstant (if predicate.evaluate l r then 1 else 0) ctx.shape
    | _, _ =>
      let axes ← ctx.axes fun d extent => do
        let l ← lhs.axis d
        let r ← rhs.axis d
        return ⟨1, if predicate.isStrict then strictRun l r extent else 1, 0⟩
      return ⟨axes, none⟩
  | _ => throw (.notA .comparison ctx.kind)

def choice : Rule := fun ctx facts => do
  let (cond, onTrue, onFalse) ← ctx.threeOperands facts
  match cond.constant with
  | some value => return if value != 0 then onTrue else onFalse
  | none =>
    let condType ← ctx.operandType 0
    -- One scalar condition decides for the whole of a tensor.
    let decidesAll := condType.isScalar && !ctx.type.isScalar
    let joined ← onTrue.join onFalse
    let axes ← ctx.axes fun d extent => do
      let condRun ← if decidesAll then pure extent else Axis.constancy <$> cond.axis d
      let both ← joined.axis d
      return { both with run := Word.gcd both.run condRun }
    return ⟨axes, joined.constant⟩

end TileFacts.Rule
