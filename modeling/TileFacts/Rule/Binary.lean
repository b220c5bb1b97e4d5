import TileFacts.Rule.Context
import TileFacts.Operator.Evaluate

/-! Rules of binary operators.

A `Policy` says what an operator does along one dimension, and how constants combine;
`Policy.rule` is the machinery that all policies share: if the result is a known constant
the fact follows from it, otherwise each dimension follows the policy.

Sums keep what divides both operands. Products multiply divisors and keep runs along which
one operand is constant. Shifts by a known amount act as products with or quotients by a
power of two. Logic and extrema keep nothing but constants. -/
namespace TileFacts

/-- A fact along one dimension, with the constant of the whole. -/
structure Lane extends Axis where
  constant : Option Int64

def Fact.lane (f : Fact) (d : Nat) : Checked Lane := do
  return ⟨← f.axis d, f.constant⟩

/-- The constant two constants combine to. -/
def BinaryOp.fold (op : BinaryOp) : Option Int64 → Option Int64 → Option Int64
  | some l, some r => op.evaluate l r
  | _, _ => none

structure Policy where
  divisibility : BinaryOp → Lane → Lane → Checked Int64
  run : BinaryOp → Lane → Lane → Int64
  step : BinaryOp → Lane → Lane → Checked Int64
  constant : BinaryOp → Option Int64 → Option Int64 → Option Int64

namespace Policy

/-- One dimension of the result, given its constant if it has one. -/
def axis (policy : Policy) (op : BinaryOp) (l r : Lane) : Option Int64 → Checked Axis
  | some value => .ok ⟨Word.powerDivisor value, max l.run r.run, 0⟩
  | none => do
    let divisibility ← policy.divisibility op l r
    let step ← policy.step op l r
    return ⟨divisibility, policy.run op l r, step⟩

def rule (policy : Policy) : Rule := fun ctx facts => do
  let (lhs, rhs) ← ctx.twoOperands facts
  let op ← ctx.binaryOp
  let constant := policy.constant op lhs.constant rhs.constant
  let axes ← ctx.axes fun d _ => do
    policy.axis op (← lhs.lane d) (← rhs.lane d) constant
  return ⟨axes, constant⟩

/-! ### Sums and differences -/

/-- Steps add up, or are taken from each other. -/
def sumStep (op : BinaryOp) (l r : Int64) : Int64 :=
  if l == unknownStep || r == unknownStep then unknownStep
  else if op == .sub then l - r
  else l + r

def sum : Policy where
  divisibility _ l r := .ok (Word.gcd l.divisibility r.divisibility)
  run _ l r := Word.gcd l.run r.run
  step op l r := .ok (sumStep op l.step r.step)
  constant := BinaryOp.fold

/-! ### Products -/

/-- A step multiplied by a constant, if there is one and the product fits. -/
def scaledStep (step : Int64) (factor : Option Int64) : Int64 :=
  ((factor.bind (Word.mul? step)).getD unknownStep)

def productStep (l r : Lane) : Int64 :=
  if l.step == unknownStep || r.step == unknownStep then unknownStep
  else max (scaledStep l.step r.constant) (scaledStep r.step l.constant)

def product : Policy where
  divisibility _ l r := do
    Word.scaleUp l.divisibility (Int64.ofNat (← Word.checkedLog2 r.divisibility))
  run _ l r := max (Word.gcd l.constancy r.run) (Word.gcd l.run r.constancy)
  step _ l r := .ok (productStep l r)
  constant := BinaryOp.fold

/-! ### Shifts -/

/-- The amount of a shift, if it is known and usable. -/
def shiftAmount (r : Lane) : Option Int64 := r.constant.filter isShiftAmount

/-- A step moved up by `shift` bits, if the result is within the tracked powers. -/
def shiftedStep (step shift : Int64) : Checked Int64 := do
  let factor ← Word.checkedShl 1 shift
  return ((Word.mul? step factor).filter fun s =>
    s.toInt.natAbs ≤ Word.maxPower.toInt.natAbs).getD unknownStep

def shiftLeft : Policy where
  divisibility _ l r :=
    match shiftAmount r with
    | some shift => Word.scaleUp l.divisibility shift
    | none => .ok 1
  run _ l r := if (shiftAmount r).isSome then l.run else 1
  step _ l r :=
    match shiftAmount r with
    | some shift => if l.step == unknownStep then .ok unknownStep else shiftedStep l.step shift
    | none => .ok unknownStep
  constant := BinaryOp.fold

def shiftRight : Policy where
  divisibility _ l r :=
    match shiftAmount r with
    | some shift => do return max (← Word.checkedShr l.divisibility shift) 1
    | none => .ok 1
  run _ l r := if shiftAmount r == some 0 then l.run else 1
  step _ l r := .ok (if shiftAmount r == some 0 then l.step else unknownStep)
  constant := BinaryOp.fold

end Policy

namespace Rule

def sum : Rule := Policy.sum.rule

def product : Rule := Policy.product.rule

def shiftLeft : Rule := Policy.shiftLeft.rule

def shiftRight : Rule := Policy.shiftRight.rule

/-- Operators whose result is one of their operands. -/
def isExtremum : BinaryOp → Bool
  | .maxS | .maxU | .minS | .minU => true
  | _ => false

/-- Bitwise operators and extrema, on constants only. An extremum keeps the fact of the
operand it equals. -/
def logic : Rule := fun ctx facts => do
  let (lhs, rhs) ← ctx.twoOperands facts
  let op ← ctx.binaryOp
  match op.fold lhs.constant rhs.constant with
  | none => return .top ctx.rank
  | some value =>
    if isExtremum op then return if lhs.constant == some value then lhs else rhs
    else return ⟨(Fact.top ctx.rank).axes, some value⟩

end Rule

end TileFacts
