import TileFacts.ValueType
import TileFacts.Word

/-! Axis facts: what is known of a value along each of its dimensions.

Along one dimension a value is cut into runs of equal length. The first element of every
run is a multiple of `divisibility`, `run` is a length the runs can be cut to, and `step`
is the difference of neighbours inside a run, `unknownStep` standing for no knowledge. A
step of zero makes a run constant, a step of one makes it contiguous. If the whole value
is known to be one number, that is its `constant`.

Facts form a join semilattice under `Fact.join`; `Fact.weakerOrEqual` tells whether one
fact says no more than another. -/
namespace TileFacts

/-- The step of a dimension of which nothing is known. -/
def unknownStep : Int64 := -1

structure Axis where
  divisibility : Int64
  run : Int64
  step : Int64
  deriving DecidableEq

namespace Axis

/-- Nothing is known. -/
def top : Axis := ⟨1, 1, unknownStep⟩

/-- The length of contiguous runs. -/
def contiguity (a : Axis) : Int64 := if a.step == 1 then a.run else 1

/-- The length of constant runs. -/
def constancy (a : Axis) : Int64 := if a.step == 0 then a.run else 1

def isUnitStep (a : Axis) : Bool := a.step == 1

/-- The whole dimension is one constant run. -/
def isConstantOver (a : Axis) (extent : Int64) : Bool := a.constancy == extent

/-- The whole dimension is one contiguous run. -/
def isContiguousOver (a : Axis) (extent : Int64) : Bool := a.contiguity == extent

/-- The step is known and a run fits the dimension. -/
def isStridedWithin (a : Axis) (extent : Int64) : Bool := a.step != unknownStep && a.run ≤ extent

/-- What two axes have in common. -/
def join (a b : Axis) : Axis where
  divisibility := Word.gcd a.divisibility b.divisibility
  run := Word.gcd a.run b.run
  step := if a.step == b.step then a.step else unknownStep

end Axis

structure Fact where
  axes : List Axis
  constant : Option Int64
  deriving DecidableEq

namespace Fact

def rank (f : Fact) : Nat := f.axes.length

/-- A fact from one vector per property; the vectors must have one length. -/
def ofVectors (divisibilities runs steps : List Int64) (constant : Option Int64) : Checked Fact :=
  if divisibilities.length = runs.length ∧ runs.length = steps.length then
    .ok ⟨(divisibilities.zip (runs.zip steps)).map fun (d, r, s) => ⟨d, r, s⟩, constant⟩
  else .error (.ragged divisibilities.length runs.length steps.length)

/-- Nothing is known of a value with this many dimensions. -/
def top (rank : Nat) : Fact := ⟨List.replicate rank Axis.top, none⟩

/-- Every element is `value`. -/
def ofConstant (value : Int64) (shape : List Int64) : Fact :=
  ⟨shape.map fun extent => ⟨Word.powerDivisor value, extent, 0⟩, some value⟩

/-- Every element is zero. -/
def zero (shape : List Int64) : Fact := ofConstant 0 shape

def isTop (f : Fact) : Bool := f == top f.rank

/-- The fact along one dimension, which the caller promises to exist. -/
def axis (f : Fact) (d : Nat) : Checked Axis := element f.axes d

def divisibilities (f : Fact) : List Int64 := f.axes.map Axis.divisibility

def runs (f : Fact) : List Int64 := f.axes.map Axis.run

def steps (f : Fact) : List Int64 := f.axes.map Axis.step

@[simp] theorem rank_top (n : Nat) : (top n).rank = n := by simp [rank, top]

@[simp] theorem rank_ofConstant (value : Int64) (shape : List Int64) :
    (ofConstant value shape).rank = shape.length := by simp [rank, ofConstant]

/-! ### Join -/

/-- Two constants have a constant in common if they are the same. -/
def commonConstant (a b : Option Int64) : Option Int64 := if a = b then a else none

/-- What two facts of one rank have in common. -/
def join (a b : Fact) : Checked Fact :=
  if a.rank = b.rank then
    .ok ⟨List.zipWith Axis.join a.axes b.axes, commonConstant a.constant b.constant⟩
  else .error (.disagree .joinedRanks a.rank b.rank)

theorem rank_of_join {a b c : Fact} (h : a.join b = .ok c) : a.rank = c.rank ∧ b.rank = c.rank := by
  unfold join at h
  split at h
  · next hr =>
    cases h
    simp only [rank] at hr ⊢
    simp [hr]
  · cases h

/-! ### Order of precision -/

/-- `x` divides `y`. A zero divides nothing, not even zero. -/
def divides (x y : Int64) : Checked Bool :=
  if x == 0 then .ok false else (· == 0) <$> Word.checkedRem y x

/-- Every pair is in order; pairs after the first that is not are not looked at. -/
def dividesAll : List (Int64 × Int64) → Checked Bool
  | [] => .ok true
  | (x, y) :: rest => do
    if ← divides x y then dividesAll rest else return false

/-- A step says no more than another if it is unknown or the same. -/
def stepWeaker (x y : Int64) : Bool := x == unknownStep || x == y

/-- Whether `a` says no more than `b`: divisors and runs divide those of `b`, steps and the
constant are those of `b` or unknown. Divisors are compared before runs. -/
def weakerOrEqual (a b : Fact) : Checked Bool :=
  if a.rank ≠ b.rank then .ok false
  else do
    if ← dividesAll (a.divisibilities.zip b.divisibilities) then
      if ← dividesAll (a.runs.zip b.runs) then
        return (a.steps.zip b.steps).all (fun (x, y) => stepWeaker x y) &&
          (a.constant.isNone || a.constant == b.constant)
      else return false
    else return false

/-! ### Text -/

def constantText : Option Int64 → String
  | some value => toString value
  | none => "none"

def text (f : Fact) : String :=
  "\x7bdiv=" ++ bracketed (f.divisibilities.map toString) ++ ", stride=" ++
    bracketed (f.runs.map toString) ++ ", step=" ++ bracketed (f.steps.map toString) ++
    ", const=" ++ constantText f.constant ++ "\x7d"

end Fact

end TileFacts
