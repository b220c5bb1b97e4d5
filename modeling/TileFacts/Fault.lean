import TileFacts.Kind

/-! Faults: broken contracts.

A fault says that a caller broke a promise or that a number left the machine's range. It
is never the answer to a well-formed request; a request that is turned down for a reason
of the domain is a refusal instead. Each fault is a cause, and `Fault.message` is the only
place where causes are put into words. -/
namespace TileFacts

/-- Values are named by their position in the graph. -/
abbrev ValueId := Nat

/-- How a value is written in messages. -/
def valueText (v : ValueId) : String := s!"%{v}"

/-- Word operations whose result may leave the range of 64 bits. -/
inductive Arithmetic where
  | add
  | sub
  | mul
  | div
  | rem
  | shl
  | shr
  deriving DecidableEq

def Arithmetic.phrase : Arithmetic → String
  | .add => "add"
  | .sub => "subtract"
  | .mul => "multiply"
  | .div => "divide"
  | .rem => "calculate the remainder"
  | .shl => "shift left"
  | .shr => "shift right"

/-- Two numbers that a contract requires to be equal. -/
inductive Agreement where
  /-- The ranks of two joined facts. -/
  | joinedRanks
  /-- A dimension of a scalar, and zero. -/
  | scalarDimension
  /-- How many operand facts a rule is given, and its arity. -/
  | operandCount (kind : Kind) (arity : Nat)
  /-- The rank of an operand's fact, and of its type. -/
  | operandRank (kind : Kind) (position : Nat)
  /-- The rank of the fact a rule produced, and of the result's type. -/
  | resultRank (kind : Kind)
  deriving DecidableEq

def Agreement.text : Agreement → String
  | .joinedRanks => "cannot join axis info of different ranks"
  | .scalarDimension => "scalar values have a single degenerate dimension"
  | .operandCount kind arity => s!"{kind.name} expects {arity} operand facts"
  | .operandRank kind position =>
    s!"operand {position} of {kind.name} has a fact of the wrong rank"
  | .resultRank kind => s!"{kind.name} handler produced a fact of the wrong rank"

/-- What a rule requires the operation to be. -/
inductive Requirement where
  | binary
  | comparison
  | intConstant
  | range
  | expandDims
  deriving DecidableEq

def Requirement.phrase : Requirement → String
  | .binary => "a binary operation"
  | .comparison => "a comparison"
  | .intConstant => "an integer constant"
  | .range => "a range"
  | .expandDims => "expand_dims"

inductive Fault where
  | overflow (operation : Arithmetic)
  | divisionByZero
  | remainderByZero
  /-- The logarithm of a word that is not positive. -/
  | noLogarithm
  | outOfBounds (length index : Nat)
  | insertionOutOfBounds (length index : Nat)
  | disagree (agreement : Agreement) (left right : Nat)
  /-- The three vectors of a fact differ in length. -/
  | ragged (divisibilities runs steps : Nat)
  | pointerToPointer
  | notInGraph (value : ValueId)
  | notA (requirement : Requirement) (kind : Kind)
  | broadcastRank (source result : Nat)
  /-- A pointer is computed from itself. -/
  | endlessPointer (value : ValueId)
  deriving DecidableEq

def Fault.message : Fault → String
  | .overflow operation => s!"attempt to {operation.phrase} with overflow"
  | .divisionByZero => "attempt to divide by zero"
  | .remainderByZero => "attempt to calculate the remainder with a divisor of zero"
  | .noLogarithm => "argument of integer logarithm must be positive"
  | .outOfBounds length index =>
    s!"index out of bounds: the len is {length} but the index is {index}"
  | .insertionOutOfBounds length index =>
    s!"insertion index (is {index}) should be <= len (is {length})"
  | .disagree agreement left right =>
    s!"assertion `left == right` failed: {agreement.text}\n  left: {left}\n right: {right}"
  | .ragged divisibilities runs steps =>
    s!"axis info rank mismatch: divisibility {divisibilities}, stride {runs}, stride value {steps}"
  | .pointerToPointer => "Cannot make a pointer from a pointer"
  | .notInGraph value => s!"{valueText value} is not part of the graph"
  | .notA requirement kind => s!"{kind.name} is not {requirement.phrase}"
  | .broadcastRank source result =>
    s!"broadcast source rank {source} differs from result rank {result}"
  | .endlessPointer value => s!"pointer {valueText value} is computed from itself"

/-- Computations that may run into a fault. -/
abbrev Checked := Except Fault

/-- A sequence of computations succeeds if each of them does. -/
theorem bind_eq_ok {ε α β : Type} {x : Except ε α} {f : α → Except ε β} {b : β} :
    (x >>= f) = .ok b ↔ ∃ a, x = .ok a ∧ f a = .ok b := by
  cases x <;> simp [bind, Except.bind]

/-- The element at a position, which the caller promises to exist. -/
def element {α : Type} (xs : List α) (i : Nat) : Checked α :=
  match xs[i]? with
  | some x => .ok x
  | none => .error (.outOfBounds xs.length i)

theorem element_eq_ok {α : Type} {xs : List α} {i : Nat} {x : α} :
    element xs i = .ok x ↔ xs[i]? = some x := by
  unfold element
  split <;> simp_all

/-- The list with one more element, at a position which the caller promises to be in the list or
at its end. -/
def insertAt {α : Type} (xs : List α) (i : Nat) (x : α) : Checked (List α) :=
  if i ≤ xs.length then .ok (xs.insertIdx i x) else .error (.insertionOutOfBounds xs.length i)

theorem insertAt_eq_ok {α : Type} {xs ys : List α} {i : Nat} {x : α} :
    insertAt xs i x = .ok ys ↔ i ≤ xs.length ∧ ys = xs.insertIdx i x := by
  unfold insertAt
  split
  · next h => simp [h, eq_comm]
  · next h => simp [h]

end TileFacts
