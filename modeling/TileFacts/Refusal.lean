import TileFacts.ValueType

/-! Refusals: why a request to the graph is turned down, and how a request can end.

An attempt ends with a result, with a refusal, or with a fault. Refusals leave the graph
as it was and are put into words by `Refusal.message`. -/
namespace TileFacts

inductive Refusal where
  | unknownValue (value : ValueId) (size : Nat)
  | elementMismatch (kind : Kind) (left right : Element)
  | badElement (kind : Kind) (element : Element)
  | shapeMismatch (kind : Kind) (left right : Shape)
  | notScalar (kind : Kind) (shape : Shape)
  | zeroExtent (shape : Shape)
  | cannotBroadcast (source target : Shape)
  | sizeMismatch (input output : Nat)
  | badAxis (axis rank : Nat)
  | emptyRange (start stop : Int64)
  | notBool (element : Element)
  | notPointer (kind : Kind) (element : Element)
  | notMerge (value : ValueId)
  deriving DecidableEq

def Refusal.message : Refusal → String
  | .unknownValue value size => s!"unknown value ValueId({value}) (graph has {size} values)"
  | .elementMismatch kind left right =>
    s!"dtype mismatch in {kind.name}: {left.text} vs {right.text}"
  | .badElement kind element => s!"invalid dtype for {kind.name}: {element.text}"
  | .shapeMismatch kind left right =>
    s!"shape mismatch in {kind.name}: {left.text} vs {right.text}"
  | .notScalar kind shape => s!"{kind.name} requires a scalar operand, got shape {shape.text}"
  | .zeroExtent shape => s!"shape {shape.text} has a zero extent"
  | .cannotBroadcast source target => s!"cannot broadcast {source.text} to {target.text}"
  | .sizeMismatch input output =>
    s!"reshape size mismatch: input size {input} != output size {output}"
  | .badAxis axis rank => s!"expand_dims axis {axis} is invalid for rank {rank}"
  | .emptyRange start stop => s!"make_range requires start < end, got [{start}, {stop})"
  | .notBool element => s!"select condition must be i1, got {element.text}"
  | .notPointer kind element => s!"{kind.name} requires a pointer operand, got {element.text}"
  | .notMerge value => s!"ValueId({value}) is not defined by a merge"

/-- How a request fails: for a reason of the domain, or by a broken contract. -/
inductive Failure (ε : Type) where
  | refused (reason : ε)
  | fault (cause : Fault)
  deriving DecidableEq

/-- The same failure, its reason seen as part of a larger vocabulary. -/
def Failure.map {ε δ : Type} (f : ε → δ) : Failure ε → Failure δ
  | .refused reason => .refused (f reason)
  | .fault cause => .fault cause

abbrev Attempt (ε : Type) := Except (Failure ε)

/-- A checked computation as part of an attempt. -/
def checked {ε α : Type} (x : Checked α) : Attempt ε α := x.mapError .fault

/-- Goes on if the condition holds. -/
def require {ε : Type} (condition : Bool) (reason : ε) : Attempt ε Unit :=
  if condition then .ok () else .error (.refused reason)

@[simp] theorem require_eq_ok {ε : Type} {condition : Bool} {reason : ε} {u : Unit} :
    require condition reason = .ok u ↔ condition = true := by
  cases condition <;> simp [require]

@[simp] theorem checked_eq_ok {ε α : Type} {x : Checked α} {a : α} :
    (checked x : Attempt ε α) = .ok a ↔ x = .ok a := by
  cases x with
  | error fault => constructor <;> rintro ⟨⟩
  | ok b =>
    constructor
    · rintro ⟨⟩
      rfl
    · rintro ⟨⟩
      rfl

/-! ### Shapes -/

/-- The shape, unless it has an extent of zero. -/
def Shape.validate (shape : Shape) : Attempt Refusal Shape := do
  require (!shape.hasZero) (.zeroExtent shape)
  return shape

/-- Goes on if a value of the one shape stretches to the other. -/
def Shape.requireStretch (source target : Shape) : Attempt Refusal Unit :=
  require (source.stretchesTo target) (.cannotBroadcast source target)

end TileFacts
