import TileFacts.Session

/-! Why an atomic update cannot be lowered, and which primitive serves which update. -/
namespace TileFacts

inductive LoweringRefusal where
  | unsupported (op : RmwOp) (element : Element)
  | untracked (value : ValueId) (kind : Kind)
  | notAtomic (value : ValueId)
  /-- A value needed on the way was refused by the graph. -/
  | graph (reason : Refusal)
  deriving DecidableEq

def LoweringRefusal.message : LoweringRefusal → String
  | .unsupported op element => s!"no atomic primitive for {op.name} on {element.text}"
  | .untracked value kind => s!"cannot track pointer {valueText value} through {kind.name}"
  | .notAtomic value => s!"{valueText value} is not an atomic read-modify-write"
  | .graph reason => s!"IR error: {reason.message}"

/-- Constructions that are part of a lowering. -/
abbrev Lowering := Build LoweringRefusal

/-- Adds a value on behalf of a lowering. -/
def Lowering.define (d : Definition) : Lowering ValueId := Build.within .graph (Build.define d)

/-- The type of a value of the graph. -/
def Lowering.typeOf (v : ValueId) : Lowering ValueType := Build.inspect fun g => g.type v

/-- The primitive for an update of elements of one type. Maximum and minimum exist for
integers and floats, their unsigned forms and the exchange for everything. -/
def RmwOp.primitive (op : RmwOp) (element : Element) : Attempt LoweringRefusal AtomicOp :=
  let forInt (p : AtomicOp) := if element.isInt then some p else none
  let forFloat (p : AtomicOp) := if element.isFloat then some p else none
  let found := match op with
    | .and => forInt .andI
    | .or => forInt .orI
    | .xor => forInt .xorI
    | .add => forInt .addI
    | .fadd => forFloat .addF
    | .max => forInt .maxS <|> forFloat .maximumF
    | .min => forInt .minS <|> forFloat .minimumF
    | .umax => some .maxU
    | .umin => some .minU
    | .xchg => some .xchg
  match found with
  | some p => .ok p
  | none => .error (.refused (.unsupported op element))

end TileFacts
