import TileFacts.Lowering.Address
import TileFacts.Inference

/-! Lowering of atomic updates.

An atomic update through a tensor of pointers becomes a gathered update: one base pointer,
a flat tensor of indices, a flat tensor of values, and a mask of bytes. An update of a single
element is brought into the same form with a tensor of one. The new value takes over all uses
of the old one, which stays in the graph unused.

`Lowering.one` lowers a single update, `Lowering.all` every update of a graph with facts
inferred once, before the first is replaced. -/
namespace TileFacts.Lowering

/-- An update that is about to be lowered. -/
structure Target where
  atomic : ValueId
  op : RmwOp
  value : ValueId
  mask : Option ValueId
  address : Address
  deriving DecidableEq

/-- Splits the pointer of an update into base and offset. -/
def target (atomic : ValueId) : Lowering Target := do
  match ← Build.inspect fun g => g.op atomic with
  | .atomicRmw op ptr value mask => return ⟨atomic, op, value, mask, ← Address.track ptr⟩
  | _ => throw (.refused (.notAtomic atomic))

/-! ### Replacement -/

/-- A value brought to a flat shape, unless it has it. -/
def flatten (v : ValueId) (shape : Shape) : Lowering ValueId := do
  if (← typeOf v).shape == shape then return v
  else define (.reshape v shape)

/-- A mask brought to a flat shape of bytes. -/
def widenMask (shape : Shape) : Option ValueId → Lowering (Option ValueId)
  | none => return none
  | some mask => do
    let flat ← flatten mask shape
    some <$> define (.cast .extS flat .i8)

/-- The zero of a type. -/
def zero (type : ValueType) : Definition :=
  if type.element.isFloat then .constFloat 0 type else .const 0 type

/-- An update of one element. Where the mask is off the result is zero. -/
def lowerScalar (t : Target) (op : AtomicOp) (type : ValueType) : Lowering ValueId := do
  let base ← define (.addPtr t.address.base t.address.offset)
  let values ← define (.reshape t.value [1])
  let index ← define (.const 0 ⟨.i32, [1]⟩)
  let wide ← widenMask [1] t.mask
  let gathered ← define (.gatherAtomicRmw op base values index wide)
  let result ← define (.reshape gathered [])
  match t.mask with
  | none => return result
  | some mask =>
    let off ← define (zero type)
    define (.select mask result off)

/-- An update of a tensor. -/
def lowerScattered (t : Target) (op : AtomicOp) (type : ValueType) : Lowering ValueId := do
  let count ← Build.attempt (checked type.shape.numElements)
  let values ← flatten t.value [count]
  let indices ← flatten t.address.offset [count]
  let mask ← widenMask [count] t.mask
  let gathered ← define (.gatherAtomicRmw op t.address.base values indices mask)
  if type.rank == 1 then return gathered
  else define (.reshape gathered type.shape)

/-- Builds the replacement of an update and redirects all uses to it. -/
def replace (t : Target) (pattern : AccessPattern) : Lowering LoweringRecord := do
  let type ← typeOf t.atomic
  let op ← Build.attempt (t.op.primitive type.element)
  let path := if type.isScalar then LoweringPath.scalar else .scattered
  let replacement ← match path with
    | .scalar => lowerScalar t op type
    | .scattered => lowerScattered t op type
  let record := ⟨t.atomic, replacement, op, path, pattern⟩
  Build.emit [.lowered record]
  Build.within .graph (Build.replaceAllUses t.atomic replacement)
  return record

/-! ### Whole updates -/

/-- Infers facts for the graph as it stands. -/
def infer (settings : Settings) : Lowering Inference := do
  let (events, result) := Inference.run (← Build.graph) .standard settings
  Build.emit events
  Build.attempt (checked result)

/-- How memory is accessed at an offset. -/
def accessPattern (inference : Inference) (offset : ValueId) : Lowering AccessPattern :=
  Build.inspect fun g => do
    AccessPattern.classify (← inference.get offset) (← g.type offset)

/-- Lowers one update. -/
def one (settings : Settings) (atomic : ValueId) : Lowering LoweringRecord := do
  let t ← target atomic
  let inference ← infer settings
  let pattern ← accessPattern inference t.address.offset
  replace t pattern

/-- The replacement of a value that has been lowered, any other value itself. -/
def resolve (done : List LoweringRecord) (v : ValueId) : ValueId :=
  match done.find? fun r => r.atomic == v with
  | some r => r.replacement
  | none => v

/-- A target as it reads after earlier replacements: its operands may be among them. -/
def refresh (done : List LoweringRecord) (t : Target) : Lowering Target := do
  let (value, mask) ← match ← Build.inspect fun g => g.op t.atomic with
    | .atomicRmw _ _ value mask => pure (value, mask)
    | _ => pure (t.value, t.mask)
  return { t with
    value := resolve done value
    mask := mask.map (resolve done)
    address := t.address.map (resolve done) }

/-- Replaces the targets in turn, given those done before. -/
def replaceAll (inference : Inference) (done : List LoweringRecord) :
    List Target → Lowering (List LoweringRecord)
  | [] => return done
  | t :: rest => do
    let pattern ← accessPattern inference t.address.offset
    let fresh ← refresh done t
    let record ← replace fresh pattern
    replaceAll inference (done ++ [record]) rest

/-- The atomic updates of a graph, in order of definition. -/
def atomics (g : Graph) : List ValueId :=
  (g.nodes.zipIdx.filter fun (node, _) => node.op.kind == .atomicRmw).map Prod.snd

/-- Lowers every update of the graph. The first failure ends it, and what was built and
replaced until then stays. -/
def all (settings : Settings) : Lowering (List LoweringRecord) := do
  let g ← Build.graph
  Build.emit [.loweringStarted g.size]
  match atomics g with
  | [] => return []
  | updates =>
    let targets ← updates.mapM target
    let inference ← infer settings
    let records ← replaceAll inference [] targets
    Build.emit [.loweringDone records.length]
    return records

end TileFacts.Lowering
