import TileFacts.Rule.Context

/-! Rules of constants, conversions, and operations that lay elements out: ranges, and
values spread over new or longer dimensions. -/
namespace TileFacts.Rule

def constant : Rule := fun ctx facts => do
  ctx.noOperands facts
  match ctx.op with
  | .const value => return .ofConstant value ctx.shape
  | _ => throw (.notA .intConstant ctx.kind)

/-- A conversion keeps what is known. -/
def identity : Rule := fun ctx facts => ctx.oneOperand facts

/-- A range is one contiguous run. -/
def range : Rule := fun ctx facts => do
  ctx.noOperands facts
  match ctx.op with
  | .range start stop =>
    let count ← Word.checkedSub stop start
    return ⟨[⟨Word.powerDivisor start, count, 1⟩], none⟩
  | _ => throw (.notA .range ctx.kind)

/-- A scalar spread over a shape is constant along every dimension. -/
def splat : Rule := fun ctx facts => do
  let source ← ctx.oneOperand facts
  let axes ← ctx.axes fun _ extent => do
    let a ← source.axis 0
    return ⟨a.divisibility, extent, 0⟩
  return ⟨axes, source.constant⟩

/-- A dimension of extent one becomes constant over its new extent; others stay. -/
def broadcast : Rule := fun ctx facts => do
  let source ← ctx.oneOperand facts
  let type ← ctx.operandType 0
  if type.isScalar || type.rank == ctx.type.rank then
    let axes ← ctx.axes fun d extent => do
      let sourceDim := if type.isScalar then 0 else d
      if (← type.extent sourceDim) == 1 then
        let a ← source.axis sourceDim
        return ⟨a.divisibility, extent, 0⟩
      else source.axis d
    return ⟨axes, source.constant⟩
  else throw (.broadcastRank type.rank ctx.type.rank)

/-- A new dimension of extent one says nothing; a scalar already has one. -/
def expandDims : Rule := fun ctx facts => do
  let source ← ctx.oneOperand facts
  match ctx.op with
  | .expandDims _ axis =>
    if (← ctx.operandType 0).isScalar then return source
    else return ⟨← insertAt source.axes axis ⟨1, 1, 0⟩, source.constant⟩
  | _ => throw (.notA .expandDims ctx.kind)

end TileFacts.Rule
