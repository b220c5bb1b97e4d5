import TileFacts.Lowering.Record

/-! The log: what happened, in order.

Every stage reports what it does as events. An event carries the values it speaks of, and
`Event.line` is how it is written. -/
namespace TileFacts

inductive Event where
  | created (value : ValueId) (kind : Kind) (type : ValueType)
  | redirected (old new : ValueId)
  | ruleReplaced (kind : Kind)
  | ruleMissing (value : ValueId) (kind : Kind)
  | inferenceStarted (size : Nat)
  | pinned (value : ValueId) (visits : Nat)
  | updated (value : ValueId) (fact : Fact)
  | converged (iterations analysed : Nat)
  | inferred (value : ValueId) (kind : Kind) (fact : Fact)
  | tracked (pointer base offset : ValueId)
  | loweringStarted (size : Nat)
  | lowered (record : LoweringRecord)
  | loweringDone (count : Nat)
  deriving DecidableEq

def Event.line : Event → String
  | .created value kind type =>
    s!"TRACE created value value={valueText value} kind={kind.name} ty={type.text}"
  | .redirected old new => s!"TRACE replaced all uses old={valueText old} new={valueText new}"
  | .ruleReplaced kind => s!"TRACE replaced axis info handler op_kind={kind.name}"
  | .ruleMissing value kind =>
    s!"TRACE no axis info handler, using top value={valueText value} op_kind={kind.name}"
  | .inferenceStarted size => s!"SPAN run_with values={size}"
  | .pinned value visits =>
    s!"WARN axis info did not converge, pinning to top value={valueText value} visits={visits}"
  | .updated value fact => s!"TRACE updated axis info value={valueText value} info={fact.text}"
  | .converged iterations analysed =>
    s!"DEBUG axis info analysis converged iterations={iterations} analysed={analysed}"
  | .inferred value kind fact =>
    s!"DEBUG axis info value={valueText value} op_kind={kind.name} info={fact.text}"
  | .tracked pointer base offset =>
    s!"TRACE tracked pointer ptr={valueText pointer} base={valueText base} offset={valueText offset}"
  | .loweringStarted size => s!"SPAN lower_all values={size}"
  | .lowered r =>
    s!"DEBUG lowered atomic rmw atomic={valueText r.atomic} replacement={valueText r.replacement}" ++
      s!" kind={r.op.mnemonic} path={r.path.name} pattern={r.pattern.text}"
  | .loweringDone count => s!"DEBUG lowered atomic rmw ops count={count}"

end TileFacts
