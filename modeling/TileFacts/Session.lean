import TileFacts.Graph.Definition
import TileFacts.Event

/-! A graph under construction, with its log.

`Build` is the effect of everything that grows a graph: it may fail, and whatever was built
and reported before a failure stays. -/
namespace TileFacts

structure Session where
  graph : Graph := .empty
  log : List Event := []

abbrev Build (ε : Type) := EStateM (Failure ε) Session

namespace Build

variable {ε δ α : Type}

def graph : Build ε Graph := Session.graph <$> get

def emit (events : List Event) : Build ε Unit :=
  modify fun s => { s with log := s.log ++ events }

/-- An attempt that does not grow the graph. -/
def attempt (x : Attempt ε α) : Build ε α := fun s =>
  match x with
  | .ok a => .ok a s
  | .error failure => .error failure s

/-- A checked computation on the graph as it stands. -/
def inspect (f : Graph → Checked α) : Build ε α := do
  attempt (checked (f (← graph)))

/-- The same construction, its refusals seen as part of a larger vocabulary. -/
def within (f : ε → δ) (x : Build ε α) : Build δ α := EStateM.adaptExcept (Failure.map f) x

/-- Adds a value. -/
def define (d : Definition) : Build Refusal ValueId := do
  let g ← graph
  let node ← attempt (g.define d)
  modify fun s => { s with graph := g.push node }
  emit [.created g.size node.op.kind node.type]
  return g.size

/-- Adds an input to a merge. -/
def addMergeInput (merge input : ValueId) : Build Refusal Unit := do
  let g ← attempt ((← graph).addMergeInput merge input)
  modify fun s => { s with graph := g }

/-- Redirects all uses of a value. -/
def replaceAllUses (old new : ValueId) : Build Refusal Unit := do
  let g ← attempt ((← graph).replaceAllUses old new)
  modify fun s => { s with graph := g }
  emit [.redirected old new]

end Build

end TileFacts
