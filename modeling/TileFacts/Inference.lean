import TileFacts.Rulebook
import TileFacts.Inference.Settings
import TileFacts.Inference.Worklist

/-! Inference of facts for all values of a graph.

An operation's fact follows from the facts of its operands by the rulebook, once all of them
are known. A merge joins what is known of its inputs so far, and what was known of itself, so
that it only ever loses knowledge. Values that depend on something never worked out have no
fact, and nothing is known of them. -/
namespace TileFacts

structure Inference where
  /-- One entry per value. -/
  facts : List (Option Fact)
  /-- The rank of each value in fact space. -/
  ranks : List Nat
  /-- How many times a value was worked out. -/
  iterations : Nat
  deriving DecidableEq

namespace Inference

/-- What the facts have in common, if there are any. -/
def joinAll : List Fact → Checked (Option Fact)
  | [] => .ok none
  | fact :: rest => some <$> rest.foldlM Fact.join fact

/-- The fact of a merge. -/
def mergeFact (inputs : List (Option Fact)) (previous : Option Fact) : Checked (Option Fact) := do
  match ← joinAll inputs.reduceOption, previous with
  | some joined, some previous => some <$> previous.join joined
  | joined, _ => return joined

/-- The fact of one value, from what is known of others; `none` while an operand is not
known, or no input of a merge. -/
def evaluate (g : Graph) (book : Rulebook) (fact : ValueId → Checked (Option Fact)) (v : ValueId) :
    Checked (Option Fact) := do
  match ← g.op v with
  | .merge inputs => mergeFact (← inputs.mapM fact) (← fact v)
  | op =>
    match (← op.operands.mapM fact).mapM id with
    | none => return none
    | some facts => some <$> book.transfer (← g.context v) facts

/-- The equations of a graph, given the users of its values. -/
def equations (g : Graph) (book : Rulebook) (settings : Settings)
    (users : List (List ValueId)) : Equations Fact where
  users := users
  evaluate := evaluate g book
  top v := do return .top (← g.type v).factRank
  budget := settings.maxVisits

/-! ### Report -/

/-- What a visit reports: a missing rule, a value given up, a new fact. -/
def visitEvents (g : Graph) (book : Rulebook) (visit : Visit Fact) : List Event :=
  let missing := match g.nodes[visit.value]? with
    | none | some ⟨.merge _, _⟩ => []
    | some node => book.report visit.value node.op.kind
  let pinned := if visit.pinned then [.pinned visit.value visit.count] else []
  let updated := if visit.changed then [.updated visit.value visit.fact] else []
  missing ++ pinned ++ updated

/-- The facts found, value by value. -/
def factEvents (g : Graph) (facts : List (Option Fact)) : List Event :=
  (facts.zip g.nodes.zipIdx).filterMap fun (fact, node, v) =>
    fact.map fun fact => .inferred v node.op.kind fact

/-! ### Running -/

/-- Infers facts for all values. Events are reported up to the end, or up to a fault. -/
def run (g : Graph) (book : Rulebook) (settings : Settings) : List Event × Checked Inference :=
  match g.users with
  | .error fault => ([.inferenceStarted g.size], .error fault)
  | .ok users =>
    let (final, fault) := (Worklist.start g.size).run (equations g book settings users)
    let events := .inferenceStarted g.size :: final.history.reverse.flatMap (visitEvents g book)
    match fault with
    | some fault => (events, .error fault)
    | none =>
      let facts := final.cells.map Cell.fact
      let iterations := final.history.length
      let dump := if settings.dumpFacts then factEvents g facts else []
      (events ++ .converged iterations (facts.countP Option.isSome) :: dump,
        .ok ⟨facts, g.nodes.map fun node => node.type.factRank, iterations⟩)

/-- The fact of a value, if it has one. -/
def lookup (inference : Inference) (v : ValueId) : Option Fact := inference.facts[v]?.join

/-- What is known of a value: nothing, if it has no fact. -/
def get (inference : Inference) (v : ValueId) : Checked Fact :=
  match inference.lookup v with
  | some fact => .ok fact
  | none => do return .top (← element inference.ranks v)

end Inference

end TileFacts
