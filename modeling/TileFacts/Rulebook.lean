import TileFacts.Rule.Quotient
import TileFacts.Rule.Choice
import TileFacts.Rule.Layout
import TileFacts.Event

/-! Rulebooks: which rule serves which kind of operation.

A kind without a rule is handled by knowing nothing. Whatever a rule answers has to have the
rank of the result, and that is checked here, once for all rules. -/
namespace TileFacts

structure Rulebook where
  rule : Kind → Option Rule

namespace Rulebook

def empty : Rulebook := ⟨fun _ => none⟩

/-- The rules of integer arithmetic. -/
def binaryRule : BinaryOp → Rule
  | .add | .sub => Rule.sum
  | .mul => Rule.product
  | .divS | .divU => Rule.quotient
  | .remS | .remU => Rule.remainder
  | .shl => Rule.shiftLeft
  | .shrS | .shrU => Rule.shiftRight
  | .and | .or | .xor | .maxS | .maxU | .minS | .minU => Rule.logic

/-- A rule for every kind whose result follows from its operands. Arguments, floats and
memory are opaque, a reshape moves elements across dimensions, and merges are joined by the
inference itself. -/
def standard : Rulebook where
  rule
    | .const => some Rule.constant
    | .cast _ => some Rule.identity
    | .binary op => some (binaryRule op)
    | .addPtr => some Rule.sum
    | .cmp => some Rule.comparison
    | .select => some Rule.choice
    | .range => some Rule.range
    | .broadcast => some Rule.broadcast
    | .splat => some Rule.splat
    | .expandDims => some Rule.expandDims
    | .constFloat | .arg | .reshape | .merge | .atomicRmw | .gatherAtomicRmw => none

def contains (book : Rulebook) (kind : Kind) : Bool := (book.rule kind).isSome

/-- The kinds that have a rule. -/
def kinds (book : Rulebook) : List Kind := Kind.all.filter book.contains

/-- The kinds that have none. -/
def missing (book : Rulebook) : List Kind := Kind.all.filter fun kind => !book.contains kind

def size (book : Rulebook) : Nat := book.kinds.length

/-- The rulebook with one kind served by a new rule. -/
def insert (book : Rulebook) (kind : Kind) (rule : Rule) : Rulebook where
  rule k := if k = kind then some rule else book.rule k

/-- Serves several kinds by one rule, and reports every rule that is thereby replaced. -/
def register (book : Rulebook) (rule : Rule) : List Kind → Rulebook × List Event
  | [] => (book, [])
  | kind :: rest =>
    let (result, events) := (book.insert kind rule).register rule rest
    (result, if book.contains kind then .ruleReplaced kind :: events else events)

/-- What is reported of an operation before its fact is worked out. -/
def report (book : Rulebook) (value : ValueId) (kind : Kind) : List Event :=
  if book.contains kind then [] else [.ruleMissing value kind]

/-- The fact of a result, from the facts of its operands. -/
def transfer (book : Rulebook) : Rule := fun ctx facts =>
  match book.rule ctx.kind with
  | none => .ok (.top ctx.rank)
  | some rule => do
    let fact ← rule ctx facts
    if fact.rank = ctx.rank then return fact
    else throw (.disagree (.resultRank ctx.kind) fact.rank ctx.rank)

theorem rank_of_transfer {book : Rulebook} {ctx : Context} {facts : List Fact} {fact : Fact}
    (h : book.transfer ctx facts = .ok fact) : fact.rank = ctx.rank := by
  unfold transfer at h
  split at h
  · cases h
    exact Fact.rank_top _
  · obtain ⟨f, _, h⟩ := bind_eq_ok.mp h
    split at h
    · next heq =>
      cases h
      exact heq
    · cases h

end Rulebook

end TileFacts
