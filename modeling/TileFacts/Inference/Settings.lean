/-! Settings of the inference: how often a value may be looked at, and whether facts are
reported at the end. -/
namespace TileFacts

structure Settings where
  /-- How many times a value may be worked out before it is given up. -/
  maxVisits : Nat := 64
  dumpFacts : Bool := false
  deriving DecidableEq

namespace Settings

def standard : Settings := {}

/-- Settings with a budget of at least one visit. -/
def of (maxVisits : Option Nat) (dumpFacts : Bool) : Settings :=
  ⟨max (maxVisits.getD standard.maxVisits) 1, dumpFacts⟩

/-- The value of a digit. -/
def digit? (c : Char) : Option Nat :=
  if '0' ≤ c ∧ c ≤ '9' then some (c.toNat - '0'.toNat) else none

/-- The number that digits stand for, the most significant first. -/
def number? : List Char → Option Nat
  | [] => none
  | digits => (digits.mapM digit?).map fun ds => ds.foldl (fun n d => 10 * n + d) 0

/-- Reads a budget: digits after an optional plus sign, for a number of at most 64 bits. -/
def readBudget? (text : String) : Option Nat :=
  let digits := match text.toList with
    | '+' :: rest => rest
    | all => all
  (number? digits).filter (· < UInt64.size)

/-- Settings from texts given from outside. A budget that cannot be read is as good as none,
and any text at all asks for facts to be reported. -/
def ofTexts (maxVisits dumpFacts : Option String) : Settings :=
  .of (maxVisits.bind readBudget?) dumpFacts.isSome

end Settings

end TileFacts
