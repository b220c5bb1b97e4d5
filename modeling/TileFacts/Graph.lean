import TileFacts.Op
import TileFacts.ValueType

/-! The graph of values.

A graph is the list of its nodes; the position of a node names the value it defines. Nodes
are only ever added at the end, so a name stays good. A value may use values defined
after it: merges take inputs that close a loop, and uses can be redirected. -/
namespace TileFacts

structure Node where
  op : Op
  type : ValueType
  deriving DecidableEq

/-- Nodes are equal when their types are and their operations are, as numbers. -/
def Node.equal (a b : Node) : Bool := a.op.equal b.op && a.type == b.type

structure Graph where
  nodes : List Node
  deriving DecidableEq

namespace Graph

def empty : Graph := ⟨[]⟩

def size (g : Graph) : Nat := g.nodes.length

/-- All values, in the order of their definition. -/
def values (g : Graph) : List ValueId := List.range g.size

def contains (g : Graph) (v : ValueId) : Bool := v < g.size

/-- The node of a value, which the caller promises to be part of the graph. -/
def node (g : Graph) (v : ValueId) : Checked Node := element g.nodes v

def op (g : Graph) (v : ValueId) : Checked Op := Node.op <$> g.node v

def type (g : Graph) (v : ValueId) : Checked ValueType := Node.type <$> g.node v

/-- The graph with one more value, whose name is the former size. -/
def push (g : Graph) (node : Node) : Graph := ⟨g.nodes ++ [node]⟩

@[simp] theorem size_push (g : Graph) (node : Node) : (g.push node).size = g.size + 1 := by
  simp [size, push]

/-- The graph with one node put in the place of another. -/
def set (g : Graph) (v : ValueId) (node : Node) : Graph := ⟨g.nodes.set v node⟩

@[simp] theorem size_set (g : Graph) (v : ValueId) (node : Node) : (g.set v node).size = g.size := by
  simp [size, set]

/-! ### Users -/

/-- Notes `user` as a user of `operand`, once. -/
def addUser (user : ValueId) (table : List (List ValueId)) (operand : ValueId) :
    Checked (List (List ValueId)) := do
  let known ← element table operand
  return if known.contains user then table else table.set operand (known ++ [user])

/-- For every value the values that use it, in order of definition, from one pass over the
graph. -/
def users (g : Graph) : Checked (List (List ValueId)) :=
  g.nodes.zipIdx.foldlM (fun table (node, user) => node.op.operands.foldlM (addUser user) table)
    (List.replicate g.size [])

/-- The values that use a given one, in order of definition. -/
def usersOf (g : Graph) (v : ValueId) : List ValueId :=
  (g.nodes.zipIdx.filter fun (node, _) => node.op.operands.contains v).map Prod.snd

/-! ### Redirecting uses -/

/-- `old` becomes `new`, all else stays. -/
def redirect (old new v : ValueId) : ValueId := if v = old then new else v

/-- Every use of `old` becomes a use of `new`, except in the definition of `new`, which may
well be built from `old`. -/
def redirectUses (g : Graph) (old new : ValueId) : Graph :=
  ⟨g.nodes.mapIdx fun v node =>
    if v = new then node else { node with op := node.op.mapOperands (redirect old new) }⟩

@[simp] theorem size_redirectUses (g : Graph) (old new : ValueId) :
    (g.redirectUses old new).size = g.size := by
  simp [size, redirectUses]

end Graph

end TileFacts
