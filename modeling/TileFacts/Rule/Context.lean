import TileFacts.Fact
import TileFacts.Graph

/-! Rules: how the fact of a result follows from the facts of its operands.

A rule sees one operation in its `Context` (the operation, its type, the types of its
operands) and one fact per operand. The caller promises as many facts as the rule has
operands, each of the rank its operand has in fact space. -/
namespace TileFacts

structure Context where
  value : ValueId
  op : Op
  type : ValueType
  operandTypes : List ValueType
  deriving DecidableEq

abbrev Rule := Context → List Fact → Checked Fact

/-- The context of a value of the graph. -/
def Graph.context (g : Graph) (v : ValueId) : Checked Context :=
  match g.nodes[v]? with
  | none => .error (.notInGraph v)
  | some node => do
    let operandTypes ← node.op.operands.mapM g.type
    return ⟨v, node.op, node.type, operandTypes⟩

namespace Context

def kind (ctx : Context) : Kind := ctx.op.kind

/-- The rank of the result in fact space. -/
def rank (ctx : Context) : Nat := ctx.type.factRank

/-- The extents of the result in fact space. -/
def shape (ctx : Context) : List Int64 := ctx.type.factShape

def operandType (ctx : Context) (i : Nat) : Checked ValueType := element ctx.operandTypes i

/-! ### Operand facts -/

/-- The fact given for an operand has the rank of the operand's type. -/
def checkRank (ctx : Context) (i : Nat) (fact : Fact) : Checked Unit := do
  let type ← ctx.operandType i
  if fact.rank = type.factRank then return
  else throw (.disagree (.operandRank ctx.kind i) fact.rank type.factRank)

def wrongCount {α : Type} (ctx : Context) (arity : Nat) (facts : List Fact) : Checked α :=
  .error (.disagree (.operandCount ctx.kind arity) facts.length arity)

def noOperands (ctx : Context) : List Fact → Checked Unit
  | [] => return
  | facts => ctx.wrongCount 0 facts

def oneOperand (ctx : Context) : List Fact → Checked Fact
  | [a] => do
    ctx.checkRank 0 a
    return a
  | facts => ctx.wrongCount 1 facts

def twoOperands (ctx : Context) : List Fact → Checked (Fact × Fact)
  | [a, b] => do
    ctx.checkRank 0 a
    ctx.checkRank 1 b
    return (a, b)
  | facts => ctx.wrongCount 2 facts

def threeOperands (ctx : Context) : List Fact → Checked (Fact × Fact × Fact)
  | [a, b, c] => do
    ctx.checkRank 0 a
    ctx.checkRank 1 b
    ctx.checkRank 2 c
    return (a, b, c)
  | facts => ctx.wrongCount 3 facts

/-! ### Results -/

/-- The axes of a result, worked out one dimension at a time from its number and extent. -/
def axes (ctx : Context) (axis : Nat → Int64 → Checked Axis) : Checked (List Axis) :=
  ctx.shape.zipIdx.mapM fun (extent, d) => axis d extent

/-- The operator of a binary operation; moving a pointer adds to it. -/
def binaryOp (ctx : Context) : Checked BinaryOp :=
  match ctx.op with
  | .binary op _ _ => .ok op
  | .addPtr _ _ => .ok .add
  | _ => .error (.notA .binary ctx.kind)

end Context

end TileFacts
