import TileFacts.Lowering.Refusal

/-! Addresses: a tensor of pointers as one base pointer and a tensor of offsets.

Pointers are moved by offsets and spread over shapes. Walking a pointer back to where it
starts gives a scalar base and the links on the way (`Graph.pointerPath`). Following the
links forward again, on offsets instead of pointers, builds the offset of every element
(`Address.track`). Nothing is built before the base is reached. -/
namespace TileFacts

/-- One step from a pointer to the next. -/
inductive PointerLink where
  | move (offset : ValueId)
  | splat (shape : Shape)
  | broadcast (shape : Shape)
  deriving DecidableEq

/-- A base and the links from it, the first step first. -/
structure PointerPath where
  base : ValueId
  links : List PointerLink
  deriving DecidableEq

/-- A path that goes on by one link. -/
def PointerPath.extend (path : PointerPath) (link : PointerLink) : PointerPath :=
  { path with links := path.links ++ [link] }

/-- Walks back at most `fuel` values. The walk ends at the first scalar that is not itself
moved or spread. -/
def Graph.pointerPathWithin (g : Graph) : Nat → ValueId → Attempt LoweringRefusal PointerPath
  | 0, v => .error (.fault (.endlessPointer v))
  | fuel + 1, v => do
    let node ← checked (g.node v)
    match node.op with
    | .addPtr ptr offset => return (← g.pointerPathWithin fuel ptr).extend (.move offset)
    | .splat source =>
      return (← g.pointerPathWithin fuel source).extend (.splat node.type.shape)
    | .broadcast source =>
      return (← g.pointerPathWithin fuel source).extend (.broadcast node.type.shape)
    | op =>
      if node.type.isScalar then return ⟨v, []⟩
      else throw (.refused (.untracked v op.kind))

/-- The path of a pointer. A walk that does not repeat itself has at most as many steps as
the graph has values. -/
def Graph.pointerPath (g : Graph) (v : ValueId) : Attempt LoweringRefusal PointerPath :=
  g.pointerPathWithin (g.size + 1) v

structure Address where
  base : ValueId
  offset : ValueId
  deriving DecidableEq

namespace Address

/-- The address with its parts renamed. -/
def map (f : ValueId → ValueId) (a : Address) : Address := ⟨f a.base, f a.offset⟩

/-- Converts an offset to a wider integer, or to another of the same size. -/
def widen (offset : ValueId) (element : Element) : Lowering ValueId := do
  let type ← Lowering.typeOf offset
  let cast := if type.element.bytes == element.bytes then CastOp.indexCast else CastOp.extS
  Lowering.define (.cast cast offset element)

/-- Adds two offsets. If their elements differ, the narrower one is widened first. -/
def addOffsets (lhs rhs : ValueId) : Lowering ValueId := do
  let l ← Lowering.typeOf lhs
  let r ← Lowering.typeOf rhs
  if l.element == r.element then Lowering.define (.binary .add lhs rhs)
  else if l.element.bytes < r.element.bytes then
    let lhs ← widen lhs r.element
    Lowering.define (.binary .add lhs rhs)
  else
    let rhs ← widen rhs l.element
    Lowering.define (.binary .add lhs rhs)

/-- What a link does to the offset so far; no offset stands for zero. -/
def follow (offset : Option ValueId) : PointerLink → Lowering (Option ValueId)
  | .move delta =>
    match offset with
    | none => return some delta
    | some offset => some <$> addOffsets offset delta
  | .splat shape =>
    match offset with
    | none => return none
    | some offset => some <$> Lowering.define (.splat offset shape)
  | .broadcast shape =>
    match offset with
    | none => return none
    | some offset => some <$> Lowering.define (.broadcast offset shape)

/-- Splits a pointer into base and offset, adding the values that the offset needs. -/
def track (ptr : ValueId) : Lowering Address := do
  let path ← Build.attempt ((← Build.graph).pointerPath ptr)
  let offset ← match ← path.links.foldlM follow none with
    | some offset => pure offset
    | none =>
      let type ← Lowering.typeOf ptr
      Lowering.define (.const 0 (type.withElement .i32))
  Build.emit [.tracked ptr path.base offset]
  return ⟨path.base, offset⟩

end Address

end TileFacts
