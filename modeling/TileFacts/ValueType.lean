import TileFacts.Element

/-! Value types: an element and a shape.

A shape without extents makes a scalar. Facts about a value live in *fact space*, where a
scalar counts as one dimension of extent one and extents are words: `factShape` is the
shape there, `extent` looks one dimension up. An extent too large for a word wraps. -/
namespace TileFacts

/-- How a list of numbers is written. -/
def bracketed (items : List String) : String := "[" ++ ", ".intercalate items ++ "]"

abbrev Shape := List Nat

namespace Shape

def text (shape : Shape) : String := bracketed (shape.map toString)

/-- How many elements a tensor of this shape has; the count must fit 64 bits. -/
def numElements (shape : Shape) : Checked Nat :=
  shape.foldlM
    (fun count extent =>
      if count * extent < UInt64.size then .ok (count * extent) else .error (.overflow .mul)) 1

/-- An extent of zero is not allowed in the shape of a value. -/
def hasZero (shape : Shape) : Bool := shape.any (· == 0)

/-- A scalar stretches to any shape. A tensor stretches along its dimensions of extent
one, and gains no dimensions. -/
def stretchesTo : Shape → Shape → Bool
  | [], _ => true
  | source, target =>
    source.length == target.length &&
      (source.zip target).all fun (s, t) => s == t || s == 1

end Shape

structure ValueType where
  element : Element
  shape : Shape
  deriving DecidableEq

namespace ValueType

def scalar (element : Element) : ValueType := ⟨element, []⟩

def isScalar (t : ValueType) : Bool := t.shape.isEmpty

def rank (t : ValueType) : Nat := t.shape.length

def withElement (t : ValueType) (element : Element) : ValueType := ⟨element, t.shape⟩

def withShape (t : ValueType) (shape : Shape) : ValueType := ⟨t.element, shape⟩

def text (t : ValueType) : String :=
  if t.isScalar then t.element.text
  else "tensor<" ++ "x".intercalate (t.shape.map toString ++ [t.element.text]) ++ ">"

/-! ### Fact space -/

def factRank (t : ValueType) : Nat := max t.rank 1

def factShape (t : ValueType) : List Int64 :=
  if t.isScalar then [1] else t.shape.map Int64.ofNat

def extent (t : ValueType) (d : Nat) : Checked Int64 :=
  if t.isScalar then
    if d = 0 then .ok 1 else .error (.disagree .scalarDimension d 0)
  else do return Int64.ofNat (← TileFacts.element t.shape d)

theorem length_factShape (t : ValueType) : t.factShape.length = t.factRank := by
  obtain ⟨_, shape⟩ := t
  cases shape with
  | nil => rfl
  | cons e es => simp [factShape, factRank, isScalar, rank]

end ValueType

end TileFacts
