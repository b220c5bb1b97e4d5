import TileFacts.Fault

/-! What one element of a value is: a truth value, a machine number, an index, or a
pointer into some memory. -/
namespace TileFacts

/-! ### Scalars -/

inductive Width where
  | w8
  | w16
  | w32
  | w64
  deriving DecidableEq

def Width.bytes : Width → Nat
  | .w8 => 1
  | .w16 => 2
  | .w32 => 4
  | .w64 => 8

inductive FloatFormat where
  | f16
  | bf16
  | f32
  | f64
  deriving DecidableEq

def FloatFormat.bytes : FloatFormat → Nat
  | .f16 => 2
  | .bf16 => 2
  | .f32 => 4
  | .f64 => 8

inductive Scalar where
  | bool
  | signed (width : Width)
  | unsigned (width : Width)
  | float (format : FloatFormat)
  | index
  deriving DecidableEq

namespace Scalar

/-- All scalars, in the order they are compared in. -/
def all : List Scalar :=
  [bool, signed .w8, unsigned .w8, signed .w16, unsigned .w16, signed .w32, unsigned .w32,
    signed .w64, unsigned .w64, float .f16, float .bf16, float .f32, float .f64, index]

instance : Ord Scalar where
  compare a b := compare (all.idxOf a) (all.idxOf b)

/-- Bytes an element takes in memory. A truth value takes a whole byte, an index a word. -/
def bytes : Scalar → Nat
  | bool => 1
  | signed w => w.bytes
  | unsigned w => w.bytes
  | float f => f.bytes
  | index => 8

/-- Bits that carry information. -/
def bits : Scalar → Nat
  | bool => 1
  | s => s.bytes * 8

def isBool : Scalar → Bool
  | bool => true
  | _ => false

def isSigned : Scalar → Bool
  | signed _ => true
  | _ => false

def isUnsigned : Scalar → Bool
  | unsigned _ => true
  | _ => false

def isFloat : Scalar → Bool
  | float _ => true
  | _ => false

/-- Everything that integer operators accept: truth values and indices too. -/
def isInt (s : Scalar) : Bool := !s.isFloat

def text : Scalar → String
  | bool => "i1"
  | signed w => s!"i{w.bytes * 8}"
  | unsigned w => s!"u{w.bytes * 8}"
  | float .f16 => "f16"
  | float .bf16 => "bf16"
  | float .f32 => "f32"
  | float .f64 => "f64"
  | index => "index"

theorem mem_all (s : Scalar) : s ∈ all := by
  cases s with
  | signed w => cases w <;> decide
  | unsigned w => cases w <;> decide
  | float f => cases f <;> decide
  | _ => decide

end Scalar

/-! ### Elements -/

/-- Which memory a pointer leads to: the memory all threads see, or the memory of one
group of threads. -/
inductive AddressSpace where
  | global
  | group
  deriving DecidableEq, Ord

inductive Element where
  | scalar (s : Scalar)
  | pointer (pointee : Element) (space : AddressSpace)
  deriving DecidableEq

namespace Element

/-- The scalar an element is, unless it is a pointer. -/
def scalar? : Element → Option Scalar
  | scalar s => some s
  | pointer .. => none

/-- What a pointer points to. -/
def pointee? : Element → Option Element
  | scalar _ => none
  | pointer e _ => some e

/-- The scalar at the end of a chain of pointers. -/
def base : Element → Scalar
  | scalar s => s
  | pointer e _ => e.base

def bytes : Element → Nat
  | scalar s => s.bytes
  | pointer .. => 8

def isPointer : Element → Bool
  | scalar _ => false
  | pointer .. => true

def isBool (e : Element) : Bool := e.scalar?.any Scalar.isBool

def isSigned (e : Element) : Bool := e.scalar?.any Scalar.isSigned

def isUnsigned (e : Element) : Bool := e.scalar?.any Scalar.isUnsigned

def isInt (e : Element) : Bool := e.scalar?.any Scalar.isInt

def isFloat (e : Element) : Bool := e.scalar?.any Scalar.isFloat

def isIntOrPointer (e : Element) : Bool := e.isInt || e.isPointer

/-- A pointer to an element that is not a pointer itself. -/
def pointerTo (e : Element) (space : AddressSpace) : Checked Element :=
  if e.isPointer then .error .pointerToPointer else .ok (pointer e space)

def text : Element → String
  | scalar s => s.text
  | pointer e .global => s!"!ptr<{e.text}>"
  | pointer e .group => s!"!ptr<{e.text}, local>"

/-- Truth values, the element of conditions and masks. -/
def bool : Element := scalar .bool

/-- 8-bit integers, the element of widened masks. -/
def i8 : Element := scalar (.signed .w8)

/-- 32-bit integers, the element of ranges and of zero offsets. -/
def i32 : Element := scalar (.signed .w32)

end Element

/-! ### Literals -/

/-- An integer together with the integer scalar it was written at. -/
structure Literal where
  scalar : Scalar
  value : Int
  deriving DecidableEq

/-- The word that stands for a literal. Unsigned values and indices keep their bits. -/
def Literal.word (l : Literal) : Int64 := Int64.ofInt l.value

/-- The literal of a truth value: `1` or `0`. -/
def Literal.ofBool (b : Bool) : Literal := ⟨.bool, b.toInt⟩

end TileFacts
