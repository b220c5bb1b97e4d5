/-! The operators that values are computed with: binary arithmetic, conversions,
comparisons, and the two vocabularies of atomic updates (what a kernel asks for, and
the primitives a machine offers).

Every operator has a `name`, used where operations are spelled out, and a `mnemonic`,
used where they are printed. `all` lists a vocabulary in its fixed order. -/
namespace TileFacts

/-- Binary operators on integers. Division, remainder, right shift, maximum and
minimum come in a signed and an unsigned reading of the same word. -/
inductive BinaryOp where
  | add
  | sub
  | mul
  | divS
  | divU
  | remS
  | remU
  | shl
  | shrS
  | shrU
  | and
  | or
  | xor
  | maxS
  | maxU
  | minS
  | minU
  deriving DecidableEq, Inhabited

namespace BinaryOp

def all : List BinaryOp :=
  [add, sub, mul, divS, divU, remS, remU, shl, shrS, shrU, and, or, xor, maxS, maxU, minS, minU]

def name : BinaryOp → String
  | add => "Add"
  | sub => "Sub"
  | mul => "Mul"
  | divS => "DivS"
  | divU => "DivU"
  | remS => "RemS"
  | remU => "RemU"
  | shl => "Shl"
  | shrS => "ShrS"
  | shrU => "ShrU"
  | and => "And"
  | or => "Or"
  | xor => "Xor"
  | maxS => "MaxS"
  | maxU => "MaxU"
  | minS => "MinS"
  | minU => "MinU"

def mnemonic (op : BinaryOp) : String := op.name.toLower

/-- Operators that act on bits rather than on numbers; shifts count among them. -/
def isBitwise : BinaryOp → Bool
  | and | or | xor | shl | shrS | shrU => true
  | _ => false

def isCommutative : BinaryOp → Bool
  | add | mul | and | or | xor | maxS | maxU | minS | minU => true
  | _ => false

end BinaryOp

/-- Conversions of a value to another element type. -/
inductive CastOp where
  | extS
  | extU
  | trunc
  | indexCast
  | bitcast
  | intToPtr
  | ptrToInt
  deriving DecidableEq, Inhabited

namespace CastOp

def all : List CastOp := [extS, extU, trunc, indexCast, bitcast, intToPtr, ptrToInt]

def name : CastOp → String
  | extS => "ExtS"
  | extU => "ExtU"
  | trunc => "Trunc"
  | indexCast => "IndexCast"
  | bitcast => "Bitcast"
  | intToPtr => "IntToPtr"
  | ptrToInt => "PtrToInt"

def mnemonic : CastOp → String
  | extS => "ext_s"
  | extU => "ext_u"
  | trunc => "trunc"
  | indexCast => "index_cast"
  | bitcast => "bitcast"
  | intToPtr => "int_to_ptr"
  | ptrToInt => "ptr_to_int"

end CastOp

/-- Comparisons: equality, and the four orders read as signed or unsigned. -/
inductive Comparison where
  | eq
  | ne
  | slt
  | sle
  | sgt
  | sge
  | ult
  | ule
  | ugt
  | uge
  deriving DecidableEq, Inhabited

namespace Comparison

def all : List Comparison := [eq, ne, slt, sle, sgt, sge, ult, ule, ugt, uge]

def name : Comparison → String
  | eq => "Eq"
  | ne => "Ne"
  | slt => "Slt"
  | sle => "Sle"
  | sgt => "Sgt"
  | sge => "Sge"
  | ult => "Ult"
  | ule => "Ule"
  | ugt => "Ugt"
  | uge => "Uge"

def mnemonic (p : Comparison) : String := p.name.toLower

/-- Strict orders are false on equal operands. -/
def isStrict : Comparison → Bool
  | slt | sgt | ult | ugt => true
  | _ => false

end Comparison

/-- Read-modify-write operators, as a kernel names them. -/
inductive RmwOp where
  | and
  | or
  | xor
  | add
  | fadd
  | max
  | min
  | umax
  | umin
  | xchg
  deriving DecidableEq, Inhabited

namespace RmwOp

def all : List RmwOp := [and, or, xor, add, fadd, max, min, umax, umin, xchg]

def name : RmwOp → String
  | and => "And"
  | or => "Or"
  | xor => "Xor"
  | add => "Add"
  | fadd => "FAdd"
  | max => "Max"
  | min => "Min"
  | umax => "UMax"
  | umin => "UMin"
  | xchg => "Xchg"

def mnemonic (op : RmwOp) : String := op.name.toLower

end RmwOp

/-- Atomic primitives: a read-modify-write operator settled for one family of
element types. -/
inductive AtomicOp where
  | andI
  | orI
  | xorI
  | addI
  | addF
  | maxS
  | minS
  | maxU
  | minU
  | maximumF
  | minimumF
  | xchg
  deriving DecidableEq, Inhabited

namespace AtomicOp

def all : List AtomicOp :=
  [andI, orI, xorI, addI, addF, maxS, minS, maxU, minU, maximumF, minimumF, xchg]

def name : AtomicOp → String
  | andI => "AndI"
  | orI => "OrI"
  | xorI => "XorI"
  | addI => "AddI"
  | addF => "AddF"
  | maxS => "MaxS"
  | minS => "MinS"
  | maxU => "MaxU"
  | minU => "MinU"
  | maximumF => "MaximumF"
  | minimumF => "MinimumF"
  | xchg => "Xchg"

def mnemonic (op : AtomicOp) : String := op.name.toLower

end AtomicOp

end TileFacts
