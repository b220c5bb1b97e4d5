import TileFacts.Word

/-! What operators compute on 64-bit words.

Sums, differences and products wrap. A quotient or remainder by zero has no value, nor
has the one signed quotient that does not fit; a shift by an amount outside `0 … 63`
has no value either. Operators marked unsigned read the same bits as a natural number. -/
namespace TileFacts

/-- The signed quotient and remainder are undefined on these operands. -/
def undividable (l r : Int64) : Bool := r == 0 || (l == Int64.minValue && r == -1)

/-- The word that `l` and `r` combine to, if there is one. -/
def BinaryOp.evaluate (op : BinaryOp) (l r : Int64) : Option Int64 :=
  match op with
  | .add => some (l + r)
  | .sub => some (l - r)
  | .mul => some (l * r)
  | .divS => if undividable l r then none else some (l / r)
  | .divU => if r == 0 then none else some (l.toUInt64 / r.toUInt64).toInt64
  | .remS => if undividable l r then none else some (l % r)
  | .remU => if r == 0 then none else some (l.toUInt64 % r.toUInt64).toInt64
  | .shl => if isShiftAmount r then some (l <<< r) else none
  | .shrS => if isShiftAmount r then some (l >>> r) else none
  | .shrU => if isShiftAmount r then some (l.toUInt64 >>> r.toUInt64).toInt64 else none
  | .and => some (l &&& r)
  | .or => some (l ||| r)
  | .xor => some (l ^^^ r)
  | .maxS => some (if l ≤ r then r else l)
  | .maxU => some (if l.toUInt64 ≤ r.toUInt64 then r else l)
  | .minS => some (if l ≤ r then l else r)
  | .minU => some (if l.toUInt64 ≤ r.toUInt64 then l else r)

/-- Whether a comparison holds of two words. -/
def Comparison.evaluate (p : Comparison) (l r : Int64) : Bool :=
  match p with
  | .eq => l == r
  | .ne => l != r
  | .slt => l < r
  | .sle => l ≤ r
  | .sgt => r < l
  | .sge => r ≤ l
  | .ult => l.toUInt64 < r.toUInt64
  | .ule => l.toUInt64 ≤ r.toUInt64
  | .ugt => r.toUInt64 < l.toUInt64
  | .uge => r.toUInt64 ≤ l.toUInt64

end TileFacts
