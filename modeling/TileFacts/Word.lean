import TileFacts.Fault

/-! Arithmetic on 64-bit words: checked operations, greatest common divisors and powers
of two.

Facts about values speak of divisors that are powers of two up to `maxPower`. The greatest
such divisor of a word is its greatest common divisor with `maxPower`, which also gives
zero, divisible by everything, its place (`powerDivisor`). -/
namespace TileFacts

/-- A shift amount is usable when it names one of the 64 bit positions. -/
def isShiftAmount (r : Int64) : Bool := 0 ≤ r && r < 64

namespace Word

/-! ### Range checks -/

/-- The word for an integer, if it fits. -/
def ofInt? (n : Int) : Option Int64 :=
  if Int64.minValue.toInt ≤ n ∧ n ≤ Int64.maxValue.toInt then some (Int64.ofInt n) else none

theorem ofInt?_eq_some {n : Int} {w : Int64} : ofInt? n = some w ↔ w.toInt = n := by
  unfold ofInt?
  constructor
  · intro h
    split at h
    · next hn =>
      cases h
      have hmin := Int64.toInt_minValue
      have hmax := Int64.toInt_maxValue
      exact Int64.toInt_ofInt_of_le (by omega) (by omega)
    · cases h
  · intro h
    subst h
    rw [if_pos ⟨w.minValue_le_toInt, w.toInt_le⟩, Int64.ofInt_toInt]

/-- The word for an integer, which the caller promises to fit. -/
def inRange (operation : Arithmetic) (n : Int) : Checked Int64 :=
  match ofInt? n with
  | some w => .ok w
  | none => .error (.overflow operation)

def checkedAdd (a b : Int64) : Checked Int64 := inRange .add (a.toInt + b.toInt)

def checkedSub (a b : Int64) : Checked Int64 := inRange .sub (a.toInt - b.toInt)

/-- The product, if it fits. -/
def mul? (a b : Int64) : Option Int64 := ofInt? (a.toInt * b.toInt)

/-- The quotient leaves the range of words. -/
def divOverflows (a b : Int64) : Bool := a == Int64.minValue && b == -1

/-- The quotient of `a` by `b`. It exists when `b` is not zero, and has to fit. -/
def checkedDiv (a b : Int64) : Checked Int64 :=
  if b == 0 then .error .divisionByZero
  else if divOverflows a b then .error (.overflow .div)
  else .ok (a / b)

/-- The remainder of `a` by `b`. It exists when `b` is not zero and the quotient fits. -/
def checkedRem (a b : Int64) : Checked Int64 :=
  if b == 0 then .error .remainderByZero
  else if divOverflows a b then .error (.overflow .rem)
  else .ok (a % b)

def checkedShl (a shift : Int64) : Checked Int64 :=
  if isShiftAmount shift then .ok (a <<< shift) else .error (.overflow .shl)

def checkedShr (a shift : Int64) : Checked Int64 :=
  if isShiftAmount shift then .ok (a >>> shift) else .error (.overflow .shr)

/-! ### Divisors -/

/-- The greatest common divisor of the magnitudes. It is `0` only for two zeros; the one
divisor that is no positive word, of the least word with itself or zero, is capped. -/
def gcd (a b : Int64) : Int64 :=
  Int64.ofNat (min (Nat.gcd a.toInt.natAbs b.toInt.natAbs) Int64.maxValue.toInt.toNat)

theorem toInt_gcd (a b : Int64) :
    (gcd a b).toInt =
      (min (Nat.gcd a.toInt.natAbs b.toInt.natAbs) Int64.maxValue.toInt.toNat : Nat) := by
  have hmax := Int64.toInt_maxValue
  rw [gcd, Int64.toInt_ofNat_of_lt (by omega)]

theorem gcd_comm (a b : Int64) : gcd a b = gcd b a := by
  rw [gcd, gcd, Nat.gcd_comm]

/-- The largest power of two that is tracked, `2 ^ 62`. -/
def maxPower : Int64 := (1 : Int64) <<< 62

/-- The largest tracked power of two that divides a word. -/
def powerDivisor (n : Int64) : Int64 := gcd n maxPower

/-- The number of the highest bit set, `0` for words below `2`. -/
def log2 (n : Int64) : Nat := n.toInt.toNat.log2

/-- The number of the highest bit set, which only positive words have. -/
def highestBit (n : Int64) : Checked Nat :=
  if 0 < n then .ok (log2 n) else .error .noLogarithm

/-- `log2`, asking for the highest bit only of words that have one. -/
def checkedLog2 (n : Int64) : Checked Nat := if n ≤ 1 then .ok 0 else highestBit n

def isPowerOfTwo (n : Int64) : Bool := 0 < n && 1 <<< log2 n == n.toInt.toNat

/-! ### Powers of two -/

/-- `value` moved up by `shift` bits, no further than `maxPower`. Words that are no
divisor, and negative shifts, give `1`. -/
def scaleUp (value shift : Int64) : Checked Int64 :=
  if value ≤ 0 || shift < 0 then .ok 1
  else do
    let top ← checkedAdd shift (Int64.ofNat (← checkedLog2 value))
    if 62 < top then return maxPower else checkedShl value shift

/-- What is left of a divisor after division by a power of two, at least `1`. Division by
any other word leaves `1`. -/
def scaleDown (divisibility divisor : Int64) : Int64 :=
  if isPowerOfTwo divisor then max (divisibility / divisor) 1 else 1

/-- `scaleDown`, with the division checked. -/
def checkedScaleDown (divisibility divisor : Int64) : Checked Int64 :=
  if isPowerOfTwo divisor then do return max (← checkedDiv divisibility divisor) 1 else .ok 1

end Word

end TileFacts
