/-!
# Floating-point numbers

A finite number is its sign and `significand x * 2 ^ exponent x`.

`floorLog2 x` is the floor of the number nearest to the binary logarithm of `x`.  It differs from
the floor of the logarithm itself just below a power of two: the logarithm of a number close
enough to `2 ^ n` is rounded up to `n`.
-/

namespace QuadSphere.Binary64

/-! ## The parts of a number -/

def isNegative (x : Float) : Bool :=
  x.toBits >>> 63 == 1

def exponentField (x : Float) : Nat :=
  (x.toBits >>> 52).toNat % (1 <<< 11)

def fraction (x : Float) : Nat :=
  x.toBits.toNat % (1 <<< 52)

/-- The smallest numbers, whose exponent field is zero, have no leading one. -/
def significand (x : Float) : Nat :=
  if exponentField x = 0 then fraction x else (1 <<< 52) + fraction x

def exponent (x : Float) : Int :=
  (max (exponentField x) 1 : Nat) - 1075

/-- Below a power of two the numbers lie twice as close as above it. -/
def isBinadeStart (x : Float) : Bool :=
  fraction x = 0 && exponentField x > 1

/-- The power `2 ^ (-n)`, and zero where that is less than half the smallest normal number. -/
def twoPowNeg (n : Nat) : Float :=
  if n ≤ 1022 then Float.ofBits (UInt64.ofNat ((1023 - n) <<< 52))
  else if n = 1023 then Float.ofBits (UInt64.ofNat (1 <<< 51))
  else 0

/-! ## The floor of a rounded binary logarithm -/

/-- The first bits of the natural logarithm of two: `ln 2 * 2 ^ 16`, rounded down. -/
def ln2Bits : Nat := 45426

/-- How many steps of `2 ^ (n - 53)` below `2 ^ n` a number may lie so that its logarithm is
rounded up to `n`: half the distance of the numbers below `n`, divided by the slope of the
logarithm, which is `1 / ln 2` there.  Below a power of two the numbers lie twice as close, and no
logarithm other than that of 1 is rounded to zero. -/
def upwardSteps (n : Int) : Nat :=
  if n = 0 then 0
  else
    let t := n.natAbs.log2
    ln2Bits >>> (if 0 < n ∧ n.natAbs = 1 <<< t then 17 - t else 16 - t)

/-- Infinite logarithms are cut off at 32 bits, and what has no logarithm gives zero. -/
def floorLog2 (x : Float) : Int :=
  if x.isNaN || x < 0 then 0
  else if x == 0 then -2147483648
  else if x.isInf then 2147483647
  else
    let m := significand x
    let top := exponent x + m.log2 + 1
    let steps := (1 <<< 53) - (m <<< (52 - m.log2))
    if steps ≤ upwardSteps top then top else top - 1

end QuadSphere.Binary64
