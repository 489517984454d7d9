/-!
# Binary floating-point formats, in exact arithmetic

A parameter of type `float32` or `float64` is stored as a bit pattern of an interchange format, and
everything this library says about such a value, be it narrowing, widening, reading or printing a
decimal, is a statement about the pattern. Nothing here computes with machine floats: a machine
operation cannot be unfolded in a proof, and the rounding of each step is exactly what has to be
right.

**One unit for all of a format.** Every finite value of a format is a whole multiple of its smallest
subnormal. `Format.steps` is that multiple and `Format.unit` the number of such steps in one, so the
magnitude of a pattern is the rational number `steps / unit` and all comparisons are between natural
numbers.

**One formula for rounding.** With the exponent field reduced by one at the bottom (subnormals share
the exponent of the smallest normals), a magnitude pattern is `shift * 2 ^ fractionBits +
significand`, whether or not the leading bit is implied. So rounding needs no case split: choose the
shift, round the quotient to a significand, add. A significand that rounds up to the next power of
two carries into the exponent by itself, and what reaches past the largest finite pattern is
infinity.
-/

set_option autoImplicit false

namespace FlashParams.Binary

/-- A binary interchange format, given by the widths of its two fields after the sign. Both formats in
use are instances, so rounding and its laws are there once. -/
structure Format where
  fractionBits : Nat
  exponentBits : Nat
  deriving DecidableEq, Repr

def single : Format := ⟨23, 8⟩

def double : Format := ⟨52, 11⟩

namespace Format

/-- The magnitude pattern of infinity: the exponent field is all ones. Patterns below it are ordered like
their values; a larger one is no number. -/
def infinity (f : Format) : Nat :=
  (Nat.pow 2 f.exponentBits - 1) * Nat.pow 2 f.fractionBits

def signBit (f : Format) : Nat :=
  Nat.pow 2 (f.exponentBits + f.fractionBits)

def unit (f : Format) : Nat :=
  Nat.pow 2 (Nat.pow 2 (f.exponentBits - 1) - 2 + f.fractionBits)

/-- How far the significand of a magnitude pattern is shifted: its exponent field less one, and zero
for subnormals. -/
def shift (f : Format) (magnitude : Nat) : Nat :=
  magnitude / Nat.pow 2 f.fractionBits - 1

def significand (f : Format) (magnitude : Nat) : Nat :=
  magnitude - f.shift magnitude * Nat.pow 2 f.fractionBits

/-- The value of a finite magnitude pattern, in units of the smallest subnormal. In these units every
value is a natural number, so the arithmetic of rounding needs no fractions. -/
def steps (f : Format) (magnitude : Nat) : Nat :=
  f.significand magnitude * Nat.pow 2 (f.shift magnitude)

end Format

def roundDiv (num den : Nat) : Nat :=
  let quotient := num / den
  let rest := num % den
  if 2 * rest < den then quotient
  else if den < 2 * rest then quotient + 1
  else quotient + quotient % 2

/-- The magnitude pattern nearest to `num / den`, ties to even; infinity beyond the largest finite value.
Since patterns are ordered like values, a significand that rounds up to the next power carries into the
exponent by itself. -/
def Format.round (f : Format) (num den : Nat) : Nat :=
  -- the shift comes from the whole steps alone; the round may still carry
  let whole := num * f.unit / den
  let shift := whole.log2 - f.fractionBits
  min (shift * Nat.pow 2 f.fractionBits + roundDiv (num * f.unit) (den * Nat.pow 2 shift)) f.infinity

structure Single where
  bits : UInt32
  deriving DecidableEq, Repr, Inhabited

structure Double where
  bits : UInt64
  deriving DecidableEq, Repr, Inhabited

def Format.signed (f : Format) (negative : Bool) (magnitude : Nat) : Nat :=
  if negative then f.signBit + magnitude else magnitude

namespace Single

def ofParts (negative : Bool) (magnitude : Nat) : Single :=
  ⟨UInt32.ofNat (single.signed negative magnitude)⟩

def negative (x : Single) : Bool :=
  single.signBit ≤ x.bits.toNat

def magnitude (x : Single) : Nat :=
  x.bits.toNat % single.signBit

def isInfinite (x : Single) : Bool :=
  x.magnitude = single.infinity

def isNaN (x : Single) : Bool :=
  single.infinity < x.magnitude

end Single

namespace Double

def ofParts (negative : Bool) (magnitude : Nat) : Double :=
  ⟨UInt64.ofNat (double.signed negative magnitude)⟩

def negative (x : Double) : Bool :=
  double.signBit ≤ x.bits.toNat

def magnitude (x : Double) : Nat :=
  x.bits.toNat % double.signBit

def isFinite (x : Double) : Bool :=
  x.magnitude < double.infinity

def isNaN (x : Double) : Bool :=
  double.infinity < x.magnitude

def steps (x : Double) : Nat :=
  double.steps x.magnitude

def infinite (negative : Bool) : Double :=
  ofParts negative double.infinity

def notANumber (negative : Bool) : Double :=
  ofParts negative (double.infinity + Nat.pow 2 51)

def ofInt (v : Int) : Double :=
  ofParts (v < 0) (double.round v.natAbs 1)

/-- The double nearest to `digits * 10 ^ exponent`, with a sign. A value beyond the range is
infinite and one far below it is zero; both are decided from the exponent before any power is
computed, so the length of the computation is bounded by the length of the numeral. -/
def ofDecimal (negative : Bool) (digits : Nat) (exponent : Int) : Double :=
  -- zero is zero whatever the exponent
  if digits = 0 then ofParts negative 0
  else if 310 < exponent then infinite negative
  else if exponent + digits.log2 < -350 then ofParts negative 0
  else if 0 ≤ exponent then ofParts negative (double.round (digits * Nat.pow 10 exponent.toNat) 1)
  else ofParts negative (double.round digits (Nat.pow 10 (-exponent).toNat))

/-- The integer a double stands for, when it is finite and has no fractional part. -/
def toInt? (x : Double) : Option Int :=
  if x.isFinite && x.steps % double.unit == 0 then
    let n : Int := (x.steps / double.unit : Nat)
    some (if x.negative then -n else n)
  else none

def magnitudeBelow (x y : Double) : Bool :=
  x.magnitude < y.magnitude

end Double

/-- The single nearest to a double. What is not a number keeps its sign and the leading bits of its
payload and is made quiet, as the conversion of the machine does it. -/
def Double.narrow (x : Double) : Single :=
  if x.isNaN then
    Single.ofParts x.negative
      (single.infinity + ((x.magnitude - double.infinity) / Nat.pow 2 29 ||| Nat.pow 2 22))
  else if x.isFinite then
    Single.ofParts x.negative (single.round x.steps double.unit)
  else Single.ofParts x.negative single.infinity

/-- The double with the value of a single, which is always exact. What is not a number keeps its sign and
payload and is made quiet. -/
def Single.widen (x : Single) : Double :=
  if x.isNaN then
    Double.ofParts x.negative
      (double.infinity + ((x.magnitude - single.infinity) * Nat.pow 2 29 ||| Nat.pow 2 51))
  else if x.isInfinite then Double.infinite x.negative
  else Double.ofParts x.negative (double.round (single.steps x.magnitude) single.unit)

end FlashParams.Binary
