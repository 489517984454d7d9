import FlashParams.Number.Binary
import FlashParams.Number.Numeral
import FlashParams.Text.Split

/-!
# Floating-point values as decimal text

Two ways out and one way in.

**Shortest text.** A value shown in a diagnostic has the fewest digits that read back as the same
value, the nearest such decimal if there are several, and the upper one of two equally near. It is
written positionally at any size, without a point when it is whole. The digits are found in exact
arithmetic and without a clever algorithm: the reals that read back as a pattern form an interval,
ends included exactly when the significand is even, and the grids of multiples of a power of ten are
tried from coarse to fine. On each grid only the two neighbours of the value matter, because any
grid point in the interval has one of them between itself and the value.

**Fixed places.** Generated sources show a value with eight places after the point, rounded from the
exact value, a tie to the even neighbour.

**Reading.** A sign, digits with an optional point and an optional exponent, or one of the names of
infinity and of what is not a number in any case. The exact decimal is rounded once.
-/

set_option autoImplicit false

namespace FlashParams.Binary

/-! ## The interval of a pattern and the coarsest grid that meets it -/

/-- The reals that read back as a value, over a common denominator: the value itself and the
midpoints to its neighbours. The midpoints belong to the interval when `closed` holds. -/
structure Interval where
  low : Nat
  value : Nat
  high : Nat
  denominator : Nat
  closed : Bool

/-- The interval of a finite magnitude pattern other than zero. The gap below a power of two is half
the gap above it, except at the bottom of the range where all gaps are equal. -/
def Format.interval (f : Format) (magnitude : Nat) : Interval :=
  let shift := f.shift magnitude
  let significand := f.significand magnitude
  let gap := Nat.pow 2 shift
  -- below a power of two the neighbours are twice as close
  let gapBelow := if significand = Nat.pow 2 f.fractionBits ∧ 0 < shift then gap / 2 else gap
  { low := 2 * f.steps magnitude - gapBelow
    value := 2 * f.steps magnitude
    high := 2 * f.steps magnitude + gap
    denominator := 2 * f.unit
    closed := significand % 2 = 0 }

/-- The multiple of `10 ^ exponent` that lies in the interval and is nearest to its value, divided
by that power; the upper one of two equally near. -/
def Interval.onGrid? (i : Interval) (exponent : Int) : Option Nat :=
  let scale := Nat.pow 10 (-exponent).toNat
  let cell := i.denominator * Nat.pow 10 exponent.toNat
  -- only the two neighbours of the value on this grid matter
  let floor := i.value * scale / cell
  let below := floor * cell
  let above := below + cell
  let hasBelow := if i.closed then i.low * scale ≤ below else i.low * scale < below
  let hasAbove := if i.closed then above ≤ i.high * scale else above < i.high * scale
  if hasBelow ∧ hasAbove then
    some (if 2 * (i.value * scale - below) < cell then floor else floor + 1)
  else if hasBelow then some floor
  else if hasAbove then some (floor + 1)
  else none

/-- The first of the `count` grids from `10 ^ exponent` downwards that meets the interval, with the
point on it. -/
def Interval.coarsest? (i : Interval) : Nat → Int → Option (Nat × Int)
  | 0, _ => none
  | count + 1, exponent =>
    match i.onGrid? exponent with
    | some digits => some (digits, exponent)
    | none => i.coarsest? count (exponent - 1)

/-- The decimal `digits * 10 ^ exponent` with the fewest digits in the interval of a magnitude
pattern. No power above the value meets the interval, and the finest grid ever needed is that of the
smallest subnormal, 325 places below one. -/
def shortestDecimal (magnitude : Nat) : Nat × Int :=
  let i := double.interval magnitude
  let top := (Numeral.digits 10 (i.high / i.denominator)).length
  (i.coarsest? (top + 330) top).getD (0, 0)

/-! ## Text -/

def positional (digits : Nat) (exponent : Int) : List Char :=
  let ds := Numeral.write 10 digits
  if 0 ≤ exponent then ds ++ List.replicate exponent.toNat '0'
  else
    let places := (-exponent).toNat
    if places < ds.length then
      ds.take (ds.length - places) ++ '.' :: ds.drop (ds.length - places)
    else '0' :: '.' :: (List.replicate (places - ds.length) '0' ++ ds)

def Double.withSign (x : Double) (magnitude : List Char) : String :=
  String.ofList (if x.negative then '-' :: magnitude else magnitude)

def Double.text (x : Double) : String :=
  if x.isNaN then "NaN"
  else if !x.isFinite then x.withSign "inf".toList
  else if x.magnitude = 0 then x.withSign ['0']
  else
    let (digits, exponent) := shortestDecimal x.magnitude
    x.withSign (positional digits exponent)

/-- The text of a double with a fixed number of places after the point. The exact value is rounded to
that many places, not its shortest decimal, so the places shown are those of the value. -/
def Double.fixed (places : Nat) (x : Double) : String :=
  if x.isNaN then "NaN"
  else if !x.isFinite then x.withSign "inf".toList
  else
    -- rounded once as a whole, so a carry out of the places needs no case of its own
    let scaled := roundDiv (x.steps * Nat.pow 10 places) double.unit
    x.withSign (Numeral.write 10 (scaled / Nat.pow 10 places) ++
      '.' :: Numeral.padStart places '0' (Numeral.write 10 (scaled % Nat.pow 10 places)))

/-! ## Reading -/

def isDigit (c : Char) : Bool :=
  '0' ≤ c && c ≤ '9'

def readExponent? (s : List Char) : Option Int :=
  match s with
  | '-' :: rest => (Numeral.read? 10 rest).map fun n => -(n : Int)
  | '+' :: rest => (Numeral.read? 10 rest).map fun n => (n : Int)
  | rest => (Numeral.read? 10 rest).map fun n => (n : Int)

/-- A decimal without its sign: digits, an optional point with more digits, an optional exponent.
There has to be a digit before or after the point. -/
def readDecimal? (negative : Bool) (s : List Char) : Option Double :=
  let whole := s.takeWhile isDigit
  let (fraction, rest) :=
    match s.dropWhile isDigit with
    | '.' :: rest => (rest.takeWhile isDigit, rest.dropWhile isDigit)
    | rest => ([], rest)
  match Numeral.read? 10 (whole ++ fraction) with
  | none => none
  | some digits =>
    let places : Int := fraction.length
    match rest with
    | [] => some (Double.ofDecimal negative digits (-places))
    | c :: rest =>
      if c = 'e' ∨ c = 'E' then
        (readExponent? rest).map fun exponent =>
          Double.ofDecimal negative digits (exponent - places)
      else none

def readUnsigned? (negative : Bool) (s : List Char) : Option Double :=
  let name := Text.foldCase s
  if name = "inf".toList ∨ name = "infinity".toList then some (Double.infinite negative)
  else if name = "nan".toList then some (Double.notANumber negative)
  else readDecimal? negative s

def Double.read? (s : List Char) : Option Double :=
  match s with
  | '-' :: rest => readUnsigned? true rest
  | '+' :: rest => readUnsigned? false rest
  | rest => readUnsigned? false rest

end FlashParams.Binary
