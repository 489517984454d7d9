import FlashParams.Number.Numeral

/-!
# Cyclic redundancy checks

A check is a width, a generator polynomial without its leading term, a seed, and three switches:
whether each byte is fed with its bits reversed, whether the register is reversed at the end, and
whether the result is complemented. The register is a bit vector *of the check's width*, so nothing
has to be masked: a shift drops the bit that leaves the register, and the corner where the register
is as wide as a machine word is no corner.

The engine works bit by bit, most significant bit first. `shiftStep` multiplies the register by the
indeterminate and reduces by the generator; a byte is added at the top and shifted through eight
times. Reversed bytes and a reversed register are the only trace of the other bit order.

`CrcParams` are the parameters as declared, before they are tied to a width; `Crc.ofParams` refuses
those that do not fit.
-/

set_option autoImplicit false

namespace FlashParams

/-- The parameters of a check as they are declared. They are all 64 bits wide, whatever width the check
turns out to have: that is known only from the type of its field, so whether they fit is settled by
`Crc.ofParams`. -/
structure CrcParams where
  /-- The generator polynomial, most significant coefficient first, without the leading one. -/
  polynomial : UInt64 := 0x04C11DB7
  /-- The seed of the register. -/
  init : UInt64 := 0xFFFFFFFF
  /-- Feed each byte with its bits reversed. -/
  reflectIn : Bool := true
  /-- Reverse the register at the end. -/
  reflectOut : Bool := true
  /-- Complement the result. -/
  finalXor : Bool := true
  deriving DecidableEq, Repr, Inhabited

/-- The widths, in bits, that a check and a memory access can have. One list serves both, because a check
is stored in an integer and an access reads one. -/
def accessWidths : List Nat :=
  [8, 16, 32, 64]

/-- A check of a definite width. The width is part of the type of its register, so no later definition
has to ask whether a polynomial or a seed fits. -/
structure Crc where
  width : Nat
  polynomial : BitVec width
  init : BitVec width
  reflectIn : Bool
  reflectOut : Bool
  finalXor : Bool

namespace Crc

inductive Unfit where
  | wrongWidth (bits : Nat)
  | widePolynomial (value : UInt64) (bits : Nat)
  | wideInit (value : UInt64) (bits : Nat)
  deriving DecidableEq, Repr

def Unfit.message : Unfit → String
  | wrongWidth bits => "unsupported CRC width " ++ Numeral.decimal bits
  | widePolynomial value bits =>
    "polynomial 0x" ++ Numeral.hex value.toNat ++ " does not fit " ++ Numeral.decimal bits
      ++ " bits"
  | wideInit value bits =>
    "init 0x" ++ Numeral.hex value.toNat ++ " does not fit " ++ Numeral.decimal bits ++ " bits"

/-- Parameters are only accepted where they fit the width, so nothing is lost when they are cut down to
it; the polynomial of the result is the one that was declared. -/
def ofParams (width : Nat) (params : CrcParams) : Except Unfit Crc :=
  -- the widths of a check are those of a memory access
  if width ∉ accessWidths then .error (.wrongWidth width)
  else if Nat.pow 2 width ≤ params.polynomial.toNat then
    .error (.widePolynomial params.polynomial width)
  else if Nat.pow 2 width ≤ params.init.toNat then .error (.wideInit params.init width)
  else
    .ok
      { width
        polynomial := BitVec.ofNat width params.polynomial.toNat
        init := BitVec.ofNat width params.init.toNat
        reflectIn := params.reflectIn
        reflectOut := params.reflectOut
        finalXor := params.finalXor }

/-- The common 32-bit check. It is what the default parameters describe at 32 bits, and the check over a
whole image is always this one. -/
def crc32 : Crc :=
  { width := 32
    polynomial := 0x04C11DB7
    init := 0xFFFFFFFF
    reflectIn := true
    reflectOut := true
    finalXor := true }

/-- One bit shifted through the register: times the indeterminate, reduced by the generator. Everything a
check does to its register is made of this step and an exclusive or. -/
def shiftStep (c : Crc) (register : BitVec c.width) : BitVec c.width :=
  if register.msb then (register <<< 1) ^^^ c.polynomial else register <<< 1

def feedBits (c : Crc) (byte : UInt8) : BitVec 8 :=
  if c.reflectIn then byte.toBitVec.reverse else byte.toBitVec

/-- The register after a byte. The byte is added at the top, where a register may be wider than the byte,
and then shifted through in eight steps; this is the form in which bits arrive most significant first. -/
def absorb (c : Crc) (register : BitVec c.width) (byte : UInt8) : BitVec c.width :=
  Nat.repeat c.shiftStep 8 (register ^^^ ((c.feedBits byte).setWidth c.width <<< (c.width - 8)))

def register (c : Crc) (message : List UInt8) : BitVec c.width :=
  message.foldl c.absorb c.init

/-- What is left to do when all bytes are in: reversing and complementing. Neither depends on the message,
which is why questions about two messages are settled on their registers. -/
def finish (c : Crc) (register : BitVec c.width) : BitVec c.width :=
  let r := if c.reflectOut then register.reverse else register
  if c.finalXor then ~~~r else r

def checksum (c : Crc) (message : List UInt8) : BitVec c.width :=
  c.finish (c.register message)

end Crc

end FlashParams
