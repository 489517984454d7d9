import FlashParams.Text.Blank

/-!
# Scalar types

The ten types a single stored value can have: unsigned and signed integers of one to eight bytes and
the two binary floating-point formats. A scalar is known by the name declarations use, which is also
how diagnostics show it, and by the type name generated C sources use.
-/

set_option autoImplicit false

namespace FlashParams

/-- The type of one stored number. -/
inductive Scalar where
  | u8 | u16 | u32 | u64
  | i8 | i16 | i32 | i64
  | f32 | f64
  deriving DecidableEq, Repr, Inhabited

namespace Scalar

def all : List Scalar :=
  [u8, u16, u32, u64, i8, i16, i32, i64, f32, f64]

def name : Scalar → String
  | u8 => "uint8" | u16 => "uint16" | u32 => "uint32" | u64 => "uint64"
  | i8 => "int8" | i16 => "int16" | i32 => "int32" | i64 => "int64"
  | f32 => "float32" | f64 => "float64"

def cName : Scalar → String
  | u8 => "uint8_t" | u16 => "uint16_t" | u32 => "uint32_t" | u64 => "uint64_t"
  | i8 => "int8_t" | i16 => "int16_t" | i32 => "int32_t" | i64 => "int64_t"
  | f32 => "float" | f64 => "double"

def size : Scalar → Nat
  | u8 | i8 => 1
  | u16 | i16 => 2
  | u32 | i32 | f32 => 4
  | u64 | i64 | f64 => 8

def bits (s : Scalar) : Nat :=
  8 * s.size

def isSigned : Scalar → Bool
  | i8 | i16 | i32 | i64 => true
  | _ => false

def isFloat : Scalar → Bool
  | f32 | f64 => true
  | _ => false

def ofText? (s : List Char) : Option Scalar :=
  let word := String.ofList (Text.foldCase (Text.trim s))
  all.find? fun t => t.name = word

def least (s : Scalar) : Int :=
  if s.isSigned then -Int.pow 2 (s.bits - 1) else 0

def greatest (s : Scalar) : Int :=
  if s.isSigned then Int.pow 2 (s.bits - 1) - 1 else Int.pow 2 s.bits - 1

theorem mem_all (s : Scalar) : s ∈ all := by
  cases s <;> decide

end Scalar

end FlashParams
