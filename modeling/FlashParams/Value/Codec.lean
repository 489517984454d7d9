import FlashParams.Number.Integer
import FlashParams.Text.Utf8
import FlashParams.Value.ByteOrder
import FlashParams.Value.StoredType

/-!
# Values as bytes

`encode` gives the bytes of a literal as a stored type, `decode` the literal of given bytes.
Integers are two's complement, floating-point values keep their bit pattern, text is UTF-8 filled up
with zero bytes, and an array is its elements one after another.

Three kinds of literal can stand for a number of either kind: an integer, a floating-point value,
and text holding a numeral. For an integer type a floating-point value counts only when it is whole
and below ten to the thirty-eighth in magnitude; for a floating-point type every number is rounded
once to the nearest pattern, and only a finite value that would become infinite as a single is
refused.
-/

set_option autoImplicit false

namespace FlashParams

open Binary

/-- The value that a floating-point literal for an integer type has to stay below: ten to the
thirty-eighth, rounded to a double. It is far above every range, so what it admits is still checked
against the type. -/
def integerLimit : Double :=
  Double.ofDecimal false 1 38

/-- The integer a literal stands for, as an integer type sees it. A whole floating-point number counts as
an integer and a text is read as one; the range of the type is not looked at yet. -/
def Literal.integerFor (type : Scalar) : Literal → Except ValueFault Int
  | .int v => .ok v
  | .str s =>
    match Integer.read s with
    | .number v => .ok v
    | .unreadable => .error (.mismatch .integer (.str s))
    | .leavesWord => .error .leavesWord
  | .float x =>
    match x.toInt? with
    | some v =>
      if x.magnitudeBelow integerLimit then .ok v else .error (.outOfRange type (.float x))
    | none => .error (.outOfRange type (.float x))
  | .array items => .error (.mismatch .integer (.array items))

/-- The double a literal stands for. An integer of any size is rounded to the nearest one, and a text is
read as a numeral, so only a list and an unreadable text are refused. -/
def Literal.double : Literal → Except ValueFault Double
  | .float x => .ok x
  | .int v => .ok (Double.ofInt v)
  | .str s =>
    match Double.read? (Text.trim s.toList) with
    | some x => .ok x
    | none => .error (.mismatch .float (.str s))
  | .array items => .error (.mismatch .float (.array items))

/-- The bit pattern of a literal as a scalar type, as a number below two to the type's bits. An integer
out of range is refused here, so taking it modulo the power only brings negative ones to their pattern. -/
def Scalar.pattern (type : Scalar) (literal : Literal) : Except ValueFault Nat :=
  match type with
  | .f32 => do
    let x ← literal.double
    let narrowed := x.narrow
    -- an infinity that was written as one is stored as one
    if x.isFinite && narrowed.isInfinite then .error (.outOfRange type literal)
    else .ok narrowed.bits.toNat
  | .f64 => do
    let x ← literal.double
    .ok x.bits.toNat
  | _ => do
    let v ← literal.integerFor type
    if v < type.least ∨ type.greatest < v then .error (.outOfRange type literal)
    -- two's complement
    else .ok (v % Int.pow 2 type.bits).toNat

def Scalar.encode (type : Scalar) (order : ByteOrder) (literal : Literal) :
    Except ValueFault (List UInt8) :=
  match literal with
  | .array items => .error (.mismatch .scalar (.array items))
  | literal => (type.pattern literal).map (order.bytes type.size)

def Scalar.encodeAll (type : Scalar) (order : ByteOrder) :
    List Literal → Except ValueFault (List UInt8)
  | [] => .ok []
  | item :: rest => do
    let bytes ← type.encode order item
    let others ← type.encodeAll order rest
    .ok (bytes ++ others)

/-- The bytes of a literal as a stored type. An array takes as many items as it has elements and a text is
filled up, so bytes are returned only in the number that the type occupies. -/
def StoredType.encode (type : StoredType) (order : ByteOrder) (literal : Literal) :
    Except ValueFault (List UInt8) :=
  match type, literal with
  | .scalar t, literal => t.encode order literal
  | .array t n, .array items =>
    if items.length ≠ n then .error (.arrayLength n items.length) else t.encodeAll order items
  | .array _ _, literal => .error (.mismatch .array literal)
  | .text n, .str s =>
    let bytes := Text.utf8Bytes s
    if n < bytes.length then .error (.textTooLong bytes.length n)
    else .ok (bytes ++ List.replicate (n - bytes.length) 0)
  | .text _, literal => .error (.mismatch .string literal)

def Scalar.decode (type : Scalar) (order : ByteOrder) (bytes : List UInt8) : Literal :=
  let n := order.number bytes
  match type with
  | .f32 => .float (Single.mk (UInt32.ofNat n)).widen
  | .f64 => .float ⟨UInt64.ofNat n⟩
  | _ =>
    if type.isSigned ∧ Nat.pow 2 (type.bits - 1) ≤ n then .int ((n : Int) - Int.pow 2 type.bits)
    else .int n

def Scalar.decodeAll (type : Scalar) (order : ByteOrder) : Nat → List UInt8 → List Literal
  | 0, _ => []
  | count + 1, bytes =>
    type.decode order (bytes.take type.size) ::
      type.decodeAll order count (bytes.drop type.size)

def dropPadding (bytes : List UInt8) : List UInt8 :=
  (bytes.reverse.dropWhile (· == 0)).reverse

def StoredType.decode (type : StoredType) (order : ByteOrder) (bytes : List UInt8) :
    Except ValueFault Literal :=
  if bytes.length ≠ type.size then .error (.byteCount type.size bytes.length)
  else
    match type with
    | .scalar t => .ok (t.decode order bytes)
    | .array t n => .ok (.array (t.decodeAll order n bytes))
    | .text _ =>
      match Text.ofUtf8? (dropPadding bytes) with
      | some s => .ok (.str s)
      | none => .error .invalidText

/-- The low bytes of a computed pattern as a scalar type. The pattern of a checksum is as wide as its
type, so nothing is cut off there. -/
def Scalar.patternBytes (type : Scalar) (order : ByteOrder) (pattern : Nat) : List UInt8 :=
  order.bytes type.size pattern

def patternOf (order : ByteOrder) (bytes : List UInt8) : Nat :=
  order.number (bytes.take 8)

end FlashParams
