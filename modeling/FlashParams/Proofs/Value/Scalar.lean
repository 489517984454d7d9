import FlashParams.Proofs.Value.Length
import Mathlib.Algebra.Group.Int.Defs
import Mathlib.Algebra.Group.Nat.Defs

/-!
# Scalars and their bytes

An integer type holds the integers between its bounds, and stores one as its residue modulo two to the
bits of the type. Reading goes back: the number that the bytes stand for, less the whole modulus when the
type is signed and the number is in the upper half (`Scalar.valueOf`). Two facts of arithmetic are all
there is to it. The residue of an integer that is held has that integer as its value (`valueOf_residue`),
and the value of a number is held and has the number as its residue (`residue_valueOf`).

A double is its bit pattern, so there both ways are the identity. A *single* is not among the types that
are talked about here: a literal is a double, and is rounded on its way in.
-/

set_option autoImplicit false

namespace FlashParams

open Binary (Double)

namespace Scalar

/-- Whether an integer is in the range of an integer type. Said with powers of two and not with the
bounds the encoder compares with, so that the range is one a reader knows. -/
def Holds (type : Scalar) (v : Int) : Prop :=
  if type.isSigned then -2 ^ (type.bits - 1) ≤ v ∧ v < 2 ^ (type.bits - 1)
  else 0 ≤ v ∧ v < 2 ^ type.bits

instance (type : Scalar) (v : Int) : Decidable (type.Holds v) :=
  inferInstanceAs (Decidable (if type.isSigned then _ else _))

def valueOf (type : Scalar) (n : Nat) : Int :=
  if type.isSigned ∧ 2 ^ (type.bits - 1) ≤ n then (n : Int) - 2 ^ type.bits else n

variable {type : Scalar} {order : ByteOrder} {bytes : List UInt8} {literal : Literal}

/-! ## Integers and residues -/

theorem holds_iff {v : Int} : type.Holds v ↔ ¬ (v < type.least ∨ type.greatest < v) := by
  have hpow : ∀ n, Int.pow 2 n = 2 ^ n := fun _ => rfl
  unfold Holds least greatest
  rw [hpow, hpow]
  split <;> omega

/-- The residue of an integer that is held fits the type, and its value is the integer. Two's complement
is this and the next lemma, and neither mentions bytes. -/
theorem valueOf_residue (hint : type.isFloat = false) {v : Int} (h : type.Holds v) :
    (v % 2 ^ type.bits).toNat < 2 ^ type.bits ∧
      type.valueOf (v % 2 ^ type.bits).toNat = v := by
  cases type <;> simp [Holds, valueOf, bits, size, isSigned, isFloat] at h hint ⊢ <;> omega

theorem residue_valueOf (hint : type.isFloat = false) {n : Nat} (h : n < 2 ^ type.bits) :
    type.Holds (type.valueOf n) ∧ (type.valueOf n % 2 ^ type.bits).toNat = n := by
  cases type <;> simp [Holds, valueOf, bits, size, isSigned, isFloat] at h hint ⊢ <;> omega

/-! ## Numbers and bytes -/

theorem two_pow_bits (type : Scalar) : 2 ^ type.bits = 256 ^ type.size := by
  rw [bits, Nat.pow_mul]

theorem number_lt (order : ByteOrder) (bytes : List UInt8) :
    order.number bytes < 256 ^ bytes.length := by
  have hnumber := order.number_bytes bytes.length (order.number bytes)
  rw [order.bytes_number] at hnumber
  rw [hnumber]
  exact Nat.mod_lt _ (Nat.pow_pos (by decide))

theorem number_lt_of_length (order : ByteOrder) (hlen : bytes.length = type.size) :
    order.number bytes < 2 ^ type.bits := by
  rw [two_pow_bits, ← hlen]
  exact number_lt order bytes

/-- A number that fits the type is read back from its bytes. The encoder hands on patterns below the
power of two, so nothing is cut off on the way to the bytes. -/
theorem number_bytes_of_lt (order : ByteOrder) {n : Nat} (h : n < 2 ^ type.bits) :
    order.number (order.bytes type.size n) = n := by
  rw [two_pow_bits] at h
  exact (order.number_bytes type.size n).trans (Nat.mod_eq_of_lt h)

/-! ## Encoding -/

theorem encode_eq_ok_iff : type.encode order literal = .ok bytes ↔
    literal.isArray = false ∧ ∃ n, type.pattern literal = .ok n ∧ bytes = order.bytes type.size n := by
  cases literal with
  | array items => simp [encode, Literal.isArray]
  | int _ | float _ | str _ =>
    simp only [encode, Literal.isArray, true_and]
    cases type.pattern _ with
    | error fault => simp [Except.map]
    | ok n => simp [Except.map, eq_comm]

/-- All integer types go one way to their patterns. The definition has a case for each type; with this
the eight of them are one, and proofs need the range and the residue only. -/
theorem pattern_integer (hint : type.isFloat = false) :
    type.pattern literal = (literal.integerFor type).bind fun v =>
      if v < type.least ∨ type.greatest < v then .error (.outOfRange type literal)
      else .ok (v % 2 ^ type.bits).toNat := by
  cases type with
  | f32 | f64 => cases hint
  | _ => rfl

theorem pattern_integer_iff (hint : type.isFloat = false) {n : Nat} :
    type.pattern literal = .ok n ↔ ∃ v, literal.integerFor type = .ok v ∧ type.Holds v ∧
      n = (v % 2 ^ type.bits).toNat := by
  rw [pattern_integer hint]
  cases literal.integerFor type with
  | error fault => simp [Except.bind]
  | ok v =>
    simp only [Except.bind, holds_iff, Except.ok.injEq, exists_eq_left']
    split
    · simp [*]
    · simp [*, eq_comm]

theorem isArray_of_integerFor {v : Int} (h : literal.integerFor type = .ok v) :
    literal.isArray = false := by
  cases literal with
  | array items => cases h
  | int _ | float _ | str _ => rfl

/-- **An integer type encodes the integers it holds**, each as its residue. A negative one is thus stored
as its complement, without a case of its own. -/
theorem encode_integer_iff (hint : type.isFloat = false) :
    type.encode order literal = .ok bytes ↔ ∃ v, literal.integerFor type = .ok v ∧ type.Holds v ∧
      bytes = order.bytes type.size (v % 2 ^ type.bits).toNat := by
  rw [encode_eq_ok_iff]
  constructor
  · rintro ⟨-, n, hpattern, rfl⟩
    obtain ⟨v, hv, hheld, rfl⟩ := (pattern_integer_iff hint).1 hpattern
    exact ⟨v, hv, hheld, rfl⟩
  · rintro ⟨v, hv, hheld, rfl⟩
    exact ⟨isArray_of_integerFor hv, _, (pattern_integer_iff hint).2 ⟨v, hv, hheld, rfl⟩, rfl⟩

theorem encode_float (order : ByteOrder) (x : Double) :
    f64.encode order (.float x) = .ok (order.bytes 8 x.bits.toNat) :=
  rfl

/-! ## Decoding -/

theorem decode_integer (hint : type.isFloat = false) (order : ByteOrder) (bytes : List UInt8) :
    type.decode order bytes = .int (type.valueOf (order.number bytes)) := by
  have hdecode : type.decode order bytes =
      if type.isSigned ∧ 2 ^ (type.bits - 1) ≤ order.number bytes then
        .int ((order.number bytes : Int) - 2 ^ type.bits) else .int (order.number bytes) := by
    cases type with
    | f32 | f64 => cases hint
    | _ => rfl
  rw [hdecode, valueOf, apply_ite Literal.int]

theorem decode_double (order : ByteOrder) (bytes : List UInt8) :
    f64.decode order bytes = .float ⟨UInt64.ofNat (order.number bytes)⟩ :=
  rfl

/-- How a scalar type spells its values: an integer type as integers, doubles as their patterns. Singles
are left out, because they decode to doubles and their law is another one. -/
inductive Spells : Scalar → Literal → Prop
  | integer {type : Scalar} (hint : type.isFloat = false) (v : Int) : Spells type (.int v)
  | double (x : Double) : Spells f64 (.float x)

theorem eq_double_of_isFloat (hexact : type ≠ f32) (hfloat : type.isFloat = true) : type = f64 := by
  cases type <;> simp_all [isFloat]

theorem spells_decode (hexact : type ≠ f32) (order : ByteOrder) (bytes : List UInt8) :
    type.Spells (type.decode order bytes) := by
  cases hfloat : type.isFloat with
  | false =>
    rw [decode_integer hfloat]
    exact .integer hfloat _
  | true =>
    obtain rfl := eq_double_of_isFloat hexact hfloat
    exact .double _

/-! ## There and back -/

/-- **What is decoded is encoded to the bytes it comes from**, whatever they are. Singles are left out:
those that are no numbers need not come back as they were. -/
theorem encode_decode (hexact : type ≠ f32) (order : ByteOrder) (hlen : bytes.length = type.size) :
    type.encode order (type.decode order bytes) = .ok bytes := by
  have hlt := number_lt_of_length order hlen
  cases hfloat : type.isFloat with
  | false =>
    obtain ⟨hheld, hresidue⟩ := residue_valueOf hfloat hlt
    rw [decode_integer hfloat]
    refine (encode_integer_iff hfloat).2 ⟨_, rfl, hheld, ?_⟩
    rw [hresidue, ← hlen, order.bytes_number]
  | true =>
    obtain rfl := eq_double_of_isFloat hexact hfloat
    have hbits : (UInt64.ofNat (order.number bytes)).toNat = order.number bytes :=
      UInt64.toNat_ofNat_of_lt' hlt
    rw [decode_double, encode_float]
    dsimp only
    rw [hbits]
    exact congrArg Except.ok ((congrArg (order.bytes · _) hlen.symm).trans (order.bytes_number bytes))

/-- **What is encoded is decoded to itself**, if it is spelled as the type spells its values. -/
theorem decode_encode (hspells : type.Spells literal) (h : type.encode order literal = .ok bytes) :
    type.decode order bytes = literal := by
  cases hspells with
  | integer hint v =>
    obtain ⟨v', hv, hheld, rfl⟩ := (encode_integer_iff hint).1 h
    cases hv
    obtain ⟨hlt, hvalue⟩ := valueOf_residue hint hheld
    rw [decode_integer hint, number_bytes_of_lt order hlt, hvalue]
  | double x =>
    rw [encode_float] at h
    cases h
    have hlt : x.bits.toNat < 2 ^ f64.bits := x.bits.toNat_lt
    have hnumber : order.number (order.bytes 8 x.bits.toNat) = x.bits.toNat :=
      number_bytes_of_lt order hlt
    rw [decode_double, hnumber, UInt64.ofNat_toNat]

end Scalar

end FlashParams
