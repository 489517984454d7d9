import FlashParams.Text.Split

/-!
# Byte order

A value wider than a byte is stored with its least or its most significant byte first. The two
directions of `ByteOrder` are `bytes`, which writes the low bytes of a natural number, and `number`,
which reads a number back; big-endian is the reversal of little-endian in both, so every fact about
the first carries over to the second.
-/

set_option autoImplicit false

namespace FlashParams

inductive ByteOrder where
  | little
  | big
  deriving DecidableEq, Repr, Inhabited

namespace ByteOrder

def name : ByteOrder → String
  | little => "LE"
  | big => "BE"

structure Unknown where
  text : String
  deriving DecidableEq, Repr

def Unknown.message (u : Unknown) : String :=
  s!"endianness must be LE or BE, got: {u.text}"

/-- The byte order a text names, in short or in full and in any case of its letters. White space counts,
unlike in the name of a type. -/
def ofText (s : String) : Except Unknown ByteOrder :=
  let word := String.ofList (Text.foldCase s.toList)
  if word = "le" ∨ word = "little" then .ok little
  else if word = "be" ∨ word = "big" then .ok big
  else .error ⟨s⟩

/-- The `size` low bytes of a number, least significant first. What does not fit is cut off, so every use
of this has a bound on the number beside it. -/
def lowBytes : Nat → Nat → List UInt8
  | 0, _ => []
  | size + 1, n => UInt8.ofNat n :: lowBytes size (n / 256)

def ofLowBytes : List UInt8 → Nat
  | [] => 0
  | b :: rest => b.toNat + 256 * ofLowBytes rest

/-- Puts bytes that are given least significant first into this order, or back. Both directions are the
same operation, which is why encoding and decoding share their lemmas. -/
def arrange (order : ByteOrder) (bytes : List UInt8) : List UInt8 :=
  match order with
  | little => bytes
  | big => bytes.reverse

def bytes (order : ByteOrder) (size n : Nat) : List UInt8 :=
  order.arrange (lowBytes size n)

def number (order : ByteOrder) (bytes : List UInt8) : Nat :=
  ofLowBytes (order.arrange bytes)

/-! ## Laws -/

@[simp] theorem length_lowBytes (size n : Nat) : (lowBytes size n).length = size := by
  induction size generalizing n with
  | zero => rfl
  | succ size ih => simp [lowBytes, ih]

@[simp] theorem length_arrange (order : ByteOrder) (bs : List UInt8) :
    (order.arrange bs).length = bs.length := by
  cases order <;> simp [arrange]

@[simp] theorem length_bytes (order : ByteOrder) (size n : Nat) :
    (order.bytes size n).length = size := by
  simp [bytes]

@[simp] theorem arrange_arrange (order : ByteOrder) (bs : List UInt8) :
    order.arrange (order.arrange bs) = bs := by
  cases order <;> simp [arrange]

theorem ofLowBytes_lowBytes (size n : Nat) :
    ofLowBytes (lowBytes size n) = n % Nat.pow 256 size := by
  induction size generalizing n with
  | zero => simp [lowBytes, ofLowBytes, Nat.mod_one]
  | succ size ih =>
    have hpow : Nat.pow 256 (size + 1) = 256 * Nat.pow 256 size := Nat.mul_comm _ _
    rw [hpow, Nat.mod_mul]
    simp [lowBytes, ofLowBytes, ih]

theorem lowBytes_ofLowBytes (bs : List UInt8) : lowBytes bs.length (ofLowBytes bs) = bs := by
  induction bs with
  | nil => rfl
  | cons b rest ih =>
    have hb : b.toNat < 256 := b.toNat_lt
    simp only [List.length_cons, lowBytes, ofLowBytes]
    rw [show (b.toNat + 256 * ofLowBytes rest) / 256 = ofLowBytes rest by omega, ih]
    congr 1
    apply UInt8.toNat_inj.1
    rw [UInt8.toNat_ofNat']
    omega

/-- **Reading undoes writing**, up to the bits that do not fit. -/
theorem number_bytes (order : ByteOrder) (size n : Nat) :
    order.number (order.bytes size n) = n % Nat.pow 256 size := by
  simp [number, bytes, ofLowBytes_lowBytes]

/-- **Writing undoes reading**, at the same size. -/
theorem bytes_number (order : ByteOrder) (bs : List UInt8) :
    order.bytes bs.length (order.number bs) = bs := by
  have h := lowBytes_ofLowBytes (order.arrange bs)
  simp only [length_arrange] at h
  simp [number, bytes, h]

end ByteOrder

end FlashParams
