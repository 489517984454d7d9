import FlashParams.Proofs.Number.Rounding
import FlashParams.Proofs.Value.RoundTrip

/-!
# Singles keep their bits

A literal holds a double, so a single is widened on its way out of the image and rounded on its way back
in. Widening is exact (`Single.represents_widen`): whatever the exponent, a subnormal single is a normal
double of the same value. What is rounded is then the value of a pattern of the narrow format, and
rounding gives that pattern (`Single.narrow_widen`). So nothing is out of range that was decoded, and a
single comes back with the bits it had, zero with its sign and infinity as infinity.

A pattern that is no number is left out. It is made quiet on the way and does not come back if it was
not.
-/

set_option autoImplicit false

namespace FlashParams

namespace Binary

/-! ## There and back -/

/-- A double stands for a single: it has the sign of it, and either both are infinite or they have one
value. Not a number is left out, as its payload may change. -/
structure Double.Represents (y : Double) (x : Single) : Prop where
  sign : y.negative = x.negative
  infinite : y.magnitude = double.infinity ↔ x.magnitude = single.infinity
  value : x.magnitude < single.infinity → y.magnitude < double.infinity ∧
    y.steps * single.unit = single.steps x.magnitude * double.unit

namespace Single

variable {x : Single}

theorem ofParts_parts (x : Single) : ofParts x.negative x.magnitude = x := by
  have hlt : x.bits.toNat < 2 * single.signBit := x.bits.toNat_lt
  have hmagnitude : x.magnitude < single.signBit := Nat.mod_lt _ (by decide)
  have hbits : single.signed x.negative x.magnitude = x.bits.toNat :=
    (Format.signed_eq_iff hlt hmagnitude).2 ⟨rfl, rfl⟩
  rw [ofParts, hbits, UInt32.ofNat_toNat]

theorem widen_of_infinite (h : x.magnitude = single.infinity) :
    x.widen = Double.infinite x.negative := by
  have hnan : x.isNaN = false := decide_eq_false (by omega)
  have hinfinite : x.isInfinite = true := decide_eq_true h
  rw [widen, hnan, hinfinite]
  rfl

/-- **Widening is exact**, the infinities included. Every single is a double with zeros behind its
fraction or, if it has no hidden bit, one with another exponent. -/
theorem represents_widen (h : x.isNaN = false) : x.widen.Represents x := by
  have hle : x.magnitude ≤ single.infinity := Nat.not_lt.1 (of_decide_eq_false h)
  rcases Nat.lt_or_eq_of_le hle with hfinite | hinfinite
  · obtain ⟨hsign, hbelow, hvalue⟩ := widen_exact hfinite
    exact ⟨hsign, iff_of_false (Nat.ne_of_lt hbelow) (Nat.ne_of_lt hfinite), fun _ => ⟨hbelow, hvalue⟩⟩
  · obtain ⟨hsign, hmagnitude⟩ := @Double.parts_ofParts x.negative double.infinity (by decide +kernel)
    rw [widen_of_infinite hinfinite]
    exact ⟨hsign, iff_of_true hmagnitude hinfinite, fun hfinite => absurd hinfinite (Nat.ne_of_lt hfinite)⟩

/-- **Rounding undoes widening.** What is rounded is the value of a single already, and there is one
pattern for it. -/
theorem narrow_widen (h : x.isNaN = false) : x.widen.narrow = x := by
  obtain ⟨hsign, hinfinite, hvalue⟩ := represents_widen h
  have hle : x.magnitude ≤ single.infinity := Nat.not_lt.1 (of_decide_eq_false h)
  rcases Nat.lt_or_eq_of_le hle with hlt | heq
  · obtain ⟨hbelow, hexact⟩ := hvalue hlt
    have hnan : x.widen.isNaN = false := decide_eq_false (by omega)
    have hfinite : x.widen.isFinite = true := decide_eq_true hbelow
    have hround : single.round x.widen.steps double.unit = x.magnitude :=
      Format.round_exact (by decide) (by decide +kernel) hlt hexact
    rw [Double.narrow, hnan, hfinite, hround, hsign]
    exact ofParts_parts x
  · have hmagnitude := hinfinite.2 heq
    have hnan : x.widen.isNaN = false := decide_eq_false (by omega)
    have hfinite : x.widen.isFinite = false := decide_eq_false (by omega)
    rw [Double.narrow, hnan, hfinite, hsign, ← heq]
    exact ofParts_parts x

theorem finite_of_widen (h : x.isNaN = false) (hfinite : x.widen.isFinite = true) :
    x.isInfinite = false := by
  have hbelow : x.widen.magnitude < double.infinity := of_decide_eq_true hfinite
  exact decide_eq_false fun heq => Nat.ne_of_lt hbelow ((represents_widen h).infinite.2 heq)

end Single

end Binary

open Binary

/-! ## The bytes of singles -/

def Binary.Single.bytes (order : ByteOrder) (x : Single) : List UInt8 :=
  order.bytes Scalar.f32.size x.bits.toNat

namespace Scalar

variable {order : ByteOrder} {x : Single} {xs : List Single}

theorem decode_single (order : ByteOrder) (x : Single) :
    f32.decode order (x.bytes order) = .float x.widen := by
  have hlt : x.bits.toNat < 2 ^ f32.bits := x.bits.toNat_lt
  have hnumber : order.number (x.bytes order) = x.bits.toNat := number_bytes_of_lt order hlt
  show Literal.float (Single.mk (UInt32.ofNat (order.number (x.bytes order)))).widen = _
  rw [hnumber, UInt32.ofNat_toNat]

theorem encode_single (h : x.isNaN = false) :
    f32.encode order (.float x.widen) = .ok (x.bytes order) := by
  refine encode_eq_ok_iff.2 ⟨rfl, x.bits.toNat, ?_, rfl⟩
  have hpattern : f32.pattern (.float x.widen) =
      if x.widen.isFinite && x.widen.narrow.isInfinite then .error (.outOfRange f32 (.float x.widen))
      else .ok x.widen.narrow.bits.toNat := rfl
  rw [hpattern, Single.narrow_widen h, if_neg]
  intro hrange
  obtain ⟨hfinite, hinfinite⟩ := Bool.and_eq_true_iff.1 hrange
  rw [Single.finite_of_widen h hfinite] at hinfinite
  exact Bool.false_ne_true hinfinite

theorem encodeAll_singles (h : ∀ x ∈ xs, x.isNaN = false) :
    f32.encodeAll order (xs.map fun x => .float x.widen) = .ok (xs.flatMap (Single.bytes order)) := by
  induction xs with
  | nil => rfl
  | cons x rest ih =>
    obtain ⟨hx, hrest⟩ := List.forall_mem_cons.1 h
    exact encodeAll_cons_eq_ok.2 ⟨_, _, encode_single hx, ih hrest, rfl⟩

end Scalar

/-- **Singles survive the codec.** In either byte order, the bytes of a single that is a number decode to a
double that stands for it, and that double is encoded to the same bytes; and so for arrays of any length. -/
theorem StoredType.singles_survive (order : ByteOrder) :
    (∀ x : Single, x.isNaN = false →
      x.widen.Represents x ∧
      (scalar .f32).decode order (x.bytes order) = .ok (.float x.widen) ∧
      (scalar .f32).encode order (.float x.widen) = .ok (x.bytes order)) ∧
    ∀ xs : List Single, (∀ x ∈ xs, x.isNaN = false) →
      (array .f32 xs.length).decode order (xs.flatMap (Single.bytes order)) =
        .ok (.array (xs.map fun x => .float x.widen)) ∧
      (array .f32 xs.length).encode order (.array (xs.map fun x => .float x.widen)) =
        .ok (xs.flatMap (Single.bytes order)) := by
  refine ⟨fun x hx => ⟨Single.represents_widen hx, ?_, Scalar.encode_single hx⟩, fun xs hxs => ?_⟩
  · refine decode_scalar_eq_ok.2 ⟨?_, (Scalar.decode_single order x).symm⟩
    exact ByteOrder.length_bytes order _ _
  · have hall : Scalar.f32.encodeAll order (xs.map fun x => .float x.widen) =
        .ok (xs.flatMap (Single.bytes order)) := Scalar.encodeAll_singles hxs
    have hback : Scalar.f32.decodeAll order xs.length (xs.flatMap (Single.bytes order)) =
        xs.map fun x => .float x.widen := by
      have hitems : ∀ item ∈ xs.map fun x => Literal.float x.widen, ∀ bytes,
          Scalar.f32.encode order item = .ok bytes → Scalar.f32.decode order bytes = item := by
        intro item hitem bytes hencode
        obtain ⟨x, hx, rfl⟩ := List.mem_map.1 hitem
        rw [Scalar.encode_single (hxs x hx)] at hencode
        cases hencode
        exact Scalar.decode_single order x
      rw [← Scalar.decodeAll_encodeAll hitems hall, List.length_map]
    have hencode : (array .f32 xs.length).encode order (.array (xs.map fun x => .float x.widen)) =
        .ok (xs.flatMap (Single.bytes order)) :=
      encode_array_eq_ok.2 ⟨_, rfl, List.length_map _, hall⟩
    exact ⟨decode_array_eq_ok.2 ⟨length_of_encode hencode, congrArg Literal.array hback.symm⟩, hencode⟩

namespace Specimen

open StoredType

def extremes : List Single :=
  [⟨0x00000001⟩, ⟨0x80000000⟩, ⟨0xFF800000⟩]

theorem extremes_survive :
    (∀ x ∈ extremes, x.isNaN = false) ∧
      extremes.flatMap (Single.bytes .big) =
        [0x00, 0x00, 0x00, 0x01, 0x80, 0x00, 0x00, 0x00, 0xFF, 0x80, 0x00, 0x00] ∧
      (array .f32 3).encode .big (.array (extremes.map fun x => .float x.widen)) =
        .ok [0x00, 0x00, 0x00, 0x01, 0x80, 0x00, 0x00, 0x00, 0xFF, 0x80, 0x00, 0x00] ∧
      (Single.mk 0x00000001).isNaN = false ∧
      (scalar .f32).decode .big [0x00, 0x00, 0x00, 0x01] = .ok (.float ⟨0x36A0000000000000⟩) := by
  obtain ⟨hone, hmany⟩ := singles_survive .big
  have hnumbers : ∀ x ∈ extremes, x.isNaN = false := by decide +kernel
  have hleast : (Single.mk 0x00000001).isNaN = false := hnumbers _ List.mem_cons_self
  have hwiden : (Single.mk 0x00000001).widen = ⟨0x36A0000000000000⟩ := by decide +kernel
  obtain ⟨-, hdecode, -⟩ := hone _ hleast
  rw [hwiden] at hdecode
  exact ⟨hnumbers, rfl, (hmany extremes hnumbers).2, hleast, hdecode⟩

end Specimen

end FlashParams
