import FlashParams.Checksum.WordSwap
import FlashParams.Layout.Placement

/-!
# What a checksum covers

A checksum is computed over a range of its own block. Once the fields are placed, the declared range
becomes two absolute addresses, both covered, and is checked: it has to run forwards, stay inside
the block, leave out the checksum itself and every checksum computed after it (their bytes are not
known yet), and be readable in words of the declared width. The checks are made in this order and
the first that fails is the fault.
-/

set_option autoImplicit false

namespace FlashParams

/-- A checksum that can be computed, with its place and the absolute addresses it covers. Both are
settled before any byte is written, so a range that cannot be right is reported with the addresses and
not with the values. -/
structure ChecksumJob where
  checksum : Checksum
  place : PlacedField
  first : UInt32
  last : UInt32

/-- The exact addresses of the first and the last covered byte. They are not cut to 32 bits here: the
checks that follow compare them with the block and would pass a range that has wrapped around. -/
def Checksum.range (c : Checksum) (base : UInt32) (place : PlacedField) :
    Except Fault (Nat × Nat) :=
  let first := base.toNat + c.coverage.first.toNat
  match c.coverage.last with
  | .fixed distance => .ok (first, base.toNat + distance.toNat)
  | .beforeSelf =>
    -- there is no byte in front of the block to end at
    if place.address = base then .error (.invalidSelfReference c.name place.address)
    else .ok (first, place.address.toNat - 1)

def PlacedField.isChecksum (p : PlacedField) : Bool :=
  match p.occupant with
  | .checksum _ => true
  | .parameter _ _ => false

/-- Whether a field has a byte in a range, both ends included. One without bytes has none, but it is
taken to be met where it lies strictly inside. -/
def PlacedField.meetsRange (p : PlacedField) (first last : Nat) : Bool :=
  first < p.stop && p.address.toNat ≤ last

/-- Checks the range of a placed checksum. It may cover neither its own bytes nor those of a checksum
computed after it (`later`), because those would change under the value. -/
def Checksum.job (c : Checksum) (block : Block) (base : UInt32) (place : PlacedField)
    (later : List PlacedField) : Except Fault ChecksumJob :=
  match c.range base place with
  | .error fault => .error fault
  | .ok (first, last) =>
    let stop := base.toNat + block.length.toNat
    let access := c.coverage.access
    let length := last - first + 1
    if last < first then
      .error (.malformedRange c.name (clampAddress first) (clampAddress last))
    else if stop ≤ last then
      .error (.rangeOutsideBlock c.name (clampAddress first) (clampAddress last) base
        (clampAddress stop))
    else if place.meetsRange first last then .error (.selfCoverage c.name place.address)
    else
      match later.find? fun p => p.isChecksum && p.meetsRange first last with
      | some p => .error (.laterChecksum c.name p.name p.address)
      | none =>
        if access.toNat ∉ accessWidths then .error (.invalidAccess c.name access)
        -- words of one byte are never misaligned
        else if c.coverage.swap ∧ 8 < access.toNat ∧ length % (access.toNat / 8) ≠ 0 then
          .error (.misalignedAccess c.name access (clampAddress length))
        else
          match Crc.ofParams c.type.bits c.params with
          | .error reason => .error (.malformedChecksum c.name (.unfit reason))
          | .ok _ => .ok ⟨c, place, lowAddress first, lowAddress last⟩

/-- The jobs of the checksums among placed fields, in their order, and the faults of those whose range is
not right. Fields are gone through from the back, since each is compared with those behind it. -/
def checksumJobs (block : Block) (base : UInt32) :
    List PlacedField → List ChecksumJob × List Fault
  | [] => ([], [])
  | place :: later =>
    let (jobs, faults) := checksumJobs block base later
    match place.occupant with
    | .parameter _ _ => (jobs, faults)
    | .checksum c =>
      match c.job block base place later with
      | .ok job => (job :: jobs, faults)
      | .error fault => (jobs, fault :: faults)

end FlashParams
