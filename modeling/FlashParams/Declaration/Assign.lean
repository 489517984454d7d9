import FlashParams.Declaration.Basic
import FlashParams.Layout.Fault

/-!
# Overriding parameter values

An override names a parameter, alone or as `block.parameter`, and gives it a new literal. The name
is cut at its *first* point: what stands in front is the block, the rest the field, and without a
point every block is searched. All parameters of that name are changed.

The blocks are gone through in declaration order and the scan stops at the first checksum of that
name, since a checksum's value is not the user's to set. Parameters met before it have been changed
by then and stay changed: `assign` therefore returns the declaration together with the outcome.
-/

set_option autoImplicit false

namespace FlashParams

/-- Changes items from the front until one of them reports a fault. The first result holds every item,
changed or not: after a fault the items in front of it stay changed, since nothing takes changes back. -/
def assignEach {α : Type} (assignItem : α → α × Except Fault Nat) :
    List α → List α × Except Fault Nat
  | [] => ([], .ok 0)
  | item :: rest =>
    match assignItem item with
    | (changed, .error fault) => (changed :: rest, .error fault)
    | (changed, .ok n) =>
      let (others, outcome) := assignEach assignItem rest
      (changed :: others, outcome.map (n + ·))

/-- Gives a field of the name a new literal. A checksum of that name cannot take one, and this is the
only fault an override can meet. -/
def Field.assign (name : String) (value : Literal) : Field → Field × Except Fault Nat
  | .parameter p =>
    if p.name = name then (.parameter { p with value }, .ok 1) else (.parameter p, .ok 0)
  | .checksum c =>
    if c.name = name then (.checksum c, .error (.computedValue c.name)) else (.checksum c, .ok 0)

def splitTarget (name : String) : Option String × String :=
  match Text.splitOnce '.' name.toList with
  | some (block, field) => (some (String.ofList block), String.ofList field)
  | none => (none, name)

/-- Gives the fields of a block a new literal, if the override speaks of the block. -/
def Block.assign (target : Option String × String) (value : Literal) (b : Block) :
    Block × Except Fault Nat :=
  if target.1.all (· = b.name) then
    let (fields, outcome) := assignEach (Field.assign target.2 value) b.fields
    ({ b with fields }, outcome)
  else (b, .ok 0)

/-- Gives the parameters an override names a new literal. The outcome is the number of parameters
changed, or the fault that stopped the scan. -/
def Declaration.assign (d : Declaration) (name : String) (value : Literal) :
    Declaration × Except Fault Nat :=
  let target := splitTarget name
  let (containers, outcome) := assignEach
    (fun (c : Container) =>
      let (blocks, outcome) := assignEach (Block.assign target value) c.blocks
      ({ c with blocks }, outcome))
    d.containers
  ({ d with containers }, outcome)

end FlashParams
