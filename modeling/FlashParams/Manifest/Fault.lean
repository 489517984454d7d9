import FlashParams.Manifest.Basic
import FlashParams.Number.Integer
import FlashParams.Text.Quoted
import FlashParams.Value.ByteOrder
import FlashParams.Value.DeclaredType

/-!
# What can be wrong with a manifest or an override

A manifest that has the right shape can still say things that make no sense: a number that is none
or does not fit its member, a type or a byte order that does not exist, a value no literal can hold.
Such a fault names its place, as a path of records, and its reason. That a document is no manifest
at all is a fault without a place; what is said about it is up to the reader of documents, and so is
the text of a value in a message.

A number whose text leaves the machine word has no place either. It is not reported: whatever reads
the manifest breaks off there.
-/

set_option autoImplicit false

namespace FlashParams.Manifest

/-- A place in a manifest, or an override. Every fault but one of the whole document names its place, so
this is the part of a message that says where to look. -/
inductive Place where
  | base (container : String)
  | block (name : String)
  | member (block key : String)
  | parameter (block name : String)
  | checksum (block name : String)
  | override (text : String)
  deriving DecidableEq, Repr

def Place.text : Place → String
  | base container => s!"container {container}: at"
  | block name => s!"block {name}"
  | member owner key => s!"block {owner}: {key}"
  | parameter owner name => s!"block {owner}: parameter {name}"
  | checksum owner name => s!"block {owner}: crc {name}"
  | override text => text

inductive Reason where
  | notANumber (text : String)
  | outOfRange (value : Int)
  | unreadableType (cause : DeclaredType.Unreadable)
  | unknownByteOrder (cause : ByteOrder.Unknown)
  | unsupportedValue (value : Toml.Value)
  | missingEquals
  | missingName

def Reason.message (shown : Toml.Value → String) : Reason → String
  | notANumber text => "not a number: " ++ Text.quoted text
  | outOfRange value => "value " ++ Numeral.decimalInt value ++ " out of range"
  | unreadableType cause => cause.message
  | unknownByteOrder cause => cause.message
  | unsupportedValue value => "unsupported value: " ++ shown value
  | missingEquals => "expected <name>=<value>"
  | missingName => "empty parameter name"

/-- Why a manifest or an override is refused. The last is no refusal but a computation that breaks off:
there is no message for it, and the process ends. -/
inductive Fault where
  /-- The document is not TOML, or has not the shape of a manifest. -/
  | malformed (message : String)
  | invalid (place : Place) (reason : Reason)
  /-- A number between quotes leaves the machine word. -/
  | leavesWord

def Fault.message (shown : Toml.Value → String) : Fault → String
  | malformed message => "TOML error: " ++ message
  | invalid place reason => s!"{place.text}: {reason.message shown}"
  | leavesWord => Integer.overflowMessage

end FlashParams.Manifest
