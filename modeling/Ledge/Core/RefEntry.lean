import Mathlib.Data.List.Defs

/-!
# Ledge.Core.RefEntry

Identifiers, ref entries and errors of `ledge-core`. A fixed-size byte array
`[u8; N]` is a list with its length.

`hlc` and `version` are `u64` in the source. Nothing here depends on their width:
a version grows by one for each write, an hlc is only stored and compared.
-/

namespace Ledge.Core

/-- A content-addressed object id, 32 raw bytes. -/
structure ObjectId where
  bytes : List UInt8
  size : bytes.length = 32
  deriving DecidableEq

/-- `ObjectId::from_bytes([byte; 32])` -/
def ObjectId.fill (byte : UInt8) : ObjectId := ⟨List.replicate 32 byte, List.length_replicate⟩

/-- `ObjectId::to_hex` -/
def ObjectId.toHex (id : ObjectId) : String :=
  String.ofList (id.bytes.flatMap (fun b =>
    [Nat.digitChar (b.toNat / 16), Nat.digitChar (b.toNat % 16)]))

/-- A transaction id, 16 raw bytes. -/
structure TxnId where
  bytes : List UInt8
  size : bytes.length = 16
  deriving DecidableEq

/-- `TxnId::from_bytes([byte; 16])` -/
def TxnId.fill (byte : UInt8) : TxnId := ⟨List.replicate 16 byte, List.length_replicate⟩

/-- One versioned ref state. `version` starts at 1; a zero version marks an absent ref. -/
structure RefEntry where
  target : ObjectId
  hlc : Nat
  version : Nat
  deriving DecidableEq

/-- Why a string is not a ref name, in the order of the checks of `RefName::new`. -/
inductive RefNameFault
  | mustStartWithRefs
  | containsDotDot
  | containsDoubleSlash
  | controlByte (bad : UInt8)
  deriving DecidableEq

/-- The errors of the storage engine that the modelled functions return. An I/O error
carries no data here. -/
inductive LedgeError
  | notFound (id : ObjectId)
  | conflict (current : RefEntry)
  | invalidRefName (fault : RefNameFault) (s : String)
  | io
  | corruption (why : String)
  /-- a fault that may pass -/
  | unavailable (why : String)
  | quotaExceeded (why : String)
  deriving DecidableEq

end Ledge.Core
