import ZkCredVega.OffsetBind.Region

/-!
# The age proof's witness

The data model of `mdoc_age.rs`: what the prover holds, and how an issuer may
encode a `birth_date` item.
-/

namespace ZkCredVega

open Circuits

def sigStructureBlocks : ℕ := 40

/-- Largest `Sig_structure` that still fits `sigStructureBlocks`. -/
def maxSigStructureBytes : ℕ := sigStructureBlocks * 64 - 9

def maxClaimBytesV1 : ℕ := 176

/-- Bytes of an RFC 3339 UTC timestamp. -/
def timestampLen : ℕ := 20

/-- `6c "elementValue"` is 13 bytes. -/
def valueKeyLen : ℕ := 13

/-- How an issuer encodes a `birth_date` value: a bare `full-date`, or Photo ID's map. -/
inductive DateEncoding where
  | bare
  | photoIdMap
deriving DecidableEq, Repr

/-- The bytes between the `elementValue` key and the ten characters of the date. -/
def DateEncoding.literal : DateEncoding → List UInt8
  | bare => [0xd9, 0x03, 0xec, 0x6a]
  | photoIdMap =>
    [0xa1, 0x6a, 0x62, 0x69, 0x72, 0x74, 0x68, 0x5f, 0x64, 0x61, 0x74, 0x65, 0xd9, 0x03, 0xec, 0x6a]

def DateEncoding.dateRel (e : DateEncoding) : ℕ := valueKeyLen + e.literal.length

/-- The holder's signature over the verifier's `DeviceAuthentication` structure. -/
structure DeviceAuthWitness where
  r : ℤ
  s : ℤ
  sInv : ℤ

/-- Everything the prover holds; texts are their UTF-8 bytes. -/
structure MdocAgeWitness where
  sigStructure : List UInt8
  landmarks : Landmarks
  nameSpace : List UInt8
  docType : List UInt8
  numEntries : ℕ
  itemBytes : List UInt8
  digestOffset : ℕ
  elementValueKeyOffset : ℕ
  dateEncoding : DateEncoding
  deviceAuth : DeviceAuthWitness

end ZkCredVega
