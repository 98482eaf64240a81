import ZkCredVega.MdocAge.Witness
import ZkCredVega.Sha256

/-!
# The claims presentation: data and public values

The native side of `lib.rs`, `mdoc_core.rs` and `cbor_uint.rs`: how a list of
claims is padded to the fixed number of slots, and which values the step
circuits and the core circuit publish for it.
-/

namespace ZkCredVega

open Circuits

def maxClaimsV1 : ℕ := 4

def realLenBits : ℕ := 8

def blindNonceBytes : ℕ := 23

/-- How a call of the claims API ends without a result; `circuit .panic` is a panic. -/
inductive VegaMdocError where
  | tooManyClaims (max got : ℕ)
  | claimTooLong (max got : ℕ)
  | circuit (e : Failure)
  deriving DecidableEq, Repr

abbrev MdocResult := Except VegaMdocError

namespace MdocResult

/-- An explicit check that returns `SynthesisError::Unsatisfiable`. -/
def ensure (p : Prop) [Decidable p] : MdocResult Unit :=
  if p then .ok () else .error (.circuit .unsatisfiable)

/-- `xs[i]`. -/
def index {α : Type} (xs : List α) (i : ℕ) : MdocResult α :=
  match xs[i]? with
  | some x => .ok x
  | none => .error (.circuit .panic)

/-- `bytes.try_into().unwrap()`. -/
def toArray (n : ℕ) (bs : List UInt8) : MdocResult (Bytes n) :=
  if h : bs.length = n then .ok ⟨bs, h⟩ else .error (.circuit .panic)

@[simp] theorem ensure_true {p : Prop} [Decidable p] (h : p) : ensure p = .ok () := if_pos h

@[simp] theorem ensure_false {p : Prop} [Decidable p] (h : ¬p) :
    ensure p = .error (.circuit .unsatisfiable) := if_neg h

theorem ensure_bind_eq_ok {β : Type} {p : Prop} [Decidable p] {f : Unit → MdocResult β} {r : β} :
    (ensure p >>= f) = .ok r ↔ p ∧ f () = .ok r := by
  by_cases hp : p
  · rw [ensure_true hp]
    exact ⟨fun h => ⟨hp, h⟩, fun h => h.2⟩
  · rw [ensure_false hp]
    exact ⟨fun h => (by cases h), fun h => absurd h.1 hp⟩

theorem toArray_val {n : ℕ} (bs : Bytes n) : toArray n bs.val = .ok bs := dif_pos bs.property

theorem index_eq {α : Type} {xs : List α} {i : ℕ} {x : α} (h : xs[i]? = some x) :
    index xs i = .ok x := by
  unfold index
  rw [h]

end MdocResult

open MdocResult

/-! ## Claims -/

/-- One element of the credential, and whether it is disclosed. -/
structure ClaimWitness where
  issuerSignedItemBytes : List UInt8
  disclose : Bool
  digestId : UInt32
deriving DecidableEq

/-- A claim widened to the circuit's fixed width. -/
structure PaddedClaim where
  bytes : List UInt8
  realLen : ℕ
  disclose : Bool
  digestId : UInt32

def fixedWidthClaimBytes (bytes : List UInt8) : MdocResult (List UInt8 × ℕ) :=
  if bytes.length > maxClaimBytesV1 then .error (.claimTooLong maxClaimBytesV1 bytes.length)
  else .ok (bytes ++ List.replicate (maxClaimBytesV1 - bytes.length) 0, bytes.length)

/-- The filler of an unused slot. -/
def PaddedClaim.empty : PaddedClaim where
  bytes := List.replicate maxClaimBytesV1 0
  realLen := 0
  disclose := false
  digestId := 0

def padClaim (c : ClaimWitness) : MdocResult PaddedClaim := do
  let t ← fixedWidthClaimBytes c.issuerSignedItemBytes
  pure { bytes := t.1, realLen := t.2, disclose := c.disclose, digestId := c.digestId }

def padClaims (claims : List ClaimWitness) : MdocResult (List PaddedClaim) := do
  if claims.length > maxClaimsV1 then .error (.tooManyClaims maxClaimsV1 claims.length)
  else do
    let padded ← claims.mapM padClaim
    pure (padded ++ List.replicate (maxClaimsV1 - padded.length) .empty)

def claimDigestBytes (bytes : List UInt8) : Bytes 32 := ⟨Sha256.hash bytes, Sha256.length_hash bytes⟩

/-- `SHA-256(digest || nonce)`. -/
def blindDigestBytes (digest : Bytes 32) (nonce : Bytes blindNonceBytes) : Bytes 32 :=
  ⟨Sha256.hash (digest.val ++ nonce.val), Sha256.length_hash _⟩

def coreDigestIds (claims : List ClaimWitness) : MdocResult (List UInt32) := do
  let padded ← padClaims claims
  (List.range maxClaimsV1).mapM fun i => do
    let c ← index padded i
    pure c.digestId

def coreClaimDigests (claims : List ClaimWitness) : MdocResult (List (Bytes 32)) := do
  let padded ← padClaims claims
  pure (padded.map fun c => claimDigestBytes (c.bytes.take c.realLen))

/-! ## Public values -/

section PublicValues

variable {F : Type} [Field F]

def bitValue (b : Bool) : F := if b then 1 else 0

def nativeBytesToBits (bs : List UInt8) : List F := (bytesBits bs).map bitValue

/-- The bits of a 32-bit value, most significant first. -/
def u32Bits (v : UInt32) : List Bool := (List.range 32).map fun i => v.toNat.testBit (31 - i)

def nativeU32ToBits (v : UInt32) : List F := (u32Bits v).map bitValue

structure ClaimDigestStepCircuit where
  bytes : List UInt8
  realLen : ℕ
  disclose : Bool
  digestId : UInt32
  nonce : Bytes blindNonceBytes
  length_bytes : bytes.length = maxClaimBytesV1
  realLen_le : realLen ≤ maxClaimBytesV1

namespace ClaimDigestStepCircuit

def new (bytes : List UInt8) (realLen : ℕ) (disclose : Bool) (digestId : UInt32)
    (nonce : Bytes blindNonceBytes) : MdocResult ClaimDigestStepCircuit :=
  if hbytes : bytes.length = maxClaimBytesV1 then
    if hlen : realLen ≤ maxClaimBytesV1 then
      .ok ⟨bytes, realLen, disclose, digestId, nonce, hbytes, hlen⟩
    else .error (.circuit .panic)
  else .error (.circuit .panic)

def digestBytes (c : ClaimDigestStepCircuit) : Bytes 32 := claimDigestBytes (c.bytes.take c.realLen)

def blindedDigest (c : ClaimDigestStepCircuit) : Bytes 32 := blindDigestBytes c.digestBytes c.nonce

/-- The length a slot publishes: zero unless the claim is disclosed. -/
def lenByte (c : ClaimDigestStepCircuit) : UInt8 :=
  if c.disclose then UInt8.ofNat c.realLen else 0

def publicValues (c : ClaimDigestStepCircuit) : List F :=
  nativeBytesToBits c.blindedDigest.val ++ [bitValue c.disclose] ++
    (bitsOf c.lenByte).map bitValue ++ nativeU32ToBits c.digestId

end ClaimDigestStepCircuit

/-- The per-credential data that the MSO template splices in. -/
structure MsoBodyWitness where
  deviceX : Bytes 32
  deviceY : Bytes 32
  signedTs : Bytes timestampLen
  validFromTs : Bytes timestampLen
  validUntilTs : Bytes timestampLen
deriving DecidableEq

structure MdocEcdsaWitness (F : Type) where
  qx : F
  qy : F
  r : ℤ
  s : ℤ
  sInv : ℤ

structure MdocCoreCircuit (F : Type) where
  ecdsa : MdocEcdsaWitness F
  digestIds : List UInt32
  claimDigests : List (Bytes 32)
  msoBody : MsoBodyWitness
  nonce : Bytes blindNonceBytes

def MdocCoreCircuit.publicValues (c : MdocCoreCircuit F) : List F :=
  [c.ecdsa.qx, c.ecdsa.qy] ++ nativeBytesToBits c.nonce.val ++
    nativeBytesToBits c.msoBody.deviceX.val ++ nativeBytesToBits c.msoBody.deviceY.val ++
    nativeBytesToBits c.msoBody.signedTs.val ++ nativeBytesToBits c.msoBody.validFromTs.val ++
    nativeBytesToBits c.msoBody.validUntilTs.val ++
    c.digestIds.flatMap nativeU32ToBits ++
    c.claimDigests.flatMap fun digest => nativeBytesToBits (blindDigestBytes digest c.nonce).val

/-- The circuits that both `prep_prove` and `prove` build for a presentation. -/
def circuitsFor (claims : List ClaimWitness) (ecdsa : MdocEcdsaWitness F) (msoBody : MsoBodyWitness)
    (nonce : Bytes blindNonceBytes) :
    MdocResult (List ClaimDigestStepCircuit × MdocCoreCircuit F) := do
  let padded ← padClaims claims
  let steps ← padded.mapM fun c =>
    ClaimDigestStepCircuit.new c.bytes c.realLen c.disclose c.digestId nonce
  let digestIds ← coreDigestIds claims
  let claimDigests ← coreClaimDigests claims
  pure (steps, { ecdsa, digestIds, claimDigests, msoBody, nonce })

end PublicValues

end ZkCredVega
