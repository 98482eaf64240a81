import ZkCredVega.Claims.Step

/-!
# The core circuit of a presentation

`MdocCoreCircuit::precommitted` with `mso.rs` and `mso_splice.rs`: the signed structure is
assembled from fixed segments and witnessed ones, its hash is what the issuer's signature
covers, and beside it every claim digest is witnessed a second time, blinded and published.
The signature gadget is a parameter.
-/

namespace ZkCredVega

open Circuits

namespace Mso

/-! ## The template -/

def digestIdWidths : List ℕ := [1, 2, 3, 5]

def entryTailLen : ℕ := 2 + 32

def maxDigestSectionBytes : ℕ := maxClaimsV1 * (maxCborUintBytes + entryTailLen)

def segPrefixBase : List UInt8 :=
  [0xa6, 0x67, 0x64, 0x6f, 0x63, 0x54, 0x79, 0x70, 0x65, 0x75, 0x6f, 0x72, 0x67, 0x2e, 0x69, 0x73, 0x6f,
    0x2e, 0x31, 0x38, 0x30, 0x31, 0x33, 0x2e, 0x35, 0x2e, 0x31, 0x2e, 0x6d, 0x44, 0x4c, 0x67, 0x76, 0x65,
    0x72, 0x73, 0x69, 0x6f, 0x6e, 0x63, 0x31, 0x2e, 0x30, 0x6c, 0x76, 0x61, 0x6c, 0x69, 0x64, 0x69, 0x74,
    0x79, 0x49, 0x6e, 0x66, 0x6f, 0xa3, 0x66, 0x73, 0x69, 0x67, 0x6e, 0x65, 0x64, 0xc0, 0x74]

def segBetweenSignedValidFrom : List UInt8 :=
  [0x69, 0x76, 0x61, 0x6c, 0x69, 0x64, 0x46, 0x72, 0x6f, 0x6d, 0xc0, 0x74]

def segBetweenValidFromValidUntil : List UInt8 :=
  [0x6a, 0x76, 0x61, 0x6c, 0x69, 0x64, 0x55, 0x6e, 0x74, 0x69, 0x6c, 0xc0, 0x74]

def segBeforeDigests : List UInt8 :=
  [0x6c, 0x76, 0x61, 0x6c, 0x75, 0x65, 0x44, 0x69, 0x67, 0x65, 0x73, 0x74, 0x73, 0xa1, 0x71, 0x6f, 0x72,
    0x67, 0x2e, 0x69, 0x73, 0x6f, 0x2e, 0x31, 0x38, 0x30, 0x31, 0x33, 0x2e, 0x35, 0x2e, 0x31, 0xa4]

def segAfterDigests : List UInt8 :=
  [0x6d, 0x64, 0x65, 0x76, 0x69, 0x63, 0x65, 0x4b, 0x65, 0x79, 0x49, 0x6e, 0x66, 0x6f, 0xa1, 0x69, 0x64,
    0x65, 0x76, 0x69, 0x63, 0x65, 0x4b, 0x65, 0x79, 0xa4, 0x01, 0x02, 0x20, 0x01, 0x21, 0x58, 0x20]

def segBetweenXY : List UInt8 := [0x22, 0x58, 0x20]

def segAfterDeviceKey : List UInt8 :=
  [0x6f, 0x64, 0x69, 0x67, 0x65, 0x73, 0x74, 0x41, 0x6c, 0x67, 0x6f, 0x72, 0x69, 0x74, 0x68, 0x6d, 0x67,
    0x53, 0x48, 0x41, 0x2d, 0x32, 0x35, 0x36]

def payloadHeaderNoLen : List UInt8 := [0xd8, 0x18, 0x59]

def sigStructurePrefixNoLen : List UInt8 :=
  [0x84, 0x6a, 0x53, 0x69, 0x67, 0x6e, 0x61, 0x74, 0x75, 0x72, 0x65, 0x31, 0x43, 0xa1, 0x01, 0x26, 0x40, 0x59]

def prefixFixedLen : ℕ :=
  segPrefixBase.length + timestampLen + segBetweenSignedValidFrom.length + timestampLen +
    segBetweenValidFromValidUntil.length + timestampLen + segBeforeDigests.length

def suffixFixedLen : ℕ :=
  segAfterDigests.length + 32 + segBetweenXY.length + 32 + segAfterDeviceKey.length

def maxSigStructureBytes : ℕ :=
  sigStructurePrefixNoLen.length + 2 + payloadHeaderNoLen.length + 2 + prefixFixedLen +
    maxDigestSectionBytes + suffixFixedLen

def sigStructureNumBlocks : ℕ := terminalBlockForLen maxSigStructureBytes

/-- The canonical encoding of a digestID; a larger value is a panic. -/
def encodeCborUint (value : ℕ) : Outcome (List UInt8) :=
  if value ≤ maxDigestId then
    match lengthClass value with
    | 0 => .ok [UInt8.ofNat value]
    | 1 => .ok [0x18, UInt8.ofNat value]
    | 2 => .ok (0x19 :: u16Bytes value)
    | _ => .ok (0x1a :: (u16Bytes (value / 65536) ++ u16Bytes value))
  else .error .panic
where
  /-- `u16::to_be_bytes`. -/
  u16Bytes (value : ℕ) : List UInt8 := [UInt8.ofNat (value / 256), UInt8.ofNat value]

/-- `u16::try_from`, which panics past the type. -/
def toU16 (n : ℕ) : Outcome (List UInt8) :=
  if n < 65536 then .ok [UInt8.ofNat (n / 256), UInt8.ofNat n] else .error .panic

def makeTail (digest : Bytes 32) : List UInt8 := [0x58, 0x20] ++ digest.val

/-- The length of the body and of the payload. -/
def computeLengths (realDigestSectionLen : ℕ) : Outcome (List UInt8 × List UInt8) := do
  let msoBodyLen := prefixFixedLen + realDigestSectionLen + suffixFixedLen
  let msoBody ← toU16 msoBodyLen
  let payload ← toU16 (payloadHeaderNoLen.length + 2 + msoBodyLen)
  pure (msoBody, payload)

/-- The key and the tail of one entry of the digest map. -/
def nativeEntry (t : UInt32 × List UInt8) : Outcome (List UInt8) := do
  let key ← encodeCborUint t.1.toNat
  pure (key ++ t.2)

def nativeMsoSigStructureBytes (head : List UInt8) (digestIds : List UInt32) (tails : List (List UInt8))
    (suffix : List UInt8) : Outcome (List UInt8) := do
  let entries ← (digestIds.zip tails).mapM nativeEntry
  pure (head ++ entries.flatten ++ suffix)

/-- The bytes that the issuer signs. -/
def nativeSigStructureBytes (digestIds : List UInt32) (claimDigests : List (Bytes 32)) (body : MsoBodyWitness) :
    Outcome (List UInt8) :=
  if claimDigests.length = maxClaimsV1 then do
    let encoded ← digestIds.mapM fun id => encodeCborUint id.toNat
    let lengths ← computeLengths ((encoded.map List.length).sum + maxClaimsV1 * entryTailLen)
    nativeMsoSigStructureBytes
      (sigStructurePrefixNoLen ++ lengths.2 ++ payloadHeaderNoLen ++ lengths.1 ++ segPrefixBase ++
        body.signedTs.val ++ segBetweenSignedValidFrom ++ body.validFromTs.val ++
        segBetweenValidFromValidUntil ++ body.validUntilTs.val ++ segBeforeDigests)
      digestIds (claimDigests.map makeTail)
      (segAfterDigests ++ body.deviceX.val ++ segBetweenXY ++ body.deviceY.val ++ segAfterDeviceKey)
  else .error .panic

/-! ## The circuit -/

section Circuit

variable {F V : Type} [Field F] [One V]

def orStep (acc : Option (Boolean V)) (term : Circuit F V (Boolean V)) : Circuit F V (Option (Boolean V)) := do
  let t ← term
  match acc with
  | none => pure (some t)
  | some prev => some <$> Boolean.or prev t

/-- The disjunction of terms, each built just before it is added. -/
def orAll (terms : List (Circuit F V (Boolean V))) : Circuit F V (Option (Boolean V)) :=
  terms.foldlM orStep none

/-- A one-hot and the values it ranges over. -/
abbrev Cursor (V : Type) : Type := List (Boolean V) × List ℕ

/-- `expect`: a disjunction that has a term. -/
def expectSome (acc : Option (Boolean V)) : Circuit F V (Boolean V) :=
  match acc with
  | some b => pure b
  | none => .fail .panic

def sumTerms (a b : Cursor V) (sum : ℕ) : List (Circuit F V (Boolean V)) :=
  a.2.zipIdx.flatMap fun s => (b.2.zipIdx.filter fun t => s.1 + t.1 = sum).map fun t =>
    Boolean.and (Boolean.nth a.1 s.2) (Boolean.nth b.1 t.2)

/-- The distinct sums of two one-hots' values. -/
def sumValues (a b : List ℕ) : List ℕ :=
  ((a.flatMap fun av => b.map fun bv => av + bv).mergeSort (· ≤ ·)).dedup

def convolveSum (a b : Cursor V) : Circuit F V (Cursor V) := do
  .assert (a.1.length = a.2.length)
  .assert (b.1.length = b.2.length)
  let onehot ← (sumValues a.2 b.2).mapM fun sum => do
    let acc ← orAll (sumTerms a b sum)
    expectSome acc
  pure (onehot, sumValues a.2 b.2)

/-- A source of bytes of the assembled buffer. -/
inductive Placement (V : Type) where
  | variableWidth (cursor : Cursor V) (widthOnehot content : List (Boolean V))
  | fixedWidth (cursor : Cursor V) (content : List (Boolean V))

/-- What a placement adds to a bit of the buffer. -/
def Placement.terms (byte bitIdx : ℕ) : Placement V → List (Circuit F V (Boolean V))
  | variableWidth cursor widthOnehot content =>
    cursor.2.zipIdx.flatMap fun s =>
      (digestIdWidths.zipIdx.filter fun t => s.1 ≤ byte ∧ byte < s.1 + t.1).map fun t => do
        let both ← Boolean.and (Boolean.nth cursor.1 s.2) (Boolean.nth widthOnehot t.2)
        Boolean.and both (Boolean.nth content ((byte - s.1) * 8 + bitIdx))
  | fixedWidth cursor content =>
    (cursor.2.zipIdx.filter fun s => s.1 ≤ byte ∧ byte < s.1 + content.length / 8).map fun s =>
      Boolean.and (Boolean.nth cursor.1 s.2) (Boolean.nth content ((byte - s.1) * 8 + bitIdx))

def assembleByte (start stop : ℕ) (placements : List (Placement V)) (byte : ℕ) :
    Circuit F V (List (Boolean V)) :=
  if byte < start ∨ stop ≤ byte then pure (List.replicate 8 (.constant false))
  else
    (List.range 8).mapM fun bitIdx => do
      let acc ← orAll (placements.flatMap (Placement.terms byte bitIdx))
      pure (acc.getD (.constant false))

def assembleFromPlacements (outputLen start stop : ℕ) (placements : List (Placement V)) :
    Circuit F V (List (Boolean V)) := do
  let bytes ← (List.range outputLen).mapM (assembleByte start stop placements)
  pure bytes.flatten

def allocBytes (bytes : List UInt8) : Circuit F V (List (Boolean V)) :=
  (bytesBits bytes).mapM fun b => Boolean.alloc (some b)

/-- An entry of the digest map: its digestID and the bits of its tail. -/
structure DigestIdEntry (V : Type) where
  digestId : ℕ
  tailBits : List (Boolean V)

/-- The witnessed key of an entry: its real width, its bytes and the one-hot of its width. -/
structure EntryKey (V : Type) where
  width : ℕ
  content : List (Boolean V)
  onehot : List (Boolean V)

def allocKey (e : DigestIdEntry V) : Circuit F V (EntryKey V) := do
  let encoded ← .lift (encodeCborUint e.digestId)
  let content ← allocBytes (encoded ++ List.replicate (maxCborUintBytes - encoded.length) 0)
  let onehot ← allocOneHot digestIdWidths encoded.length
  pure ⟨encoded.length, content, onehot⟩

/-- Where an entry's tail starts, from where its key starts. -/
def endCursor (start : Cursor V) (onehot : List (Boolean V)) : Circuit F V (Cursor V) :=
  if start.2.length = 1 then pure (onehot, digestIdWidths.map fun w => w + start.2.headD 0)
  else convolveSum start (onehot, digestIdWidths)

/-- The start and the end of every key, and the start of what follows the last tail. -/
def cursors (start : Cursor V) : List (EntryKey V) → Circuit F V (List (Cursor V × Cursor V) × Cursor V)
  | [] => pure ([], start)
  | key :: keys => do
    let stop ← endCursor start key.onehot
    let rest ← cursors (stop.1, stop.2.map fun v => v + entryTailLen) keys
    pure ((start, stop) :: rest.1, rest.2)

def checkEntry (e : DigestIdEntry V) : Circuit F V Unit := do
  .assert (e.tailBits.length = entryTailLen * 8)
  .assert (e.digestId ≤ maxDigestId)

def placementsOf (entries : List (DigestIdEntry V)) (keys : List (EntryKey V))
    (spans : List (Cursor V × Cursor V)) (suffixCursor : Cursor V) (suffixBits : List (Boolean V)) :
    List (Placement V) :=
  ((spans.zip keys).map fun t => Placement.variableWidth t.1.1 t.2.onehot t.2.content) ++
    ((spans.zip entries).map fun t => Placement.fixedWidth t.1.2 t.2.tailBits) ++
    [.fixedWidth suffixCursor suffixBits]

/-- The assembled buffer, and the length of its real content. -/
def assembleMsoSigStructure (prefixBits : List (Boolean V)) (entries : List (DigestIdEntry V))
    (suffixBits : List (Boolean V)) : Circuit F V (List (Boolean V) × ℕ) := do
  .assert (prefixBits.length % 8 = 0)
  .assert (suffixBits.length % 8 = 0)
  forM entries checkEntry
  let prefixLen := prefixBits.length / 8
  let suffixLen := suffixBits.length / 8
  let outputLen := prefixLen + maxDigestSectionBytes + suffixLen
  let keys ← entries.mapM allocKey
  let t ← cursors ([.constant true], [prefixLen]) keys
  let realLen := prefixLen + ((keys.map EntryKey.width).sum + maxClaimsV1 * entryTailLen) + suffixLen
  let assembled ← assembleFromPlacements outputLen prefixLen outputLen
    (placementsOf entries keys t.1 t.2 suffixBits)
  pure (prefixBits ++ assembled.drop prefixBits.length, realLen)

/-- The bits of the fields that are published too. -/
structure AllocatedMsoBodyBits (V : Type) where
  deviceX : List (Boolean V)
  deviceY : List (Boolean V)
  signedTs : List (Boolean V)
  validFromTs : List (Boolean V)
  validUntilTs : List (Boolean V)

def fixedBits (bytes : List UInt8) : List (Boolean V) := (bytesBits bytes).map .constant

/-- The buffer of the signed structure, its real length, the bits of its body and of its entries. -/
structure SigStructure (V : Type) where
  bits : List (Boolean V)
  realLen : ℕ
  body : AllocatedMsoBodyBits V
  entries : List (DigestIdEntry V)

/-- The entry of a digestID and its digest: the tail is witnessed whole. -/
def allocEntry (t : UInt32 × Bytes 32) : Circuit F V (DigestIdEntry V) := do
  let tailBits ← allocBytes (makeTail t.2)
  pure ⟨t.1.toNat, tailBits⟩

def allocSigStructureBits (digestIds : List UInt32) (claimDigests : List (Bytes 32))
    (body : MsoBodyWitness) : Circuit F V (SigStructure V) := do
  .assert (claimDigests.length = maxClaimsV1)
  let encoded ← .lift (digestIds.mapM fun id => encodeCborUint id.toNat)
  let lengths ← .lift (computeLengths ((encoded.map List.length).sum + maxClaimsV1 * entryTailLen))
  let payloadLen ← allocBytes lengths.2
  let msoBodyLen ← allocBytes lengths.1
  let signedTs ← allocBytes body.signedTs.val
  let validFromTs ← allocBytes body.validFromTs.val
  let validUntilTs ← allocBytes body.validUntilTs.val
  let deviceX ← allocBytes body.deviceX.val
  let deviceY ← allocBytes body.deviceY.val
  let entries ← (digestIds.zip claimDigests).mapM allocEntry
  let prefixBits := fixedBits sigStructurePrefixNoLen ++ payloadLen ++ fixedBits payloadHeaderNoLen ++
    msoBodyLen ++ fixedBits segPrefixBase ++ signedTs ++ fixedBits segBetweenSignedValidFrom ++
    validFromTs ++ fixedBits segBetweenValidFromValidUntil ++ validUntilTs ++ fixedBits segBeforeDigests
  let suffixBits := fixedBits segAfterDigests ++ deviceX ++ fixedBits segBetweenXY ++ deviceY ++
    fixedBits segAfterDeviceKey
  let assembled ← assembleMsoSigStructure prefixBits entries suffixBits
  .assert (assembled.1.length = maxSigStructureBytes * 8)
  pure ⟨assembled.1, assembled.2, ⟨deviceX, deviceY, signedTs, validFromTs, validUntilTs⟩, entries⟩

end Circuit

end Mso

open Mso

/-- The signature gadget: the key, the signature's numbers and the bits of the digest. -/
abbrev EcdsaCheck (F V : Type) : Type :=
  AllocatedNum F V → AllocatedNum F V → ℤ → ℤ → ℤ → List (Boolean V) → Circuit F V Unit

/-- What a satisfying assignment gives the core circuit's private wires: the tails of the signed
structure's entries, the nonce, and the digests that are blinded. -/
structure CoreWires (V : Type) where
  tails : List (List (Boolean V))
  nonceBits : List (Boolean V)
  digests : List (List (Boolean V))

section Circuit

variable {F V : Type} [Field F] [One V]

def allocPublic (v : F) : Circuit F V (AllocatedNum F V) := do
  let num ← AllocatedNum.alloc (.ok v)
  num.inputize
  pure num

def exposeDigestId (id : UInt32) : Circuit F V Unit := do
  let bits ← (u32Bits id).mapM fun b => Boolean.alloc (some b)
  inputizeBits bits

/-- Publishes a blinded claim digest, whose bits are allocated afresh. -/
def exposeDigest (sha256 : List (Boolean V) → Circuit F V (List (Boolean V)))
    (nonceBits : List (Boolean V)) (digest : Bytes 32) : Circuit F V (List (Boolean V)) := do
  let digestBits ← allocBytes digest.val
  let blinded ← sha256 (digestBits ++ nonceBits)
  inputizeBits blinded
  pure digestBits

namespace MdocCoreCircuit

def synthesizeWires (compress : Compression F V)
    (sha256 : List (Boolean V) → Circuit F V (List (Boolean V))) (verifyEcdsa : EcdsaCheck F V)
    (c : MdocCoreCircuit F) : Circuit F V (CoreWires V) := do
  let qx ← allocPublic c.ecdsa.qx
  let qy ← allocPublic c.ecdsa.qy
  let mso ← allocSigStructureBits c.digestIds c.claimDigests c.msoBody
  let z ← sha256VarSized compress mso.bits mso.realLen Mso.maxSigStructureBytes Mso.sigStructureNumBlocks
  let nonceBits ← allocBytes c.nonce.val
  inputizeBits nonceBits
  inputizeBits mso.body.deviceX
  inputizeBits mso.body.deviceY
  inputizeBits mso.body.signedTs
  inputizeBits mso.body.validFromTs
  inputizeBits mso.body.validUntilTs
  forM c.digestIds exposeDigestId
  let digests ← c.claimDigests.mapM (exposeDigest sha256 nonceBits)
  verifyEcdsa qx qy c.ecdsa.r c.ecdsa.s c.ecdsa.sInv z.1
  pure ⟨mso.entries.map (·.tailBits), nonceBits, digests⟩

def precommitted (compress : Compression F V)
    (sha256 : List (Boolean V) → Circuit F V (List (Boolean V))) (verifyEcdsa : EcdsaCheck F V)
    (c : MdocCoreCircuit F) : Circuit F V (List (AllocatedNum F V)) := do
  let _ ← synthesizeWires compress sha256 verifyEcdsa c
  pure []

end MdocCoreCircuit

end Circuit

/-! ## Bytes, keys and lengths -/

namespace Mso

section Bits

variable {F : Type} [Field F]

theorem sumTerms_ne_nil {a b : Cursor F} {sum : ℕ} (h : sum ∈ sumValues a.2 b.2) :
    (sumTerms a b sum : List (Circuit F F _)) ≠ [] := by
  rw [sumValues, List.mem_dedup, List.mem_mergeSort] at h
  obtain ⟨av, hav, h⟩ := List.mem_flatMap.mp h
  obtain ⟨bv, hbv, rfl⟩ := List.mem_map.mp h
  obtain ⟨i, hi, rfl⟩ := List.mem_iff_getElem.mp hav
  obtain ⟨j, hj, rfl⟩ := List.mem_iff_getElem.mp hbv
  apply List.ne_nil_of_mem
  rw [sumTerms]
  refine List.mem_flatMap.mpr ⟨(a.2[i], i), List.mk_mem_zipIdx_iff_getElem?.mpr (List.getElem?_eq_getElem hi),
    List.mem_map.mpr ⟨(b.2[j], j), List.mem_filter.mpr ⟨?_, by simp⟩, rfl⟩⟩
  exact List.mk_mem_zipIdx_iff_getElem?.mpr (List.getElem?_eq_getElem hj)

theorem forall₂_right {α β : Type} {R : α → β → Prop} {xs : List α} {ys : List β}
    (h : List.Forall₂ R xs ys) {y : β} (hy : y ∈ ys) : ∃ x, x ∈ xs ∧ R x y :=
  forall₂_left h.flip hy

/-- What every run of `allocBytes` gives, and what any bytes of the length can give. -/
theorem ensures_allocBytes {bytes : List UInt8} : (allocBytes bytes : Circuit F F _).Ensures fun bits =>
    ∃ bs : List UInt8, bs.length = bytes.length ∧ Boolean.ReadsAll bits (bytesBits bs) := by
  refine Boolean.ensures_allocBits.mono fun bits ⟨xs, hxs, hreads⟩ => ?_
  rw [length_bytesBits] at hxs
  obtain ⟨bs, hbs, rfl⟩ := exists_bytesBits hxs
  exact ⟨bs, hbs, hreads⟩

theorem admits_allocBytes {bytes : List UInt8} (bs : List UInt8) (h : bs.length = bytes.length) :
    (allocBytes bytes : Circuit F F _).Admits (Boolean.ReadsAll · (bytesBits bs)) :=
  Boolean.admits_allocBits (bytesBits bs) (by simp [h])

theorem succeeds_allocBytes (bytes : List UInt8) :
    (allocBytes bytes : Circuit F F _).Succeeds (Boolean.HonestReadsAll · (bytesBits bytes)) := by
  refine (Circuit.Succeeds.mapM fun b _ => Boolean.succeeds_alloc rfl).mono fun bits hbits => ?_
  have hreads : Boolean.HonestReadsAll bits ((bytesBits bytes).map id) := .of_forall₂ hbits
  rwa [List.map_id] at hreads

theorem length_encodeCborUint {value : ℕ} {bytes : List UInt8} (h : encodeCborUint value = .ok bytes) :
    bytes.length ∈ digestIdWidths ∧ bytes.length ≤ maxCborUintBytes := by
  unfold encodeCborUint at h
  split at h
  · split at h <;> cases h <;> simp [digestIdWidths, maxCborUintBytes, encodeCborUint.u16Bytes]
  · cases h

theorem encodeCborUint_ok {value : ℕ} (h : value ≤ maxDigestId) : ∃ bytes, encodeCborUint value = .ok bytes := by
  unfold encodeCborUint
  rw [if_pos h]
  split
  · exact ⟨_, rfl⟩
  · exact ⟨_, rfl⟩
  · exact ⟨_, rfl⟩
  · exact ⟨_, rfl⟩

theorem toU16_ok {n : ℕ} {bytes : List UInt8} (h : toU16 n = .ok bytes) : bytes.length = 2 := by
  unfold toU16 at h
  split at h
  · cases h
    rfl
  · cases h

theorem computeLengths_ok {n : ℕ} {t : List UInt8 × List UInt8} (h : computeLengths n = .ok t) :
    t.1.length = 2 ∧ t.2.length = 2 := by
  obtain ⟨m, hm, h⟩ := bind_eq_ok_iff.mp h
  obtain ⟨p, hp, h⟩ := bind_eq_ok_iff.mp h
  cases h
  exact ⟨toU16_ok hm, toU16_ok hp⟩

theorem encodeCborUint_le {value : ℕ} {bytes : List UInt8} (h : encodeCborUint value = .ok bytes) :
    value ≤ maxDigestId := by
  by_contra hle
  rw [encodeCborUint, if_neg hle] at h
  cases h

variable {digestIds : List UInt32} {claimDigests : List (Bytes 32)} {body : MsoBodyWitness}

theorem toU16_of_lt {n : ℕ} (h : n < 65536) : ∃ bytes, toU16 n = .ok bytes := by
  unfold toU16
  rw [if_pos h]
  exact ⟨_, rfl⟩

theorem computeLengths_of_le {n : ℕ} (h : n ≤ maxDigestSectionBytes) : ∃ t, computeLengths n = .ok t := by
  have hmax : maxDigestSectionBytes = 156 := rfl
  have hfixed : prefixFixedLen = 184 := rfl
  have hrest : suffixFixedLen = 124 := rfl
  have hheader : payloadHeaderNoLen.length = 3 := rfl
  obtain ⟨m, hm⟩ := toU16_of_lt (show prefixFixedLen + n + suffixFixedLen < 65536 by omega)
  obtain ⟨p, hp⟩ := toU16_of_lt
    (show payloadHeaderNoLen.length + 2 + (prefixFixedLen + n + suffixFixedLen) < 65536 by omega)
  exact ⟨(m, p), bind_eq_ok_iff.mpr ⟨m, hm, bind_eq_ok_iff.mpr ⟨p, hp, rfl⟩⟩⟩

theorem encoded_length_le {encoded : List (List UInt8)}
    (h : digestIds.mapM (fun id => encodeCborUint id.toNat) = .ok encoded) (hids : digestIds.length = maxClaimsV1) :
    (encoded.map List.length).sum + maxClaimsV1 * entryTailLen ≤ maxDigestSectionBytes := by
  have hall := Circuit.mapM_eq_ok_iff.mp h
  have hsum := List.sum_le_card_nsmul (encoded.map List.length) maxCborUintBytes fun n hn => by
    obtain ⟨bytes, hbytes, rfl⟩ := List.mem_map.mp hn
    obtain ⟨_, -, hok⟩ := forall₂_right hall hbytes
    exact (length_encodeCborUint hok).2
  rw [List.length_map, ← hall.length_eq, hids, smul_eq_mul] at hsum
  have hsection : maxDigestSectionBytes = maxClaimsV1 * maxCborUintBytes + maxClaimsV1 * entryTailLen := by decide
  omega

end Bits

end Mso

/-! ## The digests that are published -/

section Digests

variable {F : Type} [Field F]

def blindedBits (nonce digest : List UInt8) : List F :=
  (bytesBits (Sha256.hash (digest ++ nonce))).map bitValue

theorem length_blindedBits (nonce digest : List UInt8) : (blindedBits nonce digest : List F).length = 256 := by
  simp [blindedBits, Sha256.length_hash]

/-- The digests of a run are worth some bytes, and their blinded digests are what it publishes. -/
theorem runs_exposeDigests (hash : HashGadget F) {nonceBits : List (Boolean F)} {nonce : List UInt8}
    (hnonce : Boolean.ReadsAll nonceBits (bytesBits nonce)) {digests : List (Bytes 32)} {ins : List F}
    {out : List (List (Boolean F))} (h : (digests.mapM (exposeDigest hash.sha256 nonceBits)).Runs ins out) :
    ∃ ds : List (List UInt8), ds.length = digests.length ∧ (∀ d ∈ ds, d.length = 32) ∧
      List.Forall₂ (fun bits d => Boolean.ReadsAll bits (bytesBits d)) out ds ∧
      ins = ds.flatMap (blindedBits nonce) := by
  induction digests generalizing ins out with
  | nil =>
    obtain ⟨rfl, rfl⟩ := Circuit.runs_pure.mp h
    exact ⟨[], rfl, nofun, .nil, rfl⟩
  | cons digest digests ih =>
    rw [List.mapM_cons] at h
    obtain ⟨i, j, bits, rfl, hfirst, h⟩ := Circuit.runs_bind.mp h
    obtain ⟨j', k, rest, rfl, hrest, hend⟩ := Circuit.runs_bind.mp h
    obtain ⟨rfl, rfl⟩ := Circuit.runs_pure.mp hend
    obtain ⟨ds, hlen, hall, hreads, rfl⟩ := ih hrest
    obtain ⟨digestBits, -, ⟨d, hd, hdreads⟩, hfirst⟩ := hfirst.bind_elim ensures_allocBytes
    have hblind : Boolean.HoldsAll .any (digestBits ++ nonceBits) (bytesBits (d ++ nonce)) := by
      rw [bytesBits_append]
      exact hdreads.append hnonce
    obtain ⟨blinded, -, hblinded, hfirst⟩ := hfirst.bind_elim (hash.correct .any hblind).ensures
    obtain ⟨rest', hi, hfirst⟩ := Runs.inputizeBits_elim hfirst hblinded
    obtain ⟨rfl, rfl⟩ := Circuit.runs_pure.mp hfirst
    rw [digest.property] at hd
    refine ⟨d :: ds, by simp [hlen], ?_, .cons hdreads hreads, ?_⟩
    · intro e he
      rcases List.mem_cons.mp he with rfl | he
      · exact hd
      · exact hall e he
    · rw [hi, List.append_nil, List.append_nil, List.flatMap_cons]
      rfl

theorem exists_runs_exposeDigests (hash : HashGadget F) {nonceBits : List (Boolean F)} {nonce : List UInt8}
    (hnonce : Boolean.ReadsAll nonceBits (bytesBits nonce)) {digests : List (Bytes 32)} {ds : List (List UInt8)}
    (hlen : ds.length = digests.length) (hds : ∀ d ∈ ds, d.length = 32) :
    ∃ out, (digests.mapM (exposeDigest hash.sha256 nonceBits)).Runs (ds.flatMap (blindedBits nonce)) out ∧
      List.Forall₂ (fun bits d => Boolean.ReadsAll bits (bytesBits d)) out ds := by
  induction digests generalizing ds with
  | nil =>
    obtain rfl := List.eq_nil_of_length_eq_zero hlen
    exact ⟨[], Circuit.runs_pure.mpr ⟨rfl, rfl⟩, .nil⟩
  | cons digest digests ih =>
    cases ds with
    | nil => cases hlen
    | cons d ds =>
      obtain ⟨out, hout, hreads⟩ := ih (by simpa using hlen) fun e he => hds e (List.mem_cons_of_mem _ he)
      have hd : d.length = digest.val.length := by rw [hds d List.mem_cons_self, digest.property]
      obtain ⟨digestBits, hdrun, hdreads⟩ := admits_allocBytes (F := F) d hd
      have hblind : Boolean.HoldsAll .any (digestBits ++ nonceBits) (bytesBits (d ++ nonce)) := by
        rw [bytesBits_append]
        exact hdreads.append hnonce
      obtain ⟨blinded, hbrun, hblinded⟩ := (hash.correct .any hblind).admits
      have hfirst : (exposeDigest hash.sha256 nonceBits digest).Runs (blindedBits nonce d ++ []) digestBits :=
        .bind_intro hdrun (.bind_intro hbrun (Runs.inputizeBits_intro hblinded (Circuit.runs_pure.mpr ⟨rfl, rfl⟩)))
      rw [List.append_nil] at hfirst
      refine ⟨digestBits :: out, ?_, .cons hdreads hreads⟩
      rw [List.mapM_cons, List.flatMap_cons]
      refine Circuit.runs_bind.mpr ⟨_, _, digestBits, rfl, hfirst, ?_⟩
      exact Circuit.runs_bind.mpr ⟨_, [], out, (List.append_nil _).symm, hout, rfl, rfl⟩

end Digests

end ZkCredVega
