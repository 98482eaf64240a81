import ZkCredVega.Claims.Structure
import ZkCredVega.Claims.Signature

/-!
# The framing of the signed structure

The core circuit hashes a buffer that it assembles from one group of witnesses and publishes the
digestIDs from another. No constraint joins the two, so whatever the buffer says, any digestIDs
can be published beside it.
-/

namespace ZkCredVega

open Circuits

open Mso

/-! ## The wires -/

/-- The wires of the core circuit that the framing is about: the signed structure, its digest, the
hash's mask of real bytes, and the bits that are published as digestIDs. -/
structure FrameWires (V : Type) extends CoreWires V where
  mso : KeyedStructure V
  z : List (Boolean V)
  msgActive : List (Boolean V)
  digestIds : List (List (Boolean V))

section Circuit

variable {F : Type} [Field F]

/-- `exposeDigestId`, with the bits it publishes. -/
def exposeDigestIdBits (id : UInt32) : Circuit F F (List (Boolean F)) := do
  let bits ← (u32Bits id).mapM fun b => Boolean.alloc (some b)
  inputizeBits bits
  pure bits

/-- The wires of the first part: the issuer's key, the structure that is signed, and its digest. -/
structure SignedWires (F V : Type) where
  qx : AllocatedNum F V
  qy : AllocatedNum F V
  mso : KeyedStructure V
  z : List (Boolean V) × List (Boolean V)
  nonceBits : List (Boolean V)

/-- `synthesizeWires` up to the digestIDs. -/
def MdocCoreCircuit.synthesizeSigned (compress : Compression F F) (c : MdocCoreCircuit F) :
    Circuit F F (SignedWires F F) := do
  let qx ← allocPublic c.ecdsa.qx
  let qy ← allocPublic c.ecdsa.qy
  let mso ← allocKeyedStructure c.digestIds c.claimDigests c.msoBody
  let z ← sha256VarSized compress mso.bits mso.realLen Mso.maxSigStructureBytes Mso.sigStructureNumBlocks
  let nonceBits ← allocBytes c.nonce.val
  inputizeBits nonceBits
  inputizeBits mso.body.deviceX
  inputizeBits mso.body.deviceY
  inputizeBits mso.body.signedTs
  inputizeBits mso.body.validFromTs
  inputizeBits mso.body.validUntilTs
  pure ⟨qx, qy, mso, z, nonceBits⟩

/-- `synthesizeWires`, with the wires that it drops. -/
def MdocCoreCircuit.synthesizeFrame (compress : Compression F F)
    (sha256 : List (Boolean F) → Circuit F F (List (Boolean F))) (verifyEcdsa : EcdsaCheck F F)
    (c : MdocCoreCircuit F) : Circuit F F (FrameWires F) := do
  let signed ← c.synthesizeSigned compress
  let digestIds ← c.digestIds.mapM exposeDigestIdBits
  let digests ← c.claimDigests.mapM (exposeDigest sha256 signed.nonceBits)
  verifyEcdsa signed.qx signed.qy c.ecdsa.r c.ecdsa.s c.ecdsa.sInv signed.z.1
  pure ⟨⟨signed.mso.entries.map (·.tailBits), signed.nonceBits, digests⟩, signed.mso, signed.z.1, signed.z.2,
    digestIds⟩

theorem forM_exposeDigestId (ids : List UInt32) : (forM ids exposeDigestId : Circuit F F Unit) =
    ids.mapM exposeDigestIdBits >>= fun _ => pure () := by
  induction ids with
  | nil => rfl
  | cons id ids ih =>
    rw [List.forM_cons, ih, List.mapM_cons]
    simp only [exposeDigestId, exposeDigestIdBits, bind_assoc, pure_bind]

namespace MdocCoreCircuit

variable (compress : Compression F F) (sha256 : List (Boolean F) → Circuit F F (List (Boolean F)))
  (verifyEcdsa : EcdsaCheck F F) (c : MdocCoreCircuit F)

theorem synthesizeWires_eq : c.synthesizeWires compress sha256 verifyEcdsa =
    FrameWires.toCoreWires <$> c.synthesizeFrame compress sha256 verifyEcdsa := by
  unfold synthesizeWires synthesizeFrame synthesizeSigned
  simp only [forM_exposeDigestId, allocSigStructureBits_eq, bind_map_left, map_bind, map_pure, bind_assoc, pure_bind]

theorem precommitted_eq : c.precommitted compress sha256 verifyEcdsa =
    (fun _ => []) <$> c.synthesizeFrame compress sha256 verifyEcdsa := by
  unfold precommitted
  rw [synthesizeWires_eq, bind_map_left, bind_pure_comp]

end MdocCoreCircuit

end Circuit

/-! ## What is hashed and what is published -/

section Framing

variable {F : Type} [Field F]

def ExposeIds (bits : List (List (Boolean F))) (ids : List UInt32) : Prop :=
  List.Forall₂ (fun bs id => Boolean.ReadsAll bs (u32Bits id)) bits ids

namespace FrameWires

/-- `message` is the byte string whose SHA-256 the signature is checked on: the buffer, up to the
length that the hash's mask shows. -/
def Hashes (w : FrameWires F) (message : List UInt8) : Prop :=
  ∃ raw len, Boolean.ReadsAll w.mso.bits (bytesBits raw) ∧
    Boolean.ReadsAll w.msgActive ((List.range Mso.maxSigStructureBytes).map fun i => decide (i < len)) ∧
    Boolean.ReadsAll w.z (bytesBits (Sha256.hash message)) ∧ message = raw.take len

/-- What is hashed is the structure of the published digestIDs and body, and of some digests. -/
def Framed (w : FrameWires F) : Prop :=
  ∀ message, w.Hashes message → ∃ ids digests body, ExposeIds w.digestIds ids ∧ w.mso.body.Holds .any body ∧
    nativeSigStructureBytes ids digests body = .ok message

end FrameWires

theorem ExposeIds.map_u32Bits {bits : List (List (Boolean F))} {ids ids' : List UInt32} (h : ExposeIds bits ids)
    (h' : ExposeIds bits ids') : ids.map u32Bits = ids'.map u32Bits := by
  induction h generalizing ids' with
  | nil =>
    cases h'
    rfl
  | cons hb _ ih =>
    cases h' with
    | cons hb' hbs' => rw [List.map_cons, List.map_cons, Boolean.ReadsAll.unique hb hb', ih hbs']

theorem exists_runs_exposeDigestIdBits {xs ids : List UInt32} (h : xs.length = ids.length) :
    ∃ ins bits, (xs.mapM exposeDigestIdBits : Circuit F F _).Runs ins bits ∧ ExposeIds bits ids := by
  induction xs generalizing ids with
  | nil =>
    cases ids with
    | nil => exact ⟨[], [], ⟨rfl, rfl⟩, .nil⟩
    | cons => cases h
  | cons x xs ih =>
    cases ids with
    | nil => cases h
    | cons id ids =>
      obtain ⟨ins, rest, hrest, hids⟩ := ih (Nat.succ.inj h)
      have hlen : (u32Bits id).length = (u32Bits x).length := by simp only [u32Bits, List.length_map]
      obtain ⟨bits, hbits, hid⟩ := Boolean.admits_allocBits (F := F) (f := some) (u32Bits id) hlen
      have hexpose : (exposeDigestIdBits x : Circuit F F _).Runs (bits.map Boolean.eval) bits :=
        hbits.bind_intro (Circuit.runs_bind.mpr ⟨_, [], (), (List.append_nil _).symm, runs_inputizeBits.mpr rfl,
          rfl, rfl⟩)
      refine ⟨bits.map Boolean.eval ++ ins, bits :: rest, ?_, .cons hid hids⟩
      rw [List.mapM_cons]
      refine Circuit.runs_bind.mpr ⟨_, ins, bits, rfl, hexpose, ?_⟩
      exact Circuit.runs_bind.mpr ⟨ins, [], rest, (List.append_nil _).symm, hrest, rfl, rfl⟩

section Runs

variable {compress : Compression F F} {sha256 : List (Boolean F) → Circuit F F (List (Boolean F))}
  {verifyEcdsa : EcdsaCheck F F} {c : MdocCoreCircuit F} {ins : List F} {w : FrameWires F}

/-- An assignment stays satisfying when other digestIDs are published: nothing else reads them. -/
theorem exists_runs_exposing (h : (c.synthesizeFrame compress sha256 verifyEcdsa).Runs ins w) (ids : List UInt32)
    (hids : c.digestIds.length = ids.length) : ∃ ins' bits, ExposeIds bits ids ∧
      (c.synthesizeFrame compress sha256 verifyEcdsa).Runs ins' { w with digestIds := bits } := by
  obtain ⟨idIns, bits, hidRun, hexpose⟩ := exists_runs_exposeDigestIdBits (F := F) hids
  obtain ⟨i, j, signed, rfl, hsigned, h⟩ := Circuit.runs_bind.mp h
  obtain ⟨i', j', _, rfl, -, h⟩ := Circuit.runs_bind.mp h
  obtain ⟨k, l, digests, rfl, hdigests, h⟩ := Circuit.runs_bind.mp h
  obtain ⟨k', l', _, rfl, hverify, h⟩ := Circuit.runs_bind.mp h
  obtain ⟨rfl, rfl⟩ := Circuit.runs_pure.mp h
  refine ⟨i ++ (idIns ++ (k ++ (k' ++ []))), bits, hexpose, ?_⟩
  refine Circuit.runs_bind.mpr ⟨_, _, signed, rfl, hsigned, ?_⟩
  refine Circuit.runs_bind.mpr ⟨_, _, bits, rfl, hidRun, ?_⟩
  refine Circuit.runs_bind.mpr ⟨_, _, digests, rfl, hdigests, ?_⟩
  exact Circuit.runs_bind.mpr ⟨_, [], _, rfl, hverify, rfl, rfl⟩

end Runs

/-- What every run of the first part holds and publishes. -/
structure SignedWires.Reads (w : SignedWires F F) (ins : List F) (head : List UInt8) (es : List SplicedEntry)
    (body : MsoBodyWitness) (nonce : Bytes blindNonceBytes) (len : ℕ) : Prop where
  mso : w.mso.Holds .any head es body
  mask : Boolean.ReadsAll w.z.2 ((List.range Mso.maxSigStructureBytes).map fun i => decide (i < len))
  digest : Boolean.ReadsAll w.z.1 (bytesBits (Sha256.hash ((splicedBuffer head es (suffixBytes body)).take len)))
  nonceBits : Boolean.ReadsAll w.nonceBits (bytesBits nonce.val)
  length_ins : ins.length = 2 + blindNonceBytes * 8 + 256 + 256 + timestampLen * 8 + timestampLen * 8 + timestampLen * 8

theorem length_bitValues {n : ℕ} (bytes : Bytes n) : ((bytesBits bytes.val).map bitValue : List F).length = 8 * n := by
  rw [List.length_map, length_bytesBits, bytes.property]

theorem runs_allocPublic {v : F} {ins : List F} {num : AllocatedNum F F} (h : (allocPublic v).Runs ins num) :
    ins.length = 1 := by
  obtain ⟨n, -, -, h⟩ := h.bind_elim AllocatedNum.ensures_alloc
  obtain ⟨i, j, _, rfl, hinput, h⟩ := Circuit.runs_bind.mp h
  obtain ⟨rfl, rfl⟩ := Circuit.runs_pure.mp h
  rw [AllocatedNum.runs_inputize.mp hinput]
  rfl

/-- The digest is that of the buffer up to some length. -/
theorem runs_synthesizeSigned [LargeChar F] (gadget : CompressionGadget F) {c : MdocCoreCircuit F} {ins : List F}
    {signed : SignedWires F F} (hids : c.digestIds.length = maxClaimsV1)
    (h : (c.synthesizeSigned gadget.compress).Runs ins signed) :
    c.claimDigests.length = maxClaimsV1 ∧ ∃ head es body nonce len, signed.Reads ins head es body nonce len := by
  obtain ⟨i1, j1, qx, rfl, hqx, h⟩ := Circuit.runs_bind.mp h
  obtain ⟨i2, j2, qy, rfl, hqy, h⟩ := Circuit.runs_bind.mp h
  obtain ⟨mso, -, ⟨hdigests, head, es, body, hmso⟩, h⟩ := h.bind_elim (ensures_allocKeyedStructure hids)
  have hraw : (splicedBuffer head es (suffixBytes body)).length = Mso.maxSigStructureBytes := by
    rw [length_splicedBuffer hmso.entries hmso.length_entries, hmso.length_head, length_suffixBytes]
    decide
  obtain ⟨z, -, ⟨len, -, hz, hactive⟩, h⟩ :=
    h.bind_elim (ensures_sha256VarSized gadget hmso.bits hraw (by decide) le_rfl)
  obtain ⟨nonceBits, -, ⟨nonce, hnonce⟩, h⟩ := h.bind_elim (ensures_allocFixed c.nonce)
  obtain ⟨i3, hi3, h⟩ := Runs.inputizeBits_elim h hnonce
  obtain ⟨i4, hi4, h⟩ := Runs.inputizeBits_elim h hmso.body.deviceX
  obtain ⟨i5, hi5, h⟩ := Runs.inputizeBits_elim h hmso.body.deviceY
  obtain ⟨i6, hi6, h⟩ := Runs.inputizeBits_elim h hmso.body.signedTs
  obtain ⟨i7, hi7, h⟩ := Runs.inputizeBits_elim h hmso.body.validFromTs
  obtain ⟨i8, hi8, h⟩ := Runs.inputizeBits_elim h hmso.body.validUntilTs
  obtain ⟨rfl, rfl⟩ := Circuit.runs_pure.mp h
  refine ⟨hdigests, head, es, body, nonce, len, hmso, hactive, hz, hnonce, ?_⟩
  simp only [hi3, hi4, hi5, hi6, hi7, hi8, List.length_append, length_bitValues, List.length_nil,
    runs_allocPublic hqx, runs_allocPublic hqy]
  decide

theorem exists_hashes [LargeChar F] (gadget : CompressionGadget F)
    {sha256 : List (Boolean F) → Circuit F F (List (Boolean F))} {verifyEcdsa : EcdsaCheck F F}
    {c : MdocCoreCircuit F} {ins : List F} {w : FrameWires F} (hids : c.digestIds.length = maxClaimsV1)
    (h : (c.synthesizeFrame gadget.compress sha256 verifyEcdsa).Runs ins w) : ∃ message, w.Hashes message := by
  obtain ⟨i, j, signed, rfl, hsigned, h⟩ := Circuit.runs_bind.mp h
  obtain ⟨-, head, es, body, nonce, len, hreads⟩ := runs_synthesizeSigned gadget hids hsigned
  obtain ⟨i', j', _, rfl, -, h⟩ := Circuit.runs_bind.mp h
  obtain ⟨k, l, digests, rfl, -, h⟩ := Circuit.runs_bind.mp h
  obtain ⟨k', l', _, rfl, -, h⟩ := Circuit.runs_bind.mp h
  obtain ⟨-, rfl⟩ := Circuit.runs_pure.mp h
  exact ⟨_, _, len, hreads.mso.bits, hreads.mask, hreads.digest, rfl⟩

theorem runs_allocPublic_self (v : F) : (allocPublic v : Circuit F F _).Runs [v] ⟨v, some v⟩ := by
  refine .bind_intro (a := ⟨v, some v⟩) ⟨v, rfl, rfl⟩ ?_
  exact Circuit.runs_bind.mpr ⟨[v], [], (), rfl, AllocatedNum.runs_inputize.mpr rfl, rfl, rfl⟩

/-- Without the zeros, the buffer is what is signed. -/
theorem take_splicedBuffer (head : List UInt8) (es : List SplicedEntry) (suffix : List UInt8) :
    (splicedBuffer head es suffix).take (head ++ splicedBytes es ++ suffix).length =
      head ++ splicedBytes es ++ suffix := List.take_left

theorem succeeds_structureDigest (gadget : CompressionGadget F) {m : KeyedStructure F} {head : List UInt8}
    {es : List SplicedEntry} {body : MsoBodyWitness} (h : m.Holds .honest head es body)
    (hlen : m.realLen = (head ++ splicedBytes es ++ suffixBytes body).length) :
    (sha256VarSized gadget.compress m.bits m.realLen Mso.maxSigStructureBytes Mso.sigStructureNumBlocks).Succeeds
      fun t => Boolean.HonestReadsAll t.1 (bytesBits (Sha256.hash (head ++ splicedBytes es ++ suffixBytes body))) ∧
        Boolean.HonestReadsAll t.2 ((List.range Mso.maxSigStructureBytes).map fun i => decide (i < m.realLen)) := by
  have hbuffer := length_splicedBuffer h.entries h.length_entries head (suffixBytes body)
  have hmax : (splicedBuffer head es (suffixBytes body)).length = Mso.maxSigStructureBytes := by
    rw [hbuffer, h.length_head, length_suffixBytes]
    decide
  have hreal : m.realLen ≤ Mso.maxSigStructureBytes := by
    rw [hlen, ← hmax, ← take_splicedBuffer]
    exact List.length_take_le' _ _
  refine (succeeds_sha256VarSized gadget h.bits hmax hreal le_rfl).mono fun t ht => ?_
  rw [hlen, take_splicedBuffer, ← hlen] at ht
  exact ht

section Existence

variable {gadget : CompressionGadget F} {hash : HashGadget F} {verifyEcdsa : EcdsaCheck F F}
  {c : MdocCoreCircuit F} {native : List UInt8}

/-- The honest wires of the structure, its digest and the nonce, whatever digests are blinded, when the signature
check accepts the digest of the native bytes. -/
theorem exists_runs_synthesizeFrame (hids : c.digestIds.length = maxClaimsV1)
    (hdigests : c.claimDigests.length = maxClaimsV1)
    (hnative : nativeSigStructureBytes c.digestIds c.claimDigests c.msoBody = .ok native)
    (hverify : ∀ qx qy : AllocatedNum F F, qx.Holds .honest c.ecdsa.qx → qy.Holds .honest c.ecdsa.qy →
      ∀ z, Boolean.HonestReadsAll z (bytesBits (Sha256.hash native)) →
        (verifyEcdsa qx qy c.ecdsa.r c.ecdsa.s c.ecdsa.sInv z).Succeeds fun _ => True)
    {ds : List (List UInt8)} (hds : ds.length = maxClaimsV1) (hall : ∀ d ∈ ds, d.length = 32) :
    ∃ ins w, (c.synthesizeFrame gadget.compress hash.sha256 verifyEcdsa).Runs ins w ∧ w.Hashes native ∧
      (∃ head es, w.mso.Holds .honest head es c.msoBody ∧ es.map SplicedEntry.tail = c.claimDigests.map makeTail ∧
        native = head ++ splicedBytes es ++ suffixBytes c.msoBody) ∧
      Boolean.ReadsAll w.nonceBits (bytesBits c.nonce.val) ∧
      List.Forall₂ (fun bits d => Boolean.ReadsAll bits (bytesBits d)) w.digests ds := by
  obtain ⟨e⟩ := exists_encoding hnative
  have hle : ∀ id ∈ c.digestIds, id.toNat ≤ maxDigestId := by
    intro id hid
    obtain ⟨bytes, -, hok⟩ := forall₂_left (Circuit.mapM_eq_ok_iff.mp e.encoded_eq) hid
    exact encodeCborUint_le hok
  have hstructure : (allocKeyedStructure c.digestIds c.claimDigests c.msoBody : Circuit F F _).Succeeds _ :=
    succeeds_allocKeyedStructure hids hdigests hle
  obtain ⟨mso, hmsoRun, head, es, hmso, htails, hbytes, hlen⟩ := hstructure
  obtain rfl := Except.ok.inj (hnative.symm.trans hbytes)
  obtain ⟨z, hzRun, hz⟩ := succeeds_structureDigest gadget hmso hlen
  obtain ⟨nonceBits, hnonceRun, hnonce⟩ := succeeds_allocBytes (F := F) c.nonce.val
  obtain ⟨idIns, ids, hidRun, -⟩ := exists_runs_exposeDigestIdBits (F := F) (Eq.refl c.digestIds.length)
  obtain ⟨out, houtRun, hout⟩ := exists_runs_exposeDigests hash hnonce.reads (hds.trans hdigests.symm) hall
  obtain ⟨u, hverifyRun, -⟩ := hverify ⟨c.ecdsa.qx, some c.ecdsa.qx⟩ ⟨c.ecdsa.qy, some c.ecdsa.qy⟩ ⟨rfl, fun _ => rfl⟩
    ⟨rfl, fun _ => rfl⟩ z.1 hz.1
  have hsigned : (c.synthesizeSigned gadget.compress).Runs ([c.ecdsa.qx] ++ ([c.ecdsa.qy] ++
      (nonceBits.map Boolean.eval ++ (mso.body.deviceX.map Boolean.eval ++ (mso.body.deviceY.map Boolean.eval ++
        (mso.body.signedTs.map Boolean.eval ++ (mso.body.validFromTs.map Boolean.eval ++
          (mso.body.validUntilTs.map Boolean.eval ++ []))))))))
      ⟨⟨c.ecdsa.qx, some c.ecdsa.qx⟩, ⟨c.ecdsa.qy, some c.ecdsa.qy⟩, mso, z, nonceBits⟩ := by
    refine Circuit.runs_bind.mpr ⟨_, _, _, rfl, runs_allocPublic_self _, ?_⟩
    refine Circuit.runs_bind.mpr ⟨_, _, _, rfl, runs_allocPublic_self _, ?_⟩
    refine .bind_intro hmsoRun.runs (.bind_intro hzRun.runs (.bind_intro hnonceRun.runs ?_))
    refine Circuit.runs_bind.mpr ⟨_, _, (), rfl, runs_inputizeBits.mpr rfl, ?_⟩
    refine Circuit.runs_bind.mpr ⟨_, _, (), rfl, runs_inputizeBits.mpr rfl, ?_⟩
    refine Circuit.runs_bind.mpr ⟨_, _, (), rfl, runs_inputizeBits.mpr rfl, ?_⟩
    refine Circuit.runs_bind.mpr ⟨_, _, (), rfl, runs_inputizeBits.mpr rfl, ?_⟩
    refine Circuit.runs_bind.mpr ⟨_, _, (), rfl, runs_inputizeBits.mpr rfl, ?_⟩
    exact Circuit.runs_bind.mpr ⟨_, [], (), rfl, runs_inputizeBits.mpr rfl, rfl, rfl⟩
  refine ⟨_, _, Circuit.runs_bind.mpr ⟨_, _, _, rfl, hsigned, Circuit.runs_bind.mpr ⟨_, _, ids, rfl, hidRun,
    Circuit.runs_bind.mpr ⟨_, [], out, rfl, houtRun, .bind_intro hverifyRun.runs (Circuit.runs_pure.mpr ⟨rfl, rfl⟩)⟩⟩⟩,
    ⟨_, _, hmso.bits.reads, hz.2.reads, hz.1.reads, ?_⟩, ⟨head, es, hmso, htails, rfl⟩, hnonce.reads, hout⟩
  exact (take_splicedBuffer head es _).symm.trans (by rw [← hlen])

end Existence

/-- Two choices of published digestIDs beside one message cannot both be the signed ones, so the
framing holds only where the constraints accept nothing. -/
theorem coreFraming_iff_unsatisfiable [LargeChar F] (gadget : CompressionGadget F)
    (sha256 : List (Boolean F) → Circuit F F (List (Boolean F))) (verifyEcdsa : EcdsaCheck F F)
    (c : MdocCoreCircuit F) (hids : c.digestIds.length = maxClaimsV1) :
    (∀ ins w, (c.synthesizeFrame gadget.compress sha256 verifyEcdsa).Runs ins w → w.Framed) ↔
      ¬∃ ins, (c.precommitted gadget.compress sha256 verifyEcdsa).Runs ins [] := by
  rw [MdocCoreCircuit.precommitted_eq]
  constructor
  · rintro hall ⟨ins, hrun⟩
    obtain ⟨w, hw, -⟩ := Circuit.runs_map.mp hrun
    obtain ⟨message, hmessage⟩ := exists_hashes gadget hids hw
    have hframed : ∀ id : UInt32, ∃ ids digests body, ids.length = maxClaimsV1 ∧
        ids.map u32Bits = List.replicate maxClaimsV1 (u32Bits id) ∧
          nativeSigStructureBytes ids digests body = .ok message := by
      intro id
      obtain ⟨ins', bits, hbits, hw'⟩ := exists_runs_exposing hw (List.replicate maxClaimsV1 id)
        (by rw [hids, List.length_replicate])
      obtain ⟨ids, digests, body, hreads, -, hnative⟩ := hall ins' _ hw' message hmessage
      have hmap := hreads.map_u32Bits hbits
      refine ⟨ids, digests, body, ?_, ?_, hnative⟩
      · have hlen := congrArg List.length hmap
        rwa [List.length_map, List.length_map, List.length_replicate] at hlen
      · rw [hmap, List.map_replicate]
    obtain ⟨ids, digests, body, hlen, hzero, hnative⟩ := hframed 0
    obtain ⟨ids', digests', body', hlen', hone, hnative'⟩ := hframed 1
    obtain ⟨rfl, -, -⟩ := nativeSigStructureBytes_inj hlen hlen' hnative hnative'
    exact absurd (hzero.symm.trans hone) (by decide)
  · intro hno ins w hw
    exact absurd ⟨ins, Circuit.runs_map.mpr ⟨w, hw, rfl⟩⟩ hno

end Framing

/-! ## DigestIDs that nothing signs -/

/-- The core circuit of the presentation, whose signature is valid. -/
def presentedCore : MdocCoreCircuit Scalar :=
  coreFor (presentedClaims false) presentedEcdsa presentedBody presentedNonce

theorem length_presentedCore :
    presentedCore.digestIds.length = maxClaimsV1 ∧ presentedCore.claimDigests.length = maxClaimsV1 :=
  length_coreFor presentedEcdsa presentedBody presentedNonce (by decide)

theorem presentedCore_digest : (nativeSigStructureBytes presentedCore.digestIds presentedCore.claimDigests
    presentedBody).map (fun native => bytesNat (Sha256.hash native)) =
      .ok 100658683979588627395595721861775296096838979275274676294615425408699401773527 := by
  decide +kernel

theorem exists_presentedNative : ∃ native, nativeSigStructureBytes presentedCore.digestIds
    presentedCore.claimDigests presentedCore.msoBody = .ok native ∧ bytesNat (Sha256.hash native) =
      100658683979588627395595721861775296096838979275274676294615425408699401773527 := by
  have hdigest := presentedCore_digest
  rcases hnative : nativeSigStructureBytes presentedCore.digestIds presentedCore.claimDigests presentedBody with _ | native
  · rw [hnative] at hdigest
    cases hdigest
  · rw [hnative] at hdigest
    exact ⟨native, hnative, Except.ok.inj hdigest⟩

/-- The presentation's constraints can be satisfied, whatever digests are blinded. -/
theorem exists_runs_presentedFrame {ds : List (List UInt8)} (hds : ds.length = maxClaimsV1)
    (hall : ∀ d ∈ ds, d.length = 32) : ∃ native ins w,
    (presentedCore.synthesizeFrame readingGadget.compress readingHash.sha256 verifyDigestBits).Runs ins w ∧
      w.Hashes native ∧
      (∃ head es, w.mso.Holds .honest head es presentedCore.msoBody ∧
        es.map SplicedEntry.tail = presentedCore.claimDigests.map makeTail ∧
        native = head ++ splicedBytes es ++ suffixBytes presentedCore.msoBody) ∧
      Boolean.ReadsAll w.nonceBits (bytesBits presentedNonce.val) ∧
      List.Forall₂ (fun bits d => Boolean.ReadsAll bits (bytesBits d)) w.digests ds := by
  obtain ⟨native, hnative, hdigest⟩ := exists_presentedNative
  refine ⟨native, exists_runs_synthesizeFrame length_presentedCore.1 length_presentedCore.2 hnative ?_ hds hall⟩
  intro qx qy hqx hqy z hz
  refine succeeds_verifyDigestBits_generator hz (Sha256.length_hash _) hqx hqy ?_ ?_ ?_ ?_
  · decide
  · decide
  · decide
  · rw [hdigest]
    decide

theorem exists_runs_presentedCore : ∃ ins w, (presentedCore.synthesizeFrame readingGadget.compress
    readingHash.sha256 verifyDigestBits).Runs ins w := by
  obtain ⟨-, ins, w, hrun, -⟩ := exists_runs_presentedFrame
    (List.length_replicate : (List.replicate maxClaimsV1 (zeroBytes 32).val).length = maxClaimsV1)
    fun d hd => by rw [List.eq_of_mem_replicate hd, (zeroBytes 32).property]
  exact ⟨ins, w, hrun⟩

theorem coreFraming_iff_unsatisfiable_presented : ¬∀ ins w, (presentedCore.synthesizeFrame
    readingGadget.compress readingHash.sha256 verifyDigestBits).Runs ins w → w.Framed := by
  rw [coreFraming_iff_unsatisfiable readingGadget readingHash.sha256 verifyDigestBits presentedCore
    length_presentedCore.1, MdocCoreCircuit.precommitted_eq]
  obtain ⟨ins, w, hw⟩ := exists_runs_presentedCore
  exact not_not.mpr ⟨ins, Circuit.runs_map.mpr ⟨w, hw, rfl⟩⟩

/-- A digestID that has an encoding has no bit 31. -/
theorem head_u32Bits_of_encode {id : UInt32} {bytes : List UInt8} (h : encodeCborUint id.toNat = .ok bytes) :
    (u32Bits id).head? = some false := by
  have hle := encodeCborUint_le h
  have hbit : id.toNat.testBit 31 = false := Nat.testBit_lt_two_pow (by unfold maxDigestId at hle; omega)
  rw [u32Bits, List.head?_map, List.head?_range]
  simp [hbit]

/-- The prover publishes digestIDs of ones, which no structure can be signed with. -/
theorem coreFraming_otherIds : ∃ ins w, (presentedCore.synthesizeFrame readingGadget.compress
    readingHash.sha256 verifyDigestBits).Runs ins w ∧
      ExposeIds w.digestIds (List.replicate maxClaimsV1 0xffffffff) ∧ ¬w.Framed := by
  obtain ⟨_, w, hw⟩ := exists_runs_presentedCore
  obtain ⟨message, hmessage⟩ := exists_hashes readingGadget length_presentedCore.1 hw
  obtain ⟨ins, bits, hbits, hw'⟩ := exists_runs_exposing hw (List.replicate maxClaimsV1 0xffffffff) rfl
  refine ⟨ins, _, hw', hbits, fun hframed => ?_⟩
  obtain ⟨ids, digests, body, hids, -, hnative⟩ := hframed message hmessage
  obtain ⟨e⟩ := exists_encoding hnative
  have hmap := hids.map_u32Bits hbits
  cases ids with
  | nil => cases hmap
  | cons id ids =>
    obtain ⟨bytes, -, hencode⟩ := forall₂_left (Circuit.mapM_eq_ok_iff.mp e.encoded_eq) List.mem_cons_self
    have hhead : (u32Bits id).head? = (u32Bits 0xffffffff).head? := congrArg List.head? (List.cons.inj hmap).1
    rw [head_u32Bits_of_encode hencode] at hhead
    exact absurd hhead (by decide)

end ZkCredVega
