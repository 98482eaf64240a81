import ZkCredVega.Claims.Framing
import ZkCredVega.Ecc.SignaturePanics

/-!
# No panic in the claims API

The circuits that `prep_prove` and `prove` build for a presentation, and the native structure
that is signed. A digestID of `2 ^ 31` or more, which nothing before them refuses, makes them
panic; so does a key whose multiple meets a vertical tangent, which no point of P-256 does; and
nothing else.
-/

namespace ZkCredVega

open Circuits Mso

/-! ## The step circuit -/

section Gadgets

variable {F V : Type} [Field F] [One V]

theorem assigned_ne_panic {α : Type} (o : Option α) : assigned o ≠ .error .panic := by
  cases o <;> nofun

theorem assigned_map_ne_panic {α β : Type} (o : Option α) (f : α → β) : (assigned o).map f ≠ .error .panic := by
  cases o <;> nofun

theorem safe_bitAlloc (value : Option Bool) : (Boolean.alloc value : Circuit F V _).Safe fun _ => True := by
  apply Circuit.Safe.map
  refine (Circuit.safe_var (assigned_map_ne_panic value _)).bind fun _ _ => ?_
  exact Circuit.safe_require.bind fun _ _ => Circuit.safe_pure trivial

theorem safe_product (x y : LC F V) (value : Option Bool) :
    (AllocatedBit.product x y value).Safe fun _ => True := by
  refine (Circuit.safe_var (assigned_map_ne_panic value _)).bind fun _ _ => ?_
  exact Circuit.safe_require.bind fun _ _ => Circuit.safe_pure trivial

theorem safe_and (a b : Boolean V) : (Boolean.and a b : Circuit F V _).Safe fun _ => True := by
  unfold Boolean.and
  split
  · exact Circuit.safe_pure trivial
  · exact Circuit.safe_pure trivial
  · exact Circuit.safe_pure trivial
  · exact Circuit.safe_pure trivial
  · exact Circuit.Safe.map (safe_product _ _ _)
  · exact Circuit.Safe.map (safe_product _ _ _)
  · exact Circuit.Safe.map (safe_product _ _ _)
  · exact Circuit.Safe.map (safe_product _ _ _)

theorem safe_or (a b : Boolean V) : (Boolean.or a b : Circuit F V _).Safe fun _ => True :=
  Circuit.Safe.map (safe_and _ _)

theorem safe_oneHotSelector (n real : ℕ) : (oneHotSelector n real : Circuit F V _).Safe fun _ => True := by
  refine (Circuit.Safe.mapM_length fun _ _ => safe_bitAlloc _).bind fun _ _ => ?_
  exact Circuit.safe_require.bind fun _ _ => Circuit.safe_pure trivial

theorem safe_selectorBit (p : ℕ → Bool) (sel : List (Boolean V)) (value : Bool) :
    (selectorBit p sel value : Circuit F V _).Safe fun _ => True := by
  refine (safe_bitAlloc _).bind fun _ _ => ?_
  exact Circuit.safe_require.bind fun _ _ => Circuit.safe_pure trivial

theorem safe_allocBits {α : Type} {f : α → Option Bool} (xs : List α) :
    (xs.mapM fun x => Boolean.alloc (f x) : Circuit F V _).Safe fun bits => bits.length = xs.length :=
  Circuit.Safe.mapM_length fun _ _ => safe_bitAlloc _

omit [Field F] [One V] in
theorem safe_allocNum {v : Outcome F} (h : v ≠ .error .panic) :
    (AllocatedNum.alloc v : Circuit F V _).Safe fun _ => True :=
  (Circuit.safe_var h).bind fun _ _ => Circuit.safe_pure trivial

theorem safe_inputize {num : AllocatedNum F V} : num.inputize.Safe fun _ => True :=
  (Circuit.safe_input (assigned_ne_panic _)).bind fun _ _ => Circuit.safe_require

theorem safe_inputizeBits (bits : List (Boolean V)) : (inputizeBits bits : Circuit F V _).Safe fun _ => True := by
  apply Circuit.Safe.forM
  intro bit _
  refine (safe_allocNum (assigned_ne_panic _)).bind fun _ _ => ?_
  exact Circuit.safe_require.bind fun _ _ => safe_inputize

theorem safe_expectedTerm {sel valueBits : List (Boolean V)} {byteIdx bitIdx c : ℕ} (hc : c < 4)
    (hactive : byteIdx < classByteWidth c) :
    (expectedTerm sel valueBits byteIdx bitIdx c : Circuit F V _).Safe fun _ => True := by
  unfold expectedTerm
  by_cases hmarker : byteIdx = 0 ∧ c ≠ 0
  · rw [if_pos hmarker]
    split
    · exact Circuit.safe_pure trivial
    · exact Circuit.safe_pure trivial
  · rw [if_neg hmarker]
    obtain ⟨p, -, hp⟩ := valueByteOutPos_eq_some c hc byteIdx hactive hmarker
    rw [hp]
    exact safe_and _ _

theorem safe_expectedBit (sel valueBits : List (Boolean V)) (byteIdx bitIdx : ℕ) :
    (expectedBit sel valueBits byteIdx bitIdx : Circuit F V _).Safe fun _ => True := by
  have hfold : ((List.range 4).foldlM (expectedStep sel valueBits byteIdx bitIdx) none : Circuit F V _).Safe
      fun _ => True := by
    apply Circuit.Safe.foldlM trivial
    intro acc c hc _
    unfold expectedStep
    by_cases hactive : byteActiveInClass byteIdx c = true
    · rw [if_pos hactive]
      refine (safe_expectedTerm (List.mem_range.mp hc) (by simpa [byteActiveInClass] using hactive)).bind
        fun term _ => ?_
      cases acc with
      | none => exact Circuit.safe_pure trivial
      | some prev => exact Circuit.Safe.map (safe_or _ _)
    · rw [if_neg hactive]
      exact Circuit.safe_pure trivial
  exact hfold.bind fun _ _ => Circuit.safe_pure trivial

theorem safe_forceZero (selector bit : Boolean V) : (forceZero selector bit : Circuit F V _).Safe fun _ => True :=
  Circuit.safe_require

theorem safe_extractDigestId {itemBits : List (Boolean V)} {offsetBytes digestId : ℕ}
    (hitem : (offsetBytes + maxCborUintBytes) * 8 ≤ itemBits.length) (hid : digestId ≤ maxDigestId) :
    (extractDigestId itemBits offsetBytes digestId : Circuit F V _).Safe fun _ => True := by
  refine (Circuit.safe_assert hitem).bind fun _ _ => (Circuit.safe_assert hid).bind fun _ _ => ?_
  refine (safe_oneHotSelector _ _).bind fun sel _ => ?_
  refine (Circuit.Safe.mapM_length fun _ _ => safe_selectorBit _ _ _).bind fun active _ => ?_
  refine (safe_allocBits _).bind fun valueBits _ => ?_
  have hencoded : ∀ window byteIdx bitIdx,
      (encodedBit sel active valueBits window byteIdx bitIdx : Circuit F V _).Safe fun _ => True := by
    intro window byteIdx bitIdx
    refine (safe_expectedBit _ _ _ _).bind fun _ _ => ?_
    exact Circuit.safe_require.bind fun _ _ => safe_and _ _
  have hbytes : ∀ window byteIdx, ((List.range 8).mapM fun bitIdx =>
      (encodedBit sel active valueBits window byteIdx bitIdx : Circuit F V _)).Safe fun _ => True :=
    fun window byteIdx => (Circuit.Safe.mapM_length fun _ _ => hencoded window byteIdx _).mono fun _ _ => trivial
  refine (Circuit.Safe.mapM_length fun _ _ => hbytes _ _).bind fun encoded _ => ?_
  have hzero : (zeroUncovered sel valueBits : Circuit F V _).Safe fun _ => True :=
    Circuit.Safe.forM fun _ _ => Circuit.Safe.forM fun _ _ => Circuit.Safe.forM fun _ _ => safe_forceZero _ _
  have hbig : ∀ window : List (Boolean V), (tooBig window : Circuit F V _).Safe fun _ => True := fun window =>
    (safe_or _ _).bind fun _ _ => (safe_or _ _).bind fun _ _ => (safe_and _ _).bind fun _ _ => safe_or _ _
  refine hzero.bind fun _ _ => ((hbig _).bind fun _ _ => safe_forceZero _ _).bind fun _ _ => ?_
  exact (safe_forceZero _ _).bind fun _ _ => Circuit.safe_pure trivial

end Gadgets

section Step

variable {F : Type} [Field F]

/-- A step circuit reaches no panic when its digestID can be encoded, whatever its bytes are. -/
theorem ClaimDigestStepCircuit.synthesize_ne_panic (gadget : CompressionGadget F) (hash : HashGadget F)
    (c : ClaimDigestStepCircuit) (hid : c.digestId.toNat ≤ maxDigestId) :
    (c.precommitted gadget.compress hash.sha256 : Circuit F F _).synthesize ≠ .error .panic := by
  have hwires : (c.synthesizeWires gadget.compress hash.sha256 : Circuit F F _).synthesize ≠ .error .panic ↔ True := by
    refine (succeeds_allocBytes c.bytes).publishes.bind_ne_iff fun inputBits hinput => ?_
    refine (succeeds_sha256VarSized gadget hinput c.length_bytes c.realLen_le le_rfl).publishes.bind_ne_iff
      fun hashed hhashed => ?_
    refine (succeeds_allocBytes c.nonce.val).publishes.bind_ne_iff fun nonceBits hnonce => ?_
    have hblind : Boolean.HoldsAll .honest (hashed.1 ++ nonceBits)
        (bytesBits (Sha256.hash (c.bytes.take c.realLen) ++ c.nonce.val)) := by
      rw [bytesBits_append]
      exact hhashed.1.append hnonce
    refine (hash.correct .honest hblind).succeeds.publishes.bind_ne_iff fun blinded _ => ?_
    -- the rest calls no hash
    refine iff_true_intro (Circuit.Safe.synthesize_ne (P := fun _ => True) ?_)
    have hwindow : (digestIdOffsetBytes + maxCborUintBytes) * 8 ≤ inputBits.length := by
      rw [hinput.length_eq, length_bytesBits, c.length_bytes]
      decide
    refine (safe_inputizeBits _).bind fun _ _ => (safe_bitAlloc _).bind fun _ _ => ?_
    refine (safe_inputizeBits _).bind fun _ _ => (safe_allocBits _).bind fun _ _ => ?_
    refine (Circuit.Safe.mapM_length fun _ _ => safe_and _ _).bind fun _ _ => (safe_inputizeBits _).bind fun _ _ => ?_
    refine (safe_extractDigestId hwindow hid).bind fun _ _ => ?_
    exact (safe_inputizeBits _).bind fun _ _ => Circuit.safe_pure trivial
  exact Circuit.bind_pure_ne_iff.mpr (hwires.mpr trivial)

end Step

/-! ## The core circuit -/

section Core

variable {F : Type} [Field F]

theorem publishes_allocPublic (v : F) : (allocPublic v : Circuit F F _).Publishes [v] (·.Holds .honest v) :=
  ⟨⟨v, some v⟩, rfl, rfl, fun _ => rfl⟩

theorem publishes_inputizeBits {bits : List (Boolean F)} {xs : List Bool} (h : Boolean.HonestReadsAll bits xs) :
    (inputizeBits bits : Circuit F F _).Publishes (xs.map bitValue) fun _ => True := by
  induction h with
  | nil => exact Circuit.publishes_pure trivial
  | @cons bit x bits xs hbit _ ih =>
    unfold inputizeBits
    rw [List.forM_cons]
    refine Circuit.Publishes.bind (i := [bitValue x]) (P := fun _ => True) ?_ fun _ _ => ih
    have hvalue : assigned (bit.value.map bitValue) = (.ok (bitValue x) : Outcome F) := by
      rw [hbit.value_eq]
      rfl
    refine (AllocatedNum.succeeds_alloc hvalue).publishes.bind_nil fun num hnum => ?_
    refine Circuit.publishes_require.bind_nil fun _ _ => ?_
    exact ⟨(), (AllocatedNum.honest_inputize hnum).synthesize, trivial⟩

theorem publishes_exposeDigestIds (ids : List UInt32) : ∃ ins,
    (ids.mapM exposeDigestIdBits : Circuit F F _).Publishes ins fun _ => True := by
  have hturn : ∀ id ∈ ids, (exposeDigestIdBits id : Circuit F F _).Publishes ((u32Bits id).map bitValue)
      fun _ => True := ?_
  · exact ⟨_, (Circuit.Publishes.mapM hturn).mono fun _ _ => trivial⟩
  intro id _
  have halloc : ((u32Bits id).mapM fun b => Boolean.alloc (some b) : Circuit F F _).Succeeds
      (Boolean.HonestReadsAll · (u32Bits id)) :=
    (Circuit.Succeeds.mapM fun b _ => Boolean.succeeds_alloc rfl).mono fun _ h => h.flip
  refine halloc.publishes.bind_nil fun bits hbits => ?_
  exact (publishes_inputizeBits hbits).bind_last fun _ _ => Circuit.publishes_pure trivial

theorem publishes_exposeDigests (hash : HashGadget F) {nonceBits : List (Boolean F)} {nonce : List UInt8}
    (hnonce : Boolean.HonestReadsAll nonceBits (bytesBits nonce)) (digests : List (Bytes 32)) : ∃ ins,
    (digests.mapM (exposeDigest hash.sha256 nonceBits)).Publishes ins fun _ => True := by
  have hturn : ∀ digest ∈ digests, (exposeDigest hash.sha256 nonceBits digest).Publishes
      ((bytesBits (Sha256.hash (digest.val ++ nonce))).map bitValue) fun _ => True := ?_
  · exact ⟨_, (Circuit.Publishes.mapM hturn).mono fun _ _ => trivial⟩
  intro digest _
  refine (succeeds_allocBytes digest.val).publishes.bind_nil fun bits hbits => ?_
  have hblind : Boolean.HoldsAll .honest (bits ++ nonceBits) (bytesBits (digest.val ++ nonce)) := by
    rw [bytesBits_append]
    exact hbits.append hnonce
  refine (hash.correct .honest hblind).succeeds.publishes.bind_nil fun blinded hblinded => ?_
  exact (publishes_inputizeBits hblinded).bind_last fun _ _ => Circuit.publishes_pure trivial

theorem encodeCborUint_panic {value : ℕ} (h : maxDigestId < value) : encodeCborUint value = .error .panic := by
  rw [encodeCborUint, if_neg (by omega)]

theorem mapM_encodeCborUint_panic {ids : List UInt32} {id : UInt32} (hid : id ∈ ids)
    (hlarge : maxDigestId < id.toNat) : ids.mapM (fun id => encodeCborUint id.toNat) = .error .panic := by
  induction ids with
  | nil => cases hid
  | cons x xs ih =>
    rw [List.mapM_cons]
    by_cases hx : x.toNat ≤ maxDigestId
    · obtain ⟨bytes, hbytes⟩ := encodeCborUint_ok hx
      rcases List.mem_cons.mp hid with rfl | hid
      · omega
      · rw [hbytes]
        show ((xs.mapM fun id => encodeCborUint id.toNat) >>= _) = _
        rw [ih hid]
        rfl
    · rw [encodeCborUint_panic (by omega)]
      rfl

/-- A digestID that cannot be encoded makes the synthesis of the core circuit panic. -/
theorem MdocCoreCircuit.synthesize_panic (c : MdocCoreCircuit F) (hdigests : c.claimDigests.length = maxClaimsV1)
    {id : UInt32} (hid : id ∈ c.digestIds) (hlarge : maxDigestId < id.toNat) :
    (c.precommitted compress sha256 verifyEcdsa).synthesize = .error .panic := by
  have hpanic := mapM_encodeCborUint_panic hid hlarge
  unfold MdocCoreCircuit.precommitted MdocCoreCircuit.synthesizeWires allocSigStructureBits
  simp only [bind_assoc]
  refine (publishes_allocPublic c.ecdsa.qx).bind_error fun _ _ => ?_
  refine (publishes_allocPublic c.ecdsa.qy).bind_error fun _ _ => ?_
  refine (Circuit.publishes_assert hdigests).bind_error fun _ _ => ?_
  rw [hpanic]
  rfl

end Core

/-- `scalar_mul` of the key inverts no zero; it is reached when the signature's numbers have room. -/
def MdocEcdsaWitness.MultipleDefined (w : MdocEcdsaWitness Scalar) : Prop :=
  w.r.toNat < 2 ^ 256 ∧ w.s.toNat < 2 ^ 256 ∧ w.sInv.toNat < 2 ^ 256 →
    MeetsNoVertical curveParams.1 (w.qx, w.qy) (toLEBits 256 (w.r.toNat * w.sInv.toNat % p256Order))

/-- The core circuit panics exactly where the key's multiple does. -/
theorem MdocCoreCircuit.synthesize_ne_panic_iff (gadget : CompressionGadget Scalar) (hash : HashGadget Scalar)
    {c : MdocCoreCircuit Scalar} (hids : c.digestIds.length = maxClaimsV1)
    (hdigests : c.claimDigests.length = maxClaimsV1) (hle : ∀ id ∈ c.digestIds, id.toNat ≤ maxDigestId) :
    (c.precommitted gadget.compress hash.sha256 verifyDigestBits).synthesize ≠ .error .panic ↔
      c.ecdsa.MultipleDefined := by
  rw [MdocCoreCircuit.precommitted_eq, ← bind_pure_comp, Circuit.bind_pure_ne_iff]
  unfold MdocCoreCircuit.synthesizeFrame MdocCoreCircuit.synthesizeSigned
  simp only [bind_assoc, pure_bind]
  refine (publishes_allocPublic c.ecdsa.qx).bind_ne_iff fun qx hqx => ?_
  refine (publishes_allocPublic c.ecdsa.qy).bind_ne_iff fun qy hqy => ?_
  refine (succeeds_allocKeyedStructure hids hdigests hle).publishes.bind_ne_iff fun mso hmso => ?_
  obtain ⟨head, es, hmso, -, -, hlength⟩ := hmso
  refine (succeeds_structureDigest gadget hmso hlength).publishes.bind_ne_iff fun z hz => ?_
  refine (succeeds_allocBytes c.nonce.val).publishes.bind_ne_iff fun nonceBits hnonce => ?_
  refine (publishes_inputizeBits hnonce).bind_ne_iff fun _ _ => ?_
  refine (publishes_inputizeBits hmso.body.deviceX).bind_ne_iff fun _ _ => ?_
  refine (publishes_inputizeBits hmso.body.deviceY).bind_ne_iff fun _ _ => ?_
  refine (publishes_inputizeBits hmso.body.signedTs).bind_ne_iff fun _ _ => ?_
  refine (publishes_inputizeBits hmso.body.validFromTs).bind_ne_iff fun _ _ => ?_
  refine (publishes_inputizeBits hmso.body.validUntilTs).bind_ne_iff fun _ _ => ?_
  obtain ⟨_, hexposed⟩ := publishes_exposeDigestIds (F := Scalar) c.digestIds
  obtain ⟨_, hblinded⟩ := publishes_exposeDigests hash hnonce c.claimDigests
  refine hexposed.bind_ne_iff fun _ _ => hblinded.bind_ne_iff fun _ _ => ?_
  rw [Circuit.bind_pure_ne_iff]
  obtain ⟨message, hz⟩ : ∃ message, Boolean.HonestReadsAll z.1 (bytesBits (Sha256.hash message)) := ⟨_, hz.1⟩
  have hlen : (Sha256.hash message).length = 32 := Sha256.length_hash message
  have hlt := bytesNat_lt (Sha256.hash message)
  rw [hlen] at hlt
  have hbits : (bitsBeToBignat z.1).Yields .honest _ := yields_bitsBeToBignat hz hlen
  exact hbits.succeeds.publishes.bind_ne_iff fun zBn hzBn => verify_ne_panic_iff hlt hzBn hqx hqy

/-! ## A presentation -/

section Presentation

/-- Building and synthesizing the circuits of a presentation, and the native structure, end in no panic. -/
def PresentsWithoutPanic {F : Type} [Field F] (compress : Compression F F)
    (sha256 : List (Boolean F) → Circuit F F (List (Boolean F))) (verifyEcdsa : EcdsaCheck F F)
    (claims : List ClaimWitness) (ecdsa : MdocEcdsaWitness F) (msoBody : MsoBodyWitness)
    (nonce : Bytes blindNonceBytes) : Prop :=
  circuitsFor claims ecdsa msoBody nonce ≠ .error (.circuit .panic) ∧
  ∀ steps core, circuitsFor claims ecdsa msoBody nonce = .ok (steps, core) →
    (∀ step ∈ steps, (step.precommitted compress sha256).synthesize ≠ .error .panic) ∧
    (core.precommitted compress sha256 verifyEcdsa).synthesize ≠ .error .panic ∧
    nativeSigStructureBytes core.digestIds core.claimDigests core.msoBody ≠ .error .panic

/-- What `pad_claims` refuses. -/
def Refused (claims : List ClaimWitness) : Prop :=
  maxClaimsV1 < claims.length ∨ ∃ c ∈ claims, maxClaimBytesV1 < c.issuerSignedItemBytes.length

theorem padClaim_tooLong {c : ClaimWitness} (h : maxClaimBytesV1 < c.issuerSignedItemBytes.length) :
    padClaim c = .error (.claimTooLong maxClaimBytesV1 c.issuerSignedItemBytes.length) := by
  rw [padClaim, fixedWidthClaimBytes, if_pos h]
  rfl

theorem mapM_padClaim_error {claims : List ClaimWitness}
    (h : ∃ c ∈ claims, maxClaimBytesV1 < c.issuerSignedItemBytes.length) :
    ∃ got, claims.mapM padClaim = .error (.claimTooLong maxClaimBytesV1 got) := by
  induction claims with
  | nil =>
    obtain ⟨c, hc, -⟩ := h
    cases hc
  | cons x xs ih =>
    rw [List.mapM_cons]
    by_cases hx : maxClaimBytesV1 < x.issuerSignedItemBytes.length
    · rw [padClaim_tooLong hx]
      exact ⟨_, rfl⟩
    · obtain ⟨c, hc, hlong⟩ := h
      rcases List.mem_cons.mp hc with rfl | hc
      · exact absurd hlong hx
      · obtain ⟨got, hgot⟩ := ih ⟨c, hc, hlong⟩
        rw [padClaim, fixedWidthClaimBytes, if_neg hx, hgot]
        exact ⟨got, rfl⟩

theorem Refused.circuitsFor {claims : List ClaimWitness} (h : Refused claims) {F : Type} (ecdsa : MdocEcdsaWitness F)
    (msoBody : MsoBodyWitness) (nonce : Bytes blindNonceBytes) :
    ∃ e, ZkCredVega.circuitsFor claims ecdsa msoBody nonce = .error e ∧ e ≠ .circuit .panic := by
  have hpad : ∃ e, padClaims claims = .error e ∧ e ≠ .circuit .panic := by
    by_cases hcount : maxClaimsV1 < claims.length
    · rw [padClaims, if_pos hcount]
      refine ⟨_, rfl, fun h => ?_⟩
      cases h
    · obtain ⟨got, hgot⟩ := mapM_padClaim_error (h.resolve_left hcount)
      rw [padClaims, if_neg hcount, hgot]
      refine ⟨_, rfl, fun h => ?_⟩
      cases h
  obtain ⟨e, he, hne⟩ := hpad
  refine ⟨e, ?_, hne⟩
  rw [ZkCredVega.circuitsFor, he]
  rfl

theorem digestId_le_of_mem_slots {claims : List ClaimWitness} (h : ∀ c ∈ claims, c.digestId.toNat ≤ maxDigestId)
    {c : ClaimWitness} (hc : c ∈ slots claims) : c.digestId.toNat ≤ maxDigestId := by
  rcases List.mem_append.mp hc with hc | hc
  · exact h c hc
  · rw [List.eq_of_mem_replicate hc]
    exact Nat.zero_le _

theorem coreIds_le {claims : List ClaimWitness} (h : ∀ c ∈ claims, c.digestId.toNat ≤ maxDigestId) :
    ∀ id ∈ (slots claims).map ClaimWitness.digestId, id.toNat ≤ maxDigestId := by
  intro id hid
  obtain ⟨c, hc, rfl⟩ := List.mem_map.mp hid
  exact digestId_le_of_mem_slots h hc

theorem fits_of_not_refused {claims : List ClaimWitness} (h : ¬Refused claims) :
    claims.length ≤ maxClaimsV1 ∧ ∀ c ∈ claims, c.issuerSignedItemBytes.length ≤ maxClaimBytesV1 := by
  refine ⟨?_, fun c hc => ?_⟩
  · by_contra hmany
    exact h (Or.inl (by omega))
  · by_contra hlong
    exact h (Or.inr ⟨c, hc, by omega⟩)

/-- A presentation meets no panic exactly when its list of claims is refused, or every digestID in it can be encoded
and the multiple of its key is defined. -/
theorem presentsWithoutPanic_iff (gadget : CompressionGadget Scalar) (hash : HashGadget Scalar)
    (claims : List ClaimWitness) (ecdsa : MdocEcdsaWitness Scalar) (msoBody : MsoBodyWitness)
    (nonce : Bytes blindNonceBytes) :
    (PresentsWithoutPanic gadget.compress hash.sha256 verifyDigestBits claims ecdsa msoBody nonce ↔
      Refused claims ∨ (∀ c ∈ claims, c.digestId.toNat ≤ maxDigestId) ∧ ecdsa.MultipleDefined) ∧
    ∀ h : p256.Nonsingular ecdsa.qx ecdsa.qy, p256Order • (.some ecdsa.qx ecdsa.qy h : p256.Point) = 0 →
      ecdsa.MultipleDefined := by
  refine ⟨?_, fun h horder _ => AllocatedPoint.meetsNoVertical_of_order prime_p256Order (by decide) horder
    (length_toLEBits _ _)⟩
  by_cases hrefused : Refused claims
  · obtain ⟨e, he, hne⟩ := hrefused.circuitsFor ecdsa msoBody nonce
    refine ⟨fun _ => Or.inl hrefused, fun _ => ⟨fun hpanic => ?_, fun steps core hok => ?_⟩⟩
    · exact hne (Except.error.inj (he.symm.trans hpanic))
    · cases he.symm.trans hok
  obtain ⟨hcount, hbytes⟩ := fits_of_not_refused hrefused
  obtain ⟨steps, hsteps, heq⟩ := circuitsFor_eq hcount hbytes ecdsa msoBody nonce
  have hslots := length_slots hcount
  have hidsLen : ((slots claims).map ClaimWitness.digestId).length = maxClaimsV1 := by
    rw [List.length_map, hslots]
  have hdigestsLen : ((slots claims).map fun c => claimDigestBytes c.issuerSignedItemBytes).length = maxClaimsV1 := by
    rw [List.length_map, hslots]
  constructor
  · rintro ⟨-, hall⟩
    have hcore := (hall steps _ heq).2.1
    have hsmall : ∀ c ∈ claims, c.digestId.toNat ≤ maxDigestId := by
      intro c hc
      by_contra hlarge
      have hid : c.digestId ∈ (slots claims).map ClaimWitness.digestId :=
        List.mem_map_of_mem (List.mem_append_left _ hc)
      exact hcore (MdocCoreCircuit.synthesize_panic _ hdigestsLen hid (by omega))
    have hdefined := (MdocCoreCircuit.synthesize_ne_panic_iff gadget hash hidsLen hdigestsLen (coreIds_le hsmall)).mp
      hcore
    exact Or.inr ⟨hsmall, hdefined⟩
  · intro h
    obtain ⟨hsmall, hdefined⟩ := h.resolve_left hrefused
    have hno : circuitsFor claims ecdsa msoBody nonce ≠ .error (.circuit .panic) := by
      rw [heq]
      nofun
    refine ⟨hno, fun steps' core hok => ?_⟩
    rw [heq] at hok
    obtain ⟨rfl, rfl⟩ := Prod.mk.inj (Except.ok.inj hok)
    refine ⟨fun step hstep => ?_, ?_, ?_⟩
    · obtain ⟨c, hc, hfor⟩ := forall₂_right hsteps hstep
      exact step.synthesize_ne_panic gadget hash (by rw [hfor.digestId]; exact digestId_le_of_mem_slots hsmall hc)
    · exact (MdocCoreCircuit.synthesize_ne_panic_iff gadget hash hidsLen hdigestsLen (coreIds_le hsmall)).mpr hdefined
    · obtain ⟨bytes, hok⟩ := nativeSigStructureBytes_ok msoBody hidsLen hdigestsLen (coreIds_le hsmall)
      intro hpanic
      cases hok.symm.trans hpanic

theorem presentsWithoutPanic_iff_presented : PresentsWithoutPanic readingGadget.compress readingHash.sha256
    verifyDigestBits (presentedClaims true) presentedEcdsa presentedBody presentedNonce := by
  have h := presentsWithoutPanic_iff readingGadget readingHash (presentedClaims true) presentedEcdsa presentedBody
    presentedNonce
  refine h.1.mpr (Or.inr ⟨by decide, h.2 (p256_nonsingular equation_generator) ?_⟩)
  exact order_nsmul_generator

/-! ## Presentations that panic -/

/-- The disclosed family name under a digestID of `2 ^ 31`. -/
def nameUnderLargeId : List ClaimWitness :=
  [⟨issuerSignedItem ((List.range 32).map fun i => UInt8.ofNat (i + 1)) [0x1a, 0x80, 0x00, 0x00, 0x00]
    [0x6b, 0x66, 0x61, 0x6d, 0x69, 0x6c, 0x79, 0x5f, 0x6e, 0x61, 0x6d, 0x65] [0x63, 0x44, 0x6f, 0x65], true, 0x80000000⟩]

/-- A key with `y = 0`, which is not on P-256. -/
def verticalEcdsa : MdocEcdsaWitness Scalar := ⟨5, 0, 1, 1, 1⟩

/-- Past the bound of the digestIDs every key panics, and within it a key with `y = 0`, for some signatures. -/
theorem presentation_panics :
    ¬PresentsWithoutPanic readingGadget.compress readingHash.sha256 verifyDigestBits nameUnderLargeId presentedEcdsa
      presentedBody presentedNonce ∧
    ¬PresentsWithoutPanic readingGadget.compress readingHash.sha256 verifyDigestBits (presentedClaims true)
      verticalEcdsa presentedBody presentedNonce := by
  constructor
  · rintro ⟨-, hall⟩
    obtain ⟨steps, -, heq⟩ := circuitsFor_eq (show nameUnderLargeId.length ≤ maxClaimsV1 by decide) (by decide)
      presentedEcdsa presentedBody presentedNonce
    exact (hall steps _ heq).2.1 (MdocCoreCircuit.synthesize_panic _ rfl List.mem_cons_self (by decide))
  · rintro ⟨-, hall⟩
    obtain ⟨steps, -, heq⟩ := circuitsFor_eq (presentedClaims_length_le true) (presentedClaims_bytes_le true)
      verticalEcdsa presentedBody presentedNonce
    have hids : ∀ c ∈ presentedClaims true, c.digestId.toNat ≤ maxDigestId := by decide
    have hdefined := (MdocCoreCircuit.synthesize_ne_panic_iff readingGadget readingHash rfl rfl (coreIds_le hids)).mp
      (hall steps _ heq).2.1
    refine not_meetsNoVertical (fun bit hbit => ?_) (hdefined (by decide))
    have hclear : ∀ b ∈ ((toLEBits 256 1).take 254).drop 1, b = false := by decide
    exact hclear bit hbit

end Presentation

end ZkCredVega
