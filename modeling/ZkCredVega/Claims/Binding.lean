import ZkCredVega.Claims.Basic
import ZkCredVega.Circuit.Logic
import ZkCredVega.Ecc.Point

/-!
# Binding the step proofs to the core proof

`verify_and_check_binding` of `lib.rs`: the verifier decodes the public values
of both circuits and ties them, slot by slot, to each other and to the bytes
that are disclosed beside the proof.
-/

namespace ZkCredVega

open Circuits MdocResult

/-- One claim slot's verified outcome. -/
structure DisclosedClaim where
  disclosed : Bool
  digest : Bytes 32
  realLen : ℕ
  plaintext : List UInt8
  digestId : UInt32
deriving DecidableEq

structure VerifiedPresentation (F : Type) where
  qx : F
  qy : F
  claims : List DisclosedClaim
  deviceX : Bytes 32
  deviceY : Bytes 32
  signedTs : Bytes timestampLen
  validFromTs : Bytes timestampLen
  validUntilTs : Bytes timestampLen

section Decode

variable {F : Type} [Field F] [DecidableEq F]

def allBoolean (values : List F) : Bool := values.all fun v => v = 1 || v = 0

/-- One byte of `bitsToBytes`; a value that is not one is read as zero. -/
def byteOfBits (byteBits : List F) : UInt8 :=
  byteBits.zipIdx.foldl
    (fun (byte : UInt8) t => if t.1 = 1 then byte ||| ((1 : UInt8) <<< (7 - UInt8.ofNat t.2)) else byte) 0

def bitsToBytes (bits : List F) : List UInt8 := (chunks 8 bits).map byteOfBits

def u32FromBeBytes (bytes : Bytes 4) : UInt32 := .ofNat (bytesNat bytes.val)

/-- The next `len` values at the cursor; a slice past the end panics. -/
def take (len : ℕ) : StateT (List F) MdocResult (List F) := fun rest =>
  if len ≤ rest.length then .ok (rest.take len, rest.drop len) else .error (.circuit .panic)

def takeArray (n : ℕ) : StateT (List F) MdocResult (Bytes n) := do
  let bits ← take (n * 8)
  toArray n (bitsToBytes bits)

def takeU32 : StateT (List F) MdocResult UInt32 := do
  let bytes ← takeArray 4
  pure (u32FromBeBytes bytes)

/-- The bit fields of the core circuit's public values. -/
structure CoreValues where
  nonce : Bytes blindNonceBytes
  deviceX : Bytes 32
  deviceY : Bytes 32
  signedTs : Bytes timestampLen
  validFromTs : Bytes timestampLen
  validUntilTs : Bytes timestampLen
  digestIds : List UInt32
  blindedDigests : List (Bytes 32)

def takeCore : StateT (List F) MdocResult CoreValues := do
  let nonce ← takeArray blindNonceBytes
  let deviceX ← takeArray 32
  let deviceY ← takeArray 32
  let signedTs ← takeArray timestampLen
  let validFromTs ← takeArray timestampLen
  let validUntilTs ← takeArray timestampLen
  let digestIds ← (List.range maxClaimsV1).mapM fun _ => takeU32
  let blindedDigests ← (List.range maxClaimsV1).mapM fun _ => takeArray 32
  pure { nonce, deviceX, deviceY, signedTs, validFromTs, validUntilTs, digestIds, blindedDigests }

def coreLen : ℕ :=
  2 + blindNonceBytes * 8 + 256 + 256 + timestampLen * 8 + timestampLen * 8 + timestampLen * 8 +
    maxClaimsV1 * 32 + maxClaimsV1 * 256

def stepLen : ℕ := 256 + 1 + realLenBits + 32

/-- The fields of one step circuit's public values. -/
structure StepValues where
  blindedDigest : Bytes 32
  disclosed : Bool
  realLen : ℕ
  digestId : UInt32

/-- `bytes.try_into().map_err(..)`. -/
def tryArray (n : ℕ) (bs : List UInt8) : MdocResult (Bytes n) :=
  if h : bs.length = n then .ok ⟨bs, h⟩ else .error (.circuit .unsatisfiable)

def decodeStep (v : List F) : MdocResult StepValues := do
  ensure (v.length = stepLen)
  ensure (allBoolean v)
  let blindedDigest ← tryArray 32 (bitsToBytes (v.take 256))
  let disclosed := decide (v.getD 256 0 = 1)
  let realLen ← index (bitsToBytes ((v.drop 257).take realLenBits)) 0
  ensure (realLen.toNat ≤ maxClaimBytesV1)
  let digestId ← tryArray 4 (bitsToBytes (v.drop (257 + realLenBits)))
  pure { blindedDigest, disclosed, realLen := realLen.toNat, digestId := u32FromBeBytes digestId }

/-- The digest and the plaintext of a slot: a disclosed slot must be given its bytes, and an
undisclosed one must not. -/
def bindSupplied (nonce : Bytes blindNonceBytes) (step : StepValues) :
    Option (List UInt8) → MdocResult (Bytes 32 × List UInt8)
  | some bytes =>
    if step.disclosed then do
      ensure (blindDigestBytes (claimDigestBytes bytes) nonce = step.blindedDigest)
      ensure (bytes.length = step.realLen)
      pure (claimDigestBytes bytes, bytes)
    else .error (.circuit .unsatisfiable)
  | none =>
    if step.disclosed then .error (.circuit .unsatisfiable)
    else .ok (⟨List.replicate 32 0, by simp⟩, [])

def checkSlot (core : CoreValues) (disclosedBytes : List (Option (List UInt8))) (v : List F)
    (i : ℕ) : MdocResult DisclosedClaim := do
  let step ← decodeStep v
  let supplied ← index disclosedBytes i
  let t ← bindSupplied core.nonce step supplied
  let coreDigest ← index core.blindedDigests i
  ensure (step.blindedDigest = coreDigest)
  let coreId ← index core.digestIds i
  ensure (step.digestId = coreId)
  pure {
    disclosed := step.disclosed
    digest := t.1
    realLen := step.realLen
    plaintext := t.2
    digestId := step.digestId }

def verifyAndCheckBinding (stepPublicValues : List (List F)) (corePublicValues : List F)
    (disclosedBytes : List (Option (List UInt8))) : MdocResult (VerifiedPresentation F) := do
  ensure (disclosedBytes.length = maxClaimsV1)
  ensure (corePublicValues.length = coreLen)
  ensure (allBoolean (corePublicValues.drop 2))
  let qx ← index corePublicValues 0
  let qy ← index corePublicValues 1
  let core ← takeCore.run' (corePublicValues.drop 2)
  ensure (stepPublicValues.length = maxClaimsV1)
  let claims ← stepPublicValues.zipIdx.mapM fun t => checkSlot core disclosedBytes t.1 t.2
  pure {
    qx
    qy
    claims
    deviceX := core.deviceX
    deviceY := core.deviceY
    signedTs := core.signedTs
    validFromTs := core.validFromTs
    validUntilTs := core.validUntilTs }

/-! ## Decoding what is published -/

omit [DecidableEq F] in
theorem length_nativeBytesToBits (bs : List UInt8) :
    (nativeBytesToBits bs : List F).length = 8 * bs.length := by
  simp [nativeBytesToBits]

omit [DecidableEq F] in
theorem bitValue_eq_one {b : Bool} : (bitValue b : F) = 1 ↔ b = true := by
  cases b <;> simp [bitValue]

theorem allBoolean_map_bitValue (bits : List Bool) : allBoolean (bits.map bitValue : List F) = true := by
  rw [allBoolean, List.all_eq_true]
  intro v hv
  obtain ⟨b, -, rfl⟩ := List.mem_map.mp hv
  cases b <;> simp [bitValue]

theorem allBoolean_append (xs ys : List F) :
    allBoolean (xs ++ ys) = (allBoolean xs && allBoolean ys) := by simp [allBoolean]

theorem byteOfBits_bitsOf (b : UInt8) : byteOfBits ((bitsOf b).map bitValue : List F) = b := by
  have hfold : byteOfBits ((bitsOf b).map bitValue : List F) =
      (bitsOf b).zipIdx.foldl (fun (byte : UInt8) t =>
        if t.1 then byte ||| ((1 : UInt8) <<< (7 - UInt8.ofNat t.2)) else byte) 0 := by
    rw [byteOfBits, List.zipIdx_map, List.foldl_map]
    simp only [Prod.map_fst, Prod.map_snd, id_eq, bitValue_eq_one]
  have hbyte : ∀ n : Fin 256, (bitsOf (UInt8.ofNat n.val)).zipIdx.foldl (fun (byte : UInt8) t =>
      if t.1 then byte ||| ((1 : UInt8) <<< (7 - UInt8.ofNat t.2)) else byte) 0 =
        UInt8.ofNat n.val := by decide +kernel
  have h := hbyte ⟨b.toNat, b.toNat_lt⟩
  rw [UInt8.ofNat_toNat] at h
  rw [hfold, h]

theorem bitsToBytes_nativeBytesToBits (bs : List UInt8) :
    bitsToBytes (nativeBytesToBits bs : List F) = bs := by
  apply List.ext_getElem?
  intro i
  rw [bitsToBytes, chunks, length_nativeBytesToBits, show (8 * bs.length + 8 - 1) / 8 = bs.length by omega,
    List.map_map, List.getElem?_map]
  rcases Nat.lt_or_ge i bs.length with h | h
  · have hchunk : ((nativeBytesToBits bs : List F).drop (8 * i)).take 8 = (bitsOf bs[i]).map bitValue := by
      rw [nativeBytesToBits, ← List.map_drop, ← List.map_take, drop_bytesBits, List.drop_eq_getElem_cons h,
        bytesBits_cons, List.take_left' (by simp)]
    rw [List.getElem?_range h, List.getElem?_eq_getElem h]
    show some (byteOfBits (((nativeBytesToBits bs : List F).drop (8 * i)).take 8)) = _
    rw [hchunk, byteOfBits_bitsOf]
  · rw [List.getElem?_eq_none (by simpa using h), List.getElem?_eq_none h]
    rfl

omit [Field F] [DecidableEq F] in
theorem bind_of_ok {α β : Type} {x : StateT (List F) MdocResult α}
    {f : α → StateT (List F) MdocResult β} {s s' : List F} {a : α} (h : x s = .ok (a, s')) :
    (x >>= f) s = f a s' := by
  show (x s >>= fun t => f t.1 t.2) = _
  rw [h]
  rfl

theorem takeArray_append {n : ℕ} (bs : Bytes n) (rest : List F) :
    takeArray n (nativeBytesToBits bs.val ++ rest) = .ok (bs, rest) := by
  have hlen : (nativeBytesToBits bs.val : List F).length = n * 8 := by
    rw [length_nativeBytesToBits, bs.property, Nat.mul_comm]
  have htake : take (n * 8) (nativeBytesToBits bs.val ++ rest) =
      .ok ((nativeBytesToBits bs.val : List F), rest) := by
    rw [take, if_pos (by simp [hlen]), List.take_left' hlen, List.drop_left' hlen]
  rw [takeArray, bind_of_ok htake, bitsToBytes_nativeBytesToBits, toArray_val]
  rfl

theorem exists_u32Bytes (v : UInt32) :
    ∃ bs : Bytes 4, u32Bits v = bytesBits bs.val ∧ u32FromBeBytes bs = v := by
  have hreverse : u32Bits v = (toLEBits 32 v.toNat).reverse := rfl
  have hnat : beBits (u32Bits v) = v.toNat := by
    rw [hreverse, ← leBits_reverse, List.reverse_reverse]
    exact leBits_toLEBits v.toNat_lt
  obtain ⟨bs, hlen, hbs⟩ := exists_bytesBits (show (u32Bits v).length = 8 * 4 by simp [u32Bits])
  refine ⟨⟨bs, hlen⟩, hbs.symm, ?_⟩
  rw [u32FromBeBytes, ← beBits_bytesBits, hbs, hnat, UInt32.ofNat_toNat]

theorem takeU32_append (v : UInt32) (rest : List F) :
    takeU32 (nativeU32ToBits v ++ rest) = .ok (v, rest) := by
  obtain ⟨bs, hbits, hv⟩ := exists_u32Bytes v
  rw [takeU32, nativeU32ToBits, hbits, ← nativeBytesToBits, bind_of_ok (takeArray_append bs rest), hv]
  rfl

omit [Field F] [DecidableEq F] in
/-- A field group is read back one element at a time. -/
theorem mapM_take_append {α : Type} {reader : StateT (List F) MdocResult α} {enc : α → List F}
    (hread : ∀ x rest, reader (enc x ++ rest) = .ok (x, rest)) (xs : List α) (slots : List ℕ)
    (hlen : slots.length = xs.length) (rest : List F) :
    (slots.mapM fun _ => reader) (xs.flatMap enc ++ rest) = .ok (xs, rest) := by
  induction xs generalizing slots with
  | nil =>
    obtain rfl := List.eq_nil_of_length_eq_zero hlen
    rfl
  | cons x xs ih =>
    obtain ⟨i, slots, rfl⟩ := List.exists_cons_of_length_eq_add_one hlen
    rw [List.mapM_cons, List.flatMap_cons, List.append_assoc, bind_of_ok (hread ..),
      bind_of_ok (ih slots (by simpa using hlen))]
    rfl

/-- The bit fields that a core circuit publishes. -/
def MdocCoreCircuit.coreValues (c : MdocCoreCircuit F) : CoreValues where
  nonce := c.nonce
  deviceX := c.msoBody.deviceX
  deviceY := c.msoBody.deviceY
  signedTs := c.msoBody.signedTs
  validFromTs := c.msoBody.validFromTs
  validUntilTs := c.msoBody.validUntilTs
  digestIds := c.digestIds
  blindedDigests := c.claimDigests.map fun digest => blindDigestBytes digest c.nonce

def MdocCoreCircuit.bitValues (c : MdocCoreCircuit F) : List F :=
  nativeBytesToBits c.nonce.val ++ (nativeBytesToBits c.msoBody.deviceX.val ++
    (nativeBytesToBits c.msoBody.deviceY.val ++ (nativeBytesToBits c.msoBody.signedTs.val ++
    (nativeBytesToBits c.msoBody.validFromTs.val ++ (nativeBytesToBits c.msoBody.validUntilTs.val ++
    (c.digestIds.flatMap nativeU32ToBits ++
    ((c.claimDigests.map fun digest => blindDigestBytes digest c.nonce).flatMap (fun digest =>
      nativeBytesToBits digest.val) ++ [])))))))

omit [DecidableEq F] in
theorem MdocCoreCircuit.publicValues_eq (c : MdocCoreCircuit F) :
    c.publicValues = c.ecdsa.qx :: c.ecdsa.qy :: c.bitValues := by
  simp [MdocCoreCircuit.publicValues, MdocCoreCircuit.bitValues, List.flatMap_map]

theorem takeCore_bitValues {c : MdocCoreCircuit F} (hids : c.digestIds.length = maxClaimsV1)
    (hdigests : c.claimDigests.length = maxClaimsV1) :
    takeCore.run' c.bitValues = .ok c.coreValues := by
  have hread : takeCore c.bitValues = .ok (c.coreValues, []) := by
    rw [takeCore, MdocCoreCircuit.bitValues, bind_of_ok (takeArray_append ..), bind_of_ok (takeArray_append ..),
      bind_of_ok (takeArray_append ..), bind_of_ok (takeArray_append ..), bind_of_ok (takeArray_append ..),
      bind_of_ok (takeArray_append ..),
      bind_of_ok (mapM_take_append takeU32_append _ _ (by simp [hids]) _),
      bind_of_ok (mapM_take_append takeArray_append _ _ (by simp [hdigests]) _)]
    rfl
  show Prod.fst <$> takeCore c.bitValues = _
  rw [hread]
  rfl

/-- The fields that a step circuit publishes. -/
def ClaimDigestStepCircuit.stepValues (c : ClaimDigestStepCircuit) : StepValues where
  blindedDigest := c.blindedDigest
  disclosed := c.disclose
  realLen := c.lenByte.toNat
  digestId := c.digestId

theorem ClaimDigestStepCircuit.lenByte_le (c : ClaimDigestStepCircuit) :
    c.lenByte.toNat ≤ maxClaimBytesV1 := by
  have hle := c.realLen_le
  unfold ClaimDigestStepCircuit.lenByte
  split
  · rw [UInt8.toNat_ofNat']
    exact (Nat.mod_le _ _).trans hle
  · exact Nat.zero_le _

theorem tryArray_val {n : ℕ} (bs : Bytes n) : tryArray n bs.val = .ok bs := dif_pos bs.property

theorem decodeStep_publicValues (c : ClaimDigestStepCircuit) :
    decodeStep (c.publicValues : List F) = .ok c.stepValues := by
  have hdigest : (nativeBytesToBits c.blindedDigest.val : List F).length = 256 := by
    rw [length_nativeBytesToBits, c.blindedDigest.property]
  have hlen : (nativeBytesToBits [c.lenByte] : List F).length = realLenBits := by
    rw [length_nativeBytesToBits]
    rfl
  obtain ⟨id, hid, hu32⟩ := exists_u32Bytes c.digestId
  have hvalues : (c.publicValues : List F) = nativeBytesToBits c.blindedDigest.val ++
      bitValue c.disclose :: (nativeBytesToBits [c.lenByte] ++ nativeBytesToBits id.val) := by
    simp [ClaimDigestStepCircuit.publicValues, nativeBytesToBits, nativeU32ToBits, hid, bytesBits]
  have htail : (c.publicValues : List F).drop 257 =
      nativeBytesToBits [c.lenByte] ++ nativeBytesToBits id.val := by
    rw [hvalues, show 257 = 256 + 1 from rfl, ← List.drop_drop, List.drop_left' hdigest]
    rfl
  have hid' : (c.publicValues : List F).drop (257 + realLenBits) = nativeBytesToBits id.val := by
    rw [← List.drop_drop, htail, List.drop_left' hlen]
  have hflag : (c.publicValues : List F).getD 256 0 = bitValue c.disclose := by
    rw [hvalues, List.getD_eq_getElem?_getD, List.getElem?_append_right (by omega), hdigest]
    rfl
  have hlength : (c.publicValues : List F).length = stepLen := by
    rw [hvalues, List.length_append, List.length_cons, List.length_append, hdigest, hlen,
      length_nativeBytesToBits, id.property]
    rfl
  have hboolean : allBoolean (c.publicValues : List F) = true := by
    have hflags : (c.publicValues : List F) = (bytesBits c.blindedDigest.val ++ [c.disclose] ++
        bitsOf c.lenByte ++ u32Bits c.digestId).map bitValue := by
      simp [ClaimDigestStepCircuit.publicValues, nativeBytesToBits, nativeU32ToBits]
    rw [hflags]
    exact allBoolean_map_bitValue _
  unfold decodeStep
  rw [ensure_true hlength, ensure_true hboolean, htail, hid', hflag, hvalues, List.take_left' hdigest,
    List.take_left' hlen, bitsToBytes_nativeBytesToBits, bitsToBytes_nativeBytesToBits,
    bitsToBytes_nativeBytesToBits, tryArray_val, tryArray_val]
  show (do
    ensure (c.lenByte.toNat ≤ maxClaimBytesV1)
    pure _ : MdocResult StepValues) = _
  rw [ensure_true c.lenByte_le, hu32]
  simp only [bitValue_eq_one, Bool.decide_eq_true]
  rfl

/-! ## One slot -/

/-- The result is a value or an explicit rejection, never a panic. -/
def OnlyRejects {α : Type} (x : MdocResult α) : Prop :=
  ∀ e, x = .error e → e = .circuit .unsatisfiable

theorem onlyRejects_ok {α : Type} (a : α) : OnlyRejects (.ok a) := nofun

theorem onlyRejects_unsatisfiable {α : Type} :
    OnlyRejects (.error (.circuit .unsatisfiable) : MdocResult α) := by
  intro e h
  cases h
  rfl

theorem onlyRejects_ensure {p : Prop} [Decidable p] : OnlyRejects (ensure p) := by
  by_cases hp : p
  · rw [ensure_true hp]
    exact onlyRejects_ok ()
  · rw [ensure_false hp]
    exact onlyRejects_unsatisfiable

theorem OnlyRejects.bind {α β : Type} {x : MdocResult α} {f : α → MdocResult β} (hx : OnlyRejects x)
    (hf : ∀ a, OnlyRejects (f a)) : OnlyRejects (x >>= f) := by
  intro e h
  cases x with
  | error e' =>
    obtain rfl : e' = e := Except.error.inj h
    exact hx e' rfl
  | ok a => exact hf a e h

theorem mapM_rejected {α β : Type} {f : α → MdocResult β} {xs : List α} {x : α}
    (hf : ∀ y ∈ xs, OnlyRejects (f y)) (hx : x ∈ xs) (hreject : f x = .error (.circuit .unsatisfiable)) :
    xs.mapM f = .error (.circuit .unsatisfiable) := by
  induction xs with
  | nil => cases hx
  | cons y ys ih =>
    rw [List.mapM_cons]
    cases hy : f y with
    | error e =>
      obtain rfl := hf y List.mem_cons_self e hy
      rfl
    | ok b =>
      rcases List.mem_cons.mp hx with rfl | hmem
      · rw [hreject] at hy
        cases hy
      · rw [ih (fun z hz => hf z (List.mem_cons_of_mem _ hz)) hmem]
        rfl

theorem onlyRejects_bindSupplied (nonce : Bytes blindNonceBytes) (step : StepValues)
    (o : Option (List UInt8)) : OnlyRejects (bindSupplied nonce step o) := by
  cases o with
  | none =>
    by_cases h : step.disclosed
    · rw [bindSupplied, if_pos h]
      exact onlyRejects_unsatisfiable
    · rw [bindSupplied, if_neg h]
      exact onlyRejects_ok _
  | some bytes =>
    by_cases h : step.disclosed
    · rw [bindSupplied, if_pos h]
      apply OnlyRejects.bind onlyRejects_ensure
      intro _
      apply OnlyRejects.bind onlyRejects_ensure
      intro _
      exact onlyRejects_ok _
    · rw [bindSupplied, if_neg h]
      exact onlyRejects_unsatisfiable

variable {core : CoreValues} {supplied : List (Option (List UInt8))} {c : ClaimDigestStepCircuit}
  {i : ℕ} {o : Option (List UInt8)} {digest : Bytes 32} {digestId : UInt32}

/-- A slot is what its supplied bytes bind to, if both circuits agree on it. -/
theorem checkSlot_publicValues (ho : supplied[i]? = some o)
    (hdigest : core.blindedDigests[i]? = some digest) (hid : core.digestIds[i]? = some digestId) :
    checkSlot core supplied (c.publicValues : List F) i =
      (bindSupplied core.nonce c.stepValues o >>= fun t =>
        ensure (c.blindedDigest = digest) >>= fun _ => ensure (c.digestId = digestId) >>= fun _ =>
          .ok ⟨c.disclose, t.1, c.lenByte.toNat, t.2, c.digestId⟩) := by
  unfold checkSlot
  rw [decodeStep_publicValues, index_eq ho, index_eq hdigest, index_eq hid]
  rfl

theorem onlyRejects_checkSlot (ho : supplied[i]? = some o)
    (hdigest : core.blindedDigests[i]? = some digest) (hid : core.digestIds[i]? = some digestId) :
    OnlyRejects (checkSlot core supplied (c.publicValues : List F) i) := by
  rw [checkSlot_publicValues ho hdigest hid]
  exact (onlyRejects_bindSupplied _ _ _).bind fun _ => onlyRejects_ensure.bind fun _ =>
    onlyRejects_ensure.bind fun _ => onlyRejects_ok _

/-- A step that publishes another digest than the core's is rejected. -/
theorem checkSlot_of_ne (ho : supplied[i]? = some o)
    (hdigest : core.blindedDigests[i]? = some digest) (hid : core.digestIds[i]? = some digestId)
    (hne : c.blindedDigest ≠ digest) :
    checkSlot core supplied (c.publicValues : List F) i = .error (.circuit .unsatisfiable) := by
  rw [checkSlot_publicValues ho hdigest hid, ensure_false hne]
  have honly := onlyRejects_bindSupplied core.nonce c.stepValues o
  cases hbind : bindSupplied core.nonce c.stepValues o with
  | error e =>
    obtain rfl := honly e hbind
    rfl
  | ok t => rfl

end Decode

/-! ## Slots and claims -/

/-- The claims of all slots: an unused slot holds an empty, undisclosed claim. -/
def slots (claims : List ClaimWitness) : List ClaimWitness :=
  claims ++ List.replicate (maxClaimsV1 - claims.length) ⟨[], false, 0⟩

/-- The bytes that travel beside the proof for a slot. -/
def ClaimWitness.supplied (c : ClaimWitness) : Option (List UInt8) :=
  if c.disclose then some c.issuerSignedItemBytes else none

/-- What the verifier learns of a slot. -/
def ClaimWitness.outcome (c : ClaimWitness) : DisclosedClaim :=
  if c.disclose then
    { disclosed := true
      digest := claimDigestBytes c.issuerSignedItemBytes
      realLen := c.issuerSignedItemBytes.length
      plaintext := c.issuerSignedItemBytes
      digestId := c.digestId }
  else
    { disclosed := false
      digest := ⟨List.replicate 32 0, by simp⟩
      realLen := 0
      plaintext := []
      digestId := c.digestId }

/-- The step circuit built for a claim. -/
structure StepFor (nonce : Bytes blindNonceBytes) (c : ClaimWitness) (s : ClaimDigestStepCircuit) :
    Prop where
  padded : s.bytes = c.issuerSignedItemBytes ++ List.replicate (maxClaimBytesV1 - c.issuerSignedItemBytes.length) 0
  realLen : s.realLen = c.issuerSignedItemBytes.length
  disclose : s.disclose = c.disclose
  digestId : s.digestId = c.digestId
  nonce : s.nonce = nonce

section Slots

variable {nonce : Bytes blindNonceBytes} {c : ClaimWitness} {s : ClaimDigestStepCircuit}

theorem StepFor.bytes (h : StepFor nonce c s) : s.bytes.take s.realLen = c.issuerSignedItemBytes := by
  rw [h.padded, h.realLen, List.take_left]

theorem StepFor.digestBytes (h : StepFor nonce c s) :
    s.digestBytes = claimDigestBytes c.issuerSignedItemBytes := by
  rw [ClaimDigestStepCircuit.digestBytes, h.bytes]

theorem StepFor.blindedDigest (h : StepFor nonce c s) :
    s.blindedDigest = blindDigestBytes (claimDigestBytes c.issuerSignedItemBytes) nonce := by
  rw [ClaimDigestStepCircuit.blindedDigest, h.digestBytes, h.nonce]

theorem StepFor.lenByte (h : StepFor nonce c s) (hd : c.disclose = true) :
    s.lenByte.toNat = c.issuerSignedItemBytes.length := by
  have hle := s.realLen_le
  rw [ClaimDigestStepCircuit.lenByte, h.disclose, if_pos hd, UInt8.toNat_ofNat', h.realLen]
  rw [h.realLen] at hle
  exact Nat.mod_eq_of_lt (hle.trans_lt (by decide))

theorem StepFor.bindSupplied (h : StepFor nonce c s) :
    bindSupplied nonce s.stepValues c.supplied = .ok (c.outcome.digest, c.outcome.plaintext) := by
  unfold ClaimWitness.supplied ClaimWitness.outcome
  by_cases hd : c.disclose
  · have hs : s.stepValues.disclosed = true := h.disclose.trans hd
    have hdigest : blindDigestBytes (claimDigestBytes c.issuerSignedItemBytes) nonce =
        s.stepValues.blindedDigest := h.blindedDigest.symm
    have hlen : c.issuerSignedItemBytes.length = s.stepValues.realLen := (h.lenByte hd).symm
    rw [if_pos hd, if_pos hd, ZkCredVega.bindSupplied, if_pos hs, ensure_true hdigest, ensure_true hlen]
    rfl
  · have hs : ¬s.stepValues.disclosed = true := fun hs => hd (h.disclose.symm.trans hs)
    rw [if_neg hd, if_neg hd, ZkCredVega.bindSupplied, if_neg hs]

theorem StepFor.outcome (h : StepFor nonce c s) :
    ⟨s.disclose, c.outcome.digest, s.lenByte.toNat, c.outcome.plaintext, s.digestId⟩ = c.outcome := by
  unfold ClaimWitness.outcome
  by_cases hd : c.disclose
  · rw [if_pos hd, h.disclose, h.digestId, h.lenByte hd, hd]
  · have hs : ¬s.disclose = true := fun hs => hd (h.disclose.symm.trans hs)
    rw [if_neg hd, ClaimDigestStepCircuit.lenByte, if_neg hs, h.digestId, Bool.eq_false_of_not_eq_true hs]
    rfl

/-- No two of the strings hash to the same digest. -/
def NoCollision (ms : List (List UInt8)) : Prop :=
  ∀ x ∈ ms, ∀ y ∈ ms, Sha256.hash x = Sha256.hash y → x = y

instance (ms : List (List UInt8)) : Decidable (NoCollision ms) :=
  inferInstanceAs (Decidable (∀ x ∈ ms, ∀ y ∈ ms, _ → _))

/-- What is hashed to blind a claim with the given bytes. -/
def hashedFor (nonce : Bytes blindNonceBytes) (bytes : List UInt8) : List (List UInt8) :=
  [bytes, (claimDigestBytes bytes).val ++ nonce.val]

theorem blindDigestBytes_inj {a b : List UInt8} {ms : List (List UInt8)} (hms : NoCollision ms)
    (ha : hashedFor nonce a ⊆ ms) (hb : hashedFor nonce b ⊆ ms)
    (h : blindDigestBytes (claimDigestBytes a) nonce = blindDigestBytes (claimDigestBytes b) nonce) :
    a = b := by
  have houter : (claimDigestBytes a).val ++ nonce.val = (claimDigestBytes b).val ++ nonce.val :=
    hms _ (ha (by simp [hashedFor])) _ (hb (by simp [hashedFor])) (congrArg Subtype.val h)
  exact hms _ (ha (by simp [hashedFor])) _ (hb (by simp [hashedFor])) (List.append_cancel_right houter)

/-- Any other bytes are rejected, short of a collision. -/
theorem StepFor.bindSupplied_of_ne (h : StepFor nonce c s) {o : Option (List UInt8)}
    {ms : List (List UInt8)} (hms : NoCollision ms)
    (hc : hashedFor nonce c.issuerSignedItemBytes ⊆ ms) (ho : ∀ b ∈ o, hashedFor nonce b ⊆ ms)
    (hne : o ≠ c.supplied) :
    ZkCredVega.bindSupplied nonce s.stepValues o = .error (.circuit .unsatisfiable) := by
  unfold ClaimWitness.supplied at hne
  by_cases hd : c.disclose
  · have hs : s.stepValues.disclosed = true := h.disclose.trans hd
    rw [if_pos hd] at hne
    cases o with
    | none => rw [ZkCredVega.bindSupplied, if_pos hs]
    | some b =>
      have hdigest : blindDigestBytes (claimDigestBytes b) nonce ≠ s.stepValues.blindedDigest := by
        intro heq
        have hb := blindDigestBytes_inj hms (ho b rfl) hc (heq.trans h.blindedDigest)
        exact hne (congrArg some hb)
      rw [ZkCredVega.bindSupplied, if_pos hs, ensure_false hdigest]
      rfl
  · have hs : ¬s.stepValues.disclosed = true := fun hs => hd (h.disclose.symm.trans hs)
    rw [if_neg hd] at hne
    cases o with
    | none => exact absurd rfl hne
    | some b => rw [ZkCredVega.bindSupplied, if_neg hs]

end Slots

section Circuits

variable {F : Type} {claims : List ClaimWitness} {nonce : Bytes blindNonceBytes}

theorem length_slots (hcount : claims.length ≤ maxClaimsV1) : (slots claims).length = maxClaimsV1 := by
  simp only [slots, List.length_append, List.length_replicate]
  omega

theorem length_le_of_mem_slots (hbytes : ∀ c ∈ claims, c.issuerSignedItemBytes.length ≤ maxClaimBytesV1)
    {c : ClaimWitness} (hc : c ∈ slots claims) : c.issuerSignedItemBytes.length ≤ maxClaimBytesV1 := by
  rcases List.mem_append.mp hc with hc | hc
  · exact hbytes c hc
  · rw [List.eq_of_mem_replicate hc]
    exact Nat.zero_le _

def ClaimWitness.widened (c : ClaimWitness) : PaddedClaim where
  bytes := c.issuerSignedItemBytes ++
    List.replicate (maxClaimBytesV1 - c.issuerSignedItemBytes.length) 0
  realLen := c.issuerSignedItemBytes.length
  disclose := c.disclose
  digestId := c.digestId

theorem padClaims_eq (hcount : claims.length ≤ maxClaimsV1)
    (hbytes : ∀ c ∈ claims, c.issuerSignedItemBytes.length ≤ maxClaimBytesV1) :
    padClaims claims = .ok ((slots claims).map ClaimWitness.widened) := by
  have hmap : claims.mapM padClaim = .ok (claims.map ClaimWitness.widened) := by
    rw [Circuit.mapM_eq_ok_iff, List.forall₂_map_right_iff, List.forall₂_same]
    intro c hc
    have hle := hbytes c hc
    rw [padClaim, fixedWidthClaimBytes, if_neg (by omega)]
    rfl
  have hempty : PaddedClaim.empty = ClaimWitness.widened ⟨[], false, 0⟩ := rfl
  rw [padClaims, if_neg (by omega), hmap, slots, List.map_append, List.map_replicate, ← hempty]
  simp only [pure, Except.pure, bind, Except.bind, List.length_map]

/-- The circuits of a presentation, slot by slot. -/
theorem circuitsFor_eq (hcount : claims.length ≤ maxClaimsV1)
    (hbytes : ∀ c ∈ claims, c.issuerSignedItemBytes.length ≤ maxClaimBytesV1)
    (ecdsa : MdocEcdsaWitness F) (msoBody : MsoBodyWitness) (nonce : Bytes blindNonceBytes) :
    ∃ steps, List.Forall₂ (StepFor nonce) (slots claims) steps ∧
      circuitsFor claims ecdsa msoBody nonce = .ok (steps,
        { ecdsa, msoBody, nonce
          digestIds := (slots claims).map ClaimWitness.digestId
          claimDigests := (slots claims).map fun c => claimDigestBytes c.issuerSignedItemBytes }) := by
  have hpad := padClaims_eq hcount hbytes
  have hsteps : ∀ c ∈ slots claims, ∃ s, StepFor nonce c s ∧ ClaimDigestStepCircuit.new
      c.widened.bytes c.widened.realLen c.widened.disclose c.widened.digestId nonce = .ok s := by
    intro c hc
    have hle : c.widened.realLen ≤ maxClaimBytesV1 := length_le_of_mem_slots hbytes hc
    have hlen : c.widened.bytes.length = maxClaimBytesV1 := by
      have hlen : c.issuerSignedItemBytes.length ≤ maxClaimBytesV1 := hle
      simp only [ClaimWitness.widened, List.length_append, List.length_replicate]
      omega
    refine ⟨⟨c.widened.bytes, c.widened.realLen, c.widened.disclose, c.widened.digestId, nonce, hlen, hle⟩,
      ⟨rfl, rfl, rfl, rfl, rfl⟩, ?_⟩
    rw [ClaimDigestStepCircuit.new, dif_pos hlen, dif_pos hle]
  obtain ⟨steps, hfor⟩ : ∃ steps, List.Forall₂ (fun c s => StepFor nonce c s ∧
      ClaimDigestStepCircuit.new c.widened.bytes c.widened.realLen c.widened.disclose
        c.widened.digestId nonce = .ok s) (slots claims) steps := Circuit.exists_forall₂ hsteps
  refine ⟨steps, hfor.imp fun _ _ h => h.1, ?_⟩
  have hnew : ((slots claims).map ClaimWitness.widened).mapM (fun c =>
      ClaimDigestStepCircuit.new c.bytes c.realLen c.disclose c.digestId nonce) = .ok steps := by
    rw [Circuit.mapM_eq_ok_iff, List.forall₂_map_left_iff]
    exact hfor.imp fun _ _ h => h.2
  have hids : coreDigestIds claims = .ok ((slots claims).map ClaimWitness.digestId) := by
    have hrange : (List.range maxClaimsV1).mapM (fun i => do
        let c ← index ((slots claims).map ClaimWitness.widened) i
        pure c.digestId) = .ok ((slots claims).map ClaimWitness.digestId) := by
      rw [Circuit.mapM_eq_ok_iff, List.forall₂_iff_get]
      refine ⟨by simp [length_slots hcount], fun i h1 h2 => ?_⟩
      have hi : i < (slots claims).length := by simpa using h2
      have hget : ((slots claims).map ClaimWitness.widened)[i]? = some (slots claims)[i].widened := by
        rw [List.getElem?_map, List.getElem?_eq_getElem hi]
        rfl
      simp only [List.get_eq_getElem, List.getElem_range, List.getElem_map, index_eq hget]
      rfl
    rw [coreDigestIds, hpad]
    exact hrange
  have hdigests : coreClaimDigests claims =
      .ok ((slots claims).map fun c => claimDigestBytes c.issuerSignedItemBytes) := by
    have htake : ∀ c : ClaimWitness, c.widened.bytes.take c.widened.realLen = c.issuerSignedItemBytes :=
      fun c => List.take_left' rfl
    rw [coreClaimDigests, hpad]
    simp only [bind, Except.bind, pure, Except.pure, List.map_map, Function.comp_def, htake]
  rw [circuitsFor, hpad, hids, hdigests]
  simp only [pure, Except.pure, bind, Except.bind, hnew]

variable [Field F] [DecidableEq F]

theorem allBoolean_flatMap {α : Type} {enc : α → List F} (henc : ∀ x, allBoolean (enc x) = true)
    (xs : List α) : allBoolean (xs.flatMap enc) = true := by
  induction xs with
  | nil => rfl
  | cons x xs ih =>
    rw [List.flatMap_cons, allBoolean_append, henc, ih]
    rfl

theorem allBoolean_nativeBytesToBits (bs : List UInt8) :
    allBoolean (nativeBytesToBits bs : List F) = true := allBoolean_map_bitValue _

theorem allBoolean_bitValues (c : MdocCoreCircuit F) : allBoolean c.bitValues = true := by
  have hids : allBoolean (c.digestIds.flatMap nativeU32ToBits : List F) = true :=
    allBoolean_flatMap (fun _ => allBoolean_map_bitValue _) _
  have hdigests : allBoolean ((c.claimDigests.map fun digest => blindDigestBytes digest c.nonce).flatMap
      fun digest => nativeBytesToBits digest.val : List F) = true :=
    allBoolean_flatMap (fun _ => allBoolean_map_bitValue _) _
  simp only [MdocCoreCircuit.bitValues, allBoolean_append, allBoolean_nativeBytesToBits, hids, hdigests]
  rfl

omit [Field F] [DecidableEq F] in
theorem length_flatMap_const {α : Type} {enc : α → List F} {k : ℕ} (henc : ∀ x, (enc x).length = k)
    (xs : List α) : (xs.flatMap enc).length = k * xs.length := by
  induction xs with
  | nil => rfl
  | cons x xs ih =>
    rw [List.flatMap_cons, List.length_append, henc, ih, List.length_cons, Nat.mul_succ, Nat.add_comm]

omit [DecidableEq F] in
theorem length_corePublicValues {c : MdocCoreCircuit F} (hids : c.digestIds.length = maxClaimsV1)
    (hdigests : c.claimDigests.length = maxClaimsV1) : c.publicValues.length = coreLen := by
  have hu32 : (c.digestIds.flatMap nativeU32ToBits : List F).length = 32 * c.digestIds.length :=
    length_flatMap_const (fun _ => by simp [nativeU32ToBits, u32Bits]) _
  have hblinded : ((c.claimDigests.map fun digest => blindDigestBytes digest c.nonce).flatMap
      fun digest => nativeBytesToBits digest.val : List F).length = 256 * c.claimDigests.length := by
    rw [length_flatMap_const (fun digest => by rw [length_nativeBytesToBits, digest.property]),
      List.length_map]
  rw [c.publicValues_eq]
  simp only [MdocCoreCircuit.bitValues, List.length_cons, List.length_append, length_nativeBytesToBits,
    hu32, hblinded, hids, hdigests, c.nonce.property, c.msoBody.deviceX.property,
    c.msoBody.deviceY.property, c.msoBody.signedTs.property, c.msoBody.validFromTs.property,
    c.msoBody.validUntilTs.property, List.length_nil]
  rfl

/-- The verifier's run over the values of a well-sized core circuit. -/
theorem verifyAndCheckBinding_publicValues {c : MdocCoreCircuit F}
    (hids : c.digestIds.length = maxClaimsV1) (hdigests : c.claimDigests.length = maxClaimsV1)
    {supplied : List (Option (List UInt8))} (hsupplied : supplied.length = maxClaimsV1)
    {steps : List ClaimDigestStepCircuit} (hsteps : steps.length = maxClaimsV1) :
    verifyAndCheckBinding (steps.map fun s => s.publicValues) c.publicValues supplied =
      ((steps.map fun s => (s.publicValues : List F)).zipIdx.mapM fun t =>
        checkSlot c.coreValues supplied t.1 t.2) >>= fun claims =>
      .ok ⟨c.ecdsa.qx, c.ecdsa.qy, claims, c.msoBody.deviceX, c.msoBody.deviceY, c.msoBody.signedTs,
        c.msoBody.validFromTs, c.msoBody.validUntilTs⟩ := by
  have hdrop : c.publicValues.drop 2 = c.bitValues := by
    rw [c.publicValues_eq]
    rfl
  have h0 : c.publicValues[0]? = some c.ecdsa.qx := by
    rw [c.publicValues_eq]
    rfl
  have h1 : c.publicValues[1]? = some c.ecdsa.qy := by
    rw [c.publicValues_eq]
    rfl
  have hvalues : (steps.map fun s => (s.publicValues : List F)).length = maxClaimsV1 := by
    rw [List.length_map, hsteps]
  unfold verifyAndCheckBinding
  rw [ensure_true hsupplied, ensure_true (length_corePublicValues hids hdigests), index_eq h0, index_eq h1,
    hdrop, ensure_true (allBoolean_bitValues c), takeCore_bitValues hids hdigests, ensure_true hvalues]
  rfl

/-- A slot that is rejected rejects the presentation. -/
theorem verifyAndCheckBinding_rejects {c : MdocCoreCircuit F}
    (hids : c.digestIds.length = maxClaimsV1) (hdigests : c.claimDigests.length = maxClaimsV1)
    {supplied : List (Option (List UInt8))} {steps : List ClaimDigestStepCircuit}
    (hsteps : steps.length = maxClaimsV1)
    (hslot : supplied.length = maxClaimsV1 → ∃ i s, steps[i]? = some s ∧
      checkSlot c.coreValues supplied (s.publicValues : List F) i = .error (.circuit .unsatisfiable)) :
    verifyAndCheckBinding (steps.map fun s => s.publicValues) c.publicValues supplied =
      .error (.circuit .unsatisfiable) := by
  by_cases hsupplied : supplied.length = maxClaimsV1
  · obtain ⟨i, s, hs, hreject⟩ := hslot hsupplied
    rw [verifyAndCheckBinding_publicValues hids hdigests hsupplied hsteps]
    have hmem : ((s.publicValues : List F), i) ∈ (steps.map fun s => (s.publicValues : List F)).zipIdx := by
      rw [List.mem_zipIdx_iff_getElem?, List.getElem?_map, hs]
      rfl
    -- every slot has its supplied bytes and its values in the core circuit
    have honly : ∀ t ∈ (steps.map fun s => (s.publicValues : List F)).zipIdx,
        OnlyRejects (checkSlot c.coreValues supplied t.1 t.2) := by
      intro t ht
      rw [List.mem_zipIdx_iff_getElem?, List.getElem?_map] at ht
      obtain ⟨s', hs', hv⟩ := Option.map_eq_some_iff.mp ht
      have hi : t.2 < maxClaimsV1 := by
        rw [← hsteps]
        exact (List.getElem?_eq_some_iff.mp hs').1
      have hdigests' : t.2 < c.coreValues.blindedDigests.length := by
        simp only [MdocCoreCircuit.coreValues, List.length_map]
        omega
      have hids' : t.2 < c.coreValues.digestIds.length := by
        simp only [MdocCoreCircuit.coreValues]
        omega
      rw [← hv]
      exact onlyRejects_checkSlot (List.getElem?_eq_getElem (by omega))
        (List.getElem?_eq_getElem hdigests') (List.getElem?_eq_getElem hids')
    have hloop := mapM_rejected (f := fun t : List F × ℕ => checkSlot c.coreValues supplied t.1 t.2)
      honly hmem hreject
    rw [hloop]
    rfl
  · unfold verifyAndCheckBinding
    rw [ensure_false hsupplied]
    rfl

/-- The strings hashed for a presentation and for the bytes supplied with it. -/
def hashedStrings (claims : List ClaimWitness) (nonce : Bytes blindNonceBytes)
    (supplied : List (Option (List UInt8))) : List (List UInt8) :=
  (slots claims).flatMap (fun c => hashedFor nonce c.issuerSignedItemBytes) ++
    supplied.flatMap fun o => (o.map (hashedFor nonce)).getD []

def coreFor (claims : List ClaimWitness) (ecdsa : MdocEcdsaWitness F) (msoBody : MsoBodyWitness)
    (nonce : Bytes blindNonceBytes) : MdocCoreCircuit F where
  ecdsa := ecdsa
  msoBody := msoBody
  nonce := nonce
  digestIds := (slots claims).map ClaimWitness.digestId
  claimDigests := (slots claims).map fun c => claimDigestBytes c.issuerSignedItemBytes

section Slot

variable {ecdsa : MdocEcdsaWitness F} {msoBody : MsoBodyWitness} {steps : List ClaimDigestStepCircuit}

omit [Field F] [DecidableEq F] in
theorem length_coreFor (ecdsa : MdocEcdsaWitness F) (msoBody : MsoBodyWitness) (nonce : Bytes blindNonceBytes)
    (hcount : claims.length ≤ maxClaimsV1) :
    (coreFor claims ecdsa msoBody nonce).digestIds.length = maxClaimsV1 ∧
      (coreFor claims ecdsa msoBody nonce).claimDigests.length = maxClaimsV1 := by
  simp only [coreFor, List.length_map, length_slots hcount, and_self]

omit [Field F] [DecidableEq F] in
theorem exists_slot (ecdsa : MdocEcdsaWitness F) (msoBody : MsoBodyWitness) (hcount : claims.length ≤ maxClaimsV1)
    (hfor : List.Forall₂ (StepFor nonce) (slots claims) steps) {i : ℕ} (hi : i < maxClaimsV1) :
    ∃ c s, (slots claims)[i]? = some c ∧ steps[i]? = some s ∧ StepFor nonce c s ∧
      (coreFor claims ecdsa msoBody nonce).coreValues.blindedDigests[i]? = some s.blindedDigest ∧
      (coreFor claims ecdsa msoBody nonce).coreValues.digestIds[i]? = some s.digestId := by
  have hslots := length_slots hcount
  have hlen := hfor.length_eq
  have hc : i < (slots claims).length := by omega
  have hs : i < steps.length := by omega
  have hstep : StepFor nonce (slots claims)[i] steps[i] := (List.forall₂_iff_get.mp hfor).2 i hc hs
  refine ⟨_, _, List.getElem?_eq_getElem hc, List.getElem?_eq_getElem hs, hstep, ?_, ?_⟩
  · show (((slots claims).map fun c => claimDigestBytes c.issuerSignedItemBytes).map
      fun digest => blindDigestBytes digest nonce)[i]? = _
    rw [List.getElem?_map, List.getElem?_map, List.getElem?_eq_getElem hc, hstep.blindedDigest]
    rfl
  · show ((slots claims).map ClaimWitness.digestId)[i]? = _
    rw [List.getElem?_map, List.getElem?_eq_getElem hc, hstep.digestId]
    rfl

theorem checkSlot_own {c : ClaimWitness} {s : ClaimDigestStepCircuit} {core : MdocCoreCircuit F}
    {supplied : List (Option (List UInt8))} {i : ℕ} (hstep : StepFor core.nonce c s)
    (ho : supplied[i]? = some c.supplied)
    (hdigest : core.coreValues.blindedDigests[i]? = some s.blindedDigest)
    (hid : core.coreValues.digestIds[i]? = some s.digestId) :
    checkSlot core.coreValues supplied (s.publicValues : List F) i = .ok c.outcome := by
  rw [checkSlot_publicValues ho hdigest hid]
  show (ZkCredVega.bindSupplied core.nonce s.stepValues c.supplied >>= fun t => _) = _
  rw [hstep.bindSupplied]
  show (ensure (s.blindedDigest = s.blindedDigest) >>= fun _ =>
    ensure (s.digestId = s.digestId) >>= fun _ => _) = _
  rw [ensure_true rfl, ensure_true rfl, ← hstep.outcome]
  rfl

theorem checkSlots_own (hcount : claims.length ≤ maxClaimsV1)
    (hfor : List.Forall₂ (StepFor nonce) (slots claims) steps) :
    ((steps.map fun s => (s.publicValues : List F)).zipIdx.mapM fun t =>
      checkSlot (coreFor claims ecdsa msoBody nonce).coreValues ((slots claims).map ClaimWitness.supplied) t.1 t.2) =
      .ok ((slots claims).map ClaimWitness.outcome) := by
  have hslots := length_slots hcount
  have hsteps : steps.length = maxClaimsV1 := by rw [← hfor.length_eq, hslots]
  rw [Circuit.mapM_eq_ok_iff, List.forall₂_iff_get]
  refine ⟨by simp [hsteps, hslots], fun i h1 h2 => ?_⟩
  have hi : i < maxClaimsV1 := by simpa [hslots] using h2
  obtain ⟨c, s, hc, hs, hstep, hdigest, hid⟩ :=
    exists_slot ecdsa msoBody hcount hfor hi
  have hturn : (steps.map fun s => (s.publicValues : List F)).zipIdx[i]? = some (s.publicValues, i) := by
    rw [List.getElem?_zipIdx, List.getElem?_map, hs]
    simp
  have houtcome : ((slots claims).map ClaimWitness.outcome)[i]? = some c.outcome := by
    rw [List.getElem?_map, hc]
    rfl
  have ho : ((slots claims).map ClaimWitness.supplied)[i]? = some c.supplied := by
    rw [List.getElem?_map, hc]
    rfl
  rw [List.get_eq_getElem, List.get_eq_getElem, (List.getElem?_eq_some_iff.mp hturn).2,
    (List.getElem?_eq_some_iff.mp houtcome).2]
  exact checkSlot_own hstep ho hdigest hid

/-- A presentation verifies to its own claims. -/
theorem verifyAndCheckBinding_own (hcount : claims.length ≤ maxClaimsV1)
    (hfor : List.Forall₂ (StepFor nonce) (slots claims) steps) :
    verifyAndCheckBinding (steps.map fun s => s.publicValues) (coreFor claims ecdsa msoBody nonce).publicValues
        ((slots claims).map ClaimWitness.supplied) =
      .ok ⟨ecdsa.qx, ecdsa.qy, (slots claims).map ClaimWitness.outcome, msoBody.deviceX,
        msoBody.deviceY, msoBody.signedTs, msoBody.validFromTs, msoBody.validUntilTs⟩ := by
  have hslots := length_slots hcount
  obtain ⟨hids, hdigests⟩ := length_coreFor ecdsa msoBody nonce hcount
  rw [verifyAndCheckBinding_publicValues hids hdigests (by rw [List.length_map, hslots])
    (by rw [← hfor.length_eq, hslots]), checkSlots_own hcount hfor]
  rfl

/-- Bytes other than a claim's own are rejected in its slot, short of a collision. -/
theorem rejects_otherBytes (hcount : claims.length ≤ maxClaimsV1)
    (hfor : List.Forall₂ (StepFor nonce) (slots claims) steps) {supplied : List (Option (List UInt8))}
    (hne : supplied ≠ (slots claims).map ClaimWitness.supplied)
    (hms : NoCollision (hashedStrings claims nonce supplied)) (hsupplied : supplied.length = maxClaimsV1) :
    ∃ i s, steps[i]? = some s ∧ checkSlot (coreFor claims ecdsa msoBody nonce).coreValues supplied
      (s.publicValues : List F) i = .error (.circuit .unsatisfiable) := by
  have hslots := length_slots hcount
  obtain ⟨i, hi, hat⟩ : ∃ i < maxClaimsV1,
      supplied[i]? ≠ ((slots claims).map ClaimWitness.supplied)[i]? := by
    by_contra hall
    push Not at hall
    apply hne
    apply List.ext_getElem?
    intro i
    rcases Nat.lt_or_ge i maxClaimsV1 with hi | hi
    · exact hall i hi
    · rw [List.getElem?_eq_none (by omega), List.getElem?_eq_none (by rw [List.length_map]; omega)]
  obtain ⟨c, s, hc, hs, hstep, hdigest, hid⟩ :=
    exists_slot ecdsa msoBody hcount hfor hi
  have ho : supplied[i]? = some supplied[i] := List.getElem?_eq_getElem (by omega)
  refine ⟨i, s, hs, ?_⟩
  rw [ho, List.getElem?_map, hc] at hat
  have hmem : ∀ b ∈ supplied[i], hashedFor nonce b ⊆ hashedStrings claims nonce supplied := by
    intro b hb m hm
    refine List.mem_append_right _ (List.mem_flatMap.mpr ⟨supplied[i], List.mem_of_getElem? ho, ?_⟩)
    rw [hb]
    exact hm
  have hmemc : hashedFor nonce c.issuerSignedItemBytes ⊆ hashedStrings claims nonce supplied := by
    intro m hm
    exact List.mem_append_left _ (List.mem_flatMap.mpr ⟨c, List.mem_of_getElem? hc, hm⟩)
  have hbind := hstep.bindSupplied_of_ne hms hmemc hmem fun h => hat (congrArg some h)
  rw [checkSlot_publicValues ho hdigest hid]
  show (ZkCredVega.bindSupplied nonce s.stepValues supplied[i] >>= fun t => _) = _
  rw [hbind]
  rfl

/-- A step of another slot is rejected. -/
theorem rejects_exchanged (hcount : claims.length ≤ maxClaimsV1)
    (hfor : List.Forall₂ (StepFor nonce) (slots claims) steps) {i j : ℕ} {si sj : ClaimDigestStepCircuit}
    (hi : steps[i]? = some si) (hj : steps[j]? = some sj) (hne : si.blindedDigest ≠ sj.blindedDigest)
    {supplied : List (Option (List UInt8))} (hsupplied : supplied.length = maxClaimsV1) :
    ∃ k s, ((steps.set i sj).set j si)[k]? = some s ∧ checkSlot (coreFor claims ecdsa msoBody nonce).coreValues
      supplied (s.publicValues : List F) k = .error (.circuit .unsatisfiable) := by
  have hsteps : steps.length = maxClaimsV1 := by rw [← hfor.length_eq, length_slots hcount]
  have hlt : i < maxClaimsV1 := by
    rw [← hsteps]
    exact (List.getElem?_eq_some_iff.mp hi).1
  have hji : j ≠ i := by
    rintro rfl
    rw [hi] at hj
    exact hne (congrArg ClaimDigestStepCircuit.blindedDigest (Option.some.inj hj))
  obtain ⟨c, s, hc, hs, hstep, hdigest, hid⟩ :=
    exists_slot ecdsa msoBody hcount hfor hlt
  obtain rfl : s = si := Option.some.inj (hs.symm.trans hi)
  refine ⟨i, sj, ?_, ?_⟩
  · rw [List.getElem?_set_ne hji, List.getElem?_set_self (by omega)]
  · exact checkSlot_of_ne (List.getElem?_eq_getElem (by omega)) hdigest hid hne.symm

end Slot

/-- A presentation verifies to its own claims. With other bytes beside it, or with two of its steps
exchanged, it is rejected. -/
theorem presentation_roundTrip (hcount : claims.length ≤ maxClaimsV1)
    (hbytes : ∀ c ∈ claims, c.issuerSignedItemBytes.length ≤ maxClaimBytesV1)
    (ecdsa : MdocEcdsaWitness F) (msoBody : MsoBodyWitness) (nonce : Bytes blindNonceBytes) :
    ∃ steps core, circuitsFor claims ecdsa msoBody nonce = .ok (steps, core) ∧
      verifyAndCheckBinding (steps.map fun s => s.publicValues) core.publicValues
          ((slots claims).map ClaimWitness.supplied) =
        .ok ⟨ecdsa.qx, ecdsa.qy, (slots claims).map ClaimWitness.outcome, msoBody.deviceX,
          msoBody.deviceY, msoBody.signedTs, msoBody.validFromTs, msoBody.validUntilTs⟩ ∧
      (∀ supplied, supplied ≠ (slots claims).map ClaimWitness.supplied →
        NoCollision (hashedStrings claims nonce supplied) →
        verifyAndCheckBinding (steps.map fun s => s.publicValues) core.publicValues supplied =
          .error (.circuit .unsatisfiable)) ∧
      ∀ i j si sj, steps[i]? = some si → steps[j]? = some sj → si.blindedDigest ≠ sj.blindedDigest →
        ∀ supplied,
          verifyAndCheckBinding (((steps.set i sj).set j si).map fun s => s.publicValues)
            core.publicValues supplied = .error (.circuit .unsatisfiable) := by
  obtain ⟨steps, hfor, hcircuits⟩ := circuitsFor_eq hcount hbytes ecdsa msoBody nonce
  have hslots := length_slots hcount
  have hsteps : steps.length = maxClaimsV1 := by rw [← hfor.length_eq, hslots]
  obtain ⟨hids, hdigests⟩ := length_coreFor ecdsa msoBody nonce hcount
  refine ⟨steps, coreFor claims ecdsa msoBody nonce, hcircuits, verifyAndCheckBinding_own hcount hfor, ?_, ?_⟩
  · intro supplied hne hms
    exact verifyAndCheckBinding_rejects hids hdigests hsteps (rejects_otherBytes hcount hfor hne hms)
  · intro i j si sj hi hj hne supplied
    exact verifyAndCheckBinding_rejects hids hdigests (by simpa using hsteps)
      (rejects_exchanged hcount hfor hi hj hne)

end Circuits

/-! ## A presentation -/

/-- An `IssuerSignedItem` of four entries, `random` first. -/
def issuerSignedItem (random digestId identifier value : List UInt8) : List UInt8 :=
  let item := [0xa4, 0x66, 0x72, 0x61, 0x6e, 0x64, 0x6f, 0x6d, 0x58, 0x20] ++ random ++
    [0x68, 0x64, 0x69, 0x67, 0x65, 0x73, 0x74, 0x49, 0x44] ++ digestId ++
    [0x71, 0x65, 0x6c, 0x65, 0x6d, 0x65, 0x6e, 0x74, 0x49, 0x64, 0x65, 0x6e, 0x74, 0x69, 0x66, 0x69, 0x65, 0x72] ++
    identifier ++
    [0x6c, 0x65, 0x6c, 0x65, 0x6d, 0x65, 0x6e, 0x74, 0x56, 0x61, 0x6c, 0x75, 0x65] ++ value
  [0xd8, 0x18, 0x58, UInt8.ofNat item.length] ++ item

/-- The family name `Doe`, under the digestID 300. -/
def familyName : List UInt8 :=
  issuerSignedItem ((List.range 32).map fun i => UInt8.ofNat (i + 1)) [0x19, 0x01, 0x2c]
    [0x6b, 0x66, 0x61, 0x6d, 0x69, 0x6c, 0x79, 0x5f, 0x6e, 0x61, 0x6d, 0x65] [0x63, 0x44, 0x6f, 0x65]

/-- The given name `Ada`, under the digestID 70000. -/
def givenName : List UInt8 :=
  issuerSignedItem ((List.range 32).map fun i => UInt8.ofNat (i + 101)) [0x1a, 0x00, 0x01, 0x11, 0x70]
    [0x6a, 0x67, 0x69, 0x76, 0x65, 0x6e, 0x5f, 0x6e, 0x61, 0x6d, 0x65] [0x63, 0x41, 0x64, 0x61]

/-- A claim without bytes, a disclosed name and a hidden one. -/
def presentedClaims (disclose : Bool) : List ClaimWitness :=
  [⟨[], disclose, 0⟩, ⟨familyName, true, 300⟩, ⟨givenName, false, 70000⟩]

theorem presentedClaims_length_le (disclose : Bool) : (presentedClaims disclose).length ≤ maxClaimsV1 :=
  show 3 ≤ 4 by decide

theorem presentedClaims_bytes_le (disclose : Bool) :
    ∀ c ∈ presentedClaims disclose, c.issuerSignedItemBytes.length ≤ maxClaimBytesV1 := by
  cases disclose <;> decide

def presentedNonce : Bytes blindNonceBytes :=
  ⟨(List.range blindNonceBytes).map fun i => UInt8.ofNat (i + 1), by rw [List.length_map, List.length_range]⟩

/-- `20x6-08-20T00:00:00Z` for the digit `x`. -/
def presentedTimestamp (x : UInt8) : Bytes timestampLen :=
  ⟨[0x32, 0x30, x, 0x36, 0x2d, 0x30, 0x38, 0x2d, 0x32, 0x30, 0x54, 0x30, 0x30, 0x3a, 0x30, 0x30, 0x3a, 0x30, 0x30,
    0x5a], rfl⟩

/-- The device key is twice the generator. -/
def presentedBody : MsoBodyWitness where
  deviceX := ⟨[0x7c, 0xf2, 0x7b, 0x18, 0x8d, 0x03, 0x4f, 0x7e, 0x8a, 0x52, 0x38, 0x03, 0x04, 0xb5, 0x1a, 0xc3, 0xc0, 0x89,
    0x69, 0xe2, 0x77, 0xf2, 0x1b, 0x35, 0xa6, 0x0b, 0x48, 0xfc, 0x47, 0x66, 0x99, 0x78], rfl⟩
  deviceY := ⟨[0x07, 0x77, 0x55, 0x10, 0xdb, 0x8e, 0xd0, 0x40, 0x29, 0x3d, 0x9a, 0xc6, 0x9f, 0x74, 0x30, 0xdb, 0xba, 0x7d,
    0xad, 0xe6, 0x3c, 0xe9, 0x82, 0x29, 0x9e, 0x04, 0xb7, 0x9d, 0x22, 0x78, 0x73, 0xd1], rfl⟩
  signedTs := presentedTimestamp 0x32
  validFromTs := presentedTimestamp 0x32
  validUntilTs := presentedTimestamp 0x33

/-- The signature of the structure of these claims under the private key `1`, with the random number `1`. -/
def presentedEcdsa : MdocEcdsaWitness Scalar where
  qx := generatorX
  qy := generatorY
  r := generatorX
  s := 33306156063138830391950860165165636769604973577180663948037247064713294364444
  sInv := 62994664014691262451651573046500958686835198386369154227659711121032822422285

def twoClaims : List ClaimWitness := [⟨[0x61, 0x62, 0x63], true, 5⟩, ⟨[0x64], false, 300⟩]

theorem presentation_roundTrip_twoClaims :
    ∃ steps core, circuitsFor twoClaims presentedEcdsa presentedBody presentedNonce = .ok (steps, core) ∧
      (∃ presentation, verifyAndCheckBinding (steps.map fun s => s.publicValues) core.publicValues
        ((slots twoClaims).map ClaimWitness.supplied) = .ok presentation) ∧
      verifyAndCheckBinding (steps.map fun s => s.publicValues) core.publicValues
        [some [0x61, 0x62], none, none, none] = .error (.circuit .unsatisfiable) := by
  have hcount : twoClaims.length ≤ maxClaimsV1 := by decide
  have hbytes : ∀ c ∈ twoClaims, c.issuerSignedItemBytes.length ≤ maxClaimBytesV1 := by decide
  obtain ⟨steps, core, hcircuits, hok, hother, -⟩ :=
    presentation_roundTrip hcount hbytes presentedEcdsa presentedBody presentedNonce
  have hne : [some [0x61, 0x62], none, none, none] ≠ (slots twoClaims).map ClaimWitness.supplied := by
    decide
  have hms : NoCollision (hashedStrings twoClaims presentedNonce [some [0x61, 0x62], none, none, none]) := by
    decide +kernel
  exact ⟨steps, core, hcircuits, ⟨_, hok⟩, hother _ hne hms⟩

end ZkCredVega
