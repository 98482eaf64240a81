import ZkCredVega.Claims.Binding
import ZkCredVega.Claims.CborUint

/-!
# The two ways into the verifier

`verify` of `ffi_api.rs` and `zk_cred_vega_verify` of `go_ffi.rs` translate a caller's bytes into
the slots of `verify_and_check_binding`, and its result back into records of their own. UniFFI has
one byte string a slot, and an empty one says that the slot is undisclosed; the C ABI says so with
a flag.
-/

namespace ZkCredVega

open Circuits MdocResult

open Mso (encodeCborUint encodeCborUint_le)

/-- The proof system: `bincode` and the verifier of `vega_prover`. -/
structure Snark (F : Type) where
  VerifierKey : Type
  Proof : Type
  deserialize : List UInt8 → Option Proof
  verify : Proof → VerifierKey → Option (List (List F) × List F)
  deserialize_nil : deserialize [] = none

/-- How a call ends without a result, one case for each place where it does. -/
inductive FrontendError where
  | deserialize
  | verify
  | verifierKeyNull
  | proofNull (len : ℕ)
  | proofEmpty
  | disclosedNull
  | disclosedCount (got : ℕ)
  | disclosedLen (len : ℕ)
  | binding (e : VegaMdocError)
  | claimCount (got : ℕ)
  | plaintextLen (plaintext realLen : ℕ)
  | realLen (len : ℕ)

abbrev FrontendResult := Except FrontendError

namespace FrontendResult

def ofOption {α : Type} (e : FrontendError) : Option α → FrontendResult α
  | some a => .ok a
  | none => .error e

/-- An early return of the error unless `p`. -/
def require (p : Prop) [Decidable p] (e : FrontendError) : FrontendResult Unit :=
  if p then .ok () else .error e

def ofBinding {α : Type} : MdocResult α → FrontendResult α
  | .ok a => .ok a
  | .error e => .error (.binding e)

theorem ofOption_eq_ok {α : Type} {e : FrontendError} {o : Option α} {a : α} : ofOption e o = .ok a ↔ o = some a := by
  cases o with
  | none => exact ⟨nofun, nofun⟩
  | some x => exact ⟨fun h => congrArg some (Except.ok.inj h), fun h => congrArg Except.ok (Option.some.inj h)⟩

theorem require_eq_ok {p : Prop} [Decidable p] {e : FrontendError} {u : Unit} : require p e = .ok u ↔ p := by
  unfold require
  split
  · exact ⟨fun _ => ‹p›, fun _ => rfl⟩
  · exact ⟨nofun, fun h => absurd h ‹¬p›⟩

theorem ofBinding_eq_ok {α : Type} {x : MdocResult α} {a : α} : ofBinding x = .ok a ↔ x = .ok a := by
  cases x with
  | error e => exact ⟨nofun, nofun⟩
  | ok b => exact ⟨fun h => congrArg Except.ok (Except.ok.inj h), fun h => congrArg Except.ok (Except.ok.inj h)⟩

/-- Two calls that succeed together, with the same reading of their results. -/
theorem toOption_map_eq {ε α β γ : Type} {x : FrontendResult α} {y : Except ε β} {f : α → γ} {g : β → γ}
    (hxy : ∀ a, x = .ok a → ∃ b, y = .ok b ∧ f a = g b) (hyx : ∀ b, y = .ok b → ∃ a, x = .ok a) :
    x.toOption.map f = y.toOption.map g := by
  cases hx : x with
  | ok a =>
    obtain ⟨b, rfl, hab⟩ := hxy a hx
    exact congrArg some hab
  | error e =>
    cases hy : y with
    | ok b =>
      obtain ⟨a, ha⟩ := hyx b hy
      rw [hx] at ha
      cases ha
    | error e' => rfl

end FrontendResult

open FrontendResult

section Scalar

variable {F : Type} [ToRepr F]

/-- The 32 bytes of a coordinate, big-endian; a representation has no more. -/
def scalarToBytes (s : F) : Bytes 32 := ⟨beBytes 32 (ToRepr.toNat s), length_beBytes 32 _⟩

end Scalar

/-! ## UniFFI -/

structure FfiDisclosedClaim where
  disclosed : Bool
  digest : List UInt8
  realLen : UInt32
  plaintext : List UInt8
  digestId : UInt32

structure FfiVerifyResult where
  qx : List UInt8
  qy : List UInt8
  claims : List FfiDisclosedClaim
  deviceX : List UInt8
  deviceY : List UInt8
  signedTs : List UInt8
  validFromTs : List UInt8
  validUntilTs : List UInt8

def FfiDisclosedClaim.ofClaim (c : DisclosedClaim) : FfiDisclosedClaim where
  disclosed := c.disclosed
  digest := c.digest.val
  realLen := UInt32.ofNat c.realLen
  plaintext := c.plaintext
  digestId := c.digestId

namespace FfiApi

variable {F : Type} [Field F] [DecidableEq F] [ToRepr F]

def toResult (v : VerifiedPresentation F) : FfiVerifyResult where
  qx := (scalarToBytes v.qx).val
  qy := (scalarToBytes v.qy).val
  claims := v.claims.map FfiDisclosedClaim.ofClaim
  deviceX := v.deviceX.val
  deviceY := v.deviceY.val
  signedTs := v.signedTs.val
  validFromTs := v.validFromTs.val
  validUntilTs := v.validUntilTs.val

/-- The slot that one byte string stands for. -/
def slot (b : List UInt8) : Option (List UInt8) := if b.isEmpty then none else some b

def verify (snark : Snark F) (vk : snark.VerifierKey) (proofBytes : List UInt8) (disclosedBytes : List (List UInt8)) :
    FrontendResult FfiVerifyResult := do
  let proof ← ofOption .deserialize (snark.deserialize proofBytes)
  let values ← ofOption .verify (snark.verify proof vk)
  require (disclosedBytes.length = maxClaimsV1) (.disclosedCount disclosedBytes.length)
  let verified ← ofBinding (verifyAndCheckBinding values.1 values.2 (disclosedBytes.map slot))
  pure (toResult verified)

end FfiApi

/-! ## The C ABI -/

structure CDisclosedClaim where
  disclosed : UInt8
  digest : Bytes 32
  realLen : UInt32
  plaintext : Bytes maxClaimBytesV1
  digestId : UInt32

/-- One slot's disclosed bytes, as a caller gives them. -/
structure CDisclosedInput where
  present : UInt8
  len : ℕ
  bytes : Bytes maxClaimBytesV1

structure CVerifyResult where
  qx : Bytes 32
  qy : Bytes 32
  claims : List CDisclosedClaim
  deviceX : Bytes 32
  deviceY : Bytes 32
  signedTs : Bytes timestampLen
  validFromTs : Bytes timestampLen
  validUntilTs : Bytes timestampLen

/-- What a call leaves behind: its status, and what it writes through the two pointers. -/
structure CCall where
  status : ℤ
  resultOut : Option CVerifyResult
  errorOut : Option FrontendError

namespace GoFfi

theorem length_padded {bytes : List UInt8} (h : bytes.length ≤ maxClaimBytesV1) :
    (bytes ++ List.replicate (maxClaimBytesV1 - bytes.length) 0).length = maxClaimBytesV1 := by
  rw [List.length_append, List.length_replicate]
  omega

def toCClaim (c : DisclosedClaim) : FrontendResult CDisclosedClaim :=
  if hlen : c.plaintext.length = c.realLen then
    if hmax : c.realLen ≤ maxClaimBytesV1 then
      .ok {
        disclosed := if c.disclosed then 1 else 0
        digest := c.digest
        realLen := UInt32.ofNat c.realLen
        plaintext := ⟨_, length_padded (hlen ▸ hmax)⟩
        digestId := c.digestId }
    else .error (.realLen c.realLen)
  else .error (.plaintextLen c.plaintext.length c.realLen)

/-- The slot that one input stands for. -/
def slot (d : CDisclosedInput) : FrontendResult (Option (List UInt8)) :=
  if d.present = 0 then .ok none
  else if d.len > maxClaimBytesV1 then .error (.disclosedLen d.len)
  else .ok (some (d.bytes.val.take d.len))

/-- `bytes_or_empty`: a length, and the bytes when the pointer is not null. -/
def bytesOrEmpty (len : ℕ) : Option (List UInt8) → FrontendResult (List UInt8)
  | some bytes => .ok (bytes.take len)
  | none => if len = 0 then .ok [] else .error (.proofNull len)

variable {F : Type} [Field F] [DecidableEq F] [ToRepr F]

def toCResult (v : VerifiedPresentation F) : FrontendResult CVerifyResult := do
  require (v.claims.length = maxClaimsV1) (.claimCount v.claims.length)
  let claims ← v.claims.mapM toCClaim
  pure {
    qx := scalarToBytes v.qx
    qy := scalarToBytes v.qy
    claims
    deviceX := v.deviceX
    deviceY := v.deviceY
    signedTs := v.signedTs
    validFromTs := v.validFromTs
    validUntilTs := v.validUntilTs }

/-- The body of `zk_cred_vega_verify`, inside its `catch_unwind`. -/
def verifyBody (snark : Snark F) (verifierKey : Option snark.VerifierKey) (proof : Option (List UInt8)) (proofLen : ℕ)
    (disclosed : Option (List CDisclosedInput)) (disclosedLen : ℕ) : FrontendResult CVerifyResult := do
  let vk ← ofOption .verifierKeyNull verifierKey
  let proofBytes ← bytesOrEmpty proofLen proof
  require (proofBytes ≠ []) .proofEmpty
  let proof ← ofOption .deserialize (snark.deserialize proofBytes)
  let disclosed ← ofOption .disclosedNull disclosed
  require (disclosedLen = maxClaimsV1) (.disclosedCount disclosedLen)
  let slots ← (disclosed.take disclosedLen).mapM slot
  let values ← ofOption .verify (snark.verify proof vk)
  let verified ← ofBinding (verifyAndCheckBinding values.1 values.2 slots)
  toCResult verified

/-- A null pointer is `none`; a panic of the body is caught. -/
def zkCredVegaVerify (snark : Snark F) (verifierKey : Option snark.VerifierKey) (proof : Option (List UInt8))
    (proofLen : ℕ) (disclosed : Option (List CDisclosedInput)) (disclosedLen : ℕ) (writesResult : Bool) : CCall :=
  match verifyBody snark verifierKey proof proofLen disclosed disclosedLen with
  | .ok r => ⟨0, if writesResult then some r else none, none⟩
  | .error (.binding (.circuit .panic)) => ⟨-2, none, some (.binding (.circuit .panic))⟩
  | .error e => ⟨-1, none, some e⟩

end GoFfi

/-! ## What the checker returns -/

section Checker

variable {F : Type} [Field F] [DecidableEq F] {core : CoreValues} {supplied : List (Option (List UInt8))}
  {v : List F} {i : ℕ} {c : DisclosedClaim}

theorem decodeStep_ok {step : StepValues} (h : decodeStep v = .ok step) :
    step.disclosed = decide (v.getD 256 0 = 1) ∧ step.realLen ≤ maxClaimBytesV1 ∧
      ∃ b, index (bitsToBytes ((v.drop 257).take realLenBits)) 0 = .ok b ∧ step.realLen = b.toNat := by
  unfold decodeStep at h
  obtain ⟨-, h⟩ := ensure_bind_eq_ok.mp h
  obtain ⟨-, h⟩ := ensure_bind_eq_ok.mp h
  obtain ⟨blindedDigest, -, h⟩ := bind_eq_ok_iff.mp h
  obtain ⟨realLen, hrealLen, h⟩ := bind_eq_ok_iff.mp h
  obtain ⟨hle, h⟩ := ensure_bind_eq_ok.mp h
  obtain ⟨digestId, -, h⟩ := bind_eq_ok_iff.mp h
  obtain rfl := Except.ok.inj h
  exact ⟨rfl, hle, realLen, hrealLen, rfl⟩

/-- The plaintext of a slot that passes has the slot's length, and is empty when the slot is undisclosed. -/
theorem bindSupplied_ok {nonce : Bytes blindNonceBytes} {step : StepValues} {o : Option (List UInt8)}
    {t : Bytes 32 × List UInt8} (h : bindSupplied nonce step o = .ok t) :
    (∀ b, o = some b → b.length = step.realLen) ∧ (step.disclosed = true → t.2.length = step.realLen) ∧
      (step.disclosed = false → t.2 = []) := by
  cases o with
  | none =>
    by_cases hd : step.disclosed
    · rw [bindSupplied, if_pos hd] at h
      cases h
    · rw [bindSupplied, if_neg hd] at h
      obtain rfl := Except.ok.inj h
      exact ⟨fun b hb => absurd hb.symm (Option.some_ne_none b), fun htrue => absurd htrue hd, fun _ => rfl⟩
  | some bytes =>
    by_cases hd : step.disclosed
    · rw [bindSupplied, if_pos hd] at h
      obtain ⟨-, h⟩ := ensure_bind_eq_ok.mp h
      obtain ⟨hlen, h⟩ := ensure_bind_eq_ok.mp h
      obtain rfl := Except.ok.inj h
      refine ⟨?_, fun _ => hlen, fun hfalse => ?_⟩
      · rintro b hb
        rw [← Option.some.inj hb]
        exact hlen
      · rw [hd] at hfalse
        cases hfalse
    · rw [bindSupplied, if_neg hd] at h
      cases h

/-- A slot's plaintext is as long as the slot says: for an undisclosed slot, if the slot says zero. -/
structure SlotOk (v : List F) (o : Option (List UInt8)) (c : DisclosedClaim) : Prop where
  realLen_le : c.realLen ≤ maxClaimBytesV1
  supplied_le : ∀ b, o = some b → b.length ≤ maxClaimBytesV1
  length_plaintext : (∀ step, decodeStep v = .ok step → step.disclosed = false → step.realLen = 0) →
    c.plaintext.length = c.realLen

theorem checkSlot_ok (h : checkSlot core supplied v i = .ok c) : ∃ o, supplied[i]? = some o ∧ SlotOk v o c := by
  unfold checkSlot at h
  obtain ⟨step, hstep, h⟩ := bind_eq_ok_iff.mp h
  obtain ⟨o, ho, h⟩ := bind_eq_ok_iff.mp h
  obtain ⟨t, ht, h⟩ := bind_eq_ok_iff.mp h
  obtain ⟨coreDigest, -, h⟩ := bind_eq_ok_iff.mp h
  obtain ⟨-, h⟩ := ensure_bind_eq_ok.mp h
  obtain ⟨coreId, -, h⟩ := bind_eq_ok_iff.mp h
  obtain ⟨-, h⟩ := ensure_bind_eq_ok.mp h
  obtain rfl := Except.ok.inj h
  obtain ⟨-, hle, -⟩ := decodeStep_ok hstep
  obtain ⟨hsupplied, hopen, hclosed⟩ := bindSupplied_ok ht
  have hindex : supplied[i]? = some o := by
    unfold index at ho
    split at ho
    · rename_i x hx
      obtain rfl := Except.ok.inj ho
      exact hx
    · cases ho
  refine ⟨o, hindex, hle, fun b hb => (hsupplied b hb).trans_le hle, fun hmask => ?_⟩
  cases hd : step.disclosed with
  | true => exact hopen hd
  | false =>
    have hzero : step.realLen = 0 := hmask step hstep hd
    show t.2.length = step.realLen
    rw [hclosed hd, hzero]
    rfl

theorem verifyAndCheckBinding_ok {step : List (List F)} {core : List F} {r : VerifiedPresentation F}
    (h : verifyAndCheckBinding step core supplied = .ok r) :
    supplied.length = maxClaimsV1 ∧ step.length = maxClaimsV1 ∧ ∃ coreValues, List.Forall₂
      (fun t c => checkSlot coreValues supplied t.1 t.2 = .ok c) step.zipIdx r.claims := by
  unfold verifyAndCheckBinding at h
  obtain ⟨hsupplied, h⟩ := ensure_bind_eq_ok.mp h
  obtain ⟨-, h⟩ := ensure_bind_eq_ok.mp h
  obtain ⟨-, h⟩ := ensure_bind_eq_ok.mp h
  obtain ⟨qx, -, h⟩ := bind_eq_ok_iff.mp h
  obtain ⟨qy, -, h⟩ := bind_eq_ok_iff.mp h
  obtain ⟨coreValues, -, h⟩ := bind_eq_ok_iff.mp h
  obtain ⟨hstep, h⟩ := ensure_bind_eq_ok.mp h
  obtain ⟨claims, hclaims, h⟩ := bind_eq_ok_iff.mp h
  obtain rfl := Except.ok.inj h
  exact ⟨hsupplied, hstep, coreValues, Circuit.mapM_eq_ok_iff.mp hclaims⟩

/-- An undisclosed slot publishes the length zero. -/
def MasksLength (v : List F) : Prop := ∀ step, decodeStep v = .ok step → step.disclosed = false → step.realLen = 0

omit [DecidableEq F] in
theorem StepAssignment.inputs_fields (a : StepAssignment) :
    (a.inputs : List F).getD 256 0 = bitValue a.disclose ∧
      ((a.inputs : List F).drop 257).take realLenBits = nativeBytesToBits [if a.disclose then a.lenByte else 0] := by
  have hdigest : ((bytesBits (Sha256.hash (Sha256.hash a.message ++ a.nonce))).map bitValue : List F).length = 256 := by
    rw [List.length_map, length_bytesBits, Sha256.length_hash]
  have hlen : ((bitsOf (if a.disclose then a.lenByte else 0)).map bitValue : List F).length = realLenBits := by
    rw [List.length_map, length_bitsOf]
    rfl
  constructor
  · rw [inputs, List.getD_eq_getElem?_getD, List.getElem?_append_right (by omega), hdigest]
    rfl
  · have hone : ([a.disclose].map bitValue : List F).length = 1 := rfl
    rw [inputs, show 257 = 256 + 1 from rfl, ← List.drop_drop, List.drop_left' hdigest, List.drop_left' hone,
      List.take_left' hlen, nativeBytesToBits, bytesBits_cons, bytesBits_nil, List.append_nil]

/-- Every satisfying step masks the length it publishes. -/
theorem masksLength_of_runs [LargeChar F] (gadget : CompressionGadget F) (hash : HashGadget F)
    {circuit : ClaimDigestStepCircuit} {w : StepWires F}
    (h : (circuit.synthesizeWires gadget.compress hash.sha256).Runs v w) : MasksLength v := by
  obtain ⟨a, -, -, rfl, -⟩ := runs_synthesizeWires gadget hash circuit h
  obtain ⟨hflag, hbits⟩ := a.inputs_fields (F := F)
  intro step hstep hclosed
  obtain ⟨hdisclosed, -, b, hb, hlen⟩ := decodeStep_ok hstep
  rw [hclosed, hflag] at hdisclosed
  have hoff : ¬a.disclose = true := fun hon => of_decide_eq_false hdisclosed.symm (bitValue_eq_one.mpr hon)
  rw [hbits, if_neg hoff, bitsToBytes_nativeBytesToBits] at hb
  rw [hlen, ← Except.ok.inj hb]
  rfl

end Checker

/-! ## Reports -/

structure SlotReport where
  disclosed : Bool
  realLen : ℕ
  plaintext : List UInt8
  digestId : UInt32
deriving DecidableEq

def DisclosedClaim.report (c : DisclosedClaim) : SlotReport := ⟨c.disclosed, c.realLen, c.plaintext, c.digestId⟩

def FfiDisclosedClaim.report (c : FfiDisclosedClaim) : SlotReport :=
  ⟨c.disclosed, c.realLen.toNat, c.plaintext, c.digestId⟩

/-- Only the first `real_len` bytes of the buffer are meaningful. -/
def CDisclosedClaim.report (c : CDisclosedClaim) : SlotReport :=
  ⟨c.disclosed != 0, c.realLen.toNat, c.plaintext.val.take c.realLen.toNat, c.digestId⟩

theorem toNat_realLen {n : ℕ} (h : n ≤ maxClaimBytesV1) : (UInt32.ofNat n).toNat = n := by
  have hmax : maxClaimBytesV1 = 176 := rfl
  rw [UInt32.toNat_ofNat']
  omega

theorem FfiDisclosedClaim.report_ofClaim {c : DisclosedClaim} (h : c.realLen ≤ maxClaimBytesV1) :
    (ofClaim c).report = c.report := by
  rw [report, ofClaim, DisclosedClaim.report, toNat_realLen h]

theorem GoFfi.toCClaim_report {c : DisclosedClaim} (hlen : c.plaintext.length = c.realLen)
    (h : c.realLen ≤ maxClaimBytesV1) : ∃ r, toCClaim c = .ok r ∧ r.report = c.report := by
  unfold toCClaim
  rw [dif_pos hlen, dif_pos h]
  refine ⟨_, rfl, ?_⟩
  have htake : (c.plaintext ++ List.replicate (maxClaimBytesV1 - c.plaintext.length) 0).take c.realLen = c.plaintext := by
    rw [← hlen, List.take_left]
  simp only [CDisclosedClaim.report, DisclosedClaim.report, toNat_realLen h, htake]
  cases c.disclosed <;> rfl

/-! ## Agreement -/

/-- The input of the C ABI for a slot: a flag, and beside it the bytes, as many of them as the buffer holds. -/
def CDisclosedInput.Presents (d : CDisclosedInput) : Option (List UInt8) → Prop
  | none => d.present = 0
  | some b => d.present ≠ 0 ∧ d.len = b.length ∧ d.bytes.val.take b.length = b.take maxClaimBytesV1

def uniffiInputs (slots : List (Option (List UInt8))) : List (List UInt8) := slots.map (·.getD [])

/-- The slots as UniFFI takes them: an empty byte string is none. -/
def nonEmpty (slots : List (Option (List UInt8))) : List (Option (List UInt8)) :=
  slots.map fun o => o.filter fun b => !b.isEmpty

theorem map_slot_uniffiInputs (slots : List (Option (List UInt8))) :
    (uniffiInputs slots).map FfiApi.slot = nonEmpty slots := by
  rw [uniffiInputs, nonEmpty, List.map_map]
  apply List.map_congr_left
  intro o _
  rcases o with - | - | ⟨b, bs⟩ <;> rfl

theorem nonEmpty_eq_self {slots : List (Option (List UInt8))} (h : some [] ∉ slots) : nonEmpty slots = slots := by
  conv_rhs => rw [← List.map_id slots]
  apply List.map_congr_left
  intro o ho
  rcases o with - | - | ⟨b, bs⟩
  · rfl
  · exact absurd ho h
  · rfl

/-- An input gives the slot it presents, unless the bytes do not fit the buffer. -/
theorem CDisclosedInput.Presents.slot_eq {d : CDisclosedInput} {o : Option (List UInt8)} (h : d.Presents o) :
    GoFfi.slot d = .ok o ∨ (∃ b, o = some b ∧ maxClaimBytesV1 < b.length) ∧ ∀ o', GoFfi.slot d ≠ .ok o' := by
  unfold GoFfi.slot
  cases o with
  | none =>
    have hnone : d.present = 0 := h
    exact .inl (if_pos hnone)
  | some b =>
    obtain ⟨hpresent, hlen, hbytes⟩ := h
    rw [if_neg hpresent, hlen, hbytes]
    by_cases hlong : b.length > maxClaimBytesV1
    · rw [if_pos hlong]
      exact .inr ⟨⟨b, rfl, hlong⟩, nofun⟩
    · rw [if_neg hlong, List.take_of_length_le (not_lt.mp hlong)]
      exact .inl rfl

theorem slots_of_inputs {inputs : List CDisclosedInput} {slots slots' : List (Option (List UInt8))}
    (h : List.Forall₂ CDisclosedInput.Presents inputs slots) (hok : inputs.mapM GoFfi.slot = .ok slots') :
    slots' = slots := by
  rw [Circuit.mapM_eq_ok_iff] at hok
  induction h generalizing slots' with
  | nil =>
    cases hok
    rfl
  | cons hd _ ih =>
    cases hok with
    | cons ho hrest =>
      rw [ih hrest]
      rcases hd.slot_eq with heq | ⟨-, hnone⟩
      · rw [Except.ok.inj (ho.symm.trans heq)]
      · exact absurd ho (hnone _)

theorem mapM_slot_eq {inputs : List CDisclosedInput} {slots : List (Option (List UInt8))}
    (h : List.Forall₂ CDisclosedInput.Presents inputs slots)
    (hfit : ∀ o ∈ slots, ∀ b, o = some b → b.length ≤ maxClaimBytesV1) : inputs.mapM GoFfi.slot = .ok slots := by
  rw [Circuit.mapM_eq_ok_iff]
  induction h with
  | nil => exact .nil
  | @cons d o _ _ hd _ ih =>
    refine .cons ?_ (ih fun o ho => hfit o (List.mem_cons_of_mem _ ho))
    rcases hd.slot_eq with heq | ⟨⟨b, hb, hlong⟩, -⟩
    · exact heq
    · exact absurd (hfit o List.mem_cons_self b hb) (not_le.mpr hlong)

section Agreement

variable {F : Type} [Field F] [DecidableEq F] {step : List (List F)} {core : List F} {r : VerifiedPresentation F}
  {slots : List (Option (List UInt8))}

theorem slots_fit (h : verifyAndCheckBinding step core slots = .ok r) :
    ∀ o ∈ slots, ∀ b, o = some b → b.length ≤ maxClaimBytesV1 := by
  obtain ⟨hslots, hstep, coreValues, hclaims⟩ := verifyAndCheckBinding_ok h
  intro o ho
  obtain ⟨i, hi, rfl⟩ := List.getElem_of_mem ho
  have hi' : i < step.zipIdx.length := by
    rw [List.length_zipIdx]
    omega
  have hcheck := hclaims.get hi' (by rwa [← hclaims.length_eq])
  obtain ⟨o, ho, hok⟩ := checkSlot_ok hcheck
  simp only [List.get_eq_getElem, List.getElem_zipIdx, Nat.zero_add, List.getElem?_eq_getElem hi] at ho
  rw [Option.some.inj ho]
  exact hok.supplied_le

theorem exists_slotOk (h : verifyAndCheckBinding step core slots = .ok r) {c : DisclosedClaim} (hc : c ∈ r.claims) :
    ∃ v ∈ step, ∃ o, SlotOk v o c := by
  obtain ⟨-, -, coreValues, hclaims⟩ := verifyAndCheckBinding_ok h
  obtain ⟨t, ht, hcheck⟩ := forall₂_left hclaims.flip hc
  obtain ⟨o, -, hok⟩ := checkSlot_ok hcheck
  exact ⟨t.1, List.fst_mem_of_mem_zipIdx ht, o, hok⟩

variable [ToRepr F] {snark : Snark F} {vk : snark.VerifierKey} {proofBytes : List UInt8} {proof : snark.Proof}

def reports (x : MdocResult (VerifiedPresentation F)) : Option (List SlotReport) :=
  x.toOption.map fun r => r.claims.map (·.report)

theorem uniffi_verify_eq_ok {res : FfiVerifyResult} (hproof : snark.deserialize proofBytes = some proof)
    (hverify : snark.verify proof vk = some (step, core)) :
    FfiApi.verify snark vk proofBytes (uniffiInputs slots) = .ok res ↔
      ∃ r, verifyAndCheckBinding step core (nonEmpty slots) = .ok r ∧ FfiApi.toResult r = res := by
  have hlen : (uniffiInputs slots).length = (nonEmpty slots).length := by
    rw [uniffiInputs, nonEmpty, List.length_map, List.length_map]
  unfold FfiApi.verify
  rw [map_slot_uniffiInputs]
  constructor
  · intro h
    obtain ⟨p, hp, h⟩ := bind_eq_ok_iff.mp h
    obtain rfl := Option.some.inj (hproof.symm.trans (ofOption_eq_ok.mp hp))
    obtain ⟨values, hvalues, h⟩ := bind_eq_ok_iff.mp h
    obtain rfl := Option.some.inj (hverify.symm.trans (ofOption_eq_ok.mp hvalues))
    obtain ⟨-, -, h⟩ := bind_eq_ok_iff.mp h
    obtain ⟨r, hr, h⟩ := bind_eq_ok_iff.mp h
    exact ⟨r, ofBinding_eq_ok.mp hr, Except.ok.inj h⟩
  · rintro ⟨r, hr, rfl⟩
    obtain ⟨hcount, -⟩ := verifyAndCheckBinding_ok hr
    refine bind_eq_ok_iff.mpr ⟨proof, ofOption_eq_ok.mpr hproof, ?_⟩
    refine bind_eq_ok_iff.mpr ⟨(step, core), ofOption_eq_ok.mpr hverify, ?_⟩
    refine bind_eq_ok_iff.mpr ⟨(), require_eq_ok.mpr (hlen.trans hcount), ?_⟩
    exact bind_eq_ok_iff.mpr ⟨r, ofBinding_eq_ok.mpr hr, rfl⟩

def uniffiReports (snark : Snark F) (vk : snark.VerifierKey) (proofBytes : List UInt8)
    (slots : List (Option (List UInt8))) : Option (List SlotReport) :=
  (FfiApi.verify snark vk proofBytes (uniffiInputs slots)).toOption.map fun r => r.claims.map (·.report)

/-- UniFFI reports what the checker does for the slots that are not empty. -/
theorem uniffiReports_eq (hproof : snark.deserialize proofBytes = some proof)
    (hverify : snark.verify proof vk = some (step, core)) (slots : List (Option (List UInt8))) :
    uniffiReports snark vk proofBytes slots = reports (verifyAndCheckBinding step core (nonEmpty slots)) := by
  refine toOption_map_eq (fun res hres => ?_) fun r hr => ?_
  · obtain ⟨r, hr, rfl⟩ := (uniffi_verify_eq_ok hproof hverify).mp hres
    refine ⟨r, hr, ?_⟩
    show (r.claims.map FfiDisclosedClaim.ofClaim).map _ = _
    rw [List.map_map]
    apply List.map_congr_left
    intro c hc
    obtain ⟨v, _, o, hok⟩ := exists_slotOk hr hc
    exact FfiDisclosedClaim.report_ofClaim hok.realLen_le
  · exact ⟨_, (uniffi_verify_eq_ok hproof hverify).mpr ⟨r, hr, rfl⟩⟩

theorem go_toCResult_ok (h : verifyAndCheckBinding step core slots = .ok r) (hmask : ∀ v ∈ step, MasksLength v) :
    ∃ res, GoFfi.toCResult r = .ok res ∧ res.claims.map (·.report) = r.claims.map (·.report) := by
  have hcount : r.claims.length = maxClaimsV1 := by
    obtain ⟨-, hstep, coreValues, hclaims⟩ := verifyAndCheckBinding_ok h
    rw [← hclaims.length_eq, List.length_zipIdx, hstep]
  have hclaim : ∀ c ∈ r.claims, ∃ x, GoFfi.toCClaim c = .ok x ∧ x.report = c.report := by
    intro c hc
    obtain ⟨v, hv, o, hok⟩ := exists_slotOk h hc
    exact GoFfi.toCClaim_report (hok.length_plaintext (hmask v hv)) hok.realLen_le
  obtain ⟨xs, hxs⟩ := Circuit.exists_forall₂ hclaim
  refine ⟨_, bind_eq_ok_iff.mpr ⟨(), require_eq_ok.mpr hcount, bind_eq_ok_iff.mpr ⟨xs, ?_, rfl⟩⟩, ?_⟩
  · exact Circuit.mapM_eq_ok_iff.mpr (hxs.imp fun _ _ hx => hx.1)
  · exact Circuit.map_eq_of_forall₂ (hxs.imp fun _ _ hx => hx.2)

variable {inputs : List CDisclosedInput}

theorem go_verifyBody_eq_ok {res : CVerifyResult} (hproof : snark.deserialize proofBytes = some proof)
    (hverify : snark.verify proof vk = some (step, core)) (hinputs : List.Forall₂ CDisclosedInput.Presents inputs slots) :
    GoFfi.verifyBody snark (some vk) (some proofBytes) proofBytes.length (some inputs) inputs.length = .ok res ↔
      ∃ r, verifyAndCheckBinding step core slots = .ok r ∧ GoFfi.toCResult r = .ok res := by
  have hnonempty : proofBytes ≠ [] := by
    rintro rfl
    rw [snark.deserialize_nil] at hproof
    cases hproof
  have hread : GoFfi.bytesOrEmpty proofBytes.length (some proofBytes) = .ok proofBytes := by
    rw [GoFfi.bytesOrEmpty, List.take_length]
  unfold GoFfi.verifyBody
  rw [hread]
  constructor
  · intro h
    obtain ⟨vk', hvk, h⟩ := bind_eq_ok_iff.mp h
    obtain rfl := Option.some.inj (ofOption_eq_ok.mp hvk)
    obtain ⟨bytes, hbytes, h⟩ := bind_eq_ok_iff.mp h
    obtain rfl := Except.ok.inj hbytes
    obtain ⟨-, -, h⟩ := bind_eq_ok_iff.mp h
    obtain ⟨p, hp, h⟩ := bind_eq_ok_iff.mp h
    obtain rfl := Option.some.inj (hproof.symm.trans (ofOption_eq_ok.mp hp))
    obtain ⟨ds, hds, h⟩ := bind_eq_ok_iff.mp h
    obtain rfl := Option.some.inj (ofOption_eq_ok.mp hds)
    obtain ⟨-, -, h⟩ := bind_eq_ok_iff.mp h
    obtain ⟨slots', hslots, h⟩ := bind_eq_ok_iff.mp h
    rw [List.take_length] at hslots
    obtain rfl := slots_of_inputs hinputs hslots
    obtain ⟨values, hvalues, h⟩ := bind_eq_ok_iff.mp h
    obtain rfl := Option.some.inj (hverify.symm.trans (ofOption_eq_ok.mp hvalues))
    obtain ⟨r, hr, h⟩ := bind_eq_ok_iff.mp h
    exact ⟨r, ofBinding_eq_ok.mp hr, h⟩
  · rintro ⟨r, hr, h⟩
    obtain ⟨hcount, -⟩ := verifyAndCheckBinding_ok hr
    refine bind_eq_ok_iff.mpr ⟨vk, rfl, bind_eq_ok_iff.mpr ⟨proofBytes, rfl, ?_⟩⟩
    refine bind_eq_ok_iff.mpr ⟨(), require_eq_ok.mpr hnonempty, ?_⟩
    refine bind_eq_ok_iff.mpr ⟨proof, ofOption_eq_ok.mpr hproof, bind_eq_ok_iff.mpr ⟨inputs, rfl, ?_⟩⟩
    refine bind_eq_ok_iff.mpr ⟨(), require_eq_ok.mpr (hinputs.length_eq.trans hcount), ?_⟩
    refine bind_eq_ok_iff.mpr ⟨slots, ?_, ?_⟩
    · rw [List.take_length]
      exact mapM_slot_eq hinputs (slots_fit hr)
    · refine bind_eq_ok_iff.mpr ⟨(step, core), ofOption_eq_ok.mpr hverify, ?_⟩
      exact bind_eq_ok_iff.mpr ⟨r, ofBinding_eq_ok.mpr hr, h⟩

/-- A call of the C ABI without a null pointer. -/
def goCall (snark : Snark F) (vk : snark.VerifierKey) (proofBytes : List UInt8) (inputs : List CDisclosedInput) : CCall :=
  GoFfi.zkCredVegaVerify snark (some vk) (some proofBytes) proofBytes.length (some inputs) inputs.length true

/-- What a caller of the C ABI learns, if a result is written. -/
def CCall.reports (call : CCall) : Option (List SlotReport) := call.resultOut.map fun r => r.claims.map (·.report)

/-- A call writes its result exactly when its status is zero. -/
theorem goCall_eq (snark : Snark F) (vk : snark.VerifierKey) (proofBytes : List UInt8) (inputs : List CDisclosedInput) :
    (goCall snark vk proofBytes inputs).resultOut = (GoFfi.verifyBody snark (some vk) (some proofBytes)
        proofBytes.length (some inputs) inputs.length).toOption ∧
      ((goCall snark vk proofBytes inputs).status = 0 ↔ (goCall snark vk proofBytes inputs).reports.isSome = true) := by
  unfold goCall GoFfi.zkCredVegaVerify
  split
  · rename_i res hres
    rw [hres]
    exact ⟨rfl, ⟨fun _ => rfl, fun _ => rfl⟩⟩
  · rename_i hres
    rw [hres]
    exact ⟨rfl, ⟨fun h => absurd h (show ¬(-2 : ℤ) = 0 by decide), nofun⟩⟩
  · rename_i hres
    rw [hres]
    exact ⟨rfl, ⟨fun h => absurd h (show ¬(-1 : ℤ) = 0 by decide), nofun⟩⟩

/-- The C ABI reports what the checker does for the slots as they are. -/
theorem goCall_reports (hproof : snark.deserialize proofBytes = some proof)
    (hverify : snark.verify proof vk = some (step, core)) (hmask : ∀ v ∈ step, MasksLength v)
    (hinputs : List.Forall₂ CDisclosedInput.Presents inputs slots) :
    (goCall snark vk proofBytes inputs).reports = reports (verifyAndCheckBinding step core slots) := by
  rw [CCall.reports, (goCall_eq snark vk proofBytes inputs).1]
  refine toOption_map_eq (fun res hres => ?_) fun r hr => ?_
  · obtain ⟨r, hr, hres⟩ := (go_verifyBody_eq_ok hproof hverify hinputs).mp hres
    obtain ⟨res', hres', hreports⟩ := go_toCResult_ok hr hmask
    obtain rfl := Except.ok.inj (hres.symm.trans hres')
    exact ⟨r, hr, hreports⟩
  · obtain ⟨res, hres, -⟩ := go_toCResult_ok hr hmask
    exact ⟨res, (go_verifyBody_eq_ok hproof hverify hinputs).mpr ⟨r, hr, hres⟩⟩

end Agreement

/-- Both front ends report what the checker does. UniFFI reads an empty byte string as an undisclosed slot and the C
ABI as an empty claim; so they accept the same presentations, and report the same of each slot, whenever no slot is
given the empty byte string. -/
theorem frontends_report {F : Type} [Field F] [DecidableEq F] [LargeChar F] [ToRepr F] (gadget : CompressionGadget F)
    (hash : HashGadget F) (snark : Snark F) (vk : snark.VerifierKey) (proofBytes : List UInt8) (proof : snark.Proof)
    (step : List (List F)) (core : List F) (hproof : snark.deserialize proofBytes = some proof)
    (hverify : snark.verify proof vk = some (step, core))
    (hsound : ∀ v ∈ step, ∃ (circuit : ClaimDigestStepCircuit) (w : StepWires F),
      (circuit.synthesizeWires gadget.compress hash.sha256).Runs v w)
    (slots : List (Option (List UInt8))) (inputs : List CDisclosedInput)
    (hinputs : List.Forall₂ CDisclosedInput.Presents inputs slots) :
    uniffiReports snark vk proofBytes slots = reports (verifyAndCheckBinding step core (nonEmpty slots)) ∧
      (goCall snark vk proofBytes inputs).reports = reports (verifyAndCheckBinding step core slots) ∧
      ((goCall snark vk proofBytes inputs).status = 0 ↔ (goCall snark vk proofBytes inputs).reports.isSome = true) ∧
      (some [] ∉ slots → uniffiReports snark vk proofBytes slots = (goCall snark vk proofBytes inputs).reports ∧
        uniffiReports snark vk proofBytes slots = reports (verifyAndCheckBinding step core slots)) := by
  have hmask : ∀ v ∈ step, MasksLength v := by
    intro v hv
    obtain ⟨circuit, w, hrun⟩ := hsound v hv
    exact masksLength_of_runs gadget hash hrun
  have huniffi := uniffiReports_eq hproof hverify slots
  have hgo := goCall_reports hproof hverify hmask hinputs
  refine ⟨huniffi, hgo, (goCall_eq snark vk proofBytes inputs).2, fun hnone => ?_⟩
  rw [nonEmpty_eq_self hnone] at huniffi
  exact ⟨huniffi.trans hgo.symm, huniffi⟩

/-! ## An empty claim -/

/-- The values of a step circuit can be published by a satisfying assignment, when its bytes hold its digestID. -/
theorem exists_runs_publicValues {F : Type} [Field F] (gadget : CompressionGadget F) (hash : HashGadget F)
    (c : ClaimDigestStepCircuit) {enc rest : List UInt8} (hencode : encodeCborUint c.digestId.toNat = .ok enc)
    (hwindow : windowOf c.bytes digestIdOffsetBytes = enc ++ rest) :
    ∃ w, (c.synthesizeWires gadget.compress hash.sha256).Runs c.publicValues w := by
  obtain ⟨hencodes, htop⟩ := encodes_of_encode hencode rest
  have hid := encodeCborUint_le hencode
  rw [← hwindow] at hencodes htop
  obtain ⟨w, -, hrun⟩ := exists_runs_synthesizeWires gadget hash c
    ⟨c.bytes, c.realLen, c.nonce.val, c.disclose, UInt8.ofNat c.realLen, valueBytes c.digestId.toNat⟩ c.length_bytes
    c.realLen_le c.nonce.property rfl hid hencodes htop
  refine ⟨w, ?_⟩
  have hvalues : (c.publicValues : List F) = StepAssignment.inputs
      ⟨c.bytes, c.realLen, c.nonce.val, c.disclose, UInt8.ofNat c.realLen, valueBytes c.digestId.toNat⟩ := by
    have hid32 : u32Bits c.digestId = bytesBits (valueBytes c.digestId.toNat) := (bytesBits_valueBytes hid).symm
    rw [ClaimDigestStepCircuit.publicValues, StepAssignment.inputs, nativeU32ToBits, hid32, List.append_nil,
      List.append_assoc, List.append_assoc]
    rfl
  rw [hvalues]
  exact hrun

/-- A verifier of one proof, which has the public values of the claims' circuits. -/
abbrev claimsSnark (claims : List ClaimWitness) (ecdsa : MdocEcdsaWitness Scalar) (msoBody : MsoBodyWitness)
    (nonce : Bytes blindNonceBytes) : Snark Scalar where
  VerifierKey := Unit
  Proof := Unit
  deserialize bytes := if bytes = [] then none else some ()
  verify _ _ := (circuitsFor claims ecdsa msoBody nonce).toOption.map fun t =>
    (t.1.map fun s => s.publicValues, t.2.publicValues)
  deserialize_nil := rfl

/-- The verified values of claims whose bytes hold their digestIDs are published by satisfying step circuits. -/
theorem exists_verifiedSteps {claims : List ClaimWitness} (hcount : claims.length ≤ maxClaimsV1)
    (hbytes : ∀ c ∈ claims, c.issuerSignedItemBytes.length ≤ maxClaimBytesV1)
    (hwindows : ∀ c ∈ slots claims, ∃ enc rest, encodeCborUint c.digestId.toNat = .ok enc ∧
      windowOf (c.issuerSignedItemBytes ++ List.replicate (maxClaimBytesV1 - c.issuerSignedItemBytes.length) 0)
        digestIdOffsetBytes = enc ++ rest)
    (ecdsa : MdocEcdsaWitness Scalar) (msoBody : MsoBodyWitness) (nonce : Bytes blindNonceBytes) :
    ∃ steps : List ClaimDigestStepCircuit, List.Forall₂ (StepFor nonce) (slots claims) steps ∧
      (claimsSnark claims ecdsa msoBody nonce).verify () () =
        some (steps.map fun s => s.publicValues, (coreFor claims ecdsa msoBody nonce).publicValues) ∧
      ∀ v ∈ steps.map fun s => (s.publicValues : List Scalar), ∃ (circuit : ClaimDigestStepCircuit)
        (w : StepWires Scalar), (circuit.synthesizeWires readingGadget.compress readingHash.sha256).Runs v w := by
  obtain ⟨steps, hfor, hcircuits⟩ := circuitsFor_eq hcount hbytes ecdsa msoBody nonce
  refine ⟨steps, hfor, ?_, fun v hv => ?_⟩
  · show (circuitsFor claims ecdsa msoBody nonce).toOption.map _ = _
    rw [hcircuits]
    rfl
  · obtain ⟨s, hs, rfl⟩ := List.mem_map.mp hv
    obtain ⟨c, hc, hstep⟩ := Mso.forall₂_right hfor hs
    obtain ⟨enc, rest, hencode, hwindow⟩ := hwindows c hc
    rw [← hstep.digestId] at hencode
    rw [← hstep.padded] at hwindow
    obtain ⟨w, hrun⟩ := exists_runs_publicValues (readingGadget (F := Scalar)) readingHash s hencode hwindow
    exact ⟨s, w, hrun⟩

/-- The bytes of every slot hold its digestID. -/
theorem presentedClaims_window (disclose : Bool) {c : ClaimWitness} (hc : c ∈ slots (presentedClaims disclose)) :
    ∃ enc rest, encodeCborUint c.digestId.toNat = .ok enc ∧ windowOf (c.issuerSignedItemBytes ++
      List.replicate (maxClaimBytesV1 - c.issuerSignedItemBytes.length) 0) digestIdOffsetBytes = enc ++ rest := by
  have hslots : slots (presentedClaims disclose) = [⟨[], disclose, 0⟩, ⟨familyName, true, 300⟩, ⟨givenName, false, 70000⟩,
    ⟨[], false, 0⟩] := rfl
  simp only [hslots, List.mem_cons, List.not_mem_nil, or_false] at hc
  rcases hc with rfl | rfl | rfl | rfl
  · exact ⟨[0], [0, 0, 0, 0], rfl, rfl⟩
  · exact ⟨[0x19, 0x01, 0x2c], [0x71, 0x65], rfl, by decide⟩
  · exact ⟨[0x1a, 0x00, 0x01, 0x11, 0x70], [], rfl, by decide⟩
  · exact ⟨[0], [0, 0, 0, 0], rfl, by decide⟩

def cInput : Option (List UInt8) → CDisclosedInput
  | none => ⟨0, 0, zeroBytes maxClaimBytesV1⟩
  | some b => ⟨1, b.length, (b ++ List.replicate maxClaimBytesV1 0).take maxClaimBytesV1, by
      rw [List.length_take, List.length_append, List.length_replicate]
      omega⟩

theorem presents_cInput (o : Option (List UInt8)) : (cInput o).Presents o := by
  cases o with
  | none => rfl
  | some b =>
    refine ⟨(by decide : (1 : UInt8) ≠ 0), rfl, ?_⟩
    show ((b ++ List.replicate maxClaimBytesV1 0).take maxClaimBytesV1).take b.length = b.take maxClaimBytesV1
    rw [List.take_take, Nat.min_comm, ← List.take_take, List.take_left]

abbrev presentedSlots (disclose : Bool) : List (Option (List UInt8)) :=
  (slots (presentedClaims disclose)).map ClaimWitness.supplied

abbrev presentedSnark (disclose : Bool) : Snark Scalar :=
  claimsSnark (presentedClaims disclose) presentedEcdsa presentedBody presentedNonce

theorem presents_presentedSlots (disclose : Bool) :
    List.Forall₂ CDisclosedInput.Presents ((presentedSlots disclose).map cInput) (presentedSlots disclose) := by
  rw [List.forall₂_map_left_iff, List.forall₂_same]
  exact fun o _ => presents_cInput o

/-- A disclosed name beside slots that are not disclosed. -/
theorem frontends_report_presented :
    (goCall (presentedSnark false) () [0] ((presentedSlots false).map cInput)).status = 0 ∧
    uniffiReports (presentedSnark false) () [0] (presentedSlots false) =
      (goCall (presentedSnark false) () [0] ((presentedSlots false).map cInput)).reports := by
  obtain ⟨steps, hfor, hverify, hsound⟩ := exists_verifiedSteps (presentedClaims_length_le false)
    (presentedClaims_bytes_le false) (fun c => presentedClaims_window false) presentedEcdsa presentedBody presentedNonce
  obtain ⟨-, hgo, hstatus, hagree⟩ := frontends_report readingGadget readingHash (presentedSnark false) () [0] () _ _ rfl
    hverify hsound (presentedSlots false) _ (presents_presentedSlots false)
  refine ⟨hstatus.mpr ?_, (hagree (by decide)).1⟩
  rw [hgo, verifyAndCheckBinding_own (presentedClaims_length_le false) hfor]
  rfl

/-- A disclosed slot is rejected without its bytes, also when there are none. -/
theorem check_nonEmpty_presentedSlots {steps : List ClaimDigestStepCircuit}
    (hfor : List.Forall₂ (StepFor presentedNonce) (slots (presentedClaims true)) steps) :
    verifyAndCheckBinding (steps.map fun s => (s.publicValues : List Scalar))
      (coreFor (presentedClaims true) presentedEcdsa presentedBody presentedNonce).publicValues
        (nonEmpty (presentedSlots true)) = .error (.circuit .unsatisfiable) := by
  have hcount := presentedClaims_length_le true
  obtain ⟨hids, hdigests⟩ := length_coreFor presentedEcdsa presentedBody presentedNonce hcount
  refine verifyAndCheckBinding_rejects hids hdigests (by rw [← hfor.length_eq, length_slots hcount]) fun _ => ?_
  obtain ⟨c, s, hc, hs, hstep, hdigest, hid⟩ := exists_slot presentedEcdsa presentedBody hcount hfor
    (show 0 < maxClaimsV1 by decide)
  have hdisclosed : s.stepValues.disclosed = true := by
    show s.disclose = true
    rw [hstep.disclose, ← Option.some.inj (show some _ = some c from hc)]
  refine ⟨0, s, hs, ?_⟩
  rw [checkSlot_publicValues (show (nonEmpty (presentedSlots true))[0]? = some none from rfl) hdigest hid,
    bindSupplied, if_pos hdisclosed]
  rfl

/-- The C ABI accepts a disclosed claim without bytes, which a satisfying step can publish; UniFFI has no way to say
that it is there. -/
theorem frontends_differ_emptyClaim :
    (∀ steps core, (presentedSnark true).verify () () = some (steps, core) → ∀ v ∈ steps,
      ∃ (circuit : ClaimDigestStepCircuit) (w : StepWires Scalar),
        (circuit.synthesizeWires readingGadget.compress readingHash.sha256).Runs v w) ∧
    List.Forall₂ CDisclosedInput.Presents ((presentedSlots true).map cInput) (presentedSlots true) ∧
    uniffiReports (presentedSnark true) () [0] (presentedSlots true) = none ∧
    (goCall (presentedSnark true) () [0] ((presentedSlots true).map cInput)).status = 0 ∧
    uniffiReports (presentedSnark true) () [0] (presentedSlots true) ≠
      (goCall (presentedSnark true) () [0] ((presentedSlots true).map cInput)).reports := by
  obtain ⟨steps, hfor, hverify, hsound⟩ := exists_verifiedSteps (presentedClaims_length_le true)
    (presentedClaims_bytes_le true) (fun c => presentedClaims_window true) presentedEcdsa presentedBody presentedNonce
  have hmask : ∀ v ∈ steps.map fun s => (s.publicValues : List Scalar), MasksLength v := by
    intro v hv
    obtain ⟨circuit, w, hrun⟩ := hsound v hv
    exact masksLength_of_runs readingGadget readingHash hrun
  have hproof : (presentedSnark true).deserialize [0] = some () := rfl
  have huniffi := uniffiReports_eq hproof hverify (presentedSlots true)
  rw [check_nonEmpty_presentedSlots hfor] at huniffi
  have hgo := goCall_reports hproof hverify hmask (presents_presentedSlots true)
  rw [verifyAndCheckBinding_own (presentedClaims_length_le true) hfor] at hgo
  refine ⟨fun steps' core' hverify' => ?_, presents_presentedSlots true, huniffi, ?_, fun heq => ?_⟩
  · obtain ⟨rfl, -⟩ := Prod.mk.inj (Option.some.inj (hverify.symm.trans hverify'))
    exact hsound
  · exact (goCall_eq (presentedSnark true) () [0] ((presentedSlots true).map cInput)).2.mpr (by rw [hgo]; rfl)
  · rw [hgo, huniffi] at heq
    cases heq

end ZkCredVega
