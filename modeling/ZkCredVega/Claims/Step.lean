import ZkCredVega.Claims.Basic
import ZkCredVega.Claims.DigestId

/-!
# The step circuit of a claim

`ClaimDigestStepCircuit::precommitted`: the claim's bytes are hashed at a length that a
one-hot of the hash selects, the digest is blinded and published, and so are the disclose
flag, the masked length bits and the digestID read from the bytes. The length bits are
allocated on their own, and the hash's mask of real bytes is dropped.
-/

namespace ZkCredVega

open Circuits

/-- `bellpepper`'s SHA-256 of whole bytes: for every prover its result is worth the hash of what its
input is worth, and it can be run. -/
structure HashGadget (F : Type) [Field F] where
  sha256 : List (Boolean F) → Circuit F F (List (Boolean F))
  correct : ∀ (who : Circuit.Prover) {bits : List (Boolean F)} {m : List UInt8},
    Boolean.HoldsAll who bits (bytesBits m) →
    (sha256 bits).Yields who (Boolean.HoldsAll who · (bytesBits (Sha256.hash m)))

section Circuit

variable {F V : Type} [Field F] [One V]

/-- Publishes each bit: a number equal to it, and the input equal to the number. -/
def inputizeBits (bits : List (Boolean V)) : Circuit F V Unit :=
  forM bits fun bit => do
    let num ← AllocatedNum.alloc (assigned (bit.value.map bitValue))
    .require (bit.lc 1) (.const 1) num.lc
    num.inputize

/-- What a satisfying assignment gives the step circuit's private wires. -/
structure StepWires (V : Type) where
  inputBits : List (Boolean V)
  msgActiveBits : List (Boolean V)
  nonceBits : List (Boolean V)
  discloseBit : Boolean V
  realLenBits : List (Boolean V)

namespace ClaimDigestStepCircuit

def synthesizeWires (compress : Compression F V)
    (sha256 : List (Boolean V) → Circuit F V (List (Boolean V))) (c : ClaimDigestStepCircuit) :
    Circuit F V (StepWires V) := do
  let inputBits ← (bytesBits c.bytes).mapM fun b => Boolean.alloc (some b)
  let hashed ← sha256Var compress inputBits c.realLen
  let nonceBits ← (bytesBits c.nonce.val).mapM fun b => Boolean.alloc (some b)
  let blindedDigestBits ← sha256 (hashed.1 ++ nonceBits)
  inputizeBits blindedDigestBits
  let discloseBit ← Boolean.alloc (some c.disclose)
  inputizeBits [discloseBit]
  let realLenBits ← (List.range realLenBits).reverse.mapM fun i =>
    Boolean.alloc (some (c.realLen.testBit i))
  let maskedRealLenBits ← realLenBits.mapM fun b => Boolean.and b discloseBit
  inputizeBits maskedRealLenBits
  let extracted ← extractDigestId inputBits digestIdOffsetBytes c.digestId.toNat
  inputizeBits extracted.valueBits
  pure ⟨inputBits, hashed.2, nonceBits, discloseBit, realLenBits⟩

/-- The mask that the hash returns is not used. -/
def precommitted (compress : Compression F V)
    (sha256 : List (Boolean V) → Circuit F V (List (Boolean V))) (c : ClaimDigestStepCircuit) :
    Circuit F V (List (AllocatedNum F V)) := do
  let _ ← synthesizeWires compress sha256 c
  pure []

end ClaimDigestStepCircuit

end Circuit

section Runs

variable {F : Type} [Field F]

theorem runs_inputizeBit {bit : Boolean F} {ins : List F} {u : Unit} :
    (do
      let num ← AllocatedNum.alloc (assigned (bit.value.map bitValue))
      .require (bit.lc 1) (.const 1) num.lc
      num.inputize : Circuit F F Unit).Runs ins u ↔ ins = [bit.eval] := by
  have hnum : ∀ v : F, (bit.lc (1 : F)).eval * (LC.const 1 : LC F F).eval = (LC.var v : LC F F).eval ↔
      v = bit.eval := by
    intro v
    rw [Boolean.eval_lc, one_mul, LC.eval_const, mul_one, LC.eval_var]
    exact eq_comm
  have hinput : ∀ w v : F, (LC.var w : LC F F).eval * (LC.const 1 : LC F F).eval = (LC.var v : LC F F).eval ↔
      w = v := by
    intro w v
    rw [LC.eval_var, LC.eval_const, mul_one, LC.eval_var]
  constructor
  · intro h
    obtain ⟨num, -, -, h⟩ := h.bind_elim AllocatedNum.ensures_alloc
    obtain ⟨_, -, hreq, h⟩ := h.bind_elim Circuit.ensures_require
    obtain ⟨i, j, w, rfl, hi, hj⟩ := Circuit.runs_bind.mp h
    obtain ⟨rfl, hw⟩ := Circuit.runs_require.mp hj
    rw [Circuit.runs_input.mp hi, (hinput w num.var).mp hw, (hnum num.var).mp hreq, List.append_nil]
  · rintro rfl
    refine Circuit.Runs.bind_intro (a := ⟨bit.eval, _⟩) ⟨bit.eval, rfl, rfl⟩ ?_
    refine Circuit.Runs.bind_intro (a := ()) (Circuit.runs_require.mpr ⟨rfl, (hnum _).mpr rfl⟩) ?_
    refine Circuit.runs_bind.mpr ⟨[bit.eval], [], bit.eval, rfl, Circuit.runs_input.mpr rfl, ?_⟩
    exact Circuit.runs_require.mpr ⟨rfl, (hinput _ _).mpr rfl⟩

theorem runs_inputizeBits {bits : List (Boolean F)} {ins : List F} {u : Unit} :
    (inputizeBits bits : Circuit F F Unit).Runs ins u ↔ ins = bits.map Boolean.eval := by
  unfold inputizeBits
  induction bits generalizing ins with
  | nil => simp
  | cons b bs ih =>
    rw [List.forM_cons, Circuit.runs_bind]
    constructor
    · rintro ⟨i, j, _, rfl, hi, hj⟩
      rw [runs_inputizeBit.mp hi, ih.mp hj]
      rfl
    · rintro rfl
      exact ⟨[b.eval], bs.map Boolean.eval, (), rfl, runs_inputizeBit.mpr rfl, ih.mpr rfl⟩

theorem map_eval_of_reads {bits : List (Boolean F)} {xs : List Bool} (h : Boolean.ReadsAll bits xs) :
    bits.map Boolean.eval = xs.map bitValue := by
  rw [Boolean.readsAll_iff.mp h]
  rfl

theorem Runs.inputizeBits_elim {α : Type} {bits : List (Boolean F)} {f : Unit → Circuit F F α} {ins : List F}
    {xs : List Bool} {r : α} (h : (inputizeBits bits >>= f).Runs ins r) (hreads : Boolean.ReadsAll bits xs) :
    ∃ rest, ins = xs.map bitValue ++ rest ∧ (f ()).Runs rest r := by
  obtain ⟨i, j, _, rfl, hi, hj⟩ := Circuit.runs_bind.mp h
  rw [runs_inputizeBits.mp hi, map_eval_of_reads hreads]
  exact ⟨j, rfl, hj⟩

theorem Runs.inputizeBits_intro {α : Type} {bits : List (Boolean F)} {f : Unit → Circuit F F α} {rest : List F}
    {xs : List Bool} {r : α} (hreads : Boolean.ReadsAll bits xs) (h : (f ()).Runs rest r) :
    (inputizeBits bits >>= f).Runs (xs.map bitValue ++ rest) r :=
  Circuit.runs_bind.mpr ⟨_, rest, (), rfl, runs_inputizeBits.mpr (map_eval_of_reads hreads).symm, h⟩

end Runs

/-! ## What an assignment publishes -/

/-- What the wires of an assignment are worth: the buffer, the length that the hash selects, the nonce,
the disclose flag, the length bits and the value bytes of the digestID. -/
structure StepAssignment where
  raw : List UInt8
  hashedLen : ℕ
  nonce : List UInt8
  disclose : Bool
  lenByte : UInt8
  value : List UInt8

namespace StepAssignment

def message (v : StepAssignment) : List UInt8 := v.raw.take v.hashedLen

variable {F : Type} [Field F]

def inputs (v : StepAssignment) : List F :=
  (bytesBits (Sha256.hash (Sha256.hash v.message ++ v.nonce))).map bitValue ++ ([v.disclose].map bitValue ++
    ((bitsOf (if v.disclose then v.lenByte else 0)).map bitValue ++ ((bytesBits v.value).map bitValue ++ [])))

/-- The length bits of a disclosed claim are the hashed length, and the digestID's encoding ends within
what is hashed. -/
def Tied (v : StepAssignment) : Prop :=
  (v.disclose = true → v.lenByte.toNat = v.hashedLen) ∧
    ∃ id width, decodeCborUint (v.raw.drop digestIdOffsetBytes) = some (id, width) ∧
      digestIdOffsetBytes + width ≤ v.hashedLen

end StepAssignment

structure StepWires.Reads {F : Type} [Field F] (w : StepWires F) (v : StepAssignment) : Prop where
  inputBits : Boolean.ReadsAll w.inputBits (bytesBits v.raw)
  msgActiveBits : Boolean.ReadsAll w.msgActiveBits
    ((List.range maxClaimBytesV1).map fun i => decide (i < v.hashedLen))
  nonceBits : Boolean.ReadsAll w.nonceBits (bytesBits v.nonce)
  discloseBit : w.discloseBit.Reads v.disclose
  realLenBits : Boolean.ReadsAll w.realLenBits (bitsOf v.lenByte)
  length_raw : v.raw.length = maxClaimBytesV1
  hashedLen_le : v.hashedLen ≤ maxClaimBytesV1
  length_value : v.value.length = 4

/-- The published values are those of the message `m`: its blinded digest, its length when it is
disclosed, and the digestID encoded within it. -/
def PublishesMessage {F : Type} [Field F] (ins : List F) (nonce m : List UInt8) : Prop :=
  m.length ≤ maxClaimBytesV1 ∧ ∃ (disclose : Bool) (value : List UInt8) (width : ℕ), value.length = 4 ∧
    ins = (bytesBits (Sha256.hash (Sha256.hash m ++ nonce))).map bitValue ++ ([disclose].map bitValue ++
      ((bitsOf (if disclose then UInt8.ofNat m.length else 0)).map bitValue ++
        ((bytesBits value).map bitValue ++ []))) ∧
    decodeCborUint (m.drop digestIdOffsetBytes) = some (bytesNat value, width)

section Soundness

variable {F : Type} [Field F]

theorem decodeArgument_take {rest : List UInt8} {n k : ℕ} {t : ℕ × ℕ} :
    decodeArgument (rest.take k) n = some t ↔ decodeArgument rest n = some t ∧ t.2 ≤ k + 1 := by
  unfold decodeArgument
  by_cases hn : n ≤ rest.length
  · rw [if_pos hn]
    by_cases hk : n ≤ k
    · rw [if_pos (by rw [List.length_take]; omega), List.take_take, min_eq_left hk]
      constructor
      · rintro h
        cases h
        exact ⟨rfl, by omega⟩
      · exact fun h => h.1
    · rw [if_neg (by rw [List.length_take]; omega)]
      constructor
      · intro h
        cases h
      · rintro ⟨h, hle⟩
        cases h
        simp only at hle
        omega
  · rw [if_neg hn, if_neg (by rw [List.length_take]; omega)]
    simp

theorem decodeArgument_pos {rest : List UInt8} {n : ℕ} {t : ℕ × ℕ} (h : decodeArgument rest n = some t) :
    0 < t.2 := by
  unfold decodeArgument at h
  split at h
  · cases h
    exact Nat.succ_pos n
  · cases h

theorem decodeCborUint_pos {bytes : List UInt8} {t : ℕ × ℕ} (h : decodeCborUint bytes = some t) : 0 < t.2 := by
  cases bytes with
  | nil => cases h
  | cons marker rest =>
    rw [decodeCborUint] at h
    split at h
    · cases h
      exact Nat.one_pos
    split at h
    · exact decodeArgument_pos h
    split at h
    · exact decodeArgument_pos h
    split at h
    · exact decodeArgument_pos h
    · cases h

/-- The decoder reads no further than the width it returns. -/
theorem decodeCborUint_take {bytes : List UInt8} {k : ℕ} {t : ℕ × ℕ} :
    decodeCborUint (bytes.take k) = some t ↔ decodeCborUint bytes = some t ∧ t.2 ≤ k := by
  cases k with
  | zero =>
    constructor
    · intro h
      cases h
    · rintro ⟨h, hle⟩
      have := decodeCborUint_pos h
      omega
  | succ k =>
    cases bytes with
    | nil => simp [decodeCborUint]
    | cons marker rest =>
      rw [List.take_succ_cons, decodeCborUint, decodeCborUint]
      by_cases hshort : marker < 0x18
      · rw [if_pos hshort, if_pos hshort]
        constructor
        · rintro h
          cases h
          exact ⟨rfl, Nat.le_add_left 1 k⟩
        · exact fun h => h.1
      rw [if_neg hshort, if_neg hshort]
      by_cases hone : marker = 0x18
      · rw [if_pos hone, if_pos hone, decodeArgument_take]
      rw [if_neg hone, if_neg hone]
      by_cases htwo : marker = 0x19
      · rw [if_pos htwo, if_pos htwo, decodeArgument_take]
      rw [if_neg htwo, if_neg htwo]
      by_cases hfour : marker = 0x1a
      · rw [if_pos hfour, if_pos hfour, decodeArgument_take]
      · rw [if_neg hfour, if_neg hfour]
        simp

theorem computes_mask {bits : List (Boolean F)} {zs : List Bool} {b : Boolean F} {d : Bool}
    (hbits : Boolean.ReadsAll bits zs) (hb : b.Reads d) :
    (bits.mapM fun x => Boolean.and x b : Circuit F F _).Computes
      (Boolean.ReadsAll · (zs.map fun z => z && d)) := by
  induction hbits with
  | nil => exact ⟨Circuit.ensures_pure.mpr .nil, Circuit.admits_pure.mpr .nil⟩
  | cons hx _ ih =>
    rw [List.mapM_cons]
    refine (Boolean.computes_and hx hb).bind fun y hy => ih.bind fun ys hys => ?_
    exact ⟨Circuit.ensures_pure.mpr (.cons hy hys), Circuit.admits_pure.mpr (.cons hy hys)⟩

theorem bitsOf_mask (b : UInt8) (d : Bool) : (bitsOf b).map (fun z => z && d) = bitsOf (if d then b else 0) := by
  cases d
  · simp [bitsOf]
  · simp

theorem exists_bitsOf {xs : List Bool} (h : xs.length = 8) : ∃ b, bitsOf b = xs := by
  obtain ⟨bs, hlen, rfl⟩ := exists_bytesBits (n := 1) h
  obtain ⟨b, rfl⟩ := List.length_eq_one_iff.mp hlen
  exact ⟨b, by simp [bytesBits]⟩

/-- The wires of every satisfying assignment, and what it publishes. -/
theorem runs_synthesizeWires [LargeChar F] (gadget : CompressionGadget F) (hash : HashGadget F)
    (c : ClaimDigestStepCircuit) {ins : List F} {w : StepWires F}
    (h : (c.synthesizeWires gadget.compress hash.sha256).Runs ins w) :
    ∃ v j, w.Reads v ∧ ins = v.inputs ∧
      decodeCborUint (v.raw.drop digestIdOffsetBytes) = some (bytesNat v.value, classByteWidth j) := by
  obtain ⟨inputBits, -, ⟨xs, hxs, hreads⟩, h⟩ := h.bind_elim Boolean.ensures_allocBits
  rw [length_bytesBits, c.length_bytes] at hxs
  obtain ⟨raw, hraw, rfl⟩ := exists_bytesBits hxs
  obtain ⟨hashed, -, ⟨l, hl, hdigest, hactive⟩, h⟩ :=
    h.bind_elim (ensures_sha256VarSized gadget hreads hraw (by decide) (by decide))
  obtain ⟨nonceBits, -, ⟨ys, hys, hnonce⟩, h⟩ := h.bind_elim Boolean.ensures_allocBits
  rw [length_bytesBits] at hys
  obtain ⟨nonce, -, rfl⟩ := exists_bytesBits hys
  have hblind : Boolean.HoldsAll .any (hashed.1 ++ nonceBits)
      (bytesBits (Sha256.hash (raw.take l) ++ nonce)) := by
    rw [bytesBits_append]
    exact hdigest.append hnonce
  obtain ⟨blinded, -, hblinded, h⟩ := h.bind_elim (hash.correct .any hblind).ensures
  obtain ⟨ins1, hins, h⟩ := Runs.inputizeBits_elim h hblinded
  obtain ⟨discloseBit, -, ⟨disclose, hdisclose⟩, h⟩ := h.bind_elim Boolean.ensures_alloc
  obtain ⟨ins2, hins1, h⟩ := Runs.inputizeBits_elim h (.cons hdisclose .nil)
  obtain ⟨lenBits, -, ⟨zs, hzs, hlenReads⟩, h⟩ := h.bind_elim Boolean.ensures_allocBits
  obtain ⟨lenByte, rfl⟩ := exists_bitsOf (show zs.length = 8 by simpa [realLenBits] using hzs)
  obtain ⟨masked, -, hmasked, h⟩ := h.bind_elim (computes_mask hlenReads hdisclose).1
  obtain ⟨ins3, hins2, h⟩ := Runs.inputizeBits_elim h hmasked
  obtain ⟨extracted, -, ⟨value, j, hvalue, hvalueLen, -, hdecode⟩, h⟩ :=
    h.bind_elim (ensures_extractDigestId hreads)
  obtain ⟨ins4, hins3, hend⟩ := Runs.inputizeBits_elim h hvalue
  obtain ⟨rfl, rfl⟩ := Circuit.runs_pure.mp hend
  refine ⟨⟨raw, l, nonce, disclose, lenByte, value⟩, j,
    ⟨hreads, hactive, hnonce, hdisclose, hlenReads, hraw, hl, hvalueLen⟩, ?_, hdecode⟩
  rw [hins, hins1, hins2, hins3, bitsOf_mask]
  rfl

theorem map_bitValue_inj {xs ys : List Bool} (h : xs.map bitValue = (ys.map bitValue : List F)) : xs = ys := by
  apply List.map_injective_iff.mpr _ h
  intro x y hxy
  cases x <;> cases y <;> simp_all [bitValue]

theorem published_inj {a a' : List UInt8} {d d' : Bool} {b b' : UInt8} {value value' : List UInt8}
    (hlen : a.length = a'.length)
    (h : (bytesBits a).map bitValue ++ ([d].map bitValue ++ ((bitsOf b).map bitValue ++
        ((bytesBits value).map bitValue ++ []))) =
      ((bytesBits a').map bitValue ++ ([d'].map bitValue ++ ((bitsOf b').map bitValue ++
        ((bytesBits value').map bitValue ++ []))) : List F)) :
    a = a' ∧ d = d' ∧ b = b' ∧ value = value' := by
  obtain ⟨ha, h⟩ := List.append_inj h (by simp [hlen])
  obtain ⟨hd, h⟩ := List.append_inj h (by simp)
  obtain ⟨hb, h⟩ := List.append_inj h (by simp)
  rw [List.append_nil, List.append_nil] at h
  have hd := map_bitValue_inj hd
  exact ⟨bytesBits_inj (map_bitValue_inj ha), by simpa using hd, bitsOf_eq_iff.mp (map_bitValue_inj hb),
    bytesBits_inj (map_bitValue_inj h)⟩

/-- The hashed message is published as the claim's exactly when the assignment ties the length bits and
the digestID's encoding to it. -/
theorem publishesMessage_iff {v : StepAssignment} {j : ℕ} (hraw : v.raw.length = maxClaimBytesV1)
    (hl : v.hashedLen ≤ maxClaimBytesV1) (hvalue : v.value.length = 4)
    (hdecode : decodeCborUint (v.raw.drop digestIdOffsetBytes) = some (bytesNat v.value, classByteWidth j)) :
    PublishesMessage (v.inputs : List F) v.nonce v.message ↔ v.Tied := by
  have hmessage : v.message.length = v.hashedLen := by
    rw [StepAssignment.message, List.length_take, hraw]
    exact min_eq_left hl
  have hdrop : v.message.drop digestIdOffsetBytes =
      (v.raw.drop digestIdOffsetBytes).take (v.hashedLen - digestIdOffsetBytes) := by
    rw [StepAssignment.message, List.drop_take]
  have hsmall : maxClaimBytesV1 < 256 := by decide
  constructor
  · rintro ⟨-, disclose, value, width, -, hins, hcbor⟩
    obtain ⟨-, hd, hlen, -⟩ := published_inj (by simp [Sha256.length_hash]) hins
    rw [hdrop, decodeCborUint_take] at hcbor
    have hpos := decodeCborUint_pos hcbor.1
    have hle := hcbor.2
    simp only at hpos hle
    refine ⟨fun hdisclosed => ?_, bytesNat value, width, hcbor.1, by omega⟩
    rw [← hd, hdisclosed, if_pos rfl, if_pos rfl] at hlen
    rw [hlen, hmessage, UInt8.toNat_ofNat_of_lt' (show v.hashedLen < 256 by omega)]
  · rintro ⟨htied, id, width, hcbor, hle⟩
    have hwidth := decodeCborUint_pos hcbor
    simp only at hwidth
    rw [hdecode] at hcbor
    cases hcbor
    refine ⟨by omega, v.disclose, v.value, classByteWidth j, hvalue, ?_, ?_⟩
    · have hbyte : (if v.disclose then v.lenByte else 0) =
          if v.disclose then UInt8.ofNat v.message.length else 0 := by
        by_cases hd : v.disclose = true
        · rw [if_pos hd, if_pos hd, hmessage, ← htied hd, UInt8.ofNat_toNat]
        · rw [if_neg hd, if_neg hd]
      rw [StepAssignment.inputs, hbyte]
    · rw [hdrop, decodeCborUint_take]
      exact ⟨hdecode, by simp only; omega⟩

/-- In every satisfying assignment the hashed message is the claim that is published exactly when the
length bits and the digestID's encoding are tied to it, and any other message that could be is a second
preimage of the blinded digest. -/
theorem stepCircuit_publishes_iff [LargeChar F] (gadget : CompressionGadget F) (hash : HashGadget F)
    (c : ClaimDigestStepCircuit) {ins : List F} {w : StepWires F}
    (h : (c.synthesizeWires gadget.compress hash.sha256).Runs ins w) :
    (c.precommitted gadget.compress hash.sha256).Runs ins [] ∧
    ∃ v, w.Reads v ∧ (PublishesMessage ins v.nonce v.message ↔ v.Tied) ∧
      ∀ m, PublishesMessage ins v.nonce m → m ≠ v.message →
        Sha256.hash (Sha256.hash m ++ v.nonce) = Sha256.hash (Sha256.hash v.message ++ v.nonce) := by
  refine ⟨Circuit.runs_bind.mpr ⟨ins, [], w, (List.append_nil ins).symm, h, rfl, rfl⟩, ?_⟩
  obtain ⟨v, j, hreads, rfl, hdecode⟩ := runs_synthesizeWires gadget hash c h
  refine ⟨v, hreads, publishesMessage_iff hreads.length_raw hreads.hashedLen_le hreads.length_value hdecode, ?_⟩
  rintro m ⟨-, disclose, value, width, -, hins, -⟩ -
  obtain ⟨hdigest, -⟩ := published_inj (by simp [Sha256.length_hash]) hins
  exact hdigest.symm

/-- Every value of the wires that the digestID's window allows has a satisfying assignment: the length bits
and the hashed length are independent. -/
theorem exists_runs_synthesizeWires (gadget : CompressionGadget F) (hash : HashGadget F)
    (c : ClaimDigestStepCircuit) (v : StepAssignment) {j : ℕ} (hraw : v.raw.length = maxClaimBytesV1)
    (hl : v.hashedLen ≤ maxClaimBytesV1) (hnonce : v.nonce.length = blindNonceBytes)
    (hvalue : v.value.length = 4) (hid : c.digestId.toNat ≤ maxDigestId)
    (hencodes : Encodes j v.value (windowOf v.raw digestIdOffsetBytes))
    (htop : j = 3 → ((windowOf v.raw digestIdOffsetBytes).getD 1 0).toNat.testBit 7 = false) :
    ∃ w, w.Reads v ∧ (c.synthesizeWires gadget.compress hash.sha256).Runs v.inputs w := by
  have hbytes : (bytesBits v.raw).length = (bytesBits c.bytes).length := by simp [hraw, c.length_bytes]
  obtain ⟨inputBits, hinput, hreads⟩ := Boolean.admits_allocBits (F := F) (f := some) (bytesBits v.raw) hbytes
  obtain ⟨hashed, hhash, hdigest, hactive⟩ := admits_sha256VarSized (n := numBlocks) gadget hreads hraw
    c.realLen_le hl (by decide)
  have hnonceLen : (bytesBits v.nonce).length = (bytesBits c.nonce.val).length := by
    simp [hnonce, c.nonce.property]
  obtain ⟨nonceBits, hnonceRun, hnonceReads⟩ := Boolean.admits_allocBits (F := F) (f := some)
    (bytesBits v.nonce) hnonceLen
  have hblind : Boolean.HoldsAll .any (hashed.1 ++ nonceBits)
      (bytesBits (Sha256.hash v.message ++ v.nonce)) := by
    rw [bytesBits_append]
    exact hdigest.append hnonceReads
  obtain ⟨blinded, hblindRun, hblinded⟩ := (hash.correct .any hblind).admits
  obtain ⟨discloseBit, hdiscloseRun, hdisclose⟩ := Boolean.admits_alloc (F := F) (v := some c.disclose) v.disclose
  have hlenBits : (bitsOf v.lenByte).length = (List.range realLenBits).reverse.length := by simp [realLenBits]
  obtain ⟨lenBits, hlenRun, hlenReads⟩ := Boolean.admits_allocBits (F := F)
    (f := fun i => some (c.realLen.testBit i)) (bitsOf v.lenByte) hlenBits
  obtain ⟨masked, hmaskRun, hmasked⟩ := (computes_mask hlenReads hdisclose).2
  rw [bitsOf_mask] at hmasked
  obtain ⟨extracted, hextractRun, hextracted⟩ := admits_extractDigestId hreads (by rw [hraw]; decide) hid hvalue
    hencodes htop
  refine ⟨⟨inputBits, hashed.2, nonceBits, discloseBit, lenBits⟩,
    ⟨hreads, hactive, hnonceReads, hdisclose, hlenReads, hraw, hl, hvalue⟩, ?_⟩
  refine .bind_intro hinput (.bind_intro hhash (.bind_intro hnonceRun (.bind_intro hblindRun ?_)))
  refine Runs.inputizeBits_intro hblinded (.bind_intro hdiscloseRun ?_)
  refine Runs.inputizeBits_intro (.cons hdisclose .nil) (.bind_intro hlenRun (.bind_intro hmaskRun ?_))
  refine Runs.inputizeBits_intro hmasked (.bind_intro hextractRun ?_)
  exact Runs.inputizeBits_intro hextracted (Circuit.runs_pure.mpr ⟨rfl, rfl⟩)

end Soundness

/-! ## A length that is not the message's -/

section Reading

variable {F : Type} [Field F] [DecidableEq F]

/-- A hash that reads the bits it is given and returns constants. -/
def readingHash : HashGadget F where
  sha256 bits := pure ((bytesBits (Sha256.hash (readBytes bits))).map .constant)
  correct := by
    intro who bits m hbits
    apply Circuit.yields_pure
    rw [readBytes_of_holdsAll hbits]
    exact Boolean.holdsAll_constants _

end Reading

/-- A disclosed claim of 60 zero bytes, which encode the digestID 0. -/
def zeroClaim : ClaimDigestStepCircuit where
  bytes := List.replicate maxClaimBytesV1 0
  realLen := 60
  disclose := true
  digestId := 0
  nonce := ⟨List.replicate blindNonceBytes 0, rfl⟩
  length_bytes := List.length_replicate
  realLen_le := by decide

/-- Its wires, with the length bits set to `len`. -/
def zeroAssignment (len : UInt8) : StepAssignment :=
  ⟨List.replicate maxClaimBytesV1 0, 60, List.replicate blindNonceBytes 0, true, len, [0, 0, 0, 0]⟩

theorem exists_runs_zeroClaim (len : UInt8) : ∃ w : StepWires Scalar, w.Reads (zeroAssignment len) ∧
    (zeroClaim.synthesizeWires readingGadget.compress readingHash.sha256).Runs
      (zeroAssignment len).inputs w := by
  have hwindow : windowOf (List.replicate maxClaimBytesV1 0) digestIdOffsetBytes = [0, 0, 0, 0, 0] := by decide
  have hencodes : Encodes 0 [0, 0, 0, 0] [0, 0, 0, 0, 0] :=
    ⟨by decide, by decide, by decide, fun _ => by decide⟩
  rw [← hwindow] at hencodes
  exact exists_runs_synthesizeWires readingGadget readingHash zeroClaim (zeroAssignment len)
    List.length_replicate (show 60 ≤ maxClaimBytesV1 by decide) List.length_replicate rfl (by decide) hencodes
    nofun

theorem stepCircuit_publishes_iff_zeroClaim : ∃ w : StepWires Scalar,
    (zeroClaim.synthesizeWires readingGadget.compress readingHash.sha256).Runs (zeroAssignment 60).inputs w ∧
      ∃ v, w.Reads v ∧
        (PublishesMessage ((zeroAssignment 60).inputs : List Scalar) v.nonce v.message ↔ v.Tied) := by
  obtain ⟨w, -, hrun⟩ := exists_runs_zeroClaim 60
  obtain ⟨-, v, hreads, hiff, -⟩ := stepCircuit_publishes_iff readingGadget readingHash zeroClaim hrun
  exact ⟨w, hrun, v, hreads, hiff⟩

/-- The prover hashes 60 bytes and publishes the length 5. -/
theorem stepCircuit_shortLength : ¬∀ (c : ClaimDigestStepCircuit) (ins : List Scalar) (w : StepWires Scalar),
    (c.synthesizeWires readingGadget.compress readingHash.sha256).Runs ins w →
      ∃ nonce m, Boolean.ReadsAll w.nonceBits (bytesBits nonce) ∧ PublishesMessage ins nonce m := by
  intro hall
  obtain ⟨w, -, hrun⟩ := exists_runs_zeroClaim 5
  obtain ⟨nonce, m, -, hlen, disclose, value, width, -, hins, hdecode⟩ := hall zeroClaim _ w hrun
  obtain ⟨-, hd, hbyte, -⟩ := published_inj (by simp [Sha256.length_hash]) hins
  have hdisclose : disclose = true := hd.symm
  rw [hdisclose] at hbyte
  have hfive : (UInt8.ofNat m.length).toNat = 5 := congrArg UInt8.toNat hbyte.symm
  have hmax : maxClaimBytesV1 = 176 := rfl
  rw [UInt8.toNat_ofNat_of_lt' (show m.length < 256 by omega)] at hfive
  have hdrop : m.drop digestIdOffsetBytes = [] := List.drop_eq_nil_of_le (by rw [hfive]; decide)
  rw [hdrop] at hdecode
  cases hdecode

end ZkCredVega
