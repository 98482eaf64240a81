import ZkCredVega.Claims.Splice

/-!
# The signed structure of a run

`alloc_sig_structure_bits` of `mso.rs` with the wires that it drops: the keys of the digest map's
entries. Every run assembles the buffer from its own length fields, keys, tails and body, and the
honest run assembles the native bytes.
-/

namespace ZkCredVega

open Circuits

namespace Mso

/-- The signed structure, with the keys that its entries are given. -/
structure KeyedStructure (V : Type) extends SigStructure V where
  keys : List (EntryKey V)

section Circuit

variable {F : Type} [Field F]

def prefixBits (payloadLen msoBodyLen : List (Boolean F)) (body : AllocatedMsoBodyBits F) : List (Boolean F) :=
  fixedBits sigStructurePrefixNoLen ++ payloadLen ++ fixedBits payloadHeaderNoLen ++
    msoBodyLen ++ fixedBits segPrefixBase ++ body.signedTs ++ fixedBits segBetweenSignedValidFrom ++
    body.validFromTs ++ fixedBits segBetweenValidFromValidUntil ++ body.validUntilTs ++ fixedBits segBeforeDigests

def suffixBits (body : AllocatedMsoBodyBits F) : List (Boolean F) :=
  fixedBits segAfterDigests ++ body.deviceX ++ fixedBits segBetweenXY ++ body.deviceY ++ fixedBits segAfterDeviceKey

/-- `allocSigStructureBits`, with the keys. -/
def allocKeyedStructure (digestIds : List UInt32) (claimDigests : List (Bytes 32))
    (body : MsoBodyWitness) : Circuit F F (KeyedStructure F) := do
  .assert (claimDigests.length = maxClaimsV1)
  let encoded ← .lift (digestIds.mapM fun id => encodeCborUint id.toNat)
  let lengths ← .lift (computeLengths ((encoded.map List.length).sum + maxClaimsV1 * entryTailLen))
  let payloadLen ← allocBytes lengths.2
  let msoBodyLen ← allocBytes lengths.1
  let signedTs ← allocBytes body.signedTs.val
  let validFromTs ← allocBytes body.validFromTs.val
  let validUntilTs ← allocBytes body.validUntilTs.val
  let deviceX ← allocBytes body.deviceX.val
  let deviceY ← allocBytes body.deviceY.val
  let entries ← (digestIds.zip claimDigests).mapM allocEntry
  let body : AllocatedMsoBodyBits F := ⟨deviceX, deviceY, signedTs, validFromTs, validUntilTs⟩
  let assembled ← assembleWithKeys (prefixBits payloadLen msoBodyLen body) entries (suffixBits body)
  .assert (assembled.2.1.length = maxSigStructureBytes * 8)
  pure ⟨⟨assembled.2.1, assembled.2.2, body, entries⟩, assembled.1⟩

theorem allocSigStructureBits_eq (digestIds : List UInt32) (claimDigests : List (Bytes 32))
    (body : MsoBodyWitness) : allocSigStructureBits digestIds claimDigests body =
      KeyedStructure.toSigStructure <$> (allocKeyedStructure digestIds claimDigests body : Circuit F F _) := by
  unfold allocSigStructureBits allocKeyedStructure
  simp only [assembleMsoSigStructure_eq, map_bind, map_pure, bind_map_left]
  rfl

end Circuit

/-! ## The bytes of the parts -/

/-- The prefix of the structure, from the bytes of its fields. -/
def prefixBytes (payloadLen msoBodyLen : List UInt8) (body : MsoBodyWitness) : List UInt8 :=
  sigStructurePrefixNoLen ++ payloadLen ++ payloadHeaderNoLen ++ msoBodyLen ++ segPrefixBase ++
    body.signedTs.val ++ segBetweenSignedValidFrom ++ body.validFromTs.val ++
    segBetweenValidFromValidUntil ++ body.validUntilTs.val ++ segBeforeDigests

def suffixBytes (body : MsoBodyWitness) : List UInt8 :=
  segAfterDigests ++ body.deviceX.val ++ segBetweenXY ++ body.deviceY.val ++ segAfterDeviceKey

def headLen : ℕ := sigStructurePrefixNoLen.length + 2 + payloadHeaderNoLen.length + 2 + prefixFixedLen

theorem length_prefixBytes {payloadLen msoBodyLen : List UInt8} (hp : payloadLen.length = 2)
    (hm : msoBodyLen.length = 2) (body : MsoBodyWitness) :
    (prefixBytes payloadLen msoBodyLen body).length = headLen := by
  simp only [prefixBytes, List.length_append, hp, hm, body.signedTs.property, body.validFromTs.property,
    body.validUntilTs.property]
  rfl

theorem length_suffixBytes (body : MsoBodyWitness) : (suffixBytes body).length = suffixFixedLen := by
  simp only [suffixBytes, List.length_append, body.deviceX.property, body.deviceY.property]
  rfl

theorem nativeSigStructureBytes_eq {digestIds : List UInt32} {claimDigests : List (Bytes 32)} (body : MsoBodyWitness)
    (hdigests : claimDigests.length = maxClaimsV1) {encoded : List (List UInt8)} {lengths : List UInt8 × List UInt8}
    (hencoded : digestIds.mapM (fun id => encodeCborUint id.toNat) = .ok encoded)
    (hlengths : computeLengths ((encoded.map List.length).sum + maxClaimsV1 * entryTailLen) = .ok lengths) :
    nativeSigStructureBytes digestIds claimDigests body =
      nativeMsoSigStructureBytes (prefixBytes lengths.2 lengths.1 body) digestIds (claimDigests.map makeTail)
        (suffixBytes body) := by
  rw [nativeSigStructureBytes, if_pos hdigests, hencoded]
  show computeLengths _ >>= _ = _
  rw [hlengths]
  rfl

section Parts

variable {F : Type} [Field F] {who : Circuit.Prover}

structure AllocatedMsoBodyBits.Holds (who : Circuit.Prover) (b : AllocatedMsoBodyBits F) (body : MsoBodyWitness) :
    Prop where
  deviceX : Boolean.HoldsAll who b.deviceX (bytesBits body.deviceX.val)
  deviceY : Boolean.HoldsAll who b.deviceY (bytesBits body.deviceY.val)
  signedTs : Boolean.HoldsAll who b.signedTs (bytesBits body.signedTs.val)
  validFromTs : Boolean.HoldsAll who b.validFromTs (bytesBits body.validFromTs.val)
  validUntilTs : Boolean.HoldsAll who b.validUntilTs (bytesBits body.validUntilTs.val)

theorem holds_fixedBits (bytes : List UInt8) :
    Boolean.HoldsAll who (fixedBits bytes : List (Boolean F)) (bytesBits bytes) := Boolean.holdsAll_constants _

theorem holds_appendBits {as bs : List (Boolean F)} {xs ys : List UInt8} (ha : Boolean.HoldsAll who as (bytesBits xs))
    (hb : Boolean.HoldsAll who bs (bytesBits ys)) : Boolean.HoldsAll who (as ++ bs) (bytesBits (xs ++ ys)) := by
  rw [bytesBits_append]
  exact ha.append hb

variable {payloadLen msoBodyLen : List (Boolean F)} {p m : List UInt8} {b : AllocatedMsoBodyBits F}
  {body : MsoBodyWitness}

theorem holds_prefixBits (hp : Boolean.HoldsAll who payloadLen (bytesBits p))
    (hm : Boolean.HoldsAll who msoBodyLen (bytesBits m)) (h : b.Holds who body) :
    Boolean.HoldsAll who (prefixBits payloadLen msoBodyLen b) (bytesBits (prefixBytes p m body)) := by
  refine holds_appendBits (holds_appendBits (holds_appendBits (holds_appendBits (holds_appendBits (holds_appendBits
    (holds_appendBits (holds_appendBits (holds_appendBits (holds_appendBits ?_ hp) ?_) hm) ?_) h.signedTs) ?_)
    h.validFromTs) ?_) h.validUntilTs) ?_
  all_goals exact holds_fixedBits _

theorem holds_suffixBits (h : b.Holds who body) :
    Boolean.HoldsAll who (suffixBits b) (bytesBits (suffixBytes body)) := by
  refine holds_appendBits (holds_appendBits (holds_appendBits (holds_appendBits ?_ h.deviceX) ?_) h.deviceY) ?_
  all_goals exact holds_fixedBits _

end Parts

/-! ## The structure -/

theorem length_splicedBuffer {F : Type} [Field F] {who : Circuit.Prover} {ts : List (EntryKey F × DigestIdEntry F)}
    {es : List SplicedEntry} (hes : List.Forall₂ (EntryKey.Holds who) ts es) (hcount : es.length = maxClaimsV1)
    (head suffix : List UInt8) :
    (splicedBuffer head es suffix).length = head.length + maxDigestSectionBytes + suffix.length := by
  have hle := length_splicedBytes_le hes hcount
  simp only [splicedBuffer, List.length_append, List.length_replicate]
  omega

section Structure

variable {F : Type} [Field F]

/-- The bytes of a structure: its body, and the buffer that its keys and tails are spliced into. -/
structure KeyedStructure.Holds (who : Circuit.Prover) (m : KeyedStructure F) (head : List UInt8)
    (es : List SplicedEntry) (body : MsoBodyWitness) : Prop where
  length_head : head.length = headLen
  entries : List.Forall₂ (EntryKey.Holds who) (m.keys.zip m.entries) es
  length_entries : es.length = maxClaimsV1
  bits : Boolean.HoldsAll who m.bits (bytesBits (splicedBuffer head es (suffixBytes body)))
  body : m.body.Holds who body

theorem EntryKey.Holds.any {who : Circuit.Prover} {t : EntryKey F × DigestIdEntry F} {e : SplicedEntry}
    (h : EntryKey.Holds who t e) : EntryKey.Holds .any t e :=
  ⟨⟨h.width.mem, h.width.holds.reads⟩, h.content.reads, h.length_content, h.tail.reads, h.length_tail⟩

theorem KeyedStructure.Holds.any {who : Circuit.Prover} {m : KeyedStructure F} {head : List UInt8}
    {es : List SplicedEntry} {body : MsoBodyWitness} (h : m.Holds who head es body) : m.Holds .any head es body :=
  ⟨h.length_head, h.entries.imp fun _ _ he => he.any, h.length_entries, h.bits.reads, h.body.deviceX.reads,
    h.body.deviceY.reads, h.body.signedTs.reads, h.body.validFromTs.reads, h.body.validUntilTs.reads⟩

theorem ensures_allocFixed {n : ℕ} (bytes : Bytes n) : (allocBytes bytes.val : Circuit F F _).Ensures fun bits =>
    ∃ bs : Bytes n, Boolean.ReadsAll bits (bytesBits bs.val) :=
  ensures_allocBytes.mono fun _ ⟨bs, hlen, hreads⟩ => ⟨⟨bs, hlen.trans bytes.property⟩, hreads⟩

theorem ensures_allocTails {ts : List (UInt32 × Bytes 32)} : (ts.mapM allocEntry : Circuit F F _).Ensures fun entries =>
    entries.length = ts.length ∧ ∃ tails, List.Forall₂ (DigestIdEntry.Tail .any) entries tails := by
  have hentry : ∀ t ∈ ts, (allocEntry t : Circuit F F _).Ensures fun e => ∃ tail, DigestIdEntry.Tail .any e tail := by
    intro t _
    refine ensures_allocBytes.bind fun bits ⟨tail, htail, hreads⟩ => Circuit.ensures_pure.mpr ⟨tail, hreads, ?_⟩
    rw [htail, makeTail, List.length_append, t.2.property]
    rfl
  refine (Circuit.Ensures.mapM hentry).mono fun entries hall => ⟨hall.length_eq.symm, ?_⟩
  refine Circuit.exists_forall₂ fun e he => ?_
  obtain ⟨_, -, htail⟩ := forall₂_right hall he
  exact htail

variable {digestIds : List UInt32} {claimDigests : List (Bytes 32)} {body : MsoBodyWitness}

/-- Every run splices keys and tails of its own into a prefix and a suffix of its own. -/
theorem ensures_allocKeyedStructure [LargeChar F] (hids : digestIds.length = maxClaimsV1) :
    (allocKeyedStructure digestIds claimDigests body : Circuit F F _).Ensures fun m =>
      claimDigests.length = maxClaimsV1 ∧ ∃ head es body', m.Holds .any head es body' := by
  unfold allocKeyedStructure
  refine Circuit.ensures_assert.bind fun _ hdigests => ?_
  refine Circuit.ensures_lift.bind fun encoded _ => ?_
  refine Circuit.ensures_lift.bind fun lengths hlengths => ?_
  have hlens := computeLengths_ok hlengths
  refine ensures_allocBytes.bind fun payloadLen ⟨p, hp, hpayload⟩ => ?_
  refine ensures_allocBytes.bind fun msoBodyLen ⟨m, hm, hbodyLen⟩ => ?_
  refine (ensures_allocFixed _).bind fun signedTs ⟨s, hs⟩ => ?_
  refine (ensures_allocFixed _).bind fun validFromTs ⟨f, hf⟩ => ?_
  refine (ensures_allocFixed _).bind fun validUntilTs ⟨u, hu⟩ => ?_
  refine (ensures_allocFixed _).bind fun deviceX ⟨x, hx⟩ => ?_
  refine (ensures_allocFixed _).bind fun deviceY ⟨y, hy⟩ => ?_
  refine ensures_allocTails.bind fun entries ⟨hcount, tails, htails⟩ => ?_
  rw [List.length_zip, hids, hdigests, min_self] at hcount
  have hbody : AllocatedMsoBodyBits.Holds .any (⟨deviceX, deviceY, signedTs, validFromTs, validUntilTs⟩ :
      AllocatedMsoBodyBits F) ⟨x, y, s, f, u⟩ := ⟨hx, hy, hs, hf, hu⟩
  refine (ensures_assembleWithKeys hcount (holds_prefixBits hpayload hbodyLen hbody) (holds_suffixBits hbody)
    htails).bind fun t ⟨⟨es, hes, hestails⟩, hbits⟩ => ?_
  refine Circuit.ensures_assert.bind fun _ _ => Circuit.ensures_pure.mpr ⟨hdigests, prefixBytes p m ⟨x, y, s, f, u⟩, es,
    ⟨x, y, s, f, u⟩, ?_⟩
  refine ⟨length_prefixBytes (hp.trans hlens.2) (hm.trans hlens.1) _, hes, ?_, hbits es hes, hbody⟩
  have hlen := congrArg List.length hestails
  rw [List.length_map] at hlen
  rw [hlen, ← htails.length_eq, hcount]

theorem succeeds_allocTails {ts : List (UInt32 × Bytes 32)} (h : ∀ t ∈ ts, t.1.toNat ≤ maxDigestId) :
    (ts.mapM allocEntry : Circuit F F _).Succeeds fun entries =>
      List.Forall₂ DigestIdEntry.Of entries (ts.map fun t => (t.1, makeTail t.2)) := by
  have hentry : ∀ t ∈ ts, (allocEntry t : Circuit F F _).Succeeds fun e => DigestIdEntry.Of e (t.1, makeTail t.2) := by
    intro t ht
    refine (succeeds_allocBytes (makeTail t.2)).bind fun bits hbits => Circuit.succeeds_pure.mpr ⟨rfl, ?_, hbits, ?_⟩
    · have hle := h t ht
      have hmax : maxDigestId = 2 ^ 31 - 1 := rfl
      show t.1.toNat < 2 ^ 31
      omega
    · rw [makeTail, List.length_append, t.2.property]
      rfl
  refine (Circuit.Succeeds.mapM hentry).mono fun entries hall => ?_
  rw [List.forall₂_map_right_iff]
  exact hall.flip

theorem map_fst_pairs (hids : digestIds.length = maxClaimsV1) (hdigests : claimDigests.length = maxClaimsV1) :
    ((digestIds.zip claimDigests).map fun t => (t.1, makeTail t.2)).map Prod.fst = digestIds := by
  rw [List.map_map]
  exact List.map_fst_zip (by omega)

theorem map_snd_pairs (hids : digestIds.length = maxClaimsV1) (hdigests : claimDigests.length = maxClaimsV1) :
    ((digestIds.zip claimDigests).map fun t => (t.1, makeTail t.2)).map Prod.snd = claimDigests.map makeTail := by
  have hsnd : (digestIds.zip claimDigests).map Prod.snd = claimDigests := List.map_snd_zip (by omega)
  conv_rhs => rw [← hsnd]
  rw [List.map_map, List.map_map]
  rfl

/-- The honest run assembles the native bytes. -/
theorem succeeds_allocKeyedStructure (hids : digestIds.length = maxClaimsV1)
    (hdigests : claimDigests.length = maxClaimsV1) (hle : ∀ id ∈ digestIds, id.toNat ≤ maxDigestId) :
    (allocKeyedStructure digestIds claimDigests body : Circuit F F _).Succeeds fun m => ∃ head es,
      m.Holds .honest head es body ∧ es.map SplicedEntry.tail = claimDigests.map makeTail ∧
        nativeSigStructureBytes digestIds claimDigests body = .ok (head ++ splicedBytes es ++ suffixBytes body) ∧
        m.realLen = (head ++ splicedBytes es ++ suffixBytes body).length := by
  obtain ⟨encoded, hencoded⟩ := Circuit.exists_forall₂ fun id hid => encodeCborUint_ok (hle id hid)
  have hencoded := Circuit.mapM_eq_ok_iff.mpr hencoded
  obtain ⟨lengths, hlengths⟩ := computeLengths_of_le (encoded_length_le hencoded hids)
  have hlens := computeLengths_ok hlengths
  unfold allocKeyedStructure
  rw [hencoded]
  refine (Circuit.succeeds_assert hdigests).bind fun _ _ => ?_
  refine (Circuit.succeeds_pure.mpr rfl : (Circuit.lift (.ok encoded) : Circuit F F _).Succeeds (· = encoded)).bind
    fun encoded' hencoded' => ?_
  subst hencoded'
  rw [hlengths]
  refine (Circuit.succeeds_pure.mpr rfl : (Circuit.lift (.ok lengths) : Circuit F F _).Succeeds (· = lengths)).bind
    fun lengths' hlengths' => ?_
  subst hlengths'
  refine (succeeds_allocBytes _).bind fun payloadLen hpayload => (succeeds_allocBytes _).bind fun msoBodyLen hm => ?_
  refine (succeeds_allocBytes _).bind fun signedTs hs => (succeeds_allocBytes _).bind fun validFromTs hf => ?_
  refine (succeeds_allocBytes _).bind fun validUntilTs hu => (succeeds_allocBytes _).bind fun deviceX hx => ?_
  refine (succeeds_allocBytes _).bind fun deviceY hy => ?_
  have hpairs : ∀ t ∈ digestIds.zip claimDigests, t.1.toNat ≤ maxDigestId := fun t ht =>
    hle t.1 (List.of_mem_zip ht).1
  refine (succeeds_allocTails hpairs).bind fun entries hentries => ?_
  have hcount : entries.length = maxClaimsV1 := by
    rw [hentries.length_eq, List.length_map, List.length_zip, hids, hdigests, min_self]
  have hbody : AllocatedMsoBodyBits.Holds .honest (⟨deviceX, deviceY, signedTs, validFromTs, validUntilTs⟩ :
      AllocatedMsoBodyBits F) body := ⟨hx, hy, hs, hf, hu⟩
  refine (succeeds_assembleWithKeys hcount (holds_prefixBits hpayload hm hbody) (holds_suffixBits hbody)
    hentries).bind fun t ⟨es, hes, hescount, hnative, htails, hlen, hbits⟩ => ?_
  have hbuffer : t.2.1.length = maxSigStructureBytes * 8 := by
    rw [hbits.length_eq, length_bytesBits, length_splicedBuffer hes hescount,
      length_prefixBytes hlens.2 hlens.1, length_suffixBytes]
    decide
  refine (Circuit.succeeds_assert hbuffer).bind fun _ _ => Circuit.succeeds_pure.mpr ?_
  have htails' : es.map SplicedEntry.tail = claimDigests.map makeTail := by
    rw [htails, ← map_snd_pairs hids hdigests]
  refine ⟨prefixBytes lengths'.2 lengths'.1 body, es,
    ⟨length_prefixBytes hlens.2 hlens.1 _, hes, hescount, hbits, hbody⟩, htails', ?_, hlen⟩
  have hsplice := nativeMsoSigStructureBytes_splicedBytes (prefixBytes lengths'.2 lengths'.1 body)
    (suffixBytes body) hnative
  rwa [map_fst_pairs hids hdigests, map_snd_pairs hids hdigests,
    ← nativeSigStructureBytes_eq body hdigests hencoded hlengths] at hsplice

end Structure

end Mso

end ZkCredVega
