import ZkCredVega.Claims.Binding
import ZkCredVega.Claims.CborUint

/-!
# The bytes that are signed

`native_sig_structure_bytes` of `mso.rs`: two length fields, fixed segments, the fields of
the MSO body and four entries whose keys vary in width. The fields hold the lengths of what
follows them, and the bytes determine what they were built from: everything before the
entries has a fixed width, an entry's key is decoded on its own, and so is the rest.
-/

namespace ZkCredVega

open Circuits

namespace Mso

theorem toU16_eq {n : ℕ} {bytes : List UInt8} (h : toU16 n = .ok bytes) : bytesNat bytes = n := by
  unfold toU16 at h
  split at h
  · obtain rfl := Except.ok.inj h
    rw [bytesNat_two, UInt8.toNat_ofNat', UInt8.toNat_ofNat']
    omega
  · cases h

theorem computeLengths_eq {n : ℕ} {t : List UInt8 × List UInt8} (h : computeLengths n = .ok t) :
    bytesNat t.1 = prefixFixedLen + n + suffixFixedLen ∧
      bytesNat t.2 = payloadHeaderNoLen.length + 2 + (prefixFixedLen + n + suffixFixedLen) := by
  obtain ⟨m, hm, h⟩ := bind_eq_ok_iff.mp h
  obtain ⟨p, hp, h⟩ := bind_eq_ok_iff.mp h
  obtain rfl := Except.ok.inj h
  exact ⟨toU16_eq hm, toU16_eq hp⟩

/-! ## The parts -/

def beforeEntries (body : MsoBodyWitness) : List UInt8 :=
  segPrefixBase ++ (body.signedTs.val ++ (segBetweenSignedValidFrom ++ (body.validFromTs.val ++
    (segBetweenValidFromValidUntil ++ (body.validUntilTs.val ++ segBeforeDigests)))))

def afterEntries (body : MsoBodyWitness) : List UInt8 :=
  segAfterDigests ++ (body.deviceX.val ++ (segBetweenXY ++ (body.deviceY.val ++ segAfterDeviceKey)))

theorem length_beforeEntries (body : MsoBodyWitness) : (beforeEntries body).length = prefixFixedLen := by
  simp only [beforeEntries, List.length_append, body.signedTs.property, body.validFromTs.property,
    body.validUntilTs.property]
  rfl

theorem length_afterEntries (body : MsoBodyWitness) : (afterEntries body).length = suffixFixedLen := by
  simp only [afterEntries, List.length_append, body.deviceX.property, body.deviceY.property]
  rfl

/-- A run that gives bytes, and its parts. -/
structure Encoding (digestIds : List UInt32) (claimDigests : List (Bytes 32)) (body : MsoBodyWitness)
    (out : List UInt8) where
  encoded : List (List UInt8)
  lengths : List UInt8 × List UInt8
  entries : List (List UInt8)
  length_digests : claimDigests.length = maxClaimsV1
  encoded_eq : digestIds.mapM (fun id => encodeCborUint id.toNat) = .ok encoded
  lengths_eq : computeLengths ((encoded.map List.length).sum + maxClaimsV1 * entryTailLen) = .ok lengths
  entries_eq : (digestIds.zip (claimDigests.map makeTail)).mapM nativeEntry = .ok entries
  out_eq : out = sigStructurePrefixNoLen ++ (lengths.2 ++ (payloadHeaderNoLen ++ (lengths.1 ++
    (beforeEntries body ++ (entries.flatten ++ afterEntries body)))))

theorem exists_encoding {digestIds : List UInt32} {claimDigests : List (Bytes 32)} {body : MsoBodyWitness}
    {out : List UInt8} (h : nativeSigStructureBytes digestIds claimDigests body = .ok out) :
    Nonempty (Encoding digestIds claimDigests body out) := by
  unfold nativeSigStructureBytes at h
  split at h
  · rename_i hdigests
    obtain ⟨encoded, hencoded, h⟩ := bind_eq_ok_iff.mp h
    obtain ⟨lengths, hlengths, h⟩ := bind_eq_ok_iff.mp h
    obtain ⟨entries, hentries, h⟩ := bind_eq_ok_iff.mp h
    refine ⟨⟨encoded, lengths, entries, hdigests, hencoded, hlengths, hentries, ?_⟩⟩
    rw [← Except.ok.inj h]
    simp only [beforeEntries, afterEntries, List.append_assoc]
  · cases h

theorem nativeEntries_ok {digestIds : List UInt32} (hle : ∀ id ∈ digestIds, id.toNat ≤ maxDigestId)
    (tails : List (List UInt8)) : ∃ entries, (digestIds.zip tails).mapM nativeEntry = .ok entries := by
  have hentry : ∀ t ∈ digestIds.zip tails, ∃ bytes, nativeEntry t = .ok bytes := by
    intro t ht
    obtain ⟨key, hkey⟩ := encodeCborUint_ok (hle t.1 (List.of_mem_zip ht).1)
    exact ⟨key ++ t.2, bind_eq_ok_iff.mpr ⟨key, hkey, rfl⟩⟩
  obtain ⟨entries, hentries⟩ := Circuit.exists_forall₂ hentry
  exact ⟨entries, Circuit.mapM_eq_ok_iff.mpr hentries⟩

/-- The native structure is built without a panic when every digestID can be encoded. -/
theorem nativeSigStructureBytes_ok {digestIds : List UInt32} {claimDigests : List (Bytes 32)}
    (body : MsoBodyWitness) (hids : digestIds.length = maxClaimsV1) (hdigests : claimDigests.length = maxClaimsV1)
    (hle : ∀ id ∈ digestIds, id.toNat ≤ maxDigestId) :
    ∃ bytes, nativeSigStructureBytes digestIds claimDigests body = .ok bytes := by
  obtain ⟨encoded, hencoded⟩ := Circuit.exists_forall₂ fun id hid => encodeCborUint_ok (hle id hid)
  have hencoded := Circuit.mapM_eq_ok_iff.mpr hencoded
  obtain ⟨lengths, hlengths⟩ := computeLengths_of_le (encoded_length_le hencoded hids)
  obtain ⟨entries, hentries⟩ := nativeEntries_ok hle (claimDigests.map makeTail)
  rw [nativeSigStructureBytes, if_pos hdigests]
  exact ⟨_, bind_eq_ok_iff.mpr ⟨encoded, hencoded, bind_eq_ok_iff.mpr ⟨lengths, hlengths,
    bind_eq_ok_iff.mpr ⟨entries, hentries, rfl⟩⟩⟩⟩

theorem nativeEntry_eq {t : UInt32 × List UInt8} {entry : List UInt8} (h : nativeEntry t = .ok entry) :
    ∃ key, encodeCborUint t.1.toNat = .ok key ∧ entry = key ++ t.2 := by
  obtain ⟨key, hkey, h⟩ := bind_eq_ok_iff.mp h
  exact ⟨key, hkey, (Except.ok.inj h).symm⟩

theorem length_makeTail (digest : Bytes 32) : (makeTail digest).length = entryTailLen := by
  rw [makeTail, List.length_append, digest.property]
  rfl

theorem length_entries {digestIds : List UInt32} {tails encoded entries : List (List UInt8)}
    (hlen : digestIds.length = tails.length) (htails : ∀ tail ∈ tails, tail.length = entryTailLen)
    (hencoded : digestIds.mapM (fun id => encodeCborUint id.toNat) = .ok encoded)
    (hentries : (digestIds.zip tails).mapM nativeEntry = .ok entries) :
    entries.flatten.length = (encoded.map List.length).sum + digestIds.length * entryTailLen := by
  rw [Circuit.mapM_eq_ok_iff] at hencoded hentries
  induction digestIds generalizing tails encoded entries with
  | nil =>
    cases hencoded
    cases hentries
    rfl
  | cons id ids ih =>
    cases tails with
    | nil => cases hlen
    | cons tail tails =>
      cases hencoded with
      | cons hkey hkeys =>
        cases hentries with
        | cons hentry hrest =>
          obtain ⟨key, hkey', rfl⟩ := nativeEntry_eq hentry
          have hsame := Except.ok.inj (hkey.symm.trans hkey')
          have hsum := ih (by simpa using hlen) (fun t ht => htails t (List.mem_cons_of_mem _ ht)) hkeys hrest
          have htail : tail.length = entryTailLen := htails tail List.mem_cons_self
          simp only [List.flatten_cons, List.length_append, hsum, htail, List.map_cons, List.sum_cons,
            List.length_cons, ← hsame]
          ring

/-! ## Injectivity -/

/-- Two encodings at the start of one byte string are the same. -/
theorem encode_append_inj {v v' : ℕ} {key key' rest rest' : List UInt8} (h : encodeCborUint v = .ok key)
    (h' : encodeCborUint v' = .ok key') (heq : key ++ rest = key' ++ rest') : v = v' ∧ rest = rest' := by
  have hdecode := decode_encode h rest
  rw [heq, decode_encode h' rest'] at hdecode
  obtain ⟨hv, hlen⟩ := Prod.mk.inj (Option.some.inj hdecode)
  exact ⟨hv.symm, (List.append_inj heq hlen.symm).2⟩

theorem makeTail_inj {d d' : Bytes 32} (h : makeTail d = makeTail d') : d = d' :=
  Subtype.ext (List.append_cancel_left h)

theorem length_of_mem_tails {digests : List (Bytes 32)} {tail : List UInt8} (h : tail ∈ digests.map makeTail) :
    tail.length = entryTailLen := by
  obtain ⟨d, -, rfl⟩ := List.mem_map.mp h
  exact length_makeTail d

theorem entries_inj {ts ts' : List (UInt32 × List UInt8)} {es es' : List (List UInt8)} {rest rest' : List UInt8}
    (h : ts.mapM nativeEntry = .ok es) (h' : ts'.mapM nativeEntry = .ok es') (hlen : ts.length = ts'.length)
    (htails : ∀ t ∈ ts, t.2.length = entryTailLen) (htails' : ∀ t ∈ ts', t.2.length = entryTailLen)
    (heq : es.flatten ++ rest = es'.flatten ++ rest') : ts = ts' ∧ rest = rest' := by
  rw [Circuit.mapM_eq_ok_iff] at h h'
  induction h generalizing ts' es' with
  | nil =>
    obtain rfl := List.length_eq_zero_iff.mp hlen.symm
    cases h'
    exact ⟨rfl, heq⟩
  | @cons t e ts es hentry _ ih =>
    cases h' with
    | nil => cases hlen
    | @cons t' e' ts' es' hentry' hrest' =>
      obtain ⟨key, hkey, rfl⟩ := nativeEntry_eq hentry
      obtain ⟨key', hkey', rfl⟩ := nativeEntry_eq hentry'
      simp only [List.flatten_cons, List.append_assoc] at heq
      obtain ⟨hid, heq⟩ := encode_append_inj hkey hkey' heq
      have htail := htails t List.mem_cons_self
      have htail' := htails' t' List.mem_cons_self
      obtain ⟨htailEq, heq⟩ := List.append_inj heq (by rw [htail, htail'])
      obtain ⟨rfl, hrest⟩ := ih hrest' (by simpa using hlen) (fun u hu => htails u (List.mem_cons_of_mem _ hu))
        (fun u hu => htails' u (List.mem_cons_of_mem _ hu)) heq
      have ht : t = t' := Prod.ext (UInt32.toNat_inj.mp hid) htailEq
      exact ⟨by rw [ht], hrest⟩

/-- A field of fixed width between two parts of the bytes. -/
theorem field_inj {n : ℕ} {a a' : Bytes n} {seg rest rest' : List UInt8}
    (heq : seg ++ (a.val ++ rest) = seg ++ (a'.val ++ rest')) : a = a' ∧ rest = rest' := by
  have hsplit := List.append_inj (List.append_cancel_left heq) (by rw [a.property, a'.property])
  exact ⟨Subtype.ext hsplit.1, hsplit.2⟩

theorem beforeEntries_inj {b b' : MsoBodyWitness} (heq : beforeEntries b = beforeEntries b') :
    b.signedTs = b'.signedTs ∧ b.validFromTs = b'.validFromTs ∧ b.validUntilTs = b'.validUntilTs := by
  obtain ⟨hsigned, heq⟩ := field_inj heq
  obtain ⟨hfrom, heq⟩ := field_inj heq
  obtain ⟨huntil, -⟩ := field_inj heq
  exact ⟨hsigned, hfrom, huntil⟩

theorem afterEntries_inj {b b' : MsoBodyWitness} (heq : afterEntries b = afterEntries b') :
    b.deviceX = b'.deviceX ∧ b.deviceY = b'.deviceY := by
  obtain ⟨hx, heq⟩ := field_inj heq
  obtain ⟨hy, -⟩ := field_inj heq
  exact ⟨hx, hy⟩

/-- The bytes determine what they were built from. -/
theorem nativeSigStructureBytes_inj {ids ids' : List UInt32} {digests digests' : List (Bytes 32)}
    {body body' : MsoBodyWitness} {out : List UInt8} (hids : ids.length = maxClaimsV1)
    (hids' : ids'.length = maxClaimsV1) (h : nativeSigStructureBytes ids digests body = .ok out)
    (h' : nativeSigStructureBytes ids' digests' body' = .ok out) :
    ids = ids' ∧ digests = digests' ∧ body = body' := by
  obtain ⟨e⟩ := exists_encoding h
  obtain ⟨e'⟩ := exists_encoding h'
  have hlens := computeLengths_ok e.lengths_eq
  have hlens' := computeLengths_ok e'.lengths_eq
  have heq := List.append_cancel_left (e.out_eq.symm.trans e'.out_eq)
  have heq := List.append_cancel_left (List.append_inj heq (by rw [hlens.2, hlens'.2])).2
  have heq := (List.append_inj heq (by rw [hlens.1, hlens'.1])).2
  obtain ⟨hbefore, heq⟩ := List.append_inj heq (by rw [length_beforeEntries, length_beforeEntries])
  have hcount : (ids.zip (digests.map makeTail)).length = (ids'.zip (digests'.map makeTail)).length := by
    rw [List.length_zip, List.length_zip, List.length_map, List.length_map, hids, hids', e.length_digests,
      e'.length_digests]
  obtain ⟨hzip, hafter⟩ := entries_inj e.entries_eq e'.entries_eq hcount
    (fun t ht => length_of_mem_tails (List.of_mem_zip ht).2) (fun t ht => length_of_mem_tails (List.of_mem_zip ht).2) heq
  obtain ⟨hsigned, hfrom, huntil⟩ := beforeEntries_inj hbefore
  obtain ⟨hx, hy⟩ := afterEntries_inj hafter
  have htails : ids.length = (digests.map makeTail).length := by rw [List.length_map, hids, e.length_digests]
  have htails' : ids'.length = (digests'.map makeTail).length := by rw [List.length_map, hids', e'.length_digests]
  have hfst := congrArg (List.map Prod.fst) hzip
  have hsnd := congrArg (List.map Prod.snd) hzip
  rw [List.map_fst_zip htails.le, List.map_fst_zip htails'.le] at hfst
  rw [List.map_snd_zip htails.ge, List.map_snd_zip htails'.ge] at hsnd
  have hsnd := List.map_injective_iff.mpr (fun _ _ => makeTail_inj) hsnd
  refine ⟨hfst, hsnd, ?_⟩
  cases body
  cases body'
  simp only [MsoBodyWitness.mk.injEq]
  exact ⟨hx, hy, hsigned, hfrom, huntil⟩

/-! ## Lengths -/

def payloadLenOffset : ℕ := sigStructurePrefixNoLen.length

def msoBodyLenOffset : ℕ := payloadLenOffset + 2 + payloadHeaderNoLen.length

/-- The two bytes at `offset` are the number of bytes that follow them. -/
def GovernsRest (out : List UInt8) (offset : ℕ) : Prop :=
  offset + 2 ≤ out.length ∧ bytesNat ((out.drop offset).take 2) = (out.drop (offset + 2)).length

theorem governsRest_append {head field rest : List UInt8} (hfield : field.length = 2)
    (hvalue : bytesNat field = rest.length) : GovernsRest (head ++ (field ++ rest)) head.length := by
  refine ⟨?_, ?_⟩
  · simp only [List.length_append]
    omega
  · rw [List.drop_left, List.take_left' hfield, hvalue, ← List.drop_drop, List.drop_left, List.drop_left' hfield]

theorem Encoding.lengths_out {ids : List UInt32} {digests : List (Bytes 32)} {body : MsoBodyWitness}
    {out : List UInt8} (e : Encoding ids digests body out) (hids : ids.length = maxClaimsV1) :
    GovernsRest out payloadLenOffset ∧ GovernsRest out msoBodyLenOffset ∧ out.length ≤ maxSigStructureBytes := by
  have hlens := computeLengths_ok e.lengths_eq
  have hvalues := computeLengths_eq e.lengths_eq
  have hsection := encoded_length_le e.encoded_eq hids
  have htails : ids.length = (digests.map makeTail).length := by rw [List.length_map, hids, e.length_digests]
  have hentries := length_entries htails (fun _ => length_of_mem_tails) e.encoded_eq e.entries_eq
  rw [hids] at hentries
  have hbody : (beforeEntries body ++ (e.entries.flatten ++ afterEntries body)).length =
      prefixFixedLen + ((e.encoded.map List.length).sum + maxClaimsV1 * entryTailLen) + suffixFixedLen := by
    rw [List.length_append, List.length_append, length_beforeEntries, length_afterEntries, hentries]
    omega
  have hpayload : (payloadHeaderNoLen ++ (e.lengths.1 ++ (beforeEntries body ++
      (e.entries.flatten ++ afterEntries body)))).length = bytesNat e.lengths.2 := by
    rw [List.length_append, List.length_append, hbody, hvalues.2, hlens.1]
    omega
  refine ⟨?_, ?_, ?_⟩
  · rw [e.out_eq]
    exact governsRest_append hlens.2 hpayload.symm
  · have hhead : msoBodyLenOffset = (sigStructurePrefixNoLen ++ (e.lengths.2 ++ payloadHeaderNoLen)).length := by
      rw [List.length_append, List.length_append, hlens.2]
      rfl
    have hout : out = (sigStructurePrefixNoLen ++ (e.lengths.2 ++ payloadHeaderNoLen)) ++ (e.lengths.1 ++
        (beforeEntries body ++ (e.entries.flatten ++ afterEntries body))) := by
      refine e.out_eq.trans ?_
      simp only [List.append_assoc]
    rw [hout, hhead]
    exact governsRest_append hlens.1 (hvalues.1.trans hbody.symm)
  · have htotal : maxSigStructureBytes = sigStructurePrefixNoLen.length + (2 + (payloadHeaderNoLen.length + (2 +
        (prefixFixedLen + maxDigestSectionBytes + suffixFixedLen)))) := by
      rw [maxSigStructureBytes]
      omega
    rw [e.out_eq, htotal, List.length_append, List.length_append, hpayload, hvalues.2, hlens.2]
    omega

/-- Digest IDs within the bound are encoded: both length fields hold the lengths of what follows them, the
bytes fit the buffer, and no other arguments give them. -/
theorem nativeSigStructureBytes_encoding (ids : List UInt32) (digests : List (Bytes 32)) (body : MsoBodyWitness)
    (hids : ids.length = maxClaimsV1) (hdigests : digests.length = maxClaimsV1)
    (hle : ∀ id ∈ ids, id.toNat ≤ maxDigestId) :
    ∃ out, nativeSigStructureBytes ids digests body = .ok out ∧ GovernsRest out payloadLenOffset ∧
      GovernsRest out msoBodyLenOffset ∧ out.length ≤ maxSigStructureBytes ∧
      ∀ ids' digests' body', ids'.length = maxClaimsV1 →
        nativeSigStructureBytes ids' digests' body' = .ok out → ids = ids' ∧ digests = digests' ∧ body = body' := by
  obtain ⟨out, hout⟩ := nativeSigStructureBytes_ok body hids hdigests hle
  obtain ⟨e⟩ := exists_encoding hout
  obtain ⟨hpayload, hbody, hlen⟩ := e.lengths_out hids
  exact ⟨out, hout, hpayload, hbody, hlen, fun ids' digests' body' hids' h' =>
    nativeSigStructureBytes_inj hids hids' hout h'⟩

/-- Four digest IDs of four widths over zero digests. -/
theorem nativeSigStructureBytes_encoding_widths : ∃ out,
    nativeSigStructureBytes [0, 24, 256, 65536] (List.replicate maxClaimsV1 (zeroBytes 32)) presentedBody =
      .ok out ∧ GovernsRest out payloadLenOffset := by
  have hids : ∀ id ∈ [(0 : UInt32), 24, 256, 65536], id.toNat ≤ maxDigestId := by
    intro id hid
    simp only [List.mem_cons, List.not_mem_nil, or_false] at hid
    rcases hid with rfl | rfl | rfl | rfl <;> decide
  obtain ⟨out, hout, hpayload, -⟩ := nativeSigStructureBytes_encoding [0, 24, 256, 65536]
    (List.replicate maxClaimsV1 (zeroBytes 32)) presentedBody rfl List.length_replicate hids
  exact ⟨out, hout, hpayload⟩

end Mso

end ZkCredVega
