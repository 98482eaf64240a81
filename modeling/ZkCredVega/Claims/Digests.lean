import ZkCredVega.Claims.Framing

/-!
# The digests of the signed structure and the published ones

The digest of a claim stands in an entry of the structure whose SHA-256 is signed, and its bits are
allocated a second time to be blinded and published. No constraint joins the two allocations.
-/

namespace ZkCredVega

open Circuits

open Mso

/-! ## Where the entries stand -/

/-- What the wires of a core circuit are worth: the parts of the assembled structure, the message that is
hashed, the nonce, and the digests that are blinded. -/
structure CoreAssignment where
  head : List UInt8
  entries : List SplicedEntry
  body : MsoBodyWitness
  message : List UInt8
  nonce : List UInt8
  digests : List (List UInt8)

namespace CoreAssignment

def entryStart (v : CoreAssignment) (i : ℕ) : ℕ := v.head.length + (splicedBytes (v.entries.take i)).length

def keyWidth (v : CoreAssignment) (i : ℕ) : ℕ := (v.entries[i]?.map SplicedEntry.width).getD 0

/-- The digest in entry `i` of the message: the 32 bytes behind the key and the tail's `58 20`. -/
def entryDigest (v : CoreAssignment) (i : ℕ) : List UInt8 :=
  (v.message.drop (v.entryStart i + v.keyWidth i + 2)).take 32

def slotDigest (v : CoreAssignment) (i : ℕ) : List UInt8 := v.digests.getD i []

end CoreAssignment

theorem splicedBytes_append (es es' : List SplicedEntry) :
    splicedBytes (es ++ es') = splicedBytes es ++ splicedBytes es' := List.flatMap_append

/-- The digest of an entry, at its place. -/
theorem take_drop_splicedBytes {es : List SplicedEntry} {e : SplicedEntry} {i : ℕ} (he : es[i]? = some e)
    (hkey : (e.content.take e.width).length = e.width) (htail : e.tail.length = entryTailLen)
    (head rest : List UInt8) :
    ((head ++ (splicedBytes es ++ rest)).drop (head.length + (splicedBytes (es.take i)).length + e.width + 2)).take 32 =
      e.tail.drop 2 := by
  obtain ⟨hi, hget⟩ := List.getElem?_eq_some_iff.mp he
  have hsplit : es = es.take i ++ e :: es.drop (i + 1) := by
    rw [← hget, List.getElem_cons_drop, List.take_append_drop]
  have hbytes : splicedBytes es =
      splicedBytes (es.take i) ++ (e.content.take e.width ++ (e.tail ++ splicedBytes (es.drop (i + 1)))) := by
    conv_lhs => rw [hsplit, splicedBytes_append]
    rw [splicedBytes, splicedBytes, List.flatMap_cons, SplicedEntry.bytes, List.append_assoc]
    rfl
  have hdigest : (e.tail.drop 2).length = 32 := by
    rw [List.length_drop, htail]
    rfl
  have htwo : 2 ≤ e.tail.length := by
    rw [htail]
    decide
  rw [hbytes, Nat.add_assoc, Nat.add_assoc, ← List.drop_drop, List.drop_left, List.append_assoc, ← List.drop_drop,
    List.drop_left, List.append_assoc, ← List.drop_drop, List.drop_left' hkey, List.append_assoc,
    List.drop_append_of_le_length htwo, List.take_left' hdigest]

section Digests

variable {F : Type} [Field F]

structure FrameWires.Reads (w : FrameWires F) (v : CoreAssignment) : Prop where
  mso : w.mso.Holds .any v.head v.entries v.body
  hashes : w.Hashes v.message
  nonceBits : Boolean.ReadsAll w.nonceBits (bytesBits v.nonce)
  digests : List.Forall₂ (fun bits digest => Boolean.ReadsAll bits (bytesBits digest)) w.digests v.digests
  length_digests : v.digests.length = maxClaimsV1
  length_digest : ∀ digest ∈ v.digests, digest.length = 32

/-! ## What is published -/

theorem readsBytes_unique {out : List (List (Boolean F))} {xs ys : List (List UInt8)}
    (hx : List.Forall₂ (fun bits bytes => Boolean.ReadsAll bits (bytesBits bytes)) out xs)
    (hy : List.Forall₂ (fun bits bytes => Boolean.ReadsAll bits (bytesBits bytes)) out ys) : xs = ys := by
  induction hx generalizing ys with
  | nil =>
    cases hy
    rfl
  | cons h _ ih =>
    cases hy with
    | cons h' ht => rw [bytesBits_inj (h.unique h'), ih ht]

theorem runs_exposeDigestIdBits {ids : List UInt32} {ins : List F} {bits : List (List (Boolean F))}
    (h : (ids.mapM exposeDigestIdBits).Runs ins bits) : ins.length = ids.length * 32 := by
  induction ids generalizing ins bits with
  | nil =>
    obtain ⟨rfl, -⟩ := Circuit.runs_pure.mp h
    rfl
  | cons id ids ih =>
    rw [List.mapM_cons] at h
    obtain ⟨i, j, first, rfl, hfirst, h⟩ := Circuit.runs_bind.mp h
    obtain ⟨j', k, rest, rfl, hrest, h⟩ := Circuit.runs_bind.mp h
    obtain ⟨rfl, -⟩ := Circuit.runs_pure.mp h
    obtain ⟨idBits, -, ⟨xs, hxs, hreads⟩, hfirst⟩ := hfirst.bind_elim Boolean.ensures_allocBits
    obtain ⟨rest', hi, hfirst⟩ := Runs.inputizeBits_elim hfirst hreads
    obtain ⟨rfl, -⟩ := Circuit.runs_pure.mp hfirst
    rw [hi]
    simp only [List.length_append, List.length_map, List.length_nil, hxs, ih hrest, u32Bits, List.length_range,
      List.length_cons]
    omega

/-- The published values of slot `i`'s blinded digest. -/
def publishedDigest (ins : List F) (i : ℕ) : List F :=
  ((ins.drop (coreLen - maxClaimsV1 * 256)).drop (256 * i)).take 256

omit [Field F] in
theorem take_drop_flatMap {α β : Type} {f : α → List β} {xs : List α} {n i : ℕ} {x : α}
    (hf : ∀ x, (f x).length = n) (hx : xs[i]? = some x) (rest : List β) :
    ((xs.flatMap f ++ rest).drop (n * i)).take n = f x := by
  induction xs generalizing i with
  | nil => cases hx
  | cons y ys ih =>
    rw [List.flatMap_cons, List.append_assoc]
    cases i with
    | zero =>
      have hyx : y = x := Option.some.inj hx
      rw [Nat.mul_zero, List.drop_zero, List.take_left' (hf y), hyx]
    | succ i =>
      rw [Nat.mul_succ, Nat.add_comm, ← List.drop_drop, List.drop_left' (hf y)]
      exact ih hx

theorem publishedDigest_eq {nonce : List UInt8} {ds : List (List UInt8)} {pre rest : List F} {i : ℕ}
    (hpre : pre.length = coreLen - maxClaimsV1 * 256) (hlen : ds.length = maxClaimsV1) (hi : i < maxClaimsV1) :
    publishedDigest (pre ++ (ds.flatMap (blindedBits nonce) ++ rest)) i = blindedBits nonce (ds.getD i []) := by
  have hget : ds[i]? = some (ds.getD i []) := by
    rw [List.getD_eq_getElem?_getD, List.getElem?_eq_getElem (show i < ds.length by omega)]
    rfl
  rw [publishedDigest, List.drop_left' hpre, take_drop_flatMap (length_blindedBits nonce) hget]

/-- The wires of every run; the blinded digests are published at their place. -/
theorem runs_synthesizeFrame [LargeChar F] (gadget : CompressionGadget F) (hash : HashGadget F)
    {verifyEcdsa : EcdsaCheck F F} {c : MdocCoreCircuit F} {ins : List F} {w : FrameWires F}
    (hids : c.digestIds.length = maxClaimsV1)
    (h : (c.synthesizeFrame gadget.compress hash.sha256 verifyEcdsa).Runs ins w) :
    ∃ v, w.Reads v ∧ ∀ i < maxClaimsV1, publishedDigest ins i = blindedBits v.nonce (v.slotDigest i) := by
  obtain ⟨i1, j1, signed, rfl, hsigned, h⟩ := Circuit.runs_bind.mp h
  obtain ⟨hdigests, head, es, body, nonce, len, hreads⟩ := runs_synthesizeSigned gadget hids hsigned
  obtain ⟨i2, j2, ids, rfl, hidRun, h⟩ := Circuit.runs_bind.mp h
  obtain ⟨i3, j3, out, rfl, hout, h⟩ := Circuit.runs_bind.mp h
  obtain ⟨i4, j4, _, rfl, -, h⟩ := Circuit.runs_bind.mp h
  obtain ⟨rfl, rfl⟩ := Circuit.runs_pure.mp h
  obtain ⟨ds, hlen, hall, hdreads, rfl⟩ := runs_exposeDigests hash hreads.nonceBits hout
  have hslots := hlen.trans hdigests
  refine ⟨⟨head, es, body, _, nonce.val, ds⟩, ⟨hreads.mso, ⟨_, len, hreads.mso.bits, hreads.mask, hreads.digest, rfl⟩,
    hreads.nonceBits, hdreads, hslots, hall⟩, fun i hi => ?_⟩
  rw [← List.append_assoc]
  refine publishedDigest_eq ?_ hslots hi
  rw [List.length_append, hreads.length_ins, runs_exposeDigestIdBits hidRun, hids]
  rfl

def Collision (a b : List UInt8) : Prop := a ≠ b ∧ Sha256.hash a = Sha256.hash b

theorem blindedBits_inj {nonce a b : List UInt8} (h : (blindedBits nonce a : List F) = blindedBits nonce b) :
    Sha256.hash (a ++ nonce) = Sha256.hash (b ++ nonce) := bytesBits_inj (map_bitValue_inj h)

/-- In every satisfying assignment of the core circuit a slot publishes the blinded digest of its entry in the
structure whose hash is signed exactly when the digest it blinds is that entry's, or the two collide under SHA-256. -/
theorem coreCircuit_publishedDigest_iff [LargeChar F] (gadget : CompressionGadget F) (hash : HashGadget F)
    (verifyEcdsa : EcdsaCheck F F) (c : MdocCoreCircuit F) (hids : c.digestIds.length = maxClaimsV1) :
    c.precommitted gadget.compress hash.sha256 verifyEcdsa =
      (fun _ => []) <$> c.synthesizeFrame gadget.compress hash.sha256 verifyEcdsa ∧
    ∀ ins w, (c.synthesizeFrame gadget.compress hash.sha256 verifyEcdsa).Runs ins w → (∃ v, w.Reads v) ∧
      ∀ v, w.Reads v → ∀ i < maxClaimsV1, publishedDigest ins i = blindedBits v.nonce (v.entryDigest i) ↔
        v.slotDigest i = v.entryDigest i ∨ Collision (v.slotDigest i ++ v.nonce) (v.entryDigest i ++ v.nonce) := by
  refine ⟨c.precommitted_eq _ _ _, fun ins w h => ?_⟩
  obtain ⟨u, hu, hpublished⟩ := runs_synthesizeFrame gadget hash hids h
  refine ⟨⟨u, hu⟩, fun v hv i hi => ?_⟩
  have hnonce : u.nonce = v.nonce := bytesBits_inj (hu.nonceBits.unique hv.nonceBits)
  have hdigests : u.slotDigest i = v.slotDigest i := by
    rw [CoreAssignment.slotDigest, readsBytes_unique hu.digests hv.digests]
    rfl
  rw [hpublished i hi, hnonce, hdigests]
  by_cases heq : v.slotDigest i = v.entryDigest i
  · rw [heq]
    exact ⟨fun _ => Or.inl rfl, fun _ => rfl⟩
  · have hne : v.slotDigest i ++ v.nonce ≠ v.entryDigest i ++ v.nonce := fun h => heq (List.append_cancel_right h)
    constructor
    · intro hbits
      exact Or.inr ⟨hne, blindedBits_inj hbits⟩
    · rintro (h | h)
      · exact absurd h heq
      · rw [blindedBits, blindedBits, h.2]

end Digests

/-! ## A digest that the signature does not cover -/

/-- The presentation's wires, whatever digests are blinded; its entries hold the claims' digests. -/
theorem exists_reads_presentedCore {ds : List (List UInt8)} (hds : ds.length = maxClaimsV1)
    (hall : ∀ d ∈ ds, d.length = 32) : ∃ ins w v,
    (presentedCore.synthesizeFrame readingGadget.compress readingHash.sha256 verifyDigestBits).Runs ins w ∧
      w.Reads v ∧ v.nonce = presentedNonce.val ∧ v.digests = ds ∧
      ∀ i d, presentedCore.claimDigests[i]? = some d → v.entryDigest i = d.val := by
  obtain ⟨native, ins, w, hrun, hhashes, ⟨head, es, hmso, htails, hnative⟩, hnonce, hdigests⟩ :=
    exists_runs_presentedFrame hds hall
  refine ⟨ins, w, ⟨head, es, _, native, presentedNonce.val, ds⟩, hrun,
    ⟨hmso.any, hhashes, hnonce, hdigests, hds, hall⟩, rfl, rfl, fun i d hd => ?_⟩
  have hmap := congrArg (·[i]?) htails
  simp only [List.getElem?_map, hd, Option.map_some] at hmap
  obtain ⟨e, he, htail⟩ := Option.map_eq_some_iff.mp hmap
  obtain ⟨t, -, ht⟩ := forall₂_right hmso.entries (List.mem_of_getElem? he)
  have hdigest := take_drop_splicedBytes he ht.length_key ht.length_tail head (suffixBytes presentedCore.msoBody)
  rw [← List.append_assoc, ← hnative, htail] at hdigest
  rw [CoreAssignment.entryDigest, CoreAssignment.keyWidth, he]
  exact hdigest

/-- The honest run publishes what is signed. -/
theorem coreCircuit_publishedDigest_iff_presented : ∃ (ins : List Scalar) (w : FrameWires Scalar) (v : CoreAssignment),
    (presentedCore.synthesizeFrame readingGadget.compress readingHash.sha256 verifyDigestBits).Runs ins w ∧
      w.Reads v ∧ ∀ i < maxClaimsV1, publishedDigest ins i = blindedBits v.nonce (v.entryDigest i) := by
  obtain ⟨ins, w, v, hrun, hv, -, hdigests, hentry⟩ := exists_reads_presentedCore
    (show (presentedCore.claimDigests.map Subtype.val).length = maxClaimsV1 by rw [List.length_map, length_presentedCore.2])
    fun d hd => by
      obtain ⟨digest, -, rfl⟩ := List.mem_map.mp hd
      exact digest.property
  have hiff := ((coreCircuit_publishedDigest_iff readingGadget readingHash verifyDigestBits
    presentedCore length_presentedCore.1).2 ins w hrun).2
  refine ⟨ins, w, v, hrun, hv, fun i hi => (hiff v hv i hi).mpr (Or.inl ?_)⟩
  have hget : presentedCore.claimDigests[i]? = some presentedCore.claimDigests[i] :=
    List.getElem?_eq_getElem (by rw [length_presentedCore.2]; exact hi)
  rw [CoreAssignment.slotDigest, hdigests, hentry i _ hget, List.getD_eq_getElem?_getD, List.getElem?_map, hget]
  rfl

theorem onesDigest_blinded_ne : Sha256.hash (List.replicate 32 1 ++ presentedNonce.val) ≠
    Sha256.hash (Sha256.hash [] ++ presentedNonce.val) := by
  decide +kernel

/-- Beside a valid signature, the prover blinds digests of ones. -/
theorem coreCircuit_otherDigest : ¬∀ (c : MdocCoreCircuit Scalar) (ins : List Scalar) (w : FrameWires Scalar),
    (c.synthesizeFrame readingGadget.compress readingHash.sha256 verifyDigestBits).Runs ins w →
      ∀ v, w.Reads v → ∀ i < maxClaimsV1, publishedDigest ins i = blindedBits v.nonce (v.entryDigest i) := by
  intro hall
  obtain ⟨ins, w, v, hrun, hv, hnonce, hdigests, hentry⟩ := exists_reads_presentedCore
    (show (List.replicate maxClaimsV1 (List.replicate 32 (1 : UInt8))).length = maxClaimsV1 from List.length_replicate)
    fun d hd => by
      rw [List.eq_of_mem_replicate hd, List.length_replicate]
  obtain ⟨u, hu, hpublished⟩ := runs_synthesizeFrame readingGadget readingHash length_presentedCore.1 hrun
  have hslots := readsBytes_unique hu.digests hv.digests
  have hunonce : u.nonce = v.nonce := bytesBits_inj (hu.nonceBits.unique hv.nonceBits)
  have hzero : 0 < maxClaimsV1 := by decide
  have hsame := (hpublished 0 hzero).symm.trans (hall presentedCore ins w hrun v hv 0 hzero)
  rw [CoreAssignment.slotDigest, hslots, hdigests, hunonce, hnonce, hentry 0 (claimDigestBytes []) rfl] at hsame
  exact onesDigest_blinded_ne (blindedBits_inj hsame)

end ZkCredVega
