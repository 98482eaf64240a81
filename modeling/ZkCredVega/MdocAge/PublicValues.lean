import ZkCredVega.Claims.Basic
import ZkCredVega.MdocAge.Folded

/-!
# The age proof's public values

`public_values` and `check_public_values` of `mdoc_age_circuit.rs`. The prover
publishes the `docType` and namespace entries as masked windows of the signed
bytes; the verifier parses them back and compares everything it asked for.
-/

namespace ZkCredVega

open Circuits MdocResult

def publicFromPrecommitted : ℕ := 2 + anchorTextPacks + anchorTextPacks + 2

def publicInputLen : ℕ := publicFromPrecommitted + 10 + timestampLen + 2 + 1

/-- `bytes.get(start..end)`. -/
def slice (bytes : List UInt8) (start stop : ℕ) : Option (List UInt8) :=
  if start ≤ stop ∧ stop ≤ bytes.length then some ((bytes.take stop).drop start) else none

def utf8 (s : String) : List UInt8 := s.toUTF8.data.toList

/-- `String::from_utf8`. -/
def fromUtf8 (bytes : List UInt8) : Option String := String.fromUTF8? ⟨bytes.toArray⟩

def namespacePrefixLen (nameSpace : List UInt8) (numEntries : ℕ) : Outcome ℕ := do
  if numEntries ≥ 256 then .error .unsatisfiable
  else do
    let header ← tstrHeader nameSpace.length
    pure (header.length + nameSpace.length + (mapHeader numEntries).length)

def docTypePrefixLen (docType : List UInt8) : Outcome ℕ := do
  let header ← tstrHeader docType.length
  pure (docTypeKey.length + header.length + docType.length)

/-- The ten date characters the circuit compares; `none` when the witness is malformed. -/
def MdocAgeWitness.birthDateBytes (w : MdocAgeWitness) : Option (List UInt8) :=
  let start := w.elementValueKeyOffset + w.dateEncoding.dateRel
  if start ≥ usizeBound ∨ start + 10 ≥ usizeBound then none
  else slice w.itemBytes start (start + 10)

section Values

variable {F : Type} [Field F]

def pack16 (bytes : List UInt8) : List F :=
  (chunks 16 bytes).map fun c => c.foldl (fun a b => a * 256 + (b.toNat : F)) 0

def byteValues (bytes : List UInt8) : List F := bytes.map fun b => (b.toNat : F)

/-- The window of the signed bytes at an anchor, zero past its first `len` bytes. -/
def maskedWindow (sigStructure : List UInt8) (anchor len : ℕ) : Outcome (List F) := do
  if anchor + anchorTextWindow ≥ usizeBound then .error .unsatisfiable
  else do
    let bytes ← okOr (slice sigStructure anchor (anchor + anchorTextWindow))
    if len > anchorTextWindow then .error .unsatisfiable
    else pure (pack16 (bytes.take len ++ List.replicate (bytes.length - len) 0))

/-- What one presentation publishes; of the issuer's signature only the key is read here. -/
structure MdocAgeCircuit (F : Type) where
  witness : MdocAgeWitness
  qx : F
  qy : F
  cutoff : Bytes 10
  now : Bytes timestampLen
  deviceAuthDigest : Bytes 32

/-- The predicate's own value: the issuer's date is no later than the cutoff. -/
def MdocAgeCircuit.oldEnough (c : MdocAgeCircuit F) : Bool :=
  match c.witness.birthDateBytes with
  | some date => date ≤ c.cutoff.val
  | none => false

def MdocAgeCircuit.publicValues (c : MdocAgeCircuit F) : Outcome (List F) := do
  let nsPrefix ← namespacePrefixLen c.witness.nameSpace c.witness.numEntries
  let docPrefix ← docTypePrefixLen c.witness.docType
  let doc ← maskedWindow c.witness.sigStructure c.witness.landmarks.docTypeKey docPrefix
  let ns ← maskedWindow c.witness.sigStructure c.witness.landmarks.namespaceKey nsPrefix
  pure ([c.qx, c.qy] ++ doc ++ ns ++ [(nsPrefix : F), (c.witness.numEntries : F)] ++
    byteValues c.cutoff.val ++ byteValues c.now.val ++ pack16 c.deviceAuthDigest.val ++
    [bitValue c.oldEnough])

/-! ## The verifier -/

/-- Which issuer keys are accepted, as big-endian affine coordinates. -/
inductive IssuerPolicy where
  | only (keys : List (Bytes 32 × Bytes 32))
  | callerChecksTrustList

/-- What the verifier demanded. -/
structure ExpectedContext where
  deviceAuthDigest : Bytes 32
  cutoff : Bytes 10
  now : Bytes timestampLen
  issuers : IssuerPolicy
  accepted : List (String × String)

structure VerifiedAgeProof (F : Type) where
  issuerQx : F
  issuerQy : F
  docType : String
  nameSpace : String

/-- The low `n` bytes of an element's representation, most significant first. -/
def reprBytes [ToRepr F] (n : ℕ) (p : F) : List UInt8 :=
  ((List.range n).map fun i => UInt8.ofNat (ToRepr.toNat p / 256 ^ i)).reverse

/-- The bytes of packed elements, when `left` bytes remain. -/
def unpackPacks [ToRepr F] : ℕ → List F → List UInt8
  | _, [] => []
  | left, p :: packs => reprBytes (min left 16) p ++ unpackPacks (left - min left 16) packs

def unpackWindow [ToRepr F] (packs : List F) : List UInt8 := unpackPacks anchorTextWindow packs

/-- Where a text string starts and how long it is, by its header. -/
def tstrStart (bytes : List UInt8) (pos : ℕ) (header : UInt8) : Option (ℕ × ℕ) :=
  if 0x60 ≤ header ∧ header < 0x78 then some (pos + 1, (header &&& 0x1f).toNat)
  else if header = 0x78 then bytes[pos + 1]?.map fun len => (pos + 2, len.toNat)
  else none

/-- A canonical CBOR text string, and the byte after it. -/
def readTstr (bytes : List UInt8) (pos : ℕ) : Option (String × ℕ) := do
  let header ← bytes[pos]?
  let t ← tstrStart bytes pos header
  -- the one-byte form is mandatory below 24
  if t.1 = pos + 2 ∧ t.2 < 24 then none
  else do
    let text ← slice bytes t.1 (t.1 + t.2)
    let s ← fromUtf8 text
    pure (s, t.1 + t.2)

/-- The length of the map header at a position, and its count. -/
def readMapHeader (bytes : List UInt8) (pos : ℕ) : Option (ℕ × ℕ) := do
  let header ← bytes[pos]?
  if 0xa0 ≤ header ∧ header ≤ 0xb7 then pure (1, (header &&& 0x1f).toNat)
  else if header = 0xb8 then bytes[pos + 1]?.map fun n => (2, n.toNat)
  else none

/-- `ok_or_else(reject)`. -/
def okOrReject {α : Type} : Option α → MdocResult α
  | some a => .ok a
  | none => .error (.circuit .unsatisfiable)

/-- `nat_to_f` of a coordinate: the decimal digits are read in the field. -/
def coordinate (bytes : Bytes 32) : F := (bytesNat bytes.val : F)

def IssuerPolicy.admits [DecidableEq F] (policy : IssuerPolicy) (qx qy : F) : Bool :=
  match policy with
  | only keys => keys.any fun key => coordinate key.1 = qx ∧ coordinate key.2 = qy
  | callerChecksTrustList => true

def checkPublicValues [DecidableEq F] [ToRepr F] (v : List F) (expected : ExpectedContext) :
    MdocResult (VerifiedAgeProof F) := do
  ensure (v.length = publicInputLen)
  let issuerQx := v.getD 0 0
  let issuerQy := v.getD 1 0
  let docPacks := (v.drop 2).take anchorTextPacks
  let nsPacks := (v.drop (2 + anchorTextPacks)).take anchorTextPacks
  let nsPrefixLen := v.getD (2 + anchorTextPacks + anchorTextPacks) 0
  let numEntries := v.getD (2 + anchorTextPacks + anchorTextPacks + 1) 0
  let rest := v.drop publicFromPrecommitted
  ensure (rest.getD (12 + timestampLen) 0 = 1)
  ensure ((rest.drop (10 + timestampLen)).take 2 = pack16 expected.deviceAuthDigest.val)
  ensure (rest.take 10 = byteValues expected.cutoff.val)
  ensure ((rest.drop 10).take timestampLen = byteValues expected.now.val)
  let docBytes := unpackWindow docPacks
  ensure (slice docBytes 0 8 = some docTypeKey)
  let doc ← okOrReject (readTstr docBytes 8)
  let nsBytes := unpackWindow nsPacks
  let ns ← okOrReject (readTstr nsBytes 0)
  let entries ← okOrReject (readMapHeader nsBytes ns.2)
  ensure (¬(entries.1 = 2 ∧ entries.2 < 24))
  ensure (nsPrefixLen = ((ns.2 + entries.1 : ℕ) : F))
  ensure (numEntries = (entries.2 : F))
  ensure (expected.accepted.any fun pair => pair.1 = doc.1 ∧ pair.2 = ns.1)
  ensure (expected.issuers.admits issuerQx issuerQy)
  pure { issuerQx, issuerQy, docType := doc.1, nameSpace := ns.1 }

end Values

/-! ## Reading back what is published -/

theorem fromUtf8_utf8 (s : String) : fromUtf8 (utf8 s) = some s := by
  have hbytes : (⟨s.toUTF8.data.toList.toArray⟩ : ByteArray) = s.toUTF8 := by simp
  rw [fromUtf8, utf8, hbytes, String.fromUTF8?, dif_pos (show s.toUTF8.IsValidUTF8 from s.isValidUTF8)]
  rfl

theorem slice_append (pre text rest : List UInt8) :
    slice (pre ++ text ++ rest) pre.length (pre.length + text.length) = some text := by
  rw [slice, if_pos (by simp), ← List.length_append, List.take_left' rfl, List.drop_left' rfl]

theorem shortHeader (major : UInt8) (hmajor : major = 0x60 ∨ major = 0xa0) {n : ℕ} (hn : n < 24) :
    major ≤ (major ||| UInt8.ofNat n) ∧ (major ||| UInt8.ofNat n) < major + 24 ∧
      ((major ||| UInt8.ofNat n) &&& 0x1f).toNat = n := by
  have h : ∀ major ∈ [(0x60 : UInt8), 0xa0], ∀ n < 24, major ≤ (major ||| UInt8.ofNat n) ∧
      (major ||| UInt8.ofNat n) < major + 24 ∧ ((major ||| UInt8.ofNat n) &&& 0x1f).toNat = n := by
    decide +kernel
  exact h major (by simpa using hmajor) n hn

theorem readTstr_eq {bytes text : List UInt8} {pos start len : ℕ} {header : UInt8} {s : String}
    (hheader : bytes[pos]? = some header) (hstart : tstrStart bytes pos header = some (start, len))
    (hcanonical : ¬(start = pos + 2 ∧ len < 24)) (htext : slice bytes start (start + len) = some text)
    (hs : fromUtf8 text = some s) : readTstr bytes pos = some (s, start + len) := by
  unfold readTstr
  rw [hheader]
  show (tstrStart bytes pos header >>= fun t => _) = _
  rw [hstart]
  show (if start = pos + 2 ∧ len < 24 then none else _) = _
  rw [if_neg hcanonical, htext]
  show (fromUtf8 text >>= fun s => _) = _
  rw [hs]
  rfl

theorem getElem?_append_add {α : Type} (pre xs : List α) (i : ℕ) :
    (pre ++ xs)[pre.length + i]? = xs[i]? := by
  rw [List.getElem?_append_right (by omega), Nat.add_sub_cancel_left]

theorem readTstr_append {header : List UInt8} (pre rest : List UInt8) (s : String)
    (hheader : tstrHeader (utf8 s).length = .ok header) :
    readTstr (pre ++ (header ++ utf8 s) ++ rest) pre.length =
      some (s, pre.length + (header ++ utf8 s).length) := by
  unfold tstrHeader at hheader
  by_cases hlarge : (utf8 s).length ≥ 256
  · rw [if_pos hlarge] at hheader
    cases hheader
  rw [if_neg hlarge] at hheader
  have htext := slice_append (pre ++ header) (utf8 s) rest
  rw [List.append_assoc pre, List.length_append] at htext
  have hat := getElem?_append_add pre (header ++ utf8 s ++ rest)
  rw [← List.append_assoc] at hat
  rw [List.length_append, ← Nat.add_assoc]
  by_cases hshort : (utf8 s).length < 24
  · rw [if_pos hshort] at hheader
    obtain rfl := Except.ok.inj hheader
    obtain ⟨hlo, hhi, hlen⟩ := shortHeader 0x60 (.inl rfl) hshort
    apply readTstr_eq (hat 0) ?_ (by simp) htext (fromUtf8_utf8 s)
    rw [tstrStart, if_pos ⟨hlo, hhi⟩, hlen]
    rfl
  · rw [if_neg hshort] at hheader
    obtain rfl := Except.ok.inj hheader
    have hlen : (UInt8.ofNat (utf8 s).length).toNat = (utf8 s).length := by
      rw [UInt8.toNat_ofNat']
      omega
    apply readTstr_eq (hat 0) ?_ (by omega) htext (fromUtf8_utf8 s)
    rw [tstrStart, if_neg (by decide), if_pos rfl, hat 1]
    simp [hlen]

theorem readMapHeader_append {n : ℕ} (pre rest : List UInt8) (hn : n < 256) :
    readMapHeader (pre ++ mapHeader n ++ rest) pre.length = some ((mapHeader n).length, n) := by
  have hat := getElem?_append_add pre (mapHeader n ++ rest)
  rw [← List.append_assoc] at hat
  have h0 := hat 0
  have h1 := hat 1
  unfold mapHeader at h0 h1 ⊢
  unfold readMapHeader
  by_cases hshort : n < 24
  · rw [if_pos hshort] at h0 ⊢
    obtain ⟨hlo, hhi, hlen⟩ := shortHeader 0xa0 (.inr rfl) hshort
    have hle : (0xa0 ||| UInt8.ofNat n) ≤ 0xb7 := Nat.le_of_lt_succ hhi
    rw [Nat.add_zero] at h0
    rw [h0]
    show (if 0xa0 ≤ (0xa0 ||| UInt8.ofNat n) ∧ (0xa0 ||| UInt8.ofNat n) ≤ 0xb7 then _ else _) = _
    rw [if_pos ⟨hlo, hle⟩, hlen]
    rfl
  · rw [if_neg hshort] at h0 h1 ⊢
    have hlen : (UInt8.ofNat n).toNat = n := by
      rw [UInt8.toNat_ofNat']
      omega
    rw [Nat.add_zero] at h0
    rw [h0, h1]
    show some (2, (UInt8.ofNat n).toNat) = _
    rw [hlen]
    rfl

section Packs

variable {F : Type} [Field F]

theorem foldl_pack (c : List UInt8) (a : F) :
    c.foldl (fun a b => a * 256 + (b.toNat : F)) a = a * 256 ^ c.length + (bytesNat c : F) := by
  induction c generalizing a with
  | nil => simp [bytesNat]
  | cons b c ih =>
    rw [List.foldl_cons, ih, ← List.singleton_append, bytesNat_append]
    have hb : bytesNat [b] = b.toNat := by simp [bytesNat, beNat]
    rw [hb, List.length_append]
    push_cast
    simp only [List.length_cons, List.length_nil]
    ring

theorem ofDigits_range (v n : ℕ) :
    Nat.ofDigits 256 ((List.range n).map fun i => v / 256 ^ i % 256) = v % 256 ^ n := by
  induction n with
  | zero => simp [Nat.mod_one]
  | succ n ih =>
    rw [List.range_succ, List.map_append, Nat.ofDigits_append, ih, List.length_map, List.length_range,
      Nat.mod_pow_succ]
    simp

variable [ToRepr F]

omit [Field F] in
theorem length_reprBytes (n : ℕ) (p : F) : (reprBytes n p).length = n := by simp [reprBytes]

omit [Field F] in
theorem bytesNat_reprBytes (n : ℕ) (p : F) : bytesNat (reprBytes n p) = ToRepr.toNat p % 256 ^ n := by
  rw [← ofDigits_range, bytesNat, beNat, reprBytes, List.map_reverse, List.reverse_reverse, List.map_map]
  congr 1

variable [LawfulToRepr F]

theorem reprBytes_bytesNat {bs : List UInt8} (h : bs.length ≤ 16) :
    reprBytes bs.length (bytesNat bs : F) = bs := by
  have hlt := bytesNat_lt bs
  have hpow : 256 ^ bs.length ≤ 256 ^ 16 := Nat.pow_le_pow_right (by decide) h
  have hbound : (256 : ℕ) ^ 16 < 2 ^ 255 := by norm_num
  apply bytesNat_inj (length_reprBytes _ _)
  rw [bytesNat_reprBytes, LawfulToRepr.toNat_natCast (by omega), Nat.mod_eq_of_lt hlt]

theorem unpackPacks_pack16 (bs : List UInt8) : unpackPacks bs.length (pack16 bs : List F) = bs := by
  induction hlen : bs.length using Nat.strong_induction_on generalizing bs with
  | _ n ih =>
    by_cases hnil : bs = []
    · subst hnil
      rw [pack16, chunks_nil (by decide)]
      rfl
    · have hpos := List.length_pos_iff.mpr hnil
      have hdrop := ih (bs.drop 16).length (by rw [List.length_drop]; omega) (bs.drop 16) rfl
      have htake : (bs.take 16).length = min n 16 := by rw [List.length_take, hlen, Nat.min_comm]
      rw [pack16, chunks_of_ne_nil (by decide) hnil, List.map_cons, unpackPacks, ← pack16, foldl_pack,
        zero_mul, zero_add, ← htake, reprBytes_bytesNat (by omega), htake,
        show n - min n 16 = (bs.drop 16).length by rw [List.length_drop]; omega, hdrop,
        List.take_append_drop]

theorem pack16_inj {as bs : List UInt8} (hlen : as.length = bs.length)
    (h : (pack16 as : List F) = pack16 bs) : as = bs := by
  rw [← unpackPacks_pack16 (F := F) as, h, hlen, unpackPacks_pack16]

end Packs

/-! ## Honest values -/

/-- The landmarks point at the literals of the signed bytes: at the `docType` entry, and at the
namespace with its entry count. -/
structure PointsAtLiterals (w : MdocAgeWitness) (docType nameSpace : String) : Prop where
  docType_eq : w.docType = utf8 docType
  nameSpace_eq : w.nameSpace = utf8 nameSpace
  docText : ∀ header, tstrHeader w.docType.length = .ok header →
    docTypeKey ++ (header ++ w.docType) <+: w.sigStructure.drop w.landmarks.docTypeKey
  nsText : ∀ header, tstrHeader w.nameSpace.length = .ok header →
    header ++ w.nameSpace ++ mapHeader w.numEntries <+: w.sigStructure.drop w.landmarks.namespaceKey

section Honest

variable {F : Type} [Field F]

/-- A window of the anchor's width that starts with a text and is zero after it. -/
def textWindow (text : List UInt8) : List UInt8 :=
  text ++ List.replicate (anchorTextWindow - text.length) 0

theorem maskedWindow_eq {sigStructure text : List UInt8} {anchor : ℕ} {packs : List F}
    (htext : text <+: sigStructure.drop anchor)
    (h : maskedWindow sigStructure anchor text.length = .ok packs) :
    text.length ≤ anchorTextWindow ∧ packs = pack16 (textWindow text) := by
  unfold maskedWindow at h
  by_cases hend : anchor + anchorTextWindow ≥ usizeBound
  · rw [if_pos hend] at h
    cases h
  rw [if_neg hend] at h
  obtain ⟨bytes, hbytes, h⟩ := bind_eq_ok_iff.mp h
  by_cases hlen : text.length > anchorTextWindow
  · rw [if_pos hlen] at h
    cases h
  rw [if_neg hlen] at h
  refine ⟨by omega, ?_⟩
  unfold slice at hbytes
  by_cases hin : anchor ≤ anchor + anchorTextWindow ∧ anchor + anchorTextWindow ≤ sigStructure.length
  · rw [if_pos hin] at hbytes
    obtain rfl := Except.ok.inj hbytes
    have hbytes : (sigStructure.take (anchor + anchorTextWindow)).drop anchor =
        (sigStructure.drop anchor).take anchorTextWindow := by
      rw [List.drop_take, Nat.add_sub_cancel_left]
    have hlength : ((sigStructure.drop anchor).take anchorTextWindow).length = anchorTextWindow := by
      rw [List.length_take, List.length_drop]
      omega
    have htake : (sigStructure.drop anchor).take text.length = text :=
      (List.prefix_iff_eq_take.mp htext).symm
    rw [← Except.ok.inj h, hbytes, hlength, List.take_take, Nat.min_eq_left (by omega), htake]
    rfl
  · rw [if_neg hin] at hbytes
    cases hbytes

theorem publicValues_eq {c : MdocAgeCircuit F} {docType nameSpace : String} {v : List F}
    (hplaced : PointsAtLiterals c.witness docType nameSpace) (hv : c.publicValues = .ok v) :
    ∃ docHeader nsHeader docText nsText, tstrHeader (utf8 docType).length = .ok docHeader ∧
      tstrHeader (utf8 nameSpace).length = .ok nsHeader ∧
      docText = docTypeKey ++ (docHeader ++ utf8 docType) ∧
      nsText = nsHeader ++ utf8 nameSpace ++ mapHeader c.witness.numEntries ∧
      docText.length ≤ anchorTextWindow ∧ nsText.length ≤ anchorTextWindow ∧
      c.witness.numEntries < 256 ∧
      v = [c.qx, c.qy] ++ pack16 (textWindow docText) ++ pack16 (textWindow nsText) ++
        [(nsText.length : F), (c.witness.numEntries : F)] ++ byteValues c.cutoff.val ++
        byteValues c.now.val ++ pack16 c.deviceAuthDigest.val ++ [bitValue c.oldEnough] := by
  unfold MdocAgeCircuit.publicValues at hv
  obtain ⟨nsPrefix, hnsPrefix, hv⟩ := bind_eq_ok_iff.mp hv
  obtain ⟨docPrefix, hdocPrefix, hv⟩ := bind_eq_ok_iff.mp hv
  obtain ⟨doc, hdoc, hv⟩ := bind_eq_ok_iff.mp hv
  obtain ⟨ns, hns, hv⟩ := bind_eq_ok_iff.mp hv
  unfold namespacePrefixLen at hnsPrefix
  by_cases hentries : c.witness.numEntries ≥ 256
  · rw [if_pos hentries] at hnsPrefix
    cases hnsPrefix
  rw [if_neg hentries] at hnsPrefix
  obtain ⟨nsHeader, hnsHeader, hnsPrefix⟩ := bind_eq_ok_iff.mp hnsPrefix
  obtain ⟨docHeader, hdocHeader, hdocPrefix⟩ := bind_eq_ok_iff.mp hdocPrefix
  have hdocText := hplaced.docText docHeader hdocHeader
  have hnsText := hplaced.nsText nsHeader hnsHeader
  rw [hplaced.docType_eq] at hdocHeader hdocPrefix hdocText
  rw [hplaced.nameSpace_eq] at hnsHeader hnsPrefix hnsText
  have hdocLen : docPrefix = (docTypeKey ++ (docHeader ++ utf8 docType)).length := by
    rw [← Except.ok.inj hdocPrefix, List.length_append, List.length_append, Nat.add_assoc]
  have hnsLen : nsPrefix = (nsHeader ++ utf8 nameSpace ++ mapHeader c.witness.numEntries).length := by
    rw [← Except.ok.inj hnsPrefix, List.length_append, List.length_append]
  rw [hdocLen] at hdoc
  rw [hnsLen] at hns
  obtain ⟨hdocFits, hdocPacks⟩ := maskedWindow_eq hdocText hdoc
  obtain ⟨hnsFits, hnsPacks⟩ := maskedWindow_eq hnsText hns
  refine ⟨docHeader, nsHeader, _, _, hdocHeader, hnsHeader, rfl, rfl, hdocFits, hnsFits, by omega, ?_⟩
  rw [← Except.ok.inj hv, hdocPacks, hnsPacks, ← hnsLen]

theorem length_chunks {α : Type} (n : ℕ) (xs : List α) :
    (chunks n xs).length = (xs.length + n - 1) / n := by
  simp [chunks]

theorem length_pack16 (bs : List UInt8) : (pack16 bs : List F).length = (bs.length + 15) / 16 := by
  rw [pack16, List.length_map, length_chunks]
  rfl

theorem length_textWindow {text : List UInt8} (h : text.length ≤ anchorTextWindow) :
    (textWindow text).length = anchorTextWindow := by
  rw [textWindow, List.length_append, List.length_replicate]
  omega

theorem okOrReject_bind_eq_ok {α β : Type} {o : Option α} {f : α → MdocResult β} {r : β} :
    (okOrReject o >>= f) = .ok r ↔ ∃ a, o = some a ∧ f a = .ok r := by
  cases o with
  | none => exact ⟨fun h => (by cases h), fun ⟨_, h, _⟩ => (by cases h)⟩
  | some a => exact ⟨fun h => ⟨a, rfl, h⟩, fun ⟨_, h, hf⟩ => Option.some.inj h ▸ hf⟩

variable [DecidableEq F] [ToRepr F]

/-- Everything that an accepted list of public values shows. -/
theorem checkPublicValues_eq_ok_iff {qx qy len entries old : F} {doc ns cutoff now digest : List F}
    (hdoc : doc.length = anchorTextPacks) (hns : ns.length = anchorTextPacks)
    (hcutoff : cutoff.length = 10) (hnow : now.length = timestampLen) (hdigest : digest.length = 2)
    {expected : ExpectedContext} {r : VerifiedAgeProof F} :
    checkPublicValues (qx :: qy :: (doc ++ (ns ++ len :: entries :: (cutoff ++ (now ++ (digest ++ [old]))))))
        expected = .ok r ↔
      old = 1 ∧ digest = pack16 expected.deviceAuthDigest.val ∧
      cutoff = byteValues expected.cutoff.val ∧ now = byteValues expected.now.val ∧
      slice (unpackWindow doc) 0 8 = some docTypeKey ∧
      ∃ d, readTstr (unpackWindow doc) 8 = some d ∧ ∃ n, readTstr (unpackWindow ns) 0 = some n ∧
      ∃ e, readMapHeader (unpackWindow ns) n.2 = some e ∧ ¬(e.1 = 2 ∧ e.2 < 24) ∧
      len = ((n.2 + e.1 : ℕ) : F) ∧ entries = (e.2 : F) ∧
      (expected.accepted.any fun pair => pair.1 = d.1 ∧ pair.2 = n.1) = true ∧
      expected.issuers.admits qx qy = true ∧
      Except.ok ⟨qx, qy, d.1, n.1⟩ = (Except.ok r : MdocResult (VerifiedAgeProof F)) := by
  generalize hv : qx :: qy :: (doc ++ (ns ++ len :: entries :: (cutoff ++ (now ++ (digest ++ [old]))))) = v
  have hlength : v.length = publicInputLen := by
    rw [← hv]
    simp only [List.length_cons, List.length_append, List.length_nil, hdoc, hns, hcutoff, hnow, hdigest]
    rfl
  have hdrop : v.drop 2 = doc ++ (ns ++ len :: entries :: (cutoff ++ (now ++ (digest ++ [old])))) := by
    rw [← hv]
    rfl
  have hdrop' : v.drop (2 + anchorTextPacks) =
      ns ++ len :: entries :: (cutoff ++ (now ++ (digest ++ [old]))) := by
    rw [← List.drop_drop, hdrop, List.drop_left' hdoc]
  have hcounts : v.drop (2 + anchorTextPacks + anchorTextPacks) =
      len :: entries :: (cutoff ++ (now ++ (digest ++ [old]))) := by
    rw [← List.drop_drop, hdrop', List.drop_left' hns]
  have hrest : v.drop publicFromPrecommitted = cutoff ++ (now ++ (digest ++ [old])) := by
    rw [publicFromPrecommitted, ← List.drop_drop, hcounts]
    rfl
  have hlen : v.getD (2 + anchorTextPacks + anchorTextPacks) 0 = len := by
    have hget := congrArg (fun l => l[0]?) hcounts
    rw [List.getElem?_drop, Nat.add_zero] at hget
    rw [List.getD_eq_getElem?_getD, hget]
    rfl
  have hentries : v.getD (2 + anchorTextPacks + anchorTextPacks + 1) 0 = entries := by
    have hget := congrArg (fun l => l[1]?) hcounts
    rw [List.getElem?_drop] at hget
    rw [List.getD_eq_getElem?_getD, hget]
    rfl
  have hqx : v.getD 0 0 = qx := by rw [← hv]; rfl
  have hqy : v.getD 1 0 = qy := by rw [← hv]; rfl
  have hold : (cutoff ++ (now ++ (digest ++ [old]))).getD (12 + timestampLen) 0 = old := by
    rw [List.getD_eq_getElem?_getD, ← List.append_assoc, ← List.append_assoc,
      List.getElem?_append_right (by simp [hcutoff, hnow, hdigest, timestampLen])]
    simp [hcutoff, hnow, hdigest, timestampLen]
  have hafter : (cutoff ++ (now ++ (digest ++ [old]))).drop (10 + timestampLen) = digest ++ [old] := by
    rw [← List.drop_drop, List.drop_left' hcutoff, List.drop_left' hnow]
  unfold checkPublicValues
  rw [ensure_true hlength]
  simp only [hdrop, hdrop', hrest, hlen, hentries, hqx, hqy, hold, hafter, List.take_left' hdoc,
    List.take_left' hns, List.take_left' hcutoff, List.take_left' hnow, List.take_left' hdigest,
    List.drop_left' hcutoff]
  show (ensure (old = 1) >>= fun _ => _) = _ ↔ _
  simp only [ensure_bind_eq_ok, okOrReject_bind_eq_ok]
  rfl

omit [DecidableEq F] [ToRepr F] in
theorem byteValues_inj [LargeChar F] {as bs : List UInt8} (h : (byteValues as : List F) = byteValues bs) : as = bs := by
  apply List.map_injective_iff.mpr ?_ h
  intro a b hab
  have ha := a.toNat_lt
  have hb := b.toNat_lt
  exact UInt8.toNat_inj.mp (LargeChar.natCast_inj (F := F) (by omega) (by omega) hab)

omit [DecidableEq F] in
theorem unpackWindow_textWindow [LawfulToRepr F] {text : List UInt8} (h : text.length ≤ anchorTextWindow) :
    unpackWindow (pack16 (textWindow text) : List F) = textWindow text := by
  rw [unpackWindow, ← length_textWindow h, unpackPacks_pack16]

/-- What the verifier asked for is what was proved. -/
def ExpectedContext.Accepts (expected : ExpectedContext) (c : MdocAgeCircuit F)
    (docType nameSpace : String) : Prop :=
  (∃ date, c.witness.birthDateBytes = some date ∧ date ≤ c.cutoff.val) ∧
    expected.deviceAuthDigest = c.deviceAuthDigest ∧ expected.cutoff = c.cutoff ∧ expected.now = c.now ∧
    (docType, nameSpace) ∈ expected.accepted ∧ expected.issuers.admits c.qx c.qy = true

theorem docTypeWindow_reads {docType : String} {header text : List UInt8}
    (hheader : tstrHeader (utf8 docType).length = .ok header) (htext : text = docTypeKey ++ (header ++ utf8 docType)) :
    slice (textWindow text) 0 8 = some docTypeKey ∧ readTstr (textWindow text) 8 = some (docType, text.length) := by
  constructor
  · rw [textWindow, htext, List.append_assoc]
    exact slice_append [] docTypeKey _
  · have hread := readTstr_append docTypeKey (List.replicate (anchorTextWindow - text.length) 0) docType hheader
    rw [← List.length_append, ← htext] at hread
    exact hread

/-- The published namespace parses to the witness's, and the map header after it to its count. -/
theorem nameSpaceWindow_reads {nameSpace : String} {header text : List UInt8} {n : ℕ}
    (hheader : tstrHeader (utf8 nameSpace).length = .ok header) (hn : n < 256)
    (htext : text = header ++ utf8 nameSpace ++ mapHeader n) :
    readTstr (textWindow text) 0 = some (nameSpace, (header ++ utf8 nameSpace).length) ∧
      readMapHeader (textWindow text) (header ++ utf8 nameSpace).length = some ((mapHeader n).length, n) := by
  constructor
  · have hread := readTstr_append [] (mapHeader n ++ List.replicate (anchorTextWindow - text.length) 0) nameSpace
      hheader
    rw [List.nil_append, List.length_nil, Nat.zero_add, ← List.append_assoc, ← htext] at hread
    exact hread
  · have hread := readMapHeader_append (header ++ utf8 nameSpace)
      (List.replicate (anchorTextWindow - text.length) 0) hn
    rw [← htext] at hread
    exact hread

/-- A count below 24 is never written in the long form. -/
theorem mapHeader_canonical (n : ℕ) : ¬((mapHeader n).length = 2 ∧ n < 24) := by
  rintro ⟨hlen, hshort⟩
  rw [mapHeader, if_pos hshort] at hlen
  cases hlen

omit [DecidableEq F] [ToRepr F] in
theorem bitValue_oldEnough_eq_one {c : MdocAgeCircuit F} :
    (bitValue c.oldEnough : F) = 1 ↔
      ∃ date, c.witness.birthDateBytes = some date ∧ date ≤ c.cutoff.val := by
  unfold MdocAgeCircuit.oldEnough
  cases c.witness.birthDateBytes with
  | none => simp [bitValue]
  | some date => simp [bitValue]

/-- An honest presentation is accepted exactly by a verifier that asked for it, and shows the
witness's own document type and namespace. -/
theorem checkPublicValues_iff [LawfulToRepr F] [LargeChar F] {c : MdocAgeCircuit F} {docType nameSpace : String} {v : List F}
    (hplaced : PointsAtLiterals c.witness docType nameSpace) (hv : c.publicValues = .ok v)
    (expected : ExpectedContext) :
    ((∃ r, checkPublicValues v expected = .ok r) ↔ expected.Accepts c docType nameSpace) ∧
      ∀ r, checkPublicValues v expected = .ok r →
        r = ⟨c.qx, c.qy, docType, nameSpace⟩ := by
  obtain ⟨docHeader, nsHeader, docText, nsText, hdocHeader, hnsHeader, hdocText, hnsText, hdocFits,
    hnsFits, hentries, rfl⟩ := publicValues_eq hplaced hv
  have hdocLen : (pack16 (textWindow docText) : List F).length = anchorTextPacks := by
    rw [length_pack16, length_textWindow hdocFits]
    rfl
  have hnsLen : (pack16 (textWindow nsText) : List F).length = anchorTextPacks := by
    rw [length_pack16, length_textWindow hnsFits]
    rfl
  have hcutoffLen : (byteValues c.cutoff.val : List F).length = 10 := by
    rw [byteValues, List.length_map, c.cutoff.property]
  have hnowLen : (byteValues c.now.val : List F).length = timestampLen := by
    rw [byteValues, List.length_map, c.now.property]
  have hdigestLen : (pack16 c.deviceAuthDigest.val : List F).length = 2 := by
    rw [length_pack16, c.deviceAuthDigest.property]
  obtain ⟨hdocKey, hdocRead⟩ := docTypeWindow_reads hdocHeader hdocText
  obtain ⟨hnsRead, hmapRead⟩ := nameSpaceWindow_reads hnsHeader hentries hnsText
  have hnsTotal : nsText.length =
      (nsHeader ++ utf8 nameSpace).length + (mapHeader c.witness.numEntries).length := by
    rw [hnsText, List.length_append]
  simp only [List.append_assoc, List.cons_append, List.nil_append]
  have hchar : ∀ r, checkPublicValues (c.qx :: c.qy :: (pack16 (textWindow docText) ++
      (pack16 (textWindow nsText) ++ (nsText.length : F) :: (c.witness.numEntries : F) ::
        (byteValues c.cutoff.val ++ (byteValues c.now.val ++ (pack16 c.deviceAuthDigest.val ++
          [bitValue c.oldEnough])))))) expected = .ok r ↔
      expected.Accepts c docType nameSpace ∧ r = ⟨c.qx, c.qy, docType, nameSpace⟩ := by
    intro r
    rw [checkPublicValues_eq_ok_iff hdocLen hnsLen hcutoffLen hnowLen hdigestLen,
      unpackWindow_textWindow hdocFits, unpackWindow_textWindow hnsFits, bitValue_oldEnough_eq_one]
    constructor
    · rintro ⟨hdate, hdigest, hcutoff, hnow, -, d, hd, n, hn, e, he, -, -, -, haccepted, hissuer, hr⟩
      rw [hdocRead] at hd
      rw [hnsRead] at hn
      obtain rfl := Option.some.inj hd
      obtain rfl := Option.some.inj hn
      have hdigest' := pack16_inj (by rw [c.deviceAuthDigest.property, expected.deviceAuthDigest.property]) hdigest
      refine ⟨⟨hdate, Subtype.ext hdigest'.symm, Subtype.ext (byteValues_inj hcutoff).symm,
        Subtype.ext (byteValues_inj hnow).symm, ?_, hissuer⟩, (Except.ok.inj hr).symm⟩
      obtain ⟨pair, hmem, hpair⟩ := List.any_eq_true.mp haccepted
      obtain ⟨rfl, rfl⟩ := of_decide_eq_true hpair
      exact hmem
    · rintro ⟨⟨hdate, hdigest, hcutoff, hnow, haccepted, hissuer⟩, rfl⟩
      refine ⟨hdate, by rw [hdigest], by rw [hcutoff], by rw [hnow], hdocKey, _, hdocRead, _, hnsRead, _,
        hmapRead, mapHeader_canonical _, by rw [hnsTotal], rfl, ?_, hissuer, rfl⟩
      exact List.any_eq_true.mpr ⟨_, haccepted, by simp⟩
  refine ⟨⟨?_, ?_⟩, ?_⟩
  · rintro ⟨r, hr⟩
    exact ((hchar r).mp hr).1
  · intro haccepts
    exact ⟨_, (hchar _).mpr ⟨haccepts, rfl⟩⟩
  · intro r hr
    exact ((hchar r).mp hr).2

end Honest

/-- A credential of document type `d` with one entry in the namespace `n`. -/
def smallWitness : MdocAgeWitness where
  sigStructure := docTypeKey ++ [0x61, 0x64] ++ List.replicate 30 0 ++ [0x61, 0x6e, 0xa1] ++
    List.replicate 40 0
  landmarks := ⟨0, 40, 0, 0, 0, 0⟩
  nameSpace := utf8 "n"
  docType := utf8 "d"
  numEntries := 1
  itemBytes := List.replicate 40 0x30
  digestOffset := 0
  elementValueKeyOffset := 0
  dateEncoding := .bare
  deviceAuth := ⟨0, 0, 0⟩

def smallCircuit : MdocAgeCircuit Scalar where
  witness := smallWitness
  qx := 0
  qy := 0
  cutoff := ⟨List.replicate 10 0x39, by simp⟩
  now := ⟨List.replicate timestampLen 0x30, by simp⟩
  deviceAuthDigest := zeroBytes 32

def smallContext : ExpectedContext where
  deviceAuthDigest := smallCircuit.deviceAuthDigest
  cutoff := smallCircuit.cutoff
  now := smallCircuit.now
  issuers := .callerChecksTrustList
  accepted := [("d", "n")]

theorem pointsAtLiterals_smallWitness : PointsAtLiterals smallWitness "d" "n" where
  docType_eq := rfl
  nameSpace_eq := rfl
  docText := by
    intro header hheader
    obtain rfl := Except.ok.inj hheader
    decide
  nsText := by
    intro header hheader
    obtain rfl := Except.ok.inj hheader
    decide

theorem checkPublicValues_iff_smallCircuit :
    ∃ v, smallCircuit.publicValues = .ok v ∧ ∃ r, checkPublicValues v smallContext = .ok r := by
  obtain ⟨v, hv⟩ : ∃ v, smallCircuit.publicValues = .ok v := ⟨_, rfl⟩
  refine ⟨v, hv, (checkPublicValues_iff pointsAtLiterals_smallWitness hv smallContext).1.mpr ?_⟩
  exact ⟨⟨List.replicate 10 0x30, by decide, by decide⟩, rfl, rfl, rfl, by decide, rfl⟩

end ZkCredVega
