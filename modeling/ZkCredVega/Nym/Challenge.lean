import ZkCredVega.Nym.IssuerSigned
import ZkCredVega.Sha256

/-!
# The challenge the device key signs

`challenge.rs`: the session transcript of a request, the message the device signs for it and its
digest. The messages are written by an encoder of their own, around a transcript that the caller
hands in; they determine the request because that transcript is exactly one item.
-/

namespace ZkCredVega.Nym

open Circuits
open Cbor (Item ReadError Value WellFormed)

/-! ## Messages -/

/-- The transcript seed and the digest of one presentation request. -/
structure Challenge where
  sessionTranscript : List UInt8
  digest : Bytes 32

/-- Why a request is refused, with what the message is written from. -/
inductive ChallengeError where
  | empty (name : String)
  | long (name : String)
  | nonceShort
  | thumbprint (len : ℕ)
  | transcript (e : ReadError)
  | bytesAfter
  | notThreeItems

namespace Challenge

/-- The protected header of the device's signature: the map from 1 to -7, the algorithm ES256. -/
def es256Header : List UInt8 := [0xa1, 0x01, 0x26]

/-- The head of a data item, by the cases of this encoder. -/
def head (major : UInt8) (n : ℕ) : List UInt8 :=
  let m := major <<< 5
  let n := UInt64.ofNat n
  if n.toNat < 24 then [m ||| n.toUInt8]
  else if n.toNat < 0x100 then [m ||| 24, n.toUInt8]
  else if n.toNat < 0x10000 then (m ||| 25) :: beBytes 2 n.toUInt16.toNat
  else if n.toNat < 0x100000000 then (m ||| 26) :: beBytes 4 n.toUInt32.toNat
  else (m ||| 27) :: beBytes 8 n.toNat

def bytes (content : List UInt8) : List UInt8 := head 2 content.length ++ content

def text (content : String) : List UInt8 := head 3 (utf8 content).length ++ utf8 content

/-- Tag 24 on a byte string that holds an encoded item. -/
def embedded (encoded : List UInt8) : List UInt8 := head 6 24 ++ bytes encoded

/-- The structure the device signs for a credential. -/
def deviceAuthentication (sessionTranscript : List UInt8) (docType : String) : List UInt8 :=
  let nameSpaces := embedded [0xa0]
  let authentication := [head 4 4, text "DeviceAuthentication", sessionTranscript, text docType, nameSpaces].flatten
  let payload := embedded authentication
  [head 4 4, text "Signature1", bytes es256Header, bytes [], bytes payload].flatten

def mdoc (sessionTranscript : List UInt8) (docType : String) : Bytes 32 :=
  ⟨Sha256.hash (deviceAuthentication sessionTranscript docType), Sha256.length_hash _⟩

/-- What the handover hashes: the origin, the nonce, and the thumbprint or null. -/
def info (origin nonce : String) (jwkThumbprint : Option (Bytes 32)) : List UInt8 :=
  let thumbprint := jwkThumbprint.elim [0xf6] fun t => bytes t.val
  [head 4 3, text origin, text nonce, thumbprint].flatten

def dcApiSessionTranscript (origin nonce : String) (jwkThumbprint : Option (Bytes 32)) : List UInt8 :=
  let handover := [head 4 2, text "OpenID4VPDCAPIHandover", bytes (Sha256.hash (info origin nonce jwkThumbprint))].flatten
  [head 4 3, [0xf6, 0xf6], handover].flatten

/-! ## Checked requests -/

/-- The shortest nonce, in characters. -/
def minNonceChars : ℕ := 16

/-- The longest origin, nonce or document type, in bytes. -/
def maxFieldBytes : ℕ := 4096

def field (name v : String) : Except ChallengeError Unit :=
  if utf8 v = [] then .error (.empty name)
  else if (utf8 v).length > maxFieldBytes then .error (.long name)
  else .ok ()

/-- The thumbprint as an array of 32 bytes. -/
def thumbprintOf : Option (List UInt8) → Except ChallengeError (Option (Bytes 32))
  | none => .ok none
  | some t => if h : t.length = 32 then .ok (some ⟨t, h⟩) else .error (.thumbprint t.length)

def derive (origin nonce docType : String) (jwkThumbprint : Option (List UInt8)) : Except ChallengeError Challenge := do
  field "origin" origin
  field "nonce" nonce
  field "docType" docType
  if nonce.length < minNonceChars then .error .nonceShort
  else do
    let thumbprint ← thumbprintOf jwkThumbprint
    let sessionTranscript := dcApiSessionTranscript origin nonce thumbprint
    pure ⟨sessionTranscript, mdoc sessionTranscript docType⟩

/-- The digest for a transcript that the caller already holds. -/
def digestOfTranscript (sessionTranscript : List UInt8) (docType : String) : Except ChallengeError (Bytes 32) := do
  field "docType" docType
  let item ← (Item.read sessionTranscript).mapError .transcript
  if item.bytes.length ≠ sessionTranscript.length then .error .bytesAfter
  else if item.major ≠ 4 ∨ item.argument ≠ 3 then .error .notThreeItems
  else .ok (mdoc sessionTranscript docType)

/-! ## The two encoders -/

theorem head_eq (major : UInt8) (n : ℕ) : head major n = Cbor.head major (UInt64.ofNat n) := by
  have hone : ∀ n : UInt64, beBytes 1 n.toNat = [n.toUInt8] := by
    intro n
    simp [beBytes]
  unfold head Cbor.head
  by_cases h1 : (UInt64.ofNat n).toNat < 24
  · rw [if_pos h1, if_pos h1]
  rw [if_neg h1, if_neg h1]
  by_cases h2 : (UInt64.ofNat n).toNat < 0x100
  · have h2' : (UInt64.ofNat n).toNat ≤ 0xff := by omega
    rw [if_pos h2, if_pos h2', hone]
  have h2' : ¬(UInt64.ofNat n).toNat ≤ 0xff := by omega
  rw [if_neg h2, if_neg h2']
  by_cases h3 : (UInt64.ofNat n).toNat < 0x10000
  · have h3' : (UInt64.ofNat n).toNat ≤ 0xffff := by omega
    rw [if_pos h3, if_pos h3', UInt64.toNat_toUInt16, Nat.mod_eq_of_lt h3]
  have h3' : ¬(UInt64.ofNat n).toNat ≤ 0xffff := by omega
  rw [if_neg h3, if_neg h3']
  by_cases h4 : (UInt64.ofNat n).toNat < 0x100000000
  · have h4' : (UInt64.ofNat n).toNat ≤ 0xffffffff := by omega
    rw [if_pos h4, if_pos h4', UInt64.toNat_toUInt32, Nat.mod_eq_of_lt h4]
  have h4' : ¬(UInt64.ofNat n).toNat ≤ 0xffffffff := by omega
  rw [if_neg h4, if_neg h4']

theorem wellFormed_text {content : String} (h : (utf8 content).length < usizeBound) (levels : ℕ) :
    WellFormed (levels + 1) (text content) := by
  rw [text, head_eq]
  exact (Value.denotes_text h).wellFormed

theorem wellFormed_null (levels : ℕ) : WellFormed (levels + 1) [0xf6] :=
  ⟨7, 22, 22, [0xf6], [], .immediate (by decide) (by decide), ⟨rfl, fun _ h => absurd h (by decide)⟩, rfl⟩

/-! ## What the messages determine -/

/-- A string determines its content: the reader finds one item, and the content in it. -/
theorem ofHead_content_inj {major : UInt8} {n n' : UInt64} {content content' : List UInt8}
    (h : (Item.ofHead major n content).Denotes 1) (h' : (Item.ofHead major n' content').Denotes 1)
    (hlen : (Item.ofHead major n content).bytes.length < usizeBound)
    (heq : (Item.ofHead major n content).bytes = (Item.ofHead major n' content').bytes) : content = content' := by
  have hread := (Item.readLevels_ok_iff hlen).mpr ⟨h, List.prefix_rfl⟩
  have hread' := (Item.readLevels_ok_iff hlen).mpr ⟨h', heq ▸ List.prefix_rfl⟩
  have hitem := congrArg Item.content (Except.ok.inj (hread.symm.trans hread'))
  rwa [Value.content_ofHead, Value.content_ofHead] at hitem

theorem bytes_inj {content content' : List UInt8} (hlen : (bytes content).length < usizeBound)
    (h : bytes content = bytes content') : content = content' := by
  have hlen' := h ▸ hlen
  rw [bytes, head_eq] at hlen hlen' h
  rw [bytes, head_eq] at h
  rw [List.length_append] at hlen'
  have hcontent : content.length < usizeBound := by
    rw [List.length_append] at hlen
    omega
  exact ofHead_content_inj (Value.denotes_bytes hcontent) (Value.denotes_bytes (by omega)) hlen h

theorem text_inj {content content' : String} (hlen : (text content).length < usizeBound)
    (h : text content = text content') : content = content' := by
  have hlen' := h ▸ hlen
  rw [text, head_eq] at hlen hlen' h
  rw [text, head_eq] at h
  rw [List.length_append] at hlen'
  have hcontent : (utf8 content).length < usizeBound := by
    rw [List.length_append] at hlen
    omega
  have hutf8 := ofHead_content_inj (Value.denotes_text hcontent) (Value.denotes_text (by omega)) hlen h
  have hsome := congrArg fromUtf8 hutf8
  rw [fromUtf8_utf8, fromUtf8_utf8] at hsome
  exact Option.some.inj hsome

theorem embedded_inj {encoded encoded' : List UInt8} (hlen : (embedded encoded).length < usizeBound)
    (h : embedded encoded = embedded encoded') : encoded = encoded' := by
  rw [embedded, List.length_append] at hlen
  exact bytes_inj (by omega) (List.append_cancel_left h)

theorem length_head_le (major : UInt8) (n : ℕ) : (head major n).length ≤ 9 := by
  unfold head
  dsimp only
  split_ifs <;> simp

theorem length_bytes_le (content : List UInt8) : (bytes content).length ≤ content.length + 9 := by
  have hhead := length_head_le 2 content.length
  rw [bytes, List.length_append]
  omega

theorem length_text_le (content : String) : (text content).length ≤ (utf8 content).length + 9 := by
  have hhead := length_head_le 3 (utf8 content).length
  rw [text, List.length_append]
  omega

theorem length_embedded_le (encoded : List UInt8) : (embedded encoded).length ≤ encoded.length + 18 := by
  have hhead := length_head_le 6 24
  have hbytes := length_bytes_le encoded
  rw [embedded, List.length_append]
  omega

/-- The lengths of a transcript and a document type within the limits leave room for every head. -/
theorem length_message_lt {n : ℕ} (h : n ≤ Cbor.maxInput + 2 * maxFieldBytes + 1000) : n < usizeBound :=
  lt_of_le_of_lt h (by decide)

/-- What the device signs determines the transcript and the document type, when the transcript is one item. -/
theorem deviceAuthentication_inj {levels : ℕ} {t t' : List UInt8} {docType docType' : String}
    (ht : WellFormed levels t) (ht' : WellFormed levels t') (hlen : t.length ≤ Cbor.maxInput)
    (hdocType : (utf8 docType).length ≤ maxFieldBytes)
    (h : deviceAuthentication t docType = deviceAuthentication t' docType') : t = t' ∧ docType = docType' := by
  simp only [deviceAuthentication, List.flatten_cons, List.flatten_nil, List.append_nil,
    List.append_cancel_left_eq] at h
  have hname : (text "DeviceAuthentication").length ≤ 100 := by decide +kernel
  have hspaces : (embedded [0xa0]).length ≤ 100 := by decide +kernel
  have htext := length_text_le docType
  have hhead := length_head_le 4 4
  have hauthentication : (head 4 4 ++ (text "DeviceAuthentication" ++ (t ++ (text docType ++ embedded [0xa0])))).length
      ≤ Cbor.maxInput + maxFieldBytes + 300 := by
    simp only [List.length_append]
    omega
  have hpayload := length_embedded_le (head 4 4 ++ (text "DeviceAuthentication" ++ (t ++ (text docType ++ embedded [0xa0]))))
  have hmessage := length_bytes_le
    (embedded (head 4 4 ++ (text "DeviceAuthentication" ++ (t ++ (text docType ++ embedded [0xa0])))))
  have hinner := embedded_inj (length_message_lt (by omega)) (bytes_inj (length_message_lt (by omega)) h)
  simp only [List.append_cancel_left_eq] at hinner
  have hrest : (t ++ (text docType ++ embedded [0xa0])).length < usizeBound := by
    refine length_message_lt ?_
    simp only [List.length_append]
    omega
  obtain ⟨rfl, hdoc⟩ := ht.append_inj ht' hrest hinner
  exact ⟨rfl, text_inj (length_message_lt (by omega)) (List.append_cancel_right hdoc)⟩

theorem thumbprint_inj {t t' : Option (Bytes 32)}
    (h : (t.elim [0xf6] fun t => bytes t.val) = t'.elim [0xf6] fun t => bytes t.val) : t = t' := by
  have hne : ∀ t : Bytes 32, bytes t.val ≠ [0xf6] := by
    intro t h
    have hlen := congrArg List.length h
    rw [bytes, List.length_append, t.property, List.length_singleton] at hlen
    omega
  rcases t with _ | t <;> rcases t' with _ | t'
  · rfl
  · exact absurd h.symm (hne t')
  · exact absurd h (hne t)
  · have hlen := length_bytes_le t.val
    rw [t.property] at hlen
    rw [Subtype.ext (bytes_inj (length_message_lt (by omega)) h)]

/-- What the handover hashes determines the origin, the nonce and the thumbprint. -/
theorem info_inj {origin origin' nonce nonce' : String} {t t' : Option (Bytes 32)}
    (horigin : (utf8 origin).length ≤ maxFieldBytes) (horigin' : (utf8 origin').length ≤ maxFieldBytes)
    (hnonce : (utf8 nonce).length ≤ maxFieldBytes) (hnonce' : (utf8 nonce').length ≤ maxFieldBytes)
    (h : info origin nonce t = info origin' nonce' t') : origin = origin' ∧ nonce = nonce' ∧ t = t' := by
  simp only [info, List.flatten_cons, List.flatten_nil, List.append_nil, List.append_cancel_left_eq] at h
  have htext := length_text_le origin
  have htext' := length_text_le nonce
  have hthumb : (t.elim [0xf6] fun t => bytes t.val).length ≤ 41 := by
    cases t with
    | none => exact Nat.le_add_left 1 40
    | some t =>
      have hle := length_bytes_le t.val
      rwa [t.property] at hle
  have hsecond : (text nonce ++ t.elim [0xf6] fun t => bytes t.val).length ≤ maxFieldBytes + 50 := by
    rw [List.length_append]
    omega
  have hfirst : (text origin ++ (text nonce ++ t.elim [0xf6] fun t => bytes t.val)).length < usizeBound := by
    refine length_message_lt ?_
    rw [List.length_append]
    omega
  have hlt : ∀ {v : String}, (utf8 v).length ≤ maxFieldBytes → (utf8 v).length < usizeBound := by
    intro v hv
    exact lt_of_le_of_lt hv (by decide)
  obtain ⟨horiginEq, hrest⟩ :=
    (wellFormed_text (hlt horigin) 0).append_inj (wellFormed_text (hlt horigin') 0) hfirst h
  have hsecondLt := lt_of_le_of_lt hsecond (by decide : maxFieldBytes + 50 < usizeBound)
  obtain ⟨hnonceEq, hthumbEq⟩ :=
    (wellFormed_text (hlt hnonce) 0).append_inj (wellFormed_text (hlt hnonce') 0) hsecondLt hrest
  exact ⟨text_inj (length_message_lt (by omega)) horiginEq, text_inj (length_message_lt (by omega)) hnonceEq,
    thumbprint_inj hthumbEq⟩

/-! ## What the checks accept -/

theorem field_eq_ok_iff {name v : String} {u : Unit} :
    field name v = .ok u ↔ utf8 v ≠ [] ∧ (utf8 v).length ≤ maxFieldBytes := by
  unfold field
  by_cases hempty : utf8 v = []
  · simp [hempty]
  by_cases hlong : (utf8 v).length > maxFieldBytes
  · simp [hempty, hlong]
  · simp [hempty, not_lt.mp hlong]

theorem thumbprintOf_eq_ok_iff {bytes : Option (List UInt8)} {t : Option (Bytes 32)} :
    thumbprintOf bytes = .ok t ↔ bytes = t.map Subtype.val := by
  rcases bytes with _ | b
  · cases t <;> simp [thumbprintOf]
  · by_cases hlen : b.length = 32
    · rw [thumbprintOf, dif_pos hlen]
      rcases t with _ | ⟨t, ht⟩ <;> simp
    · rw [thumbprintOf, dif_neg hlen]
      rcases t with _ | ⟨t, ht⟩
      · simp
      · simp only [reduceCtorEq, Option.map_some, Option.some.injEq, false_iff]
        rintro rfl
        exact hlen ht

theorem derive_eq_ok_iff {origin nonce docType : String} {jwkThumbprint : Option (List UInt8)} {c : Challenge} :
    derive origin nonce docType jwkThumbprint = .ok c ↔
      (utf8 origin ≠ [] ∧ (utf8 origin).length ≤ maxFieldBytes) ∧ (utf8 nonce ≠ [] ∧ (utf8 nonce).length ≤ maxFieldBytes) ∧
        (utf8 docType ≠ [] ∧ (utf8 docType).length ≤ maxFieldBytes) ∧ minNonceChars ≤ nonce.length ∧
        ∃ t, jwkThumbprint = t.map Subtype.val ∧
          c = ⟨dcApiSessionTranscript origin nonce t, mdoc (dcApiSessionTranscript origin nonce t) docType⟩ := by
  constructor
  · intro h
    obtain ⟨_, horigin, h⟩ := bind_eq_ok_iff.mp h
    obtain ⟨_, hnonce, h⟩ := bind_eq_ok_iff.mp h
    obtain ⟨_, hdocType, h⟩ := bind_eq_ok_iff.mp h
    rw [field_eq_ok_iff] at horigin hnonce hdocType
    split at h
    · cases h
    · rename_i hchars
      obtain ⟨t, ht, h⟩ := bind_eq_ok_iff.mp h
      exact ⟨horigin, hnonce, hdocType, not_lt.mp hchars, t, thumbprintOf_eq_ok_iff.mp ht, (Except.ok.inj h).symm⟩
  · rintro ⟨horigin, hnonce, hdocType, hchars, t, ht, rfl⟩
    refine bind_eq_ok_iff.mpr ⟨(), field_eq_ok_iff.mpr horigin, ?_⟩
    refine bind_eq_ok_iff.mpr ⟨(), field_eq_ok_iff.mpr hnonce, ?_⟩
    refine bind_eq_ok_iff.mpr ⟨(), field_eq_ok_iff.mpr hdocType, ?_⟩
    rw [if_neg (not_lt.mpr hchars)]
    exact bind_eq_ok_iff.mpr ⟨t, thumbprintOf_eq_ok_iff.mpr ht, rfl⟩

/-- A transcript that is accepted is one array of three items, with nothing after it. -/
theorem digestOfTranscript_eq_ok_iff {t : List UInt8} {docType : String} {d : Bytes 32} :
    digestOfTranscript t docType = .ok d ↔
      (utf8 docType ≠ [] ∧ (utf8 docType).length ≤ maxFieldBytes) ∧ t.length ≤ Cbor.maxInput ∧
        (∃ item : Item, item.Denotes (Cbor.maxDepth + 1) ∧ item.bytes = t ∧ item.major = 4 ∧ item.argument = 3) ∧
        d = mdoc t docType := by
  constructor
  · intro h
    obtain ⟨_, hdocType, h⟩ := bind_eq_ok_iff.mp h
    obtain ⟨item, hitem, h⟩ := bind_eq_ok_iff.mp h
    rw [field_eq_ok_iff] at hdocType
    have hread : Item.read t = .ok item := by
      cases hread : Item.read t with
      | error e =>
        rw [hread] at hitem
        cases hitem
      | ok i =>
        rw [hread] at hitem
        exact congrArg Except.ok (Except.ok.inj hitem)
    have hlen := Item.length_le_of_read hread
    obtain ⟨hdenotes, hpre⟩ := (Item.read_ok_iff hlen).mp hread
    split at h
    · cases h
    rename_i hend
    split at h
    · cases h
    rename_i hthree
    obtain ⟨hmajor, hargument⟩ := not_or.mp hthree
    have hbytes := hpre.eq_of_length (not_not.mp hend)
    exact ⟨hdocType, hlen, ⟨item, hdenotes, hbytes, not_not.mp hmajor, not_not.mp hargument⟩, (Except.ok.inj h).symm⟩
  · rintro ⟨hdocType, hlen, ⟨item, hdenotes, rfl, hmajor, hargument⟩, rfl⟩
    have hread := (Item.read_ok_iff hlen).mpr ⟨hdenotes, List.prefix_rfl⟩
    refine bind_eq_ok_iff.mpr ⟨(), field_eq_ok_iff.mpr hdocType, ?_⟩
    refine bind_eq_ok_iff.mpr ⟨item, mapError_ok hread _, ?_⟩
    rw [if_neg (not_not.mpr rfl), if_neg (not_or.mpr ⟨not_not.mpr hmajor, not_not.mpr hargument⟩)]

/-! ## Derived transcripts -/

def transcriptValue (origin nonce : String) (t : Option (Bytes 32)) : Value :=
  .array [.encoded [0xf6], .encoded [0xf6],
    .array [.text "OpenID4VPDCAPIHandover", .bytes (Sha256.hash (info origin nonce t))]]

theorem encode_transcriptValue (origin nonce : String) (t : Option (Bytes 32)) :
    (transcriptValue origin nonce t).encode = dcApiSessionTranscript origin nonce t := by
  simp only [transcriptValue, dcApiSessionTranscript, Value.encode, Value.encodeItems, text, bytes, head_eq,
    List.flatten_cons, List.flatten_nil, List.append_nil, List.length_cons, List.length_nil, List.append_assoc]
  rfl

theorem fits_transcriptValue (origin nonce : String) (t : Option (Bytes 32)) : (transcriptValue origin nonce t).Fits := by
  constructor
  · refine .array fun v hv => ?_
    rcases List.mem_cons.mp hv with rfl | hv
    · exact .encoded (wellFormed_null _)
    rcases List.mem_cons.mp hv with rfl | hv
    · exact .encoded (wellFormed_null _)
    obtain rfl := List.mem_singleton.mp hv
    refine .array fun v hv => ?_
    rcases List.mem_cons.mp hv with rfl | hv
    · exact .text
    obtain rfl := List.mem_singleton.mp hv
    exact .bytes
  · have hname : (text "OpenID4VPDCAPIHandover").length ≤ 100 := by decide +kernel
    have hhash := length_bytes_le (Sha256.hash (info origin nonce t))
    have htwo := length_head_le 4 2
    have hthree := length_head_le 4 3
    have hmax : 1000 ≤ Cbor.maxInput := by decide
    rw [Sha256.length_hash] at hhash
    rw [encode_transcriptValue]
    simp only [dcApiSessionTranscript, List.flatten_cons, List.flatten_nil, List.append_nil, List.length_append,
      List.length_cons, List.length_nil]
    omega

/-- A derived transcript passes the checks with the same digest, and what is signed and what is hashed determine
the request. -/
theorem derive_exact :
    (∀ origin nonce docType jwkThumbprint c, derive origin nonce docType jwkThumbprint = .ok c →
      digestOfTranscript c.sessionTranscript docType = .ok c.digest) ∧
    (∀ t docType t' docType' d d', digestOfTranscript t docType = .ok d → digestOfTranscript t' docType' = .ok d' →
      deviceAuthentication t docType = deviceAuthentication t' docType' → t = t' ∧ docType = docType') ∧
    (∀ origin nonce docType jwkThumbprint c origin' nonce' docType' jwkThumbprint' c',
      derive origin nonce docType jwkThumbprint = .ok c → derive origin' nonce' docType' jwkThumbprint' = .ok c' →
      ∀ t t', thumbprintOf jwkThumbprint = .ok t → thumbprintOf jwkThumbprint' = .ok t' →
      info origin nonce t = info origin' nonce' t' →
      origin = origin' ∧ nonce = nonce' ∧ jwkThumbprint = jwkThumbprint') := by
  refine ⟨?_, ?_, ?_⟩
  · intro origin nonce docType jwkThumbprint c h
    obtain ⟨-, -, hdocType, -, t, -, rfl⟩ := derive_eq_ok_iff.mp h
    have hfits := fits_transcriptValue origin nonce t
    obtain ⟨hdenotes, hbytes⟩ := hfits.denotes
    have hshort := hfits.short
    rw [encode_transcriptValue] at hbytes hshort
    have hitem : (transcriptValue origin nonce t).item = _ := Value.item_array hfits
    refine digestOfTranscript_eq_ok_iff.mpr ⟨hdocType, hshort, ⟨_, hdenotes, hbytes, ?_, ?_⟩, rfl⟩
    · rw [hitem]
      rfl
    · rw [hitem]
      rfl
  · intro t docType t' docType' d d' h h' heq
    obtain ⟨⟨-, hdocType⟩, hlen, ⟨item, hitem, rfl, -, -⟩, -⟩ := digestOfTranscript_eq_ok_iff.mp h
    obtain ⟨-, -, ⟨item', hitem', rfl, -, -⟩, -⟩ := digestOfTranscript_eq_ok_iff.mp h'
    exact deviceAuthentication_inj hitem.wellFormed hitem'.wellFormed hlen hdocType heq
  · intro origin nonce docType jwkThumbprint c origin' nonce' docType' jwkThumbprint' c' h h' t t' ht ht' heq
    obtain ⟨⟨-, horigin⟩, ⟨-, hnonce⟩, -⟩ := derive_eq_ok_iff.mp h
    obtain ⟨⟨-, horigin'⟩, ⟨-, hnonce'⟩, -⟩ := derive_eq_ok_iff.mp h'
    obtain ⟨horiginEq, hnonceEq, rfl⟩ := info_inj horigin horigin' hnonce hnonce' heq
    exact ⟨horiginEq, hnonceEq, (thumbprintOf_eq_ok_iff.mp ht).trans (thumbprintOf_eq_ok_iff.mp ht').symm⟩

/-- A request without a thumbprint. -/
theorem derive_exact_request : ∃ c, derive "https://rp" "0123456789abcdef" "eu.europa.ec.eudi.pid.1" none = .ok c ∧
    digestOfTranscript c.sessionTranscript "eu.europa.ec.eudi.pid.1" = .ok c.digest := by
  have hderive : ∃ c, derive "https://rp" "0123456789abcdef" "eu.europa.ec.eudi.pid.1" none = .ok c :=
    ⟨_, derive_eq_ok_iff.mpr ⟨by decide +kernel, by decide +kernel, by decide +kernel, by decide +kernel, none, rfl, rfl⟩⟩
  obtain ⟨c, hc⟩ := hderive
  exact ⟨c, hc, derive_exact.1 _ _ _ _ c hc⟩

end Challenge

end ZkCredVega.Nym
