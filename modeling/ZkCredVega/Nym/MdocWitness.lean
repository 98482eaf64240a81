import ZkCredVega.Nym.Step

/-!
# The witness of an mdoc

`MdocWitness::full` of `mdoc.rs`: where the issuer's message and the items hold each value, the
blocks of the issuer's message that the table leaves out, and the offsets that the core circuit reads
at. A witness that is built satisfies the steps, and every read of the core finds the bytes that
the search located.
-/

namespace ZkCredVega.Nym

open Circuits

namespace Mdoc

/-! ## Patterns -/

/-- A byte string of 32 bytes, as the MSO lists a digest. -/
def digestHead : List UInt8 := [0x58, 0x20]

/-- The key elementValue, the tag 1004 of a full-date, and the head of a 10-byte text. -/
def value : List UInt8 :=
  [0x6c, 0x65, 0x6c, 0x65, 0x6d, 0x65, 0x6e, 0x74, 0x56, 0x61, 0x6c, 0x75, 0x65, 0xd9, 0x03, 0xec, 0x6a]

/-- The key deviceKey and the start of its COSE_Key: kty EC2, crv P-256, and the head of `x`. -/
def deviceKey : List UInt8 :=
  [0x69, 0x64, 0x65, 0x76, 0x69, 0x63, 0x65, 0x4b, 0x65, 0x79, 0xa4, 0x01, 0x02, 0x20, 0x01, 0x21, 0x58, 0x20]

/-- The label of `y` and the head of its 32-byte string, which follow `x`. -/
def deviceKeyY : List UInt8 := [0x22, 0x58, 0x20]

/-- The key validFrom, the tag 0 of a date-time, and the head of a 20-byte text. -/
def validFrom : List UInt8 :=
  [0x69, 0x76, 0x61, 0x6c, 0x69, 0x64, 0x46, 0x72, 0x6f, 0x6d, 0xc0, 0x74]

/-- The key validUntil, the tag 0 of a date-time, and the head of a 20-byte text. -/
def validUntil : List UInt8 :=
  [0x6a, 0x76, 0x61, 0x6c, 0x69, 0x64, 0x55, 0x6e, 0x74, 0x69, 0x6c, 0xc0, 0x74]

/-- The item's key elementIdentifier and the 3-byte text `ssc`. -/
def mdocIdentifier : List UInt8 :=
  [0x71, 0x65, 0x6c, 0x65, 0x6d, 0x65, 0x6e, 0x74, 0x49, 0x64, 0x65, 0x6e, 0x74, 0x69, 0x66, 0x69, 0x65, 0x72, 0x63,
    0x73, 0x73, 0x63]

/-- The item's key elementValue and the head of a 32-byte string. -/
def mdocValue : List UInt8 :=
  [0x6c, 0x65, 0x6c, 0x65, 0x6d, 0x65, 0x6e, 0x74, 0x56, 0x61, 0x6c, 0x75, 0x65, 0x58, 0x20]

def dst : List UInt8 :=
  [0x6e, 0x79, 0x6d, 0x5f, 0x61, 0x75, 0x74, 0x68, 0x2f, 0x76, 0x31, 0x2f, 0x6b, 0x6e, 0x6f, 0x77, 0x6e, 0x2d, 0x6f,
    0x66, 0x66, 0x65, 0x6e, 0x64, 0x65, 0x72, 0x2d, 0x6d, 0x61, 0x74, 0x63, 0x68, 0x69, 0x6e, 0x67, 0x2d, 0x73, 0x73,
    0x63]

/-! ## Searches -/

/-- Why no witness is built; most name what was searched for. -/
inductive WitnessError where
  | notFound (what : String)
  | noValue (what : String)
  | cut (what : String)
  | notText (what : String)
  | endsWithin (what : String) (len : ℕ)
  | disagree
  | doesNotFit (blocks room : ℕ)
  | panic
deriving DecidableEq

def WitnessError.ofTable : TableError → WitnessError
  | .doesNotFit blocks room => .doesNotFit blocks room
  | .panic => .panic

def find (bytes pattern : List UInt8) (what : String) : Except WitnessError ℕ :=
  -- `windows(0)` panics
  if pattern = [] then .error .panic
  else
    let places := List.range (bytes.length + 1 - pattern.length)
    match places.find? fun i => (bytes.drop i).take pattern.length = pattern with
    | some i => .ok i
    | none => .error (.notFound what)

/-- The lengths of a CBOR text's head and of the text, for texts shorter than 256 bytes. -/
def textLengths (bytes : List UInt8) (pos : ℕ) (what : String) : Except WitnessError (ℕ × ℕ) :=
  match bytes[pos]? with
  | none => .error (.noValue what)
  | some head =>
    if 0x60 ≤ head ∧ head < 0x78 then .ok (1, (head - 0x60).toNat)
    else if head = 0x78 then
      match bytes[pos + 1]? with
      | some len => .ok (2, len.toNat)
      | none => .error (.cut what)
    else .error (.notText what)

/-- The start of the window of `len` bytes that ends where the CBOR text after `key` ends. -/
def windowAt (bytes key : List UInt8) (len : ℕ) (what : String) : Except WitnessError ℕ := do
  let first ← find bytes key what
  let lengths ← textLengths bytes (first + key.length) what
  let stop := first + key.length + lengths.1 + lengths.2
  if bytes.length < stop then .error (.cut what)
  else if stop < len then .error (.endsWithin what len)
  else .ok (stop - len)

/-- A subtraction of `usize`, which must not underflow. -/
def subOrPanic (a b : ℕ) : Except WitnessError ℕ := if b ≤ a then .ok (a - b) else .error .panic

/-- An element of a vector, which must be there. -/
def indexOrPanic (xs : List ℕ) (i : ℕ) : Except WitnessError ℕ :=
  match xs[i]? with
  | some x => .ok x
  | none => .error .panic

/-! ## The witness -/

/-- What the prover adds to the credential for the full statement. -/
structure NymMessages where
  ssc : List UInt8
  secretSeed : Bytes 16
  verifierInput : Bytes 32

namespace NymMessages

def message (m : NymMessages) : List UInt8 :=
  dst ++ m.secretSeed.val ++ List.replicate 32 0 ++ m.verifierInput.val

/-- The `ssc` item, the secret seed and the pseudonym's message, in their regions. -/
def tableMessages (m : NymMessages) (regions : PseudonymRegions) : List (Region × List UInt8) :=
  [(regions.ssc, m.ssc), (regions.seed, m.secretSeed.val), (regions.nym, m.message)]

end NymMessages

structure MdocNym where
  last : ℕ
  digestAt : ℕ
  identifierAt : ℕ
  valueAt : ℕ

/-- The table, the issuer's key and signature, and where each value sits. -/
structure MdocWitness where
  table : Table
  issuerKey : PublicKey
  issuerSignature : Signature
  skipped : ℕ
  signedLast : ℕ
  attributeLast : ℕ
  docTypeAt : ℕ
  digestAt : ℕ
  deviceKeyAt : ℕ
  validFromAt : ℕ
  validUntilAt : ℕ
  identifierAt : ℕ
  valueAt : ℕ
  nym : Option MdocNym

def listed (item : List UInt8) : List UInt8 := digestHead ++ Sha256.hash item

/-- The places of the values in the issuer's message. -/
def searches (sigStructure item : List UInt8) (nym : Option NymMessages) : Except WitnessError (List ℕ) := do
  let docTypeAt ← windowAt sigStructure docTypeKey docTypeWindow.len "docType"
  let digestAt ← find sigStructure (listed item) "the item's digest"
  let deviceKeyAt ← find sigStructure deviceKey "deviceKey"
  let validFromAt ← find sigStructure validFrom "validFrom"
  let validUntilAt ← find sigStructure validUntil "validUntil"
  match nym with
  | none => pure [docTypeAt, digestAt, deviceKeyAt, validFromAt, validUntilAt]
  | some nym => do
    let sscDigestAt ← find sigStructure (listed nym.ssc) "the ssc item's digest"
    pure [docTypeAt, digestAt, deviceKeyAt, validFromAt, validUntilAt, sscDigestAt]

/-- The least offset, which `skipped` is the block of. -/
def leastOrPanic (offsets : List ℕ) : Except WitnessError ℕ :=
  match offsets.min? with
  | some least => .ok least
  | none => .error .panic

/-- The messages besides the issuer's, and what the prover knows of the `ssc` item. -/
def nymPart (layout : Layout) (item : List UInt8) (nym : Option NymMessages) (offsets : List ℕ) :
    Except WitnessError (List (Region × List UInt8) × Option MdocNym) :=
  match nym, layout.pseudonym with
  | some nym, some regions => do
    let digestAt ← indexOrPanic offsets 5
    let identifierAt ← find nym.ssc mdocIdentifier "the ssc identifier"
    let valueAt ← find nym.ssc mdocValue "the ssc value"
    pure ((layout.attr, item) :: nym.tableMessages regions,
      some ⟨lastBlock nym.ssc.length, digestAt, identifierAt, valueAt⟩)
  | none, none => pure ([(layout.attr, item)], none)
  | _, _ => .error .disagree

namespace MdocWitness

def build (layout : Layout) (sigStructure item : List UInt8) (issuerKey : PublicKey) (issuerSignature : Signature)
    (nym : Option NymMessages) : Except WitnessError MdocWitness := do
  let found ← searches sigStructure item nym
  let least ← leastOrPanic found
  let skipped := blocksBefore least
  let offsets ← found.mapM fun pos => subOrPanic pos (64 * skipped)
  let part ← nymPart layout item nym offsets
  let table ← (Table.withMessages layout sigStructure skipped part.1).mapError WitnessError.ofTable
  let signedLast ← subOrPanic (lastBlock sigStructure.length) skipped
  let docTypeAt ← indexOrPanic offsets 0
  let digestAt ← indexOrPanic offsets 1
  let deviceKeyAt ← indexOrPanic offsets 2
  let validFromAt ← indexOrPanic offsets 3
  let validUntilAt ← indexOrPanic offsets 4
  let identifierAt ← windowAt item identifierKey identifierWindow.len "the identifier"
  let valueAt ← find item value "elementValue"
  pure ⟨table, issuerKey, issuerSignature, skipped, signedLast, lastBlock item.length, docTypeAt, digestAt,
    deviceKeyAt, validFromAt, validUntilAt, identifierAt, valueAt, part.2⟩

def full (sigStructure item : List UInt8) (nym : NymMessages) (issuerKey : PublicKey) (issuerSignature : Signature) :
    Except WitnessError MdocWitness :=
  build fullMdoc sigStructure item issuerKey issuerSignature (some nym)

end MdocWitness

/-! ## What the core reads -/

/-- The bytes of a device key: its head, the coordinates and the label between them. -/
def deviceKeyLen : ℕ := deviceKey.length + 32 + deviceKeyY.length + 32

section Reads

variable {F V : Type} [Field F] [One V] [ToRepr F]

/-- The messages that the core opens and the windows that it reads, in its order. -/
def reads (cells : Cells F V) (layout : Layout) (w : MdocWitness) : Circuit F V (List (ReadWindow F V)) := do
  let signed ← Message.openRegion cells layout.signed (some w.signedLast)
  let item ← Message.openRegion cells layout.attr (some w.attributeLast)
  let docType ← signed.1.read (some w.docTypeAt) docTypeWindow.len
  let digest ← signed.1.read (some w.digestAt) 34
  let identifier ← item.1.read (some w.identifierAt) identifierWindow.len
  let value ← item.1.read (some w.valueAt) (value.length + 10)
  let key ← signed.1.read (some w.deviceKeyAt) deviceKeyLen
  let from_ ← signed.1.read (some w.validFromAt) (validFrom.length + 20)
  let until_ ← signed.1.read (some w.validUntilAt) (validUntil.length + 20)
  let regions ← match layout.pseudonym with
    | some regions => pure regions
    | none => .fail .unsatisfiable
  let n ← match w.nym with
    | some n => pure n
    | none => .fail .assignmentMissing
  let ssc ← Message.openRegion cells regions.ssc (some n.last)
  let sscDigest ← signed.1.read (some n.digestAt) 34
  let sscIdentifier ← ssc.1.read (some n.identifierAt) mdocIdentifier.length
  let sscValue ← ssc.1.read (some n.valueAt) (mdocValue.length + 32)
  pure [docType, digest, identifier, value, key, from_, until_, sscDigest, sscIdentifier, sscValue]

end Reads

/-! ## What a search finds -/

section Searches

variable {bytes pattern : List UInt8} {what : String}

theorem find_ok {i : ℕ} (h : find bytes pattern what = .ok i) : i + pattern.length ≤ bytes.length := by
  unfold find at h
  split at h
  · cases h
  dsimp only at h
  split at h
  · next j hj =>
    obtain rfl := Except.ok.inj h
    have hmem := List.mem_range.mp (List.mem_of_find?_eq_some hj)
    omega
  · cases h

theorem find_ne_panic (hpattern : pattern ≠ []) : find bytes pattern what ≠ .error .panic := by
  unfold find
  rw [if_neg hpattern]
  dsimp only
  split
  · intro h
    cases h
  · intro h
    cases h

theorem textLengths_ne_panic (pos : ℕ) : textLengths bytes pos what ≠ .error .panic := by
  unfold textLengths
  intro h
  repeat' split at h
  all_goals cases h

theorem windowAt_ok {len i : ℕ} (h : windowAt bytes pattern len what = .ok i) : i + len ≤ bytes.length := by
  obtain ⟨first, -, h⟩ := bind_eq_ok_iff.mp h
  obtain ⟨lengths, -, h⟩ := bind_eq_ok_iff.mp h
  dsimp only at h
  split at h
  · cases h
  split at h
  · cases h
  obtain rfl := Except.ok.inj h
  omega

theorem bind_ne_panic {α β : Type} {x : Except WitnessError α} {f : α → Except WitnessError β}
    (hx : x ≠ .error .panic) (hf : ∀ a, x = .ok a → f a ≠ .error .panic) : x >>= f ≠ .error .panic := by
  cases x with
  | error e =>
    intro h
    exact hx (congrArg _ (Except.error.inj h))
  | ok a => exact hf a rfl

theorem windowAt_ne_panic (hkey : pattern ≠ []) (len : ℕ) : windowAt bytes pattern len what ≠ .error .panic := by
  refine bind_ne_panic (find_ne_panic hkey) fun first _ => ?_
  refine bind_ne_panic (textLengths_ne_panic _) fun lengths _ => ?_
  intro h
  dsimp only at h
  repeat' split at h
  all_goals cases h

end Searches

theorem subOrPanic_eq {a b : ℕ} (h : b ≤ a) : subOrPanic a b = .ok (a - b) := if_pos h

theorem mapM_subOrPanic {xs : List ℕ} {b : ℕ} (h : ∀ x ∈ xs, b ≤ x) :
    xs.mapM (fun pos => subOrPanic pos b) = .ok (xs.map (· - b)) := by
  induction xs with
  | nil => rfl
  | cons x xs ih =>
    rw [List.forall_mem_cons] at h
    rw [List.mapM_cons, subOrPanic_eq h.1, ih h.2]
    rfl

theorem indexOrPanic_ne_panic {xs : List ℕ} {i : ℕ} (h : i < xs.length) : indexOrPanic xs i ≠ .error .panic := by
  unfold indexOrPanic
  rw [List.getElem?_eq_getElem h]
  intro h
  cases h

theorem listed_ne_nil (item : List UInt8) : listed item ≠ [] := List.cons_ne_nil _ _

section Build

variable {sigStructure item : List UInt8} {nym : NymMessages}

theorem searches_ok {found : List ℕ} (h : searches sigStructure item (some nym) = .ok found) :
    found.length = 6 ∧ ∀ pos ∈ found, pos ≤ sigStructure.length := by
  obtain ⟨docTypeAt, hdocType, h⟩ := bind_eq_ok_iff.mp h
  obtain ⟨digestAt, hdigest, h⟩ := bind_eq_ok_iff.mp h
  obtain ⟨deviceKeyAt, hdeviceKey, h⟩ := bind_eq_ok_iff.mp h
  obtain ⟨validFromAt, hvalidFrom, h⟩ := bind_eq_ok_iff.mp h
  obtain ⟨validUntilAt, hvalidUntil, h⟩ := bind_eq_ok_iff.mp h
  obtain ⟨sscDigestAt, hsscDigest, h⟩ := bind_eq_ok_iff.mp h
  obtain rfl := Except.ok.inj h
  have hdocType := windowAt_ok hdocType
  have hdigest := find_ok hdigest
  have hdeviceKey := find_ok hdeviceKey
  have hvalidFrom := find_ok hvalidFrom
  have hvalidUntil := find_ok hvalidUntil
  have hsscDigest := find_ok hsscDigest
  refine ⟨rfl, ?_⟩
  simp only [List.forall_mem_cons]
  refine ⟨?_, ?_, ?_, ?_, ?_, ?_, fun _ h => absurd h List.not_mem_nil⟩
  all_goals omega

theorem searches_ne_panic : searches sigStructure item (some nym) ≠ .error .panic := by
  refine bind_ne_panic (windowAt_ne_panic (by decide) _) fun _ _ => ?_
  refine bind_ne_panic (find_ne_panic (listed_ne_nil _)) fun _ _ => ?_
  refine bind_ne_panic (find_ne_panic (by decide)) fun _ _ => ?_
  refine bind_ne_panic (find_ne_panic (by decide)) fun _ _ => ?_
  refine bind_ne_panic (find_ne_panic (by decide)) fun _ _ => ?_
  refine bind_ne_panic (find_ne_panic (listed_ne_nil _)) fun _ _ => ?_
  intro h
  cases h

/-- The blocks before the least offset are blocks of the message, and no offset lies in them. -/
theorem leastOrPanic_ok {found : List ℕ} {least len : ℕ} (h : leastOrPanic found = .ok least)
    (hfound : ∀ pos ∈ found, pos ≤ len) :
    blocksBefore least ≤ lastBlock len ∧ ∀ pos ∈ found, 64 * blocksBefore least ≤ pos := by
  unfold leastOrPanic at h
  split at h
  · next m hm =>
    obtain rfl := Except.ok.inj h
    obtain ⟨hmem, hle⟩ := List.min?_eq_some_iff.mp hm
    have hlen := hfound _ hmem
    unfold blocksBefore lastBlock
    refine ⟨by omega, fun pos hpos => ?_⟩
    have := hle pos hpos
    omega
  · cases h

theorem leastOrPanic_ne_panic {found : List ℕ} (h : found ≠ []) : leastOrPanic found ≠ .error .panic := by
  unfold leastOrPanic
  cases found with
  | nil => exact absurd rfl h
  | cons x xs =>
    intro h
    cases h

def messages (item : List UInt8) (nym : NymMessages) : List (Region × List UInt8) :=
  [(⟨22, 2⟩, item), (⟨24, 3⟩, nym.ssc), (⟨30, 1⟩, nym.secretSeed.val), (⟨28, 2⟩, nym.message)]

theorem messages_nodup : ((messages item nym).map Prod.fst).Nodup := by
  show [(⟨22, 2⟩ : Region), ⟨24, 3⟩, ⟨30, 1⟩, ⟨28, 2⟩].Nodup
  decide

theorem messages_mem : ∀ t ∈ messages item nym, t.1 ∈ fullMdoc.ivRegions := by
  simp only [messages, List.forall_mem_cons]
  refine ⟨by decide, by decide, by decide, by decide, fun _ h => absurd h List.not_mem_nil⟩

theorem withMessages_ne_panic {skipped : ℕ} :
    (Table.withMessages fullMdoc sigStructure skipped (messages item nym)).mapError WitnessError.ofTable ≠
      .error .panic := by
  intro hpanic
  by_cases hfits : ∀ t ∈ Table.padded fullMdoc sigStructure skipped (messages item nym), Fits t
  · obtain ⟨table, hok, -⟩ := Table.withMessages_of_fits Table.wellFormed_fullMdoc messages_nodup messages_mem hfits
    rw [hok] at hpanic
    cases hpanic
  · push Not at hfits
    obtain ⟨count, room, herror⟩ :=
      placeMessages_error (Table.padded_in_range Table.wellFormed_fullMdoc messages_mem) hfits
    rw [Table.withMessages, herror] at hpanic
    cases hpanic

theorem nymPart_ne_panic {offsets : List ℕ} (h : offsets.length = 6) :
    nymPart fullMdoc item (some nym) offsets ≠ .error .panic := by
  refine bind_ne_panic (indexOrPanic_ne_panic (by omega)) fun _ _ => ?_
  refine bind_ne_panic (find_ne_panic (by decide)) fun _ _ => ?_
  refine bind_ne_panic (find_ne_panic (by decide)) fun _ _ => ?_
  intro h
  cases h

theorem nymPart_ok {offsets : List ℕ} {part : List (Region × List UInt8) × Option MdocNym}
    (h : nymPart fullMdoc item (some nym) offsets = .ok part) : part.1 = messages item nym := by
  obtain ⟨_, -, h⟩ := bind_eq_ok_iff.mp h
  obtain ⟨_, -, h⟩ := bind_eq_ok_iff.mp h
  obtain ⟨_, -, h⟩ := bind_eq_ok_iff.mp h
  obtain rfl := Except.ok.inj h
  rfl

/-- No subtraction underflows and no index is out of range, whatever the messages. -/
theorem full_ne_panic (issuerKey : PublicKey) (issuerSignature : Signature) :
    MdocWitness.full sigStructure item nym issuerKey issuerSignature ≠ .error .panic := by
  refine bind_ne_panic searches_ne_panic fun found hfound => ?_
  obtain ⟨hlen, hbound⟩ := searches_ok hfound
  refine bind_ne_panic (leastOrPanic_ne_panic ?_) fun least hleast => ?_
  · rintro rfl
    cases hlen
  obtain ⟨hskipped, hoffsets⟩ := leastOrPanic_ok hleast hbound
  dsimp only
  rw [mapM_subOrPanic hoffsets]
  refine bind_ne_panic (x := .ok _) (fun h => by cases h) fun offsets hmap => ?_
  have hsix : offsets.length = 6 := by
    rw [← Except.ok.inj hmap, List.length_map, hlen]
  refine bind_ne_panic (nymPart_ne_panic hsix) fun part hpart => ?_
  rw [nymPart_ok hpart]
  refine bind_ne_panic withMessages_ne_panic fun table _ => ?_
  rw [subOrPanic_eq hskipped]
  refine bind_ne_panic (x := .ok _) (fun h => by cases h) fun _ _ => ?_
  refine bind_ne_panic (indexOrPanic_ne_panic (by omega)) fun _ _ => ?_
  refine bind_ne_panic (indexOrPanic_ne_panic (by omega)) fun _ _ => ?_
  refine bind_ne_panic (indexOrPanic_ne_panic (by omega)) fun _ _ => ?_
  refine bind_ne_panic (indexOrPanic_ne_panic (by omega)) fun _ _ => ?_
  refine bind_ne_panic (indexOrPanic_ne_panic (by omega)) fun _ _ => ?_
  refine bind_ne_panic (windowAt_ne_panic (by decide) _) fun _ _ => ?_
  refine bind_ne_panic (find_ne_panic (by decide)) fun _ _ => ?_
  intro h
  cases h

end Build

/-! ## Where the values are -/

/-- The places of the values in the issuer's message, the item and the `ssc` item. -/
structure Located where
  docType : ℕ
  digest : ℕ
  deviceKey : ℕ
  validFrom : ℕ
  validUntil : ℕ
  sscDigest : ℕ
  identifier : ℕ
  value : ℕ
  sscIdentifier : ℕ
  sscValue : ℕ

namespace Located

/-- The searches return these places. -/
structure Found (l : Located) (sigStructure item : List UInt8) (nym : NymMessages) : Prop where
  docType : windowAt sigStructure docTypeKey docTypeWindow.len "docType" = .ok l.docType
  digest : find sigStructure (listed item) "the item's digest" = .ok l.digest
  deviceKey : find sigStructure Mdoc.deviceKey "deviceKey" = .ok l.deviceKey
  validFrom : find sigStructure Mdoc.validFrom "validFrom" = .ok l.validFrom
  validUntil : find sigStructure Mdoc.validUntil "validUntil" = .ok l.validUntil
  sscDigest : find sigStructure (listed nym.ssc) "the ssc item's digest" = .ok l.sscDigest
  identifier : windowAt item identifierKey identifierWindow.len "the identifier" = .ok l.identifier
  value : find item Mdoc.value "elementValue" = .ok l.value
  sscIdentifier : find nym.ssc mdocIdentifier "the ssc identifier" = .ok l.sscIdentifier
  sscValue : find nym.ssc mdocValue "the ssc value" = .ok l.sscValue

def offsets (l : Located) : List ℕ := [l.docType, l.digest, l.deviceKey, l.validFrom, l.validUntil, l.sscDigest]

/-- The blocks of the issuer's message before the first value. -/
def skipped (l : Located) : ℕ := blocksBefore (l.offsets.tail.foldl min l.docType)

def nym (l : Located) (m : NymMessages) : MdocNym :=
  ⟨lastBlock m.ssc.length, l.sscDigest - 64 * l.skipped, l.sscIdentifier, l.sscValue⟩

/-- The witness with these places, those in the issuer's message counted from its first block in the table. -/
def witness (l : Located) (sigStructure item : List UInt8) (m : NymMessages) (issuerKey : PublicKey)
    (issuerSignature : Signature) (table : Table) : MdocWitness :=
  ⟨table, issuerKey, issuerSignature, l.skipped, lastBlock sigStructure.length - l.skipped, lastBlock item.length,
    l.docType - 64 * l.skipped, l.digest - 64 * l.skipped, l.deviceKey - 64 * l.skipped, l.validFrom - 64 * l.skipped,
    l.validUntil - 64 * l.skipped, l.identifier, l.value, some (l.nym m)⟩

variable {l : Located} {sigStructure item : List UInt8} {m : NymMessages}

theorem Found.searches (h : l.Found sigStructure item m) : searches sigStructure item (some m) = .ok l.offsets := by
  simp only [Mdoc.searches, h.docType, h.digest, h.deviceKey, h.validFrom, h.validUntil, h.sscDigest]
  rfl

theorem leastOrPanic_offsets (l : Located) : leastOrPanic l.offsets = .ok (l.offsets.tail.foldl min l.docType) := rfl

theorem Found.skipped_le (h : l.Found sigStructure item m) :
    l.skipped ≤ lastBlock sigStructure.length ∧ ∀ pos ∈ l.offsets, 64 * l.skipped ≤ pos :=
  leastOrPanic_ok l.leastOrPanic_offsets (searches_ok h.searches).2

theorem Found.nymPart (h : l.Found sigStructure item m) :
    nymPart fullMdoc item (some m) (l.offsets.map (· - 64 * l.skipped)) = .ok (messages item m, some (l.nym m)) := by
  have hindex : indexOrPanic (l.offsets.map (· - 64 * l.skipped)) 5 = .ok (l.sscDigest - 64 * l.skipped) := rfl
  show (do
    let digestAt ← indexOrPanic (l.offsets.map (· - 64 * l.skipped)) 5
    let identifierAt ← find m.ssc mdocIdentifier "the ssc identifier"
    let valueAt ← find m.ssc mdocValue "the ssc value"
    pure (messages item m, some (⟨lastBlock m.ssc.length, digestAt, identifierAt, valueAt⟩ : MdocNym))) = _
  rw [hindex, h.sscIdentifier, h.sscValue]
  rfl

/-- A witness is built at the places that the searches return, when the table is. -/
theorem Found.full (h : l.Found sigStructure item m) (issuerKey : PublicKey) (issuerSignature : Signature)
    {table : Table} (htable : Table.withMessages fullMdoc sigStructure l.skipped (messages item m) = .ok table) :
    MdocWitness.full sigStructure item m issuerKey issuerSignature =
      .ok (l.witness sigStructure item m issuerKey issuerSignature table) := by
  obtain ⟨hskipped, hoffsets⟩ := h.skipped_le
  have hmap := mapM_subOrPanic hoffsets
  unfold MdocWitness.full MdocWitness.build
  refine bind_eq_ok_iff.mpr ⟨_, h.searches, ?_⟩
  refine bind_eq_ok_iff.mpr ⟨_, l.leastOrPanic_offsets, ?_⟩
  refine bind_eq_ok_iff.mpr ⟨_, hmap, ?_⟩
  refine bind_eq_ok_iff.mpr ⟨_, h.nymPart, ?_⟩
  refine bind_eq_ok_iff.mpr ⟨table, congrArg (Except.mapError _) htable, ?_⟩
  refine bind_eq_ok_iff.mpr ⟨_, subOrPanic_eq hskipped, ?_⟩
  refine bind_eq_ok_iff.mpr ⟨_, rfl, ?_⟩
  refine bind_eq_ok_iff.mpr ⟨_, rfl, ?_⟩
  refine bind_eq_ok_iff.mpr ⟨_, rfl, ?_⟩
  refine bind_eq_ok_iff.mpr ⟨_, rfl, ?_⟩
  refine bind_eq_ok_iff.mpr ⟨_, rfl, ?_⟩
  refine bind_eq_ok_iff.mpr ⟨_, h.identifier, ?_⟩
  exact bind_eq_ok_iff.mpr ⟨_, h.value, rfl⟩

end Located

/-- What a witness that is built says: the places that the searches return, and the table. -/
theorem MdocWitness.full_ok {sigStructure item : List UInt8} {m : NymMessages} {issuerKey : PublicKey}
    {issuerSignature : Signature} {w : MdocWitness}
    (h : MdocWitness.full sigStructure item m issuerKey issuerSignature = .ok w) :
    ∃ (l : Located) (table : Table), l.Found sigStructure item m ∧
      Table.withMessages fullMdoc sigStructure l.skipped (messages item m) = .ok table ∧
      w = l.witness sigStructure item m issuerKey issuerSignature table := by
  have hfull := h
  obtain ⟨found, hfound, h⟩ := bind_eq_ok_iff.mp h
  obtain ⟨docType, hdocType, hfound⟩ := bind_eq_ok_iff.mp hfound
  obtain ⟨digest, hdigest, hfound⟩ := bind_eq_ok_iff.mp hfound
  obtain ⟨deviceKey, hdeviceKey, hfound⟩ := bind_eq_ok_iff.mp hfound
  obtain ⟨validFrom, hvalidFrom, hfound⟩ := bind_eq_ok_iff.mp hfound
  obtain ⟨validUntil, hvalidUntil, hfound⟩ := bind_eq_ok_iff.mp hfound
  obtain ⟨sscDigest, hsscDigest, hfound⟩ := bind_eq_ok_iff.mp hfound
  obtain rfl := Except.ok.inj hfound
  obtain ⟨least, hleast, h⟩ := bind_eq_ok_iff.mp h
  obtain rfl := Except.ok.inj hleast
  obtain ⟨offsets, hoffsets, h⟩ := bind_eq_ok_iff.mp h
  obtain ⟨part, hpart, h⟩ := bind_eq_ok_iff.mp h
  have hmessages := nymPart_ok hpart
  obtain ⟨_, -, hpart⟩ := bind_eq_ok_iff.mp hpart
  obtain ⟨sscIdentifier, hsscIdentifier, hpart⟩ := bind_eq_ok_iff.mp hpart
  obtain ⟨sscValue, hsscValue, -⟩ := bind_eq_ok_iff.mp hpart
  obtain ⟨table, htable, h⟩ := bind_eq_ok_iff.mp h
  obtain ⟨_, -, h⟩ := bind_eq_ok_iff.mp h
  obtain ⟨_, -, h⟩ := bind_eq_ok_iff.mp h
  obtain ⟨_, -, h⟩ := bind_eq_ok_iff.mp h
  obtain ⟨_, -, h⟩ := bind_eq_ok_iff.mp h
  obtain ⟨_, -, h⟩ := bind_eq_ok_iff.mp h
  obtain ⟨_, -, h⟩ := bind_eq_ok_iff.mp h
  obtain ⟨identifier, hidentifier, h⟩ := bind_eq_ok_iff.mp h
  obtain ⟨value, hvalue, -⟩ := bind_eq_ok_iff.mp h
  let l : Located := ⟨docType, digest, deviceKey, validFrom, validUntil, sscDigest, identifier, value, sscIdentifier,
    sscValue⟩
  have hl : l.Found sigStructure item m := ⟨hdocType, hdigest, hdeviceKey, hvalidFrom, hvalidUntil, hsscDigest,
    hidentifier, hvalue, hsscIdentifier, hsscValue⟩
  have hbuilt : Table.withMessages fullMdoc sigStructure l.skipped (messages item m) = .ok table := by
    rw [hmessages] at htable
    have htable : (Table.withMessages fullMdoc sigStructure l.skipped (messages item m)).mapError WitnessError.ofTable =
        .ok table := htable
    cases hrun : Table.withMessages fullMdoc sigStructure l.skipped (messages item m) with
    | error e =>
      rw [hrun] at htable
      cases htable
    | ok table' =>
      rw [hrun] at htable
      exact congrArg Except.ok (Except.ok.inj htable)
  have hwitness := hl.full issuerKey issuerSignature hbuilt
  rw [hfull] at hwitness
  exact ⟨l, table, hl, hbuilt, Except.ok.inj hwitness⟩

/-! ## What the table stores -/

/-- The region holds the message from byte `base` on, and the message ends in block `last` of the region. -/
structure Stores (t : Table) (region : Region) (message : List UInt8) (base last : ℕ) : Prop where
  in_range : region.first + region.blocks ≤ positions
  last_lt : last < region.blocks
  ends : message.length ≤ base + 64 * (last + 1)
  bytes : ∀ o len, base + o + len ≤ message.length →
    ((List.range len).map fun k => tableByte t.chunkValues (64 * region.first + o + k)) =
      (message.drop (base + o)).take len

section Stored

variable {table : Table} {sigStructure item : List UInt8} {m : NymMessages} {skipped : ℕ}

theorem stores_message (hskipped : skipped ≤ lastBlock sigStructure.length)
    (h : Table.withMessages fullMdoc sigStructure skipped (messages item m) = .ok table) {t : Region × List UInt8}
    (ht : t ∈ messages item m) : Stores table t.1 t.2 0 (lastBlock t.2.length) := by
  have hmem : (t.1, pad t.2) ∈ Table.padded fullMdoc sigStructure skipped (messages item m) :=
    List.mem_cons_of_mem _ (List.mem_map.mpr ⟨t, ht, rfl⟩)
  obtain ⟨hfits, hbytes⟩ := Table.withMessages_placed Table.wellFormed_fullMdoc messages_nodup messages_mem h _ hmem
  have hregion := Table.wellFormed_fullMdoc.in_range t.1 (List.mem_cons_of_mem _ (messages_mem t ht))
  have hlen := length_pad t.2
  have hroom : (pad t.2).length ≤ 64 * t.1.blocks := hfits
  have hmessage : t.2.drop 0 <+: pad t.2 := by
    rw [List.drop_zero]
    exact prefix_pad t.2
  have hshort := (prefix_pad t.2).length_le
  exact ⟨hregion, by omega, by omega, fun o len ho =>
    Table.range_tableByte (Table.withMessages_sized hskipped h) hregion hfits hbytes hmessage ho⟩

theorem stores_signed (hskipped : skipped ≤ lastBlock sigStructure.length)
    (h : Table.withMessages fullMdoc sigStructure skipped (messages item m) = .ok table) :
    Stores table fullMdoc.signed sigStructure (64 * skipped) (lastBlock sigStructure.length - skipped) := by
  have hmem : (fullMdoc.signed, (Table.splitSigned sigStructure skipped).2) ∈
      Table.padded fullMdoc sigStructure skipped (messages item m) := List.mem_cons_self
  obtain ⟨hfits, hbytes⟩ := Table.withMessages_placed Table.wellFormed_fullMdoc messages_nodup messages_mem h _ hmem
  have hregion := Table.wellFormed_fullMdoc.in_range fullMdoc.signed List.mem_cons_self
  have hlen := Table.length_kept hskipped
  have hroom : (Table.splitSigned sigStructure skipped).2.length ≤ 64 * fullMdoc.signed.blocks := hfits
  have hmessage : sigStructure.drop (64 * skipped) <+: (Table.splitSigned sigStructure skipped).2 := by
    rw [Table.splitSigned_eq hskipped]
    exact (prefix_pad sigStructure).drop (64 * skipped)
  have hshort := (prefix_pad sigStructure).length_le
  rw [length_pad] at hshort
  exact ⟨hregion, by omega, by omega, fun o len ho =>
    Table.range_tableByte (Table.withMessages_sized hskipped h) hregion hfits hbytes hmessage ho⟩

end Stored

/-! ## The core's reads -/

structure Span where
  message : List UInt8
  first : ℕ
  len : ℕ

namespace Span

def Ends (s : Span) : Prop := s.first + s.len ≤ s.message.length

instance (s : Span) : Decidable s.Ends := inferInstanceAs (Decidable (_ ≤ _))

def bytes (s : Span) : List UInt8 := (s.message.drop s.first).take s.len

def IsRead (s : Span) (w : ReadWindow Scalar Scalar) : Prop :=
  w.bytes.map (fun a => a.lc.eval) = s.bytes.map fun b => (b.toNat : Scalar)

end Span

/-- The windows of the core at the places of the values, in its order. -/
def Located.spans (l : Located) (sigStructure item : List UInt8) (m : NymMessages) : List Span :=
  [⟨sigStructure, l.docType, docTypeWindow.len⟩, ⟨sigStructure, l.digest, 34⟩,
    ⟨item, l.identifier, identifierWindow.len⟩, ⟨item, l.value, Mdoc.value.length + 10⟩,
    ⟨sigStructure, l.deviceKey, deviceKeyLen⟩, ⟨sigStructure, l.validFrom, Mdoc.validFrom.length + 20⟩,
    ⟨sigStructure, l.validUntil, Mdoc.validUntil.length + 20⟩, ⟨sigStructure, l.sscDigest, 34⟩,
    ⟨m.ssc, l.sscIdentifier, mdocIdentifier.length⟩, ⟨m.ssc, l.sscValue, mdocValue.length + 32⟩]

section Opened

variable {table : Table} {cells : Cells Scalar Scalar} {region : Region} {message : List UInt8} {base last : ℕ}

structure Opens (table : Table) (message : List UInt8) (base last : ℕ) (m : Message Scalar Scalar) : Prop where
  cells : m.cells.Holds .honest table.chunkValues
  stores : Stores table m.region message base last
  last : m.last.Holds .honest m.region.blocks last

theorem succeeds_openStored (hcells : cells.Holds .honest table.chunkValues)
    (hstores : Stores table region message base last) :
    (Message.openRegion cells region (some last)).Succeeds fun r => Opens table message base last r.1 := by
  refine (Message.succeeds_openRegion hcells hstores.in_range hstores.last_lt).mono fun r hr => ?_
  obtain ⟨⟨cells', region', last'⟩, digest⟩ := r
  obtain ⟨rfl, rfl, hlast, -, -⟩ := hr
  exact ⟨hcells, hstores, hlast⟩

theorem Opens.succeeds_read {m : Message Scalar Scalar} (h : Opens table message base last m) {first len : ℕ}
    (hbase : base ≤ first) (hlen : 1 ≤ len) (hends : (⟨message, first, len⟩ : Span).Ends) :
    (m.read (some (first - base)) len).Succeeds (Span.IsRead ⟨message, first, len⟩) := by
  have hstores := h.stores
  have hends : first + len ≤ message.length := hends
  have hlast := hstores.ends
  have hblocks : m.region.blocks ≤ positions := le_trans (Nat.le_add_left _ _) hstores.in_range
  refine (Message.succeeds_read h.cells h.last hblocks hlen (by omega)).mono fun w hw => ?_
  have hlt := h.last.lt
  have hat := ReadWindow.isAt_of_holds h.cells.length_eq hstores.in_range (by omega) hw.1 hw.2
  have hinside : first - base + len ≤ 64 * m.region.blocks := by omega
  have hrange := take_drop_regionBytes h.cells.length_eq hstores.in_range hinside
  have hbytes := hstores.bytes (first - base) len (by omega)
  have hfirst : base + (first - base) = first := by omega
  rw [hfirst] at hbytes
  rw [Span.IsRead, hat.2, hrange, hbytes]
  rfl

end Opened

/-- Every window that ends within its message is read where the witness records it. -/
theorem succeeds_reads {table : Table} {cells : Cells Scalar Scalar} {l : Located} {sigStructure item : List UInt8}
    {m : NymMessages} (hcells : cells.Holds .honest table.chunkValues) (hl : l.Found sigStructure item m)
    (htable : Table.withMessages fullMdoc sigStructure l.skipped (messages item m) = .ok table)
    (hends : ∀ s ∈ l.spans sigStructure item m, s.Ends) (issuerKey : PublicKey) (issuerSignature : Signature) :
    (reads cells fullMdoc (l.witness sigStructure item m issuerKey issuerSignature table)).Succeeds
      (List.Forall₂ Span.IsRead (l.spans sigStructure item m)) := by
  obtain ⟨hskipped, hoffsets⟩ := hl.skipped_le
  simp only [Located.offsets, List.forall_mem_cons] at hoffsets
  obtain ⟨hdocType, hdigest, hdeviceKey, hvalidFrom, hvalidUntil, hsscDigest, -⟩ := hoffsets
  simp only [Located.spans, List.forall_mem_cons] at hends
  obtain ⟨edocType, edigest, eidentifier, evalue, edeviceKey, evalidFrom, evalidUntil, esscDigest, esscIdentifier,
    esscValue, -⟩ := hends
  have hattr : (fullMdoc.attr, item) ∈ messages item m := List.mem_cons_self
  have hssc : ((⟨24, 3⟩ : Region), m.ssc) ∈ messages item m := List.mem_cons_of_mem _ List.mem_cons_self
  unfold reads
  refine (succeeds_openStored hcells (stores_signed hskipped htable)).bind fun signed hsigned => ?_
  refine (succeeds_openStored hcells (stores_message hskipped htable hattr)).bind fun opened hopened => ?_
  refine (hsigned.succeeds_read hdocType (by decide) edocType).bind fun docType rdocType => ?_
  refine (hsigned.succeeds_read hdigest (by decide) edigest).bind fun digest rdigest => ?_
  refine (hopened.succeeds_read (Nat.zero_le _) (by decide) eidentifier).bind fun identifier ridentifier => ?_
  refine (hopened.succeeds_read (Nat.zero_le _) (by decide) evalue).bind fun value rvalue => ?_
  refine (hsigned.succeeds_read hdeviceKey (by decide) edeviceKey).bind fun key rkey => ?_
  refine (hsigned.succeeds_read hvalidFrom (by decide) evalidFrom).bind fun from_ rfrom => ?_
  refine (hsigned.succeeds_read hvalidUntil (by decide) evalidUntil).bind fun until_ runtil => ?_
  refine Circuit.Succeeds.bind (P := (· = (⟨⟨24, 3⟩, ⟨30, 1⟩, ⟨28, 2⟩⟩ : PseudonymRegions)))
    (Circuit.succeeds_pure.mpr rfl) fun regions hregions => ?_
  refine Circuit.Succeeds.bind (P := (· = l.nym m)) (Circuit.succeeds_pure.mpr rfl) fun n hn => ?_
  obtain rfl := hregions
  obtain rfl := hn
  refine (succeeds_openStored hcells (stores_message hskipped htable hssc)).bind fun ssc hsscOpened => ?_
  refine (hsigned.succeeds_read hsscDigest (by decide) esscDigest).bind fun sscDigest rsscDigest => ?_
  refine (hsscOpened.succeeds_read (Nat.zero_le _) (by decide) esscIdentifier).bind
    fun sscIdentifier rsscIdentifier => ?_
  refine (hsscOpened.succeeds_read (Nat.zero_le _) (by decide) esscValue).bind fun sscValue rsscValue => ?_
  refine Circuit.succeeds_pure.mpr ?_
  exact .cons rdocType (.cons rdigest (.cons ridentifier (.cons rvalue (.cons rkey (.cons rfrom (.cons runtil
    (.cons rsscDigest (.cons rsscIdentifier (.cons rsscValue .nil)))))))))

theorem startsAtZero_fullMdoc : fullMdoc.StartsAtZero := .inl rfl

/-- The build never panics. A witness that is built has the places of its searches; when every window ends
within its message, each last block is in its region, the table satisfies every step, and each read of the
core succeeds with the bytes of the original message. -/
theorem MdocWitness.full_complete (gadget : CompressionGadget Scalar) (sigStructure item : List UInt8) (m : NymMessages)
    (issuerKey : PublicKey) (issuerSignature : Signature) :
    MdocWitness.full sigStructure item m issuerKey issuerSignature ≠ .error .panic ∧
    ∀ w, MdocWitness.full sigStructure item m issuerKey issuerSignature = .ok w →
      ∃ l : Located, l.Found sigStructure item m ∧ ((∀ s ∈ l.spans sigStructure item m, s.Ends) →
        w.signedLast < 22 ∧ w.attributeLast < 2 ∧ (∃ n, w.nym = some n ∧ n.last < 3) ∧
        (allocate w.table : Circuit Scalar Scalar _).Succeeds fun nums => ∃ cells : Cells Scalar Scalar,
          cells.nums = nums ∧
          (∀ j < positions,
            (Step.precommitted gadget.compress cells w.table.layout j).Honest [(j : Scalar)] ()) ∧
          (reads cells w.table.layout w).Succeeds (List.Forall₂ Span.IsRead (l.spans sigStructure item m))) := by
  refine ⟨full_ne_panic issuerKey issuerSignature, fun w hw => ?_⟩
  obtain ⟨l, table, hl, htable, rfl⟩ := MdocWitness.full_ok hw
  refine ⟨l, hl, fun hends => ?_⟩
  obtain ⟨hskipped, -⟩ := hl.skipped_le
  have hsized := Table.withMessages_sized hskipped htable
  have hlayout : table.layout = fullMdoc := (Table.withMessages_ok htable).2.2.2.1
  have hsigned := (stores_signed hskipped htable).last_lt
  have hattr := (stores_message hskipped htable (t := (⟨22, 2⟩, item)) List.mem_cons_self).last_lt
  have hssc := (stores_message hskipped htable (t := (⟨24, 3⟩, m.ssc))
    (List.mem_cons_of_mem _ List.mem_cons_self)).last_lt
  refine ⟨hsigned, hattr, ⟨_, rfl, hssc⟩, ?_⟩
  refine (succeeds_allocate table).mono fun nums hnums => ?_
  have hcount : nums.length = cellsPerPosition * positions + 2 :=
    hnums.length_eq.trans (Table.length_cellBytes table)
  have hcarries : (⟨nums, hcount⟩ : Cells Scalar Scalar).Carries .honest table := hnums
  refine ⟨⟨nums, hcount⟩, rfl, ?_, ?_⟩
  · intro j hj
    show (Step.precommitted _ _ table.layout j).Honest _ _
    rw [hlayout]
    exact honest_precommitted gadget hcarries hsized startsAtZero_fullMdoc hj
      (Table.withMessages_stepHolds Table.wellFormed_fullMdoc startsAtZero_fullMdoc hskipped htable hj)
  · show (reads _ table.layout _).Succeeds _
    rw [hlayout]
    exact succeeds_reads (hcarries.holds hsized) hl htable hends issuerKey issuerSignature

/-! ## A credential -/

/-- An item that names `ssc`, with a date and a byte string as values. -/
def shortItem : List UInt8 := value ++ List.replicate 10 0x30 ++ mdocIdentifier ++ mdocValue ++ List.replicate 32 0

def shortDigest : List UInt8 :=
  [0xbf, 0x0c, 0x65, 0x3e, 0x66, 0x22, 0x58, 0x59, 0x5b, 0xcd, 0xeb, 0xbc, 0xbf, 0x88, 0xf9, 0x80, 0xfc, 0x59, 0x43,
    0xf1, 0xcc, 0x39, 0x7d, 0xb7, 0x0b, 0x8c, 0x9a, 0x54, 0x8b, 0xc1, 0x6e, 0x05]

/-- A message whose first value starts at its second block. -/
def shortSigStructure : List UInt8 :=
  List.replicate 100 0 ++ docTypeKey ++ [0x63, 0x61, 0x62, 0x63] ++ digestHead ++ shortDigest ++ deviceKey ++
    List.replicate 32 0 ++ deviceKeyY ++ List.replicate 32 0 ++ validFrom ++ List.replicate 20 0x30 ++ validUntil ++
    List.replicate 20 0x30

def shortMessages : NymMessages := ⟨shortItem, zeroBytes 16, zeroBytes 32⟩

def shortLocated : Located := ⟨64, 112, 146, 231, 263, 112, 9, 0, 27, 49⟩

theorem hash_shortItem : Sha256.hash shortItem = shortDigest := by decide +kernel

theorem found_short : shortLocated.Found shortSigStructure shortItem shortMessages := by
  have hlisted : listed shortItem = digestHead ++ shortDigest := by rw [listed, hash_shortItem]
  refine ⟨by decide +kernel, ?_, by decide +kernel, by decide +kernel, by decide +kernel, ?_, by decide +kernel,
    by decide +kernel, by decide +kernel, by decide +kernel⟩
  · rw [hlisted]
    decide +kernel
  · show find _ (listed shortItem) _ = _
    rw [hlisted]
    decide +kernel

theorem fits_short : ∀ t ∈ Table.padded fullMdoc shortSigStructure shortLocated.skipped
    (messages shortItem shortMessages), Fits t := by decide +kernel

theorem Located.Found.unique {l l' : Located} {sigStructure item : List UInt8} {m : NymMessages}
    (h : l.Found sigStructure item m) (h' : l'.Found sigStructure item m) : l = l' := by
  obtain ⟨a, b, c, d, e, f, g, i, j, k⟩ := l
  obtain ⟨a', b', c', d', e', f', g', i', j', k'⟩ := l'
  obtain rfl := Except.ok.inj (h.docType.symm.trans h'.docType)
  obtain rfl := Except.ok.inj (h.digest.symm.trans h'.digest)
  obtain rfl := Except.ok.inj (h.deviceKey.symm.trans h'.deviceKey)
  obtain rfl := Except.ok.inj (h.validFrom.symm.trans h'.validFrom)
  obtain rfl := Except.ok.inj (h.validUntil.symm.trans h'.validUntil)
  obtain rfl := Except.ok.inj (h.sscDigest.symm.trans h'.sscDigest)
  obtain rfl := Except.ok.inj (h.identifier.symm.trans h'.identifier)
  obtain rfl := Except.ok.inj (h.value.symm.trans h'.value)
  obtain rfl := Except.ok.inj (h.sscIdentifier.symm.trans h'.sscIdentifier)
  obtain rfl := Except.ok.inj (h.sscValue.symm.trans h'.sscValue)
  rfl

/-- A witness is built for the credential, and the core reads its docType's window. -/
theorem MdocWitness.full_complete_short : ∃ w : MdocWitness,
    MdocWitness.full shortSigStructure shortItem shortMessages ⟨zeroBytes 32, zeroBytes 32⟩
      ⟨zeroBytes 32, zeroBytes 32⟩ = .ok w ∧ w.skipped = 1 ∧ w.signedLast < 22 ∧
    (allocate w.table : Circuit Scalar Scalar _).Succeeds fun nums => ∃ cells : Cells Scalar Scalar,
      cells.nums = nums ∧ (reads cells w.table.layout w).Succeeds
        (List.Forall₂ Span.IsRead (shortLocated.spans shortSigStructure shortItem shortMessages)) := by
  obtain ⟨table, htable, -⟩ :=
    Table.withMessages_of_fits Table.wellFormed_fullMdoc messages_nodup messages_mem fits_short
  have hfull := found_short.full ⟨zeroBytes 32, zeroBytes 32⟩ ⟨zeroBytes 32, zeroBytes 32⟩ htable
  obtain ⟨l, hl, hcomplete⟩ := (MdocWitness.full_complete readingGadget shortSigStructure shortItem shortMessages
    ⟨zeroBytes 32, zeroBytes 32⟩ ⟨zeroBytes 32, zeroBytes 32⟩).2 _ hfull
  obtain rfl := hl.unique found_short
  obtain ⟨hlast, -, -, hrun⟩ := hcomplete (by decide +kernel)
  refine ⟨_, hfull, rfl, hlast, hrun.mono fun nums hnums => ?_⟩
  obtain ⟨cells, hcells, -, hreads⟩ := hnums
  exact ⟨cells, hcells, hreads⟩

end Mdoc

end ZkCredVega.Nym
