import ZkCredVega.MdocAge.BirthDate

/-!
# Issuer signed items

What an issuer hashes, apart from any circuit: a map of four entries in canonical CBOR, wrapped in
tag 24. A `birth_date` item in either encoding is one that the extraction reads.
-/

namespace ZkCredVega

open Circuits

/-! ## Canonical CBOR -/

/-- The head of a data item, in the shortest form: a major type, shifted into place, and its argument. -/
def cborHead (major : UInt8) (n : ℕ) : List UInt8 :=
  if n < 24 then [major + UInt8.ofNat n]
  else if n < 2 ^ 8 then (major + 24) :: beBytes 1 n
  else if n < 2 ^ 16 then (major + 25) :: beBytes 2 n
  else if n < 2 ^ 32 then (major + 26) :: beBytes 4 n
  else (major + 27) :: beBytes 8 n

mutual

/-- A CBOR value; a text is its bytes, and a negative integer is `-1 - n`. -/
inductive CborValue where
  | unsigned (n : ℕ)
  | negative (n : ℕ)
  | bytes (content : List UInt8)
  | text (content : List UInt8)
  | array (values : CborValues)
  | map (entries : CborEntries)
  | tag (n : ℕ) (value : CborValue)
  | simple (n : UInt8)
  | half (bits : UInt16)
  | single (bits : UInt32)
  | double (bits : UInt64)

inductive CborValues where
  | nil
  | cons (value : CborValue) (rest : CborValues)

inductive CborEntries where
  | nil
  | cons (key value : CborValue) (rest : CborEntries)

end

def CborValues.length : CborValues → ℕ
  | nil => 0
  | cons _ rest => rest.length + 1

def CborEntries.length : CborEntries → ℕ
  | nil => 0
  | cons _ _ rest => rest.length + 1

mutual

def CborValue.encode : CborValue → List UInt8
  | .unsigned n => cborHead 0x00 n
  | .negative n => cborHead 0x20 n
  | .bytes content => cborHead 0x40 content.length ++ content
  | .text content => cborHead 0x60 content.length ++ content
  | .array values => cborHead 0x80 values.length ++ values.encode
  | .map entries => cborHead 0xa0 entries.length ++ entries.encode
  | .tag n value => cborHead 0xc0 n ++ value.encode
  | .simple n => cborHead 0xe0 n.toNat
  | .half bits => 0xf9 :: beBytes 2 bits.toNat
  | .single bits => 0xfa :: beBytes 4 bits.toNat
  | .double bits => 0xfb :: beBytes 8 bits.toNat

def CborValues.encode : CborValues → List UInt8
  | .nil => []
  | .cons value rest => value.encode ++ rest.encode

def CborEntries.encode : CborEntries → List UInt8
  | .nil => []
  | .cons key value rest => key.encode ++ value.encode ++ rest.encode

end

theorem length_cborHead_short {major : UInt8} {n : ℕ} (h : n < 256) :
    (cborHead major n).length = if n < 24 then 1 else 2 := by
  unfold cborHead
  by_cases h24 : n < 24
  · rw [if_pos h24, if_pos h24]
    rfl
  · have h8 : n < 2 ^ 8 := h
    rw [if_neg h24, if_neg h24, if_pos h8]
    rfl

/-- A `digestID` has one of the widths that the circuit knows. -/
theorem length_cborHead_mem {major : UInt8} {n : ℕ} (h : n < 2 ^ 31) :
    (cborHead major n).length ∈ Mso.digestIdWidths := by
  unfold cborHead
  by_cases h24 : n < 24
  · rw [if_pos h24, List.length_singleton]
    decide
  by_cases h8 : n < 2 ^ 8
  · rw [if_neg h24, if_pos h8, List.length_cons, length_beBytes]
    decide
  by_cases h16 : n < 2 ^ 16
  · rw [if_neg h24, if_neg h8, if_pos h16, List.length_cons, length_beBytes]
    decide
  · rw [if_neg h24, if_neg h8, if_neg h16, if_pos (by omega), List.length_cons, length_beBytes]
    decide

/-! ## Items -/

def randomKey : List UInt8 := [0x66, 0x72, 0x61, 0x6e, 0x64, 0x6f, 0x6d]

def digestIdKey : List UInt8 := [0x68, 0x64, 0x69, 0x67, 0x65, 0x73, 0x74, 0x49, 0x44]

/-- An item of a conformant issuer, in the order of its keys. -/
structure IssuerSignedItem where
  random : List UInt8
  digestId : ℕ
  elementValue : CborValue
  elementIdentifier : List UInt8
  min_random : minSaltBytes ≤ random.length
  max_random : random.length ≤ maxSaltBytes
  digestId_lt : digestId < 2 ^ 31

namespace IssuerSignedItem

variable (item : IssuerSignedItem)

/-- What stands before the `elementValue` key in the map. -/
def mapStart : List UInt8 :=
  0xa4 :: randomKey ++ cborHead 0x40 item.random.length ++ item.random ++ digestIdKey ++ cborHead 0x00 item.digestId

/-- The map, from its `elementValue` key on. -/
def mapEnd : List UInt8 :=
  valueKeyLiteral ++ item.elementValue.encode ++ identifierKey ++ cborHead 0x60 item.elementIdentifier.length ++
    item.elementIdentifier

/-- The item that is hashed: the map as a byte string under tag 24. -/
def encode : List UInt8 :=
  [0xd8, 0x18] ++ cborHead 0x40 (item.mapStart ++ item.mapEnd).length ++ (item.mapStart ++ item.mapEnd)

def valueKeyOffset : ℕ := elementValueKeyOffset item.random.length (cborHead 0x00 item.digestId).length

theorem valueKeyOffset_mem : item.valueKeyOffset ∈ candidateValueKeyOffsets :=
  mem_candidateValueKeyOffsets.mpr ⟨item.random.length, _, item.min_random, item.max_random,
    length_cborHead_mem item.digestId_lt, rfl⟩

theorem length_mapStart : item.mapStart.length + 4 = item.valueKeyOffset := by
  have hmax := item.max_random
  simp only [maxSaltBytes] at hmax
  have hkeys : randomKey.length = 6 + 1 ∧ digestIdKey.length = 9 := ⟨rfl, rfl⟩
  simp only [mapStart, List.cons_append, List.length_cons, List.length_append, hkeys,
    length_cborHead_short (show item.random.length < 256 by omega), valueKeyOffset, elementValueKeyOffset]
  omega

/-- The wrapping takes four bytes for the maps that fit the circuit. -/
theorem length_wrapping (h : item.mapEnd.length < 196) :
    ([0xd8, 0x18] ++ cborHead 0x40 (item.mapStart ++ item.mapEnd).length).length = 4 := by
  have hstart := item.length_mapStart
  have hrange := candidate_le item.valueKeyOffset_mem
  have hlen : (item.mapStart ++ item.mapEnd).length < 256 := by
    rw [List.length_append]
    omega
  rw [List.length_append, length_cborHead_short hlen, if_neg (by rw [List.length_append]; omega)]
  rfl

theorem drop_encode (h : item.mapEnd.length < 196) : item.encode.drop item.valueKeyOffset = item.mapEnd := by
  rw [encode, ← List.append_assoc, ← item.length_mapStart, Nat.add_comm, ← item.length_wrapping h,
    ← List.length_append, List.drop_left]

theorem length_encode_of (h : item.mapEnd.length < 196) :
    item.encode.length = item.valueKeyOffset + item.mapEnd.length := by
  rw [encode, List.length_append, item.length_wrapping h, List.length_append, ← item.length_mapStart]
  omega

end IssuerSignedItem

/-! ## Items that carry a date of birth -/

/-- The value of a date of birth: a `full-date`, which is tag 1004, or Photo ID's map of one. -/
def DateEncoding.value (date : List UInt8) : DateEncoding → CborValue
  | bare => .tag 1004 (.text date)
  | photoIdMap => .map (.cons (.text birthDateText) (.tag 1004 (.text date)) .nil)

theorem DateEncoding.encode_value (e : DateEncoding) {date : List UInt8} (h : date.length = 10) :
    (e.value date).encode = e.literal ++ date := by
  have hhead : cborHead 0xc0 1004 = [0xd9, 0x03, 0xec] := by decide
  have htext : cborHead 0x60 10 = [0x6a] := by decide
  cases e with
  | bare =>
    rw [value, CborValue.encode, CborValue.encode, h, hhead, htext]
    rfl
  | photoIdMap =>
    have hmap : cborHead 0xa0 1 = [0xa1] := by decide
    have hkey : cborHead 0x60 birthDateText.length = [0x6a] := by decide
    simp only [value, CborValue.encode, CborEntries.encode, CborEntries.length, h, hhead, htext, hmap, hkey, literal,
      List.append_nil]
    rfl

/-- An item is a `birth_date` that carries `date`. -/
structure IssuerSignedItem.IsBirthDate (item : IssuerSignedItem) (e : DateEncoding) (date : List UInt8) : Prop where
  length_date : date.length = 10
  value_eq : item.elementValue = e.value date
  identifier_eq : item.elementIdentifier = birthDateText

namespace IssuerSignedItem.IsBirthDate

variable {item : IssuerSignedItem} {e : DateEncoding} {date : List UInt8} (h : item.IsBirthDate e date)

include h

theorem mapEnd_eq : item.mapEnd = dateItemTail e date := by
  have hhead : cborHead 0x60 birthDateText.length = [0x6a] := by decide
  rw [mapEnd, h.value_eq, e.encode_value h.length_date, h.identifier_eq, hhead, dateItemTail, identifierLiteral]
  simp only [List.append_assoc, List.singleton_append]

theorem length_mapEnd_lt : item.mapEnd.length < 196 := by
  have hrel : ∀ e : DateEncoding, e.identifierRel + identifierLiteral.length < 196 := by
    intro e
    cases e <;> decide
  rw [h.mapEnd_eq, length_dateItemTail h.length_date]
  exact hrel e

theorem length_encode_eq : item.encode.length = e.itemLen item.valueKeyOffset := by
  rw [item.length_encode_of h.length_mapEnd_lt, h.mapEnd_eq, length_dateItemTail h.length_date, DateEncoding.itemLen,
    Nat.add_assoc]

theorem dateAt : DateAt item.encode item.valueKeyOffset e date := by
  refine ⟨h.length_date, ?_, ?_⟩
  · rw [item.drop_encode h.length_mapEnd_lt, h.mapEnd_eq]
  · rw [h.length_encode_eq, DateEncoding.itemLen]
    omega

theorem length_encode_le : item.encode.length ≤ maxClaimBytesV1 := by
  rw [h.length_encode_eq]
  exact itemLen_le (t := (item.valueKeyOffset, e)) (mem_dateCandidates.mpr item.valueKeyOffset_mem)

theorem birthDateBytes_eq {w : MdocAgeWitness} (hitem : w.itemBytes = item.encode)
    (hoffset : w.elementValueKeyOffset = item.valueKeyOffset) (hencoding : w.dateEncoding = e) :
    w.birthDateBytes = some date := by
  have hlen := h.dateAt.itemLen_le_length
  have hmax := h.length_encode_le
  simp only [DateEncoding.itemLen, DateEncoding.identifierRel] at hlen
  simp only [maxClaimBytesV1] at hmax
  have hdate := h.dateAt.windowAt_date
  rw [windowAt_eq_take (by omega)] at hdate
  unfold MdocAgeWitness.birthDateBytes
  dsimp only
  rw [hoffset, hencoding, hitem, if_neg (by simp only [usizeBound]; omega), slice, if_pos (by omega), List.drop_take,
    Nat.add_sub_cancel_left, hdate]

end IssuerSignedItem.IsBirthDate

def birthDateItem (salt : List UInt8) (digestId : ℕ) (e : DateEncoding) (date : List UInt8)
    (hmin : minSaltBytes ≤ salt.length) (hmax : salt.length ≤ maxSaltBytes) (hid : digestId < 2 ^ 31) :
    IssuerSignedItem where
  random := salt
  digestId := digestId
  elementValue := e.value date
  elementIdentifier := birthDateText
  min_random := hmin
  max_random := hmax
  digestId_lt := hid

theorem birthDateItem_isBirthDate {salt : List UInt8} {digestId : ℕ} (e : DateEncoding) {date : List UInt8}
    (hmin : minSaltBytes ≤ salt.length) (hmax : salt.length ≤ maxSaltBytes) (hid : digestId < 2 ^ 31)
    (hdate : date.length = 10) : (birthDateItem salt digestId e date hmin hmax hid).IsBirthDate e date :=
  ⟨hdate, rfl, rfl⟩

/-- Every date of birth of a conformant issuer can be extracted: its item is as long as the circuit takes it to be,
at one of the offsets that the circuit knows, inside the buffer; the honest witness satisfies the item part, coverage
by the hashed bytes included; and the circuit and the prover read its ten bytes. -/
theorem synthesizeItem_complete {F : Type} [Field F] [LargeChar F] (gadget : CompressionGadget F) (salt : List UInt8)
    (digestId : ℕ) (e : DateEncoding) (date : List UInt8) (hmin : minSaltBytes ≤ salt.length)
    (hmax : salt.length ≤ maxSaltBytes) (hid : digestId < 2 ^ 31) (hdate : date.length = 10) :
    (birthDateItem salt digestId e date hmin hmax hid).encode.length =
        e.itemLen (elementValueKeyOffset salt.length (cborHead 0x00 digestId).length) ∧
      elementValueKeyOffset salt.length (cborHead 0x00 digestId).length ∈ candidateValueKeyOffsets ∧
      (∀ t ∈ dateCandidates, t.2.itemLen t.1 ≤ maxClaimBytesV1 ∧
        (∀ u ∈ t.2.literals, t.1 + u.1 < t.2.itemLen t.1) ∧ t.1 + t.2.dateRel + 10 ≤ t.2.itemLen t.1) ∧
      ∀ w : MdocAgeWitness, w.itemBytes = (birthDateItem salt digestId e date hmin hmax hid).encode →
        w.elementValueKeyOffset = elementValueKeyOffset salt.length (cborHead 0x00 digestId).length →
        w.dateEncoding = e → w.birthDateBytes = some date ∧
          ∀ located : List (AllocatedNum F F), Locates located w.itemBytes →
            (synthesizeItem gadget.compress w located).Succeeds fun wires =>
              wires.Hashes w.itemBytes ∧ HoldsBytes .honest wires.date date := by
  have hitem := birthDateItem_isBirthDate e hmin hmax hid hdate
  have hmem := (birthDateItem salt digestId e date hmin hmax hid).valueKeyOffset_mem
  refine ⟨hitem.length_encode_eq, hmem, fun t ht => ⟨itemLen_le ht, fun u hu => literal_lt hu, ?_⟩, ?_⟩
  · simp only [DateEncoding.itemLen, DateEncoding.identifierRel]
    omega
  · intro w hbytes hoffset hencoding
    refine ⟨hitem.birthDateBytes_eq hbytes hoffset hencoding, fun located hlocated => ?_⟩
    refine succeeds_synthesizeItem gadget ?_ hlocated ?_ ?_
    · rw [hbytes]
      exact hitem.length_encode_le
    · rw [hoffset]
      exact mem_dateCandidates.mpr hmem
    · rw [hbytes, hoffset, hencoding]
      exact hitem.dateAt

def itemWitness (item : List UInt8) (valueKeyOffset : ℕ) (e : DateEncoding) : MdocAgeWitness :=
  { shortWitness with itemBytes := item, elementValueKeyOffset := valueKeyOffset, dateEncoding := e }

/-- The packs of an item's digest, as they are located. -/
def locatedPacks {F : Type} [Field F] (item : List UInt8) : List (AllocatedNum F F) :=
  (packBytes (Sha256.hash item)).map fun n : ℕ => ⟨(n : F), some (n : F)⟩

theorem locates_locatedPacks {F : Type} [Field F] (item : List UInt8) :
    Locates (locatedPacks item : List (AllocatedNum F F)) item := by
  rw [Locates, locatedPacks, List.map_map]
  rfl

def newYear1990 : List UInt8 := [0x31, 0x39, 0x39, 0x30, 0x2d, 0x30, 0x31, 0x2d, 0x30, 0x31]

def item1990 : IssuerSignedItem :=
  birthDateItem (List.replicate 16 0) 7 .bare newYear1990 (by decide) (by decide) (by decide)

theorem synthesizeItem_complete_1990 : item1990.encode.length = 95 ∧ 39 ∈ candidateValueKeyOffsets ∧
    ∃ wires : ItemWires Scalar Scalar, (synthesizeItem readingGadget.compress (itemWitness item1990.encode 39 .bare)
      (locatedPacks item1990.encode)).Runs [] wires ∧ HoldsBytes .any wires.date newYear1990 := by
  obtain ⟨hlen, hmem, -, hread⟩ := synthesizeItem_complete (readingGadget (F := Scalar)) (List.replicate 16 0) 7 .bare
    newYear1990 (by decide) (by decide) (by decide) rfl
  obtain ⟨-, hsucceeds⟩ := hread (itemWitness item1990.encode 39 .bare) rfl rfl rfl
  obtain ⟨wires, hrun, -, hdate⟩ := hsucceeds (locatedPacks item1990.encode) (locates_locatedPacks _)
  exact ⟨hlen.trans (by decide), hmem, wires, hrun.runs, HoldsBytes.any hdate⟩

end ZkCredVega
