import ZkCredVega.MdocAge.IssuerSignedItem

/-!
# Imitations of a date of birth

The extraction compares literals and nothing of the CBOR framing around them, so it reads a date
wherever a candidate's literals stand. At an item's own `elementValue` key they leave no choice:
the value is a `full-date` and the identifier is `birth_date`. At another offset they are content
that the issuer signed as something else, and the item is read as the date of birth it is not.
-/

namespace ZkCredVega

open Circuits

/-! ## What the first bytes of a value say -/

/-- The low five bits of a head. -/
def headCode (n : ℕ) : ℕ :=
  if n < 24 then n else if n < 2 ^ 8 then 24 else if n < 2 ^ 16 then 25 else if n < 2 ^ 32 then 26 else 27

/-- The bytes of a head after the first. -/
def headArgument (n : ℕ) : List UInt8 :=
  if n < 24 then [] else if n < 2 ^ 8 then beBytes 1 n else if n < 2 ^ 16 then beBytes 2 n
  else if n < 2 ^ 32 then beBytes 4 n else beBytes 8 n

theorem headCode_le (n : ℕ) : headCode n ≤ 27 := by
  unfold headCode
  split_ifs <;> omega

theorem cborHead_eq (major : UInt8) (n : ℕ) :
    cborHead major n = (major + UInt8.ofNat (headCode n)) :: headArgument n := by
  unfold cborHead headCode headArgument
  split_ifs <;> rfl

theorem eq_of_headCode {n k : ℕ} (h : headCode n = k) (hk : k < 24) : n = k := by
  unfold headCode at h
  split_ifs at h <;> omega

theorem headArgument_of_code {n : ℕ} (h : headCode n = 25) : n < 2 ^ 16 ∧ headArgument n = beBytes 2 n := by
  unfold headCode at h
  unfold headArgument
  split_ifs at h ⊢ <;> first | omega | exact ⟨by omega, rfl⟩

/-- The major type of a value, shifted into place. -/
def CborValue.major : CborValue → UInt8
  | .unsigned _ => 0x00
  | .negative _ => 0x20
  | .bytes _ => 0x40
  | .text _ => 0x60
  | .array _ => 0x80
  | .map _ => 0xa0
  | .tag _ _ => 0xc0
  | .simple _ | .half _ | .single _ | .double _ => 0xe0

theorem CborValue.encode_eq_cons (v : CborValue) : ∃ code ≤ 27, ∃ rest, v.encode = (v.major + UInt8.ofNat code) :: rest := by
  cases v with
  | unsigned n => exact ⟨headCode n, headCode_le n, _, by rw [encode, cborHead_eq]; rfl⟩
  | negative n => exact ⟨headCode n, headCode_le n, _, by rw [encode, cborHead_eq]; rfl⟩
  | bytes b => exact ⟨headCode b.length, headCode_le _, _, by rw [encode, cborHead_eq]; rfl⟩
  | text b => exact ⟨headCode b.length, headCode_le _, _, by rw [encode, cborHead_eq]; rfl⟩
  | array vs => exact ⟨headCode vs.length, headCode_le _, _, by rw [encode, cborHead_eq]; rfl⟩
  | map es => exact ⟨headCode es.length, headCode_le _, _, by rw [encode, cborHead_eq]; rfl⟩
  | tag n v => exact ⟨headCode n, headCode_le n, _, by rw [encode, cborHead_eq]; rfl⟩
  | simple n => exact ⟨headCode n.toNat, headCode_le _, _, by rw [encode, cborHead_eq]; rfl⟩
  | half bits => exact ⟨25, by decide, _, by rw [encode]; rfl⟩
  | single bits => exact ⟨26, by decide, _, by rw [encode]; rfl⟩
  | double bits => exact ⟨27, by decide, _, by rw [encode]; rfl⟩

theorem toNat_major_add {major : UInt8} {code : ℕ} (hmajor : major.toNat ≤ 224) (hcode : code ≤ 27) :
    (major + UInt8.ofNat code).toNat = major.toNat + code := by
  rw [UInt8.toNat_add, UInt8.toNat_ofNat']
  omega

theorem CborValue.toNat_major (v : CborValue) : v.major.toNat ≤ 224 ∧ v.major.toNat % 32 = 0 := by
  cases v <;> simp [major]

theorem CborValue.major_of_first {v : CborValue} {b : UInt8} {x y : List UInt8} (h : v.encode ++ x = b :: y) :
    v.major.toNat = b.toNat / 32 * 32 := by
  obtain ⟨code, hcode, rest, heq⟩ := v.encode_eq_cons
  obtain ⟨hle, hmod⟩ := v.toNat_major
  rw [heq, List.cons_append, List.cons.injEq] at h
  rw [← h.1, toNat_major_add hle hcode]
  omega

theorem headCode_of_first {major b : UInt8} {n : ℕ} {x y : List UInt8} (hmajor : major.toNat ≤ 224)
    (h : cborHead major n ++ x = b :: y) : headCode n = b.toNat - major.toNat ∧ headArgument n ++ x = y := by
  rw [cborHead_eq, List.cons_append, List.cons.injEq] at h
  refine ⟨?_, h.2⟩
  rw [← h.1, toNat_major_add hmajor (headCode_le n)]
  omega

theorem text_of_head {content x y : List UInt8} (h : cborHead 0x60 content.length ++ (content ++ x) = 0x6a :: y) :
    content.length = 10 ∧ content ++ x = y := by
  obtain ⟨hcode, hrest⟩ := headCode_of_first (by decide) h
  have hlen : content.length = 10 := eq_of_headCode hcode (by decide)
  rw [hlen] at hrest
  exact ⟨hlen, hrest⟩

theorem CborValue.text_of_first {v : CborValue} {x y : List UInt8} (h : v.encode ++ x = 0x6a :: y) :
    ∃ content, content.length = 10 ∧ v = .text content ∧ content ++ x = y := by
  have hmajor : v.major.toNat = 96 := major_of_first h
  cases v with
  | text content =>
    rw [encode, List.append_assoc] at h
    obtain ⟨hlen, hrest⟩ := text_of_head h
    exact ⟨content, hlen, rfl, hrest⟩
  | _ => simp [major] at hmajor

theorem CborValue.fullDate_of_first {v : CborValue} {x y : List UInt8}
    (h : v.encode ++ x = 0xd9 :: 0x03 :: 0xec :: 0x6a :: y) :
    ∃ date, date.length = 10 ∧ v = .tag 1004 (.text date) ∧ date ++ x = y := by
  have hmajor : v.major.toNat = 192 := major_of_first h
  cases v with
  | tag n v =>
    rw [encode, List.append_assoc] at h
    obtain ⟨hcode, hrest⟩ := headCode_of_first (by decide) h
    obtain ⟨hlt, hargument⟩ := headArgument_of_code hcode
    rw [hargument] at hrest
    have hbytes : beBytes 2 n = [UInt8.ofNat (n / 256), UInt8.ofNat (n / 1)] := rfl
    rw [hbytes, List.cons_append, List.cons_append, List.nil_append, List.cons.injEq, List.cons.injEq] at hrest
    obtain ⟨hhigh, hlow, hrest⟩ := hrest
    have hhigh := congrArg UInt8.toNat hhigh
    have hlow := congrArg UInt8.toNat hlow
    rw [UInt8.toNat_ofNat'] at hhigh hlow
    have hn : n = 1004 := by
      simp at hhigh hlow
      omega
    obtain ⟨date, hlen, rfl, hy⟩ := text_of_first hrest
    exact ⟨date, hlen, by rw [hn], hy⟩
  | _ => simp [major] at hmajor

theorem CborEntries.eq_of_length_one {entries : CborEntries} (h : entries.length = 1) :
    ∃ key value, entries = .cons key value .nil := by
  cases entries with
  | nil => exact absurd h (by decide)
  | cons key value rest =>
    cases rest with
    | nil => exact ⟨key, value, rfl⟩
    | cons _ _ rest =>
      simp only [length] at h
      omega

/-- A value that starts with the bytes around a date is one of the two encodings of a date. -/
theorem CborValue.date_of_first {v : CborValue} {x y : List UInt8} {e : DateEncoding}
    (h : v.encode ++ x = e.literal ++ y) :
    ∃ date, date.length = 10 ∧ v = e.value date ∧ date ++ x = y := by
  cases e with
  | bare => exact fullDate_of_first h
  | photoIdMap =>
    have hmajor : v.major.toNat = 160 := major_of_first h
    cases v with
    | map entries =>
      rw [encode, List.append_assoc] at h
      obtain ⟨hcode, hrest⟩ := headCode_of_first (b := 0xa1) (by decide) h
      have hone : entries.length = 1 := eq_of_headCode hcode (by decide)
      obtain ⟨key, value, rfl⟩ := CborEntries.eq_of_length_one hone
      rw [CborEntries.encode, CborEntries.encode, List.append_nil, List.append_assoc] at hrest
      rw [hone] at hrest
      obtain ⟨content, hlen, rfl, hcontent⟩ := text_of_first hrest
      have hcontent : content ++ (value.encode ++ x) = birthDateText ++ ([0xd9, 0x03, 0xec, 0x6a] ++ y) := hcontent
      obtain ⟨rfl, hdateRest⟩ := List.append_inj hcontent hlen
      obtain ⟨date, hdate, rfl, hy⟩ := fullDate_of_first hdateRest
      exact ⟨date, hdate, rfl, hy⟩
    | _ => simp [major] at hmajor

/-! ## Reading at the item's own key -/

namespace IssuerSignedItem

variable {item : IssuerSignedItem} {o : ℕ} {e : DateEncoding} {date : List UInt8}

/-- Literals at the item's own key leave no choice of value or identifier. -/
theorem isBirthDate_of_dateAt (hlen : item.encode.length ≤ maxClaimBytesV1)
    (h : DateAt item.encode item.valueKeyOffset e date) : item.IsBirthDate e date := by
  have hend : item.mapEnd.length < 196 := by
    simp only [encode, List.length_append, maxClaimBytesV1] at hlen
    omega
  obtain ⟨rest, hrest⟩ := h.tail
  rw [item.drop_encode hend, dateItemTail, mapEnd, identifierLiteral] at hrest
  simp only [List.append_assoc] at hrest
  have hvalue := (List.append_cancel_left hrest).symm
  obtain ⟨date', hdate', hencode, hafter⟩ := CborValue.date_of_first hvalue
  obtain ⟨rfl, hidentifier⟩ := List.append_inj hafter (hdate'.trans h.length_date.symm)
  have hhead : cborHead 0x60 item.elementIdentifier.length ++ (item.elementIdentifier ++ []) =
      0x6a :: (birthDateText ++ rest) := by
    rw [List.append_nil]
    exact List.append_cancel_left hidentifier
  obtain ⟨hten, htext⟩ := text_of_head hhead
  exact ⟨h.length_date, hencode, (List.append_inj htext hten).1⟩

/-! ## Reading elsewhere -/

/-- The bytes of a `6c "elementValue"` key stand at `o`. -/
def KeyAt (bytes : List UInt8) (o : ℕ) : Prop := ∀ i < valueKeyLen, bytes.getD (o + i) 0 = valueKeyLiteral.getD i 0

theorem keyAt_of_dateAt {bytes : List UInt8} (h : DateAt bytes o e date) : KeyAt bytes o := by
  intro i hi
  have hin : i < valueKeyLiteral.length := hi
  have hmem : (i, valueKeyLiteral[i]) ∈ e.literals := by
    refine List.mem_append_left _ (List.mem_append_left _ (List.mem_map.mpr ⟨(valueKeyLiteral[i], i), ?_, rfl⟩))
    exact List.mem_zipIdx_iff_getElem?.mpr (List.getElem?_eq_getElem hin)
  rw [h.getD_literals _ hmem, List.getD_eq_getElem?_getD, List.getElem?_eq_getElem hin, Option.getD_some]

theorem KeyAt.not_overlap {bytes : List UInt8} {a b : ℕ} (ha : KeyAt bytes a) (hb : KeyAt bytes b) (hlt : a < b) :
    a + valueKeyLen ≤ b := by
  by_contra hnear
  have hself : ∀ d ∈ List.range valueKeyLen, 0 < d →
      ∃ i ∈ List.range (valueKeyLen - d), valueKeyLiteral.getD (d + i) 0 ≠ valueKeyLiteral.getD i 0 := by decide
  obtain ⟨i, hi, hne⟩ := hself (b - a) (List.mem_range.mpr (by omega)) (by omega)
  have hi := List.mem_range.mp hi
  have hata := ha (b - a + i) (by omega)
  have hatb := hb i (by omega)
  rw [← Nat.add_assoc, Nat.add_sub_cancel' (by omega)] at hata
  exact hne (hata.symm.trans hatb)

def digestIdKeyOffset (item : IssuerSignedItem) : ℕ := 12 + (cborHead 0x40 item.random.length).length + item.random.length

theorem digestIdKeyOffset_le : item.digestIdKeyOffset ≤ 46 ∧
    item.valueKeyOffset ≤ item.digestIdKeyOffset + digestIdKey.length + 5 := by
  have hmax := item.max_random
  simp only [maxSaltBytes] at hmax
  have hhead : (cborHead 0x40 item.random.length).length = _ :=
    length_cborHead_short (show item.random.length < 256 by omega)
  have hwidths : ∀ w ∈ Mso.digestIdWidths, w ≤ 5 := by decide
  have hwidth : (cborHead 0x00 item.digestId).length ≤ 5 := hwidths _ (length_cborHead_mem item.digestId_lt)
  have hkey : digestIdKey.length = 9 := rfl
  simp only [digestIdKeyOffset, valueKeyOffset, elementValueKeyOffset, hhead, hkey]
  split <;> omega

theorem getD_digestIdKey (hend : item.mapEnd.length < 196) {i : ℕ} (hi : i < digestIdKey.length) :
    item.encode.getD (item.digestIdKeyOffset + i) 0 = digestIdKey.getD i 0 := by
  have hsplit : item.encode = ([0xd8, 0x18] ++ cborHead 0x40 (item.mapStart ++ item.mapEnd).length ++
      (0xa4 :: randomKey ++ cborHead 0x40 item.random.length ++ item.random)) ++ digestIdKey ++
        (cborHead 0x00 item.digestId ++ item.mapEnd) := by
    simp only [encode, mapStart, List.append_assoc]
  have hlen : ([0xd8, 0x18] ++ cborHead 0x40 (item.mapStart ++ item.mapEnd).length ++
      (0xa4 :: randomKey ++ cborHead 0x40 item.random.length ++ item.random)).length = item.digestIdKeyOffset := by
    have hkey : randomKey.length = 7 := rfl
    rw [List.length_append, item.length_wrapping hend]
    simp only [List.cons_append, List.length_cons, List.length_append, hkey, digestIdKeyOffset]
    omega
  have hmem : (digestIdKey[i], i) ∈ digestIdKey.zipIdx :=
    List.mem_zipIdx_iff_getElem?.mpr (List.getElem?_eq_getElem hi)
  rw [hsplit, ← hlen, getD_append_literal _ _ hmem, List.getD_eq_getElem?_getD, List.getElem?_eq_getElem hi,
    Option.getD_some]

/-- No key stands at a candidate before the item's own. -/
theorem valueKeyOffset_le_of_keyAt (hend : item.mapEnd.length < 196) (hown : KeyAt item.encode item.valueKeyOffset)
    (ho : o ∈ candidateValueKeyOffsets) (h : KeyAt item.encode o) : item.valueKeyOffset ≤ o := by
  by_contra hlt
  have hapart := h.not_overlap hown (by omega)
  have hrange := candidate_le ho
  obtain ⟨hdigest, hown⟩ := item.digestIdKeyOffset_le
  have hkey : digestIdKey.length = 9 := rfl
  have hkeyLen : valueKeyLen = 13 := rfl
  by_cases hbefore : o < item.digestIdKeyOffset
  · -- the salt ends too soon for a whole key, which then runs into `68 "digestID"`
    have hnone : ∀ i ∈ List.range 8, 0 < i → valueKeyLiteral.getD i 0 ≠ digestIdKey.getD 0 0 := by decide
    have hat := h (item.digestIdKeyOffset - o) (by omega)
    rw [Nat.add_sub_cancel' (by omega), ← Nat.add_zero item.digestIdKeyOffset, getD_digestIdKey hend (by omega),
      Nat.add_zero] at hat
    exact hnone _ (List.mem_range.mpr (by omega)) (by omega) hat.symm
  · have hnone : ∀ i ∈ List.range 2, digestIdKey.getD i 0 ≠ valueKeyLiteral.getD 0 0 := by decide
    have hat := h 0 (by omega)
    have hin := getD_digestIdKey hend (i := o - item.digestIdKeyOffset) (by omega)
    rw [Nat.add_sub_cancel' (by omega)] at hin
    exact hnone _ (List.mem_range.mpr (by omega)) (hin.symm.trans hat)

/-- A `birth_date` item is read at its own key only. -/
theorem IsBirthDate.offset_unique {date' : List UInt8} {e' : DateEncoding} (hitem : item.IsBirthDate e' date')
    (ho : o ∈ candidateValueKeyOffsets) (h : DateAt item.encode o e date) : o = item.valueKeyOffset := by
  have hown := keyAt_of_dateAt hitem.dateAt
  have hkey := keyAt_of_dateAt h
  have hle := valueKeyOffset_le_of_keyAt hitem.length_mapEnd_lt hown ho hkey
  by_contra hne
  -- a second key stands past the first one whole, and the literals after it do not fit
  have hapart := hown.not_overlap hkey (by omega)
  have hfit := h.itemLen_le_length
  have hrel : ∀ e : DateEncoding, 27 ≤ e.identifierRel ∧ e.identifierRel ≤ 39 := by
    intro e
    cases e <;> decide
  have hrel1 := hrel e
  have hrel2 := hrel e'
  have hkeyLen : valueKeyLen = 13 := rfl
  rw [hitem.length_encode_eq] at hfit
  simp only [DateEncoding.itemLen] at hfit
  omega

end IssuerSignedItem

/-! ## Soundness -/

/-- The extraction of an item means what it says: whoever proves, an item part that hashes this item has a `birth_date`
there, and returns its date. -/
def ReadsOnlyBirthDates {F : Type} [Field F] (gadget : CompressionGadget F) (item : IssuerSignedItem) : Prop :=
  ∀ (w : MdocAgeWitness) (located : List (AllocatedNum F F)) (ins : List F) (wires : ItemWires F F),
    (synthesizeItem gadget.compress w located).Runs ins wires → wires.Hashes item.encode →
      item.elementIdentifier = birthDateText ∧ ∃ (e : DateEncoding) (date : List UInt8), date.length = 10 ∧
        item.elementValue = e.value date ∧ HoldsBytes .any wires.date date

/-- No candidate's literals stand in the item but at its own `elementValue` key. -/
def NoOtherKey (item : IssuerSignedItem) : Prop :=
  item.encode.length ≤ maxClaimBytesV1 → ∀ t ∈ dateCandidates, ∀ date, DateAt item.encode t.1 t.2 date →
    t.1 = item.valueKeyOffset

section Soundness

variable {F : Type} [Field F]

/-- The bytes that an item part hashes are determined by its wires. -/
theorem ItemWires.Hashes.unique {wires : ItemWires F F} {xs ys : List UInt8} (hxs : wires.Hashes xs)
    (hys : wires.Hashes ys) : xs = ys := by
  obtain ⟨buf, -, hbuf, l, hl, rfl, hmask⟩ := hxs
  obtain ⟨buf', -, hbuf', l', hl', rfl, hmask'⟩ := hys
  rw [bytesBits_inj (hbuf.unique hbuf'), length_of_mask hl hl' (hmask.unique hmask')]

theorem ItemWires.Hashes.length_le {wires : ItemWires F F} {bytes : List UInt8} (h : wires.Hashes bytes) :
    bytes.length ≤ maxClaimBytesV1 := by
  obtain ⟨buf, hbuf, -, l, -, rfl, -⟩ := h
  rw [List.length_take]
  omega

/-- A prover runs the item part at any candidate whose literals stand in the item. -/
theorem exists_run_of_dateAt [LargeChar F] (gadget : CompressionGadget F) {item : List UInt8} {o : ℕ}
    {e : DateEncoding} {date : List UInt8} (hlen : item.length ≤ maxClaimBytesV1) (ho : o ∈ candidateValueKeyOffsets)
    (h : DateAt item o e date) : ∃ w located wires, (synthesizeItem gadget.compress w located).Runs [] wires ∧
      wires.Hashes item ∧ HoldsBytes .any wires.date date := by
  have hmem : (o, e) ∈ dateCandidates := mem_dateCandidates.mpr ho
  obtain ⟨wires, hrun, hhashes, hdate⟩ := succeeds_synthesizeItem gadget (w := itemWitness item o e) hlen
    (locates_locatedPacks item) hmem h
  exact ⟨itemWitness item o e, locatedPacks item, wires, hrun.runs, hhashes, HoldsBytes.any hdate⟩

/-- The extraction means what it says for exactly the items that no candidate reads but at their own key. -/
theorem readsOnlyBirthDates_iff [LargeChar F] (gadget : CompressionGadget F) (item : IssuerSignedItem) :
    ReadsOnlyBirthDates gadget item ↔ NoOtherKey item := by
  constructor
  · intro hsound hlen t ht date hdate
    obtain ⟨w, located, wires, hrun, hhashes, -⟩ :=
      exists_run_of_dateAt gadget hlen (mem_dateCandidates.mp ht) hdate
    obtain ⟨hidentifier, e, date', hlen', hvalue, -⟩ := hsound w located [] wires hrun hhashes
    have hitem : item.IsBirthDate e date' := ⟨hlen', hvalue, hidentifier⟩
    exact hitem.offset_unique (mem_dateCandidates.mp ht) hdate
  · intro hno w located ins wires hrun hhashes
    obtain ⟨bytes, hbytes, t, ht, date, hdate, hnums⟩ := runs_synthesizeItem gadget hrun
    obtain rfl := hbytes.unique hhashes
    have hlen := hhashes.length_le
    rw [hno hlen t ht date hdate] at hdate
    have hitem := IssuerSignedItem.isBirthDate_of_dateAt hlen hdate
    exact ⟨hitem.identifier_eq, t.2, date, hitem.length_date, hitem.value_eq, hnums⟩

end Soundness

/-- A date of birth is read as one. -/
theorem readsOnlyBirthDates_iff_1990 : ReadsOnlyBirthDates (readingGadget (F := Scalar)) item1990 := by
  refine (readsOnlyBirthDates_iff readingGadget item1990).mpr fun _ t ht date h => ?_
  have hitem : item1990.IsBirthDate .bare newYear1990 := birthDateItem_isBirthDate .bare _ _ _ rfl
  exact hitem.offset_unique (mem_dateCandidates.mp ht) h

def portraitText : List UInt8 := [0x70, 0x6f, 0x72, 0x74, 0x72, 0x61, 0x69, 0x74]

/-- A portrait whose 56 bytes are those of a date of birth, at an offset that the circuit knows. -/
def imitatingPortrait : IssuerSignedItem :=
  { item1990 with elementValue := .bytes (dateItemTail .bare newYear1990), elementIdentifier := portraitText }

theorem dateAt_imitatingPortrait : DateAt imitatingPortrait.encode 54 .bare newYear1990 :=
  ⟨rfl, by decide +kernel, by decide +kernel⟩

/-- The portrait is read as a date of birth. -/
theorem imitatingPortrait_extracted : ¬ReadsOnlyBirthDates (readingGadget (F := Scalar)) imitatingPortrait := by
  intro hsound
  have hmem : 54 ∈ candidateValueKeyOffsets := mem_candidateValueKeyOffsets.mpr ⟨30, 1, by decide⟩
  have hlen : imitatingPortrait.encode.length ≤ maxClaimBytesV1 := by decide +kernel
  obtain ⟨w, located, wires, hrun, hhashes, -⟩ :=
    exists_run_of_dateAt (readingGadget (F := Scalar)) hlen hmem dateAt_imitatingPortrait
  obtain ⟨hbirthDate, -⟩ := hsound w located [] wires hrun hhashes
  exact absurd hbirthDate (by decide)

end ZkCredVega
