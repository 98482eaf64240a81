import ZkCredVega.MdocAge.Session

/-!
# The date of birth

`extract_birth_date` of `mdoc_age.rs` reads ten bytes out of a hashed item, at one of 22 offsets
and in one of two encodings that the prover selects; the literals around the ten bytes are what
says that the item is a `birth_date`.
-/

namespace ZkCredVega

open Circuits

/-! ## Offsets -/

def minSaltBytes : ℕ := 16

def maxSaltBytes : ℕ := 32

/-- Where `6c "elementValue"` is, for a salt length and a `digestID` width. -/
def elementValueKeyOffset (saltBytes digestIdWidth : ℕ) : ℕ :=
  let saltHeader := if saltBytes < 24 then 1 else 2
  2 + 2 + 1 + 7 + saltHeader + saltBytes + 9 + digestIdWidth

/-- Every offset that `elementValueKeyOffset` can produce, in order. -/
def candidateValueKeyOffsets : List ℕ :=
  (((List.range' minSaltBytes (maxSaltBytes + 1 - minSaltBytes)).flatMap fun s =>
    Mso.digestIdWidths.map fun w => elementValueKeyOffset s w).mergeSort (· ≤ ·)).dedup

/-- `6c "elementValue"`. -/
def valueKeyLiteral : List UInt8 :=
  [0x6c, 0x65, 0x6c, 0x65, 0x6d, 0x65, 0x6e, 0x74, 0x56, 0x61, 0x6c, 0x75, 0x65]

/-- `71 "elementIdentifier"`. -/
def identifierKey : List UInt8 :=
  [0x71, 0x65, 0x6c, 0x65, 0x6d, 0x65, 0x6e, 0x74, 0x49, 0x64, 0x65, 0x6e, 0x74, 0x69, 0x66, 0x69, 0x65, 0x72]

def birthDateText : List UInt8 := [0x62, 0x69, 0x72, 0x74, 0x68, 0x5f, 0x64, 0x61, 0x74, 0x65]

/-- `71 "elementIdentifier" 6a "birth_date"`. -/
def identifierLiteral : List UInt8 := identifierKey ++ 0x6a :: birthDateText

namespace DateEncoding

def identifierRel (e : DateEncoding) : ℕ := e.dateRel + 10

def itemLen (e : DateEncoding) (valueKeyOffset : ℕ) : ℕ :=
  valueKeyOffset + e.identifierRel + identifierLiteral.length

def all : List DateEncoding := [bare, photoIdMap]

/-- The bytes a candidate checks, at their distance from the key. -/
def literals (e : DateEncoding) : List (ℕ × UInt8) :=
  (valueKeyLiteral.zipIdx.map fun t => (t.2, t.1)) ++ (e.literal.zipIdx.map fun t => (valueKeyLen + t.2, t.1)) ++
    identifierLiteral.zipIdx.map fun t => (e.identifierRel + t.2, t.1)

end DateEncoding

/-- The offsets and encodings a prover may select. -/
def dateCandidates : List (ℕ × DateEncoding) :=
  candidateValueKeyOffsets.flatMap fun o => DateEncoding.all.map fun e => (o, e)

/-! ## The circuit -/

section Circuit

variable {F V : Type} [Field F] [One V]

/-- What a selected candidate demands: its last byte is hashed, and its literals are there. -/
def checkCandidate (itemBits itemActive : List (Boolean V)) (t : (ℕ × DateEncoding) × Boolean V) :
    Circuit F V Unit := do
  let last := t.1.1 + t.1.2.identifierRel + identifierLiteral.length - 1
  -- the slice indices `item_active[last]` and `item_bits[idx * 8 + j]`
  .assert (last < itemActive.length ∧ last * 8 + 8 ≤ itemBits.length)
  .require (t.2.lc 1) (.const 1 - (Boolean.nth itemActive last).lc 1) 0
  forM t.1.2.literals fun u =>
    .require (t.2.lc 1) (byteLc itemBits (t.1.1 + u.1) 1 - .const (u.2.toNat : F)) 0

def indexByte (bytes : List UInt8) (i : ℕ) : Outcome UInt8 :=
  match bytes[i]? with
  | some b => .ok b
  | none => .error .panic

def dateByte (itemBits : List (Boolean V)) (itemBytes : List UInt8) (sel : List (Boolean V)) (real valueKeyOffset : ℕ)
    (encoding : DateEncoding) (j : ℕ) : Circuit F V (AllocatedNum F V) := do
  let byte ← .lift (indexByte itemBytes (valueKeyOffset + encoding.dateRel + j))
  let value : F := (byte.toNat : F)
  let d ← AllocatedNum.alloc (.ok value)
  let terms ← (dateCandidates.zipIdx.zip sel).mapM fun t =>
    gated t.2 (byteLc itemBits (t.1.1.1 + t.1.1.2.dateRel + j) 1) (.ok (if t.1.2 = real then value else 0))
  .require (.sum (terms.map (·.lc))) (.const 1) d.lc
  pure d

/-- The ten bytes of the date, with a proof that the item is a `birth_date` carrying one. -/
def extractBirthDate (itemBits : List (Boolean V)) (itemBytes : List UInt8) (itemActive : List (Boolean V))
    (valueKeyOffset : ℕ) (encoding : DateEncoding) : Circuit F V (List (AllocatedNum F V)) := do
  rejectUnless ((valueKeyOffset, encoding) ∈ dateCandidates)
  let real := dateCandidates.idxOf (valueKeyOffset, encoding)
  let sel ← allocOneHot (List.range dateCandidates.length) real
  forM (dateCandidates.zip sel) (checkCandidate itemBits itemActive)
  (List.range 10).mapM (dateByte itemBits itemBytes sel real valueKeyOffset encoding)

/-- What the item part of the credential gives: the item's bits, the mask of those that are hashed, their digest and
the date. -/
structure ItemWires (F V : Type) where
  bits : List (Boolean V)
  active : List (Boolean V)
  digest : List (Boolean V)
  date : List (AllocatedNum F V)

/-- The item behind the located digest: hashed, matched against it, and read. -/
def synthesizeItem (compress : Compression F V) (w : MdocAgeWitness) (located : List (AllocatedNum F V)) :
    Circuit F V (ItemWires F V) := do
  rejectUnless (¬w.itemBytes.length > maxClaimBytesV1)
  let itemPadded := w.itemBytes ++ List.replicate (maxClaimBytesV1 - w.itemBytes.length) 0
  let itemBits ← Mso.allocBytes itemPadded
  let hash ← sha256VarSized compress itemBits w.itemBytes.length maxClaimBytesV1 numBlocks
  forM located.zipIdx fun t => .require (bytePackLc hash.1 t.2) (.const 1) t.1.lc
  let date ← extractBirthDate itemBits itemPadded hash.2 w.elementValueKeyOffset w.dateEncoding
  pure ⟨itemBits, hash.2, hash.1, date⟩

end Circuit

/-! ## Candidates -/

theorem mem_candidateValueKeyOffsets {o : ℕ} : o ∈ candidateValueKeyOffsets ↔
    ∃ s w, minSaltBytes ≤ s ∧ s ≤ maxSaltBytes ∧ w ∈ Mso.digestIdWidths ∧ elementValueKeyOffset s w = o := by
  rw [candidateValueKeyOffsets, List.mem_dedup, List.mem_mergeSort]
  simp only [List.mem_flatMap, List.mem_range'_1, List.mem_map]
  constructor
  · rintro ⟨s, hs, w, hw, heq⟩
    exact ⟨s, w, hs.1, by omega, hw, heq⟩
  · rintro ⟨s, w, hmin, hmax, hw, heq⟩
    refine ⟨s, ⟨hmin, ?_⟩, w, hw, heq⟩
    have hsalts : minSaltBytes ≤ maxSaltBytes + 1 := by decide
    omega

theorem mem_dateCandidates {t : ℕ × DateEncoding} : t ∈ dateCandidates ↔ t.1 ∈ candidateValueKeyOffsets := by
  have hall : ∀ e, e ∈ DateEncoding.all := by
    intro e
    cases e <;> decide
  simp only [dateCandidates, List.mem_flatMap, List.mem_map]
  constructor
  · rintro ⟨o, ho, e, -, rfl⟩
    exact ho
  · intro ho
    exact ⟨t.1, ho, t.2, hall t.2, rfl⟩

theorem candidate_le {o : ℕ} (h : o ∈ candidateValueKeyOffsets) : 39 ≤ o ∧ o ≤ 60 := by
  obtain ⟨s, w, hmin, hmax, hw, rfl⟩ := mem_candidateValueKeyOffsets.mp h
  have hwidths : ∀ w ∈ Mso.digestIdWidths, 1 ≤ w ∧ w ≤ 5 := by decide
  have hw := hwidths w hw
  simp only [minSaltBytes, maxSaltBytes] at hmin hmax
  simp only [elementValueKeyOffset]
  split
  · omega
  · omega

theorem length_dateCandidates_le : dateCandidates.length ≤ 122 := by
  have hsub : candidateValueKeyOffsets ⊆ List.range 61 := by
    intro o ho
    have hle := candidate_le ho
    exact List.mem_range.mpr (by omega)
  have hlen := ((List.nodup_dedup _).subperm hsub).length_le
  rw [List.length_range] at hlen
  have htwo : dateCandidates.length = candidateValueKeyOffsets.length * 2 := by
    rw [dateCandidates, List.length_flatMap]
    simp only [List.length_map, List.map_const', List.sum_replicate, smul_eq_mul]
    rfl
  rw [htwo]
  exact Nat.mul_le_mul_right 2 hlen

theorem itemLen_le {t : ℕ × DateEncoding} (h : t ∈ dateCandidates) : t.2.itemLen t.1 ≤ maxClaimBytesV1 := by
  have ho := candidate_le (mem_dateCandidates.mp h)
  have hrel : ∀ e : DateEncoding, e.identifierRel + identifierLiteral.length ≤ 68 := by
    intro e
    cases e <;> decide
  have hrel := hrel t.2
  simp only [DateEncoding.itemLen, maxClaimBytesV1]
  omega

/-! ## What an extraction reads -/

/-- The bytes of an item from its `elementValue` key on. -/
def dateItemTail (e : DateEncoding) (date : List UInt8) : List UInt8 :=
  valueKeyLiteral ++ e.literal ++ date ++ identifierLiteral

/-- The item has a candidate's literals at `o`, around the ten bytes of `date`. -/
structure DateAt (item : List UInt8) (o : ℕ) (e : DateEncoding) (date : List UInt8) : Prop where
  length_date : date.length = 10
  tail : dateItemTail e date <+: item.drop o
  le : o ≤ item.length

theorem length_dateItemTail {e : DateEncoding} {date : List UInt8} (h : date.length = 10) :
    (dateItemTail e date).length = e.identifierRel + identifierLiteral.length := by
  simp only [dateItemTail, List.length_append, h, DateEncoding.identifierRel, DateEncoding.dateRel]
  rfl

theorem drop_literal {item lit : List UInt8} {o : ℕ} (hlen : o + lit.length ≤ item.length)
    (h : ∀ t ∈ lit.zipIdx, item.getD (o + t.2) 0 = t.1) : item.drop o = lit ++ item.drop (o + lit.length) := by
  have htake : (item.drop o).take lit.length = lit := by
    refine List.ext_getElem (by simp; omega) fun i h1 h2 => ?_
    have hin : o + i < item.length := by omega
    have hi := h (lit[i], i) (List.mem_zipIdx_iff_getElem?.mpr (List.getElem?_eq_getElem h2))
    rw [List.getD_eq_getElem?_getD, List.getElem?_eq_getElem hin] at hi
    rw [List.getElem_take, List.getElem_drop]
    exact hi
  conv_lhs => rw [← List.take_append_drop lit.length (item.drop o), htake, List.drop_drop]

/-- The literals and the ten bytes of a candidate make the tail of an item. -/
theorem dateAt_of_literals {item : List UInt8} {o : ℕ} {e : DateEncoding} (hlen : e.itemLen o ≤ item.length)
    (h : ∀ u ∈ e.literals, item.getD (o + u.1) 0 = u.2) : DateAt item o e (windowAt item (o + e.dateRel) 10) := by
  have hitem : o + (valueKeyLen + e.literal.length + 10) + identifierLiteral.length ≤ item.length := hlen
  have hkeyLen : valueKeyLiteral.length = valueKeyLen := rfl
  have hkey : item.drop o = valueKeyLiteral ++ item.drop (o + valueKeyLen) := by
    refine drop_literal (by omega) fun t ht => h (t.2, t.1) ?_
    exact List.mem_append_left _ (List.mem_append_left _ (List.mem_map.mpr ⟨t, ht, rfl⟩))
  have hvalue : item.drop (o + valueKeyLen) = e.literal ++ item.drop (o + e.dateRel) := by
    rw [DateEncoding.dateRel, ← Nat.add_assoc]
    refine drop_literal (by omega) fun t ht => ?_
    rw [Nat.add_assoc]
    exact h (valueKeyLen + t.2, t.1)
      (List.mem_append_left _ (List.mem_append_right _ (List.mem_map.mpr ⟨t, ht, rfl⟩)))
  have hidentifier : item.drop (o + e.identifierRel) =
      identifierLiteral ++ item.drop (o + e.identifierRel + identifierLiteral.length) := by
    refine drop_literal (by simp only [DateEncoding.identifierRel, DateEncoding.dateRel]; omega) fun t ht => ?_
    rw [Nat.add_assoc]
    exact h (e.identifierRel + t.2, t.1) (List.mem_append_right _ (List.mem_map.mpr ⟨t, ht, rfl⟩))
  have hdate : item.drop (o + e.dateRel) =
      windowAt item (o + e.dateRel) 10 ++ item.drop (o + e.identifierRel) := by
    have htail := List.take_append_drop 10 (item.drop (o + e.dateRel))
    rw [List.drop_drop, Nat.add_assoc] at htail
    rw [windowAt_eq_take (by rw [DateEncoding.dateRel]; omega)]
    exact htail.symm
  refine ⟨length_windowAt _ _ _, ⟨item.drop (o + e.identifierRel + identifierLiteral.length), ?_⟩, by omega⟩
  rw [hkey, hvalue, hdate, hidentifier, dateItemTail]
  simp only [List.append_assoc]

theorem getD_append_literal (pre rest : List UInt8) {lit : List UInt8} {t : UInt8 × ℕ} (ht : t ∈ lit.zipIdx) :
    (pre ++ lit ++ rest).getD (pre.length + t.2) 0 = t.1 := by
  obtain ⟨hlt, heq⟩ := List.mem_zipIdx' ht
  rw [List.getD_eq_getElem?_getD, List.append_assoc, List.getElem?_append_right (Nat.le_add_right _ _),
    Nat.add_sub_cancel_left, List.getElem?_append_left hlt, List.getElem?_eq_getElem hlt, heq]
  rfl

namespace DateAt

variable {item date : List UInt8} {o : ℕ} {e : DateEncoding} (h : DateAt item o e date)

include h

theorem itemLen_le_length : e.itemLen o ≤ item.length := by
  have htail := h.tail.length_le
  have hle := h.le
  rw [length_dateItemTail h.length_date, List.length_drop] at htail
  rw [DateEncoding.itemLen]
  omega

theorem getD_literals : ∀ u ∈ e.literals, item.getD (o + u.1) 0 = u.2 := by
  obtain ⟨rest, hrest⟩ := h.tail
  have hkeyLen : valueKeyLiteral.length = valueKeyLen := rfl
  intro u hu
  have hdrop : item.getD (o + u.1) 0 = (dateItemTail e date ++ rest).getD u.1 0 := by
    rw [hrest, List.getD_eq_getElem?_getD, List.getD_eq_getElem?_getD, List.getElem?_drop]
  rw [hdrop]
  rcases List.mem_append.mp hu with hu | hu
  · rcases List.mem_append.mp hu with hu | hu
    · obtain ⟨t, ht, rfl⟩ := List.mem_map.mp hu
      have hget := getD_append_literal [] (e.literal ++ date ++ identifierLiteral ++ rest) ht
      simpa only [dateItemTail, List.append_assoc, List.nil_append, List.length_nil, Nat.zero_add] using hget
    · obtain ⟨t, ht, rfl⟩ := List.mem_map.mp hu
      have hget := getD_append_literal valueKeyLiteral (date ++ identifierLiteral ++ rest) ht
      rw [hkeyLen] at hget
      simpa only [dateItemTail, List.append_assoc] using hget
  · obtain ⟨t, ht, rfl⟩ := List.mem_map.mp hu
    have hget := getD_append_literal (valueKeyLiteral ++ e.literal ++ date) rest ht
    have hlen : (valueKeyLiteral ++ e.literal ++ date).length = e.identifierRel := by
      rw [List.length_append, List.length_append, h.length_date]
      rfl
    rwa [hlen] at hget

theorem windowAt_date : windowAt item (o + e.dateRel) 10 = date := by
  obtain ⟨rest, hrest⟩ := h.tail
  have hlen := h.itemLen_le_length
  have hsplit : item.drop (o + e.dateRel) = date ++ (identifierLiteral ++ rest) := by
    have hpre : (valueKeyLiteral ++ e.literal).length = e.dateRel := by
      rw [List.length_append]
      rfl
    rw [← List.drop_drop, ← hrest, dateItemTail, List.append_assoc, List.append_assoc, ← hpre, List.drop_left]
  simp only [DateEncoding.itemLen, DateEncoding.identifierRel] at hlen
  rw [windowAt_eq_take (by omega), hsplit, ← h.length_date, List.take_left]

end DateAt

/-! ## Constraints of the extraction -/

section Extract

variable {F : Type} [Field F] {itemBits sel itemActive : List (Boolean F)} {buf itemBytes : List UInt8} {k l : ℕ}

theorem gate_set {s b : Boolean F} {x y : Bool} (hs : s.Reads x) (hb : b.Reads y) :
    (s.lc (1 : F)).eval * (LC.const 1 - b.lc (1 : F)).eval = (0 : LC F F).eval ↔ (x = true → y = true) := by
  unfold Boolean.Reads at hs hb
  rw [LC.eval_sub, LC.eval_const, Boolean.eval_lc, Boolean.eval_lc, one_mul, one_mul, hs, hb, LC.eval_zero]
  cases x <;> cases y <;> simp [ofBool]

theorem reads_active (hactive : Boolean.ReadsAll itemActive ((List.range maxClaimBytesV1).map fun i => decide (i < l)))
    {i : ℕ} (hi : i < maxClaimBytesV1) : (Boolean.nth itemActive i).Reads (decide (i < l)) := by
  have hnth := hactive.nth i
  rwa [List.getD_eq_getElem?_getD, List.getElem?_map, List.getElem?_range hi, Option.map_some,
    Option.getD_some] at hnth

section Check

variable [LargeChar F] {t : (ℕ × DateEncoding) × Boolean F} {x : Bool} (ht : t.2.Reads x)
  (hbits : Boolean.ReadsAll itemBits (bytesBits buf))
  (hactive : Boolean.ReadsAll itemActive ((List.range maxClaimBytesV1).map fun i => decide (i < l)))
  (hmem : t.1 ∈ dateCandidates)

include ht hbits hactive hmem

theorem ensures_checkCandidate : (checkCandidate itemBits itemActive t : Circuit F F Unit).Ensures fun _ =>
    t.2.Reads true → t.1.2.itemLen t.1.1 ≤ l ∧ ∀ u ∈ t.1.2.literals, buf.getD (t.1.1 + u.1) 0 = u.2 := by
  have hlast := itemLen_le hmem
  have hlit : 1 ≤ identifierLiteral.length := by decide
  simp only [DateEncoding.itemLen] at hlast ⊢
  unfold checkCandidate
  refine Circuit.ensures_assert.bind fun _ _ => .require_bind fun hcover => ?_
  refine (Circuit.Ensures.forM fun u _ => Circuit.ensures_require).mono fun _ hliterals hset => ?_
  have hx := ht.unique hset
  refine ⟨?_, fun u hu => ?_⟩
  · have hin := (gate_set ht (reads_active hactive (by omega))).mp hcover hx
    have hin := of_decide_eq_true hin
    omega
  · exact (gate_byte ht hbits _ _).mp (hliterals u hu) hx

theorem yields_checkCandidate (who : Circuit.Prover) (hbuf : buf.length = maxClaimBytesV1)
    (h : x = true → t.1.2.itemLen t.1.1 ≤ l ∧ ∀ u ∈ t.1.2.literals, buf.getD (t.1.1 + u.1) 0 = u.2) :
    (checkCandidate itemBits itemActive t : Circuit F F Unit).Yields who fun _ => True := by
  have hlast := itemLen_le hmem
  have hlit : 1 ≤ identifierLiteral.length := by decide
  have hbitsLen : itemBits.length = 8 * maxClaimBytesV1 := by rw [hbits.length_eq, length_bytesBits, hbuf]
  have hactiveLen : itemActive.length = maxClaimBytesV1 := by
    rw [hactive.length_eq, List.length_map, List.length_range]
  simp only [DateEncoding.itemLen] at hlast h
  unfold checkCandidate
  refine (Circuit.yields_assert (by omega)).bind fun _ _ => .require_bind ?_ (.forM fun u hu => ?_)
  · refine (gate_set ht (reads_active hactive (by omega))).mpr fun hx => decide_eq_true ?_
    have hcover := (h hx).1
    omega
  · exact Circuit.yields_require ((gate_byte ht hbits _ _).mpr fun hx => (h hx).2 u hu)

end Check

theorem reads_sel (hsel : Boolean.ReadsAll sel (oneHot dateCandidates.length k))
    {t : ((ℕ × DateEncoding) × ℕ) × Boolean F} (ht : t ∈ dateCandidates.zipIdx.zip sel) : t.2.Reads (t.1.2 == k) := by
  obtain ⟨i, hi, rfl⟩ := List.getElem_of_mem ht
  have hlen : i < dateCandidates.length := by
    rw [List.length_zip, List.length_zipIdx] at hi
    omega
  have hi' : i < sel.length := by
    rw [List.length_zip] at hi
    omega
  have hread := (List.forall₂_iff_get.mp hsel).2 i hi' (by rwa [length_oneHot])
  simpa [oneHot] using hread

theorem reads_zip (hsel : Boolean.ReadsAll sel (oneHot dateCandidates.length k)) (hk : k < dateCandidates.length)
    {t : (ℕ × DateEncoding) × Boolean F} (ht : t ∈ dateCandidates.zip sel) :
    t.1 ∈ dateCandidates ∧ ∃ x, t.2.Reads x ∧ (x = true → t.1 = dateCandidates[k]) := by
  obtain ⟨i, hi, rfl⟩ := List.getElem_of_mem ht
  have hlen : i < dateCandidates.length ∧ i < sel.length := by
    rw [List.length_zip] at hi
    omega
  have hread := (List.forall₂_iff_get.mp hsel).2 i hlen.2 (by rw [length_oneHot]; exact hlen.1)
  rw [List.getElem_zip]
  refine ⟨List.getElem_mem hlen.1, _, hread, fun hx => ?_⟩
  have hik : i = k := by simpa [oneHot] using hx
  simp only [hik]

section DateByte

variable (who : Circuit.Prover) {real o j : ℕ} {e : DateEncoding} (hbits : Boolean.ReadsAll itemBits (bytesBits buf))
  (hsel : Boolean.ReadsAll sel (oneHot dateCandidates.length k)) (hk : k < dateCandidates.length)

include hbits hsel hk

theorem yields_dateTerms {value : F} (hhonest : who = .honest → real = k ∧
      value = (((buf.getD (dateCandidates[k].1 + dateCandidates[k].2.dateRel + j) 0).toNat : ℕ) : F)) :
    ((dateCandidates.zipIdx.zip sel).mapM fun t => gated t.2 (byteLc itemBits (t.1.1.1 + t.1.1.2.dateRel + j) 1)
      (.ok (if t.1.2 = real then value else 0))).Yields who fun terms => (LC.sum (terms.map (·.lc))).eval =
        (((buf.getD (dateCandidates[k].1 + dateCandidates[k].2.dateRel + j) 0).toNat : ℕ) : F) := by
  have hlen : dateCandidates.zipIdx.length = dateCandidates.length := List.length_zipIdx
  rw [← hlen] at hsel
  refine (yields_terms who (fun t : (ℕ × DateEncoding) × ℕ => byteLc itemBits (t.1.1 + t.1.2.dateRel + j) 1)
    hsel (by omega) fun hwho t ht => ?_).mono fun terms hterms => ?_
  · rw [hlen] at hsel
    obtain ⟨rfl, rfl⟩ := hhonest hwho
    have hread := reads_sel hsel ht
    unfold Boolean.Reads at hread
    rw [hread, eval_byteLc hbits, one_mul]
    by_cases heq : t.1.2 = real
    · have hcand : t.1.1 = dateCandidates[real] := by
        obtain ⟨i, hi, rfl⟩ := List.getElem_of_mem ht
        simp only [List.getElem_zip, List.getElem_zipIdx, Nat.zero_add] at heq ⊢
        simp only [heq]
      rw [if_pos heq, heq, hcand, beq_self_eq_true, ofBool, if_pos rfl, mul_one]
    · rw [if_neg heq, beq_eq_false_iff_ne.mpr heq, ofBool, if_neg Bool.false_ne_true, mul_zero]
  · rw [hterms, eval_byteLc hbits, one_mul, List.getElem_zipIdx]

theorem yields_dateByte (hin : o + e.dateRel + j < itemBytes.length)
    (hhonest : who = .honest → real = k ∧ dateCandidates[k] = (o, e) ∧ itemBytes = buf) :
    (dateByte itemBits itemBytes sel real o e j : Circuit F F _).Yields who (·.Holds who
      (((buf.getD (dateCandidates[k].1 + dateCandidates[k].2.dateRel + j) 0).toNat : ℕ) : F)) := by
  have hindex : indexByte itemBytes (o + e.dateRel + j) = .ok itemBytes[o + e.dateRel + j] := by
    rw [indexByte, List.getElem?_eq_getElem hin]
  have hvalue : who = .honest → real = k ∧ ((itemBytes[o + e.dateRel + j].toNat : ℕ) : F) =
      (((buf.getD (dateCandidates[k].1 + dateCandidates[k].2.dateRel + j) 0).toNat : ℕ) : F) := by
    intro hwho
    obtain ⟨hreal, hcand, rfl⟩ := hhonest hwho
    rw [hcand, List.getD_eq_getElem?_getD, List.getElem?_eq_getElem hin, Option.getD_some]
    exact ⟨hreal, rfl⟩
  have hterms := yields_dateTerms who hbits hsel hk hvalue
  unfold dateByte
  rw [hindex]
  generalize (((buf.getD (dateCandidates[k].1 + dateCandidates[k].2.dateRel + j) 0).toNat : ℕ) : F) = v at hvalue hterms ⊢
  change (AllocatedNum.alloc _ >>= _).Yields who _
  cases who with
  | any =>
    constructor
    · refine AllocatedNum.ensures_alloc.bind fun d _ => hterms.ensures.bind fun terms hsum => ?_
      refine .require_bind fun heq => Circuit.ensures_pure.mpr ⟨?_, nofun⟩
      rw [hsum, LC.eval_const, mul_one, AllocatedNum.eval_lc] at heq
      exact heq.symm
    · refine (AllocatedNum.admits_alloc v).bind fun d hd => hterms.admits.bind fun terms hsum => ?_
      refine .require_bind ?_ (Circuit.admits_pure.mpr ⟨hd, nofun⟩)
      rw [hsum, LC.eval_const, mul_one, AllocatedNum.eval_lc, hd]
  | honest =>
    rw [(hvalue rfl).2] at hterms ⊢
    refine (AllocatedNum.succeeds_alloc rfl).bind fun d hd => hterms.succeeds.bind fun terms hsum => ?_
    refine .require_bind ?_ (Circuit.succeeds_pure.mpr hd)
    rw [hsum, LC.eval_const, mul_one, AllocatedNum.eval_lc, hd.val_eq]

theorem yields_dateBytes (hbytes : itemBytes.length = maxClaimBytesV1)
    (hmem : (o, e) ∈ dateCandidates)
    (hhonest : who = .honest → real = k ∧ dateCandidates[k] = (o, e) ∧ itemBytes = buf) :
    ((List.range 10).mapM (dateByte itemBits itemBytes sel real o e) : Circuit F F _).Yields who
      (HoldsBytes who · (windowAt buf (dateCandidates[k].1 + dateCandidates[k].2.dateRel) 10)) := by
  have hlen := itemLen_le hmem
  simp only [DateEncoding.itemLen, DateEncoding.identifierRel] at hlen
  have hbyte : ∀ j ∈ List.range 10, (dateByte itemBits itemBytes sel real o e j : Circuit F F _).Yields who (·.Holds who
      (((buf.getD (dateCandidates[k].1 + dateCandidates[k].2.dateRel + j) 0).toNat : ℕ) : F)) := by
    intro j hj
    have hj := List.mem_range.mp hj
    exact yields_dateByte who hbits hsel hk (by omega) hhonest
  refine (Circuit.Yields.mapM hbyte).mono fun date hdate => ?_
  rw [HoldsBytes, windowAt, List.forall₂_map_right_iff]
  exact hdate.flip

end DateByte

/-- Bytes of the buffer that are hashed are bytes of the item. -/
theorem getD_take {i : ℕ} (hi : i < l) : (buf.take l).getD i 0 = buf.getD i 0 := by
  rw [List.getD_eq_getElem?_getD, List.getD_eq_getElem?_getD, List.getElem?_take_of_lt hi]

theorem windowAt_take {o n : ℕ} (h : o + n ≤ l) : windowAt (buf.take l) o n = windowAt buf o n := by
  apply List.map_congr_left
  intro i hi
  have hi := List.mem_range.mp hi
  exact getD_take (by omega)

theorem literal_lt {e : DateEncoding} {o : ℕ} {u : ℕ × UInt8} (hu : u ∈ e.literals) : o + u.1 < e.itemLen o := by
  have hrel : ∀ e : DateEncoding, ∀ u ∈ e.literals, u.1 < e.identifierRel + identifierLiteral.length := by
    intro e
    cases e <;> decide
  have hu := hrel e u hu
  rw [DateEncoding.itemLen]
  omega

section Whole

variable [LargeChar F] {o : ℕ} {e : DateEncoding} (hbits : Boolean.ReadsAll itemBits (bytesBits buf))
  (hbuf : buf.length = maxClaimBytesV1)
  (hactive : Boolean.ReadsAll itemActive ((List.range maxClaimBytesV1).map fun i => decide (i < l)))

include hbits hbuf hactive

/-- What any prover's extraction returns stands in the hashed bytes, as a candidate reads it. -/
theorem ensures_extractBirthDate (hbytes : itemBytes.length = maxClaimBytesV1) (hl : l ≤ maxClaimBytesV1) :
    (extractBirthDate itemBits itemBytes itemActive o e : Circuit F F _).Ensures fun nums =>
      ∃ t ∈ dateCandidates, ∃ date, DateAt (buf.take l) t.1 t.2 date ∧ HoldsBytes .any nums date := by
  have hsmall : (List.range dateCandidates.length).length < 2 ^ 255 := by
    rw [List.length_range]
    exact lt_of_le_of_lt length_dateCandidates_le (by decide)
  unfold extractBirthDate
  refine ensures_rejectUnless.bind fun _ hmem => (ensures_allocOneHot hsmall).bind fun sel hsel => ?_
  obtain ⟨k, hk, hsel⟩ := hsel
  rw [List.length_range] at hk hsel
  have hselLen : sel.length = dateCandidates.length := by rw [hsel.length_eq, length_oneHot]
  have hread : sel[k].Reads true := by
    have hget := (List.forall₂_iff_get.mp hsel).2 k (by omega) (by rwa [length_oneHot])
    simpa [oneHot] using hget
  have hcheck : ∀ t ∈ dateCandidates.zip sel, (checkCandidate itemBits itemActive t : Circuit F F Unit).Ensures fun _ =>
      t.2.Reads true → t.1.2.itemLen t.1.1 ≤ l ∧ ∀ u ∈ t.1.2.literals, buf.getD (t.1.1 + u.1) 0 = u.2 := by
    intro t ht
    obtain ⟨htmem, x, hx, -⟩ := reads_zip hsel hk ht
    exact ensures_checkCandidate hx hbits hactive htmem
  refine (Circuit.Ensures.forM hcheck).bind fun _ hchecked => ?_
  have hzip : (dateCandidates[k], sel[k]) ∈ dateCandidates.zip sel := by
    refine List.mem_iff_getElem.mpr ⟨k, by rw [List.length_zip]; omega, List.getElem_zip⟩
  obtain ⟨hcover, hliterals⟩ := hchecked _ hzip hread
  dsimp only at hcover hliterals
  have hdates : ((List.range 10).mapM (dateByte itemBits itemBytes sel (dateCandidates.idxOf (o, e)) o e) :
      Circuit F F _).Yields .any _ := yields_dateBytes .any hbits hsel hk hbytes hmem fun hwho => by cases hwho
  refine hdates.ensures.mono fun nums hnums => ?_
  refine ⟨dateCandidates[k], List.getElem_mem hk, _, dateAt_of_literals ?_ fun u hu => ?_, ?_⟩
  · rw [List.length_take]
    omega
  · have hlt := lt_of_lt_of_le (literal_lt hu) hcover
    rw [getD_take hlt]
    exact hliterals u hu
  · simp only [DateEncoding.itemLen, DateEncoding.identifierRel] at hcover
    rwa [windowAt_take (by omega)]

theorem yields_checkCandidates (who : Circuit.Prover) (hsel : Boolean.ReadsAll sel (oneHot dateCandidates.length k))
    (hk : k < dateCandidates.length) {date : List UInt8}
    (h : DateAt (buf.take l) dateCandidates[k].1 dateCandidates[k].2 date) :
    (forM (dateCandidates.zip sel) (checkCandidate itemBits itemActive) : Circuit F F Unit).Yields who
      fun _ => True := by
  refine .forM fun t ht => ?_
  obtain ⟨htmem, x, hx, hcand⟩ := reads_zip hsel hk ht
  refine yields_checkCandidate hx hbits hactive htmem who hbuf fun htrue => ?_
  have hcover := h.itemLen_le_length
  rw [List.length_take] at hcover
  rw [hcand htrue]
  refine ⟨by omega, fun u hu => ?_⟩
  have hlt := literal_lt (o := dateCandidates[k].1) hu
  rw [← h.getD_literals u hu, getD_take (by omega)]

theorem succeeds_extractBirthDate (hmem : (o, e) ∈ dateCandidates) {date : List UInt8}
    (h : DateAt (buf.take l) o e date) :
    (extractBirthDate itemBits buf itemActive o e : Circuit F F _).Succeeds (HoldsBytes .honest · date) := by
  have hreal := List.idxOf_lt_length_iff.mpr hmem
  have hcand : dateCandidates[dateCandidates.idxOf (o, e)] = (o, e) := List.getElem_idxOf hreal
  unfold extractBirthDate
  refine (succeeds_rejectUnless hmem).bind fun _ _ => ?_
  refine (succeeds_allocOneHot (List.mem_range.mpr hreal) List.nodup_range).bind fun sel hsel => ?_
  have hsel : Boolean.ReadsAll sel (oneHot dateCandidates.length (dateCandidates.idxOf (o, e))) := hsel.reads
  have hchecks := yields_checkCandidates hbits hbuf hactive .honest hsel hreal (by rwa [hcand])
  refine hchecks.succeeds.bind fun _ _ => ?_
  have hdates : ((List.range 10).mapM (dateByte itemBits buf sel (dateCandidates.idxOf (o, e)) o e) :
      Circuit F F _).Yields .honest _ :=
    yields_dateBytes .honest hbits hsel hreal hbuf hmem fun _ => ⟨rfl, hcand, rfl⟩
  refine hdates.succeeds.mono fun nums hnums => ?_
  have hcover := h.itemLen_le_length
  rw [List.length_take] at hcover
  simp only [DateEncoding.itemLen, DateEncoding.identifierRel] at hcover
  have hwindow : windowAt (buf.take l) (o + e.dateRel) 10 = windowAt buf (o + e.dateRel) 10 := windowAt_take (by omega)
  rwa [hcand, ← hwindow, h.windowAt_date] at hnums

end Whole

/-! ## The item part -/

section Item

variable [LargeChar F] (gadget : CompressionGadget F) {w : MdocAgeWitness} {located : List (AllocatedNum F F)}

theorem length_itemPadded {item : List UInt8} (h : item.length ≤ maxClaimBytesV1) :
    (item ++ List.replicate (maxClaimBytesV1 - item.length) 0).length = maxClaimBytesV1 := by
  rw [List.length_append, List.length_replicate]
  omega

def ItemWires.Hashes (wires : ItemWires F F) (bytes : List UInt8) : Prop :=
  ∃ buf : List UInt8, buf.length = maxClaimBytesV1 ∧ Boolean.ReadsAll wires.bits (bytesBits buf) ∧
    ∃ l ≤ maxClaimBytesV1, buf.take l = bytes ∧
      Boolean.ReadsAll wires.active ((List.range maxClaimBytesV1).map fun i => decide (i < l))

def Locates (located : List (AllocatedNum F F)) (bytes : List UInt8) : Prop :=
  located.map (·.val) = (packBytes (Sha256.hash bytes)).map (Nat.cast : ℕ → F)

/-- The date of a satisfying assignment stands in the bytes that it hashes. -/
theorem runs_synthesizeItem {ins : List F} {wires : ItemWires F F}
    (hrun : (synthesizeItem gadget.compress w located).Runs ins wires) :
    ∃ bytes, wires.Hashes bytes ∧ ∃ t ∈ dateCandidates, ∃ date, DateAt bytes t.1 t.2 date ∧
      HoldsBytes .any wires.date date := by
  unfold synthesizeItem at hrun
  obtain ⟨_, -, hlen, hrun⟩ := hrun.bind_elim ensures_rejectUnless
  have hpadded := length_itemPadded (not_lt.mp hlen)
  obtain ⟨itemBits, -, ⟨buf, hbuf, hbits⟩, hrun⟩ := hrun.bind_elim Mso.ensures_allocBytes
  rw [hpadded] at hbuf
  obtain ⟨hash, -, ⟨l, hl, -, hactive⟩, hrun⟩ := hrun.bind_elim
    (ensures_sha256VarSized gadget hbits hbuf (by decide) (by decide))
  obtain ⟨_, -, -, hrun⟩ := hrun.bind_elim (Circuit.Ensures.forM fun t _ => Circuit.ensures_require)
  obtain ⟨date, -, hdate, hrun⟩ := hrun.bind_elim (ensures_extractBirthDate hbits hbuf hactive hpadded hl)
  obtain ⟨-, rfl⟩ := Circuit.runs_pure.mp hrun
  exact ⟨buf.take l, ⟨buf, hbuf, hbits, l, hl, rfl, hactive⟩, hdate⟩

omit [LargeChar F] in
theorem yields_matchLocated (who : Circuit.Prover) {digest : List (Boolean F)} {bytes : List UInt8}
    (hdigest : Boolean.ReadsAll digest (bytesBits (Sha256.hash bytes))) (hlocated : Locates located bytes) :
    (forM located.zipIdx fun t => Circuit.require (bytePackLc digest t.2) (.const 1) t.1.lc).Yields who
      fun _ => True := by
  have hlen : located.length = 2 := by
    have hmap := congrArg List.length hlocated
    rw [List.length_map, List.length_map, length_packBytes, Sha256.length_hash] at hmap
    exact hmap
  refine .forM fun t ht => Circuit.yields_require ?_
  obtain ⟨hlt, heq⟩ := List.mem_zipIdx' ht
  have hfit : (t.2 + 1) * bytesPerPack ≤ (Sha256.hash bytes).length := by
    rw [Sha256.length_hash]
    simp only [bytesPerPack]
    omega
  have hpack : t.2 < packCount 32 := lt_of_lt_of_eq hlt hlen
  have hval := congrArg (fun xs => xs[t.2]?) hlocated
  rw [List.getElem?_map, List.getElem?_eq_getElem hlt, Option.map_some, List.getElem?_map, packBytes,
    List.getElem?_map, Sha256.length_hash, List.getElem?_range hpack] at hval
  rw [eval_bytePackLc hdigest hfit, LC.eval_const, mul_one, AllocatedNum.eval_lc, heq]
  exact (Option.some.inj hval).symm

/-- A prover's own run, at a candidate that its item carries. -/
theorem succeeds_synthesizeItem (hlen : w.itemBytes.length ≤ maxClaimBytesV1) (hlocated : Locates located w.itemBytes)
    (hmem : (w.elementValueKeyOffset, w.dateEncoding) ∈ dateCandidates) {date : List UInt8}
    (h : DateAt w.itemBytes w.elementValueKeyOffset w.dateEncoding date) :
    (synthesizeItem gadget.compress w located).Succeeds fun wires =>
      wires.Hashes w.itemBytes ∧ HoldsBytes .honest wires.date date := by
  have hpadded := length_itemPadded hlen
  unfold synthesizeItem
  refine (succeeds_rejectUnless (not_lt.mpr hlen)).bind fun _ _ => ?_
  dsimp only
  have htake : (w.itemBytes ++ List.replicate (maxClaimBytesV1 - w.itemBytes.length) 0).take w.itemBytes.length =
      w.itemBytes := List.take_left
  generalize w.itemBytes ++ List.replicate (maxClaimBytesV1 - w.itemBytes.length) 0 = buf at hpadded htake ⊢
  refine (Mso.succeeds_allocBytes buf).bind fun itemBits hbits => ?_
  refine (succeeds_sha256VarSized gadget hbits hpadded hlen (by decide)).bind fun hash hhash => ?_
  rw [htake] at hhash
  refine (yields_matchLocated .honest hhash.1.reads hlocated).succeeds.bind fun _ _ => ?_
  refine (succeeds_extractBirthDate hbits.reads hpadded hhash.2.reads hmem (by rwa [htake])).bind fun nums hnums => ?_
  exact Circuit.succeeds_pure.mpr
    ⟨⟨buf, hpadded, hbits.reads, w.itemBytes.length, hlen, htake, hhash.2.reads⟩, hnums⟩

end Item

end Extract

end ZkCredVega
