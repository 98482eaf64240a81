import ZkCredVega.OffsetBind.Select

/-!
# The digest region of a credential

`bindDigestRegion` locates the requested namespace's digests inside the signed
bytes: it anchors the table's opening and closing literals, reads the namespace
header, walks the namespace's entries to find where they end, and reads the
holder's device key and the `docType`. `EntriesAt buf s n e` says that `n`
entries sit at `s` and end at `e`.
-/

namespace ZkCredVega

open Circuits

variable {F V : Type} [Field F]

/-! ## Literals and headers -/

/-- `6C "valueDigests"`. -/
def valueDigestsOpenKey : List UInt8 :=
  [0x6c, 0x76, 0x61, 0x6c, 0x75, 0x65, 0x44, 0x69, 0x67, 0x65, 0x73, 0x74, 0x73]

/-- `6D "deviceKeyInfo" A1 69 "deviceKey" A4 01 02 20 01 21 58 20`. -/
def deviceKeyInfo : List UInt8 :=
  [0x6d, 0x64, 0x65, 0x76, 0x69, 0x63, 0x65, 0x4b, 0x65, 0x79, 0x49, 0x6e, 0x66, 0x6f, 0xa1, 0x69,
    0x64, 0x65, 0x76, 0x69, 0x63, 0x65, 0x4b, 0x65, 0x79, 0xa4, 0x01, 0x02, 0x20, 0x01, 0x21, 0x58,
    0x20]

/-- `67 "docType"`. -/
def docTypeKey : List UInt8 := [0x67, 0x64, 0x6f, 0x63, 0x54, 0x79, 0x70, 0x65]

def deviceKeyXDelta : ℕ := deviceKeyInfo.length

def deviceKeyYDelta : ℕ := deviceKeyXDelta + 32 + 3

/-- The canonical CBOR map header for `n` entries. -/
def mapHeader (n : ℕ) : List UInt8 :=
  if n < 24 then [0xa0 ||| UInt8.ofNat n] else [0xb8, UInt8.ofNat n]

/-- The canonical CBOR text-string header for `len` bytes. -/
def tstrHeader (len : ℕ) : Outcome (List UInt8) :=
  if len ≥ 256 then .error .unsatisfiable
  else .ok (if len < 24 then [0x60 ||| UInt8.ofNat len] else [0x78, UInt8.ofNat len])

/-- `at + len`, rejected when it runs past the buffer. -/
def windowEnd (offset len nativeLen : ℕ) : Outcome ℕ :=
  if offset + len ≤ nativeLen then .ok (offset + len) else .error .unsatisfiable

/-! ## The entry walk -/

def maxNamespaceEntries : ℕ := 64

/-- `58 20` plus 32 bytes. -/
def digestValueLen : ℕ := 34

def entryHeadWindow : ℕ := 7

/-- The widths of a canonical `digestID`, with the head byte that selects each. -/
def digestIdWidths : List (ℕ × Option UInt8) :=
  [(1, none), (2, some 0x18), (3, some 0x19), (5, some 0x1a)]

/-- The canonical CBOR `uint` width at `offset`, natively. -/
def digestIdWidth (native : List UInt8) (offset : ℕ) : Outcome ℕ :=
  match native[offset]? with
  | some b =>
    if b < 0x18 then .ok 1
    else if b = 0x18 then .ok 2
    else if b = 0x19 then .ok 3
    else if b = 0x1a then .ok 5
    else .error .unsatisfiable
  | none => .error .unsatisfiable

/-- Where `numEntries` entries starting at `regionStart` end, natively. -/
def nativeRegionEnd (native : List UInt8) (regionStart numEntries : ℕ) : Outcome ℕ :=
  (List.range numEntries).foldlM (fun offset _ => do
    pure (offset + ((← digestIdWidth native offset) + digestValueLen))) regionStart

/-- What a selected width demands of the seven bytes of an entry's head. -/
def checkWidth [One V] (headBits : List (Boolean V)) (w : ℕ) (headByte : Option UInt8)
    (sel : Boolean V) : Circuit F V Unit := do
  match headByte with
  | none =>
    forM [0, 1, 2] fun bit => .require (sel.lc 1) ((Boolean.nth headBits bit).lc 1) 0
    let both ← Boolean.and (Boolean.nth headBits 3) (Boolean.nth headBits 4)
    .require (sel.lc 1) (both.lc 1) 0
  | some expect =>
    .require (sel.lc 1) (byteLc headBits 0 1 - .const (expect.toNat : F)) 0
  forM [((0 : ℕ), (0x58 : UInt8)), (1, 0x20)] fun t =>
    .require (sel.lc 1) (byteLc headBits (w + t.1) 1 - .const (t.2.toNat : F)) 0

/-- Where a walk stands: its position, the honest position and the heads it has read, each with
whether it was live. -/
structure WalkState (F V : Type) where
  here : LC F V
  hereNative : ℕ
  heads : List (LC F V × LC F V)

/-- One step of the walk: entry `i`, live while the count reaches past it. -/
def walkStep [One V] [ToRepr F] (bits : List (Boolean V)) (native : List UInt8)
    (countSel : List (Boolean V)) (numEntries : ℕ) (s : WalkState F V) (i : ℕ) :
    Circuit F V (WalkState F V) := do
  let live : LC F V := sumWhere (fun n => n + 1 > i) countSel
  let isLive := decide (i < numEntries)
  let offset := if s.hereNative + entryHeadWindow ≤ native.length then s.hereNative else 0
  let head ← selectWindow bits native (windowOffsets native.length entryHeadWindow) offset
    entryHeadWindow
  .require (head.offset - s.here) live 0
  let headBits ← unpackWindowBits head entryHeadWindow
  let realWidth ← .lift (if isLive then digestIdWidth native s.hereNative else .ok 0)
  let widthSel ← digestIdWidths.mapM fun t => Boolean.alloc (some (isLive && t.1 == realWidth))
  .require (.sum (widthSel.map (·.lc 1))) (.const 1) live
  forM (digestIdWidths.zip widthSel) fun t => checkWidth headBits t.1.1 t.1.2 t.2
  let step : LC F V := .sum ((digestIdWidths.zip widthSel).map fun t =>
    t.2.lc ((t.1.1 + digestValueLen : ℕ) : F))
  pure {
    here := s.here + step
    hereNative := if isLive then s.hereNative + (realWidth + digestValueLen) else s.hereNative
    heads := s.heads ++ [(head.offset, live)] }

/-- `walkNamespaceEntries`, with the heads it reads. -/
def walkEntries [One V] [ToRepr F] (bits : List (Boolean V)) (native : List UInt8)
    (regionStart : LC F V) (regionStartNative numEntries : ℕ) :
    Circuit F V (WalkState F V × AllocatedNum F V) := do
  rejectUnless (¬(numEntries = 0 ∨ numEntries > maxNamespaceEntries))
  let (countSel, entries) ← allocCount maxNamespaceEntries numEntries
  let s ← (List.range maxNamespaceEntries).foldlM (walkStep bits native countSel numEntries)
    { here := regionStart, hereNative := regionStartNative, heads := [] }
  pure (s, entries)

/-- Walks the requested namespace's entries and returns where its sub-map ends. -/
def walkNamespaceEntries [One V] [ToRepr F] (bits : List (Boolean V)) (native : List UInt8)
    (regionStart : LC F V) (regionStartNative numEntries : ℕ) :
    Circuit F V (LC F V × AllocatedNum F V) :=
  (fun t => (t.1.here, t.2)) <$> walkEntries bits native regionStart regionStartNative numEntries

/-! ## The region -/

/-- What the prover claims the credential is; texts are their UTF-8 bytes. -/
structure CredentialShape where
  nameSpace : List UInt8
  docType : List UInt8
  numEntries : ℕ

/-- Where the prover says the credential's parts are. -/
structure Landmarks where
  valueDigestsKey : ℕ
  namespaceKey : ℕ
  regionStart : ℕ
  deviceKeyInfo : ℕ
  docTypeKey : ℕ
  validityInfo : ℕ

structure RegionBinding (F V : Type) where
  regionStart : LC F V
  regionEnd : LC F V
  docType : List (AllocatedNum F V)
  nameSpace : List (AllocatedNum F V)
  namespacePrefixLen : AllocatedNum F V
  numEntries : AllocatedNum F V
  deviceKey : AllocatedNum F V × AllocatedNum F V

/-- The offsets of the windows a binding reads. -/
structure RegionTrace (F V : Type) where
  valueDigests : LC F V
  namespaceOffset : LC F V
  namespaceWindow : LC F V
  heads : List (LC F V × LC F V)
  deviceKeyInfo : LC F V
  deviceKeyX : LC F V
  deviceKeyY : LC F V
  docType : LC F V

/-- A device-key coordinate: 32 bytes at a constant distance from the anchor. -/
def deviceCoord [One V] (bits : List (Boolean V)) (native : List UInt8) (anchor : LC F V)
    (anchorNative delta : ℕ) : Circuit F V (AllocatedNum F V × LC F V) := do
  let offset := anchorNative + delta
  let _ ← .lift (windowEnd offset 32 native.length)
  let w ← selectWindow bits native (anchorOffsets native.length) offset 32
  .require (w.offset - anchor - .const (delta : F)) (.const 1) 0
  let shift : F := 256 ^ 16
  .assert (w.packs.length = 2)
  let value : Option F := do
    let vs ← w.packs.mapM (·.value)
    pure (vs.foldl (fun a v => a * shift + v) 0)
  let coord ← AllocatedNum.alloc (assigned value)
  .require (.sum ((w.packs.zip [shift, 1]).map fun t => .term t.2 t.1.var)) (.const 1) coord.lc
  pure (coord, w.offset)

/-- What opens the table: the `valueDigests` window, the namespace's own offset and the length of
the namespace header. -/
structure TableOpening (F V : Type) where
  table : SelectedWindow F V
  nsWindow : SelectedWindow F V
  nsOpenLen : ℕ

/-- Anchor 1, `6C "valueDigests"`, and the offset of anchor 2, the requested namespace's header. -/
def openTable [One V] (bits : List (Boolean V)) (native : List UInt8) (shape : CredentialShape)
    (landmarks : Landmarks) : Circuit F V (TableOpening F V) := do
  rejectUnless (¬shape.numEntries ≥ 256)
  let table ← selectAnchor bits native landmarks.valueDigestsKey valueDigestsOpenKey 1
  let nsHeader ← .lift (tstrHeader shape.nameSpace.length)
  let nsOpen := nsHeader ++ shape.nameSpace ++ mapHeader shape.numEntries
  rejectUnless (¬nsOpen.length > anchorTextWindow)
  let _ ← .lift (windowEnd landmarks.namespaceKey anchorTextWindow native.length)
  let nsEnd ← .lift (windowEnd landmarks.namespaceKey nsOpen.length native.length)
  rejectUnless ((native.take nsEnd).drop landmarks.namespaceKey = nsOpen)
  let nsWindow ← selectWindow bits native (anchorOffsets native.length) landmarks.namespaceKey 1
  pure { table, nsWindow, nsOpenLen := nsOpen.length }

/-- What closes the table: the `deviceKeyInfo` window, the walk, the entry count and the holder's
key with the offsets of its coordinates. -/
structure TableClosing (F V : Type) where
  endWindow : SelectedWindow F V
  walk : WalkState F V
  numEntries : AllocatedNum F V
  x : AllocatedNum F V × LC F V
  y : AllocatedNum F V × LC F V

/-- The namespace sits inside the table, its entries are walked from `regionStart` and end before
anchor 3, `6D "deviceKeyInfo"`, after which the holder's key is read but not revealed. -/
def closeTable [One V] [ToRepr F] (bits : List (Boolean V)) (native : List UInt8)
    (shape : CredentialShape) (landmarks : Landmarks) (table nsOffset regionStart : LC F V) :
    Circuit F V (TableClosing F V) := do
  -- a map header is at least one byte
  let openLen := valueDigestsOpenKey.length + 1
  let tableBody := landmarks.valueDigestsKey + openLen
  rejectUnless (¬landmarks.namespaceKey < tableBody)
  enforceGe nsOffset (table + .const (openLen : F)) (landmarks.namespaceKey - tableBody) 16
  let endWindow ← selectAnchor bits native landmarks.deviceKeyInfo deviceKeyInfo 3
  rejectUnless (¬landmarks.deviceKeyInfo ≤ landmarks.regionStart)
  let (walk, numEntries) ← walkEntries bits native regionStart landmarks.regionStart
    shape.numEntries
  let walkedNative ← .lift (nativeRegionEnd native landmarks.regionStart shape.numEntries)
  rejectUnless (¬walkedNative > landmarks.deviceKeyInfo)
  enforceGe endWindow.offset walk.here (landmarks.deviceKeyInfo - walkedNative) 16
  let x ← deviceCoord bits native endWindow.offset landmarks.deviceKeyInfo deviceKeyXDelta
  let y ← deviceCoord bits native endWindow.offset landmarks.deviceKeyInfo deviceKeyYDelta
  pure { endWindow, walk, numEntries, x, y }

/-- The `docType` entry, published like the namespace. -/
def bindDocType [One V] [ToRepr F] (bits : List (Boolean V)) (native : List UInt8)
    (shape : CredentialShape) (landmarks : Landmarks) : Circuit F V (MaskedAnchor F V) := do
  let docHeader ← .lift (tstrHeader shape.docType.length)
  let expected := docTypeKey ++ docHeader ++ shape.docType
  rejectUnless (¬expected.length > anchorTextWindow)
  let _ ← .lift (windowEnd landmarks.docTypeKey anchorTextWindow native.length)
  let docEnd ← .lift (windowEnd landmarks.docTypeKey expected.length native.length)
  rejectUnless ((native.take docEnd).drop landmarks.docTypeKey = expected)
  maskedTextAnchor bits native landmarks.docTypeKey expected.length

/-- `bindDigestRegion`, with the offsets of the windows it reads. -/
def bindRegion [One V] [ToRepr F] (bits : List (Boolean V)) (native : List UInt8)
    (shape : CredentialShape) (landmarks : Landmarks) :
    Circuit F V (RegionBinding F V × RegionTrace F V) := do
  let opening ← openTable bits native shape landmarks
  let nsOffset := opening.nsWindow.offset
  let ns ← maskedTextAnchor bits native landmarks.namespaceKey opening.nsOpenLen
  let regionStart := nsOffset + ns.prefixLen.lc
  let closing ← closeTable bits native shape landmarks opening.table.offset nsOffset regionStart
  let doc ← bindDocType bits native shape landmarks
  pure ({
    regionStart
    regionEnd := closing.walk.here
    docType := doc.packs
    nameSpace := ns.packs
    namespacePrefixLen := ns.prefixLen
    numEntries := closing.numEntries
    deviceKey := (closing.x.1, closing.y.1) }, {
    valueDigests := opening.table.offset
    namespaceOffset := nsOffset
    namespaceWindow := ns.window.offset
    heads := closing.walk.heads
    deviceKeyInfo := closing.endWindow.offset
    deviceKeyX := closing.x.2
    deviceKeyY := closing.y.2
    docType := doc.window.offset })

/-- Proves that `regionStart .. regionEnd` is the requested namespace's digest region inside the
signed bytes, and reads out the credential's `docType`. -/
def bindDigestRegion [One V] [ToRepr F] (bits : List (Boolean V)) (native : List UInt8)
    (shape : CredentialShape) (landmarks : Landmarks) : Circuit F V (RegionBinding F V) :=
  Prod.fst <$> bindRegion bits native shape landmarks

/-! ## Entries -/

/-- The seven bytes of an entry's head are those of a `digestID` of the given width. -/
def HeadOk (head : List UInt8) (t : ℕ × Option UInt8) : Prop :=
  (match t.2 with
    | none => head.getD 0 0 < 0x18
    | some b => head.getD 0 0 = b) ∧
  head.getD t.1 0 = 0x58 ∧ head.getD (t.1 + 1) 0 = 0x20

theorem lt_24_iff (b : UInt8) : b < 0x18 ↔
    (∀ j ∈ [0, 1, 2], b.toNat.testBit (7 - j) = false) ∧
      (b.toNat.testBit 4 && b.toNat.testBit 3) = false := by
  have h : ∀ n : Fin 256, n.val < 24 ↔ (∀ j ∈ [0, 1, 2], n.val.testBit (7 - j) = false) ∧
      (n.val.testBit 4 && n.val.testBit 3) = false := by decide +kernel
  exact h ⟨b.toNat, b.toNat_lt⟩

section CheckWidth

variable {headBits : List (Boolean F)} {head : List UInt8} {sel : Boolean F} {x : Bool}

theorem nth_headBits (hb : Boolean.ReadsAll headBits (bytesBits head)) {j : ℕ} (hj : j < 8) :
    (Boolean.nth headBits j).Reads ((head.getD 0 0).toNat.testBit (7 - j)) := by
  have h := hb.nth j
  have hg := getD_bytesBits head 0 hj
  rw [Nat.mul_zero, Nat.zero_add] at hg
  rwa [hg] at h

theorem gate_bit {b : Boolean F} {y : Bool} (hs : sel.Reads x) (hb : b.Reads y) :
    (sel.lc (1 : F)).eval * (b.lc (1 : F)).eval = (0 : LC F F).eval ↔ (x = true → y = false) := by
  unfold Boolean.Reads at hs hb
  rw [Boolean.eval_lc, Boolean.eval_lc, one_mul, one_mul, hs, hb, LC.eval_zero]
  cases x <;> cases y <;> simp [ofBool]

theorem gate_byte [LargeChar F] (hs : sel.Reads x) (hb : Boolean.ReadsAll headBits (bytesBits head))
    (i : ℕ) (e : UInt8) :
    (sel.lc (1 : F)).eval * (byteLc headBits i 1 - LC.const (e.toNat : F)).eval =
      (0 : LC F F).eval ↔ (x = true → head.getD i 0 = e) := by
  have hlt : ∀ b : UInt8, b.toNat < 2 ^ 255 := fun b => lt_trans b.toNat_lt (by decide)
  unfold Boolean.Reads at hs
  rw [Boolean.eval_lc, one_mul, hs, LC.eval_sub, LC.eval_const, eval_byteLc hb, one_mul,
    LC.eval_zero]
  cases x with
  | false => simp [ofBool]
  | true =>
    simp only [ofBool, if_true, one_mul, sub_eq_zero, forall_const]
    constructor
    · intro h
      exact UInt8.toNat_inj.mp (LargeChar.natCast_inj (F := F) (hlt _) (hlt _) h)
    · rintro rfl; rfl

variable [LargeChar F] {w : ℕ} {headByte : Option UInt8}

theorem ensures_checkWidth (hs : sel.Reads x) (hb : Boolean.ReadsAll headBits (bytesBits head)) :
    (checkWidth headBits w headByte sel).Ensures fun _ => x = true → HeadOk head (w, headByte) := by
  unfold checkWidth
  have htail : (forM [((0 : ℕ), (0x58 : UInt8)), (1, 0x20)] fun t =>
      Circuit.require (sel.lc 1) (byteLc headBits (w + t.1) 1 - .const (t.2.toNat : F)) 0).Ensures
      fun _ => x = true → head.getD w 0 = 0x58 ∧ head.getD (w + 1) 0 = 0x20 := by
    refine (Circuit.Ensures.forM fun t _ => Circuit.ensures_require).mono fun _ h hx => ?_
    exact ⟨(gate_byte hs hb w 0x58).mp (h (0, 0x58) (by simp)) hx,
      (gate_byte hs hb (w + 1) 0x20).mp (h (1, 0x20) (by simp)) hx⟩
  cases headByte with
  | none =>
    refine (Circuit.Ensures.forM fun t _ => Circuit.ensures_require).bind fun _ h012 => ?_
    refine (Boolean.computes_and (nth_headBits hb (by decide))
      (nth_headBits hb (by decide))).sound.bind fun both hboth => ?_
    refine .require_bind fun hlt => htail.mono fun _ ht hx => ⟨?_, ht hx⟩
    refine (lt_24_iff _).mpr ⟨fun j hj => ?_, (gate_bit hs hboth).mp hlt hx⟩
    have hj8 : j < 8 := by simp at hj; omega
    exact (gate_bit hs (nth_headBits hb hj8)).mp (h012 j hj) hx
  | some e =>
    refine .require_bind fun he => htail.mono fun _ ht hx => ⟨?_, ht hx⟩
    exact (gate_byte hs hb 0 e).mp he hx

/-- Any prover can pass the check of a width whose head is there, and the honest one does. -/
theorem yields_checkWidth {who : Circuit.Prover} (hs : sel.Reads x)
    (hb : Boolean.HoldsAll who headBits (bytesBits head)) (h : x = true → HeadOk head (w, headByte)) :
    (checkWidth headBits w headByte sel).Yields who fun _ => True := by
  have hreads := hb.reads
  unfold checkWidth
  have htail : (forM [((0 : ℕ), (0x58 : UInt8)), (1, 0x20)] fun t =>
      Circuit.require (sel.lc 1) (byteLc headBits (w + t.1) 1 - .const (t.2.toNat : F)) 0).Yields who
      fun _ => True := by
    refine .forM fun t ht => Circuit.yields_require ((gate_byte hs hreads _ _).mpr fun hx => ?_)
    rcases List.mem_pair.mp ht with rfl | rfl
    · exact (h hx).2.1
    · exact (h hx).2.2
  have hbit : ∀ {j : ℕ}, j < 8 →
      (Boolean.nth headBits j).Holds who ((head.getD 0 0).toNat.testBit (7 - j)) := by
    intro j hj
    have hnth := hb.nth j
    have hget := getD_bytesBits head 0 hj
    rw [Nat.mul_zero, Nat.zero_add] at hget
    rwa [hget] at hnth
  cases headByte with
  | none =>
    have hlt := fun hx => (lt_24_iff _).mp (h hx).1
    have hzero : (forM [0, 1, 2] fun bit =>
        Circuit.require (sel.lc (1 : F)) ((Boolean.nth headBits bit).lc 1) 0).Yields who fun _ => True := by
      refine .forM fun j hj => Circuit.yields_require ?_
      have hj8 : j < 8 := by simp at hj; omega
      exact (gate_bit hs (hbit hj8).reads).mpr fun hx => (hlt hx).1 j hj
    refine hzero.bind fun _ _ => ?_
    refine (Boolean.yields_and (hbit (by decide)) (hbit (by decide))).bind fun both hboth => ?_
    exact .require_bind ((gate_bit hs hboth.reads).mpr fun hx => (hlt hx).2) htail
  | some e => exact .require_bind ((gate_byte hs hreads 0 e).mpr fun hx => (h hx).1) htail

end CheckWidth

/-- An entry whose `digestID` takes `w` bytes opens at `o`. -/
def HeadAt (buf : List UInt8) (o w : ℕ) : Prop :=
  o + entryHeadWindow ≤ buf.length ∧
    ∃ headByte, (w, headByte) ∈ digestIdWidths ∧ HeadOk (windowAt buf o entryHeadWindow) (w, headByte)

/-- `n` entries sit at `s` and end at `e`. -/
inductive EntriesAt (buf : List UInt8) (s : ℕ) : ℕ → ℕ → Prop where
  | nil : EntriesAt buf s 0 s
  | snoc {n e w : ℕ} : EntriesAt buf s n e → HeadAt buf e w →
      EntriesAt buf s (n + 1) (e + (w + digestValueLen))

theorem getD_windowAt (buf : List UInt8) (o : ℕ) {len i : ℕ} (hi : i < len) :
    (windowAt buf o len).getD i 0 = buf.getD (o + i) 0 := by
  simp [windowAt, List.getD_eq_getElem?_getD, hi]

theorem HeadAt.width {buf : List UInt8} {o w : ℕ} (h : HeadAt buf o w) :
    digestIdWidth buf o = .ok w := by
  obtain ⟨hlen, headByte, hmem, hok, -⟩ := h
  have hlt : o < buf.length := by simp only [entryHeadWindow] at hlen; omega
  rw [getD_windowAt buf o (by decide), Nat.add_zero, List.getD_eq_getElem?_getD,
    List.getElem?_eq_getElem hlt, Option.getD_some] at hok
  unfold digestIdWidth
  rw [List.getElem?_eq_getElem hlt]
  simp only [digestIdWidths, List.mem_cons, Prod.mk.injEq, List.not_mem_nil, or_false] at hmem
  rcases hmem with ⟨rfl, rfl⟩ | ⟨rfl, rfl⟩ | ⟨rfl, rfl⟩ | ⟨rfl, rfl⟩ <;> simp_all

theorem HeadAt.width_le {buf : List UInt8} {o w : ℕ} (h : HeadAt buf o w) : 1 ≤ w ∧ w ≤ 5 := by
  obtain ⟨-, headByte, hmem, -⟩ := h
  simp only [digestIdWidths, List.mem_cons, Prod.mk.injEq, List.not_mem_nil, or_false] at hmem
  omega

theorem EntriesAt.le {buf : List UInt8} {s n e : ℕ} (h : EntriesAt buf s n e) :
    s + 35 * n ≤ e ∧ e ≤ s + 39 * n := by
  induction h with
  | nil => omega
  | snoc _ hw ih =>
    have := hw.width_le
    simp only [digestValueLen]
    omega

theorem EntriesAt.unique {buf : List UInt8} {s n e e' : ℕ} (h : EntriesAt buf s n e)
    (h' : EntriesAt buf s n e') : e = e' := by
  induction h generalizing e' with
  | nil => cases h'; rfl
  | snoc _ hw ih =>
    cases h' with
    | snoc he' hw' =>
      obtain rfl := ih he'
      have hww := hw.width.symm.trans hw'.width
      rw [Except.ok.inj hww]

theorem EntriesAt.nativeRegionEnd {buf : List UInt8} {s n e : ℕ} (h : EntriesAt buf s n e) :
    nativeRegionEnd buf s n = .ok e := by
  unfold ZkCredVega.nativeRegionEnd
  induction h with
  | nil => rfl
  | snoc _ hw ih =>
    rw [List.range_succ, List.foldlM_append, ih]
    simp only [List.foldlM_cons, List.foldlM_nil, bind_pure]
    change (do pure (_ + ((← digestIdWidth buf _) + digestValueLen)) : Outcome ℕ) = _
    rw [hw.width]
    rfl

/-! ## The walk -/

section Walk

variable {bits countSel : List (Boolean F)} {buf native : List UInt8} {start numEntries l : ℕ}

/-- A head read by a walk from `start` over the entries `0..=l`: past the count, or at an entry. -/
def HeadRead (buf : List UInt8) (start l : ℕ) (t : LC F F × LC F F) : Prop :=
  t.2.eval = 0 ∨ t.2.eval = 1 ∧
    ∃ k e w, k ≤ l ∧ EntriesAt buf start k e ∧ HeadAt buf e w ∧ t.1.eval = (e : F)

/-- Where a walk over the entries `0..=l` stands after `i` steps. -/
structure WalkAt (buf : List UInt8) (start l i : ℕ) (s : WalkState F F) : Prop where
  here_eq : ∃ e, EntriesAt buf start (min i (l + 1)) e ∧ s.here.eval = (e : F)
  heads : ∀ t ∈ s.heads, HeadRead buf start l t

/-- How far a step moves: past the selected width, or nowhere. -/
theorem eval_stepLc {widthSel : List (Boolean F)} {j : ℕ} (hj : j < digestIdWidths.length)
    (h : Boolean.ReadsAll widthSel (oneHot digestIdWidths.length j)) :
    (LC.sum ((digestIdWidths.zip widthSel).map fun t =>
      t.2.lc ((t.1.1 + digestValueLen : ℕ) : F))).eval =
      ((digestIdWidths[j].1 + digestValueLen : ℕ) : F) := by
  have hsum := sum_zip_oneHot (fun t : ℕ × Option UInt8 => ((t.1 + digestValueLen : ℕ) : F))
    Boolean.eval (Boolean.readsAll_iff.mp h) hj
  rw [← hsum, LC.eval_sum, List.map_map]
  simp only [Function.comp_def, Boolean.eval_lc]

theorem eval_stepLc_zero {widthSel : List (Boolean F)} {n : ℕ}
    (h : Boolean.ReadsAll widthSel (List.replicate n false)) :
    (LC.sum ((digestIdWidths.zip widthSel).map fun t =>
      t.2.lc ((t.1.1 + digestValueLen : ℕ) : F))).eval = 0 := by
  rw [LC.eval_sum, List.map_map]
  refine List.sum_eq_zero fun v hv => ?_
  obtain ⟨t, ht, rfl⟩ := List.mem_map.mp hv
  have h0 : t.2.eval = 0 := h.mem_replicate (List.of_mem_zip ht).2
  simp [h0]

theorem WalkAt.heads_append {i : ℕ} {s : WalkState F F} (hs : WalkAt buf start l i s) {head : LC F F × LC F F}
    (h : HeadRead buf start l head) : ∀ t ∈ s.heads ++ [head], HeadRead buf start l t := by
  intro t ht
  rcases List.mem_append.mp ht with ht | ht
  · exact hs.heads t ht
  · obtain rfl := List.mem_singleton.mp ht
    exact h

/-- A live step reads the head of the next entry and goes past it. -/
theorem WalkAt.advance {i e w n : ℕ} {s : WalkState F F} {offset live step : LC F F} (hs : WalkAt buf start l i s)
    (he : EntriesAt buf start (min i (l + 1)) e) (heval : s.here.eval = (e : F)) (hil : i ≤ l)
    (hhead : HeadAt buf e w) (hoffset : offset.eval = (e : F)) (hlive : live.eval = 1)
    (hstep : step.eval = ((w + digestValueLen : ℕ) : F)) :
    WalkAt buf start l (i + 1) ⟨s.here + step, n, s.heads ++ [(offset, live)]⟩ := by
  refine ⟨⟨e + (w + digestValueLen), ?_, ?_⟩, hs.heads_append (.inr ⟨hlive, i, e, w, hil, ?_, hhead, hoffset⟩)⟩
  · rw [show min (i + 1) (l + 1) = min i (l + 1) + 1 by omega]
    exact he.snoc hhead
  · rw [LC.eval_add, heval, hstep]
    push_cast
    ring
  · rwa [show min i (l + 1) = i by omega] at he

/-- Past the count the walk stands still. -/
theorem WalkAt.idle {i n : ℕ} {s : WalkState F F} {offset live step : LC F F} (hs : WalkAt buf start l i s)
    (hil : ¬i ≤ l) (hlive : live.eval = 0) (hstep : step.eval = 0) :
    WalkAt buf start l (i + 1) ⟨s.here + step, n, s.heads ++ [(offset, live)]⟩ := by
  obtain ⟨e, he, heval⟩ := hs.here_eq
  refine ⟨⟨e, ?_, ?_⟩, hs.heads_append (.inl hlive)⟩
  · rwa [show min (i + 1) (l + 1) = min i (l + 1) by omega]
  · rw [LC.eval_add, heval, hstep, add_zero]

variable [LargeChar F] [ToRepr F]

theorem ensures_walkStep (hb : Boolean.ReadsAll bits (bytesBits buf))
    (hlen : native.length = buf.length) (hbuf : buf.length < 2 ^ 64) (hstart : start < 2 ^ 65)
    (hsel : Boolean.ReadsAll countSel (oneHot maxNamespaceEntries l)) (hl : l < maxNamespaceEntries)
    {i : ℕ} (hi : i < maxNamespaceEntries) {s : WalkState F F} (hs : WalkAt buf start l i s) :
    (walkStep bits native countSel numEntries s i).Ensures (WalkAt buf start l (i + 1)) := by
  obtain ⟨e, he, heval⟩ := hs.here_eq
  have hele := he.le
  have hlive : (sumWhere (fun n => n + 1 > i) countSel : LC F F).eval = ofBool (decide (i ≤ l)) := by
    rw [eval_sumWhere _ hsel hl]
    congr 1
    simp
  unfold walkStep
  have hcand : (windowOffsets native.length entryHeadWindow).length < 2 ^ 255 :=
    lt_of_le_of_lt (length_windowOffsets_le _ _) (by rw [hlen]; omega)
  refine (ensures_selectWindow hb hlen hcand).bind fun head hhead => ?_
  obtain ⟨-, o, ho, hhead⟩ := hhead
  rw [mem_windowOffsets, hlen] at ho
  refine .require_bind fun hat => ?_
  rw [LC.eval_sub, hhead.offset_eq, heval, hlive, LC.eval_zero] at hat
  have hunpack := computes_unpackWindowBits hhead
  rw [length_windowAt] at hunpack
  refine hunpack.sound.bind fun headBits hbits => Circuit.ensures_lift.bind fun realWidth _ => ?_
  refine Boolean.ensures_allocBits.bind fun widthSel hw => .require_bind fun hsum => ?_
  obtain ⟨xs, hxs, hr⟩ := hw
  rw [eval_sum_sel hr, LC.eval_const, mul_one, hlive] at hsum
  have hxs255 : xs.length < 2 ^ 255 := by rw [hxs]; decide
  have hchecks : (forM (digestIdWidths.zip widthSel) fun t =>
      (checkWidth headBits t.1.1 t.1.2 t.2 : Circuit F F Unit)).Ensures fun _ =>
      ∀ t ∈ digestIdWidths.zip widthSel, t.2.Reads true →
        HeadOk (windowAt buf o entryHeadWindow) t.1 := by
    refine Circuit.Ensures.forM fun t ht => ?_
    obtain ⟨x, hx⟩ := hr.isBit (List.of_mem_zip ht).2
    exact (ensures_checkWidth hx hbits).mono fun _ h htrue => h (hx.unique htrue)
  refine hchecks.bind fun _ hok => Circuit.ensures_pure.mpr ?_
  by_cases hil : i ≤ l
  · -- live: the head is at `e`, and one width is selected
    have hoe : o = e := by
      simp only [hil, decide_true, ofBool, if_true, mul_one, sub_eq_zero] at hat
      simp only [entryHeadWindow] at ho
      simp only [maxNamespaceEntries] at hi hl
      exact LargeChar.natCast_inj (F := F) (by omega) (by omega) hat
    subst hoe
    obtain ⟨j, hj, hoh⟩ := exists_oneHot_of_sum (F := F) hxs255 (by simpa [hil, ofBool] using hsum)
    rw [hxs] at hj hoh
    rw [hoh] at hr
    have hjw : j < widthSel.length := by rw [hr.length_eq]; simpa using hj
    have hhead' : HeadAt buf o digestIdWidths[j].1 := by
      refine ⟨ho, digestIdWidths[j].2, List.getElem_mem hj, ?_⟩
      refine hok (digestIdWidths[j], widthSel[j]) ?_ ?_
      · have hjz : j < (digestIdWidths.zip widthSel).length := by simp [hj, hjw]
        simpa using List.getElem_mem hjz
      · have hn := hr.nth j
        simpa [Boolean.nth, List.getD_eq_getElem?_getD, hjw, hj, oneHot] using hn
    exact hs.advance he heval hil hhead' hhead.offset_eq (hlive.trans (by simp [hil, ofBool])) (eval_stepLc hj hr)
  · -- past the count: no width is selected and the walk stands still
    have h0 : (xs.map ofBool).sum = (0 : F) := by simpa [hil, ofBool] using hsum
    rw [eq_replicate_of_sum hxs255 h0] at hr
    exact hs.idle hil (hlive.trans (by simp [hil, ofBool])) (eval_stepLc_zero hr)

/-- A walk finds `n` entries, at most sixty-four, and ends where they do. -/
theorem ensures_walkEntries (hb : Boolean.ReadsAll bits (bytesBits buf))
    (hlen : native.length = buf.length) (hbuf : buf.length < 2 ^ 64) (hstart : start < 2 ^ 65)
    {regionStart : LC F F} {regionStartNative : ℕ} (hrs : regionStart.eval = (start : F)) :
    (walkEntries bits native regionStart regionStartNative numEntries).Ensures fun t =>
      ∃ n e, 1 ≤ n ∧ n ≤ maxNamespaceEntries ∧ t.2.val = (n : F) ∧ EntriesAt buf start n e ∧
        t.1.here.eval = (e : F) ∧ ∀ h ∈ t.1.heads, HeadRead buf start (n - 1) h := by
  unfold walkEntries
  refine ensures_rejectUnless.bind fun _ _ => ?_
  refine (ensures_allocCount (by decide)).bind fun t ht => ?_
  obtain ⟨countSel, entries⟩ := t
  obtain ⟨l, hl, hsel, hval⟩ := ht
  have h0 : WalkAt buf start l 0 { here := regionStart, hereNative := regionStartNative, heads := [] } :=
    ⟨⟨start, by simpa using EntriesAt.nil, hrs⟩, by simp⟩
  refine (Circuit.Ensures.foldlM (WalkAt buf start l) h0 fun i hi s hs => ?_).bind fun s hs => ?_
  · rw [List.length_range] at hi
    rw [List.getElem_range]
    exact ensures_walkStep hb hlen hbuf hstart hsel hl hi hs
  · rw [List.length_range] at hs
    obtain ⟨e, he, heval⟩ := hs.here_eq
    rw [show min maxNamespaceEntries (l + 1) = l + 1 by omega] at he
    exact Circuit.ensures_pure.mpr ⟨l + 1, e, by omega, by omega, hval, he, heval, hs.heads⟩

/-- Where an honest walk stands after `i` steps. -/
structure HonestWalkAt (buf : List UInt8) (start n i : ℕ) (s : WalkState F F) : Prop where
  entries : EntriesAt buf start (min i n) s.hereNative
  here_eq : s.here.eval = (s.hereNative : F)

theorem EntriesAt.head {buf : List UInt8} {s n e k : ℕ} (h : EntriesAt buf s n e) (hk : k < n) :
    ∃ m w, EntriesAt buf s k m ∧ HeadAt buf m w := by
  induction h with
  | nil => omega
  | snoc he hw ih =>
    rcases Nat.lt_succ_iff_lt_or_eq.mp hk with hk | rfl
    · exact ih hk
    · exact ⟨_, _, he, hw⟩

/-- A step can read any window and take any widths that fit what is there. -/
theorem admits_walkStep_of (o realWidth : ℕ) (ys : List Bool)
    (hb : Boolean.ReadsAll bits (bytesBits buf)) (hlen : native.length = buf.length)
    {s : WalkState F F} {i : ℕ}
    (ho : o + entryHeadWindow ≤ buf.length) (hys : ys.length = digestIdWidths.length)
    (hat : ((o : F) - s.here.eval) *
      (sumWhere (fun n => n + 1 > i) countSel : LC F F).eval = 0)
    (hwidth : (if decide (i < numEntries) then digestIdWidth native s.hereNative else .ok 0) =
      .ok realWidth)
    (hsum : (ys.map ofBool).sum = (sumWhere (fun n => n + 1 > i) countSel : LC F F).eval)
    (hok : ∀ t ∈ digestIdWidths.zip ys, t.2 = true → HeadOk (windowAt buf o entryHeadWindow) t.1) :
    (walkStep bits native countSel numEntries s i).Admits fun s' =>
      (∃ widthSel : List (Boolean F), Boolean.ReadsAll widthSel ys ∧
        s'.here = s.here + LC.sum ((digestIdWidths.zip widthSel).map fun t =>
          t.2.lc ((t.1.1 + digestValueLen : ℕ) : F))) ∧
      s'.hereNative = if i < numEntries then s.hereNative + (realWidth + digestValueLen)
        else s.hereNative := by
  unfold walkStep
  have hreal : (if s.hereNative + entryHeadWindow ≤ native.length then s.hereNative else 0) ∈
      windowOffsets native.length entryHeadWindow := by
    rw [mem_windowOffsets]
    split <;> omega
  have ho' : o ∈ windowOffsets native.length entryHeadWindow :=
    mem_windowOffsets.mpr (by rw [hlen]; exact ho)
  refine (admits_selectWindow hb hlen hreal ho').bind fun head hhead => ?_
  refine .require_bind (by rw [LC.eval_sub, hhead.offset_eq, hat, LC.eval_zero]) ?_
  have hunpack := computes_unpackWindowBits hhead
  rw [length_windowAt] at hunpack
  refine hunpack.complete.bind fun headBits hbits => ?_
  refine Circuit.Admits.bind (P := fun w => w = realWidth)
    ⟨realWidth, Circuit.runs_lift.mpr ⟨rfl, hwidth⟩, rfl⟩ fun _ hw => ?_
  subst hw
  refine (Boolean.admits_allocBits ys hys).bind fun widthSel hr => ?_
  refine .require_bind (by rw [eval_sum_sel hr, hsum, LC.eval_const, mul_one]) ?_
  refine Circuit.Admits.bind (P := fun _ => True) (.forM fun t ht => ?_) fun _ _ => ?_
  · obtain ⟨k, hk, rfl⟩ := List.mem_iff_getElem.mp ht
    simp only [List.length_zip] at hk
    have hky : k < ys.length := by rw [← hr.length_eq]; omega
    have hread : (widthSel[k]).Reads ys[k] := by
      have hn := hr.nth k
      simpa [Boolean.nth, List.getD_eq_getElem?_getD, hky, show k < widthSel.length by omega] using hn
    have hmem : (digestIdWidths[k], ys[k]) ∈ digestIdWidths.zip ys := by
      have hkz : k < (digestIdWidths.zip ys).length := by simp; omega
      simpa using List.getElem_mem hkz
    rw [List.getElem_zip]
    have hcheck : (checkWidth headBits digestIdWidths[k].1 digestIdWidths[k].2 widthSel[k]).Yields .any fun _ => True :=
      yields_checkWidth hread hbits (hok _ hmem)
    exact hcheck.admits
  · exact Circuit.admits_pure.mpr ⟨⟨widthSel, hr, rfl⟩, by simp⟩

omit [LargeChar F] [ToRepr F] in
theorem HonestWalkAt.live {n i j : ℕ} {s s' : WalkState F F} {widthSel : List (Boolean F)}
    (hs : HonestWalkAt buf start n i s) (hil : i < n) (hj : j < digestIdWidths.length)
    (hhead : HeadAt buf s.hereNative digestIdWidths[j].1)
    (hr : Boolean.ReadsAll widthSel (oneHot digestIdWidths.length j))
    (hhere : s'.here = s.here + LC.sum ((digestIdWidths.zip widthSel).map fun t =>
      t.2.lc ((t.1.1 + digestValueLen : ℕ) : F)))
    (hnat : s'.hereNative = s.hereNative + (digestIdWidths[j].1 + digestValueLen)) :
    HonestWalkAt buf start n (i + 1) s' := by
  refine ⟨?_, ?_⟩
  · have hse := hs.entries
    rw [show min i n = i by omega] at hse
    rw [hnat, show min (i + 1) n = i + 1 by omega]
    exact hse.snoc hhead
  · rw [hhere, hnat, LC.eval_add, hs.here_eq, eval_stepLc hj hr]
    push_cast
    ring

omit [LargeChar F] [ToRepr F] in
theorem HonestWalkAt.dead {n i m : ℕ} {s s' : WalkState F F} {widthSel : List (Boolean F)}
    (hs : HonestWalkAt buf start n i s) (hil : ¬i < n)
    (hr : Boolean.ReadsAll widthSel (List.replicate m false))
    (hhere : s'.here = s.here + LC.sum ((digestIdWidths.zip widthSel).map fun t =>
      t.2.lc ((t.1.1 + digestValueLen : ℕ) : F)))
    (hnat : s'.hereNative = s.hereNative) : HonestWalkAt buf start n (i + 1) s' := by
  refine ⟨?_, ?_⟩
  · rw [hnat, show min (i + 1) n = min i n by omega]
    exact hs.entries
  · rw [hhere, hnat, LC.eval_add, hs.here_eq, eval_stepLc_zero hr, add_zero]

omit [LargeChar F] [ToRepr F] in
theorem HonestWalkAt.exists_head {n i e : ℕ} {s : WalkState F F} (hs : HonestWalkAt buf start n i s) (hil : i < n)
    (hentries : EntriesAt buf start n e) : ∃ j, ∃ hj : j < digestIdWidths.length,
      HeadAt buf s.hereNative digestIdWidths[j].1 ∧
        HeadOk (windowAt buf s.hereNative entryHeadWindow) digestIdWidths[j] := by
  obtain ⟨m, w, hm, hw⟩ := hentries.head hil
  have hse := hs.entries
  rw [show min i n = i by omega] at hse
  obtain rfl := hm.unique hse
  obtain ⟨-, headByte, hmem, hok⟩ := id hw
  obtain ⟨j, hj, hjeq⟩ := List.mem_iff_getElem.mp hmem
  refine ⟨j, hj, ?_, ?_⟩
  · rw [hjeq]
    exact hw
  · rw [hjeq]
    exact hok

omit [LargeChar F] [ToRepr F] in
theorem eval_live {n i : ℕ} (hpos : 1 ≤ n) (hn : n ≤ maxNamespaceEntries)
    (hsel : Boolean.ReadsAll countSel (oneHot maxNamespaceEntries (n - 1))) :
    (sumWhere (fun m => m + 1 > i) countSel : LC F F).eval = ofBool (decide (i < n)) := by
  rw [eval_sumWhere _ hsel (by omega)]
  congr 1
  simp
  omega

theorem admits_walkStep (hb : Boolean.ReadsAll bits (bytesBits buf))
    (h7 : entryHeadWindow ≤ buf.length) {n e : ℕ} (hpos : 1 ≤ n) (hn : n ≤ maxNamespaceEntries)
    (hentries : EntriesAt buf start n e)
    (hsel : Boolean.ReadsAll countSel (oneHot maxNamespaceEntries (n - 1))) {i : ℕ}
    {s : WalkState F F} (hs : HonestWalkAt buf start n i s) :
    (walkStep bits buf countSel n s i).Admits (HonestWalkAt buf start n (i + 1)) := by
  have hlive := eval_live (F := F) (i := i) hpos hn hsel
  by_cases hil : i < n
  · obtain ⟨j, hj, hw, hok⟩ := hs.exists_head hil hentries
    refine (admits_walkStep_of s.hereNative digestIdWidths[j].1 (oneHot digestIdWidths.length j) hb rfl hw.1 (by simp)
      ?_ (by simpa [hil] using hw.width) ?_ ?_).mono fun s' hs' => ?_
    · rw [hs.here_eq, sub_self, zero_mul]
    · rw [hlive, sum_oneHot hj]
      simp [hil, ofBool]
    · intro t ht htrue
      obtain ⟨k, hk, rfl⟩ := List.mem_iff_getElem.mp ht
      rw [List.getElem_zip] at htrue ⊢
      obtain rfl : k = j := by simpa [getElem_oneHot] using htrue
      exact hok
    · obtain ⟨⟨widthSel, hr, hhere⟩, hnat⟩ := hs'
      rw [if_pos hil] at hnat
      exact hs.live hil hj hw hr hhere hnat
  · refine (admits_walkStep_of 0 0 (List.replicate digestIdWidths.length false) hb rfl
      (by omega) (by simp) (by rw [hlive]; simp [hil, ofBool]) (by simp [hil]) ?_ ?_).mono
      fun s' hs' => ?_
    · rw [hlive]
      simp [hil, ofBool]
    · intro t ht h
      have := List.eq_of_mem_replicate (List.of_mem_zip ht).2
      rw [this] at h
      cases h
    · obtain ⟨⟨widthSel, hr, hhere⟩, hnat⟩ := hs'
      rw [if_neg hil] at hnat
      exact hs.dead hil hr hhere hnat

/-- Well-formed entries can be walked. -/
theorem admits_walkEntries (hb : Boolean.ReadsAll bits (bytesBits buf))
    (h7 : entryHeadWindow ≤ buf.length) {n e : ℕ} (hpos : 1 ≤ n) (hn : n ≤ maxNamespaceEntries)
    (hentries : EntriesAt buf start n e) {regionStart : LC F F}
    (hrs : regionStart.eval = (start : F)) :
    (walkEntries bits buf regionStart start n).Admits fun t =>
      t.2.val = (n : F) ∧ t.1.here.eval = (e : F) := by
  unfold walkEntries
  refine (admits_rejectUnless (by omega)).bind fun _ _ => ?_
  have hl : n - 1 < maxNamespaceEntries := by omega
  refine (admits_allocCount hl).bind fun t ht => ?_
  obtain ⟨countSel, entries⟩ := t
  obtain ⟨hsel, hval⟩ := ht
  rw [show n - 1 + 1 = n by omega] at hval
  have h0 : HonestWalkAt buf start n 0 { here := regionStart, hereNative := start, heads := [] } :=
    ⟨by simpa using EntriesAt.nil, hrs⟩
  refine (Circuit.Admits.foldlM (HonestWalkAt buf start n) h0 fun i hi s hs => ?_).bind
    fun s hs => Circuit.admits_pure.mpr ⟨hval, ?_⟩
  · rw [List.getElem_range]
    exact admits_walkStep hb h7 hpos hn hentries hsel hs
  · have hse := hs.entries
    rw [List.length_range, show min maxNamespaceEntries n = n by omega] at hse
    rw [hs.here_eq, hse.unique hentries]

end Walk

/-! ## The binding -/

section Bind

variable [LargeChar F] {bits : List (Boolean F)} {buf native : List UInt8}
  {shape : CredentialShape} {landmarks : Landmarks}

theorem ensures_openTable (hb : Boolean.ReadsAll bits (bytesBits buf))
    (hlen : native.length = buf.length) (hbuf : buf.length < 2 ^ 64) :
    (openTable bits native shape landmarks).Ensures fun opening =>
      (∃ t, t + maxAnchorWindow ≤ buf.length ∧
        windowAt buf t valueDigestsOpenKey.length = valueDigestsOpenKey ∧
        opening.table.offset.eval = (t : F)) ∧
      (∃ k, k + maxAnchorWindow ≤ buf.length ∧ opening.nsWindow.offset.eval = (k : F)) := by
  unfold openTable
  have hcand : (anchorOffsets native.length).length < 2 ^ 255 :=
    lt_of_le_of_lt (length_windowOffsets_le _ _) (by rw [hlen]; omega)
  refine ensures_rejectUnless.bind fun _ _ => ?_
  refine (ensures_selectAnchor hb hlen hbuf).bind fun table ht => ?_
  refine Circuit.ensures_lift.bind fun nsHeader _ => ensures_rejectUnless.bind fun _ _ => ?_
  refine Circuit.ensures_lift.bind fun _ _ => Circuit.ensures_lift.bind fun nsEnd _ => ?_
  refine ensures_rejectUnless.bind fun _ _ => ?_
  refine (ensures_selectWindow hb hlen hcand).bind fun nsWindow hns => ?_
  obtain ⟨t, htlen, htw, hts⟩ := ht
  obtain ⟨-, k, hk, hks⟩ := hns
  refine Circuit.ensures_pure.mpr ⟨⟨t, htlen, htw, hts.offset_eq⟩, k, ?_, hks.offset_eq⟩
  rw [← hlen]
  exact mem_anchorOffsets.mp hk

theorem packBytes_32 {w : List UInt8} (h : w.length = 32) :
    packBytes w = [bytesNat (w.take 16), bytesNat (w.drop 16)] := by
  have hd : (w.drop 16).take 16 = w.drop 16 := List.take_of_length_le (by simp [h])
  have h2 : List.range (packCount 32) = [0, 1] := by decide
  simp [packBytes, h, bytesPerPack, h2, hd]

omit [LargeChar F] in
/-- The two packs of a 32-byte window recombine into the number of its bytes. -/
theorem eval_recombined {w : SelectedWindow F F} {o : ℕ} {bytes : List UInt8} (hw : w.Shows o bytes)
    (h : bytes.length = 32) :
    (LC.sum ((w.packs.zip [(256 : F) ^ 16, 1]).map fun t => LC.term t.2 t.1.var)).eval =
      ((bytesNat bytes : ℕ) : F) := by
  have hp := hw.packs_eq
  rw [packBytes_32 h] at hp
  obtain ⟨hi, lo, hpacks⟩ : ∃ hi lo, w.packs = [hi, lo] := by
    have hlen : w.packs.length = 2 := by simpa using congrArg List.length hp
    exact List.length_eq_two.mp hlen
  rw [hpacks] at hp ⊢
  simp only [List.map_cons, List.map_nil, List.cons.injEq, and_true] at hp
  have hb := bytesNat_append (bytes.take 16) (bytes.drop 16)
  rw [List.take_append_drop, List.length_drop, h] at hb
  rw [hb]
  simp only [List.zip_cons_cons, List.zip_nil_right, List.map_cons, List.map_nil, LC.eval_sum,
    LC.eval_term, List.sum_cons, List.sum_nil]
  rw [show hi.var = _ from hp.1, show lo.var = _ from hp.2]
  push_cast
  ring

theorem ensures_deviceCoord (hb : Boolean.ReadsAll bits (bytesBits buf))
    (hlen : native.length = buf.length) (hbuf : buf.length < 2 ^ 64) {anchor : LC F F}
    {anchorNative delta d : ℕ} (ha : anchor.eval = (d : F)) (hd : d < 2 ^ 64)
    (hdelta : delta < 2 ^ 64) :
    (deviceCoord bits native anchor anchorNative delta).Ensures fun t =>
      d + delta + maxAnchorWindow ≤ buf.length ∧ t.2.eval = ((d + delta : ℕ) : F) ∧
        t.1.val = ((bytesNat (windowAt buf (d + delta) 32) : ℕ) : F) := by
  unfold deviceCoord
  have hcand : (anchorOffsets native.length).length < 2 ^ 255 :=
    lt_of_le_of_lt (length_windowOffsets_le _ _) (by rw [hlen]; omega)
  refine Circuit.ensures_lift.bind fun _ _ => ?_
  refine (ensures_selectWindow hb hlen hcand).bind fun w hw => .require_bind fun hat => ?_
  obtain ⟨-, o, ho, hw⟩ := hw
  rw [mem_anchorOffsets, hlen] at ho
  have hod : o = d + delta := by
    refine LargeChar.natCast_inj (F := F) (by omega) (by omega) ?_
    rw [LC.eval_sub, LC.eval_sub, hw.offset_eq, ha, LC.eval_const, LC.eval_const, mul_one,
      LC.eval_zero] at hat
    push_cast
    linear_combination hat
  subst hod
  refine Circuit.ensures_assert.bind fun _ hp => ?_
  refine AllocatedNum.ensures_alloc.bind fun coord _ => .require_bind fun hc => ?_
  rw [eval_recombined hw (by simp), LC.eval_const, mul_one, AllocatedNum.eval_lc] at hc
  exact Circuit.ensures_pure.mpr ⟨ho, hw.offset_eq, hc.symm⟩

omit [LargeChar F] in
theorem admits_deviceCoord (hb : Boolean.ReadsAll bits (bytesBits buf))
    (hlen : native.length = buf.length) {anchor : LC F F} {anchorNative delta d : ℕ}
    (ha : anchor.eval = (d : F)) (hreal : anchorNative + delta + maxAnchorWindow ≤ native.length)
    (hd : d + delta + maxAnchorWindow ≤ buf.length) :
    (deviceCoord bits native anchor anchorNative delta).Admits fun _ => True := by
  unfold deviceCoord
  have hend : windowEnd (anchorNative + delta) 32 native.length = .ok (anchorNative + delta + 32) := by
    simp only [maxAnchorWindow] at hreal
    rw [windowEnd, if_pos (by omega)]
  refine Circuit.Admits.bind (P := fun _ => True)
    ⟨_, Circuit.runs_lift.mpr ⟨rfl, hend⟩, trivial⟩ fun _ _ => ?_
  have ho : d + delta ∈ anchorOffsets native.length := mem_anchorOffsets.mpr (by omega)
  refine (admits_selectWindow hb hlen (mem_anchorOffsets.mpr hreal) ho).bind fun w hw => ?_
  refine .require_bind ?_ ?_
  · rw [LC.eval_sub, LC.eval_sub, hw.offset_eq, ha, LC.eval_const, LC.eval_const, mul_one,
      LC.eval_zero]
    push_cast
    ring
  have hp : w.packs.length = 2 := by
    have hpacks := congrArg List.length hw.packs_eq
    rw [List.length_map, List.length_map, length_packBytes, length_windowAt] at hpacks
    exact hpacks
  refine (Circuit.admits_assert hp).bind fun _ _ => ?_
  refine (AllocatedNum.admits_alloc ((bytesNat (windowAt buf (d + delta) 32) : ℕ) : F)).bind
    fun coord hc => .require_bind ?_ (Circuit.admits_pure.mpr trivial)
  rw [eval_recombined hw (by simp), LC.eval_const, mul_one, AllocatedNum.eval_lc, hc]

variable [ToRepr F]

/-- The region lies inside the table, and the table ends at the device key. -/
theorem ensures_closeTable (hb : Boolean.ReadsAll bits (bytesBits buf))
    (hlen : native.length = buf.length) (hbuf : buf.length < 2 ^ 64)
    {table nsOffset regionStart : LC F F} {t k start : ℕ} (ht : table.eval = (t : F))
    (hk : nsOffset.eval = (k : F)) (hs : regionStart.eval = (start : F)) (ht64 : t < 2 ^ 64)
    (hk64 : k < 2 ^ 64) (hs65 : start < 2 ^ 65) :
    (closeTable bits native shape landmarks table nsOffset regionStart).Ensures fun c =>
      t + (valueDigestsOpenKey.length + 1) ≤ k ∧
      (∃ n e d, 1 ≤ n ∧ n ≤ maxNamespaceEntries ∧ c.numEntries.val = (n : F) ∧
        EntriesAt buf start n e ∧ c.walk.here.eval = (e : F) ∧
        (∀ h ∈ c.walk.heads, HeadRead buf start (n - 1) h) ∧
        e ≤ d ∧ windowAt buf d deviceKeyInfo.length = deviceKeyInfo ∧
        c.endWindow.offset.eval = (d : F) ∧
        c.x.2.eval = ((d + deviceKeyXDelta : ℕ) : F) ∧
        c.y.2.eval = ((d + deviceKeyYDelta : ℕ) : F) ∧
        d + deviceKeyYDelta + maxAnchorWindow ≤ buf.length) := by
  unfold closeTable
  refine ensures_rejectUnless.bind fun _ _ => ?_
  refine Circuit.Ensures.bind (fun _ _ h => runs_enforceGe.mp h) fun _ hge => ?_
  refine (ensures_selectAnchor hb hlen hbuf).bind fun endWindow hend => ?_
  obtain ⟨d, hdlen, hdw, hds⟩ := hend
  refine ensures_rejectUnless.bind fun _ _ => ?_
  refine (ensures_walkEntries hb hlen hbuf hs65 hs).bind fun w hw => ?_
  obtain ⟨walk, numEntries⟩ := w
  obtain ⟨n, e, hn1, hn2, hval, hent, hhere, hheads⟩ := hw
  refine Circuit.ensures_lift.bind fun walkedNative _ => ensures_rejectUnless.bind fun _ _ => ?_
  refine Circuit.Ensures.bind (fun _ _ h => runs_enforceGe.mp h) fun _ hge' => ?_
  have hd64 : d < 2 ^ 64 := by omega
  refine (ensures_deviceCoord hb hlen hbuf hds.offset_eq hd64 (by decide)).bind fun x hx => ?_
  refine (ensures_deviceCoord hb hlen hbuf hds.offset_eq hd64 (by decide)).bind fun y hy => ?_
  refine Circuit.ensures_pure.mpr ⟨?_, n, e, d, hn1, hn2, hval, hent, hhere, hheads, ?_, hdw,
    hds.offset_eq, hx.2.1, hy.2.1, hy.1⟩
  · obtain ⟨m, hm, heq⟩ := hge
    have hopen : valueDigestsOpenKey.length + 1 = 14 := rfl
    rw [hk, LC.eval_add, ht, LC.eval_const, hopen, ← Nat.cast_add] at heq
    have := LargeChar.eq_add (F := F) (by omega) (by omega) (by omega) heq
    omega
  · obtain ⟨m, hm, heq⟩ := hge'
    rw [hds.offset_eq, hhere] at heq
    have hele := hent.le
    simp only [maxNamespaceEntries] at hn2
    have := LargeChar.eq_add (F := F) (by omega) (by omega) (by omega) heq
    omega

theorem ensures_bindDocType (hb : Boolean.ReadsAll bits (bytesBits buf))
    (hlen : native.length = buf.length) (hbuf : buf.length < 2 ^ 64) :
    (bindDocType bits native shape landmarks).Ensures fun a =>
      ∃ o L, o + maxAnchorWindow ≤ buf.length ∧ 1 ≤ L ∧ L ≤ anchorTextWindow ∧
        MaskedAt buf o L a := by
  unfold bindDocType
  refine Circuit.ensures_lift.bind fun _ _ => ensures_rejectUnless.bind fun _ _ => ?_
  refine Circuit.ensures_lift.bind fun _ _ => Circuit.ensures_lift.bind fun _ _ => ?_
  refine ensures_rejectUnless.bind fun _ _ => ?_
  exact (ensures_maskedTextAnchor hb hlen hbuf).mono fun a h => h.2

end Bind

end ZkCredVega
