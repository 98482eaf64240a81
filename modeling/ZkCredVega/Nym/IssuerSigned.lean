import ZkCredVega.Nym.Cbor

/-!
# Taking an IssuerSigned apart

`mdoc` of `statement.rs`. The issuer's signature and digests cover raw bytes, so what the parser
hands on are the bytes of the encoding itself, through the keyed lookups and two levels of
embedded CBOR.
-/

namespace ZkCredVega.Nym

open Circuits Cbor

/-! ## The parser -/

/-- Why an `IssuerSigned` is refused, with what the message is written from. -/
inductive MdocError where
  | long (len : ℕ)
  | cbor (e : ReadError)
  | input (e : InputError)
  | nameSpacesNotMap
  | nameSpaceNotArray
  | identifierNotUtf8
  | noItem (id : String)

/-- The parts of an `IssuerSigned`: the Sig_structure the issuer signed, its signature, and each
item's IssuerSignedItemBytes by element identifier. -/
structure Mdoc where
  sigStructure : List UInt8
  r : Bytes 32
  s : Bytes 32
  items : List (String × List UInt8)

/-- The largest `IssuerSigned` accepted, in bytes. -/
def maxIssuerSigned : ℕ := 64 * 1024

/-- One item of a name space: its element identifier and its own bytes. -/
def mdocItem (item : Item) : Except MdocError (String × List UInt8) := do
  let embedded ← item.embedded.mapError .cbor
  let id ← (embedded.get (.text "elementIdentifier")).mapError .cbor
  match fromUtf8 id.content with
  | some id => .ok (id, item.bytes)
  | none => .error .identifierNotUtf8

def nameSpaceItems (entries : Item) : Except MdocError (List (String × List UInt8)) :=
  if entries.major ≠ 4 then .error .nameSpaceNotArray else entries.children.mapM mdocItem

def mdoc (issuerSigned : List UInt8) : Except MdocError Mdoc :=
  if issuerSigned.length > maxIssuerSigned then .error (.long issuerSigned.length)
  else do
    let root ← (Item.read issuerSigned).mapError .cbor
    let auth ← (root.get (.text "issuerAuth")).mapError .cbor
    let protectedHeader ← (auth.elementAt 0).mapError .cbor
    let payload ← (auth.elementAt 2).mapError .cbor
    let signature ← (auth.elementAt 3).mapError .cbor
    let signature ← (fixed 64 signature.content "the issuer signature").mapError .input
    let nameSpaces ← (root.get (.text "nameSpaces")).mapError .cbor
    if nameSpaces.major ≠ 5 then .error .nameSpacesNotMap
    else do
      let items ← (Item.pairs nameSpaces.children).mapM fun entry => nameSpaceItems entry.2
      let r ← (fixed 32 (signature.val.take 32) "r").mapError .input
      let s ← (fixed 32 (signature.val.drop 32) "s").mapError .input
      .ok {
        sigStructure := (Value.array [.text "Signature1", .bytes protectedHeader.content, .bytes [],
          .bytes payload.content]).encode
        r, s, items := items.flatten }

/-- The first item named `id`. -/
def Mdoc.item (m : Mdoc) (id : String) : Except MdocError (List UInt8) :=
  match m.items.find? fun item => item.1 = id with
  | some item => .ok item.2
  | none => .error (.noItem id)

/-! ## The items of a value -/

namespace Cbor

/-- The value is within the reader's limits. -/
structure Value.Fits (v : Value) : Prop where
  within : v.Within (maxDepth + 1)
  short : v.encode.length ≤ maxInput

/-- The item that the bytes encode, when they do. -/
def Item.ofBytes (w : List UInt8) : Item := ((Item.readAt w 0).toOption).getD ⟨[], 0, 0, 0⟩

/-- The item that the reader finds where a value is encoded. -/
def Value.item (v : Value) : Item := Item.ofBytes v.encode

theorem Item.Denotes.ofBytes_eq {levels : ℕ} (hlevels : levels ≤ maxDepth + 1) {i : Item} (h : i.Denotes levels)
    (hlen : i.bytes.length < usizeBound) : Item.ofBytes i.bytes = i := by
  rw [Item.ofBytes, h.readAt_self hlevels hlen]
  rfl

namespace Value

variable {v : Value}

theorem item_eq {item : Item} {levels : ℕ} (hlevels : levels ≤ maxDepth + 1) (h : item.Denotes levels)
    (hbytes : item.bytes = v.encode) (hlen : v.encode.length < usizeBound) : v.item = item := by
  rw [Value.item, ← hbytes]
  exact h.ofBytes_eq hlevels (hbytes ▸ hlen)

theorem Fits.lt (h : v.Fits) : v.encode.length < usizeBound := Item.lt_usizeBound h.short

theorem Fits.denotes (h : v.Fits) : v.item.Denotes (maxDepth + 1) ∧ v.item.bytes = v.encode := by
  obtain ⟨item, hdenotes, hbytes⟩ := wellFormed_iff.mp (h.within.wellFormed h.lt)
  rw [item_eq (le_refl _) hdenotes hbytes h.lt]
  exact ⟨hdenotes, hbytes⟩

theorem Within.mono {m n : ℕ} (hle : m ≤ n) (h : v.Within m) : v.Within n := by
  induction h generalizing n with
  | encoded h => exact .encoded (h.mono hle)
  | array hall ih =>
    obtain ⟨n, rfl⟩ := Nat.exists_eq_add_one_of_ne_zero (Nat.pos_iff_ne_zero.mp (Nat.zero_lt_of_lt hle))
    exact .array fun i hi => ih i hi (Nat.le_of_succ_le_succ hle)
  | map hkeys hvalues ihkeys ihvalues =>
    obtain ⟨n, rfl⟩ := Nat.exists_eq_add_one_of_ne_zero (Nat.pos_iff_ne_zero.mp (Nat.zero_lt_of_lt hle))
    exact .map (fun e he => ihkeys e he (Nat.le_of_succ_le_succ hle)) fun e he => ihvalues e he (Nat.le_of_succ_le_succ hle)
  | tag hvalue ih =>
    obtain ⟨n, rfl⟩ := Nat.exists_eq_add_one_of_ne_zero (Nat.pos_iff_ne_zero.mp (Nat.zero_lt_of_lt hle))
    exact .tag (ih (Nat.le_of_succ_le_succ hle))
  | _ =>
    obtain ⟨n, rfl⟩ := Nat.exists_eq_add_one_of_ne_zero (Nat.pos_iff_ne_zero.mp (Nat.zero_lt_of_lt hle))
    constructor

theorem Fits.of_mem {values : List Value} (hwithin : ∀ v ∈ values, v.Within maxDepth)
    (hlen : (values.map encode).flatten.length ≤ maxInput) : ∀ v ∈ values, v.Fits := by
  intro v hv
  exact ⟨(hwithin v hv).mono (Nat.le_succ _), (length_encode_le hv).trans hlen⟩

theorem children_eq {i : Item} {values : List Value} (hmajor : 4 ≤ i.major ∧ i.major ≤ 6)
    (hcontent : i.content = (values.map encode).flatten) (hall : ∀ v ∈ values, v.Fits)
    (hlen : i.bytes.length < usizeBound) : i.children = values.map item := by
  have hwell : ∀ w ∈ values.map encode, WellFormed (maxDepth + 1) w := by
    intro w hw
    obtain ⟨v, hv, rfl⟩ := List.mem_map.mp hw
    exact (hall v hv).within.wellFormed (hall v hv).lt
  have hle : i.content.length ≤ i.bytes.length := by
    rw [Item.content, List.length_drop]
    omega
  rw [hcontent] at hle
  have hbytes := Item.bytes_childrenFrom hwell (hle.trans_lt hlen) hle
  rw [← hcontent] at hbytes
  have hself : ∀ child ∈ i.children, Item.ofBytes child.bytes = child := by
    intro child hchild
    rw [Item.children, if_pos hmajor] at hchild
    obtain ⟨tail, htail, hshort⟩ := Item.readAt_of_mem_childrenFrom hchild
    rw [List.length_drop] at hshort
    obtain ⟨hdenotes, hpre⟩ := (Item.readAt_ok_iff (by omega)).mp htail
    have hpreLen := hpre.length_le
    exact hdenotes.ofBytes_eq (le_refl _) (by omega)
  calc i.children
      = i.children.map (Item.ofBytes ∘ Item.bytes) := ((List.map_congr_left hself).trans (List.map_id _)).symm
    _ = (i.children.map Item.bytes).map Item.ofBytes := (List.map_map ..).symm
    _ = (values.map encode).map Item.ofBytes := by rw [Item.children, if_pos hmajor]; exact congrArg _ hbytes
    _ = values.map item := List.map_map ..

/-! ## What the accessors return -/

theorem content_ofHead (major : UInt8) (n : UInt64) (content : List UInt8) :
    (Item.ofHead major n content).content = content := List.drop_left

theorem item_bytes {content : List UInt8} (h : (Value.bytes content).Fits) :
    (Value.bytes content).item = Item.ofHead 2 (UInt64.ofNat content.length) content := by
  have hlen := h.lt
  rw [encode, List.length_append] at hlen
  refine item_eq (Nat.le_add_left 1 maxDepth) (denotes_bytes (by omega)) ?_ h.lt
  rw [encode]
  rfl

theorem item_text {content : String} (h : (Value.text content).Fits) :
    (Value.text content).item = Item.ofHead 3 (UInt64.ofNat (utf8 content).length) (utf8 content) := by
  have hlen := h.lt
  rw [encode, List.length_append] at hlen
  refine item_eq (Nat.le_add_left 1 maxDepth) (denotes_text (by omega)) ?_ h.lt
  rw [encode]
  rfl

theorem Fits.items {items : List Value} (h : (Value.array items).Fits) : ∀ v ∈ items, v.Fits := by
  have hlen := h.short
  rw [encode, List.length_append, encodeItems_eq] at hlen
  cases h.within with
  | array hall => exact Fits.of_mem hall (by omega)

theorem Fits.entries {entries : List (Value × Value)} (h : (Value.map entries).Fits) : ∀ v ∈ flat entries, v.Fits := by
  have hlen := h.short
  rw [encode, List.length_append, encodeEntries_eq] at hlen
  cases h.within with
  | map hkeys hvalues =>
    refine Fits.of_mem (fun v hv => ?_) (by omega)
    obtain ⟨e, he, rfl | rfl⟩ := mem_flat hv
    · exact hkeys e he
    · exact hvalues e he

theorem Fits.tagged {number : UInt64} {value : Value} (h : (Value.tag number value).Fits) : value.Fits := by
  have hlen := h.short
  rw [encode, List.length_append] at hlen
  cases h.within with
  | tag hvalue => exact ⟨hvalue.mono (Nat.le_succ _), by omega⟩

theorem Fits.item_eq_ofHead (h : v.Fits) {major : UInt8} {n : UInt64} {content : List UInt8}
    (hencode : v.encode = head major n ++ content) (hitem : (Item.ofHead major n content).Denotes (maxDepth + 1)) :
    v.item = Item.ofHead major n content := item_eq (le_refl _) hitem hencode.symm h.lt

theorem item_array {items : List Value} (h : (Value.array items).Fits) :
    (Value.array items).item = Item.ofHead 4 (UInt64.ofNat items.length) (encodeItems items) := by
  have hlen := h.lt
  rw [encode, List.length_append] at hlen
  have hfits := h.items
  cases h.within with
  | array hall =>
    refine h.item_eq_ofHead (by rw [encode]) (denotes_array (fun v hv => ?_) (by omega))
    exact (hall v hv).wellFormed (hfits v hv).lt

theorem item_map {entries : List (Value × Value)} (h : (Value.map entries).Fits) :
    (Value.map entries).item = Item.ofHead 5 (UInt64.ofNat entries.length) (encodeEntries entries) := by
  have hlen := h.lt
  rw [encode, List.length_append] at hlen
  have hfits := h.entries
  cases h.within with
  | map hkeys hvalues =>
    refine h.item_eq_ofHead (by rw [encode]) (denotes_map (fun v hv => ?_) (by omega))
    have hshort := (hfits v hv).lt
    obtain ⟨e, he, rfl | rfl⟩ := mem_flat hv
    · exact (hkeys e he).wellFormed hshort
    · exact (hvalues e he).wellFormed hshort

theorem item_tag {number : UInt64} {value : Value} (h : (Value.tag number value).Fits) :
    (Value.tag number value).item = Item.ofHead 6 number value.encode := by
  have hfits := h.tagged
  cases h.within with
  | tag hvalue => exact h.item_eq_ofHead (by rw [encode]) (denotes_tag (hvalue.wellFormed hfits.lt))

theorem Fits.short_item (h : v.Fits) : v.item.bytes.length < usizeBound := by
  rw [h.denotes.2]
  exact h.lt

theorem children_ofHead {major : UInt8} {n : UInt64} {values : List Value} (hmajor : 4 ≤ major ∧ major ≤ 6)
    (hall : ∀ v ∈ values, v.Fits) (hlen : (Item.ofHead major n (values.map encode).flatten).bytes.length < usizeBound) :
    (Item.ofHead major n (values.map encode).flatten).children = values.map item :=
  children_eq hmajor (content_ofHead ..) hall hlen

theorem children_array {items : List Value} (h : (Value.array items).Fits) :
    (Value.array items).item.children = items.map item := by
  have hshort := h.short_item
  rw [item_array h, encodeItems_eq] at hshort ⊢
  exact children_ofHead (by decide) h.items hshort

theorem children_map {entries : List (Value × Value)} (h : (Value.map entries).Fits) :
    (Value.map entries).item.children = (flat entries).map item := by
  have hshort := h.short_item
  rw [item_map h, encodeEntries_eq] at hshort ⊢
  exact children_ofHead (by decide) h.entries hshort

theorem children_tag {number : UInt64} {value : Value} (h : (Value.tag number value).Fits) :
    (Value.tag number value).item.children = [value.item] := by
  have hshort := h.short_item
  have hone : ∀ v ∈ [value], v.Fits := by simpa using h.tagged
  have hflatten : value.encode = ([value].map encode).flatten := by simp
  rw [item_tag h, hflatten] at hshort ⊢
  exact children_ofHead (by decide) hone hshort

theorem elementAt_array {items : List Value} (h : (Value.array items).Fits) {i : ℕ} (hi : items[i]? = some v) :
    (Value.array items).item.elementAt i = .ok v.item := by
  have hmajor : ¬(Value.array items).item.major ≠ 4 := by
    rw [item_array h]
    exact not_not.mpr rfl
  rw [Item.elementAt, if_neg hmajor, children_array h, List.getElem?_map, hi]
  rfl

theorem pairs_flat (entries : List (Value × Value)) :
    Item.pairs ((flat entries).map item) = entries.map fun e => (e.1.item, e.2.item) := by
  induction entries with
  | nil => rfl
  | cons e entries ih =>
    show (e.1.item, e.2.item) :: Item.pairs ((flat entries).map item) = _
    rw [ih]
    rfl

/-- The map has the value, and no other, under the text key. -/
structure HasEntry (entries : List (Value × Value)) (key : String) (value : Value) : Prop where
  mem : (.text key, value) ∈ entries
  unique : ∀ e ∈ entries, e.1.encode = (Value.text key).encode → e.2 = value

theorem get_map {entries : List (Value × Value)} (h : (Value.map entries).Fits) {key : String} {value : Value}
    (hentry : HasEntry entries key value) : (Value.map entries).item.get (.text key) = .ok value.item := by
  have hmajor : ¬(Value.map entries).item.major ≠ 5 := by
    rw [item_map h]
    exact not_not.mpr rfl
  have hkey : ∀ e ∈ entries, e.1.item.bytes = e.1.encode := by
    intro e he
    exact (h.entries e.1 (List.mem_flatMap.mpr ⟨e, he, by simp⟩)).denotes.2
  rw [Item.get, if_neg hmajor, children_map h, pairs_flat]
  cases hfind : (entries.map fun e => (e.1.item, e.2.item)).find? fun entry => entry.1.bytes = (Value.text key).encode with
  | none =>
    have hnone := List.find?_eq_none.mp hfind _ (List.mem_map_of_mem hentry.mem)
    rw [hkey _ hentry.mem] at hnone
    simp at hnone
  | some entry =>
    obtain ⟨e, he, rfl⟩ := List.mem_map.mp (List.mem_of_find?_eq_some hfind)
    have hbytes : e.1.item.bytes = (Value.text key).encode := by simpa using List.find?_some hfind
    rw [hkey e he] at hbytes
    show Except.ok e.2.item = _
    rw [hentry.unique e he hbytes]

theorem embedded_tag {content : List UInt8} (h : (Value.tag 24 (.bytes content)).Fits) :
    (Value.tag 24 (.bytes content)).item.embedded = Item.read content := by
  have hmajor : ¬((Value.tag 24 (.bytes content)).item.major ≠ 6 ∨
      (Value.tag 24 (.bytes content)).item.argument ≠ 24) := by
    rw [item_tag h]
    exact not_or.mpr ⟨not_not.mpr rfl, not_not.mpr rfl⟩
  rw [Item.embedded, if_neg hmajor, children_tag h, item_bytes h.tagged]
  show (if (2 : UInt8) ≠ 2 then _ else Item.read (Item.ofHead 2 _ content).content) = _
  rw [if_neg (not_not.mpr rfl), content_ofHead]

theorem Fits.read_eq (h : v.Fits) : Item.read v.encode = .ok v.item := by
  obtain ⟨hdenotes, hbytes⟩ := h.denotes
  exact (Item.read_ok_iff h.short).mpr ⟨hdenotes, hbytes ▸ List.prefix_rfl⟩

end Value

end Cbor

/-! ## The round trip -/

/-- An `IssuerSignedItem` as a map with a text `elementIdentifier`. -/
structure SignedItem where
  fields : List (Value × Value)
  identifier : String
  identified : Value.HasEntry fields "elementIdentifier" (.text identifier)

/-- The item's IssuerSignedItemBytes. -/
def SignedItem.value (i : SignedItem) : Value := .tag 24 (.bytes (Value.map i.fields).encode)

/-- An `IssuerSigned` as a map, with its two keys in any order and any others beside them. -/
structure IssuerSigned where
  protectedHeader : List UInt8
  unprotected : List (Value × Value)
  payload : List UInt8
  signature : Bytes 64
  nameSpaces : List (String × List SignedItem)
  entries : List (Value × Value)
  issuerAuth : Value.HasEntry entries "issuerAuth"
    (.array [.bytes protectedHeader, .map unprotected, .bytes payload, .bytes signature.val])
  nameSpacesEntry : Value.HasEntry entries "nameSpaces"
    (.map (nameSpaces.map fun ns => (.text ns.1, .array (ns.2.map SignedItem.value))))

namespace IssuerSigned

def value (c : IssuerSigned) : Value := .map c.entries

def items (c : IssuerSigned) : List SignedItem := c.nameSpaces.flatMap Prod.snd

/-- The encoding is within the reader's limits, and so is that of the map in every item. -/
structure Fits (c : IssuerSigned) : Prop where
  short : c.value.encode.length ≤ maxIssuerSigned
  within : c.value.Within (maxDepth + 1)
  items : ∀ i ∈ c.items, (Value.map i.fields).Within (maxDepth + 1)

theorem Fits.value_fits {c : IssuerSigned} (h : c.Fits) : c.value.Fits :=
  ⟨h.within, h.short.trans (by decide)⟩

end IssuerSigned

theorem mdocItem_value {i : SignedItem} (h : i.value.Fits) (hfields : (Value.map i.fields).Within (maxDepth + 1)) :
    mdocItem i.value.item = .ok (i.identifier, i.value.encode) := by
  have hlen : (Value.map i.fields).encode.length ≤ i.value.encode.length := by
    have hbytes : ∀ content : List UInt8, (Value.tag 24 (.bytes content)).encode =
        head 6 24 ++ (head 2 (UInt64.ofNat content.length) ++ content) := by
      intro content
      rw [Value.encode, Value.encode]
    rw [SignedItem.value, hbytes, List.length_append, List.length_append]
    omega
  have hmap : (Value.map i.fields).Fits := ⟨hfields, hlen.trans h.short⟩
  have htext : (Value.text i.identifier).Fits :=
    hmap.entries _ (List.mem_flatMap.mpr ⟨_, i.identified.mem, by simp⟩)
  have hembedded : i.value.item.embedded = .ok (Value.map i.fields).item :=
    (Value.embedded_tag h).trans hmap.read_eq
  rw [mdocItem, hembedded]
  show (do
    let id ← ((Value.map i.fields).item.get (.text "elementIdentifier")).mapError MdocError.cbor
    match fromUtf8 id.content with
    | some id => Except.ok (id, i.value.item.bytes)
    | none => Except.error .identifierNotUtf8) = _
  rw [Value.get_map hmap i.identified, Value.item_text htext]
  show (match fromUtf8 (Item.ofHead 3 _ (utf8 i.identifier)).content with
    | some id => Except.ok (id, i.value.item.bytes)
    | none => Except.error MdocError.identifierNotUtf8) = _
  rw [Value.content_ofHead, fromUtf8_utf8, h.denotes.2]

theorem nameSpaceItems_array {items : List SignedItem} (h : (Value.array (items.map SignedItem.value)).Fits)
    (hfields : ∀ i ∈ items, (Value.map i.fields).Within (maxDepth + 1)) :
    nameSpaceItems (Value.array (items.map SignedItem.value)).item =
      .ok (items.map fun i => (i.identifier, i.value.encode)) := by
  have hmajor : ¬(Value.array (items.map SignedItem.value)).item.major ≠ 4 := by
    rw [Value.item_array h]
    exact not_not.mpr rfl
  rw [nameSpaceItems, if_neg hmajor, Value.children_array h, Circuit.mapM_eq_ok_iff, List.map_map,
    List.forall₂_map_left_iff, List.forall₂_map_right_iff, List.forall₂_same]
  intro i hi
  exact mdocItem_value (h.items _ (List.mem_map_of_mem hi)) (hfields i hi)

theorem nameSpaces_map {nameSpaces : List (String × List SignedItem)}
    (h : (Value.map (nameSpaces.map fun ns => (.text ns.1, .array (ns.2.map SignedItem.value)))).Fits)
    (hfields : ∀ i ∈ nameSpaces.flatMap Prod.snd, (Value.map i.fields).Within (maxDepth + 1)) :
    (Item.pairs (Value.map (nameSpaces.map fun ns => (.text ns.1, .array (ns.2.map SignedItem.value)))).item.children).mapM
        (fun entry => nameSpaceItems entry.2) =
      .ok (nameSpaces.map fun ns => ns.2.map fun i => (i.identifier, i.value.encode)) := by
  rw [Value.children_map h, Value.pairs_flat, Circuit.mapM_eq_ok_iff, List.map_map, List.forall₂_map_left_iff,
    List.forall₂_map_right_iff, List.forall₂_same]
  intro ns hns
  have hmem := List.mem_map_of_mem (f := fun ns : String × List SignedItem =>
    (Value.text ns.1, Value.array (ns.2.map SignedItem.value))) hns
  exact nameSpaceItems_array (h.entries _ (List.mem_flatMap.mpr ⟨_, hmem, by simp⟩)) fun i hi =>
    hfields i (List.mem_flatMap.mpr ⟨ns, hns, hi⟩)

theorem fixed_ok {n : ℕ} {bytes : List UInt8} (what : String) (h : bytes.length = n) :
    fixed n bytes what = .ok ⟨bytes, h⟩ := dif_pos h

theorem mapError_ok {ε δ α : Type} {x : Except ε α} {a : α} (h : x = .ok a) (f : ε → δ) : x.mapError f = .ok a := by
  rw [h]
  rfl

theorem mdoc_eq {c : IssuerSigned} (h : c.Fits) : ∃ r s, r.val = c.signature.val.take 32 ∧
    s.val = c.signature.val.drop 32 ∧ mdoc c.value.encode = .ok {
      sigStructure := (Value.array [.text "Signature1", .bytes c.protectedHeader, .bytes [], .bytes c.payload]).encode
      r, s, items := c.items.map fun i => (i.identifier, i.value.encode) } := by
  have hroot := h.value_fits
  have hfits : ∀ {key : String} {value : Value}, Value.HasEntry c.entries key value → value.Fits := fun hentry =>
    hroot.entries _ (List.mem_flatMap.mpr ⟨_, hentry.mem, by simp⟩)
  have hauth := hfits c.issuerAuth
  have hnames := hfits c.nameSpacesEntry
  have hcontent : ∀ {content : List UInt8}, (Value.bytes content).Fits → (Value.bytes content).item.content = content := by
    intro content hbytes
    rw [Value.item_bytes hbytes, Value.content_ofHead]
  have hprotected := hcontent (hauth.items (.bytes c.protectedHeader) (by simp))
  have hpayload := hcontent (hauth.items (.bytes c.payload) (by simp))
  have hsignature := hcontent (hauth.items (.bytes c.signature.val) (by simp))
  have hsigLen := c.signature.property
  have hr : (c.signature.val.take 32).length = 32 := by
    rw [List.length_take, hsigLen]
    rfl
  have hs : (c.signature.val.drop 32).length = 32 := by rw [List.length_drop, hsigLen]
  have hmajor : ¬(Value.map (c.nameSpaces.map fun ns =>
      (.text ns.1, .array (ns.2.map SignedItem.value)))).item.major ≠ 5 := by
    rw [Value.item_map hnames]
    exact not_not.mpr rfl
  refine ⟨⟨_, hr⟩, ⟨_, hs⟩, rfl, rfl, ?_⟩
  rw [mdoc, if_neg (not_lt.mpr h.short)]
  refine bind_eq_ok_iff.mpr ⟨_, mapError_ok hroot.read_eq _, ?_⟩
  refine bind_eq_ok_iff.mpr ⟨_, mapError_ok (Value.get_map hroot c.issuerAuth) _, ?_⟩
  refine bind_eq_ok_iff.mpr ⟨_, mapError_ok (Value.elementAt_array hauth rfl) _, ?_⟩
  refine bind_eq_ok_iff.mpr ⟨_, mapError_ok (Value.elementAt_array hauth rfl) _, ?_⟩
  refine bind_eq_ok_iff.mpr ⟨_, mapError_ok (Value.elementAt_array hauth rfl) _, ?_⟩
  rw [hsignature, hprotected, hpayload]
  refine bind_eq_ok_iff.mpr ⟨_, mapError_ok (fixed_ok _ hsigLen) _, ?_⟩
  refine bind_eq_ok_iff.mpr ⟨_, mapError_ok (Value.get_map hroot c.nameSpacesEntry) _, ?_⟩
  rw [if_neg hmajor]
  refine bind_eq_ok_iff.mpr ⟨_, nameSpaces_map hnames h.items, ?_⟩
  refine bind_eq_ok_iff.mpr ⟨_, mapError_ok (fixed_ok _ hr) _, ?_⟩
  refine bind_eq_ok_iff.mpr ⟨_, mapError_ok (fixed_ok _ hs) _, ?_⟩
  rw [IssuerSigned.items, List.map_flatMap, List.flatMap_def]

/-- The parts of an encoded `IssuerSigned` are the parts it was built from, and an item is found by the
first identifier that is its own. -/
theorem mdoc_encode (c : IssuerSigned) (h : c.Fits) : ∃ m, mdoc c.value.encode = .ok m ∧
    m.sigStructure = (Value.array [.text "Signature1", .bytes c.protectedHeader, .bytes [], .bytes c.payload]).encode ∧
    m.r.val = c.signature.val.take 32 ∧ m.s.val = c.signature.val.drop 32 ∧
    m.items = c.items.map (fun i => (i.identifier, i.value.encode)) ∧
    (∀ id i, c.items.find? (fun i => i.identifier = id) = some i → m.item id = .ok i.value.encode) ∧
    ∀ id, (∀ i ∈ c.items, i.identifier ≠ id) → m.item id = .error (.noItem id) := by
  obtain ⟨r, s, hr, hs, hmdoc⟩ := mdoc_eq h
  have hfind : ∀ id, (c.items.map fun i => (i.identifier, i.value.encode)).find? (fun item => item.1 = id) =
      (c.items.find? fun i => i.identifier = id).map fun i => (i.identifier, i.value.encode) := by
    intro id
    rw [List.find?_map]
    rfl
  refine ⟨_, hmdoc, rfl, hr, hs, rfl, fun id i hi => ?_, fun id hid => ?_⟩
  · rw [Mdoc.item, hfind, hi]
    rfl
  · have hnone : c.items.find? (fun i => i.identifier = id) = none := by
      rw [List.find?_eq_none]
      intro i hi
      rw [decide_eq_true_eq]
      exact hid i hi
    rw [Mdoc.item, hfind, hnone]
    rfl

/-! ## A credential of two name spaces -/

/-- A key that the entries around it do not have. -/
theorem Cbor.Value.hasEntry_between {before after : List (Value × Value)} {key : String} {value : Value}
    (h : ∀ k ∈ (before ++ after).map fun e => e.1.encode, k ≠ (Value.text key).encode) :
    Value.HasEntry (before ++ (.text key, value) :: after) key value where
  mem := List.mem_append_right _ List.mem_cons_self
  unique := by
    intro e he hkey
    rw [List.mem_append, List.mem_cons, or_left_comm, ← List.mem_append] at he
    rcases he with rfl | he
    · rfl
    · exact absurd hkey (h _ (List.mem_map_of_mem he))

def issuedItem (digestId : UInt64) (random : List UInt8) (identifier : String) (value : Value) : SignedItem where
  fields := [(.text "digestID", .unsigned digestId), (.text "random", .bytes random)] ++
    (.text "elementIdentifier", .text identifier) :: [(.text "elementValue", value)]
  identifier := identifier
  identified := Value.hasEntry_between fun k hk => by
    simp only [List.cons_append, List.nil_append, List.map_cons, List.map_nil, List.mem_cons, List.not_mem_nil,
      or_false] at hk
    rcases hk with rfl | rfl | rfl <;> decide

def familyNameItem : SignedItem := issuedItem 0 [0x11, 0x12, 0x13, 0x14] "family_name" (.text "Doe")

def birthDateItem : SignedItem := issuedItem 7 [0x21, 0x22, 0x23, 0x24] "birth_date" (.tag 1004 (.text "1990-01-01"))

def otherNameItem : SignedItem := issuedItem 3 [0x31, 0x32, 0x33, 0x34] "family_name" (.text "Roe")

def portraitItem : SignedItem := issuedItem 300 [0x41, 0x42, 0x43, 0x44] "portrait" (.bytes [0xff, 0xd8, 0xff])

def issuedNameSpaces : List (String × List SignedItem) :=
  [("org.iso.18013.5.1", [familyNameItem, birthDateItem]), ("org.iso.18013.5.1.aamva", [otherNameItem, portraitItem])]

def issuedSignature : Bytes 64 := ⟨(List.range 64).map fun i => UInt8.ofNat (i + 1), rfl⟩

def issuedNameSpacesValue : Value :=
  .map (issuedNameSpaces.map fun ns => (.text ns.1, .array (ns.2.map SignedItem.value)))

def issuedAuth : Value := .array [.bytes [0xa1, 0x01, 0x26], .map [(.unsigned 33, .bytes [0x30])], .bytes [0x01, 0x02],
  .bytes issuedSignature.val]

/-- The issuer's signature ahead of the name spaces, and a third key between them. -/
def issuedCredential : IssuerSigned where
  protectedHeader := [0xa1, 0x01, 0x26]
  unprotected := [(.unsigned 33, .bytes [0x30])]
  payload := [0x01, 0x02]
  signature := issuedSignature
  nameSpaces := issuedNameSpaces
  entries := [(.text "issuerAuth", issuedAuth), (.text "version", .text "1.0"), (.text "nameSpaces", issuedNameSpacesValue)]
  issuerAuth := by
    refine @Value.hasEntry_between [] _ _ _ fun k hk => ?_
    simp only [List.nil_append, List.map_cons, List.map_nil, List.mem_cons, List.not_mem_nil, or_false] at hk
    rcases hk with rfl | rfl <;> decide
  nameSpacesEntry := by
    refine @Value.hasEntry_between [_, _] [] _ _ fun k hk => ?_
    simp only [List.append_nil, List.map_cons, List.map_nil, List.mem_cons, List.not_mem_nil, or_false] at hk
    rcases hk with rfl | rfl <;> decide

/-- An item's map is as deep as its value. -/
theorem issuedItem_within {value : Value} {levels : ℕ} (h : value.Within (levels + 1)) (digestId : UInt64)
    (random : List UInt8) (identifier : String) :
    (Value.map (issuedItem digestId random identifier value).fields).Within (levels + 2) := by
  refine .map (fun e he => ?_) fun e he => ?_ <;>
    simp only [issuedItem, List.cons_append, List.nil_append, List.mem_cons, List.not_mem_nil, or_false] at he <;>
    rcases he with rfl | rfl | rfl | rfl
  all_goals first | exact .text | exact .unsigned | exact .bytes | exact h

theorem issuedNameSpacesValue_within : issuedNameSpacesValue.Within maxDepth := by
  refine .map (fun e he => ?_) fun e he => ?_ <;> obtain ⟨ns, -, rfl⟩ := List.mem_map.mp he
  · exact .text
  · refine .array fun v hv => ?_
    obtain ⟨i, -, rfl⟩ := List.mem_map.mp hv
    exact .tag .bytes

theorem issuedAuth_within : issuedAuth.Within maxDepth := by
  refine .array fun v hv => ?_
  simp only [List.mem_cons, List.not_mem_nil, or_false] at hv
  rcases hv with rfl | rfl | rfl | rfl
  · exact .bytes
  · exact .map (by simpa using .unsigned) (by simpa using .bytes)
  · exact .bytes
  · exact .bytes

theorem issuedCredential_fits : issuedCredential.Fits where
  short := by decide +kernel
  within := by
    refine .map (fun e he => ?_) fun e he => ?_ <;>
      simp only [issuedCredential, List.mem_cons, List.not_mem_nil, or_false] at he <;> rcases he with rfl | rfl | rfl
    · exact .text
    · exact .text
    · exact .text
    · exact issuedAuth_within
    · exact .text
    · exact issuedNameSpacesValue_within
  items := by
    have hitems : issuedCredential.items = [familyNameItem, birthDateItem, otherNameItem, portraitItem] := rfl
    rw [hitems]
    intro i hi
    simp only [List.mem_cons, List.not_mem_nil, or_false] at hi
    rcases hi with rfl | rfl | rfl | rfl
    · exact issuedItem_within .text _ _ _
    · exact issuedItem_within (.tag .text) _ _ _
    · exact issuedItem_within .text _ _ _
    · exact issuedItem_within .bytes _ _ _

/-- The first of the two family names is found. -/
theorem mdoc_encode_issued : ∃ m, mdoc issuedCredential.value.encode = .ok m ∧
    m.items.map Prod.fst = ["family_name", "birth_date", "family_name", "portrait"] ∧
    m.item "family_name" = .ok familyNameItem.value.encode ∧ m.item "birth_date" = .ok birthDateItem.value.encode ∧
    m.item "portrait" = .ok portraitItem.value.encode ∧ m.item "ssc" = .error (.noItem "ssc") := by
  obtain ⟨m, hm, -, -, -, hitems, hfound, hnone⟩ := mdoc_encode issuedCredential issuedCredential_fits
  refine ⟨m, hm, ?_, hfound _ familyNameItem rfl, hfound _ birthDateItem rfl, hfound _ portraitItem rfl, hnone _ ?_⟩
  · rw [hitems]
    rfl
  · have hmembers : issuedCredential.items = [familyNameItem, birthDateItem, otherNameItem, portraitItem] := rfl
    rw [hmembers]
    intro i hi
    simp only [List.mem_cons, List.not_mem_nil, or_false] at hi
    rcases hi with rfl | rfl | rfl | rfl <;> decide

end ZkCredVega.Nym
