import ZkCredVega.Nym.Statement

/-!
# The CBOR encoder and reader

`cbor.rs`. The reader keeps each item's own encoding, since a signature or a digest covers those
bytes. It accepts exactly the definite-length items of RFC 8949 within its limits, and a second
pass over an accepted item finds the same items in it.
-/

namespace ZkCredVega.Nym.Cbor

open Circuits

/-! ## The encoder -/

/-- A CBOR data item. `negative n` is the integer `-1 - n`; `encoded` is written as it is. -/
inductive Value where
  | unsigned (n : UInt64)
  | negative (n : UInt64)
  | bytes (content : List UInt8)
  | text (content : String)
  | array (items : List Value)
  | map (entries : List (Value × Value))
  | tag (number : UInt64) (value : Value)
  | bool (b : Bool)
  | encoded (bytes : List UInt8)

/-- The initial byte of a data item, and the argument in its shortest form. -/
def head (major : UInt8) (n : UInt64) : List UInt8 :=
  if n.toNat < 24 then [major <<< 5 ||| n.toUInt8]
  else if n.toNat ≤ 0xff then (major <<< 5 ||| 24) :: beBytes 1 n.toNat
  else if n.toNat ≤ 0xffff then (major <<< 5 ||| 25) :: beBytes 2 n.toNat
  else if n.toNat ≤ 0xffffffff then (major <<< 5 ||| 26) :: beBytes 4 n.toNat
  else (major <<< 5 ||| 27) :: beBytes 8 n.toNat

namespace Value

mutual

def encode : Value → List UInt8
  | .unsigned n => head 0 n
  | .negative n => head 1 n
  | .bytes content => head 2 (UInt64.ofNat content.length) ++ content
  | .text content => head 3 (UInt64.ofNat (utf8 content).length) ++ utf8 content
  | .array items => head 4 (UInt64.ofNat items.length) ++ encodeItems items
  | .map entries => head 5 (UInt64.ofNat entries.length) ++ encodeEntries entries
  | .tag number value => head 6 number ++ encode value
  | .bool b => [if b then 0xf5 else 0xf4]
  | .encoded b => b

def encodeItems : List Value → List UInt8
  | [] => []
  | item :: items => encode item ++ encodeItems items

def encodeEntries : List (Value × Value) → List UInt8
  | [] => []
  | (key, value) :: entries => encode key ++ encode value ++ encodeEntries entries

end

theorem encodeItems_eq (items : List Value) : encodeItems items = (items.map encode).flatten := by
  induction items with
  | nil => simp [encodeItems]
  | cons item items ih => simp [encodeItems, ih]

/-- The items of a map's entries in turn. -/
def flat (entries : List (Value × Value)) : List Value := entries.flatMap fun e => [e.1, e.2]

theorem encodeEntries_eq (entries : List (Value × Value)) :
    encodeEntries entries = ((flat entries).map encode).flatten := by
  induction entries with
  | nil => simp [encodeEntries, flat]
  | cons e entries ih =>
    obtain ⟨key, value⟩ := e
    simpa [encodeEntries, flat] using ih

end Value

/-! ## The reader -/

/-- The deepest nesting the reader follows. -/
def maxDepth : ℕ := 32

def maxInput : ℕ := 1 <<< 20

/-- Why the reader refuses, one case for each message, with what the message is written from. -/
inductive ReadError where
  | inputLong (len : ℕ)
  | nestedDeeper
  | noItem
  | headCutShort
  | noDefiniteLength (initial : UInt8)
  | longSimple
  | stringLong
  | mapLong
  | itemsLong
  | itemCutShort
  | notUtf8
  | notNested
  | notArray
  | noElement (i : ℕ)
  | notMap
  | noKey (key : List UInt8)
  | notTag24
  | emptyTag
  | notByteString
deriving DecidableEq

structure Item where
  /-- The item's encoding, from its initial byte to its end. -/
  bytes : List UInt8
  major : UInt8
  argument : ℕ
  /-- Where the content starts, after the head. -/
  contentStart : ℕ
deriving DecidableEq

structure Head where
  major : UInt8
  info : UInt8
  argument : ℕ
  content : ℕ
deriving DecidableEq

/-- The initial byte and the argument after it. -/
def readHead : List UInt8 → Except ReadError Head
  | [] => .error .noItem
  | initial :: rest =>
    let major := initial >>> 5
    let info := initial &&& 31
    if info < 24 then .ok ⟨major, info, info.toNat, 1⟩
    else if info ≤ 27 then
      let n := 1 <<< (info.toNat - 24)
      if n ≤ rest.length then
        .ok ⟨major, info, (rest.take n).foldl (fun v b => v <<< 8 ||| b.toNat) 0, 1 + n⟩
      else .error .headCutShort
    else .error (.noDefiniteLength initial)

/-- How many items an array, a map or a tag declares. -/
def declared (major : UInt8) (argument : ℕ) : Except ReadError ℕ :=
  if major = 4 then .ok argument
  else if major = 5 then if argument * 2 < 2 ^ 64 then .ok (argument * 2) else .error .mapLong
  else .ok 1

/-- Reads `k` items from position `stop` on, and returns where they end. -/
def readItems (read : List UInt8 → Except ReadError Item) (bytes : List UInt8) : ℕ → ℕ → Except ReadError ℕ
  | 0, stop => .ok stop
  | k + 1, stop =>
    if stop ≤ bytes.length then do
      let item ← read (bytes.drop stop)
      readItems read bytes k (stop + item.bytes.length)
    else .error .itemCutShort

/-- Where the item ends, by its major type; `read` reads the items in it. -/
def itemEnd (read : List UInt8 → Except ReadError Item) (bytes : List UInt8) (h : Head) : Except ReadError ℕ :=
  if h.major = 2 ∨ h.major = 3 then
    if h.content + h.argument < usizeBound then .ok (h.content + h.argument) else .error .stringLong
  else if 4 ≤ h.major ∧ h.major ≤ 6 then do
    let k ← declared h.major h.argument
    -- Every item takes at least one byte, so a count past the rest of the input cannot be met.
    if k > bytes.length - h.content then .error .itemsLong else readItems read bytes k h.content
  else .ok h.content

/-- `str::from_utf8` accepts the bytes. -/
def validUtf8 (bytes : List UInt8) : Bool := (fromUtf8 bytes).isSome

namespace Item

/-- The data item at the start of the bytes, of at most so many levels. -/
def readLevels : ℕ → List UInt8 → Except ReadError Item
  | 0, _ => .error .nestedDeeper
  | levels + 1, bytes => do
    let h ← readHead bytes
    if h.major = 7 ∧ h.info = 24 ∧ bytes[1]?.any (· < 32) then .error .longSimple
    else do
      let stop ← itemEnd (readLevels levels) bytes h
      if stop ≤ bytes.length then
        if h.major = 3 ∧ ¬validUtf8 ((bytes.take stop).drop h.content) then .error .notUtf8
        else .ok ⟨bytes.take stop, h.major, h.argument, h.content⟩
      else .error .itemCutShort

/-- `read_at`: an item at depth `depth` of the input, of as many levels as are left to `maxDepth`. -/
def readAt (bytes : List UInt8) (depth : ℕ) : Except ReadError Item := readLevels (maxDepth + 1 - depth) bytes

def read (bytes : List UInt8) : Except ReadError Item :=
  if bytes.length > maxInput then .error (.inputLong bytes.length) else readAt bytes 0

/-- The content of a byte string or a text string. -/
def content (item : Item) : List UInt8 := item.bytes.drop item.contentStart

/-- The items from a position on, until the bytes end or one cannot be read. Every round takes at
least one byte, so the number of rounds is at most that of the bytes. -/
def childrenFrom : ℕ → List UInt8 → List Item
  | 0, _ => []
  | rounds + 1, bytes =>
    if bytes = [] then []
    else match readAt bytes 0 with
      | .ok child => child :: childrenFrom rounds (bytes.drop child.bytes.length)
      | .error _ => []

/-- The elements of an array, the keys and values of a map in turn, or the item a tag wraps. -/
def children (item : Item) : List Item :=
  if 4 ≤ item.major ∧ item.major ≤ 6 then
    childrenFrom item.bytes.length (item.bytes.drop item.contentStart)
  else []

def tryChildren (item : Item) : Except ReadError (List Item) :=
  if 4 ≤ item.major ∧ item.major ≤ 6 then .ok item.children else .error .notNested

/-- `at`: element `i` of an array. -/
def elementAt (item : Item) (i : ℕ) : Except ReadError Item :=
  if item.major ≠ 4 then .error .notArray
  else match item.children[i]? with
    | some child => .ok child
    | none => .error (.noElement i)

/-- `as_chunks::<2>`: the items two by two, without a last one alone. -/
def pairs {α : Type} : List α → List (α × α)
  | key :: value :: rest => (key, value) :: pairs rest
  | _ => []

/-- The value of the map entry whose key encodes as `key` does. -/
def get (item : Item) (key : Value) : Except ReadError Item :=
  if item.major ≠ 5 then .error .notMap
  else match (pairs item.children).find? fun entry => entry.1.bytes = key.encode with
    | some entry => .ok entry.2
    | none => .error (.noKey key.encode)

/-- The data item that a byte string under tag 24 encodes. -/
def embedded (item : Item) : Except ReadError Item :=
  if item.major ≠ 6 ∨ item.argument ≠ 24 then .error .notTag24
  else match item.children.head? with
    | none => .error .emptyTag
    | some inner => if inner.major ≠ 2 then .error .notByteString else read inner.content

end Item

/-! ## The grammar -/

/-- RFC 8949, section 3: an initial byte with a major type and five bits of additional information,
which are the argument or say in how many bytes it follows. -/
inductive IsHead (major info : UInt8) : ℕ → List UInt8 → Prop
  | immediate : major < 8 → info < 24 → IsHead major info info.toNat [major <<< 5 ||| info]
  | following {argument : List UInt8} : major < 8 → 24 ≤ info → info ≤ 27 →
      argument.length = 2 ^ (info.toNat - 24) →
      IsHead major info (bytesNat argument) ((major <<< 5 ||| info) :: argument)

/-- How many items the head of an array, a map or a tag announces. -/
def itemCount (major : UInt8) (argument : ℕ) : ℕ :=
  if major = 4 then argument else if major = 5 then 2 * argument else 1

/-- What follows a head: a string of the announced length, the announced items, or nothing; a simple
value in two bytes is at least 32. `Inner` are the items that may stand in this one. -/
def Body (Inner : List UInt8 → Prop) (major info : UInt8) (argument : ℕ) (content : List UInt8) : Prop :=
  if major = 2 then content.length = argument
  else if major = 3 then content.length = argument ∧ validUtf8 content
  else if 4 ≤ major ∧ major ≤ 6 then
    ∃ items : List (List UInt8), items.length = itemCount major argument ∧ (∀ i ∈ items, Inner i) ∧
      content = items.flatten
  else content = [] ∧ (major = 7 → info = 24 → 32 ≤ argument)

/-- The bytes are one well-formed item of definite length and at most so many levels: an item with
nothing in it has one level, and one nested `d` deep has `d + 1`. -/
def WellFormed : ℕ → List UInt8 → Prop
  | 0, _ => False
  | levels + 1, bytes => ∃ major info argument h content, IsHead major info argument h ∧
      Body (WellFormed levels) major info argument content ∧ bytes = h ++ content

/-! ## Heads -/

theorem initial_split (initial : UInt8) : initial >>> 5 < 8 ∧ (initial >>> 5) <<< 5 ||| (initial &&& 31) = initial := by
  have h : ∀ n : Fin 256, (UInt8.ofFin n) >>> 5 < 8 ∧
      ((UInt8.ofFin n) >>> 5) <<< 5 ||| ((UInt8.ofFin n) &&& 31) = UInt8.ofFin n := by decide +kernel
  exact h initial.toFin

theorem initial_join {major info : UInt8} (hmajor : major < 8) (hinfo : info < 32) :
    (major <<< 5 ||| info) >>> 5 = major ∧ (major <<< 5 ||| info) &&& 31 = info := by
  have h : ∀ m : Fin 8, ∀ i : Fin 32,
      (UInt8.ofNat m <<< 5 ||| UInt8.ofNat i) >>> 5 = UInt8.ofNat m ∧
        (UInt8.ofNat m <<< 5 ||| UInt8.ofNat i) &&& 31 = UInt8.ofNat i := by decide +kernel
  have hjoin := h ⟨major.toNat, hmajor⟩ ⟨info.toNat, hinfo⟩
  simpa using hjoin

theorem foldl_shift (bytes : List UInt8) (v : ℕ) :
    bytes.foldl (fun v b => v <<< 8 ||| b.toNat) v = 256 ^ bytes.length * v + bytesNat bytes := by
  induction bytes generalizing v with
  | nil => simp [bytesNat]
  | cons b bytes ih =>
    have hor : v <<< 8 ||| b.toNat = 256 * v + b.toNat := by
      rw [← Nat.shiftLeft_add_eq_or_of_lt b.toNat_lt, Nat.shiftLeft_eq, Nat.mul_comm]
    have hcons : bytesNat (b :: bytes) = 256 ^ bytes.length * b.toNat + bytesNat bytes := by
      have hone : bytesNat [b] = b.toNat := by simp [bytesNat, beNat_cons]
      have h := bytesNat_append [b] bytes
      rwa [hone, List.singleton_append] at h
    rw [List.foldl_cons, hor, ih, hcons, List.length_cons, pow_succ]
    ring

theorem IsHead.length_pos {major info : UInt8} {argument : ℕ} {h : List UInt8}
    (hh : IsHead major info argument h) : 0 < h.length := by
  cases hh with
  | immediate _ _ => exact Nat.one_pos
  | following _ _ _ _ => exact Nat.succ_pos _

/-- The reader takes a head apart as the grammar puts it together. -/
theorem readHead_ok_iff {bytes : List UInt8} {major info : UInt8} {argument content : ℕ} :
    readHead bytes = .ok ⟨major, info, argument, content⟩ ↔
      ∃ h rest, IsHead major info argument h ∧ h.length = content ∧ bytes = h ++ rest := by
  constructor
  · intro hread
    cases bytes with
    | nil => cases hread
    | cons initial rest =>
      obtain ⟨hmajor, hinitial⟩ := initial_split initial
      simp only [readHead] at hread
      split at hread
      · rename_i himmediate
        cases hread
        exact ⟨[initial], rest, by simpa only [hinitial] using IsHead.immediate hmajor himmediate, rfl, rfl⟩
      split at hread
      · rename_i himmediate hfollowing
        split at hread
        · rename_i hlen
          rw [foldl_shift, Nat.mul_zero, Nat.zero_add, Nat.one_shiftLeft] at hread
          rw [Nat.one_shiftLeft] at hlen
          cases hread
          have htake : (rest.take (2 ^ ((initial &&& 31).toNat - 24))).length = 2 ^ ((initial &&& 31).toNat - 24) := by
            rw [List.length_take, Nat.min_eq_left hlen]
          have hhead := IsHead.following hmajor (UInt8.not_lt.mp himmediate) hfollowing htake
          rw [hinitial] at hhead
          refine ⟨_, rest.drop (2 ^ ((initial &&& 31).toNat - 24)), hhead, ?_, ?_⟩
          · rw [List.length_cons, htake, Nat.add_comm]
          · rw [List.cons_append, List.take_append_drop]
        · cases hread
      · cases hread
  · rintro ⟨h, rest, hhead, rfl, rfl⟩
    cases hhead with
    | immediate hmajor hinfo =>
      have hsmall : info < 32 := UInt8.lt_trans hinfo (by decide : (24 : UInt8) < 32)
      obtain ⟨hj1, hj2⟩ := initial_join hmajor hsmall
      simp only [readHead, List.cons_append, List.nil_append, hj1, hj2, if_pos hinfo]
      rfl
    | @following arg hmajor hlow hhigh hlen =>
      have hsmall : info < 32 := UInt8.lt_of_le_of_lt hhigh (by decide : (27 : UInt8) < 32)
      obtain ⟨hj1, hj2⟩ := initial_join hmajor hsmall
      have htake : (arg ++ rest).take (2 ^ (info.toNat - 24)) = arg := List.take_left' hlen
      simp only [readHead, List.cons_append, hj1, hj2, if_neg (UInt8.not_lt.mpr hlow), if_pos hhigh,
        Nat.one_shiftLeft, List.length_append, hlen, htake, foldl_shift, List.length_cons]
      rw [if_pos (Nat.le_add_right _ _)]
      simp [Nat.add_comm]

/-! ## Runs of items -/

/-- The reader finds exactly the items that are `Inner`, whatever follows them. -/
structure Reads (read : List UInt8 → Except ReadError Item) (Inner : List UInt8 → Prop) : Prop where
  sound : ∀ {bytes item}, read bytes = .ok item → Inner item.bytes ∧ item.bytes <+: bytes
  complete : ∀ {w rest}, Inner w → (w ++ rest).length < usizeBound → ∃ item, read (w ++ rest) = .ok item ∧ item.bytes = w

section Runs

variable {read : List UInt8 → Except ReadError Item} {Inner : List UInt8 → Prop}

theorem Reads.items_sound (hread : Reads read Inner) {bytes : List UInt8} {k start stop : ℕ}
    (h : readItems read bytes k start = .ok stop) (hstart : start ≤ bytes.length) :
    ∃ items : List (List UInt8), items.length = k ∧ (∀ i ∈ items, Inner i) ∧
      items.flatten <+: bytes.drop start ∧ stop = start + items.flatten.length := by
  induction k generalizing start with
  | zero =>
    cases h
    exact ⟨[], rfl, by simp, by simp, rfl⟩
  | succ k ih =>
    rw [readItems, if_pos hstart] at h
    obtain ⟨item, hitem, hrest⟩ := bind_eq_ok_iff.mp h
    obtain ⟨hinner, tail, htail⟩ := hread.sound hitem
    have hlen : start + item.bytes.length ≤ bytes.length := by
      have hsum := congrArg List.length htail
      rw [List.length_append, List.length_drop] at hsum
      omega
    obtain ⟨items, hcount, hall, hpre, hstop⟩ := ih hrest hlen
    have hdrop : bytes.drop (start + item.bytes.length) = tail := by
      rw [← List.drop_drop, ← htail, List.drop_left]
    refine ⟨item.bytes :: items, by simp [hcount], by simpa using ⟨hinner, hall⟩, ?_, ?_⟩
    · rw [List.flatten_cons, ← htail, List.prefix_append_right_inj, ← hdrop]
      exact hpre
    · rw [hstop, List.flatten_cons, List.length_append, Nat.add_assoc]

theorem Reads.items_complete (hread : Reads read Inner) {items : List (List UInt8)} (hall : ∀ i ∈ items, Inner i)
    {pre rest : List UInt8} (hlen : (pre ++ (items.flatten ++ rest)).length < usizeBound) :
    readItems read (pre ++ (items.flatten ++ rest)) items.length pre.length =
      .ok (pre.length + items.flatten.length) := by
  induction items generalizing pre with
  | nil => rfl
  | cons w items ih =>
    have hsplit : pre ++ ((w :: items).flatten ++ rest) = (pre ++ w) ++ (items.flatten ++ rest) := by simp
    have hdrop : (pre ++ ((w :: items).flatten ++ rest)).drop pre.length = w ++ (items.flatten ++ rest) := by simp
    have hshort : (w ++ (items.flatten ++ rest)).length < usizeBound := by
      rw [hsplit] at hlen
      simp only [List.length_append] at hlen ⊢
      omega
    obtain ⟨item, hitem, rfl⟩ := hread.complete (hall w List.mem_cons_self) hshort
    have hrest := ih (fun i hi => hall i (List.mem_cons_of_mem _ hi)) (hsplit ▸ hlen)
    rw [List.length_cons, readItems, if_pos (by simp), hdrop, hitem]
    show readItems read _ items.length (pre.length + item.bytes.length) = _
    rw [hsplit, ← List.length_append, hrest, List.length_append, List.flatten_cons, List.length_append, Nat.add_assoc]

end Runs

/-! ## One level -/

/-- What the reader returns for an item: its bytes, its head's values and where its content starts. -/
def Item.Denotes : ℕ → Item → Prop
  | 0, _ => False
  | levels + 1, item => ∃ info h content, IsHead item.major info item.argument h ∧
      Body (WellFormed levels) item.major info item.argument content ∧
      item.bytes = h ++ content ∧ item.contentStart = h.length

theorem wellFormed_iff {levels : ℕ} {bytes : List UInt8} :
    WellFormed levels bytes ↔ ∃ item : Item, item.Denotes levels ∧ item.bytes = bytes := by
  cases levels with
  | zero => simp [WellFormed, Item.Denotes]
  | succ levels =>
    constructor
    · rintro ⟨major, info, argument, h, content, hhead, hbody, rfl⟩
      exact ⟨⟨h ++ content, major, argument, h.length⟩, ⟨info, h, content, hhead, hbody, rfl, rfl⟩, rfl⟩
    · rintro ⟨item, ⟨info, h, content, hhead, hbody, hbytes, -⟩, rfl⟩
      exact ⟨_, info, _, h, content, hhead, hbody, hbytes⟩

theorem Item.Denotes.wellFormed {levels : ℕ} {item : Item} (h : item.Denotes levels) : WellFormed levels item.bytes :=
  wellFormed_iff.mpr ⟨item, h, rfl⟩

theorem WellFormed.length_pos {levels : ℕ} {bytes : List UInt8} (h : WellFormed levels bytes) : 0 < bytes.length := by
  cases levels with
  | zero => exact h.elim
  | succ levels =>
    obtain ⟨major, info, argument, h, content, hhead, -, rfl⟩ := h
    have hpos := hhead.length_pos
    rw [List.length_append]
    omega

theorem length_le_length_flatten {items : List (List UInt8)} (h : ∀ i ∈ items, 0 < i.length) :
    items.length ≤ items.flatten.length := by
  induction items with
  | nil => simp
  | cons w items ih =>
    have hw := h w List.mem_cons_self
    have hrest := ih fun i hi => h i (List.mem_cons_of_mem _ hi)
    rw [List.flatten_cons, List.length_append, List.length_cons]
    omega

theorem declared_ok {major : UInt8} {argument k : ℕ} (h : declared major argument = .ok k) :
    k = itemCount major argument := by
  unfold declared at h
  unfold itemCount
  by_cases h4 : major = 4
  · rw [if_pos h4] at h ⊢
    cases h
    rfl
  rw [if_neg h4] at h ⊢
  by_cases h5 : major = 5
  · rw [if_pos h5] at h ⊢
    split at h
    · cases h
      exact Nat.mul_comm _ _
    · cases h
  · rw [if_neg h5] at h ⊢
    cases h
    rfl

theorem declared_eq {major : UInt8} {argument : ℕ} (h : itemCount major argument < 2 ^ 64) :
    declared major argument = .ok (itemCount major argument) := by
  unfold itemCount at h ⊢
  unfold declared
  by_cases h4 : major = 4
  · rw [if_pos h4, if_pos h4]
  rw [if_neg h4] at h ⊢
  rw [if_neg h4]
  by_cases h5 : major = 5
  · rw [if_pos h5] at h ⊢
    rw [if_pos h5, Nat.mul_comm, if_pos h]
  · rw [if_neg h5, if_neg h5]

theorem IsHead.second {major : UInt8} {argument : ℕ} {h : List UInt8} (hh : IsHead major 24 argument h)
    (rest : List UInt8) : (h ++ rest)[1]?.any (· < 32) = decide (argument < 32) := by
  cases hh with
  | immediate _ hinfo => exact absurd hinfo (by decide)
  | @following arg _ _ _ hlen =>
    obtain ⟨b, rfl⟩ := List.length_eq_one_iff.mp hlen
    have hb : bytesNat [b] = b.toNat := by simp [bytesNat, beNat_cons]
    rw [hb]
    rfl

section Level

variable {read : List UInt8 → Except ReadError Item} {Inner : List UInt8 → Prop} {h : List UInt8} {major info : UInt8}
  {argument : ℕ}

/-- Where the reader ends an item, what precedes is a body by the grammar. -/
theorem Reads.itemEnd_sound (hread : Reads read Inner) {rest : List UInt8} {stop : ℕ}
    (hend : itemEnd read (h ++ rest) ⟨major, info, argument, h.length⟩ = .ok stop)
    (hstop : stop ≤ (h ++ rest).length)
    (htext : major = 3 → validUtf8 (((h ++ rest).take stop).drop h.length) = true)
    (hsimple : major = 7 → info = 24 → 32 ≤ argument) :
    ∃ content, content <+: rest ∧ stop = h.length + content.length ∧ Body Inner major info argument content := by
  rw [List.length_append] at hstop
  unfold itemEnd at hend
  unfold Body
  by_cases hstring : major = 2 ∨ major = 3
  · rw [if_pos hstring] at hend
    split at hend
    · cases hend
      have hroom : argument ≤ rest.length := Nat.add_le_add_iff_left.mp hstop
      have hlen : (rest.take argument).length = argument := List.length_take_of_le hroom
      have htake : ((h ++ rest).take (h.length + argument)).drop h.length = rest.take argument := by
        rw [List.take_length_add_append, List.drop_left]
      refine ⟨rest.take argument, List.take_prefix _ _, by rw [hlen], ?_⟩
      obtain rfl | rfl := hstring
      · exact hlen
      · exact ⟨hlen, htake ▸ htext rfl⟩
    · cases hend
  obtain ⟨h2, h3⟩ := not_or.mp hstring
  rw [if_neg hstring] at hend
  by_cases hnested : 4 ≤ major ∧ major ≤ 6
  · rw [if_pos hnested] at hend
    obtain ⟨k, hk, hend⟩ := bind_eq_ok_iff.mp hend
    split at hend
    · cases hend
    · obtain ⟨items, hcount, hall, hpre, rfl⟩ := hread.items_sound hend (by simp)
      rw [List.drop_left] at hpre
      refine ⟨items.flatten, hpre, rfl, ?_⟩
      rw [if_neg h2, if_neg h3, if_pos hnested]
      exact ⟨items, hcount.trans (declared_ok hk), hall, rfl⟩
  · rw [if_neg hnested] at hend
    cases hend
    refine ⟨[], List.nil_prefix, rfl, ?_⟩
    rw [if_neg h2, if_neg h3, if_neg hnested]
    exact ⟨rfl, hsimple⟩

/-- The reader ends an item where the grammar does. -/
theorem Reads.itemEnd_complete (hread : Reads read Inner) (hpos : ∀ {w}, Inner w → 0 < w.length)
    {content rest : List UInt8} (hbody : Body Inner major info argument content)
    (hlen : (h ++ (content ++ rest)).length < usizeBound) :
    itemEnd read (h ++ (content ++ rest)) ⟨major, info, argument, h.length⟩ = .ok (h.length + content.length) := by
  have hshort : h.length + content.length + rest.length < usizeBound := by
    simpa only [List.length_append, Nat.add_assoc] using hlen
  unfold Body at hbody
  unfold itemEnd
  by_cases hstring : major = 2 ∨ major = 3
  · have hargument : content.length = argument := by
      obtain rfl | rfl := hstring
      · exact hbody
      · exact hbody.1
    have hroom : h.length + content.length < usizeBound := by omega
    rw [if_pos hstring, ← hargument, if_pos hroom]
  obtain ⟨h2, h3⟩ := not_or.mp hstring
  rw [if_neg hstring]
  rw [if_neg h2, if_neg h3] at hbody
  by_cases hnested : 4 ≤ major ∧ major ≤ 6
  · rw [if_pos hnested] at hbody ⊢
    obtain ⟨items, hcount, hall, rfl⟩ := hbody
    have hfew : items.length ≤ items.flatten.length := length_le_length_flatten fun i hi => hpos (hall i hi)
    have hsmall : itemCount major argument < 2 ^ 64 := by
      have hbound : usizeBound = 2 ^ 64 := rfl
      omega
    have hroom : ¬items.length > (h ++ (items.flatten ++ rest)).length - h.length := by
      simp only [List.length_append]
      omega
    rw [declared_eq hsmall, ← hcount]
    show (if items.length > (h ++ (items.flatten ++ rest)).length - h.length then _ else _) = _
    rw [if_neg hroom, hread.items_complete hall hlen]
  · rw [if_neg hnested] at hbody ⊢
    rw [hbody.1]
    rfl

end Level

namespace Item

theorem readLevels_succ_sound {levels : ℕ} (hread : Reads (readLevels levels) (WellFormed levels))
    {bytes : List UInt8} {item : Item} (h : readLevels (levels + 1) bytes = .ok item) :
    item.Denotes (levels + 1) ∧ item.bytes <+: bytes := by
  obtain ⟨⟨major, info, argument, start⟩, hreadHead, h⟩ := bind_eq_ok_iff.mp h
  obtain ⟨hd, rest, hhead, rfl, rfl⟩ := readHead_ok_iff.mp hreadHead
  dsimp only at h
  split at h
  · cases h
  rename_i hlong
  obtain ⟨stop, hend, h⟩ := bind_eq_ok_iff.mp h
  split at h
  · rename_i hstop
    split at h
    · cases h
    rename_i htext
    cases h
    have hutf8 : major = 3 → validUtf8 (((hd ++ rest).take stop).drop hd.length) = true := by
      intro h3
      by_contra hinvalid
      exact htext ⟨h3, hinvalid⟩
    have hsimple : major = 7 → info = 24 → 32 ≤ argument := by
      rintro h7 rfl
      rw [hhead.second, decide_eq_true_eq] at hlong
      by_contra hsmall
      exact hlong ⟨h7, rfl, by omega⟩
    obtain ⟨content, ⟨tail, rfl⟩, rfl, hbody⟩ := hread.itemEnd_sound hend hstop hutf8 hsimple
    have htake : (hd ++ (content ++ tail)).take (hd.length + content.length) = hd ++ content := by
      rw [List.take_length_add_append, List.take_left]
    rw [htake]
    exact ⟨⟨info, hd, content, hhead, hbody, rfl, rfl⟩, tail, by simp⟩
  · cases h

theorem readLevels_succ_complete {levels : ℕ} (hread : Reads (readLevels levels) (WellFormed levels)) {item : Item}
    (h : item.Denotes (levels + 1)) {rest : List UInt8} (hlen : (item.bytes ++ rest).length < usizeBound) :
    readLevels (levels + 1) (item.bytes ++ rest) = .ok item := by
  obtain ⟨bytes, major, argument, start⟩ := item
  obtain ⟨info, hd, content, hhead, hbody, rfl, rfl⟩ := h
  dsimp only at hhead hbody hlen ⊢
  rw [List.append_assoc] at hlen ⊢
  have hreadHead := readHead_ok_iff.mpr ⟨hd, content ++ rest, hhead, rfl, rfl⟩
  have hend := hread.itemEnd_complete WellFormed.length_pos hbody hlen
  have htake : (hd ++ (content ++ rest)).take (hd.length + content.length) = hd ++ content := by
    rw [List.take_length_add_append, List.take_left]
  have hlong : ¬(major = 7 ∧ info = 24 ∧ (hd ++ (content ++ rest))[1]?.any (· < 32) = true) := by
    rintro ⟨rfl, rfl, hany⟩
    rw [hhead.second, decide_eq_true_eq] at hany
    have h32 : 32 ≤ argument := hbody.2 rfl rfl
    omega
  have hstop : hd.length + content.length ≤ (hd ++ (content ++ rest)).length := by
    simp only [List.length_append]
    omega
  have htext : ¬(major = 3 ∧ ¬validUtf8 ((hd ++ content).drop hd.length) = true) := by
    rintro ⟨rfl, hinvalid⟩
    rw [List.drop_left] at hinvalid
    exact hinvalid hbody.2
  rw [readLevels, hreadHead]
  show (if major = 7 ∧ info = 24 ∧ (hd ++ (content ++ rest))[1]?.any (· < 32) = true then _ else _) = _
  rw [if_neg hlong, hend]
  show (if hd.length + content.length ≤ (hd ++ (content ++ rest)).length then _ else _) = _
  rw [if_pos hstop, htake, if_neg htext]

theorem reads_readLevels (levels : ℕ) : Reads (readLevels levels) (WellFormed levels) := by
  induction levels with
  | zero =>
    constructor
    · intro bytes item h
      cases h
    · intro w rest h
      exact h.elim
  | succ levels ih =>
    constructor
    · intro bytes item h
      obtain ⟨hdenotes, hpre⟩ := readLevels_succ_sound ih h
      exact ⟨hdenotes.wellFormed, hpre⟩
    · intro w rest h hlen
      obtain ⟨item, hdenotes, rfl⟩ := wellFormed_iff.mp h
      exact ⟨item, readLevels_succ_complete ih hdenotes hlen, rfl⟩

/-- The reader accepts exactly the items of the grammar, whatever follows them. -/
theorem readLevels_ok_iff {levels : ℕ} {bytes : List UInt8} {item : Item} (hlen : bytes.length < usizeBound) :
    readLevels levels bytes = .ok item ↔ item.Denotes levels ∧ item.bytes <+: bytes := by
  cases levels with
  | zero =>
    constructor
    · intro h
      cases h
    · intro h
      exact h.1.elim
  | succ levels =>
    refine ⟨readLevels_succ_sound (reads_readLevels levels), ?_⟩
    rintro ⟨hdenotes, rest, rfl⟩
    exact readLevels_succ_complete (reads_readLevels levels) hdenotes hlen

theorem readAt_ok_iff {bytes : List UInt8} {depth : ℕ} {item : Item} (hlen : bytes.length < usizeBound) :
    readAt bytes depth = .ok item ↔ item.Denotes (maxDepth + 1 - depth) ∧ item.bytes <+: bytes :=
  readLevels_ok_iff hlen

end Item

/-- Two items at the start of the same bytes are one item, and the same bytes follow it. -/
theorem WellFormed.append_inj {levels : ℕ} {w w' rest rest' : List UInt8} (hw : WellFormed levels w)
    (hw' : WellFormed levels w') (hlen : (w ++ rest).length < usizeBound) (h : w ++ rest = w' ++ rest') :
    w = w' ∧ rest = rest' := by
  obtain ⟨item, hitem, rfl⟩ := wellFormed_iff.mp hw
  obtain ⟨item', hitem', rfl⟩ := wellFormed_iff.mp hw'
  have hread := (Item.readLevels_ok_iff hlen).mpr ⟨hitem, List.prefix_append _ _⟩
  have hread' := (Item.readLevels_ok_iff hlen).mpr ⟨hitem', h ▸ List.prefix_append _ _⟩
  obtain rfl := Except.ok.inj (hread.symm.trans hread')
  exact ⟨rfl, List.append_cancel_left h⟩

theorem Body.mono {Inner Outer : List UInt8 → Prop} (hinner : ∀ w, Inner w → Outer w) {major info : UInt8}
    {argument : ℕ} {content : List UInt8} (h : Body Inner major info argument content) :
    Body Outer major info argument content := by
  unfold Body at h ⊢
  split
  · rwa [if_pos ‹_›] at h
  rw [if_neg ‹_›] at h
  split
  · rwa [if_pos ‹_›] at h
  rw [if_neg ‹_›] at h
  split
  · rw [if_pos ‹_›] at h
    obtain ⟨items, hcount, hall, hcontent⟩ := h
    exact ⟨items, hcount, fun i hi => hinner i (hall i hi), hcontent⟩
  · rwa [if_neg ‹_›] at h

theorem WellFormed.mono {m n : ℕ} (hle : m ≤ n) {bytes : List UInt8} (h : WellFormed m bytes) :
    WellFormed n bytes := by
  induction n generalizing m bytes with
  | zero =>
    obtain rfl := Nat.le_zero.mp hle
    exact h
  | succ n ih =>
    cases m with
    | zero => exact h.elim
    | succ m =>
      obtain ⟨major, info, argument, hd, content, hhead, hbody, rfl⟩ := h
      have hinner : ∀ w, WellFormed m w → WellFormed n w := fun w => ih (Nat.le_of_succ_le_succ hle)
      exact ⟨major, info, argument, hd, content, hhead, hbody.mono hinner, rfl⟩

theorem Item.Denotes.mono {m n : ℕ} (hle : m ≤ n) {item : Item} (h : item.Denotes m) : item.Denotes n := by
  cases m with
  | zero => exact h.elim
  | succ m =>
    obtain ⟨n, rfl⟩ := Nat.exists_eq_add_one_of_ne_zero (Nat.pos_iff_ne_zero.mp (Nat.zero_lt_of_lt hle))
    obtain ⟨info, hd, content, hhead, hbody, hbytes, hstart⟩ := h
    have hinner : ∀ w, WellFormed m w → WellFormed n w := fun w => WellFormed.mono (Nat.le_of_succ_le_succ hle)
    exact ⟨info, hd, content, hhead, hbody.mono hinner, hbytes, hstart⟩

/-! ## The second pass -/

namespace Item

/-- The children of items that the grammar allows are those items, all of them. -/
theorem bytes_childrenFrom {items : List (List UInt8)} {rounds : ℕ}
    (hall : ∀ i ∈ items, WellFormed (maxDepth + 1) i) (hlen : items.flatten.length < usizeBound)
    (hrounds : items.flatten.length ≤ rounds) : (childrenFrom rounds items.flatten).map bytes = items := by
  induction items generalizing rounds with
  | nil => cases rounds <;> rfl
  | cons w items ih =>
    have hw := hall w List.mem_cons_self
    have hpos := hw.length_pos
    have hsum : (w :: items).flatten.length = w.length + items.flatten.length := by
      rw [List.flatten_cons, List.length_append]
    cases rounds with
    | zero => omega
    | succ rounds =>
      have hshort : (w ++ items.flatten).length < usizeBound := by rwa [← List.flatten_cons]
      obtain ⟨child, hchild, rfl⟩ := (reads_readLevels (maxDepth + 1)).complete hw hshort
      have hne : child.bytes ++ items.flatten ≠ [] := by
        intro hnil
        rw [List.append_eq_nil_iff] at hnil
        rw [hnil.1] at hpos
        exact absurd hpos (lt_irrefl 0)
      have hread : readAt (child.bytes ++ items.flatten) 0 = .ok child := hchild
      rw [List.flatten_cons, childrenFrom, if_neg hne, hread]
      show child.bytes :: (childrenFrom rounds ((child.bytes ++ items.flatten).drop child.bytes.length)).map bytes = _
      rw [List.drop_left, ih (fun i hi => hall i (List.mem_cons_of_mem _ hi)) (by omega) (by omega)]

theorem readAt_of_mem_childrenFrom {rounds : ℕ} {bytes : List UInt8} {child : Item}
    (h : child ∈ childrenFrom rounds bytes) : ∃ tail, readAt tail 0 = .ok child ∧ tail.length ≤ bytes.length := by
  induction rounds generalizing bytes with
  | zero => cases h
  | succ rounds ih =>
    rw [childrenFrom] at h
    split at h
    · cases h
    split at h
    · rename_i first hfirst
      cases h with
      | head => exact ⟨bytes, hfirst, le_refl _⟩
      | tail _ h =>
        obtain ⟨tail, htail, hle⟩ := ih h
        refine ⟨tail, htail, hle.trans ?_⟩
        rw [List.length_drop]
        omega
    · cases h

/-- The second pass finds in an array, a map or a tag the items that the first one read. -/
theorem Denotes.children_eq {levels : ℕ} (hlevels : levels ≤ maxDepth + 1) {item : Item} (h : item.Denotes levels)
    (hmajor : 4 ≤ item.major ∧ item.major ≤ 6) (hlen : item.bytes.length < usizeBound) :
    item.children.length = itemCount item.major item.argument ∧
      (item.children.map bytes).flatten = item.content := by
  cases levels with
  | zero => exact h.elim
  | succ levels =>
    obtain ⟨info, hd, content, -, hbody, hbytes, hstart⟩ := h
    have h2 : item.major ≠ 2 := fun h2 => absurd hmajor (by rw [h2]; decide)
    have h3 : item.major ≠ 3 := fun h3 => absurd hmajor (by rw [h3]; decide)
    rw [Body, if_neg h2, if_neg h3, if_pos hmajor] at hbody
    obtain ⟨items, hcount, hall, rfl⟩ := hbody
    have hdrop : item.bytes.drop item.contentStart = items.flatten := by rw [hbytes, hstart, List.drop_left]
    have hle : items.flatten.length ≤ item.bytes.length := by
      rw [hbytes, List.length_append]
      omega
    have hall' : ∀ i ∈ items, WellFormed (maxDepth + 1) i := fun i hi => (hall i hi).mono (by omega)
    have hmap := bytes_childrenFrom hall' (by omega) hle
    rw [content, children, if_pos hmajor, hdrop]
    rw [← List.length_map bytes, hmap]
    exact ⟨hcount, rfl⟩

end Item

/-! ## The encoder's items -/

theorem isHead_head {major : UInt8} (hmajor : major < 8) (n : UInt64) :
    ∃ info, IsHead major info n.toNat (head major n) := by
  have hlong : ∀ {info : UInt8} {k : ℕ}, 24 ≤ info → info ≤ 27 → k = 2 ^ (info.toNat - 24) → n.toNat < 256 ^ k →
      IsHead major info n.toNat ((major <<< 5 ||| info) :: beBytes k n.toNat) := by
    intro info k hlow hhigh hk hn
    have hhead := IsHead.following hmajor hlow hhigh ((length_beBytes k n.toNat).trans hk)
    rwa [bytesNat_beBytes, Nat.mod_eq_of_lt hn] at hhead
  have hbound : n.toNat < 2 ^ 64 := n.toNat_lt
  unfold head
  by_cases h1 : n.toNat < 24
  · rw [if_pos h1]
    have htoNat : n.toUInt8.toNat = n.toNat := by
      rw [UInt64.toNat_toUInt8]
      omega
    have hsmall : n.toUInt8 < 24 := UInt8.lt_iff_toNat_lt.mpr (htoNat.symm ▸ h1)
    have hhead := IsHead.immediate hmajor hsmall
    rw [htoNat] at hhead
    exact ⟨_, hhead⟩
  rw [if_neg h1]
  by_cases h2 : n.toNat ≤ 0xff
  · rw [if_pos h2]
    exact ⟨24, hlong (by decide) (by decide) rfl (by omega)⟩
  rw [if_neg h2]
  by_cases h3 : n.toNat ≤ 0xffff
  · rw [if_pos h3]
    exact ⟨25, hlong (by decide) (by decide) rfl (by omega)⟩
  rw [if_neg h3]
  by_cases h4 : n.toNat ≤ 0xffffffff
  · rw [if_pos h4]
    exact ⟨26, hlong (by decide) (by decide) rfl (by omega)⟩
  rw [if_neg h4]
  exact ⟨27, hlong (by decide) (by decide) rfl (by omega)⟩

/-- The item that the encoder writes for a head and its content. -/
def Item.ofHead (major : UInt8) (n : UInt64) (content : List UInt8) : Item :=
  ⟨head major n ++ content, major, n.toNat, (head major n).length⟩

theorem denotes_ofHead {levels : ℕ} {major : UInt8} {n : UInt64} {content : List UInt8} (hmajor : major < 8)
    (hbody : ∀ info, Body (WellFormed levels) major info n.toNat content) :
    (Item.ofHead major n content).Denotes (levels + 1) := by
  obtain ⟨info, hhead⟩ := isHead_head hmajor n
  exact ⟨info, head major n, content, hhead, hbody info, rfl, rfl⟩

theorem toNat_ofNat_length {α : Type} {l : List α} (h : l.length < usizeBound) :
    (UInt64.ofNat l.length).toNat = l.length := UInt64.toNat_ofNat_of_lt' h

namespace Value

/-- The value has at most so many levels, and its encoded parts are well-formed items. -/
inductive Within : ℕ → Value → Prop
  | unsigned {levels : ℕ} {n : UInt64} : Within (levels + 1) (.unsigned n)
  | negative {levels : ℕ} {n : UInt64} : Within (levels + 1) (.negative n)
  | bytes {levels : ℕ} {content : List UInt8} : Within (levels + 1) (.bytes content)
  | text {levels : ℕ} {content : String} : Within (levels + 1) (.text content)
  | array {levels : ℕ} {items : List Value} : (∀ i ∈ items, Within levels i) → Within (levels + 1) (.array items)
  | map {levels : ℕ} {entries : List (Value × Value)} : (∀ e ∈ entries, Within levels e.1) →
      (∀ e ∈ entries, Within levels e.2) → Within (levels + 1) (.map entries)
  | tag {levels : ℕ} {number : UInt64} {value : Value} : Within levels value →
      Within (levels + 1) (.tag number value)
  | bool {levels : ℕ} {b : Bool} : Within (levels + 1) (.bool b)
  | encoded {levels : ℕ} {bytes : List UInt8} : WellFormed levels bytes → Within levels (.encoded bytes)

theorem body_items {levels : ℕ} {major : UInt8} {argument : ℕ} {values : List Value}
    (hmajor : 4 ≤ major ∧ major ≤ 6) (hcount : values.length = itemCount major argument)
    (hall : ∀ v ∈ values, WellFormed levels v.encode) (info : UInt8) :
    Body (WellFormed levels) major info argument (values.map encode).flatten := by
  have h2 : major ≠ 2 := fun h2 => absurd hmajor (by rw [h2]; decide)
  have h3 : major ≠ 3 := fun h3 => absurd hmajor (by rw [h3]; decide)
  rw [Body, if_neg h2, if_neg h3, if_pos hmajor]
  refine ⟨values.map encode, by rw [List.length_map, hcount], ?_, rfl⟩
  intro i hi
  obtain ⟨v, hv, rfl⟩ := List.mem_map.mp hi
  exact hall v hv

theorem length_encode_le {values : List Value} {v : Value} (hv : v ∈ values) :
    v.encode.length ≤ (values.map encode).flatten.length := by
  rw [List.length_flatten]
  exact List.le_sum_of_mem (List.mem_map_of_mem (List.mem_map_of_mem hv))

theorem length_le_length_encode {levels : ℕ} {values : List Value} (hall : ∀ v ∈ values, WellFormed levels v.encode) :
    values.length ≤ (values.map encode).flatten.length := by
  have hpos : ∀ i ∈ values.map encode, 0 < i.length := by
    intro i hi
    obtain ⟨v, hv, rfl⟩ := List.mem_map.mp hi
    exact (hall v hv).length_pos
  have hle := length_le_length_flatten hpos
  rwa [List.length_map] at hle

theorem mem_flat {entries : List (Value × Value)} {v : Value} (hv : v ∈ flat entries) :
    ∃ e ∈ entries, v = e.1 ∨ v = e.2 := by
  obtain ⟨e, he, hv⟩ := List.mem_flatMap.mp hv
  refine ⟨e, he, ?_⟩
  simpa using hv

theorem length_flat (entries : List (Value × Value)) : (flat entries).length = 2 * entries.length := by
  induction entries with
  | nil => rfl
  | cons e entries ih =>
    have hcons : flat (e :: entries) = e.1 :: e.2 :: flat entries := rfl
    rw [hcons, List.length_cons, List.length_cons, ih, List.length_cons]
    omega

theorem denotes_number {levels : ℕ} {major : UInt8} (hmajor : major = 0 ∨ major = 1) (n : UInt64) :
    (Item.ofHead major n []).Denotes (levels + 1) := by
  obtain rfl | rfl := hmajor
  · exact denotes_ofHead (by decide) fun info => ⟨rfl, fun h => absurd h (by decide)⟩
  · exact denotes_ofHead (by decide) fun info => ⟨rfl, fun h => absurd h (by decide)⟩

theorem denotes_bytes {levels : ℕ} {content : List UInt8} (h : content.length < usizeBound) :
    (Item.ofHead 2 (UInt64.ofNat content.length) content).Denotes (levels + 1) := by
  refine denotes_ofHead (by decide) fun info => ?_
  rw [toNat_ofNat_length h]
  exact rfl

theorem denotes_text {levels : ℕ} {content : String} (h : (utf8 content).length < usizeBound) :
    (Item.ofHead 3 (UInt64.ofNat (utf8 content).length) (utf8 content)).Denotes (levels + 1) := by
  refine denotes_ofHead (by decide) fun info => ?_
  rw [toNat_ofNat_length h]
  exact ⟨rfl, by rw [validUtf8, fromUtf8_utf8]; rfl⟩

theorem denotes_array {levels : ℕ} {items : List Value} (hall : ∀ v ∈ items, WellFormed levels v.encode)
    (h : (encodeItems items).length < usizeBound) :
    (Item.ofHead 4 (UInt64.ofNat items.length) (encodeItems items)).Denotes (levels + 1) := by
  rw [encodeItems_eq] at h ⊢
  refine denotes_ofHead (by decide) (body_items (by decide) ?_ hall)
  exact (toNat_ofNat_length ((length_le_length_encode hall).trans_lt h)).symm

theorem denotes_map {levels : ℕ} {entries : List (Value × Value)}
    (hall : ∀ v ∈ flat entries, WellFormed levels v.encode) (h : (encodeEntries entries).length < usizeBound) :
    (Item.ofHead 5 (UInt64.ofNat entries.length) (encodeEntries entries)).Denotes (levels + 1) := by
  rw [encodeEntries_eq] at h ⊢
  have hle := length_le_length_encode hall
  rw [length_flat] at hle
  refine denotes_ofHead (by decide) (body_items (by decide) ?_ hall)
  rw [toNat_ofNat_length (by omega), length_flat]
  rfl

theorem denotes_tag {levels : ℕ} {number : UInt64} {value : Value} (hvalue : WellFormed levels value.encode) :
    (Item.ofHead 6 number value.encode).Denotes (levels + 1) := by
  have hone : ∀ v ∈ [value], WellFormed levels v.encode := by simpa using hvalue
  have hflatten : value.encode = ([value].map encode).flatten := by simp
  rw [hflatten]
  exact denotes_ofHead (by decide) (body_items (by decide) rfl hone)

/-- The encoder writes well-formed items. -/
theorem Within.wellFormed {levels : ℕ} {v : Value} (h : v.Within levels) (hlen : v.encode.length < usizeBound) :
    WellFormed levels v.encode := by
  induction h with
  | unsigned =>
    rw [encode]
    simpa only [Item.ofHead, List.append_nil] using (denotes_number (.inl rfl) _).wellFormed
  | negative =>
    rw [encode]
    simpa only [Item.ofHead, List.append_nil] using (denotes_number (.inr rfl) _).wellFormed
  | bytes =>
    rw [encode] at hlen ⊢
    rw [List.length_append] at hlen
    exact (denotes_bytes (by omega)).wellFormed
  | text =>
    rw [encode] at hlen ⊢
    rw [List.length_append] at hlen
    exact (denotes_text (by omega)).wellFormed
  | @array levels items hall ih =>
    rw [encode] at hlen ⊢
    rw [List.length_append] at hlen
    have hitems : ∀ v ∈ items, WellFormed levels v.encode := by
      intro v hv
      have hle := length_encode_le hv
      rw [← encodeItems_eq] at hle
      exact ih v hv (by omega)
    exact (denotes_array hitems (by omega)).wellFormed
  | @map levels entries hkeys hvalues ihkeys ihvalues =>
    rw [encode] at hlen ⊢
    rw [List.length_append] at hlen
    have hitems : ∀ v ∈ flat entries, WellFormed levels v.encode := by
      intro v hv
      have hle := length_encode_le hv
      rw [← encodeEntries_eq] at hle
      obtain ⟨e, he, rfl | rfl⟩ := mem_flat hv
      · exact ihkeys e he (by omega)
      · exact ihvalues e he (by omega)
    exact (denotes_map hitems (by omega)).wellFormed
  | tag hvalue ih =>
    rw [encode] at hlen ⊢
    rw [List.length_append] at hlen
    exact (denotes_tag (ih (by omega))).wellFormed
  | @bool levels b =>
    have hhead : ∀ b : Bool, IsHead 7 (if b then 21 else 20) (if b then 21 else 20) (encode (.bool b)) := by
      intro b
      rw [encode]
      cases b with
      | false => exact IsHead.immediate (by decide) (by decide)
      | true => exact IsHead.immediate (by decide) (by decide)
    have hshort : ∀ b : Bool, (if b then 21 else 20 : UInt8) ≠ 24 := by decide
    exact ⟨7, _, _, _, [], hhead b, ⟨rfl, fun _ h => absurd h (hshort b)⟩, (List.append_nil _).symm⟩
  | encoded h =>
    rw [encode]
    exact h

end Value

/-! ## What the reader accepts -/

namespace Item

theorem lt_usizeBound {n : ℕ} (h : n ≤ maxInput) : n < usizeBound := lt_of_le_of_lt h (by decide)

theorem read_ok_iff {bytes : List UInt8} (hlen : bytes.length ≤ maxInput) {item : Item} :
    read bytes = .ok item ↔ item.Denotes (maxDepth + 1) ∧ item.bytes <+: bytes := by
  rw [read, if_neg (not_lt.mpr hlen)]
  exact readAt_ok_iff (lt_usizeBound hlen)

theorem length_le_of_read {bytes : List UInt8} {item : Item} (h : read bytes = .ok item) : bytes.length ≤ maxInput := by
  by_contra hlong
  rw [read, if_pos (not_le.mp hlong)] at h
  cases h

theorem Denotes.readAt_self {levels : ℕ} (hlevels : levels ≤ maxDepth + 1) {item : Item} (h : item.Denotes levels)
    (hlen : item.bytes.length < usizeBound) : readAt item.bytes 0 = .ok item := by
  exact (readAt_ok_iff hlen).mpr ⟨h.mono hlevels, List.prefix_rfl⟩

/-- The reader accepts exactly its grammar, the second pass finds every item that the first one read, and
what the encoder writes is read back. -/
theorem read_exact :
    (∀ bytes : List UInt8, bytes.length ≤ maxInput →
      ((∃ item, read bytes = .ok item) ↔ ∃ w, w <+: bytes ∧ WellFormed (maxDepth + 1) w)) ∧
    (∀ bytes item, read bytes = .ok item →
      item.bytes <+: bytes ∧ WellFormed (maxDepth + 1) item.bytes ∧
      (∀ w, w <+: bytes → WellFormed (maxDepth + 1) w → w = item.bytes) ∧
      ∀ rest, (item.bytes ++ rest).length ≤ maxInput → read (item.bytes ++ rest) = .ok item) ∧
    (∀ bytes depth item, bytes.length ≤ maxInput → readAt bytes depth = .ok item →
      4 ≤ item.major ∧ item.major ≤ 6 →
      item.tryChildren = .ok item.children ∧
      item.children.length = itemCount item.major item.argument ∧
      (item.children.map Item.bytes).flatten = item.content ∧
      ∀ child ∈ item.children, readAt child.bytes 0 = .ok child) ∧
    (∀ (v : Value) rest, v.Within (maxDepth + 1) → (v.encode ++ rest).length ≤ maxInput →
      ∃ item, read (v.encode ++ rest) = .ok item ∧ item.bytes = v.encode) := by
  refine ⟨fun bytes hlen => ⟨?_, ?_⟩, ?_, ?_, ?_⟩
  · rintro ⟨item, hread⟩
    obtain ⟨hdenotes, hpre⟩ := (read_ok_iff hlen).mp hread
    exact ⟨item.bytes, hpre, hdenotes.wellFormed⟩
  · rintro ⟨w, hpre, hw⟩
    obtain ⟨item, hdenotes, rfl⟩ := wellFormed_iff.mp hw
    exact ⟨item, (read_ok_iff hlen).mpr ⟨hdenotes, hpre⟩⟩
  · intro bytes item hread
    have hlen := length_le_of_read hread
    obtain ⟨hdenotes, hpre⟩ := (read_ok_iff hlen).mp hread
    refine ⟨hpre, hdenotes.wellFormed, fun w hw hwell => ?_, fun rest hrest => ?_⟩
    · obtain ⟨other, hother, rfl⟩ := wellFormed_iff.mp hwell
      have hboth := hread.symm.trans ((read_ok_iff hlen).mpr ⟨hother, hw⟩)
      rw [Except.ok.inj hboth]
    · exact (read_ok_iff hrest).mpr ⟨hdenotes, List.prefix_append _ _⟩
  · intro bytes depth item hlen hread hmajor
    obtain ⟨hdenotes, hpre⟩ := (readAt_ok_iff (lt_usizeBound hlen)).mp hread
    have hshort : item.bytes.length < usizeBound := lt_usizeBound (hpre.length_le.trans hlen)
    obtain ⟨hcount, hcontent⟩ := hdenotes.children_eq (Nat.sub_le _ _) hmajor hshort
    refine ⟨if_pos hmajor, hcount, hcontent, fun child hchild => ?_⟩
    rw [children, if_pos hmajor] at hchild
    obtain ⟨tail, htail, hle⟩ := readAt_of_mem_childrenFrom hchild
    have htailShort : tail.length < usizeBound := by
      rw [List.length_drop] at hle
      omega
    obtain ⟨hchildDenotes, hchildPre⟩ := (readAt_ok_iff htailShort).mp htail
    exact hchildDenotes.readAt_self (le_refl _) (lt_of_le_of_lt hchildPre.length_le htailShort)
  · intro v rest hv hlen
    have hshort : v.encode.length < usizeBound := by
      refine lt_usizeBound (le_trans ?_ hlen)
      rw [List.length_append]
      omega
    obtain ⟨item, hdenotes, hbytes⟩ := wellFormed_iff.mp (hv.wellFormed hshort)
    exact ⟨item, (read_ok_iff hlen).mpr ⟨hdenotes, hbytes ▸ List.prefix_append _ _⟩, hbytes⟩

/-- A map of one array under a text key, with a byte after it. -/
theorem read_exact_map : ∃ item,
    read ((Value.map [(.text "a", .array [.unsigned 1, .encoded [0xf6]])]).encode ++ [0]) = .ok item ∧
      item.bytes = (Value.map [(.text "a", .array [.unsigned 1, .encoded [0xf6]])]).encode := by
  have hnull : WellFormed 31 [0xf6] :=
    ⟨7, 22, 22, [0xf6], [], .immediate (by decide) (by decide), ⟨rfl, fun _ h => absurd h (by decide)⟩, rfl⟩
  have harray : (Value.array [.unsigned 1, .encoded [0xf6]]).Within 32 := by
    refine .array fun i hi => ?_
    obtain rfl | hi := List.mem_cons.mp hi
    · exact .unsigned
    · rw [List.mem_singleton.mp hi]
      exact .encoded hnull
  refine read_exact.2.2.2 _ [0] (.map (fun e he => ?_) fun e he => ?_) (by decide)
  · rw [List.mem_singleton.mp he]
    exact .text
  · rw [List.mem_singleton.mp he]
    exact harray

end Item

end ZkCredVega.Nym.Cbor
