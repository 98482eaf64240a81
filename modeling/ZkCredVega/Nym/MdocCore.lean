import ZkCredVega.Nym.Ecdsa
import ZkCredVega.Nym.Pseudonym
import ZkCredVega.Nym.Step
import ZkCredVega.Nym.Validity

/-!
# The core circuit of an mdoc

`age_part` and `nym_part` of `mdoc.rs`, with `expect` of `gadgets/bits.rs`, `Point::alloc` of
`gadgets/p256.rs` and `Facts` of `presentation.rs`: the rules of the precommitted segment, which read
the credential from the shared table and pass the facts to the rest segment in slots.
-/

namespace ZkCredVega.Nym

open Circuits

section Gadgets

variable {F V : Type} [Field F] [One V]

/-- How many bytes one rule of `expect` compares. -/
def expectGroup : ℕ := 16

/-- Adds the rules that bytes equal a constant string. -/
def expect (bytes : List (Lc F V)) (pattern : List UInt8) : Circuit F V Unit := do
  .assert (bytes.length = pattern.length)
  forM ((chunks expectGroup bytes).zip (chunks expectGroup pattern)) fun t =>
    equal (packBytes t.1) (Lc.constant (fromBe t.2))

def Point.alloc (key : Option PublicKey) : Circuit F V (Point F V) := do
  let x ← Lc.alloc (key.map fun k => fromBe k.x.val)
  let y ← Lc.alloc (key.map fun k => fromBe k.y.val)
  pure ⟨x, y⟩

/-- `bytes[i]` for each position. -/
def bytesAt (bytes : List (Lc F V)) (places : List ℕ) : Circuit F V (List (Lc F V)) :=
  places.mapM fun i =>
    match bytes[i]? with
    | some byte => pure byte
    | none => .fail .panic

/-! ## Facts -/

def dateDigits : List ℕ := [0, 1, 2, 3, 5, 6, 8, 9]

def dateTimeDigits : List ℕ := [0, 1, 2, 3, 5, 6, 8, 9, 11, 12, 14, 15, 17, 18]

/-- What a core circuit reads from the credential, once per credential. -/
structure Facts (F V : Type) where
  issuerKey : Point F V
  birthDate : Lc F V
  validFrom : Lc F V
  validUntil : Lc F V
  deviceKey : Point F V
  windows : List (AllocatedNum F V) × List (AllocatedNum F V)

namespace Facts

def base (f : Facts F V) : List (Lc F V) :=
  [f.issuerKey.x, f.issuerKey.y, f.birthDate, f.validFrom, f.validUntil, f.deviceKey.x, f.deviceKey.y]

/-- The seven values in new slots, then the bytes of each window. -/
def intoSlots (f : Facts F V) : Circuit F V (List (AllocatedNum F V)) := do
  let slots ← f.base.mapM toNum
  pure (slots ++ f.windows.1 ++ f.windows.2)

end Facts

def windowSlots (bytes : List (Lc F V)) : Circuit F V (List (AllocatedNum F V)) := bytes.mapM toNum

/-! ## The rules -/

namespace Mdoc

/-- Adds the rules that a window lists a digest, given as two halves. -/
def listsDigest (window : List (Lc F V)) (digest : Lc F V × Lc F V) : Circuit F V Unit := do
  expect (window.take 2) digestHead
  equal (packBytes ((window.drop 2).take 16)) digest.1
  equal (packBytes ((window.drop 18).take 16)) digest.2

variable [ToRepr F]

/-- Reads the date-time that follows `key`, as the number YYYYMMDDhhmmss. -/
def dateTime (m : Message F V) (pos : Option ℕ) (key : List UInt8) : Circuit F V (Lc F V) := do
  let window ← m.read pos (key.length + 20)
  expect (window.bytes.take key.length) key
  let digits ← bytesAt (window.bytes.drop key.length) dateTimeDigits
  pure (decimal digits)

def readDeviceKey (m : Message F V) (pos : Option ℕ) : Circuit F V (Point F V) := do
  let key ← m.read pos deviceKeyLen
  let yAt := deviceKey.length + 32 + deviceKeyY.length
  expect (key.bytes.take deviceKey.length) deviceKey
  expect ((key.bytes.drop (deviceKey.length + 32)).take deviceKeyY.length) deviceKeyY
  pure ⟨packBytes ((key.bytes.drop deviceKey.length).take 32), packBytes ((key.bytes.drop yAt).take 32)⟩

/-- The age statement's rules that depend only on the credential. Returns the signed message as the rules read
it, and the facts. -/
def agePart (constants : Constants F) (cells : Cells F V) (w : Option MdocWitness) (layout : Layout) :
    Circuit F V (Message F V × Facts F V) := do
  let signed ← Message.openRegion cells layout.signed (w.map (·.signedLast))
  let item ← Message.openRegion cells layout.attr (w.map (·.attributeLast))
  let issuerKey ← Point.alloc (w.map (·.issuerKey))
  let digest ← digestBits signed.2.1 signed.2.2
  verify constants digest issuerKey (w.map (·.issuerSignature))
  let docType ← signed.1.read (w.map (·.docTypeAt)) docTypeWindow.len
  let listed ← signed.1.read (w.map (·.digestAt)) 34
  listsDigest listed.bytes item.2
  let identifier ← item.1.read (w.map (·.identifierAt)) identifierWindow.len
  let dated ← item.1.read (w.map (·.valueAt)) (value.length + 10)
  expect (dated.bytes.take value.length) value
  let date ← bytesAt (dated.bytes.drop value.length) dateDigits
  let deviceKey ← readDeviceKey signed.1 (w.map (·.deviceKeyAt))
  let from_ ← dateTime signed.1 (w.map (·.validFromAt)) validFrom
  let until_ ← dateTime signed.1 (w.map (·.validUntilAt)) validUntil
  let typeSlots ← windowSlots docType.bytes
  let attributeSlots ← windowSlots identifier.bytes
  pure (signed.1, ⟨issuerKey, decimal date, from_, until_, deviceKey, (typeSlots, attributeSlots)⟩)

def pseudonymRegions (layout : Layout) : Circuit F V PseudonymRegions :=
  match layout.pseudonym with
  | some regions => pure regions
  | none => .fail .unsatisfiable

/-- What a witness knows of the `ssc` item; a witness of the age statement knows nothing. -/
def nymOf (w : Option MdocWitness) : Circuit F V (Option MdocNym) :=
  match w with
  | none => pure none
  | some w =>
    match w.nym with
    | some n => pure (some n)
    | none => .fail .assignmentMissing

/-- The rules of the pseudonym that depend only on the credential. Returns the slots that the rest segment
compares with the verifier's values. -/
def nymRules [DecidableEq F] (cells : Cells F V) (signed : Message F V) (w : Option MdocWitness) (layout : Layout) :
    Circuit F V (List (AllocatedNum F V)) := do
  let regions ← pseudonymRegions layout
  let nym ← nymOf w
  let item ← Message.openRegion cells regions.ssc (nym.map (·.last))
  let listed ← signed.read (nym.map (·.digestAt)) 34
  listsDigest listed.bytes item.2
  let identifier ← item.1.read (nym.map (·.identifierAt)) mdocIdentifier.length
  expect identifier.bytes mdocIdentifier
  let committed ← item.1.read (nym.map (·.valueAt)) (mdocValue.length + 32)
  expect (committed.bytes.take mdocValue.length) mdocValue
  let ssc := (packBytes ((committed.bytes.drop mdocValue.length).take 16),
    packBytes ((committed.bytes.drop (mdocValue.length + 16)).take 16))
  commitmentAndSlots cells regions ssc

/-- The core circuit of the full statement, with the credential. -/
structure NymCore extends Nym.MdocNymCore where
  witness : Option MdocWitness

namespace NymCore

/-- A core without values, for setup. -/
def blank : NymCore := ⟨⟨none, none⟩, none⟩

/-- The rules that depend only on the credential: the age statement's, then the pseudonym's. -/
def precommitted [DecidableEq F] (constants : Constants F) (c : NymCore) (cells : Cells F V) :
    Circuit F V (List (AllocatedNum F V)) := do
  let part ← agePart constants cells c.witness fullMdoc
  let slots ← part.2.intoSlots
  let nymSlots ← nymRules cells part.1 c.witness fullMdoc
  pure (slots ++ nymSlots)

def rules [DecidableEq F] (constants : Constants F) (c : NymCore) (cells : Cells F V) : Circuit F V Unit := do
  let slots ← c.precommitted constants cells
  c.toMdocNymCore.synthesize constants slots

end NymCore

end Mdoc

/-! ## Whole circuits -/

/-- `table::allocate` of a table, or of none when setup only builds the shape. -/
def allocateTable (t : Option Table) : Circuit F V (List (AllocatedNum F V)) :=
  (List.range (cellsPerPosition * positions + 2)).mapM fun i =>
    AllocatedNum.alloc (assigned (t.map fun t => fromBe (t.cellBytes.getD i [])))

omit [One V] in
theorem allocateTable_some (t : Table) : (allocateTable (some t) : Circuit F V _) = allocate t := by
  have hcells := map_getD_range (d := []) (Table.length_cellBytes t)
  calc (allocateTable (some t) : Circuit F V _)
      = ((List.range (cellsPerPosition * positions + 2)).map fun i => t.cellBytes.getD i []).mapM fun bytes =>
          AllocatedNum.alloc (.ok (fromBe bytes)) := by rw [List.mapM_map]; rfl
    _ = allocate t := by rw [hcells]; rfl

def sharedCells (t : Option Table) : Circuit F V (Cells F V) := do
  let nums ← allocateTable t
  if h : nums.length = cellsPerPosition * positions + 2 then pure ⟨nums, h⟩ else .fail .panic

variable [ToRepr F]

/-- A step instance: the shared segment, and then its rules. -/
def stepCircuit (compress : Compression F V) (layout : Layout) (table : Option Table) (position : ℕ) :
    Circuit F V Unit := do
  let cells ← sharedCells table
  Step.precommitted compress cells layout position

/-- The core instance: the shared segment, and then the rules of its other two segments. -/
def coreCircuit [DecidableEq F] (constants : Constants F) (core : Mdoc.NymCore) (table : Option Table) :
    Circuit F V Unit := do
  let cells ← sharedCells table
  core.rules constants cells

end Gadgets

end ZkCredVega.Nym
