import ZkCredVega.Nym.Exact

/-!
# What the honest prover's core shows

The core circuit over the witness of `MdocWitness::full`. The prover's own values meet its rules exactly when both
signatures fit, the seed opens the commitment of the `ssc` item, and the credential's values are in the verifier's
windows and ranges.
-/

namespace ZkCredVega.Nym

open Circuits

/-- A whole number of `n` bits. -/
def Within (n : ℕ) (z : ℤ) : Prop := 0 ≤ z ∧ z < 2 ^ n

instance (n : ℕ) (z : ℤ) : Decidable (Within n z) := inferInstanceAs (Decidable (_ ∧ _))

namespace Mdoc

/-! ## What a credential says -/

namespace Located

variable (l : Located) (sigStructure item : List UInt8)

/-- The window that ends where the docType ends. -/
def typeBytes : List UInt8 := (⟨sigStructure, l.docType, docTypeWindow.len⟩ : Span).bytes

/-- The window that ends where the item's identifier ends. -/
def attributeBytes : List UInt8 := (⟨item, l.identifier, identifierWindow.len⟩ : Span).bytes

def birthNumber : ℤ := readNumber dateDigits (textAfter item l.value Mdoc.value 10)

def fromNumber : ℤ := readNumber dateTimeDigits (textAfter sigStructure l.validFrom Mdoc.validFrom 20)

def untilNumber : ℤ := readNumber dateTimeDigits (textAfter sigStructure l.validUntil Mdoc.validUntil 20)

/-- The 32 bytes of the `ssc` item's value. -/
def commitment (m : NymMessages) : List UInt8 := textAfter m.ssc l.sscValue mdocValue 32

/-- The birth date is in the verifier's range, and its time in the validity. -/
structure InTime (pub : Public) : Prop where
  bornFrom : Within 27 (l.birthNumber item - bornFromDigits pub.bornFrom)
  bornBy : Within 27 (pub.bornBy.digits - l.birthNumber item)
  started : Within 47 (pub.now.digits - l.fromNumber sigStructure)
  notExpired : Within 47 (l.untilNumber sigStructure - pub.now.digits - 1)

/-- What the credential must say for the verifier's values. -/
structure Says (m : NymMessages) (pub : Public) : Prop where
  deviceLabel : deviceLabelOf sigStructure l.deviceKey = deviceKeyY
  commitment : l.commitment m = Sha256.hash m.secretSeed.val
  credentialType : pub.request.credentialType.Matches (l.typeBytes sigStructure)
  attributeName : pub.request.attributeName.Matches (l.attributeBytes item)
  inTime : l.InTime sigStructure item pub

end Located

/-! ## The table of a credential -/

section Credential

variable {sigStructure item : List UInt8} {m : NymMessages} {l : Located} {table : Table} {cells : Cells Scalar Scalar}

/-- The cells of the table of a credential, whose values are at the places of the searches. -/
structure Tabled (l : Located) (sigStructure item : List UInt8) (m : NymMessages) (table : Table)
    (cells : Cells Scalar Scalar) : Prop where
  found : l.Found sigStructure item m
  built : Table.withMessages fullMdoc sigStructure l.skipped (messages item m) = .ok table
  ends : ∀ s ∈ l.spans sigStructure item m, s.Ends
  carries : cells.Carries .honest table

namespace Tabled

theorem sized (h : Tabled l sigStructure item m table cells) : table.Sized :=
  Table.withMessages_sized h.found.skipped_le.1 h.built

theorem digests (h : Tabled l sigStructure item m table cells) :
    table.states[fullMdoc.signed.first + (lastBlock sigStructure.length - l.skipped)]? = some (Sha256.hash sigStructure) ∧
      ∀ t ∈ messages item m, table.states[t.1.first + lastBlock t.2.length]? = some (Sha256.hash t.2) :=
  Table.withMessages_digests Table.wellFormed_fullMdoc h.found.skipped_le.1 messages_nodup messages_mem h.built

theorem succeeds_signed (h : Tabled l sigStructure item m table cells) :
    (Message.openRegion cells fullMdoc.signed (some (lastBlock sigStructure.length - l.skipped))).Succeeds
      (OpensTo table sigStructure (64 * l.skipped) (lastBlock sigStructure.length - l.skipped)) :=
  succeeds_openDigest h.carries h.sized (stores_signed h.found.skipped_le.1 h.built) h.digests.1

theorem succeeds_message (h : Tabled l sigStructure item m table cells) {t : Region × List UInt8}
    (ht : t ∈ messages item m) : (Message.openRegion cells t.1 (some (lastBlock t.2.length))).Succeeds
      (OpensTo table t.2 0 (lastBlock t.2.length)) :=
  succeeds_openDigest h.carries h.sized (stores_message h.found.skipped_le.1 h.built ht) (h.digests.2 t ht)

end Tabled

theorem span_listed {message item : List UInt8} {what : String} {first : ℕ}
    (h : find message (listed item) what = .ok first) : (⟨message, first, 34⟩ : Span).bytes =
      digestHead ++ Sha256.hash item := by
  have hlen : (listed item).length = 34 := by
    rw [listed, List.length_append, Sha256.length_hash]
    rfl
  have hbytes := find_bytes h
  rw [hlen] at hbytes
  exact hbytes

/-! ## The facts -/

structure FactsHold (facts : Facts Scalar Scalar) (key : PublicKey) (l : Located) (sigStructure item : List UInt8) :
    Prop where
  issuerX : facts.issuerKey.x.Holds .honest (fromBe key.x.val)
  issuerY : facts.issuerKey.y.Holds .honest (fromBe key.y.val)
  birthDate : facts.birthDate.Holds .honest ((l.birthNumber item : ℤ) : Scalar)
  validFrom : facts.validFrom.Holds .honest ((l.fromNumber sigStructure : ℤ) : Scalar)
  validUntil : facts.validUntil.Holds .honest ((l.untilNumber sigStructure : ℤ) : Scalar)
  deviceX : facts.deviceKey.x.Holds .honest (fromBe (deviceXOf sigStructure l.deviceKey))
  deviceY : facts.deviceKey.y.Holds .honest (fromBe (deviceYOf sigStructure l.deviceKey))
  typeBytes : HoldBytes .honest facts.windows.1 (l.typeBytes sigStructure)
  attributeBytes : HoldBytes .honest facts.windows.2 (l.attributeBytes item)

variable {constants : Constants Scalar} {A : p256.Point} {B : ℕ → p256.Point} {key : PublicKey} {issuer : Signature}
  {Q : p256.Point}

/-- The rules of the age part are met exactly when the issuer's signature fits and the device key's label stands. -/
theorem Tabled.honest_agePart_bind (h : Tabled l sigStructure item m table cells) (hc : constants.Hold A B)
    (hQ : At (fromBe key.x.val, fromBe key.y.val) Q) {α : Type}
    {f : Message Scalar Scalar × Facts Scalar Scalar → Circuit Scalar Scalar α} {ins : List Scalar} {r : α} {P : Prop}
    (hf : ∀ signed facts, Opens table sigStructure (64 * l.skipped) (lastBlock sigStructure.length - l.skipped) signed →
      FactsHold facts key l sigStructure item → ((f (signed, facts)).Honest ins r ↔ P)) :
    (agePart constants cells (some (l.witness sigStructure item m key issuer table)) fullMdoc >>= f).Honest ins r ↔
      issuer.Fits A B Q (bytesNat (Sha256.hash sigStructure)) ∧
        deviceLabelOf sigStructure l.deviceKey = deviceKeyY ∧ P := by
  obtain ⟨-, hoffsets⟩ := h.found.skipped_le
  simp only [Located.offsets, List.forall_mem_cons] at hoffsets
  obtain ⟨hdocType, hdigest, hdeviceKey, hvalidFrom, hvalidUntil, -⟩ := hoffsets
  have hends := h.ends
  simp only [Located.spans, List.forall_mem_cons] at hends
  obtain ⟨edocType, edigest, eidentifier, evalue, edeviceKey, evalidFrom, evalidUntil, -⟩ := hends
  have hplaces : ∀ i ∈ dateDigits, i < 10 := by decide
  unfold agePart
  simp only [bind_assoc]
  refine h.succeeds_signed.honest_bind_iff fun signed hsigned => ?_
  refine (h.succeeds_message (t := (⟨22, 2⟩, item)) List.mem_cons_self).honest_bind_iff fun opened hitem => ?_
  refine (succeeds_pointAlloc key).honest_bind_iff fun issuerKey hkey => ?_
  refine (yields_halves (Sha256.length_hash _) hsigned.high hsigned.low).succeeds.honest_bind_iff fun digest hbits => ?_
  have hverify : ∀ ins u, _ ↔ ins = [] ∧ issuer.Fits A B Q _ := fun ins u => honest_verify (u := u) hc hbits
    (by rw [length_bytesBits, Sha256.length_hash]) (holdsFor_of_at hkey.1 hkey.2 hQ) issuer
  rw [beBits_bytesBits] at hverify
  refine (Circuit.honest_rule_bind hverify).trans (and_congr_right fun _ => ?_)
  refine (hsigned.opens.succeeds_window hdocType (by decide) edocType).honest_bind_iff fun docType rdocType => ?_
  refine (hsigned.opens.succeeds_window hdigest (by decide) edigest).honest_bind_iff fun listed rlisted => ?_
  rw [span_listed h.found.digest] at rlisted
  refine (succeeds_listsDigest rlisted hitem.high hitem.low).honest_bind_iff fun _ _ => ?_
  refine (hitem.opens.succeeds_window (Nat.zero_le _) (by decide) eidentifier).honest_bind_iff fun identifier ridentifier => ?_
  refine (hitem.opens.succeeds_window (Nat.zero_le _) (by decide) evalue).honest_bind_iff fun dated rdated => ?_
  rw [span_keyed h.found.value] at rdated
  obtain ⟨hvalueKey, htext⟩ := holds_keyed rdated
  refine (succeeds_expect hvalueKey rfl).honest_bind_iff fun _ _ => ?_
  have hread := succeeds_readNumber htext dateDigits fun i hi => by
    rw [length_textAfter evalue]
    exact hplaces i hi
  refine hread.honest_bind_iff fun date hdate => ?_
  refine honest_readDeviceKey_bind hsigned.opens h.found.deviceKey hdeviceKey edeviceKey fun deviceKey hx hy => ?_
  refine (succeeds_dateTime hsigned.opens h.found.validFrom hvalidFrom evalidFrom).honest_bind_iff fun from_ hfrom => ?_
  refine (succeeds_dateTime hsigned.opens h.found.validUntil hvalidUntil evalidUntil).honest_bind_iff
    fun until_ huntil => ?_
  refine (succeeds_windowSlots rdocType).honest_bind_iff fun typeSlots htypeSlots => ?_
  refine (succeeds_windowSlots ridentifier).honest_bind_iff fun attributeSlots hattributeSlots => ?_
  rw [pure_bind]
  exact hf _ _ hsigned.opens ⟨hkey.1, hkey.2, hdate, hfrom, huntil, hx, hy, htypeSlots, hattributeSlots⟩

structure SlotsHold (f : FactSlots) (key : PublicKey) (l : Located) (sigStructure item : List UInt8) : Prop where
  issuerX : f.issuerX.val = fromBe key.x.val
  issuerY : f.issuerY.val = fromBe key.y.val
  birthDate : f.birthDate.val = ((l.birthNumber item : ℤ) : Scalar)
  validFrom : f.validFrom.val = ((l.fromNumber sigStructure : ℤ) : Scalar)
  validUntil : f.validUntil.val = ((l.untilNumber sigStructure : ℤ) : Scalar)
  deviceX : f.deviceX.val = fromBe (deviceXOf sigStructure l.deviceKey)
  deviceY : f.deviceY.val = fromBe (deviceYOf sigStructure l.deviceKey)
  typeBytes : HoldBytes .any f.typeBytes (l.typeBytes sigStructure)
  attributeBytes : HoldBytes .any f.attributeBytes (l.attributeBytes item)
  known : AllKnown f.slots

theorem FactsHold.succeeds_slots {facts : Facts Scalar Scalar} (h : FactsHold facts key l sigStructure item) :
    facts.intoSlots.Succeeds fun slots => ∃ f : FactSlots, slots = f.slots ∧ SlotsHold f key l sigStructure item := by
  have hbase : List.Forall₂ (Lc.Holds .honest) facts.base [fromBe key.x.val, fromBe key.y.val,
      ((l.birthNumber item : ℤ) : Scalar), ((l.fromNumber sigStructure : ℤ) : Scalar),
      ((l.untilNumber sigStructure : ℤ) : Scalar), fromBe (deviceXOf sigStructure l.deviceKey),
      fromBe (deviceYOf sigStructure l.deviceKey)] :=
    .cons h.issuerX (.cons h.issuerY (.cons h.birthDate (.cons h.validFrom (.cons h.validUntil
      (.cons h.deviceX (.cons h.deviceY .nil))))))
  refine (succeeds_toNums hbase).bind fun slots hslots => Circuit.succeeds_pure.mpr ?_
  obtain ⟨issuerX, s1, hissuerX, h1, rfl⟩ := List.forall₂_cons_right_iff.mp hslots
  obtain ⟨issuerY, s2, hissuerY, h2, rfl⟩ := List.forall₂_cons_right_iff.mp h1
  obtain ⟨birthDate, s3, hbirthDate, h3, rfl⟩ := List.forall₂_cons_right_iff.mp h2
  obtain ⟨validFrom, s4, hvalidFrom, h4, rfl⟩ := List.forall₂_cons_right_iff.mp h3
  obtain ⟨validUntil, s5, hvalidUntil, h5, rfl⟩ := List.forall₂_cons_right_iff.mp h4
  obtain ⟨deviceX, s6, hdeviceX, h6, rfl⟩ := List.forall₂_cons_right_iff.mp h5
  obtain ⟨deviceY, s7, hdeviceY, h7, rfl⟩ := List.forall₂_cons_right_iff.mp h6
  obtain rfl := List.forall₂_nil_right_iff.mp h7
  refine ⟨⟨issuerX, issuerY, birthDate, validFrom, validUntil, deviceX, deviceY, facts.windows.1, facts.windows.2⟩, ?_,
    hissuerX.val_eq, hissuerY.val_eq, hbirthDate.val_eq, hvalidFrom.val_eq, hvalidUntil.val_eq, hdeviceX.val_eq,
    hdeviceY.val_eq, HoldBytes.any h.typeBytes, HoldBytes.any h.attributeBytes, ?_⟩
  · rw [FactSlots.slots, ← List.append_assoc]
  · intro n hn
    rcases List.mem_append.mp hn with hn | hn
    · exact AllKnown.of_held (g := id) hslots n hn
    rcases List.mem_append.mp hn with hn | hn
    · exact AllKnown.of_held h.typeBytes n hn
    · exact AllKnown.of_held h.attributeBytes n hn

/-! ## The pseudonym -/

/-- The pseudonym's public values, as the prover computes them. -/
def nymPublic (m : NymMessages) : NymPublic :=
  ⟨m.verifierInput, ⟨pseudonym m.secretSeed m.verifierInput, Sha256.length_hash _⟩⟩

namespace Tabled

variable (h : Tabled l sigStructure item m table cells)

include h

theorem block_eq {t : Region × List UInt8} (ht : t ∈ messages item m) {j : ℕ} (hj : j < (chunks 64 (pad t.2)).length) :
    table.blocks[t.1.first + j]? = (chunks 64 (pad t.2))[j]? := by
  obtain ⟨-, hplaced⟩ :=
    Table.withMessages_contents Table.wellFormed_fullMdoc messages_nodup messages_mem h.built
  have hmem : (t.1, pad t.2) ∈ Table.padded fullMdoc sigStructure l.skipped (messages item m) :=
    List.mem_cons_of_mem _ (List.mem_map.mpr ⟨t, ht, rfl⟩)
  exact hplaced _ hmem j hj

theorem stateValue_eq {t : Region × List UInt8} (ht : t ∈ messages item m) {i : ℕ} (hi : i < 2) :
    Message.stateValue cells (t.1.first + lastBlock t.2.length) i = fromBe (halfOf (Sha256.hash t.2) i) := by
  have hstores := stores_message h.found.skipped_le.1 h.built ht
  have hrange := hstores.in_range
  have hlast := hstores.last_lt
  rw [h.carries.stateValue_eq (by omega) hi, List.getD_eq_getElem?_getD, h.digests.2 t ht]
  rfl

/-- The cells hold the seed, and the facts of the pseudonym are its public values. -/
theorem holdsSeed : cells.HoldsSeed fullRegions m.secretSeed ∧
    cells.nymFacts fullRegions = (nymPublic m).slotValues := by
  have hseed : ((⟨30, 1⟩ : Region), m.secretSeed.val) ∈ messages item m := by simp [messages]
  have hnym : ((⟨28, 2⟩ : Region), m.message) ∈ messages item m := by simp [messages]
  have hseedBlock : table.blocks[fullRegions.seed.first]? = some (pad m.secretSeed.val) := by
    have hblock := h.block_eq hseed (j := 0)
    rw [chunks_pad_seed] at hblock
    exact hblock Nat.one_pos
  obtain ⟨hholds, hfacts⟩ := h.carries.holdsSeed h.sized hseedBlock fun a b ha hb hpad => by
    have hpad : pad m.message = a ++ b := hpad
    have hblock := fun j => h.block_eq hnym (j := j)
    rw [hpad, chunks_two ha hb] at hblock
    exact ⟨hblock 0 Nat.two_pos, hblock 1 Nat.one_lt_two⟩
  refine ⟨hholds, hfacts.trans ?_⟩
  have hlen : m.message.length = 119 := length_message m.secretSeed m.verifierInput
  have hstate := fun i hi => h.stateValue_eq hnym (i := i) hi
  rw [hlen] at hstate
  have hlow : halfOf (pseudonym m.secretSeed m.verifierInput) 1 = (pseudonym m.secretSeed m.verifierInput).drop 16 :=
    List.take_of_length_le (by rw [List.length_drop, pseudonym, Sha256.length_hash]; decide)
  have hhigh := hstate 0 (by decide)
  have hlast := (hstate 1 (by decide)).trans (congrArg fromBe hlow)
  rw [NymPublic.slotValues]
  exact congrArg₂ (fun p q => [_, _, _, p, q]) hhigh hlast

/-- The rules of the pseudonym are met exactly when the `ssc` item's value is the seed's digest. -/
theorem honest_nymRules_bind {signed : Message Scalar Scalar}
    (hsigned : Opens table sigStructure (64 * l.skipped) (lastBlock sigStructure.length - l.skipped) signed)
    {key : PublicKey} {issuer : Signature} {α : Type} {f : List (AllocatedNum Scalar Scalar) → Circuit Scalar Scalar α}
    {ins : List Scalar} {r : α} {P : Prop}
    (hf : ∀ slots, slots.map AllocatedNum.val = (nymPublic m).slotValues → ((f slots).Honest ins r ↔ P)) :
    (nymRules cells signed (some (l.witness sigStructure item m key issuer table)) fullMdoc >>= f).Honest ins r ↔
      l.commitment m = Sha256.hash m.secretSeed.val ∧ P := by
  obtain ⟨-, hoffsets⟩ := h.found.skipped_le
  simp only [Located.offsets, List.forall_mem_cons] at hoffsets
  obtain ⟨-, -, -, -, -, hsscDigest, -⟩ := hoffsets
  have hends := h.ends
  simp only [Located.spans, List.forall_mem_cons] at hends
  obtain ⟨-, -, -, -, -, -, -, esscDigest, esscIdentifier, esscValue, -⟩ := hends
  obtain ⟨hholds, hfacts⟩ := h.holdsSeed
  have hssc : ((⟨24, 3⟩ : Region), m.ssc) ∈ messages item m := by simp [messages]
  have hseed : ((⟨30, 1⟩ : Region), m.secretSeed.val) ∈ messages item m := by simp [messages]
  have hregions : (pseudonymRegions fullMdoc : Circuit Scalar Scalar _) = pure fullRegions := rfl
  have hnym : (nymOf (some (l.witness sigStructure item m key issuer table)) : Circuit Scalar Scalar _) =
      pure (some (l.nym m)) := rfl
  unfold nymRules
  simp only [hregions, hnym, pure_bind, bind_assoc]
  refine (h.succeeds_message hssc).honest_bind_iff fun opened hopened => ?_
  refine (hsigned.succeeds_window hsscDigest (by decide) esscDigest).honest_bind_iff fun listed rlisted => ?_
  rw [span_listed h.found.sscDigest] at rlisted
  refine (succeeds_listsDigest rlisted hopened.high hopened.low).honest_bind_iff fun _ _ => ?_
  refine (hopened.opens.succeeds_window (Nat.zero_le _) (by decide) esscIdentifier).honest_bind_iff
    fun identifier ridentifier => ?_
  refine (succeeds_expect ridentifier (find_bytes h.found.sscIdentifier)).honest_bind_iff fun _ _ => ?_
  refine (hopened.opens.succeeds_window (Nat.zero_le _) (by decide) esscValue).honest_bind_iff fun committed rcommitted => ?_
  rw [span_keyed h.found.sscValue] at rcommitted
  obtain ⟨hkey, htext⟩ := holds_keyed rcommitted
  refine (succeeds_expect hkey rfl).honest_bind_iff fun _ _ => ?_
  have hhigh : (packBytes ((committed.bytes.drop mdocValue.length).take 16)).lc.eval = fromBe (halfOf (l.commitment m) 0) :=
    (holds_packSlice htext 0 16).eval_eq
  have hlow := (holds_packSlice htext 16 16).eval_eq
  rw [List.drop_drop] at hlow
  have hlow : (packBytes ((committed.bytes.drop (mdocValue.length + 16)).take 16)).lc.eval =
      fromBe (halfOf (l.commitment m) 1) := hlow
  have hdigest : ∀ i < 2, Message.stateValue cells fullRegions.seed.first i =
      fromBe (halfOf (Sha256.hash m.secretSeed.val) i) := by
    intro i hi
    have hstate := h.stateValue_eq hseed hi
    rw [m.secretSeed.property] at hstate
    exact hstate
  refine (honest_commitmentAndSlots_bind (h.carries.holds h.sized) (by decide) (by decide) hholds (Q := P)
    fun slots hslots => hf slots ?_).trans (and_congr_left fun _ => ?_)
  · rw [← hfacts]
    exact List.forall₂_eq_eq_eq ▸ (List.forall₂_map_left_iff.mpr (hslots.imp fun _ _ hn => hn.val_eq))
  · rw [hhigh, hlow, hdigest 0 (by decide), hdigest 1 (by decide)]
    constructor
    · rintro ⟨hfirst, hlast⟩
      refine eq_of_halves (length_textAfter esscValue) (Sha256.length_hash _) fun i hi => ?_
      rcases (by omega : i = 0 ∨ i = 1) with rfl | rfl
      · exact hfirst.symm
      · exact hlast.symm
    · intro heq
      rw [heq]
      exact ⟨rfl, rfl⟩

end Tabled

/-! ## The verifier's ranges -/

/-- The differences of a number that was read and a small one do not wrap. -/
theorem inRange_sub_iff {places : List ℕ} {text : List UInt8} {n k : ℕ} (hn : n < 254) (hplaces : places.length ≤ 14)
    (hk : k ≤ 10 ^ 14) : (InRange n (((readNumber places text : ℤ) : Scalar) - (k : Scalar)) ↔
      Within n (readNumber places text - k)) ∧
    (InRange n ((k : Scalar) - ((readNumber places text : ℤ) : Scalar)) ↔ Within n (k - readNumber places text)) := by
  have hsmall := abs_readNumber_lt hplaces text
  rw [abs_lt] at hsmall
  rw [Within, Within, ← inRange_int_iff hn (by rw [abs_lt]; omega), ← inRange_int_iff hn (by rw [abs_lt]; omega)]
  push_cast
  exact ⟨Iff.rfl, Iff.rfl⟩

variable {s : Statement} {pub : Public}

/-- The ranges over the slots of a credential are those of its numbers. -/
theorem SlotsHold.ranges_iff {f : FactSlots} (hf : SlotsHold f key l sigStructure item)
    (hpub : Accepted s pub m.verifierInput) : f.Ranges pub ↔ l.InTime sigStructure item pub := by
  have hdate : 10 ^ 8 < 10 ^ 14 := by decide
  have hearliest := ((bornFromDigits_lt hpub.earliest).trans hdate).le
  have hlatest := ((date_valid hpub.cutoff).digits_lt.trans hdate).le
  have hnow := (time_valid hpub.now).digits_lt
  have hborn : InRange 27 (f.birthDate.val - (bornFromDigits pub.bornFrom : Scalar)) ↔
      Within 27 (l.birthNumber item - bornFromDigits pub.bornFrom) := by
    rw [hf.birthDate]
    exact (inRange_sub_iff (by decide) (by decide) hearliest).1
  have hbefore : InRange 27 ((pub.bornBy.digits : Scalar) - f.birthDate.val) ↔
      Within 27 (pub.bornBy.digits - l.birthNumber item) := by
    rw [hf.birthDate]
    exact (inRange_sub_iff (by decide) (by decide) hlatest).2
  have hstarted : InRange 47 ((pub.now.digits : Scalar) - f.validFrom.val) ↔
      Within 47 (pub.now.digits - l.fromNumber sigStructure) := by
    rw [hf.validFrom]
    exact (inRange_sub_iff (by decide) (by decide) hnow.le).2
  have hended : InRange 47 (f.validUntil.val - (pub.now.digits : Scalar) - 1) ↔
      Within 47 (l.untilNumber sigStructure - pub.now.digits - 1) := by
    rw [hf.validUntil, sub_sub, ← Nat.cast_succ, sub_sub, ← Nat.cast_succ]
    exact (inRange_sub_iff (by decide) (by decide) hnow).1
  constructor
  · rintro ⟨h1, h2, h3, h4⟩
    exact ⟨hborn.mp h1, hbefore.mp h2, hstarted.mp h3, hended.mp h4⟩
  · rintro ⟨h1, h2, h3, h4⟩
    exact ⟨hborn.mpr h1, hbefore.mpr h2, hstarted.mpr h3, hended.mpr h4⟩

/-! ## The core -/

/-- The core that the prover synthesizes from a witness. -/
def coreOf (pub : Public) (device : Signature) (m : NymMessages) (w : MdocWitness) : NymCore :=
  ⟨⟨some ⟨pub, device⟩, some (nymPublic m)⟩, some w⟩

/-- The core's rules over the cells of a credential's table, exactly. -/
theorem Tabled.honest_rules (h : Tabled l sigStructure item m table cells) (hc : constants.Hold A B)
    (hpub : Accepted s pub m.verifierInput) (hQ : At (fromBe pub.issuerKey.x.val, fromBe pub.issuerKey.y.val) Q)
    {D : p256.Point}
    (hD : At (fromBe (deviceXOf sigStructure l.deviceKey), fromBe (deviceYOf sigStructure l.deviceKey)) D)
    (device : Signature) {ins : List Scalar} {u : Unit} :
    ((coreOf pub device m (l.witness sigStructure item m pub.issuerKey issuer table)).rules constants cells).Honest ins u ↔
      ins = pub.values ++ (nymPublic m).values ∧ issuer.Fits A B Q (bytesNat (Sha256.hash sigStructure)) ∧
        l.Says sigStructure item m pub ∧ device.Fits A B D (bytesNat pub.challenge.val) := by
  have hends := h.ends
  simp only [Located.spans, List.forall_mem_cons] at hends
  obtain ⟨edocType, -, eidentifier, -⟩ := hends
  unfold NymCore.rules NymCore.precommitted
  simp only [bind_assoc]
  -- what is left of the rules once the facts and the pseudonym are in slots
  refine (h.honest_agePart_bind hc hQ (P := l.commitment m = Sha256.hash m.secretSeed.val ∧
    ins = pub.values ++ (nymPublic m).values ∧ (pub.request.credentialType.Matches (l.typeBytes sigStructure) ∧
      pub.request.attributeName.Matches (l.attributeBytes item)) ∧ l.InTime sigStructure item pub ∧
        device.Fits A B D (bytesNat pub.challenge.val)) fun signed facts hsigned hfacts => ?_).trans ?_
  · refine hfacts.succeeds_slots.honest_bind_iff fun slots hslots => ?_
    obtain ⟨f, rfl, hf⟩ := hslots
    refine h.honest_nymRules_bind hsigned fun nymSlots hnymSlots => ?_
    rw [pure_bind]
    have hwindows : f.HoldWindows ⟨lastDay, noon, afterNoon, l.typeBytes sigStructure, l.attributeBytes item⟩ windows :=
      ⟨hf.typeBytes, hf.attributeBytes, edocType.length_bytes, eidentifier.length_bytes⟩
    have hdevice : At (f.deviceX.val, f.deviceY.val) D := by
      rw [hf.deviceX, hf.deviceY]
      exact hD
    refine (hwindows.honest_synthesize (p := ⟨pub, device⟩) hc hpub.windows hf.known hdevice).trans ?_
    rw [hf.ranges_iff hpub]
    constructor
    · rintro ⟨hins, ⟨hnamed, hranges, hfits⟩, -⟩
      exact ⟨hins, ⟨hnamed.credentialType, hnamed.attributeName⟩, hranges, hfits⟩
    · rintro ⟨hins, ⟨htype, hattribute⟩, hranges, hfits⟩
      exact ⟨hins, ⟨⟨hf.issuerX, hf.issuerY, htype, hattribute⟩, hranges, hfits⟩, hnymSlots⟩
  · constructor
    · rintro ⟨hissuer, hlabel, hcommits, hins, ⟨htype, hattribute⟩, hinTime, hfits⟩
      exact ⟨hins, hissuer, ⟨hlabel, hcommits, htype, hattribute, hinTime⟩, hfits⟩
    · rintro ⟨hins, hissuer, ⟨hlabel, hcommits, htype, hattribute, hinTime⟩, hfits⟩
      exact ⟨hissuer, hlabel, hcommits, hins, ⟨htype, hattribute⟩, hinTime, hfits⟩

theorem Tabled.honest_step (gadget : CompressionGadget Scalar) (h : Tabled l sigStructure item m table cells) {j : ℕ}
    (hj : j < positions) : (Step.precommitted gadget.compress cells fullMdoc j).Honest [(j : Scalar)] () := by
  have hstep := Table.withMessages_stepHolds Table.wellFormed_fullMdoc startsAtZero_fullMdoc h.found.skipped_le.1 h.built hj
  exact honest_precommitted gadget h.carries h.sized startsAtZero_fullMdoc hj hstep

theorem succeeds_sharedCells (t : Table) :
    (sharedCells (some t) : Circuit Scalar Scalar _).Succeeds (·.Carries .honest t) := by
  unfold sharedCells
  rw [allocateTable_some]
  refine (succeeds_allocate t).bind fun nums hnums => ?_
  have hcount : nums.length = cellsPerPosition * positions + 2 :=
    hnums.length_eq.trans (Table.length_cellBytes t)
  rw [dif_pos hcount]
  exact Circuit.succeeds_pure.mpr hnums

theorem honest_coreCircuit (hl : l.Found sigStructure item m)
    (htable : Table.withMessages fullMdoc sigStructure l.skipped (messages item m) = .ok table)
    (hends : ∀ span ∈ l.spans sigStructure item m, span.Ends) (hc : constants.Hold A B)
    (hpub : Accepted s pub m.verifierInput) (hQ : At (fromBe pub.issuerKey.x.val, fromBe pub.issuerKey.y.val) Q)
    {D : p256.Point}
    (hD : At (fromBe (deviceXOf sigStructure l.deviceKey), fromBe (deviceYOf sigStructure l.deviceKey)) D)
    (device : Signature) {ins : List Scalar} {u : Unit} :
    (coreCircuit constants (coreOf pub device m (l.witness sigStructure item m pub.issuerKey issuer table))
        (some table)).Honest ins u ↔
      ins = pub.values ++ (nymPublic m).values ∧ issuer.Fits A B Q (bytesNat (Sha256.hash sigStructure)) ∧
        l.Says sigStructure item m pub ∧ device.Fits A B D (bytesNat pub.challenge.val) :=
  (succeeds_sharedCells table).honest_bind_iff fun _ hcarries =>
    Tabled.honest_rules ⟨hl, htable, hends, hcarries⟩ hc hpub hQ hD device

end Credential

/-- The issuer key of an accepted statement is a finite point of P-256. -/
theorem exists_issuerPoint {s : Statement} {circuit : ApprovedCircuit} {pub : Public} {verifierInput : Bytes 32}
    (h : publicOf s circuit = .ok (pub, verifierInput)) :
    ∃ Q : p256.Point, At (fromBe pub.issuerKey.x.val, fromBe pub.issuerKey.y.val) Q := by
  obtain ⟨x, hx, h⟩ := bind_eq_ok_iff.mp h
  obtain ⟨y, hy, h⟩ := bind_eq_ok_iff.mp h
  obtain ⟨_, hkey, h⟩ := bind_eq_ok_iff.mp h
  have hpub : pub.issuerKey = ⟨x, y⟩ := by
    obtain ⟨_, -, h⟩ := bind_eq_ok_iff.mp h
    obtain ⟨_, -, h⟩ := bind_eq_ok_iff.mp h
    obtain ⟨_, -, h⟩ := bind_eq_ok_iff.mp h
    obtain ⟨_, -, h⟩ := bind_eq_ok_iff.mp h
    obtain ⟨_, -, h⟩ := bind_eq_ok_iff.mp h
    obtain ⟨_, -, h⟩ := bind_eq_ok_iff.mp h
    obtain ⟨_, -, h⟩ := bind_eq_ok_iff.mp h
    cases h
    rfl
  unfold checkIssuerKey at hkey
  split at hkey
  · next hvalid =>
    have hcurve : ((bytesNat y.val ^ 2 : ℕ) : Scalar) =
        ((bytesNat x.val ^ 3 + (fieldModulus - 3) * bytesNat x.val + curveB : ℕ) : Scalar) :=
      (CharP.natCast_eq_natCast Scalar fieldModulus).mpr hvalid.2.2
    have hthree : ((fieldModulus - 3 : ℕ) : Scalar) = -3 := by
      rw [Nat.cast_sub (by decide), CharP.cast_eq_zero Scalar fieldModulus]
      norm_num
    have hequation : p256.Equation (fromBe x.val : Scalar) (fromBe y.val) := by
      rw [Nat.cast_add, Nat.cast_add, Nat.cast_mul, hthree] at hcurve
      push_cast at hcurve
      rw [WeierstrassCurve.Affine.equation_iff]
      simp only [weierstrass, curveParams, fromBe]
      have hb : (curveB : Scalar) = (curveCoefficient : Scalar) := rfl
      rw [hb] at hcurve
      linear_combination hcurve
    rw [hpub]
    exact ⟨_, p256_nonsingular hequation, rfl⟩
  · cases hkey

/-- For a statement that is accepted and a witness that was built: the witness's table meets every step, and the core's
rules are met exactly when both signatures fit, the credential says what the statement asks, and the values are the
statement's and the pseudonym's. -/
theorem core_exact (gadget : CompressionGadget Scalar) {constants : Constants Scalar} {A : p256.Point}
    {B : ℕ → p256.Point} (hc : constants.Hold A B) {s : Statement} {circuit : ApprovedCircuit} {pub : Public}
    {sigStructure item : List UInt8} {m : NymMessages} {issuer : Signature} {w : MdocWitness} {l : Located}
    (hpub : publicOf s circuit = .ok (pub, m.verifierInput))
    (hw : MdocWitness.full sigStructure item m pub.issuerKey issuer = .ok w) (hl : l.Found sigStructure item m)
    (hends : ∀ span ∈ l.spans sigStructure item m, span.Ends) {D : p256.Point}
    (hD : At (fromBe (deviceXOf sigStructure l.deviceKey), fromBe (deviceYOf sigStructure l.deviceKey)) D) :
    (∀ j < positions, (stepCircuit gadget.compress fullMdoc (some w.table) j).Honest [(j : Scalar)] ()) ∧
      ∃ Q, At (fromBe pub.issuerKey.x.val, fromBe pub.issuerKey.y.val) Q ∧ ∀ (device : Signature) (ins : List Scalar),
        (coreCircuit constants (coreOf pub device m w) (some w.table)).Honest ins () ↔
          ins = pub.values ++ (nymPublic m).values ∧ issuer.Fits A B Q (bytesNat (Sha256.hash sigStructure)) ∧
            l.Says sigStructure item m pub ∧ device.Fits A B D (bytesNat pub.challenge.val) := by
  obtain ⟨l', table, hl', htable, rfl⟩ := MdocWitness.full_ok hw
  obtain rfl := hl.unique hl'
  obtain ⟨Q, hQ⟩ := exists_issuerPoint hpub
  refine ⟨fun j hj => ?_, Q, hQ, fun device ins => honest_coreCircuit hl htable hends hc (publicOf_eq_ok hpub) hQ hD device⟩
  obtain ⟨cells, hcells, hcarries⟩ := succeeds_sharedCells table
  have hstep := Tabled.honest_step gadget ⟨hl, htable, hends, hcarries⟩ hj
  exact Circuit.honest_bind.mpr ⟨[], _, cells, rfl, hcells, hstep⟩

/-! ## A credential -/

def sevensHash : List UInt8 :=
  [0xd7, 0x61, 0xd4, 0x06, 0xaf, 0x2a, 0x4a, 0x5a, 0x15, 0xf6, 0x7c, 0x92, 0x43, 0x78, 0xed, 0x88, 0xd1, 0xf8, 0x5c,
    0x13, 0xf1, 0xa3, 0x7f, 0xc7, 0x36, 0x6f, 0x59, 0x78, 0x9b, 0x3b, 0xcd, 0x65]

def adultItem : List UInt8 :=
  List.replicate 40 0 ++ identifierKey ++ (0x6a :: utf8 "birth_date") ++ value ++ utf8 "2000-01-01"

def adultItemDigest : List UInt8 :=
  [0x78, 0x72, 0x47, 0x94, 0xc6, 0x20, 0xe4, 0x9e, 0x48, 0xf1, 0x79, 0xa3, 0xef, 0x00, 0x7e, 0x77, 0x3d, 0x47, 0xa9,
    0xed, 0x3f, 0x54, 0xe0, 0xa0, 0xa9, 0x8a, 0x6b, 0x3a, 0x95, 0xd5, 0xe4, 0xee]

def adultSsc : List UInt8 := mdocIdentifier ++ mdocValue ++ sevensHash

def adultSscDigest : List UInt8 :=
  [0x30, 0x18, 0x26, 0xe1, 0xa4, 0xe8, 0x44, 0x0e, 0xb9, 0xae, 0xbe, 0x9d, 0x44, 0xac, 0x71, 0xd7, 0x67, 0xc7, 0x5e,
    0x08, 0x03, 0x21, 0xb4, 0x72, 0x3d, 0x59, 0x56, 0x7b, 0x84, 0xc0, 0xd6, 0xee]

def adultSigStructure : List UInt8 :=
  List.replicate 48 0 ++ docTypeKey ++ (0x78 :: 0x1c :: utf8 "eu.europa.ec.eudi.nym_auth.1") ++
    digestHead ++ adultItemDigest ++ digestHead ++ adultSscDigest ++
    deviceKey ++ generatorXBytes ++ deviceKeyY ++ generatorYBytes ++
    validFrom ++ utf8 "2026-01-01T00:00:00Z" ++ validUntil ++ utf8 "2027-01-01T00:00:00Z"

def adultDigest : List UInt8 :=
  [0x18, 0x9c, 0xfb, 0xa8, 0x19, 0x04, 0xed, 0x67, 0x5b, 0xa7, 0x9a, 0x3d, 0xa3, 0x94, 0x14, 0xa3, 0x0a, 0x9b, 0x03,
    0x76, 0xbb, 0xe5, 0xba, 0x64, 0x49, 0x16, 0xb8, 0xd8, 0xa5, 0xd7, 0xd5, 0x8a]

def adultMessages : NymMessages := ⟨adultSsc, sevens, nines⟩

def adultLocated : Located := ⟨38, 86, 154, 239, 271, 120, 29, 69, 0, 22⟩

theorem hash_adult : (Sha256.hash sevens.val = sevensHash ∧ Sha256.hash adultItem = adultItemDigest) ∧
    Sha256.hash adultSsc = adultSscDigest ∧ Sha256.hash adultSigStructure = adultDigest :=
  ⟨⟨by decide +kernel, by decide +kernel⟩, by decide +kernel, by decide +kernel⟩

theorem found_adult : adultLocated.Found adultSigStructure adultItem adultMessages := by
  obtain ⟨⟨-, hitem⟩, hssc, -⟩ := hash_adult
  have hlisted : listed adultItem = digestHead ++ adultItemDigest := by rw [listed, hitem]
  have hlisted' : listed adultMessages.ssc = digestHead ++ adultSscDigest := by
    rw [listed, ← hssc]
    rfl
  refine ⟨by decide +kernel, ?_, by decide +kernel, by decide +kernel, by decide +kernel, ?_, by decide +kernel,
    by decide +kernel, by decide +kernel, by decide +kernel⟩
  · rw [hlisted]
    decide +kernel
  · rw [hlisted']
    decide +kernel

/-- The fields end inside the signed bytes, the messages fit their regions, and the device key is the generator. -/
theorem sized_adult : ((∀ s ∈ adultLocated.spans adultSigStructure adultItem adultMessages, s.Ends) ∧
      ∀ t ∈ Table.padded fullMdoc adultSigStructure adultLocated.skipped (messages adultItem adultMessages), Fits t) ∧
    deviceXOf adultSigStructure adultLocated.deviceKey = generatorXBytes ∧
    deviceYOf adultSigStructure adultLocated.deviceKey = generatorYBytes := by decide +kernel

/-- The issuer's signature takes the credential's digest to the generator. -/
def adultIssuer : Signature :=
  generatorXSignature 0x1000d4cdf9d7e33025423f9f805904c5dbb7b91c1565d13ca742f7d66c04536c

/-- The device's signature takes the challenge to the generator. -/
def adultDevice : Signature :=
  generatorXSignature 0x606b9eca9d84555e764bb648ff6962203f52e5c8a7d27d4637eedc60d3fe2e11

theorem fits_adult : adultIssuer.Fits generator (fun _ => generator) generator
      (bytesNat (Sha256.hash adultSigStructure)) ∧
    adultDevice.Fits generator (fun _ => generator) generator (bytesNat (List.replicate 32 7)) := by
  have hz : bytesNat adultDigest = 0x189cfba81904ed675ba79a3da39414a30a9b0376bbe5ba644916b8d8a5d7d58a := by decide
  have hz' : bytesNat (List.replicate 32 7) = 0x0707070707070707070707070707070707070707070707070707070707070707 := by decide
  rw [hash_adult.2.2, hz, hz']
  exact ⟨fits_generatorXSignature (by decide) (by decide) (by decide +kernel)
      (walks_beBytes (by decide) (by decide) (by decide +kernel)),
    fits_generatorXSignature (by decide) (by decide) (by decide +kernel)
      (walks_beBytes (by decide) (by decide) (by decide +kernel))⟩

theorem says_adult : ∃ pub, publicOf adultStatement nymauthMdocV1 = .ok (pub, adultMessages.verifierInput) ∧
    adultLocated.Says adultSigStructure adultItem adultMessages pub := by
  have hok : (publicOf adultStatement nymauthMdocV1).isOk := by decide +kernel
  have hsays : ∀ t ∈ (publicOf adultStatement nymauthMdocV1).toOption,
      (t.1.request.credentialType.Matches (adultLocated.typeBytes adultSigStructure) ∧
        t.1.request.attributeName.Matches (adultLocated.attributeBytes adultItem)) ∧
      (Within 27 (adultLocated.birthNumber adultItem - bornFromDigits t.1.bornFrom) ∧
        Within 27 (t.1.bornBy.digits - adultLocated.birthNumber adultItem)) ∧
      Within 47 (t.1.now.digits - adultLocated.fromNumber adultSigStructure) ∧
      Within 47 (adultLocated.untilNumber adultSigStructure - t.1.now.digits - 1) := by decide +kernel
  have hcommits : adultLocated.commitment adultMessages = sevensHash := by decide +kernel
  cases h : publicOf adultStatement nymauthMdocV1 with
  | error e =>
    rw [h] at hok
    cases hok
  | ok t =>
    obtain ⟨pub, input⟩ := t
    have hinput : input = adultMessages.verifierInput := Subtype.ext (publicOf_eq_ok h).verifierInput
    rw [h] at hsays
    obtain ⟨⟨htype, hattribute⟩, ⟨hborn, hbefore⟩, hstarted, hended⟩ := hsays _ rfl
    exact ⟨pub, by rw [hinput],
      by decide +kernel, hcommits.trans hash_adult.1.1.symm, htype, hattribute, ⟨hborn, hbefore, hstarted, hended⟩⟩

/-- All that `core_exact` asks of one holder's credential, with the generator for both keys. -/
structure Adult (pub : Public) (w : MdocWitness) : Prop where
  named : publicOf adultStatement nymauthMdocV1 = .ok (pub, adultMessages.verifierInput)
  built : MdocWitness.full adultSigStructure adultItem adultMessages pub.issuerKey adultIssuer = .ok w
  ends : ∀ span ∈ adultLocated.spans adultSigStructure adultItem adultMessages, span.Ends
  issuerKey : At ((fromBe pub.issuerKey.x.val : Scalar), fromBe pub.issuerKey.y.val) generator
  deviceKey : At ((fromBe (deviceXOf adultSigStructure adultLocated.deviceKey) : Scalar),
    fromBe (deviceYOf adultSigStructure adultLocated.deviceKey)) generator
  issuer : adultIssuer.Fits generator (fun _ => generator) generator (bytesNat (Sha256.hash adultSigStructure))
  stated : adultLocated.Says adultSigStructure adultItem adultMessages pub
  device : adultDevice.Fits generator (fun _ => generator) generator (bytesNat pub.challenge.val)

theorem exists_adult : ∃ pub w, Adult pub w := by
  obtain ⟨pub, hpub, hsays⟩ := says_adult
  obtain ⟨⟨hends, hfits⟩, hdeviceX, hdeviceY⟩ := sized_adult
  obtain ⟨table, htable, -⟩ :=
    Table.withMessages_of_fits Table.wellFormed_fullMdoc messages_nodup messages_mem hfits
  have hX : (fromBe generatorXBytes : Scalar) = (ZkCredVega.generatorX : Scalar) := by
    rw [fromBe]
    exact congrArg Nat.cast (by decide)
  have hY : (fromBe generatorYBytes : Scalar) = (ZkCredVega.generatorY : Scalar) := by
    rw [fromBe]
    exact congrArg Nat.cast (by decide)
  have hgenerator : At ((fromBe generatorXBytes : Scalar), fromBe generatorYBytes) generator := by
    rw [hX, hY]
    exact ⟨_, rfl⟩
  have haccepted := publicOf_eq_ok hpub
  refine ⟨pub, _, hpub, found_adult.full pub.issuerKey adultIssuer htable, hends, ?_, ?_, fits_adult.1, hsays, ?_⟩
  · rwa [haccepted.issuerKeyX, haccepted.issuerKeyY]
  · rwa [hdeviceX, hdeviceY]
  · rw [haccepted.challenge]
    exact fits_adult.2

/-- The honest prover's run over the credential of one holder. -/
theorem core_exact_adult : ∃ (constants : Constants Scalar) (pub : Public) (w : MdocWitness),
    publicOf adultStatement nymauthMdocV1 = .ok (pub, adultMessages.verifierInput) ∧
    MdocWitness.full adultSigStructure adultItem adultMessages pub.issuerKey adultIssuer = .ok w ∧
    (∀ j < positions, (stepCircuit readingGadget.compress fullMdoc (some w.table) j).Honest [(j : Scalar)] ()) ∧
    (coreCircuit constants (coreOf pub adultDevice adultMessages w) (some w.table)).Honest
      (pub.values ++ (nymPublic adultMessages).values) () := by
  obtain ⟨constants, hc⟩ := exists_constants
  obtain ⟨pub, w, h⟩ := exists_adult
  obtain ⟨hsteps, Q, hQ, hcore⟩ := core_exact readingGadget hc h.named h.built found_adult h.ends h.deviceKey
  obtain rfl : Q = generator := by
    obtain ⟨_, rfl⟩ := hQ
    obtain ⟨_, hgenerator⟩ := h.issuerKey
    exact hgenerator.symm
  exact ⟨constants, pub, w, h.named, h.built, hsteps,
    (hcore adultDevice _).mpr ⟨rfl, h.issuer, h.stated, h.device⟩⟩

end Mdoc

end ZkCredVega.Nym
