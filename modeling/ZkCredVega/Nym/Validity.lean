import ZkCredVega.Nym.Request
import ZkCredVega.Nym.Values

/-!
# The age and validity rules of a presentation

The rules of `presentation::check`. Each comparison of dates is a range check of a difference in
the field; it is the comparison of the numbers because every operand is far below the field's
prime. The bounds come from the checked statement, the other operands from the digits that
`decimal` reads.
-/

namespace ZkCredVega.Nym

open Circuits

/-! ## Range checks -/

section Ranges

variable {F : Type} [Field F] [ToRepr F] [LargeChar F] [LawfulToRepr F]

/-- The field element is an integer below `2 ^ n`. -/
def InRange (n : ℕ) (x : F) : Prop := ∃ k : ℕ, k < 2 ^ n ∧ x = (k : F)

theorem runs_rangeCheck {a : Lc F F} {n : ℕ} (hn : n < 256) {ins : List F} {u : Unit} :
    (rangeCheck a n).Runs ins u ↔ ins = [] ∧ InRange n a.lc.eval := by
  constructor
  · intro h
    obtain ⟨out, -, ⟨xs, hlen, -, heval⟩, h⟩ := h.bind_elim ensures_bits
    refine ⟨(Circuit.runs_pure.mp h).1, beBits xs, ?_, heval⟩
    have hlt := beBits_lt xs
    rwa [hlen] at hlt
  · rintro ⟨rfl, k, hk, heval⟩
    have hbits : beBits (toLEBits n k).reverse = k := by
      rw [← leBits_reverse, List.reverse_reverse, leBits_toLEBits hk]
    have ha : a.Holds .any ((beBits (toLEBits n k).reverse : ℕ) : F) :=
      ⟨heval.trans (congrArg _ hbits.symm), fun hw => by cases hw⟩
    obtain ⟨out, hout, -⟩ := (yields_bits ha (by simp) hn).admits
    exact .bind_intro hout (Circuit.runs_pure.mpr ⟨rfl, rfl⟩)

omit [ToRepr F] [LawfulToRepr F] in
/-- A difference of small numbers is in range exactly when it is not negative: it does not wrap. -/
theorem inRange_sub_iff {n a b : ℕ} (hn : n < 255) (ha : a < 2 ^ n) (hb : b < 2 ^ n) :
    InRange n ((a : F) - (b : F)) ↔ b ≤ a := by
  have hpow : 2 ^ (n + 1) ≤ 2 ^ 255 := Nat.pow_le_pow_right (by decide) hn
  rw [pow_succ] at hpow
  constructor
  · rintro ⟨k, hk, h⟩
    have hsum : ((a : ℕ) : F) = ((b + k : ℕ) : F) := by
      rw [Nat.cast_add, ← h]
      ring
    have heq := LargeChar.natCast_inj (F := F) (by omega) (by omega) hsum
    omega
  · intro hle
    exact ⟨a - b, by omega, (Nat.cast_sub hle).symm⟩

/-! ## Known bits -/

omit [ToRepr F] [LargeChar F] [LawfulToRepr F] in
theorem ensures_alloc_is {hint : Option Bool} :
    (Boolean.alloc hint : Circuit F F _).Ensures fun b => ∃ w, b = .is ⟨w, hint⟩ :=
  .map (.var_bind fun w => .require_bind fun _ => Circuit.ensures_pure.mpr ⟨w, rfl⟩)

omit [ToRepr F] [LargeChar F] [LawfulToRepr F] in
theorem eq_bitSlots {out : List (Boolean F)} {xs : List Bool} {n : ℕ} (hlen : xs.length = n)
    (hreads : Boolean.ReadsAll out xs)
    (hshape : List.Forall₂ (fun i b => ∃ w : F, b = Boolean.is ⟨w, some (xs.getD i false)⟩) (List.range n) out) :
    out = bitSlots xs := by
  apply List.ext_getElem
  · rw [hreads.length_eq, bitSlots, List.length_map]
  intro i h1 h2
  have hi : i < xs.length := by rwa [bitSlots, List.length_map] at h2
  have hread : out[i].Reads xs[i] := (List.forall₂_iff_get.mp hreads).2 i h1 hi
  obtain ⟨w, hw⟩ := (List.forall₂_iff_get.mp hshape).2 i (by rw [List.length_range]; omega) h1
  have hget : xs.getD i false = xs[i] := by simp [hi]
  simp only [List.get_eq_getElem, List.getElem_range, hget] at hw
  rw [hw] at hread ⊢
  have hval : w = ofBool xs[i] := hread
  simp only [bitSlots, List.getElem_map, hval]

theorem yields_bits_known {a : Lc F F} {n : ℕ} {xs : List Bool} (ha : a.Holds .honest ((beBits xs : ℕ) : F))
    (hlen : xs.length = n) (hn : n < 256) : (bits a n).Yields .any (· = bitSlots xs) := by
  have hlt : beBits xs < 2 ^ 255 := by
    have hbits := beBits_lt xs
    have hpow : 2 ^ n ≤ 2 ^ 255 := Nat.pow_le_pow_right (by decide) (by omega)
    rw [hlen] at hbits
    omega
  have hshape : (bits a n).Ensures fun out =>
      List.Forall₂ (fun i b => ∃ w : F, b = Boolean.is ⟨w, some (xs.getD i false)⟩) (List.range n) out := by
    refine Circuit.ensures_assert.bind fun _ _ => ?_
    simp only
    rw [ha.value_eq rfl, Option.map_some, bitsHint_beBits hlen hlt, allocBits_eq (by rintro bs ⟨⟩; exact hlen)]
    have halloc : ∀ i ∈ List.range n, (Boolean.alloc ((some xs).map fun bs => bs.getD i false) :
        Circuit F F _).Ensures fun b => ∃ w : F, b = Boolean.is ⟨w, some (xs.getD i false)⟩ :=
      fun i _ => ensures_alloc_is
    refine (Circuit.Ensures.mapM halloc).bind fun out hout => ?_
    exact ensures_equal.bind fun _ _ => Circuit.ensures_pure.mpr hout
  have hyields := yields_bits ha.any hlen hn
  constructor
  · exact (hyields.ensures.and hshape).mono fun out h => eq_bitSlots hlen h.1 h.2
  · exact (hyields.admits.and_ensures hshape).mono fun out h => eq_bitSlots hlen h.1 h.2

theorem yields_digestBits {high low : Lc F F} {digest : Bytes 32}
    (hhigh : high.Holds .honest (fromBe (digest.val.take 16))) (hlow : low.Holds .honest (fromBe (digest.val.drop 16))) :
    (digestBits high low).Yields .any (· = bitSlots (bytesBits digest.val)) := by
  have hlen := digest.property
  rw [fromBe, ← beBits_bytesBits] at hhigh hlow
  have hfirst := yields_bits_known hhigh (n := 128) (by rw [length_bytesBits, List.length_take, hlen]; rfl) (by decide)
  have hsecond := yields_bits_known hlow (n := 128) (by rw [length_bytesBits, List.length_drop, hlen]) (by decide)
  refine hfirst.bind fun out hout => hsecond.bind fun rest hrest => Circuit.yields_pure ?_
  rw [hout, hrest, bitSlots, bitSlots, ← List.map_append, ← bytesBits_append, List.take_append_drop]
  rfl

/-! ## The rules of the facts -/

/-- The rules of the facts: the issuer's key, four differences in range, and the device's signature. -/
theorem runs_checkFacts {constants : Constants F} {signature : Option Signature} {digest : Bytes 32}
    {issuerX issuerY birthDate validFrom validUntil deviceX deviceY : Lc F F}
    {publicX publicY bornFrom bornBy now high low : Lc F F} (hhigh : high.Holds .honest (fromBe (digest.val.take 16)))
    (hlow : low.Holds .honest (fromBe (digest.val.drop 16))) {ins : List F} {u : Unit} :
    (checkFacts constants signature [issuerX, issuerY, birthDate, validFrom, validUntil, deviceX, deviceY]
      [publicX, publicY, bornFrom, bornBy, now, high, low]).Runs ins u ↔
      issuerX.lc.eval = publicX.lc.eval ∧ issuerY.lc.eval = publicY.lc.eval ∧
        InRange 27 (birthDate - bornFrom).lc.eval ∧ InRange 27 (bornBy - birthDate).lc.eval ∧
        InRange 47 (now - validFrom).lc.eval ∧ InRange 47 (validUntil - now - Lc.constant 1).lc.eval ∧
        (verify constants (bitSlots (bytesBits digest.val)) ⟨deviceX, deviceY⟩ signature).Runs ins u := by
  rw [checkFacts, Circuit.runs_rule_bind fun _ _ => runs_equal, Circuit.runs_rule_bind fun _ _ => runs_equal,
    Circuit.runs_rule_bind fun _ _ => runs_rangeCheck (by decide),
    Circuit.runs_rule_bind fun _ _ => runs_rangeCheck (by decide),
    Circuit.runs_rule_bind fun _ _ => runs_rangeCheck (by decide),
    Circuit.runs_rule_bind fun _ _ => runs_rangeCheck (by decide)]
  have hdigest : (digestBits high low >>= fun challenge =>
      verify constants challenge ⟨deviceX, deviceY⟩ signature).Runs ins u ↔
      (verify constants (bitSlots (bytesBits digest.val)) ⟨deviceX, deviceY⟩ signature).Runs ins u := by
    refine (yields_digestBits hhigh hlow).runs_bind_iff ?_
    rintro _ rfl
    exact Iff.rfl
  rw [hdigest]

omit [ToRepr F] [LargeChar F] [LawfulToRepr F] in
theorem ensures_checkNonempty {window : Window} {thermometer : List (Boolean F)} :
    (checkNonempty window thermometer : Circuit F F Unit).Ensures fun _ => True := by
  unfold checkNonempty
  split
  · have hbit : ∀ i, (bitOf thermometer i : Circuit F F _).Ensures fun _ => True := by
      intro i
      unfold bitOf
      split
      · exact Circuit.ensures_pure.mpr trivial
      · exact Circuit.ensures_fail
    exact (hbit _).bind fun _ _ => ensures_equal.mono fun _ _ => trivial
  · exact Circuit.ensures_pure.mpr trivial

omit [ToRepr F] [LargeChar F] [LawfulToRepr F] in
theorem ensures_comparedByte {t : AllocatedNum F F × Option (Lc F F)} : (comparedByte t).Ensures fun _ => True := by
  unfold comparedByte
  split
  · exact Lc.ensures_alloc.bind fun _ _ => .require_bind fun _ => Circuit.ensures_pure.mpr trivial
  · exact Circuit.ensures_pure.mpr trivial

omit [LargeChar F] [LawfulToRepr F] in
theorem length_of_runs_checkPattern {window : Window} {credential : List (AllocatedNum F F)} {vs ins : List F}
    (hlen : window.publicCount ≤ vs.length) {u : Unit} (h : (checkPattern window credential (some vs)).Runs ins u) :
    ins.length = window.publicCount := by
  obtain ⟨_, -, -, h⟩ := h.bind_elim Circuit.ensures_assert
  obtain ⟨i, j, inputs, rfl, hi, hj⟩ := Circuit.runs_bind.mp h
  obtain ⟨_, -, -, hj⟩ := hj.bind_elim ensures_bits
  obtain ⟨_, -, -, hj⟩ := hj.bind_elim ensures_checkNonempty
  obtain ⟨_, -, -, hj⟩ := hj.bind_elim (Circuit.Ensures.mapM fun _ _ => ensures_comparedByte)
  obtain ⟨rfl, -⟩ := Circuit.Ensures.forM (fun _ _ => ensures_equal) j u hj
  rw [List.append_nil, ((runs_allocInputs hlen).mp hi).1]

end Ranges

/-! ## What the facts are read from -/

abbrev Digits (n : ℕ) : Type := { ds : List UInt8 // ds.length = n ∧ ∀ d ∈ ds, isAsciiDigit d = true }

def Digits.number {n : ℕ} (ds : Digits n) : ℕ := beNat 10 (ds.val.map fun d => d.toNat - 0x30)

theorem Digits.low {n : ℕ} (ds : Digits n) : ∀ d ∈ ds.val, 0x30 ≤ d.toNat := by
  intro d hd
  have hdigit := ds.property.2 d hd
  simp only [isAsciiDigit, decide_eq_true_eq, UInt8.le_iff_toNat_le] at hdigit
  exact hdigit.1

theorem Digits.number_lt {n : ℕ} (ds : Digits n) : ds.number < 10 ^ n := by
  have hdigits : ∀ d ∈ ds.val.map fun d => d.toNat - 0x30, d < 10 := by
    intro d hd
    obtain ⟨c, hc, rfl⟩ := List.mem_map.mp hd
    have hdigit := ds.property.2 c hc
    simp only [isAsciiDigit, decide_eq_true_eq, UInt8.le_iff_toNat_le] at hdigit
    have hhigh : (0x39 : UInt8).toNat = 57 := rfl
    omega
  have hlt := beNat_lt (by decide) hdigits
  rwa [List.length_map, ds.property.1] at hlt

/-- What a credential's facts are read from: the digits of its dates, and its bytes in the two windows. -/
structure CredentialFacts where
  birthDate : Digits 8
  validFrom : Digits 14
  validUntil : Digits 14
  typeBytes : List UInt8
  attributeBytes : List UInt8

/-- The slots that the precommitted segment hands on. -/
structure FactSlots where
  issuerX : AllocatedNum Scalar Scalar
  issuerY : AllocatedNum Scalar Scalar
  birthDate : AllocatedNum Scalar Scalar
  validFrom : AllocatedNum Scalar Scalar
  validUntil : AllocatedNum Scalar Scalar
  deviceX : AllocatedNum Scalar Scalar
  deviceY : AllocatedNum Scalar Scalar
  typeBytes : List (AllocatedNum Scalar Scalar)
  attributeBytes : List (AllocatedNum Scalar Scalar)

/-- The slot holds what `decimal` reads from slots of the digits. -/
def ReadsDecimal {n : ℕ} (slot : AllocatedNum Scalar Scalar) (ds : Digits n) : Prop :=
  ∃ digits : List (Lc Scalar Scalar), Lc.HoldAll .any digits (ds.val.map UInt8.toNat) ∧
    slot.val = (decimal digits).lc.eval

theorem ReadsDecimal.val_eq {n : ℕ} {slot : AllocatedNum Scalar Scalar} {ds : Digits n} (h : ReadsDecimal slot ds) :
    slot.val = (ds.number : Scalar) := by
  obtain ⟨digits, hdigits, hslot⟩ := h
  exact hslot.trans (holds_decimal ds.low hdigits).eval_eq

namespace FactSlots

/-- The slots in the order of `Facts::into_slots`. -/
def slots (f : FactSlots) : List (AllocatedNum Scalar Scalar) :=
  [f.issuerX, f.issuerY, f.birthDate, f.validFrom, f.validUntil, f.deviceX, f.deviceY] ++
    (f.typeBytes ++ f.attributeBytes)

structure Hold (f : FactSlots) (c : CredentialFacts) (windows : Window × Window) : Prop where
  birthDate : ReadsDecimal f.birthDate c.birthDate
  validFrom : ReadsDecimal f.validFrom c.validFrom
  validUntil : ReadsDecimal f.validUntil c.validUntil
  typeBytes : HoldBytes .any f.typeBytes c.typeBytes
  attributeBytes : HoldBytes .any f.attributeBytes c.attributeBytes
  length_type : c.typeBytes.length = windows.1.len
  length_attribute : c.attributeBytes.length = windows.2.len

structure HoldWindows (f : FactSlots) (c : CredentialFacts) (windows : Window × Window) : Prop where
  typeBytes : HoldBytes .any f.typeBytes c.typeBytes
  attributeBytes : HoldBytes .any f.attributeBytes c.attributeBytes
  length_type : c.typeBytes.length = windows.1.len
  length_attribute : c.attributeBytes.length = windows.2.len

theorem Hold.bytes {f : FactSlots} {c : CredentialFacts} {ws : Window × Window} (h : f.Hold c ws) :
    f.HoldWindows c ws := ⟨h.typeBytes, h.attributeBytes, h.length_type, h.length_attribute⟩

/-- The verifier names the credential's issuer key, type and attribute. -/
structure Named (f : FactSlots) (c : CredentialFacts) (pub : Public) : Prop where
  issuerX : f.issuerX.val = fromBe pub.issuerKey.x.val
  issuerY : f.issuerY.val = fromBe pub.issuerKey.y.val
  credentialType : pub.request.credentialType.Matches c.typeBytes
  attributeName : pub.request.attributeName.Matches c.attributeBytes

/-- The device's signature satisfies the rules of `verify` on the challenge's bits. -/
def Signed (f : FactSlots) (constants : Constants Scalar) (p : Presentation) : Prop :=
  (verify constants (bitSlots (bytesBits p.pub.challenge.val)) ⟨Lc.num f.deviceX, Lc.num f.deviceY⟩
    (some p.deviceSignature)).Runs [] ()

/-- The four differences that the rules check are in range. -/
structure Ranges (f : FactSlots) (pub : Public) : Prop where
  bornFrom : InRange 27 (f.birthDate.val - (bornFromDigits pub.bornFrom : Scalar))
  bornBy : InRange 27 ((pub.bornBy.digits : Scalar) - f.birthDate.val)
  started : InRange 47 ((pub.now.digits : Scalar) - f.validFrom.val)
  notExpired : InRange 47 (f.validUntil.val - (pub.now.digits : Scalar) - 1)

end FactSlots

/-! ## The rules of a presentation -/

/-- A pattern's rules before the rest: they take the pattern's values, and hold when it matches. -/
theorem runs_checkPattern_bind {α : Type} (p : Pattern) (hfits : p.window.thermometer ≤ p.window.len)
    (hsize : p.window.thermometer < 256) (hempty : p.window.nonempty = false)
    {credential : List (AllocatedNum Scalar Scalar)} {slots : List UInt8} (hlen : slots.length = p.window.len)
    (hslots : HoldBytes .any credential slots) {f : Unit → Circuit Scalar Scalar α} {rest : List Scalar} {r : α} :
    (checkPattern p.window credential (some p.values) >>= f).Runs (p.values ++ rest) r ↔
      p.Matches slots ∧ (f ()).Runs rest r := by
  have hruns : (checkPattern p.window credential (some p.values)).Runs p.values () ↔ p.Matches slots := by
    rw [runs_checkPattern p hfits hsize hlen hslots, hempty]
    simp
  constructor
  · intro h
    obtain ⟨i, j, _, hij, hi, hj⟩ := Circuit.runs_bind.mp h
    have hi' := length_of_runs_checkPattern p.length_values.ge hi
    obtain ⟨rfl, rfl⟩ := List.append_inj hij (p.length_values.trans hi'.symm)
    exact ⟨hruns.mp hi, hj⟩
  · rintro ⟨hmatches, hr⟩
    exact Circuit.runs_bind.mpr ⟨_, _, (), rfl, hruns.mpr hmatches, hr⟩

theorem Public.take_values (pub : Public) : (pub.values : List Scalar).take baseValues = pub.base :=
  List.take_left' rfl

theorem Public.drop_values (pub : Public) : (pub.values : List Scalar).drop baseValues = pub.request.values :=
  List.drop_left' rfl

theorem FactSlots.HoldWindows.check_eq {constants : Constants Scalar} {p : Presentation} {f : FactSlots}
    {c : CredentialFacts} (hwindows : p.pub.request.windows = windows) (hf : f.HoldWindows c windows) :
    check constants f.slots (some p) windows = (do
      let pub ← allocInputs (some p.pub.values) baseValues
      checkPattern p.pub.request.credentialType.window f.typeBytes (some p.pub.request.credentialType.values)
      checkPattern p.pub.request.attributeName.window f.attributeBytes (some p.pub.request.attributeName.values)
      checkFacts constants (some p.deviceSignature) [Lc.num f.issuerX, Lc.num f.issuerY, Lc.num f.birthDate,
        Lc.num f.validFrom, Lc.num f.validUntil, Lc.num f.deviceX, Lc.num f.deviceY] pub) := by
  obtain ⟨htype, hattribute⟩ := Prod.mk.inj hwindows
  have hreject : (rejectWindows (some p) windows : Circuit Scalar Scalar Unit) = pure () := by
    simp [rejectWindows, hwindows]
  have hlenType : f.typeBytes.length = windows.1.len := hf.typeBytes.length_eq.trans hf.length_type
  have hlenAttribute : f.attributeBytes.length = windows.2.len := hf.attributeBytes.length_eq.trans hf.length_attribute
  have hslots : (rejectSlots (f.slots.length = baseValues + windows.1.len + windows.2.len) :
      Circuit Scalar Scalar Unit) = pure () := by
    rw [rejectSlots, if_pos]
    simp only [slots, List.length_append, hlenType, hlenAttribute]
    rfl
  have hdrop : f.slots.drop baseValues = f.typeBytes ++ f.attributeBytes := rfl
  have htake : f.slots.take baseValues =
      [f.issuerX, f.issuerY, f.birthDate, f.validFrom, f.validUntil, f.deviceX, f.deviceY] := rfl
  have hcount : windows.1.publicCount = (p.pub.request.credentialType.values : List Scalar).length := by
    rw [Pattern.length_values, htype]
    rfl
  rw [check, hreject, pure_bind]
  simp only [Option.map_some, Public.drop_values, Request.values, hslots, pure_bind, hcount, List.take_left,
    List.drop_left, hdrop, htake, List.take_left' hlenType, List.drop_left' hlenType, htype, hattribute]
  rfl

theorem FactSlots.HoldWindows.runs_check {constants : Constants Scalar} {p : Presentation} {f : FactSlots}
    {c : CredentialFacts} (hwindows : p.pub.request.windows = windows) (hf : f.HoldWindows c windows) :
    (check constants f.slots (some p) windows).Runs p.pub.values () ↔
      f.Named c p.pub ∧ f.Ranges p.pub ∧ f.Signed constants p := by
  obtain ⟨htype, hattribute⟩ := Prod.mk.inj hwindows
  have hsplit : (p.pub.values : List Scalar) = p.pub.values.take baseValues ++
      (p.pub.request.credentialType.values ++ (p.pub.request.attributeName.values ++ [])) := by
    rw [Public.take_values, List.append_nil]
    rfl
  have hrun : (check constants f.slots (some p) windows).Runs (p.pub.values.take baseValues ++
      (p.pub.request.credentialType.values ++ (p.pub.request.attributeName.values ++ []))) () ↔
      f.Named c p.pub ∧ f.Ranges p.pub ∧ f.Signed constants p := by
    rw [hf.check_eq hwindows]
    refine runs_allocInputs_bind (by simp [Public.values, Public.base, baseValues]) fun out hout => ?_
    rw [Public.take_values] at hout
    obtain ⟨publicX, out1, hX, h1, rfl⟩ := List.forall₂_cons_right_iff.mp hout
    obtain ⟨publicY, out2, hY, h2, rfl⟩ := List.forall₂_cons_right_iff.mp h1
    obtain ⟨bornFrom, out3, hfrom, h3, rfl⟩ := List.forall₂_cons_right_iff.mp h2
    obtain ⟨bornBy, out4, hby, h4, rfl⟩ := List.forall₂_cons_right_iff.mp h3
    obtain ⟨now, out5, hnow, h5, rfl⟩ := List.forall₂_cons_right_iff.mp h4
    obtain ⟨high, out6, hhigh, h6, rfl⟩ := List.forall₂_cons_right_iff.mp h5
    obtain ⟨low, out7, hlow, h7, rfl⟩ := List.forall₂_cons_right_iff.mp h6
    obtain rfl := List.forall₂_nil_right_iff.mp h7
    rw [runs_checkPattern_bind p.pub.request.credentialType (by rw [htype]; decide) (by rw [htype]; decide)
        (by rw [htype]; rfl) (by rw [htype]; exact hf.length_type) hf.typeBytes,
      runs_checkPattern_bind p.pub.request.attributeName (by rw [hattribute]; decide) (by rw [hattribute]; decide)
        (by rw [hattribute]; rfl) (by rw [hattribute]; exact hf.length_attribute) hf.attributeBytes,
      runs_checkFacts hhigh hlow]
    have hnum : ∀ n : AllocatedNum Scalar Scalar, (Lc.num n).lc.eval = n.val := AllocatedNum.eval_lc
    have hsub : ∀ a b : Lc Scalar Scalar, (a - b).lc.eval = a.lc.eval - b.lc.eval := fun a b => LC.eval_sub _ _
    have hone : (Lc.constant 1 : Lc Scalar Scalar).lc.eval = 1 := LC.eval_const 1
    simp only [hnum, hsub, hone, hX.eval_eq, hY.eval_eq, hfrom.eval_eq, hby.eval_eq, hnow.eval_eq]
    constructor
    · rintro ⟨htypeMatch, hattributeMatch, hx, hy, hfromIn, hbyIn, hstarted, hended, hverify⟩
      exact ⟨⟨hx, hy, htypeMatch, hattributeMatch⟩, ⟨hfromIn, hbyIn, hstarted, hended⟩, hverify⟩
    · rintro ⟨⟨hx, hy, htypeMatch, hattributeMatch⟩, ⟨hfromIn, hbyIn, hstarted, hended⟩, hverify⟩
      exact ⟨htypeMatch, hattributeMatch, hx, hy, hfromIn, hbyIn, hstarted, hended, hverify⟩
  rwa [← hsplit] at hrun

theorem FactSlots.Hold.runs_check {constants : Constants Scalar} {p : Presentation} {f : FactSlots} {c : CredentialFacts}
    (hwindows : p.pub.request.windows = windows) (hf : f.Hold c windows) :
    (check constants f.slots (some p) windows).Runs p.pub.values () ↔
      f.Named c p.pub ∧ f.Ranges p.pub ∧ f.Signed constants p := hf.bytes.runs_check hwindows

/-- No difference wraps: each is in range exactly when the numbers compare. -/
theorem FactSlots.Hold.ranges_exact {s : Statement} {pub : Public} {verifierInput : Bytes 32} {f : FactSlots}
    {c : CredentialFacts} (hpub : Accepted s pub verifierInput) (hf : f.Hold c windows) :
    (InRange 27 (f.birthDate.val - (bornFromDigits pub.bornFrom : Scalar)) ↔
      bornFromDigits pub.bornFrom ≤ c.birthDate.number) ∧
    (InRange 27 ((pub.bornBy.digits : Scalar) - f.birthDate.val) ↔ c.birthDate.number ≤ pub.bornBy.digits) ∧
    (InRange 47 ((pub.now.digits : Scalar) - f.validFrom.val) ↔ c.validFrom.number ≤ pub.now.digits) ∧
    (InRange 47 (f.validUntil.val - (pub.now.digits : Scalar) - 1) ↔ pub.now.digits < c.validUntil.number) := by
  have hdate : 10 ^ 8 < 2 ^ 27 := by decide
  have htime : 10 ^ 14 < 2 ^ 47 := by decide
  have hfrom := bornFromDigits_lt hpub.earliest
  have hby := (date_valid hpub.cutoff).digits_lt
  have hnow := (time_valid hpub.now).digits_lt
  have hbirth := c.birthDate.number_lt
  have hstart := c.validFrom.number_lt
  have hstop := c.validUntil.number_lt
  rw [hf.birthDate.val_eq, hf.validFrom.val_eq, hf.validUntil.val_eq, sub_sub, ← Nat.cast_one, ← Nat.cast_add]
  refine ⟨inRange_sub_iff ?_ ?_ ?_, inRange_sub_iff ?_ ?_ ?_, inRange_sub_iff ?_ ?_ ?_, inRange_sub_iff ?_ ?_ ?_⟩
  all_goals omega

/-- A presentation of a checked statement, over slots that hold a credential's facts: when the verifier names the
credential's key, type and attribute and the device signed the challenge, the rules hold exactly of a birth date
from the earliest to the latest one, at a time from the start of validity and before its end. The rules hold of
nothing else, and no range check wraps. -/
theorem check_exact (constants : Constants Scalar) {s : Statement} {circuit : ApprovedCircuit} {p : Presentation}
    {verifierInput : Bytes 32} (hpub : publicOf s circuit = .ok (p.pub, verifierInput)) {ws : Window × Window}
    (hws : p.pub.request.windows = ws) {f : FactSlots} {c : CredentialFacts} (hf : f.Hold c ws) :
    (f.Named c p.pub → f.Signed constants p →
      ((check constants f.slots (some p) ws).Runs p.pub.values () ↔
        (p.pub.bornFrom.elim 0 Date.digits ≤ c.birthDate.number ∧ c.birthDate.number ≤ p.pub.bornBy.digits) ∧
          c.validFrom.number ≤ p.pub.now.digits ∧ p.pub.now.digits < c.validUntil.number)) ∧
    ((check constants f.slots (some p) ws).Runs p.pub.values () → f.Named c p.pub ∧ f.Signed constants p) ∧
    (InRange 27 (f.birthDate.val - ((p.pub.bornFrom.elim 0 Date.digits : ℕ) : Scalar)) ↔
      p.pub.bornFrom.elim 0 Date.digits ≤ c.birthDate.number) ∧
    (InRange 27 ((p.pub.bornBy.digits : Scalar) - f.birthDate.val) ↔ c.birthDate.number ≤ p.pub.bornBy.digits) ∧
    (InRange 47 ((p.pub.now.digits : Scalar) - f.validFrom.val) ↔ c.validFrom.number ≤ p.pub.now.digits) ∧
    (InRange 47 (f.validUntil.val - (p.pub.now.digits : Scalar) - 1) ↔ p.pub.now.digits < c.validUntil.number) := by
  have haccepted := publicOf_eq_ok hpub
  obtain rfl := hws.symm.trans haccepted.windows
  have hruns : (check constants f.slots (some p) windows).Runs p.pub.values () ↔ _ := hf.runs_check haccepted.windows
  obtain ⟨hfrom, hby, hstarted, hended⟩ := hf.ranges_exact haccepted
  refine ⟨fun hnamed hsigned => ?_, fun h => ?_, hfrom, hby, hstarted, hended⟩
  · rw [hruns]
    constructor
    · rintro ⟨-, hranges, -⟩
      exact ⟨⟨hfrom.mp hranges.bornFrom, hby.mp hranges.bornBy⟩, hstarted.mp hranges.started,
        hended.mp hranges.notExpired⟩
    · rintro ⟨⟨h1, h2⟩, h3, h4⟩
      exact ⟨hnamed, ⟨hfrom.mpr h1, hby.mpr h2, hstarted.mpr h3, hended.mpr h4⟩, hsigned⟩
  · obtain ⟨hnamed, -, hsigned⟩ := hruns.mp h
    exact ⟨hnamed, hsigned⟩

/-! ## The last day and the last second -/

def noon : Digits 14 :=
  ⟨[0x32, 0x30, 0x32, 0x36, 0x30, 0x39, 0x31, 0x38, 0x31, 0x32, 0x30, 0x30, 0x30, 0x30], rfl,
    List.all_eq_true.mp (by decide)⟩

def afterNoon : Digits 14 :=
  ⟨[0x32, 0x30, 0x32, 0x36, 0x30, 0x39, 0x31, 0x38, 0x31, 0x32, 0x30, 0x30, 0x30, 0x31], rfl,
    List.all_eq_true.mp (by decide)⟩

/-- A credential of the type and the attribute that the verifier names, valid for one second. -/
def noonCredential (pub : Public) (birthDate : Digits 8) : CredentialFacts where
  birthDate
  validFrom := noon
  validUntil := afterNoon
  typeBytes := pub.request.credentialType.aligned
  attributeBytes := pub.request.attributeName.aligned

def lastDay : Digits 8 := ⟨[0x32, 0x30, 0x30, 0x38, 0x30, 0x39, 0x31, 0x38], rfl, List.all_eq_true.mp (by decide)⟩

def nextDay : Digits 8 := ⟨[0x32, 0x30, 0x30, 0x38, 0x30, 0x39, 0x31, 0x39], rfl, List.all_eq_true.mp (by decide)⟩

def slotsOf (pub : Public) (c : CredentialFacts) : FactSlots where
  issuerX := ⟨fromBe pub.issuerKey.x.val, none⟩
  issuerY := ⟨fromBe pub.issuerKey.y.val, none⟩
  birthDate := ⟨(c.birthDate.number : Scalar), none⟩
  validFrom := ⟨(c.validFrom.number : Scalar), none⟩
  validUntil := ⟨(c.validUntil.number : Scalar), none⟩
  deviceX := ⟨0, none⟩
  deviceY := ⟨0, none⟩
  typeBytes := c.typeBytes.map fun b => ⟨(b.toNat : Scalar), none⟩
  attributeBytes := c.attributeBytes.map fun b => ⟨(b.toNat : Scalar), none⟩

theorem Pattern.matches_aligned (p : Pattern) : p.Matches p.aligned := by
  rw [Matches, aligned_eq, List.append_assoc, List.drop_left' (List.length_replicate ..), List.take_left]

theorem readsDecimal_number {n : ℕ} (ds : Digits n) : ReadsDecimal ⟨(ds.number : Scalar), none⟩ ds := by
  have hhold : Lc.HoldAll .any (ds.val.map fun d => Lc.constant (d.toNat : Scalar)) (ds.val.map UInt8.toNat) := by
    rw [Lc.HoldAll, List.forall₂_map_left_iff, List.forall₂_map_right_iff, List.forall₂_same]
    exact fun d _ => Lc.holds_constant _
  exact ⟨_, hhold, (holds_decimal ds.low hhold).eval_eq.symm⟩

theorem hold_slotsOf {pub : Public} {c : CredentialFacts} (htype : c.typeBytes.length = windows.1.len)
    (hattribute : c.attributeBytes.length = windows.2.len) : (slotsOf pub c).Hold c windows where
  birthDate := readsDecimal_number _
  validFrom := readsDecimal_number _
  validUntil := readsDecimal_number _
  typeBytes := holdBytes_map _
  attributeBytes := holdBytes_map _
  length_type := htype
  length_attribute := hattribute

/-- Born on the last day of the bound, at the first and only second of validity, the rules hold exactly when the
device signed; born a day later, they do not. -/
theorem check_exact_boundary : ∃ pub v, publicOf adultStatement nymauthMdocV1 = .ok (pub, v) ∧
    ∀ constants signature,
      ((check constants (slotsOf pub (noonCredential pub lastDay)).slots (some ⟨pub, signature⟩) windows).Runs
          pub.values () ↔ (slotsOf pub (noonCredential pub lastDay)).Signed constants ⟨pub, signature⟩) ∧
        ¬(check constants (slotsOf pub (noonCredential pub nextDay)).slots (some ⟨pub, signature⟩) windows).Runs
          pub.values () := by
  have hok : (publicOf adultStatement nymauthMdocV1).isOk := by decide +kernel
  cases h : publicOf adultStatement nymauthMdocV1 with
  | error e =>
    rw [h] at hok
    cases hok
  | ok t =>
    have haccepted := publicOf_eq_ok h
    obtain ⟨htype, hattribute⟩ := Prod.mk.inj haccepted.windows
    have hfrom : t.1.bornFrom = none := (Except.ok.inj haccepted.earliest).symm
    have hby : t.1.bornBy = ⟨2008, 9, 18⟩ := by
      have hdate : (date (utf8 "2008-09-18")).toOption = some ⟨2008, 9, 18⟩ := by decide +kernel
      exact Option.some.inj ((congrArg Except.toOption haccepted.cutoff).symm.trans hdate)
    have hnow : t.1.now = ⟨⟨2026, 9, 18⟩, 12, 0, 0⟩ := by
      have htime : (time (utf8 "2026-09-18T12:00:00Z")).toOption = some ⟨⟨2026, 9, 18⟩, 12, 0, 0⟩ := by decide +kernel
      exact Option.some.inj ((congrArg Except.toOption haccepted.now).symm.trans htime)
    have hhold : ∀ birthDate, (slotsOf t.1 (noonCredential t.1 birthDate)).Hold (noonCredential t.1 birthDate) windows := by
      intro birthDate
      refine hold_slotsOf ?_ ?_
      · exact (Pattern.length_aligned _).trans (congrArg Window.len htype)
      · exact (Pattern.length_aligned _).trans (congrArg Window.len hattribute)
    have hnamed : ∀ birthDate, (slotsOf t.1 (noonCredential t.1 birthDate)).Named (noonCredential t.1 birthDate) t.1 :=
      fun birthDate => ⟨rfl, rfl, Pattern.matches_aligned _, Pattern.matches_aligned _⟩
    refine ⟨t.1, t.2, rfl, fun constants signature => ⟨?_, ?_⟩⟩
    · obtain ⟨hiff, honly, -⟩ := check_exact constants (p := ⟨t.1, signature⟩) h haccepted.windows (hhold lastDay)
      refine ⟨fun hr => (honly hr).2, fun hsigned => (hiff (hnamed lastDay) hsigned).mpr ?_⟩
      have hlast : 0 ≤ lastDay.number ∧ lastDay.number ≤ 20080918 ∧ noon.number ≤ 20260918120000 ∧
          20260918120000 < afterNoon.number := by decide +kernel
      rw [hfrom, hby, hnow]
      exact ⟨⟨hlast.1, hlast.2.1⟩, hlast.2.2⟩
    · intro hr
      obtain ⟨hiff, honly, -⟩ := check_exact constants (p := ⟨t.1, signature⟩) h haccepted.windows (hhold nextDay)
      have hrules := (hiff (hnamed nextDay) (honly hr).2).mp hr
      have hnext : ¬nextDay.number ≤ 20080918 := by decide +kernel
      rw [hby] at hrules
      exact hnext hrules.1.2

end ZkCredVega.Nym
