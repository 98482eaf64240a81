import ZkCredVega.Circuit.Record
import ZkCredVega.Nym.Size

/-!
# What a core circuit proves

Whoever filled the table and chose the assignment, when the steps and the core's rules hold there are
messages and a seed behind the public values: a signed message that the issuer's key signed, an item of
it with the birth date between the bounds, an item with the commitment to the seed, the device key that
signed the challenge, and the pseudonym of the seed. A date is read as the integer its bytes stand for, so
nothing is assumed of the bytes the issuer signed.
-/

namespace ZkCredVega.Nym

open Circuits

/-! ## Bytes of a region -/

/-- The bytes of the blocks 0 to `k` of a region. -/
def Cells.message (cells : Cells Scalar Scalar) (region : Region) (k : ℕ) : List UInt8 :=
  (List.range (k + 1)).flatMap fun i => cells.block (region.first + i)

section Bytes

variable {cells : Cells Scalar Scalar} {region : Region} {m : Message Scalar Scalar} {k : ℕ}

theorem Cells.length_message (cells : Cells Scalar Scalar) (region : Region) (k : ℕ) :
    (cells.message region k).length = 64 * (k + 1) := by
  rw [Cells.message, List.length_flatMap, List.map_congr_left fun i _ => cells.length_block _, List.map_const',
    List.sum_replicate, List.length_range, smul_eq_mul, Nat.mul_comm]

end Bytes

/-! ## What the gadgets read -/

section Reading

variable {bytes : List (Lc Scalar Scalar)} {bs : List UInt8}

theorem ensures_expect (hbytes : Lc.HoldAll .any bytes (bs.map UInt8.toNat)) {pattern : List UInt8} :
    (expect bytes pattern).Ensures fun _ => bs = pattern := by
  refine Circuit.ensures_assert.bind fun _ hlen => ?_
  have hrules : (forM ((chunks expectGroup bytes).zip (chunks expectGroup pattern)) fun t =>
      equal (packBytes t.1) (Lc.constant (fromBe t.2))).Ensures fun _ =>
      ∀ t ∈ (chunks expectGroup bytes).zip (chunks expectGroup pattern),
        (packBytes t.1).lc.eval = (fromBe t.2 : Scalar) :=
    Circuit.Ensures.forM fun t _ => ensures_equal.mono fun _ heq => heq.trans (Lc.eval_constant _)
  refine hrules.mono fun _ heq => ?_
  have hbs : bs.length = pattern.length := by
    rw [← hlen, hbytes.length_eq, List.length_map]
  have hcount : (chunks expectGroup bytes).length = (chunks expectGroup pattern).length := by
    rw [chunks, chunks, List.length_map, List.length_map, hlen]
  rw [forall_mem_zip_iff (f := fun c => (packBytes c).lc.eval) (g := fun c => (fromBe c : Scalar)) hcount,
    map_packBytes_chunks hbytes] at heq
  exact chunks_fromBe_inj (by decide) (by decide) hbs heq

/-- The integer that `decimal` gives for bytes, the last one first: each counts as its distance from the digit
zero. -/
def digitsInt : List UInt8 → ℤ
  | [] => 0
  | d :: ds => ((d.toNat : ℤ) - 48) + 10 * digitsInt ds

theorem abs_digitsInt_lt (ds : List UInt8) : |digitsInt ds| < 23 * 10 ^ ds.length := by
  have hbound : |digitsInt ds| ≤ 23 * 10 ^ ds.length - 23 := by
    induction ds with
    | nil => simp [digitsInt]
    | cons d ds ih =>
      have hd := d.toNat_lt
      rw [digitsInt, List.length_cons, pow_succ]
      rw [abs_le] at ih ⊢
      omega
  omega

theorem holds_digits {who : Circuit.Prover} (hbytes : Lc.HoldAll who bytes (bs.map UInt8.toNat)) :
    (decimal bytes).Holds who ((digitsInt bs.reverse : ℤ) : Scalar) := by
  have hfold : ∀ {xs : List (Lc Scalar Scalar)} {ds : List UInt8}, Lc.HoldAll who xs (ds.map UInt8.toNat) →
      ∀ (t : Lc Scalar Scalar × Scalar) {v : Scalar}, t.1.Holds who v →
        (xs.foldl (fun (t : Lc Scalar Scalar × Scalar) digit =>
          (t.1 + (digit - Lc.constant 48).scale t.2, t.2 * 10)) t).1.Holds who
            (v + t.2 * ((digitsInt ds : ℤ) : Scalar)) := by
    intro xs ds h
    rw [Lc.HoldAll, List.forall₂_map_right_iff] at h
    induction h with
    | nil =>
      intro t v ht
      simpa [digitsInt] using ht
    | @cons digit d _ _ hx _ ih =>
      intro t v ht
      have hnext := ih (t.1 + (digit - Lc.constant 48).scale t.2, t.2 * 10) (ht.add ((hx.sub (Lc.holds_constant 48)).scale t.2))
      rw [List.foldl_cons]
      convert hnext using 1
      rw [digitsInt]
      push_cast
      ring
  have hreverse : Lc.HoldAll who bytes.reverse (bs.reverse.map UInt8.toNat) := by
    rw [List.map_reverse]
    exact List.forall₂_reverse_iff.mpr hbytes
  have hall := hfold hreverse (0, 1) Lc.holds_zero
  rw [one_mul, zero_add] at hall
  exact hall

def readNumber (places : List ℕ) (text : List UInt8) : ℤ :=
  digitsInt (places.map fun i => text.getD i 0).reverse

end Reading

/-- A field element in range is not a small negative integer. -/
theorem nonneg_of_inRange {z : ℤ} {n : ℕ} (hn : n < 254) (hz : -2 ^ 254 < z) (h : InRange n ((z : ℤ) : Scalar)) :
    0 ≤ z := by
  obtain ⟨k, hk, heq⟩ := h
  have hpow : 2 ^ n ≤ 2 ^ 253 := Nat.pow_le_pow_right (by decide) (by omega)
  by_contra hneg
  obtain ⟨m, rfl⟩ : ∃ m : ℕ, z = -(m : ℤ) := ⟨z.natAbs, by omega⟩
  have hsum : ((k + m : ℕ) : Scalar) = ((0 : ℕ) : Scalar) := by
    push_cast
    push_cast at heq
    rw [← heq]
    ring
  have hzero := LargeChar.natCast_inj (F := Scalar) (by omega) (by decide) hsum
  omega

/-! ## Digests -/

theorem yields_halves {who : Circuit.Prover} {high low : Lc Scalar Scalar} {digest : List UInt8}
    (hlen : digest.length = 32) (hhigh : high.Holds who (fromBe (halfOf digest 0)))
    (hlow : low.Holds who (fromBe (halfOf digest 1))) :
    (digestBits high low).Yields who (Boolean.HoldsAll who · (bytesBits digest)) := by
  have hhalf : ∀ {a : Lc Scalar Scalar} {i : ℕ}, i < 2 → a.Holds who (fromBe (halfOf digest i)) →
      (bits a 128).Yields who (Boolean.HoldsAll who · (bytesBits (halfOf digest i))) := by
    intro a i hi ha
    rw [fromBe, ← beBits_bytesBits] at ha
    have hbits : (bytesBits (halfOf digest i)).length = 128 := by
      rw [length_bytesBits, length_halfOf hlen hi]
      rfl
    exact yields_bits ha hbits (by decide)
  have hsplit : bytesBits digest = bytesBits (halfOf digest 0) ++ bytesBits (halfOf digest 1) := by
    rw [← bytesBits_append]
    refine congrArg bytesBits ?_
    have hlow : halfOf digest 1 = digest.drop 16 := by
      refine List.take_of_length_le ?_
      rw [List.length_drop, hlen]
      decide
    rw [hlow]
    exact (List.take_append_drop 16 digest).symm
  rw [hsplit]
  refine (hhalf (by decide) hhigh).bind fun out hout => (hhalf (by decide) hlow).bind fun rest hrest => ?_
  exact Circuit.yields_pure (List.rel_append hout hrest)

/-- What stands behind accepted public values: the state that the signed bytes were hashed on from, the signed
bytes, the items with the birth date and with the commitment, the seed, and the two signatures. -/
structure Evidence where
  start : Sha256.HashState
  signed : List UInt8
  item : List UInt8
  ssc : List UInt8
  seed : Bytes 16
  issuerSignature : ℕ × ℕ
  deviceSignature : ℕ × ℕ

namespace Evidence

def signedDigest (e : Evidence) : List UInt8 := (Sha256.compressAll e.start (chunks 64 e.signed)).bytes

def itemDigest (e : Evidence) : List UInt8 := (Sha256.compressAll Sha256.iv (chunks 64 e.item)).bytes

def sscDigest (e : Evidence) : List UInt8 := (Sha256.compressAll Sha256.iv (chunks 64 e.ssc)).bytes

/-- The evidence is the credential that the public values are about: every digest is listed in the signed bytes,
every value stands after its key, and the two signatures are the keys'. -/
structure Shows (e : Evidence) (pub : Public) : Prop where
  issuerSigned : Signs (fromBe pub.issuerKey.x.val, fromBe pub.issuerKey.y.val) (bytesNat e.signedDigest)
    e.issuerSignature
  credentialType : pub.request.credentialType.bytes <:+: e.signed
  itemListed : Mdoc.digestHead ++ e.itemDigest <:+: e.signed
  attributeName : pub.request.attributeName.bytes <:+: e.item
  birthDate : ∃ text : Bytes 10, Mdoc.value ++ text.val <:+: e.item ∧
    bornFromDigits pub.bornFrom ≤ readNumber dateDigits text.val ∧ readNumber dateDigits text.val ≤ pub.bornBy.digits
  started : ∃ text : Bytes 20, Mdoc.validFrom ++ text.val <:+: e.signed ∧
    readNumber dateTimeDigits text.val ≤ pub.now.digits
  notExpired : ∃ text : Bytes 20, Mdoc.validUntil ++ text.val <:+: e.signed ∧
    pub.now.digits < readNumber dateTimeDigits text.val
  deviceSigned : ∃ x y : Bytes 32, Mdoc.deviceKey ++ (x.val ++ (Mdoc.deviceKeyY ++ y.val)) <:+: e.signed ∧
    Signs (fromBe x.val, fromBe y.val) (bytesNat pub.challenge.val) e.deviceSignature
  sscListed : Mdoc.digestHead ++ e.sscDigest <:+: e.signed
  sscNamed : Mdoc.mdocIdentifier <:+: e.ssc
  commitment : Mdoc.mdocValue ++ Sha256.hash e.seed.val <:+: e.ssc

end Evidence

/-! ## The rules of the credential -/

namespace Mdoc

section Credential

variable {bytes : List (Lc Scalar Scalar)} {bs : List UInt8}

theorem holds_slice {who : Circuit.Prover} (hbytes : Lc.HoldAll who bytes (bs.map UInt8.toNat)) (i n : ℕ) :
    Lc.HoldAll who ((bytes.drop i).take n) (((bs.drop i).take n).map UInt8.toNat) := by
  rw [List.map_take, List.map_drop]
  exact List.forall₂_take n (List.forall₂_drop i hbytes)

end Credential

end Mdoc

section Messages

variable {cells : Cells Scalar Scalar} {region : Region}

variable {m : Message Scalar Scalar} {k : ℕ}

end Messages

section Core

variable {constants : Constants Scalar} {A : p256.Point} {B : ℕ → p256.Point} {cells : Cells Scalar Scalar}

theorem eq_of_halves {a b : List UInt8} (ha : a.length = 32) (hb : b.length = 32)
    (h : ∀ i < 2, (fromBe (halfOf a i) : Scalar) = fromBe (halfOf b i)) : a = b := by
  rw [← stateBytes_halfOf (F := Scalar) ha, ← stateBytes_halfOf (F := Scalar) hb]
  exact stateBytes_congr h

theorem abs_readNumber_lt {places : List ℕ} (hplaces : places.length ≤ 14) (text : List UInt8) :
    |readNumber places text| < 23 * 10 ^ 14 := by
  have hlt := abs_digitsInt_lt (places.map fun i => text.getD i 0).reverse
  rw [List.length_reverse, List.length_map] at hlt
  have hpow : 10 ^ places.length ≤ 10 ^ 14 := Nat.pow_le_pow_right (by decide) hplaces
  have hcast : ((10 ^ places.length : ℕ) : ℤ) = 10 ^ places.length := by push_cast; rfl
  unfold readNumber
  omega

variable {e : Evidence} {facts : Facts Scalar Scalar} {f : FactSlots} {nymSlots : List (AllocatedNum Scalar Scalar)}
  {s : Statement} {circuit : ApprovedCircuit} {pub : Public} {verifierInput : Bytes 32}

end Core

end ZkCredVega.Nym
