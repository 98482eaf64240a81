import ZkCredVega.Claims.Core
import ZkCredVega.Ecc.Ecdsa

/-!
# The core circuit's signature check

`MdocCoreCircuit::precommitted` reads the bits of the structure's digest as a number with
`bits_be_to_bignat`, and checks the issuer's signature on it with `verify_ecdsa_p256_with_digest`.
-/

namespace ZkCredVega

open Circuits
open Nonnative (BigNat limbWidth nLimbs evalList limbsOf limbsToNat)

section Gadgets

variable {F V : Type} [Field F] [One V]

/-- The bits of limb `k`, least significant first, of a number whose bits are most significant first. -/
def limbBits (bits : List (Boolean V)) (k : ℕ) : List (Boolean V) :=
  (List.range limbWidth).map fun j => Boolean.nth bits (255 - 64 * k - j)

def limbLc (bits : List (Boolean V)) : LC F V := LC.sum (bits.zipIdx.map fun t => t.1.lc (2 ^ t.2))

def limbValue (bits : List (Boolean V)) : Option F :=
  bits.zipIdx.foldlM (fun v t => t.1.value.map fun b => if b then v + 2 ^ t.2 else v) 0

def bitsBeToBignat [ToRepr F] (bits : List (Boolean V)) : Circuit F V (BigNat F V) := do
  .assert (bits.length = nLimbs * limbWidth)
  let limbValues := (List.range nLimbs).mapM fun k => limbValue (limbBits bits k)
  pure
    { limbs := (List.range nLimbs).map fun k => limbLc (limbBits bits k)
      limbValues := limbValues
      value := limbValues.map fun vs => limbsToNat limbWidth (vs.map ToRepr.toNat)
      params := .new limbWidth nLimbs }

end Gadgets

/-- The check of the core circuit; the signature's numbers are read as bytes, so none is negative. -/
def verifyDigestBits {V : Type} [One V] : EcdsaCheck Scalar V := fun qx qy r s sInv z => do
  let zBn ← bitsBeToBignat z
  verifyEcdsaP256WithDigest qx qy r.toNat s.toNat sInv.toNat zBn

/-! ## The number of the digest's bits -/

section Number

variable {F : Type} [Field F] {who : Circuit.Prover}

/-- The prover's value, on top of what the lower places are worth. -/
theorem foldlM_limbValue {bits : List (Boolean F)} {xs : List Bool} (h : Boolean.HonestReadsAll bits xs) (k : ℕ)
    (v : F) : (bits.zipIdx k).foldlM (fun v t => t.1.value.map fun b => if b then v + 2 ^ t.2 else v) v =
      some (v + 2 ^ k * ((leBits xs : ℕ) : F)) := by
  induction h generalizing k v with
  | nil => simp
  | @cons b x bits xs hb _ ih =>
    rw [List.zipIdx_cons, List.foldlM_cons, hb.value_eq]
    show (bits.zipIdx (k + 1)).foldlM _ (if x then v + 2 ^ k else v) = _
    rw [ih, leBits_cons]
    cases x with
    | true =>
      simp only [if_true, Bool.toNat_true]
      push_cast
      ring_nf
    | false =>
      simp only [Bool.false_eq_true, if_false, Bool.toNat_false]
      push_cast
      ring_nf

omit [Field F] in
theorem mapM_eq_some {α β : Type} {f : α → Option β} {g : α → β} {xs : List α} (h : ∀ x ∈ xs, f x = some (g x)) :
    xs.mapM f = some (xs.map g) := by
  induction xs with
  | nil => rfl
  | cons x xs ih =>
    rw [List.forall_mem_cons] at h
    rw [List.mapM_cons, h.1, ih h.2]
    rfl

theorem limbValue_eq {bits : List (Boolean F)} {xs : List Bool} (h : Boolean.HonestReadsAll bits xs) :
    (limbValue bits : Option F) = some ((leBits xs : ℕ) : F) := by
  rw [limbValue, foldlM_limbValue h 0 0, pow_zero, one_mul, zero_add]

theorem holds_limbBits {bits : List (Boolean F)} {bs : List UInt8} (h : Boolean.HoldsAll who bits (bytesBits bs))
    (hlen : bs.length = 32) {k : ℕ} (hk : k < nLimbs) :
    Boolean.HoldsAll who (limbBits bits k) (toLEBits 64 (bytesNat bs / 2 ^ (64 * k) % 2 ^ 64)) := by
  unfold limbBits toLEBits
  rw [Boolean.HoldsAll, List.forall₂_map_left_iff, List.forall₂_map_right_iff, show limbWidth = 64 from rfl,
    List.forall₂_same]
  intro j hj
  have hj := List.mem_range.mp hj
  have hfour : nLimbs = 4 := rfl
  have hbit := testBit_bytesNat (w := bs) (i := 255 - 64 * k - j) (by omega)
  rw [hlen, show 32 * 8 - 1 - (255 - 64 * k - j) = j + 64 * k by omega] at hbit
  rw [Nat.testBit_mod_two_pow, Nat.testBit_div_two_pow, decide_eq_true hj, Bool.true_and, hbit]
  exact h.nth _

variable [ToRepr F] [LawfulToRepr F]

theorem yields_bitsBeToBignat {bits : List (Boolean F)} {bs : List UInt8}
    (h : Boolean.HoldsAll who bits (bytesBits bs)) (hlen : bs.length = 32) :
    (bitsBeToBignat bits).Yields who (·.WellFormed who (limbsOf (bytesNat bs) 64 4)) := by
  have hlimb : ∀ k, leBits (toLEBits 64 (bytesNat bs / 2 ^ (64 * k) % 2 ^ 64)) =
      bytesNat bs / 2 ^ (64 * k) % 2 ^ 64 := fun k => leBits_toLEBits (Nat.mod_lt _ (by positivity))
  have hbits : bits.length = nLimbs * limbWidth := by
    rw [h.length_eq, length_bytesBits, hlen]
    rfl
  refine (Circuit.yields_assert hbits).bind fun _ _ => Circuit.yields_pure ?_
  have hvalues : who = .honest → ((List.range nLimbs).mapM fun k => (limbValue (limbBits bits k) : Option F)) =
      some ((limbsOf (bytesNat bs) 64 4).map fun n : ℕ => (n : F)) := by
    rintro rfl
    rw [limbsOf, List.map_map]
    refine mapM_eq_some fun k hk => ?_
    have hk := List.mem_range.mp hk
    rw [limbValue_eq (holds_limbBits h hlen hk), hlimb k]
    rfl
  refine ⟨⟨⟨?_, hvalues⟩, fun hw => ?_, fun n hn => Nat.le_sub_one_of_lt (Nonnative.limbsOf_lt hn)⟩,
    Nonnative.length_limbsOf _ 64 4, fun n hn => Nonnative.limbsOf_lt hn, rfl⟩
  · show ((List.range nLimbs).map fun k => (limbLc (limbBits bits k) : LC F F)).map LC.eval = _
    rw [limbsOf, List.map_map, List.map_map]
    refine List.map_congr_left fun k hk => ?_
    have heval := Boolean.eval_packLE (holds_limbBits h hlen (List.mem_range.mp hk)).reads
    rw [hlimb k] at heval
    simp only [Function.comp_apply]
    rw [limbLc, heval]
  · show Option.map _ ((List.range nLimbs).mapM fun k => (limbValue (limbBits bits k) : Option F)) = _
    have hsmall : (2 : ℕ) ^ 64 < 2 ^ 255 := by decide
    have hrepr : ((limbsOf (bytesNat bs) 64 4).map fun n : ℕ => (n : F)).map ToRepr.toNat =
        limbsOf (bytesNat bs) 64 4 := by
      rw [List.map_map]
      refine (List.map_congr_left fun n hn => ?_).trans (List.map_id _)
      exact LawfulToRepr.toNat_natCast ((Nonnative.limbsOf_lt hn).trans hsmall)
    rw [hvalues hw, Option.map_some, hrepr]
    rfl

end Number

/-! ## A signature on the digest -/

/-- A signature on the digest's number satisfies the check, under a key of the group's order. -/
theorem succeeds_verifyDigestBits {qx qy : AllocatedNum Scalar Scalar} {x y : Scalar} {hQ : p256.Nonsingular x y}
    {z : List (Boolean Scalar)} {digest : List UInt8} (hz : Boolean.HonestReadsAll z (bytesBits digest))
    (hlen : digest.length = 32) {r s i : ℤ} (hr : r.toNat < 2 ^ 256) (hs : s.toNat < 2 ^ 256) (hi : i.toNat < 2 ^ 256)
    (hinverse : s.toNat * i.toNat % p256Order = 1) (hx : qx.Holds .honest x) (hy : qy.Holds .honest y)
    (horder : p256Order • (.some x y hQ : p256.Point) = 0) {v w : Scalar} {hR : p256.Nonsingular v w}
    (hsum : (bytesNat digest * i.toNat % p256Order) • generator +
      (r.toNat * i.toNat % p256Order) • (.some x y hQ : p256.Point) = .some v w hR)
    (hmod : ToRepr.toNat v % p256Order = r.toNat) :
    (verifyDigestBits qx qy r s i z).Succeeds fun _ => True := by
  have hlt := bytesNat_lt digest
  rw [hlen] at hlt
  have hbits : (bitsBeToBignat z).Yields .honest _ := yields_bitsBeToBignat hz hlen
  exact hbits.succeeds.bind fun zBn hzBn => succeeds_verify hlt hr hs hi hinverse hzBn hx hy horder hsum hmod

/-- Under the generator a signature with the random number `1` has the generator's `x` for `r`. -/
theorem succeeds_verifyDigestBits_generator {z : List (Boolean Scalar)} {digest : List UInt8}
    (hz : Boolean.HonestReadsAll z (bytesBits digest)) (hlen : digest.length = 32) {qx qy : AllocatedNum Scalar Scalar}
    (hx : qx.Holds .honest (generatorX : Scalar)) (hy : qy.Holds .honest (generatorY : Scalar)) {s i : ℤ}
    (hs : s.toNat < 2 ^ 256) (hi : i.toNat < 2 ^ 256) (hinverse : s.toNat * i.toNat % p256Order = 1)
    (hsum : (bytesNat digest * i.toNat % p256Order + generatorX * i.toNat % p256Order) % p256Order = 1) :
    (verifyDigestBits qx qy generatorX s i z).Succeeds fun _ => True := by
  have hone : (bytesNat digest * i.toNat % p256Order) • generator + (generatorX * i.toNat % p256Order) • generator =
      generator := by
    rw [← add_nsmul, ← mod_nsmul order_nsmul_generator, hsum, one_nsmul]
  refine succeeds_verifyDigestBits hz hlen ?_ hs hi hinverse hx hy order_nsmul_generator hone ?_
  · decide
  · decide +kernel

end ZkCredVega
