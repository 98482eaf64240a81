import ZkCredVega.Circuit.Trace
import ZkCredVega.Nonnative.Decompose

/-!
# ECDSA over P-256

`verify_ecdsa_p256_with_digest` of `ecdsa.rs`: the inverse of `s` and the two scalars modulo the order with
non-native numbers, their multiples with native points, and the sum's `x` modulo the order against `r`. The
rules ask neither that `r` is from `1` to below the order, nor that the sum is finite, nor that its `x` is
taken by its representative below the field's modulus.
-/

namespace ZkCredVega

open Circuits
open Nonnative (BigNat Num allocBignatConstant limbWidth nLimbs evalList limbsOf)

section Gadgets

variable {F V : Type} [Field F] [DecidableEq F] [One V]

namespace AllocatedPoint

def checkOnCurve (a b : F) (self : AllocatedPoint F V) : Circuit F V Unit := do
  let ySquare ← self.y.square
  let xSquare ← self.x.square
  let xCube ← self.x.mul xSquare
  let rhs ← allocDefined
    (do
      if (← assigned self.isInfinity.value) = 1 then pure 0
      else pure ((← assigned xCube.value) + (← assigned self.x.value) * a + b))
    (fun _ => xCube.lc + .term a self.x.var + .const b) (fun _ => .const 1 - self.isInfinity.lc) fun rhs => rhs.lc
  .require ySquare.lc (.const 1 - self.isInfinity.lc) rhs.lc

def allocConstant (coords : F × F) (isInfinity : AllocatedNum F V) : Circuit F V (AllocatedPoint F V) := do
  let x ← ZkCredVega.allocConstant coords.1
  let y ← ZkCredVega.allocConstant coords.2
  pure ⟨x, y, isInfinity⟩

end AllocatedPoint

end Gadgets

section Verify

variable {V : Type} [One V]

structure SignatureNumbers (V : Type) where
  n : BigNat Scalar V
  one : BigNat Scalar V
  r : BigNat Scalar V
  s : BigNat Scalar V
  sInv : BigNat Scalar V

/-- The numbers of a signature, each well formed. -/
@[irreducible] def allocSignature (r s sInv : ℕ) : Circuit Scalar V (SignatureNumbers V) := do
  let n ← allocBignatConstant p256Order limbWidth nLimbs
  let one ← allocBignatConstant 1 limbWidth nLimbs
  let r ← BigNat.allocChecked (.ok r) limbWidth nLimbs
  let s ← BigNat.allocChecked (.ok s) limbWidth nLimbs
  let sInv ← BigNat.allocChecked (.ok sInv) limbWidth nLimbs
  pure ⟨n, one, r, s, sInv⟩

/-- The two scalars: `z / s` and `r / s` modulo the order. -/
@[irreducible] def signatureScalars (z : BigNat Scalar V) (t : SignatureNumbers V) :
    Circuit Scalar V (List (AllocatedBit V) × List (AllocatedBit V)) := do
  let product ← t.s.multMod t.sInv t.n
  product.2.equalWhenCarriedRegroup t.one
  let u1 ← z.multMod t.sInv t.n
  let u2 ← t.r.multMod t.sInv t.n
  let u1Bits ← u1.2.decomposeAllocated
  let u2Bits ← u2.2.decomposeAllocated
  pure (u1Bits, u2Bits)

@[irreducible] def signaturePoint (qx qy : AllocatedNum Scalar V) (u : List (AllocatedBit V) × List (AllocatedBit V)) :
    Circuit Scalar V (AllocatedPoint Scalar V) := do
  let gIsInfinity ← allocConstant 0
  let g ← AllocatedPoint.allocConstant ((generatorX : Scalar), (generatorY : Scalar)) gIsInfinity
  let qIsInfinity ← allocConstant 0
  let q : AllocatedPoint Scalar V := ⟨qx, qy, qIsInfinity⟩
  q.checkOnCurve curveParams.1 curveParams.2
  let u1G ← g.scalarMul curveParams.1 u.1
  let u2Q ← q.scalarMul curveParams.1 u.2
  AllocatedPoint.add curveParams.1 u1G u2Q

/-- The sum's `x` modulo the order is `r`. -/
@[irreducible] def checkX (t : SignatureNumbers V) (point : AllocatedPoint Scalar V) : Circuit Scalar V Unit := do
  let x ← BigNat.fromNum ⟨point.x.lc, point.x.value⟩ limbWidth nLimbs
  let xModN ← x.redMod t.n
  xModN.2.equalWhenCarriedRegroup t.r

/-- What `verify_ecdsa_p256_with_digest` asks of the numbers. -/
def checkSignature (qx qy : AllocatedNum Scalar V) (z : BigNat Scalar V) (t : SignatureNumbers V) :
    Circuit Scalar V Unit := do
  let u ← signatureScalars z t
  let point ← signaturePoint qx qy u
  checkX t point

def verifyEcdsaP256WithDigest (qx qy : AllocatedNum Scalar V) (r s sInv : ℕ) (z : BigNat Scalar V) :
    Circuit Scalar V Unit := do
  let t ← allocSignature r s sInv
  checkSignature qx qy z t

end Verify

/-! ## What the rules hold -/

section Rules

open AllocatedPoint (HoldBits)

structure SignatureNumbers.WellFormed (who : Circuit.Prover) (t : SignatureNumbers Scalar) (rs ss is : List ℕ) : Prop where
  n : t.n.WellFormed who (limbsOf p256Order 64 4)
  one : t.one.WellFormed who (limbsOf 1 64 4)
  r : t.r.WellFormed who rs
  s : t.s.WellFormed who ss
  sInv : t.sInv.WellFormed who is

theorem ensures_allocNumber {value : Outcome ℕ} :
    (BigNat.allocChecked value limbWidth nLimbs : Circuit Scalar Scalar _).Ensures fun a =>
      ∃ ns : List ℕ, a.WellFormed .any ns := by
  refine (Nonnative.ensures_allocChecked (by decide)).mono fun a ha => ?_
  obtain ⟨ns, hlen, hholds, hparams, hlt⟩ := ha
  exact ⟨ns, hholds, hlen, hlt, hparams⟩

theorem ensures_allocSignature {r s sInv : ℕ} :
    (allocSignature r s sInv).Ensures fun t => ∃ rs ss is : List ℕ, t.WellFormed .any rs ss is := by
  unfold allocSignature
  refine (Nonnative.ensures_allocBignatConstant (by decide)).bind fun n hn => ?_
  refine (Nonnative.ensures_allocBignatConstant (by decide)).bind fun one hone => ?_
  refine ensures_allocNumber.bind fun r hr => ?_
  refine ensures_allocNumber.bind fun s hs => ?_
  refine ensures_allocNumber.bind fun sInv hsInv => Circuit.ensures_pure.mpr ?_
  obtain ⟨rs, hr⟩ := hr
  obtain ⟨ss, hs⟩ := hs
  obtain ⟨is, hsInv⟩ := hsInv
  exact ⟨rs, ss, is, hn, hone, hr, hs, hsInv⟩

variable {z : BigNat Scalar Scalar} {zs rs ss is : List ℕ} {t : SignatureNumbers Scalar}

theorem evalList_order : evalList (2 ^ 64) (limbsOf p256Order 64 4) = p256Order :=
  Nonnative.evalList_limbsOf (by decide)

/-- The scalars are the quotients by `s`, modulo the order. -/
theorem ensures_signatureScalars (hz : z.WellFormed .any zs) (ht : t.WellFormed .any rs ss is) :
    (signatureScalars z t).Ensures fun u => evalList (2 ^ 64) ss * evalList (2 ^ 64) is % p256Order = 1 ∧
      ∃ xs ys : List Bool, xs.length = 256 ∧ ys.length = 256 ∧ HoldBits .any u.1 xs ∧ HoldBits .any u.2 ys ∧
        leBits xs ≡ evalList (2 ^ 64) zs * evalList (2 ^ 64) is [MOD p256Order] ∧
        leBits ys ≡ evalList (2 ^ 64) rs * evalList (2 ^ 64) is [MOD p256Order] := by
  have horder := evalList_order
  have hone : evalList (2 ^ 64) (limbsOf 1 64 4) = 1 := Nonnative.evalList_limbsOf (by decide)
  have hmod : ∀ {q r v : ℕ}, v = q * evalList (2 ^ 64) (limbsOf p256Order 64 4) + r → r ≡ v [MOD p256Order] := by
    intro q r v hv
    rw [hv, horder]
    exact (Nat.ModEq.symm (Nat.mul_add_mod_self_right _ _ _))
  unfold signatureScalars
  refine (Nonnative.ensures_multMod ht.s ht.sInv ht.n).bind fun product hproduct => ?_
  obtain ⟨qs, ps, -, hps, -, hproduct⟩ := hproduct
  refine (Nonnative.ensures_equal hps ht.one).bind fun _ hequal => ?_
  refine (Nonnative.ensures_multMod hz ht.sInv ht.n).bind fun u1 hu1 => ?_
  refine (Nonnative.ensures_multMod ht.r ht.sInv ht.n).bind fun u2 hu2 => ?_
  obtain ⟨qs₁, us, -, hus, -, hu1⟩ := hu1
  obtain ⟨qs₂, vs, -, hvs, -, hu2⟩ := hu2
  refine (Nonnative.ensures_decomposeAllocated hus).bind fun u1Bits hu1Bits => ?_
  refine (Nonnative.ensures_decomposeAllocated hvs).bind fun u2Bits hu2Bits => Circuit.ensures_pure.mpr ?_
  obtain ⟨xs, hxlen, hxs, hxvalue⟩ := hu1Bits
  obtain ⟨ys, hylen, hys, hyvalue⟩ := hu2Bits
  refine ⟨?_, xs, ys, hxlen, hylen, hxs, hys, ?_, ?_⟩
  · have hinverse := hmod hproduct
    rw [hequal, hone] at hinverse
    exact hinverse.symm
  · rw [hxvalue]
    exact hmod hu1
  · rw [hyvalue]
    exact hmod hu2

variable {qx qy : AllocatedNum Scalar Scalar}

theorem equation_p256_iff {x y : Scalar} : p256.Equation x y ↔ y * y = x * (x * x) + curveParams.1 * x + curveParams.2 := by
  rw [WeierstrassCurve.Affine.equation_iff]
  simp only [weierstrass]
  exact ⟨fun h => by linear_combination h, fun h => by linear_combination h⟩

theorem yields_rightSide {who : Circuit.Prover} {q : AllocatedPoint Scalar Scalar} {x y : Scalar}
    (hq : q.HoldsAt who x y false) {xCube : AllocatedNum Scalar Scalar} (hxCube : xCube.Holds who (x * (x * x))) :
    (allocDefined
      (do
        if (← assigned q.isInfinity.value) = 1 then pure 0
        else pure ((← assigned xCube.value) + (← assigned q.x.value) * curveParams.1 + curveParams.2))
      (fun _ => xCube.lc + .term curveParams.1 q.x.var + .const curveParams.2)
      (fun _ => .const 1 - q.isInfinity.lc) fun rhs => rhs.lc : Circuit Scalar Scalar _).Yields who
      (·.Holds who (x * (x * x) + curveParams.1 * x + curveParams.2)) := by
  have hflag : q.isInfinity.val = 0 := hq.isInfinity.val_eq
  apply yields_allocDefined
  · intro n
    have hx : q.x.var = x := hq.x.val_eq
    simp only [LC.eval_add, LC.eval_sub, LC.eval_term, LC.eval_const, AllocatedNum.eval_lc, hflag, hx, hxCube.val_eq,
      sub_zero, mul_one]
    exact eq_comm
  · rintro rfl
    rw [assigned_eq hq.isInfinity, assigned_eq hxCube, assigned_eq hq.x]
    show (if (0 : Scalar) = 1 then (pure 0 : Outcome Scalar)
      else pure (x * (x * x) + x * curveParams.1 + curveParams.2)) = _
    rw [if_neg zero_ne_one, mul_comm x curveParams.1]
    rfl

theorem yields_numMul {who : Circuit.Prover} {m n : AllocatedNum Scalar Scalar} {v w : Scalar} (hm : m.Holds who v)
    (hn : n.Holds who w) : (m.mul n).Yields who (·.Holds who (v * w)) := by
  refine AllocatedNum.yields_allocEqual ?_ ?_
  · rw [AllocatedNum.eval_lc, AllocatedNum.eval_lc, hm.val_eq, hn.val_eq]
  · rintro rfl
    rw [assigned_eq hm, assigned_eq hn]
    rfl

theorem ensures_checkOnCurve {q : AllocatedPoint Scalar Scalar} {x y : Scalar} (hq : q.HoldsAt .any x y false) :
    (q.checkOnCurve curveParams.1 curveParams.2).Ensures fun _ => p256.Equation x y := by
  have hflag : q.isInfinity.val = 0 := hq.isInfinity.val_eq
  refine (yields_square hq.y).ensures.bind fun ySquare hySquare => ?_
  refine (yields_square hq.x).ensures.bind fun xSquare hxSquare => ?_
  refine (yields_numMul hq.x hxSquare).ensures.bind fun xCube hxCube => ?_
  refine (yields_rightSide hq hxCube).ensures.bind fun rhs hrhs => ?_
  refine Circuit.ensures_require.mono fun _ heq => equation_p256_iff.mpr ?_
  rwa [LC.eval_sub, LC.eval_const, AllocatedNum.eval_lc, AllocatedNum.eval_lc, AllocatedNum.eval_lc, hySquare.val_eq,
    hrhs.val_eq, hflag, sub_zero, mul_one] at heq

theorem yields_checkOnCurve {who : Circuit.Prover} {q : AllocatedPoint Scalar Scalar} {x y : Scalar}
    (hq : q.HoldsAt who x y false) (hequation : p256.Equation x y) :
    (q.checkOnCurve curveParams.1 curveParams.2).Yields who fun _ => True := by
  have hflag : q.isInfinity.val = 0 := hq.isInfinity.val_eq
  refine (yields_square hq.y).bind fun ySquare hySquare => ?_
  refine (yields_square hq.x).bind fun xSquare hxSquare => ?_
  refine (yields_numMul hq.x hxSquare).bind fun xCube hxCube => ?_
  refine (yields_rightSide hq hxCube).bind fun rhs hrhs => Circuit.yields_require ?_
  rw [LC.eval_sub, LC.eval_const, AllocatedNum.eval_lc, AllocatedNum.eval_lc, AllocatedNum.eval_lc, hySquare.val_eq,
    hrhs.val_eq, hflag, sub_zero, mul_one]
  exact equation_p256_iff.mp hequation

/-- The sum of the two multiples, for a key whose order is the group's. -/
theorem ensures_signaturePoint {u : List (AllocatedBit Scalar) × List (AllocatedBit Scalar)} {xs ys : List Bool}
    (hxlen : xs.length = 256) (hylen : ys.length = 256) (hxs : HoldBits .any u.1 xs) (hys : HoldBits .any u.2 ys)
    (horder : ∀ h, p256Order • (.some qx.val qy.val h : p256.Point) = 0) :
    (signaturePoint qx qy u).Ensures fun point => ∃ h,
      point.Holds .any (leBits xs • generator + leBits ys • (.some qx.val qy.val h : p256.Point)) := by
  have hbig : 2 ^ 255 ≤ p256Order := by decide
  unfold signaturePoint
  refine (yields_allocConstant 0).ensures.bind fun gIsInfinity hgInf => ?_
  refine Circuit.Ensures.bind (P := fun g : AllocatedPoint Scalar Scalar => g.Holds .any generator) ?_ fun g hg => ?_
  · refine (yields_allocConstant _).ensures.bind fun x hx => ?_
    exact (yields_allocConstant _).ensures.bind fun y hy => Circuit.ensures_pure.mpr ⟨hx, hy, hgInf⟩
  refine (yields_allocConstant 0).ensures.bind fun qIsInfinity hqInf => ?_
  have hq : (⟨qx, qy, qIsInfinity⟩ : AllocatedPoint Scalar Scalar).HoldsAt .any qx.val qy.val false :=
    ⟨⟨rfl, fun h => by cases h⟩, ⟨rfl, fun h => by cases h⟩, hqInf⟩
  refine (ensures_checkOnCurve hq).bind fun _ hequation => ?_
  have hns := p256_nonsingular hequation
  have hmulG := AllocatedPoint.yields_scalarMul prime_p256Order hbig (WeierstrassCurve.Affine.Point.some_ne_zero _)
    order_nsmul_generator hg hxlen hxs
  have hmulQ := AllocatedPoint.yields_scalarMul prime_p256Order hbig (WeierstrassCurve.Affine.Point.some_ne_zero hns)
    (horder hns) (p := ⟨qx, qy, qIsInfinity⟩) hq hylen hys
  refine hmulG.ensures.bind fun u1G hu1G => ?_
  refine hmulQ.ensures.bind fun u2Q hu2Q => ?_
  exact (AllocatedPoint.ensures_add hu1G hu2Q).mono fun point hpoint => ⟨hns, hpoint⟩

/-- The limbs' number is some representative of the point's `x`, and `r` is one of its remainders. -/
theorem ensures_checkX (ht : t.WellFormed .any rs ss is) {point : AllocatedPoint Scalar Scalar} :
    (checkX t point).Ensures fun _ => ∃ m q : ℕ, m < 2 ^ 256 ∧ point.x.val = ((m : ℕ) : Scalar) ∧
      m = q * p256Order + evalList (2 ^ 64) rs := by
  unfold checkX
  refine Nonnative.ensures_fromNum.bind fun x hx => ?_
  obtain ⟨ns, hx, hvalue⟩ := hx
  refine (Nonnative.ensures_redMod hx ht.n).bind fun xModN hmod => ?_
  obtain ⟨qs, ms, -, hms, -, hmod⟩ := hmod
  refine (Nonnative.ensures_equal hms ht.r).mono fun _ hequal => ?_
  refine ⟨evalList (2 ^ 64) ns, evalList (2 ^ 64) qs, hx.evalList_lt_pow, ?_, ?_⟩
  · rw [← hvalue, AllocatedNum.eval_lc]
  · rw [← hequal, ← evalList_order]
    exact hmod

/-- A number below `2 ^ 256` that is worth an element: its representative, or that plus the modulus. -/
theorem representative_eq {x : Scalar} {m : ℕ} (hm : m < 2 ^ 256) (hx : x = ((m : ℕ) : Scalar)) :
    m = ToRepr.toNat x ∨ m = ToRepr.toNat x + fieldModulus := by
  have hval : ToRepr.toNat x = m % fieldModulus := by
    rw [hx]
    exact ZMod.val_natCast _ _
  have hbig : 2 ^ 256 < 2 * fieldModulus := by decide
  rw [hval]
  have hdiv : m / fieldModulus < 2 := Nat.div_lt_of_lt_mul (by omega)
  have hsplit := Nat.mod_add_div m fieldModulus
  interval_cases m / fieldModulus
  · left
    omega
  · right
    omega

end Rules

/-! ## Validity -/

section Validity

/-- The point of the verification: `(z / s) G + (r / s) Q`. -/
noncomputable def verificationPoint (Q : p256.Point) (z r s : ℕ) : p256.Point :=
  (z * invertMod s % p256Order) • generator + (r * invertMod s % p256Order) • Q

/-- `(r, s)` is a signature on `z` under `Q`. -/
structure ValidSignature (Q : p256.Point) (z r s : ℕ) : Prop where
  r_pos : 0 < r
  r_lt : r < p256Order
  s_coprime : s.Coprime p256Order
  x_eq : ∃ (x y : Scalar) (h : p256.Nonsingular x y), verificationPoint Q z r s = .some x y h ∧
    ToRepr.toNat x ≡ r [MOD p256Order]

/-- What the rules do not ask: that `r` is from `1` to below the order, that the point is finite, and that `r` is
not its `x` plus the field's modulus, for an `x` so small that the sum has 256 bits. -/
structure Unambiguous (Q : p256.Point) (z r s : ℕ) : Prop where
  r_pos : 0 < r
  r_lt : r < p256Order
  x_ne : ∃ (x y : Scalar) (h : p256.Nonsingular x y), verificationPoint Q z r s = .some x y h ∧
    ¬(ToRepr.toNat x + fieldModulus < 2 ^ 256 ∧ ToRepr.toNat x + fieldModulus ≡ r [MOD p256Order])

theorem modEq_invertMod {s i : ℕ} (h : s * i % p256Order = 1) : i ≡ invertMod s [MOD p256Order] := by
  have hone : (s : ZMod p256Order) * (i : ZMod p256Order) = 1 := by
    have hcast : ((s * i : ℕ) : ZMod p256Order) = ((1 : ℕ) : ZMod p256Order) := by
      rw [ZMod.natCast_eq_natCast_iff]
      exact h
    rwa [Nat.cast_mul, Nat.cast_one] at hcast
  rw [← ZMod.natCast_eq_natCast_iff, invertMod, ZMod.natCast_zmod_val]
  exact eq_inv_of_mul_eq_one_right hone

theorem coprime_of_mul {s i : ℕ} (h : s * i % p256Order = 1) : s.Coprime p256Order := by
  have hdvd : ¬p256Order ∣ s := by
    rintro ⟨k, rfl⟩
    rw [Nat.mul_assoc, Nat.mul_mod_right] at h
    cases h
  exact ((Nat.Prime.coprime_iff_not_dvd prime_p256Order).mpr hdvd).symm

theorem nsmul_eq_of_modEq {P : p256.Point} (horder : p256Order • P = 0) {u v : ℕ} (h : u ≡ v [MOD p256Order]) :
    u • P = v • P := by
  rw [← mod_nsmul (k := u) horder, ← mod_nsmul (k := v) horder, h]

theorem multiples_eq_verificationPoint {Q : p256.Point} (horder : p256Order • Q = 0) {z r s i u v : ℕ}
    (hinverse : s * i % p256Order = 1) (hu : u ≡ z * i [MOD p256Order]) (hv : v ≡ r * i [MOD p256Order]) :
    u • generator + v • Q = verificationPoint Q z r s := by
  have hi := modEq_invertMod hinverse
  rw [verificationPoint, mod_nsmul order_nsmul_generator, mod_nsmul horder,
    nsmul_eq_of_modEq order_nsmul_generator (hu.trans (hi.mul_left z)), nsmul_eq_of_modEq horder (hv.trans (hi.mul_left r))]

theorem modulus_not_modEq : ¬fieldModulus ≡ 0 [MOD p256Order] := by decide +kernel

/-- With a number of 256 bits that is worth the point's `x` and leaves `r`, the signature is valid exactly when
nothing that the rules leave open goes wrong. -/
theorem valid_iff_unambiguous {Q : p256.Point} {z r s m q : ℕ} (hs : s.Coprime p256Order) (hm : m < 2 ^ 256)
    (hx : ∀ x y h, verificationPoint Q z r s = .some x y h → x = ((m : ℕ) : Scalar)) (hmod : m = q * p256Order + r) :
    ValidSignature Q z r s ↔ Unambiguous Q z r s := by
  have hmr : m ≡ r [MOD p256Order] := by
    rw [hmod]
    exact Nat.mul_add_mod_self_right _ _ _
  constructor
  · rintro ⟨hpos, hlt, -, x, y, h, hpoint, hxr⟩
    refine ⟨hpos, hlt, x, y, h, hpoint, ?_⟩
    rintro ⟨-, hsum⟩
    have hzero : ToRepr.toNat x + fieldModulus ≡ ToRepr.toNat x + 0 [MOD p256Order] := hsum.trans hxr.symm
    exact modulus_not_modEq (Nat.ModEq.add_left_cancel' _ hzero)
  · rintro ⟨hpos, hlt, x, y, h, hpoint, hne⟩
    refine ⟨hpos, hlt, hs, x, y, h, hpoint, ?_⟩
    rcases representative_eq hm (hx x y h hpoint) with hrep | hrep
    · rwa [← hrep]
    · rw [hrep] at hm hmr
      exact absurd ⟨hm, hmr⟩ hne

end Validity

/-! ## The multiple by zero -/

namespace AllocatedPoint

variable {F : Type} [Field F] [DecidableEq F] {who : Circuit.Prover} {a b : F}
variable {P : (weierstrass a b).Point} {p q : AllocatedPoint F F} {n : ℕ}

/-- The sum of a point and its negative has zeros for coordinates. -/
theorem yields_addNegative (hp : p.Holds who P) (hq : q.Holds who (-P)) (hP : P + P ≠ 0) :
    (add a p q).Yields who (·.HoldsAt who 0 0 true) := by
  cases P with
  | zero => exact absurd (add_zero _) hP
  | some x y h =>
    have hne : y ≠ (weierstrass a b).negY x y := fun heq => hP (WeierstrassCurve.Affine.Point.add_self_of_Y_eq heq)
    rw [negY_eq] at hne
    have hy : y + y ≠ 0 := fun heq => hne (by linear_combination heq)
    have hp : p.HoldsAt who x y false := hp
    have hq : q.HoldsAt who x (-y) false := by
      have hq : q.HoldsAt who x ((weierstrass a b).negY x y) false := hq
      rwa [negY_eq] at hq
    have hsum := yields_addAt (a := a) hp hq fun _ => hy
    simpa [usesEqualX, hne] using hsum

/-- A bit that is not set keeps the coordinates, also of infinity. -/
theorem yields_completeBit_clear (hn : n.Prime) (hodd : n ≠ 2) (hP : P ≠ 0) (hnP : n • P = 0)
    {t : AllocatedPoint F F × AllocatedPoint F F} (hacc : t.1.HoldsAt who 0 0 true) {k : ℕ} (hpower : t.2.Holds who (k • P))
    {bit : AllocatedBit F} (hbit : (Boolean.is bit).Holds who false) :
    (completeBit a t bit).Yields who fun t => t.1.HoldsAt who 0 0 true ∧ t.2.Holds who ((k + k) • P) := by
  have hzero : t.1.Holds who (0 : (weierstrass a b).Point) := ⟨0, 0, hacc⟩
  have hdoubles : ∀ j : ℕ, Doubles (j • P) := fun j => doubles_of fun h => nsmul_add_self hn hodd hP hnP h
  have hdoublesZero : Doubles (0 : (weierstrass a b).Point) := doubles_of fun _ => rfl
  refine (yields_add hzero hpower hdoublesZero).bind fun temp htemp => ?_
  obtain ⟨x, y, f, htemp, -⟩ := htemp.exists_holdsAt
  refine (yields_conditionallySelect htemp hacc hbit).bind fun acc hacc' => ?_
  refine (yields_doubleOf hpower (hdoubles k)).bind fun power hpower' => Circuit.yields_pure ⟨hacc', ?_⟩
  rw [add_nsmul]
  exact hpower'

theorem leBits_clear {xs : List Bool} (h : ∀ x ∈ xs, x = false) : leBits xs = 0 := by
  induction xs with
  | nil => rfl
  | cons x xs ih =>
    rw [List.forall_mem_cons] at h
    rw [leBits_cons, ih h.2, h.1]
    rfl

omit [DecidableEq F] in
theorem HoldBits.clear {bits : List (AllocatedBit F)} {xs : List Bool} (hbits : HoldBits who bits xs)
    (h : ∀ x ∈ xs, x = false) {bit : AllocatedBit F} (hbit : bit ∈ bits) : (Boolean.is bit).Holds who false := by
  obtain ⟨i, hi, rfl⟩ := List.mem_iff_getElem.mp hbit
  have hix : i < xs.length := hbits.length_eq ▸ hi
  have hread := HoldBits.getElem hbits hi hix
  rwa [h xs[i] (List.getElem_mem hix)] at hread

/-- The multiple by zero is infinity with zeros for coordinates. -/
theorem yields_scalarMul_zero (hn : n.Prime) (hbig : 2 ^ 255 ≤ n) (hP : P ≠ 0) (hnP : n • P = 0)
    (hp : p.Holds who P) {bits : List (AllocatedBit F)} {xs : List Bool} (hlen : xs.length = 256)
    (hbits : HoldBits who bits xs) (hclear : ∀ x ∈ xs, x = false) :
    (scalarMul a p bits).Yields who (·.HoldsAt who 0 0 true) := by
  have hodd : n ≠ 2 := by
    rintro rfl
    exact absurd hbig (by decide)
  have hbitsLen : bits.length = 256 := hbits.length_eq.trans hlen
  have hsplit : min bits.length (numBits - 2) = 254 := by
    rw [hbitsLen]
    rfl
  obtain ⟨hinitial, hflag⟩ : (AllocatedPointNonInfinity.fromAllocatedPoint p).Holds who P ∧
      p.isInfinity.Holds who (ofBool false) := by
    cases P with
    | zero => exact absurd rfl hP
    | some x y _ => exact ⟨⟨hp.x, hp.y⟩, hp.isInfinity⟩
  have hPP : P + P ≠ 0 := by
    rw [← two_nsmul]
    exact nsmul_ne_zero_of_lt hn hP hnP (by decide) (lt_of_lt_of_le (by decide) hbig)
  unfold scalarMul
  simp only [hsplit]
  refine (AllocatedPointNonInfinity.yields_doubleIncomplete hinitial hPP).bind fun doubled hdoubled => ?_
  have hmids : HoldBits who ((bits.take 254).drop 1) ((xs.take 254).drop 1) :=
    List.forall₂_drop 1 (List.forall₂_take 254 hbits)
  have hmidsLen : ((xs.take 254).drop 1).length = 253 := by
    rw [List.length_drop, List.length_take, hlen]
    rfl
  have hmidsClear : ∀ x ∈ (xs.take 254).drop 1, x = false := fun x hx =>
    hclear x (List.mem_of_mem_take (List.mem_of_mem_drop hx))
  have hloop := yields_incompleteBits hn hbig hP hnP hmidsLen.le hmids hinitial hdoubled
  refine hloop.bind fun t ht => ?_
  obtain ⟨acc, power⟩ := t
  obtain ⟨hacc, hpower⟩ := ht
  rw [List.take_length, leBits_clear hmidsClear, Nat.mul_zero, Nat.add_zero, one_nsmul] at hacc
  -- the power under a name, so that nothing computes it
  generalize 2 ^ (((xs.take 254).drop 1).length + 1) = k at hpower
  simp only
  refine (yields_negate hp).bind fun neg hneg => ?_
  refine (yields_addNegative (holds_toAllocatedPoint hacc hflag) hneg hPP).bind fun minus hminus => ?_
  obtain ⟨first, rest, rfl⟩ : ∃ first rest, bits = first :: rest := List.exists_cons_of_length_eq_add_one hbitsLen
  rw [firstBit, pure_bind]
  have hfirst : (Boolean.is first).Holds who false := HoldBits.clear hbits hclear List.mem_cons_self
  obtain ⟨x, y, f, haccAt, -⟩ := (holds_toAllocatedPoint hacc hflag).exists_holdsAt
  refine (yields_conditionallySelect haccAt hminus hfirst).bind fun res hres => ?_
  refine yields_default.bind fun zero hzero => ?_
  refine (ZkCredVega.yields_conditionallySelect2 hzero.x hres.x hflag).bind fun x' hx' => ?_
  refine (ZkCredVega.yields_conditionallySelect2 hzero.y hres.y hflag).bind fun y' hy' => ?_
  have hlast : ∀ bit ∈ (first :: rest).drop 254, (Boolean.is bit).Holds who false := fun bit hbit =>
    HoldBits.clear hbits hclear (List.mem_of_mem_drop hbit)
  have hlastLen : ((first :: rest).drop 254).length = 2 := by
    rw [List.length_drop, hbitsLen]
  have hcomplete : (((first :: rest).drop 254).foldlM (completeBit a)
      (⟨x', y', res.isInfinity⟩, power.toAllocatedPoint p.isInfinity)).Yields who fun t =>
        t.1.HoldsAt who 0 0 true := by
    have hstart : AllocatedPoint.HoldsAt who (⟨x', y', res.isInfinity⟩ : AllocatedPoint F F) 0 0 true :=
      ⟨hx', hy', hres.isInfinity⟩
    have hpowerAt := holds_toAllocatedPoint hpower hflag
    generalize (first :: rest).drop 254 = last at hlast hlastLen
    obtain ⟨b₀, b₁, rfl⟩ : ∃ b₀ b₁, last = [b₀, b₁] := List.length_eq_two.mp hlastLen
    have hb₀ := hlast b₀ List.mem_cons_self
    have hb₁ := hlast b₁ (List.mem_cons_of_mem _ List.mem_cons_self)
    rw [List.foldlM_cons]
    refine (yields_completeBit_clear hn hodd hP hnP hstart hpowerAt hb₀).bind fun t ht => ?_
    rw [List.foldlM_cons]
    exact (yields_completeBit_clear hn hodd hP hnP ht.1 ht.2 hb₁).bind fun t ht => Circuit.yields_pure ht.1
  exact hcomplete.bind fun t ht => Circuit.yields_pure ht

end AllocatedPoint

/-! ## The honest prover -/

section Honest

open AllocatedPoint (HoldBits)

theorem Nonnative.BigNat.WellFormed.any {a : BigNat Scalar Scalar} {ns : List ℕ} (h : a.WellFormed .honest ns) :
    a.WellFormed .any ns :=
  ⟨⟨⟨h.holds.poly.coefficients, fun hw => by cases hw⟩, (fun hw => by cases hw), h.holds.le⟩, h.length_eq, h.lt, h.params⟩

theorem succeeds_allocNumber {v : ℕ} (hv : v < 2 ^ 256) :
    (BigNat.allocChecked (.ok v) limbWidth nLimbs : Circuit Scalar Scalar _).Succeeds
      (·.WellFormed .honest (limbsOf v 64 4)) := by
  refine (Nonnative.succeeds_allocChecked (by decide) (by decide) hv).mono fun a ha => ?_
  exact ⟨ha.1, Nonnative.length_limbsOf v 64 4, fun n hn => Nonnative.limbsOf_lt hn, ha.2⟩

theorem succeeds_allocSignature {r s sInv : ℕ} (hr : r < 2 ^ 256) (hs : s < 2 ^ 256) (hsInv : sInv < 2 ^ 256) :
    (allocSignature r s sInv).Succeeds (·.WellFormed .honest (limbsOf r 64 4) (limbsOf s 64 4) (limbsOf sInv 64 4)) := by
  unfold allocSignature
  refine (Nonnative.succeeds_allocBignatConstant (by decide)).bind fun n hn => ?_
  refine (Nonnative.succeeds_allocBignatConstant (by decide)).bind fun one hone => ?_
  refine (succeeds_allocNumber hr).bind fun r hr => ?_
  refine (succeeds_allocNumber hs).bind fun s hs => ?_
  exact (succeeds_allocNumber hsInv).bind fun sInv hsInv => Circuit.succeeds_pure.mpr ⟨hn, hone, hr, hs, hsInv⟩

theorem succeeds_multOrder {a b n : BigNat Scalar Scalar} {x y : ℕ} (hx : x < 2 ^ 256) (hy : y < 2 ^ 256)
    (ha : a.WellFormed .honest (limbsOf x 64 4)) (hb : b.WellFormed .honest (limbsOf y 64 4))
    (hn : n.WellFormed .honest (limbsOf p256Order 64 4)) :
    (a.multMod b n).Succeeds fun t => t.2.WellFormed .honest (limbsOf (x * y % p256Order) 64 4) := by
  have hxv : evalList (2 ^ 64) (limbsOf x 64 4) = x := Nonnative.evalList_limbsOf hx
  have hyv : evalList (2 ^ 64) (limbsOf y 64 4) = y := Nonnative.evalList_limbsOf hy
  have hpos : 0 < evalList (2 ^ 64) (limbsOf p256Order 64 4) := by
    rw [evalList_order]
    decide
  have hmult := (Nonnative.succeeds_multMod ha hb hn hpos).and_ensures (Nonnative.ensures_multMod ha.any hb.any hn.any)
  rw [hxv, hyv, evalList_order] at hmult
  refine hmult.mono fun t ht => ?_
  obtain ⟨⟨-, hrem⟩, qs, rs, -, hrs, -⟩ := ht
  exact ⟨hrem, Nonnative.length_limbsOf _ 64 4, fun n hn => Nonnative.limbsOf_lt hn, hrs.params⟩

variable {z : BigNat Scalar Scalar} {t : SignatureNumbers Scalar} {zv r s i : ℕ}

theorem succeeds_signatureScalars (hzv : zv < 2 ^ 256) (hr : r < 2 ^ 256) (hs : s < 2 ^ 256) (hi : i < 2 ^ 256)
    (hz : z.WellFormed .honest (limbsOf zv 64 4))
    (ht : t.WellFormed .honest (limbsOf r 64 4) (limbsOf s 64 4) (limbsOf i 64 4)) (hinverse : s * i % p256Order = 1) :
    (signatureScalars z t).Succeeds fun u => ∃ xs ys : List Bool, xs.length = 256 ∧ ys.length = 256 ∧
      HoldBits .honest u.1 xs ∧ HoldBits .honest u.2 ys ∧ leBits xs = zv * i % p256Order ∧
      leBits ys = r * i % p256Order := by
  have hlt : ∀ v : ℕ, v % p256Order < 2 ^ 256 := fun v =>
    lt_trans (Nat.mod_lt v (by decide)) (by decide)
  have hbits : ∀ {v : ℕ}, v % p256Order < 2 ^ (64 * 4) → evalList (2 ^ 64) (limbsOf (v % p256Order) 64 4) = v % p256Order :=
    fun h => Nonnative.evalList_limbsOf h
  unfold signatureScalars
  refine (succeeds_multOrder hs hi ht.s ht.sInv ht.n).bind fun product hproduct => ?_
  rw [hinverse] at hproduct
  refine (Nonnative.succeeds_equal hproduct ht.one rfl).bind fun _ _ => ?_
  refine (succeeds_multOrder hzv hi hz ht.sInv ht.n).bind fun u1 hu1 => ?_
  refine (succeeds_multOrder hr hi ht.r ht.sInv ht.n).bind fun u2 hu2 => ?_
  refine (Nonnative.succeeds_decomposeAllocated hu1).bind fun u1Bits hu1Bits => ?_
  refine (Nonnative.succeeds_decomposeAllocated hu2).bind fun u2Bits hu2Bits => Circuit.succeeds_pure.mpr ?_
  obtain ⟨xs, hxlen, hxs, hxvalue⟩ := hu1Bits
  obtain ⟨ys, hylen, hys, hyvalue⟩ := hu2Bits
  exact ⟨xs, ys, hxlen, hylen, hxs, hys, hxvalue.trans (hbits (hlt _)), hyvalue.trans (hbits (hlt _))⟩

theorem succeeds_checkX {point : AllocatedPoint Scalar Scalar} {v : Scalar} {ss is : List ℕ}
    (ht : t.WellFormed .honest (limbsOf r 64 4) ss is) (hx : point.x.Holds .honest v)
    (hmod : ToRepr.toNat v % p256Order = r) : (checkX t point).Succeeds fun _ => True := by
  have hlt : ToRepr.toNat v < 2 ^ 256 := by
    have hval : ToRepr.toNat v < fieldModulus := ZMod.val_lt _
    exact lt_trans hval (by decide)
  have hcast : ((ToRepr.toNat v : ℕ) : Scalar) = v := ZMod.natCast_zmod_val _
  have hvalue : evalList (2 ^ 64) (limbsOf (ToRepr.toNat v) 64 4) = ToRepr.toNat v := Nonnative.evalList_limbsOf hlt
  have hpos : 0 < evalList (2 ^ 64) (limbsOf p256Order 64 4) := by
    rw [evalList_order]
    decide
  have heval : point.x.lc.eval = v := by rw [AllocatedNum.eval_lc, hx.val_eq]
  unfold checkX
  refine (Nonnative.succeeds_fromNum heval (hx.value_eq rfl) hlt hcast).bind fun x hx => ?_
  refine ((Nonnative.succeeds_redMod hx ht.n hpos).and_ensures (Nonnative.ensures_redMod hx.any ht.n.any)).bind
    fun xModN hxModN => ?_
  obtain ⟨⟨-, hrem⟩, qs, rs, -, hrs, -⟩ := hxModN
  rw [hvalue, evalList_order, hmod] at hrem
  exact Nonnative.succeeds_equal
    ⟨hrem, Nonnative.length_limbsOf _ 64 4, fun n hn => Nonnative.limbsOf_lt hn, hrs.params⟩ ht.r rfl

def generatorKey : AllocatedNum Scalar Scalar × AllocatedNum Scalar Scalar :=
  (⟨generatorX, some generatorX⟩, ⟨generatorY, some generatorY⟩)

section Key

variable {qx qy : AllocatedNum Scalar Scalar} {x y : Scalar} {hQ : p256.Nonsingular x y}
  {u : List (AllocatedBit Scalar) × List (AllocatedBit Scalar)}

theorem succeeds_signaturePoint {R : AllocatedPoint Scalar Scalar → Prop} (hx : qx.Holds .honest x)
    (hy : qy.Holds .honest y) (hsum : ∀ g q : AllocatedPoint Scalar Scalar, g.Holds .honest generator →
      q.Holds .honest (.some x y hQ : p256.Point) →
      (do
        let u1G ← g.scalarMul curveParams.1 u.1
        let u2Q ← q.scalarMul curveParams.1 u.2
        AllocatedPoint.add curveParams.1 u1G u2Q).Succeeds R) : (signaturePoint qx qy u).Succeeds R := by
  unfold signaturePoint
  refine (yields_allocConstant 0).succeeds.bind fun gIsInfinity hgInf => ?_
  refine Circuit.Succeeds.bind (P := fun g : AllocatedPoint Scalar Scalar => g.Holds .honest generator) ?_
    fun g hg => ?_
  · refine (yields_allocConstant _).succeeds.bind fun x hx => ?_
    exact (yields_allocConstant _).succeeds.bind fun y hy => Circuit.succeeds_pure.mpr ⟨hx, hy, hgInf⟩
  refine (yields_allocConstant 0).succeeds.bind fun qIsInfinity hqInf => ?_
  have hq : (⟨qx, qy, qIsInfinity⟩ : AllocatedPoint Scalar Scalar).HoldsAt .honest x y false := ⟨hx, hy, hqInf⟩
  refine (yields_checkOnCurve hq hQ.1).succeeds.bind fun _ _ => ?_
  exact hsum g _ hg hq

theorem succeeds_multiples {Q : p256.Point} (hQ : Q ≠ 0) (horder : p256Order • Q = 0) {xs ys : List Bool}
    (hxlen : xs.length = 256) (hylen : ys.length = 256) (hxs : HoldBits .honest u.1 xs)
    (hys : HoldBits .honest u.2 ys) {g q : AllocatedPoint Scalar Scalar} (hg : g.Holds .honest generator)
    (hq : q.Holds .honest Q) :
    (do
      let u1G ← g.scalarMul curveParams.1 u.1
      let u2Q ← q.scalarMul curveParams.1 u.2
      AllocatedPoint.add curveParams.1 u1G u2Q).Succeeds
        (·.Holds .honest (leBits xs • generator + leBits ys • Q)) := by
  have hbig : 2 ^ 255 ≤ p256Order := by decide
  have hne : generator ≠ 0 := WeierstrassCurve.Affine.Point.some_ne_zero _
  have hdoubles : AllocatedPoint.Doubles (leBits xs • generator) :=
    AllocatedPoint.doubles_of fun h => nsmul_add_self prime_p256Order (by decide) hne order_nsmul_generator h
  refine (AllocatedPoint.yields_scalarMul prime_p256Order hbig hne order_nsmul_generator hg hxlen hxs).succeeds.bind
    fun u1G hu1G => ?_
  refine (AllocatedPoint.yields_scalarMul prime_p256Order hbig hQ horder hq hylen hys).succeeds.bind
    fun u2Q hu2Q => ?_
  exact (AllocatedPoint.yields_add hu1G hu2Q hdoubles).succeeds

end Key

theorem succeeds_zeroMultiples {u : List (AllocatedBit Scalar) × List (AllocatedBit Scalar)} {xs ys : List Bool}
    (hxlen : xs.length = 256) (hylen : ys.length = 256) (hxs : HoldBits .honest u.1 xs)
    (hys : HoldBits .honest u.2 ys) (hxclear : ∀ x ∈ xs, x = false) (hyclear : ∀ y ∈ ys, y = false)
    {g q : AllocatedPoint Scalar Scalar} (hg : g.Holds .honest generator) (hq : q.Holds .honest generator) :
    (do
      let u1G ← g.scalarMul curveParams.1 u.1
      let u2Q ← q.scalarMul curveParams.1 u.2
      AllocatedPoint.add curveParams.1 u1G u2Q).Succeeds (·.x.Holds .honest 0) := by
  have hbig : 2 ^ 255 ≤ p256Order := by decide
  have hne : generator ≠ 0 := WeierstrassCurve.Affine.Point.some_ne_zero _
  refine (AllocatedPoint.yields_scalarMul_zero prime_p256Order hbig hne order_nsmul_generator hg hxlen hxs
    hxclear).succeeds.bind fun u1G hu1G => ?_
  refine (AllocatedPoint.yields_scalarMul_zero prime_p256Order hbig hne order_nsmul_generator hq hylen hys
    hyclear).succeeds.bind fun u2Q hu2Q => ?_
  refine (AllocatedPoint.yields_addAt hu1G hu2Q fun h => by cases h).succeeds.mono fun point hpoint => ?_
  simpa [AllocatedPoint.usesEqualX] using hpoint.x

theorem clear_of_leBits {xs : List Bool} (h : leBits xs = 0) : ∀ x ∈ xs, x = false := by
  induction xs with
  | nil => exact fun _ hx => absurd hx List.not_mem_nil
  | cons x xs ih =>
    rw [leBits_cons] at h
    rw [List.forall_mem_cons]
    refine ⟨?_, ih (by omega)⟩
    cases x with
    | false => rfl
    | true => exact absurd h (by simp)

section Check

variable {qx qy : AllocatedNum Scalar Scalar} {x y : Scalar} {hQ : p256.Nonsingular x y}

/-- An honest run with a key on the curve, when the sum's `x` modulo the order is `r`. -/
theorem succeeds_checkSignature (hzv : zv < 2 ^ 256) (hr : r < 2 ^ 256) (hs : s < 2 ^ 256) (hi : i < 2 ^ 256)
    (hinverse : s * i % p256Order = 1) (hz : z.WellFormed .honest (limbsOf zv 64 4))
    (ht : t.WellFormed .honest (limbsOf r 64 4) (limbsOf s 64 4) (limbsOf i 64 4)) (hx : qx.Holds .honest x)
    (hy : qy.Holds .honest y)
    (hsum : ∀ (u : List (AllocatedBit Scalar) × List (AllocatedBit Scalar)) (xs ys : List Bool), xs.length = 256 →
      ys.length = 256 → HoldBits .honest u.1 xs → HoldBits .honest u.2 ys → leBits xs = zv * i % p256Order →
      leBits ys = r * i % p256Order → ∀ g q : AllocatedPoint Scalar Scalar, g.Holds .honest generator →
      q.Holds .honest (.some x y hQ : p256.Point) →
      (do
        let u1G ← g.scalarMul curveParams.1 u.1
        let u2Q ← q.scalarMul curveParams.1 u.2
        AllocatedPoint.add curveParams.1 u1G u2Q).Succeeds
          fun point => ∃ v, point.x.Holds .honest v ∧ ToRepr.toNat v % p256Order = r) :
    (checkSignature qx qy z t).Succeeds fun _ => True := by
  refine (succeeds_signatureScalars hzv hr hs hi hz ht hinverse).bind fun u hu => ?_
  obtain ⟨xs, ys, hxlen, hylen, hxs, hys, hxvalue, hyvalue⟩ := hu
  refine (succeeds_signaturePoint hx hy fun g q hg hq =>
    hsum u xs ys hxlen hylen hxs hys hxvalue hyvalue g q hg hq).bind fun point hpoint => ?_
  obtain ⟨v, hv, hmod⟩ := hpoint
  exact succeeds_checkX ht hv hmod

/-- A signature satisfies the rules, under a key of the group's order. -/
theorem succeeds_verify (hzv : zv < 2 ^ 256) (hr : r < 2 ^ 256) (hs : s < 2 ^ 256) (hi : i < 2 ^ 256)
    (hinverse : s * i % p256Order = 1) (hz : z.WellFormed .honest (limbsOf zv 64 4)) (hx : qx.Holds .honest x)
    (hy : qy.Holds .honest y) (horder : p256Order • (.some x y hQ : p256.Point) = 0) {v w : Scalar}
    {hR : p256.Nonsingular v w} (hsum : (zv * i % p256Order) • generator +
      (r * i % p256Order) • (.some x y hQ : p256.Point) = .some v w hR) (hmod : ToRepr.toNat v % p256Order = r) :
    (verifyEcdsaP256WithDigest qx qy r s i z).Succeeds fun _ => True := by
  refine (succeeds_allocSignature hr hs hi).bind fun t ht => ?_
  refine succeeds_checkSignature hzv hr hs hi hinverse hz ht hx hy fun u xs ys hxlen hylen hxs hys hxvalue hyvalue g q hg
    (hq : q.Holds .honest (.some x y hQ : p256.Point)) => ?_
  refine (succeeds_multiples (WeierstrassCurve.Affine.Point.some_ne_zero hQ) horder hxlen hylen hxs hys hg hq).mono
    fun point hpoint => ⟨v, ?_, hmod⟩
  rw [hxvalue, hyvalue, hsum] at hpoint
  exact hpoint.x

end Check

/-- An honest run with the generator as the key, when the sum's `x` modulo the order is `r`. -/
theorem exists_traces_verify (hzv : zv < 2 ^ 256) (hr : r < 2 ^ 256) (hs : s < 2 ^ 256) (hi : i < 2 ^ 256)
    (hinverse : s * i % p256Order = 1)
    (hsum : ∀ (u : List (AllocatedBit Scalar) × List (AllocatedBit Scalar)) (xs ys : List Bool), xs.length = 256 →
      ys.length = 256 → HoldBits .honest u.1 xs → HoldBits .honest u.2 ys → leBits xs = zv * i % p256Order →
      leBits ys = r * i % p256Order → ∀ g q : AllocatedPoint Scalar Scalar, g.Holds .honest generator →
      q.Holds .honest generator →
      (do
        let u1G ← g.scalarMul curveParams.1 u.1
        let u2Q ← q.scalarMul curveParams.1 u.2
        AllocatedPoint.add curveParams.1 u1G u2Q).Succeeds
          fun point => ∃ v, point.x.Holds .honest v ∧ ToRepr.toNat v % p256Order = r) :
    ∃ (t : SignatureNumbers Scalar) (us ws : List Scalar),
      (verifyEcdsaP256WithDigest generatorKey.1 generatorKey.2 r s i (Nonnative.constant zv)).Traces [] (us ++ ws) () ∧
      (allocSignature r s i).Traces [] us t ∧
      t.WellFormed .honest (limbsOf r 64 4) (limbsOf s 64 4) (limbsOf i 64 4) := by
  obtain ⟨t, halloc, ht⟩ := succeeds_allocSignature hr hs hi
  have hkeyX : generatorKey.1.Holds .honest (generatorX : Scalar) := ⟨rfl, fun _ => rfl⟩
  have hkeyY : generatorKey.2.Holds .honest (generatorY : Scalar) := ⟨rfl, fun _ => rfl⟩
  obtain ⟨w, hcheck, -⟩ := succeeds_checkSignature hzv hr hs hi hinverse (Nonnative.wellFormed_constant hzv) ht hkeyX
    hkeyY hsum
  obtain ⟨us, halloc⟩ := Circuit.runs_iff_exists_traces.mp halloc.runs
  obtain ⟨ws, hcheck⟩ := Circuit.runs_iff_exists_traces.mp hcheck.runs
  exact ⟨t, us, ws, Circuit.traces_bind.mpr ⟨[], [], us, ws, t, rfl, rfl, halloc, hcheck⟩, halloc, ht⟩

end Honest

/-! ## Soundness -/

/-- For every satisfying assignment: the key is on the curve, and the assigned `r` and `s` are a signature on the
digest exactly when `r` is from `1` to below the order, the verification's point is finite, and `r` is not its `x`
plus the field's modulus for an `x` below `2 ^ 256 - p`. The order of the key is the group's. -/
theorem verifyEcdsa_valid_iff (qx qy : AllocatedNum Scalar Scalar) (r s sInv : ℕ) (z : BigNat Scalar Scalar)
    (zs : List ℕ) (hz : z.WellFormed .any zs) (horder : ∀ h, p256Order • (.some qx.val qy.val h : p256.Point) = 0)
    (ins vs : List Scalar) (hverify : (verifyEcdsaP256WithDigest qx qy r s sInv z).Traces ins vs ()) :
    ∃ (t : SignatureNumbers Scalar) (i us ws : List Scalar) (rs ss : List ℕ) (hQ : p256.Nonsingular qx.val qy.val),
      vs = us ++ ws ∧ (allocSignature r s sInv).Traces i us t ∧ t.r.WellFormed .any rs ∧ t.s.WellFormed .any ss ∧
      (ValidSignature (.some qx.val qy.val hQ) (evalList (2 ^ 64) zs) (evalList (2 ^ 64) rs) (evalList (2 ^ 64) ss) ↔
        Unambiguous (.some qx.val qy.val hQ) (evalList (2 ^ 64) zs) (evalList (2 ^ 64) rs) (evalList (2 ^ 64) ss)) := by
  obtain ⟨i, j, us, ws, t, -, rfl, halloc, hcheck⟩ := Circuit.traces_bind.mp hverify
  obtain ⟨-, rs, ss, is, ht⟩ := ensures_allocSignature i t (Circuit.runs_iff_exists_traces.mpr ⟨us, halloc⟩)
  obtain ⟨_, _, _, _, u, -, -, hscalars, hcheck⟩ := Circuit.traces_bind.mp hcheck
  obtain ⟨-, hinverse, xs, ys, hxlen, hylen, hxs, hys, hxvalue, hyvalue⟩ := ensures_signatureScalars hz ht _ u
    (Circuit.runs_iff_exists_traces.mpr ⟨_, hscalars⟩)
  obtain ⟨_, _, _, _, point, -, -, hpoint, hcheck⟩ := Circuit.traces_bind.mp hcheck
  obtain ⟨-, hQ, hpoint⟩ := ensures_signaturePoint hxlen hylen hxs hys horder _ point
    (Circuit.runs_iff_exists_traces.mpr ⟨_, hpoint⟩)
  obtain ⟨-, m, q, hm, hx, hmod⟩ := ensures_checkX ht _ () (Circuit.runs_iff_exists_traces.mpr ⟨_, hcheck⟩)
  refine ⟨t, i, us, ws, rs, ss, hQ, rfl, halloc, ht.r, ht.s, ?_⟩
  rw [multiples_eq_verificationPoint (horder hQ) hinverse hxvalue hyvalue] at hpoint
  refine valid_iff_unambiguous (coprime_of_mul hinverse) hm (fun x y h hfinite => ?_) hmod
  rw [hfinite] at hpoint
  rw [← hx]
  exact hpoint.x.val_eq.symm

/-- `r = generatorX` and `s = 1` sign `n + 1 - r` under the generator: the two scalars add up to one. -/
theorem verifyEcdsa_valid_iff_generator : ∃ vs : List Scalar,
    (verifyEcdsaP256WithDigest generatorKey.1 generatorKey.2 generatorX 1 1
      (Nonnative.constant (p256Order + 1 - generatorX))).Traces [] vs () ∧
    ∃ (t : SignatureNumbers Scalar) (i us ws : List Scalar) (rs ss : List ℕ)
      (hQ : p256.Nonsingular generatorKey.1.val generatorKey.2.val),
      vs = us ++ ws ∧ (allocSignature generatorX 1 1).Traces i us t ∧ t.r.WellFormed .any rs ∧
      t.s.WellFormed .any ss ∧
      (ValidSignature (.some generatorKey.1.val generatorKey.2.val hQ)
          (evalList (2 ^ 64) (limbsOf (p256Order + 1 - generatorX) 64 4)) (evalList (2 ^ 64) rs) (evalList (2 ^ 64) ss) ↔
        Unambiguous (.some generatorKey.1.val generatorKey.2.val hQ)
          (evalList (2 ^ 64) (limbsOf (p256Order + 1 - generatorX) 64 4)) (evalList (2 ^ 64) rs)
          (evalList (2 ^ 64) ss)) := by
  have hz : p256Order + 1 - generatorX < 2 ^ 256 := by decide
  obtain ⟨t, us, ws, htraces, -, -⟩ := exists_traces_verify (r := generatorX) (s := 1) (i := 1) hz (by decide)
    (by decide) (by decide) (by decide) fun u xs ys hxlen hylen hxs hys hxvalue hyvalue g q hg hq => by
      refine (succeeds_multiples (WeierstrassCurve.Affine.Point.some_ne_zero _) order_nsmul_generator hxlen hylen hxs hys hg
        hq).mono fun point hpoint => ⟨(generatorX : Scalar), ?_, ?_⟩
      · have hsum : leBits xs + leBits ys = p256Order + 1 := by
          rw [hxvalue, hyvalue]
          decide
        have hpoint : point.Holds .honest (leBits xs • generator + leBits ys • generator) := hpoint
        rw [← add_nsmul, hsum, succ_nsmul, order_nsmul_generator, zero_add] at hpoint
        exact hpoint.x
      · decide +kernel
  have horder : ∀ h, p256Order • (.some generatorKey.1.val generatorKey.2.val h : p256.Point) = 0 := by
    intro h
    have hkey : (.some generatorKey.1.val generatorKey.2.val h : p256.Point) = generator := rfl
    rw [hkey]
    exact order_nsmul_generator
  exact ⟨us ++ ws, htraces, verifyEcdsa_valid_iff _ _ _ _ _ _ _ (Nonnative.wellFormed_constant hz) horder [] _ htraces⟩

/-- The rules accept `r = 0` and `s = 1` on the digest `0` under the generator, where the point is infinity. -/
theorem not_validSignature_zero : ∃ (t : SignatureNumbers Scalar) (us ws : List Scalar),
    (verifyEcdsaP256WithDigest generatorKey.1 generatorKey.2 0 1 1 (Nonnative.constant 0)).Traces [] (us ++ ws) () ∧
    (allocSignature 0 1 1).Traces [] us t ∧ t.r.WellFormed .any (limbsOf 0 64 4) ∧
    t.s.WellFormed .any (limbsOf 1 64 4) ∧ verificationPoint generator 0 0 1 = 0 ∧
    ¬ValidSignature generator 0 (evalList (2 ^ 64) (limbsOf 0 64 4)) (evalList (2 ^ 64) (limbsOf 1 64 4)) := by
  obtain ⟨t, us, ws, htraces, halloc, ht⟩ := exists_traces_verify (r := 0) (s := 1) (i := 1) (by decide : 0 < 2 ^ 256)
    (by decide) (by decide) (by decide) (by decide) fun u xs ys hxlen hylen hxs hys hxvalue hyvalue g q hg hq => by
      refine (succeeds_zeroMultiples hxlen hylen hxs hys ?_ ?_ hg hq).mono fun point hpoint => ⟨0, hpoint, ?_⟩
      · exact clear_of_leBits hxvalue
      · exact clear_of_leBits hyvalue
      · decide +kernel
  refine ⟨t, us, ws, htraces, halloc, ht.r.any, ht.s.any, ?_, fun hvalid => ?_⟩
  · rw [verificationPoint, Nat.zero_mul, Nat.zero_mod, zero_nsmul, zero_add]
  · have hzero : evalList (2 ^ 64) (limbsOf 0 64 4) = 0 := Nonnative.evalList_limbsOf (by decide)
    have hpos := hvalid.r_pos
    rw [hzero] at hpos
    exact absurd hpos (lt_irrefl 0)

end ZkCredVega
