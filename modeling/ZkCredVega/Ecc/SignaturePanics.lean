import ZkCredVega.Ecc.Ladder
import ZkCredVega.Ecc.Ecdsa

/-!
# Where the signature check panics

Synthesis of `verify_ecdsa_p256_with_digest` over any key and any numbers. A number that has no room in four
limbs is an error; the rules that fail are recorded and not checked; and the one panic is in the multiple of the
key. The generator's multiple and the sum meet none.
-/

namespace ZkCredVega

open Circuits
open AllocatedPoint (HoldBits)
open Nonnative (BigNat Num getBit carryBits limbWidth nLimbs limbsOf natToLimbs Grouping)

namespace Nonnative

section Carries

variable {F : Type} [Field F] [ToRepr F]

theorem publishes_fitsInBits {a : Num F F} {v : F} (ha : a.value = some v) {n : ℕ} (hn : n ≤ 256) :
    (a.fitsInBits n).Publishes [] fun _ => True := by
  refine (Circuit.Publishes.mapM_nil (P := fun _ => True) fun i hi => ?_).bind_nil fun bits _ => ?_
  · have hi := List.mem_range.mp hi
    have hbit : getBit v (i + 1) = some ((ToRepr.toNat v).testBit (i + 1)) := if_neg (by unfold numBits; omega)
    refine Circuit.publishes_var (v := ofBool ((ToRepr.toNat v).testBit (i + 1))) ?_
    rw [ha]
    show assigned (getBit v (i + 1)) >>= _ = _
    rw [hbit]
    rfl
  · refine (Circuit.Publishes.forM fun _ _ => Circuit.publishes_require).bind_nil fun _ _ => ?_
    exact Circuit.publishes_require

variable [LawfulToRepr F] {a b : BigNat F F} {S O : List ℕ} {M bits : ℕ}

/-- The carry of limbs that are within the bound is not negative. -/
theorem exists_carryHint (ha : a.Holds .honest S) (hb : b.Holds .honest O) (hO : ∀ x ∈ O, x ≤ M) (hM : M < 2 ^ 255)
    (base : ℕ) (c : F) (i : ℕ) : ∃ v, BigNat.carryHint a b M base (some c) i = .ok v := by
  have hx : a.limbValues = some (S.map fun n : ℕ => (n : F)) := ha.poly.values rfl
  have hy : b.limbValues = some (O.map fun n : ℕ => (n : F)) := hb.poly.values rfl
  have hle := getD_le hO i
  have hrepr : ToRepr.toNat ((O.map fun n : ℕ => (n : F)).getD i 0) = O.getD i 0 := by
    rw [getD_cast]
    exact LawfulToRepr.toNat_natCast (by omega)
  unfold BigNat.carryHint
  rw [hx, hy]
  refine ⟨_, if_neg ?_⟩
  rw [hrepr]
  omega

theorem publishes_carryStep (ha : a.Holds .honest S) (hb : b.Holds .honest O) (hO : ∀ x ∈ O, x ≤ M)
    (hM : M < 2 ^ 255) (hbits : bits ≤ 256) (n i : ℕ) {s : BigNat.Carry F F} (hs : ∃ c, s.carryIn.value = some c) :
    (a.carryStep b n M bits s i).Publishes [] fun s' => ∃ c, s'.carryIn.value = some c := by
  obtain ⟨c, hc⟩ := hs
  obtain ⟨v, hv⟩ := exists_carryHint ha hb hO hM (2 ^ a.params.limbWidth) c i
  unfold BigNat.carryStep Num.alloc
  simp only [bind_assoc, pure_bind, hc, hv]
  refine (Circuit.publishes_var rfl).bind_nil fun w _ => Circuit.publishes_require.bind_nil fun _ _ => ?_
  by_cases hlast : i + 1 < n
  · rw [if_pos hlast]
    exact (publishes_fitsInBits rfl hbits).bind_nil fun _ _ => Circuit.publishes_pure ⟨v, rfl⟩
  · rw [if_neg hlast]
    exact Circuit.publishes_require.bind_nil fun _ _ => Circuit.publishes_pure ⟨v, rfl⟩

/-- Numbers are compared limb by limb, equal or not. -/
theorem publishes_equalWhenCarried (hM : max a.params.maxWord b.params.maxWord = M) (hlt : M < 2 ^ 255)
    (hcarry : carryBits M a.params.limbWidth = bits) (hbits : bits ≤ 256)
    (hwidth : a.params.limbWidth = b.params.limbWidth) (ha : a.Holds .honest S) (hb : b.Holds .honest O) :
    (a.equalWhenCarried b).Publishes [] fun _ => True := by
  have hO : ∀ x ∈ O, x ≤ M := fun x hx => (hb.le x hx).trans (hM ▸ le_max_right _ _)
  unfold BigNat.equalWhenCarried
  dsimp only
  rw [if_pos hwidth, hM, hcarry]
  refine (Circuit.Publishes.foldlM (P := fun s : BigNat.Carry F F => ∃ c, s.carryIn.value = some c) ⟨0, rfl⟩
    fun s i _ hs => publishes_carryStep ha hb hO hlt hbits _ i hs).bind_nil fun _ _ => ?_
  refine (Circuit.Publishes.forM fun _ _ => Circuit.publishes_require).bind_nil fun _ _ => ?_
  exact Circuit.Publishes.forM fun _ _ => Circuit.publishes_require

theorem publishes_equal {ns ms : List ℕ} (ha : a.WellFormed .honest ns) (hb : b.WellFormed .honest ms) :
    (a.equalWhenCarriedRegroup b).Publishes [] fun _ => True := by
  have hgroup := grouping_limb
  have hwidth : a.params.limbWidth = b.params.limbWidth := ha.width.trans hb.width.symm
  have hM : max a.params.maxWord b.params.maxWord = 2 ^ 64 - 1 := by rw [ha.maxWord, hb.maxWord, max_self]
  have hmax := max_groupLimbs a b hwidth 3
  rw [hM] at hmax
  unfold BigNat.equalWhenCarriedRegroup
  dsimp only
  rw [if_pos hwidth, hM, ha.width, hgroup.size]
  rw [ha.width] at hmax
  have hcarry : carryBits (((List.range 3).map fun i => 2 ^ (i * 64)).sum * (2 ^ 64 - 1))
      (a.groupLimbs 3).params.limbWidth = 1 := by
    show carryBits _ (a.params.limbWidth * 3) = 1
    rw [ha.width]
    exact hgroup.carry
  refine publishes_equalWhenCarried hmax hgroup.room.lt hcarry (by decide) ?_ (ha.holds.groupLimbs hgroup.pos)
    (hb.holds.groupLimbs hgroup.pos)
  · show a.params.limbWidth * 3 = b.params.limbWidth * 3
    rw [hwidth]

end Carries

/-- A number without room in four limbs has no values to allocate. -/
theorem synthesize_allocChecked_error {F : Type} [Field F] [ToRepr F] {v : ℕ} (hv : 2 ^ 256 ≤ v) :
    (BigNat.allocChecked (.ok v) limbWidth nLimbs : Circuit F F _).synthesize = .error .assignmentMissing := by
  have hsize : ¬v.size ≤ nLimbs * limbWidth := by
    rw [Nat.size_le]
    exact not_lt.mpr hv
  have hlimbs : natToLimbs v limbWidth nLimbs = .error .unsatisfiable := if_neg hsize
  have hcell : (do
      let v ← (.ok v : Outcome ℕ)
      let vs ← natToLimbs v limbWidth nLimbs
      pure (vs, v) : Outcome (List ℕ × ℕ)) = .error .unsatisfiable := by
    show natToLimbs v limbWidth nLimbs >>= _ = _
    rw [hlimbs]
    rfl
  refine Circuit.synthesize_bind_error ?_
  unfold BigNat.allocFromNat
  simp only [hcell]
  rfl

end Nonnative

section Verify

variable {qx qy : AllocatedNum Scalar Scalar} {z : BigNat Scalar Scalar} {t : SignatureNumbers Scalar}
  {zv r s i : ℕ} {x y : Scalar}

/-- The scalars' bits, also when `s` and its inverse do not multiply to one. -/
theorem publishes_signatureScalars (hzv : zv < 2 ^ 256) (hr : r < 2 ^ 256) (hs : s < 2 ^ 256) (hi : i < 2 ^ 256)
    (hz : z.WellFormed .honest (limbsOf zv 64 4))
    (ht : t.WellFormed .honest (limbsOf r 64 4) (limbsOf s 64 4) (limbsOf i 64 4)) :
    (signatureScalars z t).Publishes [] fun u => ∃ xs : List Bool, xs.length = 256 ∧ HoldBits .honest u.1 xs ∧
      HoldBits .honest u.2 (toLEBits 256 (r * i % p256Order)) := by
  have hlt : r * i % p256Order < 2 ^ (64 * 4) := lt_trans (Nat.mod_lt _ (by decide)) (by decide)
  unfold signatureScalars
  refine (succeeds_multOrder hs hi ht.s ht.sInv ht.n).publishes.bind_nil fun product hproduct => ?_
  refine (Nonnative.publishes_equal hproduct ht.one).bind_nil fun _ _ => ?_
  refine (succeeds_multOrder hzv hi hz ht.sInv ht.n).publishes.bind_nil fun u1 hu1 => ?_
  refine (succeeds_multOrder hr hi ht.r ht.sInv ht.n).publishes.bind_nil fun u2 hu2 => ?_
  refine (Nonnative.succeeds_decomposeAllocated hu1).publishes.bind_nil fun u1Bits hu1Bits => ?_
  refine (Nonnative.succeeds_decomposeAllocated hu2).publishes.bind_nil fun u2Bits hu2Bits => ?_
  obtain ⟨xs, hxlen, hxs, -⟩ := hu1Bits
  obtain ⟨ys, hylen, hys, hyvalue⟩ := hu2Bits
  rw [Nonnative.evalList_limbsOf hlt] at hyvalue
  refine Circuit.publishes_pure ⟨xs, hxlen, hxs, ?_⟩
  rw [← hyvalue, ← hylen, toLEBits_leBits]
  exact hys

/-- The curve's equation is recorded, whether or not the key meets it. -/
theorem publishes_checkOnCurve {q : AllocatedPoint Scalar Scalar} (hq : q.HoldsAt .honest x y false) :
    (q.checkOnCurve curveParams.1 curveParams.2).Publishes [] fun _ => True := by
  refine (yields_square hq.y).succeeds.publishes.bind_nil fun ySquare _ => ?_
  refine (yields_square hq.x).succeeds.publishes.bind_nil fun xSquare hxSquare => ?_
  refine (yields_numMul hq.x hxSquare).succeeds.publishes.bind_nil fun xCube hxCube => ?_
  refine (yields_rightSide hq hxCube).succeeds.publishes.bind_nil fun rhs _ => ?_
  exact Circuit.publishes_require

theorem AllocatedPoint.Holds.exists_coordinates {p : AllocatedPoint Scalar Scalar} {P : p256.Point}
    (hp : p.Holds .honest P) (hP : AllocatedPoint.Doubles P) :
    ∃ C : Coordinates Scalar, p.HoldsCoordinates C ∧ ¬C.Vertical := by
  cases P with
  | zero =>
    obtain ⟨x, y, hp⟩ := hp
    refine ⟨⟨x, y, true⟩, hp, ?_⟩
    rintro ⟨hinf, -⟩
    cases hinf
  | some x y h =>
    refine ⟨⟨x, y, false⟩, hp, ?_⟩
    rintro ⟨-, hy⟩
    exact hP x y h rfl hy

/-- The generator's multiple and the sum do not panic; the key's multiple may. -/
theorem panicsUnless_signaturePoint {u : List (AllocatedBit Scalar) × List (AllocatedBit Scalar)} {xs ys : List Bool}
    (hxlen : xs.length = 256) (hylen : ys.length = 256) (hxs : HoldBits .honest u.1 xs) (hys : HoldBits .honest u.2 ys)
    (hx : qx.Holds .honest x) (hy : qy.Holds .honest y) :
    (signaturePoint qx qy u).PanicsUnless (MeetsNoVertical curveParams.1 (x, y) ys) fun point =>
      ∃ v, point.x.Holds .honest v := by
  have hbig : 2 ^ 255 ≤ p256Order := by decide
  have hne : generator ≠ 0 := WeierstrassCurve.Affine.Point.some_ne_zero _
  have hdoubles : AllocatedPoint.Doubles (leBits xs • generator) :=
    AllocatedPoint.doubles_of fun h => nsmul_add_self prime_p256Order (by decide) hne order_nsmul_generator h
  unfold signaturePoint
  refine (yields_allocConstant 0).succeeds.publishes.bind_panicsUnless fun gIsInfinity hgInf => ?_
  have hallocG : (AllocatedPoint.allocConstant ((generatorX : Scalar), (generatorY : Scalar)) gIsInfinity).Succeeds
      (·.Holds .honest generator) := by
    refine (yields_allocConstant _).succeeds.bind fun x hx => ?_
    exact (yields_allocConstant _).succeeds.bind fun y hy => Circuit.succeeds_pure.mpr ⟨hx, hy, hgInf⟩
  refine hallocG.publishes.bind_panicsUnless fun g hg => ?_
  refine (yields_allocConstant 0).succeeds.publishes.bind_panicsUnless fun qIsInfinity hqInf => ?_
  have hq : (⟨qx, qy, qIsInfinity⟩ : AllocatedPoint Scalar Scalar).HoldsAt .honest x y false := ⟨hx, hy, hqInf⟩
  refine (publishes_checkOnCurve hq).bind_panicsUnless fun _ _ => ?_
  have hmulG := AllocatedPoint.yields_scalarMul prime_p256Order hbig hne order_nsmul_generator hg hxlen hxs
  refine hmulG.succeeds.publishes.bind_panicsUnless fun u1G hu1G => ?_
  obtain ⟨C, hC, hupright⟩ := hu1G.exists_coordinates hdoubles
  have hmulQ := AllocatedPoint.panicsUnless_scalarMul (a := curveParams.1) (K := (x, y)) hq hylen hys
  refine hmulQ.bind_publishes fun _ u2Q hu2Q => ?_
  obtain ⟨R, hR⟩ := hu2Q
  exact ((AllocatedPoint.panicsUnless_add hC hR).publishes hupright).mono fun point hpoint => ⟨_, hpoint.x⟩

theorem publishes_checkX {point : AllocatedPoint Scalar Scalar} {v : Scalar} {ss is : List ℕ}
    (ht : t.WellFormed .honest (limbsOf r 64 4) ss is) (hx : point.x.Holds .honest v) :
    (checkX t point).Publishes [] fun _ => True := by
  have hlt : ToRepr.toNat v < 2 ^ 256 := lt_trans (ZMod.val_lt v : ToRepr.toNat v < fieldModulus) (by decide)
  have hpos : 0 < Nonnative.evalList (2 ^ 64) (limbsOf p256Order 64 4) := by
    rw [evalList_order]
    decide
  have heval : point.x.lc.eval = v := by rw [AllocatedNum.eval_lc, hx.val_eq]
  unfold checkX
  refine (Nonnative.succeeds_fromNum heval (hx.value_eq rfl) hlt (ZMod.natCast_zmod_val v)).publishes.bind_nil
    fun x hx => ?_
  have hred := (Nonnative.succeeds_redMod hx ht.n hpos).and_ensures (Nonnative.ensures_redMod hx.any ht.n.any)
  refine hred.publishes.bind_nil fun xModN hxModN => ?_
  obtain ⟨⟨-, hrem⟩, qs, rs, -, hrs, -⟩ := hxModN
  exact Nonnative.publishes_equal
    ⟨hrem, Nonnative.length_limbsOf _ 64 4, fun n hn => Nonnative.limbsOf_lt hn, hrs.params⟩ ht.r

/-- A number without room is an error before any point is computed. -/
theorem synthesize_allocSignature_error (h : ¬(r < 2 ^ 256 ∧ s < 2 ^ 256 ∧ i < 2 ^ 256)) :
    (allocSignature r s i : Circuit Scalar Scalar _).synthesize = .error .assignmentMissing := by
  unfold allocSignature
  refine (Nonnative.succeeds_allocBignatConstant (by decide)).publishes.bind_error fun n _ => ?_
  refine (Nonnative.succeeds_allocBignatConstant (by decide)).publishes.bind_error fun one _ => ?_
  by_cases hr : r < 2 ^ 256
  · refine (succeeds_allocNumber hr).publishes.bind_error fun _ _ => ?_
    by_cases hs : s < 2 ^ 256
    · refine (succeeds_allocNumber hs).publishes.bind_error fun _ _ => ?_
      have hi : ¬i < 2 ^ 256 := fun hi => h ⟨hr, hs, hi⟩
      exact Circuit.synthesize_bind_error (Nonnative.synthesize_allocChecked_error (not_lt.mp hi))
    · exact Circuit.synthesize_bind_error (Nonnative.synthesize_allocChecked_error (not_lt.mp hs))
  · exact Circuit.synthesize_bind_error (Nonnative.synthesize_allocChecked_error (not_lt.mp hr))

/-- The signature check panics exactly where its numbers have room and the key's multiple meets a vertical
tangent. -/
theorem verify_ne_panic_iff (hzv : zv < 2 ^ 256) (hz : z.WellFormed .honest (limbsOf zv 64 4))
    (hx : qx.Holds .honest x) (hy : qy.Holds .honest y) :
    (verifyEcdsaP256WithDigest qx qy r s i z).synthesize ≠ .error .panic ↔
      (r < 2 ^ 256 ∧ s < 2 ^ 256 ∧ i < 2 ^ 256 →
        MeetsNoVertical curveParams.1 (x, y) (toLEBits 256 (r * i % p256Order))) := by
  by_cases hroom : r < 2 ^ 256 ∧ s < 2 ^ 256 ∧ i < 2 ^ 256
  · obtain ⟨hr, hs, hi⟩ := hroom
    have hcheck : (verifyEcdsaP256WithDigest qx qy r s i z).PanicsUnless
        (MeetsNoVertical curveParams.1 (x, y) (toLEBits 256 (r * i % p256Order))) fun _ => True := by
      refine (succeeds_allocSignature hr hs hi).publishes.bind_panicsUnless fun t ht => ?_
      refine (publishes_signatureScalars hzv hr hs hi hz ht).bind_panicsUnless fun u hu => ?_
      obtain ⟨xs, hxlen, hxs, hys⟩ := hu
      refine (panicsUnless_signaturePoint hxlen (length_toLEBits _ _) hxs hys hx hy).bind_publishes fun _ point hpoint => ?_
      obtain ⟨v, hv⟩ := hpoint
      exact publishes_checkX ht hv
    rw [hcheck.synthesize_ne_iff]
    exact ⟨fun h _ => h, fun h => h ⟨hr, hs, hi⟩⟩
  · rw [verifyEcdsaP256WithDigest, Circuit.synthesize_bind_error (synthesize_allocSignature_error hroom)]
    exact ⟨fun _ h => absurd h hroom, fun _ => nofun⟩

end Verify

end ZkCredVega
