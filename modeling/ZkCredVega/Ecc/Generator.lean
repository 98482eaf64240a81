import ZkCredVega.Ecc.ScalarMul
import ZkCredVega.Circuit.Lucas

/-!
# The order of the base point

The order of P-256 is prime, and it annihilates the base point. The multiple is computed in
Jacobian coordinates, `x = X / Z²` and `y = Y / Z³`, with numbers modulo the field prime that
the kernel can evaluate.
-/

namespace ZkCredVega

open Circuits WeierstrassCurve.Affine

/-! ## The order -/

/-- `p256_order`. -/
def p256Order : ℕ := 0xffffffff00000000ffffffffffffffffbce6faada7179e84f3b9cac2fc632551

theorem prime_191039911 : Nat.Prime 191039911 :=
  prime_of_isPrimitiveRoot 28 _ 3 [2, 3, 5, 41, 155317] (by norm_num) (by decide +kernel)

theorem prime_208150935 : Nat.Prime 208150935158385979 :=
  prime_of_isPrimitiveRoot 58 _ 2 [2, 3, 11, 43, 127, 3023, 191039911] (by simp [prime_191039911]; norm_num)
    (by decide +kernel)

theorem prime_262474755 : Nat.Prime 2624747550333869278416773953 :=
  prime_of_isPrimitiveRoot 92 _ 7 [2, 2, 2, 2, 2, 2, 3, 3, 1297, 16879, 208150935158385979]
    (by simp [prime_208150935]; norm_num) (by decide +kernel)

theorem prime_100232803 : Nat.Prime 1002328039319 :=
  prime_of_isPrimitiveRoot 40 _ 19 [2, 126241, 3969899] (by norm_num) (by decide +kernel)

theorem prime_311245691 : Nat.Prime 311245691 :=
  prime_of_isPrimitiveRoot 29 _ 2 [2, 5, 7, 17, 29, 29, 311] (by norm_num) (by decide +kernel)

theorem prime_622491383 : Nat.Prime 622491383 :=
  prime_of_isPrimitiveRoot 30 _ 5 [2, 311245691] (by simp [prime_311245691]; norm_num) (by decide +kernel)

theorem prime_187019741 : Nat.Prime 187019741 :=
  prime_of_isPrimitiveRoot 28 _ 2 [2, 2, 5, 9350987] (by norm_num) (by decide +kernel)

theorem prime_p256Order : Nat.Prime p256Order :=
  prime_of_isPrimitiveRoot 256 _ 7 [2, 2, 2, 2, 3, 71, 131, 373, 3407, 17449, 38189, 187019741, 622491383,
    1002328039319, 2624747550333869278416773953]
    (by simp [prime_187019741, prime_622491383, prime_100232803, prime_262474755]; norm_num) (by decide +kernel)

instance : Fact p256Order.Prime := ⟨prime_p256Order⟩

/-- The inverse modulo the order of P-256. -/
def invertMod (s : ℕ) : ℕ := ((s : ZMod p256Order)⁻¹).val

theorem invertMod_lt (s : ℕ) : invertMod s < p256Order := ZMod.val_lt _

theorem invertMod_invertMod {s : ℕ} (hs : s < p256Order) : invertMod (invertMod s) = s := by
  rw [invertMod, invertMod, ZMod.natCast_zmod_val, inv_inv, ZMod.val_natCast_of_lt hs]

theorem invertMod_pos {s : ℕ} (hpos : 0 < s) (hs : s < p256Order) : 0 < invertMod s := by
  rw [Nat.pos_iff_ne_zero]
  intro hzero
  have hback := invertMod_invertMod hs
  have hnone : invertMod 0 = 0 := by
    rw [invertMod, Nat.cast_zero, inv_zero, ZMod.val_zero]
  rw [hzero, hnone] at hback
  exact hpos.ne hback

/-! ## Jacobian coordinates -/

def subMod (a b : ℕ) : ℕ := (a + (fieldModulus - b % fieldModulus)) % fieldModulus

structure Jacobian where
  x : ℕ
  y : ℕ
  z : ℕ

def Jacobian.double (t : Jacobian) : Jacobian :=
  let yy := t.y * t.y % fieldModulus
  let zz := t.z * t.z % fieldModulus
  let s := 4 * t.x * yy % fieldModulus
  let m := subMod (3 * t.x * t.x) (3 * zz * zz)
  let x := subMod (m * m) (2 * s)
  ⟨x, subMod (m * subMod s x) (8 * yy * yy), 2 * t.y * t.z % fieldModulus⟩

def Jacobian.addGenerator (t : Jacobian) : Jacobian :=
  let zz := t.z * t.z % fieldModulus
  let h := subMod (generatorX * zz) t.x
  let r := subMod (generatorY * zz * t.z) t.y
  let hh := h * h % fieldModulus
  let x := subMod (r * r) (h * hh + 2 * t.x * hh)
  ⟨x, subMod (r * subMod (t.x * hh) x) (t.y * h * hh), t.z * h % fieldModulus⟩

/-- The multiple of the base point by `e`, from the `k` low bits of `e`, when no step is degenerate. -/
def multipleOf : ℕ → ℕ → Option Jacobian
  | 0, _ => none
  | k + 1, e =>
    if e = 1 then some ⟨generatorX, generatorY, 1⟩
    else
      match multipleOf k (e / 2) with
      | none => none
      | some t =>
        if t.y % fieldModulus = 0 then none
        else if e % 2 = 0 then some t.double
        else if subMod (generatorX * (t.double.z * t.double.z)) t.double.x = 0 then none
        else some t.double.addGenerator

theorem natCast_mod (a : ℕ) : ((a % fieldModulus : ℕ) : Scalar) = (a : Scalar) :=
  (CharP.natCast_eq_natCast Scalar fieldModulus).mpr (Nat.mod_modEq a fieldModulus)

theorem natCast_subMod (a b : ℕ) : ((subMod a b : ℕ) : Scalar) = (a : Scalar) - (b : Scalar) := by
  have hle : b % fieldModulus ≤ fieldModulus := (Nat.mod_lt b (by decide)).le
  rw [subMod, natCast_mod, Nat.cast_add, Nat.cast_sub hle, natCast_mod,
    CharP.cast_eq_zero Scalar fieldModulus]
  ring

def generator : p256.Point := .some _ _ (p256_nonsingular equation_generator)

/-- The coordinates give a finite point. -/
structure Jacobian.Represents (t : Jacobian) (x y : Scalar) : Prop where
  z_ne : (t.z : Scalar) ≠ 0
  x_eq : (t.x : Scalar) = x * (t.z : Scalar) ^ 2
  y_eq : (t.y : Scalar) = y * (t.z : Scalar) ^ 3

namespace Jacobian

variable {t : Jacobian} {x y : Scalar}

theorem natCast_double_x (t : Jacobian) : (t.double.x : Scalar) =
    (3 * (t.x : Scalar) ^ 2 - 3 * (t.z : Scalar) ^ 4) ^ 2 - 8 * (t.x : Scalar) * (t.y : Scalar) ^ 2 := by
  simp only [double, natCast_subMod, natCast_mod, Nat.cast_mul, Nat.cast_ofNat]
  ring

theorem natCast_double_y (t : Jacobian) : (t.double.y : Scalar) =
    (3 * (t.x : Scalar) ^ 2 - 3 * (t.z : Scalar) ^ 4) * (4 * (t.x : Scalar) * (t.y : Scalar) ^ 2 - t.double.x) -
      8 * (t.y : Scalar) ^ 4 := by
  simp only [double, natCast_subMod, natCast_mod, Nat.cast_mul, Nat.cast_ofNat]
  ring

theorem natCast_double_z (t : Jacobian) : (t.double.z : Scalar) = 2 * (t.y : Scalar) * (t.z : Scalar) := by
  simp only [double, natCast_mod, Nat.cast_mul, Nat.cast_ofNat]

theorem double_represents {h : p256.Nonsingular x y} (ht : t.Represents x y) (hy : (t.y : Scalar) ≠ 0) :
    ∃ x' y' h', t.double.Represents x' y' ∧ Point.some x y h + Point.some x y h = (Point.some x' y' h' : p256.Point) := by
  have hyne : y ≠ 0 := by
    rintro rfl
    rw [ht.y_eq, zero_mul] at hy
    exact hy rfl
  have hdiv : y + y ≠ 0 := add_self_ne_zero hyne
  have hne : y ≠ p256.negY x y := by
    rw [AllocatedPoint.negY_eq]
    exact fun heq => hdiv (by linear_combination heq)
  obtain ⟨s, hs⟩ : ∃ s, p256.slope x x y y = s := ⟨_, rfl⟩
  have hslope : s * (y + y) = 3 * x * x - 3 := by
    rw [← hs, AllocatedPoint.slope_eq_tangent hne, AllocatedPoint.tangent]
    simp only [Bool.false_eq_true, if_false, curveParams]
    rw [div_mul_cancel₀ _ hdiv]
    ring
  have hx : (t.double.x : Scalar) = onLineX s x x * (t.double.z : Scalar) ^ 2 := by
    rw [natCast_double_x, natCast_double_z, ht.x_eq, ht.y_eq, onLineX]
    linear_combination (-(t.z : Scalar) ^ 8 * (s * (y + y) + (3 * x * x - 3))) * hslope
  refine ⟨_, _, _, ⟨?_, ?_, ?_⟩, Point.add_of_Y_ne hne⟩
  · rw [natCast_double_z, two_mul]
    exact mul_ne_zero (add_self_ne_zero hy) ht.z_ne
  · rw [AllocatedPoint.addX_eq, hs, hx]
  · rw [AllocatedPoint.addY_eq, hs, natCast_double_y, hx, natCast_double_z, ht.x_eq, ht.y_eq, onLineY]
    linear_combination
      (-(t.z : Scalar) ^ 12 * 4 * y ^ 2 * (x - onLineX s x x)) * hslope

theorem natCast_addGenerator_x (t : Jacobian) : (t.addGenerator.x : Scalar) =
    ((generatorY : Scalar) * (t.z : Scalar) ^ 3 - t.y) ^ 2 -
      ((generatorX : Scalar) * (t.z : Scalar) ^ 2 - t.x) ^ 2 *
        ((generatorX : Scalar) * (t.z : Scalar) ^ 2 - t.x + 2 * (t.x : Scalar)) := by
  simp only [addGenerator, natCast_subMod, natCast_mod, Nat.cast_mul, Nat.cast_add, Nat.cast_ofNat]
  ring

theorem natCast_addGenerator_y (t : Jacobian) : (t.addGenerator.y : Scalar) =
    ((generatorY : Scalar) * (t.z : Scalar) ^ 3 - t.y) *
      ((t.x : Scalar) * ((generatorX : Scalar) * (t.z : Scalar) ^ 2 - t.x) ^ 2 - t.addGenerator.x) -
      (t.y : Scalar) * ((generatorX : Scalar) * (t.z : Scalar) ^ 2 - t.x) ^ 3 := by
  simp only [addGenerator, natCast_subMod, natCast_mod, Nat.cast_mul, Nat.cast_add, Nat.cast_ofNat]
  ring

theorem natCast_addGenerator_z (t : Jacobian) : (t.addGenerator.z : Scalar) =
    (t.z : Scalar) * ((generatorX : Scalar) * (t.z : Scalar) ^ 2 - t.x) := by
  simp only [addGenerator, natCast_subMod, natCast_mod, Nat.cast_mul]
  ring

theorem addGenerator_represents {h : p256.Nonsingular x y} (ht : t.Represents x y)
    (hx : (generatorX : Scalar) * (t.z : Scalar) ^ 2 - t.x ≠ 0) :
    ∃ x' y' h', t.addGenerator.Represents x' y' ∧
      Point.some x y h + generator = (Point.some x' y' h' : p256.Point) := by
  have hne : x ≠ (generatorX : Scalar) := by
    rintro rfl
    rw [ht.x_eq, sub_self] at hx
    exact hx rfl
  have hdiv : (generatorX : Scalar) - x ≠ 0 := sub_ne_zero.mpr fun heq => hne heq.symm
  obtain ⟨s, hs⟩ : ∃ s, p256.slope x (generatorX : Scalar) y (generatorY : Scalar) = s := ⟨_, rfl⟩
  have hslope : s * ((generatorX : Scalar) - x) = (generatorY : Scalar) - y := by
    rw [← hs, AllocatedPoint.slope_eq_chord hne]
    simp only [AllocatedPoint.chord, decide_eq_false hne, Bool.or_self, Bool.false_eq_true, if_false]
    exact div_mul_cancel₀ _ hdiv
  have hx' : (t.addGenerator.x : Scalar) = onLineX s x (generatorX : Scalar) * (t.addGenerator.z : Scalar) ^ 2 := by
    rw [natCast_addGenerator_x, natCast_addGenerator_z, ht.x_eq, ht.y_eq, onLineX]
    linear_combination (-(t.z : Scalar) ^ 6 * (s * ((generatorX : Scalar) - x) + ((generatorY : Scalar) - y))) * hslope
  refine ⟨_, _, _, ⟨?_, ?_, ?_⟩, Point.add_of_X_ne hne⟩
  · rw [natCast_addGenerator_z]
    exact mul_ne_zero ht.z_ne hx
  · rw [AllocatedPoint.addX_eq, hs, hx']
  · rw [AllocatedPoint.addY_eq, hs, natCast_addGenerator_y, hx', natCast_addGenerator_z, ht.x_eq, ht.y_eq, onLineY]
    linear_combination (-(t.z : Scalar) ^ 9 * ((generatorX : Scalar) - x) ^ 2 *
      (x - onLineX s x (generatorX : Scalar))) * hslope

end Jacobian

theorem natCast_ne_zero {a : ℕ} (h : a % fieldModulus ≠ 0) : (a : Scalar) ≠ 0 := by
  intro hzero
  exact h (Nat.mod_eq_zero_of_dvd ((CharP.cast_eq_zero_iff Scalar fieldModulus a).mp hzero))

theorem multipleOf_represents {k e : ℕ} {t : Jacobian} (h : multipleOf k e = some t) :
    ∃ x y hns, t.Represents x y ∧ e • generator = Point.some x y hns := by
  induction k generalizing e t with
  | zero => cases h
  | succ k ih =>
    rw [multipleOf] at h
    split at h
    · next he =>
      cases h
      refine ⟨_, _, p256_nonsingular equation_generator, ⟨?_, ?_, ?_⟩, ?_⟩
      · simp
      · simp
      · simp
      · rw [he, one_nsmul]
        rfl
    · cases hhalf : multipleOf k (e / 2) with
      | none =>
        rw [hhalf] at h
        cases h
      | some half =>
        rw [hhalf] at h
        obtain ⟨x, y, hns, hrep, hmul⟩ := ih hhalf
        simp only at h
        split at h
        · cases h
        · next hy =>
          obtain ⟨x', y', hns', hrep', hdouble⟩ := @Jacobian.double_represents half x y hns hrep (natCast_ne_zero hy)
          have hmul' : (2 * (e / 2)) • generator = Point.some x' y' hns' := by
            rw [two_mul, add_nsmul, hmul, hdouble]
          split at h
          · next heven =>
            cases h
            rw [show 2 * (e / 2) = e by omega] at hmul'
            exact ⟨x', y', hns', hrep', hmul'⟩
          · next hodd =>
            split at h
            · cases h
            · next hx =>
              cases h
              have hne : (generatorX : Scalar) * (half.double.z : Scalar) ^ 2 - half.double.x ≠ 0 := by
                have hcast := natCast_ne_zero (a := subMod (generatorX * (half.double.z * half.double.z)) half.double.x)
                  (by rwa [subMod, Nat.mod_mod, ← subMod])
                rw [natCast_subMod] at hcast
                push_cast at hcast
                rwa [sq]
              obtain ⟨x'', y'', hns'', hrep'', hsum⟩ := @Jacobian.addGenerator_represents _ x' y' hns' hrep' hne
              refine ⟨x'', y'', hns'', hrep'', ?_⟩
              rw [← hsum, ← hmul', ← succ_nsmul]
              congr 1
              omega

/-- The coordinates are those of the base point's negative. -/
def Jacobian.isNegative (t : Jacobian) : Bool :=
  subMod t.x (generatorX * (t.z * t.z)) == 0 && (t.y + generatorY * (t.z * t.z * t.z)) % fieldModulus == 0

theorem Jacobian.Represents.eq_neg {t : Jacobian} {x y : Scalar} (ht : t.Represents x y)
    (h : t.isNegative = true) : x = generatorX ∧ y = -(generatorY : Scalar) := by
  simp only [Jacobian.isNegative, Bool.and_eq_true, beq_iff_eq] at h
  have hx : ((subMod t.x (generatorX * (t.z * t.z)) : ℕ) : Scalar) = 0 := by rw [h.1, Nat.cast_zero]
  have hy : ((t.y + generatorY * (t.z * t.z * t.z) : ℕ) : Scalar) = 0 := by rw [← natCast_mod, h.2, Nat.cast_zero]
  rw [natCast_subMod, ht.x_eq] at hx
  push_cast at hx hy
  rw [ht.y_eq] at hy
  constructor
  · have hmul : (x - generatorX) * (t.z : Scalar) ^ 2 = 0 := by linear_combination hx
    exact sub_eq_zero.mp ((mul_eq_zero.mp hmul).resolve_right (pow_ne_zero 2 ht.z_ne))
  · have hmul : (y + generatorY) * (t.z : Scalar) ^ 3 = 0 := by linear_combination hy
    exact eq_neg_of_add_eq_zero_left ((mul_eq_zero.mp hmul).resolve_right (pow_ne_zero 3 ht.z_ne))

theorem succ_nsmul_generator {k e : ℕ} {t : Jacobian} (h : multipleOf k e = some t) (hneg : t.isNegative = true) :
    (e + 1) • generator = 0 := by
  obtain ⟨x, y, hns, hrep, hmul⟩ := multipleOf_represents h
  obtain ⟨rfl, rfl⟩ := hrep.eq_neg hneg
  rw [succ_nsmul, hmul, generator]
  apply Point.add_of_Y_eq rfl
  rw [AllocatedPoint.negY_eq]

/-- One less than the order times the base point is its negative. -/
def reachesNegative : Bool := (multipleOf 256 (p256Order - 1)).any Jacobian.isNegative

theorem order_nsmul_generator : p256Order • generator = 0 := by
  have hcheck : reachesNegative = true := by decide +kernel
  obtain ⟨t, ht, hneg⟩ := (Option.any_eq_true _ _).mp hcheck
  have hsucc := succ_nsmul_generator ht hneg
  rwa [Nat.sub_add_cancel (by decide)] at hsucc

/-! ## Scalar multiplication over P-256 -/

namespace AllocatedPoint

variable {p : AllocatedPoint Scalar Scalar}

/-- The prover knows the values of a point. -/
structure Known (p : AllocatedPoint Scalar Scalar) : Prop where
  x : p.x.value = some p.x.val
  y : p.y.value = some p.y.val
  isInfinity : p.isInfinity.value = some p.isInfinity.val

theorem Valid.holds_of_known (h : p.Valid) (hknown : p.Known) : p.Holds .honest p.point := by
  obtain ⟨x, y, f, hat, hholds⟩ := h.holds.exists_holdsAt
  have hx : p.x.val = x := hat.x.val_eq
  have hy : p.y.val = y := hat.y.val_eq
  have hf : p.isInfinity.val = ofBool f := hat.isInfinity.val_eq
  have hhonest : p.HoldsAt .honest x y f := by
    refine ⟨⟨hx, fun _ => ?_⟩, ⟨hy, fun _ => ?_⟩, ⟨hf, fun _ => ?_⟩⟩
    · rw [hknown.x, hx]
    · rw [hknown.y, hy]
    · rw [hknown.isInfinity, hf]
  have hpoint := h.holds
  generalize p.point = P at hpoint hholds ⊢
  cases P with
  | zero =>
    obtain ⟨x', y', hzero⟩ := hpoint
    have hflag : f = true := ofBool_inj (hf.symm.trans hzero.isInfinity.val_eq)
    exact ⟨x, y, hflag ▸ hhonest⟩
  | some x' y' hns =>
    have hx' : x = x' := hx.symm.trans hpoint.x.val_eq
    have hy' : y = y' := hy.symm.trans hpoint.y.val_eq
    have hflag : f = false := ofBool_inj (hf.symm.trans hpoint.isInfinity.val_eq)
    subst hx' hy' hflag
    exact hhonest

theorem Holds.isInfinity_iff {P : p256.Point} (h : p.Holds .any P) : p.isInfinity.val = 1 ↔ P = 0 := by
  cases P with
  | zero =>
    obtain ⟨x, y, h⟩ := h
    exact ⟨fun _ => rfl, fun _ => h.isInfinity.val_eq⟩
  | some x y hns =>
    have hzero : p.isInfinity.val = 0 := h.isInfinity.val_eq
    rw [hzero]
    exact ⟨fun h => absurd h zero_ne_one, fun h => absurd h (Point.some_ne_zero hns)⟩

/-- A finite point of P-256 times 256 bits, for any bits: every satisfying assignment gives the multiple,
flagged exactly when it is the identity, and the honest prover's assignment is one. The order of the point
is the group's. -/
theorem scalarMul_multiple (p : AllocatedPoint Scalar Scalar) (bits : List (AllocatedBit Scalar)) (xs : List Bool)
    (hp : p.Valid) (hfinite : p.isInfinity.val = 0) (horder : p256Order • p.point = 0) (hlen : xs.length = 256)
    (hbits : HoldBits .any bits xs) :
    (scalarMul curveParams.1 p bits).Ensures (fun r => r.Valid ∧ r.point = leBits xs • p.point ∧
      (r.isInfinity.val = 1 ↔ leBits xs • p.point = 0)) ∧
    (p.Known → HoldBits .honest bits xs → (scalarMul curveParams.1 p bits).Succeeds fun _ => True) := by
  have hne : p.point ≠ 0 := by
    intro hzero
    have hflag := hp.holds.isInfinity_iff.mpr hzero
    rw [hfinite] at hflag
    exact zero_ne_one hflag
  have hbig : 2 ^ 255 ≤ p256Order := by decide
  constructor
  · have hmul := yields_scalarMul prime_p256Order hbig hne horder hp.holds hlen hbits
    exact hmul.ensures.mono fun r hr => ⟨hr.valid.1, hr.valid.2, hr.isInfinity_iff⟩
  · intro hknown hhonest
    have hmul := yields_scalarMul prime_p256Order hbig hne horder (hp.holds_of_known hknown) hlen hhonest
    exact hmul.succeeds.mono fun _ _ => trivial

def ofGenerator : AllocatedPoint Scalar Scalar :=
  ⟨⟨generatorX, some generatorX⟩, ⟨generatorY, some generatorY⟩, ⟨0, some 0⟩⟩

theorem valid_ofGenerator : ofGenerator.Valid := .inr ⟨rfl, equation_generator⟩

theorem point_ofGenerator : ofGenerator.point = generator := by
  have hholds : ofGenerator.Holds .any generator := ⟨⟨rfl, nofun⟩, ⟨rfl, nofun⟩, ⟨rfl, nofun⟩⟩
  exact hholds.valid.2

theorem holdBits_ofBool {who : Circuit.Prover} (xs : List Bool) :
    HoldBits who (xs.map fun x => (⟨ofBool x, some x⟩ : AllocatedBit Scalar)) xs := by
  refine List.forall₂_map_left_iff.mpr ((List.forall₂_same).mpr ?_)
  intro x _
  cases who with
  | any => exact (rfl : (ofBool x : Scalar) = ofBool x)
  | honest => exact ⟨rfl, rfl⟩

theorem scalarMul_multiple_generator :
    ((scalarMul curveParams.1 ofGenerator ((List.replicate 256 true).map fun x => ⟨ofBool x, some x⟩)).Ensures
      fun r => r.Valid ∧ r.point = leBits (List.replicate 256 true) • ofGenerator.point ∧
        (r.isInfinity.val = 1 ↔ leBits (List.replicate 256 true) • ofGenerator.point = 0)) ∧
    (scalarMul curveParams.1 ofGenerator ((List.replicate 256 true).map fun x => ⟨ofBool x, some x⟩)).Succeeds
      fun _ => True := by
  have horder : p256Order • ofGenerator.point = 0 := by rw [point_ofGenerator]; exact order_nsmul_generator
  have hmul := scalarMul_multiple ofGenerator _ (List.replicate 256 true) valid_ofGenerator rfl horder
    (List.length_replicate) (holdBits_ofBool _)
  exact ⟨hmul.1, hmul.2 ⟨rfl, rfl, rfl⟩ (holdBits_ofBool _)⟩

end AllocatedPoint

end ZkCredVega
