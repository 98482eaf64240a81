import ZkCredVega.Circuit.Lucas
import ZkCredVega.Bellpepper

/-!
# The circuits' field

The circuits are over the base field of P-256, which is the scalar field of
T256.
-/

namespace ZkCredVega

open Circuits

/-- The modulus of the circuits' field. -/
def fieldModulus : ℕ := 2 ^ 256 - 2 ^ 224 + 2 ^ 192 + 2 ^ 96 - 1

theorem prime_46076956 : Nat.Prime 46076956964474543 :=
  prime_of_isPrimitiveRoot 56 _ 5 [2, 23, 18169, 78283, 704251]
    (by norm_num) (by decide +kernel)

theorem prime_66417393 : Nat.Prime 66417393611 :=
  prime_of_isPrimitiveRoot 36 _ 6 [2, 5, 53, 173, 197, 3677]
    (by norm_num) (by decide +kernel)

theorem prime_11290956 : Nat.Prime 11290956913871 :=
  prime_of_isPrimitiveRoot 44 _ 13 [2, 5, 17, 66417393611]
    (by simp [prime_66417393]; norm_num) (by decide +kernel)

theorem prime_204061199 : Nat.Prime 204061199 :=
  prime_of_isPrimitiveRoot 28 _ 11 [2, 11, 23, 107, 3769]
    (by norm_num) (by decide +kernel)

theorem prime_34282281 : Nat.Prime 34282281433 :=
  prime_of_isPrimitiveRoot 35 _ 17 [2, 2, 2, 3, 7, 204061199]
    (by simp [prime_204061199]; norm_num) (by decide +kernel)

theorem prime_77402318 : Nat.Prime 774023187263532362759620327192479577272145303 :=
  prime_of_isPrimitiveRoot 150 _ 3 [2, 3, 3, 2411, 34282281433, 11290956913871, 46076956964474543]
    (by simp [prime_34282281, prime_11290956, prime_46076956]; norm_num) (by decide +kernel)

theorem prime_83594504 : Nat.Prime 835945042244614951780389953367877943453916927241 :=
  prime_of_isPrimitiveRoot 160 _ 11 
    [2, 2, 2, 3, 3, 3, 5, 774023187263532362759620327192479577272145303]
    (by simp [prime_77402318]; norm_num) (by decide +kernel)

theorem prime_fieldModulus : Nat.Prime fieldModulus :=
  prime_of_isPrimitiveRoot 256 _ 6 [2, 3, 5, 5, 17, 257, 641, 1531, 65537, 490463, 6700417,
    835945042244614951780389953367877943453916927241]
    (by simp [prime_83594504]; norm_num) (by decide +kernel)

instance : Fact (Nat.Prime fieldModulus) := ⟨prime_fieldModulus⟩

/-- `Scalar`: an element of the circuits' field. -/
def Scalar : Type := ZMod fieldModulus

instance : Field Scalar := inferInstanceAs (Field (ZMod fieldModulus))

instance : DecidableEq Scalar := inferInstanceAs (DecidableEq (ZMod fieldModulus))

instance : CharP Scalar fieldModulus := inferInstanceAs (CharP (ZMod fieldModulus) fieldModulus)

instance : LargeChar Scalar where
  natCast_inj := by
    intro a b ha hb h
    have hlt : 2 ^ 255 < fieldModulus := by decide
    have hmod := (CharP.natCast_eq_natCast Scalar fieldModulus).mp h
    exact hmod.eq_of_lt_of_lt (by omega) (by omega)

instance : ToRepr Scalar := ⟨fun x => ZMod.val (n := fieldModulus) x⟩

instance : LawfulToRepr Scalar where
  toNat_natCast := by
    intro n hn
    have hlt : 2 ^ 255 < fieldModulus := by decide
    exact ZMod.val_cast_of_lt (n := fieldModulus) (by omega)

end ZkCredVega
