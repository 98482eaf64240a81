import Mathlib.NumberTheory.LucasPrimality
import Mathlib.Tactic.NormNum.Prime
import Mathlib.Algebra.BigOperators.Associated

/-!
# Primality from a primitive root

Lucas's test with the powers computed by repeated squaring, in a form the
kernel can evaluate on 256-bit moduli.
-/

namespace Circuits

/-- `a ^ e % n`, from the `k` low bits of `e`. -/
def squarings (n a : ℕ) : ℕ → ℕ → ℕ
  | 0, _ => 1 % n
  | k + 1, e =>
    let half := squarings n a k (e / 2)
    bif Nat.beq (e % 2) 1 then half * half % n * a % n else half * half % n

theorem squarings_eq (n a : ℕ) {k e : ℕ} (he : e < 2 ^ k) : squarings n a k e = a ^ e % n := by
  induction k generalizing e with
  | zero =>
    obtain rfl : e = 0 := by simpa using he
    simp [squarings]
  | succ k ih =>
    have hhalf := ih (e := e / 2) (by rw [pow_succ] at he; omega)
    simp only [squarings]
    rw [hhalf, ← Nat.mul_mod, ← pow_add]
    rcases Nat.mod_two_eq_zero_or_one e with h | h
    · simp only [h, Nat.beq, cond_false]
      rw [show e / 2 + e / 2 = e by omega]
    · simp only [h, Nat.beq, cond_true]
      rw [Nat.mod_mul_mod, ← pow_succ, show e / 2 + e / 2 + 1 = e by omega]

/-- `a` has order `n - 1` modulo `n`, the product of `fs`. -/
def isPrimitiveRoot (k n a : ℕ) (fs : List ℕ) : Bool :=
  Nat.ble 2 n && Nat.ble n (2 ^ k) && Nat.beq fs.prod (n - 1) &&
    Nat.beq (squarings n a k (n - 1)) 1 &&
    fs.all fun q => !Nat.beq (squarings n a k ((n - 1) / q)) 1

theorem prime_of_isPrimitiveRoot (k n a : ℕ) (fs : List ℕ) (hfs : ∀ q ∈ fs, q.Prime)
    (h : isPrimitiveRoot k n a fs = true) : n.Prime := by
  simp only [isPrimitiveRoot, Bool.and_eq_true, Nat.ble_eq, Nat.beq_eq, List.all_eq_true,
    Bool.not_eq_true'] at h
  obtain ⟨⟨⟨⟨h2, hk⟩, hprod⟩, hone⟩, hfactor⟩ := h
  have hpow : ∀ e ≤ n - 1, (a : ZMod n) ^ e = 1 ↔ squarings n a k e = 1 := by
    intro e he
    rw [squarings_eq n a (by omega), ← Nat.cast_pow, ← Nat.cast_one (R := ZMod n),
      ZMod.natCast_eq_natCast_iff', Nat.one_mod_eq_one.mpr (by omega)]
  apply lucas_primality n (a : ZMod n) ((hpow _ le_rfl).mpr hone)
  intro q hq hdvd
  rw [← hprod] at hdvd
  obtain ⟨f, hf, hqf⟩ := (Prime.dvd_prod_iff hq.prime).mp hdvd
  obtain rfl := (Nat.prime_dvd_prime_iff_eq hq (hfs f hf)).mp hqf
  intro hcontra
  have hroot := (hpow _ (Nat.div_le_self _ _)).mp hcontra
  exact absurd (hfactor q hf) (by simp [hroot])

end Circuits
