import Mathlib.Algebra.Ring.Basic
import Mathlib.Algebra.BigOperators.Ring.List
import Mathlib.Data.Nat.Cast.Basic
import Mathlib.Data.List.Count

/-!
# Selectors

`ofBool` is the field element of a bit. `oneHot n j` is the selector of width
`n` whose only set bit is `j`: a weighted sum over it is the weight at `j`, and
in a field of large characteristic bits that sum to one are such a selector.
-/

namespace Circuits

def ofBool {F : Type} [Zero F] [One F] (b : Bool) : F := if b then 1 else 0

/-- Numbers below `2 ^ 255` are distinct as field elements. -/
class LargeChar (F : Type) [Ring F] : Prop where
  natCast_inj : ∀ {a b : ℕ}, a < 2 ^ 255 → b < 2 ^ 255 → (a : F) = b → a = b

theorem LargeChar.eq_add {F : Type} [Ring F] [LargeChar F] {a b m : ℕ} (ha : a < 2 ^ 255)
    (hb : b < 2 ^ 254) (hm : m < 2 ^ 254) (h : (a : F) = (b : F) + (m : F)) : a = b + m :=
  LargeChar.natCast_inj (F := F) ha (by omega) (by rw [h]; push_cast; rfl)

section OfBool

variable {F : Type} [Ring F]

theorem ofBool_eq_natCast (x : Bool) : (ofBool x : F) = (x.toNat : ℕ) := by
  cases x <;> simp [ofBool]

theorem ofBool_mul (x y : Bool) : (ofBool x * ofBool y : F) = ofBool (x && y) := by
  cases x <;> simp [ofBool]

theorem one_sub_ofBool (x : Bool) : (1 - ofBool x : F) = ofBool !x := by
  cases x <;> simp [ofBool]

theorem ofBool_inj [Nontrivial F] {x y : Bool} (h : (ofBool x : F) = ofBool y) : x = y := by
  cases x <;> cases y <;> simp_all [ofBool]

theorem exists_ofBool [NoZeroDivisors F] {v : F} (h : (1 - v) * v = 0) : ∃ x, v = ofBool x := by
  rcases mul_eq_zero.mp h with h | h
  · exact ⟨true, by simp [ofBool, sub_eq_zero.mp h]⟩
  · exact ⟨false, by simp [ofBool, h]⟩

theorem sum_map_ofBool (xs : List Bool) : (xs.map ofBool).sum = ((xs.count true : ℕ) : F) := by
  induction xs with
  | nil => simp
  | cons x xs ih => cases x <;> simp [ih, ofBool, add_comm]

end OfBool

/-! ## One-hot selectors -/

/-- The selector of width `n` with bit `j` set. -/
def oneHot (n j : ℕ) : List Bool := (List.range n).map (· == j)

@[simp] theorem length_oneHot (n j : ℕ) : (oneHot n j).length = n := by simp [oneHot]

theorem getElem_oneHot {n j k : ℕ} (h : k < (oneHot n j).length) :
    (oneHot n j)[k] = (k == j) := by simp [oneHot]

theorem oneHot_succ_zero (n : ℕ) : oneHot (n + 1) 0 = true :: List.replicate n false := by
  simp [oneHot, List.range_succ_eq_map, Function.comp_def]

theorem oneHot_succ_succ (n j : ℕ) : oneHot (n + 1) (j + 1) = false :: oneHot n j := by
  simp [oneHot, List.range_succ_eq_map, Function.comp_def]

theorem exists_oneHot {xs : List Bool} (h : xs.count true = 1) :
    ∃ j < xs.length, xs = oneHot xs.length j := by
  induction xs with
  | nil => simp at h
  | cons x xs ih =>
    cases x with
    | true =>
      refine ⟨0, by simp, ?_⟩
      have h0 : xs.count true = 0 := by simpa using h
      have hx : xs = List.replicate xs.length false := by
        refine List.eq_replicate_of_mem fun b hb => ?_
        cases b with
        | false => rfl
        | true => exact absurd hb (List.count_eq_zero.mp h0)
      rw [List.length_cons, oneHot_succ_zero, ← hx]
    | false =>
      obtain ⟨j, hj, hx⟩ := ih (by simpa using h)
      exact ⟨j + 1, by simpa using hj, by rw [List.length_cons, oneHot_succ_succ, ← hx]⟩

theorem count_oneHot {n j : ℕ} (hj : j < n) : (oneHot n j).count true = 1 := by
  induction n generalizing j with
  | zero => omega
  | succ n ih =>
    cases j with
    | zero => simp [oneHot_succ_zero, List.count_replicate]
    | succ j => simpa [oneHot_succ_succ] using ih (by omega)

section Sums

variable {F : Type} [Ring F]

/-- Bits that sum to one select one position. -/
theorem exists_oneHot_of_sum [LargeChar F] {xs : List Bool} (hlen : xs.length < 2 ^ 255)
    (h : (xs.map ofBool).sum = (1 : F)) : ∃ j < xs.length, xs = oneHot xs.length j := by
  rw [sum_map_ofBool] at h
  have hlt : xs.count true < 2 ^ 255 := lt_of_le_of_lt List.count_le_length hlen
  have h1 : (1 : ℕ) < 2 ^ 255 := by decide
  exact exists_oneHot (LargeChar.natCast_inj (F := F) hlt h1 (by simpa using h))

theorem eq_replicate_of_sum [LargeChar F] {xs : List Bool} (hlen : xs.length < 2 ^ 255)
    (h : (xs.map ofBool).sum = (0 : F)) : xs = List.replicate xs.length false := by
  rw [sum_map_ofBool] at h
  have hlt : xs.count true < 2 ^ 255 := lt_of_le_of_lt List.count_le_length hlen
  have h0 := LargeChar.natCast_inj (F := F) (b := 0) hlt (by decide) (by simpa using h)
  refine List.eq_replicate_of_mem fun b hb => ?_
  cases b with
  | false => rfl
  | true => exact absurd hb (List.count_eq_zero.mp h0)

theorem sum_oneHot {n j : ℕ} (hj : j < n) : ((oneHot n j).map ofBool).sum = (1 : F) := by
  simp [sum_map_ofBool, count_oneHot hj]

theorem sum_zipIdx_oneHot (f : ℕ → F) {n j : ℕ} (hj : j < n) :
    (((oneHot n j).map ofBool).zipIdx.map fun t => f t.2 * t.1).sum = f j := by
  suffices h : ∀ (n j i : ℕ), j < n →
      ((((oneHot n j).map ofBool).zipIdx i).map fun t => f t.2 * t.1).sum = f (i + j) by
    simpa using h n j 0 hj
  intro n
  induction n with
  | zero => intro j i hj; omega
  | succ n ih =>
    intro j i hj
    cases j with
    | zero =>
      have h0 : ∀ (m i : ℕ), (((List.replicate m (0 : F)).zipIdx i).map
          fun t => f t.2 * t.1).sum = 0 := by
        intro m
        induction m with
        | zero => intro i; simp
        | succ m ihm => intro i; simp [List.replicate_succ, ihm]
      simp [oneHot_succ_zero, ofBool, h0]
    | succ j =>
      have hj' : j < n := by omega
      simp [oneHot_succ_succ, ofBool, ih j (i + 1) hj', add_comm, add_left_comm]

theorem sum_filter_zipIdx_oneHot (p : ℕ → Bool) {n j : ℕ} (hj : j < n) :
    (((((oneHot n j).map ofBool).zipIdx).filter fun t => p t.2).map Prod.fst).sum =
      (ofBool (p j) : F) := by
  have h : ∀ ts : List (F × ℕ), ((ts.filter fun t => p t.2).map Prod.fst).sum =
      (ts.map fun t => ofBool (p t.2) * t.1).sum := by
    intro ts
    induction ts with
    | nil => rfl
    | cons t ts ih =>
      cases hp : p t.2 <;> simp [hp, ih, ofBool]
  rw [h, sum_zipIdx_oneHot (fun k => ofBool (p k)) hj]

/-- A sum over values paired with a selector is the selected value. -/
theorem sum_zip_oneHot {α β : Type} (f : α → F) (g : β → F) {xs : List α} {bs : List β} {j : ℕ}
    (h : bs.map g = (oneHot xs.length j).map ofBool) (hj : j < xs.length) :
    ((xs.zip bs).map fun t => f t.1 * g t.2).sum = f xs[j] := by
  have hzip : ∀ (ys : List α) (cs : List β), ((ys.zip cs).map fun t => f t.1 * g t.2) =
      List.zipWith (fun a v => f a * v) ys (cs.map g) := by
    intro ys cs
    induction ys generalizing cs with
    | nil => simp
    | cons y ys ih => cases cs <;> simp [ih]
  rw [hzip, h]
  clear h hzip
  induction xs generalizing j with
  | nil => simp at hj
  | cons x xs ih =>
    cases j with
    | zero =>
      have h0 : ∀ ys : List α, (List.zipWith (fun a v => f a * v) ys
          (List.replicate ys.length (0 : F))).sum = 0 := by
        intro ys
        induction ys with
        | nil => rfl
        | cons y ys ihy => simp [List.replicate_succ, ihy]
      simp [oneHot_succ_zero, ofBool, h0]
    | succ j => simp [oneHot_succ_succ, ofBool, ih (by simpa using hj)]

end Sums

end Circuits
