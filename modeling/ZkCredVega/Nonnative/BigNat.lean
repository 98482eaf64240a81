import ZkCredVega.P256
import ZkCredVega.Bellpepper
import Mathlib.LinearAlgebra.Lagrange
import Mathlib.Data.Nat.Size
import Mathlib.Tactic.Ring

/-!
# Non-native integers

`nonnative/bignat.rs` and the part of `nonnative/util.rs` under it: a natural number as limbs of fixed
width, products of limb polynomials by interpolation, equality of two numbers after carrying, and
multiplication and reduction modulo a number that is not the field's.
-/

namespace ZkCredVega.Nonnative

open Circuits

/-! ## The data -/

/-- `Scalar::NUM_BITS` and `Scalar::CAPACITY` of the P-256 base field. -/
def numBits : ℕ := 256

def capacity : ℕ := 255

structure BigNatParams where
  minBits : ℕ
  maxWord : ℕ
  limbWidth : ℕ
  nLimbs : ℕ

def BigNatParams.new (limbWidth nLimbs : ℕ) : BigNatParams := ⟨0, 2 ^ limbWidth - 1, limbWidth, nLimbs⟩

/-- A natural number as limbs, with the prover's values. -/
structure BigNat (F V : Type) where
  limbs : List (LC F V)
  limbValues : Option (List F)
  value : Option ℕ
  params : BigNatParams

/-- A polynomial whose coefficients are linear combinations. -/
structure Poly (F V : Type) where
  coefficients : List (LC F V)
  values : Option (List F)

/-- The natural number of the limbs, least significant first. -/
def limbsToNat (limbWidth : ℕ) (limbs : List ℕ) : ℕ := limbs.foldr (fun limb acc => acc * 2 ^ limbWidth + limb) 0

/-- The limbs of a natural number that has room in them. -/
def natToLimbs (nat limbWidth nLimbs : ℕ) : Outcome (List ℕ) :=
  if nat.size ≤ nLimbs * limbWidth then
    .ok ((List.range nLimbs).map fun i => nat / 2 ^ (limbWidth * i) % 2 ^ limbWidth)
  else .error .unsatisfiable

section Gadgets

variable {F V : Type} [Field F] [One V]

def scaled (k : F) (a : LC F V) : LC F V := ⟨a.terms.map fun t => (k * t.1, t.2)⟩

structure Num (F V : Type) where
  num : LC F V
  value : Option F

/-- Bit `i` of the representative, for the bits that a field element has. -/
def getBit [ToRepr F] (v : F) (i : ℕ) : Option Bool := if numBits ≤ i then none else some ((ToRepr.toNat v).testBit i)

namespace Num

def alloc (value : Outcome F) : Circuit F V (Num F V) := do
  let v ← Circuit.var value
  pure ⟨LC.var v, value.toOption⟩

/-- The rule that the number has at most `n` bits: all bits but the lowest are allocated, and what they leave
is a bit. -/
def fitsInBits [ToRepr F] (a : Num F V) (n : ℕ) : Circuit F V Unit := do
  let bits ← (List.range (n - 1)).mapM fun i => Circuit.var (do
    let v ← assigned a.value
    let bit ← assigned (getBit v (i + 1))
    pure (ofBool bit))
  forM bits fun v => Circuit.require (LC.var v) (LC.const 1 - LC.var v) 0
  let sum := LC.sum (bits.zipIdx.map fun t => LC.term (2 ^ (t.2 + 1)) t.1)
  Circuit.require (a.num - sum) (LC.const 1 - a.num + sum) 0

end Num

namespace Poly

def convAt {R : Type} [Semiring R] (xs ys : List R) (k : ℕ) : R :=
  ((List.range (k + 1)).map fun i => xs.getD i 0 * ys.getD (k - i) 0).sum

def conv {R : Type} [Semiring R] (xs ys : List R) : List R :=
  (List.range (xs.length + ys.length - 1)).map (convAt xs ys)

def at_ (x : ℕ) (coefficients : List (LC F V)) : LC F V :=
  LC.sum (coefficients.zipIdx.map fun t => scaled ((x : F) ^ t.2) t.1)

/-- The product, which agrees with the factors' at as many points as it has coefficients. -/
def allocProduct (a b : Poly F V) : Circuit F V (Poly F V) := do
  let n := a.coefficients.length + b.coefficients.length - 1
  let values := a.values.bind fun x => b.values.map fun y => conv x y
  let vars ← (List.range n).mapM fun i => Circuit.var (do
    let values ← assigned values
    pure (values.getD i 0))
  forM (List.range n) fun k =>
    Circuit.require (at_ (k + 1) a.coefficients) (at_ (k + 1) b.coefficients) (at_ (k + 1) (vars.map LC.var))
  pure ⟨vars.map LC.var, values⟩

/-- The sum of two lists, the shorter with zeros. -/
def addLists {α : Type} [Add α] [Zero α] (xs ys : List α) : List α :=
  (List.range (max xs.length ys.length)).map fun i => xs.getD i 0 + ys.getD i 0

def sum (a b : Poly F V) : Poly F V :=
  ⟨addLists a.coefficients b.coefficients, a.values.bind fun x => b.values.map fun y => addLists x y⟩

end Poly

namespace BigNat

def allocFromNat (value : Outcome ℕ) (limbWidth nLimbs : ℕ) : Circuit F V (BigNat F V) := do
  let cell : Outcome (List ℕ × ℕ) := do
    let v ← value
    let vs ← natToLimbs v limbWidth nLimbs
    pure (vs, v)
  let vars ← (List.range nLimbs).mapM fun i => Circuit.var (match cell with
    | .ok t => .ok ((t.1.getD i 0 : ℕ) : F)
    | .error _ => .error .assignmentMissing)
  pure ⟨vars.map LC.var, cell.toOption.map fun t => t.1.map fun n : ℕ => (n : F), cell.toOption.map Prod.snd,
    .new limbWidth nLimbs⟩

def limb (a : BigNat F V) (i : ℕ) : Num F V := ⟨a.limbs.getD i 0, a.limbValues.map (·.getD i 0)⟩

def assertWellFormed [ToRepr F] (a : BigNat F V) : Circuit F V Unit :=
  forM (List.range a.limbs.length) fun i => (a.limb i).fitsInBits a.params.limbWidth

def toPoly (a : BigNat F V) : Poly F V := ⟨a.limbs, a.limbValues⟩

def fromPoly [ToRepr F] (p : Poly F V) (limbWidth maxWord : ℕ) : BigNat F V :=
  ⟨p.coefficients, p.values, p.values.map fun vs => limbsToNat limbWidth (vs.map ToRepr.toNat),
    ⟨0, maxWord, limbWidth, p.coefficients.length⟩⟩

/-- The bits that the number has room for. -/
def nBits (a : BigNat F V) : ℕ := a.params.limbWidth * (a.params.nLimbs - 1) + a.params.maxWord.size

/-- Group `j` of `g` elements, weighted by the limb positions. -/
def group {α : Type} (weigh : ℕ → α → α) (g j : ℕ) (xs : List α) : List α :=
  ((xs.drop (g * j)).take g).zipIdx.map fun t => weigh t.2 t.1

/-- Limbs combined into groups of `g`. -/
def groupLimbs (a : BigNat F V) (g : ℕ) : BigNat F V :=
  let n := (a.limbs.length - 1) / g + 1
  let weight : ℕ → F := fun t => 2 ^ (a.params.limbWidth * t)
  ⟨(List.range n).map fun j => LC.sum (group (fun t => scaled (weight t)) g j a.limbs),
    a.limbValues.map fun vs => (List.range n).map fun j => (group (fun t v => weight t * v) g j vs).sum,
    a.value,
    ⟨a.params.minBits, ((List.range g).map fun i => 2 ^ (i * a.params.limbWidth)).sum * a.params.maxWord,
      a.params.limbWidth * g, n⟩⟩

end BigNat

/-- `to_f64`: the nearest number of 53 significant bits, to even when two are. -/
def toF64 (n : ℕ) : ℕ :=
  let shift := n.size - 53
  let top := n / 2 ^ shift
  let rest := n % 2 ^ shift
  if shift = 0 then n
  else if 2 ^ (shift - 1) < rest ∨ rest = 2 ^ (shift - 1) ∧ top % 2 = 1 then (top + 1) * 2 ^ shift
  else top * 2 ^ shift

/-- The bits of a carry: `ceil(log2(2 * max_word) - limb_width)`. The argument of `log2` is a power of two for
every number of this program, where the logarithm is exact. -/
def carryBits (maxWord limbWidth : ℕ) : ℕ := Nat.clog 2 (2 * toF64 maxWord) - limbWidth

namespace BigNat

structure Carry (F V : Type) where
  carryIn : Num F V
  extra : ℕ

/-- The carry out of limb `i`. -/
def carryHint [ToRepr F] (a b : BigNat F V) (maxWord base : ℕ) (carryIn : Option F) (i : ℕ) : Outcome F := do
  let x ← assigned a.limbValues
  let c ← match carryIn with
    | some c => .ok c
    | none => .error .panic
  let y ← assigned b.limbValues
  let total := ToRepr.toNat (x.getD i 0) + ToRepr.toNat c + maxWord
  -- the sign of a negative number is not parsed
  if total < ToRepr.toNat (y.getD i 0) then .error .panic
  else .ok (((total - ToRepr.toNat (y.getD i 0)) / base : ℕ) : F)

/-- One limb of `equal_when_carried`; the last carry is the accumulated extra. -/
def carryStep [ToRepr F] (a b : BigNat F V) (n maxWord bits : ℕ) (s : Carry F V) (i : ℕ) : Circuit F V (Carry F V) := do
  let base := 2 ^ a.params.limbWidth
  let carry ← Num.alloc (carryHint a b maxWord base s.carryIn.value i)
  let extra := s.extra + maxWord
  Circuit.require 0 0 (s.carryIn.num + (a.limb i).num - (b.limb i).num + LC.const (maxWord : F) -
    scaled (base : F) carry.num - LC.const ((extra % base : ℕ) : F))
  if i + 1 < n then carry.fitsInBits bits
  else Circuit.require 0 0 (carry.num - LC.const ((extra / base : ℕ) : F))
  pure ⟨carry, extra / base⟩

def equalWhenCarried [ToRepr F] (a b : BigNat F V) : Circuit F V Unit := do
  if a.params.limbWidth = b.params.limbWidth then
    let n := min a.limbs.length b.limbs.length
    let maxWord := max a.params.maxWord b.params.maxWord
    let _ ← (List.range n).foldlM (carryStep a b n maxWord (carryBits maxWord a.params.limbWidth)) ⟨⟨0, some 0⟩, 0⟩
    forM (a.limbs.drop n) fun limb => Circuit.require 0 0 limb
    forM (b.limbs.drop n) fun limb => Circuit.require 0 0 limb
  else .fail .unsatisfiable

def equalWhenCarriedRegroup [ToRepr F] (a b : BigNat F V) : Circuit F V Unit :=
  if a.params.limbWidth = b.params.limbWidth then
    let bits := carryBits (max a.params.maxWord b.params.maxWord) a.params.limbWidth
    let g := (capacity - bits) / a.params.limbWidth
    equalWhenCarried (a.groupLimbs g) (b.groupLimbs g)
  else .fail .unsatisfiable

/-- The quotient and the remainder that the prover finds, checked to be well formed. -/
def allocChecked [ToRepr F] (value : Outcome ℕ) (limbWidth nLimbs : ℕ) : Circuit F V (BigNat F V) := do
  let a ← allocFromNat value limbWidth nLimbs
  a.assertWellFormed
  pure a

/-- `q * m + r` as a number of limbs, with the bound of its limbs. -/
def rightSide [ToRepr F] (quotient modulus remainder : BigNat F V) (limbWidth : ℕ) : Circuit F V (BigNat F V) := do
  let product ← quotient.toPoly.allocProduct modulus.toPoly
  pure (fromPoly (product.sum remainder.toPoly) limbWidth
    (min quotient.limbs.length modulus.limbs.length * quotient.params.maxWord * modulus.params.maxWord +
      remainder.params.maxWord))

/-- The quotient and the remainder of `self * other`. -/
def multMod [ToRepr F] (a b m : BigNat F V) : Circuit F V (BigNat F V × BigNat F V) := do
  if a.params.limbWidth = b.params.limbWidth then
    let limbWidth := a.params.limbWidth
    let quotientBits := a.nBits + b.nBits - m.params.minBits
    let quotient ← allocChecked (do pure ((← assigned a.value) * (← assigned b.value) / (← assigned m.value)))
      limbWidth ((quotientBits - 1) / limbWidth + 1)
    let remainder ← allocChecked (do pure ((← assigned a.value) * (← assigned b.value) % (← assigned m.value)))
      limbWidth m.limbs.length
    let left ← a.toPoly.allocProduct b.toPoly
    let right ← rightSide quotient m remainder limbWidth
    equalWhenCarriedRegroup (fromPoly left limbWidth
      (min a.limbs.length b.limbs.length * a.params.maxWord * b.params.maxWord)) right
    pure (quotient, remainder)
  else .fail .unsatisfiable

/-- The remainder of `self`; the quotient is returned with it. -/
def redMod [ToRepr F] (a m : BigNat F V) : Circuit F V (BigNat F V × BigNat F V) := do
  if a.params.limbWidth = m.params.limbWidth then
    let limbWidth := a.params.limbWidth
    let quotientBits := a.nBits - m.params.minBits
    let quotient ← allocChecked (do pure ((← assigned a.value) / (← assigned m.value))) limbWidth
      ((quotientBits - 1) / limbWidth + 1)
    let remainder ← allocChecked (do pure ((← assigned a.value) % (← assigned m.value))) limbWidth m.limbs.length
    let right ← rightSide quotient m remainder limbWidth
    equalWhenCarriedRegroup a right
    pure (quotient, remainder)
  else .fail .unsatisfiable

end BigNat

end Gadgets

/-! ## Lists of coefficients -/

section Lists

open Polynomial

variable {R : Type} [CommSemiring R]

/-- The number or the polynomial of a list of coefficients at a point. -/
def evalList (x : R) (xs : List R) : R := xs.foldr (fun a acc => acc * x + a) 0

@[simp] theorem evalList_nil (x : R) : evalList x [] = 0 := rfl

theorem evalList_cons (x a : R) (xs : List R) : evalList x (a :: xs) = evalList x xs * x + a := rfl

theorem sum_zipIdx_pow (x : R) (xs : List R) (k : ℕ) :
    ((xs.zipIdx k).map fun t => x ^ t.2 * t.1).sum = x ^ k * evalList x xs := by
  induction xs generalizing k with
  | nil => simp
  | cons a xs ih =>
    rw [List.zipIdx_cons, List.map_cons, List.sum_cons, ih, evalList_cons, pow_succ]
    ring

theorem evalList_append (x : R) (xs ys : List R) :
    evalList x (xs ++ ys) = evalList x xs + x ^ xs.length * evalList x ys := by
  induction xs with
  | nil => simp
  | cons a xs ih =>
    rw [List.cons_append, evalList_cons, ih, evalList_cons, List.length_cons, pow_succ]
    ring

theorem cast_evalList {S : Type} [CommSemiring S] (x : ℕ) (ns : List ℕ) :
    ((evalList x ns : ℕ) : S) = evalList (x : S) (ns.map fun n : ℕ => (n : S)) := by
  induction ns with
  | nil => simp
  | cons n ns ih => rw [List.map_cons, evalList_cons, evalList_cons, ← ih]; push_cast; rfl

noncomputable def listPoly (xs : List R) : R[X] := xs.foldr (fun a acc => acc * X + C a) 0

theorem coeff_listPoly (xs : List R) (k : ℕ) : (listPoly xs).coeff k = xs.getD k 0 := by
  induction xs generalizing k with
  | nil => simp [listPoly]
  | cons a xs ih =>
    show (listPoly xs * X + C a).coeff k = _
    cases k with
    | zero => simp
    | succ k => simp [coeff_C_succ, ih]

theorem eval_listPoly (x : R) (xs : List R) : (listPoly xs).eval x = evalList x xs := by
  induction xs with
  | nil => simp [listPoly]
  | cons a xs ih =>
    show (listPoly xs * X + C a).eval x = _
    rw [eval_add, eval_mul_X, eval_C, ih, evalList_cons]

theorem degree_listPoly_lt (xs : List R) : (listPoly xs).degree < xs.length := by
  rw [degree_lt_iff_coeff_zero]
  intro k hk
  rw [coeff_listPoly, List.getD_eq_getElem?_getD, List.getElem?_eq_none hk, Option.getD_none]

theorem convAt_eq_zero {xs ys : List R} {k : ℕ} (hk : xs.length + ys.length - 1 ≤ k) : Poly.convAt xs ys k = 0 := by
  unfold Poly.convAt
  apply List.sum_eq_zero
  intro c hc
  obtain ⟨i, -, rfl⟩ := List.mem_map.mp hc
  rcases Nat.lt_or_ge i xs.length with hi | hi
  · have hj : ys.length ≤ k - i := by omega
    rw [List.getD_eq_getElem?_getD (l := ys), List.getElem?_eq_none hj, Option.getD_none, mul_zero]
  · rw [List.getD_eq_getElem?_getD (l := xs), List.getElem?_eq_none hi, Option.getD_none, zero_mul]

theorem length_conv (xs ys : List R) : (Poly.conv xs ys).length = xs.length + ys.length - 1 := by simp [Poly.conv]

theorem getD_conv (xs ys : List R) (k : ℕ) : (Poly.conv xs ys).getD k 0 = Poly.convAt xs ys k := by
  rcases Nat.lt_or_ge k (xs.length + ys.length - 1) with hk | hk
  · rw [Poly.conv, List.getD_eq_getElem?_getD, List.getElem?_map, List.getElem?_range hk]
    rfl
  · rw [convAt_eq_zero hk, List.getD_eq_getElem?_getD, List.getElem?_eq_none (by rw [length_conv]; exact hk)]
    rfl

theorem listPoly_conv (xs ys : List R) : listPoly (Poly.conv xs ys) = listPoly xs * listPoly ys := by
  ext k
  rw [coeff_listPoly, getD_conv, coeff_mul, Finset.Nat.sum_antidiagonal_eq_sum_range_succ
    (fun i j => (listPoly xs).coeff i * (listPoly ys).coeff j)]
  have hsum : Poly.convAt xs ys k = ∑ i ∈ Finset.range (k + 1), xs.getD i 0 * ys.getD (k - i) 0 := rfl
  rw [hsum]
  exact Finset.sum_congr rfl fun i _ => by rw [coeff_listPoly, coeff_listPoly]

theorem evalList_conv (x : R) (xs ys : List R) :
    evalList x (Poly.conv xs ys) = evalList x xs * evalList x ys := by
  rw [← eval_listPoly, listPoly_conv, eval_mul, eval_listPoly, eval_listPoly]

theorem cast_conv {S : Type} [CommSemiring S] (xs ys : List ℕ) :
    (Poly.conv xs ys).map (fun n : ℕ => (n : S)) =
      Poly.conv (xs.map fun n : ℕ => (n : S)) (ys.map fun n : ℕ => (n : S)) := by
  have hget : ∀ (zs : List ℕ) (i : ℕ), (zs.map fun n : ℕ => (n : S)).getD i 0 = ((zs.getD i 0 : ℕ) : S) := by
    intro zs i
    rw [List.getD_eq_getElem?_getD, List.getElem?_map, List.getD_eq_getElem?_getD]
    cases zs[i]? <;> simp
  unfold Poly.conv
  rw [List.map_map, List.length_map, List.length_map]
  refine List.map_congr_left fun k _ => ?_
  simp only [Function.comp_apply, Poly.convAt, hget, Nat.cast_list_sum, List.map_map]
  congr 1
  refine List.map_congr_left fun i _ => ?_
  simp

/-- A list of coefficients is determined by as many points as it has elements. -/
theorem eq_of_evalList {F : Type} [Field F] [LargeChar F] {xs ys : List F} (hlen : xs.length = ys.length)
    (hsmall : xs.length < 2 ^ 254)
    (h : ∀ k < xs.length, evalList ((k + 1 : ℕ) : F) xs = evalList ((k + 1 : ℕ) : F) ys) : xs = ys := by
  have hpoly : listPoly xs = listPoly ys := by
    refine Polynomial.eq_of_degrees_lt_of_eval_index_eq (Finset.range xs.length) (v := fun k : ℕ => ((k + 1 : ℕ) : F))
      ?_ ?_ ?_ ?_
    · intro i hi j hj hij
      have hi := Finset.mem_range.mp (Finset.mem_coe.mp hi)
      have hj := Finset.mem_range.mp (Finset.mem_coe.mp hj)
      have := LargeChar.natCast_inj (F := F) (by omega) (by omega) hij
      omega
    · rw [Finset.card_range]
      exact degree_listPoly_lt xs
    · rw [Finset.card_range, hlen]
      exact degree_listPoly_lt ys
    · intro k hk
      rw [eval_listPoly, eval_listPoly]
      exact h k (Finset.mem_range.mp hk)
  apply List.ext_getElem hlen
  intro i hi hi'
  have hcoeff := congrArg (fun p => p.coeff i) hpoly
  simp only [coeff_listPoly] at hcoeff
  rwa [List.getD_eq_getElem?_getD, List.getElem?_eq_getElem hi, List.getD_eq_getElem?_getD,
    List.getElem?_eq_getElem hi'] at hcoeff

end Lists

/-! ## Digits -/

theorem evalList_lt {b : ℕ} {ns : List ℕ} (h : ∀ n ∈ ns, n < b) : evalList b ns < b ^ ns.length := by
  induction ns with
  | nil => simp
  | cons n ns ih =>
    rw [List.forall_mem_cons] at h
    have htail := ih h.2
    rw [evalList_cons, List.length_cons, pow_succ]
    have hstep : (evalList b ns + 1) * b ≤ b ^ ns.length * b := Nat.mul_le_mul_right b htail
    rw [Nat.add_mul, Nat.one_mul] at hstep
    omega

theorem getD_le {zs : List ℕ} {C : ℕ} (h : ∀ z ∈ zs, z ≤ C) (i : ℕ) : zs.getD i 0 ≤ C := by
  rw [List.getD_eq_getElem?_getD]
  cases hz : zs[i]? with
  | none => exact Nat.zero_le C
  | some z => exact h z (List.mem_of_getElem? hz)

def limbsOf (v limbWidth nLimbs : ℕ) : List ℕ :=
  (List.range nLimbs).map fun i => v / 2 ^ (limbWidth * i) % 2 ^ limbWidth

theorem limbsOf_succ (v w k : ℕ) : limbsOf v w (k + 1) = v % 2 ^ w :: limbsOf (v / 2 ^ w) w k := by
  unfold limbsOf
  rw [List.range_succ_eq_map, List.map_cons, List.map_map, Nat.mul_zero, pow_zero, Nat.div_one]
  congr 1
  refine List.map_congr_left fun i _ => ?_
  rw [Function.comp_apply, Nat.succ_eq_add_one, Nat.mul_add, Nat.mul_one, Nat.add_comm (w * i), pow_add,
    Nat.div_div_eq_div_mul]

theorem length_limbsOf (v w k : ℕ) : (limbsOf v w k).length = k := by simp [limbsOf]

theorem evalList_limbsOf {v w k : ℕ} (h : v < 2 ^ (w * k)) : evalList (2 ^ w) (limbsOf v w k) = v := by
  induction k generalizing v with
  | zero =>
    rw [Nat.mul_zero, pow_zero] at h
    have hv : v = 0 := by omega
    rw [hv]
    rfl
  | succ k ih =>
    rw [Nat.mul_succ, pow_add] at h
    rw [limbsOf_succ, evalList_cons, ih (Nat.div_lt_of_lt_mul (by rw [Nat.mul_comm]; exact h)), Nat.mul_comm,
      Nat.div_add_mod]

theorem limbsOf_lt {v w k n : ℕ} (h : n ∈ limbsOf v w k) : n < 2 ^ w := by
  obtain ⟨i, -, rfl⟩ := List.mem_map.mp h
  exact Nat.mod_lt _ (by positivity)

theorem limbsOf_one (v k : ℕ) : limbsOf v 1 k = (List.range k).map fun i => (v.testBit i).toNat := by
  unfold limbsOf
  refine List.map_congr_left fun i _ => ?_
  rw [Nat.one_mul, pow_one, Nat.testBit_eq_decide_div_mod_eq]
  rcases Nat.mod_two_eq_zero_or_one (v / 2 ^ i) with h | h
  · simp [h]
  · simp [h]

section Rules

variable {F : Type} [Field F] {who : Circuit.Prover}

@[simp] theorem eval_scaled (k : F) (a : LC F F) : (scaled k a).eval = k * a.eval := by
  unfold scaled LC.eval
  rw [List.map_map, ← List.sum_map_mul_left]
  congr 1
  refine List.map_congr_left fun t _ => ?_
  simp [mul_assoc]

theorem map_eval_var (vs : List F) : (vs.map LC.var).map LC.eval = vs := by
  rw [List.map_map]
  exact (List.map_congr_left fun v _ => LC.eval_var v).trans (List.map_id vs)

theorem eval_getD (cs : List (LC F F)) (i : ℕ) : (cs.getD i 0).eval = (cs.map LC.eval).getD i 0 := by
  rw [List.getD_eq_getElem?_getD, List.getD_eq_getElem?_getD, List.getElem?_map]
  cases cs[i]? <;> rfl

structure Num.Holds (who : Circuit.Prover) (a : Num F F) (n : ℕ) : Prop where
  eval_eq : a.num.eval = (n : F)
  value_eq : who = .honest → a.value = some (n : F)

/-! ## Ranges -/

theorem eval_bitSum (vs : List F) :
    (LC.sum (vs.zipIdx.map fun t => LC.term (2 ^ (t.2 + 1)) t.1) : LC F F).eval = 2 * evalList 2 vs := by
  have hsum := sum_zipIdx_pow (2 : F) vs 0
  rw [pow_zero, one_mul] at hsum
  rw [LC.eval_sum, List.map_map, ← hsum, ← List.sum_map_mul_left]
  congr 1
  refine List.map_congr_left fun t _ => ?_
  simp only [Function.comp_apply, LC.eval_term, pow_succ]
  ring

theorem exists_bits {vs : List F} (h : ∀ v ∈ vs, v * (1 - v) = 0) :
    ∃ ns : List ℕ, (∀ n ∈ ns, n < 2) ∧ vs = ns.map fun n : ℕ => (n : F) := by
  induction vs with
  | nil => exact ⟨[], fun _ h => absurd h List.not_mem_nil, rfl⟩
  | cons v vs ih =>
    rw [List.forall_mem_cons] at h
    obtain ⟨ns, hns, rfl⟩ := ih h.2
    rcases mul_eq_zero.mp h.1 with hv | hv
    · refine ⟨0 :: ns, List.forall_mem_cons.mpr ⟨by decide, hns⟩, ?_⟩
      rw [hv, List.map_cons, Nat.cast_zero]
    · refine ⟨1 :: ns, List.forall_mem_cons.mpr ⟨by decide, hns⟩, ?_⟩
      rw [List.map_cons, Nat.cast_one, ← sub_eq_zero.mp hv]

variable [ToRepr F]

theorem ensures_fitsInBits {a : Num F F} {n : ℕ} (hn : 1 ≤ n) :
    (a.fitsInBits n).Ensures fun _ => ∃ v < 2 ^ n, a.num.eval = ((v : ℕ) : F) := by
  unfold Num.fitsInBits
  refine (Circuit.Ensures.mapM (P := fun _ _ => True) fun i _ => Circuit.ensures_var).bind fun bits hbits => ?_
  refine (Circuit.Ensures.forM fun v _ => Circuit.ensures_require).bind fun _ hbit => ?_
  refine Circuit.ensures_require.mono fun _ hlast => ?_
  have hbit : ∀ v ∈ bits, v * (1 - v) = 0 := by
    intro v hv
    have := hbit v hv
    simpa using this
  obtain ⟨ns, hns, hvs⟩ := exists_bits hbit
  have hlen := hbits.length_eq
  rw [List.length_range, hvs, List.length_map] at hlen
  have hsum : (2 : F) * evalList 2 bits = ((2 * evalList 2 ns : ℕ) : F) := by
    rw [hvs, Nat.cast_mul, cast_evalList]
    simp
  have hlt := evalList_lt hns
  rw [← hlen] at hlt
  have hpow : 2 ^ n = 2 * 2 ^ (n - 1) := by
    rw [← pow_succ']
    congr 1
    omega
  simp only [LC.eval_sub, LC.eval_add, LC.eval_const, eval_bitSum, hsum, LC.eval_zero] at hlast
  rcases mul_eq_zero.mp hlast with h | h
  · exact ⟨_, by omega, sub_eq_zero.mp h⟩
  · refine ⟨2 * evalList 2 ns + 1, by omega, ?_⟩
    have hnum : a.num.eval = ((2 * evalList 2 ns : ℕ) : F) + 1 := by linear_combination -h
    rw [hnum]
    push_cast
    rfl

variable [LawfulToRepr F]

theorem succeeds_fitsInBits {a : Num F F} {v n : ℕ} (ha : a.Holds .honest v) (hv : v < 2 ^ n) (hn : 1 ≤ n)
    (hsmall : n ≤ 255) : (a.fitsInBits n).Succeeds fun _ => True := by
  have hrepr : ToRepr.toNat ((v : ℕ) : F) = v :=
    LawfulToRepr.toNat_natCast (lt_of_lt_of_le hv (Nat.pow_le_pow_right (by decide) hsmall))
  unfold Num.fitsInBits
  have hvars : ((List.range (n - 1)).mapM fun i => (Circuit.var (do
      let v ← assigned a.value
      let bit ← assigned (getBit v (i + 1))
      pure (ofBool bit)) : Circuit F F F)).Succeeds
        (List.Forall₂ (fun i (w : F) => w = ((((v / 2).testBit i).toNat : ℕ) : F)) (List.range (n - 1))) := by
    refine Circuit.Succeeds.mapM fun i hi => ?_
    have hi := List.mem_range.mp hi
    have hbit : getBit ((v : ℕ) : F) (i + 1) = some ((v / 2).testBit i) := by
      unfold getBit numBits
      rw [if_neg (by omega), hrepr, Nat.testBit_succ]
    refine ⟨_, ⟨_, ?_, rfl, rfl⟩, rfl⟩
    rw [ha.value_eq rfl]
    show (do
      let bit ← assigned (getBit ((v : ℕ) : F) (i + 1))
      pure (ofBool bit) : Outcome F) = _
    rw [hbit, ← ofBool_eq_natCast]
    rfl
  refine hvars.bind fun bits hbits => ?_
  have heq : bits = (limbsOf (v / 2) 1 (n - 1)).map fun k : ℕ => (k : F) := by
    rw [limbsOf_one, List.map_map]
    have hmap := Circuit.map_eq_of_forall₂ (g := id) hbits
    rwa [List.map_id] at hmap
  have hhalf : v / 2 < 2 ^ (1 * (n - 1)) := by
    have hpow : 2 ^ n = 2 * 2 ^ (n - 1) := by
      rw [← pow_succ']
      congr 1
      omega
    rw [Nat.one_mul]
    omega
  have hsum : (2 : F) * evalList 2 bits = ((2 * (v / 2) : ℕ) : F) := by
    have hvalue := evalList_limbsOf hhalf
    have hcast := cast_evalList (S := F) (2 ^ 1) (limbsOf (v / 2) 1 (n - 1))
    rw [hvalue, ← heq] at hcast
    rw [Nat.cast_mul, hcast]
    simp
  refine (Circuit.Succeeds.forM fun w hw => ?_).bind fun _ _ => ?_
  · rw [heq] at hw
    obtain ⟨k, hk, rfl⟩ := List.mem_map.mp hw
    have hlt : k < 2 := limbsOf_lt hk
    apply Circuit.succeeds_require
    interval_cases k <;> simp
  · apply Circuit.succeeds_require
    simp only [LC.eval_sub, LC.eval_add, LC.eval_const, eval_bitSum, hsum, LC.eval_zero, ha.eval_eq]
    have hsplit : ((v : ℕ) : F) = ((2 * (v / 2) : ℕ) : F) + ((v % 2 : ℕ) : F) := by
      rw [← Nat.cast_add, Nat.div_add_mod]
    rcases Nat.mod_two_eq_zero_or_one v with h | h
    · rw [hsplit, h]
      simp
    · rw [hsplit, h]
      simp

/-! ## Limbs and products -/

structure Poly.Holds (who : Circuit.Prover) (p : Poly F F) (ns : List ℕ) : Prop where
  coefficients : p.coefficients.map LC.eval = ns.map fun n : ℕ => (n : F)
  values : who = .honest → p.values = some (ns.map fun n : ℕ => (n : F))

structure BigNat.Holds (who : Circuit.Prover) (a : BigNat F F) (ns : List ℕ) : Prop where
  poly : a.toPoly.Holds who ns
  value : who = .honest → a.value = some (evalList (2 ^ a.params.limbWidth) ns)
  le : ∀ n ∈ ns, n ≤ a.params.maxWord

omit [ToRepr F] [LawfulToRepr F] in
theorem Poly.Holds.length_eq {p : Poly F F} {ns : List ℕ} (h : p.Holds who ns) : p.coefficients.length = ns.length := by
  have := congrArg List.length h.coefficients
  rwa [List.length_map, List.length_map] at this

omit [ToRepr F] [LawfulToRepr F] in
theorem BigNat.Holds.length_eq {a : BigNat F F} {ns : List ℕ} (h : a.Holds who ns) : a.limbs.length = ns.length :=
  h.poly.length_eq

omit [ToRepr F] [LawfulToRepr F] in
theorem getD_cast (ns : List ℕ) (i : ℕ) : (ns.map fun n : ℕ => (n : F)).getD i 0 = ((ns.getD i 0 : ℕ) : F) := by
  rw [List.getD_eq_getElem?_getD, List.getElem?_map, List.getD_eq_getElem?_getD]
  cases ns[i]? <;> simp

omit [ToRepr F] [LawfulToRepr F] in
theorem BigNat.Holds.limb {a : BigNat F F} {ns : List ℕ} (h : a.Holds who ns) (i : ℕ) :
    (a.limb i).Holds who (ns.getD i 0) := by
  constructor
  · have hcoeffs : a.limbs.map LC.eval = ns.map fun n : ℕ => (n : F) := h.poly.coefficients
    rw [BigNat.limb, eval_getD, hcoeffs, getD_cast]
  · intro hw
    have hvalues : a.limbValues = some (ns.map fun n : ℕ => (n : F)) := h.poly.values hw
    rw [BigNat.limb, hvalues, Option.map_some, getD_cast]

omit [LawfulToRepr F] in
theorem ensures_allocChecked {value : Outcome ℕ} {w k : ℕ} (hw : 1 ≤ w) :
    (BigNat.allocChecked value w k : Circuit F F _).Ensures fun a => ∃ ns : List ℕ, ns.length = k ∧
      a.Holds .any ns ∧ a.params = .new w k ∧ ∀ n ∈ ns, n < 2 ^ w := by
  unfold BigNat.allocChecked BigNat.allocFromNat
  dsimp only
  rw [bind_assoc]
  refine (Circuit.Ensures.mapM (P := fun _ _ => True) fun i _ => Circuit.ensures_var).bind fun vars hvars => ?_
  have hcount := hvars.length_eq
  rw [List.length_range] at hcount
  rw [pure_bind]
  refine (Circuit.Ensures.forM fun i _ => ensures_fitsInBits hw).bind fun _ hfits => ?_
  refine Circuit.ensures_pure.mpr ?_
  have hnums : ∀ v ∈ vars, ∃ n : ℕ, n < 2 ^ w ∧ v = (n : F) := by
    intro v hv
    obtain ⟨i, hi, rfl⟩ := List.mem_iff_getElem.mp hv
    obtain ⟨n, hn, heval⟩ := hfits i (List.mem_range.mpr (by rw [List.length_map]; exact hi))
    refine ⟨n, hn, ?_⟩
    rw [← heval, BigNat.limb]
    simp [List.getD_eq_getElem?_getD, hi]
  have hlist : ∃ ns : List ℕ, (∀ n ∈ ns, n < 2 ^ w) ∧ vars = ns.map fun n : ℕ => (n : F) := by
    clear hfits hcount hvars
    induction vars with
    | nil => exact ⟨[], fun _ h => absurd h List.not_mem_nil, rfl⟩
    | cons v vs ih =>
      rw [List.forall_mem_cons] at hnums
      obtain ⟨n, hn, rfl⟩ := hnums.1
      obtain ⟨ns, hns, rfl⟩ := ih hnums.2
      exact ⟨n :: ns, List.forall_mem_cons.mpr ⟨hn, hns⟩, rfl⟩
  obtain ⟨ns, hns, rfl⟩ := hlist
  rw [List.length_map] at hcount
  refine ⟨ns, hcount.symm, ⟨⟨?_, fun h => by cases h⟩, (fun h => by cases h),
    fun n hn => Nat.le_sub_one_of_lt (hns n hn)⟩, rfl, hns⟩
  exact map_eval_var _

omit [ToRepr F] [LawfulToRepr F] in
theorem succeeds_allocFromNat {v w k : ℕ} (hv : v < 2 ^ (w * k)) :
    (BigNat.allocFromNat (.ok v) w k : Circuit F F _).Succeeds fun a =>
      a.Holds .honest (limbsOf v w k) ∧ a.params = .new w k := by
  have hsize : v.size ≤ k * w := by
    rw [Nat.size_le, Nat.mul_comm]
    exact hv
  have hlimbs : natToLimbs v w k = .ok (limbsOf v w k) := if_pos hsize
  have hcell : (do
      let v ← (.ok v : Outcome ℕ)
      let vs ← natToLimbs v w k
      pure (vs, v) : Outcome (List ℕ × ℕ)) = .ok (limbsOf v w k, v) := by
    show (natToLimbs v w k >>= fun vs => pure (vs, v)) = _
    rw [hlimbs]
    rfl
  unfold BigNat.allocFromNat
  dsimp only
  rw [hcell]
  have hvars : ((List.range k).mapM fun i => (Circuit.var (.ok (((limbsOf v w k).getD i 0 : ℕ) : F)) :
      Circuit F F F)).Succeeds
        (List.Forall₂ (fun i (x : F) => x = (((limbsOf v w k).getD i 0 : ℕ) : F)) (List.range k)) :=
    Circuit.Succeeds.mapM fun i _ => ⟨_, ⟨_, rfl, rfl, rfl⟩, rfl⟩
  refine hvars.bind fun vars hvars => Circuit.succeeds_pure.mpr ⟨?_, rfl⟩
  have hmap := Circuit.map_eq_of_forall₂ (g := id) hvars
  rw [List.map_id] at hmap
  have hself : (List.range k).map (fun i => (limbsOf v w k).getD i 0) = limbsOf v w k :=
    map_getD_range (length_limbsOf v w k)
  have heq : vars = (limbsOf v w k).map fun n : ℕ => (n : F) := by
    rw [hmap, ← hself, List.map_map, hself]
    rfl
  refine ⟨⟨?_, fun _ => rfl⟩, fun _ => ?_, fun n hn => Nat.le_sub_one_of_lt (limbsOf_lt hn)⟩
  · show (vars.map LC.var).map LC.eval = _
    rw [map_eval_var, heq]
  · show some v = _
    rw [show (BigNatParams.new w k).limbWidth = w from rfl, evalList_limbsOf hv]

theorem succeeds_allocChecked {v w k : ℕ} (hw : 1 ≤ w) (hsmall : w ≤ 255) (hv : v < 2 ^ (w * k)) :
    (BigNat.allocChecked (.ok v) w k : Circuit F F _).Succeeds fun a =>
      a.Holds .honest (limbsOf v w k) ∧ a.params = .new w k := by
  refine (succeeds_allocFromNat hv).bind fun a ha => ?_
  obtain ⟨hholds, hparams⟩ := ha
  refine (Circuit.Succeeds.forM fun i _ => ?_).bind fun _ _ => Circuit.succeeds_pure.mpr ⟨hholds, hparams⟩
  have hlt : (limbsOf v w k).getD i 0 < 2 ^ w := by
    rw [List.getD_eq_getElem?_getD]
    cases hget : (limbsOf v w k)[i]? with
    | none => exact Nat.two_pow_pos w
    | some n => exact limbsOf_lt (List.mem_of_getElem? hget)
  rw [hparams]
  exact succeeds_fitsInBits (hholds.limb i) hlt hw hsmall

omit [ToRepr F] [LawfulToRepr F] in
theorem eval_at (x : ℕ) (cs : List (LC F F)) : (Poly.at_ x cs).eval = evalList (x : F) (cs.map LC.eval) := by
  have hsum := sum_zipIdx_pow (x : F) (cs.map LC.eval) 0
  rw [pow_zero, one_mul] at hsum
  rw [Poly.at_, LC.eval_sum, List.map_map, ← hsum, List.zipIdx_map, List.map_map]
  congr 1
  refine List.map_congr_left fun t _ => ?_
  simp

omit [ToRepr F] [LawfulToRepr F] in
/-- A product's coefficients are those of the integers' product, whatever the assignment. -/
theorem ensures_allocProduct [LargeChar F] {a b : Poly F F} {ns ms : List ℕ} (ha : a.Holds .any ns)
    (hb : b.Holds .any ms) (hsmall : ns.length + ms.length < 2 ^ 254) :
    (a.allocProduct b).Ensures fun p => p.Holds .any (Poly.conv ns ms) := by
  unfold Poly.allocProduct
  dsimp only
  rw [ha.length_eq, hb.length_eq]
  refine (Circuit.Ensures.mapM (P := fun _ _ => True) fun i _ => Circuit.ensures_var).bind fun vars hvars => ?_
  have hcount := hvars.length_eq
  rw [List.length_range] at hcount
  refine (Circuit.Ensures.forM fun k _ => Circuit.ensures_require).bind fun _ hpoints => ?_
  refine Circuit.ensures_pure.mpr ⟨?_, fun h => by cases h⟩
  have hvals := map_eval_var vars
  rw [hvals, cast_conv]
  refine eq_of_evalList ?_ (by omega) fun k hk => ?_
  · rw [← hcount, length_conv, List.length_map, List.length_map]
  · have hpoint := hpoints k (List.mem_range.mpr (by omega))
    rw [eval_at, eval_at, eval_at, hvals, ha.coefficients, hb.coefficients] at hpoint
    rw [evalList_conv, hpoint]

omit [ToRepr F] [LawfulToRepr F] in
theorem succeeds_allocProduct {a b : Poly F F} {ns ms : List ℕ} (ha : a.Holds .honest ns) (hb : b.Holds .honest ms) :
    (a.allocProduct b).Succeeds fun p => p.Holds .honest (Poly.conv ns ms) := by
  have hvalues : (a.values.bind fun x => b.values.map fun y => Poly.conv x y) =
      some ((Poly.conv ns ms).map fun n : ℕ => (n : F)) := by
    rw [ha.values rfl, hb.values rfl, cast_conv]
    rfl
  unfold Poly.allocProduct
  dsimp only
  rw [ha.length_eq, hb.length_eq, hvalues]
  have hvars : ((List.range (ns.length + ms.length - 1)).mapM fun i => (Circuit.var (do
      let values ← assigned (some ((Poly.conv ns ms).map fun n : ℕ => (n : F)))
      pure (values.getD i 0)) : Circuit F F F)).Succeeds (List.Forall₂
        (fun i (x : F) => x = ((Poly.conv ns ms).map fun n : ℕ => (n : F)).getD i 0)
        (List.range (ns.length + ms.length - 1))) :=
    Circuit.Succeeds.mapM fun i _ => ⟨_, ⟨_, rfl, rfl, rfl⟩, rfl⟩
  refine hvars.bind fun vars hvars => ?_
  have hmap := Circuit.map_eq_of_forall₂ (g := id) hvars
  rw [List.map_id] at hmap
  have heq : vars = (Poly.conv ns ms).map fun n : ℕ => (n : F) := by
    rw [hmap]
    exact map_getD_range (by rw [List.length_map, length_conv])
  have hvals := map_eval_var vars
  refine (Circuit.Succeeds.forM fun k _ => ?_).bind fun _ _ => Circuit.succeeds_pure.mpr ⟨?_, fun _ => rfl⟩
  · apply Circuit.succeeds_require
    rw [eval_at, eval_at, eval_at, hvals, ha.coefficients, hb.coefficients, heq, cast_conv, evalList_conv]
  · rw [hvals, heq]

/-! ## Sums and groups -/

theorem getD_addLists {R : Type} [CommSemiring R] (xs ys : List R) (k : ℕ) :
    (Poly.addLists xs ys).getD k 0 = xs.getD k 0 + ys.getD k 0 := by
  unfold Poly.addLists
  rcases Nat.lt_or_ge k (max xs.length ys.length) with hk | hk
  · rw [List.getD_eq_getElem?_getD, List.getElem?_map, List.getElem?_range hk]
    rfl
  · rw [List.getD_eq_getElem?_getD, List.getElem?_eq_none (by simpa using hk), List.getD_eq_getElem?_getD (l := xs),
      List.getElem?_eq_none (by omega), List.getD_eq_getElem?_getD (l := ys), List.getElem?_eq_none (by omega)]
    simp

theorem evalList_addLists {R : Type} [CommSemiring R] (x : R) (xs ys : List R) :
    evalList x (Poly.addLists xs ys) = evalList x xs + evalList x ys := by
  rw [← eval_listPoly, ← eval_listPoly, ← eval_listPoly, ← Polynomial.eval_add]
  congr 1
  ext k
  rw [Polynomial.coeff_add, coeff_listPoly, coeff_listPoly, coeff_listPoly, getD_addLists]

omit [ToRepr F] [LawfulToRepr F] in
theorem Poly.Holds.sum {a b : Poly F F} {ns ms : List ℕ} (ha : a.Holds who ns) (hb : b.Holds who ms) :
    (a.sum b).Holds who (Poly.addLists ns ms) := by
  have hcast : (Poly.addLists ns ms).map (fun n : ℕ => (n : F)) =
      Poly.addLists (ns.map fun n : ℕ => (n : F)) (ms.map fun n : ℕ => (n : F)) := by
    unfold Poly.addLists
    rw [List.map_map, List.length_map, List.length_map]
    refine List.map_congr_left fun i _ => ?_
    rw [getD_cast, getD_cast, Function.comp_apply, Nat.cast_add]
  constructor
  · rw [hcast, ← ha.coefficients, ← hb.coefficients]
    show (Poly.addLists a.coefficients b.coefficients).map LC.eval = _
    unfold Poly.addLists
    rw [List.map_map, List.length_map, List.length_map]
    refine List.map_congr_left fun i _ => ?_
    rw [Function.comp_apply, LC.eval_add, eval_getD, eval_getD]
  · intro hw
    rw [hcast]
    show (a.values.bind fun x => b.values.map fun y => Poly.addLists x y) = _
    rw [ha.values hw, hb.values hw]
    rfl

theorem evalList_take_succ {R : Type} [CommSemiring R] (x : R) (xs : List R) (i : ℕ) :
    evalList x (xs.take (i + 1)) = evalList x (xs.take i) + x ^ i * xs.getD i 0 := by
  rcases Nat.lt_or_ge i xs.length with hi | hi
  · rw [List.take_succ_eq_append_getElem hi, evalList_append, List.length_take, Nat.min_eq_left hi.le,
      List.getD_eq_getElem?_getD, List.getElem?_eq_getElem hi]
    simp [evalList]
  · rw [List.take_of_length_le hi, List.take_of_length_le (by omega), List.getD_eq_getElem?_getD,
      List.getElem?_eq_none hi]
    simp

theorem evalList_take_drop {R : Type} [CommSemiring R] (x : R) (xs : List R) (i : ℕ) :
    evalList x xs = evalList x (xs.take i) + x ^ i * evalList x (xs.drop i) := by
  conv_lhs => rw [← List.take_append_drop i xs]
  rw [evalList_append, List.length_take]
  rcases Nat.lt_or_ge i xs.length with hi | hi
  · rw [Nat.min_eq_left hi.le]
  · rw [List.drop_of_length_le hi]
    simp

def groupNats (w g : ℕ) (ns : List ℕ) : List ℕ :=
  (List.range ((ns.length - 1) / g + 1)).map fun j => evalList (2 ^ w) ((ns.drop (g * j)).take g)

theorem evalList_groups {R : Type} [CommSemiring R] (x : R) {g : ℕ} {n : ℕ} {ns : List R} (h : ns.length ≤ g * n) :
    evalList (x ^ g) ((List.range n).map fun j => evalList x ((ns.drop (g * j)).take g)) = evalList x ns := by
  induction n generalizing ns with
  | zero =>
    rw [Nat.mul_zero, Nat.le_zero, List.length_eq_zero_iff] at h
    rw [h]
    rfl
  | succ n ih =>
    rw [Nat.mul_succ] at h
    have hrest : (ns.drop g).length ≤ g * n := by
      rw [List.length_drop]
      omega
    have htail := ih hrest
    simp only [List.drop_drop] at htail
    rw [List.range_succ_eq_map, List.map_cons, List.map_map, evalList_cons, Nat.mul_zero, List.drop_zero]
    have hmap : (List.range n).map ((fun j => evalList x ((ns.drop (g * j)).take g)) ∘ Nat.succ) =
        (List.range n).map fun j => evalList x ((ns.drop (g + g * j)).take g) := by
      refine List.map_congr_left fun j _ => ?_
      rw [Function.comp_apply, Nat.mul_succ, Nat.add_comm]
    rw [hmap, htail, evalList_take_drop x ns g]
    ring

theorem evalList_groupNats {w g : ℕ} (hg : 0 < g) (ns : List ℕ) :
    evalList (2 ^ (w * g)) (groupNats w g ns) = evalList (2 ^ w) ns := by
  rw [groupNats, pow_mul]
  apply evalList_groups
  have := Nat.div_add_mod (ns.length - 1) g
  have hlt := Nat.mod_lt (ns.length - 1) hg
  rw [Nat.mul_succ]
  omega

theorem evalList_le {x M g : ℕ} {ns : List ℕ} (hlen : ns.length ≤ g) (h : ∀ n ∈ ns, n ≤ M) :
    evalList x ns ≤ ((List.range g).map fun i => x ^ i).sum * M := by
  induction ns generalizing g with
  | nil => exact Nat.zero_le _
  | cons n ns ih =>
    rw [List.forall_mem_cons] at h
    rw [List.length_cons] at hlen
    obtain ⟨g, rfl⟩ : ∃ g', g = g' + 1 := ⟨g - 1, by omega⟩
    have htail := ih (g := g) (by omega) h.2
    have hsum : ((List.range (g + 1)).map fun i => x ^ i).sum = 1 + x * ((List.range g).map fun i => x ^ i).sum := by
      rw [List.range_succ_eq_map, List.map_cons, List.map_map, List.sum_cons, pow_zero, ← List.sum_map_mul_left]
      congr 2
      refine List.map_congr_left fun i _ => ?_
      rw [Function.comp_apply, Nat.succ_eq_add_one, pow_succ']
    rw [evalList_cons, hsum, Nat.add_mul, Nat.one_mul]
    calc evalList x ns * x + n ≤ ((List.range g).map fun i => x ^ i).sum * M * x + M :=
          Nat.add_le_add (Nat.mul_le_mul_right x htail) h.1
      _ = M + x * ((List.range g).map fun i => x ^ i).sum * M := by ring

omit [ToRepr F] [LawfulToRepr F] in
theorem BigNat.Holds.groupLimbs {a : BigNat F F} {ns : List ℕ} (h : a.Holds who ns) {g : ℕ} (hg : 0 < g) :
    (a.groupLimbs g).Holds who (groupNats a.params.limbWidth g ns) := by
  have hlen := h.length_eq
  have hcoeffs : a.limbs.map LC.eval = ns.map fun n : ℕ => (n : F) := h.poly.coefficients
  have hslice : ∀ j, ((((ns.map fun n : ℕ => (n : F)).drop (g * j)).take g).zipIdx.map fun t =>
      (2 : F) ^ (a.params.limbWidth * t.2) * t.1).sum =
        ((evalList (2 ^ a.params.limbWidth) ((ns.drop (g * j)).take g) : ℕ) : F) := by
    intro j
    have hsum := sum_zipIdx_pow ((2 : F) ^ a.params.limbWidth) (((ns.map fun n : ℕ => (n : F)).drop (g * j)).take g) 0
    rw [pow_zero, one_mul] at hsum
    simp only [← pow_mul] at hsum
    rw [hsum, cast_evalList, List.map_take, List.map_drop, Nat.cast_pow]
    rfl
  refine ⟨⟨?_, ?_⟩, ?_, ?_⟩
  · show ((List.range ((a.limbs.length - 1) / g + 1)).map fun j => LC.sum (BigNat.group _ g j a.limbs)).map LC.eval = _
    rw [groupNats, List.map_map, List.map_map, hlen]
    refine List.map_congr_left fun j _ => ?_
    rw [Function.comp_apply, Function.comp_apply, ← hslice, LC.eval_sum, BigNat.group, List.map_map, ← hcoeffs,
      ← List.map_drop, ← List.map_take, List.zipIdx_map, List.map_map]
    congr 1
    refine List.map_congr_left fun t _ => ?_
    simp
  · intro hw
    have hvalues : a.limbValues = some (ns.map fun n : ℕ => (n : F)) := h.poly.values hw
    show (a.limbValues.map fun vs => (List.range ((a.limbs.length - 1) / g + 1)).map fun j =>
      (BigNat.group (fun t v => (2 : F) ^ (a.params.limbWidth * t) * v) g j vs).sum) = _
    rw [hvalues, Option.map_some, groupNats, List.map_map, hlen]
    congr 1
    refine List.map_congr_left fun j _ => ?_
    rw [Function.comp_apply, ← hslice]
    rfl
  · intro hw
    show a.value = some (evalList (2 ^ (a.params.limbWidth * g)) _)
    rw [h.value hw, evalList_groupNats hg]
  · intro n hn
    obtain ⟨j, -, rfl⟩ := List.mem_map.mp hn
    show _ ≤ ((List.range g).map fun i => 2 ^ (i * a.params.limbWidth)).sum * a.params.maxWord
    have hpow : ((List.range g).map fun i => 2 ^ (i * a.params.limbWidth)) =
        (List.range g).map fun i => (2 ^ a.params.limbWidth) ^ i := by
      refine List.map_congr_left fun i _ => ?_
      rw [Nat.mul_comm, pow_mul]
    rw [hpow]
    refine evalList_le (by rw [List.length_take]; omega) fun n hn => ?_
    exact h.le n (List.mem_of_mem_drop (List.mem_of_mem_take hn))

theorem BigNat.holds_fromPoly {p : Poly F F} {ns : List ℕ} (h : p.Holds who ns) {w M : ℕ} (hle : ∀ n ∈ ns, n ≤ M)
    (hM : M < 2 ^ 255) : (BigNat.fromPoly p w M).Holds who ns := by
  refine ⟨⟨h.coefficients, h.values⟩, fun hw => ?_, hle⟩
  show (p.values.map fun vs => limbsToNat w (vs.map ToRepr.toNat)) = _
  have hrepr : (ns.map fun n : ℕ => (n : F)).map ToRepr.toNat = ns := by
    rw [List.map_map]
    refine (List.map_congr_left fun n hn => ?_).trans (List.map_id ns)
    exact LawfulToRepr.toNat_natCast (lt_of_le_of_lt (hle n hn) hM)
  rw [h.values hw, Option.map_some, hrepr]
  rfl

end Rules

end ZkCredVega.Nonnative
