import ZkCredVega.Ecc.Point
import ZkCredVega.Circuit.Radix
import Mathlib.GroupTheory.OrderOfElement

/-!
# In-circuit scalar multiplication

`AllocatedPoint::scalar_mul` of `p256_ecc.rs`. The bits from 1 to 253 use additions and
doublings that are not complete, over an accumulator that starts with one copy too many; a
complete addition takes that copy away, and the last two bits use complete additions.
-/

namespace ZkCredVega

open Circuits

local instance ladderLiteral : Nat.AtLeastTwo 3 := atLeastTwo_three

structure AllocatedPointNonInfinity (F V : Type) where
  x : AllocatedNum F V
  y : AllocatedNum F V

section Rules

variable {F V : Type} [Field F] [DecidableEq F] [One V]

namespace AllocatedPointNonInfinity

def fromAllocatedPoint (p : AllocatedPoint F V) : AllocatedPointNonInfinity F V := ⟨p.x, p.y⟩

def toAllocatedPoint (self : AllocatedPointNonInfinity F V) (isInfinity : AllocatedNum F V) : AllocatedPoint F V :=
  ⟨self.x, self.y, isInfinity⟩

/-- Adds two points, assuming that neither is the other or its negative. -/
def addIncomplete (self other : AllocatedPointNonInfinity F V) : Circuit F V (AllocatedPointNonInfinity F V) := do
  let lambda ← allocDefined
    (do
      let ox ← assigned other.x.value
      let sx ← assigned self.x.value
      if ox = sx then pure 1
      else pure (((← assigned other.y.value) - (← assigned self.y.value)) * (← invert (ox - sx))))
    (fun lambda => lambda.lc) (fun _ => other.x.lc - self.x.lc) fun _ => other.y.lc - self.y.lc
  let x ← lineX lambda self.x other.x
  let y ← lineY lambda self.x self.y x
  pure ⟨x, y⟩

/-- Doubles the point, assuming that its `y` is not zero. -/
def doubleIncomplete (a : F) (self : AllocatedPointNonInfinity F V) :
    Circuit F V (AllocatedPointNonInfinity F V) := do
  let xSq ← self.x.square
  let lambda ← allocDefined
    (do
      let n := 3 * (← assigned xSq.value) + a
      let d := 2 * (← assigned self.y.value)
      if d = 0 then pure 1 else pure (n * (← invert d)))
    (fun lambda => lambda.lc) (fun _ => .term 2 self.y.var) fun _ => .term 3 xSq.var + .const a
  let x ← allocDefined
    (do
      let l ← assigned lambda.value
      pure (l * l - (← assigned self.x.value) - (← assigned self.x.value)))
    (fun _ => lambda.lc) (fun _ => lambda.lc) fun x => x.lc + .term 2 self.x.var
  let y ← lineY lambda self.x self.y x
  pure ⟨x, y⟩

def conditionallySelect (a b : AllocatedPointNonInfinity F V) (condition : Boolean V) :
    Circuit F V (AllocatedPointNonInfinity F V) := do
  let x ← ZkCredVega.conditionallySelect a.x b.x condition
  let y ← ZkCredVega.conditionallySelect a.y b.y condition
  pure ⟨x, y⟩

end AllocatedPointNonInfinity

namespace AllocatedPoint

/-- `Scalar::NUM_BITS`. -/
def numBits : ℕ := 256

/-- One bit with incomplete additions: the accumulator and the power of the point. -/
def incompleteBit (a : F) (t : AllocatedPointNonInfinity F V × AllocatedPointNonInfinity F V) (bit : AllocatedBit V) :
    Circuit F V (AllocatedPointNonInfinity F V × AllocatedPointNonInfinity F V) := do
  let temp ← t.1.addIncomplete t.2
  let acc ← AllocatedPointNonInfinity.conditionallySelect temp t.1 (.is bit)
  let p ← t.2.doubleIncomplete a
  pure (acc, p)

/-- One bit with complete additions. -/
def completeBit (a : F) (t : AllocatedPoint F V × AllocatedPoint F V) (bit : AllocatedBit V) :
    Circuit F V (AllocatedPoint F V × AllocatedPoint F V) := do
  let temp ← add a t.1 t.2
  let acc ← conditionallySelect temp t.1 (.is bit)
  let p ← double a t.2
  pure (acc, p)

def firstBit (scalarBits : List (AllocatedBit V)) : Circuit F V (AllocatedBit V) :=
  match scalarBits with
  | [] => .fail .panic
  | bit :: _ => pure bit

/-- The multiple of `self` by the little-endian bits. -/
def scalarMul (a : F) (self : AllocatedPoint F V) (scalarBits : List (AllocatedBit V)) :
    Circuit F V (AllocatedPoint F V) := do
  let splitLen := min scalarBits.length (numBits - 2)
  let initial := AllocatedPointNonInfinity.fromAllocatedPoint self
  let p ← initial.doubleIncomplete a
  let (acc, p) ← ((scalarBits.take splitLen).drop 1).foldlM (incompleteBit a) (initial, p)
  let acc := acc.toAllocatedPoint self.isInfinity
  let neg ← negate self
  let accMinusInitial ← add a acc neg
  let first ← firstBit scalarBits
  let res ← conditionallySelect acc accMinusInitial (.is first)
  let zero ← default
  let x ← ZkCredVega.conditionallySelect2 zero.x res.x self.isInfinity
  let y ← ZkCredVega.conditionallySelect2 zero.y res.y self.isInfinity
  let t ← (scalarBits.drop splitLen).foldlM (completeBit a) (⟨x, y, res.isInfinity⟩, p.toAllocatedPoint self.isInfinity)
  pure t.1

end AllocatedPoint

end Rules

/-! ## Multiples of an element of prime order -/

section Order

variable {G : Type} [AddCommGroup G] {g : G} {n j k : ℕ}

theorem mod_nsmul (hng : n • g = 0) : (k % n) • g = k • g := by
  have hsplit : k • g = (k % n + n * (k / n)) • g := by rw [Nat.mod_add_div]
  rw [hsplit, add_nsmul, mul_nsmul, hng, nsmul_zero, add_zero]

theorem nsmul_eq_zero_iff (hn : n.Prime) (hg : g ≠ 0) (hng : n • g = 0) : k • g = 0 ↔ n ∣ k := by
  have : Fact n.Prime := ⟨hn⟩
  rw [← addOrderOf_dvd_iff_nsmul_eq_zero, addOrderOf_eq_prime hng hg]

theorem nsmul_ne_zero_of_lt (hn : n.Prime) (hg : g ≠ 0) (hng : n • g = 0) (hk : 0 < k) (hkn : k < n) :
    k • g ≠ 0 := by
  rw [Ne, nsmul_eq_zero_iff hn hg hng]
  exact Nat.not_dvd_of_pos_of_lt hk hkn

theorem nsmul_ne_nsmul (hn : n.Prime) (hg : g ≠ 0) (hng : n • g = 0) (hjk : j < k) (hkn : k < n) :
    j • g ≠ k • g := by
  intro h
  have hsum : k • g = j • g + (k - j) • g := by rw [← add_nsmul, Nat.add_sub_cancel' hjk.le]
  rw [hsum] at h
  exact nsmul_ne_zero_of_lt hn hg hng (by omega) (by omega) (left_eq_add.mp h)

theorem nsmul_ne_neg_nsmul (hn : n.Prime) (hg : g ≠ 0) (hng : n • g = 0) (hjk : 0 < j + k) (hjkn : j + k < n) :
    j • g ≠ -(k • g) := by
  rw [Ne, ← add_eq_zero_iff_eq_neg, ← add_nsmul]
  exact nsmul_ne_zero_of_lt hn hg hng hjk hjkn

theorem nsmul_add_self (hn : n.Prime) (hodd : n ≠ 2) (hg : g ≠ 0) (hng : n • g = 0) (h : k • g + k • g = 0) :
    k • g = 0 := by
  rw [← add_nsmul, nsmul_eq_zero_iff hn hg hng, ← two_mul] at h
  rw [nsmul_eq_zero_iff hn hg hng]
  rcases (Nat.Prime.dvd_mul hn).mp h with h2 | hk
  · exact absurd ((Nat.prime_dvd_prime_iff_eq hn Nat.prime_two).mp h2) hodd
  · exact hk

end Order

/-! ## What the gadgets compute -/

section Values

open WeierstrassCurve.Affine

variable {F : Type} [Field F] [DecidableEq F] {who : Circuit.Prover} {a b : F}

omit [DecidableEq F] in
theorem yields_square {n : AllocatedNum F F} {v : F} (hn : n.Holds who v) :
    n.square.Yields who (·.Holds who (v * v)) := by
  refine AllocatedNum.yields_allocEqual ?_ ?_
  · rw [AllocatedNum.eval_lc, hn.val_eq]
  · rintro rfl
    rw [assigned_eq hn]
    rfl

namespace AllocatedPoint

variable {p q : AllocatedPoint F F} {P Q : (weierstrass a b).Point}

omit [DecidableEq F] in
/-- The coordinates and the flag of a point, whose holders are worth it. -/
theorem Holds.exists_holdsAt (h : p.Holds who P) :
    ∃ x y f, p.HoldsAt who x y f ∧ ∀ q : AllocatedPoint F F, q.HoldsAt who x y f → q.Holds who P := by
  cases P with
  | zero =>
    obtain ⟨x, y, h⟩ := h
    exact ⟨x, y, true, h, fun q hq => ⟨x, y, hq⟩⟩
  | some x y _ => exact ⟨x, y, false, h, fun q hq => hq⟩

omit [DecidableEq F] in
theorem yields_select {condition : Boolean F} {c : Bool} (hp : p.Holds who P) (hq : q.Holds who Q)
    (hc : condition.Holds who c) :
    (conditionallySelect p q condition).Yields who (·.Holds who (if c then P else Q)) := by
  obtain ⟨x₁, y₁, f, hp, hholdsP⟩ := hp.exists_holdsAt
  obtain ⟨x₂, y₂, g, hq, hholdsQ⟩ := hq.exists_holdsAt
  refine (yields_conditionallySelect hp hq hc).mono fun r hr => ?_
  cases c with
  | true => exact hholdsP r hr
  | false => exact hholdsQ r hr

/-- A point that is not its own negative, or infinity, can be doubled. -/
theorem doubles_of (h : P + P = 0 → P = 0) : Doubles P := by
  rintro x y hns rfl hy
  have hneg : y = (weierstrass a b).negY x y := by
    rw [negY_eq]
    linear_combination hy
  exact absurd (h (Point.add_self_of_Y_eq hneg)) (Point.some_ne_zero hns)

theorem yields_doubleOf (hp : p.Holds who P) (hP : Doubles P) : (double a p).Yields who (·.Holds who (P + P)) := by
  cases P with
  | zero =>
    obtain ⟨x, y, hp⟩ := hp
    rw [show (Point.zero : (weierstrass a b).Point) + Point.zero = Point.zero from zero_add _]
    exact (yields_double hp fun h => by cases h).mono fun r hr => ⟨0, 0, hr⟩
  | some x y hns =>
    have hy := hP x y hns rfl
    have hne : y ≠ (weierstrass a b).negY x y := by
      rw [negY_eq]
      exact fun heq => hy (by linear_combination heq)
    rw [Point.add_of_Y_ne hne]
    have hdouble : (double a p).Yields who (·.HoldsAt who (onLineX (tangent a x y false) x x)
        (onLineY (tangent a x y false) x y (onLineX (tangent a x y false) x x)) false) :=
      yields_double hp fun _ => hy
    refine hdouble.mono fun r hr => ?_
    show r.HoldsAt who ((weierstrass a b).addX x x _) ((weierstrass a b).addY x x y _) false
    rw [addX_eq, addY_eq, slope_eq_tangent hne]
    exact hr

omit [DecidableEq F] in
theorem yields_negate (hp : p.Holds who P) : (negate p).Yields who (·.Holds who (-P)) := by
  have hneg : ∀ {x y : F} {f : Bool}, p.HoldsAt who x y f → (negate p).Yields who (·.HoldsAt who x (-y) f) := by
    intro x y f hp
    refine Circuit.Yields.bind (P := fun n : AllocatedNum F F => n.Holds who (-y)) ?_ fun n hn =>
      Circuit.yields_pure ⟨hp.x, hn, hp.isInfinity⟩
    apply yields_allocDefined
    · intro n
      simp only [LC.eval_neg, LC.eval_const, AllocatedNum.eval_lc, hp.y.val_eq, mul_one]
      exact ⟨fun h => by linear_combination h, fun h => by linear_combination h⟩
    · rintro rfl
      rw [assigned_eq hp.y]
      rfl
  cases P with
  | zero =>
    obtain ⟨x, y, hp⟩ := hp
    exact (hneg hp).mono fun r hr => ⟨x, -y, hr⟩
  | some x y hns =>
    refine (hneg hp).mono fun r hr => ?_
    show r.HoldsAt who x ((weierstrass a b).negY x y) false
    rw [negY_eq]
    exact hr

end AllocatedPoint

namespace AllocatedPointNonInfinity

variable {p q : AllocatedPointNonInfinity F F} {P Q : (weierstrass a b).Point}

/-- The point is worth a finite point of the curve. -/
def Holds (who : Circuit.Prover) (p : AllocatedPointNonInfinity F F) : (weierstrass a b).Point → Prop
  | .zero => False
  | .some x y _ => p.x.Holds who x ∧ p.y.Holds who y

/-- The sum of two finite points that are neither equal nor opposite. -/
theorem yields_addIncomplete (hp : p.Holds who P) (hq : q.Holds who Q) (hne : P ≠ Q) (hneg : P ≠ -Q) :
    (addIncomplete p q).Yields who (·.Holds who (P + Q)) := by
  cases P with
  | zero => exact hp.elim
  | some x₁ y₁ h₁ =>
    cases Q with
    | zero => exact hq.elim
    | some x₂ y₂ h₂ =>
      obtain ⟨hpx, hpy⟩ := hp
      obtain ⟨hqx, hqy⟩ := hq
      have hx : x₁ ≠ x₂ := by
        rintro rfl
        rcases Y_eq_of_X_eq h₁.1 h₂.1 rfl with hy | hy
        · subst hy
          exact hne rfl
        · subst hy
          exact hneg rfl
      have hdiff : x₂ - x₁ ≠ 0 := sub_ne_zero.mpr fun h => hx h.symm
      rw [Point.add_of_X_ne hx]
      refine Circuit.Yields.bind (P := fun n : AllocatedNum F F => n.Holds who ((y₂ - y₁) / (x₂ - x₁))) ?_
        fun lambda hl => ?_
      · apply yields_allocDefined
        · intro n
          simp only [LC.eval_sub, AllocatedNum.eval_lc, hpx.val_eq, hpy.val_eq, hqx.val_eq, hqy.val_eq]
          rw [eq_div_iff hdiff]
        · rintro rfl
          rw [assigned_eq hpx, assigned_eq hpy, assigned_eq hqx, assigned_eq hqy]
          show (if x₂ = x₁ then pure 1 else invert (x₂ - x₁) >>= fun inv => pure ((y₂ - y₁) * inv) : Outcome F) = _
          rw [if_neg fun h => hx h.symm, invert, if_neg hdiff, div_eq_mul_inv]
          rfl
      refine (yields_lineX hl hpx hqx).bind fun x hx' => ?_
      refine (yields_lineY hl hpx hpy hx').bind fun y hy' => Circuit.yields_pure ?_
      have hchord : (y₂ - y₁) / (x₂ - x₁) = AllocatedPoint.chord x₁ y₁ x₂ y₂ false false := by
        simp [AllocatedPoint.chord, hx]
      show _ ∧ _
      rw [AllocatedPoint.addX_eq, AllocatedPoint.addY_eq, AllocatedPoint.slope_eq_chord hx, ← hchord]
      exact ⟨hx', hy'⟩

/-- The double of a finite point that is not its own negative. -/
theorem yields_doubleIncomplete (hp : p.Holds who P) (hP : P + P ≠ 0) :
    (doubleIncomplete a p).Yields who (·.Holds who (P + P)) := by
  cases P with
  | zero => exact hp.elim
  | some x y hns =>
    obtain ⟨hpx, hpy⟩ := hp
    have hne : y ≠ (weierstrass a b).negY x y := fun h => hP (Point.add_self_of_Y_eq h)
    have hy : y + y ≠ 0 := by
      rw [AllocatedPoint.negY_eq] at hne
      exact fun h => hne (by linear_combination h)
    have hdiv : 2 * y ≠ 0 := by rwa [two_mul]
    rw [Point.add_of_Y_ne hne]
    refine (yields_square hpx).bind fun xSq hxSq => ?_
    refine Circuit.Yields.bind (P := fun n : AllocatedNum F F => n.Holds who ((3 * (x * x) + a) / (2 * y))) ?_
      fun lambda hl => ?_
    · apply yields_allocDefined
      · intro n
        simp only [LC.eval_add, LC.eval_term, LC.eval_const, AllocatedNum.eval_lc, hpy.val_eq, hxSq.val_eq]
        rw [eq_div_iff hdiv]
      · rintro rfl
        rw [assigned_eq hpy, assigned_eq hxSq]
        show (if 2 * y = 0 then pure 1 else invert (2 * y) >>= fun inv => pure ((3 * (x * x) + a) * inv) :
          Outcome F) = _
        rw [if_neg hdiv, invert, if_neg hdiv, div_eq_mul_inv]
        rfl
    refine Circuit.Yields.bind
      (P := fun n : AllocatedNum F F => n.Holds who (onLineX ((3 * (x * x) + a) / (2 * y)) x x)) ?_ fun x' hx' => ?_
    · apply yields_allocDefined
      · intro n
        simp only [LC.eval_add, LC.eval_term, AllocatedNum.eval_lc, hl.val_eq, hpx.val_eq, onLineX]
        exact ⟨fun h => by linear_combination -h, fun h => by linear_combination -h⟩
      · rintro rfl
        rw [assigned_eq hl, assigned_eq hpx]
        rfl
    refine (yields_lineY hl hpx hpy hx').bind fun y' hy' => Circuit.yields_pure ?_
    have htangent : (3 * (x * x) + a) / (2 * y) = AllocatedPoint.tangent a x y false := by
      simp only [AllocatedPoint.tangent, Bool.false_eq_true, if_false]
      congr 1
      all_goals ring
    show _ ∧ _
    rw [AllocatedPoint.addX_eq, AllocatedPoint.addY_eq, AllocatedPoint.slope_eq_tangent hne, ← htangent]
    exact ⟨hx', hy'⟩

omit [DecidableEq F] in
theorem yields_conditionallySelect {condition : Boolean F} {c : Bool} (hp : p.Holds who P) (hq : q.Holds who Q)
    (hc : condition.Holds who c) :
    (conditionallySelect p q condition).Yields who (·.Holds who (if c then P else Q)) := by
  cases P with
  | zero => exact hp.elim
  | some x₁ y₁ h₁ =>
    cases Q with
    | zero => exact hq.elim
    | some x₂ y₂ h₂ =>
      refine (ZkCredVega.yields_conditionallySelect hp.1 hq.1 hc).bind fun x hx => ?_
      refine (ZkCredVega.yields_conditionallySelect hp.2 hq.2 hc).bind fun y hy => Circuit.yields_pure ?_
      cases c <;> exact ⟨hx, hy⟩

end AllocatedPointNonInfinity

namespace AllocatedPoint

abbrev HoldBits (who : Circuit.Prover) (bits : List (AllocatedBit F)) (xs : List Bool) : Prop :=
  List.Forall₂ (fun c x => (Boolean.is c).Holds who x) bits xs

theorem leBits_take_succ {xs : List Bool} {j : ℕ} (hj : j < xs.length) :
    leBits (xs.take (j + 1)) = leBits (xs.take j) + 2 ^ j * xs[j].toNat := by
  rw [List.take_succ_eq_append_getElem hj, leBits_append, List.length_take, Nat.min_eq_left hj.le, leBits_cons]
  simp

theorem leBits_take_lt {xs : List Bool} {j : ℕ} (hj : j ≤ xs.length) : leBits (xs.take j) < 2 ^ j := by
  have h := leBits_lt (xs.take j)
  rwa [List.length_take, Nat.min_eq_left hj] at h

variable {P : (weierstrass a b).Point} {n : ℕ}

/-- The accumulator before bit `j + 1`, with its copy too many, and the power of the point. -/
def IncompleteInv (who : Circuit.Prover) (P : (weierstrass a b).Point) (xs : List Bool) (j : ℕ)
    (t : AllocatedPointNonInfinity F F × AllocatedPointNonInfinity F F) : Prop :=
  t.1.Holds who ((1 + 2 * leBits (xs.take j)) • P) ∧ t.2.Holds who (2 ^ (j + 1) • P)

theorem yields_incompleteBit (hn : n.Prime) (hbig : 2 ^ 255 ≤ n) (hP : P ≠ 0) (hnP : n • P = 0) {xs : List Bool}
    {j : ℕ} (hj : j < xs.length) (hlen : xs.length ≤ 253)
    {t : AllocatedPointNonInfinity F F × AllocatedPointNonInfinity F F} (ht : IncompleteInv who P xs j t)
    {bit : AllocatedBit F} (hbit : (Boolean.is bit).Holds who xs[j]) :
    (incompleteBit a t bit).Yields who (IncompleteInv who P xs (j + 1)) := by
  have hlt := leBits_take_lt hj.le
  have hpow : 2 ^ (j + 1) = 2 * 2 ^ j := by rw [pow_succ, Nat.mul_comm]
  have hsmall : 2 ^ j ≤ 2 ^ 252 := Nat.pow_le_pow_right (by decide) (by omega)
  obtain ⟨hacc, hp⟩ := ht
  have hne := nsmul_ne_nsmul (j := 1 + 2 * leBits (xs.take j)) (k := 2 ^ (j + 1)) hn hP hnP (by omega) (by omega)
  have hneg := nsmul_ne_neg_nsmul (j := 1 + 2 * leBits (xs.take j)) (k := 2 ^ (j + 1)) hn hP hnP (by omega)
    (by omega)
  refine (AllocatedPointNonInfinity.yields_addIncomplete hacc hp hne hneg).bind fun temp htemp => ?_
  refine (AllocatedPointNonInfinity.yields_conditionallySelect htemp hacc hbit).bind fun acc hacc' => ?_
  have hdouble : 2 ^ (j + 1) • P + 2 ^ (j + 1) • P = 2 ^ (j + 1 + 1) • P := by
    rw [← add_nsmul, pow_succ 2 (j + 1), Nat.mul_two]
  have hnonzero : 2 ^ (j + 1) • P + 2 ^ (j + 1) • P ≠ 0 := by
    rw [← add_nsmul]
    exact nsmul_ne_zero_of_lt hn hP hnP (by omega) (by omega)
  refine (AllocatedPointNonInfinity.yields_doubleIncomplete hp hnonzero).bind fun p hp' => Circuit.yields_pure ⟨?_, ?_⟩
  · have hsum : (if xs[j] then (1 + 2 * leBits (xs.take j)) • P + 2 ^ (j + 1) • P
        else (1 + 2 * leBits (xs.take j)) • P) = (1 + 2 * leBits (xs.take (j + 1))) • P := by
      rw [leBits_take_succ hj, ← add_nsmul]
      cases xs[j]
      · simp
      · simp only [if_true, Bool.toNat_true, Nat.mul_one]
        congr 1
        omega
    rw [← hsum]
    exact hacc'
  · rw [← hdouble]
    exact hp'

/-- The accumulator before bit `254 + j` and the power of the point. -/
def CompleteInv (who : Circuit.Prover) (P : (weierstrass a b).Point) (xs : List Bool) (i j : ℕ)
    (t : AllocatedPoint F F × AllocatedPoint F F) : Prop :=
  t.1.Holds who (leBits (xs.take (i + j)) • P) ∧ t.2.Holds who (2 ^ (i + j) • P)

theorem yields_completeBit (hn : n.Prime) (hodd : n ≠ 2) (hP : P ≠ 0) (hnP : n • P = 0) {xs : List Bool}
    {i j : ℕ} (hj : i + j < xs.length) {t : AllocatedPoint F F × AllocatedPoint F F}
    (ht : CompleteInv who P xs i j t) {bit : AllocatedBit F} (hbit : (Boolean.is bit).Holds who xs[i + j]) :
    (completeBit a t bit).Yields who (CompleteInv who P xs i (j + 1)) := by
  obtain ⟨hacc, hp⟩ := ht
  refine (yields_add hacc hp (doubles_of fun h => nsmul_add_self hn hodd hP hnP h)).bind fun temp htemp => ?_
  refine (yields_select htemp hacc hbit).bind fun acc hacc' => ?_
  refine (yields_doubleOf hp (doubles_of fun h => nsmul_add_self hn hodd hP hnP h)).bind fun p hp' => ?_
  refine Circuit.yields_pure ⟨?_, ?_⟩
  · have hsum : (if xs[i + j] then leBits (xs.take (i + j)) • P + 2 ^ (i + j) • P
        else leBits (xs.take (i + j)) • P) = leBits (xs.take (i + (j + 1))) • P := by
      rw [← Nat.add_assoc, leBits_take_succ hj, ← add_nsmul]
      cases xs[i + j] <;> simp
    rw [← hsum]
    exact hacc'
  · rw [← Nat.add_assoc, pow_succ, Nat.mul_two, add_nsmul]
    exact hp'

omit [DecidableEq F] in
theorem holds_toAllocatedPoint {q : AllocatedPointNonInfinity F F} {Q : (weierstrass a b).Point}
    {flag : AllocatedNum F F} (hq : q.Holds who Q) (hflag : flag.Holds who (ofBool false)) :
    (q.toAllocatedPoint flag).Holds who Q := by
  cases Q with
  | zero => exact hq.elim
  | some x y _ => exact ⟨hq.1, hq.2, hflag⟩

omit [DecidableEq F] in
theorem yields_default : (default : Circuit F F _).Yields who (·.HoldsAt who 0 0 true) := by
  refine yields_allocZero.bind fun zero hzero => ?_
  exact (yields_allocConstant 1).bind fun one hone => Circuit.yields_pure ⟨hzero, hzero, hone⟩

omit [Field F] [DecidableEq F] in
theorem HoldBits.getElem {bits : List (AllocatedBit F)} {xs : List Bool} [Field F] (h : HoldBits who bits xs)
    {i : ℕ} (hi : i < bits.length) (hi' : i < xs.length) : (Boolean.is bits[i]).Holds who xs[i] :=
  (List.forall₂_iff_get.mp h).2 i hi hi'

theorem yields_incompleteBits (hn : n.Prime) (hbig : 2 ^ 255 ≤ n) (hP : P ≠ 0) (hnP : n • P = 0)
    {bits : List (AllocatedBit F)} {xs : List Bool} (hlen : xs.length ≤ 253) (hbits : HoldBits who bits xs)
    {initial p : AllocatedPointNonInfinity F F} (hinitial : initial.Holds who P) (hp : p.Holds who (P + P)) :
    (bits.foldlM (incompleteBit a) (initial, p)).Yields who (IncompleteInv who P xs xs.length) := by
  have hlength := hbits.length_eq
  rw [← hlength]
  refine Circuit.Yields.foldlM (IncompleteInv who P xs) ⟨?_, ?_⟩ ?_
  · rw [List.take_zero, leBits_nil, Nat.mul_zero, Nat.add_zero, one_nsmul]
    exact hinitial
  · rw [Nat.zero_add, pow_one, two_nsmul]
    exact hp
  · intro j hj t ht
    exact yields_incompleteBit hn hbig hP hnP (by omega) hlen ht (HoldBits.getElem hbits hj (by omega))

theorem yields_completeBits (hn : n.Prime) (hodd : n ≠ 2) (hP : P ≠ 0) (hnP : n • P = 0)
    {bits : List (AllocatedBit F)} {xs : List Bool} (hbits : HoldBits who bits xs) {i : ℕ} (hi : i ≤ xs.length)
    {acc power : AllocatedPoint F F} (hacc : acc.Holds who (leBits (xs.take i) • P))
    (hpower : power.Holds who (2 ^ i • P)) :
    ((bits.drop i).foldlM (completeBit a) (acc, power)).Yields who fun t => t.1.Holds who (leBits xs • P) := by
  have hlength := hbits.length_eq
  have hloop : ((bits.drop i).foldlM (completeBit a) (acc, power)).Yields who
      (CompleteInv who P xs i (bits.drop i).length) := by
    refine Circuit.Yields.foldlM (CompleteInv who P xs i) ⟨?_, ?_⟩ fun j hj t ht => ?_
    · rw [Nat.add_zero]
      exact hacc
    · rw [Nat.add_zero]
      exact hpower
    · rw [List.length_drop] at hj
      have hbit := HoldBits.getElem hbits (i := i + j) (by omega) (by omega)
      rw [← List.getElem_drop (h := by rw [List.length_drop]; omega)] at hbit
      exact yields_completeBit hn hodd hP hnP (by omega) ht hbit
  refine hloop.mono fun t ht => ?_
  have hall := ht.1
  rw [List.take_of_length_le (by rw [List.length_drop]; omega)] at hall
  exact hall

/-- The multiple of a finite point of large prime order by 256 bits. -/
theorem yields_scalarMul (hn : n.Prime) (hbig : 2 ^ 255 ≤ n) (hP : P ≠ 0) (hnP : n • P = 0)
    {p : AllocatedPoint F F} (hp : p.Holds who P) {bits : List (AllocatedBit F)} {xs : List Bool}
    (hlen : xs.length = 256) (hbits : HoldBits who bits xs) :
    (scalarMul a p bits).Yields who (·.Holds who (leBits xs • P)) := by
  have hodd : n ≠ 2 := by
    rintro rfl
    exact absurd hbig (by decide)
  have hdoubles : ∀ k : ℕ, Doubles (k • P) := fun k => doubles_of fun h => nsmul_add_self hn hodd hP hnP h
  have hbitsLen : bits.length = 256 := hbits.length_eq.trans hlen
  have hsplit : min bits.length (numBits - 2) = 254 := by
    rw [hbitsLen]
    rfl
  obtain ⟨hinitial, hflag⟩ : (AllocatedPointNonInfinity.fromAllocatedPoint p).Holds who P ∧
      p.isInfinity.Holds who (ofBool false) := by
    cases P with
    | zero => exact absurd rfl hP
    | some x y _ => exact ⟨⟨hp.x, hp.y⟩, hp.isInfinity⟩
  have hPP : P + P ≠ 0 := by
    rw [← two_nsmul]
    exact nsmul_ne_zero_of_lt hn hP hnP (by decide) (lt_of_lt_of_le (by decide) hbig)
  unfold scalarMul
  simp only [hsplit]
  refine (AllocatedPointNonInfinity.yields_doubleIncomplete hinitial hPP).bind fun doubled hdoubled => ?_
  -- bits 1 to 253
  have hmids : HoldBits who ((bits.take 254).drop 1) ((xs.take 254).drop 1) :=
    List.forall₂_drop 1 (List.forall₂_take 254 hbits)
  have hmidsLen : ((xs.take 254).drop 1).length = 253 := by
    rw [List.length_drop, List.length_take, hlen]
    rfl
  have hloop := yields_incompleteBits hn hbig hP hnP hmidsLen.le hmids hinitial hdoubled
  refine hloop.bind fun t ht => ?_
  obtain ⟨acc, power⟩ := t
  obtain ⟨hacc, hpower⟩ := ht
  rw [List.take_length] at hacc
  rw [hmidsLen] at hpower
  simp only
  have haccAt := holds_toAllocatedPoint hacc hflag
  -- the copy too many
  refine (yields_negate hp).bind fun neg hneg => ?_
  refine (yields_add haccAt hneg (hdoubles _)).bind fun minus hminus => ?_
  obtain ⟨first, rest, rfl⟩ : ∃ first rest, bits = first :: rest := List.exists_cons_of_length_eq_add_one hbitsLen
  obtain ⟨x₀, ys, rfl⟩ : ∃ x₀ ys, xs = x₀ :: ys := List.exists_cons_of_length_eq_add_one hlen
  rw [firstBit, pure_bind]
  have hfirst : (Boolean.is first).Holds who x₀ := (List.forall₂_cons.mp hbits).1
  refine (yields_select haccAt hminus hfirst).bind fun res hres => ?_
  have hvalue : (if x₀ then (1 + 2 * leBits (((x₀ :: ys).take 254).drop 1)) • P
      else (1 + 2 * leBits (((x₀ :: ys).take 254).drop 1)) • P + -P) = leBits ((x₀ :: ys).take 254) • P := by
    rw [List.take_succ_cons, List.drop_succ_cons, List.drop_zero, leBits_cons]
    cases x₀ with
    | true => rw [if_pos rfl, Bool.toNat_true]
    | false =>
      rw [if_neg (by decide), add_nsmul, one_nsmul, Bool.toNat_false, Nat.zero_add, add_neg_cancel_comm]
  rw [hvalue] at hres
  refine yields_default.bind fun zero hzero => ?_
  obtain ⟨x, y, f, hresAt, hholds⟩ := hres.exists_holdsAt
  refine (ZkCredVega.yields_conditionallySelect2 hzero.x hresAt.x hflag).bind fun x' hx' => ?_
  refine (ZkCredVega.yields_conditionallySelect2 hzero.y hresAt.y hflag).bind fun y' hy' => ?_
  -- bits 254 and 255
  simp only [Bool.false_eq_true, if_false] at hx' hy'
  have hresult := hholds ⟨x', y', res.isInfinity⟩ ⟨hx', hy', hresAt.isInfinity⟩
  -- the exponent under a name, so that nothing computes the power
  obtain ⟨i, hi⟩ : ∃ i, 254 = i := ⟨_, rfl⟩
  have hexp : 253 + 1 = i := hi
  rw [hexp] at hpower
  rw [hi] at hresult ⊢
  have hpowerAt := holds_toAllocatedPoint hpower hflag
  have hcomplete := yields_completeBits hn hodd hP hnP hbits (by omega) hresult hpowerAt
  exact hcomplete.bind fun t ht => Circuit.yields_pure ht

end AllocatedPoint

end Values

end ZkCredVega
