import ZkCredVega.Ecc.GadgetUtils
import ZkCredVega.P256
import Mathlib.AlgebraicGeometry.EllipticCurve.Affine.Point

/-!
# In-circuit points

`AllocatedPoint` of `p256_ecc.rs`: a point of the curve `y² = x³ + a x + b` as two coordinates
and a flag for infinity, its addition and its doubling. The coordinates under a set flag are
arbitrary. Mathlib's group of nonsingular points is what the gadgets are measured against.
-/

namespace ZkCredVega

open Circuits

local instance tangentLiteral : Nat.AtLeastTwo 3 := atLeastTwo_three

structure AllocatedPoint (F V : Type) where
  x : AllocatedNum F V
  y : AllocatedNum F V
  isInfinity : AllocatedNum F V

section Rules

variable {F V : Type} [Field F] [DecidableEq F] [One V]

/-- The third point's `x` on the line of slope `lambda`: `lambda² = x + x₁ + x₂`. -/
def lineX (lambda x₁ x₂ : AllocatedNum F V) : Circuit F V (AllocatedNum F V) :=
  allocDefined (do
      let l ← assigned lambda.value
      pure (l * l - (← assigned x₁.value) - (← assigned x₂.value)))
    (fun _ => lambda.lc) (fun _ => lambda.lc) fun x => x.lc + x₁.lc + x₂.lc

/-- Its `y`, mirrored: `lambda * (x₁ - x) = y + y₁`. -/
def lineY (lambda x₁ y₁ x : AllocatedNum F V) : Circuit F V (AllocatedNum F V) :=
  allocDefined (do
      let l ← assigned lambda.value
      pure (l * ((← assigned x₁.value) - (← assigned x.value)) - (← assigned y₁.value)))
    (fun _ => lambda.lc) (fun _ => x₁.lc - x.lc) fun y => y.lc + y₁.lc

namespace AllocatedPoint

/-- The identity: the coordinates are one zero, and the flag is set. -/
def default : Circuit F V (AllocatedPoint F V) := do
  let zero ← allocZero
  let one ← allocConstant 1
  pure ⟨zero, zero, one⟩

def negate (self : AllocatedPoint F V) : Circuit F V (AllocatedPoint F V) := do
  let y ← allocDefined (do pure (-(← assigned self.y.value))) (fun _ => self.y.lc) (fun _ => .const 1)
    fun y => -y.lc
  pure ⟨self.x, y, self.isInfinity⟩

/-- `a` when the condition holds, and otherwise `b`. -/
def conditionallySelect (a b : AllocatedPoint F V) (condition : Boolean V) : Circuit F V (AllocatedPoint F V) := do
  let x ← ZkCredVega.conditionallySelect a.x b.x condition
  let y ← ZkCredVega.conditionallySelect a.y b.y condition
  let isInfinity ← ZkCredVega.conditionallySelect a.isInfinity b.isInfinity condition
  pure ⟨x, y, isInfinity⟩

def conditionallySelect2 (a b : AllocatedPoint F V) (condition : AllocatedNum F V) :
    Circuit F V (AllocatedPoint F V) := do
  let x ← ZkCredVega.conditionallySelect2 a.x b.x condition
  let y ← ZkCredVega.conditionallySelect2 a.y b.y condition
  let isInfinity ← ZkCredVega.conditionallySelect2 a.isInfinity b.isInfinity condition
  pure ⟨x, y, isInfinity⟩

/-- `a` when the condition holds, and otherwise infinity. -/
def selectPointOrInfinity (a : AllocatedPoint F V) (condition : Boolean V) : Circuit F V (AllocatedPoint F V) := do
  let x ← selectNumOrZero a.x condition
  let y ← selectNumOrZero a.y condition
  let isInfinity ← selectNumOrOne a.isInfinity condition
  pure ⟨x, y, isInfinity⟩

/-- Adds `other` to `self`, and returns whether at least one of them is infinity. -/
def addInternal (self other : AllocatedPoint F V) (equalX : AllocatedBit V) :
    Circuit F V (AllocatedPoint F V × AllocatedNum F V) := do
  let atLeastOneInf ← allocDefined
    (do pure (1 - (1 - (← assigned self.isInfinity.value)) * (1 - (← assigned other.isInfinity.value))))
    (fun _ => .const 1 - self.isInfinity.lc) (fun _ => .const 1 - other.isInfinity.lc) fun n => .const 1 - n.lc
  let xDiffIsActual ← allocDefined (do if ← assigned equalX.value then pure 1 else assigned atLeastOneInf.value)
    (fun _ => .const 1 - atLeastOneInf.lc) (fun _ => .const 1 - .var equalX.var) fun n => .const 1 - n.lc
  let xDiff ← selectOneOrDiff2 other.x self.x xDiffIsActual
  let lambda ← allocDefined
    (do
      let xDiffInv ← if (← assigned xDiffIsActual.value) = 1 then pure 1
        else invert ((← assigned other.x.value) - (← assigned self.x.value))
      pure (((← assigned other.y.value) - (← assigned self.y.value)) * xDiffInv))
    (fun lambda => lambda.lc) (fun _ => xDiff.lc) fun _ => other.y.lc - self.y.lc
  let x ← lineX lambda self.x other.x
  let y ← lineY lambda self.x self.y x
  let x1 ← ZkCredVega.conditionallySelect2 self.x x other.isInfinity
  let x ← ZkCredVega.conditionallySelect2 other.x x1 self.isInfinity
  let y1 ← ZkCredVega.conditionallySelect2 self.y y other.isInfinity
  let y ← ZkCredVega.conditionallySelect2 other.y y1 self.isInfinity
  let isInfinity1 ← selectNumOrZero2 self.isInfinity other.isInfinity
  let isInfinity ← ZkCredVega.conditionallySelect2 other.isInfinity isInfinity1 self.isInfinity
  pure (⟨x, y, isInfinity⟩, atLeastOneInf)

/-- Doubles the point on the curve whose coefficient of `x` is `a`. -/
def double (a : F) (self : AllocatedPoint F V) : Circuit F V (AllocatedPoint F V) := do
  let tmpActual ← allocDefined (do pure ((← assigned self.y.value) + (← assigned self.y.value)))
    (fun _ => .const 1 + .const 1) (fun _ => self.y.lc) fun n => n.lc
  let tmp ← selectOneOrNum2 tmpActual self.isInfinity
  let prod1 ← allocDefined (do pure (3 * (← assigned self.x.value) * (← assigned self.x.value)))
    (fun _ => .term 3 self.x.var) (fun _ => self.x.lc) fun n => n.lc
  let lambda ← allocDefined
    (do
      let tmpInv ← if (← assigned self.isInfinity.value) = 1 then pure 1 else invert (← assigned tmp.value)
      pure (tmpInv * ((← assigned prod1.value) + a)))
    (fun _ => tmp.lc) (fun lambda => lambda.lc) fun _ => prod1.lc + .const a
  let x ← lineX lambda self.x self.x
  let y ← lineY lambda self.x self.y x
  let x ← selectZeroOrNum2 x self.isInfinity
  let y ← selectZeroOrNum2 y self.isInfinity
  pure ⟨x, y, self.isInfinity⟩

/-- Adds two points, which may be equal. -/
def add (a : F) (self other : AllocatedPoint F V) : Circuit F V (AllocatedPoint F V) := do
  let equalX ← allocNumEquals self.x other.x
  let equalY ← allocNumEquals self.y other.y
  let (resultFromAdd, atLeastOneInf) ← addInternal self other equalX
  let resultFromDouble ← double a self
  let resultForEqualX ← selectPointOrInfinity resultFromDouble (.is equalY)
  let useEqualX ← allocDefined
    (do pure ((if ← assigned equalX.value then 1 else 0) * (1 - (← assigned atLeastOneInf.value))))
    (fun _ => .var equalX.var) (fun _ => .const 1 - atLeastOneInf.lc) fun n => n.lc
  conditionallySelect2 resultForEqualX resultFromAdd useEqualX

end AllocatedPoint

end Rules

/-! ## What the gadgets compute -/

section Values

variable {F : Type} [Field F] [DecidableEq F] {who : Circuit.Prover}

def onLineX (s x₁ x₂ : F) : F := s * s - x₁ - x₂

def onLineY (s x₁ y₁ x : F) : F := s * (x₁ - x) - y₁

section Lines

variable {lambda n₁ n₂ n₃ : AllocatedNum F F} {s u v w : F}

omit [DecidableEq F] in
theorem yields_lineX (hl : lambda.Holds who s) (h₁ : n₁.Holds who u) (h₂ : n₂.Holds who v) :
    (lineX lambda n₁ n₂).Yields who (·.Holds who (onLineX s u v)) := by
  apply yields_allocDefined
  · intro n
    simp only [LC.eval_add, AllocatedNum.eval_lc, hl.val_eq, h₁.val_eq, h₂.val_eq, onLineX]
    exact ⟨fun h => by linear_combination -h, fun h => by linear_combination -h⟩
  · rintro rfl
    rw [assigned_eq hl, assigned_eq h₁, assigned_eq h₂]
    rfl

omit [DecidableEq F] in
theorem yields_lineY (hl : lambda.Holds who s) (h₁ : n₁.Holds who u) (h₂ : n₂.Holds who v) (h₃ : n₃.Holds who w) :
    (lineY lambda n₁ n₂ n₃).Yields who (·.Holds who (onLineY s u v w)) := by
  apply yields_allocDefined
  · intro n
    simp only [LC.eval_add, LC.eval_sub, AllocatedNum.eval_lc, hl.val_eq, h₁.val_eq, h₂.val_eq, h₃.val_eq, onLineY]
    exact ⟨fun h => by linear_combination -h, fun h => by linear_combination -h⟩
  · rintro rfl
    rw [assigned_eq hl, assigned_eq h₁, assigned_eq h₂, assigned_eq h₃]
    rfl

end Lines

namespace AllocatedPoint

structure HoldsAt (who : Circuit.Prover) (p : AllocatedPoint F F) (x y : F) (inf : Bool) : Prop where
  x : p.x.Holds who x
  y : p.y.Holds who y
  isInfinity : p.isInfinity.Holds who (ofBool inf)

variable {p q : AllocatedPoint F F} {x₁ y₁ x₂ y₂ : F} {f g : Bool}

theorem yields_conditionallySelect2 {condition : AllocatedNum F F} {c : Bool} (hp : p.HoldsAt who x₁ y₁ f)
    (hq : q.HoldsAt who x₂ y₂ g) (hc : condition.Holds who (ofBool c)) :
    (conditionallySelect2 p q condition).Yields who
      (·.HoldsAt who (if c then x₁ else x₂) (if c then y₁ else y₂) (if c then f else g)) := by
  refine (ZkCredVega.yields_conditionallySelect2 hp.x hq.x hc).bind fun x hx => ?_
  refine (ZkCredVega.yields_conditionallySelect2 hp.y hq.y hc).bind fun y hy => ?_
  refine (ZkCredVega.yields_conditionallySelect2 hp.isInfinity hq.isInfinity hc).bind fun i hi => ?_
  refine Circuit.yields_pure ⟨hx, hy, ?_⟩
  cases c <;> exact hi

omit [DecidableEq F] in
theorem yields_conditionallySelect {condition : Boolean F} {c : Bool} (hp : p.HoldsAt who x₁ y₁ f)
    (hq : q.HoldsAt who x₂ y₂ g) (hc : condition.Holds who c) :
    (conditionallySelect p q condition).Yields who
      (·.HoldsAt who (if c then x₁ else x₂) (if c then y₁ else y₂) (if c then f else g)) := by
  refine (ZkCredVega.yields_conditionallySelect hp.x hq.x hc).bind fun x hx => ?_
  refine (ZkCredVega.yields_conditionallySelect hp.y hq.y hc).bind fun y hy => ?_
  refine (ZkCredVega.yields_conditionallySelect hp.isInfinity hq.isInfinity hc).bind fun i hi => ?_
  refine Circuit.yields_pure ⟨hx, hy, ?_⟩
  cases c <;> exact hi

omit [DecidableEq F] in
theorem yields_selectPointOrInfinity {condition : Boolean F} {c : Bool} (hp : p.HoldsAt who x₁ y₁ f)
    (hc : condition.Holds who c) :
    (selectPointOrInfinity p condition).Yields who
      (·.HoldsAt who (if c then x₁ else 0) (if c then y₁ else 0) (if c then f else true)) := by
  refine (yields_selectNumOrZero hp.x hc).bind fun x hx => ?_
  refine (yields_selectNumOrZero hp.y hc).bind fun y hy => ?_
  refine (yields_selectNumOrOne hp.isInfinity hc).bind fun i hi => ?_
  refine Circuit.yields_pure ⟨hx, hy, ?_⟩
  cases c <;> exact hi

/-- The tangent's slope; under a set flag the divisor is one. -/
def tangent (a x y : F) (f : Bool) : F := (3 * x * x + a) / (if f then 1 else y + y)

omit [DecidableEq F] in
theorem yields_doubled {n : AllocatedNum F F} {y : F} (hn : n.Holds who y) :
    (allocDefined (do pure ((← assigned n.value) + (← assigned n.value))) (fun _ => .const 1 + .const 1)
      (fun _ => n.lc) fun m => m.lc : Circuit F F _).Yields who (·.Holds who (y + y)) := by
  apply yields_allocDefined
  · intro m
    simp only [LC.eval_add, LC.eval_const, AllocatedNum.eval_lc, hn.val_eq]
    exact ⟨fun h => by linear_combination -h, fun h => by linear_combination -h⟩
  · rintro rfl
    rw [assigned_eq hn]
    rfl

omit [DecidableEq F] in
theorem yields_tripleSquare {n : AllocatedNum F F} {x : F} (hn : n.Holds who x) :
    (allocDefined (do pure (3 * (← assigned n.value) * (← assigned n.value))) (fun _ => .term 3 n.var)
      (fun _ => n.lc) fun m => m.lc : Circuit F F _).Yields who (·.Holds who (3 * x * x)) := by
  apply yields_allocDefined
  · intro m
    simp only [LC.eval_term, AllocatedNum.eval_lc, hn.val_eq]
    exact eq_comm
  · rintro rfl
    rw [assigned_eq hn]
    rfl

/-- What the prover computes from an inverse that is one under a set flag. -/
theorem flaggedInv_bind {d : F} {k : F → Outcome F} (hd : f = false → d ≠ 0) :
    (if (ofBool f : F) = 1 then k 1 else invert d >>= k) = k (if f then 1 else d)⁻¹ := by
  cases f with
  | true => simp only [ofBool, if_true, inv_one]
  | false =>
    simp only [ofBool, Bool.false_eq_true, if_false, zero_ne_one, invert, if_neg (hd rfl)]
    rfl

/-- A doubling that is not of a finite point with `y = 0`. -/
theorem yields_double {a : F} (hp : p.HoldsAt who x₁ y₁ f) (hy : f = false → y₁ + y₁ ≠ 0) :
    (double a p).Yields who (·.HoldsAt who
      (if f then 0 else onLineX (tangent a x₁ y₁ f) x₁ x₁)
      (if f then 0 else onLineY (tangent a x₁ y₁ f) x₁ y₁ (onLineX (tangent a x₁ y₁ f) x₁ x₁)) f) := by
  have hdivisor : (if f then 1 else y₁ + y₁) ≠ 0 := by
    cases f with
    | true => exact one_ne_zero
    | false => exact hy rfl
  refine (yields_doubled hp.y).bind fun tmpActual htmpActual => ?_
  refine (yields_selectOneOrNum2 htmpActual hp.isInfinity).bind fun tmp htmp => ?_
  refine (yields_tripleSquare hp.x).bind fun prod1 hprod1 => ?_
  have hlambda : (allocDefined
      (do
        let tmpInv ← if (← assigned p.isInfinity.value) = 1 then pure 1 else invert (← assigned tmp.value)
        pure (tmpInv * ((← assigned prod1.value) + a)))
      (fun _ => tmp.lc) (fun lambda => lambda.lc) fun _ => prod1.lc + .const a : Circuit F F _).Yields who
      (·.Holds who (tangent a x₁ y₁ f)) := by
    apply yields_allocDefined
    · intro n
      simp only [LC.eval_add, LC.eval_const, AllocatedNum.eval_lc, htmp.val_eq, hprod1.val_eq, tangent]
      rw [eq_div_iff hdivisor, mul_comm]
    · rintro rfl
      rw [assigned_eq hp.isInfinity, assigned_eq htmp, assigned_eq hprod1]
      refine (flaggedInv_bind (k := fun inv => pure (inv * (3 * x₁ * x₁ + a))) fun _ => hdivisor).trans ?_
      have hsame : (if f then (1 : F) else if f then 1 else y₁ + y₁) = if f then 1 else y₁ + y₁ := by
        cases f <;> rfl
      rw [hsame, tangent, div_eq_inv_mul]
      rfl
  refine hlambda.bind fun lambda hl => ?_
  refine (yields_lineX hl hp.x hp.x).bind fun x hx => ?_
  refine (yields_lineY hl hp.x hp.y hx).bind fun y hy => ?_
  refine (yields_selectZeroOrNum2 hx hp.isInfinity).bind fun x' hx' => ?_
  refine (yields_selectZeroOrNum2 hy hp.isInfinity).bind fun y' hy' => ?_
  exact Circuit.yields_pure ⟨hx', hy', hp.isInfinity⟩

/-- The chord's slope; where there is no chord the divisor is one. -/
def chord (x₁ y₁ x₂ y₂ : F) (f g : Bool) : F :=
  (y₂ - y₁) / (if decide (x₁ = x₂) || (f || g) then 1 else x₂ - x₁)

omit [DecidableEq F] in
/-- The flag of `1 - n = (1 - a) * (1 - b)`. -/
theorem yields_or {value : Outcome F} {a b : LC F F} (ha : a.eval = ofBool f) (hb : b.eval = ofBool g)
    (hv : who = .honest → value = .ok (ofBool (g || f))) :
    (allocDefined value (fun _ => .const 1 - a) (fun _ => .const 1 - b) fun n => .const 1 - n.lc :
      Circuit F F _).Yields who (·.Holds who (ofBool (g || f))) := by
  apply yields_allocDefined _ hv
  intro n
  simp only [LC.eval_sub, LC.eval_const, AllocatedNum.eval_lc, ha, hb]
  rw [one_sub_ofBool, one_sub_ofBool, ofBool_mul, Bool.and_comm, ← Bool.not_or, ← one_sub_ofBool]
  exact ⟨fun h => by linear_combination h, fun h => by linear_combination h⟩

/-- Neither operand is chosen by its place: the other one when one is infinity, and otherwise the
chord's third point. -/
theorem yields_addInternal {e : AllocatedBit F} (hp : p.HoldsAt who x₁ y₁ f) (hq : q.HoldsAt who x₂ y₂ g)
    (he : (Boolean.is e).Holds who (decide (x₁ = x₂))) :
    (addInternal p q e).Yields who fun t => t.1.HoldsAt who
      (if f then x₂ else if g then x₁ else onLineX (chord x₁ y₁ x₂ y₂ f g) x₁ x₂)
      (if f then y₂ else if g then y₁ else
        onLineY (chord x₁ y₁ x₂ y₂ f g) x₁ y₁ (onLineX (chord x₁ y₁ x₂ y₂ f g) x₁ x₂))
      (f && g) ∧ t.2.Holds who (ofBool (f || g)) := by
  have hevar : (LC.var e.var : LC F F).eval = ofBool (decide (x₁ = x₂)) := by
    rw [LC.eval_var]
    exact he.reads
  have hflagOf : ∀ {n : AllocatedNum F F} {v : F}, n.Holds who v → n.lc.eval = v := by
    intro n v hn
    rw [AllocatedNum.eval_lc, hn.val_eq]
  refine Circuit.Yields.bind (P := fun n : AllocatedNum F F => n.Holds who (ofBool (f || g))) ?_ fun inf hinf => ?_
  · rw [Bool.or_comm]
    refine yields_or (hflagOf hp.isInfinity) (hflagOf hq.isInfinity) ?_
    rintro rfl
    rw [assigned_eq hp.isInfinity, assigned_eq hq.isInfinity]
    show Except.ok (1 - (1 - ofBool f) * (1 - ofBool g)) = _
    rw [one_sub_ofBool, one_sub_ofBool, ofBool_mul, one_sub_ofBool, Bool.not_and, Bool.not_not, Bool.not_not,
      Bool.or_comm]
  refine Circuit.Yields.bind (P := fun n : AllocatedNum F F => n.Holds who (ofBool (decide (x₁ = x₂) || (f || g))))
    ?_ fun actual hactual => ?_
  · refine yields_or (hflagOf hinf) hevar ?_
    rintro rfl
    rw [assigned_eq hinf]
    have hvalue : e.value = some (decide (x₁ = x₂)) := Boolean.HonestReads.value_eq he
    rw [hvalue]
    show (if decide (x₁ = x₂) = true then (pure 1 : Outcome F) else Except.ok (ofBool (f || g))) = _
    cases decide (x₁ = x₂) <;> rfl
  refine (yields_selectOneOrDiff2 hq.x hp.x hactual).bind fun xDiff hxDiff => ?_
  have hfree : (decide (x₁ = x₂) || (f || g)) = false → x₂ - x₁ ≠ 0 := by
    intro hnone
    have hne := decide_eq_false_iff_not.mp (Bool.or_eq_false_iff.mp hnone).1
    exact sub_ne_zero.mpr fun h => hne h.symm
  have hdivisor : (if decide (x₁ = x₂) || (f || g) then 1 else x₂ - x₁) ≠ 0 := by
    split
    · exact one_ne_zero
    · next hnone => exact hfree (by simpa using hnone)
  refine Circuit.Yields.bind (P := fun n : AllocatedNum F F => n.Holds who (chord x₁ y₁ x₂ y₂ f g)) ?_ fun lambda hl => ?_
  · apply yields_allocDefined
    · intro n
      simp only [LC.eval_sub, AllocatedNum.eval_lc, hxDiff.val_eq, hp.y.val_eq, hq.y.val_eq, chord]
      rw [eq_div_iff hdivisor]
    · rintro rfl
      rw [assigned_eq hactual, assigned_eq hq.x, assigned_eq hp.x, assigned_eq hq.y, assigned_eq hp.y]
      refine (flaggedInv_bind (k := fun inv => pure ((y₂ - y₁) * inv)) hfree).trans ?_
      rw [chord, div_eq_mul_inv]
      rfl
  refine (yields_lineX hl hp.x hq.x).bind fun x hx => ?_
  refine (yields_lineY hl hp.x hp.y hx).bind fun y hy => ?_
  refine (ZkCredVega.yields_conditionallySelect2 hp.x hx hq.isInfinity).bind fun x1 hx1 => ?_
  refine (ZkCredVega.yields_conditionallySelect2 hq.x hx1 hp.isInfinity).bind fun x' hx' => ?_
  refine (ZkCredVega.yields_conditionallySelect2 hp.y hy hq.isInfinity).bind fun y1 hy1 => ?_
  refine (ZkCredVega.yields_conditionallySelect2 hq.y hy1 hp.isInfinity).bind fun y' hy' => ?_
  refine (yields_selectNumOrZero2 hp.isInfinity hq.isInfinity).bind fun i1 hi1 => ?_
  refine (ZkCredVega.yields_conditionallySelect2 hq.isInfinity hi1 hp.isInfinity).bind fun i hi => ?_
  refine Circuit.yields_pure ⟨⟨hx', hy', ?_⟩, hinf⟩
  cases f <;> cases g <;> simpa [ofBool] using hi

/-- Whether the sum is taken from the doubling branch. -/
def usesEqualX (x₁ x₂ : F) (f g : Bool) : Bool := decide (x₁ = x₂) && !(f || g)

/-- The selections of an addition, whose doubling is not of a finite point with `y = 0`. -/
theorem yields_addAt {a : F} (hp : p.HoldsAt who x₁ y₁ f) (hq : q.HoldsAt who x₂ y₂ g)
    (hy : f = false → y₁ + y₁ ≠ 0) :
    (add a p q).Yields who (·.HoldsAt who
      (if usesEqualX x₁ x₂ f g then
        if decide (y₁ = y₂) then if f then 0 else onLineX (tangent a x₁ y₁ f) x₁ x₁ else 0
      else if f then x₂ else if g then x₁ else onLineX (chord x₁ y₁ x₂ y₂ f g) x₁ x₂)
      (if usesEqualX x₁ x₂ f g then
        if decide (y₁ = y₂) then
          if f then 0 else onLineY (tangent a x₁ y₁ f) x₁ y₁ (onLineX (tangent a x₁ y₁ f) x₁ x₁)
        else 0
      else if f then y₂ else if g then y₁ else
        onLineY (chord x₁ y₁ x₂ y₂ f g) x₁ y₁ (onLineX (chord x₁ y₁ x₂ y₂ f g) x₁ x₂))
      (if usesEqualX x₁ x₂ f g then if decide (y₁ = y₂) then f else true else f && g)) := by
  refine (yields_allocNumEquals hp.x hq.x).bind fun equalX hequalX => ?_
  refine (yields_allocNumEquals hp.y hq.y).bind fun equalY hequalY => ?_
  refine (yields_addInternal hp hq hequalX).bind fun t ht => ?_
  obtain ⟨hsum, hinf⟩ := ht
  refine (yields_double hp hy).bind fun doubled hdoubled => ?_
  refine (yields_selectPointOrInfinity hdoubled hequalY).bind fun forEqualX hforEqualX => ?_
  refine Circuit.Yields.bind (P := fun n : AllocatedNum F F => n.Holds who (ofBool (usesEqualX x₁ x₂ f g))) ?_
    fun useEqualX huse => yields_conditionallySelect2 hforEqualX hsum huse
  apply yields_allocDefined
  · intro n
    have hevar : equalX.var = ofBool (decide (x₁ = x₂)) := hequalX.reads
    simp only [LC.eval_sub, LC.eval_const, LC.eval_var, AllocatedNum.eval_lc, hinf.val_eq, hevar]
    rw [one_sub_ofBool, ofBool_mul]
    exact eq_comm
  · rintro rfl
    have hvalue : equalX.value = some (decide (x₁ = x₂)) := Boolean.HonestReads.value_eq hequalX
    rw [hvalue, assigned_eq hinf]
    show Except.ok ((if decide (x₁ = x₂) = true then 1 else 0) * (1 - ofBool (f || g))) = _
    rw [one_sub_ofBool]
    show Except.ok (ofBool (decide (x₁ = x₂)) * _) = _
    rw [ofBool_mul]
    rfl

end AllocatedPoint

/-! ## The group law -/

open WeierstrassCurve.Affine

/-- The curve `y² = x³ + a x + b`. -/
def weierstrass (a b : F) : WeierstrassCurve.Affine F := ⟨0, 0, 0, a, b⟩

namespace AllocatedPoint

variable {a b : F} {p q : AllocatedPoint F F} {P Q : (weierstrass a b).Point}

/-- The point is worth a point of the curve: its coordinates with the flag clear, or the flag alone. -/
def Holds (who : Circuit.Prover) (p : AllocatedPoint F F) : (weierstrass a b).Point → Prop
  | .zero => ∃ x y, p.HoldsAt who x y true
  | .some x y _ => p.HoldsAt who x y false

omit [DecidableEq F] in
theorem addX_eq (x₁ x₂ s : F) : (weierstrass a b).addX x₁ x₂ s = onLineX s x₁ x₂ := by
  simp only [WeierstrassCurve.Affine.addX, weierstrass, onLineX]
  ring

omit [DecidableEq F] in
theorem addY_eq (x₁ x₂ y₁ s : F) :
    (weierstrass a b).addY x₁ x₂ y₁ s = onLineY s x₁ y₁ (onLineX s x₁ x₂) := by
  rw [WeierstrassCurve.Affine.addY, WeierstrassCurve.Affine.negAddY, addX_eq, WeierstrassCurve.Affine.negY]
  simp only [weierstrass, onLineY]
  ring

omit [DecidableEq F] in
theorem negY_eq (x y : F) : (weierstrass a b).negY x y = -y := by
  simp [WeierstrassCurve.Affine.negY, weierstrass]

theorem slope_eq_chord {x₁ x₂ y₁ y₂ : F} (hx : x₁ ≠ x₂) :
    (weierstrass a b).slope x₁ x₂ y₁ y₂ = chord x₁ y₁ x₂ y₂ false false := by
  rw [slope_of_X_ne hx, chord, ← neg_sub y₂, ← neg_sub x₂, neg_div_neg_eq]
  simp [hx]

theorem slope_eq_tangent {x y : F} (hy : y ≠ (weierstrass a b).negY x y) :
    (weierstrass a b).slope x x y y = tangent a x y false := by
  rw [slope_of_Y_ne rfl hy, negY_eq, tangent]
  simp only [weierstrass, Bool.false_eq_true, if_false]
  congr 1
  all_goals ring

/-- No finite value of the point has `y = 0`. -/
def Doubles (P : (weierstrass a b).Point) : Prop := ∀ x y h, P = .some x y h → y + y ≠ 0

theorem yields_add (hp : p.Holds who P) (hq : q.Holds who Q) (hP : Doubles P) :
    (add a p q).Yields who (·.Holds who (P + Q)) := by
  cases P with
  | zero =>
    obtain ⟨x₁, y₁, hp⟩ := hp
    have hadd : ∀ {x₂ y₂ g}, q.HoldsAt who x₂ y₂ g → (add a p q).Yields who (·.HoldsAt who x₂ y₂ g) := by
      intro x₂ y₂ g hq
      have h := yields_addAt (a := a) hp hq (fun h => by cases h)
      simpa [usesEqualX] using h
    rw [show (Point.zero : (weierstrass a b).Point) + Q = Q from zero_add Q]
    cases Q with
    | zero =>
      obtain ⟨x₂, y₂, hq⟩ := hq
      exact (hadd hq).mono fun r hr => ⟨x₂, y₂, hr⟩
    | some x₂ y₂ h₂ => exact hadd hq
  | some x₁ y₁ h₁ =>
    have hy := hP x₁ y₁ h₁ rfl
    cases Q with
    | zero =>
      obtain ⟨x₂, y₂, hq⟩ := hq
      rw [show Point.some x₁ y₁ h₁ + (Point.zero : (weierstrass a b).Point) = Point.some x₁ y₁ h₁ from add_zero _]
      have h := yields_addAt (a := a) hp hq fun _ => hy
      have hsum : (add a p q).Yields who (·.HoldsAt who x₁ y₁ false) := by simpa [usesEqualX] using h
      exact hsum
    | some x₂ y₂ h₂ =>
      have h := yields_addAt (a := a) hp hq fun _ => hy
      by_cases hx : x₁ = x₂
      · subst hx
        by_cases hyy : y₁ = y₂
        · -- equal points: the tangent
          subst hyy
          have hne : y₁ ≠ (weierstrass a b).negY x₁ y₁ := by
            rw [negY_eq]
            exact fun heq => hy (by linear_combination heq)
          rw [Point.add_of_Y_ne hne]
          have hdouble : (add a p q).Yields who (·.HoldsAt who (onLineX (tangent a x₁ y₁ false) x₁ x₁)
              (onLineY (tangent a x₁ y₁ false) x₁ y₁ (onLineX (tangent a x₁ y₁ false) x₁ x₁)) false) := by
            simpa [usesEqualX] using h
          refine hdouble.mono fun r hr => ?_
          show r.HoldsAt who ((weierstrass a b).addX x₁ x₁ _) ((weierstrass a b).addY x₁ x₁ y₁ _) false
          rw [addX_eq, addY_eq, slope_eq_tangent hne]
          exact hr
        · -- opposite points: infinity
          have hneg := (Y_eq_of_X_eq h₁.1 h₂.1 rfl).resolve_left hyy
          rw [Point.add_of_Y_eq rfl hneg]
          have hinf : (add a p q).Yields who (·.HoldsAt who 0 0 true) := by simpa [usesEqualX, hyy] using h
          exact hinf.mono fun r hr => ⟨0, 0, hr⟩
      · -- the chord
        rw [Point.add_of_X_ne hx]
        have hchord : (add a p q).Yields who (·.HoldsAt who (onLineX (chord x₁ y₁ x₂ y₂ false false) x₁ x₂)
            (onLineY (chord x₁ y₁ x₂ y₂ false false) x₁ y₁ (onLineX (chord x₁ y₁ x₂ y₂ false false) x₁ x₂)) false) := by
          simpa [usesEqualX, hx] using h
        refine hchord.mono fun r hr => ?_
        show r.HoldsAt who ((weierstrass a b).addX x₁ x₂ _) ((weierstrass a b).addY x₁ x₂ y₁ _) false
        rw [addX_eq, addY_eq, slope_eq_chord hx]
        exact hr

/-- No assignment doubles a finite point with `y = 0`: the tangent there is vertical. -/
theorem ensures_double_vertical {x y : F} (hp : p.HoldsAt .any x y false) (hy : y + y = 0)
    (hns : 3 * x * x + a ≠ 0) : (double a p).Ensures fun _ => False := by
  have hdoubled : _ := yields_doubled hp.y
  refine hdoubled.ensures.bind fun tmpActual htmpActual => ?_
  refine (yields_selectOneOrNum2 htmpActual hp.isInfinity).ensures.bind fun tmp htmp => ?_
  have htriple : _ := yields_tripleSquare hp.x
  refine htriple.ensures.bind fun prod1 hprod1 => ?_
  refine Circuit.Ensures.bind (P := fun _ => False) ?_ fun _ h => h.elim
  refine AllocatedNum.ensures_alloc.bind fun lambda _ => .require_bind fun h => ?_
  rw [LC.eval_add, AllocatedNum.eval_lc, htmp.val_eq, AllocatedNum.eval_lc, AllocatedNum.eval_lc,
    hprod1.val_eq, LC.eval_const] at h
  simp only [Bool.false_eq_true, if_false, hy, zero_mul] at h
  exact absurd h.symm hns

omit [DecidableEq F] in
/-- Where the tangent is vertical it is not flat: the curve has no singular point. -/
theorem rise_ne_zero {x y : F} (h : (weierstrass a b).Nonsingular x y) (hy : y + y = 0) : 3 * x * x + a ≠ 0 := by
  have hsing := ((nonsingular_iff x y).mp h).2
  intro hzero
  have hflat : y = -y := by linear_combination hy
  simp only [weierstrass] at hsing
  rcases hsing with hx | hy'
  · exact hx (by linear_combination -hzero)
  · exact hy' (by linear_combination hflat)

/-- Every satisfying assignment of an addition gives the sum. -/
theorem ensures_add (hp : p.Holds .any P) (hq : q.Holds .any Q) :
    (add a p q).Ensures (·.Holds .any (P + Q)) := by
  by_cases hP : Doubles P
  · exact (yields_add hp hq hP).ensures
  · unfold Doubles at hP
    push Not at hP
    obtain ⟨x, y, h, rfl, hy⟩ := hP
    have hns := rise_ne_zero h hy
    obtain ⟨x₂, y₂, g, hq⟩ : ∃ x₂ y₂ g, q.HoldsAt .any x₂ y₂ g := by
      cases Q with
      | zero =>
        obtain ⟨x₂, y₂, hq⟩ := hq
        exact ⟨x₂, y₂, true, hq⟩
      | some x₂ y₂ _ => exact ⟨x₂, y₂, false, hq⟩
    have hp : p.HoldsAt .any x y false := hp
    refine (yields_allocNumEquals hp.x hq.x).ensures.bind fun equalX hequalX => ?_
    refine (yields_allocNumEquals hp.y hq.y).ensures.bind fun equalY _ => ?_
    refine (yields_addInternal hp hq hequalX).ensures.bind fun t _ => ?_
    exact (ensures_double_vertical hp hy hns).bind fun _ h => h.elim

end AllocatedPoint

end Values

/-! ## P-256 -/

def curveCoefficient : ℕ := 0x5ac635d8aa3a93e7b3ebbd55769886bc651d06b0cc53b0f63bce3c3e27d2604b

/-- `p256_curve_params`: the coefficients of P-256. -/
def curveParams : Scalar × Scalar := (-3, (curveCoefficient : Scalar))

abbrev p256 : WeierstrassCurve.Affine Scalar := weierstrass curveParams.1 curveParams.2

theorem p256_discriminant : p256.Δ ≠ 0 := by
  have hΔ : p256.Δ = ((1728 : ℕ) : Scalar) - ((432 * curveCoefficient ^ 2 : ℕ) : Scalar) := by
    simp only [WeierstrassCurve.Δ, WeierstrassCurve.b₂, WeierstrassCurve.b₄, WeierstrassCurve.b₆,
      WeierstrassCurve.b₈, weierstrass, curveParams]
    push_cast
    ring
  rw [hΔ, sub_ne_zero]
  intro h
  have hmod := (CharP.natCast_eq_natCast Scalar fieldModulus).mp h
  exact absurd hmod (by decide +kernel)

theorem p256_nonsingular {x y : Scalar} (h : p256.Equation x y) : p256.Nonsingular x y :=
  (WeierstrassCurve.Affine.equation_iff_nonsingular_of_Δ_ne_zero p256_discriminant).mp h

theorem add_self_ne_zero {y : Scalar} (h : y ≠ 0) : y + y ≠ 0 := by
  have htwo : (2 : Scalar) ≠ 0 := by
    intro htwo
    have hcast : ((2 : ℕ) : Scalar) = ((0 : ℕ) : Scalar) := by
      push_cast
      exact htwo
    exact absurd (LargeChar.natCast_inj (by decide) (by decide) hcast) (by decide)
  rw [← two_mul]
  exact mul_ne_zero htwo h

namespace AllocatedPoint

variable {p q : AllocatedPoint Scalar Scalar}

/-- The flag is one, or it is zero and the coordinates are on P-256. -/
def Valid (p : AllocatedPoint Scalar Scalar) : Prop :=
  p.isInfinity.val = 1 ∨ (p.isInfinity.val = 0 ∧ p256.Equation p.x.val p.y.val)

open Classical in
noncomputable def point (p : AllocatedPoint Scalar Scalar) : p256.Point :=
  if h : p.isInfinity.val = 0 ∧ p256.Nonsingular p.x.val p.y.val then .some _ _ h.2 else .zero

theorem holdsAt_any (p : AllocatedPoint Scalar Scalar) {f : Bool} (h : p.isInfinity.val = ofBool f) :
    p.HoldsAt .any p.x.val p.y.val f :=
  ⟨⟨rfl, fun h => by cases h⟩, ⟨rfl, fun h => by cases h⟩, ⟨h, fun h => by cases h⟩⟩

theorem Valid.holds (h : p.Valid) : p.Holds .any p.point := by
  rcases h with hinf | ⟨hinf, heq⟩
  · have hpoint : p.point = .zero := by
      rw [point, dif_neg]
      rintro ⟨hzero, -⟩
      rw [hinf] at hzero
      exact one_ne_zero hzero
    rw [hpoint]
    exact ⟨_, _, p.holdsAt_any hinf⟩
  · have hpoint : p.point = .some _ _ (p256_nonsingular heq) := by
      rw [point, dif_pos ⟨hinf, p256_nonsingular heq⟩]
    rw [hpoint]
    exact p.holdsAt_any hinf

theorem Holds.valid {P : p256.Point} (h : p.Holds .any P) : p.Valid ∧ p.point = P := by
  cases P with
  | zero =>
    obtain ⟨x, y, h⟩ := h
    have hinf : p.isInfinity.val = 1 := h.isInfinity.val_eq
    refine ⟨.inl hinf, ?_⟩
    rw [point, dif_neg]
    rintro ⟨hzero, -⟩
    rw [hinf] at hzero
    exact one_ne_zero hzero
  | some x y hns =>
    have hinf : p.isInfinity.val = 0 := h.isInfinity.val_eq
    have hx : p.x.val = x := h.x.val_eq
    have hy : p.y.val = y := h.y.val_eq
    subst hx hy
    refine ⟨.inr ⟨hinf, hns.1⟩, ?_⟩
    rw [point, dif_pos ⟨hinf, hns⟩]

/-- Every satisfying assignment of an addition of two points, each on P-256 or flagged as infinity, gives
the group's sum; and there is one unless the first is a finite point with `y = 0`. -/
theorem add_groupLaw (p q : AllocatedPoint Scalar Scalar) (hp : p.Valid) (hq : q.Valid) :
    (add curveParams.1 p q).Ensures (fun r => r.Valid ∧ r.point = p.point + q.point) ∧
    ((p.isInfinity.val = 0 → p.y.val ≠ 0) → (add curveParams.1 p q).Admits fun _ => True) := by
  refine ⟨(ensures_add hp.holds hq.holds).mono fun _ hr => hr.valid, fun hy => ?_⟩
  have hdoubles : Doubles p.point := by
    intro x y hns hpoint
    have hholds := hp.holds
    rw [hpoint] at hholds
    have hflag : p.isInfinity.val = 0 := hholds.isInfinity.val_eq
    have hval : p.y.val = y := hholds.y.val_eq
    rw [← hval]
    exact add_self_ne_zero (hy hflag)
  exact (yields_add hp.holds hq.holds hdoubles).admits.mono fun _ _ => trivial

end AllocatedPoint

/-- `p256_generator`: the coordinates of the base point. -/
def generatorX : ℕ := 0x6b17d1f2e12c4247f8bce6e563a440f277037d812deb33a0f4a13945d898c296

def generatorY : ℕ := 0x4fe342e2fe1a7f9b8ee7eb4a7c0f9e162bce33576b315ececbb6406837bf51f5

theorem equation_generator : p256.Equation (generatorX : Scalar) (generatorY : Scalar) := by
  have hcast : ((generatorY ^ 2 + 3 * generatorX : ℕ) : Scalar) = ((generatorX ^ 3 + curveCoefficient : ℕ) : Scalar) :=
    (CharP.natCast_eq_natCast Scalar fieldModulus).mpr (by decide +kernel)
  push_cast at hcast
  rw [WeierstrassCurve.Affine.equation_iff]
  simp only [weierstrass, curveParams]
  linear_combination hcast

theorem generatorY_ne_zero : (generatorY : Scalar) ≠ 0 := by
  intro h
  have hdvd := (CharP.cast_eq_zero_iff Scalar fieldModulus generatorY).mp h
  exact absurd hdvd (by decide +kernel)

def generatorPoint : AllocatedPoint Scalar Scalar := ⟨⟨generatorX, none⟩, ⟨generatorY, none⟩, ⟨0, none⟩⟩

namespace AllocatedPoint

theorem add_groupLaw_generator :
    (add curveParams.1 generatorPoint generatorPoint).Ensures
      (fun r => r.Valid ∧ r.point = generatorPoint.point + generatorPoint.point) ∧
    (add curveParams.1 generatorPoint generatorPoint).Admits fun _ => True := by
  have hvalid : generatorPoint.Valid := .inr ⟨rfl, equation_generator⟩
  have h := add_groupLaw generatorPoint generatorPoint hvalid hvalid
  exact ⟨h.1, h.2 fun _ => generatorY_ne_zero⟩

end AllocatedPoint

end ZkCredVega
