import ZkCredVega.Circuit.Synthesis
import ZkCredVega.Ecc.ScalarMul

/-!
# Multiples of any coordinates

What synthesis does in `scalar_mul` when the coordinates need not be on the curve. The additions
that are not complete choose a slope of one where there is none, and synthesis goes on;
`double` takes the inverse of `2 y` and panics at a point with `y = 0`, also where an addition
throws the double away.
-/

namespace ZkCredVega

open Circuits

local instance ladderSlopeLiteral : Nat.AtLeastTwo 3 := atLeastTwo_three

section Coordinates

variable {F : Type} [Field F] [DecidableEq F]

/-- The sum by the chord, with a slope of one between equal `x`. -/
def incompleteSum (p q : F × F) : F × F :=
  let lambda := if q.1 = p.1 then 1 else (q.2 - p.2) * (q.1 - p.1)⁻¹
  let x := onLineX lambda p.1 q.1
  (x, onLineY lambda p.1 p.2 x)

/-- The double by the tangent, with a slope of one where `y = 0`. -/
def incompleteTwice (a : F) (p : F × F) : F × F :=
  let lambda := if 2 * p.2 = 0 then 1 else (3 * (p.1 * p.1) + a) * (2 * p.2)⁻¹
  let x := onLineX lambda p.1 p.1
  (x, onLineY lambda p.1 p.2 x)

/-- The accumulator and the power after the bits of the incomplete additions. -/
def incompleteLadder (a : F) (t : (F × F) × (F × F)) (bits : List Bool) : (F × F) × (F × F) :=
  bits.foldl (fun t bit => (if bit then incompleteSum t.1 t.2 else t.1, incompleteTwice a t.2)) t

/-- Coordinates with the flag for infinity. -/
structure Coordinates (F : Type) where
  x : F
  y : F
  inf : Bool

namespace Coordinates

open AllocatedPoint (tangent chord usesEqualX)

def ofPair (p : F × F) : Coordinates F := ⟨p.1, p.2, false⟩

/-- The tangent is vertical: `double` has no inverse to take. -/
def Vertical (p : Coordinates F) : Prop := p.inf = false ∧ p.y + p.y = 0

def twice (a : F) (p : Coordinates F) : Coordinates F where
  x := if p.inf then 0 else onLineX (tangent a p.x p.y p.inf) p.x p.x
  y := if p.inf then 0 else onLineY (tangent a p.x p.y p.inf) p.x p.y (onLineX (tangent a p.x p.y p.inf) p.x p.x)
  inf := p.inf

def sum (a : F) (p q : Coordinates F) : Coordinates F where
  x := if usesEqualX p.x q.x p.inf q.inf then if decide (p.y = q.y) then (p.twice a).x else 0
    else if p.inf then q.x else if q.inf then p.x else onLineX (chord p.x p.y q.x q.y p.inf q.inf) p.x q.x
  y := if usesEqualX p.x q.x p.inf q.inf then if decide (p.y = q.y) then (p.twice a).y else 0
    else if p.inf then q.y else if q.inf then p.y else
      onLineY (chord p.x p.y q.x q.y p.inf q.inf) p.x p.y (onLineX (chord p.x p.y q.x q.y p.inf q.inf) p.x q.x)
  inf := if usesEqualX p.x q.x p.inf q.inf then if decide (p.y = q.y) then p.inf else true else p.inf && q.inf

/-- No bit of the complete additions doubles an accumulator or a power with a vertical tangent. -/
def Upright (a : F) : Coordinates F × Coordinates F → List Bool → Prop
  | _, [] => True
  | t, bit :: bits => (¬t.1.Vertical ∧ ¬t.2.Vertical) ∧
      Upright a (if bit then t.1.sum a t.2 else t.1, t.2.twice a) bits

end Coordinates

/-- The multiple by the little-endian bits meets no vertical tangent where it inverts: when the copy too many is
taken away, and at the last two bits. -/
def MeetsNoVertical (a : F) (p : F × F) (bits : List Bool) : Prop :=
  let t := incompleteLadder a (p, incompleteTwice a p) ((bits.take 254).drop 1)
  let acc := Coordinates.ofPair t.1
  ¬acc.Vertical ∧
    Coordinates.Upright a (if bits.headD false then acc else acc.sum a (.ofPair (p.1, -p.2)), .ofPair t.2) (bits.drop 254)

/-- A point with `y = 0` meets one when bits 1 to 253 are clear. -/
theorem not_meetsNoVertical {a x : F} {bits : List Bool} (hclear : ∀ bit ∈ (bits.take 254).drop 1, bit = false) :
    ¬MeetsNoVertical a (x, 0) bits := by
  have hfold : ∀ (t : (F × F) × (F × F)) (bs : List Bool), (∀ b ∈ bs, b = false) → (incompleteLadder a t bs).1 = t.1 := by
    intro t bs hbs
    induction bs generalizing t with
    | nil => rfl
    | cons b bs ih =>
      rw [List.forall_mem_cons] at hbs
      obtain ⟨rfl, hbs⟩ := hbs
      exact ih _ hbs
  rintro ⟨hacc, -⟩
  refine hacc ⟨rfl, ?_⟩
  rw [hfold _ _ hclear]
  exact add_zero 0

end Coordinates

/-! ## Synthesis -/

section Synthesis

variable {F : Type} [Field F]

omit [Field F] in
theorem synthesize_allocDefined_error [One F] {value : Outcome F} {a b c : AllocatedNum F F → LC F F} {e : Failure}
    (h : value = .error e) : (allocDefined value a b c).synthesize = .error e := by
  subst h
  rfl

/-- The constraint is recorded, whether or not the value meets it. -/
theorem publishes_allocDefined {value : Outcome F} {a b c : AllocatedNum F F → LC F F} {v : F} (h : value = .ok v) :
    (allocDefined value a b c).Publishes [] (·.Holds .honest v) := by
  refine (AllocatedNum.succeeds_alloc h).publishes.bind_nil fun n hn => ?_
  exact Circuit.publishes_require.bind_nil fun _ _ => Circuit.publishes_pure hn

variable [DecidableEq F]

namespace AllocatedPointNonInfinity

structure HoldsPair (p : AllocatedPointNonInfinity F F) (t : F × F) : Prop where
  x : p.x.Holds .honest t.1
  y : p.y.Holds .honest t.2

variable {p q : AllocatedPointNonInfinity F F} {P Q : F × F}

theorem publishes_addIncomplete (hp : p.HoldsPair P) (hq : q.HoldsPair Q) :
    (addIncomplete p q).Publishes [] (·.HoldsPair (incompleteSum P Q)) := by
  refine (publishes_allocDefined (v := if Q.1 = P.1 then 1 else (Q.2 - P.2) * (Q.1 - P.1)⁻¹) ?_).bind_nil
    fun lambda hl => ?_
  · rw [assigned_eq hq.x, assigned_eq hp.x, assigned_eq hq.y, assigned_eq hp.y]
    show (if Q.1 = P.1 then pure 1 else invert (Q.1 - P.1) >>= fun inv => pure ((Q.2 - P.2) * inv) : Outcome F) = _
    by_cases hx : Q.1 = P.1
    · rw [if_pos hx, if_pos hx]
      rfl
    · rw [if_neg hx, if_neg hx, invert, if_neg (sub_ne_zero.mpr hx)]
      rfl
  refine (yields_lineX hl hp.x hq.x).succeeds.publishes.bind_nil fun x hx => ?_
  refine (yields_lineY hl hp.x hp.y hx).succeeds.publishes.bind_nil fun y hy => ?_
  exact Circuit.publishes_pure ⟨hx, hy⟩

theorem publishes_doubleIncomplete {a : F} (hp : p.HoldsPair P) :
    (doubleIncomplete a p).Publishes [] (·.HoldsPair (incompleteTwice a P)) := by
  refine (yields_square hp.x).succeeds.publishes.bind_nil fun xSq hxSq => ?_
  refine (publishes_allocDefined (v := if 2 * P.2 = 0 then 1 else (3 * (P.1 * P.1) + a) * (2 * P.2)⁻¹) ?_).bind_nil
    fun lambda hl => ?_
  · rw [assigned_eq hxSq, assigned_eq hp.y]
    show (if 2 * P.2 = 0 then pure 1 else invert (2 * P.2) >>= fun inv => pure ((3 * (P.1 * P.1) + a) * inv) :
      Outcome F) = _
    by_cases hy : 2 * P.2 = 0
    · rw [if_pos hy, if_pos hy]
      rfl
    · rw [if_neg hy, if_neg hy, invert, if_neg hy]
      rfl
  refine (publishes_allocDefined (v := (incompleteTwice a P).1) ?_).bind_nil fun x hx => ?_
  · rw [assigned_eq hl, assigned_eq hp.x]
    rfl
  refine (yields_lineY hl hp.x hp.y hx).succeeds.publishes.bind_nil fun y hy => ?_
  exact Circuit.publishes_pure ⟨hx, hy⟩

omit [DecidableEq F] in
theorem publishes_conditionallySelect {condition : Boolean F} {c : Bool} (hp : p.HoldsPair P) (hq : q.HoldsPair Q)
    (hc : condition.Holds .honest c) :
    (conditionallySelect p q condition).Publishes [] (·.HoldsPair (if c then P else Q)) := by
  refine (ZkCredVega.yields_conditionallySelect hp.x hq.x hc).succeeds.publishes.bind_nil fun x hx => ?_
  refine (ZkCredVega.yields_conditionallySelect hp.y hq.y hc).succeeds.publishes.bind_nil fun y hy => ?_
  refine Circuit.publishes_pure ⟨?_, ?_⟩
  · cases c <;> exact hx
  · cases c <;> exact hy

end AllocatedPointNonInfinity

namespace AllocatedPoint

abbrev HoldsCoordinates (p : AllocatedPoint F F) (t : Coordinates F) : Prop := p.HoldsAt .honest t.x t.y t.inf

variable {p q : AllocatedPoint F F} {P Q : Coordinates F} {a : F}

theorem panicsUnless_double (hp : p.HoldsCoordinates P) :
    (double a p).PanicsUnless (¬P.Vertical) (·.HoldsCoordinates (P.twice a)) := by
  constructor
  · intro hP
    exact (yields_double hp fun hinf hy => hP ⟨hinf, hy⟩).succeeds.publishes
  · intro hP
    obtain ⟨hinf, hy⟩ := not_not.mp hP
    have hflag : p.isInfinity.Holds .honest (ofBool false) := by
      rw [← hinf]
      exact hp.isInfinity
    refine (yields_doubled hp.y).succeeds.publishes.bind_error fun tmpActual htmpActual => ?_
    refine (yields_selectOneOrNum2 htmpActual hflag).succeeds.publishes.bind_error fun tmp htmp => ?_
    refine (yields_tripleSquare hp.x).succeeds.publishes.bind_error fun prod1 hprod1 => ?_
    -- the divisor is `2 y`, which is zero
    refine Circuit.synthesize_bind_error (synthesize_allocDefined_error ?_)
    rw [hy] at htmp
    rw [assigned_eq hflag, assigned_eq htmp]
    refine (if_neg zero_ne_one).trans ?_
    show invert (0 : F) >>= _ = _
    rw [invert, if_pos rfl]
    rfl

/-- An addition doubles its first operand, also when it does not use the double. -/
theorem panicsUnless_add (hp : p.HoldsCoordinates P) (hq : q.HoldsCoordinates Q) :
    (add a p q).PanicsUnless (¬P.Vertical) (·.HoldsCoordinates (P.sum a Q)) := by
  constructor
  · intro hP
    exact (yields_addAt hp hq fun hinf hy => hP ⟨hinf, hy⟩).succeeds.publishes
  · intro hP
    refine (yields_allocNumEquals hp.x hq.x).succeeds.publishes.bind_error fun equalX hequalX => ?_
    refine (yields_allocNumEquals hp.y hq.y).succeeds.publishes.bind_error fun equalY _ => ?_
    refine (yields_addInternal hp hq hequalX).succeeds.publishes.bind_error fun t _ => ?_
    exact Circuit.synthesize_bind_error ((panicsUnless_double hp).panics hP)

omit [DecidableEq F] in
theorem publishes_negate (hp : p.HoldsCoordinates P) :
    (negate p).Publishes [] (·.HoldsCoordinates ⟨P.x, -P.y, P.inf⟩) := by
  refine (publishes_allocDefined (v := -P.y) ?_).bind_nil fun y hy => ?_
  · rw [assigned_eq hp.y]
    rfl
  · exact Circuit.publishes_pure ⟨hp.x, hy, hp.isInfinity⟩

omit [DecidableEq F] in
theorem publishes_conditionallySelect {condition : Boolean F} {c : Bool} (hp : p.HoldsCoordinates P)
    (hq : q.HoldsCoordinates Q) (hc : condition.Holds .honest c) :
    (conditionallySelect p q condition).Publishes [] (·.HoldsCoordinates (if c then P else Q)) := by
  refine (yields_conditionallySelect hp hq hc).succeeds.publishes.mono fun r hr => ?_
  cases c <;> exact hr

theorem publishes_incompleteBit {t : AllocatedPointNonInfinity F F × AllocatedPointNonInfinity F F}
    {T : (F × F) × (F × F)} {bit : AllocatedBit F} {x : Bool} (hacc : t.1.HoldsPair T.1) (hp : t.2.HoldsPair T.2)
    (hbit : (Boolean.is bit).Holds .honest x) :
    (incompleteBit a t bit).Publishes [] fun t' =>
      t'.1.HoldsPair (if x then incompleteSum T.1 T.2 else T.1) ∧ t'.2.HoldsPair (incompleteTwice a T.2) := by
  refine (AllocatedPointNonInfinity.publishes_addIncomplete hacc hp).bind_nil fun temp htemp => ?_
  refine (AllocatedPointNonInfinity.publishes_conditionallySelect htemp hacc hbit).bind_nil fun acc hacc' => ?_
  refine (AllocatedPointNonInfinity.publishes_doubleIncomplete hp).bind_nil fun p hp' => ?_
  exact Circuit.publishes_pure ⟨hacc', hp'⟩

theorem publishes_incompleteBits {bits : List (AllocatedBit F)} {xs : List Bool} (hbits : HoldBits .honest bits xs)
    {t : AllocatedPointNonInfinity F F × AllocatedPointNonInfinity F F} {T : (F × F) × (F × F)}
    (hacc : t.1.HoldsPair T.1) (hp : t.2.HoldsPair T.2) :
    (bits.foldlM (incompleteBit a) t).Publishes [] fun t' =>
      t'.1.HoldsPair (incompleteLadder a T xs).1 ∧ t'.2.HoldsPair (incompleteLadder a T xs).2 := by
  induction hbits generalizing t T with
  | nil => exact Circuit.publishes_pure ⟨hacc, hp⟩
  | @cons bit x bits xs hbit _ ih =>
    rw [List.foldlM_cons]
    exact (publishes_incompleteBit hacc hp hbit).bind_nil fun t' ht' => ih ht'.1 ht'.2

/-- One bit of the complete additions doubles the accumulator, in the addition, and the power. -/
theorem panicsUnless_completeBit {t : AllocatedPoint F F × AllocatedPoint F F} {bit : AllocatedBit F} {x : Bool}
    (hacc : t.1.HoldsCoordinates P) (hp : t.2.HoldsCoordinates Q) (hbit : (Boolean.is bit).Holds .honest x) :
    (completeBit a t bit).PanicsUnless (¬P.Vertical ∧ ¬Q.Vertical) fun t' =>
      t'.1.HoldsCoordinates (if x then P.sum a Q else P) ∧ t'.2.HoldsCoordinates (Q.twice a) := by
  refine (panicsUnless_add hacc hp).bind fun _ temp htemp => ?_
  refine (publishes_conditionallySelect htemp hacc hbit).bind_panicsUnless fun acc hacc' => ?_
  exact (panicsUnless_double hp).bind_publishes fun _ p hp' => Circuit.publishes_pure ⟨hacc', hp'⟩

theorem panicsUnless_completeBits {bits : List (AllocatedBit F)} {xs : List Bool} (hbits : HoldBits .honest bits xs)
    {t : AllocatedPoint F F × AllocatedPoint F F} {T : Coordinates F × Coordinates F}
    (hacc : t.1.HoldsCoordinates T.1) (hp : t.2.HoldsCoordinates T.2) :
    (bits.foldlM (completeBit a) t).PanicsUnless (Coordinates.Upright a T xs) fun t' =>
      ∃ R, t'.1.HoldsCoordinates R := by
  induction hbits generalizing t T with
  | nil => exact ⟨fun _ => Circuit.publishes_pure ⟨_, hacc⟩, fun h => absurd trivial h⟩
  | @cons bit x bits xs hbit _ ih =>
    rw [List.foldlM_cons]
    exact (panicsUnless_completeBit hacc hp hbit).bind fun _ t' ht' => ih ht'.1 ht'.2

/-- The multiple of any coordinates panics exactly where it meets a vertical tangent. -/
theorem panicsUnless_scalarMul {K : F × F} (hp : p.HoldsCoordinates (.ofPair K)) {bits : List (AllocatedBit F)}
    {xs : List Bool} (hlen : xs.length = 256) (hbits : HoldBits .honest bits xs) :
    (scalarMul a p bits).PanicsUnless (MeetsNoVertical a K xs) fun r => ∃ R, r.HoldsCoordinates R := by
  have hbitsLen : bits.length = 256 := hbits.length_eq.trans hlen
  have hsplit : min bits.length (numBits - 2) = 254 := by
    rw [hbitsLen]
    rfl
  have hinitial : (AllocatedPointNonInfinity.fromAllocatedPoint p).HoldsPair K := ⟨hp.x, hp.y⟩
  unfold scalarMul
  simp only [hsplit]
  refine (AllocatedPointNonInfinity.publishes_doubleIncomplete hinitial).bind_panicsUnless fun doubled hdoubled => ?_
  have hmids : HoldBits .honest ((bits.take 254).drop 1) ((xs.take 254).drop 1) :=
    List.forall₂_drop 1 (List.forall₂_take 254 hbits)
  refine (publishes_incompleteBits hmids (T := (K, incompleteTwice a K)) hinitial hdoubled).bind_panicsUnless fun t ht => ?_
  obtain ⟨acc, power⟩ := t
  obtain ⟨hacc, hpower⟩ := ht
  simp only
  have haccAt : (acc.toAllocatedPoint p.isInfinity).HoldsCoordinates
      (.ofPair (incompleteLadder a (K, incompleteTwice a K) ((xs.take 254).drop 1)).1) := ⟨hacc.x, hacc.y, hp.isInfinity⟩
  have hpowerAt : (power.toAllocatedPoint p.isInfinity).HoldsCoordinates
      (.ofPair (incompleteLadder a (K, incompleteTwice a K) ((xs.take 254).drop 1)).2) :=
    ⟨hpower.x, hpower.y, hp.isInfinity⟩
  refine (publishes_negate hp).bind_panicsUnless fun neg hneg => ?_
  refine (panicsUnless_add haccAt hneg).bind fun _ minus hminus => ?_
  obtain ⟨first, rest, rfl⟩ : ∃ first rest, bits = first :: rest := List.exists_cons_of_length_eq_add_one hbitsLen
  obtain ⟨x₀, ys, rfl⟩ : ∃ x₀ ys, xs = x₀ :: ys := List.exists_cons_of_length_eq_add_one hlen
  rw [firstBit, pure_bind]
  have hfirst : (Boolean.is first).Holds .honest x₀ := (List.forall₂_cons.mp hbits).1
  refine (publishes_conditionallySelect haccAt hminus hfirst).bind_panicsUnless fun res hres => ?_
  refine yields_default.succeeds.publishes.bind_panicsUnless fun zero hzero => ?_
  refine (ZkCredVega.yields_conditionallySelect2 hzero.x hres.x hp.isInfinity).succeeds.publishes.bind_panicsUnless
    fun x' hx' => ?_
  refine (ZkCredVega.yields_conditionallySelect2 hzero.y hres.y hp.isInfinity).succeeds.publishes.bind_panicsUnless
    fun y' hy' => ?_
  have hlast : HoldBits .honest ((first :: rest).drop 254) ((x₀ :: ys).drop 254) := List.forall₂_drop 254 hbits
  exact (panicsUnless_completeBits hlast (t := (⟨x', y', res.isInfinity⟩, power.toAllocatedPoint p.isInfinity))
    ⟨hx', hy', hres.isInfinity⟩ hpowerAt).bind_publishes fun _ t ht => Circuit.publishes_pure ht

/-- A finite point of large prime order meets no vertical tangent. -/
theorem meetsNoVertical_of_order {b x y : F} {h : (weierstrass a b).Nonsingular x y} {n : ℕ} (hn : n.Prime)
    (hbig : 2 ^ 255 ≤ n) (horder : n • (.some x y h : (weierstrass a b).Point) = 0) {xs : List Bool}
    (hlen : xs.length = 256) : MeetsNoVertical a (x, y) xs := by
  have hpoint : (⟨⟨x, some x⟩, ⟨y, some y⟩, ⟨0, some 0⟩⟩ : AllocatedPoint F F).HoldsAt .honest x y false :=
    ⟨⟨rfl, fun _ => rfl⟩, ⟨rfl, fun _ => rfl⟩, ⟨rfl, fun _ => rfl⟩⟩
  have hbits : HoldBits .honest (xs.map fun b => (⟨ofBool b, some b⟩ : AllocatedBit F)) xs := by
    rw [HoldBits, List.forall₂_map_left_iff, List.forall₂_same]
    exact fun b _ => ⟨rfl, rfl⟩
  have hmul : (scalarMul a _ _).Yields .honest _ :=
    yields_scalarMul hn hbig (WeierstrassCurve.Affine.Point.some_ne_zero h) horder hpoint hlen hbits
  refine ((panicsUnless_scalarMul (K := (x, y)) hpoint hlen hbits).synthesize_ne_iff).mp fun hpanic => ?_
  obtain ⟨r, hr, -⟩ := hmul.succeeds.publishes
  cases hr.symm.trans hpanic

end AllocatedPoint

end Synthesis

end ZkCredVega
