import ZkCredVega.Ecc.Generator
import ZkCredVega.Nym.Values
import ZkCredVega.OffsetBind.Offset

/-!
# The points of the signature's rules

The gadgets under `verify` of `gadgets/p256.rs`. Points are affine and additions incomplete: each one's
rules can only be met by operands with different `x`, and then they give the sum. The scalar
multiplications start from fixed points that a last addition removes. Mathlib's group of
nonsingular points is what the rules are measured against: a multiplication gives the multiple, and its
rules are met exactly when all the points it adds are apart.
-/

namespace ZkCredVega.Nym

open Circuits
open AllocatedPoint (chord tangent addX_eq addY_eq negY_eq slope_eq_chord slope_eq_tangent)

/-! ## Slots -/

section Slots

variable {F : Type} [Field F] {α : Type} {who : Circuit.Prover}

/-- A new slot that a rule defines, wherever the rule has it. -/
theorem yields_slot {hint : Option F} {a b c : Lc F F → Lc F F} {v : F} {f : Lc F F → Circuit F F α}
    {Q : α → Prop}
    (hk : ∀ w, (a ⟨.var w, hint⟩).lc.eval * (b ⟨.var w, hint⟩).lc.eval = (c ⟨.var w, hint⟩).lc.eval ↔ w = v)
    (hhint : who = .honest → hint = some v) (hf : ∀ s : Lc F F, s.Holds who v → (f s).Yields who Q) :
    (do
      let s ← Lc.alloc hint
      product (a s) (b s) (c s)
      f s).Yields who Q := by
  have hrest := hf ⟨.var v, hint⟩ ⟨LC.eval_var v, hhint⟩
  cases who with
  | any =>
    constructor
    · refine Lc.ensures_alloc.bind ?_
      rintro s ⟨w, rfl⟩
      refine Circuit.Ensures.require_bind fun hw => ?_
      obtain rfl := (hk w).mp hw
      exact hrest.ensures
    · refine (Lc.admits_alloc v).bind ?_
      rintro s rfl
      exact Circuit.Admits.require_bind ((hk v).mpr rfl) hrest.admits
  | honest =>
    obtain rfl := hhint rfl
    refine (Lc.succeeds_alloc v).bind ?_
    rintro s rfl
    exact Circuit.Succeeds.require_bind ((hk v).mpr rfl) hrest.succeeds

theorem ensures_nonzero {a : Lc F F} {v : F} (ha : a.Holds .any v) : (nonzero a).Ensures fun _ => v ≠ 0 := by
  refine Lc.ensures_alloc.bind ?_
  rintro s ⟨w, rfl⟩
  refine Circuit.ensures_require.mono fun _ hw => ?_
  rw [ha.eval_eq, Lc.eval_constant] at hw
  rintro rfl
  rw [zero_mul] at hw
  exact zero_ne_one hw

theorem yields_nonzero {a : Lc F F} {v : F} (ha : a.Holds who v) (hv : v ≠ 0) :
    (nonzero a).Yields who fun _ => True := by
  have hrules : nonzero a = (do
      let inv ← Lc.alloc (a.value.map fun v => v⁻¹)
      product a inv (Lc.constant 1)
      pure ()) := by
    simp only [nonzero, bind_pure_unit]
  rw [hrules]
  refine yields_slot (a := fun _ => a) (b := id) (c := fun _ => Lc.constant 1) (v := v⁻¹) ?_ ?_
    fun _ _ => Circuit.yields_pure trivial
  · intro w
    rw [ha.eval_eq, id, LC.eval_var, Lc.eval_constant, mul_eq_one_iff_inv_eq₀ hv, eq_comm]
  · intro hw
    rw [ha.value_eq hw, Option.map_some]

end Slots

/-! ## Points -/

section Points

def At (c : Scalar × Scalar) (P : p256.Point) : Prop := ∃ h, P = .some c.1 c.2 h

def Point.Holds (p : Point Scalar Scalar) (P : p256.Point) : Prop :=
  ∃ c, At c P ∧ p.x.Holds .any c.1 ∧ p.y.Holds .any c.2

/-- As `Point.Holds`, and for the honest prover the sums carry the coordinates. -/
def Point.HoldsFor (who : Circuit.Prover) (p : Point Scalar Scalar) (P : p256.Point) : Prop :=
  ∃ c, At c P ∧ p.x.Holds who c.1 ∧ p.y.Holds who c.2

/-- What an honest prover holds is worth the same to any prover. -/
theorem Point.HoldsFor.any {p : Point Scalar Scalar} {P : p256.Point} (h : p.HoldsFor .honest P) : p.Holds P := by
  obtain ⟨c, hc, hx, hy⟩ := h
  exact ⟨c, hc, hx.any, hy.any⟩

theorem Point.holdsFor_constant {who : Circuit.Prover} {c : Scalar × Scalar} {P : p256.Point} (h : At c P) :
    (Point.constant c : Point Scalar Scalar).HoldsFor who P :=
  ⟨c, h, Lc.holds_constant c.1, Lc.holds_constant c.2⟩

theorem Point.holds_constant {c : Scalar × Scalar} {P : p256.Point} (h : At c P) :
    (Point.constant c : Point Scalar Scalar).Holds P :=
  ⟨c, h, Lc.holds_constant c.1, Lc.holds_constant c.2⟩

/-- Neither equal nor opposite. -/
structure ApartFrom (P Q : p256.Point) : Prop where
  ne : P ≠ Q
  ne_neg : P ≠ -Q

variable {who : Circuit.Prover} {p q : Point Scalar Scalar} {P Q : p256.Point}

theorem yields_fromSlope {lambda otherX : Lc Scalar Scalar} {l x₁ y₁ x₂ : Scalar} (hl : lambda.Holds who l)
    (hx : p.x.Holds who x₁) (hy : p.y.Holds who y₁) (hother : otherX.Holds who x₂) :
    (fromSlope lambda p otherX).Yields who fun r =>
      r.x.Holds who (onLineX l x₁ x₂) ∧ r.y.Holds who (onLineY l x₁ y₁ (onLineX l x₁ x₂)) := by
  refine yields_slot (a := fun _ => lambda) (b := fun _ => lambda) (c := fun x => x + p.x + otherX)
    (v := onLineX l x₁ x₂) ?_ ?_ fun x hx' => ?_
  · intro w
    rw [Lc.eval_add, Lc.eval_add, hl.eval_eq, hx.eval_eq, hother.eval_eq, LC.eval_var, onLineX]
    exact ⟨fun h => by linear_combination -h, fun h => by linear_combination -h⟩
  · intro hw
    rw [hl.value_eq hw, hx.value_eq hw, hother.value_eq hw]
    rfl
  refine yields_slot (a := fun _ => lambda) (b := fun _ => p.x - x) (c := fun y => y + p.y)
    (v := onLineY l x₁ y₁ (onLineX l x₁ x₂)) ?_ ?_ fun y hy' => Circuit.yields_pure ⟨hx', hy'⟩
  · intro w
    rw [Lc.eval_add, Lc.eval_sub, hl.eval_eq, hx.eval_eq, hy.eval_eq, hx'.eval_eq, LC.eval_var, onLineY]
    exact ⟨fun h => by linear_combination -h, fun h => by linear_combination -h⟩
  · intro hw
    rw [hl.value_eq hw, hx.value_eq hw, hx'.value_eq hw, hy.value_eq hw]
    rfl

/-- The sum of two points with different `x`. -/
theorem yields_add (hp : p.HoldsFor who P) (hq : q.HoldsFor who Q) (h : ApartFrom P Q) :
    (add p q).Yields who (·.HoldsFor who (P + Q)) := by
  obtain ⟨⟨x₁, y₁⟩, ⟨h₁, rfl⟩, hpx, hpy⟩ := hp
  obtain ⟨⟨x₂, y₂⟩, ⟨h₂, rfl⟩, hqx, hqy⟩ := hq
  have hx : x₁ ≠ x₂ := by
    rintro rfl
    rcases WeierstrassCurve.Affine.Y_eq_of_X_eq h₁.1 h₂.1 rfl with hy | hy
    · obtain rfl : y₁ = y₂ := hy
      exact h.ne rfl
    · obtain rfl : y₁ = p256.negY x₁ y₂ := hy
      exact h.ne_neg rfl
  have hdiff : x₂ - x₁ ≠ 0 := sub_ne_zero.mpr fun h => hx h.symm
  have hslope : chord x₁ y₁ x₂ y₂ false false = (y₂ - y₁) / (x₂ - x₁) := by
    simp only [chord, decide_eq_false hx, Bool.or_self, Bool.false_eq_true, if_false]
  have hdx := hqx.sub hpx
  have hdy := hqy.sub hpy
  rw [WeierstrassCurve.Affine.Point.add_of_X_ne hx]
  refine (yields_nonzero hdx hdiff).bind fun _ _ => ?_
  refine yields_slot (a := id) (b := fun _ => q.x - p.x) (c := fun _ => q.y - p.y)
    (v := chord x₁ y₁ x₂ y₂ false false) ?_ ?_ fun lambda hl => ?_
  · intro w
    rw [hdx.eval_eq, hdy.eval_eq, id, LC.eval_var, hslope, eq_div_iff hdiff]
  · intro hw
    rw [hdx.value_eq hw, hdy.value_eq hw, hslope, div_eq_mul_inv]
    rfl
  refine (yields_fromSlope hl hpx hpy hqx).mono fun r hr => ⟨(_, _), ⟨_, rfl⟩, ?_⟩
  show r.x.Holds who (p256.addX x₁ x₂ _) ∧ r.y.Holds who (p256.addY x₁ x₂ y₁ _)
  rw [addX_eq, addY_eq, slope_eq_chord hx]
  exact hr

/-- The rules of an addition are met by no two points with the same `x`. -/
theorem ensures_add (hp : p.Holds P) (hq : q.Holds Q) :
    (add p q).Ensures fun r => ApartFrom P Q ∧ r.Holds (P + Q) := by
  by_cases hapart : ApartFrom P Q
  · exact (yields_add hp hq hapart).ensures.mono fun r hr => ⟨hapart, hr⟩
  obtain ⟨⟨x₁, y₁⟩, ⟨h₁, rfl⟩, hpx, hpy⟩ := hp
  obtain ⟨⟨x₂, y₂⟩, ⟨h₂, rfl⟩, hqx, hqy⟩ := hq
  refine (ensures_nonzero (hqx.sub hpx)).bind fun _ hdiff => absurd ⟨?_, ?_⟩ hapart
  · rintro ⟨⟩
    exact hdiff (sub_self _)
  · rintro ⟨⟩
    exact hdiff (sub_self _)

/-- The double of a point that is not its own negative. -/
theorem yields_double (hp : p.HoldsFor who P) (hP : P + P ≠ 0) : (double p).Yields who (·.HoldsFor who (P + P)) := by
  obtain ⟨⟨x, y⟩, ⟨h, rfl⟩, hpx, hpy⟩ := hp
  have hne : y ≠ p256.negY x y := fun heq => hP (WeierstrassCurve.Affine.Point.add_self_of_Y_eq heq)
  have hy : y + y ≠ 0 := by
    rw [negY_eq] at hne
    exact fun heq => hne (by linear_combination heq)
  have hslope : tangent curveParams.1 x y false = (x * x * 3 - 3) / (y * 2) := by
    have hrise : 3 * x * x + curveParams.1 = x * x * 3 - 3 := by
      simp only [curveParams]
      ring
    rw [tangent, hrise, mul_two]
    rfl
  have hy2 : y * 2 ≠ 0 := by rwa [mul_two]
  rw [WeierstrassCurve.Affine.Point.add_of_Y_ne hne]
  refine (yields_mul hpx hpx).bind fun xx hxx => ?_
  have hrise := (hxx.scale 3).sub (Lc.holds_constant 3)
  have hrun := hpy.scale 2
  refine yields_slot (a := id) (b := fun _ => p.y.scale 2) (c := fun _ => xx.scale 3 - Lc.constant 3)
    (v := tangent curveParams.1 x y false) ?_ ?_ fun lambda hl => ?_
  · intro w
    rw [hrise.eval_eq, hrun.eval_eq, id, LC.eval_var, hslope, eq_div_iff hy2]
  · intro hw
    rw [hrise.value_eq hw, hrun.value_eq hw, hslope, div_eq_mul_inv]
    rfl
  refine (yields_fromSlope hl hpx hpy hpx).mono fun r hr => ⟨(_, _), ⟨_, rfl⟩, ?_⟩
  show r.x.Holds who (p256.addX x x _) ∧ r.y.Holds who (p256.addY x x y _)
  rw [addX_eq, addY_eq, slope_eq_tangent hne]
  exact hr

/-- The rules of a doubling are met by no point with `y = 0`. -/
theorem ensures_double (hp : p.Holds P) : (double p).Ensures fun r => P + P ≠ 0 ∧ r.Holds (P + P) := by
  by_cases hP : P + P ≠ 0
  · exact (yields_double hp hP).ensures.mono fun r hr => ⟨hP, hr⟩
  obtain ⟨⟨x, y⟩, ⟨h, rfl⟩, hpx, hpy⟩ := hp
  have hy : y + y = 0 := by
    by_contra hy
    have hne : y ≠ p256.negY x y := by
      rw [negY_eq]
      exact fun heq => hy (by linear_combination heq)
    rw [WeierstrassCurve.Affine.Point.add_of_Y_ne hne] at hP
    exact hP (WeierstrassCurve.Affine.Point.some_ne_zero _)
  have hrise := AllocatedPoint.rise_ne_zero h hy
  refine (yields_mul hpx hpx).ensures.bind fun xx hxx => ?_
  refine Lc.ensures_alloc.bind ?_
  rintro lambda ⟨w, rfl⟩
  refine Circuit.Ensures.require_bind fun hw => ?_
  rw [Lc.eval_sub, Lc.eval_scale, Lc.eval_scale, hpy.eval_eq, hxx.eval_eq, Lc.eval_constant, LC.eval_var] at hw
  refine absurd ?_ hrise
  simp only [curveParams]
  linear_combination w * hy - hw

theorem yields_choose {bit : Boolean Scalar} {x : Bool} (hbit : bit.Holds who x) (hp : p.HoldsFor who P)
    (hq : q.HoldsFor who Q) : (choose bit p q).Yields who (·.HoldsFor who (if x then Q else P)) := by
  obtain ⟨c, hP, hpx, hpy⟩ := hp
  obtain ⟨d, hQ, hqx, hqy⟩ := hq
  refine (yields_mux (Lc.holds_bit hbit) hpx hqx).bind fun u hu => ?_
  refine (yields_mux (Lc.holds_bit hbit) hpy hqy).bind fun v hv => Circuit.yields_pure ?_
  cases x with
  | false => exact ⟨c, hP, hu, hv⟩
  | true => exact ⟨d, hQ, hu, hv⟩

end Points

/-! ## Multiplication by a scalar -/

section Multiply

variable {who : Circuit.Prover} {p acc : Point Scalar Scalar} {P A : p256.Point}

/-- What the rules of a bit ask of the accumulator. -/
structure BitApart (P acc : p256.Point) : Prop where
  double : acc + acc ≠ 0
  add : ApartFrom (acc + acc) P

/-- What the rules of the bits ask of the accumulator and the point. -/
def BitsApart (P : p256.Point) : p256.Point → List Bool → Prop
  | _, [] => True
  | acc, x :: xs => BitApart P acc ∧ BitsApart P (acc + acc + x.toNat • P) xs

theorem chosen_eq (A P : p256.Point) (x : Bool) : (if x then A + P else A) = A + x.toNat • P := by
  cases x with
  | false => simp
  | true => simp

theorem ensures_multiplyBit {bit : Boolean Scalar} {x : Bool} (hbit : bit.Holds .any x) (hp : p.Holds P)
    (hacc : acc.Holds A) :
    (multiplyBit p acc bit).Ensures fun r => BitApart P A ∧ r.Holds (A + A + x.toNat • P) := by
  refine (ensures_double hacc).bind fun doubled hdoubled => ?_
  refine (ensures_add hdoubled.2 hp).bind fun added hadded => ?_
  refine (yields_choose hbit hdoubled.2 hadded.2).ensures.mono fun r hr => ⟨⟨hdoubled.1, hadded.1⟩, ?_⟩
  rwa [chosen_eq] at hr

theorem yields_multiplyBit {bit : Boolean Scalar} {x : Bool} (hbit : bit.Holds who x) (hp : p.HoldsFor who P)
    (hacc : acc.HoldsFor who A) (h : BitApart P A) :
    (multiplyBit p acc bit).Yields who (·.HoldsFor who (A + A + x.toNat • P)) := by
  refine (yields_double hacc h.double).bind fun doubled hdoubled => ?_
  refine (yields_add hdoubled hp h.add).bind fun added hadded => ?_
  refine (yields_choose hbit hdoubled hadded).mono fun r hr => ?_
  rwa [chosen_eq] at hr

/-- The accumulator after a bit and the others: the start doubled as often, and the multiple read. -/
theorem nsmul_double_add (A P : p256.Point) (x : Bool) (xs : List Bool) :
    2 ^ xs.length • (A + A + x.toNat • P) + beBits xs • P =
      2 ^ (x :: xs).length • A + beBits (x :: xs) • P := by
  have hcons : beBits (x :: xs) = 2 ^ xs.length * x.toNat + beBits xs := by
    have hbit : beBits [x] = x.toNat := by cases x <;> rfl
    rw [← List.singleton_append, beBits_append, hbit]
  rw [hcons, List.length_cons, pow_succ, Nat.mul_two, add_nsmul, add_nsmul, mul_nsmul', nsmul_add, nsmul_add]
  abel

theorem ensures_multiplyBits {bits : List (Boolean Scalar)} {xs : List Bool} (hbits : Boolean.ReadsAll bits xs)
    (hp : p.Holds P) (hacc : acc.Holds A) : (bits.foldlM (multiplyBit p) acc).Ensures fun r =>
      BitsApart P A xs ∧ r.Holds (2 ^ xs.length • A + beBits xs • P) := by
  induction hbits generalizing acc A with
  | nil => exact Circuit.ensures_pure.mpr ⟨trivial, by simpa using hacc⟩
  | cons hbit _ ih =>
    rename_i bit x bits xs _
    rw [List.foldlM_cons]
    refine (ensures_multiplyBit hbit hp hacc).bind fun r hr => (ih hr.2).mono fun s hs => ⟨⟨hr.1, hs.1⟩, ?_⟩
    rw [← nsmul_double_add]
    exact hs.2

theorem yields_multiplyBits {bits : List (Boolean Scalar)} {xs : List Bool} (hbits : Boolean.HoldsAll who bits xs)
    (hp : p.HoldsFor who P) (hacc : acc.HoldsFor who A) (h : BitsApart P A xs) :
    (bits.foldlM (multiplyBit p) acc).Yields who (·.HoldsFor who (2 ^ xs.length • A + beBits xs • P)) := by
  induction hbits generalizing acc A with
  | nil => exact Circuit.yields_pure (by simpa using hacc)
  | cons hbit _ ih =>
    rename_i bit x bits xs _
    rw [List.foldlM_cons, ← nsmul_double_add]
    exact (yields_multiplyBit hbit hp hacc h.1).bind fun r hr => ih hr h.2

end Multiply

/-! ## The fixed points -/

/-- A window's entry is the point of each digit. -/
structure EntriesAt (w : (Scalar × Scalar) × (Scalar × Scalar) × (Scalar × Scalar) × (Scalar × Scalar))
    (point : ℕ → p256.Point) : Prop where
  zero : At w.1 (point 0)
  one : At w.2.1 (point 1)
  two : At w.2.2.1 (point 2)
  three : At w.2.2.2 (point 3)

/-- The constants are the stated multiples: the start and what removes it, each window's entries
`d * 4 ^ i * G + B i`, and what removes the offsets. -/
structure Constants.Hold (c : Constants Scalar) (A : p256.Point) (B : ℕ → p256.Point) : Prop where
  start : At c.start A
  startRemoved : At c.startRemoved (-(2 ^ 256 • A))
  windows : ∀ i (hi : i < c.windows.length), EntriesAt c.windows[i] fun d => (d * 4 ^ i) • generator + B i
  offsetsRemoved : At c.offsetsRemoved (-∑ i ∈ Finset.range 128, B i)

section Fixed

variable {who : Circuit.Prover} {c : Constants Scalar} {A : p256.Point} {B : ℕ → p256.Point}

/-- What the rules of a multiplication ask of the start and the point. -/
structure MultiplyApart (A P : p256.Point) (xs : List Bool) : Prop where
  bits : BitsApart P A xs
  last : ApartFrom (2 ^ 256 • A + beBits xs • P) (-(2 ^ 256 • A))

theorem ensures_multiply (hc : c.Hold A B) {bits : List (Boolean Scalar)} {xs : List Bool}
    (hbits : Boolean.ReadsAll bits xs) (hlen : xs.length = 256) {p : Point Scalar Scalar} {P : p256.Point}
    (hp : p.Holds P) :
    (multiply c bits p).Ensures fun r => MultiplyApart A P xs ∧ r.Holds (beBits xs • P) := by
  refine Circuit.ensures_assert.bind fun _ _ => ?_
  refine (ensures_multiplyBits hbits hp (Point.holds_constant hc.start)).bind fun acc hacc => ?_
  rw [hlen] at hacc
  refine (ensures_add hacc.2 (Point.holds_constant hc.startRemoved)).mono fun r hr => ⟨⟨hacc.1, hr.1⟩, ?_⟩
  rw [add_neg_cancel_comm] at hr
  exact hr.2

theorem yields_multiply (hc : c.Hold A B) {bits : List (Boolean Scalar)} {xs : List Bool}
    (hbits : Boolean.HoldsAll who bits xs) (hlen : xs.length = 256) {p : Point Scalar Scalar} {P : p256.Point}
    (hp : p.HoldsFor who P) (h : MultiplyApart A P xs) :
    (multiply c bits p).Yields who (·.HoldsFor who (beBits xs • P)) := by
  refine (Circuit.yields_assert (hbits.reads.length_eq.trans hlen)).bind fun _ _ => ?_
  refine (yields_multiplyBits hbits hp (Point.holdsFor_constant hc.start) h.bits).bind fun acc hacc => ?_
  rw [hlen] at hacc
  refine (yields_add hacc (Point.holdsFor_constant hc.startRemoved) h.last).mono fun r hr => ?_
  rwa [add_neg_cancel_comm] at hr

theorem holds_coordinateOf {low high both : Lc Scalar Scalar} {l h : Bool} (hlow : low.Holds who (ofBool l))
    (hhigh : high.Holds who (ofBool h)) (hboth : both.Holds who (ofBool (h && l))) (c0 c1 c2 c3 : Scalar) :
    (coordinateOf low high both c0 c1 c2 c3).Holds who
      (if h then if l then c3 else c2 else if l then c1 else c0) := by
  have hsum := (((Lc.holds_constant c0).add (hlow.scale (c1 - c0))).add (hhigh.scale (c2 - c0))).add
    (hboth.scale (c3 - c2 - c1 + c0))
  have hvalue : (if h then if l then c3 else c2 else if l then c1 else c0) =
      c0 + ofBool l * (c1 - c0) + ofBool h * (c2 - c0) + ofBool (h && l) * (c3 - c2 - c1 + c0) := by
    cases h <;> cases l <;> simp [ofBool]
    ring
  rw [hvalue]
  exact hsum

theorem EntriesAt.holds {w : (Scalar × Scalar) × (Scalar × Scalar) × (Scalar × Scalar) × (Scalar × Scalar)}
    {point : ℕ → p256.Point} (hw : EntriesAt w point) {low high both : Lc Scalar Scalar} {l h : Bool}
    (hlow : low.Holds who (ofBool l)) (hhigh : high.Holds who (ofBool h))
    (hboth : both.Holds who (ofBool (h && l))) :
    Point.HoldsFor who ⟨coordinateOf low high both w.1.1 w.2.1.1 w.2.2.1.1 w.2.2.2.1,
      coordinateOf low high both w.1.2 w.2.1.2 w.2.2.1.2 w.2.2.2.2⟩ (point (2 * h.toNat + l.toNat)) := by
  have hx := holds_coordinateOf hlow hhigh hboth w.1.1 w.2.1.1 w.2.2.1.1 w.2.2.2.1
  have hy := holds_coordinateOf hlow hhigh hboth w.1.2 w.2.1.2 w.2.2.1.2 w.2.2.2.2
  cases h with
  | false =>
    cases l with
    | false => exact ⟨_, hw.zero, hx, hy⟩
    | true => exact ⟨_, hw.one, hx, hy⟩
  | true =>
    cases l with
    | false => exact ⟨_, hw.two, hx, hy⟩
    | true => exact ⟨_, hw.three, hx, hy⟩

theorem beBits_drop {xs : List Bool} {m : ℕ} (hm : m ≤ xs.length) :
    beBits (xs.drop (xs.length - m)) = beBits xs % 2 ^ m := by
  have hrest : (xs.drop (xs.length - m)).length = m := by
    rw [List.length_drop]
    omega
  have hsplit := beBits_append (xs.take (xs.length - m)) (xs.drop (xs.length - m))
  rw [List.take_append_drop, hrest] at hsplit
  have hlt := beBits_lt (xs.drop (xs.length - m))
  rw [hrest] at hlt
  rw [hsplit, Nat.mul_add_mod, Nat.mod_eq_of_lt hlt]

theorem beBits_drop_windows {xs : List Bool} (hlen : xs.length = 256) {i : ℕ} (hi : i ≤ 128) :
    beBits (xs.drop (256 - 2 * i)) = beBits xs % 4 ^ i := by
  have hdrop : beBits (xs.drop (xs.length - 2 * i)) = beBits xs % 2 ^ (2 * i) := beBits_drop (by omega)
  rw [hlen, pow_mul] at hdrop
  exact hdrop

theorem beBits_drop_window {xs : List Bool} (hlen : xs.length = 256) {i : ℕ} (hi : i < 128) {h l : Bool}
    (hhigh : xs[254 - 2 * i]? = some h) (hlow : xs[255 - 2 * i]? = some l) :
    beBits (xs.drop (256 - 2 * (i + 1))) =
      (2 * h.toNat + l.toNat) * 4 ^ i + beBits (xs.drop (256 - 2 * i)) := by
  have hsplit : xs.drop (254 - 2 * i) = [h, l] ++ xs.drop (256 - 2 * i) := by
    obtain ⟨hltHigh, rfl⟩ := List.getElem?_eq_some_iff.mp hhigh
    obtain ⟨hltLow, rfl⟩ := List.getElem?_eq_some_iff.mp hlow
    rw [List.drop_eq_getElem_cons hltHigh, show 254 - 2 * i + 1 = 255 - 2 * i by omega,
      List.drop_eq_getElem_cons hltLow, show 255 - 2 * i + 1 = 256 - 2 * i by omega]
    rfl
  have hdigit : beBits [h, l] = 2 * h.toNat + l.toNat := by
    cases h <;> cases l <;> rfl
  have hrest : (xs.drop (256 - 2 * i)).length = 2 * i := by
    rw [List.length_drop, hlen]
    omega
  rw [show 256 - 2 * (i + 1) = 254 - 2 * i by omega, hsplit, beBits_append, hdigit, hrest, pow_mul, Nat.mul_comm]
  rfl

theorem window_digit {xs : List Bool} (hlen : xs.length = 256) {i : ℕ} (hi : i < 128) {h l : Bool}
    (hhigh : xs[254 - 2 * i]? = some h) (hlow : xs[255 - 2 * i]? = some l) :
    beBits xs % 4 ^ (i + 1) = (2 * h.toNat + l.toNat) * 4 ^ i + beBits xs % 4 ^ i := by
  have hdigits := beBits_drop_window hlen hi hhigh hlow
  rwa [beBits_drop_windows hlen hi, beBits_drop_windows hlen hi.le] at hdigits

/-- The sum of the windows before `i` and the entry of window `i`. -/
def WindowApart (B : ℕ → p256.Point) (z i : ℕ) : Prop :=
  ApartFrom ((z % 4 ^ i) • generator + ∑ j ∈ Finset.range i, B j)
    ((z % 4 ^ (i + 1) - z % 4 ^ i) • generator + B i)

/-- What the rules of the generator's multiplication ask of the scalar and the offsets. -/
structure GeneratorApart (B : ℕ → p256.Point) (z : ℕ) : Prop where
  windows : ∀ i < 128, 0 < i → WindowApart B z i
  last : ApartFrom (z • generator + ∑ j ∈ Finset.range 128, B j) (-∑ j ∈ Finset.range 128, B j)

/-- The running sum of the windows: none before the first, and then the multiple and the offsets. -/
def WindowsInv (who : Circuit.Prover) (B : ℕ → p256.Point) (z i : ℕ) : Option (Point Scalar Scalar) → Prop
  | none => i = 0
  | some p => 0 < i ∧ p.HoldsFor who ((z % 4 ^ i) • generator + ∑ j ∈ Finset.range i, B j)

/-- The entry of a window, before it is added. -/
def windowEntry (bits : List (Boolean Scalar))
    (t : ((Scalar × Scalar) × (Scalar × Scalar) × (Scalar × Scalar) × (Scalar × Scalar)) × ℕ) :
    Circuit Scalar Scalar (Point Scalar Scalar) := do
  let highBit ← bitOf bits (254 - 2 * t.2)
  let lowBit ← bitOf bits (255 - 2 * t.2)
  let high := Lc.bit highBit
  let low := Lc.bit lowBit
  let both ← mul high low
  pure ⟨coordinateOf low high both t.1.1.1 t.1.2.1.1 t.1.2.2.1.1 t.1.2.2.2.1,
    coordinateOf low high both t.1.1.2 t.1.2.1.2 t.1.2.2.1.2 t.1.2.2.2.2⟩

theorem generatorWindow_eq (bits : List (Boolean Scalar)) (sum : Option (Point Scalar Scalar))
    (t : ((Scalar × Scalar) × (Scalar × Scalar) × (Scalar × Scalar) × (Scalar × Scalar)) × ℕ) :
    generatorWindow bits sum t = (do
      let entry ← windowEntry bits t
      let sum ← addEntry sum entry
      pure (some sum)) := by
  simp only [generatorWindow, windowEntry, bind_assoc, pure_bind]

theorem yields_bitOf {bits : List (Boolean Scalar)} {xs : List Bool} (hbits : Boolean.HoldsAll who bits xs) {i : ℕ}
    (hi : i < xs.length) :
    (bitOf bits i : Circuit Scalar Scalar _).Yields who fun b => ∃ x, xs[i]? = some x ∧ b.Holds who x := by
  have hi' : i < bits.length := hbits.length_eq ▸ hi
  rw [bitOf, List.getElem?_eq_getElem hi']
  exact Circuit.yields_pure ⟨xs[i], List.getElem?_eq_getElem hi, (List.forall₂_iff_get.mp hbits).2 i hi' hi⟩

theorem yields_windowEntry {w : (Scalar × Scalar) × (Scalar × Scalar) × (Scalar × Scalar) × (Scalar × Scalar)}
    {i : ℕ} (hw : EntriesAt w fun d => (d * 4 ^ i) • generator + B i) {bits : List (Boolean Scalar)} {xs : List Bool}
    (hbits : Boolean.HoldsAll who bits xs) (hlen : xs.length = 256) (hi : i < 128) :
    (windowEntry bits (w, i)).Yields who
      (·.HoldsFor who ((beBits xs % 4 ^ (i + 1) - beBits xs % 4 ^ i) • generator + B i)) := by
  refine (yields_bitOf hbits (by omega)).bind fun highBit hhigh => ?_
  refine (yields_bitOf hbits (by omega)).bind fun lowBit hlow => ?_
  obtain ⟨h, hxh, hhigh⟩ := hhigh
  obtain ⟨l, hxl, hlow⟩ := hlow
  have hhigh := Lc.holds_bit (F := Scalar) hhigh
  have hlow := Lc.holds_bit (F := Scalar) hlow
  refine (yields_mul hhigh hlow).bind fun both hboth => Circuit.yields_pure ?_
  rw [ofBool_mul] at hboth
  rw [window_digit hlen hi hxh hxl, Nat.add_sub_cancel]
  exact hw.holds hlow hhigh hboth

theorem sum_window_eq (B : ℕ → p256.Point) (z i : ℕ) :
    ((z % 4 ^ i) • generator + ∑ j ∈ Finset.range i, B j) + ((z % 4 ^ (i + 1) - z % 4 ^ i) • generator + B i) =
      (z % 4 ^ (i + 1)) • generator + ∑ j ∈ Finset.range (i + 1), B j := by
  have hle : z % 4 ^ i ≤ z % 4 ^ (i + 1) := by
    rw [← Nat.mod_mod_of_dvd z (Dvd.intro 4 (pow_succ 4 i).symm)]
    exact Nat.mod_le _ _
  rw [Finset.sum_range_succ, add_add_add_comm, ← add_nsmul, Nat.add_sub_cancel' hle]

theorem ensures_generatorWindow {w : (Scalar × Scalar) × (Scalar × Scalar) × (Scalar × Scalar) × (Scalar × Scalar)}
    {i : ℕ} (hw : EntriesAt w fun d => (d * 4 ^ i) • generator + B i) {bits : List (Boolean Scalar)} {xs : List Bool}
    (hbits : Boolean.ReadsAll bits xs) (hlen : xs.length = 256) (hi : i < 128)
    {sum : Option (Point Scalar Scalar)} (hsum : WindowsInv .any B (beBits xs) i sum) :
    (generatorWindow bits sum (w, i)).Ensures fun s =>
      (0 < i → WindowApart B (beBits xs) i) ∧ WindowsInv .any B (beBits xs) (i + 1) s := by
  rw [generatorWindow_eq]
  refine (Circuit.Yields.ensures (yields_windowEntry hw hbits hlen hi)).bind fun entry hentry => ?_
  cases sum with
  | none =>
    obtain rfl : i = 0 := hsum
    refine Circuit.ensures_pure.mpr ⟨fun h => absurd h (lt_irrefl 0), zero_lt_one, ?_⟩
    simpa [Nat.mod_one] using hentry
  | some p =>
    refine (ensures_add hsum.2 hentry).bind fun s hs => Circuit.ensures_pure.mpr ⟨fun _ => hs.1, i.succ_pos, ?_⟩
    rw [← sum_window_eq]
    exact hs.2

theorem yields_generatorWindow {w : (Scalar × Scalar) × (Scalar × Scalar) × (Scalar × Scalar) × (Scalar × Scalar)}
    {i : ℕ} (hw : EntriesAt w fun d => (d * 4 ^ i) • generator + B i) {bits : List (Boolean Scalar)} {xs : List Bool}
    (hbits : Boolean.HoldsAll who bits xs) (hlen : xs.length = 256) (hi : i < 128)
    {sum : Option (Point Scalar Scalar)} (hsum : WindowsInv who B (beBits xs) i sum)
    (h : 0 < i → WindowApart B (beBits xs) i) :
    (generatorWindow bits sum (w, i)).Yields who (WindowsInv who B (beBits xs) (i + 1)) := by
  rw [generatorWindow_eq]
  refine (yields_windowEntry hw hbits hlen hi).bind fun entry hentry => ?_
  cases sum with
  | none =>
    obtain rfl : i = 0 := hsum
    refine Circuit.yields_pure ⟨zero_lt_one, ?_⟩
    simpa [Nat.mod_one] using hentry
  | some p =>
    refine (yields_add hsum.2 hentry (h hsum.1)).bind fun s hs => Circuit.yields_pure ⟨i.succ_pos, ?_⟩
    rwa [← sum_window_eq]

theorem beBits_mod_windows {xs : List Bool} (hlen : xs.length = 256) : beBits xs % 4 ^ 128 = beBits xs := by
  have hlt := beBits_lt xs
  rw [hlen] at hlt
  exact Nat.mod_eq_of_lt (hlt.trans_le (by decide))

theorem ensures_multiplyGenerator (hc : c.Hold A B) {bits : List (Boolean Scalar)} {xs : List Bool}
    (hbits : Boolean.ReadsAll bits xs) (hlen : xs.length = 256) :
    (multiplyGenerator c bits).Ensures fun r => GeneratorApart B (beBits xs) ∧ r.Holds (beBits xs • generator) := by
  refine Circuit.ensures_assert.bind fun _ _ => ?_
  have hloop : (c.windows.zipIdx.foldlM (generatorWindow bits) none).Ensures fun s =>
      (∀ i < c.windows.zipIdx.length, 0 < i → WindowApart B (beBits xs) i) ∧
        WindowsInv .any B (beBits xs) c.windows.zipIdx.length s := by
    refine Circuit.Ensures.foldlM (fun n s => (∀ i < n, 0 < i → WindowApart B (beBits xs) i) ∧
      WindowsInv .any B (beBits xs) n s) ⟨fun i hi => absurd hi (Nat.not_lt_zero i), rfl⟩ fun i hi sum hsum => ?_
    rw [List.length_zipIdx] at hi
    rw [List.getElem_zipIdx, Nat.zero_add]
    have hwindow := ensures_generatorWindow (hc.windows i hi) hbits hlen (by rwa [c.length_windows] at hi) hsum.2
    refine hwindow.mono fun s hs => ⟨fun j hj hpos => ?_, hs.2⟩
    rcases Nat.lt_succ_iff_lt_or_eq.mp hj with hj | rfl
    · exact hsum.1 j hj hpos
    · exact hs.1 hpos
  rw [List.length_zipIdx, c.length_windows] at hloop
  refine hloop.bind fun sum hsum => ?_
  cases sum with
  | none => cases hsum.2
  | some p =>
    have hp := hsum.2.2
    rw [beBits_mod_windows hlen] at hp
    refine (ensures_add hp (Point.holds_constant hc.offsetsRemoved)).mono fun r hr => ⟨⟨hsum.1, hr.1⟩, ?_⟩
    rw [add_neg_cancel_right] at hr
    exact hr.2

theorem yields_multiplyGenerator (hc : c.Hold A B) {bits : List (Boolean Scalar)} {xs : List Bool}
    (hbits : Boolean.HoldsAll who bits xs) (hlen : xs.length = 256) (h : GeneratorApart B (beBits xs)) :
    (multiplyGenerator c bits).Yields who (·.HoldsFor who (beBits xs • generator)) := by
  refine (Circuit.yields_assert (hbits.length_eq.trans hlen)).bind fun _ _ => ?_
  have hloop : (c.windows.zipIdx.foldlM (generatorWindow bits) none).Yields who
      (WindowsInv who B (beBits xs) c.windows.zipIdx.length) := by
    refine Circuit.Yields.foldlM (WindowsInv who B (beBits xs)) rfl fun i hi sum hsum => ?_
    rw [List.length_zipIdx, c.length_windows] at hi
    rw [List.getElem_zipIdx, Nat.zero_add]
    exact yields_generatorWindow (hc.windows i _) hbits hlen hi hsum (h.windows i hi)
  rw [List.length_zipIdx, c.length_windows] at hloop
  refine hloop.bind fun sum hsum => ?_
  cases sum with
  | none => cases hsum
  | some p =>
    have hp := hsum.2
    rw [beBits_mod_windows hlen] at hp
    refine (yields_add hp (Point.holdsFor_constant hc.offsetsRemoved) h.last).mono fun r hr => ?_
    rwa [add_neg_cancel_right] at hr

end Fixed

end ZkCredVega.Nym
