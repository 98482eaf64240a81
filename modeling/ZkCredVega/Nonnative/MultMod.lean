import ZkCredVega.Nonnative.Carry
import ZkCredVega.Ecc.Generator

/-!
# Multiplication modulo a number

`mult_mod` and `red_mod` of `nonnative/bignat.rs` at the limbs of `ecdsa.rs`: whatever the assignment, the
quotient and the remainder divide over the integers, and the honest prover always finds them.
-/

namespace ZkCredVega.Nonnative

open Circuits

/-! ## The parameters of the signature check -/

def limbWidth : ℕ := 64

def nLimbs : ℕ := 4

/-- The bound of a limb of `q * m + r`. -/
def productWord : ℕ := 4 * (2 ^ 64 - 1) * (2 ^ 64 - 1) + (2 ^ 64 - 1)

theorem grouping_product : Grouping productWord 64 2 67 :=
  ⟨by decide +kernel, by decide, by decide +kernel, by decide +kernel, by decide +kernel, by decide +kernel,
    by decide, by decide⟩

theorem grouping_limb : Grouping (2 ^ 64 - 1) 64 3 1 :=
  ⟨by decide +kernel, by decide, by decide +kernel, by decide +kernel, by decide +kernel, by decide +kernel,
    by decide, by decide⟩

section Exact

variable {F : Type} [Field F] [ToRepr F] {who : Circuit.Prover}

/-- A number of four limbs of 64 bits, as the signature check allocates them. -/
structure BigNat.WellFormed (who : Circuit.Prover) (a : BigNat F F) (ns : List ℕ) : Prop where
  holds : a.Holds who ns
  length_eq : ns.length = nLimbs
  lt : ∀ n ∈ ns, n < 2 ^ limbWidth
  params : a.params = .new limbWidth nLimbs

namespace BigNat.WellFormed

variable {a : BigNat F F} {ns : List ℕ} (h : a.WellFormed who ns)

include h

omit [ToRepr F] in
theorem width : a.params.limbWidth = 64 := by
  rw [h.params]
  rfl

omit [ToRepr F] in
theorem maxWord : a.params.maxWord = 2 ^ 64 - 1 := by
  rw [h.params]
  rfl

omit [ToRepr F] in
theorem limbs_length : a.limbs.length = 4 := by
  rw [h.holds.length_eq, h.length_eq]
  rfl

omit [ToRepr F] in
theorem nBits : a.nBits = 256 := by
  rw [BigNat.nBits, h.params]
  decide +kernel

omit [ToRepr F] in
theorem minBits : a.params.minBits = 0 := by
  rw [h.params]
  rfl

omit [ToRepr F] in
theorem value (hw : who = .honest) : a.value = some (evalList (2 ^ 64) ns) := by
  have hvalue := h.holds.value hw
  rwa [h.width] at hvalue

omit [ToRepr F] in
theorem evalList_lt_pow : evalList (2 ^ 64) ns < 2 ^ 256 := by
  have hlt := evalList_lt h.lt
  rw [h.length_eq] at hlt
  exact hlt

end BigNat.WellFormed

section Right

variable {q m r : BigNat F F} {qs ps rs : List ℕ} {w : ℕ}

omit [ToRepr F] in
theorem le_rightSide (hq : q.Holds who qs) (hm : m.Holds who ps) (hr : r.Holds who rs) :
    ∀ z ∈ Poly.addLists (Poly.conv qs ps) rs,
      z ≤ min q.limbs.length m.limbs.length * q.params.maxWord * m.params.maxWord + r.params.maxWord := by
  rw [hq.length_eq, hm.length_eq]
  exact addLists_le (conv_le hq.le hm.le) hr.le

theorem ensures_rightSide [LargeChar F] [LawfulToRepr F] (hq : q.Holds .any qs) (hm : m.Holds .any ps)
    (hr : r.Holds .any rs) (hsmall : qs.length + ps.length < 2 ^ 254)
    (hM : min q.limbs.length m.limbs.length * q.params.maxWord * m.params.maxWord + r.params.maxWord < 2 ^ 255) :
    (BigNat.rightSide q m r w).Ensures fun right => right.Holds .any (Poly.addLists (Poly.conv qs ps) rs) ∧
      right.params.limbWidth = w ∧ right.params.maxWord =
        min q.limbs.length m.limbs.length * q.params.maxWord * m.params.maxWord + r.params.maxWord := by
  refine (ensures_allocProduct hq.poly hm.poly hsmall).bind fun product hproduct => Circuit.ensures_pure.mpr ?_
  exact ⟨BigNat.holds_fromPoly (hproduct.sum hr.poly) (le_rightSide hq hm hr) hM, rfl, rfl⟩

theorem succeeds_rightSide [LawfulToRepr F] (hq : q.Holds .honest qs) (hm : m.Holds .honest ps)
    (hr : r.Holds .honest rs)
    (hM : min q.limbs.length m.limbs.length * q.params.maxWord * m.params.maxWord + r.params.maxWord < 2 ^ 255) :
    (BigNat.rightSide q m r w).Succeeds fun right => right.Holds .honest (Poly.addLists (Poly.conv qs ps) rs) ∧
      right.params.limbWidth = w ∧ right.params.maxWord =
        min q.limbs.length m.limbs.length * q.params.maxWord * m.params.maxWord + r.params.maxWord := by
  refine (succeeds_allocProduct hq.poly hm.poly).bind fun product hproduct => Circuit.succeeds_pure.mpr ?_
  exact ⟨BigNat.holds_fromPoly (hproduct.sum hr.poly) (le_rightSide hq hm hr) hM, rfl, rfl⟩

omit [ToRepr F] in
theorem rightWord_eq {k : ℕ} (hk : 4 ≤ k) (hq : q.Holds who qs) (hqlen : qs.length = k) (hqp : q.params = .new 64 k)
    (hm : m.WellFormed who ps) (hrp : r.params = .new 64 4) :
    min q.limbs.length m.limbs.length * q.params.maxWord * m.params.maxWord + r.params.maxWord = productWord := by
  rw [hq.length_eq, hqlen, hm.limbs_length, Nat.min_eq_right hk, hm.maxWord, hqp, hrp]
  rfl

end Right

variable {a b m : BigNat F F} {ns ms ps : List ℕ}

theorem productWord_lt : productWord < 2 ^ 255 := by decide +kernel

/-- Any satisfying assignment divides the product. -/
theorem ensures_multMod [LargeChar F] [LawfulToRepr F] (ha : a.WellFormed .any ns) (hb : b.WellFormed .any ms)
    (hm : m.WellFormed .any ps) :
    (a.multMod b m).Ensures fun t => ∃ qs rs : List ℕ, t.1.Holds .any qs ∧ t.2.WellFormed .any rs ∧
      (∀ n ∈ qs, n < 2 ^ 64) ∧
      evalList (2 ^ 64) ns * evalList (2 ^ 64) ms =
        evalList (2 ^ 64) qs * evalList (2 ^ 64) ps + evalList (2 ^ 64) rs := by
  unfold BigNat.multMod
  dsimp only
  rw [if_pos (ha.width.trans hb.width.symm), ha.width, ha.nBits, hb.nBits, hm.minBits, hm.limbs_length]
  refine (ensures_allocChecked (by decide)).bind fun q hq => ?_
  obtain ⟨qs, hqlen, hq, hqp, hqlt⟩ := hq
  refine (ensures_allocChecked (by decide)).bind fun r hr => ?_
  obtain ⟨rs, hrlen, hr, hrp, hrlt⟩ := hr
  have hfour : ns.length = 4 := ha.length_eq
  have hfour' : ms.length = 4 := hb.length_eq
  have hfour'' : ps.length = 4 := hm.length_eq
  refine (ensures_allocProduct ha.holds.poly hb.holds.poly (by omega)).bind fun left hleft => ?_
  have hword := rightWord_eq (by decide) hq hqlen hqp hm hrp
  refine (ensures_rightSide hq hm.holds hr (by omega) (by rw [hword]; exact productWord_lt)).bind fun right hright => ?_
  obtain ⟨hright, hrightWidth, hrightWord⟩ := hright
  rw [hword] at hrightWord
  have hleftLe := conv_le ha.holds.le hb.holds.le
  rw [ha.limbs_length, hb.limbs_length]
  rw [hfour, hfour'] at hleftLe
  have hleftWord : min 4 4 * a.params.maxWord * b.params.maxWord ≤ productWord := by
    rw [ha.maxWord, hb.maxWord]
    decide +kernel
  have hleftHolds := BigNat.holds_fromPoly (w := 64) hleft hleftLe (lt_of_le_of_lt hleftWord productWord_lt)
  refine (ensures_regroup grouping_product hleftHolds hright rfl hrightWidth ?_).bind fun _ heq =>
    Circuit.ensures_pure.mpr ?_
  · rw [hrightWord]
    exact max_eq_right hleftWord
  · rw [evalList_conv, evalList_addLists, evalList_conv] at heq
    exact ⟨qs, rs, hq, ⟨hr, hrlen, hrlt, hrp⟩, hqlt, heq⟩

theorem ensures_redMod [LargeChar F] [LawfulToRepr F] (ha : a.WellFormed .any ns) (hm : m.WellFormed .any ps) :
    (a.redMod m).Ensures fun t => ∃ qs rs : List ℕ, t.1.Holds .any qs ∧ t.2.WellFormed .any rs ∧
      (∀ n ∈ qs, n < 2 ^ 64) ∧
      evalList (2 ^ 64) ns = evalList (2 ^ 64) qs * evalList (2 ^ 64) ps + evalList (2 ^ 64) rs := by
  unfold BigNat.redMod
  dsimp only
  rw [if_pos (ha.width.trans hm.width.symm), ha.width, ha.nBits, hm.minBits, hm.limbs_length]
  refine (ensures_allocChecked (by decide)).bind fun q hq => ?_
  obtain ⟨qs, hqlen, hq, hqp, hqlt⟩ := hq
  refine (ensures_allocChecked (by decide)).bind fun r hr => ?_
  obtain ⟨rs, hrlen, hr, hrp, hrlt⟩ := hr
  have hfour'' : ps.length = 4 := hm.length_eq
  have hword := rightWord_eq (by decide) hq hqlen hqp hm hrp
  refine (ensures_rightSide hq hm.holds hr (by omega) (by rw [hword]; exact productWord_lt)).bind fun right hright => ?_
  obtain ⟨hright, hrightWidth, hrightWord⟩ := hright
  rw [hword] at hrightWord
  refine (ensures_regroup grouping_product ha.holds hright ha.width hrightWidth ?_).bind fun _ heq =>
    Circuit.ensures_pure.mpr ?_
  · rw [hrightWord, ha.maxWord]
    decide +kernel
  · rw [evalList_addLists, evalList_conv] at heq
    exact ⟨qs, rs, hq, ⟨hr, hrlen, hrlt, hrp⟩, hqlt, heq⟩

theorem ensures_equal [LargeChar F] (ha : a.WellFormed .any ns) (hb : b.WellFormed .any ms) :
    (a.equalWhenCarriedRegroup b).Ensures fun _ => evalList (2 ^ 64) ns = evalList (2 ^ 64) ms := by
  refine ensures_regroup grouping_limb ha.holds hb.holds ha.width hb.width ?_
  rw [ha.maxWord, hb.maxWord, max_self]

/-! ## The honest prover -/

variable [LawfulToRepr F]

theorem succeeds_multMod (ha : a.WellFormed .honest ns) (hb : b.WellFormed .honest ms) (hm : m.WellFormed .honest ps)
    (hpos : 0 < evalList (2 ^ 64) ps) :
    (a.multMod b m).Succeeds fun t =>
      t.1.Holds .honest (limbsOf (evalList (2 ^ 64) ns * evalList (2 ^ 64) ms / evalList (2 ^ 64) ps) 64 8) ∧
      t.2.Holds .honest (limbsOf (evalList (2 ^ 64) ns * evalList (2 ^ 64) ms % evalList (2 ^ 64) ps) 64 4) := by
  have hx := ha.evalList_lt_pow
  have hy := hb.evalList_lt_pow
  have hz := hm.evalList_lt_pow
  have hxy : evalList (2 ^ 64) ns * evalList (2 ^ 64) ms < 2 ^ (64 * 8) := by
    have hmul := Nat.mul_lt_mul'' hx hy
    rwa [← pow_add] at hmul
  unfold BigNat.multMod
  dsimp only
  rw [if_pos (ha.width.trans hb.width.symm), ha.width, ha.nBits, hb.nBits, hm.minBits, hm.limbs_length,
    ha.value rfl, hb.value rfl, hm.value rfl]
  refine (succeeds_allocChecked (v := evalList (2 ^ 64) ns * evalList (2 ^ 64) ms / evalList (2 ^ 64) ps) (by decide)
    (by decide) (lt_of_le_of_lt (Nat.div_le_self _ _) hxy)).bind fun q hq => ?_
  obtain ⟨hq, hqp⟩ := hq
  have hrem : evalList (2 ^ 64) ns * evalList (2 ^ 64) ms % evalList (2 ^ 64) ps < 2 ^ (64 * 4) :=
    lt_trans (Nat.mod_lt _ hpos) hz
  refine (succeeds_allocChecked (v := evalList (2 ^ 64) ns * evalList (2 ^ 64) ms % evalList (2 ^ 64) ps) (by decide)
    (by decide) hrem).bind fun r hr => ?_
  obtain ⟨hr, hrp⟩ := hr
  refine (succeeds_allocProduct ha.holds.poly hb.holds.poly).bind fun left hleft => ?_
  have hqlen := length_limbsOf (evalList (2 ^ 64) ns * evalList (2 ^ 64) ms / evalList (2 ^ 64) ps) 64 8
  have hword := rightWord_eq (by decide) hq hqlen hqp hm hrp
  refine (succeeds_rightSide hq hm.holds hr (by rw [hword]; exact productWord_lt)).bind fun right hright => ?_
  obtain ⟨hright, hrightWidth, hrightWord⟩ := hright
  rw [hword] at hrightWord
  have hfour : ns.length = 4 := ha.length_eq
  have hfour' : ms.length = 4 := hb.length_eq
  have hleftLe := conv_le ha.holds.le hb.holds.le
  rw [ha.limbs_length, hb.limbs_length]
  rw [hfour, hfour'] at hleftLe
  have hleftWord : min 4 4 * a.params.maxWord * b.params.maxWord ≤ productWord := by
    rw [ha.maxWord, hb.maxWord]
    decide +kernel
  have hleftHolds := BigNat.holds_fromPoly (w := 64) hleft hleftLe (lt_of_le_of_lt hleftWord productWord_lt)
  have hleftLen : (Poly.conv ns ms).length = 7 := by rw [length_conv, hfour, hfour']
  have hvalue : evalList (2 ^ 64) (Poly.conv ns ms) = evalList (2 ^ 64) ns * evalList (2 ^ 64) ms := evalList_conv _ _ _
  have hrightLen : 11 ≤ (Poly.addLists (Poly.conv (limbsOf (evalList (2 ^ 64) ns * evalList (2 ^ 64) ms /
      evalList (2 ^ 64) ps) 64 8) ps) (limbsOf (evalList (2 ^ 64) ns * evalList (2 ^ 64) ms % evalList (2 ^ 64) ps) 64
        4)).length := by
    rw [Poly.addLists, List.length_map, List.length_range, length_conv, hqlen, show ps.length = 4 from hm.length_eq]
    exact le_max_left _ _
  refine (succeeds_regroup grouping_product hleftHolds hright rfl hrightWidth ?_ ?_ ?_ ?_).bind fun _ _ =>
    Circuit.succeeds_pure.mpr ⟨hq, hr⟩
  · rw [hrightWord]
    exact max_eq_right hleftWord
  · rw [hvalue, evalList_addLists, evalList_conv, evalList_limbsOf (lt_of_le_of_lt (Nat.div_le_self _ _) hxy),
      evalList_limbsOf hrem, Nat.mul_comm, Nat.mul_comm _ (evalList (2 ^ 64) ps), Nat.div_add_mod, Nat.mul_comm]
  · rw [hleftLen]
    omega
  · have hpow : (2 ^ (64 * 2)) ^ ((7 - 1) / 2 + 1) = 2 ^ (64 * 8) := (pow_mul _ _ _).symm
    rw [hvalue, hleftLen, hpow]
    exact hxy

theorem succeeds_redMod (ha : a.WellFormed .honest ns) (hm : m.WellFormed .honest ps)
    (hpos : 0 < evalList (2 ^ 64) ps) :
    (a.redMod m).Succeeds fun t =>
      t.1.Holds .honest (limbsOf (evalList (2 ^ 64) ns / evalList (2 ^ 64) ps) 64 4) ∧
      t.2.Holds .honest (limbsOf (evalList (2 ^ 64) ns % evalList (2 ^ 64) ps) 64 4) := by
  have hx : evalList (2 ^ 64) ns < 2 ^ (64 * 4) := ha.evalList_lt_pow
  have hz := hm.evalList_lt_pow
  unfold BigNat.redMod
  dsimp only
  rw [if_pos (ha.width.trans hm.width.symm), ha.width, ha.nBits, hm.minBits, hm.limbs_length, ha.value rfl, hm.value rfl]
  refine (succeeds_allocChecked (v := evalList (2 ^ 64) ns / evalList (2 ^ 64) ps) (by decide)
    (by decide) (lt_of_le_of_lt (Nat.div_le_self _ _) hx)).bind fun q hq => ?_
  obtain ⟨hq, hqp⟩ := hq
  have hrem : evalList (2 ^ 64) ns % evalList (2 ^ 64) ps < 2 ^ (64 * 4) := lt_trans (Nat.mod_lt _ hpos) hz
  refine (succeeds_allocChecked (v := evalList (2 ^ 64) ns % evalList (2 ^ 64) ps) (by decide)
    (by decide) hrem).bind fun r hr => ?_
  obtain ⟨hr, hrp⟩ := hr
  have hqlen := length_limbsOf (evalList (2 ^ 64) ns / evalList (2 ^ 64) ps) 64 4
  have hword := rightWord_eq (by decide) hq hqlen hqp hm hrp
  refine (succeeds_rightSide hq hm.holds hr (by rw [hword]; exact productWord_lt)).bind fun right hright => ?_
  obtain ⟨hright, hrightWidth, hrightWord⟩ := hright
  rw [hword] at hrightWord
  have hfour : ns.length = 4 := ha.length_eq
  have hrightLen : 7 ≤ (Poly.addLists (Poly.conv (limbsOf (evalList (2 ^ 64) ns / evalList (2 ^ 64) ps) 64 4) ps)
      (limbsOf (evalList (2 ^ 64) ns % evalList (2 ^ 64) ps) 64 4)).length := by
    rw [Poly.addLists, List.length_map, List.length_range, length_conv, hqlen, show ps.length = 4 from hm.length_eq]
    exact le_max_left _ _
  refine (succeeds_regroup grouping_product ha.holds hright ha.width hrightWidth ?_ ?_ ?_ ?_).bind fun _ _ =>
    Circuit.succeeds_pure.mpr ⟨hq, hr⟩
  · rw [hrightWord, ha.maxWord]
    decide +kernel
  · rw [evalList_addLists, evalList_conv, evalList_limbsOf (lt_of_le_of_lt (Nat.div_le_self _ _) hx),
      evalList_limbsOf hrem, Nat.mul_comm, Nat.div_add_mod]
  · rw [hfour]
    omega
  · rw [hfour]
    exact hx

theorem succeeds_equal (ha : a.WellFormed .honest ns) (hb : b.WellFormed .honest ms)
    (heq : evalList (2 ^ 64) ns = evalList (2 ^ 64) ms) : (a.equalWhenCarriedRegroup b).Succeeds fun _ => True := by
  have hfour : ns.length = 4 := ha.length_eq
  have hfour' : ms.length = 4 := hb.length_eq
  refine succeeds_regroup grouping_limb ha.holds hb.holds ha.width hb.width ?_ heq (by rw [hfour, hfour']) ?_
  · rw [ha.maxWord, hb.maxWord, max_self]
  · rw [hfour]
    exact lt_trans ha.evalList_lt_pow (by decide +kernel)

end Exact

/-! ## Arithmetic over the scalar field -/

/-- A satisfying assignment of `mult_mod` or `red_mod` divides over the integers, and numbers that are equal after
carrying are equal; the honest prover's quotient, remainder and carries satisfy the rules for all numbers
of 256 bits. -/
theorem bigNat_exact :
    (∀ {a b m : BigNat Scalar Scalar} {ns ms ps : List ℕ}, a.WellFormed .any ns → b.WellFormed .any ms →
      m.WellFormed .any ps →
      ((a.multMod b m).Ensures fun t => ∃ qs rs : List ℕ, t.1.Holds .any qs ∧ t.2.WellFormed .any rs ∧
        (∀ n ∈ qs, n < 2 ^ 64) ∧ evalList (2 ^ 64) ns * evalList (2 ^ 64) ms =
          evalList (2 ^ 64) qs * evalList (2 ^ 64) ps + evalList (2 ^ 64) rs) ∧
      ((a.redMod m).Ensures fun t => ∃ qs rs : List ℕ, t.1.Holds .any qs ∧ t.2.WellFormed .any rs ∧
        (∀ n ∈ qs, n < 2 ^ 64) ∧ evalList (2 ^ 64) ns =
          evalList (2 ^ 64) qs * evalList (2 ^ 64) ps + evalList (2 ^ 64) rs) ∧
      ((a.equalWhenCarriedRegroup b).Ensures fun _ => evalList (2 ^ 64) ns = evalList (2 ^ 64) ms)) ∧
    ∀ {a b m : BigNat Scalar Scalar} {x y n : ℕ}, x < 2 ^ 256 → y < 2 ^ 256 → n < 2 ^ 256 → 0 < n →
      a.WellFormed .honest (limbsOf x 64 4) → b.WellFormed .honest (limbsOf y 64 4) →
      m.WellFormed .honest (limbsOf n 64 4) →
      ((a.multMod b m).Succeeds fun t => t.1.Holds .honest (limbsOf (x * y / n) 64 8) ∧
        t.2.Holds .honest (limbsOf (x * y % n) 64 4)) ∧
      ((a.redMod m).Succeeds fun t => t.1.Holds .honest (limbsOf (x / n) 64 4) ∧
        t.2.Holds .honest (limbsOf (x % n) 64 4)) ∧
      (x = y → (a.equalWhenCarriedRegroup b).Succeeds fun _ => True) := by
  refine ⟨fun ha hb hm => ⟨ensures_multMod ha hb hm, ensures_redMod ha hm, ensures_equal ha hb⟩, ?_⟩
  intro a b m x y n hx hy hn hpos ha hb hm
  have hxv : evalList (2 ^ 64) (limbsOf x 64 4) = x := evalList_limbsOf hx
  have hyv : evalList (2 ^ 64) (limbsOf y 64 4) = y := evalList_limbsOf hy
  have hnv : evalList (2 ^ 64) (limbsOf n 64 4) = n := evalList_limbsOf hn
  have hmult := succeeds_multMod ha hb hm (by rw [hnv]; exact hpos)
  have hred := succeeds_redMod ha hm (by rw [hnv]; exact hpos)
  rw [hxv, hyv, hnv] at hmult
  rw [hxv, hnv] at hred
  exact ⟨hmult, hred, fun heq => succeeds_equal ha hb (by rw [hxv, hyv, heq])⟩

/-- A number whose limbs are constants. -/
def constant (v : ℕ) : BigNat Scalar Scalar :=
  ⟨(limbsOf v 64 4).map fun n : ℕ => LC.const (n : Scalar),
    some ((limbsOf v 64 4).map fun n : ℕ => (n : Scalar)), some v, .new 64 4⟩

theorem wellFormed_constant {who : Circuit.Prover} {v : ℕ} (h : v < 2 ^ 256) :
    (constant v).WellFormed who (limbsOf v 64 4) := by
  refine ⟨⟨⟨?_, fun _ => rfl⟩, fun _ => ?_, fun n hn => Nat.le_sub_one_of_lt (limbsOf_lt hn)⟩, length_limbsOf v 64 4,
    fun n hn => limbsOf_lt hn, rfl⟩
  · show ((limbsOf v 64 4).map fun n : ℕ => LC.const (n : Scalar)).map LC.eval = _
    rw [List.map_map]
    exact List.map_congr_left fun n _ => LC.eval_const _
  · have hvalue : evalList (2 ^ 64) (limbsOf v 64 4) = v := evalList_limbsOf h
    show some v = some (evalList (2 ^ 64) (limbsOf v 64 4))
    rw [hvalue]

/-- A square modulo the order. -/
theorem bigNat_exact_order :
    ((constant (p256Order - 1)).multMod (constant (p256Order - 1)) (constant p256Order)).Ensures (fun t =>
      ∃ qs rs : List ℕ, t.1.Holds .any qs ∧ t.2.WellFormed .any rs ∧ (∀ n ∈ qs, n < 2 ^ 64) ∧
        evalList (2 ^ 64) (limbsOf (p256Order - 1) 64 4) * evalList (2 ^ 64) (limbsOf (p256Order - 1) 64 4) =
          evalList (2 ^ 64) qs * evalList (2 ^ 64) (limbsOf p256Order 64 4) + evalList (2 ^ 64) rs) ∧
    ((constant (p256Order - 1)).multMod (constant (p256Order - 1)) (constant p256Order)).Succeeds fun t =>
      t.1.Holds .honest (limbsOf ((p256Order - 1) * (p256Order - 1) / p256Order) 64 8) ∧
        t.2.Holds .honest (limbsOf ((p256Order - 1) * (p256Order - 1) % p256Order) 64 4) := by
  have hlt : p256Order < 2 ^ 256 := by decide
  have hlt' : p256Order - 1 < 2 ^ 256 := by decide
  exact ⟨(bigNat_exact.1 (wellFormed_constant hlt') (wellFormed_constant hlt') (wellFormed_constant hlt)).1,
    (bigNat_exact.2 hlt' hlt' hlt (by decide) (wellFormed_constant hlt') (wellFormed_constant hlt')
      (wellFormed_constant hlt)).1⟩

end ZkCredVega.Nonnative
