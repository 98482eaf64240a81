import ZkCredVega.Nym.Points

/-!
# The signature's rules

`verify` of `gadgets/p256.rs`: the bits of `r` and of the inverse of `s`, the multiplications of
`z G + r Q`, and the comparison of the point's `x` with `r`.
-/

namespace ZkCredVega.Nym

open Circuits

/-! ## Signatures -/

/-- `(r, s)` is an ECDSA signature by the key `Q` on a message whose digest is `z`: with `w` the
inverse of `s`, the point `(z w mod n) G + (r w mod n) Q` is finite and its `x` is `r` modulo `n`. -/
structure IsSignature (Q : p256.Point) (z r s : ℕ) : Prop where
  r_pos : 0 < r
  r_lt : r < p256Order
  s_pos : 0 < s
  s_lt : s < p256Order
  x_eq : ∃ (x y : Scalar) (h : p256.Nonsingular x y),
    (z * invertMod s % p256Order) • generator + (r * invertMod s % p256Order) • Q = .some x y h ∧
      ToRepr.toNat x % p256Order = r

section Verify

variable {c : Constants Scalar} {A : p256.Point} {B : ℕ → p256.Point}

theorem toNat_natCast_scalar {n : ℕ} (h : n < p256Order) : ToRepr.toNat (n : Scalar) = n := by
  have hlt : n < fieldModulus := h.trans (by decide)
  exact ZMod.val_natCast_of_lt hlt

theorem bytesNat_order : bytesNat order = p256Order := by decide +kernel

variable {who : Circuit.Prover}

theorem ensures_checkScalar {bits : List (Boolean Scalar)} {xs : List Bool} (hbits : Boolean.ReadsAll bits xs)
    (hlen : xs.length = 256) :
    (checkScalar bits : Circuit Scalar Scalar Unit).Ensures fun _ => 0 < beBits xs ∧ beBits xs < p256Order := by
  have hbelow : (lessThan bits order : Circuit Scalar Scalar Unit).Ensures fun _ => beBits xs < bytesNat order :=
    fun _ _ h => (runs_lessThan hbits (c := order) hlen).mp h
  have hpack : (pack bits : Lc Scalar Scalar).Holds .any _ := holds_pack hbits
  rw [bytesNat_order] at hbelow
  refine hbelow.bind fun _ hlt => (ensures_nonzero hpack).mono fun _ hne => ⟨?_, hlt⟩
  rw [Nat.pos_iff_ne_zero]
  intro hzero
  rw [hzero, Nat.cast_zero] at hne
  exact hne rfl

theorem yields_checkScalar {bits : List (Boolean Scalar)} {xs : List Bool} (hbits : Boolean.HoldsAll who bits xs)
    (hlen : xs.length = 256) (hrange : 0 < beBits xs ∧ beBits xs < p256Order) :
    (checkScalar bits : Circuit Scalar Scalar Unit).Yields who fun _ => True := by
  have hbelow := yields_lessThan hbits (c := order) hlen (bytesNat_order ▸ hrange.2)
  refine hbelow.bind fun _ _ => yields_nonzero (holds_pack hbits) ?_
  intro hzero
  have hnat := congrArg ToRepr.toNat hzero
  rw [toNat_natCast_scalar hrange.2] at hnat
  exact hrange.1.ne' hnat

/-- What the rules ask of the points they add: the start and the windows' offsets are apart from the multiples. -/
structure VerifyApart (A : p256.Point) (B : ℕ → p256.Point) (Q : p256.Point) (z : ℕ) (rs ss : List Bool) : Prop where
  digest : GeneratorApart B z
  key : MultiplyApart A Q rs
  sum : ApartFrom (z • generator) (beBits rs • Q)
  last : MultiplyApart A (z • generator + beBits rs • Q) ss

/-- The rules of `verify` after the bits. -/
def verifyRules {F V : Type} [Field F] [One V] (constants : Constants F) (digest : List (Boolean V)) (key : Point F V)
    (r sInv : List (Boolean V)) : Circuit F V Unit := do
  checkScalar r
  checkScalar sInv
  let zG ← multiplyGenerator constants digest
  let rQ ← multiply constants r key
  let sum ← add zG rQ
  let point ← multiply constants sInv sum
  equal point.x (pack r)

theorem verify_eq {F V : Type} [Field F] [One V] (constants : Constants F) (digest : List (Boolean V)) (key : Point F V)
    (signature : Option Signature) : verify constants digest key signature = (do
      let r ← allocBits (signature.map fun s => bytesBits s.r.val) 256
      let sInv ← allocBits (signature.map fun s => bytesBits s.sInv.val) 256
      verifyRules constants digest key r sInv) := rfl

theorem ensures_verifyRules (hc : c.Hold A B) {digest r sInv : List (Boolean Scalar)} {zs rs ss : List Bool}
    (hdigest : Boolean.ReadsAll digest zs) (hr : Boolean.ReadsAll r rs) (hsInv : Boolean.ReadsAll sInv ss)
    (hzs : zs.length = 256) (hrs : rs.length = 256) (hss : ss.length = 256) {key : Point Scalar Scalar}
    {Q : p256.Point} (hkey : key.Holds Q) :
    (verifyRules c digest key r sInv).Ensures fun _ =>
        (0 < beBits rs ∧ beBits rs < p256Order) ∧ (0 < beBits ss ∧ beBits ss < p256Order) ∧
          VerifyApart A B Q (beBits zs) rs ss ∧
          ∃ (x y : Scalar) (h : p256.Nonsingular x y),
            beBits ss • (beBits zs • generator + beBits rs • Q) = (.some x y h : p256.Point) ∧
              x = (beBits rs : Scalar) := by
  refine (ensures_checkScalar hr hrs).bind fun _ hrange => ?_
  refine (ensures_checkScalar hsInv hss).bind fun _ hsrange => ?_
  refine (ensures_multiplyGenerator hc hdigest hzs).bind fun zG hzG => ?_
  refine (ensures_multiply hc hr hrs hkey).bind fun rQ hrQ => ?_
  refine (ensures_add hzG.2 hrQ.2).bind fun sum hsum => ?_
  refine (ensures_multiply hc hsInv hss hsum.2).bind fun point hpoint => ?_
  refine ensures_equal.mono fun _ heq => ⟨hrange, hsrange, ⟨hzG.1, hrQ.1, hsum.1, hpoint.1⟩, ?_⟩
  obtain ⟨d, ⟨h, hvalue⟩, hx, -⟩ := hpoint.2
  have hpack : (pack r : Lc Scalar Scalar).Holds .any _ := holds_pack hr
  refine ⟨d.1, d.2, h, hvalue, ?_⟩
  rw [← hx.eval_eq, heq, hpack.eval_eq]

/-- The rules after the bits can be met when the points are apart and the last one's `x` is `r`. -/
theorem yields_verifyRules (hc : c.Hold A B) {digest r sInv : List (Boolean Scalar)} {zs rs ss : List Bool}
    (hdigest : Boolean.HoldsAll who digest zs) (hr : Boolean.HoldsAll who r rs) (hsInv : Boolean.HoldsAll who sInv ss)
    (hzs : zs.length = 256) (hrs : rs.length = 256) (hss : ss.length = 256) {key : Point Scalar Scalar}
    {Q : p256.Point} (hkey : key.HoldsFor who Q) (hrange : 0 < beBits rs ∧ beBits rs < p256Order)
    (hsrange : 0 < beBits ss ∧ beBits ss < p256Order) (hapart : VerifyApart A B Q (beBits zs) rs ss) {y : Scalar}
    (hpoint : At ((beBits rs : Scalar), y) (beBits ss • (beBits zs • generator + beBits rs • Q))) :
    (verifyRules c digest key r sInv).Yields who fun _ => True := by
  refine (yields_checkScalar hr hrs hrange).bind fun _ _ => ?_
  refine (yields_checkScalar hsInv hss hsrange).bind fun _ _ => ?_
  refine (yields_multiplyGenerator hc hdigest hzs hapart.digest).bind fun zG hzG => ?_
  refine (yields_multiply hc hr hrs hkey hapart.key).bind fun rQ hrQ => ?_
  refine (yields_add hzG hrQ hapart.sum).bind fun sum hsum => ?_
  refine (yields_multiply hc hsInv hss hsum hapart.last).bind fun point hp => ?_
  obtain ⟨d, ⟨_, hd⟩, hx, -⟩ := hp
  obtain ⟨_, hd'⟩ := hpoint
  rw [hd'] at hd
  injection hd with hxeq
  rw [← hxeq] at hx
  exact yields_equal hx (holds_pack hr)

/-- What the rules compute is what the verification of a signature does. -/
theorem isSignature_of_multiple {Q : p256.Point} (horder : p256Order • Q = 0) {z r sInv : ℕ}
    (hr : 0 < r ∧ r < p256Order) (hs : 0 < sInv ∧ sInv < p256Order) {x y : Scalar} {h : p256.Nonsingular x y}
    (hpoint : sInv • (z • generator + r • Q) = .some x y h) (hx : x = (r : Scalar)) :
    IsSignature Q z r (invertMod sInv) := by
  refine ⟨hr.1, hr.2, invertMod_pos hs.1 hs.2, invertMod_lt sInv, x, y, h, ?_, ?_⟩
  · rw [invertMod_invertMod hs.2, mod_nsmul order_nsmul_generator, mod_nsmul horder, ← hpoint, nsmul_add,
      ← mul_nsmul, ← mul_nsmul]
  · rw [hx, toNat_natCast_scalar hr.2, Nat.mod_eq_of_lt hr.2]

theorem length_signatureBits {signature : Option Signature} (f : Signature → Bytes 32) :
    ∀ bs ∈ signature.map fun s => bytesBits (f s).val, bs.length = 256 := by
  intro bs hbs
  obtain ⟨s, -, rfl⟩ := Option.map_eq_some_iff.mp hbs
  rw [length_bytesBits, (f s).property]

/-- The slots of allocated bits are the assignment's first, in order. -/
theorem traces_allocBits_reads {hint : Option (List Bool)} {n : ℕ} (hhint : ∀ bs ∈ hint, bs.length = n)
    {ins vs : List Scalar} {bits : List (Boolean Scalar)} (h : (allocBits hint n).Traces ins vs bits) :
    ∃ xs : List Bool, xs.length = n ∧ Boolean.ReadsAll bits xs ∧ vs = xs.map ofBool := by
  rw [allocBits_eq hhint] at h
  obtain ⟨-, xs, hlen, hxs⟩ := Boolean.ensures_allocBits ins bits (Circuit.runs_iff_exists_traces.mpr ⟨vs, h⟩)
  rw [List.length_range] at hlen
  refine ⟨xs, hlen, hxs, ?_⟩
  rw [traces_allocBits h]
  exact Boolean.readsAll_iff.mp hxs

end Verify

/-! ## Points that are known multiples of the generator -/

section Multiples

variable {c : Constants Scalar} {p : Point Scalar Scalar} {j k : ℕ}

theorem generator_ne_zero : generator ≠ 0 := WeierstrassCurve.Affine.Point.some_ne_zero _

theorem nsmul_generator_eq_zero_iff : k • generator = 0 ↔ k % p256Order = 0 := by
  rw [nsmul_eq_zero_iff prime_p256Order generator_ne_zero order_nsmul_generator]
  exact Nat.dvd_iff_mod_eq_zero

/-- Two multiples of the generator that can be added: neither equal nor opposite. -/
structure Apart (j k : ℕ) : Prop where
  ne : j % p256Order ≠ k % p256Order
  ne_neg : (j + k) % p256Order ≠ 0

instance (j k : ℕ) : Decidable (Apart j k) :=
  decidable_of_iff (j % p256Order ≠ k % p256Order ∧ (j + k) % p256Order ≠ 0) ⟨fun h => ⟨h.1, h.2⟩, fun h => ⟨h.1, h.2⟩⟩

theorem Apart.nsmul_ne (h : Apart j k) : j • generator ≠ k • generator := by
  have horder : addOrderOf generator = p256Order := addOrderOf_eq_prime order_nsmul_generator generator_ne_zero
  intro heq
  have hmod := nsmul_inj_mod.mp heq
  rw [horder] at hmod
  exact h.ne hmod

theorem Apart.nsmul_ne_neg (h : Apart j k) : j • generator ≠ -(k • generator) := by
  rw [Ne, ← add_eq_zero_iff_eq_neg, ← add_nsmul, nsmul_generator_eq_zero_iff]
  exact h.ne_neg

/-- What the bits of a scalar need of the accumulator and the point, as multiples. -/
def multiplies (k : ℕ) : ℕ → List Bool → Bool
  | _, [] => true
  | a, x :: xs => 2 * a % p256Order != 0 && decide (Apart (2 * a) k) && multiplies k (2 * a + x.toNat * k) xs

theorem Apart.apartFrom (h : Apart j k) : ApartFrom (j • generator) (k • generator) := ⟨h.nsmul_ne, h.nsmul_ne_neg⟩

theorem bitsApart_of_multiplies {xs : List Bool} (h : multiplies k j xs = true) :
    BitsApart (k • generator) (j • generator) xs := by
  induction xs generalizing j with
  | nil => trivial
  | cons x xs ih =>
    rw [multiplies, Bool.and_eq_true, Bool.and_eq_true, bne_iff_ne, decide_eq_true_eq] at h
    obtain ⟨⟨hdouble, hapart⟩, hrest⟩ := h
    have htwice : j • generator + j • generator = (2 * j) • generator := by rw [Nat.two_mul, add_nsmul]
    have hnext := ih hrest
    rw [add_nsmul, mul_nsmul' generator x.toNat] at hnext
    refine ⟨⟨?_, ?_⟩, ?_⟩
    · rwa [htwice, Ne, nsmul_generator_eq_zero_iff]
    · rw [htwice]
      exact hapart.apartFrom
    · rwa [htwice]

theorem multiplyApart_of_multiplies {xs : List Bool} (hbits : multiplies k 1 xs = true)
    (hlast : Apart (2 ^ 256 + beBits xs * k) (2 ^ 256)) : MultiplyApart generator (k • generator) xs := by
  have hbits := bitsApart_of_multiplies hbits
  have hlast := hlast.apartFrom
  rw [one_nsmul] at hbits
  rw [add_nsmul, mul_nsmul'] at hlast
  refine ⟨hbits, hlast.ne_neg, ?_⟩
  rw [neg_neg]
  exact hlast.ne

/-- What the windows of a scalar need, where each offset is the generator. -/
def windowsApart (z : ℕ) : Prop :=
  ∀ i < 128, 0 < i → Apart (z % 4 ^ i + i) (z % 4 ^ (i + 1) - z % 4 ^ i + 1)

instance (z : ℕ) : Decidable (windowsApart z) := inferInstanceAs (Decidable (∀ i < 128, _))

theorem generatorApart_of_windowsApart {z : ℕ} (hwindows : windowsApart z) (hlast : Apart (z + 128) 128) :
    GeneratorApart (fun _ => generator) z := by
  have hsum : ∀ n : ℕ, ∑ _j ∈ Finset.range n, generator = n • generator := by
    intro n
    rw [Finset.sum_const, Finset.card_range]
  refine ⟨fun i hi hpos => ?_, ?_⟩
  · have hwindow := (hwindows i hi hpos).apartFrom
    rw [add_nsmul, succ_nsmul] at hwindow
    unfold WindowApart
    rwa [hsum]
  · have hlast := hlast.apartFrom
    rw [add_nsmul] at hlast
    rw [hsum]
    refine ⟨hlast.ne_neg, ?_⟩
    rw [neg_neg]
    exact hlast.ne

/-- The affine coordinates of a point, zeros for infinity. -/
def toAffine : p256.Point → Scalar × Scalar
  | .zero => (0, 0)
  | .some x y _ => (x, y)

theorem at_toAffine {P : p256.Point} (h : P ≠ 0) : At (toAffine P) P := by
  cases P with
  | zero => exact absurd rfl h
  | some x y hns => exact ⟨hns, rfl⟩

/-- Constants whose start and offsets are the generator. -/
theorem exists_constants : ∃ c : Constants Scalar, c.Hold generator fun _ => generator := by
  have hentry : ∀ i < 128, ∀ d < 4, (d * 4 ^ i) • generator + generator ≠ 0 := by
    intro i hi d hd
    rw [← succ_nsmul, Ne, nsmul_generator_eq_zero_iff]
    revert i d
    decide +kernel
  obtain ⟨shifted, hshifted⟩ : ∃ P, P = -(2 ^ 256 • generator) := ⟨_, rfl⟩
  have hfinite : shifted ≠ 0 := by
    rw [hshifted, neg_ne_zero, Ne, nsmul_generator_eq_zero_iff]
    decide +kernel
  obtain ⟨offsets, hoffsets⟩ : ∃ P, P = -∑ _i ∈ Finset.range 128, generator := ⟨_, rfl⟩
  have hfinite' : offsets ≠ 0 := by
    rw [hoffsets, Finset.sum_const, Finset.card_range, neg_ne_zero, Ne, nsmul_generator_eq_zero_iff]
    decide +kernel
  let entry (i d : ℕ) : Scalar × Scalar := toAffine ((d * 4 ^ i) • generator + generator)
  refine ⟨⟨toAffine generator, toAffine shifted,
    (List.range 128).map fun i => (entry i 0, entry i 1, entry i 2, entry i 3),
    toAffine offsets, by simp⟩, at_toAffine generator_ne_zero, ?_, ?_, ?_⟩
  · rw [← hshifted]
    exact at_toAffine hfinite
  · intro i hi
    rw [List.length_map, List.length_range] at hi
    simp only [List.getElem_map, List.getElem_range]
    exact ⟨at_toAffine (hentry i hi 0 (by decide)), at_toAffine (hentry i hi 1 (by decide)),
      at_toAffine (hentry i hi 2 (by decide)), at_toAffine (hentry i hi 3 (by decide))⟩
  · rw [← hoffsets]
    exact at_toAffine hfinite'

/-- Scalars whose rules, with the generator for the key, the start and the offsets, add only points apart. -/
structure Walks (zs rs ss : List Bool) : Prop where
  windows : windowsApart (beBits zs)
  offsets : Apart (beBits zs + 128) 128
  rBits : multiplies 1 1 rs = true
  rStart : Apart (2 ^ 256 + beBits rs) (2 ^ 256)
  sum : Apart (beBits zs) (beBits rs)
  sBits : multiplies (beBits zs + beBits rs) 1 ss = true
  sStart : Apart (2 ^ 256 + beBits ss * (beBits zs + beBits rs)) (2 ^ 256)

theorem Walks.verifyApart {zs rs ss : List Bool} (h : Walks zs rs ss) :
    VerifyApart generator (fun _ => generator) generator (beBits zs) rs ss := by
  have hkey := multiplyApart_of_multiplies h.rBits (by rw [Nat.mul_one]; exact h.rStart)
  have hlast := multiplyApart_of_multiplies h.sBits h.sStart
  rw [one_nsmul] at hkey
  rw [add_nsmul] at hlast
  exact ⟨generatorApart_of_windowsApart h.windows h.offsets, hkey, h.sum.apartFrom, hlast⟩

theorem admits_verify (hc : c.Hold generator fun _ => generator) {digest : List (Boolean Scalar)}
    {zs rs ss : List Bool} (hdigest : Boolean.ReadsAll digest zs) (hzs : zs.length = 256) (hrs : rs.length = 256)
    (hss : ss.length = 256) (hr : 0 < beBits rs ∧ beBits rs < p256Order)
    (hs : 0 < beBits ss ∧ beBits ss < p256Order) (hkey : p.Holds generator) (hwalks : Walks zs rs ss)
    {y : Scalar} (hpoint : At (beBits rs, y) ((beBits ss * (beBits zs + beBits rs)) • generator)) :
    (verify c digest p none).Admits fun _ => True := by
  have hlength : ∀ {n : ℕ}, ∀ bs ∈ (none : Option (List Bool)), bs.length = n := by
    intro n bs hbs
    cases hbs
  rw [verify_eq, Option.map_none, Option.map_none, allocBits_eq hlength]
  refine (Boolean.admits_allocBits rs (by rw [hrs, List.length_range])).bind fun r hreads => ?_
  refine (Boolean.admits_allocBits ss (by rw [hss, List.length_range])).bind fun sInv hreads' => ?_
  rw [mul_nsmul', add_nsmul] at hpoint
  have hdigest' : Boolean.HoldsAll .any digest zs := hdigest
  exact Circuit.Yields.admits
    (yields_verifyRules hc hdigest' hreads hreads' hzs hrs hss hkey hr hs hwalks.verifyApart hpoint)

end Multiples

/-! ## Soundness -/

/-- The first values of an assignment are the bits of `r` and of `sInv`, and those meet the rules. -/
theorem traces_verify {c : Constants Scalar} {A : p256.Point} {B : ℕ → p256.Point} (hc : c.Hold A B)
    {digest : List (Boolean Scalar)} {zs : List Bool} (hdigest : Boolean.ReadsAll digest zs) (hzs : zs.length = 256)
    {key : Point Scalar Scalar} {signature : Option Signature} {ins vs : List Scalar}
    (h : (verify c digest key signature).Traces ins vs ()) :
    ∃ (rs ss : List Bool) (rest : List Scalar), rs.length = 256 ∧ ss.length = 256 ∧
      vs = (rs ++ ss).map ofBool ++ rest ∧ ∀ Q, key.Holds Q →
        (0 < beBits rs ∧ beBits rs < p256Order) ∧ (0 < beBits ss ∧ beBits ss < p256Order) ∧
        ∃ (x y : Scalar) (h : p256.Nonsingular x y),
          beBits ss • (beBits zs • generator + beBits rs • Q) = (.some x y h : p256.Point) ∧ x = (beBits rs : Scalar) := by
  rw [verify_eq] at h
  obtain ⟨_, _, us, ws, r, -, rfl, hr, hrest⟩ := Circuit.traces_bind.mp h
  obtain ⟨rs, hrs, hreads, rfl⟩ := traces_allocBits_reads (length_signatureBits Signature.r) hr
  obtain ⟨_, _, us', ws', sInv, -, rfl, hsInv, hrules⟩ := Circuit.traces_bind.mp hrest
  obtain ⟨ss, hss, hreads', rfl⟩ := traces_allocBits_reads (length_signatureBits Signature.sInv) hsInv
  refine ⟨rs, ss, ws', hrs, hss, by rw [List.map_append, List.append_assoc], fun Q hkey => ?_⟩
  obtain ⟨-, hrange, hsrange, -, hpoint⟩ := ensures_verifyRules hc hdigest hreads hreads' hzs hrs hss hkey _ _
    (Circuit.runs_iff_exists_traces.mpr ⟨_, hrules⟩)
  exact ⟨hrange, hsrange, hpoint⟩

/-- In every satisfying assignment, for a key that is a point of P-256 and any digest of 256 bits, the first
slots are the bits of `r` and of `sInv`, both from `1` to below the order, and `sInv (z G + r Q)` is a finite
point whose `x` is `r`. So `r` and the inverse of `sInv` are a signature on the digest by the key. -/
theorem verify_sound (c : Constants Scalar) (A : p256.Point) (B : ℕ → p256.Point) (hc : c.Hold A B)
    (digest : List (Boolean Scalar)) (zs : List Bool) (hdigest : Boolean.ReadsAll digest zs)
    (hzs : zs.length = 256) (key : Point Scalar Scalar) (Q : p256.Point) (hkey : key.Holds Q)
    (horder : p256Order • Q = 0) (signature : Option Signature) (ins vs : List Scalar)
    (hverify : (verify c digest key signature).Traces ins vs ()) :
    ∃ (rs ss : List Bool) (rest : List Scalar), rs.length = 256 ∧ ss.length = 256 ∧
      vs = (rs ++ ss).map ofBool ++ rest ∧
      (0 < beBits rs ∧ beBits rs < p256Order) ∧ (0 < beBits ss ∧ beBits ss < p256Order) ∧
      (∃ (x y : Scalar) (h : p256.Nonsingular x y),
        beBits ss • (beBits zs • generator + beBits rs • Q) = .some x y h ∧ ToRepr.toNat x = beBits rs) ∧
      IsSignature Q (beBits zs) (beBits rs) (invertMod (beBits ss)) := by
  obtain ⟨rs, ss, rest, hrs, hss, hvs, hrules⟩ := traces_verify hc hdigest hzs hverify
  obtain ⟨hr, hs, x, y, h, hpoint, hx⟩ := hrules Q hkey
  refine ⟨rs, ss, rest, hrs, hss, hvs, hr, hs, ⟨x, y, h, hpoint, ?_⟩, isSignature_of_multiple horder hr hs hpoint hx⟩
  rw [hx, toNat_natCast_scalar hr.2]

/-! ## Signatures of an assignment -/

/-- `r` and `s` are a signature on the digest `z` by the key, which is a point of the generator's order. -/
def Signs (key : Scalar × Scalar) (z : ℕ) (signature : ℕ × ℕ) : Prop :=
  ∀ Q, At key Q → p256Order • Q = 0 → IsSignature Q z signature.1 signature.2

/-- The digest that `r = generatorX` and `sInv = 1` sign by the generator: `r` and it add up to `1`. -/
def signedDigest : List Bool := bytesBits (beBytes 32 (p256Order + 1 - generatorX))

theorem beBits_beBytes {v : ℕ} (h : v < 256 ^ 32) : beBits (bytesBits (beBytes 32 v)) = v := by
  rw [beBits_bytesBits, bytesNat_beBytes, Nat.mod_eq_of_lt h]

theorem length_bits_beBytes (v : ℕ) : (bytesBits (beBytes 32 v)).length = 256 := by
  rw [length_bytesBits, length_beBytes]

/-- The walks of a digest and of a signature with the generator's `x` for `r`, over numbers. -/
theorem walks_beBytes {z s : ℕ} (hz : z < 256 ^ 32) (hs : s < 256 ^ 32)
    (h : (windowsApart z ∧ Apart (z + 128) 128 ∧ multiplies 1 1 (bytesBits (beBytes 32 generatorX)) = true ∧
      Apart (2 ^ 256 + generatorX) (2 ^ 256)) ∧ Apart z generatorX ∧
        multiplies (z + generatorX) 1 (bytesBits (beBytes 32 s)) = true ∧
        Apart (2 ^ 256 + s * (z + generatorX)) (2 ^ 256)) :
    Walks (bytesBits (beBytes 32 z)) (bytesBits (beBytes 32 generatorX)) (bytesBits (beBytes 32 s)) := by
  obtain ⟨⟨hwindows, hoffsets, hrBits, hrStart⟩, hsum, hsBits, hsStart⟩ := h
  have hr : beBits (bytesBits (beBytes 32 generatorX)) = generatorX := beBits_beBytes (by decide)
  have hz := beBits_beBytes hz
  have hs := beBits_beBytes hs
  constructor
  · rw [hz]
    exact hwindows
  · rw [hz]
    exact hoffsets
  · exact hrBits
  · rw [hr]
    exact hrStart
  · rw [hz, hr]
    exact hsum
  · rw [hz, hr]
    exact hsBits
  · rw [hz, hr, hs]
    exact hsStart

theorem walks_signedDigest :
    Walks signedDigest (bytesBits (beBytes 32 generatorX)) (bytesBits (beBytes 32 1)) :=
  walks_beBytes (by decide) (by decide) (by decide +kernel)

theorem verify_sound_generator : ∃ (c : Constants Scalar) (vs : List Scalar),
    c.Hold generator (fun _ => generator) ∧
    (verify c (bitSlots signedDigest) (Point.constant (generatorX, generatorY)) none).Traces [] vs () ∧
    ∃ (rs ss : List Bool) (rest : List Scalar), vs = (rs ++ ss).map ofBool ++ rest ∧
      IsSignature generator (beBits signedDigest) (beBits rs) (invertMod (beBits ss)) := by
  obtain ⟨c, hc⟩ := exists_constants
  have hz : beBits signedDigest = p256Order + 1 - generatorX := beBits_beBytes (by decide)
  have hr : beBits (bytesBits (beBytes 32 generatorX)) = generatorX := beBits_beBytes (by decide)
  have hs : beBits (bytesBits (beBytes 32 1)) = 1 := beBits_beBytes (by decide)
  have hkey : (Point.constant (generatorX, generatorY) : Point Scalar Scalar).Holds generator :=
    Point.holds_constant ⟨_, rfl⟩
  have hdigest := readsAll_bitSlots (F := Scalar) signedDigest
  have hlen : signedDigest.length = 256 := length_bits_beBytes _
  have hrange : 0 < generatorX ∧ generatorX < p256Order := by decide
  have hone : 0 < 1 ∧ 1 < p256Order := by decide
  have hmultiple : (1 * (p256Order + 1 - generatorX + generatorX)) • generator = generator := by
    have hsum : 1 * (p256Order + 1 - generatorX + generatorX) = p256Order + 1 := by decide
    rw [hsum, succ_nsmul, order_nsmul_generator, zero_add]
  have hpoint : At ((generatorX : Scalar), (generatorY : Scalar))
      ((1 * (p256Order + 1 - generatorX + generatorX)) • generator) := by
    rw [hmultiple]
    exact ⟨_, rfl⟩
  have hadmits : (verify c (bitSlots signedDigest) (Point.constant (generatorX, generatorY)) none).Admits
      fun _ => True := by
    refine admits_verify hc hdigest hlen (length_bits_beBytes generatorX) (length_bits_beBytes 1) ?_ ?_ hkey
      walks_signedDigest (y := generatorY) ?_
    · rwa [hr]
    · rwa [hs]
    · rwa [hr, hs, hz]
  obtain ⟨u, hruns⟩ := hadmits.exists_runs
  obtain ⟨vs, htraces⟩ := Circuit.runs_iff_exists_traces.mp hruns
  obtain ⟨rs, ss, rest, -, -, hvs, -, -, -, hsignature⟩ := verify_sound c generator _ hc _ _ hdigest hlen _ generator
    hkey order_nsmul_generator none [] vs htraces
  exact ⟨c, vs, hc, htraces, rs, ss, rest, hvs, hsignature⟩

/-! ## Exactness -/

/-- What the rules ask of a signature on the digest `z` by `Q`. -/
structure Signature.Fits (s : Signature) (A : p256.Point) (B : ℕ → p256.Point) (Q : p256.Point) (z : ℕ) : Prop where
  r_range : 0 < bytesNat s.r.val ∧ bytesNat s.r.val < p256Order
  sInv_range : 0 < bytesNat s.sInv.val ∧ bytesNat s.sInv.val < p256Order
  apart : VerifyApart A B Q z (bytesBits s.r.val) (bytesBits s.sInv.val)
  x_eq : ∃ y, At ((bytesNat s.r.val : Scalar), y)
    (bytesNat s.sInv.val • (z • generator + bytesNat s.r.val • Q))

section Exact

variable {c : Constants Scalar} {A : p256.Point} {B : ℕ → p256.Point} {digest : List (Boolean Scalar)} {zs : List Bool}
  {key : Point Scalar Scalar} {Q : p256.Point}

theorem length_bits (bs : Bytes 32) : (bytesBits bs.val).length = 256 := by
  rw [length_bytesBits, bs.property]

theorem Signature.Fits.yields {who : Circuit.Prover} {s : Signature} (h : s.Fits A B Q (beBits zs)) (hc : c.Hold A B)
    (hdigest : Boolean.HoldsAll who digest zs) (hzs : zs.length = 256) (hkey : key.HoldsFor who Q)
    {r sInv : List (Boolean Scalar)} (hr : Boolean.HoldsAll who r (bytesBits s.r.val))
    (hsInv : Boolean.HoldsAll who sInv (bytesBits s.sInv.val)) :
    (verifyRules c digest key r sInv).Yields who fun _ => True := by
  obtain ⟨y, hpoint⟩ := h.x_eq
  rw [← beBits_bytesBits, ← beBits_bytesBits] at hpoint
  have hrange := h.r_range
  have hsrange := h.sInv_range
  rw [← beBits_bytesBits] at hrange hsrange
  exact yields_verifyRules hc hdigest hr hsInv hzs (length_bits _) (length_bits _) hkey hrange hsrange h.apart hpoint

/-- The honest prover meets the rules with a signature that fits. -/
theorem Signature.Fits.succeeds_verify {s : Signature} (h : s.Fits A B Q (beBits zs)) (hc : c.Hold A B)
    (hdigest : Boolean.HoldsAll .honest digest zs) (hzs : zs.length = 256) (hkey : key.HoldsFor .honest Q) :
    (verify c digest key (some s)).Succeeds fun _ => True := by
  refine (succeeds_allocBits (length_bits s.r)).bind fun r hr => ?_
  refine (succeeds_allocBits (length_bits s.sInv)).bind fun sInv hsInv => ?_
  exact Circuit.Yields.succeeds (h.yields hc hdigest hzs hkey hr hsInv)

/-- Bits that meet the rules are a signature that fits. -/
theorem fits_of_runs (hc : c.Hold A B) (hdigest : Boolean.ReadsAll digest zs) (hzs : zs.length = 256)
    (hkey : key.Holds Q) {r sInv : List (Boolean Scalar)} {s : Signature} (hr : Boolean.ReadsAll r (bytesBits s.r.val))
    (hsInv : Boolean.ReadsAll sInv (bytesBits s.sInv.val)) {ins : List Scalar} {u : Unit}
    (h : (verifyRules c digest key r sInv).Runs ins u) : s.Fits A B Q (beBits zs) := by
  obtain ⟨-, hrange, hsrange, hapart, x, y, hns, hpoint, rfl⟩ :=
    ensures_verifyRules hc hdigest hr hsInv hzs (length_bits s.r) (length_bits s.sInv) hkey _ _ h
  rw [beBits_bytesBits] at hrange hsrange
  simp only [beBits_bytesBits] at hpoint hns
  exact ⟨hrange, hsrange, hapart, y, hns, hpoint⟩

theorem honest_verify_iff (hc : c.Hold A B) (hdigest : Boolean.HoldsAll .honest digest zs) (hzs : zs.length = 256)
    (hkey : key.HoldsFor .honest Q) (s : Signature) :
    (verify c digest key (some s)).Honest [] () ↔ s.Fits A B Q (beBits zs) := by
  constructor
  · intro h
    obtain ⟨_, _, r, -, hi, h⟩ := Circuit.honest_bind.mp h
    obtain ⟨_, _, sInv, -, hi', h⟩ := Circuit.honest_bind.mp h
    obtain ⟨r', hr', hr⟩ := succeeds_allocBits (F := Scalar) (length_bits s.r)
    obtain ⟨sInv', hsInv', hsInv⟩ := succeeds_allocBits (F := Scalar) (length_bits s.sInv)
    obtain ⟨-, rfl⟩ := hi.unique hr'
    obtain ⟨-, rfl⟩ := hi'.unique hsInv'
    exact fits_of_runs hc hdigest.reads hzs hkey.any (Boolean.HonestReadsAll.reads hr)
      (Boolean.HonestReadsAll.reads hsInv) h.runs
  · intro h
    obtain ⟨_, hhonest, -⟩ := h.succeeds_verify hc hdigest hzs hkey
    exact hhonest

/-- The rules can be met exactly when some signature fits, whatever the prover's hint; and the honest prover meets them
with its signature exactly when that one fits. -/
theorem verify_exact (hc : c.Hold A B) (hdigest : Boolean.HoldsAll .honest digest zs) (hzs : zs.length = 256)
    (hkey : key.HoldsFor .honest Q) (signature : Option Signature) :
    ((verify c digest key signature).Runs [] () ↔ ∃ s : Signature, s.Fits A B Q (beBits zs)) ∧
      ∀ s : Signature, (verify c digest key (some s)).Honest [] () ↔ s.Fits A B Q (beBits zs) := by
  refine ⟨⟨fun h => ?_, ?_⟩, honest_verify_iff hc hdigest hzs hkey⟩
  · rw [verify_eq, allocBits_eq (length_signatureBits _), allocBits_eq (length_signatureBits _)] at h
    obtain ⟨r, -, ⟨rs, hrs, hr⟩, h⟩ := h.bind_elim Boolean.ensures_allocBits
    obtain ⟨sInv, -, ⟨ss, hss, hsInv⟩, h⟩ := h.bind_elim Boolean.ensures_allocBits
    rw [List.length_range] at hrs hss
    obtain ⟨rBytes, hrBytes, rfl⟩ := exists_bytesBits (n := 32) hrs
    obtain ⟨sBytes, hsBytes, rfl⟩ := exists_bytesBits (n := 32) hss
    exact ⟨⟨⟨rBytes, hrBytes⟩, ⟨sBytes, hsBytes⟩⟩, fits_of_runs hc hdigest.reads hzs hkey.any hr hsInv h⟩
  · rintro ⟨s, hs⟩
    have hlen : ∀ bs : Bytes 32, (bytesBits bs.val).length = (List.range 256).length := by
      intro bs
      rw [length_bits, List.length_range]
    have hadmits : (verify c digest key signature).Admits fun _ => True := by
      rw [verify_eq, allocBits_eq (length_signatureBits _), allocBits_eq (length_signatureBits _)]
      refine (Boolean.admits_allocBits _ (hlen s.r)).bind fun r hr => ?_
      refine (Boolean.admits_allocBits _ (hlen s.sInv)).bind fun sInv hsInv => ?_
      have hdigest' : Boolean.HoldsAll .any digest zs := hdigest.reads
      exact Circuit.Yields.admits (hs.yields hc hdigest' hzs hkey.any hr hsInv)
    obtain ⟨_, hruns⟩ := hadmits.exists_runs
    exact hruns

def generatorXSignature (s : ℕ) : Signature := ⟨⟨beBytes 32 generatorX, length_beBytes _ _⟩, ⟨beBytes 32 s, length_beBytes _ _⟩⟩

/-- It fits a digest that `sInv` takes to the generator. -/
theorem fits_generatorXSignature {z s : ℕ} (hz : z < 256 ^ 32) (hs : 0 < s ∧ s < p256Order)
    (hone : s * (z + generatorX) % p256Order = 1)
    (hwalks : Walks (bytesBits (beBytes 32 z)) (bytesBits (beBytes 32 generatorX)) (bytesBits (beBytes 32 s))) :
    (generatorXSignature s).Fits generator (fun _ => generator) generator z := by
  have hlt : p256Order < 256 ^ 32 := by decide
  have hr : bytesNat (generatorXSignature s).r.val = generatorX := by
    rw [← beBits_bytesBits]
    exact beBits_beBytes (by decide)
  have hsInv : bytesNat (generatorXSignature s).sInv.val = s := by
    rw [← beBits_bytesBits]
    exact beBits_beBytes (hs.2.trans hlt)
  have happart := hwalks.verifyApart
  rw [beBits_beBytes hz] at happart
  refine ⟨?_, ?_, happart, generatorY, ?_⟩
  · rw [hr]
    decide
  · rwa [hsInv]
  · rw [hr, hsInv, ← add_nsmul, ← mul_nsmul', ← mod_nsmul order_nsmul_generator, hone, one_nsmul]
    exact ⟨_, rfl⟩

def generatorSignature : Signature := ⟨⟨beBytes 32 generatorX, length_beBytes _ _⟩, ⟨beBytes 32 1, length_beBytes _ _⟩⟩

theorem fits_generatorSignature :
    generatorSignature.Fits generator (fun _ => generator) generator (beBits signedDigest) := by
  have hz : beBits signedDigest = p256Order + 1 - generatorX := beBits_beBytes (by decide)
  rw [hz]
  exact fits_generatorXSignature (by decide) (by decide) (by decide) walks_signedDigest

theorem holdsAll_bitSlots {F : Type} [Field F] (xs : List Bool) :
    Boolean.HoldsAll .honest (bitSlots xs : List (Boolean F)) xs := by
  apply holdsAll_of_value (readsAll_bitSlots xs)
  rw [bitSlots, List.map_map]
  rfl

theorem holdsFor_generator :
    (Point.constant (generatorX, generatorY) : Point Scalar Scalar).HoldsFor .honest generator :=
  Point.holdsFor_constant ⟨_, rfl⟩

theorem verify_exact_generator : ∃ c : Constants Scalar, c.Hold generator (fun _ => generator) ∧
    (verify c (bitSlots signedDigest) (Point.constant (generatorX, generatorY)) none).Runs [] () := by
  obtain ⟨c, hc⟩ := exists_constants
  have hexact := verify_exact hc (holdsAll_bitSlots signedDigest) (length_bits_beBytes _)
    holdsFor_generator none
  exact ⟨c, hc, hexact.1.mpr ⟨_, fits_generatorSignature⟩⟩

/-- The scalar with these big-endian bytes, if it is below the order. -/
def scalar (bytes : Bytes 32) : Option ℕ :=
  if bytesNat bytes.val < p256Order then some (bytesNat bytes.val) else none

def scalarToBe (s : ℕ) : Bytes 32 := ⟨beBytes 32 s, length_beBytes 32 s⟩

/-- `Fq::invert`: zero has no inverse. -/
def invertScalar (s : ℕ) : Option ℕ := if s = 0 then none else some (invertMod s)

/-- A standard signature as the rules take it; the inverse of what has none is zero. -/
def Signature.fromRs (r s : Bytes 32) : Signature := ⟨r, scalarToBe (((scalar s).bind invertScalar).getD 0)⟩

theorem bytesNat_scalarToBe {s : ℕ} (h : s < p256Order) : bytesNat (scalarToBe s).val = s := by
  rw [scalarToBe, bytesNat_beBytes]
  exact Nat.mod_eq_of_lt (h.trans (by decide))

theorem fromRs_sInv {r s : Bytes 32} (hpos : 0 < bytesNat s.val) (hlt : bytesNat s.val < p256Order) :
    (Signature.fromRs r s).sInv = scalarToBe (invertMod (bytesNat s.val)) := by
  simp only [Signature.fromRs, scalar, if_pos hlt, Option.bind_some, invertScalar, if_neg hpos.ne', Option.getD_some]

theorem pos_of_fromRs {r s : Bytes 32} (h : 0 < bytesNat (Signature.fromRs r s).sInv.val) :
    0 < bytesNat s.val ∧ bytesNat s.val < p256Order := by
  have hzero : bytesNat (scalarToBe 0).val = 0 := bytesNat_scalarToBe (by decide)
  by_cases hlt : bytesNat s.val < p256Order
  · refine ⟨Nat.pos_of_ne_zero fun hs => ?_, hlt⟩
    simp only [Signature.fromRs, scalar, if_pos hlt, Option.bind_some, invertScalar, if_pos hs, Option.getD_none,
      hzero, lt_irrefl] at h
  · simp only [Signature.fromRs, scalar, if_neg hlt, Option.bind_none, Option.getD_none, hzero, lt_irrefl] at h

/-- The point of a signature's verification, with the inverse of `s`. -/
def signaturePointAt (Q : p256.Point) (z r sInv : ℕ) : p256.Point :=
  (z * sInv % p256Order) • generator + (r * sInv % p256Order) • Q

theorem nsmul_eq_signaturePointAt (horder : p256Order • Q = 0) (z r sInv : ℕ) :
    sInv • (z • generator + r • Q) = signaturePointAt Q z r sInv := by
  rw [signaturePointAt, mod_nsmul order_nsmul_generator, mod_nsmul horder, nsmul_add, ← mul_nsmul, ← mul_nsmul]

/-- A standard signature meets the rules exactly when it is one by ECDSA, its point's `x` is `r` as it stands, and
the points that the rules add are apart. -/
theorem fits_fromRs_iff (horder : p256Order • Q = 0) {r s : Bytes 32} {z : ℕ} :
    (Signature.fromRs r s).Fits A B Q z ↔ IsSignature Q z (bytesNat r.val) (bytesNat s.val) ∧
      (∃ y, At ((bytesNat r.val : Scalar), y)
        (signaturePointAt Q z (bytesNat r.val) (invertMod (bytesNat s.val)))) ∧
      VerifyApart A B Q z (bytesBits r.val) (bytesBits (scalarToBe (invertMod (bytesNat s.val))).val) := by
  have hinverse := bytesNat_scalarToBe (invertMod_lt (bytesNat s.val))
  constructor
  · rintro ⟨hr, hsInv, hapart, y, hpoint⟩
    obtain ⟨hpos, hlt⟩ := pos_of_fromRs hsInv.1
    rw [fromRs_sInv hpos hlt] at hapart hpoint
    rw [hinverse, nsmul_eq_signaturePointAt horder] at hpoint
    refine ⟨⟨hr.1, hr.2, hpos, hlt, ?_⟩, ⟨y, hpoint⟩, hapart⟩
    obtain ⟨hns, hvalue⟩ := hpoint
    refine ⟨_, y, hns, hvalue, ?_⟩
    rw [toNat_natCast_scalar hr.2]
    exact Nat.mod_eq_of_lt hr.2
  · rintro ⟨hsignature, ⟨y, hpoint⟩, hapart⟩
    have hs := fromRs_sInv (r := r) hsignature.s_pos hsignature.s_lt
    have hrange : 0 < invertMod (bytesNat s.val) := invertMod_pos hsignature.s_pos hsignature.s_lt
    refine ⟨⟨hsignature.r_pos, hsignature.r_lt⟩, ?_, ?_, y, ?_⟩
    · rw [hs, hinverse]
      exact ⟨hrange, invertMod_lt _⟩
    · rw [hs]
      exact hapart
    · rw [hs, hinverse, nsmul_eq_signaturePointAt horder]
      exact hpoint

/-- For a key of the generator's order, the honest prover meets the rules with a standard signature `(r, s)` exactly when
it is a signature by ECDSA whose point has `r` itself for `x`, not only modulo the order, and all the points that the
rules add are apart. -/
theorem verify_fromRs_exact (hc : c.Hold A B) (hdigest : Boolean.HoldsAll .honest digest zs) (hzs : zs.length = 256)
    (hkey : key.HoldsFor .honest Q) (horder : p256Order • Q = 0) (r s : Bytes 32) :
    (verify c digest key (some (Signature.fromRs r s))).Honest [] () ↔
      IsSignature Q (beBits zs) (bytesNat r.val) (bytesNat s.val) ∧
      (∃ y, At ((bytesNat r.val : Scalar), y)
        (signaturePointAt Q (beBits zs) (bytesNat r.val) (invertMod (bytesNat s.val)))) ∧
      VerifyApart A B Q (beBits zs) (bytesBits r.val) (bytesBits (scalarToBe (invertMod (bytesNat s.val))).val) :=
  (honest_verify_iff hc hdigest hzs hkey _).trans (fits_fromRs_iff horder)

theorem verify_fromRs_exact_generator : ∃ c : Constants Scalar, c.Hold generator (fun _ => generator) ∧
    (verify c (bitSlots signedDigest) (Point.constant (generatorX, generatorY))
      (some (Signature.fromRs (scalarToBe generatorX) (scalarToBe 1)))).Honest [] () := by
  obtain ⟨c, hc⟩ := exists_constants
  have hone : bytesNat (scalarToBe 1).val = 1 := bytesNat_scalarToBe (by decide)
  have hsignature : Signature.fromRs (scalarToBe generatorX) (scalarToBe 1) = generatorSignature := by
    have hinverse : invertMod 1 = 1 := by rw [invertMod, Nat.cast_one, inv_one, ZMod.val_one]
    have hsInv := fromRs_sInv (r := scalarToBe generatorX) (s := scalarToBe 1) (by rw [hone]; decide)
      (by rw [hone]; decide)
    rw [hone, hinverse] at hsInv
    exact congrArg (Signature.mk (scalarToBe generatorX)) hsInv
  have hfits := fits_generatorSignature
  rw [← hsignature] at hfits
  have hexact := verify_fromRs_exact hc (holdsAll_bitSlots signedDigest) (length_bits_beBytes _)
    holdsFor_generator order_nsmul_generator (scalarToBe generatorX) (scalarToBe 1)
  exact ⟨c, hc, hexact.mpr ((fits_fromRs_iff order_nsmul_generator).mp hfits)⟩

end Exact

end ZkCredVega.Nym
