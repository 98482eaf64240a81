import ZkCredVega.Nonnative.MultMod

/-!
# Numbers and their bits

The parts of `nonnative/bignat.rs` and `nonnative/util.rs` that take a number to its bits and a field
element to a number, and the constants of `gadget_utils.rs`, at the four limbs of `ecdsa.rs`. Nothing in
`from_num` asks for the representative below the field's modulus.
-/

namespace ZkCredVega.Nonnative

open Circuits
open AllocatedPoint (HoldBits)

section Gadgets

variable {F V : Type} [Field F] [One V]

def bitSum (bits : List (AllocatedBit V)) : LC F V := LC.sum (bits.zipIdx.map fun t => LC.term (2 ^ t.2) t.1.var)

/-- `get_bit(i).unwrap()`. -/
def bitOrPanic [ToRepr F] (v : F) (i : ℕ) : Outcome Bool :=
  match getBit v i with
  | some b => .ok b
  | none => .error .panic

namespace Num

/-- The lowest `n` bits of the prover's value. -/
def bitValues [ToRepr F] (a : Num F V) (n : ℕ) : Outcome (Option (List Bool)) :=
  match a.value with
  | none => .ok none
  | some v => some <$> (List.range n).mapM (bitOrPanic v)

/-- The lowest `n` bits, which are worth the number. -/
def decompose [ToRepr F] (a : Num F V) (n : ℕ) : Circuit F V (List (AllocatedBit V)) := do
  let values ← Circuit.lift (a.bitValues n)
  let bits ← (List.range n).mapM fun i => AllocatedBit.alloc (values.map (·.getD i false))
  Circuit.require (a.num - bitSum bits) (.const 1) 0
  pure bits

def isEqual (a : Num F V) (bits : List (AllocatedBit V)) : Circuit F V Unit :=
  Circuit.require (a.num - bitSum bits) (.const 1) 0

end Num

namespace BigNat

def decompose [ToRepr F] (a : BigNat F V) : Circuit F V (List (AllocatedBit V)) :=
  List.flatten <$> (List.range a.limbs.length).mapM fun i => (a.limb i).decompose a.params.limbWidth

/-- The limbs of a field element. -/
def fromNum [ToRepr F] (n : Num F V) (limbWidth nLimbs : ℕ) : Circuit F V (BigNat F V) := do
  let a ← allocFromNat (do pure (ToRepr.toNat (← assigned n.value))) limbWidth nLimbs
  let bits ← a.decompose
  n.isEqual bits
  pure a

def limbBits [ToRepr F] (a : BigNat F V) (i : ℕ) : Circuit F V (List (AllocatedBit V)) := do
  let bits ← (List.range a.params.limbWidth).mapM fun j =>
    AllocatedBit.alloc (a.limbValues.map fun vs => (ToRepr.toNat (vs.getD i 0)).testBit j)
  Circuit.require (bitSum bits) (.const 1) (a.limbs.getD i 0)
  pure bits

def decomposeAllocated [ToRepr F] (a : BigNat F V) : Circuit F V (List (AllocatedBit V)) := do
  .assert (a.params.limbWidth ≤ numBits)
  List.flatten <$> (List.range a.params.nLimbs).mapM a.limbBits

end BigNat

/-- `nat_to_limbs(..).unwrap()`. -/
def limbsOrPanic (val limbWidth nLimbs : ℕ) : Outcome (List ℕ) :=
  match natToLimbs val limbWidth nLimbs with
  | .ok limbs => .ok limbs
  | .error _ => .error .panic

/-- A number whose limbs are fixed by rules. -/
def allocBignatConstant (val limbWidth nLimbs : ℕ) : Circuit F V (BigNat F V) := do
  let limbs ← Circuit.lift (limbsOrPanic val limbWidth nLimbs)
  let vars ← (List.range nLimbs).mapM fun i => Circuit.var (.ok ((limbs.getD i 0 : ℕ) : F))
  forM (vars.zip limbs) fun t => Circuit.require (LC.var t.1) (.const 1) (.const ((t.2 : ℕ) : F))
  pure ⟨vars.map LC.var, some (limbs.map fun n : ℕ => (n : F)), some (limbsToNat limbWidth limbs), .new limbWidth nLimbs⟩

end Gadgets

/-! ## Bits -/

section Rules

variable {F : Type} [Field F] {who : Circuit.Prover}

theorem evalList_toNat (xs : List Bool) : evalList 2 (xs.map Bool.toNat) = leBits xs := by
  induction xs with
  | nil => rfl
  | cons x xs ih => rw [List.map_cons, evalList_cons, ih, leBits_cons, Nat.mul_comm, Nat.add_comm]

theorem eval_bits {bits : List (AllocatedBit F)} {xs : List Bool} (h : HoldBits who bits xs) :
    (bitSum bits : LC F F).eval = ((leBits xs : ℕ) : F) := by
  have hvars : bits.map AllocatedBit.var = (xs.map Bool.toNat).map fun n : ℕ => (n : F) := by
    induction h with
    | nil => rfl
    | cons hb _ ih =>
      rename_i b x bits xs _
      rw [List.map_cons, ih, List.map_cons, List.map_cons]
      congr 1
      exact hb.reads.trans (ofBool_eq_natCast x)
  have hsum := sum_zipIdx_pow (2 : F) (bits.map AllocatedBit.var) 0
  rw [pow_zero, one_mul, hvars] at hsum
  rw [← evalList_toNat, cast_evalList, Nat.cast_ofNat, ← hsum, ← hvars, bitSum, LC.eval_sum, List.map_map,
    List.zipIdx_map, List.map_map]
  congr 1
  refine List.map_congr_left fun t _ => ?_
  simp [LC.eval_term]

theorem ensures_allocBits {α : Type} {f : α → Option Bool} {is : List α} :
    (is.mapM fun i => (AllocatedBit.alloc (f i) : Circuit F F _)).Ensures fun bits =>
      ∃ xs : List Bool, xs.length = is.length ∧ HoldBits .any bits xs :=
  .mapM_exists fun _ _ => ensures_bitAlloc

theorem leBits_flatten {xss : List (List Bool)} {w : ℕ} (h : ∀ xs ∈ xss, xs.length = w) :
    leBits xss.flatten = evalList (2 ^ w) (xss.map leBits) := by
  induction xss with
  | nil => rfl
  | cons xs xss ih =>
    rw [List.forall_mem_cons] at h
    rw [List.flatten_cons, leBits_append, ih h.2, h.1, List.map_cons, evalList_cons]
    ring

theorem forall₂_four {α : Type} {P : ℕ → α → Prop} {as : List α} (h : List.Forall₂ P (List.range 4) as) :
    ∃ a₀ a₁ a₂ a₃, as = [a₀, a₁, a₂, a₃] ∧ P 0 a₀ ∧ P 1 a₁ ∧ P 2 a₂ ∧ P 3 a₃ := by
  have hlist : List.Forall₂ P [0, 1, 2, 3] as := h
  cases hlist with
  | cons h₀ rest₀ =>
    cases rest₀ with
    | cons h₁ rest₁ =>
      cases rest₁ with
      | cons h₂ rest₂ =>
        cases rest₂ with
        | cons h₃ rest₃ =>
          cases rest₃
          exact ⟨_, _, _, _, rfl, h₀, h₁, h₂, h₃⟩

theorem ensures_four {α : Type} {f : ℕ → Circuit F F α} {P : ℕ → α → Prop} (h : ∀ i < 4, (f i).Ensures (P i)) :
    ((List.range 4).mapM f).Ensures fun as =>
      ∃ a₀ a₁ a₂ a₃, as = [a₀, a₁, a₂, a₃] ∧ P 0 a₀ ∧ P 1 a₁ ∧ P 2 a₂ ∧ P 3 a₃ := by
  exact (Circuit.Ensures.mapM fun i hi => h i (List.mem_range.mp hi)).mono fun as has => forall₂_four has

variable [ToRepr F]

def BitsOf (who : Circuit.Prover) (w : ℕ) (l : LC F F) (bits : List (AllocatedBit F)) : Prop :=
  ∃ xs : List Bool, xs.length = w ∧ HoldBits who bits xs ∧ l.eval = ((leBits xs : ℕ) : F)

theorem ensures_decompose {a : Num F F} {w : ℕ} : (a.decompose w).Ensures (BitsOf .any w a.num) := by
  unfold Num.decompose
  refine Circuit.ensures_lift.bind fun values _ => ?_
  refine (ensures_allocBits (F := F)).bind fun bits hbits => ?_
  obtain ⟨xs, hlen, hxs⟩ := hbits
  rw [List.length_range] at hlen
  refine Circuit.Ensures.require_bind fun heq => Circuit.ensures_pure.mpr ⟨xs, hlen, hxs, ?_⟩
  rw [LC.eval_sub, LC.eval_const, mul_one, LC.eval_zero, sub_eq_zero, eval_bits hxs] at heq
  exact heq

theorem ensures_limbBits {a : BigNat F F} {i : ℕ} :
    (a.limbBits i).Ensures (BitsOf .any a.params.limbWidth (a.limbs.getD i 0)) := by
  refine ensures_allocBits.bind fun bits hbits => ?_
  obtain ⟨xs, hlen, hxs⟩ := hbits
  rw [List.length_range] at hlen
  refine Circuit.Ensures.require_bind fun heq => Circuit.ensures_pure.mpr ⟨xs, hlen, hxs, ?_⟩
  rw [LC.eval_const, mul_one, eval_bits hxs] at heq
  exact heq.symm

omit [ToRepr F] in
/-- Four limbs of bits are the number's bits. -/
theorem exists_flatten {l₀ l₁ l₂ l₃ : LC F F} {b₀ b₁ b₂ b₃ : List (AllocatedBit F)} (h₀ : BitsOf who 64 l₀ b₀)
    (h₁ : BitsOf who 64 l₁ b₁) (h₂ : BitsOf who 64 l₂ b₂) (h₃ : BitsOf who 64 l₃ b₃) :
    ∃ (ns : List ℕ) (xs : List Bool), ns.length = 4 ∧ (∀ n ∈ ns, n < 2 ^ 64) ∧
      [l₀, l₁, l₂, l₃].map LC.eval = ns.map (fun n : ℕ => (n : F)) ∧ xs.length = 256 ∧
      HoldBits who [b₀, b₁, b₂, b₃].flatten xs ∧ leBits xs = evalList (2 ^ 64) ns := by
  obtain ⟨x₀, hlen₀, hx₀, heq₀⟩ := h₀
  obtain ⟨x₁, hlen₁, hx₁, heq₁⟩ := h₁
  obtain ⟨x₂, hlen₂, hx₂, heq₂⟩ := h₂
  obtain ⟨x₃, hlen₃, hx₃, heq₃⟩ := h₃
  have hlens : ∀ xs ∈ [x₀, x₁, x₂, x₃], xs.length = 64 := by
    simp only [List.mem_cons, List.not_mem_nil, or_false, forall_eq_or_imp, forall_eq]
    exact ⟨hlen₀, hlen₁, hlen₂, hlen₃⟩
  refine ⟨[x₀, x₁, x₂, x₃].map leBits, [x₀, x₁, x₂, x₃].flatten, rfl, ?_, ?_, ?_, ?_, leBits_flatten hlens⟩
  · intro n hn
    obtain ⟨xs, hxs, rfl⟩ := List.mem_map.mp hn
    rw [← hlens xs hxs]
    exact leBits_lt xs
  · simp only [List.map_cons, List.map_nil, heq₀, heq₁, heq₂, heq₃]
  · simp [hlen₀, hlen₁, hlen₂, hlen₃]
  · simp only [List.flatten_cons, List.flatten_nil, List.append_nil]
    exact List.rel_append hx₀ (List.rel_append hx₁ (List.rel_append hx₂ hx₃))

theorem map_toNat_cast [LawfulToRepr F] {ns : List ℕ} (h : ∀ n ∈ ns, n < 2 ^ 64) :
    (ns.map fun n : ℕ => (n : F)).map ToRepr.toNat = ns := by
  rw [List.map_map]
  refine (List.map_congr_left fun n hn => ?_).trans (List.map_id ns)
  exact LawfulToRepr.toNat_natCast (lt_trans (h n hn) (by decide))

theorem getD_four {α : Type} {l : List α} (h : l.length = 4) (d : α) :
    [l.getD 0 d, l.getD 1 d, l.getD 2 d, l.getD 3 d] = l := by
  match l, h with
  | [a₀, a₁, a₂, a₃], _ => rfl

omit [ToRepr F] in
theorem BigNat.WellFormed.getD_lt {a : BigNat F F} {ns : List ℕ} (ha : a.WellFormed who ns) (i : ℕ) :
    ns.getD i 0 < 2 ^ 64 := by
  rw [List.getD_eq_getElem?_getD]
  cases hget : ns[i]? with
  | none => exact Nat.two_pow_pos 64
  | some n => exact ha.lt n (List.mem_of_getElem? hget)

theorem BigNat.WellFormed.eq_of_evals [LawfulToRepr F] {a : BigNat F F} {ns ms : List ℕ} (ha : a.WellFormed who ns)
    (hms : ∀ m ∈ ms, m < 2 ^ 64)
    (h : [a.limbs.getD 0 0, a.limbs.getD 1 0, a.limbs.getD 2 0, a.limbs.getD 3 0].map LC.eval =
      ms.map fun n : ℕ => (n : F)) : ms = ns := by
  have hlimbs : a.limbs.map LC.eval = ns.map fun n : ℕ => (n : F) := ha.holds.poly.coefficients
  rw [getD_four ha.limbs_length, hlimbs] at h
  rw [← map_toNat_cast (F := F) hms, ← h, map_toNat_cast ha.lt]

/-- Any satisfying assignment gives the bits of the number. -/
theorem ensures_decomposeAllocated [LawfulToRepr F] {a : BigNat F F} {ns : List ℕ} (ha : a.WellFormed .any ns) :
    a.decomposeAllocated.Ensures fun bits => ∃ xs : List Bool, xs.length = 256 ∧ HoldBits .any bits xs ∧
      leBits xs = evalList (2 ^ 64) ns := by
  refine Circuit.ensures_assert.bind fun _ _ => Circuit.Ensures.map ?_
  rw [ha.params]
  refine (ensures_four fun i _ => ensures_limbBits).mono fun bss hbss => ?_
  obtain ⟨b₀, b₁, b₂, b₃, rfl, h₀, h₁, h₂, h₃⟩ := hbss
  rw [ha.params] at h₀ h₁ h₂ h₃
  obtain ⟨ms, xs, hlen, hlt, hevals, hxlen, hxs, hvalue⟩ := exists_flatten h₀ h₁ h₂ h₃
  exact ⟨xs, hxlen, hxs, hvalue.trans (congrArg _ (ha.eq_of_evals hlt hevals))⟩

/-- Any satisfying assignment gives four limbs that are worth the element, of whichever representative. -/
theorem ensures_fromNum {n : Num F F} :
    (BigNat.fromNum n 64 4).Ensures fun a => ∃ ns : List ℕ, a.WellFormed .any ns ∧
      n.num.eval = ((evalList (2 ^ 64) ns : ℕ) : F) := by
  unfold BigNat.fromNum BigNat.allocFromNat
  dsimp only
  rw [bind_assoc]
  refine (Circuit.Ensures.mapM (P := fun _ _ => True) fun i _ => Circuit.ensures_var).bind fun vars hvars => ?_
  have hcount := hvars.length_eq
  rw [List.length_range] at hcount
  rw [pure_bind]
  obtain ⟨v₀, v₁, v₂, v₃, rfl⟩ : ∃ v₀ v₁ v₂ v₃, vars = [v₀, v₁, v₂, v₃] := by
    match vars, hcount with
    | [v₀, v₁, v₂, v₃], _ => exact ⟨v₀, v₁, v₂, v₃, rfl⟩
  refine Circuit.Ensures.bind (P := fun bits => ∃ b₀ b₁ b₂ b₃, bits = [b₀, b₁, b₂, b₃].flatten ∧
    BitsOf .any 64 (LC.var v₀) b₀ ∧ BitsOf .any 64 (LC.var v₁) b₁ ∧ BitsOf .any 64 (LC.var v₂) b₂ ∧
      BitsOf .any 64 (LC.var v₃) b₃) ?_ fun bits hbits => ?_
  · refine Circuit.Ensures.map ((ensures_four fun i _ => ensures_decompose).mono fun bss hbss => ?_)
    obtain ⟨b₀, b₁, b₂, b₃, rfl, h₀, h₁, h₂, h₃⟩ := hbss
    exact ⟨b₀, b₁, b₂, b₃, rfl, h₀, h₁, h₂, h₃⟩
  obtain ⟨b₀, b₁, b₂, b₃, rfl, h₀, h₁, h₂, h₃⟩ := hbits
  obtain ⟨ns, xs, hlen, hlt, hevals, hxlen, hxs, hvalue⟩ := exists_flatten h₀ h₁ h₂ h₃
  refine Circuit.Ensures.require_bind fun heq => Circuit.ensures_pure.mpr ⟨ns, ?_, ?_⟩
  · exact ⟨⟨⟨hevals, fun h => by cases h⟩, (fun h => by cases h), fun n hn => Nat.le_sub_one_of_lt (hlt n hn)⟩, hlen, hlt,
      rfl⟩
  · rw [LC.eval_sub, LC.eval_const, mul_one, LC.eval_zero, sub_eq_zero, eval_bits hxs, hvalue] at heq
    exact heq

theorem limbsOrPanic_eq {val : ℕ} (hval : val < 2 ^ 256) : limbsOrPanic val 64 4 = .ok (limbsOf val 64 4) := by
  have hsize : val.size ≤ 4 * 64 := Nat.size_le.mpr hval
  have hok : natToLimbs val 64 4 = .ok (limbsOf val 64 4) := if_pos hsize
  rw [limbsOrPanic, hok]

omit [Field F] [ToRepr F] in
theorem lift_ok {α : Type} (a : α) : (Circuit.lift (.ok a) : Circuit F F α) = pure a := rfl

omit [ToRepr F] in
theorem ensures_allocBignatConstant {val : ℕ} (hval : val < 2 ^ 256) :
    (allocBignatConstant val 64 4 : Circuit F F _).Ensures (·.WellFormed .any (limbsOf val 64 4)) := by
  unfold allocBignatConstant
  rw [limbsOrPanic_eq hval, lift_ok, pure_bind]
  refine (Circuit.Ensures.mapM (P := fun _ _ => True) fun i _ => Circuit.ensures_var).bind fun vars hvars => ?_
  have hcount := hvars.length_eq
  rw [List.length_range] at hcount
  refine (Circuit.Ensures.forM fun t _ => Circuit.ensures_require).bind fun _ hrules => Circuit.ensures_pure.mpr ?_
  have hlen := length_limbsOf val 64 4
  have hevals : (vars.map LC.var).map LC.eval = (limbsOf val 64 4).map fun n : ℕ => (n : F) := by
    rw [map_eval_var]
    apply List.ext_getElem
    · rw [List.length_map, hlen, hcount]
    · intro i hi hi'
      rw [List.length_map] at hi'
      have hmem : (vars[i], (limbsOf val 64 4)[i]) ∈ vars.zip (limbsOf val 64 4) := by
        rw [← List.getElem_zip (h := by rw [List.length_zip]; omega)]
        exact List.getElem_mem _
      have hrule : vars[i] = (((limbsOf val 64 4)[i] : ℕ) : F) := by simpa using hrules _ hmem
      rw [hrule, List.getElem_map]
  exact ⟨⟨⟨hevals, fun h => by cases h⟩, (fun h => by cases h), fun n hn => Nat.le_sub_one_of_lt (limbsOf_lt hn)⟩, hlen,
    fun n hn => limbsOf_lt hn, rfl⟩

/-! ## The honest prover -/

section Honest

variable [LawfulToRepr F]

omit [ToRepr F] [LawfulToRepr F] in
theorem succeeds_four {α : Type} {f : ℕ → Circuit F F α} {P : ℕ → α → Prop} (h : ∀ i < 4, (f i).Succeeds (P i)) :
    ((List.range 4).mapM f).Succeeds fun as =>
      ∃ a₀ a₁ a₂ a₃, as = [a₀, a₁, a₂, a₃] ∧ P 0 a₀ ∧ P 1 a₁ ∧ P 2 a₂ ∧ P 3 a₃ := by
  exact (Circuit.Succeeds.mapM fun i hi => h i (List.mem_range.mp hi)).mono fun as has => forall₂_four has

omit [ToRepr F] [LawfulToRepr F] in
theorem succeeds_allocBits (w v : ℕ) :
    ((List.range w).mapM fun j => (AllocatedBit.alloc (some (v.testBit j)) : Circuit F F _)).Succeeds fun bits =>
      HoldBits .honest bits (toLEBits w v) := by
  refine (Circuit.Succeeds.mapM fun j _ => succeeds_bitAlloc (v.testBit j)).mono fun bits hbits => ?_
  exact List.forall₂_map_right_iff.mpr hbits.flip

theorem succeeds_limbBits {a : BigNat F F} {ns : List ℕ} (ha : a.WellFormed .honest ns) {i : ℕ} :
    (a.limbBits i).Succeeds (BitsOf .honest 64 (a.limbs.getD i 0)) := by
  have hlimb := ha.holds.limb i
  have hlt := ha.getD_lt i
  have hvalues : a.limbValues = some (ns.map fun n : ℕ => (n : F)) := ha.holds.poly.values rfl
  unfold BigNat.limbBits
  rw [ha.width, hvalues]
  simp only [Option.map_some]
  rw [getD_cast, LawfulToRepr.toNat_natCast (lt_trans hlt (by decide))]
  refine (succeeds_allocBits 64 (ns.getD i 0)).bind fun bits hbits => ?_
  have hsum : (a.limbs.getD i 0).eval = ((leBits (toLEBits 64 (ns.getD i 0)) : ℕ) : F) := by
    rw [leBits_toLEBits hlt]
    exact hlimb.eval_eq
  refine Circuit.Succeeds.require_bind ?_ (Circuit.succeeds_pure.mpr ⟨_, length_toLEBits _ _, hbits, hsum⟩)
  rw [LC.eval_const, mul_one, eval_bits hbits, hsum]

theorem succeeds_decomposeAllocated {a : BigNat F F} {ns : List ℕ} (ha : a.WellFormed .honest ns) :
    a.decomposeAllocated.Succeeds fun bits => ∃ xs : List Bool, xs.length = 256 ∧ HoldBits .honest bits xs ∧
      leBits xs = evalList (2 ^ 64) ns := by
  have hwidth : a.params.limbWidth ≤ numBits := by
    rw [ha.width]
    decide
  refine (Circuit.succeeds_assert hwidth).bind fun _ _ => Circuit.Succeeds.map ?_
  rw [ha.params]
  refine (succeeds_four fun i _ => succeeds_limbBits ha).mono fun bss hbss => ?_
  obtain ⟨b₀, b₁, b₂, b₃, rfl, h₀, h₁, h₂, h₃⟩ := hbss
  obtain ⟨ms, xs, hlen, hlt, hevals, hxlen, hxs, hvalue⟩ := exists_flatten h₀ h₁ h₂ h₃
  exact ⟨xs, hxlen, hxs, hvalue.trans (congrArg _ (ha.eq_of_evals hlt hevals))⟩

omit [ToRepr F] [LawfulToRepr F] in
theorem succeeds_allocBignatConstant {val : ℕ} (hval : val < 2 ^ 256) :
    (allocBignatConstant val 64 4 : Circuit F F _).Succeeds (·.WellFormed .honest (limbsOf val 64 4)) := by
  unfold allocBignatConstant
  rw [limbsOrPanic_eq hval, lift_ok, pure_bind]
  have hvars : ((List.range 4).mapM fun i => (Circuit.var (.ok (((limbsOf val 64 4).getD i 0 : ℕ) : F)) :
      Circuit F F F)).Succeeds
        (List.Forall₂ (fun i (x : F) => x = (((limbsOf val 64 4).getD i 0 : ℕ) : F)) (List.range 4)) :=
    Circuit.Succeeds.mapM fun i _ => ⟨_, ⟨_, rfl, rfl, rfl⟩, rfl⟩
  refine hvars.bind fun vars hvars => ?_
  have hlen := length_limbsOf val 64 4
  have heq : vars = (limbsOf val 64 4).map fun n : ℕ => (n : F) := by
    have hmap := Circuit.map_eq_of_forall₂ (g := id) hvars
    rw [List.map_id] at hmap
    have hself : (List.range 4).map (fun i => (limbsOf val 64 4).getD i 0) = limbsOf val 64 4 := map_getD_range hlen
    rw [hmap, ← hself, List.map_map, hself]
    rfl
  refine (Circuit.Succeeds.forM fun t ht => Circuit.succeeds_require ?_).bind fun _ _ => Circuit.succeeds_pure.mpr ?_
  · rw [heq] at ht
    obtain ⟨i, hi, rfl⟩ := List.mem_iff_getElem.mp ht
    simp [List.getElem_zip]
  · refine ⟨⟨⟨?_, fun _ => rfl⟩, fun _ => rfl, fun n hn => Nat.le_sub_one_of_lt (limbsOf_lt hn)⟩, hlen,
      fun n hn => limbsOf_lt hn, rfl⟩
    show (vars.map LC.var).map LC.eval = _
    rw [map_eval_var, heq]

omit [Field F] [LawfulToRepr F] in
theorem mapM_bitOrPanic (v : F) {is : List ℕ} (h : ∀ i ∈ is, i < numBits) :
    is.mapM (bitOrPanic v) = .ok (is.map (ToRepr.toNat v).testBit) := by
  induction is with
  | nil => rfl
  | cons i is ih =>
    rw [List.forall_mem_cons] at h
    have hbit : bitOrPanic v i = .ok ((ToRepr.toNat v).testBit i) := by
      rw [bitOrPanic, getBit, if_neg (Nat.not_le.mpr h.1)]
    rw [List.mapM_cons, hbit, ih h.2]
    rfl

theorem succeeds_decompose {a : Num F F} {n : ℕ} (ha : a.Holds .honest n) (hn : n < 2 ^ 64) :
    (a.decompose 64).Succeeds (BitsOf .honest 64 a.num) := by
  have hvalues : a.bitValues 64 = .ok (some (toLEBits 64 n)) := by
    rw [Num.bitValues, ha.value_eq rfl]
    simp only
    rw [mapM_bitOrPanic _ fun i hi => lt_trans (List.mem_range.mp hi) (by decide),
      LawfulToRepr.toNat_natCast (lt_trans hn (by decide))]
    rfl
  have hself : (List.range 64).map (fun i => (toLEBits 64 n).getD i false) = toLEBits 64 n :=
    map_getD_range (length_toLEBits 64 n)
  unfold Num.decompose
  rw [hvalues, lift_ok, pure_bind]
  refine (Circuit.Succeeds.mapM fun i _ => succeeds_bitAlloc ((toLEBits 64 n).getD i false)).bind fun bits hbits => ?_
  have hbits : HoldBits .honest bits (toLEBits 64 n) := by
    rw [← hself]
    exact List.forall₂_map_right_iff.mpr hbits.flip
  have hsum : a.num.eval = ((leBits (toLEBits 64 n) : ℕ) : F) := by
    rw [leBits_toLEBits hn]
    exact ha.eval_eq
  refine Circuit.Succeeds.require_bind ?_ (Circuit.succeeds_pure.mpr ⟨_, length_toLEBits _ _, hbits, hsum⟩)
  rw [LC.eval_sub, LC.eval_const, mul_one, LC.eval_zero, eval_bits hbits, hsum, sub_self]

/-- The honest prover's limbs of an element are those of its representative. -/
theorem succeeds_fromNum {n : Num F F} {v : F} (hnum : n.num.eval = v) (hvalue : n.value = some v)
    (hv : ToRepr.toNat v < 2 ^ 256) (hcast : ((ToRepr.toNat v : ℕ) : F) = v) :
    (BigNat.fromNum n 64 4).Succeeds (·.WellFormed .honest (limbsOf (ToRepr.toNat v) 64 4)) := by
  have hlen := length_limbsOf (ToRepr.toNat v) 64 4
  unfold BigNat.fromNum
  rw [hvalue]
  refine (succeeds_allocFromNat (v := ToRepr.toNat v) hv).bind fun a ha => ?_
  have hwf : a.WellFormed .honest (limbsOf (ToRepr.toNat v) 64 4) := ⟨ha.1, hlen, fun n hn => limbsOf_lt hn, ha.2⟩
  refine Circuit.Succeeds.bind (P := fun bits => ∃ xs, HoldBits .honest bits xs ∧ leBits xs = ToRepr.toNat v) ?_
    fun bits hbits => ?_
  · unfold BigNat.decompose
    rw [hwf.limbs_length, hwf.width]
    refine Circuit.Succeeds.map ((succeeds_four fun i _ => succeeds_decompose (hwf.holds.limb i) ?_).mono
      fun bss hbss => ?_)
    · exact hwf.getD_lt i
    obtain ⟨b₀, b₁, b₂, b₃, rfl, h₀, h₁, h₂, h₃⟩ := hbss
    obtain ⟨ms, xs, -, hlt, hevals, -, hxs, hbitsValue⟩ := exists_flatten h₀ h₁ h₂ h₃
    refine ⟨xs, hxs, hbitsValue.trans ?_⟩
    rw [hwf.eq_of_evals hlt hevals, evalList_limbsOf hv]
  obtain ⟨xs, hxs, hxvalue⟩ := hbits
  refine Circuit.Succeeds.require_bind ?_ (Circuit.succeeds_pure.mpr hwf)
  rw [LC.eval_sub, LC.eval_const, mul_one, LC.eval_zero, eval_bits hxs, hnum, hxvalue, hcast, sub_self]

end Honest

end Rules

end ZkCredVega.Nonnative
