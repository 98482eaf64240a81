import ZkCredVega.Circuit.Trace
import ZkCredVega.Nym.Rules
import ZkCredVega.P256

/-!
# Values computed natively

`gadgets/values.rs`, `less_than_values` of `gadgets/bits.rs` and `inverse_all` of
`gadgets/lc.rs`: what the prover computes beside the rules. The values a gadget's native
twin pushes are the ones the gadget's allocations hold.
-/

namespace ZkCredVega.Nym

open Circuits

section Values

variable {F : Type} [Field F]

/-- Values in allocation order. -/
abbrev Values (F : Type) : Type := List F

def Values.bit (values : Values F) (b : Bool) : Values F := values ++ [if b then 1 else 0]

/-- The values of `lessThan`: at each bit, whether the bits so far agree with `c`'s. -/
def lessThanValues (values : Values F) (bits : List Bool) (c : List UInt8) : Values F :=
  ((bits.zip (bytesBits c)).foldl
    (fun (t : Bool × Values F) b =>
      let equalSoFar := t.1 && b.1 == b.2
      (equalSoFar, t.2.bit equalSoFar))
    (true, values)).2

/-! ## Comparison with a constant -/

/-- Whether the bits agree so far, at each bit. -/
def agreements : Bool → List (Bool × Bool) → List Bool
  | _, [] => []
  | e, b :: bs => (e && b.1 == b.2) :: agreements (e && b.1 == b.2) bs

theorem lessThanValues_eq (values : Values F) (bits : List Bool) (c : List UInt8) :
    lessThanValues values bits c = values ++ (agreements true (bits.zip (bytesBits c))).map ofBool := by
  unfold lessThanValues
  generalize bits.zip (bytesBits c) = bs
  have hfold : ∀ (e : Bool) (values : Values F), (bs.foldl (fun (t : Bool × Values F) b =>
      let equalSoFar := t.1 && b.1 == b.2
      (equalSoFar, t.2.bit equalSoFar)) (e, values)).2 = values ++ (agreements e bs).map ofBool := by
    induction bs with
    | nil =>
      intro e values
      simp [agreements]
    | cons b bs ih =>
      intro e values
      rw [List.foldl_cons, ih, agreements, List.map_cons, Values.bit, List.append_assoc]
      rfl
  exact hfold true values

variable {who : Circuit.Prover}

theorem fills_mul {a b : Lc F F} {v w : F} (ha : a.Holds who v) (hb : b.Holds who w) :
    (mul a b).Fills who [v * w] (·.Holds who (v * w)) := by
  apply Circuit.Fills.var_require (c := fun w => LC.var w) (f := fun w => (⟨LC.var w, _⟩ : Lc F F))
  · intro u
    rw [ha.eval_eq, hb.eval_eq, LC.eval_var]
    exact eq_comm
  · intro hw
    rw [ha.value_eq hw, hb.value_eq hw]
    rfl
  · refine ⟨LC.eval_var _, fun hw => ?_⟩
    show (do pure ((← a.value) * (← b.value)) : Option F) = _
    rw [ha.value_eq hw, hb.value_eq hw]
    rfl

/-- One bit: the product is one while the bits agree, and a difference at a one of the constant
makes the integer smaller. -/
theorem fills_lessThanBit {t : Lc F F × Lc F F} {b : Boolean F} {x c equal less : Bool} (hb : b.Holds who x)
    (hequal : t.1.Holds who (ofBool equal)) (hless : t.2.Holds who (ofBool less))
    (hapart : equal = true → less = false) :
    (lessThanBit t (b, c)).Fills who [ofBool (equal && x == c)] fun t' =>
      t'.1.Holds who (ofBool (equal && x == c)) ∧ t'.2.Holds who (ofBool (less || equal && !x && c)) := by
  have hbit := Lc.holds_bit hb
  cases c with
  | true =>
    have hmul := fills_mul hequal hbit
    rw [ofBool_mul] at hmul
    have hagree : (x == true) = x := by cases x <;> rfl
    rw [hagree, ← List.append_nil [ofBool (equal && x)]]
    refine hmul.bind fun still hstill => Circuit.fills_pure ⟨hstill, ?_⟩
    -- the two events exclude each other, so that their sum is a bit
    have hsum : (ofBool less + (ofBool equal - ofBool (equal && x)) : F) =
        ofBool (less || equal && !x && true) := by
      cases equal with
      | true =>
        rw [hapart rfl]
        cases x <;> simp [ofBool]
      | false => simp [ofBool]
    rw [← hsum]
    exact hless.add (hequal.sub hstill)
  | false =>
    have hnot : (Lc.constant 1 - Lc.bit b : Lc F F).Holds who (ofBool !x) := by
      rw [← one_sub_ofBool]
      exact (Lc.holds_constant 1).sub hbit
    have hmul := fills_mul hequal hnot
    rw [ofBool_mul] at hmul
    have hagree : (x == false) = !x := by cases x <;> rfl
    rw [hagree, Bool.and_false, Bool.or_false, ← List.append_nil [ofBool (equal && !x)]]
    exact hmul.bind fun still hstill => Circuit.fills_pure ⟨hstill, hless⟩

/-- The rules of the bits fill their products with the agreements, whatever the integer is. -/
theorem fills_lessThanBits {bits : List (Boolean F)} {xs cs : List Bool} (hbits : Boolean.HoldsAll who bits xs)
    (hlen : xs.length = cs.length) {t : Lc F F × Lc F F} {equal less : Bool}
    (hequal : t.1.Holds who (ofBool equal)) (hless : t.2.Holds who (ofBool less))
    (hapart : equal = true → less = false) :
    ((bits.zip cs).foldlM lessThanBit t).Fills who ((agreements equal (xs.zip cs)).map ofBool) fun t' =>
      t'.2.Holds who (ofBool (less || equal && decide (xs < cs))) := by
  induction hbits generalizing cs t equal less with
  | nil =>
    obtain rfl := List.length_eq_zero_iff.mp hlen.symm
    apply Circuit.fills_pure
    simpa using hless
  | cons hb _ ih =>
    rename_i b x bits xs _
    cases cs with
    | nil => cases hlen
    | cons c cs =>
      rw [List.zip_cons_cons, List.foldlM_cons, List.zip_cons_cons, agreements, List.map_cons,
        ← List.singleton_append]
      refine (fills_lessThanBit hb hequal hless hapart).bind fun t' ht' => ?_
      have hapart' : (equal && x == c) = true → (less || equal && !x && c) = false := by
        cases equal with
        | true =>
          rw [hapart rfl]
          cases x <;> cases c <;> decide
        | false =>
          intro h
          cases h
      have hrest := ih (Nat.succ.inj hlen) ht'.1 ht'.2 hapart'
      have hless' : ((less || equal && !x && c) || (equal && x == c) && decide (xs < cs)) =
          (less || equal && decide (x :: xs < c :: cs)) := by
        rw [decide_cons_lt]
        cases less <;> cases equal <;> cases x <;> cases c <;> rfl
      rwa [hless'] at hrest

theorem traces_equal {a b : Lc F F} {ins vs : List F} {u : Unit} :
    (equal a b).Traces ins vs u ↔ ins = [] ∧ vs = [] ∧ a.lc.eval = b.lc.eval := by
  show (a.lc - b.lc).eval * (LC.const 1).eval = (0 : LC F F).eval ∧ ins = [] ∧ vs = [] ∧ u = () ↔ _
  rw [LC.eval_sub, LC.eval_const, mul_one, LC.eval_zero, sub_eq_zero]
  constructor
  · rintro ⟨heq, hins, hvs, -⟩
    exact ⟨hins, hvs, heq⟩
  · rintro ⟨hins, hvs, heq⟩
    exact ⟨heq, hins, hvs, rfl⟩

theorem fills_lessThan_products (who : Circuit.Prover) (c : List UInt8) {bits : List (Boolean F)} {xs : List Bool}
    (hbits : Boolean.HoldsAll who bits xs) (hlen : xs.length = 8 * c.length) :
    (do
      Circuit.assert (bits.length = (bytesBits c).length)
      (bits.zip (bytesBits c)).foldlM lessThanBit (Lc.constant 1, 0)).Fills who
      ((agreements true (xs.zip (bytesBits c))).map ofBool) fun t =>
        t.2.Holds who (ofBool (decide (beBits xs < bytesNat c))) := by
  have hlen' : xs.length = (bytesBits c).length := by rw [hlen, length_bytesBits]
  have hone : (Lc.constant 1 : Lc F F).Holds who (ofBool true) := Lc.holds_constant 1
  have hzero : (0 : Lc F F).Holds who (ofBool false) := Lc.holds_zero
  have hloop := fills_lessThanBits (t := (Lc.constant 1, 0)) hbits hlen' hone hzero fun _ => rfl
  have hlt : (false || true && decide (xs < bytesBits c)) = decide (beBits xs < bytesNat c) := by
    rw [Bool.false_or, Bool.true_and, decide_eq_decide, bits_lt_iff hlen', beBits_bytesBits]
  rw [hlt] at hloop
  have hassert : bits.length = (bytesBits c).length := by rw [hbits.length_eq, hlen']
  exact (Circuit.fills_assert hassert).bind fun _ _ => hloop

theorem holdsAll_of_value {bits : List (Boolean F)} {xs : List Bool} (hbits : Boolean.ReadsAll bits xs)
    (hvalues : bits.map Boolean.value = xs.map some) : Boolean.HoldsAll .honest bits xs := by
  induction hbits with
  | nil => exact .nil
  | cons hb _ ih =>
    rw [List.map_cons, List.map_cons, List.cons.injEq] at hvalues
    exact .cons ⟨hb, hvalues.1⟩ (ih hvalues.2)

theorem eval_eq_one_iff {a : Lc F F} {x : Bool} (h : a.Holds .any (ofBool x)) :
    a.lc.eval = (Lc.constant 1 : Lc F F).lc.eval ↔ x = true := by
  rw [h.eval_eq, Lc.eval_constant]
  cases x <;> simp [ofBool]

theorem runs_lessThan {c : List UInt8} {bits : List (Boolean F)} {xs : List Bool}
    (hbits : Boolean.ReadsAll bits xs) (hlen : xs.length = 8 * c.length) {ins : List F} {u : Unit} :
    (lessThan bits c : Circuit F F Unit).Runs ins u ↔ ins = [] ∧ beBits xs < bytesNat c := by
  obtain ⟨hsound, t, htraces, ht⟩ := fills_lessThan_products .any c hbits hlen
  constructor
  · intro h
    obtain ⟨vs, h⟩ := Circuit.runs_iff_exists_traces.mp h
    rw [lessThan, ← bind_assoc] at h
    obtain ⟨i, j, us, ws, t, rfl, -, hloop, hequal⟩ := Circuit.traces_bind.mp h
    obtain ⟨rfl, -, ht⟩ := hsound i us t hloop
    obtain ⟨rfl, -, hone⟩ := traces_equal.mp hequal
    exact ⟨rfl, of_decide_eq_true ((eval_eq_one_iff ht).mp hone)⟩
  · rintro ⟨rfl, hlt⟩
    have hequal := (eval_eq_one_iff ht).mpr (decide_eq_true hlt)
    rw [lessThan, ← bind_assoc]
    exact .bind_intro (Circuit.runs_iff_exists_traces.mpr ⟨_, htraces⟩) (runs_equal.mpr ⟨rfl, hequal⟩)

theorem yields_lessThan {c : List UInt8} {bits : List (Boolean F)} {xs : List Bool}
    (hbits : Boolean.HoldsAll who bits xs) (hlen : xs.length = 8 * c.length) (hlt : beBits xs < bytesNat c) :
    (lessThan bits c : Circuit F F Unit).Yields who fun _ => True := by
  have hany := fills_lessThan_products .any c hbits.reads hlen
  cases who with
  | any =>
    have hruns : (lessThan bits c : Circuit F F Unit).Runs [] () := (runs_lessThan hbits hlen).mpr ⟨rfl, hlt⟩
    exact ⟨fun _ _ h => ⟨((runs_lessThan hbits hlen).mp h).1, trivial⟩, (), hruns, trivial⟩
  | honest =>
    have hproducts := hany.succeeds (fills_lessThan_products .honest c hbits hlen)
    rw [lessThan, ← bind_assoc]
    refine Circuit.Succeeds.bind hproducts fun t ht => ?_
    rw [decide_eq_true hlt] at ht
    exact Circuit.Yields.succeeds (yields_equal ht (Lc.holds_constant 1))

/-- The rules hold exactly when the integer of the bits is less than the constant. Their products
are then the values that `lessThanValues` pushes, and those are what the witness generator records
for every integer. -/
theorem lessThan_exact (c : List UInt8) {bits : List (Boolean F)} {xs : List Bool}
    (hbits : Boolean.ReadsAll bits xs) (hlen : xs.length = 8 * c.length) :
    ∃ products : List F, (∀ values, lessThanValues values xs c = values ++ products) ∧
      ((∃ ins u, (lessThan bits c : Circuit F F Unit).Runs ins u) ↔ beBits xs < bytesNat c) ∧
      (∀ ins vs u, (lessThan bits c : Circuit F F Unit).Traces ins vs u → vs = products) ∧
      (bits.map Boolean.value = xs.map some →
        (lessThan bits c : Circuit F F Unit).generate = .ok (products, ())) := by
  refine ⟨_, fun values => lessThanValues_eq values xs c, ?_, ?_, ?_⟩
  · constructor
    · rintro ⟨ins, u, h⟩
      exact (runs_lessThan hbits hlen).mp h |>.2
    · intro hlt
      exact ⟨[], (), (runs_lessThan hbits hlen).mpr ⟨rfl, hlt⟩⟩
  · intro ins vs u h
    rw [lessThan, ← bind_assoc] at h
    obtain ⟨i, j, us, ws, t, -, rfl, hloop, hequal⟩ := Circuit.traces_bind.mp h
    obtain ⟨-, rfl, -⟩ := (fills_lessThan_products .any c hbits hlen).1 i us t hloop
    rw [(traces_equal.mp hequal).2.1, List.append_nil]
  · intro hvalues
    have hknown : Boolean.HoldsAll .honest bits xs := holdsAll_of_value hbits hvalues
    obtain ⟨t, ht, -⟩ := fills_lessThan_products .honest c hknown hlen
    rw [lessThan, ← bind_assoc, ← List.append_nil (List.map ofBool _)]
    exact Circuit.generate_bind ht rfl

def bitSlots (xs : List Bool) : List (Boolean F) := xs.map fun x => .is ⟨ofBool x, some x⟩

theorem readsAll_bitSlots (xs : List Bool) : Boolean.ReadsAll (bitSlots xs : List (Boolean F)) xs := by
  rw [Boolean.ReadsAll, bitSlots, List.forall₂_map_left_iff, List.forall₂_same]
  exact fun _ _ => rfl

theorem lessThan_exact_order :
    (∃ ins u, (lessThan (bitSlots (bytesBits (beBytes 32 3))) order : Circuit Scalar Scalar Unit).Runs ins u) ∧
      (lessThan (bitSlots (bytesBits (beBytes 32 3))) order : Circuit Scalar Scalar Unit).generate =
        .ok (lessThanValues [] (bytesBits (beBytes 32 3)) order, ()) := by
  have hlen : (bytesBits (beBytes 32 3)).length = 8 * order.length := by
    rw [length_bytesBits]
    rfl
  obtain ⟨products, hproducts, hiff, -, hgenerate⟩ := lessThan_exact order
    (readsAll_bitSlots (F := Scalar) (bytesBits (beBytes 32 3))) hlen
  refine ⟨hiff.mpr (by decide +kernel), ?_⟩
  rw [hproducts, List.nil_append]
  apply hgenerate
  rw [bitSlots, List.map_map]
  rfl

/-! ## Batch inversion -/

section Inverse

variable [DecidableEq F]

/-- `Field::invert`: zero has no inverse. -/
def invert (v : F) : Option F := if v = 0 then none else some v⁻¹

/-- The inverse of a value, or zero for zero. -/
def inverse (v : F) : F := (invert v).getD 0

/-- The running product, which skips zeros. -/
def nextProduct (product v : F) : F := if v = 0 then product else product * v

/-- One step back: `t.2` is the inverse of the product up to this value. -/
def inverseStep (vb : F × F) (t : List F × F) : List F × F :=
  if vb.1 = 0 then (vb.1 :: t.1, t.2) else (t.2 * vb.2 :: t.1, t.2 * vb.1)

/-- Each value replaced by its inverse, zero for zero, with one inversion. -/
def inverseAll (values : List F) : List F :=
  let t := values.foldl (fun (t : List F × F) v => (t.1 ++ [t.2], nextProduct t.2 v)) ([], 1)
  ((values.zip t.1).foldr inverseStep ([], inverse t.2)).1

theorem inverse_eq_inv (v : F) : inverse v = v⁻¹ := by
  by_cases hv : v = 0
  · simp [inverse, invert, hv]
  · simp [inverse, invert, hv]

/-- The products of the nonzero values before each. -/
def productsBefore : F → List F → List F
  | _, [] => []
  | p, v :: vs => p :: productsBefore (nextProduct p v) vs

theorem foldl_products (values before : List F) (p : F) :
    values.foldl (fun (t : List F × F) v => (t.1 ++ [t.2], nextProduct t.2 v)) (before, p) =
      (before ++ productsBefore p values, values.foldl nextProduct p) := by
  induction values generalizing before p with
  | nil => simp [productsBefore]
  | cons v vs ih =>
    rw [List.foldl_cons, ih, productsBefore, List.append_assoc, List.singleton_append, List.foldl_cons]

theorem nextProduct_ne_zero {p : F} (hp : p ≠ 0) (v : F) : nextProduct p v ≠ 0 := by
  unfold nextProduct
  split
  · exact hp
  · rename_i hv
    exact mul_ne_zero hp hv

/-- From the inverse of the whole product, the steps back give the inverses and the inverse of the
product before the first value. -/
theorem foldr_inverseStep (values : List F) {p : F} (hp : p ≠ 0) :
    (values.zip (productsBefore p values)).foldr inverseStep ([], (values.foldl nextProduct p)⁻¹) =
      (values.map fun v => v⁻¹, p⁻¹) := by
  induction values generalizing p with
  | nil => rfl
  | cons v vs ih =>
    rw [productsBefore, List.zip_cons_cons, List.foldr_cons, List.foldl_cons, ih (nextProduct_ne_zero hp v),
      List.map_cons]
    by_cases hv : v = 0
    · simp [inverseStep, nextProduct, hv]
    · have hvalue : (p * v)⁻¹ * p = v⁻¹ := by field_simp
      have hrest : (p * v)⁻¹ * v = p⁻¹ := by field_simp
      simp only [inverseStep, nextProduct, if_neg hv, hvalue, hrest]

theorem inverseAll_eq (values : List F) : inverseAll values = values.map fun v => v⁻¹ := by
  simp only [inverseAll]
  rw [foldl_products, inverse_eq_inv, List.nil_append, foldr_inverseStep values one_ne_zero]

/-- Batch inversion replaces each nonzero value by its inverse and leaves each zero, in order. -/
theorem inverseAll_inverts (values : List F) :
    List.Forall₂ (fun v w => (v = 0 → w = 0) ∧ (v ≠ 0 → v * w = 1)) values (inverseAll values) := by
  rw [inverseAll_eq, List.forall₂_map_right_iff, List.forall₂_same]
  intro v _
  refine ⟨?_, fun hv => mul_inv_cancel₀ hv⟩
  rintro rfl
  exact inv_zero

end Inverse

end Values

end ZkCredVega.Nym
