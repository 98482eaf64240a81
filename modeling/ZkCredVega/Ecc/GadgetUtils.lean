import ZkCredVega.Bellpepper
import Mathlib.Tactic.Ring

/-!
# Circuit helpers

The selections and the equality test of `gadget_utils.rs`. A helper allocates one number and
emits the constraint that defines it; an equality test takes an inverse from the prover.
-/

namespace ZkCredVega

open Circuits

theorem atLeastTwo_three : Nat.AtLeastTwo 3 := ⟨by decide⟩

section Rules

variable {F V : Type} [Field F] [DecidableEq F] [One V]

/-- A new number filled with `value`, and one constraint `a * b = c` on it. -/
def allocDefined (value : Outcome F) (a b c : AllocatedNum F V → LC F V) : Circuit F V (AllocatedNum F V) := do
  let n ← AllocatedNum.alloc value
  .require (a n) (b n) (c n)
  pure n

/-- `x.invert().unwrap()`. -/
def invert (x : F) : Outcome F := if x = 0 then .error .panic else .ok x⁻¹

def allocZero : Circuit F V (AllocatedNum F V) :=
  allocDefined (.ok 0) (fun _ => 0) (fun _ => 0) fun n => n.lc

def allocConstant (c : F) : Circuit F V (AllocatedNum F V) :=
  allocDefined (.ok c) (fun n => n.lc) (fun _ => .const 1) fun _ => .const c

/-- Checks whether two numbers are equal and returns a bit. -/
def allocNumEquals (a b : AllocatedNum F V) : Circuit F V (AllocatedBit V) := do
  let r ← AllocatedBit.alloc (do pure (decide ((← a.value) = (← b.value))))
  let t ← AllocatedNum.alloc (do
    let x ← assigned a.value
    let y ← assigned b.value
    if x = y then pure 1 else invert (x - y))
  .require t.lc (a.lc - b.lc) (.const 1 - .var r.var)
  .require (.var r.var) (a.lc - b.lc) 0
  pure r

/-- The prover's value of a selection by a Boolean. -/
def chosen (condition : Option Bool) (a b : Outcome F) : Outcome F := do
  if ← assigned condition then a else b

/-- The prover's value of a selection by a number that is one or zero. -/
def chosen2 (condition : Option F) (a b : Outcome F) : Outcome F := do
  if (← assigned condition) = 1 then a else b

/-- `a` when the condition holds, and otherwise `b`. -/
def conditionallySelect (a b : AllocatedNum F V) (condition : Boolean V) : Circuit F V (AllocatedNum F V) :=
  allocDefined (chosen condition.value (assigned a.value) (assigned b.value)) (fun _ => a.lc - b.lc)
    (fun _ => condition.lc 1) fun c => c.lc - b.lc

def conditionallySelect2 (a b condition : AllocatedNum F V) : Circuit F V (AllocatedNum F V) :=
  allocDefined (chosen2 condition.value (assigned a.value) (assigned b.value)) (fun _ => a.lc - b.lc)
    (fun _ => condition.lc) fun c => c.lc - b.lc

/-- Zero when the condition holds, and otherwise `a`. -/
def selectZeroOrNum2 (a condition : AllocatedNum F V) : Circuit F V (AllocatedNum F V) :=
  allocDefined (chosen2 condition.value (.ok 0) (assigned a.value)) (fun _ => a.lc)
    (fun _ => .const 1 - condition.lc) fun c => c.lc

/-- `a` when the condition holds, and otherwise zero. -/
def selectNumOrZero2 (a condition : AllocatedNum F V) : Circuit F V (AllocatedNum F V) :=
  allocDefined (chosen2 condition.value (assigned a.value) (.ok 0)) (fun _ => a.lc)
    (fun _ => condition.lc) fun c => c.lc

def selectNumOrZero (a : AllocatedNum F V) (condition : Boolean V) : Circuit F V (AllocatedNum F V) :=
  allocDefined (chosen condition.value (assigned a.value) (.ok 0)) (fun _ => a.lc)
    (fun _ => condition.lc 1) fun c => c.lc

/-- One when the condition holds, and otherwise `a`. -/
def selectOneOrNum2 (a condition : AllocatedNum F V) : Circuit F V (AllocatedNum F V) :=
  allocDefined (chosen2 condition.value (.ok 1) (assigned a.value)) (fun _ => .const 1 - a.lc)
    (fun _ => condition.lc) fun c => c.lc - a.lc

/-- One when the condition holds, and otherwise `a - b`. -/
def selectOneOrDiff2 (a b condition : AllocatedNum F V) : Circuit F V (AllocatedNum F V) :=
  allocDefined (chosen2 condition.value (.ok 1) (do pure ((← assigned a.value) - (← assigned b.value))))
    (fun _ => .const 1 - a.lc + b.lc) (fun _ => condition.lc) fun c => c.lc - a.lc + b.lc

/-- `a` when the condition holds, and otherwise one. -/
def selectNumOrOne (a : AllocatedNum F V) (condition : Boolean V) : Circuit F V (AllocatedNum F V) :=
  allocDefined (chosen condition.value (assigned a.value) (.ok 1)) (fun _ => a.lc - .const 1)
    (fun _ => condition.lc 1) fun c => c.lc - .const 1

end Rules

/-! ## What the helpers compute -/

section Values

variable {F : Type} [Field F] [DecidableEq F] {who : Circuit.Prover}

omit [DecidableEq F] in
theorem yields_allocDefined {value : Outcome F} {a b c : AllocatedNum F F → LC F F} {v : F}
    (hdef : ∀ n, (a n).eval * (b n).eval = (c n).eval ↔ n.val = v) (hv : who = .honest → value = .ok v) :
    (allocDefined value a b c).Yields who (·.Holds who v) := by
  cases who with
  | any =>
    constructor
    · refine AllocatedNum.ensures_alloc.bind fun n _ => .require_bind fun hn => Circuit.ensures_pure.mpr ?_
      exact ⟨(hdef n).mp hn, fun h => by cases h⟩
    · refine (AllocatedNum.admits_alloc v).bind fun n hn => ?_
      exact .require_bind ((hdef n).mpr hn) (Circuit.admits_pure.mpr ⟨hn, fun h => by cases h⟩)
  | honest =>
    refine (AllocatedNum.succeeds_alloc (hv rfl)).bind fun n hn => ?_
    exact .require_bind ((hdef n).mpr hn.val_eq) (Circuit.succeeds_pure.mpr hn)

omit [DecidableEq F] in
/-- A number whose constraint says that it is `u` or `w` as the condition is one or zero. -/
theorem yields_select {value : Outcome F} {a b c : AllocatedNum F F → LC F F} {x : Bool} {u w : F}
    (hdef : ∀ n, (a n).eval * (b n).eval - (c n).eval = (u - w) * ofBool x - (n.val - w))
    (hv : who = .honest → value = .ok (if x then u else w)) :
    (allocDefined value a b c).Yields who (·.Holds who (if x then u else w)) := by
  apply yields_allocDefined _ hv
  intro n
  rw [← sub_eq_zero, hdef n]
  cases x with
  | true =>
    simp only [ofBool, if_true]
    rw [show (u - w) * 1 - (n.val - w) = u - n.val by ring, sub_eq_zero]
    exact eq_comm
  | false =>
    simp only [ofBool, Bool.false_eq_true, if_false]
    rw [show (u - w) * 0 - (n.val - w) = w - n.val by ring, sub_eq_zero]
    exact eq_comm

variable {a b : AllocatedNum F F} {condition : AllocatedNum F F} {bit : Boolean F} {x : Bool} {u w : F}

theorem chosen2_eq (hc : condition.Holds .honest (ofBool x)) {p q : Outcome F} (hp : p = .ok u) (hq : q = .ok w) :
    chosen2 condition.value p q = .ok (if x then u else w) := by
  rw [chosen2, hc.value_eq rfl, hp, hq]
  show (if (ofBool x : F) = 1 then Except.ok u else Except.ok w) = _
  cases x <;> simp [ofBool]

omit [DecidableEq F] in
theorem chosen_eq (hc : bit.Holds .honest x) {p q : Outcome F} (hp : p = .ok u) (hq : q = .ok w) :
    chosen bit.value p q = .ok (if x then u else w) := by
  rw [chosen, Boolean.HonestReads.value_eq hc, hp, hq]
  cases x <;> rfl

omit [Field F] [DecidableEq F] in
theorem assigned_eq (ha : a.Holds .honest u) : assigned a.value = .ok u := by
  rw [ha.value_eq rfl]
  rfl

theorem yields_conditionallySelect2 (ha : a.Holds who u) (hb : b.Holds who w) (hc : condition.Holds who (ofBool x)) :
    (conditionallySelect2 a b condition).Yields who (·.Holds who (if x then u else w)) := by
  apply yields_select
  · intro n
    simp only [LC.eval_sub, AllocatedNum.eval_lc, ha.val_eq, hb.val_eq, hc.val_eq]
  · rintro rfl
    exact chosen2_eq hc (assigned_eq ha) (assigned_eq hb)

omit [DecidableEq F] in
theorem yields_conditionallySelect (ha : a.Holds who u) (hb : b.Holds who w) (hc : bit.Holds who x) :
    (conditionallySelect a b bit).Yields who (·.Holds who (if x then u else w)) := by
  apply yields_select
  · intro n
    have hbit : bit.eval = ofBool x := hc.reads
    simp only [LC.eval_sub, AllocatedNum.eval_lc, Boolean.eval_lc, ha.val_eq, hb.val_eq, hbit, one_mul]
  · rintro rfl
    exact chosen_eq hc (assigned_eq ha) (assigned_eq hb)

theorem yields_selectZeroOrNum2 (ha : a.Holds who u) (hc : condition.Holds who (ofBool x)) :
    (selectZeroOrNum2 a condition).Yields who (·.Holds who (if x then 0 else u)) := by
  apply yields_select
  · intro n
    simp only [LC.eval_sub, LC.eval_const, AllocatedNum.eval_lc, ha.val_eq, hc.val_eq]
    ring
  · rintro rfl
    exact chosen2_eq hc rfl (assigned_eq ha)

theorem yields_selectNumOrZero2 (ha : a.Holds who u) (hc : condition.Holds who (ofBool x)) :
    (selectNumOrZero2 a condition).Yields who (·.Holds who (if x then u else 0)) := by
  apply yields_select
  · intro n
    simp only [AllocatedNum.eval_lc, ha.val_eq, hc.val_eq]
    ring
  · rintro rfl
    exact chosen2_eq hc (assigned_eq ha) rfl

omit [DecidableEq F] in
theorem yields_selectNumOrZero (ha : a.Holds who u) (hc : bit.Holds who x) :
    (selectNumOrZero a bit).Yields who (·.Holds who (if x then u else 0)) := by
  apply yields_select
  · intro n
    have hbit : bit.eval = ofBool x := hc.reads
    simp only [AllocatedNum.eval_lc, Boolean.eval_lc, ha.val_eq, hbit]
    ring
  · rintro rfl
    exact chosen_eq hc (assigned_eq ha) rfl

theorem yields_selectOneOrNum2 (ha : a.Holds who u) (hc : condition.Holds who (ofBool x)) :
    (selectOneOrNum2 a condition).Yields who (·.Holds who (if x then 1 else u)) := by
  apply yields_select
  · intro n
    simp only [LC.eval_sub, LC.eval_const, AllocatedNum.eval_lc, ha.val_eq, hc.val_eq]
  · rintro rfl
    exact chosen2_eq hc rfl (assigned_eq ha)

theorem yields_selectOneOrDiff2 (ha : a.Holds who u) (hb : b.Holds who w) (hc : condition.Holds who (ofBool x)) :
    (selectOneOrDiff2 a b condition).Yields who (·.Holds who (if x then 1 else u - w)) := by
  apply yields_select
  · intro n
    simp only [LC.eval_sub, LC.eval_add, LC.eval_const, AllocatedNum.eval_lc, ha.val_eq, hb.val_eq, hc.val_eq]
    ring
  · rintro rfl
    refine chosen2_eq hc rfl ?_
    rw [assigned_eq ha, assigned_eq hb]
    rfl

omit [DecidableEq F] in
theorem yields_selectNumOrOne (ha : a.Holds who u) (hc : bit.Holds who x) :
    (selectNumOrOne a bit).Yields who (·.Holds who (if x then u else 1)) := by
  apply yields_select
  · intro n
    have hbit : bit.eval = ofBool x := hc.reads
    simp only [LC.eval_sub, LC.eval_const, AllocatedNum.eval_lc, Boolean.eval_lc, ha.val_eq, hbit, one_mul]
  · rintro rfl
    exact chosen_eq hc (assigned_eq ha) rfl

omit [DecidableEq F] in
theorem yields_allocZero : (allocZero : Circuit F F _).Yields who (·.Holds who 0) := by
  apply yields_allocDefined
  · intro n
    simp [eq_comm]
  · intro _
    rfl

omit [DecidableEq F] in
theorem yields_allocConstant (c : F) : (allocConstant c : Circuit F F _).Yields who (·.Holds who c) := by
  apply yields_allocDefined
  · intro n
    simp
  · intro _
    rfl

omit [DecidableEq F] in
theorem ensures_bitAlloc {value : Option Bool} :
    (AllocatedBit.alloc value : Circuit F F _).Ensures fun r => ∃ y, r.var = ofBool y := by
  refine .var_bind fun v => .require_bind fun h => Circuit.ensures_pure.mpr ?_
  exact exists_ofBool (by simpa using h)

omit [DecidableEq F] in
theorem admits_bitAlloc {value : Option Bool} (y : Bool) :
    (AllocatedBit.alloc value : Circuit F F _).Admits fun r => r.var = ofBool y := by
  refine .var_bind (ofBool y) (.require_bind ?_ (Circuit.admits_pure.mpr rfl))
  cases y <;> simp [ofBool]

omit [DecidableEq F] in
theorem succeeds_bitAlloc (y : Bool) :
    (AllocatedBit.alloc (some y) : Circuit F F _).Succeeds fun r => (Boolean.is r).HonestReads y := by
  refine .var_bind rfl (.require_bind ?_ (Circuit.succeeds_pure.mpr ⟨rfl, rfl⟩))
  cases y <;> simp [ofBool]

/-- The inverse that shows two numbers different, or one. -/
def equalityHint (u w : F) : F := if u = w then 1 else (u - w)⁻¹

theorem equalityHint_mul (u w : F) : equalityHint u w * (u - w) = 1 - ofBool (decide (u = w)) := by
  by_cases h : u = w
  · simp [h, ofBool]
  · simp [equalityHint, h, ofBool, inv_mul_cancel₀ (sub_ne_zero.mpr h)]

theorem ofBool_mul_sub (u w : F) : ofBool (decide (u = w)) * (u - w) = 0 := by
  by_cases h : u = w <;> simp [h, ofBool]

/-- The bit is whether the numbers are equal, whatever inverse the prover supplies. -/
theorem yields_allocNumEquals (ha : a.Holds who u) (hb : b.Holds who w) :
    (allocNumEquals a b).Yields who fun r => (Boolean.is r).Holds who (decide (u = w)) := by
  have hdiff : (a.lc - b.lc).eval = u - w := by
    rw [LC.eval_sub, AllocatedNum.eval_lc, AllocatedNum.eval_lc, ha.val_eq, hb.val_eq]
  cases who with
  | any =>
    constructor
    · refine ensures_bitAlloc.bind ?_
      rintro r ⟨y, hr⟩
      refine AllocatedNum.ensures_alloc.bind fun t _ => .require_bind fun h1 => .require_bind fun h2 =>
        Circuit.ensures_pure.mpr ?_
      rw [hdiff, LC.eval_sub, LC.eval_const, LC.eval_var, hr] at h1
      rw [hdiff, LC.eval_var, hr, LC.eval_zero] at h2
      obtain rfl : y = decide (u = w) := by
        by_cases huw : u = w
        · rw [huw, sub_self, mul_zero] at h1
          rw [decide_eq_true huw]
          exact ofBool_inj (F := F) (sub_eq_zero.mp h1.symm).symm
        · rw [decide_eq_false huw]
          exact ofBool_inj (F := F) ((mul_eq_zero.mp h2).resolve_right (sub_ne_zero.mpr huw))
      exact hr
    · refine (admits_bitAlloc (decide (u = w))).bind fun r hr => ?_
      refine (AllocatedNum.admits_alloc (equalityHint u w)).bind fun t ht => ?_
      refine .require_bind ?_ (.require_bind ?_ (Circuit.admits_pure.mpr hr))
      · rw [hdiff, AllocatedNum.eval_lc, ht, LC.eval_sub, LC.eval_const, LC.eval_var, hr, equalityHint_mul]
      · rw [hdiff, LC.eval_var, hr, ofBool_mul_sub, LC.eval_zero]
  | honest =>
    have hvalue : (do pure (decide ((← a.value) = (← b.value))) : Option Bool) = some (decide (u = w)) := by
      rw [ha.value_eq rfl, hb.value_eq rfl]
      rfl
    have hhint : (do
        let x ← assigned a.value
        let y ← assigned b.value
        if x = y then pure 1 else invert (x - y) : Outcome F) = .ok (equalityHint u w) := by
      rw [assigned_eq ha, assigned_eq hb]
      show (if u = w then pure 1 else invert (u - w)) = _
      by_cases huw : u = w
      · simp only [huw, equalityHint, if_true]
        rfl
      · rw [if_neg huw, equalityHint, if_neg huw, invert, if_neg (sub_ne_zero.mpr huw)]
    unfold allocNumEquals
    rw [hvalue, hhint]
    refine (succeeds_bitAlloc _).bind fun r hr => (AllocatedNum.succeeds_alloc rfl).bind fun t ht => ?_
    have hvar : r.var = ofBool (decide (u = w)) := hr.reads
    refine .require_bind ?_ (.require_bind ?_ (Circuit.succeeds_pure.mpr hr))
    · rw [hdiff, AllocatedNum.eval_lc, ht.val_eq, LC.eval_sub, LC.eval_const, LC.eval_var, hvar, equalityHint_mul]
    · rw [hdiff, LC.eval_var, hvar, ofBool_mul_sub, LC.eval_zero]

end Values

end ZkCredVega
