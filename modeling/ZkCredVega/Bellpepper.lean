import ZkCredVega.Circuit.Honest
import ZkCredVega.Circuit.OneHot
import ZkCredVega.Circuit.Radix
import Mathlib.Tactic.LinearCombination
import Mathlib.Tactic.Ring

/-!
# The bellpepper primitives

The allocated numbers and Booleans of `bellpepper_core` that every gadget is
written with, as that library documents them: the constraint each operation
emits and the value the prover gives it. A `Boolean` is an allocated bit, its
negation, or a constant, which the operations fold. `Boolean.eval` is what a
Boolean is worth; `Boolean.IsBit` that it is worth `0` or `1`, and then
`Boolean.bool` reads it.
-/

namespace ZkCredVega

open Circuits

/-- `PrimeField::to_repr`: the canonical representative of a field element. -/
class ToRepr (F : Type) where
  toNat : F → ℕ

/-- A small number is its own representative. -/
class LawfulToRepr (F : Type) [Ring F] [ToRepr F] : Prop where
  toNat_natCast : ∀ {n : ℕ}, n < 2 ^ 255 → ToRepr.toNat (n : F) = n

/-- `Assignment::get`: a missing value is an error of the prover. -/
def assigned {α : Type} : Option α → Outcome α
  | some a => .ok a
  | none => .error .assignmentMissing

section Types

variable (F V : Type)

structure AllocatedNum where
  var : V
  value : Option F

structure AllocatedBit where
  var : V
  value : Option Bool

inductive Boolean where
  | is (b : AllocatedBit V)
  | not (b : AllocatedBit V)
  | constant (b : Bool)

end Types

variable {F V : Type} [Field F]

/-! ## Numbers -/

namespace AllocatedNum

def alloc (value : Outcome F) : Circuit F V (AllocatedNum F V) := do
  let v ← .var value
  pure { var := v, value := value.toOption }

def allocInput (value : Outcome F) : Circuit F V (AllocatedNum F V) := do
  let v ← .input value
  pure { var := v, value := value.toOption }

/-- The linear combination of the number alone. -/
def lc (a : AllocatedNum F V) : LC F V := .var a.var

def inputize [One V] (a : AllocatedNum F V) : Circuit F V Unit := do
  let input ← .input (assigned a.value)
  .require (.var input) (.const 1) a.lc

def mul (a b : AllocatedNum F V) : Circuit F V (AllocatedNum F V) := do
  let c ← alloc (do pure ((← assigned a.value) * (← assigned b.value)))
  .require a.lc b.lc c.lc
  pure c

def square (a : AllocatedNum F V) : Circuit F V (AllocatedNum F V) := do
  let c ← alloc (do let v ← assigned a.value; pure (v * v))
  .require a.lc a.lc c.lc
  pure c

abbrev val (a : AllocatedNum F F) : F := a.var

@[simp] theorem eval_lc (a : AllocatedNum F F) : a.lc.eval = a.val := by simp [lc]

theorem ensures_alloc {h : Outcome F} :
    (alloc h : Circuit F F _).Ensures fun _ => True :=
  .var_bind fun _ => Circuit.ensures_pure.mpr trivial

theorem admits_alloc {h : Outcome F} (v : F) :
    (alloc h : Circuit F F _).Admits fun a => a.val = v :=
  .var_bind v (Circuit.admits_pure.mpr rfl)

@[simp] theorem runs_inputize {a : AllocatedNum F F} {ins : List F} {u : Unit} :
    (inputize a).Runs ins u ↔ ins = [a.val] := by
  simp only [inputize, Circuit.runs_bind, Circuit.runs_input, Circuit.runs_require]
  constructor
  · rintro ⟨i, j, v, rfl, rfl, rfl, h⟩; simpa using h
  · rintro rfl; exact ⟨[a.val], [], a.val, rfl, rfl, rfl, by simp⟩

/-- The number is worth `v`, and for the honest prover that is the value it holds. -/
structure Holds (who : Circuit.Prover) (a : AllocatedNum F F) (v : F) : Prop where
  val_eq : a.val = v
  value_eq : who = .honest → a.value = some v

theorem succeeds_alloc {h : Outcome F} {v : F} (hv : h = .ok v) :
    (alloc h : Circuit F F _).Succeeds (·.Holds .honest v) := by
  subst hv
  exact .var_bind rfl (Circuit.succeeds_pure.mpr ⟨rfl, fun _ => rfl⟩)

/-- A number constrained to be worth a product of linear combinations. -/
theorem yields_allocEqual {who : Circuit.Prover} {h : Outcome F} {x y : LC F F} {v : F}
    (hxy : x.eval * y.eval = v) (hv : who = .honest → h = .ok v) :
    (do
      let a ← alloc h
      Circuit.require x y a.lc
      pure a).Yields who (·.Holds who v) := by
  cases who with
  | any =>
    constructor
    · refine ensures_alloc.bind fun a _ => .require_bind fun ha => Circuit.ensures_pure.mpr ?_
      rw [hxy, eval_lc] at ha
      exact ⟨ha.symm, nofun⟩
    · refine (admits_alloc v).bind fun a ha => .require_bind ?_ (Circuit.admits_pure.mpr ⟨ha, nofun⟩)
      rw [hxy, eval_lc, ha]
  | honest =>
    refine (succeeds_alloc (hv rfl)).bind fun a ha => .require_bind ?_ (Circuit.succeeds_pure.mpr ha)
    rw [hxy, eval_lc, ha.val_eq]

theorem honest_inputize {a : AllocatedNum F F} {v : F} (h : a.Holds .honest v) :
    (inputize a).Honest [v] () := by
  refine Circuit.honest_bind.mpr ⟨[v], [], v, rfl, ⟨v, [], ?_, rfl, rfl, rfl⟩, ?_, rfl, rfl⟩
  · rw [h.value_eq rfl]
    rfl
  · rw [eval_lc, h.val_eq]
    simp

end AllocatedNum

/-! ## Bits -/

namespace AllocatedBit

def alloc [One V] (value : Option Bool) : Circuit F V (AllocatedBit V) := do
  let v ← .var ((assigned value).map ofBool)
  .require (.const 1 - .var v) (.var v) 0
  pure { var := v, value }

/-- The shape shared by the products of two bits: `x * y = result` for the linear
combinations `x` and `y` of the operands. -/
def product [One V] (x y : LC F V) (value : Option Bool) : Circuit F V (AllocatedBit V) := do
  let v ← .var ((assigned value).map ofBool)
  .require x y (.var v)
  pure { var := v, value }

def and [One V] (a b : AllocatedBit V) : Circuit F V (AllocatedBit V) :=
  product (.var a.var) (.var b.var) (do pure ((← a.value) && (← b.value)))

def andNot [One V] (a b : AllocatedBit V) : Circuit F V (AllocatedBit V) :=
  product (.var a.var) (.const 1 - .var b.var) (do pure ((← a.value) && !(← b.value)))

def nor [One V] (a b : AllocatedBit V) : Circuit F V (AllocatedBit V) :=
  product (.const 1 - .var a.var) (.const 1 - .var b.var)
    (do pure (!(← a.value) && !(← b.value)))

def xor [One V] (a b : AllocatedBit V) : Circuit F V (AllocatedBit V) := do
  let value : Option Bool := do pure ((← a.value) ^^ (← b.value))
  let v ← .var ((assigned value).map ofBool)
  .require (.var a.var + .var a.var) (.var b.var)
    (.var a.var + .var b.var - .var v)
  pure { var := v, value }

end AllocatedBit

/-! ## Booleans -/

namespace Boolean

def value : Boolean V → Option Bool
  | is b => b.value
  | not b => b.value.map (!·)
  | constant c => some c

/-- `Boolean::lc` with the given coefficient. -/
def lc [One V] (coeff : F) : Boolean V → LC F V
  | is b => .term coeff b.var
  | not b => .const coeff - .term coeff b.var
  | constant c => if c then .const coeff else 0

def neg : Boolean V → Boolean V
  | is b => not b
  | not b => is b
  | constant c => constant !c

def alloc [One V] (value : Option Bool) : Circuit F V (Boolean V) :=
  is <$> AllocatedBit.alloc value

def and [One V] : Boolean V → Boolean V → Circuit F V (Boolean V)
  | constant false, _ => pure (constant false)
  | _, constant false => pure (constant false)
  | constant true, x => pure x
  | x, constant true => pure x
  | is a, not b => is <$> AllocatedBit.andNot a b
  | not b, is a => is <$> AllocatedBit.andNot a b
  | not a, not b => is <$> AllocatedBit.nor a b
  | is a, is b => is <$> AllocatedBit.and a b

def or [One V] (a b : Boolean V) : Circuit F V (Boolean V) := neg <$> and a.neg b.neg

def xor [One V] : Boolean V → Boolean V → Circuit F V (Boolean V)
  | constant false, x => pure x
  | x, constant false => pure x
  | constant true, x => pure x.neg
  | x, constant true => pure x.neg
  | is a, not b => not <$> AllocatedBit.xor a b
  | not b, is a => not <$> AllocatedBit.xor a b
  | is a, is b => is <$> AllocatedBit.xor a b
  | not a, not b => is <$> AllocatedBit.xor a b

def enforceEqual [One V] : Boolean V → Boolean V → Circuit F V Unit
  | constant a, constant b => if a = b then pure () else .fail .unsatisfiable
  | constant true, x => .require 0 0 (.const 1 - x.lc 1)
  | x, constant true => .require 0 0 (.const 1 - x.lc 1)
  | constant false, x => .require 0 0 (x.lc 1)
  | x, constant false => .require 0 0 (x.lc 1)
  | x, y => .require 0 0 (x.lc 1 - y.lc 1)

/-! ## What a Boolean is worth -/

def eval : Boolean F → F
  | is b => b.var
  | not b => 1 - b.var
  | constant c => ofBool c

def Reads (b : Boolean F) (x : Bool) : Prop := b.eval = ofBool x

/-- The Boolean is worth `0` or `1`. -/
def IsBit (b : Boolean F) : Prop := ∃ x, b.Reads x

/-- A list of Booleans is worth a list of bits. -/
abbrev ReadsAll (bs : List (Boolean F)) (xs : List Bool) : Prop := List.Forall₂ Reads bs xs

@[simp] theorem eval_lc (c : F) (b : Boolean F) : (b.lc c).eval = c * b.eval := by
  rcases b with b | b | b
  · simp [lc, eval]
  · simp [lc, eval]; ring
  · cases b <;> simp [lc, eval, ofBool]

@[simp] theorem eval_neg (b : Boolean F) : b.neg.eval = 1 - b.eval := by
  rcases b with b | b | b
  · simp [neg, eval]
  · simp [neg, eval]
  · cases b <;> simp [neg, eval, ofBool]

@[simp] theorem reads_constant {c x : Bool} : (constant c : Boolean F).Reads x ↔ c = x := by
  cases c <;> cases x <;> simp [Reads, eval, ofBool]

theorem Reads.neg {b : Boolean F} {x : Bool} (h : b.Reads x) : b.neg.Reads !x := by
  unfold Reads at *
  cases x <;> simp_all [ofBool]

theorem Reads.unique {b : Boolean F} {x y : Bool} (h : b.Reads x) (h' : b.Reads y) : x = y := by
  unfold Reads at *
  rw [h] at h'
  cases x <;> cases y <;> simp_all [ofBool]

theorem ReadsAll.unique {bs : List (Boolean F)} {xs ys : List Bool} (h : ReadsAll bs xs)
    (h' : ReadsAll bs ys) : xs = ys := by
  induction h generalizing ys with
  | nil => cases h'; rfl
  | cons hb _ ih =>
    cases h' with
    | cons hb' ht => rw [hb.unique hb', ih ht]

theorem readsAll_iff {bs : List (Boolean F)} {xs : List Bool} :
    ReadsAll bs xs ↔ bs.map eval = xs.map ofBool := by
  induction bs generalizing xs with
  | nil => cases xs <;> simp
  | cons b bs ih => cases xs <;> simp [ih, Reads]

theorem ReadsAll.length_eq {bs : List (Boolean F)} {xs : List Bool} (h : ReadsAll bs xs) :
    bs.length = xs.length := List.Forall₂.length_eq h

theorem ReadsAll.isBit {bs : List (Boolean F)} {xs : List Bool} (h : ReadsAll bs xs)
    {b : Boolean F} (hb : b ∈ bs) : b.IsBit := by
  induction h with
  | nil => cases hb
  | cons hx _ ih =>
    rcases List.mem_cons.mp hb with rfl | hb
    · exact ⟨_, hx⟩
    · exact ih hb

theorem ReadsAll.mem_replicate {bs : List (Boolean F)} {n : ℕ} {x : Bool}
    (h : ReadsAll bs (List.replicate n x)) {b : Boolean F} (hb : b ∈ bs) : b.Reads x := by
  induction n generalizing bs with
  | zero => cases h; cases hb
  | succ n ih =>
    cases h with
    | cons hx ht =>
      rcases List.mem_cons.mp hb with rfl | hb
      · exact hx
      · exact ih ht hb

theorem ReadsAll.append {bs cs : List (Boolean F)} {xs ys : List Bool} (h : ReadsAll bs xs)
    (h' : ReadsAll cs ys) : ReadsAll (bs ++ cs) (xs ++ ys) := by
  rw [readsAll_iff] at *
  simp [h, h']

theorem ReadsAll.flatten {α : Type} {f : α → List Bool} {ts : List α}
    {out : List (List (Boolean F))} (h : List.Forall₂ (fun t bs => ReadsAll bs (f t)) ts out) :
    ReadsAll out.flatten (ts.map f).flatten := by
  induction h with
  | nil => exact .nil
  | cons hb _ ih => exact hb.append ih

/-- The Boolean at an index; past the end the constant false, which no caller reads. -/
def nth (bs : List (Boolean V)) (i : ℕ) : Boolean V := bs.getD i (constant false)

theorem ReadsAll.nth {bs : List (Boolean F)} {xs : List Bool} (h : ReadsAll bs xs) (i : ℕ) :
    (Boolean.nth bs i).Reads (xs.getD i false) := by
  unfold Boolean.nth
  induction h generalizing i with
  | nil => simp
  | cons hb _ ih =>
    cases i with
    | zero => simpa using hb
    | succ i => simpa using ih i

theorem eval_sum_zipIdx {bs : List (Boolean F)} {xs : List Bool} (h : ReadsAll bs xs)
    (c : ℕ → F) :
    (LC.sum (bs.zipIdx.map fun t => t.1.lc (c t.2))).eval =
      (xs.zipIdx.map fun t => c t.2 * (t.1.toNat : F)).sum := by
  rw [LC.eval_sum, List.map_map]
  simp only [Function.comp_def, eval_lc]
  generalize 0 = k
  induction h generalizing k with
  | nil => rfl
  | cons hb _ ih =>
    rw [List.zipIdx_cons, List.zipIdx_cons, List.map_cons, List.map_cons, List.sum_cons,
      List.sum_cons, ih]
    rw [hb, ofBool_eq_natCast]

theorem eval_packLE {bs : List (Boolean F)} {xs : List Bool} (h : ReadsAll bs xs) :
    (LC.sum (bs.zipIdx.map fun t => t.1.lc (2 ^ t.2))).eval = ((leBits xs : ℕ) : F) := by
  rw [eval_sum_zipIdx h, sum_zipIdx_leBits]

/-! ## The operations -/

theorem ensures_alloc {v : Option Bool} : (alloc v : Circuit F F _).Ensures IsBit := by
  refine .map (.var_bind fun w => .require_bind fun h => Circuit.ensures_pure.mpr ?_)
  exact exists_ofBool (v := w) (by simpa using h)

theorem admits_alloc {v : Option Bool} (x : Bool) :
    (alloc v : Circuit F F _).Admits (·.Reads x) := by
  refine .map (.var_bind (ofBool x) (.require_bind ?_ (Circuit.admits_pure.mpr rfl)))
  cases x <;> simp [ofBool]

theorem ensures_allocBits {β : Type} {f : β → Option Bool} {xs : List β} :
    (xs.mapM fun x => (alloc (f x) : Circuit F F _)).Ensures fun bs =>
      ∃ ys : List Bool, ys.length = xs.length ∧ ReadsAll bs ys :=
  .mapM_exists fun _ _ => ensures_alloc

theorem admits_allocBits {β : Type} {f : β → Option Bool} {xs : List β} (ys : List Bool)
    (h : ys.length = xs.length) :
    (xs.mapM fun x => (alloc (f x) : Circuit F F _)).Admits (ReadsAll · ys) :=
  .mapM_targets h.symm fun _ y => admits_alloc y

theorem computes_product {x y : LC F F} {v : Option Bool} {z : Bool}
    (h : x.eval * y.eval = ofBool z) :
    (AllocatedBit.product x y v).Computes fun b => (is b).Reads z :=
  .var_require (v := ofBool z) (fun w => by rw [h, LC.eval_var, eq_comm]) rfl

theorem computes_and {a b : Boolean F} {x y : Bool} (ha : a.Reads x) (hb : b.Reads y) :
    (and a b).Computes (·.Reads (x && y)) := by
  have hxy := ofBool_mul (F := F) x y
  unfold Reads at ha hb
  rw [← ha, ← hb] at hxy
  unfold and
  split
  case _ => simp_all [eval, ofBool]
  case _ => simp_all [eval, ofBool]
  case _ => simp_all [eval, ofBool, Reads]
  case _ => simp_all [eval, ofBool, Reads]
  case _ => exact .map (computes_product (by simpa [eval] using hxy))
  case _ => exact .map (computes_product (by simpa [eval, mul_comm] using hxy))
  case _ => exact .map (computes_product (by simpa [eval] using hxy))
  case _ => exact .map (computes_product (by simpa [eval] using hxy))

theorem computes_or {a b : Boolean F} {x y : Bool} (ha : a.Reads x) (hb : b.Reads y) :
    (or a b).Computes (·.Reads (x || y)) := by
  refine .map ((computes_and ha.neg hb.neg).mono fun c hc => ?_)
  simpa using hc.neg

theorem computes_bitXor {a b : AllocatedBit F} {x y : Bool} (ha : a.var = ofBool x)
    (hb : b.var = ofBool y) : (AllocatedBit.xor a b).Computes fun c => c.var = ofBool (x ^^ y) := by
  refine .var_require (v := ofBool (x ^^ y)) (fun w => ?_) rfl
  have hxy : (ofBool x + ofBool x) * ofBool y = (ofBool x + ofBool y - ofBool (x ^^ y) : F) := by
    cases x <;> cases y <;> simp [ofBool]
  simp only [LC.eval_add, LC.eval_sub, LC.eval_var, ha, hb, hxy]
  constructor
  · intro h; linear_combination h
  · rintro rfl; rfl

theorem computes_xor {a b : Boolean F} {x y : Bool} (ha : a.Reads x) (hb : b.Reads y) :
    (xor a b).Computes (·.Reads (x ^^ y)) := by
  have hnot : ∀ {c : AllocatedBit F} {z : Bool}, (not c).Reads z → c.var = ofBool !z :=
    fun {c z} h => h.neg
  unfold xor
  split
  case _ => simp_all
  case _ => simp_all
  case _ => obtain rfl := reads_constant.mp ha; simpa using hb.neg
  case _ => obtain rfl := reads_constant.mp hb; simpa using ha.neg
  case _ a b =>
    refine .map ((computes_bitXor (x := x) (y := !y) ha (hnot hb)).mono fun c hc => ?_)
    have : (is c).Reads (x ^^ !y) := hc
    simpa [neg] using this.neg
  case _ b a =>
    refine .map ((computes_bitXor (x := y) (y := !x) hb (hnot ha)).mono fun c hc => ?_)
    have : (is c).Reads (y ^^ !x) := hc
    simpa [neg, Bool.xor_comm] using this.neg
  case _ a b => exact .map (computes_bitXor ha hb)
  case _ a b =>
    refine .map ((computes_bitXor (hnot ha) (hnot hb)).mono fun c hc => ?_)
    have : (is c).Reads ((!x) ^^ (!y)) := hc
    simpa using this

theorem runs_enforceEqual {a b : Boolean F} {ins : List F} {u : Unit} :
    (enforceEqual a b).Runs ins u ↔ ins = [] ∧ a.eval = b.eval := by
  have h0 : ∀ x y : F, 0 = x - y ↔ x = y := fun x y => by rw [eq_comm, sub_eq_zero]
  have ht : (constant true : Boolean F).eval = 1 := rfl
  have hf : (constant false : Boolean F).eval = 0 := rfl
  unfold enforceEqual
  split
  case _ a b => cases a <;> cases b <;> simp [eval, ofBool]
  case _ => simp [h0, ht]
  case _ => simp [h0, ht, eq_comm]
  case _ => simp [hf]
  case _ => simp [hf, eq_comm]
  case _ => simp [h0]

/-! ## The honest prover -/

/-- The Boolean is worth the bit the prover holds for it. -/
structure HonestReads (b : Boolean F) (x : Bool) : Prop where
  reads : b.Reads x
  value_eq : b.value = some x

abbrev HonestReadsAll (bs : List (Boolean F)) (xs : List Bool) : Prop :=
  List.Forall₂ HonestReads bs xs

theorem HonestReadsAll.reads {bs : List (Boolean F)} {xs : List Bool} (h : HonestReadsAll bs xs) :
    ReadsAll bs xs := List.Forall₂.imp (fun _ _ h => h.reads) h

theorem honestReads_constant {c : Bool} : (constant c : Boolean F).HonestReads c :=
  ⟨reads_constant.mpr rfl, rfl⟩

theorem honestReadsAll_constants (xs : List Bool) :
    HonestReadsAll (xs.map constant : List (Boolean F)) xs := by
  induction xs with
  | nil => exact .nil
  | cons x xs ih => exact .cons honestReads_constant ih

theorem HonestReadsAll.of_forall₂ {β : Type} {f : β → Bool} {xs : List β} {bs : List (Boolean F)}
    (h : List.Forall₂ (fun x b => HonestReads b (f x)) xs bs) : HonestReadsAll bs (xs.map f) := by
  rw [HonestReadsAll, List.forall₂_map_right_iff]
  exact h.flip

theorem HonestReads.neg {b : Boolean F} {x : Bool} (h : b.HonestReads x) :
    b.neg.HonestReads !x := by
  refine ⟨h.reads.neg, ?_⟩
  have hv := h.value_eq
  rcases b with b | b | b
  · simpa [Boolean.neg, value] using hv
  · obtain ⟨y, hy, rfl⟩ := Option.map_eq_some_iff.mp hv
    simpa [Boolean.neg, value] using hy
  · simp_all [Boolean.neg, value]

theorem HonestReadsAll.nth {bs : List (Boolean F)} {xs : List Bool} (h : HonestReadsAll bs xs)
    (i : ℕ) : (Boolean.nth bs i).HonestReads (xs.getD i false) := by
  unfold Boolean.nth
  induction h generalizing i with
  | nil => exact honestReads_constant
  | cons hb _ ih =>
    cases i with
    | zero => simpa using hb
    | succ i => simpa using ih i

theorem HonestReadsAll.append {bs cs : List (Boolean F)} {xs ys : List Bool}
    (h : HonestReadsAll bs xs) (h' : HonestReadsAll cs ys) :
    HonestReadsAll (bs ++ cs) (xs ++ ys) := List.rel_append h h'

theorem HonestReadsAll.flatten {α : Type} {f : α → List Bool} {ts : List α}
    {out : List (List (Boolean F))}
    (h : List.Forall₂ (fun t bs => HonestReadsAll bs (f t)) ts out) :
    HonestReadsAll out.flatten (ts.map f).flatten := by
  induction h with
  | nil => exact .nil
  | cons hb _ ih => exact hb.append ih

theorem succeeds_alloc {v : Option Bool} {x : Bool} (hv : v = some x) :
    (alloc v : Circuit F F _).Succeeds (·.HonestReads x) := by
  subst hv
  refine .map (.var_bind rfl (.require_bind ?_ (Circuit.succeeds_pure.mpr ⟨rfl, rfl⟩)))
  cases x <;> simp [ofBool]

theorem succeeds_product {x y : LC F F} {v : Option Bool} {z : Bool}
    (h : x.eval * y.eval = ofBool z) (hv : v = some z) :
    (AllocatedBit.product x y v).Succeeds fun b => (is b).HonestReads z := by
  subst hv
  exact .var_bind rfl (.require_bind (by simpa using h) (Circuit.succeeds_pure.mpr ⟨rfl, rfl⟩))

theorem succeeds_and {a b : Boolean F} {x y : Bool} (ha : a.HonestReads x) (hb : b.HonestReads y) :
    (and a b).Succeeds (·.HonestReads (x && y)) := by
  have hxy := ofBool_mul (F := F) x y
  obtain ⟨hax, hav⟩ := ha
  obtain ⟨hby, hbv⟩ := hb
  have hax' := hax
  have hby' := hby
  unfold Reads at hax' hby'
  rw [← hax', ← hby'] at hxy
  unfold and
  split
  case _ =>
    obtain rfl := reads_constant.mp hax
    exact Circuit.succeeds_pure.mpr honestReads_constant
  case _ =>
    obtain rfl := reads_constant.mp hby
    rw [Bool.and_false]
    exact Circuit.succeeds_pure.mpr honestReads_constant
  case _ =>
    obtain rfl := reads_constant.mp hax
    exact Circuit.succeeds_pure.mpr ⟨hby, hbv⟩
  case _ =>
    obtain rfl := reads_constant.mp hby
    rw [Bool.and_true]
    exact Circuit.succeeds_pure.mpr ⟨hax, hav⟩
  case _ a b =>
    obtain ⟨b', hb', rfl⟩ := Option.map_eq_some_iff.mp hbv
    exact .map (succeeds_product (by simpa [eval] using hxy) (by simp_all [value]))
  case _ b a =>
    obtain ⟨b', hb', rfl⟩ := Option.map_eq_some_iff.mp hav
    exact .map (succeeds_product (by simpa [eval, mul_comm] using hxy)
      (by simp_all [value, Bool.and_comm]))
  case _ a b =>
    obtain ⟨a', ha', rfl⟩ := Option.map_eq_some_iff.mp hav
    obtain ⟨b', hb', rfl⟩ := Option.map_eq_some_iff.mp hbv
    exact .map (succeeds_product (by simpa [eval] using hxy) (by simp_all [value]))
  case _ a b =>
    exact .map (succeeds_product (by simpa [eval] using hxy) (by simp_all [value]))

theorem succeeds_or {a b : Boolean F} {x y : Bool} (ha : a.HonestReads x) (hb : b.HonestReads y) :
    (or a b).Succeeds (·.HonestReads (x || y)) := by
  refine .map ((succeeds_and ha.neg hb.neg).mono fun c hc => ?_)
  simpa using hc.neg

theorem succeeds_bitXor {a b : AllocatedBit F} {x y : Bool} (ha : (is a).HonestReads x)
    (hb : (is b).HonestReads y) :
    (AllocatedBit.xor a b).Succeeds fun c => (is c).HonestReads (x ^^ y) := by
  have hvalue : (do pure ((← a.value) ^^ (← b.value)) : Option Bool) = some (x ^^ y) := by
    have hav : a.value = some x := ha.value_eq
    have hbv : b.value = some y := hb.value_eq
    rw [hav, hbv]
    rfl
  have hxy : (ofBool x + ofBool x) * ofBool y = (ofBool x + ofBool y - ofBool (x ^^ y) : F) := by
    cases x <;> cases y <;> simp [ofBool]
  have hax : a.var = ofBool x := ha.reads
  have hby : b.var = ofBool y := hb.reads
  unfold AllocatedBit.xor
  rw [hvalue]
  refine .var_bind rfl (.require_bind ?_ (Circuit.succeeds_pure.mpr ⟨rfl, rfl⟩))
  simp only [LC.eval_add, LC.eval_sub, LC.eval_var, hax, hby, hxy]

theorem succeeds_xor {a b : Boolean F} {x y : Bool} (ha : a.HonestReads x) (hb : b.HonestReads y) :
    (xor a b).Succeeds (·.HonestReads (x ^^ y)) := by
  unfold xor
  split
  case _ =>
    obtain rfl := reads_constant.mp ha.reads
    rw [Bool.false_xor]
    exact Circuit.succeeds_pure.mpr hb
  case _ =>
    obtain rfl := reads_constant.mp hb.reads
    rw [Bool.xor_false]
    exact Circuit.succeeds_pure.mpr ha
  case _ =>
    obtain rfl := reads_constant.mp ha.reads
    rw [Bool.true_xor]
    exact Circuit.succeeds_pure.mpr hb.neg
  case _ =>
    obtain rfl := reads_constant.mp hb.reads
    rw [Bool.xor_true]
    exact Circuit.succeeds_pure.mpr ha.neg
  case _ a b =>
    have hb' : (is b).HonestReads (!y) := hb.neg
    refine .map ((succeeds_bitXor ha hb').mono fun c hc => ?_)
    have hneg : (not c).HonestReads !(x ^^ !y) := hc.neg
    simpa using hneg
  case _ b a =>
    have ha' : (is b).HonestReads (!x) := ha.neg
    refine .map ((succeeds_bitXor hb ha').mono fun c hc => ?_)
    have hneg : (not c).HonestReads !(y ^^ !x) := hc.neg
    simpa [Bool.xor_comm] using hneg
  case _ a b => exact .map (succeeds_bitXor ha hb)
  case _ a b =>
    have ha' : (is a).HonestReads (!x) := ha.neg
    have hb' : (is b).HonestReads (!y) := hb.neg
    refine .map ((succeeds_bitXor ha' hb').mono fun c hc => ?_)
    simpa using hc

/-! ## Either prover -/

/-- The Boolean is worth `x`, and for the honest prover that is the bit it holds. -/
def Holds (who : Circuit.Prover) (b : Boolean F) (x : Bool) : Prop :=
  match who with
  | .any => b.Reads x
  | .honest => b.HonestReads x

abbrev HoldsAll (who : Circuit.Prover) (bs : List (Boolean F)) (xs : List Bool) : Prop :=
  List.Forall₂ (Holds who) bs xs

variable {who : Circuit.Prover}

theorem Holds.reads {b : Boolean F} {x : Bool} (h : b.Holds who x) : b.Reads x := by
  cases who with
  | any => exact h
  | honest => exact HonestReads.reads h

theorem HoldsAll.reads {bs : List (Boolean F)} {xs : List Bool} (h : HoldsAll who bs xs) :
    ReadsAll bs xs := List.Forall₂.imp (fun _ _ h => h.reads) h

theorem holds_constant {c : Bool} : (constant c : Boolean F).Holds who c := by
  cases who with
  | any => exact reads_constant.mpr rfl
  | honest => exact honestReads_constant

theorem holdsAll_constants (xs : List Bool) :
    HoldsAll who (xs.map constant : List (Boolean F)) xs := by
  cases who with
  | any => exact (honestReadsAll_constants xs).reads
  | honest => exact honestReadsAll_constants xs

theorem HoldsAll.of_forall₂ {β : Type} {f : β → Bool} {xs : List β} {bs : List (Boolean F)}
    (h : List.Forall₂ (fun x b => b.Holds who (f x)) xs bs) : HoldsAll who bs (xs.map f) := by
  rw [HoldsAll, List.forall₂_map_right_iff]
  exact h.flip

theorem HoldsAll.nth {bs : List (Boolean F)} {xs : List Bool} (h : HoldsAll who bs xs) (i : ℕ) :
    (Boolean.nth bs i).Holds who (xs.getD i false) := by
  cases who with
  | any => exact ReadsAll.nth h i
  | honest => exact HonestReadsAll.nth h i

theorem HoldsAll.append {bs cs : List (Boolean F)} {xs ys : List Bool} (h : HoldsAll who bs xs)
    (h' : HoldsAll who cs ys) : HoldsAll who (bs ++ cs) (xs ++ ys) := List.rel_append h h'

theorem HoldsAll.flatten {α : Type} {f : α → List Bool} {ts : List α}
    {out : List (List (Boolean F))} (h : List.Forall₂ (fun t bs => HoldsAll who bs (f t)) ts out) :
    HoldsAll who out.flatten (ts.map f).flatten := by
  induction h with
  | nil => exact .nil
  | cons hb _ ih => exact hb.append ih

theorem yields_and {a b : Boolean F} {x y : Bool} (ha : a.Holds who x) (hb : b.Holds who y) :
    (and a b).Yields who (·.Holds who (x && y)) := by
  cases who with
  | any => exact computes_and ha hb
  | honest => exact succeeds_and ha hb

theorem yields_or {a b : Boolean F} {x y : Bool} (ha : a.Holds who x) (hb : b.Holds who y) :
    (or a b).Yields who (·.Holds who (x || y)) := by
  cases who with
  | any => exact computes_or ha hb
  | honest => exact succeeds_or ha hb

theorem yields_xor {a b : Boolean F} {x y : Bool} (ha : a.Holds who x) (hb : b.Holds who y) :
    (xor a b).Yields who (·.Holds who (x ^^ y)) := by
  cases who with
  | any => exact computes_xor ha hb
  | honest => exact succeeds_xor ha hb

theorem Holds.neg {b : Boolean F} {x : Bool} (h : b.Holds who x) : b.neg.Holds who !x := by
  cases who with
  | any => exact Reads.neg h
  | honest => exact HonestReads.neg h

/-- A bit constrained to be worth what a linear combination is. -/
theorem yields_allocEqual {v : Option Bool} {lc : LC F F} {x : Bool} (h : lc.eval = ofBool x)
    (hv : who = .honest → v = some x) :
    (do
      let bit ← Boolean.alloc v
      Circuit.require lc (.const 1) (bit.lc 1)
      pure bit).Yields who (·.Holds who x) := by
  have heq : ∀ b : Boolean F, lc.eval * (LC.const 1 : LC F F).eval = (b.lc 1).eval ↔ b.Reads x := by
    intro b
    rw [h, LC.eval_const, mul_one, eval_lc, one_mul]
    exact eq_comm
  cases who with
  | any =>
    constructor
    · refine ensures_alloc.bind fun b _ => .require_bind fun hb => Circuit.ensures_pure.mpr ?_
      exact (heq b).mp hb
    · exact (admits_alloc x).bind fun b hb =>
        .require_bind ((heq b).mpr hb) (Circuit.admits_pure.mpr hb)
  | honest =>
    exact (succeeds_alloc (hv rfl)).bind fun b hb =>
      .require_bind ((heq b).mpr hb.reads) (Circuit.succeeds_pure.mpr hb)

end Boolean

end ZkCredVega
