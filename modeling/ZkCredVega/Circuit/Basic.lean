import Mathlib.Algebra.Field.Basic
import Mathlib.Algebra.BigOperators.Group.List.Basic
import Mathlib.Algebra.BigOperators.Ring.List

/-!
# Circuits

A circuit is the program a constraint-system builder runs: it allocates
variables (each with the honest prover's value, its `hint`), publishes inputs
and emits rank-one constraints over linear combinations of the variables it
has. `Circuit F V α` is that program over the field `F`, for any type `V` of
variables, returning an `α`. Code that is generic in `V` cannot look at what a
variable holds, so the constraints never depend on the prover.
-/

namespace Circuits

/-- How synthesis ends early: with an error of the builder, or with a panic. -/
inductive Failure where
  | assignmentMissing
  | unsatisfiable
  | panic
  deriving DecidableEq, Repr

/-- The result of a computation of the prover's side. -/
abbrev Outcome := Except Failure

/-! ## Linear combinations -/

/-- A linear combination: a list of coefficients and variables. -/
structure LC (F V : Type) where
  terms : List (F × V)

namespace LC

variable {F V : Type}

instance : Zero (LC F V) := ⟨⟨[]⟩⟩

instance : Add (LC F V) := ⟨fun a b => ⟨a.terms ++ b.terms⟩⟩

instance [Neg F] : Neg (LC F V) := ⟨fun a => ⟨a.terms.map fun t => (-t.1, t.2)⟩⟩

instance [Neg F] : Sub (LC F V) := ⟨fun a b => a + -b⟩

def term (c : F) (v : V) : LC F V := ⟨[(c, v)]⟩

/-- A variable alone. -/
def var [One F] (v : V) : LC F V := term 1 v

/-- A constant: a coefficient of the variable that is always one. -/
def const [One V] (c : F) : LC F V := term c 1

def sum (xs : List (LC F V)) : LC F V := xs.foldl (· + ·) 0

/-- What a linear combination is worth when each variable is its value. -/
def eval [Semiring F] (a : LC F F) : F := (a.terms.map fun t => t.1 * t.2).sum

section Eval

variable [Ring F]

@[simp] theorem eval_zero : eval (0 : LC F F) = 0 := rfl

@[simp] theorem eval_add (a b : LC F F) : (a + b).eval = a.eval + b.eval := by
  change ((a.terms ++ b.terms).map _).sum = _
  simp [eval]

@[simp] theorem eval_neg (a : LC F F) : (-a).eval = -a.eval := by
  change ((a.terms.map _).map _).sum = _
  rw [List.map_map]
  simp only [eval, Function.comp_def, neg_mul]
  induction a.terms with
  | nil => simp
  | cons t ts ih => simp [ih, add_comm]

@[simp] theorem eval_sub (a b : LC F F) : (a - b).eval = a.eval - b.eval := by
  change (a + -b).eval = _
  rw [eval_add, eval_neg, sub_eq_add_neg]

@[simp] theorem eval_term (c v : F) : (term c v).eval = c * v := by simp [eval, term]

@[simp] theorem eval_var (v : F) : (var v).eval = v := by simp [var]

@[simp] theorem eval_const (c : F) : (const c).eval = c := by simp [const]

theorem eval_foldl_add (xs : List (LC F F)) (a : LC F F) :
    (xs.foldl (· + ·) a).eval = a.eval + (xs.map eval).sum := by
  induction xs generalizing a with
  | nil => simp
  | cons x xs ih => simp [ih, add_assoc]

@[simp] theorem eval_sum (xs : List (LC F F)) : (sum xs).eval = (xs.map eval).sum := by
  simp [sum, eval_foldl_add]

end Eval

end LC

/-! ## The builder's program -/

/-- A circuit over the field `F` with variables `V`. -/
inductive Circuit (F V α : Type) where
  | ret (a : α)
  | fail (e : Failure)
  | alloc (hint : Outcome F) (k : V → Circuit F V α)
  | allocInput (hint : Outcome F) (k : V → Circuit F V α)
  | enforce (a b c : LC F V) (k : Circuit F V α)

namespace Circuit

variable {F V α β : Type}

def bind : Circuit F V α → (α → Circuit F V β) → Circuit F V β
  | ret a, f => f a
  | fail e, _ => fail e
  | alloc h k, f => alloc h fun v => (k v).bind f
  | allocInput h k, f => allocInput h fun v => (k v).bind f
  | enforce a b c k, f => enforce a b c (k.bind f)

instance : Monad (Circuit F V) where
  pure := ret
  bind := bind

@[simp] theorem ret_eq (a : α) : (ret a : Circuit F V α) = pure a := rfl

theorem bind_ret (x : Circuit F V α) : x.bind ret = x := by
  induction x with
  | ret a => rfl
  | fail e => rfl
  | alloc h k ih => simp only [bind, ih]
  | allocInput h k ih => simp only [bind, ih]
  | enforce a b c k ih => simp only [bind, ih]

theorem bind_assoc' {γ : Type} (x : Circuit F V α) (f : α → Circuit F V β)
    (g : β → Circuit F V γ) : (x.bind f).bind g = x.bind fun a => (f a).bind g := by
  induction x with
  | ret a => rfl
  | fail e => rfl
  | alloc h k ih => simp only [bind, ih]
  | allocInput h k ih => simp only [bind, ih]
  | enforce a b c k ih => simp only [bind, ih]

instance : LawfulMonad (Circuit F V) :=
  LawfulMonad.mk' _ (fun x => bind_ret x) (fun _ _ => rfl) (fun x f g => bind_assoc' x f g)

/-- Allocates a variable the prover fills with `hint`. -/
def var (hint : Outcome F) : Circuit F V V := alloc hint ret

def input (hint : Outcome F) : Circuit F V V := allocInput hint ret

/-- Emits the constraint `a * b = c`. -/
def require (a b c : LC F V) : Circuit F V Unit := enforce a b c (ret ())

/-- Stops synthesis unless `p`, as an assertion of the source does. -/
def assert (p : Prop) [Decidable p] : Circuit F V Unit := if p then ret () else fail .panic

/-- A fallible computation of the builder itself. -/
def lift : Outcome α → Circuit F V α
  | .ok a => ret a
  | .error e => fail e

end Circuit

end Circuits
