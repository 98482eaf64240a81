import Mathlib.Algebra.Group.Prod
import ZkCredVega.Circuit.Trace

/-!
# The shape of a circuit

What setup reads of a circuit: how many variables it allocates and publishes, and its constraints
over them. `shapeFrom` numbers the variables as the builder does and asks for no value. `Same R c c'`
says that two circuits build the same constraint system, or stop with the same error, and return
results related by `R`; a circuit and the one without values are `Same`, and then any assignment
satisfies both or neither. `Costs` counts the variables and the constraints.
-/

namespace Circuits

/-! ## Constraint systems -/

/-- A variable by its number; public variable 0 is the constant one. -/
inductive Index where
  | input (i : ℕ)
  | aux (i : ℕ)
deriving DecidableEq

instance : One Index := ⟨.input 0⟩

/-- The numbers of public and of private variables, and the constraints. -/
structure Shape (F : Type) where
  inputs : ℕ
  aux : ℕ
  rows : List (LC F Index × LC F Index × LC F Index)

/-- The shape of a circuit whose private variables come in three segments, with their number in each. -/
structure SegmentedShape (F : Type) where
  inputs : ℕ
  shared : ℕ
  precommitted : ℕ
  rest : ℕ
  rows : List (LC F Index × LC F Index × LC F Index)

namespace Circuit

variable {F V α β γ δ σ τ : Type}

/-- The builder without values, after `i` public and `n` private variables. -/
def shapeFrom : Circuit F Index α → ℕ → ℕ → Outcome (Shape F × α)
  | ret a, i, n => .ok (⟨i, n, []⟩, a)
  | fail e, _, _ => .error e
  | alloc _ k, i, n => (k (.aux n)).shapeFrom i (n + 1)
  | allocInput _ k, i, n => (k (.input i)).shapeFrom (i + 1) n
  | enforce a b c k, i, n => do
    let t ← k.shapeFrom i n
    pure (⟨t.1.inputs, t.1.aux, (a, b, c) :: t.1.rows⟩, t.2)

/-- The shape that setup builds from the circuits of the segments, each over what the ones before it returned. The first
public variable is the constant one. -/
def segmentedShape (shared : Circuit F Index α) (precommitted : α → Circuit F Index β)
    (rest : α → β → Circuit F Index γ) : Outcome (SegmentedShape F) := do
  let s ← shared.shapeFrom 1 0
  let p ← (precommitted s.2).shapeFrom s.1.inputs s.1.aux
  let r ← (rest s.2 p.2).shapeFrom p.1.inputs p.1.aux
  pure ⟨r.1.inputs, s.1.aux, p.1.aux - s.1.aux, r.1.aux - p.1.aux, s.1.rows ++ (p.1.rows ++ r.1.rows)⟩

/-! ## Circuits of the same shape -/

/-- The circuits allocate and constrain alike, whatever their hints, and return related results. -/
inductive Same (R : α → β → Prop) : Circuit F V α → Circuit F V β → Prop
  | ret {a : α} {b : β} (h : R a b) : Same R (.ret a) (.ret b)
  | fail (e : Failure) : Same R (.fail e) (.fail e)
  | alloc {hint hint' : Outcome F} {k : V → Circuit F V α} {k' : V → Circuit F V β} (h : ∀ v, Same R (k v) (k' v)) :
    Same R (.alloc hint k) (.alloc hint' k')
  | allocInput {hint hint' : Outcome F} {k : V → Circuit F V α} {k' : V → Circuit F V β}
    (h : ∀ v, Same R (k v) (k' v)) : Same R (.allocInput hint k) (.allocInput hint' k')
  | enforce (a b c : LC F V) {k : Circuit F V α} {k' : Circuit F V β} (h : Same R k k') :
    Same R (.enforce a b c k) (.enforce a b c k')

variable {R : α → β → Prop} {S : γ → δ → Prop}

theorem same_refl {R : α → α → Prop} (h : ∀ a, R a a) (c : Circuit F V α) : Same R c c := by
  induction c with
  | ret a => exact .ret (h a)
  | fail e => exact .fail e
  | alloc _ _ ih => exact .alloc ih
  | allocInput _ _ ih => exact .allocInput ih
  | enforce a b c _ ih => exact .enforce a b c ih

theorem same_pure {a : α} {b : β} (h : R a b) : Same R (pure a : Circuit F V α) (pure b) := .ret h

theorem Same.bind {c : Circuit F V α} {c' : Circuit F V β} {f : α → Circuit F V γ} {g : β → Circuit F V δ}
    (h : Same R c c') (hf : ∀ a b, R a b → Same S (f a) (g b)) : Same S (c >>= f) (c' >>= g) := by
  change Same S (c.bind f) (c'.bind g)
  induction h with
  | ret h => exact hf _ _ h
  | fail e => exact .fail e
  | alloc _ ih => exact .alloc ih
  | allocInput _ ih => exact .allocInput ih
  | enforce a b c _ ih => exact .enforce a b c ih

theorem Same.map {c : Circuit F V α} {c' : Circuit F V β} {f : α → γ} {g : β → δ} (h : Same R c c')
    (hf : ∀ a b, R a b → S (f a) (g b)) : Same S (f <$> c) (g <$> c') := by
  rw [← bind_pure_comp, ← bind_pure_comp]
  exact h.bind fun a b hab => same_pure (hf a b hab)

theorem same_var {hint hint' : Outcome F} : Same (· = ·) (var hint : Circuit F V V) (var hint') :=
  .alloc fun _ => .ret rfl

theorem same_input {hint hint' : Outcome F} : Same (· = ·) (input hint : Circuit F V V) (input hint') :=
  .allocInput fun _ => .ret rfl

theorem same_require {a b c a' b' c' : LC F V} (ha : a = a') (hb : b = b') (hc : c = c') :
    Same (fun _ _ => True) (require a b c) (require a' b' c') := by
  subst ha hb hc
  exact .enforce a b c (.ret trivial)

theorem same_assert {p q : Prop} [Decidable p] [Decidable q] (h : p ↔ q) :
    Same (fun _ _ => True) (assert p : Circuit F V Unit) (assert q) := by
  unfold assert
  by_cases hp : p
  · rw [if_pos hp, if_pos (h.mp hp)]
    exact .ret trivial
  · rw [if_neg hp, if_neg fun hq => hp (h.mpr hq)]
    exact .fail .panic

/-! ### Related lists -/

theorem forall₂_getElem? {xs : List α} {ys : List β} (h : List.Forall₂ R xs ys) (i : ℕ) :
    Option.Rel R xs[i]? ys[i]? := by
  induction h generalizing i with
  | nil => exact .none
  | cons hxy _ ih =>
    cases i with
    | zero => exact .some hxy
    | succ i => exact ih i

theorem forall₂_zip_zip {xs : List α} {ys : List β} {us : List γ} {vs : List δ} (h : List.Forall₂ R xs ys)
    (h' : List.Forall₂ S us vs) :
    List.Forall₂ (fun p q => R p.1 q.1 ∧ S p.2 q.2) (xs.zip us) (ys.zip vs) := by
  induction h generalizing us vs with
  | nil => exact .nil
  | cons hxy _ ih =>
    cases h' with
    | nil => exact .nil
    | cons huv h' => exact .cons ⟨hxy, huv⟩ (ih h')

theorem forall₂_set {xs : List α} {ys : List β} (h : List.Forall₂ R xs ys) (i : ℕ) {a : α} {b : β} (hab : R a b) :
    List.Forall₂ R (xs.set i a) (ys.set i b) := by
  induction h generalizing i with
  | nil => exact .nil
  | cons hxy hrest ih =>
    cases i with
    | zero => exact .cons hab hrest
    | succ i => exact .cons hxy (ih i)

/-! ### Loops -/

theorem Same.mapM {f : γ → Circuit F V α} {g : δ → Circuit F V β} {xs : List γ} {ys : List δ}
    (h : List.Forall₂ (fun x y => Same R (f x) (g y)) xs ys) :
    Same (List.Forall₂ R) (xs.mapM f) (ys.mapM g) := by
  induction h with
  | nil => exact same_pure .nil
  | cons hx _ ih =>
    rw [List.mapM_cons, List.mapM_cons]
    refine hx.bind fun a b hab => ih.bind fun as bs h => ?_
    exact same_pure (.cons hab h)

theorem Same.mapM_self {f : γ → Circuit F V α} {g : γ → Circuit F V β} {xs : List γ}
    (h : ∀ x ∈ xs, Same R (f x) (g x)) : Same (List.Forall₂ R) (xs.mapM f) (xs.mapM g) :=
  .mapM (List.forall₂_same.mpr h)

theorem Same.forM {f : γ → Circuit F V PUnit} {g : δ → Circuit F V PUnit} {xs : List γ} {ys : List δ}
    (h : List.Forall₂ (fun x y => Same (fun _ _ => True) (f x) (g y)) xs ys) :
    Same (fun _ _ => True) (forM xs f) (forM ys g) := by
  induction h with
  | nil => exact same_pure trivial
  | cons hx _ ih =>
    rw [List.forM_cons, List.forM_cons]
    exact hx.bind fun _ _ _ => ih

theorem Same.foldlM {I : σ → τ → Prop} {f : σ → γ → Circuit F V σ} {g : τ → δ → Circuit F V τ} {xs : List γ}
    {ys : List δ} {s : σ} {t : τ} (hst : I s t)
    (h : List.Forall₂ (fun x y => ∀ s t, I s t → Same I (f s x) (g t y)) xs ys) :
    Same I (xs.foldlM f s) (ys.foldlM g t) := by
  induction h generalizing s t with
  | nil => exact same_pure hst
  | cons hx _ ih =>
    rw [List.foldlM_cons, List.foldlM_cons]
    exact (hx s t hst).bind fun s' t' h' => ih h'

/-! ## What the shape decides -/

/-- Circuits of the same shape build the same constraint system, with related results, or stop with the same error. -/
theorem Same.shapeFrom {c : Circuit F Index α} {c' : Circuit F Index β} (h : Same R c c') (i n : ℕ) :
    (∃ e, c.shapeFrom i n = .error e ∧ c'.shapeFrom i n = .error e) ∨
      ∃ s a b, c.shapeFrom i n = .ok (s, a) ∧ c'.shapeFrom i n = .ok (s, b) ∧ R a b := by
  induction h generalizing i n with
  | ret h => exact .inr ⟨_, _, _, rfl, rfl, h⟩
  | fail e => exact .inl ⟨e, rfl, rfl⟩
  | alloc _ ih => exact ih _ _ _
  | allocInput _ ih => exact ih _ _ _
  | @enforce a b c k k' _ ih =>
    rcases ih i n with ⟨e, hk, hk'⟩ | ⟨s, r, r', hk, hk', hr⟩
    · exact .inl ⟨e, by rw [Circuit.shapeFrom, hk]; rfl, by rw [Circuit.shapeFrom, hk']; rfl⟩
    · exact .inr ⟨⟨s.inputs, s.aux, (a, b, c) :: s.rows⟩, r, r', by rw [Circuit.shapeFrom, hk]; rfl,
        by rw [Circuit.shapeFrom, hk']; rfl, hr⟩

/-! ## Sizes -/

/-- How many public variables, private variables and constraints. -/
abbrev Size := ℕ × ℕ × ℕ

/-- The circuit ends without an error, its size is `k` whatever its values, and its result satisfies `P`. -/
def Costs : Circuit F V α → Size → (α → Prop) → Prop
  | ret a, k, P => k = 0 ∧ P a
  | fail _, _, _ => False
  | alloc _ f, k, P => ∃ l, k = (0, 1, 0) + l ∧ ∀ v, (f v).Costs l P
  | allocInput _ f, k, P => ∃ l, k = (1, 0, 0) + l ∧ ∀ v, (f v).Costs l P
  | enforce _ _ _ f, k, P => ∃ l, k = (0, 0, 1) + l ∧ f.Costs l P

variable {P : α → Prop} {Q : β → Prop} {k l : Size}

theorem costs_pure {a : α} (h : P a) : (pure a : Circuit F V α).Costs (0, 0, 0) P := ⟨rfl, h⟩

theorem Costs.mono {P' : α → Prop} {c : Circuit F V α} (h : c.Costs k P) (hP : ∀ a, P a → P' a) : c.Costs k P' := by
  induction c generalizing k with
  | ret a => exact ⟨h.1, hP a h.2⟩
  | fail e => exact h
  | alloc _ f ih =>
    obtain ⟨l, hk, hf⟩ := h
    exact ⟨l, hk, fun v => ih v (hf v)⟩
  | allocInput _ f ih =>
    obtain ⟨l, hk, hf⟩ := h
    exact ⟨l, hk, fun v => ih v (hf v)⟩
  | enforce a b c f ih =>
    obtain ⟨l, hk, hf⟩ := h
    exact ⟨l, hk, ih hf⟩

theorem Costs.bind {c : Circuit F V α} {f : α → Circuit F V β} (h : c.Costs k P) (hf : ∀ a, P a → (f a).Costs l Q) :
    (c >>= f).Costs (k + l) Q := by
  change (c.bind f).Costs (k + l) Q
  induction c generalizing k with
  | ret a =>
    obtain ⟨rfl, ha⟩ := h
    rw [zero_add]
    exact hf a ha
  | fail e => exact h.elim
  | alloc _ g ih =>
    obtain ⟨m, rfl, hg⟩ := h
    exact ⟨m + l, add_assoc _ _ _, fun v => ih v (hg v)⟩
  | allocInput _ g ih =>
    obtain ⟨m, rfl, hg⟩ := h
    exact ⟨m + l, add_assoc _ _ _, fun v => ih v (hg v)⟩
  | enforce a b c g ih =>
    obtain ⟨m, rfl, hg⟩ := h
    exact ⟨m + l, add_assoc _ _ _, ih hg⟩

theorem Costs.cast {c : Circuit F V α} (h : c.Costs k P) (hk : k = l) : c.Costs l P := hk ▸ h

theorem Costs.bind_pure {c : Circuit F V α} {f : α → β} (h : c.Costs k P) (hf : ∀ a, P a → Q (f a)) :
    (c >>= fun a => pure (f a)).Costs k Q :=
  (h.bind fun a ha => costs_pure (hf a ha)).cast (add_zero k)

theorem costs_var {hint : Outcome F} : (var hint : Circuit F V V).Costs (0, 1, 0) fun _ => True :=
  ⟨0, rfl, fun _ => ⟨rfl, trivial⟩⟩

theorem costs_input {hint : Outcome F} : (input hint : Circuit F V V).Costs (1, 0, 0) fun _ => True :=
  ⟨0, rfl, fun _ => ⟨rfl, trivial⟩⟩

theorem costs_require {a b c : LC F V} : (require a b c).Costs (0, 0, 1) fun _ => True := ⟨0, rfl, rfl, trivial⟩

theorem costs_assert {p : Prop} [Decidable p] (h : p) : (assert p : Circuit F V Unit).Costs (0, 0, 0) fun _ => True := by
  rw [assert, if_pos h]
  exact ⟨rfl, trivial⟩

theorem Costs.mapM {f : γ → Circuit F V α} {xs : List γ} (h : ∀ x ∈ xs, (f x).Costs k P) :
    (xs.mapM f).Costs (xs.length • k) fun ys => ys.length = xs.length ∧ ∀ y ∈ ys, P y := by
  induction xs with
  | nil => exact ⟨zero_nsmul k, rfl, by simp⟩
  | cons x xs ih =>
    obtain ⟨hx, hxs⟩ := List.forall_mem_cons.mp h
    rw [List.mapM_cons, List.length_cons, succ_nsmul, add_comm]
    refine hx.bind fun y hy => (ih hxs).bind_pure fun ys hys => ?_
    exact ⟨congrArg (· + 1) hys.1, List.forall_mem_cons.mpr ⟨hy, hys.2⟩⟩

theorem Costs.forM {f : γ → Circuit F V PUnit} {xs : List γ} (h : ∀ x ∈ xs, (f x).Costs k fun _ => True) :
    (forM xs f).Costs (xs.length • k) fun _ => True := by
  induction xs with
  | nil => exact ⟨zero_nsmul k, trivial⟩
  | cons x xs ih =>
    obtain ⟨hx, hxs⟩ := List.forall_mem_cons.mp h
    rw [List.forM_cons, List.length_cons, succ_nsmul, add_comm]
    exact hx.bind fun _ _ => ih hxs

theorem Costs.foldlM {I : σ → Prop} {f : σ → γ → Circuit F V σ} {xs : List γ} {s : σ} (hs : I s)
    (h : ∀ x ∈ xs, ∀ s, I s → (f s x).Costs k I) : (xs.foldlM f s).Costs (xs.length • k) I := by
  induction xs generalizing s with
  | nil => exact ⟨zero_nsmul k, hs⟩
  | cons x xs ih =>
    obtain ⟨hx, hxs⟩ := List.forall_mem_cons.mp h
    rw [List.foldlM_cons, List.length_cons, succ_nsmul, add_comm]
    exact (hx s hs).bind fun t ht => ih ht hxs

theorem Costs.shapeFrom {c : Circuit F Index α} (h : c.Costs k P) (i n : ℕ) :
    ∃ rows a, c.shapeFrom i n = .ok (⟨i + k.1, n + k.2.1, rows⟩, a) ∧ rows.length = k.2.2 ∧ P a := by
  induction c generalizing k i n with
  | ret a =>
    obtain ⟨rfl, ha⟩ := h
    exact ⟨[], a, rfl, rfl, ha⟩
  | fail e => exact h.elim
  | alloc _ f ih =>
    obtain ⟨l, rfl, hf⟩ := h
    obtain ⟨rows, a, heq, hrows, ha⟩ := ih _ (hf (.aux n)) i (n + 1)
    refine ⟨rows, a, heq.trans ?_, by simpa using hrows, ha⟩
    simp [add_assoc]
  | allocInput _ f ih =>
    obtain ⟨l, rfl, hf⟩ := h
    obtain ⟨rows, a, heq, hrows, ha⟩ := ih _ (hf (.input i)) (i + 1) n
    refine ⟨rows, a, heq.trans ?_, by simpa using hrows, ha⟩
    simp [add_assoc]
  | enforce a b c f ih =>
    obtain ⟨l, rfl, hf⟩ := h
    obtain ⟨rows, r, heq, hrows, hr⟩ := ih hf i n
    refine ⟨(a, b, c) :: rows, r, ?_, ?_, hr⟩
    · rw [Circuit.shapeFrom, heq]
      simp only [Prod.fst_add, Prod.snd_add, zero_add]
      rfl
    · rw [List.length_cons, hrows, Prod.snd_add, Prod.snd_add, add_comm]

theorem Costs.traces [Ring F] {c : Circuit F F α} (h : c.Costs k P) {ins vs : List F} {a : α}
    (htraces : c.Traces ins vs a) : ins.length = k.1 ∧ vs.length = k.2.1 ∧ P a := by
  induction c generalizing k ins vs with
  | ret b =>
    obtain ⟨rfl, hb⟩ := h
    obtain ⟨rfl, rfl, rfl⟩ := htraces
    exact ⟨rfl, rfl, hb⟩
  | fail e => exact h.elim
  | alloc _ f ih =>
    obtain ⟨l, rfl, hf⟩ := h
    obtain ⟨v, rest, rfl, hv⟩ := htraces
    obtain ⟨hins, hvs, ha⟩ := ih v (hf v) hv
    exact ⟨by simpa using hins, by simp [hvs, Nat.add_comm], ha⟩
  | allocInput _ f ih =>
    obtain ⟨l, rfl, hf⟩ := h
    obtain ⟨v, rest, rfl, hv⟩ := htraces
    obtain ⟨hins, hvs, ha⟩ := ih v (hf v) hv
    exact ⟨by simp [hins, Nat.add_comm], by simpa using hvs, ha⟩
  | enforce _ _ _ f ih =>
    obtain ⟨l, rfl, hf⟩ := h
    obtain ⟨hins, hvs, ha⟩ := ih hf htraces.2
    exact ⟨by simpa using hins, by simpa using hvs, ha⟩

/-- A run publishes as many values as the size says, so a circuit without public variables publishes nothing. -/
theorem Costs.runs [Ring F] {c : Circuit F F α} (h : c.Costs k P) {ins : List F} {a : α} (hrun : c.Runs ins a) :
    ins.length = k.1 ∧ P a := by
  obtain ⟨vs, htraces⟩ := runs_iff_exists_traces.mp hrun
  obtain ⟨hins, -, ha⟩ := h.traces htraces
  exact ⟨hins, ha⟩

theorem Costs.ensures [Ring F] {c : Circuit F F α} {n r : ℕ} (h : c.Costs (0, n, r) P) : c.Ensures P := by
  intro ins a hrun
  obtain ⟨hlen, ha⟩ := h.runs hrun
  exact ⟨List.length_eq_zero_iff.mp hlen, ha⟩

/-- The first values of an assignment are those of the first circuit, as many as its size says. -/
theorem Traces.bind_elim [Ring F] {x : Circuit F F α} {f : α → Circuit F F β} {P' : α → Prop} {n r : ℕ}
    {ins vs : List F} {b : β} (h : (x >>= f).Traces ins vs b) (hsize : x.Costs (0, n, r) P) (hx : x.Ensures P') :
    ∃ us ws a, vs = us ++ ws ∧ us.length = n ∧ P' a ∧ (f a).Traces ins ws b := by
  obtain ⟨i, j, us, ws, a, rfl, rfl, hus, hws⟩ := traces_bind.mp h
  obtain ⟨rfl, ha⟩ := hx i a (runs_iff_exists_traces.mpr ⟨us, hus⟩)
  exact ⟨us, ws, a, rfl, (hsize.traces hus).2.1, ha, hws⟩

/-! ## Circuits that stop -/

/-- Synthesis ends with an error, whatever the variables. -/
def Stops : Circuit F V α → Prop
  | ret _ => False
  | fail _ => True
  | alloc _ f => ∀ v, (f v).Stops
  | allocInput _ f => ∀ v, (f v).Stops
  | enforce _ _ _ f => f.Stops

theorem stops_fail (e : Failure) : (fail e : Circuit F V α).Stops := trivial

theorem Stops.bind {c : Circuit F V α} {f : α → Circuit F V β} (h : c.Stops) : (c >>= f).Stops := by
  change (c.bind f).Stops
  induction c with
  | ret a => exact h.elim
  | fail e => trivial
  | alloc _ g ih => exact fun v => ih v (h v)
  | allocInput _ g ih => exact fun v => ih v (h v)
  | enforce a b c g ih => exact ih h

theorem stops_bind {c : Circuit F V α} {f : α → Circuit F V β} (h : ∀ a, (f a).Stops) : (c >>= f).Stops := by
  change (c.bind f).Stops
  induction c with
  | ret a => exact h a
  | fail e => trivial
  | alloc _ g ih => exact fun v => ih v
  | allocInput _ g ih => exact fun v => ih v
  | enforce a b c g ih => exact ih

theorem Stops.shapeFrom {c : Circuit F Index α} (h : c.Stops) (i n : ℕ) : ∃ e, c.shapeFrom i n = .error e := by
  induction c generalizing i n with
  | ret a => exact h.elim
  | fail e => exact ⟨e, rfl⟩
  | alloc _ f ih => exact ih _ (h _) i (n + 1)
  | allocInput _ f ih => exact ih _ (h _) (i + 1) n
  | enforce a b c f ih =>
    obtain ⟨e, he⟩ := ih h i n
    exact ⟨e, by rw [Circuit.shapeFrom, he]; rfl⟩

/-! ## Segments -/

section Segments

variable {x : Circuit F Index α} {f : α → Circuit F Index β} {g : α → β → Circuit F Index γ}

theorem Same.segmentedShape_eq {x' : Circuit F Index δ} {f' : δ → Circuit F Index σ} {g' : δ → σ → Circuit F Index τ}
    {R : α → δ → Prop} {S : β → σ → Prop} {T : γ → τ → Prop} (hx : Same R x x')
    (hf : ∀ a a', R a a' → Same S (f a) (f' a'))
    (hg : ∀ a a' b b', R a a' → S b b' → Same T (g a b) (g' a' b')) :
    segmentedShape x f g = segmentedShape x' f' g' := by
  unfold segmentedShape
  rcases hx.shapeFrom 1 0 with ⟨e, h, h'⟩ | ⟨s, a, a', h, h', ha⟩
  · simp only [h, h', Bind.bind, Except.bind]
  simp only [h, h', Bind.bind, Except.bind]
  rcases (hf a a' ha).shapeFrom s.inputs s.aux with ⟨e, h, h'⟩ | ⟨p, b, b', h, h', hb⟩
  · simp only [h, h']
  simp only [h, h']
  rcases (hg a a' b b' ha hb).shapeFrom p.inputs p.aux with ⟨e, h, h'⟩ | ⟨r, c, c', h, h', -⟩
  · simp only [h, h']
  · simp only [h, h']

theorem Costs.segmentedShape {P : α → Prop} {Q : β → Prop} {T : γ → Prop} {k l m : Size} (hx : x.Costs k P)
    (hf : ∀ a, P a → (f a).Costs l Q) (hg : ∀ a b, P a → Q b → (g a b).Costs m T) :
    ∃ rows, segmentedShape x f g = .ok ⟨1 + k.1 + l.1 + m.1, k.2.1, l.2.1, m.2.1, rows⟩ ∧
      rows.length = k.2.2 + (l.2.2 + m.2.2) := by
  obtain ⟨xs, a, hxs, hxlen, ha⟩ := hx.shapeFrom 1 0
  obtain ⟨fs, b, hfs, hflen, hb⟩ := (hf a ha).shapeFrom (1 + k.1) (0 + k.2.1)
  obtain ⟨gs, c, hgs, hglen, -⟩ := (hg a b ha hb).shapeFrom (1 + k.1 + l.1) (0 + k.2.1 + l.2.1)
  refine ⟨xs ++ (fs ++ gs), ?_, by rw [List.length_append, List.length_append, hxlen, hflen, hglen]⟩
  refine bind_eq_ok_iff.mpr ⟨_, hxs, bind_eq_ok_iff.mpr ⟨_, hfs, bind_eq_ok_iff.mpr ⟨_, hgs, ?_⟩⟩⟩
  simp only [zero_add, Nat.add_sub_cancel_left]
  rfl

/-- Setup refuses segments when the second or the third stops. -/
theorem Stops.segmentedShape (h : (∀ a, (f a).Stops) ∨ ∀ a b, (g a b).Stops) :
    ∃ e, segmentedShape x f g = .error e := by
  cases hshape : Circuit.segmentedShape x f g with
  | error e => exact ⟨e, rfl⟩
  | ok shape =>
    obtain ⟨s, -, hshape⟩ := bind_eq_ok_iff.mp hshape
    obtain ⟨p, hp, hshape⟩ := bind_eq_ok_iff.mp hshape
    obtain ⟨r, hr, -⟩ := bind_eq_ok_iff.mp hshape
    rcases h with h | h
    · obtain ⟨e, he⟩ := (h s.2).shapeFrom s.1.inputs s.1.aux
      rw [hp] at he
      cases he
    · obtain ⟨e, he⟩ := (h s.2 p.2).shapeFrom p.1.inputs p.1.aux
      rw [hr] at he
      cases he

end Segments

attribute [irreducible] Costs Stops

end Circuit

end Circuits
