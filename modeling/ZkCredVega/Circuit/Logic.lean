import ZkCredVega.Circuit.Basic
import Mathlib.Data.List.Forall2

/-!
# Runs of a circuit

At `V = F` a variable is the value assigned to it, and a circuit is a
nondeterministic program: an allocation picks any field element, a constraint
is a guard. `Runs c ins r` says that some satisfying assignment of `c` has the
public inputs `ins` and the result `r`; hints play no part in it. `Ensures`
quantifies over the satisfying assignments of a circuit with no public inputs
(soundness), `Admits` asks for one (completeness).
-/

namespace Circuits

theorem bind_eq_ok_iff {ε α β : Type} {x : Except ε α} {f : α → Except ε β} {r : β} :
    (x >>= f) = .ok r ↔ ∃ a, x = .ok a ∧ f a = .ok r := by
  cases x with
  | error e =>
    constructor
    · intro h
      cases h
    · rintro ⟨a, h, -⟩
      cases h
  | ok a =>
    constructor
    · intro h
      exact ⟨a, rfl, h⟩
    · rintro ⟨a', h, hf⟩
      obtain rfl := Except.ok.inj h
      exact hf

end Circuits

namespace Circuits.Circuit

variable {F α β σ : Type} [Ring F]

/-- Some satisfying assignment of the circuit publishes `ins` and returns `r`. -/
def Runs : Circuit F F α → List F → α → Prop
  | ret a, ins, r => ins = [] ∧ r = a
  | fail _, _, _ => False
  | alloc _ k, ins, r => ∃ v, (k v).Runs ins r
  | allocInput _ k, ins, r => ∃ v ins', ins = v :: ins' ∧ (k v).Runs ins' r
  | enforce a b c k, ins, r => a.eval * b.eval = c.eval ∧ k.Runs ins r

@[simp] theorem runs_pure {a r : α} {ins : List F} :
    Runs (pure a : Circuit F F α) ins r ↔ ins = [] ∧ r = a := Iff.rfl

@[simp] theorem runs_fail {e : Failure} {r : α} {ins : List F} :
    Runs (fail e : Circuit F F α) ins r ↔ False := Iff.rfl

@[simp] theorem runs_var {h : Outcome F} {r : F} {ins : List F} :
    Runs (var h : Circuit F F F) ins r ↔ ins = [] := by simp [var, Runs]

@[simp] theorem runs_input {h : Outcome F} {r : F} {ins : List F} :
    Runs (input h : Circuit F F F) ins r ↔ ins = [r] := by
  simp only [input, Runs]
  constructor
  · rintro ⟨v, ins', rfl, rfl, rfl⟩; rfl
  · rintro rfl; exact ⟨r, [], rfl, rfl, rfl⟩

@[simp] theorem runs_require {a b c : LC F F} {r : Unit} {ins : List F} :
    Runs (require a b c) ins r ↔ ins = [] ∧ a.eval * b.eval = c.eval := by
  simp [require, Runs, and_comm]

@[simp] theorem runs_assert {p : Prop} [Decidable p] {r : Unit} {ins : List F} :
    Runs (assert p : Circuit F F Unit) ins r ↔ ins = [] ∧ p := by
  by_cases h : p <;> simp [assert, h]

@[simp] theorem runs_lift {x : Outcome α} {r : α} {ins : List F} :
    Runs (lift x : Circuit F F α) ins r ↔ ins = [] ∧ x = .ok r := by
  cases x <;> simp [lift, eq_comm]

theorem runs_bind {x : Circuit F F α} {f : α → Circuit F F β} {ins : List F} {r : β} :
    Runs (x >>= f) ins r ↔
      ∃ i j a, ins = i ++ j ∧ Runs x i a ∧ Runs (f a) j r := by
  change Runs (x.bind f) ins r ↔ _
  induction x generalizing ins with
  | ret a =>
    constructor
    · intro h; exact ⟨[], ins, a, rfl, ⟨rfl, rfl⟩, h⟩
    · rintro ⟨i, j, b, rfl, ⟨rfl, rfl⟩, h⟩; exact h
  | fail e => simp [bind, Runs]
  | alloc h k ih =>
    simp only [bind, Runs, ih]
    constructor
    · rintro ⟨v, i, j, a, e, hx, hf⟩; exact ⟨i, j, a, e, ⟨v, hx⟩, hf⟩
    · rintro ⟨i, j, a, e, ⟨v, hx⟩, hf⟩; exact ⟨v, i, j, a, e, hx, hf⟩
  | allocInput h k ih =>
    simp only [bind, Runs, ih]
    constructor
    · rintro ⟨v, _, rfl, i, j, a, rfl, hx, hf⟩
      exact ⟨v :: i, j, a, rfl, ⟨v, i, rfl, hx⟩, hf⟩
    · rintro ⟨_, j, a, rfl, ⟨v, i, rfl, hx⟩, hf⟩
      exact ⟨v, i ++ j, rfl, i, j, a, rfl, hx, hf⟩
  | enforce a b c k ih =>
    simp only [bind, Runs, ih]
    constructor
    · rintro ⟨hc, i, j, a, e, hx, hf⟩; exact ⟨i, j, a, e, ⟨hc, hx⟩, hf⟩
    · rintro ⟨i, j, a, e, ⟨hc, hx⟩, hf⟩; exact ⟨hc, i, j, a, e, hx, hf⟩

theorem runs_map {x : Circuit F F α} {f : α → β} {ins : List F} {r : β} :
    Runs (f <$> x) ins r ↔ ∃ a, Runs x ins a ∧ f a = r := by
  rw [← bind_pure_comp, runs_bind]
  constructor
  · rintro ⟨i, _, a, rfl, hx, rfl, rfl⟩; exact ⟨a, by simpa using hx, rfl⟩
  · rintro ⟨a, hx, rfl⟩; exact ⟨ins, [], a, by simp, hx, rfl, rfl⟩

theorem map_eq_of_forall₂ {γ : Type} {g : α → γ} {h : β → γ} {xs : List β} {as : List α}
    (hf : List.Forall₂ (fun x a => g a = h x) xs as) : as.map g = xs.map h := by
  induction hf with
  | nil => rfl
  | cons hx _ ih => rw [List.map_cons, List.map_cons, hx, ih]

theorem exists_forall₂ {R : α → β → Prop} {xs : List α} (h : ∀ x ∈ xs, ∃ y, R x y) :
    ∃ ys, List.Forall₂ R xs ys := by
  induction xs with
  | nil => exact ⟨[], .nil⟩
  | cons x xs ih =>
    obtain ⟨y, hy⟩ := h x (by simp)
    obtain ⟨ys, hys⟩ := ih fun x hx => h x (by simp [hx])
    exact ⟨y :: ys, .cons hy hys⟩

theorem mapM_eq_ok_iff {ε : Type} {f : α → Except ε β} {xs : List α} {ys : List β} :
    xs.mapM f = .ok ys ↔ List.Forall₂ (fun x y => f x = .ok y) xs ys := by
  induction xs generalizing ys with
  | nil =>
    rw [List.mapM_nil, List.forall₂_nil_left_iff]
    exact ⟨fun h => (Except.ok.inj h).symm, fun h => by rw [h]; rfl⟩
  | cons x xs ih =>
    rw [List.mapM_cons]
    cases hx : f x with
    | error e =>
      constructor
      · intro h
        cases h
      · rintro (_ | ⟨hy, -⟩)
        rw [hx] at hy
        cases hy
    | ok y =>
      cases hxs : xs.mapM f with
      | error e =>
        constructor
        · intro h
          cases h
        · rintro (_ | ⟨-, htail⟩)
          rw [ih.mpr htail] at hxs
          cases hxs
      | ok zs =>
        constructor
        · intro h
          cases Except.ok.inj h
          exact .cons hx (ih.mp hxs)
        · rintro (_ | ⟨hy, htail⟩)
          rw [hx] at hy
          rw [ih.mpr htail] at hxs
          cases hy
          cases hxs
          rfl

/-! ## Soundness -/

/-- Every satisfying assignment publishes nothing and returns a result with `P`. -/
def Ensures (c : Circuit F F α) (P : α → Prop) : Prop :=
  ∀ ins r, c.Runs ins r → ins = [] ∧ P r

theorem Ensures.mono {c : Circuit F F α} {P Q : α → Prop} (h : Ensures c P)
    (hPQ : ∀ r, P r → Q r) : Ensures c Q :=
  fun ins r hr => ⟨(h ins r hr).1, hPQ r (h ins r hr).2⟩

theorem Ensures.and {c : Circuit F F α} {P Q : α → Prop} (h : Ensures c P) (h' : Ensures c Q) :
    Ensures c fun r => P r ∧ Q r :=
  fun ins r hr => ⟨(h ins r hr).1, (h ins r hr).2, (h' ins r hr).2⟩

@[simp] theorem ensures_pure {a : α} {P : α → Prop} :
    Ensures (pure a : Circuit F F α) P ↔ P a := by simp [Ensures]

theorem Ensures.bind {x : Circuit F F α} {f : α → Circuit F F β} {P : α → Prop} {Q : β → Prop}
    (hx : Ensures x P) (hf : ∀ a, P a → Ensures (f a) Q) : Ensures (x >>= f) Q := by
  intro ins r hr
  obtain ⟨i, j, a, rfl, hi, hj⟩ := runs_bind.mp hr
  obtain ⟨rfl, hP⟩ := hx i a hi
  obtain ⟨rfl, hQ⟩ := hf a hP j r hj
  exact ⟨rfl, hQ⟩

theorem Runs.bind_elim {x : Circuit F F α} {f : α → Circuit F F β} {P : α → Prop} {ins : List F}
    {r : β} (h : Runs (x >>= f) ins r) (hx : Ensures x P) :
    ∃ a, x.Runs [] a ∧ P a ∧ (f a).Runs ins r := by
  obtain ⟨i, j, a, rfl, hi, hj⟩ := runs_bind.mp h
  obtain ⟨rfl, hP⟩ := hx i a hi
  exact ⟨a, hi, hP, hj⟩

theorem Runs.bind_intro {x : Circuit F F α} {f : α → Circuit F F β} {ins : List F} {a : α} {r : β}
    (hx : x.Runs [] a) (hf : (f a).Runs ins r) : Runs (x >>= f) ins r :=
  runs_bind.mpr ⟨[], ins, a, rfl, hx, hf⟩

theorem Ensures.map {x : Circuit F F α} {f : α → β} {Q : β → Prop}
    (hx : Ensures x fun a => Q (f a)) : Ensures (f <$> x) Q := by
  intro ins r hr
  obtain ⟨a, ha, rfl⟩ := runs_map.mp hr
  exact hx ins a ha

theorem ensures_var {h : Outcome F} : Ensures (var h : Circuit F F F) fun _ => True := by
  simp [Ensures]

theorem ensures_require {a b c : LC F F} :
    Ensures (require a b c) fun _ => a.eval * b.eval = c.eval := by
  simp [Ensures]

theorem ensures_assert {p : Prop} [Decidable p] :
    Ensures (assert p : Circuit F F Unit) fun _ => p := by simp [Ensures]

theorem ensures_lift {x : Outcome α} :
    Ensures (lift x : Circuit F F α) fun r => x = .ok r := by simp [Ensures]

theorem ensures_fail {e : Failure} {P : α → Prop} : Ensures (fail e : Circuit F F α) P := by
  simp [Ensures]

theorem Ensures.var_bind {h : Outcome F} {f : F → Circuit F F β} {Q : β → Prop}
    (hf : ∀ v, Ensures (f v) Q) : Ensures (var h >>= f) Q :=
  ensures_var.bind fun v _ => hf v

theorem Ensures.require_bind {a b c : LC F F} {f : Unit → Circuit F F β} {Q : β → Prop}
    (hf : a.eval * b.eval = c.eval → Ensures (f ()) Q) : Ensures (require a b c >>= f) Q :=
  ensures_require.bind fun _ h => hf h

theorem Ensures.mapM {f : β → Circuit F F α} {P : β → α → Prop} {xs : List β}
    (h : ∀ x ∈ xs, Ensures (f x) (P x)) : Ensures (xs.mapM f) (List.Forall₂ P xs) := by
  induction xs with
  | nil => simp
  | cons x xs ih =>
    rw [List.mapM_cons]
    refine (h x (by simp)).bind fun a ha => ?_
    refine (ih fun y hy => h y (by simp [hy])).bind fun as has => ?_
    exact ensures_pure.mpr (.cons ha has)

/-- A loop whose iterations each return something worth some `γ`. -/
theorem Ensures.mapM_exists {γ : Type} {f : β → Circuit F F α} {P : α → γ → Prop} {xs : List β}
    (h : ∀ x ∈ xs, Ensures (f x) fun a => ∃ c, P a c) :
    Ensures (xs.mapM f) fun as => ∃ cs : List γ, cs.length = xs.length ∧ List.Forall₂ P as cs := by
  induction xs with
  | nil => simp
  | cons x xs ih =>
    rw [List.mapM_cons]
    refine (h x (by simp)).bind fun a ha => ?_
    refine (ih fun y hy => h y (by simp [hy])).bind fun as has => ensures_pure.mpr ?_
    obtain ⟨c, hc⟩ := ha
    obtain ⟨cs, hlen, hcs⟩ := has
    exact ⟨c :: cs, by simp [hlen], .cons hc hcs⟩

/-- A loop that carries a state: `I i` holds before iteration `i`. -/
theorem Ensures.foldlM {f : σ → β → Circuit F F σ} {xs : List β} (I : ℕ → σ → Prop) {s : σ}
    (h0 : I 0 s)
    (hstep : ∀ i (hi : i < xs.length) s, I i s → Ensures (f s xs[i]) (I (i + 1))) :
    Ensures (xs.foldlM f s) (I xs.length) := by
  induction xs generalizing s I with
  | nil => simpa using h0
  | cons x xs ih =>
    rw [List.foldlM_cons]
    refine (hstep 0 (by simp) s h0).bind fun s' hs' => ?_
    refine ih (fun i => I (i + 1)) hs' fun i hi s hs => ?_
    exact hstep (i + 1) (by simpa using hi) s hs

theorem Ensures.forM {f : β → Circuit F F PUnit} {P : β → Prop} {xs : List β}
    (h : ∀ x ∈ xs, Ensures (f x) fun _ => P x) :
    Ensures (forM xs f) fun _ => ∀ x ∈ xs, P x := by
  induction xs with
  | nil => simp
  | cons x xs ih =>
    rw [List.forM_cons]
    refine (h x (by simp)).bind fun _ hx => ?_
    refine (ih fun y hy => h y (by simp [hy])).mono fun _ hxs => ?_
    simpa using ⟨hx, hxs⟩

/-! ## Completeness -/

/-- Some satisfying assignment publishes nothing and returns a result with `P`. -/
def Admits (c : Circuit F F α) (P : α → Prop) : Prop := ∃ r, c.Runs [] r ∧ P r

theorem Admits.mono {c : Circuit F F α} {P Q : α → Prop} (h : Admits c P)
    (hPQ : ∀ r, P r → Q r) : Admits c Q := by
  obtain ⟨r, hr, hP⟩ := h
  exact ⟨r, hr, hPQ r hP⟩

theorem Admits.exists_runs {c : Circuit F F α} {P : α → Prop} (h : Admits c P) :
    ∃ r, c.Runs [] r := by
  obtain ⟨r, hr, -⟩ := h
  exact ⟨r, hr⟩

theorem Admits.and_ensures {c : Circuit F F α} {P Q : α → Prop} (h : Admits c P)
    (h' : Ensures c Q) : Admits c fun r => P r ∧ Q r := by
  obtain ⟨r, hr, hP⟩ := h
  exact ⟨r, hr, hP, (h' [] r hr).2⟩

@[simp] theorem admits_pure {a : α} {P : α → Prop} :
    Admits (pure a : Circuit F F α) P ↔ P a := by simp [Admits]

theorem Admits.bind {x : Circuit F F α} {f : α → Circuit F F β} {P : α → Prop} {Q : β → Prop}
    (hx : Admits x P) (hf : ∀ a, P a → Admits (f a) Q) : Admits (x >>= f) Q := by
  obtain ⟨a, ha, hP⟩ := hx
  obtain ⟨b, hb, hQ⟩ := hf a hP
  exact ⟨b, runs_bind.mpr ⟨[], [], a, rfl, ha, hb⟩, hQ⟩

theorem Admits.map {x : Circuit F F α} {f : α → β} {Q : β → Prop}
    (hx : Admits x fun a => Q (f a)) : Admits (f <$> x) Q := by
  obtain ⟨a, ha, hQ⟩ := hx
  exact ⟨f a, runs_map.mpr ⟨a, ha, rfl⟩, hQ⟩

theorem admits_var {h : Outcome F} (v : F) : Admits (var h : Circuit F F F) (· = v) :=
  ⟨v, by simp, rfl⟩

theorem Admits.var_bind {h : Outcome F} {f : F → Circuit F F β} {Q : β → Prop} (v : F)
    (hf : Admits (f v) Q) : Admits (var h >>= f) Q :=
  (admits_var v).bind fun _ hv => hv ▸ hf

theorem Admits.require_bind {a b c : LC F F} {f : Unit → Circuit F F β} {Q : β → Prop}
    (h : a.eval * b.eval = c.eval) (hf : Admits (f ()) Q) : Admits (require a b c >>= f) Q :=
  Admits.bind (P := fun _ => True) ⟨(), by simpa using h, trivial⟩ fun _ _ => hf

theorem admits_require {a b c : LC F F} (h : a.eval * b.eval = c.eval) :
    Admits (require a b c) fun _ => True := ⟨(), by simpa using h, trivial⟩

theorem admits_assert {p : Prop} [Decidable p] (h : p) :
    Admits (assert p : Circuit F F Unit) fun _ => True := ⟨(), by simpa using h, trivial⟩

theorem admits_lift {x : Outcome α} {a : α} (h : x = .ok a) :
    Admits (lift x : Circuit F F α) (· = a) := ⟨a, runs_lift.mpr ⟨rfl, h⟩, rfl⟩

theorem Admits.mapM {f : β → Circuit F F α} {P : β → α → Prop} {xs : List β}
    (h : ∀ x ∈ xs, Admits (f x) (P x)) : Admits (xs.mapM f) (List.Forall₂ P xs) := by
  induction xs with
  | nil => simp
  | cons x xs ih =>
    rw [List.mapM_cons]
    refine (h x (by simp)).bind fun a ha => ?_
    refine (ih fun y hy => h y (by simp [hy])).bind fun as has => ?_
    exact admits_pure.mpr (.cons ha has)

/-- A loop whose iterations can each return something worth the target given for it. -/
theorem Admits.mapM_targets {γ : Type} {f : β → Circuit F F α} {P : α → γ → Prop} {xs : List β}
    {cs : List γ} (hlen : xs.length = cs.length)
    (h : ∀ x c, Admits (f x) fun a => P a c) :
    Admits (xs.mapM f) fun as => List.Forall₂ P as cs := by
  induction xs generalizing cs with
  | nil =>
    obtain rfl : cs = [] := List.eq_nil_of_length_eq_zero hlen.symm
    simp
  | cons x xs ih =>
    cases cs with
    | nil => simp at hlen
    | cons c cs =>
      rw [List.mapM_cons]
      refine (h x c).bind fun a ha => ?_
      refine (ih (by simpa using hlen)).bind fun as has => ?_
      exact admits_pure.mpr (.cons ha has)

theorem Admits.foldlM {f : σ → β → Circuit F F σ} {xs : List β} (I : ℕ → σ → Prop) {s : σ}
    (h0 : I 0 s)
    (hstep : ∀ i (hi : i < xs.length) s, I i s → Admits (f s xs[i]) (I (i + 1))) :
    Admits (xs.foldlM f s) (I xs.length) := by
  induction xs generalizing s I with
  | nil => simpa using h0
  | cons x xs ih =>
    rw [List.foldlM_cons]
    refine (hstep 0 (by simp) s h0).bind fun s' hs' => ?_
    refine ih (fun i => I (i + 1)) hs' fun i hi s hs => ?_
    exact hstep (i + 1) (by simpa using hi) s hs

theorem Admits.forM {f : β → Circuit F F PUnit} {xs : List β}
    (h : ∀ x ∈ xs, Admits (f x) fun _ => True) : Admits (forM xs f) fun _ => True := by
  induction xs with
  | nil => simp
  | cons x xs ih =>
    rw [List.forM_cons]
    exact (h x (by simp)).bind fun _ _ => ih fun y hy => h y (by simp [hy])

/-! ## Circuits that compute -/

/-- Every satisfying assignment returns a result with `P`, and there is one. -/
structure Computes (c : Circuit F F α) (P : α → Prop) : Prop where
  sound : Ensures c P
  complete : Admits c P

theorem Computes.mono {c : Circuit F F α} {P Q : α → Prop} (h : Computes c P)
    (hPQ : ∀ r, P r → Q r) : Computes c Q :=
  ⟨h.sound.mono hPQ, h.complete.mono hPQ⟩

@[simp] theorem computes_pure {a : α} {P : α → Prop} :
    Computes (pure a : Circuit F F α) P ↔ P a :=
  ⟨fun h => ensures_pure.mp h.sound, fun h => ⟨ensures_pure.mpr h, admits_pure.mpr h⟩⟩

theorem Computes.bind {x : Circuit F F α} {f : α → Circuit F F β} {P : α → Prop} {Q : β → Prop}
    (hx : Computes x P) (hf : ∀ a, P a → Computes (f a) Q) : Computes (x >>= f) Q :=
  ⟨hx.sound.bind fun a ha => (hf a ha).sound, hx.complete.bind fun a ha => (hf a ha).complete⟩

theorem Computes.map {x : Circuit F F α} {f : α → β} {Q : β → Prop}
    (hx : Computes x fun a => Q (f a)) : Computes (f <$> x) Q :=
  ⟨hx.sound.map, hx.complete.map⟩

theorem Computes.mapM {f : β → Circuit F F α} {P : β → α → Prop} {xs : List β}
    (h : ∀ x ∈ xs, Computes (f x) (P x)) : Computes (xs.mapM f) (List.Forall₂ P xs) :=
  ⟨.mapM fun x hx => (h x hx).sound, .mapM fun x hx => (h x hx).complete⟩

theorem Computes.foldlM {f : σ → β → Circuit F F σ} {xs : List β} (I : ℕ → σ → Prop) {s : σ}
    (h0 : I 0 s)
    (hstep : ∀ i (hi : i < xs.length) s, I i s → Computes (f s xs[i]) (I (i + 1))) :
    Computes (xs.foldlM f s) (I xs.length) :=
  ⟨.foldlM I h0 fun i hi s hs => (hstep i hi s hs).sound,
    .foldlM I h0 fun i hi s hs => (hstep i hi s hs).complete⟩

theorem Computes.var_require {h : Outcome F} {a b : LC F F} {c : F → LC F F} {v : F}
    {f : F → α} {Q : α → Prop} (hc : ∀ w, a.eval * b.eval = (c w).eval ↔ w = v) (hQ : Q (f v)) :
    Computes (do let w ← var h; require a b (c w); pure (f w)) Q := by
  constructor
  · refine .var_bind fun w => .require_bind fun hw => ensures_pure.mpr ?_
    rw [(hc w).mp hw]; exact hQ
  · exact .var_bind v (.require_bind ((hc v).mpr rfl) (admits_pure.mpr hQ))

end Circuits.Circuit
