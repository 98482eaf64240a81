import ZkCredVega.Circuit.Logic

/-!
# The honest prover's run

`Honest c ins r`: every allocation takes the value its hint gives, all hints
are there and all constraints hold; the run publishes `ins` and returns `r`.
There is at most one such run, and it is one of the runs of `Circuit.Runs`.
-/

namespace Circuits.Circuit

variable {F α β σ : Type} [Ring F]

/-- The hints of the circuit satisfy it, publish `ins` and return `r`. -/
def Honest : Circuit F F α → List F → α → Prop
  | ret a, ins, r => ins = [] ∧ r = a
  | fail _, _, _ => False
  | alloc hint k, ins, r => ∃ v, hint = .ok v ∧ (k v).Honest ins r
  | allocInput hint k, ins, r => ∃ v ins', hint = .ok v ∧ ins = v :: ins' ∧ (k v).Honest ins' r
  | enforce a b c k, ins, r => a.eval * b.eval = c.eval ∧ k.Honest ins r

theorem Honest.runs {c : Circuit F F α} {ins : List F} {r : α} (h : c.Honest ins r) :
    c.Runs ins r := by
  induction c generalizing ins with
  | ret a => exact h
  | fail e => exact h
  | alloc hint k ih =>
    obtain ⟨v, -, hv⟩ := h
    exact ⟨v, ih v hv⟩
  | allocInput hint k ih =>
    obtain ⟨v, ins', -, rfl, hv⟩ := h
    exact ⟨v, ins', rfl, ih v hv⟩
  | enforce a b c k ih => exact ⟨h.1, ih h.2⟩

theorem Honest.unique {c : Circuit F F α} {ins ins' : List F} {r r' : α} (h : c.Honest ins r)
    (h' : c.Honest ins' r') : ins = ins' ∧ r = r' := by
  induction c generalizing ins ins' with
  | ret a => exact ⟨h.1.trans h'.1.symm, h.2.trans h'.2.symm⟩
  | fail e => exact h.elim
  | alloc hint k ih =>
    obtain ⟨v, hv, hr⟩ := h
    obtain ⟨v', hv', hr'⟩ := h'
    obtain rfl : v = v' := by simpa using hv.symm.trans hv'
    exact ih v hr hr'
  | allocInput hint k ih =>
    obtain ⟨v, i, hv, rfl, hr⟩ := h
    obtain ⟨v', i', hv', rfl, hr'⟩ := h'
    obtain rfl : v = v' := by simpa using hv.symm.trans hv'
    obtain ⟨rfl, rfl⟩ := ih v hr hr'
    exact ⟨rfl, rfl⟩
  | enforce a b c k ih => exact ih h.2 h'.2

theorem honest_bind {x : Circuit F F α} {f : α → Circuit F F β} {ins : List F} {r : β} :
    Honest (x >>= f) ins r ↔ ∃ i j a, ins = i ++ j ∧ Honest x i a ∧ Honest (f a) j r := by
  change Honest (x.bind f) ins r ↔ _
  induction x generalizing ins with
  | ret a =>
    constructor
    · intro h; exact ⟨[], ins, a, rfl, ⟨rfl, rfl⟩, h⟩
    · rintro ⟨i, j, b, rfl, ⟨rfl, rfl⟩, h⟩; exact h
  | fail e => simp [bind, Honest]
  | alloc h k ih =>
    simp only [bind, Honest, ih]
    constructor
    · rintro ⟨v, hv, i, j, a, e, hx, hf⟩; exact ⟨i, j, a, e, ⟨v, hv, hx⟩, hf⟩
    · rintro ⟨i, j, a, e, ⟨v, hv, hx⟩, hf⟩; exact ⟨v, hv, i, j, a, e, hx, hf⟩
  | allocInput h k ih =>
    simp only [bind, Honest, ih]
    constructor
    · rintro ⟨v, _, hv, rfl, i, j, a, rfl, hx, hf⟩
      exact ⟨v :: i, j, a, rfl, ⟨v, i, hv, rfl, hx⟩, hf⟩
    · rintro ⟨_, j, a, rfl, ⟨v, i, hv, rfl, hx⟩, hf⟩
      exact ⟨v, i ++ j, hv, rfl, i, j, a, rfl, hx, hf⟩
  | enforce a b c k ih =>
    simp only [bind, Honest, ih]
    constructor
    · rintro ⟨hc, i, j, a, e, hx, hf⟩; exact ⟨i, j, a, e, ⟨hc, hx⟩, hf⟩
    · rintro ⟨i, j, a, e, ⟨hc, hx⟩, hf⟩; exact ⟨hc, i, j, a, e, hx, hf⟩

/-- The honest run exists, publishes nothing and returns a result with `P`. -/
def Succeeds (c : Circuit F F α) (P : α → Prop) : Prop := ∃ r, c.Honest [] r ∧ P r

theorem Succeeds.mono {c : Circuit F F α} {P Q : α → Prop} (h : Succeeds c P)
    (hPQ : ∀ r, P r → Q r) : Succeeds c Q := by
  obtain ⟨r, hr, hP⟩ := h
  exact ⟨r, hr, hPQ r hP⟩

theorem Succeeds.and_ensures {c : Circuit F F α} {P Q : α → Prop} (h : Succeeds c P)
    (h' : Ensures c Q) : Succeeds c fun r => P r ∧ Q r := by
  obtain ⟨r, hr, hP⟩ := h
  exact ⟨r, hr, hP, (h' [] r hr.runs).2⟩

@[simp] theorem succeeds_pure {a : α} {P : α → Prop} :
    Succeeds (pure a : Circuit F F α) P ↔ P a := by
  constructor
  · rintro ⟨r, ⟨-, rfl⟩, hP⟩; exact hP
  · intro hP; exact ⟨a, ⟨rfl, rfl⟩, hP⟩

theorem Succeeds.bind {x : Circuit F F α} {f : α → Circuit F F β} {P : α → Prop} {Q : β → Prop}
    (hx : Succeeds x P) (hf : ∀ a, P a → Succeeds (f a) Q) : Succeeds (x >>= f) Q := by
  obtain ⟨a, ha, hP⟩ := hx
  obtain ⟨b, hb, hQ⟩ := hf a hP
  exact ⟨b, honest_bind.mpr ⟨[], [], a, rfl, ha, hb⟩, hQ⟩

theorem Succeeds.map {x : Circuit F F α} {f : α → β} {Q : β → Prop}
    (hx : Succeeds x fun a => Q (f a)) : Succeeds (f <$> x) Q := by
  rw [← bind_pure_comp]
  exact hx.bind fun a ha => succeeds_pure.mpr ha

theorem Succeeds.var_bind {h : Outcome F} {f : F → Circuit F F β} {Q : β → Prop} {v : F}
    (hv : h = .ok v) (hf : Succeeds (f v) Q) : Succeeds (var h >>= f) Q := by
  obtain ⟨b, hb, hQ⟩ := hf
  exact ⟨b, honest_bind.mpr ⟨[], [], v, rfl, ⟨v, hv, rfl, rfl⟩, hb⟩, hQ⟩

theorem Succeeds.require_bind {a b c : LC F F} {f : Unit → Circuit F F β} {Q : β → Prop}
    (h : a.eval * b.eval = c.eval) (hf : Succeeds (f ()) Q) : Succeeds (require a b c >>= f) Q := by
  obtain ⟨b, hb, hQ⟩ := hf
  exact ⟨b, honest_bind.mpr ⟨[], [], (), rfl, ⟨h, rfl, rfl⟩, hb⟩, hQ⟩

theorem succeeds_require {a b c : LC F F} (h : a.eval * b.eval = c.eval) :
    Succeeds (require a b c) fun _ => True := ⟨(), ⟨h, rfl, rfl⟩, trivial⟩

theorem succeeds_assert {p : Prop} [Decidable p] (h : p) :
    Succeeds (assert p : Circuit F F Unit) fun _ => True := by
  refine ⟨(), ?_, trivial⟩
  rw [assert, if_pos h]
  exact ⟨rfl, rfl⟩

theorem Succeeds.mapM {f : β → Circuit F F α} {P : β → α → Prop} {xs : List β}
    (h : ∀ x ∈ xs, Succeeds (f x) (P x)) : Succeeds (xs.mapM f) (List.Forall₂ P xs) := by
  induction xs with
  | nil => exact succeeds_pure.mpr .nil
  | cons x xs ih =>
    rw [List.mapM_cons]
    refine (h x (by simp)).bind fun a ha => ?_
    refine (ih fun y hy => h y (by simp [hy])).bind fun as has => ?_
    exact succeeds_pure.mpr (.cons ha has)

theorem Succeeds.foldlM {f : σ → β → Circuit F F σ} {xs : List β} (I : ℕ → σ → Prop) {s : σ}
    (h0 : I 0 s)
    (hstep : ∀ i (hi : i < xs.length) s, I i s → Succeeds (f s xs[i]) (I (i + 1))) :
    Succeeds (xs.foldlM f s) (I xs.length) := by
  induction xs generalizing s I with
  | nil => exact succeeds_pure.mpr h0
  | cons x xs ih =>
    rw [List.foldlM_cons]
    refine (hstep 0 (by simp) s h0).bind fun s' hs' => ?_
    refine ih (fun i => I (i + 1)) hs' fun i hi s hs => ?_
    exact hstep (i + 1) (by simpa using hi) s hs

theorem Succeeds.forM {f : β → Circuit F F PUnit} {xs : List β}
    (h : ∀ x ∈ xs, Succeeds (f x) fun _ => True) : Succeeds (forM xs f) fun _ => True := by
  induction xs with
  | nil => exact succeeds_pure.mpr trivial
  | cons x xs ih =>
    rw [List.forM_cons]
    exact (h x (by simp)).bind fun _ _ => ih fun y hy => h y (by simp [hy])

/-! ## Either prover -/

/-- Whether a statement is about every prover or about the honest one. -/
inductive Prover where
  | any
  | honest

/-- Any prover: every satisfying assignment returns a result with `P`, and there is one. The honest
prover: its run is there and returns such a result. -/
def Yields (who : Prover) (c : Circuit F F α) (P : α → Prop) : Prop :=
  match who with
  | .any => Computes c P
  | .honest => Succeeds c P

variable {who : Prover}

theorem Yields.mono {c : Circuit F F α} {P Q : α → Prop} (h : Yields who c P)
    (hPQ : ∀ r, P r → Q r) : Yields who c Q := by
  cases who with
  | any => exact Computes.mono h hPQ
  | honest => exact Succeeds.mono h hPQ

theorem yields_pure {a : α} {P : α → Prop} (h : P a) : Yields who (pure a : Circuit F F α) P := by
  cases who with
  | any => exact computes_pure.mpr h
  | honest => exact succeeds_pure.mpr h

theorem Yields.bind {x : Circuit F F α} {f : α → Circuit F F β} {P : α → Prop} {Q : β → Prop}
    (hx : Yields who x P) (hf : ∀ a, P a → Yields who (f a) Q) : Yields who (x >>= f) Q := by
  cases who with
  | any => exact Computes.bind hx hf
  | honest => exact Succeeds.bind hx hf

theorem Yields.map {x : Circuit F F α} {f : α → β} {Q : β → Prop}
    (hx : Yields who x fun a => Q (f a)) : Yields who (f <$> x) Q := by
  cases who with
  | any => exact Computes.map hx
  | honest => exact Succeeds.map hx

theorem Yields.mapM {f : β → Circuit F F α} {P : β → α → Prop} {xs : List β}
    (h : ∀ x ∈ xs, Yields who (f x) (P x)) : Yields who (xs.mapM f) (List.Forall₂ P xs) := by
  cases who with
  | any => exact Computes.mapM h
  | honest => exact Succeeds.mapM h

/-- A loop whose iterations each return something worth the target given for it. -/
theorem Yields.mapM_targets {γ : Type} {f : β → Circuit F F α} {P : α → γ → Prop} {xs : List β} {cs : List γ}
    (h : List.Forall₂ (fun x c => Yields who (f x) (P · c)) xs cs) :
    Yields who (xs.mapM f) (List.Forall₂ P · cs) := by
  induction h with
  | nil => exact yields_pure .nil
  | cons hx _ ih =>
    rw [List.mapM_cons]
    refine hx.bind fun a ha => ?_
    exact ih.bind fun as has => yields_pure (.cons ha has)

theorem Yields.foldlM {f : σ → β → Circuit F F σ} {xs : List β} (I : ℕ → σ → Prop) {s : σ}
    (h0 : I 0 s)
    (hstep : ∀ i (hi : i < xs.length) s, I i s → Yields who (f s xs[i]) (I (i + 1))) :
    Yields who (xs.foldlM f s) (I xs.length) := by
  cases who with
  | any => exact Computes.foldlM I h0 hstep
  | honest => exact Succeeds.foldlM I h0 hstep

theorem yields_assert {p : Prop} [Decidable p] (h : p) :
    Yields who (assert p : Circuit F F Unit) fun _ => p := by
  cases who with
  | any => exact ⟨ensures_assert, ⟨(), by simpa using h, h⟩⟩
  | honest => exact (succeeds_assert h).mono fun _ _ => h

theorem Yields.require_bind {a b c : LC F F} {f : Unit → Circuit F F β} {Q : β → Prop}
    (h : a.eval * b.eval = c.eval) (hf : Yields who (f ()) Q) : Yields who (require a b c >>= f) Q := by
  cases who with
  | any => exact ⟨.require_bind fun _ => Computes.sound hf, .require_bind h (Computes.complete hf)⟩
  | honest => exact Succeeds.require_bind h hf

theorem yields_require {a b c : LC F F} (h : a.eval * b.eval = c.eval) :
    Yields who (require a b c) fun _ => True := by
  rw [← bind_pure (require a b c)]
  exact .require_bind h (yields_pure trivial)

theorem Yields.forM {f : β → Circuit F F PUnit} {xs : List β}
    (h : ∀ x ∈ xs, Yields who (f x) fun _ => True) : Yields who (forM xs f) fun _ => True := by
  induction xs with
  | nil => exact yields_pure trivial
  | cons x xs ih =>
    rw [List.forM_cons]
    exact (h x (by simp)).bind fun _ _ => ih fun y hy => h y (by simp [hy])

theorem Yields.ensures {c : Circuit F F α} {P : α → Prop} (h : Yields .any c P) : Ensures c P :=
  Computes.sound h

theorem Yields.succeeds {c : Circuit F F α} {P : α → Prop} (h : Yields .honest c P) :
    Succeeds c P := h

/-- What a circuit that computes leads to, whatever it returns. -/
theorem Yields.runs_bind_iff {x : Circuit F F α} {f : α → Circuit F F β} {P : α → Prop} {Q : Prop} {ins : List F}
    {r : β} (hx : Yields .any x P) (hf : ∀ a, P a → ((f a).Runs ins r ↔ Q)) : (x >>= f).Runs ins r ↔ Q := by
  constructor
  · intro h
    obtain ⟨a, -, ha, hr⟩ := h.bind_elim hx.ensures
    exact (hf a ha).mp hr
  · intro hQ
    obtain ⟨a, hrun, ha⟩ := Computes.complete hx
    exact .bind_intro hrun ((hf a ha).mpr hQ)

theorem runs_rule_bind {x : Circuit F F Unit} {f : Unit → Circuit F F β} {P : Prop} {ins : List F} {r : β}
    (hx : ∀ i u, x.Runs i u ↔ i = [] ∧ P) : (x >>= f).Runs ins r ↔ P ∧ (f ()).Runs ins r := by
  rw [runs_bind]
  constructor
  · rintro ⟨i, j, u, rfl, hi, hj⟩
    obtain ⟨rfl, hP⟩ := (hx i u).mp hi
    exact ⟨hP, hj⟩
  · rintro ⟨hP, hr⟩
    exact ⟨[], ins, (), rfl, (hx [] ()).mpr ⟨rfl, hP⟩, hr⟩

theorem runs_forM {f : β → Circuit F F PUnit} {R : β → Prop} {xs : List β} {ins : List F} {u : PUnit}
    (h : ∀ x ∈ xs, ∀ i v, (f x).Runs i v ↔ i = [] ∧ R x) :
    (forM xs f).Runs ins u ↔ ins = [] ∧ ∀ x ∈ xs, R x := by
  induction xs generalizing ins with
  | nil => simp
  | cons x xs ih =>
    have htail : ∀ i, (forM xs f).Runs i u ↔ i = [] ∧ ∀ x ∈ xs, R x :=
      fun i => ih fun y hy => h y (List.mem_cons_of_mem _ hy)
    rw [List.forM_cons, runs_bind, List.forall_mem_cons]
    constructor
    · rintro ⟨i, j, v, rfl, hi, hj⟩
      obtain ⟨rfl, hx⟩ := (h x List.mem_cons_self i v).mp hi
      obtain ⟨rfl, hxs⟩ := (htail j).mp hj
      exact ⟨rfl, hx, hxs⟩
    · rintro ⟨rfl, hx, hxs⟩
      exact ⟨[], [], u, rfl, (h x List.mem_cons_self [] u).mpr ⟨rfl, hx⟩, (htail []).mpr ⟨rfl, hxs⟩⟩

theorem Yields.admits {c : Circuit F F α} {P : α → Prop} (h : Yields .any c P) : Admits c P :=
  Computes.complete h

/-! ## Exact honest runs -/

/-- The honest run exists, publishes `ins` and returns a result with `P`. -/
def Delivers (c : Circuit F F α) (ins : List F) (P : α → Prop) : Prop := ∃ r, c.Honest ins r ∧ P r

section Exact

variable {x : Circuit F F α} {f : α → Circuit F F β} {P : α → Prop} {ins i : List F} {r : β}

theorem Succeeds.delivers (h : Succeeds x P) : Delivers x [] P := h

theorem Delivers.exists_honest_bind (hx : Delivers x i P) (f : α → Circuit F F β) :
    ∃ a, P a ∧ ∀ ins r, (x >>= f).Honest ins r ↔ ∃ j, ins = i ++ j ∧ (f a).Honest j r := by
  obtain ⟨a, ha, hP⟩ := hx
  refine ⟨a, hP, fun ins r => ⟨?_, ?_⟩⟩
  · intro h
    obtain ⟨i', j, a', rfl, hi', hj⟩ := honest_bind.mp h
    obtain ⟨rfl, rfl⟩ := ha.unique hi'
    exact ⟨j, rfl, hj⟩
  · rintro ⟨j, rfl, hj⟩
    exact honest_bind.mpr ⟨i, j, a, rfl, ha, hj⟩

theorem Delivers.honest_bind_iff {Q : List F → Prop} (hx : Delivers x i P)
    (hf : ∀ a, P a → ∀ j, (f a).Honest j r ↔ Q j) : (x >>= f).Honest ins r ↔ ∃ j, ins = i ++ j ∧ Q j := by
  obtain ⟨a, hP, h⟩ := hx.exists_honest_bind f
  exact (h ins r).trans (exists_congr fun j => and_congr_right fun _ => hf a hP j)

theorem Succeeds.honest_bind_iff {Q : Prop} (hx : Succeeds x P) (hf : ∀ a, P a → ((f a).Honest ins r ↔ Q)) :
    (x >>= f).Honest ins r ↔ Q := by
  obtain ⟨a, hP, h⟩ := hx.delivers.exists_honest_bind f
  rw [h, ← hf a hP]
  simp

/-- Rules that are met exactly when `P` holds. -/
theorem honest_rule {c : Circuit F F Unit} {P : Prop} (hsound : Ensures c fun _ => P)
    (hcomplete : P → Succeeds c fun _ => True) {u : Unit} : c.Honest ins u ↔ ins = [] ∧ P := by
  constructor
  · intro h
    exact hsound ins u h.runs
  · rintro ⟨rfl, hP⟩
    obtain ⟨_, h, -⟩ := hcomplete hP
    exact h

/-- Rules that publish `i` and are met exactly when `P` holds, before the rest. -/
theorem honest_rules_bind {c : Circuit F F Unit} {g : Unit → Circuit F F β} {P : Prop}
    (hc : ∀ ins u, c.Honest ins u ↔ ins = i ∧ P) :
    (c >>= g).Honest ins r ↔ P ∧ ∃ j, ins = i ++ j ∧ (g ()).Honest j r := by
  rw [honest_bind]
  constructor
  · rintro ⟨i', j, u, rfl, hi, hj⟩
    obtain ⟨rfl, hP⟩ := (hc i' u).mp hi
    exact ⟨hP, j, rfl, hj⟩
  · rintro ⟨hP, j, rfl, hj⟩
    exact ⟨i, j, (), rfl, (hc i ()).mpr ⟨rfl, hP⟩, hj⟩

theorem honest_rule_bind {c : Circuit F F Unit} {g : Unit → Circuit F F β} {P : Prop}
    (hc : ∀ ins u, c.Honest ins u ↔ ins = [] ∧ P) : (c >>= g).Honest ins r ↔ P ∧ (g ()).Honest ins r := by
  rw [honest_rules_bind hc]
  simp

theorem Delivers.mapM {f : β → Circuit F F α} {Q : β → α → Prop} {xs : List β} {g : β → List F}
    (h : ∀ x ∈ xs, Delivers (f x) (g x) (Q x)) : Delivers (xs.mapM f) (xs.flatMap g) (List.Forall₂ Q xs) := by
  induction xs with
  | nil => exact ⟨[], ⟨rfl, rfl⟩, .nil⟩
  | cons x xs ih =>
    rw [List.forall_mem_cons] at h
    obtain ⟨a, ha, hQ⟩ := h.1
    obtain ⟨as, has, hQs⟩ := ih h.2
    refine ⟨a :: as, ?_, .cons hQ hQs⟩
    rw [List.mapM_cons, List.flatMap_cons]
    refine honest_bind.mpr ⟨g x, xs.flatMap g, a, rfl, ha, ?_⟩
    exact honest_bind.mpr ⟨xs.flatMap g, [], as, (List.append_nil _).symm, has, ⟨rfl, rfl⟩⟩

end Exact

end Circuits.Circuit
