import ZkCredVega.Circuit.Honest

/-!
# Synthesis with values

`synthesize` runs a circuit as the builder does: every allocation takes the value of
its hint, constraints are recorded and not checked, and the public variables are listed in
the order of their allocation. `Publishes c ins P`: synthesis ends without an error, with
the public values `ins` and a result with `P`. `PanicsUnless c S P`: synthesis panics
unless `S`, and then ends with a result with `P`.
-/

namespace Circuits.Circuit

variable {F α β : Type}

/-- The public values, in order, and the result; or the failure that stops synthesis. -/
def synthesize : Circuit F F α → Outcome (List F × α)
  | ret a => .ok ([], a)
  | fail e => .error e
  | alloc hint k => do
    let v ← hint
    (k v).synthesize
  | allocInput hint k => do
    let v ← hint
    let t ← (k v).synthesize
    pure (v :: t.1, t.2)
  | enforce _ _ _ k => k.synthesize

def Publishes (c : Circuit F F α) (ins : List F) (P : α → Prop) : Prop :=
  ∃ r, c.synthesize = .ok (ins, r) ∧ P r

theorem publishes_pure {a : α} {P : α → Prop} (h : P a) : Publishes (pure a : Circuit F F α) [] P :=
  ⟨a, rfl, h⟩

theorem Publishes.mono {c : Circuit F F α} {ins : List F} {P Q : α → Prop} (h : Publishes c ins P)
    (hPQ : ∀ a, P a → Q a) : Publishes c ins Q := by
  obtain ⟨r, hr, hP⟩ := h
  exact ⟨r, hr, hPQ r hP⟩

theorem Publishes.bind {x : Circuit F F α} {f : α → Circuit F F β} {i j : List F} {P : α → Prop}
    {Q : β → Prop} (hx : Publishes x i P) (hf : ∀ a, P a → Publishes (f a) j Q) :
    Publishes (x >>= f) (i ++ j) Q := by
  show Publishes (x.bind f) (i ++ j) Q
  induction x generalizing i with
  | ret a =>
    obtain ⟨r, hr, hP⟩ := hx
    cases hr
    exact hf a hP
  | fail e =>
    obtain ⟨r, hr, -⟩ := hx
    cases hr
  | alloc hint k ih =>
    obtain ⟨r, hr, hP⟩ := hx
    cases hint with
    | error e => cases hr
    | ok v => exact ih v ⟨r, hr, hP⟩
  | allocInput hint k ih =>
    obtain ⟨r, hr, hP⟩ := hx
    cases hint with
    | error e => cases hr
    | ok v =>
      cases hk : (k v).synthesize with
      | error e =>
        rw [synthesize] at hr
        change ((k v).synthesize >>= fun t => _) = _ at hr
        rw [hk] at hr
        cases hr
      | ok t =>
        rw [synthesize] at hr
        change ((k v).synthesize >>= fun t => pure (v :: t.1, t.2)) = _ at hr
        rw [hk] at hr
        cases hr
        obtain ⟨r', hr', hQ⟩ := ih v ⟨t.2, hk, hP⟩
        refine ⟨r', ?_, hQ⟩
        change (((k v).bind f).synthesize >>= fun t => pure (v :: t.1, t.2)) = _
        rw [hr']
        rfl
  | enforce a b c k ih =>
    obtain ⟨r, hr, hP⟩ := hx
    exact ih ⟨r, hr, hP⟩

theorem Publishes.bind_nil {x : Circuit F F α} {f : α → Circuit F F β} {j : List F} {P : α → Prop}
    {Q : β → Prop} (hx : Publishes x [] P) (hf : ∀ a, P a → Publishes (f a) j Q) :
    Publishes (x >>= f) j Q := hx.bind hf

theorem Publishes.bind_last {x : Circuit F F α} {f : α → Circuit F F β} {i : List F} {P : α → Prop}
    {Q : β → Prop} (hx : Publishes x i P) (hf : ∀ a, P a → Publishes (f a) [] Q) :
    Publishes (x >>= f) i Q := by
  rw [← List.append_nil i]
  exact hx.bind hf

theorem publishes_var {hint : Outcome F} {v : F} (h : hint = .ok v) :
    Publishes (var hint : Circuit F F F) [] fun _ => True := by
  subst h
  exact ⟨v, rfl, trivial⟩

theorem publishes_require {a b c : LC F F} : Publishes (require a b c) [] fun _ => True :=
  ⟨(), rfl, trivial⟩

theorem publishes_assert {p : Prop} [Decidable p] (hp : p) :
    Publishes (assert p : Circuit F F Unit) [] fun _ => True := by
  unfold assert
  rw [if_pos hp]
  exact ⟨(), rfl, trivial⟩

theorem Publishes.mapM {f : α → Circuit F F β} {P : β → Prop} {xs : List α} {ins : α → List F}
    (hf : ∀ x ∈ xs, Publishes (f x) (ins x) P) :
    Publishes (xs.mapM f) (xs.flatMap ins) fun ys => ys.length = xs.length ∧ ∀ y ∈ ys, P y := by
  induction xs with
  | nil => exact publishes_pure ⟨rfl, by simp⟩
  | cons x xs ih =>
    rw [List.mapM_cons, List.flatMap_cons]
    refine (hf x List.mem_cons_self).bind fun y hy => ?_
    have hrest := ih fun z hz => hf z (List.mem_cons_of_mem _ hz)
    refine hrest.bind_last fun ys hys => ?_
    refine publishes_pure ⟨by simp [hys.1], ?_⟩
    intro z hz
    rcases List.mem_cons.mp hz with rfl | hz
    · exact hy
    · exact hys.2 z hz

theorem Publishes.mapM_nil {f : α → Circuit F F β} {P : β → Prop} {xs : List α}
    (hf : ∀ x ∈ xs, Publishes (f x) [] P) :
    Publishes (xs.mapM f) [] fun ys => ys.length = xs.length ∧ ∀ y ∈ ys, P y := by
  have h := (Publishes.mapM hf : Publishes (xs.mapM f) (xs.flatMap fun _ => []) _)
  rwa [List.flatMap_eq_nil_iff.mpr fun _ _ => rfl] at h

theorem Publishes.map {x : Circuit F F α} {f : α → β} {ins : List F} {P : β → Prop}
    (h : Publishes x ins fun a => P (f a)) : Publishes (f <$> x) ins P := by
  rw [← bind_pure_comp]
  exact h.bind_last fun a ha => publishes_pure ha

theorem Publishes.forM {f : α → Circuit F F Unit} {xs : List α}
    (hf : ∀ x ∈ xs, Publishes (f x) [] fun _ => True) : Publishes (forM xs f) [] fun _ => True := by
  induction xs with
  | nil => exact publishes_pure trivial
  | cons x xs ih =>
    rw [List.forM_cons]
    refine (hf x List.mem_cons_self).bind_nil fun _ _ => ?_
    exact ih fun z hz => hf z (List.mem_cons_of_mem _ hz)

theorem Publishes.foldlM {f : β → α → Circuit F F β} {P : β → Prop} {xs : List α} {b : β} (hb : P b)
    (hf : ∀ b x, x ∈ xs → P b → Publishes (f b x) [] P) : Publishes (xs.foldlM f b) [] P := by
  induction xs generalizing b with
  | nil => exact publishes_pure hb
  | cons x xs ih =>
    rw [List.foldlM_cons]
    refine (hf b x List.mem_cons_self hb).bind_nil fun b' hb' => ?_
    exact ih hb' fun c z hz hc => hf c z (List.mem_cons_of_mem _ hz) hc

theorem Publishes.bind_error {x : Circuit F F α} {f : α → Circuit F F β} {i : List F} {P : α → Prop} {e : Failure}
    (hx : Publishes x i P) (hf : ∀ a, P a → (f a).synthesize = .error e) : (x >>= f).synthesize = .error e := by
  show (x.bind f).synthesize = .error e
  induction x generalizing i with
  | ret a =>
    obtain ⟨r, hr, hP⟩ := hx
    cases hr
    exact hf a hP
  | fail e' =>
    obtain ⟨r, hr, -⟩ := hx
    cases hr
  | alloc hint k ih =>
    obtain ⟨r, hr, hP⟩ := hx
    cases hint with
    | error e' => cases hr
    | ok v => exact ih v ⟨r, hr, hP⟩
  | allocInput hint k ih =>
    obtain ⟨r, hr, hP⟩ := hx
    cases hint with
    | error e' => cases hr
    | ok v =>
      change ((k v).synthesize >>= fun t => pure (v :: t.1, t.2)) = _ at hr
      change (((k v).bind f).synthesize >>= fun t => pure (v :: t.1, t.2)) = _
      cases hk : (k v).synthesize with
      | error e' =>
        rw [hk] at hr
        cases hr
      | ok t =>
        rw [hk] at hr
        cases hr
        rw [ih v ⟨t.2, hk, hP⟩]
        rfl
  | enforce a b c k ih =>
    obtain ⟨r, hr, hP⟩ := hx
    exact ih ⟨r, hr, hP⟩

theorem synthesize_bind_error {x : Circuit F F α} {f : α → Circuit F F β} {e : Failure}
    (hx : x.synthesize = .error e) : (x >>= f).synthesize = .error e := by
  show (x.bind f).synthesize = .error e
  induction x with
  | ret a => cases hx
  | fail e' =>
    cases hx
    rfl
  | alloc hint k ih =>
    cases hint with
    | error e' =>
      cases hx
      rfl
    | ok v => exact ih v hx
  | allocInput hint k ih =>
    cases hint with
    | error e' =>
      cases hx
      rfl
    | ok v =>
      change ((k v).synthesize >>= fun t => pure (v :: t.1, t.2)) = _ at hx
      change (((k v).bind f).synthesize >>= fun t => pure (v :: t.1, t.2)) = _
      cases hk : (k v).synthesize with
      | error e' =>
        rw [hk] at hx
        rw [ih v (hk.trans hx)]
        rfl
      | ok t =>
        rw [hk] at hx
        cases hx
  | enforce a b c k ih => exact ih hx

theorem Honest.synthesize [Ring F] {c : Circuit F F α} {ins : List F} {r : α} (h : c.Honest ins r) :
    c.synthesize = .ok (ins, r) := by
  induction c generalizing ins with
  | ret a =>
    obtain ⟨rfl, rfl⟩ := h
    rfl
  | fail e => exact h.elim
  | alloc hint k ih =>
    obtain ⟨v, rfl, hv⟩ := h
    exact ih v hv
  | allocInput hint k ih =>
    obtain ⟨v, ins', rfl, rfl, hv⟩ := h
    show ((k v).synthesize >>= fun t => pure (v :: t.1, t.2)) = _
    rw [ih v hv]
    rfl
  | enforce a b c k ih => exact ih h.2

/-- An honest run is synthesized; that its constraints hold is not needed. -/
theorem Succeeds.publishes [Ring F] {c : Circuit F F α} {P : α → Prop} (h : Succeeds c P) : Publishes c [] P := by
  obtain ⟨r, hr, hP⟩ := h
  exact ⟨r, hr.synthesize, hP⟩

/-! ## Panics -/

section Panics

variable {x : Circuit F F α} {f : α → Circuit F F β} {P : α → Prop} {Q : β → Prop} {S T : Prop} {ins : List F}

/-- Synthesis publishes nothing and ends with a result with `P` if `S` holds, and panics otherwise. -/
structure PanicsUnless (c : Circuit F F α) (S : Prop) (P : α → Prop) : Prop where
  publishes : S → Publishes c [] P
  panics : ¬S → c.synthesize = .error .panic

theorem Publishes.bind_panicsUnless (hx : Publishes x [] P) (hf : ∀ a, P a → PanicsUnless (f a) T Q) :
    PanicsUnless (x >>= f) T Q :=
  ⟨fun hT => hx.bind_nil fun a ha => (hf a ha).publishes hT, fun hT => hx.bind_error fun a ha => (hf a ha).panics hT⟩

theorem PanicsUnless.bind (hx : PanicsUnless x S P) (hf : S → ∀ a, P a → PanicsUnless (f a) T Q) :
    PanicsUnless (x >>= f) (S ∧ T) Q := by
  constructor
  · rintro ⟨hS, hT⟩
    exact (hx.publishes hS).bind_nil fun a ha => (hf hS a ha).publishes hT
  · intro hST
    by_cases hS : S
    · exact (hx.publishes hS).bind_error fun a ha => (hf hS a ha).panics fun hT => hST ⟨hS, hT⟩
    · exact synthesize_bind_error (hx.panics hS)

theorem PanicsUnless.bind_publishes (hx : PanicsUnless x S P) (hf : S → ∀ a, P a → Publishes (f a) [] Q) :
    PanicsUnless (x >>= f) S Q :=
  ⟨fun hS => (hx.publishes hS).bind_nil (hf hS), fun hS => synthesize_bind_error (hx.panics hS)⟩

theorem PanicsUnless.synthesize_ne_iff (hx : PanicsUnless x S P) : x.synthesize ≠ .error .panic ↔ S := by
  constructor
  · intro hne
    by_contra hS
    exact hne (hx.panics hS)
  · intro hS hpanic
    obtain ⟨r, hr, -⟩ := hx.publishes hS
    cases hr.symm.trans hpanic

/-- A part that synthesizes does not decide whether the whole panics. -/
theorem Publishes.bind_ne_iff (hx : Publishes x ins P)
    (hf : ∀ a, P a → ((f a).synthesize ≠ .error .panic ↔ S)) : (x >>= f).synthesize ≠ .error .panic ↔ S := by
  obtain ⟨r, hr, hP⟩ := hx
  have hpart : Publishes x ins (· = r) := ⟨r, hr, rfl⟩
  rw [← hf r hP]
  refine not_congr ⟨fun hpanic => ?_, fun hpanic => ?_⟩
  · by_contra hne
    cases hrest : (f r).synthesize with
    | error e =>
      have herror := hpart.bind_error fun a ha => by rw [ha, hrest]
      exact hne (hrest.trans (herror.symm.trans hpanic))
    | ok t =>
      have hok := hpart.bind (f := f) (j := t.1) (Q := (· = t.2)) fun a ha => by
        rw [ha]
        exact ⟨t.2, hrest, rfl⟩
      obtain ⟨_, hok, -⟩ := hok
      cases hok.symm.trans hpanic
  · exact hpart.bind_error fun a ha => by rw [ha, hpanic]

/-- A panic is that of the part before a result. -/
theorem bind_pure_ne_iff {g : α → β} :
    (x >>= fun a => pure (g a)).synthesize ≠ .error .panic ↔ x.synthesize ≠ .error .panic := by
  cases hx : x.synthesize with
  | error e =>
    rw [synthesize_bind_error hx]
    simp
  | ok t =>
    have hpart : Publishes x t.1 (· = t.2) := ⟨t.2, hx, rfl⟩
    obtain ⟨r, hr, -⟩ := hpart.bind_last (f := fun a => pure (g a)) (Q := fun _ => True) fun _ _ => publishes_pure trivial
    rw [hr]
    exact ⟨fun _ => nofun, fun _ => nofun⟩

end Panics

/-! ## No panic -/

section Safe

variable {V σ : Type}

/-- No branch of the circuit panics, whatever the variables are, and every result has `P`. -/
inductive Safe : Circuit F V α → (α → Prop) → Prop where
  | ret {a : α} {P : α → Prop} (h : P a) : Safe (.ret a) P
  | fail {e : Failure} {P : α → Prop} (h : e ≠ .panic) : Safe (.fail e) P
  | alloc {hint : Outcome F} {k : V → Circuit F V α} {P : α → Prop} (h : hint ≠ .error .panic)
      (hk : ∀ v, Safe (k v) P) : Safe (.alloc hint k) P
  | allocInput {hint : Outcome F} {k : V → Circuit F V α} {P : α → Prop} (h : hint ≠ .error .panic)
      (hk : ∀ v, Safe (k v) P) : Safe (.allocInput hint k) P
  | enforce {a b c : LC F V} {k : Circuit F V α} {P : α → Prop} (hk : Safe k P) : Safe (.enforce a b c k) P

theorem safe_pure {a : α} {P : α → Prop} (h : P a) : Safe (pure a : Circuit F V α) P := .ret h

theorem Safe.bind {x : Circuit F V α} {f : α → Circuit F V β} {P : α → Prop} {Q : β → Prop} (hx : Safe x P)
    (hf : ∀ a, P a → Safe (f a) Q) : Safe (x >>= f) Q := by
  show Safe (x.bind f) Q
  induction hx with
  | ret h => exact hf _ h
  | fail h => exact .fail h
  | alloc h _ ih => exact .alloc h fun v => ih v hf
  | allocInput h _ ih => exact .allocInput h fun v => ih v hf
  | enforce _ ih => exact .enforce (ih hf)

theorem Safe.mono {c : Circuit F V α} {P Q : α → Prop} (h : Safe c P) (hPQ : ∀ a, P a → Q a) : Safe c Q := by
  rw [← bind_pure c]
  exact h.bind fun a ha => safe_pure (hPQ a ha)

theorem Safe.map {x : Circuit F V α} {f : α → β} {P : β → Prop} (h : Safe x fun a => P (f a)) :
    Safe (f <$> x) P := by
  rw [← bind_pure_comp]
  exact h.bind fun a ha => safe_pure ha

theorem safe_var {hint : Outcome F} (h : hint ≠ .error .panic) : Safe (var hint : Circuit F V V) fun _ => True :=
  .alloc h fun _ => .ret trivial

theorem safe_input {hint : Outcome F} (h : hint ≠ .error .panic) :
    Safe (input hint : Circuit F V V) fun _ => True :=
  .allocInput h fun _ => .ret trivial

theorem safe_require {a b c : LC F V} : Safe (require a b c) fun _ => True := .enforce (.ret trivial)

theorem safe_assert {p : Prop} [Decidable p] (hp : p) : Safe (assert p : Circuit F V Unit) fun _ => True := by
  unfold assert
  rw [if_pos hp]
  exact safe_pure trivial

theorem Safe.mapM {f : α → Circuit F V β} {P : α → β → Prop} {xs : List α} (hf : ∀ x ∈ xs, Safe (f x) (P x)) :
    Safe (xs.mapM f) (List.Forall₂ P xs) := by
  induction xs with
  | nil => exact safe_pure .nil
  | cons x xs ih =>
    rw [List.mapM_cons]
    refine (hf x List.mem_cons_self).bind fun y hy => ?_
    refine (ih fun z hz => hf z (List.mem_cons_of_mem _ hz)).bind fun ys hys => ?_
    exact safe_pure (.cons hy hys)

theorem Safe.mapM_length {f : α → Circuit F V β} {xs : List α} (h : ∀ x ∈ xs, Safe (f x) fun _ => True) :
    Safe (xs.mapM f) fun ys => ys.length = xs.length :=
  (Safe.mapM h).mono fun _ hall => hall.length_eq.symm

theorem Safe.forM {f : α → Circuit F V Unit} {xs : List α} (hf : ∀ x ∈ xs, Safe (f x) fun _ => True) :
    Safe (forM xs f) fun _ => True := by
  induction xs with
  | nil => exact safe_pure trivial
  | cons x xs ih =>
    rw [List.forM_cons]
    refine (hf x List.mem_cons_self).bind fun _ _ => ?_
    exact ih fun z hz => hf z (List.mem_cons_of_mem _ hz)

theorem Safe.foldlM {f : σ → α → Circuit F V σ} {P : σ → Prop} {xs : List α} {s : σ} (hs : P s)
    (hf : ∀ s x, x ∈ xs → P s → Safe (f s x) P) : Safe (xs.foldlM f s) P := by
  induction xs generalizing s with
  | nil => exact safe_pure hs
  | cons x xs ih =>
    rw [List.foldlM_cons]
    refine (hf s x List.mem_cons_self hs).bind fun s' hs' => ?_
    exact ih hs' fun t z hz ht => hf t z (List.mem_cons_of_mem _ hz) ht

theorem Safe.synthesize_ne {c : Circuit F F α} {P : α → Prop} (h : Safe c P) : c.synthesize ≠ .error .panic := by
  induction h with
  | ret _ => nofun
  | fail h =>
    intro hc
    exact h (Except.error.inj hc)
  | @alloc hint k P h _ ih =>
    cases hint with
    | error e =>
      intro hc
      have he : e = .panic := Except.error.inj hc
      exact h (by rw [he])
    | ok v => exact ih v
  | @allocInput hint k P h _ ih =>
    cases hint with
    | error e =>
      intro hc
      have he : e = .panic := Except.error.inj hc
      exact h (by rw [he])
    | ok v =>
      intro hc
      change ((k v).synthesize >>= fun t => pure (v :: t.1, t.2)) = _ at hc
      cases hs : (k v).synthesize with
      | error e =>
        rw [hs] at hc
        exact ih v (hs.trans hc)
      | ok t =>
        rw [hs] at hc
        cases hc
  | enforce _ ih => exact ih

end Safe

end Circuits.Circuit
