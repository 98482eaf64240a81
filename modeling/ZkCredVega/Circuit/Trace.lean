import ZkCredVega.Circuit.Honest

/-!
# The private variables of a run

`Traces c ins vs r` is `Runs c ins r` with the values `vs` that the satisfying assignment
gives the private variables, in the order of their allocation. `generate` runs a circuit as
a witness generator does: it records the value of each private allocation and ignores the
rules.
-/

namespace Circuits.Circuit

variable {F α β : Type}

/-- Some satisfying assignment publishes `ins`, fills the private variables with `vs` and returns
`r`. -/
def Traces [Ring F] : Circuit F F α → List F → List F → α → Prop
  | ret a, ins, vs, r => ins = [] ∧ vs = [] ∧ r = a
  | fail _, _, _, _ => False
  | alloc _ k, ins, vs, r => ∃ v vs', vs = v :: vs' ∧ (k v).Traces ins vs' r
  | allocInput _ k, ins, vs, r => ∃ v ins', ins = v :: ins' ∧ (k v).Traces ins' vs r
  | enforce a b c k, ins, vs, r => a.eval * b.eval = c.eval ∧ k.Traces ins vs r

/-- The values of the private allocations, in order, and the result; or the failure that stops the
generator. -/
def generate : Circuit F F α → Outcome (List F × α)
  | ret a => .ok ([], a)
  | fail e => .error e
  | alloc hint k => do
    let v ← hint
    let t ← (k v).generate
    pure (v :: t.1, t.2)
  | allocInput hint k => do
    let v ← hint
    (k v).generate
  | enforce _ _ _ k => k.generate

section Traces

variable [Ring F]

theorem runs_iff_exists_traces {c : Circuit F F α} {ins : List F} {r : α} :
    c.Runs ins r ↔ ∃ vs, c.Traces ins vs r := by
  induction c generalizing ins with
  | ret a => simp [Runs, Traces]
  | fail e => simp [Runs, Traces]
  | alloc hint k ih =>
    simp only [Runs, Traces, ih]
    constructor
    · rintro ⟨v, vs, h⟩
      exact ⟨v :: vs, v, vs, rfl, h⟩
    · rintro ⟨_, v, vs, -, h⟩
      exact ⟨v, vs, h⟩
  | allocInput hint k ih =>
    simp only [Runs, Traces, ih]
    constructor
    · rintro ⟨v, ins', rfl, vs, h⟩
      exact ⟨vs, v, ins', rfl, h⟩
    · rintro ⟨vs, v, ins', rfl, h⟩
      exact ⟨v, ins', rfl, vs, h⟩
  | enforce a b c k ih =>
    simp only [Runs, Traces, ih]
    constructor
    · rintro ⟨hc, vs, h⟩
      exact ⟨vs, hc, h⟩
    · rintro ⟨vs, hc, h⟩
      exact ⟨hc, vs, h⟩

theorem traces_bind {x : Circuit F F α} {f : α → Circuit F F β} {ins vs : List F} {r : β} :
    (x >>= f).Traces ins vs r ↔
      ∃ i j us ws a, ins = i ++ j ∧ vs = us ++ ws ∧ x.Traces i us a ∧ (f a).Traces j ws r := by
  change (x.bind f).Traces ins vs r ↔ _
  induction x generalizing ins vs with
  | ret a =>
    constructor
    · intro h
      exact ⟨[], ins, [], vs, a, rfl, rfl, ⟨rfl, rfl, rfl⟩, h⟩
    · rintro ⟨i, j, us, ws, b, rfl, rfl, ⟨rfl, rfl, rfl⟩, h⟩
      exact h
  | fail e => simp [bind, Traces]
  | alloc hint k ih =>
    simp only [bind, Traces, ih]
    constructor
    · rintro ⟨v, _, rfl, i, j, us, ws, a, hins, rfl, hx, hf⟩
      exact ⟨i, j, v :: us, ws, a, hins, rfl, ⟨v, us, rfl, hx⟩, hf⟩
    · rintro ⟨i, j, _, ws, a, hins, rfl, ⟨v, us, rfl, hx⟩, hf⟩
      exact ⟨v, us ++ ws, rfl, i, j, us, ws, a, hins, rfl, hx, hf⟩
  | allocInput hint k ih =>
    simp only [bind, Traces, ih]
    constructor
    · rintro ⟨v, _, rfl, i, j, us, ws, a, rfl, hvs, hx, hf⟩
      exact ⟨v :: i, j, us, ws, a, rfl, hvs, ⟨v, i, rfl, hx⟩, hf⟩
    · rintro ⟨_, j, us, ws, a, rfl, hvs, ⟨v, i, rfl, hx⟩, hf⟩
      exact ⟨v, i ++ j, rfl, i, j, us, ws, a, rfl, hvs, hx, hf⟩
  | enforce a b c k ih =>
    simp only [bind, Traces, ih]
    constructor
    · rintro ⟨hc, i, j, us, ws, a, hins, hvs, hx, hf⟩
      exact ⟨i, j, us, ws, a, hins, hvs, ⟨hc, hx⟩, hf⟩
    · rintro ⟨i, j, us, ws, a, hins, hvs, ⟨hc, hx⟩, hf⟩
      exact ⟨hc, i, j, us, ws, a, hins, hvs, hx, hf⟩

end Traces

/-- What the generator records is the honest run when it satisfies the rules. -/
theorem honest_of_generate [Ring F] {c : Circuit F F α} {vs : List F} {r r' : α} (hrun : c.generate = .ok (vs, r))
    (htraces : c.Traces [] vs r') : c.Honest [] r := by
  induction c generalizing vs with
  | ret a =>
    cases hrun
    exact ⟨rfl, rfl⟩
  | fail e => cases hrun
  | alloc hint k ih =>
    simp only [generate, bind_eq_ok_iff] at hrun
    obtain ⟨v, rfl, ⟨us, a⟩, hk, ht⟩ := hrun
    cases ht
    obtain ⟨w, ws, heq, hrest⟩ := htraces
    obtain ⟨rfl, rfl⟩ := List.cons.inj heq
    exact ⟨v, rfl, ih v hk hrest⟩
  | allocInput hint k ih =>
    obtain ⟨v, ins', hins, -⟩ := htraces
    cases hins
  | enforce a b c k ih => exact ⟨htraces.1, ih hrun htraces.2⟩

theorem generate_bind {x : Circuit F F α} {f : α → Circuit F F β} {us ws : List F} {a : α} {b : β}
    (hx : x.generate = .ok (us, a)) (hf : (f a).generate = .ok (ws, b)) :
    (x >>= f).generate = .ok (us ++ ws, b) := by
  change (x.bind f).generate = _
  induction x generalizing us with
  | ret a' =>
    cases hx
    exact hf
  | fail e => cases hx
  | alloc hint k ih =>
    simp only [generate, bind_eq_ok_iff] at hx
    obtain ⟨v, rfl, ⟨us', a'⟩, hk, ht⟩ := hx
    cases ht
    show ((k v).bind f).generate >>= _ = _
    rw [ih v hk]
    rfl
  | allocInput hint k ih =>
    simp only [generate, bind_eq_ok_iff] at hx
    obtain ⟨v, rfl, hk⟩ := hx
    exact ih v hk
  | enforce a b c k ih => exact ih hx

/-! ## Circuits that determine their variables -/

/-- Any prover: every satisfying assignment fills the private variables with `vs` and returns a
result with `P`, and there is one. The honest prover: the generator records `vs` and returns such
a result. -/
def Fills [Ring F] (who : Prover) (c : Circuit F F α) (vs : List F) (P : α → Prop) : Prop :=
  match who with
  | .any => (∀ ins ws r, c.Traces ins ws r → ins = [] ∧ ws = vs ∧ P r) ∧ ∃ r, c.Traces [] vs r ∧ P r
  | .honest => ∃ r, c.generate = .ok (vs, r) ∧ P r

section Fills

variable [Ring F] {who : Prover} {us vs : List F} {P : α → Prop} {Q : β → Prop}

/-- Values that fill the variables for any prover and that the generator records are the honest run's. -/
theorem Fills.succeeds {c : Circuit F F α} (hany : c.Fills .any vs P) {P' : α → Prop} (h : c.Fills .honest vs P') :
    c.Succeeds P' := by
  obtain ⟨-, r', htraces, -⟩ := hany
  obtain ⟨r, hrun, hP⟩ := h
  exact ⟨r, honest_of_generate hrun htraces, hP⟩

theorem fills_pure {a : α} (h : P a) : (pure a : Circuit F F α).Fills who [] P := by
  cases who with
  | any =>
    refine ⟨?_, a, ⟨rfl, rfl, rfl⟩, h⟩
    rintro ins ws r ⟨rfl, rfl, rfl⟩
    exact ⟨rfl, rfl, h⟩
  | honest => exact ⟨a, rfl, h⟩

theorem Fills.bind {x : Circuit F F α} {f : α → Circuit F F β} (hx : x.Fills who us P)
    (hf : ∀ a, P a → (f a).Fills who vs Q) : (x >>= f).Fills who (us ++ vs) Q := by
  cases who with
  | any =>
    obtain ⟨hsound, a, hrun, ha⟩ := hx
    obtain ⟨-, b, hrest, hb⟩ := hf a ha
    refine ⟨?_, b, traces_bind.mpr ⟨[], [], us, vs, a, rfl, rfl, hrun, hrest⟩, hb⟩
    intro ins ws r h
    obtain ⟨i, j, us', ws', a', rfl, rfl, hi, hj⟩ := traces_bind.mp h
    obtain ⟨rfl, rfl, ha'⟩ := hsound i us' a' hi
    obtain ⟨rfl, rfl, hr⟩ := (hf a' ha').1 j ws' r hj
    exact ⟨rfl, rfl, hr⟩
  | honest =>
    obtain ⟨a, hrun, ha⟩ := hx
    obtain ⟨b, hrest, hb⟩ := hf a ha
    exact ⟨b, generate_bind hrun hrest, hb⟩

theorem fills_assert {p : Prop} [Decidable p] (h : p) :
    (assert p : Circuit F F Unit).Fills who [] fun _ => True := by
  rw [assert, if_pos h]
  exact fills_pure trivial

theorem Fills.var_require {hint : Outcome F} {a b : LC F F} {c : F → LC F F} {v : F} {f : F → α}
    (hc : ∀ w, a.eval * b.eval = (c w).eval ↔ w = v) (hv : who = .honest → hint = .ok v) (hP : P (f v)) :
    (do
      let w ← var hint
      require a b (c w)
      pure (f w)).Fills who [v] P := by
  cases who with
  | any =>
    refine ⟨?_, f v, ⟨v, [], rfl, (hc v).mpr rfl, rfl, rfl, rfl⟩, hP⟩
    rintro ins ws r ⟨w, ws', rfl, hw, rfl, rfl, rfl⟩
    obtain rfl := (hc w).mp hw
    exact ⟨rfl, rfl, hP⟩
  | honest =>
    obtain rfl := hv rfl
    exact ⟨f v, rfl, hP⟩

end Fills

end Circuits.Circuit
