import ZkCredVega.Circuit.Shape

/-!
# What the builder's other systems return

`record` runs a circuit as a witness generator that keeps the private and the public values in two
lists. `firstBroken` checks each rule on the values as it comes, and returns the first that they
break. Both follow the honest run as far as there is one.
-/

namespace Circuits.Circuit

variable {F α β : Type}

/-- The private and the public values, each in order, and the result. -/
def record : Circuit F F α → Outcome (List F × List F × α)
  | ret a => .ok ([], [], a)
  | fail e => .error e
  | alloc hint k => do
    let v ← hint
    let t ← (k v).record
    pure (v :: t.1, t.2)
  | allocInput hint k => do
    let v ← hint
    let t ← (k v).record
    pure (t.1, v :: t.2.1, t.2.2)
  | enforce _ _ _ k => k.record

/-- What is returned once rule `i` is broken: the next allocation fails, which ends the synthesis, but a panic before
it is one. -/
def brokenAt (i : ℕ) : Circuit F F α → Outcome (Option ℕ)
  | ret _ => .ok (some i)
  | fail .panic => .error .panic
  | fail _ => .ok (some i)
  | alloc _ _ => .ok (some i)
  | allocInput _ _ => .ok (some i)
  | enforce _ _ _ k => k.brokenAt i

/-- The number of the first broken rule, if any, when `i` rules came before. -/
def firstBrokenFrom [Ring F] [DecidableEq F] : Circuit F F α → ℕ → Outcome (Option ℕ)
  | ret _, _ => .ok none
  | fail e, _ => .error e
  | alloc hint k, i => do
    let v ← hint
    (k v).firstBrokenFrom i
  | allocInput hint k, i => do
    let v ← hint
    (k v).firstBrokenFrom i
  | enforce a b c k, i => if a.eval * b.eval = c.eval then k.firstBrokenFrom (i + 1) else k.brokenAt i

def firstBroken [Ring F] [DecidableEq F] (c : Circuit F F α) : Outcome (Option ℕ) := c.firstBrokenFrom 0

section Record

variable [Ring F]

/-- The honest run is recorded, and its private values satisfy the circuit. -/
theorem Honest.record {c : Circuit F F α} {ins : List F} {r : α} (h : c.Honest ins r) :
    ∃ vs, c.record = .ok (vs, ins, r) ∧ c.Traces ins vs r := by
  induction c generalizing ins with
  | ret a =>
    obtain ⟨rfl, rfl⟩ := h
    exact ⟨[], rfl, rfl, rfl, rfl⟩
  | fail e => exact h.elim
  | alloc hint k ih =>
    obtain ⟨v, rfl, hv⟩ := h
    obtain ⟨vs, hvs, htraces⟩ := ih v hv
    refine ⟨v :: vs, ?_, v, vs, rfl, htraces⟩
    show ((k v).record >>= fun t => pure (v :: t.1, t.2)) = _
    rw [hvs]
    rfl
  | allocInput hint k ih =>
    obtain ⟨v, ins', rfl, rfl, hv⟩ := h
    obtain ⟨vs, hvs, htraces⟩ := ih v hv
    refine ⟨vs, ?_, v, ins', rfl, htraces⟩
    show ((k v).record >>= fun t => pure (t.1, v :: t.2.1, t.2.2)) = _
    rw [hvs]
    rfl
  | enforce a b c k ih =>
    obtain ⟨hrule, hk⟩ := h
    obtain ⟨vs, hvs, htraces⟩ := ih hk
    exact ⟨vs, hvs, hrule, htraces⟩

theorem Same.traces {R : α → β → Prop} {c : Circuit F F α} {c' : Circuit F F β} (h : Same R c c') {ins vs : List F}
    {a : α} (htraces : c.Traces ins vs a) : ∃ b, c'.Traces ins vs b ∧ R a b := by
  induction h generalizing ins vs with
  | ret h =>
    obtain ⟨rfl, rfl, rfl⟩ := htraces
    exact ⟨_, ⟨rfl, rfl, rfl⟩, h⟩
  | fail e => exact htraces.elim
  | alloc _ ih =>
    obtain ⟨v, vs', rfl, hv⟩ := htraces
    obtain ⟨b, hb, hab⟩ := ih v hv
    exact ⟨b, ⟨v, vs', rfl, hb⟩, hab⟩
  | allocInput _ ih =>
    obtain ⟨v, ins', rfl, hv⟩ := htraces
    obtain ⟨b, hb, hab⟩ := ih v hv
    exact ⟨b, ⟨v, ins', rfl, hb⟩, hab⟩
  | enforce a b c _ ih =>
    obtain ⟨b', hb, hab⟩ := ih htraces.2
    exact ⟨b', ⟨htraces.1, hb⟩, hab⟩

end Record

section Check

theorem brokenAt_ne_none {c : Circuit F F α} {i : ℕ} : c.brokenAt i ≠ .ok none := by
  intro h
  induction c with
  | ret a => cases h
  | fail e => cases e <;> cases h
  | alloc hint k _ => cases h
  | allocInput hint k _ => cases h
  | enforce a b c k ih => exact ih h

variable [Ring F] [DecidableEq F]

/-- No rule is broken exactly when there is an honest run. -/
theorem firstBrokenFrom_eq_none {c : Circuit F F α} {i : ℕ} :
    c.firstBrokenFrom i = .ok none ↔ ∃ ins r, c.Honest ins r := by
  induction c generalizing i with
  | ret a => exact ⟨fun _ => ⟨[], a, rfl, rfl⟩, fun _ => rfl⟩
  | fail e =>
    constructor
    · intro h
      cases h
    · rintro ⟨_, _, h⟩
      exact h.elim
  | alloc hint k ih =>
    cases hint with
    | error e =>
      constructor
      · intro h
        cases h
      · rintro ⟨_, _, v, h, -⟩
        cases h
    | ok v =>
      refine (ih v).trans ⟨?_, ?_⟩
      · rintro ⟨ins, r, h⟩
        exact ⟨ins, r, v, rfl, h⟩
      · rintro ⟨ins, r, _, ⟨⟩, h⟩
        exact ⟨ins, r, h⟩
  | allocInput hint k ih =>
    cases hint with
    | error e =>
      constructor
      · intro h
        cases h
      · rintro ⟨_, _, v, _, h, -⟩
        cases h
    | ok v =>
      refine (ih v).trans ⟨?_, ?_⟩
      · rintro ⟨ins, r, h⟩
        exact ⟨v :: ins, r, v, ins, rfl, rfl, h⟩
      · rintro ⟨_, r, _, ins, ⟨⟩, rfl, h⟩
        exact ⟨ins, r, h⟩
  | enforce a b c k ih =>
    rw [firstBrokenFrom]
    split
    · next hrule =>
      refine ih.trans ⟨?_, ?_⟩
      · rintro ⟨ins, r, h⟩
        exact ⟨ins, r, hrule, h⟩
      · rintro ⟨ins, r, -, h⟩
        exact ⟨ins, r, h⟩
    · next hrule =>
      constructor
      · intro h
        exact absurd h brokenAt_ne_none
      · rintro ⟨_, _, h, -⟩
        exact absurd h hrule

end Check

end Circuits.Circuit
