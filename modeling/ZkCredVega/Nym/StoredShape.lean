import ZkCredVega.P256
import ZkCredVega.Sha256Var

/-!
# Replaying a stored shape

The stored shapes of `app.rs`: a circuit's three matrices in compressed sparse rows, over
columns laid out by padded segments, and the circuit that replays them over unpadded
segments. Validation does not look at padding columns or padding rows, and one of its sums
is not checked; the shapes that replay faithfully are exactly those without such entries.
-/

namespace ZkCredVega.Nym

open Circuits

/-! ## Stored shapes -/

/-- Why a shape is inconsistent. -/
inductive ShapeError where
  | columns (name : String) (found expected : ℕ)
  | indices (name : String) (found entries : ℕ)
  | rowPointers (name : String) (found rows : ℕ)
  | span (name : String)
  | decrease (name : String)
  | columnIndex (name : String) (cols : ℕ)
  | exceed (what : String) (unpadded padded : ℕ)
  | overflow
deriving DecidableEq

/-- How reading a shape ends early: refused, or with an overflow or an index out of range. -/
inductive Stop where
  | refused (e : ShapeError)
  | panic
deriving DecidableEq

/-- `usize::checked_add`. -/
def checkedAdd (a b : ℕ) : Option ℕ := if a + b < usizeBound then some (a + b) else none

/-- `a + b` on `usize`. -/
def addOrPanic (a b : ℕ) : Except Stop ℕ :=
  match checkedAdd a b with
  | some n => .ok n
  | none => .error .panic

/-- `xs[i]`. -/
def index {α : Type} (xs : List α) (i : ℕ) : Except Stop α :=
  match xs[i]? with
  | some x => .ok x
  | none => .error .panic

/-- One matrix in compressed sparse rows. -/
structure StoredMatrix (F : Type) where
  data : List F
  indices : List ℕ
  indptr : List ℕ
  cols : ℕ

/-- A circuit's sizes, padded and not, and its matrices. -/
structure StoredShape (F : Type) where
  numCons : ℕ
  numConsUnpadded : ℕ
  numSharedUnpadded : ℕ
  numPrecommittedUnpadded : ℕ
  numRestUnpadded : ℕ
  numShared : ℕ
  numPrecommitted : ℕ
  numRest : ℕ
  numPublic : ℕ
  numChallenges : ℕ
  a : StoredMatrix F
  b : StoredMatrix F
  c : StoredMatrix F

inductive Variable where
  | aux (i : ℕ)
  | input (i : ℕ)
deriving DecidableEq

/-- A refusal, where `p` holds. -/
def refuseIf (p : Prop) [Decidable p] (e : ShapeError) : Except Stop Unit :=
  if p then .error (.refused e) else .ok ()

section Shape

variable {F : Type}

def StoredMatrix.validate (m : StoredMatrix F) (name : String) (rows cols : ℕ) : Except Stop Unit := do
  let entries := m.data.length
  refuseIf (m.cols ≠ cols) (.columns name m.cols cols)
  refuseIf (m.indices.length ≠ entries) (.indices name m.indices.length entries)
  refuseIf (checkedAdd rows 1 ≠ some m.indptr.length) (.rowPointers name m.indptr.length rows)
  refuseIf (m.indptr.head? ≠ some 0 ∨ m.indptr.getLast? ≠ some entries) (.span name)
  refuseIf ((m.indptr.zip m.indptr.tail).any fun w => w.1 > w.2) (.decrease name)
  refuseIf (m.indices.any fun c => c ≥ cols) (.columnIndex name cols)

namespace StoredShape

/-- `ok_or("sizes overflow")`. -/
def orOverflow (n : Option ℕ) : Except Stop ℕ :=
  match n with
  | some n => .ok n
  | none => .error (.refused .overflow)

/-- The number of columns. The sum `1 + num_challenges` is the one that is not checked. -/
def columns (s : StoredShape F) : Except Stop ℕ := do
  let n ← orOverflow (checkedAdd s.numShared s.numPrecommitted)
  let n ← orOverflow (checkedAdd n s.numRest)
  let challenges ← addOrPanic 1 s.numChallenges
  let n ← orOverflow (checkedAdd n challenges)
  orOverflow (checkedAdd n s.numPublic)

def validate (s : StoredShape F) : Except Stop Unit := do
  refuseIf (s.numConsUnpadded > s.numCons) (.exceed "constraints" s.numConsUnpadded s.numCons)
  refuseIf (s.numSharedUnpadded > s.numShared) (.exceed "shared values" s.numSharedUnpadded s.numShared)
  refuseIf (s.numPrecommittedUnpadded > s.numPrecommitted)
    (.exceed "precommitted values" s.numPrecommittedUnpadded s.numPrecommitted)
  refuseIf (s.numRestUnpadded > s.numRest) (.exceed "rest values" s.numRestUnpadded s.numRest)
  let cols ← s.columns
  s.a.validate "A" s.numCons cols
  s.b.validate "B" s.numCons cols
  s.c.validate "C" s.numCons cols

/-- The variable of a padded column. -/
def variableAt (s : StoredShape F) (column : ℕ) : Except Stop Variable := do
  let precommitted := s.numShared
  let rest ← addOrPanic precommitted s.numPrecommitted
  let inputs ← addOrPanic rest s.numRest
  if column < precommitted then pure (.aux column)
  else if column < rest then do
    let n ← addOrPanic s.numSharedUnpadded column
    pure (.aux (n - precommitted))
  else if column < inputs then do
    let n ← addOrPanic s.numSharedUnpadded s.numPrecommittedUnpadded
    let n ← addOrPanic n column
    pure (.aux (n - rest))
  else pure (.input (column - inputs))

def row (s : StoredShape F) (m : StoredMatrix F) (r : ℕ) : Except Stop (List (F × Variable)) := do
  let lo ← index m.indptr r
  let hi ← index m.indptr (r + 1)
  (List.range' lo (hi - lo)).mapM fun i => do
    let coeff ← index m.data i
    let column ← index m.indices i
    let v ← s.variableAt column
    pure (coeff, v)

end StoredShape

/-- What a replay leaves in the constraint system: how many variables it has, the constant one
among the inputs, and its rows. -/
structure Replayed (F : Type) where
  aux : ℕ
  inputs : ℕ
  rows : List (List (F × Variable) × List (F × Variable) × List (F × Variable))

/-- `ShapeReplay`: the segments' values, the inputs, and the rows. -/
def StoredShape.replay (s : StoredShape F) : Except Stop (Replayed F) := do
  let inputs ← addOrPanic s.numChallenges s.numPublic
  let rows ← (List.range s.numConsUnpadded).mapM fun r => do
    let a ← s.row s.a r
    let b ← s.row s.b r
    let c ← s.row s.c r
    pure (a, b, c)
  pure ⟨s.numSharedUnpadded + s.numPrecommittedUnpadded + s.numRestUnpadded, 1 + inputs, rows⟩

/-! ## Faithful replays -/

/-- The entries of row `r`, each a coefficient and a column. -/
def StoredMatrix.entries (m : StoredMatrix F) (r : ℕ) : List (F × ℕ) :=
  ((m.data.zip m.indices).drop (m.indptr.getD r 0)).take (m.indptr.getD (r + 1) 0 - m.indptr.getD r 0)

def StoredShape.matrices (s : StoredShape F) : List (StoredMatrix F) := [s.a, s.b, s.c]

/-- The padded column of an allocated variable: each segment's values come first in its columns. -/
def StoredShape.columnOf (s : StoredShape F) : Variable → ℕ
  | .aux k =>
    if k < s.numSharedUnpadded then k
    else if k < s.numSharedUnpadded + s.numPrecommittedUnpadded then s.numShared + (k - s.numSharedUnpadded)
    else s.numShared + s.numPrecommitted + (k - (s.numSharedUnpadded + s.numPrecommittedUnpadded))
  | .input i => s.numShared + s.numPrecommitted + s.numRest + i

/-- The variable is allocated. -/
def Replayed.Has (out : Replayed F) : Variable → Prop
  | .aux k => k < out.aux
  | .input i => i < out.inputs

/-- A weighted sum is a row: the same coefficients, on allocated variables of the same columns. -/
def StoredShape.IsRow (s : StoredShape F) (out : Replayed F) (sum : List (F × Variable))
    (entries : List (F × ℕ)) : Prop :=
  List.Forall₂ (fun t e => t.1 = e.1 ∧ out.Has t.2 ∧ s.columnOf t.2 = e.2) sum entries

/-- A replay that is the shape: it references only allocated variables, different columns of entries
are different variables, and every row that is not empty is one of its rows. -/
structure StoredShape.Faithful (s : StoredShape F) (out : Replayed F) : Prop where
  allocated : ∀ t ∈ out.rows, ∀ x ∈ t.1 ++ t.2.1 ++ t.2.2, out.Has x.2
  distinct : ∀ m ∈ s.matrices, ∀ m' ∈ s.matrices, ∀ r < s.numCons, ∀ r' < s.numCons, ∀ e ∈ m.entries r,
    ∀ e' ∈ m'.entries r', ∀ v, s.variableAt e.2 = .ok v → s.variableAt e'.2 = .ok v → e.2 = e'.2
  rows : ∀ r < s.numCons, (∃ m ∈ s.matrices, m.entries r ≠ []) →
    ∃ t, out.rows[r]? = some t ∧ s.IsRow out t.1 (s.a.entries r) ∧ s.IsRow out t.2.1 (s.b.entries r) ∧
      s.IsRow out t.2.2 (s.c.entries r)

/-- Validation neither overflows nor panics, and a shape that passes replays faithfully. -/
def StoredShape.Sound (s : StoredShape F) : Prop :=
  s.validate ≠ .error .panic ∧ (s.validate = .ok () → ∃ out, s.replay = .ok out ∧ s.Faithful out)

/-! ## When a shape replays faithfully -/

/-- The column of an unpadded value of a segment, whose variable's index does not overflow, or of an
input. -/
def StoredShape.Placed (s : StoredShape F) (column : ℕ) : Prop :=
  column < s.numSharedUnpadded ∨
    (s.numShared ≤ column ∧ column < s.numShared + s.numPrecommittedUnpadded ∧
      s.numSharedUnpadded + column < usizeBound) ∨
    (s.numShared + s.numPrecommitted ≤ column ∧
      column < s.numShared + s.numPrecommitted + s.numRestUnpadded ∧
      s.numSharedUnpadded + s.numPrecommittedUnpadded + column < usizeBound) ∨
    s.numShared + s.numPrecommitted + s.numRest ≤ column

/-- Every entry is in an unpadded row and in a placed column. -/
def StoredShape.EntriesPlaced (s : StoredShape F) : Prop :=
  ∀ m ∈ s.matrices, ∀ r < s.numCons, ∀ e ∈ m.entries r, r < s.numConsUnpadded ∧ s.Placed e.2

/-- The unchecked sum of the number of columns does not overflow, where validation reaches it. -/
def StoredShape.ChallengesFit (s : StoredShape F) : Prop :=
  s.numConsUnpadded ≤ s.numCons → s.numSharedUnpadded ≤ s.numShared →
    s.numPrecommittedUnpadded ≤ s.numPrecommitted → s.numRestUnpadded ≤ s.numRest →
    s.numShared + s.numPrecommitted + s.numRest < usizeBound → 1 + s.numChallenges < usizeBound

/-! ## What validation checks -/

theorem refuseIf_eq_ok_iff {p : Prop} [Decidable p] {e : ShapeError} {u : Unit} :
    refuseIf p e = .ok u ↔ ¬p := by
  by_cases hp : p <;> simp [refuseIf, hp]

theorem checkedAdd_eq_some_iff {a b n : ℕ} : checkedAdd a b = some n ↔ a + b = n ∧ a + b < usizeBound := by
  by_cases h : a + b < usizeBound <;> simp [checkedAdd, h]

theorem addOrPanic_eq_ok_iff {a b n : ℕ} : addOrPanic a b = .ok n ↔ a + b = n ∧ a + b < usizeBound := by
  rw [← checkedAdd_eq_some_iff, addOrPanic]
  cases checkedAdd a b <;> simp

theorem orOverflow_eq_ok_iff {o : Option ℕ} {n : ℕ} : StoredShape.orOverflow o = .ok n ↔ o = some n := by
  cases o <;> simp [StoredShape.orOverflow]

theorem index_eq_ok_iff {α : Type} {xs : List α} {i : ℕ} {x : α} : index xs i = .ok x ↔ xs[i]? = some x := by
  cases h : xs[i]? <;> simp [index, h]

theorem getElem?_eq_getD {xs : List ℕ} {i : ℕ} (h : i < xs.length) : xs[i]? = some (xs.getD i 0) := by
  rw [List.getD_eq_getElem?_getD, List.getElem?_eq_getElem h, Option.getD_some]

structure StoredMatrix.WellFormed (m : StoredMatrix F) (rows cols : ℕ) : Prop where
  length_indices : m.indices.length = m.data.length
  length_indptr : m.indptr.length = rows + 1
  last : m.indptr.getLast? = some m.data.length
  nondecreasing : ∀ i, i < rows → m.indptr.getD i 0 ≤ m.indptr.getD (i + 1) 0
  column_lt : ∀ c ∈ m.indices, c < cols

theorem StoredMatrix.wellFormed_of_validate {m : StoredMatrix F} {name : String} {rows cols : ℕ}
    (h : m.validate name rows cols = .ok ()) : m.WellFormed rows cols := by
  obtain ⟨_, -, h⟩ := bind_eq_ok_iff.mp h
  obtain ⟨_, hindices, h⟩ := bind_eq_ok_iff.mp h
  obtain ⟨_, hindptr, h⟩ := bind_eq_ok_iff.mp h
  obtain ⟨_, hspan, h⟩ := bind_eq_ok_iff.mp h
  obtain ⟨_, hdecrease, hcolumns⟩ := bind_eq_ok_iff.mp h
  rw [refuseIf_eq_ok_iff] at hindices hindptr hspan hdecrease hcolumns
  have hlen : m.indptr.length = rows + 1 := (checkedAdd_eq_some_iff.mp (not_not.mp hindptr)).1.symm
  refine ⟨not_not.mp hindices, hlen, ?_, ?_, ?_⟩
  · by_contra hlast
    exact hspan (Or.inr hlast)
  · intro i hi
    by_contra hgt
    apply hdecrease
    rw [List.any_eq_true]
    refine ⟨(m.indptr.getD i 0, m.indptr.getD (i + 1) 0), ?_, by simpa using hgt⟩
    rw [List.mem_iff_getElem?]
    refine ⟨i, ?_⟩
    rw [List.getElem?_zip_eq_some, List.getElem?_tail]
    exact ⟨getElem?_eq_getD (by omega), getElem?_eq_getD (by omega)⟩
  · intro c hc
    by_contra hge
    exact hcolumns (List.any_eq_true.mpr ⟨c, hc, by simpa using hge⟩)

/-- What a shape that passes has. -/
structure StoredShape.Valid (s : StoredShape F) : Prop where
  cons_le : s.numConsUnpadded ≤ s.numCons
  shared_le : s.numSharedUnpadded ≤ s.numShared
  precommitted_le : s.numPrecommittedUnpadded ≤ s.numPrecommitted
  rest_le : s.numRestUnpadded ≤ s.numRest
  fits : s.numShared + s.numPrecommitted + s.numRest + (1 + s.numChallenges) + s.numPublic < usizeBound
  wellFormed : ∀ m ∈ s.matrices, m.WellFormed s.numCons
    (s.numShared + s.numPrecommitted + s.numRest + (1 + s.numChallenges) + s.numPublic)

theorem StoredShape.columns_eq_ok {s : StoredShape F} {n : ℕ} (h : s.columns = .ok n) :
    s.numShared + s.numPrecommitted + s.numRest + (1 + s.numChallenges) + s.numPublic = n ∧ n < usizeBound := by
  obtain ⟨_, h1, h⟩ := bind_eq_ok_iff.mp h
  obtain ⟨_, h2, h⟩ := bind_eq_ok_iff.mp h
  obtain ⟨_, h3, h⟩ := bind_eq_ok_iff.mp h
  obtain ⟨_, h4, h5⟩ := bind_eq_ok_iff.mp h
  rw [orOverflow_eq_ok_iff, checkedAdd_eq_some_iff] at h1 h2 h4 h5
  rw [addOrPanic_eq_ok_iff] at h3
  omega

theorem StoredShape.valid_of_validate {s : StoredShape F} (h : s.validate = .ok ()) : s.Valid := by
  obtain ⟨_, hcons, h⟩ := bind_eq_ok_iff.mp h
  obtain ⟨_, hshared, h⟩ := bind_eq_ok_iff.mp h
  obtain ⟨_, hprecommitted, h⟩ := bind_eq_ok_iff.mp h
  obtain ⟨_, hrest, h⟩ := bind_eq_ok_iff.mp h
  obtain ⟨cols, hcols, h⟩ := bind_eq_ok_iff.mp h
  obtain ⟨_, ha, h⟩ := bind_eq_ok_iff.mp h
  obtain ⟨_, hb, hc⟩ := bind_eq_ok_iff.mp h
  rw [refuseIf_eq_ok_iff, not_lt] at hcons hshared hprecommitted hrest
  obtain ⟨rfl, hfits⟩ := columns_eq_ok hcols
  refine ⟨hcons, hshared, hprecommitted, hrest, hfits, ?_⟩
  simp only [matrices, List.forall_mem_cons, List.not_mem_nil, IsEmpty.forall_iff, implies_true, and_true]
  exact ⟨StoredMatrix.wellFormed_of_validate ha, StoredMatrix.wellFormed_of_validate hb,
    StoredMatrix.wellFormed_of_validate hc⟩

/-! ## Where validation overflows -/

def NoPanic {α : Type} (x : Except Stop α) : Prop := x ≠ .error .panic

theorem NoPanic.bind {α β : Type} {x : Except Stop α} {f : α → Except Stop β} (hx : NoPanic x)
    (hf : ∀ a, x = .ok a → NoPanic (f a)) : NoPanic (x >>= f) := by
  cases x with
  | error e => exact fun h => hx (congrArg Except.error (Except.error.inj h))
  | ok a => exact hf a rfl

theorem noPanic_refuseIf {p : Prop} [Decidable p] {e : ShapeError} : NoPanic (refuseIf p e) := by
  by_cases hp : p <;> simp [NoPanic, refuseIf, hp]

theorem noPanic_orOverflow (o : Option ℕ) : NoPanic (StoredShape.orOverflow o) := by
  cases o <;> simp [NoPanic, StoredShape.orOverflow]

theorem StoredMatrix.noPanic_validate (m : StoredMatrix F) (name : String) (rows cols : ℕ) :
    NoPanic (m.validate name rows cols) := by
  refine noPanic_refuseIf.bind fun _ _ => ?_
  refine noPanic_refuseIf.bind fun _ _ => ?_
  refine noPanic_refuseIf.bind fun _ _ => ?_
  refine noPanic_refuseIf.bind fun _ _ => ?_
  refine noPanic_refuseIf.bind fun _ _ => ?_
  exact noPanic_refuseIf

/-- Validation overflows exactly at the sum that is not checked. -/
theorem StoredShape.validate_ne_panic_iff (s : StoredShape F) : s.validate ≠ .error .panic ↔ s.ChallengesFit := by
  constructor
  · intro h hcons hshared hprecommitted hrest hsum
    by_contra hover
    apply h
    have hfirst : checkedAdd s.numShared s.numPrecommitted = some (s.numShared + s.numPrecommitted) :=
      checkedAdd_eq_some_iff.mpr ⟨rfl, by omega⟩
    have hsecond : checkedAdd (s.numShared + s.numPrecommitted) s.numRest =
        some (s.numShared + s.numPrecommitted + s.numRest) := checkedAdd_eq_some_iff.mpr ⟨rfl, hsum⟩
    have hpanic : addOrPanic 1 s.numChallenges = .error .panic := by
      rw [addOrPanic, checkedAdd, if_neg hover]
    have hcolumns : s.columns = .error .panic := by
      rw [columns, hfirst]
      show (orOverflow (checkedAdd (s.numShared + s.numPrecommitted) s.numRest) >>= _) = _
      rw [hsecond]
      show (addOrPanic 1 s.numChallenges >>= _) = _
      rw [hpanic]
      rfl
    rw [validate, refuseIf, refuseIf, refuseIf, refuseIf, if_neg (not_lt.mpr hcons), if_neg (not_lt.mpr hshared),
      if_neg (not_lt.mpr hprecommitted), if_neg (not_lt.mpr hrest), hcolumns]
    rfl
  · intro h
    refine noPanic_refuseIf.bind fun _ hcons => ?_
    refine noPanic_refuseIf.bind fun _ hshared => ?_
    refine noPanic_refuseIf.bind fun _ hprecommitted => ?_
    refine noPanic_refuseIf.bind fun _ hrest => ?_
    rw [refuseIf_eq_ok_iff, not_lt] at hcons hshared hprecommitted hrest
    have hcolumns : NoPanic s.columns := by
      refine (noPanic_orOverflow _).bind fun _ h1 => ?_
      refine (noPanic_orOverflow _).bind fun _ h2 => ?_
      rw [orOverflow_eq_ok_iff, checkedAdd_eq_some_iff] at h1 h2
      have hone := h hcons hshared hprecommitted hrest (by omega)
      have hadd : NoPanic (addOrPanic 1 s.numChallenges) := by
        rw [addOrPanic_eq_ok_iff.mpr ⟨rfl, hone⟩]
        intro h
        cases h
      refine hadd.bind fun _ _ => ?_
      exact (noPanic_orOverflow _).bind fun _ _ => noPanic_orOverflow _
    refine hcolumns.bind fun _ _ => ?_
    refine (StoredMatrix.noPanic_validate _ _ _ _).bind fun _ _ => ?_
    refine (StoredMatrix.noPanic_validate _ _ _ _).bind fun _ _ => ?_
    exact StoredMatrix.noPanic_validate _ _ _ _

/-! ## Rows -/

theorem mapM_range' {α β : Type} {l : List α} {f : ℕ → Except Stop β} {g : α → Except Stop β}
    (h : ∀ i a, l[i]? = some a → f i = g a) {lo n : ℕ} (hn : lo + n ≤ l.length) :
    (List.range' lo n).mapM f = ((l.drop lo).take n).mapM g := by
  induction n generalizing lo with
  | zero => rfl
  | succ n ih =>
    have hlo : lo < l.length := by omega
    rw [List.range'_succ, List.drop_eq_getElem_cons hlo, List.take_succ_cons, List.mapM_cons, List.mapM_cons,
      h lo l[lo] (List.getElem?_eq_getElem hlo), ih (by omega)]

theorem StoredMatrix.WellFormed.indptr_le {m : StoredMatrix F} {rows cols : ℕ} (h : m.WellFormed rows cols) {i : ℕ}
    (hi : i ≤ rows) : m.indptr.getD i 0 ≤ m.data.length := by
  have hlast : m.indptr.getD rows 0 = m.data.length := by
    have hlast := h.last
    rw [List.getLast?_eq_getElem?, h.length_indptr, Nat.add_sub_cancel] at hlast
    rw [List.getD_eq_getElem?_getD, hlast, Option.getD_some]
  have hmono : ∀ k, k ≤ rows → m.indptr.getD (rows - k) 0 ≤ m.data.length := by
    intro k
    induction k with
    | zero => exact fun _ => hlast.le
    | succ k ih =>
      intro hk
      have hstep := h.nondecreasing (rows - (k + 1)) (by omega)
      rw [show rows - (k + 1) + 1 = rows - k by omega] at hstep
      exact hstep.trans (ih (by omega))
  have hback := hmono (rows - i) (by omega)
  rwa [show rows - (rows - i) = i by omega] at hback

def StoredShape.term (s : StoredShape F) (e : F × ℕ) : Except Stop (F × Variable) := do
  let v ← s.variableAt e.2
  pure (e.1, v)

theorem StoredShape.term_eq_ok_iff {s : StoredShape F} {e : F × ℕ} {t : F × Variable} :
    s.term e = .ok t ↔ s.variableAt e.2 = .ok t.2 ∧ e.1 = t.1 := by
  constructor
  · intro h
    obtain ⟨v, hv, h⟩ := bind_eq_ok_iff.mp h
    obtain rfl := Except.ok.inj h
    exact ⟨hv, rfl⟩
  · rintro ⟨hv, hcoeff⟩
    rw [term, hv]
    exact congrArg Except.ok (Prod.ext hcoeff rfl)

/-- A row of a well-formed matrix gives each of its entries its variable. -/
theorem StoredShape.row_eq {s : StoredShape F} {m : StoredMatrix F} {rows cols r : ℕ} (h : m.WellFormed rows cols)
    (hr : r < rows) :
    s.row m r = (m.entries r).mapM s.term := by
  have hlen := h.length_indptr
  have hlo : index m.indptr r = .ok (m.indptr.getD r 0) := index_eq_ok_iff.mpr (getElem?_eq_getD (by omega))
  have hhi : index m.indptr (r + 1) = .ok (m.indptr.getD (r + 1) 0) :=
    index_eq_ok_iff.mpr (getElem?_eq_getD (by omega))
  have hle := h.indptr_le (show r + 1 ≤ rows by omega)
  have hstep := h.nondecreasing r hr
  rw [row, hlo, hhi]
  refine mapM_range' ?_ ?_
  · rintro i ⟨coeff, column⟩ hi
    obtain ⟨hdata, hindices⟩ := List.getElem?_zip_eq_some.mp hi
    rw [index_eq_ok_iff.mpr hdata, index_eq_ok_iff.mpr hindices]
    rfl
  · rw [List.length_zip, h.length_indices]
    omega

/-- The variables of the entries: each is allocated, and in its entry's column. -/
def StoredShape.Resolves (s : StoredShape F) (out : Replayed F) (column : ℕ) : Prop :=
  ∃ v, s.variableAt column = .ok v ∧ out.Has v ∧ s.columnOf v = column

/-- A weighted sum is a row exactly when each of its terms' variables is the entry's. -/
theorem StoredShape.isRow_iff {s : StoredShape F} {out : Replayed F} {entries : List (F × ℕ)} :
    (∃ sum, entries.mapM s.term = .ok sum ∧ s.IsRow out sum entries) ↔ ∀ e ∈ entries, s.Resolves out e.2 := by
  simp only [Circuit.mapM_eq_ok_iff, IsRow]
  induction entries with
  | nil => simp
  | cons e entries ih =>
    rw [List.forall_mem_cons, ← ih]
    constructor
    · rintro ⟨_, hterms, hrow⟩
      obtain ⟨t, sum, ht, hsum, rfl⟩ := List.forall₂_cons_left_iff.mp hterms
      obtain ⟨⟨-, hhas, hcolumn⟩, hrow⟩ := List.forall₂_cons.mp hrow
      exact ⟨⟨t.2, (term_eq_ok_iff.mp ht).1, hhas, hcolumn⟩, sum, hsum, hrow⟩
    · rintro ⟨⟨v, hv, hhas, hcolumn⟩, sum, hsum, hrow⟩
      exact ⟨(e.1, v) :: sum, .cons (term_eq_ok_iff.mpr ⟨hv, rfl⟩) hsum, .cons ⟨rfl, hhas, hcolumn⟩ hrow⟩

/-! ## Columns and variables -/

/-- What `variable` gives where the segments' columns fit: a branch for each segment and the inputs. -/
theorem StoredShape.Valid.variableAt_eq_ok_iff {s : StoredShape F} (h : s.Valid) {column : ℕ} {v : Variable} :
    s.variableAt column = .ok v ↔
      (column < s.numShared ∧ v = .aux column) ∨
      (s.numShared ≤ column ∧ column < s.numShared + s.numPrecommitted ∧
        s.numSharedUnpadded + column < usizeBound ∧ v = .aux (s.numSharedUnpadded + column - s.numShared)) ∨
      (s.numShared + s.numPrecommitted ≤ column ∧ column < s.numShared + s.numPrecommitted + s.numRest ∧
        s.numSharedUnpadded + s.numPrecommittedUnpadded + column < usizeBound ∧
        v = .aux (s.numSharedUnpadded + s.numPrecommittedUnpadded + column - (s.numShared + s.numPrecommitted))) ∨
      (s.numShared + s.numPrecommitted + s.numRest ≤ column ∧
        v = .input (column - (s.numShared + s.numPrecommitted + s.numRest))) := by
  have hfits := h.fits
  have hshared := h.shared_le
  have hprecommitted := h.precommitted_le
  have hrest : addOrPanic s.numShared s.numPrecommitted = .ok (s.numShared + s.numPrecommitted) :=
    addOrPanic_eq_ok_iff.mpr ⟨rfl, by omega⟩
  have hinputs : addOrPanic (s.numShared + s.numPrecommitted) s.numRest =
      .ok (s.numShared + s.numPrecommitted + s.numRest) := addOrPanic_eq_ok_iff.mpr ⟨rfl, by omega⟩
  have hstart : addOrPanic s.numSharedUnpadded s.numPrecommittedUnpadded =
      .ok (s.numSharedUnpadded + s.numPrecommittedUnpadded) := addOrPanic_eq_ok_iff.mpr ⟨rfl, by omega⟩
  have hpure : ∀ {w : Variable}, (pure w : Except Stop Variable) = .ok v ↔ v = w := by
    intro w
    exact ⟨fun h => (Except.ok.inj h).symm, fun h => by rw [h]; rfl⟩
  have hok : ∀ {α β : Type} (a : α) (f : α → Except Stop β), (Except.ok a >>= f) = f a := by
    intro α β a f
    rfl
  simp only [variableAt, hrest, hinputs, hstart, hok]
  split_ifs
  · rw [hpure]
    grind
  · rw [bind_eq_ok_iff]
    simp only [addOrPanic_eq_ok_iff, hpure]
    grind
  · rw [bind_eq_ok_iff]
    simp only [addOrPanic_eq_ok_iff, hpure]
    grind
  · rw [hpure]
    grind

/-- In a replay of the shape's sizes, a column has an allocated variable of its own exactly when it is placed. -/
theorem StoredShape.Valid.resolves_iff {s : StoredShape F} (h : s.Valid) {out : Replayed F} {column : ℕ}
    (haux : out.aux = s.numSharedUnpadded + s.numPrecommittedUnpadded + s.numRestUnpadded)
    (hinputs : out.inputs = 1 + (s.numChallenges + s.numPublic))
    (hcolumn : column < s.numShared + s.numPrecommitted + s.numRest + (1 + s.numChallenges) + s.numPublic) :
    s.Resolves out column ↔ s.Placed column := by
  have hshared := h.shared_le
  have hprecommitted := h.precommitted_le
  have hrest := h.rest_le
  constructor
  · rintro ⟨v, hv, hhas, hback⟩
    rcases h.variableAt_eq_ok_iff.mp hv with ⟨hlt, rfl⟩ | ⟨hle, hlt, hfits, rfl⟩ | ⟨hle, hlt, hfits, rfl⟩ | ⟨hle, rfl⟩
    · left
      simp only [columnOf] at hback
      split_ifs at hback <;> omega
    · right; left
      simp only [columnOf] at hback
      split_ifs at hback <;> omega
    · right; right; left
      simp only [Replayed.Has] at hhas
      omega
    · right; right; right
      exact hle
  · rintro (hlt | ⟨hle, hlt, hfits⟩ | ⟨hle, hlt, hfits⟩ | hle)
    · refine ⟨_, h.variableAt_eq_ok_iff.mpr (Or.inl ⟨by omega, rfl⟩), ?_, if_pos hlt⟩
      simp only [Replayed.Has]
      omega
    · refine ⟨_, h.variableAt_eq_ok_iff.mpr (Or.inr (Or.inl ⟨hle, by omega, hfits, rfl⟩)), ?_, ?_⟩
      · simp only [Replayed.Has]
        omega
      · rw [columnOf, if_neg (by omega), if_pos (by omega)]
        omega
    · refine ⟨_, h.variableAt_eq_ok_iff.mpr (Or.inr (Or.inr (Or.inl ⟨hle, by omega, hfits, rfl⟩))), ?_, ?_⟩
      · simp only [Replayed.Has]
        omega
      · rw [columnOf, if_neg (by omega), if_neg (by omega)]
        omega
    · refine ⟨_, h.variableAt_eq_ok_iff.mpr (Or.inr (Or.inr (Or.inr ⟨hle, rfl⟩))), ?_, ?_⟩
      · simp only [Replayed.Has]
        omega
      · rw [columnOf]
        omega

/-! ## Replays -/

def StoredShape.RowAt (s : StoredShape F) (r : ℕ)
    (t : List (F × Variable) × List (F × Variable) × List (F × Variable)) : Prop :=
  (s.a.entries r).mapM s.term = .ok t.1 ∧ (s.b.entries r).mapM s.term = .ok t.2.1 ∧
    (s.c.entries r).mapM s.term = .ok t.2.2

/-- A replay allocates the unpadded sizes and has the sums of the unpadded rows. -/
theorem StoredShape.Valid.replay_eq_ok_iff {s : StoredShape F} (h : s.Valid) {out : Replayed F} :
    s.replay = .ok out ↔
      out.aux = s.numSharedUnpadded + s.numPrecommittedUnpadded + s.numRestUnpadded ∧
        out.inputs = 1 + (s.numChallenges + s.numPublic) ∧
        List.Forall₂ s.RowAt (List.range s.numConsUnpadded) out.rows := by
  have hfits := h.fits
  have hcons := h.cons_le
  have hinputs : addOrPanic s.numChallenges s.numPublic = .ok (s.numChallenges + s.numPublic) :=
    addOrPanic_eq_ok_iff.mpr ⟨rfl, by omega⟩
  have hwf : ∀ m ∈ s.matrices, ∀ r < s.numConsUnpadded, s.row m r = (m.entries r).mapM s.term := by
    intro m hm r hr
    exact row_eq (h.wellFormed m hm) (by omega)
  have hrow : ∀ r ∈ List.range s.numConsUnpadded, ∀ t, (do
      let a ← s.row s.a r
      let b ← s.row s.b r
      let c ← s.row s.c r
      pure (a, b, c)) = Except.ok t ↔ s.RowAt r t := by
    intro r hr t
    rw [List.mem_range] at hr
    rw [hwf s.a (by simp [matrices]) r hr, hwf s.b (by simp [matrices]) r hr, hwf s.c (by simp [matrices]) r hr]
    constructor
    · intro h
      obtain ⟨a, ha, h⟩ := bind_eq_ok_iff.mp h
      obtain ⟨b, hb, h⟩ := bind_eq_ok_iff.mp h
      obtain ⟨c, hc, h⟩ := bind_eq_ok_iff.mp h
      obtain rfl := Except.ok.inj h
      exact ⟨ha, hb, hc⟩
    · rintro ⟨ha, hb, hc⟩
      rw [ha, hb, hc]
      rfl
  rw [replay, hinputs]
  constructor
  · intro hreplay
    obtain ⟨_, hfirst, hreplay⟩ := bind_eq_ok_iff.mp hreplay
    obtain rfl := Except.ok.inj hfirst
    obtain ⟨rows, hrows, hout⟩ := bind_eq_ok_iff.mp hreplay
    obtain rfl := Except.ok.inj hout
    rw [Circuit.mapM_eq_ok_iff] at hrows
    refine ⟨rfl, rfl, ?_⟩
    refine List.forall₂_iff_get.mpr ⟨hrows.length_eq, fun i h1 h2 => ?_⟩
    exact (hrow _ (List.get_mem _ _) _).mp ((List.forall₂_iff_get.mp hrows).2 i h1 h2)
  · rintro ⟨haux, hin, hrows⟩
    refine bind_eq_ok_iff.mpr ⟨_, rfl, bind_eq_ok_iff.mpr ⟨out.rows, ?_, ?_⟩⟩
    · rw [Circuit.mapM_eq_ok_iff]
      refine List.forall₂_iff_get.mpr ⟨hrows.length_eq, fun i h1 h2 => ?_⟩
      exact (hrow _ (List.get_mem _ _) _).mpr ((List.forall₂_iff_get.mp hrows).2 i h1 h2)
    · rw [← haux, ← hin]
      rfl

theorem StoredMatrix.WellFormed.column_lt_of_mem {m : StoredMatrix F} {rows cols r : ℕ} (h : m.WellFormed rows cols)
    {e : F × ℕ} (he : e ∈ m.entries r) : e.2 < cols := by
  have hzip := List.mem_of_mem_drop (List.mem_of_mem_take he)
  exact h.column_lt _ (List.of_mem_zip hzip).2

/-- The entries of a faithful replay are placed. -/
theorem StoredShape.Valid.entriesPlaced {s : StoredShape F} (h : s.Valid) {out : Replayed F}
    (hreplay : s.replay = .ok out) (hfaithful : s.Faithful out) : s.EntriesPlaced := by
  obtain ⟨haux, hinputs, hrows⟩ := h.replay_eq_ok_iff.mp hreplay
  intro m hm r hr e he
  obtain ⟨t, ht, ha, hb, hc⟩ := hfaithful.rows r hr ⟨m, hm, List.ne_nil_of_mem he⟩
  obtain ⟨hrt, hget⟩ := List.getElem?_eq_some_iff.mp ht
  have hlen := hrows.length_eq
  rw [List.length_range] at hlen
  have hat : s.RowAt r t := by
    have hat := (List.forall₂_iff_get.mp hrows).2 r (by rw [List.length_range]; omega) hrt
    simpa [hget] using hat
  have hresolves : ∀ m ∈ s.matrices, ∀ e ∈ m.entries r, s.Resolves out e.2 := by
    simp only [matrices, List.forall_mem_cons, List.not_mem_nil, IsEmpty.forall_iff, implies_true, and_true]
    exact ⟨isRow_iff.mp ⟨_, hat.1, ha⟩, isRow_iff.mp ⟨_, hat.2.1, hb⟩, isRow_iff.mp ⟨_, hat.2.2, hc⟩⟩
  refine ⟨by omega, (h.resolves_iff haux hinputs ?_).mp (hresolves m hm e he)⟩
  exact (h.wellFormed m hm).column_lt_of_mem he

/-- Placed entries are replayed faithfully. -/
theorem StoredShape.Valid.exists_faithful {s : StoredShape F} (h : s.Valid) (hplaced : s.EntriesPlaced) :
    ∃ out, s.replay = .ok out ∧ s.Faithful out := by
  have hcons := h.cons_le
  -- Only the sizes of the replay decide which variables are allocated, so its rows come after.
  have hresolves : ∀ out : Replayed F,
      out.aux = s.numSharedUnpadded + s.numPrecommittedUnpadded + s.numRestUnpadded →
      out.inputs = 1 + (s.numChallenges + s.numPublic) →
      ∀ m ∈ s.matrices, ∀ r < s.numCons, ∀ e ∈ m.entries r, s.Resolves out e.2 := by
    intro out haux hinputs m hm r hr e he
    exact (h.resolves_iff haux hinputs ((h.wellFormed m hm).column_lt_of_mem he)).mpr (hplaced m hm r hr e he).2
  have hrow : ∀ out : Replayed F,
      out.aux = s.numSharedUnpadded + s.numPrecommittedUnpadded + s.numRestUnpadded →
      out.inputs = 1 + (s.numChallenges + s.numPublic) →
      ∀ r < s.numCons, ∃ t, s.RowAt r t ∧ s.IsRow out t.1 (s.a.entries r) ∧ s.IsRow out t.2.1 (s.b.entries r) ∧
        s.IsRow out t.2.2 (s.c.entries r) := by
    intro out haux hinputs r hr
    have hall := hresolves out haux hinputs
    obtain ⟨a, ha, hia⟩ := isRow_iff.mpr (hall s.a (by simp [matrices]) r hr)
    obtain ⟨b, hb, hib⟩ := isRow_iff.mpr (hall s.b (by simp [matrices]) r hr)
    obtain ⟨c, hc, hic⟩ := isRow_iff.mpr (hall s.c (by simp [matrices]) r hr)
    exact ⟨(a, b, c), ⟨ha, hb, hc⟩, hia, hib, hic⟩
  choose! sums hsums using hrow
  let sizes : Replayed F :=
    ⟨s.numSharedUnpadded + s.numPrecommittedUnpadded + s.numRestUnpadded, 1 + (s.numChallenges + s.numPublic), []⟩
  let out : Replayed F := { sizes with rows := (List.range s.numConsUnpadded).map (sums sizes) }
  have hspec := hsums sizes rfl rfl
  refine ⟨out, h.replay_eq_ok_iff.mpr ⟨rfl, rfl, ?_⟩, ?_, ?_, ?_⟩
  · refine List.forall₂_map_right_iff.mpr (List.forall₂_same.mpr fun r hr => (hspec r ?_).1)
    rw [List.mem_range] at hr
    omega
  · intro t ht x hx
    obtain ⟨r, hr, rfl⟩ := List.mem_map.mp ht
    rw [List.mem_range] at hr
    obtain ⟨-, ha, hb, hc⟩ := hspec r (by omega)
    have hhas : ∀ {sum : List (F × Variable)} {entries : List (F × ℕ)}, s.IsRow sizes sum entries → x ∈ sum →
        out.Has x.2 := by
      intro sum entries hsum hx
      obtain ⟨i, hi, rfl⟩ := List.getElem_of_mem hx
      exact ((List.forall₂_iff_get.mp hsum).2 i hi ((List.forall₂_iff_get.mp hsum).1 ▸ hi)).2.1
    rcases List.mem_append.mp hx with hx | hx
    · rcases List.mem_append.mp hx with hx | hx
      · exact hhas ha hx
      · exact hhas hb hx
    · exact hhas hc hx
  · intro m hm m' hm' r hr r' hr' e he e' he' v hv hv'
    obtain ⟨w, hw, -, hcolumn⟩ := hresolves out rfl rfl m hm r hr e he
    obtain ⟨w', hw', -, hcolumn'⟩ := hresolves out rfl rfl m' hm' r' hr' e' he'
    obtain rfl := Except.ok.inj (hv.symm.trans hw)
    obtain rfl := Except.ok.inj (hv'.symm.trans hw')
    exact hcolumn.symm.trans hcolumn'
  · rintro r hr ⟨m, hm, hne⟩
    obtain ⟨e, he⟩ := List.exists_mem_of_ne_nil _ hne
    have hlt := (hplaced m hm r hr e he).1
    refine ⟨sums sizes r, ?_, (hspec r hr).2⟩
    rw [List.getElem?_map, List.getElem?_range hlt]
    rfl

/-- Validation is safe and what passes it replays faithfully exactly when the sum it does not check fits, and
no entry of a shape that passes is in a padding row or a padding column. -/
theorem StoredShape.sound_iff (s : StoredShape F) :
    s.Sound ↔ s.ChallengesFit ∧ (s.validate = .ok () → s.EntriesPlaced) := by
  rw [Sound, validate_ne_panic_iff]
  constructor
  · rintro ⟨hfit, hsound⟩
    refine ⟨hfit, fun hvalidate => ?_⟩
    obtain ⟨out, hreplay, hfaithful⟩ := hsound hvalidate
    exact (valid_of_validate hvalidate).entriesPlaced hreplay hfaithful
  · rintro ⟨hfit, hplaced⟩
    exact ⟨hfit, fun hvalidate => (valid_of_validate hvalidate).exists_faithful (hplaced hvalidate)⟩

end Shape

def oneEntry (column cols : ℕ) : StoredMatrix Scalar := ⟨[1], [column], [0, 1], cols⟩

/-- A shared value and a padding column after it, then a precommitted value: `A` has its entry in the padding
column, and `B` in the precommitted value's. -/
def paddedEntry : StoredShape Scalar where
  numCons := 1
  numConsUnpadded := 1
  numSharedUnpadded := 1
  numPrecommittedUnpadded := 1
  numRestUnpadded := 0
  numShared := 2
  numPrecommitted := 1
  numRest := 0
  numPublic := 0
  numChallenges := 0
  a := oneEntry 1 4
  b := oneEntry 2 4
  c := oneEntry 3 4

/-- The padding column's entry passes, and is replayed on the precommitted value. -/
theorem not_sound_paddedEntry : ¬paddedEntry.Sound := by
  rintro ⟨-, hsound⟩
  obtain ⟨out, -, hfaithful⟩ := hsound (by decide)
  have heq := hfaithful.distinct paddedEntry.a (by simp [StoredShape.matrices]) paddedEntry.b
    (by simp [StoredShape.matrices]) 0 (by decide) 0 (by decide) (1, 1) (by decide) (1, 2) (by decide) (.aux 1)
    (by decide) (by decide)
  cases heq

end ZkCredVega.Nym
