import ZkCredVega.Circuit.Trace
import ZkCredVega.OffsetBind.Select
import ZkCredVega.P256

/-!
# Which offset is selected

The private variables of `selectWindow` start with its one-hot selector. In every satisfying
assignment exactly one of its bits is set, the offset is that bit's candidate and the packs
are those of the window there; `enforceGe` then compares such offsets as integers.
-/

namespace ZkCredVega

open Circuits

variable {F : Type} [Field F]

/-- Allocated bits are the private variables, in order. -/
theorem traces_allocBits {α : Type} {hint : α → Option Bool} {xs : List α} {ins vs : List F}
    {bs : List (Boolean F)} (h : (xs.mapM fun x => Boolean.alloc (hint x)).Traces ins vs bs) :
    vs = bs.map Boolean.eval := by
  induction xs generalizing ins vs bs with
  | nil =>
    obtain ⟨-, rfl, rfl⟩ := h
    rfl
  | cons x xs ih =>
    rw [List.mapM_cons] at h
    obtain ⟨_, _, us, ws, b, -, rfl, hb, hrest⟩ := Circuit.traces_bind.mp h
    obtain ⟨v, _, rfl, -, -, rfl, rfl⟩ := hb
    obtain ⟨_, _, us, ws, cs, -, rfl, hcs, -, rfl, rfl⟩ := Circuit.traces_bind.mp hrest
    rw [ih hcs, List.append_nil]
    rfl

/-- A selector's private variables are its bits. -/
theorem traces_allocOneHot {values : List ℕ} {realValue : ℕ} {ins vs : List F} {bs : List (Boolean F)}
    (h : (allocOneHot values realValue : Circuit F F _).Traces ins vs bs) : vs = bs.map Boolean.eval := by
  obtain ⟨_, _, us, ws, _, -, rfl, hassert, h⟩ := Circuit.traces_bind.mp h
  have hnone : us = [] := by
    rw [Circuit.assert] at hassert
    split at hassert
    · exact hassert.2.1
    · exact hassert.elim
  obtain ⟨_, _, us', ws, cs, -, rfl, halloc, -, -, rfl, rfl⟩ := Circuit.traces_bind.mp h
  rw [hnone, List.nil_append, List.append_nil, traces_allocBits halloc]

/-- Distinct `usize` values are fewer than `2 ^ 255`. -/
theorem length_lt_of_nodup {values : List ℕ} (hnodup : values.Nodup) (hsize : ∀ v ∈ values, v < 2 ^ 64) :
    values.length < 2 ^ 255 := by
  have hsub : values ⊆ List.range (2 ^ 64) := fun v hv => List.mem_range.mpr (hsize v hv)
  have hle := (hnodup.subperm hsub).length_le
  rw [List.length_range] at hle
  exact lt_of_le_of_lt hle (by decide)

/-- What an assignment of `selectWindow` selects: the selector's bits are its first variables, and
candidate `j` is the one whose bit is set. -/
structure Selects (candidates : List ℕ) (buf : List UInt8) (windowLen : ℕ) (vs : List F)
    (window : SelectedWindow F F) (j : ℕ) (o : ℕ) : Prop where
  candidate : candidates[j]? = some o
  selector : ∀ k < candidates.length, vs[k]? = some (if k = j then 1 else 0)
  offset_eq : window.offset.eval = (o : F)
  length_packs : window.packs.length = packCount windowLen
  pack_eq : ∀ p < packCount windowLen, (window.packs.map (·.val))[p]? = some ((bytesNat
    (windowAt buf (o + 16 * p) (min (o + 16 * p + 16) (o + windowLen) - (o + 16 * p))) : ℕ) : F)

theorem chunk_eq_windowAt (buf : List UInt8) (o len p : ℕ) :
    ((windowAt buf o len).drop (p * bytesPerPack)).take bytesPerPack =
      windowAt buf (o + 16 * p) (min (o + 16 * p + 16) (o + len) - (o + 16 * p)) := by
  rw [chunk_windowAt, windowAt]
  have hcount : min (p * bytesPerPack + bytesPerPack) len - p * bytesPerPack =
      min (o + 16 * p + 16) (o + len) - (o + 16 * p) := by
    rw [bytesPerPack]
    omega
  rw [hcount]
  apply List.map_congr_left
  intro i _
  rw [bytesPerPack, Nat.mul_comm p 16, Nat.add_assoc]

theorem SelectedWindow.Shows.packs {window : SelectedWindow F F} {buf : List UInt8} {o len : ℕ}
    (h : window.Shows o (windowAt buf o len)) {p : ℕ} (hp : p < packCount len) :
    (window.packs.map (·.val))[p]? = some ((bytesNat
      (windowAt buf (o + 16 * p) (min (o + 16 * p + 16) (o + len) - (o + 16 * p))) : ℕ) : F) := by
  rw [h.packs_eq, ← chunk_eq_windowAt, packBytes, length_windowAt, List.map_map, List.getElem?_map,
    List.getElem?_range hp]
  rfl

theorem Selects.unique {candidates : List ℕ} {buf : List UInt8} {windowLen : ℕ} {vs : List F}
    {window : SelectedWindow F F} {i j o o' : ℕ} (h : Selects candidates buf windowLen vs window i o)
    (h' : Selects candidates buf windowLen vs window j o') : i = j ∧ o = o' := by
  have hi : i < candidates.length := (List.getElem?_eq_some_iff.mp h.candidate).1
  have hij : i = j := by
    by_contra hne
    have hone := (h.selector i hi).symm.trans (h'.selector i hi)
    rw [if_pos rfl, if_neg hne] at hone
    exact one_ne_zero (Option.some.inj hone)
  subst hij
  exact ⟨rfl, Option.some.inj (h.candidate.symm.trans h'.candidate)⟩

theorem selects_of_traces [LargeChar F] {bits : List (Boolean F)} {buf native : List UInt8} {candidates : List ℕ}
    {realOffset windowLen : ℕ} (hb : Boolean.ReadsAll bits (bytesBits buf)) (hlen : native.length = buf.length)
    (hcand : candidates.length < 2 ^ 255) {ins vs : List F} {window : SelectedWindow F F}
    (h : (selectWindow bits native candidates realOffset windowLen).Traces ins vs window) :
    ∃ j o, Selects candidates buf windowLen vs window j o := by
  obtain ⟨_, _, us, ws, _, -, rfl, hreject, hselect⟩ := Circuit.traces_bind.mp h
  have hnone : us = [] := by
    rw [rejectUnless] at hreject
    split at hreject
    · exact hreject.2.1
    · exact hreject.elim
  subst hnone
  obtain ⟨i, i', us, ws, onehot, -, rfl, halloc, hrest⟩ := Circuit.traces_bind.mp hselect
  obtain ⟨-, j, hj, hreads⟩ := ensures_allocOneHot hcand i onehot (Circuit.runs_iff_exists_traces.mpr ⟨us, halloc⟩)
  have hvars := traces_allocOneHot halloc
  rw [Boolean.readsAll_iff.mp hreads] at hvars
  obtain ⟨-, hshows⟩ := ensures_selected hb hlen hreads hj i' window
    (Circuit.runs_iff_exists_traces.mpr ⟨ws, hrest⟩)
  refine ⟨j, candidates[j], List.getElem?_eq_getElem hj, ?_, hshows.offset_eq, ?_, fun p hp => hshows.packs hp⟩
  · intro k hk
    rw [List.nil_append, List.getElem?_append_left (by rw [hvars]; simpa using hk), hvars, List.getElem?_map,
      List.getElem?_eq_getElem (by simpa using hk), getElem_oneHot]
    by_cases hkj : k = j <;> simp [ofBool, hkj]
  · have hmap := congrArg List.length hshows.packs_eq
    simpa using hmap

theorem enforceGe_iff [LargeChar F] {value floor : LC F F} {v f d : ℕ} (hvalue : value.eval = (v : F))
    (hfloor : floor.eval = (f : F)) (hv : v < 2 ^ 17) (hf : f < 2 ^ 17) :
    (∃ ins u, (enforceGe value floor d 16).Runs ins u) ↔ 0 ≤ (v : ℤ) - f ∧ (v : ℤ) - f < 2 ^ 16 := by
  constructor
  · rintro ⟨ins, u, h⟩
    obtain ⟨-, k, hk, heq⟩ := runs_enforceGe.mp h
    rw [hvalue, hfloor] at heq
    have hsum := LargeChar.eq_add (F := F) (by omega) (by omega) (by omega) heq
    omega
  · rintro ⟨hle, hlt⟩
    refine ⟨[], (), runs_enforceGe.mpr ⟨rfl, v - f, by omega, ?_⟩⟩
    rw [hvalue, hfloor, ← Nat.cast_add]
    congr 1
    omega

/-- In every satisfying assignment of `selectWindow` exactly one candidate is selected, and the
window is the one there; `enforceGe` with 16 bits is satisfiable exactly when the difference of the
integers has 16 bits. The offsets of a window are added without wrapping: only for a candidate within
a window of `2 ^ 64`, past any buffer, would the `usize` sum overflow, where the source panics or,
with overflow checks off, reads from the buffer's start again. -/
theorem selectWindow_enforceGe_exact [LargeChar F] :
    (∀ (bits : List (Boolean F)) (buf native : List UInt8) (candidates : List ℕ) (realOffset windowLen : ℕ),
      Boolean.ReadsAll bits (bytesBits buf) → native.length = buf.length → candidates.Nodup →
      (∀ o ∈ candidates, o < 2 ^ 64) → ∀ (ins vs : List F) (window : SelectedWindow F F),
      (selectWindow bits native candidates realOffset windowLen).Traces ins vs window →
      ∃! t : ℕ × ℕ, Selects candidates buf windowLen vs window t.1 t.2) ∧
    ∀ (value floor : LC F F) (v f d : ℕ), value.eval = (v : F) → floor.eval = (f : F) → v < 2 ^ 17 → f < 2 ^ 17 →
      ((∃ ins u, (enforceGe value floor d 16).Runs ins u) ↔ 0 ≤ (v : ℤ) - f ∧ (v : ℤ) - f < 2 ^ 16) := by
  constructor
  · intro bits buf native candidates realOffset windowLen hb hlen hnodup hsize ins vs window h
    obtain ⟨j, o, hselects⟩ := selects_of_traces hb hlen (length_lt_of_nodup hnodup hsize) h
    refine ⟨(j, o), hselects, ?_⟩
    rintro ⟨j', o'⟩ h'
    obtain ⟨rfl, rfl⟩ := hselects.unique h'
    rfl
  · intro value floor v f d hvalue hfloor hv hf
    exact enforceGe_iff hvalue hfloor hv hf

def docTypeText : List UInt8 := [0x64, 0x6f, 0x63, 0x54, 0x79, 0x70, 0x65]

def docTypeBits : List (Boolean Scalar) := (bytesBits docTypeText).map .constant

theorem readsAll_docTypeBits : Boolean.ReadsAll docTypeBits (bytesBits docTypeText) := by
  rw [Boolean.ReadsAll, docTypeBits, List.forall₂_map_left_iff, List.forall₂_same]
  exact fun _ _ => rfl

theorem selectWindow_enforceGe_exact_text :
    (∃ (vs : List Scalar) (window : SelectedWindow Scalar Scalar),
      (selectWindow docTypeBits docTypeText [0, 3] 3 4).Traces [] vs window ∧
        ∃! t : ℕ × ℕ, Selects [0, 3] docTypeText 4 vs window t.1 t.2) ∧
      ∃ ins u, (enforceGe (.const 65539) (.const 4) 0 16 : Circuit Scalar Scalar Unit).Runs ins u := by
  have hadmits : (selectWindow docTypeBits docTypeText [0, 3] 3 4).Admits (·.Shows 3 (windowAt docTypeText 3 4)) :=
    admits_selectWindow readsAll_docTypeBits rfl (by decide) (by decide)
  obtain ⟨window, hruns, -⟩ := hadmits
  obtain ⟨vs, htraces⟩ := Circuit.runs_iff_exists_traces.mp hruns
  refine ⟨⟨vs, window, htraces, ?_⟩, ?_⟩
  · exact selectWindow_enforceGe_exact.1 _ _ _ _ 3 4 readsAll_docTypeBits rfl (by decide) (by decide) _ _ _ htraces
  · exact (selectWindow_enforceGe_exact.2 (.const 65539) (.const 4) 65539 4 0 (LC.eval_const _) (LC.eval_const _)
      (by decide) (by decide)).mpr (by decide)

end ZkCredVega
