import ZkCredVega.OnehotCursor
import ZkCredVega.Circuit.Radix

/-!
# Windows read at a witnessed offset

`selectWindow` reads `windowLen` bytes of a buffer of bits at an offset the
prover picks among `candidates`, packed sixteen bytes to a field element.
`windowAt` is what a window of a byte string holds, `packBytes` its packs;
`SelectedWindow.Shows` says that a selected window is the one at an offset.
-/

namespace ZkCredVega

open Circuits

variable {F V : Type} [Field F]

/-- The error of every check on a malformed witness. -/
def rejectUnless (p : Prop) [Decidable p] : Circuit F V Unit :=
  if p then pure () else .fail .unsatisfiable

/-- Bytes packed per field element. -/
def bytesPerPack : ℕ := 16

/-- `usize::div_ceil` by the pack size. -/
def packCount (len : ℕ) : ℕ := (len + 15) / 16

def maxAnchorWindow : ℕ := 48

/-- Every offset at which a `windowLen`-byte window fits inside `len` bytes. -/
def windowOffsets (len windowLen : ℕ) : List ℕ :=
  if windowLen > len then [] else List.range (len - windowLen + 1)

def anchorOffsets (bufferLen : ℕ) : List ℕ := windowOffsets bufferLen maxAnchorWindow

structure SelectedWindow (F V : Type) where
  packs : List (AllocatedNum F V)
  offset : LC F V

/-- A byte as a linear combination of its eight big-endian bits. -/
def byteLc [One V] (bits : List (Boolean V)) (byteIdx : ℕ) (scale : F) : LC F V :=
  .sum ((List.range 8).map fun j => (Boolean.nth bits (byteIdx * 8 + j)).lc (scale * 2 ^ (7 - j)))

/-- Pack `p` of the `len` bytes at `start`; bytes past the buffer are left out. -/
def packAt [One V] (bits : List (Boolean V)) (start len totalBytes p : ℕ) : LC F V :=
  let lo := p * bytesPerPack
  let hi := min (lo + bytesPerPack) len
  .sum (((List.range' lo (hi - lo)).filter fun i => start + i < totalBytes).map fun i =>
    byteLc bits (start + i) (256 ^ (hi - 1 - i)))

def packConstant (window : List UInt8) : List F :=
  (List.range (packCount window.length)).map fun p =>
    ((bytesNat ((window.drop (p * bytesPerPack)).take bytesPerPack) : ℕ) : F)

/-- A number allocated and constrained to be `b * w`. -/
def gated [One V] (b : Boolean V) (w : LC F V) (hint : Outcome F) :
    Circuit F V (AllocatedNum F V) := do
  let term ← AllocatedNum.alloc hint
  .require (b.lc 1) w term.lc
  pure term

/-- Pack `p` of the window a selector picks: `sum_k onehot[k] * pack_k = out`. -/
def selectPack [One V] (bits : List (Boolean V)) (native : List UInt8) (candidates : List ℕ)
    (realOffset windowLen : ℕ) (onehot : List (Boolean V)) (p : ℕ) :
    Circuit F V (AllocatedNum F V) := do
  let lo := p * bytesPerPack
  let hi := min (lo + bytesPerPack) windowLen
  let value : F := (bytesNat ((List.range' lo (hi - lo)).map fun i =>
    native.getD (realOffset + i) 0) : ℕ)
  let out ← AllocatedNum.alloc (.ok value)
  let terms ← (candidates.zip onehot).mapM fun t =>
    gated t.2 (packAt bits t.1 windowLen native.length p)
      (.ok (if t.1 = realOffset then value else 0))
  .require (.sum (terms.map (·.lc))) (.const 1) out.lc
  pure out

def selectWindow [One V] (bits : List (Boolean V)) (native : List UInt8) (candidates : List ℕ)
    (realOffset windowLen : ℕ) : Circuit F V (SelectedWindow F V) := do
  rejectUnless (realOffset ∈ candidates)
  let onehot ← allocOneHot candidates realOffset
  -- the slice indices `bits[idx * 8 + j]` of every byte a candidate reads
  .assert (∀ cand ∈ candidates, ∀ i < windowLen, cand + i < native.length →
    (cand + i) * 8 + 8 ≤ bits.length)
  let packs ← (List.range (packCount windowLen)).mapM
    (selectPack bits native candidates realOffset windowLen onehot)
  let offset := .sum ((candidates.zip onehot).map fun t => t.2.lc (t.1 : F))
  pure { packs, offset }

/-- The bits of one pack of `n` bytes, most significant first, tied to the pack by their sum. -/
def unpackPack [One V] [ToRepr F] (pack : AllocatedNum F V) (n : ℕ) :
    Circuit F V (List (Boolean V)) := do
  let bits ← (List.range (8 * n)).mapM fun k =>
    Boolean.alloc (pack.value.map fun v =>
      (ToRepr.toNat v).testBit (8 * (n - 1 - k / 8) + (7 - k % 8)))
  .require (.sum (bits.zipIdx.map fun t => t.1.lc (256 ^ (n - 1 - t.2 / 8) * 2 ^ (7 - t.2 % 8))))
    (.const 1) pack.lc
  pure bits

/-- Decomposes a selected window's packs into bits, eight a byte, most significant first. -/
def unpackWindowBits [One V] [ToRepr F] (window : SelectedWindow F V) (totalLen : ℕ) :
    Circuit F V (List (Boolean V)) := do
  let out ← window.packs.zipIdx.mapM fun t => do
    .assert (t.2 * bytesPerPack ≤ totalLen)
    unpackPack t.1 (min (totalLen - t.2 * bytesPerPack) bytesPerPack)
  pure out.flatten

/-- Constrains a selected window to equal a fixed byte string. -/
def enforceWindowEquals [One V] (window : SelectedWindow F V) (expected : List UInt8) :
    Circuit F V Unit := do
  let packed : List F := packConstant expected
  rejectUnless (packed.length = window.packs.length)
  forM (window.packs.zip packed) fun t => .require t.1.lc (.const 1) (.const t.2)

/-- Selects a window and pins it to a literal that is the same for every document type. -/
def selectAnchor [One V] (bits : List (Boolean V)) (native : List UInt8) (realOffset : ℕ)
    (expected : List UInt8) (expectedPacks : ℕ) : Circuit F V (SelectedWindow F V) := do
  rejectUnless (packCount expected.length = expectedPacks)
  let window ← selectWindow bits native (anchorOffsets native.length) realOffset expected.length
  enforceWindowEquals window expected
  pure window

/-- Constrains `value - floor` to fit in `bitsNeeded` bits. -/
def enforceGe [One V] (value floor : LC F V) (nativeDifference bitsNeeded : ℕ) :
    Circuit F V Unit := do
  let bits ← (List.range bitsNeeded).mapM fun i => Boolean.alloc (some (nativeDifference.testBit i))
  let recomposed := .sum (bits.zipIdx.map fun t => t.1.lc (2 ^ t.2))
  .require (value - floor) (.const 1) recomposed

def anchorTextWindow : ℕ := 40

def anchorTextPacks : ℕ := packCount anchorTextWindow

/-- A one-hot over `1..=n`: its Booleans and the number they select, allocated. -/
def allocCount [One V] (n real : ℕ) : Circuit F V (List (Boolean V) × AllocatedNum F V) := do
  let sel ← (List.range n).mapM fun i => Boolean.alloc (some (i + 1 == real))
  .require (.sum (sel.map (·.lc 1))) (.const 1) (.const 1)
  let count ← AllocatedNum.alloc (.ok (real : F))
  .require (.sum (sel.zipIdx.map fun t => t.1.lc ((t.2 + 1 : ℕ) : F))) (.const 1) count.lc
  pure (sel, count)

/-- Byte `j` of a window, kept only while the selected length reaches past it. -/
def maskByte [One V] (windowBits lenSel : List (Boolean V)) (j : ℕ) (value : UInt8) :
    Circuit F V (AllocatedNum F V) := do
  let active : LC F V := sumWhere (fun i => i + 1 > j) lenSel
  let out ← AllocatedNum.alloc (.ok (value.toNat : F))
  .require (byteLc windowBits j 1) active out.lc
  pure out

/-- Byte values packed the way `packAt` weights a window. -/
def repack [One V] (chunk : List (AllocatedNum F V)) : Circuit F V (AllocatedNum F V) := do
  let value : Option F := do
    let vs ← chunk.mapM (·.value)
    pure (vs.foldl (fun a v => a * 256 + v) 0)
  let out ← AllocatedNum.alloc (assigned value)
  .require (.sum (chunk.zipIdx.map fun t => .term (256 ^ (chunk.length - 1 - t.2)) t.1.var))
    (.const 1) out.lc
  pure out

/-- A masked window with the length that masks it, and the window it was read from. -/
structure MaskedAnchor (F V : Type) where
  packs : List (AllocatedNum F V)
  prefixLen : AllocatedNum F V
  window : SelectedWindow F V

/-- `selectMaskedTextAnchor`, with the window it selects. -/
def maskedTextAnchor [One V] [ToRepr F] (bits : List (Boolean V)) (native : List UInt8)
    (realOffset prefixLen : ℕ) : Circuit F V (MaskedAnchor F V) := do
  rejectUnless (¬(prefixLen = 0 ∨ prefixLen > anchorTextWindow))
  let window ← selectWindow bits native (anchorOffsets native.length) realOffset anchorTextWindow
  let windowBits ← unpackWindowBits window anchorTextWindow
  let (lenSel, pref) ← allocCount anchorTextWindow prefixLen
  let maskedBytes ← (List.range anchorTextWindow).mapM fun j =>
    maskByte windowBits lenSel j (if j < prefixLen then native.getD (realOffset + j) 0 else 0)
  let packs ← (List.range anchorTextPacks).mapM fun p =>
    repack ((maskedBytes.drop (p * bytesPerPack)).take
      (min (anchorTextWindow - p * bytesPerPack) bytesPerPack))
  pure { packs, prefixLen := pref, window }

/-- Selects a fixed-width window, blanks everything past `prefixLen` and returns the masked
window with the prefix length that masks it. -/
def selectMaskedTextAnchor [One V] [ToRepr F] (bits : List (Boolean V)) (native : List UInt8)
    (realOffset prefixLen : ℕ) : Circuit F V (List (AllocatedNum F V) × AllocatedNum F V) :=
  (fun a => (a.packs, a.prefixLen)) <$> maskedTextAnchor bits native realOffset prefixLen

/-! ## What a window holds -/

/-- The `len` bytes at `o`; a byte past the buffer counts as zero. -/
def windowAt (buf : List UInt8) (o len : ℕ) : List UInt8 :=
  (List.range len).map fun i => buf.getD (o + i) 0

def packBytes (w : List UInt8) : List ℕ :=
  (List.range (packCount w.length)).map fun p =>
    bytesNat ((w.drop (p * bytesPerPack)).take bytesPerPack)

/-- The selected window is the one at offset `o` and holds `w`. -/
structure SelectedWindow.Shows (window : SelectedWindow F F) (o : ℕ) (w : List UInt8) : Prop where
  offset_eq : window.offset.eval = (o : F)
  packs_eq : window.packs.map (·.val) = (packBytes w).map (Nat.cast : ℕ → F)

@[simp] theorem length_windowAt (buf : List UInt8) (o len : ℕ) :
    (windowAt buf o len).length = len := by simp [windowAt]

theorem windowAt_eq_take {buf : List UInt8} {o len : ℕ} (h : o + len ≤ buf.length) :
    windowAt buf o len = (buf.drop o).take len := by
  refine List.ext_getElem (by simp; omega) fun i h1 h2 => ?_
  rw [length_windowAt] at h1
  have hin : o + i < buf.length := by omega
  simp only [windowAt, List.getElem_take, List.getElem_drop, List.getElem_map, List.getElem_range,
    List.getD_eq_getElem?_getD, List.getElem?_eq_getElem hin, Option.getD_some]

@[simp] theorem length_packBytes (w : List UInt8) : (packBytes w).length = packCount w.length := by
  simp [packBytes]

theorem packConstant_eq (w : List UInt8) :
    (packConstant w : List F) = (packBytes w).map (Nat.cast : ℕ → F) := by
  simp [packConstant, packBytes, Function.comp_def]

theorem chunk_windowAt (buf : List UInt8) (o len p : ℕ) :
    ((windowAt buf o len).drop (p * bytesPerPack)).take bytesPerPack =
      (List.range (min (p * bytesPerPack + bytesPerPack) len - p * bytesPerPack)).map fun t =>
        buf.getD (o + (p * bytesPerPack + t)) 0 := by
  refine List.ext_getElem (by simp; omega) fun i h1 h2 => ?_
  simp [windowAt]

/-! ## Linear combinations of a buffer -/

section Eval

variable {bits : List (Boolean F)} {buf : List UInt8}

theorem eval_byteLc (h : Boolean.ReadsAll bits (bytesBits buf)) (i : ℕ) (scale : F) :
    (byteLc bits i scale).eval = scale * ((buf.getD i 0).toNat : F) := by
  have hbit : ∀ j < 8, (Boolean.nth bits (i * 8 + j)).eval =
      (((buf.getD i 0).toNat.testBit (7 - j)).toNat : ℕ) := by
    intro j hj
    have hr : (Boolean.nth bits (i * 8 + j)).eval = _ := h.nth (i * 8 + j)
    rw [hr, mul_comm i 8, getD_bytesBits buf i hj, ofBool_eq_natCast]
  have hmap : ((List.range 8).map fun j =>
      ((Boolean.nth bits (i * 8 + j)).lc (scale * 2 ^ (7 - j))).eval) =
      (List.range 8).map fun j => scale * (((2 : ℕ) : F) ^ (8 - 1 - j) *
        ((((buf.getD i 0).toNat.testBit (7 - j)).toNat : ℕ) : F)) := by
    refine List.map_congr_left fun j hj => ?_
    rw [Boolean.eval_lc, hbit j (List.mem_range.mp hj), mul_assoc]
    norm_num
  have hbits : beNat 2 ((List.range 8).map fun j =>
      ((buf.getD i 0).toNat.testBit (7 - j)).toNat) = (buf.getD i 0).toNat := by
    have hb := beBits_bitsOf (buf.getD i 0)
    rwa [beBits, bitsOf, List.map_map, Function.comp_def] at hb
  rw [byteLc, LC.eval_sum, List.map_map, Function.comp_def, hmap, List.sum_map_mul_left,
    sum_range_pow_mul 2 8 fun j => ((buf.getD i 0).toNat.testBit (7 - j)).toNat, hbits]

theorem eval_packAt (h : Boolean.ReadsAll bits (bytesBits buf)) (o len p : ℕ) :
    (packAt bits o len buf.length p).eval =
      ((bytesNat (((windowAt buf o len).drop (p * bytesPerPack)).take bytesPerPack) : ℕ) : F) := by
  set lo := p * bytesPerPack with hlo
  set m := min (lo + bytesPerPack) len - lo with hm
  have hfilter : ∀ is : List ℕ, ((is.filter fun i => o + i < buf.length).map fun i =>
      (byteLc bits (o + i) ((256 : F) ^ (min (lo + bytesPerPack) len - 1 - i))).eval).sum =
      (is.map fun i => (256 : F) ^ (min (lo + bytesPerPack) len - 1 - i) *
        ((buf.getD (o + i) 0).toNat : F)).sum := by
    intro is
    simp only [eval_byteLc h]
    induction is with
    | nil => rfl
    | cons i is ih =>
      by_cases hi : o + i < buf.length
      · rw [List.filter_cons_of_pos (by simpa using hi), List.map_cons, List.map_cons,
          List.sum_cons, List.sum_cons, ih]
      · rw [List.filter_cons_of_neg (by simpa using hi), ih, List.map_cons, List.sum_cons,
          List.getD_eq_getElem?_getD, List.getElem?_eq_none (by omega)]
        simp
  have hrange : ((List.range' lo m).map fun i =>
      (256 : F) ^ (min (lo + bytesPerPack) len - 1 - i) * ((buf.getD (o + i) 0).toNat : F)) =
      (List.range m).map fun t =>
        ((256 : ℕ) : F) ^ (m - 1 - t) * ((buf.getD (o + (lo + t)) 0).toNat : F) := by
    rw [List.range'_eq_map_range, List.map_map]
    refine List.map_congr_left fun t ht => ?_
    have ht : t < m := List.mem_range.mp ht
    simp only [Function.comp_apply, Nat.cast_ofNat,
      show min (lo + bytesPerPack) len - 1 - (lo + t) = m - 1 - t by omega]
  rw [packAt, LC.eval_sum, List.map_map, Function.comp_def]
  rw [hfilter, ← hm, hrange, sum_range_pow_mul 256 m fun t => (buf.getD (o + (lo + t)) 0).toNat,
    hlo, chunk_windowAt, ← hlo, ← hm, bytesNat, List.map_map]
  rfl

end Eval

/-! ## Selecting a window -/

theorem runs_rejectUnless {p : Prop} [Decidable p] {ins : List F} {u : Unit} :
    (rejectUnless p : Circuit F F Unit).Runs ins u ↔ ins = [] ∧ p := by
  by_cases h : p <;> simp [rejectUnless, h]

theorem ensures_rejectUnless {p : Prop} [Decidable p] :
    (rejectUnless p : Circuit F F Unit).Ensures fun _ => p :=
  fun _ _ h => runs_rejectUnless.mp h

theorem admits_rejectUnless {p : Prop} [Decidable p] (h : p) :
    (rejectUnless p : Circuit F F Unit).Admits fun _ => True :=
  ⟨(), runs_rejectUnless.mpr ⟨rfl, h⟩, trivial⟩

section Window

variable {bits onehot : List (Boolean F)} {buf native : List UInt8} {candidates : List ℕ}
  {realOffset windowLen j : ℕ}

theorem yields_gated (who : Circuit.Prover) {b : Boolean F} {w : LC F F} {hint : Outcome F}
    (h : who = .honest → hint = .ok (w.eval * b.eval)) :
    (gated b w hint).Yields who fun term => term.val = w.eval * b.eval := by
  refine (AllocatedNum.yields_allocEqual ?_ h).mono fun term hterm => hterm.val_eq
  rw [Boolean.eval_lc, one_mul, mul_comm]

theorem yields_terms (who : Circuit.Prover) {α : Type} {hint : α × Boolean F → Outcome F} (w : α → LC F F)
    {xs : List α} (h : Boolean.ReadsAll onehot (oneHot xs.length j)) (hj : j < xs.length)
    (hhint : who = .honest → ∀ t ∈ xs.zip onehot, hint t = .ok ((w t.1).eval * t.2.eval)) :
    ((xs.zip onehot).mapM fun t => gated t.2 (w t.1) (hint t)).Yields who fun terms =>
      (LC.sum (terms.map (·.lc))).eval = (w xs[j]).eval := by
  have hterm : ∀ t ∈ xs.zip onehot, (gated t.2 (w t.1) (hint t)).Yields who fun term =>
      term.val = (w t.1).eval * t.2.eval := fun t ht => yields_gated who fun hwho => hhint hwho t ht
  refine (Circuit.Yields.mapM hterm).mono fun terms hterms => ?_
  simp only [LC.eval_sum, List.map_map, Function.comp_def, AllocatedNum.eval_lc]
  rw [Circuit.map_eq_of_forall₂ hterms]
  exact sum_zip_oneHot (fun x => (w x).eval) Boolean.eval (Boolean.readsAll_iff.mp h) hj

/-- A prover that need not be honest has no hints to give. -/
theorem computes_terms {α : Type} {hint : α × Boolean F → Outcome F} (w : α → LC F F) {xs : List α}
    (h : Boolean.ReadsAll onehot (oneHot xs.length j)) (hj : j < xs.length) :
    ((xs.zip onehot).mapM fun t => gated t.2 (w t.1) (hint t)).Computes fun terms =>
      (LC.sum (terms.map (·.lc))).eval = (w xs[j]).eval :=
  yields_terms .any w h hj nofun

theorem eval_offset (h : Boolean.ReadsAll onehot (oneHot candidates.length j))
    (hj : j < candidates.length) :
    (LC.sum ((candidates.zip onehot).map fun t => t.2.lc (t.1 : F))).eval =
      (candidates[j] : F) := by
  have hsum := sum_zip_oneHot (fun x : ℕ => (x : F)) Boolean.eval (Boolean.readsAll_iff.mp h) hj
  simpa [Function.comp_def] using hsum

theorem computes_selectPack (hb : Boolean.ReadsAll bits (bytesBits buf))
    (hlen : native.length = buf.length)
    (h : Boolean.ReadsAll onehot (oneHot candidates.length j)) (hj : j < candidates.length)
    (p : ℕ) :
    (selectPack bits native candidates realOffset windowLen onehot p).Computes fun out =>
      out.val = ((bytesNat (((windowAt buf candidates[j] windowLen).drop
        (p * bytesPerPack)).take bytesPerPack) : ℕ) : F) := by
  have heval := eval_packAt hb candidates[j] windowLen p
  unfold selectPack
  rw [hlen]
  constructor
  · refine AllocatedNum.ensures_alloc.bind fun out _ => ?_
    refine (computes_terms (fun cand => packAt bits cand windowLen buf.length p) h hj).sound.bind
      fun terms ht => ?_
    refine .require_bind fun heq => Circuit.ensures_pure.mpr ?_
    rw [← heval, ← ht]
    simpa [eq_comm] using heq
  · refine (AllocatedNum.admits_alloc (packAt bits candidates[j] windowLen buf.length p).eval).bind
      fun out ho => ?_
    refine (computes_terms (fun cand => packAt bits cand windowLen buf.length p) h hj).complete.bind
      fun terms ht => ?_
    exact .require_bind (by rw [ht]; simp [ho]) (Circuit.admits_pure.mpr (by rw [ho, heval]))

theorem shows_of_selectPack {packs : List (AllocatedNum F F)} {offset : LC F F}
    (h : Boolean.ReadsAll onehot (oneHot candidates.length j)) (hj : j < candidates.length)
    (ho : offset = LC.sum ((candidates.zip onehot).map fun t => t.2.lc (t.1 : F)))
    (hp : List.Forall₂ (fun p out => out.val = ((bytesNat (((windowAt buf candidates[j]
      windowLen).drop (p * bytesPerPack)).take bytesPerPack) : ℕ) : F))
      (List.range (packCount windowLen)) packs) :
    (SelectedWindow.mk packs offset).Shows candidates[j] (windowAt buf candidates[j] windowLen) := by
  refine ⟨by rw [ho]; exact eval_offset h hj, ?_⟩
  change packs.map (·.val) = _
  rw [Circuit.map_eq_of_forall₂ hp]
  simp [packBytes, Function.comp_def]

theorem ensures_selected {p : Prop} [Decidable p] (hb : Boolean.ReadsAll bits (bytesBits buf))
    (hlen : native.length = buf.length) (h : Boolean.ReadsAll onehot (oneHot candidates.length j))
    (hj : j < candidates.length) :
    (do
      .assert p
      let packs ← (List.range (packCount windowLen)).mapM
        (selectPack bits native candidates realOffset windowLen onehot)
      let offset := .sum ((candidates.zip onehot).map fun t => t.2.lc (t.1 : F))
      pure { packs, offset } : Circuit F F (SelectedWindow F F)).Ensures
      (·.Shows candidates[j] (windowAt buf candidates[j] windowLen)) := by
  refine Circuit.ensures_assert.bind fun _ _ => ?_
  refine (Circuit.Computes.mapM fun p _ =>
    computes_selectPack hb hlen h hj p).sound.bind fun packs hp => Circuit.ensures_pure.mpr ?_
  exact shows_of_selectPack h hj rfl hp

/-- A selected window is the one at some candidate; synthesis rejects an honest offset that is
none of them. -/
theorem ensures_selectWindow [LargeChar F] (hb : Boolean.ReadsAll bits (bytesBits buf))
    (hlen : native.length = buf.length) (hcand : candidates.length < 2 ^ 255) :
    (selectWindow bits native candidates realOffset windowLen).Ensures fun window =>
      realOffset ∈ candidates ∧ ∃ o ∈ candidates, window.Shows o (windowAt buf o windowLen) := by
  unfold selectWindow
  refine ensures_rejectUnless.bind fun _ hreal => (ensures_allocOneHot hcand).bind fun onehot h => ?_
  obtain ⟨j, hj, h⟩ := h
  refine (ensures_selected hb hlen h hj).mono fun window hw => ?_
  exact ⟨hreal, candidates[j], List.getElem_mem hj, hw⟩

/-- Every candidate can be selected. -/
theorem admits_selectWindow {o : ℕ} (hb : Boolean.ReadsAll bits (bytesBits buf))
    (hlen : native.length = buf.length) (hreal : realOffset ∈ candidates) (ho : o ∈ candidates) :
    (selectWindow bits native candidates realOffset windowLen).Admits
      (·.Shows o (windowAt buf o windowLen)) := by
  obtain ⟨j, hj, rfl⟩ := List.mem_iff_getElem.mp ho
  have hbits : bits.length = 8 * buf.length := by rw [hb.length_eq, length_bytesBits]
  unfold selectWindow
  refine (admits_rejectUnless hreal).bind fun _ _ => ?_
  refine (admits_allocOneHot hreal hj).bind fun onehot h => ?_
  refine (Circuit.admits_assert fun cand _ i _ hi => by omega).bind fun _ _ => ?_
  refine (Circuit.Computes.mapM fun p _ =>
    computes_selectPack hb hlen h hj p).complete.bind fun packs hp => Circuit.admits_pure.mpr ?_
  exact shows_of_selectPack h hj rfl hp

end Window

/-! ## Unpacking a window -/

theorem eval_recomposed {bs : List (Boolean F)} {xs : List Bool} {n : ℕ}
    (h : Boolean.ReadsAll bs xs) (hlen : xs.length = 8 * n) :
    (LC.sum (bs.zipIdx.map fun t =>
      t.1.lc ((256 : F) ^ (n - 1 - t.2 / 8) * 2 ^ (7 - t.2 % 8)))).eval =
        ((beBits xs : ℕ) : F) := by
  rw [Boolean.eval_sum_zipIdx h fun k => (256 : F) ^ (n - 1 - k / 8) * 2 ^ (7 - k % 8),
    ← sum_zipIdx_beBits]
  congr 1
  refine List.map_congr_left fun t ht => ?_
  have hlt : t.2 < 8 * n := by
    have := List.snd_lt_of_mem_zipIdx ht
    omega
  rw [show (256 : F) = 2 ^ 8 by norm_num, ← pow_mul, ← pow_add, hlen,
    show 8 * (n - 1 - t.2 / 8) + (7 - t.2 % 8) = 8 * n - 1 - t.2 by omega]

theorem two_pow_le {n k : ℕ} (h : n ≤ k) : 2 ^ n ≤ 2 ^ k := Nat.pow_le_pow_right (by decide) h

theorem flatten_chunks (w : List UInt8) :
    ((List.range (packCount w.length)).map fun p =>
      (w.drop (p * bytesPerPack)).take bytesPerPack).flatten = w := by
  suffices h : ∀ (n : ℕ) (w : List UInt8), w.length ≤ n → ((List.range (packCount w.length)).map
      fun p => (w.drop (p * bytesPerPack)).take bytesPerPack).flatten = w from h w.length w le_rfl
  intro n
  induction n with
  | zero =>
    intro w hw
    obtain rfl : w = [] := List.eq_nil_of_length_eq_zero (by omega)
    rfl
  | succ n ih =>
    intro w hw
    rcases Nat.eq_zero_or_pos w.length with h0 | h0
    · obtain rfl : w = [] := List.eq_nil_of_length_eq_zero h0
      rfl
    · have hcount : packCount w.length = packCount (w.drop bytesPerPack).length + 1 := by
        simp only [packCount, List.length_drop, bytesPerPack]
        omega
      have hmap : ((List.range (packCount (w.drop bytesPerPack).length)).map
          ((fun p => (w.drop (p * bytesPerPack)).take bytesPerPack) ∘ Nat.succ)) =
          (List.range (packCount (w.drop bytesPerPack).length)).map fun p =>
            ((w.drop bytesPerPack).drop (p * bytesPerPack)).take bytesPerPack := by
        refine List.map_congr_left fun p _ => ?_
        simp only [Function.comp_apply, List.drop_drop]
        rw [show p.succ * bytesPerPack = bytesPerPack + p * bytesPerPack by
          simp [Nat.succ_mul, add_comm]]
      have ihw := ih (w.drop bytesPerPack) (by simp [bytesPerPack]; omega)
      rw [hcount, List.range_succ_eq_map, List.map_cons, List.map_map, hmap, List.flatten_cons, ihw]
      simp

theorem bytesBits_flatten (ws : List (List UInt8)) :
    bytesBits ws.flatten = (ws.map bytesBits).flatten := by
  induction ws with
  | nil => rfl
  | cons w ws ih => simp [bytesBits_append, ih]

theorem map_chunks_zipIdx {α : Type} {packs : List α} {w : List UInt8} (hlen : packs.length = packCount w.length) :
    packs.zipIdx.map (fun t => bytesBits ((w.drop (t.2 * bytesPerPack)).take bytesPerPack)) =
      ((List.range (packCount w.length)).map fun p => (w.drop (p * bytesPerPack)).take bytesPerPack).map bytesBits := by
  rw [List.map_map, ← hlen, List.range_eq_range', ← List.zipIdx_map_snd 0 packs, List.map_map]
  rfl

section Unpack

variable [LargeChar F] [ToRepr F]

theorem computes_unpackPack {pack : AllocatedNum F F} {w : List UInt8}
    (hval : pack.val = ((bytesNat w : ℕ) : F)) (hlen : w.length ≤ 16) :
    (unpackPack pack w.length).Computes (Boolean.ReadsAll · (bytesBits w)) := by
  have h255 : ∀ xs : List Bool, xs.length = 8 * w.length → beBits xs < 2 ^ 255 := fun xs hx =>
    lt_of_lt_of_le (beBits_lt xs) (two_pow_le (by omega))
  unfold unpackPack
  constructor
  · refine Boolean.ensures_allocBits.bind fun bs hbs => .require_bind fun h => ?_
    obtain ⟨xs, hxs, hr⟩ := hbs
    rw [List.length_range] at hxs
    rw [eval_recomposed hr hxs, LC.eval_const, mul_one, AllocatedNum.eval_lc, hval,
      ← beBits_bytesBits] at h
    have heq := LargeChar.natCast_inj (h255 xs hxs) (h255 _ (by simp)) h
    have hx : xs = bytesBits w := beBits_inj (by simp [hxs]) heq
    exact Circuit.ensures_pure.mpr (hx ▸ hr)
  · refine (Boolean.admits_allocBits (bytesBits w) (by simp)).bind fun bs hbs => ?_
    refine .require_bind ?_ (Circuit.admits_pure.mpr hbs)
    rw [eval_recomposed hbs (by simp), LC.eval_const, mul_one, AllocatedNum.eval_lc, hval,
      beBits_bytesBits]

theorem computes_unpackWindowBits {window : SelectedWindow F F} {o : ℕ} {w : List UInt8}
    (h : window.Shows o w) :
    (unpackWindowBits window w.length).Computes (Boolean.ReadsAll · (bytesBits w)) := by
  have hlen : window.packs.length = packCount w.length := by
    simpa using congrArg List.length h.packs_eq
  have hstep : ∀ t ∈ window.packs.zipIdx, (do
      Circuit.assert (t.2 * bytesPerPack ≤ w.length)
      unpackPack t.1 (min (w.length - t.2 * bytesPerPack) bytesPerPack)).Computes fun bs =>
        Boolean.ReadsAll bs (bytesBits ((w.drop (t.2 * bytesPerPack)).take bytesPerPack)) := by
    rintro ⟨pack, p⟩ ht
    have hp : p < window.packs.length := List.snd_lt_of_mem_zipIdx ht
    have hpack : window.packs[p] = pack := (List.mem_zipIdx' ht).2 ▸ rfl
    have hle : p * bytesPerPack ≤ w.length := by
      rw [hlen, packCount] at hp
      simp only [bytesPerPack]
      omega
    have hval : pack.val =
        ((bytesNat ((w.drop (p * bytesPerPack)).take bytesPerPack) : ℕ) : F) := by
      have hget := congrArg (fun l => l[p]?) h.packs_eq
      simpa [hp, hpack, packBytes, hlen ▸ hp] using hget
    have hn : min (w.length - p * bytesPerPack) bytesPerPack =
        ((w.drop (p * bytesPerPack)).take bytesPerPack).length := by
      simp [min_comm]
    have hc := computes_unpackPack hval (by simp [bytesPerPack])
    rw [← hn] at hc
    exact ⟨Circuit.ensures_assert.bind fun _ _ => hc.sound,
      (Circuit.admits_assert hle).bind fun _ _ => hc.complete⟩
  refine (Circuit.Computes.mapM hstep).bind fun out hout => Circuit.computes_pure.mpr ?_
  rw [← flatten_chunks w, bytesBits_flatten, ← map_chunks_zipIdx hlen]
  exact Boolean.ReadsAll.flatten hout

end Unpack

theorem bytesNat_chunk_lt (w : List UInt8) (p : ℕ) :
    bytesNat ((w.drop (p * bytesPerPack)).take bytesPerPack) < 2 ^ 255 := by
  refine lt_of_lt_of_le (bytesNat_lt _) ?_
  rw [show 256 = 2 ^ 8 by norm_num, ← pow_mul]
  exact two_pow_le (by simp [bytesPerPack]; omega)

theorem packBytes_inj [LargeChar F] {w w' : List UInt8} (hlen : w.length = w'.length)
    (h : (packBytes w).map (Nat.cast : ℕ → F) = (packBytes w').map (Nat.cast : ℕ → F)) :
    w = w' := by
  rw [← flatten_chunks w, ← flatten_chunks w', ← hlen]
  congr 1
  refine List.map_congr_left fun p hp => ?_
  have hp : p < packCount w.length := List.mem_range.mp hp
  have hget := congrArg (fun l => l[p]?) h
  simp only [packBytes, List.getElem?_map, List.getElem?_range hp,
    List.getElem?_range (hlen ▸ hp), Option.map_some, Option.some.injEq] at hget
  exact bytesNat_inj (by simp [hlen])
    (LargeChar.natCast_inj (bytesNat_chunk_lt w p) (bytesNat_chunk_lt w' p) hget)

/-! ## Literal anchors -/

section Anchor

variable {window : SelectedWindow F F} {o : ℕ} {w expected : List UInt8}

theorem ensures_enforceWindowEquals [LargeChar F] (h : window.Shows o w)
    (hlen : w.length = expected.length) :
    (enforceWindowEquals window expected).Ensures fun _ => w = expected := by
  unfold enforceWindowEquals
  refine ensures_rejectUnless.bind fun _ hp => ?_
  have hstep : ∀ t ∈ window.packs.zip (packConstant expected : List F),
      (Circuit.require t.1.lc (.const 1) (.const t.2)).Ensures fun _ => t.1.val = t.2 := by
    intro t _
    exact Circuit.ensures_require.mono fun _ h => by simpa using h
  refine (Circuit.Ensures.forM hstep).mono fun _ hall => ?_
  refine packBytes_inj (F := F) hlen ?_
  rw [← h.packs_eq, ← packConstant_eq]
  refine List.ext_getElem (by simp [hp]) fun i h1 h2 => ?_
  have hi : i < (window.packs.zip (packConstant expected : List F)).length := by
    simp only [List.length_map] at h1
    simp [h1, h2]
  simpa using hall _ (List.getElem_mem hi)

theorem admits_enforceWindowEquals (h : window.Shows o expected) :
    (enforceWindowEquals window expected).Admits fun _ => True := by
  unfold enforceWindowEquals
  have hp : (packConstant expected : List F) = window.packs.map (·.val) := by
    rw [h.packs_eq, packConstant_eq]
  refine (admits_rejectUnless (by simp [hp])).bind fun _ _ => .forM fun t ht => ?_
  refine Circuit.admits_require ?_
  rw [hp] at ht
  obtain ⟨i, hi, rfl⟩ := List.mem_iff_getElem.mp ht
  simp

variable {bits : List (Boolean F)} {buf native : List UInt8} {realOffset expectedPacks : ℕ}

theorem mem_anchorOffsets {o n : ℕ} : o ∈ anchorOffsets n ↔ o + maxAnchorWindow ≤ n := by
  unfold anchorOffsets windowOffsets
  split
  · simp; omega
  · simp; omega

theorem mem_windowOffsets {o n len : ℕ} : o ∈ windowOffsets n len ↔ o + len ≤ n := by
  unfold windowOffsets
  split
  · simp; omega
  · simp; omega

theorem length_windowOffsets_le (n len : ℕ) : (windowOffsets n len).length ≤ n + 1 := by
  unfold windowOffsets
  split <;> simp

theorem ensures_selectAnchor [LargeChar F] (hb : Boolean.ReadsAll bits (bytesBits buf))
    (hlen : native.length = buf.length) (hbuf : buf.length < 2 ^ 64) :
    (selectAnchor bits native realOffset expected expectedPacks).Ensures fun window =>
      ∃ o, o + maxAnchorWindow ≤ buf.length ∧ windowAt buf o expected.length = expected ∧
        window.Shows o expected := by
  unfold selectAnchor
  refine ensures_rejectUnless.bind fun _ _ => ?_
  have hcand : (anchorOffsets native.length).length < 2 ^ 255 :=
    lt_of_le_of_lt (length_windowOffsets_le _ _) (by rw [hlen]; omega)
  refine (ensures_selectWindow hb hlen hcand).bind fun window hw => ?_
  obtain ⟨-, o, ho, hw⟩ := hw
  refine (ensures_enforceWindowEquals hw (by simp)).bind fun _ heq => Circuit.ensures_pure.mpr ?_
  rw [heq] at hw
  exact ⟨o, by rw [← hlen]; exact mem_anchorOffsets.mp ho, heq, hw⟩

theorem admits_selectAnchor (hb : Boolean.ReadsAll bits (bytesBits buf))
    (hlen : native.length = buf.length) (hreal : realOffset + maxAnchorWindow ≤ native.length)
    (ho : o + maxAnchorWindow ≤ buf.length) (hw : windowAt buf o expected.length = expected)
    (hp : packCount expected.length = expectedPacks) :
    (selectAnchor bits native realOffset expected expectedPacks).Admits (·.Shows o expected) := by
  unfold selectAnchor
  refine (admits_rejectUnless hp).bind fun _ _ => ?_
  have ho' : o ∈ anchorOffsets native.length := mem_anchorOffsets.mpr (by omega)
  refine (admits_selectWindow hb hlen (mem_anchorOffsets.mpr hreal) ho').bind fun window hs => ?_
  rw [hw] at hs
  exact (admits_enforceWindowEquals hs).bind fun _ _ => Circuit.admits_pure.mpr hs

end Anchor

/-! ## Differences -/

theorem runs_enforceGe {value floor : LC F F} {d n : ℕ} {ins : List F} {u : Unit} :
    (enforceGe value floor d n).Runs ins u ↔
      ins = [] ∧ ∃ k : ℕ, k < 2 ^ n ∧ value.eval = floor.eval + (k : F) := by
  constructor
  · have hens : (enforceGe value floor d n).Ensures fun _ =>
        ∃ k : ℕ, k < 2 ^ n ∧ value.eval = floor.eval + (k : F) := by
      refine Boolean.ensures_allocBits.bind fun bs hbs => ?_
      obtain ⟨xs, hxs, hr⟩ := hbs
      refine Circuit.ensures_require.mono fun _ heq => ⟨leBits xs, ?_, ?_⟩
      · simpa [hxs] using leBits_lt xs
      · rw [Boolean.eval_packLE hr, LC.eval_sub, LC.eval_const, mul_one] at heq
        linear_combination heq
    exact hens ins u
  · rintro ⟨rfl, k, hk, heq⟩
    have hadm : (enforceGe value floor d n).Admits fun _ => True := by
      refine (Boolean.admits_allocBits (toLEBits n k) (by simp)).bind fun bs hbs => ?_
      refine Circuit.admits_require ?_
      rw [Boolean.eval_packLE hbs, leBits_toLEBits hk, LC.eval_sub, LC.eval_const, mul_one, heq]
      ring
    exact hadm.choose_spec.1

/-! ## Counts and masks -/

section Count

variable {n real : ℕ}

theorem eval_countLc {sel : List (Boolean F)} {j : ℕ} (h : Boolean.ReadsAll sel (oneHot n j))
    (hj : j < n) :
    (LC.sum (sel.zipIdx.map fun t => t.1.lc ((t.2 + 1 : ℕ) : F))).eval = ((j + 1 : ℕ) : F) := by
  rw [← sum_zipIdx_oneHot (fun k => ((k + 1 : ℕ) : F)) hj, ← Boolean.readsAll_iff.mp h,
    LC.eval_sum]
  simp only [List.zipIdx_map, List.map_map, Function.comp_def, Prod.map, Boolean.eval_lc, id]

theorem ensures_allocCount [LargeChar F] (hn : n < 2 ^ 255) :
    (allocCount n real : Circuit F F _).Ensures fun t =>
      ∃ j < n, Boolean.ReadsAll t.1 (oneHot n j) ∧ t.2.val = ((j + 1 : ℕ) : F) := by
  unfold allocCount
  refine Boolean.ensures_allocBits.bind fun sel hsel => .require_bind fun hsum => ?_
  obtain ⟨xs, hxs, hr⟩ := hsel
  rw [List.length_range] at hxs
  rw [eval_sum_sel hr, LC.eval_const, mul_one] at hsum
  obtain ⟨j, hj, hoh⟩ := exists_oneHot_of_sum (by rw [hxs]; exact hn) hsum
  rw [hxs] at hj hoh
  rw [hoh] at hr
  refine AllocatedNum.ensures_alloc.bind fun count _ => .require_bind fun hc => ?_
  rw [eval_countLc hr hj, LC.eval_const, mul_one, AllocatedNum.eval_lc] at hc
  exact Circuit.ensures_pure.mpr ⟨j, hj, hr, hc.symm⟩

theorem admits_allocCount {j : ℕ} (hj : j < n) :
    (allocCount n real : Circuit F F _).Admits fun t =>
      Boolean.ReadsAll t.1 (oneHot n j) ∧ t.2.val = ((j + 1 : ℕ) : F) := by
  unfold allocCount
  refine (Boolean.admits_allocBits (oneHot n j) (by simp)).bind fun sel hr => ?_
  refine .require_bind (by rw [eval_sum_sel hr, sum_oneHot hj]; simp) ?_
  refine (AllocatedNum.admits_alloc ((j + 1 : ℕ) : F)).bind fun count hc => ?_
  refine .require_bind ?_ (Circuit.admits_pure.mpr ⟨hr, hc⟩)
  rw [eval_countLc hr hj, LC.eval_const, mul_one, AllocatedNum.eval_lc, hc]

end Count

/-- The first `L` bytes of a window, zeros after. -/
def maskBytes (L : ℕ) (w : List UInt8) : List UInt8 := w.mapIdx fun j b => if j < L then b else 0

@[simp] theorem length_maskBytes (L : ℕ) (w : List UInt8) : (maskBytes L w).length = w.length := by
  simp [maskBytes]

theorem getD_maskBytes (L : ℕ) (w : List UInt8) (j : ℕ) :
    (maskBytes L w).getD j 0 = if j < L then w.getD j 0 else 0 := by
  simp only [maskBytes, List.getD_eq_getElem?_getD, List.getElem?_mapIdx]
  rcases Nat.lt_or_ge j w.length with h | h
  · simp [h]
  · simp [h]

section Mask

variable {windowBits lenSel : List (Boolean F)} {w : List UInt8} {l n : ℕ}

theorem computes_maskByte (hb : Boolean.ReadsAll windowBits (bytesBits w))
    (hs : Boolean.ReadsAll lenSel (oneHot n l)) (hl : l < n) (j : ℕ) (value : UInt8) :
    (maskByte windowBits lenSel j value).Computes fun out =>
      out.val = (((maskBytes (l + 1) w).getD j 0).toNat : F) := by
  have heval : (byteLc windowBits j (1 : F)).eval *
      (sumWhere (fun i => i + 1 > j) lenSel : LC F F).eval =
        (((maskBytes (l + 1) w).getD j 0).toNat : F) := by
    rw [eval_byteLc hb, eval_sumWhere _ hs hl, getD_maskBytes, one_mul]
    by_cases h : j < l + 1 <;> simp [ofBool, h]
  constructor
  · refine AllocatedNum.ensures_alloc.bind fun out _ => .require_bind fun h => ?_
    rw [heval, AllocatedNum.eval_lc] at h
    exact Circuit.ensures_pure.mpr h.symm
  · refine (AllocatedNum.admits_alloc (((maskBytes (l + 1) w).getD j 0).toNat : F)).bind
      fun out ho => .require_bind ?_ (Circuit.admits_pure.mpr ho)
    rw [heval, AllocatedNum.eval_lc, ho]

theorem computes_repack {chunk : List (AllocatedNum F F)} {ws : List UInt8}
    (h : chunk.map (·.val) = ws.map fun b => (b.toNat : F)) :
    (repack chunk).Computes fun out => out.val = ((bytesNat ws : ℕ) : F) := by
  have hlen : chunk.length = ws.length := by simpa using congrArg List.length h
  have heval : (LC.sum (chunk.zipIdx.map fun t =>
      LC.term ((256 : F) ^ (chunk.length - 1 - t.2)) t.1.var)).eval = ((bytesNat ws : ℕ) : F) := by
    have hz : ((chunk.map (·.val)).zipIdx.map fun t =>
        (256 : F) ^ (chunk.length - 1 - t.2) * t.1).sum = ((bytesNat ws : ℕ) : F) := by
      rw [sum_zipIdx_eq (fun v i => (256 : F) ^ (chunk.length - 1 - i) * v) 0, h, bytesNat]
      have hr := sum_range_pow_mul (R := F) 256 ws.length fun i => (ws.getD i 0).toNat
      have hmap : ((List.range ws.length).map fun i => (ws.getD i 0).toNat) =
          ws.map UInt8.toNat := by
        refine List.ext_getElem (by simp) fun i h1 h2 => ?_
        have hi : i < ws.length := by simpa using h1
        simp [hi]
      rw [hmap] at hr
      rw [← hr, List.length_map, hlen]
      congr 1
      refine List.map_congr_left fun i hi => ?_
      have hi : i < ws.length := List.mem_range.mp hi
      simp [hi]
    rw [← hz, LC.eval_sum]
    simp only [List.zipIdx_map, List.map_map, Function.comp_def, Prod.map, LC.eval_term, id]
  constructor
  · refine AllocatedNum.ensures_alloc.bind fun out _ => .require_bind fun hr => ?_
    rw [heval, LC.eval_const, mul_one, AllocatedNum.eval_lc] at hr
    exact Circuit.ensures_pure.mpr hr.symm
  · refine (AllocatedNum.admits_alloc ((bytesNat ws : ℕ) : F)).bind fun out ho =>
      .require_bind ?_ (Circuit.admits_pure.mpr ho)
    rw [heval, LC.eval_const, mul_one, AllocatedNum.eval_lc, ho]

end Mask

/-! ## Masked anchors -/

/-- The packs are those of the `L` bytes at `o`, with zeros after. -/
def MaskedPacks (buf : List UInt8) (o L : ℕ) (packs : List (AllocatedNum F F)) : Prop :=
  packs.map (·.val) =
    (packBytes (maskBytes L (windowAt buf o anchorTextWindow))).map (Nat.cast : ℕ → F)

/-- The anchor publishes the `L` bytes at `o`. -/
structure MaskedAt (buf : List UInt8) (o L : ℕ) (a : MaskedAnchor F F) : Prop where
  packs_eq : MaskedPacks buf o L a.packs
  prefix_eq : a.prefixLen.val = (L : F)
  offset_eq : a.window.offset.eval = (o : F)

section Masked

variable {maskedBytes : List (AllocatedNum F F)} {w : List UInt8}

theorem map_val_of_masked
    (h : List.Forall₂ (fun j out => out.val = ((w.getD j 0).toNat : F))
      (List.range w.length) maskedBytes) :
    maskedBytes.map (·.val) = w.map fun b => (b.toNat : F) := by
  rw [Circuit.map_eq_of_forall₂ h]
  refine List.ext_getElem (by simp) fun i h1 h2 => ?_
  have hi : i < w.length := by simpa using h1
  simp [hi]

theorem computes_repackAll (hw : w.length = anchorTextWindow)
    (h : maskedBytes.map (·.val) = w.map fun b => (b.toNat : F)) :
    ((List.range anchorTextPacks).mapM fun p =>
      repack ((maskedBytes.drop (p * bytesPerPack)).take
        (min (anchorTextWindow - p * bytesPerPack) bytesPerPack))).Computes fun packs =>
      packs.map (·.val) = (packBytes w).map (Nat.cast : ℕ → F) := by
  have hstep : ∀ p ∈ List.range anchorTextPacks,
      (repack ((maskedBytes.drop (p * bytesPerPack)).take
        (min (anchorTextWindow - p * bytesPerPack) bytesPerPack))).Computes fun out =>
          out.val = ((bytesNat ((w.drop (p * bytesPerPack)).take bytesPerPack) : ℕ) : F) := by
    intro p _
    refine computes_repack ?_
    have htake : (w.drop (p * bytesPerPack)).take bytesPerPack =
        (w.drop (p * bytesPerPack)).take (min (anchorTextWindow - p * bytesPerPack) bytesPerPack) := by
      rw [← hw, ← List.length_drop, min_comm]
      exact List.take_eq_take_min ..
    rw [htake, List.map_take, List.map_drop, h, List.map_take, List.map_drop]
  refine (Circuit.Computes.mapM hstep).mono fun packs hp => ?_
  rw [Circuit.map_eq_of_forall₂ hp]
  simp [packBytes, anchorTextPacks, hw, Function.comp_def]

variable [LargeChar F] [ToRepr F] {bits : List (Boolean F)} {buf native : List UInt8}
  {realOffset prefixLen o L : ℕ}

/-- The published prefix is `L` bytes at some anchor offset; synthesis rejects honest values
that do not fit. -/
theorem ensures_maskedTextAnchor (hb : Boolean.ReadsAll bits (bytesBits buf))
    (hlen : native.length = buf.length) (hbuf : buf.length < 2 ^ 64) :
    (maskedTextAnchor bits native realOffset prefixLen).Ensures fun a =>
      (realOffset + maxAnchorWindow ≤ native.length ∧ 1 ≤ prefixLen ∧
        prefixLen ≤ anchorTextWindow) ∧
      ∃ o L, o + maxAnchorWindow ≤ buf.length ∧ 1 ≤ L ∧ L ≤ anchorTextWindow ∧
        MaskedAt buf o L a := by
  unfold maskedTextAnchor
  refine ensures_rejectUnless.bind fun _ hpre => ?_
  have hcand : (anchorOffsets native.length).length < 2 ^ 255 :=
    lt_of_le_of_lt (length_windowOffsets_le _ _) (by rw [hlen]; omega)
  refine (ensures_selectWindow hb hlen hcand).bind fun window hw => ?_
  obtain ⟨hreal, o, ho, hw⟩ := hw
  have hunpack := computes_unpackWindowBits hw
  rw [length_windowAt] at hunpack
  refine hunpack.sound.bind fun windowBits hbits => ?_
  refine (ensures_allocCount (by decide)).bind fun t ht => ?_
  obtain ⟨lenSel, pref⟩ := t
  obtain ⟨l, hl, hsel, hpref⟩ := ht
  refine (Circuit.Computes.mapM fun j _ =>
    computes_maskByte hbits hsel hl j _).sound.bind fun maskedBytes hmask => ?_
  have hmap := map_val_of_masked (w := maskBytes (l + 1) (windowAt buf o anchorTextWindow))
    (by rw [length_maskBytes, length_windowAt]; exact hmask)
  refine (computes_repackAll (by simp) hmap).sound.bind fun packs hpacks => ?_
  refine Circuit.ensures_pure.mpr ⟨⟨mem_anchorOffsets.mp hreal, by omega, by omega⟩,
    o, l + 1, ?_, by omega, hl, hpacks, hpref, hw.offset_eq⟩
  rw [← hlen]
  exact mem_anchorOffsets.mp ho

/-- Every anchor offset and every prefix length can be published. -/
theorem admits_maskedTextAnchor (hb : Boolean.ReadsAll bits (bytesBits buf))
    (hlen : native.length = buf.length) (hreal : realOffset + maxAnchorWindow ≤ native.length)
    (hpre : 1 ≤ prefixLen ∧ prefixLen ≤ anchorTextWindow)
    (ho : o + maxAnchorWindow ≤ buf.length) (hL : 1 ≤ L ∧ L ≤ anchorTextWindow) :
    (maskedTextAnchor bits native realOffset prefixLen).Admits (MaskedAt buf o L) := by
  unfold maskedTextAnchor
  refine (admits_rejectUnless (by omega)).bind fun _ _ => ?_
  have ho' : o ∈ anchorOffsets native.length := mem_anchorOffsets.mpr (by omega)
  refine (admits_selectWindow hb hlen (mem_anchorOffsets.mpr hreal) ho').bind fun window hw => ?_
  have hunpack := computes_unpackWindowBits hw
  rw [length_windowAt] at hunpack
  refine hunpack.complete.bind fun windowBits hbits => ?_
  have hl : L - 1 < anchorTextWindow := by omega
  refine (admits_allocCount hl).bind fun t ht => ?_
  obtain ⟨lenSel, pref⟩ := t
  obtain ⟨hsel, hpref⟩ := ht
  rw [show L - 1 + 1 = L by omega] at hpref
  refine (Circuit.Computes.mapM fun j _ =>
    computes_maskByte hbits hsel hl j _).complete.bind fun maskedBytes hmask => ?_
  rw [show L - 1 + 1 = L by omega] at hmask
  have hmap := map_val_of_masked (w := maskBytes L (windowAt buf o anchorTextWindow))
    (by rw [length_maskBytes, length_windowAt]; exact hmask)
  refine (computes_repackAll (by simp) hmap).complete.bind fun packs hpacks => ?_
  exact Circuit.admits_pure.mpr ⟨hpacks, hpref, hw.offset_eq⟩

end Masked

end ZkCredVega
