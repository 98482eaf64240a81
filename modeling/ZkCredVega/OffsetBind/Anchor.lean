import ZkCredVega.OffsetBind.Namespace

/-!
# What a masked anchor publishes

A masked anchor publishes a length and three packs. Every satisfying assignment publishes the
first `L` bytes at some offset and no byte after them: two anchors publish the same values
exactly when their prefixes are the same.
-/

namespace ZkCredVega

open Circuits

variable {F : Type} [Field F]

/-- The window of a prefix: zeros after it. -/
def prefixWindow (bytes : List UInt8) : List UInt8 := bytes ++ List.replicate (anchorTextWindow - bytes.length) 0

/-- The packs of a prefix, of 16, 16 and 8 bytes. -/
def prefixPacks (bytes : List UInt8) : List ℕ :=
  [bytesNat ((prefixWindow bytes).take 16), bytesNat (((prefixWindow bytes).drop 16).take 16),
    bytesNat (((prefixWindow bytes).drop 32).take 8)]

/-- The values that an anchor publishes: its packs and its length. -/
def publishedAnchor (a : List (AllocatedNum F F) × AllocatedNum F F) : List F × F :=
  (a.1.map (·.val), a.2.val)

def publishedPrefix (bytes : List UInt8) : List F × F :=
  ((prefixPacks bytes).map (Nat.cast : ℕ → F), ((bytes.length : ℕ) : F))

theorem length_prefixWindow {bytes : List UInt8} (h : bytes.length ≤ anchorTextWindow) :
    (prefixWindow bytes).length = anchorTextWindow := by
  rw [prefixWindow, List.length_append, List.length_replicate]
  omega

theorem packBytes_prefixWindow {bytes : List UInt8} (h : bytes.length ≤ anchorTextWindow) :
    packBytes (prefixWindow bytes) = prefixPacks bytes := by
  have hlast : ((prefixWindow bytes).drop 32).take 16 = ((prefixWindow bytes).drop 32).take 8 := by
    have hdrop : ((prefixWindow bytes).drop 32).length = 8 := by
      rw [List.length_drop, length_prefixWindow h]
      rfl
    rw [List.take_of_length_le (by omega), List.take_of_length_le (by omega)]
  have hrange : List.range (packCount anchorTextWindow) = [0, 1, 2] := by decide
  rw [packBytes, length_prefixWindow h, hrange, prefixPacks, ← hlast]
  rfl

/-- Inside the buffer a masked window is the window of a slice. -/
theorem maskBytes_windowAt {buf : List UInt8} {o L : ℕ} (hL : L ≤ anchorTextWindow) (hin : o + L ≤ buf.length) :
    maskBytes L (windowAt buf o anchorTextWindow) = prefixWindow ((buf.drop o).take L) := by
  have hlen : ((buf.drop o).take L).length = L := by
    rw [List.length_take, List.length_drop]
    omega
  refine List.ext_getElem ?_ fun i h1 h2 => ?_
  · rw [length_maskBytes, length_windowAt, length_prefixWindow (by omega)]
  · have hi : i < anchorTextWindow := by
      rw [length_maskBytes, length_windowAt] at h1
      exact h1
    simp only [maskBytes, windowAt, prefixWindow, List.getElem_mapIdx, List.getElem_map, List.getElem_range,
      List.getD_eq_getElem?_getD]
    by_cases hcovered : i < L
    · have hbuf : o + i < buf.length := by omega
      rw [if_pos hcovered, List.getElem_append_left (by omega), List.getElem_take, List.getElem_drop,
        List.getElem?_eq_getElem hbuf]
      rfl
    · rw [if_neg hcovered, List.getElem_append_right (by omega), List.getElem_replicate]

theorem publishedPrefix_inj [LargeChar F] {bytes bytes' : List UInt8} (h : bytes.length ≤ anchorTextWindow)
    (h' : bytes'.length ≤ anchorTextWindow) (heq : (publishedPrefix bytes : List F × F) = publishedPrefix bytes') :
    bytes = bytes' := by
  have hsmall : anchorTextWindow < 2 ^ 255 := by decide
  obtain ⟨hpacks, hlength⟩ := Prod.ext_iff.mp heq
  have hlen : bytes.length = bytes'.length := LargeChar.natCast_inj (F := F) (by omega) (by omega) hlength
  have hwindow : prefixWindow bytes = prefixWindow bytes' := by
    apply packBytes_inj (F := F)
    · rw [length_prefixWindow h, length_prefixWindow h']
    · rw [packBytes_prefixWindow h, packBytes_prefixWindow h']
      exact hpacks
  exact List.append_inj_left hwindow hlen

section Anchor

variable [LargeChar F] [ToRepr F] {bits : List (Boolean F)} {buf native : List UInt8} {realOffset prefixLen : ℕ}

/-- The anchor publishes the slice of `L` bytes at `o`. -/
structure PublishesSlice (buf : List UInt8) (o L : ℕ) (a : List (AllocatedNum F F) × AllocatedNum F F) : Prop where
  one_le : 1 ≤ L
  le_window : L ≤ anchorTextWindow
  inside : o + L ≤ buf.length
  length_eq : a.2.val = (L : F)
  packs_eq : a.1.map (·.val) = (prefixPacks ((buf.drop o).take L)).map (Nat.cast : ℕ → F)

omit [LargeChar F] [ToRepr F] in
theorem PublishesSlice.length_slice {o L : ℕ} {a : List (AllocatedNum F F) × AllocatedNum F F}
    (h : PublishesSlice buf o L a) : ((buf.drop o).take L).length = L := by
  have hinside := h.inside
  rw [List.length_take, List.length_drop]
  omega

omit [LargeChar F] [ToRepr F] in
theorem PublishesSlice.published_eq {o L : ℕ} {a : List (AllocatedNum F F) × AllocatedNum F F}
    (h : PublishesSlice buf o L a) : publishedAnchor a = publishedPrefix ((buf.drop o).take L) := by
  rw [publishedAnchor, publishedPrefix, h.packs_eq, h.length_eq, h.length_slice]

theorem ensures_selectMaskedTextAnchor (hb : Boolean.ReadsAll bits (bytesBits buf))
    (hlen : native.length = buf.length) (hbuf : buf.length < 2 ^ 64) :
    (selectMaskedTextAnchor bits native realOffset prefixLen).Ensures fun a => ∃ o L, PublishesSlice buf o L a := by
  intro ins a hrun
  obtain ⟨m, hm, rfl⟩ := Circuit.runs_map.mp hrun
  obtain ⟨hins, -, o, L, ho, hL1, hL, hmask⟩ := ensures_maskedTextAnchor hb hlen hbuf ins m hm
  have hin : o + L ≤ buf.length := by
    have hwindows : anchorTextWindow ≤ maxAnchorWindow := by decide
    omega
  refine ⟨hins, o, L, hL1, hL, hin, hmask.prefix_eq, ?_⟩
  have hslice : ((buf.drop o).take L).length ≤ anchorTextWindow := le_trans (List.length_take_le _ _) hL
  rw [← packBytes_prefixWindow hslice, ← maskBytes_windowAt hL hin]
  exact hmask.packs_eq

/-- A masked anchor publishes the length and the packs of a slice of the buffer and nothing else: two anchors
publish the same values if and only if their slices are the same. -/
theorem selectMaskedTextAnchor_publishes {bits' : List (Boolean F)} {buf' native' : List UInt8}
    {realOffset' prefixLen' : ℕ} {ins ins' : List F} {a a' : List (AllocatedNum F F) × AllocatedNum F F}
    (hb : Boolean.ReadsAll bits (bytesBits buf)) (hlen : native.length = buf.length) (hbuf : buf.length < 2 ^ 64)
    (hrun : (selectMaskedTextAnchor bits native realOffset prefixLen).Runs ins a)
    (hb' : Boolean.ReadsAll bits' (bytesBits buf')) (hlen' : native'.length = buf'.length)
    (hbuf' : buf'.length < 2 ^ 64)
    (hrun' : (selectMaskedTextAnchor bits' native' realOffset' prefixLen').Runs ins' a') :
    ∃ o L o' L', PublishesSlice buf o L a ∧ PublishesSlice buf' o' L' a' ∧
      (publishedAnchor a = publishedAnchor a' ↔ (buf.drop o).take L = (buf'.drop o').take L') := by
  obtain ⟨-, o, L, h⟩ := ensures_selectMaskedTextAnchor hb hlen hbuf ins a hrun
  obtain ⟨-, o', L', h'⟩ := ensures_selectMaskedTextAnchor hb' hlen' hbuf' ins' a' hrun'
  refine ⟨o, L, o', L', h, h', ?_⟩
  rw [h.published_eq, h'.published_eq]
  constructor
  · intro heq
    exact publishedPrefix_inj (h.length_slice.trans_le h.le_window) (h'.length_slice.trans_le h'.le_window) heq
  · intro heq
    rw [heq]

theorem exists_runs_selectMaskedTextAnchor {o L : ℕ} (hb : Boolean.ReadsAll bits (bytesBits buf))
    (ho : o + maxAnchorWindow ≤ buf.length) (hL : 1 ≤ L ∧ L ≤ anchorTextWindow) :
    ∃ a, (selectMaskedTextAnchor bits buf o L).Runs [] a := by
  obtain ⟨m, hm, -⟩ := admits_maskedTextAnchor hb rfl ho hL ho hL
  exact ⟨_, Circuit.runs_map.mpr ⟨m, hm, rfl⟩⟩

end Anchor

/-- Two buffers of 48 bytes that agree on three of them. -/
def zerosAfter : List UInt8 := [1, 2, 3] ++ List.replicate 45 0

def onesAfter : List UInt8 := [1, 2, 3] ++ List.replicate 45 1

/-- Anchors of three bytes of both are there, and what they publish is their slices. -/
theorem selectMaskedTextAnchor_publishes_three : ∃ (a a' : List (AllocatedNum Scalar Scalar) × AllocatedNum Scalar Scalar)
    (o L o' L' : ℕ), (selectMaskedTextAnchor (constantBits zerosAfter) zerosAfter 0 3).Runs [] a ∧
      (selectMaskedTextAnchor (constantBits onesAfter) onesAfter 0 3).Runs [] a' ∧
      PublishesSlice zerosAfter o L a ∧ PublishesSlice onesAfter o' L' a' ∧
        (publishedAnchor a = publishedAnchor a' ↔ (zerosAfter.drop o).take L = (onesAfter.drop o').take L') := by
  have hzeros := readsAll_constantBits (F := Scalar) zerosAfter
  have hones := readsAll_constantBits (F := Scalar) onesAfter
  have hzerosLen : zerosAfter.length = 48 := by decide
  have honesLen : onesAfter.length = 48 := by decide
  obtain ⟨a, ha⟩ := exists_runs_selectMaskedTextAnchor (o := 0) (L := 3) hzeros (by rw [hzerosLen]; decide) (by decide)
  obtain ⟨a', ha'⟩ := exists_runs_selectMaskedTextAnchor (o := 0) (L := 3) hones (by rw [honesLen]; decide) (by decide)
  obtain ⟨o, L, o', L', h⟩ := selectMaskedTextAnchor_publishes hzeros rfl (by rw [hzerosLen]; decide) ha hones rfl
    (by rw [honesLen]; decide) ha'
  exact ⟨a, a', o, L, o', L', ha, ha', h⟩

end ZkCredVega
