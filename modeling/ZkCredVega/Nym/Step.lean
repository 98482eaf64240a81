import ZkCredVega.Nym.Presentation
import ZkCredVega.Nym.Window
import ZkCredVega.Sha256Var

/-!
# The step circuit

`step.rs` and the shared segment of `table.rs`: the instance at position `j` reads block `j`, the
state before it and the state after it from the table through a one-hot selector, and checks one
compression. Every layout has one compression per instance. A table built from blocks satisfies
all of its steps.
-/

namespace ZkCredVega.Nym

open Circuits

/-! ## The shared segment -/

/-- Chunk `c` of the table, counting from the first chunk of position 0. -/
def Table.chunkOf (t : Table) (c : ℕ) : List UInt8 :=
  ((t.blocks.getD (c / chunksPerBlock) []).drop (chunkBytes * (c % chunksPerBlock))).take chunkBytes

/-- Half `h` of a 32-byte state. -/
def halfOf (state : List UInt8) (h : ℕ) : List UInt8 := (state.drop (chunkBytes * h)).take chunkBytes

section Gadgets

variable {F V : Type} [Field F] [One V]

/-- For each position the chunks of its block and the halves of the state after it, then the halves of
the start state. -/
def Table.cellBytes (t : Table) : List (List UInt8) :=
  ((List.range positions).flatMap fun j =>
    (List.range chunksPerBlock).map (fun k => t.chunkOf (chunksPerBlock * j + k)) ++
      (List.range 2).map (halfOf (t.states.getD j []))) ++
    (List.range 2).map (halfOf t.start)

def allocate (t : Table) : Circuit F V (List (AllocatedNum F V)) :=
  t.cellBytes.mapM fun bytes => AllocatedNum.alloc (.ok (fromBe bytes))

/-- Half `h` of the state before position `j`. -/
def Cells.stateBeforeIn (cells : Cells F V) (layout : Layout) (j h : ℕ) : Circuit F V (Lc F V) :=
  if j = layout.signed.first then
    match cells.nums[cellsPerPosition * positions + h]? with
    | some n => pure (Lc.num n)
    | none => .fail .panic
  else if layout.startsFromIv j then pure (Lc.constant (fromBe (halfOf Sha256.iv.bytes h)))
  else if j = 0 then .fail .panic
  else cells.state (j - 1) h

namespace Step

/-- The bits of the entry that the selector picks. -/
def selectBits [ToRepr F] (selector : OneHot V) (entries : List (Lc F V)) : Circuit F V (List (Boolean V)) := do
  let value ← selector.select entries
  bits value 128

/-- The rule that half `h` of the computed state is the one the table holds. -/
def matchHalf (cells : Cells F V) (selector : OneHot V) (after : List (Boolean V)) (h : ℕ) : Circuit F V Unit := do
  let entries ← (List.range positions).mapM fun j => cells.state j h
  let half ← selector.select entries
  equal (pack ((after.drop (128 * h)).take 128)) half

/-- One compression: the block, the state before it, and the state after it, which the table holds. -/
def compression [ToRepr F] (compress : Compression F V) (cells : Cells F V) (layout : Layout) (selector : OneHot V) :
    Circuit F V Unit := do
  let block ← (List.range chunksPerBlock).mapM fun c =>
    selectBits selector ((List.range positions).map fun j => cells.chunk (chunksPerBlock * j + c))
  let before ← (List.range 2).mapM fun h => do
    let entries ← (List.range positions).mapM fun j => cells.stateBeforeIn layout j h
    selectBits selector entries
  let after ← compress block.flatten before.flatten
  forM (List.range 2) (matchHalf cells selector after)

/-- All rules of the step at a position, which it publishes. -/
def precommitted [ToRepr F] (compress : Compression F V) (cells : Cells F V) (layout : Layout) (position : ℕ) :
    Circuit F V Unit := do
  let input ← AllocatedNum.allocInput (.ok (position : F))
  let selector ← OneHot.alloc positions (some position)
  equal selector.index (Lc.num input)
  compression compress cells layout selector

end Step

end Gadgets

/-! ## What the cells hold -/

/-- Blocks of 64 bytes and states of 32, one of each for every position. -/
structure Table.Sized (t : Table) : Prop where
  blocks : t.blocks.length = positions
  block : ∀ b ∈ t.blocks, b.length = 64
  states : t.states.length = positions
  state : ∀ s ∈ t.states, s.length = 32
  start : t.start.length = 32

theorem getElem?_flatMap_range {α : Type} {f : ℕ → List α} {n : ℕ} (hf : ∀ j, (f j).length = n) {m j k : ℕ}
    (hj : j < m) (hk : k < n) : ((List.range m).flatMap f)[n * j + k]? = (f j)[k]? := by
  induction m with
  | zero => omega
  | succ m ih =>
    have hlen : ((List.range m).flatMap f).length = n * m := by
      rw [List.length_flatMap, List.map_congr_left fun i _ => hf i, List.map_const', List.sum_replicate, smul_eq_mul,
        List.length_range, Nat.mul_comm]
    rw [List.range_succ, List.flatMap_append, List.flatMap_singleton, List.getElem?_append, hlen]
    rcases Nat.lt_or_ge j m with hlt | hge
    · have hlow : n * j + k < n * m := by
        have hstep : n * (j + 1) ≤ n * m := Nat.mul_le_mul_left n hlt
        rw [Nat.mul_succ] at hstep
        omega
      rw [if_pos hlow, ih hlt]
    · obtain rfl : j = m := by omega
      rw [if_neg (by omega), Nat.add_sub_cancel_left]

namespace Table

variable {t : Table}

theorem length_cellBytes (t : Table) : t.cellBytes.length = cellsPerPosition * positions + 2 := by
  simp [cellBytes, cellsPerPosition, chunksPerBlock, positions]

theorem cellBytes_position {j k : ℕ} (hj : j < positions) (hk : k < cellsPerPosition) :
    t.cellBytes[cellsPerPosition * j + k]? =
      ((List.range chunksPerBlock).map (fun k => t.chunkOf (chunksPerBlock * j + k)) ++
        (List.range 2).map (halfOf (t.states.getD j [])))[k]? := by
  have hlen : ∀ j, ((List.range chunksPerBlock).map (fun k => t.chunkOf (chunksPerBlock * j + k)) ++
      (List.range 2).map (halfOf (t.states.getD j []))).length = cellsPerPosition := by
    intro j
    simp [cellsPerPosition]
  have hget := getElem?_flatMap_range hlen hj hk
  have hsome : ∃ x, ((List.range positions).flatMap fun j =>
      (List.range chunksPerBlock).map (fun k => t.chunkOf (chunksPerBlock * j + k)) ++
        (List.range 2).map (halfOf (t.states.getD j [])))[cellsPerPosition * j + k]? = some x := by
    rw [hget]
    exact ⟨_, List.getElem?_eq_getElem (by rw [hlen]; exact hk)⟩
  obtain ⟨x, hx⟩ := hsome
  rw [cellBytes, List.getElem?_append_left (List.getElem?_eq_some_iff.mp hx).1, hget]

theorem cellBytes_chunk {c : ℕ} (hc : c < chunksPerBlock * positions) :
    t.cellBytes[cellsPerPosition * (c / chunksPerBlock) + c % chunksPerBlock]? = some (t.chunkOf c) := by
  have hmod : c % chunksPerBlock < chunksPerBlock := Nat.mod_lt _ (by decide)
  have hdiv : c / chunksPerBlock < positions := Nat.div_lt_of_lt_mul hc
  rw [cellBytes_position hdiv (Nat.lt_add_right 2 hmod), List.getElem?_append_left (by simpa using hmod),
    List.getElem?_map, List.getElem?_range hmod, Option.map_some, Nat.div_add_mod]

theorem cellBytes_state {j h : ℕ} (hj : j < positions) (hh : h < 2) :
    t.cellBytes[cellsPerPosition * j + chunksPerBlock + h]? = some (halfOf (t.states.getD j []) h) := by
  rw [Nat.add_assoc, cellBytes_position hj (Nat.add_lt_add_left hh _), List.getElem?_append_right (by simp),
    List.length_map, List.length_range, Nat.add_sub_cancel_left, List.getElem?_map, List.getElem?_range hh]
  rfl

theorem cellBytes_start {h : ℕ} (hh : h < 2) :
    t.cellBytes[cellsPerPosition * positions + h]? = some (halfOf t.start h) := by
  have hlen := length_cellBytes t
  unfold cellBytes at hlen ⊢
  rw [List.length_append, List.length_map, List.length_range] at hlen
  rw [List.getElem?_append_right (by omega), Nat.sub_eq_of_eq_add (by omega : _ = h + _), List.getElem?_map,
    List.getElem?_range hh]
  rfl

theorem length_chunkOf (h : t.Sized) {c : ℕ} (hc : c < chunksPerBlock * positions) :
    (t.chunkOf c).length = chunkBytes := by
  have hdiv : c / chunksPerBlock < t.blocks.length := by
    rw [h.blocks]
    exact Nat.div_lt_of_lt_mul hc
  have hmod : c % chunksPerBlock < 4 := Nat.mod_lt _ (by decide)
  have hblock := h.block _ (List.getElem_mem hdiv)
  rw [chunkOf, List.getD_eq_getElem?_getD, List.getElem?_eq_getElem hdiv, Option.getD_some, List.length_take,
    List.length_drop, hblock]
  unfold chunkBytes
  omega

end Table

theorem length_halfOf {state : List UInt8} (h : state.length = 32) {i : ℕ} (hi : i < 2) :
    (halfOf state i).length = chunkBytes := by
  rw [halfOf, List.length_take, List.length_drop, h]
  unfold chunkBytes
  omega

section Rules

variable {F : Type} [Field F] {who : Circuit.Prover} {t : Table} {cells : Cells F F}

def Cells.Carries (who : Circuit.Prover) (cells : Cells F F) (t : Table) : Prop :=
  List.Forall₂ (fun n bytes => n.Holds who (fromBe bytes)) cells.nums t.cellBytes

theorem Cells.Carries.get (h : cells.Carries who t) {i : ℕ} {bytes : List UInt8} (hi : t.cellBytes[i]? = some bytes) :
    ∃ n, cells.nums[i]? = some n ∧ n.Holds who (fromBe bytes) := by
  obtain ⟨hlt, hget⟩ := List.getElem?_eq_some_iff.mp hi
  have hlt' : i < cells.nums.length := by
    rw [List.Forall₂.length_eq h]
    exact hlt
  refine ⟨_, List.getElem?_eq_getElem hlt', ?_⟩
  have hheld := List.Forall₂.get h hlt' hlt
  simp only [List.get_eq_getElem, hget] at hheld
  exact hheld

theorem Cells.Carries.holds (h : cells.Carries who t) (hsized : t.Sized) :
    cells.Holds who ((List.range (chunksPerBlock * positions)).map fun c => bytesNat (t.chunkOf c)) where
  length_eq := by simp
  lt := by
    intro n hn
    obtain ⟨c, hc, rfl⟩ := List.mem_map.mp hn
    have hlt := bytesNat_lt (t.chunkOf c)
    rw [Table.length_chunkOf hsized (List.mem_range.mp hc)] at hlt
    exact hlt
  cell := by
    intro c hc
    obtain ⟨n, hn, hheld⟩ := h.get (Table.cellBytes_chunk hc)
    rw [List.getElem?_eq_getElem (cells.chunk_lt hc)] at hn
    have hvalue : ((List.range (chunksPerBlock * positions)).map fun c => bytesNat (t.chunkOf c)).getD c 0 =
        bytesNat (t.chunkOf c) := by
      rw [List.getD_eq_getElem?_getD, List.getElem?_map, List.getElem?_range hc]
      rfl
    rw [hvalue, List.get_eq_getElem, Option.some.inj hn]
    exact hheld
  known := by
    intro n hn
    obtain ⟨i, hi, rfl⟩ := List.mem_iff_getElem.mp hn
    have hlt : i < t.cellBytes.length := List.Forall₂.length_eq h ▸ hi
    have hheld := List.Forall₂.get h hi hlt
    simp only [List.get_eq_getElem] at hheld
    exact ⟨rfl, fun hw => by rw [hheld.value_eq hw, hheld.val_eq]⟩

theorem Cells.Carries.eval_chunk (h : cells.Carries who t) (hsized : t.Sized) {c : ℕ}
    (hc : c < chunksPerBlock * positions) : (cells.chunk c).lc.eval = fromBe (t.chunkOf c) := by
  have hheld := (h.holds hsized).chunk c
  rw [List.getD_eq_getElem?_getD, List.getElem?_map, List.getElem?_range hc] at hheld
  exact hheld.eval_eq

theorem succeeds_allocate (t : Table) : (allocate t : Circuit F F _).Succeeds fun nums =>
    List.Forall₂ (fun n bytes => n.Holds .honest (fromBe bytes)) nums t.cellBytes := by
  have halloc : ∀ bytes ∈ t.cellBytes, (AllocatedNum.alloc (.ok (fromBe bytes)) : Circuit F F _).Succeeds
      (·.Holds .honest (fromBe bytes)) := fun bytes _ => AllocatedNum.succeeds_alloc rfl
  exact (Circuit.Succeeds.mapM halloc).mono fun nums hnums => hnums.flip

/-! ## One compression -/

theorem yields_bytesBits [ToRepr F] [LargeChar F] [LawfulToRepr F] {a : Lc F F} {bs : List UInt8}
    (ha : a.Holds who (fromBe bs)) (hlen : bs.length = chunkBytes) :
    (bits a 128).Yields who (Boolean.HoldsAll who · (bytesBits bs)) := by
  rw [fromBe, ← beBits_bytesBits] at ha
  exact yields_bits ha (by rw [length_bytesBits, hlen]; rfl) (by decide)

/-- The entry at the selected position, split into bits. -/
theorem yields_selectBits [ToRepr F] [LargeChar F] [LawfulToRepr F] {selector : OneHot F} {j : ℕ}
    (hselector : selector.Holds who positions j) {entries : List (Lc F F)} {f : ℕ → List UInt8}
    (hentries : List.Forall₂ (Lc.Holds who) entries ((List.range positions).map fun i => (fromBe (f i) : F)))
    (hlen : (f j).length = chunkBytes) :
    (Step.selectBits selector entries).Yields who (Boolean.HoldsAll who · (bytesBits (f j))) := by
  exact (hselector.yields_select_range hentries).bind fun value hvalue => yields_bytesBits hvalue hlen

def Table.before (t : Table) (layout : Layout) (j : ℕ) : List UInt8 :=
  if j = layout.signed.first then t.start
  else if layout.startsFromIv j then Sha256.iv.bytes
  else t.states.getD (j - 1) []

/-- A chain starts at the first position. -/
def Layout.StartsAtZero (layout : Layout) : Prop := 0 = layout.signed.first ∨ layout.startsFromIv 0 = true

theorem yields_state_cell (hcells : cells.Carries who t) {j h : ℕ} (hj : j < positions) (hh : h < 2) :
    (cells.state j h).Yields who (·.Holds who (fromBe (halfOf (t.states.getD j []) h))) := by
  obtain ⟨n, hn, hheld⟩ := hcells.get (Table.cellBytes_state hj hh)
  rw [Cells.state, hn]
  exact Circuit.yields_pure (Lc.holds_num hheld)

theorem yields_stateBeforeIn (hcells : cells.Carries who t) {layout : Layout} (hzero : layout.StartsAtZero) {j h : ℕ}
    (hj : j < positions) (hh : h < 2) :
    (cells.stateBeforeIn layout j h).Yields who (·.Holds who (fromBe (halfOf (t.before layout j) h))) := by
  unfold Cells.stateBeforeIn Table.before
  by_cases hsigned : j = layout.signed.first
  · rw [if_pos hsigned, if_pos hsigned]
    obtain ⟨n, hn, hheld⟩ := hcells.get (Table.cellBytes_start hh)
    rw [hn]
    exact Circuit.yields_pure (Lc.holds_num hheld)
  rw [if_neg hsigned, if_neg hsigned]
  by_cases hiv : layout.startsFromIv j = true
  · rw [if_pos hiv, if_pos hiv]
    exact Circuit.yields_pure (Lc.holds_constant _)
  rw [if_neg hiv, if_neg hiv]
  have hne : j ≠ 0 := by
    rintro rfl
    exact hzero.elim hsigned hiv
  rw [if_neg hne]
  exact yields_state_cell hcells (by omega) hh


theorem yields_joinBits {n : ℕ} {bytes : List UInt8} (hlen : bytes.length = chunkBytes * n)
    {f : ℕ → Circuit F F (List (Boolean F))}
    (hf : ∀ i < n, (f i).Yields who
      (Boolean.HoldsAll who · (bytesBits ((bytes.drop (chunkBytes * i)).take chunkBytes)))) :
    ((List.range n).mapM f).Yields who fun parts => Boolean.HoldsAll who parts.flatten (bytesBits bytes) := by
  have hparts : ((List.range n).mapM f).Yields who (List.Forall₂ (Boolean.HoldsAll who) · ((List.range n).map fun i =>
      bytesBits ((bytes.drop (chunkBytes * i)).take chunkBytes))) := by
    refine Circuit.Yields.mapM_targets ?_
    rw [List.forall₂_map_right_iff, List.forall₂_same]
    exact fun i hi => hf i (List.mem_range.mp hi)
  have hjoin : ((List.range n).map fun i => bytesBits ((bytes.drop (chunkBytes * i)).take chunkBytes)).flatten =
      bytesBits bytes := by
    have hwhole := flatMap_range_chunks chunkBytes n bytes
    rw [List.take_of_length_le hlen.le] at hwhole
    calc ((List.range n).map fun i => bytesBits ((bytes.drop (chunkBytes * i)).take chunkBytes)).flatten
        = bytesBits ((List.range n).flatMap fun i => (bytes.drop (chunkBytes * i)).take chunkBytes) := by
          rw [bytesBits, List.flatMap_assoc, List.flatMap_def]
          rfl
      _ = bytesBits bytes := by rw [hwhole]
  refine hparts.mono fun parts h => ?_
  rw [← hjoin]
  exact List.rel_flatten h

/-- Compressing the block at position `j` from the state before it gives the state after it. -/
def Table.StepHolds (t : Table) (layout : Layout) (j : ℕ) : Prop :=
  t.states.getD j [] = (Sha256.compress (.ofBytes (t.before layout j)) (t.blocks.getD j [])).bytes

theorem Table.Sized.length_block (h : t.Sized) {j : ℕ} (hj : j < positions) : (t.blocks.getD j []).length = 64 := by
  rw [← h.blocks] at hj
  rw [List.getD_eq_getElem?_getD, List.getElem?_eq_getElem hj]
  exact h.block _ (List.getElem_mem hj)

theorem Table.Sized.length_state (h : t.Sized) {j : ℕ} (hj : j < positions) : (t.states.getD j []).length = 32 := by
  rw [← h.states] at hj
  rw [List.getD_eq_getElem?_getD, List.getElem?_eq_getElem hj]
  exact h.state _ (List.getElem_mem hj)

theorem Table.Sized.length_before (h : t.Sized) {layout : Layout} {j : ℕ} (hj : j < positions) :
    (t.before layout j).length = 32 := by
  unfold Table.before
  split
  · exact h.start
  split
  · exact Sha256.HashState.length_bytes _
  · exact h.length_state (by omega)

theorem holds_packHalf {after : List (Boolean F)} {state : List UInt8}
    (hafter : Boolean.HoldsAll who after (bytesBits state)) (h : ℕ) :
    (pack ((after.drop (128 * h)).take 128) : Lc F F).Holds who (fromBe (halfOf state h)) := by
  have hbits : ((bytesBits state).drop (128 * h)).take 128 = bytesBits (halfOf state h) := by
    rw [halfOf, ← take_bytesBits, ← drop_bytesBits, ← Nat.mul_assoc]
    rfl
  have hpack := holds_pack (List.forall₂_take 128 (List.forall₂_drop (128 * h) hafter))
  rw [hbits, beBits_bytesBits] at hpack
  exact hpack

theorem yields_matchHalf (hcells : cells.Carries who t) {selector : OneHot F} {j h : ℕ}
    (hselector : selector.Holds who positions j) (hh : h < 2) {after : List (Boolean F)}
    (hafter : Boolean.HoldsAll who after (bytesBits (t.states.getD j []))) :
    (Step.matchHalf cells selector after h).Yields who fun _ => True := by
  have hentries : ((List.range positions).mapM fun j => cells.state j h).Yields who
      (List.Forall₂ (Lc.Holds who) · ((List.range positions).map fun j => fromBe (halfOf (t.states.getD j []) h))) := by
    refine Circuit.Yields.mapM_targets ?_
    rw [List.forall₂_map_right_iff, List.forall₂_same]
    exact fun j hj => yields_state_cell hcells (List.mem_range.mp hj) hh
  refine hentries.bind fun entries hentries => ?_
  refine (hselector.yields_select_range hentries).bind fun half hhalf => ?_
  exact yields_equal (holds_packHalf hafter h) hhalf

variable [ToRepr F] [LargeChar F] [LawfulToRepr F]

/-- A step holds at a position whose state is the compression of its block. -/
theorem yields_compression (gadget : CompressionGadget F) (hcells : cells.Carries who t) (hsized : t.Sized)
    {layout : Layout} (hzero : layout.StartsAtZero) {selector : OneHot F} {j : ℕ}
    (hselector : selector.Holds who positions j) (hstep : t.StepHolds layout j) :
    (Step.compression gadget.compress cells layout selector).Yields who fun _ => True := by
  have hj := hselector.lt
  have hblock := hsized.length_block hj
  have hbefore : (t.before layout j).length = 32 := hsized.length_before hj
  have hchunks : (t.blocks.getD j []).length = chunkBytes * chunksPerBlock := hblock
  have hhalves : (t.before layout j).length = chunkBytes * 2 := hbefore
  refine (yields_joinBits hchunks fun c hc => ?_).bind fun block hblockBits => ?_
  · have hchunk : ∀ i < positions, (cells.chunk (chunksPerBlock * i + c)).Holds who
        (fromBe (t.chunkOf (chunksPerBlock * i + c))) := by
      intro i hi
      have hlt : chunksPerBlock * i + c < chunksPerBlock * positions := by
        unfold chunksPerBlock positions at *
        omega
      have hheld := (hcells.holds hsized).chunk (chunksPerBlock * i + c)
      rw [List.getD_eq_getElem?_getD, List.getElem?_map, List.getElem?_range hlt] at hheld
      exact hheld
    have hentries : List.Forall₂ (Lc.Holds who)
        ((List.range positions).map fun i => cells.chunk (chunksPerBlock * i + c))
        ((List.range positions).map fun i => (fromBe (t.chunkOf (chunksPerBlock * i + c)) : F)) := by
      rw [List.forall₂_map_left_iff, List.forall₂_map_right_iff, List.forall₂_same]
      exact fun i hi => hchunk i (List.mem_range.mp hi)
    have hown : t.chunkOf (chunksPerBlock * j + c) = ((t.blocks.getD j []).drop (chunkBytes * c)).take chunkBytes := by
      have hdiv : (chunksPerBlock * j + c) / chunksPerBlock = j := by
        unfold chunksPerBlock at *
        omega
      have hmod : (chunksPerBlock * j + c) % chunksPerBlock = c := by
        unfold chunksPerBlock at *
        omega
      rw [Table.chunkOf, hdiv, hmod]
    rw [← hown]
    refine yields_selectBits hselector (f := fun i => t.chunkOf (chunksPerBlock * i + c)) hentries
      (Table.length_chunkOf hsized ?_)
    unfold chunksPerBlock positions at *
    omega
  refine (yields_joinBits hhalves fun h hh => ?_).bind fun before hbeforeBits => ?_
  · have hentries : ((List.range positions).mapM fun j => cells.stateBeforeIn layout j h).Yields who
        (List.Forall₂ (Lc.Holds who) ·
          ((List.range positions).map fun j => fromBe (halfOf (t.before layout j) h))) := by
      refine Circuit.Yields.mapM_targets ?_
      rw [List.forall₂_map_right_iff, List.forall₂_same]
      exact fun j hj => yields_stateBeforeIn hcells hzero (List.mem_range.mp hj) hh
    refine hentries.bind fun entries hentries => ?_
    exact yields_selectBits hselector (f := fun i => halfOf (t.before layout i) h) hentries (length_halfOf hbefore hh)
  rw [← Sha256.HashState.bytes_ofBytes hbefore] at hbeforeBits
  refine (gadget.correct who hblockBits hblock hbeforeBits).bind fun after hafter => ?_
  rw [← hstep] at hafter
  exact Circuit.Yields.forM fun h hh => yields_matchHalf hcells hselector (List.mem_range.mp hh) hafter

/-- The honest step satisfies its rules and publishes its position. -/
theorem honest_precommitted (gadget : CompressionGadget F) (hcells : cells.Carries .honest t) (hsized : t.Sized)
    {layout : Layout} (hzero : layout.StartsAtZero) {j : ℕ} (hj : j < positions) (hstep : t.StepHolds layout j) :
    (Step.precommitted gadget.compress cells layout j).Honest [(j : F)] () := by
  have hrest : (do
      let selector ← OneHot.alloc positions (some j)
      equal selector.index (Lc.num (⟨(j : F), some (j : F)⟩ : AllocatedNum F F))
      Step.compression gadget.compress cells layout selector).Succeeds fun _ => True := by
    refine (OneHot.succeeds_alloc hj).bind fun selector hselector => ?_
    have hinput : (⟨(j : F), some (j : F)⟩ : AllocatedNum F F).Holds .honest (j : F) := ⟨rfl, fun _ => rfl⟩
    refine (yields_equal hselector.index (Lc.holds_num hinput)).succeeds.bind fun _ _ => ?_
    exact (yields_compression gadget hcells hsized hzero hselector hstep).succeeds
  obtain ⟨⟨⟩, hrun, -⟩ := hrest
  exact ⟨(j : F), [], rfl, rfl, hrun⟩

end Rules

/-! ## Built tables -/

theorem copyBlocks_all {P : List UInt8 → Prop} {first : ℕ} {cs blocks out : List (List UInt8)} (hcs : ∀ c ∈ cs, P c)
    (hblocks : ∀ b ∈ blocks, P b) (h : copyBlocks first cs blocks = .ok out) : ∀ b ∈ out, P b := by
  induction cs generalizing first blocks with
  | nil =>
    obtain rfl := Except.ok.inj h
    exact hblocks
  | cons c cs ih =>
    rw [List.forall_mem_cons] at hcs
    rw [copyBlocks] at h
    split at h
    · refine ih hcs.2 (fun b hb => ?_) h
      rcases List.mem_or_eq_of_mem_set hb with hb | rfl
      · exact hblocks b hb
      · exact hcs.1
    · cases h

theorem placeMessages_all {P : List UInt8 → Prop} {ts : List (Region × List UInt8)} {blocks out : List (List UInt8)}
    (hts : ∀ t ∈ ts, ∀ c ∈ chunks 64 t.2, P c) (hblocks : ∀ b ∈ blocks, P b)
    (h : ts.foldlM placeMessage blocks = .ok out) : ∀ b ∈ out, P b := by
  induction ts generalizing blocks with
  | nil =>
    obtain rfl := Except.ok.inj h
    exact hblocks
  | cons t ts ih =>
    rw [List.forall_mem_cons] at hts
    rw [List.foldlM_cons] at h
    obtain ⟨mid, hmid, h⟩ := bind_eq_ok_iff.mp h
    rw [placeMessage] at hmid
    split at hmid
    · cases hmid
    · exact ih hts.2 (copyBlocks_all hts.1 hblocks hmid) h

theorem length_statesFrom (layout : Layout) (start : List UInt8) (state : Sha256.HashState) (j : ℕ)
    (blocks : List (List UInt8)) : (statesFrom layout start state j blocks).length = blocks.length := by
  induction blocks generalizing state j with
  | nil => rfl
  | cons b blocks ih => rw [statesFrom, List.length_cons, ih, List.length_cons]

/-- Each state is the compression of its block from the state of the chain before it. -/
theorem statesFrom_step {layout : Layout} {start : List UInt8} {state : Sha256.HashState} {first : ℕ}
    {blocks : List (List UInt8)} {j : ℕ} (hj : j < blocks.length) :
    (statesFrom layout start state first blocks).getD j Sha256.iv =
      compress (stateBefore layout start ((state :: statesFrom layout start state first blocks).getD j Sha256.iv)
        (first + j)) (blocks.getD j []) := by
  induction blocks generalizing state first j with
  | nil => exact absurd hj (Nat.not_lt_zero j)
  | cons b blocks ih =>
    cases j with
    | zero => rfl
    | succ j =>
      have hnext := @ih (compress (stateBefore layout start state first) b) (first + 1) j (Nat.lt_of_succ_lt_succ hj)
      rw [Nat.add_right_comm] at hnext
      exact hnext

namespace Table

variable {layout : Layout} {signed : List UInt8} {skipped : ℕ} {messages : List (Region × List UInt8)} {table : Table}

theorem withMessages_ok (h : withMessages layout signed skipped messages = .ok table) :
    table.blocks.length = positions ∧
      (padded layout signed skipped messages).foldlM placeMessage (List.replicate positions (List.replicate 64 0)) =
        .ok table.blocks ∧
      table.start = (compress Sha256.iv (splitSigned signed skipped).1).bytes ∧ table.layout = layout ∧
      table.states = (statesFrom layout table.start Sha256.iv 0 table.blocks).map (·.bytes) := by
  obtain ⟨blocks, hblocks, h⟩ := bind_eq_ok_iff.mp h
  rw [fromBlocksIn] at h
  split at h
  · next hlen =>
    obtain rfl := Except.ok.inj h
    exact ⟨hlen, hblocks, rfl, rfl, rfl⟩
  · cases h

theorem withMessages_sized (hskipped : skipped ≤ lastBlock signed.length)
    (h : withMessages layout signed skipped messages = .ok table) : table.Sized := by
  obtain ⟨hlen, hplace, hstart, -, hstates⟩ := withMessages_ok h
  have hwhole : ∀ t ∈ padded layout signed skipped messages, ∀ c ∈ chunks 64 t.2, c.length = 64 := by
    intro t ht c hc
    rcases List.mem_cons.mp ht with rfl | ht
    · exact length_of_mem_chunks (by decide) (length_kept hskipped) hc
    · obtain ⟨m, -, rfl⟩ := List.mem_map.mp ht
      exact length_of_mem_chunks (by decide) (length_pad m.2) hc
  refine ⟨hlen, ?_, ?_, ?_, ?_⟩
  · refine placeMessages_all hwhole (fun b hb => ?_) hplace
    rw [List.eq_of_mem_replicate hb, List.length_replicate]
  · rw [hstates, List.length_map, length_statesFrom, hlen]
  · intro s hs
    rw [hstates] at hs
    obtain ⟨state, -, rfl⟩ := List.mem_map.mp hs
    exact Sha256.HashState.length_bytes state
  · rw [hstart]
    exact Sha256.HashState.length_bytes _

/-- Every position of a built table satisfies its step. -/
theorem withMessages_stepHolds (hlayout : layout.WellFormed) (hzero : layout.StartsAtZero)
    (hskipped : skipped ≤ lastBlock signed.length) (h : withMessages layout signed skipped messages = .ok table)
    {j : ℕ} (hj : j < positions) : table.StepHolds layout j := by
  have hsized := withMessages_sized hskipped h
  obtain ⟨hlen, -, hstart, -, hstates⟩ := withMessages_ok h
  have hlt : ∀ i < positions, i < (statesFrom layout table.start Sha256.iv 0 table.blocks).length := by
    intro i hi
    rw [length_statesFrom, hlen]
    exact hi
  have hstate : ∀ i < positions, table.states.getD i [] =
      ((statesFrom layout table.start Sha256.iv 0 table.blocks).getD i Sha256.iv).bytes := by
    intro i hi
    rw [hstates, List.getD_eq_getElem?_getD, List.getElem?_map, List.getD_eq_getElem?_getD,
      List.getElem?_eq_getElem (hlt i hi)]
    rfl
  have hbefore : stateBefore layout table.start
      ((Sha256.iv :: statesFrom layout table.start Sha256.iv 0 table.blocks).getD j Sha256.iv) (0 + j) =
      .ofBytes (table.before layout j) := by
    rw [Nat.zero_add]
    unfold before
    by_cases hsigned : j = layout.signed.first
    · rw [if_pos hsigned, hsigned, hlayout.stateBefore_signed]
    rw [if_neg hsigned]
    by_cases hiv : layout.startsFromIv j = true
    · rw [if_pos hiv, Sha256.HashState.ofBytes_bytes, stateBefore, if_pos hiv]
    rw [if_neg hiv, stateBefore_continues ⟨hsigned, by simpa using hiv⟩]
    cases j with
    | zero => exact (hzero.elim hsigned hiv).elim
    | succ j =>
      rw [Nat.add_sub_cancel, hstate j (by omega), Sha256.HashState.ofBytes_bytes]
      rfl
  rw [StepHolds, hstate j hj, statesFrom_step (hlen ▸ hj), hbefore, compress_block _ (hsized.length_block hj)]


def chunkValues (t : Table) : List ℕ := (List.range (chunksPerBlock * positions)).map fun c => bytesNat (t.chunkOf c)

def byteAt (t : Table) (k : ℕ) : UInt8 := (t.blocks.getD (k / 64) []).getD (k % 64) 0

theorem tableByte_chunkValues (hsized : table.Sized) {k : ℕ} (hk : k < 64 * positions) :
    tableByte table.chunkValues k = table.byteAt k := by
  have hc : k / chunkBytes < chunksPerBlock * positions := by
    unfold chunkBytes chunksPerBlock positions at *
    omega
  have hlen := length_chunkOf hsized hc
  have hbytes : beBytes chunkBytes (bytesNat (table.chunkOf (k / chunkBytes))) = table.chunkOf (k / chunkBytes) := by
    have hlt := bytesNat_lt (table.chunkOf (k / chunkBytes))
    rw [hlen] at hlt
    refine bytesNat_inj (by rw [length_beBytes, hlen]) ?_
    rw [bytesNat_beBytes, Nat.mod_eq_of_lt hlt]
  have hvalue : table.chunkValues.getD (k / chunkBytes) 0 = bytesNat (table.chunkOf (k / chunkBytes)) := by
    rw [chunkValues, List.getD_eq_getElem?_getD, List.getElem?_map, List.getElem?_range hc]
    rfl
  have hinner : k % chunkBytes < chunkBytes := Nat.mod_lt _ (by decide)
  have hblock : k / chunkBytes / chunksPerBlock = k / 64 := Nat.div_div_eq_div_mul _ _ _
  have hoffset : chunkBytes * (k / chunkBytes % chunksPerBlock) + k % chunkBytes = k % 64 := by
    unfold chunkBytes chunksPerBlock
    omega
  rw [tableByte, hvalue, hbytes, chunkOf, byteAt, hblock, List.getD_eq_getElem?_getD, List.getElem?_take_of_lt hinner,
    List.getElem?_drop, hoffset, ← List.getD_eq_getElem?_getD]

/-- A built table has every message in its region. -/
theorem withMessages_placed (hlayout : layout.WellFormed) (hnodup : (messages.map Prod.fst).Nodup)
    (hmem : ∀ t ∈ messages, t.1 ∈ layout.ivRegions) (h : withMessages layout signed skipped messages = .ok table) :
    ∀ t ∈ padded layout signed skipped messages,
      Fits t ∧ ∀ k < t.2.length, table.byteAt (64 * t.1.first + k) = t.2.getD k 0 := by
  obtain ⟨-, hplace, -⟩ := withMessages_ok h
  have hfits : ∀ t ∈ padded layout signed skipped messages, Fits t := by
    by_contra hnot
    push Not at hnot
    obtain ⟨count, room, herror⟩ := placeMessages_error (padded_in_range hlayout hmem) hnot
    rw [herror] at hplace
    cases hplace
  obtain ⟨table', hok, -, hplaced, -⟩ := withMessages_of_fits hlayout hnodup hmem hfits
  rw [h] at hok
  obtain rfl := Except.ok.inj hok
  intro t ht
  refine ⟨hfits t ht, fun k hk => ?_⟩
  have hj : k / 64 < (t.2.length + 64 - 1) / 64 := by omega
  have hblock := hplaced t ht (k / 64) (by rw [length_chunks]; exact hj)
  have hdiv : (64 * t.1.first + k) / 64 = t.1.first + k / 64 := by omega
  have hmod : (64 * t.1.first + k) % 64 = k % 64 := by omega
  rw [chunks, List.getElem?_map, List.getElem?_range hj] at hblock
  rw [byteAt, hdiv, hmod, List.getD_eq_getElem?_getD (l := table.blocks), hblock, Option.map_some, Option.getD_some,
    List.getD_eq_getElem?_getD, List.getElem?_take_of_lt (Nat.mod_lt _ (by decide)), List.getElem?_drop,
    Nat.div_add_mod, ← List.getD_eq_getElem?_getD]

/-- A window of a message reads the message's bytes. -/
theorem range_tableByte (hsized : table.Sized) {region : Region} (hregion : region.first + region.blocks ≤ positions)
    {bytes message : List UInt8} (hfits : Fits (region, bytes))
    (hbytes : ∀ k < bytes.length, table.byteAt (64 * region.first + k) = bytes.getD k 0) {base o len : ℕ}
    (hmessage : message.drop base <+: bytes) (ho : base + o + len ≤ message.length) :
    ((List.range len).map fun t => tableByte table.chunkValues (64 * region.first + o + t)) =
      (message.drop (base + o)).take len := by
  have hshort := hmessage.length_le
  have hroom : bytes.length ≤ 64 * region.blocks := hfits
  rw [List.length_drop] at hshort
  apply List.ext_getElem
  · rw [List.length_map, List.length_range, List.length_take, List.length_drop]
    omega
  intro t ht ht'
  rw [List.length_map, List.length_range] at ht
  have hlt : o + t < (message.drop base).length := by
    rw [List.length_drop]
    omega
  have hget := List.prefix_iff_getElem?.mp hmessage (o + t) hlt
  rw [List.getElem_map, List.getElem_range, tableByte_chunkValues hsized (by omega), Nat.add_assoc,
    hbytes (o + t) (by omega), List.getD_eq_getElem?_getD, hget, List.getElem_take, List.getElem_drop, Option.getD_some,
    List.getElem_drop]
  congr 1
  omega

end Table

end ZkCredVega.Nym
