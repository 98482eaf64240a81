import ZkCredVega.Nym.Step

/-!
# The hash chains

What satisfied steps say of the shared table, whoever filled it: the chunks are below `2 ^ 128`, and the
state after each block of a region is the compression chain of the region's blocks up to it. The chain
starts from the start state for the signed message and from the initial value for the others.
-/

namespace ZkCredVega.Nym

open Circuits

section Values

variable {F : Type} [Field F]

/-- The value of a cell that holds 16 bytes. -/
def InChunk (v : F) : Prop := ∃ bs : List UInt8, bs.length = chunkBytes ∧ v = fromBe bs

def Cells.startValue (cells : Cells F F) (h : ℕ) : F :=
  (cells.nums[cellsPerPosition * positions + h]?.map AllocatedNum.val).getD 0

def Cells.beforeValue (cells : Cells F F) (layout : Layout) (j h : ℕ) : F :=
  if j = layout.signed.first then cells.startValue h
  else if layout.startsFromIv j then fromBe (halfOf Sha256.iv.bytes h)
  else Message.stateValue cells (j - 1) h

variable [ToRepr F]

def cellBytes (v : F) : List UInt8 := beBytes chunkBytes (ToRepr.toNat v)

def stateBytes (halves : ℕ → F) : List UInt8 := (List.range 2).flatMap fun h => cellBytes (halves h)

def Cells.block (cells : Cells F F) (j : ℕ) : List UInt8 :=
  (List.range chunksPerBlock).flatMap fun c => cellBytes (cells.chunk (chunksPerBlock * j + c)).lc.eval

/-- The compression chain over the blocks 0 to `k` of a region. -/
def Cells.chain (cells : Cells F F) (layout : Layout) (region : Region) (k : ℕ) : Sha256.HashState :=
  Sha256.compressAll (if region = layout.signed then .ofBytes (stateBytes cells.startValue) else Sha256.iv)
    ((List.range (k + 1)).map fun i => cells.block (region.first + i))

/-- Each position's step, reporting that position, has a satisfying assignment over the cells. -/
def Cells.StepsHold (gadget : CompressionGadget F) (cells : Cells F F) (layout : Layout) : Prop :=
  ∀ j < positions, ∃ position, (Step.precommitted gadget.compress cells layout position).Runs [(j : F)] ()

theorem Cells.length_block (cells : Cells F F) (j : ℕ) : (cells.block j).length = 64 := by
  simp [Cells.block, cellBytes, chunksPerBlock, chunkBytes]

section Bytes

variable [LawfulToRepr F] {bs : List UInt8} {v : F}

theorem toNat_fromBe (h : bs.length = chunkBytes) : ToRepr.toNat (fromBe bs : F) = bytesNat bs := by
  have hlt := bytesNat_lt bs
  rw [h] at hlt
  exact LawfulToRepr.toNat_natCast (hlt.trans (by decide))

theorem cellBytes_fromBe (h : bs.length = chunkBytes) : cellBytes (fromBe bs : F) = bs := by
  have hlt := bytesNat_lt bs
  refine bytesNat_inj (by rw [cellBytes, length_beBytes, h]) ?_
  rw [cellBytes, toNat_fromBe h, bytesNat_beBytes, Nat.mod_eq_of_lt (h ▸ hlt)]

theorem stateBytes_halfOf (h : bs.length = 32) : stateBytes (fun i => (fromBe (halfOf bs i) : F)) = bs := by
  have hwhole := flatMap_range_chunks chunkBytes 2 bs
  rw [List.take_of_length_le (show bs.length ≤ chunkBytes * 2 from h.le)] at hwhole
  refine Eq.trans ?_ hwhole
  rw [stateBytes, List.flatMap_def, List.flatMap_def]
  refine congrArg List.flatten (List.map_congr_left fun i hi => ?_)
  exact cellBytes_fromBe (length_halfOf h (List.mem_range.mp hi))

omit [Field F] [LawfulToRepr F] in
theorem stateBytes_congr {f g : ℕ → F} (h : ∀ i < 2, f i = g i) : stateBytes f = stateBytes g := by
  rw [stateBytes, stateBytes, List.flatMap_def, List.flatMap_def]
  refine congrArg List.flatten (List.map_congr_left fun i hi => ?_)
  rw [h i (List.mem_range.mp hi)]

theorem InChunk.toNat_lt (h : InChunk v) : ToRepr.toNat v < 2 ^ 128 := by
  obtain ⟨bs, hlen, rfl⟩ := h
  have hlt := bytesNat_lt bs
  rw [hlen] at hlt
  rw [toNat_fromBe hlen]
  exact hlt

theorem InChunk.natCast_toNat (h : InChunk v) : ((ToRepr.toNat v : ℕ) : F) = v := by
  obtain ⟨bs, hlen, rfl⟩ := h
  rw [toNat_fromBe hlen]
  rfl

end Bytes

end Values

/-! ## One step -/

section Rules

variable {F : Type} [Field F] {cells : Cells F F} {layout : Layout} {selector : OneHot F}

theorem ensures_state_cell {j h : ℕ} :
    (cells.state j h).Ensures (·.Holds .any (Message.stateValue cells j h)) := by
  unfold Cells.state Message.stateValue
  cases cells.nums[cellsPerPosition * j + chunksPerBlock + h]? with
  | none => exact Circuit.ensures_fail
  | some n => exact Circuit.ensures_pure.mpr (Lc.holds_num ⟨rfl, fun hw => by cases hw⟩)

theorem ensures_stateBeforeIn {j h : ℕ} :
    (cells.stateBeforeIn layout j h).Ensures (·.Holds .any (cells.beforeValue layout j h)) := by
  unfold Cells.stateBeforeIn Cells.beforeValue
  split
  · unfold Cells.startValue
    cases cells.nums[cellsPerPosition * positions + h]? with
    | none => exact Circuit.ensures_fail
    | some n => exact Circuit.ensures_pure.mpr (Lc.holds_num ⟨rfl, fun hw => by cases hw⟩)
  split
  · exact Circuit.ensures_pure.mpr (Lc.holds_constant _)
  split
  · exact Circuit.ensures_fail
  · exact ensures_state_cell

theorem ensures_entries {f : ℕ → Circuit F F (Lc F F)} {v : ℕ → F} (hf : ∀ j, (f j).Ensures (·.Holds .any (v j)))
    (n : ℕ) : ((List.range n).mapM f).Ensures (List.Forall₂ (Lc.Holds .any) · ((List.range n).map v)) := by
  have hmap : ((List.range n).mapM f).Ensures (List.Forall₂ (fun j (a : Lc F F) => a.Holds .any (v j)) (List.range n)) :=
    Circuit.Ensures.mapM fun j _ => hf j
  refine hmap.mono fun as has => ?_
  rw [List.forall₂_map_right_iff]
  exact has.flip

theorem ensures_matchHalf {j h : ℕ} (hselector : selector.Holds .any positions j) {after : List (Boolean F)}
    {state : List UInt8} (hafter : Boolean.HoldsAll .any after (bytesBits state)) :
    (Step.matchHalf cells selector after h).Ensures fun _ =>
      Message.stateValue cells j h = fromBe (halfOf state h) := by
  refine (ensures_entries (fun j => ensures_state_cell) positions).bind fun entries hentries => ?_
  refine (hselector.yields_select_range hentries).ensures.bind fun half hhalf => ensures_equal.mono fun _ heq => ?_
  rw [(holds_packHalf hafter h).eval_eq, hhalf.eval_eq] at heq
  exact heq.symm

theorem ensures_joinBits {n : ℕ} {f : ℕ → Circuit F F (List (Boolean F))} {bytes : ℕ → List UInt8} {P : ℕ → Prop}
    (hf : ∀ i < n, (f i).Ensures fun out => Boolean.HoldsAll .any out (bytesBits (bytes i)) ∧ P i) :
    ((List.range n).mapM f).Ensures fun parts =>
      Boolean.HoldsAll .any parts.flatten (bytesBits ((List.range n).flatMap bytes)) ∧ ∀ i < n, P i := by
  have hparts : ((List.range n).mapM f).Ensures (List.Forall₂ (fun i out =>
      Boolean.HoldsAll .any out (bytesBits (bytes i)) ∧ P i) (List.range n)) :=
    Circuit.Ensures.mapM fun i hi => hf i (List.mem_range.mp hi)
  have hjoin : bytesBits ((List.range n).flatMap bytes) = ((List.range n).map fun i => bytesBits (bytes i)).flatten := by
    rw [bytesBits, List.flatMap_assoc, List.flatMap_def]
    rfl
  refine hparts.mono fun parts h => ⟨?_, fun i hi => ?_⟩
  · rw [hjoin]
    have hbits : List.Forall₂ (Boolean.HoldsAll .any) parts ((List.range n).map fun i => bytesBits (bytes i)) := by
      rw [List.forall₂_map_right_iff]
      exact (h.imp fun i out hout => hout.1).flip
    exact List.rel_flatten hbits
  · have hlt : i < (List.range n).length := by
      rw [List.length_range]
      exact hi
    have hget := (List.Forall₂.get h hlt (h.length_eq ▸ hlt)).2
    rw [List.get_eq_getElem, List.getElem_range] at hget
    exact hget

variable [ToRepr F] [LawfulToRepr F]

/-- Whatever the entries are worth, the selected one has 128 bits. -/
theorem ensures_selectBits {j : ℕ} (hselector : selector.Holds .any positions j) {entries : List (Lc F F)} {v : ℕ → F}
    (hentries : List.Forall₂ (Lc.Holds .any) entries ((List.range positions).map v)) :
    (Step.selectBits selector entries).Ensures fun out =>
      Boolean.HoldsAll .any out (bytesBits (cellBytes (v j))) ∧ InChunk (v j) := by
  refine (hselector.yields_select_range hentries).ensures.bind fun value hvalue => ensures_bits.mono fun out hout => ?_
  obtain ⟨xs, hlen, hreads, heval⟩ := hout
  obtain ⟨bs, hbs, rfl⟩ := exists_bytesBits (n := chunkBytes) hlen
  rw [hvalue.eval_eq, beBits_bytesBits] at heval
  have hvalue : v j = fromBe bs := heval
  rw [hvalue, cellBytes_fromBe hbs]
  exact ⟨hreads, bs, hbs, rfl⟩

/-- The chunks of position `j` have 16 bytes, and the state after it is the compression of its block from the
state before it. -/
structure Cells.Compresses (cells : Cells F F) (layout : Layout) (j : ℕ) : Prop where
  chunk : ∀ c < chunksPerBlock, InChunk (cells.chunk (chunksPerBlock * j + c)).lc.eval
  after : ∀ h < 2, Message.stateValue cells j h = fromBe (halfOf
    (Sha256.compress (.ofBytes (stateBytes (cells.beforeValue layout j))) (cells.block j)).bytes h)

theorem ensures_compression (gadget : CompressionGadget F) {j : ℕ} (hselector : selector.Holds .any positions j) :
    (Step.compression gadget.compress cells layout selector).Ensures fun _ => cells.Compresses layout j := by
  have hchunks : ∀ c < chunksPerBlock, (Step.selectBits selector
      ((List.range positions).map fun j => cells.chunk (chunksPerBlock * j + c))).Ensures fun out =>
      Boolean.HoldsAll .any out (bytesBits (cellBytes (cells.chunk (chunksPerBlock * j + c)).lc.eval)) ∧
        InChunk (cells.chunk (chunksPerBlock * j + c)).lc.eval := by
    intro c _
    refine ensures_selectBits hselector (v := fun i => (cells.chunk (chunksPerBlock * i + c)).lc.eval) ?_
    rw [List.forall₂_map_left_iff, List.forall₂_map_right_iff, List.forall₂_same]
    exact fun i _ => ⟨rfl, fun hw => by cases hw⟩
  refine (ensures_joinBits hchunks).bind fun block hblock => ?_
  have hbefore : ∀ h < 2, (do
      let entries ← (List.range positions).mapM fun j => cells.stateBeforeIn layout j h
      Step.selectBits selector entries).Ensures fun out =>
      Boolean.HoldsAll .any out (bytesBits (cellBytes (cells.beforeValue layout j h))) ∧
        InChunk (cells.beforeValue layout j h) := by
    intro h _
    refine (ensures_entries (fun j => ensures_stateBeforeIn) positions).bind fun entries hentries => ?_
    exact ensures_selectBits hselector (v := fun i => cells.beforeValue layout i h) hentries
  refine (ensures_joinBits hbefore).bind fun before hbefore => ?_
  have hlen : (stateBytes (cells.beforeValue layout j)).length = 32 := by
    simp [stateBytes, cellBytes, chunkBytes]
  have hstate : Boolean.HoldsAll .any before.flatten
      (bytesBits (Sha256.HashState.ofBytes (stateBytes (cells.beforeValue layout j))).bytes) := by
    rw [Sha256.HashState.bytes_ofBytes hlen]
    exact hbefore.1
  refine (gadget.correct .any hblock.1 (cells.length_block j) hstate).ensures.bind fun after hafter => ?_
  have hmatch : (forM (List.range 2) (Step.matchHalf cells selector after)).Ensures fun _ => ∀ h ∈ List.range 2,
      Message.stateValue cells j h = fromBe (halfOf
        (Sha256.compress (.ofBytes (stateBytes (cells.beforeValue layout j))) (cells.block j)).bytes h) :=
    Circuit.Ensures.forM fun h _ => ensures_matchHalf hselector hafter
  exact hmatch.mono fun _ hafter => ⟨hblock.2, fun h hh => hafter h (List.mem_range.mpr hh)⟩

/-- A step that reports position `j` checks that position, whatever its selector was filled with. -/
theorem Cells.compresses_of_runs [LargeChar F] (gadget : CompressionGadget F) {j position : ℕ} (hj : j < positions)
    (h : (Step.precommitted gadget.compress cells layout position).Runs [(j : F)] ()) : cells.Compresses layout j := by
  have hpositions : positions = 32 := rfl
  obtain ⟨v, ins, hins, h⟩ := h
  obtain ⟨rfl, rfl⟩ := List.cons.inj hins
  have hrest : (do
      let selector ← OneHot.alloc positions (some position)
      equal selector.index (Lc.num (⟨(j : F), some (position : F)⟩ : AllocatedNum F F))
      Step.compression gadget.compress cells layout selector).Ensures fun _ => cells.Compresses layout j := by
    refine (OneHot.ensures_alloc (by omega)).bind fun selector hselector => ?_
    obtain ⟨i, hselector⟩ := hselector
    refine ensures_equal.bind fun _ heq => ?_
    have hinput : (Lc.num (⟨(j : F), some (position : F)⟩ : AllocatedNum F F)).Holds .any (j : F) :=
      Lc.holds_num ⟨rfl, fun hw => by cases hw⟩
    rw [hselector.index.eval_eq, hinput.eval_eq] at heq
    have hi := hselector.lt
    obtain rfl : i = j := LargeChar.natCast_inj (F := F) (by omega) (by omega) heq
    exact ensures_compression gadget hselector
  exact (hrest _ _ h).2

theorem Cells.StepsHold.compresses [LargeChar F] {gadget : CompressionGadget F} (h : cells.StepsHold gadget layout) :
    ∀ j < positions, cells.Compresses layout j := by
  intro j hj
  obtain ⟨position, hrun⟩ := h j hj
  exact Cells.compresses_of_runs gadget hj hrun

end Rules

/-! ## The chains -/

section Chains

variable {F : Type} [Field F] [ToRepr F] {cells other : Cells F F} {layout : Layout}

theorem Cells.chain_succ (region : Region) (k : ℕ) : cells.chain layout region (k + 1) =
    Sha256.compress (cells.chain layout region k) (cells.block (region.first + (k + 1))) := by
  unfold Cells.chain Sha256.compressAll
  rw [List.range_succ, List.map_append, List.foldl_append]
  rfl

/-- A chain from the initial value over the blocks of a padded message. -/
theorem Cells.chain_eq_hash {region : Region} (hiv : region ≠ layout.signed) {k : ℕ} {message : List UInt8}
    (hblocks : (List.range (k + 1)).map (fun i => cells.block (region.first + i)) = chunks 64 (pad message)) :
    (cells.chain layout region k).bytes = Sha256.hash message := by
  rw [hash_eq, compress, ← hblocks, Cells.chain, if_neg hiv]
  rfl

/-- A chain is a function of its region's chunks, and of the start state if it is the signed message's. -/
theorem Cells.chain_congr {region : Region} {k : ℕ}
    (hstart : region = layout.signed → ∀ h < 2, other.startValue h = cells.startValue h)
    (hchunks : ∀ c, chunksPerBlock * region.first ≤ c → c < chunksPerBlock * (region.first + k + 1) →
      (other.chunk c).lc.eval = (cells.chunk c).lc.eval) :
    other.chain layout region k = cells.chain layout region k := by
  have hblocks : ((List.range (k + 1)).map fun i => other.block (region.first + i)) =
      (List.range (k + 1)).map fun i => cells.block (region.first + i) := by
    refine List.map_congr_left fun i hi => ?_
    unfold Cells.block
    rw [List.flatMap_def, List.flatMap_def]
    refine congrArg List.flatten (List.map_congr_left fun c hc => ?_)
    have hi := List.mem_range.mp hi
    have hc := List.mem_range.mp hc
    rw [hchunks _ (by unfold chunksPerBlock at *; omega) (by unfold chunksPerBlock at *; omega)]
  unfold Cells.chain
  rw [hblocks]
  by_cases hsigned : region = layout.signed
  · rw [if_pos hsigned, if_pos hsigned, stateBytes_congr (hstart hsigned)]
  · rw [if_neg hsigned, if_neg hsigned]

theorem Cells.inChunk (hsteps : ∀ j < positions, cells.Compresses layout j) {c : ℕ}
    (hc : c < chunksPerBlock * positions) : InChunk (cells.chunk c).lc.eval := by
  have hdiv : c / chunksPerBlock < positions := Nat.div_lt_of_lt_mul hc
  have hchunk := (hsteps _ hdiv).chunk (c % chunksPerBlock) (Nat.mod_lt _ (by decide))
  rw [Nat.div_add_mod] at hchunk
  exact hchunk

variable [LawfulToRepr F]

theorem Cells.beforeValue_first (hlayout : layout.WellFormed) {region : Region} (hregion : region ∈ layout.regions) :
    Sha256.HashState.ofBytes (stateBytes (cells.beforeValue layout region.first)) =
      if region = layout.signed then .ofBytes (stateBytes cells.startValue) else Sha256.iv := by
  rcases List.mem_cons.mp hregion with rfl | hiv
  · rw [if_pos rfl]
    refine congrArg _ (stateBytes_congr fun h _ => ?_)
    rw [Cells.beforeValue, if_pos rfl]
  · have happart := (List.pairwise_cons.mp hlayout.apart).1 region hiv
    have hpos := hlayout.blocks_pos layout.signed List.mem_cons_self
    have hpos' := hlayout.blocks_pos region hregion
    have hfirst : region.first ≠ layout.signed.first := fun heq =>
      happart layout.signed.first ⟨⟨le_rfl, by omega⟩, ⟨by omega, by omega⟩⟩
    have hne : region ≠ layout.signed := by
      rintro rfl
      exact hfirst rfl
    have hstarts : layout.startsFromIv region.first = true := Layout.startsFromIv_iff.mpr ⟨region, hiv, rfl⟩
    have hvalue : stateBytes (cells.beforeValue layout region.first) = Sha256.iv.bytes := by
      rw [← stateBytes_halfOf (F := F) (Sha256.HashState.length_bytes Sha256.iv)]
      refine stateBytes_congr fun h _ => ?_
      rw [Cells.beforeValue, if_neg hfirst, if_pos hstarts]
    rw [if_neg hne, hvalue, Sha256.HashState.ofBytes_bytes]

/-- The states of a region are its chain: the first position starts it, and each further one continues from the
state before it. -/
theorem Cells.stateValue_eq_chain (hlayout : layout.WellFormed) (hsteps : ∀ j < positions, cells.Compresses layout j)
    {region : Region} (hregion : region ∈ layout.regions) {k : ℕ} (hk : k < region.blocks) :
    ∀ h < 2, Message.stateValue cells (region.first + k) h =
      fromBe (halfOf (cells.chain layout region k).bytes h) := by
  have hrange := hlayout.in_range region hregion
  induction k with
  | zero =>
    have hstep := (hsteps region.first (by omega)).after
    rw [Cells.beforeValue_first hlayout hregion] at hstep
    exact hstep
  | succ k ih =>
    have hprevious := ih (by omega)
    have hcontinues := hlayout.continues hregion (i := region.first + (k + 1)) (by omega) (by omega)
    have hbefore : stateBytes (cells.beforeValue layout (region.first + (k + 1))) =
        (cells.chain layout region k).bytes := by
      rw [← stateBytes_halfOf (F := F) (Sha256.HashState.length_bytes (cells.chain layout region k))]
      refine stateBytes_congr fun h hh => ?_
      rw [Cells.beforeValue, if_neg hcontinues.1, hcontinues.2]
      exact hprevious h hh
    have hstep := (hsteps (region.first + (k + 1)) (by omega)).after
    rw [hbefore, Sha256.HashState.ofBytes_bytes, ← Cells.chain_succ] at hstep
    exact hstep

theorem Cells.holds_any (hsteps : ∀ j < positions, cells.Compresses layout j) : cells.Holds .any
    ((List.range (chunksPerBlock * positions)).map fun c => ToRepr.toNat (cells.chunk c).lc.eval) where
  length_eq := by simp
  lt := by
    intro n hn
    obtain ⟨c, hc, rfl⟩ := List.mem_map.mp hn
    exact (Cells.inChunk hsteps (List.mem_range.mp hc)).toNat_lt
  cell := by
    intro c hc
    have hvalue : ((List.range (chunksPerBlock * positions)).map fun c => ToRepr.toNat (cells.chunk c).lc.eval).getD c 0 =
        ToRepr.toNat (cells.chunk c).lc.eval := by
      rw [List.getD_eq_getElem?_getD, List.getElem?_map, List.getElem?_range hc]
      rfl
    rw [hvalue, (Cells.inChunk hsteps hc).natCast_toNat]
    refine ⟨?_, fun hw => by cases hw⟩
    rw [Cells.chunk, dif_pos hc, Lc.num, AllocatedNum.eval_lc]
  known := fun n _ => ⟨rfl, fun hw => by cases hw⟩

theorem Table.exists_cells [LargeChar F] (gadget : CompressionGadget F) {signed : List UInt8} {skipped : ℕ}
    {messages : List (Region × List UInt8)} {table : Table} (hskipped : skipped ≤ lastBlock signed.length)
    (h : Table.withMessages fullMdoc signed skipped messages = .ok table) :
    ∃ cells : Cells F F, cells.Carries .honest table ∧ cells.StepsHold gadget fullMdoc := by
  have hzero : fullMdoc.StartsAtZero := .inl rfl
  have hsized := Table.withMessages_sized hskipped h
  obtain ⟨nums, -, hnums⟩ := succeeds_allocate (F := F) table
  have hcount : nums.length = cellsPerPosition * positions + 2 :=
    hnums.length_eq.trans (Table.length_cellBytes table)
  have hcarries : (⟨nums, hcount⟩ : Cells F F).Carries .honest table := hnums
  refine ⟨⟨nums, hcount⟩, hcarries, fun j hj => ⟨j, ?_⟩⟩
  have hstep := Table.withMessages_stepHolds Table.wellFormed_fullMdoc hzero hskipped h hj
  exact (honest_precommitted gadget hcarries hsized hzero hj hstep).runs

end Chains

/-- Whoever filled the table: when the 32 steps hold, every chunk is below `2 ^ 128`, each region's states are the
compression chain of its blocks, an opened message's digest is the chain after its selected last block, and
the states of a region are the same in any two tables that agree on the region's own chunks. -/
theorem steps_chain (gadget : CompressionGadget Scalar) (cells : Cells Scalar Scalar)
    (hsteps : cells.StepsHold gadget fullMdoc) :
    (∀ c < chunksPerBlock * positions, ToRepr.toNat (cells.chunk c).lc.eval < 2 ^ 128) ∧
    ∀ region ∈ fullMdoc.regions,
      (∀ k < region.blocks, ∀ h < 2, Message.stateValue cells (region.first + k) h =
        fromBe (halfOf (cells.chain fullMdoc region k).bytes h)) ∧
      (∀ last m high low, (Message.openRegion cells region last).Runs [] (m, high, low) →
        ∃ k, m.last.Holds .any region.blocks k ∧
          high.lc.eval = fromBe (halfOf (cells.chain fullMdoc region k).bytes 0) ∧
          low.lc.eval = fromBe (halfOf (cells.chain fullMdoc region k).bytes 1)) ∧
      ∀ other : Cells Scalar Scalar, other.StepsHold gadget fullMdoc →
        (region = fullMdoc.signed → ∀ h < 2, other.startValue h = cells.startValue h) →
        ∀ k < region.blocks, (∀ c, chunksPerBlock * region.first ≤ c → c < chunksPerBlock * (region.first + k + 1) →
          (other.chunk c).lc.eval = (cells.chunk c).lc.eval) →
        ∀ h < 2, Message.stateValue other (region.first + k) h = Message.stateValue cells (region.first + k) h := by
  have hcells := hsteps.compresses
  refine ⟨fun c hc => (Cells.inChunk hcells hc).toNat_lt, fun region hregion => ?_⟩
  have hchain := fun k (hk : k < region.blocks) =>
    Cells.stateValue_eq_chain Table.wellFormed_fullMdoc hcells hregion hk
  refine ⟨hchain, ?_, ?_⟩
  · intro last m high low hrun
    obtain ⟨-, k, hopened⟩ := Message.ensures_openRegion (Cells.holds_any hcells)
      (Table.wellFormed_fullMdoc.in_range region hregion) _ _ hrun
    refine ⟨k, hopened.last, ?_, ?_⟩
    · rw [hopened.high.eval_eq, hchain k hopened.last.lt 0 (by decide)]
    · rw [hopened.low.eval_eq, hchain k hopened.last.lt 1 (by decide)]
  · intro other hother hstart k hk hchunks h hh
    rw [hchain k hk h hh, ← Cells.chain_congr hstart hchunks]
    exact Cells.stateValue_eq_chain Table.wellFormed_fullMdoc hother.compresses hregion hk h hh

/-- The table of an empty signed message and an attribute of one byte. -/
theorem steps_chain_short : ∃ cells : Cells Scalar Scalar, cells.StepsHold readingGadget fullMdoc ∧
    ∀ h < 2, Message.stateValue cells 22 h = fromBe (halfOf (cells.chain fullMdoc fullMdoc.attr 0).bytes h) := by
  have hfits : ∀ t ∈ Table.padded fullMdoc [] 0 [(fullMdoc.attr, [7])], Fits t := by decide
  obtain ⟨table, htable, -⟩ := Table.withMessages_of_fits Table.wellFormed_fullMdoc (by decide) (by decide) hfits
  obtain ⟨cells, -, hsteps⟩ := Table.exists_cells (readingGadget (F := Scalar)) (Nat.zero_le _) htable
  have hchain := (steps_chain readingGadget cells hsteps).2 fullMdoc.attr (by decide)
  exact ⟨cells, hsteps, hchain.1 0 (by decide)⟩

end ZkCredVega.Nym
