import ZkCredVega.Nym.Rules
import ZkCredVega.Nym.Table

/-!
# Windows of a message

`gadgets/select.rs` and `gadgets/window.rs`: the one-hot selector, and the bytes that the core
reads at a private offset of a message of the shared table. A block and a chunk selector pick the
chunks, which are split into bytes, and a shifter drops those before the offset.
-/

namespace ZkCredVega.Nym

open Circuits

/-! ## The selector -/

/-- One bit per index, exactly one of them set. -/
structure OneHot (V : Type) where
  bits : List (Boolean V)

section Gadgets

variable {F V : Type} [Field F] [One V]

namespace OneHot

/-- One bit slot per index, and the rule that the bits add up to one. -/
def alloc (n : ℕ) (index : Option ℕ) : Circuit F V (OneHot V) := do
  let bits ← (List.range n).mapM fun j => Boolean.alloc (index.map fun i => i == j)
  equal (bits.foldl (fun sum bit => sum + Lc.bit bit) 0) (Lc.constant (1 : F))
  pure ⟨bits⟩

/-- The selected index, the sum of `j * s_j`. -/
def index (s : OneHot V) : Lc F V :=
  s.bits.zipIdx.foldl (fun sum t => sum + (Lc.bit t.1).scale (t.2 : F)) 0

/-- One round of `select`, which adds `s_j * (t_j - t_0)`. -/
def selectTerm (first sum : Lc F V) (t : Boolean V × Lc F V) : Circuit F V (Lc F V) := do
  let term ← mul (Lc.bit t.1) (t.2 - first)
  pure (sum + term)

/-- The entry at the selected index, with one rule for each entry after the first. -/
def select (s : OneHot V) (entries : List (Lc F V)) : Circuit F V (Lc F V) := do
  .assert (entries.length = s.bits.length)
  match entries with
  | [] => .fail .panic
  | first :: _ => ((s.bits.zip entries).drop 1).foldlM (selectTerm first) first

end OneHot

/-! ## The cells -/

def chunkBytes : ℕ := 16

def chunksPerBlock : ℕ := 4

/-- A position holds the chunks of its block and the two halves of the state after it. -/
def cellsPerPosition : ℕ := chunksPerBlock + 2

/-- The shared segment as the circuits read it, with the two halves of the start state last. -/
structure Cells (F V : Type) where
  nums : List (AllocatedNum F V)
  length_eq : nums.length = cellsPerPosition * positions + 2

namespace Cells

omit [Field F] [One V] in
theorem chunk_lt (cells : Cells F V) {c : ℕ} (h : c < chunksPerBlock * positions) :
    cellsPerPosition * (c / chunksPerBlock) + c % chunksPerBlock < cells.nums.length := by
  rw [cells.length_eq]
  unfold cellsPerPosition chunksPerBlock positions at *
  omega

/-- Chunk `c` of the table, counting from the first chunk of position 0, or zero past the end. -/
def chunk (cells : Cells F V) (c : ℕ) : Lc F V :=
  if h : c < chunksPerBlock * positions then Lc.num (cells.nums.get ⟨_, cells.chunk_lt h⟩) else 0

/-- Half `h` of the state after position `j`. -/
def state (cells : Cells F V) (j h : ℕ) : Circuit F V (Lc F V) :=
  match cells.nums[cellsPerPosition * j + chunksPerBlock + h]? with
  | some n => pure (Lc.num n)
  | none => .fail .panic

end Cells

/-! ## Messages -/

def offsetBits : ℕ := 11

/-- One message of the shared table, as a core circuit reads it. -/
structure Message (F V : Type) where
  cells : Cells F V
  region : Region
  last : OneHot V

/-- Bytes read at an offset, and the offset as a sum of slots. -/
structure ReadWindow (F V : Type) where
  bytes : List (Lc F V)
  offset : Lc F V

/-- The `n` low bits of an integer, most significant first. -/
def smallBits (v n : ℕ) : List Bool := ((List.range n).map fun i => v.testBit i).reverse

/-- The bytes of a bit list, eight bits per byte. -/
def bitBytes (bits : List (Boolean V)) : List (Lc F V) := (chunks 8 bits).map pack

namespace Message

/-- `open`: selects the message's last block and reads the state after it, the message's digest. -/
def openRegion (cells : Cells F V) (region : Region) (last : Option ℕ) : Circuit F V (Message F V × Lc F V × Lc F V) := do
  let last ← OneHot.alloc region.blocks last
  let highs ← (List.range region.blocks).mapM fun j => cells.state (region.first + j) 0
  let high ← last.select highs
  let lows ← (List.range region.blocks).mapM fun j => cells.state (region.first + j) 1
  let low ← last.select lows
  pure (⟨cells, region, last⟩, high, low)

/-- The chunk at position `r`, counted from the first chunk of the selected block. -/
def reached (m : Message F V) (block : OneHot V) (r : ℕ) : Circuit F V (Lc F V) :=
  block.select ((List.range m.region.blocks).map fun b => m.cells.chunk (chunksPerBlock * (m.region.first + b) + r))

def chunkAt [ToRepr F] (chunk : OneHot V) (reached : List (Lc F V)) (k : ℕ) : Circuit F V (List (Lc F V)) := do
  let value ← chunk.select ((reached.drop k).take chunksPerBlock)
  let out ← bits value (8 * chunkBytes)
  pure (bitBytes out)

/-- One choice between a byte and the one `step` after it. -/
def shiftByte (bit : Boolean V) (step : ℕ) (window : List (Lc F V)) (t : ℕ) : Circuit F V (Lc F V) :=
  match window[t]?, window[t + step]? with
  | some kept, some shifted => mux (Lc.bit bit) kept shifted
  | _, _ => .fail .panic

/-- A stage of the shifter, which keeps the bytes that the later stages need. -/
def shiftStage (len : ℕ) (window : List (Lc F V)) (stage : Boolean V × ℕ) : Circuit F V (List (Lc F V)) :=
  (List.range (len + stage.2 - 1)).mapM (shiftByte stage.1 stage.2 window)

/-- The bytes at the selected block, chunk and shift. -/
def readBytes [ToRepr F] (m : Message F V) (block chunk : OneHot V) (shift : List (Boolean V)) (len : ℕ) :
    Circuit F V (List (Lc F V)) := do
  let count := (len + chunkBytes - 1 + chunkBytes - 1) / chunkBytes
  let reached ← (List.range (count + chunksPerBlock - 1)).mapM (m.reached block)
  let window ← (List.range count).mapM (chunkAt chunk reached)
  (shift.zip [8, 4, 2, 1]).foldlM (shiftStage len) window.flatten

/-- Reads `len` bytes starting at the private byte offset `pos` from the start of the message. -/
def read [ToRepr F] (m : Message F V) (pos : Option ℕ) (len : ℕ) : Circuit F V (ReadWindow F V) := do
  let block ← OneHot.alloc m.region.blocks (pos.map fun a => a / 64)
  let chunk ← OneHot.alloc chunksPerBlock (pos.map fun a => a % 64 / chunkBytes)
  let shift ← allocBits (pos.map fun a => smallBits (a % chunkBytes) 4) 4
  let offset := block.index.scale 64 + chunk.index.scale (chunkBytes : F) + pack shift
  -- The window ends within the last block.
  let endOfLast : Lc F V := Lc.scale 64 (m.last.index + Lc.constant 1)
  rangeCheck (endOfLast - offset - Lc.constant (len : F)) offsetBits
  let bytes ← m.readBytes block chunk shift len
  pure ⟨bytes, offset⟩

/-- A message opened and one window read from it, as the core does. -/
def openRead [ToRepr F] (cells : Cells F V) (region : Region) (last pos : Option ℕ) (len : ℕ) :
    Circuit F V (Message F V × ReadWindow F V) := do
  let opened ← openRegion cells region last
  let window ← opened.1.read pos len
  pure (opened.1, window)

end Message

end Gadgets

/-! ## What a selector selects -/

section Rules

variable {F : Type} [Field F] {who : Circuit.Prover}

namespace OneHot

/-- The selector among `n` selects `j`. -/
structure Holds (who : Circuit.Prover) (s : OneHot F) (n j : ℕ) : Prop where
  bits : Boolean.HoldsAll who s.bits (oneHot n j)
  lt : j < n

theorem holds_sum {bs : List (Boolean F)} {xs : List Bool} (h : Boolean.HoldsAll who bs xs) {a : Lc F F} {v : F}
    (ha : a.Holds who v) : (bs.foldl (fun sum bit => sum + Lc.bit bit) a).Holds who (v + (xs.map ofBool).sum) := by
  induction h generalizing a v with
  | nil => simpa using ha
  | cons hb _ ih =>
    rw [List.foldl_cons, List.map_cons, List.sum_cons, ← add_assoc]
    exact ih (ha.add (Lc.holds_bit hb))

theorem ensures_alloc [LargeChar F] {n : ℕ} (hn : n < 2 ^ 255) {index : Option ℕ} :
    (alloc n index : Circuit F F _).Ensures fun s => ∃ j, s.Holds .any n j := by
  refine Boolean.ensures_allocBits.bind fun bs hbs => ?_
  obtain ⟨xs, hlen, hreads⟩ := hbs
  have hreads : Boolean.HoldsAll .any bs xs := hreads
  rw [List.length_range] at hlen
  refine ensures_equal.bind fun _ heq => Circuit.ensures_pure.mpr ?_
  have hsum : (bs.foldl (fun sum bit => sum + Lc.bit bit) (0 : Lc F F)).Holds .any _ :=
    holds_sum hreads Lc.holds_zero
  have hone : (Lc.constant 1 : Lc F F).Holds .any 1 := Lc.holds_constant 1
  rw [hsum.eval_eq, zero_add, hone.eval_eq] at heq
  obtain ⟨j, hj, hxs⟩ := exists_oneHot_of_sum (hlen ▸ hn) heq
  rw [hlen] at hj hxs
  exact ⟨j, hxs ▸ hreads, hj⟩

theorem succeeds_alloc {n j : ℕ} (hj : j < n) :
    (alloc n (some j) : Circuit F F _).Succeeds (·.Holds .honest n j) := by
  have hbit : ∀ k ∈ List.range n, (Boolean.alloc ((some j).map fun i => i == k) : Circuit F F _).Succeeds
      (·.HonestReads (k == j)) := by
    intro k _
    refine Boolean.succeeds_alloc ?_
    rw [Option.map_some, Bool.beq_comm]
  refine (Circuit.Succeeds.mapM hbit).bind fun bs hbs => ?_
  have hreads : Boolean.HoldsAll .honest bs (oneHot n j) := Boolean.HonestReadsAll.of_forall₂ hbs
  have hsum : (bs.foldl (fun sum bit => sum + Lc.bit bit) (0 : Lc F F)).Holds .honest _ :=
    holds_sum hreads Lc.holds_zero
  rw [zero_add, sum_oneHot hj] at hsum
  exact (yields_equal hsum (Lc.holds_constant 1)).succeeds.bind fun _ _ => Circuit.succeeds_pure.mpr ⟨hreads, hj⟩

theorem holds_weighted {bs : List (Boolean F)} {xs : List Bool} (h : Boolean.HoldsAll who bs xs) {a : Lc F F} {v : F}
    (ha : a.Holds who v) (k : ℕ) :
    ((bs.zipIdx k).foldl (fun sum t => sum + (Lc.bit t.1).scale (t.2 : F)) a).Holds who
      (v + (((xs.map ofBool).zipIdx k).map fun t => (t.2 : F) * t.1).sum) := by
  induction h generalizing a v k with
  | nil => simpa using ha
  | cons hb _ ih =>
    rw [List.zipIdx_cons, List.foldl_cons, List.map_cons, List.zipIdx_cons, List.map_cons, List.sum_cons, ← add_assoc]
    have hstep := ih (ha.add ((Lc.holds_bit hb).scale (k : F))) (k + 1)
    rwa [mul_comm] at hstep

theorem Holds.index {s : OneHot F} {n j : ℕ} (h : s.Holds who n j) : (s.index : Lc F F).Holds who (j : F) := by
  have hsum := holds_weighted h.bits Lc.holds_zero 0
  rwa [zero_add, sum_zipIdx_oneHot (fun k => (k : F)) h.lt] at hsum

theorem yields_selectLoop {bs : List (Boolean F)} {xs : List Bool} (hbs : Boolean.HoldsAll who bs xs)
    {es : List (Lc F F)} {vs : List F} (hes : List.Forall₂ (Lc.Holds who) es vs) {first sum : Lc F F} {v u : F}
    (hfirst : first.Holds who v) (hsum : sum.Holds who u) :
    ((bs.zip es).foldlM (selectTerm first) sum).Yields who
      (·.Holds who (u + ((vs.zip xs).map fun t : F × Bool => (t.1 - v) * ofBool t.2).sum)) := by
  induction hbs generalizing es vs sum u with
  | nil =>
    refine Circuit.yields_pure (a := sum) ?_
    simpa using hsum
  | @cons b x bs xs hb _ ih =>
    cases hes with
    | nil =>
      refine Circuit.yields_pure (a := sum) ?_
      simpa using hsum
    | @cons e w es vs he hes =>
      have hterm : (selectTerm first sum (b, e)).Yields who (·.Holds who (u + (w - v) * ofBool x)) := by
        refine (yields_mul (Lc.holds_bit hb) (he.sub hfirst)).bind fun term hterm => Circuit.yields_pure ?_
        rw [mul_comm]
        exact hsum.add hterm
      rw [List.zip_cons_cons, List.foldlM_cons, List.zip_cons_cons, List.map_cons, List.sum_cons, ← add_assoc]
      exact hterm.bind fun sum' hsum' => ih hes hsum'

theorem Holds.yields_select {s : OneHot F} {n j : ℕ} (h : s.Holds who n j) {es : List (Lc F F)} {vs : List F}
    (hes : List.Forall₂ (Lc.Holds who) es vs) (hlen : vs.length = n) :
    (s.select es).Yields who (·.Holds who (vs.getD j 0)) := by
  have hbits := h.bits.length_eq
  rw [length_oneHot] at hbits
  refine (Circuit.yields_assert (by rw [hes.length_eq, hlen, hbits])).bind fun _ _ => ?_
  have hj := h.lt
  have hbits := h.bits
  obtain ⟨bits⟩ := s
  cases hes with
  | nil => simp at hlen; omega
  | @cons e v es vs he hes =>
    subst hlen
    dsimp only at hbits ⊢
    -- The first entry's own difference is zero, so the loop's sum is one over the whole selector.
    have hsum := fun xs (hxs : xs = oneHot (v :: vs).length j) =>
      sum_zip_oneHot (fun w : F => w - v) (ofBool : Bool → F) (congrArg (List.map ofBool) hxs) hj
    generalize hxs : oneHot (v :: vs).length j = xs at hbits
    cases hbits with
    | nil => exact absurd (congrArg List.length hxs) (by simp)
    | @cons b x bs xs hb hbs =>
      have hloop := yields_selectLoop hbs hes he he
      have hpicked := hsum (x :: xs) hxs.symm
      rw [List.zip_cons_cons, List.map_cons, List.sum_cons, sub_self, zero_mul, zero_add] at hpicked
      rw [hpicked, add_sub_cancel] at hloop
      rw [List.getD_eq_getElem?_getD, List.getElem?_eq_getElem hj]
      exact hloop

/-- Entries that a function of the position gives select its value at the selected position. -/
theorem Holds.yields_select_range {s : OneHot F} {n j : ℕ} (h : s.Holds who n j) {es : List (Lc F F)} {v : ℕ → F}
    (hes : List.Forall₂ (Lc.Holds who) es ((List.range n).map v)) : (s.select es).Yields who (·.Holds who (v j)) := by
  have hselect := h.yields_select hes (by rw [List.length_map, List.length_range])
  rw [List.getD_eq_getElem?_getD, List.getElem?_map, List.getElem?_range h.lt] at hselect
  exact hselect

end OneHot

/-! ## The bytes of a table -/

/-- Byte `k` of a table of 16-byte chunks, or zero past the end. -/
def tableByte (cs : List ℕ) (k : ℕ) : UInt8 :=
  (beBytes chunkBytes (cs.getD (k / chunkBytes) 0)).getD (k % chunkBytes) 0

theorem tableByte_chunk (cs : List ℕ) (c : ℕ) :
    beBytes chunkBytes (cs.getD c 0) = (List.range chunkBytes).map fun t => tableByte cs (chunkBytes * c + t) := by
  have hbytes := map_getD_range (d := 0) (length_beBytes chunkBytes (cs.getD c 0))
  refine hbytes.symm.trans (List.map_congr_left fun t ht => ?_)
  have hlt : t < chunkBytes := List.mem_range.mp ht
  have hpos : 0 < chunkBytes := by decide
  rw [tableByte, Nat.mul_add_div hpos, Nat.div_eq_of_lt hlt, Nat.add_zero, Nat.mul_add_mod, Nat.mod_eq_of_lt hlt]

theorem flatMap_tableByte (cs : List ℕ) (c n : ℕ) :
    ((List.range n).flatMap fun k => beBytes chunkBytes (cs.getD (c + k) 0)) =
      (List.range (chunkBytes * n)).map fun t => tableByte cs (chunkBytes * c + t) := by
  induction n with
  | zero => rfl
  | succ n ih =>
    rw [List.range_succ, List.flatMap_append, ih, List.flatMap_singleton, tableByte_chunk, Nat.mul_succ, List.range_add,
      List.map_append, List.map_map, Nat.mul_add]
    simp only [Function.comp_def, Nat.add_assoc]

theorem holds_bitBytes {out : List (Boolean F)} {bs : List UInt8} (h : Boolean.HoldsAll who out (bytesBits bs)) :
    Lc.HoldAll who (bitBytes out) (bs.map UInt8.toNat) := by
  have hlen := h.length_eq
  rw [length_bytesBits] at hlen
  have hcount : (out.length + 8 - 1) / 8 = bs.length := by omega
  have hbytes : bs.map UInt8.toNat = (List.range bs.length).map fun i => (bs.getD i 0).toNat := by
    have hmap := congrArg (List.map UInt8.toNat) (map_getD_range (d := (0 : UInt8)) (rfl : bs.length = bs.length))
    rw [List.map_map] at hmap
    exact hmap.symm
  rw [Lc.HoldAll, bitBytes, chunks, hcount, hbytes, List.map_map, List.forall₂_map_left_iff, List.forall₂_map_right_iff,
    List.forall₂_same]
  intro i hi
  have hlt : i < bs.length := List.mem_range.mp hi
  have hbyte : ((bytesBits bs).drop (8 * i)).take 8 = bitsOf (bs.getD i 0) := by
    rw [drop_bytesBits, List.drop_eq_getElem_cons hlt, bytesBits_cons, List.take_left' (length_bitsOf _),
      List.getD_eq_getElem?_getD, List.getElem?_eq_getElem hlt]
    rfl
  have hpack := holds_pack (List.forall₂_take 8 (List.forall₂_drop (8 * i) h))
  rw [hbyte, beBits_bitsOf] at hpack
  exact hpack

theorem yields_split [ToRepr F] [LargeChar F] [LawfulToRepr F] {a : Lc F F} {n : ℕ} (ha : a.Holds who (n : F))
    (hn : n < 2 ^ 128) : (do
      let out ← bits a (8 * chunkBytes)
      pure (bitBytes out) : Circuit F F _).Yields who (Lc.HoldAll who · ((beBytes chunkBytes n).map UInt8.toNat)) := by
  have hvalue : beBits (bytesBits (beBytes chunkBytes n)) = n := by
    rw [beBits_bytesBits, bytesNat_beBytes]
    exact Nat.mod_eq_of_lt hn
  have hlen : (bytesBits (beBytes chunkBytes n)).length = 8 * chunkBytes := by simp
  rw [← hvalue] at ha
  exact (yields_bits ha hlen (by decide)).bind fun out hout => Circuit.yields_pure (holds_bitBytes hout)

/-! ## The window's chunks -/

/-- The chunk cells are worth numbers below `2 ^ 128`. -/
structure Cells.Holds (who : Circuit.Prover) (cells : Cells F F) (cs : List ℕ) : Prop where
  length_eq : cs.length = chunksPerBlock * positions
  lt : ∀ n ∈ cs, n < 2 ^ 128
  cell : ∀ (c : ℕ) (h : c < chunksPerBlock * positions),
    (cells.nums.get ⟨_, cells.chunk_lt h⟩).Holds who ((cs.getD c 0 : ℕ) : F)
  known : ∀ n ∈ cells.nums, n.Holds who n.val

namespace Cells.Holds

variable {cells : Cells F F} {cs : List ℕ}

theorem chunk (h : cells.Holds who cs) (c : ℕ) : (cells.chunk c).Holds who ((cs.getD c 0 : ℕ) : F) := by
  unfold Cells.chunk
  split
  · rename_i hc
    exact Lc.holds_num (h.cell c hc)
  · rename_i hc
    have hzero : cs.getD c 0 = 0 := by
      rw [List.getD_eq_getElem?_getD, List.getElem?_eq_none (by rw [h.length_eq]; omega)]
      rfl
    rw [hzero, Nat.cast_zero]
    exact Lc.holds_zero

theorem getD_lt (h : cells.Holds who cs) (c : ℕ) : cs.getD c 0 < 2 ^ 128 := by
  rcases Nat.lt_or_ge c cs.length with hc | hc
  · rw [List.getD_eq_getElem?_getD, List.getElem?_eq_getElem hc]
    exact h.lt _ (List.getElem_mem hc)
  · rw [List.getD_eq_getElem?_getD, List.getElem?_eq_none hc]
    decide

end Cells.Holds

namespace Message

variable {m : Message F F} {cs : List ℕ} {block chunk : OneHot F} {b c : ℕ}

theorem yields_reached (hcells : m.cells.Holds who cs) (hblock : block.Holds who m.region.blocks b) (r : ℕ) :
    (m.reached block r).Yields who
      (·.Holds who ((cs.getD (chunksPerBlock * (m.region.first + b) + r) 0 : ℕ) : F)) := by
  have hentries : List.Forall₂ (Lc.Holds who)
      ((List.range m.region.blocks).map fun b => m.cells.chunk (chunksPerBlock * (m.region.first + b) + r))
      ((List.range m.region.blocks).map fun b => ((cs.getD (chunksPerBlock * (m.region.first + b) + r) 0 : ℕ) : F)) := by
    rw [List.forall₂_map_left_iff, List.forall₂_map_right_iff, List.forall₂_same]
    exact fun b _ => hcells.chunk _
  exact hblock.yields_select_range hentries

theorem yields_chunkAt [ToRepr F] [LargeChar F] [LawfulToRepr F] (hcells : m.cells.Holds who cs)
    (hchunk : chunk.Holds who chunksPerBlock c) {base count k : ℕ} {reached : List (Lc F F)}
    (hreached : Lc.HoldAll who reached ((List.range (count + chunksPerBlock - 1)).map fun r => cs.getD (base + r) 0))
    (hk : k < count) :
    (chunkAt chunk reached k).Yields who
      (Lc.HoldAll who · ((beBytes chunkBytes (cs.getD (base + c + k) 0)).map UInt8.toNat)) := by
  have hentries := List.forall₂_take chunksPerBlock (List.forall₂_drop k hreached)
  have hfour : (((List.range (count + chunksPerBlock - 1)).map fun r => cs.getD (base + r) 0).drop k).take chunksPerBlock =
      (List.range chunksPerBlock).map fun i => cs.getD (base + k + i) 0 := by
    apply List.ext_getElem
    · simp
      unfold chunksPerBlock
      omega
    · intro i _ _
      simp [Nat.add_assoc]
  rw [hfour] at hentries
  have hvalues : List.Forall₂ (Lc.Holds who) ((reached.drop k).take chunksPerBlock)
      ((List.range chunksPerBlock).map fun i => ((cs.getD (base + k + i) 0 : ℕ) : F)) := by
    rw [List.forall₂_map_right_iff] at hentries ⊢
    exact hentries
  refine (hchunk.yields_select_range hvalues).bind fun value hvalue => ?_
  have hsplit := yields_split hvalue (hcells.getD_lt _)
  rw [Nat.add_right_comm] at hsplit
  exact hsplit

/-- A stage moves the window by its step when its bit is set. -/
theorem yields_shiftStage {bit : Boolean F} {x : Bool} (hbit : bit.Holds who x) {g : ℕ → ℕ} {len step width : ℕ}
    (hwidth : len + step - 1 + step ≤ width) {window : List (Lc F F)}
    (hwindow : Lc.HoldAll who window ((List.range width).map g)) :
    (shiftStage len window (bit, step)).Yields who
      (Lc.HoldAll who · ((List.range (len + step - 1)).map fun t => g (t + x.toNat * step))) := by
  refine Circuit.Yields.mapM_targets ?_
  rw [List.forall₂_map_right_iff, List.forall₂_same]
  intro t ht
  have hlen := hwindow.length_eq
  rw [List.length_map, List.length_range] at hlen
  have hlt : t < len + step - 1 := List.mem_range.mp ht
  have hat : ∀ i (hi : i < window.length), (window.get ⟨i, hi⟩).Holds who ((g i : ℕ) : F) := by
    intro i hi
    have hget := hwindow.get hi (by simpa using hlen ▸ hi)
    simpa using hget
  rw [shiftByte, List.getElem?_eq_getElem (by omega : t < window.length),
    List.getElem?_eq_getElem (by omega : t + step < window.length)]
  have hmux := yields_mux (Lc.holds_bit hbit) (hat t (by omega)) (hat (t + step) (by omega))
  refine hmux.mono fun out hout => ?_
  cases x with
  | false => simpa using hout
  | true => simpa using hout

/-- The four stages move the window by the number of the shift bits. -/
theorem yields_shift {shift : List (Boolean F)} {xs : List Bool} (hshift : Boolean.HoldsAll who shift xs)
    (hfour : xs.length = 4) {g : ℕ → ℕ} {len width : ℕ} (hwidth : len + 15 ≤ width) {window : List (Lc F F)}
    (hwindow : Lc.HoldAll who window ((List.range width).map g)) :
    ((shift.zip [8, 4, 2, 1]).foldlM (shiftStage len) window).Yields who
      (Lc.HoldAll who · ((List.range len).map fun t => g (beBits xs + t))) := by
  obtain ⟨x0, x1, x2, x3, rfl⟩ : ∃ x0 x1 x2 x3, xs = [x0, x1, x2, x3] := by
    match xs, hfour with
    | [x0, x1, x2, x3], _ => exact ⟨x0, x1, x2, x3, rfl⟩
  cases hshift with
  | cons h0 hshift =>
  cases hshift with
  | cons h1 hshift =>
  cases hshift with
  | cons h2 hshift =>
  cases hshift with
  | cons h3 hshift =>
  cases hshift
  have hbits : ∀ y0 y1 y2 y3 : Bool, beBits [y0, y1, y2, y3] =
      y3.toNat * 1 + (y2.toNat * 2 + (y1.toNat * 4 + y0.toNat * 8)) := by decide
  refine (yields_shiftStage h0 (by omega) hwindow).bind fun w0 hw0 => ?_
  refine (yields_shiftStage h1 (by omega) hw0).bind fun w1 hw1 => ?_
  refine (yields_shiftStage h2 (by omega) hw1).bind fun w2 hw2 => ?_
  refine (yields_shiftStage h3 (by omega) hw2).bind fun w3 hw3 => Circuit.yields_pure ?_
  rw [hbits]
  have hindex : ∀ t, t + x3.toNat * 1 + x2.toNat * 2 + x1.toNat * 4 + x0.toNat * 8 =
      x3.toNat * 1 + (x2.toNat * 2 + (x1.toNat * 4 + x0.toNat * 8)) + t := by
    intro t
    omega
  simpa only [hindex, Nat.add_sub_cancel] using hw3

/-- Once the selectors are fixed, the bytes are those of the table from the selected place on. -/
theorem yields_readBytes [ToRepr F] [LargeChar F] [LawfulToRepr F] (hcells : m.cells.Holds who cs)
    (hblock : block.Holds who m.region.blocks b) (hchunk : chunk.Holds who chunksPerBlock c)
    {shift : List (Boolean F)} {xs : List Bool} (hshift : Boolean.HoldsAll who shift xs) (hfour : xs.length = 4)
    (len : ℕ) :
    (m.readBytes block chunk shift len).Yields who (Lc.HoldAll who · ((List.range len).map fun t =>
      (tableByte cs (64 * m.region.first + (64 * b + chunkBytes * c + beBits xs) + t)).toNat)) := by
  have hcount : len + 15 ≤ chunkBytes * ((len + chunkBytes - 1 + chunkBytes - 1) / chunkBytes) := by
    unfold chunkBytes
    omega
  generalize hn : (len + chunkBytes - 1 + chunkBytes - 1) / chunkBytes = count at hcount
  rw [readBytes, hn]
  have hreached : ((List.range (count + chunksPerBlock - 1)).mapM (m.reached block)).Yields who
      (Lc.HoldAll who · ((List.range (count + chunksPerBlock - 1)).map fun r =>
        cs.getD (chunksPerBlock * (m.region.first + b) + r) 0)) := by
    refine Circuit.Yields.mapM_targets ?_
    rw [List.forall₂_map_right_iff, List.forall₂_same]
    exact fun r _ => yields_reached hcells hblock r
  refine hreached.bind fun reached hreached => ?_
  have hchunks : ((List.range count).mapM (chunkAt chunk reached)).Yields who
      (List.Forall₂ (Lc.HoldAll who) · ((List.range count).map fun k =>
        (beBytes chunkBytes (cs.getD (chunksPerBlock * (m.region.first + b) + c + k) 0)).map UInt8.toNat)) := by
    refine Circuit.Yields.mapM_targets ?_
    rw [List.forall₂_map_right_iff, List.forall₂_same]
    exact fun k hk => yields_chunkAt hcells hchunk hreached (List.mem_range.mp hk)
  refine hchunks.bind fun parts hparts => ?_
  have hwindow := List.rel_flatten hparts
  have hflatten : ((List.range count).map fun k =>
      (beBytes chunkBytes (cs.getD (chunksPerBlock * (m.region.first + b) + c + k) 0)).map UInt8.toNat).flatten =
      (List.range (chunkBytes * count)).map fun t =>
        (tableByte cs (chunkBytes * (chunksPerBlock * (m.region.first + b) + c) + t)).toNat := by
    have hmap := congrArg (List.map UInt8.toNat)
      (flatMap_tableByte cs (chunksPerBlock * (m.region.first + b) + c) count)
    rw [List.map_flatMap, List.map_map] at hmap
    exact hmap
  rw [hflatten] at hwindow
  refine (yields_shift hshift hfour hcount hwindow).mono fun out hout => ?_
  have hindex : ∀ t, chunkBytes * (chunksPerBlock * (m.region.first + b) + c) + (beBits xs + t) =
      64 * m.region.first + (64 * b + chunkBytes * c + beBits xs) + t := by
    intro t
    unfold chunkBytes chunksPerBlock
    ring
  simpa only [hindex] using hout

/-! ## Opening and reading -/

omit [Field F] in
theorem beBits_smallBits {v n : ℕ} (h : v < 2 ^ n) : beBits (smallBits v n) = v := by
  rw [← leBits_reverse, smallBits, List.reverse_reverse]
  exact leBits_toLEBits h

omit [Field F] in
theorem length_smallBits (v n : ℕ) : (smallBits v n).length = n := by simp [smallBits]

theorem ensures_rangeCheck [ToRepr F] {a : Lc F F} {n : ℕ} :
    (rangeCheck a n).Ensures fun _ => ∃ v < 2 ^ n, a.lc.eval = ((v : ℕ) : F) := by
  refine ensures_bits.bind fun _ hbits => Circuit.ensures_pure.mpr ?_
  obtain ⟨xs, hlen, -, heval⟩ := hbits
  exact ⟨beBits xs, hlen ▸ beBits_lt xs, heval⟩

theorem yields_rangeCheck [ToRepr F] [LargeChar F] [LawfulToRepr F] {a : Lc F F} {v n : ℕ} (ha : a.Holds who (v : F))
    (hv : v < 2 ^ n) (hn : n < 256) : (rangeCheck a n).Yields who fun _ => True := by
  rw [← beBits_smallBits hv] at ha
  exact (yields_bits ha (length_smallBits v n) hn).bind fun _ _ => Circuit.yields_pure trivial

theorem holds_offset (hblock : block.Holds who m.region.blocks b) (hchunk : chunk.Holds who chunksPerBlock c)
    {shift : List (Boolean F)} {xs : List Bool} (hshift : Boolean.HoldsAll who shift xs) :
    (block.index.scale 64 + chunk.index.scale (chunkBytes : F) + pack shift : Lc F F).Holds who
      ((64 * b + chunkBytes * c + beBits xs : ℕ) : F) := by
  have hsum := ((hblock.index.scale 64).add (hchunk.index.scale (chunkBytes : F))).add (holds_pack hshift)
  convert hsum using 1
  push_cast
  ring

theorem holds_room {last o : ℕ} (hlast : m.last.Holds who m.region.blocks last) {offset : Lc F F}
    (hoffset : offset.Holds who (o : F)) (len : ℕ) :
    (Lc.scale 64 (m.last.index + Lc.constant 1) - offset - Lc.constant (len : F)).Holds who
      (((last : F) + 1) * 64 - o - len) :=
  ((((hlast.index.add (Lc.holds_constant 1)).scale 64).sub hoffset).sub (Lc.holds_constant _))

theorem ensures_read [ToRepr F] [LargeChar F] [LawfulToRepr F] (hcells : m.cells.Holds .any cs)
    (hblocks : m.region.blocks < 2 ^ 64) {last : ℕ} (hlast : m.last.Holds .any m.region.blocks last)
    {pos : Option ℕ} {len : ℕ} (hlen : len < 2 ^ 64) :
    (m.read pos len).Ensures fun w => ∃ o : ℕ, w.offset.Holds .any (o : F) ∧ o + len ≤ 64 * (last + 1) ∧
      Lc.HoldAll .any w.bytes ((List.range len).map fun t => (tableByte cs (64 * m.region.first + o + t)).toNat) := by
  refine (OneHot.ensures_alloc (by omega)).bind fun block hblock => ?_
  obtain ⟨b, hblock⟩ := hblock
  refine (OneHot.ensures_alloc (by decide)).bind fun chunk hchunk => ?_
  obtain ⟨c, hchunk⟩ := hchunk
  have hhint : ∀ bs ∈ pos.map fun a => smallBits (a % chunkBytes) 4, bs.length = 4 := by
    intro bs hbs
    obtain ⟨a, -, rfl⟩ := Option.map_eq_some_iff.mp hbs
    exact length_smallBits _ _
  rw [allocBits_eq hhint]
  refine Boolean.ensures_allocBits.bind fun shift hshift => ?_
  obtain ⟨xs, hfour, hshift⟩ := hshift
  have hshift : Boolean.HoldsAll .any shift xs := hshift
  rw [List.length_range] at hfour
  have hoffset := holds_offset hblock hchunk hshift
  have hroom := holds_room hlast hoffset len
  refine ensures_rangeCheck.bind fun _ hcheck => ?_
  obtain ⟨r, hr, heval⟩ := hcheck
  rw [hroom.eval_eq] at heval
  have hbytes := (yields_readBytes hcells hblock hchunk hshift hfour len).ensures
  have hb := hblock.lt
  have hc : c < 4 := hchunk.lt
  have hl := hlast.lt
  have hs := beBits_lt xs
  rw [hfour] at hs
  have hcast : ((64 * (last + 1) : ℕ) : F) =
      ((r + (64 * b + chunkBytes * c + beBits xs) + len : ℕ) : F) := by
    rw [Nat.cast_add, Nat.cast_add, ← heval]
    push_cast
    ring
  have hnat := LargeChar.natCast_inj (F := F) (by omega)
    (by unfold chunkBytes; unfold offsetBits at hr; omega) hcast
  refine hbytes.bind fun bytes hbytes => Circuit.ensures_pure.mpr ⟨_, hoffset, by omega, hbytes⟩

theorem succeeds_read [ToRepr F] [LargeChar F] [LawfulToRepr F] (hcells : m.cells.Holds .honest cs) {last : ℕ}
    (hlast : m.last.Holds .honest m.region.blocks last) (hblocks : m.region.blocks ≤ positions) {o len : ℕ}
    (hlen : 1 ≤ len) (ho : o + len ≤ 64 * (last + 1)) :
    (m.read (some o) len).Succeeds fun w => w.offset.Holds .honest (o : F) ∧
      Lc.HoldAll .honest w.bytes ((List.range len).map fun t => (tableByte cs (64 * m.region.first + o + t)).toNat) := by
  have hl := hlast.lt
  have hpositions : positions = 32 := rfl
  refine (OneHot.succeeds_alloc (by omega : o / 64 < m.region.blocks)).bind fun block hblock => ?_
  have hc : o % 64 / chunkBytes < chunksPerBlock := by
    unfold chunksPerBlock chunkBytes
    omega
  refine (OneHot.succeeds_alloc hc).bind fun chunk hchunk => ?_
  have hfour := length_smallBits (o % chunkBytes) 4
  refine (succeeds_allocBits hfour).bind fun shift hshift => ?_
  have hshift : Boolean.HoldsAll .honest shift (smallBits (o % chunkBytes) 4) := hshift
  have hs : beBits (smallBits (o % chunkBytes) 4) = o % chunkBytes :=
    beBits_smallBits (by unfold chunkBytes; omega)
  have hsum : 64 * (o / 64) + chunkBytes * (o % 64 / chunkBytes) + beBits (smallBits (o % chunkBytes) 4) = o := by
    rw [hs]
    unfold chunkBytes
    omega
  have hoffset := holds_offset hblock hchunk hshift
  have hbytes := yields_readBytes hcells hblock hchunk hshift hfour len
  rw [hsum] at hoffset hbytes
  have hroom := holds_room hlast hoffset len
  have hvalue : ((last : F) + 1) * 64 - o - len = ((64 * (last + 1) - o - len : ℕ) : F) := by
    rw [Nat.cast_sub (by omega), Nat.cast_sub (by omega)]
    push_cast
    ring
  rw [hvalue] at hroom
  have hfits : 64 * (last + 1) - o - len < 2 ^ offsetBits := by
    unfold offsetBits
    omega
  refine (yields_rangeCheck hroom hfits (by decide)).succeeds.bind fun _ _ => ?_
  exact hbytes.succeeds.bind fun bytes hbytes => Circuit.succeeds_pure.mpr ⟨hoffset, hbytes⟩

def stateValue (cells : Cells F F) (j h : ℕ) : F :=
  (cells.nums[cellsPerPosition * j + chunksPerBlock + h]?.map AllocatedNum.val).getD 0

theorem yields_state {cells : Cells F F} (hcells : cells.Holds who cs) {region : Region}
    (hregion : region.first + region.blocks ≤ positions) {last : OneHot F} {l : ℕ}
    (hlast : last.Holds who region.blocks l) {h : ℕ} (hh : h < 2) :
    ((List.range region.blocks).mapM (fun j => cells.state (region.first + j) h) >>= last.select).Yields who
      (·.Holds who (stateValue cells (region.first + l) h)) := by
  have hstates : ((List.range region.blocks).mapM fun j => cells.state (region.first + j) h).Yields who
      (List.Forall₂ (Lc.Holds who) · ((List.range region.blocks).map fun j => stateValue cells (region.first + j) h)) := by
    refine Circuit.Yields.mapM_targets ?_
    rw [List.forall₂_map_right_iff, List.forall₂_same]
    intro j hj
    have hlt : j < region.blocks := List.mem_range.mp hj
    have hindex : cellsPerPosition * (region.first + j) + chunksPerBlock + h < cells.nums.length := by
      rw [cells.length_eq]
      unfold cellsPerPosition chunksPerBlock positions at *
      omega
    rw [Cells.state, stateValue, List.getElem?_eq_getElem hindex]
    exact Circuit.yields_pure (Lc.holds_num (hcells.known _ (List.getElem_mem hindex)))
  refine hstates.bind fun es hes => ?_
  exact hlast.yields_select_range hes

/-- An opened message selects a block of its region, and its digest is the state after that block. -/
structure Opened (who : Circuit.Prover) (cells : Cells F F) (region : Region) (l : ℕ)
    (r : Message F F × Lc F F × Lc F F) : Prop where
  cells_eq : r.1.cells = cells
  region_eq : r.1.region = region
  last : r.1.last.Holds who region.blocks l
  high : r.2.1.Holds who (stateValue cells (region.first + l) 0)
  low : r.2.2.Holds who (stateValue cells (region.first + l) 1)

theorem openRegion_eq (cells : Cells F F) (region : Region) (last : Option ℕ) :
    openRegion cells region last = (do
      let last ← OneHot.alloc region.blocks last
      let high ← (List.range region.blocks).mapM (fun j => cells.state (region.first + j) 0) >>= last.select
      let low ← (List.range region.blocks).mapM (fun j => cells.state (region.first + j) 1) >>= last.select
      pure (⟨cells, region, last⟩, high, low)) := by
  simp only [openRegion, bind_assoc]

theorem yields_opened {cells : Cells F F} (hcells : cells.Holds who cs) {region : Region}
    (hregion : region.first + region.blocks ≤ positions) {last : OneHot F} {l : ℕ}
    (hlast : last.Holds who region.blocks l) :
    (do
      let high ← (List.range region.blocks).mapM (fun j => cells.state (region.first + j) 0) >>= last.select
      let low ← (List.range region.blocks).mapM (fun j => cells.state (region.first + j) 1) >>= last.select
      pure ((⟨cells, region, last⟩, high, low) : Message F F × Lc F F × Lc F F)).Yields who (Opened who cells region l) := by
  refine (yields_state hcells hregion hlast (by decide)).bind fun high hhigh => ?_
  refine (yields_state hcells hregion hlast (by decide)).bind fun low hlow => ?_
  exact Circuit.yields_pure ⟨rfl, rfl, hlast, hhigh, hlow⟩

theorem ensures_openRegion [LargeChar F] {cells : Cells F F} (hcells : cells.Holds .any cs) {region : Region}
    (hregion : region.first + region.blocks ≤ positions) {last : Option ℕ} :
    (openRegion cells region last).Ensures fun r => ∃ l, Opened .any cells region l r := by
  have hpositions : positions = 32 := rfl
  rw [openRegion_eq]
  refine (OneHot.ensures_alloc (by omega)).bind fun last hlast => ?_
  obtain ⟨l, hlast⟩ := hlast
  exact (yields_opened hcells hregion hlast).ensures.mono fun r hr => ⟨l, hr⟩

theorem succeeds_openRegion {cells : Cells F F} (hcells : cells.Holds .honest cs) {region : Region}
    (hregion : region.first + region.blocks ≤ positions) {l : ℕ} (hl : l < region.blocks) :
    (openRegion cells region (some l)).Succeeds (Opened .honest cells region l) := by
  rw [openRegion_eq]
  exact (OneHot.succeeds_alloc hl).bind fun last hlast => (yields_opened hcells hregion hlast).succeeds

end Message

def regionBytes (cs : List ℕ) (region : Region) : List UInt8 :=
  ((cs.flatMap (beBytes chunkBytes)).drop (64 * region.first)).take (64 * region.blocks)

omit [Field F] in
theorem take_drop_regionBytes {cs : List ℕ} (hcs : cs.length = chunksPerBlock * positions) {region : Region}
    (hregion : region.first + region.blocks ≤ positions) {o len : ℕ} (ho : o + len ≤ 64 * region.blocks) :
    ((regionBytes cs region).drop o).take len =
      (List.range len).map fun t => tableByte cs (64 * region.first + o + t) := by
  have hall : cs.flatMap (beBytes chunkBytes) =
      (List.range (chunkBytes * cs.length)).map fun t => tableByte cs t := by
    have hflat := flatMap_tableByte cs 0 cs.length
    simp only [Nat.zero_add, Nat.mul_zero] at hflat
    have hself : (List.range cs.length).map (fun i => cs.getD i 0) = cs := map_getD_range rfl
    rw [← hflat, ← hself, List.flatMap_map, hself]
  have hpositions : chunkBytes * (chunksPerBlock * positions) = 64 * positions := rfl
  rw [regionBytes, hall, hcs, hpositions]
  apply List.ext_getElem
  · simp
    omega
  · intro i _ _
    simp [Nat.add_assoc]

end Rules

/-! ## Windows over the scalar field -/

/-- The bytes that a window read at an offset of the region. -/
def ReadWindow.IsAt (w : ReadWindow Scalar Scalar) (cs : List ℕ) (region : Region) (o len : ℕ) : Prop :=
  w.offset.lc.eval = (o : Scalar) ∧
    w.bytes.map (fun a => a.lc.eval) = (((regionBytes cs region).drop o).take len).map fun b => (b.toNat : Scalar)

theorem ReadWindow.isAt_of_holds {who : Circuit.Prover} {w : ReadWindow Scalar Scalar} {cs : List ℕ} {region : Region}
    {o len : ℕ} (hcs : cs.length = chunksPerBlock * positions) (hregion : region.first + region.blocks ≤ positions)
    (ho : o + len ≤ 64 * region.blocks) (hoffset : w.offset.Holds who (o : Scalar))
    (hbytes : Lc.HoldAll who w.bytes ((List.range len).map fun t =>
      (tableByte cs (64 * region.first + o + t)).toNat)) : w.IsAt cs region o len := by
  refine ⟨hoffset.eval_eq, ?_⟩
  rw [take_drop_regionBytes hcs hregion ho, List.map_map]
  rw [Lc.HoldAll, List.forall₂_map_right_iff] at hbytes
  have heq : ∀ {as : List (Lc Scalar Scalar)} {ts : List ℕ} {f : ℕ → Scalar},
      List.Forall₂ (fun a t => a.Holds who (f t)) as ts → as.map (fun a => a.lc.eval) = ts.map f := by
    intro as ts f h
    induction h with
    | nil => rfl
    | cons h _ ih => rw [List.map_cons, List.map_cons, ih, h.eval_eq]
  exact heq hbytes

/-- Whatever the assignment, a window lies before the end of the selected last block, and its bytes are
those of the region there; the honest prover reads at every such offset, and nobody past it. -/
theorem Message.openRead_exact (cells : Cells Scalar Scalar) (cs : List ℕ) (region : Region) (len : ℕ)
    (hcells : cells.Holds .any cs) (hregion : region.first + region.blocks ≤ positions) (hlen : 1 ≤ len)
    (hsize : len < 2 ^ 64) :
    (∀ last pos, (openRead cells region last pos len).Ensures fun r =>
      ∃ l o, r.1.last.Holds .any region.blocks l ∧ o + len ≤ 64 * (l + 1) ∧ r.2.IsAt cs region o len) ∧
    (cells.Holds .honest cs → ∀ l < region.blocks, ∀ o, o + len ≤ 64 * (l + 1) →
      (openRead cells region (some l) (some o) len).Succeeds fun r =>
        r.1.last.Holds .honest region.blocks l ∧ r.2.IsAt cs region o len) ∧
    (∀ last pos l o, o < 2 ^ 64 → 64 * (l + 1) < o + len →
      ¬(openRead cells region last pos len).Admits fun r =>
        r.1.last.Holds .any region.blocks l ∧ r.2.offset.lc.eval = (o : Scalar)) := by
  have hpositions : positions = 32 := rfl
  have hsound : ∀ last pos, (openRead cells region last pos len).Ensures fun r =>
      ∃ l o, r.1.last.Holds .any region.blocks l ∧ o + len ≤ 64 * (l + 1) ∧ r.2.IsAt cs region o len := by
    intro last pos
    refine (ensures_openRegion hcells hregion).bind fun r hr => ?_
    obtain ⟨l, hr⟩ := hr
    obtain ⟨⟨cells', region', last'⟩, high, low⟩ := r
    obtain ⟨rfl, rfl, hlast, -, -⟩ := hr
    have hl : l < region'.blocks := hlast.lt
    have hblocks : region'.blocks ≤ positions := le_trans (Nat.le_add_left _ _) hregion
    have hfew : region'.blocks < 2 ^ 64 := by omega
    refine (ensures_read (m := ⟨cells', region', last'⟩) hcells hfew hlast hsize).bind fun w hw => ?_
    obtain ⟨o, hoffset, ho, hbytes⟩ := hw
    have hinside : o + len ≤ 64 * region'.blocks := by omega
    have hat := ReadWindow.isAt_of_holds hcells.length_eq hregion hinside hoffset hbytes
    exact Circuit.ensures_pure.mpr ⟨l, o, hlast, ho, hat⟩
  refine ⟨hsound, ?_, ?_⟩
  · intro hhonest l hl o ho
    refine (succeeds_openRegion hhonest hregion hl).bind fun r hr => ?_
    obtain ⟨⟨cells', region', last'⟩, high, low⟩ := r
    obtain ⟨rfl, rfl, hlast, -, -⟩ := hr
    have hl : l < region'.blocks := hl
    have hblocks : region'.blocks ≤ positions := le_trans (Nat.le_add_left _ _) hregion
    have hread := succeeds_read (m := ⟨cells', region', last'⟩) hhonest hlast hblocks hlen ho
    refine hread.bind fun w hw => Circuit.succeeds_pure.mpr ⟨hlast, ?_⟩
    have hinside : o + len ≤ 64 * region'.blocks := by omega
    exact ReadWindow.isAt_of_holds hcells.length_eq hregion hinside hw.1 hw.2
  · rintro last pos l o ho hpast ⟨r, hruns, hlast, hoffset⟩
    obtain ⟨-, l', o', hlast', ho', heval, -⟩ := hsound last pos _ _ hruns
    have hl := hlast.lt
    have hl' := hlast'.lt
    have hsame := LargeChar.natCast_inj (F := Scalar) (by omega) (by omega)
      (hlast'.index.eval_eq.symm.trans hlast.index.eval_eq)
    have heq := LargeChar.natCast_inj (F := Scalar) (by omega) (by omega) (heval.symm.trans hoffset)
    omega

/-- The chunks of a table whose bytes count up from zero. -/
def countingChunks : List ℕ := (chunks chunkBytes (Table.countingBytes (64 * positions))).map bytesNat

/-- Its cells; those of the states are numbered. -/
def countingCell (i : ℕ) : Scalar :=
  if i % cellsPerPosition < chunksPerBlock then
    (countingChunks.getD (chunksPerBlock * (i / cellsPerPosition) + i % cellsPerPosition) 0 : ℕ)
  else (i : ℕ)

def countingCells : Cells Scalar Scalar where
  nums := (List.range 194).map fun i => ⟨countingCell i, some (countingCell i)⟩
  length_eq := by rw [List.length_map, List.length_range]; rfl

theorem holds_countingCells (who : Circuit.Prover) : countingCells.Holds who countingChunks where
  length_eq := by
    rw [countingChunks, List.length_map, length_chunks, Table.length_countingBytes]
    rfl
  lt := by
    intro n hn
    obtain ⟨b, hb, rfl⟩ := List.mem_map.mp hn
    obtain ⟨c, -, rfl⟩ := List.mem_map.mp hb
    refine (bytesNat_lt _).trans_le ?_
    calc 256 ^ _ ≤ 256 ^ chunkBytes := Nat.pow_le_pow_right (by decide) (List.length_take_le _ _)
      _ = 2 ^ 128 := by decide
  cell := by
    intro c hc
    have hnum : countingCells.nums.get ⟨_, countingCells.chunk_lt hc⟩ =
        ⟨countingCell (cellsPerPosition * (c / chunksPerBlock) + c % chunksPerBlock),
          some (countingCell (cellsPerPosition * (c / chunksPerBlock) + c % chunksPerBlock))⟩ := by
      simp [countingCells]
    have hvalue : countingCell (cellsPerPosition * (c / chunksPerBlock) + c % chunksPerBlock) =
        (countingChunks.getD c 0 : ℕ) := by
      have hchunk : (cellsPerPosition * (c / chunksPerBlock) + c % chunksPerBlock) % cellsPerPosition =
          c % chunksPerBlock := by
        unfold cellsPerPosition chunksPerBlock
        omega
      have hposition : (cellsPerPosition * (c / chunksPerBlock) + c % chunksPerBlock) / cellsPerPosition =
          c / chunksPerBlock := by
        unfold cellsPerPosition chunksPerBlock
        omega
      have hlt : c % chunksPerBlock < chunksPerBlock := Nat.mod_lt _ (by decide)
      rw [countingCell, hchunk, hposition, if_pos hlt, Nat.div_add_mod]
    rw [hnum, hvalue]
    exact ⟨rfl, fun _ => rfl⟩
  known := by
    intro n hn
    obtain ⟨i, -, rfl⟩ := List.mem_map.mp hn
    exact ⟨rfl, fun _ => rfl⟩

theorem take_drop_countingChunks : ((regionBytes countingChunks ⟨3, 2⟩).drop 100).take 28 =
    (List.range 28).map fun i => UInt8.ofNat (36 + i) := by
  decide +kernel

/-- The last bytes of the second block, the table's bytes from 292 on. -/
theorem Message.openRead_exact_counting :
    (openRead countingCells ⟨3, 2⟩ (some 1) (some 100) 28).Succeeds fun r =>
      r.1.last.Holds .honest 2 1 ∧ r.2.offset.lc.eval = (100 : ℕ) ∧
        r.2.bytes.map (fun a => a.lc.eval) =
          ((List.range 28).map fun i => UInt8.ofNat (36 + i)).map fun b => (b.toNat : Scalar) := by
  obtain ⟨-, hhonest, -⟩ := openRead_exact countingCells countingChunks ⟨3, 2⟩ 28 (holds_countingCells .any)
    (by decide) (by decide) (by decide)
  refine (hhonest (holds_countingCells .honest) 1 (by decide) 100 (by decide)).mono fun r hr => ?_
  obtain ⟨hlast, hoffset, hbytes⟩ := hr
  rw [take_drop_countingChunks] at hbytes
  exact ⟨hlast, hoffset, hbytes⟩

end ZkCredVega.Nym
