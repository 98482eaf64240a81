import ZkCredVega.Sha256
import Mathlib.Data.List.Infix
import Mathlib.Data.List.Pairwise

/-!
# The shared table

The native side of `table.rs`: the layout of the regions, the padding of a message, and
the construction of the table's blocks and of the hash state after each of them.
-/

namespace ZkCredVega.Nym

open Circuits

/-! ## The layout -/

def positions : ℕ := 32

/-- A run of positions that holds one message. -/
structure Region where
  first : ℕ
  blocks : ℕ
deriving DecidableEq

/-- The positions of the full statement's messages. -/
structure PseudonymRegions where
  ssc : Region
  seed : Region
  nym : Region
deriving DecidableEq

/-- Where the table holds each message. -/
structure Layout where
  signed : Region
  attr : Region
  pseudonym : Option PseudonymRegions
deriving DecidableEq

/-- The full statement's layout for an mdoc. -/
def fullMdoc : Layout := ⟨⟨0, 22⟩, ⟨22, 2⟩, some ⟨⟨24, 3⟩, ⟨30, 1⟩, ⟨28, 2⟩⟩⟩

namespace Layout

/-- The positions whose chain starts from the initial value. -/
def startsFromIv (layout : Layout) (j : ℕ) : Bool :=
  j == layout.attr.first ||
    layout.pseudonym.any fun p => j == p.ssc.first || j == p.seed.first || j == p.nym.first

/-- The regions whose messages chain from the initial value. -/
def ivRegions (layout : Layout) : List Region :=
  layout.attr :: layout.pseudonym.elim [] fun p => [p.ssc, p.seed, p.nym]

def regions (layout : Layout) : List Region := layout.signed :: layout.ivRegions

end Layout

def Region.Holds (r : Region) (j : ℕ) : Prop := r.first ≤ j ∧ j < r.first + r.blocks

instance (r : Region) (j : ℕ) : Decidable (r.Holds j) := inferInstanceAs (Decidable (_ ∧ _))

/-! ## Hashing -/

/-- The index of the block that ends a message of `len` bytes after padding. -/
def lastBlock (len : ℕ) : ℕ := (len + 8) / 64

/-- The number of whole blocks before the byte at `offset`. -/
def blocksBefore (offset : ℕ) : ℕ := offset / 64

/-- `while padded.len() % 64 != 56 { padded.push(0) }`, for at most `fuel` turns. -/
def pushZeros : ℕ → List UInt8 → List UInt8
  | 0, padded => padded
  | fuel + 1, padded => if padded.length % 64 ≠ 56 then pushZeros fuel (padded ++ [0]) else padded

/-- SHA-256 padding: a one bit, zeros, and the bit length as a 64-bit big-endian integer. -/
def pad (message : List UInt8) : List UInt8 :=
  pushZeros 64 (message ++ [0x80]) ++ Sha256.be64 (8 * message.length)

/-- Compresses the blocks one after the other, starting from `state`. -/
def compress (state : Sha256.HashState) (blocks : List UInt8) : Sha256.HashState :=
  (chunks 64 blocks).foldl Sha256.compress state

/-! ## The table -/

/-- The values of the shared table: the blocks, the state after each, and the start state. -/
structure Table where
  blocks : List (List UInt8)
  states : List (List UInt8)
  start : List UInt8
  layout : Layout

/-- A message of `blocks` blocks does not fit in `room` blocks; or the build panics. -/
inductive TableError where
  | doesNotFit (blocks room : ℕ)
  | panic
deriving DecidableEq

/-- `blocks[first + j].copy_from_slice(block)` for each block of a message. -/
def copyBlocks (first : ℕ) : List (List UInt8) → List (List UInt8) → Except TableError (List (List UInt8))
  | [], blocks => .ok blocks
  | block :: rest, blocks =>
    if first < blocks.length then copyBlocks (first + 1) rest (blocks.set first block) else .error .panic

/-- One message of `with_messages`, copied into its region. -/
def placeMessage (blocks : List (List UInt8)) (t : Region × List UInt8) :
    Except TableError (List (List UInt8)) :=
  if 64 * t.1.blocks < t.2.length then .error (.doesNotFit (t.2.length / 64) t.1.blocks)
  else copyBlocks t.1.first (chunks 64 t.2) blocks

/-- The state that block `j` is compressed from, after `state`. -/
def stateBefore (layout : Layout) (start : List UInt8) (state : Sha256.HashState) (j : ℕ) : Sha256.HashState :=
  let state := if j = layout.signed.first then Sha256.HashState.ofBytes start else state
  if layout.startsFromIv j then Sha256.iv else state

/-- The states after the blocks from position `j` on. -/
def statesFrom (layout : Layout) (start : List UInt8) :
    Sha256.HashState → ℕ → List (List UInt8) → List Sha256.HashState
  | _, _, [] => []
  | state, j, block :: rest =>
    let state := compress (stateBefore layout start state j) block
    state :: statesFrom layout start state (j + 1) rest

namespace Table

def fromBlocksIn (layout : Layout) (blocks : List (List UInt8)) (start : List UInt8) : Except TableError Table :=
  if blocks.length = positions then
    .ok ⟨blocks, (statesFrom layout start Sha256.iv 0 blocks).map (·.bytes), start, layout⟩
  else .error .panic

/-- The signed message's padded bytes before and after the skipped blocks. -/
def splitSigned (signed : List UInt8) (skipped : ℕ) : List UInt8 × List UInt8 :=
  let signed := pad signed
  signed.splitAt (min (64 * skipped) signed.length)

def padded (layout : Layout) (signed : List UInt8) (skipped : ℕ) (messages : List (Region × List UInt8)) :
    List (Region × List UInt8) :=
  (layout.signed, (splitSigned signed skipped).2) :: messages.map fun t => (t.1, pad t.2)

/-- The signed message in its region, without its first `skipped` blocks, and each other message,
padded, in its region. -/
def withMessages (layout : Layout) (signed : List UInt8) (skipped : ℕ) (messages : List (Region × List UInt8)) :
    Except TableError Table := do
  let start := compress Sha256.iv (splitSigned signed skipped).1
  let blocks ← (padded layout signed skipped messages).foldlM placeMessage
    (List.replicate positions (List.replicate 64 0))
  fromBlocksIn layout blocks start.bytes

end Table

/-! ## Padding -/

theorem pushZeros_eq (fuel : ℕ) (padded : List UInt8) (h : (120 - padded.length % 64) % 64 ≤ fuel) :
    pushZeros fuel padded = padded ++ List.replicate ((120 - padded.length % 64) % 64) 0 := by
  induction fuel generalizing padded with
  | zero =>
    rw [Nat.le_zero.mp h]
    simp [pushZeros]
  | succ fuel ih =>
    rw [pushZeros]
    split
    · have hsucc : (120 - padded.length % 64) % 64 = (120 - (padded ++ [(0 : UInt8)]).length % 64) % 64 + 1 := by
        rw [List.length_append, List.length_singleton]
        omega
      rw [ih _ (by omega), hsucc, List.replicate_succ, List.append_assoc, List.singleton_append]
    · have hzero : (120 - padded.length % 64) % 64 = 0 := by omega
      rw [hzero, List.replicate_zero, List.append_nil]

/-- The padding loop computes the padding of SHA-256. -/
theorem pad_eq (message : List UInt8) : pad message = Sha256.pad message := by
  have hcount : (120 - (message ++ [(0x80 : UInt8)]).length % 64) % 64 = (119 - message.length % 64) % 64 := by
    rw [List.length_append, List.length_singleton]
    omega
  rw [pad, pushZeros_eq 64 _ (by omega), hcount, Sha256.pad]

theorem length_pad (message : List UInt8) : (pad message).length = 64 * (lastBlock message.length + 1) := by
  rw [pad_eq, Sha256.length_pad, lastBlock]
  omega

theorem prefix_pad (message : List UInt8) : message <+: pad message := by
  rw [pad_eq, Sha256.pad, List.append_assoc, List.append_assoc]
  exact List.prefix_append _ _

/-! ## Copying the messages -/

/-- The blocks of a message land at its positions, and the others stay. -/
theorem copyBlocks_ok {first : ℕ} {cs blocks : List (List UInt8)} (h : first + cs.length ≤ blocks.length) :
    ∃ out, copyBlocks first cs blocks = .ok out ∧ out.length = blocks.length ∧
      (∀ j < cs.length, out[first + j]? = cs[j]?) ∧
      ∀ i, i < first ∨ first + cs.length ≤ i → out[i]? = blocks[i]? := by
  induction cs generalizing first blocks with
  | nil => exact ⟨blocks, rfl, rfl, fun j hj => absurd hj (Nat.not_lt_zero j), fun _ _ => rfl⟩
  | cons c cs ih =>
    rw [List.length_cons] at h
    obtain ⟨out, hrun, hlen, hin, hout⟩ := @ih (first + 1) (blocks.set first c) (by rw [List.length_set]; omega)
    refine ⟨out, ?_, by rw [hlen, List.length_set], ?_, ?_⟩
    · rw [copyBlocks, if_pos (by omega), hrun]
    · intro j hj
      cases j with
      | zero =>
        rw [Nat.add_zero, hout first (.inl (by omega)), List.getElem?_set_self (by omega)]
        rfl
      | succ j =>
        rw [List.length_cons] at hj
        rw [List.getElem?_cons_succ, ← hin j (by omega)]
        congr 1
        omega
    · intro i hi
      rw [List.length_cons] at hi
      rw [hout i (by omega), List.getElem?_set_ne (by omega)]

def Fits (t : Region × List UInt8) : Prop := t.2.length ≤ 64 * t.1.blocks

instance (t : Region × List UInt8) : Decidable (Fits t) := inferInstanceAs (Decidable (_ ≤ _))

/-- No position belongs to both. -/
def Region.Apart (r s : Region) : Prop := ∀ j, ¬(r.Holds j ∧ s.Holds j)

theorem length_chunks_le {t : Region × List UInt8} (h : Fits t) : (chunks 64 t.2).length ≤ t.1.blocks := by
  unfold Fits at h
  rw [length_chunks]
  omega

theorem placeMessages_ok {ts : List (Region × List UInt8)} {blocks : List (List UInt8)}
    (hfits : ∀ t ∈ ts, Fits t) (hin : ∀ t ∈ ts, t.1.first + t.1.blocks ≤ blocks.length)
    (hapart : ts.Pairwise fun s t => s.1.Apart t.1) :
    ∃ out, ts.foldlM placeMessage blocks = .ok out ∧ out.length = blocks.length ∧
      (∀ t ∈ ts, ∀ j < (chunks 64 t.2).length, out[t.1.first + j]? = (chunks 64 t.2)[j]?) ∧
      ∀ i, (∀ t ∈ ts, ¬t.1.Holds i) → out[i]? = blocks[i]? := by
  induction ts generalizing blocks with
  | nil => exact ⟨blocks, rfl, rfl, fun _ h => absurd h List.not_mem_nil, fun _ _ => rfl⟩
  | cons t ts ih =>
    rw [List.forall_mem_cons] at hfits hin
    rw [List.pairwise_cons] at hapart
    have hcount := length_chunks_le hfits.1
    obtain ⟨mid, hmid, hmidLen, hmidIn, hmidOut⟩ :=
      @copyBlocks_ok t.1.first (chunks 64 t.2) blocks (by omega)
    obtain ⟨out, hout, hlen, hplaced, hkept⟩ := @ih mid hfits.2 (by rw [hmidLen]; exact hin.2) hapart.2
    have hplace : placeMessage blocks t = .ok mid := by
      have hfit := hfits.1
      unfold Fits at hfit
      rw [placeMessage, if_neg (by omega), hmid]
    refine ⟨out, ?_, hlen.trans hmidLen, ?_, ?_⟩
    · rw [List.foldlM_cons, hplace]
      exact hout
    · intro s hs j hj
      rcases List.mem_cons.mp hs with rfl | hs
      · -- the later messages leave this region alone
        have hown : s.1.Holds (s.1.first + j) := ⟨by omega, by omega⟩
        rw [hkept _ fun u hu hheld => hapart.1 u hu _ ⟨hown, hheld⟩, hmidIn j hj]
      · exact hplaced s hs j hj
    · intro i hi
      rw [List.forall_mem_cons] at hi
      have hfree : i < t.1.first ∨ t.1.first + (chunks 64 t.2).length ≤ i := by
        have hnot := hi.1
        unfold Region.Holds at hnot
        omega
      rw [hkept i hi.2, hmidOut i hfree]

/-- A message that does not fit is reported. -/
theorem placeMessages_error {ts : List (Region × List UInt8)} {blocks : List (List UInt8)}
    (hin : ∀ t ∈ ts, t.1.first + t.1.blocks ≤ blocks.length) (h : ∃ t ∈ ts, ¬Fits t) :
    ∃ count room, ts.foldlM placeMessage blocks = .error (.doesNotFit count room) := by
  induction ts generalizing blocks with
  | nil =>
    obtain ⟨t, ht, -⟩ := h
    cases ht
  | cons t ts ih =>
    rw [List.forall_mem_cons] at hin
    rw [List.foldlM_cons]
    by_cases hfit : Fits t
    · have hcount := length_chunks_le hfit
      obtain ⟨mid, hmid, hmidLen, -⟩ := @copyBlocks_ok t.1.first (chunks 64 t.2) blocks (by omega)
      have hplace : placeMessage blocks t = .ok mid := by
        unfold Fits at hfit
        rw [placeMessage, if_neg (by omega), hmid]
      have hrest : ∃ t ∈ ts, ¬Fits t := by
        obtain ⟨s, hs, hnot⟩ := h
        rcases List.mem_cons.mp hs with rfl | hs
        · exact absurd hfit hnot
        · exact ⟨s, hs, hnot⟩
      rw [hplace]
      exact ih (by rw [hmidLen]; exact hin.2) hrest
    · have hplace : placeMessage blocks t = .error (.doesNotFit (t.2.length / 64) t.1.blocks) := by
        unfold Fits at hfit
        rw [placeMessage, if_pos (by omega)]
      rw [hplace]
      exact ⟨_, _, rfl⟩

/-! ## The chains -/

theorem chunks_split {α : Type} {n : ℕ} (hn : 0 < n) (a : ℕ) {xs : List α} (h : n * a ≤ xs.length) :
    chunks n xs = chunks n (xs.take (n * a)) ++ chunks n (xs.drop (n * a)) := by
  induction a generalizing xs with
  | zero => simp [chunks_nil hn]
  | succ a ih =>
    rw [Nat.mul_succ] at h
    have hne : xs ≠ [] := by
      rintro rfl
      rw [List.length_nil] at h
      omega
    have htake : xs.take (n * (a + 1)) ≠ [] := by
      rw [Nat.mul_succ, ← List.length_pos_iff, List.length_take]
      omega
    rw [chunks_of_ne_nil hn hne, chunks_of_ne_nil hn htake, List.take_take, List.drop_take,
      @ih (xs.drop n) (by rw [List.length_drop]; omega), List.drop_drop, Nat.mul_succ, Nat.add_sub_cancel,
      Nat.min_eq_left (by omega), Nat.add_comm n]
    rfl

theorem length_of_mem_chunks {α : Type} {n a : ℕ} (hn : 0 < n) {xs c : List α} (h : xs.length = n * a)
    (hc : c ∈ chunks n xs) : c.length = n := by
  induction a generalizing xs with
  | zero =>
    rw [Nat.mul_zero, List.length_eq_zero_iff] at h
    rw [h, chunks_nil hn] at hc
    cases hc
  | succ a ih =>
    rw [Nat.mul_succ] at h
    have hne : xs ≠ [] := by
      rw [← List.length_pos_iff]
      omega
    rw [chunks_of_ne_nil hn hne, List.mem_cons] at hc
    rcases hc with rfl | hc
    · rw [List.length_take]
      omega
    · exact ih (by rw [List.length_drop]; omega) hc

theorem compress_block (state : Sha256.HashState) {block : List UInt8} (h : block.length = 64) :
    compress state block = Sha256.compress state block := by
  have hne : block ≠ [] := by
    rw [← List.length_pos_iff]
    omega
  rw [compress, chunks_of_ne_nil (by decide) hne, List.take_of_length_le h.le, List.drop_of_length_le h.le,
    chunks_nil (by decide)]
  rfl

/-- The digest is the state after the blocks of the padded message. -/
theorem hash_eq (message : List UInt8) : Sha256.hash message = (compress Sha256.iv (pad message)).bytes := by
  have hlen := length_pad message
  have hcount : (pad message).length / 64 = ((pad message).length + 64 - 1) / 64 := by omega
  rw [Sha256.hash, ← pad_eq, Sha256.blocks, hcount]
  rfl

section Chains

variable {layout : Layout} {start : List UInt8}

/-- No chain starts at position `j`. -/
def Continues (layout : Layout) (j : ℕ) : Prop := j ≠ layout.signed.first ∧ layout.startsFromIv j = false

theorem stateBefore_continues {j : ℕ} (h : Continues layout j) (state : Sha256.HashState) :
    stateBefore layout start state j = state := by
  simp [stateBefore, h.1, h.2]

/-- A chain runs over the blocks up to where the next one starts. -/
theorem statesFrom_chain {cs rest : List (List UInt8)} {state : Sha256.HashState} {j k : ℕ}
    (hfree : ∀ i, j < i → i < j + cs.length → Continues layout i) (hlen : ∀ c ∈ cs, c.length = 64)
    (hk : k < cs.length) : (statesFrom layout start state j (cs ++ rest))[k]? =
      some (Sha256.compressAll (stateBefore layout start state j) (cs.take (k + 1))) := by
  induction cs generalizing state j k with
  | nil => exact absurd hk (Nat.not_lt_zero k)
  | cons c cs ih =>
    rw [List.forall_mem_cons] at hlen
    rw [List.length_cons] at hfree hk
    rw [List.cons_append, statesFrom, compress_block _ hlen.1]
    cases k with
    | zero => rfl
    | succ k =>
      have hnext := @ih (Sha256.compress (stateBefore layout start state j) c) (j + 1) k
        (fun i hi hi' => hfree i (by omega) (by omega)) hlen.2 (by omega)
      rw [stateBefore_continues (hfree (j + 1) (by omega) (by omega))] at hnext
      rw [List.getElem?_cons_succ, hnext, List.take_succ_cons, Sha256.compressAll, Sha256.compressAll,
        List.foldl_cons]

theorem exists_statesFrom_drop (state : Sha256.HashState) (j : ℕ) (blocks : List (List UInt8)) (i : ℕ) :
    ∃ state', ∀ k, (statesFrom layout start state j blocks)[i + k]? =
      (statesFrom layout start state' (j + i) (blocks.drop i))[k]? := by
  induction i generalizing state j blocks with
  | zero => exact ⟨state, fun k => by rw [Nat.zero_add]; rfl⟩
  | succ i ih =>
    cases blocks with
    | nil => exact ⟨state, fun k => by simp [statesFrom]⟩
    | cons b blocks =>
      obtain ⟨state', h⟩ := ih (compress (stateBefore layout start state j) b) (j + 1) blocks
      refine ⟨state', fun k => ?_⟩
      rw [statesFrom, show i + 1 + k = i + k + 1 by omega, List.getElem?_cons_succ, h k, List.drop_succ_cons]
      congr 2
      omega

theorem drop_eq_append {cs blocks : List (List UInt8)} {first : ℕ}
    (h : ∀ j < cs.length, blocks[first + j]? = cs[j]?) :
    blocks.drop first = cs ++ blocks.drop (first + cs.length) := by
  apply List.ext_getElem?
  intro i
  rw [List.getElem?_drop, List.getElem?_append]
  split
  · next hi => exact h i hi
  · next hi =>
    rw [List.getElem?_drop]
    congr 1
    omega

/-- The state after block `k` of a message in a region where no other chain starts. -/
theorem getElem?_statesFrom {cs blocks : List (List UInt8)} {first k : ℕ}
    (hblocks : ∀ j < cs.length, blocks[first + j]? = cs[j]?) (hlen : ∀ c ∈ cs, c.length = 64)
    (hfree : ∀ i, first < i → i < first + cs.length → Continues layout i) (hk : k < cs.length) :
    ∃ state, (statesFrom layout start Sha256.iv 0 blocks)[first + k]? =
      some (Sha256.compressAll (stateBefore layout start state first) (cs.take (k + 1))) := by
  obtain ⟨state, h⟩ := @exists_statesFrom_drop layout start Sha256.iv 0 blocks first
  rw [Nat.zero_add] at h
  refine ⟨state, ?_⟩
  rw [h k, drop_eq_append hblocks, statesFrom_chain hfree hlen hk]

end Chains

/-! ## Well-formed layouts -/

theorem Layout.startsFromIv_iff {layout : Layout} {j : ℕ} :
    layout.startsFromIv j = true ↔ ∃ r ∈ layout.ivRegions, r.first = j := by
  unfold startsFromIv ivRegions
  cases layout.pseudonym with
  | none => simp [@eq_comm _ j]
  | some p => simp [@eq_comm _ j, or_assoc]

/-- Every region is a run of at least one position, the runs are in the table, and no two share a
position. -/
structure Layout.WellFormed (layout : Layout) : Prop where
  blocks_pos : ∀ r ∈ layout.regions, 0 < r.blocks
  in_range : ∀ r ∈ layout.regions, r.first + r.blocks ≤ positions
  apart : layout.regions.Pairwise Region.Apart

namespace Layout.WellFormed

variable {layout : Layout} (h : layout.WellFormed)

include h

theorem apart_of_ne {r s : Region} (hr : r ∈ layout.regions) (hs : s ∈ layout.regions) (hne : r ≠ s) :
    r.Apart s := by
  have hsymm : Std.Symm Region.Apart := ⟨fun r s hrs j hj => hrs j hj.symm⟩
  exact h.apart.forall hr hs hne

theorem continues {r : Region} (hr : r ∈ layout.regions) {i : ℕ} (hfirst : r.first < i)
    (hlast : i < r.first + r.blocks) : Continues layout i := by
  have hother : ∀ s ∈ layout.regions, s.first ≠ i := by
    rintro s hs rfl
    have hne : r ≠ s := by
      rintro rfl
      omega
    have hpos := h.blocks_pos s hs
    exact h.apart_of_ne hr hs hne s.first ⟨⟨by omega, hlast⟩, ⟨le_rfl, by omega⟩⟩
  refine ⟨fun hi => hother layout.signed List.mem_cons_self hi.symm, ?_⟩
  rw [Bool.eq_false_iff]
  intro hstarts
  obtain ⟨s, hs, hi⟩ := startsFromIv_iff.mp hstarts
  exact hother s (List.mem_cons_of_mem _ hs) hi

theorem stateBefore_signed (start : List UInt8) (state : Sha256.HashState) :
    stateBefore layout start state layout.signed.first = Sha256.HashState.ofBytes start := by
  have hnot : layout.startsFromIv layout.signed.first = false := by
    rw [Bool.eq_false_iff]
    intro hstarts
    obtain ⟨s, hs, hi⟩ := startsFromIv_iff.mp hstarts
    have happart := (List.pairwise_cons.mp h.apart).1 s hs
    have hpos := h.blocks_pos layout.signed List.mem_cons_self
    have hpos' := h.blocks_pos s (List.mem_cons_of_mem _ hs)
    exact happart layout.signed.first ⟨⟨le_rfl, by omega⟩, ⟨by omega, by omega⟩⟩
  simp [stateBefore, hnot]

omit h in
theorem stateBefore_iv {r : Region} (hr : r ∈ layout.ivRegions) (start : List UInt8) (state : Sha256.HashState) :
    stateBefore layout start state r.first = Sha256.iv := by
  have hstarts : layout.startsFromIv r.first = true := startsFromIv_iff.mpr ⟨r, hr, rfl⟩
  simp [stateBefore, hstarts]

end Layout.WellFormed

/-! ## The construction -/

namespace Table

section Build

variable {layout : Layout} {signed : List UInt8} {skipped : ℕ} {messages : List (Region × List UInt8)}

theorem splitSigned_eq (hskipped : skipped ≤ lastBlock signed.length) :
    splitSigned signed skipped = ((pad signed).take (64 * skipped), (pad signed).drop (64 * skipped)) := by
  have hlen := length_pad signed
  rw [splitSigned, List.splitAt_eq, Nat.min_eq_left (by omega)]

/-- The kept blocks continue the skipped ones. -/
theorem compress_split (hskipped : skipped ≤ lastBlock signed.length) :
    Sha256.compressAll (compress Sha256.iv (splitSigned signed skipped).1)
      (chunks 64 (splitSigned signed skipped).2) = compress Sha256.iv (pad signed) := by
  have hlen := length_pad signed
  rw [splitSigned_eq hskipped, compress, compress, Sha256.compressAll, ← List.foldl_append,
    ← chunks_split (by decide) skipped (by omega)]

theorem length_kept (hskipped : skipped ≤ lastBlock signed.length) :
    (splitSigned signed skipped).2.length = 64 * (lastBlock signed.length + 1 - skipped) := by
  rw [splitSigned_eq hskipped, List.length_drop, length_pad]
  omega

theorem pairwise_padded (h : layout.WellFormed) (hnodup : (messages.map Prod.fst).Nodup)
    (hmem : ∀ t ∈ messages, t.1 ∈ layout.ivRegions) :
    (padded layout signed skipped messages).Pairwise fun s t => s.1.Apart t.1 := by
  rw [padded, List.pairwise_cons, List.pairwise_map]
  constructor
  · intro t ht
    obtain ⟨m, hm, rfl⟩ := List.mem_map.mp ht
    exact (List.pairwise_cons.mp h.apart).1 m.1 (hmem m hm)
  · have hpairs := List.pairwise_map.mp hnodup
    refine hpairs.imp_of_mem fun {a b} ha hb hne => ?_
    exact h.apart_of_ne (List.mem_cons_of_mem _ (hmem a ha)) (List.mem_cons_of_mem _ (hmem b hb)) hne

theorem region_mem (hmem : ∀ t ∈ messages, t.1 ∈ layout.ivRegions)
    {t : Region × List UInt8} (ht : t ∈ padded layout signed skipped messages) : t.1 ∈ layout.regions := by
  rcases List.mem_cons.mp ht with rfl | ht
  · exact List.mem_cons_self
  · obtain ⟨m, hm, rfl⟩ := List.mem_map.mp ht
    exact List.mem_cons_of_mem _ (hmem m hm)

theorem padded_in_range (h : layout.WellFormed) (hmem : ∀ t ∈ messages, t.1 ∈ layout.ivRegions) :
    ∀ t ∈ padded layout signed skipped messages,
      t.1.first + t.1.blocks ≤ (List.replicate positions (List.replicate 64 (0 : UInt8))).length := by
  intro t ht
  rw [List.length_replicate]
  exact h.in_range t.1 (region_mem hmem ht)

theorem withMessages_of_fits (h : layout.WellFormed) (hnodup : (messages.map Prod.fst).Nodup)
    (hmem : ∀ t ∈ messages, t.1 ∈ layout.ivRegions)
    (hfits : ∀ t ∈ padded layout signed skipped messages, Fits t) :
    ∃ table, withMessages layout signed skipped messages = .ok table ∧ table.states =
        (statesFrom layout (compress Sha256.iv (splitSigned signed skipped).1).bytes Sha256.iv 0 table.blocks).map
          (·.bytes) ∧
      (∀ t ∈ padded layout signed skipped messages, ∀ j < (chunks 64 t.2).length,
        table.blocks[t.1.first + j]? = (chunks 64 t.2)[j]?) ∧
      ∀ i < positions, (∀ t ∈ padded layout signed skipped messages, ¬t.1.Holds i) →
        table.blocks[i]? = some (List.replicate 64 0) := by
  obtain ⟨blocks, hrun, hlen, hplaced, hkept⟩ :=
    placeMessages_ok hfits (padded_in_range h hmem) (pairwise_padded h hnodup hmem)
  rw [List.length_replicate] at hlen
  let start := compress Sha256.iv (splitSigned signed skipped).1
  let states := (statesFrom layout start.bytes Sha256.iv 0 blocks).map (·.bytes)
  have hbuild : withMessages layout signed skipped messages = .ok ⟨blocks, states, start.bytes, layout⟩ := by
    rw [withMessages, hrun]
    show fromBlocksIn _ _ _ = _
    rw [fromBlocksIn, if_pos hlen]
  refine ⟨_, hbuild, rfl, hplaced, ?_⟩
  intro i hi hfree
  rw [hkept i hfree, List.getElem?_replicate, if_pos hi]

theorem getElem?_states {table : Table} {start : List UInt8} (h : layout.WellFormed)
    (hstates : table.states = (statesFrom layout start Sha256.iv 0 table.blocks).map (·.bytes))
    {r : Region} (hr : r ∈ layout.regions) {bytes : List UInt8} {n : ℕ} (hlen : bytes.length = 64 * (n + 1))
    (hfits : Fits (r, bytes)) (hplaced : ∀ j < (chunks 64 bytes).length,
      table.blocks[r.first + j]? = (chunks 64 bytes)[j]?) :
    ∃ state, table.states[r.first + n]? =
      some (Sha256.compressAll (stateBefore layout start state r.first) (chunks 64 bytes)).bytes := by
  have hcount : (chunks 64 bytes).length = n + 1 := by
    rw [length_chunks]
    omega
  have hle : (chunks 64 bytes).length ≤ r.blocks := length_chunks_le hfits
  have hfree : ∀ i, r.first < i → i < r.first + (chunks 64 bytes).length → Continues layout i :=
    fun i hi hi' => h.continues hr hi (by omega)
  obtain ⟨state, hstate⟩ := @getElem?_statesFrom layout start _ _ r.first n hplaced
    (fun c hc => length_of_mem_chunks (by decide) hlen hc) hfree (by omega)
  refine ⟨state, ?_⟩
  rw [hstates, List.getElem?_map, hstate, List.take_of_length_le hcount.le]
  rfl

end Build

/-- Padding appends to a message up to its last block. A table is refused exactly when a message does not
fit in its region; otherwise the state after the last block of each message is its SHA-256 digest, and
the positions of no region hold zeros. -/
theorem withMessages_spec :
    (∀ message, (pad message).length = 64 * (lastBlock message.length + 1) ∧ message <+: pad message) ∧
    ∀ (layout : Layout) (signed : List UInt8) (skipped : ℕ) (messages : List (Region × List UInt8)),
      layout.WellFormed → skipped ≤ lastBlock signed.length → (messages.map Prod.fst).Nodup →
      (∀ t ∈ messages, t.1 ∈ layout.ivRegions) →
      (∀ e, withMessages layout signed skipped messages = .error e → ∃ count room, e = .doesNotFit count room) ∧
      ((∃ e, withMessages layout signed skipped messages = .error e) ↔
        64 * layout.signed.blocks < (pad signed).length - 64 * skipped ∨
          ∃ t ∈ messages, 64 * t.1.blocks < (pad t.2).length) ∧
      ∀ table, withMessages layout signed skipped messages = .ok table →
        table.states[layout.signed.first + (lastBlock signed.length - skipped)]? = some (Sha256.hash signed) ∧
        (∀ t ∈ messages, table.states[t.1.first + lastBlock t.2.length]? = some (Sha256.hash t.2)) ∧
        ∀ j < positions, (∀ r ∈ layout.regions, ¬r.Holds j) → table.blocks[j]? = some (List.replicate 64 0) := by
  refine ⟨fun message => ⟨length_pad message, prefix_pad message⟩, ?_⟩
  intro layout signed skipped messages h hskipped hnodup hmem
  have hkept := length_kept hskipped
  have hpadded := length_pad signed
  have hlast : (splitSigned signed skipped).2.length = 64 * (lastBlock signed.length - skipped + 1) := by omega
  -- the messages that do not fit, as the claim of the source names them
  have hover : (∃ t ∈ padded layout signed skipped messages, ¬Fits t) ↔
      64 * layout.signed.blocks < (pad signed).length - 64 * skipped ∨
        ∃ t ∈ messages, 64 * t.1.blocks < (pad t.2).length := by
    have hsigned : (splitSigned signed skipped).2.length = (pad signed).length - 64 * skipped := by omega
    simp only [padded, List.exists_mem_cons_iff, Fits, not_le, hsigned]
    simp
  by_cases hfits : ∀ t ∈ padded layout signed skipped messages, Fits t
  · obtain ⟨table, hok, hstates, hplaced, hzero⟩ := withMessages_of_fits h hnodup hmem hfits
    have hnone : ¬∃ t ∈ padded layout signed skipped messages, ¬Fits t := by
      rintro ⟨t, ht, hnot⟩
      exact hnot (hfits t ht)
    refine ⟨fun e he => ?_, ?_, fun table' hok' => ?_⟩
    · rw [hok] at he
      cases he
    · rw [← hover, hok]
      refine ⟨?_, fun hex => absurd hex hnone⟩
      rintro ⟨e, he⟩
      cases he
    · rw [hok] at hok'
      obtain rfl := Except.ok.inj hok'
      have hfirst : (layout.signed, (splitSigned signed skipped).2) ∈ padded layout signed skipped messages :=
        List.mem_cons_self
      refine ⟨?_, fun t ht => ?_, fun j hj hfree => hzero j hj fun t ht => hfree t.1 (region_mem hmem ht)⟩
      · obtain ⟨state, hstate⟩ := getElem?_states h hstates List.mem_cons_self hlast (hfits _ hfirst)
          (hplaced _ hfirst)
        rw [hstate, h.stateBefore_signed, Sha256.HashState.ofBytes_bytes, compress_split hskipped, hash_eq]
      · have htmem : (t.1, pad t.2) ∈ padded layout signed skipped messages :=
          List.mem_cons_of_mem _ (List.mem_map.mpr ⟨t, ht, rfl⟩)
        obtain ⟨state, hstate⟩ := getElem?_states h hstates (List.mem_cons_of_mem _ (hmem t ht))
          (length_pad t.2) (hfits _ htmem) (hplaced _ htmem)
        rw [hstate, Layout.WellFormed.stateBefore_iv (hmem t ht), hash_eq]
        rfl
  · have hex : ∃ t ∈ padded layout signed skipped messages, ¬Fits t := by
      push Not at hfits
      exact hfits
    obtain ⟨count, room, hrun⟩ := placeMessages_error (padded_in_range h hmem) hex
    have herr : withMessages layout signed skipped messages = .error (.doesNotFit count room) := by
      rw [withMessages, hrun]
      rfl
    rw [herr, ← hover]
    refine ⟨fun e he => ⟨count, room, (Except.error.inj he).symm⟩, ⟨fun _ => hex, fun _ => ⟨_, rfl⟩⟩, ?_⟩
    intro table hok
    cases hok

theorem wellFormed_fullMdoc : fullMdoc.WellFormed := by
  refine ⟨by decide, by decide, ?_⟩
  simp only [Layout.regions, Layout.ivRegions, fullMdoc, Option.elim_some, List.pairwise_cons, List.mem_cons,
    forall_eq_or_imp, List.not_mem_nil, IsEmpty.forall_iff, implies_true, and_true, List.Pairwise.nil,
    Region.Apart, Region.Holds]
  refine ⟨⟨?_, ?_, ?_, ?_⟩, ⟨?_, ?_, ?_⟩, ⟨?_, ?_⟩, ?_⟩ <;> intro j hj <;> omega

/-- The bytes `0, 1, 2, …`. -/
def countingBytes (n : ℕ) : List UInt8 := (List.range n).map UInt8.ofNat

@[simp] theorem length_countingBytes (n : ℕ) : (countingBytes n).length = n := by
  rw [countingBytes, List.length_map, List.length_range]

def skippedMessages : List (Region × List UInt8) := [(⟨24, 3⟩, countingBytes 130), (⟨22, 2⟩, countingBytes 100)]

/-- A signed message of three blocks without its first, and two messages of several blocks. -/
theorem withMessages_spec_skipped : ∃ table, withMessages fullMdoc (countingBytes 150) 1 skippedMessages = .ok table ∧
    table.states[1]? = some (Sha256.hash (countingBytes 150)) ∧
    table.states[26]? = some (Sha256.hash (countingBytes 130)) ∧
    table.states[23]? = some (Sha256.hash (countingBytes 100)) := by
  obtain ⟨hpad, hspec⟩ := withMessages_spec
  obtain ⟨-, herror, hok⟩ := hspec fullMdoc (countingBytes 150) 1 skippedMessages wellFormed_fullMdoc
    (by rw [length_countingBytes]; decide) (by decide) (by decide)
  have hfits : ¬(64 * fullMdoc.signed.blocks < (pad (countingBytes 150)).length - 64 * 1 ∨
      ∃ t ∈ skippedMessages, 64 * t.1.blocks < (pad t.2).length) := by
    simp only [skippedMessages, List.exists_mem_cons_iff, (hpad _).1, length_countingBytes]
    decide
  cases h : withMessages fullMdoc (countingBytes 150) 1 skippedMessages with
  | error e => exact absurd (herror.mp ⟨e, h⟩) hfits
  | ok table =>
    obtain ⟨hsigned, hmessages, -⟩ := hok table h
    have hssc := hmessages (⟨24, 3⟩, countingBytes 130) List.mem_cons_self
    have hattr := hmessages (⟨22, 2⟩, countingBytes 100) (List.mem_cons_of_mem _ List.mem_cons_self)
    simp only [length_countingBytes] at hsigned hssc hattr
    exact ⟨table, rfl, hsigned, hssc, hattr⟩

/-- Two positions for the signed message, and a region without positions that starts at the second. -/
def nestedLayout : Layout := ⟨⟨0, 2⟩, ⟨1, 0⟩, none⟩

/-- A region without positions shares none, and still restarts the chain where it starts. -/
theorem withMessages_nested : (∀ r ∈ nestedLayout.regions, r.first + r.blocks ≤ positions) ∧
    nestedLayout.regions.Pairwise Region.Apart ∧
    ∃ table, withMessages nestedLayout (countingBytes 60) 0 [] = .ok table ∧
      table.states[nestedLayout.signed.first + (lastBlock (countingBytes 60).length - 0)]? ≠
        some (Sha256.hash (countingBytes 60)) := by
  refine ⟨by decide, List.pairwise_pair.mpr fun j hj => ?_, ?_⟩
  · have hfirst : 1 ≤ j := hj.2.1
    have hlast : j < 1 := hj.2.2
    omega
  · have hrestart : (withMessages nestedLayout (countingBytes 60) 0 []).toOption.any (fun table =>
        decide (table.states[1]? ≠ some (Sha256.hash (countingBytes 60)))) = true := by decide +kernel
    rw [length_countingBytes]
    cases hok : withMessages nestedLayout (countingBytes 60) 0 [] with
    | error e =>
      rw [hok] at hrestart
      cases hrestart
    | ok table =>
      rw [hok] at hrestart
      exact ⟨table, rfl, of_decide_eq_true hrestart⟩

end Table

end ZkCredVega.Nym
