import ZkCredVega.OnehotCursor
import ZkCredVega.P256
import ZkCredVega.Sha256

/-!
# Variable-length SHA-256

The gadget of `sha256_var.rs`: a one-hot over the message length pads a buffer
of fixed size bit by bit, every block is compressed, and the state after the
last block of the real message is selected. The compression gadget of
`bellpepper` is a parameter, with its correctness as `CompressionGadget`'s
fields.
-/

namespace ZkCredVega

open Circuits

/-! ## Padding, natively -/

def maxVarMessageBytes : ℕ := 176

def numBlocks : ℕ := 3

/-- How many blocks the padding of an `n`-byte message occupies. -/
def terminalBlockForLen (n : ℕ) : ℕ := (n * 8 + 1 + 64 + 511) / 512

/-- The byte padding places at `byteIdx` for a message of length `realLen`. -/
def injectedByte (byteIdx realLen : ℕ) : Option UInt8 :=
  if byteIdx < realLen then none
  else if byteIdx = realLen then some 0x80
  else
    let lenFieldStart := terminalBlockForLen realLen * 64 - 8
    if byteIdx < lenFieldStart then some 0
    else if byteIdx < lenFieldStart + 8 then
      some ((Sha256.be64 (realLen * 8)).getD (byteIdx - lenFieldStart) 0)
    -- past the terminal block: never read
    else some 0

def usizeBound : ℕ := 2 ^ 64

def okOr {α : Type} : Option α → Outcome α
  | some a => .ok a
  | none => .error .unsatisfiable

/-- The padded buffer of a message, or an error when a length is over its budget. -/
def nativePaddedBufferSized (message : List UInt8) (realLen maxMessageBytes numBlocks : ℕ) :
    Outcome (List UInt8) :=
  if numBlocks * 64 ≥ usizeBound then .error .unsatisfiable
  else if maxMessageBytes + 9 ≥ usizeBound then .error .unsatisfiable
  else if realLen > message.length ∨ realLen > maxMessageBytes ∨
      maxMessageBytes + 9 > numBlocks * 64 then .error .unsatisfiable
  else do
    let tail ← (List.range' realLen (numBlocks * 64 - realLen)).mapM fun byteIdx =>
      okOr (injectedByte byteIdx realLen)
    pure (message.take realLen ++ tail)

/-! ## The circuit -/

section Circuit

variable {F V : Type} [Field F]

/-- Bit `bitIdx`, most significant first, of the byte padding places at `byteIdx`. -/
def injectedBit (byteIdx bitIdx realLen : ℕ) : Bool :=
  match injectedByte byteIdx realLen with
  | some v => v.toNat.testBit (7 - bitIdx)
  | none => false

/-- A bit constrained to the sum of the selectors whose length satisfies `p`. -/
def selectorBit [One V] (p : ℕ → Bool) (lenSelector : List (Boolean V)) (value : Bool) :
    Circuit F V (Boolean V) := do
  let bit ← Boolean.alloc (some value)
  .require (sumWhere p lenSelector) (.const 1) (bit.lc 1)
  pure bit

/-- The sum of the selectors of the lengths whose padding has this bit set. -/
def injectedLc [One V] (lenSelector : List (Boolean V)) (byteIdx bitIdx : ℕ) : LC F V :=
  sumWhere (fun n => n ≤ byteIdx && injectedBit byteIdx bitIdx n) lenSelector

/-- A buffer bit: the message bit while the byte is active, plus what padding injects. -/
def bufferBit [One V] (rawBits lenSelector : List (Boolean V)) (msgActive : Option (Boolean V))
    (realLen byteIdx bitIdx : ℕ) : Circuit F V (Boolean V) := do
  match msgActive with
  | some active =>
    let rawBit := Boolean.nth rawBits (byteIdx * 8 + bitIdx)
    let msgContrib ← Boolean.and active rawBit
    let expected :=
      if byteIdx < realLen then rawBit.value else some (injectedBit byteIdx bitIdx realLen)
    let out ← Boolean.alloc expected
    .require (msgContrib.lc 1 + injectedLc lenSelector byteIdx bitIdx) (.const 1) (out.lc 1)
    pure out
  | none =>
    let out ← Boolean.alloc (some (injectedBit byteIdx bitIdx realLen))
    .require (injectedLc lenSelector byteIdx bitIdx) (.const 1) (out.lc 1)
    pure out

/-- Whether the byte is still message content, for a byte a message can reach. -/
def msgActiveBit [One V] (lenSelector : List (Boolean V)) (realLen maxMessageBytes byteIdx : ℕ) :
    Circuit F V (Option (Boolean V)) :=
  if byteIdx < maxMessageBytes then
    some <$> selectorBit (byteIdx < ·) lenSelector (byteIdx < realLen)
  else pure none

def bufferByte [One V] (rawBits lenSelector : List (Boolean V)) (realLen maxMessageBytes
    byteIdx : ℕ) : Circuit F V (Option (Boolean V) × List (Boolean V)) := do
  let msgActive ← msgActiveBit lenSelector realLen maxMessageBytes byteIdx
  let bits ← (List.range 8).mapM fun bitIdx =>
    bufferBit rawBits lenSelector msgActive realLen byteIdx bitIdx
  pure (msgActive, bits)

/-- A padded buffer, the per-byte mask of real content, and the one-hot over the length. -/
structure PaddedBuffer (V : Type) where
  bufferBits : List (Boolean V)
  msgActiveBits : List (Boolean V)
  lenSelector : List (Boolean V)

def paddedBufferBits [One V] (rawBits : List (Boolean V))
    (realLen maxMessageBytes numBlocks : ℕ) : Circuit F V (PaddedBuffer V) := do
  .assert (rawBits.length = maxMessageBytes * 8)
  .assert (realLen ≤ maxMessageBytes)
  let lenSelector ← oneHotSelector (maxMessageBytes + 1) realLen
  let bytes ← (List.range (numBlocks * 64)).mapM fun byteIdx =>
    bufferByte rawBits lenSelector realLen maxMessageBytes byteIdx
  pure {
    bufferBits := (bytes.map Prod.snd).flatten
    msgActiveBits := bytes.filterMap Prod.fst
    lenSelector }

/-- `sha256_compression_function`: the bits of a block and of a chaining value, both big-endian, to
the bits of the next chaining value. -/
abbrev Compression (F V : Type) : Type :=
  List (Boolean V) → List (Boolean V) → Circuit F V (List (Boolean V))

def compressBlocks (compress : Compression F V) (state : List (Boolean V)) :
    List (List (Boolean V)) → Circuit F V (List (List (Boolean V)))
  | [] => pure []
  | block :: blocks => do
    let next ← compress block state
    let rest ← compressBlocks compress next blocks
    pure (next :: rest)

/-- A digest bit: the bit of the state whose block is selected. -/
def selectDigestBit [One V] (inBlock : List (Boolean V)) (states : List (List (Boolean V)))
    (numBlocks bitIdx : ℕ) : Circuit F V (Boolean V) := do
  let term (k : ℕ) : Circuit F V (Boolean V) :=
    Boolean.and (Boolean.nth inBlock k) (Boolean.nth (states.getD k []) bitIdx)
  let first ← term 0
  (List.range' 1 (numBlocks - 1)).foldlM (fun acc k => do
    let t ← term k
    Boolean.or acc t) first

def ivBits : List (Boolean V) := (bytesBits Sha256.iv.bytes).map .constant

/-- Constrains the digest to be that of the first `realLen` bytes of `rawBits`; also returns the
mask of the bytes that are real. -/
def sha256VarSized [One V] (compress : Compression F V) (rawBits : List (Boolean V))
    (realLen maxMessageBytes numBlocks : ℕ) :
    Circuit F V (List (Boolean V) × List (Boolean V)) := do
  let buffer ← paddedBufferBits rawBits realLen maxMessageBytes numBlocks
  let blocks := (List.range numBlocks).map fun i => (buffer.bufferBits.drop (i * 512)).take 512
  let states ← compressBlocks compress ivBits blocks
  let inBlock ← (List.range numBlocks).mapM fun k =>
    selectorBit (terminalBlockForLen · == k + 1) buffer.lenSelector
      (terminalBlockForLen realLen == k + 1)
  .assert (1 ≤ numBlocks)
  let digest ← (List.range 256).mapM (selectDigestBit inBlock states numBlocks)
  pure (digest, buffer.msgActiveBits)

/-- `sha256VarSized` with the claim-sized constants. -/
def sha256Var [One V] (compress : Compression F V) (rawBits : List (Boolean V)) (realLen : ℕ) :
    Circuit F V (List (Boolean V) × List (Boolean V)) :=
  sha256VarSized compress rawBits realLen maxVarMessageBytes numBlocks

end Circuit

/-! ## The padded buffer -/

/-- The buffer of `n` bytes that holds a padded message. -/
def paddedBytes (m : List UInt8) (n : ℕ) : List UInt8 :=
  (List.range n).map fun i =>
    if i < m.length then m.getD i 0 else (injectedByte i m.length).getD 0

@[simp] theorem length_paddedBytes (m : List UInt8) (n : ℕ) : (paddedBytes m n).length = n := by
  simp [paddedBytes]

theorem terminalBlockForLen_eq (n : ℕ) : terminalBlockForLen n = (n + 72) / 64 := by
  unfold terminalBlockForLen
  omega

theorem terminalBlockForLen_pos (n : ℕ) : 1 ≤ terminalBlockForLen n := by
  rw [terminalBlockForLen_eq]
  omega

theorem terminalBlockForLen_mono {n m : ℕ} (h : n ≤ m) :
    terminalBlockForLen n ≤ terminalBlockForLen m := by
  rw [terminalBlockForLen_eq, terminalBlockForLen_eq]
  omega

theorem injectedByte_isSome {i n : ℕ} (h : n ≤ i) : ∃ b, injectedByte i n = some b := by
  unfold injectedByte
  rw [if_neg (by omega)]
  simp only
  split
  · exact ⟨_, rfl⟩
  · split
    · exact ⟨_, rfl⟩
    · split
      · exact ⟨_, rfl⟩
      · exact ⟨_, rfl⟩

/-- Up to its terminal block the buffer is the padding of the message. -/
theorem take_paddedBytes (m : List UInt8) {n : ℕ} (hn : 64 * terminalBlockForLen m.length ≤ n) :
    (paddedBytes m n).take (64 * terminalBlockForLen m.length) = Sha256.pad m := by
  have hpad := Sha256.length_pad m
  rw [terminalBlockForLen_eq] at *
  apply List.ext_getElem
  · rw [List.length_take, length_paddedBytes, hpad]
    omega
  intro i h1 h2
  rw [hpad] at h2
  rw [List.getElem_take]
  simp only [paddedBytes, List.getElem_map, List.getElem_range]
  have hzeros : m.length + 1 + (119 - m.length % 64) % 64 + 8 = 64 * ((m.length + 72) / 64) := by
    omega
  -- the four parts of the padding, in order
  by_cases hmsg : i < m.length
  · rw [if_pos hmsg]
    simp [Sha256.pad, hmsg]
  rw [if_neg hmsg]
  unfold injectedByte
  rw [if_neg hmsg, terminalBlockForLen_eq]
  by_cases hmark : i = m.length
  · simp [Sha256.pad, hmark]
  rw [if_neg hmark]
  simp only
  have hlen1 : (m ++ [0x80]).length = m.length + 1 := by simp
  have hlen2 : (m ++ [0x80] ++ List.replicate ((119 - m.length % 64) % 64) (0 : UInt8)).length =
      m.length + 1 + (119 - m.length % 64) % 64 := by simp; omega
  simp only [Sha256.pad]
  by_cases hzero : i < (m.length + 72) / 64 * 64 - 8
  · rw [if_pos hzero, List.getElem_append_left (by omega), List.getElem_append_right (by omega),
      List.getElem_replicate, Option.getD_some]
  · rw [if_neg hzero, if_pos (by omega), List.getElem_append_right (by omega), Option.getD_some,
      List.getD_eq_getElem?_getD, List.getElem?_eq_getElem (by rw [Sha256.length_be64]; omega),
      Option.getD_some]
    have hidx : i - ((m.length + 72) / 64 * 64 - 8) =
        i - (m.length + 1 + (119 - m.length % 64) % 64) := by omega
    simp only [hlen2, hidx, Nat.mul_comm m.length 8]

theorem blockAt_take (buf : List UInt8) {i k : ℕ} (h : i < k) :
    Sha256.blockAt (buf.take (64 * k)) i = Sha256.blockAt buf i := by
  simp only [Sha256.blockAt, List.drop_take, List.take_take]
  congr 1
  omega

/-- The state after the terminal block is the hash of the message. -/
theorem hash_eq_compressAll (m : List UInt8) {n : ℕ} (hn : terminalBlockForLen m.length ≤ n) :
    Sha256.hash m = (Sha256.compressAll Sha256.iv
      ((Sha256.blocks (paddedBytes m (n * 64)) n).take (terminalBlockForLen m.length))).bytes := by
  have hpad := take_paddedBytes m (n := n * 64) (by omega)
  have hlen := Sha256.length_pad m
  rw [← terminalBlockForLen_eq] at hlen
  have hdiv : (Sha256.pad m).length / 64 = terminalBlockForLen m.length := by omega
  unfold Sha256.hash Sha256.blocks
  rw [hdiv, ← hpad, ← List.map_take, List.take_range, Nat.min_eq_left hn]
  congr 2
  apply List.map_congr_left
  intro i hi
  exact blockAt_take _ (List.mem_range.mp hi)

/-! ## What the circuit computes -/

/-- `bellpepper`'s compression gadget: for every prover its result is worth the compression of what
its inputs are worth, and it can be run. -/
structure CompressionGadget (F : Type) [Field F] where
  compress : Compression F F
  correct : ∀ (who : Circuit.Prover) {block state : List (Boolean F)} {b : List UInt8}
    {s : Sha256.HashState}, Boolean.HoldsAll who block (bytesBits b) → b.length = 64 →
    Boolean.HoldsAll who state (bytesBits s.bytes) →
    (compress block state).Yields who
      (Boolean.HoldsAll who · (bytesBits (Sha256.compress s b).bytes))

section Selector

variable {F : Type} [Field F] {who : Circuit.Prover} {n l : ℕ} {sel : List (Boolean F)}

theorem yields_selectorBit {p : ℕ → Bool} {value : Bool}
    (h : Boolean.HoldsAll who sel (oneHot n l)) (hl : l < n)
    (hv : who = .honest → value = p l) :
    (selectorBit p sel value).Yields who (·.Holds who (p l)) := by
  apply Boolean.yields_allocEqual (eval_sumWhere p h.reads hl)
  intro hwho
  rw [hv hwho]

end Selector

/-- Byte `i` of the buffer that pads the first `l` bytes of `raw`. -/
def byteAt (raw : List UInt8) (l i : ℕ) : UInt8 :=
  if i < l then raw.getD i 0 else (injectedByte i l).getD 0

theorem paddedBytes_take {raw : List UInt8} {l : ℕ} (hl : l ≤ raw.length) (n : ℕ) :
    paddedBytes (raw.take l) n = (List.range n).map (byteAt raw l) := by
  have hlen : (raw.take l).length = l := by simp [hl]
  unfold paddedBytes byteAt
  rw [hlen]
  apply List.map_congr_left
  intro i _
  by_cases h : i < l
  · simp [h, List.getD_eq_getElem?_getD]
  · simp [h]

theorem injectedBit_of_le {i b l : ℕ} (h : l ≤ i) :
    injectedBit i b l = ((injectedByte i l).getD 0).toNat.testBit (7 - b) := by
  obtain ⟨v, hv⟩ := injectedByte_isSome h
  simp [injectedBit, hv]

section Buffer

variable {F : Type} [Field F] {who : Circuit.Prover} {realLen max l byteIdx : ℕ}
  {rawBits sel : List (Boolean F)} {raw : List UInt8}

theorem eval_injectedLc (h : Boolean.ReadsAll sel (oneHot (max + 1) l)) (hl : l ≤ max)
    (byteIdx bitIdx : ℕ) :
    (injectedLc sel byteIdx bitIdx).eval =
      ofBool (decide (l ≤ byteIdx) && injectedBit byteIdx bitIdx l) :=
  eval_sumWhere _ h (by omega)

theorem yields_bufferBit {msgActive : Option (Boolean F)} {bitIdx : ℕ}
    (hraw : Boolean.HoldsAll who rawBits (bytesBits raw))
    (hsel : Boolean.HoldsAll who sel (oneHot (max + 1) l)) (hl : l ≤ max)
    (hactive : ∀ a, msgActive = some a → a.Holds who (decide (byteIdx < l)))
    (hnone : msgActive = none → l ≤ byteIdx) (hlen : who = .honest → realLen = l)
    (hbit : bitIdx < 8) :
    (bufferBit rawBits sel msgActive realLen byteIdx bitIdx).Yields who
      (·.Holds who ((byteAt raw l byteIdx).toNat.testBit (7 - bitIdx))) := by
  have hinj := eval_injectedLc hsel.reads hl byteIdx bitIdx
  have hrawBit := hraw.nth (byteIdx * 8 + bitIdx)
  rw [Nat.mul_comm, getD_bytesBits raw byteIdx hbit] at hrawBit
  unfold bufferBit
  cases msgActive with
  | some active =>
    rw [Nat.mul_comm byteIdx 8]
    refine (Boolean.yields_and (hactive active rfl) hrawBit).bind fun contrib hcontrib => ?_
    apply Boolean.yields_allocEqual
    · rw [LC.eval_add, hinj, Boolean.eval_lc, one_mul, hcontrib.reads]
      by_cases h : byteIdx < l
      · simp [h, byteAt, ofBool, Nat.not_le.mpr h]
      · simp [h, byteAt, ofBool, Nat.not_lt.mp h, injectedBit_of_le (Nat.not_lt.mp h)]
    · intro hwho
      subst hwho
      rw [hlen rfl]
      by_cases h : byteIdx < l
      · rw [if_pos h, byteAt, if_pos h]
        exact Boolean.HonestReads.value_eq hrawBit
      · rw [if_neg h, byteAt, if_neg h, injectedBit_of_le (Nat.not_lt.mp h)]
  | none =>
    have h := hnone rfl
    apply Boolean.yields_allocEqual
    · rw [hinj]
      simp [h, byteAt, Nat.not_lt.mpr h, injectedBit_of_le h]
    · intro hwho
      rw [hlen hwho, byteAt, if_neg (by omega), injectedBit_of_le h]

/-- What the byte at `i` of a padded buffer is worth. -/
structure ByteHolds (who : Circuit.Prover) (raw : List UInt8) (max l i : ℕ)
    (t : Option (Boolean F) × List (Boolean F)) : Prop where
  isSome_iff : t.1.isSome ↔ i < max
  active : ∀ a, t.1 = some a → a.Holds who (decide (i < l))
  bits : Boolean.HoldsAll who t.2 (bitsOf (byteAt raw l i))

theorem yields_bufferByte (hraw : Boolean.HoldsAll who rawBits (bytesBits raw))
    (hsel : Boolean.HoldsAll who sel (oneHot (max + 1) l)) (hl : l ≤ max)
    (hlen : who = .honest → realLen = l) :
    (bufferByte rawBits sel realLen max byteIdx).Yields who (ByteHolds who raw max l byteIdx) := by
  have hactive : (msgActiveBit sel realLen max byteIdx).Yields who fun t =>
      (t.isSome ↔ byteIdx < max) ∧ ∀ a, t = some a → a.Holds who (decide (byteIdx < l)) := by
    unfold msgActiveBit
    by_cases h : byteIdx < max
    · rw [if_pos h]
      refine .map ((yields_selectorBit hsel (by omega) fun hwho => by rw [hlen hwho]).mono ?_)
      intro a ha
      refine ⟨by simpa using h, ?_⟩
      rintro _ ⟨⟩
      exact ha
    · rw [if_neg h]
      exact Circuit.yields_pure ⟨by simpa using h, by simp⟩
  unfold bufferByte
  refine hactive.bind fun t ht => ?_
  have hnone : t = none → l ≤ byteIdx := by
    rintro rfl
    have : ¬byteIdx < max := by simpa using ht.1
    omega
  refine (Circuit.Yields.mapM fun bitIdx hbit => yields_bufferBit hraw hsel hl ht.2 hnone hlen
    (List.mem_range.mp hbit)).bind fun bits hbits => Circuit.yields_pure ⟨ht.1, ht.2, ?_⟩
  exact Boolean.HoldsAll.of_forall₂ hbits

theorem ByteHolds.filterMap {l n : ℕ} {ts : List (Option (Boolean F) × List (Boolean F))}
    (h : List.Forall₂ (ByteHolds who raw max l) (List.range n) ts) :
    Boolean.HoldsAll who (ts.filterMap Prod.fst)
      ((List.range (min max n)).map fun i => decide (i < l)) := by
  have hkeep : ∀ {is : List ℕ} {ts : List (Option (Boolean F) × List (Boolean F))},
      List.Forall₂ (ByteHolds who raw max l) is ts →
      Boolean.HoldsAll who (ts.filterMap Prod.fst)
        ((is.filter fun i => i < max).map fun i => decide (i < l)) := by
    intro is ts h
    induction h with
    | nil => exact .nil
    | @cons i t is ts hi _ ih =>
      obtain ⟨active, bits⟩ := t
      by_cases him : i < max
      · obtain ⟨a, rfl⟩ := Option.isSome_iff_exists.mp (hi.isSome_iff.mpr him)
        simpa [him] using List.Forall₂.cons (hi.active a rfl) ih
      · obtain rfl : active = none := by simpa using fun h => him (hi.isSome_iff.mp h)
        simpa [him] using ih
  have hfilter : ((List.range n).filter fun i => i < max) = List.range (min max n) := by
    rcases Nat.le_total max n with hmax | hmax
    · obtain ⟨k, rfl⟩ := Nat.exists_eq_add_of_le hmax
      rw [List.range_add, List.filter_append, List.filter_eq_self.mpr (by simp),
        List.filter_eq_nil_iff.mpr (by simp), List.append_nil, Nat.min_eq_left hmax]
    · rw [Nat.min_eq_right hmax, List.filter_eq_self]
      intro i hi
      have hi := List.mem_range.mp hi
      simp
      omega
  rw [← hfilter]
  exact hkeep h

/-- What a padded buffer is worth: the padding of the first `l` bytes of `raw`. -/
structure PaddedBuffer.Holds (who : Circuit.Prover) (raw : List UInt8) (max n l : ℕ)
    (buffer : PaddedBuffer F) : Prop where
  bits : Boolean.HoldsAll who buffer.bufferBits (bytesBits (paddedBytes (raw.take l) (n * 64)))
  active : Boolean.HoldsAll who buffer.msgActiveBits
    ((List.range (min max (n * 64))).map fun i => decide (i < l))
  selector : Boolean.HoldsAll who buffer.lenSelector (oneHot (max + 1) l)

/-- The buffer that follows a length selector is the padding of the selected length. -/
theorem yields_bufferBytes {n : ℕ} (hraw : Boolean.HoldsAll who rawBits (bytesBits raw))
    (hmax : raw.length = max)
    (hsel : Boolean.HoldsAll who sel (oneHot (max + 1) l)) (hl : l ≤ max)
    (hlen : who = .honest → realLen = l) :
    (do
      let bytes ← (List.range (n * 64)).mapM fun byteIdx => bufferByte rawBits sel realLen max byteIdx
      pure ({
        bufferBits := (bytes.map Prod.snd).flatten
        msgActiveBits := bytes.filterMap Prod.fst
        lenSelector := sel } : PaddedBuffer F)).Yields who (PaddedBuffer.Holds who raw max n l) := by
  refine (Circuit.Yields.mapM fun byteIdx _ => yields_bufferByte hraw hsel hl hlen).bind
    fun bytes hbytes => Circuit.yields_pure ⟨?_, ByteHolds.filterMap hbytes, hsel⟩
  rw [paddedBytes_take (by omega), bytesBits, List.flatMap_def, List.map_map]
  apply Boolean.HoldsAll.flatten
  rw [List.forall₂_map_right_iff]
  exact hbytes.imp fun _ _ h => h.bits

theorem ensures_paddedBufferBits [LargeChar F] {n : ℕ}
    (hraw : Boolean.ReadsAll rawBits (bytesBits raw)) (hmax : raw.length = max)
    (hbig : max + 1 < 2 ^ 255) :
    (paddedBufferBits rawBits realLen max n).Ensures fun buffer =>
      ∃ l ≤ max, buffer.Holds .any raw max n l := by
  unfold paddedBufferBits
  refine Circuit.ensures_assert.bind fun _ _ => Circuit.ensures_assert.bind fun _ _ => ?_
  refine (ensures_oneHotSelector hbig).bind fun sel ⟨l, hl, hsel⟩ => ?_
  have hl : l ≤ max := by omega
  refine (Circuit.Yields.ensures (yields_bufferBytes hraw hmax hsel hl nofun)).mono ?_
  intro buffer hbuffer
  exact ⟨l, hl, hbuffer⟩

theorem admits_paddedBufferBits {n : ℕ} (hraw : Boolean.ReadsAll rawBits (bytesBits raw))
    (hmax : raw.length = max) (hreal : realLen ≤ max) (hl : l ≤ max) :
    (paddedBufferBits rawBits realLen max n).Admits fun buffer => buffer.Holds .any raw max n l := by
  unfold paddedBufferBits
  have hbits : rawBits.length = max * 8 := by
    rw [hraw.length_eq, length_bytesBits]
    omega
  refine (Circuit.admits_assert hbits).bind fun _ _ => ?_
  refine (Circuit.admits_assert hreal).bind fun _ _ => ?_
  refine (admits_oneHotSelector (Nat.lt_succ_of_le hl)).bind fun sel hsel => ?_
  exact Circuit.Yields.admits (yields_bufferBytes hraw hmax hsel hl nofun)

theorem succeeds_paddedBufferBits {n : ℕ}
    (hraw : Boolean.HonestReadsAll rawBits (bytesBits raw)) (hmax : raw.length = max)
    (hreal : realLen ≤ max) :
    (paddedBufferBits rawBits realLen max n).Succeeds fun buffer =>
      buffer.Holds .honest raw max n realLen := by
  unfold paddedBufferBits
  have hbits : rawBits.length = max * 8 := by
    rw [hraw.reads.length_eq, length_bytesBits]
    omega
  refine (Circuit.succeeds_assert hbits).bind fun _ _ => ?_
  refine (Circuit.succeeds_assert hreal).bind fun _ _ => ?_
  refine (succeeds_oneHotSelector (by omega)).bind fun sel hsel => ?_
  exact Circuit.Yields.succeeds (yields_bufferBytes hraw hmax hsel hreal fun _ => rfl)

end Buffer

section Digest

variable {F : Type} [Field F] {who : Circuit.Prover} {n : ℕ}

theorem yields_compressBlocks (gadget : CompressionGadget F) {state : List (Boolean F)}
    {s : Sha256.HashState} (hs : Boolean.HoldsAll who state (bytesBits s.bytes))
    {blocks : List (List (Boolean F))} {bs : List (List UInt8)}
    (hb : List.Forall₂ (fun block b => Boolean.HoldsAll who block (bytesBits b) ∧ b.length = 64)
      blocks bs) :
    (compressBlocks gadget.compress state blocks).Yields who fun states =>
      List.Forall₂ (fun state h => Boolean.HoldsAll who state (bytesBits h.bytes)) states
        (Sha256.chain s bs) := by
  induction hb generalizing state s with
  | nil => exact Circuit.yields_pure .nil
  | cons hblock _ ih =>
    refine (gadget.correct who hblock.1 hblock.2 hs).bind fun next hnext => ?_
    refine (ih hnext).bind fun rest hrest => ?_
    exact Circuit.yields_pure (.cons hnext hrest)

theorem holdsAll_blocks {bits : List (Boolean F)} {buf : List UInt8}
    (h : Boolean.HoldsAll who bits (bytesBits buf)) (hlen : buf.length = n * 64) :
    List.Forall₂ (fun block b => Boolean.HoldsAll who block (bytesBits b) ∧ b.length = 64)
      ((List.range n).map fun i => (bits.drop (i * 512)).take 512) (Sha256.blocks buf n) := by
  rw [Sha256.blocks, List.forall₂_map_left_iff, List.forall₂_map_right_iff, List.forall₂_same]
  intro i hi
  have hi := List.mem_range.mp hi
  constructor
  · rw [Sha256.blockAt, ← take_bytesBits, ← drop_bytesBits, show 8 * (64 * i) = i * 512 by ring]
    exact List.forall₂_take _ (List.forall₂_drop _ h)
  · simp only [Sha256.blockAt, List.length_take, List.length_drop, hlen]
    omega

theorem yields_selectDigestBit {inBlock : List (Boolean F)} {states : List (List (Boolean F))}
    {hs : List Sha256.HashState} {j bitIdx : ℕ}
    (hin : Boolean.HoldsAll who inBlock ((List.range n).map fun k => j == k))
    (hst : List.Forall₂ (fun state h => Boolean.HoldsAll who state (bytesBits h.bytes)) states hs)
    (hj : j < n) {h : Sha256.HashState} (hh : hs[j]? = some h) :
    (selectDigestBit inBlock states n bitIdx).Yields who
      (·.Holds who ((bytesBits h.bytes).getD bitIdx false)) := by
  have hterm : ∀ k < n, (Boolean.and (Boolean.nth inBlock k)
      (Boolean.nth (states.getD k []) bitIdx) : Circuit F F _).Yields who
        (·.Holds who (j == k && (bytesBits h.bytes).getD bitIdx false)) := by
    intro k hk
    have hsel := hin.nth k
    rw [List.getD_eq_getElem?_getD, List.getElem?_map, List.getElem?_range hk,
      Option.map_some, Option.getD_some] at hsel
    have hbit : ∃ x, (Boolean.nth (states.getD k []) bitIdx).Holds who x ∧
        (j = k → x = (bytesBits h.bytes).getD bitIdx false) := by
      rcases Nat.lt_or_ge k states.length with hks | hks
      · have hkh : k < hs.length := by rw [← hst.length_eq]; exact hks
        have hread := hst.get hks hkh
        rw [List.getD_eq_getElem?_getD, List.getElem?_eq_getElem hks]
        refine ⟨_, hread.nth bitIdx, ?_⟩
        rintro rfl
        rw [List.getElem?_eq_getElem hkh, Option.some.injEq] at hh
        rw [← hh]
        rfl
      · rw [List.getD_eq_getElem?_getD, List.getElem?_eq_none hks]
        refine ⟨false, Boolean.holds_constant, ?_⟩
        rintro rfl
        rw [List.getElem?_eq_none (by rw [← hst.length_eq]; exact hks)] at hh
        cases hh
    obtain ⟨x, hx, hjx⟩ := hbit
    refine (Boolean.yields_and hsel hx).mono fun b hb => ?_
    by_cases hjk : j = k
    · rw [← hjx hjk]
      exact hb
    · rw [beq_false_of_ne hjk, Bool.false_and] at hb ⊢
      exact hb
  unfold selectDigestBit
  refine (hterm 0 (by omega)).bind fun first hfirst => ?_
  -- after block `i` the accumulator has met the selected state iff `j ≤ i`
  refine (Circuit.Yields.foldlM (fun i (acc : Boolean F) =>
    acc.Holds who (decide (j ≤ i) && (bytesBits h.bytes).getD bitIdx false)) ?_ ?_).mono ?_
  · rw [show decide (j ≤ 0) = (j == 0) by rw [Bool.eq_iff_iff]; simp]
    exact hfirst
  · intro i hi acc hacc
    rw [List.length_range'] at hi
    rw [List.getElem_range', Nat.one_mul]
    refine (hterm (1 + i) (by omega)).bind fun t ht => ?_
    refine (Boolean.yields_or hacc ht).mono fun b hb => ?_
    have hor : (decide (j ≤ i + 1) && (bytesBits h.bytes).getD bitIdx false) =
        ((decide (j ≤ i) && (bytesBits h.bytes).getD bitIdx false) ||
          (j == 1 + i && (bytesBits h.bytes).getD bitIdx false)) := by
      rw [← Bool.and_or_distrib_right]
      congr 1
      rw [Bool.eq_iff_iff]
      simp
      omega
    rw [hor]
    exact hb
  · intro b hb
    rw [List.length_range'] at hb
    simpa [show j ≤ n - 1 by omega] using hb

theorem yields_digest (gadget : CompressionGadget F) {raw : List UInt8} {max l realLen : ℕ}
    {buffer : PaddedBuffer F} (hbuffer : buffer.Holds who raw max n l) (hmax : raw.length = max)
    (hl : l ≤ max) (hn : terminalBlockForLen max ≤ n) (hlen : who = .honest → realLen = l) :
    (do
      let states ← compressBlocks gadget.compress ivBits
        ((List.range n).map fun i => (buffer.bufferBits.drop (i * 512)).take 512)
      let inBlock ← (List.range n).mapM fun k =>
        selectorBit (terminalBlockForLen · == k + 1) buffer.lenSelector
          (terminalBlockForLen realLen == k + 1)
      Circuit.assert (1 ≤ n)
      let digest ← (List.range 256).mapM (selectDigestBit inBlock states n)
      pure (digest, buffer.msgActiveBits)).Yields who fun t =>
        Boolean.HoldsAll who t.1 (bytesBits (Sha256.hash (raw.take l))) ∧
          Boolean.HoldsAll who t.2 ((List.range max).map fun i => decide (i < l)) := by
  have hfit : max ≤ n * 64 := by
    rw [terminalBlockForLen_eq] at hn
    omega
  have hactive := hbuffer.active
  rw [Nat.min_eq_left hfit] at hactive
  have htl : (raw.take l).length = l := by simp; omega
  have hpos := terminalBlockForLen_pos l
  have hmono := terminalBlockForLen_mono hl
  refine (yields_compressBlocks gadget (s := Sha256.iv) (Boolean.holdsAll_constants _)
    (holdsAll_blocks hbuffer.bits (by simp))).bind fun states hstates => ?_
  refine (Circuit.Yields.mapM fun k _ => yields_selectorBit hbuffer.selector (by omega)
    fun hwho => by rw [hlen hwho]).bind fun inBlock hin => ?_
  refine (Circuit.yields_assert (by omega)).bind fun _ _ => ?_
  have hinBlock : Boolean.HoldsAll who inBlock
      ((List.range n).map fun k => terminalBlockForLen l - 1 == k) := by
    apply Boolean.HoldsAll.of_forall₂
    refine hin.imp fun k b hb => ?_
    have hk : (terminalBlockForLen l == k + 1) = (terminalBlockForLen l - 1 == k) := by
      rw [Bool.eq_iff_iff]
      simp
      omega
    rw [← hk]
    exact hb
  have hchain := Sha256.chain_getElem Sha256.iv
    (Sha256.blocks (paddedBytes (raw.take l) (n * 64)) n) (k := terminalBlockForLen l - 1)
    (by simp [Sha256.blocks]; omega)
  refine (Circuit.Yields.mapM fun bitIdx _ => yields_selectDigestBit hinBlock hstates (by omega)
    hchain).bind fun digest hdigest => Circuit.yields_pure ⟨?_, hactive⟩
  rw [hash_eq_compressAll (raw.take l) (n := n) (by rw [htl]; omega), htl,
    show terminalBlockForLen l = terminalBlockForLen l - 1 + 1 by omega]
  have hbits := Boolean.HoldsAll.of_forall₂ hdigest
  rwa [map_getD_range (by simp)] at hbits

/-- No block is selected when the padding ends past the last one. -/
theorem yields_selectDigestBit_none {inBlock : List (Boolean F)} {states : List (List (Boolean F))}
    {hs : List Sha256.HashState} {bitIdx : ℕ} (hin : Boolean.HoldsAll who inBlock (List.replicate n false))
    (hst : List.Forall₂ (fun state h => Boolean.HoldsAll who state (bytesBits h.bytes)) states hs) :
    (selectDigestBit inBlock states n bitIdx).Yields who (·.Holds who false) := by
  have hterm : ∀ k, (Boolean.and (Boolean.nth inBlock k)
      (Boolean.nth (states.getD k []) bitIdx) : Circuit F F _).Yields who (·.Holds who false) := by
    intro k
    have hsel := hin.nth k
    have hnone : (List.replicate n false).getD k false = false := by
      rw [List.getD_eq_getElem?_getD, List.getElem?_replicate]
      split <;> rfl
    rw [hnone] at hsel
    have hbit : ∃ x, (Boolean.nth (states.getD k []) bitIdx).Holds who x := by
      by_cases hk : k < states.length
      · rw [List.getD_eq_getElem?_getD, List.getElem?_eq_getElem hk, Option.getD_some]
        exact ⟨_, (hst.get hk (hst.length_eq ▸ hk)).nth bitIdx⟩
      · rw [List.getD_eq_getElem?_getD, List.getElem?_eq_none (by omega)]
        exact ⟨false, Boolean.holds_constant⟩
    obtain ⟨x, hx⟩ := hbit
    exact Boolean.yields_and hsel hx
  unfold selectDigestBit
  refine (hterm 0).bind fun first hfirst => ?_
  refine Circuit.Yields.foldlM (fun _ (acc : Boolean F) => acc.Holds who false) hfirst ?_ |>.mono fun b hb => hb
  intro i hi acc hacc
  exact (hterm _).bind fun t ht => Boolean.yields_or hacc ht

/-- A length whose padding ends past the buffer is accepted too, with a digest of zeros. -/
theorem admits_sha256VarSized_past (gadget : CompressionGadget F) {raw : List UInt8}
    {rawBits : List (Boolean F)} {max realLen l : ℕ} (hraw : Boolean.ReadsAll rawBits (bytesBits raw))
    (hmax : raw.length = max) (hreal : realLen ≤ max) (hl : l ≤ max) (hpos : 1 ≤ n) (hpast : n < terminalBlockForLen l) :
    (sha256VarSized gadget.compress rawBits realLen max n).Admits fun t =>
      Boolean.ReadsAll t.1 (List.replicate 256 false) ∧
        Boolean.ReadsAll t.2 ((List.range (min max (n * 64))).map fun i => decide (i < l)) := by
  unfold sha256VarSized
  refine (admits_paddedBufferBits hraw hmax hreal hl).bind fun buffer hbuffer => ?_
  refine (yields_compressBlocks gadget (s := Sha256.iv) (Boolean.holdsAll_constants _)
    (holdsAll_blocks hbuffer.bits (by simp))).admits.bind fun states hstates => ?_
  have hselect : ((List.range n).mapM fun k => selectorBit (terminalBlockForLen · == k + 1) buffer.lenSelector
      (terminalBlockForLen realLen == k + 1)).Yields .any _ :=
    Circuit.Yields.mapM fun k _ => yields_selectorBit hbuffer.selector (by omega) nofun
  refine hselect.admits.bind fun inBlock hin => ?_
  refine (Circuit.admits_assert hpos).bind fun _ _ => ?_
  have hinBlock : Boolean.ReadsAll inBlock (List.replicate n false) := by
    have hnone : (List.range n).map (fun k => terminalBlockForLen l == k + 1) = List.replicate n false := by
      rw [List.eq_replicate_iff, List.length_map, List.length_range]
      refine ⟨rfl, fun b hb => ?_⟩
      obtain ⟨k, hk, rfl⟩ := List.mem_map.mp hb
      have hk := List.mem_range.mp hk
      exact beq_false_of_ne (by omega)
    rw [← hnone]
    exact Boolean.HoldsAll.of_forall₂ hin
  have hdigest : ((List.range 256).mapM (selectDigestBit inBlock states n)).Yields .any _ :=
    Circuit.Yields.mapM fun bitIdx _ => yields_selectDigestBit_none hinBlock hstates
  refine hdigest.admits.bind fun digest hdigest => Circuit.admits_pure.mpr ⟨?_, hbuffer.active⟩
  have hbits := Boolean.HoldsAll.of_forall₂ hdigest
  rwa [List.map_const', List.length_range] at hbits

/-- For every prover the digest is the hash of a prefix of the message, and the mask marks exactly
that prefix. -/
theorem ensures_sha256VarSized [LargeChar F] (gadget : CompressionGadget F) {raw : List UInt8}
    {rawBits : List (Boolean F)} {max realLen : ℕ}
    (hraw : Boolean.ReadsAll rawBits (bytesBits raw)) (hmax : raw.length = max)
    (hbig : max + 1 < 2 ^ 255) (hn : terminalBlockForLen max ≤ n) :
    (sha256VarSized gadget.compress rawBits realLen max n).Ensures fun t =>
      ∃ l ≤ max, Boolean.ReadsAll t.1 (bytesBits (Sha256.hash (raw.take l))) ∧
        Boolean.ReadsAll t.2 ((List.range max).map fun i => decide (i < l)) := by
  unfold sha256VarSized
  refine (ensures_paddedBufferBits hraw hmax hbig).bind fun buffer ⟨l, hl, hbuffer⟩ => ?_
  refine (Circuit.Yields.ensures (yields_digest gadget hbuffer hmax hl hn nofun)).mono ?_
  intro t ht
  exact ⟨l, hl, ht⟩

theorem admits_sha256VarSized (gadget : CompressionGadget F) {raw : List UInt8}
    {rawBits : List (Boolean F)} {max realLen l : ℕ}
    (hraw : Boolean.ReadsAll rawBits (bytesBits raw)) (hmax : raw.length = max)
    (hreal : realLen ≤ max) (hl : l ≤ max) (hn : terminalBlockForLen max ≤ n) :
    (sha256VarSized gadget.compress rawBits realLen max n).Admits fun t =>
      Boolean.ReadsAll t.1 (bytesBits (Sha256.hash (raw.take l))) ∧
        Boolean.ReadsAll t.2 ((List.range max).map fun i => decide (i < l)) := by
  unfold sha256VarSized
  refine (admits_paddedBufferBits hraw hmax hreal hl).bind fun buffer hbuffer => ?_
  exact Circuit.Yields.admits (yields_digest gadget hbuffer hmax hl hn nofun)

theorem succeeds_sha256VarSized (gadget : CompressionGadget F) {raw : List UInt8}
    {rawBits : List (Boolean F)} {max realLen : ℕ}
    (hraw : Boolean.HonestReadsAll rawBits (bytesBits raw)) (hmax : raw.length = max)
    (hreal : realLen ≤ max) (hn : terminalBlockForLen max ≤ n) :
    (sha256VarSized gadget.compress rawBits realLen max n).Succeeds fun t =>
      Boolean.HonestReadsAll t.1 (bytesBits (Sha256.hash (raw.take realLen))) ∧
        Boolean.HonestReadsAll t.2 ((List.range max).map fun i => decide (i < realLen)) := by
  unfold sha256VarSized
  refine (succeeds_paddedBufferBits hraw hmax hreal).bind fun buffer hbuffer => ?_
  exact Circuit.Yields.succeeds (yields_digest gadget hbuffer hmax hreal hn fun _ => rfl)

/-- The mask determines the length. -/
theorem length_of_mask {max l l' : ℕ} (hl : l ≤ max) (hl' : l' ≤ max)
    (h : ((List.range max).map fun i => decide (i < l)) =
      (List.range max).map fun i => decide (i < l')) : l = l' := by
  have hat : ∀ i < max, i < l ↔ i < l' := by
    intro i hi
    simpa using List.map_inj_left.mp h i (List.mem_range.mpr hi)
  by_contra hne
  rcases Nat.lt_or_gt_of_ne hne with hlt | hlt
  · have := hat l (by omega)
    omega
  · have := hat l' (by omega)
    omega

/-- Every satisfying assignment hashes exactly one prefix of the message, the one its mask marks;
what follows the prefix plays no part; and the honest assignment of every length satisfies the
constraints. -/
theorem sha256VarSized_correct [LargeChar F] (gadget : CompressionGadget F) {max : ℕ}
    (hmax : max * 8 < 2 ^ 64) (hn : terminalBlockForLen max ≤ n) :
    (∀ {raw : List UInt8} {rawBits : List (Boolean F)} {realLen : ℕ} {ins : List F}
      {t : List (Boolean F) × List (Boolean F)}, raw.length = max →
      Boolean.ReadsAll rawBits (bytesBits raw) →
      (sha256VarSized gadget.compress rawBits realLen max n).Runs ins t →
      ∃! l, l ≤ max ∧ Boolean.ReadsAll t.2 ((List.range max).map fun i => decide (i < l)) ∧
        ∀ raw' : List UInt8, raw'.take l = raw.take l →
          Boolean.ReadsAll t.1 (bytesBits (Sha256.hash (raw'.take l)))) ∧
    ∀ {raw : List UInt8} {rawBits : List (Boolean F)} {len : ℕ}, raw.length = max →
      Boolean.HonestReadsAll rawBits (bytesBits raw) → len ≤ max →
      ∃ t, (sha256VarSized gadget.compress rawBits len max n).Honest [] t ∧
        Boolean.ReadsAll t.1 (bytesBits (Sha256.hash (raw.take len))) ∧
        Boolean.ReadsAll t.2 ((List.range max).map fun i => decide (i < len)) := by
  refine ⟨?_, ?_⟩
  · intro raw rawBits realLen ins t hlen hraw hrun
    obtain ⟨-, l, hl, hdigest, hmask⟩ :=
      ensures_sha256VarSized gadget hraw hlen (by omega) hn ins t hrun
    refine ⟨l, ⟨hl, hmask, fun raw' h => ?_⟩, ?_⟩
    · rw [h]
      exact hdigest
    · rintro l' ⟨hl', hmask', -⟩
      exact length_of_mask hl' hl (hmask'.unique hmask)
  · intro raw rawBits len hlen hraw hle
    obtain ⟨t, ht, hdigest, hmask⟩ := succeeds_sha256VarSized gadget hraw hlen hle hn
    exact ⟨t, ht, hdigest.reads, hmask.reads⟩

end Digest

section Reading

variable {F : Type} [Field F] [DecidableEq F]

def readBytes (bs : List (Boolean F)) : List UInt8 := bytesOfBits (bs.map fun b => b.eval == 1)

theorem readBytes_of_holdsAll {who : Circuit.Prover} {bs : List (Boolean F)} {b : List UInt8}
    (h : Boolean.HoldsAll who bs (bytesBits b)) : readBytes bs = b := by
  have hbits : (bs.map fun b => b.eval == 1) = bytesBits b := by
    have heval := Boolean.readsAll_iff.mp h.reads
    have hmap : (bs.map Boolean.eval).map (· == 1) = bs.map fun b => b.eval == 1 := by simp
    rw [← hmap, heval, List.map_map]
    conv_rhs => rw [← List.map_id (bytesBits b)]
    apply List.map_congr_left
    intro x _
    cases x <;> simp [ofBool]
  rw [readBytes, hbits, bytesOfBits_bytesBits]

/-- A compression gadget that reads the bits it is given and returns constants. -/
def readingGadget : CompressionGadget F where
  compress block state := pure ((bytesBits (Sha256.compress (.ofBytes (readBytes state))
    (readBytes block)).bytes).map .constant)
  correct := by
    intro who block state b s hblock _ hstate
    apply Circuit.yields_pure
    rw [readBytes_of_holdsAll hblock, readBytes_of_holdsAll hstate,
      Sha256.HashState.ofBytes_bytes]
    exact Boolean.holdsAll_constants _

end Reading

def abc : List UInt8 := [0x61, 0x62, 0x63]

theorem sha256VarSized_correct_abc :
    ∃ t, (sha256VarSized (readingGadget (F := Scalar)).compress ((bytesBits abc).map .constant)
      2 3 1).Honest [] t ∧
      Boolean.ReadsAll t.1 (bytesBits (Sha256.hash (abc.take 2))) ∧
      Boolean.ReadsAll t.2 ((List.range 3).map fun i => decide (i < 2)) :=
  (sha256VarSized_correct readingGadget (by decide) (by decide)).2 rfl
    (Boolean.honestReadsAll_constants (bytesBits abc)) (by decide)

end ZkCredVega
