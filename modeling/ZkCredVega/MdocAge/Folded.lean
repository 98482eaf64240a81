import ZkCredVega.MdocAge.Witness
import ZkCredVega.Sha256Mc
import ZkCredVega.Sha256Native

/-!
# The folded age proof's hashing witness

`HashWitness::from_witness` of `mdoc_age_mc.rs`: the blocks and digests of the
`Sig_structure` and of the item, which both the step and the core circuits
commit to.
-/

namespace ZkCredVega

open Circuits

/-- The two messages, in the order their blocks appear in the shared vector. -/
def layout : HashLayout := ⟨[sigStructureBlocks, numBlocks]⟩

def sigMessage : ℕ := 0

def itemMessage : ℕ := 1

/-- The blocks and intermediate digests both circuits commit to. -/
structure HashWitness where
  blocks : List (List UInt8)
  digests : List (List UInt8)
deriving DecidableEq

namespace HashWitness

/-- The vectors have the shape the layout demands. -/
def check (hash : HashWitness) : Outcome Unit :=
  if hash.blocks.length ≠ layout.totalBlocks ∨ hash.digests.length ≠ layout.totalBlocks then
    .error .unsatisfiable
  else .ok ()

/-- Appends a block and the digest after it; `copy_from_slice` panics unless there are 64 bytes. -/
def addBlock (t : HashWitness × Sha256.HashState) (b : List UInt8) : Outcome (HashWitness × Sha256.HashState) :=
  if h : b.length = 64 then
    let state := compressNative t.2 ⟨b, h⟩
    .ok ({ blocks := t.1.blocks ++ [b], digests := t.1.digests ++ [state.bytes] }, state)
  else .error .panic

/-- Appends one message's blocks and the digest after each of them. -/
def addMessage (hash : HashWitness) (t : ℕ × List UInt8 × ℕ) : Outcome HashWitness := do
  let n := layout.messageBlocks.getD t.1 0
  let padded ← nativePaddedBufferSized t.2.1 t.2.1.length t.2.2 n
  let out ← (chunks 64 padded).foldlM addBlock (hash, Sha256.iv)
  pure out.1

def fromWitness (w : MdocAgeWitness) : Outcome HashWitness :=
  [(sigMessage, w.sigStructure, maxSigStructureBytes), (itemMessage, w.itemBytes, maxClaimBytesV1)].foldlM
    addMessage { blocks := [], digests := [] }

end HashWitness

/-- The native padding is the padded buffer, whenever the message fits. -/
theorem nativePaddedBufferSized_eq {m : List UInt8} {max n : ℕ} (hn : n * 64 < usizeBound)
    (hmax : max + 9 ≤ n * 64) :
    nativePaddedBufferSized m m.length max n =
      if m.length ≤ max then .ok (paddedBytes m (n * 64)) else .error .unsatisfiable := by
  unfold nativePaddedBufferSized
  rw [if_neg (by omega), if_neg (by omega)]
  by_cases h : m.length ≤ max
  · rw [if_neg (by omega), if_pos h]
    have htail : ((List.range' m.length (n * 64 - m.length)).mapM fun byteIdx =>
        okOr (injectedByte byteIdx m.length)) =
        .ok ((List.range' m.length (n * 64 - m.length)).map fun i =>
          (injectedByte i m.length).getD 0) := by
      rw [Circuit.mapM_eq_ok_iff, List.forall₂_map_right_iff, List.forall₂_same]
      intro i hi
      obtain ⟨b, hb⟩ := injectedByte_isSome (show m.length ≤ i by
        have := List.mem_range'_1.mp hi
        omega)
      simp [hb, okOr]
    rw [htail, List.take_length]
    have hsplit : List.range (n * 64) =
        List.range m.length ++ List.range' m.length (n * 64 - m.length) := by
      have happend : List.range' 0 m.length ++ List.range' (0 + m.length) (n * 64 - m.length) = _ :=
        List.range'_append_1
      rw [Nat.zero_add, show m.length + (n * 64 - m.length) = n * 64 by omega] at happend
      rw [List.range_eq_range', List.range_eq_range', happend]
    have hbytes : paddedBytes m (n * 64) = m ++ (List.range' m.length (n * 64 - m.length)).map
        fun i => (injectedByte i m.length).getD 0 := by
      rw [paddedBytes, hsplit, List.map_append]
      congr 1
      · apply List.ext_getElem
        · simp
        intro i h1 h2
        simp [h2]
      · apply List.map_congr_left
        intro i hi
        have := List.mem_range'_1.mp hi
        rw [if_neg (by omega)]
    rw [hbytes]
    rfl
  · rw [if_pos (by omega), if_neg h]

/-- Both messages fit the byte budgets the circuit was set up for. -/
def MdocAgeWitness.Fits (w : MdocAgeWitness) : Prop :=
  w.sigStructure.length ≤ maxSigStructureBytes ∧ w.itemBytes.length ≤ maxClaimBytesV1

instance (w : MdocAgeWitness) : Decidable w.Fits := inferInstanceAs (Decidable (_ ∧ _))

def MdocAgeWitness.paddedMessages (w : MdocAgeWitness) : List (List UInt8) :=
  [paddedBytes w.sigStructure (sigStructureBlocks * 64), paddedBytes w.itemBytes (numBlocks * 64)]

theorem fills_paddedMessages (w : MdocAgeWitness) : Fills layout w.paddedMessages := by
  refine ⟨?_, ?_⟩
  · simp only [layout, MdocAgeWitness.paddedMessages, List.map_cons, List.map_nil, length_paddedBytes]
    rfl
  · intro buf hbuf
    simp only [MdocAgeWitness.paddedMessages, List.mem_cons, List.not_mem_nil, or_false] at hbuf
    rcases hbuf with hbuf | hbuf
    · rw [hbuf, length_paddedBytes, Nat.mul_mod_left]
    · rw [hbuf, length_paddedBytes, Nat.mul_mod_left]

namespace HashWitness

theorem chunks_eq_blocks {buf : List UInt8} {n : ℕ} (h : buf.length = n * 64) : chunks 64 buf = Sha256.blocks buf n := by
  rw [chunks, h, show (n * 64 + 64 - 1) / 64 = n by omega]
  rfl

theorem foldlM_addBlock (hash : HashWitness) (s : Sha256.HashState) {bs : List (List UInt8)}
    (h : ∀ b ∈ bs, b.length = 64) : ∃ s', bs.foldlM addBlock (hash, s) = .ok
      ({ blocks := hash.blocks ++ bs, digests := hash.digests ++ (Sha256.chain s bs).map Sha256.HashState.bytes }, s') := by
  induction bs generalizing hash s with
  | nil => exact ⟨s, by simp [Sha256.chain]; rfl⟩
  | cons b bs ih =>
    obtain ⟨s', hs'⟩ := ih ⟨hash.blocks ++ [b], hash.digests ++ [(Sha256.compress s b).bytes]⟩
      (Sha256.compress s b) fun c hc => h c (List.mem_cons_of_mem _ hc)
    have hblock : addBlock (hash, s) b =
        .ok (⟨hash.blocks ++ [b], hash.digests ++ [(Sha256.compress s b).bytes]⟩, Sha256.compress s b) := by
      rw [addBlock, dif_pos (h b List.mem_cons_self), compressNative_eq]
    refine ⟨s', ?_⟩
    rw [List.foldlM_cons, hblock]
    show bs.foldlM addBlock _ = _
    rw [hs', Sha256.chain, List.map_cons, List.append_assoc, List.append_assoc]
    rfl

theorem addMessage_eq (hash : HashWitness) {m n max : ℕ} (msg : List UInt8) (hlayout : layout.messageBlocks.getD m 0 = n)
    (hn : n * 64 < usizeBound) (hmax : max + 9 ≤ n * 64) :
    addMessage hash (m, msg, max) = if msg.length ≤ max then .ok {
        blocks := hash.blocks ++ Sha256.blocks (paddedBytes msg (n * 64)) n
        digests := hash.digests ++
          (Sha256.chain Sha256.iv (Sha256.blocks (paddedBytes msg (n * 64)) n)).map Sha256.HashState.bytes }
      else .error .unsatisfiable := by
  simp only [addMessage, hlayout, nativePaddedBufferSized_eq hn hmax]
  by_cases hfit : msg.length ≤ max
  · have hlength : (paddedBytes msg (n * 64)).length = n * 64 := length_paddedBytes ..
    have hall : ∀ b ∈ Sha256.blocks (paddedBytes msg (n * 64)) n, b.length = 64 := by
      intro b hb
      obtain ⟨t, ht, rfl⟩ := List.mem_map.mp hb
      exact length_blockAt hlength (List.mem_range.mp ht)
    obtain ⟨s', hs'⟩ := foldlM_addBlock hash Sha256.iv hall
    rw [if_pos hfit, if_pos hfit]
    show (chunks 64 (paddedBytes msg (n * 64))).foldlM addBlock (hash, Sha256.iv) >>= _ = _
    rw [chunks_eq_blocks hlength, hs']
    rfl
  · rw [if_neg hfit, if_neg hfit]
    rfl

/-- The witness is built exactly when both messages fit; nothing panics on the way. -/
theorem fromWitness_eq (w : MdocAgeWitness) :
    fromWitness w =
      if w.Fits then
        .ok {
          blocks := messageBlocksOf w.paddedMessages
          digests := messageDigestsOf w.paddedMessages }
      else .error .unsatisfiable := by
  have hsig : ∀ hash, addMessage hash (sigMessage, w.sigStructure, maxSigStructureBytes) = _ := fun hash =>
    addMessage_eq (n := sigStructureBlocks) hash w.sigStructure rfl (by decide) (by decide)
  have hitem : ∀ hash, addMessage hash (itemMessage, w.itemBytes, maxClaimBytesV1) = _ := fun hash =>
    addMessage_eq (n := numBlocks) hash w.itemBytes rfl (by decide) (by decide)
  simp only [fromWitness, List.foldlM_cons, List.foldlM_nil, hsig]
  by_cases h1 : w.sigStructure.length ≤ maxSigStructureBytes
  · rw [if_pos h1]
    show addMessage _ _ >>= pure = _
    rw [hitem]
    by_cases h2 : w.itemBytes.length ≤ maxClaimBytesV1
    · rw [if_pos h2, if_pos (show w.Fits from ⟨h1, h2⟩)]
      simp [messageBlocksOf, messageDigestsOf, MdocAgeWitness.paddedMessages]
    · rw [if_neg h2, if_neg (fun h : w.Fits => h2 h.2)]
      rfl
  · rw [if_neg h1, if_neg (fun h : w.Fits => h1 h.1)]
    rfl

end HashWitness

section Complete

variable {F : Type} [Field F]

/-- The natively padded buffer is, bit for bit, the one the circuit computes. -/
theorem honest_paddedBufferBits {msg raw : List UInt8} {max blocks : ℕ} {rawBits : List (Boolean F)}
    (husize : blocks * 64 < usizeBound) (hmax : max + 9 ≤ blocks * 64) (hfit : msg.length ≤ max)
    (hlen : raw.length = max) (hmsg : raw.take msg.length = msg)
    (hraw : Boolean.HonestReadsAll rawBits (bytesBits raw)) :
    ∃ buffer padded,
      nativePaddedBufferSized msg msg.length max blocks = .ok padded ∧
      (paddedBufferBits rawBits msg.length max blocks).Honest [] buffer ∧
      Boolean.HonestReadsAll buffer.bufferBits (bytesBits padded) := by
  obtain ⟨buffer, hrun, hbuffer⟩ := succeeds_paddedBufferBits (n := blocks) hraw hlen hfit
  refine ⟨buffer, paddedBytes msg (blocks * 64), ?_, hrun, ?_⟩
  · rw [nativePaddedBufferSized_eq husize hmax, if_pos hfit]
  · have hbits := hbuffer.bits
    rw [hmsg] at hbits
    exact hbits

variable [ToRepr F] [LawfulToRepr F]

theorem honest_folded (gadget : CompressionGadget F) (w : MdocAgeWitness) {m blocks max : ℕ}
    {msg raw : List UInt8} {rawBits : List (Boolean F)}
    (hm : w.paddedMessages[m]? = some (paddedBytes msg (blocks * 64)))
    (hblocks : terminalBlockForLen max ≤ blocks) (hlen : raw.length = max)
    (hmsg : raw.take msg.length = msg) (hfit : msg.length ≤ max)
    (hraw : Boolean.HonestReadsAll rawBits (bytesBits raw)) :
    ((Hasher.folded (sharedOfMessages F w.paddedMessages) layout m).hash gadget.compress rawBits
      msg.length max blocks).Succeeds fun t =>
        Boolean.HonestReadsAll t.1 (bytesBits (Sha256.hash msg)) ∧
          Boolean.HonestReadsAll t.2
            ((List.range (min max (blocks * 64))).map fun i => decide (i < msg.length)) := by
  unfold Hasher.hash
  refine (succeeds_paddedBufferBits hraw hlen hfit).bind fun buffer hbuffer => ?_
  have hany : buffer.Holds .any raw max blocks msg.length :=
    ⟨hbuffer.bits.reads, hbuffer.active.reads, hbuffer.selector.reads⟩
  rw [← hmsg] at hm
  have hcore := (fills_paddedMessages w).succeeds_core (F := F) hany hfit hlen hm
    ((terminalBlockForLen_mono hfit).trans hblocks)
  refine hcore.mono fun t ⟨hdigest, hactive⟩ => ?_
  rw [hmsg] at hdigest
  exact ⟨hdigest, hactive ▸ hbuffer.active⟩

/-- The hashing witness is built exactly when both messages fit their budgets, with an error and
never a panic otherwise; and then its shared vector satisfies every step and the core's binding and
selection of both messages, over the very buffers the core computes. -/
theorem hashWitness_complete (gadget : CompressionGadget F) (w : MdocAgeWitness) :
    (∀ {msg raw : List UInt8} {max blocks : ℕ} {rawBits : List (Boolean F)},
      blocks * 64 < usizeBound → max + 9 ≤ blocks * 64 → msg.length ≤ max → raw.length = max →
      raw.take msg.length = msg → Boolean.HonestReadsAll rawBits (bytesBits raw) →
      ∃ buffer padded,
        nativePaddedBufferSized msg msg.length max blocks = .ok padded ∧
        (paddedBufferBits rawBits msg.length max blocks).Honest [] buffer ∧
        Boolean.HonestReadsAll buffer.bufferBits (bytesBits padded)) ∧
    ((∃ hash, HashWitness.fromWitness w = .ok hash) ↔ w.Fits) ∧
    (¬w.Fits → HashWitness.fromWitness w = .error .unsatisfiable) ∧
    ∀ {hash : HashWitness} {shared : List (AllocatedNum F F)},
      HashWitness.fromWitness w = .ok hash →
      (allocShared hash.blocks hash.digests).Honest [] shared →
      hash.check = .ok () ∧
      (∀ j < layout.totalBlocks,
        (synthesizeStep gadget.compress shared layout j).Honest [((j : ℕ) : F)] ()) ∧
      ∀ t ∈ [(sigMessage, w.sigStructure, maxSigStructureBytes, sigStructureBlocks),
          (itemMessage, w.itemBytes, maxClaimBytesV1, numBlocks)],
        ∀ {raw : List UInt8} {rawBits : List (Boolean F)}, raw.length = t.2.2.1 →
          raw.take t.2.1.length = t.2.1 → Boolean.HonestReadsAll rawBits (bytesBits raw) →
          ∃ r, ((Hasher.folded shared layout t.1).hash gadget.compress rawBits t.2.1.length t.2.2.1
              t.2.2.2).Honest [] r ∧
            Boolean.HonestReadsAll r.1 (bytesBits (Sha256.hash t.2.1)) := by
  have heq := HashWitness.fromWitness_eq w
  refine ⟨honest_paddedBufferBits, ?_, ?_, ?_⟩
  · rw [heq]
    by_cases h : w.Fits <;> simp [h]
  · intro h
    rw [heq, if_neg h]
  intro hash shared hok hshared
  have hfits : w.Fits := by
    by_contra h
    rw [heq, if_neg h] at hok
    cases hok
  rw [heq, if_pos hfits] at hok
  obtain rfl := Except.ok.inj hok
  obtain rfl : shared = sharedOfMessages F w.paddedMessages :=
    (hshared.unique (honest_allocShared _ _)).2
  have hfills := fills_paddedMessages w
  refine ⟨?_, fun j hj => hfills.honest_synthesizeStep gadget hj, ?_⟩
  · simp [HashWitness.check, hfills.length_blocks, hfills.length_digests]
  -- one argument for both messages: each is a message of the layout that fits its budget
  have hmessage : ∀ t ∈ [(sigMessage, w.sigStructure, maxSigStructureBytes, sigStructureBlocks),
      (itemMessage, w.itemBytes, maxClaimBytesV1, numBlocks)],
      w.paddedMessages[t.1]? = some (paddedBytes t.2.1 (t.2.2.2 * 64)) ∧
        t.2.1.length ≤ t.2.2.1 ∧ terminalBlockForLen t.2.2.1 ≤ t.2.2.2 := by
    intro t ht
    simp only [List.mem_cons, List.not_mem_nil, or_false] at ht
    rcases ht with rfl | rfl
    · exact ⟨rfl, hfits.1, (by decide : terminalBlockForLen maxSigStructureBytes ≤ sigStructureBlocks)⟩
    · exact ⟨rfl, hfits.2, (by decide : terminalBlockForLen maxClaimBytesV1 ≤ numBlocks)⟩
  intro t ht raw rawBits hlen hmsg hraw
  obtain ⟨hm, hfit, hblocks⟩ := hmessage t ht
  obtain ⟨r, hrun, hr, -⟩ := honest_folded gadget w hm hblocks hlen hmsg hfit hraw
  exact ⟨r, hrun, hr⟩

end Complete

/-- A witness with an empty `Sig_structure` and a three-byte item. -/
def shortWitness : MdocAgeWitness where
  sigStructure := []
  landmarks := ⟨0, 0, 0, 0, 0, 0⟩
  nameSpace := []
  docType := []
  numEntries := 0
  itemBytes := abc
  digestOffset := 0
  elementValueKeyOffset := 0
  dateEncoding := .bare
  deviceAuth := ⟨0, 0, 0⟩

theorem hashWitness_complete_shortWitness :
    ∃ hash shared, HashWitness.fromWitness shortWitness = .ok hash ∧
      (allocShared hash.blocks hash.digests).Honest [] shared ∧
      ∀ j < layout.totalBlocks, (synthesizeStep (readingGadget (F := Scalar)).compress shared layout
        j).Honest [((j : ℕ) : Scalar)] () := by
  obtain ⟨hash, hok⟩ :=
    (hashWitness_complete (readingGadget (F := Scalar)) shortWitness).2.1.mpr (by decide)
  have hshared := honest_allocShared (F := Scalar) hash.blocks hash.digests
  obtain ⟨-, -, -, hrest⟩ := hashWitness_complete (readingGadget (F := Scalar)) shortWitness
  exact ⟨hash, _, hok, hshared, (hrest hok hshared).2.1⟩

end ZkCredVega
