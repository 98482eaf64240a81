import ZkCredVega.OffsetBind.Select
import ZkCredVega.Sha256Var

/-!
# Folded SHA-256

The multi-circuit hash of `sha256_mc.rs`. All blocks and all intermediate
digests stand in one shared vector, packed 16 bytes to an element. A step
circuit proves one compression at a published index; the core ties a padded
message to the shared blocks and selects the digest of its terminal block.
-/

namespace ZkCredVega

open Circuits

/-- How many blocks each message gets. -/
structure HashLayout where
  messageBlocks : List ℕ

namespace HashLayout

def totalBlocks (layout : HashLayout) : ℕ := layout.messageBlocks.sum

/-- Whether a message starts at `block`, when the first of `budgets` starts at `start`. -/
def startsAt (start block : ℕ) : List ℕ → Bool
  | [] => false
  | n :: budgets => block == start || startsAt (start + n) block budgets

/-- Where the chaining value resets to the initial one. -/
def isFirstOfMessage (layout : HashLayout) (block : ℕ) : Bool :=
  startsAt 0 block layout.messageBlocks

def messageStart (layout : HashLayout) (m : ℕ) : ℕ := (layout.messageBlocks.take m).sum

end HashLayout

def packsPerBlock : ℕ := 64 / bytesPerPack

def packsPerDigest : ℕ := 32 / bytesPerPack

def blockPack (j k : ℕ) : ℕ := j * packsPerBlock + k

def digestPack (totalBlocks j k : ℕ) : ℕ := totalBlocks * packsPerBlock + j * packsPerDigest + k

section Circuit

variable {F V : Type} [Field F]

/-- The shared vector: every block, then every digest. -/
def allocShared (blocks digests : List (List UInt8)) : Circuit F V (List (AllocatedNum F V)) := do
  let packs : List ℕ := blocks.flatMap packBytes ++ digests.flatMap packBytes
  packs.mapM fun p : ℕ => AllocatedNum.alloc (.ok (p : F))

/-- What a selected position is read from: a constant, an element of the shared vector, or zero. -/
structure ReadSource (F V : Type) where
  lc : LC F V
  value : Option F

/-- An index past the shared vector panics. -/
def readSource [One V] (shared : List (AllocatedNum F V)) (index : Option ℕ) (constant : Option F) :
    Outcome (ReadSource F V) :=
  match index, constant with
  | _, some c => .ok { lc := .const c, value := some c }
  | some idx, none =>
    match shared[idx]? with
    | some a => .ok { lc := a.lc, value := a.value }
    | none => .error .panic
  | none, none => .ok { lc := 0, value := some 0 }

/-- The selected one of the sources: `Σ sel[j] * value(j)`. -/
def readout [One V] (sel : List (Boolean V)) (shared : List (AllocatedNum F V))
    (indexOf : ℕ → Option ℕ) (constantFor : ℕ → Option F) : Circuit F V (AllocatedNum F V) := do
  let sources ← .lift ((List.range sel.length).mapM fun j =>
    readSource shared (indexOf j) (constantFor j))
  let terms ← (sel.zip sources).mapM fun t => do
    let v ← AllocatedNum.alloc (if t.1.value.getD false then assigned t.2.value else .ok 0)
    .require (t.1.lc 1) t.2.lc v.lc
    pure v
  let value := (sel.zip sources).foldl
    (fun value t => if t.1.value.getD false then t.2.value else value) (some 0)
  let out ← AllocatedNum.alloc (assigned value)
  .require (.sum (terms.map AllocatedNum.lc)) (.const 1) out.lc
  pure out

/-- The bits of a packed element, most significant first. -/
def unpack [One V] [ToRepr F] (p : AllocatedNum F V) : Circuit F V (List (Boolean V)) := do
  let bits ← (List.range (bytesPerPack * 8)).mapM fun i =>
    Boolean.alloc (p.value.map fun v => (ToRepr.toNat v).testBit (bytesPerPack * 8 - 1 - i))
  .require (.sum (bits.zipIdx.map fun t => t.1.lc (2 ^ (bytesPerPack * 8 - 1 - t.2)))) (.const 1) p.lc
  pure bits

/-- Bits, most significant first, packed into one element. -/
def repackLc [One V] (bits : List (Boolean V)) : LC F V :=
  .sum (bits.zipIdx.map fun t => t.1.lc (2 ^ (bits.length - 1 - t.2)))

/-- The bits of `count` packed elements, each read out of the shared vector. -/
def readPacks [One V] [ToRepr F] (sel : List (Boolean V)) (shared : List (AllocatedNum F V))
    (count : ℕ) (indexOf : ℕ → ℕ → Option ℕ) (constantFor : ℕ → ℕ → Option F) :
    Circuit F V (List (Boolean V)) := do
  let bits ← (List.range count).mapM fun k => do
    let p ← readout sel shared (indexOf k) (constantFor k)
    unpack p
  pure bits.flatten

/-- Pack `k` of the bits is the element that `indexOf` selects. -/
def matchPack [One V] (sel : List (Boolean V)) (shared : List (AllocatedNum F V))
    (bits : List (Boolean V)) (indexOf : ℕ → ℕ → Option ℕ) (k : ℕ) : Circuit F V Unit := do
  let expected ← readout sel shared (indexOf k) fun _ => none
  .require (repackLc ((bits.drop (k * (bytesPerPack * 8))).take (bytesPerPack * 8))) (.const 1)
    expected.lc

/-- The packs of the initial chaining value. -/
def ivPack (k : ℕ) : F := (((packBytes Sha256.iv.bytes).getD k 0 : ℕ) : F)

/-- One compression, at the published index `step`. -/
def synthesizeStep [One V] [ToRepr F] (compress : Compression F V) (shared : List (AllocatedNum F V))
    (layout : HashLayout) (step : ℕ) : Circuit F V Unit := do
  let n := layout.totalBlocks
  let sel ← oneHotSelector n step
  let idx ← AllocatedNum.alloc (.ok (step : F))
  idx.inputize
  .require (.sum (sel.zipIdx.map fun t => t.1.lc (t.2 : F))) (.const 1) idx.lc
  let blockBits ← readPacks sel shared packsPerBlock (fun k j => some (blockPack j k))
    fun _ _ => none
  let stateBits ← readPacks sel shared packsPerDigest
    (fun k j => if layout.isFirstOfMessage j then none else some (digestPack n (j - 1) k))
    (fun k j => if layout.isFirstOfMessage j then some (ivPack k) else none)
  let out ← compress blockBits stateBits
  forM (List.range packsPerDigest) (matchPack sel shared out fun k j => some (digestPack n j k))

/-- Ties one pack of a padded message to its element of the shared vector. -/
def bindPack [One V] (shared : List (AllocatedNum F V)) (start : ℕ) (paddedBits : List (Boolean V))
    (t : ℕ × ℕ) : Circuit F V Unit :=
  let lo := t.1 * 512 + t.2 * (bytesPerPack * 8)
  match shared[blockPack (start + t.1) t.2]? with
  | some a => .require (repackLc ((paddedBits.drop lo).take (bytesPerPack * 8))) (.const 1) a.lc
  | none => .fail .panic

/-- Ties a padded message to the shared blocks the step circuits hash. -/
def bindMessageToShared [One V] (shared : List (AllocatedNum F V)) (layout : HashLayout)
    (message : ℕ) (paddedBits : List (Boolean V)) : Circuit F V Unit := do
  .assert (message < layout.messageBlocks.length)
  let budget := layout.messageBlocks.getD message 0
  let start := layout.messageStart message
  rejectUnless (paddedBits.length = budget * 512)
  forM ((List.range budget).product (List.range packsPerBlock)) (bindPack shared start paddedBits)

/-- Ties the selected block to the padding boundary. -/
def bindTerminalBlock [One V] (sel : List (Boolean V)) :
    Option (List (Boolean V)) → Circuit F V Unit
  | some lenSel =>
    .require
      (.sum (sel.zipIdx.map fun t => t.1.lc (t.2 : F)) -
        .sum (lenSel.zipIdx.map fun t => t.1.lc ((terminalBlockForLen t.2 - 1 : ℕ) : F)))
      (.const 1) 0
  | none => pure ()

/-- Selects a message's digest, at the block where the padding of the witnessed length ends. -/
def selectDigest [One V] [ToRepr F] (shared : List (AllocatedNum F V)) (layout : HashLayout)
    (message terminalBlock : ℕ) (lengthSelector : Option (List (Boolean V))) :
    Circuit F V (List (Boolean V)) := do
  let n := layout.totalBlocks
  .assert (message < layout.messageBlocks.length)
  let budget := layout.messageBlocks.getD message 0
  rejectUnless (¬terminalBlock ≥ budget)
  let start := layout.messageStart message
  let sel ← oneHotSelector budget terminalBlock
  bindTerminalBlock sel lengthSelector
  readPacks sel shared packsPerDigest (fun k j => some (digestPack n (start + j) k))
    fun _ _ => none

/-- Where a message's compressions happen. -/
inductive Hasher (F V : Type) where
  | singleCircuit
  | folded (shared : List (AllocatedNum F V)) (layout : HashLayout) (message : ℕ)

def Hasher.hash [One V] [ToRepr F] (compress : Compression F V) (rawBits : List (Boolean V))
    (realLen maxBytes blocks : ℕ) :
    Hasher F V → Circuit F V (List (Boolean V) × List (Boolean V))
  | singleCircuit => sha256VarSized compress rawBits realLen maxBytes blocks
  | folded shared layout message => do
    let buffer ← paddedBufferBits rawBits realLen maxBytes blocks
    bindMessageToShared shared layout message buffer.bufferBits
    let digest ← selectDigest shared layout message (terminalBlockForLen realLen - 1)
      (some buffer.lenSelector)
    pure (digest, buffer.msgActiveBits)

end Circuit

/-! ## Reading the shared vector -/

theorem foldl_selected {α β : Type} (f : β → Option α) {flags : List Bool} {ts : List β} {n j : ℕ}
    (hflags : flags = oneHot n j) (hlen : ts.length = n) {t : β} (ht : ts[j]? = some t)
    (init : Option α) :
    (flags.zip ts).foldl (fun value p => if p.1 then f p.2 else value) init = f t := by
  subst hflags
  induction ts generalizing n j init with
  | nil => simp at ht
  | cons t' ts ih =>
    obtain ⟨n, rfl⟩ : ∃ m, n = m + 1 := ⟨ts.length, by simpa using hlen.symm⟩
    cases j with
    | zero =>
      obtain rfl : t' = t := by simpa using ht
      have hrest : ∀ (ts : List β) (m : ℕ) (v : Option α), ((List.replicate m false).zip ts).foldl
          (fun value p => if p.1 then f p.2 else value) v = v := by
        intro ts
        induction ts with
        | nil => intro m v; simp
        | cons t ts ihts =>
          intro m v
          cases m with
          | zero => simp
          | succ m => simpa [List.replicate_succ] using ihts m v
      simp [oneHot_succ_zero, hrest]
    | succ j =>
      rw [oneHot_succ_succ, List.zip_cons_cons, List.foldl_cons]
      simpa using ih (by simpa using hlen) (by simpa using ht) init

section Readout

variable {F : Type} [Field F] {sel : List (Boolean F)} {n j : ℕ}
  {shared : List (AllocatedNum F F)}

theorem values_of_honest {bs : List (Boolean F)} {xs : List Bool}
    (h : Boolean.HonestReadsAll bs xs) : bs.map (fun b => b.value.getD false) = xs := by
  induction h with
  | nil => rfl
  | cons hb _ ih => rw [List.map_cons, ih, hb.value_eq, Option.getD_some]

theorem yields_readTerms (who : Circuit.Prover) {sources : List (ReadSource F F)}
    (hsel : Boolean.HoldsAll who sel (oneHot n j)) (hlen : sources.length = n) (hj : j < n)
    {source : ReadSource F F} (hsource : sources[j]? = some source)
    (hval : who = .honest → source.value = some source.lc.eval) :
    (do
      let terms ← (sel.zip sources).mapM fun t => do
        let v ← AllocatedNum.alloc (if t.1.value.getD false then assigned t.2.value else .ok 0)
        Circuit.require (t.1.lc 1) t.2.lc v.lc
        pure v
      let value := (sel.zip sources).foldl
        (fun value t => if t.1.value.getD false then t.2.value else value) (some 0)
      let out ← AllocatedNum.alloc (assigned value)
      Circuit.require (.sum (terms.map AllocatedNum.lc)) (.const 1) out.lc
      pure out : Circuit F F _).Yields who (·.Holds who source.lc.eval) := by
  have hterm : ∀ t ∈ sel.zip sources, (do
      let v ← AllocatedNum.alloc (if t.1.value.getD false then assigned t.2.value else .ok 0)
      Circuit.require (t.1.lc 1) t.2.lc v.lc
      pure v : Circuit F F _).Yields who (·.Holds who (t.2.lc.eval * t.1.eval)) := by
    intro t ht
    apply AllocatedNum.yields_allocEqual
    · rw [Boolean.eval_lc, one_mul, mul_comm]
    · rintro rfl
      obtain ⟨i, hi, rfl⟩ := List.mem_iff_getElem.mp ht
      have hi' : i < sel.length ∧ i < sources.length := by simpa using hi
      have hb := List.Forall₂.get hsel hi'.1 (by rw [length_oneHot]; omega)
      simp only [List.getElem_zip]
      have hbi : sel[i].Holds .honest (i == j) := by simpa [oneHot] using hb
      have hbi : sel[i].HonestReads (i == j) := hbi
      have heval : sel[i].eval = ofBool (i == j) := hbi.reads
      rw [hbi.value_eq, heval]
      by_cases hij : i = j
      · subst hij
        have hs : sources[i] = source := by
          rw [List.getElem?_eq_getElem hi'.2] at hsource
          exact Option.some.inj hsource
        simp [hs, hval rfl, assigned, ofBool]
      · simp [hij, ofBool]
  refine (Circuit.Yields.mapM hterm).bind fun terms hterms => ?_
  apply AllocatedNum.yields_allocEqual
  · have hmap : terms.map AllocatedNum.val =
        (sel.zip sources).map fun t => t.2.lc.eval * t.1.eval :=
      Circuit.map_eq_of_forall₂ (hterms.imp fun _ _ h => h.val_eq)
    have hswap : ((sel.zip sources).map fun t => t.2.lc.eval * t.1.eval) =
        (sources.zip sel).map fun t => t.1.lc.eval * t.2.eval := by
      rw [← List.zip_swap, List.map_map]
      rfl
    have hread : sel.map Boolean.eval = (oneHot sources.length j).map ofBool := by
      rw [hlen]
      exact Boolean.readsAll_iff.mp hsel.reads
    have hsum := sum_zip_oneHot (fun s : ReadSource F F => s.lc.eval) Boolean.eval hread (by omega)
    have hs : sources[j] = source := by
      rw [List.getElem?_eq_getElem (by omega)] at hsource
      exact Option.some.inj hsource
    rw [LC.eval_sum, List.map_map, LC.eval_const, mul_one]
    rw [hs, ← hswap, ← hmap] at hsum
    simpa [Function.comp_def] using hsum
  · rintro rfl
    have hflags : sel.map (fun b => b.value.getD false) = oneHot n j := values_of_honest hsel
    have hfold := foldl_selected (fun s : ReadSource F F => s.value) hflags hlen hsource (some 0)
    rw [List.zip_map_left, List.foldl_map] at hfold
    simp only [Prod.map, id] at hfold
    rw [hfold, hval rfl]
    rfl

omit [Field F] in
theorem sources_of_mapM {f : ℕ → Outcome (ReadSource F F)} {sources : List (ReadSource F F)}
    (h : List.Forall₂ (fun i s => f i = .ok s) (List.range n) sources) (hj : j < n) :
    ∃ source, sources[j]? = some source ∧ f j = .ok source := by
  have hlen : sources.length = n := by rw [← h.length_eq, List.length_range]
  have hget := List.Forall₂.get h (i := j) (by simpa using hj) (by omega)
  refine ⟨sources[j], List.getElem?_eq_getElem (by omega), ?_⟩
  simpa using hget

theorem ensures_readout {indexOf : ℕ → Option ℕ} {constantFor : ℕ → Option F}
    (hsel : Boolean.ReadsAll sel (oneHot n j)) (hj : j < n) :
    (readout sel shared indexOf constantFor).Ensures fun a =>
      ∃ source, readSource shared (indexOf j) (constantFor j) = .ok source ∧
        a.val = source.lc.eval := by
  unfold readout
  refine Circuit.ensures_lift.bind fun sources hsources => ?_
  have hn : sel.length = n := by rw [hsel.length_eq, length_oneHot]
  rw [hn, Circuit.mapM_eq_ok_iff] at hsources
  have hlen : sources.length = n := by rw [← hsources.length_eq, List.length_range]
  obtain ⟨source, hsource, hread⟩ := sources_of_mapM hsources hj
  refine (Circuit.Yields.ensures (yields_readTerms .any hsel hlen hj hsource nofun)).mono ?_
  intro a ha
  exact ⟨source, hread, ha.val_eq⟩

theorem succeeds_readout {indexOf : ℕ → Option ℕ} {constantFor : ℕ → Option F}
    (hsel : Boolean.HonestReadsAll sel (oneHot n j)) (hj : j < n)
    (hok : ∀ i < n, ∃ s, readSource shared (indexOf i) (constantFor i) = .ok s)
    {source : ReadSource F F} (hsource : readSource shared (indexOf j) (constantFor j) = .ok source)
    (hval : source.value = some source.lc.eval) :
    (readout sel shared indexOf constantFor).Succeeds (·.Holds .honest source.lc.eval) := by
  unfold readout
  have hn : sel.length = n := by rw [hsel.reads.length_eq, length_oneHot]
  obtain ⟨sources, hsources⟩ : ∃ sources, List.Forall₂
      (fun i s => readSource shared (indexOf i) (constantFor i) = .ok s) (List.range n) sources := by
    apply Circuit.exists_forall₂
    intro i hi
    exact hok i (List.mem_range.mp hi)
  have hlen : sources.length = n := by rw [← hsources.length_eq, List.length_range]
  obtain ⟨source', hsource', hread⟩ := sources_of_mapM hsources hj
  obtain rfl : source = source' := by simpa [hsource] using hread
  refine Circuit.Succeeds.bind (P := (· = sources)) ⟨sources, ?_, rfl⟩ fun _ h => ?_
  · rw [hn, Circuit.mapM_eq_ok_iff.mpr hsources]
    exact ⟨rfl, rfl⟩
  · subst h
    exact Circuit.Yields.succeeds (yields_readTerms .honest hsel hlen hj hsource' fun _ => hval)

/-! ## Packs -/

theorem eval_repackLc {bits : List (Boolean F)} {xs : List Bool} (h : Boolean.ReadsAll bits xs) :
    (repackLc bits : LC F F).eval = ((beBits xs : ℕ) : F) := by
  unfold repackLc
  rw [Boolean.eval_sum_zipIdx h fun k => 2 ^ (bits.length - 1 - k), h.length_eq, sum_zipIdx_beBits]

theorem eval_unpackLc {bits : List (Boolean F)} {xs : List Bool} (h : Boolean.ReadsAll bits xs)
    (hlen : xs.length = bytesPerPack * 8) :
    (LC.sum (bits.zipIdx.map fun t => t.1.lc ((2 : F) ^ (bytesPerPack * 8 - 1 - t.2)))).eval =
      ((beBits xs : ℕ) : F) := by
  rw [← hlen, ← h.length_eq]
  exact eval_repackLc h

theorem beBits_lt_of_pack {xs : List Bool} (h : xs.length = bytesPerPack * 8) :
    beBits xs < 2 ^ 255 := by
  refine lt_of_lt_of_le (beBits_lt xs) ?_
  rw [h]
  exact two_pow_le (by decide)

variable [ToRepr F]

/-- Only a number of sixteen bytes can be unpacked. -/
theorem ensures_unpack {p : AllocatedNum F F} :
    (unpack p).Ensures fun bits => ∃ w : List UInt8, w.length = bytesPerPack ∧
      Boolean.ReadsAll bits (bytesBits w) ∧ p.val = ((bytesNat w : ℕ) : F) := by
  unfold unpack
  refine Boolean.ensures_allocBits.bind fun bits hbits => .require_bind fun h => ?_
  obtain ⟨xs, hxs, hr⟩ := hbits
  rw [List.length_range] at hxs
  obtain ⟨w, hw, rfl⟩ := exists_bytesBits (n := bytesPerPack) (by rw [hxs, Nat.mul_comm])
  rw [eval_unpackLc hr hxs, LC.eval_const, mul_one, AllocatedNum.eval_lc, beBits_bytesBits] at h
  exact Circuit.ensures_pure.mpr ⟨w, hw, hr, h.symm⟩

theorem succeeds_unpack [LawfulToRepr F] {p : AllocatedNum F F} {w : List UInt8}
    (hw : w.length = bytesPerPack) (hp : p.Holds .honest ((bytesNat w : ℕ) : F)) :
    (unpack p).Succeeds (Boolean.HonestReadsAll · (bytesBits w)) := by
  unfold unpack
  have hlt : bytesNat w < 2 ^ 255 := by
    rw [← beBits_bytesBits]
    exact beBits_lt_of_pack (by simp [hw, Nat.mul_comm])
  have hhint : ∀ i ∈ List.range (bytesPerPack * 8),
      (Boolean.alloc (p.value.map fun v => (ToRepr.toNat v).testBit (bytesPerPack * 8 - 1 - i)) :
        Circuit F F _).Succeeds (·.HonestReads ((bytesBits w).getD i false)) := by
    intro i hi
    apply Boolean.succeeds_alloc
    rw [hp.value_eq rfl, Option.map_some, LawfulToRepr.toNat_natCast hlt, ← hw,
      testBit_bytesNat (by rw [hw]; exact List.mem_range.mp hi)]
  refine (Circuit.Succeeds.mapM hhint).bind fun bits hbits => ?_
  have hr : Boolean.HonestReadsAll bits (bytesBits w) := by
    have hmap := Boolean.HonestReadsAll.of_forall₂ hbits
    rwa [map_getD_range (by simp [hw, Nat.mul_comm])] at hmap
  refine .require_bind ?_ (Circuit.succeeds_pure.mpr hr)
  rw [eval_unpackLc hr.reads (by simp [hw, Nat.mul_comm]), LC.eval_const, mul_one,
    AllocatedNum.eval_lc, hp.val_eq, beBits_bytesBits]

def chunkAt (w : List UInt8) (k : ℕ) : List UInt8 := (w.drop (k * bytesPerPack)).take bytesPerPack

theorem packCount_mul (count : ℕ) : packCount (count * bytesPerPack) = count := by
  simp only [packCount, bytesPerPack]
  omega

theorem getD_packBytes {w : List UInt8} {count k : ℕ} (hw : w.length = count * bytesPerPack)
    (hk : k < count) : (packBytes w).getD k 0 = bytesNat (chunkAt w k) := by
  rw [packBytes, hw, packCount_mul, List.getD_eq_getElem?_getD, List.getElem?_map,
    List.getElem?_range hk]
  rfl

theorem length_chunkAt {w : List UInt8} {count k : ℕ} (hw : w.length = count * bytesPerPack)
    (hk : k < count) : (chunkAt w k).length = bytesPerPack := by
  simp only [chunkAt, List.length_take, List.length_drop, hw, bytesPerPack]
  omega

theorem map_chunkAt_flatten {w : List UInt8} {count : ℕ} (hw : w.length = count * bytesPerPack) :
    ((List.range count).map (chunkAt w)).flatten = w := by
  have h := flatten_chunks w
  rw [hw, packCount_mul] at h
  exact h

theorem chunkAt_cons {w : List UInt8} (ws : List (List UInt8)) (hw : w.length = bytesPerPack) :
    chunkAt (w ++ ws.flatten) 0 = w ∧ ∀ k, chunkAt (w ++ ws.flatten) (k + 1) = chunkAt ws.flatten k := by
  constructor
  · rw [chunkAt, Nat.zero_mul, List.drop_zero, List.take_left' hw]
  · intro k
    rw [chunkAt, chunkAt, Nat.succ_mul, Nat.add_comm, ← List.drop_drop, List.drop_left' hw]

theorem chunkAt_flatten {ws : List (List UInt8)} (h : ∀ w ∈ ws, w.length = bytesPerPack) {k : ℕ}
    {w : List UInt8} (hk : ws[k]? = some w) : chunkAt ws.flatten k = w := by
  induction ws generalizing k with
  | nil => simp at hk
  | cons w' ws ih =>
    obtain ⟨h0, hs⟩ := chunkAt_cons ws (h w' (by simp))
    rw [List.flatten_cons]
    cases k with
    | zero =>
      rw [h0]
      simpa using hk
    | succ k =>
      rw [hs]
      exact ih (fun w hw => h w (by simp [hw])) (by simpa using hk)

omit [ToRepr F] in
theorem exists_chunks {Q : ℕ → List UInt8 → Prop} {ks : List ℕ} {out : List (List (Boolean F))}
    (h : List.Forall₂ (fun k bits => ∃ w : List UInt8, w.length = bytesPerPack ∧
      Boolean.ReadsAll bits (bytesBits w) ∧ Q k w) ks out) :
    ∃ ws : List (List UInt8), List.Forall₂ Q ks ws ∧ (∀ w ∈ ws, w.length = bytesPerPack) ∧
      Boolean.ReadsAll out.flatten (bytesBits ws.flatten) := by
  induction h with
  | nil => exact ⟨[], .nil, by simp, .nil⟩
  | cons hk _ ih =>
    obtain ⟨w, hw, hr, hQ⟩ := hk
    obtain ⟨ws, hQs, hws, hrs⟩ := ih
    refine ⟨w :: ws, .cons hQ hQs, ?_, ?_⟩
    · simpa using ⟨hw, hws⟩
    · rw [List.flatten_cons, List.flatten_cons, bytesBits_append]
      exact hr.append hrs

theorem ensures_readPacks {count : ℕ} {indexOf : ℕ → ℕ → Option ℕ}
    {constantFor : ℕ → ℕ → Option F} (hsel : Boolean.ReadsAll sel (oneHot n j)) (hj : j < n) :
    (readPacks sel shared count indexOf constantFor).Ensures fun bits =>
      ∃ w : List UInt8, w.length = count * bytesPerPack ∧ Boolean.ReadsAll bits (bytesBits w) ∧
        ∀ k < count, ∃ source, readSource shared (indexOf k j) (constantFor k j) = .ok source ∧
          source.lc.eval = ((bytesNat (chunkAt w k) : ℕ) : F) := by
  unfold readPacks
  have hstep : ∀ k ∈ List.range count, (do
      let p ← readout sel shared (indexOf k) (constantFor k)
      unpack p).Ensures fun bits => ∃ w : List UInt8, w.length = bytesPerPack ∧
        Boolean.ReadsAll bits (bytesBits w) ∧
        ∃ source : ReadSource F F, readSource shared (indexOf k j) (constantFor k j) =
          Except.ok source ∧ source.lc.eval = ((bytesNat w : ℕ) : F) := by
    intro k _
    refine (ensures_readout hsel hj).bind fun p ⟨source, hsource, heval⟩ => ?_
    refine ensures_unpack.mono fun bits ⟨w, hw, hr, hval⟩ => ?_
    exact ⟨w, hw, hr, source, hsource, heval.symm.trans hval⟩
  refine (Circuit.Ensures.mapM hstep).bind fun out hout => ?_
  obtain ⟨ws, hQ, hws, hr⟩ := exists_chunks hout
  have hlen : ws.length = count := by rw [← hQ.length_eq, List.length_range]
  have hflat : ws.flatten.length = count * bytesPerPack := by
    rw [List.length_flatten, List.map_congr_left hws, List.map_const', List.sum_replicate, hlen,
      smul_eq_mul]
  refine Circuit.ensures_pure.mpr ⟨ws.flatten, hflat, hr, fun k hk => ?_⟩
  have hget := List.Forall₂.get hQ (i := k) (by simpa using hk) (by omega)
  rw [chunkAt_flatten hws (List.getElem?_eq_getElem (by omega))]
  simpa using hget

theorem succeeds_readPacks [LawfulToRepr F] {count : ℕ} {indexOf : ℕ → ℕ → Option ℕ}
    {constantFor : ℕ → ℕ → Option F} {w : List UInt8}
    (hsel : Boolean.HonestReadsAll sel (oneHot n j)) (hj : j < n)
    (hw : w.length = count * bytesPerPack)
    (hok : ∀ k < count, ∀ i < n, ∃ s, readSource shared (indexOf k i) (constantFor k i) = .ok s)
    (hsource : ∀ k < count, ∃ source,
      readSource shared (indexOf k j) (constantFor k j) = .ok source ∧
        source.lc.eval = ((bytesNat (chunkAt w k) : ℕ) : F) ∧
        source.value = some source.lc.eval) :
    (readPacks sel shared count indexOf constantFor).Succeeds
      (Boolean.HonestReadsAll · (bytesBits w)) := by
  unfold readPacks
  have hstep : ∀ k ∈ List.range count, (do
      let p ← readout sel shared (indexOf k) (constantFor k)
      unpack p).Succeeds (Boolean.HonestReadsAll · (bytesBits (chunkAt w k))) := by
    intro k hk
    have hk := List.mem_range.mp hk
    obtain ⟨source, hread, heval, hvalue⟩ := hsource k hk
    refine (succeeds_readout hsel hj (hok k hk) hread hvalue).bind fun p hp => ?_
    rw [heval] at hp
    exact succeeds_unpack (length_chunkAt hw hk) hp
  refine (Circuit.Succeeds.mapM hstep).bind fun out hout => Circuit.succeeds_pure.mpr ?_
  have hflat := Boolean.HonestReadsAll.flatten hout
  have hchunks : ((List.range count).map fun k => bytesBits (chunkAt w k)) =
      ((List.range count).map (chunkAt w)).map bytesBits := by simp
  rw [hchunks, ← bytesBits_flatten, map_chunkAt_flatten hw] at hflat
  exact hflat

end Readout

/-! ## One step -/

/-- The elements of the shared vector at `idx 0`, .., `idx (count - 1)` are the packs of `w`. -/
structure PacksAt {F : Type} [Field F] (who : Circuit.Prover) (shared : List (AllocatedNum F F))
    (idx : ℕ → ℕ) (count : ℕ) (w : List UInt8) : Prop where
  length_eq : w.length = count * bytesPerPack
  packs : ∀ k < count, ∃ a, shared[idx k]? = some a ∧
    a.Holds who ((bytesNat (chunkAt w k) : ℕ) : F)

section Step

variable {F : Type} [Field F] {who : Circuit.Prover} {shared : List (AllocatedNum F F)}
  {layout : HashLayout} {idx : ℕ → ℕ} {count : ℕ} {w w' : List UInt8}

theorem eq_of_chunks (hw : w.length = count * bytesPerPack) (hw' : w'.length = count * bytesPerPack)
    [LargeChar F] (h : ∀ k < count,
      ((bytesNat (chunkAt w k) : ℕ) : F) = ((bytesNat (chunkAt w' k) : ℕ) : F)) : w = w' := by
  rw [← map_chunkAt_flatten hw, ← map_chunkAt_flatten hw']
  congr 1
  apply List.map_congr_left
  intro k hk
  have hk := List.mem_range.mp hk
  apply bytesNat_inj (by rw [length_chunkAt hw hk, length_chunkAt hw' hk])
  exact LargeChar.natCast_inj (F := F) (bytesNat_chunk_lt w k) (bytesNat_chunk_lt w' k) (h k hk)

theorem PacksAt.unique [LargeChar F] (h : PacksAt .any shared idx count w)
    (h' : PacksAt .any shared idx count w') : w = w' := by
  apply eq_of_chunks (F := F) h.length_eq h'.length_eq
  intro k hk
  obtain ⟨a, ha, hval⟩ := h.packs k hk
  obtain ⟨a', ha', hval'⟩ := h'.packs k hk
  obtain rfl : a = a' := Option.some.inj (ha.symm.trans ha')
  exact hval.val_eq.symm.trans hval'.val_eq

theorem readSource_shared {i : ℕ} {source : ReadSource F F}
    (h : readSource shared (some i) none = .ok source) :
    ∃ a, shared[i]? = some a ∧ source = { lc := a.lc, value := a.value } := by
  unfold readSource at h
  cases ha : shared[i]? with
  | none => simp [ha] at h
  | some a =>
    simp only [ha, Except.ok.injEq] at h
    exact ⟨a, rfl, h.symm⟩

theorem readSource_of_getElem? {i : ℕ} {a : AllocatedNum F F} (h : shared[i]? = some a) :
    readSource shared (some i) none = .ok { lc := a.lc, value := a.value } := by
  simp [readSource, h]

theorem packsAt_of_sources (hlen : w.length = count * bytesPerPack)
    (h : ∀ k < count, ∃ source, readSource shared (some (idx k)) none = .ok source ∧
      source.lc.eval = ((bytesNat (chunkAt w k) : ℕ) : F)) : PacksAt .any shared idx count w := by
  refine ⟨hlen, fun k hk => ?_⟩
  obtain ⟨source, hsource, heval⟩ := h k hk
  obtain ⟨a, ha, rfl⟩ := readSource_shared hsource
  exact ⟨a, ha, by simpa using heval, nofun⟩

theorem PacksAt.sources (h : PacksAt .honest shared idx count w) {k : ℕ} (hk : k < count) :
    ∃ source, readSource shared (some (idx k)) none = .ok source ∧
      source.lc.eval = ((bytesNat (chunkAt w k) : ℕ) : F) ∧ source.value = some source.lc.eval := by
  obtain ⟨a, ha, hval⟩ := h.packs k hk
  refine ⟨_, readSource_of_getElem? ha, ?_, ?_⟩
  · simpa using hval.val_eq
  · rw [hval.value_eq rfl, AllocatedNum.eval_lc, hval.val_eq]

theorem readsAll_pack {bits : List (Boolean F)} (h : Boolean.ReadsAll bits (bytesBits w)) (k : ℕ) :
    Boolean.ReadsAll ((bits.drop (k * (bytesPerPack * 8))).take (bytesPerPack * 8))
      (bytesBits (chunkAt w k)) := by
  rw [chunkAt, ← take_bytesBits, ← drop_bytesBits, show 8 * bytesPerPack = bytesPerPack * 8 by rfl,
    show 8 * (k * bytesPerPack) = k * (bytesPerPack * 8) by ring]
  exact List.forall₂_take _ (List.forall₂_drop _ h)

theorem eval_repackLc_pack {bits : List (Boolean F)} (h : Boolean.ReadsAll bits (bytesBits w))
    (k : ℕ) :
    (repackLc ((bits.drop (k * (bytesPerPack * 8))).take (bytesPerPack * 8)) : LC F F).eval =
      ((bytesNat (chunkAt w k) : ℕ) : F) := by
  rw [eval_repackLc (readsAll_pack h k), beBits_bytesBits]

theorem eval_indexLc {sel : List (Boolean F)} {n j : ℕ} (h : Boolean.ReadsAll sel (oneHot n j))
    (hj : j < n) (f : ℕ → ℕ) :
    (LC.sum (sel.zipIdx.map fun t => t.1.lc ((f t.2 : ℕ) : F))).eval = ((f j : ℕ) : F) := by
  rw [← sum_zipIdx_oneHot (fun k => ((f k : ℕ) : F)) hj, ← Boolean.readsAll_iff.mp h, LC.eval_sum]
  simp only [List.zipIdx_map, List.map_map, Function.comp_def, Prod.map, Boolean.eval_lc, id]

theorem ensures_matchPacks {sel bits : List (Boolean F)} {n j : ℕ} {indexOf : ℕ → ℕ → ℕ}
    (hsel : Boolean.ReadsAll sel (oneHot n j)) (hj : j < n)
    (hbits : Boolean.ReadsAll bits (bytesBits w)) (hw : w.length = count * bytesPerPack) :
    (forM (List.range count) (matchPack sel shared bits fun k j => some (indexOf k j))).Ensures
      fun _ => PacksAt .any shared (indexOf · j) count w := by
  have hstep : ∀ k ∈ List.range count,
      (matchPack sel shared bits (fun k j => some (indexOf k j)) k).Ensures fun _ =>
        ∃ source : ReadSource F F, readSource shared (some (indexOf k j)) none = Except.ok source ∧
          source.lc.eval = ((bytesNat (chunkAt w k) : ℕ) : F) := by
    intro k _
    unfold matchPack
    refine (ensures_readout hsel hj).bind fun p ⟨source, hsource, heval⟩ => ?_
    refine Circuit.ensures_require.mono fun _ h => ⟨source, hsource, ?_⟩
    rw [eval_repackLc_pack hbits, LC.eval_const, mul_one, AllocatedNum.eval_lc, heval] at h
    exact h.symm
  refine (Circuit.Ensures.forM hstep).mono fun _ h => packsAt_of_sources hw fun k hk => ?_
  exact h k (List.mem_range.mpr hk)

/-- What one compression relates: the block at `j`, the chaining value before it and the digest
after it, all in the shared vector. -/
def StepAt (who : Circuit.Prover) (shared : List (AllocatedNum F F)) (layout : HashLayout) (j : ℕ)
    (b : List UInt8) (s : Sha256.HashState) : Prop :=
  PacksAt who shared (blockPack j) packsPerBlock b ∧
    (if layout.isFirstOfMessage j then s = Sha256.iv
      else PacksAt who shared (digestPack layout.totalBlocks (j - 1)) packsPerDigest s.bytes) ∧
    PacksAt who shared (digestPack layout.totalBlocks j) packsPerDigest (Sha256.compress s b).bytes

theorem chunkAt_iv (k : ℕ) (hk : k < packsPerDigest) :
    (ivPack k : F) = ((bytesNat (chunkAt Sha256.iv.bytes k) : ℕ) : F) := by
  have hlen : Sha256.iv.bytes.length = packsPerDigest * bytesPerPack := by
    rw [Sha256.HashState.length_bytes]
    rfl
  rw [ivPack, getD_packBytes hlen hk]

variable [LargeChar F] [ToRepr F]

/-- A step's constraints prove one compression, at the index it publishes. -/
theorem runs_synthesizeStep (gadget : CompressionGadget F) {step : ℕ}
    (hn : layout.totalBlocks < 2 ^ 255) {ins : List F} {u : Unit}
    (h : (synthesizeStep gadget.compress shared layout step).Runs ins u) :
    ∃ j < layout.totalBlocks, ins = [((j : ℕ) : F)] ∧ ∃ b s, StepAt .any shared layout j b s := by
  unfold synthesizeStep at h
  obtain ⟨sel, -, ⟨j, hj, hsel⟩, h⟩ := h.bind_elim (ensures_oneHotSelector hn)
  obtain ⟨pub, -, -, h⟩ := h.bind_elim AllocatedNum.ensures_alloc
  obtain ⟨i, rest, _, rfl, hpub, hrest⟩ := Circuit.runs_bind.mp h
  obtain rfl := AllocatedNum.runs_inputize.mp hpub
  obtain ⟨_, -, hidx, hrest⟩ := hrest.bind_elim Circuit.ensures_require
  rw [eval_indexLc hsel hj fun k => k, LC.eval_const, mul_one, AllocatedNum.eval_lc] at hidx
  obtain ⟨blockBits, -, ⟨b, hb, hblock, hblockAt⟩, hrest⟩ :=
    hrest.bind_elim (ensures_readPacks hsel hj)
  obtain ⟨stateBits, -, ⟨w, hw, hstate, hstateAt⟩, hrest⟩ :=
    hrest.bind_elim (ensures_readPacks hsel hj)
  rw [← Sha256.HashState.bytes_ofBytes hw] at hstate
  obtain ⟨out, -, hout, hrest⟩ := hrest.bind_elim
    (Circuit.Yields.ensures (gadget.correct .any hblock hb hstate))
  obtain ⟨rfl, hdigest⟩ := ensures_matchPacks hsel hj hout (by simp; rfl) _ _ hrest
  refine ⟨j, hj, by rw [← hidx]; rfl, b, .ofBytes w, packsAt_of_sources hb hblockAt, ?_, hdigest⟩
  by_cases hfirst : layout.isFirstOfMessage j
  · rw [if_pos hfirst]
    have hiv : w = Sha256.iv.bytes := by
      apply eq_of_chunks (F := F) hw (by rw [Sha256.HashState.length_bytes]; rfl)
      intro k hk
      obtain ⟨source, hsource, heval⟩ := hstateAt k hk
      simp only [hfirst, if_true, readSource, Except.ok.injEq] at hsource
      rw [← heval, ← hsource, LC.eval_const, chunkAt_iv k hk]
    rw [hiv, Sha256.HashState.ofBytes_bytes]
  · rw [if_neg hfirst, Sha256.HashState.bytes_ofBytes hw]
    simp only [hfirst, Bool.false_eq_true, if_false] at hstateAt
    exact packsAt_of_sources hw hstateAt

omit [LargeChar F] [ToRepr F] in
theorem succeeds_matchPacks {sel bits : List (Boolean F)} {n j : ℕ} {indexOf : ℕ → ℕ → ℕ}
    (hsel : Boolean.HonestReadsAll sel (oneHot n j)) (hj : j < n)
    (hbits : Boolean.ReadsAll bits (bytesBits w))
    (hok : ∀ k < count, ∀ i < n, indexOf k i < shared.length)
    (hpacks : PacksAt .honest shared (indexOf · j) count w) :
    (forM (List.range count) (matchPack sel shared bits fun k j => some (indexOf k j))).Succeeds
      fun _ => True := by
  refine .forM fun k hk => ?_
  have hk := List.mem_range.mp hk
  obtain ⟨source, hsource, heval, hvalue⟩ := hpacks.sources hk
  unfold matchPack
  refine (succeeds_readout hsel hj ?_ hsource hvalue).bind fun p hp => ?_
  · intro i hi
    exact ⟨_, readSource_of_getElem? (List.getElem?_eq_getElem (hok k hk i hi))⟩
  · apply Circuit.succeeds_require
    rw [eval_repackLc_pack hbits, LC.eval_const, mul_one, AllocatedNum.eval_lc, hp.val_eq, heval]

omit [LargeChar F] in
theorem honest_synthesizeStep [LawfulToRepr F] (gadget : CompressionGadget F) {j : ℕ}
    (hj : j < layout.totalBlocks) (hshared : shared.length = layout.totalBlocks * 6)
    (hzero : layout.isFirstOfMessage 0 = true) {b : List UInt8} {s : Sha256.HashState}
    (hstep : StepAt .honest shared layout j b s) :
    (synthesizeStep gadget.compress shared layout j).Honest [((j : ℕ) : F)] () := by
  obtain ⟨hblock, hstate, hdigest⟩ := hstep
  have hsix : ∀ i < layout.totalBlocks, ∀ k < 2,
      digestPack layout.totalBlocks i k < shared.length := by
    intro i hi k hk
    simp only [digestPack, packsPerBlock, packsPerDigest, bytesPerPack, hshared]
    omega
  unfold synthesizeStep
  obtain ⟨sel, hselRun, hsel⟩ := succeeds_oneHotSelector (F := F) hj
  obtain ⟨pub, hpubRun, hpub⟩ := AllocatedNum.succeeds_alloc (F := F) (h := .ok (j : F)) rfl
  have hrest : (do
      Circuit.require (LC.sum (sel.zipIdx.map fun t : Boolean F × ℕ => t.1.lc (t.2 : F)))
        (LC.const 1) pub.lc
      let blockBits ← readPacks sel shared packsPerBlock (fun k j => some (blockPack j k))
        fun _ _ => none
      let stateBits ← readPacks sel shared packsPerDigest
        (fun k j => if layout.isFirstOfMessage j then none
          else some (digestPack layout.totalBlocks (j - 1) k))
        (fun k j => if layout.isFirstOfMessage j then some (ivPack k) else none)
      let out ← gadget.compress blockBits stateBits
      forM (List.range packsPerDigest)
        (matchPack sel shared out fun k j => some (digestPack layout.totalBlocks j k))).Succeeds
        fun _ => True := by
    refine .require_bind ?_ ?_
    · rw [eval_indexLc hsel.reads hj fun k => k, LC.eval_const, mul_one, AllocatedNum.eval_lc,
        hpub.val_eq]
    refine (succeeds_readPacks hsel hj hblock.length_eq ?_ fun k hk => hblock.sources hk).bind
      fun blockBits hblockBits => ?_
    · intro k hk i hi
      simp only [packsPerBlock, bytesPerPack] at hk
      refine ⟨_, readSource_of_getElem? (List.getElem?_eq_getElem ?_)⟩
      simp only [blockPack, packsPerBlock, bytesPerPack, hshared]
      omega
    have hstateLen : s.bytes.length = packsPerDigest * bytesPerPack := by
      rw [Sha256.HashState.length_bytes]
      rfl
    refine (succeeds_readPacks (w := s.bytes) hsel hj hstateLen ?_ ?_).bind
      fun stateBits hstateBits => ?_
    · intro k hk i hi
      by_cases hfirst : layout.isFirstOfMessage i
      · simp [hfirst, readSource]
      · have hi0 : i ≠ 0 := by
          rintro rfl
          exact hfirst hzero
        simp only [hfirst, Bool.false_eq_true, if_false]
        exact ⟨_, readSource_of_getElem? (List.getElem?_eq_getElem (hsix (i - 1) (by omega) k hk))⟩
    · intro k hk
      by_cases hfirst : layout.isFirstOfMessage j
      · rw [if_pos hfirst] at hstate
        simp only [hfirst, if_true, readSource, hstate]
        exact ⟨_, rfl, by rw [LC.eval_const, chunkAt_iv k hk], by rw [LC.eval_const]⟩
      · rw [if_neg hfirst] at hstate
        simp only [hfirst, Bool.false_eq_true, if_false]
        exact hstate.sources hk
    refine Circuit.Succeeds.bind (Circuit.Yields.succeeds
      (gadget.correct .honest hblockBits hblock.length_eq hstateBits)) fun out hout => ?_
    exact succeeds_matchPacks hsel hj (Boolean.HonestReadsAll.reads hout)
      (fun k hk i hi => hsix i hi k hk) hdigest
  obtain ⟨_, hrestRun, -⟩ := hrest
  exact Circuit.honest_bind.mpr ⟨[], _, sel, rfl, hselRun, Circuit.honest_bind.mpr
    ⟨[], _, pub, rfl, hpubRun, Circuit.honest_bind.mpr
      ⟨[((j : ℕ) : F)], [], (), rfl, AllocatedNum.honest_inputize hpub, hrestRun⟩⟩⟩

end Step

/-! ## Messages in the layout -/

namespace HashLayout

theorem startsAt_iff {start block : ℕ} {budgets : List ℕ} :
    startsAt start block budgets = true ↔
      ∃ m < budgets.length, block = start + (budgets.take m).sum := by
  induction budgets generalizing start with
  | nil => simp [startsAt]
  | cons n budgets ih =>
    rw [startsAt, Bool.or_eq_true, beq_iff_eq, ih]
    constructor
    · rintro (rfl | ⟨m, hm, rfl⟩)
      · exact ⟨0, by simp, by simp⟩
      · exact ⟨m + 1, by simpa using hm, by simp [Nat.add_assoc]⟩
    · rintro ⟨m, hm, rfl⟩
      cases m with
      | zero => exact .inl (by simp)
      | succ m => exact .inr ⟨m, by simpa using hm, by simp [Nat.add_assoc]⟩

variable {layout : HashLayout} {m t : ℕ}

theorem isFirstOfMessage_iff {block : ℕ} : layout.isFirstOfMessage block = true ↔
    ∃ m < layout.messageBlocks.length, block = layout.messageStart m := by
  simp [isFirstOfMessage, startsAt_iff, messageStart]

theorem isFirstOfMessage_start (hm : m < layout.messageBlocks.length) :
    layout.isFirstOfMessage (layout.messageStart m) = true :=
  isFirstOfMessage_iff.mpr ⟨m, hm, rfl⟩

theorem messageStart_succ (hm : m < layout.messageBlocks.length) :
    layout.messageStart (m + 1) = layout.messageStart m + layout.messageBlocks.getD m 0 := by
  rw [messageStart, messageStart, List.take_add_one, List.sum_append,
    List.getElem?_eq_getElem hm, List.getD_eq_getElem?_getD, List.getElem?_eq_getElem hm]
  simp

theorem messageStart_mono {m m' : ℕ} (h : m ≤ m') : layout.messageStart m ≤ layout.messageStart m' := by
  obtain ⟨k, rfl⟩ := Nat.exists_eq_add_of_le h
  rw [messageStart, messageStart, List.take_add, List.sum_append]
  omega

theorem messageStart_add_lt (hm : m < layout.messageBlocks.length)
    (ht : t < layout.messageBlocks.getD m 0) : layout.messageStart m + t < layout.totalBlocks := by
  have hnext := messageStart_succ hm
  have htotal : layout.messageStart (m + 1) ≤ layout.totalBlocks := by
    rw [totalBlocks, ← List.take_append_drop (m + 1) layout.messageBlocks, List.sum_append,
      ← messageStart]
    omega
  omega

/-- The blocks after a message's first are no message's first. -/
theorem isFirstOfMessage_succ (hm : m < layout.messageBlocks.length)
    (ht : t + 1 < layout.messageBlocks.getD m 0) :
    layout.isFirstOfMessage (layout.messageStart m + t + 1) = false := by
  rw [← Bool.not_eq_true, isFirstOfMessage_iff]
  rintro ⟨m', hm', heq⟩
  rcases Nat.lt_or_ge m m' with h | h
  · have hnext := messageStart_succ hm
    have hmono : layout.messageStart (m + 1) ≤ layout.messageStart m' := messageStart_mono h
    omega
  · have hmono : layout.messageStart m' ≤ layout.messageStart m := messageStart_mono h
    omega

end HashLayout

section Core

variable {F : Type} [Field F] {shared : List (AllocatedNum F F)} {layout : HashLayout}
  {m max l : ℕ} {buf : List UInt8}

/-- Every step is satisfied, each at its own index. -/
def StepsHold (gadget : CompressionGadget F) [ToRepr F] (shared : List (AllocatedNum F F))
    (layout : HashLayout) : Prop :=
  ∀ j < layout.totalBlocks, ∃ step,
    (synthesizeStep gadget.compress shared layout step).Runs [((j : ℕ) : F)] ()

/-- The blocks of a message as the shared vector has them. -/
def MessageAt (who : Circuit.Prover) (shared : List (AllocatedNum F F)) (layout : HashLayout) (m : ℕ)
    (buf : List UInt8) : Prop :=
  ∀ t < layout.messageBlocks.getD m 0,
    PacksAt who shared (blockPack (layout.messageStart m + t)) packsPerBlock (Sha256.blockAt buf t)

theorem chunkAt_blockAt (buf : List UInt8) (t : ℕ) {k : ℕ} (hk : k < 4) :
    chunkAt (Sha256.blockAt buf t) k = chunkAt buf (t * 4 + k) := by
  simp only [chunkAt, Sha256.blockAt, bytesPerPack, List.drop_take, List.drop_drop, List.take_take]
  rw [show min 16 (64 - k * 16) = 16 by omega, show 64 * t + k * 16 = (t * 4 + k) * 16 by ring]

theorem readsAll_blockPack {bits : List (Boolean F)} (h : Boolean.ReadsAll bits (bytesBits buf))
    (t : ℕ) {k : ℕ} (hk : k < 4) :
    (repackLc ((bits.drop (t * 512 + k * (bytesPerPack * 8))).take (bytesPerPack * 8)) : LC F F).eval =
      ((bytesNat (chunkAt (Sha256.blockAt buf t) k) : ℕ) : F) := by
  rw [chunkAt_blockAt buf t hk, ← eval_repackLc_pack h (t * 4 + k)]
  congr 3
  simp only [bytesPerPack]
  ring_nf

theorem length_blockAt {n t : ℕ} (hbuf : buf.length = n * 64) (ht : t < n) :
    (Sha256.blockAt buf t).length = packsPerBlock * bytesPerPack := by
  simp only [Sha256.blockAt, List.length_take, List.length_drop, hbuf, packsPerBlock, bytesPerPack]
  omega

theorem ensures_bindMessageToShared {bits : List (Boolean F)}
    (h : Boolean.ReadsAll bits (bytesBits buf)) :
    (bindMessageToShared shared layout m bits).Ensures fun _ =>
      m < layout.messageBlocks.length ∧ buf.length = layout.messageBlocks.getD m 0 * 64 ∧
        MessageAt .any shared layout m buf := by
  unfold bindMessageToShared
  refine Circuit.ensures_assert.bind fun _ hm => ensures_rejectUnless.bind fun _ hlen => ?_
  have hbuf : buf.length = layout.messageBlocks.getD m 0 * 64 := by
    rw [h.length_eq, length_bytesBits] at hlen
    omega
  have hstep : ∀ t ∈ (List.range (layout.messageBlocks.getD m 0)).product (List.range packsPerBlock),
      (bindPack shared (layout.messageStart m) bits t).Ensures fun _ =>
        ∃ a, shared[blockPack (layout.messageStart m + t.1) t.2]? = some a ∧
          a.val = ((bytesNat (chunkAt (Sha256.blockAt buf t.1) t.2) : ℕ) : F) := by
    rintro ⟨t, k⟩ htk
    have hk : k < 4 := List.mem_range.mp (List.pair_mem_product.mp htk).2
    unfold bindPack
    cases ha : shared[blockPack (layout.messageStart m + t) k]? with
    | none => exact fun ins r h => h.elim
    | some a =>
      refine Circuit.ensures_require.mono fun _ heq => ⟨a, rfl, ?_⟩
      rw [readsAll_blockPack h t hk, LC.eval_const, mul_one, AllocatedNum.eval_lc] at heq
      exact heq.symm
  refine (Circuit.Ensures.forM hstep).mono fun _ hall => ⟨hm, hbuf, fun t ht => ?_⟩
  refine ⟨length_blockAt hbuf ht, fun k hk => ?_⟩
  obtain ⟨a, ha, hval⟩ := hall (t, k)
    (List.pair_mem_product.mpr ⟨List.mem_range.mpr ht, List.mem_range.mpr hk⟩)
  exact ⟨a, ha, hval, nofun⟩

theorem succeeds_bindMessageToShared {bits : List (Boolean F)}
    (h : Boolean.ReadsAll bits (bytesBits buf)) (hm : m < layout.messageBlocks.length)
    (hbuf : buf.length = layout.messageBlocks.getD m 0 * 64)
    (hpacks : MessageAt .honest shared layout m buf) :
    (bindMessageToShared shared layout m bits).Succeeds fun _ => True := by
  unfold bindMessageToShared
  refine (Circuit.succeeds_assert hm).bind fun _ _ => ?_
  have hlen : bits.length = layout.messageBlocks.getD m 0 * 512 := by
    rw [h.length_eq, length_bytesBits]
    omega
  refine Circuit.Succeeds.bind (P := fun _ => True) ?_ fun _ _ => .forM fun t ht => ?_
  · rw [rejectUnless, if_pos hlen]
    exact Circuit.succeeds_pure.mpr trivial
  · obtain ⟨t, k⟩ := t
    obtain ⟨ht, hk⟩ := List.pair_mem_product.mp ht
    have hk : k < 4 := List.mem_range.mp hk
    obtain ⟨a, ha, hval⟩ := (hpacks t (List.mem_range.mp ht)).packs k hk
    unfold bindPack
    simp only [ha]
    apply Circuit.succeeds_require
    rw [readsAll_blockPack h t hk, LC.eval_const, mul_one, AllocatedNum.eval_lc, hval.val_eq]

theorem length_stateBytes (s : Sha256.HashState) :
    s.bytes.length = packsPerDigest * bytesPerPack := by
  rw [Sha256.HashState.length_bytes]
  rfl

variable [ToRepr F]

/-- The digest is read at the block where the padding of the selected length ends. -/
theorem ensures_selectDigest [LargeChar F] {terminalBlock : ℕ} {lenSel : List (Boolean F)}
    (hlenSel : Boolean.ReadsAll lenSel (oneHot (max + 1) l)) (hl : l ≤ max)
    (hmax : max < 2 ^ 64) (hn : layout.totalBlocks < 2 ^ 64) :
    (selectDigest shared layout m terminalBlock (some lenSel)).Ensures fun bits =>
      terminalBlockForLen l - 1 < layout.messageBlocks.getD m 0 ∧
      ∃ w : List UInt8, Boolean.ReadsAll bits (bytesBits w) ∧
        PacksAt .any shared (digestPack layout.totalBlocks
          (layout.messageStart m + (terminalBlockForLen l - 1))) packsPerDigest w := by
  unfold selectDigest
  refine Circuit.ensures_assert.bind fun _ hm => ensures_rejectUnless.bind fun _ hbudget => ?_
  have hbudget : layout.messageBlocks.getD m 0 < 2 ^ 64 := by
    have := HashLayout.messageStart_add_lt hm (t := terminalBlock) (by omega)
    have hnext := HashLayout.messageStart_add_lt hm
      (t := layout.messageBlocks.getD m 0 - 1) (by omega)
    omega
  refine (ensures_oneHotSelector (by omega)).bind fun sel ⟨j, hj, hsel⟩ => ?_
  refine Circuit.ensures_require.bind fun _ htie => ?_
  rw [LC.eval_sub, eval_indexLc hsel hj fun k => k,
    eval_indexLc hlenSel (by omega) fun k => terminalBlockForLen k - 1, LC.eval_const, mul_one,
    LC.eval_zero, sub_eq_zero] at htie
  have htb : terminalBlockForLen l - 1 < 2 ^ 255 := by
    rw [terminalBlockForLen_eq]
    omega
  obtain rfl : j = terminalBlockForLen l - 1 := LargeChar.natCast_inj (F := F) (by omega) htb htie
  refine (ensures_readPacks hsel hj).mono fun bits ⟨w, hw, hr, hsources⟩ => ⟨hj, w, hr, ?_⟩
  exact packsAt_of_sources hw hsources

theorem succeeds_selectDigest [LawfulToRepr F] {lenSel : List (Boolean F)} {s : Sha256.HashState}
    (hlenSel : Boolean.ReadsAll lenSel (oneHot (max + 1) l)) (hl : l ≤ max)
    (hm : m < layout.messageBlocks.length) (hshared : shared.length = layout.totalBlocks * 6)
    (hbudget : terminalBlockForLen l - 1 < layout.messageBlocks.getD m 0)
    (hdigest : PacksAt .honest shared (digestPack layout.totalBlocks
      (layout.messageStart m + (terminalBlockForLen l - 1))) packsPerDigest s.bytes) :
    (selectDigest shared layout m (terminalBlockForLen l - 1) (some lenSel)).Succeeds
      (Boolean.HonestReadsAll · (bytesBits s.bytes)) := by
  unfold selectDigest
  refine (Circuit.succeeds_assert hm).bind fun _ _ => ?_
  refine Circuit.Succeeds.bind (P := fun _ => True) ?_ fun _ _ => ?_
  · rw [rejectUnless, if_pos (by omega)]
    exact Circuit.succeeds_pure.mpr trivial
  refine (succeeds_oneHotSelector hbudget).bind fun sel hsel => ?_
  refine .require_bind ?_ ?_
  · rw [LC.eval_sub, eval_indexLc hsel.reads hbudget fun k => k,
      eval_indexLc hlenSel (by omega) fun k => terminalBlockForLen k - 1, LC.eval_const, mul_one,
      LC.eval_zero, sub_self]
  refine succeeds_readPacks hsel hbudget (length_stateBytes s) ?_ fun k hk => hdigest.sources hk
  intro k hk i hi
  have hlt := HashLayout.messageStart_add_lt hm hi
  refine ⟨_, readSource_of_getElem? (List.getElem?_eq_getElem ?_)⟩
  simp only [packsPerDigest, bytesPerPack] at hk
  simp only [digestPack, packsPerBlock, packsPerDigest, bytesPerPack, hshared]
  omega

/-! ## The chain over the shared vector -/

theorem compressAll_blocks_succ (s : Sha256.HashState) (buf : List UInt8) (t : ℕ) :
    Sha256.compressAll s (Sha256.blocks buf (t + 1)) =
      Sha256.compress (Sha256.compressAll s (Sha256.blocks buf t)) (Sha256.blockAt buf t) := by
  simp [Sha256.compressAll, Sha256.blocks, List.range_succ]

/-- The digest after block `t` of a message is the chaining value of its first `t + 1` blocks: by
induction over the blocks, each step found at its own index. -/
theorem digest_of_steps [LargeChar F] (gadget : CompressionGadget F)
    (hn : layout.totalBlocks < 2 ^ 64) (hsteps : StepsHold gadget shared layout)
    (hm : m < layout.messageBlocks.length) (hmessage : MessageAt .any shared layout m buf) {t : ℕ}
    (ht : t < layout.messageBlocks.getD m 0) :
    PacksAt .any shared (digestPack layout.totalBlocks (layout.messageStart m + t)) packsPerDigest
      (Sha256.compressAll Sha256.iv (Sha256.blocks buf (t + 1))).bytes := by
  have hstepAt : ∀ t < layout.messageBlocks.getD m 0,
      ∃ s, StepAt .any shared layout (layout.messageStart m + t) (Sha256.blockAt buf t) s := by
    intro t ht
    have hlt := HashLayout.messageStart_add_lt hm ht
    obtain ⟨step, hrun⟩ := hsteps _ hlt
    obtain ⟨j, hj, hins, b, s, hat⟩ := runs_synthesizeStep gadget (by omega) hrun
    obtain rfl : layout.messageStart m + t = j :=
      LargeChar.natCast_inj (F := F) (by omega) (by omega) (List.cons.inj hins).1
    obtain rfl : b = Sha256.blockAt buf t := hat.1.unique (hmessage t ht)
    exact ⟨s, hat⟩
  induction t with
  | zero =>
    obtain ⟨s, -, hstate, hdigest⟩ := hstepAt 0 ht
    rw [Nat.add_zero] at hstate hdigest ⊢
    rw [if_pos (HashLayout.isFirstOfMessage_start hm)] at hstate
    subst hstate
    exact hdigest
  | succ t ih =>
    obtain ⟨s, -, hstate, hdigest⟩ := hstepAt (t + 1) ht
    rw [← Nat.add_assoc] at hstate hdigest ⊢
    rw [if_neg (by rw [HashLayout.isFirstOfMessage_succ hm ht]; decide), Nat.add_sub_cancel] at hstate
    have heq := hstate.unique (ih (by omega))
    rw [compressAll_blocks_succ, ← Sha256.HashState.ofBytes_bytes (Sha256.compressAll _ _), ← heq,
      Sha256.HashState.ofBytes_bytes]
    exact hdigest

theorem blocks_take (buf : List UInt8) {k n : ℕ} (h : k ≤ n) :
    (Sha256.blocks buf n).take k = Sha256.blocks buf k := by
  rw [Sha256.blocks, ← List.map_take, List.take_range, Nat.min_eq_left h, Sha256.blocks]

/-- The folded hash is the hash of the prefix that the length selects. -/
theorem runs_folded [LargeChar F] (gadget : CompressionGadget F)
    (hn : layout.totalBlocks < 2 ^ 64) (hsteps : StepsHold gadget shared layout)
    {raw : List UInt8} {rawBits : List (Boolean F)} {realLen blocks : ℕ}
    (hraw : Boolean.ReadsAll rawBits (bytesBits raw)) (hlen : raw.length = max)
    (hmax : max * 8 < 2 ^ 64) :
    ((Hasher.folded shared layout m).hash gadget.compress rawBits realLen max blocks).Ensures fun t =>
      ∃ l ≤ max, terminalBlockForLen l ≤ layout.messageBlocks.getD m 0 ∧
        Boolean.ReadsAll t.1 (bytesBits (Sha256.hash (raw.take l))) ∧
        Boolean.ReadsAll t.2 ((List.range (min max (blocks * 64))).map fun i => decide (i < l)) := by
  unfold Hasher.hash
  refine (ensures_paddedBufferBits hraw hlen (by omega)).bind fun buffer ⟨l, hl, hbuffer⟩ => ?_
  refine (ensures_bindMessageToShared hbuffer.bits).bind fun _ ⟨hm, hbuf, hmessage⟩ => ?_
  rw [length_paddedBytes] at hbuf
  have hblocks : blocks = layout.messageBlocks.getD m 0 := by omega
  refine (ensures_selectDigest hbuffer.selector hl (by omega) hn).bind
    fun digest ⟨hterm, w, hw, hat⟩ => Circuit.ensures_pure.mpr ⟨l, hl, by omega, ?_, hbuffer.active⟩
  have htl : (raw.take l).length = l := by simp; omega
  have hpos := terminalBlockForLen_pos l
  have hchain := digest_of_steps gadget hn hsteps hm hmessage hterm
  rw [hat.unique hchain, show terminalBlockForLen l - 1 + 1 = terminalBlockForLen l by omega] at hw
  rw [hash_eq_compressAll (raw.take l) (n := blocks) (by rw [htl]; omega), htl,
    blocks_take _ (by omega)]
  exact hw

end Core

/-! ## The honest shared vector -/

def numOf {F : Type} [Field F] (p : ℕ) : AllocatedNum F F := { var := (p : F), value := some (p : F) }

/-- The elements `allocShared` allocates. -/
def sharedOf (F : Type) [Field F] (blocks digests : List (List UInt8)) : List (AllocatedNum F F) :=
  (blocks.flatMap packBytes ++ digests.flatMap packBytes).map numOf

theorem getElem?_flatMap_const {α β : Type} {f : α → List β} {c : ℕ} {xs : List α}
    (h : ∀ x ∈ xs, (f x).length = c) {i k : ℕ} (hk : k < c) :
    (xs.flatMap f)[i * c + k]? = xs[i]?.bind fun x => (f x)[k]? := by
  induction xs generalizing i with
  | nil => simp
  | cons x xs ih =>
    have hx : (f x).length = c := h x (by simp)
    rw [List.flatMap_cons]
    cases i with
    | zero =>
      rw [List.getElem?_append_left (by omega)]
      simp
    | succ i =>
      rw [List.getElem?_append_right (by rw [hx, Nat.succ_mul]; omega), hx,
        show (i + 1) * c + k - c = i * c + k by rw [Nat.succ_mul]; omega,
        ih fun x hx => h x (by simp [hx])]
      simp

theorem getElem?_flatMap_start {α β : Type} (f : α → List β) {xs : List α} {m t : ℕ} {x : α}
    (hx : xs[m]? = some x) (ht : t < (f x).length) :
    (xs.flatMap f)[((xs.take m).map fun x => (f x).length).sum + t]? = (f x)[t]? := by
  induction xs generalizing m with
  | nil => simp at hx
  | cons x' xs ih =>
    rw [List.flatMap_cons]
    cases m with
    | zero =>
      obtain rfl : x' = x := by simpa using hx
      simp [List.getElem?_append_left ht]
    | succ m =>
      have htail := ih (m := m) (by simpa using hx)
      rw [List.take_succ_cons, List.map_cons, List.sum_cons, Nat.add_assoc,
        List.getElem?_append_right (by omega), Nat.add_sub_cancel_left]
      exact htail

section Honest

variable {F : Type} [Field F] {layout : HashLayout}

theorem honest_allocShared (blocks digests : List (List UInt8)) :
    (allocShared blocks digests : Circuit F F _).Honest [] (sharedOf F blocks digests) := by
  unfold allocShared
  have hstep : ∀ p ∈ blocks.flatMap packBytes ++ digests.flatMap packBytes,
      (AllocatedNum.alloc (.ok (p : F)) : Circuit F F _).Succeeds (· = numOf p) := by
    intro p _
    exact .var_bind rfl (Circuit.succeeds_pure.mpr rfl)
  obtain ⟨r, hr, hP⟩ := Circuit.Succeeds.mapM hstep
  have heq : r = sharedOf F blocks digests := by
    rw [sharedOf]
    conv_lhs => rw [← List.map_id r]
    exact Circuit.map_eq_of_forall₂ hP
  rw [← heq]
  exact hr

theorem holds_numOf (p : ℕ) : (numOf p : AllocatedNum F F).Holds .honest (p : F) :=
  ⟨rfl, fun _ => rfl⟩

theorem length_packBytes_of {w : List UInt8} {count : ℕ} (hw : w.length = count * bytesPerPack) :
    (packBytes w).length = count := by
  rw [length_packBytes, hw, packCount_mul]

theorem getElem?_packBytes {w : List UInt8} {count k : ℕ} (hw : w.length = count * bytesPerPack)
    (hk : k < count) : (packBytes w)[k]? = some (bytesNat (chunkAt w k)) := by
  have hlen := length_packBytes_of hw
  rw [List.getElem?_eq_getElem (by omega), ← getD_packBytes hw hk, List.getD_eq_getElem?_getD,
    List.getElem?_eq_getElem (by omega), Option.getD_some]

variable {blocks digests : List (List UInt8)}

theorem length_flatMap_packBytes {ws : List (List UInt8)} {count : ℕ}
    (h : ∀ w ∈ ws, w.length = count * bytesPerPack) :
    (ws.flatMap packBytes).length = ws.length * count := by
  rw [List.length_flatMap, List.map_congr_left fun w hw => length_packBytes_of (h w hw),
    List.map_const', List.sum_replicate, smul_eq_mul]

theorem packsAt_block (hblocks : ∀ b ∈ blocks, b.length = packsPerBlock * bytesPerPack) {j : ℕ}
    {b : List UInt8} (hb : blocks[j]? = some b) :
    PacksAt .honest (sharedOf F blocks digests) (blockPack j) packsPerBlock b := by
  have hj : j < blocks.length := (List.getElem?_eq_some_iff.mp hb).1
  have hbl := hblocks b (List.mem_of_getElem? hb)
  refine ⟨hbl, fun k hk => ⟨numOf (bytesNat (chunkAt b k)), ?_, holds_numOf _⟩⟩
  have hlt : blockPack j k < (blocks.flatMap packBytes).length := by
    rw [length_flatMap_packBytes hblocks, blockPack]
    nlinarith
  rw [sharedOf, List.getElem?_map, List.getElem?_append_left hlt, blockPack,
    getElem?_flatMap_const (fun w hw => length_packBytes_of (hblocks w hw)) hk, hb, Option.bind_some,
    getElem?_packBytes hbl hk, Option.map_some]

theorem packsAt_digest (hblocks : ∀ b ∈ blocks, b.length = packsPerBlock * bytesPerPack)
    (hdigests : ∀ d ∈ digests, d.length = packsPerDigest * bytesPerPack) {n j : ℕ}
    (hn : blocks.length = n) {d : List UInt8} (hd : digests[j]? = some d) :
    PacksAt .honest (sharedOf F blocks digests) (digestPack n j) packsPerDigest d := by
  have hdl := hdigests d (List.mem_of_getElem? hd)
  refine ⟨hdl, fun k hk => ⟨numOf (bytesNat (chunkAt d k)), ?_, holds_numOf _⟩⟩
  have hlen := length_flatMap_packBytes hblocks
  rw [hn] at hlen
  rw [sharedOf, List.getElem?_map, digestPack, List.getElem?_append_right (by omega), hlen,
    show n * packsPerBlock + j * packsPerDigest + k - n * packsPerBlock = j * packsPerDigest + k by omega,
    getElem?_flatMap_const (fun w hw => length_packBytes_of (hdigests w hw)) hk, hd, Option.bind_some,
    getElem?_packBytes hdl hk, Option.map_some]

theorem length_sharedOf (hblocks : ∀ b ∈ blocks, b.length = packsPerBlock * bytesPerPack)
    (hdigests : ∀ d ∈ digests, d.length = packsPerDigest * bytesPerPack) {n : ℕ}
    (hn : blocks.length = n) (hn' : digests.length = n) :
    (sharedOf F blocks digests).length = n * 6 := by
  rw [sharedOf, List.length_map, List.length_append, length_flatMap_packBytes hblocks,
    length_flatMap_packBytes hdigests, hn, hn']
  simp only [packsPerBlock, packsPerDigest, bytesPerPack]
  omega

/-! ## Messages and their chains -/

/-- The blocks of padded messages, one message after the other. -/
def messageBlocksOf (bufs : List (List UInt8)) : List (List UInt8) :=
  bufs.flatMap fun buf => Sha256.blocks buf (buf.length / 64)

/-- The digest after each block, every message starting from the initial chaining value. -/
def messageDigestsOf (bufs : List (List UInt8)) : List (List UInt8) :=
  bufs.flatMap fun buf =>
    (Sha256.chain Sha256.iv (Sha256.blocks buf (buf.length / 64))).map Sha256.HashState.bytes

/-- The buffers fill the budgets of the layout. -/
structure Fills (layout : HashLayout) (bufs : List (List UInt8)) : Prop where
  budgets : layout.messageBlocks = bufs.map fun buf => buf.length / 64
  whole : ∀ buf ∈ bufs, buf.length % 64 = 0

variable {bufs : List (List UInt8)} {buf : List UInt8} {m t : ℕ}

theorem Fills.start (h : Fills layout bufs) :
    layout.messageStart m = ((bufs.take m).map fun buf => buf.length / 64).sum := by
  rw [HashLayout.messageStart, h.budgets, List.map_take]

theorem Fills.budget (h : Fills layout bufs) (hm : bufs[m]? = some buf) :
    layout.messageBlocks.getD m 0 = buf.length / 64 := by
  rw [h.budgets, List.getD_eq_getElem?_getD, List.getElem?_map, hm]
  rfl

theorem Fills.block (h : Fills layout bufs) (hm : bufs[m]? = some buf) (ht : t < buf.length / 64) :
    (messageBlocksOf bufs)[layout.messageStart m + t]? = some (Sha256.blockAt buf t) := by
  have hget := getElem?_flatMap_start (fun buf => Sha256.blocks buf (buf.length / 64)) hm
    (t := t) (by simpa [Sha256.blocks] using ht)
  simp only [Sha256.blocks, List.length_map, List.length_range, List.getElem?_map,
    List.getElem?_range ht, Option.map_some] at hget
  rw [h.start]
  exact hget

theorem Fills.digest (h : Fills layout bufs) (hm : bufs[m]? = some buf) (ht : t < buf.length / 64) :
    (messageDigestsOf bufs)[layout.messageStart m + t]? =
      some (Sha256.compressAll Sha256.iv (Sha256.blocks buf (t + 1))).bytes := by
  have hlen : (Sha256.blocks buf (buf.length / 64)).length = buf.length / 64 := by
    simp [Sha256.blocks]
  have hget := getElem?_flatMap_start (fun buf => (Sha256.chain Sha256.iv
    (Sha256.blocks buf (buf.length / 64))).map Sha256.HashState.bytes) hm (t := t)
    (by rw [List.length_map, Sha256.length_chain, hlen]; exact ht)
  rw [List.getElem?_map, Sha256.chain_getElem _ _ (by omega), blocks_take _ (by omega),
    Option.map_some] at hget
  have hsum : ((bufs.take m).map fun buf => ((Sha256.chain Sha256.iv
      (Sha256.blocks buf (buf.length / 64))).map Sha256.HashState.bytes).length) =
      (bufs.take m).map fun buf => buf.length / 64 := by
    apply List.map_congr_left
    intro buf _
    rw [List.length_map, Sha256.length_chain]
    simp [Sha256.blocks]
  rw [hsum] at hget
  rw [h.start]
  exact hget

theorem Fills.length_blocks (h : Fills layout bufs) :
    (messageBlocksOf bufs).length = layout.totalBlocks := by
  rw [messageBlocksOf, List.length_flatMap, HashLayout.totalBlocks, h.budgets]
  simp [Sha256.blocks]

theorem Fills.length_digests (h : Fills layout bufs) :
    (messageDigestsOf bufs).length = layout.totalBlocks := by
  rw [messageDigestsOf, List.length_flatMap, HashLayout.totalBlocks, h.budgets]
  simp [Sha256.blocks]

theorem Fills.block_length (h : Fills layout bufs) :
    ∀ b ∈ messageBlocksOf bufs, b.length = packsPerBlock * bytesPerPack := by
  intro b hb
  obtain ⟨buf, hbuf, hb⟩ := List.mem_flatMap.mp hb
  obtain ⟨t, ht, rfl⟩ := List.mem_map.mp hb
  have hwhole := h.whole buf hbuf
  exact length_blockAt (n := buf.length / 64) (by omega) (List.mem_range.mp ht)

theorem digest_length (bufs : List (List UInt8)) :
    ∀ d ∈ messageDigestsOf bufs, d.length = packsPerDigest * bytesPerPack := by
  intro d hd
  obtain ⟨buf, -, hd⟩ := List.mem_flatMap.mp hd
  obtain ⟨s, -, rfl⟩ := List.mem_map.mp hd
  exact length_stateBytes s

theorem exists_message {budgets : List ℕ} {j : ℕ} (hj : j < budgets.sum) :
    ∃ m t, m < budgets.length ∧ t < budgets.getD m 0 ∧ j = (budgets.take m).sum + t := by
  induction budgets generalizing j with
  | nil => simp at hj
  | cons n budgets ih =>
    rw [List.sum_cons] at hj
    rcases Nat.lt_or_ge j n with h | h
    · exact ⟨0, j, by simp, by simpa using h, by simp⟩
    · obtain ⟨m, t, hm, ht, heq⟩ := ih (j := j - n) (by omega)
      refine ⟨m + 1, t, by simpa using hm, by simpa using ht, ?_⟩
      rw [List.take_succ_cons, List.sum_cons]
      omega

/-- The shared vector of padded messages and their chains. -/
def sharedOfMessages (F : Type) [Field F] (bufs : List (List UInt8)) : List (AllocatedNum F F) :=
  sharedOf F (messageBlocksOf bufs) (messageDigestsOf bufs)

theorem Fills.packsAt_digest (h : Fills layout bufs) (hm : bufs[m]? = some buf)
    (ht : t < buf.length / 64) :
    PacksAt .honest (sharedOfMessages F bufs) (digestPack layout.totalBlocks
      (layout.messageStart m + t)) packsPerDigest
        (Sha256.compressAll Sha256.iv (Sha256.blocks buf (t + 1))).bytes :=
  ZkCredVega.packsAt_digest h.block_length (digest_length bufs) h.length_blocks (h.digest hm ht)

theorem Fills.messageAt (h : Fills layout bufs) (hm : bufs[m]? = some buf) :
    MessageAt .honest (sharedOfMessages F bufs) layout m buf := by
  intro t ht
  rw [h.budget hm] at ht
  exact packsAt_block h.block_length (h.block hm ht)

/-- Every block of the layout is one compression of its message's chain. -/
theorem Fills.stepAt (h : Fills layout bufs) {j : ℕ} (hj : j < layout.totalBlocks) :
    ∃ b s, StepAt .honest (sharedOfMessages F bufs) layout j b s := by
  obtain ⟨m, t, hm, ht, rfl⟩ := exists_message hj
  have hm' : m < bufs.length := by simpa [h.budgets] using hm
  have hbuf : bufs[m]? = some bufs[m] := List.getElem?_eq_getElem hm'
  have hbudget := h.budget hbuf
  have htb := ht
  rw [hbudget] at htb
  refine ⟨Sha256.blockAt bufs[m] t, Sha256.compressAll Sha256.iv (Sha256.blocks bufs[m] t),
    h.messageAt hbuf t ht, ?_, ?_⟩
  · cases t with
    | zero =>
      rw [Nat.add_zero, ← HashLayout.messageStart, if_pos (HashLayout.isFirstOfMessage_start hm)]
      rfl
    | succ t =>
      have hnot := HashLayout.isFirstOfMessage_succ hm ht
      rw [← HashLayout.messageStart, ← Nat.add_assoc, hnot, if_neg (by decide), Nat.add_sub_cancel]
      exact h.packsAt_digest hbuf (by omega)
  · rw [← compressAll_blocks_succ]
    exact h.packsAt_digest hbuf htb

omit [Field F] in
theorem isFirstOfMessage_zero (hpos : 0 < layout.totalBlocks) :
    layout.isFirstOfMessage 0 = true := by
  obtain ⟨m, -, hm, -⟩ := exists_message hpos
  exact HashLayout.isFirstOfMessage_start (m := 0) (by omega)

variable [ToRepr F] [LawfulToRepr F]

theorem Fills.honest_synthesizeStep (h : Fills layout bufs) (gadget : CompressionGadget F) {j : ℕ}
    (hj : j < layout.totalBlocks) :
    (synthesizeStep gadget.compress (sharedOfMessages F bufs) layout j).Honest [((j : ℕ) : F)] () := by
  obtain ⟨b, s, hstep⟩ := h.stepAt (F := F) hj
  exact ZkCredVega.honest_synthesizeStep gadget hj
    (length_sharedOf h.block_length (digest_length bufs) h.length_blocks h.length_digests)
    (isFirstOfMessage_zero (by omega)) hstep

theorem Fills.stepsHold (h : Fills layout bufs) (gadget : CompressionGadget F) :
    StepsHold gadget (sharedOfMessages F bufs) layout :=
  fun j hj => ⟨j, (h.honest_synthesizeStep gadget hj).runs⟩

/-- What the core does with a padded buffer succeeds when the buffer is the shared message. -/
theorem Fills.succeeds_core (h : Fills layout bufs) {raw : List UInt8} {max l blocks : ℕ}
    {buffer : PaddedBuffer F} (hbuffer : buffer.Holds .any raw max blocks l) (hl : l ≤ max)
    (hlen : raw.length = max) (hm : bufs[m]? = some (paddedBytes (raw.take l) (blocks * 64)))
    (hblocks : terminalBlockForLen l ≤ blocks) :
    (do
      bindMessageToShared (sharedOfMessages F bufs) layout m buffer.bufferBits
      let digest ← selectDigest (sharedOfMessages F bufs) layout m (terminalBlockForLen l - 1)
        (some buffer.lenSelector)
      pure (digest, buffer.msgActiveBits)).Succeeds fun t =>
        Boolean.HonestReadsAll t.1 (bytesBits (Sha256.hash (raw.take l))) ∧
          t.2 = buffer.msgActiveBits := by
  have hpos := terminalBlockForLen_pos l
  have htl : (raw.take l).length = l := by simp; omega
  have hbudget := h.budget hm
  rw [length_paddedBytes, Nat.mul_div_cancel _ (by decide)] at hbudget
  have hmlen : m < layout.messageBlocks.length := by
    rw [h.budgets, List.length_map]
    exact (List.getElem?_eq_some_iff.mp hm).1
  refine (succeeds_bindMessageToShared hbuffer.bits hmlen (by rw [length_paddedBytes, hbudget])
    (h.messageAt hm)).bind fun _ _ => ?_
  have hdigest := h.packsAt_digest (F := F) hm (t := terminalBlockForLen l - 1)
    (by rw [length_paddedBytes, Nat.mul_div_cancel _ (by decide)]; omega)
  refine (succeeds_selectDigest hbuffer.selector hl hmlen (length_sharedOf h.block_length
    (digest_length bufs) h.length_blocks h.length_digests) (by omega) hdigest).bind
    fun digest hd => Circuit.succeeds_pure.mpr ⟨?_, rfl⟩
  rw [hash_eq_compressAll (raw.take l) (n := blocks) (by rw [htl]; omega), htl,
    blocks_take _ (by omega)]
  rw [show terminalBlockForLen l - 1 + 1 = terminalBlockForLen l by omega] at hd
  exact hd

omit [ToRepr F] [LawfulToRepr F] [Field F] in
/-- A message anywhere in a layout, the other messages zero. -/
theorem exists_fills (hm : m < layout.messageBlocks.length)
    (hbuf : buf.length = layout.messageBlocks.getD m 0 * 64) :
    ∃ bufs, Fills layout bufs ∧ bufs[m]? = some buf := by
  refine ⟨(List.range layout.messageBlocks.length).map fun i =>
    if i = m then buf else List.replicate (layout.messageBlocks.getD i 0 * 64) 0, ⟨?_, ?_⟩, ?_⟩
  · apply List.ext_getElem
    · simp
    intro i h1 h2
    by_cases hi : i = m
    · subst hi
      simp [hbuf, h1]
    · simp [hi, h1]
  · intro b hb
    obtain ⟨i, -, rfl⟩ := List.mem_map.mp hb
    by_cases hi : i = m
    · simp [hi, hbuf]
    · simp [hi]
  · simp [hm]

/-- The folded hash of every message of a layout is the hash of the prefix its length selects; and
with budgets for every length it admits the same digests and masks as the single circuit. -/
theorem folded_correct [LargeChar F] (gadget : CompressionGadget F)
    (hn : layout.totalBlocks < 2 ^ 64) (hm : m < layout.messageBlocks.length) {raw : List UInt8}
    {rawBits : List (Boolean F)} {max : ℕ} (hraw : Boolean.ReadsAll rawBits (bytesBits raw))
    (hlen : raw.length = max) (hmax : max * 8 < 2 ^ 64) :
    (∀ {shared : List (AllocatedNum F F)} {realLen blocks : ℕ} {ins : List F}
      {t : List (Boolean F) × List (Boolean F)}, StepsHold gadget shared layout →
      ((Hasher.folded shared layout m).hash gadget.compress rawBits realLen max blocks).Runs ins t →
      ∃ l ≤ max, Boolean.ReadsAll t.1 (bytesBits (Sha256.hash (raw.take l))) ∧
        Boolean.ReadsAll t.2
          ((List.range (min max (blocks * 64))).map fun i => decide (i < l))) ∧
    (terminalBlockForLen max ≤ layout.messageBlocks.getD m 0 → ∀ digest active : List Bool,
      (∃ realLen t, (Hasher.singleCircuit.hash gadget.compress rawBits realLen max
          (layout.messageBlocks.getD m 0)).Runs [] t ∧
        Boolean.ReadsAll t.1 digest ∧ Boolean.ReadsAll t.2 active) ↔
      ∃ shared, StepsHold gadget shared layout ∧
        ∃ realLen t, ((Hasher.folded shared layout m).hash gadget.compress rawBits realLen max
            (layout.messageBlocks.getD m 0)).Runs [] t ∧
          Boolean.ReadsAll t.1 digest ∧ Boolean.ReadsAll t.2 active) := by
  refine ⟨?_, fun hbudget digest active => ⟨?_, ?_⟩⟩
  · intro shared realLen blocks ins t hsteps hrun
    obtain ⟨-, l, hl, -, hspec⟩ := runs_folded gadget hn hsteps hraw hlen hmax ins t hrun
    exact ⟨l, hl, hspec⟩
  · rintro ⟨realLen, t, hrun, hdigest, hactive⟩
    obtain ⟨-, l, hl, hd, ha⟩ := ensures_sha256VarSized gadget hraw hlen (by omega) hbudget [] t hrun
    obtain rfl := hdigest.unique hd
    obtain rfl := hactive.unique ha
    have hmono := terminalBlockForLen_mono hl
    have hfit : max ≤ layout.messageBlocks.getD m 0 * 64 := by
      rw [terminalBlockForLen_eq] at hbudget
      omega
    obtain ⟨bufs, hfills, hbuf⟩ := exists_fills hm (length_paddedBytes (raw.take l) _)
    obtain ⟨buffer, hbufferRun, hbuffer⟩ := admits_paddedBufferBits (F := F) hraw hlen hl hl
    obtain ⟨r, hcore, hr, hmask⟩ :=
      hfills.succeeds_core hbuffer hl hlen hbuf (hmono.trans hbudget)
    refine ⟨sharedOfMessages F bufs, hfills.stepsHold gadget, l, r,
      hbufferRun.bind_intro hcore.runs, hr.reads, ?_⟩
    rw [hmask]
    have hmasked := hbuffer.active
    rwa [Nat.min_eq_left hfit] at hmasked
  · rintro ⟨shared, hsteps, realLen, t, hrun, hdigest, hactive⟩
    obtain ⟨-, l, hl, -, hd, ha⟩ := runs_folded gadget hn hsteps hraw hlen hmax [] t hrun
    have hfit : max ≤ layout.messageBlocks.getD m 0 * 64 := by
      rw [terminalBlockForLen_eq] at hbudget
      omega
    rw [Nat.min_eq_left hfit] at ha
    obtain rfl := hdigest.unique hd
    obtain rfl := hactive.unique ha
    obtain ⟨r, hr, hspec⟩ := admits_sha256VarSized gadget hraw hlen hl hl hbudget
    exact ⟨l, r, hr, hspec⟩

omit [LawfulToRepr F] in
/-- Where a length's padding ends past the budget, the single circuit accepts it with a digest of zeros and no folded
run selects it. -/
theorem hashers_differ [LargeChar F] (gadget : CompressionGadget F) (hn : layout.totalBlocks < 2 ^ 64)
    {raw : List UInt8} {rawBits : List (Boolean F)} {max l : ℕ} (hraw : Boolean.ReadsAll rawBits (bytesBits raw))
    (hlen : raw.length = max) (hmax : max * 8 < 2 ^ 64) (hl : l ≤ max) (hpos : 1 ≤ layout.messageBlocks.getD m 0)
    (hpast : layout.messageBlocks.getD m 0 < terminalBlockForLen l) : ∃ digest active : List Bool,
      (∃ realLen t, (Hasher.singleCircuit.hash gadget.compress rawBits realLen max
          (layout.messageBlocks.getD m 0)).Runs [] t ∧ Boolean.ReadsAll t.1 digest ∧ Boolean.ReadsAll t.2 active) ∧
      ¬∃ shared, StepsHold gadget shared layout ∧
        ∃ realLen t, ((Hasher.folded shared layout m).hash gadget.compress rawBits realLen max
            (layout.messageBlocks.getD m 0)).Runs [] t ∧
          Boolean.ReadsAll t.1 digest ∧ Boolean.ReadsAll t.2 active := by
  obtain ⟨t, hrun, hdigest, hactive⟩ := admits_sha256VarSized_past gadget hraw hlen hl hl hpos hpast
  refine ⟨_, _, ⟨l, t, hrun, hdigest, hactive⟩, ?_⟩
  rintro ⟨shared, hsteps, realLen, t', hrun', -, hactive'⟩
  obtain ⟨-, k, hk, hterminal, -, hmask⟩ := runs_folded gadget hn hsteps hraw hlen hmax [] t' hrun'
  -- the padding of `k` ends before the one of `l`, so the masks differ at byte `k`
  have hsame := hactive'.unique hmask
  rw [terminalBlockForLen_eq] at hpast hterminal
  have hat := List.map_inj_left.mp hsame k (List.mem_range.mpr (by omega))
  simp only [decide_eq_decide] at hat
  omega

end Honest

def oneBlock : HashLayout := ⟨[1]⟩

def abcBits : List (Boolean Scalar) := (bytesBits abc).map .constant

theorem folded_correct_abc :
    ∃ shared, StepsHold (readingGadget (F := Scalar)) shared oneBlock ∧
      ∃ realLen t, ((Hasher.folded shared oneBlock 0).hash readingGadget.compress abcBits realLen 3
          (oneBlock.messageBlocks.getD 0 0)).Runs [] t ∧
        Boolean.ReadsAll t.1 (bytesBits (Sha256.hash (abc.take 2))) ∧
        Boolean.ReadsAll t.2 ((List.range 3).map fun i => decide (i < 2)) := by
  have hraw : Boolean.ReadsAll abcBits (bytesBits abc) :=
    (Boolean.honestReadsAll_constants (bytesBits abc)).reads
  have hbudget : terminalBlockForLen 3 ≤ oneBlock.messageBlocks.getD 0 0 := by decide
  have hcorrect := folded_correct (readingGadget (F := Scalar)) (show oneBlock.totalBlocks < 2 ^ 64 by decide)
    (show 0 < oneBlock.messageBlocks.length by decide) hraw (show abc.length = 3 by decide) (by decide)
  obtain ⟨t, hrun, hdigest, hactive⟩ := admits_sha256VarSized readingGadget hraw
    (show abc.length = 3 by decide) (show 2 ≤ 3 by decide) (show 2 ≤ 3 by decide) hbudget
  exact (hcorrect.2 hbudget _ _).mp ⟨2, t, hrun, hdigest, hactive⟩

/-- 56 zeros, whose padding has a second block. -/
def zeros56 : List UInt8 := List.replicate 56 0

def zeros56Bits : List (Boolean Scalar) := (bytesBits zeros56).map .constant

/-- One block for messages of up to 56 bytes is too few: only the single circuit accepts the longest. -/
theorem folded_differs_oneBlock : ∃ digest active : List Bool,
    (∃ realLen t, (Hasher.singleCircuit.hash (readingGadget (F := Scalar)).compress zeros56Bits realLen 56
        (oneBlock.messageBlocks.getD 0 0)).Runs [] t ∧ Boolean.ReadsAll t.1 digest ∧ Boolean.ReadsAll t.2 active) ∧
    ¬∃ shared, StepsHold (readingGadget (F := Scalar)) shared oneBlock ∧
      ∃ realLen t, ((Hasher.folded shared oneBlock 0).hash readingGadget.compress zeros56Bits realLen 56
          (oneBlock.messageBlocks.getD 0 0)).Runs [] t ∧
        Boolean.ReadsAll t.1 digest ∧ Boolean.ReadsAll t.2 active := by
  have hraw : Boolean.ReadsAll zeros56Bits (bytesBits zeros56) :=
    (Boolean.honestReadsAll_constants (bytesBits zeros56)).reads
  exact hashers_differ readingGadget (show oneBlock.totalBlocks < 2 ^ 64 by decide) hraw List.length_replicate
    (by decide) (show 56 ≤ 56 from le_rfl) (by decide) (by decide)

end ZkCredVega
