import ZkCredVega.Nym.Chain
import ZkCredVega.Nym.MdocWitness
import ZkCredVega.Nym.Request
import ZkCredVega.Nym.Values

/-!
# The pseudonym

`seed_and_nym` and `commitment_and_slots` of `pseudonym.rs`. The seed's block and the pseudonym's two
blocks are at fixed positions of the table. The seed is in the seed's first chunk and, split at its
ninth byte, in two chunks of the pseudonym's first block. A table that satisfies the rules and the
steps holds one seed, which opens the commitment and gives the pseudonym that the core publishes.
-/

namespace ZkCredVega.Nym

open Circuits Mdoc

section Gadgets

variable {F V : Type} [Field F] [One V]

/-- A new slot holding the value of a sum, with one rule. -/
def toNum (a : Lc F V) : Circuit F V (AllocatedNum F V) := do
  let n ← AllocatedNum.alloc (assigned a.value)
  equal (Lc.num n) a
  pure n

/-- The chunks after the seed: the padding of a 16-byte message. -/
def seedPadding : List (List UInt8) :=
  [0x80 :: List.replicate 15 0, List.replicate 16 0, List.replicate 15 0 ++ [0x80]]

/-- The bits of a seed's low seven bytes. -/
def seedLowBits [ToRepr F] (seed : F) : List Bool := smallBits (bytesNat ((toBe seed).drop 25)) 56

/-- The rules of the seed's and the pseudonym's messages. Returns the halves of the seed's digest and the five
values that the rest segment compares with the public values. -/
def seedAndNym [DecidableEq F] [ToRepr F] (cells : Cells F V) (regions : PseudonymRegions) :
    Circuit F V ((Lc F V × Lc F V) × List (Lc F V)) := do
  let chunk := fun j c => cells.chunk (chunksPerBlock * j + c)
  let s := regions.seed.first
  let seed := chunk s 0
  forM seedPadding.zipIdx fun t => equal (chunk s (t.2 + 1)) (Lc.constant (fromBe t.1))
  let digestHigh ← cells.state s 0
  let digestLow ← cells.state s 1
  let n := regions.nym.first
  equal (chunk n 0) (Lc.constant (fromBe (dst.take 16)))
  equal (chunk n 1) (Lc.constant (fromBe ((dst.drop 16).take 16)))
  let lowBits ← allocBits (seed.value.map seedLowBits) 56
  let low := pack lowBits
  equal (chunk n 3) (low.scale two72)
  let high := (seed - low).scale (inverse (2 ^ 56))
  let dstEnd := Lc.constant (fromBe (dst.drop 32) * two72)
  equal (chunk n 2) (dstEnd + high)
  equal (chunk (n + 1) 0) 0
  let nymHigh ← cells.state (n + 1) 0
  let nymLow ← cells.state (n + 1) 1
  pure ((digestHigh, digestLow), [chunk (n + 1) 1, chunk (n + 1) 2, chunk (n + 1) 3, nymHigh, nymLow])

/-- The five values of `seedAndNym` in slots, which the rest segment reads. -/
def intoSlots (facts : List (Lc F V)) : Circuit F V (List (AllocatedNum F V)) := facts.mapM toNum

/-- The seed's digest against the halves of `ssc`, and then the slots. -/
def commitmentAndSlots [DecidableEq F] [ToRepr F] (cells : Cells F V) (regions : PseudonymRegions)
    (ssc : Lc F V × Lc F V) : Circuit F V (List (AllocatedNum F V)) := do
  let (digest, facts) ← seedAndNym cells regions
  equal digest.1 ssc.1
  equal digest.2 ssc.2
  intoSlots facts

end Gadgets

/-- The bytes after verifier_input: the marker and the message's length of 952 bits. -/
def lastBytes : List UInt8 := 0x80 :: [0, 0, 0, 0, 0, 0, 0x03, 0xb8]

def pseudonym (seed : Bytes 16) (verifierInput : Bytes 32) : List UInt8 :=
  Sha256.hash (NymMessages.message ⟨[], seed, verifierInput⟩)

def fullRegions : PseudonymRegions := ⟨⟨24, 3⟩, ⟨30, 1⟩, ⟨28, 2⟩⟩

/-! ## The rules -/

section Rules

variable {F : Type} [Field F]

/-- The chunks hold a seed, padded, and the pseudonym's first block and the start of its second. -/
structure Cells.HoldsSeed (cells : Cells F F) (regions : PseudonymRegions) (seed : Bytes 16) : Prop where
  first : (cells.chunk (chunksPerBlock * regions.seed.first + 0)).lc.eval = fromBe seed.val
  padding : ∀ t ∈ seedPadding.zipIdx,
    (cells.chunk (chunksPerBlock * regions.seed.first + (t.2 + 1))).lc.eval = fromBe t.1
  dst0 : (cells.chunk (chunksPerBlock * regions.nym.first + 0)).lc.eval = fromBe (dst.take 16)
  dst1 : (cells.chunk (chunksPerBlock * regions.nym.first + 1)).lc.eval = fromBe ((dst.drop 16).take 16)
  high : (cells.chunk (chunksPerBlock * regions.nym.first + 2)).lc.eval = fromBe (dst.drop 32 ++ seed.val.take 9)
  low : (cells.chunk (chunksPerBlock * regions.nym.first + 3)).lc.eval =
    fromBe (seed.val.drop 9 ++ List.replicate 9 0)
  zero : (cells.chunk (chunksPerBlock * (regions.nym.first + 1) + 0)).lc.eval = 0

/-- The rest of the pseudonym's second block and the state after it. -/
def Cells.nymFacts (cells : Cells F F) (regions : PseudonymRegions) : List F :=
  [(cells.chunk (chunksPerBlock * (regions.nym.first + 1) + 1)).lc.eval,
    (cells.chunk (chunksPerBlock * (regions.nym.first + 1) + 2)).lc.eval,
    (cells.chunk (chunksPerBlock * (regions.nym.first + 1) + 3)).lc.eval,
    Message.stateValue cells (regions.nym.first + 1) 0, Message.stateValue cells (regions.nym.first + 1) 1]

structure Cells.Returns (cells : Cells F F) (regions : PseudonymRegions)
    (r : (Lc F F × Lc F F) × List (Lc F F)) : Prop where
  high : r.1.1.lc.eval = Message.stateValue cells regions.seed.first 0
  low : r.1.2.lc.eval = Message.stateValue cells regions.seed.first 1
  facts : r.2.map (·.lc.eval) = cells.nymFacts regions

theorem admits_equal {a b : Lc F F} (h : a.lc.eval = b.lc.eval) : (equal a b).Admits fun _ => True :=
  ⟨(), runs_equal.mpr ⟨rfl, h⟩, trivial⟩

theorem two72_mul (bs : List UInt8) : (fromBe bs : F) * two72 = ((bytesNat bs * 2 ^ 72 : ℕ) : F) := by
  rw [fromBe, two72, Nat.cast_mul, Nat.cast_pow, Nat.cast_ofNat]

theorem two_pow_56_ne_zero [LargeChar F] : (2 ^ 56 : F) ≠ 0 := by
  intro h
  have hcast : ((2 ^ 56 : ℕ) : F) = ((0 : ℕ) : F) := by
    rw [Nat.cast_pow, Nat.cast_ofNat, Nat.cast_zero]
    exact h
  exact absurd (LargeChar.natCast_inj (F := F) (by decide) (by decide) hcast) (by decide)

theorem bytesNat_seed (seed : Bytes 16) : bytesNat seed.val =
    2 ^ 56 * bytesNat (seed.val.take 9) + bytesNat (seed.val.drop 9) ∧
    bytesNat (seed.val.take 9) < 2 ^ 72 ∧ bytesNat (seed.val.drop 9) < 2 ^ 56 := by
  have hlen := seed.property
  have hhigh := bytesNat_lt (seed.val.take 9)
  have hlow := bytesNat_lt (seed.val.drop 9)
  have hsplit := bytesNat_append (seed.val.take 9) (seed.val.drop 9)
  rw [List.length_take, hlen] at hhigh
  rw [List.length_drop, hlen] at hlow
  rw [List.take_append_drop, List.length_drop, hlen] at hsplit
  exact ⟨hsplit, hhigh, hlow⟩

theorem bytesNat_dstEnd_lt : bytesNat (dst.drop 32) < 2 ^ 56 := by decide

theorem bytesNat_high (seed : Bytes 16) :
    bytesNat (dst.drop 32 ++ seed.val.take 9) = 2 ^ 72 * bytesNat (dst.drop 32) + bytesNat (seed.val.take 9) := by
  have hlen : (seed.val.take 9).length = 9 := by rw [List.length_take, seed.property]; rfl
  rw [bytesNat_append, hlen]
  rfl

theorem length_high (seed : Bytes 16) : (dst.drop 32 ++ seed.val.take 9).length = 16 := by
  rw [List.length_append, List.length_take, seed.property]
  rfl

theorem length_low (seed : Bytes 16) : (seed.val.drop 9 ++ List.replicate 9 0).length = 16 := by
  simp [seed.property]

theorem length_inputHigh (verifierInput : Bytes 32) :
    (List.replicate 7 0 ++ verifierInput.val.take 9).length = 16 := by
  simp [verifierInput.property]

theorem length_inputMiddle (verifierInput : Bytes 32) : ((verifierInput.val.drop 9).take 16).length = 16 := by
  simp [verifierInput.property]

theorem length_inputLow (verifierInput : Bytes 32) : (verifierInput.val.drop 25 ++ lastBytes).length = 16 := by
  simp [verifierInput.property, lastBytes]

/-- The rule of the seed's high bytes is exact: no other low bytes fit, because neither side of it wraps. -/
theorem high_rule_iff [LargeChar F] [DecidableEq F] {seed : Bytes 16} {chunk : List UInt8}
    (hchunk : chunk.length = 16) {low : ℕ} (hlow : low < 2 ^ 56) :
    (fromBe chunk : F) = fromBe (dst.drop 32) * two72 + ((fromBe seed.val : F) - (low : F)) * inverse (2 ^ 56) ↔
      low = bytesNat (seed.val.drop 9) ∧ chunk = dst.drop 32 ++ seed.val.take 9 := by
  obtain ⟨hseed, hhigh, hrest⟩ := bytesNat_seed seed
  have hdst := bytesNat_dstEnd_lt
  have hlt := bytesNat_lt chunk
  rw [hchunk] at hlt
  -- both sides times `2 ^ 56`, as natural numbers
  have hscale : (fromBe chunk : F) =
      fromBe (dst.drop 32) * two72 + ((fromBe seed.val : F) - (low : F)) * inverse (2 ^ 56) ↔
      ((bytesNat chunk * 2 ^ 56 + low : ℕ) : F) = ((bytesNat (dst.drop 32) * 2 ^ 128 + bytesNat seed.val : ℕ) : F) := by
    have hcancel : (2 ^ 56 : F)⁻¹ * 2 ^ 56 = 1 := inv_mul_cancel₀ two_pow_56_ne_zero
    rw [inverse_eq_inv, two72_mul, fromBe, fromBe]
    push_cast
    constructor
    · intro h
      rw [h]
      linear_combination ((bytesNat seed.val : F) - low) * hcancel
    · intro h
      linear_combination (2 ^ 56 : F)⁻¹ * h -
        ((bytesNat chunk : F) - (bytesNat (dst.drop 32) : F) * 2 ^ 72) * hcancel
  rw [hscale]
  constructor
  · intro h
    have hnat := LargeChar.natCast_inj (F := F) (by omega) (by omega) h
    have hlow : low = bytesNat (seed.val.drop 9) := by omega
    refine ⟨hlow, bytesNat_inj (hchunk.trans (length_high seed).symm) ?_⟩
    rw [bytesNat_high]
    omega
  · rintro ⟨rfl, rfl⟩
    rw [bytesNat_high]
    exact congrArg Nat.cast (by omega)

omit [Field F] in
theorem length_seedLowBits [ToRepr F] {hint : Option F} : ∀ bs ∈ hint.map seedLowBits, bs.length = 56 := by
  intro bs hbs
  obtain ⟨v, -, rfl⟩ := Option.map_eq_some_iff.mp hbs
  exact Message.length_smallBits _ _

theorem ensures_seedLow [ToRepr F] {hint : Option F} : (allocBits (hint.map seedLowBits) 56 : Circuit F F _).Ensures
    fun out => ∃ l : ℕ, l < 2 ^ 56 ∧ (pack out : Lc F F).lc.eval = (l : F) := by
  rw [allocBits_eq length_seedLowBits]
  refine Boolean.ensures_allocBits.mono fun out hout => ?_
  obtain ⟨xs, hlen, hreads⟩ := hout
  have hpack : (pack out : Lc F F).Holds .any _ := holds_pack hreads
  have hlt := beBits_lt xs
  rw [hlen, List.length_range] at hlt
  exact ⟨beBits xs, hlt, hpack.eval_eq⟩

theorem admits_seedLow [ToRepr F] {hint : Option F} {l : ℕ} (hl : l < 2 ^ 56) :
    (allocBits (hint.map seedLowBits) 56 : Circuit F F _).Admits fun out => (pack out : Lc F F).lc.eval = (l : F) := by
  rw [allocBits_eq length_seedLowBits]
  refine (Boolean.admits_allocBits (smallBits l 56) (by simp [Message.length_smallBits])).mono fun out hout => ?_
  have hpack : (pack out : Lc F F).Holds .any _ := holds_pack hout
  rw [hpack.eval_eq, Message.beBits_smallBits hl]

variable {cells : Cells F F} {regions : PseudonymRegions}

theorem bytesNat_low (seed : Bytes 16) :
    (fromBe (seed.val.drop 9 ++ List.replicate 9 0) : F) = (bytesNat (seed.val.drop 9) : F) * two72 := by
  have hpower : (256 : F) ^ 9 = 2 ^ 72 := by norm_num
  rw [fromBe, bytesNat_append, List.length_replicate, bytesNat_replicate_zero, Nat.add_zero, two72, Nat.cast_mul,
    Nat.cast_pow, Nat.cast_ofNat, hpower, mul_comm]

/-- The rules over any filling of 16-byte chunks hold a seed. -/
theorem ensures_seedAndNym [DecidableEq F] [ToRepr F] [LargeChar F]
    (hseed : InChunk (cells.chunk (chunksPerBlock * regions.seed.first + 0)).lc.eval)
    (hhigh : InChunk (cells.chunk (chunksPerBlock * regions.nym.first + 2)).lc.eval) :
    (seedAndNym cells regions).Ensures fun r => (∃ seed, cells.HoldsSeed regions seed) ∧ cells.Returns regions r := by
  have hpadding : (forM seedPadding.zipIdx fun t => equal
      (cells.chunk (chunksPerBlock * regions.seed.first + (t.2 + 1))) (Lc.constant (fromBe t.1))).Ensures fun _ =>
      ∀ t ∈ seedPadding.zipIdx,
        (cells.chunk (chunksPerBlock * regions.seed.first + (t.2 + 1))).lc.eval = fromBe t.1 := by
    refine Circuit.Ensures.forM fun t _ => ensures_equal.mono fun _ heq => ?_
    rw [heq, Lc.eval_constant]
  refine hpadding.bind fun _ hpadding => ?_
  refine ensures_state_cell.bind fun digestHigh hdigestHigh => ?_
  refine ensures_state_cell.bind fun digestLow hdigestLow => ?_
  refine ensures_equal.bind fun _ hdst0 => ?_
  refine ensures_equal.bind fun _ hdst1 => ?_
  refine ensures_seedLow.bind fun lowBits hlow => ?_
  refine ensures_equal.bind fun _ hlowRule => ?_
  refine ensures_equal.bind fun _ hhighRule => ?_
  refine ensures_equal.bind fun _ hzero => ?_
  refine ensures_state_cell.bind fun nymHigh hnymHigh => ?_
  refine ensures_state_cell.bind fun nymLow hnymLow => Circuit.ensures_pure.mpr ⟨?_, ?_⟩
  · obtain ⟨seed, hseed⟩ : ∃ seed : Bytes 16, (cells.chunk (chunksPerBlock * regions.seed.first + 0)).lc.eval =
        fromBe seed.val := by
      obtain ⟨bs, hlen, hbs⟩ := hseed
      exact ⟨⟨bs, hlen⟩, hbs⟩
    obtain ⟨chunk, hchunk, hhigh⟩ := hhigh
    obtain ⟨l, hl, hpack⟩ := hlow
    dsimp only at hdst0 hdst1 hlowRule hhighRule hzero
    rw [Lc.eval_add, Lc.eval_constant, Lc.eval_scale, Lc.eval_sub, hpack, hseed, hhigh] at hhighRule
    obtain ⟨rfl, rfl⟩ := (high_rule_iff hchunk hl).mp hhighRule
    refine ⟨seed, hseed, hpadding, ?_, ?_, hhigh, ?_, ?_⟩
    · rw [hdst0, Lc.eval_constant]
    · rw [hdst1, Lc.eval_constant]
    · rw [hlowRule, Lc.eval_scale, hpack, bytesNat_low]
    · exact hzero
  · refine ⟨hdigestHigh.eval_eq, hdigestLow.eval_eq, ?_⟩
    simp only [List.map_cons, List.map_nil, hnymHigh.eval_eq, hnymLow.eval_eq, Cells.nymFacts]

theorem admits_state_cell {j h : ℕ} (hj : j < positions) (hh : h < 2) :
    (cells.state j h).Admits (·.Holds .any (Message.stateValue cells j h)) := by
  have hindex : cellsPerPosition * j + chunksPerBlock + h < cells.nums.length := by
    rw [cells.length_eq]
    unfold cellsPerPosition chunksPerBlock positions at *
    omega
  rw [Cells.state, Message.stateValue, List.getElem?_eq_getElem hindex]
  exact Circuit.admits_pure.mpr (Lc.holds_num ⟨rfl, fun hw => by cases hw⟩)

/-- The rules can be satisfied over a table that holds a seed. -/
theorem admits_seedAndNym [DecidableEq F] [ToRepr F] [LargeChar F] (hseed : regions.seed.first < positions)
    (hnym : regions.nym.first + 1 < positions) {seed : Bytes 16} (h : cells.HoldsSeed regions seed) :
    (seedAndNym cells regions).Admits (cells.Returns regions) := by
  obtain ⟨-, -, hlt⟩ := bytesNat_seed seed
  refine (Circuit.Admits.forM fun t ht => admits_equal ?_).bind fun _ _ => ?_
  · rw [h.padding t ht, Lc.eval_constant]
  refine (admits_state_cell hseed (by decide)).bind fun digestHigh hdigestHigh => ?_
  refine (admits_state_cell hseed (by decide)).bind fun digestLow hdigestLow => ?_
  refine (admits_equal ?_).bind fun _ _ => ?_
  · rw [h.dst0, Lc.eval_constant]
  refine (admits_equal ?_).bind fun _ _ => ?_
  · rw [h.dst1, Lc.eval_constant]
  refine (admits_seedLow hlt).bind fun lowBits hlow => ?_
  refine (admits_equal ?_).bind fun _ _ => ?_
  · rw [h.low, Lc.eval_scale, hlow, bytesNat_low]
  refine (admits_equal ?_).bind fun _ _ => ?_
  · rw [h.high, Lc.eval_add, Lc.eval_constant, Lc.eval_scale, Lc.eval_sub, hlow, h.first]
    exact (high_rule_iff (length_high seed) hlt).mpr ⟨rfl, rfl⟩
  refine (admits_equal h.zero).bind fun _ _ => ?_
  refine (admits_state_cell hnym (by decide)).bind fun nymHigh hnymHigh => ?_
  refine (admits_state_cell hnym (by decide)).bind fun nymLow hnymLow => Circuit.admits_pure.mpr ?_
  refine ⟨hdigestHigh.eval_eq, hdigestLow.eval_eq, ?_⟩
  simp only [List.map_cons, List.map_nil, hnymHigh.eval_eq, hnymLow.eval_eq, Cells.nymFacts]

/-! ## The slots -/

theorem ensures_intoSlots {facts : List (Lc F F)} :
    (intoSlots facts).Ensures fun slots => slots.map AllocatedNum.val = facts.map (·.lc.eval) := by
  have hslots : (intoSlots facts).Ensures
      (List.Forall₂ (fun (a : Lc F F) (n : AllocatedNum F F) => n.val = a.lc.eval) facts) := by
    refine Circuit.Ensures.mapM fun a _ => AllocatedNum.ensures_alloc.bind fun n _ => ?_
    refine ensures_equal.bind fun _ heq => Circuit.ensures_pure.mpr ?_
    rw [← heq, Lc.num, AllocatedNum.eval_lc]
  exact hslots.mono fun slots h => Circuit.map_eq_of_forall₂ h

theorem admits_intoSlots (facts : List (Lc F F)) :
    (intoSlots facts).Admits fun slots => slots.map AllocatedNum.val = facts.map (·.lc.eval) := by
  have hslots : (intoSlots facts).Admits
      (List.Forall₂ (fun (a : Lc F F) (n : AllocatedNum F F) => n.val = a.lc.eval) facts) := by
    refine Circuit.Admits.mapM fun a _ => (AllocatedNum.admits_alloc a.lc.eval).bind fun n hn => ?_
    refine (admits_equal ?_).bind fun _ _ => Circuit.admits_pure.mpr hn
    rw [Lc.num, AllocatedNum.eval_lc, hn]
  exact hslots.mono fun slots h => Circuit.map_eq_of_forall₂ h

/-- The seed's digest is the commitment, and the slots hold the five values. -/
structure Cells.Commits (cells : Cells F F) (regions : PseudonymRegions) (ssc : Lc F F × Lc F F)
    (slots : List (AllocatedNum F F)) : Prop where
  high : Message.stateValue cells regions.seed.first 0 = ssc.1.lc.eval
  low : Message.stateValue cells regions.seed.first 1 = ssc.2.lc.eval
  slots : slots.map AllocatedNum.val = cells.nymFacts regions

theorem ensures_commitmentAndSlots [DecidableEq F] [ToRepr F] [LargeChar F] {ssc : Lc F F × Lc F F}
    (hseed : InChunk (cells.chunk (chunksPerBlock * regions.seed.first + 0)).lc.eval)
    (hhigh : InChunk (cells.chunk (chunksPerBlock * regions.nym.first + 2)).lc.eval) :
    (commitmentAndSlots cells regions ssc).Ensures fun slots =>
      (∃ seed, cells.HoldsSeed regions seed) ∧ cells.Commits regions ssc slots := by
  refine (ensures_seedAndNym hseed hhigh).bind fun r hr => ?_
  refine ensures_equal.bind fun _ heq0 => ensures_equal.bind fun _ heq1 => ?_
  refine ensures_intoSlots.mono fun slots hslots => ⟨hr.1, ?_, ?_, ?_⟩
  · rw [← hr.2.high, heq0]
  · rw [← hr.2.low, heq1]
  · rw [hslots, hr.2.facts]

theorem admits_commitmentAndSlots [DecidableEq F] [ToRepr F] [LargeChar F] {ssc : Lc F F × Lc F F}
    (hseed : regions.seed.first < positions) (hnym : regions.nym.first + 1 < positions) {seed : Bytes 16}
    (h : cells.HoldsSeed regions seed) (hhigh : Message.stateValue cells regions.seed.first 0 = ssc.1.lc.eval)
    (hlow : Message.stateValue cells regions.seed.first 1 = ssc.2.lc.eval) :
    (commitmentAndSlots cells regions ssc).Admits (cells.Commits regions ssc) := by
  refine (admits_seedAndNym hseed hnym h).bind fun r hr => ?_
  refine (admits_equal (hr.high.trans hhigh)).bind fun _ _ => (admits_equal (hr.low.trans hlow)).bind fun _ _ => ?_
  exact (admits_intoSlots r.2).mono fun slots hslots => ⟨hhigh, hlow, hslots.trans hr.facts⟩

/-- The public values of a pseudonym are in slots, whatever the prover knows of them. -/
theorem exists_runs_allocInputs (nym : Option NymPublic) : ∃ g : ℕ → F → Lc F F, (∀ i v, (g i v).lc.eval = v) ∧
    ∀ ins out, (allocInputs (nym.map NymPublic.values) nymValues).Runs ins out ↔
      ins.length = nymValues ∧ out = List.zipWith g (List.range nymValues) ins := by
  cases nym with
  | none =>
    refine ⟨fun _ v => Lc.num ⟨v, none⟩, fun _ v => AllocatedNum.eval_lc _, fun ins out => ?_⟩
    have hbody : ∀ i ∈ List.range nymValues, ∀ ins a, (do
        let value ← allocInputs.valueAt none i
        let input ← AllocatedNum.allocInput (assigned value)
        pure (Lc.num input) : Circuit F F _).Runs ins a ↔ ∃ v, ins = [v] ∧ a = Lc.num ⟨v, none⟩ :=
      fun i _ ins a => runs_allocInput
    rw [Option.map_none, allocInputs, runs_mapM_inputs hbody, List.length_range]
  | some nym =>
    exact ⟨fun i v => Lc.num ⟨v, nym.values[i]?⟩, fun _ v => AllocatedNum.eval_lc _,
      fun ins out => runs_allocInputs le_rfl⟩

theorem exists_five {α : Type} {xs : List α} (h : xs.length = nymValues) : ∃ a b c d e, xs = [a, b, c, d, e] := by
  rcases xs with _ | ⟨a, _ | ⟨b, _ | ⟨c, _ | ⟨d, _ | ⟨e, _ | ⟨f, xs⟩⟩⟩⟩⟩⟩ <;> simp [nymValues] at h ⊢

theorem runs_rejectSlots {p : Prop} [Decidable p] {ins : List F} {u : Unit} :
    (rejectSlots p : Circuit F F Unit).Runs ins u ↔ ins = [] ∧ p := by
  unfold rejectSlots
  split
  · next hp => simp [hp]
  · next hp => simp [hp]

theorem runs_compareSlots {slots : List (AllocatedNum F F)} {pub : List (Lc F F)} {ins : List F} {u : Unit} :
    (do
      rejectSlots (slots.length = nymValues)
      forM (slots.zip pub) fun t => equal (Lc.num t.1) t.2 : Circuit F F Unit).Runs ins u ↔
      slots.length = nymValues ∧ ins = [] ∧ ∀ t ∈ slots.zip pub, t.1.val = t.2.lc.eval := by
  rw [Circuit.runs_rule_bind fun _ _ => runs_rejectSlots]
  refine and_congr_right fun _ => Circuit.runs_forM fun t _ i v => ?_
  rw [runs_equal, Lc.num, AllocatedNum.eval_lc]

/-- The rest segment's rules: the slots are the five public values, the third beside the padding. -/
theorem runs_checkPseudonym {slots : List (AllocatedNum F F)} {nym : Option NymPublic} {ins : List F} :
    (checkPseudonym slots nym).Runs ins () ↔ ∃ high middle low p q, ins = [high, middle, low, p, q] ∧
      slots.map AllocatedNum.val = [high, middle, low * two72 + lastChunkPadding, p, q] := by
  obtain ⟨g, hg, hinputs⟩ := exists_runs_allocInputs (F := F) nym
  -- the rules over five slots and five values
  have hfive : ∀ high middle low p q, slots.length = nymValues ∧ (∀ t ∈ slots.zip ((List.zipWith g (List.range nymValues)
      [high, middle, low, p, q]).set 2 (((List.zipWith g (List.range nymValues) [high, middle, low, p, q]).getD 2 0).scale
        two72 + Lc.constant lastChunkPadding)), t.1.val = t.2.lc.eval) ↔
      slots.map AllocatedNum.val = [high, middle, low * two72 + lastChunkPadding, p, q] := by
    intro high middle low p q
    have hpub : List.zipWith g (List.range nymValues) [high, middle, low, p, q] =
        [g 0 high, g 1 middle, g 2 low, g 3 p, g 4 q] := rfl
    rw [hpub]
    constructor
    · rintro ⟨hlen, hslots⟩
      obtain ⟨a, b, c, d, e, rfl⟩ := exists_five hlen
      simpa [hg, Lc.eval_add, Lc.eval_scale, Lc.eval_constant] using hslots
    · intro hslots
      have hlen : slots.length = nymValues := by
        rw [← List.length_map AllocatedNum.val, hslots]
        rfl
      obtain ⟨a, b, c, d, e, rfl⟩ := exists_five hlen
      refine ⟨rfl, ?_⟩
      simpa [hg, Lc.eval_add, Lc.eval_scale, Lc.eval_constant] using hslots
  unfold checkPseudonym
  rw [Circuit.runs_bind]
  constructor
  · rintro ⟨i, j, pub, rfl, hpub, hrun⟩
    obtain ⟨hlen, rfl, hslots⟩ := runs_compareSlots.mp hrun
    obtain ⟨hcount, rfl⟩ := (hinputs i pub).mp hpub
    obtain ⟨high, middle, low, p, q, rfl⟩ := exists_five hcount
    exact ⟨high, middle, low, p, q, List.append_nil _, (hfive high middle low p q).mp ⟨hlen, hslots⟩⟩
  · rintro ⟨high, middle, low, p, q, rfl, hslots⟩
    obtain ⟨hlen, hslots⟩ := (hfive high middle low p q).mpr hslots
    exact ⟨_, [], _, (List.append_nil _).symm, (hinputs _ _).mpr ⟨rfl, rfl⟩, runs_compareSlots.mpr ⟨hlen, rfl, hslots⟩⟩

/-! ## The blocks -/

theorem pad_seed (seed : Bytes 16) : pad seed.val =
    seed.val ++ ((0x80 :: List.replicate 15 0) ++ (List.replicate 16 0 ++ (List.replicate 15 0 ++ [0x80]))) := by
  have hsuffix : [(0x80 : UInt8)] ++ (List.replicate ((119 - 16 % 64) % 64) 0 ++ Sha256.be64 (8 * 16)) =
      (0x80 :: List.replicate 15 0) ++ (List.replicate 16 0 ++ (List.replicate 15 0 ++ [0x80])) := by decide
  rw [pad_eq, Sha256.pad, seed.property, ← hsuffix]
  simp only [List.append_assoc]

theorem fromBe_zeros (n : ℕ) (bs : List UInt8) : (fromBe (List.replicate n 0 ++ bs) : F) = fromBe bs := by
  rw [fromBe, fromBe, bytesNat_append, bytesNat_replicate_zero, Nat.mul_zero, Nat.zero_add]

theorem fromBe_lastBytes (bs : List UInt8) :
    (fromBe (bs ++ lastBytes) : F) = fromBe bs * two72 + lastChunkPadding := by
  have hpower : (256 : F) ^ 9 = 2 ^ 72 := by norm_num
  have hbytes : lastBytes.length = 9 := rfl
  rw [fromBe, fromBe, bytesNat_append, hbytes, Nat.cast_add, Nat.cast_mul, Nat.cast_pow, Nat.cast_ofNat, hpower, mul_comm]
  rfl

variable [ToRepr F] [LawfulToRepr F]

theorem Cells.block_eq {j : ℕ} {a b c d : List UInt8} (ha : a.length = 16) (hb : b.length = 16) (hc : c.length = 16)
    (hd : d.length = 16) (h0 : (cells.chunk (chunksPerBlock * j + 0)).lc.eval = fromBe a)
    (h1 : (cells.chunk (chunksPerBlock * j + 1)).lc.eval = fromBe b)
    (h2 : (cells.chunk (chunksPerBlock * j + 2)).lc.eval = fromBe c)
    (h3 : (cells.chunk (chunksPerBlock * j + 3)).lc.eval = fromBe d) : cells.block j = a ++ (b ++ (c ++ d)) := by
  have hrange : List.range chunksPerBlock = [0, 1, 2, 3] := rfl
  rw [Cells.block, hrange, List.flatMap_cons, List.flatMap_cons, List.flatMap_cons, List.flatMap_singleton, h0, h1, h2, h3,
    cellBytes_fromBe ha, cellBytes_fromBe hb, cellBytes_fromBe hc, cellBytes_fromBe hd]

/-- The seed's position holds the padded seed. -/
theorem Cells.HoldsSeed.block_seed {seed : Bytes 16} (h : cells.HoldsSeed regions seed) :
    cells.block regions.seed.first = pad seed.val := by
  rw [pad_seed]
  exact Cells.block_eq seed.property (by decide) (by decide) (by decide) h.first (h.padding (_, 0) (by decide))
    (h.padding (_, 1) (by decide)) (h.padding (_, 2) (by decide))

theorem length_message (seed : Bytes 16) (verifierInput : Bytes 32) :
    (NymMessages.message ⟨[], seed, verifierInput⟩).length = 119 := by
  simp [NymMessages.message, seed.property, verifierInput.property, dst]

theorem pad_message (seed : Bytes 16) (verifierInput : Bytes 32) :
    pad (NymMessages.message ⟨[], seed, verifierInput⟩) =
      (dst.take 16 ++ ((dst.drop 16).take 16 ++
        ((dst.drop 32 ++ seed.val.take 9) ++ (seed.val.drop 9 ++ List.replicate 9 0)))) ++
      (List.replicate 16 0 ++ ((List.replicate 7 0 ++ verifierInput.val.take 9) ++
        ((verifierInput.val.drop 9).take 16 ++ (verifierInput.val.drop 25 ++ lastBytes)))) := by
  have hsuffix : [(0x80 : UInt8)] ++ (List.replicate ((119 - 119 % 64) % 64) 0 ++ Sha256.be64 (8 * 119)) = lastBytes := by
    decide
  have hdst : dst = dst.take 16 ++ ((dst.drop 16).take 16 ++ dst.drop 32) := by decide
  have hzeros : List.replicate 32 (0 : UInt8) = List.replicate 9 0 ++ (List.replicate 16 0 ++ List.replicate 7 0) := rfl
  have hseed := List.take_append_drop 9 seed.val
  have hinput : verifierInput.val = verifierInput.val.take 9 ++
      ((verifierInput.val.drop 9).take 16 ++ verifierInput.val.drop 25) := by
    have hdrop : (verifierInput.val.drop 9).drop 16 = verifierInput.val.drop 25 := List.drop_drop
    rw [← hdrop, List.take_append_drop, List.take_append_drop]
  calc pad (NymMessages.message ⟨[], seed, verifierInput⟩)
      = dst ++ (seed.val ++ (List.replicate 32 0 ++ (verifierInput.val ++ lastBytes))) := by
        rw [pad_eq, Sha256.pad, length_message, ← hsuffix, NymMessages.message]
        simp only [List.append_assoc]
    _ = _ := by
        rw [hzeros]
        nth_rewrite 1 [hdst, ← hseed, hinput]
        simp only [List.append_assoc]

/-- The pseudonym's positions hold its padded message, when the slots are the named verifier_input's. -/
theorem Cells.HoldsSeed.block_nym {seed : Bytes 16} (h : cells.HoldsSeed regions seed) {verifierInput : Bytes 32}
    {p q : F} (hfacts : cells.nymFacts regions = [fromBe (verifierInput.val.take 9),
      fromBe ((verifierInput.val.drop 9).take 16), fromBe (verifierInput.val.drop 25) * two72 + lastChunkPadding, p, q]) :
    cells.block regions.nym.first ++ cells.block (regions.nym.first + 1) =
      pad (NymMessages.message ⟨[], seed, verifierInput⟩) := by
  simp only [Cells.nymFacts, List.cons.injEq] at hfacts
  obtain ⟨hhigh, hmiddle, hlow, -⟩ := hfacts
  rw [pad_message]
  refine congrArg₂ (· ++ ·) ?_ ?_
  · exact Cells.block_eq (by decide) (by decide) (length_high seed) (length_low seed) h.dst0 h.dst1 h.high h.low
  · refine Cells.block_eq (by decide) (length_inputHigh verifierInput) (length_inputMiddle verifierInput)
      (length_inputLow verifierInput) ?_ ?_ hmiddle ?_
    · rw [h.zero, fromBe, bytesNat_replicate_zero, Nat.cast_zero]
    · rw [hhigh, fromBe_zeros]
    · rw [hlow, fromBe_lastBytes]

theorem chunks_pad_seed (seed : Bytes 16) : chunks 64 (pad seed.val) = [pad seed.val] := by
  have hlen : (pad seed.val).length = 64 := by
    rw [length_pad, seed.property]
    rfl
  rw [chunks_of_ne_nil (by decide) (List.ne_nil_of_length_pos (by omega)), List.take_of_length_le hlen.le,
    List.drop_eq_nil_of_le hlen.le, chunks_nil (by decide)]

theorem chunks_two {a b : List UInt8} (ha : a.length = 64) (hb : b.length = 64) : chunks 64 (a ++ b) = [a, b] := by
  have hne : b ≠ [] := List.ne_nil_of_length_pos (by omega)
  rw [chunks_of_ne_nil (by decide) (by simp [hne]), List.take_left' ha, List.drop_left' ha,
    chunks_of_ne_nil (by decide) hne, List.take_of_length_le hb.le, List.drop_eq_nil_of_le hb.le, chunks_nil (by decide)]

theorem Cells.HoldsSeed.digest (hcells : ∀ j < positions, cells.Compresses fullMdoc j) {seed : Bytes 16}
    (h : cells.HoldsSeed fullRegions seed) : ∀ i < 2,
      Message.stateValue cells fullRegions.seed.first i = fromBe (halfOf (Sha256.hash seed.val) i) := by
  have hdigest : (cells.chain fullMdoc fullRegions.seed 0).bytes = Sha256.hash seed.val := by
    refine Cells.chain_eq_hash (by decide) ?_
    rw [chunks_pad_seed, ← h.block_seed]
    rfl
  have hregion : fullRegions.seed ∈ fullMdoc.regions := by decide
  have hblocks : 0 < fullRegions.seed.blocks := by decide
  rw [← hdigest]
  exact Cells.stateValue_eq_chain Table.wellFormed_fullMdoc hcells hregion hblocks

/-- The state after the pseudonym's second position is the pseudonym. -/
theorem Cells.nym_digest (hcells : ∀ j < positions, cells.Compresses fullMdoc j) {seed : Bytes 16}
    {verifierInput : Bytes 32} (h : cells.block fullRegions.nym.first ++ cells.block (fullRegions.nym.first + 1) =
      pad (NymMessages.message ⟨[], seed, verifierInput⟩)) : ∀ i < 2,
      Message.stateValue cells (fullRegions.nym.first + 1) i = fromBe (halfOf (pseudonym seed verifierInput) i) := by
  have hdigest : (cells.chain fullMdoc fullRegions.nym 1).bytes = pseudonym seed verifierInput := by
    refine Cells.chain_eq_hash (by decide) ?_
    rw [← h, chunks_two (cells.length_block _) (cells.length_block _)]
    rfl
  have hregion : fullRegions.nym ∈ fullMdoc.regions := by decide
  have hblocks : 1 < fullRegions.nym.blocks := by decide
  rw [← hdigest]
  exact Cells.stateValue_eq_chain Table.wellFormed_fullMdoc hcells hregion hblocks

end Rules

/-- Whoever filled the table: when its steps and the pseudonym's rules hold, one seed is at the seed's position. It
opens the commitment, the pseudonym's positions hold its message for the named verifier_input, and the
published pseudonym is the message's digest. -/
theorem pseudonym_sound (gadget : CompressionGadget Scalar) (cells : Cells Scalar Scalar)
    (hsteps : cells.StepsHold gadget fullMdoc) (ssc : Lc Scalar Scalar × Lc Scalar Scalar) (sscBytes : Bytes 32)
    (hssc : ssc.1.lc.eval = fromBe (halfOf sscBytes.val 0) ∧ ssc.2.lc.eval = fromBe (halfOf sscBytes.val 1))
    (slots : List (AllocatedNum Scalar Scalar)) (hslots : (commitmentAndSlots cells fullRegions ssc).Runs [] slots)
    (nym : Option NymPublic) (published : List Scalar)
    (hcheck : (checkPseudonym slots nym).Runs published ())
    (verifierInput : Bytes 32) (hnamed : published.take 3 = NymPublic.verifierValues verifierInput) :
    ∃! seed : Bytes 16, cells.block fullRegions.seed.first = pad seed.val ∧ Sha256.hash seed.val = sscBytes.val ∧
      cells.block fullRegions.nym.first ++ cells.block (fullRegions.nym.first + 1) =
        pad (NymMessages.message ⟨[], seed, verifierInput⟩) ∧
      ∀ before, pseudonymOf (before ++ published) = some (pseudonym seed verifierInput) := by
  have hcells := hsteps.compresses
  obtain ⟨-, ⟨seed, hseed⟩, hcommits⟩ := ensures_commitmentAndSlots (Cells.inChunk hcells (by decide))
    (Cells.inChunk hcells (by decide)) _ _ hslots
  obtain ⟨high, middle, low, p, q, rfl, hvalues⟩ := runs_checkPseudonym.mp hcheck
  obtain ⟨rfl, rfl, rfl⟩ : high = _ ∧ middle = _ ∧ low = _ := by
    simpa [NymPublic.verifierValues] using hnamed
  have hfacts := hcommits.slots.symm.trans hvalues
  have hnym := hseed.block_nym hfacts
  refine ⟨seed, ⟨hseed.block_seed, ?_, hnym, fun before => ?_⟩, fun other hother => ?_⟩
  · rw [← stateBytes_halfOf (F := Scalar) (Sha256.length_hash seed.val),
      ← stateBytes_halfOf (F := Scalar) sscBytes.property]
    refine stateBytes_congr fun i hi => ?_
    rw [← hseed.digest hcells i hi]
    rcases (by omega : i = 0 ∨ i = 1) with rfl | rfl
    · exact hcommits.high.trans hssc.1
    · exact hcommits.low.trans hssc.2
  · have hstate := Cells.nym_digest hcells hnym
    have hlen : (pseudonym seed verifierInput).length = 32 := Sha256.length_hash _
    have hlow : halfOf (pseudonym seed verifierInput) 1 = (pseudonym seed verifierInput).drop 16 :=
      List.take_of_length_le (by rw [List.length_drop, hlen]; decide)
    have hread := pseudonymOf_values before ⟨verifierInput, ⟨pseudonym seed verifierInput, hlen⟩⟩
    simp only [Cells.nymFacts, List.cons.injEq] at hfacts
    obtain ⟨-, -, -, rfl, rfl, -⟩ := hfacts
    rw [NymPublic.values, ← hlow] at hread
    rw [hstate 0 (by decide), hstate 1 (by decide)]
    exact hread
  · have hpad : pad other.val = pad seed.val := hother.1.symm.trans hseed.block_seed
    rw [pad_seed, pad_seed] at hpad
    exact Subtype.ext (List.append_inj hpad (other.property.trans seed.property.symm)).1

/-! ## The honest table -/

section Honest

variable {seed : Bytes 16} {verifierInput : Bytes 32}

theorem Table.chunkOf_block {t : Table} {j : ℕ} {a b c d : List UInt8} (ha : a.length = 16) (hb : b.length = 16)
    (hc : c.length = 16) (hd : d.length = 16) (hblock : t.blocks[j]? = some (a ++ (b ++ (c ++ d)))) :
    t.chunkOf (chunksPerBlock * j + 0) = a ∧ t.chunkOf (chunksPerBlock * j + 1) = b ∧
      t.chunkOf (chunksPerBlock * j + 2) = c ∧ t.chunkOf (chunksPerBlock * j + 3) = d := by
  have hchunk : ∀ i < 4, t.chunkOf (chunksPerBlock * j + i) = ((a ++ (b ++ (c ++ d))).drop (16 * i)).take 16 := by
    intro i hi
    have hdiv : (chunksPerBlock * j + i) / chunksPerBlock = j := by
      unfold chunksPerBlock
      omega
    have hmod : (chunksPerBlock * j + i) % chunksPerBlock = i := by
      unfold chunksPerBlock
      omega
    rw [Table.chunkOf, hdiv, hmod, List.getD_eq_getElem?_getD, hblock]
    rfl
  refine ⟨?_, ?_, ?_, ?_⟩
  · rw [hchunk 0 (by decide)]
    exact List.take_left' ha
  · rw [hchunk 1 (by decide), List.drop_left' ha, List.take_left' hb]
  · rw [hchunk 2 (by decide), ← List.append_assoc, List.drop_left' (by simp [ha, hb]), List.take_left' hc]
  · rw [hchunk 3 (by decide), ← List.append_assoc, ← List.append_assoc, List.drop_left' (by simp [ha, hb, hc]),
      List.take_of_length_le hd.le]

def nymMessages (seed : Bytes 16) (verifierInput : Bytes 32) : List (Region × List UInt8) :=
  [(fullRegions.seed, seed.val), (fullRegions.nym, NymMessages.message ⟨[], seed, verifierInput⟩)]

theorem nymMessages_nodup : ((nymMessages seed verifierInput).map Prod.fst).Nodup := by
  show [fullRegions.seed, fullRegions.nym].Nodup
  decide

theorem nymMessages_mem : ∀ t ∈ nymMessages seed verifierInput, t.1 ∈ fullMdoc.ivRegions := by
  have hregions : ∀ r ∈ [fullRegions.seed, fullRegions.nym], r ∈ fullMdoc.ivRegions := by decide
  exact fun t ht => hregions t.1 (List.mem_map_of_mem (f := Prod.fst) ht)

theorem nymMessages_fit : ∀ t ∈ Table.padded fullMdoc [] 0 (nymMessages seed verifierInput), Fits t := by
  intro t ht
  rcases List.mem_cons.mp ht with rfl | ht
  · exact (Table.length_kept (Nat.zero_le _)).le.trans (by decide)
  rcases List.mem_cons.mp ht with rfl | ht
  · show (pad seed.val).length ≤ 64 * 1
    rw [length_pad, seed.property]
    decide
  · obtain rfl := List.mem_singleton.mp ht
    show (pad (NymMessages.message ⟨[], seed, verifierInput⟩)).length ≤ 64 * 2
    rw [length_pad, length_message]
    decide

theorem exists_table_pseudonym (seed : Bytes 16) (verifierInput : Bytes 32) : ∃ table,
    Table.withMessages fullMdoc [] 0 (nymMessages seed verifierInput) = .ok table ∧
      table.blocks[fullRegions.seed.first]? = some (pad seed.val) ∧
      ∀ a b, a.length = 64 → b.length = 64 → pad (NymMessages.message ⟨[], seed, verifierInput⟩) = a ++ b →
        table.blocks[fullRegions.nym.first]? = some a ∧ table.blocks[fullRegions.nym.first + 1]? = some b := by
  obtain ⟨table, htable, -, hplaced, -⟩ := Table.withMessages_of_fits Table.wellFormed_fullMdoc nymMessages_nodup
    nymMessages_mem (@nymMessages_fit seed verifierInput)
  refine ⟨table, htable, ?_, fun a b ha hb hpad => ?_⟩
  · have hmem : (fullRegions.seed, pad seed.val) ∈ Table.padded fullMdoc [] 0 (nymMessages seed verifierInput) :=
      List.mem_cons_of_mem _ List.mem_cons_self
    have hget := hplaced _ hmem
    rw [chunks_pad_seed] at hget
    exact hget 0 Nat.one_pos
  · have hmem : (fullRegions.nym, pad (NymMessages.message ⟨[], seed, verifierInput⟩)) ∈
        Table.padded fullMdoc [] 0 (nymMessages seed verifierInput) :=
      List.mem_cons_of_mem _ (List.mem_cons_of_mem _ List.mem_cons_self)
    have hget := hplaced _ hmem
    rw [hpad, chunks_two ha hb] at hget
    exact ⟨hget 0 Nat.two_pos, hget 1 Nat.one_lt_two⟩

/-- The cells of a table with a seed's and its pseudonym's blocks hold the seed and the values of the verifier_input. -/
theorem Cells.Carries.holdsSeed {who : Circuit.Prover} {cells : Cells Scalar Scalar} {table : Table}
    (hcarries : cells.Carries who table) (hsized : table.Sized)
    (hseedBlock : table.blocks[fullRegions.seed.first]? = some (pad seed.val))
    (hnymBlocks : ∀ a b, a.length = 64 → b.length = 64 → pad (NymMessages.message ⟨[], seed, verifierInput⟩) = a ++ b →
      table.blocks[fullRegions.nym.first]? = some a ∧ table.blocks[fullRegions.nym.first + 1]? = some b) :
    cells.HoldsSeed fullRegions seed ∧ cells.nymFacts fullRegions = [fromBe (verifierInput.val.take 9),
      fromBe ((verifierInput.val.drop 9).take 16), fromBe (verifierInput.val.drop 25) * two72 + lastChunkPadding,
      Message.stateValue cells (fullRegions.nym.first + 1) 0, Message.stateValue cells (fullRegions.nym.first + 1) 1] := by
  have hseedLen := seed.property
  have hinputLen := verifierInput.property
  have heval := fun c (hc : c < chunksPerBlock * positions) => hcarries.eval_chunk hsized hc
  obtain ⟨hnym, hnym'⟩ := hnymBlocks _ _ (by simp [hseedLen, dst]) (by simp [hinputLen, lastBytes])
    (pad_message seed verifierInput)
  rw [pad_seed] at hseedBlock
  obtain ⟨hs0, hs1, hs2, hs3⟩ := Table.chunkOf_block hseedLen (by decide) (by decide) (by decide) hseedBlock
  obtain ⟨hn0, hn1, hn2, hn3⟩ := Table.chunkOf_block (by decide) (by decide) (length_high seed) (length_low seed) hnym
  obtain ⟨hm0, hm1, hm2, hm3⟩ := Table.chunkOf_block (by decide) (length_inputHigh verifierInput)
    (length_inputMiddle verifierInput) (length_inputLow verifierInput) hnym'
  constructor
  · refine ⟨?_, ?_, ?_, ?_, ?_, ?_, ?_⟩
    · rw [heval _ (by decide), hs0]
    · intro t ht
      fin_cases ht
      · rw [heval _ (by decide), hs1]
      · rw [heval _ (by decide), hs2]
      · rw [heval _ (by decide), hs3]
    · rw [heval _ (by decide), hn0]
    · rw [heval _ (by decide), hn1]
    · rw [heval _ (by decide), hn2]
    · rw [heval _ (by decide), hn3]
    · rw [heval _ (by decide), hm0, fromBe, bytesNat_replicate_zero, Nat.cast_zero]
  · rw [Cells.nymFacts, heval _ (by decide), heval _ (by decide), heval _ (by decide), hm1, hm2, hm3, fromBe_zeros,
      fromBe_lastBytes]

/-- Over the cells of a seed's table the steps hold, the cells hold the seed, and the facts are the values of the
verifier_input and of the pseudonym. -/
theorem exists_cells_pseudonym (gadget : CompressionGadget Scalar) (seed : Bytes 16) (verifierInput : Bytes 32) :
    ∃ cells : Cells Scalar Scalar, cells.StepsHold gadget fullMdoc ∧ cells.HoldsSeed fullRegions seed ∧
      cells.nymFacts fullRegions = [fromBe (verifierInput.val.take 9), fromBe ((verifierInput.val.drop 9).take 16),
        fromBe (verifierInput.val.drop 25) * two72 + lastChunkPadding,
        fromBe (halfOf (pseudonym seed verifierInput) 0), fromBe (halfOf (pseudonym seed verifierInput) 1)] := by
  obtain ⟨table, htable, hseedBlock, hnymBlocks⟩ := exists_table_pseudonym seed verifierInput
  obtain ⟨cells, hcarries, hsteps⟩ := Table.exists_cells gadget (Nat.zero_le _) htable
  obtain ⟨hholds, hfacts⟩ :=
    hcarries.holdsSeed (Table.withMessages_sized (Nat.zero_le _) htable) hseedBlock hnymBlocks
  have hstate := Cells.nym_digest hsteps.compresses (hholds.block_nym hfacts)
  refine ⟨cells, hsteps, hholds, ?_⟩
  rw [hfacts, hstate 0 (by decide), hstate 1 (by decide)]

end Honest

def sevens : Bytes 16 := ⟨List.replicate 16 7, List.length_replicate⟩

def nines : Bytes 32 := ⟨List.replicate 32 9, List.length_replicate⟩

/-- The commitment to the seed, and its halves. -/
def sevensDigest : Bytes 32 := ⟨Sha256.hash sevens.val, Sha256.length_hash sevens.val⟩

def sevensSsc : Lc Scalar Scalar × Lc Scalar Scalar :=
  (Lc.constant (fromBe (halfOf sevensDigest.val 0)), Lc.constant (fromBe (halfOf sevensDigest.val 1)))

/-- A table with the pseudonym of one seed for one verifier. -/
theorem pseudonym_sound_sevens : ∃ (cells : Cells Scalar Scalar) (published : List Scalar),
    cells.StepsHold readingGadget fullMdoc ∧ ∃! seed : Bytes 16,
      cells.block fullRegions.seed.first = pad seed.val ∧ Sha256.hash seed.val = sevensDigest.val ∧
      cells.block fullRegions.nym.first ++ cells.block (fullRegions.nym.first + 1) =
        pad (NymMessages.message ⟨[], seed, nines⟩) ∧
      ∀ before, pseudonymOf (before ++ published) = some (pseudonym seed nines) := by
  obtain ⟨cells, hsteps, hholds, hfacts⟩ := exists_cells_pseudonym readingGadget sevens nines
  have hdigest : ∀ i < 2, Message.stateValue cells fullRegions.seed.first i = fromBe (halfOf sevensDigest.val i) :=
    hholds.digest hsteps.compresses
  have hhigh : sevensSsc.1.lc.eval = fromBe (halfOf sevensDigest.val 0) := Lc.eval_constant _
  have hlow : sevensSsc.2.lc.eval = fromBe (halfOf sevensDigest.val 1) := Lc.eval_constant _
  have hadmits : (commitmentAndSlots cells fullRegions sevensSsc).Admits (cells.Commits fullRegions sevensSsc) :=
    admits_commitmentAndSlots (by decide) (by decide) hholds ((hdigest 0 (by decide)).trans hhigh.symm)
      ((hdigest 1 (by decide)).trans hlow.symm)
  obtain ⟨slots, hrun, hcommits⟩ := hadmits
  have hcheck : (checkPseudonym slots none).Runs _ () :=
    runs_checkPseudonym.mpr ⟨_, _, _, _, _, rfl, hcommits.slots.trans hfacts⟩
  exact ⟨cells, _, hsteps, pseudonym_sound readingGadget cells hsteps sevensSsc sevensDigest ⟨hhigh, hlow⟩ slots hrun
    none _ hcheck nines rfl⟩

end ZkCredVega.Nym
