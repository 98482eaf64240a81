import ZkCredVega.Sha256Var

/-!
# The digestID of a claim

`cbor_uint.rs` and `digest_id_extract.rs`: the four length classes of a CBOR unsigned
integer, and the gadget that reads the digestID out of a claim's own bytes. A one-hot
selects the class; the bytes of the window that the class covers are constrained to the
encoding of the witnessed value.
-/

namespace ZkCredVega

open Circuits

def maxCborUintBytes : ℕ := 5

def maxDigestId : ℕ := 2 ^ 31 - 1

/-- The length class of a value: 1, 2, 3 or 5 bytes. -/
def lengthClass (value : ℕ) : ℕ :=
  if value < 24 then 0
  else if value < 256 then 1
  else if value < 65536 then 2
  else 3

def classByteWidth (c : ℕ) : ℕ := [1, 2, 3, maxCborUintBytes].getD c 0

/-- The argument of `n` bytes that follows a marker. -/
def decodeArgument (rest : List UInt8) (n : ℕ) : Option (ℕ × ℕ) :=
  if n ≤ rest.length then some (bytesNat (rest.take n), n + 1) else none

/-- The unsigned integer at the start of `bytes`, and its width. -/
def decodeCborUint : List UInt8 → Option (ℕ × ℕ)
  | [] => none
  | marker :: rest =>
    if marker < 0x18 then some (marker.toNat, 1)
    else if marker = 0x18 then decodeArgument rest 1
    else if marker = 0x19 then decodeArgument rest 2
    else if marker = 0x1a then decodeArgument rest 4
    else none

/-- `2 + 2 + 1 + 7 + 34 + 9`. -/
def digestIdOffsetBytes : ℕ := 55

/-- The marker byte of each class; class 0 has none. -/
def classMarkers : List UInt8 := [0, 0x18, 0x19, 0x1a]

def byteActiveInClass (byteIdx c : ℕ) : Bool := byteIdx < classByteWidth c

/-- The position in the value's four bytes of a value byte of the window, aligned to the right. -/
def valueByteOutPos (c byteIdx : ℕ) : Option ℕ :=
  if byteIdx ≥ classByteWidth c then none
  else
    let indices := if c = 0 then [0] else List.range' 1 (classByteWidth c - 1)
    (indices.idxOf? byteIdx).map (4 - indices.length + ·)

structure ExtractedDigestId (V : Type) where
  valueBits : List (Boolean V)
  encodedBits : List (Boolean V)

section Circuit

variable {F V : Type} [Field F] [One V]

/-- What class `c` expects of a bit of the window, where it covers the byte. -/
def expectedTerm (classSelector valueBits : List (Boolean V)) (byteIdx bitIdx c : ℕ) :
    Circuit F V (Boolean V) :=
  if byteIdx = 0 ∧ c ≠ 0 then
    if (classMarkers.getD c 0).toNat.testBit (7 - bitIdx) then pure (Boolean.nth classSelector c)
    else pure (.constant false)
  else
    match valueByteOutPos c byteIdx with
    | some outPos =>
      Boolean.and (Boolean.nth classSelector c) (Boolean.nth valueBits (outPos * 8 + bitIdx))
    | none => .fail .panic

/-- One class's turn: a class that covers the byte adds its term. -/
def expectedStep (classSelector valueBits : List (Boolean V)) (byteIdx bitIdx : ℕ)
    (acc : Option (Boolean V)) (c : ℕ) : Circuit F V (Option (Boolean V)) :=
  if byteActiveInClass byteIdx c then do
    let term ← expectedTerm classSelector valueBits byteIdx bitIdx c
    match acc with
    | none => pure (some term)
    | some prev => some <$> Boolean.or prev term
  else pure acc

def expectedBit (classSelector valueBits : List (Boolean V)) (byteIdx bitIdx : ℕ) :
    Circuit F V (Boolean V) := do
  let acc ← (List.range 4).foldlM (expectedStep classSelector valueBits byteIdx bitIdx) none
  pure (acc.getD (.constant false))

/-- Enforces a bit of the window where its byte is active, and masks it. -/
def encodedBit (classSelector active valueBits window : List (Boolean V)) (byteIdx bitIdx : ℕ) :
    Circuit F V (Boolean V) := do
  let expected ← expectedBit classSelector valueBits byteIdx bitIdx
  let windowBit := Boolean.nth window (byteIdx * 8 + bitIdx)
  .require (windowBit.lc 1 - expected.lc 1) ((Boolean.nth active byteIdx).lc 1) 0
  Boolean.and windowBit (Boolean.nth active byteIdx)

def uncovered (c : ℕ) : List ℕ :=
  (List.range 4).filter fun outPos =>
    ¬((List.range maxCborUintBytes).filterMap (valueByteOutPos c)).contains outPos

/-- `class_selector[c]` forces a bit to zero. -/
def forceZero (selector bit : Boolean V) : Circuit F V Unit := .require (bit.lc 1) (selector.lc 1) 0

def zeroUncovered (classSelector valueBits : List (Boolean V)) : Circuit F V Unit :=
  forM (List.range 4) fun c => forM (uncovered c) fun outPos => forM (List.range 8) fun bitIdx =>
    forceZero (Boolean.nth classSelector c) (Boolean.nth valueBits (outPos * 8 + bitIdx))

def tooBig (window : List (Boolean V)) : Circuit F V (Boolean V) := do
  let bit128Or64 ← Boolean.or (Boolean.nth window 0) (Boolean.nth window 1)
  let top3Nonzero ← Boolean.or bit128Or64 (Boolean.nth window 2)
  let bit16And8 ← Boolean.and (Boolean.nth window 3) (Boolean.nth window 4)
  Boolean.or top3Nonzero bit16And8

/-- Class 0 has values below 24 only. -/
def checkClassZero (classSelector window : List (Boolean V)) : Circuit F V Unit := do
  let big ← tooBig window
  forceZero (Boolean.nth classSelector 0) big

def extractDigestId (itemBits : List (Boolean V)) (offsetBytes digestId : ℕ) :
    Circuit F V (ExtractedDigestId V) := do
  .assert ((offsetBytes + maxCborUintBytes) * 8 ≤ itemBits.length)
  .assert (digestId ≤ maxDigestId)
  let window := (itemBits.drop (8 * offsetBytes)).take (8 * maxCborUintBytes)
  let realClass := lengthClass digestId
  let classSelector ← oneHotSelector 4 realClass
  let active ← (List.range maxCborUintBytes).mapM fun byteIdx =>
    selectorBit (byteActiveInClass byteIdx) classSelector (byteActiveInClass byteIdx realClass)
  let valueBits ← (List.range 32).mapM fun i => Boolean.alloc (some (digestId.testBit (31 - i)))
  let encoded ← (List.range maxCborUintBytes).mapM fun byteIdx =>
    (List.range 8).mapM fun bitIdx =>
      encodedBit classSelector active valueBits window byteIdx bitIdx
  zeroUncovered classSelector valueBits
  checkClassZero classSelector window
  forceZero (Boolean.nth classSelector 3) (Boolean.nth window 8)
  pure ⟨valueBits, encoded.flatten⟩

end Circuit

/-! ## What the gadget reads -/

/-- The byte that class `c` expects at a position it covers, for the value's four bytes. -/
def expectedByte (c : ℕ) (value : List UInt8) (byteIdx : ℕ) : UInt8 :=
  if byteIdx = 0 ∧ c ≠ 0 then classMarkers.getD c 0
  else value.getD ((valueByteOutPos c byteIdx).getD 0) 0

section Reading

variable {F : Type} [Field F] {who : Circuit.Prover} {sel valueBits : List (Boolean F)} {j : ℕ}
  {value : List UInt8} {byteIdx bitIdx c : ℕ}

theorem valueByteOutPos_eq_some : ∀ c < 4, ∀ i < classByteWidth c, ¬(i = 0 ∧ c ≠ 0) →
    ∃ p < 4, valueByteOutPos c i = some p := by
  decide

theorem yields_expectedTerm (hsel : Boolean.HoldsAll who sel (oneHot 4 j))
    (hvalue : Boolean.HoldsAll who valueBits (bytesBits value)) (hc : c < 4) (hbit : bitIdx < 8)
    (hactive : byteIdx < classByteWidth c) :
    (expectedTerm sel valueBits byteIdx bitIdx c).Yields who
      (·.Holds who (c == j && (expectedByte c value byteIdx).toNat.testBit (7 - bitIdx))) := by
  have hselect := hsel.nth c
  have hone : (oneHot 4 j).getD c false = (c == j) := by simp [oneHot, hc]
  rw [hone] at hselect
  unfold expectedTerm expectedByte
  by_cases h0 : byteIdx = 0 ∧ c ≠ 0
  · rw [if_pos h0, if_pos h0]
    by_cases hmarker : (classMarkers.getD c 0).toNat.testBit (7 - bitIdx) = true
    · rw [if_pos hmarker, hmarker, Bool.and_true]
      exact Circuit.yields_pure hselect
    · rw [if_neg hmarker, Bool.eq_false_iff.mpr hmarker, Bool.and_false]
      exact Circuit.yields_pure Boolean.holds_constant
  · obtain ⟨p, -, hp⟩ := valueByteOutPos_eq_some c hc byteIdx hactive h0
    rw [if_neg h0, if_neg h0]
    simp only [hp, Option.getD_some]
    have hvbit := hvalue.nth (p * 8 + bitIdx)
    rw [Nat.mul_comm, getD_bytesBits value p hbit] at hvbit
    rw [Nat.mul_comm]
    exact Boolean.yields_and hselect hvbit

def expectedUpTo (j : ℕ) (value : List UInt8) (byteIdx bitIdx k : ℕ) : Bool :=
  (List.range k).any fun c => byteActiveInClass byteIdx c &&
    (c == j && (expectedByte c value byteIdx).toNat.testBit (7 - bitIdx))

theorem expectedUpTo_succ (k : ℕ) : expectedUpTo j value byteIdx bitIdx (k + 1) =
    (expectedUpTo j value byteIdx bitIdx k || (byteActiveInClass byteIdx k &&
      (k == j && (expectedByte k value byteIdx).toNat.testBit (7 - bitIdx)))) := by
  simp [expectedUpTo, List.range_succ]

theorem expectedUpTo_four (hj : j < 4) : expectedUpTo j value byteIdx bitIdx 4 =
    (byteActiveInClass byteIdx j && (expectedByte j value byteIdx).toNat.testBit (7 - bitIdx)) := by
  have h : j = 0 ∨ j = 1 ∨ j = 2 ∨ j = 3 := by omega
  rcases h with rfl | rfl | rfl | rfl <;> simp [expectedUpTo, List.range_succ]

theorem yields_expectedBit (byteIdx : ℕ) (hsel : Boolean.HoldsAll who sel (oneHot 4 j))
    (hvalue : Boolean.HoldsAll who valueBits (bytesBits value)) (hj : j < 4) (hbit : bitIdx < 8) :
    (expectedBit sel valueBits byteIdx bitIdx).Yields who (·.Holds who (byteActiveInClass byteIdx j &&
      (expectedByte j value byteIdx).toNat.testBit (7 - bitIdx))) := by
  -- the disjunction so far; before any class covers the byte there is no term
  have hfold : ((List.range 4).foldlM (expectedStep sel valueBits byteIdx bitIdx) none).Yields who
      fun acc => (acc.getD (.constant false)).Holds who
        (expectedUpTo j value byteIdx bitIdx (List.range 4).length) := by
    refine Circuit.Yields.foldlM (fun k (acc : Option (Boolean F)) => (acc.getD (.constant false)).Holds who
      (expectedUpTo j value byteIdx bitIdx k)) Boolean.holds_constant ?_
    intro k hk acc hacc
    have hk4 : k < 4 := by simpa using hk
    rw [List.getElem_range, expectedUpTo_succ]
    unfold expectedStep
    by_cases hactive : byteActiveInClass byteIdx k = true
    · rw [if_pos hactive, hactive, Bool.true_and]
      have hterm := yields_expectedTerm hsel hvalue hk4 hbit (of_decide_eq_true hactive)
      refine hterm.bind fun term ht => ?_
      cases acc with
      | none =>
        have hconstant : (Boolean.constant false : Boolean F).Holds who false := Boolean.holds_constant
        have hfalse : expectedUpTo j value byteIdx bitIdx k = false := hacc.reads.unique hconstant.reads
        rw [hfalse, Bool.false_or]
        exact Circuit.yields_pure ht
      | some prev => exact Circuit.Yields.map (Boolean.yields_or hacc ht)
    · rw [if_neg hactive, Bool.eq_false_iff.mpr hactive, Bool.false_and, Bool.or_false]
      exact Circuit.yields_pure hacc
  rw [List.length_range, expectedUpTo_four hj] at hfold
  unfold expectedBit
  exact hfold.bind fun acc hacc => Circuit.yields_pure hacc

end Reading

/-! ## Soundness and completeness -/

section Sound

variable {F : Type} [Field F] {who : Circuit.Prover} {sel active valueBits windowBits : List (Boolean F)}
  {j : ℕ} {value window : List UInt8} {byteIdx bitIdx c : ℕ}

theorem masked_eq_iff {w e a : Boolean F} {x y z : Bool} (hw : w.Reads x) (he : e.Reads (z && y))
    (ha : a.Reads z) :
    (w.lc (1 : F) - e.lc 1).eval * (a.lc (1 : F)).eval = (0 : LC F F).eval ↔ (z = true → x = y) := by
  rw [LC.eval_sub, Boolean.eval_lc, Boolean.eval_lc, Boolean.eval_lc, one_mul, one_mul, one_mul, hw, he, ha,
    LC.eval_zero]
  cases x <;> cases y <;> cases z <;> simp [ofBool]

theorem forced_eq_iff {b a : Boolean F} {x z : Bool} (hb : b.Reads x) (ha : a.Reads z) :
    (b.lc (1 : F)).eval * (a.lc (1 : F)).eval = (0 : LC F F).eval ↔ (z = true → x = false) := by
  rw [Boolean.eval_lc, Boolean.eval_lc, one_mul, one_mul, hb, ha, LC.eval_zero]
  cases x <;> cases z <;> simp [ofBool]

theorem holds_window (who : Circuit.Prover) (byteIdx : ℕ) (hwindow : Boolean.HoldsAll who windowBits (bytesBits window))
    (hbit : bitIdx < 8) :
    (Boolean.nth windowBits (byteIdx * 8 + bitIdx)).Holds who
      ((window.getD byteIdx 0).toNat.testBit (7 - bitIdx)) := by
  have h := hwindow.nth (byteIdx * 8 + bitIdx)
  rwa [Nat.mul_comm, getD_bytesBits window byteIdx hbit, Nat.mul_comm] at h

theorem holds_selector (who : Circuit.Prover) (hsel : Boolean.HoldsAll who sel (oneHot 4 j)) (hc : c < 4) :
    (Boolean.nth sel c).Holds who (c == j) := by
  have h := hsel.nth c
  have hone : (oneHot 4 j).getD c false = (c == j) := by simp [oneHot, hc]
  rwa [hone] at h

/-- What the active bits are worth when class `j` is selected. -/
def activeBools (j : ℕ) : List Bool := (List.range maxCborUintBytes).map fun i => byteActiveInClass i j

theorem holds_active (who : Circuit.Prover) (hactive : Boolean.HoldsAll who active (activeBools j))
    (hbyte : byteIdx < maxCborUintBytes) :
    (Boolean.nth active byteIdx).Holds who (byteActiveInClass byteIdx j) := by
  have h := hactive.nth byteIdx
  have hget : (activeBools j).getD byteIdx false = byteActiveInClass byteIdx j := by
    simp [activeBools, hbyte]
  rwa [hget] at h

/-- A bit agrees with what the selected class expects, where its byte is covered. -/
def Agrees (j : ℕ) (value window : List UInt8) (byteIdx bitIdx : ℕ) : Prop :=
  byteActiveInClass byteIdx j = true → (window.getD byteIdx 0).toNat.testBit (7 - bitIdx) =
    (expectedByte j value byteIdx).toNat.testBit (7 - bitIdx)

/-- A bit of the window, masked to the bytes of the encoding. -/
def maskedBit (j : ℕ) (window : List UInt8) (byteIdx bitIdx : ℕ) : Bool :=
  (window.getD byteIdx 0).toNat.testBit (7 - bitIdx) && byteActiveInClass byteIdx j

theorem ensures_encodedBit (hsel : Boolean.ReadsAll sel (oneHot 4 j))
    (hvalue : Boolean.ReadsAll valueBits (bytesBits value))
    (hactive : Boolean.ReadsAll active (activeBools j))
    (hwindow : Boolean.ReadsAll windowBits (bytesBits window)) (hj : j < 4)
    (hbyte : byteIdx < maxCborUintBytes) (hbit : bitIdx < 8) :
    (encodedBit sel active valueBits windowBits byteIdx bitIdx).Ensures fun out =>
      Agrees j value window byteIdx bitIdx ∧ out.Reads (maskedBit j window byteIdx bitIdx) := by
  have hexpected : (expectedBit sel valueBits byteIdx bitIdx).Yields .any _ :=
    yields_expectedBit byteIdx hsel hvalue hj hbit
  have hw : (Boolean.nth windowBits (byteIdx * 8 + bitIdx)).Reads _ := holds_window .any byteIdx hwindow hbit
  have ha : (Boolean.nth active byteIdx).Reads _ := holds_active .any hactive hbyte
  unfold encodedBit
  refine hexpected.ensures.bind fun e he => .require_bind fun h => ?_
  refine (Boolean.computes_and hw ha).1.mono fun _ hout => ⟨?_, hout⟩
  exact (masked_eq_iff hw he ha).mp h

theorem yields_encodedBit (hsel : Boolean.HoldsAll who sel (oneHot 4 j))
    (hvalue : Boolean.HoldsAll who valueBits (bytesBits value))
    (hactive : Boolean.HoldsAll who active (activeBools j))
    (hwindow : Boolean.HoldsAll who windowBits (bytesBits window)) (hj : j < 4)
    (hbyte : byteIdx < maxCborUintBytes) (hbit : bitIdx < 8) (h : Agrees j value window byteIdx bitIdx) :
    (encodedBit sel active valueBits windowBits byteIdx bitIdx).Yields who
      (·.Holds who (maskedBit j window byteIdx bitIdx)) := by
  have hw := holds_window who byteIdx hwindow hbit
  have ha := holds_active who hactive hbyte
  refine (yields_expectedBit byteIdx hsel hvalue hj hbit).bind fun e he => ?_
  refine .require_bind ((masked_eq_iff hw.reads he.reads ha.reads).mpr h) ?_
  exact Boolean.yields_and hw ha

theorem ensures_forceZero {a b : Boolean F} {x z : Bool} (ha : a.Reads z) (hb : b.Reads x) :
    (forceZero a b).Ensures fun _ => z = true → x = false := by
  refine Circuit.ensures_require.mono fun _ h => ?_
  exact (forced_eq_iff hb ha).mp h

theorem yields_forceZero {a b : Boolean F} {x z : Bool} (ha : a.Reads z) (hb : b.Reads x)
    (h : z = true → x = false) : (forceZero a b).Yields who fun _ => True :=
  Circuit.yields_require ((forced_eq_iff hb ha).mpr h)

theorem forall₂_left {α β : Type} {R : α → β → Prop} {xs : List α} {ys : List β}
    (h : List.Forall₂ R xs ys) {x : α} (hx : x ∈ xs) : ∃ y, y ∈ ys ∧ R x y := by
  induction h with
  | nil => cases hx
  | cons hr _ ih =>
    rcases List.mem_cons.mp hx with rfl | hx
    · exact ⟨_, List.mem_cons_self, hr⟩
    · obtain ⟨y, hy, hxy⟩ := ih hx
      exact ⟨y, List.mem_cons_of_mem _ hy, hxy⟩

theorem byte_eq_of_testBit {a b : UInt8}
    (h : ∀ i < 8, a.toNat.testBit (7 - i) = b.toNat.testBit (7 - i)) : a = b := by
  have hbits : bitsOf a = bitsOf b := List.map_congr_left fun i hi => h i (List.mem_range.mp hi)
  apply UInt8.toNat_inj.mp
  rw [← beBits_bitsOf, ← beBits_bitsOf, hbits]

/-- The bytes of the value that the selected class leaves out are zero. -/
theorem ensures_zeroUncovered (hsel : Boolean.ReadsAll sel (oneHot 4 j))
    (hvalue : Boolean.ReadsAll valueBits (bytesBits value)) (hj : j < 4) :
    (zeroUncovered sel valueBits).Ensures fun _ => ∀ p ∈ uncovered j, value.getD p 0 = 0 := by
  have hloop : (zeroUncovered sel valueBits).Ensures fun _ => ∀ c ∈ List.range 4, ∀ p ∈ uncovered c,
      ∀ b ∈ List.range 8, (c == j) = true → (value.getD p 0).toNat.testBit (7 - b) = false := by
    refine .forM fun c hc => .forM fun p _ => .forM fun b hb => ?_
    exact ensures_forceZero (holds_selector .any hsel (List.mem_range.mp hc))
      (holds_window .any p hvalue (List.mem_range.mp hb))
  refine hloop.mono fun _ h p hp => ?_
  apply byte_eq_of_testBit
  intro i hi
  have hzero := h j (List.mem_range.mpr hj) p hp i (List.mem_range.mpr hi) (by simp)
  rw [hzero]
  simp

theorem yields_zeroUncovered (hsel : Boolean.HoldsAll who sel (oneHot 4 j))
    (hvalue : Boolean.HoldsAll who valueBits (bytesBits value)) (h : ∀ p ∈ uncovered j, value.getD p 0 = 0) :
    (zeroUncovered sel valueBits).Yields who fun _ => True := by
  refine .forM fun c hc => .forM fun p hp => .forM fun b hb => ?_
  refine yields_forceZero (holds_selector who hsel (List.mem_range.mp hc)).reads
    (holds_window who p hvalue (List.mem_range.mp hb)).reads fun hcj => ?_
  have hcj : c = j := by simpa using hcj
  subst hcj
  rw [h p hp]
  simp

theorem tooBig_eq_false_iff (b : UInt8) : (((b.toNat.testBit 7 || b.toNat.testBit 6) || b.toNat.testBit 5) ||
    (b.toNat.testBit 4 && b.toNat.testBit 3)) = false ↔ b.toNat < 24 := by
  have h : ∀ n : Fin 256, (((n.val.testBit 7 || n.val.testBit 6) || n.val.testBit 5) ||
      (n.val.testBit 4 && n.val.testBit 3)) = false ↔ n.val < 24 := by
    decide +kernel
  exact h ⟨b.toNat, b.toNat_lt⟩

theorem yields_tooBig (hwindow : Boolean.HoldsAll who windowBits (bytesBits window)) :
    (tooBig windowBits : Circuit F F _).Yields who
      (·.Holds who !decide ((window.getD 0 0).toNat < 24)) := by
  have hw : ∀ i < 8, (Boolean.nth windowBits i).Holds who ((window.getD 0 0).toNat.testBit (7 - i)) := by
    intro i hi
    have h := holds_window who 0 hwindow hi
    rwa [Nat.zero_mul, Nat.zero_add] at h
  refine (Boolean.yields_or (hw 0 (by decide)) (hw 1 (by decide))).bind fun a ha => ?_
  refine (Boolean.yields_or ha (hw 2 (by decide))).bind fun b hb => ?_
  refine (Boolean.yields_and (hw 3 (by decide)) (hw 4 (by decide))).bind fun c hc => ?_
  refine (Boolean.yields_or hb hc).mono fun d hd => ?_
  have heq := tooBig_eq_false_iff (window.getD 0 0)
  by_cases hlt : (window.getD 0 0).toNat < 24
  · rw [decide_eq_true hlt, Bool.not_true, ← heq.mpr hlt]
    exact hd
  · have hne := Bool.eq_true_of_not_eq_false fun h => hlt (heq.mp h)
    rw [decide_eq_false hlt, Bool.not_false, ← hne]
    exact hd

theorem ensures_checkClassZero (hsel : Boolean.ReadsAll sel (oneHot 4 j))
    (hwindow : Boolean.ReadsAll windowBits (bytesBits window)) :
    (checkClassZero sel windowBits).Ensures fun _ => j = 0 → (window.getD 0 0).toNat < 24 := by
  have hbig : (tooBig windowBits : Circuit F F _).Yields .any _ := yields_tooBig hwindow
  refine hbig.ensures.bind fun b hb => ?_
  refine (ensures_forceZero (holds_selector .any hsel (by decide)) hb).mono fun _ h hj => ?_
  subst hj
  simpa using h (by simp)

theorem yields_checkClassZero (hsel : Boolean.HoldsAll who sel (oneHot 4 j))
    (hwindow : Boolean.HoldsAll who windowBits (bytesBits window)) (h : j = 0 → (window.getD 0 0).toNat < 24) :
    (checkClassZero sel windowBits).Yields who fun _ => True := by
  refine (yields_tooBig hwindow).bind fun b hb => ?_
  refine yields_forceZero (holds_selector who hsel (by decide)).reads hb.reads fun h0 => ?_
  have h0 : 0 = j := by simpa using h0
  rw [decide_eq_true (h h0.symm)]
  rfl

/-- What the selected class says of the window and the value. -/
structure Encodes (j : ℕ) (value window : List UInt8) : Prop where
  class_lt : j < 4
  bytes : ∀ i < classByteWidth j, window.getD i 0 = expectedByte j value i
  zero : ∀ p ∈ uncovered j, value.getD p 0 = 0
  small : j = 0 → (window.getD 0 0).toNat < 24

theorem classByteWidth_le (c : ℕ) : classByteWidth c ≤ maxCborUintBytes := by
  unfold classByteWidth maxCborUintBytes
  rcases c with _ | _ | _ | _ | c <;> simp

theorem agrees_iff : (∀ i < maxCborUintBytes, ∀ b < 8, Agrees j value window i b) ↔
    ∀ i < classByteWidth j, window.getD i 0 = expectedByte j value i := by
  constructor
  · intro h i hi
    have hle := classByteWidth_le j
    exact byte_eq_of_testBit fun b hb => h i (by omega) b hb (decide_eq_true hi)
  · intro h i _ b _ hactive
    rw [h i (of_decide_eq_true hactive)]

/-- The whole encoding is in the bytes that the decoder reads. -/
theorem Encodes.decode (rest : List UInt8) (h : Encodes j value window) (hvalue : value.length = 4)
    (hwindow : window.length = maxCborUintBytes) :
    decodeCborUint (window ++ rest) = some (bytesNat value, classByteWidth j) := by
  obtain ⟨hj, hbytes, hzero, hsmall⟩ := h
  match value, hvalue, window, hwindow with
  | [v0, v1, v2, v3], _, [w0, w1, w2, w3, w4], _ =>
    have hcases : j = 0 ∨ j = 1 ∨ j = 2 ∨ j = 3 := by omega
    rcases hcases with rfl | rfl | rfl | rfl
    · have h0 : w0 = v3 := hbytes 0 (by decide)
      have z0 : v0 = 0 := hzero 0 (by decide)
      have z1 : v1 = 0 := hzero 1 (by decide)
      have z2 : v2 = 0 := hzero 2 (by decide)
      have hlt : w0 < 0x18 := UInt8.lt_iff_toNat_lt.mpr (hsmall rfl)
      subst h0 z0 z1 z2
      simp [decodeCborUint, hlt, bytesNat, beNat_cons, classByteWidth]
    · have h0 : w0 = 0x18 := hbytes 0 (by decide)
      have h1 : w1 = v3 := hbytes 1 (by decide)
      have z0 : v0 = 0 := hzero 0 (by decide)
      have z1 : v1 = 0 := hzero 1 (by decide)
      have z2 : v2 = 0 := hzero 2 (by decide)
      subst h0 h1 z0 z1 z2
      simp [decodeCborUint, decodeArgument, bytesNat, beNat_cons, classByteWidth]
    · have h0 : w0 = 0x19 := hbytes 0 (by decide)
      have h1 : w1 = v2 := hbytes 1 (by decide)
      have h2 : w2 = v3 := hbytes 2 (by decide)
      have z0 : v0 = 0 := hzero 0 (by decide)
      have z1 : v1 = 0 := hzero 1 (by decide)
      subst h0 h1 h2 z0 z1
      simp [decodeCborUint, decodeArgument, bytesNat, beNat_cons, classByteWidth]
    · have h0 : w0 = 0x1a := hbytes 0 (by decide)
      have h1 : w1 = v0 := hbytes 1 (by decide)
      have h2 : w2 = v1 := hbytes 2 (by decide)
      have h3 : w3 = v2 := hbytes 3 (by decide)
      have h4 : w4 = v3 := hbytes 4 (by decide)
      subst h0 h1 h2 h3 h4
      simp [decodeCborUint, decodeArgument, classByteWidth, maxCborUintBytes]

variable {raw : List UInt8} {itemBits : List (Boolean F)} {offsetBytes digestId : ℕ}

def windowOf (raw : List UInt8) (offsetBytes : ℕ) : List UInt8 := (raw.drop offsetBytes).take maxCborUintBytes

theorem readsAll_window (hraw : Boolean.ReadsAll itemBits (bytesBits raw)) :
    Boolean.ReadsAll ((itemBits.drop (8 * offsetBytes)).take (8 * maxCborUintBytes))
      (bytesBits (windowOf raw offsetBytes)) := by
  rw [windowOf, ← take_bytesBits, ← drop_bytesBits]
  exact List.forall₂_take _ (List.forall₂_drop _ hraw)

theorem yields_active (who : Circuit.Prover) {sel : List (Boolean F)} (hsel : Boolean.HoldsAll who sel (oneHot 4 j))
    (hj : j < 4) {real : ℕ} (hreal : who = .honest → real = j) : ((List.range maxCborUintBytes).mapM fun byteIdx =>
      selectorBit (byteActiveInClass byteIdx) sel (byteActiveInClass byteIdx real)).Yields who
        (Boolean.HoldsAll who · (activeBools j)) := by
  have hbits : ∀ i ∈ List.range maxCborUintBytes, (selectorBit (byteActiveInClass i) sel
      (byteActiveInClass i real)).Yields who (·.Holds who (byteActiveInClass i j)) :=
    fun i _ => yields_selectorBit hsel hj fun hwho => by rw [hreal hwho]
  exact (Circuit.Yields.mapM hbits).mono fun _ hbs => .of_forall₂ hbs

/-- The bytes of the encoding, and zeros. -/
def maskedEncoding (j : ℕ) (window : List UInt8) : List UInt8 :=
  window.take (classByteWidth j) ++ List.replicate (maxCborUintBytes - classByteWidth j) 0

theorem getD_maskedEncoding (hwindow : window.length = maxCborUintBytes) (i : ℕ) :
    (maskedEncoding j window).getD i 0 = if i < classByteWidth j then window.getD i 0 else 0 := by
  have hle := classByteWidth_le j
  have htake : (window.take (classByteWidth j)).length = classByteWidth j := by
    rw [List.length_take]
    omega
  simp only [maskedEncoding, List.getD_eq_getElem?_getD]
  by_cases hi : i < classByteWidth j
  · rw [if_pos hi, List.getElem?_append_left (by omega), List.getElem?_take_of_lt hi]
  · rw [if_neg hi, List.getElem?_append_right (by omega), List.getElem?_replicate]
    split
    · rfl
    · rfl

/-- The masked bits are those of the encoding's bytes followed by zeros. -/
theorem flatten_maskedBits (hwindow : window.length = maxCborUintBytes) :
    ((List.range maxCborUintBytes).map fun byteIdx => (List.range 8).map (maskedBit j window byteIdx)).flatten =
      bytesBits (maskedEncoding j window) := by
  have hle := classByteWidth_le j
  have hlen : (maskedEncoding j window).length = maxCborUintBytes := by
    rw [maskedEncoding, List.length_append, List.length_take, List.length_replicate]
    omega
  have hbytes : (maskedEncoding j window) =
      (List.range maxCborUintBytes).map fun i => (maskedEncoding j window).getD i 0 := by
    refine List.ext_getElem (by simp [hlen]) fun i h1 _ => ?_
    rw [List.getElem_map, List.getElem_range, List.getD_eq_getElem?_getD, List.getElem?_eq_getElem h1]
    rfl
  rw [hbytes, bytesBits, List.flatMap_map, List.flatMap_def]
  congr 1
  apply List.map_congr_left
  intro i _
  apply List.map_congr_left
  intro b _
  rw [getD_maskedEncoding hwindow, maskedBit, byteActiveInClass]
  by_cases hi : i < classByteWidth j
  · rw [if_pos hi, decide_eq_true hi, Bool.and_true]
  · rw [if_neg hi, decide_eq_false hi, Bool.and_false]
    simp

/-- What the class that is selected says, and what the gadget returns. -/
structure Extracts (j : ℕ) (value window : List UInt8) (r : ExtractedDigestId F) : Prop where
  encodes : Encodes j value window
  top : j = 3 → (window.getD 1 0).toNat.testBit 7 = false
  valueBits : Boolean.ReadsAll r.valueBits (bytesBits value)
  encodedBits : Boolean.ReadsAll r.encodedBits (bytesBits (maskedEncoding j window))

/-- In every satisfying assignment a class encodes the window. -/
theorem ensures_extractWindow [LargeChar F] (hlength : window.length = maxCborUintBytes)
    (hwindow : Boolean.ReadsAll ((itemBits.drop (8 * offsetBytes)).take (8 * maxCborUintBytes)) (bytesBits window)) :
    (extractDigestId itemBits offsetBytes digestId).Ensures fun r =>
      ∃ value j, value.length = 4 ∧ Extracts j value window r := by
  unfold extractDigestId
  refine Circuit.ensures_assert.bind fun _ _ => Circuit.ensures_assert.bind fun _ _ => ?_
  refine (ensures_oneHotSelector (by decide)).bind fun sel ⟨j, hj, hsel⟩ => ?_
  have hactives : ((List.range maxCborUintBytes).mapM fun byteIdx => selectorBit (byteActiveInClass byteIdx) sel
      (byteActiveInClass byteIdx (lengthClass digestId))).Yields .any _ := yields_active .any hsel hj nofun
  refine hactives.ensures.bind fun active hactive => ?_
  refine Boolean.ensures_allocBits.bind fun valueBits ⟨xs, hxs, hreads⟩ => ?_
  obtain ⟨value, hvalueLen, rfl⟩ := exists_bytesBits (n := 4) (show xs.length = 8 * 4 by simpa using hxs)
  refine (Circuit.Ensures.mapM fun i hi => Circuit.Ensures.mapM fun b hb =>
    ensures_encodedBit hsel hreads hactive hwindow hj (List.mem_range.mp hi) (List.mem_range.mp hb)).bind
    fun encoded hencoded => ?_
  have hagrees : ∀ i < maxCborUintBytes, ∀ b < 8, Agrees j value window i b := by
    intro i hi b hb
    obtain ⟨bits, -, hrow⟩ := forall₂_left hencoded (List.mem_range.mpr hi)
    obtain ⟨_, -, hagree⟩ := forall₂_left hrow (List.mem_range.mpr hb)
    exact hagree.1
  have hmasked : Boolean.ReadsAll encoded.flatten (bytesBits (maskedEncoding j window)) := by
    rw [← flatten_maskedBits hlength]
    refine .flatten (hencoded.imp fun i bits hbits => ?_)
    have hrow : Boolean.HoldsAll .any bits _ := .of_forall₂ (hbits.imp fun _ _ h => h.2)
    exact hrow
  refine (ensures_zeroUncovered hsel hreads hj).bind fun _ hzero => ?_
  refine (ensures_checkClassZero hsel hwindow).bind fun _ hsmall => ?_
  have htopBit : (Boolean.nth ((itemBits.drop (8 * offsetBytes)).take (8 * maxCborUintBytes)) 8).Reads _ :=
    holds_window .any 1 hwindow (show 0 < 8 by decide)
  refine (ensures_forceZero (holds_selector .any hsel (by decide)) htopBit).bind fun _ htop =>
    Circuit.ensures_pure.mpr ?_
  refine ⟨value, j, hvalueLen, ⟨hj, agrees_iff.mp hagrees, hzero, hsmall⟩, fun h3 => ?_, hreads, hmasked⟩
  exact htop (by simp [h3])

/-- The value bits are the unsigned integer encoded in the item at the offset. -/
theorem ensures_extractDigestId [LargeChar F] (hraw : Boolean.ReadsAll itemBits (bytesBits raw)) :
    (extractDigestId itemBits offsetBytes digestId).Ensures fun r => ∃ value j,
      Boolean.ReadsAll r.valueBits (bytesBits value) ∧ value.length = 4 ∧ j < 4 ∧
        decodeCborUint (raw.drop offsetBytes) = some (bytesNat value, classByteWidth j) := by
  by_cases hlen : (offsetBytes + maxCborUintBytes) * 8 ≤ itemBits.length
  · have hbytes := hlen
    rw [hraw.length_eq, length_bytesBits] at hbytes
    have hlength : (windowOf raw offsetBytes).length = maxCborUintBytes := by
      rw [windowOf, List.length_take, List.length_drop]
      omega
    refine (ensures_extractWindow hlength (readsAll_window hraw)).mono fun r ⟨value, j, hvalueLen, h⟩ => ?_
    refine ⟨value, j, h.valueBits, hvalueLen, h.encodes.class_lt, ?_⟩
    have hdecode := h.encodes.decode ((raw.drop offsetBytes).drop maxCborUintBytes) hvalueLen hlength
    rwa [windowOf, List.take_append_drop] at hdecode
  · unfold extractDigestId
    exact Circuit.ensures_assert.bind fun _ h => absurd h hlen

theorem admits_extractDigestId (hraw : Boolean.ReadsAll itemBits (bytesBits raw))
    (hlen : offsetBytes + maxCborUintBytes ≤ raw.length) (hid : digestId ≤ maxDigestId)
    (hvalue : value.length = 4) (h : Encodes j value (windowOf raw offsetBytes))
    (htop : j = 3 → ((windowOf raw offsetBytes).getD 1 0).toNat.testBit 7 = false) :
    (extractDigestId itemBits offsetBytes digestId).Admits fun r =>
      Boolean.ReadsAll r.valueBits (bytesBits value) := by
  have hbound : (offsetBytes + maxCborUintBytes) * 8 ≤ itemBits.length := by
    rw [hraw.length_eq, length_bytesBits]
    omega
  have hwindow : Boolean.ReadsAll ((itemBits.drop (8 * offsetBytes)).take (8 * maxCborUintBytes)) _ :=
    readsAll_window hraw
  have hagrees := agrees_iff.mpr h.bytes
  unfold extractDigestId
  refine (Circuit.admits_assert hbound).bind fun _ _ => (Circuit.admits_assert hid).bind fun _ _ => ?_
  refine (admits_oneHotSelector h.class_lt).bind fun sel hsel => ?_
  refine Circuit.Admits.bind (Circuit.Yields.admits (yields_active .any hsel h.class_lt nofun)) fun active hactive => ?_
  refine (Boolean.admits_allocBits (bytesBits value) (by simp [hvalue])).bind fun valueBits hreads => ?_
  refine (Circuit.Admits.mapM fun i hi => Circuit.Admits.mapM fun b hb => Circuit.Yields.admits
    (yields_encodedBit hsel hreads hactive hwindow h.class_lt (List.mem_range.mp hi) (List.mem_range.mp hb)
      (hagrees i (List.mem_range.mp hi) b (List.mem_range.mp hb)))).bind fun encoded _ => ?_
  refine Circuit.Admits.bind (Circuit.Yields.admits (yields_zeroUncovered hsel hreads h.zero)) fun _ _ => ?_
  refine Circuit.Admits.bind (Circuit.Yields.admits (yields_checkClassZero hsel hwindow h.small)) fun _ _ => ?_
  have htopBit : (Boolean.nth ((itemBits.drop (8 * offsetBytes)).take (8 * maxCborUintBytes)) 8).Reads _ :=
    holds_window .any 1 hwindow (show 0 < 8 by decide)
  have hthree : (3 == j) = true → ((windowOf raw offsetBytes).getD 1 0).toNat.testBit (7 - 0) = false := by
    intro h3
    have h3 : 3 = j := by simpa using h3
    exact htop h3.symm
  refine Circuit.Admits.bind (Circuit.Yields.admits (yields_forceZero (holds_selector .any hsel (by decide))
    htopBit hthree)) fun _ _ => ?_
  exact Circuit.admits_pure.mpr hreads

end Sound

end ZkCredVega
