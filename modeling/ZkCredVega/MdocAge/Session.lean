import ZkCredVega.MdocAge.PublicValues
import ZkCredVega.Claims.Signature
import ZkCredVega.OffsetBind.Walk

/-!
# The session half of the age proof

`synthesize_session` of `mdoc_age.rs`: the holder's key signs the verifier's digest, and three
dates are compared. `date_not_after` compares byte by byte and bit by bit with a running equality
flag; what it returns is the lexicographic order, for every prover.
-/

namespace ZkCredVega

open Circuits

section Circuit

variable {F V : Type} [Field F] [One V]

/-- The eight bits of a byte-valued number, most significant first; it also bounds the number. -/
def byteBits [ToRepr F] (byte : AllocatedNum F V) : Circuit F V (List (Boolean V)) := do
  -- the first byte of the little-endian representation
  let native := byte.value.map fun v => ToRepr.toNat v % 256
  let bits ← (List.range 8).mapM fun i => Boolean.alloc (native.map fun n => n.testBit (7 - i))
  .require (.sum (bits.zipIdx.map fun t => t.1.lc (2 ^ (7 - t.2)))) (.const 1) byte.lc
  pure bits

/-- One bit of a comparison: whether the first is less so far, and whether both are equal so far. -/
def compareBit (s t : Boolean V × Boolean V) : Circuit F V (Boolean V × Boolean V) := do
  let a ← Boolean.and s.2 t.1.neg
  let b ← Boolean.and a t.2
  let lt ← Boolean.or s.1 b
  let differ ← Boolean.xor t.1 t.2
  let eqSoFar ← Boolean.and s.2 differ.neg
  pure (lt, eqSoFar)

/-- One byte of a comparison, from the bits of both: whether the first date is before so far, and
whether both are equal so far. -/
def compareByte (s : Boolean V × Boolean V) (dateBits cutoffBits : List (Boolean V)) :
    Circuit F V (Boolean V × Boolean V) := do
  let flags ← (dateBits.zip cutoffBits).foldlM compareBit (.constant false, .constant true)
  let contributes ← Boolean.and s.2 flags.1
  let isBefore ← Boolean.or s.1 contributes
  let stillEqual ← Boolean.and s.2 flags.2
  pure (isBefore, stillEqual)

def compareStep [ToRepr F] (s : Boolean V × Boolean V) (t : AllocatedNum F V × AllocatedNum F V) :
    Circuit F V (Boolean V × Boolean V) := do
  let dateBits ← byteBits t.1
  let cutoffBits ← byteBits t.2
  compareByte s dateBits cutoffBits

/-- `date <= cutoff`, bytewise. -/
def dateNotAfter [ToRepr F] (date cutoff : List (AllocatedNum F V)) : Circuit F V (Boolean V) := do
  rejectUnless (date.length = cutoff.length)
  let s ← (date.zip cutoff).foldlM compareStep (.constant false, .constant true)
  Boolean.or s.1 s.2

structure SessionOutputs (F V : Type) where
  cutoff : List (AllocatedNum F V)
  now : List (AllocatedNum F V)
  oldEnough : Boolean V
  deviceAuthDigest : List (AllocatedNum F V)

def bytePackLc (bits : List (Boolean V)) (p : ℕ) : LC F V :=
  .sum ((List.range bytesPerPack).map fun i => byteLc bits (p * bytesPerPack + i) (256 ^ (bytesPerPack - 1 - i)))

def deviceAuthPack (bits : List (Boolean V)) (digest : Bytes 32) (p : ℕ) : Circuit F V (AllocatedNum F V) := do
  let value : F := (bytesNat ((digest.val.drop (p * bytesPerPack)).take bytesPerPack) : ℕ)
  let out ← AllocatedNum.alloc (.ok value)
  .require (bytePackLc bits p) (.const 1) out.lc
  pure out

def allocByteNums (bytes : List UInt8) : Circuit F V (List (AllocatedNum F V)) :=
  bytes.mapM fun b => AllocatedNum.alloc (.ok (b.toNat : F))

def synthesizeSession [ToRepr F] (verifyEcdsa : EcdsaCheck F V) (deviceKey : AllocatedNum F V × AllocatedNum F V)
    (birthDate validFrom validUntil : List (AllocatedNum F V)) (deviceAuth : DeviceAuthWitness) (cutoff : Bytes 10)
    (now : Bytes timestampLen) (deviceAuthDigest : Bytes 32) : Circuit F V (SessionOutputs F V) := do
  let deviceAuthBits ← Mso.allocBytes deviceAuthDigest.val
  verifyEcdsa deviceKey.1 deviceKey.2 deviceAuth.r deviceAuth.s deviceAuth.sInv deviceAuthBits
  let packed ← (List.range 2).mapM (deviceAuthPack deviceAuthBits deviceAuthDigest)
  let nowVars ← allocByteNums now.val
  let started ← dateNotAfter validFrom nowVars
  Boolean.enforceEqual started (.constant true)
  let notExpired ← dateNotAfter nowVars validUntil
  Boolean.enforceEqual notExpired (.constant true)
  let cutoffVars ← allocByteNums cutoff.val
  let oldEnough ← dateNotAfter birthDate cutoffVars
  pure ⟨cutoffVars, nowVars, oldEnough, packed⟩

end Circuit

/-! ## Comparing -/

section Compare

variable {F : Type} [Field F] {who : Circuit.Prover}

theorem decide_cons_eq (a b : Bool) (as bs : List Bool) :
    decide (a :: as = b :: bs) = (!(a ^^ b) && decide (as = bs)) := by
  cases a <;> cases b <;> simp

theorem yields_compareBits {ds cs : List (Boolean F)} {as bs : List Bool} (hd : Boolean.HoldsAll who ds as)
    (hc : Boolean.HoldsAll who cs bs) (hlen : as.length = bs.length) {s : Boolean F × Boolean F} {lt eq : Bool}
    (hlt : s.1.Holds who lt) (heq : s.2.Holds who eq) :
    ((ds.zip cs).foldlM compareBit s).Yields who fun s' =>
      s'.1.Holds who (lt || (eq && decide (as < bs))) ∧ s'.2.Holds who (eq && decide (as = bs)) := by
  induction hd generalizing cs bs s lt eq with
  | nil =>
    obtain rfl := List.length_eq_zero_iff.mp hlen.symm
    cases hc
    refine Circuit.yields_pure ⟨?_, ?_⟩
    · simpa using hlt
    · simpa using heq
  | @cons d a ds as hda _ ih =>
    cases hc with
    | nil => cases hlen
    | @cons c b cs bs hcb hcs =>
      rw [List.zip_cons_cons, List.foldlM_cons]
      have hstep : (compareBit s (d, c)).Yields who fun s' =>
          s'.1.Holds who (lt || ((eq && !a) && b)) ∧ s'.2.Holds who (eq && !(a ^^ b)) := by
        refine (Boolean.yields_and heq hda.neg).bind fun x hx => (Boolean.yields_and hx hcb).bind fun y hy => ?_
        refine (Boolean.yields_or hlt hy).bind fun l hl => (Boolean.yields_xor hda hcb).bind fun z hz => ?_
        exact (Boolean.yields_and heq hz.neg).bind fun e he => Circuit.yields_pure ⟨hl, he⟩
      refine hstep.bind fun s' hs' => (ih hcs (Nat.succ.inj hlen) hs'.1 hs'.2).mono fun t ht => ?_
      have hltEq : ((lt || ((eq && !a) && b)) || ((eq && !(a ^^ b)) && decide (as < bs))) =
          (lt || (eq && decide (a :: as < b :: bs))) := by
        rw [decide_cons_lt]
        cases lt <;> cases eq <;> cases a <;> cases b <;> rfl
      have heqEq : ((eq && !(a ^^ b)) && decide (as = bs)) = (eq && decide (a :: as = b :: bs)) := by
        rw [decide_cons_eq, Bool.and_assoc]
      rw [hltEq, heqEq] at ht
      exact ht

theorem yields_compareByte (who : Circuit.Prover) {ds cs : List (Boolean F)} {a b : UInt8}
    (hd : Boolean.HoldsAll who ds (bitsOf a)) (hc : Boolean.HoldsAll who cs (bitsOf b)) {s : Boolean F × Boolean F} {before equal : Bool}
    (hbefore : s.1.Holds who before) (hequal : s.2.Holds who equal) :
    (compareByte s ds cs).Yields who fun s' =>
      s'.1.Holds who (before || (equal && decide (a < b))) ∧ s'.2.Holds who (equal && decide (a = b)) := by
  have hbits : ((ds.zip cs).foldlM compareBit (.constant false, .constant true)).Yields who fun s' =>
      s'.1.Holds who (decide (a < b)) ∧ s'.2.Holds who (decide (a = b)) := by
    have hstart : ∀ c, (Boolean.constant c : Boolean F).Holds who c := fun c => Boolean.holds_constant
    have hfold : ((ds.zip cs).foldlM compareBit (.constant false, .constant true)).Yields who _ :=
      yields_compareBits hd hc (by simp) (hstart false) (hstart true)
    have hlt : decide (bitsOf a < bitsOf b) = decide (a < b) := decide_eq_decide.mpr bitsOf_lt_iff
    have heq : decide (bitsOf a = bitsOf b) = decide (a = b) := decide_eq_decide.mpr bitsOf_eq_iff
    rw [Bool.false_or, Bool.true_and, Bool.true_and, hlt, heq] at hfold
    exact hfold
  refine hbits.bind fun flags hflags => (Boolean.yields_and hequal hflags.1).bind fun x hx => ?_
  refine (Boolean.yields_or hbefore hx).bind fun y hy => (Boolean.yields_and hequal hflags.2).bind fun z hz => ?_
  exact Circuit.yields_pure ⟨hy, hz⟩

/-! ## Bytes -/

theorem eval_byteBits {bits : List (Boolean F)} {b : UInt8} (h : Boolean.ReadsAll bits (bitsOf b)) :
    (LC.sum (bits.zipIdx.map fun t => t.1.lc ((2 : F) ^ (7 - t.2)))).eval = ((b.toNat : ℕ) : F) := by
  have hlen : (bitsOf b).length = 8 := length_bitsOf b
  rw [Boolean.eval_sum_zipIdx h fun k => (2 : F) ^ (7 - k), ← beBits_bitsOf b, ← sum_zipIdx_beBits, hlen]

variable [ToRepr F]

theorem ensures_byteBits {byte : AllocatedNum F F} : (byteBits byte).Ensures fun bits =>
    ∃ b : UInt8, byte.val = ((b.toNat : ℕ) : F) ∧ Boolean.ReadsAll bits (bitsOf b) := by
  unfold byteBits
  refine Boolean.ensures_allocBits.bind fun bits hbits => .require_bind fun heq => ?_
  obtain ⟨xs, hxs, hreads⟩ := hbits
  rw [List.length_range] at hxs
  obtain ⟨bs, hbs, rfl⟩ := exists_bytesBits (n := 1) hxs
  obtain ⟨b, rfl⟩ := List.length_eq_one_iff.mp hbs
  rw [bytesBits_cons, bytesBits_nil, List.append_nil] at hreads
  rw [eval_byteBits hreads, LC.eval_const, mul_one, AllocatedNum.eval_lc] at heq
  exact Circuit.ensures_pure.mpr ⟨b, heq.symm, hreads⟩

theorem succeeds_byteBits [LawfulToRepr F] {byte : AllocatedNum F F} {b : UInt8}
    (h : byte.Holds .honest ((b.toNat : ℕ) : F)) :
    (byteBits byte).Succeeds (Boolean.HonestReadsAll · (bitsOf b)) := by
  have hlt : b.toNat < 2 ^ 255 := lt_trans b.toNat_lt (by decide)
  have hhint : ∀ i ∈ List.range 8, (Boolean.alloc ((byte.value.map fun v => ToRepr.toNat v % 256).map
      fun n => n.testBit (7 - i)) : Circuit F F _).Succeeds (·.HonestReads (b.toNat.testBit (7 - i))) := by
    intro i _
    apply Boolean.succeeds_alloc
    rw [h.value_eq rfl, Option.map_some, Option.map_some, LawfulToRepr.toNat_natCast hlt,
      Nat.mod_eq_of_lt b.toNat_lt]
  unfold byteBits
  refine (Circuit.Succeeds.mapM hhint).bind fun bits hbits => ?_
  have hreads : Boolean.HonestReadsAll bits (bitsOf b) := .of_forall₂ hbits
  refine .require_bind ?_ (Circuit.succeeds_pure.mpr hreads)
  rw [eval_byteBits hreads.reads, LC.eval_const, mul_one, AllocatedNum.eval_lc, h.val_eq]

/-! ## Dates -/

def HoldsBytes (who : Circuit.Prover) (nums : List (AllocatedNum F F)) (bytes : List UInt8) : Prop :=
  List.Forall₂ (fun a b => a.Holds who ((b.toNat : ℕ) : F)) nums bytes

structure FlagsHold (who : Circuit.Prover) (s : Boolean F × Boolean F) (before equal : Bool) : Prop where
  before : s.1.Holds who before
  equal : s.2.Holds who equal

omit [ToRepr F] in
theorem FlagsHold.cons {s : Boolean F × Boolean F} {before equal : Bool} {a b : UInt8} {as bs : List UInt8}
    (h : FlagsHold who s ((before || (equal && decide (a < b))) || ((equal && decide (a = b)) && decide (as < bs)))
      ((equal && decide (a = b)) && decide (as = bs))) :
    FlagsHold who s (before || (equal && decide (a :: as < b :: bs))) (equal && decide (a :: as = b :: bs)) := by
  have hlt : decide (a :: as < b :: bs) = (decide (a < b) || (decide (a = b) && decide (as < bs))) := by
    rw [← Bool.decide_and, ← Bool.decide_or]
    exact decide_eq_decide.mpr List.cons_lt_cons_iff
  have heq : decide (a :: as = b :: bs) = (decide (a = b) && decide (as = bs)) := by
    rw [← Bool.decide_and]
    exact decide_eq_decide.mpr List.cons_eq_cons
  rw [hlt, heq, ← Bool.and_assoc, Bool.and_or_distrib_left, ← Bool.and_assoc, ← Bool.or_assoc]
  exact h

/-- Every satisfying assignment compares bytes, and keeps the flags of their order. -/
theorem ensures_compareSteps {ts : List (AllocatedNum F F × AllocatedNum F F)} {s : Boolean F × Boolean F}
    {before equal : Bool} (hs : FlagsHold .any s before equal) :
    (ts.foldlM compareStep s).Ensures fun s' => ∃ as bs : List UInt8,
      HoldsBytes .any (ts.map Prod.fst) as ∧ HoldsBytes .any (ts.map Prod.snd) bs ∧
        FlagsHold .any s' (before || (equal && decide (as < bs))) (equal && decide (as = bs)) := by
  induction ts generalizing s before equal with
  | nil =>
    refine Circuit.ensures_pure.mpr ⟨[], [], .nil, .nil, ?_⟩
    simpa using hs
  | cons t ts ih =>
    rw [List.foldlM_cons]
    have hstep : (compareStep s t).Ensures fun s' => ∃ a b : UInt8, t.1.val = ((a.toNat : ℕ) : F) ∧
        t.2.val = ((b.toNat : ℕ) : F) ∧
        FlagsHold .any s' (before || (equal && decide (a < b))) (equal && decide (a = b)) := by
      refine ensures_byteBits.bind fun ds ⟨a, ha, hds⟩ => ensures_byteBits.bind fun cs ⟨b, hb, hcs⟩ => ?_
      have hbyte : (compareByte s ds cs).Yields .any _ := yields_compareByte .any hds hcs hs.before hs.equal
      exact hbyte.ensures.mono fun s' hs' => ⟨a, b, ha, hb, hs'.1, hs'.2⟩
    refine hstep.bind fun s' ⟨a, b, ha, hb, hs'⟩ => (ih hs').mono fun s'' ⟨as, bs, has, hbs, hs''⟩ => ?_
    exact ⟨a :: as, b :: bs, .cons ⟨ha, nofun⟩ has, .cons ⟨hb, nofun⟩ hbs, hs''.cons⟩

theorem succeeds_compareSteps [LawfulToRepr F] {date cutoff : List (AllocatedNum F F)} {as bs : List UInt8}
    (hdate : HoldsBytes .honest date as) (hcutoff : HoldsBytes .honest cutoff bs) (hlen : as.length = bs.length)
    {s : Boolean F × Boolean F} {before equal : Bool} (hs : FlagsHold .honest s before equal) :
    ((date.zip cutoff).foldlM compareStep s).Succeeds fun s' =>
      FlagsHold .honest s' (before || (equal && decide (as < bs))) (equal && decide (as = bs)) := by
  induction hdate generalizing cutoff bs s before equal with
  | nil =>
    obtain rfl := List.length_eq_zero_iff.mp hlen.symm
    cases hcutoff
    refine Circuit.succeeds_pure.mpr ?_
    simpa using hs
  | @cons d a date as hd _ ih =>
    cases hcutoff with
    | nil => cases hlen
    | @cons c b cutoff bs hc hcutoff =>
      rw [List.zip_cons_cons, List.foldlM_cons]
      have hstep : (compareStep s (d, c)).Succeeds fun s' =>
          FlagsHold .honest s' (before || (equal && decide (a < b))) (equal && decide (a = b)) := by
        refine (succeeds_byteBits hd).bind fun ds hds => (succeeds_byteBits hc).bind fun cs hcs => ?_
        have hbyte : (compareByte s ds cs).Yields .honest _ :=
          yields_compareByte .honest hds hcs hs.before hs.equal
        exact hbyte.succeeds.mono fun s' hs' => ⟨hs'.1, hs'.2⟩
      refine hstep.bind fun s' hs' => (ih hcutoff (Nat.succ.inj hlen) hs').mono fun s'' hs'' => hs''.cons

omit [ToRepr F] in
theorem flagsHold_start : FlagsHold who ((.constant false, .constant true) : Boolean F × Boolean F) false true :=
  ⟨Boolean.holds_constant, Boolean.holds_constant⟩

theorem decide_le_bytes (as bs : List UInt8) : (decide (as < bs) || decide (as = bs)) = decide (as ≤ bs) := by
  rw [← Bool.decide_or]
  exact decide_eq_decide.mpr List.le_iff_lt_or_eq.symm

omit [ToRepr F] in
theorem FlagsHold.yields_or {s : Boolean F × Boolean F} {as bs : List UInt8}
    (h : FlagsHold who s (false || (true && decide (as < bs))) (true && decide (as = bs))) :
    (Boolean.or s.1 s.2).Yields who (·.Holds who (decide (as ≤ bs))) := by
  have hor := Boolean.yields_or h.before h.equal
  rwa [Bool.false_or, Bool.true_and, Bool.true_and, decide_le_bytes] at hor

/-- A satisfying assignment of a comparison has bytes on both sides, and returns their order. -/
theorem ensures_dateNotAfter {date cutoff : List (AllocatedNum F F)} :
    (dateNotAfter date cutoff).Ensures fun r => ∃ as bs : List UInt8, HoldsBytes .any date as ∧
      HoldsBytes .any cutoff bs ∧ as.length = bs.length ∧ r.Reads (decide (as ≤ bs)) := by
  unfold dateNotAfter
  refine ensures_rejectUnless.bind fun _ hlen => (ensures_compareSteps flagsHold_start).bind fun s hs => ?_
  obtain ⟨as, bs, has, hbs, hflags⟩ := hs
  rw [List.map_fst_zip (by omega)] at has
  rw [List.map_snd_zip (by omega)] at hbs
  have hsame : as.length = bs.length := by
    have hdate : date.length = as.length := has.length_eq
    have hcutoff : cutoff.length = bs.length := hbs.length_eq
    omega
  have hor : (Boolean.or s.1 s.2).Yields .any _ := hflags.yields_or
  exact hor.ensures.mono fun r hr => ⟨as, bs, has, hbs, hsame, hr⟩

theorem succeeds_dateNotAfter [LawfulToRepr F] {date cutoff : List (AllocatedNum F F)} {as bs : List UInt8}
    (hdate : HoldsBytes .honest date as) (hcutoff : HoldsBytes .honest cutoff bs) (hlen : as.length = bs.length) :
    (dateNotAfter date cutoff).Succeeds (·.HonestReads (decide (as ≤ bs))) := by
  have hdateLen : date.length = as.length := hdate.length_eq
  have hcutoffLen : cutoff.length = bs.length := hcutoff.length_eq
  unfold dateNotAfter
  refine (succeeds_rejectUnless (by omega)).bind fun _ _ => ?_
  refine (succeeds_compareSteps hdate hcutoff hlen flagsHold_start).bind fun s hs => ?_
  have hor : (Boolean.or s.1 s.2).Yields .honest _ := hs.yields_or
  exact hor.succeeds

end Compare

/-! ## The session -/

section Session

variable {F : Type} [Field F]

theorem eval_bytePackLc {bits : List (Boolean F)} {d : List UInt8} (h : Boolean.ReadsAll bits (bytesBits d))
    {p : ℕ} (hp : (p + 1) * bytesPerPack ≤ d.length) :
    (bytePackLc bits p : LC F F).eval =
      ((bytesNat ((d.drop (p * bytesPerPack)).take bytesPerPack) : ℕ) : F) := by
  have hbytes : (d.drop (p * bytesPerPack)).take bytesPerPack =
      (List.range bytesPerPack).map fun i => d.getD (p * bytesPerPack + i) 0 := by
    rw [Nat.add_mul, Nat.one_mul] at hp
    exact (windowAt_eq_take hp).symm
  have hterms : ((List.range bytesPerPack).map fun i =>
      (byteLc bits (p * bytesPerPack + i) ((256 : F) ^ (bytesPerPack - 1 - i))).eval) =
        (List.range bytesPerPack).map fun i => ((256 : ℕ) : F) ^ (bytesPerPack - 1 - i) *
          ((((d.getD (p * bytesPerPack + i) 0).toNat : ℕ)) : F) := by
    apply List.map_congr_left
    intro i _
    rw [eval_byteLc h, Nat.cast_ofNat]
  rw [bytePackLc, LC.eval_sum, List.map_map, Function.comp_def, hterms,
    sum_range_pow_mul 256 bytesPerPack fun i => (d.getD (p * bytesPerPack + i) 0).toNat, hbytes, bytesNat, List.map_map]
  rfl

theorem yields_deviceAuthPacks (who : Circuit.Prover) {bits : List (Boolean F)} {d : List UInt8} {digest : Bytes 32}
    (h : Boolean.ReadsAll bits (bytesBits d)) (hlen : d.length = 32) (hdigest : who = .honest → digest.val = d) :
    ((List.range 2).mapM (deviceAuthPack bits digest) : Circuit F F _).Yields who fun packs =>
      packs.map (·.val) = (packBytes d).map (Nat.cast : ℕ → F) := by
  have hpack : ∀ p ∈ List.range 2, (deviceAuthPack bits digest p : Circuit F F _).Yields who fun out =>
      out.val = ((bytesNat ((d.drop (p * bytesPerPack)).take bytesPerPack) : ℕ) : F) := by
    intro p hp
    have hp : p < 2 := List.mem_range.mp hp
    have hfit : (p + 1) * bytesPerPack ≤ d.length := by
      simp only [bytesPerPack]
      omega
    refine (AllocatedNum.yields_allocEqual ?_ fun hwho => ?_).mono fun out hout => hout.val_eq
    · rw [eval_bytePackLc h hfit, LC.eval_const, mul_one]
    · rw [hdigest hwho]
  refine (Circuit.Yields.mapM hpack).mono fun packs hpacks => ?_
  rw [Circuit.map_eq_of_forall₂ hpacks, packBytes, hlen, List.map_map]
  rfl

theorem ensures_enforceTrue {b : Boolean F} {x : Bool} (h : b.Reads x) :
    (Boolean.enforceEqual b (.constant true)).Ensures fun _ => x = true := by
  intro ins u hrun
  obtain ⟨hins, heq⟩ := Boolean.runs_enforceEqual.mp hrun
  have htrue : b.Reads true := heq
  exact ⟨hins, h.unique htrue⟩

theorem succeeds_enforceTrue {b : Boolean F} (h : b.Reads true) :
    (Boolean.enforceEqual b (.constant true)).Succeeds fun _ => True := by
  have hone : (1 : F) - b.eval = 0 := by
    unfold Boolean.Reads at h
    rw [h]
    simp [ofBool]
  rcases b with b | b | c
  · refine Circuit.succeeds_require ?_
    simpa [Boolean.lc, Boolean.eval, eq_comm] using hone
  · refine Circuit.succeeds_require ?_
    simpa [Boolean.lc, Boolean.eval, eq_comm] using hone
  · obtain rfl := Boolean.reads_constant.mp h
    exact Circuit.succeeds_pure.mpr trivial

theorem ensures_allocByteNums (bytes : List UInt8) :
    (allocByteNums bytes : Circuit F F _).Ensures fun nums => nums.length = bytes.length := by
  refine (Circuit.Ensures.mapM fun b _ => AllocatedNum.ensures_alloc).mono fun nums hnums => ?_
  exact hnums.length_eq.symm

theorem succeeds_allocByteNums (bytes : List UInt8) :
    (allocByteNums bytes : Circuit F F _).Succeeds (HoldsBytes .honest · bytes) :=
  (Circuit.Succeeds.mapM fun _ _ => AllocatedNum.succeeds_alloc rfl).mono fun _ hnums => hnums.flip

theorem HoldsBytes.any {who : Circuit.Prover} {nums : List (AllocatedNum F F)} {bytes : List UInt8}
    (h : HoldsBytes who nums bytes) : HoldsBytes .any nums bytes :=
  List.Forall₂.imp (fun _ _ hnum => ⟨hnum.val_eq, nofun⟩) h

theorem HoldsBytes.unique [LargeChar F] {nums : List (AllocatedNum F F)} {as bs : List UInt8}
    (has : HoldsBytes .any nums as) (hbs : HoldsBytes .any nums bs) : as = bs := by
  induction has generalizing bs with
  | nil =>
    cases hbs
    rfl
  | @cons num a nums as ha _ ih =>
    cases hbs with
    | @cons _ b _ bs hb hbs =>
      have hsmall : ∀ c : UInt8, c.toNat < 2 ^ 255 := fun c => lt_trans c.toNat_lt (by decide)
      have hab := LargeChar.natCast_inj (F := F) (hsmall a) (hsmall b) (ha.val_eq.symm.trans hb.val_eq)
      rw [UInt8.toNat_inj.mp hab, ih hbs]

variable [ToRepr F]

/-- What the wires of a session are worth. -/
structure SessionBytes where
  validFrom : List UInt8
  validUntil : List UInt8
  birthDate : List UInt8
  now : List UInt8
  cutoff : List UInt8
  digest : List UInt8

/-- The dates and the session's outputs are worth `v`. -/
structure SessionBytes.On (v : SessionBytes) (birthDate validFrom validUntil : List (AllocatedNum F F))
    (out : SessionOutputs F F) : Prop where
  validFrom : HoldsBytes .any validFrom v.validFrom
  validUntil : HoldsBytes .any validUntil v.validUntil
  birthDate : HoldsBytes .any birthDate v.birthDate
  now : HoldsBytes .any out.now v.now
  length_now : v.now.length = timestampLen
  length_from : v.validFrom.length = timestampLen
  length_until : v.validUntil.length = timestampLen
  cutoff : HoldsBytes .any out.cutoff v.cutoff
  length_cutoff : v.cutoff.length = 10
  length_birthDate : v.birthDate.length = 10
  length_digest : v.digest.length = 32
  packs_eq : out.deviceAuthDigest.map (·.val) = (packBytes v.digest).map (Nat.cast : ℕ → F)

variable {verifyEcdsa : EcdsaCheck F F} {deviceKey : AllocatedNum F F × AllocatedNum F F}
  {birthDate validFrom validUntil : List (AllocatedNum F F)} {deviceAuth : DeviceAuthWitness} {cutoff : Bytes 10}
  {now : Bytes timestampLen} {digest : Bytes 32}

theorem runs_synthesizeSession [LargeChar F] {ins : List F} {out : SessionOutputs F F}
    (hrun : (synthesizeSession verifyEcdsa deviceKey birthDate validFrom validUntil deviceAuth cutoff now
      digest).Runs ins out) :
    ∃ v : SessionBytes, v.On birthDate validFrom validUntil out ∧ v.validFrom ≤ v.now ∧ v.now ≤ v.validUntil ∧
      out.oldEnough.Reads (decide (v.birthDate ≤ v.cutoff)) ∧ ∃ bits ins', Boolean.ReadsAll bits (bytesBits v.digest) ∧
        (verifyEcdsa deviceKey.1 deviceKey.2 deviceAuth.r deviceAuth.s deviceAuth.sInv bits).Runs ins' () := by
  unfold synthesizeSession at hrun
  obtain ⟨bits, -, ⟨d, hd, hbits⟩, hrun⟩ := hrun.bind_elim Mso.ensures_allocBytes
  obtain ⟨ins', ins, u, rfl, hecdsa, hrun⟩ := Circuit.runs_bind.mp hrun
  rw [digest.property] at hd
  have hpacks : ((List.range 2).mapM (deviceAuthPack bits digest) : Circuit F F _).Yields .any _ :=
    yields_deviceAuthPacks .any hbits hd nofun
  obtain ⟨packed, -, hpacked, hrun⟩ := hrun.bind_elim hpacks.ensures
  obtain ⟨nowVars, -, hnowLen, hrun⟩ := hrun.bind_elim (ensures_allocByteNums now.val)
  obtain ⟨started, -, ⟨vf, n, hvf, hn, hvfLen, hstarted⟩, hrun⟩ := hrun.bind_elim ensures_dateNotAfter
  obtain ⟨_, -, hfrom, hrun⟩ := hrun.bind_elim (ensures_enforceTrue hstarted)
  obtain ⟨notExpired, -, ⟨n', vu, hn', hvu, hvuLen, hnotExpired⟩, hrun⟩ := hrun.bind_elim ensures_dateNotAfter
  obtain ⟨_, -, huntil, hrun⟩ := hrun.bind_elim (ensures_enforceTrue hnotExpired)
  obtain ⟨cutoffVars, -, hcutoffLen, hrun⟩ := hrun.bind_elim (ensures_allocByteNums cutoff.val)
  obtain ⟨oldEnough, -, ⟨bd, c, hbd, hc, hbdLen, hold⟩, hrun⟩ := hrun.bind_elim ensures_dateNotAfter
  obtain ⟨-, rfl⟩ := Circuit.runs_pure.mp hrun
  obtain rfl := hn.unique hn'
  have hnLen : n.length = timestampLen := by rw [← hn.length_eq, hnowLen, now.property]
  have hcLen : c.length = 10 := by rw [← hc.length_eq, hcutoffLen, cutoff.property]
  refine ⟨⟨vf, vu, bd, n, c, d⟩, ?_, of_decide_eq_true hfrom, of_decide_eq_true huntil, hold, bits, ins', hbits, hecdsa⟩
  exact ⟨hvf, hvu, hbd, hn, hnLen, hvfLen.trans hnLen, hvuLen.symm.trans hnLen, hc, hcLen, hbdLen.trans hcLen, hd,
    hpacked⟩

theorem succeeds_synthesizeSession [LawfulToRepr F] {bd vf vu : List UInt8}
    (hecdsa : ∀ bits, Boolean.HonestReadsAll bits (bytesBits digest.val) →
      (verifyEcdsa deviceKey.1 deviceKey.2 deviceAuth.r deviceAuth.s deviceAuth.sInv bits).Succeeds fun _ => True)
    (hbd : HoldsBytes .honest birthDate bd) (hvf : HoldsBytes .honest validFrom vf)
    (hvu : HoldsBytes .honest validUntil vu) (hbdLen : bd.length = 10) (hvfLen : vf.length = timestampLen)
    (hvuLen : vu.length = timestampLen) (hfrom : vf ≤ now.val) (huntil : now.val ≤ vu) :
    (synthesizeSession verifyEcdsa deviceKey birthDate validFrom validUntil deviceAuth cutoff now digest).Succeeds
      fun out => HoldsBytes .honest out.now now.val ∧ HoldsBytes .honest out.cutoff cutoff.val ∧
        out.oldEnough.HonestReads (decide (bd ≤ cutoff.val)) ∧
          out.deviceAuthDigest.map (·.val) = (packBytes digest.val).map (Nat.cast : ℕ → F) := by
  unfold synthesizeSession
  refine (Mso.succeeds_allocBytes digest.val).bind fun bits hbits => (hecdsa bits hbits).bind fun _ _ => ?_
  have hpacks : ((List.range 2).mapM (deviceAuthPack bits digest) : Circuit F F _).Yields .honest _ :=
    yields_deviceAuthPacks .honest hbits.reads digest.property fun _ => rfl
  refine hpacks.succeeds.bind fun packed hpacked => (succeeds_allocByteNums now.val).bind fun nowVars hnow => ?_
  refine (succeeds_dateNotAfter hvf hnow (hvfLen.trans now.property.symm)).bind fun started hstarted => ?_
  rw [decide_eq_true hfrom] at hstarted
  refine (succeeds_enforceTrue hstarted.reads).bind fun _ _ => ?_
  refine (succeeds_dateNotAfter hnow hvu (now.property.trans hvuLen.symm)).bind fun notExpired hnotExpired => ?_
  rw [decide_eq_true huntil] at hnotExpired
  refine (succeeds_enforceTrue hnotExpired.reads).bind fun _ _ => ?_
  refine (succeeds_allocByteNums cutoff.val).bind fun cutoffVars hcutoff => ?_
  refine (succeeds_dateNotAfter hbd hcutoff (hbdLen.trans cutoff.property.symm)).bind fun oldEnough hold => ?_
  exact Circuit.succeeds_pure.mpr ⟨hnow, hcutoff, hold, hpacked⟩

end Session

/-- The session predicate. A comparison of dates has bytes on both sides and returns their lexicographic order, for
every assignment and for the honest one; so every satisfying session has a credential that is valid now and an age
flag that says what the dates do, over the digest that the device key's signature was checked on. -/
theorem synthesizeSession_predicate {F : Type} [Field F] [LargeChar F] [ToRepr F] [LawfulToRepr F]
    (verifyEcdsa : EcdsaCheck F F) (deviceKey : AllocatedNum F F × AllocatedNum F F)
    (birthDate validFrom validUntil : List (AllocatedNum F F)) (deviceAuth : DeviceAuthWitness) (cutoff : Bytes 10)
    (now : Bytes timestampLen) (digest : Bytes 32) :
    (∀ (as bs : List (AllocatedNum F F)) ins r, (dateNotAfter as bs).Runs ins r → ∃ xs ys : List UInt8,
      HoldsBytes .any as xs ∧ HoldsBytes .any bs ys ∧ xs.length = ys.length ∧ r.Reads (decide (xs ≤ ys))) ∧
    (∀ (as bs : List (AllocatedNum F F)) (xs ys : List UInt8), HoldsBytes .honest as xs → HoldsBytes .honest bs ys →
      xs.length = ys.length → (dateNotAfter as bs).Succeeds (·.HonestReads (decide (xs ≤ ys)))) ∧
    (∀ ins out, (synthesizeSession verifyEcdsa deviceKey birthDate validFrom validUntil deviceAuth cutoff now
      digest).Runs ins out →
      ∃ v : SessionBytes, v.On birthDate validFrom validUntil out ∧ v.validFrom ≤ v.now ∧ v.now ≤ v.validUntil ∧
        out.oldEnough.Reads (decide (v.birthDate ≤ v.cutoff)) ∧
        ∃ bits ins', Boolean.ReadsAll bits (bytesBits v.digest) ∧
          (verifyEcdsa deviceKey.1 deviceKey.2 deviceAuth.r deviceAuth.s deviceAuth.sInv bits).Runs ins' ()) ∧
    ∀ bd vf vu : List UInt8, HoldsBytes .honest birthDate bd → HoldsBytes .honest validFrom vf →
      HoldsBytes .honest validUntil vu → bd.length = 10 → vf.length = timestampLen → vu.length = timestampLen →
      (∀ bits, Boolean.HonestReadsAll bits (bytesBits digest.val) →
        (verifyEcdsa deviceKey.1 deviceKey.2 deviceAuth.r deviceAuth.s deviceAuth.sInv bits).Succeeds fun _ => True) →
      vf ≤ now.val → now.val ≤ vu →
      (synthesizeSession verifyEcdsa deviceKey birthDate validFrom validUntil deviceAuth cutoff now digest).Succeeds
        fun out => HoldsBytes .honest out.now now.val ∧ HoldsBytes .honest out.cutoff cutoff.val ∧
          out.oldEnough.HonestReads (decide (bd ≤ cutoff.val)) ∧
            out.deviceAuthDigest.map (·.val) = (packBytes digest.val).map (Nat.cast : ℕ → F) := by
  refine ⟨fun as bs ins r hrun => (ensures_dateNotAfter ins r hrun).2, fun as bs xs ys => succeeds_dateNotAfter,
    fun ins out => runs_synthesizeSession, ?_⟩
  intro bd vf vu hbd hvf hvu hbdLen hvfLen hvuLen hecdsa hfrom huntil
  exact succeeds_synthesizeSession hecdsa hbd hvf hvu hbdLen hvfLen hvuLen hfrom huntil

def assignedBytes (bytes : List UInt8) : List (AllocatedNum Scalar Scalar) :=
  bytes.map fun b => ⟨(b.toNat : Scalar), some (b.toNat : Scalar)⟩

theorem holdsBytes_assigned (bytes : List UInt8) : HoldsBytes .honest (assignedBytes bytes) bytes := by
  rw [HoldsBytes, assignedBytes, List.forall₂_map_left_iff, List.forall₂_same]
  exact fun b _ => ⟨rfl, fun _ => rfl⟩

/-- The device key is the generator. -/
def deviceKeyNums : AllocatedNum Scalar Scalar × AllocatedNum Scalar Scalar :=
  (⟨generatorX, some generatorX⟩, ⟨generatorY, some generatorY⟩)

def deviceDigest : Bytes 32 := ⟨(List.range 32).map fun i => UInt8.ofNat (i + 1), rfl⟩

/-- The signature of the digest under the private key `1`, with the random number `1`. -/
def deviceSignature : DeviceAuthWitness where
  r := generatorX
  s := 48895428650227142970562530230302321806152985913191367133008265899797141447094
  sInv := 109027071288849418311014702854023836084375501998387168940024196559850851094730

/-- `1990-05-17`, and the cutoff `2008-08-20`. -/
def sessionBirthDate : List UInt8 := [0x31, 0x39, 0x39, 0x30, 0x2d, 0x30, 0x35, 0x2d, 0x31, 0x37]

def sessionCutoff : Bytes 10 := ⟨[0x32, 0x30, 0x30, 0x38, 0x2d, 0x30, 0x38, 0x2d, 0x32, 0x30], rfl⟩

/-- `20xy-01-01T00:00:00Z` for the digits `x` and `y`. -/
def newYear (x y : UInt8) : List UInt8 :=
  [0x32, 0x30, x, y, 0x2d, 0x30, 0x31, 0x2d, 0x30, 0x31, 0x54, 0x30, 0x30, 0x3a, 0x30, 0x30, 0x3a, 0x30, 0x30, 0x5a]

/-- `2026-08-20T12:00:00Z` -/
def sessionNow : Bytes timestampLen :=
  ⟨[0x32, 0x30, 0x32, 0x36, 0x2d, 0x30, 0x38, 0x2d, 0x32, 0x30, 0x54, 0x31, 0x32, 0x3a, 0x30, 0x30, 0x3a, 0x30, 0x30,
    0x5a], rfl⟩

theorem succeeds_deviceSignature {bits : List (Boolean Scalar)}
    (h : Boolean.HonestReadsAll bits (bytesBits deviceDigest.val)) :
    (verifyDigestBits deviceKeyNums.1 deviceKeyNums.2 deviceSignature.r deviceSignature.s deviceSignature.sInv
      bits).Succeeds fun _ => True :=
  succeeds_verifyDigestBits_generator h deviceDigest.property ⟨rfl, fun _ => rfl⟩ ⟨rfl, fun _ => rfl⟩ (by decide)
    (by decide) (by decide) (by decide +kernel)

/-- A credential valid from 2026 until 2031, whose holder was born before the cutoff. -/
theorem synthesizeSession_predicate_adult : ∃ (out : SessionOutputs Scalar Scalar) (v : SessionBytes),
    (synthesizeSession verifyDigestBits deviceKeyNums (assignedBytes sessionBirthDate)
      (assignedBytes (newYear 0x32 0x36)) (assignedBytes (newYear 0x33 0x31)) deviceSignature sessionCutoff
      sessionNow deviceDigest).Runs [] out ∧ out.oldEnough.Reads true ∧
    v.On (assignedBytes sessionBirthDate) (assignedBytes (newYear 0x32 0x36)) (assignedBytes (newYear 0x33 0x31)) out ∧
      v.validFrom ≤ v.now ∧ v.now ≤ v.validUntil := by
  obtain ⟨-, -, hsound, hhonest⟩ := synthesizeSession_predicate verifyDigestBits deviceKeyNums
    (assignedBytes sessionBirthDate) (assignedBytes (newYear 0x32 0x36)) (assignedBytes (newYear 0x33 0x31))
    deviceSignature sessionCutoff sessionNow deviceDigest
  obtain ⟨out, hrun, -, -, hold, -⟩ := hhonest _ _ _ (holdsBytes_assigned _) (holdsBytes_assigned _)
    (holdsBytes_assigned _) rfl rfl rfl (fun _ => succeeds_deviceSignature) (by decide) (by decide)
  obtain ⟨v, hv, hfrom, huntil, -⟩ := hsound [] out hrun.runs
  exact ⟨out, v, hrun.runs, hold.reads, hv, hfrom, huntil⟩

end ZkCredVega
