import ZkCredVega.Nym.Values
import ZkCredVega.Sha256

/-!
# SHA-256 compressions computed natively

`compress_native` of `sha256_mc.rs` and `compression` of the pseudonym statement's
`gadgets/sha256.rs`. The second records, beside the state, the values that the compression
gadget allocates: sums of several words, deferred to where the next round reads them, with
the number of bits each is given. Both compute the compression function of FIPS 180-4, and
no recorded sum has more bits than it is given.
-/

namespace ZkCredVega

open Circuits Sha256

/-! ## The age circuit's -/

/-- `K`, the table of `compress_native`. -/
def nativeConstants : List UInt32 :=
  [0x428a2f98, 0x71374491, 0xb5c0fbcf, 0xe9b5dba5, 0x3956c25b, 0x59f111f1, 0x923f82a4, 0xab1c5ed5,
   0xd807aa98, 0x12835b01, 0x243185be, 0x550c7dc3, 0x72be5d74, 0x80deb1fe, 0x9bdc06a7, 0xc19bf174,
   0xe49b69c1, 0xefbe4786, 0x0fc19dc6, 0x240ca1cc, 0x2de92c6f, 0x4a7484aa, 0x5cb0a9dc, 0x76f988da,
   0x983e5152, 0xa831c66d, 0xb00327c8, 0xbf597fc7, 0xc6e00bf3, 0xd5a79147, 0x06ca6351, 0x14292967,
   0x27b70a85, 0x2e1b2138, 0x4d2c6dfc, 0x53380d13, 0x650a7354, 0x766a0abb, 0x81c2c92e, 0x92722c85,
   0xa2bfe8a1, 0xa81a664b, 0xc24b8b70, 0xc76c51a3, 0xd192e819, 0xd6990624, 0xf40e3585, 0x106aa070,
   0x19a4c116, 0x1e376c08, 0x2748774c, 0x34b0bcb5, 0x391c0cb3, 0x4ed8aa4a, 0x5b9cca4f, 0x682e6ff3,
   0x748f82ee, 0x78a5636f, 0x84c87814, 0x8cc70208, 0x90befffa, 0xa4506ceb, 0xbef9a3f7, 0xc67178f2]

def fromBeBytes (b0 b1 b2 b3 : UInt8) : UInt32 := .ofNat (bytesNat [b0, b1, b2, b3])

/-- Word `i` of the schedule, from the words before it. -/
def nativeScheduleWord (w : List UInt32) (i : ℕ) : UInt32 :=
  let x := w.getD (i - 15) 0
  let y := w.getD (i - 2) 0
  let s0 := rotr x 7 ^^^ rotr x 18 ^^^ (x >>> 3)
  let s1 := rotr y 17 ^^^ rotr y 19 ^^^ (y >>> 10)
  w.getD (i - 16) 0 + s0 + w.getD (i - 7) 0 + s1

/-- The schedule, written into an array of 64 words. -/
def nativeSchedule (block : List UInt8) : List UInt32 :=
  let w := (List.range 16).foldl
    (fun (w : List UInt32) i => w.set i (fromBeBytes (block.getD (i * 4) 0) (block.getD (i * 4 + 1) 0)
      (block.getD (i * 4 + 2) 0) (block.getD (i * 4 + 3) 0)))
    (List.replicate 64 0)
  (List.range' 16 48).foldl (fun w i => w.set i (nativeScheduleWord w i)) w

def nativeRound (s : HashState) (k w : UInt32) : HashState :=
  let s1 := rotr s.e 6 ^^^ rotr s.e 11 ^^^ rotr s.e 25
  let ch := (s.e &&& s.f) ^^^ (~~~s.e &&& s.g)
  let t1 := s.h + s1 + ch + k + w
  let s0 := rotr s.a 2 ^^^ rotr s.a 13 ^^^ rotr s.a 22
  let maj := (s.a &&& s.b) ^^^ (s.a &&& s.c) ^^^ (s.b &&& s.c)
  let t2 := s0 + maj
  { a := t1 + t2, b := s.a, c := s.b, d := s.c, e := s.d + t1, f := s.e, g := s.f, h := s.g }

/-- SHA-256's compression function, out of circuit. -/
def compressNative (h : HashState) (block : Bytes 64) : HashState :=
  let w := nativeSchedule block.val
  let r := (List.range 64).foldl (fun s i => nativeRound s (nativeConstants.getD i 0) (w.getD i 0)) h
  { a := h.a + r.a, b := h.b + r.b, c := h.c + r.c, d := h.d + r.d,
    e := h.e + r.e, f := h.f + r.f, g := h.g + r.g, h := h.h + r.h }

/-! ## The pseudonym statement's -/

namespace Nym

/-- `ROUND_CONSTANTS` of the pseudonym statement's gadgets. -/
def roundConstants : List UInt32 :=
  [0x428a2f98, 0x71374491, 0xb5c0fbcf, 0xe9b5dba5, 0x3956c25b, 0x59f111f1, 0x923f82a4, 0xab1c5ed5,
   0xd807aa98, 0x12835b01, 0x243185be, 0x550c7dc3, 0x72be5d74, 0x80deb1fe, 0x9bdc06a7, 0xc19bf174,
   0xe49b69c1, 0xefbe4786, 0x0fc19dc6, 0x240ca1cc, 0x2de92c6f, 0x4a7484aa, 0x5cb0a9dc, 0x76f988da,
   0x983e5152, 0xa831c66d, 0xb00327c8, 0xbf597fc7, 0xc6e00bf3, 0xd5a79147, 0x06ca6351, 0x14292967,
   0x27b70a85, 0x2e1b2138, 0x4d2c6dfc, 0x53380d13, 0x650a7354, 0x766a0abb, 0x81c2c92e, 0x92722c85,
   0xa2bfe8a1, 0xa81a664b, 0xc24b8b70, 0xc76c51a3, 0xd192e819, 0xd6990624, 0xf40e3585, 0x106aa070,
   0x19a4c116, 0x1e376c08, 0x2748774c, 0x34b0bcb5, 0x391c0cb3, 0x4ed8aa4a, 0x5b9cca4f, 0x682e6ff3,
   0x748f82ee, 0x78a5636f, 0x84c87814, 0x8cc70208, 0x90befffa, 0xa4506ceb, 0xbef9a3f7, 0xc67178f2]

/-- What the compression records, in the order of the gadget's allocations: the two XORs of a
sigma function, the second with its `n` low bits; the choice; a sum, with its `n` low bits; and the
bits of the majority, each with the AND of `b` and `c`. -/
inductive Recorded where
  | sigma (first second : UInt32) (n : ℕ)
  | choice (ch : UInt32)
  | sum (value n : ℕ)
  | majority (maj bc : UInt32)

section Record

variable {F : Type} [Field F]

/-- The `n` low bits of `v`, least significant first. -/
def Values.lowBits (values : Values F) (v n : ℕ) : Values F :=
  values ++ (List.range n).map fun i => if v.testBit i then 1 else 0

def Recorded.push (values : Values F) : Recorded → Values F
  | sigma first second n => (values.lowBits first.toNat 32).lowBits second.toNat n
  | choice ch => values.lowBits ch.toNat 32
  | sum value n => values.lowBits value n
  | majority maj bc => (List.range 32).foldl
      (fun values k => (values.bit (maj.toNat.testBit k)).bit (bc.toNat.testBit k)) values

end Record

/-- Word `i` of the schedule, with what it records. The sum is an exact integer: it stays far below
`2 ^ 64`. -/
def scheduleStep (t : List Recorded × List UInt32) (i : ℕ) : List Recorded × List UInt32 :=
  let x := t.2.getD (i - 15) 0
  let first0 := rotr x 7 ^^^ rotr x 18
  let s0 := first0 ^^^ (x >>> 3)
  let y := t.2.getD (i - 2) 0
  let first1 := rotr y 17 ^^^ rotr y 19
  let s1 := first1 ^^^ (y >>> 10)
  let sum := (t.2.getD (i - 16) 0).toNat + s0.toNat + (t.2.getD (i - 7) 0).toNat + s1.toNat
  (t.1 ++ [.sigma first0 s0 29, .sigma first1 s1 22, .sum sum 34], t.2.set i (.ofNat sum))

/-- The registers between rounds, with the sums that give `e` and `a` still to be added. -/
structure Registers where
  state : HashState
  deferred : Option (ℕ × ℕ)

/-- One round: the deferred sums are recorded and added where the round reads `e` and `a`. -/
def roundStep (w : List UInt32) (t : List Recorded × Registers) (i : ℕ) : List Recorded × Registers :=
  let s := t.2.state
  let e := match t.2.deferred with
    | some (eSum, _) => UInt32.ofNat eSum
    | none => s.e
  let eRecord := match t.2.deferred with
    | some (eSum, _) => [Recorded.sum eSum 35]
    | none => []
  let firstE := rotr e 6 ^^^ rotr e 11
  let s1 := firstE ^^^ rotr e 25
  let ch := (e &&& s.f) ^^^ (~~~e &&& s.g)
  let temp1 := s.h.toNat + s1.toNat + ch.toNat + (roundConstants.getD i 0).toNat + (w.getD i 0).toNat
  let a := match t.2.deferred with
    | some (_, aSum) => UInt32.ofNat aSum
    | none => s.a
  let aRecord := match t.2.deferred with
    | some (_, aSum) => [Recorded.sum aSum 35]
    | none => []
  let firstA := rotr a 2 ^^^ rotr a 13
  let s0 := firstA ^^^ rotr a 22
  let maj := (a &&& s.b) ^^^ (a &&& s.c) ^^^ (s.b &&& s.c)
  let temp2 := s0.toNat + maj.toNat
  (t.1 ++ eRecord ++ [.sigma firstE s1 32, .choice ch] ++ aRecord ++
      [.sigma firstA s0 32, .majority maj (s.b &&& s.c)],
    { state := { a := a, b := a, c := s.b, d := s.c, e := e, f := e, g := s.f, h := s.g }
      deferred := some (s.d.toNat + temp1, temp1 + temp2) })

/-- The sums of the new state, with their numbers of bits. -/
def newSums (state r : HashState) (eSum aSum : ℕ) : List (ℕ × ℕ) :=
  [(aSum + state.a.toNat, 35), (state.b.toNat + r.b.toNat, 33), (state.c.toNat + r.c.toNat, 33),
    (state.d.toNat + r.d.toNat, 33), (eSum + state.e.toNat, 35), (state.f.toNat + r.f.toNat, 33),
    (state.g.toNat + r.g.toNat, 33), (state.h.toNat + r.h.toNat, 33)]

def stateOf (words : List UInt32) : HashState :=
  { a := words.getD 0 0, b := words.getD 1 0, c := words.getD 2 0, d := words.getD 3 0,
    e := words.getD 4 0, f := words.getD 5 0, g := words.getD 6 0, h := words.getD 7 0 }

abbrev BlockWords : Type := { words : List UInt32 // words.length = 16 }

def scheduled (block : BlockWords) : List Recorded × List UInt32 :=
  (List.range' 16 48).foldl scheduleStep ([], block.val ++ List.replicate 48 0)

/-- The registers after `n` rounds, with everything recorded until then. -/
def roundsAfter (block : BlockWords) (state : HashState) (n : ℕ) : List Recorded × Registers :=
  (List.range n).foldl (roundStep (scheduled block).2) ((scheduled block).1, ⟨state, none⟩)

/-- What `compression` records, and the state after it. -/
def compressionRecords (block : BlockWords) (state : HashState) : Outcome (List Recorded × HashState) :=
  let rounds := roundsAfter block state 64
  match rounds.2.deferred with
  | some (eSum, aSum) =>
    let sums := newSums state rounds.2.state eSum aSum
    pure (rounds.1 ++ sums.map fun t => .sum t.1 t.2, stateOf (sums.map fun t => .ofNat t.1))
  | none => .error .panic

/-- Pushes the values of the compression of `block` from `state`, and returns the state after it. -/
def compression {F : Type} [Field F] (values : Values F) (block : BlockWords) (state : HashState) :
    Outcome (Values F × HashState) := do
  let t ← compressionRecords block state
  pure (t.1.foldl Recorded.push values, t.2)

end Nym

/-! ## The schedules -/

/-- The first `16 + t` words of the schedule of FIPS 180-4. -/
def scheduleUpTo (words : List UInt32) (t : ℕ) : List UInt32 :=
  (List.range t).foldl (fun w t => w ++ [scheduleWord w t]) words

theorem scheduleUpTo_succ (words : List UInt32) (t : ℕ) :
    scheduleUpTo words (t + 1) = scheduleUpTo words t ++ [scheduleWord (scheduleUpTo words t) t] := by
  rw [scheduleUpTo, List.range_succ, List.foldl_append]
  rfl

theorem length_scheduleUpTo {words : List UInt32} (h : words.length = 16) (t : ℕ) :
    (scheduleUpTo words t).length = 16 + t := by
  induction t with
  | zero => exact h
  | succ t ih => rw [scheduleUpTo_succ, List.length_append, ih]; rfl

theorem getD_scheduleUpTo {words : List UInt32} (hwords : words.length = 16) {i t : ℕ} (h : i < 16 + t)
    (zeros : List UInt32) : (scheduleUpTo words t ++ zeros).getD i 0 = (scheduleUpTo words t).getD i 0 := by
  have hlen : i < (scheduleUpTo words t).length := by rwa [length_scheduleUpTo hwords]
  rw [List.getD_eq_getElem?_getD, List.getElem?_append_left hlen, ← List.getD_eq_getElem?_getD]

/-- A loop that writes word `16 + t` of an array from the words before it gives the schedule. -/
theorem foldl_schedule {σ : Type} (w : σ → List UInt32) {words : List UInt32} (hwords : words.length = 16)
    {step : σ → ℕ → σ}
    (hstep : ∀ (s : σ) (t : ℕ) (zeros : List UInt32), w s = scheduleUpTo words t ++ zeros →
      w (step s (16 + t)) = (w s).set (16 + t) (scheduleWord (scheduleUpTo words t) t))
    {s : σ} (hs : w s = words ++ List.replicate 48 0) {t : ℕ} (ht : t ≤ 48) :
    w ((List.range' 16 t).foldl step s) = scheduleUpTo words t ++ List.replicate (48 - t) 0 := by
  induction t with
  | zero => exact hs
  | succ t ih =>
    have hzeros : (List.replicate (48 - t) 0 : List UInt32) = 0 :: List.replicate (48 - (t + 1)) 0 := by
      rw [← List.replicate_succ]
      congr 1
      omega
    have hbefore := ih (by omega)
    rw [List.range'_1_concat, List.foldl_append, List.foldl_cons, List.foldl_nil, hstep _ t _ hbefore, hbefore,
      hzeros, List.set_append_right _ _ (by rw [length_scheduleUpTo hwords]), length_scheduleUpTo hwords,
      Nat.sub_self, List.set_cons_zero, scheduleUpTo_succ, List.append_assoc, List.singleton_append]

theorem foldl_set_range (f : ℕ → UInt32) {n m : ℕ} (h : n ≤ m) :
    (List.range n).foldl (fun (w : List UInt32) i => w.set i (f i)) (List.replicate m 0) =
      (List.range n).map f ++ List.replicate (m - n) 0 := by
  induction n with
  | zero => rfl
  | succ n ih =>
    have hzeros : (List.replicate (m - n) 0 : List UInt32) = 0 :: List.replicate (m - (n + 1)) 0 := by
      rw [← List.replicate_succ]
      congr 1
      omega
    rw [List.range_succ, List.foldl_append, List.foldl_cons, List.foldl_nil, ih (by omega), hzeros,
      List.set_append_right _ _ (by simp), List.length_map, List.length_range, Nat.sub_self, List.set_cons_zero,
      List.map_append, List.append_assoc]
    rfl

theorem fromBeBytes_eq {block : List UInt8} {i : ℕ} (h : 4 * i + 4 ≤ block.length) :
    fromBeBytes (block.getD (i * 4) 0) (block.getD (i * 4 + 1) 0) (block.getD (i * 4 + 2) 0)
      (block.getD (i * 4 + 3) 0) = wordAt block i := by
  have hbytes : (block.drop (4 * i)).take 4 = [block.getD (4 * i) 0, block.getD (4 * i + 1) 0,
      block.getD (4 * i + 2) 0, block.getD (4 * i + 3) 0] := by
    have hget : ∀ k < 4, block.getD (4 * i + k) 0 = ((block.drop (4 * i)).take 4).getD k 0 := by
      intro k hk
      rw [List.getD_eq_getElem?_getD, List.getD_eq_getElem?_getD, List.getElem?_take_of_lt hk, List.getElem?_drop]
    have hlen : ((block.drop (4 * i)).take 4).length = 4 := by
      rw [List.length_take, List.length_drop]
      omega
    rw [← Nat.add_zero (4 * i), hget 0 (by decide), Nat.add_zero, hget 1 (by decide), hget 2 (by decide),
      hget 3 (by decide)]
    match (block.drop (4 * i)).take 4, hlen with
    | [_, _, _, _], _ => rfl
  rw [Nat.mul_comm i 4, fromBeBytes, wordAt, hbytes]

theorem nativeScheduleWord_eq {words : List UInt32} (hwords : words.length = 16) (t : ℕ) (zeros : List UInt32) :
    nativeScheduleWord (scheduleUpTo words t ++ zeros) (16 + t) = scheduleWord (scheduleUpTo words t) t := by
  have h15 : 16 + t - 15 = t + 1 := by omega
  have h2 : 16 + t - 2 = t + 14 := by omega
  have h16 : 16 + t - 16 = t := by omega
  have h7 : 16 + t - 7 = t + 9 := by omega
  simp only [nativeScheduleWord, h15, h2, h16, h7]
  rw [getD_scheduleUpTo hwords (by omega), getD_scheduleUpTo hwords (by omega), getD_scheduleUpTo hwords (by omega),
    getD_scheduleUpTo hwords (by omega), scheduleWord]
  ac_rfl

def blockWords (block : List UInt8) : List UInt32 := (List.range 16).map (wordAt block)

theorem length_blockWords (block : List UInt8) : (blockWords block).length = 16 := by
  rw [blockWords, List.length_map, List.length_range]

theorem nativeSchedule_eq (block : Bytes 64) : nativeSchedule block.val = schedule block.val := by
  have hfirst : ((List.range 16).foldl
      (fun (w : List UInt32) i => w.set i (fromBeBytes (block.val.getD (i * 4) 0) (block.val.getD (i * 4 + 1) 0)
        (block.val.getD (i * 4 + 2) 0) (block.val.getD (i * 4 + 3) 0)))
      (List.replicate 64 0)) = blockWords block.val ++ List.replicate 48 0 := by
    rw [foldl_set_range _ (by decide), blockWords]
    congr 1
    apply List.map_congr_left
    intro i hi
    have hi := List.mem_range.mp hi
    exact fromBeBytes_eq (by rw [block.property]; omega)
  have hloop : ((List.range' 16 48).foldl (fun w i => w.set i (nativeScheduleWord w i))
      (blockWords block.val ++ List.replicate 48 0)) =
        scheduleUpTo (blockWords block.val) 48 ++ List.replicate (48 - 48) 0 := by
    apply foldl_schedule (fun w => w) (length_blockWords block.val) _ rfl (le_refl 48)
    intro w t zeros hw
    rw [hw, nativeScheduleWord_eq (length_blockWords block.val)]
  simp only [nativeSchedule]
  rw [hfirst, hloop, Nat.sub_self, List.replicate_zero, List.append_nil]
  rfl

/-! ## The rounds -/

/-- The registers after `n` rounds of FIPS 180-4. -/
def eagerAfter (block : List UInt8) (s : HashState) (n : ℕ) : HashState :=
  (List.range n).foldl (fun s i => Sha256.round s (Sha256.roundConstants.getD i 0, (schedule block).getD i 0)) s

theorem length_schedule (block : List UInt8) : (schedule block).length = 64 :=
  length_scheduleUpTo (length_blockWords block) 48

theorem zip_eq_map_range {α β : Type} {xs : List α} {ys : List β} {n : ℕ} (hx : xs.length = n)
    (hy : ys.length = n) (a : α) (b : β) :
    xs.zip ys = (List.range n).map fun i => (xs.getD i a, ys.getD i b) := by
  apply List.ext_getElem
  · simp [hx, hy]
  intro i h1 h2
  have hi : i < n := by simpa using h2
  simp [hx, hy, hi]

theorem compress_eq (s : HashState) (block : List UInt8) :
    Sha256.compress s block =
      { a := s.a + (eagerAfter block s 64).a, b := s.b + (eagerAfter block s 64).b,
        c := s.c + (eagerAfter block s 64).c, d := s.d + (eagerAfter block s 64).d,
        e := s.e + (eagerAfter block s 64).e, f := s.f + (eagerAfter block s 64).f,
        g := s.g + (eagerAfter block s 64).g, h := s.h + (eagerAfter block s 64).h } := by
  have hrounds : (Sha256.roundConstants.zip (schedule block)).foldl Sha256.round s = eagerAfter block s 64 := by
    rw [zip_eq_map_range rfl (length_schedule block) 0 0, List.foldl_map]
    rfl
  rw [Sha256.compress, hrounds]

theorem nativeConstants_eq : nativeConstants = Sha256.roundConstants := rfl

theorem nativeRound_eq (s : HashState) (k w : UInt32) : nativeRound s k w = Sha256.round s (k, w) := rfl

theorem compressNative_eq (s : HashState) (block : Bytes 64) :
    compressNative s block = Sha256.compress s block.val := by
  have hrounds : ((List.range 64).foldl (fun s i => nativeRound s (nativeConstants.getD i 0)
      ((nativeSchedule block.val).getD i 0)) s) = eagerAfter block.val s 64 := by
    simp only [nativeSchedule_eq, nativeConstants_eq, nativeRound_eq, eagerAfter]
  rw [compressNative, compress_eq, hrounds]

namespace Nym

/-- The registers once the deferred sums are added. -/
def Registers.settle (r : Registers) : HashState :=
  match r.deferred with
  | some (eSum, aSum) => { r.state with e := .ofNat eSum, a := .ofNat aSum }
  | none => r.state

theorem roundConstants_eq : roundConstants = Sha256.roundConstants := rfl

/-- A round with deferred sums gives the words of a round that adds eagerly. -/
theorem settle_roundStep (w : List UInt32) (t : List Recorded × Registers) (i : ℕ) :
    (roundStep w t i).2.settle = Sha256.round t.2.settle (Sha256.roundConstants.getD i 0, w.getD i 0) := by
  obtain ⟨records, state, deferred⟩ := t
  cases deferred with
  | none =>
    simp only [roundStep, Registers.settle, Sha256.round, UInt32.ofNat_add, UInt32.ofNat_toNat, roundConstants_eq]
  | some sums =>
    simp only [roundStep, Registers.settle, Sha256.round, UInt32.ofNat_add, UInt32.ofNat_toNat, roundConstants_eq]

theorem scheduleStep_eq {words : List UInt32} (hwords : words.length = 16) {t : List Recorded × List UInt32} {i : ℕ}
    {zeros : List UInt32} (h : t.2 = scheduleUpTo words i ++ zeros) :
    (scheduleStep t (16 + i)).2 = t.2.set (16 + i) (scheduleWord (scheduleUpTo words i) i) := by
  rw [← nativeScheduleWord_eq hwords i zeros, ← h]
  simp only [scheduleStep, nativeScheduleWord, UInt32.ofNat_add, UInt32.ofNat_toNat]

theorem scheduled_eq {block : BlockWords} {bytes : List UInt8} (h : block.val = blockWords bytes) :
    (scheduled block).2 = schedule bytes := by
  have hloop : (scheduled block).2 = scheduleUpTo block.val 48 ++ List.replicate (48 - 48) 0 := by
    apply foldl_schedule Prod.snd block.property _ rfl (le_refl 48)
    intro t i zeros ht
    exact scheduleStep_eq block.property ht
  rw [hloop, Nat.sub_self, List.replicate_zero, List.append_nil, h]
  rfl

theorem roundsAfter_succ (block : BlockWords) (state : HashState) (n : ℕ) :
    roundsAfter block state (n + 1) = roundStep (scheduled block).2 (roundsAfter block state n) n := by
  rw [roundsAfter, List.range_succ, List.foldl_append]
  rfl

/-- After every number of rounds, the deferred additions give the words of eager ones. -/
theorem settle_roundsAfter {block : BlockWords} {bytes : List UInt8} (h : block.val = blockWords bytes)
    (state : HashState) (n : ℕ) : (roundsAfter block state n).2.settle = eagerAfter bytes state n := by
  induction n with
  | zero => rfl
  | succ n ih =>
    have heager : eagerAfter bytes state (n + 1) = Sha256.round (eagerAfter bytes state n)
        (Sha256.roundConstants.getD n 0, (schedule bytes).getD n 0) := by
      rw [eagerAfter, List.range_succ, List.foldl_append]
      rfl
    rw [roundsAfter_succ, settle_roundStep, ih, scheduled_eq h, heager]

/-! ## The widths -/

/-- Nothing of the recorded value is lost: a sum has at most the bits it is given, and the bits that
a sigma function's second XOR leaves out are those of its first. -/
def Recorded.Whole : Recorded → Prop
  | sigma first second n => second.toNat / 2 ^ n = first.toNat / 2 ^ n
  | choice _ => True
  | sum value n => value < 2 ^ n
  | majority _ _ => True

theorem whole_sigma_shift (first x : UInt32) {k : ℕ} (hk : k < 32) :
    (Recorded.sigma first (first ^^^ (x >>> UInt32.ofNat k)) (32 - k)).Whole := by
  have hx := x.toNat_lt
  have hshift : (x >>> UInt32.ofNat k).toNat / 2 ^ (32 - k) = 0 := by
    rw [UInt32.toNat_shiftRight, UInt32.toNat_ofNat', Nat.mod_mod_of_dvd _ (by decide), Nat.mod_eq_of_lt hk,
      Nat.shiftRight_eq_div_pow, Nat.div_div_eq_div_mul, ← pow_add, Nat.add_sub_cancel' hk.le]
    exact Nat.div_eq_of_lt hx
  show (first ^^^ (x >>> UInt32.ofNat k)).toNat / 2 ^ (32 - k) = first.toNat / 2 ^ (32 - k)
  rw [UInt32.toNat_xor, ← Nat.shiftRight_eq_div_pow, Nat.shiftRight_xor_distrib, Nat.shiftRight_eq_div_pow,
    Nat.shiftRight_eq_div_pow, hshift, Nat.xor_zero]

theorem whole_sigma_32 (first second : UInt32) : (Recorded.sigma first second 32).Whole := by
  show second.toNat / 2 ^ 32 = first.toNat / 2 ^ 32
  rw [Nat.div_eq_of_lt second.toNat_lt, Nat.div_eq_of_lt first.toNat_lt]

theorem whole_scheduleStep {t : List Recorded × List UInt32} (h : ∀ r ∈ t.1, r.Whole) (i : ℕ) :
    ∀ r ∈ (scheduleStep t i).1, r.Whole := by
  simp only [scheduleStep, List.forall_mem_append, List.forall_mem_cons, List.not_mem_nil, IsEmpty.forall_iff,
    implies_true, and_true]
  refine ⟨h, whole_sigma_shift _ _ (by decide : 3 < 32), whole_sigma_shift _ _ (by decide : 10 < 32), ?_⟩
  simp only [Recorded.Whole]
  generalize rotr _ 7 ^^^ rotr _ 18 ^^^ _ = s0
  generalize rotr _ 17 ^^^ rotr _ 19 ^^^ _ = s1
  generalize t.2.getD (i - 16) 0 = w16
  generalize t.2.getD (i - 7) 0 = w7
  have := w16.toNat_lt
  have := s0.toNat_lt
  have := w7.toNat_lt
  have := s1.toNat_lt
  omega

/-- The deferred sums have six and seven words. -/
structure Registers.Bounded (r : Registers) : Prop where
  e_le : ∀ t, r.deferred = some t → t.1 ≤ 6 * (2 ^ 32 - 1)
  a_le : ∀ t, r.deferred = some t → t.2 ≤ 7 * (2 ^ 32 - 1)

theorem toNat_le (x : UInt32) : x.toNat ≤ 2 ^ 32 - 1 := Nat.le_sub_one_of_lt x.toNat_lt

theorem five_words_le (h s1 ch k w : UInt32) :
    h.toNat + s1.toNat + ch.toNat + k.toNat + w.toNat ≤ 5 * (2 ^ 32 - 1) := by
  have := toNat_le h
  have := toNat_le s1
  have := toNat_le ch
  have := toNat_le k
  have := toNat_le w
  omega

theorem two_words_le (x y : UInt32) : x.toNat + y.toNat ≤ 2 * (2 ^ 32 - 1) := by
  have := toNat_le x
  have := toNat_le y
  omega

theorem bounded_roundStep (w : List UInt32) (t : List Recorded × Registers) (i : ℕ) :
    (roundStep w t i).2.Bounded := by
  constructor
  · rintro _ ⟨⟩
    exact (Nat.add_le_add (toNat_le _) (five_words_le _ _ _ _ _)).trans (by decide)
  · rintro _ ⟨⟩
    exact (Nat.add_le_add (five_words_le _ _ _ _ _) (two_words_le _ _)).trans (by decide)

theorem whole_roundStep (w : List UInt32) {t : List Recorded × Registers} (h : ∀ r ∈ t.1, r.Whole)
    (hbounded : t.2.Bounded) (i : ℕ) : ∀ r ∈ (roundStep w t i).1, r.Whole := by
  obtain ⟨records, state, deferred⟩ := t
  cases deferred with
  | none =>
    simp only [roundStep, List.forall_mem_append, List.forall_mem_cons, List.not_mem_nil, IsEmpty.forall_iff,
      implies_true, and_true]
    exact ⟨⟨h, whole_sigma_32 _ _, trivial⟩, whole_sigma_32 _ _, trivial⟩
  | some sums =>
    have he : sums.1 < 2 ^ 35 := lt_of_le_of_lt (hbounded.e_le sums rfl) (by decide)
    have ha : sums.2 < 2 ^ 35 := lt_of_le_of_lt (hbounded.a_le sums rfl) (by decide)
    simp only [roundStep, List.forall_mem_append, List.forall_mem_cons, List.not_mem_nil, IsEmpty.forall_iff,
      implies_true, and_true]
    exact ⟨⟨⟨⟨h, he⟩, whole_sigma_32 _ _, trivial⟩, ha⟩, whole_sigma_32 _ _, trivial⟩

theorem whole_scheduled (block : BlockWords) : ∀ r ∈ (scheduled block).1, r.Whole := by
  have hfold : ∀ (is : List ℕ) (t : List Recorded × List UInt32), (∀ r ∈ t.1, r.Whole) →
      ∀ r ∈ (is.foldl scheduleStep t).1, r.Whole := by
    intro is
    induction is with
    | nil => exact fun t h => h
    | cons i is ih => exact fun t h => ih _ (whole_scheduleStep h i)
  apply hfold
  intro r hr
  cases hr

theorem whole_roundsAfter (block : BlockWords) (state : HashState) (n : ℕ) :
    (∀ r ∈ (roundsAfter block state n).1, r.Whole) ∧ (roundsAfter block state n).2.Bounded := by
  induction n with
  | zero =>
    refine ⟨whole_scheduled block, ?_, ?_⟩
    · intro t ht
      cases ht
    · intro t ht
      cases ht
  | succ n ih =>
    rw [roundsAfter_succ]
    exact ⟨whole_roundStep _ ih.1 ih.2 n, bounded_roundStep _ _ n⟩

theorem exists_deferred (block : BlockWords) (state : HashState) (n : ℕ) :
    ∃ sums, (roundsAfter block state (n + 1)).2.deferred = some sums := by
  rw [roundsAfter_succ]
  exact ⟨_, rfl⟩

theorem whole_newSums {state r : HashState} {eSum aSum : ℕ} (he : eSum ≤ 6 * (2 ^ 32 - 1))
    (ha : aSum ≤ 7 * (2 ^ 32 - 1)) : ∀ t ∈ newSums state r eSum aSum, t.1 < 2 ^ t.2 := by
  have htwo : ∀ x y : UInt32, x.toNat + y.toNat < 2 ^ 33 := fun x y =>
    lt_of_le_of_lt (two_words_le x y) (by decide)
  simp only [newSums, List.forall_mem_cons, List.not_mem_nil, IsEmpty.forall_iff, implies_true, and_true]
  refine ⟨?_, htwo _ _, htwo _ _, htwo _ _, ?_, htwo _ _, htwo _ _, htwo _ _⟩
  · exact lt_of_le_of_lt (Nat.add_le_add ha (toNat_le _)) (by decide)
  · exact lt_of_le_of_lt (Nat.add_le_add he (toNat_le _)) (by decide)

theorem compressionRecords_spec {block : BlockWords} {bytes : List UInt8} (h : block.val = blockWords bytes)
    (state : HashState) :
    ∃ records, compressionRecords block state = .ok (records, Sha256.compress state bytes) ∧
      ∀ r ∈ records, r.Whole := by
  obtain ⟨⟨eSum, aSum⟩, hdeferred⟩ := exists_deferred block state 63
  obtain ⟨hwhole, hbounded⟩ := whole_roundsAfter block state 64
  have hsums : ∀ t ∈ newSums state (roundsAfter block state 64).2.state eSum aSum, t.1 < 2 ^ t.2 :=
    whole_newSums (hbounded.e_le _ hdeferred) (hbounded.a_le _ hdeferred)
  have hsettle := settle_roundsAfter h state 64
  rw [Registers.settle, hdeferred] at hsettle
  refine ⟨(roundsAfter block state 64).1 ++ (newSums state (roundsAfter block state 64).2.state eSum aSum).map
    fun t => .sum t.1 t.2, ?_, ?_⟩
  · simp only [compressionRecords, hdeferred]
    have hstate : stateOf ((newSums state (roundsAfter block state 64).2.state eSum aSum).map
        fun t => .ofNat t.1) = Sha256.compress state bytes := by
      rw [compress_eq, ← hsettle]
      simp only [newSums, stateOf, List.map_cons, List.map_nil, List.getD_cons_zero, List.getD_cons_succ,
        UInt32.ofNat_add, UInt32.ofNat_toNat, UInt32.add_comm (UInt32.ofNat aSum), UInt32.add_comm (UInt32.ofNat eSum)]
    rw [hstate]
    rfl
  · rw [List.forall_mem_append, List.forall_mem_map]
    exact ⟨hwhole, hsums⟩

def wordsOf (block : Bytes 64) : BlockWords := ⟨blockWords block.val, length_blockWords block.val⟩

/-- Both native compressions are the compression function of FIPS 180-4. The one that defers the sums
of `a` and `e` has, after every round, the words of eager additions, and records every sum with
enough bits. -/
theorem compressions_agree (state : HashState) (block : Bytes 64) :
    compressNative state block = Sha256.compress state block.val ∧
      (∀ {F : Type} [Field F] (values : Values F), ∃ after, compression values (wordsOf block) state =
        .ok (after, Sha256.compress state block.val)) ∧
      (∃ records, compressionRecords (wordsOf block) state = .ok (records, Sha256.compress state block.val) ∧
        ∀ r ∈ records, r.Whole) ∧
      ∀ n, (roundsAfter (wordsOf block) state n).2.settle = eagerAfter block.val state n := by
  have hrecords := compressionRecords_spec (rfl : (wordsOf block).val = blockWords block.val) state
  refine ⟨compressNative_eq state block, ?_, hrecords, settle_roundsAfter rfl state⟩
  intro F _ values
  obtain ⟨records, hrun, -⟩ := hrecords
  exact ⟨_, by rw [compression, hrun]; rfl⟩

end Nym

end ZkCredVega
