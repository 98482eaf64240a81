import Mathlib.Data.Nat.Digits.Lemmas
import Mathlib.Algebra.BigOperators.Ring.List
import Mathlib.Data.UInt
import Mathlib.Tactic.Ring

/-!
# Numbers written in a base

`beNat b ds` is the number whose base-`b` digits are `ds`, most significant
first, and `bytesNat` reads a byte string that way. `bitsOf` lists the bits of a
byte, most significant first, and `bytesBits` those of a byte string; `beBits` and
`leBits` read a list of bits as a number, from either end.
-/

namespace Circuits

-- The bases, as numerals of a ring.
instance atLeastTwo_bitBase : Nat.AtLeastTwo (nat_lit 2) := ⟨le_rfl⟩

instance atLeastTwo_byteBase : Nat.AtLeastTwo (nat_lit 256) := ⟨by decide⟩

/-! ## Digits -/

/-- The number with the digits `ds` in base `b`, most significant first. -/
def beNat (b : ℕ) (ds : List ℕ) : ℕ := Nat.ofDigits b ds.reverse

@[simp] theorem beNat_nil (b : ℕ) : beNat b [] = 0 := rfl

theorem beNat_append (b : ℕ) (xs ys : List ℕ) :
    beNat b (xs ++ ys) = b ^ ys.length * beNat b xs + beNat b ys := by
  simp only [beNat, List.reverse_append, Nat.ofDigits_append, List.length_reverse]
  omega

theorem beNat_cons (b d : ℕ) (ds : List ℕ) :
    beNat b (d :: ds) = b ^ ds.length * d + beNat b ds := by
  have h := beNat_append b [d] ds
  simpa [beNat] using h

theorem beNat_concat (b d : ℕ) (ds : List ℕ) : beNat b (ds ++ [d]) = b * beNat b ds + d := by
  simpa [beNat] using beNat_append b ds [d]

theorem beNat_lt {b : ℕ} {ds : List ℕ} (hb : 1 < b) (h : ∀ d ∈ ds, d < b) :
    beNat b ds < b ^ ds.length := by
  have := Nat.ofDigits_lt_base_pow_length (l := ds.reverse) hb (by simpa using h)
  simpa [beNat] using this

theorem beNat_inj {b : ℕ} {xs ys : List ℕ} (hb : 1 < b) (hlen : xs.length = ys.length)
    (hx : ∀ d ∈ xs, d < b) (hy : ∀ d ∈ ys, d < b) (h : beNat b xs = beNat b ys) : xs = ys := by
  have hlen' : xs.reverse.length = ys.reverse.length := by simpa using hlen
  have := Nat.ofDigits_inj_of_len_eq hb hlen' (by simpa using hx) (by simpa using hy) h
  simpa using congrArg List.reverse this

/-- The number of `n` digits given by their positions, as a weighted sum. -/
theorem sum_range_pow_mul {R : Type} [CommSemiring R] (b n : ℕ) (f : ℕ → ℕ) :
    ((List.range n).map fun i => (b : R) ^ (n - 1 - i) * (f i : R)).sum =
      (beNat b ((List.range n).map f) : ℕ) := by
  induction n with
  | zero => simp
  | succ n ih =>
    have hmap : ((List.range n).map fun i => (b : R) ^ (n + 1 - 1 - i) * (f i : R)) =
        (List.range n).map fun i => (b : R) * ((b : R) ^ (n - 1 - i) * (f i : R)) := by
      refine List.map_congr_left fun i hi => ?_
      have hi : i < n := List.mem_range.mp hi
      rw [← mul_assoc, ← pow_succ', show n + 1 - 1 - i = n - 1 - i + 1 by omega]
    rw [List.range_succ, List.map_append, List.sum_append, hmap, List.sum_map_mul_left, ih,
      List.map_append, List.map_singleton, List.map_singleton, beNat_concat]
    simp

theorem sum_zipIdx_eq {α R : Type} [AddMonoid R] (f : α → ℕ → R) (d : α) (xs : List α) :
    (xs.zipIdx.map fun t => f t.1 t.2).sum =
      ((List.range xs.length).map fun i => f (xs.getD i d) i).sum := by
  congr 1
  refine List.ext_getElem (by simp) fun i h1 h2 => ?_
  have hi : i < xs.length := by simpa using h1
  simp [hi]

/-! ## Bits -/

/-- The number of a list of bits, most significant first. -/
def beBits (xs : List Bool) : ℕ := beNat 2 (xs.map Bool.toNat)

/-- The number of a list of bits, least significant first. -/
def leBits (xs : List Bool) : ℕ := Nat.ofDigits 2 (xs.map Bool.toNat)

@[simp] theorem beBits_nil : beBits [] = 0 := rfl

@[simp] theorem leBits_nil : leBits [] = 0 := rfl

theorem leBits_reverse (xs : List Bool) : leBits xs.reverse = beBits xs := by
  simp [leBits, beBits, beNat]

theorem leBits_cons (x : Bool) (xs : List Bool) : leBits (x :: xs) = x.toNat + 2 * leBits xs := by
  simp [leBits, Nat.ofDigits_cons]

theorem beBits_append (xs ys : List Bool) :
    beBits (xs ++ ys) = 2 ^ ys.length * beBits xs + beBits ys := by
  simp [beBits, beNat_append]

theorem leBits_append (xs ys : List Bool) :
    leBits (xs ++ ys) = leBits xs + 2 ^ xs.length * leBits ys := by
  simp [leBits, Nat.ofDigits_append]

theorem beBits_lt (xs : List Bool) : beBits xs < 2 ^ xs.length := by
  have hlt : ∀ d ∈ xs.map Bool.toNat, d < 2 := by
    intro d hd
    obtain ⟨x, _, rfl⟩ := List.mem_map.mp hd
    exact x.toNat_lt
  simpa [beBits] using beNat_lt (by decide) hlt

theorem leBits_lt (xs : List Bool) : leBits xs < 2 ^ xs.length := by
  have := beBits_lt xs.reverse
  rwa [← leBits_reverse, List.reverse_reverse, List.length_reverse] at this

theorem leBits_inj {xs ys : List Bool} (hlen : xs.length = ys.length)
    (h : leBits xs = leBits ys) : xs = ys := by
  induction xs generalizing ys with
  | nil => exact (List.eq_nil_of_length_eq_zero hlen.symm).symm
  | cons x xs ih =>
    cases ys with
    | nil => simp at hlen
    | cons y ys =>
      rw [leBits_cons, leBits_cons] at h
      have hx := x.toNat_lt
      have hy := y.toNat_lt
      obtain rfl : x = y := by
        cases x <;> cases y <;> simp_all <;> omega
      rw [ih (by simpa using hlen) (by omega)]

theorem beBits_inj {xs ys : List Bool} (hlen : xs.length = ys.length)
    (h : beBits xs = beBits ys) : xs = ys := by
  rw [← leBits_reverse, ← leBits_reverse] at h
  simpa using leBits_inj (by simpa using hlen) h

theorem sum_zipIdx_beBits {R : Type} [CommSemiring R] (xs : List Bool) :
    (xs.zipIdx.map fun t => (2 : R) ^ (xs.length - 1 - t.2) * (t.1.toNat : R)).sum =
      (beBits xs : ℕ) := by
  rw [sum_zipIdx_eq (fun x i => (2 : R) ^ (xs.length - 1 - i) * (x.toNat : R)) false]
  have h := sum_range_pow_mul (R := R) 2 xs.length fun i => (xs.getD i false).toNat
  have hmap : ((List.range xs.length).map fun i => (xs.getD i false).toNat) =
      xs.map Bool.toNat := by
    refine List.ext_getElem (by simp) fun i h1 h2 => ?_
    have hi : i < xs.length := by simpa using h1
    simp [hi]
  rw [hmap] at h
  rw [beBits, ← h]
  norm_num

theorem sum_zipIdx_leBits {R : Type} [CommSemiring R] (xs : List Bool) :
    (xs.zipIdx.map fun t => (2 : R) ^ t.2 * (t.1.toNat : R)).sum = (leBits xs : ℕ) := by
  suffices h : ∀ (xs : List Bool) (k : ℕ),
      ((xs.zipIdx k).map fun t => (2 : R) ^ t.2 * (t.1.toNat : R)).sum =
        2 ^ k * ((leBits xs : ℕ) : R) by
    simpa using h xs 0
  intro xs
  induction xs with
  | nil => simp
  | cons x xs ih =>
    intro k
    rw [List.zipIdx_cons, List.map_cons, List.sum_cons, ih (k + 1), leBits_cons]
    push_cast
    ring

/-- The `n` low bits of a number, least significant first. -/
def toLEBits (n v : ℕ) : List Bool := (List.range n).map v.testBit

@[simp] theorem length_toLEBits (n v : ℕ) : (toLEBits n v).length = n := by simp [toLEBits]

theorem toLEBits_succ (n v : ℕ) : toLEBits (n + 1) v = v.testBit 0 :: toLEBits n (v / 2) := by
  simp [toLEBits, List.range_succ_eq_map, Function.comp_def, Nat.testBit_succ]

theorem leBits_toLEBits {n v : ℕ} (h : v < 2 ^ n) : leBits (toLEBits n v) = v := by
  induction n generalizing v with
  | zero =>
    obtain rfl : v = 0 := by simpa using h
    rfl
  | succ n ih =>
    rw [toLEBits_succ, leBits_cons, ih (by rw [pow_succ] at h; omega), Nat.testBit_zero]
    rcases Nat.mod_two_eq_zero_or_one v with hv | hv <;> simp [hv] <;> omega

theorem toLEBits_leBits (xs : List Bool) : toLEBits xs.length (leBits xs) = xs :=
  leBits_inj (by simp) (leBits_toLEBits (leBits_lt xs))

/-! ## Bytes -/

abbrev Bytes (n : ℕ) := { bs : List UInt8 // bs.length = n }

/-- `[0; n]`. -/
def zeroBytes (n : ℕ) : Bytes n := ⟨List.replicate n 0, List.length_replicate⟩

/-- The pieces of `n` elements, in order; the last may be shorter. -/
def chunks {α : Type} (n : ℕ) (xs : List α) : List (List α) :=
  (List.range ((xs.length + n - 1) / n)).map fun i => (xs.drop (n * i)).take n

@[simp] theorem length_chunks {α : Type} (n : ℕ) (xs : List α) :
    (chunks n xs).length = (xs.length + n - 1) / n := by
  simp [chunks]

@[simp] theorem chunks_nil {α : Type} {n : ℕ} (hn : 0 < n) : chunks n ([] : List α) = [] := by
  rw [chunks, List.length_nil, Nat.div_eq_of_lt (by omega)]
  rfl

theorem chunks_of_ne_nil {α : Type} {n : ℕ} (hn : 0 < n) {xs : List α} (hxs : xs ≠ []) :
    chunks n xs = xs.take n :: chunks n (xs.drop n) := by
  have hpos := List.length_pos_iff.mpr hxs
  have hcount : (xs.length + n - 1) / n = ((xs.drop n).length + n - 1) / n + 1 := by
    rw [List.length_drop, ← Nat.add_div_right _ hn]
    rcases Nat.lt_or_ge xs.length n with h | h
    · rw [Nat.sub_eq_zero_of_le h.le, show xs.length + n - 1 = xs.length - 1 + n by omega,
        Nat.add_div_right _ hn, Nat.add_div_right _ hn, Nat.div_eq_of_lt (by omega),
        Nat.div_eq_of_lt (by omega)]
    · congr 1
      omega
  rw [chunks, hcount, List.range_succ_eq_map, List.map_cons, List.map_map, Nat.mul_zero, List.drop_zero, chunks]
  congr 1
  apply List.map_congr_left
  intro i _
  rw [Function.comp_apply, List.drop_drop, Nat.mul_succ, Nat.add_comm]

/-- The bits of a byte, most significant first. -/
def bitsOf (b : UInt8) : List Bool := (List.range 8).map fun j => b.toNat.testBit (7 - j)

def bytesBits (bs : List UInt8) : List Bool := bs.flatMap bitsOf

/-- The number of a byte string, most significant byte first. -/
def bytesNat (bs : List UInt8) : ℕ := beNat 256 (bs.map UInt8.toNat)

@[simp] theorem length_bitsOf (b : UInt8) : (bitsOf b).length = 8 := by simp [bitsOf]

@[simp] theorem bytesBits_nil : bytesBits [] = [] := rfl

theorem bytesBits_cons (b : UInt8) (bs : List UInt8) :
    bytesBits (b :: bs) = bitsOf b ++ bytesBits bs := rfl

theorem bytesBits_append (as bs : List UInt8) :
    bytesBits (as ++ bs) = bytesBits as ++ bytesBits bs := by simp [bytesBits]

@[simp] theorem length_bytesBits (bs : List UInt8) : (bytesBits bs).length = 8 * bs.length := by
  induction bs with
  | nil => rfl
  | cons b bs ih => simp [bytesBits_cons, ih]; omega

theorem beBits_bitsOf (b : UInt8) : beBits (bitsOf b) = b.toNat := by
  have h : ∀ n : Fin 256, beBits ((List.range 8).map fun j => n.val.testBit (7 - j)) = n.val := by
    decide +kernel
  exact h ⟨b.toNat, b.toNat_lt⟩

theorem decide_cons_lt (a b : Bool) (as bs : List Bool) :
    decide (a :: as < b :: bs) = ((!a && b) || (!(a ^^ b) && decide (as < bs))) := by
  cases a <;> cases b <;> simp [List.cons_lt_cons_iff]

/-- Bits of one length are in the order of the numbers they write. -/
theorem bits_lt_iff {xs ys : List Bool} (hlen : xs.length = ys.length) : xs < ys ↔ beBits xs < beBits ys := by
  induction xs generalizing ys with
  | nil =>
    obtain rfl := List.length_eq_zero_iff.mp hlen.symm
    simp
  | cons x xs ih =>
    cases ys with
    | nil => cases hlen
    | cons y ys =>
      have hlen' : xs.length = ys.length := Nat.succ.inj hlen
      have hone : ∀ z : Bool, beBits [z] = z.toNat := by decide
      have hx := beBits_append [x] xs
      have hy := beBits_append [y] ys
      have hxs := beBits_lt xs
      have hys := beBits_lt ys
      rw [hlen'] at hx hxs
      rw [List.singleton_append, hone] at hx hy
      rw [List.cons_lt_cons_iff, ih hlen', hx, hy]
      clear hx hy ih
      generalize beBits xs = m at *
      generalize beBits ys = n at *
      have horder : ∀ a b : Bool, a < b ↔ a.toNat < b.toNat := by decide
      have hinj : ∀ a b : Bool, a = b ↔ a.toNat = b.toNat := by decide
      rw [horder, hinj]
      cases x <;> cases y <;> simp only [Bool.toNat_true, Bool.toNat_false, true_and] <;> omega

theorem bitsOf_lt_iff {a b : UInt8} : bitsOf a < bitsOf b ↔ a < b := by
  rw [bits_lt_iff (by simp), beBits_bitsOf, beBits_bitsOf]
  rfl

theorem bitsOf_eq_iff {a b : UInt8} : bitsOf a = bitsOf b ↔ a = b := by
  refine ⟨fun h => ?_, fun h => by rw [h]⟩
  have heq := congrArg beBits h
  rw [beBits_bitsOf, beBits_bitsOf] at heq
  exact UInt8.toNat_inj.mp heq

theorem getD_bytesBits (bs : List UInt8) (i : ℕ) {j : ℕ} (hj : j < 8) :
    (bytesBits bs).getD (8 * i + j) false = (bs.getD i 0).toNat.testBit (7 - j) := by
  induction bs generalizing i with
  | nil => simp
  | cons b bs ih =>
    rw [bytesBits_cons]
    cases i with
    | zero =>
      rw [List.getD_eq_getElem?_getD, List.getElem?_append_left (by simp; omega)]
      simp [bitsOf, hj]
    | succ i =>
      rw [List.getD_eq_getElem?_getD, List.getElem?_append_right (by simp; omega),
        ← List.getD_eq_getElem?_getD, length_bitsOf,
        show 8 * (i + 1) + j - 8 = 8 * i + j by omega, ih i]
      simp

theorem drop_bytesBits (bs : List UInt8) (k : ℕ) :
    (bytesBits bs).drop (8 * k) = bytesBits (bs.drop k) := by
  induction k generalizing bs with
  | zero => simp
  | succ k ih =>
    cases bs with
    | nil => simp
    | cons b bs =>
      have h8 : (bitsOf b ++ bytesBits bs).drop 8 = bytesBits bs := List.drop_left' (by simp)
      rw [bytesBits_cons, List.drop_succ_cons, ← ih, show 8 * (k + 1) = 8 + 8 * k by ring,
        ← List.drop_drop, h8]

theorem take_bytesBits (bs : List UInt8) (k : ℕ) :
    (bytesBits bs).take (8 * k) = bytesBits (bs.take k) := by
  have hsplit : bytesBits bs = bytesBits (bs.take k) ++ bytesBits (bs.drop k) := by
    rw [← bytesBits_append, List.take_append_drop]
  rcases Nat.lt_or_ge k bs.length with h | h
  · rw [hsplit, List.take_left' (by simp; omega)]
  · rw [List.take_of_length_le (by simp; omega), List.take_of_length_le h]

theorem bytesNat_append (as bs : List UInt8) :
    bytesNat (as ++ bs) = 256 ^ bs.length * bytesNat as + bytesNat bs := by
  simp [bytesNat, beNat_append]

theorem toNat_lt_of_mem {bs : List UInt8} {d : ℕ} (hd : d ∈ bs.map UInt8.toNat) : d < 256 := by
  obtain ⟨x, _, rfl⟩ := List.mem_map.mp hd
  exact x.toNat_lt

theorem bytesNat_lt (bs : List UInt8) : bytesNat bs < 256 ^ bs.length := by
  simpa [bytesNat] using beNat_lt (by decide) fun d (hd : d ∈ bs.map UInt8.toNat) =>
    toNat_lt_of_mem hd

theorem bytesNat_inj {as bs : List UInt8} (hlen : as.length = bs.length)
    (h : bytesNat as = bytesNat bs) : as = bs := by
  have := beNat_inj (by decide) (by simpa using hlen) (fun _ => toNat_lt_of_mem)
    (fun _ => toNat_lt_of_mem) h
  exact List.map_injective_iff.mpr (fun a b => UInt8.toNat_inj.mp) this

theorem beBits_bytesBits (bs : List UInt8) : beBits (bytesBits bs) = bytesNat bs := by
  induction bs with
  | nil => rfl
  | cons b bs ih =>
    have hcons : bytesNat (b :: bs) = 256 ^ bs.length * b.toNat + bytesNat bs := by
      simp [bytesNat, beNat_cons]
    rw [bytesBits_cons, beBits_append, ih, beBits_bitsOf, length_bytesBits, hcons, pow_mul]
    norm_num

theorem bytesBits_inj {as bs : List UInt8} (h : bytesBits as = bytesBits bs) : as = bs := by
  have hlen := congrArg List.length h
  simp only [length_bytesBits] at hlen
  refine bytesNat_inj (by omega) ?_
  rw [← beBits_bytesBits, ← beBits_bytesBits, h]

theorem exists_bytesBits {xs : List Bool} {n : ℕ} (h : xs.length = 8 * n) :
    ∃ bs : List UInt8, bs.length = n ∧ bytesBits bs = xs := by
  induction n generalizing xs with
  | zero => exact ⟨[], rfl, (List.eq_nil_of_length_eq_zero (by omega)).symm⟩
  | succ n ih =>
    have hdrop : (xs.drop 8).length = 8 * n := by simp; omega
    obtain ⟨bs, hlen, hbs⟩ := ih hdrop
    have h8 : (xs.take 8).length = 8 := by simp; omega
    have hlt := beBits_lt (xs.take 8)
    rw [h8] at hlt
    refine ⟨UInt8.ofNat (beBits (xs.take 8)) :: bs, by simp [hlen], ?_⟩
    have hbits : bitsOf (UInt8.ofNat (beBits (xs.take 8))) = xs.take 8 := by
      refine beBits_inj (by simp [h8]) ?_
      rw [beBits_bitsOf, UInt8.toNat_ofNat']
      exact Nat.mod_eq_of_lt hlt
    rw [bytesBits_cons, hbits, hbs, List.take_append_drop]

theorem testBit_beBits {xs : List Bool} {i : ℕ} (hi : i < xs.length) :
    (beBits xs).testBit (xs.length - 1 - i) = xs.getD i false := by
  have h := toLEBits_leBits xs.reverse
  rw [leBits_reverse, List.length_reverse] at h
  have hget := congrArg (fun l => l[xs.length - 1 - i]?) h
  have hj : xs.length - 1 - i < xs.length := by omega
  have hk : xs.length - 1 - (xs.length - 1 - i) = i := by omega
  simpa [toLEBits, hj, hk, hi] using hget

theorem testBit_bytesNat {w : List UInt8} {i : ℕ} (hi : i < w.length * 8) :
    (bytesNat w).testBit (w.length * 8 - 1 - i) = (bytesBits w).getD i false := by
  have hlen : (bytesBits w).length = w.length * 8 := by rw [length_bytesBits, Nat.mul_comm]
  rw [← beBits_bytesBits, ← hlen]
  exact testBit_beBits (by omega)

theorem map_getD_range {α : Type} {xs : List α} {d : α} {n : ℕ} (h : xs.length = n) :
    ((List.range n).map fun i => xs.getD i d) = xs := by
  apply List.ext_getElem
  · simp [h]
  intro i h1 h2
  simp [h2]

theorem flatMap_range_chunks {α : Type} (m n : ℕ) (xs : List α) :
    ((List.range n).flatMap fun i => (xs.drop (m * i)).take m) = xs.take (m * n) := by
  induction n with
  | zero => simp
  | succ n ih => rw [List.range_succ, List.flatMap_append, ih, Nat.mul_succ, List.take_add]; simp

theorem flatten_chunks_of_pos {α : Type} {n : ℕ} (hn : 0 < n) (xs : List α) : (chunks n xs).flatten = xs := by
  have hall : xs.length ≤ n * ((xs.length + n - 1) / n) := by
    have hdiv := Nat.div_add_mod (xs.length + n - 1) n
    have hmod := Nat.mod_lt (xs.length + n - 1) hn
    omega
  rw [chunks, ← List.flatMap_def, flatMap_range_chunks, List.take_of_length_le hall]

theorem chunks_flatten {α : Type} {n : ℕ} (hn : 0 < n) {xss : List (List α)} (h : ∀ xs ∈ xss, xs.length = n) :
    chunks n xss.flatten = xss := by
  induction xss with
  | nil => exact chunks_nil hn
  | cons xs xss ih =>
    obtain ⟨hxs, hxss⟩ := List.forall_mem_cons.mp h
    have hne : xs ++ xss.flatten ≠ [] := List.append_ne_nil_of_left_ne_nil (List.ne_nil_of_length_pos (by omega)) _
    rw [List.flatten_cons, chunks_of_ne_nil hn hne, List.take_left' hxs, List.drop_left' hxs, ih hxss]

/-- The bytes whose bits are given; bits short of a byte are dropped. -/
def bytesOfBits : List Bool → List UInt8
  | b0 :: b1 :: b2 :: b3 :: b4 :: b5 :: b6 :: b7 :: bs =>
    .ofNat (beBits [b0, b1, b2, b3, b4, b5, b6, b7]) :: bytesOfBits bs
  | _ => []

theorem bytesOfBits_bytesBits (bs : List UInt8) : bytesOfBits (bytesBits bs) = bs := by
  induction bs with
  | nil => rfl
  | cons b bs ih =>
    have hbyte : UInt8.ofNat (beBits (bitsOf b)) = b := by rw [beBits_bitsOf, UInt8.ofNat_toNat]
    rw [bytesBits_cons]
    exact congrArg₂ List.cons hbyte ih

/-- The last `k` bytes of a number, big-endian. -/
def beBytes (k n : ℕ) : List UInt8 := (List.range k).map fun i => UInt8.ofNat (n / 256 ^ (k - 1 - i))

@[simp] theorem length_beBytes (k n : ℕ) : (beBytes k n).length = k := by simp [beBytes]

theorem beBytes_succ (k n : ℕ) : beBytes (k + 1) n = UInt8.ofNat (n / 256 ^ k) :: beBytes k n := by
  unfold beBytes
  rw [List.range_succ_eq_map, List.map_cons, List.map_map]
  congr 1
  refine List.map_congr_left fun i _ => ?_
  have hi : k + 1 - 1 - (i + 1) = k - 1 - i := by omega
  show UInt8.ofNat (n / 256 ^ (k + 1 - 1 - (i + 1))) = _
  rw [hi]

theorem bytesNat_beBytes (k n : ℕ) : bytesNat (beBytes k n) = n % 256 ^ k := by
  induction k with
  | zero => simp [beBytes, bytesNat, Nat.mod_one]
  | succ k ih =>
    have hcons := bytesNat_append [UInt8.ofNat (n / 256 ^ k)] (beBytes k n)
    have hone : bytesNat [UInt8.ofNat (n / 256 ^ k)] = n / 256 ^ k % 256 := by simp [bytesNat, beNat_cons]
    rw [List.singleton_append, hone, ih, length_beBytes] at hcons
    rw [beBytes_succ, hcons, Nat.mod_pow_succ, Nat.add_comm]

end Circuits
