import ZkCredVega.Circuit.Radix

/-!
# SHA-256

The hash function of FIPS 180-4 over byte strings: the specification the
hashing circuits are measured against.
-/

namespace ZkCredVega.Sha256

open Circuits

/-- The chaining value: eight words. -/
structure HashState where
  a : UInt32
  b : UInt32
  c : UInt32
  d : UInt32
  e : UInt32
  f : UInt32
  g : UInt32
  h : UInt32
deriving DecidableEq, Repr

def iv : HashState :=
  { a := 0x6a09e667, b := 0xbb67ae85, c := 0x3c6ef372, d := 0xa54ff53a,
    e := 0x510e527f, f := 0x9b05688c, g := 0x1f83d9ab, h := 0x5be0cd19 }

def roundConstants : List UInt32 :=
  [0x428a2f98, 0x71374491, 0xb5c0fbcf, 0xe9b5dba5, 0x3956c25b, 0x59f111f1, 0x923f82a4, 0xab1c5ed5,
   0xd807aa98, 0x12835b01, 0x243185be, 0x550c7dc3, 0x72be5d74, 0x80deb1fe, 0x9bdc06a7, 0xc19bf174,
   0xe49b69c1, 0xefbe4786, 0x0fc19dc6, 0x240ca1cc, 0x2de92c6f, 0x4a7484aa, 0x5cb0a9dc, 0x76f988da,
   0x983e5152, 0xa831c66d, 0xb00327c8, 0xbf597fc7, 0xc6e00bf3, 0xd5a79147, 0x06ca6351, 0x14292967,
   0x27b70a85, 0x2e1b2138, 0x4d2c6dfc, 0x53380d13, 0x650a7354, 0x766a0abb, 0x81c2c92e, 0x92722c85,
   0xa2bfe8a1, 0xa81a664b, 0xc24b8b70, 0xc76c51a3, 0xd192e819, 0xd6990624, 0xf40e3585, 0x106aa070,
   0x19a4c116, 0x1e376c08, 0x2748774c, 0x34b0bcb5, 0x391c0cb3, 0x4ed8aa4a, 0x5b9cca4f, 0x682e6ff3,
   0x748f82ee, 0x78a5636f, 0x84c87814, 0x8cc70208, 0x90befffa, 0xa4506ceb, 0xbef9a3f7, 0xc67178f2]

/-! ## The compression function -/

def rotr (x : UInt32) (n : UInt32) : UInt32 := (x >>> n) ||| (x <<< (32 - n))

/-- Word `i` of a block, big-endian. -/
def wordAt (block : List UInt8) (i : ℕ) : UInt32 :=
  .ofNat (bytesNat ((block.drop (4 * i)).take 4))

/-- The word that follows the schedule `w` of `t + 16` words. -/
def scheduleWord (w : List UInt32) (t : ℕ) : UInt32 :=
  let s0 := w.getD (t + 1) 0
  let s1 := w.getD (t + 14) 0
  (rotr s1 17 ^^^ rotr s1 19 ^^^ (s1 >>> 10)) + w.getD (t + 9) 0 +
    (rotr s0 7 ^^^ rotr s0 18 ^^^ (s0 >>> 3)) + w.getD t 0

def schedule (block : List UInt8) : List UInt32 :=
  (List.range 48).foldl (fun w t => w ++ [scheduleWord w t]) ((List.range 16).map (wordAt block))

def round (s : HashState) (kw : UInt32 × UInt32) : HashState :=
  let t1 := s.h + (rotr s.e 6 ^^^ rotr s.e 11 ^^^ rotr s.e 25) +
    ((s.e &&& s.f) ^^^ (~~~s.e &&& s.g)) + kw.1 + kw.2
  let t2 := (rotr s.a 2 ^^^ rotr s.a 13 ^^^ rotr s.a 22) +
    ((s.a &&& s.b) ^^^ (s.a &&& s.c) ^^^ (s.b &&& s.c))
  { a := t1 + t2, b := s.a, c := s.b, d := s.c, e := s.d + t1, f := s.e, g := s.f, h := s.g }

def compress (s : HashState) (block : List UInt8) : HashState :=
  let r := (roundConstants.zip (schedule block)).foldl round s
  { a := s.a + r.a, b := s.b + r.b, c := s.c + r.c, d := s.d + r.d,
    e := s.e + r.e, f := s.f + r.f, g := s.g + r.g, h := s.h + r.h }

/-! ## Padding and the hash -/

def be64 (n : ℕ) : List UInt8 := (List.range 8).map fun i => .ofNat (n / 256 ^ (7 - i))

/-- The message, a marker byte, zeros up to a block boundary less eight, and the bit length. -/
def pad (m : List UInt8) : List UInt8 :=
  m ++ [0x80] ++ List.replicate ((119 - m.length % 64) % 64) 0 ++ be64 (8 * m.length)

def blockAt (buf : List UInt8) (i : ℕ) : List UInt8 := (buf.drop (64 * i)).take 64

def compressAll (s : HashState) (blocks : List (List UInt8)) : HashState := blocks.foldl compress s

/-- The chaining values after each block. -/
def chain (s : HashState) : List (List UInt8) → List HashState
  | [] => []
  | b :: bs => compress s b :: chain (compress s b) bs

def blocks (buf : List UInt8) (n : ℕ) : List (List UInt8) := (List.range n).map (blockAt buf)

def wordBytes (w : UInt32) : List UInt8 :=
  [(w >>> 24).toUInt8, (w >>> 16).toUInt8, (w >>> 8).toUInt8, w.toUInt8]

def HashState.bytes (s : HashState) : List UInt8 :=
  [s.a, s.b, s.c, s.d, s.e, s.f, s.g, s.h].flatMap wordBytes

def hash (m : List UInt8) : List UInt8 :=
  (compressAll iv (blocks (pad m) ((pad m).length / 64))).bytes

example : hash [0x61, 0x62, 0x63] =
    [0xba, 0x78, 0x16, 0xbf, 0x8f, 0x01, 0xcf, 0xea, 0x41, 0x41, 0x40, 0xde, 0x5d, 0xae, 0x22, 0x23,
     0xb0, 0x03, 0x61, 0xa3, 0x96, 0x17, 0x7a, 0x9c, 0xb4, 0x10, 0xff, 0x61, 0xf2, 0x00, 0x15, 0xad] := by
  decide +kernel

@[simp] theorem length_be64 (n : ℕ) : (be64 n).length = 8 := by simp [be64]

@[simp] theorem HashState.length_bytes (s : HashState) : s.bytes.length = 32 := by
  simp [HashState.bytes, wordBytes]

@[simp] theorem length_hash (m : List UInt8) : (hash m).length = 32 := by simp [hash]

@[simp] theorem length_chain (s : HashState) (bs : List (List UInt8)) :
    (chain s bs).length = bs.length := by
  induction bs generalizing s with
  | nil => rfl
  | cons b bs ih => simp [chain, ih]

theorem chain_getElem (s : HashState) (bs : List (List UInt8)) {k : ℕ} (hk : k < bs.length) :
    (chain s bs)[k]? = some (compressAll s (bs.take (k + 1))) := by
  induction bs generalizing s k with
  | nil => simp at hk
  | cons b bs ih =>
    cases k with
    | zero => simp [chain, compressAll]
    | succ k =>
      have hk' : k < bs.length := by simpa using hk
      rw [chain, List.getElem?_cons_succ, ih _ hk', List.take_succ_cons, compressAll, compressAll,
        List.foldl_cons]

theorem length_pad (m : List UInt8) : (pad m).length = 64 * ((m.length + 72) / 64) := by
  simp only [pad, List.length_append, List.length_cons, List.length_nil, List.length_replicate,
    length_be64]
  omega

theorem bytesNat_wordBytes (w : UInt32) : bytesNat (wordBytes w) = w.toNat := by
  have hlt := w.toNat_lt
  simp only [bytesNat, wordBytes, List.map_cons, List.map_nil, beNat_cons, beNat_nil,
    List.length_cons, List.length_nil, UInt32.toNat_toUInt8, UInt32.toNat_shiftRight,
    UInt32.reduceToNat, Nat.shiftRight_eq_div_pow, Nat.reduceMod, Nat.reducePow]
  omega

/-- The chaining value whose bytes are given. -/
def HashState.ofBytes (bs : List UInt8) : HashState :=
  { a := wordAt bs 0, b := wordAt bs 1, c := wordAt bs 2, d := wordAt bs 3,
    e := wordAt bs 4, f := wordAt bs 5, g := wordAt bs 6, h := wordAt bs 7 }

theorem HashState.ofBytes_bytes (s : HashState) : ofBytes s.bytes = s := by
  have hword : ∀ w : UInt32, UInt32.ofNat (bytesNat (wordBytes w)) = w := by
    intro w
    rw [bytesNat_wordBytes, UInt32.ofNat_toNat]
  simp only [ofBytes, wordAt, HashState.bytes]
  congr 1 <;> exact hword _

theorem wordBytes_wordAt {bs : List UInt8} {i : ℕ} (h : 4 * i + 4 ≤ bs.length) :
    wordBytes (wordAt bs i) = (bs.drop (4 * i)).take 4 := by
  have hlen : ((bs.drop (4 * i)).take 4).length = 4 := by simp; omega
  apply bytesNat_inj (by simp [wordBytes, hlen])
  have hlt := bytesNat_lt ((bs.drop (4 * i)).take 4)
  rw [hlen] at hlt
  rw [bytesNat_wordBytes, wordAt, UInt32.toNat_ofNat']
  exact Nat.mod_eq_of_lt hlt

theorem HashState.bytes_ofBytes {bs : List UInt8} (h : bs.length = 32) :
    (ofBytes bs).bytes = bs := by
  have hwords : (ofBytes bs).bytes = (List.range 8).flatMap fun i => wordBytes (wordAt bs i) := rfl
  have hchunks : ((List.range 8).flatMap fun i => wordBytes (wordAt bs i)) =
      (List.range 8).flatMap fun i => (bs.drop (4 * i)).take 4 := by
    rw [List.flatMap_def, List.flatMap_def]
    congr 1
    apply List.map_congr_left
    intro i hi
    have hi := List.mem_range.mp hi
    exact wordBytes_wordAt (by omega)
  rw [hwords, hchunks, flatMap_range_chunks, List.take_of_length_le (by omega)]

end ZkCredVega.Sha256
