import ZkCredVega.Claims.Core

/-!
# The digestID codec and its gadget

`encode_cbor_uint` and `decode_cbor_uint` are written apart from each other: the decoder
gives back every encoded value, and it also takes over-long arguments and values past
`MAX_DIGEST_ID`, which the encoder never writes. `extract_digest_id` reads what the decoder
reads, and an honest witness satisfies it on every encoded value.
-/

namespace ZkCredVega

open Circuits Mso

/-! ## The codec -/

theorem bytesNat_one (a : UInt8) : bytesNat [a] = a.toNat := by simp [bytesNat, beNat_cons]

theorem bytesNat_two (a b : UInt8) : bytesNat [a, b] = 256 * a.toNat + b.toNat := by
  simp [bytesNat, beNat_cons]

theorem bytesNat_four (a b c d : UInt8) : bytesNat [a, b, c, d] =
    16777216 * a.toNat + (65536 * b.toNat + (256 * c.toNat + d.toNat)) := by
  simp [bytesNat, beNat_cons]

theorem bytesNat_u16Bytes {v : ℕ} (h : v < 65536) : bytesNat (encodeCborUint.u16Bytes v) = v := by
  rw [encodeCborUint.u16Bytes, bytesNat_two, UInt8.toNat_ofNat', UInt8.toNat_ofNat']
  omega

theorem bytesNat_u32Bytes {v : ℕ} (h : v < 2 ^ 32) :
    bytesNat (encodeCborUint.u16Bytes (v / 65536) ++ encodeCborUint.u16Bytes v) = v := by
  rw [encodeCborUint.u16Bytes, encodeCborUint.u16Bytes]
  show bytesNat [_, _, _, _] = v
  rw [bytesNat_four, UInt8.toNat_ofNat', UInt8.toNat_ofNat', UInt8.toNat_ofNat', UInt8.toNat_ofNat']
  omega

theorem encodeCborUint_cases {v : ℕ} (hv : v ≤ maxDigestId) :
    (v < 24 ∧ lengthClass v = 0 ∧ encodeCborUint v = .ok [UInt8.ofNat v]) ∨
    (24 ≤ v ∧ v < 256 ∧ lengthClass v = 1 ∧ encodeCborUint v = .ok [0x18, UInt8.ofNat v]) ∨
    (256 ≤ v ∧ v < 65536 ∧ lengthClass v = 2 ∧
      encodeCborUint v = .ok (0x19 :: encodeCborUint.u16Bytes v)) ∨
    (65536 ≤ v ∧ lengthClass v = 3 ∧ encodeCborUint v =
      .ok (0x1a :: (encodeCborUint.u16Bytes (v / 65536) ++ encodeCborUint.u16Bytes v))) := by
  unfold encodeCborUint
  rw [if_pos hv]
  by_cases h0 : v < 24
  · have hclass : lengthClass v = 0 := if_pos h0
    refine Or.inl ⟨h0, hclass, ?_⟩
    rw [hclass]
    rfl
  by_cases h1 : v < 256
  · have hclass : lengthClass v = 1 := by rw [lengthClass, if_neg h0, if_pos h1]
    refine Or.inr (Or.inl ⟨by omega, h1, hclass, ?_⟩)
    rw [hclass]
    rfl
  by_cases h2 : v < 65536
  · have hclass : lengthClass v = 2 := by rw [lengthClass, if_neg h0, if_neg h1, if_pos h2]
    refine Or.inr (Or.inr (Or.inl ⟨by omega, h2, hclass, ?_⟩))
    rw [hclass]
    rfl
  · have hclass : lengthClass v = 3 := by rw [lengthClass, if_neg h0, if_neg h1, if_neg h2]
    refine Or.inr (Or.inr (Or.inr ⟨by omega, hclass, ?_⟩))
    rw [hclass]
    rfl

theorem length_encode {v : ℕ} {enc : List UInt8} (h : encodeCborUint v = .ok enc) :
    enc.length = classByteWidth (lengthClass v) := by
  rcases encodeCborUint_cases (encodeCborUint_le h) with ⟨-, hc, he⟩ | ⟨-, -, hc, he⟩ | ⟨-, -, hc, he⟩ | ⟨-, hc, he⟩
  all_goals
    rw [h] at he
    rw [Except.ok.inj he, hc]
    rfl

/-- The decoder gives back the value at the start of what follows its encoding. -/
theorem decode_encode {v : ℕ} {enc : List UInt8} (h : encodeCborUint v = .ok enc) (rest : List UInt8) :
    decodeCborUint (enc ++ rest) = some (v, enc.length) := by
  have hv := encodeCborUint_le h
  have hmax : maxDigestId < 2 ^ 32 := by decide
  rcases encodeCborUint_cases hv with ⟨hlt, -, he⟩ | ⟨-, hlt, -, he⟩ | ⟨-, hlt, -, he⟩ | ⟨-, -, he⟩
  · obtain rfl := Except.ok.inj (h.symm.trans he)
    have hbyte : UInt8.ofNat v < 0x18 := by
      rw [UInt8.lt_iff_toNat_lt, UInt8.toNat_ofNat']
      show v % 256 < 24
      omega
    rw [List.cons_append, decodeCborUint, if_pos hbyte, UInt8.toNat_ofNat', Nat.mod_eq_of_lt (by omega)]
    rfl
  · obtain rfl := Except.ok.inj (h.symm.trans he)
    have hvalue : bytesNat [UInt8.ofNat v] = v := by
      rw [bytesNat_one, UInt8.toNat_ofNat', Nat.mod_eq_of_lt (by omega)]
    show decodeArgument (UInt8.ofNat v :: rest) 1 = _
    rw [decodeArgument, if_pos (by simp)]
    simp [hvalue]
  · obtain rfl := Except.ok.inj (h.symm.trans he)
    have hvalue := bytesNat_u16Bytes hlt
    have hlen : (encodeCborUint.u16Bytes v).length = 2 := rfl
    show decodeArgument (encodeCborUint.u16Bytes v ++ rest) 2 = _
    rw [decodeArgument, if_pos (by simp [encodeCborUint.u16Bytes]), List.take_left' hlen, hvalue]
    rfl
  · obtain rfl := Except.ok.inj (h.symm.trans he)
    have hvalue := bytesNat_u32Bytes (v := v) (by omega)
    have hlen : (encodeCborUint.u16Bytes (v / 65536) ++ encodeCborUint.u16Bytes v).length = 4 := rfl
    show decodeArgument (encodeCborUint.u16Bytes (v / 65536) ++ encodeCborUint.u16Bytes v ++ rest) 4 = _
    rw [decodeArgument, if_pos (by simp [encodeCborUint.u16Bytes]), List.take_left' hlen, hvalue]
    rfl

/-- An argument of `n` bytes is there, and is below `least`. -/
def Below (n least : ℕ) (argument : List UInt8) : Prop := n ≤ argument.length ∧ bytesNat (argument.take n) < least

/-- No argument of fewer bytes would do, and the value is within `MAX_DIGEST_ID`. -/
def CanonicalForm : List UInt8 → Prop
  | [] => True
  | marker :: argument =>
    (marker = 0x18 → ¬Below 1 24 argument) ∧ (marker = 0x19 → ¬Below 2 256 argument) ∧
      (marker = 0x1a → ¬Below 4 65536 argument ∧ (4 ≤ argument.length → Below 4 (2 ^ 31) argument))

/-- The decoder's result for one byte string is the encoder's. -/
def DecodesCanonically (bytes : List UInt8) : Prop :=
  ∀ v w, decodeCborUint bytes = some (v, w) → v ≤ maxDigestId ∧ encodeCborUint v = .ok (bytes.take w)

theorem encode_one {a : UInt8} (h : 24 ≤ bytesNat [a]) : encodeCborUint (bytesNat [a]) = .ok [0x18, a] := by
  have hlt := a.toNat_lt
  rw [bytesNat_one] at h ⊢
  have hmax : maxDigestId = 2147483647 := rfl
  rcases encodeCborUint_cases (v := a.toNat) (by omega) with ⟨hv, -⟩ | ⟨-, -, -, he⟩ | ⟨hv, -⟩ | ⟨hv, -⟩
  · omega
  · rw [he, UInt8.ofNat_toNat]
  · omega
  · omega

theorem encode_two {arg : List UInt8} (hlen : arg.length = 2) (h : 256 ≤ bytesNat arg) :
    encodeCborUint (bytesNat arg) = .ok (0x19 :: arg) := by
  have hlt := bytesNat_lt arg
  rw [hlen] at hlt
  have hmax : maxDigestId = 2147483647 := rfl
  rcases encodeCborUint_cases (v := bytesNat arg) (by omega) with ⟨hv, -⟩ | ⟨-, hv, -⟩ | ⟨-, -, -, he⟩ | ⟨hv, -⟩
  · omega
  · omega
  · have hbytes : encodeCborUint.u16Bytes (bytesNat arg) = arg :=
      bytesNat_inj (by rw [hlen]; rfl) (bytesNat_u16Bytes (by omega))
    rw [he, hbytes]
  · omega

theorem encode_four {arg : List UInt8} (hlen : arg.length = 4) (h : 65536 ≤ bytesNat arg)
    (hle : bytesNat arg ≤ maxDigestId) : encodeCborUint (bytesNat arg) = .ok (0x1a :: arg) := by
  have hlt := bytesNat_lt arg
  rw [hlen] at hlt
  rcases encodeCborUint_cases hle with ⟨hv, -⟩ | ⟨-, hv, -⟩ | ⟨-, hv, -⟩ | ⟨-, -, he⟩
  · omega
  · omega
  · omega
  · have hbytes : encodeCborUint.u16Bytes (bytesNat arg / 65536) ++ encodeCborUint.u16Bytes (bytesNat arg) = arg :=
      bytesNat_inj (by rw [hlen]; rfl) (bytesNat_u32Bytes (by omega))
    rw [he, hbytes]

/-- The length of an encoding bounds its value from below. -/
theorem le_of_encode {v : ℕ} {enc : List UInt8} (h : encodeCborUint v = .ok enc) :
    (enc.length = 2 → 24 ≤ v) ∧ (enc.length = 3 → 256 ≤ v) ∧ (enc.length = 5 → 65536 ≤ v) := by
  rcases encodeCborUint_cases (encodeCborUint_le h) with ⟨hv, hc, he⟩ | ⟨hv, -, hc, he⟩ | ⟨hv, -, hc, he⟩ | ⟨hv, hc, he⟩
  all_goals
    obtain rfl := Except.ok.inj (h.symm.trans he)
    simp only [List.length_cons, List.length_nil, List.length_append, encodeCborUint.u16Bytes]
    omega

/-- A form with an argument of `n` bytes, of which the encoder writes those from `least` on. -/
theorem decodesCanonically_argument {marker : UInt8} (argument : List UInt8) (n least : ℕ)
    (hdecode : decodeCborUint (marker :: argument) = decodeArgument argument n)
    (hencode : ∀ a : List UInt8, a.length = n →
      (bytesNat a ≤ maxDigestId ∧ encodeCborUint (bytesNat a) = .ok (marker :: a) ↔
        least ≤ bytesNat a ∧ bytesNat a ≤ maxDigestId)) :
    DecodesCanonically (marker :: argument) ↔
      ¬Below n least argument ∧ (n ≤ argument.length → Below n (2 ^ 31) argument) := by
  have hmax : maxDigestId = 2 ^ 31 - 1 := rfl
  unfold DecodesCanonically Below
  rw [hdecode, decodeArgument]
  by_cases hlen : n ≤ argument.length
  · rw [if_pos hlen]
    have htake : (argument.take n).length = n := by
      rw [List.length_take]
      omega
    have hiff := hencode (argument.take n) htake
    constructor
    · intro h
      have hranges := hiff.mp (h _ _ rfl)
      omega
    · rintro ⟨hleast, hbound⟩ v w hvw
      obtain ⟨rfl, rfl⟩ := Prod.mk.inj (Option.some.inj hvw)
      have hbelow := (hbound hlen).2
      exact hiff.mpr ⟨by omega, by omega⟩
  · rw [if_neg hlen]
    constructor
    · intro _
      exact ⟨fun h => hlen h.1, fun h => absurd h hlen⟩
    · intro _ v w hvw
      cases hvw

theorem below_of_small {n : ℕ} (hn : n ≤ 2) {argument : List UInt8} (hlen : n ≤ argument.length) :
    Below n (2 ^ 31) argument := by
  have hlt := bytesNat_lt (argument.take n)
  rw [List.length_take, Nat.min_eq_left hlen] at hlt
  have hpow : 256 ^ n ≤ 256 ^ 2 := Nat.pow_le_pow_right (by decide) hn
  exact ⟨hlen, by omega⟩

theorem decodesCanonically_iff (bytes : List UInt8) : DecodesCanonically bytes ↔ CanonicalForm bytes := by
  cases bytes with
  | nil => exact ⟨fun _ => trivial, fun _ _ _ h => by cases h⟩
  | cons marker argument =>
    by_cases hlow : marker < 0x18
    · have hnat : marker.toNat < 24 := UInt8.lt_iff_toNat_lt.mp hlow
      have hmarker : ∀ m : UInt8, 24 ≤ m.toNat → marker ≠ m := by
        rintro m hm rfl
        omega
      have hform : CanonicalForm (marker :: argument) :=
        ⟨fun h => absurd h (hmarker _ (by decide)), fun h => absurd h (hmarker _ (by decide)),
          fun h => absurd h (hmarker _ (by decide))⟩
      refine ⟨fun _ => hform, fun _ v w hvw => ?_⟩
      rw [decodeCborUint, if_pos hlow] at hvw
      obtain ⟨rfl, rfl⟩ := Prod.mk.inj (Option.some.inj hvw)
      have hmax : maxDigestId = 2147483647 := rfl
      refine ⟨by omega, ?_⟩
      rcases encodeCborUint_cases (v := marker.toNat) (by omega) with ⟨-, -, he⟩ | ⟨hv, -⟩ | ⟨hv, -⟩ | ⟨hv, -⟩
      · rw [he, UInt8.ofNat_toNat]
        rfl
      all_goals omega
    by_cases h18 : marker = 0x18
    · subst h18
      have hiff := decodesCanonically_argument argument 1 24 rfl fun a ha => by
        obtain ⟨b, rfl⟩ := List.length_eq_one_iff.mp ha
        exact ⟨fun h => ⟨(le_of_encode h.2).1 rfl, h.1⟩, fun h => ⟨h.2, encode_one h.1⟩⟩
      rw [hiff]
      constructor
      · intro h
        exact ⟨fun _ => h.1, fun h => absurd h (by decide), fun h => absurd h (by decide)⟩
      · intro h
        exact ⟨h.1 rfl, below_of_small (by decide)⟩
    by_cases h19 : marker = 0x19
    · subst h19
      have hiff := decodesCanonically_argument argument 2 256 rfl fun a ha =>
        ⟨fun h => ⟨(le_of_encode h.2).2.1 (by rw [List.length_cons, ha]), h.1⟩, fun h => ⟨h.2, encode_two ha h.1⟩⟩
      rw [hiff]
      constructor
      · intro h
        exact ⟨fun h => absurd h (by decide), fun _ => h.1, fun h => absurd h (by decide)⟩
      · intro h
        exact ⟨h.2.1 rfl, below_of_small (by decide)⟩
    by_cases h1a : marker = 0x1a
    · subst h1a
      have hiff := decodesCanonically_argument argument 4 65536 rfl fun a ha =>
        ⟨fun h => ⟨(le_of_encode h.2).2.2 (by rw [List.length_cons, ha]), h.1⟩,
          fun h => ⟨h.2, encode_four ha h.1 h.2⟩⟩
      rw [hiff]
      constructor
      · intro h
        exact ⟨fun h => absurd h (by decide), fun h => absurd h (by decide), fun _ => h⟩
      · intro h
        exact h.2.2 rfl
    · have hform : CanonicalForm (marker :: argument) :=
        ⟨fun h => absurd h h18, fun h => absurd h h19, fun h => absurd h h1a⟩
      refine ⟨fun _ => hform, fun _ v w hvw => ?_⟩
      rw [decodeCborUint, if_neg hlow, if_neg h18, if_neg h19, if_neg h1a] at hvw
      cases hvw

/-- Every encoding is decoded, whatever follows it. What is decoded is an encoding exactly when the bytes
do not start with an argument that a shorter form would hold or that is past `MAX_DIGEST_ID`. -/
theorem cborUint_codec (bytes : List UInt8) :
    (∀ v ≤ maxDigestId, ∃ enc, encodeCborUint v = .ok enc ∧ enc.length = classByteWidth (lengthClass v) ∧
      ∀ rest, decodeCborUint (enc ++ rest) = some (v, enc.length)) ∧
    (DecodesCanonically bytes ↔ CanonicalForm bytes) := by
  refine ⟨fun v hv => ?_, decodesCanonically_iff bytes⟩
  obtain ⟨enc, henc⟩ := encodeCborUint_ok hv
  exact ⟨enc, henc, length_encode henc, decode_encode henc⟩

/-- `18 05` is decoded to 5, whose encoding is `05`. -/
theorem cborUint_overLong : ¬∀ bytes, DecodesCanonically bytes := by
  intro h
  have hfive := (h [0x18, 0x05] 5 2 (by decide)).2
  cases hfive

/-! ## The gadget -/

section Gadget

variable {F : Type} [Field F] {window value : List UInt8} {j v : ℕ}

def valueBits32 (v : ℕ) : List Bool := (List.range 32).map fun i => v.testBit (31 - i)

omit [Field F] in
theorem bytesBits_value (hvalue : value.length = 4) : bytesBits value = valueBits32 (bytesNat value) := by
  refine List.ext_getElem (by simp [valueBits32, hvalue]) fun i h1 h2 => ?_
  have hi : i < 32 := by simpa [valueBits32] using h2
  have hbit := testBit_bytesNat (w := value) (i := i) (by omega)
  rw [hvalue, List.getD_eq_getElem?_getD, List.getElem?_eq_getElem h1] at hbit
  simp only [valueBits32, List.getElem_map, List.getElem_range]
  exact hbit.symm

/-- The value that a class encodes is within `MAX_DIGEST_ID`. -/
theorem Extracts.lt {r : ExtractedDigestId F} (h : Extracts j value window r) (hvalue : value.length = 4) :
    bytesNat value < 2 ^ 31 := by
  obtain ⟨⟨hj, hbytes, hzero, -⟩, htop, -, -⟩ := h
  match value, hvalue with
  | [v0, v1, v2, v3], _ =>
    have h1 := v1.toNat_lt
    have h2 := v2.toNat_lt
    have h3 := v3.toNat_lt
    have hsmall : v0.toNat < 128 := by
      have hcases : j = 0 ∨ j = 1 ∨ j = 2 ∨ j = 3 := by omega
      rcases hcases with rfl | rfl | rfl | rfl
      · rw [show v0 = 0 from hzero 0 (by decide)]
        decide
      · rw [show v0 = 0 from hzero 0 (by decide)]
        decide
      · rw [show v0 = 0 from hzero 0 (by decide)]
        decide
      · have hv0 : window.getD 1 0 = v0 := hbytes 1 (by decide)
        have htop := htop rfl
        rw [hv0, Nat.testBit_eq_decide_div_mod_eq] at htop
        have hlt := v0.toNat_lt
        have hbit : ¬v0.toNat / 2 ^ 7 % 2 = 1 := of_decide_eq_false htop
        omega
    rw [bytesNat_four]
    omega

def valueBytes (v : ℕ) : List UInt8 := encodeCborUint.u16Bytes (v / 65536) ++ encodeCborUint.u16Bytes v

theorem bytesBits_valueBytes (hv : v ≤ maxDigestId) : bytesBits (valueBytes v) = valueBits32 v := by
  have hmax : maxDigestId < 2 ^ 32 := by decide
  rw [bytesBits_value rfl, valueBytes, bytesNat_u32Bytes (by omega)]

/-- A window that starts with an encoding is what the value's own class encodes. -/
theorem encodes_of_encode {enc : List UInt8} (h : encodeCborUint v = .ok enc) (rest : List UInt8) :
    Encodes (lengthClass v) (valueBytes v) (enc ++ rest) ∧
      (lengthClass v = 3 → ((enc ++ rest).getD 1 0).toNat.testBit 7 = false) := by
  have hv := encodeCborUint_le h
  have hmax : maxDigestId = 2147483647 := rfl
  rcases encodeCborUint_cases hv with ⟨hlt, hc, he⟩ | ⟨-, hlt, hc, he⟩ | ⟨-, hlt, hc, he⟩ | ⟨-, hc, he⟩
  · obtain rfl := Except.ok.inj (h.symm.trans he)
    rw [hc]
    have hhigh : v / 65536 = 0 := by omega
    have hmid : v / 256 = 0 := by omega
    refine ⟨⟨by decide, ?_, ?_, fun _ => ?_⟩, fun h3 => absurd h3 (by decide)⟩
    · intro i hi
      have hi : i = 0 := by simpa [classByteWidth] using hi
      subst hi
      rfl
    · intro p hp
      have hp : p = 0 ∨ p = 1 ∨ p = 2 := by
        have huncovered : uncovered 0 = [0, 1, 2] := by decide
        simpa [huncovered] using hp
      rcases hp with rfl | rfl | rfl <;> simp [valueBytes, encodeCborUint.u16Bytes, hhigh, hmid]
    · show (UInt8.ofNat v).toNat < 24
      rw [UInt8.toNat_ofNat']
      omega
  · obtain rfl := Except.ok.inj (h.symm.trans he)
    rw [hc]
    have hhigh : v / 65536 = 0 := by omega
    have hmid : v / 256 = 0 := by omega
    refine ⟨⟨by decide, ?_, ?_, fun h0 => absurd h0 (by decide)⟩, fun h3 => absurd h3 (by decide)⟩
    · intro i hi
      have hi : i < 2 := hi
      rcases i with _ | _ | i
      · rfl
      · rfl
      · omega
    · intro p hp
      have hp : p = 0 ∨ p = 1 ∨ p = 2 := by
        have huncovered : uncovered 1 = [0, 1, 2] := by decide
        simpa [huncovered] using hp
      rcases hp with rfl | rfl | rfl <;> simp [valueBytes, encodeCborUint.u16Bytes, hhigh, hmid]
  · obtain rfl := Except.ok.inj (h.symm.trans he)
    rw [hc]
    have hhigh : v / 65536 = 0 := by omega
    refine ⟨⟨by decide, ?_, ?_, fun h0 => absurd h0 (by decide)⟩, fun h3 => absurd h3 (by decide)⟩
    · intro i hi
      have hi : i < 3 := hi
      rcases i with _ | _ | _ | i
      · rfl
      · rfl
      · rfl
      · omega
    · intro p hp
      have hp : p = 0 ∨ p = 1 := by
        have huncovered : uncovered 2 = [0, 1] := by decide
        simpa [huncovered] using hp
      rcases hp with rfl | rfl <;> simp [valueBytes, encodeCborUint.u16Bytes, hhigh]
  · obtain rfl := Except.ok.inj (h.symm.trans he)
    rw [hc]
    refine ⟨⟨by decide, ?_, ?_, fun h0 => absurd h0 (by decide)⟩, fun _ => ?_⟩
    · intro i hi
      have hi : i < 5 := hi
      rcases i with _ | _ | _ | _ | _ | i
      · rfl
      · rfl
      · rfl
      · rfl
      · rfl
      · omega
    · intro p hp
      have huncovered : uncovered 3 = [] := by decide
      rw [huncovered] at hp
      cases hp
    · show (UInt8.ofNat (v / 65536 / 256)).toNat.testBit 7 = false
      rw [UInt8.toNat_ofNat', Nat.testBit_eq_decide_div_mod_eq]
      exact decide_eq_false (by omega)

variable {itemBits : List (Boolean F)} {offsetBytes : ℕ}

theorem succeeds_extractWindow {enc rest : List UInt8} (h : encodeCborUint v = .ok enc)
    (hlength : (enc ++ rest).length = maxCborUintBytes)
    (hbound : (offsetBytes + maxCborUintBytes) * 8 ≤ itemBits.length)
    (hwindow : Boolean.HonestReadsAll ((itemBits.drop (8 * offsetBytes)).take (8 * maxCborUintBytes))
      (bytesBits (enc ++ rest))) :
    (extractDigestId itemBits offsetBytes v).Succeeds (Extracts (lengthClass v) (valueBytes v) (enc ++ rest)) := by
  obtain ⟨hencodes, htop⟩ := encodes_of_encode h rest
  have hv := encodeCborUint_le h
  have hagrees := agrees_iff.mpr hencodes.bytes
  have hvalue := bytesBits_valueBytes hv
  unfold extractDigestId
  refine (Circuit.succeeds_assert hbound).bind fun _ _ => (Circuit.succeeds_assert hv).bind fun _ _ => ?_
  refine (succeeds_oneHotSelector hencodes.class_lt).bind fun sel hsel => ?_
  have hactives : ((List.range maxCborUintBytes).mapM fun byteIdx => selectorBit (byteActiveInClass byteIdx) sel
      (byteActiveInClass byteIdx (lengthClass v))).Yields .honest _ :=
    yields_active .honest hsel hencodes.class_lt fun _ => rfl
  refine hactives.succeeds.bind fun active hactive => ?_
  refine (Circuit.Succeeds.mapM fun i _ => Boolean.succeeds_alloc rfl).bind fun valueBits hbits => ?_
  have hreads : Boolean.HonestReadsAll valueBits (bytesBits (valueBytes v)) := by
    rw [hvalue]
    exact .of_forall₂ hbits
  have hbit : ∀ i ∈ List.range maxCborUintBytes, ∀ b ∈ List.range 8, (encodedBit sel active valueBits
      ((itemBits.drop (8 * offsetBytes)).take (8 * maxCborUintBytes)) i b).Yields .honest
        (·.Holds .honest (maskedBit (lengthClass v) (enc ++ rest) i b)) := fun i hi b hb =>
    yields_encodedBit hsel hreads hactive hwindow hencodes.class_lt (List.mem_range.mp hi) (List.mem_range.mp hb)
      (hagrees i (List.mem_range.mp hi) b (List.mem_range.mp hb))
  refine (Circuit.Succeeds.mapM fun i hi => Circuit.Succeeds.mapM fun b hb => hbit i hi b hb).bind
    fun encoded hencoded => ?_
  have hmasked : Boolean.HoldsAll .honest encoded.flatten (bytesBits (maskedEncoding (lengthClass v) (enc ++ rest))) := by
    rw [← flatten_maskedBits hlength]
    exact .flatten (hencoded.imp fun i bits hrow => .of_forall₂ hrow)
  refine Circuit.Succeeds.bind (Circuit.Yields.succeeds (yields_zeroUncovered hsel hreads hencodes.zero)) fun _ _ => ?_
  refine Circuit.Succeeds.bind (Circuit.Yields.succeeds (yields_checkClassZero hsel hwindow hencodes.small)) fun _ _ => ?_
  have htopBit : (Boolean.nth ((itemBits.drop (8 * offsetBytes)).take (8 * maxCborUintBytes)) 8).Holds .honest _ :=
    holds_window .honest 1 hwindow (show 0 < 8 by decide)
  have hthree : (3 == lengthClass v) = true → ((enc ++ rest).getD 1 0).toNat.testBit (7 - 0) = false := by
    intro h3
    have h3 : 3 = lengthClass v := by simpa using h3
    exact htop h3.symm
  refine Circuit.Succeeds.bind (Circuit.Yields.succeeds (yields_forceZero
    (holds_selector .honest hsel (by decide)).reads htopBit.reads hthree)) fun _ _ => ?_
  exact Circuit.succeeds_pure.mpr ⟨hencodes, htop, hreads.reads, hmasked.reads⟩

/-- What the gadget returns for a window: the value the decoder reads, and the bytes of its encoding
followed by zeros. -/
structure ReadsDecoded (window : List UInt8) (v w : ℕ) (r : ExtractedDigestId F) : Prop where
  decode_eq : decodeCborUint window = some (v, w)
  value_lt : v < 2 ^ 31
  valueBits : Boolean.ReadsAll r.valueBits (valueBits32 v)
  encodedBits : Boolean.ReadsAll r.encodedBits
    (bytesBits (window.take w ++ List.replicate (maxCborUintBytes - w) 0))

theorem Extracts.readsDecoded {r : ExtractedDigestId F} (h : Extracts j value window r) (hvalue : value.length = 4)
    (hwindow : window.length = maxCborUintBytes) :
    ReadsDecoded window (bytesNat value) (classByteWidth j) r := by
  have hdecode := h.encodes.decode [] hvalue hwindow
  rw [List.append_nil] at hdecode
  refine ⟨hdecode, h.lt hvalue, ?_, h.encodedBits⟩
  rw [← bytesBits_value hvalue]
  exact h.valueBits

/-- In every satisfying assignment the gadget returns what the decoder reads in the five bytes at the offset,
and the honest witness of a value whose encoding is there satisfies it. -/
theorem extractDigestId_decodes [LargeChar F] {xs : List Bool} (hitem : Boolean.ReadsAll itemBits xs)
    (offsetBytes : ℕ) :
    (∀ digestId, (extractDigestId itemBits offsetBytes digestId).Ensures fun r => ∃ window v w,
      window.length = maxCborUintBytes ∧
      bytesBits window = (xs.drop (8 * offsetBytes)).take (8 * maxCborUintBytes) ∧ ReadsDecoded window v w r) ∧
    ∀ v enc rest, encodeCborUint v = .ok enc → (enc ++ rest).length = maxCborUintBytes →
      bytesBits (enc ++ rest) = (xs.drop (8 * offsetBytes)).take (8 * maxCborUintBytes) →
      Boolean.HonestReadsAll itemBits xs →
      (extractDigestId itemBits offsetBytes v).Succeeds (ReadsDecoded (enc ++ rest) v enc.length) := by
  have hslice : Boolean.ReadsAll ((itemBits.drop (8 * offsetBytes)).take (8 * maxCborUintBytes))
      ((xs.drop (8 * offsetBytes)).take (8 * maxCborUintBytes)) :=
    List.forall₂_take _ (List.forall₂_drop _ hitem)
  refine ⟨fun digestId => ?_, fun v enc rest henc hlength hbits hhonest => ?_⟩
  · by_cases hbound : (offsetBytes + maxCborUintBytes) * 8 ≤ itemBits.length
    · have hlen : ((xs.drop (8 * offsetBytes)).take (8 * maxCborUintBytes)).length = 8 * maxCborUintBytes := by
        rw [hitem.length_eq] at hbound
        rw [List.length_take, List.length_drop]
        omega
      obtain ⟨window, hwindow, hbits⟩ := exists_bytesBits hlen
      rw [← hbits] at hslice
      refine (ensures_extractWindow hwindow hslice).mono fun r ⟨value, j, hvalue, h⟩ => ?_
      exact ⟨window, _, _, hwindow, hbits, h.readsDecoded hvalue hwindow⟩
    · unfold extractDigestId
      exact Circuit.ensures_assert.bind fun _ h => absurd h hbound
  · have hcount := congrArg List.length hbits
    rw [length_bytesBits, hlength, List.length_take, List.length_drop, ← hitem.length_eq] at hcount
    have hbound : (offsetBytes + maxCborUintBytes) * 8 ≤ itemBits.length := by
      have hpos : maxCborUintBytes = 5 := rfl
      omega
    have hwindow : Boolean.HonestReadsAll ((itemBits.drop (8 * offsetBytes)).take (8 * maxCborUintBytes))
        (bytesBits (enc ++ rest)) := by
      rw [hbits]
      exact List.forall₂_take _ (List.forall₂_drop _ hhonest)
    have hv := encodeCborUint_le henc
    have hmax : maxDigestId < 2 ^ 32 := by decide
    refine (succeeds_extractWindow henc hlength hbound hwindow).mono fun r h => ?_
    have hread := h.readsDecoded rfl hlength
    rw [valueBytes, bytesNat_u32Bytes (by omega), ← length_encode henc] at hread
    exact hread

end Gadget

/-- The window `18 1a` and three more bytes, at offset 1. -/
theorem extractDigestId_decodes_26 :
    (extractDigestId ((bytesBits [0, 0x18, 0x1a, 7, 7, 7]).map .constant : List (Boolean Scalar)) 1 26).Succeeds
      (ReadsDecoded [0x18, 0x1a, 7, 7, 7] 26 2) :=
  (extractDigestId_decodes (Boolean.honestReadsAll_constants _).reads 1).2 26 [0x18, 0x1a] [7, 7, 7] rfl rfl
    (by decide) (Boolean.honestReadsAll_constants _)

end ZkCredVega
