import ZkCredVega.Bellpepper
import ZkCredVega.Circuit.Synthesis
import ZkCredVega.P256

/-!
# The rules' gadgets of the pseudonym statement

`gadgets/lc.rs`, `gadgets/bits.rs` and the rules of `gadgets/p256.rs`: weighted sums of
slots carried with their values, ranges and comparisons, and the verification of an
ECDSA signature over P-256.
-/

namespace ZkCredVega.Nym

open Circuits

/-- A weighted sum of slots, with its value when the value is known. -/
structure Lc (F V : Type) where
  lc : LC F V
  value : Option F

section Rules

variable {F V : Type} [Field F] [One V]

/-! ## Weighted sums -/

namespace Lc

instance : Zero (Lc F V) := ⟨⟨0, some 0⟩⟩

def constant (c : F) : Lc F V := ⟨.const c, some c⟩

def num (n : AllocatedNum F V) : Lc F V := ⟨n.lc, n.value⟩

def bit (b : Boolean V) : Lc F V := ⟨b.lc 1, b.value.map fun x => if x then 1 else 0⟩

def alloc (value : Option F) : Circuit F V (Lc F V) := do
  let v ← .var (assigned value)
  pure ⟨.var v, value⟩

def scale (c : F) (a : Lc F V) : Lc F V :=
  ⟨⟨a.lc.terms.map fun t => (c * t.1, t.2)⟩, a.value.map fun v => v * c⟩

instance : Add (Lc F V) := ⟨fun a b => ⟨a.lc + b.lc, do pure ((← a.value) + (← b.value))⟩⟩

instance : Sub (Lc F V) := ⟨fun a b => ⟨a.lc - b.lc, do pure ((← a.value) - (← b.value))⟩⟩

end Lc

/-- Adds the rule `a * b = c`. -/
def product (a b c : Lc F V) : Circuit F V Unit := .require a.lc b.lc c.lc

/-- Adds the rule `a = b`, written as `(a - b) * 1 = 0`. -/
def equal (a b : Lc F V) : Circuit F V Unit := .require (a.lc - b.lc) (.const 1) 0

/-- A new slot holding `a * b`, with the rule that defines it. -/
def mul (a b : Lc F V) : Circuit F V (Lc F V) := do
  let c ← Lc.alloc (do pure ((← a.value) * (← b.value)))
  product a b c
  pure c

/-- A new slot holding `if0` when `bit` is zero and `if1` when it is one. -/
def mux (bit if0 if1 : Lc F V) : Circuit F V (Lc F V) := do
  let out ← Lc.alloc (do
    let b ← bit.value
    let x ← if0.value
    let y ← if1.value
    pure (x + b * (y - x)))
  product bit (if1 - if0) (out - if0)
  pure out

/-- Adds the rule that `a` is not zero; the inverse of zero is zero. -/
def nonzero (a : Lc F V) : Circuit F V Unit := do
  let inv ← Lc.alloc (a.value.map fun v => v⁻¹)
  product a inv (.constant 1)

/-! ## Bits -/

/-- Bit `i` of a list that is `n` long. -/
def bitAt (bits : Option (List Bool)) (i : ℕ) : Circuit F V (Option Bool) :=
  match bits with
  | none => pure none
  | some bs =>
    match bs[i]? with
    | some b => pure (some b)
    | none => .fail .panic

def allocBits (bits : Option (List Bool)) (n : ℕ) : Circuit F V (List (Boolean V)) :=
  (List.range n).mapM fun i => do
    let b ← bitAt bits i
    Boolean.alloc b

/-- The integer with these bits, most significant first. -/
def pack (bits : List (Boolean V)) : Lc F V :=
  (bits.reverse.foldl (fun (t : Lc F V × F) bit => (t.1 + (Lc.bit bit).scale t.2, t.2 + t.2)) (0, 1)).1

/-- Splits `x` into `n` bits, most significant first. -/
def bits [ToRepr F] (x : Lc F V) (n : ℕ) : Circuit F V (List (Boolean V)) := do
  .assert (n < 256)
  let value := x.value.map fun v => ((List.range n).map fun i => (ToRepr.toNat v).testBit i).reverse
  let out ← allocBits value n
  equal (pack out) x
  pure out

/-- The 256 bits of a digest held as two 128-bit halves, high half first. -/
def digestBits [ToRepr F] (high low : Lc F V) : Circuit F V (List (Boolean V)) := do
  let out ← bits high 128
  let rest ← bits low 128
  pure (out ++ rest)

def rangeCheck [ToRepr F] (x : Lc F V) (n : ℕ) : Circuit F V Unit := do
  let _ ← bits x n
  pure ()

/-- One bit of `lessThan`: whether the bits agree so far, and whether they are smaller. -/
def lessThanBit (t : Lc F V × Lc F V) (b : Boolean V × Bool) : Circuit F V (Lc F V × Lc F V) :=
  if b.2 then do
    let still ← mul t.1 (Lc.bit b.1)
    pure (still, t.2 + (t.1 - still))
  else do
    let still ← mul t.1 (Lc.constant 1 - Lc.bit b.1)
    pure (still, t.2)

/-- Adds the rules that the integer with these bits is less than the constant `c`. -/
def lessThan (bits : List (Boolean V)) (c : List UInt8) : Circuit F V Unit := do
  .assert (bits.length = (bytesBits c).length)
  let t ← (bits.zip (bytesBits c)).foldlM lessThanBit (Lc.constant 1, 0)
  equal t.2 (Lc.constant 1)

def packBytes (bytes : List (Lc F V)) : Lc F V :=
  (bytes.reverse.foldl (fun (t : Lc F V × F) byte => (t.1 + byte.scale t.2, t.2 * 256)) (0, 1)).1

/-- The number that a run of ASCII decimal digits writes. -/
def decimal (digits : List (Lc F V)) : Lc F V :=
  (digits.reverse.foldl
    (fun (t : Lc F V × F) digit => (t.1 + (digit - Lc.constant 48).scale t.2, t.2 * 10)) (0, 1)).1

/-! ## Points and signatures -/

structure Point (F V : Type) where
  x : Lc F V
  y : Lc F V

def Point.constant (p : F × F) : Point F V := ⟨.constant p.1, .constant p.2⟩

/-- The point through `p` on the line of slope `lambda` that meets the curve again at `otherX`. -/
def fromSlope (lambda : Lc F V) (p : Point F V) (otherX : Lc F V) : Circuit F V (Point F V) := do
  let x ← Lc.alloc (do
    let l ← lambda.value
    let a ← p.x.value
    let b ← otherX.value
    pure (l * l - a - b))
  product lambda lambda (x + p.x + otherX)
  let y ← Lc.alloc (do
    let l ← lambda.value
    let a ← p.x.value
    let x ← x.value
    let y ← p.y.value
    pure (l * (a - x) - y))
  product lambda (p.x - x) (y + p.y)
  pure ⟨x, y⟩

def add (p q : Point F V) : Circuit F V (Point F V) := do
  let dx := q.x - p.x
  let dy := q.y - p.y
  nonzero dx
  let lambda ← Lc.alloc (do
    let dx ← dx.value
    let dy ← dy.value
    pure (dy * dx⁻¹))
  product lambda dx dy
  fromSlope lambda p q.x

/-- The tangent's slope satisfies `lambda * 2y = 3x² + a`, with `a = -3`. -/
def double (p : Point F V) : Circuit F V (Point F V) := do
  let xx ← mul p.x p.x
  let rise := xx.scale 3 - Lc.constant 3
  let run := p.y.scale 2
  let lambda ← Lc.alloc (do
    let rise ← rise.value
    let run ← run.value
    pure (rise * run⁻¹))
  product lambda run rise
  fromSlope lambda p p.x

def choose (bit : Boolean V) (if0 if1 : Point F V) : Circuit F V (Point F V) := do
  let x ← mux (Lc.bit bit) if0.x if1.x
  let y ← mux (Lc.bit bit) if0.y if1.y
  pure ⟨x, y⟩

/-- The fixed points of the scalar multiplications: 128 windows of four entries each. -/
structure Constants (F : Type) where
  start : F × F
  startRemoved : F × F
  windows : List ((F × F) × (F × F) × (F × F) × (F × F))
  offsetsRemoved : F × F
  length_windows : windows.length = 128

def multiplyBit (p acc : Point F V) (bit : Boolean V) : Circuit F V (Point F V) := do
  let doubled ← double acc
  let added ← add doubled p
  choose bit doubled added

/-- `k * P` for a scalar given by its bits, most significant first. -/
def multiply (constants : Constants F) (bits : List (Boolean V)) (p : Point F V) :
    Circuit F V (Point F V) := do
  .assert (bits.length = 256)
  let acc ← bits.foldlM (multiplyBit p) (Point.constant constants.start)
  add acc (Point.constant constants.startRemoved)

/-- The entry for the digit `2 * high + low`, as a weighted sum of `1`, `low`, `high` and `both`. -/
def coordinateOf (low high both : Lc F V) (c0 c1 c2 c3 : F) : Lc F V :=
  Lc.constant c0 + low.scale (c1 - c0) + high.scale (c2 - c0) + both.scale (c3 - c2 - c1 + c0)

/-- `bits[i]`. -/
def bitOf (bits : List (Boolean V)) (i : ℕ) : Circuit F V (Boolean V) :=
  match bits[i]? with
  | some b => pure b
  | none => .fail .panic

/-- The first window's entry, or its sum with what came before. -/
def addEntry (sum : Option (Point F V)) (entry : Point F V) : Circuit F V (Point F V) :=
  match sum with
  | none => pure entry
  | some sum => add sum entry

def generatorWindow (bits : List (Boolean V)) (sum : Option (Point F V))
    (t : ((F × F) × (F × F) × (F × F) × (F × F)) × ℕ) : Circuit F V (Option (Point F V)) := do
  let highBit ← bitOf bits (254 - 2 * t.2)
  let lowBit ← bitOf bits (255 - 2 * t.2)
  let high := Lc.bit highBit
  let low := Lc.bit lowBit
  let both ← mul high low
  let entry : Point F V := {
    x := coordinateOf low high both t.1.1.1 t.1.2.1.1 t.1.2.2.1.1 t.1.2.2.2.1
    y := coordinateOf low high both t.1.1.2 t.1.2.1.2 t.1.2.2.1.2 t.1.2.2.2.2 }
  let sum ← addEntry sum entry
  pure (some sum)

/-- `sum.expect(..)`. -/
def expectSum (sum : Option (Point F V)) : Circuit F V (Point F V) :=
  match sum with
  | some p => pure p
  | none => .fail .panic

/-- `k * G` for the generator, in windows of two bits. -/
def multiplyGenerator (constants : Constants F) (bits : List (Boolean V)) :
    Circuit F V (Point F V) := do
  .assert (bits.length = 256)
  let sum ← constants.windows.zipIdx.foldlM (generatorWindow bits) none
  let sum ← expectSum sum
  add sum (Point.constant constants.offsetsRemoved)

def order : List UInt8 :=
  [0xff, 0xff, 0xff, 0xff, 0x00, 0x00, 0x00, 0x00, 0xff, 0xff, 0xff, 0xff, 0xff, 0xff, 0xff, 0xff,
    0xbc, 0xe6, 0xfa, 0xad, 0xa7, 0x17, 0x9e, 0x84, 0xf3, 0xb9, 0xca, 0xc2, 0xfc, 0x63, 0x25, 0x51]

/-- An ECDSA signature as the rules take it: `r` and the inverse of `s`. -/
structure Signature where
  r : Bytes 32
  sInv : Bytes 32

/-- A scalar's bits: below the order and not zero. -/
def checkScalar (bits : List (Boolean V)) : Circuit F V Unit := do
  lessThan bits order
  nonzero (pack bits)

/-- Adds the rules that `signature` is a signature by `key` on a message whose digest has the bits
`digest`. -/
def verify (constants : Constants F) (digest : List (Boolean V)) (key : Point F V)
    (signature : Option Signature) : Circuit F V Unit := do
  let r ← allocBits (signature.map fun s => bytesBits s.r.val) 256
  let sInv ← allocBits (signature.map fun s => bytesBits s.sInv.val) 256
  checkScalar r
  checkScalar sInv
  let zG ← multiplyGenerator constants digest
  let rQ ← multiply constants r key
  let sum ← add zG rQ
  let point ← multiply constants sInv sum
  equal point.x (pack r)

end Rules

/-! ## Synthesis with known values -/

section Known

variable {F : Type} [Field F]

def Lc.Known (a : Lc F F) : Prop := ∃ v, a.value = some v

def KnownBit (b : Boolean F) : Prop := ∃ x, b.value = some x

def Point.Known (p : Point F F) : Prop := p.x.Known ∧ p.y.Known

namespace Lc

theorem known_zero : (0 : Lc F F).Known := ⟨0, rfl⟩

theorem known_constant (c : F) : (constant c : Lc F F).Known := ⟨c, rfl⟩

theorem known_num {n : AllocatedNum F F} {v : F} (h : n.value = some v) : (num n).Known := ⟨v, h⟩

theorem known_bit {b : Boolean F} (h : KnownBit b) : (bit b).Known := by
  obtain ⟨x, hx⟩ := h
  exact ⟨_, by rw [bit, hx, Option.map_some]⟩

theorem Known.scale {a : Lc F F} (h : a.Known) (c : F) : (a.scale c).Known := by
  obtain ⟨v, hv⟩ := h
  exact ⟨v * c, by rw [Lc.scale, hv, Option.map_some]⟩

theorem Known.add {a b : Lc F F} (ha : a.Known) (hb : b.Known) : (a + b).Known := by
  obtain ⟨v, hv⟩ := ha
  obtain ⟨w, hw⟩ := hb
  refine ⟨v + w, ?_⟩
  show (do pure ((← a.value) + (← b.value)) : Option F) = _
  rw [hv, hw]
  rfl

theorem Known.sub {a b : Lc F F} (ha : a.Known) (hb : b.Known) : (a - b).Known := by
  obtain ⟨v, hv⟩ := ha
  obtain ⟨w, hw⟩ := hb
  refine ⟨v - w, ?_⟩
  show (do pure ((← a.value) - (← b.value)) : Option F) = _
  rw [hv, hw]
  rfl

end Lc

theorem publishes_lcAlloc {value : Option F} {v : F} (h : value = some v) :
    (Lc.alloc value : Circuit F F _).Publishes [] Lc.Known := by
  subst h
  exact (Circuit.publishes_var rfl).bind_nil fun _ _ => Circuit.publishes_pure ⟨v, rfl⟩

omit [Field F] in
theorem publishes_product {a b c : Lc F F} : (product a b c).Publishes [] fun _ => True :=
  Circuit.publishes_require

theorem publishes_equal {a b : Lc F F} : (equal a b).Publishes [] fun _ => True :=
  Circuit.publishes_require

theorem publishes_mul {a b : Lc F F} (ha : a.Known) (hb : b.Known) :
    (mul a b).Publishes [] Lc.Known := by
  obtain ⟨v, hv⟩ := ha
  obtain ⟨w, hw⟩ := hb
  refine (publishes_lcAlloc (v := v * w) (by rw [hv, hw]; rfl)).bind_nil fun c hc => ?_
  exact publishes_product.bind_nil fun _ _ => Circuit.publishes_pure hc

theorem publishes_mux {b x y : Lc F F} (hb : b.Known) (hx : x.Known) (hy : y.Known) :
    (mux b x y).Publishes [] Lc.Known := by
  obtain ⟨u, hu⟩ := hb
  obtain ⟨v, hv⟩ := hx
  obtain ⟨w, hw⟩ := hy
  refine (publishes_lcAlloc (v := v + u * (w - v)) (by rw [hu, hv, hw]; rfl)).bind_nil fun c hc => ?_
  exact publishes_product.bind_nil fun _ _ => Circuit.publishes_pure hc

theorem publishes_nonzero {a : Lc F F} (ha : a.Known) : (nonzero a).Publishes [] fun _ => True := by
  obtain ⟨v, hv⟩ := ha
  refine (publishes_lcAlloc (v := v⁻¹) (by rw [hv]; rfl)).bind_nil fun _ _ => ?_
  exact publishes_product

theorem publishes_booleanAlloc (b : Bool) :
    (Boolean.alloc (some b) : Circuit F F _).Publishes [] KnownBit := by
  apply Circuit.Publishes.map
  refine (Circuit.publishes_var rfl).bind_nil fun v _ => ?_
  exact Circuit.publishes_require.bind_nil fun _ _ => Circuit.publishes_pure ⟨b, rfl⟩

theorem publishes_allocBits {bs : List Bool} {n : ℕ} (h : bs.length = n) :
    (allocBits (some bs) n : Circuit F F _).Publishes [] fun out =>
      out.length = n ∧ ∀ b ∈ out, KnownBit b := by
  have hturn : ∀ i ∈ List.range n, (do
      let b ← bitAt (some bs) i
      Boolean.alloc b : Circuit F F _).Publishes [] KnownBit := by
    intro i hi
    have hi : i < bs.length := by
      rw [h]
      exact List.mem_range.mp hi
    have hbit : (bitAt (some bs) i : Circuit F F _) = pure (some bs[i]) := by
      simp only [bitAt, List.getElem?_eq_getElem hi]
    rw [hbit, pure_bind]
    exact publishes_booleanAlloc _
  have hmap := Circuit.Publishes.mapM_nil hturn
  rw [List.length_range] at hmap
  exact hmap

theorem known_pack {bits : List (Boolean F)} (h : ∀ b ∈ bits, KnownBit b) : (pack bits : Lc F F).Known := by
  unfold pack
  have hfold : ∀ (bs : List (Boolean F)) (t : Lc F F × F), (∀ b ∈ bs, KnownBit b) → t.1.Known →
      (bs.foldl (fun (t : Lc F F × F) bit => (t.1 + (Lc.bit bit).scale t.2, t.2 + t.2)) t).1.Known := by
    intro bs
    induction bs with
    | nil =>
      intro t _ ht
      exact ht
    | cons b bs ih =>
      intro t hbs ht
      have hb := Lc.known_bit (hbs b List.mem_cons_self)
      exact ih _ (fun c hc => hbs c (List.mem_cons_of_mem _ hc)) (ht.add (hb.scale t.2))
  exact hfold _ _ (fun b hb => h b (List.mem_reverse.mp hb)) Lc.known_zero

theorem publishes_bits [ToRepr F] {x : Lc F F} {n : ℕ} (hx : x.Known) (hn : n < 256) :
    (bits x n).Publishes [] fun out => out.length = n ∧ ∀ b ∈ out, KnownBit b := by
  obtain ⟨v, hv⟩ := hx
  refine (Circuit.publishes_assert hn).bind_nil fun _ _ => ?_
  simp only [hv, Option.map_some]
  refine (publishes_allocBits (by simp)).bind_nil fun out hout => ?_
  exact publishes_equal.bind_nil fun _ _ => Circuit.publishes_pure hout

theorem publishes_digestBits [ToRepr F] {high low : Lc F F} (hhigh : high.Known) (hlow : low.Known) :
    (digestBits high low).Publishes [] fun out => out.length = 256 ∧ ∀ b ∈ out, KnownBit b := by
  refine (publishes_bits hhigh (by decide)).bind_nil fun out hout => ?_
  refine (publishes_bits hlow (by decide)).bind_nil fun rest hrest => ?_
  refine Circuit.publishes_pure ⟨by rw [List.length_append, hout.1, hrest.1], ?_⟩
  intro b hb
  rcases List.mem_append.mp hb with hb | hb
  · exact hout.2 b hb
  · exact hrest.2 b hb

theorem publishes_rangeCheck [ToRepr F] {x : Lc F F} {n : ℕ} (hx : x.Known) (hn : n < 256) :
    (rangeCheck x n).Publishes [] fun _ => True :=
  (publishes_bits hx hn).bind_nil fun _ _ => Circuit.publishes_pure trivial

theorem publishes_lessThan {bits : List (Boolean F)} {c : List UInt8}
    (hlen : bits.length = (bytesBits c).length) (h : ∀ b ∈ bits, KnownBit b) :
    (lessThan bits c : Circuit F F Unit).Publishes [] fun _ => True := by
  refine (Circuit.publishes_assert hlen).bind_nil fun _ _ => ?_
  have hfold : ((bits.zip (bytesBits c)).foldlM lessThanBit (Lc.constant 1, 0) :
      Circuit F F _).Publishes [] fun t => t.1.Known ∧ t.2.Known := by
    apply Circuit.Publishes.foldlM
    · exact ⟨Lc.known_constant 1, Lc.known_zero⟩
    intro t b hb ht
    have hbit := Lc.known_bit (h b.1 (List.of_mem_zip hb).1)
    unfold lessThanBit
    split
    · refine (publishes_mul ht.1 hbit).bind_nil fun still hstill => ?_
      exact Circuit.publishes_pure ⟨hstill, ht.2.add (ht.1.sub hstill)⟩
    · refine (publishes_mul ht.1 ((Lc.known_constant 1).sub hbit)).bind_nil fun still hstill => ?_
      exact Circuit.publishes_pure ⟨hstill, ht.2⟩
  exact hfold.bind_nil fun _ _ => publishes_equal

theorem publishes_fromSlope {lambda otherX : Lc F F} {p : Point F F} (hl : lambda.Known) (hp : p.Known)
    (hx : otherX.Known) : (fromSlope lambda p otherX).Publishes [] Point.Known := by
  obtain ⟨l, hl⟩ := hl
  obtain ⟨⟨a, ha⟩, b, hb⟩ := hp
  obtain ⟨c, hc⟩ := hx
  refine (publishes_lcAlloc (v := l * l - a - c) (by rw [hl, ha, hc]; rfl)).bind_nil fun x hx => ?_
  refine publishes_product.bind_nil fun _ _ => ?_
  obtain ⟨u, hu⟩ := hx
  refine (publishes_lcAlloc (v := l * (a - u) - b) (by rw [hl, ha, hu, hb]; rfl)).bind_nil fun y hy => ?_
  exact publishes_product.bind_nil fun _ _ => Circuit.publishes_pure ⟨⟨u, hu⟩, hy⟩

theorem publishes_add {p q : Point F F} (hp : p.Known) (hq : q.Known) :
    (add p q).Publishes [] Point.Known := by
  have hdx := hq.1.sub hp.1
  have hdy := hq.2.sub hp.2
  refine (publishes_nonzero hdx).bind_nil fun _ _ => ?_
  obtain ⟨dx, hdx⟩ := hdx
  obtain ⟨dy, hdy⟩ := hdy
  refine (publishes_lcAlloc (v := dy * dx⁻¹) (by rw [hdx, hdy]; rfl)).bind_nil fun lambda hl => ?_
  exact publishes_product.bind_nil fun _ _ => publishes_fromSlope hl hp hq.1

theorem publishes_double {p : Point F F} (hp : p.Known) : (double p).Publishes [] Point.Known := by
  refine (publishes_mul hp.1 hp.1).bind_nil fun xx hxx => ?_
  obtain ⟨rise, hrise⟩ := (hxx.scale 3).sub (Lc.known_constant 3)
  obtain ⟨run, hrun⟩ := hp.2.scale 2
  refine (publishes_lcAlloc (v := rise * run⁻¹) (by rw [hrise, hrun]; rfl)).bind_nil fun lambda hl => ?_
  exact publishes_product.bind_nil fun _ _ => publishes_fromSlope hl hp hp.1

theorem publishes_choose {bit : Boolean F} {p q : Point F F} (hb : KnownBit bit) (hp : p.Known)
    (hq : q.Known) : (choose bit p q).Publishes [] Point.Known := by
  refine (publishes_mux (Lc.known_bit hb) hp.1 hq.1).bind_nil fun x hx => ?_
  refine (publishes_mux (Lc.known_bit hb) hp.2 hq.2).bind_nil fun y hy => ?_
  exact Circuit.publishes_pure ⟨hx, hy⟩

theorem known_pointConstant (p : F × F) : (Point.constant p : Point F F).Known :=
  ⟨Lc.known_constant p.1, Lc.known_constant p.2⟩

theorem publishes_multiply (constants : Constants F) {bits : List (Boolean F)} {p : Point F F}
    (hlen : bits.length = 256) (hbits : ∀ b ∈ bits, KnownBit b) (hp : p.Known) :
    (multiply constants bits p).Publishes [] Point.Known := by
  refine (Circuit.publishes_assert hlen).bind_nil fun _ _ => ?_
  have hfold : (bits.foldlM (multiplyBit p) (Point.constant constants.start)).Publishes []
      Point.Known := by
    apply Circuit.Publishes.foldlM (known_pointConstant _)
    intro acc bit hbit hacc
    refine (publishes_double hacc).bind_nil fun doubled hdoubled => ?_
    refine (publishes_add hdoubled hp).bind_nil fun added hadded => ?_
    exact publishes_choose (hbits bit hbit) hdoubled hadded
  exact hfold.bind_nil fun acc hacc => publishes_add hacc (known_pointConstant _)

theorem known_coordinateOf {low high both : Lc F F} (hlow : low.Known) (hhigh : high.Known)
    (hboth : both.Known) (c0 c1 c2 c3 : F) : (coordinateOf low high both c0 c1 c2 c3).Known :=
  (((Lc.known_constant c0).add (hlow.scale _)).add (hhigh.scale _)).add (hboth.scale _)

omit [Field F] in
theorem publishes_bitOf {bits : List (Boolean F)} {i : ℕ} (hbits : ∀ b ∈ bits, KnownBit b)
    (hi : i < bits.length) : (bitOf bits i : Circuit F F _).Publishes [] KnownBit := by
  have hbit : (bitOf bits i : Circuit F F _) = pure bits[i] := by
    simp only [bitOf, List.getElem?_eq_getElem hi]
  rw [hbit]
  exact Circuit.publishes_pure (hbits _ (List.getElem_mem hi))

theorem publishes_generatorWindow {bits : List (Boolean F)} {sum : Option (Point F F)}
    {t : ((F × F) × (F × F) × (F × F) × (F × F)) × ℕ} (hlen : bits.length = 256)
    (hbits : ∀ b ∈ bits, KnownBit b) (hsum : ∀ p, sum = some p → p.Known) :
    (generatorWindow bits sum t).Publishes [] fun sum => ∃ p, sum = some p ∧ p.Known := by
  refine (publishes_bitOf hbits (by omega)).bind_nil fun high hhigh => ?_
  refine (publishes_bitOf hbits (by omega)).bind_nil fun low hlow => ?_
  have hhigh := Lc.known_bit hhigh
  have hlow := Lc.known_bit hlow
  refine (publishes_mul hhigh hlow).bind_nil fun both hboth => ?_
  have hentry : Point.Known (F := F) ⟨coordinateOf (Lc.bit low) (Lc.bit high) both t.1.1.1 t.1.2.1.1
      t.1.2.2.1.1 t.1.2.2.2.1, coordinateOf (Lc.bit low) (Lc.bit high) both t.1.1.2 t.1.2.1.2
      t.1.2.2.1.2 t.1.2.2.2.2⟩ :=
    ⟨known_coordinateOf hlow hhigh hboth _ _ _ _, known_coordinateOf hlow hhigh hboth _ _ _ _⟩
  have hadd : (addEntry sum ⟨coordinateOf (Lc.bit low) (Lc.bit high) both t.1.1.1 t.1.2.1.1
      t.1.2.2.1.1 t.1.2.2.2.1, coordinateOf (Lc.bit low) (Lc.bit high) both t.1.1.2 t.1.2.1.2
      t.1.2.2.1.2 t.1.2.2.2.2⟩ : Circuit F F _).Publishes [] Point.Known := by
    cases sum with
    | none => exact Circuit.publishes_pure hentry
    | some p => exact publishes_add (hsum p rfl) hentry
  exact hadd.bind_nil fun p hp => Circuit.publishes_pure ⟨p, rfl, hp⟩

theorem publishes_multiplyGenerator (constants : Constants F) {bits : List (Boolean F)}
    (hlen : bits.length = 256) (hbits : ∀ b ∈ bits, KnownBit b) :
    (multiplyGenerator constants bits).Publishes [] Point.Known := by
  refine (Circuit.publishes_assert hlen).bind_nil fun _ _ => ?_
  have hfold : (constants.windows.zipIdx.foldlM (generatorWindow bits) none).Publishes []
      fun sum => ∃ p, sum = some p ∧ p.Known := by
    -- the first of the windows gives a sum, which the others keep
    obtain ⟨w, ws, hws⟩ := List.exists_cons_of_length_eq_add_one constants.length_windows
    rw [hws, List.zipIdx_cons, List.foldlM_cons]
    have hfirst : ∀ p : Point F F, none = some p → p.Known := by
      intro p hp
      cases hp
    refine (publishes_generatorWindow hlen hbits hfirst).bind_nil fun sum hsum => ?_
    refine Circuit.Publishes.foldlM (P := fun sum : Option (Point F F) => ∃ p, sum = some p ∧ p.Known) hsum ?_
    intro sum t _ hsum
    obtain ⟨p, rfl, hp⟩ := hsum
    exact publishes_generatorWindow hlen hbits fun q hq => Option.some.inj hq ▸ hp
  refine hfold.bind_nil fun sum hsum => ?_
  obtain ⟨p, rfl, hp⟩ := hsum
  exact publishes_add hp (known_pointConstant _)

theorem publishes_checkScalar {bits : List (Boolean F)} (hlen : bits.length = 256)
    (hbits : ∀ b ∈ bits, KnownBit b) : (checkScalar bits : Circuit F F Unit).Publishes [] fun _ => True := by
  have horder : bits.length = (bytesBits order).length := by
    rw [hlen, length_bytesBits]
    rfl
  refine (publishes_lessThan horder hbits).bind_nil fun _ _ => ?_
  exact publishes_nonzero (known_pack hbits)

theorem publishes_verify (constants : Constants F) {digest : List (Boolean F)} {key : Point F F}
    (signature : Signature) (hlen : digest.length = 256) (hdigest : ∀ b ∈ digest, KnownBit b)
    (hkey : key.Known) : (verify constants digest key (some signature)).Publishes [] fun _ => True := by
  have hlength : ∀ s : Bytes 32, (bytesBits s.val).length = 256 := by
    intro s
    rw [length_bytesBits, s.property]
  refine (publishes_allocBits (hlength signature.r)).bind_nil fun r hr => ?_
  refine (publishes_allocBits (hlength signature.sInv)).bind_nil fun sInv hsInv => ?_
  refine (publishes_checkScalar hr.1 hr.2).bind_nil fun _ _ => ?_
  refine (publishes_checkScalar hsInv.1 hsInv.2).bind_nil fun _ _ => ?_
  refine (publishes_multiplyGenerator constants hlen hdigest).bind_nil fun zG hzG => ?_
  refine (publishes_multiply constants hr.1 hr.2 hkey).bind_nil fun rQ hrQ => ?_
  refine (publishes_add hzG hrQ).bind_nil fun sum hsum => ?_
  refine (publishes_multiply constants hsInv.1 hsInv.2 hsum).bind_nil fun _ _ => ?_
  exact publishes_equal

end Known

end ZkCredVega.Nym
