import ZkCredVega.Nym.Shape
import ZkCredVega.Nym.Statement

/-!
# The size of the core circuit

`within_budget` of `app.rs` refuses a circuit past its layout's budget. The size of a gadget depends on
its widths alone, so the core of the full statement has one size: every instance synthesizes without an
error, with as many rules and values as the sum of its gadgets'.
-/

namespace ZkCredVega

open Circuits

section Primitives

variable {F V : Type} [Field F]

theorem Boolean.costs_alloc [One V] {x : Option Bool} :
    (Boolean.alloc x : Circuit F V _).Costs (0, 1, 1) fun _ => True := by
  have hbit : (AllocatedBit.alloc x : Circuit F V _).Costs (0, 1, 1) fun _ => True :=
    Circuit.costs_var.bind fun _ _ => Circuit.costs_require.bind_pure fun _ _ => trivial
  rw [Boolean.alloc, ← bind_pure_comp]
  exact hbit.bind_pure fun _ _ => trivial

omit [Field F] in
theorem AllocatedNum.costs_alloc {x : Outcome F} :
    (AllocatedNum.alloc x : Circuit F V _).Costs (0, 1, 0) fun _ => True :=
  Circuit.costs_var.bind_pure fun _ _ => trivial

omit [Field F] in
theorem AllocatedNum.costs_allocInput {x : Outcome F} :
    (AllocatedNum.allocInput x : Circuit F V _).Costs (1, 0, 0) fun _ => True :=
  Circuit.costs_input.bind_pure fun _ _ => trivial

end Primitives

namespace Nym

open Mdoc (KnowsNym NymCore nymOf nymRules)

section Gadgets

variable {F V : Type} [Field F] [One V]

/-! ## Rules and slots -/

section Rules

variable {a b c : Lc F V}

omit [One V] in
theorem Lc.costs_alloc {x : Option F} : (Lc.alloc x : Circuit F V _).Costs (0, 1, 0) fun _ => True :=
  Circuit.costs_var.bind_pure fun _ _ => trivial

theorem costs_equal : (equal a b).Costs (0, 0, 1) fun _ => True := Circuit.costs_require

omit [One V] in
theorem costs_mul : (mul a b).Costs (0, 1, 1) fun _ => True :=
  Lc.costs_alloc.bind fun _ _ => Circuit.costs_require.bind_pure fun _ _ => trivial

omit [One V] in
theorem costs_mux : (mux a b c).Costs (0, 1, 1) fun _ => True :=
  Lc.costs_alloc.bind fun _ _ => Circuit.costs_require.bind_pure fun _ _ => trivial

theorem costs_nonzero : (nonzero a).Costs (0, 1, 1) fun _ => True :=
  Lc.costs_alloc.bind fun _ _ => Circuit.costs_require

theorem costs_toNum : (toNum a).Costs (0, 1, 1) fun _ => True :=
  AllocatedNum.costs_alloc.bind fun _ _ => costs_equal.bind_pure fun _ _ => trivial

theorem costs_toNums {as : List (Lc F V)} :
    (as.mapM toNum).Costs (0, as.length, as.length) fun ns => ns.length = as.length :=
  ((Circuit.Costs.mapM fun _ _ => costs_toNum).mono fun _ h => h.1).cast (by simp)

/-! ## Bits -/

theorem costs_allocBits {bits : Option (List Bool)} {n : ℕ} (h : Covers bits n) :
    (allocBits bits n : Circuit F V _).Costs (0, n, n) fun out => out.length = n := by
  have hbit : ∀ i ∈ List.range n, (do
      let b ← bitAt bits i
      Boolean.alloc b : Circuit F V _).Costs (0, 1, 1) fun _ => True := by
    intro i hi
    obtain ⟨b, hb⟩ := exists_bitAt (F := F) (V := V) h (List.mem_range.mp hi)
    rw [hb, pure_bind]
    exact Boolean.costs_alloc
  refine ((Circuit.Costs.mapM hbit).mono fun out hout => ?_).cast (by simp)
  rw [hout.1, List.length_range]

theorem costs_bits [ToRepr F] {n : ℕ} (hn : n < 256) :
    (bits a n).Costs (0, n, n + 1) fun out => out.length = n := by
  have hcovers : Covers (a.value.map fun v => ((List.range n).map fun i => (ToRepr.toNat v).testBit i).reverse) n := by
    intro bs hbs
    obtain ⟨v, -, rfl⟩ := Option.map_eq_some_iff.mp hbs
    simp
  refine ((Circuit.costs_assert hn).bind fun _ _ => ?_).cast (zero_add _)
  exact (costs_allocBits hcovers).bind fun out hout => costs_equal.bind_pure fun _ _ => hout

theorem costs_digestBits [ToRepr F] : (digestBits a b).Costs (0, 256, 258) fun out => out.length = 256 := by
  refine (costs_bits (by decide)).bind fun out hout => (costs_bits (n := 128) (by decide)).bind_pure fun rest hrest => ?_
  rw [List.length_append, hout, hrest]

theorem costs_rangeCheck [ToRepr F] {n : ℕ} (hn : n < 256) : (rangeCheck a n).Costs (0, n, n + 1) fun _ => True :=
  (costs_bits hn).bind_pure fun _ _ => trivial

theorem costs_lessThan {bits : List (Boolean V)} {bound : List UInt8} (h : bits.length = (bytesBits bound).length) :
    (lessThan bits bound : Circuit F V Unit).Costs (0, bits.length, bits.length + 1) fun _ => True := by
  have hbit : ∀ t ∈ bits.zip (bytesBits bound), ∀ s : Lc F V × Lc F V, True →
      (lessThanBit s t).Costs (0, 1, 1) fun _ => True := by
    intro t _ s _
    unfold lessThanBit
    split
    · exact costs_mul.bind_pure fun _ _ => trivial
    · exact costs_mul.bind_pure fun _ _ => trivial
  refine ((Circuit.costs_assert h).bind fun _ _ =>
    (Circuit.Costs.foldlM trivial hbit).bind fun _ _ => costs_equal).cast ?_
  simp [← h]

end Rules

/-! ## Points and signatures -/

section Points

variable {a b : Lc F V} {p q : Point F V} {bits : List (Boolean V)}

omit [One V] in
theorem Point.costs_alloc {k : Option PublicKey} : (Point.alloc k : Circuit F V _).Costs (0, 2, 0) fun _ => True :=
  Lc.costs_alloc.bind fun _ _ => Lc.costs_alloc.bind_pure fun _ _ => trivial

omit [One V] in
theorem costs_fromSlope : (fromSlope a p b).Costs (0, 2, 2) fun _ => True :=
  Lc.costs_alloc.bind fun _ _ => Circuit.costs_require.bind fun _ _ =>
    Lc.costs_alloc.bind fun _ _ => Circuit.costs_require.bind_pure fun _ _ => trivial

theorem costs_add : (add p q).Costs (0, 4, 4) fun _ => True :=
  costs_nonzero.bind fun _ _ => Lc.costs_alloc.bind fun _ _ => Circuit.costs_require.bind fun _ _ => costs_fromSlope

theorem costs_double : (double p).Costs (0, 4, 4) fun _ => True :=
  costs_mul.bind fun _ _ => Lc.costs_alloc.bind fun _ _ => Circuit.costs_require.bind fun _ _ => costs_fromSlope

theorem costs_choose {x : Boolean V} : (choose x p q).Costs (0, 2, 2) fun _ => True :=
  costs_mux.bind fun _ _ => costs_mux.bind_pure fun _ _ => trivial

theorem costs_multiply (constants : Constants F) (hlen : bits.length = 256) :
    (multiply constants bits p).Costs (0, 2564, 2564) fun _ => True := by
  have hbit : ∀ x ∈ bits, ∀ acc : Point F V, True → (multiplyBit p acc x).Costs (0, 10, 10) fun _ => True :=
    fun _ _ _ _ => costs_double.bind fun _ _ => costs_add.bind fun _ _ => costs_choose
  refine ((Circuit.costs_assert hlen).bind fun _ _ =>
    (Circuit.Costs.foldlM trivial hbit).bind fun _ _ => costs_add).cast ?_
  rw [hlen]
  rfl

omit [Field F] [One V] in
theorem costs_bitOf {i : ℕ} (hi : i < bits.length) : (bitOf bits i : Circuit F V _).Costs 0 fun _ => True := by
  have hbit : (bitOf bits i : Circuit F V _) = pure bits[i] := by simp only [bitOf, List.getElem?_eq_getElem hi]
  rw [hbit]
  exact Circuit.costs_pure trivial

/-- The first window's entry is the sum; each later one is added to it. -/
theorem costs_generatorWindow (hlen : bits.length = 256) {sum : Option (Point F V)}
    {t : ((F × F) × (F × F) × (F × F) × (F × F)) × ℕ} {n : ℕ} (hn : n = if sum = none then 1 else 5) :
    (generatorWindow bits sum t).Costs (0, n, n) (· ≠ none) := by
  subst hn
  refine ((costs_bitOf (by omega)).bind fun high _ => (costs_bitOf (by omega)).bind fun low _ =>
    costs_mul.bind fun both _ => Circuit.Costs.bind_pure (P := fun _ => True)
      (k := if sum = none then 0 else (0, 4, 4)) ?_ fun _ _ => nofun).cast ?_
  · unfold addEntry
    cases sum with
    | none => exact Circuit.costs_pure trivial
    | some s => exact costs_add
  · cases sum with
    | none => rfl
    | some s => rfl

theorem costs_multiplyGenerator (constants : Constants F) (hlen : bits.length = 256) :
    (multiplyGenerator constants bits : Circuit F V _).Costs (0, 640, 640) fun _ => True := by
  obtain ⟨w, ws, hws⟩ := List.exists_cons_of_length_eq_add_one constants.length_windows
  have hcount : ws.length = 127 := by
    have hlength := constants.length_windows
    rw [hws, List.length_cons] at hlength
    omega
  have hlater : ∀ t ∈ ws.zipIdx 1, ∀ sum : Option (Point F V), sum ≠ none →
      (generatorWindow bits sum t).Costs (0, 5, 5) (· ≠ none) :=
    fun t _ sum hsum => costs_generatorWindow hlen (by rw [if_neg hsum])
  have hsum : (constants.windows.zipIdx.foldlM (generatorWindow bits) (none : Option (Point F V))).Costs (0, 636, 636)
      (· ≠ none) := by
    rw [hws, List.zipIdx_cons, List.foldlM_cons]
    refine ((costs_generatorWindow hlen (n := 1) (by rw [if_pos rfl])).bind fun sum hsum =>
      Circuit.Costs.foldlM (I := fun sum : Option (Point F V) => sum ≠ none) hsum hlater).cast ?_
    rw [List.length_zipIdx, hcount]
    rfl
  refine ((Circuit.costs_assert hlen).bind fun _ _ => hsum.bind fun sum hsum => ?_).cast
    (by rfl : 0 + ((0, 636, 636) + (0, 4, 4)) = ((0, 640, 640) : Circuit.Size))
  obtain ⟨s, rfl⟩ := Option.ne_none_iff_exists'.mp hsum
  exact costs_add

theorem costs_checkScalar (hlen : bits.length = 256) :
    (checkScalar bits : Circuit F V Unit).Costs (0, 257, 258) fun _ => True := by
  have horder : bits.length = (bytesBits order).length := by
    rw [hlen, length_bytesBits]
    rfl
  refine ((costs_lessThan horder).bind fun _ _ => costs_nonzero).cast ?_
  rw [hlen]
  rfl

theorem costs_verify (constants : Constants F) (hlen : bits.length = 256) (signature : Option Signature) :
    (verify constants bits p signature).Costs (0, 6798, 6801) fun _ => True := by
  have hr := costs_allocBits (F := F) (V := V) (covers_signature signature Signature.r)
  have hsInv := costs_allocBits (F := F) (V := V) (covers_signature signature Signature.sInv)
  refine (hr.bind fun r hr => hsInv.bind fun s hs => (costs_checkScalar hr).bind fun _ _ =>
    (costs_checkScalar hs).bind fun _ _ => (costs_multiplyGenerator constants hlen).bind fun zG _ =>
    (costs_multiply constants hr).bind fun rQ _ => costs_add.bind fun sum _ =>
    (costs_multiply constants hs).bind fun point _ => costs_equal).cast ?_
  rfl

end Points

/-! ## Messages -/

theorem OneHot.costs_alloc (n : ℕ) (i : Option ℕ) :
    (OneHot.alloc n i : Circuit F V _).Costs (0, n, n + 1) fun s => s.bits.length = n := by
  refine ((Circuit.Costs.mapM fun _ _ => Boolean.costs_alloc).bind fun bits hbits =>
    costs_equal.bind_pure fun _ _ => ?_).cast ?_
  · exact hbits.1.trans List.length_range
  · rw [List.length_range]
    simp

theorem OneHot.costs_select {s : OneHot V} {es : List (Lc F V)} {n : ℕ} (hs : s.bits.length = n) (hes : es.length = n)
    (hn : 0 < n) : (s.select es).Costs (0, n - 1, n - 1) fun _ => True := by
  obtain ⟨e, es', rfl⟩ := List.exists_cons_of_length_pos (hes ▸ hn)
  refine ((Circuit.costs_assert (hes.trans hs.symm)).bind fun _ _ => Circuit.Costs.foldlM trivial fun _ _ _ _ =>
    costs_mul.bind_pure fun _ _ => trivial).cast ?_
  simp [hs, ← hes]

omit [One V] in
theorem Cells.costs_state (cells : Cells F V) {j h : ℕ} (hj : j < positions) (hh : h < 2) :
    (cells.state j h).Costs 0 fun _ => True := by
  have hlt : cellsPerPosition * j + chunksPerBlock + h < cells.nums.length := by
    rw [cells.length_eq]
    unfold cellsPerPosition chunksPerBlock positions at *
    omega
  unfold Cells.state
  rw [List.getElem?_eq_getElem hlt]
  exact Circuit.costs_pure trivial

namespace Message

/-- The message has a selector of its region's last block. -/
def Selected (m : Message F V) (region : Region) : Prop := m.region = region ∧ m.last.bits.length = region.blocks

theorem costs_openRegion (cells : Cells F V) {region : Region} (hpos : 0 < region.blocks)
    (hlt : region.first + region.blocks ≤ positions) (last : Option ℕ) :
    (openRegion cells region last).Costs (0, 3 * region.blocks - 2, 3 * region.blocks - 1) fun r => r.1.Selected region := by
  have hhalf : ∀ h < 2, ((List.range region.blocks).mapM fun j => cells.state (region.first + j) h).Costs
      (region.blocks • 0) fun es => es.length = region.blocks := by
    intro h hh
    refine ((Circuit.Costs.mapM fun j hj => cells.costs_state ?_ hh).mono fun es hes => ?_).cast ?_
    · have hj := List.mem_range.mp hj
      omega
    · exact hes.1.trans List.length_range
    · rw [List.length_range]
  refine ((OneHot.costs_alloc region.blocks last).bind fun last hlast =>
    (hhalf 0 (by decide)).bind fun highs hhighs => (OneHot.costs_select hlast hhighs hpos).bind fun high _ =>
    (hhalf 1 (by decide)).bind fun lows hlows => (OneHot.costs_select hlast hlows hpos).bind_pure fun low _ =>
    ⟨rfl, hlast⟩).cast ?_
  simp only [smul_zero, zero_add, Prod.mk_add_mk]
  congr 2 <;> omega

def chunkCount (len : ℕ) : ℕ := (len + chunkBytes - 1 + chunkBytes - 1) / chunkBytes

theorem costs_chunkAt [ToRepr F] {chunk : OneHot V} (hchunk : chunk.bits.length = chunksPerBlock) {es : List (Lc F V)}
    {k : ℕ} (hk : k + chunksPerBlock ≤ es.length) :
    (chunkAt chunk es k).Costs (0, 131, 132) fun bytes => bytes.length = chunkBytes := by
  have hfour : ((es.drop k).take chunksPerBlock).length = chunksPerBlock := by
    rw [List.length_take, List.length_drop]
    omega
  refine (OneHot.costs_select hchunk hfour (by decide)).bind fun value _ => (costs_bits (n := 8 * chunkBytes)
    (by decide)).bind_pure fun out hout => ?_
  rw [bitBytes, List.length_map, length_chunks, hout]
  rfl

theorem costs_shiftStage {len step n : ℕ} {es : List (Lc F V)} (bit : Boolean V) (hstep : 0 < step)
    (hes : len + step - 1 + step ≤ es.length) (hn : n = len + step - 1) :
    (shiftStage len es (bit, step)).Costs (0, n, n) fun out => out.length = n := by
  subst hn
  have hbyte : ∀ t ∈ List.range (len + step - 1), (shiftByte bit step es t).Costs (0, 1, 1) fun _ => True := by
    intro t ht
    have ht := List.mem_range.mp ht
    have hkept : es[t]? = some es[t] := List.getElem?_eq_getElem (by omega)
    have hshifted : es[t + step]? = some es[t + step] := List.getElem?_eq_getElem (by omega)
    unfold shiftByte
    rw [hkept, hshifted]
    exact costs_mux
  refine ((Circuit.Costs.mapM hbyte).mono fun out hout => ?_).cast ?_
  · exact hout.1.trans List.length_range
  · simp

theorem costs_shift {shift : List (Boolean V)} (hshift : shift.length = 4) {len : ℕ} {es : List (Lc F V)}
    (hes : len + 15 ≤ es.length) :
    ((shift.zip [8, 4, 2, 1]).foldlM (shiftStage len) es).Costs (0, 4 * len + 11, 4 * len + 11) fun out =>
      out.length = len := by
  obtain ⟨b8, b4, b2, b1, rfl⟩ := List.length_eq_four.mp hshift
  simp only [List.zip_cons_cons, List.zip_nil_left, List.foldlM_cons, List.foldlM_nil]
  refine ((costs_shiftStage b8 (n := len + 7) (by decide) (by omega) rfl).bind fun e8 h8 =>
    (costs_shiftStage b4 (n := len + 3) (by decide) (by omega) rfl).bind fun e4 h4 =>
    (costs_shiftStage b2 (n := len + 1) (by decide) (by omega) rfl).bind fun e2 h2 =>
    (costs_shiftStage b1 (n := len) (by decide) (by omega) rfl).bind fun e1 h1 => Circuit.costs_pure h1).cast ?_
  simp only [Prod.mk_add_mk, add_zero]
  congr 2 <;> omega

/-- What reading `len` bytes of a region of so many blocks costs. -/
def readSize (blocks len : ℕ) : Circuit.Size :=
  (0, blocks + 19 + ((chunkCount len + 3) * (blocks - 1) + (131 * chunkCount len + (4 * len + 11))),
    blocks + 22 + ((chunkCount len + 3) * (blocks - 1) + (132 * chunkCount len + (4 * len + 11))))

theorem costs_read [ToRepr F] {m : Message F V} {region : Region} (hm : m.Selected region) (hpos : 0 < region.blocks)
    (pos : Option ℕ) (len : ℕ) :
    (m.read pos len).Costs (readSize region.blocks len) fun r => r.bytes.length = len := by
  obtain ⟨rfl, hlast⟩ := hm
  have hcovers : Covers (pos.map fun a => smallBits (a % chunkBytes) 4) 4 := by
    intro bs hbs
    obtain ⟨a, -, rfl⟩ := Option.map_eq_some_iff.mp hbs
    simp [smallBits]
  have hreached : ∀ (block : OneHot V) (r : ℕ), block.bits.length = m.region.blocks →
      (m.reached block r).Costs (0, m.region.blocks - 1, m.region.blocks - 1) fun _ => True :=
    fun block r hblock => OneHot.costs_select hblock (by rw [List.length_map, List.length_range]) hpos
  have hbytes : ∀ (block chunk : OneHot V) (shift : List (Boolean V)), block.bits.length = m.region.blocks →
      chunk.bits.length = chunksPerBlock → shift.length = 4 →
      (m.readBytes block chunk shift len).Costs
        ((chunkCount len + 3) • (0, m.region.blocks - 1, m.region.blocks - 1) +
          (chunkCount len • (0, 131, 132) + (0, 4 * len + 11, 4 * len + 11))) fun out => out.length = len := by
    intro block chunk shift hblock hchunk hshift
    refine ((Circuit.Costs.mapM fun r _ => hreached block r hblock).cast (by rw [List.length_range]; rfl)).bind fun es hes => ?_
    have hchunks : ∀ k ∈ List.range (chunkCount len), (chunkAt chunk es k).Costs (0, 131, 132) fun bytes =>
        bytes.length = chunkBytes := by
      intro k hk
      have hk := List.mem_range.mp hk
      refine costs_chunkAt hchunk ?_
      have hcount : es.length = chunkCount len + chunksPerBlock - 1 := hes.1.trans List.length_range
      omega
    refine ((Circuit.Costs.mapM hchunks).cast (by rw [List.length_range])).bind fun window hwindow => ?_
    refine costs_shift hshift ?_
    have hlength : window.flatten.length = chunkBytes * chunkCount len := by
      rw [List.length_flatten, List.map_congr_left hwindow.2, List.map_const', List.sum_replicate, hwindow.1,
        List.length_range, smul_eq_mul, Nat.mul_comm]
    rw [hlength, chunkCount]
    unfold chunkBytes
    omega
  refine ((OneHot.costs_alloc m.region.blocks _).bind fun block hblock =>
    (OneHot.costs_alloc chunksPerBlock _).bind fun chunk hchunk => (costs_allocBits hcovers).bind fun shift hshift =>
    (costs_rangeCheck (n := offsetBits) (by decide)).bind fun _ _ =>
    (hbytes block chunk shift hblock hchunk hshift).bind_pure fun bytes h => h).cast ?_
  simp only [readSize, Prod.smul_mk, Prod.mk_add_mk, smul_eq_mul, chunksPerBlock, offsetBits]
  congr 2 <;> ring

end Message

/-! ## The precommitted segment -/

section Core

variable {es : List (Lc F V)}

theorem costs_expect {pattern : List UInt8} (h : es.length = pattern.length) :
    (expect es pattern).Costs (0, 0, (pattern.length + expectGroup - 1) / expectGroup) fun _ => True := by
  refine ((Circuit.costs_assert h).bind fun _ _ => Circuit.Costs.forM fun _ _ => costs_equal).cast ?_
  simp [h]

omit [Field F] [One V] in
theorem costs_bytesAt {places : List ℕ} (h : ∀ i ∈ places, i < es.length) :
    (bytesAt es places).Costs 0 fun _ => True := by
  rw [bytesAt]
  refine ((Circuit.Costs.mapM (P := fun _ => True) fun i hi => ?_).mono fun _ _ => trivial).cast (smul_zero _)
  rw [List.getElem?_eq_getElem (h i hi)]
  exact Circuit.costs_pure trivial

namespace Mdoc

theorem costs_listsDigest {digest : Lc F V × Lc F V} (h : es.length = 34) :
    (listsDigest es digest).Costs (0, 0, 3) fun _ => True := by
  have htwo : (es.take 2).length = digestHead.length := by
    rw [List.length_take, h]
    rfl
  exact (costs_expect htwo).bind fun _ _ => costs_equal.bind fun _ _ => costs_equal

variable [ToRepr F] {m : Message F V} {cells : Cells F V}

theorem costs_dateTime {region : Region} (hm : m.Selected region) (hpos : 0 < region.blocks) (pos : Option ℕ)
    (key : List UInt8) :
    (dateTime m pos key).Costs
      (Message.readSize region.blocks (key.length + 20) + (0, 0, (key.length + expectGroup - 1) / expectGroup))
      fun _ => True := by
  refine (Message.costs_read hm hpos pos _).bind fun window hwindow => ?_
  have hkey : (window.bytes.take key.length).length = key.length := by
    rw [List.length_take, hwindow]
    omega
  have hplaces : ∀ i ∈ dateTimeDigits, i < (window.bytes.drop key.length).length := by
    rw [List.length_drop, hwindow, Nat.add_sub_cancel_left]
    decide
  exact ((costs_expect hkey).bind fun _ _ => (costs_bytesAt hplaces).bind_pure fun _ _ => trivial).cast (add_zero _)

theorem costs_readDeviceKey {region : Region} (hm : m.Selected region) (hpos : 0 < region.blocks) (pos : Option ℕ) :
    (readDeviceKey m pos).Costs (Message.readSize region.blocks deviceKeyLen +
      (0, 0, (deviceKey.length + expectGroup - 1) / expectGroup + (deviceKeyY.length + expectGroup - 1) / expectGroup))
      fun _ => True := by
  refine (Message.costs_read hm hpos pos _).bind fun key hkey => ?_
  have hx : (key.bytes.take deviceKey.length).length = deviceKey.length := by
    rw [List.length_take, hkey]
    decide
  have hy : ((key.bytes.drop (deviceKey.length + 32)).take deviceKeyY.length).length = deviceKeyY.length := by
    rw [List.length_take, List.length_drop, hkey]
    decide
  exact (costs_expect hx).bind fun _ _ => (costs_expect hy).bind_pure fun _ _ => trivial

theorem costs_agePart (constants : Constants F) (cells : Cells F V) (w : Option MdocWitness) :
    (agePart constants cells w fullMdoc).Costs (0, 13169, 13233) fun r =>
      r.1.Selected fullMdoc.signed ∧ r.2.windows.1.length = 48 ∧ r.2.windows.2.length = 40 := by
  have hsigned : 0 < fullMdoc.signed.blocks := by decide
  have hattr : 0 < fullMdoc.attr.blocks := by decide
  have hvalue : ∀ {bytes : List (Lc F V)}, bytes.length = value.length + 10 →
      (bytes.take value.length).length = value.length ∧ ∀ i ∈ dateDigits, i < (bytes.drop value.length).length := by
    intro bytes h
    rw [List.length_take, List.length_drop, h]
    decide
  refine ((Message.costs_openRegion cells hsigned (by decide) _).bind fun signed hm =>
    (Message.costs_openRegion cells hattr (by decide) _).bind fun item hitem =>
    Point.costs_alloc.bind fun key _ => costs_digestBits.bind fun digest hdigest =>
    (costs_verify constants hdigest _).bind fun _ _ => (Message.costs_read hm hsigned _ _).bind fun docType hdocType =>
    (Message.costs_read hm hsigned _ _).bind fun listed hlisted => (costs_listsDigest hlisted).bind fun _ _ =>
    (Message.costs_read hitem hattr _ _).bind fun identifier hidentifier =>
    (Message.costs_read hitem hattr _ _).bind fun dated hdated => (costs_expect (hvalue hdated).1).bind fun _ _ =>
    (costs_bytesAt (hvalue hdated).2).bind fun date _ => (costs_readDeviceKey hm hsigned _).bind fun deviceKey _ =>
    (costs_dateTime hm hsigned _ validFrom).bind fun from_ _ =>
    (costs_dateTime hm hsigned _ validUntil).bind fun until_ _ =>
    (costs_toNums.cast (by rw [hdocType])).bind fun typeSlots htype =>
    (costs_toNums.cast (by rw [hidentifier])).bind_pure fun attributeSlots hattribute =>
      ⟨hm, htype.trans hdocType, hattribute.trans hidentifier⟩).cast ?_
  rfl

theorem costs_seedAndNym [DecidableEq F] (cells : Cells F V) :
    (seedAndNym cells fullRegions).Costs (0, 56, 64) fun r => r.2.length = 5 := by
  have hcovers : ∀ seed : Option F, Covers (seed.map seedLowBits) 56 := by
    intro seed bs hbs
    obtain ⟨v, -, rfl⟩ := Option.map_eq_some_iff.mp hbs
    simp [seedLowBits, smallBits]
  have hseed : ∀ h < 2, (cells.state fullRegions.seed.first h).Costs 0 fun _ => True :=
    fun h hh => cells.costs_state (by decide) hh
  have hnym : ∀ h < 2, (cells.state (fullRegions.nym.first + 1) h).Costs 0 fun _ => True :=
    fun h hh => cells.costs_state (by decide) hh
  have hpadding : (forM seedPadding.zipIdx fun t =>
      equal (cells.chunk (chunksPerBlock * fullRegions.seed.first + (t.2 + 1))) (Lc.constant (fromBe t.1))).Costs (0, 0, 3)
      fun _ => True := Circuit.Costs.forM fun _ _ => costs_equal
  refine (hpadding.bind fun _ _ => (hseed 0 (by decide)).bind fun high _ => (hseed 1 (by decide)).bind fun low _ =>
    costs_equal.bind fun _ _ => costs_equal.bind fun _ _ => (costs_allocBits (hcovers _)).bind fun bits _ =>
    costs_equal.bind fun _ _ => costs_equal.bind fun _ _ =>
    costs_equal.bind fun _ _ => (hnym 0 (by decide)).bind fun nymHigh _ =>
    (hnym 1 (by decide)).bind_pure fun nymLow _ => ?_).cast ?_
  · simp only [List.length_cons, List.length_nil]
  · rfl

theorem costs_nymRules [DecidableEq F] (cells : Cells F V) (hm : m.Selected fullMdoc.signed) {w : Option MdocWitness}
    (hw : KnowsNym w) : (nymRules cells m w fullMdoc).Costs (0, 2212, 2249) fun slots => slots.length = 5 := by
  obtain ⟨n, hn⟩ := exists_nymOf (F := F) (V := V) hw
  have hssc : 0 < fullRegions.ssc.blocks := by decide
  have hvalue : ∀ {bytes : List (Lc F V)}, bytes.length = mdocValue.length + 32 →
      (bytes.take mdocValue.length).length = mdocValue.length := by
    intro bytes h
    rw [List.length_take, h]
    decide
  unfold nymRules
  rw [show (pseudonymRegions fullMdoc : Circuit F V _) = pure fullRegions from rfl, pure_bind, hn, pure_bind]
  exact ((Message.costs_openRegion cells hssc (by decide) _).bind fun item hitem =>
    (Message.costs_read hm (by decide) _ _).bind fun listed hlisted => (costs_listsDigest hlisted).bind fun _ _ =>
    (Message.costs_read hitem hssc _ _).bind fun identifier hidentifier => (costs_expect hidentifier).bind fun _ _ =>
    (Message.costs_read hitem hssc _ _).bind fun committed hcommitted =>
    (costs_expect (hvalue hcommitted)).bind fun _ _ => (costs_seedAndNym cells).bind fun r hr =>
    costs_equal.bind fun _ _ => costs_equal.bind fun _ _ =>
    (costs_toNums.cast (by rw [hr])).mono fun slots hslots => hslots.trans hr).cast rfl

/-- The rules that depend only on the credential cost this much, and return the 100 slots of the rest segment. -/
theorem NymCore.Given.costs_precommitted [DecidableEq F] (constants : Constants F) {c : NymCore} (hc : c.Given)
    (cells : Cells F V) :
    (c.precommitted constants cells).Costs (0, 15388, 15489) fun slots => slots.length = 100 := by
  refine ((costs_agePart constants cells _).bind fun part hpart => Circuit.Costs.bind (k := (0, 7, 7))
    (P := fun slots => slots.length = 95) ?_ fun slots hslots =>
    (costs_nymRules cells hpart.1 hc.nym).bind_pure fun nymSlots hnym => ?_).cast rfl
  · refine costs_toNums.bind_pure fun slots hslots => ?_
    rw [List.length_append, List.length_append, hslots, hpart.2.1, hpart.2.2]
    rfl
  · rw [List.length_append, hslots, hnym]

end Mdoc

end Core

/-! ## The rest segment -/

section Rest

variable {fs : List (AllocatedNum F V)}

omit [One V] in
theorem costs_allocInputs {values : Option (List F)} {n : ℕ} (h : Supplies values n) :
    (allocInputs values n : Circuit F V _).Costs (n, 0, 0) fun out => out.length = n := by
  have hinput : ∀ i ∈ List.range n, (do
      let value ← allocInputs.valueAt values i
      let input ← AllocatedNum.allocInput (assigned value)
      pure (Lc.num input) : Circuit F V _).Costs (1, 0, 0) fun _ => True := by
    intro i hi
    obtain ⟨v, hv⟩ := exists_valueAt (F := F) (V := V) h (List.mem_range.mp hi)
    rw [hv, pure_bind]
    exact AllocatedNum.costs_allocInput.bind_pure fun _ _ => trivial
  refine ((Circuit.Costs.mapM hinput).mono fun out hout => ?_).cast (by simp)
  exact hout.1.trans List.length_range

/-- A window aligned right whose positions are all switched has a switch at each of them. -/
theorem exists_switch {window : Window} (hall : window.thermometer = window.len) (halign : window.align = .right)
    {bits : List (Boolean V)} (hlen : bits.length = window.thermometer) {i : ℕ} (hi : i < window.len) :
    ∃ bit, (switches window bits : List (Option (Lc F V)))[i]? = some (some bit) := by
  have hfold : ∀ m ≤ window.len, ∃ out : List (Option (Lc F V)), (List.range m).foldl (fun switch k =>
      switch.set (window.position k) (bits[window.thermometer - 1 - k]?.map Lc.bit)) (List.replicate window.len none) =
        out ∧ out.length = window.len ∧ ∀ j < window.len, window.len - m ≤ j → ∃ bit, out[j]? = some (some bit) := by
    intro m
    induction m with
    | zero =>
      intro _
      refine ⟨_, rfl, List.length_replicate, fun j hj hge => ?_⟩
      omega
    | succ m ih =>
      intro hm
      obtain ⟨out, hout, hlength, hset⟩ := ih (by omega)
      have hposition : window.position m = window.len - 1 - m := by
        rw [Window.position, halign, hall]
      have hbit : bits[window.thermometer - 1 - m]? = some bits[window.thermometer - 1 - m] :=
        List.getElem?_eq_getElem (by omega)
      refine ⟨out.set (window.len - 1 - m) (some (Lc.bit bits[window.thermometer - 1 - m])), ?_, ?_, fun j hj hge => ?_⟩
      · rw [List.range_succ, List.foldl_append, hout, List.foldl_cons, List.foldl_nil, hposition, hbit]
        rfl
      · rw [List.length_set, hlength]
      · rw [List.getElem?_set]
        split
        · rename_i heq
          rw [if_pos (by omega)]
          exact ⟨_, rfl⟩
        · exact hset j hj (by omega)
  obtain ⟨out, hout, -, hset⟩ := hfold window.thermometer (by omega)
  rw [switches, hout]
  exact hset i hi (by omega)

theorem costs_checkPattern [ToRepr F] (window : Window) (hall : window.thermometer = window.len)
    (halign : window.align = .right) (hempty : window.nonempty = false) (hsmall : window.len < 256)
    (hfs : fs.length = window.len) {values : Option (List F)} (hvalues : Supplies values window.publicCount) :
    (checkPattern window fs values).Costs
      (window.publicCount, 2 * window.len, 2 * window.len + 1 + (window.len + limb - 1) / limb) fun _ => True := by
  have hcompared : ∀ {bits : List (Boolean V)}, bits.length = window.thermometer →
      ∀ t ∈ fs.zip (switches window bits), (comparedByte t).Costs (0, 1, 1) fun _ => True := by
    intro bits hbits t ht
    obtain ⟨i, hi, rfl⟩ := List.mem_iff_getElem.mp ht
    have hlt : i < window.len := by
      rw [List.length_zip, hfs] at hi
      omega
    obtain ⟨bit, hbit⟩ := exists_switch (F := F) hall halign hbits hlt
    have hswitch := List.getElem?_eq_some_iff.mp hbit
    rw [List.getElem_zip, hswitch.2]
    exact costs_mul
  have hlimbs : ∀ {bits : List (Boolean V)} {compared inputs : List (Lc F V)}, inputs.length = window.publicCount →
      compared.length = (fs.zip (switches window bits : List (Option (Lc F V)))).length →
      ((chunks limb compared).zip inputs.dropLast).length = (window.len + limb - 1) / limb := by
    intro bits compared inputs hinputs hlen
    rw [List.length_zip, length_switches, hfs, Nat.min_self] at hlen
    rw [List.length_zip, length_chunks, hlen, List.length_dropLast, hinputs, Window.publicCount, Nat.add_sub_cancel,
      Nat.min_self]
  have hnonempty : ∀ bits : List (Boolean V), (checkNonempty window bits : Circuit F V Unit).Costs 0 fun _ => True := by
    intro bits
    rw [checkNonempty, hempty, if_neg (by decide)]
    exact Circuit.costs_pure trivial
  have hswitched : ∀ bits : List (Boolean V), (fs.zip (switches window bits : List (Option (Lc F V)))).length = window.len := by
    intro bits
    rw [List.length_zip, length_switches, hfs, Nat.min_self]
  refine ((Circuit.costs_assert hfs).bind fun _ _ => (costs_allocInputs hvalues).bind fun inputs hinputs =>
    (costs_bits (by omega)).bind fun bits hbits => (hnonempty bits).bind fun _ _ =>
    ((Circuit.Costs.mapM (hcompared hbits)).cast (by rw [hswitched])).bind fun compared hlen =>
    (Circuit.Costs.forM fun _ _ => costs_equal).cast (by rw [hlimbs hinputs hlen.1])).cast ?_
  simp only [Prod.smul_mk, Prod.mk_add_mk, smul_eq_mul, zero_add, hall, Prod.mk.injEq]
  refine ⟨?_, ?_, ?_⟩ <;> ring

theorem costs_checkFacts [ToRepr F] (constants : Constants F) (signature : Option Signature) {facts pub : List (Lc F V)}
    (hfacts : facts.length = 7) (hpub : pub.length = 7) :
    (checkFacts constants signature facts pub).Costs (0, 7202, 7213) fun _ => True := by
  obtain _ | ⟨issuerX, _ | ⟨issuerY, _ | ⟨birth, _ | ⟨from_, _ | ⟨until_, _ | ⟨deviceX, _ | ⟨deviceY, _ | _⟩⟩⟩⟩⟩⟩⟩ := facts
  all_goals first | (simp only [List.length_cons, List.length_nil] at hfacts; omega) | skip
  obtain _ | ⟨publicX, _ | ⟨publicY, _ | ⟨bornFrom, _ | ⟨bornBy, _ | ⟨now, _ | ⟨high, _ | ⟨low, _ | _⟩⟩⟩⟩⟩⟩⟩ := pub
  all_goals first | (simp only [List.length_cons, List.length_nil] at hpub; omega) | skip
  exact (costs_equal.bind fun _ _ => costs_equal.bind fun _ _ => (costs_rangeCheck (n := 27) (by decide)).bind fun _ _ =>
    (costs_rangeCheck (n := 27) (by decide)).bind fun _ _ => (costs_rangeCheck (n := 47) (by decide)).bind fun _ _ =>
    (costs_rangeCheck (n := 47) (by decide)).bind fun _ _ => costs_digestBits.bind fun challenge hchallenge =>
    costs_verify constants hchallenge signature).cast rfl

omit [Field F] [One V] in
theorem costs_rejectSlots {p : Prop} [Decidable p] (h : p) :
    (rejectSlots p : Circuit F V Unit).Costs 0 fun _ => True := by
  rw [rejectSlots, if_pos h]
  exact Circuit.costs_pure trivial

theorem costs_check [ToRepr F] (constants : Constants F) (hfs : fs.length = 95) {presentation : Option Presentation}
    (hp : ForWindows presentation windows) :
    (check constants fs presentation windows).Costs (13, 7378, 7395) fun _ => True := by
  have hlen : fs.length = baseValues + windows.1.len + windows.2.len := hfs
  have htype : ((fs.drop baseValues).take windows.1.len).length = docTypeWindow.len := by
    rw [List.length_take, List.length_drop, hfs]
    rfl
  have hname : ((fs.drop baseValues).drop windows.1.len).length = identifierWindow.len := by
    rw [List.length_drop, List.length_drop, hfs]
    rfl
  have hfacts : ((fs.take baseValues).map Lc.num : List (Lc F V)).length = 7 := by
    rw [List.length_map, List.length_take, hfs]
    rfl
  unfold check
  rw [hp.rejectWindows_eq, pure_bind]
  exact ((costs_allocInputs (supplies_base presentation)).bind fun pub hpub => (costs_rejectSlots hlen).bind fun _ _ =>
    (costs_checkPattern docTypeWindow rfl rfl rfl (by decide) htype hp.supplies_type).bind fun _ _ =>
    (costs_checkPattern identifierWindow rfl rfl rfl (by decide) hname hp.supplies_name).bind fun _ _ =>
    costs_checkFacts constants _ hfacts hpub).cast rfl

theorem costs_checkPseudonym (hfs : fs.length = nymValues) (nym : Option NymPublic) :
    (checkPseudonym fs nym).Costs (5, 0, 5) fun _ => True := by
  have hzip : ∀ {pub : List (Lc F V)} (a : Lc F V), pub.length = nymValues → (fs.zip (pub.set 2 a)).length = 5 := by
    intro pub a hpub
    rw [List.length_zip, List.length_set, hfs, hpub]
    rfl
  exact ((costs_allocInputs (supplies_nym nym)).bind fun pub hpub => (costs_rejectSlots hfs).bind fun _ _ =>
    (Circuit.Costs.forM fun _ _ => costs_equal).cast (by rw [hzip _ hpub])).cast rfl

theorem MdocNymCore.costs_synthesize [ToRepr F] (constants : Constants F) {c : MdocNymCore}
    (hc : ForWindows c.presentation windows) (hfs : fs.length = 100) :
    (c.synthesize constants fs).Costs (18, 7378, 7400) fun _ => True := by
  have htake : (fs.take (baseValues + windows.1.len + windows.2.len)).length = 95 := by
    rw [List.length_take, hfs]
    rfl
  have hdrop : (fs.drop (baseValues + windows.1.len + windows.2.len)).length = nymValues := by
    rw [List.length_drop, hfs]
    rfl
  exact ((costs_rejectSlots hfs).bind fun _ _ => (costs_check constants htake hc).bind fun _ _ =>
    costs_checkPseudonym hdrop _).cast rfl

end Rest

/-! ## The core circuit -/

omit [One V] in
theorem costs_sharedCells (t : Option Table) : (sharedCells t : Circuit F V _).Costs (0, 194, 0) fun _ => True := by
  have halloc : (allocateTable t : Circuit F V (List (AllocatedNum F V))).Costs (0, 194, 0) fun nums =>
      nums.length = cellsPerPosition * positions + 2 := by
    refine ((Circuit.Costs.mapM fun _ _ => AllocatedNum.costs_alloc).mono fun nums h => h.1.trans List.length_range).cast ?_
    rw [List.length_range, Prod.smul_mk, Prod.smul_mk]
    rfl
  refine (halloc.bind fun nums h => ?_).cast (add_zero _)
  rw [dif_pos h]
  exact Circuit.costs_pure trivial

theorem costs_coreCircuit [DecidableEq F] [ToRepr F] (constants : Constants F) {core : NymCore}
    (hcore : core.Given) (table : Option Table) :
    (coreCircuit constants core table : Circuit F V Unit).Costs (18, 22960, 22889) fun _ => True := by
  have hrules : ∀ cells : Cells F V, (core.rules constants cells).Costs (18, 22766, 22889) fun _ => True := by
    intro cells
    refine ((hcore.costs_precommitted constants cells).bind fun _ hslots =>
      MdocNymCore.costs_synthesize constants hcore.windows hslots).cast ?_
    simp only [Prod.mk_add_mk]
  refine ((costs_sharedCells table).bind fun cells _ => hrules cells).cast ?_
  simp only [Prod.mk_add_mk]

/-- A core that is given a witness of the age statement does not get past its credential's rules. -/
theorem stops_precommitted [DecidableEq F] [ToRepr F] (constants : Constants F) {core : NymCore}
    (hnym : ¬KnowsNym core.witness) (cells : Cells F V) : (core.precommitted constants cells).Stops := by
  obtain ⟨w, hw, hnone⟩ : ∃ w ∈ core.witness, w.nym = none := by
    simpa [KnowsNym] using hnym
  have hnymOf : (nymOf core.witness : Circuit F V _) = .fail .assignmentMissing := by
    rw [Option.mem_def.mp hw]
    simp only [nymOf, hnone]
  have hrules : ∀ m : Message F V, (nymRules cells m core.witness fullMdoc).Stops := by
    intro m
    unfold nymRules
    refine Circuit.stops_bind fun regions => ?_
    rw [hnymOf]
    exact (Circuit.stops_fail _).bind
  unfold NymCore.precommitted
  exact Circuit.stops_bind fun part => Circuit.stops_bind fun slots => (hrules part.1).bind

/-- A core that is given a presentation for other windows does not get past its presentation's rules. -/
theorem stops_synthesize [ToRepr F] (constants : Constants F) {core : MdocNymCore}
    (hwindows : ¬ForWindows core.presentation windows) (slots : List (AllocatedNum F V)) :
    (core.synthesize constants slots).Stops := by
  have hreject : (rejectWindows core.presentation windows : Circuit F V Unit) = .fail .unsatisfiable := by
    obtain ⟨p, hp, hne⟩ : ∃ p ∈ core.presentation, p.pub.request.windows ≠ windows := by
      simpa [ForWindows] using hwindows
    rw [rejectWindows, hp, Option.any_some, if_pos (by simpa using hne)]
  have hcheck : ∀ fs : List (AllocatedNum F V), (check constants fs core.presentation windows).Stops := by
    intro fs
    rw [check, hreject]
    exact (Circuit.stops_fail _).bind
  unfold MdocNymCore.synthesize
  exact Circuit.stops_bind fun _ => (hcheck _).bind

end Gadgets

/-! ## Setup -/

section Setup

variable {F : Type} [Field F] [DecidableEq F] [ToRepr F]

/-- The constraint system that the builder makes of a core instance, with the variables of its three segments. -/
def coreShape (constants : Constants F) (core : NymCore) (table : Option Table) : Outcome (SegmentedShape F) :=
  Circuit.segmentedShape (sharedCells table) (core.precommitted constants) fun _ slots =>
    core.toMdocNymCore.synthesize constants slots

theorem coreShape_eq_blank (constants : Constants F) {core : NymCore} (hcore : core.Given) (table : Option Table) :
    coreShape constants core table = coreShape constants .blank none :=
  (same_sharedCells table none).segmentedShape_eq
    (fun _ _ hcells => NymCore.same_precommitted constants hcore NymCore.given_blank hcells)
    fun _ _ _ _ _ hslots => MdocNymCore.same_synthesize constants hcore.windows NymCore.given_blank.windows hslots

/-- How many variables each segment of the core has, and how many rules there are. -/
theorem coreShape_eq_ok (constants : Constants F) {core : NymCore} (hcore : core.Given) (table : Option Table) :
    ∃ rows, coreShape constants core table = .ok ⟨19, 194, 15388, 7378, rows⟩ ∧ rows.length = 22889 :=
  (costs_sharedCells table).segmentedShape (fun cells _ => hcore.costs_precommitted constants cells)
    fun _ _ _ hslots => MdocNymCore.costs_synthesize constants hcore.windows hslots

/-- A core instance builds the constraint system that setup builds from the blank core, segment by segment, exactly
when it is given a witness with the `ssc` item, or none, and a presentation for the circuit's windows, or none. Any
other instance builds no system. -/
theorem coreCircuit_shape_iff (constants : Constants F) (core : NymCore) (table : Option Table) :
    (coreShape constants core table = coreShape constants .blank none ↔ core.Given) ∧
      (¬core.Given → ∃ e, coreShape constants core table = .error e) := by
  have hstops : ¬core.Given → ∃ e, coreShape constants core table = .error e := by
    intro hcore
    by_cases hnym : KnowsNym core.witness
    · have hwindows : ¬ForWindows core.presentation windows := fun h => hcore ⟨hnym, h⟩
      exact Circuit.Stops.segmentedShape (.inr fun _ slots => stops_synthesize constants hwindows slots)
    · exact Circuit.Stops.segmentedShape (.inl fun cells => stops_precommitted constants hnym cells)
  refine ⟨⟨fun heq => ?_, fun hcore => coreShape_eq_blank constants hcore table⟩, hstops⟩
  by_contra hcore
  obtain ⟨e, he⟩ := hstops hcore
  obtain ⟨rows, hok, -⟩ := coreShape_eq_ok constants NymCore.given_blank none
  rw [he, hok] at heq
  cases heq

/-- `within_budget`: whether a circuit of so many rules and padded values is within the budget. -/
def withinBudget (rules values budget : ℕ) : Bool := !(rules > budget || values > budget)

/-- Every core instance that is given what it asks for has one size in each of its segments: 194, 15,388 and 7,378
private values, 18 public ones after the constant one, and 22,889 rules. However a prover pads them, a budget under
22,960 is too small. -/
theorem coreCircuit_sizes (constants : Constants F) {core : NymCore} (hcore : core.Given) (table : Option Table) :
    (∃ rows, coreShape constants core table = .ok ⟨1 + 18, 194, 15388, 7378, rows⟩ ∧ rows.length = 22889) ∧
    (∀ cells : Cells F Index, (core.precommitted constants cells).Costs (0, 15388, 15489) fun slots =>
      slots.length = 100) ∧
    (∀ slots : List (AllocatedNum F Index), slots.length = 100 →
      (core.toMdocNymCore.synthesize constants slots).Costs (18, 7378, 7400) fun _ => True) ∧
    ∀ rules shared precommitted rest budget, 194 ≤ shared → 15388 ≤ precommitted → 7378 ≤ rest →
      withinBudget rules (shared + precommitted + rest) budget = true → 22960 ≤ budget := by
  refine ⟨coreShape_eq_ok constants hcore table, hcore.costs_precommitted constants, fun slots hslots =>
    MdocNymCore.costs_synthesize constants hcore.windows hslots, ?_⟩
  intro rules shared precommitted rest budget hshared hprecommitted hrest hwithin
  simp only [withinBudget, Bool.not_eq_true', Bool.or_eq_false_iff, decide_eq_false_iff_not, not_lt] at hwithin
  omega

theorem coreCircuit_sizes_blank :
    ∃ rows, coreShape zeroConstants .blank none = .ok ⟨19, 194, 15388, 7378, rows⟩ ∧ rows.length = 22889 :=
  (coreCircuit_sizes zeroConstants NymCore.given_blank none).1

end Setup

end Nym

end ZkCredVega
