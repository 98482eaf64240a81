import ZkCredVega.Claims.SigStructure

/-!
# The spliced buffer

`assemble_mso_sig_structure` of `mso_splice.rs` places four keys of witnessed widths, their
tails and the suffix at positions that are one-hots over all the sums of widths. A disjunction
over the placements is worth what the one that covers the byte gives, so the buffer is the
concatenation that the selected widths say, for every prover, followed by zeros.
-/

namespace ZkCredVega

open Circuits

namespace Mso

section Disjunctions

variable {F : Type} [Field F] {who : Circuit.Prover}

/-- The disjunction of the terms is worth `x`. -/
def Worth (who : Circuit.Prover) (terms : List (Circuit F F (Boolean F))) (x : Bool) : Prop :=
  ∃ xs : List Bool, List.Forall₂ (fun t b => t.Yields who (·.Holds who b)) terms xs ∧ xs.any id = x

theorem Worth.nil : Worth who ([] : List (Circuit F F (Boolean F))) false := ⟨[], .nil, rfl⟩

theorem Worth.append {ts us : List (Circuit F F (Boolean F))} {x y : Bool} (ht : Worth who ts x)
    (hu : Worth who us y) : Worth who (ts ++ us) (x || y) := by
  obtain ⟨xs, hxs, rfl⟩ := ht
  obtain ⟨ys, hys, rfl⟩ := hu
  exact ⟨xs ++ ys, List.rel_append hxs hys, List.any_append⟩

theorem Worth.map {α : Type} {ts : List α} {f : α → Circuit F F (Boolean F)} {g : α → Bool}
    (h : ∀ t ∈ ts, (f t).Yields who (·.Holds who (g t))) : Worth who (ts.map f) (ts.any g) := by
  refine ⟨ts.map g, ?_, by rw [List.any_map]; rfl⟩
  rw [List.forall₂_map_left_iff, List.forall₂_map_right_iff, List.forall₂_same]
  exact h

theorem Worth.flatMap {α : Type} {ts : List α} {f : α → List (Circuit F F (Boolean F))} {g : α → Bool}
    (h : ∀ t ∈ ts, Worth who (f t) (g t)) : Worth who (ts.flatMap f) (ts.any g) := by
  induction ts with
  | nil => exact .nil
  | cons t ts ih =>
    rw [List.flatMap_cons, List.any_cons]
    exact (h t List.mem_cons_self).append (ih fun u hu => h u (List.mem_cons_of_mem _ hu))

/-- What the disjunction so far is worth; there is one once there is a term. -/
theorem Worth.yields_foldlM {ts : List (Circuit F F (Boolean F))} {x : Bool} (h : Worth who ts x)
    {acc : Option (Boolean F)} {a : Bool} (hacc : (acc.getD (.constant false)).Holds who a) :
    (ts.foldlM orStep acc).Yields who fun o => (o.getD (.constant false)).Holds who (a || x) ∧
      (ts ≠ [] ∨ acc.isSome = true → o.isSome = true) := by
  obtain ⟨xs, hxs, rfl⟩ := h
  induction hxs generalizing acc a with
  | nil =>
    rw [List.any_nil, Bool.or_false]
    exact Circuit.yields_pure ⟨hacc, fun h => h.resolve_left fun hne => hne rfl⟩
  | @cons t b ts bs hterm _ ih =>
    have hstep : (orStep acc t).Yields who fun o => (o.getD (.constant false)).Holds who (a || b) ∧
        o.isSome = true := by
      refine hterm.bind fun c hc => ?_
      cases acc with
      | none =>
        have hconstant : (Boolean.constant false : Boolean F).Holds who false := Boolean.holds_constant
        have hfalse : a = false := hacc.reads.unique hconstant.reads
        rw [hfalse, Bool.false_or]
        exact Circuit.yields_pure ⟨hc, rfl⟩
      | some prev => exact Circuit.Yields.map ((Boolean.yields_or hacc hc).mono fun d hd => ⟨hd, rfl⟩)
    rw [List.foldlM_cons, List.any_cons, ← Bool.or_assoc]
    refine hstep.bind fun o ho => (ih ho.1).mono fun o' ho' => ⟨ho'.1, fun _ => ho'.2 (Or.inr ho.2)⟩

theorem Worth.yields_orAll {ts : List (Circuit F F (Boolean F))} {x : Bool} (h : Worth who ts x) :
    (orAll ts).Yields who fun o => (o.getD (.constant false)).Holds who x ∧ (ts ≠ [] → o.isSome = true) := by
  have hfold : (ts.foldlM orStep none).Yields who _ := h.yields_foldlM Boolean.holds_constant
  refine hfold.mono fun o ho => ?_
  rw [Bool.false_or] at ho
  exact ⟨ho.1, fun hne => ho.2 (Or.inl hne)⟩

end Disjunctions

/-! ## Cursors -/

section Cursors

variable {F : Type} [Field F] {who : Circuit.Prover}

/-- The cursor's one-hot selects the position `v`. -/
structure Cursor.At (who : Circuit.Prover) (c : Cursor F) (v : ℕ) : Prop where
  mem : v ∈ c.2
  holds : Boolean.HoldsAll who c.1 (c.2.map (· == v))

theorem Cursor.At.length_eq {c : Cursor F} {v : ℕ} (h : Cursor.At who c v) : c.1.length = c.2.length := by
  rw [h.holds.length_eq, List.length_map]

theorem Cursor.At.nth {c : Cursor F} {v : ℕ} (h : Cursor.At who c v) {t : ℕ × ℕ} (ht : t ∈ c.2.zipIdx) :
    (Boolean.nth c.1 t.2).Holds who (t.1 == v) := by
  have hget := List.mem_zipIdx_iff_getElem?.mp ht
  have hnth := h.holds.nth t.2
  rw [List.getD_eq_getElem?_getD, List.getElem?_map, hget] at hnth
  exact hnth

theorem mem_zipIdx_of_mem {xs : List ℕ} {v : ℕ} (h : v ∈ xs) : ∃ t ∈ xs.zipIdx, t.1 = v := by
  obtain ⟨i, hi⟩ := List.mem_iff_getElem?.mp h
  exact ⟨(v, i), List.mem_zipIdx_iff_getElem?.mpr hi, rfl⟩

theorem worth_sumTerms {a b : Cursor F} {x y : ℕ} (ha : Cursor.At who a x) (hb : Cursor.At who b y) (sum : ℕ) :
    Worth who (sumTerms a b sum) (sum == x + y) := by
  have hworth : Worth who (sumTerms a b sum) (a.2.zipIdx.any fun s =>
      (b.2.zipIdx.filter fun t => s.1 + t.1 = sum).any fun t => s.1 == x && t.1 == y) := by
    refine .flatMap fun s hs => .map fun t ht => ?_
    exact Boolean.yields_and (ha.nth hs) (hb.nth (List.mem_filter.mp ht).1)
  have heq : (a.2.zipIdx.any fun s => (b.2.zipIdx.filter fun t => s.1 + t.1 = sum).any fun t =>
      s.1 == x && t.1 == y) = (sum == x + y) := by
    apply Bool.eq_iff_iff.mpr
    simp only [List.any_eq_true, List.mem_filter, Bool.and_eq_true, beq_iff_eq, decide_eq_true_eq]
    constructor
    · rintro ⟨s, -, t, ⟨-, hsum⟩, hsx, hty⟩
      omega
    · intro hsum
      obtain ⟨s, hs, hsx⟩ := mem_zipIdx_of_mem ha.mem
      obtain ⟨t, ht, hty⟩ := mem_zipIdx_of_mem hb.mem
      exact ⟨s, hs, t, ⟨ht, by omega⟩, hsx, hty⟩
  rwa [heq] at hworth

theorem mem_sumValues {a b : List ℕ} {x y : ℕ} (hx : x ∈ a) (hy : y ∈ b) : x + y ∈ sumValues a b := by
  rw [sumValues, List.mem_dedup, List.mem_mergeSort]
  exact List.mem_flatMap.mpr ⟨x, hx, List.mem_map.mpr ⟨y, hy, rfl⟩⟩

/-- The convolution of two one-hots selects the sum of what they select. -/
theorem yields_convolveSum {a b : Cursor F} {x y : ℕ} (ha : Cursor.At who a x) (hb : Cursor.At who b y) :
    (convolveSum a b).Yields who (Cursor.At who · (x + y)) := by
  refine (Circuit.yields_assert ha.length_eq).bind fun _ _ => (Circuit.yields_assert hb.length_eq).bind fun _ _ => ?_
  have hbit : ∀ sum ∈ sumValues a.2 b.2, (do
      let acc ← orAll (sumTerms a b sum)
      expectSome acc : Circuit F F _).Yields who (·.Holds who (sum == x + y)) := by
    intro sum hsum
    refine (worth_sumTerms ha hb sum).yields_orAll.bind fun o ho => ?_
    obtain ⟨c, rfl⟩ := Option.isSome_iff_exists.mp (ho.2 (sumTerms_ne_nil hsum))
    exact Circuit.yields_pure ho.1
  refine (Circuit.Yields.mapM hbit).bind fun onehot honehot => Circuit.yields_pure ?_
  exact ⟨mem_sumValues ha.mem hb.mem, .of_forall₂ honehot⟩

structure SelectsWidth (who : Circuit.Prover) (onehot : List (Boolean F)) (w : ℕ) : Prop where
  mem : w ∈ digestIdWidths
  holds : Boolean.HoldsAll who onehot (digestIdWidths.map (· == w))

theorem SelectsWidth.cursor {onehot : List (Boolean F)} {w : ℕ} (h : SelectsWidth who onehot w) :
    Cursor.At who (onehot, digestIdWidths) w := ⟨h.mem, h.holds⟩

theorem yields_endCursor {start : Cursor F} {p w : ℕ} {onehot : List (Boolean F)} (hstart : Cursor.At who start p)
    (honehot : SelectsWidth who onehot w) : (endCursor start onehot).Yields who (Cursor.At who · (p + w)) := by
  unfold endCursor
  by_cases hone : start.2.length = 1
  · rw [if_pos hone]
    obtain ⟨q, hq⟩ := List.length_eq_one_iff.mp hone
    obtain rfl : p = q := by
      have hmem := hstart.mem
      rw [hq] at hmem
      exact List.mem_singleton.mp hmem
    refine Circuit.yields_pure ⟨?_, ?_⟩
    · rw [hq, Nat.add_comm]
      exact List.mem_map.mpr ⟨w, honehot.mem, rfl⟩
    · have hvalues : (digestIdWidths.map fun x => x + start.2.headD 0).map (· == p + w) =
          digestIdWidths.map (· == w) := by
        rw [hq, List.map_map]
        apply List.map_congr_left
        intro x _
        apply Bool.eq_iff_iff.mpr
        simp only [Function.comp_apply, List.headD_cons, beq_iff_eq]
        omega
      show Boolean.HoldsAll who onehot _
      rw [hvalues]
      exact honehot.holds
  · rw [if_neg hone]
    exact yields_convolveSum hstart honehot.cursor

theorem Cursor.At.shift {c : Cursor F} {v : ℕ} (h : Cursor.At who c v) (n : ℕ) :
    Cursor.At who (c.1, c.2.map fun x => x + n) (v + n) := by
  refine ⟨List.mem_map.mpr ⟨v, h.mem, rfl⟩, ?_⟩
  have hvalues : (c.2.map fun x => x + n).map (· == v + n) = c.2.map (· == v) := by
    rw [List.map_map]
    apply List.map_congr_left
    intro x _
    apply Bool.eq_iff_iff.mpr
    simp only [Function.comp_apply, beq_iff_eq]
    omega
  show Boolean.HoldsAll who c.1 _
  rw [hvalues]
  exact h.holds

end Cursors

/-! ## Segments -/

/-- A bit of the bytes placed at `start`; zero outside of them. -/
def segmentBit (start : ℕ) (bytes : List UInt8) (byte bitIdx : ℕ) : Bool :=
  decide (start ≤ byte) && (bytes.getD (byte - start) 0).toNat.testBit (7 - bitIdx)

theorem segmentBit_nil (start byte bitIdx : ℕ) : segmentBit start [] byte bitIdx = false := by
  simp [segmentBit]

theorem segmentBit_append (start : ℕ) (as bs : List UInt8) (byte bitIdx : ℕ) :
    segmentBit start (as ++ bs) byte bitIdx =
      (segmentBit start as byte bitIdx || segmentBit (start + as.length) bs byte bitIdx) := by
  unfold segmentBit
  simp only [List.getD_eq_getElem?_getD]
  by_cases hstart : start ≤ byte
  · by_cases hin : byte - start < as.length
    · have hnot : ¬start + as.length ≤ byte := by omega
      rw [List.getElem?_append_left hin, decide_eq_false hnot, Bool.false_and, Bool.or_false]
    · have hnext : start + as.length ≤ byte := by omega
      rw [List.getElem?_append_right (by omega), List.getElem?_eq_none (show as.length ≤ byte - start by omega),
        decide_eq_true hstart, decide_eq_true hnext]
      simp [Nat.sub_sub]
  · have hnext : ¬start + as.length ≤ byte := by omega
    rw [decide_eq_false hstart, decide_eq_false hnext]
    rfl

theorem segmentBit_of_lt {start byte : ℕ} (h : byte < start) (bytes : List UInt8) (bitIdx : ℕ) :
    segmentBit start bytes byte bitIdx = false := by
  rw [segmentBit, decide_eq_false (by omega), Bool.false_and]

theorem segmentBit_of_ge {start byte : ℕ} {bytes : List UInt8} (h : start + bytes.length ≤ byte) (bitIdx : ℕ) :
    segmentBit start bytes byte bitIdx = false := by
  rw [segmentBit, List.getD_eq_getElem?_getD, List.getElem?_eq_none (by omega)]
  simp

section Placements

variable {F : Type} [Field F] {who : Circuit.Prover} {bitIdx : ℕ}

theorem holds_contentBit {content : List (Boolean F)} {bytes : List UInt8}
    (h : Boolean.HoldsAll who content (bytesBits bytes)) (i : ℕ) (hbit : bitIdx < 8) :
    (Boolean.nth content (i * 8 + bitIdx)).Holds who ((bytes.getD i 0).toNat.testBit (7 - bitIdx)) :=
  holds_window who i h hbit

theorem length_content {content : List (Boolean F)} {bytes : List UInt8}
    (h : Boolean.HoldsAll who content (bytesBits bytes)) : content.length / 8 = bytes.length := by
  rw [h.length_eq, length_bytesBits]
  omega

/-- A placement of fixed width gives the bits of its bytes where it is. -/
theorem worth_fixedWidth {cursor : Cursor F} {content : List (Boolean F)} {start : ℕ} {bytes : List UInt8}
    (hcursor : Cursor.At who cursor start) (hcontent : Boolean.HoldsAll who content (bytesBits bytes)) (byte : ℕ)
    (hbit : bitIdx < 8) :
    Worth who ((Placement.fixedWidth cursor content).terms byte bitIdx) (segmentBit start bytes byte bitIdx) := by
  have hworth : Worth who ((Placement.fixedWidth cursor content).terms byte bitIdx)
      ((cursor.2.zipIdx.filter fun s => s.1 ≤ byte ∧ byte < s.1 + content.length / 8).any fun s =>
        s.1 == start && (bytes.getD (byte - s.1) 0).toNat.testBit (7 - bitIdx)) := by
    refine .map fun s hs => ?_
    exact Boolean.yields_and (hcursor.nth (List.mem_filter.mp hs).1) (holds_contentBit hcontent _ hbit)
  have heq : ((cursor.2.zipIdx.filter fun s => s.1 ≤ byte ∧ byte < s.1 + content.length / 8).any fun s =>
      s.1 == start && (bytes.getD (byte - s.1) 0).toNat.testBit (7 - bitIdx)) =
        segmentBit start bytes byte bitIdx := by
    rw [length_content hcontent]
    apply Bool.eq_iff_iff.mpr
    simp only [List.any_eq_true, List.mem_filter, Bool.and_eq_true, beq_iff_eq, decide_eq_true_eq]
    constructor
    · rintro ⟨s, ⟨-, hle, -⟩, rfl, hset⟩
      rw [segmentBit, decide_eq_true hle, Bool.true_and]
      exact hset
    · intro hset
      have hle : start ≤ byte := by
        by_contra hlt
        rw [segmentBit_of_lt (by omega)] at hset
        cases hset
      have hlt : byte < start + bytes.length := by
        by_contra hge
        rw [segmentBit_of_ge (by omega)] at hset
        cases hset
      obtain ⟨s, hs, rfl⟩ := mem_zipIdx_of_mem hcursor.mem
      rw [segmentBit, decide_eq_true hle, Bool.true_and] at hset
      exact ⟨s, ⟨hs, hle, hlt⟩, rfl, hset⟩
  rwa [heq] at hworth

/-- A key places the bytes of the width that is selected. -/
theorem worth_variableWidth {cursor : Cursor F} {onehot content : List (Boolean F)} {start w : ℕ}
    {bytes : List UInt8} (hcursor : Cursor.At who cursor start) (hwidth : SelectsWidth who onehot w)
    (hcontent : Boolean.HoldsAll who content (bytesBits bytes)) (byte : ℕ) (hbit : bitIdx < 8) :
    Worth who ((Placement.variableWidth cursor onehot content).terms byte bitIdx)
      (segmentBit start (bytes.take w) byte bitIdx) := by
  have hworth : Worth who ((Placement.variableWidth cursor onehot content).terms byte bitIdx)
      (cursor.2.zipIdx.any fun s => (digestIdWidths.zipIdx.filter fun t => s.1 ≤ byte ∧ byte < s.1 + t.1).any fun t =>
        (s.1 == start && t.1 == w) && (bytes.getD (byte - s.1) 0).toNat.testBit (7 - bitIdx)) := by
    refine .flatMap fun s hs => .map fun t ht => ?_
    refine (Boolean.yields_and (hcursor.nth hs) (hwidth.cursor.nth (List.mem_filter.mp ht).1)).bind fun both hboth => ?_
    exact Boolean.yields_and hboth (holds_contentBit hcontent _ hbit)
  have hbits : ∀ i < w, (bytes.take w).getD i 0 = bytes.getD i 0 := by
    intro i hi
    rw [List.getD_eq_getElem?_getD, List.getD_eq_getElem?_getD, List.getElem?_take_of_lt hi]
  have heq : (cursor.2.zipIdx.any fun s => (digestIdWidths.zipIdx.filter fun t =>
      s.1 ≤ byte ∧ byte < s.1 + t.1).any fun t =>
        (s.1 == start && t.1 == w) && (bytes.getD (byte - s.1) 0).toNat.testBit (7 - bitIdx)) =
        segmentBit start (bytes.take w) byte bitIdx := by
    apply Bool.eq_iff_iff.mpr
    simp only [List.any_eq_true, List.mem_filter, Bool.and_eq_true, beq_iff_eq, decide_eq_true_eq]
    constructor
    · rintro ⟨s, -, t, ⟨-, hle, hlt⟩, ⟨rfl, rfl⟩, hset⟩
      rw [segmentBit, decide_eq_true hle, Bool.true_and, hbits _ (by omega)]
      exact hset
    · intro hset
      have hle : start ≤ byte := by
        by_contra hlt
        rw [segmentBit_of_lt (by omega)] at hset
        cases hset
      have hlt : byte < start + w := by
        by_contra hge
        have hlength := List.length_take_le w bytes
        rw [segmentBit_of_ge (by omega)] at hset
        cases hset
      obtain ⟨s, hs, rfl⟩ := mem_zipIdx_of_mem hcursor.mem
      obtain ⟨t, ht, rfl⟩ := mem_zipIdx_of_mem hwidth.mem
      rw [segmentBit, decide_eq_true hle, Bool.true_and, hbits _ (by omega)] at hset
      exact ⟨s, hs, t, ⟨ht, hle, hlt⟩, ⟨rfl, rfl⟩, hset⟩
  rwa [heq] at hworth

end Placements

/-! ## The splice -/

section Splice

variable {F : Type} [Field F] {who : Circuit.Prover}

/-- What an entry puts in the buffer: the width of its key, the bytes the key is taken from, and the tail. -/
structure SplicedEntry where
  width : ℕ
  content : List UInt8
  tail : List UInt8

def SplicedEntry.bytes (e : SplicedEntry) : List UInt8 := e.content.take e.width ++ e.tail

structure EntryKey.Holds (who : Circuit.Prover) (t : EntryKey F × DigestIdEntry F) (e : SplicedEntry) : Prop where
  width : SelectsWidth who t.1.onehot e.width
  content : Boolean.HoldsAll who t.1.content (bytesBits e.content)
  length_content : e.content.length = maxCborUintBytes
  tail : Boolean.HoldsAll who t.2.tailBits (bytesBits e.tail)
  length_tail : e.tail.length = entryTailLen

theorem EntryKey.Holds.width_le {t : EntryKey F × DigestIdEntry F} {e : SplicedEntry} (h : EntryKey.Holds who t e) :
    e.width ≤ maxCborUintBytes := by
  have hmax : ∀ w ∈ digestIdWidths, w ≤ maxCborUintBytes := by decide
  exact hmax _ h.width.mem

theorem EntryKey.Holds.length_key {t : EntryKey F × DigestIdEntry F} {e : SplicedEntry} (h : EntryKey.Holds who t e) :
    (e.content.take e.width).length = e.width := by
  rw [List.length_take, h.length_content]
  exact Nat.min_eq_left h.width_le

def splicedBytes (es : List SplicedEntry) : List UInt8 := es.flatMap SplicedEntry.bytes

/-- The terms of the keys and of the tails are together worth the bits of the spliced entries, and the last
cursor is behind them. -/
theorem yields_cursors {keys : List (EntryKey F)} {entries : List (DigestIdEntry F)} {es : List SplicedEntry}
    {start : Cursor F} {p : ℕ} (hlen : keys.length = entries.length) (hstart : Cursor.At who start p)
    (hes : List.Forall₂ (EntryKey.Holds who) (keys.zip entries) es) :
    (cursors start keys).Yields who fun t => Cursor.At who t.2 (p + (splicedBytes es).length) ∧
      ∀ byte bitIdx, bitIdx < 8 → ∃ x y,
        Worth who (((t.1.zip keys).map fun t => Placement.variableWidth t.1.1 t.2.onehot t.2.content).flatMap
          (Placement.terms byte bitIdx)) x ∧
        Worth who (((t.1.zip entries).map fun t => Placement.fixedWidth t.1.2 t.2.tailBits).flatMap
          (Placement.terms byte bitIdx)) y ∧
        (x || y) = segmentBit p (splicedBytes es) byte bitIdx := by
  induction keys generalizing entries es start p with
  | nil =>
    obtain rfl := List.length_eq_zero_iff.mp hlen.symm
    cases hes
    refine Circuit.yields_pure ⟨hstart, fun byte bitIdx _ => ⟨false, false, .nil, .nil, ?_⟩⟩
    exact (segmentBit_nil p byte bitIdx).symm
  | cons key keys ih =>
    cases entries with
    | nil => cases hlen
    | cons entry entries =>
      cases hes with
      | @cons _ e _ es he hes =>
        refine (yields_endCursor hstart he.width).bind fun stop hstop => ?_
        have hnext := hstop.shift entryTailLen
        refine (ih (by simpa using hlen) hnext hes).bind fun rest hrest => Circuit.yields_pure ?_
        have hsplit : splicedBytes (e :: es) = e.content.take e.width ++ (e.tail ++ splicedBytes es) := by
          rw [splicedBytes, List.flatMap_cons, SplicedEntry.bytes, List.append_assoc]
          rfl
        refine ⟨?_, fun byte bitIdx hbit => ?_⟩
        · rw [hsplit, List.length_append, List.length_append, he.length_key, he.length_tail, ← Nat.add_assoc,
            ← Nat.add_assoc]
          exact hrest.1
        · obtain ⟨x, y, hx, hy, hxy⟩ := hrest.2 byte bitIdx hbit
          refine ⟨segmentBit p (e.content.take e.width) byte bitIdx || x,
            segmentBit (p + e.width) e.tail byte bitIdx || y, ?_, ?_, ?_⟩
          · exact (worth_variableWidth hstart he.width he.content byte hbit).append hx
          · exact (worth_fixedWidth hstop he.tail byte hbit).append hy
          · rw [hsplit, segmentBit_append, segmentBit_append, he.length_key, he.length_tail, ← hxy]
            generalize segmentBit p _ byte bitIdx = k
            generalize segmentBit (p + e.width) _ byte bitIdx = t
            cases k <;> cases t <;> cases x <;> cases y <;> rfl

end Splice

/-! ## The buffer -/

section Buffer

variable {F : Type} [Field F] {who : Circuit.Prover}

/-- The byte of the buffer at which the bytes placed at `start` have their say; zero elsewhere. -/
def segmentByte (start : ℕ) (bytes : List UInt8) (byte : ℕ) : UInt8 :=
  if start ≤ byte then bytes.getD (byte - start) 0 else 0

theorem bitsOf_segmentByte (start : ℕ) (bytes : List UInt8) (byte : ℕ) :
    bitsOf (segmentByte start bytes byte) = (List.range 8).map (segmentBit start bytes byte) := by
  apply List.map_congr_left
  intro bitIdx _
  unfold segmentByte segmentBit
  by_cases hstart : start ≤ byte
  · rw [if_pos hstart, decide_eq_true hstart, Bool.true_and]
  · rw [if_neg hstart, decide_eq_false hstart, Bool.false_and]
    simp

theorem yields_assembleByte {start stop byte : ℕ} {placements : List (Placement F)} {bytes : List UInt8}
    (hstop : byte < stop)
    (h : ∀ bitIdx < 8, Worth who (placements.flatMap (Placement.terms byte bitIdx)) (segmentBit start bytes byte bitIdx)) :
    (assembleByte start stop placements byte).Yields who
      (Boolean.HoldsAll who · (bitsOf (segmentByte start bytes byte))) := by
  unfold assembleByte
  by_cases hout : byte < start ∨ stop ≤ byte
  · have hlt : ¬start ≤ byte := by omega
    have hzero : bitsOf 0 = List.replicate 8 false := by decide
    rw [if_pos hout, segmentByte, if_neg hlt, hzero]
    exact Circuit.yields_pure (Boolean.holdsAll_constants (List.replicate 8 false))
  · rw [if_neg hout, bitsOf_segmentByte]
    have hbit : ∀ bitIdx ∈ List.range 8, (do
        let acc ← orAll (placements.flatMap (Placement.terms byte bitIdx))
        pure (acc.getD (.constant false)) : Circuit F F (Boolean F)).Yields who
          (·.Holds who (segmentBit start bytes byte bitIdx)) := by
      intro bitIdx hmem
      refine (h bitIdx (List.mem_range.mp hmem)).yields_orAll.bind fun acc hacc => ?_
      exact Circuit.yields_pure hacc.1
    exact (Circuit.Yields.mapM hbit).mono fun bits hbits => .of_forall₂ hbits

theorem yields_assembleFromPlacements {start stop : ℕ} {placements : List (Placement F)} {bytes : List UInt8}
    (h : ∀ byte, ∀ bitIdx < 8,
      Worth who (placements.flatMap (Placement.terms byte bitIdx)) (segmentBit start bytes byte bitIdx)) :
    (assembleFromPlacements stop start stop placements).Yields who
      (Boolean.HoldsAll who · (bytesBits ((List.range stop).map (segmentByte start bytes)))) := by
  have hbyte : ∀ byte ∈ List.range stop, (assembleByte start stop placements byte).Yields who
      (Boolean.HoldsAll who · (bitsOf (segmentByte start bytes byte))) := fun byte hmem =>
    yields_assembleByte (List.mem_range.mp hmem) (h byte)
  refine (Circuit.Yields.mapM hbyte).bind fun out hout => Circuit.yields_pure ?_
  rw [bytesBits, List.flatMap_map, List.flatMap_def]
  exact .flatten hout

/-- From `start` on the buffer is the bytes and zeros behind them. -/
theorem drop_segmentBytes {start stop : ℕ} {bytes : List UInt8} (hfit : start + bytes.length ≤ stop) :
    ((List.range stop).map (segmentByte start bytes)).drop start =
      bytes ++ List.replicate (stop - (start + bytes.length)) 0 := by
  refine List.ext_getElem (by simp; omega) fun i h1 h2 => ?_
  rw [List.getElem_drop, List.getElem_map, List.getElem_range, segmentByte, if_pos (Nat.le_add_right start i),
    Nat.add_sub_cancel_left, List.getD_eq_getElem?_getD]
  by_cases hi : i < bytes.length
  · rw [List.getElem_append_left hi, List.getElem?_eq_getElem hi]
    rfl
  · rw [List.getElem_append_right (by omega), List.getElem_replicate, List.getElem?_eq_none (by omega)]
    rfl

def spliceKeys (prefixBits : List (Boolean F)) (entries : List (DigestIdEntry F)) (suffixBits : List (Boolean F))
    (keys : List (EntryKey F)) : Circuit F F (List (Boolean F) × ℕ) := do
  let prefixLen := prefixBits.length / 8
  let suffixLen := suffixBits.length / 8
  let outputLen := prefixLen + maxDigestSectionBytes + suffixLen
  let t ← cursors ([.constant true], [prefixLen]) keys
  let realLen := prefixLen + ((keys.map EntryKey.width).sum + maxClaimsV1 * entryTailLen) + suffixLen
  let assembled ← assembleFromPlacements outputLen prefixLen outputLen
    (placementsOf entries keys t.1 t.2 suffixBits)
  pure (prefixBits ++ assembled.drop prefixBits.length, realLen)

/-- The assembly, returning the keys that it witnesses as well. -/
def assembleWithKeys (prefixBits : List (Boolean F)) (entries : List (DigestIdEntry F))
    (suffixBits : List (Boolean F)) : Circuit F F (List (EntryKey F) × List (Boolean F) × ℕ) := do
  .assert (prefixBits.length % 8 = 0)
  .assert (suffixBits.length % 8 = 0)
  forM entries checkEntry
  let keys ← entries.mapM allocKey
  let out ← spliceKeys prefixBits entries suffixBits keys
  pure (keys, out)

theorem assembleMsoSigStructure_eq (prefixBits : List (Boolean F)) (entries : List (DigestIdEntry F))
    (suffixBits : List (Boolean F)) :
    assembleMsoSigStructure prefixBits entries suffixBits =
      Prod.snd <$> assembleWithKeys prefixBits entries suffixBits := by
  unfold assembleWithKeys
  simp only [map_bind, map_pure, bind_pure]
  rfl

/-- The buffer that the entries make: prefix, entries and suffix, and zeros up to the fixed length. -/
def splicedBuffer (head : List UInt8) (es : List SplicedEntry) (suffix : List UInt8) : List UInt8 :=
  head ++ splicedBytes es ++ suffix ++
    List.replicate (maxDigestSectionBytes - (splicedBytes es).length) 0

end Buffer

/-! ## The assembly -/

section Assembly

variable {F : Type} [Field F] {who : Circuit.Prover} {prefixBits suffixBits : List (Boolean F)}
  {entries : List (DigestIdEntry F)} {head suffix : List UInt8}

theorem length_splicedBytes {ts : List (EntryKey F × DigestIdEntry F)} {es : List SplicedEntry}
    (hes : List.Forall₂ (EntryKey.Holds who) ts es) :
    (splicedBytes es).length = (es.map SplicedEntry.width).sum + es.length * entryTailLen := by
  induction hes with
  | nil => rfl
  | @cons t e ts es he _ ih =>
    have hcons : splicedBytes (e :: es) = e.bytes ++ splicedBytes es := rfl
    rw [hcons, List.length_append, ih, SplicedEntry.bytes, List.length_append, he.length_key, he.length_tail,
      List.map_cons, List.sum_cons, List.length_cons]
    ring

theorem length_splicedBytes_le {ts : List (EntryKey F × DigestIdEntry F)} {es : List SplicedEntry}
    (hes : List.Forall₂ (EntryKey.Holds who) ts es) (hcount : es.length = maxClaimsV1) :
    (splicedBytes es).length ≤ maxDigestSectionBytes := by
  have hwidths : (es.map SplicedEntry.width).sum ≤ es.length * maxCborUintBytes := by
    have hle : ∀ w ∈ es.map SplicedEntry.width, w ≤ maxCborUintBytes := by
      intro w hw
      obtain ⟨e, he, rfl⟩ := List.mem_map.mp hw
      obtain ⟨t, -, ht⟩ := forall₂_right hes he
      exact ht.width_le
    have hsum := List.sum_le_card_nsmul _ maxCborUintBytes hle
    rwa [List.length_map, smul_eq_mul] at hsum
  rw [length_splicedBytes hes]
  rw [hcount] at hwidths ⊢
  have hsection : maxDigestSectionBytes = maxClaimsV1 * maxCborUintBytes + maxClaimsV1 * entryTailLen := by decide
  omega

/-- With its keys given, the assembly lays out prefix, entries and suffix. -/
theorem yields_spliceKeys {keys : List (EntryKey F)} {es : List SplicedEntry}
    (hhead : Boolean.HoldsAll who prefixBits (bytesBits head))
    (hsuffix : Boolean.HoldsAll who suffixBits (bytesBits suffix)) (hlen : keys.length = entries.length)
    (hes : List.Forall₂ (EntryKey.Holds who) (keys.zip entries) es) (hcount : es.length = maxClaimsV1) :
    (spliceKeys prefixBits entries suffixBits keys).Yields who fun out =>
      Boolean.HoldsAll who out.1 (bytesBits (splicedBuffer head es suffix)) ∧
        out.2 = head.length + ((keys.map EntryKey.width).sum + maxClaimsV1 * entryTailLen) + suffix.length := by
  have hprefixLen := length_content hhead
  have hsuffixLen := length_content hsuffix
  have hstart : Cursor.At who (([.constant true], [head.length]) : Cursor F) head.length := by
    refine ⟨List.mem_singleton.mpr rfl, ?_⟩
    rw [List.map_singleton, beq_self_eq_true]
    exact .cons Boolean.holds_constant .nil
  unfold spliceKeys
  rw [hprefixLen, hsuffixLen]
  refine (yields_cursors hlen hstart hes).bind fun t ht => ?_
  have hworth : ∀ byte, ∀ bitIdx < 8, Worth who
      ((placementsOf entries keys t.1 t.2 suffixBits).flatMap (Placement.terms byte bitIdx))
      (segmentBit head.length (splicedBytes es ++ suffix) byte bitIdx) := by
    intro byte bitIdx hbit
    obtain ⟨x, y, hx, hy, hxy⟩ := ht.2 byte bitIdx hbit
    rw [placementsOf, List.flatMap_append, List.flatMap_append, List.flatMap_singleton, segmentBit_append, ← hxy]
    exact (hx.append hy).append (worth_fixedWidth ht.1 hsuffix byte hbit)
  refine (yields_assembleFromPlacements hworth).bind fun assembled hassembled => Circuit.yields_pure ⟨?_, rfl⟩
  have hfit := length_splicedBytes_le hes hcount
  have hdrop : assembled.drop prefixBits.length = assembled.drop (8 * head.length) := by
    rw [hhead.length_eq, length_bytesBits]
  have hrest : Boolean.HoldsAll who (assembled.drop prefixBits.length) (bytesBits (splicedBytes es ++ suffix ++
      List.replicate (maxDigestSectionBytes - (splicedBytes es).length) 0)) := by
    have hbytes := List.forall₂_drop (8 * head.length) hassembled
    rw [drop_bytesBits, drop_segmentBytes (by rw [List.length_append]; omega), ← hdrop] at hbytes
    have hzeros : head.length + maxDigestSectionBytes + suffix.length -
        (head.length + (splicedBytes es ++ suffix).length) =
          maxDigestSectionBytes - (splicedBytes es).length := by
      rw [List.length_append]
      omega
    rwa [hzeros] at hbytes
  have hall := hhead.append hrest
  rwa [← bytesBits_append, ← List.append_assoc, ← List.append_assoc] at hall

theorem ensures_allocKey [LargeChar F] {e : DigestIdEntry F} {tail : List UInt8}
    (htail : Boolean.ReadsAll e.tailBits (bytesBits tail)) (hlen : tail.length = entryTailLen) :
    (allocKey e : Circuit F F _).Ensures fun key =>
      ∃ s, EntryKey.Holds .any (key, e) s ∧ s.tail = tail := by
  unfold allocKey
  rcases hencode : encodeCborUint e.digestId with err | encoded
  · exact fun _ _ h => h.elim
  · refine (Circuit.ensures_pure.mpr rfl : (Circuit.lift (.ok encoded) : Circuit F F _).Ensures (· = encoded)).bind
      fun bytes hbytes => ?_
    subst hbytes
    have hle := length_encodeCborUint hencode
    refine ensures_allocBytes.bind fun content ⟨c, hc, hcontent⟩ => ?_
    refine (ensures_allocOneHot (by decide)).bind fun onehot ⟨j, hj, honehot⟩ => Circuit.ensures_pure.mpr ?_
    rw [oneHot_eq_map_beq (by decide) hj] at honehot
    rw [List.length_append, List.length_replicate, Nat.add_sub_cancel' hle.2] at hc
    exact ⟨⟨digestIdWidths[j], c, tail⟩, ⟨⟨List.getElem_mem hj, honehot⟩, hcontent, hc, htail, hlen⟩, rfl⟩

theorem succeeds_allocKey {e : DigestIdEntry F} {tail encoded : List UInt8}
    (hencode : encodeCborUint e.digestId = .ok encoded)
    (htail : Boolean.HonestReadsAll e.tailBits (bytesBits tail)) (hlen : tail.length = entryTailLen) :
    (allocKey e : Circuit F F _).Succeeds fun key => key.width = encoded.length ∧
      ∃ s, EntryKey.Holds .honest (key, e) s ∧ s.width = encoded.length ∧ s.bytes = encoded ++ tail ∧ s.tail = tail := by
  have hle := length_encodeCborUint hencode
  unfold allocKey
  rw [hencode]
  refine (Circuit.succeeds_pure.mpr rfl : (Circuit.lift (.ok encoded) : Circuit F F _).Succeeds (· = encoded)).bind
    fun bytes hbytes => ?_
  subst hbytes
  refine (succeeds_allocBytes _).bind fun content hcontent => ?_
  refine (succeeds_allocOneHot hle.1 (by decide)).bind fun onehot honehot => Circuit.succeeds_pure.mpr ⟨rfl, ?_⟩
  refine ⟨⟨bytes.length, bytes ++ List.replicate (maxCborUintBytes - bytes.length) 0, tail⟩,
    ⟨⟨hle.1, honehot⟩, hcontent, ?_, htail, hlen⟩, rfl, ?_, rfl⟩
  · rw [List.length_append, List.length_replicate]
    exact Nat.add_sub_cancel' hle.2
  · rw [SplicedEntry.bytes, List.take_left]

end Assembly

section Splices

variable {F : Type} [Field F] {prefixBits suffixBits : List (Boolean F)} {entries : List (DigestIdEntry F)}
  {head suffix : List UInt8}

structure DigestIdEntry.Tail (who : Circuit.Prover) (e : DigestIdEntry F) (tail : List UInt8) : Prop where
  holds : Boolean.HoldsAll who e.tailBits (bytesBits tail)
  length_eq : tail.length = entryTailLen

theorem ensures_allocKeys [LargeChar F] {tails : List (List UInt8)}
    (htails : List.Forall₂ (DigestIdEntry.Tail .any) entries tails) :
    (entries.mapM allocKey : Circuit F F _).Ensures fun keys => keys.length = entries.length ∧
      ∃ es, List.Forall₂ (EntryKey.Holds .any) (keys.zip entries) es ∧ es.map SplicedEntry.tail = tails := by
  induction htails with
  | nil => exact Circuit.ensures_pure.mpr ⟨rfl, [], .nil, rfl⟩
  | @cons e tail entries tails htail _ ih =>
    rw [List.mapM_cons]
    refine (ensures_allocKey htail.holds htail.length_eq).bind fun key ⟨s, hs, hstail⟩ => ?_
    refine ih.bind fun keys ⟨hlen, es, hes, htails⟩ => Circuit.ensures_pure.mpr ⟨?_, s :: es, .cons hs hes, ?_⟩
    · rw [List.length_cons, hlen, List.length_cons]
    · rw [List.map_cons, hstail, htails]

/-- The entry is the honest one of a digestID and a tail. -/
structure DigestIdEntry.Of (e : DigestIdEntry F) (t : UInt32 × List UInt8) : Prop where
  digestId : e.digestId = t.1.toNat
  lt : t.1.toNat < 2 ^ 31
  tail : DigestIdEntry.Tail .honest e t.2

theorem DigestIdEntry.Of.le {e : DigestIdEntry F} {t : UInt32 × List UInt8} (h : DigestIdEntry.Of e t) :
    t.1.toNat ≤ maxDigestId := by
  have hlt := h.lt
  have hmax : maxDigestId = 2 ^ 31 - 1 := rfl
  omega

theorem succeeds_allocKeys {ts : List (UInt32 × List UInt8)} (hts : List.Forall₂ DigestIdEntry.Of entries ts) :
    (entries.mapM allocKey : Circuit F F _).Succeeds fun keys => keys.length = entries.length ∧
      ∃ es, List.Forall₂ (EntryKey.Holds .honest) (keys.zip entries) es ∧
        ts.mapM nativeEntry = .ok (es.map SplicedEntry.bytes) ∧
        keys.map EntryKey.width = es.map SplicedEntry.width ∧ es.map SplicedEntry.tail = ts.map Prod.snd := by
  induction hts with
  | nil => exact Circuit.succeeds_pure.mpr ⟨rfl, [], .nil, rfl, rfl, rfl⟩
  | @cons e t entries ts ht _ ih =>
    obtain ⟨encoded, hencode⟩ := encodeCborUint_ok ht.le
    have hkey := hencode
    rw [← ht.digestId] at hkey
    rw [List.mapM_cons]
    refine (succeeds_allocKey hkey ht.tail.holds ht.tail.length_eq).bind fun key
      ⟨hwidth, s, hs, hswidth, hbytes, hstail⟩ => ?_
    refine ih.bind fun keys ⟨hlen, es, hes, hnative, hwidths, htails⟩ =>
      Circuit.succeeds_pure.mpr ⟨?_, s :: es, .cons hs hes, ?_, ?_, ?_⟩
    · rw [List.length_cons, hlen, List.length_cons]
    · have hentry : nativeEntry t = .ok s.bytes := by
        rw [hbytes]
        exact bind_eq_ok_iff.mpr ⟨encoded, hencode, rfl⟩
      rw [Circuit.mapM_eq_ok_iff] at hnative ⊢
      exact .cons hentry hnative
    · rw [List.map_cons, List.map_cons, hwidth, hswidth, hwidths]
    · rw [List.map_cons, List.map_cons, hstail, htails]

theorem checkEntry_of {who : Circuit.Prover} {e : DigestIdEntry F} {tail : List UInt8}
    (htail : DigestIdEntry.Tail who e tail) (hle : e.digestId ≤ maxDigestId) :
    (checkEntry e : Circuit F F _).Yields who fun _ => True := by
  have hlen : e.tailBits.length = entryTailLen * 8 := by
    rw [htail.holds.length_eq, length_bytesBits, htail.length_eq, Nat.mul_comm]
  exact (Circuit.yields_assert hlen).bind fun _ _ => (Circuit.yields_assert hle).mono fun _ _ => trivial

theorem length_of_zip {who : Circuit.Prover} {keys : List (EntryKey F)} {es : List SplicedEntry}
    (hlen : keys.length = entries.length) (hes : List.Forall₂ (EntryKey.Holds who) (keys.zip entries) es) :
    es.length = entries.length := by
  rw [← hes.length_eq, List.length_zip, hlen, Nat.min_self]

theorem ensures_assembleWithKeys [LargeChar F] {tails : List (List UInt8)} (hcount : entries.length = maxClaimsV1)
    (hhead : Boolean.HoldsAll .any prefixBits (bytesBits head))
    (hsuffix : Boolean.HoldsAll .any suffixBits (bytesBits suffix))
    (htails : List.Forall₂ (DigestIdEntry.Tail .any) entries tails) :
    (assembleWithKeys prefixBits entries suffixBits).Ensures fun t =>
      (∃ es, List.Forall₂ (EntryKey.Holds .any) (t.1.zip entries) es ∧ es.map SplicedEntry.tail = tails) ∧
        ∀ es, List.Forall₂ (EntryKey.Holds .any) (t.1.zip entries) es →
          Boolean.ReadsAll t.2.1 (bytesBits (splicedBuffer head es suffix)) := by
  have hcheck : (forM entries checkEntry : Circuit F F _).Ensures fun _ => True := by
    have hentry : ∀ e ∈ entries, (checkEntry e : Circuit F F _).Ensures fun _ => True := fun e _ =>
      Circuit.ensures_assert.bind fun _ _ => Circuit.ensures_assert.mono fun _ _ => trivial
    exact (Circuit.Ensures.forM hentry).mono fun _ _ => trivial
  unfold assembleWithKeys
  refine Circuit.ensures_assert.bind fun _ _ => Circuit.ensures_assert.bind fun _ _ => hcheck.bind fun _ _ => ?_
  refine (ensures_allocKeys htails).bind fun keys ⟨hlen, hex⟩ => ?_
  have hsplice : (spliceKeys prefixBits entries suffixBits keys).Ensures fun out =>
      ∀ es, List.Forall₂ (EntryKey.Holds .any) (keys.zip entries) es →
        Boolean.ReadsAll out.1 (bytesBits (splicedBuffer head es suffix)) := by
    have heach : ∀ es, List.Forall₂ (EntryKey.Holds .any) (keys.zip entries) es →
        (spliceKeys prefixBits entries suffixBits keys).Ensures fun out =>
          Boolean.ReadsAll out.1 (bytesBits (splicedBuffer head es suffix)) := by
      intro es hes
      have hyields := yields_spliceKeys hhead hsuffix hlen hes ((length_of_zip hlen hes).trans hcount)
      exact hyields.ensures.mono fun out hout => hout.1
    obtain ⟨es₀, hes₀, -⟩ := hex
    intro ins out hrun
    exact ⟨(heach es₀ hes₀ ins out hrun).1, fun es hes => (heach es hes ins out hrun).2⟩
  exact hsplice.bind fun out hout => Circuit.ensures_pure.mpr ⟨hex, hout⟩

theorem nativeMsoSigStructureBytes_splicedBytes (head suffix : List UInt8) {ts : List (UInt32 × List UInt8)}
    {es : List SplicedEntry} (h : ts.mapM nativeEntry = .ok (es.map SplicedEntry.bytes)) :
    nativeMsoSigStructureBytes head (ts.map Prod.fst) (ts.map Prod.snd) suffix =
      .ok (head ++ splicedBytes es ++ suffix) := by
  have hzip : (ts.map Prod.fst).zip (ts.map Prod.snd) = ts := by
    rw [List.zip_map', List.map_id']
  rw [nativeMsoSigStructureBytes, hzip]
  exact bind_eq_ok_iff.mpr ⟨_, h, rfl⟩

/-- The honest run splices the keys that encode the digestIDs. -/
theorem succeeds_assembleWithKeys {ts : List (UInt32 × List UInt8)} (hcount : entries.length = maxClaimsV1)
    (hhead : Boolean.HoldsAll .honest prefixBits (bytesBits head))
    (hsuffix : Boolean.HoldsAll .honest suffixBits (bytesBits suffix))
    (hts : List.Forall₂ DigestIdEntry.Of entries ts) :
    (assembleWithKeys prefixBits entries suffixBits).Succeeds fun t => ∃ es,
      List.Forall₂ (EntryKey.Holds .honest) (t.1.zip entries) es ∧ es.length = maxClaimsV1 ∧
        ts.mapM nativeEntry = .ok (es.map SplicedEntry.bytes) ∧ es.map SplicedEntry.tail = ts.map Prod.snd ∧
        t.2.2 = (head ++ splicedBytes es ++ suffix).length ∧
        Boolean.HonestReadsAll t.2.1 (bytesBits (splicedBuffer head es suffix)) := by
  have hcheck : ∀ e ∈ entries, (checkEntry e : Circuit F F _).Succeeds fun _ => True := by
    intro e he
    obtain ⟨t, -, ht⟩ := forall₂_left hts he
    have hle : e.digestId ≤ maxDigestId := by
      rw [ht.digestId]
      exact ht.le
    exact checkEntry_of ht.tail hle
  have hprefixLen : prefixBits.length % 8 = 0 := by
    rw [hhead.length_eq, length_bytesBits]
    omega
  have hsuffixLen : suffixBits.length % 8 = 0 := by
    rw [hsuffix.length_eq, length_bytesBits]
    omega
  unfold assembleWithKeys
  refine (Circuit.succeeds_assert hprefixLen).bind fun _ _ => (Circuit.succeeds_assert hsuffixLen).bind fun _ _ => ?_
  refine (Circuit.Succeeds.forM hcheck).bind fun _ _ => ?_
  refine (succeeds_allocKeys hts).bind fun keys ⟨hlen, es, hes, hnative, hwidths, htails⟩ => ?_
  have hescount := (length_of_zip hlen hes).trans hcount
  have hsplice : (spliceKeys prefixBits entries suffixBits keys).Succeeds _ :=
    yields_spliceKeys hhead hsuffix hlen hes hescount
  refine hsplice.bind fun out hout => Circuit.succeeds_pure.mpr ⟨es, hes, hescount, hnative, htails, ?_, hout.1⟩
  rw [hout.2, hwidths, List.length_append, List.length_append, length_splicedBytes hes, hescount]

theorem succeeds_assemble {ts : List (UInt32 × List UInt8)} (hcount : entries.length = maxClaimsV1)
    (hhead : Boolean.HoldsAll .honest prefixBits (bytesBits head))
    (hsuffix : Boolean.HoldsAll .honest suffixBits (bytesBits suffix))
    (hts : List.Forall₂ DigestIdEntry.Of entries ts) :
    (assembleWithKeys prefixBits entries suffixBits).Succeeds fun t => ∃ native,
      nativeMsoSigStructureBytes head (ts.map Prod.fst) (ts.map Prod.snd) suffix = .ok native ∧
        t.2.2 = native.length ∧ Boolean.HonestReadsAll t.2.1 (bytesBits (native ++
          List.replicate (head.length + maxDigestSectionBytes + suffix.length - native.length) 0)) := by
  refine (succeeds_assembleWithKeys hcount hhead hsuffix hts).mono fun t ⟨es, hes, hescount, hnative, _, hlen, hbits⟩ => ?_
  refine ⟨head ++ splicedBytes es ++ suffix, nativeMsoSigStructureBytes_splicedBytes _ _ hnative, hlen, ?_⟩
  have hzeros : head.length + maxDigestSectionBytes + suffix.length - (head ++ splicedBytes es ++ suffix).length =
      maxDigestSectionBytes - (splicedBytes es).length := by
    rw [List.length_append, List.length_append]
    omega
  rw [hzeros]
  exact hbits

/-- The keys of an honest run, spliced as those of every run are. -/
theorem exists_spliced {P : List (Boolean F) × ℕ → Prop} {T : List SplicedEntry → Prop}
    (h : (assembleMsoSigStructure prefixBits entries suffixBits).Succeeds P)
    (hall : ∀ ins keys out, (assembleWithKeys prefixBits entries suffixBits).Runs ins (keys, out) →
      (∃ es, List.Forall₂ (EntryKey.Holds .any) (keys.zip entries) es ∧ T es) ∧
      ∀ es, List.Forall₂ (EntryKey.Holds .any) (keys.zip entries) es →
        Boolean.ReadsAll out.1 (bytesBits (splicedBuffer head es suffix))) :
    ∃ keys es out, (assembleWithKeys prefixBits entries suffixBits).Runs [] (keys, out) ∧ P out ∧
      List.Forall₂ (EntryKey.Holds .any) (keys.zip entries) es ∧
      Boolean.ReadsAll out.1 (bytesBits (splicedBuffer head es suffix)) := by
  obtain ⟨out, hout, hP⟩ := h
  have hrun := hout.runs
  rw [assembleMsoSigStructure_eq] at hrun
  obtain ⟨⟨keys, out⟩, hkeys, rfl⟩ := Circuit.runs_map.mp hrun
  obtain ⟨⟨es, hes, -⟩, hreads⟩ := hall [] keys out hkeys
  exact ⟨keys, es, out, hkeys, hP, hes, hreads es hes⟩

variable (prefixBits suffixBits head suffix) in
/-- The splice. Every assignment witnesses keys of its own, and its buffer is the prefix, those keys cut to the widths
they select with their tails, the suffix and zeros; and the honest prover satisfies the constraints with the native
bytes. -/
theorem assembleMsoSigStructure_splices [LargeChar F] (hcount : entries.length = maxClaimsV1) :
    assembleMsoSigStructure prefixBits entries suffixBits =
      Prod.snd <$> assembleWithKeys prefixBits entries suffixBits ∧
    (∀ tails, Boolean.ReadsAll prefixBits (bytesBits head) → Boolean.ReadsAll suffixBits (bytesBits suffix) →
      List.Forall₂ (DigestIdEntry.Tail .any) entries tails →
      ∀ ins keys out, (assembleWithKeys prefixBits entries suffixBits).Runs ins (keys, out) →
        (∃ es, List.Forall₂ (EntryKey.Holds .any) (keys.zip entries) es ∧ es.map SplicedEntry.tail = tails) ∧
        ∀ es, List.Forall₂ (EntryKey.Holds .any) (keys.zip entries) es →
          Boolean.ReadsAll out.1 (bytesBits (splicedBuffer head es suffix))) ∧
      ∀ ts, Boolean.HonestReadsAll prefixBits (bytesBits head) →
        Boolean.HonestReadsAll suffixBits (bytesBits suffix) → List.Forall₂ DigestIdEntry.Of entries ts →
        (assembleMsoSigStructure prefixBits entries suffixBits).Succeeds fun out => ∃ native,
          nativeMsoSigStructureBytes head (ts.map Prod.fst) (ts.map Prod.snd) suffix = .ok native ∧
            out.2 = native.length ∧ Boolean.HonestReadsAll out.1 (bytesBits (native ++
              List.replicate (head.length + maxDigestSectionBytes + suffix.length - native.length) 0)) := by
  refine ⟨assembleMsoSigStructure_eq _ _ _, fun tails hhead hsuffix htails ins keys out hrun => ?_,
    fun ts hhead hsuffix hts => ?_⟩
  · exact (ensures_assembleWithKeys hcount hhead hsuffix htails ins (keys, out) hrun).2
  · rw [assembleMsoSigStructure_eq]
    exact .map (succeeds_assemble hcount hhead hsuffix hts)

/-- An entry whose tail is 34 zero bytes. -/
def zeroTailEntry (id : UInt32) : DigestIdEntry Scalar := ⟨id.toNat, fixedBits (List.replicate entryTailLen 0)⟩

theorem zeroTailEntry_of {id : UInt32} (h : id.toNat < 2 ^ 31) :
    DigestIdEntry.Of (zeroTailEntry id) (id, List.replicate entryTailLen 0) :=
  ⟨rfl, h, Boolean.holdsAll_constants _, List.length_replicate⟩

theorem zeroTailEntry_tail (id : UInt32) :
    DigestIdEntry.Tail .any (zeroTailEntry id) (List.replicate entryTailLen 0) :=
  ⟨Boolean.holdsAll_constants _, List.length_replicate⟩

def widthEntries : List (DigestIdEntry Scalar) := [0, 24, 256, 65536].map zeroTailEntry

theorem widthEntries_of : List.Forall₂ DigestIdEntry.Of widthEntries
    ([0, 24, 256, 65536].map fun id => (id, List.replicate entryTailLen 0)) :=
  .cons (zeroTailEntry_of (by decide)) (.cons (zeroTailEntry_of (by decide))
    (.cons (zeroTailEntry_of (by decide)) (.cons (zeroTailEntry_of (by decide)) .nil)))

theorem widthEntries_tails : List.Forall₂ (DigestIdEntry.Tail .any) widthEntries
    (List.replicate maxClaimsV1 (List.replicate entryTailLen 0)) :=
  .cons (zeroTailEntry_tail 0) (.cons (zeroTailEntry_tail 24) (.cons (zeroTailEntry_tail 256)
    (.cons (zeroTailEntry_tail 65536) .nil)))

/-- The buffer of a run is the splice of its own keys, and as long as the native bytes. -/
theorem assembleMsoSigStructure_splices_widths :
    ∃ (keys : List (EntryKey Scalar)) (es : List SplicedEntry) (out : List (Boolean Scalar) × ℕ),
      (assembleWithKeys (fixedBits [0xaa]) widthEntries (fixedBits [0xbb])).Runs [] (keys, out) ∧ out.2 = 149 ∧
      List.Forall₂ (EntryKey.Holds .any) (keys.zip widthEntries) es ∧
      Boolean.ReadsAll out.1 (bytesBits (splicedBuffer [0xaa] es [0xbb])) := by
  obtain ⟨-, hall, hhonest⟩ := assembleMsoSigStructure_splices (fixedBits [0xaa]) (fixedBits [0xbb]) [0xaa] [0xbb]
    (show widthEntries.length = maxClaimsV1 from rfl)
  have hconstants : ∀ bytes : List UInt8, Boolean.HonestReadsAll (fixedBits bytes : List (Boolean Scalar))
      (bytesBits bytes) := fun bytes => Boolean.honestReadsAll_constants _
  have hlength : (nativeMsoSigStructureBytes [0xaa] [0, 24, 256, 65536]
      (List.replicate maxClaimsV1 (List.replicate entryTailLen 0)) [0xbb]).map List.length = .ok 149 := by
    decide +kernel
  refine exists_spliced ((hhonest _ (hconstants [0xaa]) (hconstants [0xbb]) widthEntries_of).mono ?_)
    (hall _ (hconstants [0xaa]).reads (hconstants [0xbb]).reads widthEntries_tails)
  rintro out ⟨native, hnative, hlen, -⟩
  rw [show nativeMsoSigStructureBytes [0xaa] [0, 24, 256, 65536]
    (List.replicate maxClaimsV1 (List.replicate entryTailLen 0)) [0xbb] = .ok native from hnative] at hlength
  exact hlen.trans (Except.ok.inj hlength)

end Splices

end Mso

end ZkCredVega
