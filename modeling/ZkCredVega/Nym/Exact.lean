import ZkCredVega.Nym.CoreSound

/-!
# The honest prover's rules

What the core's gadgets do in the honest prover's run. A gadget that reads returns what the prover's table
holds; rules that compare are met exactly when what they compare is equal or in range.
-/

namespace ZkCredVega.Nym

open Circuits

/-! ## Comparisons -/

section Comparisons

variable {a b : Lc Scalar Scalar} {bytes : List (Lc Scalar Scalar)} {bs pattern : List UInt8} {ins : List Scalar}
  {u : Unit}

theorem succeeds_equal (h : a.lc.eval = b.lc.eval) : (equal a b).Succeeds fun _ => True := by
  apply Circuit.succeeds_require
  rw [LC.eval_sub, h, sub_self, zero_mul, LC.eval_zero]

theorem honest_equal : (equal a b).Honest ins u ↔ ins = [] ∧ a.lc.eval = b.lc.eval :=
  Circuit.honest_rule ensures_equal succeeds_equal

theorem honest_rangeCheck {v : Scalar} {n : ℕ} (ha : a.Holds .honest v) (hn : n < 256) :
    (rangeCheck a n).Honest ins u ↔ ins = [] ∧ InRange n v := by
  refine Circuit.honest_rule (fun ins u h => ?_) fun h => ?_
  · rw [← ha.eval_eq]
    exact (runs_rangeCheck hn).mp h
  · obtain ⟨k, hk, rfl⟩ := h
    exact Message.yields_rangeCheck ha hk hn

/-- A small integer is in range exactly when it is not negative and below the bound. -/
theorem inRange_int_iff {z : ℤ} {n : ℕ} (hn : n < 254) (hz : |z| < 2 ^ 254) :
    InRange n ((z : ℤ) : Scalar) ↔ 0 ≤ z ∧ z < 2 ^ n := by
  rw [abs_lt] at hz
  constructor
  · intro h
    have hnonneg := nonneg_of_inRange hn hz.1 h
    obtain ⟨k, hk, heq⟩ := h
    obtain ⟨m, rfl⟩ := Int.eq_ofNat_of_zero_le hnonneg
    rw [Int.cast_natCast] at heq
    have hpow : 2 ^ n ≤ 2 ^ 254 := Nat.pow_le_pow_right (by decide) (by omega)
    have hm := LargeChar.natCast_inj (F := Scalar) (by omega) (by omega) heq
    refine ⟨hnonneg, ?_⟩
    rw [hm]
    exact_mod_cast hk
  · rintro ⟨hnonneg, hlt⟩
    obtain ⟨m, rfl⟩ := Int.eq_ofNat_of_zero_le hnonneg
    exact ⟨m, by exact_mod_cast hlt, Int.cast_natCast m⟩

theorem Lc.HoldAll.any {as : List (Lc Scalar Scalar)} {ns : List ℕ} (h : Lc.HoldAll .honest as ns) :
    Lc.HoldAll .any as ns := List.Forall₂.imp (fun _ _ h => h.any) h

theorem honest_expect (hbytes : Lc.HoldAll .honest bytes (bs.map UInt8.toNat)) :
    (expect bytes pattern).Honest ins u ↔ ins = [] ∧ bs = pattern := by
  refine Circuit.honest_rule (ensures_expect hbytes.any) ?_
  rintro rfl
  have hlen : bytes.length = bs.length := by rw [hbytes.length_eq, List.length_map]
  have hcount : (chunks expectGroup bytes).length = (chunks expectGroup bs).length := by
    rw [chunks, chunks, List.length_map, List.length_map, hlen]
  have heq : ∀ t ∈ (chunks expectGroup bytes).zip (chunks expectGroup bs), (packBytes t.1).lc.eval = (fromBe t.2 : Scalar) := by
    rw [forall_mem_zip_iff (f := fun c => (packBytes c).lc.eval) (g := fun c => (fromBe c : Scalar)) hcount]
    exact map_packBytes_chunks hbytes.any
  refine (Circuit.succeeds_assert hlen).bind fun _ _ => Circuit.Succeeds.forM fun t ht => succeeds_equal ?_
  rw [heq t ht, Lc.eval_constant]

theorem succeeds_expect (hbytes : Lc.HoldAll .honest bytes (bs.map UInt8.toNat)) (h : bs = pattern) :
    (expect bytes pattern).Succeeds fun _ => True := by
  exact ⟨(), (honest_expect hbytes).mpr ⟨rfl, h⟩, trivial⟩

end Comparisons

/-! ## Slots -/

section Slots

variable {a : Lc Scalar Scalar} {v : Scalar}

theorem succeeds_toNum (ha : a.Holds .honest v) : (toNum a).Succeeds (·.Holds .honest v) := by
  have hvalue : assigned a.value = .ok v := by
    rw [ha.value_eq rfl]
    rfl
  refine (AllocatedNum.succeeds_alloc hvalue).bind fun n hn => ?_
  refine (succeeds_equal ?_).bind fun _ _ => Circuit.succeeds_pure.mpr hn
  rw [ha.eval_eq, (Lc.holds_num hn).eval_eq]

theorem succeeds_toNums {facts : List (Lc Scalar Scalar)} {vs : List Scalar}
    (h : List.Forall₂ (Lc.Holds .honest) facts vs) :
    (facts.mapM toNum).Succeeds (List.Forall₂ (AllocatedNum.Holds .honest) · vs) := by
  refine Circuit.Yields.succeeds (Circuit.Yields.mapM_targets (h.imp fun a v ha => ?_))
  exact succeeds_toNum ha

theorem succeeds_windowSlots {bytes : List (Lc Scalar Scalar)} {bs : List UInt8}
    (hbytes : Lc.HoldAll .honest bytes (bs.map UInt8.toNat)) : (windowSlots bytes).Succeeds (HoldBytes .honest · bs) := by
  have hvalues : List.Forall₂ (Lc.Holds .honest) bytes (bs.map fun b => ((b.toNat : ℕ) : Scalar)) := by
    rw [List.forall₂_map_right_iff]
    rwa [Lc.HoldAll, List.forall₂_map_right_iff] at hbytes
  refine (succeeds_toNums hvalues).mono fun slots hslots => ?_
  rwa [List.forall₂_map_right_iff] at hslots

theorem succeeds_pointAlloc (key : PublicKey) : (Point.alloc (some key) : Circuit Scalar Scalar _).Succeeds fun p =>
    p.x.Holds .honest (fromBe key.x.val) ∧ p.y.Holds .honest (fromBe key.y.val) := by
  have hheld : ∀ v : Scalar, (⟨.var v, some v⟩ : Lc Scalar Scalar).Holds .honest v :=
    fun v => ⟨LC.eval_var v, fun _ => rfl⟩
  refine (Lc.succeeds_alloc _).bind fun x hx => (Lc.succeeds_alloc _).bind fun y hy => ?_
  rw [hx, hy]
  exact Circuit.succeeds_pure.mpr ⟨hheld _, hheld _⟩

theorem holdsFor_of_at {p : Point Scalar Scalar} {x y : Scalar} {P : p256.Point} (hx : p.x.Holds .honest x)
    (hy : p.y.Holds .honest y) (h : At (x, y) P) : p.HoldsFor .honest P := ⟨(x, y), h, hx, hy⟩

end Slots

/-! ## Texts -/

section Texts

variable {bytes : List (Lc Scalar Scalar)} {bs : List UInt8}

theorem succeeds_bytesAt (hbytes : Lc.HoldAll .honest bytes (bs.map UInt8.toNat)) {places : List ℕ}
    (hplaces : ∀ i ∈ places, i < bs.length) : (bytesAt bytes places).Succeeds
      (Lc.HoldAll .honest · ((places.map fun i => bs.getD i 0).map UInt8.toNat)) := by
  have hread : (bytesAt bytes places).Succeeds
      (List.Forall₂ (fun i a => a.Holds .honest (((bs.getD i 0).toNat : ℕ) : Scalar)) places) := by
    refine Circuit.Succeeds.mapM fun i hi => ?_
    have hlt := hplaces i hi
    have hlt' : i < bytes.length := by
      rw [hbytes.length_eq, List.length_map]
      exact hlt
    have hget := (List.forall₂_iff_get.mp hbytes).2 i hlt' (by rwa [List.length_map])
    rw [List.get_eq_getElem, List.get_eq_getElem, List.getElem_map] at hget
    rw [List.getElem?_eq_getElem hlt', List.getD_eq_getElem?_getD, List.getElem?_eq_getElem hlt]
    exact Circuit.succeeds_pure.mpr hget
  refine hread.mono fun out hout => ?_
  rw [Lc.HoldAll, List.map_map, List.forall₂_map_right_iff]
  exact hout.flip

theorem succeeds_readNumber (hbytes : Lc.HoldAll .honest bytes (bs.map UInt8.toNat)) (places : List ℕ)
    (hplaces : ∀ i ∈ places, i < bs.length) : (bytesAt bytes places).Succeeds fun digits =>
      (decimal digits).Holds .honest ((readNumber places bs : ℤ) : Scalar) :=
  (succeeds_bytesAt hbytes hplaces).mono fun _ hdigits => holds_digits hdigits

theorem holds_keyed {key text : List UInt8} (hbytes : Lc.HoldAll .honest bytes ((key ++ text).map UInt8.toNat)) :
    Lc.HoldAll .honest (bytes.take key.length) (key.map UInt8.toNat) ∧
      Lc.HoldAll .honest (bytes.drop key.length) (text.map UInt8.toNat) := by
  have hhead := Mdoc.holds_slice hbytes 0 key.length
  have hrest := List.forall₂_drop key.length hbytes
  rw [List.drop_zero, List.drop_zero, List.take_left] at hhead
  rw [← List.map_drop, List.drop_left] at hrest
  exact ⟨hhead, hrest⟩

theorem holds_packSlice {bs : List UInt8} (hbytes : Lc.HoldAll .honest bytes (bs.map UInt8.toNat)) (i n : ℕ) :
    (packBytes ((bytes.drop i).take n)).Holds .honest (fromBe ((bs.drop i).take n)) :=
  holds_packBytes (Mdoc.holds_slice hbytes i n)

theorem Mdoc.succeeds_listsDigest {digest : List UInt8}
    (hbytes : Lc.HoldAll .honest bytes ((digestHead ++ digest).map UInt8.toNat)) {halves : Lc Scalar Scalar × Lc Scalar Scalar}
    (hhigh : halves.1.Holds .honest (fromBe (halfOf digest 0))) (hlow : halves.2.Holds .honest (fromBe (halfOf digest 1))) :
    (listsDigest bytes halves).Succeeds fun _ => True := by
  have hhead := holds_slice hbytes 0 2
  rw [List.drop_zero, List.drop_zero] at hhead
  have hlast : (digest.drop 16).take 16 = halfOf digest 1 := rfl
  refine (succeeds_expect hhead rfl).bind fun _ _ => (succeeds_equal ?_).bind fun _ _ => succeeds_equal ?_
  · rw [(holds_packSlice hbytes 2 16).eval_eq, hhigh.eval_eq]
    rfl
  · rw [(holds_packSlice hbytes 18 16).eval_eq, hlow.eval_eq, ← hlast]
    rfl

end Texts

/-! ## Stored messages -/

section Tables

variable {layout : Layout} {signed : List UInt8} {skipped : ℕ} {messages : List (Region × List UInt8)} {table : Table}

theorem Table.withMessages_contents (hlayout : layout.WellFormed) (hnodup : (messages.map Prod.fst).Nodup)
    (hmem : ∀ t ∈ messages, t.1 ∈ layout.ivRegions) (h : withMessages layout signed skipped messages = .ok table) :
    table.states = (statesFrom layout (compress Sha256.iv (splitSigned signed skipped).1).bytes Sha256.iv 0
        table.blocks).map (·.bytes) ∧
      ∀ t ∈ padded layout signed skipped messages, ∀ j < (chunks 64 t.2).length,
        table.blocks[t.1.first + j]? = (chunks 64 t.2)[j]? := by
  have hfits : ∀ t ∈ padded layout signed skipped messages, Fits t :=
    fun t ht => (withMessages_placed hlayout hnodup hmem h t ht).1
  obtain ⟨table', hok, hstates, hplaced, -⟩ := withMessages_of_fits hlayout hnodup hmem hfits
  rw [h] at hok
  obtain rfl := Except.ok.inj hok
  exact ⟨hstates, hplaced⟩

/-- The state after a message's last block is the message's digest. -/
theorem Table.withMessages_digests (hlayout : layout.WellFormed) (hskipped : skipped ≤ lastBlock signed.length)
    (hnodup : (messages.map Prod.fst).Nodup) (hmem : ∀ t ∈ messages, t.1 ∈ layout.ivRegions)
    (h : withMessages layout signed skipped messages = .ok table) :
    table.states[layout.signed.first + (lastBlock signed.length - skipped)]? = some (Sha256.hash signed) ∧
      ∀ t ∈ messages, table.states[t.1.first + lastBlock t.2.length]? = some (Sha256.hash t.2) := by
  obtain ⟨hstates, hplaced⟩ := withMessages_contents hlayout hnodup hmem h
  have hfits := fun t ht => (withMessages_placed hlayout hnodup hmem h t ht).1
  constructor
  · have hfirst : (layout.signed, (splitSigned signed skipped).2) ∈ padded layout signed skipped messages :=
      List.mem_cons_self
    have hlen : (splitSigned signed skipped).2.length = 64 * (lastBlock signed.length - skipped + 1) := by
      rw [length_kept hskipped]
      omega
    obtain ⟨state, hstate⟩ := getElem?_states hlayout hstates List.mem_cons_self hlen (hfits _ hfirst) (hplaced _ hfirst)
    rw [hstate, hlayout.stateBefore_signed, Sha256.HashState.ofBytes_bytes, compress_split hskipped, hash_eq]
  · intro t ht
    have htmem : (t.1, pad t.2) ∈ padded layout signed skipped messages :=
      List.mem_cons_of_mem _ (List.mem_map.mpr ⟨t, ht, rfl⟩)
    obtain ⟨state, hstate⟩ := getElem?_states hlayout hstates (List.mem_cons_of_mem _ (hmem t ht)) (length_pad t.2)
      (hfits _ htmem) (hplaced _ htmem)
    rw [hstate, Layout.WellFormed.stateBefore_iv (hmem t ht), hash_eq]
    rfl

theorem Cells.Carries.stateValue_eq {who : Circuit.Prover} {cells : Cells Scalar Scalar} (h : cells.Carries who table)
    {j i : ℕ} (hj : j < positions) (hi : i < 2) :
    Message.stateValue cells j i = fromBe (halfOf (table.states.getD j []) i) := by
  obtain ⟨n, hn, hheld⟩ := h.get (Table.cellBytes_state hj hi)
  rw [Message.stateValue, hn]
  exact hheld.val_eq

end Tables

namespace Mdoc

section Stored

variable {table : Table} {cells : Cells Scalar Scalar} {region : Region} {message key : List UInt8} {base last : ℕ}

/-- An opened message that the table stores, with its digest. -/
structure OpensTo (table : Table) (message : List UInt8) (base last : ℕ)
    (r : Message Scalar Scalar × Lc Scalar Scalar × Lc Scalar Scalar) : Prop where
  opens : Opens table message base last r.1
  high : r.2.1.Holds .honest (fromBe (halfOf (Sha256.hash message) 0))
  low : r.2.2.Holds .honest (fromBe (halfOf (Sha256.hash message) 1))

theorem succeeds_openDigest (hcells : cells.Carries .honest table) (hsized : table.Sized)
    (hstores : Stores table region message base last)
    (hstate : table.states[region.first + last]? = some (Sha256.hash message)) :
    (Message.openRegion cells region (some last)).Succeeds (OpensTo table message base last) := by
  have hlast := hstores.last_lt
  have hrange := hstores.in_range
  have hvalue : ∀ i < 2, Message.stateValue cells (region.first + last) i = fromBe (halfOf (Sha256.hash message) i) := by
    intro i hi
    rw [hcells.stateValue_eq (by omega) hi, List.getD_eq_getElem?_getD, hstate]
    rfl
  refine (Message.succeeds_openRegion (hcells.holds hsized) hrange hlast).mono fun r hr => ?_
  obtain ⟨⟨cells', region', last'⟩, digest⟩ := r
  obtain ⟨rfl, rfl, hselected, hhigh, hlow⟩ := hr
  rw [hvalue 0 (by decide)] at hhigh
  rw [hvalue 1 (by decide)] at hlow
  exact ⟨⟨hcells.holds hsized, hstores, hselected⟩, hhigh, hlow⟩

/-- Every run of a stored message can be read, at its offset after `base`, into slots that hold its bytes. -/
theorem Opens.succeeds_window {m : Message Scalar Scalar} (h : Opens table message base last m) {first len : ℕ}
    (hbase : base ≤ first) (hlen : 1 ≤ len) (hends : (⟨message, first, len⟩ : Span).Ends) :
    (m.read (some (first - base)) len).Succeeds fun w =>
      Lc.HoldAll .honest w.bytes ((⟨message, first, len⟩ : Span).bytes.map UInt8.toNat) := by
  have hstores := h.stores
  have hends : first + len ≤ message.length := hends
  have hlast := hstores.ends
  have hblocks : m.region.blocks ≤ positions := le_trans (Nat.le_add_left _ _) hstores.in_range
  have hfirst : base + (first - base) = first := by omega
  have hbytes := hstores.bytes (first - base) len (by omega)
  rw [hfirst] at hbytes
  refine (Message.succeeds_read h.cells h.last hblocks hlen (by omega)).mono fun w hw => ?_
  rw [Span.bytes, ← hbytes, List.map_map]
  exact hw.2

/-- The `n` bytes after a key that starts at byte `first`. -/
def textAfter (message : List UInt8) (first : ℕ) (key : List UInt8) (n : ℕ) : List UInt8 :=
  (message.drop (first + key.length)).take n

theorem find_bytes {what : String} {i : ℕ} (h : find message key what = .ok i) : (message.drop i).take key.length = key := by
  unfold find at h
  split at h
  · cases h
  dsimp only at h
  split at h
  · next j hj =>
    obtain rfl := Except.ok.inj h
    have hmatch := List.find?_some hj
    exact of_decide_eq_true hmatch
  · cases h

theorem Span.Ends.length_bytes {s : Span} (h : s.Ends) : s.bytes.length = s.len := by
  have h : s.first + s.len ≤ s.message.length := h
  rw [Span.bytes, List.length_take, List.length_drop]
  omega

theorem length_textAfter {first n : ℕ} (hends : (⟨message, first, key.length + n⟩ : Span).Ends) :
    (textAfter message first key n).length = n := by
  have hends : first + (key.length + n) ≤ message.length := hends
  rw [textAfter, List.length_take, List.length_drop]
  omega

/-- A run that starts with a key that was found is the key and the text after it. -/
theorem span_keyed {what : String} {first : ℕ} (h : find message key what = .ok first) (n : ℕ) :
    (⟨message, first, key.length + n⟩ : Span).bytes = key ++ textAfter message first key n := by
  rw [Span.bytes, List.take_add, find_bytes h, List.drop_drop, textAfter]

theorem succeeds_dateTime {m : Message Scalar Scalar} (h : Opens table message base last m) {what : String} {first : ℕ}
    (hfound : find message key what = .ok first) (hbase : base ≤ first)
    (hends : (⟨message, first, key.length + 20⟩ : Span).Ends) : (dateTime m (some (first - base)) key).Succeeds
      (·.Holds .honest ((readNumber dateTimeDigits (textAfter message first key 20) : ℤ) : Scalar)) := by
  have hplaces : ∀ i ∈ dateTimeDigits, i < 20 := by decide
  refine (h.succeeds_window hbase (by omega) hends).bind fun window hwindow => ?_
  rw [span_keyed hfound] at hwindow
  obtain ⟨hkey, htext⟩ := holds_keyed hwindow
  refine (succeeds_expect hkey rfl).bind fun _ _ => ?_
  have hread := succeeds_readNumber htext dateTimeDigits fun i hi => by
    rw [length_textAfter hends]
    exact hplaces i hi
  exact hread.bind fun digits hdigits => Circuit.succeeds_pure.mpr hdigits

/-- The bytes of a device key after its head: `x`, the label of `y`, and `y`. -/
def deviceKeyText (message : List UInt8) (first : ℕ) : List UInt8 :=
  textAfter message first deviceKey (32 + deviceKeyY.length + 32)

def deviceXOf (message : List UInt8) (first : ℕ) : List UInt8 := (deviceKeyText message first).take 32

def deviceLabelOf (message : List UInt8) (first : ℕ) : List UInt8 :=
  ((deviceKeyText message first).drop 32).take deviceKeyY.length

def deviceYOf (message : List UInt8) (first : ℕ) : List UInt8 :=
  ((deviceKeyText message first).drop (32 + deviceKeyY.length)).take 32

/-- The rules of a device key that was found are met exactly when the label stands between the coordinates. -/
theorem honest_readDeviceKey_bind {m : Message Scalar Scalar} (h : Opens table message base last m) {what : String}
    {first : ℕ} (hfound : find message deviceKey what = .ok first) (hbase : base ≤ first)
    (hends : (⟨message, first, deviceKeyLen⟩ : Span).Ends) {α : Type} {f : Point Scalar Scalar → Circuit Scalar Scalar α}
    {ins : List Scalar} {r : α} {Q : Prop} (hf : ∀ key, key.x.Holds .honest (fromBe (deviceXOf message first)) →
      key.y.Holds .honest (fromBe (deviceYOf message first)) → ((f key).Honest ins r ↔ Q)) :
    (readDeviceKey m (some (first - base)) >>= f).Honest ins r ↔ deviceLabelOf message first = deviceKeyY ∧ Q := by
  have hlen : deviceKeyLen = deviceKey.length + (32 + deviceKeyY.length + 32) := rfl
  have hspan := span_keyed hfound (32 + deviceKeyY.length + 32)
  rw [← hlen] at hspan
  simp only [readDeviceKey, bind_assoc]
  refine (h.succeeds_window hbase (by decide) hends).honest_bind_iff fun window hwindow => ?_
  rw [hspan] at hwindow
  obtain ⟨hkey, htext⟩ := holds_keyed hwindow
  refine (succeeds_expect hkey rfl).honest_bind_iff fun _ _ => ?_
  have hlabel := holds_slice htext 32 deviceKeyY.length
  rw [List.drop_drop] at hlabel
  rw [Circuit.honest_rule_bind fun _ _ => honest_expect hlabel, pure_bind]
  refine and_congr_right fun _ => hf _ ?_ ?_
  · exact holds_packSlice htext 0 32
  · have hlast := holds_packSlice htext (32 + deviceKeyY.length) 32
    rw [List.drop_drop, ← Nat.add_assoc] at hlast
    exact hlast

end Stored

end Mdoc

/-! ## The pseudonym -/

section Seed

open Mdoc

variable {cells : Cells Scalar Scalar} {cs : List ℕ} {regions : PseudonymRegions} {seed : Bytes 16}

theorem Cells.Holds.known_chunk (hcells : cells.Holds .honest cs) (c : ℕ) :
    (cells.chunk c).Holds .honest (cells.chunk c).lc.eval := by
  have hchunk := hcells.chunk c
  rwa [← hchunk.eval_eq] at hchunk

theorem Cells.Holds.succeeds_state (hcells : cells.Holds .honest cs) {j h : ℕ} (hj : j < positions) (hh : h < 2) :
    (cells.state j h).Succeeds (·.Holds .honest (Message.stateValue cells j h)) := by
  have hindex : cellsPerPosition * j + chunksPerBlock + h < cells.nums.length := by
    rw [cells.length_eq]
    unfold cellsPerPosition chunksPerBlock positions at *
    omega
  rw [Cells.state, Message.stateValue, List.getElem?_eq_getElem hindex]
  exact Circuit.succeeds_pure.mpr (Lc.holds_num (hcells.known _ (List.getElem_mem hindex)))

theorem seedLowBits_fromBe (seed : Bytes 16) :
    seedLowBits (fromBe seed.val : Scalar) = smallBits (bytesNat (seed.val.drop 9)) 56 := by
  have hdrop : (List.replicate 16 (0 : UInt8) ++ seed.val).drop 25 = seed.val.drop 9 := by
    rw [List.drop_append]
    simp
  rw [seedLowBits, toBe_fromBe seed.property, hdrop]

theorem succeeds_seedLow (seed : Bytes 16) :
    (allocBits ((some (fromBe seed.val : Scalar)).map seedLowBits) 56 : Circuit Scalar Scalar _).Succeeds fun out =>
      (pack out : Lc Scalar Scalar).Holds .honest ((bytesNat (seed.val.drop 9) : ℕ) : Scalar) := by
  obtain ⟨-, -, hlt⟩ := bytesNat_seed seed
  rw [Option.map_some, seedLowBits_fromBe]
  refine (succeeds_allocBits (F := Scalar) (Message.length_smallBits _ _)).mono fun out hout => ?_
  have hpack : (pack out : Lc Scalar Scalar).Holds .honest _ := holds_pack hout
  rwa [Message.beBits_smallBits hlt] at hpack

/-- Over cells that hold a seed the rules are met, and what they return is known. -/
theorem succeeds_seedAndNym (hcells : cells.Holds .honest cs) (hseed : regions.seed.first < positions)
    (hnym : regions.nym.first + 1 < positions) (h : cells.HoldsSeed regions seed) :
    (seedAndNym cells regions).Succeeds fun r =>
      r.1.1.Holds .honest (Message.stateValue cells regions.seed.first 0) ∧
      r.1.2.Holds .honest (Message.stateValue cells regions.seed.first 1) ∧
      List.Forall₂ (Lc.Holds .honest) r.2 (cells.nymFacts regions) := by
  obtain ⟨-, -, hlt⟩ := bytesNat_seed seed
  have hfirst := hcells.known_chunk (chunksPerBlock * regions.seed.first + 0)
  rw [h.first] at hfirst
  unfold seedAndNym
  simp only [hfirst.value_eq rfl]
  refine (Circuit.Succeeds.forM fun t ht => succeeds_equal ?_).bind fun _ _ => ?_
  · rw [h.padding t ht, Lc.eval_constant]
  refine (hcells.succeeds_state hseed (by decide)).bind fun digestHigh hdigestHigh => ?_
  refine (hcells.succeeds_state hseed (by decide)).bind fun digestLow hdigestLow => ?_
  refine (succeeds_equal ?_).bind fun _ _ => ?_
  · rw [h.dst0, Lc.eval_constant]
  refine (succeeds_equal ?_).bind fun _ _ => ?_
  · rw [h.dst1, Lc.eval_constant]
  refine (succeeds_seedLow seed).bind fun lowBits hlow => ?_
  refine (succeeds_equal ?_).bind fun _ _ => ?_
  · rw [h.low, Lc.eval_scale, hlow.eval_eq, bytesNat_low]
  refine (succeeds_equal ?_).bind fun _ _ => ?_
  · rw [h.high, Lc.eval_add, Lc.eval_constant, Lc.eval_scale, Lc.eval_sub, hlow.eval_eq, h.first]
    exact (high_rule_iff (length_high seed) hlt).mpr ⟨rfl, rfl⟩
  refine (succeeds_equal h.zero).bind fun _ _ => ?_
  refine (hcells.succeeds_state hnym (by decide)).bind fun nymHigh hnymHigh => ?_
  refine (hcells.succeeds_state hnym (by decide)).bind fun nymLow hnymLow => Circuit.succeeds_pure.mpr ?_
  exact ⟨hdigestHigh, hdigestLow, .cons (hcells.known_chunk _) (.cons (hcells.known_chunk _)
    (.cons (hcells.known_chunk _) (.cons hnymHigh (.cons hnymLow .nil))))⟩

/-- The commitment's rules are met exactly when its halves are the seed's digest. -/
theorem honest_commitmentAndSlots_bind (hcells : cells.Holds .honest cs) (hseed : regions.seed.first < positions)
    (hnym : regions.nym.first + 1 < positions) (h : cells.HoldsSeed regions seed) {ssc : Lc Scalar Scalar × Lc Scalar Scalar}
    {α : Type} {f : List (AllocatedNum Scalar Scalar) → Circuit Scalar Scalar α} {ins : List Scalar} {r : α} {Q : Prop}
    (hf : ∀ slots, List.Forall₂ (AllocatedNum.Holds .honest) slots (cells.nymFacts regions) →
      ((f slots).Honest ins r ↔ Q)) :
    (commitmentAndSlots cells regions ssc >>= f).Honest ins r ↔
      (Message.stateValue cells regions.seed.first 0 = ssc.1.lc.eval ∧
        Message.stateValue cells regions.seed.first 1 = ssc.2.lc.eval) ∧ Q := by
  unfold commitmentAndSlots
  simp only [bind_assoc]
  refine (succeeds_seedAndNym hcells hseed hnym h).honest_bind_iff fun t ht => ?_
  obtain ⟨hhigh, hlow, hfacts⟩ := ht
  rw [Circuit.honest_rule_bind fun _ _ => honest_equal, Circuit.honest_rule_bind fun _ _ => honest_equal, hhigh.eval_eq,
    hlow.eval_eq, and_assoc]
  refine and_congr_right fun _ => and_congr_right fun _ => ?_
  exact (succeeds_toNums hfacts).honest_bind_iff hf

end Seed

/-! ## The presentation -/

section Presented

variable {ins : List Scalar}

theorem delivers_allocInputs (vs : List Scalar) {n : ℕ} (hn : n ≤ vs.length) :
    (allocInputs (some vs) n).Delivers (vs.take n) (List.Forall₂ (Lc.Holds .honest) · (vs.take n)) := by
  have hturn : (allocInputs (some vs) n : Circuit Scalar Scalar _).Delivers ((List.range n).flatMap fun i => [vs.getD i 0])
      (List.Forall₂ (fun i a => a.Holds .honest (vs.getD i 0)) (List.range n)) := by
    refine Circuit.Delivers.mapM fun i hi => ?_
    have hi : i < vs.length := (List.mem_range.mp hi).trans_le hn
    have hvalue : (allocInputs.valueAt (some vs) i : Circuit Scalar Scalar _) = pure (some vs[i]) := by
      simp only [allocInputs.valueAt, List.getElem?_eq_getElem hi]
    have hget : vs.getD i 0 = vs[i] := by simp [hi]
    rw [hvalue, pure_bind, hget]
    exact ⟨Lc.num ⟨vs[i], some vs[i]⟩, ⟨vs[i], [], rfl, rfl, rfl, rfl⟩, Lc.holds_num ⟨rfl, fun _ => rfl⟩⟩
  have hvalues : (List.range n).map (fun i => vs.getD i 0) = vs.take n := by
    apply List.ext_getElem
    · simp [hn]
    intro i h1 h2
    have hi : i < vs.length := by
      rw [List.length_take] at h2
      omega
    simp [hi]
  rw [← List.map_eq_flatMap, hvalues] at hturn
  obtain ⟨out, hout, hheld⟩ := hturn
  have hflip : List.Forall₂ (Lc.Holds .honest) out ((List.range n).map fun i => vs.getD i 0) := by
    rw [List.forall₂_map_right_iff]
    exact hheld.flip
  exact ⟨out, hout, hvalues ▸ hflip⟩

/-- The rules of a pattern's values are met exactly by the slots that it matches. -/
theorem honest_checkPattern (p : Pattern) (hfits : p.window.thermometer ≤ p.window.len)
    (hsize : p.window.thermometer < 256) (hempty : p.window.nonempty = false)
    {credential : List (AllocatedNum Scalar Scalar)} {slots : List UInt8} (hlen : slots.length = p.window.len)
    (hslots : HoldBytes .honest credential slots) {u : Unit} :
    (checkPattern p.window credential (some p.values)).Honest ins u ↔ ins = p.values ∧ p.Matches slots := by
  have hcount := p.count_le hfits
  have hinputs := delivers_allocInputs p.values p.length_values.ge
  rw [List.take_of_length_le p.length_values.le] at hinputs
  have hnonempty : ∀ thermometer, (checkNonempty p.window thermometer : Circuit Scalar Scalar Unit) = pure () := by
    intro thermometer
    rw [checkNonempty, hempty]
    rfl
  unfold checkPattern
  simp only [hnonempty, pure_bind]
  refine (Circuit.succeeds_assert (hslots.length_eq.trans hlen)).honest_bind_iff fun _ _ => ?_
  refine (hinputs.honest_bind_iff (Q := fun j => j = [] ∧ p.Matches slots) fun inputs hin j => ?_).trans (by simp)
  -- the last input is the thermometer, and the others are the limbs
  rw [Pattern.values_eq, ← List.forall₂_reverse_iff, List.reverse_append, List.reverse_singleton,
    List.singleton_append] at hin
  obtain ⟨last, front, hlast, hfront, hrev⟩ := List.forall₂_cons_right_iff.mp hin
  obtain rfl : inputs = front.reverse ++ [last] := by
    rw [← List.reverse_reverse inputs, hrev, List.reverse_cons]
  rw [← List.forall₂_reverse_iff, List.reverse_reverse] at hfront
  rw [List.getLastD_concat, List.dropLast_concat]
  refine (yields_bits hlast (length_thermometerBits hcount) hsize).succeeds.honest_bind_iff fun thermometer hther => ?_
  refine (yields_compared p hfits hlen hslots hther).succeeds.honest_bind_iff fun compared hc => ?_
  have hmap : front.reverse.map (fun a => a.lc.eval) = (chunks limb p.aligned).map fromBe := by
    rw [← List.forall₂_eq_eq_eq, List.forall₂_map_left_iff]
    exact hfront.imp fun _ _ h => h.eval_eq
  rw [← p.limbs_match_iff hlen (Lc.HoldAll.any hc) hmap]
  refine Circuit.honest_rule (Circuit.Ensures.forM fun t _ => ensures_equal) fun heq => ?_
  exact Circuit.Succeeds.forM fun t ht => succeeds_equal (heq t ht)

theorem honest_verify {constants : Constants Scalar} {A : p256.Point} {B : ℕ → p256.Point} (hc : constants.Hold A B)
    {digest : List (Boolean Scalar)} {zs : List Bool} (hdigest : Boolean.HoldsAll .honest digest zs) (hzs : zs.length = 256)
    {key : Point Scalar Scalar} {Q : p256.Point} (hkey : key.HoldsFor .honest Q) (s : Signature) {u : Unit} :
    (verify constants digest key (some s)).Honest ins u ↔ ins = [] ∧ s.Fits A B Q (beBits zs) := by
  rw [← honest_verify_iff hc hdigest hzs hkey]
  constructor
  · intro h
    have hnone := ((costs_verify constants (hdigest.length_eq.trans hzs) (some s)).ensures ins u h.runs).1
    exact ⟨hnone, hnone ▸ h⟩
  · rintro ⟨rfl, h⟩
    exact h

section Facts

variable {constants : Constants Scalar} {A : p256.Point} {B : ℕ → p256.Point}

theorem honest_checkFacts (hc : constants.Hold A B) {s : Signature} {digest : Bytes 32}
    {issuerX issuerY birthDate validFrom validUntil deviceX deviceY publicX publicY bornFrom bornBy now high low :
      Lc Scalar Scalar}
    {birth from_ until_ first by_ time x y : Scalar} (hbirth : birthDate.Holds .honest birth)
    (hfrom : validFrom.Holds .honest from_) (huntil : validUntil.Holds .honest until_)
    (hfirst : bornFrom.Holds .honest first) (hby : bornBy.Holds .honest by_) (hnow : now.Holds .honest time)
    (hhigh : high.Holds .honest (fromBe (halfOf digest.val 0))) (hlow : low.Holds .honest (fromBe (halfOf digest.val 1)))
    (hx : deviceX.Holds .honest x) (hy : deviceY.Holds .honest y) {D : p256.Point} (hD : At (x, y) D) {u : Unit} :
    (checkFacts constants (some s) [issuerX, issuerY, birthDate, validFrom, validUntil, deviceX, deviceY]
      [publicX, publicY, bornFrom, bornBy, now, high, low]).Honest ins u ↔
      issuerX.lc.eval = publicX.lc.eval ∧ issuerY.lc.eval = publicY.lc.eval ∧ InRange 27 (birth - first) ∧
        InRange 27 (by_ - birth) ∧ InRange 47 (time - from_) ∧ InRange 47 (until_ - time - 1) ∧
        ins = [] ∧ s.Fits A B D (bytesNat digest.val) := by
  have hone := (huntil.sub hnow).sub (Lc.holds_constant 1)
  rw [checkFacts, Circuit.honest_rule_bind fun _ _ => honest_equal, Circuit.honest_rule_bind fun _ _ => honest_equal,
    Circuit.honest_rule_bind fun _ _ => honest_rangeCheck (hbirth.sub hfirst) (by decide),
    Circuit.honest_rule_bind fun _ _ => honest_rangeCheck (hby.sub hbirth) (by decide),
    Circuit.honest_rule_bind fun _ _ => honest_rangeCheck (hnow.sub hfrom) (by decide),
    Circuit.honest_rule_bind fun _ _ => honest_rangeCheck hone (by decide)]
  have hverify : (digestBits high low >>= fun challenge => verify constants challenge ⟨deviceX, deviceY⟩ (some s)).Honest
      ins u ↔ ins = [] ∧ s.Fits A B D (bytesNat digest.val) := by
    refine (yields_halves digest.property hhigh hlow).succeeds.honest_bind_iff fun challenge hchallenge => ?_
    rw [honest_verify hc hchallenge (by rw [length_bytesBits, digest.property]) (holdsFor_of_at hx hy hD),
      beBits_bytesBits]
  rw [hverify]

theorem HoldBytes.any {slots : List (AllocatedNum Scalar Scalar)} {bs : List UInt8} (h : HoldBytes .honest slots bs) :
    HoldBytes .any slots bs := List.Forall₂.imp (fun _ _ hn => ⟨hn.val_eq, fun hw => by cases hw⟩) h

/-- Slots whose values the prover knows. -/
def AllKnown (slots : List (AllocatedNum Scalar Scalar)) : Prop := ∀ n ∈ slots, n.value = some n.val

theorem AllKnown.of_held {β : Type} {g : β → Scalar} {slots : List (AllocatedNum Scalar Scalar)} {bs : List β}
    (h : List.Forall₂ (fun n b => n.Holds .honest (g b)) slots bs) : AllKnown slots := by
  induction h with
  | nil => exact fun _ hn => absurd hn List.not_mem_nil
  | cons hn _ ih =>
    refine List.forall_mem_cons.mpr ⟨?_, ih⟩
    rw [hn.value_eq rfl, hn.val_eq]

theorem AllKnown.holdBytes {slots : List (AllocatedNum Scalar Scalar)} {bs : List UInt8} (hknown : AllKnown slots)
    (h : HoldBytes .any slots bs) : HoldBytes .honest slots bs := by
  rw [HoldBytes, List.forall₂_iff_get] at h ⊢
  refine ⟨h.1, fun i hi hi' => ⟨(h.2 i hi hi').val_eq, fun _ => ?_⟩⟩
  rw [hknown _ (List.get_mem _ _), (h.2 i hi hi').val_eq]

theorem FactSlots.HoldWindows.honest_check (hc : constants.Hold A B) {p : Presentation} {f : FactSlots}
    {c : CredentialFacts} (hwindows : p.pub.request.windows = windows) (hf : f.HoldWindows c windows)
    (hknown : AllKnown f.slots) {D : p256.Point} (hD : At (f.deviceX.val, f.deviceY.val) D) {u : Unit} :
    (check constants f.slots (some p) windows).Honest ins u ↔ ins = p.pub.values ∧ f.Named c p.pub ∧ f.Ranges p.pub ∧
      p.deviceSignature.Fits A B D (bytesNat p.pub.challenge.val) := by
  obtain ⟨htype, hattribute⟩ := Prod.mk.inj hwindows
  have hheld : ∀ n ∈ f.slots, (Lc.num n : Lc Scalar Scalar).Holds .honest n.val :=
    fun n hn => Lc.holds_num ⟨rfl, fun _ => hknown n hn⟩
  have hbytes : HoldBytes .honest f.typeBytes c.typeBytes ∧ HoldBytes .honest f.attributeBytes c.attributeBytes :=
    ⟨AllKnown.holdBytes (fun n hn => hknown n (by simp [FactSlots.slots, hn])) hf.typeBytes,
      AllKnown.holdBytes (fun n hn => hknown n (by simp [FactSlots.slots, hn])) hf.attributeBytes⟩
  simp only [FactSlots.slots, List.cons_append, List.nil_append, List.forall_mem_cons] at hheld
  obtain ⟨hissuerX, hissuerY, hbirth, hfrom, huntil, hdeviceX, hdeviceY, -⟩ := hheld
  have hvalues : (p.pub.values : List Scalar) = p.pub.values.take baseValues ++
      (p.pub.request.credentialType.values ++ (p.pub.request.attributeName.values ++ [])) := by
    rw [Public.take_values, List.append_nil]
    rfl
  rw [hf.check_eq hwindows]
  have hinputs := delivers_allocInputs p.pub.values (n := baseValues) (by simp [Public.values, Public.base, baseValues])
  refine (hinputs.honest_bind_iff (Q := fun j => j = p.pub.request.credentialType.values ++
    (p.pub.request.attributeName.values ++ []) ∧ f.Named c p.pub ∧ f.Ranges p.pub ∧
      p.deviceSignature.Fits A B D (bytesNat p.pub.challenge.val)) fun out hout j => ?_).trans ?_
  · rw [Public.take_values] at hout
    obtain ⟨publicX, out1, hX, h1, rfl⟩ := List.forall₂_cons_right_iff.mp hout
    obtain ⟨publicY, out2, hY, h2, rfl⟩ := List.forall₂_cons_right_iff.mp h1
    obtain ⟨bornFrom, out3, hfirst, h3, rfl⟩ := List.forall₂_cons_right_iff.mp h2
    obtain ⟨bornBy, out4, hby, h4, rfl⟩ := List.forall₂_cons_right_iff.mp h3
    obtain ⟨now, out5, hnow, h5, rfl⟩ := List.forall₂_cons_right_iff.mp h4
    obtain ⟨high, out6, hhigh, h6, rfl⟩ := List.forall₂_cons_right_iff.mp h5
    obtain ⟨low, out7, hlow, h7, rfl⟩ := List.forall₂_cons_right_iff.mp h6
    obtain rfl := List.forall₂_nil_right_iff.mp h7
    have hhalf : halfOf p.pub.challenge.val 1 = p.pub.challenge.val.drop 16 :=
      List.take_of_length_le (by rw [List.length_drop, p.pub.challenge.property]; decide)
    rw [← hhalf] at hlow
    rw [Circuit.honest_rules_bind fun _ _ => honest_checkPattern p.pub.request.credentialType (by rw [htype]; decide)
        (by rw [htype]; decide) (by rw [htype]; rfl) (by rw [htype]; exact hf.length_type) hbytes.1]
    simp only [Circuit.honest_rules_bind fun _ _ => honest_checkPattern p.pub.request.attributeName
        (by rw [hattribute]; decide) (by rw [hattribute]; decide) (by rw [hattribute]; rfl)
        (by rw [hattribute]; exact hf.length_attribute) hbytes.2,
      honest_checkFacts hc hbirth hfrom huntil hfirst hby hnow hhigh hlow hdeviceX hdeviceY hD, hissuerX.eval_eq,
      hissuerY.eval_eq, hX.eval_eq, hY.eval_eq]
    constructor
    · rintro ⟨htypeMatch, _, rfl, hattributeMatch, _, rfl, hx, hy, hfromIn, hbyIn, hstarted, hended, rfl, hfits⟩
      exact ⟨rfl, ⟨hx, hy, htypeMatch, hattributeMatch⟩, ⟨hfromIn, hbyIn, hstarted, hended⟩, hfits⟩
    · rintro ⟨rfl, ⟨hx, hy, htypeMatch, hattributeMatch⟩, ⟨hfromIn, hbyIn, hstarted, hended⟩, hfits⟩
      exact ⟨htypeMatch, _, rfl, hattributeMatch, _, rfl, hx, hy, hfromIn, hbyIn, hstarted, hended, rfl, hfits⟩
  · rw [hvalues]
    constructor
    · rintro ⟨_, rfl, rfl, h⟩
      exact ⟨rfl, h⟩
    · rintro ⟨rfl, h⟩
      exact ⟨_, rfl, rfl, h⟩

end Facts

theorem honest_rejectSlots {p : Prop} [Decidable p] {u : Unit} :
    (rejectSlots p : Circuit Scalar Scalar Unit).Honest ins u ↔ ins = [] ∧ p := by
  refine Circuit.honest_rule (fun ins u h => runs_rejectSlots.mp h) fun hp => ?_
  rw [rejectSlots, if_pos hp]
  exact Circuit.succeeds_pure.mpr trivial

theorem honest_compareSlots {slots : List (AllocatedNum Scalar Scalar)} {pub : List (Lc Scalar Scalar)} {u : Unit} :
    (do
      rejectSlots (slots.length = nymValues)
      forM (slots.zip pub) fun t => equal (Lc.num t.1) t.2 : Circuit Scalar Scalar Unit).Honest ins u ↔
      ins = [] ∧ slots.length = nymValues ∧ ∀ t ∈ slots.zip pub, t.1.val = t.2.lc.eval := by
  have hforM : ∀ ins u, (forM (slots.zip pub) fun t => equal (Lc.num t.1) t.2 : Circuit Scalar Scalar Unit).Honest ins u ↔
      ins = [] ∧ ∀ t ∈ slots.zip pub, t.1.val = t.2.lc.eval := by
    refine fun _ _ => Circuit.honest_rule (Circuit.Ensures.forM fun t _ => ?_) fun heq => ?_
    · exact ensures_equal.mono fun _ h => (AllocatedNum.eval_lc _).symm.trans h
    · exact Circuit.Succeeds.forM fun t ht => succeeds_equal ((AllocatedNum.eval_lc _).trans (heq t ht))
  rw [Circuit.honest_rule_bind fun _ _ => honest_rejectSlots, hforM]
  exact and_left_comm

/-- What the slots of a pseudonym hold: its values, the third beside the padding. -/
def NymPublic.slotValues (nym : NymPublic) : List Scalar :=
  [fromBe (nym.verifierInput.val.take 9), fromBe ((nym.verifierInput.val.drop 9).take 16),
    fromBe (nym.verifierInput.val.drop 25) * two72 + lastChunkPadding, fromBe (nym.pseudonym.val.take 16),
    fromBe (nym.pseudonym.val.drop 16)]

theorem honest_checkPseudonym {slots : List (AllocatedNum Scalar Scalar)} {nym : NymPublic} {u : Unit} :
    (checkPseudonym slots (some nym)).Honest ins u ↔ ins = nym.values ∧ slots.map AllocatedNum.val = nym.slotValues := by
  have hinputs := delivers_allocInputs nym.values (n := nymValues) le_rfl
  have htake : (nym.values : List Scalar).take nymValues = nym.values := rfl
  rw [htake] at hinputs
  unfold checkPseudonym
  refine (hinputs.honest_bind_iff (Q := fun j => j = [] ∧ slots.map AllocatedNum.val = nym.slotValues)
    fun pub hpub j => ?_).trans (by simp)
  obtain ⟨high, out1, hhigh, h1, rfl⟩ := List.forall₂_cons_right_iff.mp hpub
  obtain ⟨middle, out2, hmiddle, h2, rfl⟩ := List.forall₂_cons_right_iff.mp h1
  obtain ⟨low, out3, hlow, h3, rfl⟩ := List.forall₂_cons_right_iff.mp h2
  obtain ⟨p, out4, hp, h4, rfl⟩ := List.forall₂_cons_right_iff.mp h3
  obtain ⟨q, out5, hq, h5, rfl⟩ := List.forall₂_cons_right_iff.mp h4
  obtain rfl := List.forall₂_nil_right_iff.mp h5
  rw [honest_compareSlots]
  refine and_congr_right fun _ => ?_
  constructor
  · rintro ⟨hlen, hslots⟩
    obtain ⟨a, b, c, d, e, rfl⟩ := exists_five hlen
    simpa [NymPublic.slotValues, hhigh.eval_eq, hmiddle.eval_eq, hlow.eval_eq, hp.eval_eq, hq.eval_eq, Lc.eval_add,
      Lc.eval_scale, Lc.eval_constant] using hslots
  · intro hslots
    have hlen : slots.length = nymValues := by
      rw [← List.length_map AllocatedNum.val, hslots]
      rfl
    obtain ⟨a, b, c, d, e, rfl⟩ := exists_five hlen
    refine ⟨rfl, ?_⟩
    simpa [NymPublic.slotValues, hhigh.eval_eq, hmiddle.eval_eq, hlow.eval_eq, hp.eval_eq, hq.eval_eq, Lc.eval_add,
      Lc.eval_scale, Lc.eval_constant] using hslots

theorem FactSlots.HoldWindows.honest_synthesize {constants : Constants Scalar} {A : p256.Point} {B : ℕ → p256.Point}
    (hc : constants.Hold A B) {p : Presentation} {nym : NymPublic} {f : FactSlots} {c : CredentialFacts}
    (hwindows : p.pub.request.windows = windows) (hf : f.HoldWindows c windows) (hknown : AllKnown f.slots)
    {D : p256.Point} (hD : At (f.deviceX.val, f.deviceY.val) D) {nymSlots : List (AllocatedNum Scalar Scalar)} {u : Unit} :
    (MdocNymCore.synthesize constants ⟨some p, some nym⟩ (f.slots ++ nymSlots)).Honest ins u ↔
      ins = p.pub.values ++ nym.values ∧ (f.Named c p.pub ∧ f.Ranges p.pub ∧
        p.deviceSignature.Fits A B D (bytesNat p.pub.challenge.val)) ∧ nymSlots.map AllocatedNum.val = nym.slotValues := by
  have hlen : f.slots.length = baseValues + windows.1.len + windows.2.len := by
    rw [FactSlots.slots, List.length_append, List.length_append, hf.typeBytes.length_eq, hf.attributeBytes.length_eq,
      hf.length_type, hf.length_attribute]
    rfl
  have hreject : ∀ ins u, (rejectSlots ((f.slots ++ nymSlots).length = baseValues + windows.1.len + windows.2.len +
      nymValues) : Circuit Scalar Scalar Unit).Honest ins u ↔ ins = [] ∧ nymSlots.length = nymValues := by
    intro ins u
    rw [honest_rejectSlots, List.length_append, hlen, Nat.add_left_cancel_iff]
  rw [MdocNymCore.synthesize, List.take_left' hlen, List.drop_left' hlen, Circuit.honest_rule_bind hreject,
    Circuit.honest_rules_bind fun _ _ => hf.honest_check hc hwindows hknown hD]
  simp only [honest_checkPseudonym]
  constructor
  · rintro ⟨-, hrules, _, rfl, rfl, hnym⟩
    exact ⟨rfl, hrules, hnym⟩
  · rintro ⟨rfl, hrules, hnym⟩
    have hcount : nymSlots.length = nymValues := by
      rw [← List.length_map AllocatedNum.val, hnym]
      rfl
    exact ⟨hcount, hrules, _, rfl, rfl, hnym⟩

end Presented

end ZkCredVega.Nym
