import ZkCredVega.OffsetBind.Namespace

/-!
# The entry walk, whole

A satisfying assignment walks over entries that are there, whatever the linear combination it
starts from: the first step is live, so the start is an offset of the buffer. The other way the
honest assignment of the selected windows, the heads' bits and the width selectors satisfies
every constraint of a walk over well-formed entries.
-/

namespace ZkCredVega

open Circuits

variable {F : Type} [Field F]

/-! ## Honest windows -/

theorem succeeds_rejectUnless {p : Prop} [Decidable p] (h : p) :
    (rejectUnless p : Circuit F F Unit).Succeeds fun _ => True := by
  rw [rejectUnless, if_pos h]
  exact Circuit.succeeds_pure.mpr trivial

/-- The window at `o` holds `w`, and its packs are assigned their values. -/
structure SelectedWindow.HonestlyShows (window : SelectedWindow F F) (o : ℕ) (w : List UInt8) : Prop where
  offset_eq : window.offset.eval = (o : F)
  packs : List.Forall₂ (AllocatedNum.Holds .honest) window.packs ((packBytes w).map (Nat.cast : ℕ → F))

section Window

variable {bits onehot : List (Boolean F)} {buf : List UInt8} {candidates : List ℕ} {realOffset windowLen : ℕ}

theorem packHint_eq (buf : List UInt8) (o len p : ℕ) :
    bytesNat ((List.range' (p * bytesPerPack) (min (p * bytesPerPack + bytesPerPack) len - p * bytesPerPack)).map
      fun i => buf.getD (o + i) 0) =
        bytesNat (((windowAt buf o len).drop (p * bytesPerPack)).take bytesPerPack) := by
  rw [chunk_windowAt, List.range'_eq_map_range, List.map_map]
  rfl

/-- The honest one-hot over the candidates is the one at the real offset's place. -/
theorem readsAll_oneHot_idxOf (hsel : Boolean.ReadsAll onehot (candidates.map (· == realOffset)))
    (hreal : realOffset ∈ candidates) (hnodup : candidates.Nodup) :
    Boolean.ReadsAll onehot (oneHot candidates.length (candidates.idxOf realOffset)) := by
  have hj := List.idxOf_lt_length_iff.mpr hreal
  have heq := oneHot_eq_map_beq hnodup hj
  rw [List.getElem_idxOf hj] at heq
  rwa [heq]

theorem succeeds_selectPack (hb : Boolean.ReadsAll bits (bytesBits buf))
    (hsel : Boolean.ReadsAll onehot (candidates.map (· == realOffset))) (hreal : realOffset ∈ candidates)
    (hnodup : candidates.Nodup) (p : ℕ) :
    (selectPack bits buf candidates realOffset windowLen onehot p).Succeeds (AllocatedNum.Holds .honest ·
      ((bytesNat (((windowAt buf realOffset windowLen).drop (p * bytesPerPack)).take bytesPerPack) : ℕ) : F)) := by
  have heval := eval_packAt hb realOffset windowLen p
  unfold selectPack
  dsimp only
  rw [packHint_eq]
  generalize ((bytesNat _ : ℕ) : F) = value at heval ⊢
  have hj := List.idxOf_lt_length_iff.mpr hreal
  have honehot := readsAll_oneHot_idxOf hsel hreal hnodup
  have hhint : ∀ t ∈ candidates.zip onehot, (.ok (if t.1 = realOffset then value else 0) : Outcome F) =
      .ok ((packAt bits t.1 windowLen buf.length p).eval * t.2.eval) := by
    intro t ht
    have hread : t.2.Reads (t.1 == realOffset) := by
      have hpairs := (List.forall₂_map_right_iff.mp hsel).flip
      exact (List.forall₂_iff_zip.mp hpairs).2 ht
    unfold Boolean.Reads at hread
    rw [hread]
    by_cases heq : t.1 = realOffset
    · rw [if_pos heq, heq, heval, beq_self_eq_true, ofBool, if_pos rfl, mul_one]
    · rw [if_neg heq, beq_eq_false_iff_ne.mpr heq, ofBool, if_neg Bool.false_ne_true, mul_zero]
  refine (AllocatedNum.succeeds_alloc rfl).bind fun out hout => ?_
  refine (yields_terms .honest (fun cand => packAt bits cand windowLen buf.length p) honehot hj
    fun _ => hhint).succeeds.bind fun terms hterms => .require_bind ?_ (Circuit.succeeds_pure.mpr hout)
  rw [hterms, List.getElem_idxOf hj, heval, LC.eval_const, mul_one, AllocatedNum.eval_lc, hout.val_eq]

theorem succeeds_selectWindow (hb : Boolean.ReadsAll bits (bytesBits buf)) (hreal : realOffset ∈ candidates)
    (hnodup : candidates.Nodup) : (selectWindow bits buf candidates realOffset windowLen).Succeeds
      (·.HonestlyShows realOffset (windowAt buf realOffset windowLen)) := by
  have hbits : bits.length = 8 * buf.length := by rw [hb.length_eq, length_bytesBits]
  unfold selectWindow
  refine (succeeds_rejectUnless hreal).bind fun _ _ => ?_
  refine (succeeds_allocOneHot hreal hnodup).bind fun onehot hsel => ?_
  refine (Circuit.succeeds_assert fun cand _ i _ hi => by omega).bind fun _ _ => ?_
  refine (Circuit.Succeeds.mapM fun p _ => succeeds_selectPack hb hsel.reads hreal hnodup p).bind
    fun packs hpacks => Circuit.succeeds_pure.mpr ⟨?_, ?_⟩
  · have hj := List.idxOf_lt_length_iff.mpr hreal
    have hoffset := eval_offset (readsAll_oneHot_idxOf hsel.reads hreal hnodup) hj
    rwa [List.getElem_idxOf hj] at hoffset
  · rw [packBytes, length_windowAt, List.map_map, List.forall₂_map_right_iff]
    exact hpacks.flip

end Window

theorem succeeds_unpackPack [ToRepr F] [LawfulToRepr F] {pack : AllocatedNum F F} {w : List UInt8}
    (hpack : pack.Holds .honest ((bytesNat w : ℕ) : F)) (hlen : w.length ≤ 16) :
    (unpackPack pack w.length).Succeeds (Boolean.HonestReadsAll · (bytesBits w)) := by
  have hlt : bytesNat w < 2 ^ 255 := by
    rw [← beBits_bytesBits]
    exact lt_of_lt_of_le (beBits_lt _) (two_pow_le (by rw [length_bytesBits]; omega))
  have hhint : ∀ k ∈ List.range (8 * w.length), (Boolean.alloc (pack.value.map fun v =>
      (ToRepr.toNat v).testBit (8 * (w.length - 1 - k / 8) + (7 - k % 8))) : Circuit F F _).Succeeds
        (·.HonestReads ((bytesBits w).getD k false)) := by
    intro k hk
    have hk : k < 8 * w.length := List.mem_range.mp hk
    have hidx : 8 * (w.length - 1 - k / 8) + (7 - k % 8) = w.length * 8 - 1 - k := by omega
    apply Boolean.succeeds_alloc
    rw [hpack.value_eq rfl, Option.map_some, LawfulToRepr.toNat_natCast hlt, hidx, testBit_bytesNat (by omega)]
  unfold unpackPack
  refine (Circuit.Succeeds.mapM hhint).bind fun bits hbits => ?_
  have hreads : Boolean.HonestReadsAll bits (bytesBits w) := by
    have hmap := Boolean.HonestReadsAll.of_forall₂ hbits
    rwa [map_getD_range (length_bytesBits w)] at hmap
  refine .require_bind ?_ (Circuit.succeeds_pure.mpr hreads)
  rw [eval_recomposed hreads.reads (length_bytesBits w), LC.eval_const, mul_one, AllocatedNum.eval_lc,
    hpack.val_eq, beBits_bytesBits]

section Unpack

variable [ToRepr F] [LawfulToRepr F]

theorem succeeds_unpackWindowBits {window : SelectedWindow F F} {o : ℕ} {w : List UInt8}
    (h : window.HonestlyShows o w) :
    (unpackWindowBits window w.length).Succeeds (Boolean.HonestReadsAll · (bytesBits w)) := by
  have hlen : window.packs.length = packCount w.length := by
    rw [h.packs.length_eq, List.length_map, length_packBytes]
  have hstep : ∀ t ∈ window.packs.zipIdx, (do
      Circuit.assert (t.2 * bytesPerPack ≤ w.length)
      unpackPack t.1 (min (w.length - t.2 * bytesPerPack) bytesPerPack)).Succeeds fun bs =>
        Boolean.HonestReadsAll bs (bytesBits ((w.drop (t.2 * bytesPerPack)).take bytesPerPack)) := by
    rintro ⟨pack, p⟩ ht
    have hp : p < packCount w.length := hlen ▸ List.snd_lt_of_mem_zipIdx ht
    have hle : p * bytesPerPack ≤ w.length := by
      rw [packCount] at hp
      simp only [bytesPerPack]
      omega
    have hpack : pack.Holds .honest ((bytesNat ((w.drop (p * bytesPerPack)).take bytesPerPack) : ℕ) : F) := by
      have hp' : p < window.packs.length := List.snd_lt_of_mem_zipIdx ht
      have hget : window.packs[p] = pack := (List.mem_zipIdx' ht).2 ▸ rfl
      have hholds := h.packs.get hp' (by rwa [List.length_map, length_packBytes])
      simpa [packBytes, hget] using hholds
    have hn : min (w.length - p * bytesPerPack) bytesPerPack =
        ((w.drop (p * bytesPerPack)).take bytesPerPack).length := by
      simp [min_comm]
    refine (Circuit.succeeds_assert hle).bind fun _ _ => ?_
    rw [hn]
    exact succeeds_unpackPack hpack (by simp [bytesPerPack])
  refine (Circuit.Succeeds.mapM hstep).bind fun out hout => Circuit.succeeds_pure.mpr ?_
  rw [← flatten_chunks w, bytesBits_flatten, ← map_chunks_zipIdx hlen]
  exact Boolean.HonestReadsAll.flatten hout

end Unpack

/-! ## The honest walk -/

theorem succeeds_allocCount {n real : ℕ} (hpos : 1 ≤ real) (hreal : real ≤ n) :
    (allocCount n real : Circuit F F _).Succeeds fun t =>
      Boolean.ReadsAll t.1 (oneHot n (real - 1)) ∧ t.2.val = (real : F) := by
  have hj : real - 1 < n := by omega
  have hhints : (List.range n).map (fun i => i + 1 == real) = oneHot n (real - 1) := by
    apply List.map_congr_left
    intro i _
    apply Bool.eq_iff_iff.mpr
    simp only [beq_iff_eq]
    omega
  unfold allocCount
  refine (Circuit.Succeeds.mapM fun i _ => Boolean.succeeds_alloc rfl).bind fun sel hsel => ?_
  have hreads : Boolean.ReadsAll sel (oneHot n (real - 1)) := by
    rw [← hhints]
    exact (Boolean.HonestReadsAll.of_forall₂ hsel).reads
  refine .require_bind ?_ ?_
  · rw [eval_sum_sel hreads, sum_oneHot hj]
    simp
  · refine (AllocatedNum.succeeds_alloc rfl).bind fun count hcount => .require_bind ?_ ?_
    · rw [eval_countLc hreads hj, LC.eval_const, mul_one, AllocatedNum.eval_lc, hcount.val_eq,
        Nat.sub_add_cancel hpos]
    · exact Circuit.succeeds_pure.mpr ⟨hreads, hcount.val_eq⟩

section Walk

variable [LargeChar F] [ToRepr F] [LawfulToRepr F] {bits countSel : List (Boolean F)} {buf : List UInt8}
  {start n : ℕ}

def honestWidths (live : Bool) (realWidth : ℕ) : List Bool :=
  digestIdWidths.map fun t => live && t.1 == realWidth

theorem honestWidths_live : ∀ j, ∀ hj : j < digestIdWidths.length,
    honestWidths true digestIdWidths[j].1 = oneHot digestIdWidths.length j := by
  decide

theorem honestWidths_dead (realWidth : ℕ) :
    honestWidths false realWidth = List.replicate digestIdWidths.length false := by
  simp [honestWidths]

/-- The window a step reads: where it stands, or the first one when it has run out of room. -/
def stepOffset (buf : List UInt8) (hereNative : ℕ) : ℕ :=
  if hereNative + entryHeadWindow ≤ buf.length then hereNative else 0

theorem stepOffset_add_le {hereNative : ℕ} (h7 : entryHeadWindow ≤ buf.length) :
    stepOffset buf hereNative + entryHeadWindow ≤ buf.length := by
  unfold stepOffset
  split
  · assumption
  · omega

theorem nodup_windowOffsets (len windowLen : ℕ) : (windowOffsets len windowLen).Nodup := by
  unfold windowOffsets
  split
  · exact List.nodup_nil
  · exact List.nodup_range

theorem succeeds_walkStep_of (hb : Boolean.ReadsAll bits (bytesBits buf)) (s : WalkState F F) (i realWidth : ℕ)
    (h7 : entryHeadWindow ≤ buf.length)
    (hat : ((stepOffset buf s.hereNative : F) - s.here.eval) *
      (sumWhere (fun m => m + 1 > i) countSel : LC F F).eval = 0)
    (hwidth : (if decide (i < n) then digestIdWidth buf s.hereNative else .ok 0) = .ok realWidth)
    (hsum : ((honestWidths (decide (i < n)) realWidth).map ofBool).sum =
      (sumWhere (fun m => m + 1 > i) countSel : LC F F).eval)
    (hok : ∀ t ∈ digestIdWidths.zip (honestWidths (decide (i < n)) realWidth), t.2 = true →
      HeadOk (windowAt buf (stepOffset buf s.hereNative) entryHeadWindow) t.1) :
    (walkStep bits buf countSel n s i).Succeeds fun s' =>
      (∃ widthSel : List (Boolean F), Boolean.ReadsAll widthSel (honestWidths (decide (i < n)) realWidth) ∧
        s'.here = s.here + LC.sum ((digestIdWidths.zip widthSel).map fun t =>
          t.2.lc ((t.1.1 + digestValueLen : ℕ) : F))) ∧
      s'.hereNative = if i < n then s.hereNative + (realWidth + digestValueLen) else s.hereNative := by
  have hcandidate : stepOffset buf s.hereNative ∈ windowOffsets buf.length entryHeadWindow :=
    mem_windowOffsets.mpr (stepOffset_add_le h7)
  unfold walkStep
  refine (succeeds_selectWindow hb hcandidate (nodup_windowOffsets _ _)).bind fun head hhead => ?_
  refine .require_bind (by rw [LC.eval_sub, hhead.offset_eq, hat, LC.eval_zero]) ?_
  have hunpack := succeeds_unpackWindowBits hhead
  rw [length_windowAt] at hunpack
  refine hunpack.bind fun headBits hbits => ?_
  have hlift : (Circuit.lift (if decide (i < n) then digestIdWidth buf s.hereNative else .ok 0) :
      Circuit F F ℕ).Succeeds (· = realWidth) := by
    rw [hwidth]
    exact Circuit.succeeds_pure.mpr rfl
  refine hlift.bind fun w hw => ?_
  subst hw
  refine (Circuit.Succeeds.mapM fun t _ => Boolean.succeeds_alloc rfl).bind fun widthSel hsel => ?_
  have hr : Boolean.ReadsAll widthSel (honestWidths (decide (i < n)) w) :=
    (Boolean.HonestReadsAll.of_forall₂ hsel).reads
  refine .require_bind (by rw [eval_sum_sel hr, hsum, LC.eval_const, mul_one]) ?_
  have hchecks : ∀ t ∈ digestIdWidths.zip widthSel,
      (checkWidth headBits t.1.1 t.1.2 t.2 : Circuit F F Unit).Succeeds fun _ => True := by
    intro t ht
    have hpairs := (List.forall₂_iff_zip.mp (List.forall₂_map_right_iff.mp hr).flip).2 ht
    have hmem : (t.1, decide (i < n) && t.1.1 == w) ∈ digestIdWidths.zip (honestWidths (decide (i < n)) w) := by
      have hzip : digestIdWidths.zip (honestWidths (decide (i < n)) w) =
          digestIdWidths.map fun u => (u, decide (i < n) && u.1 == w) := rfl
      rw [hzip]
      exact List.mem_map.mpr ⟨t.1, (List.of_mem_zip ht).1, rfl⟩
    have hcheck : (checkWidth headBits t.1.1 t.1.2 t.2 : Circuit F F Unit).Yields .honest fun _ => True :=
      yields_checkWidth hpairs hbits (hok _ hmem)
    exact hcheck.succeeds
  refine (Circuit.Succeeds.forM hchecks).bind fun _ _ => Circuit.succeeds_pure.mpr ?_
  exact ⟨⟨widthSel, hr, rfl⟩, by simp⟩

/-- An honest step over a well-formed entry, or past the last one, goes through. -/
theorem succeeds_walkStep (hb : Boolean.ReadsAll bits (bytesBits buf)) (h7 : entryHeadWindow ≤ buf.length)
    {e : ℕ} (hpos : 1 ≤ n) (hn : n ≤ maxNamespaceEntries) (hentries : EntriesAt buf start n e)
    (hsel : Boolean.ReadsAll countSel (oneHot maxNamespaceEntries (n - 1))) {i : ℕ} {s : WalkState F F}
    (hs : HonestWalkAt buf start n i s) :
    (walkStep bits buf countSel n s i).Succeeds (HonestWalkAt buf start n (i + 1)) := by
  have hlive := eval_live (F := F) (i := i) hpos hn hsel
  by_cases hil : i < n
  · obtain ⟨j, hj, hw, hok⟩ := hs.exists_head hil hentries
    have hoffset : stepOffset buf s.hereNative = s.hereNative := if_pos hw.1
    have hwidths : honestWidths (decide (i < n)) digestIdWidths[j].1 = oneHot digestIdWidths.length j := by
      rw [decide_eq_true hil, honestWidths_live j hj]
    refine (succeeds_walkStep_of hb s i digestIdWidths[j].1 h7 ?_ ?_ ?_ ?_).mono
      fun s' ⟨⟨widthSel, hr, hhere⟩, hnat⟩ => ?_
    · rw [hoffset, hs.here_eq, sub_self, zero_mul]
    · rw [if_pos (decide_eq_true hil)]
      exact hw.width
    · rw [hwidths, hlive, sum_oneHot hj, decide_eq_true hil]
      rfl
    · rw [hwidths, hoffset]
      intro t ht htrue
      obtain ⟨k, hk, rfl⟩ := List.mem_iff_getElem.mp ht
      rw [List.getElem_zip] at htrue ⊢
      obtain rfl : k = j := by simpa [getElem_oneHot] using htrue
      exact hok
    · rw [hwidths] at hr
      rw [if_pos hil] at hnat
      exact hs.live hil hj hw hr hhere hnat
  · have hwidths : honestWidths (decide (i < n)) 0 = List.replicate digestIdWidths.length false := by
      rw [decide_eq_false hil, honestWidths_dead]
    refine (succeeds_walkStep_of hb s i 0 h7 ?_ ?_ ?_ ?_).mono fun s' ⟨⟨widthSel, hr, hhere⟩, hnat⟩ => ?_
    · rw [hlive, decide_eq_false hil]
      simp [ofBool]
    · rw [decide_eq_false hil]
      rfl
    · rw [hwidths, hlive, decide_eq_false hil]
      simp [ofBool]
    · rw [hwidths]
      intro t ht htrue
      have hfalse := List.eq_of_mem_replicate (List.of_mem_zip ht).2
      rw [hfalse] at htrue
      cases htrue
    · rw [hwidths] at hr
      rw [if_neg hil] at hnat
      exact hs.dead hil hr hhere hnat

theorem succeeds_walkEntries (hb : Boolean.ReadsAll bits (bytesBits buf)) {e : ℕ} (hpos : 1 ≤ n)
    (hn : n ≤ maxNamespaceEntries) (hentries : EntriesAt buf start n e) {regionStart : LC F F}
    (hrs : regionStart.eval = (start : F)) :
    (walkEntries bits buf regionStart start n).Succeeds fun t => t.2.val = (n : F) ∧ t.1.here.eval = (e : F) := by
  have h7 : entryHeadWindow ≤ buf.length := by
    obtain ⟨m, w, -, hw⟩ := hentries.head hpos
    have hfit := hw.1
    omega
  have h0 : HonestWalkAt buf start n 0 { here := regionStart, hereNative := start, heads := [] } := by
    refine ⟨?_, hrs⟩
    rw [Nat.zero_min]
    exact .nil
  unfold walkEntries
  refine (succeeds_rejectUnless (by omega)).bind fun _ _ => ?_
  refine (succeeds_allocCount hpos hn).bind fun t ht => ?_
  obtain ⟨countSel, entries⟩ := t
  obtain ⟨hsel, hval⟩ := ht
  refine (Circuit.Succeeds.foldlM (HonestWalkAt buf start n) h0 fun i hi s hs => ?_).bind fun s hs => ?_
  · rw [List.getElem_range]
    exact succeeds_walkStep hb h7 hpos hn hentries hsel hs
  · have hse := hs.entries
    rw [List.length_range, show min maxNamespaceEntries n = n by omega] at hse
    refine Circuit.succeeds_pure.mpr ⟨hval, ?_⟩
    rw [hs.here_eq, hse.unique hentries]

end Walk

/-! ## Every walk -/

section Every

variable [LargeChar F] [ToRepr F] {bits : List (Boolean F)} {buf native : List UInt8} {regionStart : LC F F}

theorem ensures_walkStep_start (hb : Boolean.ReadsAll bits (bytesBits buf)) (hlen : native.length = buf.length)
    (hbuf : buf.length < 2 ^ 64) {countSel : List (Boolean F)} {numEntries i : ℕ} {s : WalkState F F} :
    (walkStep bits native countSel numEntries s i).Ensures fun _ =>
      (sumWhere (fun n => n + 1 > i) countSel : LC F F).eval = 1 →
        ∃ o : ℕ, o + entryHeadWindow ≤ buf.length ∧ s.here.eval = (o : F) := by
  have hcand : (windowOffsets native.length entryHeadWindow).length < 2 ^ 255 :=
    lt_of_le_of_lt (length_windowOffsets_le _ _) (by rw [hlen]; omega)
  unfold walkStep
  refine (ensures_selectWindow hb hlen hcand).bind fun head ⟨_, o, ho, hhead⟩ => .require_bind fun hat => ?_
  rw [mem_windowOffsets, hlen] at ho
  rw [LC.eval_sub, hhead.offset_eq, LC.eval_zero] at hat
  have hunpack := computes_unpackWindowBits hhead
  rw [length_windowAt] at hunpack
  refine hunpack.sound.bind fun headBits hbits => Circuit.ensures_lift.bind fun realWidth _ => ?_
  refine Boolean.ensures_allocBits.bind fun widthSel hw => .require_bind fun _ => ?_
  obtain ⟨xs, -, hr⟩ := hw
  have hchecks : (forM (digestIdWidths.zip widthSel) fun t =>
      (checkWidth headBits t.1.1 t.1.2 t.2 : Circuit F F Unit)).Ensures fun _ => True := by
    refine (Circuit.Ensures.forM fun t ht => ?_ : Circuit.Ensures _ fun _ =>
      ∀ t ∈ digestIdWidths.zip widthSel, True).mono fun _ _ => trivial
    obtain ⟨x, hx⟩ := hr.isBit (List.of_mem_zip ht).2
    exact (ensures_checkWidth hx hbits).mono fun _ _ => trivial
  refine hchecks.bind fun _ _ => Circuit.ensures_pure.mpr fun hlive => ⟨o, ho, ?_⟩
  rw [hlive, mul_one] at hat
  exact (sub_eq_zero.mp hat).symm

/-- What a walk starts from is an offset of the buffer. -/
theorem ensures_walkEntries_start (hb : Boolean.ReadsAll bits (bytesBits buf)) (hlen : native.length = buf.length)
    (hbuf : buf.length < 2 ^ 64) {regionStartNative numEntries : ℕ} :
    (walkEntries bits native regionStart regionStartNative numEntries).Ensures fun _ =>
      ∃ o : ℕ, o + entryHeadWindow ≤ buf.length ∧ regionStart.eval = (o : F) := by
  unfold walkEntries
  refine ensures_rejectUnless.bind fun _ _ => ?_
  refine (ensures_allocCount (by decide)).bind fun t ht => ?_
  obtain ⟨countSel, entries⟩ := t
  obtain ⟨l, hl, hsel, -⟩ := ht
  -- the count reaches past the first entry, whichever it is
  have hlive : (sumWhere (fun n => n + 1 > 0) countSel : LC F F).eval = 1 := by
    rw [eval_sumWhere _ hsel hl]
    simp [ofBool]
  refine (Circuit.Ensures.foldlM (fun i (s : WalkState F F) => (i = 0 → s.here = regionStart) ∧ (0 < i →
    ∃ o : ℕ, o + entryHeadWindow ≤ buf.length ∧ regionStart.eval = (o : F)))
    ⟨fun _ => rfl, fun hlt => absurd hlt (Nat.lt_irrefl 0)⟩ fun i hi s hs => ?_).bind fun s hs => ?_
  · rw [List.length_range] at hi
    rw [List.getElem_range]
    refine (ensures_walkStep_start hb hlen hbuf).mono fun s' hs' =>
      ⟨fun hzero => absurd hzero (Nat.succ_ne_zero i), fun _ => ?_⟩
    by_cases hzero : i = 0
    · subst hzero
      rw [← hs.1 rfl]
      exact hs' hlive
    · exact hs.2 (by omega)
  · exact Circuit.ensures_pure.mpr (hs.2 (by rw [List.length_range]; decide))

theorem runs_walkEntries (hb : Boolean.ReadsAll bits (bytesBits buf)) (hlen : native.length = buf.length)
    (hbuf : buf.length < 2 ^ 64) {regionStartNative numEntries : ℕ} {ins : List F} {out : LC F F × AllocatedNum F F}
    (hrun : (walkNamespaceEntries bits native regionStart regionStartNative numEntries).Runs ins out) :
    ∃ s n e : ℕ, s < buf.length ∧ regionStart.eval = (s : F) ∧ 1 ≤ n ∧ n ≤ maxNamespaceEntries ∧
      out.2.val = (n : F) ∧ EntriesAt buf s n e ∧ out.1.eval = (e : F) := by
  obtain ⟨t, ht, rfl⟩ := Circuit.runs_map.mp hrun
  obtain ⟨-, s, hs, hstart⟩ := ensures_walkEntries_start hb hlen hbuf ins t ht
  simp only [entryHeadWindow] at hs
  have hsmall : s < 2 ^ 65 := by omega
  obtain ⟨-, n, e, hpos, hn, hval, hentries, hend, -⟩ := ensures_walkEntries hb hlen hbuf hsmall hstart ins t ht
  exact ⟨s, n, e, by omega, hstart, hpos, hn, hval, hentries, hend⟩

end Every

/-- The walk over a namespace's entries. A satisfying assignment publishes a count of one to sixty-four, the
entries of that count are there and the end is the native one, the same for every assignment with that count; and
the honest assignment walks over any such entries. -/
theorem walkNamespaceEntries_walks [LargeChar F] [ToRepr F] [LawfulToRepr F] {bits : List (Boolean F)}
    {buf : List UInt8} (hb : Boolean.ReadsAll bits (bytesBits buf)) (hbuf : buf.length < 2 ^ 64)
    (regionStart : LC F F) :
    (∀ native regionStartNative numEntries ins out, native.length = buf.length →
      (walkNamespaceEntries bits native regionStart regionStartNative numEntries).Runs ins out →
      ∃ s n e : ℕ, s < buf.length ∧ regionStart.eval = (s : F) ∧ 1 ≤ n ∧ n ≤ maxNamespaceEntries ∧
        out.2.val = (n : F) ∧ EntriesAt buf s n e ∧ nativeRegionEnd buf s n = .ok e ∧ out.1.eval = (e : F) ∧
        ∀ native' regionStartNative' numEntries' ins' out', native'.length = buf.length →
          (walkNamespaceEntries bits native' regionStart regionStartNative' numEntries').Runs ins' out' →
          out'.2.val = out.2.val → out'.1.eval = out.1.eval) ∧
      ∀ s n e : ℕ, regionStart.eval = (s : F) → 1 ≤ n → n ≤ maxNamespaceEntries → EntriesAt buf s n e →
        (walkNamespaceEntries bits buf regionStart s n).Succeeds fun out =>
          out.2.val = (n : F) ∧ out.1.eval = (e : F) := by
  refine ⟨fun native regionStartNative numEntries ins out hlen hrun => ?_, fun s n e hstart hpos hn hentries => ?_⟩
  · obtain ⟨s, n, e, hs, hstart, hpos, hn, hval, hentries, hend⟩ := runs_walkEntries hb hlen hbuf hrun
    refine ⟨s, n, e, hs, hstart, hpos, hn, hval, hentries, hentries.nativeRegionEnd, hend, ?_⟩
    intro native' regionStartNative' numEntries' ins' out' hlen' hrun' hsame
    obtain ⟨s', n', e', hs', hstart', -, hn', hval', hentries', hend'⟩ := runs_walkEntries hb hlen' hbuf hrun'
    have hmax : maxNamespaceEntries < 2 ^ 255 := by decide
    obtain rfl : n' = n := LargeChar.natCast_inj (F := F) (by omega) (by omega)
      (hval'.symm.trans (hsame.trans hval))
    obtain rfl : s' = s := LargeChar.natCast_inj (F := F) (by omega) (by omega) (hstart'.symm.trans hstart)
    rw [hend, hend', hentries'.unique hentries]
  · exact .map (succeeds_walkEntries hb hpos hn hentries hstart)

/-- A name space of the digestIDs 5, 24, 300 and 70000, in its map, with the next key behind it. -/
def mixedEntries : List UInt8 :=
  0xa4 :: ([[0x05], [0x18, 0x18], [0x19, 0x01, 0x2c], [0x1a, 0x00, 0x01, 0x11, 0x70]].zipIdx.flatMap fun t =>
    t.1 ++ [0x58, 0x20] ++ (List.range 32).map fun i => UInt8.ofNat (32 * t.2 + i + 1)) ++ [0x6d]

theorem entriesAt_mixedEntries : EntriesAt mixedEntries 1 4 148 := by
  have h1 : HeadAt mixedEntries 1 1 := ⟨by decide +kernel, none, by decide, by unfold HeadOk; decide +kernel⟩
  have h2 : HeadAt mixedEntries 36 2 := ⟨by decide +kernel, some 0x18, by decide, by unfold HeadOk; decide +kernel⟩
  have h3 : HeadAt mixedEntries 72 3 := ⟨by decide +kernel, some 0x19, by decide, by unfold HeadOk; decide +kernel⟩
  have h5 : HeadAt mixedEntries 109 5 := ⟨by decide +kernel, some 0x1a, by decide, by unfold HeadOk; decide +kernel⟩
  exact .snoc (.snoc (.snoc (.snoc .nil h1) h2) h3) h5

/-- Entries of all four widths are walked to their end. -/
theorem walkNamespaceEntries_walks_mixed : ∃ out : LC Scalar Scalar × AllocatedNum Scalar Scalar,
    (walkNamespaceEntries (constantBits mixedEntries) mixedEntries (LC.const 1) 1 4).Runs [] out ∧
      out.2.val = ((4 : ℕ) : Scalar) ∧ out.1.eval = ((148 : ℕ) : Scalar) ∧
      ∃ s n e : ℕ, EntriesAt mixedEntries s n e ∧ nativeRegionEnd mixedEntries s n = .ok e ∧
        out.1.eval = (e : Scalar) := by
  have hlength : mixedEntries.length = 149 := by decide +kernel
  obtain ⟨hall, hhonest⟩ := walkNamespaceEntries_walks (readsAll_constantBits (F := Scalar) mixedEntries)
    (by rw [hlength]; decide) (LC.const 1)
  obtain ⟨out, hrun, hcount, hend⟩ := hhonest 1 4 148 (by rw [LC.eval_const, Nat.cast_one]) (by decide) (by decide)
    entriesAt_mixedEntries
  obtain ⟨s, n, e, -, -, -, -, -, hentries, hnative, heval, -⟩ := hall mixedEntries 1 4 [] out rfl hrun.runs
  exact ⟨out, hrun.runs, hcount, hend, s, n, e, hentries, hnative, heval⟩

end ZkCredVega
