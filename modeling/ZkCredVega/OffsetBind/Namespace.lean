import ZkCredVega.OffsetBind.Region
import ZkCredVega.P256

/-!
# The published namespace and the digest region

`bindDigestRegion` reads the namespace's offset and the namespace bytes it
publishes through two selectors. `OwnSubMap` says that the region is the
sub-map of the published namespace: one offset for both. The selectors are not
tied, so every buffer the binding accepts at all is also accepted with another
namespace's bytes published (`exists_run_of_namespace`).
-/

namespace ZkCredVega

open Circuits

variable {F : Type} [Field F]

/-- The region is the published namespace's own sub-map: at one offset `k` stand the `L` published
bytes, and the region runs from `k + L` over the `n` entries that start there. -/
def OwnSubMap (buf : List UInt8) (r : RegionBinding F F) : Prop :=
  ∃ k L n e : ℕ, k + L ≤ buf.length ∧ r.namespacePrefixLen.val = (L : F) ∧
    MaskedPacks buf k L r.nameSpace ∧ r.regionStart.eval = ((k + L : ℕ) : F) ∧
    r.numEntries.val = (n : F) ∧ EntriesAt buf (k + L) n e ∧ r.regionEnd.eval = (e : F)

section Swap

variable [LargeChar F] {bits : List (Boolean F)} {buf native : List UInt8}
  {shape : CredentialShape} {landmarks : Landmarks}

/-- Two anchor offsets with different first bytes publish different packs. -/
theorem getD_eq_of_maskedPacks {packs : List (AllocatedNum F F)} {o o' L : ℕ} (hL : 1 ≤ L)
    (h : MaskedPacks buf o L packs) (h' : MaskedPacks buf o' L packs) :
    buf.getD o 0 = buf.getD o' 0 := by
  have heq := packBytes_inj (F := F) (by simp) (h.symm.trans h')
  have hfirst : ∀ i, (maskBytes L (windowAt buf i anchorTextWindow)).getD 0 0 = buf.getD i 0 := by
    intro i
    rw [getD_maskBytes, if_pos (by omega), getD_windowAt buf i (by decide), Nat.add_zero]
  rw [← hfirst o, ← hfirst o', heq]
variable [ToRepr F]

/-- A run can be repeated with the namespace bytes of any other anchor offset. -/
theorem exists_run_of_namespace (hb : Boolean.ReadsAll bits (bytesBits buf))
    (hlen : native.length = buf.length) (hbuf : buf.length < 2 ^ 64)
    {r : RegionBinding F F} (hr : (bindDigestRegion bits native shape landmarks).Runs [] r) :
    ∃ t k L, t + (valueDigestsOpenKey.length + 1) ≤ k ∧
      windowAt buf t valueDigestsOpenKey.length = valueDigestsOpenKey ∧
      k + maxAnchorWindow ≤ buf.length ∧ 1 ≤ L ∧ L ≤ anchorTextWindow ∧
      r.namespacePrefixLen.val = (L : F) ∧ r.regionStart.eval = ((k + L : ℕ) : F) ∧
      ∀ o, o + maxAnchorWindow ≤ buf.length →
        ∃ packs pref, MaskedPacks buf o L packs ∧ pref.val = (L : F) ∧
          (bindDigestRegion bits native shape landmarks).Runs []
            { r with nameSpace := packs, namespacePrefixLen := pref } := by
  obtain ⟨⟨r, trace⟩, hrun, rfl⟩ := Circuit.runs_map.mp hr
  unfold bindRegion at hrun
  obtain ⟨opening, hopen, ⟨⟨t, htlen, htw, hteval⟩, k, hklen, hkeval⟩, hrun⟩ :=
    hrun.bind_elim (ensures_openTable hb hlen hbuf)
  obtain ⟨ns, hns, ⟨⟨hreal, hpre⟩, o₀, L, ho₀, hL1, hL40, hmask⟩, hrun⟩ :=
    hrun.bind_elim (ensures_maskedTextAnchor hb hlen hbuf)
  have hstart : (opening.nsWindow.offset + ns.prefixLen.lc).eval = ((k + L : ℕ) : F) := by
    rw [LC.eval_add, hkeval, AllocatedNum.eval_lc, hmask.prefix_eq]
    push_cast
    rfl
  obtain ⟨closing, hclose, ⟨htk, -⟩, hrun⟩ := hrun.bind_elim (ensures_closeTable hb hlen hbuf hteval
    hkeval hstart (by omega) (by omega) (by simp only [anchorTextWindow] at hL40; omega))
  obtain ⟨doc, hdoc, -, hrun⟩ := hrun.bind_elim (ensures_bindDocType hb hlen hbuf)
  obtain ⟨-, heq⟩ := Circuit.runs_pure.mp hrun
  obtain ⟨rfl, rfl⟩ := Prod.mk.inj heq
  refine ⟨t, k, L, htk, htw, hklen, hL1, hL40, hmask.prefix_eq, hstart, fun o ho => ?_⟩
  obtain ⟨ns', hns', hmask'⟩ := admits_maskedTextAnchor hb hlen hreal hpre ho ⟨hL1, hL40⟩
  have hsame : ns'.prefixLen.lc = ns.prefixLen.lc := by
    simp only [AllocatedNum.lc]
    rw [show ns'.prefixLen.var = ns.prefixLen.var from hmask'.prefix_eq.trans hmask.prefix_eq.symm]
  refine ⟨ns'.packs, ns'.prefixLen, hmask'.packs_eq, hmask'.prefix_eq, ?_⟩
  -- only the region's start reads the prefix, and as the same number
  rw [← hsame] at hclose
  have hrun' : (bindRegion bits native shape landmarks).Runs [] _ :=
    hopen.bind_intro (hns'.bind_intro (hclose.bind_intro (hdoc.bind_intro
      (Circuit.runs_pure.mpr ⟨rfl, rfl⟩))))
  exact Circuit.runs_map.mpr ⟨_, hrun', by rw [hsame]⟩

/-- No run is its own namespace's region for every choice of the prover: the binding has the
property only where it accepts nothing. -/
theorem ownSubMap_iff_unsatisfiable (hb : Boolean.ReadsAll bits (bytesBits buf))
    (hlen : native.length = buf.length) (hbuf : buf.length < 2 ^ 64) :
    (∀ r, (bindDigestRegion bits native shape landmarks).Runs [] r → OwnSubMap buf r) ↔
      ¬∃ r, (bindDigestRegion bits native shape landmarks).Runs [] r := by
  refine ⟨fun hall ⟨r, hr⟩ => ?_, fun hno r hr => absurd ⟨r, hr⟩ hno⟩
  obtain ⟨t, k, L, htk, htw, hklen, hL1, hL40, -, hstart, hswap⟩ :=
    exists_run_of_namespace hb hlen hbuf hr
  simp only [maxAnchorWindow, valueDigestsOpenKey, anchorTextWindow, List.length_cons,
    List.length_nil] at hklen htk hL40
  -- the region's own offset is `k`, whatever is published
  have hkey : ∀ o, o + maxAnchorWindow ≤ buf.length → buf.getD k 0 = buf.getD o 0 := by
    intro o ho
    obtain ⟨packs, pref, hpacks, hpref, hr'⟩ := hswap o ho
    obtain ⟨k', L', n, e, hle, hL', hpacks', hstart', -⟩ := hall _ hr'
    obtain rfl : L = L' := LargeChar.natCast_inj (F := F) (by omega) (by omega) (hpref.symm.trans hL')
    have hkk : k + L = k' + L :=
      LargeChar.natCast_inj (F := F) (by omega) (by omega) (hstart.symm.trans hstart')
    obtain rfl : k = k' := by omega
    exact getD_eq_of_maskedPacks hL1 hpacks' hpacks
  -- but the `valueDigests` key begins with two different bytes
  have hbyte : ∀ i < 13, buf.getD (t + i) 0 = valueDigestsOpenKey.getD i 0 := by
    intro i hi
    rw [← getD_windowAt buf t hi]
    exact congrArg (fun w => w.getD i 0) htw
  have h0 := (hkey t (by simp only [maxAnchorWindow]; omega)).trans (hbyte 0 (by decide))
  have h1 := (hkey (t + 1) (by simp only [maxAnchorWindow]; omega)).trans (hbyte 1 (by decide))
  rw [h0] at h1
  exact absurd h1 (by decide)

end Swap

/-! ## Honest landmarks -/

/-- The landmarks point at the parts of a credential of the given shape, whose requested namespace
ends at `e`. -/
structure WellPlaced (buf : List UInt8) (shape : CredentialShape) (landmarks : Landmarks)
    (nsOpen docText : List UInt8) (e : ℕ) : Prop where
  entries : 1 ≤ shape.numEntries ∧ shape.numEntries ≤ maxNamespaceEntries
  nsOpen_eq : (tstrHeader shape.nameSpace.length).map
    (· ++ shape.nameSpace ++ mapHeader shape.numEntries) = .ok nsOpen
  nsOpen_len : 1 ≤ nsOpen.length ∧ nsOpen.length ≤ anchorTextWindow
  docText_eq : (tstrHeader shape.docType.length).map (docTypeKey ++ · ++ shape.docType) = .ok docText
  docText_len : 1 ≤ docText.length ∧ docText.length ≤ anchorTextWindow
  valueDigests : landmarks.valueDigestsKey + maxAnchorWindow ≤ buf.length ∧
    windowAt buf landmarks.valueDigestsKey valueDigestsOpenKey.length = valueDigestsOpenKey
  nameSpace : landmarks.namespaceKey + maxAnchorWindow ≤ buf.length ∧
    (buf.take (landmarks.namespaceKey + nsOpen.length)).drop landmarks.namespaceKey = nsOpen
  inTable : landmarks.valueDigestsKey + 14 ≤ landmarks.namespaceKey ∧
    landmarks.namespaceKey < landmarks.valueDigestsKey + 14 + 2 ^ 16
  regionStart_eq : landmarks.regionStart = landmarks.namespaceKey + nsOpen.length
  region : EntriesAt buf landmarks.regionStart shape.numEntries e
  deviceKey : e ≤ landmarks.deviceKeyInfo ∧ landmarks.deviceKeyInfo < e + 2 ^ 16 ∧
    landmarks.deviceKeyInfo + deviceKeyYDelta + maxAnchorWindow ≤ buf.length ∧
    windowAt buf landmarks.deviceKeyInfo deviceKeyInfo.length = deviceKeyInfo
  docType : landmarks.docTypeKey + maxAnchorWindow ≤ buf.length ∧
    (buf.take (landmarks.docTypeKey + docText.length)).drop landmarks.docTypeKey = docText

section Honest

variable [LargeChar F] [ToRepr F] {bits : List (Boolean F)} {buf nsOpen docText : List UInt8}
  {shape : CredentialShape} {landmarks : Landmarks} {e : ℕ}

theorem windowEnd_eq {offset len nativeLen : ℕ} (h : offset + len ≤ nativeLen) :
    windowEnd offset len nativeLen = .ok (offset + len) := if_pos h

omit [LargeChar F] [ToRepr F] in
theorem WellPlaced.admits_openTable (h : WellPlaced buf shape landmarks nsOpen docText e)
    (hb : Boolean.ReadsAll bits (bytesBits buf)) :
    (openTable bits buf shape landmarks).Admits fun opening =>
      opening.table.offset.eval = (landmarks.valueDigestsKey : F) ∧
        opening.nsWindow.offset.eval = (landmarks.namespaceKey : F) ∧
        opening.nsOpenLen = nsOpen.length := by
  unfold openTable
  have hn := h.entries.2
  have hlen := h.nsOpen_len.2
  have hns := h.nameSpace.1
  simp only [maxNamespaceEntries, maxAnchorWindow, anchorTextWindow] at hn hlen hns
  obtain ⟨nsHeader, hheader, hopen⟩ : ∃ nsHeader, tstrHeader shape.nameSpace.length = .ok nsHeader ∧
      nsHeader ++ shape.nameSpace ++ mapHeader shape.numEntries = nsOpen := by
    have heq := h.nsOpen_eq
    cases hheader : tstrHeader shape.nameSpace.length with
    | error => simp [hheader, Except.map] at heq
    | ok nsHeader => exact ⟨nsHeader, rfl, by simpa [hheader, Except.map] using heq⟩
  refine (admits_rejectUnless (by omega)).bind fun _ _ => ?_
  refine (admits_selectAnchor hb rfl h.valueDigests.1 h.valueDigests.1 h.valueDigests.2
    (by decide)).bind fun table htable => ?_
  refine (Circuit.admits_lift hheader).bind fun _ heq => ?_
  subst heq
  simp only [hopen]
  refine (admits_rejectUnless (by simp only [anchorTextWindow]; omega)).bind fun _ _ => ?_
  refine (Circuit.admits_lift (windowEnd_eq (by simp only [anchorTextWindow]; omega))).bind
    fun _ _ => ?_
  refine (Circuit.admits_lift (windowEnd_eq (by omega))).bind fun nsEnd hend => ?_
  subst hend
  refine (admits_rejectUnless h.nameSpace.2).bind fun _ _ => ?_
  have hmem := mem_anchorOffsets.mpr h.nameSpace.1
  refine (admits_selectWindow hb rfl hmem hmem).bind fun nsWindow hwin => ?_
  exact Circuit.admits_pure.mpr ⟨htable.offset_eq, hwin.offset_eq, rfl⟩

theorem WellPlaced.admits_closeTable (h : WellPlaced buf shape landmarks nsOpen docText e)
    (hb : Boolean.ReadsAll bits (bytesBits buf)) {table nsOffset regionStart : LC F F}
    (ht : table.eval = (landmarks.valueDigestsKey : F))
    (hk : nsOffset.eval = (landmarks.namespaceKey : F))
    (hs : regionStart.eval = (landmarks.regionStart : F)) :
    (closeTable bits buf shape landmarks table nsOffset regionStart).Admits fun c =>
      c.numEntries.val = (shape.numEntries : F) ∧ c.walk.here.eval = (e : F) := by
  unfold closeTable
  have hopen : valueDigestsOpenKey.length + 1 = 14 := rfl
  have hin := h.inTable
  obtain ⟨hed, hde, hdlen, hdw⟩ := h.deviceKey
  have hdelta : deviceKeyXDelta ≤ deviceKeyYDelta := by decide
  have hentries := h.region
  have hpos := h.entries.1
  have hele := hentries.le
  have hstart : landmarks.regionStart < landmarks.deviceKeyInfo := by omega
  have hnative := hentries.nativeRegionEnd
  refine (admits_rejectUnless (by omega)).bind fun _ _ => ?_
  have hge : (nsOffset : LC F F).eval = (table + .const ((valueDigestsOpenKey.length + 1 : ℕ) : F)).eval +
      ((landmarks.namespaceKey - (landmarks.valueDigestsKey + 14) : ℕ) : F) := by
    rw [hk, LC.eval_add, ht, LC.eval_const, hopen, ← Nat.cast_add, ← Nat.cast_add]
    congr 1
    omega
  refine Circuit.Admits.bind (P := fun _ => True)
    ⟨(), runs_enforceGe.mpr ⟨rfl, _, by omega, hge⟩, trivial⟩ fun _ _ => ?_
  refine (admits_selectAnchor hb rfl (by omega) (by omega) hdw (by decide)).bind
    fun endWindow hend => ?_
  refine (admits_rejectUnless (by omega)).bind fun _ _ => ?_
  refine (admits_walkEntries hb ?_ h.entries.1 h.entries.2 hentries hs).bind fun w hw => ?_
  · simp only [maxAnchorWindow] at hdlen
    simp only [entryHeadWindow]
    omega
  obtain ⟨walk, numEntries⟩ := w
  refine (Circuit.admits_lift hnative).bind fun walkedNative hwalked => ?_
  rw [hwalked]
  refine (admits_rejectUnless (by omega)).bind fun _ _ => ?_
  have hge' : endWindow.offset.eval = walk.here.eval + ((landmarks.deviceKeyInfo - e : ℕ) : F) := by
    rw [hend.offset_eq, hw.2, ← Nat.cast_add]
    congr 1
    omega
  refine Circuit.Admits.bind (P := fun _ => True)
    ⟨(), runs_enforceGe.mpr ⟨rfl, _, by omega, hge'⟩, trivial⟩ fun _ _ => ?_
  refine (admits_deviceCoord hb rfl hend.offset_eq (by omega) (by omega)).bind fun x _ => ?_
  refine (admits_deviceCoord hb rfl hend.offset_eq (by omega) (by omega)).bind fun y _ => ?_
  exact Circuit.admits_pure.mpr hw

theorem WellPlaced.admits_bindDocType (h : WellPlaced buf shape landmarks nsOpen docText e)
    (hb : Boolean.ReadsAll bits (bytesBits buf)) :
    (bindDocType bits buf shape landmarks).Admits fun _ => True := by
  unfold bindDocType
  have hlen := h.docText_len.2
  have hdoc := h.docType.1
  simp only [maxAnchorWindow, anchorTextWindow] at hlen hdoc
  obtain ⟨docHeader, hheader, htext⟩ : ∃ docHeader, tstrHeader shape.docType.length = .ok docHeader ∧
      docTypeKey ++ docHeader ++ shape.docType = docText := by
    have heq := h.docText_eq
    cases hheader : tstrHeader shape.docType.length with
    | error => simp [hheader, Except.map] at heq
    | ok docHeader => exact ⟨docHeader, rfl, by simpa [hheader, Except.map] using heq⟩
  refine (Circuit.admits_lift hheader).bind fun _ heq => ?_
  subst heq
  simp only [htext]
  refine (admits_rejectUnless (by simp only [anchorTextWindow]; omega)).bind fun _ _ => ?_
  refine (Circuit.admits_lift (windowEnd_eq (by simp only [anchorTextWindow]; omega))).bind
    fun _ _ => ?_
  refine (Circuit.admits_lift (windowEnd_eq (by omega))).bind fun docEnd hend => ?_
  subst hend
  refine (admits_rejectUnless h.docType.2).bind fun _ _ => ?_
  exact (admits_maskedTextAnchor hb rfl h.docType.1 h.docText_len h.docType.1 h.docText_len).mono
    fun _ _ => trivial

/-- The binding accepts honest landmarks, with the namespace bytes of any anchor offset published. -/
theorem WellPlaced.admits_bindDigestRegion (h : WellPlaced buf shape landmarks nsOpen docText e)
    (hb : Boolean.ReadsAll bits (bytesBits buf)) {o : ℕ} (ho : o + maxAnchorWindow ≤ buf.length) :
    (bindDigestRegion bits buf shape landmarks).Admits fun r =>
      MaskedPacks buf o nsOpen.length r.nameSpace ∧
        r.namespacePrefixLen.val = (nsOpen.length : F) ∧
        r.regionStart.eval = (landmarks.regionStart : F) ∧
        r.numEntries.val = (shape.numEntries : F) ∧ r.regionEnd.eval = (e : F) := by
  unfold bindDigestRegion bindRegion
  refine Circuit.Admits.map ?_
  refine (h.admits_openTable hb).bind fun opening ⟨htable, hns, hopen⟩ => ?_
  rw [hopen]
  refine (admits_maskedTextAnchor hb rfl h.nameSpace.1 h.nsOpen_len ho h.nsOpen_len).bind
    fun ns hmask => ?_
  have hstart : (opening.nsWindow.offset + ns.prefixLen.lc).eval = (landmarks.regionStart : F) := by
    rw [LC.eval_add, hns, AllocatedNum.eval_lc, hmask.prefix_eq, h.regionStart_eq]
    push_cast
    rfl
  refine (h.admits_closeTable hb htable hns hstart).bind fun closing hclose => ?_
  refine (h.admits_bindDocType hb).bind fun doc _ => Circuit.admits_pure.mpr ?_
  exact ⟨hmask.packs_eq, hmask.prefix_eq, hstart, hclose.1, hclose.2⟩

end Honest

/-- Two namespaces, `a` at offset 14 and `b` at offset 52, with one digest each. -/
def twoNamespaces : List UInt8 :=
  valueDigestsOpenKey ++ [0xa2] ++
    [0x61, 0x61, 0xa1, 0x00, 0x58, 0x20] ++ List.replicate 32 0xaa ++
    [0x61, 0x62, 0xa1, 0x01, 0x58, 0x20] ++ List.replicate 32 0xbb ++
    deviceKeyInfo ++ List.replicate 32 0 ++ [0x22, 0x58, 0x20] ++ List.replicate 32 0 ++
    docTypeKey ++ [0x61, 0x64] ++ List.replicate 48 0

def shapeOfB : CredentialShape := { nameSpace := [0x62], docType := [0x64], numEntries := 1 }

def landmarksOfB : Landmarks :=
  { valueDigestsKey := 0, namespaceKey := 52, regionStart := 55, deviceKeyInfo := 90,
    docTypeKey := 90 + deviceKeyYDelta + 32, validityInfo := 0 }

theorem wellPlaced_twoNamespaces : WellPlaced twoNamespaces shapeOfB landmarksOfB
    [0x61, 0x62, 0xa1] (docTypeKey ++ [0x61, 0x64]) 90 where
  entries := by decide
  nsOpen_eq := by decide
  nsOpen_len := by decide
  docText_eq := by decide
  docText_len := by decide
  valueDigests := by decide +kernel
  nameSpace := by decide +kernel
  inTable := by decide
  regionStart_eq := by decide
  region := .snoc (w := 1) .nil ⟨by decide +kernel, none, by decide, by unfold HeadOk; decide +kernel⟩
  deviceKey := by decide +kernel
  docType := by decide +kernel

def constantBits (buf : List UInt8) : List (Boolean F) := (bytesBits buf).map .constant

theorem readsAll_constantBits (buf : List UInt8) :
    Boolean.ReadsAll (constantBits buf : List (Boolean F)) (bytesBits buf) := by
  rw [Boolean.readsAll_iff]
  simp [constantBits, Boolean.eval, Function.comp_def]

theorem length_twoNamespaces : twoNamespaces.length = 248 := by decide +kernel

theorem admits_twoNamespaces :
    (bindDigestRegion (constantBits twoNamespaces : List (Boolean Scalar)) twoNamespaces shapeOfB
      landmarksOfB).Admits fun r =>
        MaskedPacks twoNamespaces 14 3 r.nameSpace ∧ r.namespacePrefixLen.val = ((3 : ℕ) : Scalar) ∧
          r.regionStart.eval = ((55 : ℕ) : Scalar) ∧ r.numEntries.val = ((1 : ℕ) : Scalar) ∧
          r.regionEnd.eval = ((90 : ℕ) : Scalar) :=
  wellPlaced_twoNamespaces.admits_bindDigestRegion (readsAll_constantBits twoNamespaces)
    (by rw [length_twoNamespaces]; decide)

/-- The region of `b` is accepted with the name `a` published. -/
theorem region_of_b_published_as_a :
    (bindDigestRegion (constantBits twoNamespaces : List (Boolean Scalar)) twoNamespaces shapeOfB
      landmarksOfB).Admits fun r =>
        MaskedPacks twoNamespaces 14 3 r.nameSpace ∧ r.regionStart.eval = ((55 : ℕ) : Scalar) ∧
          r.regionEnd.eval = ((90 : ℕ) : Scalar) ∧ ¬OwnSubMap twoNamespaces r := by
  have hlen := length_twoNamespaces
  apply admits_twoNamespaces.mono
  rintro r ⟨hpacks, hpref, hstart, -, hend⟩
  refine ⟨hpacks, hstart, hend, ?_⟩
  rintro ⟨k, L, n, e, hle, hL, hpacks', hstart', -⟩
  have hL3 : 3 = L := LargeChar.natCast_inj (F := Scalar) (by decide) (by omega) (hpref.symm.trans hL)
  subst hL3
  have hk : 55 = k + 3 :=
    LargeChar.natCast_inj (F := Scalar) (by decide) (by omega) (hstart.symm.trans hstart')
  obtain rfl : k = 52 := by omega
  -- the two packs differ in the name's only letter
  have heq := packBytes_inj (F := Scalar) (by simp) (hpacks.symm.trans hpacks')
  exact absurd heq (by decide +kernel)

/-- Some assignment satisfies the constraints on these bytes, so not every one shows its own
namespace's region. -/
theorem ownSubMap_fails_twoNamespaces :
    ¬∀ r : RegionBinding Scalar Scalar, (bindDigestRegion (constantBits twoNamespaces) twoNamespaces
      shapeOfB landmarksOfB).Runs [] r → OwnSubMap twoNamespaces r := by
  have hlen := length_twoNamespaces
  rw [ownSubMap_iff_unsatisfiable (readsAll_constantBits twoNamespaces) rfl (by rw [hlen]; decide)]
  exact not_not.mpr admits_twoNamespaces.exists_runs

end ZkCredVega
