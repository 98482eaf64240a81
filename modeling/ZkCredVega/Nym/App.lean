import ZkCredVega.Nym.CoreExact

/-!
# The application around the proof system

`verify` accepts the bytes of a proof for a statement: it decodes them, asks the proof system which public values the
proof is valid for, checks the positions that the step instances report, and reads the pseudonym off the core's
values. The proof system is a parameter. It is sound, with an extractor, when the values extracted from a proof that
verifies satisfy the circuits its keys were built from, the blank ones, over one shared segment.
-/

namespace ZkCredVega.Nym

open Circuits

/-! ## Verification -/

/-- The proof system under its keys, and the encoding of its proofs. -/
structure ProofSystem (E P : Type) where
  verify : P → ℕ → Except E (List (List Scalar) × List Scalar)
  deserialize : List UInt8 → Except E P
  serializedSize : P → Except E ℕ

/-- Why the verifier rejects a proof. -/
inductive Rejection (E : Type) where
  | invalid (e : E)
  | position (step : ℕ) (reported : List Scalar)
  | publicValues (reported : List Scalar)

inductive VerifyError (E : Type) where
  | input (e : InputError)
  | proofLength (n : ℕ)
  | decoding (e : E)
  | trailingBytes
  | proofInvalid (e : E)
  | otherPosition (step : ℕ)
  | otherValues

def VerifyError.ofRejection {E : Type} : Rejection E → VerifyError E
  | .invalid e => .proofInvalid e
  | .position step _ => .otherPosition step
  | .publicValues _ => .otherValues

def maxProof : ℕ := 512 * 1024

section Verify

variable {E P : Type}

/-- Step instance `j` reports position `j` and nothing else. -/
def checkPositions : List (List Scalar) → ℕ → Except (Rejection E) Unit
  | [], _ => .ok ()
  | reported :: rest, step =>
    if reported = [(step : Scalar)] then checkPositions rest (step + 1) else .error (.position step reported)

def verified (sys : ProofSystem E P) (proof : P) : Except (Rejection E) (List Scalar) := do
  let reported ← (sys.verify proof positions).mapError .invalid
  checkPositions reported.1 0
  pure reported.2

def accept (sys : ProofSystem E P) (proof : P) (expected : List Scalar) : Except (Rejection E) (List UInt8) := do
  let core ← verified sys proof
  match acceptPseudonym core expected with
  | some nym => pure nym
  | none => throw (.publicValues core)

def Statement.verify (sys : ProofSystem E P) (circuit : ApprovedCircuit) (s : Statement) (proof : List UInt8) :
    Except (VerifyError E) (List UInt8) := do
  let named ← (publicOf s circuit).mapError .input
  if maxProof < proof.length then .error (.proofLength proof.length) else do
    let decoded ← (sys.deserialize proof).mapError .decoding
    -- the decoder reads a prefix: only a proof that is its own encoding is accepted
    if (sys.serializedSize decoded).toOption ≠ some proof.length then .error .trailingBytes else
      (accept sys decoded (named.1.values ++ NymPublic.verifierValues named.2)).mapError .ofRejection

/-! ## What was accepted -/

theorem mapError_eq_ok {ε δ α : Type} {x : Except ε α} {a : α} {f : ε → δ} : x.mapError f = .ok a ↔ x = .ok a := by
  cases x <;> simp [Except.mapError]

theorem checkPositions_eq_ok {steps : List (List Scalar)} {i : ℕ} :
    (checkPositions steps i : Except (Rejection E) Unit) = .ok () ↔
      steps = (List.range' i steps.length).map fun j : ℕ => [(j : Scalar)] := by
  induction steps generalizing i with
  | nil => simp [checkPositions]
  | cons reported rest ih =>
    rw [checkPositions, List.length_cons, List.range'_succ, List.map_cons, List.cons.injEq, ← ih]
    split <;> simp_all

variable {sys : ProofSystem E P} {circuit : ApprovedCircuit} {s : Statement} {proof nym : List UInt8}

end Verify

/-! ## What an accepted proof shows -/

section Shared

/-- The cells whose variables are the values of a shared segment. -/
def cellsOf (shared : List Scalar) (h : shared.length = cellsPerPosition * positions + 2) : Cells Scalar Scalar :=
  ⟨shared.map fun v => ⟨v, none⟩, (List.length_map _).trans h⟩

variable {ins us vs shared : List Scalar}

theorem traces_allocs {α : Type} {l : List α} {nums : List (AllocatedNum Scalar Scalar)}
    (h : (l.mapM fun _ => (AllocatedNum.alloc (assigned none) : Circuit Scalar Scalar _)).Traces ins vs nums) :
    ins = [] ∧ vs.length = l.length ∧ nums = vs.map fun v => ⟨v, none⟩ := by
  induction l generalizing ins vs nums with
  | nil =>
    obtain ⟨rfl, rfl, rfl⟩ := h
    exact ⟨rfl, rfl, rfl⟩
  | cons a l ih =>
    rw [List.mapM_cons] at h
    obtain ⟨_, _, _, _, num, rfl, rfl, ⟨v, _, rfl, rfl, rfl, rfl⟩, h⟩ := Circuit.traces_bind.mp h
    obtain ⟨_, _, _, _, nums, rfl, rfl, hnums, rfl, rfl, rfl⟩ := Circuit.traces_bind.mp h
    obtain ⟨rfl, hlen, rfl⟩ := ih hnums
    refine ⟨rfl, ?_, ?_⟩
    · simpa using hlen
    · simp
      rfl

theorem traces_sharedCells {cells : Cells Scalar Scalar} (h : (sharedCells none).Traces ins us cells) :
    ins = [] ∧ ∃ hlen, cells = cellsOf us hlen := by
  obtain ⟨_, _, _, _, nums, rfl, rfl, hnums, h⟩ := Circuit.traces_bind.mp h
  obtain ⟨rfl, -, rfl⟩ := traces_allocs hnums
  split at h
  · rename_i hcount
    obtain ⟨rfl, rfl, rfl⟩ := h
    simp only [List.append_nil, true_and]
    exact ⟨(List.length_map _).symm.trans hcount, rfl⟩
  · exact h.elim

/-- A circuit over the shared segment runs over the cells of the segment's values. -/
theorem traces_cellsOf {f : Cells Scalar Scalar → Circuit Scalar Scalar Unit}
    (hlen : shared.length = cellsPerPosition * positions + 2) (h : (sharedCells none >>= f).Traces ins (shared ++ vs) ()) :
    (f (cellsOf shared hlen)).Traces ins vs () := by
  obtain ⟨_, _, us, ws, cells, rfl, hvalues, hcells, h⟩ := Circuit.traces_bind.mp h
  obtain ⟨rfl, hlen', rfl⟩ := traces_sharedCells hcells
  obtain ⟨rfl, rfl⟩ := List.append_inj hvalues (hlen.trans hlen'.symm)
  exact h

end Shared

section Sound

variable {E P : Type} {gadget : CompressionGadget Scalar} {constants : Constants Scalar} {steps : List (List Scalar)}
  {core shared vs : List Scalar}

/-- Values of the blank circuits' variables that satisfy every rule and publish what a proof reports. The shared
segment is every instance's, and `vs` are the core's own. -/
structure Satisfied (gadget : CompressionGadget Scalar) (constants : Constants Scalar) (steps : List (List Scalar))
    (core shared vs : List Scalar) : Prop where
  length_shared : shared.length = cellsPerPosition * positions + 2
  length_steps : steps.length = positions
  step : ∀ reported ∈ steps, ∃ vs, (stepCircuit gadget.compress fullMdoc none 0).Traces reported (shared ++ vs) ()
  core : (coreCircuit constants .blank none).Traces core (shared ++ vs) ()

/-- The shared segment and the core's own values that are extracted from a proof that verifies satisfy the circuits with
its public values. -/
def ProofSystem.Sound (sys : ProofSystem E P) (extract : P → List Scalar × List Scalar)
    (gadget : CompressionGadget Scalar) (constants : Constants Scalar) : Prop :=
  ∀ proof steps core, sys.verify proof positions = .ok (steps, core) →
    Satisfied gadget constants steps core (extract proof).1 (extract proof).2

theorem Satisfied.stepsHold (h : Satisfied gadget constants steps core shared vs)
    (hsteps : steps = (List.range' 0 steps.length).map fun j : ℕ => [(j : Scalar)]) :
    (cellsOf shared h.length_shared).StepsHold gadget fullMdoc := by
  intro j hj
  have hmem : [(j : Scalar)] ∈ steps := by
    rw [hsteps, h.length_steps]
    exact List.mem_map.mpr ⟨j, List.mem_range'_1.mpr ⟨Nat.zero_le _, by rwa [Nat.zero_add]⟩, rfl⟩
  obtain ⟨vs, hvs⟩ := h.step _ hmem
  exact ⟨0, Circuit.runs_iff_exists_traces.mpr ⟨_, traces_cellsOf h.length_shared hvs⟩⟩

variable {sys : ProofSystem E P} {extract : P → List Scalar × List Scalar} {circuit : ApprovedCircuit} {s : Statement} {proof nym : List UInt8}
  {A : p256.Point} {B : ℕ → p256.Point}

end Sound

/-! ## What a holder can prove -/

/-- Step instance `j` reports position `j`. -/
def positionValues : List (List Scalar) := (List.range' 0 positions).map fun j : ℕ => [(j : Scalar)]

theorem length_positionValues : positionValues.length = positions := by
  rw [positionValues, List.length_map, List.length_range']

section Complete

variable {E P : Type} {gadget : CompressionGadget Scalar} {constants : Constants Scalar}

/-- The prover of satisfied circuits gets a proof that verifies for their public values and that a verifier reads. -/
def ProofSystem.Complete (sys : ProofSystem E P) (gadget : CompressionGadget Scalar) (constants : Constants Scalar) :
    Prop :=
  ∀ core shared vs, Satisfied gadget constants positionValues core shared vs →
    ∃ proof bytes, sys.verify proof positions = .ok (positionValues, core) ∧ sys.deserialize bytes = .ok proof ∧
      sys.serializedSize proof = .ok bytes.length ∧ bytes.length ≤ maxProof

variable {sys : ProofSystem E P} {s : Statement} {circuit : ApprovedCircuit} {pub : Public}

theorem accept_eq {proof : P} {core expected : List Scalar} {nym : List UInt8}
    (hverify : sys.verify proof positions = .ok (positionValues, core)) (h : acceptPseudonym core expected = some nym) :
    accept sys proof expected = .ok nym := by
  have hpositions : (checkPositions positionValues 0 : Except (Rejection E) Unit) = .ok () :=
    checkPositions_eq_ok.mpr (by rw [length_positionValues, positionValues])
  have hverified : verified sys proof = .ok core :=
    bind_eq_ok_iff.mpr ⟨_, mapError_eq_ok.mpr hverify, bind_eq_ok_iff.mpr ⟨(), hpositions, rfl⟩⟩
  refine bind_eq_ok_iff.mpr ⟨core, hverified, ?_⟩
  rw [h]
  rfl

/-- Satisfied circuits have a proof that `verify` accepts. -/
theorem ProofSystem.Complete.exists_proof (hcomplete : sys.Complete gadget constants) (nym : NymPublic)
    (hpub : publicOf s circuit = .ok (pub, nym.verifierInput)) {shared vs : List Scalar}
    (hvalues : Satisfied gadget constants positionValues (pub.values ++ nym.values) shared vs) :
    ∃ proof, s.verify sys circuit proof = .ok nym.pseudonym.val := by
  obtain ⟨decoded, proof, hverify, hdecoded, hsize, hlen⟩ := hcomplete _ shared vs hvalues
  have haccept := accept_eq hverify (acceptPseudonym_values pub nym)
  refine ⟨proof, bind_eq_ok_iff.mpr ⟨_, mapError_eq_ok.mpr hpub, ?_⟩⟩
  rw [if_neg (Nat.not_lt.mpr hlen)]
  refine bind_eq_ok_iff.mpr ⟨_, mapError_eq_ok.mpr hdecoded, ?_⟩
  rw [if_neg (by rw [hsize]; simp [Except.toOption])]
  exact mapError_eq_ok.mpr haccept

end Complete

section Credential

variable {E P : Type} {sys : ProofSystem E P} {gadget : CompressionGadget Scalar} {constants : Constants Scalar}
  {A Q D : p256.Point} {B : ℕ → p256.Point} {s : Statement} {circuit : ApprovedCircuit} {pub : Public}
  {sigStructure item : List UInt8} {m : Mdoc.NymMessages} {issuer device : Signature} {w : Mdoc.MdocWitness}
  {l : Mdoc.Located}

theorem given_coreOf (device : Signature) (hpub : Accepted s pub m.verifierInput)
    (hw : Mdoc.MdocWitness.full sigStructure item m pub.issuerKey issuer = .ok w) : (Mdoc.coreOf pub device m w).Given := by
  obtain ⟨l, table, -, -, rfl⟩ := Mdoc.MdocWitness.full_ok hw
  refine ⟨?_, ?_⟩
  · rintro _ ⟨⟩ h
    cases h
  · rintro _ ⟨⟩
    exact hpub.windows

variable (hc : constants.Hold A B) (hpub : publicOf s circuit = .ok (pub, m.verifierInput))
  (hw : Mdoc.MdocWitness.full sigStructure item m pub.issuerKey issuer = .ok w) (hl : l.Found sigStructure item m)
  (hends : ∀ span ∈ l.spans sigStructure item m, span.Ends)
  (hQ : At (fromBe pub.issuerKey.x.val, fromBe pub.issuerKey.y.val) Q)
  (hD : At (fromBe (Mdoc.deviceXOf sigStructure l.deviceKey), fromBe (Mdoc.deviceYOf sigStructure l.deviceKey)) D)

include hc hpub hw hl hends hQ hD

/-- The values of the witness satisfy the blank circuits over one shared segment. -/
theorem exists_satisfied (hregular : Regular gadget.compress)
    (hissuer : issuer.Fits A B Q (bytesNat (Sha256.hash sigStructure))) (hstated : l.Says sigStructure item m pub)
    (hdevice : device.Fits A B D (bytesNat pub.challenge.val)) :
    ∃ shared vs, Satisfied gadget constants positionValues (pub.values ++ (Mdoc.nymPublic m).values) shared vs := by
  have hgiven := given_coreOf device (publicOf_eq_ok hpub) hw
  obtain ⟨l', table, hl', htable, rfl⟩ := Mdoc.MdocWitness.full_ok hw
  obtain rfl := hl.unique hl'
  obtain ⟨cells, hcells, hcarries⟩ := Mdoc.succeeds_sharedCells table
  have htabled : Mdoc.Tabled l sigStructure item m table cells := ⟨hl, htable, hends, hcarries⟩
  -- one run of the shared segment serves every instance
  obtain ⟨shared, -, hshared⟩ := Circuit.Honest.record hcells
  obtain ⟨_, hblank, -⟩ := (same_sharedCells (some table) none).traces hshared
  obtain ⟨-, hlen, -⟩ := traces_sharedCells hblank
  have hrules := (htabled.honest_rules (u := ()) hc (publicOf_eq_ok hpub) hQ hD device).mpr
    ⟨rfl, hissuer, hstated, hdevice⟩
  obtain ⟨vs, -, hvs⟩ := hrules.record
  refine ⟨shared, vs, hlen, length_positionValues, ?_, ?_⟩
  · intro reported hmem
    obtain ⟨j, hrange, rfl⟩ := List.mem_map.mp hmem
    have hj : j < positions := by simpa using (List.mem_range'_1.mp hrange).2
    obtain ⟨vs, -, hvs⟩ := (htabled.honest_step gadget hj).record
    have htraces : (stepCircuit gadget.compress fullMdoc (some table) j).Traces [(j : Scalar)] (shared ++ vs) () :=
      Circuit.traces_bind.mpr ⟨[], _, shared, vs, cells, rfl, rfl, hshared, hvs⟩
    obtain ⟨_, hblank, -⟩ := (step_same_blank hregular fullMdoc (some table) j).traces htraces
    exact ⟨vs, hblank⟩
  · have htraces := Circuit.traces_bind.mpr ⟨[], _, shared, vs, cells, rfl, rfl, hshared, hvs⟩
    obtain ⟨_, hblank, -⟩ := (core_same_blank constants hgiven (some table)).traces htraces
    exact hblank

/-- The check that stands before the prover lets a witness pass exactly when both signatures fit and the credential
says what is asked. -/
theorem firstBroken_coreOf :
    (coreCircuit constants (Mdoc.coreOf pub device m w) (some w.table)).firstBroken = .ok none ↔
      issuer.Fits A B Q (bytesNat (Sha256.hash sigStructure)) ∧ l.Says sigStructure item m pub ∧
        device.Fits A B D (bytesNat pub.challenge.val) := by
  obtain ⟨l', table, hl', htable, rfl⟩ := Mdoc.MdocWitness.full_ok hw
  obtain rfl := hl.unique hl'
  refine Circuit.firstBrokenFrom_eq_none.trans ⟨?_, ?_⟩
  · rintro ⟨ins, u, h⟩
    exact ((Mdoc.honest_coreCircuit hl htable hends hc (publicOf_eq_ok hpub) hQ hD device).mp h).2
  · intro h
    exact ⟨_, (), (Mdoc.honest_coreCircuit hl htable hends hc (publicOf_eq_ok hpub) hQ hD device).mpr ⟨rfl, h⟩⟩

/-- The values of a witness for a credential that says what is asked, whose two signatures fit, satisfy the blank
circuits, and so its holder can make `verify` return the pseudonym of the credential's seed. -/
theorem Statement.verify_complete (hcomplete : sys.Complete gadget constants) (hregular : Regular gadget.compress)
    (hissuer : issuer.Fits A B Q (bytesNat (Sha256.hash sigStructure))) (hstated : l.Says sigStructure item m pub)
    (hdevice : device.Fits A B D (bytesNat pub.challenge.val)) :
    (∃ shared vs, Satisfied gadget constants positionValues (pub.values ++ (Mdoc.nymPublic m).values) shared vs) ∧
      ∃ proof, s.verify sys circuit proof = .ok (pseudonym m.secretSeed m.verifierInput) := by
  obtain ⟨shared, vs, hvalues⟩ := exists_satisfied hc hpub hw hl hends hQ hD hregular hissuer hstated hdevice
  exact ⟨⟨shared, vs, hvalues⟩, hcomplete.exists_proof (Mdoc.nymPublic m) hpub hvalues⟩

end Credential

/-! ## A proof system that hides nothing -/

section Transparent

variable (gadget : CompressionGadget Scalar) (constants : Constants Scalar)

open Classical in
/-- A proof is the core's public values; to verify it is to look for values of the other variables. -/
noncomputable def transparent : ProofSystem Unit (List Scalar) where
  verify core _ :=
    if ∃ shared vs, Satisfied gadget constants positionValues core shared vs then .ok (positionValues, core) else .error ()
  deserialize bytes := .ok ((chunks 32 bytes).map fun c => (bytesNat c : Scalar))
  serializedSize core := .ok (32 * core.length)

variable {gadget constants}

theorem Satisfied.length_core {steps : List (List Scalar)} {core shared vs : List Scalar}
    (h : Satisfied gadget constants steps core shared vs) : core.length = 18 :=
  ((costs_coreCircuit constants Mdoc.NymCore.given_blank none).traces h.core).1

theorem natCast_bytesNat_beBytes (v : Scalar) : ((bytesNat (beBytes 32 (ToRepr.toNat v)) : ℕ) : Scalar) = v := by
  have hlt : ToRepr.toNat v < 256 ^ 32 :=
    (ZMod.val_lt (n := fieldModulus) v).trans (by decide)
  rw [bytesNat_beBytes, Nat.mod_eq_of_lt hlt]
  exact ZMod.natCast_zmod_val (n := fieldModulus) v

theorem transparent_complete : (transparent gadget constants).Complete gadget constants := by
  intro core shared vs h
  let chunk : Scalar → List UInt8 := fun v => beBytes 32 (ToRepr.toNat v)
  have hchunks : ∀ c ∈ core.map chunk, c.length = 32 := by
    intro c hc
    obtain ⟨v, -, rfl⟩ := List.mem_map.mp hc
    exact length_beBytes _ _
  have hlen : (core.map chunk).flatten.length = 32 * core.length := by
    rw [List.length_flatten, List.map_congr_left hchunks, List.map_const', List.sum_replicate, List.length_map,
      smul_eq_mul, Nat.mul_comm]
  refine ⟨core, (core.map chunk).flatten, if_pos ⟨shared, vs, h⟩, ?_, ?_, ?_⟩
  · show Except.ok _ = _
    rw [chunks_flatten (by decide) hchunks, List.map_map]
    exact congrArg _ (List.map_id'' natCast_bytesNat_beBytes core)
  · exact congrArg _ hlen.symm
  · rw [hlen, h.length_core]
    decide

end Transparent

/-- The gadget that reads the worth of its inputs reads the same off the same variables. -/
theorem regular_readingGadget : Regular (readingGadget : CompressionGadget Scalar).compress := by
  have heval : ∀ {a b : Boolean Scalar}, a.Alike b → a.eval = b.eval := by
    intro a b h
    cases a <;> cases b <;> simp_all [Boolean.Alike, Boolean.eval]
  have hread : ∀ {xs ys : List (Boolean Scalar)}, Boolean.AllAlike xs ys → readBytes xs = readBytes ys := by
    intro xs ys h
    unfold readBytes
    congr 1
    induction h with
    | nil => rfl
    | cons h _ ih => rw [List.map_cons, List.map_cons, ih, heval h]
  intro block block' state state' hblock hstate
  show Circuit.Same _ (pure _) (pure _)
  rw [hread hblock, hread hstate]
  exact Circuit.same_pure (List.forall₂_same.mpr fun b _ => by cases b <;> rfl)

/-! ## One holder's proof -/

theorem Statement.verify_complete_adult : ∃ (constants : Constants Scalar) (proof : List UInt8),
    adultStatement.verify (transparent readingGadget constants) nymauthMdocV1 proof = .ok (pseudonym sevens nines) := by
  obtain ⟨constants, hc⟩ := exists_constants
  obtain ⟨pub, w, h⟩ := Mdoc.exists_adult
  exact ⟨constants, (Statement.verify_complete (m := Mdoc.adultMessages) hc h.named h.built Mdoc.found_adult h.ends
    h.issuerKey h.deviceKey transparent_complete regular_readingGadget h.issuer h.stated h.device).2⟩

theorem firstBroken_coreOf_adult : ∃ (constants : Constants Scalar) (pub : Public) (w : Mdoc.MdocWitness),
    (coreCircuit constants (Mdoc.coreOf pub Mdoc.adultDevice Mdoc.adultMessages w) (some w.table)).firstBroken =
      .ok none := by
  obtain ⟨constants, hc⟩ := exists_constants
  obtain ⟨pub, w, h⟩ := Mdoc.exists_adult
  exact ⟨constants, pub, w, (firstBroken_coreOf hc h.named h.built Mdoc.found_adult h.ends h.issuerKey
    h.deviceKey).mpr ⟨h.issuer, h.stated, h.device⟩⟩

end ZkCredVega.Nym
