import ZkCredVega.Claims.Frontends

/-!
# What an accepted presentation reports

`verify_and_check_binding` reads vectors that a proof supplies. No vector makes it panic: every
slice is taken after the lengths are checked. A slot that passes is well formed, except that the
length an undisclosed slot publishes is reported as it is.
-/

namespace ZkCredVega

open Circuits MdocResult

/-- The shape that a claim is reported in: `to_c_claim` copies the plaintext on the strength of it. -/
structure DisclosedClaim.WellFormed (c : DisclosedClaim) : Prop where
  length_plaintext : c.plaintext.length = c.realLen
  realLen_le : c.realLen ≤ maxClaimBytesV1
  digest_of_disclosed : c.disclosed = true → c.digest.val = Sha256.hash c.plaintext
  masked : c.disclosed = false → c.realLen = 0 ∧ c.plaintext = [] ∧ c.digest.val = List.replicate 32 0

section Outcome

variable {F : Type} [Field F] [DecidableEq F]

/-! ## No panic -/

theorem length_bitsToBytes (bits : List F) : (bitsToBytes bits).length = (bits.length + 7) / 8 := by
  rw [bitsToBytes, List.length_map, length_chunks]
  rfl

/-- A reader takes the next `k` values, if they are there, and gives a result of which `P` holds. -/
def Takes {F α : Type} (k : ℕ) (reader : StateT (List F) MdocResult α) (P : α → Prop) : Prop :=
  ∀ rest : List F, k ≤ rest.length → ∃ a, reader rest = .ok (a, rest.drop k) ∧ P a

omit [Field F] [DecidableEq F] in
theorem Takes.bind {α β : Type} {k m : ℕ} {x : StateT (List F) MdocResult α} {f : α → StateT (List F) MdocResult β}
    {P : α → Prop} {Q : β → Prop} (hx : Takes k x P) (hf : ∀ a, P a → Takes m (f a) Q) :
    Takes (k + m) (x >>= f) Q := by
  intro rest h
  obtain ⟨a, ha, hP⟩ := hx rest (by omega)
  obtain ⟨b, hb, hQ⟩ := hf a hP (rest.drop k) (by rw [List.length_drop]; omega)
  exact ⟨b, by rw [bind_of_ok ha, hb, List.drop_drop], hQ⟩

omit [Field F] [DecidableEq F] in
theorem Takes.pure {α : Type} {a : α} {P : α → Prop} (h : P a) :
    Takes 0 (pure a : StateT (List F) MdocResult α) P :=
  fun _ _ => ⟨a, rfl, h⟩

theorem takes_takeArray (n : ℕ) : Takes (n * 8) (takeArray n : StateT (List F) MdocResult _) fun _ => True := by
  intro rest h
  have hlen : (bitsToBytes (rest.take (n * 8))).length = n := by
    rw [length_bitsToBytes, List.length_take, Nat.min_eq_left h]
    omega
  refine ⟨⟨_, hlen⟩, ?_, trivial⟩
  have htake : take (n * 8) rest = .ok (rest.take (n * 8), rest.drop (n * 8)) := if_pos h
  have harray : toArray n (bitsToBytes (rest.take (n * 8))) = .ok ⟨_, hlen⟩ := dif_pos hlen
  rw [takeArray, bind_of_ok htake]
  show (toArray n (bitsToBytes (rest.take (n * 8))) >>= fun a => .ok (a, rest.drop (n * 8))) = _
  rw [harray]
  rfl

theorem takes_takeU32 : Takes (4 * 8) (takeU32 : StateT (List F) MdocResult _) fun _ => True :=
  (takes_takeArray 4).bind fun _ _ => .pure trivial

omit [Field F] [DecidableEq F] in
theorem Takes.mapM {α : Type} {reader : StateT (List F) MdocResult α} {k : ℕ}
    (hreader : Takes k reader fun _ => True) (is : List ℕ) :
    Takes (k * is.length) (is.mapM fun _ => reader) (·.length = is.length) := by
  induction is with
  | nil => exact .pure rfl
  | cons i is ih =>
    rw [List.mapM_cons, List.length_cons, Nat.mul_succ, Nat.add_comm]
    refine hreader.bind fun a _ => ih.bind fun as has => .pure ?_
    rw [List.length_cons, has]

theorem takes_takeCore : Takes (coreLen - 2) (takeCore : StateT (List F) MdocResult _) fun core =>
    core.digestIds.length = maxClaimsV1 ∧ core.blindedDigests.length = maxClaimsV1 := by
  rw [show coreLen - 2 = blindNonceBytes * 8 + (32 * 8 + (32 * 8 + (timestampLen * 8 + (timestampLen * 8 +
    (timestampLen * 8 + (4 * 8 * (List.range maxClaimsV1).length + (32 * 8 * (List.range maxClaimsV1).length + 0))))))) by
      decide]
  refine (takes_takeArray _).bind fun _ _ => (takes_takeArray _).bind fun _ _ => ?_
  refine (takes_takeArray _).bind fun _ _ => (takes_takeArray _).bind fun _ _ => ?_
  refine (takes_takeArray _).bind fun _ _ => (takes_takeArray _).bind fun _ _ => ?_
  refine (takes_takeU32.mapM _).bind fun ids hids => ((takes_takeArray 32).mapM _).bind fun digests hdigests => ?_
  exact .pure ⟨by rw [hids, List.length_range], by rw [hdigests, List.length_range]⟩

theorem onlyRejects_index {α : Type} {xs : List α} {i : ℕ} (h : i < xs.length) : OnlyRejects (index xs i) := by
  rw [index_eq (List.getElem?_eq_getElem h)]
  exact onlyRejects_ok _

theorem onlyRejects_tryArray (n : ℕ) (bs : List UInt8) : OnlyRejects (tryArray n bs) := by
  unfold tryArray
  split
  · exact onlyRejects_ok _
  · exact onlyRejects_unsatisfiable

theorem onlyRejects_ensure_bind {β : Type} {p : Prop} [Decidable p] {f : Unit → MdocResult β}
    (hf : p → OnlyRejects (f ())) : OnlyRejects (ensure p >>= f) := by
  by_cases hp : p
  · rw [ensure_true hp]
    exact hf hp
  · rw [ensure_false hp]
    exact onlyRejects_unsatisfiable

theorem onlyRejects_decodeStep (v : List F) : OnlyRejects (decodeStep v) := by
  refine onlyRejects_ensure_bind fun hlen => onlyRejects_ensure_bind fun _ => ?_
  refine (onlyRejects_tryArray _ _).bind fun _ => ?_
  have hbyte : 0 < (bitsToBytes ((v.drop 257).take realLenBits)).length := by
    rw [length_bitsToBytes, List.length_take, List.length_drop, hlen]
    decide
  refine (onlyRejects_index hbyte).bind fun _ => onlyRejects_ensure.bind fun _ => ?_
  exact (onlyRejects_tryArray _ _).bind fun _ => onlyRejects_ok _

theorem onlyRejects_checkAnySlot {core : CoreValues} {supplied : List (Option (List UInt8))} (v : List F) {i : ℕ}
    (hsupplied : i < supplied.length) (hdigests : i < core.blindedDigests.length) (hids : i < core.digestIds.length) :
    OnlyRejects (checkSlot core supplied v i) := by
  refine (onlyRejects_decodeStep v).bind fun step => (onlyRejects_index hsupplied).bind fun o => ?_
  refine (onlyRejects_bindSupplied _ _ _).bind fun t => (onlyRejects_index hdigests).bind fun _ => ?_
  refine onlyRejects_ensure.bind fun _ => (onlyRejects_index hids).bind fun _ => ?_
  exact onlyRejects_ensure.bind fun _ => onlyRejects_ok _

theorem onlyRejects_mapM {α β : Type} {f : α → MdocResult β} {xs : List α} (hf : ∀ x ∈ xs, OnlyRejects (f x)) :
    OnlyRejects (xs.mapM f) := by
  induction xs with
  | nil => exact onlyRejects_ok []
  | cons x xs ih =>
    rw [List.mapM_cons]
    refine (hf x List.mem_cons_self).bind fun _ => ?_
    exact (ih fun y hy => hf y (List.mem_cons_of_mem _ hy)).bind fun _ => onlyRejects_ok _

theorem onlyRejects_verifyAndCheckBinding (step : List (List F)) (core : List F)
    (supplied : List (Option (List UInt8))) : OnlyRejects (verifyAndCheckBinding step core supplied) := by
  refine onlyRejects_ensure_bind fun hsupplied => onlyRejects_ensure_bind fun hcore => ?_
  refine onlyRejects_ensure.bind fun _ => ?_
  refine (onlyRejects_index (by rw [hcore]; decide)).bind fun _ => ?_
  refine (onlyRejects_index (by rw [hcore]; decide)).bind fun _ => ?_
  obtain ⟨values, hvalues, hids, hdigests⟩ := takes_takeCore (core.drop 2) (by rw [List.length_drop, hcore])
  rw [show takeCore.run' (core.drop 2) = .ok values by rw [StateT.run', hvalues]; rfl]
  refine onlyRejects_ensure_bind fun hstep => OnlyRejects.bind ?_ fun _ => onlyRejects_ok _
  apply onlyRejects_mapM
  intro t ht
  have hi : t.2 < maxClaimsV1 := by
    have hlt := List.snd_lt_of_mem_zipIdx ht
    omega
  exact onlyRejects_checkAnySlot t.1 (by omega) (by omega) (by omega)

/-! ## The length that is published -/

theorem exists_bools {xs : List F} (h : allBoolean xs = true) : ∃ bs : List Bool, xs = bs.map bitValue := by
  induction xs with
  | nil => exact ⟨[], rfl⟩
  | cons x xs ih =>
    rw [allBoolean, List.all_cons, Bool.and_eq_true] at h
    obtain ⟨bs, rfl⟩ := ih h.2
    rcases (by simpa using h.1 : x = 1 ∨ x = 0) with rfl | rfl
    · exact ⟨true :: bs, rfl⟩
    · exact ⟨false :: bs, rfl⟩

theorem bitsToBytes_eight {bits : List F} (h : allBoolean bits = true) (hlen : bits.length = 8) :
    ∃ b, bitsToBytes bits = [b] ∧ (b = 0 ↔ ∀ x ∈ bits, x = 0) := by
  obtain ⟨bs, rfl⟩ := exists_bools h
  rw [List.length_map] at hlen
  obtain ⟨raw, hraw, rfl⟩ := exists_bytesBits (n := 1) hlen
  obtain ⟨b, rfl⟩ := List.length_eq_one_iff.mp hraw
  refine ⟨b, bitsToBytes_nativeBytesToBits [b], ?_⟩
  constructor
  · rintro rfl x hx
    obtain ⟨y, hy, rfl⟩ := List.mem_map.mp hx
    have hfalse : ∀ y ∈ bytesBits [0], y = false := by decide
    rw [hfalse y hy]
    rfl
  · intro hall
    have hfalse : bytesBits [b] = bytesBits [0] := by
      rw [show bytesBits [0] = List.replicate 8 false by decide]
      refine List.eq_replicate_iff.mpr ⟨hlen, fun y hy => ?_⟩
      have hzero := hall (bitValue y) (List.mem_map_of_mem hy)
      cases y with
      | false => rfl
      | true => exact absurd hzero one_ne_zero
    exact (List.cons.inj (bytesBits_inj hfalse)).1

/-- A step vector says that its slot is disclosed, or that its length is zero. -/
def PublishesMasked (v : List F) : Prop := v.getD 256 0 = 1 ∨ ∀ x ∈ (v.drop 257).take realLenBits, x = 0

theorem decodeStep_masked_iff {v : List F} {step : StepValues} (h : decodeStep v = .ok step) :
    (step.disclosed = false → step.realLen = 0) ↔ PublishesMasked v := by
  obtain ⟨hdisclosed, -, b, hindex, hrealLen⟩ := decodeStep_ok h
  obtain ⟨hlen, h⟩ := ensure_bind_eq_ok.mp h
  obtain ⟨hboolean, -⟩ := ensure_bind_eq_ok.mp h
  have hbits : allBoolean ((v.drop 257).take realLenBits) = true := by
    rw [allBoolean, List.all_eq_true] at hboolean ⊢
    exact fun x hx => hboolean x (List.mem_of_mem_drop (List.mem_of_mem_take hx))
  have height : ((v.drop 257).take realLenBits).length = 8 := by
    rw [List.length_take, List.length_drop, hlen]
    decide
  obtain ⟨b', hb', hzero⟩ := bitsToBytes_eight hbits height
  rw [hb'] at hindex
  obtain rfl : b' = b := Except.ok.inj hindex
  rw [PublishesMasked, ← hzero, hrealLen, hdisclosed, decide_eq_false_iff_not, or_iff_not_imp_left]
  constructor
  · exact fun hmask hflag => UInt8.toNat_inj.mp (hmask hflag)
  · exact fun hmask hflag => by rw [hmask hflag]; rfl

/-! ## The outcome -/

theorem bindSupplied_digest {nonce : Bytes blindNonceBytes} {step : StepValues} {o : Option (List UInt8)}
    {t : Bytes 32 × List UInt8} (h : bindSupplied nonce step o = .ok t) :
    (step.disclosed = true → t.1.val = Sha256.hash t.2) ∧
      (step.disclosed = false → t.1.val = List.replicate 32 0) := by
  cases o with
  | none =>
    by_cases hd : step.disclosed
    · rw [bindSupplied, if_pos hd] at h
      cases h
    · rw [bindSupplied, if_neg hd] at h
      obtain rfl := Except.ok.inj h
      exact ⟨fun htrue => absurd htrue hd, fun _ => rfl⟩
  | some bytes =>
    by_cases hd : step.disclosed
    · rw [bindSupplied, if_pos hd] at h
      obtain ⟨-, h⟩ := ensure_bind_eq_ok.mp h
      obtain ⟨-, h⟩ := ensure_bind_eq_ok.mp h
      obtain rfl := Except.ok.inj h
      exact ⟨fun _ => rfl, fun hfalse => absurd hd (by rw [hfalse]; exact Bool.false_ne_true)⟩
    · rw [bindSupplied, if_neg hd] at h
      cases h

/-- A slot that passes reports a well-formed claim if its vector publishes a masked length. -/
theorem checkSlot_wellFormed_iff {core : CoreValues} {supplied : List (Option (List UInt8))} {v : List F} {i : ℕ}
    {c : DisclosedClaim} (h : checkSlot core supplied v i = .ok c) : c.WellFormed ↔ PublishesMasked v := by
  unfold checkSlot at h
  obtain ⟨step, hstep, h⟩ := bind_eq_ok_iff.mp h
  obtain ⟨o, -, h⟩ := bind_eq_ok_iff.mp h
  obtain ⟨t, ht, h⟩ := bind_eq_ok_iff.mp h
  obtain ⟨coreDigest, -, h⟩ := bind_eq_ok_iff.mp h
  obtain ⟨-, h⟩ := ensure_bind_eq_ok.mp h
  obtain ⟨coreId, -, h⟩ := bind_eq_ok_iff.mp h
  obtain ⟨-, h⟩ := ensure_bind_eq_ok.mp h
  obtain rfl := Except.ok.inj h
  obtain ⟨-, hle, -⟩ := decodeStep_ok hstep
  obtain ⟨-, hopen, hclosed⟩ := bindSupplied_ok ht
  obtain ⟨hdigest, hzeros⟩ := bindSupplied_digest ht
  rw [← decodeStep_masked_iff hstep]
  constructor
  · exact fun hwell hd => (hwell.masked hd).1
  · intro hmask
    refine ⟨?_, hle, hdigest, fun hd => ⟨hmask hd, hclosed hd, hzeros hd⟩⟩
    show t.2.length = step.realLen
    cases hd : step.disclosed with
    | true => exact hopen hd
    | false => rw [hclosed hd, hmask hd, List.length_nil]

/-- The checker never panics, and what it reports is well formed exactly when every undisclosed
slot's vector publishes the length zero: the vectors are the prover's, and this is not checked. -/
theorem verifyAndCheckBinding_outcome (step : List (List F)) (core : List F) (supplied : List (Option (List UInt8))) :
    OnlyRejects (verifyAndCheckBinding step core supplied) ∧
      ∀ p, verifyAndCheckBinding step core supplied = .ok p →
        (p.claims.length = maxClaimsV1 ∧ (∀ c ∈ p.claims, c.WellFormed) ↔ ∀ v ∈ step, PublishesMasked v) := by
  refine ⟨onlyRejects_verifyAndCheckBinding step core supplied, fun p hp => ?_⟩
  obtain ⟨-, hstep, values, hclaims⟩ := verifyAndCheckBinding_ok hp
  have hcount : p.claims.length = maxClaimsV1 := by rw [← hclaims.length_eq, List.length_zipIdx, hstep]
  constructor
  · rintro ⟨-, hwell⟩ v hv
    obtain ⟨i, hi, rfl⟩ := List.getElem_of_mem hv
    have hmem : (step[i], i) ∈ step.zipIdx := List.mem_zipIdx_iff_getElem?.mpr (List.getElem?_eq_getElem hi)
    obtain ⟨c, hc, hcheck⟩ := forall₂_left hclaims hmem
    exact (checkSlot_wellFormed_iff hcheck).mp (hwell c hc)
  · intro hmask
    refine ⟨hcount, fun c hc => ?_⟩
    obtain ⟨t, ht, hcheck⟩ := forall₂_left hclaims.flip hc
    exact (checkSlot_wellFormed_iff hcheck).mpr (hmask t.1 (List.fst_mem_of_mem_zipIdx ht))

end Outcome

/-! ## An undisclosed slot with a length -/

/-- The vector of an undisclosed slot that publishes the length five. -/
def lengthFiveStep : List Scalar :=
  List.replicate 257 0 ++ ((bitsOf 5).map bitValue ++ List.replicate 32 0)

/-- The claim that is reported for it: no plaintext, and five bytes of it. -/
def lengthFiveClaim : DisclosedClaim := ⟨false, zeroBytes 32, 5, [], 0⟩

/-- What is accepted beside a core vector of zeros. -/
theorem check_lengthFive : ((verifyAndCheckBinding (List.replicate maxClaimsV1 lengthFiveStep) (List.replicate coreLen 0)
    (List.replicate maxClaimsV1 none)).toOption.map (·.claims)) = some (List.replicate maxClaimsV1 lengthFiveClaim) := by
  decide +kernel

theorem lengthFive_reported : ∃ p, verifyAndCheckBinding (List.replicate maxClaimsV1 lengthFiveStep)
    (List.replicate coreLen 0) (List.replicate maxClaimsV1 none) = .ok p ∧
      ∃ c ∈ p.claims, c.disclosed = false ∧ c.realLen = 5 ∧ c.plaintext = [] ∧ ¬c.WellFormed := by
  have hcheck := check_lengthFive
  cases hp : verifyAndCheckBinding (List.replicate maxClaimsV1 lengthFiveStep) (List.replicate coreLen 0)
      (List.replicate maxClaimsV1 none) with
  | error e =>
    rw [hp] at hcheck
    cases hcheck
  | ok p =>
    rw [hp] at hcheck
    have hclaims : p.claims = List.replicate maxClaimsV1 lengthFiveClaim := Option.some.inj hcheck
    refine ⟨p, rfl, lengthFiveClaim, ?_, rfl, rfl, rfl, fun hwell => ?_⟩
    · rw [hclaims]
      exact List.mem_replicate.mpr ⟨by decide, rfl⟩
    · exact absurd hwell.length_plaintext (by decide)

theorem publishesMasked_publicValues (s : ClaimDigestStepCircuit) : PublishesMasked (s.publicValues : List Scalar) := by
  refine (decodeStep_masked_iff (decodeStep_publicValues s)).mp fun hdisclosed => ?_
  have hflag : ¬s.disclose = true := Bool.eq_false_iff.mp hdisclosed
  show s.lenByte.toNat = 0
  rw [ClaimDigestStepCircuit.lenByte, if_neg hflag]
  rfl

/-- A disclosed name beside a hidden one: what the honest values report is well formed. -/
theorem verifyAndCheckBinding_outcome_presented : ∃ (steps : List ClaimDigestStepCircuit)
    (p : VerifiedPresentation Scalar), verifyAndCheckBinding (steps.map fun s => s.publicValues)
      (coreFor (presentedClaims true) presentedEcdsa presentedBody presentedNonce).publicValues (presentedSlots true) =
        .ok p ∧
      (∃ c ∈ p.claims, c.disclosed = true ∧ c.plaintext = familyName) ∧ ∀ c ∈ p.claims, c.WellFormed := by
  obtain ⟨steps, hfor, -⟩ := circuitsFor_eq (presentedClaims_length_le true) (presentedClaims_bytes_le true)
    presentedEcdsa presentedBody presentedNonce
  have hown : verifyAndCheckBinding (steps.map fun s => (s.publicValues : List Scalar))
      (coreFor (presentedClaims true) presentedEcdsa presentedBody presentedNonce).publicValues (presentedSlots true) =
        .ok _ := verifyAndCheckBinding_own (presentedClaims_length_le true) hfor
  have hwell := (verifyAndCheckBinding_outcome _ _ _).2 _ hown
  refine ⟨steps, _, hown, ⟨ClaimWitness.outcome ⟨familyName, true, 300⟩, ?_, rfl, rfl⟩, (hwell.mpr ?_).2⟩
  · exact List.mem_map_of_mem (List.mem_cons_of_mem _ List.mem_cons_self)
  · intro v hv
    obtain ⟨s, -, rfl⟩ := List.mem_map.mp hv
    exact publishesMasked_publicValues s

end ZkCredVega
