import ZkCredVega.MdocAge.PublicValues
import ZkCredVega.Nym.Gadgets

/-!
# The presentation's public values

`request.rs`, `presentation.rs` and the public values of `pseudonym.rs`: the values the
verifier names, and the rules of the rest segment that allocate them as public inputs.
-/

namespace ZkCredVega.Nym

open Circuits

section Values

variable {F : Type} [Field F]

/-- The field element of a big-endian integer, reduced modulo the field prime. -/
def fromBe (bytes : List UInt8) : F := (bytesNat bytes : F)

/-! ## The request -/

inductive Align where
  | left
  | right
deriving DecidableEq

/-- A window of fixed length that holds one pattern. -/
structure Window where
  len : ℕ
  thermometer : ℕ
  align : Align
  nonempty : Bool
deriving DecidableEq

def limb : ℕ := 31

namespace Window

/-- The number of bytes that every pattern covers. -/
def fixed (w : Window) : ℕ := w.len - w.thermometer

/-- The window position of thermometer bit `k`. -/
def position (w : Window) (k : ℕ) : ℕ :=
  match w.align with
  | .right => w.thermometer - 1 - k
  | .left => w.fixed + k

/-- The number of public values of a pattern: its limbs and its thermometer. -/
def publicCount (w : Window) : ℕ := (w.len + limb - 1) / limb + 1

end Window

def docTypeWindow : Window := ⟨48, 48, .right, false⟩

def identifierWindow : Window := ⟨40, 40, .right, false⟩

def docTypeKey : List UInt8 :=
  [0x67, 0x64, 0x6f, 0x63, 0x54, 0x79, 0x70, 0x65]

def identifierKey : List UInt8 :=
  [0x71, 0x65, 0x6c, 0x65, 0x6d, 0x65, 0x6e, 0x74, 0x49, 0x64, 0x65, 0x6e, 0x74, 0x69, 0x66, 0x69, 0x65, 0x72]

/-- A pattern the verifier names, in its window; it covers the bytes that every pattern covers. -/
structure Pattern where
  window : Window
  bytes : List UInt8
  length_le : bytes.length ≤ window.len
  fixed_le : window.fixed ≤ bytes.length

namespace Pattern

def count (p : Pattern) : ℕ := p.bytes.length - p.window.fixed

/-- The window's bytes: the pattern at its end, and zeros. -/
def aligned (p : Pattern) : List UInt8 :=
  match p.window.align with
  | .left => p.bytes ++ List.replicate (p.window.len - p.bytes.length) 0
  | .right => List.replicate (p.window.len - p.bytes.length) 0 ++ p.bytes

/-- The window's bytes in limbs, and then the thermometer `2 ^ count - 1`. -/
def values (p : Pattern) : List F :=
  (chunks limb p.aligned).map fromBe ++
    [(List.range p.count).foldl (fun (sum : F) _ => sum + sum + 1) 0]

end Pattern

/-- The two patterns of a request: the credential's type and the birth-date attribute's name. -/
structure Request where
  credentialType : Pattern
  attributeName : Pattern

namespace Request

def windows (r : Request) : Window × Window := (r.credentialType.window, r.attributeName.window)

def values (r : Request) : List F := r.credentialType.values ++ r.attributeName.values

end Request

/-! ## The values the verifier names -/

structure Date where
  year : ℕ
  month : ℕ
  day : ℕ
deriving DecidableEq

/-- The date as the number YYYYMMDD. -/
def Date.digits (d : Date) : ℕ := d.year * 10000 + d.month * 100 + d.day

structure Time where
  date : Date
  hour : ℕ
  minute : ℕ
  second : ℕ
deriving DecidableEq

/-- The time as the number YYYYMMDDhhmmss. -/
def Time.digits (t : Time) : ℕ := t.date.digits * 1000000 + t.hour * 10000 + t.minute * 100 + t.second

/-- The big-endian coordinates of a P-256 point. -/
structure PublicKey where
  x : Bytes 32
  y : Bytes 32

/-- The values the verifier names. -/
structure Public where
  issuerKey : PublicKey
  bornFrom : Option Date
  bornBy : Date
  now : Time
  challenge : Bytes 32
  request : Request

def baseValues : ℕ := 7

/-- The values before the request's. -/
def Public.base (p : Public) : List F :=
  [fromBe p.issuerKey.x.val, fromBe p.issuerKey.y.val, ((p.bornFrom.elim 0 Date.digits : ℕ) : F),
    (p.bornBy.digits : F), (p.now.digits : F), fromBe (p.challenge.val.take 16),
    fromBe (p.challenge.val.drop 16)]

def Public.values (p : Public) : List F := p.base ++ p.request.values

/-- The public values and the device key's signature on the challenge. -/
structure Presentation where
  pub : Public
  deviceSignature : Signature

/-- The verifier's values of the pseudonym. -/
structure NymPublic where
  verifierInput : Bytes 32
  pseudonym : Bytes 32

namespace NymPublic

/-- Bytes 0 to 8, 9 to 24 and 25 to 31. -/
def verifierValues (verifierInput : Bytes 32) : List F :=
  [fromBe (verifierInput.val.take 9), fromBe ((verifierInput.val.drop 9).take 16),
    fromBe (verifierInput.val.drop 25)]

def values (n : NymPublic) : List F :=
  verifierValues n.verifierInput ++ [fromBe (n.pseudonym.val.take 16), fromBe (n.pseudonym.val.drop 16)]

end NymPublic

/-- The 32 big-endian bytes of a field element. -/
def toBe [ToRepr F] (x : F) : List UInt8 := reprBytes 32 x

/-- The halves' bytes, when each is below `2 ^ 128`. -/
def pseudonymHalves (high low : List UInt8) : Option (List UInt8) :=
  if (high.take 16 ++ low.take 16).any fun b => b ≠ 0 then none
  else some (high.drop 16 ++ low.drop 16)

/-- The pseudonym from the last two of a core's public values. -/
def pseudonymOf [ToRepr F] (values : List F) : Option (List UInt8) :=
  match values.reverse with
  | low :: high :: _ => pseudonymHalves (toBe high) (toBe low)
  | _ => none

/-- `accept_pseudonym` on the public values of a verified proof. -/
def acceptPseudonym [DecidableEq F] [ToRepr F] (core expected : List F) : Option (List UInt8) :=
  if core.length = expected.length + 2 ∧ core.take expected.length = expected then pseudonymOf core
  else none

end Values

/-! ## The rest segment -/

section Rules

variable {F V : Type} [Field F] [One V]

/-- Public inputs with the given values; without values the prover has none. -/
def allocInputs (values : Option (List F)) (n : ℕ) : Circuit F V (List (Lc F V)) :=
  (List.range n).mapM fun i => do
    let value ← valueAt values i
    let input ← AllocatedNum.allocInput (assigned value)
    pure (Lc.num input)
where
  /-- `values.map(|v| v[i])`. -/
  valueAt (values : Option (List F)) (i : ℕ) : Circuit F V (Option F) :=
    match values with
    | none => pure none
    | some vs =>
      match vs[i]? with
      | some v => pure (some v)
      | none => .fail .panic

/-- The byte of the credential, switched by its thermometer bit if it has one. -/
def comparedByte (t : AllocatedNum F V × Option (Lc F V)) : Circuit F V (Lc F V) :=
  match t.2 with
  | some bit => mul bit (Lc.num t.1)
  | none => pure (Lc.num t.1)

/-- The switches of a window: thermometer bit `k`, most significant bit first, at its position. -/
def switches (window : Window) (thermometer : List (Boolean V)) : List (Option (Lc F V)) :=
  (List.range window.thermometer).foldl
    (fun switch k => switch.set (window.position k)
      (thermometer[window.thermometer - 1 - k]?.map Lc.bit))
    (List.replicate window.len none)

/-- The lowest thermometer bit is set when a pattern may not be empty. -/
def checkNonempty (window : Window) (thermometer : List (Boolean V)) : Circuit F V Unit :=
  if window.nonempty then do
    let bit ← bitOf thermometer (window.thermometer - 1)
    equal (Lc.bit bit) (Lc.constant 1)
  else pure ()

/-- Adds the rules that the credential's bytes in `window` hold the pattern whose values the
verifier names. -/
def checkPattern [ToRepr F] (window : Window) (credential : List (AllocatedNum F V))
    (values : Option (List F)) : Circuit F V Unit := do
  .assert (credential.length = window.len)
  let inputs ← allocInputs values window.publicCount
  let thermometer ← bits (inputs.getLastD 0) window.thermometer
  checkNonempty window thermometer
  let compared ← (credential.zip (switches window thermometer)).mapM comparedByte
  forM ((chunks limb compared).zip inputs.dropLast) fun t => equal (packBytes t.1) t.2

/-- A request for another format has other windows. -/
def rejectWindows (presentation : Option Presentation) (windows : Window × Window) :
    Circuit F V Unit :=
  if presentation.any fun p => p.pub.request.windows ≠ windows then .fail .unsatisfiable
  else pure ()

/-- A rest segment given another number of slots has no witness. -/
def rejectSlots (p : Prop) [Decidable p] : Circuit F V Unit :=
  if p then pure () else .fail .assignmentMissing

/-- The rules of the seven facts and the seven public values. -/
def checkFacts [ToRepr F] (constants : Constants F) (signature : Option Signature)
    (facts : List (Lc F V)) (pub : List (Lc F V)) : Circuit F V Unit :=
  match facts, pub with
  | [issuerX, issuerY, birthDate, validFrom, validUntil, deviceX, deviceY],
    [publicX, publicY, bornFrom, bornBy, now, challengeHigh, challengeLow] => do
    equal issuerX publicX
    equal issuerY publicY
    rangeCheck (birthDate - bornFrom) 27
    rangeCheck (bornBy - birthDate) 27
    rangeCheck (now - validFrom) 47
    rangeCheck (validUntil - now - Lc.constant 1) 47
    let challenge ← digestBits challengeHigh challengeLow
    verify constants challenge ⟨deviceX, deviceY⟩ signature
  | _, _ => .fail .panic

def check [ToRepr F] (constants : Constants F) (facts : List (AllocatedNum F V))
    (presentation : Option Presentation) (windows : Window × Window) : Circuit F V Unit := do
  rejectWindows presentation windows
  let values := presentation.map fun p => p.pub.values
  let pub ← allocInputs values baseValues
  rejectSlots (facts.length = baseValues + windows.1.len + windows.2.len)
  let bytes := facts.drop baseValues
  let requestValues := values.map fun v => v.drop baseValues
  checkPattern windows.1 (bytes.take windows.1.len)
    (requestValues.map fun v => v.take windows.1.publicCount)
  checkPattern windows.2 (bytes.drop windows.1.len)
    (requestValues.map fun v => v.drop windows.1.publicCount)
  checkFacts constants (presentation.map (·.deviceSignature)) ((facts.take baseValues).map Lc.num) pub

def nymValues : ℕ := 5

/-- The weight of a chunk's byte 7, and the padding beside verifier_input's last bytes there. -/
def two72 : F := 2 ^ 72

def lastChunkPadding : F := fromBe (0x80 :: [0, 0, 0, 0, 0, 0, 0x03, 0xb8])

def checkPseudonym (facts : List (AllocatedNum F V)) (nym : Option NymPublic) :
    Circuit F V Unit := do
  let pub ← allocInputs (nym.map NymPublic.values) nymValues
  rejectSlots (facts.length = nymValues)
  let padded := (pub.getD 2 0).scale two72 + Lc.constant lastChunkPadding
  forM (facts.zip (pub.set 2 padded)) fun t => equal (Lc.num t.1) t.2

def windows : Window × Window := (docTypeWindow, identifierWindow)

/-- The core circuit of the full statement: what its rest segment reads. -/
structure MdocNymCore where
  presentation : Option Presentation
  nym : Option NymPublic

namespace MdocNymCore

def publicValues (c : MdocNymCore) : Outcome (List F) := do
  let presentation ← assigned c.presentation
  let nym ← assigned c.nym
  pure (presentation.pub.values ++ nym.values)

/-- The rules of the presentation: the age statement's, then the pseudonym's. -/
def synthesize [ToRepr F] (constants : Constants F) (c : MdocNymCore)
    (facts : List (AllocatedNum F V)) : Circuit F V Unit := do
  let age := baseValues + windows.1.len + windows.2.len
  rejectSlots (facts.length = age + nymValues)
  check constants (facts.take age) c.presentation windows
  checkPseudonym (facts.drop age) c.nym

end MdocNymCore

end Rules

/-! ## What the rest segment publishes -/

section Publish

variable {F : Type} [Field F]

def KnownNum (a : AllocatedNum F F) : Prop := ∃ v, a.value = some v

theorem publishes_allocInputs (vs : List F) (n : ℕ) (hn : n ≤ vs.length) :
    (allocInputs (some vs) n : Circuit F F _).Publishes (vs.take n) fun out =>
      out.length = n ∧ ∀ a ∈ out, a.Known := by
  have hturn : ∀ i ∈ List.range n, (do
      let value ← allocInputs.valueAt (some vs) i
      let input ← AllocatedNum.allocInput (assigned value)
      pure (Lc.num input) : Circuit F F _).Publishes [vs.getD i 0] Lc.Known := by
    intro i hi
    have hi : i < vs.length := by
      have := List.mem_range.mp hi
      omega
    have hvalue : (allocInputs.valueAt (some vs) i : Circuit F F _) = pure (some vs[i]) := by
      simp only [allocInputs.valueAt, List.getElem?_eq_getElem hi]
    have hget : vs.getD i 0 = vs[i] := by simp [hi]
    rw [hvalue, pure_bind, hget]
    exact ⟨⟨.var vs[i], some vs[i]⟩, rfl, vs[i], rfl⟩
  have hmap := Circuit.Publishes.mapM hturn
  have hflat : ((List.range n).flatMap fun i => [vs.getD i 0]) = vs.take n := by
    rw [← List.map_eq_flatMap]
    apply List.ext_getElem
    · simp [hn]
    intro i h1 h2
    have hi : i < vs.length := by
      rw [List.length_take] at h2
      omega
    simp [hi]
  rw [hflat, List.length_range] at hmap
  exact hmap

theorem known_switches {window : Window} {thermometer : List (Boolean F)}
    (h : ∀ b ∈ thermometer, KnownBit b) :
    ∀ o ∈ (switches window thermometer : List (Option (Lc F F))), ∀ l ∈ o, l.Known := by
  have hfold : ∀ (ks : List ℕ) (acc : List (Option (Lc F F))), (∀ o ∈ acc, ∀ l ∈ o, l.Known) →
      ∀ o ∈ ks.foldl (fun switch k => switch.set (window.position k)
        (thermometer[window.thermometer - 1 - k]?.map Lc.bit)) acc, ∀ l ∈ o, l.Known := by
    intro ks
    induction ks with
    | nil =>
      intro acc hacc
      exact hacc
    | cons k ks ih =>
      intro acc hacc
      apply ih
      intro o ho l hl
      rcases List.mem_or_eq_of_mem_set ho with ho | rfl
      · exact hacc o ho l hl
      · obtain ⟨b, hb, rfl⟩ := Option.map_eq_some_iff.mp hl
        exact Lc.known_bit (h b (List.mem_of_getElem? hb))
  apply hfold
  intro o ho l hl
  rw [List.eq_of_mem_replicate ho] at hl
  cases hl

theorem publishes_comparedByte {t : AllocatedNum F F × Option (Lc F F)} (hbyte : KnownNum t.1)
    (hbit : ∀ l ∈ t.2, l.Known) : (comparedByte t).Publishes [] Lc.Known := by
  obtain ⟨v, hv⟩ := hbyte
  unfold comparedByte
  cases h : t.2 with
  | some bit => exact publishes_mul (hbit bit h) (Lc.known_num hv)
  | none => exact Circuit.publishes_pure (Lc.known_num hv)

theorem publishes_checkNonempty {window : Window} {thermometer : List (Boolean F)}
    (hlen : thermometer.length = window.thermometer) (hpos : 0 < window.thermometer)
    (h : ∀ b ∈ thermometer, KnownBit b) :
    (checkNonempty window thermometer : Circuit F F Unit).Publishes [] fun _ => True := by
  unfold checkNonempty
  split
  · refine (publishes_bitOf h (by omega)).bind_nil fun _ _ => ?_
    exact publishes_equal
  · exact Circuit.publishes_pure trivial

theorem publishes_checkPattern [ToRepr F] (window : Window) (credential : List (AllocatedNum F F))
    {vs : List F} (hlen : credential.length = window.len) (hknown : ∀ a ∈ credential, KnownNum a)
    (hvs : vs.length = window.publicCount) (hthermometer : window.thermometer < 256)
    (hpos : 0 < window.thermometer) :
    (checkPattern window credential (some vs)).Publishes vs fun _ => True := by
  refine (Circuit.publishes_assert hlen).bind_nil fun _ _ => ?_
  have hinputs := publishes_allocInputs vs _ hvs.ge
  rw [← hvs, List.take_length] at hinputs
  rw [← hvs]
  refine hinputs.bind_last fun inputs hin => ?_
  have hlast : (inputs.getLastD 0).Known := by
    rcases List.eq_nil_or_concat inputs with rfl | ⟨front, last, rfl⟩
    · exact Lc.known_zero
    · rw [List.concat_eq_append, List.getLastD_concat]
      exact hin.2 last (by simp)
  refine (publishes_bits hlast hthermometer).bind_nil fun thermometer ht => ?_
  refine (publishes_checkNonempty ht.1 hpos ht.2).bind_nil fun _ _ => ?_
  have hcompared : ∀ t ∈ credential.zip (switches window thermometer),
      (comparedByte t).Publishes [] Lc.Known := by
    intro t hmem
    have hzip := List.of_mem_zip hmem
    exact publishes_comparedByte (hknown t.1 hzip.1) (known_switches ht.2 t.2 hzip.2)
  refine (Circuit.Publishes.mapM_nil hcompared).bind_nil fun compared _ => ?_
  exact Circuit.Publishes.forM fun t _ => publishes_equal

theorem publishes_checkFacts [ToRepr F] (constants : Constants F) (signature : Signature)
    {facts pub : List (Lc F F)} (hfacts : facts.length = baseValues) (hpub : pub.length = baseValues)
    (hknownFacts : ∀ a ∈ facts, a.Known) (hknownPub : ∀ a ∈ pub, a.Known) :
    (checkFacts constants (some signature) facts pub).Publishes [] fun _ => True := by
  match facts, hfacts, pub, hpub with
  | [issuerX, issuerY, birthDate, validFrom, validUntil, deviceX, deviceY], _,
    [publicX, publicY, bornFrom, bornBy, now, challengeHigh, challengeLow], _ =>
    simp only [List.mem_cons, forall_eq_or_imp, List.not_mem_nil, IsEmpty.forall_iff, implies_true,
      and_true] at hknownFacts hknownPub
    obtain ⟨-, -, hbirth, hfrom, huntil, hx, hy⟩ := hknownFacts
    obtain ⟨-, -, hbornFrom, hbornBy, hnow, hhigh, hlow⟩ := hknownPub
    refine publishes_equal.bind_nil fun _ _ => ?_
    refine publishes_equal.bind_nil fun _ _ => ?_
    refine (publishes_rangeCheck (hbirth.sub hbornFrom) (by decide)).bind_nil fun _ _ => ?_
    refine (publishes_rangeCheck (hbornBy.sub hbirth) (by decide)).bind_nil fun _ _ => ?_
    refine (publishes_rangeCheck (hnow.sub hfrom) (by decide)).bind_nil fun _ _ => ?_
    have hafter := (huntil.sub hnow).sub (Lc.known_constant 1)
    refine (publishes_rangeCheck hafter (by decide)).bind_nil fun _ _ => ?_
    refine (publishes_digestBits hhigh hlow).bind_nil fun challenge hc => ?_
    exact publishes_verify constants signature hc.1 hc.2 ⟨hx, hy⟩

theorem Pattern.length_aligned (p : Pattern) : p.aligned.length = p.window.len := by
  have h := p.length_le
  unfold Pattern.aligned
  split <;> simp <;> omega

theorem Pattern.length_values (p : Pattern) : (p.values : List F).length = p.window.publicCount := by
  simp [Pattern.values, Pattern.length_aligned, Window.publicCount, limb]

theorem length_base (p : Public) : (p.base : List F).length = baseValues := rfl

omit [Field F] in
theorem publishes_rejectSlots {p : Prop} [Decidable p] (hp : p) :
    (rejectSlots p : Circuit F F Unit).Publishes [] fun _ => True := by
  unfold rejectSlots
  rw [if_pos hp]
  exact Circuit.publishes_pure trivial

theorem publishes_check [ToRepr F] (constants : Constants F) (facts : List (AllocatedNum F F))
    {p : Presentation} (hwindows : p.pub.request.windows = windows)
    (hlen : facts.length = baseValues + windows.1.len + windows.2.len)
    (hknown : ∀ a ∈ facts, KnownNum a) :
    (check constants facts (some p) windows).Publishes p.pub.values fun _ => True := by
  have hcredential : p.pub.request.credentialType.window = docTypeWindow := congrArg Prod.fst hwindows
  have hattribute : p.pub.request.attributeName.window = identifierWindow := congrArg Prod.snd hwindows
  have hfirst : (p.pub.request.credentialType.values : List F).length = windows.1.publicCount := by
    rw [Pattern.length_values, hcredential]
    rfl
  have hsecond : (p.pub.request.attributeName.values : List F).length = windows.2.publicCount := by
    rw [Pattern.length_values, hattribute]
    rfl
  have hreject : (rejectWindows (some p) windows : Circuit F F Unit) = pure () := by
    simp [rejectWindows, hwindows]
  have hbase := publishes_allocInputs (p.pub.values : List F) baseValues
    (by simp [Public.values, length_base])
  have htake : (p.pub.values : List F).take baseValues = p.pub.base := by
    rw [Public.values, List.take_left' (length_base p.pub)]
  have hdrop : (p.pub.values : List F).drop baseValues = p.pub.request.values := by
    rw [Public.values, List.drop_left' (length_base p.pub)]
  rw [htake] at hbase
  unfold check
  rw [hreject, pure_bind]
  simp only [Option.map_some, hdrop]
  show Circuit.Publishes _ (p.pub.base ++ p.pub.request.values) _
  refine hbase.bind fun pub hpub => ?_
  refine (publishes_rejectSlots hlen).bind_nil fun _ _ => ?_
  have hdropped : (facts.drop baseValues).length = windows.1.len + windows.2.len := by
    rw [List.length_drop, hlen]
    omega
  have hbytes : ∀ a ∈ facts.drop baseValues, KnownNum a := fun a ha => hknown a (List.mem_of_mem_drop ha)
  rw [Request.values, List.take_left' hfirst, List.drop_left' hfirst]
  have htype := publishes_checkPattern windows.1 ((facts.drop baseValues).take windows.1.len)
    (by rw [List.length_take, hdropped]; omega)
    (fun a ha => hbytes a (List.mem_of_mem_take ha)) hfirst (by decide) (by decide)
  refine htype.bind fun _ _ => ?_
  have hname := publishes_checkPattern windows.2 ((facts.drop baseValues).drop windows.1.len)
    (by rw [List.length_drop, hdropped]; omega)
    (fun a ha => hbytes a (List.mem_of_mem_drop ha)) hsecond (by decide) (by decide)
  refine hname.bind_last fun _ _ => ?_
  refine publishes_checkFacts constants p.deviceSignature (by simp [hlen]; omega) hpub.1 ?_ hpub.2
  intro a ha
  obtain ⟨n, hn, rfl⟩ := List.mem_map.mp ha
  obtain ⟨v, hv⟩ := hknown n (List.mem_of_mem_take hn)
  exact Lc.known_num hv

theorem publishes_checkPseudonym {facts : List (AllocatedNum F F)} {nym : NymPublic}
    (hlen : facts.length = nymValues) :
    (checkPseudonym facts (some nym)).Publishes nym.values fun _ => True := by
  have hinputs := publishes_allocInputs (nym.values : List F) nymValues le_rfl
  refine hinputs.bind_last fun pub _ => ?_
  refine (publishes_rejectSlots hlen).bind_nil fun _ _ => ?_
  exact Circuit.Publishes.forM fun t _ => publishes_equal

/-- The public variables of the rest segment are the core's public values, in order. -/
theorem publishes_synthesize [ToRepr F] (constants : Constants F) {facts : List (AllocatedNum F F)}
    {p : Presentation} (nym : NymPublic) (hwindows : p.pub.request.windows = windows)
    (hlen : facts.length = baseValues + windows.1.len + windows.2.len + nymValues)
    (hknown : ∀ a ∈ facts, KnownNum a) :
    (MdocNymCore.synthesize constants ⟨some p, some nym⟩ facts).Publishes (p.pub.values ++ nym.values)
      fun _ => True := by
  refine (publishes_rejectSlots hlen).bind_nil fun _ _ => ?_
  have hcheck := publishes_check constants (facts.take _) hwindows
    (by rw [List.length_take, hlen]; exact min_eq_left (by omega))
    (fun a ha => hknown a (List.mem_of_mem_take ha))
  refine hcheck.bind fun _ _ => ?_
  apply publishes_checkPseudonym
  rw [List.length_drop, hlen]
  omega

end Publish

/-! ## What the verifier reads -/

section Accept

variable {F : Type} [Field F] [ToRepr F] [LawfulToRepr F]

theorem bytesNat_replicate_zero (n : ℕ) : bytesNat (List.replicate n 0) = 0 := by
  induction n with
  | zero => rfl
  | succ n ih =>
    rw [List.replicate_succ, ← List.singleton_append, bytesNat_append, ih]
    rfl

/-- A half's bytes are the last 16 of its representation, after zeros. -/
theorem toBe_fromBe {bs : List UInt8} (hbs : bs.length = 16) :
    toBe (fromBe bs : F) = List.replicate 16 0 ++ bs := by
  have hlt := bytesNat_lt bs
  rw [hbs] at hlt
  apply bytesNat_inj
  · rw [toBe, length_reprBytes, List.length_append, List.length_replicate, hbs]
  rw [toBe, bytesNat_reprBytes, fromBe, LawfulToRepr.toNat_natCast (by omega), bytesNat_append,
    bytesNat_replicate_zero, Nat.mul_zero, Nat.zero_add]
  apply Nat.mod_eq_of_lt
  omega

theorem pseudonymOf_values (vs : List F) (nym : NymPublic) :
    pseudonymOf (vs ++ nym.values) = some nym.pseudonym.val := by
  have hlen := nym.pseudonym.property
  have hhigh : (nym.pseudonym.val.take 16).length = 16 := by
    rw [List.length_take, hlen]
    rfl
  have hlow : (nym.pseudonym.val.drop 16).length = 16 := by
    rw [List.length_drop, hlen]
  have hreverse : (vs ++ nym.values).reverse = fromBe (nym.pseudonym.val.drop 16) ::
      fromBe (nym.pseudonym.val.take 16) :: (NymPublic.verifierValues nym.verifierInput).reverse ++
        vs.reverse := by
    simp [NymPublic.values]
  rw [pseudonymOf, hreverse]
  show pseudonymHalves (toBe _) (toBe _) = _
  rw [toBe_fromBe hhigh, toBe_fromBe hlow, pseudonymHalves, if_neg, List.drop_left' (by simp),
    List.drop_left' (by simp), List.take_append_drop]
  simp

/-- The verifier that named the core's values accepts them, with the core's pseudonym. -/
theorem acceptPseudonym_values [DecidableEq F] (pub : Public) (nym : NymPublic) :
    acceptPseudonym (pub.values ++ nym.values : List F)
      (pub.values ++ NymPublic.verifierValues nym.verifierInput) = some nym.pseudonym.val := by
  rw [acceptPseudonym, if_pos, pseudonymOf_values]
  have hassoc : (pub.values ++ nym.values : List F) = (pub.values ++
      NymPublic.verifierValues nym.verifierInput) ++ [fromBe (nym.pseudonym.val.take 16),
        fromBe (nym.pseudonym.val.drop 16)] := by
    rw [NymPublic.values, List.append_assoc]
  rw [hassoc]
  exact ⟨by simp [Nat.add_assoc], List.take_left' rfl⟩

end Accept

end ZkCredVega.Nym
