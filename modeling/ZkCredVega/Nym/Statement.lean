import ZkCredVega.Nym.Presentation
import ZkCredVega.P256

/-!
# The statement the verifier names

`statement.rs`: the checks of a statement and the public values it gives. An accepted
statement is determined by those values, so a proof for them is a proof of this
statement and no other.
-/

namespace ZkCredVega.Nym

open Circuits

/-- Why an input is malformed, with what the message is written from. -/
inductive InputError where
  | length (what : String) (len n : ℕ)
  | date (text : List UInt8)
  | time (text : List UInt8)
  | range (earliest cutoff : Date) (window : ℤ)
  | issuerKey
  | textLength (len : ℕ)
  | patternLong (len window : ℕ)
  | patternShort (len fixed : ℕ)

/-- `fixed`: the bytes as an array of `n`. -/
def fixed (n : ℕ) (bytes : List UInt8) (what : String) : Except InputError (Bytes n) :=
  if h : bytes.length = n then .ok ⟨bytes, h⟩ else .error (.length what bytes.length n)

/-! ## Dates and times -/

def isAsciiDigit (b : UInt8) : Bool := 0x30 ≤ b ∧ b ≤ 0x39

/-- `str::parse::<u32>` of ASCII digits. -/
def parseU32 (s : List UInt8) : Option ℕ :=
  let n := beNat 10 (s.map fun b => b.toNat - 0x30)
  if n < 2 ^ 32 then some n else none

/-- A non-empty run of ASCII digits as a number. -/
def number (s : List UInt8) : Option ℕ :=
  if s.isEmpty ∨ ¬s.all isAsciiDigit then none else parseU32 s

def daysInMonth (year month : ℕ) : ℕ :=
  match month with
  | 1 | 3 | 5 | 7 | 8 | 10 | 12 => 31
  | 4 | 6 | 9 | 11 => 30
  | _ => if year % 4 = 0 ∧ (year % 100 ≠ 0 ∨ year % 400 = 0) then 29 else 28

/-- Days since 1970-01-01 of a calendar date. -/
def days (d : Date) : ℤ :=
  let m : ℤ := d.month
  let y : ℤ := if m ≤ 2 then d.year - 1 else d.year
  let era := y / 400
  let yoe := y - era * 400
  let doy := (153 * (if m > 2 then m - 3 else m + 9) + 2) / 5 + d.day - 1
  let doe := yoe * 365 + yoe / 4 - yoe / 100 + doy
  era * 146097 + doe - 719468

/-- The fields of `YYYY-MM-DD`. -/
def dateFields (b : List UInt8) : Option Date := do
  guard (b.length = 10 ∧ b.all (· < 0x80) ∧ b[4]? = some 0x2d ∧ b[7]? = some 0x2d)
  let year ← number (b.take 4)
  let month ← number ((b.drop 5).take 2)
  let day ← number ((b.drop 8).take 2)
  guard (1 ≤ year ∧ 1 ≤ month ∧ month ≤ 12 ∧ 1 ≤ day ∧ day ≤ daysInMonth year month)
  pure ⟨year, month, day⟩

/-- `YYYY-MM-DD`, a real calendar date with a year from 1 to 9999. -/
def date (b : List UInt8) : Except InputError Date :=
  match dateFields b with
  | some d => .ok d
  | none => .error (.date b)

/-- The hour, minute and second of `YYYY-MM-DDThh:mm:ssZ`. -/
def clockFields (b : List UInt8) : Option (ℕ × ℕ × ℕ) := do
  guard (b.length = 20 ∧ b.all (· < 0x80) ∧ b[10]? = some 0x54 ∧ b[13]? = some 0x3a ∧
    b[16]? = some 0x3a ∧ b[19]? = some 0x5a)
  let hour ← number ((b.drop 11).take 2)
  let minute ← number ((b.drop 14).take 2)
  let second ← number ((b.drop 17).take 2)
  guard (hour < 24 ∧ minute < 60 ∧ second < 60)
  pure (hour, minute, second)

def time (b : List UInt8) : Except InputError Time :=
  match clockFields b with
  | some t => do
    let d ← date (b.take 10)
    pure ⟨d, t.1, t.2.1, t.2.2⟩
  | none => .error (.time b)

/-! ## The age range -/

def noLowerBound : String := "0000-00-00"

def noUpperBound : String := "9999-12-31"

def minWindowDays : ℤ := 365

/-- The earliest birth date, where a bound is given. -/
def bornFrom (earliest : String) : Except InputError (Option Date) :=
  if earliest = noLowerBound then pure none else some <$> date (utf8 earliest)

/-- The rule on the number of days, when both bounds are given. -/
def checkWindow (earliest : Option Date) (cutoff : Date) (bounded : Bool) : Except InputError Unit :=
  match earliest with
  | some e =>
    if bounded ∧ days cutoff - days e + 1 < minWindowDays then
      .error (.range e cutoff (days cutoff - days e + 1))
    else pure ()
  | none => pure ()

def checkRange (earliest cutoff : String) : Except InputError Unit := do
  let e ← bornFrom earliest
  let c ← date (utf8 cutoff)
  checkWindow e c (cutoff ≠ noUpperBound)

/-! ## The issuer key -/

def curveB : ℕ := 0x5ac635d8aa3a93e7b3ebbd55769886bc651d06b0cc53b0f63bce3c3e27d2604b

def OnCurve (x y : ℕ) : Prop :=
  y ^ 2 % fieldModulus = (x ^ 3 + (fieldModulus - 3) * x + curveB) % fieldModulus

instance (x y : ℕ) : Decidable (OnCurve x y) :=
  inferInstanceAs (Decidable (_ = _))

/-- Both coordinates are below the field prime and on the curve; `(0, 0)` is the point at
infinity. -/
def checkIssuerKey (x y : Bytes 32) : Except InputError Unit :=
  if (bytesNat x.val < fieldModulus ∧ bytesNat y.val < fieldModulus) ∧
      ¬((x.val.all fun b => b = 0) ∧ (y.val.all fun b => b = 0)) ∧
      OnCurve (bytesNat x.val) (bytesNat y.val) then
    .ok ()
  else .error .issuerKey

/-! ## The request -/

/-- The head of a CBOR text string of `len` bytes. -/
def textHead (len : ℕ) : Except InputError (List UInt8) :=
  if len < 24 then .ok [0x60 + UInt8.ofNat len]
  else if len < 256 then .ok [0x78, UInt8.ofNat len]
  else .error (.textLength len)

def Pattern.new (window : Window) (bytes : List UInt8) : Except InputError Pattern :=
  if hlong : window.len < bytes.length then .error (.patternLong bytes.length window.len)
  else if hshort : bytes.length < window.fixed then .error (.patternShort bytes.length window.fixed)
  else .ok ⟨window, bytes, by omega, by omega⟩

/-- A key and its text value, in `window`. -/
def Pattern.entry (window : Window) (key : List UInt8) (text : String) : Except InputError Pattern := do
  let head ← textHead (utf8 text).length
  Pattern.new window (key ++ head ++ utf8 text)

def Pattern.docType (docType : String) : Except InputError Pattern :=
  Pattern.entry docTypeWindow docTypeKey docType

def Pattern.identifier (identifier : String) : Except InputError Pattern :=
  Pattern.entry identifierWindow identifierKey identifier

def Request.mdoc (docType identifier : String) : Except InputError Request := do
  let credentialType ← Pattern.docType docType
  let attributeName ← Pattern.identifier identifier
  pure ⟨credentialType, attributeName⟩

/-! ## The statement -/

/-- The parameters of an approved circuit that the public values read. -/
structure ApprovedCircuit where
  docType : String
  birthDateElement : String

/-- The values the verifier names. -/
structure Statement where
  issuerKeyX : List UInt8
  issuerKeyY : List UInt8
  time : String
  earliest : String
  cutoff : String
  challengeDigest : List UInt8
  verifierInput : List UInt8

/-- `public`: the public values from a statement, validated. -/
def publicOf (statement : Statement) (circuit : ApprovedCircuit) :
    Except InputError (Public × Bytes 32) := do
  let x ← fixed 32 statement.issuerKeyX "issuer key x"
  let y ← fixed 32 statement.issuerKeyY "issuer key y"
  checkIssuerKey x y
  checkRange statement.earliest statement.cutoff
  let from_ ← bornFrom statement.earliest
  let by_ ← date (utf8 statement.cutoff)
  let now ← time (utf8 statement.time)
  let challenge ← fixed 32 statement.challengeDigest "challenge digest"
  let request ← Request.mdoc circuit.docType circuit.birthDateElement
  let verifierInput ← fixed 32 statement.verifierInput "verifier input"
  pure (⟨⟨x, y⟩, from_, by_, now, challenge, request⟩, verifierInput)

/-! ## What the texts of dates and times are -/

theorem guard_bind_eq_some {α : Type} {p : Prop} [Decidable p] {f : Unit → Option α} {a : α} :
    (guard p >>= f) = some a ↔ p ∧ f () = some a := by
  by_cases hp : p
  · simp [guard, hp]
  · simp [guard, hp]

theorem number_eq_some {s : List UInt8} {n : ℕ} (h : number s = some n) :
    (∀ b ∈ s, isAsciiDigit b) ∧ n = beNat 10 (s.map fun b => b.toNat - 0x30) := by
  unfold number at h
  split at h
  · cases h
  rename_i hs
  simp only [parseU32] at h
  split at h
  · have hall : s.all isAsciiDigit := by
      by_contra hall
      exact hs (Or.inr hall)
    exact ⟨List.all_eq_true.mp hall, (Option.some.inj h).symm⟩
  · cases h

theorem isAsciiDigit_iff {b : UInt8} : isAsciiDigit b ↔ 0x30 ≤ b.toNat ∧ b.toNat ≤ 0x39 := by
  simp [isAsciiDigit, UInt8.le_iff_toNat_le]

theorem digit_lt {s : List UInt8} (hs : ∀ b ∈ s, isAsciiDigit b) :
    ∀ d ∈ s.map fun b => b.toNat - 0x30, d < 10 := by
  intro d hd
  obtain ⟨b, hb, rfl⟩ := List.mem_map.mp hd
  have := isAsciiDigit_iff.mp (hs b hb)
  omega

theorem number_lt {s : List UInt8} {n : ℕ} (h : number s = some n) : n < 10 ^ s.length := by
  obtain ⟨hs, rfl⟩ := number_eq_some h
  have hlt := beNat_lt (by decide) (digit_lt hs)
  rwa [List.length_map] at hlt

theorem number_inj {s t : List UInt8} {n : ℕ} (hlen : s.length = t.length) (hs : number s = some n)
    (ht : number t = some n) : s = t := by
  obtain ⟨hsd, hsn⟩ := number_eq_some hs
  obtain ⟨htd, htn⟩ := number_eq_some ht
  have hmap := beNat_inj (by decide) (by simp [hlen]) (digit_lt hsd) (digit_lt htd) (hsn.symm.trans htn)
  apply List.ext_getElem hlen
  intro i hi hi'
  have hget := congrArg (fun l => l[i]?) hmap
  simp only [List.getElem?_map, List.getElem?_eq_getElem hi, List.getElem?_eq_getElem hi',
    Option.map_some, Option.some.injEq] at hget
  have h1 := isAsciiDigit_iff.mp (hsd _ (List.getElem_mem hi))
  have h2 := isAsciiDigit_iff.mp (htd _ (List.getElem_mem hi'))
  apply UInt8.toNat_inj.mp
  omega

theorem take_cons_drop {α : Type} {l : List α} {i : ℕ} {a : α} (h : l[i]? = some a) :
    l = l.take i ++ a :: l.drop (i + 1) := by
  obtain ⟨hi, rfl⟩ := List.getElem?_eq_some_iff.mp h
  rw [List.cons_getElem_drop_succ, List.take_append_drop]

structure Date.Valid (d : Date) : Prop where
  year_pos : 1 ≤ d.year
  year_lt : d.year < 10000
  month_lt : d.month < 100
  day_lt : d.day < 100

theorem dateFields_eq_some {b : List UInt8} {d : Date} (h : dateFields b = some d) :
    ∃ y m dd : List UInt8, b = y ++ 0x2d :: (m ++ 0x2d :: dd) ∧ y.length = 4 ∧ m.length = 2 ∧
      dd.length = 2 ∧ number y = some d.year ∧ number m = some d.month ∧ number dd = some d.day ∧
        1 ≤ d.year := by
  obtain ⟨⟨hlen, -, hfour, hseven⟩, h⟩ := guard_bind_eq_some.mp h
  obtain ⟨year, hyear, h⟩ := Option.bind_eq_some_iff.mp h
  obtain ⟨month, hmonth, h⟩ := Option.bind_eq_some_iff.mp h
  obtain ⟨day, hday, h⟩ := Option.bind_eq_some_iff.mp h
  obtain ⟨⟨hpos, -⟩, h⟩ := guard_bind_eq_some.mp h
  cases h
  refine ⟨b.take 4, (b.drop 5).take 2, (b.drop 8).take 2, ?_, by simp [hlen], by simp [hlen], by simp [hlen],
    hyear, hmonth, hday, hpos⟩
  have hrest : (b.drop 5)[2]? = some 0x2d := by rw [List.getElem?_drop, hseven]
  have hdrop := take_cons_drop hrest
  rw [List.drop_drop] at hdrop
  have hend : (b.drop 8).take 2 = b.drop 8 := List.take_of_length_le (by simp [hlen])
  rw [hend, ← hdrop]
  exact take_cons_drop hfour

theorem date_eq_ok {b : List UInt8} {d : Date} (h : date b = .ok d) : dateFields b = some d := by
  unfold date at h
  split at h
  · rename_i d' hd
    cases h
    exact hd
  · cases h

theorem date_valid {b : List UInt8} {d : Date} (h : date b = .ok d) : d.Valid := by
  obtain ⟨y, m, dd, -, hy, hm, hd, hyear, hmonth, hday, hpos⟩ := dateFields_eq_some (date_eq_ok h)
  have h1 := number_lt hyear
  have h2 := number_lt hmonth
  have h3 := number_lt hday
  rw [hy] at h1
  rw [hm] at h2
  rw [hd] at h3
  exact ⟨hpos, h1, h2, h3⟩

theorem date_inj {b b' : List UInt8} {d : Date} (h : date b = .ok d) (h' : date b' = .ok d) : b = b' := by
  obtain ⟨y, m, dd, rfl, hy, hm, hd, hyear, hmonth, hday, -⟩ := dateFields_eq_some (date_eq_ok h)
  obtain ⟨y', m', dd', rfl, hy', hm', hd', hyear', hmonth', hday', -⟩ := dateFields_eq_some (date_eq_ok h')
  rw [number_inj (hy.trans hy'.symm) hyear hyear', number_inj (hm.trans hm'.symm) hmonth hmonth',
    number_inj (hd.trans hd'.symm) hday hday']

theorem Date.digits_inj {d e : Date} (hd : d.Valid) (he : e.Valid) (h : d.digits = e.digits) : d = e := by
  obtain ⟨-, -, hm, hday⟩ := hd
  obtain ⟨-, -, hm', hday'⟩ := he
  unfold Date.digits at h
  have hyear : d.year = e.year := by omega
  have hmonth : d.month = e.month := by omega
  have hdays : d.day = e.day := by omega
  cases d
  cases e
  simp_all

theorem Date.Valid.digits_lt {d : Date} (h : d.Valid) : d.digits < 10 ^ 8 := by
  obtain ⟨-, hy, hm, hd⟩ := h
  unfold Date.digits
  omega

theorem Date.Valid.digits_pos {d : Date} (h : d.Valid) : 0 < d.digits := by
  have := h.year_pos
  unfold Date.digits
  omega

theorem clockFields_eq_some {b : List UInt8} {t : ℕ × ℕ × ℕ} (h : clockFields b = some t) :
    ∃ hh mm ss : List UInt8, b = b.take 10 ++ 0x54 :: (hh ++ 0x3a :: (mm ++ 0x3a :: (ss ++ [0x5a]))) ∧
      hh.length = 2 ∧ mm.length = 2 ∧ ss.length = 2 ∧ number hh = some t.1 ∧ number mm = some t.2.1 ∧
        number ss = some t.2.2 := by
  obtain ⟨⟨hlen, -, hT, hcolon, hcolon', hZ⟩, h⟩ := guard_bind_eq_some.mp h
  obtain ⟨hour, hhour, h⟩ := Option.bind_eq_some_iff.mp h
  obtain ⟨minute, hminute, h⟩ := Option.bind_eq_some_iff.mp h
  obtain ⟨second, hsecond, h⟩ := Option.bind_eq_some_iff.mp h
  obtain ⟨-, h⟩ := guard_bind_eq_some.mp h
  cases h
  refine ⟨(b.drop 11).take 2, (b.drop 14).take 2, (b.drop 17).take 2, ?_, by simp [hlen], by simp [hlen],
    by simp [hlen], hhour, hminute, hsecond⟩
  have hlast : b.drop 20 = [] := List.drop_eq_nil_of_le (by omega)
  have hss := take_cons_drop (show (b.drop 17)[2]? = some 0x5a by rw [List.getElem?_drop, hZ])
  have hmm := take_cons_drop (show (b.drop 14)[2]? = some 0x3a by rw [List.getElem?_drop, hcolon'])
  have hhh := take_cons_drop (show (b.drop 11)[2]? = some 0x3a by rw [List.getElem?_drop, hcolon])
  rw [List.drop_drop] at hss hmm hhh
  rw [hlast] at hss
  rw [← hss, ← hmm, ← hhh]
  exact take_cons_drop hT

theorem time_eq_ok {b : List UInt8} {t : Time} (h : time b = .ok t) :
    clockFields b = some (t.hour, t.minute, t.second) ∧ date (b.take 10) = .ok t.date := by
  unfold time at h
  split at h
  · rename_i c hc
    obtain ⟨d, hd, h⟩ := bind_eq_ok_iff.mp h
    cases h
    exact ⟨hc, hd⟩
  · cases h

structure Time.Valid (t : Time) : Prop where
  date : t.date.Valid
  hour_lt : t.hour < 100
  minute_lt : t.minute < 100
  second_lt : t.second < 100

theorem time_valid {b : List UInt8} {t : Time} (h : time b = .ok t) : t.Valid := by
  obtain ⟨hclock, hdate⟩ := time_eq_ok h
  obtain ⟨hh, mm, ss, -, hhl, hml, hsl, hhour, hminute, hsecond⟩ := clockFields_eq_some hclock
  have h1 := number_lt hhour
  have h2 := number_lt hminute
  have h3 := number_lt hsecond
  rw [hhl] at h1
  rw [hml] at h2
  rw [hsl] at h3
  exact ⟨date_valid hdate, h1, h2, h3⟩

theorem time_inj {b b' : List UInt8} {t : Time} (h : time b = .ok t) (h' : time b' = .ok t) : b = b' := by
  obtain ⟨hclock, hdate⟩ := time_eq_ok h
  obtain ⟨hclock', hdate'⟩ := time_eq_ok h'
  obtain ⟨hh, mm, ss, hb, hhl, hml, hsl, hhour, hminute, hsecond⟩ := clockFields_eq_some hclock
  obtain ⟨hh', mm', ss', hb', hhl', hml', hsl', hhour', hminute', hsecond'⟩ := clockFields_eq_some hclock'
  rw [hb, hb', date_inj hdate hdate', number_inj (hhl.trans hhl'.symm) hhour hhour',
    number_inj (hml.trans hml'.symm) hminute hminute', number_inj (hsl.trans hsl'.symm) hsecond hsecond']

theorem Time.digits_inj {t u : Time} (ht : t.Valid) (hu : u.Valid) (h : t.digits = u.digits) : t = u := by
  obtain ⟨hd, h1, h2, h3⟩ := ht
  obtain ⟨hd', h1', h2', h3'⟩ := hu
  unfold Time.digits at h
  have hdate := Date.digits_inj hd hd' (by omega)
  have hhour : t.hour = u.hour := by omega
  have hminute : t.minute = u.minute := by omega
  have hsecond : t.second = u.second := by omega
  cases t
  cases u
  simp_all

theorem Time.Valid.digits_lt {t : Time} (h : t.Valid) : t.digits < 10 ^ 14 := by
  obtain ⟨hd, h1, h2, h3⟩ := h
  have := hd.digits_lt
  unfold Time.digits
  omega

theorem utf8_inj {s t : String} (h : utf8 s = utf8 t) : s = t := by
  have hs := fromUtf8_utf8 s
  rw [h, fromUtf8_utf8] at hs
  exact (Option.some.inj hs).symm

/-- The earliest date's number, `0` for no bound. -/
def bornFromDigits (o : Option Date) : ℕ := o.elim 0 Date.digits

theorem bornFrom_eq_ok {s : String} {o : Option Date} (h : bornFrom s = .ok o) :
    (s = noLowerBound ∧ o = none) ∨ ∃ d, date (utf8 s) = .ok d ∧ o = some d := by
  by_cases hs : s = noLowerBound
  · rw [bornFrom, if_pos hs] at h
    cases h
    exact Or.inl ⟨hs, rfl⟩
  · rw [bornFrom, if_neg hs] at h
    cases hd : date (utf8 s) with
    | error e =>
      rw [hd] at h
      cases h
    | ok d =>
      rw [hd] at h
      cases h
      exact Or.inr ⟨d, rfl, rfl⟩

theorem bornFromDigits_lt {s : String} {o : Option Date} (h : bornFrom s = .ok o) :
    bornFromDigits o < 10 ^ 8 := by
  rcases bornFrom_eq_ok h with ⟨-, rfl⟩ | ⟨d, hd, rfl⟩
  · decide
  · exact (date_valid hd).digits_lt

/-- No date has the number of an absent bound. -/
theorem bornFrom_inj {s t : String} {o p : Option Date} (hs : bornFrom s = .ok o) (ht : bornFrom t = .ok p)
    (h : bornFromDigits o = bornFromDigits p) : s = t ∧ o = p := by
  rcases bornFrom_eq_ok hs with ⟨rfl, rfl⟩ | ⟨d, hd, rfl⟩
  · rcases bornFrom_eq_ok ht with ⟨rfl, rfl⟩ | ⟨e, he, rfl⟩
    · exact ⟨rfl, rfl⟩
    · exact absurd h (date_valid he).digits_pos.ne
  · rcases bornFrom_eq_ok ht with ⟨rfl, rfl⟩ | ⟨e, he, rfl⟩
    · exact absurd h.symm (date_valid hd).digits_pos.ne
    · have hde := Date.digits_inj (date_valid hd) (date_valid he) h
      subst hde
      exact ⟨utf8_inj (date_inj hd he), rfl⟩

/-! ## The values of an accepted statement -/

theorem fixed_eq_ok {n : ℕ} {bytes : List UInt8} {what : String} {a : Bytes n}
    (h : fixed n bytes what = .ok a) : a.val = bytes := by
  unfold fixed at h
  split at h
  · cases h
    rfl
  · cases h

theorem Pattern.new_eq_ok {window : Window} {bytes : List UInt8} {p : Pattern}
    (h : Pattern.new window bytes = .ok p) : p.window = window := by
  unfold Pattern.new at h
  split at h
  · cases h
  · split at h
    · cases h
    · cases h
      rfl

theorem Pattern.entry_eq_ok {window : Window} {key : List UInt8} {text : String} {p : Pattern}
    (h : Pattern.entry window key text = .ok p) : p.window = window := by
  obtain ⟨head, -, h⟩ := bind_eq_ok_iff.mp h
  exact Pattern.new_eq_ok h

theorem Request.mdoc_eq_ok {docType identifier : String} {r : Request}
    (h : Request.mdoc docType identifier = .ok r) : r.windows = Nym.windows := by
  obtain ⟨credentialType, hc, h⟩ := bind_eq_ok_iff.mp h
  obtain ⟨attributeName, ha, h⟩ := bind_eq_ok_iff.mp h
  cases h
  exact Prod.ext (Pattern.entry_eq_ok hc) (Pattern.entry_eq_ok ha)

theorem checkIssuerKey_eq_ok {x y : Bytes 32} (h : checkIssuerKey x y = .ok ()) :
    bytesNat x.val < fieldModulus ∧ bytesNat y.val < fieldModulus := by
  unfold checkIssuerKey at h
  split at h
  · rename_i hk
    exact hk.1
  · cases h

/-- What an accepted statement's values are. -/
structure Accepted (s : Statement) (pub : Public) (verifierInput : Bytes 32) : Prop where
  issuerKeyX : pub.issuerKey.x.val = s.issuerKeyX
  issuerKeyY : pub.issuerKey.y.val = s.issuerKeyY
  key_lt : bytesNat pub.issuerKey.x.val < fieldModulus ∧ bytesNat pub.issuerKey.y.val < fieldModulus
  earliest : bornFrom s.earliest = .ok pub.bornFrom
  cutoff : date (utf8 s.cutoff) = .ok pub.bornBy
  now : Nym.time (utf8 s.time) = .ok pub.now
  challenge : pub.challenge.val = s.challengeDigest
  windows : pub.request.windows = Nym.windows
  verifierInput : verifierInput.val = s.verifierInput

theorem publicOf_eq_ok {s : Statement} {circuit : ApprovedCircuit} {pub : Public} {verifierInput : Bytes 32}
    (h : publicOf s circuit = .ok (pub, verifierInput)) : Accepted s pub verifierInput := by
  obtain ⟨x, hx, h⟩ := bind_eq_ok_iff.mp h
  obtain ⟨y, hy, h⟩ := bind_eq_ok_iff.mp h
  obtain ⟨_, hkey, h⟩ := bind_eq_ok_iff.mp h
  obtain ⟨_, -, h⟩ := bind_eq_ok_iff.mp h
  obtain ⟨from_, hfrom, h⟩ := bind_eq_ok_iff.mp h
  obtain ⟨by_, hby, h⟩ := bind_eq_ok_iff.mp h
  obtain ⟨now, hnow, h⟩ := bind_eq_ok_iff.mp h
  obtain ⟨challenge, hchallenge, h⟩ := bind_eq_ok_iff.mp h
  obtain ⟨request, hrequest, h⟩ := bind_eq_ok_iff.mp h
  obtain ⟨input, hinput, h⟩ := bind_eq_ok_iff.mp h
  cases h
  exact ⟨fixed_eq_ok hx, fixed_eq_ok hy, checkIssuerKey_eq_ok hkey, hfrom, hby, hnow, fixed_eq_ok hchallenge,
    Request.mdoc_eq_ok hrequest, fixed_eq_ok hinput⟩

theorem natCast_inj {a b : ℕ} (ha : a < fieldModulus) (hb : b < fieldModulus)
    (h : (a : Scalar) = (b : Scalar)) : a = b :=
  ((CharP.natCast_eq_natCast Scalar fieldModulus).mp h).eq_of_lt_of_lt ha hb

/-- Short byte strings of one length are determined by their field element. -/
theorem fromBe_inj {as bs : List UInt8} (hlen : as.length = bs.length) (hshort : as.length < 32)
    (h : (fromBe as : Scalar) = fromBe bs) : as = bs := by
  have hpow : 256 ^ as.length ≤ 256 ^ 31 := Nat.pow_le_pow_right (by decide) (by omega)
  have hmod : 256 ^ 31 < fieldModulus := by decide
  have ha := bytesNat_lt as
  have hb := bytesNat_lt bs
  rw [← hlen] at hb
  exact bytesNat_inj hlen (natCast_inj (by omega) (by omega) h)

theorem halves_inj {a b : Bytes 32} (hhigh : (fromBe (a.val.take 16) : Scalar) = fromBe (b.val.take 16))
    (hlow : (fromBe (a.val.drop 16) : Scalar) = fromBe (b.val.drop 16)) : a.val = b.val := by
  have ha := a.property
  have hb := b.property
  have htake := fromBe_inj (by simp [ha, hb]) (by simp [ha]) hhigh
  have hdrop := fromBe_inj (by simp [ha, hb]) (by simp [ha]) hlow
  rw [← List.take_append_drop 16 a.val, htake, hdrop, List.take_append_drop]

/-- The three pieces of verifier_input determine it. -/
theorem verifierValues_inj {a b : Bytes 32}
    (h : (NymPublic.verifierValues a : List Scalar) = NymPublic.verifierValues b) : a.val = b.val := by
  have ha := a.property
  have hb := b.property
  simp only [NymPublic.verifierValues, List.cons.injEq, and_true] at h
  obtain ⟨hfirst, hmiddle, hlast⟩ := h
  have htake := fromBe_inj (by simp [ha, hb]) (by simp [ha]) hfirst
  have hmid := fromBe_inj (by simp [ha, hb]) (by simp [ha]) hmiddle
  have hdrop := fromBe_inj (by simp [ha, hb]) (by simp [ha]) hlast
  have hsplit : ∀ c : Bytes 32, c.val = c.val.take 9 ++ ((c.val.drop 9).take 16 ++ c.val.drop 25) := by
    intro c
    have hdrop : c.val.drop 25 = (c.val.drop 9).drop 16 := by rw [List.drop_drop]
    rw [hdrop, List.take_append_drop, List.take_append_drop]
  rw [hsplit a, hsplit b, htake, hmid, hdrop]

theorem Accepted.eq_of_values {s s' : Statement} {pub pub' : Public} {v v' : Bytes 32}
    (h : Accepted s pub v) (h' : Accepted s' pub' v')
    (hvalues : (pub.values ++ NymPublic.verifierValues v : List Scalar) =
      pub'.values ++ NymPublic.verifierValues v') : s = s' := by
  obtain ⟨hpub, hverifier⟩ := List.append_inj' hvalues (by simp [NymPublic.verifierValues])
  obtain ⟨hbase, -⟩ := List.append_inj hpub (by rw [length_base, length_base])
  simp only [Public.base, List.cons.injEq, and_true] at hbase
  obtain ⟨hx, hy, hfrom, hby, hnow, hhigh, hlow⟩ := hbase
  have hmod : 10 ^ 14 < fieldModulus := by decide
  have hkeyX := natCast_inj h.key_lt.1 h'.key_lt.1 hx
  have hkeyY := natCast_inj h.key_lt.2 h'.key_lt.2 hy
  have hlen : ∀ a b : Bytes 32, a.val.length = b.val.length := fun a b => a.property.trans b.property.symm
  have hxs := bytesNat_inj (hlen _ _) hkeyX
  have hys := bytesNat_inj (hlen _ _) hkeyY
  have hfromLt := bornFromDigits_lt h.earliest
  have hfromLt' := bornFromDigits_lt h'.earliest
  have hfromEq : bornFromDigits pub.bornFrom = bornFromDigits pub'.bornFrom :=
    natCast_inj (by omega) (by omega) hfrom
  have hearliest := (bornFrom_inj h.earliest h'.earliest hfromEq).1
  have hbyValid := date_valid h.cutoff
  have hbyValid' := date_valid h'.cutoff
  have hbyLt := hbyValid.digits_lt
  have hbyLt' := hbyValid'.digits_lt
  have hbyEq := Date.digits_inj hbyValid hbyValid' (natCast_inj (by omega) (by omega) hby)
  have hcutoff := h.cutoff
  rw [hbyEq] at hcutoff
  have hnowValid := time_valid h.now
  have hnowValid' := time_valid h'.now
  have hnowLt := hnowValid.digits_lt
  have hnowLt' := hnowValid'.digits_lt
  have hnowEq := Time.digits_inj hnowValid hnowValid' (natCast_inj (by omega) (by omega) hnow)
  have htime := h.now
  rw [hnowEq] at htime
  have hchallenge := halves_inj hhigh hlow
  have hinput := verifierValues_inj hverifier
  have hcutoffEq := utf8_inj (date_inj hcutoff h'.cutoff)
  have htimeEq := utf8_inj (time_inj htime h'.now)
  rw [h.issuerKeyX, h'.issuerKeyX] at hxs
  rw [h.issuerKeyY, h'.issuerKeyY] at hys
  rw [h.challenge, h'.challenge] at hchallenge
  rw [h.verifierInput, h'.verifierInput] at hinput
  cases s
  cases s'
  simp_all

/-- The values the verifier names determine the statement; the rest segment publishes exactly the
core's public values, and the verifier that named them accepts and reads the core's pseudonym. -/
theorem namedValues_determine (circuit : ApprovedCircuit) :
    (∀ s s' pub pub' v v', publicOf s circuit = .ok (pub, v) → publicOf s' circuit = .ok (pub', v') →
      (pub.values ++ NymPublic.verifierValues v : List Scalar) =
        pub'.values ++ NymPublic.verifierValues v' →
      s.issuerKeyX = s'.issuerKeyX ∧ s.issuerKeyY = s'.issuerKeyY ∧ s.earliest = s'.earliest ∧
        s.cutoff = s'.cutoff ∧ s.time = s'.time ∧ s.challengeDigest = s'.challengeDigest ∧
          s.verifierInput = s'.verifierInput) ∧
    (∀ s pub v, publicOf s circuit = .ok (pub, v) → pub.request.windows = windows) ∧
    ∀ (constants : Constants Scalar) (presentation : Presentation) (nym : NymPublic)
      (facts : List (AllocatedNum Scalar Scalar)), presentation.pub.request.windows = windows →
      facts.length = baseValues + windows.1.len + windows.2.len + nymValues →
      (∀ a ∈ facts, KnownNum a) →
      ∃ inputs, (MdocNymCore.synthesize constants ⟨some presentation, some nym⟩ facts).synthesize =
          .ok (inputs, ()) ∧
        MdocNymCore.publicValues ⟨some presentation, some nym⟩ = .ok inputs ∧
        acceptPseudonym inputs (presentation.pub.values ++ NymPublic.verifierValues nym.verifierInput) =
          some nym.pseudonym.val := by
  refine ⟨?_, ?_, ?_⟩
  · intro s s' pub pub' v v' h h' hvalues
    have heq := (publicOf_eq_ok h).eq_of_values (publicOf_eq_ok h') hvalues
    subst heq
    exact ⟨rfl, rfl, rfl, rfl, rfl, rfl, rfl⟩
  · intro s pub v h
    exact (publicOf_eq_ok h).windows
  · intro constants presentation nym facts hwindows hlen hknown
    obtain ⟨_, hsynthesize, -⟩ := publishes_synthesize constants nym hwindows hlen hknown
    exact ⟨_, hsynthesize, rfl, acceptPseudonym_values presentation.pub nym⟩

def nymauthMdocV1 : ApprovedCircuit := ⟨"eu.europa.ec.eudi.nym_auth.1", "birth_date"⟩

def generatorXBytes : List UInt8 :=
  [0x6b, 0x17, 0xd1, 0xf2, 0xe1, 0x2c, 0x42, 0x47, 0xf8, 0xbc, 0xe6, 0xe5, 0x63, 0xa4, 0x40, 0xf2,
    0x77, 0x03, 0x7d, 0x81, 0x2d, 0xeb, 0x33, 0xa0, 0xf4, 0xa1, 0x39, 0x45, 0xd8, 0x98, 0xc2, 0x96]

def generatorYBytes : List UInt8 :=
  [0x4f, 0xe3, 0x42, 0xe2, 0xfe, 0x1a, 0x7f, 0x9b, 0x8e, 0xe7, 0xeb, 0x4a, 0x7c, 0x0f, 0x9e, 0x16,
    0x2b, 0xce, 0x33, 0x57, 0x6b, 0x31, 0x5e, 0xce, 0xcb, 0xb6, 0x40, 0x68, 0x37, 0xbf, 0x51, 0xf5]

def adultStatement : Statement where
  issuerKeyX := generatorXBytes
  issuerKeyY := generatorYBytes
  time := "2026-09-18T12:00:00Z"
  earliest := "0000-00-00"
  cutoff := "2008-09-18"
  challengeDigest := List.replicate 32 7
  verifierInput := List.replicate 32 9

def zeroConstants : Constants Scalar where
  start := (0, 0)
  startRemoved := (0, 0)
  windows := List.replicate 128 ((0, 0), (0, 0), (0, 0), (0, 0))
  offsetsRemoved := (0, 0)
  length_windows := by simp

theorem namedValues_determine_adult :
    ∃ pub v, publicOf adultStatement nymauthMdocV1 = .ok (pub, v) ∧
      (∀ s pub' v', publicOf s nymauthMdocV1 = .ok (pub', v') →
        (pub.values ++ NymPublic.verifierValues v : List Scalar) =
          pub'.values ++ NymPublic.verifierValues v' → s.cutoff = "2008-09-18") ∧
      ∃ inputs, acceptPseudonym inputs (pub.values ++ NymPublic.verifierValues v : List Scalar) =
        some (List.replicate 32 5) := by
  have hok : (publicOf adultStatement nymauthMdocV1).isOk := by decide +kernel
  cases h : publicOf adultStatement nymauthMdocV1 with
  | error e =>
    rw [h] at hok
    cases hok
  | ok t =>
    obtain ⟨hinj, hwindows, hpublish⟩ := namedValues_determine nymauthMdocV1
    refine ⟨t.1, t.2, rfl, ?_, ?_⟩
    · intro s pub' v' hs hvalues
      obtain ⟨-, -, -, hcutoff, -⟩ := hinj _ _ _ _ _ _ h hs hvalues
      exact hcutoff.symm
    · have hsignature : Signature := ⟨⟨List.replicate 32 1, rfl⟩, ⟨List.replicate 32 1, rfl⟩⟩
      obtain ⟨inputs, -, -, haccept⟩ := hpublish zeroConstants ⟨t.1, hsignature⟩
        ⟨t.2, ⟨List.replicate 32 5, rfl⟩⟩ (List.replicate 100 ⟨0, some 0⟩) (hwindows _ _ _ h) (by simp; rfl)
        (by simp [KnownNum])
      exact ⟨inputs, haccept⟩

end ZkCredVega.Nym
