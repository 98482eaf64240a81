import ZkCredVega.Calendar
import ZkCredVega.Nym.Statement

/-!
# Calendar dates

The dates of `statement.rs` against the Gregorian calendar: which texts are dates, that
their text, their digits and their day numbers are in the same order, that day numbers
count days, and which ranges of birth dates are accepted.
-/

namespace ZkCredVega.Nym

open Circuits

/-- `{:0w}`: the decimal digits, with zeros before them up to `w`. -/
def zeroPadded (w n : ℕ) : List Char :=
  List.replicate (w - (Nat.toDigits 10 n).length) '0' ++ Nat.toDigits 10 n

def Date.text (d : Date) : String :=
  String.ofList (zeroPadded 4 d.year ++ '-' :: (zeroPadded 2 d.month ++ '-' :: zeroPadded 2 d.day))

def Date.toDay (d : Date) : Calendar.Day := ⟨d.year, d.month, d.day⟩

/-- A date of the Gregorian calendar, in the years from 1 to 9999. -/
structure Date.IsCalendar (d : Date) : Prop where
  day : d.toDay.Valid
  year_le : d.year ≤ 9999

/-! ## Decimal texts -/

/-- The last `w` decimal digits, most significant first. -/
def digitsOf : ℕ → ℕ → List ℕ
  | 0, _ => []
  | w + 1, n => digitsOf w (n / 10) ++ [n % 10]

@[simp] theorem length_digitsOf (w n : ℕ) : (digitsOf w n).length = w := by
  induction w generalizing n with
  | zero => rfl
  | succ w ih => simp [digitsOf, ih]

theorem digitsOf_lt {w n : ℕ} : ∀ d ∈ digitsOf w n, d < 10 := by
  induction w generalizing n with
  | zero =>
    intro d hd
    cases hd
  | succ w ih =>
    rw [digitsOf, List.forall_mem_append, List.forall_mem_singleton]
    exact ⟨ih, Nat.mod_lt n (by decide)⟩

theorem beNat_digitsOf {w n : ℕ} (h : n < 10 ^ w) : beNat 10 (digitsOf w n) = n := by
  induction w generalizing n with
  | zero =>
    rw [pow_zero] at h
    obtain rfl : n = 0 := by omega
    rfl
  | succ w ih =>
    rw [pow_succ] at h
    rw [digitsOf, beNat_concat, ih (by omega)]
    omega

theorem digitsOf_zero (w : ℕ) : digitsOf w 0 = List.replicate w 0 := by
  induction w with
  | zero => rfl
  | succ w ih => rw [digitsOf, Nat.zero_div, ih, Nat.zero_mod, List.replicate_succ']

theorem zeroPadded_eq {w n : ℕ} (hw : 0 < w) (h : n < 10 ^ w) : zeroPadded w n = (digitsOf w n).map Nat.digitChar := by
  induction w generalizing n with
  | zero => cases hw
  | succ w ih =>
    by_cases hn : n < 10
    · rw [zeroPadded, Nat.toDigits_of_lt_base hn, digitsOf, Nat.div_eq_of_lt hn, digitsOf_zero,
        Nat.mod_eq_of_lt hn, List.map_append, List.map_replicate]
      rfl
    · rw [pow_succ] at h
      have hw' : 0 < w := by
        by_contra hzero
        obtain rfl : w = 0 := by omega
        omega
      have hpadded := ih hw' (n := n / 10) (by omega)
      rw [zeroPadded, Nat.toDigits_of_base_le (by decide) (by omega), List.length_append, List.length_singleton,
        Nat.add_sub_add_right, ← List.append_assoc, ← zeroPadded, hpadded, digitsOf, List.map_append]
      rfl

def digitBytes (w n : ℕ) : List UInt8 := (digitsOf w n).map fun d => UInt8.ofNat (0x30 + d)

@[simp] theorem length_digitBytes (w n : ℕ) : (digitBytes w n).length = w := by simp [digitBytes]

theorem number_digitBytes {w n : ℕ} (hw : 0 < w) (h : n < 10 ^ w) (hn : n < 2 ^ 32) :
    number (digitBytes w n) = some n := by
  have hdigit : ∀ d < 10, isAsciiDigit (UInt8.ofNat (0x30 + d)) = true ∧ (UInt8.ofNat (0x30 + d)).toNat - 0x30 = d := by
    decide
  have hall : (digitBytes w n).all isAsciiDigit := by
    rw [digitBytes, List.all_map, List.all_eq_true]
    exact fun d hd => (hdigit d (digitsOf_lt d hd)).1
  have hempty : (digitBytes w n).isEmpty = false := by
    rw [List.isEmpty_eq_false_iff, ← List.length_pos_iff, length_digitBytes]
    exact hw
  have hback : (digitBytes w n).map (fun b => b.toNat - 0x30) = digitsOf w n := by
    rw [digitBytes, List.map_map]
    conv_rhs => rw [← List.map_id (digitsOf w n)]
    exact List.map_congr_left fun d hd => (hdigit d (digitsOf_lt d hd)).2
  have hcond : ¬((digitBytes w n).isEmpty = true ∨ ¬(digitBytes w n).all isAsciiDigit = true) := by
    rw [hempty, hall]
    decide
  rw [number, if_neg hcond, parseU32, hback, beNat_digitsOf h, if_pos hn]

theorem utf8_ofList {cs : List Char} {bs : List UInt8} (h : cs.flatMap String.utf8EncodeChar = bs) :
    utf8 (String.ofList cs) = bs := by
  rw [utf8, String.toUTF8_eq_toByteArray, String.toByteArray_ofList, List.utf8Encode, h]
  simp

theorem flatMap_digitChar {ds : List ℕ} (h : ∀ d ∈ ds, d < 10) :
    (ds.map Nat.digitChar).flatMap String.utf8EncodeChar = ds.map fun d => UInt8.ofNat (0x30 + d) := by
  have hdigit : ∀ d < 10, String.utf8EncodeChar (Nat.digitChar d) = [UInt8.ofNat (0x30 + d)] := by decide
  induction ds with
  | nil => rfl
  | cons d ds ih =>
    rw [List.map_cons, List.flatMap_cons, hdigit d (h d List.mem_cons_self), ih fun e he =>
      h e (List.mem_cons_of_mem _ he)]
    rfl

def Date.textBytes (d : Date) : List UInt8 :=
  digitBytes 4 d.year ++ 0x2d :: (digitBytes 2 d.month ++ 0x2d :: digitBytes 2 d.day)

namespace Date.IsCalendar

variable {d : Date} (h : d.IsCalendar)

include h

theorem year_lt : d.year < 10 ^ 4 := Nat.lt_succ_of_le h.year_le

theorem month_lt : d.month < 10 ^ 2 := lt_of_le_of_lt h.day.month_le (by decide)

theorem day_lt : d.day < 10 ^ 2 :=
  lt_of_le_of_lt (h.day.day_le.trans (Calendar.monthLength_le h.day.month_pos h.day.month_le)) (by decide)

theorem utf8_text : utf8 d.text = d.textBytes := by
  apply utf8_ofList
  have hdash : String.utf8EncodeChar '-' = [0x2d] := by decide
  rw [zeroPadded_eq (by decide) h.year_lt, zeroPadded_eq (by decide) h.month_lt, zeroPadded_eq (by decide) h.day_lt,
    List.flatMap_append, List.flatMap_cons, List.flatMap_append, List.flatMap_cons, hdash,
    flatMap_digitChar digitsOf_lt, flatMap_digitChar digitsOf_lt, flatMap_digitChar digitsOf_lt]
  rfl

end Date.IsCalendar

/-! ## Which texts are dates -/

theorem daysInMonth_eq {year month : ℕ} (h1 : 1 ≤ month) (h2 : month ≤ 12) :
    daysInMonth year month = Calendar.monthLength year month := by
  have hleap : (year % 4 = 0 ∧ (year % 100 ≠ 0 ∨ year % 400 = 0)) ↔ Calendar.Leap year := by
    rw [Calendar.Leap, Nat.dvd_iff_mod_eq_zero, Nat.dvd_iff_mod_eq_zero, Nat.dvd_iff_mod_eq_zero]
  unfold daysInMonth Calendar.monthLength Calendar.monthLengths
  interval_cases month <;> simp [hleap]

theorem date_isCalendar {b : List UInt8} {d : Date} (h : date b = .ok d) : d.IsCalendar := by
  have hvalid := date_valid h
  obtain ⟨-, h⟩ := guard_bind_eq_some.mp (date_eq_ok h)
  obtain ⟨year, -, h⟩ := Option.bind_eq_some_iff.mp h
  obtain ⟨month, -, h⟩ := Option.bind_eq_some_iff.mp h
  obtain ⟨day, -, h⟩ := Option.bind_eq_some_iff.mp h
  obtain ⟨⟨hyear, hmonth, hmonth', hday, hday'⟩, h⟩ := guard_bind_eq_some.mp h
  cases h
  rw [daysInMonth_eq hmonth hmonth'] at hday'
  exact ⟨⟨hyear, hmonth, hmonth', hday, hday'⟩, Nat.le_of_lt_succ hvalid.year_lt⟩

theorem ascii_of_number {s : List UInt8} {n : ℕ} (h : number s = some n) : ∀ b ∈ s, b < 0x80 := by
  intro b hb
  have hdigit := isAsciiDigit_iff.mp ((number_eq_some h).1 b hb)
  apply UInt8.lt_iff_toNat_lt.mpr
  exact lt_of_le_of_lt hdigit.2 (by decide)

theorem dateFields_of {y m dd : List UInt8} {d : Date} (hy : y.length = 4) (hm : m.length = 2) (hd : dd.length = 2)
    (hyear : number y = some d.year) (hmonth : number m = some d.month) (hday : number dd = some d.day)
    (hguard : 1 ≤ d.year ∧ 1 ≤ d.month ∧ d.month ≤ 12 ∧ 1 ≤ d.day ∧ d.day ≤ daysInMonth d.year d.month) :
    dateFields (y ++ 0x2d :: (m ++ 0x2d :: dd)) = some d := by
  have hascii : (y ++ 0x2d :: (m ++ 0x2d :: dd)).all (· < 0x80) = true := by
    rw [List.all_eq_true]
    simp only [decide_eq_true_eq]
    rw [List.forall_mem_append, List.forall_mem_cons, List.forall_mem_append, List.forall_mem_cons]
    exact ⟨ascii_of_number hyear, by decide, ascii_of_number hmonth, by decide, ascii_of_number hday⟩
  match y, hy, m, hm, dd, hd with
  | [_, _, _, _], _, [_, _], _, [_, _], _ =>
    refine guard_bind_eq_some.mpr ⟨⟨rfl, hascii, rfl, rfl⟩, ?_⟩
    refine Option.bind_eq_some_iff.mpr ⟨d.year, hyear, ?_⟩
    refine Option.bind_eq_some_iff.mpr ⟨d.month, hmonth, ?_⟩
    refine Option.bind_eq_some_iff.mpr ⟨d.day, hday, ?_⟩
    exact guard_bind_eq_some.mpr ⟨hguard, rfl⟩

theorem date_textBytes {d : Date} (h : d.IsCalendar) : date d.textBytes = .ok d := by
  have hyear := number_digitBytes (by decide) h.year_lt (lt_trans h.year_lt (by decide))
  have hmonth := number_digitBytes (by decide) h.month_lt (lt_trans h.month_lt (by decide))
  have hday := number_digitBytes (by decide) h.day_lt (lt_trans h.day_lt (by decide))
  have hle : d.day ≤ daysInMonth d.year d.month := by
    rw [daysInMonth_eq (show 1 ≤ d.month from h.day.month_pos) h.day.month_le]
    exact h.day.day_le
  have hfields : dateFields d.textBytes = some d :=
    dateFields_of (length_digitBytes _ _) (length_digitBytes _ _) (length_digitBytes _ _) hyear hmonth hday
      ⟨h.day.year_pos, h.day.month_pos, h.day.month_le, h.day.day_pos, hle⟩
  rw [date, hfields]

/-- The texts that are dates are those of the calendar's dates. -/
theorem date_eq_ok_iff (s : String) (d : Date) : date (utf8 s) = .ok d ↔ d.IsCalendar ∧ s = d.text := by
  constructor
  · intro h
    have hcalendar := date_isCalendar h
    refine ⟨hcalendar, utf8_inj ?_⟩
    rw [hcalendar.utf8_text]
    exact date_inj h (date_textBytes hcalendar)
  · rintro ⟨hcalendar, rfl⟩
    rw [hcalendar.utf8_text, date_textBytes hcalendar]

/-! ## The order of dates -/

theorem append_lt_append_iff {xs ys : List UInt8} (hlen : xs.length = ys.length) (r r' : List UInt8) :
    xs ++ r < ys ++ r' ↔ xs < ys ∨ xs = ys ∧ r < r' := by
  induction xs generalizing ys with
  | nil =>
    obtain rfl := List.length_eq_zero_iff.mp hlen.symm
    simp
  | cons x xs ih =>
    cases ys with
    | nil => cases hlen
    | cons y ys =>
      rw [List.cons_append, List.cons_append, List.cons_lt_cons_iff, List.cons_lt_cons_iff, ih (Nat.succ.inj hlen),
        List.cons.injEq]
      tauto

theorem digitBytes_inj {w n k : ℕ} (hn : n < 10 ^ w) (hk : k < 10 ^ w) (h : digitBytes w n = digitBytes w k) :
    n = k := by
  have hinj : ∀ d < 10, ∀ e < 10, UInt8.ofNat (0x30 + d) = UInt8.ofNat (0x30 + e) → d = e := by decide
  have hdigits : digitsOf w n = digitsOf w k := by
    apply List.ext_getElem (by simp)
    intro i h1 h2
    apply hinj _ (digitsOf_lt _ (List.getElem_mem h1)) _ (digitsOf_lt _ (List.getElem_mem h2))
    have hget : (digitBytes w n)[i]? = (digitBytes w k)[i]? := by rw [h]
    rw [digitBytes, digitBytes, List.getElem?_map, List.getElem?_map, List.getElem?_eq_getElem h1,
      List.getElem?_eq_getElem h2] at hget
    exact Option.some.inj hget
  rw [← beNat_digitsOf hn, hdigits, beNat_digitsOf hk]

/-- Digits of one width are in the order of their numbers. -/
theorem digitBytes_lt_iff {w n k : ℕ} (hn : n < 10 ^ w) (hk : k < 10 ^ w) :
    digitBytes w n < digitBytes w k ↔ n < k := by
  have hdigit : ∀ d < 10, ∀ e < 10, [UInt8.ofNat (0x30 + d)] < [UInt8.ofNat (0x30 + e)] ↔ d < e := by decide
  induction w generalizing n k with
  | zero =>
    rw [pow_zero] at hn hk
    obtain rfl : n = 0 := by omega
    obtain rfl : k = 0 := by omega
    simp
  | succ w ih =>
    rw [pow_succ] at hn hk
    have hsplit : ∀ n, digitBytes (w + 1) n = digitBytes w (n / 10) ++ [UInt8.ofNat (0x30 + n % 10)] := by
      intro n
      rw [digitBytes, digitsOf, List.map_append]
      rfl
    have heq : digitBytes w (n / 10) = digitBytes w (k / 10) ↔ n / 10 = k / 10 :=
      ⟨digitBytes_inj (by omega) (by omega), fun h => by rw [h]⟩
    have hrest : digitBytes w (n / 10) < digitBytes w (k / 10) ↔ n / 10 < k / 10 := ih (by omega) (by omega)
    rw [hsplit, hsplit, append_lt_append_iff (by simp), hrest, heq,
      hdigit _ (Nat.mod_lt n (by decide)) _ (Nat.mod_lt k (by decide))]
    omega

theorem textBytes_lt_iff {a b : Date} (ha : a.IsCalendar) (hb : b.IsCalendar) :
    a.textBytes < b.textBytes ↔ a.toDay.Before b.toDay := by
  have hyear : digitBytes 4 a.year = digitBytes 4 b.year ↔ a.year = b.year :=
    ⟨digitBytes_inj ha.year_lt hb.year_lt, fun h => by rw [h]⟩
  have hmonth : digitBytes 2 a.month = digitBytes 2 b.month ↔ a.month = b.month :=
    ⟨digitBytes_inj ha.month_lt hb.month_lt, fun h => by rw [h]⟩
  rw [Date.textBytes, Date.textBytes, append_lt_append_iff (by simp), List.cons_lt_cons_iff,
    append_lt_append_iff (by simp), List.cons_lt_cons_iff, digitBytes_lt_iff ha.year_lt hb.year_lt,
    digitBytes_lt_iff ha.month_lt hb.month_lt, digitBytes_lt_iff ha.day_lt hb.day_lt, hyear, hmonth]
  simp [Calendar.Day.Before, Date.toDay]

theorem digits_lt_iff {a b : Date} (ha : a.IsCalendar) (hb : b.IsCalendar) :
    a.digits < b.digits ↔ a.toDay.Before b.toDay := by
  have := ha.month_lt
  have := ha.day_lt
  have := hb.month_lt
  have := hb.day_lt
  simp only [Date.digits, Calendar.Day.Before, Date.toDay]
  omega

/-! ## Day numbers -/

def Date.ofDay (d : Calendar.Day) : Date := ⟨d.year, d.month, d.day⟩

/-- Day numbers grow by one at each day, also over the ends of months and of leap years. -/
theorem isNumbering_days : Calendar.IsNumbering fun d => days (Date.ofDay d) := by
  rintro ⟨year, month, day⟩ ⟨hyear, hmonth, hmonth', hday, hday'⟩
  simp only at hyear hmonth hmonth' hday hday'
  by_cases hwithin : day < Calendar.monthLength year month
  · have hnext : Calendar.Day.next ⟨year, month, day⟩ = ⟨year, month, day + 1⟩ := if_pos hwithin
    rw [hnext]
    simp only [days, Date.ofDay]
    push_cast
    omega
  · obtain rfl : day = Calendar.monthLength year month := by omega
    have hleap : Calendar.Leap year ↔ year % 4 = 0 ∧ (year % 100 ≠ 0 ∨ year % 400 = 0) := by
      rw [Calendar.Leap, Nat.dvd_iff_mod_eq_zero, Nat.dvd_iff_mod_eq_zero, Nat.dvd_iff_mod_eq_zero]
    simp only [Calendar.Day.next, if_neg hwithin]
    clear hwithin hday hday'
    by_cases hfebruary : month = 2
    · subst hfebruary
      by_cases hlong : Calendar.Leap year
      · have hyears := hleap.mp hlong
        simp [days, Date.ofDay, Calendar.monthLength, Calendar.monthLengths, hlong]
        omega
      · have hyears := mt hleap.mpr hlong
        simp [days, Date.ofDay, Calendar.monthLength, Calendar.monthLengths, hlong]
        omega
    -- the other months have one length, and the year does not change in the formula
    · unfold Calendar.monthLength Calendar.monthLengths
      interval_cases month
      all_goals simp [days, Date.ofDay]
      all_goals omega

theorem Date.ofDay_toDay (d : Date) : Date.ofDay d.toDay = d := rfl

theorem days_sub_eq_iff {a b : Date} (ha : a.IsCalendar) (hb : b.IsCalendar) (n : ℕ) :
    days b - days a = n ↔ Calendar.Day.next^[n] a.toDay = b.toDay := by
  have h := isNumbering_days.sub_eq_iff ha.day hb.day n
  simp only [Date.ofDay_toDay] at h
  exact h

theorem days_lt_iff {a b : Date} (ha : a.IsCalendar) (hb : b.IsCalendar) :
    days a < days b ↔ a.toDay.Before b.toDay := by
  have h := isNumbering_days.lt_iff ha.day hb.day
  simp only [Date.ofDay_toDay] at h
  exact h

/-! ## The age range -/

/-- The days from `e` to `c`, both included, are at least `n`. -/
def SpansDays (e c : Date) (n : ℤ) : Prop := ∃ k : ℕ, Calendar.Day.next^[k] e.toDay = c.toDay ∧ n ≤ k + 1

theorem spansDays_iff {e c : Date} (he : e.IsCalendar) (hc : c.IsCalendar) {n : ℤ} (hn : 1 ≤ n) :
    SpansDays e c n ↔ n ≤ days c - days e + 1 := by
  constructor
  · rintro ⟨k, hk, hle⟩
    rw [(days_sub_eq_iff he hc k).mpr hk]
    exact hle
  · intro hle
    have hk : days c - days e = ((days c - days e).toNat : ℕ) := by omega
    refine ⟨(days c - days e).toNat, (days_sub_eq_iff he hc _).mp hk, ?_⟩
    omega

theorem map_eq_ok_iff {ε α β : Type} {f : α → β} {x : Except ε α} {b : β} :
    f <$> x = .ok b ↔ ∃ a, x = .ok a ∧ f a = b := by
  cases x with
  | error e =>
    constructor
    · intro h
      cases h
    · rintro ⟨a, h, -⟩
      cases h
  | ok a =>
    constructor
    · intro h
      exact ⟨a, rfl, Except.ok.inj h⟩
    · rintro ⟨a', h, rfl⟩
      cases h
      rfl

theorem checkWindow_eq_ok_iff {e c : Date} (he : e.IsCalendar) (hc : c.IsCalendar) (bounded : Bool) :
    checkWindow (some e) c bounded = .ok () ↔ (bounded = true → SpansDays e c minWindowDays) := by
  have hspans := spansDays_iff he hc (show 1 ≤ minWindowDays by decide)
  simp only [checkWindow]
  split
  · rename_i hshort
    constructor
    · intro h
      cases h
    · intro h
      have := hspans.mp (h hshort.1)
      omega
  · rename_i hshort
    refine ⟨fun _ hbounded => hspans.mpr ?_, fun _ => rfl⟩
    by_contra hlt
    exact hshort ⟨hbounded, by omega⟩

theorem checkRange_eq_ok_iff (earliest cutoff : String) :
    checkRange earliest cutoff = .ok () ↔
      ∃ c : Date, c.IsCalendar ∧ cutoff = c.text ∧
        (earliest = noLowerBound ∨ ∃ e : Date, e.IsCalendar ∧ earliest = e.text ∧
          (cutoff ≠ noUpperBound → SpansDays e c minWindowDays)) := by
  have hbounded : (decide (cutoff ≠ noUpperBound) = true) ↔ cutoff ≠ noUpperBound := decide_eq_true_iff
  rw [checkRange, bind_eq_ok_iff]
  simp only [bind_eq_ok_iff, date_eq_ok_iff]
  by_cases hnone : earliest = noLowerBound
  · have hborn : bornFrom earliest = .ok none := if_pos hnone
    rw [hborn]
    constructor
    · rintro ⟨o, ho, c, ⟨hc, htext⟩, -⟩
      exact ⟨c, hc, htext, Or.inl hnone⟩
    · rintro ⟨c, hc, htext, -⟩
      exact ⟨none, rfl, c, ⟨hc, htext⟩, rfl⟩
  · have hborn : bornFrom earliest = some <$> date (utf8 earliest) := if_neg hnone
    rw [hborn]
    constructor
    · rintro ⟨o, ho, c, ⟨hc, htext⟩, hwindow⟩
      obtain ⟨e, he, rfl⟩ := map_eq_ok_iff.mp ho
      obtain ⟨he, hetext⟩ := (date_eq_ok_iff _ _).mp he
      rw [checkWindow_eq_ok_iff he hc, hbounded] at hwindow
      exact ⟨c, hc, htext, Or.inr ⟨e, he, hetext, hwindow⟩⟩
    · rintro ⟨c, hc, htext, heq | ⟨e, he, hetext, hspans⟩⟩
      · exact absurd heq hnone
      · refine ⟨some e, map_eq_ok_iff.mpr ⟨e, (date_eq_ok_iff _ _).mpr ⟨he, hetext⟩, rfl⟩, c, ⟨hc, htext⟩, ?_⟩
        rw [checkWindow_eq_ok_iff he hc, hbounded]
        exact hspans

/-- Dates are those of the Gregorian calendar: the accepted texts, the orders by text, by digits and
by day number, the days between two dates, and the accepted ranges. -/
theorem dates_exact :
    (∀ (s : String) (d : Date), date (utf8 s) = .ok d ↔ d.IsCalendar ∧ s = d.text) ∧
      (∀ a b : Date, a.IsCalendar → b.IsCalendar →
        (utf8 a.text < utf8 b.text ↔ a.digits < b.digits) ∧ (a.digits < b.digits ↔ days a < days b) ∧
          ∀ n : ℕ, days b - days a = n ↔ Calendar.Day.next^[n] a.toDay = b.toDay) ∧
      (∀ d : Date, d.IsCalendar → days (Date.ofDay d.toDay.next) = days d + 1) ∧
      ∀ earliest cutoff : String, checkRange earliest cutoff = .ok () ↔
        ∃ c : Date, c.IsCalendar ∧ cutoff = c.text ∧
          (earliest = noLowerBound ∨ ∃ e : Date, e.IsCalendar ∧ earliest = e.text ∧
            (cutoff ≠ noUpperBound → SpansDays e c minWindowDays)) := by
  refine ⟨date_eq_ok_iff, ?_, fun d hd => isNumbering_days d.toDay hd.day, checkRange_eq_ok_iff⟩
  intro a b ha hb
  refine ⟨?_, ?_, days_sub_eq_iff ha hb⟩
  · rw [ha.utf8_text, hb.utf8_text, textBytes_lt_iff ha hb, digits_lt_iff ha hb]
  · rw [digits_lt_iff ha hb, days_lt_iff ha hb]

end ZkCredVega.Nym
