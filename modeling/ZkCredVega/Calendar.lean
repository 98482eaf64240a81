import Mathlib.Logic.Function.Iterate
import Mathlib.Tactic.IntervalCases

/-!
# The Gregorian calendar

Days as year, month and day, in their order, each with the day after it. A numbering of the
days is any function that grows by one at each: it agrees with the order of the days, and its
differences count them.
-/

namespace Calendar

@[ext] structure Day where
  year : ℕ
  month : ℕ
  day : ℕ
deriving DecidableEq

/-- A year of 366 days. -/
def Leap (year : ℕ) : Prop := 4 ∣ year ∧ (¬100 ∣ year ∨ 400 ∣ year)

instance (year : ℕ) : Decidable (Leap year) := inferInstanceAs (Decidable (_ ∧ _))

def monthLengths (year : ℕ) : List ℕ :=
  [31, if Leap year then 29 else 28, 31, 30, 31, 30, 31, 31, 30, 31, 30, 31]

def monthLength (year month : ℕ) : ℕ := (monthLengths year).getD (month - 1) 0

theorem monthLength_pos {year month : ℕ} (h1 : 1 ≤ month) (h2 : month ≤ 12) : 1 ≤ monthLength year month := by
  unfold monthLength monthLengths
  interval_cases month <;> simp
  split <;> decide

theorem monthLength_le {year month : ℕ} (h1 : 1 ≤ month) (h2 : month ≤ 12) : monthLength year month ≤ 31 := by
  unfold monthLength monthLengths
  interval_cases month <;> simp
  split <;> decide

namespace Day

/-- A day of a year from 1 on. -/
structure Valid (d : Day) : Prop where
  year_pos : 1 ≤ d.year
  month_pos : 1 ≤ d.month
  month_le : d.month ≤ 12
  day_pos : 1 ≤ d.day
  day_le : d.day ≤ monthLength d.year d.month

def next (d : Day) : Day :=
  if d.day < monthLength d.year d.month then ⟨d.year, d.month, d.day + 1⟩
  else if d.month < 12 then ⟨d.year, d.month + 1, 1⟩
  else ⟨d.year + 1, 1, 1⟩

def Before (a b : Day) : Prop :=
  a.year < b.year ∨ a.year = b.year ∧ (a.month < b.month ∨ a.month = b.month ∧ a.day < b.day)

variable {a b d : Day}

theorem Valid.next (h : d.Valid) : d.next.Valid := by
  obtain ⟨hy, hm, hm', hd, hd'⟩ := h
  unfold Day.next
  split
  · exact ⟨hy, hm, hm', by simp, by assumption⟩
  · split
    · exact ⟨hy, by simp, by assumption, le_refl 1, monthLength_pos (by simp) (by assumption)⟩
    · have hjanuary : 1 ≤ 12 := by decide
      exact ⟨by simp, le_refl 1, hjanuary, le_refl 1, monthLength_pos (le_refl 1) hjanuary⟩

/-- A number that grows with the days. -/
def rank (d : Day) : ℕ := d.year * 512 + d.month * 32 + d.day

theorem before_iff_rank (ha : a.Valid) (hb : b.Valid) : a.Before b ↔ a.rank < b.rank := by
  have : monthLength a.year a.month ≤ 31 := monthLength_le ha.month_pos ha.month_le
  have : monthLength b.year b.month ≤ 31 := monthLength_le hb.month_pos hb.month_le
  have := ha.month_le
  have := ha.day_le
  have := hb.month_le
  have := hb.day_le
  unfold Before rank
  omega

theorem before_next (d : Day) : d.Before d.next := by
  unfold Day.next Before
  split
  · simp
  · split <;> simp

/-- No day lies between a day and the next. -/
theorem next_le (ha : a.Valid) (hb : b.Valid) (h : a.Before b) : a.next = b ∨ a.next.Before b := by
  obtain ⟨ya, ma, da⟩ := a
  obtain ⟨yb, mb, db⟩ := b
  have hb1 := hb.month_pos
  have hb2 := hb.day_pos
  have hb3 := hb.day_le
  have hb4 := hb.month_le
  have ha1 := ha.month_le
  simp only [Before, Day.next] at *
  by_cases hday : da < monthLength ya ma
  · rw [if_pos hday]
    simp only [Day.mk.injEq]
    omega
  · have hlast : ¬(ya = yb ∧ ma = mb ∧ da < db) := by
      rintro ⟨rfl, rfl, hlt⟩
      omega
    rw [if_neg hday]
    by_cases hmonth : ma < 12
    · rw [if_pos hmonth]
      simp only [Day.mk.injEq]
      omega
    · rw [if_neg hmonth]
      simp only [Day.mk.injEq]
      omega

/-- Later days come after some number of days. -/
theorem exists_iterate (ha : a.Valid) (hb : b.Valid) (h : a.Before b) : ∃ n, Day.next^[n + 1] a = b := by
  generalize hk : b.rank - a.rank = k
  induction k using Nat.strong_induction_on generalizing a with
  | _ k ih =>
    rcases next_le ha hb h with heq | hbefore
    · exact ⟨0, heq⟩
    · have hstep := (before_iff_rank ha ha.next).mp (before_next a)
      have hrest := (before_iff_rank ha.next hb).mp hbefore
      obtain ⟨n, hn⟩ := ih (b.rank - a.next.rank) (by omega) ha.next hbefore rfl
      exact ⟨n + 1, hn⟩

theorem Valid.iterate (h : d.Valid) (n : ℕ) : (Day.next^[n] d).Valid := by
  induction n with
  | zero => exact h
  | succ n ih =>
    rw [Function.iterate_succ_apply']
    exact ih.next

end Day

/-! ## Numberings -/

/-- A number for each day, one more for the next. -/
def IsNumbering (f : Day → ℤ) : Prop := ∀ d : Day, d.Valid → f d.next = f d + 1

variable {f : Day → ℤ} {a b : Day}

theorem IsNumbering.iterate (hf : IsNumbering f) (ha : a.Valid) (n : ℕ) : f (Day.next^[n] a) = f a + n := by
  induction n with
  | zero => simp
  | succ n ih =>
    rw [Function.iterate_succ_apply', hf _ (ha.iterate n), ih]
    omega

theorem IsNumbering.lt_of_before (hf : IsNumbering f) (ha : a.Valid) (hb : b.Valid) (h : a.Before b) : f a < f b := by
  obtain ⟨n, rfl⟩ := Day.exists_iterate ha hb h
  rw [hf.iterate ha]
  push_cast
  omega

theorem Day.trichotomy (a b : Day) : a.Before b ∨ a = b ∨ b.Before a := by
  obtain ⟨ya, ma, da⟩ := a
  obtain ⟨yb, mb, db⟩ := b
  simp only [Day.Before, Day.mk.injEq]
  omega

/-- A numbering agrees with the order of the days. -/
theorem IsNumbering.lt_iff (hf : IsNumbering f) (ha : a.Valid) (hb : b.Valid) : f a < f b ↔ a.Before b := by
  refine ⟨fun h => ?_, hf.lt_of_before ha hb⟩
  rcases Day.trichotomy a b with hab | rfl | hba
  · exact hab
  · exact absurd h (lt_irrefl _)
  · exact absurd (hf.lt_of_before hb ha hba) (not_lt_of_gt h)

/-- Its differences count days. -/
theorem IsNumbering.sub_eq_iff (hf : IsNumbering f) (ha : a.Valid) (hb : b.Valid) (n : ℕ) :
    f b - f a = n ↔ Day.next^[n] a = b := by
  constructor
  · intro h
    have hn := hf.iterate ha n
    have heq : f (Day.next^[n] a) = f b := by omega
    rcases Day.trichotomy (Day.next^[n] a) b with hab | hab | hba
    · exact absurd heq (hf.lt_of_before (ha.iterate n) hb hab).ne
    · exact hab
    · exact absurd heq (hf.lt_of_before hb (ha.iterate n) hba).ne'
  · rintro rfl
    rw [hf.iterate ha]
    omega

end Calendar
