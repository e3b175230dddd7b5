import Mathlib.Data.Char
import Mathlib.Data.List.Lex
import Mathlib.Data.Nat.Find
import Memclaw.Lib.Timestamp

/-! Dates by their ordinals: `date.toordinal()` and back, over the years 1 to 9999, and datetimes
moved by whole days or read off a count of microseconds. -/

namespace Memclaw.Lib

structure Date where
  year : ℕ
  month : ℕ
  day : ℕ
  valid : 1 ≤ year ∧ year ≤ 9999 ∧ 1 ≤ month ∧ month ≤ 12 ∧ 1 ≤ day ∧ day ≤ daysInMonth year month
deriving DecidableEq

namespace Date

def toordinal (d : Date) : ℕ := daysBeforeYear d.year + daysBeforeMonth d.year d.month + d.day

instance : LE Date := ⟨fun d e => d.toordinal ≤ e.toordinal⟩

def isoformat (d : Date) : List Char :=
  padDigits 10 4 d.year ++ '-' :: (padDigits 10 2 d.month ++ '-' :: padDigits 10 2 d.day)

def maxOrdinal : ℕ := 3652059

end Date

def lastBefore (start : ℕ → ℕ) (bound n : ℕ) : ℕ :=
  Nat.findGreatest (fun place => start place < n) bound

section LastBefore

variable {start : ℕ → ℕ} {bound n : ℕ}

theorem lastBefore_pos (hbound : 1 ≤ bound) (hone : start 1 < n) : 1 ≤ lastBefore start bound n :=
  Nat.le_findGreatest hbound hone

theorem lastBefore_le : lastBefore start bound n ≤ bound := Nat.findGreatest_le bound

theorem start_lastBefore (hbound : 1 ≤ bound) (hone : start 1 < n) :
    start (lastBefore start bound n) < n := by
  have hspec := Nat.findGreatest_spec (P := fun place => start place < n) hbound hone
  exact hspec

theorem le_start_succ (hend : n ≤ start (bound + 1)) :
    n ≤ start (lastBefore start bound n + 1) := by
  -- What the next place starts at is not before `n`, also where the next place is beyond the bound.
  have hplace : lastBefore start bound n ≤ bound := lastBefore_le
  rcases Nat.lt_or_eq_of_le hplace with hlt | heq
  · by_contra hstart
    have hle : lastBefore start bound n + 1 ≤ lastBefore start bound n :=
      Nat.le_findGreatest hlt (Nat.lt_of_not_le hstart)
    exact absurd hle (Nat.not_succ_le_self _)
  · rw [heq]
    exact hend

end LastBefore

theorem daysBeforeMonth_succ {year month : ℕ} (hmonth : 1 ≤ month) :
    daysBeforeMonth year (month + 1) = daysBeforeMonth year month + daysInMonth year month := by
  obtain ⟨m, rfl⟩ := Nat.exists_eq_add_of_le' hmonth
  unfold daysBeforeMonth
  rw [Nat.add_sub_cancel, Nat.add_sub_cancel, List.range_succ, List.map_append, List.sum_append]
  rfl

theorem daysBeforeMonth_year (year : ℕ) : daysBeforeMonth year 13 = 337 + daysInMonth year 2 := by
  have hrange : List.range 12 = [0, 1, 2, 3, 4, 5, 6, 7, 8, 9, 10, 11] := rfl
  have hlong : ∀ month ∈ [1, 3, 5, 7, 8, 10, 12], daysInMonth year month = 31 := by
    simp [daysInMonth]
  have hshort : ∀ month ∈ [4, 6, 9, 11], daysInMonth year month = 30 := by
    simp [daysInMonth]
  unfold daysBeforeMonth
  rw [hrange]
  simp only [List.map_cons, List.map_nil, List.sum_cons, List.sum_nil, Nat.reduceAdd]
  rw [hlong 1 (by decide), hlong 3 (by decide), hshort 4 (by decide), hlong 5 (by decide),
    hshort 6 (by decide), hlong 7 (by decide), hlong 8 (by decide), hshort 9 (by decide),
    hlong 10 (by decide), hshort 11 (by decide), hlong 12 (by decide)]
  omega

theorem daysBeforeYear_succ {year : ℕ} (hyear : 1 ≤ year) :
    daysBeforeYear (year + 1) = daysBeforeYear year + daysBeforeMonth year 13 := by
  obtain ⟨y, rfl⟩ := Nat.exists_eq_add_of_le' hyear
  have hcentury : y / 100 ≤ y / 4 := Nat.div_le_div_left (by decide) (by decide)
  have hquarter : 100 ∣ y + 1 → 4 ∣ y + 1 := Nat.dvd_trans (by decide)
  have hcycle : 400 ∣ y + 1 → 100 ∣ y + 1 := Nat.dvd_trans (by decide)
  rw [daysBeforeMonth_year, daysInMonth, if_pos rfl]
  unfold daysBeforeYear
  rw [Nat.add_sub_cancel, Nat.add_sub_cancel, Nat.succ_div, Nat.succ_div, Nat.succ_div]
  simp only [← Nat.dvd_iff_mod_eq_zero, ne_eq]
  split_ifs <;> omega

theorem le_daysBeforeYear (n : ℕ) : n ≤ daysBeforeYear (n / 365 + 1 + 1) := by
  unfold daysBeforeYear
  omega

theorem daysBeforeYear_lt {year n : ℕ} (hstart : daysBeforeYear year < n)
    (hn : n ≤ Date.maxOrdinal) : year ≤ 9999 := by
  unfold daysBeforeYear at hstart
  unfold Date.maxOrdinal at hn
  omega

namespace Date

def yearOf (n : ℕ) : ℕ := lastBefore daysBeforeYear (n / 365 + 1) n

def monthOf (n : ℕ) : ℕ := lastBefore (daysBeforeMonth (yearOf n)) 12 (n - daysBeforeYear (yearOf n))

def dayOf (n : ℕ) : ℕ := n - daysBeforeYear (yearOf n) - daysBeforeMonth (yearOf n) (monthOf n)

section Fields

variable {n : ℕ}

theorem daysBeforeYear_yearOf (hn : 1 ≤ n) : daysBeforeYear (yearOf n) < n :=
  start_lastBefore (Nat.succ_pos _) hn

theorem yearOf_pos (hn : 1 ≤ n) : 1 ≤ yearOf n := lastBefore_pos (Nat.succ_pos _) hn

theorem le_daysBeforeMonth (hn : 1 ≤ n) :
    n - daysBeforeYear (yearOf n) ≤ daysBeforeMonth (yearOf n) 13 := by
  have hnext : n ≤ daysBeforeYear (yearOf n + 1) := le_start_succ (le_daysBeforeYear n)
  rw [daysBeforeYear_succ (yearOf_pos hn)] at hnext
  exact Nat.sub_le_iff_le_add'.mpr hnext

theorem monthOf_pos (hn : 1 ≤ n) : 1 ≤ monthOf n :=
  lastBefore_pos (by decide) (Nat.sub_pos_of_lt (daysBeforeYear_yearOf hn))

theorem daysBeforeMonth_monthOf (hn : 1 ≤ n) :
    daysBeforeMonth (yearOf n) (monthOf n) < n - daysBeforeYear (yearOf n) :=
  start_lastBefore (by decide) (Nat.sub_pos_of_lt (daysBeforeYear_yearOf hn))

theorem dayOf_pos (hn : 1 ≤ n) : 1 ≤ dayOf n := Nat.sub_pos_of_lt (daysBeforeMonth_monthOf hn)

theorem dayOf_le (hn : 1 ≤ n) : dayOf n ≤ daysInMonth (yearOf n) (monthOf n) := by
  have hnext : n - daysBeforeYear (yearOf n) ≤ daysBeforeMonth (yearOf n) (monthOf n + 1) :=
    le_start_succ (le_daysBeforeMonth hn)
  rw [daysBeforeMonth_succ (monthOf_pos hn)] at hnext
  exact Nat.sub_le_iff_le_add'.mpr hnext

theorem fields_valid (hn : 1 ≤ n) (hmax : n ≤ maxOrdinal) :
    1 ≤ yearOf n ∧ yearOf n ≤ 9999 ∧ 1 ≤ monthOf n ∧ monthOf n ≤ 12 ∧ 1 ≤ dayOf n ∧
      dayOf n ≤ daysInMonth (yearOf n) (monthOf n) :=
  ⟨yearOf_pos hn, daysBeforeYear_lt (daysBeforeYear_yearOf hn) hmax, monthOf_pos hn,
    lastBefore_le, dayOf_pos hn, dayOf_le hn⟩

end Fields

/-- `date.fromordinal`; nothing where the year is outside 1 to 9999. -/
def fromordinal (n : ℤ) : Option Date :=
  if h : 1 ≤ n.toNat ∧ n.toNat ≤ maxOrdinal then
    some ⟨yearOf n.toNat, monthOf n.toNat, dayOf n.toNat, fields_valid h.1 h.2⟩
  else none

theorem toordinal_fromordinal {n : ℤ} (hn : 1 ≤ n) (hmax : n ≤ maxOrdinal) :
    ∃ d, fromordinal n = some d ∧ (d.toordinal : ℤ) = n := by
  have hrange : 1 ≤ n.toNat ∧ n.toNat ≤ maxOrdinal := by omega
  refine ⟨_, dif_pos hrange, ?_⟩
  have hyear := daysBeforeYear_yearOf hrange.1
  have hmonth := daysBeforeMonth_monthOf hrange.1
  have hsum : daysBeforeYear (yearOf n.toNat) + daysBeforeMonth (yearOf n.toNat) (monthOf n.toNat) +
      dayOf n.toNat = n.toNat := by
    unfold dayOf
    omega
  unfold toordinal
  dsimp only
  rw [hsum]
  exact Int.toNat_of_nonneg (Int.le_trans (by decide) hn)

theorem fromordinal_eq_none {n : ℤ} : fromordinal n = none ↔ n < 1 ∨ maxOrdinal < n := by
  unfold fromordinal
  split_ifs with h
  · constructor
    · intro hsome
      cases hsome
    · omega
  · exact ⟨fun _ => by omega, fun _ => rfl⟩

end Date

namespace DateTime

variable (t : DateTime)

theorem date_valid : 1 ≤ t.year ∧ t.year ≤ 9999 ∧ 1 ≤ t.month ∧ t.month ≤ 12 ∧ 1 ≤ t.day ∧
    t.day ≤ daysInMonth t.year t.month := by
  obtain ⟨hyear, hyear', hmonth, hmonth', hday, hday', -⟩ := t.valid
  exact ⟨hyear, hyear', hmonth, hmonth', hday, hday'⟩

def date : Date := ⟨t.year, t.month, t.day, t.date_valid⟩

theorem onDate_valid (d : Date) : 1 ≤ d.year ∧ d.year ≤ 9999 ∧ 1 ≤ d.month ∧ d.month ≤ 12 ∧
    1 ≤ d.day ∧ d.day ≤ daysInMonth d.year d.month ∧ t.hour < 24 ∧ t.minute < 60 ∧
    t.second < 60 ∧ t.microsecond < 1000000 := by
  obtain ⟨hyear, hyear', hmonth, hmonth', hday, hday'⟩ := d.valid
  obtain ⟨-, -, -, -, -, -, hclock⟩ := t.valid
  exact ⟨hyear, hyear', hmonth, hmonth', hday, hday', hclock⟩

def onDate (d : Date) : DateTime :=
  ⟨d.year, d.month, d.day, t.hour, t.minute, t.second, t.microsecond, t.onDate_valid d⟩

@[simp] theorem date_onDate (d : Date) : (t.onDate d).date = d := rfl

/-- The sum with a timedelta of whole days; nothing where the year leaves 1 to 9999. -/
def addDays (days : ℤ) : Option DateTime :=
  (Date.fromordinal (t.date.toordinal + days)).map t.onDate

variable {t} {days : ℤ}

variable (days) in
theorem addDays_of_le (hmin : 1 ≤ t.date.toordinal + days)
    (hmax : t.date.toordinal + days ≤ Date.maxOrdinal) :
    ∃ u, t.addDays days = some u ∧ (u.date.toordinal : ℤ) = t.date.toordinal + days := by
  obtain ⟨d, hd, hordinal⟩ := Date.toordinal_fromordinal hmin hmax
  refine ⟨t.onDate d, ?_, hordinal⟩
  rw [addDays, hd, Option.map_some]

theorem addDays_eq_none : t.addDays days = none ↔
    t.date.toordinal + days < 1 ∨ Date.maxOrdinal < t.date.toordinal + days := by
  rw [addDays, Option.map_eq_none_iff, Date.fromordinal_eq_none]

theorem ordinal_of_addDays {u : DateTime} (h : t.addDays days = some u) :
    (u.date.toordinal : ℤ) = t.date.toordinal + days ∧ 1 ≤ t.date.toordinal + days ∧
      t.date.toordinal + days ≤ Date.maxOrdinal := by
  -- What the sum is, where there is one.
  have hsome : t.addDays days ≠ none := by
    rw [h]
    exact Option.some_ne_none u
  rw [ne_eq, addDays_eq_none, not_or] at hsome
  have hmin : 1 ≤ t.date.toordinal + days := Int.not_lt.mp hsome.1
  have hmax : t.date.toordinal + days ≤ Date.maxOrdinal := Int.not_lt.mp hsome.2
  obtain ⟨v, hv, hordinal⟩ := addDays_of_le _ hmin hmax
  rw [h] at hv
  rw [Option.some.inj hv]
  exact ⟨hordinal, hmin, hmax⟩

theorem ofMicro_valid (d : Date) (n : ℕ) : 1 ≤ d.year ∧ d.year ≤ 9999 ∧ 1 ≤ d.month ∧
    d.month ≤ 12 ∧ 1 ≤ d.day ∧ d.day ≤ daysInMonth d.year d.month ∧
    n % 86400000000 / 3600000000 < 24 ∧ n % 3600000000 / 60000000 < 60 ∧
    n % 60000000 / 1000000 < 60 ∧ n % 1000000 < 1000000 := by
  obtain ⟨hyear, hyear', hmonth, hmonth', hday, hday'⟩ := d.valid
  refine ⟨hyear, hyear', hmonth, hmonth', hday, hday', ?_, ?_, ?_, ?_⟩ <;> omega

/-- The datetime that is `n` microseconds after the start of the count of `micro`; nothing where
the year is outside 1 to 9999. -/
def ofMicro (n : ℤ) : Option DateTime :=
  (Date.fromordinal (n / 86400000000)).map fun d =>
    ⟨d.year, d.month, d.day, n.toNat % 86400000000 / 3600000000, n.toNat % 3600000000 / 60000000,
      n.toNat % 60000000 / 1000000, n.toNat % 1000000, ofMicro_valid d n.toNat⟩

end DateTime

/-- `timedelta(days=days)`; nothing where it raises `OverflowError`. -/
def timedelta (days : ℤ) : Option ℤ := if days.natAbs ≤ 999999999 then some days else none

theorem timedelta_of_le {n : ℕ} (h : n ≤ 999999999) : timedelta n = some (n : ℤ) := if_pos h

theorem le_of_timedelta {n : ℕ} {delta : ℤ} (h : timedelta n = some delta) :
    n ≤ 999999999 ∧ delta = n := by
  unfold timedelta at h
  split_ifs at h with hn
  exact ⟨hn, (Option.some.inj h).symm⟩

theorem append_lt_append {as bs : List Char} (cs ds : List Char) (hlength : as.length = bs.length)
    (h : as < bs) : as ++ cs < bs ++ ds := by
  induction as generalizing bs with
  | nil =>
    rw [List.length_nil, eq_comm, List.length_eq_zero_iff] at hlength
    rw [hlength] at h
    exact absurd h (List.lt_irrefl [])
  | cons a as ih =>
    cases bs with
    | nil => cases hlength
    | cons b bs =>
      rw [List.cons_append, List.cons_append, List.cons_lt_cons_iff]
      rcases List.cons_lt_cons_iff.mp h with hhead | ⟨hhead, htail⟩
      · exact .inl hhead
      · exact .inr ⟨hhead, ih (Nat.succ.inj hlength) htail⟩

theorem padDigits_lt (width : ℕ) {m n : ℕ} (hn : n < 10 ^ width) (h : m < n) :
    padDigits 10 width m < padDigits 10 width n := by
  have hdigit : ∀ b < 10, ∀ a < b, Nat.digitChar a < Nat.digitChar b := by decide
  induction width generalizing m n with
  | zero =>
    rw [pow_zero, Nat.lt_one_iff] at hn
    exact absurd h (hn ▸ Nat.not_lt_zero m)
  | succ width ih =>
    unfold padDigits
    rcases Nat.lt_or_eq_of_le (Nat.div_le_div_right (c := 10) h.le) with hlt | heq
    · have hquot : n / 10 < 10 ^ width := Nat.div_lt_of_lt_mul (by rwa [pow_succ'] at hn)
      exact append_lt_append _ _ (by rw [padDigits_length, padDigits_length]) (ih hquot hlt)
    · have hrem : m % 10 < n % 10 := by omega
      rw [heq]
      refine List.append_left_lt (List.cons_lt_cons_iff.mpr (.inl ?_))
      exact hdigit _ (Nat.mod_lt n (by decide)) _ hrem

theorem daysBeforeYear_mono {y z : ℕ} (hy : 1 ≤ y) (h : y ≤ z) :
    daysBeforeYear y ≤ daysBeforeYear z := by
  induction z, h using Nat.le_induction with
  | base => exact le_rfl
  | succ z hz ih =>
    rw [daysBeforeYear_succ (hy.trans hz)]
    exact ih.trans (Nat.le_add_right _ _)

theorem daysBeforeMonth_mono {year m n : ℕ} (hm : 1 ≤ m) (h : m ≤ n) :
    daysBeforeMonth year m ≤ daysBeforeMonth year n := by
  induction n, h using Nat.le_induction with
  | base => exact le_rfl
  | succ n hn ih =>
    rw [daysBeforeMonth_succ (hm.trans hn)]
    exact ih.trans (Nat.le_add_right _ _)

namespace Date

variable {d e : Date}

theorem toordinal_le_month :
    d.toordinal ≤ daysBeforeYear d.year + daysBeforeMonth d.year (d.month + 1) := by
  obtain ⟨-, -, hmonth, -, -, hday⟩ := d.valid
  rw [daysBeforeMonth_succ hmonth, ← Nat.add_assoc]
  exact Nat.add_le_add_left hday _

theorem lt_of_year_lt (h : d.year < e.year) : d.toordinal < e.toordinal := by
  obtain ⟨hyear, -, hmonth, hmonth', -, -⟩ := d.valid
  have hlast : daysBeforeMonth d.year (d.month + 1) ≤ daysBeforeMonth d.year 13 :=
    daysBeforeMonth_mono (Nat.succ_pos _) (Nat.succ_le_succ hmonth')
  have hnext : daysBeforeYear (d.year + 1) ≤ daysBeforeYear e.year :=
    daysBeforeYear_mono (Nat.succ_pos _) h
  have hd := d.toordinal_le_month
  have hday := e.valid.2.2.2.2.1
  rw [daysBeforeYear_succ hyear] at hnext
  unfold toordinal at hd ⊢
  omega

theorem lt_of_month_lt (hyear : d.year = e.year) (h : d.month < e.month) :
    d.toordinal < e.toordinal := by
  have hnext : daysBeforeMonth d.year (d.month + 1) ≤ daysBeforeMonth d.year e.month :=
    daysBeforeMonth_mono (Nat.succ_pos _) h
  have hd := d.toordinal_le_month
  have hday := e.valid.2.2.2.2.1
  unfold toordinal at hd ⊢
  rw [← hyear]
  omega

theorem isoformat_lt_or_eq (h : d ≤ e) : d.isoformat < e.isoformat ∨ d.isoformat = e.isoformat := by
  have hle : d.toordinal ≤ e.toordinal := h
  have hfield : ∀ {sep : Char} {front back back' : List Char}, back < back' →
      front ++ sep :: back < front ++ sep :: back' :=
    fun hlt => List.append_left_lt (List.cons_lt_cons_iff.mpr (.inr ⟨rfl, hlt⟩))
  obtain ⟨-, dyear, -, dmonth, -, dday⟩ := d.valid
  obtain ⟨-, eyear, -, emonth, -, eday⟩ := e.valid
  have eday' := eday.trans (DateTime.daysInMonth_le _ _)
  rcases Nat.lt_trichotomy d.year e.year with hyear | hyear | hyear
  · have htext := padDigits_lt 4 (by omega) hyear
    have hlength : (padDigits 10 4 d.year).length = (padDigits 10 4 e.year).length := by
      rw [padDigits_length, padDigits_length]
    exact .inl (append_lt_append _ _ hlength htext)
  · unfold isoformat
    rw [hyear]
    rcases Nat.lt_trichotomy d.month e.month with hmonth | hmonth | hmonth
    · have htext := padDigits_lt 2 (by omega) hmonth
      have hlength : (padDigits 10 2 d.month).length = (padDigits 10 2 e.month).length := by
        rw [padDigits_length, padDigits_length]
      exact .inl (hfield (append_lt_append _ _ hlength htext))
    · rw [hmonth]
      have hday : d.day ≤ e.day := by
        unfold toordinal at hle
        rw [hyear, hmonth] at hle
        exact Nat.le_of_add_le_add_left hle
      rcases Nat.lt_or_eq_of_le hday with hlt | heq
      · exact .inl (hfield (hfield (padDigits_lt 2 (by omega) hlt)))
      · rw [heq]
        exact .inr rfl
    · exact absurd hle (Nat.not_le_of_lt (lt_of_month_lt hyear.symm hmonth))
  · exact absurd hle (Nat.not_le_of_lt (lt_of_year_lt hyear))

theorem isoformat_le (h : d ≤ e) : d.isoformat ≤ e.isoformat := le_iff_lt_or_eq.mpr (isoformat_lt_or_eq h)

end Date

end Memclaw.Lib
