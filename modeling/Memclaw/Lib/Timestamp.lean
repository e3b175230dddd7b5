import Mathlib.Algebra.Order.Ring.Int
import Mathlib.Algebra.BigOperators.Group.List.Basic
import Mathlib.Tactic.Common
import Memclaw.Lib.FixedWidth

/-! Aware datetimes with any offset: `isoformat()` and the extended format of
`datetime.fromisoformat`, which reads it back. -/

namespace Memclaw.Lib

/-- The fields of the wall clock, and the microseconds by which it is ahead of UTC. -/
structure Timestamp where
  clock : DateTime
  offset : ℤ
  bound : offset.natAbs < 86400000000
deriving DecidableEq

def daysBeforeYear (year : ℕ) : ℕ :=
  (year - 1) * 365 + (year - 1) / 4 - (year - 1) / 100 + (year - 1) / 400

def daysBeforeMonth (year month : ℕ) : ℕ :=
  ((List.range (month - 1)).map fun m => daysInMonth year (m + 1)).sum

def DateTime.micro (t : DateTime) : ℕ :=
  let days := daysBeforeYear t.year + daysBeforeMonth t.year t.month + t.day
  (((days * 24 + t.hour) * 60 + t.minute) * 60 + t.second) * 1000000 + t.microsecond

namespace Timestamp

def utc (t : DateTime) : Timestamp := ⟨t, 0, by decide⟩

def instant (t : Timestamp) : ℤ := t.clock.micro - t.offset

def fraction (microsecond : ℕ) : List Char :=
  if microsecond = 0 then [] else '.' :: padDigits 10 6 microsecond

/-- The seconds are left out where they and the microseconds are zero. -/
def formatOffset (offset : ℤ) : List Char :=
  let whole := offset.natAbs / 1000000
  let microsecond := offset.natAbs % 1000000
  let seconds :=
    if whole % 60 = 0 ∧ microsecond = 0 then []
    else ':' :: (padDigits 10 2 (whole % 60) ++ fraction microsecond)
  (if offset < 0 then '-' else '+') ::
    (padDigits 10 2 (whole / 3600) ++ ':' :: (padDigits 10 2 (whole / 60 % 60) ++ seconds))

def isoformat (t : Timestamp) : List Char :=
  t.clock.seconds ++ fraction t.clock.microsecond ++ formatOffset t.offset

def decimals (cs : List Char) : ℕ := cs.foldl (fun n c => 10 * n + (c.toNat - 48)) 0

def scanDigits (width : ℕ) (cs : List Char) : Option (ℕ × List Char) :=
  if width ≤ cs.length ∧ (cs.take width).all Char.isDigit then
    some (decimals (cs.take width), cs.drop width)
  else none

/-- The digits after a decimal mark; those after the sixth are dropped. -/
def scanFraction (cs : List Char) : Option ℕ :=
  if cs ≠ [] ∧ cs.all Char.isDigit then
    some (decimals (cs.take 6) * 10 ^ (6 - cs.length))
  else none

/-- `HH[:MM[:SS[.ffffff]]]`, the whole of it; what is left out is zero. -/
def scanClock (cs : List Char) : Option (ℕ × ℕ × ℕ × ℕ) :=
  match scanDigits 2 cs with
  | none => none
  | some (hour, []) => some (hour, 0, 0, 0)
  | some (hour, c :: cs) =>
    if c = ':' then
      match scanDigits 2 cs with
      | none => none
      | some (minute, []) => some (hour, minute, 0, 0)
      | some (minute, c :: cs) =>
        if c = ':' then
          match scanDigits 2 cs with
          | none => none
          | some (second, []) => some (hour, minute, second, 0)
          | some (second, c :: cs) =>
            if c = '.' ∨ c = ',' then (scanFraction cs).map (hour, minute, second, ·) else none
        else none
    else none

def scanOffset : List Char → Option (Option ℤ)
  | [] => some none
  | mark :: cs =>
    if mark = 'Z' then
      if cs = [] then some (some 0) else none
    else
      match scanClock cs with
      | none => none
      | some (hour, minute, second, microsecond) =>
        let offset := ((hour * 60 + minute) * 60 + second) * 1000000 + microsecond
        if offset < 86400000000 then
          some (some (if mark = '-' then -(offset : ℤ) else offset))
        else none

def scanDate (cs : List Char) : Option (ℕ × ℕ × ℕ × List Char) :=
  match scanDigits 4 cs with
  | some (year, c :: cs) =>
    if c = '-' then
      match scanDigits 2 cs with
      | some (month, c :: cs) =>
        if c = '-' then (scanDigits 2 cs).map fun (day, cs) => (year, month, day, cs) else none
      | _ => none
    else none
  | _ => none

def startsOffset (c : Char) : Bool := c = '+' || c = '-' || c = 'Z'

def scanTime (cs : List Char) : Option ((ℕ × ℕ × ℕ × ℕ) × Option ℤ) :=
  if cs.tail = [] then some ((0, 0, 0, 0), none)
  else
    match scanClock (cs.tail.takeWhile fun c => !startsOffset c),
        scanOffset (cs.tail.dropWhile fun c => !startsOffset c) with
    | some clock, some offset => some (clock, offset)
    | _, _ => none

def fromisoformat (cs : List Char) : Option (DateTime × Option ℤ) :=
  match scanDate cs with
  | none => none
  | some (year, month, day, cs) =>
    match scanTime cs with
    | none => none
    | some ((hour, minute, second, microsecond), offset) =>
      if h : 1 ≤ year ∧ year ≤ 9999 ∧ 1 ≤ month ∧ month ≤ 12 ∧ 1 ≤ day ∧
          day ≤ daysInMonth year month ∧ hour < 24 ∧ minute < 60 ∧ second < 60 ∧
          microsecond < 1000000 then
        some (⟨year, month, day, hour, minute, second, microsecond, h⟩, offset)
      else none

theorem digit_of_mem {width n : ℕ} {c : Char} (hc : c ∈ padDigits 10 width n) :
    c.isDigit = true := by
  have hdigit : ∀ d < 10, (Nat.digitChar d).isDigit = true := by decide
  obtain ⟨d, hd, rfl⟩ := padDigits_mem (by decide) hc
  exact hdigit d hd

theorem decimals_padDigits {width n : ℕ} (hn : n < 10 ^ width) :
    decimals (padDigits 10 width n) = n :=
  foldl_padDigits (fun c => c.toNat - 48) (by decide) (by decide) hn

theorem scanDigits_append (width : ℕ) {n : ℕ} (hn : n < 10 ^ width) (cs : List Char) :
    scanDigits width (padDigits 10 width n ++ cs) = some (n, cs) := by
  have htake : (padDigits 10 width n ++ cs).take width = padDigits 10 width n :=
    List.take_left' (padDigits_length 10 width n)
  have hdrop : (padDigits 10 width n ++ cs).drop width = cs :=
    List.drop_left' (padDigits_length 10 width n)
  have hlength : width ≤ (padDigits 10 width n ++ cs).length := by simp
  rw [scanDigits, htake, hdrop, decimals_padDigits hn,
    if_pos ⟨hlength, List.all_eq_true.mpr fun c => digit_of_mem⟩]

theorem scanFraction_padDigits {n : ℕ} (hn : n < 10 ^ 6) :
    scanFraction (padDigits 10 6 n) = some n := by
  have hlength : (padDigits 10 6 n).length = 6 := padDigits_length 10 6 n
  have hne : padDigits 10 6 n ≠ [] := List.ne_nil_of_length_pos (by rw [hlength]; decide)
  rw [scanFraction, if_pos ⟨hne, List.all_eq_true.mpr fun c => digit_of_mem⟩, hlength,
    List.take_of_length_le hlength.le, decimals_padDigits hn, Nat.sub_self, pow_zero, Nat.mul_one]

section Clock

variable {hour minute second microsecond : ℕ}

theorem scanClock_short (hhour : hour < 100) (hminute : minute < 100) :
    scanClock (padDigits 10 2 hour ++ ':' :: padDigits 10 2 minute) =
      some (hour, minute, 0, 0) := by
  have hscan := scanDigits_append 2 hminute []
  rw [List.append_nil] at hscan
  rw [scanClock, scanDigits_append 2 hhour]
  dsimp only
  rw [if_pos rfl, hscan]

theorem scanClock_full (hhour : hour < 100) (hminute : minute < 100) (hsecond : second < 100)
    (hmicrosecond : microsecond < 10 ^ 6) :
    scanClock (padDigits 10 2 hour ++ ':' :: (padDigits 10 2 minute ++
      ':' :: (padDigits 10 2 second ++ fraction microsecond))) =
        some (hour, minute, second, microsecond) := by
  rw [scanClock, scanDigits_append 2 hhour]
  dsimp only
  rw [if_pos rfl, scanDigits_append 2 hminute]
  dsimp only
  rw [if_pos rfl, scanDigits_append 2 hsecond]
  unfold fraction
  split_ifs with hzero
  · rw [hzero]
  · dsimp only
    rw [if_pos (Or.inl rfl), scanFraction_padDigits hmicrosecond]
    rfl

end Clock

theorem scanOffset_formatOffset {offset : ℤ} (hbound : offset.natAbs < 86400000000) :
    scanOffset (formatOffset offset) = some (some offset) := by
  obtain ⟨total, htotal⟩ : ∃ total, total = offset.natAbs := ⟨_, rfl⟩
  have hclock : ∃ hour minute second microsecond, scanClock (formatOffset offset).tail =
      some (hour, minute, second, microsecond) ∧
      ((hour * 60 + minute) * 60 + second) * 1000000 + microsecond = total := by
    rw [formatOffset, List.tail_cons, ← htotal]
    split_ifs with hshort
    · rw [List.append_nil]
      exact ⟨_, _, _, _, scanClock_short (by omega) (by omega), by omega⟩
    · exact ⟨_, _, _, _, scanClock_full (by omega) (by omega) (by omega) (by omega), by omega⟩
  obtain ⟨hour, minute, second, microsecond, hscan, hsum⟩ := hclock
  have hsign : formatOffset offset =
      (if offset < 0 then '-' else '+') :: (formatOffset offset).tail := rfl
  rw [hsign, scanOffset, hscan]
  dsimp only
  rw [if_neg (by split_ifs <;> decide), hsum, if_pos (by omega)]
  split_ifs with hneg hmark hmark
  · congr 2
    omega
  · exact absurd rfl hmark
  · exact absurd hmark (by decide)
  · congr 2
    omega

theorem seconds_append (t : DateTime) (cs : List Char) : t.seconds ++ cs =
    padDigits 10 4 t.year ++ '-' :: (padDigits 10 2 t.month ++ '-' :: (padDigits 10 2 t.day ++
      'T' :: (padDigits 10 2 t.hour ++ ':' :: (padDigits 10 2 t.minute ++
        ':' :: (padDigits 10 2 t.second ++ cs))))) := by
  simp only [DateTime.seconds, List.append_assoc, List.cons_append]

theorem not_startsOffset_of_digit {c : Char} (h : c.isDigit = true) : startsOffset c = false := by
  rw [startsOffset]
  simp only [Bool.or_eq_false_iff, decide_eq_false_iff_not]
  refine ⟨⟨?_, ?_⟩, ?_⟩ <;> (rintro rfl; exact absurd h (by decide))

theorem not_startsOffset_of_mem_fraction {microsecond : ℕ} {c : Char}
    (hc : c ∈ fraction microsecond) : startsOffset c = false := by
  unfold fraction at hc
  split_ifs at hc
  · exact absurd hc List.not_mem_nil
  · rcases List.mem_cons.mp hc with rfl | hc
    · decide
    · exact not_startsOffset_of_digit (digit_of_mem hc)

theorem not_startsOffset_of_mem_clock {hour minute second microsecond : ℕ} {c : Char}
    (hc : c ∈ padDigits 10 2 hour ++ ':' :: (padDigits 10 2 minute ++
      ':' :: (padDigits 10 2 second ++ fraction microsecond))) : startsOffset c = false := by
  simp only [List.mem_append, List.mem_cons] at hc
  rcases hc with hc | rfl | hc | rfl | hc | hc
  · exact not_startsOffset_of_digit (digit_of_mem hc)
  · decide
  · exact not_startsOffset_of_digit (digit_of_mem hc)
  · decide
  · exact not_startsOffset_of_digit (digit_of_mem hc)
  · exact not_startsOffset_of_mem_fraction hc

/-- What `isoformat` writes `fromisoformat` reads back. -/
theorem fromisoformat_isoformat (t : Timestamp) :
    fromisoformat t.isoformat = some (t.clock, some t.offset) := by
  obtain ⟨hyear, hyear', hmonth, hmonth', hday, hday', hhour, hminute, hsecond, hmicro⟩ :=
    t.clock.valid
  have hday'' := hday'.trans (DateTime.daysInMonth_le _ _)
  obtain ⟨mark, digits, hoffset, hmark⟩ : ∃ mark digits, formatOffset t.offset = mark :: digits ∧
      startsOffset mark = true :=
    ⟨_, _, rfl, by split_ifs <;> decide⟩
  have htext : t.isoformat = padDigits 10 4 t.clock.year ++
      '-' :: (padDigits 10 2 t.clock.month ++ '-' :: (padDigits 10 2 t.clock.day ++
        'T' :: ((padDigits 10 2 t.clock.hour ++ ':' :: (padDigits 10 2 t.clock.minute ++
          ':' :: (padDigits 10 2 t.clock.second ++ fraction t.clock.microsecond))) ++
            formatOffset t.offset))) := by
    rw [isoformat, List.append_assoc, seconds_append]
    simp only [List.append_assoc, List.cons_append]
  have hdate : ∀ cs, scanDate (padDigits 10 4 t.clock.year ++
      '-' :: (padDigits 10 2 t.clock.month ++ '-' :: (padDigits 10 2 t.clock.day ++ cs))) =
        some (t.clock.year, t.clock.month, t.clock.day, cs) := by
    intro cs
    rw [scanDate, scanDigits_append 4 (by omega)]
    dsimp only
    rw [if_pos rfl, scanDigits_append 2 (by omega)]
    dsimp only
    rw [if_pos rfl, scanDigits_append 2 (by omega)]
    rfl
  have htime : ∀ clock : List Char, (∀ c ∈ clock, startsOffset c = false) →
      scanTime ('T' :: (clock ++ formatOffset t.offset)) =
        (scanClock clock).map fun parts => (parts, some t.offset) := by
    intro clock hclock
    have htake : (clock ++ formatOffset t.offset).takeWhile (fun c => !startsOffset c) = clock := by
      rw [hoffset, List.takeWhile_append_of_pos fun c hc => by rw [hclock c hc]; rfl,
        List.takeWhile_cons_of_neg (by rw [hmark]; decide), List.append_nil]
    have hdrop : (clock ++ formatOffset t.offset).dropWhile (fun c => !startsOffset c) =
        formatOffset t.offset := by
      rw [hoffset, List.dropWhile_append_of_pos fun c hc => by rw [hclock c hc]; rfl,
        List.dropWhile_cons_of_neg (by rw [hmark]; decide)]
    have hne : clock ++ formatOffset t.offset ≠ [] := by
      rw [hoffset]
      exact List.append_ne_nil_of_right_ne_nil _ (List.cons_ne_nil _ _)
    rw [scanTime, List.tail_cons, if_neg hne, htake, hdrop, scanOffset_formatOffset t.bound]
    cases scanClock clock <;> rfl
  rw [htext, fromisoformat, hdate]
  dsimp only
  rw [htime _ fun c => not_startsOffset_of_mem_clock,
    scanClock_full (by omega) (by omega) (by omega) hmicro]
  exact dif_pos t.clock.valid

end Timestamp

end Memclaw.Lib
