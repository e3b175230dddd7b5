import Memclaw.Lib.Fallible
import Memclaw.Search.TemporalDefs

/-! When a temporal phrase is answered: the number has to be one that `int` and `timedelta`
take, and the range around its day has to stay within the years 1 to 9999. -/

namespace Memclaw.Search

open Memclaw.Lib

variable {chars : RegexChars} {lower : String → String}

theorem orRaise_some {α : Type} {error : TemporalError} {found : Option α} {a : α}
    (h : found = some a) : orRaise error found = .ok a := by
  rw [h, orRaise]

theorem orRaise_ok {α : Type} {error : TemporalError} {found : Option α} {a : α}
    (h : orRaise error found = .ok a) : found = some a := by
  cases found with
  | none => cases h
  | some b => rw [Except.ok.inj h]

def targetOrdinal (ref : DateTime) (isFuture : Bool) (n : ℕ) (unit : List Char) : ℤ :=
  ref.date.toordinal + (if isFuture then (n * unitDays unit : ℕ) else -(n * unitDays unit : ℕ) : ℤ)

/-- The timedelta exists, and the padded range is within the calendar. -/
structure Fits (ref : DateTime) (isFuture : Bool) (n : ℕ) (unit : List Char) : Prop where
  delta : n * unitDays unit ≤ 999999999
  first : 1 ≤ targetOrdinal ref isFuture n unit - unitPad unit
  last : targetOrdinal ref isFuture n unit + unitPad unit ≤ Date.maxOrdinal

def DateRange.Ordered (range : DateRange) : Prop :=
  ∃ first last : Date, first ≤ last ∧ range = ⟨first.isoformat, last.isoformat⟩ ∧
    range.startDate ≤ range.endDate

def Answered (outcome : Except TemporalError (Option DateRange)) : Prop :=
  outcome = .ok none ∨ ∃ range, outcome = .ok (some range) ∧ range.Ordered

theorem unitPad_le (unit : List Char) : unitPad unit ≤ 14 := by
  have hpads : ∀ entry ∈ padDays, entry.2 ≤ 14 := by decide
  unfold unitPad
  cases hlookup : padDays.lookup (String.ofList unit) with
  | none => decide
  | some pad =>
    obtain ⟨before, after, hsplit, -⟩ := List.lookup_eq_some_iff.mp hlookup
    refine hpads (String.ofList unit, pad) ?_
    rw [hsplit]
    exact List.mem_append_right _ List.mem_cons_self

section Range

variable {ref : DateTime} {isFuture : Bool} {n : ℕ} {unit : List Char}

theorem rangeAround_of_fits (h : Fits ref isFuture n unit) :
    ∃ range, rangeAround ref isFuture n unit = .ok range ∧ range.Ordered := by
  obtain ⟨hdelta, hfirst, hlast⟩ := h
  have hpad : unitPad unit ≤ 999999999 := (unitPad_le unit).trans (by decide)
  obtain ⟨target, htarget, hordinal⟩ :=
    DateTime.addDays_of_le (t := ref)
      (if isFuture then (n * unitDays unit : ℕ) else -(n * unitDays unit : ℕ))
      (by unfold targetOrdinal at hfirst; omega) (by unfold targetOrdinal at hlast; omega)
  change (target.date.toordinal : ℤ) = targetOrdinal ref isFuture n unit at hordinal
  obtain ⟨start, hstart, hstartOrdinal⟩ :=
    DateTime.addDays_of_le (t := target) (-unitPad unit) (by omega) (by omega)
  obtain ⟨stop, hstop, hstopOrdinal⟩ :=
    DateTime.addDays_of_le (t := target) (unitPad unit) (by omega) (by omega)
  have hle : start.date ≤ stop.date := by
    change start.date.toordinal ≤ stop.date.toordinal
    omega
  refine ⟨⟨start.date.isoformat, stop.date.isoformat⟩, ?_, start.date, stop.date, hle, rfl,
    Date.isoformat_le hle⟩
  unfold rangeAround
  dsimp only
  rw [bind_of_ok (orRaise_some (timedelta_of_le hdelta)), bind_of_ok (orRaise_some htarget),
    bind_of_ok (orRaise_some (timedelta_of_le hpad)), bind_of_ok (orRaise_some hstart),
    bind_of_ok (orRaise_some hstop)]

theorem fits_of_rangeAround {range : DateRange} (h : rangeAround ref isFuture n unit = .ok range) :
    Fits ref isFuture n unit := by
  unfold rangeAround at h
  obtain ⟨delta, hdelta, h⟩ := ok_of_bind h
  obtain ⟨target, htarget, h⟩ := ok_of_bind h
  obtain ⟨pad, hpad, h⟩ := ok_of_bind h
  obtain ⟨start, hstart, h⟩ := ok_of_bind h
  obtain ⟨stop, hstop, -⟩ := ok_of_bind h
  obtain ⟨hdays, rfl⟩ := le_of_timedelta (orRaise_ok hdelta)
  obtain ⟨-, rfl⟩ := le_of_timedelta (orRaise_ok hpad)
  obtain ⟨htarget, -⟩ := DateTime.ordinal_of_addDays (orRaise_ok htarget)
  obtain ⟨-, hfirst, -⟩ := DateTime.ordinal_of_addDays (orRaise_ok hstart)
  obtain ⟨-, -, hlast⟩ := DateTime.ordinal_of_addDays (orRaise_ok hstop)
  change (target.date.toordinal : ℤ) = targetOrdinal ref isFuture n unit at htarget
  rw [htarget] at hfirst hlast
  exact ⟨hdays, hfirst, hlast⟩

end Range

def goesOn (number : Except TemporalError (Option ℕ)) : Bool :=
  number = .ok none || number = .ok (some 0)

/-- The first pattern that the query matches with a number other than zero, and its match. -/
def decidingPhrase (chars : RegexChars) (q : List Char) (patterns : List PhrasePattern) :
    Option (PhrasePattern × Regex.Match) :=
  patterns.findSome? fun p =>
    ((p.pattern.search chars q).filter fun m => !goesOn (p.number chars m q)).map fun m => (p, m)

section Loop

variable {ref : DateTime} {q : List Char}

variable (chars ref q) in
theorem scanPatterns_cases (patterns : List PhrasePattern) :
    (decidingPhrase chars q patterns = none ∧ scanPatterns chars ref q patterns = .ok none) ∨
    (∃ p m raised, decidingPhrase chars q patterns = some (p, m) ∧
      p.number chars m q = .error raised ∧ scanPatterns chars ref q patterns = .error raised) ∨
    (∃ p m n, decidingPhrase chars q patterns = some (p, m) ∧ p.number chars m q = .ok (some n) ∧
      scanPatterns chars ref q patterns = (rangeAround ref p.isFuture n (p.unit m q)).map some) := by
  induction patterns with
  | nil => exact .inl ⟨rfl, rfl⟩
  | cons p patterns ih =>
    unfold decidingPhrase at ih ⊢
    rw [List.findSome?_cons, scanPatterns]
    cases hsearch : p.pattern.search chars q with
    | none => exact ih
    | some m =>
      dsimp only
      cases hnumber : p.number chars m q with
      | error raised =>
        have hgoesOn : goesOn (p.number chars m q) = false := by
          rw [hnumber]
          rfl
        rw [Option.filter_some, hgoesOn]
        exact .inr (.inl ⟨p, m, raised, rfl, hnumber, rfl⟩)
      | ok found =>
        cases found with
        | none =>
          have hgoesOn : goesOn (p.number chars m q) = true := by
            rw [hnumber]
            rfl
          rw [Option.filter_some, hgoesOn]
          exact ih
        | some n =>
          dsimp only
          by_cases hzero : n = 0
          · have hgoesOn : goesOn (p.number chars m q) = true := by
              rw [hnumber, hzero]
              rfl
            rw [Option.filter_some, hgoesOn, if_pos hzero]
            exact ih
          · have hgoesOn : goesOn (p.number chars m q) = false := by
              rw [hnumber, goesOn]
              simp [hzero]
            rw [Option.filter_some, hgoesOn, if_neg hzero]
            exact .inr (.inr ⟨p, m, n, rfl, hnumber, rfl⟩)

end Loop

/-- The number of the phrase that decides is one that `int` takes, and its range fits. -/
def Answerable (chars : RegexChars) (ref : DateTime) (q : List Char) : Prop :=
  ∀ p m, decidingPhrase chars q temporalDateRangePatterns = some (p, m) →
    ∃ n, p.number chars m q = .ok (some n) ∧ Fits ref p.isFuture n (p.unit m q)

theorem answered_iff (ref : DateTime) (q : List Char) :
    Answered (scanPatterns chars ref q temporalDateRangePatterns) ↔ Answerable chars ref q := by
  rcases scanPatterns_cases chars ref q temporalDateRangePatterns with
    ⟨hdecides, hscan⟩ | ⟨p, m, raised, hdecides, hnumber, hscan⟩ | ⟨p, m, n, hdecides, hnumber, hscan⟩
  · constructor
    · intro _ p m hphrase
      rw [hdecides] at hphrase
      cases hphrase
    · exact fun _ => .inl hscan
  · constructor
    · rintro (hnone | ⟨range, hrange, -⟩)
      · rw [hscan] at hnone
        cases hnone
      · rw [hscan] at hrange
        cases hrange
    · intro h
      obtain ⟨n, hn, -⟩ := h p m hdecides
      rw [hnumber] at hn
      cases hn
  · constructor
    · intro h p' m' hphrase
      rw [hdecides] at hphrase
      cases hphrase
      refine ⟨n, hnumber, ?_⟩
      cases hrange : rangeAround ref p.isFuture n (p.unit m q) with
      | error raised =>
        rw [hscan, hrange] at h
        rcases h with hnone | ⟨range, hok, -⟩
        · cases hnone
        · cases hok
      | ok range => exact fits_of_rangeAround hrange
    · intro h
      obtain ⟨n', hn', hfits⟩ := h p m hdecides
      rw [hnumber] at hn'
      cases hn'
      obtain ⟨range, hrange, hordered⟩ := rangeAround_of_fits hfits
      refine .inr ⟨range, ?_, hordered⟩
      rw [hscan, hrange]
      rfl

theorem answered_of_ok {ref : DateTime} {q : List Char} {found : Option DateRange}
    (h : scanPatterns chars ref q temporalDateRangePatterns = .ok found) :
    Answered (scanPatterns chars ref q temporalDateRangePatterns) := by
  rcases scanPatterns_cases chars ref q temporalDateRangePatterns with
    ⟨-, hscan⟩ | ⟨p, m, raised, -, -, hscan⟩ | ⟨p, m, n, -, -, hscan⟩
  · exact .inl hscan
  · rw [hscan] at h
    cases h
  · rw [hscan] at h ⊢
    cases hrange : rangeAround ref p.isFuture n (p.unit m q) with
    | error raised =>
      rw [hrange] at h
      cases h
    | ok range =>
      obtain ⟨range', hrange', hordered⟩ := rangeAround_of_fits (fits_of_rangeAround hrange)
      rw [hrange] at hrange'
      cases hrange'
      exact .inr ⟨range, rfl, hordered⟩

/-- The number of days, weeks or months after "last", where it decides the window, is one that
`int` takes. -/
def HintReadable (chars : RegexChars) (q : List Char) : Prop :=
  (fixedHints.find? fun hint => (Pattern.search chars ⟨hint.1, .none⟩ q).isSome) = none →
    ∀ m, numberedHint.search chars q = some m → (intOfDigits chars (groupText m q 1)).isSome

theorem extractTemporalHint_iff (query : String) :
    (∃ window, extractTemporalHint chars lower query = .ok window) ↔
      HintReadable chars (lower query).toList := by
  unfold extractTemporalHint HintReadable
  dsimp only
  cases fixedHints.find? fun hint =>
      (Pattern.search chars ⟨hint.1, .none⟩ (lower query).toList).isSome with
  | some hint => exact ⟨fun _ hnone => (by cases hnone), fun _ => ⟨_, rfl⟩⟩
  | none =>
    cases numberedHint.search chars (lower query).toList with
    | none => exact ⟨fun _ _ m hm => (by cases hm), fun _ => ⟨_, rfl⟩⟩
    | some m =>
      constructor
      · rintro ⟨window, hwindow⟩ - m' hm'
        cases hm'
        obtain ⟨n, hn, -⟩ := ok_of_bind hwindow
        rw [orRaise_ok hn, Option.isSome_some]
      · intro h
        obtain ⟨n, hn⟩ := Option.isSome_iff_exists.mp (h rfl m rfl)
        exact ⟨_, bind_of_ok (orRaise_some hn) _⟩

/-- The range is answered on exactly the answerable queries, and the step ends on those of them
whose window can be read as well. -/
theorem temporal_phrase_answered_iff (chars : RegexChars) (lower : String → String)
    (now : DateTime) (query : String) :
    (∀ reference, Answered (extractTemporalDateRange chars lower now query reference) ↔
      Answerable chars (reference.getD now) (lower query).toList) ∧
    ∀ validAt, (∃ data, executeTemporalHint chars lower now query validAt = .ok data) ↔
      HintReadable chars (lower query).toList ∧
        Answerable chars (validAt.getD now) (lower query).toList := by
  refine ⟨fun reference => answered_iff _ _, fun validAt => ?_⟩
  rw [← extractTemporalHint_iff, ← answered_iff]
  constructor
  · rintro ⟨data, hdata⟩
    obtain ⟨window, hwindow, hdata⟩ := ok_of_bind hdata
    obtain ⟨range, hrange, -⟩ := ok_of_bind hdata
    exact ⟨⟨window, hwindow⟩, answered_of_ok hrange⟩
  · rintro ⟨⟨window, hwindow⟩, hanswered⟩
    have hrange : ∃ range, extractTemporalDateRange chars lower now query (some (validAt.getD now)) =
        .ok range := by
      rcases hanswered with hnone | ⟨range, hsome, -⟩
      · exact ⟨none, hnone⟩
      · exact ⟨some range, hsome⟩
    obtain ⟨range, hrange⟩ := hrange
    refine ⟨⟨window, range⟩, ?_⟩
    unfold executeTemporalHint
    rw [bind_of_ok hwindow, bind_of_ok hrange]

/-- Three thousand years before 2026 there is no date. -/
theorem not_answered_years_ago :
    let noon : DateTime := ⟨2026, 5, 15, 12, 0, 0, 0, by decide⟩
    let lower := fun s : String => String.ofList (s.toList.map Char.toLower)
    ¬ Answered (extractTemporalDateRange RegexChars.ascii lower noon "3000 years ago" none) ∧
      (executeTemporalHint RegexChars.ascii lower noon "3000 years ago" none).toOption.isNone := by
  intro noon lower
  have hraised : extractTemporalDateRange RegexChars.ascii lower noon "3000 years ago" none =
      .error .overflowError := by
    decide +kernel
  constructor
  · rw [hraised]
    rintro (hnone | ⟨range, hrange, -⟩)
    · cases hnone
    · cases hrange
  · cases hexecuted : executeTemporalHint RegexChars.ascii lower noon "3000 years ago" none with
    | error raised => rfl
    | ok data =>
      obtain ⟨window, -, hdata⟩ := ok_of_bind hexecuted
      obtain ⟨range, hrange, -⟩ := ok_of_bind hdata
      cases hraised.symm.trans hrange

end Memclaw.Search
