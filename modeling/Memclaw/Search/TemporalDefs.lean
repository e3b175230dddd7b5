import Mathlib.Data.List.DropRight
import Mathlib.Data.List.Infix
import Memclaw.Lib.Calendar
import Memclaw.Lib.RegexDefs

/-! Temporal phrases of a query: the window of `_extract_temporal_hint`, the date range of
`_extract_temporal_date_range`, and the search step that runs both. -/

namespace Memclaw.Search

open Memclaw.Lib

inductive TemporalError
  | valueError
  | overflowError
deriving DecidableEq

def orRaise {α : Type} (error : TemporalError) : Option α → Except TemporalError α
  | some a => .ok a
  | none => .error error

variable (chars : RegexChars) (lower : String → String)

/-- `int(digits)` of a text that `\d+` matched; nothing beyond the 4300 digits that it takes. -/
def intOfDigits (digits : List Char) : Option ℕ :=
  if digits.length ≤ 4300 then
    (digits.mapM chars.decimal).map fun values => values.foldl (fun n d => 10 * n + d) 0
  else none

def groupText (m : Regex.Match) (text : List Char) (n : ℕ) : List Char :=
  match m.span n with
  | some (start, stop) => (text.drop start).take (stop - start)
  | none => []

def fixedHints : List (String × ℕ) :=
  [(r"\b(today|this morning|tonight)\b", 1), (r"\b(yesterday)\b", 2), (r"\b(last few days)\b", 5),
    (r"\b(this week|past week)\b", 7), (r"\b(last week)\b", 14), (r"\b(this month|past month)\b", 30),
    (r"\b(last month)\b", 60), (r"\b(this quarter)\b", 90), (r"\b(this year)\b", 365),
    (r"\b(last year)\b", 730)]

def numberedHint : Pattern := ⟨r"\blast\s+(\d+)\s+(day|week|month)s?\b", .none⟩

def hintDays (n : ℕ) (unit : List Char) : Option ℕ :=
  if n = 0 then none
  else if unit = "day".toList then some (min n 365)
  else if unit = "week".toList then some (min (n * 7) 365)
  else if unit = "month".toList then some (min (n * 30) 365)
  else none

def extractTemporalHint (query : String) : Except TemporalError (Option ℕ) :=
  let q := (lower query).toList
  match fixedHints.find? fun hint => (Pattern.search chars ⟨hint.1, .none⟩ q).isSome with
  | some hint => .ok (some hint.2)
  | none =>
    match numberedHint.search chars q with
    | none => .ok none
    | some m => do
      let n ← orRaise .valueError (intOfDigits chars (groupText m q 1))
      .ok (hintDays n (groupText m q 2))

def wordToNumber : List (String × ℕ) :=
  [("one", 1), ("a", 1), ("an", 1), ("two", 2), ("couple", 2), ("three", 3), ("few", 3),
    ("four", 4), ("five", 5), ("six", 6), ("seven", 7), ("eight", 8), ("nine", 9), ("ten", 10),
    ("eleven", 11), ("twelve", 12)]

structure PhrasePattern where
  source : String
  isFuture : Bool

def temporalDateRangePatterns : List PhrasePattern :=
  [⟨r"a\s+(?P<word>couple|few)\s+(?:of\s+)?(?P<unit>days?|weeks?|months?|years?)\s+(?P<dir>ago|back)",
      false⟩,
    ⟨r"(?P<word>one|two|three|four|five|six|seven|eight|nine|ten|eleven|twelve)\s+(?P<unit>days?|weeks?|months?|years?)\s+(?P<dir>ago|back)",
      false⟩,
    ⟨r"in\s+(?P<word>one|two|three|four|five|six|seven|eight|nine|ten|eleven|twelve|a|an|couple|few)\s+(?P<unit>days?|weeks?|months?|years?)",
      true⟩,
    ⟨r"(?P<num>\d+)\s+(?P<unit>days?|weeks?|months?|years?)\s+(?P<dir>ago|back)", false⟩,
    ⟨r"last\s+(?P<unit>week|month|year)\b", false⟩]

def unitToDays : List (String × ℕ) := [("day", 1), ("week", 7), ("month", 30), ("year", 365)]

def padDays : List (String × ℕ) := [("day", 0), ("week", 1), ("month", 3), ("year", 14)]

def groupNames : List Char → List (Option (List Char))
  | '\\' :: _ :: rest => groupNames rest
  | '(' :: '?' :: 'P' :: '<' :: rest => some (rest.takeWhile (· ≠ '>')) :: groupNames rest
  | '(' :: '?' :: rest => groupNames rest
  | '(' :: rest => none :: groupNames rest
  | _ :: rest => groupNames rest
  | [] => []

def plainGroups (naming : Bool) : List Char → List Char
  | '(' :: '?' :: 'P' :: '<' :: rest => '(' :: plainGroups true rest
  | c :: rest =>
    if naming then plainGroups (c ≠ '>') rest else c :: plainGroups false rest
  | [] => []

namespace PhrasePattern

variable (p : PhrasePattern)

def pattern : Pattern := ⟨String.ofList (plainGroups false (Regex.asciiChars p.source)), .none⟩

def group (m : Regex.Match) (text : List Char) (name : String) : Option (List Char) :=
  let number := (groupNames (Regex.asciiChars p.source)).findIdx (· = some name.toList) + 1
  (m.span number).map fun _ => groupText m text number

def unit (m : Regex.Match) (text : List Char) : List Char :=
  ((p.group m text "unit").getD []).rdropWhile (· = 's')

def number (m : Regex.Match) (text : List Char) : Except TemporalError (Option ℕ) :=
  match p.group m text "num" with
  | some digits => (orRaise .valueError (intOfDigits chars digits)).map some
  | none =>
    match p.group m text "word" with
    | some word => .ok (some ((wordToNumber.lookup (String.ofList word)).getD 0))
    | none =>
      if "last".toList <:+: Regex.asciiChars p.source then .ok (some 1) else .ok none

end PhrasePattern

structure DateRange where
  startDate : List Char
  endDate : List Char
deriving DecidableEq

def unitDays (unit : List Char) : ℕ := (unitToDays.lookup (String.ofList unit)).getD 1

def unitPad (unit : List Char) : ℕ := (padDays.lookup (String.ofList unit)).getD 3

def rangeAround (ref : DateTime) (isFuture : Bool) (n : ℕ) (unit : List Char) :
    Except TemporalError DateRange := do
  let daysOffset := n * unitDays unit
  let delta ← orRaise .overflowError (timedelta daysOffset)
  let target ← orRaise .overflowError (ref.addDays (if isFuture then delta else -delta))
  let pad ← orRaise .overflowError (timedelta (unitPad unit))
  let start ← orRaise .overflowError (target.addDays (-pad))
  let stop ← orRaise .overflowError (target.addDays pad)
  .ok ⟨start.date.isoformat, stop.date.isoformat⟩

def scanPatterns (ref : DateTime) (q : List Char) :
    List PhrasePattern → Except TemporalError (Option DateRange)
  | [] => .ok none
  | p :: patterns =>
    match p.pattern.search chars q with
    | none => scanPatterns ref q patterns
    | some m =>
      match p.number chars m q with
      | .error raised => .error raised
      | .ok none => scanPatterns ref q patterns
      | .ok (some n) =>
        if n = 0 then scanPatterns ref q patterns
        else (rangeAround ref p.isFuture n (p.unit m q)).map some

/-- `_extract_temporal_date_range`; `now` is what the clock says. A reference is its fields:
whole days move the date of an aware datetime and of a naive one in the same way. -/
def extractTemporalDateRange (now : DateTime) (query : String) (referenceDatetime : Option DateTime) :
    Except TemporalError (Option DateRange) :=
  scanPatterns chars (referenceDatetime.getD now) (lower query).toList temporalDateRangePatterns

structure TemporalData where
  temporalWindow : Option ℕ
  dateRangeFilter : Option DateRange

def executeTemporalHint (now : DateTime) (query : String) (validAt : Option DateTime) :
    Except TemporalError TemporalData := do
  let window ← extractTemporalHint chars lower query
  let range ← extractTemporalDateRange chars lower now query (some (validAt.getD now))
  .ok ⟨window, range⟩

end Memclaw.Search
