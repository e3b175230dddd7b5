import Memclaw.Lib.FixedWidthDefs

/-! Regular expressions as Python's `re` reads and runs them on text: patterns are compiled
from their source, and matched by backtracking in the order of preference of `re`. -/

namespace Memclaw.Lib

/-- The character database, and the characters that a character stands for when case is
ignored. -/
structure RegexChars extends CharData where
  caseVariants : Char → List Char

def RegexChars.ascii : RegexChars where
  toCharData := CharData.ascii
  caseVariants c := [c, c.toLower, c.toUpper]

inductive CharItem
  | char (c : Char)
  | range (lo hi : Char)
  | digit
  | space
deriving DecidableEq

structure CharSet where
  negated : Bool
  ignoreCase : Bool
  items : List CharItem
deriving DecidableEq

inductive Regex
  | empty
  | set (s : CharSet)
  | seq (a b : Regex)
  | alt (a b : Regex)
  | rep (min : ℕ) (max : Option ℕ) (r : Regex)
  | group (n : ℕ) (r : Regex)
  | notAhead (r : Regex)
  | notBehind (s : CharSet)
  | wordBoundary
  | lineStart (multiline : Bool)
  | lineEnd (multiline : Bool)

namespace Regex

structure Flags where
  ignoreCase : Bool
  multiline : Bool

def Flags.none : Flags := ⟨false, false⟩

def Flags.ignorecase : Flags := ⟨true, false⟩

def Flags.multilined : Flags := ⟨false, true⟩

def Flags.ignorecaseMultilined : Flags := ⟨true, true⟩

structure Source where
  rest : List Char
  nextGroup : ℕ

/-- The class that a backslash and a character stand for. Escapes of letters other than
these are not read. -/
def escaped (c : Char) : Option CharItem :=
  if c = 'd' then some .digit
  else if c = 's' then some .space
  else if c = 'n' then some (.char '\n')
  else if c.isAlphanum then none
  else some (.char c)

/-- The members of a set up to its closing bracket. A minus sign between two characters is
a range, and itself in front of the bracket. -/
def parseItems : List Char → Option (List CharItem × List Char)
  | [] => none
  | ']' :: rest => some ([], rest)
  | '\\' :: c :: rest => do
    let item ← escaped c
    let (items, rest) ← parseItems rest
    some (item :: items, rest)
  | c :: '-' :: ']' :: rest => some ([.char c, .char '-'], rest)
  | '-' :: rest => do
    let (items, rest) ← parseItems rest
    some (.char '-' :: items, rest)
  | lo :: '-' :: hi :: rest => do
    let (items, rest) ← parseItems rest
    some (.range lo hi :: items, rest)
  | c :: rest => do
    let (items, rest) ← parseItems rest
    some (.char c :: items, rest)

def parseSet (ignoreCase : Bool) : List Char → Option (CharSet × List Char)
  | '^' :: rest => do
    let (items, rest) ← parseItems rest
    some (⟨true, ignoreCase, items⟩, rest)
  | rest => do
    let (items, rest) ← parseItems rest
    some (⟨false, ignoreCase, items⟩, rest)

def parseNat (digits : List Char) : ℕ :=
  digits.foldl (fun n c => 10 * n + (c.toNat - 48)) 0

def parseBounds (cs : List Char) : Option ((ℕ × Option ℕ) × List Char) :=
  let min := cs.takeWhile Char.isDigit
  match cs.dropWhile Char.isDigit with
  | '}' :: rest => some ((parseNat min, some (parseNat min)), rest)
  | ',' :: '}' :: rest => some ((parseNat min, Option.none), rest)
  | ',' :: rest =>
    let max := rest.takeWhile Char.isDigit
    match rest.dropWhile Char.isDigit with
    | '}' :: rest => some ((parseNat min, some (parseNat max)), rest)
    | _ => Option.none
  | _ => Option.none

def quantified (r : Regex) : List Char → Option (Regex × List Char)
  | '*' :: rest => some (.rep 0 Option.none r, rest)
  | '+' :: rest => some (.rep 1 Option.none r, rest)
  | '?' :: rest => some (.rep 0 (some 1) r, rest)
  | '{' :: rest => do
    let ((min, max), rest) ← parseBounds rest
    some (.rep min max r, rest)
  | rest => some (r, rest)

def parseEscape (ignoreCase : Bool) (c : Char) : Option Regex :=
  if c = 'b' then some .wordBoundary
  else (escaped c).map fun item => .set ⟨false, ignoreCase, [item]⟩

mutual

/-- A pattern up to its end or to the bracket that closes it. The first argument bounds the
depth of the parse. -/
def parseAlt (flags : Flags) : ℕ → Source → Option (Regex × Source)
  | 0, _ => Option.none
  | depth + 1, src => do
    let (r, src) ← parseSeq flags depth src
    match src.rest with
    | '|' :: rest =>
      let (s, src) ← parseAlt flags depth { src with rest := rest }
      some (.alt r s, src)
    | _ => some (r, src)

def parseSeq (flags : Flags) : ℕ → Source → Option (Regex × Source)
  | 0, _ => Option.none
  | depth + 1, src =>
    match src.rest with
    | [] | '|' :: _ | ')' :: _ => some (.empty, src)
    | _ => do
      let (r, src) ← parseAtom flags depth src
      let (r, rest) ← quantified r src.rest
      let (s, src) ← parseSeq flags depth { src with rest := rest }
      some (.seq r s, src)

def parseAtom (flags : Flags) : ℕ → Source → Option (Regex × Source)
  | 0, _ => Option.none
  | depth + 1, src =>
    match src.rest with
    | '(' :: '?' :: ':' :: rest => parseGroup flags depth (fun r => some r) ⟨rest, src.nextGroup⟩
    | '(' :: '?' :: '!' :: rest =>
      parseGroup flags depth (fun r => some (.notAhead r)) ⟨rest, src.nextGroup⟩
    | '(' :: '?' :: '<' :: '!' :: rest =>
      -- A look-behind is read here over one character only.
      parseGroup flags depth
        (fun r => match r with | .seq (.set s) .empty => some (.notBehind s) | _ => Option.none)
        ⟨rest, src.nextGroup⟩
    | '(' :: rest =>
      parseGroup flags depth (fun r => some (.group src.nextGroup r)) ⟨rest, src.nextGroup + 1⟩
    | '[' :: rest => do
      let (s, rest) ← parseSet flags.ignoreCase rest
      some (.set s, { src with rest := rest })
    | '\\' :: c :: rest => do
      let r ← parseEscape flags.ignoreCase c
      some (r, { src with rest := rest })
    | '^' :: rest => some (.lineStart flags.multiline, { src with rest := rest })
    | '$' :: rest => some (.lineEnd flags.multiline, { src with rest := rest })
    | '.' :: rest => some (.set ⟨true, false, [.char '\n']⟩, { src with rest := rest })
    | c :: rest => some (.set ⟨false, flags.ignoreCase, [.char c]⟩, { src with rest := rest })
    | [] => Option.none

def parseGroup (flags : Flags) : ℕ → (Regex → Option Regex) → Source → Option (Regex × Source)
  | 0, _, _ => Option.none
  | depth + 1, build, src => do
    let (r, src) ← parseAlt flags depth src
    let r ← build r
    match src.rest with
    | ')' :: rest => some (r, { src with rest := rest })
    | _ => Option.none

end

def asciiChars (text : String) : List Char :=
  text.toByteArray.data.toList.map fun b => Char.ofNat b.toNat

def compile (flags : Flags) (pattern : String) : Option Regex :=
  let (flags, body) : Flags × List Char :=
    match asciiChars pattern with
    | '(' :: '?' :: 'i' :: ')' :: body => (⟨true, flags.multiline⟩, body)
    | body => (flags, body)
  -- Every character is behind at most four nested calls.
  match parseAlt flags (4 * body.length + 4) ⟨body, 1⟩ with
  | some (r, ⟨[], _⟩) => some r
  | _ => Option.none

end Regex

/-- A place in the text: what is in front of it, the nearest character first, what is
behind it, and the groups closed so far with their offsets. -/
structure Cursor where
  before : List Char
  rest : List Char
  groups : List (ℕ × ℕ × ℕ)

def Cursor.pos (c : Cursor) : ℕ := c.before.length

def CharItem.test (chars : RegexChars) (ignoreCase : Bool) (c : Char) : CharItem → Bool
  | .char d => if ignoreCase then (chars.caseVariants c).any (· = d) else c = d
  | .range lo hi =>
    if ignoreCase then (chars.caseVariants c).any fun v => lo.toNat ≤ v.toNat && v.toNat ≤ hi.toNat
    else lo.toNat ≤ c.toNat && c.toNat ≤ hi.toNat
  | .digit => (chars.decimal c).isSome
  | .space => chars.space c

def CharSet.test (chars : RegexChars) (s : CharSet) (c : Char) : Bool :=
  (s.items.any fun item => item.test chars s.ignoreCase c) != s.negated

namespace Regex

def times (step : Cursor → List Cursor) : ℕ → Cursor → List Cursor
  | 0, c => [c]
  | n + 1, c => (step c).flatMap (times step n)

/-- At most `n` further rounds, more of them first. A round beyond the required ones has to
move forward. -/
def upTo (step : Cursor → List Cursor) : ℕ → Cursor → List Cursor
  | 0, c => [c]
  | n + 1, c => ((step c).filter fun d => c.pos < d.pos).flatMap (upTo step n) ++ [c]

def run (chars : RegexChars) : Regex → Cursor → List Cursor
  | .empty => fun c => [c]
  | .set s => fun c =>
    match c.rest with
    | x :: rest => if s.test chars x then [{ c with before := x :: c.before, rest := rest }] else []
    | [] => []
  | .seq a b => fun c => (run chars a c).flatMap (run chars b)
  | .alt a b => fun c => run chars a c ++ run chars b c
  | .rep min max r => fun c =>
    let more := match max with
      | some max => max - min
      | none => c.rest.length
    (times (run chars r) min c).flatMap (upTo (run chars r) more)
  | .group n r => fun c =>
    (run chars r c).map fun d => { d with groups := (n, c.pos, d.pos) :: d.groups }
  | .notAhead r => fun c => if (run chars r c).isEmpty then [c] else []
  | .notBehind s => fun c => if c.before.head?.any (s.test chars) then [] else [c]
  | .wordBoundary => fun c =>
    if c.before.head?.any chars.word != c.rest.head?.any chars.word then [c] else []
  | .lineStart multiline => fun c =>
    if c.before.isEmpty || (multiline && c.before.head? = some '\n') then [c] else []
  | .lineEnd multiline => fun c =>
    if c.rest.isEmpty || c.rest = ['\n'] || (multiline && c.rest.head? = some '\n') then [c] else []

structure Match where
  start : ℕ
  stop : ℕ
  groups : List (ℕ × ℕ × ℕ)

def Match.span (m : Match) (group : ℕ) : Option (ℕ × ℕ) :=
  if group = 0 then some (m.start, m.stop) else (m.groups.find? (·.1 = group)).map (·.2)

/-- The matches that start at `c`: the preferred one and, when it is empty, the preferred
one that is not. -/
def matchesAt (chars : RegexChars) (r : Regex) (c : Cursor) : List Match :=
  let found (d : Cursor) : Match := ⟨c.pos, d.pos, d.groups⟩
  match run chars r c with
  | [] => []
  | d :: ds =>
    if c.pos < d.pos then [found d]
    else found d :: ((ds.find? fun e => c.pos < e.pos).map found).toList

def finditerFrom (chars : RegexChars) (r : Regex) : ℕ → List Char → List Char → List Match
  | resume, before, rest =>
    let here := if before.length < resume then [] else matchesAt chars r ⟨before, rest, []⟩
    match rest with
    | [] => here
    | x :: rest =>
      let resume := (here.getLast?.map Match.stop).getD resume
      here ++ finditerFrom chars r resume (x :: before) rest

def finditer (chars : RegexChars) (r : Regex) (text : List Char) : List Match :=
  finditerFrom chars r 0 [] text

end Regex

structure Pattern where
  source : String
  flags : Regex.Flags := .none

def Pattern.regex (p : Pattern) : Option Regex := Regex.compile p.flags p.source

def Pattern.search (chars : RegexChars) (p : Pattern) (text : List Char) : Option Regex.Match :=
  p.regex.bind fun r => (r.finditer chars text).head?

def Pattern.matches (chars : RegexChars) (p : Pattern) (text : List Char) : Bool :=
  p.regex.any fun r => !(r.run chars ⟨[], text, []⟩).isEmpty

def Pattern.fullmatches (chars : RegexChars) (p : Pattern) (text : List Char) : Bool :=
  p.regex.any fun r => (r.run chars ⟨[], text, []⟩).any fun c => c.rest.isEmpty

def Regex.Match.text (m : Regex.Match) (source : List Char) : List Char :=
  (source.drop m.start).take (m.stop - m.start)

end Memclaw.Lib
