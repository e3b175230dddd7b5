import Memclaw.Lib.Crash
import Memclaw.Lib.JsonText

/-! The on-disk event buffer of a node: its lines, its meta file, and the three calls of the
gateway on them. Texts of files are UTF-16 here, as the code sees them. -/

namespace Memclaw.Interview

open Memclaw.Lib Memclaw.Lib.JsonText
open Memclaw.Lib.Interleave (Prog)
open Memclaw.Lib.Interleave.Prog (ask)

structure InterviewEvent where
  seq : ℕ
  ts : Utf16
  sessionId : Option Utf16
  role : Utf16
  kind : Utf16
  content : Utf16
  tool : Option Utf16
  outcome : Option Utf16
deriving DecidableEq

structure InterviewEventInput where
  sessionId : Option Utf16
  role : Utf16
  kind : Utf16
  content : Utf16
  tool : Option Utf16
  outcome : Option Utf16
deriving Inhabited

def INTERVIEW_EVENT_MAX_CHARS : ℕ := 8000
def INTERVIEW_FIELD_MAX_CHARS : ℕ := 200
def INTERVIEW_BUFFER_MAX_BYTES : ℕ := 50000000

/-- `(value || fallback).slice(0, n)` -/
def sliceOr (fallback : String) (n : ℕ) (value : Utf16) : Utf16 :=
  (if value = [] then utf16 fallback else value).take n

/-- `if (value) ev.field = value.slice(0, INTERVIEW_FIELD_MAX_CHARS)` -/
def sliceField (value : Option Utf16) : Option Utf16 :=
  match value with
  | none => none
  | some value => if value = [] then none else some (value.take INTERVIEW_FIELD_MAX_CHARS)

def newEvent (seq : ℕ) (ts : Utf16) (input : InterviewEventInput) : InterviewEvent where
  seq := seq
  ts := ts
  sessionId := input.sessionId
  role := sliceOr "unknown" 64 input.role
  kind := sliceOr "message" 64 input.kind
  content := sliceOr "" INTERVIEW_EVENT_MAX_CHARS input.content
  tool := sliceField input.tool
  outcome := sliceField input.outcome

def nullable (value : Option Utf16) : Scalar :=
  match value with
  | none => .null
  | some value => .string value

def optional (key : String) (value : Option Utf16) : List Field :=
  match value with
  | none => []
  | some value => [(utf16 key, .string value)]

def InterviewEvent.fields (ev : InterviewEvent) : List Field :=
  [(utf16 "seq", .number ev.seq), (utf16 "ts", .string ev.ts),
    (utf16 "session_id", nullable ev.sessionId), (utf16 "role", .string ev.role),
    (utf16 "kind", .string ev.kind), (utf16 "content", .string ev.content)] ++
    optional "tool" ev.tool ++ optional "outcome" ev.outcome

def newline : UInt16 := 10

def InterviewEvent.line (ev : InterviewEvent) : Utf16 := stringify ev.fields ++ [newline]

def text (v : Value) : Option Utf16 :=
  match v with
  | .string s => some s
  | _ => none

def nullableText (v : Value) : Option (Option Utf16) :=
  match v with
  | .null => some none
  | .string s => some (some s)
  | _ => none

def optionalText (v : Option Value) : Option (Option Utf16) :=
  match v with
  | none => some none
  | some (.string s) => some (some s)
  | some _ => none

def number (v : Value) : Option ℕ :=
  match v with
  | .number literal => natOf literal
  | _ => none

/-- The cast of a parsed line. The code looks at `seq` alone; a line with a `seq` and without
the other fields is in no buffer that it writes. -/
def eventOf (v : Value) : Option InterviewEvent := do
  let seq ← (v.get (utf16 "seq")).bind number
  let ts ← (v.get (utf16 "ts")).bind text
  let sessionId ← (v.get (utf16 "session_id")).bind nullableText
  let role ← (v.get (utf16 "role")).bind text
  let kind ← (v.get (utf16 "kind")).bind text
  let content ← (v.get (utf16 "content")).bind text
  let tool ← optionalText (v.get (utf16 "tool"))
  let outcome ← optionalText (v.get (utf16 "outcome"))
  return ⟨seq, ts, sessionId, role, kind, content, tool, outcome⟩

def isWhite (u : UInt16) : Bool :=
  (9 ≤ u && u ≤ 13) || u = 32 || u = 0xA0 || u = 0x1680 || (0x2000 ≤ u && u ≤ 0x200A) ||
    u = 0x2028 || u = 0x2029 || u = 0x202F || u = 0x205F || u = 0x3000 || u = 0xFEFF

def parseLine (line : Utf16) : Option InterviewEvent :=
  if line.all isWhite then none
  else
    match parse line with
    | none => none
    | some v => eventOf v

def parseLines (raw : Utf16) : List InterviewEvent :=
  (raw.splitOn newline).filterMap parseLine

def body (events : List InterviewEvent) : Utf16 :=
  [newline].intercalate (events.map fun ev => stringify ev.fields) ++
    if events = [] then [] else [newline]

def metaText (nextSeq : ℕ) : Utf16 := stringify [(utf16 "next_seq", .number nextSeq)]

def metaNextSeq (raw : Utf16) : ℕ :=
  match parse raw with
  | none => 0
  | some v => ((v.get (utf16 "next_seq")).bind number).getD 0

def byteLength : Utf16 → ℕ
  | [] => 0
  | [u] => if u < 0x80 then 1 else if u < 0x800 then 2 else 3
  | u :: v :: s =>
    if isHigh u && isLow v then 4 + byteLength s
    else (if u < 0x80 then 1 else if u < 0x800 then 2 else 3) + byteLength (v :: s)

structure File where
  text : Utf16
  size : ℕ

structure Disk where
  buffer : Option File
  tmp : Option File
  metaFile : Option Utf16

inductive FileCall
  | readBuffer
  | readMeta
  | statBuffer
  | appendBuffer (text : Utf16)
  | writeMeta (text : Utf16)
  | writeTmp (text : Utf16)
  | renameTmp
deriving DecidableEq

abbrev FileCall.Answer : FileCall → Type
  | readBuffer | readMeta => Option Utf16
  | statBuffer => Option ℕ
  | appendBuffer _ | writeMeta _ | writeTmp _ | renameTmp => Unit

def Disk.raw (d : Disk) : Utf16 :=
  match d.buffer with
  | none => []
  | some file => file.text

def Disk.size (d : Disk) : ℕ :=
  match d.buffer with
  | none => 0
  | some file => file.size

def Disk.appendBuffer (d : Disk) (text : Utf16) (size : ℕ) : Disk :=
  { d with buffer := some ⟨d.raw ++ text, size⟩ }

def serve (c : FileCall) (d : Disk) : c.Answer × Disk :=
  match c with
  | .readBuffer => (d.buffer.map File.text, d)
  | .readMeta => (d.metaFile, d)
  | .statBuffer => (d.buffer.map File.size, d)
  | .appendBuffer text => ((), d.appendBuffer text (d.size + byteLength text))
  | .writeMeta text => ((), { d with metaFile := some text })
  | .writeTmp text => ((), { d with tmp := some ⟨text, byteLength text⟩ })
  | .renameTmp => ((), { d with buffer := d.tmp, tmp := none })

/-- A part of a text that a crash leaves. It may end inside a character of several bytes, and
what is left of the character is read as U+FFFD. -/
inductive Leftover (text : Utf16) : Utf16 → Prop
  | cut (k : ℕ) : Leftover text (text.take k)
  | inside (k : ℕ) (u : UInt16) (hk : text[k]? = some u) (hu : 0x80 ≤ u) :
      Leftover text (text.take k ++ [0xFFFD])

/-- A write in the middle of which the process dies. The rename is atomic. -/
inductive Torn : FileCall → Disk → Disk → Prop
  | appendBuffer {text part : Utf16} (h : Leftover text part) (d : Disk) (size : ℕ) :
      Torn (.appendBuffer text) d (d.appendBuffer part size)
  | writeMeta {text part : Utf16} (h : Leftover text part) (d : Disk) :
      Torn (.writeMeta text) d { d with metaFile := some part }
  | writeTmp {text part : Utf16} (h : Leftover text part) (d : Disk) (size : ℕ) :
      Torn (.writeTmp text) d { d with tmp := some ⟨part, size⟩ }

abbrev Files := Prog Empty FileCall FileCall.Answer

def readBuffer : Files (Option Utf16) := ask FileCall.readBuffer
def readMeta : Files (Option Utf16) := ask FileCall.readMeta
def statBuffer : Files (Option ℕ) := ask FileCall.statBuffer
def appendBuffer (text : Utf16) : Files Unit := ask (FileCall.appendBuffer text)
def writeMeta (text : Utf16) : Files Unit := ask (FileCall.writeMeta text)
def writeTmp (text : Utf16) : Files Unit := ask (FileCall.writeTmp text)
def renameTmp : Files Unit := ask FileCall.renameTmp

structure Seeded where
  nextSeq : ℕ
  approxBytes : ℕ
deriving DecidableEq

def load : Files (List InterviewEvent) := do
  let raw ← readBuffer
  return (raw.map parseLines).getD []

def readMetaNextSeq : Files ℕ := do
  let raw ← readMeta
  return (raw.map metaNextSeq).getD 0

def writeMetaNextSeq (nextSeq : ℕ) : Files Unit := writeMeta (metaText nextSeq)

/-- A torn last line gets its newline, so that the next line does not run on from it. -/
def heal (raw : Option Utf16) : Files Unit :=
  match raw with
  | none => pure ()
  | some raw =>
    if raw ≠ [] ∧ raw.getLast? ≠ some newline then appendBuffer [newline] else pure ()

def tailSeq (events : List InterviewEvent) : ℕ :=
  match events.getLast? with
  | none => 0
  | some ev => ev.seq + 1

def ensureSeeded (state : Option Seeded) : Files Seeded :=
  match state with
  | some state => pure state
  | none => do
    let raw ← readBuffer
    heal raw
    let events ← load
    let metaSeq ← readMetaNextSeq
    let size ← statBuffer
    return ⟨max (tailSeq events) metaSeq, size.getD 0⟩

def rewrite (events : List InterviewEvent) : Files ℕ := do
  writeTmp (body events)
  renameTmp
  return byteLength (body events)

def appendInterviewEvent (ts : Utf16) (input : InterviewEventInput) (state : Option Seeded) :
    Files (ℕ × Seeded) := do
  let state ← ensureSeeded state
  let seq := state.nextSeq
  let line := (newEvent seq ts input).line
  appendBuffer line
  if INTERVIEW_BUFFER_MAX_BYTES < state.approxBytes + byteLength line then do
    let events ← load
    let keep := events.drop (events.length / 2)
    writeMetaNextSeq (seq + 1)
    let size ← rewrite keep
    return (seq, ⟨seq + 1, size⟩)
  else
    return (seq, ⟨seq + 1, state.approxBytes + byteLength line⟩)

def readInterviewEvents (sinceSeq : ℤ) (maxCount : ℕ) (state : Option Seeded) :
    Files (List InterviewEvent × Seeded) := do
  let state ← ensureSeeded state
  let events ← load
  return ((events.filter fun ev => sinceSeq ≤ ev.seq).take maxCount, state)

def pruneInterviewBuffer (committedSeq : ℤ) (state : Option Seeded) : Files Seeded := do
  let state ← ensureSeeded state
  let events ← load
  let keep := events.filter fun ev => committedSeq < ev.seq
  if keep.length = events.length then return state
  else do
    writeMetaNextSeq state.nextSeq
    let size ← rewrite keep
    return { state with approxBytes := size }

end Memclaw.Interview
