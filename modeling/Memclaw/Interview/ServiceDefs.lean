import Memclaw.Interview.Buffer
import Memclaw.Write.ServiceDefs

/-! One node and the server: the command that asks for a window of the buffer, the submit of
the window, the interview of it, and the watermark that the buffer is pruned through. -/

namespace Memclaw.Interview

open Memclaw.Lib Memclaw.Lib.Interleave Memclaw.Write

structure Submit where
  cursorFrom : ℕ
  cursorTo : ℕ
  events : List InterviewEvent
deriving DecidableEq

/-- What the service asks of its surroundings. `interview` is the whole way from the events to
the items of the report: the settings and keystones, the masking and the language model. -/
inductive Call
  | settings
  | interview (events : List InterviewEvent)
  | createMemoriesBulk (attemptId : String) (items : List String)
  | getDocument
  | upsertDocument (lastSeq : ℤ)

/-- Nothing where the call raises. A stored cursor may be missing. -/
abbrev Call.Answer : Call → Type
  | settings => Option Bool
  | interview _ => Option (List String)
  | createMemoriesBulk _ _ => Option (List ItemStatus)
  | getDocument => Option (Option ℤ)
  | upsertDocument _ => Option Unit

abbrev Service := Prog ℕ Call Call.Answer

def answered {R : Type} (answer : Option R) : Service R :=
  match answer with
  | none => .raise 500
  | some r => .done r

def getSettings : Service Bool := do answered (← Prog.ask Call.settings)

def interview (events : List InterviewEvent) : Service (List String) := do
  answered (← Prog.ask (Call.interview events))

def createMemoriesBulk (attemptId : String) (items : List String) : Service (List ItemStatus) := do
  answered (← Prog.ask (Call.createMemoriesBulk attemptId items))

def upsertDocument (lastSeq : ℤ) : Service Unit := do
  answered (← Prog.ask (Call.upsertDocument lastSeq))

def readWatermarkSeq : Service ℤ := do
  let doc ← answered (← Prog.ask Call.getDocument)
  return doc.getD (-1)

def WATERMARK_WRITE_ATTEMPTS : ℕ := 3

def finalWatermark (cursorTo : ℕ) : Service ℤ := do
  let doc ← Prog.ask Call.getDocument
  match doc with
  | none => return cursorTo
  | some stored => return if 0 ≤ stored.getD (-1) then stored.getD (-1) else cursorTo

def advancePasses (cursorTo : ℕ) : ℕ → Service ℤ
  | 0 => finalWatermark cursorTo
  | attempts + 1 => do
    let existingSeq ← readWatermarkSeq
    if cursorTo ≤ existingSeq then return existingSeq
    else do
      upsertDocument cursorTo
      let stored ← readWatermarkSeq
      if cursorTo ≤ stored then return stored else advancePasses cursorTo attempts

def advanceWatermark (cursorTo : ℕ) : Service ℤ := advancePasses cursorTo WATERMARK_WRITE_ATTEMPTS

inductive Status
  | committed
  | partly
  | failed
deriving DecidableEq

structure InterviewResult where
  status : Status
  watermark : Option ℤ
  memoriesWritten : ℕ
  errors : ℕ
deriving DecidableEq

section Server

variable (sha1 : String → String) (nodeId : String)

def interviewAttemptId (cursorFrom cursorTo : ℕ) : String :=
  let digest := sha1 (nodeId ++ ":" ++ toString cursorFrom ++ ":" ++ toString cursorTo)
  "interview:" ++ (digest.take 40).toString

def countStatus (status : ItemStatus) (statuses : List ItemStatus) : ℕ := statuses.count status

def totalFailure (statuses : List ItemStatus) : Bool :=
  countStatus .error statuses ≠ 0 && countStatus .error statuses = statuses.length

def runInterview (body : Submit) : Service InterviewResult := do
  let items ← interview body.events
  if items = [] then do
    let watermark ← advanceWatermark body.cursorTo
    return ⟨.committed, some watermark, 0, 0⟩
  else do
    let statuses ← createMemoriesBulk (interviewAttemptId sha1 nodeId body.cursorFrom body.cursorTo) items
    let errors := countStatus .error statuses
    if totalFailure statuses then return ⟨.failed, none, 0, errors⟩
    else do
      let watermark ← advanceWatermark body.cursorTo
      return ⟨if errors = 0 then .committed else .partly, some watermark,
        countStatus .created statuses, errors⟩

def INTERVIEW_MAX_EVENTS_PER_SUBMIT : ℕ := 500

def Submit.Valid (body : Submit) : Prop :=
  body.events ≠ [] ∧ body.events.length ≤ INTERVIEW_MAX_EVENTS_PER_SUBMIT ∧
    body.cursorFrom ≤ body.cursorTo ∧ body.events.IsChain (fun a b => a.seq < b.seq) ∧
    (∀ ev ∈ body.events.head?, body.cursorFrom ≤ ev.seq) ∧
    ∀ ev ∈ body.events.getLast?, ev.seq ≤ body.cursorTo

instance (body : Submit) : Decidable body.Valid := by
  unfold Submit.Valid
  infer_instance

def submitInterview (body : Submit) : Service InterviewResult :=
  if body.Valid then do
    let enabled ← getSettings
    if enabled then do
      let result ← runInterview sha1 nodeId body
      if result.status = .failed then .raise 500 else return result
    else .raise 403
  else .raise 422

end Server

def INTERVIEW_SUBMIT_MAX_EVENTS : ℕ := 500

def sinceSeqOf (payload : Option ℤ) : ℤ :=
  match payload with
  | none => 0
  | some sinceSeq => if 0 ≤ sinceSeq then sinceSeq else 0

def readWindow (sinceSeq : ℤ) (buffer : List InterviewEvent) : List InterviewEvent :=
  (buffer.filter fun ev => sinceSeq ≤ ev.seq).take INTERVIEW_SUBMIT_MAX_EVENTS

def submitOf (events : List InterviewEvent) : Option Submit :=
  match events.head?, events.getLast? with
  | some first, some last => some ⟨first.seq, last.seq, events⟩
  | _, _ => none

/-- How the surroundings answer one call of the service. A write that raises may have been made
all the same. -/
structure Reply where
  ok : Bool
  enabled : Bool
  items : List String
  statuses : List ItemStatus
  landed : Bool

def Reply.serve (reply : Reply) (c : Call) (watermark : Option ℤ) : c.Answer × Option ℤ :=
  match c with
  | .settings => (if reply.ok then some reply.enabled else none, watermark)
  | .interview _ => (if reply.ok then some reply.items else none, watermark)
  | .createMemoriesBulk _ _ => (if reply.ok then some reply.statuses else none, watermark)
  | .getDocument => (if reply.ok then some watermark else none, watermark)
  | .upsertDocument lastSeq =>
    if reply.ok then (some (), some lastSeq)
    else (none, if reply.landed then some lastSeq else watermark)

/-- `cursor` is a ghost: the stored cursor that the scheduler went by. -/
structure Command where
  sinceSeq : ℤ
  cursor : ℤ

/-- The ghosts of a submit: the cursor of its command, and when it was read the events that had
been appended and those that were left of them. -/
structure Reading where
  cursor : ℤ
  appended : List InterviewEvent
  buffer : List InterviewEvent

structure Sent where
  body : Submit
  read : Reading

structure Run extends Sent where
  prog : Service InterviewResult

/-- `watermark` is the stored cursor of the node. The last four are ghosts: the events that were
appended and pruned, the submits whose report was written without total failure or was empty, and
the submits some rows of which were committed. -/
structure System where
  buffer : List InterviewEvent
  commands : List Command
  runs : List Run
  watermark : Option ℤ
  appended : List InterviewEvent
  pruned : List InterviewEvent
  consumed : List Submit
  committed : List Sent

/-- `respond` is the answer of a finished run reaching the plugin; answers may also be lost. After
`cancel` a run makes no call any more, as after a timeout of the route or a crash. -/
inductive Event
  | append (ev : InterviewEvent)
  | tick
  | deliver (command : ℕ)
  | turn (run : ℕ) (reply : Reply)
  | cancel (run : ℕ)
  | respond (run : ℕ)

/-- The answer to a call means that the window is used up. -/
def consumes (c : Call) (a : c.Answer) : Bool :=
  match c, a with
  | .interview _, some items => items = []
  | .createMemoriesBulk _ _, some statuses => !totalFailure statuses
  | _, _ => false

/-- Some rows of a bulk write are in the store. -/
def commits (reply : Reply) (c : Call) : Bool :=
  match c with
  | .createMemoriesBulk _ _ => if reply.ok then ItemStatus.created ∈ reply.statuses else reply.landed
  | _ => false

section Steps

variable (sha1 : String → String) (nodeId : String)

/-- Buffer seqs only grow: an event with an old seq is no event of the plugin. -/
def System.append (s : System) (ev : InterviewEvent) : System :=
  if ∀ old ∈ s.appended, old.seq < ev.seq then
    { s with buffer := s.buffer ++ [ev], appended := s.appended ++ [ev] }
  else s

def System.tick (s : System) : System :=
  let lastSeq := s.watermark.getD (-1)
  { s with commands := s.commands ++ [⟨lastSeq + 1, lastSeq⟩] }

def System.reads (s : System) (command : ℕ) : Option Sent :=
  match s.commands[command]? with
  | none => none
  | some ⟨sinceSeq, cursor⟩ =>
    (submitOf (readWindow (sinceSeqOf (some sinceSeq)) s.buffer)).map fun body =>
      ⟨body, cursor, s.appended, s.buffer⟩

def System.deliver (s : System) (command : ℕ) : System :=
  match s.reads command with
  | none => s
  | some sent => { s with runs := s.runs ++ [⟨sent, submitInterview sha1 nodeId sent.body⟩] }

def System.turn (s : System) (run : ℕ) (reply : Reply) : System :=
  match s.runs[run]? with
  | none => s
  | some ⟨sent, prog⟩ =>
    match prog with
    | .call c next =>
      { s with
        runs := s.runs.set run ⟨sent, next (reply.serve c s.watermark).1⟩
        watermark := (reply.serve c s.watermark).2
        consumed :=
          s.consumed ++ if consumes c (reply.serve c s.watermark).1 then [sent.body] else []
        committed := s.committed ++ if commits reply c then [sent] else [] }
    | _ => s

def System.cancel (s : System) (run : ℕ) : System :=
  match s.runs[run]? with
  | none => s
  | some ⟨sent, _⟩ => { s with runs := s.runs.set run ⟨sent, .raise 504⟩ }

def System.prune (s : System) (watermark : ℤ) : System :=
  { s with
    buffer := uncommitted watermark s.buffer
    pruned := s.pruned ++ s.buffer.filter fun ev => ev.seq ≤ watermark }

def System.respond (s : System) (run : ℕ) : System :=
  match s.runs[run]? with
  | some ⟨_, .done result⟩ =>
    match result.watermark with
    | some watermark => s.prune watermark
    | none => s
  | _ => s

def System.step (s : System) : Event → System
  | .append ev => s.append ev
  | .tick => s.tick
  | .deliver command => s.deliver sha1 nodeId command
  | .turn run reply => s.turn run reply
  | .cancel run => s.cancel run
  | .respond run => s.respond run

end Steps

def System.start : System := ⟨[], [], [], none, [], [], [], []⟩

end Memclaw.Interview
