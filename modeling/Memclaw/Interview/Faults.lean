import Memclaw.Interview.Buffer
import Memclaw.Lib.Fallible

/-! The calls on the event buffer in one process, where every file call may fail: what they
acknowledged stays readable, unless a line is put behind a torn one or the buffer is taken for
empty. -/

namespace Memclaw.Interview.Faults

open Memclaw.Lib Memclaw.Lib.JsonText Memclaw.Lib.Rejecting

/-- Where the calls touch a file. A call passes each place once at most. -/
inductive Place
  | healRead
  | healNewline
  | seedRead
  | seedMeta
  | seedStat
  | lineDir
  | line
  | load
  | metaDir
  | metaWrite
  | tmpDir
  | tmpWrite
  | rename
deriving DecidableEq

inductive Failure
  | enoent
  | other
deriving DecidableEq

/-- The part of a text that was written: some units, and the rest of a character that is cut, in so
many bytes. -/
structure Written where
  units : ℕ
  cut : Bool
  bytes : ℕ

def Written.part (w : Written) (text : Utf16) : Utf16 :=
  text.take w.units ++ if w.cut then [0xFFFD] else []

/-- A file call goes through, or fails, and then a write may leave a part of its text. -/
inductive Fate
  | through
  | fails (code : Failure) (written : Option Written)

def Fate.Through (fate : Fate) : Prop :=
  match fate with
  | .through => True
  | .fails _ _ => False

instance (fate : Fate) : Decidable fate.Through := by
  unfold Fate.Through
  cases fate <;> infer_instance

def Fate.Enoent (fate : Fate) : Prop :=
  match fate with
  | .through => False
  | .fails code _ => code = .enoent

instance (fate : Fate) : Decidable fate.Enoent := by
  unfold Fate.Enoent
  cases fate <;> infer_instance

abbrev Fates := Place → Fate

def allThrough : Fates := fun _ => .through

theorem through_allThrough (place : Place) : (allThrough place).Through := trivial

def leave (c : FileCall) (written : Option Written) (d : Disk) : Disk :=
  match written with
  | none => d
  | some w =>
    match c with
    | .appendBuffer text => d.appendBuffer (w.part text) (d.size + w.bytes)
    | .writeMeta text => { d with metaFile := some (w.part text) }
    | .writeTmp text => { d with tmp := some ⟨w.part text, w.bytes⟩ }
    | _ => d

structure Process where
  disk : Disk
  state : Option Seeded

abbrev Calls (α : Type) := Program Failure Process α

def Process.nextSeq (p : Process) : ℕ := (p.state.map Seeded.nextSeq).getD 0

def Process.approxBytes (p : Process) : ℕ := (p.state.map Seeded.approxBytes).getD 0

def attempt (fates : Fates) (place : Place) (c : FileCall) : Calls c.Answer :=
  fun p =>
    match fates place with
    | .through => (.ok (serve c p.disk).1, { p with disk := (serve c p.disk).2 })
    | .fails code written => (.error code, { p with disk := leave c written p.disk })

def makeDir (fates : Fates) (place : Place) : Calls Unit :=
  fun p =>
    match fates place with
    | .through => (.ok (), p)
    | .fails code _ => (.error code, p)

section Calls

variable (fates : Fates)

/-- A file that is not there is an error of its own. -/
def present (found : Option Utf16) : Calls Utf16 :=
  match found with
  | none => throw .enoent
  | some raw => pure raw

def readLines (place : Place) : Calls (List InterviewEvent) := do
  let found ← attempt fates place .readBuffer
  let raw ← present found
  return parseLines raw

def load (place : Place) : Calls (List InterviewEvent) :=
  tryCatch (readLines fates place) fun _ => pure []

def readMetaNextSeq : Calls ℕ :=
  tryCatch (do
      let found ← attempt fates .seedMeta .readMeta
      return (found.map metaNextSeq).getD 0)
    fun _ => pure 0

def statBuffer : Calls ℕ :=
  tryCatch (do
      let size ← attempt fates .seedStat .statBuffer
      return size.getD 0)
    fun _ => pure 0

def writeMetaNextSeq (nextSeq : ℕ) : Calls Unit := do
  makeDir fates .metaDir
  attempt fates .metaWrite (.writeMeta (metaText nextSeq))

def endLine : Calls Unit := do
  let found ← attempt fates .healRead .readBuffer
  let raw ← present found
  if raw ≠ [] ∧ raw.getLast? ≠ some newline then
    attempt fates .healNewline (.appendBuffer [newline])
  else pure ()

/-- Only a missing file is benign: a heal that fails must propagate. -/
def heal : Calls Unit :=
  tryCatch (endLine fates) fun e => if e = .enoent then pure () else throw e

def setState (state : Seeded) : Calls Unit := modify fun p => { p with state := some state }

def seed : Calls Seeded := do
  heal fates
  let events ← load fates .seedRead
  let metaSeq ← readMetaNextSeq fates
  let size ← statBuffer fates
  setState ⟨max (tailSeq events) metaSeq, size⟩
  return ⟨max (tailSeq events) metaSeq, size⟩

def ensureSeeded : Calls Seeded := do
  let p ← get
  match p.state with
  | some state => pure state
  | none => seed fates

def rewrite (events : List InterviewEvent) : Calls Unit := do
  makeDir fates .tmpDir
  attempt fates .tmpWrite (.writeTmp (body events))
  attempt fates .rename .renameTmp
  modify fun p =>
    { p with state := p.state.map fun s => { s with approxBytes := byteLength (body events) } }

/-- An append up to its size guard. The seq is spent before the line is written. -/
def appendLine (ts : Utf16) (input : InterviewEventInput) : Calls ℕ := do
  let state ← ensureSeeded fates
  let seq := state.nextSeq
  setState ⟨seq + 1, state.approxBytes⟩
  let line := (newEvent seq ts input).line
  makeDir fates .lineDir
  attempt fates .line (.appendBuffer line)
  setState ⟨seq + 1, state.approxBytes + byteLength line⟩
  return seq

def Process.Overflows (p : Process) : Prop := INTERVIEW_BUFFER_MAX_BYTES < p.approxBytes

instance (p : Process) : Decidable p.Overflows := inferInstanceAs (Decidable (_ < _))

def compact : Calls Unit := do
  let p ← get
  if p.Overflows then do
    let events ← load fates .load
    writeMetaNextSeq fates p.nextSeq
    rewrite fates (newerHalf events)
  else pure ()

def appendInterviewEvent (ts : Utf16) (input : InterviewEventInput) : Calls ℕ := do
  let seq ← appendLine fates ts input
  compact fates
  return seq

def readInterviewEvents (sinceSeq : ℤ) (maxCount : ℕ) : Calls (List InterviewEvent) := do
  let _ ← ensureSeeded fates
  let events ← load fates .load
  return (events.filter fun ev => sinceSeq ≤ ev.seq).take maxCount

def pruneInterviewBuffer (committedSeq : ℤ) : Calls Unit := do
  let state ← ensureSeeded fates
  let events ← load fates .load
  let keep := uncommitted committedSeq events
  if keep.length = events.length then pure ()
  else do
    writeMetaNextSeq fates state.nextSeq
    rewrite fates keep

end Calls

inductive Operation
  | append (ts : Utf16) (input : InterviewEventInput)
  | read (sinceSeq : ℤ) (maxCount : ℕ)
  | prune (committedSeq : ℤ)

structure Turn where
  operation : Operation
  fates : Fates

/-- `live` is a ghost: the events whose append resolved and which no prune was told of and no
compaction has dropped. -/
structure Ledger where
  process : Process
  live : List InterviewEvent

def Process.lined (p : Process) (fates : Fates) (ts : Utf16) (input : InterviewEventInput) :
    Process := (outcome (appendLine fates ts input) p).2

def Process.spares (p : Process) (ev : InterviewEvent) : Bool :=
  ev ∉ p.disk.events.take (p.disk.events.length / 2) ∨ ev ∈ newerHalf p.disk.events

def Process.survivors (p : Process) (live : List InterviewEvent) : List InterviewEvent :=
  if p.Overflows then live.filter p.spares else live

def Ledger.append (n : Ledger) (fates : Fates) (ts : Utf16) (input : InterviewEventInput) :
    Ledger where
  process := (outcome (appendInterviewEvent fates ts input) n.process).2
  live :=
    match (outcome (appendInterviewEvent fates ts input) n.process).1 with
    | .ok seq => (n.process.lined fates ts input).survivors (n.live ++ [newEvent seq ts input])
    | .error _ => n.live

def Ledger.read (n : Ledger) (fates : Fates) (sinceSeq : ℤ) (maxCount : ℕ) : Ledger where
  process := (outcome (readInterviewEvents fates sinceSeq maxCount) n.process).2
  live := n.live

def Ledger.prune (n : Ledger) (fates : Fates) (committedSeq : ℤ) : Ledger where
  process := (outcome (pruneInterviewBuffer fates committedSeq) n.process).2
  live :=
    match (outcome (pruneInterviewBuffer fates committedSeq) n.process).1 with
    | .ok _ => uncommitted committedSeq n.live
    | .error _ => n.live

def Ledger.step (n : Ledger) (t : Turn) : Ledger :=
  match t.operation with
  | .append ts input => n.append t.fates ts input
  | .read sinceSeq maxCount => n.read t.fates sinceSeq maxCount
  | .prune committedSeq => n.prune t.fates committedSeq

def Ledger.start (d : Disk) : Ledger := ⟨⟨d, none⟩, []⟩

/-- What a call of `readInterviewEvents` owes to an event: it is listed, or the list is full. -/
def Listed (sinceSeq : ℤ) (maxCount : ℕ) (ev : InterviewEvent)
    (result : Except Failure (List InterviewEvent)) : Prop :=
  ∀ events, result = .ok events → sinceSeq ≤ ev.seq → ev ∈ events ∨ events.length = maxCount

def Process.ReadsBack (p : Process) (ev : InterviewEvent) : Prop :=
  ∀ sinceSeq maxCount, ∃ events,
    (outcome (readInterviewEvents allThrough sinceSeq maxCount) p).1 = .ok events ∧
      Listed sinceSeq maxCount ev (.ok events)

def Process.Rejects (p : Process) (t : Turn) : Prop :=
  match t.operation with
  | .append ts input => ∃ e, (outcome (appendInterviewEvent t.fates ts input) p).1 = .error e
  | .read sinceSeq maxCount =>
    ∃ e, (outcome (readInterviewEvents t.fates sinceSeq maxCount) p).1 = .error e
  | .prune committedSeq => ∃ e, (outcome (pruneInterviewBuffer t.fates committedSeq) p).1 = .error e

/-- After the operation all is read back that was acknowledged and not dropped, all of it where the
operation rejects, and also by the operation itself where it reads. -/
structure Ledger.Tolerates (n : Ledger) (t : Turn) : Prop where
  readsBack : ∀ ev ∈ (n.step t).live, (n.step t).process.ReadsBack ev
  rejected : n.process.Rejects t → ∀ ev ∈ n.live, (n.step t).process.ReadsBack ev
  listed : ∀ sinceSeq maxCount, t.operation = .read sinceSeq maxCount → ∀ ev ∈ n.live,
    Listed sinceSeq maxCount ev (outcome (readInterviewEvents t.fates sinceSeq maxCount) n.process).1

/-- The line of an append starts behind a newline: there is no torn line, or the process heals it
now. -/
def Process.Begins (p : Process) (fates : Fates) : Prop :=
  Clean p.disk.raw ∨
    p.state = none ∧ ¬ (fates .healRead).Enoent ∧ ¬ (fates .healNewline).Enoent

instance (p : Process) (fates : Fates) : Decidable (p.Begins fates) := by
  unfold Process.Begins Clean
  infer_instance

/-- No written line starts behind a torn one, and the buffer is read where a compaction or the
caller goes by it. -/
def Ledger.Spared (n : Ledger) (t : Turn) : Prop :=
  match t.operation with
  | .append _ _ =>
    ((t.fates .line).Through → n.process.Begins t.fates) ∧ (t.fates .load).Through
  | .read _ _ => (t.fates .load).Through
  | .prune _ => True

instance (n : Ledger) (t : Turn) : Decidable (n.Spared t) := by
  unfold Ledger.Spared
  cases t.operation <;> infer_instance

def Held (live : List InterviewEvent) (raw : Utf16) : Prop :=
  ∃ front rest, raw = front ++ rest ∧ Clean front ∧ ∀ ev ∈ live, ev ∈ parseLines front

variable {live : List InterviewEvent} {raw : Utf16}

theorem held_nil (raw : Utf16) : Held [] raw :=
  ⟨[], raw, rfl, .inl rfl, fun _ hev => absurd hev List.not_mem_nil⟩

theorem Held.append (h : Held live raw) (t : Utf16) : Held live (raw ++ t) := by
  obtain ⟨front, rest, rfl, hclean, hlive⟩ := h
  exact ⟨front, rest ++ t, List.append_assoc front rest t, hclean, hlive⟩

theorem Held.mem (h : Held live raw) {ev : InterviewEvent} (hev : ev ∈ live) :
    ev ∈ parseLines raw := by
  obtain ⟨front, rest, rfl, hclean, hlive⟩ := h
  rw [hclean.parseLines_append]
  exact List.mem_append_left _ (hlive ev hev)

theorem Held.mono (h : Held live raw) {kept : List InterviewEvent} (hsub : kept ⊆ live) :
    Held kept raw := by
  obtain ⟨front, rest, hraw, hclean, hlive⟩ := h
  exact ⟨front, rest, hraw, hclean, fun ev hev => hlive ev (hsub hev)⟩

theorem held_of_clean (hclean : Clean raw) (hlive : ∀ ev ∈ live, ev ∈ parseLines raw) :
    Held live raw := ⟨raw, [], (List.append_nil raw).symm, hclean, hlive⟩

theorem Held.line (h : Held live raw) (hclean : Clean raw) (ev : InterviewEvent) :
    Held (live ++ [ev]) (raw ++ ev.line) := by
  have hlines : parseLines (raw ++ ev.line) = parseLines raw ++ [ev] := by
    rw [hclean.parseLines_append, parseLines_line]
  have hended : Clean (raw ++ ev.line) := by
    rw [InterviewEvent.line, ← List.append_assoc]
    exact clean_newline _
  refine held_of_clean hended ?_
  intro e he
  rw [hlines]
  rcases List.mem_append.mp he with hold | hnew
  · exact List.mem_append_left _ (h.mem hold)
  · exact List.mem_append_right _ hnew

theorem held_body {keep : List InterviewEvent} (h : ∀ ev ∈ live, ev ∈ keep) :
    Held live (body keep) := by
  refine held_of_clean (clean_body keep) ?_
  rw [parseLines_body]
  exact h

/-- A call that fails takes nothing away from the buffer. -/
theorem raw_leave (c : FileCall) (written : Option Written) (d : Disk) :
    ∃ t, (leave c written d).raw = d.raw ++ t := by
  cases written with
  | none => exact ⟨[], (List.append_nil _).symm⟩
  | some w =>
    cases c with
    | appendBuffer text => exact ⟨w.part text, rfl⟩
    | _ => exact ⟨[], (List.append_nil _).symm⟩

theorem raw_serve {c : FileCall} (hc : c ≠ .renameTmp) (d : Disk) :
    ∃ t, (serve c d).2.raw = d.raw ++ t := by
  cases c with
  | appendBuffer text => exact ⟨text, rfl⟩
  | renameTmp => exact absurd rfl hc
  | _ => exact ⟨[], (List.append_nil _).symm⟩

def Process.Holds (live : List InterviewEvent) (p : Process) : Prop := Held live p.disk.raw

variable {fates : Fates} {place : Place} {P : Process → Prop}
  {E : Failure → Process → Prop}

theorem outcome_attempt_through (h : (fates place).Through) (c : FileCall) (p : Process) :
    outcome (attempt fates place c) p =
      (.ok (serve c p.disk).1, { p with disk := (serve c p.disk).2 }) := by
  unfold Fate.Through at h
  show attempt fates place c p = _
  unfold attempt
  cases hfate : fates place with
  | through => rfl
  | fails code written =>
    rw [hfate] at h
    exact h.elim

theorem meets_attempt {c : FileCall} {Q : c.Answer → Process → Prop}
    (hok : ∀ p, P p → (fates place).Through →
      Q (serve c p.disk).1 { p with disk := (serve c p.disk).2 })
    (herror : ∀ p code written, P p → fates place = .fails code written →
      E code { p with disk := leave c written p.disk }) :
    Meets P (attempt fates place c) Q E := by
  intro p hp
  show Ended Q E (attempt fates place c p)
  unfold attempt
  cases hfate : fates place with
  | through =>
    have hthrough : (fates place).Through := by
      rw [hfate]
      trivial
    exact hok p hp hthrough
  | fails code written => exact herror p code written hp hfate

theorem meets_makeDir : Meets P (makeDir fates place) (fun _ => P) (fun _ => P) := by
  intro p hp
  show Ended _ _ (makeDir fates place p)
  unfold makeDir
  cases fates place with
  | through => exact hp
  | fails code written => exact hp

theorem attempt_holds {c : FileCall} (hc : c ≠ .renameTmp) :
    Meets (Process.Holds live) (attempt fates place c) (fun _ => Process.Holds live)
      (fun _ => Process.Holds live) := by
  refine meets_attempt ?_ ?_
  · intro p hp _
    obtain ⟨t, ht⟩ := raw_serve hc p.disk
    show Held live (serve c p.disk).2.raw
    rw [ht]
    exact Held.append hp t
  · intro p code written hp _
    obtain ⟨t, ht⟩ := raw_leave c written p.disk
    show Held live (leave c written p.disk).raw
    rw [ht]
    exact Held.append hp t

theorem leave_of_reads {c : FileCall} (hc : Reads c) (written : Option Written) (d : Disk) :
    leave c written d = d := by
  cases written with
  | none => rfl
  | some w => rcases hc with rfl | rfl | rfl <;> rfl

theorem attempt_reads {c : FileCall} (hc : Reads c) :
    Meets P (attempt fates place c) (fun _ => P) (fun _ => P) := by
  refine meets_attempt ?_ ?_
  · intro p hp _
    rw [serve_of_reads c p.disk hc]
    exact hp
  · intro p code written hp _
    rw [leave_of_reads hc]
    exact hp

theorem present_keeps (found : Option Utf16) :
    Meets P (present found) (fun _ => P) (fun _ => P) := by
  cases found with
  | none => exact meets_throw fun _ hp => hp
  | some raw => exact meets_pure fun _ hp => hp

theorem load_keeps (place : Place) : Meets P (load fates place) (fun _ => P) E := by
  refine Meets.tryCatch (R := fun _ => P) ?_ fun _ => meets_pure fun _ hp => hp
  refine Meets.bind (attempt_reads (.inl rfl)) fun found => ?_
  exact Meets.bind (present_keeps found) fun raw => meets_pure fun _ hp => hp

theorem readMetaNextSeq_keeps : Meets P (readMetaNextSeq fates) (fun _ => P) E := by
  refine Meets.tryCatch (R := fun _ => P) ?_ fun _ => meets_pure fun _ hp => hp
  exact Meets.bind (attempt_reads (.inr (.inl rfl))) fun found => meets_pure fun _ hp => hp

theorem statBuffer_keeps : Meets P (statBuffer fates) (fun _ => P) E := by
  refine Meets.tryCatch (R := fun _ => P) ?_ fun _ => meets_pure fun _ hp => hp
  exact Meets.bind (attempt_reads (.inr (.inr rfl))) fun size => meets_pure fun _ hp => hp

/-- A heal that returns leaves no torn line, unless an error of it was taken for a missing file. -/
theorem heal_meets :
    Meets (fun p => p.Holds live ∧ (Clean p.disk.raw ∨
        ¬ (fates .healRead).Enoent ∧ ¬ (fates .healNewline).Enoent)) (heal fates)
      (fun _ p => p.Holds live ∧ Clean p.disk.raw) (fun _ => Process.Holds live) := by
  refine Meets.tryCatch
    (R := fun e p => p.Holds live ∧ (e = .enoent → Clean p.disk.raw)) ?_ fun e => ?_
  · refine Meets.bind
      (R := fun found p => p.Holds live ∧ found = p.disk.buffer.map File.text ∧
        (Clean p.disk.raw ∨ ¬ (fates .healNewline).Enoent)) ?_ fun found => ?_
    · refine meets_attempt ?_ ?_
      · rintro p ⟨hlive, hheals⟩ _
        exact ⟨hlive, rfl, hheals.imp_right And.right⟩
      · rintro p code written ⟨hlive, hheals⟩ hfate
        rw [leave_of_reads (.inl rfl)]
        refine ⟨hlive, fun hcode => hheals.resolve_right fun hnone => hnone.1 ?_⟩
        rw [hfate]
        exact hcode
    · cases found with
      | none =>
        refine Meets.bind (R := fun _ _ => False) (meets_throw ?_) fun _ _ hfalse => hfalse.elim
        rintro p ⟨hlive, hfound, -⟩
        have hnone : p.disk.buffer = none := Option.map_eq_none_iff.mp hfound.symm
        have hraw : p.disk.raw = [] := by rw [Disk.raw, hnone]
        exact ⟨hlive, fun _ => .inl hraw⟩
      | some raw =>
        refine Meets.bind (R := fun found p => p.Holds live ∧ found = p.disk.raw ∧
          (Clean p.disk.raw ∨ ¬ (fates .healNewline).Enoent)) (meets_pure ?_) fun found => ?_
        · rintro p ⟨hlive, hfound, hheals⟩
          obtain ⟨file, hfile, htext⟩ := Option.map_eq_some_iff.mp hfound.symm
          have hraw : p.disk.raw = file.text := by rw [Disk.raw, hfile]
          exact ⟨hlive, htext.symm.trans hraw.symm, hheals⟩
        split_ifs with htorn
        · refine meets_attempt ?_ ?_
          · rintro p ⟨hlive, -, -⟩ _
            exact ⟨Held.append hlive [newline], clean_newline p.disk.raw⟩
          · rintro p code written ⟨hlive, hraw, hheals⟩ hfate
            obtain ⟨t, ht⟩ := raw_leave (.appendBuffer [newline]) written p.disk
            have hdirty : ¬ Clean p.disk.raw := by
              rw [← hraw]
              exact fun hclean => hclean.elim htorn.1 htorn.2
            refine ⟨?_, fun hcode => absurd ?_ (hheals.resolve_left hdirty)⟩
            · show Held live (leave _ written p.disk).raw
              rw [ht]
              exact Held.append hlive t
            · rw [hfate]
              exact hcode
        · refine meets_pure ?_
          rintro p ⟨hlive, hraw, -⟩
          rw [not_and_or, not_not, not_not, hraw] at htorn
          exact ⟨hlive, htorn⟩
  · split_ifs with hcode
    · exact meets_pure fun p hp => ⟨hp.1, hp.2 hcode⟩
    · exact meets_throw fun p hp => hp.1

theorem setState_keeps {Q : Disk → Prop} (state : Seeded) :
    Meets (fun p => Q p.disk) (setState state) (fun _ p => Q p.disk) E :=
  meets_modify fun _ hp => hp

theorem seed_keeps (Q R T : Disk → Prop)
    (h : Meets (fun p => Q p.disk) (heal fates) (fun _ p => R p.disk) (fun _ p => T p.disk)) :
    Meets (fun p => Q p.disk) (seed fates) (fun _ p => R p.disk) (fun _ p => T p.disk) := by
  refine Meets.bind h fun _ => ?_
  refine Meets.bind (load_keeps .seedRead) fun events => ?_
  refine Meets.bind readMetaNextSeq_keeps fun metaSeq => ?_
  refine Meets.bind statBuffer_keeps fun size => ?_
  exact Meets.bind (setState_keeps _) fun _ => meets_pure fun _ hp => hp

theorem ensureSeeded_meets :
    Meets (fun p => p.Holds live ∧ p.Begins fates) (ensureSeeded fates)
      (fun _ p => p.Holds live ∧ Clean p.disk.raw) (fun _ => Process.Holds live) := by
  refine Meets.bind (R := fun p₀ p => p₀ = p ∧ p.Holds live ∧ p.Begins fates)
    (meets_get fun p hp => ⟨rfl, hp⟩) fun p₀ => ?_
  cases hstate : p₀.state with
  | some state =>
    refine meets_pure ?_
    rintro p ⟨rfl, hlive, hclean | ⟨hnone, -⟩⟩
    · exact ⟨hlive, hclean⟩
    · rw [hstate] at hnone
      exact absurd hnone (by simp)
  | none =>
    refine Meets.imp (seed_keeps (fun d => Held live d.raw ∧ (Clean d.raw ∨
        ¬ (fates .healRead).Enoent ∧ ¬ (fates .healNewline).Enoent))
      (fun d => Held live d.raw ∧ Clean d.raw) (fun d => Held live d.raw) heal_meets) ?_
      (fun _ _ h => h) (fun _ _ h => h)
    rintro p ⟨-, hlive, hbegins⟩
    exact ⟨hlive, hbegins.imp_right And.right⟩

theorem heal_holds :
    Meets (Process.Holds live) (heal fates) (fun _ => Process.Holds live)
      (fun _ => Process.Holds live) := by
  refine Meets.tryCatch (R := fun _ => Process.Holds live) ?_ fun e => ?_
  · refine Meets.bind (attempt_reads (.inl rfl)) fun found => ?_
    refine Meets.bind (present_keeps found) fun raw => ?_
    split_ifs
    · exact attempt_holds (by simp)
    · exact meets_pure fun _ hp => hp
  · split_ifs
    · exact meets_pure fun _ hp => hp
    · exact meets_throw fun _ hp => hp

theorem ensureSeeded_holds :
    Meets (Process.Holds live) (ensureSeeded fates) (fun _ => Process.Holds live)
      (fun _ => Process.Holds live) := by
  refine Meets.bind (R := fun _ => Process.Holds live) (meets_get fun p hp => hp) fun p₀ => ?_
  cases p₀.state with
  | some state => exact meets_pure fun _ hp => hp
  | none =>
    exact seed_keeps (fun d => Held live d.raw) (fun d => Held live d.raw)
      (fun d => Held live d.raw) heal_holds

theorem rewrite_meets {kept keep : List InterviewEvent} (hkept : ∀ ev ∈ kept, ev ∈ keep) :
    Meets (Process.Holds live) (rewrite fates keep) (fun _ => Process.Holds kept)
      (fun _ => Process.Holds live) := by
  -- Until the rename the old lines stay, and behind it there is what was kept.
  refine Meets.bind meets_makeDir fun _ => ?_
  refine Meets.bind (R := fun _ p => p.Holds live ∧
      p.disk.tmp = some ⟨body keep, byteLength (body keep)⟩) (meets_attempt ?_ ?_) fun _ => ?_
  · exact fun p hp _ => ⟨hp, rfl⟩
  · intro p code written hp _
    obtain ⟨t, ht⟩ := raw_leave (.writeTmp (body keep)) written p.disk
    show Held live (leave _ written p.disk).raw
    rw [ht]
    exact Held.append hp t
  refine Meets.bind (R := fun _ => Process.Holds kept) (meets_attempt ?_ ?_) fun _ => ?_
  · rintro p ⟨-, htmp⟩ _
    have hraw : (serve .renameTmp p.disk).2.raw = body keep := by
      show Disk.raw ⟨p.disk.tmp, none, p.disk.metaFile⟩ = _
      rw [htmp]
      rfl
    show Held kept (serve .renameTmp p.disk).2.raw
    rw [hraw]
    exact held_body hkept
  · rintro p code written ⟨hp, -⟩ _
    obtain ⟨t, ht⟩ := raw_leave .renameTmp written p.disk
    show Held live (leave _ written p.disk).raw
    rw [ht]
    exact Held.append hp t
  · exact meets_modify fun _ hp => hp

theorem writeMetaNextSeq_holds (nextSeq : ℕ) :
    Meets (Process.Holds live) (writeMetaNextSeq fates nextSeq) (fun _ => Process.Holds live)
      (fun _ => Process.Holds live) :=
  Meets.bind meets_makeDir fun _ => attempt_holds (by simp)

theorem swap_meets (nextSeq : ℕ) {kept keep : List InterviewEvent}
    (hkept : ∀ ev ∈ kept, ev ∈ keep) :
    Meets (Process.Holds live) (do writeMetaNextSeq fates nextSeq; rewrite fates keep)
      (fun _ => Process.Holds kept) (fun _ => Process.Holds live) :=
  Meets.bind (writeMetaNextSeq_holds nextSeq) fun _ => rewrite_meets hkept

/-- A read of the buffer that goes through returns its lines. -/
theorem outcome_load_through (h : (fates place).Through) (p : Process) :
    outcome (load fates place) p = (.ok p.disk.events, p) := by
  have hread : outcome (readLines fates place) p =
      outcome (do let raw ← present (p.disk.buffer.map File.text); return parseLines raw) p :=
    outcome_bind_ok (outcome_attempt_through h .readBuffer p) _
  cases hbuffer : p.disk.buffer with
  | none =>
    rw [hbuffer] at hread
    have hthrows : outcome (readLines fates place) p = (.error .enoent, p) := hread
    have hevents : p.disk.events = [] := by
      rw [Disk.events, Disk.raw, hbuffer]
      exact parseLines_nil
    rw [hevents]
    exact outcome_tryCatch_error hthrows _
  | some file =>
    rw [hbuffer] at hread
    have hreturns : outcome (readLines fates place) p = (.ok (parseLines file.text), p) := hread
    have hevents : p.disk.events = parseLines file.text := by
      rw [Disk.events, Disk.raw, hbuffer]
    rw [hevents]
    exact outcome_tryCatch_ok hreturns _

theorem load_through (h : (fates place).Through) :
    Meets P (load fates place) (fun events p => P p ∧ events = p.disk.events) E := by
  intro p hp
  rw [outcome_load_through h]
  exact ⟨hp, rfl⟩

theorem load_meets :
    Meets P (load fates place)
      (fun events p => P p ∧ (events = p.disk.events ∨ events = [])) E := by
  -- A read that fails is taken for an empty buffer.
  by_cases hthrough : (fates place).Through
  · exact (load_through hthrough).imp (fun _ h => h) (fun _ _ h => ⟨h.1, .inl h.2⟩) fun _ _ h => h
  · refine Meets.tryCatch (R := fun _ => P) ?_ fun _ => meets_pure fun _ hp => ⟨hp, .inr rfl⟩
    refine Meets.bind (R := fun _ _ => False) (meets_attempt ?_ ?_) fun _ _ hfalse => hfalse.elim
    · exact fun _ _ h => absurd h hthrough
    · intro p code written hp _
      rw [leave_of_reads (.inl rfl)]
      exact hp

theorem appendLine_meets (ts : Utf16) (input : InterviewEventInput) :
    Meets (fun p => p.Holds live ∧ ((fates .line).Through → p.Begins fates))
      (appendLine fates ts input)
      (fun seq => Process.Holds (live ++ [newEvent seq ts input]))
      (fun _ => Process.Holds live) := by
  refine Meets.bind
    (R := fun _ p => p.Holds live ∧ ((fates .line).Through → Clean p.disk.raw)) ?_ fun state => ?_
  · rintro p ⟨hlive, hbegins⟩
    by_cases hline : (fates .line).Through
    · refine (ensureSeeded_meets p ⟨hlive, hbegins hline⟩).imp ?_ fun _ _ h => h
      exact fun _ _ h => ⟨h.1, fun _ => h.2⟩
    · refine (ensureSeeded_holds p hlive).imp ?_ fun _ _ h => h
      exact fun _ _ h => ⟨h, fun hthrough => absurd hthrough hline⟩
  refine Meets.bind (R := fun _ p => p.Holds live ∧ ((fates .line).Through → Clean p.disk.raw))
    (meets_modify fun _ hp => hp) fun _ => ?_
  refine Meets.bind (R := fun _ p => p.Holds live ∧ ((fates .line).Through → Clean p.disk.raw))
    (Meets.imp meets_makeDir (fun _ h => h) (fun _ _ h => h) fun _ _ h => h.1) fun _ => ?_
  refine Meets.bind (R := fun _ => Process.Holds (live ++ [newEvent state.nextSeq ts input]))
    (meets_attempt ?_ ?_) fun _ => ?_
  · rintro p ⟨hlive, hclean⟩ hthrough
    exact Held.line hlive (hclean hthrough) _
  · rintro p code written ⟨hlive, -⟩ _
    obtain ⟨t, ht⟩ := raw_leave (.appendBuffer (newEvent state.nextSeq ts input).line) written p.disk
    show Held live (leave _ written p.disk).raw
    rw [ht]
    exact Held.append hlive t
  · exact Meets.bind (meets_modify fun _ hp => hp) fun _ => meets_pure fun _ hp => hp

theorem mem_newerHalf_of_spares {p : Process} {ev : InterviewEvent} (hev : ev ∈ p.disk.events)
    (hspares : p.spares ev) : ev ∈ newerHalf p.disk.events := by
  have hhalves := List.take_append_drop (p.disk.events.length / 2) p.disk.events
  rw [← hhalves, List.mem_append] at hev
  rcases of_decide_eq_true hspares with holder | hnewer
  · exact hev.resolve_left holder
  · exact hnewer

theorem compact_meets (hload : (fates .load).Through) {p : Process} (hlive : p.Holds live) :
    Ended (fun _ => Process.Holds (p.survivors live)) (fun _ => Process.Holds live)
      (outcome (compact fates) p) := by
  have hmeets : Meets (fun q => q = p) (compact fates) (fun _ => Process.Holds (p.survivors live))
      (fun _ => Process.Holds live) := by
    refine Meets.bind (R := fun q r => q = p ∧ r = p) (meets_get fun q hq => ⟨hq, hq⟩) fun q => ?_
    split_ifs with hover
    · refine Meets.bind (load_through hload) fun events => ?_
      intro r hr
      obtain ⟨⟨rfl, rfl⟩, rfl⟩ := hr
      refine swap_meets _ ?_ r hlive
      intro ev hev
      rw [Process.survivors, if_pos hover, List.mem_filter] at hev
      exact mem_newerHalf_of_spares (Held.mem hlive hev.1) hev.2
    · refine meets_pure ?_
      rintro r ⟨rfl, rfl⟩
      rw [Process.survivors, if_neg hover]
      exact hlive
  exact hmeets p rfl

def Ledger.Sound (n : Ledger) : Prop := n.process.Holds n.live

variable {n : Ledger}

theorem Ledger.Sound.append (h : n.Sound) {ts : Utf16} {input : InterviewEventInput}
    (hbegins : (fates .line).Through → n.process.Begins fates) (hload : (fates .load).Through) :
    (n.append fates ts input).Sound := by
  have hline := appendLine_meets ts input n.process ⟨h, hbegins⟩
  unfold Ledger.append Ledger.Sound Process.lined
  rcases hout : outcome (appendLine fates ts input) n.process with ⟨result, p⟩
  rw [hout] at hline
  cases result with
  | error e =>
    have happend : outcome (appendInterviewEvent fates ts input) n.process = (.error e, p) :=
      outcome_bind_error hout _
    rw [happend]
    exact hline
  | ok seq =>
    have happend : outcome (appendInterviewEvent fates ts input) n.process =
        outcome (do compact fates; return seq) p := outcome_bind_ok hout _
    have hcompact := compact_meets hload hline
    rcases hend : outcome (compact fates) p with ⟨ended, q⟩
    rw [hend] at hcompact
    cases ended with
    | error e =>
      rw [happend, outcome_bind_error hend]
      exact Held.mono hcompact (List.subset_append_left _ _)
    | ok u =>
      rw [happend, outcome_bind_ok hend]
      exact hcompact

theorem Ledger.Sound.read (h : n.Sound) (sinceSeq : ℤ) (maxCount : ℕ) :
    (n.read fates sinceSeq maxCount).Sound := by
  have hmeets : Meets (Process.Holds n.live) (readInterviewEvents fates sinceSeq maxCount)
      (fun _ => Process.Holds n.live) (fun _ => Process.Holds n.live) := by
    refine Meets.bind ensureSeeded_holds fun _ => ?_
    exact Meets.bind (load_keeps .load) fun events => meets_pure fun _ hp => hp
  have hend := hmeets n.process h
  show Process.Holds n.live (outcome _ n.process).2
  rcases hout : outcome (readInterviewEvents fates sinceSeq maxCount) n.process with ⟨result, p⟩
  rw [hout] at hend
  cases result with
  | ok events => exact hend
  | error e => exact hend

theorem prune_meets (committedSeq : ℤ) :
    Meets (Process.Holds live) (pruneInterviewBuffer fates committedSeq)
      (fun _ => Process.Holds (uncommitted committedSeq live)) (fun _ => Process.Holds live) := by
  refine Meets.bind ensureSeeded_holds fun state => ?_
  refine Meets.bind load_meets fun events => ?_
  dsimp only
  split_ifs with hnone
  · exact meets_pure fun p hp => Held.mono hp.1 List.filter_sublist.subset
  · rintro p ⟨hlive, hevents⟩
    have hread : events = p.disk.events := by
      refine hevents.resolve_right fun hempty => hnone ?_
      rw [hempty]
      rfl
    refine swap_meets _ ?_ p hlive
    intro ev hev
    obtain ⟨hmem, hlater⟩ := List.mem_filter.mp hev
    rw [hread]
    exact List.mem_filter.mpr ⟨Held.mem hlive hmem, hlater⟩

theorem Ledger.Sound.prune (h : n.Sound) (committedSeq : ℤ) :
    (n.prune fates committedSeq).Sound := by
  have hend : Ended _ _ (outcome (pruneInterviewBuffer fates committedSeq) n.process) :=
    prune_meets committedSeq n.process h
  unfold Ledger.prune Ledger.Sound
  rcases hout : outcome (pruneInterviewBuffer fates committedSeq) n.process with ⟨result, p⟩
  rw [hout] at hend
  cases result with
  | ok u => exact hend
  | error e => exact hend

theorem Ledger.Sound.step (h : n.Sound) {t : Turn} (hspared : n.Spared t) : (n.step t).Sound := by
  unfold Ledger.Spared at hspared
  unfold Ledger.step
  cases hop : t.operation with
  | append ts input =>
    rw [hop] at hspared
    exact h.append hspared.1 hspared.2
  | read sinceSeq maxCount => exact h.read sinceSeq maxCount
  | prune committedSeq => exact h.prune committedSeq

theorem sound_start (d : Disk) : (Ledger.start d).Sound := held_nil d.raw

theorem outcome_heal_through (p : Process) :
    outcome (heal allThrough) p = (.ok (), { p with disk := p.disk.healed }) := by
  have hread : outcome (endLine allThrough) p = outcome (do
      let raw ← present (p.disk.buffer.map File.text)
      if raw ≠ [] ∧ raw.getLast? ≠ some newline then
        attempt allThrough .healNewline (.appendBuffer [newline])
      else pure ()) p := rfl
  cases hbuffer : p.disk.buffer with
  | none =>
    rw [hbuffer] at hread
    have hthrows : outcome (endLine allThrough) p = (.error .enoent, p) := hread
    have hraw : p.disk.raw = [] := by rw [Disk.raw, hbuffer]
    have hhealed : p.disk.healed = p.disk := by
      rw [Disk.healed, if_neg fun h => h.1 hraw]
    rw [hhealed]
    exact outcome_tryCatch_error hthrows _
  | some file =>
    have hraw : p.disk.raw = file.text := by rw [Disk.raw, hbuffer]
    have hreturns : outcome (endLine allThrough) p = (.ok (), { p with disk := p.disk.healed }) := by
      rw [hread, hbuffer]
      unfold Disk.healed
      rw [hraw]
      show outcome (if _ then _ else _) p = _
      split_ifs with htorn
      · rfl
      · rfl
    exact outcome_tryCatch_ok hreturns _

theorem outcome_ensureSeeded_through (p : Process) :
    outcome (ensureSeeded allThrough) p =
      (.ok (p.disk.settled p.state).1,
        ⟨(p.disk.settled p.state).2, some (p.disk.settled p.state).1⟩) := by
  obtain ⟨d, state⟩ := p
  cases state with
  | some state => rfl
  | none =>
    have hheal := outcome_heal_through ⟨d, none⟩
    have hload : outcome (load allThrough .seedRead) ⟨d.healed, none⟩ =
        (.ok d.healed.events, ⟨d.healed, none⟩) := outcome_load_through (through_allThrough _) _
    have hsize : (d.healed.buffer.map File.size).getD 0 = d.healed.size := by
      unfold Disk.size
      cases d.healed.buffer <;> rfl
    show outcome (seed allThrough) ⟨d, none⟩ = _
    unfold seed
    rw [outcome_bind_ok hheal, outcome_bind_ok hload]
    show (Except.ok (⟨_, (d.healed.buffer.map File.size).getD 0⟩ : Seeded),
      Process.mk d.healed (some ⟨_, (d.healed.buffer.map File.size).getD 0⟩)) = _
    rw [hsize]
    rfl

theorem outcome_swap_through (nextSeq : ℕ) (keep : List InterviewEvent) (d : Disk) (s : Seeded) :
    outcome (do writeMetaNextSeq allThrough nextSeq; rewrite allThrough keep) ⟨d, some s⟩ =
      (.ok (), ⟨.swapped keep nextSeq, some ⟨s.nextSeq, byteLength (body keep)⟩⟩) := rfl

theorem outcome_compact_through (d : Disk) (s : Seeded) :
    outcome (compact allThrough) ⟨d, some s⟩ =
      if INTERVIEW_BUFFER_MAX_BYTES < s.approxBytes then
        (.ok (), ⟨.swapped (newerHalf d.events) s.nextSeq,
          some ⟨s.nextSeq, byteLength (body (newerHalf d.events))⟩⟩)
      else (.ok (), ⟨d, some s⟩) := by
  have hload := outcome_load_through (through_allThrough .load) ⟨d, some s⟩
  unfold compact
  rw [outcome_bind_ok (x := get) rfl]
  by_cases hover : (⟨d, some s⟩ : Process).Overflows
  · have hsize : INTERVIEW_BUFFER_MAX_BYTES < s.approxBytes := hover
    rw [if_pos hover, if_pos hsize, outcome_bind_ok hload]
    exact outcome_swap_through _ _ _ _
  · have hsize : ¬ INTERVIEW_BUFFER_MAX_BYTES < s.approxBytes := hover
    rw [if_neg hover, if_neg hsize]
    rfl

/-- Without a failing call an append does what `Buffer` says of it. -/
theorem outcome_append_through (ts : Utf16) (input : InterviewEventInput) (p : Process) :
    outcome (appendInterviewEvent allThrough ts input) p =
      let result :=
        Interleave.Prog.finish serve (Interview.appendInterviewEvent ts input p.state) p.disk
      (.ok result.1.1, ⟨result.2, some result.1.2⟩) := by
  have hseed := outcome_ensureSeeded_through p
  rw [appendInterviewEvent_eq, Interleave.Prog.finish_bind, finish_ensureSeeded,
    finish_appendSeeded]
  generalize (p.disk.settled p.state).1 = s at hseed ⊢
  generalize (p.disk.settled p.state).2 = d at hseed ⊢
  have hline : outcome (appendLine allThrough ts input) p = (.ok s.nextSeq, ⟨d.written ts input s,
      some ⟨s.nextSeq + 1, s.approxBytes + byteLength (addedEvent ts input s).line⟩⟩) :=
    outcome_bind_ok hseed _
  have hcompact := outcome_compact_through (d.written ts input s)
    ⟨s.nextSeq + 1, s.approxBytes + byteLength (addedEvent ts input s).line⟩
  dsimp only at hcompact
  unfold appendInterviewEvent
  rw [outcome_bind_ok hline]
  by_cases hover : Overflows ts input s
  · have hsize := hover
    unfold Overflows at hsize
    rw [if_pos hsize] at hcompact
    rw [if_pos hover, outcome_bind_ok hcompact]
    rfl
  · have hsize := hover
    unfold Overflows at hsize
    rw [if_neg hsize] at hcompact
    rw [if_neg hover, outcome_bind_ok hcompact]
    rfl

theorem outcome_read_through (sinceSeq : ℤ) (maxCount : ℕ) (p : Process) :
    outcome (readInterviewEvents allThrough sinceSeq maxCount) p =
      let result := Interleave.Prog.finish serve
        (Interview.readInterviewEvents sinceSeq maxCount p.state) p.disk
      (.ok result.1.1, ⟨result.2, some result.1.2⟩) := by
  have hseed := outcome_ensureSeeded_through p
  have hload : outcome (load allThrough .load) _ = _ :=
    outcome_load_through (through_allThrough _)
      ⟨(p.disk.settled p.state).2, some (p.disk.settled p.state).1⟩
  rw [finish_readInterviewEvents]
  unfold readInterviewEvents
  rw [outcome_bind_ok hseed, outcome_bind_ok hload]
  rfl

theorem outcome_prune_through (committedSeq : ℤ) (p : Process) :
    outcome (pruneInterviewBuffer allThrough committedSeq) p =
      let result := Interleave.Prog.finish serve
        (Interview.pruneInterviewBuffer committedSeq p.state) p.disk
      (.ok (), ⟨result.2, some result.1⟩) := by
  have hseed := outcome_ensureSeeded_through p
  have hload : outcome (load allThrough .load) _ = _ :=
    outcome_load_through (through_allThrough _)
      ⟨(p.disk.settled p.state).2, some (p.disk.settled p.state).1⟩
  rw [pruneInterviewBuffer_eq, Interleave.Prog.finish_bind, finish_ensureSeeded, finish_pruneSeeded]
  unfold pruneInterviewBuffer
  rw [outcome_bind_ok hseed, outcome_bind_ok hload]
  dsimp only
  split_ifs with hnone
  · rfl
  · exact outcome_swap_through _ _ _ _

theorem listed_take {events : List InterviewEvent} {ev : InterviewEvent} (hev : ev ∈ events)
    (sinceSeq : ℤ) (maxCount : ℕ) : Listed sinceSeq maxCount ev
      (.ok ((events.filter fun ev => sinceSeq ≤ ev.seq).take maxCount)) := by
  intro listed hlisted hsince
  obtain rfl := Except.ok.inj hlisted
  have hfrom : ev ∈ events.filter fun ev => sinceSeq ≤ ev.seq :=
    List.mem_filter.mpr ⟨hev, decide_eq_true hsince⟩
  rcases Nat.le_total (events.filter fun ev => sinceSeq ≤ ev.seq).length maxCount with hall | hcut
  · left
    rw [List.take_of_length_le hall]
    exact hfrom
  · exact .inr (List.length_take_of_le hcut)

theorem Process.readsBack_iff (p : Process) (ev : InterviewEvent) :
    p.ReadsBack ev ↔ ev ∈ p.disk.events := by
  have hevents : (p.disk.settled p.state).2.events = p.disk.events := by
    cases p.state with
    | none => exact p.disk.events_healed
    | some s => rfl
  have hread : ∀ sinceSeq maxCount,
      (outcome (readInterviewEvents allThrough sinceSeq maxCount) p).1 =
        .ok ((p.disk.events.filter fun ev => sinceSeq ≤ ev.seq).take maxCount) := by
    intro sinceSeq maxCount
    rw [outcome_read_through, finish_readInterviewEvents, hevents]
  constructor
  · intro h
    -- a list longer than the buffer is never full
    obtain ⟨events, hok, hlisted⟩ := h ev.seq (p.disk.events.length + 1)
    rw [hread] at hok
    obtain rfl := Except.ok.inj hok
    rcases hlisted _ rfl (Int.le_refl _) with hmem | hfull
    · exact (List.mem_filter.mp (List.mem_of_mem_take hmem)).1
    · have hle : ((p.disk.events.filter fun e => (ev.seq : ℤ) ≤ e.seq).take
          (p.disk.events.length + 1)).length ≤ p.disk.events.length :=
        ((List.take_sublist _ _).trans List.filter_sublist).length_le
      rw [hfull] at hle
      exact absurd hle (Nat.not_succ_le_self _)
  · exact fun hev sinceSeq maxCount => ⟨_, hread sinceSeq maxCount, listed_take hev _ _⟩

instance (p : Process) (ev : InterviewEvent) : Decidable (p.ReadsBack ev) :=
  decidable_of_iff _ (p.readsBack_iff ev).symm

theorem Ledger.Sound.readsBack (h : n.Sound) : ∀ ev ∈ n.live, n.process.ReadsBack ev :=
  fun ev hev => (n.process.readsBack_iff ev).mpr (Held.mem h hev)

theorem Ledger.Sound.listed (h : n.Sound) (hload : (fates .load).Through) (sinceSeq : ℤ)
    (maxCount : ℕ) {ev : InterviewEvent} (hev : ev ∈ n.live) : Listed sinceSeq maxCount ev
      (outcome (readInterviewEvents fates sinceSeq maxCount) n.process).1 := by
  have hmeets : Meets (Process.Holds n.live) (readInterviewEvents fates sinceSeq maxCount)
      (fun events _ => Listed sinceSeq maxCount ev (.ok events)) (fun _ _ => True) := by
    refine Meets.bind (ensureSeeded_holds.imp (fun _ h => h) (fun _ _ h => h) fun _ _ _ => trivial)
      fun _ => ?_
    refine Meets.bind (load_through hload) fun events => meets_pure ?_
    rintro p ⟨hlive, rfl⟩
    exact listed_take (Held.mem hlive hev) _ _
  have hend := hmeets n.process h
  rcases hout : outcome (readInterviewEvents fates sinceSeq maxCount) n.process with ⟨result, p⟩
  rw [hout] at hend
  cases result with
  | ok events => exact hend
  | error e => exact fun events hok => absurd hok (by simp)

theorem Ledger.live_step_of_rejects {t : Turn} (h : n.process.Rejects t) :
    (n.step t).live = n.live := by
  unfold Process.Rejects at h
  unfold Ledger.step
  cases hop : t.operation with
  | append ts input =>
    rw [hop] at h
    obtain ⟨e, he⟩ := h
    unfold Ledger.append
    dsimp only at he ⊢
    rw [he]
  | read sinceSeq maxCount => rfl
  | prune committedSeq =>
    rw [hop] at h
    obtain ⟨e, he⟩ := h
    unfold Ledger.prune
    dsimp only at he ⊢
    rw [he]

theorem Ledger.Sound.tolerates (h : n.Sound) {t : Turn} (hspared : n.Spared t) :
    n.Tolerates t := by
  have hnext := h.step hspared
  refine ⟨hnext.readsBack, ?_, ?_⟩
  · intro hrejects ev hev
    refine hnext.readsBack ev ?_
    rw [Ledger.live_step_of_rejects hrejects]
    exact hev
  · intro sinceSeq maxCount hop ev hev
    have hload : (t.fates .load).Through := by
      unfold Ledger.Spared at hspared
      rw [hop] at hspared
      exact hspared
    exact h.listed hload sinceSeq maxCount hev

/-- Whatever else fails, a run loses no acknowledged event in which no written line starts behind a
torn one and no failed read is taken for an empty buffer. -/
theorem run_tolerates (d : Disk) (turns : List Turn)
    (h : Interleave.Along Ledger.step Ledger.Spared (.start d) turns) :
    Interleave.Along Ledger.step Ledger.Tolerates (.start d) turns :=
  Interleave.Along.mono (fun _ _ hsound hspared => Ledger.Sound.step hsound hspared)
    (fun _ _ hsound hspared => Ledger.Sound.tolerates hsound hspared) (sound_start d) h

def noDisk : Disk := ⟨none, none, none⟩

def failsAt (place : Place) : Fates := fun p =>
  if p = place then .fails .other (some ⟨1, false, 1⟩) else .through

def hello : InterviewEventInput := ⟨none, [], [], [], none, none⟩

theorem run_tolerates_torn :
    let turns : List Turn := [⟨.append [] hello, allThrough⟩, ⟨.append [] hello, failsAt .line⟩,
      ⟨.prune 5, failsAt .rename⟩, ⟨.read 0 10, allThrough⟩]
    Interleave.Along Ledger.step Ledger.Spared (.start noDisk) turns ∧
      Interleave.Along Ledger.step Ledger.Tolerates (.start noDisk) turns := by
  have hspared : Interleave.Along Ledger.step Ledger.Spared (.start noDisk)
      [⟨.append [] hello, allThrough⟩, ⟨.append [] hello, failsAt .line⟩,
        ⟨.prune 5, failsAt .rename⟩, ⟨.read 0 10, allThrough⟩] := by decide
  exact ⟨hspared, run_tolerates noDisk _ hspared⟩

/-- An append that fails in the middle of its line takes the next one with it. -/
theorem torn_line_swallows_next : ¬ Interleave.Along Ledger.step Ledger.Tolerates (.start noDisk)
    [⟨.append [] hello, failsAt .line⟩, ⟨.append [] hello, allThrough⟩] := by
  rintro ⟨-, hsecond, -⟩
  have hlost : ¬ ∀ ev ∈ (((Ledger.start noDisk).step ⟨.append [] hello, failsAt .line⟩).step
      ⟨.append [] hello, allThrough⟩).live,
      (((Ledger.start noDisk).step ⟨.append [] hello, failsAt .line⟩).step
        ⟨.append [] hello, allThrough⟩).process.ReadsBack ev := by decide +kernel
  exact hlost hsecond.readsBack

end Memclaw.Interview.Faults
