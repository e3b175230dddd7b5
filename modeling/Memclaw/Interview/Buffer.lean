import Memclaw.Interview.BufferDefs

/-! What the calls on the buffer do: what a restart reads after each of them, and after a crash in
the middle of one. -/

namespace Memclaw.Interview

open Memclaw.Lib Memclaw.Lib.JsonText
open Memclaw.Lib.Interleave.Prog

theorem eventOf_fields (ev : InterviewEvent) :
    eventOf (.object (ev.fields.map member)) = some ev := by
  obtain ⟨seq, ts, sessionId, role, kind, content, tool, outcome⟩ := ev
  have hseq : number (.number (digits seq)) = some seq := natOf_digits seq
  cases sessionId <;> cases tool <;> cases outcome <;>
    simp [eventOf, InterviewEvent.fields, optional, nullable, member, Scalar.value, Value.get, utf16,
      hseq, text, nullableText, optionalText]

theorem parseLine_fields (ev : InterviewEvent) : parseLine (stringify ev.fields) = some ev := by
  obtain ⟨rest, hrest⟩ := stringify_cons ev.fields
  have hwhite : ¬ (stringify ev.fields).all isWhite = true := by
    rw [hrest, List.all_cons]
    exact fun h => absurd (Bool.and_eq_true_iff.mp h).1 (by decide)
  rw [parseLine, if_neg hwhite, parse_stringify]
  exact eventOf_fields ev

theorem parseLine_of_parse {s : Utf16} (h : parse s = none) : parseLine s = none := by
  rw [parseLine, h]
  exact ite_self none

theorem parseLines_nil : parseLines [] = [] := rfl

theorem parseLines_newline (raw t : Utf16) :
    parseLines (raw ++ newline :: t) = parseLines raw ++ parseLines t := by
  rw [parseLines, List.splitOn_append_cons_self, List.filterMap_append]
  rfl

theorem parseLines_one {s : Utf16} (h : newline ∉ s) : parseLines s = (parseLine s).toList := by
  rw [parseLines, List.splitOn_eq_singleton h]
  cases hline : parseLine s with
  | none => rw [List.filterMap_cons_none hline]; rfl
  | some ev => rw [List.filterMap_cons_some hline]; rfl

def Clean (raw : Utf16) : Prop := raw = [] ∨ raw.getLast? = some newline

theorem Clean.parseLines_append {raw : Utf16} (h : Clean raw) (t : Utf16) :
    parseLines (raw ++ t) = parseLines raw ++ parseLines t := by
  rcases h with rfl | h
  · rfl
  · obtain ⟨front, rfl⟩ := List.getLast?_eq_some_iff.mp h
    rw [List.append_assoc, List.singleton_append, parseLines_newline, parseLines_newline,
      parseLines_nil, List.append_nil]

theorem clean_newline (raw : Utf16) : Clean (raw ++ [newline]) :=
  .inr (by rw [List.getLast?_append]; rfl)

theorem parseLines_line (ev : InterviewEvent) : parseLines ev.line = [ev] := by
  rw [InterviewEvent.line, parseLines_newline, parseLines_nil, List.append_nil,
    parseLines_one (newline_notMem_stringify _), parseLine_fields]
  rfl

theorem clean_body (events : List InterviewEvent) : Clean (body events) := by
  unfold body
  split_ifs with hnone
  · rw [hnone]; exact .inl rfl
  · exact clean_newline _

theorem parseLines_body (events : List InterviewEvent) : parseLines (body events) = events := by
  unfold body
  split_ifs with hnone
  · rw [hnone]; rfl
  · rw [parseLines_newline, parseLines_nil, List.append_nil, parseLines, List.splitOn_intercalate]
    · rw [List.filterMap_map]
      have hread : parseLine ∘ (fun ev => stringify (InterviewEvent.fields ev)) = some :=
        funext parseLine_fields
      rw [hread, List.filterMap_some]
    · intro line hline
      obtain ⟨ev, -, rfl⟩ := List.mem_map.mp hline
      exact newline_notMem_stringify _
    · simpa using hnone

theorem Leftover.parse {fields : List Field} {part : Utf16}
    (h : Leftover (stringify fields) part) : part = stringify fields ∨ parse part = none := by
  cases h with
  | cut k =>
    rcases eq_or_ne ((stringify fields).drop k) [] with hall | hmore
    · exact .inl (List.take_of_length_le (List.drop_eq_nil_iff.mp hall))
    · exact .inr (parse_part (List.take_append_drop k _).symm hmore)
  | inside k u hk hu =>
    right
    obtain ⟨rest, hrest⟩ := stringify_cons fields
    cases k with
    | zero =>
      show JsonText.parse [0xFFFD] = none
      decide
    | succ k =>
      rw [hrest, List.take_succ_cons]
      exact parse_spoiled (by decide) (by decide) _

theorem Leftover.of_newline {s part : Utf16} (h : Leftover (s ++ [newline]) part) :
    part = s ++ [newline] ∨ Leftover s part := by
  cases h with
  | cut k =>
    rcases Nat.lt_or_ge s.length k with hall | hpart
    · exact .inl (List.take_of_length_le (by simpa using Nat.succ_le_of_lt hall))
    · rw [List.take_append_of_le_length hpart]
      exact .inr (.cut k)
  | inside k u hk hu =>
    rcases Nat.lt_or_ge k s.length with hpart | hlast
    · rw [List.getElem?_append_left hpart] at hk
      rw [List.take_append_of_le_length (Nat.le_of_lt hpart)]
      exact .inr (.inside k u hk hu)
    · rw [List.getElem?_append_right hlast] at hk
      obtain ⟨hlt, rfl⟩ := List.getElem?_eq_some_iff.mp hk
      simp only [List.getElem_singleton] at hu
      exact absurd hu (by decide)

theorem Leftover.newline_notMem {s part : Utf16} (h : Leftover s part) (hs : newline ∉ s) :
    newline ∉ part := by
  cases h with
  | cut k => exact fun hmem => hs (List.mem_of_mem_take hmem)
  | inside k u hk hu =>
    rw [List.mem_append, List.mem_singleton, not_or]
    exact ⟨fun hmem => hs (List.mem_of_mem_take hmem), by decide⟩

theorem Leftover.parseLines_line {ev : InterviewEvent} {part : Utf16}
    (h : Leftover ev.line part) : parseLines part = [] ∨ parseLines part = [ev] := by
  rcases h.of_newline with rfl | hpart
  · exact .inr (Interview.parseLines_line ev)
  · rw [parseLines_one (hpart.newline_notMem (newline_notMem_stringify _))]
    rcases hpart.parse with rfl | hnone
    · right
      rw [parseLine_fields]
      rfl
    · left
      rw [parseLine_of_parse hnone]
      rfl

theorem metaNextSeq_metaText (n : ℕ) : metaNextSeq (metaText n) = n := by
  have hn : number (.number (digits n)) = some n := natOf_digits n
  rw [metaNextSeq, metaText, parse_stringify]
  simp [member, Scalar.value, Value.get, hn]

theorem Leftover.metaNextSeq {n : ℕ} {part : Utf16} (h : Leftover (metaText n) part) :
    metaNextSeq part = 0 ∨ metaNextSeq part = n := by
  rcases h.parse with rfl | hnone
  · exact .inr (metaNextSeq_metaText n)
  · left
    rw [Interview.metaNextSeq, hnone]

def Disk.events (d : Disk) : List InterviewEvent := parseLines d.raw

def Disk.metaSeq (d : Disk) : ℕ := (d.metaFile.map metaNextSeq).getD 0

def Disk.nextSeq (d : Disk) : ℕ := max (tailSeq d.events) d.metaSeq

def Disk.healed (d : Disk) : Disk :=
  if d.raw ≠ [] ∧ d.raw.getLast? ≠ some newline then
    d.appendBuffer [newline] (d.size + byteLength [newline])
  else d

def Disk.settled (d : Disk) (state : Option Seeded) : Seeded × Disk :=
  match state with
  | some state => (state, d)
  | none => (⟨d.healed.nextSeq, d.healed.size⟩, d.healed)

@[simp] theorem Disk.raw_appendBuffer (d : Disk) (text : Utf16) (size : ℕ) :
    (d.appendBuffer text size).raw = d.raw ++ text := rfl

@[simp] theorem Disk.metaSeq_appendBuffer (d : Disk) (text : Utf16) (size : ℕ) :
    (d.appendBuffer text size).metaSeq = d.metaSeq := rfl

theorem Disk.events_appendNewline (d : Disk) (size : ℕ) :
    (d.appendBuffer [newline] size).events = d.events := by
  rw [events, raw_appendBuffer, parseLines_newline, parseLines_nil, List.append_nil]
  rfl

theorem Disk.events_healed (d : Disk) : d.healed.events = d.events := by
  unfold healed
  split_ifs
  · exact d.events_appendNewline _
  · rfl

theorem Disk.metaSeq_healed (d : Disk) : d.healed.metaSeq = d.metaSeq := by
  unfold healed
  split_ifs <;> rfl

theorem Disk.nextSeq_healed (d : Disk) : d.healed.nextSeq = d.nextSeq := by
  rw [nextSeq, nextSeq, events_healed, metaSeq_healed]

theorem Disk.clean_healed (d : Disk) : Clean d.healed.raw := by
  unfold healed
  split_ifs with htorn
  · exact clean_newline _
  · rw [not_and_or, not_not, not_not] at htorn
    exact htorn

theorem finish_load (d : Disk) : finish serve load d = (d.events, d) := by
  unfold load readBuffer
  rw [finish_bind, finish_ask]
  show ((_ : List InterviewEvent), d) = _
  congr 1
  unfold Disk.events Disk.raw
  cases hbuffer : d.buffer with
  | none => simp [serve, hbuffer, parseLines_nil]
  | some file => simp [serve, hbuffer]

theorem finish_heal (d : Disk) :
    finish serve (heal (d.buffer.map File.text)) d = ((), d.healed) := by
  unfold Disk.healed
  cases hbuffer : d.buffer with
  | none =>
    have hraw : d.raw = [] := by simp [Disk.raw, hbuffer]
    rw [if_neg fun h => h.1 hraw]
    rfl
  | some file =>
    have hraw : d.raw = file.text := by simp [Disk.raw, hbuffer]
    show finish serve (if file.text ≠ [] ∧ file.text.getLast? ≠ some newline then _ else _) d = _
    rw [hraw]
    split_ifs <;> rfl

theorem finish_ensureSeeded (state : Option Seeded) (d : Disk) :
    finish serve (ensureSeeded state) d = d.settled state := by
  cases state with
  | some state => rfl
  | none =>
    have hstat : (d.healed.buffer.map File.size).getD 0 = d.healed.size := by
      unfold Disk.size
      cases d.healed.buffer <;> rfl
    unfold ensureSeeded
    simp only [finish_bind, readBuffer, statBuffer, finish_ask, finish_load]
    show (_ : Seeded × Disk) = _
    have hheal := finish_heal d
    have hmeta : finish serve readMetaNextSeq d.healed = (d.healed.metaSeq, d.healed) := rfl
    simp only [serve] at hheal ⊢
    rw [hheal]
    simp only [pure_eq, finish_done]
    rw [hmeta, hstat]
    rfl

def Reads (c : FileCall) : Prop := c = .readBuffer ∨ c = .readMeta ∨ c = .statBuffer

theorem serve_of_reads (c : FileCall) (d : Disk) (h : Reads c) : (serve c d).2 = d := by
  rcases h with rfl | rfl | rfl <;> rfl

theorem not_torn_of_reads (c : FileCall) (d d' : Disk) (h : Reads c) : ¬ Torn c d d' := by
  intro htorn
  rcases h with rfl | rfl | rfl <;> cases htorn

theorem renameTmp_notMem_of_reads {calls : List FileCall} (h : ∀ c ∈ calls, Reads c) :
    .renameTmp ∉ calls := fun hmem => absurd (h _ hmem) (by simp [Reads])

structure Untouched (d : Disk) (calls : List FileCall) (d' : Disk) : Prop where
  unswapped : .renameTmp ∉ calls
  events : d'.events = d.events
  metaSeq : d'.metaSeq = d.metaSeq

theorem Untouched.nextSeq {d d' : Disk} {calls : List FileCall} (h : Untouched d calls d') :
    d'.nextSeq = d.nextSeq := by
  rw [Disk.nextSeq, Disk.nextSeq, h.events, h.metaSeq]

theorem Untouched.of_eq {d d' : Disk} {calls : List FileCall}
    (h : .renameTmp ∉ calls ∧ d' = d) : Untouched d calls d' := by
  obtain ⟨hcalls, rfl⟩ := h
  exact ⟨hcalls, rfl, rfl⟩

theorem Untouched.trans {d d₁ d₂ : Disk} {calls later : List FileCall}
    (h : Untouched d calls d₁) (hlater : Untouched d₁ later d₂) :
    Untouched d (calls ++ later) d₂ where
  unswapped := by
    rw [List.mem_append, not_or]
    exact ⟨h.unswapped, hlater.unswapped⟩
  events := hlater.events.trans h.events
  metaSeq := hlater.metaSeq.trans h.metaSeq

theorem Leftover.eq_nil_or_newline {part : Utf16} (h : Leftover [newline] part) :
    part = [] ∨ part = [newline] := by
  rcases Leftover.of_newline (s := []) h with rfl | hpart
  · exact .inr rfl
  · cases hpart with
    | cut k => exact .inl List.take_nil
    | inside k u hk hu => exact absurd hk (by simp)

theorem crashes_heal {d d' : Disk} {calls : List FileCall} (raw : Option Utf16)
    (h : Crashes serve Torn (heal raw) d calls d') : Untouched d calls d' := by
  cases raw with
  | none =>
    obtain ⟨rfl, rfl⟩ := h.of_done
    exact .of_eq ⟨List.not_mem_nil, rfl⟩
  | some raw =>
    unfold heal at h
    dsimp only at h
    split_ifs at h with htorn
    · rcases h.of_ask with ⟨rfl, rfl | hpart⟩ | ⟨rfl, rfl⟩
      · exact .of_eq ⟨List.not_mem_nil, rfl⟩
      · cases hpart with
        | appendBuffer hpart size =>
          refine ⟨List.not_mem_nil, ?_, rfl⟩
          rcases hpart.eq_nil_or_newline with rfl | rfl
          · rw [Disk.events, Disk.raw_appendBuffer, List.append_nil]
            rfl
          · exact d.events_appendNewline _
      · exact ⟨by simp, d.events_appendNewline _, rfl⟩
    · obtain ⟨rfl, rfl⟩ := h.of_done
      exact .of_eq ⟨List.not_mem_nil, rfl⟩

theorem trace_heal (d : Disk) (raw : Option Utf16) : .renameTmp ∉ trace serve (heal raw) d := by
  cases raw with
  | none => exact List.not_mem_nil
  | some raw =>
    unfold heal
    dsimp only
    split_ifs
    · simp [appendBuffer]
    · exact List.not_mem_nil

theorem untouched_healed (d : Disk) (calls : List FileCall) (h : .renameTmp ∉ calls) :
    Untouched d calls d.healed := ⟨h, d.events_healed, d.metaSeq_healed⟩

theorem crashes_ensureSeeded {d d' : Disk} {calls : List FileCall} {state : Option Seeded}
    (h : Crashes serve Torn (ensureSeeded state) d calls d') : Untouched d calls d' := by
  -- Seeding changes nothing that is read back, also where it dies.
  cases state with
  | some state =>
    obtain ⟨rfl, rfl⟩ := h.of_done
    exact .of_eq ⟨List.not_mem_nil, rfl⟩
  | none =>
    rcases h.of_call with ⟨rfl, rfl | hcut⟩ | ⟨later, rfl, hlater⟩
    · exact .of_eq ⟨List.not_mem_nil, rfl⟩
    · exact absurd hcut (not_torn_of_reads _ _ _ (.inl rfl))
    have hread : Untouched d [.readBuffer] d := .of_eq ⟨by simp, rfl⟩
    refine hread.trans ?_
    have hheal : Crashes serve Torn (heal (d.buffer.map File.text) >>= fun _ => _) d later d' :=
      hlater
    rcases hheal.of_bind with hheal | ⟨rest, rfl, hrest⟩
    · exact crashes_heal _ hheal
    refine (untouched_healed d _ (trace_heal d _)).trans ?_
    rw [finish_heal] at hrest
    have hsafe : Safe Reads (fun _ _ => True) none (do
        let events ← load
        let metaSeq ← readMetaNextSeq
        let size ← statBuffer
        return (⟨max (tailSeq events) metaSeq, size.getD 0⟩ : Seeded)) :=
      ⟨.inl rfl, fun _ => ⟨.inr (.inl rfl), fun _ => ⟨.inr (.inr rfl), fun _ => trivial⟩⟩⟩
    obtain ⟨rfl, hcalls⟩ := Crashes.of_reads serve_of_reads not_torn_of_reads hsafe hrest
    exact .of_eq ⟨renameTmp_notMem_of_reads hcalls, rfl⟩

theorem trace_ensureSeeded (state : Option Seeded) (d : Disk) :
    .renameTmp ∉ trace serve (ensureSeeded state) d := by
  cases state with
  | some state => exact List.not_mem_nil
  | none =>
    have hheal := trace_heal d (d.buffer.map File.text)
    unfold ensureSeeded
    simp only [trace_bind, readBuffer, readMetaNextSeq, readMeta, statBuffer, load, trace_ask,
      List.mem_append, List.mem_singleton, not_or]
    simp [serve, hheal]

def Disk.swapped (keep : List InterviewEvent) (nextSeq : ℕ) : Disk :=
  ⟨some ⟨body keep, byteLength (body keep)⟩, none, some (metaText nextSeq)⟩

theorem Disk.events_swapped (keep : List InterviewEvent) (nextSeq : ℕ) :
    (Disk.swapped keep nextSeq).events = keep := parseLines_body keep

theorem Disk.metaSeq_of_some {d : Disk} {raw : Utf16} (h : d.metaFile = some raw) :
    d.metaSeq = metaNextSeq raw := by
  rw [metaSeq, h, Option.map_some, Option.getD_some]

theorem Disk.metaSeq_written {d : Disk} {nextSeq : ℕ} (h : d.metaFile = some (metaText nextSeq)) :
    d.metaSeq = nextSeq := (metaSeq_of_some h).trans (metaNextSeq_metaText nextSeq)

theorem Disk.metaSeq_swapped (keep : List InterviewEvent) (nextSeq : ℕ) :
    (Disk.swapped keep nextSeq).metaSeq = nextSeq := metaSeq_written rfl

section Swap

variable {R : Type} {keep : List InterviewEvent} {nextSeq : ℕ} {g : ℕ → R} {d d' : Disk}
  {calls : List FileCall}

theorem finish_swap : finish serve (do
      writeMetaNextSeq nextSeq
      let size ← rewrite keep
      return g size) d = (g (byteLength (body keep)), Disk.swapped keep nextSeq) := by
  simp only [writeMetaNextSeq, rewrite, writeMeta, writeTmp, renameTmp, finish_bind, finish_ask,
    serve, pure_eq, finish_done, Disk.swapped]

theorem renameTmp_mem_trace_swap : .renameTmp ∈ trace serve (do
      writeMetaNextSeq nextSeq
      let size ← rewrite keep
      return g size) d := by
  simp [writeMetaNextSeq, rewrite, writeMeta, writeTmp, renameTmp]

/-- The meta file is written before the buffer is swapped, so a crash between the two leaves
the old lines under the old meta file, a torn one or the new one. -/
theorem crashes_swap (h : Crashes serve Torn (do
      writeMetaNextSeq nextSeq
      let size ← rewrite keep
      return g size) d calls d') :
    .renameTmp ∉ calls ∧ d'.events = d.events ∧
        (d'.metaSeq = d.metaSeq ∨ d'.metaSeq = 0 ∨ d'.metaSeq = nextSeq) ∨
      .renameTmp ∈ calls ∧ d'.events = keep ∧ d'.metaSeq = nextSeq := by
  rcases h.of_call with ⟨rfl, rfl | hmeta⟩ | ⟨later, rfl, hlater⟩
  · exact .inl ⟨List.not_mem_nil, rfl, .inl rfl⟩
  · cases hmeta with
    | writeMeta hpart =>
      refine .inl ⟨List.not_mem_nil, rfl, .inr ?_⟩
      rw [Disk.metaSeq_of_some rfl]
      exact hpart.metaNextSeq
  have hnew : .renameTmp ∉ [FileCall.writeMeta (metaText nextSeq)] := by simp
  have htmp : Crashes serve Torn (call (FileCall.writeTmp (body keep)) fun _ => _) _ later d' :=
    hlater
  rcases htmp.of_call with ⟨rfl, rfl | htmp⟩ | ⟨rest, rfl, hrest⟩
  · exact .inl ⟨hnew, rfl, .inr (.inr (Disk.metaSeq_written rfl))⟩
  · cases htmp with
    | writeTmp hpart size => exact .inl ⟨hnew, rfl, .inr (.inr (Disk.metaSeq_written rfl))⟩
  have hrename : Crashes serve Torn (call FileCall.renameTmp fun _ => _) _ rest d' := hrest
  rcases hrename.of_call with ⟨rfl, rfl | hcut⟩ | ⟨last, rfl, hlast⟩
  · exact .inl ⟨by simp, rfl, .inr (.inr (Disk.metaSeq_written rfl))⟩
  · cases hcut
  · obtain ⟨rfl, rfl⟩ := hlast.of_done
    exact .inr ⟨by simp, Disk.events_swapped keep nextSeq, Disk.metaSeq_written rfl⟩

end Swap

def Disk.Agrees (d : Disk) (state : Option Seeded) : Prop :=
  ∀ s, state = some s → s.nextSeq = d.nextSeq ∧ Clean d.raw

structure Disk.Settles (d : Disk) (s : Seeded) (d₁ : Disk) : Prop where
  nextSeq : s.nextSeq = d.nextSeq
  events : d₁.events = d.events
  metaSeq : d₁.metaSeq = d.metaSeq
  clean : Clean d₁.raw

theorem Disk.Agrees.settles {d : Disk} {state : Option Seeded} (h : d.Agrees state) :
    d.Settles (d.settled state).1 (d.settled state).2 := by
  cases state with
  | some s => exact ⟨(h s rfl).1, rfl, rfl, (h s rfl).2⟩
  | none => exact ⟨d.nextSeq_healed, d.events_healed, d.metaSeq_healed, d.clean_healed⟩

theorem Disk.Settles.untouched {d d₁ : Disk} {s : Seeded} (h : d.Settles s d₁)
    {calls : List FileCall} (hcalls : .renameTmp ∉ calls) : Untouched d calls d₁ :=
  ⟨hcalls, h.events, h.metaSeq⟩

theorem Disk.Settles.nextSeq_eq {d d₁ : Disk} {s : Seeded} (h : d.Settles s d₁) :
    d₁.nextSeq = d.nextSeq := by
  rw [Disk.nextSeq, Disk.nextSeq, h.events, h.metaSeq]

theorem finish_readInterviewEvents (sinceSeq : ℤ) (maxCount : ℕ) (state : Option Seeded)
    (d : Disk) : finish serve (readInterviewEvents sinceSeq maxCount state) d =
      ((((d.settled state).2.events.filter fun ev => sinceSeq ≤ ev.seq).take maxCount,
        (d.settled state).1), (d.settled state).2) := by
  simp only [readInterviewEvents, finish_bind, finish_ensureSeeded, finish_load, pure_eq,
    finish_done]

section Append

variable (ts : Utf16) (input : InterviewEventInput) (s : Seeded) (d : Disk)

def addedEvent : InterviewEvent := newEvent s.nextSeq ts input

def Disk.written : Disk :=
  d.appendBuffer (addedEvent ts input s).line (d.size + byteLength (addedEvent ts input s).line)

def Overflows : Prop :=
  INTERVIEW_BUFFER_MAX_BYTES < s.approxBytes + byteLength (addedEvent ts input s).line

instance : Decidable (Overflows ts input s) := inferInstanceAs (Decidable (_ < _))

def appendSeeded : Files (ℕ × Seeded) := do
  appendBuffer (addedEvent ts input s).line
  if Overflows ts input s then do
    let events ← load
    writeMetaNextSeq (s.nextSeq + 1)
    let size ← rewrite (events.drop (events.length / 2))
    return (s.nextSeq, ⟨s.nextSeq + 1, size⟩)
  else
    return (s.nextSeq, ⟨s.nextSeq + 1, s.approxBytes + byteLength (addedEvent ts input s).line⟩)

theorem appendInterviewEvent_eq (state : Option Seeded) :
    appendInterviewEvent ts input state = ensureSeeded state >>= appendSeeded ts input := rfl

def newerHalf (events : List InterviewEvent) : List InterviewEvent :=
  events.drop (events.length / 2)

theorem finish_appendSeeded : finish serve (appendSeeded ts input s) d =
    if Overflows ts input s then
      ((s.nextSeq, ⟨s.nextSeq + 1, byteLength (body (newerHalf (d.written ts input s).events))⟩),
        .swapped (newerHalf (d.written ts input s).events) (s.nextSeq + 1))
    else
      ((s.nextSeq, ⟨s.nextSeq + 1, s.approxBytes + byteLength (addedEvent ts input s).line⟩),
        d.written ts input s) := by
  rw [appendSeeded, finish_bind]
  show finish serve _ (d.written ts input s) = _
  split_ifs with hover
  · rw [finish_bind, finish_load]
    exact finish_swap
  · rfl

theorem renameTmp_mem_trace_appendSeeded :
    .renameTmp ∈ trace serve (appendSeeded ts input s) d ↔ Overflows ts input s := by
  rw [appendSeeded, trace_bind, List.mem_append]
  constructor
  · intro h
    by_contra hover
    rw [if_neg hover] at h
    simp [appendBuffer] at h
  · intro hover
    rw [if_pos hover, trace_bind, List.mem_append]
    exact .inr (.inr renameTmp_mem_trace_swap)

variable {ts input s d}

theorem Disk.events_written (hclean : Clean d.raw) :
    (d.written ts input s).events = d.events ++ [addedEvent ts input s] := by
  rw [written, events, raw_appendBuffer, hclean.parseLines_append, parseLines_line]
  rfl

/-- Where an append can die: before its line counts, with the line, or over the limit after the
swap. -/
theorem crashes_appendSeeded {d' : Disk} {calls : List FileCall} (hclean : Clean d.raw)
    (h : Crashes serve Torn (appendSeeded ts input s) d calls d') :
    Untouched d calls d' ∨
      .renameTmp ∉ calls ∧ d'.events = d.events ++ [addedEvent ts input s] ∧
        (d'.metaSeq = d.metaSeq ∨ d'.metaSeq = 0 ∨ d'.metaSeq = s.nextSeq + 1) ∨
      Overflows ts input s ∧ .renameTmp ∈ calls ∧
        d'.events = newerHalf (d.events ++ [addedEvent ts input s]) ∧
        d'.metaSeq = s.nextSeq + 1 := by
  rcases h.of_bind with happend | ⟨later, rfl, hlater⟩
  · rcases happend.of_ask with ⟨rfl, rfl | htorn⟩ | ⟨rfl, rfl⟩
    · exact .inl (.of_eq ⟨List.not_mem_nil, rfl⟩)
    · cases htorn with
      | appendBuffer hpart size =>
        rcases hpart.parseLines_line with hnone | hline
        · refine .inl ⟨List.not_mem_nil, ?_, rfl⟩
          rw [Disk.events, Disk.raw_appendBuffer, hclean.parseLines_append, hnone, List.append_nil]
          rfl
        · refine .inr (.inl ⟨List.not_mem_nil, ?_, .inl rfl⟩)
          rw [Disk.events, Disk.raw_appendBuffer, hclean.parseLines_append, hline]
          rfl
    · exact .inr (.inl ⟨by simp, Disk.events_written hclean, .inl rfl⟩)
  · have hwritten : .renameTmp ∉ trace serve (appendBuffer (addedEvent ts input s).line) d := by
      simp [appendBuffer]
    have hlater : Crashes serve Torn _ (d.written ts input s) later d' := hlater
    split_ifs at hlater with hover
    · rcases hlater.of_bind with hload | ⟨rest, rfl, hswap⟩
      · have hsafe : Safe Reads (fun _ _ => True) none load := ⟨.inl rfl, fun _ => trivial⟩
        obtain ⟨rfl, hcalls⟩ := Crashes.of_reads serve_of_reads not_torn_of_reads hsafe hload
        refine .inr (.inl ⟨?_, Disk.events_written hclean, .inl rfl⟩)
        rw [List.mem_append, not_or]
        exact ⟨hwritten, renameTmp_notMem_of_reads hcalls⟩
      · rw [finish_load] at hswap
        rcases crashes_swap hswap with ⟨hcalls, hevents, hmeta⟩ | ⟨hcalls, hevents, hmeta⟩
        · refine .inr (.inl ⟨?_, hevents.trans (Disk.events_written hclean), hmeta⟩)
          rw [List.mem_append, List.mem_append, not_or, not_or]
          exact ⟨hwritten, by simp [load, readBuffer], hcalls⟩
        · refine .inr (.inr ⟨hover, by simp [hcalls], ?_, hmeta⟩)
          rw [hevents, newerHalf, Disk.events_written hclean]
    · obtain ⟨rfl, rfl⟩ := hlater.of_done
      refine .inr (.inl ⟨?_, Disk.events_written hclean, .inl rfl⟩)
      rw [List.append_nil]
      exact hwritten

end Append

section Prune

variable (committedSeq : ℤ) (s : Seeded) (d : Disk)

def uncommitted (events : List InterviewEvent) : List InterviewEvent :=
  events.filter fun ev => committedSeq < ev.seq

def pruneSeeded : Files Seeded := do
  let events ← load
  if (uncommitted committedSeq events).length = events.length then return s
  else do
    writeMetaNextSeq s.nextSeq
    let size ← rewrite (uncommitted committedSeq events)
    return { s with approxBytes := size }

theorem pruneInterviewBuffer_eq (state : Option Seeded) :
    pruneInterviewBuffer committedSeq state = ensureSeeded state >>= pruneSeeded committedSeq := rfl

theorem finish_pruneSeeded : finish serve (pruneSeeded committedSeq s) d =
    if (uncommitted committedSeq d.events).length = d.events.length then (s, d)
    else
      (⟨s.nextSeq, byteLength (body (uncommitted committedSeq d.events))⟩,
        .swapped (uncommitted committedSeq d.events) s.nextSeq) := by
  rw [pruneSeeded, finish_bind, finish_load]
  dsimp only
  split_ifs with hnone
  · rfl
  · exact finish_swap

variable {committedSeq s d}

theorem crashes_pruneSeeded {d' : Disk} {calls : List FileCall}
    (h : Crashes serve Torn (pruneSeeded committedSeq s) d calls d') :
    Untouched d calls d' ∨
      (uncommitted committedSeq d.events).length ≠ d.events.length ∧
        (d'.events = d.events ∧
            (d'.metaSeq = d.metaSeq ∨ d'.metaSeq = 0 ∨ d'.metaSeq = s.nextSeq) ∨
          d'.events = uncommitted committedSeq d.events ∧ d'.metaSeq = s.nextSeq) := by
  rcases h.of_bind with hload | ⟨later, rfl, hlater⟩
  · have hsafe : Safe Reads (fun _ _ => True) none load := ⟨.inl rfl, fun _ => trivial⟩
    obtain ⟨rfl, hcalls⟩ := Crashes.of_reads serve_of_reads not_torn_of_reads hsafe hload
    exact .inl (.of_eq ⟨renameTmp_notMem_of_reads hcalls, rfl⟩)
  · rw [finish_load] at hlater
    dsimp only at hlater
    split_ifs at hlater with hnone
    · obtain ⟨rfl, rfl⟩ := hlater.of_done
      exact .inl (.of_eq ⟨by simp [load, readBuffer], rfl⟩)
    · rcases crashes_swap hlater with ⟨-, hevents, hmeta⟩ | ⟨-, hevents, hmeta⟩
      · exact .inr ⟨hnone, .inl ⟨hevents, hmeta⟩⟩
      · exact .inr ⟨hnone, .inr ⟨hevents, hmeta⟩⟩

end Prune

end Memclaw.Interview
