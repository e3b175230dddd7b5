import Mathlib.Algebra.Order.BigOperators.Group.List
import Mathlib.Algebra.Order.Ring.Nat
import Memclaw.Governance.Mask
import Memclaw.Lib.FirstFit

/-! The prompts of an interview (`interview_service.py`): the events of a window are masked, split
into chunks by a budget of characters, and written on the lines of one prompt a chunk. Which fields
of an event the masking covers, and when a chunk keeps to the budget. -/

namespace Memclaw.Interviewer

open Memclaw.Lib Memclaw.Governance

def INTERVIEW_EVENT_MAX_CHARS : ℕ := 8000

def INTERVIEW_CHUNK_MAX_CHARS : ℕ := 96000

structure InterviewEventIn where
  seq : ℕ
  ts : List Char
  sessionId : Option (List Char)
  role : List Char
  kind : List Char
  content : List Char
  tool : Option (List Char)
  outcome : Option (List Char)

structure InterviewEventIn.Valid (ev : InterviewEventIn) : Prop where
  role : 1 ≤ ev.role.length ∧ ev.role.length ≤ 64
  kind : 1 ≤ ev.kind.length ∧ ev.kind.length ≤ 64
  content : ev.content.length ≤ INTERVIEW_EVENT_MAX_CHARS
  tool : ∀ text ∈ ev.tool, text.length ≤ 200
  outcome : ∀ text ∈ ev.outcome, text.length ≤ 200

/-- What `submit_interview` asks of the events. -/
structure Accepted (events : List InterviewEventIn) : Prop where
  nonempty : events ≠ []
  bounded : events.length ≤ 500
  ascending : (events.map InterviewEventIn.seq).Pairwise (· < ·)
  valid : ∀ ev ∈ events, ev.Valid

section Masking

variable (env : ScanEnv)

def maskField (text : Option (List Char)) (maxLen : ℕ) : List Char × ℕ :=
  let val := (text.getD []).take maxLen
  let findings := scan env none val
  (if findings.isEmpty then val else mask val findings, findings.length)

def maskEvent (ev : InterviewEventIn) : InterviewEventIn × ℕ :=
  let (maskedContent, n1) := maskField env (some ev.content) INTERVIEW_EVENT_MAX_CHARS
  let (maskedTool, n2) := maskField env ev.tool 200
  let (maskedOutcome, n3) := maskField env ev.outcome 200
  ({ ev with
    content := maskedContent
    tool := ev.tool.map fun _ => maskedTool
    outcome := ev.outcome.map fun _ => maskedOutcome }, n1 + n2 + n3)

def maskEvents (events : List InterviewEventIn) : List InterviewEventIn × ℕ :=
  let masked := events.map (maskEvent env)
  (masked.map Prod.fst, (masked.map Prod.snd).sum)

end Masking

def evLen (ev : InterviewEventIn) : ℕ :=
  ev.content.length +
    (match ev.tool with
      | some (c :: tool) => (c :: tool).length + 6
      | _ => 0) +
    (match ev.outcome with
      | some (c :: outcome) => (c :: outcome).length + 9
      | _ => 0) + 80

def chunkEvents (events : List InterviewEventIn) : List (List InterviewEventIn) :=
  NextFit.runs evLen INTERVIEW_CHUNK_MAX_CHARS events

def orDefault (text : Option (List Char)) (default : List Char) : List Char :=
  match text with
  | some (c :: cs) => c :: cs
  | _ => default

def labelled (label : String) (text : Option (List Char)) : List Char :=
  match text with
  | some (c :: cs) => label.toList ++ c :: cs
  | _ => []

def envelope (ev : InterviewEventIn) : List Char :=
  '[' :: Nat.toDigits 10 ev.seq ++ "] ".toList ++ ev.ts ++ " (session ".toList ++
    orDefault ev.sessionId ['-'] ++ ") ".toList ++ ev.role ++ '/' :: ev.kind

def serializeEvent (ev : InterviewEventIn) : List Char :=
  envelope ev ++ labelled " tool=" ev.tool ++ labelled " outcome=" ev.outcome ++ ": ".toList ++
    ev.content

def serializeEvents (events : List InterviewEventIn) : List Char :=
  ['\n'].intercalate (events.map serializeEvent)

def REPORT_SCHEMA_INSTRUCTION : String :=
  String.intercalate "\n"
    ["Respond with ONLY a JSON object of this exact shape (empty arrays allowed):",
      "\x7b",
      "  \"worked_on\":           [\x7b\"summary\": \"...\", \"ts_start\": \"ISO8601 or null\", " ++
        "\"ts_end\": \"ISO8601 or null\", \"session_id\": \"... or null\"\x7d],",
      "  \"decisions\":           [\x7b\"summary\": \"...\", \"rationale\": \"... or null\", " ++
        "\"ts\": \"ISO8601 or null\"\x7d],",
      "  \"outcomes\":            [\x7b\"summary\": \"...\", \"result\": " ++
        "\"success|failure|partial\", \"ts\": \"ISO8601 or null\"\x7d],",
      "  \"blockers\":            [\x7b\"summary\": \"...\", \"ts\": \"ISO8601 or null\"\x7d],",
      "  \"open_questions\":      [\x7b\"summary\": \"...\", \"ts\": \"ISO8601 or null\"\x7d],",
      "  \"preferences_learned\": [\x7b\"summary\": \"...\", \"ts\": \"ISO8601 or null\"\x7d]",
      "\x7d",
      "Rules: every item must be standalone and concrete (names, paths, numbers). Take ts values " ++
        "from the",
      "event timestamps you actually used — never invent times. Do not restate the same fact in " ++
        "two sections.",
      "Skip routine/mechanical steps; report only what a teammate would need to know."]

def buildPrompt (agentId : List Char) (keystoneLines : List (List Char))
    (events : List InterviewEventIn) (chunkIndex chunkCount : ℕ) : List Char :=
  let part := if 1 < chunkCount then
      " (part ".toList ++ Nat.toDigits 10 (chunkIndex + 1) ++ " of ".toList ++
        Nat.toDigits 10 chunkCount ++ [')']
    else []
  let keystones := if keystoneLines.isEmpty then [] else
    "\nMandatory governance rules for this scope — obey them in what you".toList ++
      " include or exclude:\n".toList ++ ['\n'].intercalate keystoneLines ++ ['\n']
  "You are the Interviewer: you turn an AI agent's raw activity trail into the team's".toList ++
    " durable memory. Below is the recent activity window".toList ++ part ++ " of agent `".toList ++
    agentId ++ "`. Synthesize a structured reflective report of the key activities".toList ++
    " that kept it busy.\n".toList ++ keystones ++ "\nACTIVITY TRAIL:\n".toList ++ serializeEvents events ++
    "\n\n".toList ++ REPORT_SCHEMA_INSTRUCTION.toList

def chunkPrompts (agentId : List Char) (keystoneLines : List (List Char))
    (events : List InterviewEventIn) : List (List Char) :=
  let chunks := chunkEvents events
  chunks.mapIdx fun i chunk => buildPrompt agentId keystoneLines chunk i chunks.length

def prompts (env : ScanEnv) (agentId : List Char) (keystoneLines : List (List Char))
    (events : List InterviewEventIn) : List (List Char) :=
  chunkPrompts agentId keystoneLines (maskEvents env events).1

def maskText (env : ScanEnv) (text : List Char) : List Char := mask text (scan env none text)

def InterviewEventIn.masked (env : ScanEnv) (ev : InterviewEventIn) : InterviewEventIn :=
  { ev with
    sessionId := ev.sessionId.map (maskText env)
    role := maskText env ev.role
    kind := maskText env ev.kind
    content := maskText env ev.content
    tool := ev.tool.map (maskText env)
    outcome := ev.outcome.map (maskText env) }

/-- The events on the lines of the prompts are the masked ones. -/
def MaskedBeforeLlm (env : ScanEnv) (events : List InterviewEventIn) : Prop :=
  (chunkEvents (maskEvents env events).1).flatten = events.map (InterviewEventIn.masked env)

def InterviewEventIn.copied (ev : InterviewEventIn) : List (List Char) :=
  ev.sessionId.toList ++ [ev.role, ev.kind]

variable {env : ScanEnv} {ev : InterviewEventIn} {events : List InterviewEventIn}

theorem maskText_of_scan_nil {text : List Char} (h : scan env none text = []) :
    maskText env text = text := by
  rw [maskText, h]
  rfl

theorem maskField_eq {text : Option (List Char)} {maxLen : ℕ}
    (h : (text.getD []).length ≤ maxLen) :
    (maskField env text maxLen).1 = maskText env (text.getD []) := by
  unfold maskField
  dsimp only
  rw [List.take_of_length_le h]
  split
  · next hempty => exact (maskText_of_scan_nil (List.isEmpty_iff.mp hempty)).symm
  · rfl

theorem maskField_optional {text : Option (List Char)} {maxLen : ℕ}
    (h : ∀ t ∈ text, t.length ≤ maxLen) :
    text.map (fun _ => (maskField env text maxLen).1) = text.map (maskText env) := by
  cases text with
  | none => rw [Option.map_none, Option.map_none]
  | some t => rw [Option.map_some, Option.map_some, maskField_eq (h t rfl), Option.getD_some]

theorem maskEvent_eq (h : ev.Valid) :
    (maskEvent env ev).1 = { ev.masked env with
      sessionId := ev.sessionId, role := ev.role, kind := ev.kind } := by
  have hcontent : (maskField env (some ev.content) INTERVIEW_EVENT_MAX_CHARS).1 =
      maskText env ev.content := maskField_eq h.content
  have htool : ev.tool.map (fun _ => (maskField env ev.tool 200).1) = ev.tool.map (maskText env) :=
    maskField_optional h.tool
  have houtcome : ev.outcome.map (fun _ => (maskField env ev.outcome 200).1) =
      ev.outcome.map (maskText env) := maskField_optional h.outcome
  unfold maskEvent InterviewEventIn.masked
  dsimp only
  rw [hcontent, htool, houtcome]

theorem flatten_chunkEvents (events : List InterviewEventIn) :
    (chunkEvents events).flatten = events := NextFit.flatten_runs _ _ events

theorem maskedBeforeLlm_iff_events :
    MaskedBeforeLlm env events ↔ ∀ ev ∈ events, (maskEvent env ev).1 = ev.masked env := by
  unfold MaskedBeforeLlm maskEvents
  dsimp only
  rw [flatten_chunkEvents, List.map_map]
  exact List.map_inj_left

theorem maskEvent_eq_masked_iff (h : ev.Valid) :
    (maskEvent env ev).1 = ev.masked env ↔ ∀ text ∈ ev.copied, maskText env text = text := by
  rw [maskEvent_eq h]
  unfold InterviewEventIn.masked InterviewEventIn.copied
  constructor
  · intro heq text htext
    obtain ⟨-, -, hsession, hrole, hkind, -⟩ := InterviewEventIn.mk.inj heq
    rcases List.mem_append.mp htext with hmem | hmem
    · obtain hsome := Option.mem_toList.mp hmem
      rw [hsome] at hsession
      exact (Option.some.inj hsession).symm
    · rcases List.mem_pair.mp hmem with rfl | rfl
      · exact hrole.symm
      · exact hkind.symm
  · intro hall
    have hsession : ev.sessionId.map (maskText env) = ev.sessionId := by
      cases hid : ev.sessionId with
      | none => rfl
      | some text => exact congrArg some (hall text (by simp [hid]))
    have hrole := hall ev.role (by simp)
    have hkind := hall ev.kind (by simp)
    dsimp only
    rw [hsession, hrole, hkind]

theorem maskEvents_of_masked (h : MaskedBeforeLlm env events) :
    (maskEvents env events).1 = events.map (InterviewEventIn.masked env) := by
  rw [← flatten_chunkEvents (maskEvents env events).1]
  exact h

/-- The prompts show the events masked when the session, the role and the kind of every
event are texts that masking leaves as they are, and only then. -/
theorem masked_before_llm_iff (h : Accepted events) :
    (MaskedBeforeLlm env events ↔
        ∀ ev ∈ events, ∀ text ∈ ev.copied, maskText env text = text) ∧
      (MaskedBeforeLlm env events → ∀ agentId keystoneLines,
        prompts env agentId keystoneLines events =
          chunkPrompts agentId keystoneLines (events.map (InterviewEventIn.masked env))) := by
  refine ⟨?_, fun hmasked agentId keystoneLines => ?_⟩
  · rw [maskedBeforeLlm_iff_events]
    exact forall₂_congr fun ev hev => maskEvent_eq_masked_iff (h.valid ev hev)
  · rw [prompts, maskEvents_of_masked hmasked]

theorem chunkPrompts_singleton (agentId : List Char) (keystoneLines : List (List Char))
    (ev : InterviewEventIn) : chunkPrompts agentId keystoneLines [ev] =
      [buildPrompt agentId keystoneLines [ev] 0 1] := by
  have hchunks : chunkEvents [ev] = [[ev]] := by simp [chunkEvents, NextFit.runs, NextFit.runsFrom]
  rw [chunkPrompts, hchunks]
  simp only [List.mapIdx_cons, List.mapIdx_nil, List.length_singleton]

theorem serializeEvent_within {chunk : List InterviewEventIn} (hev : ev ∈ chunk) :
    serializeEvent ev <:+: serializeEvents chunk := by
  unfold serializeEvents
  induction chunk with
  | nil => exact absurd hev List.not_mem_nil
  | cons first chunk ih =>
    cases chunk with
    | nil =>
      rw [List.mem_singleton.mp hev]
      exact ⟨[], [], by simp⟩
    | cons next chunk =>
      rw [List.map_cons, List.map_cons, List.intercalate_cons_cons]
      rcases List.mem_cons.mp hev with rfl | hev
      · exact ⟨[], _, by rw [List.nil_append, List.append_assoc]⟩
      · exact (ih hev).trans (List.suffix_append _ _).isInfix

/-- Each event of a chunk stands on a line of its prompt. -/
theorem serializeEvent_within_prompt {chunk : List InterviewEventIn} (hev : ev ∈ chunk)
    (agentId : List Char) (keystoneLines : List (List Char)) (i n : ℕ) :
    serializeEvent ev <:+: buildPrompt agentId keystoneLines chunk i n := by
  refine (serializeEvent_within hev).trans ?_
  unfold buildPrompt
  exact ⟨_, _, (List.append_assoc _ _ _).symm⟩

def sessionEvent : InterviewEventIn where
  seq := 0
  ts := "2026-07-16T08:00:00Z".toList
  sessionId := some overlapText
  role := "user".toList
  kind := "message".toList
  content := "hello".toList
  tool := none
  outcome := none

theorem accepted_sessionEvent : Accepted [sessionEvent] where
  nonempty := List.cons_ne_nil _ _
  bounded := by decide
  ascending := List.pairwise_singleton _ _
  valid ev hev := by
    rw [List.mem_singleton.mp hev]
    exact ⟨by decide, by decide, by decide, by simp [sessionEvent], by simp [sessionEvent]⟩

theorem masked_before_llm_iff_session :
    MaskedBeforeLlm asciiEnv [sessionEvent] ↔
      ∀ ev ∈ [sessionEvent], ∀ text ∈ ev.copied, maskText asciiEnv text = text :=
  (masked_before_llm_iff accepted_sessionEvent).1

theorem sessionId_infix {text : List Char} (hev : ev.sessionId = some text) (hne : text ≠ []) :
    text <:+: serializeEvent ev := by
  obtain ⟨c, cs, rfl⟩ := List.exists_cons_of_ne_nil hne
  unfold serializeEvent envelope
  rw [hev]
  refine ⟨'[' :: Nat.toDigits 10 ev.seq ++ "] ".toList ++ ev.ts ++ " (session ".toList,
    ") ".toList ++ ev.role ++ '/' :: ev.kind ++ labelled " tool=" ev.tool ++
      labelled " outcome=" ev.outcome ++ ": ".toList ++ ev.content, ?_⟩
  simp only [orDefault, List.append_assoc, List.cons_append]

/-- The telephone number in the session id reaches the model. -/
theorem session_sent_unmasked :
    (¬ ∀ (env : ScanEnv) (events : List InterviewEventIn),
      Accepted events → MaskedBeforeLlm env events) ∧
      ∀ agentId keystoneLines, ∃ prompt ∈ prompts asciiEnv agentId keystoneLines [sessionEvent],
        overlapText <:+: prompt := by
  refine ⟨fun h => ?_, fun agentId keystoneLines => ?_⟩
  · have hmasked := maskedBeforeLlm_iff_events.mp (h asciiEnv _ accepted_sessionEvent) sessionEvent
      (List.mem_singleton_self _)
    have hsession := congrArg InterviewEventIn.sessionId hmasked
    have hsame : some overlapText = some (maskText asciiEnv overlapText) := hsession
    rw [maskText, scan_overlapText] at hsame
    exact absurd hsame (by decide)
  · have hline : overlapText <:+: serializeEvent (maskEvent asciiEnv sessionEvent).1 :=
      sessionId_infix rfl (by decide)
    have hprompts : prompts asciiEnv agentId keystoneLines [sessionEvent] =
        chunkPrompts agentId keystoneLines [(maskEvent asciiEnv sessionEvent).1] := rfl
    rw [hprompts, chunkPrompts_singleton]
    exact ⟨_, List.mem_singleton_self _, hline.trans
      (serializeEvent_within_prompt (List.mem_singleton_self _) agentId keystoneLines 0 1)⟩

/-- Every chunk of several events keeps to the budget. -/
def ChunksFit (events : List InterviewEventIn) : Prop :=
  ∀ chunk ∈ chunkEvents events, 1 < chunk.length →
    (serializeEvents chunk).length ≤ INTERVIEW_CHUNK_MAX_CHARS

theorem length_labelled (label : String) (text : Option (List Char)) :
    (labelled label text).length = match text with
      | some (c :: cs) => (c :: cs).length + label.toList.length
      | _ => 0 := by
  unfold labelled
  split
  · rw [List.length_append, Nat.add_comm]
  · rfl

theorem length_serializeEvent (ev : InterviewEventIn) :
    (serializeEvent ev).length + 80 = evLen ev + (envelope ev).length + 2 := by
  -- The weight of an event is the length of its line, with 80 characters for what stands in front
  -- and for the colon.
  unfold serializeEvent evLen
  simp only [List.length_append, length_labelled]
  have htool : " tool=".toList.length = 6 := rfl
  have houtcome : " outcome=".toList.length = 9 := rfl
  have hcolon : ": ".toList.length = 2 := rfl
  rw [htool, houtcome, hcolon]
  omega

theorem length_serializeEvents {chunk : List InterviewEventIn} (h : chunk ≠ []) :
    (serializeEvents chunk).length + 1 =
      (chunk.map fun ev => (serializeEvent ev).length + 1).sum := by
  unfold serializeEvents
  induction chunk with
  | nil => exact absurd rfl h
  | cons ev chunk ih =>
    cases chunk with
    | nil => simp
    | cons next chunk =>
      have hrest := ih (List.cons_ne_nil _ _)
      rw [List.map_cons, List.map_cons, List.intercalate_cons_cons, List.map_cons, List.sum_cons,
        List.length_append, List.length_append, List.length_singleton]
      rw [List.map_cons] at hrest
      omega

theorem chunksFit_of_envelopes (h : ∀ ev ∈ events, (envelope ev).length + 3 ≤ 80) :
    ChunksFit events := by
  intro chunk hchunk hlong
  have hweights := NextFit.sum_le_of_mem_runs hchunk hlong
  have hne : chunk ≠ [] := List.ne_nil_of_length_pos (by omega)
  have hlines : (chunk.map fun ev => (serializeEvent ev).length + 1).sum ≤
      (chunk.map evLen).sum := by
    apply List.sum_le_sum
    intro ev hev
    have hmem : ev ∈ events := by
      rw [← flatten_chunkEvents events]
      exact List.mem_flatten.mpr ⟨chunk, hchunk, hev⟩
    have hfits := h ev hmem
    have hlength := length_serializeEvent ev
    omega
  have hlength := length_serializeEvents hne
  unfold INTERVIEW_CHUNK_MAX_CHARS at hweights ⊢
  omega

theorem exists_not_chunksFit (h : 80 < (envelope ev).length + 3) :
    ∃ events : List InterviewEventIn, (∀ e ∈ events, envelope e = envelope ev) ∧
      ¬ ChunksFit events := by
  -- Twelve events with contents that use up the budget overrun it when their envelope does.
  let full : InterviewEventIn :=
    { ev with content := List.replicate 7920 'x', tool := none, outcome := none }
  have hweight : evLen full = 8000 := by
    have hcontent : (List.replicate 7920 'x').length = 7920 := List.length_replicate
    unfold evLen full
    dsimp only
    rw [hcontent]
  have henvelope : envelope full = envelope ev := rfl
  have hchunks : chunkEvents (List.replicate 12 full) = [List.replicate 12 full] := by
    apply NextFit.runs_of_sum_le (by simp)
    rw [List.map_replicate, hweight, List.sum_replicate_nat]
    decide
  refine ⟨List.replicate 12 full, fun e he => ?_, fun hfit => ?_⟩
  · rw [List.eq_of_mem_replicate he, henvelope]
  · have hbound := hfit (List.replicate 12 full) (by rw [hchunks]; exact List.mem_singleton_self _)
      (by rw [List.length_replicate]; decide)
    have hne : List.replicate 12 full ≠ [] := List.cons_ne_nil _ _
    have hlength := length_serializeEvents hne
    have hline := length_serializeEvent full
    rw [List.map_replicate, List.sum_replicate_nat] at hlength
    rw [hweight, henvelope] at hline
    unfold INTERVIEW_CHUNK_MAX_CHARS at hbound
    omega

end Memclaw.Interviewer
