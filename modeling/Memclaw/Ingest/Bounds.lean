import Mathlib.Data.List.Chain
import Memclaw.Ingest.Sections

/-! Two properties of every section that a step of the packer keeps or breaks for good: its size, and
that its breadcrumb names headings that enclose its blocks. -/

namespace Memclaw.Ingest

open Memclaw.Lib Memclaw.Lib.Interleave

variable {env : ChunkEnv} {soft hard : ℤ} {s : Packer} {b : Block × ℕ}

def Packer.Idle (s : Packer) : Prop := s.parts = [] → s.currentTokens = 0

theorem flush_idle (hidle : s.Idle) : (s.flush env).currentTokens = 0 := by
  unfold Packer.flush
  split
  · next hempty => exact hidle (List.isEmpty_iff.mp hempty)
  · rfl

theorem idle_flush (hidle : s.Idle) : (s.flush env).Idle := fun _ => flush_idle hidle

theorem idle_add (part : Part) (tokens : ℕ) : (s.add part tokens).Idle :=
  fun hparts => absurd hparts (List.append_ne_nil_of_right_ne_nil _ (List.cons_ne_nil _ _))

theorem idle_step (hidle : s.Idle) (b : Block × ℕ) : (chunkStep env soft hard s b).Idle := by
  by_cases hheading : b.1.type = .heading
  · rw [chunkStep_heading hheading]
    exact idle_add _ _
  · by_cases hover : b.1.Oversized env hard
    · rw [chunkStep_oversized hover]
      exact idle_flush hidle
    · rw [chunkStep_packed hheading hover]
      exact idle_add _ _

def Sound (env : ChunkEnv) (Fine : Section → Prop) (s : Packer) : Prop :=
  (∀ sec ∈ s.sections, Fine sec) ∧ ∀ sec ∈ s.pending env, Fine sec

variable {Fine : Section → Prop}

theorem fine_flush_iff : (∀ sec ∈ (s.flush env).sections, Fine sec) ↔ Sound env Fine s := by
  rw [flush_sections, List.forall_mem_append]
  rfl

theorem pending_nil (h : s.parts = []) : s.pending env = [] := by
  rw [Packer.pending, h]
  rfl

theorem sound_flush_iff : Sound env Fine (s.flush env) ↔ Sound env Fine s := by
  rw [Sound, pending_nil (flush_parts env s), fine_flush_iff]
  exact and_iff_left (List.forall_mem_nil _)

theorem mem_pending {sec : Section} : sec ∈ s.pending env ↔
    joined env s.parts ≠ [] ∧ sec = s.sectionOf (joined env s.parts) s.currentTokens s.parts := by
  unfold Packer.pending
  cases hjoined : joined env s.parts with
  | nil => simp
  | cons c rest => simp

theorem fine_pending_iff : (∀ sec ∈ s.pending env, Fine sec) ↔
    (joined env s.parts ≠ [] → Fine (s.sectionOf (joined env s.parts) s.currentTokens s.parts)) := by
  constructor
  · exact fun h hne => h _ (mem_pending.mpr ⟨hne, rfl⟩)
  · intro h sec hsec
    obtain ⟨hne, rfl⟩ := mem_pending.mp hsec
    exact h hne

theorem joined_eq_nil_iff {parts : List Part} :
    joined env parts = [] ↔ ∀ part ∈ parts, ink env.space part.text = [] := by
  have hink := ink_intercalate (ink_blankLine env) (parts.map Part.text)
  rw [joined, ChunkEnv.strip, ← ink_eq_nil_iff, hink, List.flatMap_eq_nil_iff, List.forall_mem_map]

theorem joined_append_ne {parts more : List Part} (h : joined env parts ≠ []) :
    joined env (parts ++ more) ≠ [] := by
  intro hblank
  rw [joined_eq_nil_iff] at hblank
  exact h (joined_eq_nil_iff.mpr fun part hpart => hblank part (List.mem_append_left _ hpart))

theorem joined_heading_ne {parts : List Part} (hheading : b.1.type = .heading)
    (hdepth : 0 < b.1.depth) : joined env (parts ++ [partOf b]) ≠ [] := by
  intro hblank
  have hnone := joined_eq_nil_iff.mp hblank (partOf b) (List.mem_append_right _ List.mem_cons_self)
  have hmark : '#' ∈ b.1.rendering := by
    rw [Block.rendering, hheading]
    refine List.mem_append_left _ (List.mem_append_left _ (List.mem_replicate.mpr ⟨?_, rfl⟩))
    omega
  have hmem : '#' ∈ ink env.space b.1.rendering :=
    List.mem_filter.mpr ⟨hmark, by rw [env.not_space_mark]; rfl⟩
  have htext : (partOf b).text = b.1.rendering := rfl
  rw [← htext, hnone] at hmem
  cases hmem

/-- Above the hard limit a section is a single list, table or code block; with several blocks it
stays within the soft limit. -/
structure Capped (soft hard : ℤ) (sec : Section) : Prop where
  large : hard < sec.tokenCount → ∃ type ∈ atomic, sec.blockTypes = [type]
  many : 1 < sec.blockTypes.length → sec.tokenCount ≤ soft

def SizesHold (env : ChunkEnv) (soft hard : ℤ) (blocks : List Block) : Prop :=
  (∀ sec ∈ chunkBlocks env soft hard blocks, Capped soft hard sec) ∧
    ∀ b ∈ blocks, b.type = .paragraph → hard < env.countTokens b.text →
      ∀ sub ∈ splitOversizedParagraph env b.text hard, (env.countTokens sub : ℤ) ≤ hard

/-- Each sentence fits, and so does every greedy run of two or more of them, joined by blanks. -/
def SentencesFit (env : ChunkEnv) (hard : ℤ) (text : Text) : Prop :=
  (∀ sent ∈ sentences env text, (env.countTokens sent : ℤ) ≤ hard) ∧
    ∀ run ∈ NextFit.runs env.countTokens hard (sentences env text), 2 ≤ run.length →
      (env.countTokens ([' '].intercalate run) : ℤ) ≤ hard

def Packer.joins (s : Packer) (b : Block) : List Part := if b.depth ≤ 2 then [] else s.parts

def StepFits (env : ChunkEnv) (soft hard : ℤ) (s : Packer) (b : Block × ℕ) : Prop :=
  match b.1.type with
  | .heading =>
    joined env (s.joins b.1 ++ [partOf b]) = [] ∨
      if s.joins b.1 = [] then (env.countTokens b.1.text : ℤ) ≤ hard
      else s.currentTokens + env.countTokens b.1.text ≤ soft
  | .blockquote => (env.countTokens b.1.text : ℤ) ≤ hard ∨ joined env [partOf b] = []
  | .paragraph => hard < env.countTokens b.1.text → SentencesFit env hard b.1.text
  | _ => True

theorem capped_congr {sec sec' : Section} (htokens : sec.tokenCount = sec'.tokenCount)
    (htypes : sec.blockTypes = sec'.blockTypes) : Capped soft hard sec ↔ Capped soft hard sec' := by
  constructor <;>
  · rintro ⟨hover, hmany⟩
    constructor
    · simpa only [htokens, htypes] using hover
    · simpa only [htokens, htypes] using hmany

theorem sound_enter (crumb : Crumb) :
    Sound env (Capped soft hard) (s.enter crumb) ↔ Sound env (Capped soft hard) s := by
  rw [Sound, Sound, fine_pending_iff, fine_pending_iff]
  exact and_congr_right fun _ => imp_congr_right fun _ => capped_congr rfl rfl

theorem capped_add (hle : soft ≤ hard) (hidle : s.Idle) (part : Part) (tokens : ℕ) :
    Sound env (Capped soft hard) (s.add part tokens) ↔ Sound env (Capped soft hard) s ∧
      (joined env (s.parts ++ [part]) = [] ∨
        if s.parts = [] then (tokens : ℤ) ≤ hard ∨ part.type ∈ atomic
        else s.currentTokens + tokens ≤ soft) := by
  -- A part that joins the accumulator keeps the sizes unless it makes a section of several blocks
  -- above the soft limit, or one of its own above the hard one.
  rw [Sound, Sound, and_assoc, fine_pending_iff, fine_pending_iff]
  apply and_congr_right
  intro _
  have hparts : (s.add part tokens).parts = s.parts ++ [part] := rfl
  have htokens : (s.add part tokens).currentTokens = s.currentTokens + tokens := rfl
  rw [hparts, htokens]
  by_cases hempty : s.parts = []
  · have hnone : joined env s.parts = [] := by
      rw [hempty]
      rfl
    have hsingle : s.parts ++ [part] = [part] := by
      rw [hempty]
      rfl
    rw [if_pos hempty, hidle hempty, Nat.zero_add, hsingle, hnone]
    have hcapped : Capped soft hard ((s.add part tokens).sectionOf (joined env [part]) tokens [part]) ↔
        (tokens : ℤ) ≤ hard ∨ part.type ∈ atomic := by
      constructor
      · rintro ⟨hover, -⟩
        by_contra hneither
        obtain ⟨hlarge, hother⟩ := not_or.mp hneither
        obtain ⟨type, htype, hsame⟩ := hover (not_le.mp hlarge)
        rw [← List.singleton_inj.mp hsame] at htype
        exact hother htype
      · rintro hfits
        refine ⟨fun hover => ?_, fun hmany => absurd hmany (lt_irrefl 1)⟩
        exact ⟨part.type, hfits.resolve_left (not_le.mpr hover), rfl⟩
    rw [hcapped]
    exact ⟨fun h => ⟨fun hne => absurd rfl hne, or_iff_not_imp_left.mpr h⟩,
      fun h => or_iff_not_imp_left.mp h.2⟩
  · rw [if_neg hempty]
    have hlength : 0 < s.parts.length := List.length_pos_iff.mpr hempty
    have hmany : ∀ text count, 1 < ((s.add part tokens).sectionOf text count
        (s.parts ++ [part])).blockTypes.length := by
      intro text count
      show 1 < (List.map Part.type (s.parts ++ [part])).length
      rw [List.length_map, List.length_append, List.length_singleton]
      omega
    constructor
    · intro h
      by_cases hnone : joined env (s.parts ++ [part]) = []
      · exact ⟨fun hne => absurd hnone (joined_append_ne hne), .inl hnone⟩
      · have hsoft : (s.currentTokens + tokens : ℤ) ≤ soft := (h hnone).many (hmany _ _)
        refine ⟨fun _ => ⟨fun hover => ?_, fun _ => ?_⟩, .inr hsoft⟩
        · have hcount : hard < (s.currentTokens : ℤ) := hover
          omega
        · show (s.currentTokens : ℤ) ≤ soft
          omega
    · rintro ⟨-, hfits⟩ hne
      have hsoft := hfits.resolve_left hne
      refine ⟨fun hover => ?_, fun _ => hsoft⟩
      have hcount : hard < (s.currentTokens + tokens : ℤ) := hover
      omega

theorem sentencesFit_iff (text : Text) : SentencesFit env hard text ↔
    ∀ sub ∈ splitOversizedParagraph env text hard, (env.countTokens sub : ℤ) ≤ hard := by
  have hone : ∀ sent, piece [sent] = sent := fun sent => List.intercalate_singleton
  rw [splitOversizedParagraph_eq, List.forall_mem_map]
  constructor
  · rintro ⟨hsents, hruns⟩ run hrun
    by_cases hlength : 2 ≤ run.length
    · exact hruns run hrun hlength
    · -- A run of one sentence.
      have hpos := List.length_pos_iff.mpr (sentenceRuns_plain hrun).1
      obtain ⟨sent, rfl⟩ := List.length_eq_one_iff.mp (show run.length = 1 by omega)
      rw [hone]
      apply hsents
      rw [← NextFit.flatten_runs env.countTokens hard (sentences env text)]
      exact List.mem_flatten_of_mem hrun List.mem_cons_self
  · intro h
    refine ⟨fun sent hsent => ?_, fun run hrun _ => h run hrun⟩
    by_contra hover
    have hrun := NextFit.singleton_mem_runs hsent (not_le.mp hover)
    have hfits := h [sent] hrun
    rw [hone] at hfits
    exact hover hfits

theorem capped_heading (hle : soft ≤ hard) (hidle : s.Idle) (hheading : b.1.type = .heading) :
    Sound env (Capped soft hard) (chunkStep env soft hard s b) ↔
      Sound env (Capped soft hard) s ∧ StepFits env soft hard s b := by
  have hnot : b.1.type ∉ atomic := by
    rw [hheading]
    decide
  rw [chunkStep_heading hheading, StepFits, hheading, Packer.joins]
  dsimp only
  by_cases hdepth : b.1.depth ≤ 2
  · have hempty : ((s.flush env).enter (crumbOf b)).parts = [] := flush_parts env s
    have hidle' : ((s.flush env).enter (crumbOf b)).Idle := idle_flush hidle
    rw [if_pos hdepth, if_pos hdepth, capped_add hle hidle', sound_enter, sound_flush_iff, hempty,
      if_pos rfl, if_pos rfl]
    exact and_congr_right fun _ => or_congr_right (or_iff_left hnot)
  · have hparts : (s.enter (crumbOf b)).parts = s.parts := rfl
    have hidle' : (s.enter (crumbOf b)).Idle := hidle
    rw [if_neg hdepth, if_neg hdepth, capped_add hle hidle', sound_enter, hparts]
    by_cases hempty : s.parts = []
    · rw [if_pos hempty, if_pos hempty]
      exact and_congr_right fun _ => or_congr_right (or_iff_left hnot)
    · rw [if_neg hempty, if_neg hempty]
      exact Iff.rfl

theorem capped_packed (hle : soft ≤ hard) (hidle : s.Idle) (hheading : b.1.type ≠ .heading)
    (hfits : ¬ b.1.Oversized env hard) :
    Sound env (Capped soft hard) (chunkStep env soft hard s b) ↔
      Sound env (Capped soft hard) s ∧ StepFits env soft hard s b := by
  -- Alone it is within the hard limit or a quote; with others it is within the soft limit.
  have hquote : b.1.type = .blockquote ∨ (env.countTokens b.1.text : ℤ) ≤ hard := by
    by_contra hneither
    obtain ⟨hother, hlarge⟩ := not_or.mp hneither
    refine hfits ⟨?_, not_le.mp hlarge⟩
    cases htype : b.1.type with
    | heading => exact absurd htype hheading
    | blockquote => exact absurd htype hother
    | paragraph => exact .inr rfl
    | _ => exact .inl (by decide)
  have hstep : StepFits env soft hard s b ↔
      (env.countTokens b.1.text : ℤ) ≤ hard ∨ joined env [partOf b] = [] := by
    unfold StepFits
    cases htype : b.1.type with
    | heading => exact absurd htype hheading
    | blockquote => exact Iff.rfl
    | paragraph =>
      have hsmall := hquote.resolve_left (by rw [htype]; exact BlockType.noConfusion)
      exact ⟨fun _ => .inl hsmall, fun _ hlarge => absurd hsmall (not_le.mpr hlarge)⟩
    | _ => exact ⟨fun _ => .inl (hquote.resolve_left (by rw [htype]; exact BlockType.noConfusion)),
        fun _ => trivial⟩
  have hatomic : b.1.type ∈ atomic → (env.countTokens b.1.text : ℤ) ≤ hard := by
    intro htype
    refine hquote.resolve_left fun heq => ?_
    rw [heq] at htype
    exact absurd htype (by decide)
  have halone : ((env.countTokens b.1.text : ℤ) ≤ hard ∨ (partOf b).type ∈ atomic) ↔
      (env.countTokens b.1.text : ℤ) ≤ hard := or_iff_left_of_imp hatomic
  rw [chunkStep_packed hheading hfits, hstep]
  by_cases hsoft : soft < s.currentTokens + env.countTokens b.1.text
  · rw [if_pos hsoft, capped_add hle (idle_flush hidle), sound_flush_iff, flush_parts, if_pos rfl, halone]
    exact and_congr_right fun _ => or_comm
  · rw [if_neg hsoft, capped_add hle hidle]
    apply and_congr_right
    intro _
    by_cases hempty : s.parts = []
    · rw [if_pos hempty, halone, hempty]
      exact or_comm
    · rw [if_neg hempty]
      exact ⟨fun _ => .inl (by omega), fun _ => .inr (not_lt.mp hsoft)⟩

theorem sound_oversized (hover : b.1.Oversized env hard) :
    Sound env Fine (chunkStep env soft hard s b) ↔
      Sound env Fine s ∧ ∀ sec ∈ (s.flush env).apart env hard b, Fine sec := by
  have hpending : ∀ sections, Packer.pending env { s.flush env with sections := sections } = [] :=
    fun _ => pending_nil (flush_parts env s)
  rw [chunkStep_oversized hover, Sound, hpending, List.forall_mem_append, fine_flush_iff]
  exact and_iff_left (List.forall_mem_nil _)

theorem capped_oversized (hover : b.1.Oversized env hard) :
    Sound env (Capped soft hard) (chunkStep env soft hard s b) ↔
      Sound env (Capped soft hard) s ∧ StepFits env soft hard s b := by
  rw [sound_oversized hover]
  apply and_congr_right
  intro _
  rw [Packer.apart, List.forall_mem_map, cuts]
  obtain ⟨htype, hlarge⟩ := hover
  rcases htype with hatomic | hparagraph
  · have hnot : b.1.type ≠ .paragraph := by
      intro heq
      rw [heq] at hatomic
      exact absurd hatomic (by decide)
    have hstep : StepFits env soft hard s b := by
      unfold StepFits
      cases htype : b.1.type with
      | paragraph => exact absurd htype hnot
      | heading =>
        rw [htype] at hatomic
        exact absurd hatomic (by decide)
      | blockquote =>
        rw [htype] at hatomic
        exact absurd hatomic (by decide)
      | _ => trivial
    rw [if_neg fun h => hnot h.1, List.forall_mem_singleton]
    exact ⟨fun _ => hstep, fun _ =>
      ⟨fun _ => ⟨b.1.type, hatomic, rfl⟩, fun hmany => absurd hmany (lt_irrefl 1)⟩⟩
  · have hstep : StepFits env soft hard s b ↔ SentencesFit env hard b.1.text := by
      rw [StepFits, hparagraph]
      exact ⟨fun h => h hlarge, fun h _ => h⟩
    rw [if_pos ⟨hparagraph, hlarge⟩, hstep, sentencesFit_iff]
    apply forall₂_congr
    intro sub _
    constructor
    · intro hcapped
      by_contra hsub
      obtain ⟨type, htype, hsame⟩ := hcapped.large (not_le.mp hsub)
      have htypes : b.1.type = type := List.singleton_inj.mp hsame
      rw [← htypes, hparagraph] at htype
      exact absurd htype (by decide)
    · intro hsub
      exact ⟨fun hover => absurd hsub (not_le.mpr hover), fun hmany => absurd hmany (lt_irrefl 1)⟩

theorem capped_step (hle : soft ≤ hard) (hidle : s.Idle) (b : Block × ℕ) :
    Sound env (Capped soft hard) (chunkStep env soft hard s b) ↔
      Sound env (Capped soft hard) s ∧ StepFits env soft hard s b := by
  by_cases hheading : b.1.type = .heading
  · exact capped_heading hle hidle hheading
  · by_cases hover : b.1.Oversized env hard
    · exact capped_oversized hover
    · exact capped_packed hle hidle hheading hover

theorem sound_start : Sound env Fine {} := ⟨List.forall_mem_nil _, List.forall_mem_nil _⟩

/-- The sizes hold exactly when every step fits. -/
theorem sizes_hold_iff (hle : soft ≤ hard) (blocks : List Block) :
    SizesHold env soft hard blocks ↔
      Along (chunkStep env soft hard) (StepFits env soft hard) {} blocks.zipIdx := by
  have hrun : Sound env (Capped soft hard) (run (chunkStep env soft hard) {} blocks.zipIdx) ↔
      Sound env (Capped soft hard) {} ∧
        Along (chunkStep env soft hard) (StepFits env soft hard) {} blocks.zipIdx :=
    Along.iff_run (I := Packer.Idle) (fun s b hidle => idle_step hidle b)
      (fun s b hidle => capped_step hle hidle b) fun _ => rfl
  have hsections : (∀ sec ∈ chunkBlocks env soft hard blocks, Capped soft hard sec) ↔
      Along (chunkStep env soft hard) (StepFits env soft hard) {} blocks.zipIdx := by
    rw [chunkBlocks, fine_flush_iff, hrun]
    exact and_iff_right sound_start
  rw [SizesHold, hsections]
  refine and_iff_left_of_imp fun h b hb hparagraph hlarge => ?_
  have hfits : Along (chunkStep env soft hard) (fun _ b => b.1.type = .paragraph →
      hard < env.countTokens b.1.text → SentencesFit env hard b.1.text) {} blocks.zipIdx := by
    refine h.mono (P := fun _ => True) (fun _ _ _ _ => trivial) (fun s b _ hfits htype => ?_) trivial
    rw [StepFits, htype] at hfits
    exact hfits
  obtain ⟨n, hn⟩ := List.mem_iff_getElem?.mp hb
  have hmem : (b, n) ∈ blocks.zipIdx := List.mk_mem_zipIdx_iff_getElem?.mpr hn
  exact (sentencesFit_iff b.text).mp (hfits.forall_mem (b, n) hmem hparagraph hlarge)

def ChunkEnv.naive : ChunkEnv := { ChunkEnv.ascii with segment := fun _ => none }

def mixedBlocks : List Block :=
  [⟨.heading, ['h'], 1⟩, ⟨.paragraph, ['a', '.'], 0⟩,
    ⟨.paragraph, ['b', 'b', 'b', '.', ' ', 'c', 'c', '.'], 0⟩,
    ⟨.list, ['-', ' ', 'x', '\n', '-', ' ', 'y'], 0⟩, ⟨.heading, ['k'], 2⟩,
    ⟨.blockquote, ['q'], 0⟩]

/-- A section of two blocks, a paragraph that is split between its sentences, a list above the hard
cap, and a section under its own heading. -/
theorem sizes_hold_mixed : SizesHold .naive 4 6 mixedBlocks := by
  have hlong : SentencesFit .naive 6 ['b', 'b', 'b', '.', ' ', 'c', 'c', '.'] :=
    ⟨by decide, by decide⟩
  refine (sizes_hold_iff (by decide) mixedBlocks).mpr ⟨?_, ?_, ?_, ?_, ?_, ?_, ?_⟩
  · exact .inr (show (1 : ℤ) ≤ 6 by decide)
  · exact fun hlarge => absurd hlarge (by decide)
  · exact fun _ => hlong
  · trivial
  · exact .inr (show (1 : ℤ) ≤ 6 by decide)
  · exact .inl (show (1 : ℤ) ≤ 6 by decide)
  · trivial

/-- A heading of depth three joins a full section. -/
theorem deep_heading_overfills : (0 : ℤ) < 2 ∧ (2 : ℤ) ≤ 3 ∧
    ¬ SizesHold .ascii 2 3 [⟨.paragraph, ['a', 'b'], 0⟩, ⟨.heading, ['c'], 3⟩] := by
  refine ⟨by decide, by decide, fun h => ?_⟩
  have hcounts : ((chunkBlocks .ascii 2 3 [⟨.paragraph, ['a', 'b'], 0⟩, ⟨.heading, ['c'], 3⟩]).map
      fun sec => (sec.tokenCount, sec.blockTypes.length)) = [(3, 2)] := by decide
  obtain ⟨sec, hsec, hcount⟩ := List.mem_map.mp (hcounts ▸ List.mem_cons_self)
  obtain ⟨htokens, hlength⟩ := Prod.mk.inj hcount
  have hsoft := (h.1 sec hsec).many (by rw [hlength]; decide)
  rw [htokens] at hsoft
  exact absurd hsoft (by decide)

def Named (blocks : List Block) (crumb : Crumb) : Prop :=
  ∃ b, blocks[crumb.place]? = some b ∧ b.type = .heading ∧ crumb.depth = b.depth ∧ crumb.text = b.text

/-- A heading is a block or precedes it, and no heading of its depth or above lies between them. -/
def Encloses (blocks : List Block) (crumb : Crumb) (place : ℕ) : Prop :=
  crumb.place ≤ place ∧ ∀ q, crumb.place < q → q < place → ∀ b, blocks[q]? = some b →
    b.type = .heading → crumb.depth < b.depth

/-- The breadcrumb names headings that enclose every block of the section. -/
structure Guided (blocks : List Block) (sec : Section) : Prop where
  breadcrumb : sec.breadcrumb = crumbs sec.trail
  types : sec.blockTypes = sec.parts.map Part.type
  named : ∀ crumb ∈ sec.trail, Named blocks crumb
  encloses : ∀ part ∈ sec.parts, ∀ crumb ∈ sec.trail, Encloses blocks crumb part.place

/-- A heading of depth three or more right behind a block that leaves its section open. -/
def Follows (env : ChunkEnv) (hard : ℤ) (above b : Block) : Prop :=
  b.type = .heading → 2 < b.depth → above.Oversized env hard

/-- The packer behind the first `n` blocks: the stack holds headings that none of their depth or
above has followed, and a heading that joined earlier blocks shows in their section. -/
structure Trails (env : ChunkEnv) (blocks : List Block) (n : ℕ) (s : Packer) : Prop where
  named : ∀ crumb ∈ s.stack, Named blocks crumb
  deepest : s.stack.Pairwise fun inner outer => outer.depth < inner.depth
  open_ : ∀ crumb ∈ s.stack, crumb.place < n ∧ ∀ q, crumb.place < q → q < n → ∀ b,
    blocks[q]? = some b → b.type = .heading → crumb.depth < b.depth
  parts : ∀ part ∈ s.parts, part.place < n
  late : ∀ part ∈ s.parts, ∀ crumb ∈ s.stack, part.place < crumb.place → joined env s.parts ≠ []

variable {blocks : List Block} {n : ℕ}

theorem Trails.flush (h : Trails env blocks n s) : Trails env blocks n (s.flush env) where
  named := by
    rw [flush_stack]
    exact h.named
  deepest := by
    rw [flush_stack]
    exact h.deepest
  open_ := by
    rw [flush_stack]
    exact h.open_
  parts := by
    rw [flush_parts]
    exact List.forall_mem_nil _
  late := by
    rw [flush_parts]
    exact List.forall_mem_nil _

theorem Trails.ite {p : Prop} [Decidable p] (h : Trails env blocks n s) :
    Trails env blocks n (if p then s.flush env else s) := by
  split
  · exact h.flush
  · exact h

theorem Trails.open_succ (h : Trails env blocks n s) {b : Block} (hb : blocks[n]? = some b)
    (hheading : b.type ≠ .heading) : ∀ crumb ∈ s.stack, crumb.place < n + 1 ∧
      ∀ q, crumb.place < q → q < n + 1 → ∀ b', blocks[q]? = some b' → b'.type = .heading →
        crumb.depth < b'.depth := by
  intro crumb hcrumb
  obtain ⟨hplace, hbetween⟩ := h.open_ crumb hcrumb
  refine ⟨hplace.trans (Nat.lt_succ_self n), fun q hq hqn b' hb' htype => ?_⟩
  rcases Nat.lt_succ_iff_lt_or_eq.mp hqn with hlt | rfl
  · exact hbetween q hq hlt b' hb' htype
  · obtain rfl := Option.some.inj (hb.symm.trans hb')
    exact absurd htype hheading

theorem depth_lt_of_kept {stack : List Crumb} {depth : ℤ}
    (h : stack.Pairwise fun inner outer => outer.depth < inner.depth) :
    ∀ crumb ∈ stack.dropWhile fun above => depth ≤ above.depth, crumb.depth < depth := by
  -- What stays on the stack is above the new heading.
  induction stack with
  | nil => exact List.forall_mem_nil _
  | cons top stack ih =>
    obtain ⟨htop, hstack⟩ := List.pairwise_cons.mp h
    by_cases hdeep : depth ≤ top.depth
    · have hleaves : (top :: stack).dropWhile (fun above => decide (depth ≤ above.depth)) =
          stack.dropWhile fun above => decide (depth ≤ above.depth) := by
        rw [List.dropWhile_cons]
        exact if_pos (decide_eq_true hdeep)
      rw [hleaves]
      exact ih hstack
    · have hstays : (top :: stack).dropWhile (fun above => decide (depth ≤ above.depth)) =
          top :: stack := by
        rw [List.dropWhile_cons]
        exact if_neg (by simpa using hdeep)
      rw [hstays]
      have hlt := not_le.mp hdeep
      exact List.forall_mem_cons.mpr ⟨hlt, fun crumb hcrumb => (htop crumb hcrumb).trans hlt⟩

theorem Trails.enter (h : Trails env blocks n s) {b : Block} (hb : blocks[n]? = some b)
    (hheading : b.type = .heading) (hdeep : s.parts = [] ∨ 2 < b.depth) (tokens : ℕ) :
    Trails env blocks (n + 1) ((s.enter (crumbOf (b, n))).add (partOf (b, n)) tokens) := by
  have hkept : ∀ crumb ∈ s.stack.dropWhile fun above => b.depth ≤ above.depth, crumb ∈ s.stack :=
    fun crumb hcrumb => (List.dropWhile_sublist _).subset hcrumb
  have hdepths : ∀ crumb ∈ s.stack.dropWhile fun above => b.depth ≤ above.depth,
      crumb.depth < b.depth := depth_lt_of_kept h.deepest
  refine ⟨?_, ?_, ?_, ?_, ?_⟩
  · exact List.forall_mem_cons.mpr ⟨⟨b, hb, hheading, rfl, rfl⟩,
      fun crumb hcrumb => h.named crumb (hkept crumb hcrumb)⟩
  · exact List.pairwise_cons.mpr ⟨hdepths, h.deepest.sublist (List.dropWhile_sublist _)⟩
  · refine List.forall_mem_cons.mpr ⟨⟨Nat.lt_succ_self n, fun q hq hqn => ?_⟩, fun crumb hcrumb => ?_⟩
    · exact absurd (Nat.lt_succ_iff.mp hqn) (not_le.mpr hq)
    · obtain ⟨hplace, hbetween⟩ := h.open_ crumb (hkept crumb hcrumb)
      refine ⟨hplace.trans (Nat.lt_succ_self n), fun q hq hqn b' hb' htype => ?_⟩
      rcases Nat.lt_succ_iff_lt_or_eq.mp hqn with hlt | rfl
      · exact hbetween q hq hlt b' hb' htype
      · obtain rfl := Option.some.inj (hb.symm.trans hb')
        exact hdepths crumb hcrumb
  · intro part hpart
    rcases List.mem_append.mp hpart with hold | hnew
    · exact (h.parts part hold).trans (Nat.lt_succ_self n)
    · rw [List.mem_singleton.mp hnew]
      exact Nat.lt_succ_self n
  · intro part hpart crumb hcrumb hlt
    rcases hdeep with hempty | hdepth
    · -- The only part is the heading's own, and no heading is behind it.
      have hplaces : ∀ crumb ∈ (s.enter (crumbOf (b, n))).stack, crumb.place ≤ n :=
        List.forall_mem_cons.mpr ⟨le_rfl, fun crumb hcrumb => (h.open_ crumb (hkept crumb hcrumb)).1.le⟩
      have hparts : (s.parts ++ [partOf (b, n)]) = [partOf (b, n)] := by
        rw [hempty]
        rfl
      have hpart' : part ∈ s.parts ++ [partOf (b, n)] := hpart
      rw [hparts] at hpart'
      rw [List.mem_singleton.mp hpart'] at hlt
      exact absurd (hplaces crumb hcrumb) (not_le.mpr hlt)
    · exact joined_heading_ne hheading (by show 0 < b.depth; omega)

theorem Trails.add (h : Trails env blocks n s) {b : Block} (hb : blocks[n]? = some b)
    (hheading : b.type ≠ .heading) (tokens : ℕ) :
    Trails env blocks (n + 1) (s.add (partOf (b, n)) tokens) := by
  refine ⟨h.named, h.deepest, h.open_succ hb hheading, ?_, ?_⟩
  · intro part hpart
    rcases List.mem_append.mp hpart with hold | hnew
    · exact (h.parts part hold).trans (Nat.lt_succ_self n)
    · rw [List.mem_singleton.mp hnew]
      exact Nat.lt_succ_self n
  · intro part hpart crumb hcrumb hlt
    rcases List.mem_append.mp hpart with hold | hnew
    · exact joined_append_ne (h.late part hold crumb hcrumb hlt)
    · rw [List.mem_singleton.mp hnew] at hlt
      exact absurd (h.open_ crumb hcrumb).1 (not_lt.mpr hlt.le)

theorem Trails.step (h : Trails env blocks n s) {b : Block} (hb : blocks[n]? = some b) :
    Trails env blocks (n + 1) (chunkStep env soft hard s (b, n)) := by
  by_cases hheading : b.type = .heading
  · rw [chunkStep_heading (b := (b, n)) hheading]
    by_cases hdepth : b.depth ≤ 2
    · rw [if_pos hdepth]
      exact h.flush.enter hb hheading (.inl (flush_parts env s)) _
    · rw [if_neg hdepth]
      exact h.enter hb hheading (.inr (not_le.mp hdepth)) _
  · by_cases hover : b.Oversized env hard
    · rw [chunkStep_oversized (b := (b, n)) hover]
      have hflush := h.flush
      refine ⟨hflush.named, hflush.deepest, hflush.open_succ hb hheading, ?_, ?_⟩
      · intro part hpart
        have hpart' : part ∈ (s.flush env).parts := hpart
        rw [flush_parts] at hpart'
        cases hpart'
      · intro part hpart
        have hpart' : part ∈ (s.flush env).parts := hpart
        rw [flush_parts] at hpart'
        cases hpart'
    · rw [chunkStep_packed (b := (b, n)) hheading hover]
      exact h.ite.add hb hheading _

theorem guided_pending_iff (h : Trails env blocks n s) :
    (∀ sec ∈ s.pending env, Guided blocks sec) ↔
      ∀ part ∈ s.parts, ∀ crumb ∈ s.stack, crumb.place ≤ part.place := by
  -- The accumulator is fine as long as no heading on the stack is behind one of its parts.
  rw [fine_pending_iff]
  constructor
  · intro hfine part hpart crumb hcrumb
    by_contra hlt
    have hguided := hfine (h.late part hpart crumb hcrumb (not_le.mp hlt))
    exact hlt (hguided.encloses part hpart crumb (List.mem_reverse.mpr hcrumb)).1
  · intro hplaces _
    refine ⟨rfl, rfl, fun crumb hcrumb => h.named crumb (List.mem_reverse.mp hcrumb), ?_⟩
    intro part hpart crumb hcrumb
    have hstack := List.mem_reverse.mp hcrumb
    exact ⟨hplaces part hpart crumb hstack,
      fun q hq hqp => (h.open_ crumb hstack).2 q hq (hqp.trans (h.parts part hpart))⟩

theorem guided_fresh {part : Part} (h : Trails env blocks (n + 1) s) (hparts : s.parts = [part])
    (hplace : part.place = n) : ∀ sec ∈ s.pending env, Guided blocks sec := by
  rw [guided_pending_iff h, hparts]
  intro part' hpart' crumb hcrumb
  rw [List.mem_singleton.mp hpart', hplace]
  exact Nat.lt_succ_iff.mp (h.open_ crumb hcrumb).1

theorem guided_heading (h : Trails env blocks n s) {b : Block} (hb : blocks[n]? = some b)
    (hheading : b.type = .heading) :
    Sound env (Guided blocks) (chunkStep env soft hard s (b, n)) ↔
      Sound env (Guided blocks) s ∧ (2 < b.depth → s.parts = []) := by
  have hnext : Trails env blocks (n + 1) (chunkStep env soft hard s (b, n)) := h.step hb
  rw [chunkStep_heading (b := (b, n)) hheading] at hnext ⊢
  dsimp only at hnext ⊢
  by_cases hdepth : b.depth ≤ 2
  · rw [if_pos hdepth] at hnext ⊢
    have hparts : (((s.flush env).enter (crumbOf (b, n))).add (partOf (b, n))
        (env.countTokens b.text)).parts = [partOf (b, n)] := by
      show (s.flush env).parts ++ [partOf (b, n)] = [partOf (b, n)]
      rw [flush_parts]
      rfl
    have hpending := guided_fresh hnext hparts rfl
    have hsections : (∀ sec ∈ (s.flush env).sections, Guided blocks sec) ↔
        Sound env (Guided blocks) s := fine_flush_iff
    exact ⟨fun hsound => ⟨hsections.mp hsound.1, fun hdeep => absurd hdepth (not_le.mpr hdeep)⟩,
      fun hsound => ⟨hsections.mpr hsound.1, hpending⟩⟩
  · rw [if_neg hdepth] at hnext ⊢
    have hdeep := not_le.mp hdepth
    by_cases hempty : s.parts = []
    · have hparts : ((s.enter (crumbOf (b, n))).add (partOf (b, n))
          (env.countTokens b.text)).parts = [partOf (b, n)] := by
        show s.parts ++ [partOf (b, n)] = [partOf (b, n)]
        rw [hempty]
        rfl
      have hpending := guided_fresh hnext hparts rfl
      have hnone : ∀ sec ∈ s.pending env, Guided blocks sec := by
        rw [pending_nil hempty]
        exact List.forall_mem_nil _
      exact ⟨fun hsound => ⟨⟨hsound.1, hnone⟩, fun _ => hempty⟩, fun hsound => ⟨hsound.1.1, hpending⟩⟩
    · -- The heading is behind the first part of its section.
      obtain ⟨part, parts, hcons⟩ := List.exists_cons_of_ne_nil hempty
      have hpart : part ∈ s.parts := hcons ▸ List.mem_cons_self
      constructor
      · rintro ⟨-, hpending⟩
        have hplaces := (guided_pending_iff hnext).mp hpending part (List.mem_append_left _ hpart)
          (crumbOf (b, n)) List.mem_cons_self
        exact absurd (h.parts part hpart) (not_lt.mpr hplaces)
      · rintro ⟨-, hnot⟩
        exact absurd (hnot hdeep) hempty

theorem guided_packed (h : Trails env blocks n s) {b : Block} (hb : blocks[n]? = some b)
    (hheading : b.type ≠ .heading) (hfits : ¬ b.Oversized env hard) :
    Sound env (Guided blocks) (chunkStep env soft hard s (b, n)) ↔ Sound env (Guided blocks) s := by
  have hnext : Trails env blocks (n + 1) (chunkStep env soft hard s (b, n)) := h.step hb
  rw [chunkStep_packed (b := (b, n)) hheading hfits] at hnext ⊢
  dsimp only at hnext ⊢
  by_cases hsoft : soft < s.currentTokens + env.countTokens b.text
  · rw [if_pos hsoft] at hnext ⊢
    have hparts : ((s.flush env).add (partOf (b, n)) (env.countTokens b.text)).parts =
        [partOf (b, n)] := by
      show (s.flush env).parts ++ [partOf (b, n)] = [partOf (b, n)]
      rw [flush_parts]
      rfl
    have hpending := guided_fresh hnext hparts rfl
    have hsections : (∀ sec ∈ (s.flush env).sections, Guided blocks sec) ↔
        Sound env (Guided blocks) s := fine_flush_iff
    exact ⟨fun hsound => hsections.mp hsound.1, fun hsound => ⟨hsections.mpr hsound, hpending⟩⟩
  · rw [if_neg hsoft] at hnext ⊢
    rw [Sound, Sound, guided_pending_iff hnext, guided_pending_iff h]
    apply and_congr_right
    intro _
    have hlast : ∀ crumb ∈ s.stack, crumb.place ≤ (partOf (b, n)).place :=
      fun crumb hcrumb => (h.open_ crumb hcrumb).1.le
    constructor
    · exact fun hplaces part hpart => hplaces part (List.mem_append_left _ hpart)
    · intro hplaces part hpart
      rcases List.mem_append.mp hpart with hold | hnew
      · exact hplaces part hold
      · rw [List.mem_singleton.mp hnew]
        exact hlast

theorem guided_oversized (h : Trails env blocks n s) {b : Block} (hover : b.Oversized env hard) :
    Sound env (Guided blocks) (chunkStep env soft hard s (b, n)) ↔ Sound env (Guided blocks) s := by
  rw [sound_oversized (b := (b, n)) hover]
  refine and_iff_left ?_
  rw [Packer.apart, List.forall_mem_map]
  intro sub _
  have htrail : ∀ crumb ∈ (s.flush env).stack.reverse, crumb ∈ s.stack := by
    intro crumb hcrumb
    rw [flush_stack] at hcrumb
    exact List.mem_reverse.mp hcrumb
  refine ⟨rfl, rfl, fun crumb hcrumb => h.named crumb (htrail crumb hcrumb), fun part hpart crumb hcrumb => ?_⟩
  obtain ⟨hplace, hbetween⟩ := h.open_ crumb (htrail crumb hcrumb)
  rw [List.mem_singleton.mp hpart]
  exact ⟨hplace.le, hbetween⟩

theorem guided_step (h : Trails env blocks n s) {b : Block} (hb : blocks[n]? = some b) :
    Sound env (Guided blocks) (chunkStep env soft hard s (b, n)) ↔
      Sound env (Guided blocks) s ∧ (b.type = .heading → 2 < b.depth → s.parts = []) := by
  by_cases hheading : b.type = .heading
  · rw [guided_heading h hb hheading]
    exact and_congr_right fun _ => ⟨fun hdeep _ => hdeep, fun hdeep => hdeep hheading⟩
  · have hnever : b.type = .heading → 2 < b.depth → s.parts = [] := fun heq => absurd heq hheading
    rw [and_iff_left hnever]
    by_cases hover : b.Oversized env hard
    · exact guided_oversized h hover
    · exact guided_packed h hb hheading hover

theorem parts_step : (chunkStep env soft hard s b).parts = [] ↔ b.1.Oversized env hard := by
  -- The accumulator is empty right behind an oversized block.
  have hadd : ∀ (s : Packer) part tokens, (s.add part tokens).parts ≠ [] := fun s part tokens =>
    List.append_ne_nil_of_right_ne_nil _ (List.cons_ne_nil _ _)
  by_cases hheading : b.1.type = .heading
  · have hnot : ¬ b.1.Oversized env hard := by
      rintro ⟨htype, -⟩
      rw [hheading] at htype
      exact absurd htype (by decide)
    rw [chunkStep_heading hheading]
    exact iff_of_false (hadd _ _ _) hnot
  · by_cases hover : b.1.Oversized env hard
    · rw [chunkStep_oversized hover]
      exact iff_of_true (flush_parts env s) hover
    · rw [chunkStep_packed hheading hover]
      exact iff_of_false (hadd _ _ _) hover

/-- What holds behind every stretch of the blocks. -/
theorem guided_run {past : List Block} (hpast : past <+: blocks) :
    Trails env blocks past.length (run (chunkStep env soft hard) {} past.zipIdx) ∧
      ((run (chunkStep env soft hard) {} past.zipIdx).parts = [] ↔
        ∀ above ∈ past.getLast?, above.Oversized env hard) ∧
      (Sound env (Guided blocks) (run (chunkStep env soft hard) {} past.zipIdx) ↔
        past.IsChain (Follows env hard)) := by
  induction past using List.reverseRecOn with
  | nil =>
    refine ⟨⟨List.forall_mem_nil _, .nil, List.forall_mem_nil _, List.forall_mem_nil _,
      List.forall_mem_nil _⟩, ?_, ?_⟩
    · exact iff_of_true rfl fun above habove => nomatch habove
    · exact iff_of_true sound_start .nil
  | append_singleton past b ih =>
    obtain ⟨htrails, hparts, hsound⟩ := ih ((List.prefix_append past [b]).trans hpast)
    have hb : blocks[past.length]? = some b := by
      obtain ⟨future, rfl⟩ := hpast
      rw [List.append_assoc, List.getElem?_append_right le_rfl, Nat.sub_self]
      rfl
    have hlast : run (chunkStep env soft hard) {} (past ++ [b]).zipIdx =
        chunkStep env soft hard (run (chunkStep env soft hard) {} past.zipIdx) (b, past.length) := by
      rw [List.zipIdx_append, run_append, Nat.zero_add]
      rfl
    rw [hlast]
    refine ⟨?_, ?_, ?_⟩
    · rw [List.length_append, List.length_singleton]
      exact htrails.step hb
    · rw [parts_step, List.getLast?_concat]
      exact ⟨fun hover above habove => Option.some.inj habove ▸ hover, fun h => h b rfl⟩
    · rw [guided_step htrails hb, hsound, hparts, List.isChain_append]
      refine and_congr_right fun _ => ?_
      constructor
      · intro h
        refine ⟨.singleton b, fun above habove next hnext => ?_⟩
        obtain rfl := Option.some.inj hnext
        exact fun hheading hdepth => h hheading hdepth above habove
      · exact fun h hheading hdepth above habove => h.2 above habove b rfl hheading hdepth

/-- Every breadcrumb names enclosing headings exactly when a heading of depth three or more is the
first block or comes right after an oversized one. -/
theorem breadcrumbs_enclose_iff (env : ChunkEnv) (soft hard : ℤ) (blocks : List Block) :
    (∀ sec ∈ chunkBlocks env soft hard blocks, Guided blocks sec) ↔
      blocks.IsChain (Follows env hard) := by
  rw [chunkBlocks, fine_flush_iff]
  exact (guided_run (List.prefix_refl blocks)).2.2

/-- A paragraph under the first heading goes into a section that names the second. -/
theorem breadcrumb_names_later_heading :
    ¬ ∀ sec ∈ chunkBlocks .ascii 9 9
        [⟨.heading, ['a'], 1⟩, ⟨.paragraph, ['p'], 0⟩, ⟨.heading, ['b'], 3⟩],
      Guided [⟨.heading, ['a'], 1⟩, ⟨.paragraph, ['p'], 0⟩, ⟨.heading, ['b'], 3⟩] sec := by
  intro h
  rw [chunkBlocks, fine_flush_iff, (guided_run (List.prefix_refl _)).2.2] at h
  have hover := (List.isChain_cons_cons.mp (List.isChain_cons_cons.mp h).2).1 rfl (by decide)
  exact absurd hover (by decide)

end Memclaw.Ingest
