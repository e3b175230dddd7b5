import Memclaw.Ingest.Markdown

/-! The sections that the packer makes of arbitrary blocks: what their texts hold, how large they get,
and which headings their breadcrumbs name. -/

namespace Memclaw.Ingest

open Memclaw.Lib Memclaw.Lib.Interleave

variable {env : ChunkEnv} {soft hard : ℤ}

def piece (run : List Text) : Text := [' '].intercalate run

def sentenceRuns (env : ChunkEnv) (hard : ℤ) (text : Text) : List (List Text) :=
  NextFit.runs env.countTokens hard (sentences env text)

theorem piece_concat {run : List Text} (hrun : run ≠ []) (sent : Text) :
    piece (run ++ [sent]) = piece run ++ [' '] ++ sent := by
  induction run with
  | nil => exact absurd rfl hrun
  | cons first run ih =>
    cases run with
    | nil =>
      have hone : piece [first] = first := List.intercalate_singleton
      rw [hone, List.singleton_append, piece, List.intercalate_cons_cons, List.intercalate_singleton]
    | cons next run =>
      have hcons : ∀ later, piece (first :: next :: later) = first ++ [' '] ++ piece (next :: later) :=
        fun later => List.intercalate_cons_cons
      have hih := ih (List.cons_ne_nil next run)
      rw [List.cons_append, List.cons_append, hcons, hcons, ← List.cons_append, hih]
      simp only [List.append_assoc]

def Plain (env : ChunkEnv) (text : Text) : Prop := Trimmed env.space text ∧ text ≠ []

theorem mem_nonempty {texts : List Text} {text : Text} :
    text ∈ nonempty texts ↔ text ∈ texts ∧ text ≠ [] := by
  rw [nonempty, List.mem_filter]
  cases text <;> simp

theorem sentences_plain (text : Text) : ∀ sent ∈ sentences env text, Plain env sent := by
  intro sent hsent
  unfold sentences at hsent
  split at hsent
  · obtain ⟨hmem, hne⟩ := mem_nonempty.mp hsent
    obtain ⟨raw, -, rfl⟩ := List.mem_map.mp hmem
    exact ⟨trimmed_trim raw, hne⟩
  · obtain ⟨stripped, hstripped, rfl⟩ := List.mem_map.mp hsent
    obtain ⟨hmem, hne⟩ := mem_nonempty.mp hstripped
    obtain ⟨raw, -, rfl⟩ := List.mem_map.mp hmem
    have hdot : Trimmed env.space ['.'] := by
      constructor <;>
      · show (!env.space '.') = true
        rw [env.not_space_dot]
        rfl
    have happend := (trimmed_trim (p := env.space) raw).append hne [] hdot (List.cons_ne_nil _ _)
    rw [List.append_nil] at happend
    exact ⟨happend, List.append_ne_nil_of_right_ne_nil _ (List.cons_ne_nil _ _)⟩

theorem piece_plain {run : List Text} (hne : run ≠ []) (hrun : ∀ sent ∈ run, Plain env sent) :
    Plain env (piece run) := by
  induction run using List.reverseRecOn with
  | nil => exact absurd rfl hne
  | append_singleton run sent ih =>
    obtain ⟨hinit, hlast⟩ := List.forall_mem_append.mp hrun
    have hsent := hlast sent List.mem_cons_self
    by_cases hempty : run = []
    · subst hempty
      have hone : piece ([] ++ [sent]) = sent := List.intercalate_singleton
      rw [hone]
      exact hsent
    · have hpiece := ih hempty hinit
      rw [piece_concat hempty]
      exact ⟨hpiece.1.append hpiece.2 [' '] hsent.1 hsent.2,
        List.append_ne_nil_of_right_ne_nil _ hsent.2⟩

theorem piece_isEmpty {run : List Text} (hrun : ∀ sent ∈ run, Plain env sent) :
    (piece run).isEmpty = run.isEmpty := by
  cases hcase : run with
  | nil => rfl
  | cons sent rest =>
    have hne : run ≠ [] := hcase ▸ List.cons_ne_nil sent rest
    rw [← hcase, List.isEmpty_eq_false_iff.mpr (piece_plain hne hrun).2,
      List.isEmpty_eq_false_iff.mpr hne]

theorem strip_piece {run : List Text} (hrun : ∀ sent ∈ run, Plain env sent) :
    env.strip (piece run) = piece run := by
  by_cases hne : run = []
  · subst hne
    rfl
  · exact (piece_plain hne hrun).1.trim_eq

theorem foldl_splitStep {sents group : List Text} (out : List Text) (used : ℕ)
    (hgroup : ∀ sent ∈ group, Plain env sent) (hsents : ∀ sent ∈ sents, Plain env sent) :
    let s := sents.foldl (splitStep env hard) ⟨out, piece group, used⟩
    (if s.current.isEmpty then s.out else s.out ++ [env.strip s.current]) =
      out ++ (NextFit.runsFrom env.countTokens hard group used sents).map piece := by
  -- The splitter closes what it holds as the runs of next fit.
  induction sents generalizing out group used with
  | nil =>
    rw [List.foldl_nil]
    dsimp only
    rw [piece_isEmpty hgroup, strip_piece hgroup]
    cases group with
    | nil => exact (List.append_nil out).symm
    | cons sent group => rfl
  | cons sent sents ih =>
    obtain ⟨hsent, hsents⟩ := List.forall_mem_cons.mp hsents
    rw [List.foldl_cons, NextFit.runsFrom_cons, splitStep]
    dsimp only
    rw [piece_isEmpty hgroup]
    split
    · have hone : ∀ other ∈ [sent], Plain env other := List.forall_mem_singleton.mpr hsent
      have hpiece : piece [sent] = sent := List.intercalate_singleton
      have hrest := ih (out ++ [env.strip (piece group)]) (env.countTokens sent) hone hsents
      rw [hpiece] at hrest
      rw [hrest, strip_piece hgroup, List.append_assoc]
      rfl
    · have hmore : ∀ other ∈ group ++ [sent], Plain env other :=
        List.forall_mem_append.mpr ⟨hgroup, List.forall_mem_singleton.mpr hsent⟩
      have hrest := ih out (used + env.countTokens sent) hmore hsents
      have hcurrent : (if group.isEmpty then sent else env.strip (piece group ++ [' '] ++ sent)) =
          piece (group ++ [sent]) := by
        cases group with
        | nil => exact List.intercalate_singleton.symm
        | cons first group =>
          have hconcat := piece_concat (List.cons_ne_nil first group) sent
          rw [← hconcat]
          exact strip_piece hmore
      rw [hcurrent]
      exact hrest

theorem splitOversizedParagraph_eq (text : Text) :
    splitOversizedParagraph env text hard = (sentenceRuns env hard text).map piece :=
  foldl_splitStep [] 0 (List.forall_mem_nil _) (sentences_plain text)

theorem sentenceRuns_plain {text : Text} {run : List Text} (h : run ∈ sentenceRuns env hard text) :
    run ≠ [] ∧ ∀ sent ∈ run, Plain env sent := by
  refine ⟨NextFit.ne_nil_of_mem_runs h, fun sent hsent => sentences_plain text sent ?_⟩
  rw [← NextFit.flatten_runs env.countTokens hard (sentences env text)]
  exact List.mem_flatten_of_mem h hsent

def cuts (env : ChunkEnv) (hard : ℤ) (b : Block) : List Text :=
  if b.type = .paragraph ∧ hard < env.countTokens b.text then splitOversizedParagraph env b.text hard
  else [b.rendering]

section Packers

variable {s : Packer}

theorem rendering_of_ne_heading {b : Block} (h : b.type ≠ .heading) : b.rendering = b.text := by
  unfold Block.rendering
  split
  · next hheading => exact absurd hheading h
  · rfl

theorem flush_parts (env : ChunkEnv) (s : Packer) : (s.flush env).parts = [] := by
  unfold Packer.flush
  split
  · next hempty => exact List.isEmpty_iff.mp hempty
  · rfl

theorem flush_stack : (s.flush env).stack = s.stack := by
  unfold Packer.flush
  split <;> rfl

def Packer.pending (env : ChunkEnv) (s : Packer) : List Section :=
  if (joined env s.parts).isEmpty then [] else [s.sectionOf (joined env s.parts) s.currentTokens s.parts]

theorem flush_sections : (s.flush env).sections = s.sections ++ s.pending env := by
  unfold Packer.flush
  split
  · next hempty =>
    have hparts : s.parts = [] := List.isEmpty_iff.mp hempty
    have hpending : s.pending env = [] := by
      rw [Packer.pending, hparts]
      rfl
    rw [hpending, List.append_nil]
  · rfl

theorem foldl_emit {place : ℕ} {type : BlockType} (texts : List Text) (s : Packer) :
    texts.foldl (fun s sub => s.emit sub (env.countTokens sub) ⟨place, type, sub⟩) s =
      { s with sections := s.sections ++
          texts.map fun sub => s.sectionOf sub (env.countTokens sub) [⟨place, type, sub⟩] } := by
  induction texts generalizing s with
  | nil =>
    rw [List.foldl_nil, List.map_nil, List.append_nil]
  | cons text texts ih =>
    rw [List.foldl_cons, ih]
    simp only [Packer.emit, List.append_assoc, List.map_cons]
    rfl

def Block.Oversized (env : ChunkEnv) (hard : ℤ) (b : Block) : Prop :=
  (b.type ∈ atomic ∨ b.type = .paragraph) ∧ hard < env.countTokens b.text

instance (b : Block) : Decidable (b.Oversized env hard) :=
  inferInstanceAs (Decidable (_ ∧ _))

def Packer.apart (env : ChunkEnv) (hard : ℤ) (s : Packer) (b : Block × ℕ) : List Section :=
  (cuts env hard b.1).map fun sub => s.sectionOf sub (env.countTokens sub) [⟨b.2, b.1.type, sub⟩]

def partOf (b : Block × ℕ) : Part := ⟨b.2, b.1.type, b.1.rendering⟩

def crumbOf (b : Block × ℕ) : Crumb := ⟨b.2, b.1.depth, b.1.text⟩

theorem flush_of_nonempty {p : Prop} [Decidable p] :
    (if p ∧ s.parts.isEmpty = false then s.flush env else s) = if p then s.flush env else s := by
  cases hempty : s.parts.isEmpty with
  | true =>
    have hsame : s.flush env = s := by
      rw [Packer.flush, hempty]
      rfl
    rw [hsame, ite_self, ite_self]
  | false => simp only [and_true]

theorem chunkStep_heading {b : Block × ℕ} (h : b.1.type = .heading) :
    chunkStep env soft hard s b =
      ((if b.1.depth ≤ 2 then s.flush env else s).enter (crumbOf b)).add (partOf b)
        (env.countTokens b.1.text) := by
  unfold chunkStep
  rw [if_pos h, flush_of_nonempty]
  rfl

theorem chunkStep_oversized {b : Block × ℕ} (h : b.1.Oversized env hard) :
    chunkStep env soft hard s b =
      { s.flush env with sections := (s.flush env).sections ++ (s.flush env).apart env hard b } := by
  obtain ⟨htype, hover⟩ := h
  have hheading : b.1.type ≠ .heading := by
    intro heq
    rw [heq] at htype
    rcases htype with hatomic | hparagraph
    · exact absurd hatomic (by decide)
    · cases hparagraph
  unfold chunkStep
  dsimp only
  rw [if_neg hheading]
  by_cases hatomic : b.1.type ∈ atomic
  · have hparagraph : b.1.type ≠ .paragraph := by
      intro heq
      rw [heq] at hatomic
      exact absurd hatomic (by decide)
    rw [if_pos ⟨hatomic, hover⟩, Packer.emit, Packer.apart, cuts, if_neg fun h => hparagraph h.1,
      List.map_singleton, rendering_of_ne_heading hheading]
  · have hparagraph := htype.resolve_left hatomic
    rw [if_neg fun h => hatomic h.1, if_pos ⟨hparagraph, hover⟩, foldl_emit, Packer.apart, cuts,
      if_pos ⟨hparagraph, hover⟩, hparagraph]

theorem chunkStep_packed {b : Block × ℕ} (hheading : b.1.type ≠ .heading)
    (hfits : ¬ b.1.Oversized env hard) :
    chunkStep env soft hard s b =
      (if soft < s.currentTokens + env.countTokens b.1.text then s.flush env else s).add (partOf b)
        (env.countTokens b.1.text) := by
  unfold chunkStep
  dsimp only
  rw [if_neg hheading, if_neg fun h => hfits ⟨.inl h.1, h.2⟩, if_neg fun h => hfits ⟨.inr h.1, h.2⟩,
    flush_of_nonempty]
  rfl

end Packers

/-- The texts of sections against the parts that went into each: joined by blank lines and stripped,
blank ones left out, or one part as it is. -/
inductive Reads (env : ChunkEnv) : List (List Text) → List Text → Prop
  | nil : Reads env [] []
  | blank {group : List Text} {groups : List (List Text)} {texts : List Text}
      (hblank : env.strip (blankLine.intercalate group) = []) (h : Reads env groups texts) :
      Reads env (group :: groups) texts
  | packed {group : List Text} {groups : List (List Text)} {texts : List Text}
      (h : Reads env groups texts) :
      Reads env (group :: groups) (env.strip (blankLine.intercalate group) :: texts)
  | whole {part : Text} {groups : List (List Text)} {texts : List Text} (h : Reads env groups texts) :
      Reads env ([part] :: groups) (part :: texts)

theorem Reads.append {groups groups' : List (List Text)} {texts texts' : List Text}
    (h : Reads env groups texts) (h' : Reads env groups' texts') :
    Reads env (groups ++ groups') (texts ++ texts') := by
  induction h with
  | nil => exact h'
  | blank hblank h ih => exact .blank hblank ih
  | packed h ih => exact .packed ih
  | whole h ih => exact .whole ih

theorem reads_whole (parts : List Text) : Reads env (parts.map fun part => [part]) parts := by
  induction parts with
  | nil => exact .nil
  | cons part parts ih => exact .whole ih

theorem ink_blankLine (env : ChunkEnv) : ink env.space blankLine = [] := by
  rw [blankLine, ink, List.filter_cons_of_neg (by simp [env.space_newline]),
    List.filter_cons_of_neg (by simp [env.space_newline]), List.filter_nil]

theorem Reads.ink {groups : List (List Text)} {texts : List Text} (h : Reads env groups texts) :
    texts.flatMap (ink env.space) = groups.flatten.flatMap (ink env.space) := by
  induction h with
  | nil => rfl
  | @blank group groups texts hblank h ih =>
    have hink := ink_intercalate (ink_blankLine env) group
    rw [ink_eq_nil_iff.mpr hblank] at hink
    rw [List.flatten_cons, List.flatMap_append, ← hink, List.nil_append]
    exact ih
  | @packed group groups texts h ih =>
    rw [List.flatten_cons, List.flatMap_append, List.flatMap_cons, ChunkEnv.strip, ink_trim,
      ink_intercalate (ink_blankLine env), ih]
  | @whole part groups texts h ih =>
    rw [List.flatten_cons, List.flatMap_append, List.flatMap_cons, ih, List.flatMap_singleton]

def Holds (env : ChunkEnv) (hard : ℤ) (s : Packer) (blocks : List Block) : Prop :=
  ∃ groups, groups.flatten ++ s.parts.map Part.text = blocks.flatMap (cuts env hard) ∧
    Reads env groups (s.sections.map Section.text)

theorem reads_pending (s : Packer) :
    Reads env [s.parts.map Part.text] ((s.pending env).map Section.text) := by
  unfold Packer.pending
  cases hjoined : joined env s.parts with
  | nil => exact .blank hjoined .nil
  | cons c rest =>
    have hpacked : Reads env [s.parts.map Part.text] [joined env s.parts] := .packed .nil
    rw [hjoined] at hpacked
    exact hpacked

theorem Holds.flush {s : Packer} {blocks : List Block} (h : Holds env hard s blocks) :
    Holds env hard (s.flush env) blocks := by
  obtain ⟨groups, hgroups, hreads⟩ := h
  refine ⟨groups ++ [s.parts.map Part.text], ?_, ?_⟩
  · rw [flush_parts, List.map_nil, List.append_nil, List.flatten_append, List.flatten_singleton]
    exact hgroups
  · rw [flush_sections, List.map_append]
    exact hreads.append (reads_pending s)

theorem Holds.ite {s : Packer} {blocks : List Block} {p : Prop} [Decidable p]
    (h : Holds env hard s blocks) : Holds env hard (if p then s.flush env else s) blocks := by
  split
  · exact h.flush
  · exact h

theorem Holds.add {s : Packer} {blocks : List Block} {b : Block × ℕ} (tokens : ℕ)
    (h : Holds env hard s blocks) (hcuts : cuts env hard b.1 = [b.1.rendering]) :
    Holds env hard (s.add (partOf b) tokens) (blocks ++ [b.1]) := by
  obtain ⟨groups, hgroups, hreads⟩ := h
  refine ⟨groups, ?_, hreads⟩
  rw [List.flatMap_append, ← hgroups, List.flatMap_singleton, hcuts, List.append_assoc]
  exact congrArg (groups.flatten ++ ·) List.map_append

theorem cuts_of_not_oversized {b : Block} (h : ¬ b.Oversized env hard) :
    cuts env hard b = [b.rendering] :=
  if_neg fun hover => h ⟨.inr hover.1, hover.2⟩

theorem Holds.step {s : Packer} {blocks : List Block} (h : Holds env hard s blocks) (b : Block × ℕ) :
    Holds env hard (chunkStep env soft hard s b) (blocks ++ [b.1]) := by
  by_cases hheading : b.1.type = .heading
  · have hcuts : cuts env hard b.1 = [b.1.rendering] := by
      refine if_neg fun hover => ?_
      rw [hheading] at hover
      cases hover.1
    rw [chunkStep_heading hheading]
    -- The breadcrumb stack holds no text of a section.
    have hclosed : Holds env hard
        ((if b.1.depth ≤ 2 then s.flush env else s).enter (crumbOf b)) blocks := h.ite
    exact hclosed.add _ hcuts
  · by_cases hover : b.1.Oversized env hard
    · rw [chunkStep_oversized hover]
      obtain ⟨groups, hgroups, hreads⟩ := h.flush
      refine ⟨groups ++ (cuts env hard b.1).map fun part => [part], ?_, ?_⟩
      · have hparts := flush_parts env s
        rw [hparts, List.map_nil, List.append_nil] at hgroups
        rw [hparts, List.map_nil, List.append_nil, List.flatten_append, hgroups, List.flatMap_append,
          List.flatMap_singleton]
        congr 1
        exact List.flatMap_def.symm.trans (List.flatMap_singleton' _)
      · have htexts : ((s.flush env).apart env hard b).map Section.text = cuts env hard b.1 := by
          rw [Packer.apart, List.map_map]
          exact List.map_id' _
        rw [List.map_append, htexts]
        exact hreads.append (reads_whole _)
    · rw [chunkStep_packed hheading hover]
      exact h.ite.add _ (cuts_of_not_oversized hover)

theorem holds_run (env : ChunkEnv) (soft hard : ℤ) (bs : List (Block × ℕ)) :
    Holds env hard (run (chunkStep env soft hard) {} bs) (bs.map Prod.fst) := by
  induction bs using List.reverseRecOn with
  | nil => exact ⟨[], rfl, .nil⟩
  | append_singleton bs b ih =>
    rw [run_append, List.map_append]
    exact ih.step b

def Faithful (env : ChunkEnv) : Prop :=
  ∀ text, ∃ pieces, env.segment text = some pieces ∧
    ink env.space pieces.flatten = ink env.space text

theorem ink_nonempty (texts : List Text) :
    (nonempty (texts.map env.strip)).flatMap (ink env.space) = texts.flatMap (ink env.space) := by
  induction texts with
  | nil => rfl
  | cons text texts ih =>
    have hink : ink env.space (env.strip text) = ink env.space text := ink_trim text
    have hcons : nonempty ((text :: texts).map env.strip) =
        nonempty [env.strip text] ++ nonempty (texts.map env.strip) :=
      nonempty_append [env.strip text] _
    rw [hcons, List.flatMap_append, ih, List.flatMap_cons, ← hink]
    cases env.strip text with
    | nil => rfl
    | cons c rest =>
      have hone : nonempty [c :: rest] = [c :: rest] := rfl
      rw [hone, List.flatMap_singleton]

theorem ink_pieces (runs : List (List Text)) :
    (runs.map piece).flatMap (ink env.space) = runs.flatten.flatMap (ink env.space) := by
  have hblank : ink env.space [' '] = [] := by
    rw [ink, List.filter_cons_of_neg (by simp [env.space_blank]), List.filter_nil]
  induction runs with
  | nil => rfl
  | cons run runs ih =>
    rw [List.map_cons, List.flatMap_cons, ih, List.flatten_cons, List.flatMap_append, piece,
      ink_intercalate hblank]

theorem ink_cuts (hsegment : Faithful env) (b : Block) :
    (cuts env hard b).flatMap (ink env.space) = ink env.space b.rendering := by
  unfold cuts
  split
  · next hover =>
    obtain ⟨pieces, hpieces, hink⟩ := hsegment b.text
    have hheading : b.type ≠ .heading := by
      rw [hover.1]
      exact BlockType.noConfusion
    rw [splitOversizedParagraph_eq, ink_pieces, sentenceRuns, NextFit.flatten_runs, sentences,
      hpieces, rendering_of_ne_heading hheading]
    dsimp only
    rw [ink_nonempty, ← ink_flatten, hink]
  · rw [List.flatMap_singleton]

/-- The renderings of the blocks, oversized paragraphs in pieces, make up the texts of the sections,
each once and in order. -/
structure KeepsBlocks (env : ChunkEnv) (soft hard : ℤ) (blocks : List Block) : Prop where
  packed : ∃ groups, groups.flatten = blocks.flatMap (cuts env hard) ∧
    Reads env groups ((chunkBlocks env soft hard blocks).map Section.text)
  pieces : ∀ b, (cuts env hard b).flatMap (ink env.space) = ink env.space b.rendering
  texts : (chunkBlocks env soft hard blocks).flatMap (fun sec => ink env.space sec.text) =
    blocks.flatMap fun b => ink env.space b.rendering

theorem keepsBlocks (hsegment : Faithful env) (soft hard : ℤ) (blocks : List Block) :
    KeepsBlocks env soft hard blocks := by
  obtain ⟨groups, hgroups, hreads⟩ :=
    (holds_run env soft hard blocks.zipIdx).flush
  rw [flush_parts, List.map_nil, List.append_nil, List.zipIdx_map_fst] at hgroups
  refine ⟨⟨groups, hgroups, hreads⟩, ink_cuts hsegment, ?_⟩
  have hink := hreads.ink
  rw [hgroups, List.flatMap_map, List.flatMap_assoc] at hink
  rw [chunkBlocks, hink]
  exact List.flatMap_congr fun b _ => ink_cuts hsegment b

/-- Under a segmenter that loses nothing, no text of a well-nested document is lost exactly when its
code stands outside lists and quotes. -/
theorem ingest_keeps_iff {ts : List Token} (hsegment : Faithful env) (hnested : Nested ts) :
    (KeepsTokens env ts ∧ ∀ soft hard blocks, KeepsBlocks env soft hard blocks) ↔
      CodeOutside env 0 ts := by
  rw [hnested.keepsTokens_iff]
  exact and_iff_left (keepsBlocks hsegment)

def ChunkEnv.ascii : ChunkEnv where
  space c := c = ' ' || c = '\n'
  countTokens := List.length
  segment text := some [text]
  space_blank := rfl
  space_newline := rfl
  not_space_mark := rfl
  not_space_dot := rfl

theorem faithful_ascii : Faithful .ascii := by
  intro text
  refine ⟨[text], rfl, ?_⟩
  rw [List.flatten_singleton]

def fencedDocument : List Token :=
  [⟨.opens (.heading 1), []⟩, ⟨.inline, ['h']⟩, ⟨.closes (.heading 1), []⟩, ⟨.opens .paragraph, []⟩,
    ⟨.inline, ['p']⟩, ⟨.closes .paragraph, []⟩, ⟨.fence, ['x']⟩]

theorem ingest_keeps_fenced :
    Faithful .ascii ∧ Nested fencedDocument ∧
      ((KeepsTokens .ascii fencedDocument ∧ ∀ soft hard blocks, KeepsBlocks .ascii soft hard blocks) ↔
        CodeOutside .ascii 0 fencedDocument) := by
  have hnested : Nested fencedDocument := .text rfl (.text rfl (.leaf rfl .nil))
  exact ⟨faithful_ascii, hnested, ingest_keeps_iff faithful_ascii hnested⟩

def listWithFence : List Token :=
  [⟨.opens .bulletList, []⟩, ⟨.opens .listItem, []⟩, ⟨.opens .paragraph, []⟩, ⟨.inline, ['a']⟩,
    ⟨.closes .paragraph, []⟩, ⟨.fence, ['x', '\n']⟩, ⟨.closes .listItem, []⟩,
    ⟨.closes .bulletList, []⟩]

theorem ingest_loses_fence :
    Faithful .ascii ∧ Nested listWithFence ∧ ¬ KeepsTokens .ascii listWithFence := by
  have hinner : Nested [⟨.opens .paragraph, []⟩, ⟨.inline, ['a']⟩, ⟨.closes .paragraph, []⟩,
      ⟨.fence, ['x', '\n']⟩] := .text rfl (.leaf rfl .nil)
  have hitem : Nested (⟨.opens .listItem, []⟩ :: ([⟨.opens .paragraph, []⟩, ⟨.inline, ['a']⟩,
      ⟨.closes .paragraph, []⟩, ⟨.fence, ['x', '\n']⟩] ++ [⟨.closes .listItem, []⟩])) :=
    .container (.inl rfl) hinner .nil
  have hnested : Nested listWithFence := Nested.container (.inr rfl) hitem .nil
  refine ⟨faithful_ascii, hnested, ?_⟩
  rw [hnested.keepsTokens_iff, CodeOutside]
  decide

end Memclaw.Ingest
