import Memclaw.Interview.Prompt
import Memclaw.Lib.Dict
import Memclaw.Lib.Fallible
import Memclaw.Lib.Firsts
import Memclaw.Lib.Lower
import Memclaw.Lib.Timestamp
import Memclaw.Memories.TableDefs

/-! The reports of the interviewer's model: `merge_reports` over arbitrary JSON values, and the
items that `report_to_items` makes of the merged report. Which answers the merger raises on, and
what it keeps of the others. -/

namespace Memclaw.Interviewer

open Memclaw.Lib
open Memclaw.Memories (MemoryType)

/-- What the reduce side takes from the interpreter: the text methods, the characters that `repr`
leaves as they are, and `datetime.fromisoformat`, nothing where it raises `ValueError`. For lone
surrogates, which `Char` does not have, stand the characters of `surrogate`. -/
structure ReportEnv where
  chars : CaseChars
  printable : Char → Bool
  fromisoformat : List Char → Option (DateTime × Option ℤ)
  surrogate : Char → Bool

inductive Section
  | workedOn
  | decisions
  | outcomes
  | blockers
  | openQuestions
  | preferencesLearned
deriving DecidableEq

def Section.name : Section → String
  | workedOn => "worked_on"
  | decisions => "decisions"
  | outcomes => "outcomes"
  | blockers => "blockers"
  | openQuestions => "open_questions"
  | preferencesLearned => "preferences_learned"

def Section.memoryType : Section → MemoryType
  | workedOn => .episode
  | decisions => .decision
  | outcomes => .outcome
  | blockers => .task
  | openQuestions => .fact
  | preferencesLearned => .preference

def REPORT_SECTIONS : List Section :=
  [.workedOn, .decisions, .outcomes, .blockers, .openQuestions, .preferencesLearned]

def INTERVIEW_MAX_ITEMS_PER_SECTION : ℕ := 15

/-- `for item in value or []`; nothing where the value cannot be iterated. -/
def iterate (value : Json) : Option (List Json) :=
  if value.truthy then
    match value with
    | .arr items => some items
    | .str s => some (s.toList.map fun c => .str (String.singleton c))
    | .obj fields => some (fields.map fun field => .str field.1)
    | _ => none
  else some []

/-- `(item.get("summary") or "").strip()`; nothing where the value has no `strip`. -/
def summaryOf (env : ReportEnv) (item : Dict) : Option (List Char) :=
  let value := item.get "summary"
  if value.truthy then
    match value with
    | .str s => some (env.chars.strip s.toList)
    | _ => none
  else some []

structure Merge where
  merged : Section → List Dict
  seen : List (Section × List Char)

def Merge.empty : Merge := ⟨fun _ => [], []⟩

def Merge.add (env : ReportEnv) (m : Merge) (part : Section) (item : Dict) (summary : List Char) :
    Merge :=
  let key := (part, env.chars.lower summary)
  if key ∈ m.seen then m
  else
    { seen := key :: m.seen
      merged :=
        if (m.merged part).length < INTERVIEW_MAX_ITEMS_PER_SECTION then
          Function.update m.merged part (m.merged part ++ [item])
        else m.merged }

def mergeItem (env : ReportEnv) (part : Section) (m : Merge) (item : Json) : Option Merge :=
  match item with
  | .obj fields =>
    match summaryOf env fields with
    | none => none
    | some summary => some (if summary.isEmpty then m else m.add env part fields summary)
  | _ => some m

def mergeSection (env : ReportEnv) (report : Dict) (m : Merge) (part : Section) : Option Merge :=
  match iterate (report.get part.name) with
  | none => none
  | some items => items.foldlM (mergeItem env part) m

def mergeReport (env : ReportEnv) (m : Merge) (report : Json) : Option Merge :=
  match report with
  | .obj fields => REPORT_SECTIONS.foldlM (mergeSection env fields) m
  | _ => some m

def Merge.report (m : Merge) : Dict :=
  REPORT_SECTIONS.map fun part => (part.name, .arr ((m.merged part).map .obj))

def mergeReports (env : ReportEnv) (reports : List Json) : Option Dict :=
  (reports.foldlM (mergeReport env) .empty).map Merge.report

def MAX_CONTENT_LENGTH : ℕ := 10000

structure BulkMemoryItem where
  memoryType : MemoryType
  content : List Char
  metadata : Dict
  tsValidStart : Option (DateTime × ℤ)
  tsValidEnd : Option (DateTime × ℤ)
  minLength : 1 ≤ content.length
  maxLength : content.length ≤ MAX_CONTENT_LENGTH

/-- The constructor of the model, which raises on a content of another length and on one with a
lone surrogate. -/
def BulkMemoryItem.build (env : ReportEnv) (memoryType : MemoryType) (content : List Char) (metadata : Dict)
    (tsValidStart tsValidEnd : Option (DateTime × ℤ)) : Option BulkMemoryItem :=
  if content.any env.surrogate then none
  else if h : 1 ≤ content.length ∧ content.length ≤ MAX_CONTENT_LENGTH then
    some ⟨memoryType, content, metadata, tsValidStart, tsValidEnd, h.1, h.2⟩
  else none

/-- `value.replace("Z", "+00:00")`. -/
def replaceZ (value : List Char) : List Char :=
  value.flatMap fun c => if c = 'Z' then "+00:00".toList else [c]

def parseTs (env : ReportEnv) (value : Json) : Option (DateTime × ℤ) :=
  match value with
  | .str s =>
    if s.toList.isEmpty then none
    else (env.fromisoformat (replaceZ s.toList)).map fun dt => (dt.1, dt.2.getD 0)
  | _ => none

def formatted (env : ReportEnv) (value : Json) : List Char :=
  match value with
  | .str s => s.toList
  | value => value.pyRepr env.printable

def itemContent (env : ReportEnv) (part : Section) (entry : Dict) (summary : List Char) :
    List Char :=
  if part = .decisions ∧ (entry.get "rationale").truthy then
    summary ++ " — rationale: ".toList ++ formatted env (entry.get "rationale")
  else if part = .outcomes ∧ (entry.get "result").truthy then
    '[' :: formatted env (entry.get "result") ++ "] ".toList ++ summary
  else summary

def itemMetadata (part : Section) (entry : Dict) (nodeId : String) (commandId : Option String) :
    Dict :=
  let base : Dict := [("source", .str "interviewer"), ("category", .str part.name),
    ("node_id", .str nodeId), ("written_by", .str "interviewer")]
  let command : Dict := match commandId.filter (· ≠ "") with
    | some id => [("command_id", .str id)]
    | none => []
  let session : Dict :=
    if (entry.get "session_id").truthy then [("session_id", entry.get "session_id")] else []
  let result : Dict :=
    if part = .outcomes ∧ (entry.get "result").truthy then
      [("outcome_result", entry.get "result")]
    else []
  base ++ command ++ session ++ result

/-- A turn of the loop of `report_to_items`; nothing where it raises. -/
def entryItem (env : ReportEnv) (nodeId : String) (commandId : Option String) (part : Section)
    (entry : Json) : Option (List BulkMemoryItem) :=
  match entry with
  | .obj fields =>
    match summaryOf env fields with
    | none => none
    | some summary =>
      if summary.isEmpty then some []
      else
        let ts := Dict.get fields "ts"
        let start := if ts.truthy then ts else Dict.get fields "ts_start"
        (BulkMemoryItem.build env part.memoryType
          ((itemContent env part fields summary).take MAX_CONTENT_LENGTH)
          (itemMetadata part fields nodeId commandId) (parseTs env start)
          (parseTs env (Dict.get fields "ts_end"))).map fun item => [item]
  | _ => none

def sectionItems (env : ReportEnv) (nodeId : String) (commandId : Option String) (report : Dict)
    (part : Section) : Option (List BulkMemoryItem) :=
  match iterate (report.get part.name) with
  | none => none
  | some entries => (entries.mapM (entryItem env nodeId commandId part)).map List.flatten

def reportToItems (env : ReportEnv) (nodeId : String) (commandId : Option String) (report : Dict) :
    Option (List BulkMemoryItem) :=
  (REPORT_SECTIONS.mapM (sectionItems env nodeId commandId report)).map List.flatten

structure Visit where
  part : Section
  item : Dict
  summary : List Char

def Visit.key (env : ReportEnv) (visit : Visit) : Section × List Char :=
  (visit.part, env.chars.lower visit.summary)

section Visits

variable (env : ReportEnv)

def itemVisits (part : Section) (item : Json) : Option (List Visit) :=
  match item with
  | .obj fields =>
    (summaryOf env fields).map fun summary =>
      if summary.isEmpty then [] else [⟨part, fields, summary⟩]
  | _ => some []

def sectionVisits (report : Dict) (part : Section) : Option (List Visit) :=
  (iterate (report.get part.name)).bind fun items =>
    (items.mapM (itemVisits env part)).map List.flatten

def reportVisits (report : Json) : Option (List Visit) :=
  match report with
  | .obj fields => (REPORT_SECTIONS.mapM (sectionVisits env fields)).map List.flatten
  | _ => some []

/-- All visits of the merger, in its order; nothing where it raises. -/
def visits (reports : List Json) : Option (List Visit) :=
  (reports.mapM (reportVisits env)).map List.flatten

def Merge.visit (m : Merge) (visit : Visit) : Merge := m.add env visit.part visit.item visit.summary

end Visits

theorem foldlM_visits {σ α β : Type} {step : σ → α → Option σ} {visit : α → Option (List β)}
    {add : σ → β → σ} (h : ∀ s a, step s a = (visit a).map fun vs => vs.foldl add s) (s : σ)
    (as : List α) :
    as.foldlM step s = ((as.mapM visit).map List.flatten).map fun vs => vs.foldl add s := by
  -- A loop that raises independently of what it has gathered gathers what it visits.
  induction as generalizing s with
  | nil => rfl
  | cons a as ih =>
    rw [List.foldlM_cons, List.mapM_cons, h]
    cases visit a with
    | none => rfl
    | some vs =>
      have hrest := ih (vs.foldl add s)
      cases hvisits : as.mapM visit with
      | none =>
        rw [hvisits] at hrest
        exact hrest
      | some rest =>
        rw [hvisits] at hrest
        simpa [List.foldl_append] using hrest

section Reports

variable {env : ReportEnv}

theorem mergeItem_eq (part : Section) (m : Merge) (item : Json) :
    mergeItem env part m item =
      (itemVisits env part item).map fun vs => vs.foldl (Merge.visit env) m := by
  unfold mergeItem itemVisits
  cases item with
  | obj fields =>
    cases hsummary : summaryOf env fields with
    | none => simp [hsummary]
    | some summary =>
      simp only [hsummary, Option.map_some]
      split <;> rfl
  | _ => rfl

theorem mergeSection_eq (report : Dict) (m : Merge) (part : Section) :
    mergeSection env report m part =
      (sectionVisits env report part).map fun vs => vs.foldl (Merge.visit env) m := by
  unfold mergeSection sectionVisits
  cases iterate (report.get part.name) with
  | none => rfl
  | some items => exact foldlM_visits (mergeItem_eq part) m items

theorem mergeReport_eq (m : Merge) (report : Json) :
    mergeReport env m report =
      (reportVisits env report).map fun vs => vs.foldl (Merge.visit env) m := by
  unfold mergeReport reportVisits
  cases report with
  | obj fields => exact foldlM_visits (mergeSection_eq fields) m REPORT_SECTIONS
  | _ => rfl

theorem mergeReports_eq (reports : List Json) :
    mergeReports env reports = (visits env reports).map fun vs =>
      (vs.foldl (Merge.visit env) .empty).report := by
  unfold mergeReports visits
  rw [foldlM_visits mergeReport_eq, Option.map_map]
  rfl

def Visit.fold (env : ReportEnv) (visit : Visit) : List Char := env.chars.lower visit.summary

def firstVisits (env : ReportEnv) (vs : List Visit) (part : Section) : List Visit :=
  firstsBy (Visit.fold env) (vs.filter fun visit => visit.part = part)

structure Gathered (env : ReportEnv) (vs : List Visit) (m : Merge) : Prop where
  seen : ∀ part fold, (part, fold) ∈ m.seen ↔
    fold ∈ (vs.filter fun visit => visit.part = part).map (Visit.fold env)
  merged : ∀ part, m.merged part =
    ((firstVisits env vs part).take INTERVIEW_MAX_ITEMS_PER_SECTION).map Visit.item

theorem firstVisits_concat_of_ne {vs : List Visit} {visit : Visit} {part : Section}
    (h : visit.part ≠ part) : firstVisits env (vs ++ [visit]) part = firstVisits env vs part := by
  rw [firstVisits, List.filter_append, List.filter_cons_of_neg (by simpa using h), List.filter_nil,
    List.append_nil]
  rfl

theorem filter_concat_self (vs : List Visit) (visit : Visit) :
    (vs ++ [visit]).filter (fun v => v.part = visit.part) =
      (vs.filter fun v => v.part = visit.part) ++ [visit] := by
  rw [List.filter_append, List.filter_cons_of_pos (by simp), List.filter_nil]

theorem firstVisits_concat_known {vs : List Visit} {visit : Visit}
    (h : visit.fold env ∈ (vs.filter fun v => v.part = visit.part).map (Visit.fold env)) :
    firstVisits env (vs ++ [visit]) visit.part = firstVisits env vs visit.part := by
  rw [firstVisits, filter_concat_self, firstsBy_concat, if_pos h]
  rfl

theorem firstVisits_concat_new {vs : List Visit} {visit : Visit}
    (h : visit.fold env ∉ (vs.filter fun v => v.part = visit.part).map (Visit.fold env)) :
    firstVisits env (vs ++ [visit]) visit.part = firstVisits env vs visit.part ++ [visit] := by
  rw [firstVisits, filter_concat_self, firstsBy_concat, if_neg h]
  rfl

theorem Gathered.visit {vs : List Visit} {m : Merge} (h : Gathered env vs m) (visit : Visit) :
    Gathered env (vs ++ [visit]) (m.visit env visit) := by
  have hseen := h.seen visit.part (visit.fold env)
  unfold Merge.visit Merge.add
  by_cases hold : (visit.part, env.chars.lower visit.summary) ∈ m.seen
  · -- The key is known: nothing changes, and no first visit comes in.
    have hfold := hseen.mp hold
    dsimp only
    rw [if_pos hold]
    refine ⟨fun part fold => ?_, fun part => ?_⟩
    · rw [h.seen, List.filter_append, List.map_append, List.mem_append, iff_self_or]
      intro hmem
      obtain ⟨other, hother, rfl⟩ := List.mem_map.mp hmem
      obtain ⟨hvisit, hpart⟩ := List.mem_filter.mp hother
      rw [List.mem_singleton.mp hvisit] at hpart ⊢
      rw [← of_decide_eq_true hpart]
      exact hfold
    · rw [h.merged]
      by_cases hpart : visit.part = part
      · subst hpart
        rw [firstVisits_concat_known hfold]
      · rw [firstVisits_concat_of_ne hpart]
  · have hfold : visit.fold env ∉
        (vs.filter fun v => v.part = visit.part).map (Visit.fold env) := fun hmem =>
      hold (hseen.mpr hmem)
    dsimp only
    rw [if_neg hold]
    refine ⟨fun part fold => ?_, fun part => ?_⟩
    · rw [List.mem_cons, h.seen, List.filter_append, List.map_append, List.mem_append, or_comm]
      refine or_congr_right ?_
      by_cases hpart : visit.part = part
      · subst hpart
        rw [List.filter_cons_of_pos (by simp), List.filter_nil, List.map_singleton,
          List.mem_singleton, Prod.mk.injEq, eq_self, true_and]
        rfl
      · rw [List.filter_cons_of_neg (by simpa using hpart), List.filter_nil, List.map_nil]
        simp [Ne.symm hpart]
    · by_cases hpart : visit.part = part
      · subst hpart
        rw [firstVisits_concat_new hfold, h.merged, List.length_map, List.length_take]
        by_cases hroom : (firstVisits env vs visit.part).length < INTERVIEW_MAX_ITEMS_PER_SECTION
        · rw [if_pos (by omega)]
          dsimp only
          rw [Function.update_self, List.take_of_length_le hroom.le,
            List.take_of_length_le (by rw [List.length_append, List.length_singleton]; omega),
            List.map_append]
          rfl
        · rw [if_neg (by omega), h.merged, List.take_append_of_le_length (by omega)]
      · rw [firstVisits_concat_of_ne hpart]
        dsimp only
        split
        · rw [Function.update_of_ne (Ne.symm hpart), h.merged]
        · rw [h.merged]

theorem gathered (vs : List Visit) : Gathered env vs (vs.foldl (Merge.visit env) .empty) := by
  induction vs using List.reverseRecOn with
  | nil => exact ⟨fun part fold => by simp [Merge.empty], fun part => rfl⟩
  | append_singleton vs visit ih =>
    rw [List.foldl_append]
    exact ih.visit visit

def SummaryOk (value : Json) : Prop := value.truthy = false ∨ ∃ s, value = .str s

def SectionOk (value : Json) : Prop :=
  value.truthy = false ∨ (∃ s, value = .str s) ∨ (∃ fields, value = .obj fields) ∨
    ∃ items, value = .arr items ∧ ∀ fields, .obj fields ∈ items →
      SummaryOk (Dict.get fields "summary")

/-- Every section of every report that is a dict is well-formed. -/
def ReportsOk (reports : List Json) : Prop :=
  ∀ fields, .obj fields ∈ reports → ∀ part : Section, SectionOk (Dict.get fields part.name)

theorem isSome_summaryOf {fields : Dict} :
    (summaryOf env fields).isSome = true ↔ SummaryOk (fields.get "summary") := by
  unfold summaryOf SummaryOk
  dsimp only
  by_cases htruthy : (fields.get "summary").truthy
  · rw [if_pos htruthy]
    cases hvalue : fields.get "summary" <;> simp_all
  · rw [if_neg htruthy]
    simp [htruthy]

theorem isSome_itemVisits {part : Section} {item : Json} :
    (itemVisits env part item).isSome = true ↔
      ∀ fields, item = .obj fields → SummaryOk (Dict.get fields "summary") := by
  cases item with
  | obj fields =>
    rw [itemVisits, Option.isSome_map, isSome_summaryOf]
    exact ⟨fun h fields' heq => Json.obj.inj heq ▸ h, fun h => h fields rfl⟩
  | _ => simp [itemVisits]

theorem mem_iterate_obj {value : Json} {items : List Json} (h : iterate value = some items)
    {fields : Dict} (hmem : .obj fields ∈ items) :
    ∃ all, value = .arr all ∧ items = all := by
  unfold iterate at h
  split at h
  · cases value with
    | arr all => exact ⟨all, rfl, (Option.some.inj h).symm⟩
    | str s =>
      rw [← Option.some.inj h] at hmem
      simp at hmem
    | obj all =>
      rw [← Option.some.inj h] at hmem
      simp at hmem
    | _ => exact nomatch h
  · rw [← Option.some.inj h] at hmem
    exact absurd hmem List.not_mem_nil

theorem isSome_sectionVisits {report : Dict} {part : Section} :
    (sectionVisits env report part).isSome = true ↔ SectionOk (report.get part.name) := by
  unfold sectionVisits SectionOk
  generalize report.get part.name = value
  cases hiterate : iterate value with
  | none =>
    refine ⟨fun h => absurd h Bool.false_ne_true, fun hok => ?_⟩
    unfold iterate at hiterate
    split at hiterate
    · next htruthy =>
      rcases hok with hfalsy | ⟨s, rfl⟩ | ⟨fields, rfl⟩ | ⟨items, rfl, -⟩
      · exact absurd htruthy (Bool.eq_false_iff.mp hfalsy)
      · exact nomatch hiterate
      · exact nomatch hiterate
      · exact nomatch hiterate
    · exact nomatch hiterate
  | some items =>
    rw [Option.bind_some, Option.isSome_map, isSome_mapM_iff]
    simp only [isSome_itemVisits]
    constructor
    · intro h
      unfold iterate at hiterate
      by_cases htruthy : value.truthy
      · rw [if_pos htruthy] at hiterate
        cases value with
        | arr all =>
          refine .inr (.inr (.inr ⟨all, rfl, fun fields hmem => ?_⟩))
          rw [Option.some.inj hiterate] at hmem
          exact h _ hmem fields rfl
        | str s => exact .inr (.inl ⟨s, rfl⟩)
        | obj fields => exact .inr (.inr (.inl ⟨fields, rfl⟩))
        | _ => exact nomatch hiterate
      · exact .inl (Bool.eq_false_iff.mpr htruthy)
    · rintro hok item hitem fields rfl
      obtain ⟨all, rfl, rfl⟩ := mem_iterate_obj hiterate hitem
      rcases hok with hfalsy | ⟨s, hs⟩ | ⟨other, hother⟩ | ⟨items, hitems, hall⟩
      · cases items with
        | nil => exact absurd hitem List.not_mem_nil
        | cons first rest => exact nomatch hfalsy
      · exact nomatch hs
      · exact nomatch hother
      · obtain rfl := Json.arr.inj hitems
        exact hall fields hitem

theorem mem_sections (part : Section) : part ∈ REPORT_SECTIONS := by
  cases part <;> decide

theorem isSome_visits {reports : List Json} :
    (visits env reports).isSome = true ↔ ReportsOk reports := by
  unfold visits ReportsOk
  rw [Option.isSome_map, isSome_mapM_iff]
  constructor
  · intro h fields hmem part
    have hreport := h _ hmem
    rw [reportVisits, Option.isSome_map, isSome_mapM_iff] at hreport
    exact isSome_sectionVisits.mp (hreport part (mem_sections part))
  · intro h report hmem
    cases report with
    | obj fields =>
      rw [reportVisits, Option.isSome_map, isSome_mapM_iff]
      exact fun part _ => isSome_sectionVisits.mpr (h fields hmem part)
    | _ => rfl

def Visit.Sound (env : ReportEnv) (visit : Visit) : Prop :=
  summaryOf env visit.item = some visit.summary ∧ visit.summary ≠ []

theorem forall_of_mapM {α β : Type} {P : β → Prop} {f : α → Option (List β)} {as : List α}
    (h : ∀ a ∈ as, ∀ bs, f a = some bs → ∀ b ∈ bs, P b) {all : List β}
    (hall : (as.mapM f).map List.flatten = some all) : ∀ b ∈ all, P b := by
  obtain ⟨parts, hparts, rfl⟩ := Option.map_eq_some_iff.mp hall
  induction as generalizing parts with
  | nil =>
    cases hparts
    exact fun b hb => absurd hb List.not_mem_nil
  | cons a as ih =>
    rw [List.mapM_cons] at hparts
    obtain ⟨bs, hbs, hlater⟩ := Option.bind_eq_some_iff.mp hparts
    obtain ⟨rest, hrest, heq⟩ := Option.bind_eq_some_iff.mp hlater
    obtain rfl := Option.some.inj heq
    intro b hb
    rw [List.flatten_cons, List.mem_append] at hb
    rcases hb with hb | hb
    · exact h a List.mem_cons_self bs hbs b hb
    · exact ih (fun a ha => h a (List.mem_cons_of_mem _ ha)) rest hrest
        (Option.map_eq_some_iff.mpr ⟨rest, hrest, rfl⟩) b hb

theorem sound_itemVisits {part : Section} {item : Json} {vs : List Visit}
    (h : itemVisits env part item = some vs) : ∀ visit ∈ vs, visit.Sound env := by
  unfold itemVisits at h
  cases item with
  | obj fields =>
    obtain ⟨summary, hsummary, rfl⟩ := Option.map_eq_some_iff.mp h
    intro visit hvisit
    split at hvisit
    · exact absurd hvisit List.not_mem_nil
    · next hne =>
      rw [List.mem_singleton.mp hvisit]
      exact ⟨hsummary, fun hnil => hne (List.isEmpty_iff.mpr hnil)⟩
  | _ =>
    cases h
    exact fun visit hvisit => absurd hvisit List.not_mem_nil

theorem sound_visits {reports : List Json} {vs : List Visit} (h : visits env reports = some vs) :
    ∀ visit ∈ vs, visit.Sound env := by
  refine forall_of_mapM (fun report _ found hfound => ?_) h
  cases report with
  | obj fields =>
    refine forall_of_mapM (fun part _ inner hinner => ?_) hfound
    obtain ⟨items, -, hitems⟩ := Option.bind_eq_some_iff.mp hinner
    exact forall_of_mapM (fun item _ vs hvs => sound_itemVisits hvs) hitems
  | _ =>
    cases hfound
    exact fun visit hvisit => absurd hvisit List.not_mem_nil

theorem filter_sections {visited : Section → List Visit}
    (h : ∀ part, ∀ visit ∈ visited part, visit.part = part) (part : Section) :
    (REPORT_SECTIONS.flatMap visited).filter (fun visit => visit.part = part) = visited part := by
  have hall : ∀ other, (visited other).filter (fun visit => visit.part = part) =
      if other = part then visited other else [] := by
    intro other
    split
    · next heq =>
      apply List.filter_eq_self.mpr
      intro visit hvisit
      simp [h other visit hvisit, heq]
    · next hne =>
      apply List.filter_eq_nil_iff.mpr
      intro visit hvisit
      simpa [h other visit hvisit] using hne
  rw [List.filter_flatMap]
  simp only [hall]
  cases part <;> simp [REPORT_SECTIONS]

theorem get_report (m : Merge) (part : Section) :
    Dict.get m.report part.name = .arr ((m.merged part).map .obj) := by
  cases part <;> rfl

theorem iterate_arr (items : List Json) : iterate (.arr items) = some items := by
  cases items <;> rfl

theorem itemVisits_sound {visit : Visit} (h : visit.Sound env) :
    itemVisits env visit.part (.obj visit.item) = some [visit] := by
  rw [itemVisits, h.1, Option.map_some, if_neg]
  exact fun hempty => h.2 (List.isEmpty_iff.mp hempty)

theorem mapM_itemVisits {part : Section} {kept : List Visit}
    (hpart : ∀ visit ∈ kept, visit.part = part)
    (hsound : ∀ visit ∈ kept, visit.Sound env) :
    ((kept.map fun visit => Json.obj visit.item).mapM (itemVisits env part)).map List.flatten =
      some kept := by
  induction kept with
  | nil => rfl
  | cons visit kept ih =>
    have hhead := itemVisits_sound (hsound visit List.mem_cons_self)
    rw [hpart visit List.mem_cons_self] at hhead
    have hrest := ih (fun v hv => hpart v (List.mem_cons_of_mem _ hv))
      (fun v hv => hsound v (List.mem_cons_of_mem _ hv))
    obtain ⟨parts, hparts, hflat⟩ := Option.map_eq_some_iff.mp hrest
    rw [List.map_cons, List.mapM_cons, hhead, hparts]
    exact congrArg (fun vs => some (visit :: vs)) hflat

theorem part_of_mem_firstVisits {vs : List Visit} {part : Section} {visit : Visit}
    (h : visit ∈ firstVisits env vs part) : visit ∈ vs ∧ visit.part = part := by
  obtain ⟨hmem, hpart⟩ := List.mem_filter.mp (firstsBy_subset _ _ h)
  exact ⟨hmem, of_decide_eq_true hpart⟩

def keptVisits (env : ReportEnv) (vs : List Visit) (part : Section) : List Visit :=
  (firstVisits env vs part).take INTERVIEW_MAX_ITEMS_PER_SECTION

theorem mem_of_mem_keptVisits {vs : List Visit} {part : Section} {visit : Visit}
    (h : visit ∈ keptVisits env vs part) : visit ∈ vs ∧ visit.part = part :=
  part_of_mem_firstVisits (List.mem_of_mem_take h)

theorem visits_report {vs : List Visit} {m : Merge} (h : Gathered env vs m)
    (hsound : ∀ visit ∈ vs, visit.Sound env) :
    visits env [.obj m.report] = some (REPORT_SECTIONS.flatMap (keptVisits env vs)) := by
  have hsection : ∀ part, sectionVisits env m.report part = some (keptVisits env vs part) := by
    intro part
    rw [sectionVisits, get_report, iterate_arr, Option.bind_some, h.merged, List.map_map]
    exact mapM_itemVisits (fun visit hvisit => (mem_of_mem_keptVisits hvisit).2)
      (fun visit hvisit => hsound visit (mem_of_mem_keptVisits hvisit).1)
  have hreport : reportVisits env (.obj m.report) =
      some (REPORT_SECTIONS.flatMap (keptVisits env vs)) := by
    have hfun : sectionVisits env m.report = fun part => some (keptVisits env vs part) :=
      funext hsection
    rw [reportVisits, hfun]
    rfl
  unfold visits
  rw [List.mapM_cons, hreport]
  simp

theorem mergeReports_report {vs : List Visit} {m : Merge} (h : Gathered env vs m)
    (hsound : ∀ visit ∈ vs, visit.Sound env) :
    mergeReports env [.obj m.report] = some m.report := by
  rw [mergeReports_eq, visits_report h hsound, Option.map_some]
  congr 1
  have hagain : Gathered env (REPORT_SECTIONS.flatMap (keptVisits env vs)) _ := gathered _
  have hfirst : ∀ part, firstVisits env (REPORT_SECTIONS.flatMap (keptVisits env vs)) part =
      keptVisits env vs part := by
    intro part
    have hfilter := filter_sections
      (fun part visit (hvisit : visit ∈ keptVisits env vs part) => (mem_of_mem_keptVisits hvisit).2)
      part
    rw [firstVisits, hfilter]
    apply firstsBy_of_nodup
    exact (nodup_firstsBy _ _).sublist ((List.take_sublist _ _).map _)
  unfold Merge.report
  congr 1
  funext part
  rw [hagain.merged, hfirst, h.merged, keptVisits, List.take_take, min_self]

def Visit.Encodable (env : ReportEnv) (visit : Visit) : Prop :=
  ((itemContent env visit.part visit.item visit.summary).take MAX_CONTENT_LENGTH).any
    env.surrogate = false

theorem isSome_entryItem {visit : Visit} (h : visit.Sound env) (nodeId : String)
    (commandId : Option String) :
    (entryItem env nodeId commandId visit.part (.obj visit.item)).isSome = true ↔
      visit.Encodable env := by
  have hcontent : 1 ≤ (itemContent env visit.part visit.item visit.summary).length := by
    have hsummary := List.length_pos_iff.mpr h.2
    unfold itemContent
    split
    · simp only [List.length_append]
      omega
    · split
      · simp
      · exact hsummary
  have hlength : 1 ≤ ((itemContent env visit.part visit.item visit.summary).take
      MAX_CONTENT_LENGTH).length ∧ ((itemContent env visit.part visit.item visit.summary).take
      MAX_CONTENT_LENGTH).length ≤ MAX_CONTENT_LENGTH := by
    rw [List.length_take, MAX_CONTENT_LENGTH]
    omega
  unfold entryItem
  dsimp only
  rw [h.1]
  dsimp only
  rw [if_neg fun hempty => h.2 (List.isEmpty_iff.mp hempty), Option.isSome_map,
    BulkMemoryItem.build, dif_pos hlength, Visit.Encodable]
  split
  · next hlone => exact iff_of_false (by simp) (by simp [hlone])
  · next hnone => exact iff_of_true rfl (Bool.eq_false_iff.mpr hnone)

theorem isSome_reportToItems {vs : List Visit} {m : Merge} (h : Gathered env vs m)
    (hsound : ∀ visit ∈ vs, visit.Sound env) (nodeId : String) (commandId : Option String) :
    (reportToItems env nodeId commandId m.report).isSome = true ↔
      ∀ part, ∀ visit ∈ keptVisits env vs part, visit.Encodable env := by
  have hsection : ∀ part, (sectionItems env nodeId commandId m.report part).isSome = true ↔
      ∀ visit ∈ keptVisits env vs part, visit.Encodable env := by
    intro part
    rw [sectionItems, get_report, iterate_arr]
    dsimp only
    rw [Option.isSome_map, isSome_mapM_iff, h.merged, List.map_map, List.forall_mem_map]
    refine forall₂_congr fun visit hvisit => ?_
    obtain ⟨hmem, rfl⟩ := mem_of_mem_keptVisits hvisit
    exact isSome_entryItem (hsound visit hmem) nodeId commandId
  rw [reportToItems, Option.isSome_map, isSome_mapM_iff]
  simp only [hsection]
  exact ⟨fun hall part => hall part (mem_sections part), fun hall part _ => hall part⟩

/-- The merger does not raise; of the items that come to a section it keeps, up to the cap, the
first of each lower-case summary in their order; merging again changes nothing, and the items of
the bulk write can be built. -/
def MergesWell (env : ReportEnv) (reports : List Json) : Prop :=
  ∃ offered merged, visits env reports = some offered ∧ mergeReports env reports = some merged ∧
    (∀ part : Section, ∃ kept : List Visit,
      Dict.get merged part.name = .arr (kept.map fun visit => .obj visit.item) ∧
      kept = (firstVisits env offered part).take INTERVIEW_MAX_ITEMS_PER_SECTION ∧
      kept.length ≤ INTERVIEW_MAX_ITEMS_PER_SECTION ∧ (kept.map (Visit.fold env)).Nodup ∧
      kept.Sublist offered) ∧
    mergeReports env [.obj merged] = some merged ∧
    ∀ nodeId commandId, (reportToItems env nodeId commandId merged).isSome = true

/-- The items that are to be kept of each section, the first of each lower-case summary up to the
cap, have contents without lone surrogates. -/
def ItemsEncodable (env : ReportEnv) (reports : List Json) : Prop :=
  ∀ offered, visits env reports = some offered →
    ∀ part, ∀ visit ∈ keptVisits env offered part, visit.Encodable env

theorem mergesWell_iff {reports : List Json} :
    MergesWell env reports ↔ ReportsOk reports ∧ ItemsEncodable env reports := by
  rw [← isSome_visits]
  constructor
  · rintro ⟨offered, merged, hoffered, hmerged, -, -, hitems⟩
    have hgathered : Gathered env offered _ := gathered offered
    rw [mergeReports_eq, hoffered] at hmerged
    obtain rfl := Option.some.inj hmerged
    refine ⟨by rw [hoffered]; rfl, fun offered' hoffered' => ?_⟩
    obtain rfl := Option.some.inj (hoffered.symm.trans hoffered')
    exact (isSome_reportToItems hgathered (sound_visits hoffered) "" none).mp (hitems "" none)
  · rintro ⟨h, hencodable⟩
    obtain ⟨offered, hoffered⟩ := Option.isSome_iff_exists.mp h
    have hgathered : Gathered env offered _ := gathered offered
    have hsound := sound_visits hoffered
    refine ⟨offered, _, hoffered, ?_, fun part => ?_, mergeReports_report hgathered hsound,
      fun nodeId commandId =>
        (isSome_reportToItems hgathered hsound nodeId commandId).mpr (hencodable offered hoffered)⟩
    · rw [mergeReports_eq, hoffered]
      rfl
    · refine ⟨keptVisits env offered part, ?_, rfl, List.length_take_le _ _, ?_, ?_⟩
      · rw [get_report, hgathered.merged, List.map_map]
        rfl
      · exact (nodup_firstsBy _ _).sublist ((List.take_sublist _ _).map _)
      · exact (List.take_sublist _ _).trans ((firstsBy_sublist _ _).trans List.filter_sublist)

/-- The chunks hold the events in order, and keep to the budget when what stands in front of each
content, with a colon and a line end, fits the 80 characters allowed for it; without that
there are contents that overrun it. The merger and the items work on the reports that are well-formed and
have no lone surrogate in what is kept of them, and only on these. -/
theorem interview_map_reduce (env : ReportEnv) :
    (∀ events, (chunkEvents events).flatten = events ∧ [] ∉ chunkEvents events ∧
      ((∀ ev ∈ events, (envelope ev).length + 3 ≤ 80) → ChunksFit events)) ∧
    (∀ ev, 80 < (envelope ev).length + 3 → ∃ events : List InterviewEventIn,
      (∀ e ∈ events, envelope e = envelope ev) ∧ ¬ ChunksFit events) ∧
    ∀ reports, MergesWell env reports ↔ ReportsOk reports ∧ ItemsEncodable env reports := by
  refine ⟨fun events => ⟨flatten_chunkEvents events, fun h => ?_, chunksFit_of_envelopes⟩,
    fun ev => exists_not_chunksFit, fun reports => mergesWell_iff⟩
  exact NextFit.ne_nil_of_mem_runs h rfl

end Reports

def asciiReportEnv : ReportEnv where
  chars := .ascii
  printable c := 32 ≤ c.toNat && c.toNat < 127
  fromisoformat := Timestamp.fromisoformat
  surrogate _ := false

/-- A short event fits; with a session id of a hundred characters there are contents that do
not. -/
theorem interview_map_reduce_ascii :
    let long : InterviewEventIn := { sessionEvent with sessionId := some (List.replicate 100 's') }
    ChunksFit [sessionEvent] ∧
      ∃ events : List InterviewEventIn, (∀ e ∈ events, envelope e = envelope long) ∧
        ¬ ChunksFit events := by
  refine ⟨((interview_map_reduce asciiReportEnv).1 [sessionEvent]).2.2 ?_,
    (interview_map_reduce asciiReportEnv).2.1 _ (by decide +kernel)⟩
  intro ev hev
  rw [List.mem_singleton.mp hev]
  decide

/-- A section that is a number cannot be iterated. -/
theorem merge_raises_on_number : ¬ ∀ (env : ReportEnv) (reports : List Json),
    (mergeReports env reports).isSome = true := by
  intro h
  exact absurd (h asciiReportEnv [.obj [("decisions", .int 5)]]) (by decide)

end Memclaw.Interviewer
