import Memclaw.Lib.PathRules
import Memclaw.Lib.Regex
import Memclaw.Skills.ScanDefs

/-! The paths of support files that the scanner lets through, and where they lead. Under POSIX
rules they stay inside the directory; under Windows rules a backslash in front and a drive letter
lead out of it. -/

namespace Memclaw.Skills

open Memclaw.Lib Memclaw.Lib.PathRules

theorem hiddenSegmentRe_regex : hiddenSegmentRe.regex = some
    (.seq
      (.alt (.seq (.lineStart false) .empty)
        (.seq (.set ⟨false, false, [.char '\\', .char '/']⟩) .empty))
      (.seq (.set ⟨false, false, [.char '.']⟩)
        (.seq (.set ⟨true, false, [.char '\\', .char '/']⟩) .empty))) := rfl

inductive NameStart : List Char → Prop
  | start : NameStart []
  | behind (init : List Char) (sep : Char) (h : windowsSep sep = true) : NameStart (init ++ [sep])

variable {env : TextEnv} {front back : List Char}

theorem windowsSep_iff {c : Char} : windowsSep c = true ↔ c = '/' ∨ c = '\\' := by
  rw [windowsSep, Bool.or_eq_true, decide_eq_true_iff, decide_eq_true_iff]

theorem hiddenSegmentRe_search {c : Char} (hfront : NameStart front) (hc : windowsSep c = false) :
    hiddenSegmentRe.search env.chars (front ++ '.' :: c :: back) ≠ none := by
  rw [windowsSep, Bool.or_eq_false_iff, decide_eq_false_iff_not, decide_eq_false_iff_not] at hc
  intro hnone
  rw [Pattern.search_eq_none hiddenSegmentRe_regex] at hnone
  cases hfront with
  | start =>
    have hrun := hnone [] ('.' :: c :: back) rfl
    simp [Regex.run, CharSet.test, CharItem.test, hc.1, hc.2] at hrun
  | behind init sep hsep =>
    have hrun := hnone init (sep :: '.' :: c :: back) (by simp)
    rcases windowsSep_iff.mp hsep with rfl | rfl
    · simp [Regex.run, CharSet.test, CharItem.test, hc.1, hc.2] at hrun
    · simp [Regex.run, CharSet.test, CharItem.test, hc.1, hc.2] at hrun

def slashed (path : List Char) : List Char := path.map fun c => if c = '\\' then '/' else c

theorem bare_dot {rest : List Char} (hfront : NameStart front)
    (hrest : rest.head?.all windowsSep = true) :
    ['.'] ∈ (slashed (front ++ '.' :: rest)).splitOn '/' := by
  have hslash : ∀ sep tail, windowsSep sep = true → slashed (sep :: tail) = '/' :: slashed tail := by
    intro sep tail hsep
    rcases windowsSep_iff.mp hsep with rfl | rfl <;> rfl
  have hcut : ∀ first later : List Char,
      (first ++ '/' :: later).splitOn '/' = first.splitOn '/' ++ later.splitOn '/' :=
    fun first later => List.splitOnP_append_cons first later rfl
  have hhere : ['.'] ∈ (slashed ('.' :: rest)).splitOn '/' := by
    cases rest with
    | nil => exact List.mem_singleton_self _
    | cons sep back =>
      have hsplit : slashed ('.' :: sep :: back) = ['.'] ++ '/' :: slashed back :=
        congrArg (List.cons '.') (hslash sep back hrest)
      rw [hsplit, hcut]
      exact List.mem_append_left _ (List.mem_singleton_self _)
  cases hfront with
  | start => exact hhere
  | behind init sep hsep =>
    have hsplit : slashed (init ++ [sep] ++ '.' :: rest) =
        slashed init ++ '/' :: slashed ('.' :: rest) := by
      rw [List.append_assoc, List.singleton_append, ← hslash sep _ hsep]
      exact List.map_append
    rw [hsplit, hcut]
    exact List.mem_append_right _ hhere

theorem pathProblem_of_clean {i : ℕ} {sf : Dict} {path : String}
    (hpath : Dict.get sf "path" = .str path) (hclean : scanPath env i (.obj sf) = some []) :
    path.toList ≠ [] ∧ ∃ role, pathProblem env path role = none := by
  rw [scanPath, hpath] at hclean
  dsimp only [Json.asStr] at hclean
  split_ifs at hclean with hempty
  · cases hclean
  · obtain ⟨role, -, hproblem⟩ := Option.bind_eq_some_iff.mp hclean
    refine ⟨fun hnil => hempty (String.toList_eq_nil_iff.mp hnil), role, ?_⟩
    cases hnone : pathProblem env path role with
    | none => rfl
    | some what =>
      rw [hnone] at hproblem
      cases hproblem

structure Passed (env : TextEnv) (path : List Char) : Prop where
  slash : path.head? ≠ some '/'
  hidden : hiddenSegmentRe.search env.chars path = none
  dots : ['.'] ∉ (slashed path).splitOn '/'

theorem passed_of_pathProblem {path role : String} (h : pathProblem env path role = none) :
    Passed env path.toList := by
  unfold pathProblem at h
  dsimp only at h
  split_ifs at h with hascii habs htraversal hhidden hdot
  all_goals
    refine ⟨?_, ?_, ?_⟩
    · intro hhead
      obtain ⟨rest, hrest⟩ := List.head?_eq_some_iff.mp hhead
      refine habs (Bool.or_eq_true_iff.mpr (.inl ?_))
      rw [hrest]
      rfl
    · exact Option.not_isSome_iff_eq_none.mp hhidden
    · exact fun hmem => hdot (List.any_eq_true.mpr ⟨_, hmem, decide_eq_true rfl⟩)

theorem Passed.undotted {path : List Char} (h : Passed env path) : Undotted windowsSep path := by
  intro front back hpath
  by_contra hstart
  have hfront : NameStart front := by
    rcases List.eq_nil_or_concat' front with rfl | ⟨init, c, rfl⟩
    · exact .start
    · refine .behind init c ?_
      by_contra hc
      exact hstart ⟨init, c, rfl, Bool.eq_false_iff.mpr hc⟩
  by_cases hback : back.head?.all windowsSep = true
  · refine h.dots ?_
    rw [hpath]
    exact bare_dot hfront hback
  · cases back with
    | nil => exact hback rfl
    | cons c back =>
      rw [List.head?_cons, Option.all_some, Bool.not_eq_true] at hback
      have hfound : hiddenSegmentRe.search env.chars (front ++ '.' :: c :: back) ≠ none :=
        hiddenSegmentRe_search hfront hback
      exact hfound (hpath ▸ h.hidden)

/-- A backslash in front, or a drive letter. -/
def Escaping (path : List Char) : Prop :=
  path.head? = some '\\' ∨ ∃ c rest, path = c :: ':' :: rest ∧ c.isAlpha = true

theorem Passed.rooted_iff {path : List Char} (h : Passed env path) :
    rooted path = true ↔ path.head? = some '\\' := by
  rw [rooted]
  cases hhead : path.head? with
  | none => simp
  | some c =>
    rw [Option.any_some, windowsSep_iff, Option.some_inj]
    refine or_iff_right ?_
    rintro rfl
    exact h.slash hhead

/-- A path without a finding stays inside every directory exactly when no backslash and no drive
letter starts it. -/
theorem clean_path_confined_iff (env : TextEnv) (i : ℕ) (sf : Dict) (path : String)
    (hpath : Dict.get sf "path" = .str path) (hclean : scanPath env i (.obj sf) = some []) :
    Confined path.toList ↔ ¬ Escaping path.toList := by
  obtain ⟨hne, role, hproblem⟩ := pathProblem_of_clean hpath hclean
  have hpassed := passed_of_pathProblem hproblem
  rw [confined_iff hpassed.undotted hne, Escaping, ← hpassed.rooted_iff, ← driveOf_isSome, not_or,
    Bool.not_eq_true, Bool.not_eq_true, Option.isSome_eq_false_iff, Option.isNone_iff_eq_none]

theorem clean_path_confined_iff_notes : Confined "notes/usage.md".toList := by
  have hiff := clean_path_confined_iff TextEnv.ascii 0 [("path", .str "notes/usage.md")]
    "notes/usage.md" rfl (by decide +kernel)
  refine hiff.mpr ?_
  rintro (hhead | ⟨c, rest, hcolon, -⟩)
  · exact absurd hhead (by decide)
  · have hsecond := congrArg (fun path => path[1]?) hcolon
    exact absurd hsecond (by simp)

/-- A drive letter in front of a slash. -/
theorem not_confined_drive : ¬ ∀ (env : TextEnv) (i : ℕ) (sf : Dict) (path : String),
    Dict.get sf "path" = .str path → scanPath env i (.obj sf) = some [] →
      Confined path.toList := by
  intro h
  have hconfined := h TextEnv.ascii 0 [("path", .str "C:/Windows/notes.md")] "C:/Windows/notes.md" rfl
    (by decide +kernel)
  have hvolume := (hconfined.windows (fun _ => []) ⟨.drive 3, [['s', 'k', 'i', 'l', 'l', 's']]⟩).1
  have hplace : (windowsResolve (fun _ => []) ⟨.drive 3, [['s', 'k', 'i', 'l', 'l', 's']]⟩
      "C:/Windows/notes.md".toList).volume = .drive 2 := by
    decide
  rw [hplace] at hvolume
  cases hvolume

end Memclaw.Skills
