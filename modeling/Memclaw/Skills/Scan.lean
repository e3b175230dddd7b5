import Memclaw.Lib.Dict
import Memclaw.Skills.ScanDefs

/-! The scan reads six fields of a document, and a trip of the document through a JSONB
column changes at most the order of its findings. -/

namespace Memclaw.Skills

open Memclaw.Lib

def scannedFields : List String :=
  ["content", "description", "summary", "goal", "evidence", "support_files"]

theorem scanFindings_congr (env : TextEnv) (caps : Caps) {d d' : Dict}
    (h : ∀ field ∈ scannedFields, Dict.get d field = Dict.get d' field) :
    scanFindings env caps d = scanFindings env caps d' := by
  have hcontent := h "content" (by simp [scannedFields])
  have hdescription := h "description" (by simp [scannedFields])
  have hsummary := h "summary" (by simp [scannedFields])
  have hgoal := h "goal" (by simp [scannedFields])
  have hevidence := h "evidence" (by simp [scannedFields])
  have hfiles := h "support_files" (by simp [scannedFields])
  simp only [scanFindings, scanField, scanSizes, hcontent, hdescription, hsummary, hgoal, hevidence,
    hfiles]

theorem scanSkillDoc_congr (env : TextEnv) (caps : Caps) (scannedAt : String) {d d' : Dict}
    (h : ∀ field ∈ scannedFields, Dict.get d field = Dict.get d' field) :
    scanSkillDoc env caps scannedAt d = scanSkillDoc env caps scannedAt d' := by
  rw [scanSkillDoc, scanSkillDoc, scanFindings_congr env caps h]

theorem ne_of_notMem_scannedFields {key field : String} (h : key ∉ scannedFields)
    (hfield : field ∈ scannedFields) : key ≠ field := by
  rintro rfl
  exact h hfield

theorem scanSkillDoc_set (env : TextEnv) (caps : Caps) (scannedAt : String) (d : Dict)
    {key : String} (value : Json) (h : key ∉ scannedFields) :
    scanSkillDoc env caps scannedAt (Dict.set d key value) = scanSkillDoc env caps scannedAt d := by
  apply scanSkillDoc_congr
  intro field hfield
  rw [Dict.get_set, if_neg (ne_of_notMem_scannedFields h hfield)]

theorem scanSkillDoc_pop (env : TextEnv) (caps : Caps) (scannedAt : String) (d : Dict)
    {key : String} (h : key ∉ scannedFields) :
    scanSkillDoc env caps scannedAt (Dict.pop d key) = scanSkillDoc env caps scannedAt d := by
  apply scanSkillDoc_congr
  intro field hfield
  rw [Dict.get_pop, if_neg (ne_of_notMem_scannedFields h hfield)]

theorem ofFindings_state_perm {scannedAt scannedAt' : String} {fs fs' : List ScanFinding}
    (h : fs.Perm fs') :
    (ScanResult.ofFindings scannedAt fs).state = (ScanResult.ofFindings scannedAt' fs').state := by
  have hany : fs.any ScanFinding.fatal = fs'.any ScanFinding.fatal := by
    apply Bool.eq_iff_iff.mpr
    simp only [List.any_eq_true, h.mem_iff]
  have hcount := h.countP_eq fun f => f.severity = Severity.critical
  have hsame : (fs.any ScanFinding.fatal || decide (0 < countSeverity .critical fs)) =
      (fs'.any ScanFinding.fatal || decide (0 < countSeverity .critical fs')) := by
    rw [hany]
    exact congrArg (fun n => fs'.any ScanFinding.fatal || decide (0 < n)) hcount
  simp only [ScanResult.ofFindings]
  rw [hsame]

theorem ofFindings_clean {scannedAt : String} {fs : List ScanFinding}
    (h : (ScanResult.ofFindings scannedAt fs).state = .clean) :
    (ScanResult.ofFindings scannedAt fs).critical = 0 := by
  simp only [ScanResult.ofFindings] at h ⊢
  by_contra hpos
  have hpos : 0 < countSeverity .critical fs := Nat.pos_of_ne_zero hpos
  rw [if_pos (by simp [hpos])] at h
  cases h

variable (floats : JsonbFloats)

theorem iterEvidenceFields_eq_flatMap (locator : String) (depth : ℕ) (fields : Dict) :
    iterEvidenceFields locator depth fields =
      fields.flatMap fun field => iterEvidenceStrings (locator ++ "." ++ field.1) depth field.2 := by
  induction fields with
  | nil => rfl
  | cons field fields ih =>
    obtain ⟨k, v⟩ := field
    rw [iterEvidenceFields, ih, List.flatMap_cons]

theorem iterEvidenceFields_insert (locator : String) (depth : ℕ) (k : String) (v : Json)
    (fields : Dict) :
    (iterEvidenceFields locator depth (Json.insertJsonb (k, v) fields)).Perm
      (iterEvidenceStrings (locator ++ "." ++ k) depth v ++ iterEvidenceFields locator depth fields) := by
  rw [iterEvidenceFields_eq_flatMap, iterEvidenceFields_eq_flatMap]
  exact (Json.insertJsonb_perm (k, v) fields).flatMap_right _

-- By structural recursion on the value; only the fields of a dict change places.
mutual

theorem iterEvidenceStrings_jsonb : ∀ (j : Json) (locator : String) (depth : ℕ),
    (iterEvidenceStrings locator depth (j.jsonb floats)).Perm (iterEvidenceStrings locator depth j)
  | .str s, locator, depth => by rw [Json.jsonb]
  | .obj fields, locator, depth => by
    rw [Json.jsonb, iterEvidenceStrings, iterEvidenceStrings]
    split
    · exact List.Perm.refl _
    · exact iterEvidenceFields_jsonb fields locator (depth + 1)
  | .arr items, locator, depth => by
    rw [Json.jsonb, iterEvidenceStrings, iterEvidenceStrings]
    split
    · exact List.Perm.refl _
    · exact iterEvidenceItems_jsonb items locator (depth + 1) 0
  | .float x, locator, depth => by
    obtain ⟨i, h⟩ | ⟨y, h⟩ := Json.jsonb_float_cases floats x
    · rw [h, iterEvidenceStrings, iterEvidenceStrings] <;> simp
    · rw [h, iterEvidenceStrings, iterEvidenceStrings] <;> simp
  | .null, locator, depth => by rw [Json.jsonb]
  | .bool b, locator, depth => by rw [Json.jsonb]
  | .int i, locator, depth => by rw [Json.jsonb]

theorem iterEvidenceItems_jsonb : ∀ (items : List Json) (locator : String) (depth i : ℕ),
    (iterEvidenceItems locator depth i (Json.jsonbItems floats items)).Perm
      (iterEvidenceItems locator depth i items)
  | [], locator, depth, i => List.Perm.refl _
  | j :: items, locator, depth, i => by
    rw [Json.jsonbItems, iterEvidenceItems, iterEvidenceItems]
    exact (iterEvidenceStrings_jsonb j _ depth).append
      (iterEvidenceItems_jsonb items locator depth (i + 1))

theorem iterEvidenceFields_jsonb : ∀ (fields : Dict) (locator : String) (depth : ℕ),
    (iterEvidenceFields locator depth (Json.jsonbFields floats fields)).Perm
      (iterEvidenceFields locator depth fields)
  | [], locator, depth => List.Perm.refl _
  | (k, j) :: fields, locator, depth => by
    rw [Json.jsonbFields, iterEvidenceFields]
    apply (iterEvidenceFields_insert locator depth k (j.jsonb floats) _).trans
    exact (iterEvidenceStrings_jsonb j _ depth).append (iterEvidenceFields_jsonb fields locator depth)

end

theorem scanEvidence_jsonb (env : TextEnv) (evidence : Json) :
    (scanEvidence env (evidence.jsonb floats)).Perm (scanEvidence env evidence) := by
  cases evidence with
  | obj fields =>
    have hleaves := iterEvidenceStrings_jsonb floats (.obj fields) "evidence" 0
    rw [Json.jsonb_obj] at hleaves ⊢
    exact hleaves.flatMap_right _
  | float x => obtain ⟨i, h⟩ | ⟨y, h⟩ := Json.jsonb_float_cases floats x <;> rw [h] <;> rfl
  | arr items =>
    rw [Json.jsonb_arr]
    rfl
  | _ => rw [Json.jsonb]

theorem scanField_jsonb (env : TextEnv) (d : Dict) (field : String) :
    scanField env (Json.jsonbFields floats d) field = scanField env d field := by
  rw [scanField, scanField, Json.get_jsonbFields, Json.textOrFalse_jsonb]

theorem roleOf_jsonb (env : TextEnv) (sf : Dict) :
    roleOf env (Json.jsonbFields floats sf) = roleOf env sf := by
  rw [roleOf, roleOf, Json.get_jsonbFields, Json.textOrFalse_jsonb]

theorem bodyOf_jsonb (sf : Dict) :
    bodyOf (Json.jsonbFields floats sf) = (bodyOf sf).jsonb floats := by
  simp only [bodyOf, Json.get_jsonbFields, Json.truthy_jsonb]
  by_cases hcontent : (Dict.get sf "content").truthy
  · rw [if_pos hcontent, if_pos hcontent]
  · rw [if_neg hcontent, if_neg hcontent]
    by_cases hbody : (Dict.get sf "body").truthy
    · rw [if_pos hbody, if_pos hbody]
    · rw [if_neg hbody, if_neg hbody, Json.jsonb_str]

theorem scanSupportFile_jsonb (env : TextEnv) (i : ℕ) (sf : Json) :
    scanSupportFile env i (sf.jsonb floats) = scanSupportFile env i sf := by
  apply Json.eq_of_jsonb floats (some []) (fun _ => rfl) (fun _ => rfl) (fun _ => rfl)
  intro fields
  simp only [scanSupportFile, roleOf_jsonb, bodyOf_jsonb, Json.asStr_jsonb]

theorem scanPath_jsonb (env : TextEnv) (i : ℕ) (sf : Json) :
    scanPath env i (sf.jsonb floats) = scanPath env i sf := by
  apply Json.eq_of_jsonb floats _ (fun _ => rfl) (fun _ => rfl) (fun _ => rfl)
  intro fields
  simp only [scanPath, roleOf_jsonb, Json.get_jsonbFields, Json.asStr_jsonb]

theorem scanEach_map {check : ℕ → Json → Option (List ScanFinding)} {f : Json → Json}
    (h : ∀ i j, check i (f j) = check i j) (i : ℕ) (items : List Json) :
    scanEach check i (items.map f) = scanEach check i items := by
  induction items generalizing i with
  | nil => rfl
  | cons j items ih => rw [List.map_cons, scanEach, scanEach, h, ih]

theorem scanSupportFiles_jsonb (env : TextEnv) (files : Json) :
    scanSupportFiles env (files.jsonb floats) = scanSupportFiles env files := by
  refine Json.eq_of_jsonb floats (some []) (fun _ => rfl) (fun _ => rfl) ?_ (fun _ => rfl) files
  intro items
  rw [scanSupportFiles, scanSupportFiles, scanEach_map (scanSupportFile_jsonb floats env),
    scanEach_map (scanPath_jsonb floats env)]

theorem strItems_jsonb (j : Json) : strItems (j.jsonb floats) = strItems j := by
  refine Json.eq_of_jsonb floats none (fun _ => rfl) (fun _ => rfl) ?_ (fun _ => rfl) j
  intro items
  rw [strItems, strItems, List.filterMap_map]
  congr 2
  funext j
  exact Json.asStr_jsonb floats j

theorem memoryIds_jsonb (evidence : Json) : memoryIds (evidence.jsonb floats) = memoryIds evidence := by
  apply Json.eq_of_jsonb floats none (fun _ => rfl) (fun _ => rfl) (fun _ => rfl)
  intro fields
  rw [memoryIds, memoryIds, Json.get_jsonbFields, strItems_jsonb]

theorem utf8Len_jsonb (env : TextEnv) (j : Json) : utf8Len env (j.jsonb floats) = utf8Len env j :=
  Json.eq_of_jsonb floats (some 0) (fun _ => rfl) (fun _ => rfl) (fun _ => rfl) (fun _ => rfl) j

theorem scanFindings_jsonb {env : TextEnv} {caps : Caps} {d : Dict} {fs : List ScanFinding}
    (h : scanFindings env caps d = some fs) :
    ∃ fs', scanFindings env caps (Json.jsonbFields floats d) = some fs' ∧ fs.Perm fs' := by
  -- A rescan of what the column gives back finds the same, up to the order of findings.
  have hsizes : scanSizes env caps (Json.jsonbFields floats d) = scanSizes env caps d := by
    simp only [scanSizes, Json.get_jsonbFields, utf8Len_jsonb]
  have hevidence := (scanEvidence_jsonb floats env (Dict.get d "evidence")).symm
  simp only [scanFindings, Option.bind_eq_bind, Option.bind_eq_some_iff] at h
  obtain ⟨content, hcontent, description, hdescription, summary, hsummary, goal, hgoal, files, hfiles,
    sizes, hscanned, hfs⟩ := h
  simp only [scanFindings, scanField_jsonb, Json.get_jsonbFields, scanSupportFiles_jsonb,
    scanMemoryIdStuffing, memoryIds_jsonb, hsizes, hcontent, hdescription, hsummary, hgoal, hfiles, hscanned]
  refine ⟨_, rfl, ?_⟩
  rw [← Option.some.inj hfs]
  apply List.Perm.append_right
  apply List.Perm.append_right
  apply List.Perm.append_right
  exact hevidence.append_left _

end Memclaw.Skills
