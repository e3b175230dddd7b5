import Memclaw.Lib.Dict
import Memclaw.Skills.StoreDefs

/-! Lookups in the store after its statements. -/

namespace Memclaw.Skills

open Memclaw.Lib Memclaw.Lib.Interleave

variable {s : Store} {row : Row}

theorem mem_put {r : Row} (h : r ∈ (s.put row).rows) :
    r = row ∨ (r ∈ s.rows ∧ r.docId ≠ row.docId) := by
  rw [Store.put] at h
  by_cases hany : s.rows.any (·.docId = row.docId)
  · simp only [if_pos hany] at h
    obtain ⟨old, hold, rfl⟩ := List.mem_map.mp h
    by_cases hid : old.docId = row.docId
    · exact .inl (if_pos hid)
    · rw [if_neg hid]
      exact .inr ⟨hold, hid⟩
  · simp only [if_neg hany] at h
    obtain hr | hr := List.mem_append.mp h
    · refine .inr ⟨hr, fun hid => hany ?_⟩
      exact List.any_eq_true.mpr ⟨r, hr, by simpa using hid⟩
    · exact .inl (List.mem_singleton.mp hr)

theorem filter_put {p : Row → Bool} (hp : p row = false) :
    (s.put row).rows.filter p = (s.rows.filter p).filter (·.docId ≠ row.docId) := by
  -- What a row that is put does to the rows that fulfil a condition it does not fulfil.
  rw [Store.put]
  by_cases hany : s.rows.any (·.docId = row.docId)
  · simp only [if_pos hany]
    generalize s.rows = rows
    induction rows with
    | nil => rfl
    | cons r rows ih =>
      by_cases hid : r.docId = row.docId
      · cases hr : p r <;> simp [hid, hp, hr, ih]
      · cases hr : p r <;> simp [hid, hr, ih]
  · simp only [if_neg hany, List.filter_append]
    have hfree : ∀ r ∈ s.rows.filter p, decide (r.docId ≠ row.docId) = true := by
      intro r hr
      have hne : r.docId ≠ row.docId := fun hid =>
        hany (List.any_eq_true.mpr ⟨r, List.mem_of_mem_filter hr, by simpa using hid⟩)
      simpa using hne
    rw [List.filter_eq_self.mpr hfree]
    simp [hp]

theorem find_replaced (rows : List Row) (h : rows.any (·.docId = row.docId)) :
    (rows.map fun r => if r.docId = row.docId then row else r).find? (·.docId = row.docId) =
      some row := by
  induction rows with
  | nil => simp at h
  | cons r rows ih =>
    rw [List.map_cons, List.find?_cons]
    by_cases hid : r.docId = row.docId
    · simp [hid]
    · have hrest : rows.any (·.docId = row.docId) = true := by simpa [hid] using h
      simpa [hid] using ih hrest

theorem find_not_replaced (rows : List Row) {docId : String} (h : row.docId ≠ docId) :
    (rows.map fun r => if r.docId = row.docId then row else r).find? (·.docId = docId) =
      rows.find? (·.docId = docId) := by
  induction rows with
  | nil => rfl
  | cons r rows ih =>
    rw [List.map_cons, List.find?_cons, List.find?_cons, ih]
    by_cases hid : r.docId = row.docId
    · simp [hid, h]
    · simp [hid]

theorem find_put (docId : String) :
    (s.put row).find docId = if row.docId = docId then some row else s.find docId := by
  rw [Store.find, Store.find, Store.put]
  by_cases hany : s.rows.any (·.docId = row.docId)
  · simp only [if_pos hany]
    by_cases hdoc : row.docId = docId
    · rw [if_pos hdoc, ← hdoc]
      exact find_replaced s.rows hany
    · rw [if_neg hdoc]
      exact find_not_replaced s.rows hdoc
  · simp only [if_neg hany, List.find?_append]
    by_cases hdoc : row.docId = docId
    · have hnone : s.rows.find? (·.docId = docId) = none := by
        apply List.find?_eq_none.mpr
        intro r hr hid
        apply hany
        exact List.any_eq_true.mpr ⟨r, hr, by simpa [hdoc] using hid⟩
      simp [hdoc, hnone]
    · simp [hdoc]

theorem status_put (docId : String) :
    (s.put row).status docId = if row.docId = docId then row.status else s.status docId := by
  rw [Store.status, find_put, Store.status]
  by_cases hdoc : row.docId = docId
  · rw [if_pos hdoc, if_pos hdoc]
  · rw [if_neg hdoc, if_neg hdoc]

theorem get_jsonbSet (d : Dict) (key other : String) (value : Json) :
    Dict.get (jsonbSet d key value) other = if key = other then value else Dict.get d other := by
  rw [Dict.get, jsonbSet, Json.find_insertJsonb, Dict.find_pop]
  by_cases h : key = other
  · rw [if_pos h, if_pos h]
    rfl
  · rw [if_neg h, if_neg h, if_neg h]
    rfl

theorem docId_of_find {docId : String} (h : s.find docId = some row) : row.docId = docId := by
  simpa using List.find?_some h

theorem status_of_find {docId : String} (h : s.find docId = some row) :
    s.status docId = row.status := by
  rw [Store.status, h]

theorem updateStatus_eq_some {s' : Store} {nowIso docId : String} {new expected : Status}
    (h : s.updateStatus nowIso docId new expected = some s') :
    ∃ row, s.find docId = some row ∧ row.has expected = true ∧
      s' = s.put { row with
        data := jsonbSet (jsonbSet row.data "status" new.json) (new.name ++ "_at") (.str nowIso) } := by
  rw [Store.updateStatus] at h
  split at h
  case h_2 => cases h
  rename_i row hfind
  split at h
  case isFalse => cases h
  rename_i hexpected
  cases h
  exact ⟨row, hfind, hexpected, rfl⟩

inductive Writes (db : DbEnv) (b : Surroundings) (s : Store) : Call → Store → Prop
  | keep {c : Call} {s' : Store} (h : s'.rows = s.rows) : Writes db b s c s'
  | upsert {w : Upsert} (h : b.reply ≠ .refused) :
    Writes db b s (.upsertDocument w) (s.upsert db b.now w)
  | status {docId : String} {new expected : Status} {s' : Store}
    (h : s.updateStatus b.nowIso docId new expected = some s') :
    Writes db b s (.updateDocumentStatus docId new expected) s'

theorem serve_writes (db : DbEnv) (b : Surroundings) (c : Call) (s : Store) :
    Writes db b s c (serve db b c s).2 := by
  cases c with
  | getDocument _ => exact .keep rfl
  | queryDocuments _ => exact .keep rfl
  | isFingerprintPoisoned _ _ => exact .keep rfl
  | writeRejectedFingerprint rejection =>
    rw [serve, Surroundings.write]
    cases b.reply <;> exact .keep rfl
  | upsertDocument w =>
    rw [serve, Surroundings.write]
    cases hreply : b.reply with
    | refused => exact .keep rfl
    | ok => exact .upsert (by simp [hreply])
    | lost => exact .upsert (by simp [hreply])
  | updateDocumentStatus docId new expected =>
    rw [serve]
    split
    · rename_i s' hupdated
      rw [Surroundings.write]
      cases b.reply with
      | refused => exact .keep rfl
      | ok => exact .status hupdated
      | lost => exact .status hupdated
    · exact .keep rfl

theorem status_of_rows {s' : Store} (h : s'.rows = s.rows) (docId : String) :
    s'.status docId = s.status docId := by
  rw [Store.status, Store.status, Store.find, Store.find, h]

end Memclaw.Skills
