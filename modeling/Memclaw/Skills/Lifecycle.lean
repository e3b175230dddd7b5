import Memclaw.Skills.LifecycleDefs
import Memclaw.Skills.Scan

/-! What the validator lets through: the status it stores, and the scan it stamps. -/

namespace Memclaw.Skills

open Memclaw.Lib Memclaw.Api

variable {env : SkillEnv} {ctx : SkillWriteContext} {now scannedAt : String}

theorem refuseIf_ok {condition : Bool} {statusCode : ℕ} {detail : String} {u : Unit}
    (h : refuseIf condition statusCode detail = .ok u) : condition = false := by
  cases condition with
  | false => rfl
  | true => cases h

theorem checkStatus_ok {status : Json} (h : checkStatus env ctx status = .ok ()) :
    (status.isStr Status.candidate.name → ctx.isInternalForge = true) ∧
      (status.isStr Status.active.name → ctx.isAdmin = true) := by
  unfold checkStatus at h
  obtain ⟨_, _, h⟩ := ok_of_bind h
  obtain ⟨_, hcandidate, h⟩ := ok_of_bind h
  obtain ⟨_, hactive, _⟩ := ok_of_bind h
  have hcandidate := refuseIf_ok hcandidate
  have hactive := refuseIf_ok hactive
  constructor
  · intro hstatus
    simpa [hstatus] using hcandidate
  · intro hstatus
    simpa [hstatus] using hactive

theorem fillServerFields_status {out filled : Dict} (h : fillServerFields ctx now out = .ok filled) :
    Dict.get filled "status" = Dict.get out "status" := by
  unfold fillServerFields at h
  simp only [] at h
  split at h
  · cases h
  · cases h
    have hcreated : Dict.get (if Dict.has out "created_at" then out
        else Dict.set out "created_at" (.str now)) "status" = Dict.get out "status" := by
      split <;> simp
    rw [Dict.get_set, if_neg (by decide)]
    split
    · rw [Dict.get_set, if_neg (by decide), Dict.get_set, if_neg (by decide), hcreated]
    · rw [Dict.get_set, if_neg (by decide), hcreated]

/-- The scan that a write stamps on its document is the scan of the document, and one that is
not clean puts it into quarantine. -/
structure Stamped (env : SkillEnv) (caps : Caps) (scannedAt : String) (out : Dict)
    (scan : ScanResult) : Prop where
  scanned : scanSkillDoc env.toTextEnv caps scannedAt out = some scan
  stamp : Dict.get out "scan" = scan.asDocField
  status : scan.state = .clean ∨ Dict.get out "status" = Status.quarantined.json

theorem stampScan_ok {filled out : Dict} {scan : ScanResult}
    (h : stampScan env ctx now scannedAt filled = .ok (out, scan)) :
    Stamped env ctx.caps scannedAt out scan ∧
      (Dict.get out "status" = Dict.get filled "status" ∨
        Dict.get out "status" = Status.quarantined.json) := by
  unfold stampScan at h
  split at h
  · cases h
  rename_i found hscan
  split at h
  · cases h
  simp only [Except.ok.injEq, Prod.mk.injEq] at h
  obtain ⟨hout, rfl⟩ := h
  by_cases hstate : found.state = .quarantined
  · rw [if_pos hstate] at hout
    have hstatus : Dict.get out "status" = Status.quarantined.json := by
      rw [← hout, Dict.get_set, if_neg (by decide), Dict.get_set, if_neg (by decide), Dict.get_set,
        if_pos rfl]
    refine ⟨⟨?_, ?_, .inr hstatus⟩, .inr hstatus⟩
    · rw [← hout, scanSkillDoc_set _ _ _ _ _ (by decide), scanSkillDoc_set _ _ _ _ _ (by decide),
        scanSkillDoc_set _ _ _ _ _ (by decide)]
      exact hscan
    · rw [← hout, Dict.get_set, if_pos rfl]
  · rw [if_neg hstate] at hout
    have hclean : found.state = .clean := by
      cases h : found.state with
      | clean => rfl
      | quarantined => exact absurd h hstate
    refine ⟨⟨?_, ?_, .inl hclean⟩, .inl ?_⟩
    · rw [← hout, scanSkillDoc_set _ _ _ _ _ (by decide)]
      exact hscan
    · rw [← hout, Dict.get_set, if_pos rfl]
    · rw [← hout, Dict.get_set, if_neg (by decide)]

theorem validate_ok {data out : Dict} {live : Option Row} {scan : ScanResult}
    (h : validateAndNormalizeSkillWrite env ctx now scannedAt data live = .ok (out, scan)) :
    Stamped env ctx.caps scannedAt out scan ∧
      ((Dict.get out "status").isStr Status.candidate.name → ctx.isInternalForge = true) ∧
      ((Dict.get out "status").isStr Status.active.name → ctx.isAdmin = true) := by
  unfold validateAndNormalizeSkillWrite at h
  obtain ⟨_, _, h⟩ := ok_of_bind h
  obtain ⟨_, _, h⟩ := ok_of_bind h
  obtain ⟨_, hchecked, h⟩ := ok_of_bind h
  obtain ⟨_, _, h⟩ := ok_of_bind h
  obtain ⟨filled, hfilled, h⟩ := ok_of_bind h
  obtain ⟨_, _, h⟩ := ok_of_bind h
  obtain ⟨hstamped, hstatus⟩ := stampScan_ok h
  refine ⟨hstamped, ?_⟩
  obtain hsame | hquarantined := hstatus
  · rw [hsame, fillServerFields_status hfilled]
    exact checkStatus_ok hchecked
  · rw [hquarantined]
    exact ⟨fun h => absurd h (by decide), fun h => absurd h (by decide)⟩

end Memclaw.Skills
