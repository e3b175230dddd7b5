import Memclaw.Skills.Handlers

/-! Active skills carry a clean scan of themselves. Six writers share the collection; each
stores a document that goes live together with the scan of that very document, or changes
nothing but its status. -/

namespace Memclaw.Skills

open Memclaw.Lib Memclaw.Lib.Interleave Memclaw.Api

theorem ofFindings_perm {scannedAt : String} {fs fs' : List ScanFinding} (h : fs.Perm fs') :
    ScanResult.ofFindings scannedAt fs =
      { ScanResult.ofFindings scannedAt fs' with findings := fs } := by
  have hstate : (ScanResult.ofFindings scannedAt fs).state =
      (ScanResult.ofFindings scannedAt fs').state := ofFindings_state_perm h
  have hcount : ∀ severity, countSeverity severity fs = countSeverity severity fs' := by
    intro severity
    rw [countSeverity, countSeverity]
    exact h.countP_eq _
  simp only [ScanResult.ofFindings, ScanResult.mk.injEq] at hstate ⊢
  exact ⟨hstate, trivial, hcount _, hcount _, hcount _, trivial⟩

/-- The stored scan is clean, and is the scan of the stored fields under the caps of the row
up to its time and the order of its findings. -/
structure StoredScan (env : TextEnv) (floats : JsonbFloats) (caps : Caps) (data : Dict) : Prop where
  rescan : ∃ scannedAt scan findings, scanSkillDoc env caps scannedAt data = some scan ∧
    scan.state = .clean ∧ findings.Perm scan.findings ∧
    Dict.get data "scan" = ({ scan with findings := findings }.asDocField).jsonb floats

theorem StoredScan.congr {env : TextEnv} {floats : JsonbFloats} {caps : Caps} {d d' : Dict}
    (h : StoredScan env floats caps d)
    (hsame : ∀ field ∈ "scan" :: scannedFields, Dict.get d field = Dict.get d' field) :
    StoredScan env floats caps d' := by
  obtain ⟨scannedAt, scan, findings, hscan, hclean, hperm, hstamp⟩ := h.rescan
  refine ⟨scannedAt, scan, findings, ?_, hclean, hperm, ?_⟩
  · rw [← hscan]
    apply scanSkillDoc_congr
    intro field hfield
    exact (hsame field (List.mem_cons_of_mem _ hfield)).symm
  · rw [← hsame "scan" List.mem_cons_self]
    exact hstamp

theorem StoredScan.clean {env : TextEnv} {floats : JsonbFloats} {caps : Caps} {data : Dict}
    (h : StoredScan env floats caps data) :
    ∃ stamp, Dict.get data "scan" = .obj stamp ∧
      Dict.get stamp "state" = .str ScanState.clean.name ∧ Dict.get stamp "critical" = .int 0 := by
  obtain ⟨scannedAt, scan, findings, hscan, hclean, _, hstamp⟩ := h.rescan
  rw [scanSkillDoc] at hscan
  obtain ⟨fs, _, rfl⟩ := Option.map_eq_some_iff.mp hscan
  have hcritical := ofFindings_clean hclean
  rw [ScanResult.asDocField, Json.jsonb_obj] at hstamp
  refine ⟨_, hstamp, ?_, ?_⟩
  · rw [Json.get_jsonbFields, hclean]
    exact Json.jsonb_str floats _
  · rw [Json.get_jsonbFields, hcritical]
    exact Json.jsonb_int floats 0

theorem CleanScan.stored {env : TextEnv} {caps : Caps} {data : Dict} (h : CleanScan env caps data)
    (floats : JsonbFloats) : StoredScan env floats caps (Json.jsonbFields floats data) := by
  obtain ⟨scannedAt, scan, hscan, hclean, hstamp⟩ := h
  rw [scanSkillDoc] at hscan
  obtain ⟨fs, hfs, rfl⟩ := Option.map_eq_some_iff.mp hscan
  obtain ⟨fs', hfs', hperm⟩ := scanFindings_jsonb floats hfs
  refine ⟨scannedAt, ScanResult.ofFindings scannedAt fs', fs, ?_, ?_, hperm, ?_⟩
  · rw [scanSkillDoc, hfs']
    rfl
  · rw [← hclean]
    exact (ofFindings_state_perm hperm).symm
  · rw [Json.get_jsonbFields, hstamp, ofFindings_perm hperm]

/-- Every document that is, or can become, active without another scan has a stored scan. -/
def AllScanned (env : SkillEnv) (db : DbEnv) (s : Store) : Prop :=
  ∀ row ∈ s.rows, isLive row.status → StoredScan env.toTextEnv db.floats row.caps row.data

theorem AllScanned.put {env : SkillEnv} {db : DbEnv} {s : Store} {row : Row}
    (h : AllScanned env db s)
    (hrow : isLive row.status → StoredScan env.toTextEnv db.floats row.caps row.data) :
    AllScanned env db (s.put row) := by
  intro r hr hlive
  obtain rfl | ⟨hold, _⟩ := mem_put hr
  · exact hrow hlive
  · exact h r hold hlive

theorem AllScanned.upsert {env : SkillEnv} {db : DbEnv} {s : Store} {w : Upsert} {now : Int}
    (h : AllScanned env db s) (hw : Scanned env (.upsertDocument w)) :
    AllScanned env db (s.upsert db now w) := by
  apply h.put
  intro hlive
  apply CleanScan.stored (hw ?_)
  simpa only [isLive, Row.status, Json.get_jsonbFields, Json.isStr_jsonb] using hlive

theorem AllScanned.updateStatus {env : SkillEnv} {db : DbEnv} {s s' : Store} {nowIso docId : String}
    {new : Status} (h : AllScanned env db s)
    (hs' : s.updateStatus nowIso docId new .candidate = some s') : AllScanned env db s' := by
  -- The status alone changes, and only that of a document that had a scan before.
  obtain ⟨row, hfind, hcandidate, rfl⟩ := updateStatus_eq_some hs'
  apply h.put
  intro _
  have hlive : isLive row.status = true := by
    rw [isLive, Bool.or_eq_true]
    exact .inr hcandidate
  apply (h row (List.mem_of_find?_eq_some hfind) hlive).congr
  have hat : new.name ++ "_at" ∉ "scan" :: scannedFields := by cases new <;> decide
  intro field hfield
  have hne : new.name ++ "_at" ≠ field := by
    rintro rfl
    exact hat hfield
  have hstatus : "status" ≠ field := by
    rintro rfl
    exact absurd hfield (by decide)
  rw [get_jsonbSet, if_neg hne, get_jsonbSet, if_neg hstatus]

theorem serve_scanned {env : SkillEnv} {db : DbEnv} {b : Surroundings} {c : Call} {s : Store}
    (h : AllScanned env db s) (hc : Scanned env c) : AllScanned env db (serve db b c s).2 := by
  have hwrites := serve_writes db b c s
  generalize (serve db b c s).2 = s' at hwrites
  cases hwrites with
  | keep hrows =>
    rw [AllScanned, hrows]
    exact h
  | upsert _ => exact h.upsert hc
  | status hupdated =>
    cases hc
    exact h.updateStatus hupdated

theorem upsertDocument_safe {env : SkillEnv} {req : DocWriteRequest}
    (henabled : req.settings.enabled = true) :
    Prog.Safe (Scanned env) (fun _ _ => True) none (upsertDocument env req) := by
  apply safe_ofExcept
  intro replayed _
  split
  · trivial
  have hlive : Prog.Safe (Scanned env) (fun _ _ => True) none (req.readLive env) := by
    rw [DocWriteRequest.readLive]
    split
    · refine ⟨trivial, fun a => ?_⟩
      cases a <;> trivial
    · trivial
  apply Prog.Safe.andThen hlive
  intro _ live
  apply safe_ofExcept
  intro data hdata
  apply safe_ofExcept
  intro _ _
  rw [DocWriteRequest.normalize, if_pos henabled] at hdata
  obtain ⟨⟨out, scan⟩, hvalid, hout⟩ := ok_of_bind hdata
  cases hout
  obtain ⟨hstamped, _, _⟩ := validate_ok hvalid
  refine safe_upsert ?_ ?_
  · intro hisLive
    refine ⟨req.scannedAt, scan, hstamped.scanned, ?_, hstamped.stamp⟩
    obtain hclean | hquarantined := hstamped.status
    · exact hclean
    · rw [show Dict.get (req.write data).data "status" = Status.quarantined.json from hquarantined]
        at hisLive
      exact absurd hisLive (by decide)
  · apply safe_get trivial
    intro _ found
    cases found <;> trivial

theorem Party.handler_scanned (env : SkillEnv) {party : Party}
    (h : ∀ req, party = .post req → req.settings.enabled = true) :
    Prog.Safe (Scanned env) (fun _ _ => True) none (party.handler env) := by
  by_cases hpost : ∃ req, party = .post req
  · obtain ⟨req, rfl⟩ := hpost
    exact Prog.Safe.andThen (upsertDocument_safe (h req rfl)) fun _ _ => trivial
  · have hsafe := Party.handler_safe env fun req hreq => hpost ⟨req, hreq⟩
    exact (hsafe.imp fun _ hsound => hsound.1).mono fun _ _ _ => trivial

theorem scanRules (ι : Type) (db : DbEnv) (env : SkillEnv) :
    Prog.Rules (ι := ι) (R := Outcome) (serve db) (AllScanned env db) (fun _ _ _ => True)
      (Scanned env) (fun _ _ _ => True) (fun _ _ _ => True) where
  keeps := fun h hscanned _ => serve_scanned h hscanned
  settles := fun _ _ _ _ => trivial
  stays := fun _ _ _ _ => trivial

section Runs

variable {ι : Type} {db : DbEnv} {env : SkillEnv} {parties : ι → Party}

def AllScannedPool (env : SkillEnv) (db : DbEnv) (pool : Pool ι Store (Handler Outcome)) : Prop :=
  pool.Holds (AllScanned env db)
    (fun _ => Prog.Runs (Scanned env) (fun _ _ => True) (fun _ _ => True)) fun _ _ => True

theorem allScanned_start (henabled : ∀ i req, parties i = .post req → req.settings.enabled = true) :
    AllScannedPool env db (start env parties .empty) := by
  apply Prog.holds_start
  · intro row hrow
    cases hrow
  · exact fun i => Party.handler_scanned env (henabled i)
  · exact fun _ _ _ => trivial

theorem allScanned_run [DecidableEq ι]
    (henabled : ∀ i req, parties i = .post req → req.settings.enabled = true)
    (events : List (ι × Surroundings)) :
    AllScanned env db (run (step db) (start env parties .empty) events).shared := by
  have hpermitted : Along (step db) (Prog.Permitted fun _ _ _ => True) (start env parties .empty)
      events := by
    apply Along.of_forall
    intro pool event
    rw [Prog.Permitted]
    cases pool.parties event.1 <;> trivial
  exact ((scanRules ι db env).run (allScanned_start henabled) hpermitted).shared

/-- Every active skill carries a clean scan, which is the scan of what is stored. -/
theorem active_scanned [DecidableEq ι]
    (henabled : ∀ i req, parties i = .post req → req.settings.enabled = true)
    (events : List (ι × Surroundings)) :
    ∀ row ∈ (run (step db) (start env parties .empty) events).shared.rows, row.has .active →
      (∃ stamp, Dict.get row.data "scan" = .obj stamp ∧
        Dict.get stamp "state" = .str ScanState.clean.name ∧ Dict.get stamp "critical" = .int 0) ∧
      StoredScan env.toTextEnv db.floats row.caps row.data := by
  intro row hrow hactive
  have hlive : isLive row.status = true := by
    rw [isLive, Bool.or_eq_true]
    exact .inl hactive
  have hstored := allScanned_run henabled events row hrow hlive
  exact ⟨hstored.clean, hstored⟩

end Runs

def RescanSame (env : TextEnv) (floats : JsonbFloats) (row : Row) : Prop :=
  ∃ scannedAt scan, scanSkillDoc env row.caps scannedAt row.data = some scan ∧
    Dict.get row.data "scan" = scan.asDocField.jsonb floats

def storedCodes : Json → List String
  | .obj stamp =>
    match Dict.get stamp "findings" with
    | .arr findings =>
      findings.filterMap fun f => f.asDict.bind fun fields => (Dict.get fields "code").asStr
    | _ => []
  | _ => []

theorem storedCodes_asDocField (floats : JsonbFloats) (scan : ScanResult) :
    storedCodes (scan.asDocField.jsonb floats) = scan.findings.map ScanFinding.code := by
  have hcode : ∀ f : ScanFinding, ((f.asDocField.jsonb floats).asDict.bind fun fields =>
      (Dict.get fields "code").asStr) = some f.code := by
    intro f
    rw [ScanFinding.asDocField, Json.jsonb_obj]
    simp only [Json.asDict, Option.bind_some, Json.get_jsonbFields, Json.asStr_jsonb]
    rfl
  have hfindings : Dict.get (Json.jsonbFields floats
      [("state", .str scan.state.name), ("scanned_at", .str scan.scannedAt),
        ("critical", .int scan.critical), ("warn", .int scan.warn), ("info", .int scan.info),
        ("findings", .arr (scan.findings.map ScanFinding.asDocField))]) "findings" =
      .arr ((scan.findings.map ScanFinding.asDocField).map (Json.jsonb floats)) := by
    rw [Json.get_jsonbFields]
    exact Json.jsonb_arr floats _
  rw [ScanResult.asDocField, Json.jsonb_obj, storedCodes, hfindings]
  simp only [List.map_map, List.filterMap_map]
  rw [← List.filterMap_eq_map]
  congr 1
  funext f
  exact hcode f

def evidenceRequest : DocWriteRequest where
  caller := { AuthContext.ofTenant "acme" with orgRole := some "admin" }
  settings := ⟨true, ⟨40000, 160⟩, 30⟩
  tenantId := "acme"
  fleetId := none
  docId := "deploy"
  data := [("name", .str "Deploy"), ("slug", .str "deploy"), ("description", .str "Deploys."),
    ("domain", .str "ops"), ("kind", .str "create"), ("source", .str "agent"),
    ("status", Status.active.json), ("content", .str "Ship it."),
    ("evidence", .obj [("zz", .str "a@b.co"), ("a", .str "123-45-6789")])]
  replay := .ok false
  quota := .ok ()
  getEmbedding := fun _ => .ok true
  now := "2026-01-01T00:00:00+00:00"
  scannedAt := "2026-01-01T00:00:00+00:00"

def adminPost : Unit → Party := fun _ => .post evidenceRequest

def postEvents : List (Unit × Surroundings) :=
  List.replicate 2 ((), ⟨.ok, "", 1, "2026-01-01T00:00:00+00:00"⟩)

theorem evidence_outcome :
    ∃ row ∈ (run (step .plain) (start .ascii adminPost .empty) postEvents).shared.rows,
      row.has .active = true ∧ storedCodes (Dict.get row.data "scan") = ["PII_EMAIL", "PII_SSN"] ∧
      (scanFindings .ascii row.caps row.data).map (List.map ScanFinding.code) =
        some ["PII_SSN", "PII_EMAIL"] := by
  decide +kernel

theorem adminPost_enabled : ∀ i req, adminPost i = .post req → req.settings.enabled = true := by
  rintro i req hreq
  cases hreq
  rfl

/-- The stored scan lists its two findings in the order of the request, the rescan in that of
the column. -/
theorem rescan_reordered :
    (∀ i req, adminPost i = .post req → req.settings.enabled = true) ∧
      ∃ row ∈ (run (step .plain) (start .ascii adminPost .empty) postEvents).shared.rows,
        row.has .active = true ∧ ¬RescanSame .ascii DbEnv.plain.floats row := by
  obtain ⟨row, hrow, hactive, hstored, hrescan⟩ := evidence_outcome
  refine ⟨adminPost_enabled, row, hrow, hactive, ?_⟩
  rintro ⟨scannedAt, scan, hscan, hstamp⟩
  rw [scanSkillDoc] at hscan
  obtain ⟨fs, hfs, rfl⟩ := Option.map_eq_some_iff.mp hscan
  rw [hstamp, storedCodes_asDocField] at hstored
  rw [hfs] at hrescan
  have hcodes : fs.map ScanFinding.code = ["PII_SSN", "PII_EMAIL"] := Option.some.inj hrescan
  have hsame : ["PII_SSN", "PII_EMAIL"] = ["PII_EMAIL", "PII_SSN"] := hcodes.symm.trans hstored
  exact absurd hsame (by decide)

theorem evidence_scanned :
    ∃ row ∈ (run (step .plain) (start .ascii adminPost .empty) postEvents).shared.rows,
      row.has .active = true ∧ StoredScan .ascii DbEnv.plain.floats row.caps row.data := by
  obtain ⟨row, hrow, hactive, _⟩ := evidence_outcome
  have hscanned := active_scanned adminPost_enabled postEvents row hrow hactive
  exact ⟨row, hrow, hactive, hscanned.2⟩

end Memclaw.Skills
