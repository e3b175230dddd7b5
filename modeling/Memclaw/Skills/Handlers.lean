import Memclaw.Skills.Lifecycle
import Memclaw.Skills.Store
import Memclaw.Skills.WorkerDefs

/-! What the handlers ask storage to write, found by following each of them call by call. -/

namespace Memclaw.Skills

open Memclaw.Lib Memclaw.Lib.Interleave Memclaw.Api

def moves : List (Status × Status) :=
  [(.candidate, .staged), (.candidate, .active), (.candidate, .rejected), (.candidate, .quarantined),
    (.staged, .staged), (.staged, .active), (.staged, .rejected), (.staged, .quarantined),
    (.quarantined, .rejected)]

inductive Move : Json → Json → Prop
  | move {a b : Status} (h : (a, b) ∈ moves) : Move a.json b.json
  | mint {b : Status} (h : b = .candidate ∨ b = .quarantined) : Move .null b.json

def Legal (old new : Json) : Prop := new = old ∨ Move old new

/-- The stored status is one that the check of a writer accepts. -/
def admits (accepts : List (Option Status)) (status : Json) : Bool :=
  accepts.any fun accepted => match accepted with
    | some a => status.isStr a.name
    | none => status.isNull

theorem eq_json_of_isStr {j : Json} {status : Status} (h : j.isStr status.name = true) :
    j = status.json := by
  cases j with
  | str s =>
    have hs : s = status.name := by simpa [Json.isStr] using h
    rw [hs]
    rfl
  | _ => exact absurd h Bool.false_ne_true

theorem eq_null_of_isNull {j : Json} (h : j.isNull = true) : j = .null := by
  cases j with
  | null => rfl
  | _ => exact absurd h Bool.false_ne_true

theorem admits_accepting {statuses : List Status} {j : Json}
    (h : admits (accepting statuses) j = true) : ∃ a ∈ statuses, j = a.json := by
  rw [admits, accepting, List.any_map] at h
  obtain ⟨a, ha, hstatus⟩ := List.any_eq_true.mp h
  exact ⟨a, ha, eq_json_of_isStr hstatus⟩

/-- The data carries the scan of its own scanned fields, and the scan is clean. -/
def CleanScan (env : TextEnv) (caps : Caps) (data : Dict) : Prop :=
  ∃ scannedAt scan, scanSkillDoc env caps scannedAt data = some scan ∧ scan.state = .clean ∧
    Dict.get data "scan" = scan.asDocField

/-- The statuses under which a document is, or can become, active without another scan. -/
def isLive (status : Json) : Bool :=
  status.isStr Status.active.name || status.isStr Status.candidate.name

def Scanned (env : SkillEnv) : Call → Prop
  | .upsertDocument w =>
    isLive (Dict.get w.data "status") → CleanScan env.toTextEnv w.caps w.data
  | .updateDocumentStatus _ _ expected => expected = .candidate
  | _ => True

/-- A document in a status that its writer accepts makes a legal move. -/
def Lawful : Call → Prop
  | .upsertDocument w => ∀ status, admits w.accepts status → Legal status (Dict.get w.data "status")
  | .updateDocumentStatus _ new expected => expected = .candidate ∧ (new = .staged ∨ new = .active)
  | _ => True

def Sound (env : SkillEnv) (c : Call) : Prop := Scanned env c ∧ Lawful c

/-- A sound call that replaces no document. -/
def Patches (env : SkillEnv) : Call → Prop
  | .upsertDocument _ => False
  | c => Sound env c

theorem sound_of_patches {env : SkillEnv} (c : Call) (h : Patches env c) : Sound env c := by
  cases c with
  | upsertDocument w => exact h.elim
  | _ => exact h

theorem sound_of_not_live {env : SkillEnv} {w : Upsert} {new : Status} {from_ : List Status}
    (hstatus : Dict.get w.data "status" = new.json) (hlive : isLive new.json = false)
    (haccepts : w.accepts = accepting from_) (hmoves : ∀ a ∈ from_, (a, new) ∈ moves) :
    Sound env (.upsertDocument w) := by
  constructor
  · intro hisLive
    rw [hstatus, hlive] at hisLive
    exact absurd hisLive Bool.false_ne_true
  · intro status hadmits
    rw [haccepts] at hadmits
    obtain ⟨a, ha, rfl⟩ := admits_accepting hadmits
    rw [hstatus]
    exact .inr (.move (hmoves a ha))

section Follow

variable {Ok : Call → Prop} {R : Type} {Post : Option ((c : Call) × c.Answer) → R → Prop}
  {last : Option ((c : Call) × c.Answer)} {env : SkillEnv} {req : InboxRequest}

theorem safe_ofExcept {α : Type} {x : Checked α} {f : α → Handler R}
    (h : ∀ a, x = .ok a → Prog.Safe Ok Post last (f a)) :
    Prog.Safe Ok Post last (Handler.ofExcept x >>= f) := by
  cases x with
  | error e => trivial
  | ok a => exact h a rfl

theorem safe_get {docId : String} {f : Option Row → Handler R} (hok : Ok (.getDocument docId))
    (h : ∀ last row, Prog.Safe Ok Post last (f row)) :
    Prog.Safe Ok Post last (Handler.get docId >>= f) := by
  refine ⟨hok, fun a => ?_⟩
  cases a with
  | error e => trivial
  | ok row => exact h _ row

theorem safe_upsert {w : Upsert} {f : Unit → Handler R} (hok : Ok (.upsertDocument w))
    (h : Prog.Safe Ok Post (some ⟨.upsertDocument w, Except.ok ()⟩) (f ())) :
    Prog.Safe Ok Post last (Handler.upsert w >>= f) := by
  refine ⟨hok, fun a => ?_⟩
  cases a with
  | error e => trivial
  | ok u => exact h

theorem safe_load {f : Row → Handler R} (hreads : ∀ docId, Ok (.getDocument docId))
    (h : ∀ last row, Prog.Safe Ok Post last (f row)) :
    Prog.Safe Ok Post last (loadDocOr404 env req >>= f) := by
  apply Prog.Safe.bind
  apply safe_get (hreads _)
  intro last found
  cases found with
  | none => trivial
  | some row => exact h last row

theorem safe_reload {expected : List Status} {f : Row → Handler R}
    (hreads : ∀ docId, Ok (.getDocument docId))
    (h : ∀ last row, row.status.inSet (names expected) = some true → Prog.Safe Ok Post last (f row)) :
    Prog.Safe Ok Post last (reloadAndAssertStatus env req expected >>= f) := by
  apply Prog.Safe.bind
  apply safe_load hreads
  intro last row
  cases hset : row.status.inSet (names expected) with
  | none => trivial
  | some found =>
    cases found with
    | false => trivial
    | true => exact h last row hset

end Follow

theorem sound_get {env : SkillEnv} (docId : String) : Sound env (.getDocument docId) :=
  ⟨trivial, trivial⟩

theorem patches_get {env : SkillEnv} (docId : String) : Patches env (.getDocument docId) :=
  sound_get docId

section Inbox

variable {env : SkillEnv} {Post : Option ((c : Call) × c.Answer) → ActionResponse → Prop}

theorem get_transitioned_status {row : Row} {new : Status} {now : String} {patches : Dict}
    {removeKeys : List String} (hpatches : ∀ field ∈ patches, field.1 ≠ "status")
    (hremove : "status" ∉ removeKeys) :
    Dict.get (transitioned row new now patches removeKeys) "status" = new.json := by
  have hat : new.name ++ "_at" ≠ "status" := by cases new <;> decide
  rw [transitioned, Dict.get_pops_of_notMem hremove, Dict.get_update_of_ne hpatches, Dict.get_set,
    if_neg (by decide), Dict.get_set, if_neg hat, Dict.get_set, if_pos rfl]

theorem scan_transitioned {row : Row} {now : String} (caps : Caps) (scannedAt : String) (scan : Json) :
    scanSkillDoc env.toTextEnv caps scannedAt
        (transitioned row .active now [("scan", scan)] ["deferred_at", "defer_reason"]) =
      scanSkillDoc env.toTextEnv caps scannedAt row.data := by
  simp only [transitioned, List.foldl_cons, List.foldl_nil, Dict.update]
  rw [scanSkillDoc_pop _ _ _ _ (by decide), scanSkillDoc_pop _ _ _ _ (by decide),
    scanSkillDoc_set _ _ _ _ _ (by decide), scanSkillDoc_set _ _ _ _ _ (by decide),
    scanSkillDoc_set _ _ _ _ _ (by decide), scanSkillDoc_set _ _ _ _ _ (by decide)]

theorem approve_safe (req : InboxRequest) :
    Prog.Safe (Sound env) (fun _ _ => True) none (approve env req) := by
  apply safe_ofExcept
  intro _ _
  apply safe_load sound_get
  intro _ first
  apply safe_ofExcept
  intro _ _
  apply safe_reload sound_get
  intro _ second _
  cases (Dict.get second.data "content_hash").asStr.filter (· ≠ "") with
  | none => trivial
  | some hash =>
    apply safe_reload sound_get
    intro _ third _
    split
    · trivial
    split
    · trivial
    rename_i scan hscan
    split
    · trivial
    rename_i hclean
    have hclean : scan.state = .clean := by
      by_contra hstate
      exact hclean (by simp [hstate])
    have hstatus : Dict.get (transitioned third .active req.now [("scan", scan.asDocField)]
        ["deferred_at", "defer_reason"]) "status" = Status.active.json :=
      get_transitioned_status (by simp) (by decide)
    refine safe_upsert ⟨fun _ => ?_, ?_⟩ trivial
    · -- the stamp is the scan of the very data that is written
      refine ⟨req.scannedAt, scan, ?_, hclean, ?_⟩
      · rw [scan_transitioned]
        exact hscan
      · rw [transitioned, Dict.get_pops_of_notMem (by decide)]
        exact (Dict.get_set _ _ _ _).trans (if_pos rfl)
    · intro status hadmits
      obtain ⟨a, ha, rfl⟩ := admits_accepting hadmits
      rw [List.mem_singleton.mp ha, hstatus]
      exact .inr (.move (by decide))

def StoresRejected (slug : String) : Option ((c : Call) × c.Answer) → Prop
  | some ⟨.upsertDocument w, .ok _⟩ =>
    w.docId = slug ∧ Dict.get w.data "status" = Status.rejected.json
  | _ => False

theorem writeRejected_safe (r : Rejection) {last : Option ((c : Call) × c.Answer)} :
    Prog.Safe (Patches env) (fun _ _ => True) last (writeRejectedFingerprint r) := by
  apply safe_ofExcept
  intro _ _
  refine ⟨⟨trivial, trivial⟩, fun a => ?_⟩
  cases a <;> trivial

theorem reject_safe (req : RejectRequest) :
    Prog.Safe (Sound env) (fun last _ => StoresRejected req.slug last) none (reject env req) := by
  apply safe_ofExcept
  intro _ _
  apply safe_load sound_get
  intro _ first
  apply safe_ofExcept
  intro _ _
  apply safe_ofExcept
  intro _ _
  apply safe_reload sound_get
  intro _ second _
  apply safe_ofExcept
  intro fingerprint _
  apply safe_reload sound_get
  intro _ third _
  apply Prog.Safe.andThen ((writeRejected_safe _).imp sound_of_patches)
  intro _ _
  have hstatus : Dict.get (transitioned third .rejected req.now
      [("rejection_reason", .str req.reason)] []) "status" = Status.rejected.json :=
    get_transitioned_status (by simp) (by decide)
  exact safe_upsert (sound_of_not_live hstatus rfl rfl (by decide)) ⟨rfl, hstatus⟩

theorem quarantine_safe (req : QuarantineRequest) :
    Prog.Safe (Sound env) (fun _ _ => True) none (quarantine env req) := by
  apply safe_ofExcept
  intro _ _
  apply safe_load sound_get
  intro _ first
  apply safe_ofExcept
  intro _ _
  apply safe_reload sound_get
  intro _ second _
  have hstatus : Dict.get (transitioned second .quarantined req.now
      [("quarantine_reason", .str req.reason)] []) "status" = Status.quarantined.json :=
    get_transitioned_status (by simp) (by decide)
  exact safe_upsert (sound_of_not_live hstatus rfl rfl (by decide)) trivial

theorem staged_of_inSet {row : Row} (h : row.status.inSet (names [.staged]) = some true) :
    row.status = Status.staged.json := by
  cases hstatus : row.status with
  | str s =>
    rw [hstatus] at h
    have hs : s = "staged" := by simpa [Json.inSet, names, Status.name] using h
    rw [hs]
    rfl
  | _ =>
    rw [hstatus] at h
    simp [Json.inSet] at h

theorem get_deferred_status (req : DeferRequest) (row : Row) :
    Dict.get (deferred req row) "status" = row.status := by
  rw [deferred, Dict.get_set, if_neg (by decide)]
  split
  · rw [Dict.get_set, if_neg (by decide), Dict.get_set, if_neg (by decide), Row.status]
  · rw [Dict.get_set, if_neg (by decide), Row.status]

theorem defer_safe (req : DeferRequest) :
    Prog.Safe (Sound env) (fun _ _ => True) none (defer env req) := by
  apply safe_ofExcept
  intro _ _
  apply safe_load sound_get
  intro _ first
  apply safe_ofExcept
  intro _ _
  apply safe_reload sound_get
  intro _ second hset
  have hstatus : Dict.get (deferred req second) "status" = Status.staged.json :=
    (get_deferred_status req second).trans (staged_of_inSet hset)
  exact safe_upsert (sound_of_not_live hstatus rfl rfl (by decide)) trivial

theorem get_restored_status (req : EditRequest) (snapshot normalized : Dict) :
    Dict.get (req.restored snapshot normalized) "status" = Status.staged.json ∨
      Dict.get (req.restored snapshot normalized) "status" = Status.quarantined.json := by
  rw [EditRequest.restored, Dict.get_pop, if_neg (by decide), Dict.get_pop, if_neg (by decide),
    Dict.get_set, if_neg (by decide)]
  split
  · right
    split
    · rw [Dict.get_set, if_neg (by decide), Dict.get_set, if_pos rfl]
    · rw [Dict.get_set, if_pos rfl]
  · left
    rw [Dict.get_set, if_pos rfl]

theorem liveForBinding_safe (data : Dict) {last : Option ((c : Call) × c.Answer)} :
    Prog.Safe (Patches env) (fun _ _ => True) last (liveForBinding env data) := by
  rw [liveForBinding]
  split
  · trivial
  split
  · trivial
  simp only []
  split
  · refine ⟨patches_get _, fun a => ?_⟩
    cases a <;> trivial
  · trivial

theorem edit_safe (req : EditRequest) :
    Prog.Safe (Sound env) (fun _ _ => True) none (edit env req) := by
  apply safe_ofExcept
  intro _ _
  split
  · trivial
  apply safe_reload sound_get
  intro _ first _
  apply Prog.Safe.andThen ((liveForBinding_safe _).imp sound_of_patches)
  intro _ live
  apply safe_ofExcept
  intro normalized _
  apply safe_reload sound_get
  intro _ second _
  obtain hstatus | hstatus := get_restored_status req
    (reservedSnapshot (req.revised first.data)) normalized.1
  · exact safe_upsert (sound_of_not_live hstatus rfl rfl (by decide)) trivial
  · exact safe_upsert (sound_of_not_live hstatus rfl rfl (by decide)) trivial

end Inbox

section Workers

variable {env : SkillEnv} {last : Option ((c : Call) × c.Answer)}

theorem poisonGate_safe (fleetId : Option String) (doc : Dict) :
    Prog.Safe (Patches env) (fun _ _ => True) last (poisonGate fleetId doc) := by
  rw [poisonGate]
  split
  · split
    · trivial
    · refine ⟨⟨trivial, trivial⟩, fun a => ?_⟩
      cases a with
      | error name => trivial
      | ok poisoned => cases poisoned <;> trivial
  · trivial

theorem hashBindingGate_safe (doc : Dict) :
    Prog.Safe (Patches env) (fun _ _ => True) last (hashBindingGate env doc) := by
  rw [hashBindingGate]
  split
  · trivial
  simp only []
  split
  · refine ⟨patches_get _, fun a => ?_⟩
    cases a with
    | error name => trivial
    | ok live =>
      simp only []
      split <;> trivial
  · trivial

theorem evaluateAutoGates_safe (cfg : GateConfig) (now : Int) (fleetId : Option String) (doc : Dict) :
    Prog.Safe (Patches env) (fun _ _ => True) last (evaluateAutoGates env cfg now fleetId doc) := by
  rw [evaluateAutoGates]
  split
  · trivial
  apply Prog.Safe.andThen (poisonGate_safe fleetId doc)
  intro _ poison
  split
  · trivial
  apply Prog.Safe.andThen (hashBindingGate_safe doc)
  intro _ binding
  trivial

theorem promoteOne_safe (cfg : TickConfig) (row : Row) :
    Prog.Safe (Patches env) (fun _ _ => True) last (promoteOne env cfg row) := by
  apply Prog.Safe.andThen (evaluateAutoGates_safe cfg.toGateConfig cfg.now row.fleetId row.data)
  intro _ gates
  split
  · refine ⟨⟨rfl, rfl, ?_⟩, fun a => ?_⟩
    · split
      · exact .inr rfl
      · exact .inl rfl
    · cases a with
      | error name => trivial
      | ok updated => cases updated <;> trivial
  · trivial

theorem promoteEach_safe (cfg : TickConfig) (rows : List Row) :
    Prog.Safe (Patches env) (fun _ _ => True) last (promoteEach env cfg rows) := by
  induction rows generalizing last with
  | nil => trivial
  | cons row rows ih =>
    apply Prog.Safe.andThen (promoteOne_safe cfg row)
    intro _ attempt
    apply Prog.Safe.andThen ih
    intro _ attempts
    trivial

theorem promotePendingCandidates_safe (cfg : TickConfig) :
    Prog.Safe (Patches env) (fun _ _ => True) last (promotePendingCandidates env cfg) := by
  refine ⟨⟨trivial, trivial⟩, fun a => ?_⟩
  cases a with
  | error name => trivial
  | ok rows =>
    apply Prog.Safe.andThen (promoteEach_safe cfg rows)
    intro _ attempts
    trivial

/-- A candidate is stored as such with a clean scan of itself, or in quarantine. -/
theorem stamped_sound {cfg : ForgeConfig} {d : Distilled} {scan : ScanResult}
    (hscan : scanSkillDoc env.toTextEnv cfg.caps d.scannedAt (d.data cfg) = some scan) :
    Sound env (.upsertDocument
      ⟨d.docId, cfg.fleetId, d.stamped cfg scan, cfg.caps, [none, some .candidate]⟩) := by
  have hadmitted : ∀ status, admits [none, some .candidate] status = true →
      status = .null ∨ status = Status.candidate.json := by
    intro status hadmits
    simp only [admits, List.any_cons, List.any_nil, Bool.or_false, Bool.or_eq_true] at hadmits
    exact hadmits.imp eq_null_of_isNull eq_json_of_isStr
  by_cases hstate : scan.state = .quarantined
  · have hstatus : Dict.get (d.stamped cfg scan) "status" = Status.quarantined.json := by
      rw [Distilled.stamped, if_pos hstate, Dict.get_set, if_neg (by decide), Dict.get_set, if_pos rfl]
    constructor
    · intro hlive
      simp only [hstatus] at hlive
      exact absurd hlive (by decide)
    · intro status hadmits
      simp only [hstatus]
      obtain rfl | rfl := hadmitted status hadmits
      · exact .inr (.mint (.inr rfl))
      · exact .inr (.move (by decide))
  · have hstatus : Dict.get (d.stamped cfg scan) "status" = Status.candidate.json := by
      rw [Distilled.stamped, if_neg hstate, Dict.get_set, if_neg (by decide)]
      rfl
    constructor
    · intro _
      refine ⟨d.scannedAt, scan, ?_, ?_, ?_⟩
      · simp only [Distilled.stamped, if_neg hstate]
        rw [scanSkillDoc_set _ _ _ _ _ (by decide)]
        exact hscan
      · cases h : scan.state with
        | clean => rfl
        | quarantined => exact absurd h hstate
      · simp only [Distilled.stamped, if_neg hstate]
        rw [Dict.get_set, if_pos rfl]
    · intro status hadmits
      simp only [hstatus]
      obtain rfl | rfl := hadmitted status hadmits
      · exact .inr (.mint (.inl rfl))
      · exact .inl rfl

theorem forgeCluster_safe (cfg : ForgeConfig) (m : Mined) :
    Prog.Safe (Sound env) (fun _ _ => True) last (forgeCluster env cfg m) := by
  cases m with
  | parseError => trivial
  | ioError => trivial
  | distilled d =>
    rw [forgeCluster]
    split
    · trivial
    refine ⟨⟨trivial, trivial⟩, fun a => ?_⟩
    cases a with
    | error name => trivial
    | ok poisoned =>
      cases poisoned with
      | true => trivial
      | false =>
        simp only []
        split
        · trivial
        rename_i scan hscan
        split
        · trivial
        refine ⟨sound_get _, fun a => ?_⟩
        cases a with
        | error name => trivial
        | ok found =>
          simp only []
          split
          · trivial
          refine ⟨stamped_sound hscan, fun a => ?_⟩
          cases a <;> trivial

theorem forgeEach_safe (cfg : ForgeConfig) (eligible : List Mined) :
    Prog.Safe (Sound env) (fun _ _ => True) last (forgeEach env cfg eligible) := by
  induction eligible generalizing last with
  | nil => trivial
  | cons m rest ih =>
    apply Prog.Safe.andThen (forgeCluster_safe cfg m)
    intro _ here
    apply Prog.Safe.andThen ih
    intro _ later
    trivial

end Workers

def Party.Post : Party → Option ((c : Call) × c.Answer) → Outcome → Prop
  | .reject req, last, _ => StoresRejected req.slug last
  | _, _, _ => True

theorem Party.handler_safe (env : SkillEnv) {party : Party} (h : ∀ req, party ≠ .post req) :
    Prog.Safe (Sound env) party.Post none (party.handler env) := by
  cases party with
  | post req => exact absurd rfl (h req)
  | approve req => exact Prog.Safe.andThen (approve_safe req) fun _ _ => trivial
  | reject req => exact Prog.Safe.bind (reject_safe req)
  | quarantine req => exact Prog.Safe.andThen (quarantine_safe req) fun _ _ => trivial
  | defer req => exact Prog.Safe.andThen (defer_safe req) fun _ _ => trivial
  | edit req => exact Prog.Safe.andThen (edit_safe req) fun _ _ => trivial
  | tick cfg =>
    exact Prog.Safe.andThen ((promotePendingCandidates_safe cfg).imp sound_of_patches)
      fun _ _ => trivial
  | forge cfg eligible => exact Prog.Safe.andThen (forgeEach_safe cfg _) fun _ _ => trivial

section Asserted

/-- What an answer shows of a document: its status, null when there is no document. -/
def statusRead : (c : Call) → c.Answer → List (String × Json)
  | .getDocument docId, .ok found => [(docId, (found.map Row.status).getD .null)]
  | _, _ => []

/-- A writer replaces the document that it read last, and accepts the status that it read. -/
def Asserted (env : SkillEnv) (known : List (String × Json)) : Call → Prop
  | .upsertDocument w => ∃ status,
      known.getLast? = some (env.pathId (.str w.docId), status) ∧ admits w.accepts status = true
  | _ => True

variable {env : SkillEnv} {R : Type} {Post : List (String × Json) → R → Prop}
  {known : List (String × Json)} {req : InboxRequest}

theorem asserted_of_patches (known : List (String × Json)) (c : Call) (h : Patches env c) :
    Asserted env known c := by
  cases c with
  | upsertDocument w => exact h.elim
  | _ => trivial

theorem admits_of_inSet {status : Json} {expected : List Status}
    (h : status.inSet (names expected) = some true) : admits (accepting expected) status = true := by
  cases status with
  | str s =>
    have hs : s ∈ names expected := by simpa [Json.inSet] using h
    obtain ⟨a, ha, rfl⟩ := List.mem_map.mp hs
    rw [admits, accepting, List.any_map, List.any_eq_true]
    exact ⟨a, ha, by simp [Json.isStr]⟩
  | _ => simp [Json.inSet] at h

theorem informed_ofExcept {α : Type} {x : Checked α} {f : α → Handler R}
    (h : ∀ a, x = .ok a → Prog.Informed statusRead (Asserted env) Post known (f a)) :
    Prog.Informed statusRead (Asserted env) Post known (Handler.ofExcept x >>= f) := by
  cases x with
  | error e => trivial
  | ok a => exact h a rfl

theorem informed_load {f : Row → Handler R}
    (h : ∀ known row, known.getLast? = some (env.pathId (.str req.slug), row.status) →
      Prog.Informed statusRead (Asserted env) Post known (f row)) :
    Prog.Informed statusRead (Asserted env) Post known (loadDocOr404 env req >>= f) := by
  apply Prog.Informed.bind
  refine ⟨trivial, fun a => ?_⟩
  cases a with
  | error e => trivial
  | ok found =>
    cases found with
    | none => trivial
    | some row => exact h _ row (by simp [statusRead])

/-- What a reload returns is what was read last, in an expected status. -/
theorem informed_reload {expected : List Status} {f : Row → Handler R}
    (h : ∀ known row, known.getLast? = some (env.pathId (.str req.slug), row.status) →
      admits (accepting expected) row.status = true →
      Prog.Informed statusRead (Asserted env) Post known (f row)) :
    Prog.Informed statusRead (Asserted env) Post known
      (reloadAndAssertStatus env req expected >>= f) := by
  apply Prog.Informed.bind
  apply informed_load
  intro known row hlast
  cases hset : row.status.inSet (names expected) with
  | none => trivial
  | some found =>
    cases found with
    | false => trivial
    | true => exact h known row hlast (admits_of_inSet hset)

theorem informed_upsert {w : Upsert} {f : Unit → Handler R} {status : Json}
    (hlast : known.getLast? = some (env.pathId (.str w.docId), status))
    (hadmits : admits w.accepts status = true)
    (h : ∀ known, Prog.Informed statusRead (Asserted env) Post known (f ())) :
    Prog.Informed statusRead (Asserted env) Post known (Handler.upsert w >>= f) := by
  refine ⟨⟨status, hlast, hadmits⟩, fun a => ?_⟩
  cases a with
  | error e => trivial
  | ok u => exact h _

theorem approve_asserts (req : InboxRequest) :
    Prog.Informed statusRead (Asserted env) (fun _ _ => True) [] (approve env req) := by
  apply informed_ofExcept
  intro _ _
  apply informed_load
  intro _ first _
  apply informed_ofExcept
  intro _ _
  apply informed_reload
  intro _ second _ _
  cases (Dict.get second.data "content_hash").asStr.filter (· ≠ "") with
  | none => trivial
  | some hash =>
    apply informed_reload
    intro _ third hlast hadmits
    split
    · trivial
    split
    · trivial
    split
    · trivial
    exact informed_upsert hlast hadmits fun _ => trivial

theorem reject_asserts (req : RejectRequest) :
    Prog.Informed statusRead (Asserted env) (fun _ _ => True) [] (reject env req) := by
  apply informed_ofExcept
  intro _ _
  apply informed_load
  intro _ first _
  apply informed_ofExcept
  intro _ _
  apply informed_ofExcept
  intro _ _
  apply informed_reload
  intro _ second _ _
  apply informed_ofExcept
  intro fingerprint _
  apply informed_reload
  intro known third hlast hadmits
  apply Prog.Informed.bind
  apply informed_ofExcept
  intro _ _
  -- the registry is written between the last read and the upsert
  refine ⟨trivial, fun a => ?_⟩
  cases a with
  | error e => trivial
  | ok u => exact informed_upsert ((List.append_nil known).symm ▸ hlast) hadmits fun _ => trivial

theorem quarantine_asserts (req : QuarantineRequest) :
    Prog.Informed statusRead (Asserted env) (fun _ _ => True) [] (quarantine env req) := by
  apply informed_ofExcept
  intro _ _
  apply informed_load
  intro _ first _
  apply informed_ofExcept
  intro _ _
  apply informed_reload
  intro _ second hlast hadmits
  exact informed_upsert hlast hadmits fun _ => trivial

theorem defer_asserts (req : DeferRequest) :
    Prog.Informed statusRead (Asserted env) (fun _ _ => True) [] (defer env req) := by
  apply informed_ofExcept
  intro _ _
  apply informed_load
  intro _ first _
  apply informed_ofExcept
  intro _ _
  apply informed_reload
  intro _ second hlast hadmits
  exact informed_upsert hlast hadmits fun _ => trivial

theorem edit_asserts (req : EditRequest) :
    Prog.Informed statusRead (Asserted env) (fun _ _ => True) [] (edit env req) := by
  apply informed_ofExcept
  intro _ _
  split
  · trivial
  apply informed_reload
  intro _ first _ _
  apply Prog.Informed.andThen (.of_safe none (liveForBinding_safe _) asserted_of_patches)
  intro _ live
  apply informed_ofExcept
  intro normalized _
  apply informed_reload
  intro _ second hlast hadmits
  exact informed_upsert hlast hadmits fun _ => trivial

theorem writeCandidate_asserts (cfg : ForgeConfig) (d : Distilled) (data : Dict) :
    Prog.Informed statusRead (Asserted env) (fun _ _ => True) known
      (writeCandidate env cfg d data) := by
  refine ⟨trivial, fun a => ?_⟩
  cases a with
  | error name => trivial
  | ok found =>
    simp only []
    split
    · trivial
    rename_i hexisting
    refine ⟨⟨(found.map Row.status).getD .null, by simp [statusRead], ?_⟩, fun a => ?_⟩
    · simpa [admits, or_iff_not_imp_left] using hexisting
    · cases a <;> trivial

theorem forgeCluster_asserts (cfg : ForgeConfig) (m : Mined) :
    Prog.Informed statusRead (Asserted env) (fun _ _ => True) known (forgeCluster env cfg m) := by
  cases m with
  | parseError => trivial
  | ioError => trivial
  | distilled d =>
    rw [forgeCluster]
    split
    · trivial
    refine ⟨trivial, fun a => ?_⟩
    cases a with
    | error name => trivial
    | ok poisoned =>
      cases poisoned with
      | true => trivial
      | false =>
        simp only []
        split
        · trivial
        split
        · trivial
        exact writeCandidate_asserts cfg d _

theorem forgeEach_asserts (cfg : ForgeConfig) (eligible : List Mined) :
    Prog.Informed statusRead (Asserted env) (fun _ _ => True) known (forgeEach env cfg eligible) := by
  induction eligible generalizing known with
  | nil => trivial
  | cons m rest ih =>
    apply Prog.Informed.andThen (forgeCluster_asserts cfg m)
    intro _ here
    apply Prog.Informed.andThen ih
    intro _ later
    trivial

/-- Every writer but the public route checks, in the document that it read last, the status that
its upsert replaces. -/
theorem Party.handler_asserts (env : SkillEnv) {party : Party} (h : ∀ req, party ≠ .post req) :
    Prog.Informed statusRead (Asserted env) (fun _ _ => True) [] (party.handler env) := by
  cases party with
  | post req => exact absurd rfl (h req)
  | approve req => exact Prog.Informed.andThen (approve_asserts req) fun _ _ => trivial
  | reject req => exact Prog.Informed.andThen (reject_asserts req) fun _ _ => trivial
  | quarantine req => exact Prog.Informed.andThen (quarantine_asserts req) fun _ _ => trivial
  | defer req => exact Prog.Informed.andThen (defer_asserts req) fun _ _ => trivial
  | edit req => exact Prog.Informed.andThen (edit_asserts req) fun _ _ => trivial
  | tick cfg =>
    exact Prog.Informed.andThen (.of_safe none (promotePendingCandidates_safe cfg) asserted_of_patches)
      fun _ _ => trivial
  | forge cfg eligible => exact Prog.Informed.andThen (forgeEach_asserts cfg _) fun _ _ => trivial

end Asserted

end Memclaw.Skills
