import Memclaw.Skills.Lifecycle
import Memclaw.Skills.RouteDefs
import Memclaw.Skills.Store

/-! Writes of regular agents against active skills. The validator keeps them from writing
`active`, but the row they replace is whatever stands under their `doc_id`. -/

namespace Memclaw.Skills

open Memclaw.Lib Memclaw.Lib.Interleave Memclaw.Api

structure Write where
  req : DocWriteRequest
  meets : ℕ → Surroundings

def post (db : DbEnv) (env : SkillEnv) (s : Store) (w : Write) : Store :=
  (Prog.alone (serve db) w.meets (upsertDocument env w.req) s).2

/-- The live document that the validator is given, nothing where its read fails. -/
def Write.live (env : SkillEnv) (s : Store) (w : Write) : Option (Option Row) :=
  if w.req.readsLive then
    if (w.meets 0).reply = .ok then some (s.find (env.pathId (.str w.req.docId))) else none
  else some none

def Write.atUpsert (w : Write) : Surroundings := w.meets (if w.req.readsLive then 1 else 0)

def DocWriteRequest.passes (env : SkillEnv) (req : DocWriteRequest) (live : Option Row)
    (reply : Reply) : Option Dict :=
  match req.normalize env live with
  | .ok data => if (req.index env data).isOk && reply != .refused then some data else none
  | .error _ => none

def Write.accepted (env : SkillEnv) (s : Store) (w : Write) : Option Dict :=
  match w.req.gates env, w.live env s with
  | .ok false, some live => w.req.passes env live w.atUpsert.reply
  | _, _ => none

section Alone

variable {db : DbEnv} {bs : ℕ → Surroundings} {R : Type} {s : Store}

theorem alone_ofExcept {α : Type} {x : Checked α} {f : α → Handler R} :
    (Prog.alone (serve db) bs (Handler.ofExcept x >>= f) s).2 =
      match x with
      | .ok a => (Prog.alone (serve db) bs (f a) s).2
      | .error _ => s := by
  cases x <;> rfl

theorem alone_get {docId : String} {f : Option Row → Handler R} :
    (Prog.alone (serve db) bs (Handler.get docId >>= f) s).2 =
      if (bs 0).reply = .ok then (Prog.alone (serve db) (fun n => bs (n + 1)) (f (s.find docId)) s).2
      else s := by
  simp only [Handler.get, Prog.call_bind, Prog.alone, serve, Surroundings.read]
  cases (bs 0).reply <;> rfl

theorem alone_upsert {w : Upsert} {f : Unit → Handler R} :
    (Prog.alone (serve db) bs (Handler.upsert w >>= f) s).2 =
      match (bs 0).reply with
      | .ok => (Prog.alone (serve db) (fun n => bs (n + 1)) (f ()) (s.upsert db (bs 0).now w)).2
      | .refused => s
      | .lost => s.upsert db (bs 0).now w := by
  simp only [Handler.upsert, Prog.call_bind, Prog.alone, serve, Surroundings.write]
  cases (bs 0).reply <;> rfl

theorem alone_answer {docId : String} :
    (Prog.alone (serve db) bs (Handler.get docId >>= DocOut.of) s).2 = s := by
  rw [alone_get]
  split
  · cases s.find docId <;> rfl
  · rfl

theorem alone_store {env : SkillEnv} {req : DocWriteRequest} {live : Option Row} :
    (Prog.alone (serve db) bs (req.store env live) s).2 =
      match req.passes env live (bs 0).reply with
      | some data => s.upsert db (bs 0).now (req.write data)
      | none => s := by
  rw [DocWriteRequest.store, alone_ofExcept, DocWriteRequest.passes]
  cases req.normalize env live with
  | error e => rfl
  | ok data =>
    simp only []
    rw [alone_ofExcept]
    cases req.index env data with
    | error e => rfl
    | ok u =>
      simp only [alone_upsert]
      cases (bs 0).reply with
      | ok => exact alone_answer
      | refused => rfl
      | lost => rfl

end Alone

theorem post_eq (db : DbEnv) (env : SkillEnv) (s : Store) (w : Write) :
    post db env s w =
      match w.accepted env s with
      | some data => s.upsert db w.atUpsert.now (w.req.write data)
      | none => s := by
  rw [post, upsertDocument, alone_ofExcept, Write.accepted]
  cases w.req.gates env with
  | error e => rfl
  | ok replayed =>
    cases replayed with
    | true => rfl
    | false =>
      simp only [Bool.false_eq_true, if_false, DocWriteRequest.readLive, Write.live, Write.atUpsert]
      by_cases hlive : w.req.readsLive
      · simp only [if_pos hlive, alone_get]
        by_cases hreply : (w.meets 0).reply = .ok
        · simp only [if_pos hreply, alone_store]
        · simp only [if_neg hreply]
      · simp only [if_neg hlive, Prog.done_bind, alone_store]

def Store.activeRows (s : Store) : List Row := s.rows.filter (·.has .active)

theorem not_active_of_accepted {env : SkillEnv} {s : Store} {w : Write} {data : Dict}
    (henabled : w.req.settings.enabled = true) (hagent : w.req.caller.isSkillAdmin = false)
    (h : w.accepted env s = some data) :
    (Dict.get data "status").isStr Status.active.name = false := by
  rw [Write.accepted] at h
  split at h
  case h_2 => cases h
  rename_i live _ _
  rw [DocWriteRequest.passes] at h
  split at h
  case h_2 => cases h
  rename_i normalized hnormalized
  split at h
  case isFalse => cases h
  cases h
  rw [DocWriteRequest.normalize, if_pos henabled] at hnormalized
  obtain ⟨⟨out, scan⟩, hvalid, hout⟩ := ok_of_bind hnormalized
  cases hout
  obtain ⟨_, _, hadmin⟩ := validate_ok hvalid
  by_contra hactive
  have hadmin := hadmin (by simpa using hactive)
  exact absurd (hagent.symm.trans hadmin) Bool.false_ne_true

theorem activeRows_post {db : DbEnv} {env : SkillEnv} {s : Store} {w : Write}
    (henabled : w.req.settings.enabled = true) (hagent : w.req.caller.isSkillAdmin = false) :
    (post db env s w).activeRows =
      if (w.accepted env s).isSome then s.activeRows.filter (·.docId ≠ w.req.docId)
      else s.activeRows := by
  rw [post_eq]
  cases h : w.accepted env s with
  | none => rfl
  | some data =>
    simp only [Option.isSome_some, if_true]
    apply filter_put
    rw [Row.has, Row.status, Json.get_jsonbFields, Json.isStr_jsonb]
    exact not_active_of_accepted henabled hagent h

theorem installable_eq (db : DbEnv) (fleetId : Option String) (limit : ℕ) (s : Store) :
    installableSkills db true fleetId limit s =
      (db.order .updatedAt (s.activeRows.filter (fleetMatches fleetId))).take limit := by
  rw [installableSkills, Store.query, Store.activeRows, List.filter_filter]
  congr 2
  apply List.filter_congr
  intro row _
  simp [Row.has, Row.status, Status.name]

/-- Every active skill is still there, active and unchanged, and nodes are served the same. -/
def Undisturbed (db : DbEnv) (s s' : Store) : Prop :=
  (∀ row ∈ s.rows, row.has .active → row ∈ s'.rows) ∧
    ∀ fleetId limit, installableSkills db true fleetId limit s' =
      installableSkills db true fleetId limit s

/-- The route accepts the write, and its `doc_id` is that of an active skill. -/
def Displaces (env : SkillEnv) (s : Store) (w : Write) : Prop :=
  (w.accepted env s).isSome ∧ ∃ row ∈ s.activeRows, row.docId = w.req.docId

section Sequences

variable {db : DbEnv} {env : SkillEnv} {s : Store} {writes : List Write}

theorem activeRows_of_not_displaces {w : Write} (henabled : w.req.settings.enabled = true)
    (hagent : w.req.caller.isSkillAdmin = false) (h : ¬Displaces env s w) :
    (post db env s w).activeRows = s.activeRows := by
  rw [activeRows_post henabled hagent]
  split
  · rename_i haccepted
    apply List.filter_eq_self.mpr
    intro row hrow
    have hne : row.docId ≠ w.req.docId := fun hid => h ⟨haccepted, row, hrow, hid⟩
    simpa using hne
  · rfl

theorem activeRows_run_sublist (henabled : ∀ w ∈ writes, w.req.settings.enabled = true)
    (hagent : ∀ w ∈ writes, w.req.caller.isSkillAdmin = false) :
    (run (post db env) s writes).activeRows.Sublist s.activeRows := by
  induction writes generalizing s with
  | nil => exact List.Sublist.refl _
  | cons w writes ih =>
    rw [run_cons]
    have hlater := ih (s := post db env s w) (fun v hv => henabled v (List.mem_cons_of_mem _ hv))
      fun v hv => hagent v (List.mem_cons_of_mem _ hv)
    apply hlater.trans
    rw [activeRows_post (henabled w List.mem_cons_self) (hagent w List.mem_cons_self)]
    split
    · exact List.filter_sublist
    · exact List.Sublist.refl _

theorem mem_activeRows {row : Row} : row ∈ s.activeRows ↔ row ∈ s.rows ∧ row.has .active :=
  List.mem_filter

theorem along_of_kept (henabled : ∀ w ∈ writes, w.req.settings.enabled = true)
    (hagent : ∀ w ∈ writes, w.req.caller.isSkillAdmin = false)
    (h : ∀ row ∈ s.activeRows, row ∈ (run (post db env) s writes).activeRows) :
    Along (post db env) (fun s w => ¬Displaces env s w) s writes := by
  induction writes generalizing s with
  | nil => trivial
  | cons w writes ih =>
    have hw := henabled w List.mem_cons_self
    have hwa := hagent w List.mem_cons_self
    have hrest := fun v hv => henabled v (List.mem_cons_of_mem w hv)
    have hresta := fun v hv => hagent v (List.mem_cons_of_mem w hv)
    have hsublist : (run (post db env) (post db env s w) writes).activeRows.Sublist
        (post db env s w).activeRows := activeRows_run_sublist hrest hresta
    have hnot : ¬Displaces env s w := by
      rintro ⟨haccepted, row, hrow, hid⟩
      -- once replaced, the row is not among the active ones of any later store
      have hstill := hsublist.subset (h row hrow)
      rw [activeRows_post hw hwa, if_pos haccepted] at hstill
      have hne := (List.mem_filter.mp hstill).2
      exact absurd hid (by simpa using hne)
    refine ⟨hnot, ih hrest hresta fun row hrow => h row ?_⟩
    rwa [activeRows_of_not_displaces hw hwa hnot] at hrow

theorem activeRows_run_of_along (henabled : ∀ w ∈ writes, w.req.settings.enabled = true)
    (hagent : ∀ w ∈ writes, w.req.caller.isSkillAdmin = false)
    (h : Along (post db env) (fun s w => ¬Displaces env s w) s writes) :
    (run (post db env) s writes).activeRows = s.activeRows := by
  induction writes generalizing s with
  | nil => rfl
  | cons w writes ih =>
    have hlater := ih (s := post db env s w) (fun v hv => henabled v (List.mem_cons_of_mem _ hv))
      (fun v hv => hagent v (List.mem_cons_of_mem _ hv)) h.2
    rw [run_cons, hlater]
    exact activeRows_of_not_displaces (henabled w List.mem_cons_self) (hagent w List.mem_cons_self) h.1

/-- Writes of regular agents leave the active skills alone exactly when none that the route
accepts is addressed to one. -/
theorem undisturbed_iff (henabled : ∀ w ∈ writes, w.req.settings.enabled = true)
    (hagent : ∀ w ∈ writes, w.req.caller.isSkillAdmin = false) :
    Undisturbed db s (run (post db env) s writes) ↔
      Along (post db env) (fun s w => ¬Displaces env s w) s writes := by
  constructor
  · rintro ⟨hkept, _⟩
    apply along_of_kept henabled hagent
    intro row hrow
    obtain ⟨hmem, hactive⟩ := mem_activeRows.mp hrow
    exact mem_activeRows.mpr ⟨hkept row hmem hactive, hactive⟩
  · intro halong
    have hsame := activeRows_run_of_along henabled hagent halong
    constructor
    · intro row hrow hactive
      have hmem : row ∈ s.activeRows := mem_activeRows.mpr ⟨hrow, hactive⟩
      rw [← hsame] at hmem
      exact (mem_activeRows.mp hmem).1
    · intro fleetId limit
      rw [installable_eq, installable_eq, hsame]

end Sequences

def acmeAgent : Caller where
  toAuthContext := AuthContext.ofTenant "acme"
  orgRole := none

def acmeSettings : SkillsSettings := ⟨true, ⟨40000, 160⟩, 30⟩

def sampleSkill (slug content : String) : Dict :=
  [("name", .str "Deploy"), ("slug", .str slug), ("description", .str "Deploys."),
    ("domain", .str "ops"), ("kind", .str "create"), ("source", .str "agent"), ("content", .str content)]

def liveStore : Store where
  rows := [⟨"deploy", none,
    Dict.update (sampleSkill "deploy" "Ship it.") [("status", Status.active.json)], 0, ⟨40000, 160⟩⟩]
  poison := []

def calm : Surroundings := ⟨.ok, "", 1, "2026-01-01T00:00:00+00:00"⟩

def agentWrite (docId : String) : Write where
  req :=
    { caller := acmeAgent
      settings := acmeSettings
      tenantId := "acme"
      fleetId := none
      docId := docId
      data := sampleSkill docId "Skip it."
      replay := .ok false
      quota := .ok ()
      getEmbedding := fun _ => .ok true
      now := "2026-01-01T00:00:00+00:00"
      scannedAt := "2026-01-01T00:00:00+00:00" }
  meets := fun _ => calm

theorem agentWrite_accepted : ((agentWrite "deploy").accepted .ascii liveStore).isSome := by
  decide +kernel

/-- Under the `doc_id` of the active skill, the new one replaces it. -/
theorem agentWrite_disturbs :
    (agentWrite "deploy").req.settings.enabled = true ∧
      (agentWrite "deploy").req.caller.isSkillAdmin = false ∧
      ¬Undisturbed .plain liveStore (run (post .plain .ascii) liveStore [agentWrite "deploy"]) := by
  have hagent : (agentWrite "deploy").req.caller.isSkillAdmin = false := by decide
  have hactive : ∀ row ∈ liveStore.rows, row.has .active = true := by decide
  have hids : ∀ row ∈ liveStore.rows, row.docId = (agentWrite "deploy").req.docId := by decide
  refine ⟨rfl, hagent, ?_⟩
  rintro ⟨hkept, _⟩
  rw [run_cons, run_nil] at hkept
  obtain ⟨row, hrow⟩ : ∃ row, row ∈ liveStore.rows := ⟨_, List.mem_cons_self⟩
  have hstill := mem_activeRows.mpr ⟨hkept row hrow (hactive row hrow), hactive row hrow⟩
  rw [activeRows_post rfl hagent, if_pos agentWrite_accepted] at hstill
  have hne := (List.mem_filter.mp hstill).2
  exact absurd (hids row hrow) (by simpa using hne)

theorem undisturbed_of_other_write :
    Undisturbed .plain liveStore (run (post .plain .ascii) liveStore [agentWrite "review"]) := by
  have henabled : ∀ w ∈ [agentWrite "review"], w.req.settings.enabled = true := by
    intro w hw
    rw [List.mem_singleton.mp hw]
    rfl
  have hagent : ∀ w ∈ [agentWrite "review"], w.req.caller.isSkillAdmin = false := by
    intro w hw
    rw [List.mem_singleton.mp hw]
    decide
  refine (undisturbed_iff henabled hagent).mpr ⟨?_, trivial⟩
  rintro ⟨_, row, hrow, hid⟩
  have hother : ∀ row ∈ liveStore.rows, row.docId ≠ (agentWrite "review").req.docId := by decide
  exact hother row (mem_activeRows.mp hrow).1 hid

end Memclaw.Skills
