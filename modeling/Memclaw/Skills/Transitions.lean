import Memclaw.Skills.Handlers

/-! The lifecycle of skills under concurrency. Inbox actions and Forge check the status of a
document and then replace the whole document; the lifecycle is kept as long as nobody moves
the document in between. -/

namespace Memclaw.Skills

open Memclaw.Lib Memclaw.Lib.Interleave Memclaw.Api

/-- An upsert that takes effect finds the document in a status that its writer accepts. -/
def Unmoved (b : Surroundings) (c : Call) (s : Store) : Prop :=
  match c with
  | .upsertDocument w => b.reply = .refused ∨ admits w.accepts (s.status w.docId) = true
  | _ => True

instance : ∀ b c s, Decidable (Unmoved b c s)
  | b, .upsertDocument w, s =>
    inferInstanceAs (Decidable (b.reply = .refused ∨ admits w.accepts (s.status w.docId) = true))
  | _, .getDocument _, _ => .isTrue trivial
  | _, .queryDocuments _, _ => .isTrue trivial
  | _, .updateDocumentStatus _ _ _, _ => .isTrue trivial
  | _, .writeRejectedFingerprint _, _ => .isTrue trivial
  | _, .isFingerprintPoisoned _ _, _ => .isTrue trivial

theorem jsonb_of_admits {accepts : List (Option Status)} {status : Json} (floats : JsonbFloats)
    (h : admits accepts status = true) : status.jsonb floats = status := by
  obtain ⟨accepted, _, haccepted⟩ := List.any_eq_true.mp h
  cases accepted with
  | none =>
    rw [eq_null_of_isNull haccepted]
    exact Json.jsonb_null floats
  | some a =>
    rw [eq_json_of_isStr haccepted]
    exact Json.jsonb_str floats a.name

theorem Legal.jsonb {old new : Json} (floats : JsonbFloats) (h : Legal old new)
    (hold : old.jsonb floats = old) : new.jsonb floats = new := by
  obtain rfl | hmove := h
  · exact hold
  · cases hmove with
    | move h => exact Json.jsonb_str floats _
    | mint h => exact Json.jsonb_str floats _

theorem updateStatus_status {s s' : Store} {nowIso docId : String} {new expected : Status}
    (h : s.updateStatus nowIso docId new expected = some s') (other : String) :
    s'.status other = s.status other ∨
      (other = docId ∧ s.status other = expected.json ∧ s'.status other = new.json) := by
  obtain ⟨row, hfind, hexpected, rfl⟩ := updateStatus_eq_some h
  rw [status_put]
  by_cases hother : row.docId = other
  · have hdoc : docId = other := (docId_of_find hfind).symm.trans hother
    have hat : new.name ++ "_at" ≠ "status" := by cases new <;> decide
    rw [if_pos hother, Row.status, get_jsonbSet, if_neg hat, get_jsonbSet, if_pos rfl]
    rw [← hdoc, status_of_find hfind]
    exact .inr ⟨rfl, eq_json_of_isStr hexpected, rfl⟩
  · rw [if_neg hother]
    exact .inl rfl

theorem upsert_legal {db : DbEnv} {s : Store} {w : Upsert} (now : Int)
    (hlawful : Lawful (.upsertDocument w)) (hadmits : admits w.accepts (s.status w.docId) = true)
    (docId : String) : Legal (s.status docId) ((s.upsert db now w).status docId) := by
  rw [Store.upsert, status_put]
  by_cases hdoc : w.docId = docId
  · subst hdoc
    have hlegal := hlawful _ hadmits
    rw [if_pos rfl, Row.status, Json.get_jsonbFields,
      hlegal.jsonb db.floats (jsonb_of_admits db.floats hadmits)]
    exact hlegal
  · rw [if_neg hdoc]
    exact .inl rfl

/-- Every lawful call on a document that has not moved is a legal move of every document. -/
theorem serve_legal {db : DbEnv} {b : Surroundings} {c : Call} {s : Store} (hlawful : Lawful c)
    (hunmoved : Unmoved b c s) (docId : String) :
    Legal (s.status docId) ((serve db b c s).2.status docId) := by
  have hwrites := serve_writes db b c s
  generalize (serve db b c s).2 = s' at hwrites
  cases hwrites with
  | keep hrows => exact .inl (status_of_rows hrows docId)
  | upsert hreply => exact upsert_legal b.now hlawful (hunmoved.resolve_left hreply) docId
  | status hupdated =>
    obtain ⟨rfl, hnew⟩ := hlawful
    obtain hsame | ⟨_, hold, hstatus⟩ := updateStatus_status hupdated docId
    · exact .inl hsame
    · rw [hold, hstatus]
      obtain rfl | rfl := hnew
      · exact .inr (.move (by decide))
      · exact .inr (.move (by decide))

theorem Status.json_injective {a b : Status} (h : a.json = b.json) : a = b := by
  have hname : a.name = b.name := Json.str.inj h
  revert hname
  cases a <;> cases b <;> decide

theorem Legal.final {a : Status} {new : Json} (ha : a = .active ∨ a = .rejected)
    (h : Legal a.json new) : new = a.json := by
  have hnone : ∀ b, (a, b) ∉ moves := by
    intro b
    obtain rfl | rfl := ha
    · cases b <;> decide
    · cases b <;> decide
  obtain hsame | hmove := h
  · exact hsame
  · generalize hold : a.json = old at hmove
    cases hmove with
    | move h =>
      rw [← Status.json_injective hold] at h
      exact absurd h (hnone _)
    | mint h => cases hold

/-- A step of a pool is lawful for every document, and no active or rejected document
leaves its status. -/
structure LegalStep (s s' : Store) : Prop where
  legal : ∀ docId, Legal (s.status docId) (s'.status docId)
  final : ∀ docId (a : Status), a = .active ∨ a = .rejected →
    s.status docId = a.json → s'.status docId = a.json

/-- The document of a reject that returned success is rejected. -/
def Party.Kept : Party → Outcome → Store → Prop
  | .reject req, _, s => s.status req.slug = Status.rejected.json
  | _, _, _ => True

theorem storesRejected_status {db : DbEnv} {b : Surroundings} {c : Call} {s : Store} {slug : String}
    (h : StoresRejected slug (some ⟨c, (serve db b c s).1⟩)) :
    (serve db b c s).2.status slug = Status.rejected.json := by
  cases c with
  | upsertDocument w =>
    rw [serve, Surroundings.write] at h ⊢
    cases hreply : b.reply with
    | ok =>
      simp only [hreply] at h
      obtain ⟨rfl, hstatus⟩ := h
      rw [Store.upsert, status_put, if_pos rfl, Row.status, Json.get_jsonbFields, hstatus]
      exact Json.jsonb_str _ _
    | refused =>
      simp only [hreply] at h
      exact h.elim
    | lost =>
      simp only [hreply] at h
      exact h.elim
  | _ => exact h.elim

theorem rules {ι : Type} (db : DbEnv) (env : SkillEnv) (parties : ι → Party) :
    Prog.Rules (serve db) (fun _ => True) Unmoved (Sound env) (fun i => (parties i).Post)
      (fun i => (parties i).Kept) where
  keeps := fun _ _ _ => trivial
  settles := by
    intro i b c s r _ _ _ hpost
    cases hparty : parties i with
    | reject req =>
      rw [hparty] at hpost
      exact storesRejected_status hpost
    | _ => trivial
  stays := by
    intro i b c s r _ hsound hunmoved hkept
    cases hparty : parties i with
    | reject req =>
      rw [hparty] at hkept
      have hlegal : Legal (s.status req.slug) ((serve db b c s).2.status req.slug) :=
        serve_legal hsound.2 hunmoved req.slug
      rw [show s.status req.slug = Status.rejected.json from hkept] at hlegal
      exact hlegal.final (.inr rfl)
    | _ => trivial

section Runs

variable {ι : Type} {db : DbEnv} {env : SkillEnv} {parties : ι → Party} {s : Store}

def Orderly (env : SkillEnv) (parties : ι → Party) (pool : Pool ι Store (Handler Outcome)) : Prop :=
  pool.Holds (fun _ => True) (fun i => Prog.Runs (Sound env) (parties i).Post (parties i).Kept)
    fun _ _ => True

theorem orderly_start (hposts : ∀ i req, parties i ≠ .post req) :
    Orderly env parties (start env parties s) := by
  apply Prog.holds_start trivial
  · exact fun i => Party.handler_safe env (hposts i)
  · intro i r hnone
    cases hparty : parties i with
    | reject req =>
      rw [hparty] at hnone
      exact hnone.elim
    | _ => trivial

/-- An upsert that finds its document in the status that its writer read last finds it in one that
its writer accepts. -/
theorem unmoved_of_read [DecidableEq ι] {events : List (ι × Surroundings)} {i : ι} {w : Upsert}
    {next : (Call.upsertDocument w).Answer → Handler Outcome} (b : Surroundings)
    (hposts : ∀ i req, parties i ≠ .post req)
    (hcall : (run (step db) (start env parties s) events).parties i =
      .call (.upsertDocument w) next)
    (hread : ∀ status,
      (Prog.learned statusRead (serve db) i (start env parties s) events).getLast? =
          some (env.pathId (.str w.docId), status) →
        (run (step db) (start env parties s) events).shared.status w.docId = status) :
    Unmoved b (.upsertDocument w) (run (step db) (start env parties s) events).shared := by
  have hstart : Prog.Informed statusRead (Asserted env) (fun _ _ => True) []
      ((start env parties s).parties i) := Party.handler_asserts env (hposts i)
  have hrun : Prog.Informed statusRead (Asserted env) (fun _ _ => True)
      ([] ++ Prog.learned statusRead (serve db) i (start env parties s) events)
      ((run (step db) (start env parties s) events).parties i) := hstart.run events
  rw [hcall] at hrun
  obtain ⟨status, hlast, hadmits⟩ := hrun.1
  refine .inr ?_
  rw [hread status hlast]
  exact hadmits

theorem legalStep_of_permitted [DecidableEq ι] {pool : Pool ι Store (Handler Outcome)} {event : ι × Surroundings}
    (h : Orderly env parties pool) (hunmoved : Prog.Permitted Unmoved pool event) :
    LegalStep pool.shared (step db pool event).shared := by
  have hlegal : ∀ docId, Legal (pool.shared.status docId) ((step db pool event).shared.status docId) := by
    intro docId
    obtain ⟨⟨last, hsafe⟩, _⟩ := h.own event.1
    rw [step, Pool.step]
    rw [Prog.Permitted] at hunmoved
    cases hp : pool.parties event.1 with
    | done r => exact .inl rfl
    | raise e => exact .inl rfl
    | call c next =>
      rw [hp] at hsafe hunmoved
      exact serve_legal hsafe.1.2 hunmoved docId
  refine ⟨hlegal, fun docId a ha hstatus => ?_⟩
  have hfinal := hlegal docId
  rw [hstatus] at hfinal
  exact hfinal.final ha

/-- As long as every upsert finds its document in a status that its writer accepts, all
transitions are legal and a reject that returned success stands. -/
theorem transitions_legal [DecidableEq ι] {events : List (ι × Surroundings)}
    (hposts : ∀ i req, parties i ≠ .post req)
    (hunmoved : Along (step db) (Prog.Permitted Unmoved) (start env parties s) events) :
    Along (step db) (fun pool event => LegalStep pool.shared (step db pool event).shared)
        (start env parties s) events ∧
      ∀ i req outcome, parties i = .reject req →
        (run (step db) (start env parties s) events).parties i = .done outcome →
        (run (step db) (start env parties s) events).shared.status req.slug = Status.rejected.json := by
  have hstep : ∀ pool event, Orderly env parties pool → Prog.Permitted Unmoved pool event →
      Orderly env parties (step db pool event) := fun _ _ h hp =>
    (rules db env parties).step h hp
  have hstart : Orderly env parties (start env parties s) := orderly_start hposts
  constructor
  · exact hunmoved.mono hstep (fun _ _ => legalStep_of_permitted) hstart
  · intro i req outcome hreject hdone
    have hkept := (((rules db env parties).run hstart hunmoved).own i).2 outcome hdone
    rw [hreject] at hkept
    exact hkept

end Runs

def acmeAdmin : Caller where
  toAuthContext := AuthContext.ofTenant "acme"
  orgRole := some "admin"

def stagedSkill : Row where
  docId := "forge/deploy"
  fleetId := none
  data := [("name", .str "Deploy"), ("slug", .str "deploy"), ("kind", .str "create"),
    ("source", .str "forge"), ("status", Status.staged.json), ("content", .str "Ship it."),
    ("description", .str "Deploys."), ("content_hash", .str "sha256:00"),
    ("cluster_fingerprint", .str "fp")]
  updatedAt := 0
  caps := ⟨40000, 160⟩

def inboxRequest : InboxRequest where
  caller := acmeAdmin
  settings := ⟨true, ⟨40000, 160⟩, 30⟩
  slug := "forge/deploy"
  now := "2026-01-01T00:00:00+00:00"
  scannedAt := "2026-01-01T00:00:00+00:00"

def rejectRequest : RejectRequest := ⟨inboxRequest, "wrong cluster", none⟩

def operators : Bool → Party
  | true => .approve inboxRequest
  | false => .reject rejectRequest

def stagedStore : Store := ⟨[stagedSkill], []⟩

def prompt : Surroundings := ⟨.ok, "", 1, "2026-01-01T00:00:00+00:00"⟩

def raceEvents : List (Bool × Surroundings) :=
  List.replicate 3 (true, prompt) ++ List.replicate 5 (false, prompt) ++ [(true, prompt)]

def returned : Handler Outcome → Bool
  | .done _ => true
  | _ => false

theorem done_of_returned {p : Handler Outcome} (h : returned p = true) : ∃ outcome, p = .done outcome := by
  cases p with
  | done outcome => exact ⟨outcome, rfl⟩
  | _ => exact absurd h Bool.false_ne_true

theorem race_outcome :
    let pool := run (step .plain) (start .ascii operators stagedStore) raceEvents
    returned (pool.parties false) && (pool.shared.status "forge/deploy").isStr Status.active.name &&
      pool.shared.isFingerprintPoisoned 2 none "fp" := by
  decide +kernel

/-- The rejection returned success, and the skill is active with its fingerprint poisoned. -/
theorem approval_overtakes_rejection :
    let pool := run (step .plain) (start .ascii operators stagedStore) raceEvents
    operators false = .reject rejectRequest ∧ (∃ outcome, pool.parties false = .done outcome) ∧
      pool.shared.status rejectRequest.slug = Status.active.json ∧
      pool.shared.isFingerprintPoisoned 2 none "fp" = true := by
  intro pool
  have houtcome := race_outcome
  simp only [Bool.and_eq_true] at houtcome
  obtain ⟨⟨hreturned, hactive⟩, hpoisoned⟩ := houtcome
  exact ⟨rfl, done_of_returned hreturned, eq_json_of_isStr hactive, hpoisoned⟩

def waitingEvents : List (Bool × Surroundings) :=
  (true, prompt) :: List.replicate 5 (false, prompt) ++ [(true, prompt)]

/-- An approval that has only read the skill when the rejection is written finds it rejected when it
reads it again, and the rejection stands. -/
theorem rejection_alone_stands :
    (run (step .plain) (start .ascii operators stagedStore) waitingEvents).shared.status
      "forge/deploy" = Status.rejected.json := by
  have hposts : ∀ i req, operators i ≠ .post req := by
    intro i req
    cases i <;> exact fun h => nomatch h
  have hunmoved : Along (step .plain) (Prog.Permitted Unmoved) (start .ascii operators stagedStore)
      waitingEvents := by decide
  have hreturned : returned ((run (step .plain) (start .ascii operators stagedStore)
      waitingEvents).parties false) = true := by decide
  obtain ⟨outcome, hdone⟩ := done_of_returned hreturned
  exact (transitions_legal hposts hunmoved).2 false rejectRequest outcome rfl hdone

end Memclaw.Skills
