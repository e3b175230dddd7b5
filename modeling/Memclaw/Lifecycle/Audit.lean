import Memclaw.Lifecycle.AuditDefs

/-! Rows of the audit table under any number of deliveries: what a turn may write, what every
row says of itself, and the record of the first success update that a success row keeps. -/

namespace Memclaw.Lifecycle

open Memclaw.Lib Memclaw.Lib.Interleave

def Party.message? : Party → Option Message
  | .publishing m => some m
  | .received m => some m
  | .skipping m _ => some m
  | .skipped m _ => some m
  | .marking m => some m
  | .running m => some m
  | .failing m _ => some m
  | .succeeded m _ => some m
  | _ => none

/-- The stats of a success update are those of a skip or those of an op that ran. -/
def Finish.Honest (f : Finish) : Prop :=
  if f.ran then ∃ count, f.stats = [(f.message.action.statsKey, .int count)]
  else f.stats = skipStats

inductive Writes (p : Party) (w : World) : World → Prop
  | nothing : Writes p w w
  | create (orgId : String) (action : Action) (triggeredBy : String) :
      Writes p w (w.lifecycleAuditCreate orgId action triggeredBy)
  | publish (m : Message) : p.message? = some m →
      Writes p w { w with messages := w.messages ++ [m] }
  | progress (auditId : ℕ) (f : Finalize) : f.status = .inProgress ∨ f.status = .failure →
      Writes p w (w.lifecycleAuditFinalize auditId f)
  | finish (m : Message) (stats : Dict) (ran : Bool) : p.message? = some m →
      Finish.Honest ⟨m, stats, w.now, ran⟩ → Writes p w (w.finish m stats ran)

theorem Writes.carry {p : Party} {w next : World} (h : Writes p w next) (a : Answer) :
    Writes p w (a.carry w next) := by
  unfold Answer.carry
  split
  · exact .nothing
  · exact h

theorem act_writes (a : Answer) (p : Party) (w : World) : Writes p w (act a p w).2 := by
  cases p with
  | trigger orgId action triggeredBy => exact (Writes.create orgId action triggeredBy).carry a
  | publishing m => exact (Writes.publish m rfl).carry a
  | skipping m checkedAt => exact (Writes.finish m skipStats false rfl rfl).carry a
  | marking m => exact (Writes.progress m.auditId _ (.inl rfl)).carry a
  | failing m text => exact (Writes.progress m.auditId _ (.inr rfl)).carry a
  | succeeded m count => exact (Writes.finish m _ true rfl ⟨count, rfl⟩).carry a
  | triggered => exact .nothing
  | idle => exact .nothing
  | received m => exact .nothing
  | skipped m checkedAt => exact .nothing
  | running m => exact .nothing
  | acked => exact .nothing
  | nacked => exact .nothing

theorem act_message {a : Answer} {p : Party} {w : World} {m : Message}
    (h : (act a p w).1.message? = some m) :
    p.message? = some m ∨ m ∈ w.messages ∨
      ∃ orgId action triggeredBy, p = .trigger orgId action triggeredBy ∧
        m = ⟨w.nextId, orgId, action⟩ ∧
        (act a p w).2 = w.lifecycleAuditCreate orgId action triggeredBy := by
  cases p with
  | trigger orgId action triggeredBy =>
    refine .inr (.inr ⟨orgId, action, triggeredBy, rfl, ?_⟩)
    by_cases hreply : a.reply = .ok
    · simp only [act, hreply, if_true, Party.message?, Option.some.injEq] at h
      exact ⟨h.symm, by simp [act, Answer.carry, hreply]⟩
    · simp [act, hreply, Party.message?] at h
  | idle =>
    simp only [act] at h
    split at h
    · next hpick => exact .inr (.inl (Option.some.inj h ▸ List.mem_of_getElem? hpick))
    · exact absurd h (by simp [Party.message?])
  | received m' =>
    refine .inl (Eq.trans ?_ h)
    simp only [act, gate]
    split
    · rfl
    · split <;> rfl
  | running m' =>
    refine .inl (Eq.trans ?_ h)
    simp only [act]
    split <;> rfl
  | skipping m' checkedAt => exact .inl h
  | skipped m' checkedAt => exact .inl h
  | marking m' => exact .inl h
  | publishing m' => exact absurd h (by simp [act, Party.message?])
  | failing m' text => exact absurd h (by simp [act, Party.message?])
  | succeeded m' count =>
    simp only [act] at h
    split at h <;> exact absurd h (by simp [Party.message?])
  | triggered => exact absurd h (by simp [act, Party.message?])
  | acked => exact absurd h (by simp [act, Party.message?])
  | nacked => exact absurd h (by simp [act, Party.message?])

structure LifecycleAudit.Consistent (row : LifecycleAudit) : Prop where
  finished : row.finishedAt.isSome ↔ row.status = .success ∨ row.status = .failure
  noError : row.status = .success → row.errorMessage = none

theorem Finalize.write_consistent {f : Finalize} (h : f.status ≠ .pending) (now : ℕ)
    (row : LifecycleAudit) : (f.write now row).Consistent := by
  constructor
  · cases hs : f.status with
    | pending => exact absurd hs h
    | inProgress => simp [write, hs]
    | success => simp [write, hs]
    | failure => simp [write, hs]
  · intro hs
    have hs' : f.status = .success := hs
    simp [write, hs']

def World.Names (w : World) (m : Message) : Prop :=
  ∃ row, w.rows[m.auditId]? = some row ∧ row.orgId = m.orgId ∧ row.action = m.action

def World.firstFinish (w : World) (auditId : ℕ) : Option Finish :=
  w.finishes.find? fun f => f.message.auditId = auditId

def World.Recorded (w : World) (row : LifecycleAudit) : Prop :=
  match w.firstFinish row.id with
  | none => row.status ≠ .success
  | some first =>
    row.status = .success ∧ row.stats = some first.stats ∧ row.finishedAt = some first.at_

theorem World.recorded_of_none {w : World} {row : LifecycleAudit}
    (h : w.firstFinish row.id = none) : w.Recorded row ↔ row.status ≠ .success := by
  rw [Recorded, h]

theorem World.recorded_of_first {w : World} {row : LifecycleAudit} {first : Finish}
    (h : w.firstFinish row.id = some first) : w.Recorded row ↔
      row.status = .success ∧ row.stats = some first.stats ∧ row.finishedAt = some first.at_ := by
  rw [Recorded, h]

theorem World.Recorded.none_of_ne {w : World} {row : LifecycleAudit} (h : w.Recorded row)
    (hlive : row.status ≠ .success) : w.firstFinish row.id = none := by
  cases hfirst : w.firstFinish row.id with
  | none => rfl
  | some first => exact absurd ((recorded_of_first hfirst).mp h).1 hlive

structure World.Sound (w : World) : Prop where
  place : ∀ (i : ℕ) (row : LifecycleAudit), w.rows[i]? = some row → row.id = i
  next : w.nextId = w.rows.length
  consistent : ∀ row ∈ w.rows, row.Consistent
  recorded : ∀ row ∈ w.rows, w.Recorded row
  messages : ∀ m ∈ w.messages, w.Names m
  finishes : ∀ f ∈ w.finishes, w.Names f.message ∧ f.Honest ∧ f.at_ ≤ w.now

structure LifecycleAudit.Follows (row row' : LifecycleAudit) : Prop where
  id : row'.id = row.id
  orgId : row'.orgId = row.orgId
  action : row'.action = row.action
  success : row.status = .success → row' = row

theorem LifecycleAudit.Follows.refl (row : LifecycleAudit) : row.Follows row :=
  ⟨rfl, rfl, rfl, fun _ => rfl⟩

theorem LifecycleAudit.Follows.trans {a b c : LifecycleAudit} (h : a.Follows b)
    (h' : b.Follows c) : a.Follows c where
  id := h'.id.trans h.id
  orgId := h'.orgId.trans h.orgId
  action := h'.action.trans h.action
  success hs := by
    have hb : b = a := h.success hs
    exact (h'.success (hb ▸ hs)).trans hb

theorem finalize_follows (w : World) (auditId : ℕ) (f : Finalize) :
    Rows.Evolves LifecycleAudit.Follows w.rows (w.lifecycleAuditFinalize auditId f).rows := by
  refine Rows.Evolves.update .refl fun row _ hp => ⟨rfl, rfl, rfl, fun hs => ?_⟩
  exact absurd hs (by simpa using (Bool.and_eq_true_iff.mp hp).2)

theorem Writes.follows {p : Party} {w next : World} (h : Writes p w next) :
    Rows.Evolves LifecycleAudit.Follows w.rows next.rows := by
  cases h with
  | nothing => exact .refl .refl _
  | create orgId action triggeredBy => exact .append .refl _ _
  | publish m hm => exact .refl .refl _
  | progress auditId f hf => exact finalize_follows w auditId f
  | finish m stats ran hm hhonest => exact finalize_follows w m.auditId _

theorem World.Names.evolve {w next : World} {m : Message} (h : w.Names m)
    (hrows : Rows.Evolves LifecycleAudit.Follows w.rows next.rows) : next.Names m := by
  obtain ⟨row, hrow, horg, haction⟩ := h
  obtain ⟨row', hrow', hto⟩ := hrows m.auditId row hrow
  exact ⟨row', hrow', hto.orgId.trans horg, hto.action.trans haction⟩

theorem World.Sound.eq_of_id {w : World} (h : w.Sound) {row row' : LifecycleAudit}
    (hrow : row ∈ w.rows) (hrow' : row' ∈ w.rows) (hid : row'.id = row.id) : row' = row := by
  obtain ⟨i, hi⟩ := List.mem_iff_getElem?.mp hrow
  obtain ⟨j, hj⟩ := List.mem_iff_getElem?.mp hrow'
  have hij : j = i := by rw [← h.place i row hi, ← h.place j row' hj, hid]
  exact Option.some.inj (hj.symm.trans (hij ▸ hi))

theorem Writes.finishes {p : Party} {w next : World} (h : Writes p w next) :
    w.finishes <+: next.finishes := by
  cases h with
  | nothing => exact List.prefix_rfl
  | create orgId action triggeredBy => exact List.prefix_rfl
  | publish m hm => exact List.prefix_rfl
  | progress auditId f hf => exact List.prefix_rfl
  | finish m stats ran hm hhonest => exact List.prefix_append ..

theorem World.Sound.finalize {w : World} (h : w.Sound) (auditId : ℕ) {f : Finalize}
    (hf : f.status = .inProgress ∨ f.status = .failure) :
    (w.lifecycleAuditFinalize auditId f).Sound where
  place i row hrow := by
    simp only [lifecycleAuditFinalize, Rows.getElem?_update, Option.map_eq_some_iff] at hrow
    obtain ⟨old, hold, rfl⟩ := hrow
    have hid : old.id = i := h.place i old hold
    split
    · exact hid
    · exact hid
  next := h.next.trans (List.length_map _).symm
  consistent := Rows.forall_update h.consistent fun row _ _ _ =>
    Finalize.write_consistent (by rcases hf with hf | hf <;> simp [hf]) _ row
  recorded := by
    have hkept : ∀ row ∈ (w.lifecycleAuditFinalize auditId f).rows, w.Recorded row := by
      refine Rows.forall_update h.recorded fun row hrow hp hrecorded => ?_
      have hlive : row.status ≠ .success := by simpa using (Bool.and_eq_true_iff.mp hp).2
      have hnone : w.firstFinish (f.write w.now row).id = none := hrecorded.none_of_ne hlive
      refine (World.recorded_of_none hnone).mpr ?_
      rcases hf with hf | hf <;> simp [Finalize.write, hf]
    exact hkept
  messages m hm := (h.messages m hm).evolve (finalize_follows w auditId f)
  finishes g hg := by
    obtain ⟨hnames, hrest⟩ := h.finishes g hg
    exact ⟨hnames.evolve (finalize_follows w auditId f), hrest⟩

theorem World.firstFinish_finish (w : World) (m : Message) (stats : Dict) (ran : Bool)
    (auditId : ℕ) : (w.finish m stats ran).firstFinish auditId =
      (w.firstFinish auditId).or (if m.auditId = auditId then some ⟨m, stats, w.now, ran⟩ else none)
    := by
  simp [firstFinish, finish, lifecycleAuditFinalize, List.find?_append, List.find?_singleton]

theorem World.Recorded.finish {w : World} {row : LifecycleAudit} (h : w.Recorded row) (m : Message)
    (stats : Dict) (ran : Bool) : (w.finish m stats ran).Recorded
      (if row.id = m.auditId && row.status ≠ .success then
        Finalize.write { status := .success, stats := some stats } w.now row else row) := by
  -- A success update writes the row unless an earlier one did.
  cases hfirst : w.firstFinish row.id with
  | some first =>
    have hthen := (recorded_of_first hfirst).mp h
    have hlater : (w.finish m stats ran).firstFinish row.id = some first := by
      rw [firstFinish_finish, hfirst, Option.some_or]
    simpa [hthen.1] using (recorded_of_first hlater).mpr hthen
  | none =>
    have hlive : row.status ≠ .success := (recorded_of_none hfirst).mp h
    by_cases hid : row.id = m.auditId
    · have hnow : (w.finish m stats ran).firstFinish
          (Finalize.write { status := .success, stats := some stats } w.now row).id =
            some ⟨m, stats, w.now, ran⟩ := by
        refine (firstFinish_finish w m stats ran row.id).trans ?_
        rw [hfirst, Option.none_or, if_pos hid.symm]
      simpa [hid, hlive] using (recorded_of_first hnow).mpr ⟨rfl, rfl, rfl⟩
    · have hstill : (w.finish m stats ran).firstFinish row.id = none := by
        rw [firstFinish_finish, hfirst, Option.none_or, if_neg (Ne.symm hid)]
      simpa [hid] using (recorded_of_none hstill).mpr hlive

theorem World.Sound.finish {w : World} (h : w.Sound) {m : Message} {stats : Dict} {ran : Bool}
    (hm : w.Names m) (hhonest : Finish.Honest ⟨m, stats, w.now, ran⟩) :
    (w.finish m stats ran).Sound where
  place i row hrow := by
    simp only [World.finish, lifecycleAuditFinalize, Rows.getElem?_update,
      Option.map_eq_some_iff] at hrow
    obtain ⟨old, hold, rfl⟩ := hrow
    have hid : old.id = i := h.place i old hold
    split
    · exact hid
    · exact hid
  next := h.next.trans (List.length_map _).symm
  consistent := Rows.forall_update h.consistent fun row _ _ _ =>
    Finalize.write_consistent (by simp) _ row
  recorded row hrow := by
    obtain ⟨old, hold, rfl⟩ := Rows.mem_update.mp hrow
    exact (h.recorded old hold).finish m stats ran
  messages m' hm' := (h.messages m' hm').evolve (finalize_follows w m.auditId _)
  finishes := by
    refine Rows.forall_append (fun f hf => ?_) ?_
    · obtain ⟨hnames, hrest⟩ := h.finishes f hf
      exact ⟨hnames.evolve (finalize_follows w m.auditId _), hrest⟩
    · exact ⟨hm.evolve (finalize_follows w m.auditId _), hhonest, le_rfl⟩

theorem World.Sound.create {w : World} (h : w.Sound) (orgId : String) (action : Action)
    (triggeredBy : String) : (w.lifecycleAuditCreate orgId action triggeredBy).Sound where
  place i row hrow := by
    rcases List.getElem?_append.symm.trans hrow with hrow
    split at hrow
    · exact h.place i row hrow
    · next hge =>
      obtain ⟨hi, hrow⟩ := List.getElem?_eq_some_iff.mp hrow
      have hlast : i = w.rows.length := by simp at hi; omega
      subst hlast
      simpa [h.next] using congrArg LifecycleAudit.id hrow.symm
  next := by simp [lifecycleAuditCreate, h.next]
  consistent := Rows.forall_append h.consistent ⟨by simp, by simp⟩
  recorded := by
    refine Rows.forall_append h.recorded ?_
    -- no success update names the new id: those on record name rows that exist
    have hnew : w.firstFinish w.nextId = none := by
      refine List.find?_eq_none.mpr fun f hf hid => ?_
      obtain ⟨row, hrow, -⟩ := (h.finishes f hf).1
      have hlt : f.message.auditId < w.rows.length := (List.getElem?_eq_some_iff.mp hrow).1
      rw [of_decide_eq_true hid, h.next] at hlt
      exact lt_irrefl _ hlt
    exact (recorded_of_none hnew).mpr (by simp)
  messages m hm := (h.messages m hm).evolve (.append .refl _ _)
  finishes f hf := by
    obtain ⟨hnames, hrest⟩ := h.finishes f hf
    exact ⟨hnames.evolve (.append .refl _ _), hrest⟩

theorem World.Sound.writes {p : Party} {w next : World} (h : w.Sound)
    (hp : ∀ m, p.message? = some m → w.Names m) (hwrites : Writes p w next) : next.Sound := by
  cases hwrites with
  | nothing => exact h
  | create orgId action triggeredBy => exact h.create orgId action triggeredBy
  | publish m hm => exact { h with messages := Rows.forall_append h.messages (hp m hm) }
  | progress auditId f hf => exact h.finalize auditId hf
  | finish m stats ran hm hhonest => exact h.finish (hp m hm) hhonest

theorem World.names_created {w : World} (hnext : w.nextId = w.rows.length) (orgId : String)
    (action : Action) (triggeredBy : String) :
    (w.lifecycleAuditCreate orgId action triggeredBy).Names ⟨w.nextId, orgId, action⟩ := by
  refine ⟨⟨w.nextId, orgId, action, triggeredBy, w.now, none, .pending, none, none⟩, ?_, rfl, rfl⟩
  simp [lifecycleAuditCreate, hnext]

theorem World.Sound.later {w : World} (h : w.Sound) (elapsed : ℕ) :
    { w with now := w.now + elapsed : World }.Sound :=
  { h with finishes := fun f hf =>
      let ⟨hnames, hhonest, hat⟩ := h.finishes f hf
      ⟨hnames, hhonest, Nat.le_add_right_of_le hat⟩ }

variable {ι : Type} [DecidableEq ι]

def Sound (pool : Pool ι World Party) : Prop :=
  pool.Holds World.Sound (fun _ p w => ∀ m, p.message? = some m → w.Names m) fun _ _ => True

theorem Sound.turn {pool : Pool ι World Party} (h : Sound pool) (event : ι × Answer) :
    Sound (pool.step runAction event) := by
  obtain ⟨i, a⟩ := event
  let w : World := { pool.shared with now := pool.shared.now + a.elapsed }
  have hw : w.Sound := h.shared.later a.elapsed
  have hown : ∀ m, (pool.parties i).message? = some m → w.Names m := h.own i
  have hwrites : Writes (pool.parties i) w (act a (pool.parties i) w).2 := act_writes a _ w
  refine Pool.Holds.step h (i, a) _ rfl (hw.writes hown hwrites) ?_ ?_ fun _ _ => ⟨trivial, trivial⟩
  · intro m hm
    rcases act_message hm with hkept | hpublished | ⟨orgId, action, triggeredBy, -, rfl, hnew⟩
    · exact (hown m hkept).evolve hwrites.follows
    · exact (hw.messages m hpublished).evolve hwrites.follows
    · show (act a (pool.parties i) w).2.Names _
      rw [hnew]
      exact World.names_created hw.next orgId action triggeredBy
  · intro j _ m hm
    have hnames : w.Names m := h.own j m hm
    exact hnames.evolve hwrites.follows

omit [DecidableEq ι] in
theorem Sound.start (roles : ι → Role) : Sound (World.start roles) where
  shared := by constructor <;> simp [World.start]
  own i m hm := by
    cases hrole : roles i with
    | trigger orgId action triggeredBy =>
      simp [World.start, hrole, Role.begin, Party.message?] at hm
    | consumer => simp [World.start, hrole, Role.begin, Party.message?] at hm
  pair _ _ _ := trivial

theorem Sound.run {pool : Pool ι World Party} (h : Sound pool) (events : List (ι × Answer)) :
    Sound (run (Pool.step runAction) pool events) := by
  have hall : Along (Pool.step runAction) (fun _ _ => True) pool events :=
    Along.of_forall (fun _ _ => trivial) pool events
  exact hall.invariant (fun _ event hpool _ => hpool.turn event) h

theorem run_follows (pool : Pool ι World Party) (events : List (ι × Answer)) :
    Rows.Evolves LifecycleAudit.Follows pool.shared.rows
      (run (Pool.step runAction) pool events).shared.rows := by
  induction events generalizing pool with
  | nil => exact .refl .refl _
  | cons event events ih =>
    have hstep : Rows.Evolves LifecycleAudit.Follows pool.shared.rows
        (pool.step runAction event).shared.rows :=
      (act_writes event.2 (pool.parties event.1) { pool.shared with
        now := pool.shared.now + event.2.elapsed }).follows
    exact hstep.trans .trans (ih (pool.step runAction event))

theorem run_finishes (pool : Pool ι World Party) (events : List (ι × Answer)) :
    pool.shared.finishes <+: (run (Pool.step runAction) pool events).shared.finishes := by
  induction events generalizing pool with
  | nil => exact List.prefix_rfl
  | cons event events ih =>
    have hstep : pool.shared.finishes <+: (pool.step runAction event).shared.finishes :=
      (act_writes event.2 (pool.parties event.1) { pool.shared with
        now := pool.shared.now + event.2.elapsed }).finishes
    exact hstep.trans (ih (pool.step runAction event))

/-- Under any interleaving of triggers and deliveries, every row is consistent; a success row
carries the stats and the time of the first success update of its id that was carried out, and
it is the row of its id, unchanged, in every later state. -/
theorem audit_row_sticky (roles : ι → Role) (past future : List (ι × Answer)) :
    let before := (run (Pool.step runAction) (World.start roles) past).shared
    let after := (run (Pool.step runAction) (World.start roles) (past ++ future)).shared
    ∀ row ∈ before.rows, row.Consistent ∧ (row.status = .success →
      (row ∈ after.rows ∧ ∀ other ∈ after.rows, other.id = row.id → other = row) ∧
      ∃ first, before.firstFinish row.id = some first ∧ after.firstFinish row.id = some first ∧
        row.stats = some first.stats ∧ row.finishedAt = some first.at_) := by
  intro before after row hrow
  have hbefore : before.Sound := ((Sound.start roles).run past).shared
  have hafter : after.Sound := ((Sound.start roles).run (past ++ future)).shared
  refine ⟨hbefore.consistent row hrow, fun hsuccess => ⟨?_, ?_⟩⟩
  · have hrows : Rows.Evolves LifecycleAudit.Follows before.rows after.rows := by
      simpa only [after, run_append] using run_follows _ future
    obtain ⟨i, hi⟩ := List.mem_iff_getElem?.mp hrow
    obtain ⟨row', hrow', hto⟩ := hrows i row hi
    have hmem : row ∈ after.rows := hto.success hsuccess ▸ List.mem_of_getElem? hrow'
    exact ⟨hmem, fun other hother hid => hafter.eq_of_id hmem hother hid⟩
  · have hrecorded : before.Recorded row := hbefore.recorded row hrow
    cases hfirst : before.firstFinish row.id with
    | none => exact absurd hsuccess ((World.recorded_of_none hfirst).mp hrecorded)
    | some first =>
      have hprefix : before.finishes <+: after.finishes := by
        simpa only [after, run_append] using run_finishes _ future
      obtain ⟨-, hstats, hat⟩ := (World.recorded_of_first hfirst).mp hrecorded
      exact ⟨first, rfl, List.IsPrefix.find?_eq_some hprefix hfirst, hstats, hat⟩

/-- A message that is delivered twice: the op succeeds, and fails on the redelivery. -/
def redeliveryRoles (i : ℕ) : Role :=
  if i = 0 then .trigger "org" .purgeSoftDeleted "cron" else .consumer

def firstDelivery : List (ℕ × Answer) :=
  [(0, {}), (0, {}), (1, {}), (1, {}), (1, {}), (1, { op := .ok 3 }), (1, {})]

def redelivery : List (ℕ × Answer) :=
  [(2, {}), (2, {}), (2, { elapsed := 5 }), (2, { op := .error "lock" }), (2, {})]

theorem audit_row_redelivered :
    (⟨0, "org", .purgeSoftDeleted, "cron", 0, some 0, .success, some [("deleted", .int 3)],
      none⟩ : LifecycleAudit) ∈ (run (Pool.step runAction) (World.start redeliveryRoles)
        (firstDelivery ++ redelivery)).shared.rows :=
  ((audit_row_sticky redeliveryRoles firstDelivery redelivery _
    (List.mem_singleton.mpr rfl)).2 rfl).1.1

end Memclaw.Lifecycle
