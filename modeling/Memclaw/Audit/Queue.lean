import Mathlib.Data.List.Induction
import Mathlib.Data.List.Perm.Subperm
import Memclaw.Audit.QueueDefs
import Memclaw.Lib.Groups
import Memclaw.Lib.Rows

/-! The counters of the audit queue against what storage acknowledged, where every accepted
event is at any time, and the order in which the events of a tenant reach storage. -/

namespace Memclaw.Audit.Queue

open Memclaw.Lib Memclaw.Lib.Interleave

def ofTenant (tenantId : String) (events : List QueuedEvent) : List QueuedEvent :=
  events.filter fun ev => ev.key = some tenantId

theorem appendTo_perm (tenantId : String) (ev : QueuedEvent)
    (groups : List (String × List QueuedEvent)) :
    ((appendTo tenantId ev groups).flatMap (·.2)).Perm (groups.flatMap (·.2) ++ [ev]) := by
  induction groups with
  | nil => exact List.Perm.refl _
  | cons group groups ih =>
    obtain ⟨tid, tevs⟩ := group
    rw [appendTo]
    split
    · simp only [List.flatMap_cons, List.append_assoc]
      exact List.perm_append_comm.append_left tevs
    · simp only [List.flatMap_cons, List.append_assoc]
      exact ih.append_left tevs

theorem appendTo_eq_upsert (tenantId : String) (ev : QueuedEvent)
    (groups : List (String × List QueuedEvent)) :
    appendTo tenantId ev groups =
      Groups.upsert tenantId (fun events => events.getD [] ++ [ev]) groups := by
  induction groups with
  | nil => rfl
  | cons group groups ih => rw [appendTo, Groups.upsert, ih, Option.getD_some]

theorem mem_keys_appendTo {tenantId other : String} {ev : QueuedEvent}
    {groups : List (String × List QueuedEvent)} :
    other ∈ (appendTo tenantId ev groups).map (·.1) ↔
      other = tenantId ∨ other ∈ groups.map (·.1) := by
  rw [appendTo_eq_upsert, Groups.keys_upsert]
  split_ifs with hold
  · refine ⟨.inr, fun h => h.elim (fun hsame => ?_) id⟩
    rw [hsame]
    exact hold
  · rw [List.mem_append, List.mem_singleton, or_comm]

theorem nodup_appendTo {tenantId : String} {ev : QueuedEvent}
    {groups : List (String × List QueuedEvent)} (h : (groups.map (·.1)).Nodup) :
    ((appendTo tenantId ev groups).map (·.1)).Nodup := by
  rw [appendTo_eq_upsert]
  exact Groups.upsert_unique h

theorem mem_appendTo {tenantId tid : String} {ev : QueuedEvent} {tevs : List QueuedEvent}
    {groups : List (String × List QueuedEvent)} (hnodup : (groups.map (·.1)).Nodup)
    (h : (tid, tevs) ∈ appendTo tenantId ev groups) :
    tid ≠ tenantId ∧ (tid, tevs) ∈ groups ∨
      tid = tenantId ∧ ((∃ old, (tid, old) ∈ groups ∧ tevs = old ++ [ev]) ∨
        tid ∉ groups.map (·.1) ∧ tevs = [ev]) := by
  induction groups with
  | nil =>
    obtain ⟨rfl, rfl⟩ : tid = tenantId ∧ tevs = [ev] := by simpa [appendTo] using h
    exact .inr ⟨rfl, .inr ⟨List.not_mem_nil, rfl⟩⟩
  | cons group groups ih =>
    obtain ⟨tid', tevs'⟩ := group
    obtain ⟨hfresh, hrest⟩ := List.nodup_cons.mp hnodup
    rw [appendTo] at h
    split at h
    · next hsame =>
      subst hsame
      rcases List.mem_cons.mp h with hhead | htail
      · obtain ⟨rfl, rfl⟩ := Prod.mk.inj hhead
        exact .inr ⟨rfl, .inl ⟨tevs', List.mem_cons_self, rfl⟩⟩
      · refine .inl ⟨fun hid => ?_, List.mem_cons_of_mem _ htail⟩
        exact hfresh (List.mem_map.mpr ⟨(tid, tevs), htail, hid⟩)
    · next hne =>
      rcases List.mem_cons.mp h with hhead | htail
      · obtain ⟨rfl, rfl⟩ := Prod.mk.inj hhead
        exact .inl ⟨hne, List.mem_cons_self⟩
      · rcases ih hrest htail with ⟨hid, hold⟩ | ⟨hid, ⟨old, hold, hevs⟩ | ⟨hnew, hevs⟩⟩
        · exact .inl ⟨hid, List.mem_cons_of_mem _ hold⟩
        · exact .inr ⟨hid, .inl ⟨old, List.mem_cons_of_mem _ hold, hevs⟩⟩
        · refine .inr ⟨hid, .inr ⟨fun hmem => ?_, hevs⟩⟩
          rcases List.mem_cons.mp hmem with hfirst | hlater
          · exact hne (hfirst.symm.trans hid)
          · exact hnew hlater

structure Grouped (events : List QueuedEvent) (groups : List (String × List QueuedEvent)) :
    Prop where
  nodup : (groups.map (·.1)).Nodup
  own : ∀ tid tevs, (tid, tevs) ∈ groups → tevs = ofTenant tid events
  nonempty : ∀ tid tevs, (tid, tevs) ∈ groups → tevs ≠ []
  complete : ∀ ev ∈ events, ∀ tid, ev.key = some tid → tid ∈ groups.map (·.1)
  perm : events.Perm (sentinelEvents events ++ groups.flatMap (·.2))

theorem Grouped.skip {events : List QueuedEvent} {groups : List (String × List QueuedEvent)}
    (h : Grouped events groups) {ev : QueuedEvent} (hkey : ev.key = none) :
    Grouped (events ++ [ev]) groups where
  nodup := h.nodup
  own tid tevs hmem := by
    rw [h.own tid tevs hmem, ofTenant, ofTenant, List.filter_append]
    simp [hkey]
  nonempty := h.nonempty
  complete := Rows.forall_append h.complete fun tid hid => by rw [hkey] at hid; exact nomatch hid
  perm := by
    have hsentinel : sentinelEvents (events ++ [ev]) = sentinelEvents events ++ [ev] := by
      simp [sentinelEvents, hkey]
    rw [hsentinel, List.append_assoc]
    refine (h.perm.append_right [ev]).trans ?_
    rw [List.append_assoc]
    exact List.perm_append_comm.append_left _

theorem Grouped.append {events : List QueuedEvent} {groups : List (String × List QueuedEvent)}
    (h : Grouped events groups) {ev : QueuedEvent} {tenantId : String}
    (hkey : ev.key = some tenantId) :
    Grouped (events ++ [ev]) (appendTo tenantId ev groups) where
  nodup := nodup_appendTo h.nodup
  own tid tevs hmem := by
    rw [ofTenant, List.filter_append]
    rcases mem_appendTo h.nodup hmem with ⟨hid, hold⟩ | ⟨rfl, ⟨old, hold, rfl⟩ | ⟨hnew, rfl⟩⟩
    · rw [h.own tid tevs hold, ofTenant]
      simp [hkey, Ne.symm hid]
    · rw [h.own tid old hold, ofTenant]
      simp [hkey]
    · -- no group yet, so none of the earlier events is the tenant's
      have hnone : events.filter (fun ev => ev.key = some tid) = [] := by
        refine List.filter_eq_nil_iff.mpr fun other hother hsame => ?_
        exact hnew (h.complete other hother tid (of_decide_eq_true hsame))
      rw [hnone]
      simp [hkey]
  nonempty tid tevs hmem := by
    rcases mem_appendTo h.nodup hmem with ⟨-, hold⟩ | ⟨-, ⟨old, -, rfl⟩ | ⟨-, rfl⟩⟩
    · exact h.nonempty tid tevs hold
    · simp
    · simp
  complete := by
    refine Rows.forall_append (fun other hother tid hid => ?_) fun tid hid => ?_
    · exact mem_keys_appendTo.mpr (.inr (h.complete other hother tid hid))
    · exact mem_keys_appendTo.mpr (.inl (Option.some.inj (hid.symm.trans hkey)))
  perm := by
    have hsentinel : sentinelEvents (events ++ [ev]) = sentinelEvents events := by
      simp [sentinelEvents, hkey]
    rw [hsentinel]
    refine (h.perm.append_right [ev]).trans ?_
    rw [List.append_assoc]
    exact ((appendTo_perm tenantId ev groups).symm).append_left _

theorem byTenant_grouped (events : List QueuedEvent) : Grouped events (byTenant events) := by
  induction events using List.reverseRecOn with
  | nil => constructor <;> simp [byTenant, sentinelEvents]
  | append_singleton events ev ih =>
    rw [byTenant, List.foldl_append, ← byTenant]
    cases hkey : ev.key with
    | none => simpa [hkey] using ih.skip hkey
    | some tenantId => simpa [hkey] using ih.append hkey

@[simp] theorem Flush.land_tenantId (tenantId : String) (outcome : Outcome) (f : Flush) :
    (f.land tenantId outcome).tenantId = f.tenantId := by
  unfold Flush.land
  split <;> rfl

@[simp] theorem Flush.land_events (tenantId : String) (outcome : Outcome) (f : Flush) :
    (f.land tenantId outcome).events = f.events := by
  unfold Flush.land
  split <;> rfl

namespace Batch

def okEvents (b : Batch) : List QueuedEvent :=
  (b.flushes.filter (·.outcome = some .ok)).flatMap (·.events)

def failedEvents (b : Batch) : List QueuedEvent :=
  (b.flushes.filter (·.outcome ≠ some .ok)).flatMap (·.events)

/-- The events of a tenant that storage may have by now. -/
def landed (b : Batch) (tenantId : String) : List QueuedEvent :=
  if b.flushes.any fun f => f.tenantId = tenantId && f.outcome.isSome then
    ofTenant tenantId b.chunk
  else []

structure Formed (b : Batch) : Prop where
  sentinel : b.sentinelCount = (sentinelEvents b.chunk).length
  nodup : (b.flushes.map (·.tenantId)).Nodup
  own : ∀ f ∈ b.flushes, f.events = ofTenant f.tenantId b.chunk
  nonempty : ∀ f ∈ b.flushes, f.events ≠ []
  perm : b.chunk.Perm (sentinelEvents b.chunk ++ b.flushes.flatMap (·.events))

theorem start_formed (chunk : List QueuedEvent) : (Batch.start chunk).Formed := by
  have h : Grouped chunk (byTenant chunk) := byTenant_grouped chunk
  constructor
  · rfl
  · simpa [Batch.start, Function.comp_def] using h.nodup
  · intro f hf
    obtain ⟨⟨tid, tevs⟩, hmem, rfl⟩ := List.mem_map.mp hf
    exact h.own tid tevs hmem
  · intro f hf
    obtain ⟨⟨tid, tevs⟩, hmem, rfl⟩ := List.mem_map.mp hf
    exact h.nonempty tid tevs hmem
  · simpa [Batch.start, List.flatMap_map] using h.perm

theorem start_pending (chunk : List QueuedEvent) :
    ∀ f ∈ (Batch.start chunk).flushes, f.outcome = none := by
  intro f hf
  obtain ⟨group, -, rfl⟩ := List.mem_map.mp hf
  rfl

theorem totalFailedEvents_eq (b : Batch) : b.totalFailedEvents = b.failedEvents.length := by
  rw [totalFailedEvents, failedEvents, List.length_flatMap]

theorem parts_perm (b : Batch) :
    (b.flushes.flatMap (·.events)).Perm (b.okEvents ++ b.failedEvents) := by
  have hparts : b.flushes.Perm (b.flushes.filter (·.outcome = some .ok) ++
      b.flushes.filter (·.outcome ≠ some .ok)) := by
    simpa using (List.filter_append_perm (·.outcome = some .ok) b.flushes).symm
  rw [okEvents, failedEvents, ← List.flatMap_append]
  exact hparts.flatMap_right _

variable {b : Batch}

theorem Formed.length_eq (h : b.Formed) :
    b.chunk.length = b.sentinelCount + b.okEvents.length + b.failedEvents.length := by
  have hchunk := h.perm.length_eq
  have hparts := b.parts_perm.length_eq
  rw [List.length_append] at hchunk hparts
  rw [hchunk, hparts, h.sentinel, Nat.add_assoc]

theorem failedEvents_eq_nil (h : ∀ f ∈ b.flushes, f.outcome = some .ok) : b.failedEvents = [] := by
  have hnone : b.flushes.filter (·.outcome ≠ some .ok) = [] :=
    List.filter_eq_nil_iff.mpr fun f hf => by simpa using h f hf
  rw [failedEvents, hnone]
  rfl

theorem Formed.outcome_of_nil (hb : b.Formed) (h : b.failedEvents = []) :
    ∀ f ∈ b.flushes, f.outcome = some .ok := by
  intro f hf
  by_contra hne
  have hmem : f ∈ b.flushes.filter (·.outcome ≠ some .ok) :=
    List.mem_filter.mpr ⟨hf, decide_eq_true hne⟩
  exact hb.nonempty f hf (List.flatMap_eq_nil_iff.mp h f hmem)

theorem Formed.land (h : b.Formed) (tenantId : String) (outcome : Outcome) :
    (b.land tenantId outcome).Formed := by
  constructor
  · exact h.sentinel
  · simpa [Batch.land, Function.comp_def] using h.nodup
  · intro f hf
    obtain ⟨old, hold, rfl⟩ := List.mem_map.mp hf
    rw [Flush.land_tenantId, Flush.land_events]
    exact h.own old hold
  · intro f hf
    obtain ⟨old, hold, rfl⟩ := List.mem_map.mp hf
    rw [Flush.land_events]
    exact h.nonempty old hold
  · simpa [Batch.land, List.flatMap_map] using h.perm

theorem okEvents_land_ok (b : Batch) (tenantId : String) :
    (b.land tenantId .ok).okEvents.Perm (b.okEvents ++ b.inFlight tenantId) := by
  obtain ⟨chunk, sentinelCount, flushes⟩ := b
  simp only [okEvents, inFlight, Batch.land]
  induction flushes with
  | nil => exact List.Perm.refl _
  | cons f flushes ih =>
    cases hpending : f.pendingFor tenantId with
    | true =>
      have hnone : f.outcome = none := by
        simpa using (Bool.and_eq_true_iff.mp hpending).2
      simp only [List.map_cons, List.filter_cons, Flush.land, hpending, hnone, if_true,
        decide_true, reduceCtorEq, decide_false, Bool.false_eq_true, if_false, List.flatMap_cons]
      exact (ih.append_left f.events).trans (List.perm_append_comm_assoc _ _ _)
    | false =>
      simp only [List.map_cons, List.filter_cons, Flush.land, hpending, Bool.false_eq_true,
        if_false]
      split
      · simp only [List.flatMap_cons, List.append_assoc]
        exact ih.append_left f.events
      · exact ih

theorem okEvents_land_of_ne (b : Batch) (tenantId : String) {outcome : Outcome}
    (h : outcome ≠ .ok) : (b.land tenantId outcome).okEvents = b.okEvents := by
  have hsame : ∀ f : Flush, ((f.land tenantId outcome).outcome = some .ok) =
      (f.outcome = some .ok) := by
    intro f
    unfold Flush.land
    split
    · next hpending =>
      have hnone : f.outcome = none := by simpa using (Bool.and_eq_true_iff.mp hpending).2
      simp [hnone, h]
    · rfl
  simp only [okEvents, Batch.land, List.filter_map, List.flatMap_map, Function.comp_def, hsame,
    Flush.land_events]

theorem landed_mono (b : Batch) (tenantId other : String) (outcome : Outcome) :
    (b.landed other).Sublist ((b.land tenantId outcome).landed other) := by
  unfold landed
  split
  · next hany =>
    obtain ⟨f, hf, hlanded⟩ := List.any_eq_true.mp hany
    have hsome : (f.land tenantId outcome).outcome.isSome = f.outcome.isSome ∨
        (f.land tenantId outcome).outcome.isSome = true := by
      unfold Flush.land
      split
      · exact .inr rfl
      · exact .inl rfl
    rw [if_pos]
    · exact List.Sublist.refl _
    · refine List.any_eq_true.mpr ⟨f.land tenantId outcome, List.mem_map_of_mem hf, ?_⟩
      obtain ⟨hid, hf⟩ := Bool.and_eq_true_iff.mp hlanded
      rw [Flush.land_tenantId, hid, Bool.true_and]
      rcases hsome with hsame | hnow
      · exact hsame.trans hf
      · exact hnow
  · exact List.nil_sublist _

theorem Formed.inFlight_cases (h : b.Formed) (tenantId : String) :
    b.inFlight tenantId = [] ∨
      b.inFlight tenantId = ofTenant tenantId b.chunk ∧ b.landed tenantId = [] ∧
        ∀ outcome, (b.land tenantId outcome).landed tenantId = ofTenant tenantId b.chunk := by
  -- What is in flight for a tenant is nothing, or all of its events, which land at once.
  have hone : ∀ f ∈ b.flushes, ∀ g ∈ b.flushes, f.tenantId = g.tenantId → f = g :=
    fun f hf g hg => List.inj_on_of_nodup_map h.nodup hf hg
  cases hpending : b.flushes.filter (Flush.pendingFor tenantId) with
  | nil =>
    refine .inl ?_
    rw [inFlight, hpending]
    rfl
  | cons f rest =>
    refine .inr ?_
    have hf : f ∈ b.flushes.filter (Flush.pendingFor tenantId) := hpending ▸ List.mem_cons_self
    obtain ⟨hmem, hfor⟩ := List.mem_filter.mp hf
    obtain ⟨hid, hnone⟩ := Bool.and_eq_true_iff.mp hfor
    have hid' : f.tenantId = tenantId := of_decide_eq_true hid
    have hids : ((f :: rest).map (·.tenantId)).Nodup :=
      h.nodup.sublist ((hpending ▸ List.filter_sublist).map _)
    have hrest : rest = [] := by
      refine List.eq_nil_iff_forall_not_mem.mpr fun g hg => ?_
      have hg' : g ∈ b.flushes.filter (Flush.pendingFor tenantId) :=
        hpending ▸ List.mem_cons_of_mem f hg
      have hgid : g.tenantId = tenantId :=
        of_decide_eq_true (Bool.and_eq_true_iff.mp (List.mem_filter.mp hg').2).1
      exact (List.nodup_cons.mp hids).1 (List.mem_map.mpr ⟨g, hg, hgid.trans hid'.symm⟩)
    refine ⟨?_, if_neg fun hany => ?_, fun outcome => if_pos ?_⟩
    · rw [inFlight, hpending, hrest, List.flatMap_singleton, h.own f hmem, hid']
    · obtain ⟨g, hg, hlanded⟩ := List.any_eq_true.mp hany
      obtain ⟨hgid, hsome⟩ := Bool.and_eq_true_iff.mp hlanded
      have hsame : f = g := hone f hmem g hg (hid'.trans (of_decide_eq_true hgid).symm)
      rw [← hsame, Option.isSome_eq_false_iff.mpr hnone] at hsome
      exact Bool.false_ne_true hsome
    · refine List.any_eq_true.mpr ⟨f.land tenantId outcome, List.mem_map_of_mem hmem, ?_⟩
      simp [Flush.land, hfor, hid']

theorem start_okEvents (chunk : List QueuedEvent) : (Batch.start chunk).okEvents = [] := by
  have hnone : (Batch.start chunk).flushes.filter (·.outcome = some .ok) = [] :=
    List.filter_eq_nil_iff.mpr fun f hf => by simp [start_pending chunk f hf]
  rw [okEvents, hnone]
  rfl

theorem landed_sublist (b : Batch) (tenantId : String) :
    (b.landed tenantId).Sublist (ofTenant tenantId b.chunk) := by
  unfold landed
  split
  · exact List.Sublist.refl _
  · exact List.nil_sublist _

end Batch

namespace AuditEventQueue

def bulkEvents (q : AuditEventQueue) : List QueuedEvent :=
  (q.storage.filter (·.bulk)).map (·.event)

/-- Every accepted event is done, drained or queued; what is done was flushed, failed or
without a tenant; and what storage has of a tenant came in the order of acceptance. -/
structure Books (q : AuditEventQueue) (done flushed failed drain ok : List QueuedEvent)
    (landed : String → List QueuedEvent) : Prop where
  accepted : q.accepted = done ++ (drain ++ q.queue)
  settled : done.Perm (flushed ++ failed ++ q.tenantless)
  flushedCount : q.flushedCount = flushed.length
  failedCount : q.failedCount = failed.length
  acknowledged : q.acknowledged.Perm (flushed ++ ok)
  stored : ∀ tenantId, (ofTenant tenantId q.bulkEvents).Sublist
    (ofTenant tenantId done ++ landed tenantId)

variable {cfg : Config} {q : AuditEventQueue} {done flushed failed held ok : List QueuedEvent}
  {landed : String → List QueuedEvent}

theorem bulkEvents_store (q : AuditEventQueue) (events : List QueuedEvent) :
    (q.store events true).bulkEvents = q.bulkEvents ++ events := by
  simp [bulkEvents, store, List.filter_map, Function.comp_def]

theorem bulkEvents_store_sync (q : AuditEventQueue) (events : List QueuedEvent) :
    (q.store events false).bulkEvents = q.bulkEvents := by
  simp [bulkEvents, store, List.filter_map, Function.comp_def]

/-- The books do not depend on what the flusher does next. -/
theorem Books.turn (h : Books q done flushed failed held ok landed) (flusher : Flusher)
    (stopping cancelled : Bool) :
    Books { q with flusher := flusher, stopping := stopping, cancelled := cancelled }
      done flushed failed held ok landed :=
  ⟨h.accepted, h.settled, h.flushedCount, h.failedCount, h.acknowledged, h.stored⟩

theorem Books.log (h : Books q done flushed failed held ok landed) (ev : QueuedEvent)
    (critical : Bool) (reply : Reply) :
    Books (q.logAction cfg ev critical reply) done flushed failed held ok landed := by
  cases hfull : q.full cfg with
  | false =>
    simp only [logAction, enqueue, hfull, Bool.false_eq_true, if_false]
    refine ⟨?_, h.settled, h.flushedCount, h.failedCount, h.acknowledged, h.stored⟩
    show q.accepted ++ [ev] = done ++ (held ++ (q.queue ++ [ev]))
    rw [h.accepted, List.append_assoc, List.append_assoc]
  | true =>
    cases critical with
    | false =>
      simp only [logAction, enqueue, hfull, if_true, Bool.false_eq_true, if_false, Bool.false_and]
      exact ⟨h.accepted, h.settled, h.flushedCount, h.failedCount, h.acknowledged, h.stored⟩
    | true =>
      simp only [logAction, enqueue, hfull, if_true, Bool.true_and]
      split
      · refine ⟨h.accepted, h.settled, h.flushedCount, h.failedCount, h.acknowledged, ?_⟩
        intro tenantId
        rw [bulkEvents_store_sync]
        exact h.stored tenantId
      · exact h

theorem Books.drain (h : Books q done flushed failed [] ok landed) :
    Books { q with queue := [] } done flushed failed q.queue ok landed :=
  ⟨by simpa using h.accepted, h.settled, h.flushedCount, h.failedCount, h.acknowledged, h.stored⟩

theorem Books.flushChunk (h : Books q done flushed failed held [] fun _ => []) (final : Bool) :
    let batch := Batch.start (held.take cfg.chunkSize)
    Books (q.flushChunk cfg held final) done flushed failed
      (batch.chunk ++ held.drop cfg.chunkSize) batch.okEvents batch.landed := by
  refine ⟨?_, h.settled, h.flushedCount, h.failedCount, ?_, fun tenantId => ?_⟩
  · show q.accepted = done ++ (held.take cfg.chunkSize ++ held.drop cfg.chunkSize ++ q.queue)
    rw [List.take_append_drop]
    exact h.accepted
  · rw [Batch.start_okEvents]
    exact h.acknowledged
  · exact (h.stored tenantId).trans ((List.nil_sublist _).append_left _)

theorem Books.land {batch : Batch} {rest : List QueuedEvent} {final : Bool}
    (h : Books q done flushed failed (batch.chunk ++ rest) batch.okEvents batch.landed)
    (hformed : batch.Formed) (hq : q.flusher = .flushing batch rest final) (tenantId : String)
    (outcome : Outcome) (carried : Bool) :
    Books (q.land tenantId outcome carried) done flushed failed (batch.chunk ++ rest)
      (batch.land tenantId outcome).okEvents (batch.land tenantId outcome).landed := by
  have hland : q.land tenantId outcome carried =
      { q.store (if outcome = .ok || carried then batch.inFlight tenantId else []) true with
        flusher := .flushing (batch.land tenantId outcome) rest final
        acknowledged :=
          if outcome = .ok then q.acknowledged ++ batch.inFlight tenantId
          else q.acknowledged } := by
    simp only [AuditEventQueue.land, hq]
    rfl
  rw [hland]
  refine ⟨h.accepted, h.settled, h.flushedCount, h.failedCount, ?_, fun other => ?_⟩
  · dsimp only
    split
    · next hok =>
      subst hok
      refine (h.acknowledged.append_right _).trans ?_
      rw [List.append_assoc]
      exact (Batch.okEvents_land_ok batch tenantId).symm.append_left flushed
    · next hne =>
      rw [Batch.okEvents_land_of_ne batch tenantId hne]
      exact h.acknowledged
  · have hmono : (ofTenant other q.bulkEvents).Sublist
        (ofTenant other done ++ (batch.land tenantId outcome).landed other) :=
      (h.stored other).trans ((Batch.landed_mono batch tenantId other outcome).append_left _)
    refine (congrArg (ofTenant other) (bulkEvents_store q _)).symm ▸ ?_
    rw [ofTenant, List.filter_append]
    rcases hformed.inFlight_cases tenantId with hnone | ⟨hall, hbefore, hafter⟩
    · rw [hnone, ite_self, List.filter_nil, List.append_nil]
      exact hmono
    · rw [hall]
      by_cases hother : other = tenantId
      · subst hother
        have hold : (ofTenant other q.bulkEvents).Sublist (ofTenant other done) := by
          simpa [hbefore] using h.stored other
        rw [hafter outcome]
        refine hold.append ?_
        split
        · exact List.filter_sublist
        · exact List.nil_sublist _
      · -- events of one tenant are none of another's
        have hnone : (ofTenant tenantId batch.chunk).filter (fun ev => ev.key = some other) = [] := by
          refine List.filter_eq_nil_iff.mpr fun ev hev hkey => hother ?_
          have hthis : ev.key = some tenantId := of_decide_eq_true (List.mem_filter.mp hev).2
          exact Option.some.inj ((of_decide_eq_true hkey).symm.trans hthis)
        have hskip : (if (outcome = .ok || carried) = true then ofTenant tenantId batch.chunk
            else []).filter (fun ev => ev.key = some other) = [] := by
          split
          · exact hnone
          · rfl
        rw [hskip, List.append_nil]
        exact hmono

theorem Books.account {batch : Batch} {rest : List QueuedEvent}
    (h : Books q done flushed failed (batch.chunk ++ rest) batch.okEvents batch.landed)
    (hformed : batch.Formed) :
    Books (q.account batch batch.failedEvents.length) (done ++ batch.chunk)
      (flushed ++ batch.okEvents) (failed ++ batch.failedEvents) rest [] fun _ => [] where
  accepted := by
    show q.accepted = done ++ batch.chunk ++ (rest ++ q.queue)
    rw [h.accepted, List.append_assoc, List.append_assoc]
  settled := by
    show (done ++ batch.chunk).Perm (flushed ++ batch.okEvents ++ (failed ++ batch.failedEvents) ++
      (q.tenantless ++ sentinelEvents batch.chunk))
    refine List.perm_iff_count.mpr fun ev => ?_
    have hdone := h.settled.count_eq ev
    have hchunk := hformed.perm.count_eq ev
    have hparts := batch.parts_perm.count_eq ev
    simp only [List.count_append] at hdone hchunk hparts ⊢
    omega
  flushedCount := by
    show q.flushedCount + (batch.chunk.length - (batch.failedEvents.length : ℕ)) -
      batch.sentinelCount = ((flushed ++ batch.okEvents).length : ℤ)
    have hlength := hformed.length_eq
    rw [h.flushedCount, List.length_append]
    omega
  failedCount := by
    show q.failedCount + (batch.failedEvents.length : ℕ) = _
    rw [h.failedCount, List.length_append, Nat.cast_add]
  acknowledged := by
    rw [List.append_nil]
    exact h.acknowledged
  stored tenantId := by
    have hdone : ofTenant tenantId (done ++ batch.chunk) =
        ofTenant tenantId done ++ ofTenant tenantId batch.chunk := List.filter_append ..
    rw [List.append_nil, hdone]
    exact (h.stored tenantId).trans ((batch.landed_sublist tenantId).append_left _)

def Balanced (q : AuditEventQueue) (held ok : List QueuedEvent)
    (landed : String → List QueuedEvent) : Prop :=
  ∃ done flushed failed, Books q done flushed failed held ok landed

def Inv (cfg : Config) (q : AuditEventQueue) : Prop :=
  match q.flusher with
  | .waiting => q.cancelled = false ∧ q.Balanced [] [] fun _ => []
  | .flushing batch rest _ =>
    q.cancelled = false ∧ cfg.chunkSize ≠ 0 ∧ batch.Formed ∧
      q.Balanced (batch.chunk ++ rest) batch.okEvents batch.landed
  | .ended rest => q.Balanced rest [] fun _ => []

/-- A tick does not drain events into chunks of size zero, and a cancellation that meets a
flush finds it acknowledged for all of its tenants. -/
def Permitted (cfg : Config) (q : AuditEventQueue) : Event → Prop
  | .tick => q.flusher = .waiting → cfg.chunkSize = 0 → q.queue = []
  | .cancel _ => ∀ batch rest final, q.flusher = .flushing batch rest final →
      ∀ f ∈ batch.flushes, f.outcome = some .ok
  | _ => True

theorem Balanced.turn (h : q.Balanced held ok landed) (flusher : Flusher)
    (stopping cancelled : Bool) :
    Balanced { q with flusher := flusher, stopping := stopping, cancelled := cancelled }
      held ok landed :=
  let ⟨done, flushed, failed, hbooks⟩ := h
  ⟨done, flushed, failed, hbooks.turn flusher stopping cancelled⟩

theorem inv_flushChunk (hlive : q.cancelled = false) (hsize : cfg.chunkSize ≠ 0)
    (h : q.Balanced held [] fun _ => []) (final : Bool) : Inv cfg (q.flushChunk cfg held final) :=
  let ⟨done, flushed, failed, hbooks⟩ := h
  ⟨hlive, hsize, Batch.start_formed _, done, flushed, failed, hbooks.flushChunk final⟩

theorem balanced_drain (h : q.Balanced [] [] fun _ => []) :
    Balanced { q with queue := [] } q.queue [] fun _ => [] :=
  let ⟨done, flushed, failed, hbooks⟩ := h
  ⟨done, flushed, failed, hbooks.drain⟩

theorem inv_finalDrain (hlive : q.cancelled = false) (h : q.Balanced [] [] fun _ => [])
    (hsize : cfg.chunkSize = 0 → q.queue = []) : Inv cfg (q.finalDrain cfg) := by
  have hdrain := balanced_drain h
  unfold finalDrain
  split
  · next hempty =>
    have hnone : q.queue = [] := hempty.elim id hsize
    rw [hnone] at hdrain
    exact hdrain.turn (.ended []) q.stopping q.cancelled
  · next hsome =>
    obtain ⟨-, hchunk⟩ := not_or.mp hsome
    exact inv_flushChunk (q := { q with queue := [] }) hlive hchunk hdrain true

theorem inv_drained (hlive : q.cancelled = false) (h : q.Balanced [] [] fun _ => [])
    (hsize : cfg.chunkSize = 0 → q.queue = []) (final : Bool) : Inv cfg (q.drained cfg final) := by
  unfold drained
  split
  · exact h.turn (.ended []) q.stopping q.cancelled
  · split
    · exact inv_finalDrain hlive h hsize
    · exact ⟨hlive, h.turn .waiting q.stopping q.cancelled⟩

theorem Inv.log (h : Inv cfg q) (ev : QueuedEvent) (critical : Bool) (reply : Reply) :
    Inv cfg (q.logAction cfg ev critical reply) := by
  have hturn : (q.logAction cfg ev critical reply).flusher = q.flusher ∧
      (q.logAction cfg ev critical reply).cancelled = q.cancelled := by
    unfold logAction enqueue
    cases q.full cfg with
    | false => exact ⟨rfl, rfl⟩
    | true =>
      cases critical with
      | false => exact ⟨rfl, rfl⟩
      | true =>
        simp only [if_true, Bool.true_and]
        split
        · exact ⟨rfl, rfl⟩
        · exact ⟨rfl, rfl⟩
  have hbooks : ∀ {held ok landed}, q.Balanced held ok landed →
      (q.logAction cfg ev critical reply).Balanced held ok landed :=
    fun ⟨done, flushed, failed, hold⟩ => ⟨done, flushed, failed, hold.log ev critical reply⟩
  unfold Inv at h ⊢
  rw [hturn.1, hturn.2]
  split at h
  · exact ⟨h.1, hbooks h.2⟩
  · exact ⟨h.1, h.2.1, h.2.2.1, hbooks h.2.2.2⟩
  · exact hbooks h

theorem Inv.stop (h : Inv cfg q) : Inv cfg { q with stopping := true } := by
  unfold Inv at h ⊢
  dsimp only
  split at h
  · exact ⟨h.1, h.2.turn q.flusher true q.cancelled⟩
  · exact ⟨h.1, h.2.1, h.2.2.1, h.2.2.2.turn q.flusher true q.cancelled⟩
  · exact h.turn q.flusher true q.cancelled

theorem Inv.tick (h : Inv cfg q) (hok : Permitted cfg q .tick) : Inv cfg (q.tick cfg) := by
  cases hq : q.flusher with
  | flushing batch rest final => simpa only [AuditEventQueue.tick, hq] using h
  | ended rest => simpa only [AuditEventQueue.tick, hq] using h
  | waiting =>
    obtain ⟨hlive, hbalanced⟩ : q.cancelled = false ∧ q.Balanced [] [] fun _ => [] := by
      simpa only [Inv, hq] using h
    have hdrain := balanced_drain hbalanced
    simp only [AuditEventQueue.tick, hq]
    split
    · next hempty =>
      have hnone : q.queue = [] := hempty.elim id (hok hq)
      rw [hnone] at hdrain
      exact inv_drained (q := { q with queue := [] }) hlive hdrain (fun _ => rfl) false
    · next hsome =>
      obtain ⟨-, hchunk⟩ := not_or.mp hsome
      exact inv_flushChunk (q := { q with queue := [] }) hlive hchunk hdrain false

theorem Inv.land (h : Inv cfg q) (tenantId : String) (outcome : Outcome) (carried : Bool) :
    Inv cfg (q.land tenantId outcome carried) := by
  cases hq : q.flusher with
  | waiting => simpa only [AuditEventQueue.land, hq] using h
  | ended rest => simpa only [AuditEventQueue.land, hq] using h
  | flushing batch rest final =>
    obtain ⟨hlive, hsize, hformed, done, flushed, failed, hbooks⟩ : q.cancelled = false ∧
        cfg.chunkSize ≠ 0 ∧ batch.Formed ∧
          q.Balanced (batch.chunk ++ rest) batch.okEvents batch.landed := by
      simpa only [Inv, hq] using h
    have hnext := hbooks.land hformed hq tenantId outcome carried
    simp only [AuditEventQueue.land, hq] at hnext ⊢
    exact ⟨hlive, hsize, hformed.land tenantId outcome, done, flushed, failed, hnext⟩

theorem Inv.settle (h : Inv cfg q) : Inv cfg (q.settle cfg) := by
  cases hq : q.flusher with
  | waiting => simpa only [AuditEventQueue.settle, hq] using h
  | ended rest => simpa only [AuditEventQueue.settle, hq] using h
  | flushing batch rest final =>
    obtain ⟨hlive, hsize, hformed, done, flushed, failed, hbooks⟩ : q.cancelled = false ∧
        cfg.chunkSize ≠ 0 ∧ batch.Formed ∧
          q.Balanced (batch.chunk ++ rest) batch.okEvents batch.landed := by
      simpa only [Inv, hq] using h
    have hnext : (q.account batch batch.totalFailedEvents).Balanced rest [] fun _ => [] :=
      ⟨_, _, _, batch.totalFailedEvents_eq ▸ hbooks.account hformed⟩
    simp only [AuditEventQueue.settle, hq]
    split
    · exact h
    · split
      · exact hnext.turn (.ended rest) _ true
      · split
        · next hrest =>
          subst hrest
          exact inv_drained (q := q.account batch batch.totalFailedEvents) hlive hnext
            (fun hzero => absurd hzero hsize) final
        · exact inv_flushChunk (q := q.account batch batch.totalFailedEvents) hlive hsize hnext
            final

theorem Inv.cancel (h : Inv cfg q) (carried : List String)
    (hok : Permitted cfg q (.cancel carried)) : Inv cfg (q.cancel carried) := by
  cases hq : q.flusher with
  | ended rest => simpa only [AuditEventQueue.cancel, hq] using h
  | waiting =>
    obtain ⟨-, hbalanced⟩ : q.cancelled = false ∧ q.Balanced [] [] fun _ => [] := by
      simpa only [Inv, hq] using h
    simp only [AuditEventQueue.cancel, hq]
    exact hbalanced.turn (.ended []) q.stopping true
  | flushing batch rest final =>
    obtain ⟨-, -, hformed, done, flushed, failed, hbooks⟩ : q.cancelled = false ∧
        cfg.chunkSize ≠ 0 ∧ batch.Formed ∧
          q.Balanced (batch.chunk ++ rest) batch.okEvents batch.landed := by
      simpa only [Inv, hq] using h
    have hall : ∀ f ∈ batch.flushes, f.outcome = some .ok := hok batch rest final hq
    -- nothing is in flight any more, so the cancellation stores nothing
    have hnone : carried.dedup.flatMap batch.inFlight = [] := by
      refine List.flatMap_eq_nil_iff.mpr fun tenantId _ => ?_
      have hpending : batch.flushes.filter (Flush.pendingFor tenantId) = [] :=
        List.filter_eq_nil_iff.mpr fun f hf => by simp [Flush.pendingFor, hall f hf]
      rw [Batch.inFlight, hpending]
      rfl
    have hstored : q.store [] true = q := by simp [store]
    have hnext := hbooks.account hformed
    rw [Batch.failedEvents_eq_nil hall] at hnext
    simp only [AuditEventQueue.cancel, hq, hnone, hstored]
    exact (show Balanced _ _ _ _ from ⟨_, _, _, hnext⟩).turn (.ended rest) q.stopping true

theorem Inv.next (h : Inv cfg q) {event : Event} (hok : Permitted cfg q event) :
    Inv cfg (next cfg q event) := by
  cases event with
  | log ev critical reply => exact h.log ev critical reply
  | tick => exact h.tick hok
  | land tenantId outcome carried => exact h.land tenantId outcome carried
  | settle => exact h.settle
  | stop => exact h.stop
  | cancel carried => exact h.cancel carried hok

def drain (q : AuditEventQueue) : List QueuedEvent :=
  match q.flusher with
  | .waiting => []
  | .flushing batch rest _ => batch.chunk ++ rest
  | .ended rest => rest

/-- What the counters and storage say: no more was flushed than was acknowledged; unless it was
cancelled, each accepted event is flushed, failed, without a tenant, drained or queued, once;
and the events of a tenant reach storage in the order of acceptance. -/
structure Accounts (q : AuditEventQueue) : Prop where
  flushed_le : q.flushedCount ≤ q.acknowledged.length
  balance : q.cancelled = false → ∃ flushed failed : List QueuedEvent,
    q.flushedCount = flushed.length ∧ q.failedCount = failed.length ∧
      flushed.Subperm q.acknowledged ∧
      q.accepted.Perm (flushed ++ failed ++ q.tenantless ++ (q.drain ++ q.queue))
  order : ∀ tenantId, (ofTenant tenantId q.bulkEvents).Sublist (ofTenant tenantId q.accepted)

theorem Books.accounts (h : Books q done flushed failed q.drain ok landed)
    (hlanded : ∀ tenantId, (landed tenantId).Sublist (ofTenant tenantId q.drain)) :
    q.Accounts where
  flushed_le := by
    have hlength := h.acknowledged.length_eq
    rw [List.length_append] at hlength
    rw [h.flushedCount]
    omega
  balance _ := by
    refine ⟨flushed, failed, h.flushedCount, h.failedCount, ?_, ?_⟩
    · exact (List.sublist_append_left flushed ok).subperm.trans h.acknowledged.symm.subperm
    · rw [h.accepted]
      exact h.settled.append_right _
  order tenantId := by
    have hsplit : ofTenant tenantId q.accepted = ofTenant tenantId done ++
        (ofTenant tenantId q.drain ++ ofTenant tenantId q.queue) := by
      rw [h.accepted, ofTenant, List.filter_append, List.filter_append]
      rfl
    rw [hsplit]
    refine (h.stored tenantId).trans (List.Sublist.append_left ?_ _)
    exact (hlanded tenantId).trans (List.sublist_append_left _ _)

theorem Inv.accounts (h : Inv cfg q) : q.Accounts := by
  unfold Inv at h
  cases hq : q.flusher with
  | waiting =>
    rw [hq] at h
    obtain ⟨-, done, flushed, failed, hbooks⟩ := h
    have hdrain : q.drain = [] := by rw [drain, hq]
    rw [← hdrain] at hbooks
    exact hbooks.accounts fun _ => hdrain ▸ List.nil_sublist _
  | flushing batch rest final =>
    rw [hq] at h
    obtain ⟨-, -, -, done, flushed, failed, hbooks⟩ := h
    have hdrain : q.drain = batch.chunk ++ rest := by rw [drain, hq]
    refine Books.accounts (hdrain ▸ hbooks) fun tenantId => ?_
    rw [hdrain, ofTenant, List.filter_append]
    exact (batch.landed_sublist tenantId).trans (List.sublist_append_left _ _)
  | ended rest =>
    rw [hq] at h
    obtain ⟨done, flushed, failed, hbooks⟩ := h
    have hdrain : q.drain = rest := by rw [drain, hq]
    exact Books.accounts (hdrain ▸ hbooks) fun _ => List.nil_sublist _

theorem Inv.tick_permitted (h : Inv cfg q) (haccounts : (q.tick cfg).Accounts) :
    Permitted cfg q .tick := by
  -- Drained into chunks of size zero, events are in no account.
  intro hq hsize
  obtain ⟨hlive, done, flushed, failed, hbooks⟩ : q.cancelled = false ∧
      q.Balanced [] [] fun _ => [] := by
    simpa only [Inv, hq] using h
  -- the tick leaves all the books as they are but the queue
  have hticked : (q.tick cfg).accepted = q.accepted ∧ (q.tick cfg).tenantless = q.tenantless ∧
      (q.tick cfg).flushedCount = q.flushedCount ∧ (q.tick cfg).failedCount = q.failedCount ∧
      (q.tick cfg).cancelled = q.cancelled ∧ (q.tick cfg).drain = [] ∧ (q.tick cfg).queue = [] := by
    cases hstop : q.stopping <;>
      simp [AuditEventQueue.tick, hq, hsize, drained, finalDrain, hstop, drain]
  obtain ⟨haccepted, htenantless, hflushed, hfailed, hcancelled, hdrain, hqueue⟩ := hticked
  obtain ⟨flushed', failed', hflushed', hfailed', -, hperm⟩ :=
    haccounts.balance (hcancelled.trans hlive)
  have hlength := hperm.length_eq
  have hdone := hbooks.settled.length_eq
  rw [hflushed, hbooks.flushedCount] at hflushed'
  rw [hfailed, hbooks.failedCount] at hfailed'
  rw [haccepted, hbooks.accepted, htenantless, hdrain, hqueue] at hlength
  simp only [List.length_append, List.length_nil] at hlength hdone
  refine List.length_eq_zero_iff.mp ?_
  omega

theorem Inv.cancel_permitted (h : Inv cfg q) (carried : List String)
    (haccounts : (q.cancel carried).Accounts) : Permitted cfg q (.cancel carried) := by
  -- A cancelled flush is counted as flushed with the tenants that were not acknowledged.
  intro batch rest final hq
  obtain ⟨-, -, hformed, done, flushed, failed, hbooks⟩ : q.cancelled = false ∧
      cfg.chunkSize ≠ 0 ∧ batch.Formed ∧
        q.Balanced (batch.chunk ++ rest) batch.okEvents batch.landed := by
    simpa only [Inv, hq] using h
  refine hformed.outcome_of_nil (List.length_eq_zero_iff.mp ?_)
  have hcounts : q.flushedCount + (batch.chunk.length - (0 : ℕ)) - batch.sentinelCount ≤
      (q.acknowledged.length : ℤ) := by
    have hle := haccounts.flushed_le
    simp only [AuditEventQueue.cancel, hq] at hle
    exact hle
  have hchunk := hformed.length_eq
  have hacknowledged := hbooks.acknowledged.length_eq
  rw [List.length_append] at hacknowledged
  rw [hbooks.flushedCount] at hcounts
  omega

theorem inv_empty : Inv cfg {} :=
  ⟨rfl, [], [], [], rfl, List.Perm.refl _, rfl, rfl, List.Perm.refl _, fun _ => List.Sublist.refl _⟩

end AuditEventQueue

open AuditEventQueue in
/-- The accounts are right after every step of a run exactly when no tick drains events into
chunks of size zero, and no cancellation meets a flush that is not acknowledged for all of its
tenants. -/
theorem accounts_iff (cfg : Config) (events : List Event) :
    (∀ past, past <+: events → (run (next cfg) {} past).Accounts) ↔
      Along (next cfg) (Permitted cfg) {} events := by
  have hempty : Inv cfg {} := inv_empty
  rw [← Along.iff_prefix (P := Accounts) hempty.accounts]
  refine Along.iff_shown (I := Inv cfg) (fun q event h hok => h.next hok)
    (fun q h => h.accounts) (fun q event h haccounts => ?_) hempty
  cases event with
  | tick => exact h.tick_permitted haccounts
  | cancel carried => exact h.cancel_permitted carried haccounts
  | log ev critical reply => trivial
  | land tenantId outcome carried => trivial
  | settle => trivial
  | stop => trivial

/-- The flusher is cancelled while the only event is on its way to storage, which never gets
it; the event counts as flushed. -/
theorem cancelled_counts_as_flushed :
    ¬ ∀ (cfg : Config) (events past : List Event), past <+: events →
      (run (next cfg) {} past).Accounts := by
  intro h
  have haccounts := h ⟨10000, 500⟩
    [.log ⟨some "t", "e"⟩ false .ok, .tick, .stop, .cancel []] _ List.prefix_rfl
  exact absurd haccounts.flushed_le (by decide)

end Memclaw.Audit.Queue
