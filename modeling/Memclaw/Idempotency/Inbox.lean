import Memclaw.Idempotency.InboxDefs

/-! Safety of the idempotency inbox under every interleaving: what is replayed was recorded
for the same tenant, key and body, and a claim is granted only after the last row for its
key has expired. -/

namespace Memclaw.Idempotency

open Memclaw.Lib Memclaw.Lib.Interleave Memclaw.Api

def ReplayRecorded (s : Inbox) : Party → Prop
  | .request req (.replayed response) =>
    ⟨req.tenantId, req.key, req.requestHash, response⟩ ∈ s.recorded
  | _ => True

def Party.handling : Party → Bool
  | .request _ (.handling _) => true
  | _ => false

def Inbox.Free (s : Inbox) (tenantId key : String) : Prop :=
  (∀ row, s.rows tenantId key = some row → row.expiresAt ≤ s.now) ∧
    ∀ expiresAt, s.lastExpiry tenantId key = some expiresAt → expiresAt ≤ s.now

def BeginsFree (s : Inbox) (before after : Party) : Prop :=
  ∀ req state, before = .request req state → before.handling = false → after.handling = true →
    s.Free req.tenantId req.key

@[simp] theorem setAt_same {α : Type} (f : String → String → α) (tenantId key : String) (value : α) :
    setAt f tenantId key value tenantId key = value := by
  simp [setAt]

theorem setAt_other {α : Type} (f : String → String → α) {tenantId key tenant k : String} (value : α)
    (h : ¬ (tenant = tenantId ∧ k = key)) : setAt f tenantId key value tenant k = f tenant k := by
  simp [setAt, h]

theorem idempotencyGet_eq_some {s : Inbox} {tenantId key : String} {row : Row}
    (h : s.idempotencyGet tenantId key = some row) : s.rows tenantId key = some row := by
  unfold Inbox.idempotencyGet at h
  exact (Option.filter_eq_some_iff.mp h).1

theorem expired_of_idempotencyGet_none {s : Inbox} {tenantId key : String}
    (h : s.idempotencyGet tenantId key = none) {row : Row} (hrow : s.rows tenantId key = some row) :
    row.expiresAt ≤ s.now := by
  unfold Inbox.idempotencyGet at h
  rw [hrow, Option.filter_some] at h
  by_contra hlt
  have hlive : s.live row = true := by
    unfold Inbox.live
    exact decide_eq_true (Int.not_le.mp hlt)
  rw [if_pos hlive] at h
  simp at h

structure Inbox.Sound (s : Inbox) : Prop where
  recorded : ∀ tenantId key row, s.rows tenantId key = some row → row.isPending = false →
    ⟨tenantId, key, row.requestHash, row.response⟩ ∈ s.recorded
  last : ∀ tenantId key expiresAt, s.lastExpiry tenantId key = some expiresAt →
    expiresAt ≤ s.now ∨ ∃ row, s.rows tenantId key = some row ∧ row.expiresAt = expiresAt

theorem sound_empty (now : Int) : (Inbox.empty now).Sound :=
  ⟨fun _ _ _ h => by simp [Inbox.empty] at h, fun _ _ _ h => by simp [Inbox.empty] at h⟩

theorem Inbox.Sound.put {s : Inbox} (h : s.Sound) (tenantId key : String) {row : Row}
    {recorded : List Recorded} (hgrow : s.recorded ⊆ recorded)
    (hrow : row.isPending = false →
      ⟨tenantId, key, row.requestHash, row.response⟩ ∈ recorded) :
    { s.put tenantId key row with recorded := recorded }.Sound := by
  constructor
  · intro tenant k r hr hdone
    by_cases hkey : tenant = tenantId ∧ k = key
    · obtain ⟨rfl, rfl⟩ := hkey
      obtain rfl : row = r := by simpa [Inbox.put] using hr
      exact hrow hdone
    · have hold : s.rows tenant k = some r := by
        simpa [Inbox.put, setAt_other _ _ hkey] using hr
      exact hgrow (h.recorded tenant k r hold hdone)
  · intro tenant k expiresAt he
    by_cases hkey : tenant = tenantId ∧ k = key
    · obtain ⟨rfl, rfl⟩ := hkey
      right
      exact ⟨row, by simp [Inbox.put], by simpa [Inbox.put] using he⟩
    · have hold : s.lastExpiry tenant k = some expiresAt := by
        simpa [Inbox.put, setAt_other _ _ hkey] using he
      rcases h.last tenant k expiresAt hold with hexpired | ⟨r, hr, hexp⟩
      · exact .inl hexpired
      · exact .inr ⟨r, by simpa [Inbox.put, setAt_other _ _ hkey] using hr, hexp⟩

theorem Inbox.Sound.claim {s s' : Inbox} (h : s.Sound) {tenantId key requestHash : String}
    {expiresAt : Int} (hclaim : s.idempotencyClaim tenantId key requestHash expiresAt = some s') :
    s'.Sound := by
  unfold Inbox.idempotencyClaim at hclaim
  split at hclaim
  · simp at hclaim
  · obtain rfl := Option.some.inj hclaim
    exact h.put tenantId key (List.Subset.refl _) (by simp [pendingRow])

theorem Inbox.Sound.record {s : Inbox} (h : s.Sound) (tenantId key requestHash : String)
    (response : Response) (expiresAt : Int) :
    (s.record tenantId key requestHash response expiresAt).Sound :=
  h.put tenantId key (List.subset_cons_self _ _) fun _ => List.mem_cons_self

theorem Inbox.Sound.advance {s : Inbox} (h : s.Sound) (elapsed : ℕ) :
    { s with now := s.now + elapsed }.Sound := by
  refine ⟨h.recorded, fun tenantId key expiresAt he => ?_⟩
  rcases h.last tenantId key expiresAt he with hexpired | hrow
  · left
    change expiresAt ≤ s.now + elapsed
    omega
  · exact .inr hrow

theorem Inbox.Sound.prune {s : Inbox} (h : s.Sound) (among : String → String → Bool) :
    (s.prune among).Sound := by
  constructor
  · intro tenantId key row hrow hdone
    exact h.recorded tenantId key row (Option.filter_eq_some_iff.mp hrow).1 hdone
  · intro tenantId key expiresAt he
    rcases h.last tenantId key expiresAt he with hexpired | ⟨row, hrow, hexp⟩
    · exact .inl hexpired
    · by_cases hlive : s.live row = true
      · right
        refine ⟨row, ?_, hexp⟩
        exact Option.filter_eq_some_iff.mpr ⟨hrow, by simp [hlive]⟩
      · left
        rw [← hexp]
        change row.expiresAt ≤ s.now
        simpa [Inbox.live] using hlive

theorem replayRecorded_of {s : Inbox} {req : IdemRequest} {state : Guard}
    (h : ∀ response, state = .replayed response →
      ⟨req.tenantId, req.key, req.requestHash, response⟩ ∈ s.recorded) :
    ReplayRecorded s (.request req state) := by
  cases state with
  | replayed response => exact h response rfl
  | _ => exact True.intro

theorem replayRecorded_row {s : Inbox} (h : s.Sound) {req : IdemRequest} {state : Guard}
    (hstate : ∀ response, state = .replayed response →
      ∃ row, s.idempotencyGet req.tenantId req.key = some row ∧ row.isPending = false ∧
        row.requestHash = req.requestHash ∧ row.response = response) :
    ReplayRecorded s (.request req state) := by
  -- A completed row of the same hash is what may be replayed.
  refine replayRecorded_of fun response hreplayed => ?_
  obtain ⟨row, hrow, hdone, hsame, rfl⟩ := hstate response hreplayed
  have hrec := h.recorded _ _ row (idempotencyGet_eq_some hrow) hdone
  rwa [hsame] at hrec

theorem replay_replayed {req : IdemRequest} {row : Row} {response : Response}
    (h : req.replay row = .replayed response) :
    row.requestHash = req.requestHash ∧ row.response = response := by
  unfold IdemRequest.replay at h
  split at h
  · exact nomatch h
  · next hhash => exact ⟨not_not.mp hhash, Guard.replayed.inj h⟩

theorem replayRecorded_afterLookup {s : Inbox} (h : s.Sound) (req : IdemRequest) :
    ReplayRecorded s (.request req (req.afterLookup (s.idempotencyGet req.tenantId req.key))) := by
  refine replayRecorded_row h fun response hreplayed => ?_
  cases hrow : s.idempotencyGet req.tenantId req.key with
  | none =>
    rw [hrow] at hreplayed
    exact nomatch hreplayed
  | some row =>
    rw [hrow] at hreplayed
    unfold IdemRequest.afterLookup at hreplayed
    dsimp only at hreplayed
    split at hreplayed
    · split at hreplayed <;> exact nomatch hreplayed
    · next hpending =>
      exact ⟨row, rfl, (Bool.not_eq_true _).mp hpending, replay_replayed hreplayed⟩

theorem replayRecorded_afterConflict {s : Inbox} (h : s.Sound) (req : IdemRequest) :
    ReplayRecorded s
      (.request req (req.afterConflict (s.idempotencyGet req.tenantId req.key))) := by
  refine replayRecorded_row h fun response hreplayed => ?_
  cases hrow : s.idempotencyGet req.tenantId req.key with
  | none =>
    rw [hrow] at hreplayed
    exact nomatch hreplayed
  | some row =>
    rw [hrow] at hreplayed
    unfold IdemRequest.afterConflict at hreplayed
    dsimp only at hreplayed
    split at hreplayed
    · exact nomatch hreplayed
    · next hhash =>
      split at hreplayed
      · exact nomatch hreplayed
      · next hpending =>
        exact ⟨row, rfl, (Bool.not_eq_true _).mp hpending, not_not.mp hhash,
          Guard.replayed.inj hreplayed⟩

theorem replayRecorded_afterPoll {s : Inbox} (h : s.Sound) (req : IdemRequest) (attempt : ℕ) :
    ReplayRecorded s
      (.request req (req.afterPoll attempt (s.idempotencyGet req.tenantId req.key))) := by
  refine replayRecorded_row h fun response hreplayed => ?_
  cases hrow : s.idempotencyGet req.tenantId req.key with
  | none =>
    rw [hrow] at hreplayed
    exact nomatch hreplayed
  | some row =>
    rw [hrow] at hreplayed
    unfold IdemRequest.afterPoll at hreplayed
    dsimp only at hreplayed
    split at hreplayed
    · split at hreplayed <;> exact nomatch hreplayed
    · next hpending =>
      exact ⟨row, rfl, (Bool.not_eq_true _).mp hpending, replay_replayed hreplayed⟩

theorem ReplayRecorded.mono {s s' : Inbox} (h : s.recorded ⊆ s'.recorded) {p : Party}
    (hp : ReplayRecorded s p) : ReplayRecorded s' p := by
  unfold ReplayRecorded at *
  split
  · next req response => exact h hp
  · trivial

/-- What one turn of a request may do: keep the inbox and look, take a free key, or record. -/
inductive Does (s : Inbox) (req : IdemRequest) (reply : Reply) : Guard → Guard → Inbox → Prop
  | look {state state' : Guard} :
      ReplayRecorded s (.request req state') →
      ((∃ granted, state' = .handling granted) →
        (∃ granted, state = .handling granted) ∨ reply ≠ .ok) →
      Does s req reply state state' s
  | claim {granted : Bool} {s' : Inbox} {expiresAt : Int} :
      s.idempotencyClaim req.tenantId req.key req.requestHash expiresAt = some s' →
      Does s req reply .claim (.handling granted) s'
  | record {state : Guard} {response : Response} {expiresAt : Int} :
      Does s req reply state (.answered response)
        (s.record req.tenantId req.key req.requestHash response expiresAt)

theorem requestTurn_does (chars : CharData) (settings : Settings) {s : Inbox} (h : s.Sound)
    (req : IdemRequest) (a : Answer) {state : Guard} (hstate : ReplayRecorded s (.request req state)) :
    Does s req a.reply state (requestTurn chars settings req a s state).1
      (requestTurn chars settings req a s state).2 := by
  -- the looks of a guard never begin a handler
  have hlook : ∀ {state' : Guard}, ReplayRecorded s (.request req state') →
      (∀ granted, state' ≠ .handling granted) → Does s req a.reply state state' s :=
    fun hrec hnot => .look hrec fun ⟨granted, heq⟩ => absurd heq (hnot granted)
  have hdegrade : a.reply ≠ .ok → Does s req a.reply state (.handling false) s :=
    fun hreply => .look trivial fun _ => .inr hreply
  cases state with
  | start =>
    refine hlook ?_ fun granted => ?_
    · simp only [requestTurn, IdemRequest.validate]
      split_ifs <;> trivial
    · simp only [requestTurn, IdemRequest.validate]
      split_ifs <;> simp
  | lookup =>
    simp only [requestTurn]
    split
    · refine hlook (replayRecorded_afterLookup h req) fun granted => ?_
      unfold IdemRequest.afterLookup IdemRequest.replay
      split
      · simp
      · split_ifs <;> simp
    · next hreply => exact hdegrade hreply
  | claim =>
    cases hclaim : s.idempotencyClaim req.tenantId req.key req.requestHash
        (a.serverNow + settings.pendingTtl) with
    | none =>
      cases hreply : a.reply with
      | ok =>
        have hconflict : Does s req a.reply .claim .conflict s := hlook trivial (by simp)
        simpa only [requestTurn, hclaim, hreply] using hconflict
      | refused | lost =>
        simp only [requestTurn, hclaim, hreply]
        exact hreply ▸ hdegrade (by simp [hreply])
    | some s' =>
      cases hreply : a.reply with
      | refused =>
        simp only [requestTurn, hclaim, hreply]
        exact hreply ▸ hdegrade (by simp [hreply])
      | ok | lost =>
        simp only [requestTurn, hclaim, hreply]
        exact .claim hclaim
  | conflict =>
    simp only [requestTurn]
    split
    · refine hlook (replayRecorded_afterConflict h req) fun granted => ?_
      unfold IdemRequest.afterConflict
      split
      · simp
      · split_ifs <;> simp
    · next hreply => exact hdegrade hreply
  | poll attempt =>
    simp only [requestTurn]
    split
    · refine hlook (replayRecorded_afterPoll h req attempt) fun granted => ?_
      unfold IdemRequest.afterPoll IdemRequest.replay
      split
      · simp
      · split_ifs <;> simp
    · exact hlook trivial (by simp)
  | handling granted =>
    simp only [requestTurn]
    split <;> exact hlook trivial (by simp)
  | recording response =>
    simp only [requestTurn]
    split
    · exact hlook trivial (by simp)
    · split
      · next s' hupdate =>
        unfold Inbox.recordUpdate at hupdate
        split at hupdate
        · split_ifs at hupdate
          obtain rfl := Option.some.inj hupdate
          exact .record
        · simp at hupdate
      · exact hlook trivial (by simp)
  | inserting response =>
    simp only [requestTurn]
    split
    · exact hlook trivial (by simp)
    · split
      · next s' hinsert =>
        unfold Inbox.recordInsert at hinsert
        split at hinsert
        · simp at hinsert
        · obtain rfl := Option.some.inj hinsert
          exact .record
      · exact hlook trivial (by simp)
  | checking response => exact hlook trivial (by simp [requestTurn])
  | unguarded =>
    simp only [requestTurn]
    split <;> exact hlook trivial (by simp)
  | answered response => exact hlook trivial (by simp [requestTurn])
  | replayed response => exact hlook hstate (by simp [requestTurn])
  | raised e => exact hlook trivial (by simp [requestTurn])

theorem Does.sound {s s' : Inbox} {req : IdemRequest} {reply : Reply} {state state' : Guard}
    (h : s.Sound) (hd : Does s req reply state state' s') : s'.Sound := by
  cases hd with
  | look _ _ => exact h
  | claim hclaim => exact h.claim hclaim
  | record => exact h.record _ _ _ _ _

theorem Does.recorded_subset {s s' : Inbox} {req : IdemRequest} {reply : Reply} {state state' : Guard}
    (hd : Does s req reply state state' s') : s.recorded ⊆ s'.recorded := by
  cases hd with
  | look _ _ => exact List.Subset.refl _
  | claim hclaim =>
    unfold Inbox.idempotencyClaim at hclaim
    split at hclaim
    · simp at hclaim
    · obtain rfl := Option.some.inj hclaim
      exact List.Subset.refl _
  | record => exact List.subset_cons_self _ _

theorem Does.replayRecorded {s s' : Inbox} {req : IdemRequest} {reply : Reply} {state state' : Guard}
    (hd : Does s req reply state state' s') : ReplayRecorded s' (.request req state') := by
  cases hd with
  | look hrec _ => exact hrec
  | claim _ => trivial
  | record => trivial

theorem Does.beginsFree {s s' : Inbox} {req : IdemRequest} {reply : Reply} {state state' : Guard}
    (h : s.Sound) (hd : Does s req reply state state' s') (hreply : reply = .ok) :
    BeginsFree s (.request req state) (.request req state') := by
  -- A handler that begins without a failed call begins under a claim, and a claim is granted on a
  -- free key only.
  intro req' state₀ heq hbefore hafter
  obtain ⟨rfl, rfl⟩ : req = req' ∧ state = state₀ := by simpa using heq
  cases hd with
  | look _ hbegin =>
    exfalso
    have hhandling : ∃ granted, state' = .handling granted := by
      cases state' <;> simp [Party.handling] at hafter ⊢
    rcases hbegin hhandling with ⟨granted, rfl⟩ | hne
    · simp [Party.handling] at hbefore
    · exact hne hreply
  | claim hclaim =>
    unfold Inbox.idempotencyClaim at hclaim
    split at hclaim
    · simp at hclaim
    · next hnone =>
      refine ⟨fun row hrow => expired_of_idempotencyGet_none hnone hrow, fun expiresAt he => ?_⟩
      rcases h.last _ _ expiresAt he with hexpired | ⟨row, hrow, hexp⟩
      · exact hexpired
      · rw [← hexp]
        exact expired_of_idempotencyGet_none hnone hrow
  | record => simp [Party.handling] at hafter

section Runs

variable {ι : Type} [DecidableEq ι] (chars : CharData) (settings : Settings)

def InboxInv (pool : Pool ι Inbox Party) : Prop :=
  pool.Holds Inbox.Sound (fun _ p s => ReplayRecorded s p) fun _ _ => True

theorem step_inboxInv (pool : Pool ι Inbox Party) (event : ι × Answer) (h : InboxInv pool) :
    InboxInv (pool.step (turn chars settings) event) := by
  have hmine := h.own event.1
  have hnone : ∀ j, j ≠ event.1 → True ∧ True := fun _ _ => ⟨trivial, trivial⟩
  revert hmine
  cases hp : pool.parties event.1 with
  | request req state =>
    intro hmine
    have hd := requestTurn_does chars settings h.shared req event.2 hmine
    exact Pool.Holds.step h event (turn chars settings event.2 (.request req state) pool.shared)
      (by rw [hp]) (hd.sound h.shared) hd.replayRecorded
      (fun j _ => (h.own j).mono hd.recorded_subset) hnone
  | clock =>
    intro _
    exact Pool.Holds.step h event (turn chars settings event.2 .clock pool.shared)
      (by rw [hp]) (h.shared.advance _) trivial
      (fun j _ => (h.own j).mono (List.Subset.refl _)) hnone
  | cleanup =>
    intro _
    exact Pool.Holds.step h event (turn chars settings event.2 .cleanup pool.shared)
      (by rw [hp]) (h.shared.prune _) trivial
      (fun j _ => (h.own j).mono (List.Subset.refl _)) hnone

omit [DecidableEq ι] in
theorem start_inboxInv (kinds : ι → Kind) (now : Int) : InboxInv (start kinds now) := by
  refine ⟨sound_empty now, fun i => ?_, fun _ _ _ => trivial⟩
  change ReplayRecorded _ (kinds i).party
  cases kinds i <;> trivial

theorem step_beginsFree {pool : Pool ι Inbox Party} {event : ι × Answer} (h : InboxInv pool)
    (hreply : event.2.reply = .ok) :
    BeginsFree pool.shared (pool.parties event.1)
      ((pool.step (turn chars settings) event).parties event.1) := by
  have hmine := h.own event.1
  have hafter : (pool.step (turn chars settings) event).parties event.1 =
      (turn chars settings event.2 (pool.parties event.1) pool.shared).1 := by
    simp [Pool.step]
  rw [hafter]
  revert hmine
  cases hp : pool.parties event.1 with
  | request req state =>
    intro hmine
    exact (requestTurn_does chars settings h.shared req event.2 hmine).beginsFree h.shared hreply
  | clock =>
    intro _ req state heq
    simp at heq
  | cleanup =>
    intro _ req state heq
    simp at heq

/-- In every interleaving of requests, clock advances and pruning, from an empty inbox:
every replay was recorded for the same tenant, key and body; and if no call fails, a
handler under a key begins only when every row written for the key has expired. -/
theorem inbox_safe (kinds : ι → Kind) (now : Int) (events : List (ι × Answer)) :
    (∀ i, ReplayRecorded (run (Pool.step (turn chars settings)) (start kinds now) events).shared
      ((run (Pool.step (turn chars settings)) (start kinds now) events).parties i)) ∧
    ((∀ e ∈ events, e.2.reply = .ok) →
      Along (Pool.step (turn chars settings)) (fun p e => BeginsFree p.shared (p.parties e.1)
        ((p.step (turn chars settings) e).parties e.1)) (start kinds now) events) := by
  have hstart := start_inboxInv kinds now
  constructor
  · intro i
    have hall : Along (Pool.step (turn chars settings)) (fun _ _ => True) (start kinds now) events :=
      Along.of_forall (fun _ _ => trivial) _ _
    exact (Along.invariant (fun c e hc _ => step_inboxInv chars settings c e hc) hstart hall).own i
  · intro hok
    have hall : Along (Pool.step (turn chars settings)) (fun _ e => e.2.reply = .ok)
        (start kinds now) events := Along.of_mem hok
    exact Along.mono (fun c e hc _ => step_inboxInv chars settings c e hc)
      (fun c e hc hreply => step_beginsFree chars settings hc hreply) hstart hall

end Runs

end Memclaw.Idempotency
