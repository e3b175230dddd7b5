import Memclaw.Lifecycle.Audit

/-! The dedup gate of the pipeline ops: what a skip rests on, and the run in which a skip
rests on another skip. -/

namespace Memclaw.Lifecycle

open Memclaw.Lib Memclaw.Lib.Interleave

def LifecycleAudit.isSkip (row : LifecycleAudit) : Bool :=
  row.stats.any fun stats => Dict.has stats "skipped"

def LifecycleAudit.didWork (row : LifecycleAudit) : Bool :=
  row.stats.any fun stats => !Dict.has stats "skipped"

/-- An op of the org and action that ran to success and finished in the window before `t`. -/
def World.Justified (w : World) (m : Message) (t : ℕ) : Prop :=
  ∃ work ∈ w.finishes, work.ran = true ∧ work.message.orgId = m.orgId ∧
    work.message.action = m.action ∧ work.at_ ≤ t ∧ t < work.at_ + pipelineDedupWindowHours * hour

def Party.skip? : Party → Option (Message × ℕ)
  | .skipping m checkedAt => some (m, checkedAt)
  | .skipped m checkedAt => some (m, checkedAt)
  | _ => none

def World.Recent (w : World) (m : Message) (row : LifecycleAudit) : Prop :=
  row.orgId = m.orgId ∧ row.action = m.action ∧ row.status = .success ∧
    ∃ finishedAt ∈ row.finishedAt, w.now < finishedAt + pipelineDedupWindowHours * hour

def Party.atGate? : Party → Option Message
  | .received m => some m
  | _ => none

/-- Beside every recent record of a skip stands a recent record of work. -/
def World.WorkBesideSkips (w : World) (p : Party) : Prop :=
  ∀ m ∈ p.atGate?, (∃ row ∈ w.rows, w.Recent m row ∧ row.isSkip = true) →
    ∃ row ∈ w.rows, w.Recent m row ∧ row.didWork = true

instance (w : World) (m : Message) (row : LifecycleAudit) : Decidable (w.Recent m row) :=
  inferInstanceAs (Decidable (_ ∧ _ ∧ _ ∧ ∃ finishedAt ∈ row.finishedAt, _))

instance (w : World) (p : Party) : Decidable (w.WorkBesideSkips p) :=
  inferInstanceAs (Decidable (∀ m ∈ p.atGate?, _))

/-- The table that a delivery about to pass the gate finds. -/
def WorkBesideSkips {ι : Type} (pool : Pool ι World Party) (event : ι × Answer) : Prop :=
  { pool.shared with now := pool.shared.now + event.2.elapsed : World }.WorkBesideSkips
    (pool.parties event.1)

instance {ι : Type} (pool : Pool ι World Party) (event : ι × Answer) :
    Decidable (WorkBesideSkips pool event) :=
  inferInstanceAs (Decidable (World.WorkBesideSkips _ _))

theorem Finish.Honest.ran {f : Finish} (h : f.Honest)
    (hwork : Dict.has f.stats "skipped" = false) : f.ran = true := by
  by_contra hran
  rw [Honest, if_neg hran] at h
  rw [h] at hwork
  exact absurd hwork (by decide)

theorem dedupWindowHours_eq {action : Action} {sinceHours : ℕ}
    (h : action.dedupWindowHours = some sinceHours) : sinceHours = pipelineDedupWindowHours := by
  cases action <;> simp_all [Action.dedupWindowHours]

theorem World.recentSuccess_iff {w : World} {m : Message} {row : LifecycleAudit} :
    w.recentSuccess m.orgId m.action pipelineDedupWindowHours row = true ↔ w.Recent m row := by
  simp [recentSuccess, Recent, Option.any_eq_true, and_assoc]

theorem World.Sound.firstFinish {w : World} (h : w.Sound) {row : LifecycleAudit}
    (hrow : row ∈ w.rows) (hsuccess : row.status = .success) :
    ∃ first, w.firstFinish row.id = some first ∧ row.stats = some first.stats ∧
      row.finishedAt = some first.at_ := by
  have hrecorded : w.Recorded row := h.recorded row hrow
  cases hfirst : w.firstFinish row.id with
  | none => exact absurd hsuccess ((recorded_of_none hfirst).mp hrecorded)
  | some first => exact ⟨first, rfl, ((recorded_of_first hfirst).mp hrecorded).2⟩

theorem World.Sound.didWork_or_isSkip {w : World} (h : w.Sound) {m : Message}
    {row : LifecycleAudit} (hrow : row ∈ w.rows) (hrecent : w.Recent m row) :
    row.didWork = true ∨ row.isSkip = true := by
  obtain ⟨first, -, hstats, -⟩ := h.firstFinish hrow hrecent.2.2.1
  rw [LifecycleAudit.didWork, LifecycleAudit.isSkip, hstats]
  cases Dict.has first.stats "skipped" <;> simp

theorem World.Sound.justified {w : World} (h : w.Sound) {m : Message} {row : LifecycleAudit}
    (hrow : row ∈ w.rows) (hrecent : w.Recent m row) (hwork : row.didWork = true) :
    w.Justified m w.now := by
  obtain ⟨horg, haction, hsuccess, finishedAt, hat', hwindow⟩ := hrecent
  obtain ⟨first, hfirst, hstats, hfinished⟩ := h.firstFinish hrow hsuccess
  have hmem : first ∈ w.finishes := List.mem_of_find?_eq_some hfirst
  obtain ⟨⟨named, hnamed, horg', haction'⟩, hhonest, hat⟩ := h.finishes first hmem
  -- the message of the first success update names this very row
  have hid : first.message.auditId = row.id := by simpa using List.find?_some hfirst
  have hsame : named = row := by
    refine h.eq_of_id hrow (List.mem_of_getElem? hnamed) ?_
    rw [h.place _ named hnamed, hid]
  subst hsame
  have hran : first.ran = true := by
    refine hhonest.ran ?_
    simpa [LifecycleAudit.didWork, hstats] using hwork
  obtain rfl : first.at_ = finishedAt := Option.some.inj (hfinished.symm.trans hat')
  exact ⟨first, hmem, hran, horg'.symm.trans horg, haction'.symm.trans haction, hat, hwindow⟩

/-- What the gate found justifies the skip: work itself, or a skip with work beside it. -/
theorem World.Sound.justified_of_gate {w : World} (h : w.Sound) {m : Message} {sinceHours : ℕ}
    (hbeside : w.WorkBesideSkips (.received m))
    (hwindow : m.action.dedupWindowHours = some sinceHours)
    (hfound : w.hasRecentSuccess m.orgId m.action sinceHours = true) : w.Justified m w.now := by
  obtain rfl : sinceHours = pipelineDedupWindowHours := dedupWindowHours_eq hwindow
  obtain ⟨row, hrow, hmatch⟩ := List.any_eq_true.mp hfound
  have hrecent : w.Recent m row := recentSuccess_iff.mp hmatch
  rcases h.didWork_or_isSkip hrow hrecent with hwork | hskip
  · exact h.justified hrow hrecent hwork
  · obtain ⟨work, hmem, hrecent', hwork⟩ := hbeside m rfl ⟨row, hrow, hrecent, hskip⟩
    exact h.justified hmem hrecent' hwork

theorem World.Justified.mono {w next : World} {m : Message} {t : ℕ} (h : w.Justified m t)
    (hfinishes : w.finishes <+: next.finishes) : next.Justified m t := by
  obtain ⟨work, hwork, hrest⟩ := h
  exact ⟨work, hfinishes.subset hwork, hrest⟩

/-- A party that a turn leaves skipping was skipping, or has just passed the gate. -/
theorem act_skip {a : Answer} {p : Party} {w : World} {m : Message} {t : ℕ}
    (h : (act a p w).1.skip? = some (m, t)) :
    p.skip? = some (m, t) ∨ p = .received m ∧ t = w.now ∧ ∃ sinceHours,
      m.action.dedupWindowHours = some sinceHours ∧
      w.hasRecentSuccess m.orgId m.action sinceHours = true := by
  cases p with
  | received m' =>
    refine .inr ?_
    simp only [act, gate] at h
    split at h
    · exact absurd h (by simp [Party.skip?])
    · next sinceHours hwindow =>
      split at h
      · next hfound =>
        obtain ⟨rfl, rfl⟩ : m' = m ∧ w.now = t := by simpa [Party.skip?] using h
        exact ⟨rfl, rfl, sinceHours, hwindow, hfound.2⟩
      · exact absurd h (by simp [Party.skip?])
  | skipping m' checkedAt => exact .inl h
  | skipped m' checkedAt => exact .inl h
  | trigger orgId action triggeredBy =>
    simp only [act] at h
    split at h <;> exact absurd h (by simp [Party.skip?])
  | idle =>
    simp only [act] at h
    split at h <;> exact absurd h (by simp [Party.skip?])
  | running m' =>
    simp only [act] at h
    split at h <;> exact absurd h (by simp [Party.skip?])
  | succeeded m' count =>
    simp only [act] at h
    split at h <;> exact absurd h (by simp [Party.skip?])
  | publishing m' => exact absurd h (by simp [act, Party.skip?])
  | triggered => exact absurd h (by simp [act, Party.skip?])
  | marking m' => exact absurd h (by simp [act, Party.skip?])
  | failing m' text => exact absurd h (by simp [act, Party.skip?])
  | acked => exact absurd h (by simp [act, Party.skip?])
  | nacked => exact absurd h (by simp [act, Party.skip?])

variable {ι : Type} [DecidableEq ι]

/-- Every skip so far is justified. -/
def SkipsJustified (pool : Pool ι World Party) : Prop :=
  ∀ i m t, (pool.parties i).skip? = some (m, t) → pool.shared.Justified m t

theorem SkipsJustified.turn {pool : Pool ι World Party} (h : SkipsJustified pool)
    (hsound : Sound pool) (event : ι × Answer) (hbeside : WorkBesideSkips pool event) :
    SkipsJustified (pool.step runAction event) := by
  obtain ⟨i, a⟩ := event
  let w : World := { pool.shared with now := pool.shared.now + a.elapsed }
  have hw : w.Sound := hsound.shared.later a.elapsed
  have hfinishes : w.finishes <+: (act a (pool.parties i) w).2.finishes :=
    (act_writes a _ w).finishes
  have hpast : ∀ j m t, (pool.parties j).skip? = some (m, t) →
      (act a (pool.parties i) w).2.Justified m t :=
    fun j m t hskip => World.Justified.mono (w := w) (h j m t hskip) hfinishes
  intro j m t hskip
  by_cases hj : j = i
  · subst hj
    rw [Pool.step_self] at hskip
    rcases act_skip hskip with hold | ⟨hparty, rfl, sinceHours, hwindow, hfound⟩
    · exact hpast j m t hold
    · have hgate : w.WorkBesideSkips (.received m) := hparty ▸ hbeside
      exact (hw.justified_of_gate hgate hwindow hfound).mono hfinishes
  · rw [Pool.step_of_ne runAction pool hj] at hskip
    exact hpast j m t hskip

/-- In a run in which every delivery at the gate has work beside the recent skips of its org and
action, every skip is justified by an op that ran to success within the window. -/
theorem skip_justified (roles : ι → Role) (events : List (ι × Answer))
    (h : Along (Pool.step runAction) WorkBesideSkips (World.start roles) events) :
    ∀ i m t, ((run (Pool.step runAction) (World.start roles) events).parties i).skip? =
      some (m, t) →
        (run (Pool.step runAction) (World.start roles) events).shared.Justified m t := by
  have hkept : Sound (run (Pool.step runAction) (World.start roles) events) ∧
      SkipsJustified (run (Pool.step runAction) (World.start roles) events) := by
    refine h.invariant (P := fun pool => Sound pool ∧ SkipsJustified pool)
      (fun pool event hpool hbeside =>
        ⟨hpool.1.turn event, hpool.2.turn hpool.1 event hbeside⟩)
      ⟨Sound.start roles, fun i m t hskip => ?_⟩
    cases hrole : roles i <;> simp [World.start, hrole, Role.begin, Party.skip?] at hskip
  exact hkept.2

def chainRoles (i : ℕ) : Role := if i < 3 then .trigger "org" .insights "cron" else .consumer

/-- The first delivery runs its op; one comes 22 hours later, one 44 hours later. -/
def chainEvents : List (ℕ × Answer) :=
  [(0, {}), (0, {}), (3, {}), (3, {}), (3, {}), (3, { op := .ok 5 }), (3, {}),
   (1, { elapsed := 22 * hour }), (1, {}), (4, { pick := 1 }), (4, {}), (4, {}),
   (2, { elapsed := 22 * hour }), (2, {}), (5, { pick := 2 }), (5, {})]

/-- The second skip rests on the first one only: the op last ran 44 hours before. -/
theorem skip_of_skip : ¬ ∀ (roles : ℕ → Role) (events : List (ℕ × Answer)) (i : ℕ) (m : Message)
    (t : ℕ), ((run (Pool.step runAction) (World.start roles) events).parties i).skip? =
      some (m, t) →
        (run (Pool.step runAction) (World.start roles) events).shared.Justified m t := by
  intro h
  have hskip := h chainRoles chainEvents 5 ⟨2, "org", .insights⟩ (44 * hour) rfl
  obtain ⟨work, hwork, hran, -, -, -, hrecent⟩ := hskip
  have hnone : (run (Pool.step runAction) (World.start chainRoles) chainEvents).shared.finishes.all
      (fun work => !work.ran || work.at_ + pipelineDedupWindowHours * hour ≤ 44 * hour) = true := by
    decide
  have hlate := List.all_eq_true.mp hnone work hwork
  rw [hran, Bool.not_true, Bool.false_or, decide_eq_true_eq] at hlate
  exact absurd hrecent (not_lt.mpr hlate)

/-- 22 hours after the op ran, a delivery skips on its account. -/
theorem skip_of_work :
    (run (Pool.step runAction) (World.start chainRoles) (chainEvents.take 11)).shared.Justified
      ⟨1, "org", .insights⟩ (22 * hour) :=
  skip_justified chainRoles (chainEvents.take 11) (by decide) 4 _ _ rfl

end Memclaw.Lifecycle
