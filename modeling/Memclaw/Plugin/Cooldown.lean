import Memclaw.Plugin.DeployDefs

/-! What the cooldown record remembers of the deploys that failed. -/

namespace Memclaw.Plugin

open Memclaw.Lib Memclaw.Lib.Interleave

section Cooldowns

variable {parsed : Option ℤ}

/-- The version whose deploy fails at a step: its write or build, or its check behind a restart. -/
def Node.failure (n : Node) : Event → Option Text
  | .deploy version .failed =>
    if version = [] ∨ n.isDeployBlocked version = true then none else some version
  | .heartbeat =>
    if n.postRestartCheckDone then none
    else n.pending.filter fun target => target ≠ [] && target ≠ n.running
  | _ => none

def Node.success (n : Node) : Event → Option Text
  | .heartbeat =>
    if n.postRestartCheckDone then none
    else n.pending.filter fun target => target ≠ [] && target = n.running
  | _ => none

/-- A node with the failures that no later success of their version has cleared, and when they were. -/
structure History where
  node : Node
  failures : List (Text × ℕ)

def History.step (parsed : Option ℤ) (h : History) (e : Event) : History where
  node := h.node.step parsed e
  failures := (h.failures.filter fun f => h.node.success e ≠ some f.1) ++
    ((h.node.failure e).map fun version => (version, h.node.now)).toList

def History.start (n : Node) : History := ⟨{ n with cooldown := none }, []⟩

def History.Remembers (parsed : Option ℤ) (h : History) : Prop :=
  ∀ f ∈ h.failures, h.node.now < f.2 + cooldownMs parsed → h.node.isDeployBlocked f.1 = true

/-- No failure or success of one version meets an unexpired cooldown of another. -/
def History.Separate (h : History) (e : Event) : Prop :=
  ∀ version, h.node.failure e = some version ∨ h.node.success e = some version →
    ∀ cd, h.node.cooldown = some cd → h.node.now < cd.blockedUntil → cd.failedVersion = version

inductive Recorded (parsed : Option ℤ) (n : Node) (e : Event) : Prop
  | failed (version : Text) (hfailure : n.failure e = some version) (hsuccess : n.success e = none)
      (hcooldown : (n.step parsed e).cooldown = some ⟨version, n.now + cooldownMs parsed⟩)
      (hnow : (n.step parsed e).now = n.now)
  | verified (version : Text) (hfailure : n.failure e = none) (hsuccess : n.success e = some version)
      (hcooldown : (n.step parsed e).cooldown = none) (hnow : (n.step parsed e).now = n.now)
  | kept (hfailure : n.failure e = none) (hsuccess : n.success e = none)
      (hcooldown : (n.step parsed e).cooldown = n.cooldown) (hnow : n.now ≤ (n.step parsed e).now)

theorem recorded_deploy (parsed : Option ℤ) (n : Node) (version : Text) (result : DeployEnd) :
    Recorded parsed n (.deploy version result) := by
  by_cases hblocked : version ≠ [] ∧ n.isDeployBlocked version = true
  · have hsame : n.step parsed (.deploy version result) = n := if_pos hblocked
    refine .kept ?_ rfl (by rw [hsame]) (by rw [hsame])
    cases result with
    | failed => exact if_pos (.inr hblocked.2)
    | aborted => rfl
    | built => rfl
  · have hstep : n.step parsed (.deploy version result) = _ := if_neg hblocked
    cases result with
    | aborted => exact .kept rfl rfl (by rw [hstep]) (by rw [hstep])
    | built =>
      refine .kept rfl rfl ?_ ?_ <;>
      · rw [hstep]
        dsimp only
        split <;> rfl
    | failed =>
      by_cases hempty : version = []
      · refine .kept (if_pos (.inl hempty)) rfl ?_ ?_ <;>
        · rw [hstep]
          dsimp only
          rw [if_pos hempty]
      · have hopen : ¬ (version = [] ∨ n.isDeployBlocked version = true) :=
          fun h => h.elim hempty fun hb => hblocked ⟨hempty, hb⟩
        refine .failed version (if_neg hopen) rfl ?_ ?_ <;>
        · rw [hstep]
          dsimp only
          rw [if_neg hempty]
          rfl

theorem recorded_heartbeat (parsed : Option ℤ) (n : Node) : Recorded parsed n .heartbeat := by
  have hstep : n.step parsed .heartbeat = n.verifyDeployPostRestart parsed := rfl
  unfold Node.verifyDeployPostRestart at hstep
  cases hdone : n.postRestartCheckDone with
  | true =>
    rw [hdone, if_pos rfl] at hstep
    exact .kept (by rw [Node.failure, hdone]; rfl) (by rw [Node.success, hdone]; rfl)
      (by rw [hstep]) (by rw [hstep])
  | false =>
    rw [hdone, if_neg Bool.noConfusion] at hstep
    dsimp only at hstep
    have hfailure : n.failure .heartbeat =
        n.pending.filter fun target => target ≠ [] && target ≠ n.running := by
      rw [Node.failure, hdone]
      rfl
    have hsuccess : n.success .heartbeat =
        n.pending.filter fun target => target ≠ [] && target = n.running := by
      rw [Node.success, hdone]
      rfl
    cases hpending : n.pending with
    | none =>
      rw [hpending] at hstep hfailure hsuccess
      exact .kept hfailure hsuccess (by rw [hstep]) (by rw [hstep])
    | some target =>
      rw [hpending] at hstep hfailure hsuccess
      dsimp only at hstep
      by_cases hempty : target = []
      · rw [if_pos hempty] at hstep
        exact .kept (by rw [hfailure, hempty]; rfl) (by rw [hsuccess, hempty]; rfl) (by rw [hstep])
          (by rw [hstep])
      · by_cases hrunning : target = n.running
        · rw [if_neg hempty, if_pos hrunning] at hstep
          have hnone : n.failure .heartbeat = none := by
            rw [hfailure, Option.filter_some]
            exact if_neg (by simp [hrunning])
          have hsome : n.success .heartbeat = some target := by
            rw [hsuccess, Option.filter_some]
            exact if_pos (by simpa using ⟨hempty, hrunning⟩)
          exact .verified target hnone hsome (by rw [hstep]) (by rw [hstep])
        · rw [if_neg hempty, if_neg hrunning] at hstep
          have hnone : n.success .heartbeat = none := by
            rw [hsuccess, Option.filter_some]
            exact if_neg (by simp [hrunning])
          have hsome : n.failure .heartbeat = some target := by
            rw [hfailure, Option.filter_some]
            exact if_pos (by simpa using ⟨hempty, hrunning⟩)
          exact .failed target hsome hnone (by rw [hstep]; rfl) (by rw [hstep]; rfl)

theorem step_recorded (parsed : Option ℤ) (n : Node) (e : Event) : Recorded parsed n e := by
  cases e with
  | deploy version result => exact recorded_deploy parsed n version result
  | restart running => exact .kept rfl rfl rfl le_rfl
  | wait ms => exact .kept rfl rfl rfl (Nat.le_add_right _ _)
  | heartbeat => exact recorded_heartbeat parsed n

/-- The record is of a failure that still counts, and each failure that still counts is expired or
covered by the record. -/
structure History.Tracks (parsed : Option ℤ) (h : History) : Prop where
  past : ∀ f ∈ h.failures, f.2 ≤ h.node.now
  covered : ∀ f ∈ h.failures, f.2 + cooldownMs parsed ≤ h.node.now ∨
    ∃ cd, h.node.cooldown = some cd ∧ cd.failedVersion = f.1 ∧ f.2 + cooldownMs parsed ≤ cd.blockedUntil
  recorded : ∀ cd, h.node.cooldown = some cd →
    ∃ f ∈ h.failures, cd.failedVersion = f.1 ∧ cd.blockedUntil = f.2 + cooldownMs parsed

variable {h : History} {e : Event}

theorem History.Tracks.remembers (ht : h.Tracks parsed) : h.Remembers parsed := by
  intro f hf hnow
  rcases ht.covered f hf with hexpired | ⟨cd, hcd, hversion, huntil⟩
  · exact absurd hnow (not_lt.mpr hexpired)
  · rw [Node.isDeployBlocked, hcd, Option.any_some, Bool.and_eq_true]
    exact ⟨decide_eq_true hversion, decide_eq_true (hnow.trans_le huntil)⟩

theorem mem_failures {f : Text × ℕ} : f ∈ (h.step parsed e).failures ↔
    (f ∈ h.failures ∧ h.node.success e ≠ some f.1) ∨
      h.node.failure e = some f.1 ∧ f.2 = h.node.now := by
  have hnew : f ∈ ((h.node.failure e).map fun version => (version, h.node.now)).toList ↔
      h.node.failure e = some f.1 ∧ f.2 = h.node.now := by
    rw [Option.mem_toList, Option.map_eq_some_iff]
    constructor
    · rintro ⟨version, hversion, rfl⟩
      exact ⟨hversion, rfl⟩
    · rintro ⟨hversion, hnow⟩
      exact ⟨f.1, hversion, Prod.ext rfl hnow.symm⟩
  rw [History.step, List.mem_append, List.mem_filter, decide_eq_true_eq, hnew]

theorem History.Tracks.expired (ht : h.Tracks parsed) (hs : h.Separate e) {version : Text}
    (hversion : h.node.failure e = some version ∨ h.node.success e = some version) {f : Text × ℕ}
    (hf : f ∈ h.failures) (hne : f.1 ≠ version) : f.2 + cooldownMs parsed ≤ h.node.now := by
  rcases ht.covered f hf with hexpired | ⟨cd, hcd, hsame, huntil⟩
  · exact hexpired
  · by_contra hlater
    have hlive : h.node.now < cd.blockedUntil := (not_le.mp hlater).trans_le huntil
    exact hne (hsame.symm.trans (hs version hversion cd hcd hlive))

theorem History.Tracks.step (ht : h.Tracks parsed) (hs : h.Separate e) :
    (h.step parsed e).Tracks parsed := by
  cases step_recorded parsed h.node e with
  | failed version hfailure hsuccess hcooldown hnow =>
    refine ⟨fun f hf => ?_, fun f hf => ?_, fun cd hcd => ?_⟩
    · show f.2 ≤ (h.node.step parsed e).now
      rw [hnow]
      rcases mem_failures.mp hf with ⟨hold, -⟩ | ⟨-, hnew⟩
      · exact ht.past f hold
      · exact hnew.le
    · by_cases hsame : f.1 = version
      · refine .inr ⟨_, hcooldown, hsame.symm, ?_⟩
        have hpast : f.2 ≤ h.node.now := by
          rcases mem_failures.mp hf with ⟨hold, -⟩ | ⟨-, hnew⟩
          · exact ht.past f hold
          · exact hnew.le
        exact Nat.add_le_add_right hpast _
      · left
        show f.2 + cooldownMs parsed ≤ (h.node.step parsed e).now
        rw [hnow]
        rcases mem_failures.mp hf with ⟨hold, -⟩ | ⟨hnew, -⟩
        · exact ht.expired hs (.inl hfailure) hold hsame
        · exact absurd (Option.some.inj (hnew.symm.trans hfailure)) hsame
    · have hrecord : (h.node.step parsed e).cooldown = some cd := hcd
      obtain rfl := Option.some.inj (hcooldown.symm.trans hrecord)
      exact ⟨(version, h.node.now), mem_failures.mpr (.inr ⟨hfailure, rfl⟩), rfl, rfl⟩
  | verified version hfailure hsuccess hcooldown hnow =>
    have hmem : ∀ f ∈ (h.step parsed e).failures, f ∈ h.failures ∧ f.1 ≠ version := by
      intro f hf
      rcases mem_failures.mp hf with ⟨hold, hkept⟩ | ⟨hnew, -⟩
      · exact ⟨hold, fun hsame => hkept (hsuccess.trans (congrArg some hsame.symm))⟩
      · rw [hfailure] at hnew
        cases hnew
    refine ⟨fun f hf => ?_, fun f hf => ?_, fun cd hcd => ?_⟩
    · show f.2 ≤ (h.node.step parsed e).now
      rw [hnow]
      exact ht.past f (hmem f hf).1
    · left
      show f.2 + cooldownMs parsed ≤ (h.node.step parsed e).now
      rw [hnow]
      exact ht.expired hs (.inr hsuccess) (hmem f hf).1 (hmem f hf).2
    · have hrecord : (h.node.step parsed e).cooldown = some cd := hcd
      rw [hcooldown] at hrecord
      cases hrecord
  | kept hfailure hsuccess hcooldown hnow =>
    have hmem : ∀ f, f ∈ (h.step parsed e).failures ↔ f ∈ h.failures := by
      intro f
      rw [mem_failures, hfailure, hsuccess]
      simp
    refine ⟨fun f hf => ?_, fun f hf => ?_, fun cd hcd => ?_⟩
    · exact (ht.past f ((hmem f).mp hf)).trans hnow
    · rcases ht.covered f ((hmem f).mp hf) with hexpired | ⟨cd, hcd, hsame, huntil⟩
      · exact .inl (hexpired.trans hnow)
      · exact .inr ⟨cd, hcooldown.trans hcd, hsame, huntil⟩
    · obtain ⟨f, hf, hrecord⟩ := ht.recorded cd (hcooldown.symm.trans hcd)
      exact ⟨f, (hmem f).mpr hf, hrecord⟩

theorem History.Tracks.separate (ht : h.Tracks parsed) (hr : (h.step parsed e).Remembers parsed) :
    h.Separate e := by
  -- A step that forgets an unexpired failure is not separate.
  intro version hversion cd hcd hlive
  by_contra hne
  obtain ⟨f, hf, hsame, huntil⟩ := ht.recorded cd hcd
  rw [hsame] at hne
  have hlater : h.node.now < f.2 + cooldownMs parsed := huntil ▸ hlive
  cases step_recorded parsed h.node e with
  | failed version' hfailure hsuccess hcooldown hnow =>
    have hmem : f ∈ (h.step parsed e).failures := by
      rw [mem_failures, hsuccess]
      exact .inl ⟨hf, nofun⟩
    have hblocked : (h.node.step parsed e).isDeployBlocked f.1 = true := hr f hmem (hnow ▸ hlater)
    rw [Node.isDeployBlocked, hcooldown, Option.any_some, Bool.and_eq_true] at hblocked
    have hforgot : version' = f.1 := of_decide_eq_true hblocked.1
    rcases hversion with hsame' | hsame'
    · exact hne (hforgot.symm.trans (Option.some.inj (hfailure.symm.trans hsame')))
    · rw [hsuccess] at hsame'
      cases hsame'
  | verified version' hfailure hsuccess hcooldown hnow =>
    have hversion' : version' = version := by
      rcases hversion with hsame' | hsame'
      · rw [hfailure] at hsame'
        cases hsame'
      · exact Option.some.inj (hsuccess.symm.trans hsame')
    have hmem : f ∈ (h.step parsed e).failures := by
      rw [mem_failures, hsuccess]
      exact .inl ⟨hf, fun heq => hne ((Option.some.inj heq).symm.trans hversion')⟩
    have hblocked : (h.node.step parsed e).isDeployBlocked f.1 = true := hr f hmem (hnow ▸ hlater)
    rw [Node.isDeployBlocked, hcooldown] at hblocked
    cases hblocked
  | kept hfailure hsuccess hcooldown hnow =>
    rw [hfailure, hsuccess] at hversion
    rcases hversion with hnone | hnone <;> cases hnone

theorem tracks_start (parsed : Option ℤ) (n : Node) : (History.start n).Tracks parsed :=
  ⟨List.forall_mem_nil _, List.forall_mem_nil _, fun _ hcd => nomatch hcd⟩

/-- From a node without a cooldown, every state of a run remembers the failures exactly when every step
is separate. -/
theorem cooldowns_remembered_iff (parsed : Option ℤ) (n : Node) (events : List Event) :
    (∀ past, past <+: events → (run (History.step parsed) (.start n) past).Remembers parsed) ↔
      Along (History.step parsed) History.Separate (.start n) events := by
  have hstart := tracks_start parsed n
  rw [← Along.iff_prefix hstart.remembers]
  exact Along.iff_shown (fun h e ht hs => ht.step hs) (fun h ht => ht.remembers)
    (fun h e ht hr => ht.separate hr) hstart

/-- The cooldown of one version forgets the failure of another. -/
theorem later_failure_forgets :
    ¬ ∀ past, past <+: [.deploy ['1'] .failed, .deploy ['2'] .failed] →
      (run (History.step none) (.start { running := ['0'] }) past).Remembers none := by
  intro h
  have hlast := h _ (List.prefix_refl _)
  have hblocked := hlast (['1'], 0) (by decide) (by decide)
  exact absurd hblocked (by decide)

end Cooldowns

end Memclaw.Plugin
