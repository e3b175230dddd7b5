import Memclaw.Skills.Lifecycle
import Memclaw.Skills.WorkerDefs

/-! One tick of the promoter over arbitrary candidates, whatever the checkers and the updater answer.
A gate fails where it cannot be evaluated, with two exceptions: an origin or a scan that is neither
false nor an object raises out of the loop. -/

namespace Memclaw.Skills

open Memclaw.Lib Memclaw.Lib.Interleave Memclaw.Api

abbrev CallLog := List ((c : Call) × c.Answer)

structure StatusMove where
  docId : String
  target : Status
  expected : Status
  landed : Bool
deriving DecidableEq

def updated : Except String Bool → Bool
  | .ok true => true
  | _ => false

def moveOf (entry : (c : Call) × c.Answer) : Option StatusMove :=
  match entry with
  | ⟨.updateDocumentStatus docId target expected, a⟩ => some ⟨docId, target, expected, updated a⟩
  | _ => none

def movesIn (log : CallLog) : List StatusMove := log.filterMap moveOf

theorem movesIn_append (log later : CallLog) : movesIn (log ++ later) = movesIn log ++ movesIn later :=
  List.filterMap_append

def gateNames : List String := ["volume", "diversity", "freshness", "poison", "scan", "hash_binding"]

/-- All six gates pass on a candidate, by the answers in the log. -/
structure GatesPass (cfg : TickConfig) (env : SkillEnv) (row : Row) (log : CallLog) : Prop where
  origin : ∃ origin, (Dict.get row.data "origin").orEmpty = some origin ∧
    (∃ n, (Dict.get origin "cluster_size").asInt = some n ∧ cfg.minClusterSize ≤ n) ∧
    (∃ n, (Dict.get origin "distinct_agents").asInt = some n ∧ cfg.minDistinctAgents ≤ n) ∧
    ∃ windowEnd, (Dict.get origin "window_end").asStr.bind env.fromisoformat = some windowEnd ∧
      cfg.now - windowEnd ≤ microsPerDay * cfg.freshnessWindowDays
  poison : ∃ fingerprint, Dict.get row.data "cluster_fingerprint" = .str fingerprint ∧
    fingerprint ≠ "" ∧ ⟨.isFingerprintPoisoned row.fleetId fingerprint, .ok false⟩ ∈ log
  scan : ∃ scan, (Dict.get row.data "scan").orEmpty = some scan ∧
    (Dict.get scan "state").isStr ScanState.clean.name = true
  binding : ((Dict.find row.data "kind").getD (.str "create")).isStr "update" = false ∨
    ∃ targetHash slug live, Dict.get row.data "slug" = .str slug ∧
      Dict.get ((Dict.get row.data "target").asDict.getD []) "target_content_hash" = .str targetHash ∧
      ⟨.getDocument (env.pathId (.str slug)), .ok live⟩ ∈ log ∧
      (Dict.get ((live.map Row.data).getD []) "content_hash").isStr targetHash = true

/-- The verdict on a candidate: the updater is called once where all gates pass and not at all
elsewhere, and what it does not confirm is held. -/
structure Judged (cfg : TickConfig) (env : SkillEnv) (row : Row) (log : CallLog)
    (attempt : PromotionAttempt) : Prop where
  docId : attempt.docId = row.docId
  gates : attempt.gates.gates.map GateOutcome.name = gateNames
  verdict : attempt.gates.promote = attempt.gates.gates.all GateOutcome.passed
  passes : attempt.gates.promote = true → GatesPass cfg env row log
  holds : attempt.gates.promote = false → movesIn log = [] ∧ attempt.promoted = false
  promotes : attempt.gates.promote = true → ∃ target,
    movesIn log = [⟨row.docId, target, .candidate, attempt.promoted⟩] ∧
      (target = .staged ∨
        target = .active ∧ cfg.autoPromoteClean = true ∧ scanIsClean env row.data = true) ∧
      attempt.targetStatus = if attempt.promoted then some target else none
  unpromoted : attempt.promoted = false → attempt.targetStatus = none

/-- The report of a tick: the counts, and a verdict on every candidate from calls of its own. -/
structure TickReport (cfg : TickConfig) (env : SkillEnv) (rows : List Row) (log : CallLog)
    (r : PromoterRunResult) : Prop where
  scanned : r.scanned = rows.length
  counted : r.promoted + r.held = r.scanned
  auto : r.autoApproved ≤ r.promoted
  each : ∃ judged : List (CallLog × PromotionAttempt), log = judged.flatMap Prod.fst ∧
    r.attempts = judged.map Prod.snd ∧
    List.Forall₂ (fun row (j : CallLog × PromotionAttempt) => Judged cfg env row j.1 j.2) rows judged

/-- The two fields that the gates read with `or {}` before they look into them. -/
def Readable (row : Row) : Prop :=
  (Dict.get row.data "origin").orEmpty.isSome = true ∧ (Dict.get row.data "scan").orEmpty.isSome = true

variable {env : SkillEnv} {cfg : TickConfig} {log : CallLog}

theorem countGate_passed {gate field minimum : String} {least : ℤ} {origin : Dict}
    (h : (countGate gate field minimum least origin).passed = true) :
    ∃ n, (Dict.get origin field).asInt = some n ∧ least ≤ n := by
  unfold countGate at h
  split at h
  · cases h
  · next n hn =>
    split at h
    · cases h
    · next hle => exact ⟨n, hn, Int.not_lt.mp hle⟩

theorem countGate_name (gate field minimum : String) (least : ℤ) (origin : Dict) :
    (countGate gate field minimum least origin).name = gate := by
  unfold countGate
  split
  · rfl
  · split <;> rfl

theorem freshnessGate_passed {now windowDays : ℤ} {origin : Dict}
    (h : (freshnessGate env now windowDays origin).passed = true) :
    ∃ windowEnd, (Dict.get origin "window_end").asStr.bind env.fromisoformat = some windowEnd ∧
      now - windowEnd ≤ microsPerDay * windowDays := by
  unfold freshnessGate at h
  split at h
  · cases h
  · next windowEnd hend =>
    split at h
    · cases h
    · next hle => exact ⟨windowEnd, hend, Int.not_lt.mp hle⟩

theorem freshnessGate_name (now windowDays : ℤ) (origin : Dict) :
    (freshnessGate env now windowDays origin).name = "freshness" := by
  unfold freshnessGate
  split
  · rfl
  · split <;> rfl

theorem scanGate_passed {scan : Dict} (h : (scanGate env scan).passed = true) :
    (Dict.get scan "state").isStr ScanState.clean.name = true := by
  unfold scanGate at h
  dsimp only at h
  split at h
  · next hclean => exact hclean
  · cases h

theorem scanGate_name (scan : Dict) : (scanGate env scan).name = "scan" := by
  unfold scanGate
  dsimp only
  split <;> rfl

theorem poisonGate_ends {fleetId : Option String} {doc : Dict} {out : Except HTTPException GateOutcome}
    (h : Prog.Ends (poisonGate fleetId doc) log out) :
    ∃ g, out = .ok g ∧ g.name = "poison" ∧ movesIn log = [] ∧ (g.passed = true →
      ∃ fingerprint, Dict.get doc "cluster_fingerprint" = .str fingerprint ∧ fingerprint ≠ "" ∧
        ⟨.isFingerprintPoisoned fleetId fingerprint, .ok false⟩ ∈ log) := by
  unfold poisonGate at h
  split at h
  · next fingerprint hfingerprint =>
    split at h
    · obtain ⟨rfl, rfl⟩ := h.of_done
      exact ⟨_, rfl, rfl, rfl, fun hpassed => nomatch hpassed⟩
    · next hne =>
      obtain ⟨a, later, hlog, hnext⟩ := h.of_call
      clear h
      cases a with
      | error name =>
        obtain ⟨rfl, rfl⟩ := Prog.Ends.of_done hnext
        exact ⟨_, rfl, rfl, hlog ▸ rfl, fun hpassed => nomatch hpassed⟩
      | ok poisoned =>
        cases poisoned with
        | true =>
          obtain ⟨rfl, rfl⟩ := Prog.Ends.of_done hnext
          exact ⟨_, rfl, rfl, hlog ▸ rfl, fun hpassed => nomatch hpassed⟩
        | false =>
          obtain ⟨rfl, rfl⟩ := Prog.Ends.of_done hnext
          refine ⟨_, rfl, rfl, hlog ▸ rfl, fun _ => ⟨fingerprint, hfingerprint, hne, ?_⟩⟩
          rw [hlog]
          exact List.mem_cons_self
  · obtain ⟨rfl, rfl⟩ := h.of_done
    exact ⟨_, rfl, rfl, rfl, fun hpassed => nomatch hpassed⟩

theorem hashBindingGate_ends {doc : Dict} {out : Except HTTPException GateOutcome}
    (h : Prog.Ends (hashBindingGate env doc) log out) :
    ∃ g, out = .ok g ∧ g.name = "hash_binding" ∧ movesIn log = [] ∧ (g.passed = true →
      ((Dict.find doc "kind").getD (.str "create")).isStr "update" = false ∨
        ∃ targetHash slug live, Dict.get doc "slug" = .str slug ∧
          Dict.get ((Dict.get doc "target").asDict.getD []) "target_content_hash" = .str targetHash ∧
          ⟨.getDocument (env.pathId (.str slug)), .ok live⟩ ∈ log ∧
          (Dict.get ((live.map Row.data).getD []) "content_hash").isStr targetHash = true) := by
  unfold hashBindingGate at h
  split at h
  · next hkind =>
    obtain ⟨rfl, rfl⟩ := h.of_done
    exact ⟨_, rfl, rfl, rfl, fun _ => .inl (Bool.not_eq_true' _ ▸ hkind)⟩
  · dsimp only at h
    split at h
    · next targetHash slug htarget hslug =>
      obtain ⟨a, later, hlog, hnext⟩ := h.of_call
      clear h
      cases a with
      | error name =>
        obtain ⟨rfl, rfl⟩ := Prog.Ends.of_done hnext
        exact ⟨_, rfl, rfl, hlog ▸ rfl, fun hpassed => nomatch hpassed⟩
      | ok live =>
        dsimp only at hnext
        split at hnext
        · next hlive =>
          obtain ⟨rfl, rfl⟩ := Prog.Ends.of_done hnext
          refine ⟨_, rfl, rfl, hlog ▸ rfl, fun _ => .inr ⟨targetHash, slug, live, hslug, htarget, ?_, hlive⟩⟩
          rw [hlog]
          exact List.mem_cons_self
        · obtain ⟨rfl, rfl⟩ := Prog.Ends.of_done hnext
          exact ⟨_, rfl, rfl, hlog ▸ rfl, fun hpassed => nomatch hpassed⟩
    · obtain ⟨rfl, rfl⟩ := h.of_done
      exact ⟨_, rfl, rfl, rfl, fun hpassed => nomatch hpassed⟩

/-- The gates of a readable candidate end in a verdict; those of another raise. -/
theorem evaluateAutoGates_ends {row : Row} {out : Except HTTPException AutoGateResult}
    (h : Prog.Ends (evaluateAutoGates env cfg.toGateConfig cfg.now row.fleetId row.data) log out) :
    movesIn log = [] ∧ ((¬ Readable row ∧ ∃ e, out = .error e) ∨
      Readable row ∧ ∃ gates, out = .ok gates ∧ gates.gates.map GateOutcome.name = gateNames ∧
        gates.promote = gates.gates.all GateOutcome.passed ∧
        (gates.promote = true → GatesPass cfg env row log)) := by
  unfold evaluateAutoGates at h
  cases horigin : (Dict.get row.data "origin").orEmpty with
  | none =>
    simp only [horigin] at h
    cases h
    refine ⟨rfl, .inl ⟨fun hread => ?_, _, rfl⟩⟩
    have hsome := hread.1
    rw [horigin] at hsome
    cases hsome
  | some origin =>
    simp only [horigin] at h
    rcases h.of_bind with ⟨e, hraise, -⟩ | ⟨before, poison, after, hlog, hpoison, hrest⟩
    · obtain ⟨g, hg, -⟩ := poisonGate_ends hraise
      cases hg
    · obtain ⟨g, hg, hpname, hpmoves, hppassed⟩ := poisonGate_ends hpoison
      obtain rfl := Except.ok.inj hg
      subst hlog
      cases hscan : (Dict.get row.data "scan").orEmpty with
      | none =>
        simp only [hscan] at hrest
        cases hrest
        rw [List.append_nil]
        refine ⟨hpmoves, .inl ⟨fun hread => ?_, _, rfl⟩⟩
        have hsome := hread.2
        rw [hscan] at hsome
        cases hsome
      | some scan =>
        simp only [hscan] at hrest
        rcases hrest.of_bind with ⟨e, hraise, -⟩ | ⟨middle, binding, last, hlog, hbinding, hdone⟩
        · obtain ⟨g, hg, -⟩ := hashBindingGate_ends hraise
          cases hg
        · obtain ⟨g, hg, hbname, hbmoves, hbpassed⟩ := hashBindingGate_ends hbinding
          obtain rfl := Except.ok.inj hg
          subst hlog
          obtain ⟨rfl, rfl⟩ := hdone.of_done
          have hread : Readable row := by
            rw [Readable, horigin, hscan]
            exact ⟨rfl, rfl⟩
          refine ⟨?_, .inr ⟨hread, _, rfl, ?_, rfl, fun hpromote => ?_⟩⟩
          · rw [List.append_nil, movesIn_append, hpmoves, hbmoves]
            rfl
          · simp only [List.map_cons, List.map_nil, countGate_name, freshnessGate_name, hpname,
              scanGate_name, hbname]
            rfl
          · have hall := List.all_eq_true.mp hpromote
            simp only [List.forall_mem_cons] at hall
            obtain ⟨hvolume, hdiversity, hfresh, hpoisoned, hclean, hbound, -⟩ := hall
            refine ⟨⟨origin, horigin, countGate_passed hvolume, countGate_passed hdiversity,
              freshnessGate_passed hfresh⟩, ?_, ⟨scan, hscan, scanGate_passed hclean⟩, ?_⟩
            · obtain ⟨fingerprint, hfingerprint, hne, hmem⟩ := hppassed hpoisoned
              exact ⟨fingerprint, hfingerprint, hne, List.mem_append_left _ hmem⟩
            · rcases hbpassed hbound with hkind | ⟨targetHash, slug, live, hslug, htarget, hmem, hlive⟩
              · exact .inl hkind
              · refine .inr ⟨targetHash, slug, live, hslug, htarget, ?_, hlive⟩
                rw [List.append_nil]
                exact List.mem_append_right _ hmem

theorem GatesPass.append {row : Row} (h : GatesPass cfg env row log) (later : CallLog) :
    GatesPass cfg env row (log ++ later) where
  origin := h.origin
  scan := h.scan
  poison := by
    obtain ⟨fingerprint, hfingerprint, hne, hmem⟩ := h.poison
    exact ⟨fingerprint, hfingerprint, hne, List.mem_append_left _ hmem⟩
  binding := by
    rcases h.binding with hkind | ⟨targetHash, slug, live, hslug, htarget, hmem, hlive⟩
    · exact .inl hkind
    · exact .inr ⟨targetHash, slug, live, hslug, htarget, List.mem_append_left _ hmem, hlive⟩

theorem promoteOne_ends {row : Row} {out : Except HTTPException PromotionAttempt}
    (h : Prog.Ends (promoteOne env cfg row) log out) :
    (¬ Readable row ∧ ∃ e, out = .error e) ∨
      Readable row ∧ ∃ attempt, out = .ok attempt ∧ Judged cfg env row log attempt := by
  rcases h.of_bind with ⟨e, hraise, rfl⟩ | ⟨before, gates, after, rfl, hgates, hrest⟩
  · rcases (evaluateAutoGates_ends hraise).2 with ⟨hread, -⟩ | ⟨-, gates, hgates, -⟩
    · exact .inl ⟨hread, e, rfl⟩
    · cases hgates
  · obtain ⟨hmoves, hcases⟩ := evaluateAutoGates_ends hgates
    rcases hcases with ⟨-, e, he⟩ | ⟨hread, gates', hsame, hnames, hverdict, hpasses⟩
    · cases he
    obtain rfl := Except.ok.inj hsame
    refine .inr ⟨hread, ?_⟩
    split at hrest
    · next hpromote =>
      obtain ⟨a, later, rfl, hnext⟩ := hrest.of_call
      have htarget : ∀ target : Status,
          target = (if (cfg.autoPromoteClean && scanIsClean env row.data) = true then .active else .staged) →
          target = .staged ∨
            target = .active ∧ cfg.autoPromoteClean = true ∧ scanIsClean env row.data = true := by
        intro target heq
        split at heq
        · next hauto => exact .inr ⟨heq, Bool.and_eq_true_iff.mp hauto⟩
        · exact .inl heq
      have hlast : updated a = true ∧ Prog.Ends (.done ⟨row.docId, true, gates,
            some (if (cfg.autoPromoteClean && scanIsClean env row.data) = true then .active
              else .staged)⟩ : Handler PromotionAttempt) later out ∨
          updated a = false ∧ Prog.Ends (.done ⟨row.docId, false, gates, none⟩ :
            Handler PromotionAttempt) later out := by
        cases a with
        | error name => exact .inr ⟨rfl, hnext⟩
        | ok landed =>
          cases landed with
          | true => exact .inl ⟨rfl, hnext⟩
          | false => exact .inr ⟨rfl, hnext⟩
      rcases hlast with ⟨hlanded, hdone⟩ | ⟨hlanded, hdone⟩
      · obtain ⟨rfl, rfl⟩ := hdone.of_done
        refine ⟨_, rfl, rfl, hnames, hverdict, fun hp => (hpasses hp).append _, ?_, fun _ => ?_, ?_⟩
        · exact fun hheld => absurd (hpromote.symm.trans hheld) (Bool.noConfusion)
        · refine ⟨_, ?_, htarget _ rfl, rfl⟩
          rw [movesIn_append, hmoves, List.nil_append]
          exact congrArg (fun landed => [StatusMove.mk row.docId _ .candidate landed]) hlanded
        · exact fun hfalse => nomatch hfalse
      · obtain ⟨rfl, rfl⟩ := hdone.of_done
        refine ⟨_, rfl, rfl, hnames, hverdict, fun hp => (hpasses hp).append _, ?_, fun _ => ?_, ?_⟩
        · exact fun hheld => absurd (hpromote.symm.trans hheld) (Bool.noConfusion)
        · refine ⟨_, ?_, htarget _ rfl, rfl⟩
          rw [movesIn_append, hmoves, List.nil_append]
          exact congrArg (fun landed => [StatusMove.mk row.docId _ .candidate landed]) hlanded
        · exact fun _ => rfl
    · next hheld =>
      obtain ⟨rfl, rfl⟩ := hrest.of_done
      refine ⟨_, rfl, rfl, hnames, hverdict, fun hp => (hpasses hp).append _, fun _ => ⟨?_, rfl⟩, ?_, ?_⟩
      · rw [List.append_nil, hmoves]
      · exact fun hpromote => absurd hpromote hheld
      · exact fun _ => rfl

/-- The loop comes through exactly when every candidate is readable, with a verdict on each. -/
theorem promoteEach_ends {rows : List Row} {out : Except HTTPException (List PromotionAttempt)}
    (h : Prog.Ends (promoteEach env cfg rows) log out) :
    ((∃ row ∈ rows, ¬ Readable row) ∧ ∃ e, out = .error e) ∨
      (∀ row ∈ rows, Readable row) ∧ ∃ judged : List (CallLog × PromotionAttempt),
        out = .ok (judged.map Prod.snd) ∧ log = judged.flatMap Prod.fst ∧
        List.Forall₂ (fun row (j : CallLog × PromotionAttempt) => Judged cfg env row j.1 j.2)
          rows judged := by
  induction rows generalizing log out with
  | nil =>
    obtain ⟨rfl, rfl⟩ := h.of_done
    exact .inr ⟨List.forall_mem_nil _, [], rfl, rfl, .nil⟩
  | cons row rows ih =>
    rcases h.of_bind with ⟨e, hraise, rfl⟩ | ⟨before, attempt, after, rfl, hone, hrest⟩
    · rcases promoteOne_ends hraise with ⟨hread, -⟩ | ⟨-, attempt, hattempt, -⟩
      · exact .inl ⟨⟨row, List.mem_cons_self, hread⟩, e, rfl⟩
      · cases hattempt
    · rcases promoteOne_ends hone with ⟨-, e, he⟩ | ⟨hread, attempt', hsame, hjudged⟩
      · cases he
      obtain rfl := Except.ok.inj hsame
      rcases hrest.of_bind with ⟨e, hraise, rfl⟩ | ⟨middle, attempts, last, rfl, hmore, hdone⟩
      · rcases ih hraise with ⟨⟨bad, hbad, hunread⟩, -⟩ | ⟨-, judged, hjudged, -⟩
        · exact .inl ⟨⟨bad, List.mem_cons_of_mem _ hbad, hunread⟩, e, rfl⟩
        · cases hjudged
      · rcases ih hmore with ⟨-, e, he⟩ | ⟨hreads, judged, hsame, rfl, hall⟩
        · cases he
        obtain rfl := Except.ok.inj hsame
        obtain ⟨rfl, rfl⟩ := hdone.of_done
        refine .inr ⟨List.forall_mem_cons.mpr ⟨hread, hreads⟩, (before, attempt) :: judged, rfl, ?_,
          .cons hjudged hall⟩
        rw [List.append_nil]
        rfl

theorem tickReport {rows : List Row} {judged : List (CallLog × PromotionAttempt)}
    (h : List.Forall₂ (fun row (j : CallLog × PromotionAttempt) => Judged cfg env row j.1 j.2)
      rows judged) :
    TickReport cfg env rows (judged.flatMap Prod.fst) (.of (judged.map Prod.snd)) where
  scanned := by
    rw [PromoterRunResult.of, List.length_map]
    exact h.length_eq.symm
  counted := Nat.add_sub_cancel' List.countP_le_length
  auto := by
    refine List.countP_mono_left fun attempt hattempt hactive => ?_
    obtain ⟨j, hj, rfl⟩ := List.mem_map.mp hattempt
    obtain ⟨i, hi, rfl⟩ := List.mem_iff_getElem.mp hj
    have hjudged := h.get (h.length_eq ▸ hi) hi
    by_contra hheld
    have hnone := hjudged.unpromoted (Bool.eq_false_iff.mpr hheld)
    have hsome := of_decide_eq_true hactive
    have hget : judged.get ⟨i, hi⟩ = judged[i] := rfl
    rw [hget] at hnone
    rw [hnone] at hsome
    cases hsome
  each := ⟨judged, rfl, rfl, h⟩

def Call.failed : (c : Call) → c.Answer
  | .getDocument _ => .error ""
  | .queryDocuments _ => .error ""
  | .upsertDocument _ => .error ""
  | .updateDocumentStatus _ _ _ => .error ""
  | .writeRejectedFingerprint _ => .error ""
  | .isFingerprintPoisoned _ _ => .error ""

theorem exists_tick (env : SkillEnv) (cfg : TickConfig) (rows : List Row) :
    ∃ query log out,
      Prog.Ends (promotePendingCandidates env cfg) (⟨.queryDocuments query, .ok rows⟩ :: log) out ∧
      Prog.Ends (promoteEach env cfg rows >>= fun attempts => .done (.of attempts) :
        Handler PromoterRunResult) log out := by
  obtain ⟨log, out, h⟩ := Prog.exists_ends Call.failed
    (promoteEach env cfg rows >>= fun attempts => .done (.of attempts) : Handler PromoterRunResult)
  have hrun : Prog.Ends (promotePendingCandidates env cfg) (⟨.queryDocuments ⟨cfg.fleetId,
      [("status", "candidate"), ("source", "forge")], .createdAt, cfg.limit⟩, .ok rows⟩ :: log) out := by
    unfold promotePendingCandidates
    refine .call _ ?_
    exact h
  exact ⟨_, log, out, hrun, h⟩

/-- What is asked of a tick over given candidates: in every run it returns its report. -/
def TickReturns (env : SkillEnv) (cfg : TickConfig) (rows : List Row) : Prop :=
  ∀ query log out,
    Prog.Ends (promotePendingCandidates env cfg) (⟨.queryDocuments query, .ok rows⟩ :: log) out →
      ∃ r, out = .ok r ∧ TickReport cfg env rows log r

theorem readable_of_tickReturns {rows : List Row} (h : TickReturns env cfg rows) :
    ∀ row ∈ rows, Readable row := by
  obtain ⟨query, log, out, hrun, hnext⟩ := exists_tick env cfg rows
  obtain ⟨r, rfl, -⟩ := h query log out hrun
  rcases hnext.of_bind with ⟨e, -, he⟩ | ⟨before, attempts, after, -, heach, -⟩
  · cases he
  · rcases promoteEach_ends heach with ⟨-, e, he⟩ | ⟨hreads, -⟩
    · cases he
    · exact hreads

/-- Whatever the checkers, the fetcher and the updater answer, a tick returns its report exactly when
the origin and the scan of every candidate are false or objects. -/
theorem tick_iff (env : SkillEnv) (cfg : TickConfig) (rows : List Row) :
    TickReturns env cfg rows ↔ ∀ row ∈ rows, Readable row := by
  constructor
  · exact readable_of_tickReturns
  · intro hreads query log out hrun
    obtain ⟨a, later, hlog, hnext⟩ := hrun.of_call
    obtain ⟨hhead, rfl⟩ := List.cons.inj hlog
    injection hhead with hcall hanswer
    injection hcall with hquery
    subst hquery
    subst hanswer
    rcases Prog.Ends.of_bind hnext with ⟨e, hraise, -⟩ | ⟨before, attempts, after, rfl, heach, hdone⟩
    · rcases promoteEach_ends hraise with ⟨⟨row, hrow, hunread⟩, -⟩ | ⟨-, judged, hjudged, -⟩
      · exact absurd (hreads row hrow) hunread
      · cases hjudged
    · rcases promoteEach_ends heach with ⟨-, e, he⟩ | ⟨-, judged, hsame, rfl, hall⟩
      · cases he
      obtain rfl := Except.ok.inj hsame
      obtain ⟨rfl, rfl⟩ := Prog.Ends.of_done hdone
      rw [List.append_nil]
      exact ⟨_, rfl, tickReport hall⟩

/-- A candidate whose origin is a text: no gate catches it. -/
def textOrigin : Row := ⟨"x", none, [("origin", .str "x")], 0, ⟨0, 0⟩⟩

def hourlyTick : TickConfig where
  minClusterSize := 3
  minDistinctAgents := 3
  freshnessWindowDays := 14
  fleetId := none
  autoPromoteClean := false
  limit := 50
  now := 0

theorem text_origin_ends_tick : ¬ TickReturns .ascii hourlyTick [textOrigin] := by
  intro h
  have hread := readable_of_tickReturns h textOrigin List.mem_cons_self
  have horigin : (Dict.get textOrigin.data "origin").orEmpty.isSome = false := by decide
  rw [Readable, horigin] at hread
  exact Bool.noConfusion hread.1

end Memclaw.Skills
