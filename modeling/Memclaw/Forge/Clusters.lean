import Memclaw.Forge.Traces
import Memclaw.Lib.FirstFit
import Memclaw.Lib.FloatText
import Memclaw.Skills.Store

/-! A run of Forge: labeled traces are clustered by the overlap of their entities, and what becomes
of every eligible cluster is counted once. The document of a cluster is written under the slug that
the model chose, so two clusters of a run may share one document. -/

namespace Memclaw.Forge

open Memclaw.Lib Memclaw.Lib.Interleave Memclaw.Skills

def jaccard (ents clusterEnts : Finset String) : Option Binary64 :=
  Binary64.ofFrac false (ents ∩ clusterEnts).card (ents ∪ clusterEnts).card

def atLeast (ratio : Binary64) : PyFloat → Bool
  | .finite threshold => threshold.signed * ratio.den ≤ ratio.signed * threshold.den
  | .infinite neg => neg
  | .nan => false

def joins (threshold : PyFloat) (ents clusterEnts : Finset String) : Bool :=
  (ents ∪ clusterEnts).card ≠ 0 && (jaccard ents clusterEnts).any fun ratio => atLeast ratio threshold

def SessionTraceRow.entities (trace : SessionTraceRow) : Finset String := trace.entityIds.toFinset

/-- The loop of `_cluster_by_entity_overlap`: the first cluster that a trace joins takes it. -/
def entityClusters (threshold : PyFloat) (traces : List SessionTraceRow) :
    List (FirstFit.Bin SessionTraceRow (Finset String)) :=
  FirstFit.pack (fun trace => joins threshold trace.entities) (fun ents trace => ents ∪ trace.entities)
    SessionTraceRow.entities (traces.filter fun trace => !trace.entityIds.isEmpty)

def clusterByEntityOverlap (threshold : PyFloat) (traces : List SessionTraceRow) :
    List (List SessionTraceRow) :=
  (entityClusters threshold traces).map FirstFit.Bin.members

structure ClusterConfig where
  minClusterSize : ℤ
  minDistinctAgents : ℤ
  jaccardThreshold : PyFloat

def gateClusters (cfg : ClusterConfig) (clusters : List (List SessionTraceRow)) :
    List (List SessionTraceRow) :=
  clusters.filter fun cluster => cfg.minClusterSize ≤ cluster.length &&
    cfg.minDistinctAgents ≤ (cluster.map SessionTraceRow.agentId).dedup.length

/-- What the memory fetcher, the model and the parser of its answer make of a cluster, with the clocks
of the candidate and of its scan. -/
inductive Answered
  | parsed (answer : ParsedAnswer) (nowIso scannedAt : String)
  | parseError
  | raised

def Answered.mined (chars : CaseChars) (cluster : List SessionTraceRow) : Answered → Mined
  | .parsed answer nowIso scannedAt => .distilled (distillCluster chars nowIso scannedAt answer cluster)
  | .parseError => .parseError
  | .raised => .ioError

structure ForgeRunResult where
  totalTraces : ℕ
  labeledTraces : ℕ
  clustersTotal : ℕ
  clustersEligible : ℕ
  candidatesWritten : ℕ
  candidatesSkippedPoisoned : ℕ
  candidatesSkippedSentinel : ℕ
  candidatesSkippedDistillError : ℕ
  candidatesSkippedIoError : ℕ
  candidatesSkippedExisting : ℕ
  candidateDocIds : List String

def writtenId : Disposition → Option String
  | .written docId => some docId
  | _ => none

def ForgeRunResult.of (traces : List TraceRow) (labeled : List SessionTraceRow)
    (clusters eligible : List (List SessionTraceRow)) (dispositions : List Disposition) :
    ForgeRunResult where
  totalTraces := traces.length
  labeledTraces := labeled.length
  clustersTotal := clusters.length
  clustersEligible := eligible.length
  candidatesWritten := (dispositions.filterMap writtenId).length
  candidatesSkippedPoisoned := dispositions.countP (· = .poisoned)
  candidatesSkippedSentinel := dispositions.countP (· = .sentinel)
  candidatesSkippedDistillError := dispositions.countP (· = .distillError)
  candidatesSkippedIoError := dispositions.countP (· = .ioError)
  candidatesSkippedExisting := dispositions.countP (· = .existing)
  candidateDocIds := dispositions.filterMap writtenId

def labeledTraces (traces : List TraceRow) : List SessionTraceRow :=
  (traces.filter fun trace => trace.outcomeLabel ≠ "unknown").map TraceRow.toSessionTraceRow

def eligibleClusters (gates : ClusterConfig) (traces : List TraceRow) : List (List SessionTraceRow) :=
  gateClusters gates (clusterByEntityOverlap gates.jaccardThreshold (labeledTraces traces))

/-- What the injected functions make of a cluster: the fetcher, the model and the parser, the two
checkers, and the writer. -/
structure Outcomes where
  answered : Answered
  poisoned : Except String Bool
  found : Except String (Option Row)
  writer : Surroundings

/-- The collection. `landed` is a ghost: the ids of the documents that were written to it, also where
the reply was lost. -/
structure Ledger where
  store : Store
  landed : List String

/-- Forge makes the first three calls alone. -/
def Outcomes.serve (db : DbEnv) (o : Outcomes) : (c : Call) → Ledger → c.Answer × Ledger
  | .isFingerprintPoisoned _ _, l => (o.poisoned, l)
  | .getDocument _, l => (o.found, l)
  | .upsertDocument w, l =>
    ((Skills.serve db o.writer (.upsertDocument w) l.store).1,
      ⟨(Skills.serve db o.writer (.upsertDocument w) l.store).2,
        if o.writer.reply = .refused then l.landed else l.landed ++ [w.docId]⟩)
  | .queryDocuments _, l => (.error o.writer.error, l)
  | .updateDocumentStatus _ _ _, l => (.error o.writer.error, l)
  | .writeRejectedFingerprint _, l => (.error o.writer.error, l)

def forgeClusters (db : DbEnv) (env : SkillEnv) (cfg : ForgeConfig) :
    List (Mined × Outcomes) → Ledger → Except Api.HTTPException (List Disposition) × Ledger
  | [], l => (.ok [], l)
  | (m, o) :: rest, l =>
    match Prog.alone (Outcomes.serve db) (fun _ => o) (forgeCluster env cfg m) l with
    | (.error e, l) => (.error e, l)
    | (.ok d, l) =>
      let later := forgeClusters db env cfg rest l
      (later.1.map fun ds => d :: ds, later.2)

def tried (chars : CaseChars) (cfg : ForgeConfig) (gates : ClusterConfig) (outcomes : ℕ → Outcomes)
    (traces : List TraceRow) : List (Mined × Outcomes) :=
  sliceTo ((eligibleClusters gates traces).mapIdx fun i cluster =>
    ((outcomes i).answered.mined chars cluster, outcomes i)) cfg.maxWritesPerRun

/-- `run_forge_distill` behind the trace builder. A run without a status checker goes like one whose
checker finds nothing. -/
def runForgeDistill (db : DbEnv) (env : SkillEnv) (chars : CaseChars) (cfg : ForgeConfig)
    (gates : ClusterConfig) (outcomes : ℕ → Outcomes) (traces : List TraceRow) (l : Ledger) :
    Except Api.HTTPException ForgeRunResult × Ledger :=
  let labeled := labeledTraces traces
  let clusters := clusterByEntityOverlap gates.jaccardThreshold labeled
  let eligible := eligibleClusters gates traces
  let run := forgeClusters db env cfg (tried chars cfg gates outcomes traces) l
  (run.1.map fun dispositions => .of traces labeled clusters eligible dispositions, run.2)

/-- Every trace with an entity is in exactly one cluster, in the order of the traces; the clusters
stand in the order of their first members; and every other member overlaps the union of the members
before it. -/
structure Clustered (threshold : PyFloat) (traces : List SessionTraceRow)
    (clusters : List (List SessionTraceRow)) : Prop where
  homes : ∃ homes : List ℕ,
    let kept := traces.filter fun trace => !trace.entityIds.isEmpty
    homes.length = kept.length ∧ (∀ home ∈ homes, home < clusters.length) ∧
      (∀ k cluster, clusters[k]? = some cluster → cluster = FirstFit.pick homes kept k) ∧
      (∀ k < clusters.length, k ∈ homes) ∧
      ∀ j k, j < k → k < clusters.length → homes.idxOf j < homes.idxOf k
  overlap : ∀ cluster ∈ clusters, ∀ before trace after, cluster = before ++ trace :: after →
    before ≠ [] → ∃ ratio, jaccard trace.entities (entitiesOf before).toFinset = some ratio ∧
      atLeast ratio threshold = true

theorem summarize_entities (first : SessionTraceRow) (rest : List SessionTraceRow) :
    FirstFit.summarize (fun ents trace => ents ∪ trace.entities) SessionTraceRow.entities first rest =
      (entitiesOf (first :: rest)).toFinset := by
  have hfold : ∀ ents : Finset String,
      rest.foldl (fun ents trace => ents ∪ trace.entities) ents = ents ∪ (entitiesOf rest).toFinset := by
    induction rest with
    | nil => exact fun ents => (Finset.union_empty ents).symm
    | cons trace rest ih =>
      intro ents
      rw [List.foldl_cons, ih, entitiesOf, entitiesOf, List.flatMap_cons, List.toFinset_append,
        Finset.union_assoc]
      rfl
  rw [FirstFit.summarize, hfold, entitiesOf, entitiesOf, List.flatMap_cons, List.toFinset_append]
  rfl

theorem overlaps_of_joins {threshold : PyFloat} {ents clusterEnts : Finset String}
    (h : joins threshold ents clusterEnts = true) :
    ∃ ratio, jaccard ents clusterEnts = some ratio ∧ atLeast ratio threshold = true := by
  obtain ⟨-, hany⟩ := Bool.and_eq_true_iff.mp h
  cases hratio : jaccard ents clusterEnts with
  | none =>
    rw [hratio] at hany
    cases hany
  | some ratio =>
    rw [hratio] at hany
    exact ⟨ratio, rfl, hany⟩

theorem clustered (threshold : PyFloat) (traces : List SessionTraceRow) :
    Clustered threshold traces (clusterByEntityOverlap threshold traces) := by
  refine ⟨?_, ?_⟩
  · obtain ⟨homes, hpacked⟩ := FirstFit.packed_pack
      (fun trace => joins threshold trace.entities) (fun ents trace => ents ∪ trace.entities)
      SessionTraceRow.entities
      (traces.filter fun trace => !trace.entityIds.isEmpty)
    have hlength : (clusterByEntityOverlap threshold traces).length =
        (entityClusters threshold traces).length := List.length_map _
    refine ⟨homes, hpacked.length, ?_, ?_, ?_, ?_⟩
    · rw [hlength]
      exact hpacked.home_lt
    · intro k cluster hcluster
      rw [clusterByEntityOverlap, List.getElem?_map] at hcluster
      obtain ⟨bin, hbin, rfl⟩ := Option.map_eq_some_iff.mp hcluster
      exact hpacked.members k bin hbin
    · rw [hlength]
      exact hpacked.used
    · rw [hlength]
      exact hpacked.ordered
  · intro cluster hcluster before trace after hsplit hbefore
    obtain ⟨bin, hbin, rfl⟩ := List.mem_map.mp hcluster
    obtain ⟨first, rest, hgrown⟩ := FirstFit.grown_pack _ bin hbin
    obtain ⟨head, earlier, rfl⟩ := List.exists_cons_of_ne_nil hbefore
    rw [hgrown.members, List.cons_append] at hsplit
    obtain ⟨rfl, hrest⟩ := List.cons.inj hsplit
    have hfits := hgrown.fitted earlier trace after hrest
    rw [summarize_entities] at hfits
    exact overlaps_of_joins hfits

def ForgeRunResult.accounted (r : ForgeRunResult) : ℕ :=
  r.candidatesWritten + r.candidatesSkippedPoisoned + r.candidatesSkippedSentinel +
    r.candidatesSkippedDistillError + r.candidatesSkippedIoError + r.candidatesSkippedExisting

theorem accounted_of (traces : List TraceRow) (labeled : List SessionTraceRow)
    (clusters eligible : List (List SessionTraceRow)) (dispositions : List Disposition) :
    (ForgeRunResult.of traces labeled clusters eligible dispositions).accounted =
      dispositions.length := by
  induction dispositions with
  | nil => rfl
  | cons d rest ih =>
    rw [List.length_cons, ← ih]
    unfold ForgeRunResult.accounted ForgeRunResult.of
    cases d <;> simp [List.filterMap_cons, writtenId] <;> omega

theorem length_sliceTo {α : Type} (items : List α) (stop : ℤ) :
    ((sliceTo items stop).length : ℤ) = min (items.length : ℤ) stop ↔ 0 ≤ stop := by
  rw [sliceTo, List.length_take]
  split_ifs <;> omega

def Ledger.candidates (l : Ledger) : List String :=
  l.landed.dedup.filter fun docId => (l.store.status docId).isStr Status.candidate.name

/-- The run counts the documents that it leaves as candidates, and none of them was written for two
clusters. -/
def ForgeRunResult.Counts (r : ForgeRunResult) (l : Ledger) : Prop :=
  r.candidatesWritten = l.candidates.length ∧ ∀ docId ∈ l.candidates, l.landed.count docId = 1

/-- A cluster whose document gets as far as the table: the slug that the model chose, whether the scan
quarantines it, and whether the writer's reply gets back. -/
structure Landing where
  slug : String
  quarantined : Bool
  replied : Bool

def Outcomes.pass (o : Outcomes) : Bool :=
  match o.poisoned, o.found with
  | .ok false, .ok none => true
  | .ok false, .ok (some row) => row.status.isNull || row.has .candidate
  | _, _ => false

def landing (env : SkillEnv) (cfg : ForgeConfig) : Mined × Outcomes → Option Landing
  | (.distilled d, o) =>
    match scanSkillDoc env.toTextEnv cfg.caps d.scannedAt (d.data cfg) with
    | none => none
    | some scan =>
      if d.kind = "create" ∧ o.pass ∧ ¬ scan.anyFatal ∧ o.writer.reply ≠ .refused then
        some ⟨d.slug, scan.state = .quarantined, o.writer.reply = .ok⟩
      else none
  | _ => none

def Landing.shared (landings : List Landing) (x : Landing) : Bool :=
  1 < (landings.map Landing.slug).count x.slug

def standing (landings : List Landing) (slug : String) : Bool :=
  (landings.reverse.find? (·.slug = slug)).any fun x => !x.quarantined

/-- As many replies were lost as documents are quarantined or share their slug, and the last one of
a shared slug is quarantined. -/
def Balanced (landings : List Landing) : Prop :=
  landings.countP (fun x => !x.replied) =
      landings.countP (fun x => x.quarantined || x.shared landings) ∧
    ∀ x ∈ landings, x.shared landings → standing landings x.slug = false

theorem balanced_iff_of_replied {landings : List Landing} (h : ∀ x ∈ landings, x.replied = true) :
    Balanced landings ↔
      (landings.map Landing.slug).Nodup ∧ ∀ x ∈ landings, x.quarantined = false := by
  have hnone : landings.countP (fun x => !x.replied) = 0 := by
    refine List.countP_eq_zero.mpr fun x hx => ?_
    simp [h x hx]
  have hshared : ∀ x : Landing, x.shared landings = false ↔
      (landings.map Landing.slug).count x.slug ≤ 1 := by
    intro x
    unfold Landing.shared
    simp
  unfold Balanced
  rw [hnone, eq_comm, List.countP_eq_zero]
  constructor
  · rintro ⟨hclean, -⟩
    refine ⟨List.nodup_iff_count_le_one.mpr fun slug => ?_, fun x hx => ?_⟩
    · by_cases hmem : slug ∈ landings.map Landing.slug
      · obtain ⟨x, hx, rfl⟩ := List.mem_map.mp hmem
        have hfree := hclean x hx
        rw [Bool.or_eq_true, not_or, Bool.not_eq_true, Bool.not_eq_true] at hfree
        exact (hshared x).mp hfree.2
      · rw [List.count_eq_zero_of_not_mem hmem]
        exact Nat.zero_le 1
    · have hfree := hclean x hx
      rw [Bool.or_eq_true, not_or, Bool.not_eq_true] at hfree
      exact hfree.1
  · rintro ⟨hnodup, hclean⟩
    have hfree : ∀ x ∈ landings, x.shared landings = false := fun x _ =>
      (hshared x).mpr (List.nodup_iff_count_le_one.mp hnodup _)
    refine ⟨fun x hx => ?_, fun x hx hdup => ?_⟩
    · simp [hclean x hx, hfree x hx]
    · rw [hfree x hx] at hdup
      cases hdup

theorem docId_injective : Function.Injective fun slug => "forge/" ++ slug := by
  intro a b h
  have hlist := congrArg String.toList h
  rw [String.toList_append, String.toList_append] at hlist
  exact String.toList_inj.mp (List.append_cancel_left hlist)

theorem standing_concat (landings : List Landing) (x : Landing) (slug : String) :
    standing (landings ++ [x]) slug =
      if slug = x.slug then !x.quarantined else standing landings slug := by
  unfold standing
  rw [List.reverse_append, List.reverse_singleton, List.singleton_append, List.find?_cons]
  by_cases h : x.slug = slug
  · simp [h]
  · simp [h, Ne.symm h]

theorem standing_of_not_shared {landings : List Landing} {x : Landing} (hx : x ∈ landings)
    (h : x.shared landings = false) : standing landings x.slug = !x.quarantined := by
  obtain ⟨before, after, rfl⟩ := List.append_of_mem hx
  have hlone : ∀ y ∈ after, y.slug ≠ x.slug := by
    intro y hy hslug
    have hmore : 0 < (after.map Landing.slug).count x.slug :=
      List.count_pos_iff.mpr (List.mem_map.mpr ⟨y, hy, hslug⟩)
    unfold Landing.shared at h
    rw [List.map_append, List.map_cons, List.count_append, List.count_cons_self,
      decide_eq_false_iff_not] at h
    omega
  have hafter : after.reverse.find? (·.slug = x.slug) = none := by
    refine List.find?_eq_none.mpr fun y hy => ?_
    simpa using hlone y (List.mem_reverse.mp hy)
  unfold standing
  rw [List.reverse_append, List.reverse_cons, List.append_assoc, List.find?_append, hafter,
    List.singleton_append, List.find?_cons_of_pos (by simp)]
  rfl

theorem length_standing {landings : List Landing}
    (h : ∀ x ∈ landings, x.shared landings → standing landings x.slug = false) :
    ((landings.map Landing.slug).dedup.filter (standing landings)).length =
      landings.countP fun x => !(x.quarantined || x.shared landings) := by
  -- Where no shared slug stands, the slugs that stand are those of the clusters with a slug of
  -- their own that are not quarantined.
  have hstands : ∀ x ∈ landings,
      standing landings x.slug = !(x.quarantined || x.shared landings) := by
    intro x hx
    cases hshared : x.shared landings with
    | true => rw [h x hx hshared, Bool.or_true, Bool.not_true]
    | false => rw [standing_of_not_shared hx hshared, Bool.or_false]
  have hnodup : ((landings.map Landing.slug).filter (standing landings)).Nodup := by
    refine List.nodup_iff_count_le_one.mpr fun slug => ?_
    by_cases hmem : slug ∈ (landings.map Landing.slug).filter (standing landings)
    · obtain ⟨hslug, hstanding⟩ := List.mem_filter.mp hmem
      obtain ⟨x, hx, rfl⟩ := List.mem_map.mp hslug
      rw [hstands x hx, Bool.not_eq_true', Bool.or_eq_false_iff] at hstanding
      have hlone := hstanding.2
      unfold Landing.shared at hlone
      rw [decide_eq_false_iff_not, not_lt] at hlone
      exact (List.filter_sublist.count_le _).trans hlone
    · rw [List.count_eq_zero_of_not_mem hmem]
      exact Nat.zero_le 1
  have hperm : ((landings.map Landing.slug).dedup.filter (standing landings)).Perm
      ((landings.map Landing.slug).filter (standing landings)) := by
    refine (List.perm_ext_iff_of_nodup ((List.nodup_dedup _).filter _) hnodup).mpr fun slug => ?_
    rw [List.mem_filter, List.mem_filter, List.mem_dedup]
  rw [hperm.length_eq, List.filter_map, List.length_map, ← List.countP_eq_length_filter]
  exact List.countP_congr fun x hx => by rw [Function.comp_apply, hstands x hx]

section Clusters

variable {db : DbEnv} {env : SkillEnv} {cfg : ForgeConfig}

theorem candidate_stamped (d : Distilled) (scan : ScanResult) :
    (Dict.get (d.stamped cfg scan) "status").isStr Status.candidate.name =
      !decide (scan.state = .quarantined) := by
  unfold Distilled.stamped
  dsimp only
  split_ifs with hquarantined
  · rw [Dict.get_set, if_neg (by decide), Dict.get_set, if_pos rfl, decide_eq_true hquarantined]
    rfl
  · rw [Dict.get_set, if_neg (by decide), decide_eq_false hquarantined]
    rfl

theorem candidate_upsert (now : Int) (w : Upsert) (s : Store) (docId : String) :
    ((s.upsert db now w).status docId).isStr Status.candidate.name =
      if w.docId = docId then (Dict.get w.data "status").isStr Status.candidate.name
      else (s.status docId).isStr Status.candidate.name := by
  rw [Store.upsert, status_put]
  split_ifs
  · rw [Row.status, Json.get_jsonbFields, Json.isStr_jsonb]
  · rfl

/-- What a run has written so far: the documents of its landings, and of each the last one. -/
structure Ledger.Shows (l : Ledger) (landings : List Landing) : Prop where
  landed : l.landed = landings.map fun x => "forge/" ++ x.slug
  standing : ∀ slug ∈ landings.map Landing.slug,
    (l.store.status ("forge/" ++ slug)).isStr Status.candidate.name = standing landings slug

theorem serve_upsert {b : Surroundings} (h : b.reply ≠ .refused) (w : Upsert) (s : Store) :
    (Skills.serve db b (.upsertDocument w) s).2 = s.upsert db b.now w := by
  unfold Skills.serve Surroundings.write
  cases hreply : b.reply with
  | ok => rfl
  | refused => exact absurd hreply h
  | lost => rfl

theorem landing_of_blocked {d : Distilled} {o : Outcomes} (h : o.pass = false) :
    landing env cfg (.distilled d, o) = none := by
  unfold landing
  dsimp only
  split
  · rfl
  · rw [if_neg fun hall => Bool.false_ne_true (h ▸ hall.2.1)]

theorem landing_of_scan {d : Distilled} {o : Outcomes} {scan : ScanResult}
    (hscan : scanSkillDoc env.toTextEnv cfg.caps d.scannedAt (d.data cfg) = some scan) :
    landing env cfg (.distilled d, o) =
      if d.kind = "create" ∧ o.pass ∧ ¬ scan.anyFatal ∧ o.writer.reply ≠ .refused then
        some ⟨d.slug, scan.state = .quarantined, o.writer.reply = .ok⟩
      else none := by
  unfold landing
  dsimp only
  rw [hscan]

theorem Ledger.Shows.put {l : Ledger} {landings : List Landing} (h : l.Shows landings) (now : Int)
    (d : Distilled) (scan : ScanResult) (replied : Bool) (accepts : List (Option Status)) :
    Ledger.Shows ⟨l.store.upsert db now ⟨d.docId, cfg.fleetId, d.stamped cfg scan, cfg.caps, accepts⟩,
      l.landed ++ [d.docId]⟩ (landings ++ [⟨d.slug, scan.state = .quarantined, replied⟩]) where
  landed := by
    rw [h.landed, List.map_append]
    rfl
  standing := by
    intro slug hslug
    rw [standing_concat, candidate_upsert, candidate_stamped]
    by_cases hsame : slug = d.slug
    · have hid : d.docId = "forge/" ++ slug := hsame ▸ rfl
      rw [if_pos hsame, if_pos hid]
    · have hid : d.docId ≠ "forge/" ++ slug := fun hid => hsame (docId_injective hid).symm
      rw [if_neg hsame, if_neg hid]
      rw [List.map_append, List.mem_append] at hslug
      rcases hslug with hmem | hnew
      · exact h.standing slug hmem
      · exact absurd (List.mem_singleton.mp hnew) hsame

theorem pass_iff {o : Outcomes} (h : o.poisoned = .ok false) :
    o.pass = true ↔ ∃ found, o.found = .ok found ∧
      (!((found.map Row.status).getD .null).isNull &&
        !((found.map Row.status).getD .null).isStr Status.candidate.name) = false := by
  unfold Outcomes.pass
  rw [h]
  cases o.found with
  | error e => simp
  | ok found =>
    cases found with
    | none => simp [Json.isNull]
    | some row => simp [Row.has, imp_iff_not_or]

theorem writeCandidate_pass (d : Distilled) (data : Dict) {o : Outcomes} (l : Ledger)
    (hpoisoned : o.poisoned = .ok false) (h : o.pass = true) :
    Prog.alone (Outcomes.serve db) (fun _ => o) (writeCandidate env cfg d data) l =
      (.ok (if o.writer.reply = .ok then .written d.docId else .ioError),
        (Outcomes.serve db o (.upsertDocument
          ⟨d.docId, cfg.fleetId, data, cfg.caps, [none, some .candidate]⟩) l).2) := by
  -- What is left of a cluster whose checkers pass it is the write.
  obtain ⟨found, hfound, hstatus⟩ := (pass_iff hpoisoned).mp h
  simp only [writeCandidate, Prog.alone, Outcomes.serve, hfound, hstatus, Bool.false_eq_true, if_false,
    Skills.serve, Surroundings.write]
  cases o.writer.reply <;> rfl

theorem writeCandidate_blocked (d : Distilled) (data : Dict) {o : Outcomes} (l : Ledger)
    (hpoisoned : o.poisoned = .ok false) (h : o.pass = false) :
    ∃ disposition, writtenId disposition = none ∧
      Prog.alone (Outcomes.serve db) (fun _ => o) (writeCandidate env cfg d data) l =
        (.ok disposition, l) := by
  cases hfound : o.found with
  | error e =>
    exact ⟨.ioError, rfl, by simp only [writeCandidate, Prog.alone, Outcomes.serve, hfound]⟩
  | ok found =>
    have hstatus : (!((found.map Row.status).getD .null).isNull &&
        !((found.map Row.status).getD .null).isStr Status.candidate.name) = true := by
      by_contra hno
      rw [(pass_iff hpoisoned).mpr ⟨found, hfound, Bool.eq_false_of_not_eq_true hno⟩] at h
      cases h
    exact ⟨.existing, rfl, by
      simp only [writeCandidate, Prog.alone, Outcomes.serve, hfound, hstatus, if_true]⟩

/-- A cluster that gets as far as the table adds its document, and is counted where the reply gets
back; another leaves the table, and is counted in no case. -/
def Lands (db : DbEnv) (env : SkillEnv) (cfg : ForgeConfig) (m : Mined) (o : Outcomes) (l : Ledger)
    (landings : List Landing) : Prop :=
  ∃ d l', Prog.alone (Outcomes.serve db) (fun _ => o) (forgeCluster env cfg m) l = (.ok d, l') ∧
    (writtenId d).toList.length = (landing env cfg (m, o)).toList.countP Landing.replied ∧
    l'.Shows (landings ++ (landing env cfg (m, o)).toList)

theorem lands_of_left {m : Mined} {o : Outcomes} {l : Ledger} {landings : List Landing}
    (h : l.Shows landings) (d : Disposition) (hd : writtenId d = none)
    (hnone : landing env cfg (m, o) = none)
    (hrun : Prog.alone (Outcomes.serve db) (fun _ => o) (forgeCluster env cfg m) l = (.ok d, l)) :
    Lands db env cfg m o l landings := by
  refine ⟨d, l, hrun, ?_, ?_⟩
  · rw [hd, hnone]
    rfl
  · rw [hnone, Option.toList_none, List.append_nil]
    exact h

theorem scanned_lands {d : Distilled} {o : Outcomes} {l : Ledger} {landings : List Landing}
    (h : l.Shows landings) (hkind : d.kind = "create") (hpoisoned : o.poisoned = .ok false)
    {scan : ScanResult}
    (hscan : scanSkillDoc env.toTextEnv cfg.caps d.scannedAt (d.data cfg) = some scan) :
    Lands db env cfg (.distilled d) o l landings := by
  have hcluster : Prog.alone (Outcomes.serve db) (fun _ => o) (forgeCluster env cfg (.distilled d)) l =
      if scan.anyFatal then (.ok .sentinel, l)
      else Prog.alone (Outcomes.serve db) (fun _ => o)
        (writeCandidate env cfg d (d.stamped cfg scan)) l := by
    simp only [forgeCluster, hkind, ne_eq, not_true, if_false, Prog.alone, Outcomes.serve, hpoisoned,
      hscan]
    split_ifs <;> rfl
  have hlanding := landing_of_scan (o := o) hscan
  by_cases hfatal : scan.anyFatal = true
  · refine lands_of_left h .sentinel rfl ?_ (by rw [hcluster, if_pos hfatal])
    rw [hlanding, if_neg fun hall => hall.2.2.1 hfatal]
  rw [if_neg hfatal] at hcluster
  cases hpass : o.pass with
  | false =>
    obtain ⟨disposition, hnone, hrun⟩ :=
      writeCandidate_blocked d (d.stamped cfg scan) l hpoisoned hpass
    exact lands_of_left h disposition hnone (landing_of_blocked hpass) (hcluster.trans hrun)
  | true =>
    have hwrite := @writeCandidate_pass db env cfg d (d.stamped cfg scan) o l hpoisoned hpass
    by_cases hrefused : o.writer.reply = .refused
    · refine lands_of_left h .ioError rfl ?_ ?_
      · rw [hlanding, if_neg fun hall => hall.2.2.2 hrefused]
      · rw [hcluster, hwrite, hrefused]
        simp only [Outcomes.serve, Skills.serve, Surroundings.write, hrefused]
        rfl
    · rw [Lands, hlanding, if_pos ⟨hkind, hpass, hfatal, hrefused⟩, hcluster, hwrite]
      refine ⟨_, _, rfl, ?_, ?_⟩
      · cases hreply : o.writer.reply with
        | ok => rfl
        | refused => exact absurd hreply hrefused
        | lost => rfl
      · simp only [Outcomes.serve, if_neg hrefused]
        rw [serve_upsert hrefused]
        exact h.put o.writer.now d scan _ _

theorem forgeCluster_lands (m : Mined) (o : Outcomes) {l : Ledger} {landings : List Landing}
    (h : l.Shows landings) : Lands db env cfg m o l landings := by
  cases m with
  | parseError => exact lands_of_left h .distillError rfl rfl rfl
  | ioError => exact lands_of_left h .ioError rfl rfl rfl
  | distilled d =>
    by_cases hkind : d.kind = "create"
    · cases hpoisoned : o.poisoned with
      | error e =>
        refine lands_of_left h .ioError rfl
          (landing_of_blocked (by simp [Outcomes.pass, hpoisoned])) ?_
        simp only [forgeCluster, hkind, ne_eq, not_true, if_false, Prog.alone, Outcomes.serve,
          hpoisoned]
      | ok poisoned =>
        cases poisoned with
        | true =>
          refine lands_of_left h .poisoned rfl
            (landing_of_blocked (by simp [Outcomes.pass, hpoisoned])) ?_
          simp only [forgeCluster, hkind, ne_eq, not_true, if_false, Prog.alone, Outcomes.serve,
            hpoisoned]
        | false =>
          cases hscan : scanSkillDoc env.toTextEnv cfg.caps d.scannedAt (d.data cfg) with
          | none =>
            refine lands_of_left h .ioError rfl (by simp only [landing, hscan]) ?_
            simp only [forgeCluster, hkind, ne_eq, not_true, if_false, Prog.alone, Outcomes.serve,
              hpoisoned, hscan]
          | some scan => exact scanned_lands h hkind hpoisoned hscan
    · refine lands_of_left h .distillError rfl ?_ ?_
      · simp only [landing, hkind, false_and, if_false]
        split <;> rfl
      · rw [forgeCluster, if_pos hkind]
        rfl

theorem shows_nil (s : Store) : Ledger.Shows ⟨s, []⟩ [] :=
  ⟨rfl, fun _ hslug => absurd hslug List.not_mem_nil⟩

theorem forgeClusters_spec (clusters : List (Mined × Outcomes)) {l : Ledger}
    {landings : List Landing} (h : l.Shows landings) :
    ∃ ds l', forgeClusters db env cfg clusters l = (.ok ds, l') ∧ ds.length = clusters.length ∧
      (ds.filterMap writtenId).length =
        (clusters.filterMap (landing env cfg)).countP Landing.replied ∧
      l'.Shows (landings ++ clusters.filterMap (landing env cfg)) := by
  induction clusters generalizing l landings with
  | nil => exact ⟨[], l, rfl, rfl, rfl, by rwa [List.filterMap_nil, List.append_nil]⟩
  | cons cluster rest ih =>
    obtain ⟨m, o⟩ := cluster
    obtain ⟨d, l₁, hhere, hcount, hshows⟩ := @forgeCluster_lands db env cfg m o l landings h
    obtain ⟨ds, l₂, hlater, hlength, hcounts, hshows'⟩ := ih hshows
    have hsplit : ((m, o) :: rest).filterMap (landing env cfg) =
        (landing env cfg (m, o)).toList ++ rest.filterMap (landing env cfg) := by
      rw [List.filterMap_cons]
      cases landing env cfg (m, o) <;> rfl
    refine ⟨d :: ds, l₂, ?_, ?_, ?_, ?_⟩
    · simp only [forgeClusters, hhere, hlater]
      rfl
    · rw [List.length_cons, List.length_cons, hlength]
    · rw [hsplit, List.countP_append, ← hcount, ← hcounts, List.filterMap_cons]
      cases writtenId d <;> simp [Nat.add_comm]
    · rw [hsplit, ← List.append_assoc]
      exact hshows'

theorem Ledger.Shows.candidates {l : Ledger} {landings : List Landing} (h : l.Shows landings) :
    l.candidates = ((landings.map Landing.slug).dedup.filter (Forge.standing landings)).map
      fun slug => "forge/" ++ slug := by
  have hlanded : l.landed.dedup =
      (landings.map Landing.slug).dedup.map fun slug => "forge/" ++ slug := by
    rw [h.landed, ← List.dedup_map_of_injective docId_injective, List.map_map]
    rfl
  rw [Ledger.candidates, hlanded, List.filter_map]
  refine congrArg (List.map _) (List.filter_congr fun slug hslug => ?_)
  exact h.standing slug (List.mem_dedup.mp hslug)

/-- A run counts what it leaves exactly when its landings balance. -/
theorem counts_iff {r : ForgeRunResult} {l : Ledger} {landings : List Landing} (h : l.Shows landings)
    (hcount : r.candidatesWritten = landings.countP Landing.replied) :
    r.Counts l ↔ Balanced landings := by
  have hcounted : ∀ slug, l.landed.count ("forge/" ++ slug) =
      (landings.map Landing.slug).count slug := by
    intro slug
    have hmap : l.landed = (landings.map Landing.slug).map fun slug => "forge/" ++ slug := by
      rw [h.landed, List.map_map]
      rfl
    rw [hmap]
    exact List.count_map_of_injective _ _ docId_injective slug
  have hlone : (∀ docId ∈ l.candidates, l.landed.count docId = 1) ↔
      ∀ x ∈ landings, x.shared landings → standing landings x.slug = false := by
    rw [h.candidates]
    constructor
    · intro honce x hx hshared
      by_contra hstanding
      have hmem := List.mem_filter.mpr
        ⟨List.mem_dedup.mpr (List.mem_map_of_mem hx), Bool.eq_true_of_not_eq_false hstanding⟩
      have hone := honce _ (List.mem_map_of_mem hmem)
      rw [hcounted] at hone
      unfold Landing.shared at hshared
      rw [hone] at hshared
      cases hshared
    · intro hshared docId hdoc
      obtain ⟨slug, hslug, rfl⟩ := List.mem_map.mp hdoc
      obtain ⟨hmem, hstanding⟩ := List.mem_filter.mp hslug
      have hpos := List.count_pos_iff.mpr (List.mem_dedup.mp hmem)
      obtain ⟨x, hx, rfl⟩ := List.mem_map.mp (List.mem_dedup.mp hmem)
      rw [hcounted]
      by_contra hmore
      have hfalse := hshared x hx (by unfold Landing.shared; rw [decide_eq_true_eq]; omega)
      rw [hfalse] at hstanding
      cases hstanding
  unfold ForgeRunResult.Counts Balanced
  rw [hlone]
  refine and_congr_left fun hshared => ?_
  have hreplied := List.length_eq_countP_add_countP Landing.replied (l := landings)
  have hfree := List.length_eq_countP_add_countP
    (fun x => x.quarantined || x.shared landings) (l := landings)
  simp only [Bool.not_eq_true, Bool.decide_eq_false] at hreplied hfree
  rw [h.candidates, List.length_map, length_standing hshared, hcount]
  omega

theorem exists_outcomes (bs : ℕ → Surroundings) (m : Mined) (s : Store) :
    ∃ o : Outcomes, ∀ landed,
      (Prog.alone (Outcomes.serve db) (fun _ => o) (forgeCluster env cfg m) ⟨s, landed⟩).1 =
          (Prog.alone (Skills.serve db) bs (forgeCluster env cfg m) s).1 ∧
        (Prog.alone (Outcomes.serve db) (fun _ => o) (forgeCluster env cfg m) ⟨s, landed⟩).2.store =
          (Prog.alone (Skills.serve db) bs (forgeCluster env cfg m) s).2 := by
  -- Whatever storage answers to the calls of a cluster, there are outcomes under which the cluster
  -- goes the same way.
  cases m with
  | parseError => exact ⟨⟨.raised, .ok false, .ok none, bs 0⟩, fun _ => ⟨rfl, rfl⟩⟩
  | ioError => exact ⟨⟨.raised, .ok false, .ok none, bs 0⟩, fun _ => ⟨rfl, rfl⟩⟩
  | distilled d =>
    refine ⟨⟨.raised, (bs 0).read (s.isFingerprintPoisoned (bs 0).now cfg.fleetId d.fingerprint),
      (bs 1).read (s.find (env.pathId (.str d.docId))), bs 2⟩, fun landed => ?_⟩
    rw [forgeCluster]
    split_ifs with hkind
    · exact ⟨rfl, rfl⟩
    simp only [Prog.alone, Outcomes.serve, Skills.serve]
    cases (bs 0).read (s.isFingerprintPoisoned (bs 0).now cfg.fleetId d.fingerprint) with
    | error e => exact ⟨rfl, rfl⟩
    | ok poisoned =>
      cases poisoned with
      | true => exact ⟨rfl, rfl⟩
      | false =>
        dsimp only
        cases scanSkillDoc env.toTextEnv cfg.caps d.scannedAt (d.data cfg) with
        | none => exact ⟨rfl, rfl⟩
        | some scan =>
          dsimp only
          split_ifs with hfatal
          · exact ⟨rfl, rfl⟩
          simp only [writeCandidate, Prog.alone, Outcomes.serve, Skills.serve]
          cases (bs 1).read (s.find (env.pathId (.str d.docId))) with
          | error e => exact ⟨rfl, rfl⟩
          | ok found =>
            dsimp only
            split_ifs with hstatus
            · exact ⟨rfl, rfl⟩
            simp only [Prog.alone, Outcomes.serve, Skills.serve]
            unfold Surroundings.write
            cases (bs 2).reply <;> exact ⟨rfl, rfl⟩

/-- The run against storage goes the way of its clusters, each under outcomes of its own. -/
theorem forgeEach_storage (bs : ℕ → Surroundings) (mined : List Mined) (s : Store) :
    ∃ outcomes : List Outcomes, outcomes.length = mined.length ∧ ∀ landed,
      (forgeClusters db env cfg (mined.zip outcomes) ⟨s, landed⟩).1 =
          (Prog.alone (Skills.serve db) bs (forgeEach env cfg mined) s).1 ∧
        (forgeClusters db env cfg (mined.zip outcomes) ⟨s, landed⟩).2.store =
          (Prog.alone (Skills.serve db) bs (forgeEach env cfg mined) s).2 := by
  induction mined generalizing bs s with
  | nil => exact ⟨[], rfl, fun _ => ⟨rfl, rfl⟩⟩
  | cons m rest ih =>
    obtain ⟨o, hsame⟩ := @exists_outcomes db env cfg bs m s
    obtain ⟨d, _, hreturns, -⟩ := @forgeCluster_lands db env cfg m o ⟨s, []⟩ [] (shows_nil s)
    obtain ⟨outcomes, hlength, hrest⟩ :=
      ih (fun n => bs (n + (Prog.log (Skills.serve db) bs (forgeCluster env cfg m) s).length))
        (Prog.alone (Skills.serve db) bs (forgeCluster env cfg m) s).2
    refine ⟨o :: outcomes, congrArg (· + 1) hlength, fun landed => ?_⟩
    have hout : (Prog.alone (Skills.serve db) bs (forgeCluster env cfg m) s).1 = .ok d := by
      rw [← (hsame []).1, hreturns]
    have hpair := Prod.eta (Prog.alone (Skills.serve db) bs (forgeCluster env cfg m) s)
    rw [hout] at hpair
    have hhere := Prod.eta (Prog.alone (Outcomes.serve db) (fun _ => o) (forgeCluster env cfg m)
      ⟨s, landed⟩)
    rw [(hsame landed).1, hout] at hhere
    obtain ⟨hfirst, hsecond⟩ := hrest (Prog.alone (Outcomes.serve db) (fun _ => o)
      (forgeCluster env cfg m) ⟨s, landed⟩).2.landed
    have hledger : (Prog.alone (Outcomes.serve db) (fun _ => o) (forgeCluster env cfg m)
        ⟨s, landed⟩).2 = ⟨(Prog.alone (Skills.serve db) bs (forgeCluster env cfg m) s).2,
          (Prog.alone (Outcomes.serve db) (fun _ => o) (forgeCluster env cfg m)
            ⟨s, landed⟩).2.landed⟩ := by
      rw [← (hsame landed).2]
    rw [hledger] at hhere
    rw [forgeEach, Prog.alone_bind, ← hpair, List.zip_cons_cons, forgeClusters, ← hhere]
    dsimp only
    rw [hfirst, hsecond, Prog.alone_bind]
    rcases Prog.alone (Skills.serve db) _ (forgeEach env cfg rest) _ with ⟨out, after⟩
    cases out <;> exact ⟨rfl, rfl⟩

end Clusters

/-- The clustering always holds. A run counts all that it tries exactly when the bound does not count
from the end, and it counts the candidates that it leaves in the table exactly when its landings
balance. -/
theorem forge_run_iff (db : DbEnv) (env : SkillEnv) (chars : CaseChars) (cfg : ForgeConfig)
    (gates : ClusterConfig) (outcomes : ℕ → Outcomes) (traces : List TraceRow) (s : Store) :
    (∀ threshold labeled, Clustered threshold labeled (clusterByEntityOverlap threshold labeled)) ∧
      ∃ r l, runForgeDistill db env chars cfg gates outcomes traces ⟨s, []⟩ = (.ok r, l) ∧
        (((r.accounted : ℤ) = min (r.clustersEligible : ℤ) cfg.maxWritesPerRun ∧ r.Counts l) ↔
          0 ≤ cfg.maxWritesPerRun ∧
            Balanced ((tried chars cfg gates outcomes traces).filterMap (landing env cfg))) := by
  refine ⟨clustered, ?_⟩
  obtain ⟨ds, l, hrun, hlength, hcount, hshows⟩ :=
    @forgeClusters_spec db env cfg (tried chars cfg gates outcomes traces) _ _ (shows_nil s)
  refine ⟨_, l, by simp only [runForgeDistill, hrun]; rfl, ?_⟩
  have hbound : ((ds.length : ℤ) = min ((eligibleClusters gates traces).length : ℤ)
      cfg.maxWritesPerRun) ↔ 0 ≤ cfg.maxWritesPerRun := by
    rw [hlength, tried, ← length_sliceTo (eligibleClusters gates traces), sliceTo, sliceTo,
      List.length_take, List.length_take, List.length_mapIdx]
  rw [accounted_of, counts_iff hshows hcount, List.nil_append]
  exact and_congr_left fun _ => hbound

def deployAnswer : ParsedAnswer where
  kind := "create"
  goalPhrase := "deploy"
  domain := "ops"
  stepSkeleton := ["build"]
  name := "Deploy"
  slug := "deploy"
  description := "Deploys."
  summary := "Deploys."
  tags := []
  content := "Build it."
  goal := "g"
  evidence := "e"

def deployTrace (entity : String) : TraceRow := ⟨⟨"a", [], [entity]⟩, none, "r", "success", 0, 0⟩

/-- A run over traces with an entity each, all of which the model calls deploy. The status checker
finds what is given, nothing refuses a write, and every cluster counts. -/
def deployRun (found : ℕ → Option Row) (entities : List String) :
    Except Api.HTTPException ForgeRunResult × Ledger :=
  runForgeDistill .plain .ascii .ascii ⟨⟨40000, 160⟩, 20, none, "", ""⟩
    ⟨1, 1, .finite ⟨false, 7205759403792794, -54, by decide⟩⟩
    (fun i => ⟨.parsed deployAnswer "" "", .ok false, .ok (found i), ⟨.ok, "", 0, ""⟩⟩)
    (entities.map deployTrace) ⟨.empty, []⟩

/-- Two clusters without a common entity and one slug for both: the status checker finds the candidate
of the first, and lets the second overwrite it. -/
theorem forge_run_shares_slug :
    let stored := (deployRun (fun _ => none) ["x"]).2.store.find "forge/deploy"
    let run := deployRun (fun i => if i = 0 then none else stored) ["x", "y"]
    ¬ ∃ r, run.1 = .ok r ∧ r.Counts run.2 := by
  rintro stored run ⟨r, hout, hcounts, -⟩
  obtain ⟨hwritten, hleft⟩ : run.1.map ForgeRunResult.candidatesWritten = .ok 2 ∧
      run.2.candidates.length = 1 := by
    decide +kernel
  rw [hout] at hwritten
  have htwo : r.candidatesWritten = 2 := Except.ok.inj hwritten
  rw [htwo, hleft] at hcounts
  cases hcounts

end Memclaw.Forge
