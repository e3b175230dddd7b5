import Memclaw.Forge.DistillDefs
import Memclaw.Forge.Separation

/-! The fingerprint of a cluster that grows. The entities that count are the first by their ids, so
a new entity is absorbed by its id and not by how rarely it occurs. -/

namespace Memclaw.Forge

open Memclaw.Lib

variable {chars : CaseChars} {parsed : ParsedAnswer} {cluster added : List SessionTraceRow}

def frequency (traces : List SessionTraceRow) (e : String) : ℕ :=
  traces.countP fun t => t.entityIds.contains e

/-- Every entity that the traces add occurs in fewer traces than five others. -/
def Rare (cluster added : List SessionTraceRow) : Prop :=
  ∀ e ∈ entitiesOf added, e ∉ entitiesOf cluster →
    entityTopK ≤ ((entitiesOf (cluster ++ added)).dedup.filter fun e' =>
      frequency (cluster ++ added) e < frequency (cluster ++ added) e').length

/-- Five ids of the cluster precede every id that the traces add. -/
def Behind (cluster added : List SessionTraceRow) : Prop :=
  ∀ e ∈ entitiesOf added, e ∉ entitiesOf cluster →
    entityTopK ≤ SortedSet.rank (· ≤ ·) (entitiesOf cluster) e

theorem entitiesOf_append :
    entitiesOf (cluster ++ added) = entitiesOf cluster ++ entitiesOf added := List.flatMap_append

theorem canonicalEntities_top :
    canonicalEntities (topEntityIds cluster) none = topEntityIds cluster := by
  have hsorted : (topEntityIds cluster).Pairwise (· ≤ ·) :=
    SortedSet.pairwise_sorted.sublist (List.take_sublist _ _)
  have hnodup : (topEntityIds cluster).Nodup :=
    SortedSet.nodup_sorted.sublist (List.take_sublist _ _)
  have hshort : (topEntityIds cluster).length ≤ entityTopK := List.length_take_le _ _
  unfold canonicalEntities
  split_ifs with hempty
  · rw [List.isEmpty_iff.mp hempty]
  · have hsame : SortedSet.sorted (· ≤ ·) (topEntityIds cluster) = topEntityIds cluster := by
      rw [SortedSet.sorted, hnodup.dedup, hsorted.insertionSort_eq]
    have htop : topEntities (topEntityIds cluster) none =
        (SortedSet.sorted (· ≤ ·) (topEntityIds cluster)).take entityTopK := rfl
    rw [htop, hsame, List.take_of_length_le hshort, hsorted.insertionSort_eq]

theorem length_topEntityIds (h : entityTopK ≤ (entitiesOf cluster).dedup.length) :
    (topEntityIds cluster).length = entityTopK := by
  rw [topEntityIds, List.length_take, SortedSet.sorted, List.length_insertionSort]
  exact Nat.min_eq_left h

theorem topEntityIds_append_iff :
    topEntityIds (cluster ++ added) = topEntityIds cluster ↔ Behind cluster added := by
  -- The first ids stay exactly when the added ones are behind them.
  have hsub : entitiesOf cluster ⊆ entitiesOf (cluster ++ added) := by
    rw [entitiesOf_append]
    exact List.subset_append_left _ _
  rw [topEntityIds, topEntityIds, SortedSet.take_sorted_eq_iff hsub, Behind, entitiesOf_append]
  constructor
  · exact fun h e he => h e (List.mem_append_right _ he)
  · intro h e he hnew
    rcases List.mem_append.mp he with hold | hadded
    · exact absurd hold hnew
    · exact h e hadded hnew

theorem fp_of_behind (h : Behind cluster added) :
    (computeFingerprint chars (fingerprintInputs parsed (cluster ++ added))).fp =
      (computeFingerprint chars (fingerprintInputs parsed cluster)).fp := by
  have hinputs : fingerprintInputs parsed (cluster ++ added) = fingerprintInputs parsed cluster := by
    rw [fingerprintInputs, fingerprintInputs, topEntityIds_append_iff.mpr h]
  rw [hinputs]

theorem tame_top (htame : ∀ id ∈ entitiesOf cluster, Tame id) :
    ∀ id ∈ (fingerprintInputs parsed cluster).entityIds, Tame id :=
  fun id hid => htame id (SortedSet.mem_sorted.mp (List.mem_of_mem_take hid))

theorem behind_of_fp (hfive : entityTopK ≤ (entitiesOf cluster).dedup.length)
    (htame : ∀ id ∈ entitiesOf (cluster ++ added), Tame id)
    (hinj : Set.InjOn Sha256.sha256 {message chars (fingerprintInputs parsed (cluster ++ added)),
      message chars (fingerprintInputs parsed cluster)})
    (h : (computeFingerprint chars (fingerprintInputs parsed (cluster ++ added))).fp =
      (computeFingerprint chars (fingerprintInputs parsed cluster)).fp) : Behind cluster added := by
  -- One fingerprint for both clusters means one list of entities.
  have hold : ∀ id ∈ entitiesOf cluster, Tame id := by
    intro id hid
    rw [entitiesOf_append] at htame
    exact htame id (List.mem_append_left _ hid)
  have hlength := length_topEntityIds hfive
  rcases (render_eq_iff_parts (tame_top htame) (tame_top hold)).mp (fp_inj hinj h) with hsame | hblur
  · have hentities := hsame.entities
    simp only [fingerprintInputs, canonicalEntities_top] at hentities
    exact topEntityIds_append_iff.mp hentities
  · -- A list of five entities is no list without an id.
    have hlists := hblur.entities
    rcases hlists with hentities | hblurred
    · simp only [fingerprintInputs, canonicalEntities_top] at hentities
      exact topEntityIds_append_iff.mp hentities
    · have hone := oneEmpty_entities.mpr hblurred
      simp only [fingerprintInputs, canonicalEntities_top] at hone
      rcases hone with ⟨-, hone⟩ | ⟨-, hone⟩
      · rw [hone] at hlength
        cases hlength
      · rw [hone] at hlength
        cases hlength

structure Absorbed (chars : CaseChars) (nowIso scannedAt : String) (parsed : ParsedAnswer)
    (cluster added : List SessionTraceRow) : Prop where
  fingerprint : Rare cluster added →
    (distillCluster chars nowIso scannedAt parsed (cluster ++ added)).fingerprint =
      (distillCluster chars nowIso scannedAt parsed cluster).fingerprint
  poison : Rare cluster added → ∀ (s : Skills.Store) (now : Int) (fleetId : Option String),
    s.isFingerprintPoisoned now fleetId
        (distillCluster chars nowIso scannedAt parsed cluster).fingerprint = true →
      s.isFingerprintPoisoned now fleetId
        (distillCluster chars nowIso scannedAt parsed (cluster ++ added)).fingerprint = true

/-- A cluster of five entities or more absorbs rare ones exactly when their ids are behind. -/
theorem absorbed_iff (chars : CaseChars) (nowIso scannedAt : String) (parsed : ParsedAnswer)
    (cluster added : List SessionTraceRow)
    (hfive : entityTopK ≤ (entitiesOf cluster).dedup.length)
    (htame : ∀ id ∈ entitiesOf (cluster ++ added), Tame id)
    (hinj : Set.InjOn Sha256.sha256 {message chars (fingerprintInputs parsed (cluster ++ added)),
      message chars (fingerprintInputs parsed cluster)}) :
    Absorbed chars nowIso scannedAt parsed cluster added ↔
      (Rare cluster added → Behind cluster added) := by
  constructor
  · exact fun h hrare => behind_of_fp hfive htame hinj (h.fingerprint hrare)
  · intro h
    refine ⟨fun hrare => fp_of_behind (h hrare), fun hrare s now fleetId hpoisoned => ?_⟩
    have hfp : (distillCluster chars nowIso scannedAt parsed (cluster ++ added)).fingerprint =
        (distillCluster chars nowIso scannedAt parsed cluster).fingerprint := fp_of_behind (h hrare)
    rw [hfp]
    exact hpoisoned

def incidentAnswer : ParsedAnswer where
  kind := "create"
  goalPhrase := "deploy"
  domain := "devops"
  stepSkeleton := ["roll back"]
  name := "Roll back"
  slug := "roll-back"
  description := "Rolls back."
  summary := "Rolls back a deploy."
  tags := []
  content := "Roll back."
  goal := "Roll back a deploy."
  evidence := "Three incidents."

def incidentIds : List String := ["e1", "e2", "e3", "e4", "e5"]

def incidents : List SessionTraceRow :=
  [⟨"a1", ["m1"], incidentIds⟩, ⟨"a2", ["m2"], incidentIds⟩, ⟨"a3", ["m3"], incidentIds⟩]

/-- One more trace, with a rare entity behind the others. -/
theorem absorbed_iff_incidents :
    Absorbed CaseChars.ascii "" "" incidentAnswer incidents
      [⟨"a4", ["m4"], "e6" :: incidentIds⟩] := by
  have hfive : entityTopK ≤ (entitiesOf incidents).dedup.length := by decide
  have htame : ∀ id ∈ entitiesOf (incidents ++ [⟨"a4", ["m4"], "e6" :: incidentIds⟩]),
      Tame id := by
    unfold Tame
    decide
  have hbehind : Behind incidents [⟨"a4", ["m4"], "e6" :: incidentIds⟩] := by
    unfold Behind
    decide
  refine (absorbed_iff CaseChars.ascii "" "" incidentAnswer incidents _ hfive htame ?_).mpr fun _ =>
    hbehind
  have hmessage : message CaseChars.ascii (fingerprintInputs incidentAnswer
      (incidents ++ [⟨"a4", ["m4"], "e6" :: incidentIds⟩])) =
      message CaseChars.ascii (fingerprintInputs incidentAnswer incidents) := by
    rw [fingerprintInputs, topEntityIds_append_iff.mpr hbehind]
    rfl
  rw [hmessage, Set.pair_eq_singleton]
  exact Set.injOn_singleton _ _

/-- One more trace, with a rare entity in front of the others. -/
theorem not_absorbed_first : ¬ ∀ (chars : CaseChars) (nowIso scannedAt : String)
    (parsed : ParsedAnswer) (cluster added : List SessionTraceRow),
    entityTopK ≤ (entitiesOf cluster).dedup.length → Rare cluster added →
      (distillCluster chars nowIso scannedAt parsed (cluster ++ added)).fingerprint =
        (distillCluster chars nowIso scannedAt parsed cluster).fingerprint := by
  intro h
  have hsame := h CaseChars.ascii "" "" incidentAnswer incidents
    [⟨"a4", ["m4"], "e0" :: incidentIds⟩] (by decide) (by
      unfold Rare
      decide)
  exact absurd hsame (by decide +kernel)

end Memclaw.Forge
