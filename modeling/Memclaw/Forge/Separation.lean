import Memclaw.Forge.Stability
import Memclaw.Lib.FixedWidth
import Memclaw.Lib.Json
import Memclaw.Skills.StoreDefs

/-! When two clusters have one canonical form. A list without parts and a list with one empty part
are written in one way; all else can be read back. -/

namespace Memclaw.Forge

open Memclaw.Lib

variable {chars : CaseChars}

theorem toList_joined (sep : Char) (parts : List String) :
    (joined sep parts).toList = [sep].intercalate (parts.map String.toList) := String.toList_ofList

theorem of_mem_joined {sep c : Char} {parts : List String} (h : c ∈ (joined sep parts).toList) :
    c = sep ∨ ∃ part ∈ parts, c ∈ part.toList := by
  rw [toList_joined] at h
  induction parts with
  | nil => cases h
  | cons part parts ih =>
    cases parts with
    | nil =>
      rw [List.map_singleton, List.intercalate_singleton] at h
      exact .inr ⟨part, List.mem_cons_self, h⟩
    | cons part' parts =>
      rw [List.map_cons, List.map_cons, List.intercalate_cons_cons, List.mem_append,
        List.mem_append, List.mem_singleton] at h
      rcases h with (h | h) | h
      · exact .inr ⟨part, List.mem_cons_self, h⟩
      · exact .inl h
      · rcases ih h with hsep | ⟨part'', hmem, hc⟩
        · exact .inl hsep
        · exact .inr ⟨part'', List.mem_cons_of_mem part hmem, hc⟩

def OneEmpty (parts parts' : List String) : Prop :=
  parts = [] ∧ parts' = [""] ∨ parts = [""] ∧ parts' = []

theorem joined_eq_iff {sep : Char} {parts parts' : List String} (h : ∀ p ∈ parts, sep ∉ p.toList)
    (h' : ∀ p ∈ parts', sep ∉ p.toList) :
    joined sep parts = joined sep parts' ↔ parts = parts' ∨ OneEmpty parts parts' := by
  -- Parts without the separator can be read back, but for an empty part and none.
  have hread : ∀ ps : List String, ps ≠ [] → (∀ p ∈ ps, sep ∉ p.toList) →
      ((joined sep ps).toList.splitOn sep) = ps.map String.toList := by
    intro ps hne hps
    rw [toList_joined]
    refine List.splitOn_intercalate sep (fun l hl => ?_) fun hnil => hne (List.map_eq_nil_iff.mp hnil)
    obtain ⟨p, hp, rfl⟩ := List.mem_map.mp hl
    exact hps p hp
  have hempty : ∀ ps : List String, ps ≠ [] → (∀ p ∈ ps, sep ∉ p.toList) →
      joined sep ps = joined sep [] → ps = [""] := by
    intro ps hne hps heq
    have hsplit := hread ps hne hps
    rw [heq, toList_joined, List.map_nil, List.intercalate_nil] at hsplit
    exact List.map_injective_iff.mpr (fun _ _ => String.toList_inj.mp) hsplit.symm
  constructor
  · intro heq
    by_cases hne : parts = []
    · by_cases hne' : parts' = []
      · exact .inl (hne.trans hne'.symm)
      · exact .inr (.inl ⟨hne, hempty parts' hne' h' (by rw [← heq, hne])⟩)
    · by_cases hne' : parts' = []
      · exact .inr (.inr ⟨hempty parts hne h (by rw [heq, hne']), hne'⟩)
      · have hsplit := hread parts hne h
        rw [heq, hread parts' hne' h'] at hsplit
        exact .inl (List.map_injective_iff.mpr (fun _ _ => String.toList_inj.mp) hsplit.symm)
  · rintro (rfl | ⟨rfl, rfl⟩ | ⟨rfl, rfl⟩)
    · rfl
    · rfl
    · rfl

theorem mem_dropEnd {token : String} {n : ℕ} {c : Char} (h : c ∈ (dropEnd token n).toList) :
    c ∈ token.toList := by
  rw [dropEnd, String.toList_ofList] at h
  exact List.mem_of_mem_take h

theorem of_mem_stripSimplePlural {token : String} {c : Char}
    (h : c ∈ (stripSimplePlural token).toList) : c ∈ token.toList ∨ c = 'y' := by
  unfold stripSimplePlural at h
  split_ifs at h
  · exact .inl h
  · exact .inl h
  · rw [String.toList_append, List.mem_append] at h
    rcases h with h | h
    · exact .inl (mem_dropEnd h)
    · exact .inr (List.mem_singleton.mp h)
  · exact .inl (mem_dropEnd h)
  · exact .inl h

theorem stripSimplePlural_ne {token : String} (h : token ≠ "") : stripSimplePlural token ≠ "" := by
  have hdrop : 4 < token.length → dropEnd token 1 ≠ "" := by
    intro hlong hnil
    have hlength := congrArg String.length hnil
    rw [dropEnd, String.length_ofList, List.length_take, String.length_toList] at hlength
    simp at hlength
    omega
  unfold stripSimplePlural
  split_ifs with hshort
  · exact h
  · exact h
  · intro hnil
    have hlength := congrArg String.length hnil
    rw [String.length_append] at hlength
    simp at hlength
  · exact hdrop (Nat.lt_of_not_le hshort)
  · exact h

theorem of_mem_wordsOf {text w : String} (h : w ∈ wordsOf chars text) :
    w ≠ "" ∧ ∀ c ∈ w.toList, alphanumeric c = true := by
  rw [wordsOf_eq] at h
  obtain ⟨t, ht, rfl⟩ := List.mem_map.mp h
  obtain ⟨token, htoken, rfl⟩ := List.mem_map.mp (List.mem_filter.mp ht).1
  obtain ⟨hne, hletters⟩ := of_mem_segments htoken
  refine ⟨stripSimplePlural_ne fun hnil => hne ?_, fun c hc => ?_⟩
  · rw [← String.toList_ofList (l := token), hnil]
    rfl
  · rcases of_mem_stripSimplePlural hc with hc | rfl
    · rw [String.toList_ofList] at hc
      have hno := hletters c hc
      rw [separator, Bool.not_eq_false'] at hno
      exact hno
    · rfl

theorem words_plain {words : List String} (h : ∀ w ∈ words, ∀ c ∈ w.toList, alphanumeric c = true) :
    ∀ c ∈ (joined ' ' words).toList, c = ' ' ∨ alphanumeric c = true := by
  intro c hc
  rcases of_mem_joined hc with hsep | ⟨w, hw, hmem⟩
  · exact .inl hsep
  · exact .inr (h w hw c hmem)

theorem goal_plain (text : String) :
    ∀ c ∈ (canonicalGoalPhrase chars text).toList, c = ' ' ∨ alphanumeric c = true := by
  rw [canonicalGoalPhrase_eq]
  exact words_plain fun w hw => (of_mem_wordsOf (SortedSet.mem_sorted.mp (List.mem_of_mem_take hw))).2

theorem step_plain {steps : List String} {step : String}
    (h : step ∈ canonicalStepSkeleton chars steps) :
    ∀ c ∈ step.toList, c = ' ' ∨ alphanumeric c = true := by
  obtain ⟨raw, -, rfl⟩ := List.mem_map.mp h
  exact words_plain fun w hw => (of_mem_wordsOf (List.mem_of_mem_take hw)).2

theorem mem_of_mem_canonicalEntities {ids : List String} {scores : Option (List (String × ℚ))}
    {e : String} (h : e ∈ canonicalEntities ids scores) : e ∈ ids := by
  rw [canonicalEntities_eq, List.mem_insertionSort] at h
  exact SortedSet.mem_sorted.mp (List.mem_of_mem_take h)

def Tame (id : String) : Prop := ',' ∉ id.toList ∧ '\n' ∉ id.toList

/-- The four lines of a text are read back: the first and the last two have no line break. -/
theorem render_eq_iff {i i' : ClusterFingerprintInputs} (hids : ∀ id ∈ i.entityIds, Tame id)
    (hids' : ∀ id ∈ i'.entityIds, Tame id) :
    renderCanonicalForm chars i = renderCanonicalForm chars i' ↔
      canonicalGoalPhrase chars i.goalPhrase = canonicalGoalPhrase chars i'.goalPhrase ∧
      canonicalDomain chars i.domain = canonicalDomain chars i'.domain ∧
      joined ',' (canonicalEntities i.entityIds i.entityCentralities) =
        joined ',' (canonicalEntities i'.entityIds i'.entityCentralities) ∧
      joined '|' (canonicalStepSkeleton chars i.stepSkeleton) =
        joined '|' (canonicalStepSkeleton chars i'.stepSkeleton) := by
  have hgoal : ∀ text, '\n' ∉ (canonicalGoalPhrase chars text).toList := by
    intro text hmem
    rcases goal_plain text _ hmem with h | h <;> cases h
  have hsteps : ∀ steps, '\n' ∉ "steps=".toList ++
      (joined '|' (canonicalStepSkeleton chars steps)).toList := by
    intro steps hmem
    rcases List.mem_append.mp hmem with h | h
    · exact absurd h (by decide)
    · rcases of_mem_joined h with h | ⟨step, hstep, h⟩
      · cases h
      · rcases step_plain hstep _ h with h | h <;> cases h
  have hentities : ∀ (ids : List String) (scores : Option (List (String × ℚ))),
      (∀ id ∈ ids, Tame id) →
        '\n' ∉ "entities=".toList ++ (joined ',' (canonicalEntities ids scores)).toList := by
    intro ids scores htame hmem
    rcases List.mem_append.mp hmem with h | h
    · exact absurd h (by decide)
    · rcases of_mem_joined h with h | ⟨id, hid, h⟩
      · cases h
      · exact (htame id (mem_of_mem_canonicalEntities hid)).2 h
  -- The text as its lines, the domain between the first and the last two.
  have hlines : ∀ j : ClusterFingerprintInputs, (renderCanonicalForm chars j).toList =
      (("goal=".toList ++ (canonicalGoalPhrase chars j.goalPhrase).toList) ++
        '\n' :: ("domain=".toList ++ (canonicalDomain chars j.domain).toList)) ++
        '\n' :: ("entities=".toList ++
          (joined ',' (canonicalEntities j.entityIds j.entityCentralities)).toList) ++
        '\n' :: ("steps=".toList ++
          (joined '|' (canonicalStepSkeleton chars j.stepSkeleton)).toList) := by
    intro j
    simp [renderCanonicalForm, String.toList_append]
  constructor
  · intro h
    have htext := congrArg String.toList h
    rw [hlines, hlines] at htext
    obtain ⟨htext, hs⟩ := cut_last (hsteps _) (hsteps _) htext
    obtain ⟨htext, he⟩ := cut_last (hentities _ _ hids) (hentities _ _ hids') htext
    have hfirst : ∀ text, '\n' ∉ "goal=".toList ++ (canonicalGoalPhrase chars text).toList := by
      intro text hmem
      rcases List.mem_append.mp hmem with h | h
      · exact absurd h (by decide)
      · exact hgoal text h
    obtain ⟨hg, hd⟩ := cut_first (hfirst _) (hfirst _) htext
    exact ⟨String.toList_inj.mp (List.append_cancel_left hg),
      String.toList_inj.mp (List.append_cancel_left hd),
      String.toList_inj.mp (List.append_cancel_left he),
      String.toList_inj.mp (List.append_cancel_left hs)⟩
  · rintro ⟨hg, hd, he, hs⟩
    rw [renderCanonicalForm, renderCanonicalForm, hg, hd, he, hs]

theorem joined_eq_nil {words : List String} (h : ∀ w ∈ words, w ≠ "") :
    joined ' ' words = "" ↔ words = [] := by
  constructor
  · intro hnil
    cases words with
    | nil => rfl
    | cons w words =>
      obtain ⟨c, cs, hc⟩ : ∃ c cs, w.toList = c :: cs :=
        List.exists_cons_of_ne_nil fun hw => h w List.mem_cons_self (String.toList_eq_nil_iff.mp hw)
      have hchars := congrArg String.toList hnil
      rw [toList_joined, List.map_cons, hc] at hchars
      cases words with
      | nil => rw [List.map_nil, List.intercalate_singleton] at hchars; cases hchars
      | cons w' words => rw [List.map_cons, List.intercalate_cons_cons] at hchars; cases hchars
  · rintro rfl
    rfl

theorem canonicalSteps_eq_singleton {steps : List String} :
    canonicalStepSkeleton chars steps = [""] ↔ ∃ step, steps = [step] ∧ wordsOf chars step = [] := by
  have hwords : ∀ step, joined ' ' ((wordsOf chars step).take stepWordsCap) = "" ↔
      wordsOf chars step = [] := by
    intro step
    rw [joined_eq_nil fun w hw => (of_mem_wordsOf (List.mem_of_mem_take hw)).1, List.take_eq_nil_iff]
    exact or_iff_right (by decide)
  constructor
  · intro h
    obtain ⟨step, rfl, hstep⟩ := List.map_eq_singleton_iff.mp h
    exact ⟨step, rfl, (hwords step).mp hstep⟩
  · rintro ⟨step, rfl, hstep⟩
    exact congrArg (fun s => [s]) ((hwords step).mpr hstep)

theorem canonicalSteps_eq_nil {steps : List String} :
    canonicalStepSkeleton chars steps = [] ↔ steps = [] := List.map_eq_nil_iff

theorem canonicalEntities_eq_nil {ids : List String} {scores : Option (List (String × ℚ))} :
    canonicalEntities ids scores = [] ↔ ids = [] := by
  constructor
  · intro h
    rw [canonicalEntities_eq] at h
    have hlength := congrArg List.length h
    rw [List.length_insertionSort, List.length_take, SortedSet.sorted, List.length_insertionSort,
      List.length_nil, Nat.min_eq_zero_iff] at hlength
    rcases hlength with hk | hlength
    · cases hk
    · rw [List.length_eq_zero_iff, List.dedup_eq_nil] at hlength
      exact hlength
  · rintro rfl
    rfl

theorem canonicalEntities_eq_singleton {ids : List String} {scores : Option (List (String × ℚ))} :
    canonicalEntities ids scores = [""] ↔ ids ≠ [] ∧ ∀ id ∈ ids, id = "" := by
  -- The only entity has an empty id.
  constructor
  · intro h
    have hne : ids ≠ [] := by
      rintro rfl
      cases h
    refine ⟨hne, fun id hid => ?_⟩
    rw [canonicalEntities_eq] at h
    have hlength := congrArg List.length h
    rw [List.length_insertionSort, List.length_take, List.length_singleton] at hlength
    obtain ⟨only, honly⟩ : ∃ only, SortedSet.sorted (Ranked (scoreOf scores)) ids = [only] := by
      rw [← List.length_eq_one_iff]
      have htop : entityTopK = 5 := rfl
      omega
    have hall : ∀ a ∈ ids, a = only := by
      intro a ha
      have hmem := (SortedSet.mem_sorted (r := Ranked (scoreOf scores))).mpr ha
      rw [honly, List.mem_singleton] at hmem
      exact hmem
    rw [honly] at h
    rw [hall id hid]
    exact (List.cons.inj h).1
  · rintro ⟨hne, hall⟩
    obtain ⟨id, ids, rfl⟩ := List.exists_cons_of_ne_nil hne
    have hset : ∀ a, a ∈ id :: ids ↔ a ∈ [""] := by
      intro a
      rw [List.mem_singleton]
      constructor
      · exact hall a
      · rintro rfl
        rw [← hall id List.mem_cons_self]
        exact List.mem_cons_self
    rw [canonicalEntities_eq, SortedSet.sorted_congr hset]
    rfl

structure SameParts (chars : CaseChars) (i i' : ClusterFingerprintInputs) : Prop where
  goal : canonicalGoalPhrase chars i.goalPhrase = canonicalGoalPhrase chars i'.goalPhrase
  domain : canonicalDomain chars i.domain = canonicalDomain chars i'.domain
  entities : canonicalEntities i.entityIds i.entityCentralities =
    canonicalEntities i'.entityIds i'.entityCentralities
  steps : canonicalStepSkeleton chars i.stepSkeleton = canonicalStepSkeleton chars i'.stepSkeleton

/-- Clusters of one text have the same parts, and so have clusters of which one is poisoned by the
rejection of the other. -/
structure Separated (chars : CaseChars) (i i' : ClusterFingerprintInputs) : Prop where
  text : renderCanonicalForm chars i = renderCanonicalForm chars i' → SameParts chars i i'
  poison : ∀ (db : Skills.DbEnv) (b : Skills.Surroundings) (r : Skills.Rejection) (s : Skills.Store)
    (now : Int) (fleetId : Option String), r.clusterFingerprint = (computeFingerprint chars i).fp →
      s.isFingerprintPoisoned now fleetId (computeFingerprint chars i').fp = false →
      (Skills.serve db b (.writeRejectedFingerprint r) s).2.isFingerprintPoisoned now fleetId
        (computeFingerprint chars i').fp = true → SameParts chars i i'

def NoIds (ids ids' : List String) : Prop := ids = [] ∧ ids' ≠ [] ∧ ∀ id ∈ ids', id = ""

def NoWords (chars : CaseChars) (steps steps' : List String) : Prop :=
  steps = [] ∧ ∃ step, steps' = [step] ∧ wordsOf chars step = []

def BlurredEntities (i i' : ClusterFingerprintInputs) : Prop :=
  NoIds i.entityIds i'.entityIds ∨ NoIds i'.entityIds i.entityIds

def BlurredSteps (chars : CaseChars) (i i' : ClusterFingerprintInputs) : Prop :=
  NoWords chars i.stepSkeleton i'.stepSkeleton ∨ NoWords chars i'.stepSkeleton i.stepSkeleton

/-- The clusters differ in one of these ways only. -/
structure Blurred (chars : CaseChars) (i i' : ClusterFingerprintInputs) : Prop where
  goal : canonicalGoalPhrase chars i.goalPhrase = canonicalGoalPhrase chars i'.goalPhrase
  domain : canonicalDomain chars i.domain = canonicalDomain chars i'.domain
  entities : canonicalEntities i.entityIds i.entityCentralities =
    canonicalEntities i'.entityIds i'.entityCentralities ∨ BlurredEntities i i'
  steps : canonicalStepSkeleton chars i.stepSkeleton = canonicalStepSkeleton chars i'.stepSkeleton ∨
    BlurredSteps chars i i'
  blurred : BlurredEntities i i' ∨ BlurredSteps chars i i'

theorem oneEmpty_entities {i i' : ClusterFingerprintInputs} :
    OneEmpty (canonicalEntities i.entityIds i.entityCentralities)
      (canonicalEntities i'.entityIds i'.entityCentralities) ↔ BlurredEntities i i' := by
  rw [OneEmpty, canonicalEntities_eq_nil, canonicalEntities_eq_nil, canonicalEntities_eq_singleton,
    canonicalEntities_eq_singleton, BlurredEntities, NoIds, NoIds, and_comm (b := i'.entityIds = [])]

theorem oneEmpty_steps {i i' : ClusterFingerprintInputs} :
    OneEmpty (canonicalStepSkeleton chars i.stepSkeleton)
      (canonicalStepSkeleton chars i'.stepSkeleton) ↔ BlurredSteps chars i i' := by
  rw [OneEmpty, canonicalSteps_eq_nil, canonicalSteps_eq_nil, canonicalSteps_eq_singleton,
    canonicalSteps_eq_singleton, BlurredSteps, NoWords, NoWords,
    and_comm (b := i'.stepSkeleton = [])]

theorem not_oneEmpty {parts : List String} : ¬ OneEmpty parts parts := by
  rintro (⟨hnil, hone⟩ | ⟨hone, hnil⟩)
  · rw [hnil] at hone
    cases hone
  · rw [hnil] at hone
    cases hone

theorem render_eq_iff_parts {i i' : ClusterFingerprintInputs} (hids : ∀ id ∈ i.entityIds, Tame id)
    (hids' : ∀ id ∈ i'.entityIds, Tame id) :
    renderCanonicalForm chars i = renderCanonicalForm chars i' ↔
      SameParts chars i i' ∨ Blurred chars i i' := by
  have hcomma : ∀ {j : ClusterFingerprintInputs}, (∀ id ∈ j.entityIds, Tame id) →
      ∀ e ∈ canonicalEntities j.entityIds j.entityCentralities, ',' ∉ e.toList :=
    fun htame e he => (htame e (mem_of_mem_canonicalEntities he)).1
  have hbar : ∀ {j : ClusterFingerprintInputs},
      ∀ step ∈ canonicalStepSkeleton chars j.stepSkeleton, '|' ∉ step.toList := by
    intro j step hstep hmem
    rcases step_plain hstep _ hmem with h | h <;> cases h
  rw [render_eq_iff hids hids', joined_eq_iff (hcomma hids) (hcomma hids'),
    joined_eq_iff hbar hbar, oneEmpty_entities, oneEmpty_steps]
  constructor
  · rintro ⟨hg, hd, he, hs⟩
    rcases he with he | he
    · rcases hs with hs | hs
      · exact .inl ⟨hg, hd, he, hs⟩
      · exact .inr ⟨hg, hd, .inl he, .inr hs, .inr hs⟩
    · exact .inr ⟨hg, hd, .inr he, hs, .inl he⟩
  · rintro (⟨hg, hd, he, hs⟩ | ⟨hg, hd, he, hs, -⟩)
    · exact ⟨hg, hd, .inl he, .inl hs⟩
    · exact ⟨hg, hd, he, hs⟩

theorem Blurred.not_same {i i' : ClusterFingerprintInputs} (h : Blurred chars i i') :
    ¬ SameParts chars i i' := by
  intro hsame
  rcases h.blurred with he | hs
  · have hone := oneEmpty_entities.mpr he
    rw [hsame.entities] at hone
    exact not_oneEmpty hone
  · have hone := oneEmpty_steps.mpr hs
    rw [hsame.steps] at hone
    exact not_oneEmpty hone

def message (chars : CaseChars) (i : ClusterFingerprintInputs) : Sha256.Bytes :=
  encodeUtf8 (renderCanonicalForm chars i).toList

theorem hexdigest_injective : Function.Injective Sha256.hexdigest := by
  intro bytes
  induction bytes with
  | nil =>
    intro bytes' h
    cases bytes' with
    | nil => rfl
    | cons b bytes' =>
      have hchars := congrArg String.toList h
      simp [Sha256.hexdigest] at hchars
  | cons a bytes ih =>
    intro bytes' h
    cases bytes' with
    | nil =>
      have hchars := congrArg String.toList h
      simp [Sha256.hexdigest] at hchars
    | cons b bytes' =>
      have hchars := congrArg String.toList h
      simp only [Sha256.hexdigest, String.toList_ofList, List.flatMap_cons, List.cons_append,
        List.nil_append, List.cons.injEq] at hchars
      obtain ⟨hhigh, hlow, hrest⟩ := hchars
      have ha := a.toNat_lt
      have hb := b.toNat_lt
      have hdiv := digitChar_inj _ (by omega) _ (by omega) hhigh
      have hmod := digitChar_inj _ (by omega) _ (by omega) hlow
      have hbyte : a = b := UInt8.toNat_inj.mp (by omega)
      have hbytes : bytes = bytes' := ih (congrArg String.ofList hrest)
      rw [hbyte, hbytes]

theorem fp_inj {i i' : ClusterFingerprintInputs}
    (hinj : Set.InjOn Sha256.sha256 {message chars i, message chars i'})
    (h : (computeFingerprint chars i).fp = (computeFingerprint chars i').fp) :
    renderCanonicalForm chars i = renderCanonicalForm chars i' := by
  have hchars := congrArg String.toList h
  simp only [computeFingerprint, String.toList_append] at hchars
  have hhex := hexdigest_injective (String.toList_inj.mp (List.append_cancel_left hchars))
  have hmessage := hinj (Set.mem_insert _ _) (Set.mem_insert_of_mem _ rfl) hhex
  exact String.toList_inj.mp (encodeUtf8_injective hmessage)

theorem fingerprint_of_poisoned {db : Skills.DbEnv} {b : Skills.Surroundings} {r : Skills.Rejection}
    {s : Skills.Store} {now : Int} {fleetId : Option String} {fp : String}
    (hbefore : s.isFingerprintPoisoned now fleetId fp = false)
    (hafter : (Skills.serve db b (.writeRejectedFingerprint r) s).2.isFingerprintPoisoned now fleetId
      fp = true) : r.clusterFingerprint = fp := by
  have hwritten : Skills.Store.isFingerprintPoisoned now fleetId fp
      { s with poison := s.poison ++ [⟨r, b.now⟩] } = true := by
    rw [Skills.serve, Skills.Surroundings.write] at hafter
    cases hreply : b.reply with
    | ok => rwa [hreply] at hafter
    | lost => rwa [hreply] at hafter
    | refused =>
      rw [hreply] at hafter
      exact absurd hafter (Bool.eq_false_iff.mp hbefore)
  rw [Skills.Store.isFingerprintPoisoned, List.any_append, Bool.or_eq_true] at hwritten
  rcases hwritten with hold | hnew
  · exact absurd hold (Bool.eq_false_iff.mp hbefore)
  · rw [List.any_cons, List.any_nil, Bool.or_false, Bool.and_eq_true, Bool.and_eq_true,
      decide_eq_true_iff] at hnew
    exact hnew.1.1

/-- The canonical form separates two clusters, in their texts and in what a rejection poisons, unless
they are blurred. -/
theorem separated_iff (chars : CaseChars) (i i' : ClusterFingerprintInputs)
    (hids : ∀ id ∈ i.entityIds, Tame id) (hids' : ∀ id ∈ i'.entityIds, Tame id)
    (hinj : Set.InjOn Sha256.sha256 {message chars i, message chars i'}) :
    Separated chars i i' ↔ ¬ Blurred chars i i' := by
  constructor
  · intro h hblurred
    exact hblurred.not_same (h.text ((render_eq_iff_parts hids hids').mpr (.inr hblurred)))
  · intro hclear
    have htext : renderCanonicalForm chars i = renderCanonicalForm chars i' → SameParts chars i i' :=
      fun h => ((render_eq_iff_parts hids hids').mp h).resolve_right hclear
    refine ⟨htext, fun db b r s now fleetId hr hbefore hafter => ?_⟩
    have hfp := fingerprint_of_poisoned hbefore hafter
    exact htext (fp_inj hinj (hr.symm.trans hfp))

theorem separated_iff_goals :
    Separated CaseChars.ascii ⟨"deploy", "devops", ["e1"], [], none⟩
      ⟨"rollback", "devops", ["e1"], ["the"], none⟩ := by
  have htame : ∀ id ∈ ["e1"], Tame id := by
    intro id hid
    rw [List.mem_singleton.mp hid]
    exact ⟨by decide, by decide⟩
  have hne : Sha256.sha256 (message CaseChars.ascii ⟨"deploy", "devops", ["e1"], [], none⟩) ≠
      Sha256.sha256 (message CaseChars.ascii ⟨"rollback", "devops", ["e1"], ["the"], none⟩) := by
    decide +kernel
  have hinj : Set.InjOn Sha256.sha256
      {message CaseChars.ascii ⟨"deploy", "devops", ["e1"], [], none⟩,
        message CaseChars.ascii ⟨"rollback", "devops", ["e1"], ["the"], none⟩} := by
    rintro a (rfl | rfl) b (rfl | rfl) h
    · rfl
    · exact absurd h hne
    · exact absurd h.symm hne
    · rfl
  refine (separated_iff CaseChars.ascii _ _ htame htame hinj).mpr fun hblurred => ?_
  exact absurd hblurred.goal (by decide)

/-- No step, and a step of a stopword. -/
theorem not_separated_stopword : ¬ ∀ (chars : CaseChars) (i i' : ClusterFingerprintInputs),
    (∀ id ∈ i.entityIds, Tame id) → (∀ id ∈ i'.entityIds, Tame id) →
      renderCanonicalForm chars i = renderCanonicalForm chars i' → SameParts chars i i' := by
  intro h
  have hsame := h CaseChars.ascii ⟨"deploy", "devops", [], [], none⟩
    ⟨"deploy", "devops", [], ["the"], none⟩ (fun _ hid => absurd hid List.not_mem_nil)
    (fun _ hid => absurd hid List.not_mem_nil) (by decide)
  exact absurd hsame.steps (by decide)

end Memclaw.Forge
