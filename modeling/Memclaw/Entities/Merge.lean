import Memclaw.Entities.GraphDefs

/-! The merge of a duplicate into its canonical entity as a quotient of the graph: each end of
the relations is folded in turn, and what is left carries the greatest weights. -/

namespace Memclaw.Entities

open Memclaw.Lib
open Memclaw.Memories (Memory)

variable {V W : Type} [LinearOrder W]

@[simp] theorem RelationKey.near_setNear (e : End) (id : ℕ) (k : RelationKey) :
    (k.setNear e id).near e = id := by
  cases e <;> rfl

@[simp] theorem RelationKey.far_setNear (e : End) (id : ℕ) (k : RelationKey) :
    (k.setNear e id).far e = k.far e := by
  cases e <;> rfl

@[simp] theorem RelationKey.tenantId_setNear (e : End) (id : ℕ) (k : RelationKey) :
    (k.setNear e id).tenantId = k.tenantId := by
  cases e <;> rfl

@[simp] theorem RelationKey.setNear_setNear (e : End) (a b : ℕ) (k : RelationKey) :
    (k.setNear e a).setNear e b = k.setNear e b := by
  cases e <;> rfl

theorem RelationKey.setNear_near (e : End) (k : RelationKey) : k.setNear e (k.near e) = k := by
  cases e <;> rfl

omit [LinearOrder W] in
@[simp] theorem Relation.key_setNear (e : End) (id : ℕ) (r : Relation W) :
    (r.setNear e id).key = r.key.setNear e id := by
  cases e <;> rfl

omit [LinearOrder W] in
@[simp] theorem Relation.weight_setNear (e : End) (id : ℕ) (r : Relation W) :
    (r.setNear e id).weight = r.weight := by
  cases e <;> rfl

namespace Tables

def weightAt (t : Tables V W) (k : RelationKey) : Option W :=
  (Keyed.get Relation.key t.relations k).map (·.weight)

variable {t : Tables V W} {tenantId : String} {c d : ℕ} {e : End}

omit [LinearOrder W] in
theorem weightAt_eq_some (h : Keyed.Unique Relation.key t.relations) {k : RelationKey} {v : W} :
    t.weightAt k = some v ↔ ∃ r ∈ t.relations, r.key = k ∧ r.weight = v := by
  rw [weightAt, Option.map_eq_some_iff]
  constructor
  · rintro ⟨r, hr, hv⟩
    obtain ⟨hmem, hkey⟩ := Keyed.mem_of_get hr
    exact ⟨r, hmem, hkey, hv⟩
  · rintro ⟨r, hmem, hkey, hv⟩
    exact ⟨r, (Keyed.get_eq_some h).mpr ⟨hmem, hkey⟩, hv⟩

omit [LinearOrder W] in
theorem weightAt_isSome {k : RelationKey} :
    (t.weightAt k).isSome = true ↔ ∃ r ∈ t.relations, r.key = k := by
  rw [weightAt, Option.isSome_map]
  simp [Keyed.get, List.find?_isSome]

theorem keepWeight_key (r : Relation W) : (keepWeight tenantId c d e t r).key = r.key := by
  unfold keepWeight
  split
  · split <;> rfl
  · rfl

theorem keepWeights_unique (h : Keyed.Unique Relation.key t.relations) :
    Keyed.Unique Relation.key (t.keepWeights tenantId c d e).relations :=
  h.map keepWeight_key

theorem weightAt_keepWeights (k : RelationKey) :
    (t.keepWeights tenantId c d e).weightAt k =
      if k.near e = c ∧ k.tenantId = tenantId ∧ (t.weightAt k).isSome then
        Option.merge max (t.weightAt k) (t.weightAt (k.setNear e d))
      else t.weightAt k := by
  have hget' : Keyed.get Relation.key (t.keepWeights tenantId c d e).relations k =
      (Keyed.get Relation.key t.relations k).map (keepWeight tenantId c d e t) :=
    Keyed.get_map keepWeight_key k
  rw [weightAt, hget']
  cases hget : Keyed.get Relation.key t.relations k with
  | none => simp [weightAt, hget]
  | some r =>
    obtain ⟨-, rfl⟩ := Keyed.mem_of_get hget
    have hweight : t.weightAt r.key = some r.weight := by rw [weightAt, hget, Option.map_some]
    simp only [hweight, Option.map_some, Option.isSome_some, and_true]
    by_cases hown : r.key.near e = c ∧ r.key.tenantId = tenantId
    · have hown' : (r.key.near e = c && r.tenantId = tenantId) = true := by
        rw [Bool.and_eq_true, decide_eq_true_eq, decide_eq_true_eq]
        exact hown
      rw [if_pos hown, keepWeight, if_pos hown', weightAt, Keyed.get]
      cases t.relations.find? fun r' => r'.key = r.key.setNear e d with
      | none => rfl
      | some r' => rfl
    · have hown' : ¬ (r.key.near e = c && r.tenantId = tenantId) = true := by
        rw [Bool.and_eq_true, decide_eq_true_eq, decide_eq_true_eq]
        exact hown
      rw [if_neg hown, keepWeight, if_neg hown']

omit [LinearOrder W] in
theorem conflicts_iff (r : Relation W) : t.conflicts tenantId c d e r = true ↔
    r.key.near e = d ∧ r.key.tenantId = tenantId ∧
      (r.key.far e = c ∨ (t.weightAt (r.key.setNear e c)).isSome = true) := by
  rw [weightAt_isSome, conflicts, Bool.and_eq_true, Bool.and_eq_true, Bool.or_eq_true,
    List.any_eq_true, decide_eq_true_eq, decide_eq_true_eq, decide_eq_true_eq, and_assoc]
  simp only [decide_eq_true_eq]
  rfl

omit [LinearOrder W] in
theorem weightAt_dropConflicts (h : Keyed.Unique Relation.key t.relations) (k : RelationKey) :
    (t.dropConflicts tenantId c d e).weightAt k =
      if k.near e = d ∧ k.tenantId = tenantId ∧
          (k.far e = c ∨ (t.weightAt (k.setNear e c)).isSome) then none
      else t.weightAt k := by
  have hget' : Keyed.get Relation.key (t.dropConflicts tenantId c d e).relations k =
      (Keyed.get Relation.key t.relations k).filter fun r => !t.conflicts tenantId c d e r :=
    Keyed.get_filter h _ k
  rw [weightAt, hget']
  cases hget : Keyed.get Relation.key t.relations k with
  | none => simp [weightAt, hget]
  | some r =>
    obtain ⟨-, rfl⟩ := Keyed.mem_of_get hget
    have hweight : t.weightAt r.key = some r.weight := by rw [weightAt, hget, Option.map_some]
    have hiff : t.conflicts tenantId c d e r = true ↔ _ := conflicts_iff r
    rw [hweight, Option.filter_some]
    cases hconflict : t.conflicts tenantId c d e r with
    | true =>
      rw [if_pos (hiff.mp hconflict)]
      rfl
    | false =>
      have hkept : ¬ (r.key.near e = d ∧ r.key.tenantId = tenantId ∧
          (r.key.far e = c ∨ (t.weightAt (r.key.setNear e c)).isSome = true)) := by
        rw [← hiff, hconflict]
        exact Bool.false_ne_true
      rw [if_neg hkept]
      rfl

omit [LinearOrder W] in
theorem repoint_key (r : Relation W) : (repoint tenantId c d e r).key =
    if r.key.near e = d ∧ r.key.tenantId = tenantId then r.key.setNear e c else r.key := by
  unfold repoint
  by_cases h : r.key.near e = d ∧ r.key.tenantId = tenantId
  · have h' : (r.key.near e = d && r.tenantId = tenantId) = true := by
      rw [Bool.and_eq_true, decide_eq_true_eq, decide_eq_true_eq]
      exact h
    rw [if_pos h, if_pos h', Relation.key_setNear]
  · have h' : ¬ (r.key.near e = d && r.tenantId = tenantId) = true := by
      rw [Bool.and_eq_true, decide_eq_true_eq, decide_eq_true_eq]
      exact h
    rw [if_neg h, if_neg h']

omit [LinearOrder W] in
theorem repoint_weight (r : Relation W) : (repoint tenantId c d e r).weight = r.weight := by
  unfold repoint
  split
  · exact Relation.weight_setNear e c r
  · rfl

omit [LinearOrder W] in
theorem repoint_key_eq_iff {r : Relation W} {k : RelationKey} :
    (repoint tenantId c d e r).key = k ↔
      r.key = k ∧ ¬ (k.near e = d ∧ k.tenantId = tenantId) ∨
        k.near e = c ∧ k.tenantId = tenantId ∧ r.key = k.setNear e d := by
  rw [repoint_key]
  by_cases hmoved : r.key.near e = d ∧ r.key.tenantId = tenantId
  · rw [if_pos hmoved]
    have hback : r.key.setNear e d = r.key := by rw [← hmoved.1, RelationKey.setNear_near]
    constructor
    · rintro rfl
      refine .inr ⟨RelationKey.near_setNear .., ?_, ?_⟩
      · rw [RelationKey.tenantId_setNear, hmoved.2]
      · rw [RelationKey.setNear_setNear, hback]
    · rintro (⟨rfl, hnot⟩ | ⟨hnear, -, hkey⟩)
      · exact absurd hmoved hnot
      · rw [hkey, RelationKey.setNear_setNear, ← hnear, RelationKey.setNear_near]
  · rw [if_neg hmoved]
    constructor
    · rintro rfl
      exact .inl ⟨rfl, hmoved⟩
    · rintro (⟨hkey, -⟩ | ⟨-, htenant, hkey⟩)
      · exact hkey
      · refine absurd ⟨?_, ?_⟩ hmoved
        · rw [hkey, RelationKey.near_setNear]
        · rw [hkey, RelationKey.tenantId_setNear, htenant]

omit [LinearOrder W] in
theorem repointEnd_unique (h : Keyed.Unique Relation.key t.relations)
    (hfree : ∀ k, k.near e = d → k.tenantId = tenantId → (t.weightAt k).isSome = true →
      t.weightAt (k.setNear e c) = none) :
    Keyed.Unique Relation.key (t.relations.map (repoint tenantId c d e)) := by
  -- a moved row does not meet one that was there
  have hmeet : ∀ a ∈ t.relations, ∀ b ∈ t.relations, a.key.near e = d ∧ a.key.tenantId = tenantId →
      a.key.setNear e c ≠ b.key := by
    intro a ha b hb ⟨hnear, htenant⟩ hsame
    have hnone := hfree a.key hnear htenant (weightAt_isSome.mpr ⟨a, ha, rfl⟩)
    have hsome := weightAt_isSome.mpr ⟨b, hb, hsame.symm⟩
    rw [hnone] at hsome
    exact nomatch hsome
  refine h.move fun a ha b hb hsame => ?_
  rw [repoint_key, repoint_key] at hsame
  split at hsame
  · next hmoved =>
    split at hsame
    · next hmoved' =>
      have hback := congrArg (RelationKey.setNear e d) hsame
      rw [RelationKey.setNear_setNear, RelationKey.setNear_setNear] at hback
      rwa [← hmoved.1, RelationKey.setNear_near, hmoved.1, ← hmoved'.1,
        RelationKey.setNear_near] at hback
    · exact absurd hsame (hmeet a ha b hb hmoved)
  · split at hsame
    · next hmoved' => exact absurd hsame.symm (hmeet b hb a ha hmoved')
    · exact hsame

omit [LinearOrder W] in
theorem repointEnd_some (hne : c ≠ d) (h : Keyed.Unique Relation.key t.relations)
    (hfree : ∀ k, k.near e = d → k.tenantId = tenantId → (t.weightAt k).isSome = true →
      t.weightAt (k.setNear e c) = none) :
    ∃ t', t.repointEnd tenantId c d e = some t' ∧ Keyed.Unique Relation.key t'.relations ∧
      ∀ k, t'.weightAt k =
        if k.tenantId ≠ tenantId then t.weightAt k
        else if k.near e = d then none
        else if k.near e = c then (t.weightAt k).or (t.weightAt (k.setNear e d))
        else t.weightAt k := by
  have hunique := repointEnd_unique h hfree
  refine ⟨{ t with relations := t.relations.map (repoint tenantId c d e) }, if_pos hunique,
    hunique, fun k => Option.ext fun v => ?_⟩
  have hmoved : weightAt { t with relations := t.relations.map (repoint tenantId c d e) } k =
      some v ↔ t.weightAt k = some v ∧ ¬ (k.near e = d ∧ k.tenantId = tenantId) ∨
        k.near e = c ∧ k.tenantId = tenantId ∧ t.weightAt (k.setNear e d) = some v := by
    rw [weightAt_eq_some hunique, weightAt_eq_some h, weightAt_eq_some h]
    constructor
    · rintro ⟨r, hr, hkey, hv⟩
      obtain ⟨old, hold, rfl⟩ := List.mem_map.mp hr
      rw [repoint_weight] at hv
      rcases repoint_key_eq_iff.mp hkey with ⟨hk, hstays⟩ | ⟨hnear, htenant, hk⟩
      · exact .inl ⟨⟨old, hold, hk, hv⟩, hstays⟩
      · exact .inr ⟨hnear, htenant, old, hold, hk, hv⟩
    · rintro (⟨⟨old, hold, hk, hv⟩, hstays⟩ | ⟨hnear, htenant, old, hold, hk, hv⟩)
      · exact ⟨_, List.mem_map_of_mem hold, repoint_key_eq_iff.mpr (.inl ⟨hk, hstays⟩),
          (repoint_weight old).trans hv⟩
      · exact ⟨_, List.mem_map_of_mem hold,
          repoint_key_eq_iff.mpr (.inr ⟨hnear, htenant, hk⟩), (repoint_weight old).trans hv⟩
  rw [hmoved]
  by_cases htenant : k.tenantId = tenantId
  · rw [if_neg (not_not.mpr htenant)]
    by_cases hd : k.near e = d
    · have hc : k.near e ≠ c := fun hc => hne (hc.symm.trans hd)
      simp [htenant, hd, hne.symm]
    · rw [if_neg hd]
      by_cases hc : k.near e = c
      · -- the two rows that could come to the key are not both there
        have honly : (t.weightAt (k.setNear e d)).isSome = true → t.weightAt k = none := by
          intro hsome
          have hfree' := hfree (k.setNear e d) (RelationKey.near_setNear ..)
            (by rw [RelationKey.tenantId_setNear, htenant]) hsome
          rwa [RelationKey.setNear_setNear, ← hc, RelationKey.setNear_near] at hfree'
        cases hk : t.weightAt k with
        | none => simp [hc, htenant]
        | some w =>
          cases hk' : t.weightAt (k.setNear e d) with
          | none => simp [hc, htenant, hne]
          | some w' => exact absurd (honly (by rw [hk']; rfl)) (by simp [hk])
      · simp [hd, hc]
  · simp [htenant]

/-- The weight of a key after one end was folded. -/
theorem repointRelations_some (hne : c ≠ d) (h : Keyed.Unique Relation.key t.relations) :
    ∃ t', t.repointRelations tenantId c d e = some t' ∧ Keyed.Unique Relation.key t'.relations ∧
      ∀ k, t'.weightAt k =
        if k.tenantId ≠ tenantId then t.weightAt k
        else if k.near e = d then none
        else if k.near e = c then
          if k.far e = c ∧ t.weightAt k = none then none
          else Option.merge max (t.weightAt k) (t.weightAt (k.setNear e d))
        else t.weightAt k := by
  have hkept : Keyed.Unique Relation.key (t.keepWeights tenantId c d e).relations :=
    keepWeights_unique h
  have hdropped : Keyed.Unique Relation.key
      ((t.keepWeights tenantId c d e).dropConflicts tenantId c d e).relations := hkept.filter _
  have hfree : ∀ k, k.near e = d → k.tenantId = tenantId →
      (((t.keepWeights tenantId c d e).dropConflicts tenantId c d e).weightAt k).isSome = true →
        ((t.keepWeights tenantId c d e).dropConflicts tenantId c d e).weightAt
          (k.setNear e c) = none := by
    intro k hnear htenant hsome
    rw [weightAt_dropConflicts hkept] at hsome ⊢
    split at hsome
    · exact nomatch hsome
    · next hstays =>
      have hnone : (t.keepWeights tenantId c d e).weightAt (k.setNear e c) = none := by
        by_contra hthere
        exact hstays ⟨hnear, htenant, .inr (Option.isSome_iff_ne_none.mpr hthere)⟩
      rw [hnone, ite_self]
  obtain ⟨t', ht', hunique, hweight⟩ := repointEnd_some hne hdropped hfree
  refine ⟨t', ht', hunique, fun k => ?_⟩
  rw [hweight, weightAt_dropConflicts hkept, weightAt_dropConflicts hkept, weightAt_keepWeights,
    weightAt_keepWeights, weightAt_keepWeights, weightAt_keepWeights]
  by_cases htenant : k.tenantId = tenantId
  · by_cases hd : k.near e = d
    · simp [htenant, hd]
    · by_cases hc : k.near e = c
      · have hback : k.setNear e c = k := by rw [← hc, RelationKey.setNear_near]
        cases hk : t.weightAt k with
        | none =>
          by_cases hfar : k.far e = c
          · simp [htenant, hc, hne, hback, hk, hfar]
          · simp [htenant, hc, hne, hne.symm, hback, hk, hfar]
        | some w => simp [htenant, hc, hne, hback, hk]
      · simp [htenant, hd, hc]
  · simp [htenant]

end Tables

def mergeId (c d id : ℕ) : ℕ := if id = d then c else id

def RelationKey.imageEnd (c d : ℕ) (e : End) (k : RelationKey) : RelationKey :=
  k.setNear e (mergeId c d (k.near e))

def RelationKey.image (c d : ℕ) (k : RelationKey) : RelationKey :=
  (k.imageEnd c d .source).imageEnd c d .target

def foldWeights (c d : ℕ) (e : End) (w : RelationKey → Option W) (k : RelationKey) : Option W :=
  if k.near e = d then none
  else if k.near e = c then Option.merge max (w k) (w (k.setNear e d))
  else w k

theorem foldWeights_eq_none_of_near {c d : ℕ} {e : End} {w : RelationKey → Option W}
    {k : RelationKey} (hk : k.near e = c) (hne : c ≠ d) :
    foldWeights c d e w k = none ↔ w k = none ∧ w (k.setNear e d) = none := by
  rw [foldWeights, if_neg (hk ▸ hne), if_pos hk]
  cases w k <;> cases w (k.setNear e d) <;> simp [Option.merge]

theorem RelationKey.imageEnd_eq_iff {c d : ℕ} (hne : c ≠ d) (e : End) {k k' : RelationKey} :
    k'.imageEnd c d e = k ↔ k.near e ≠ d ∧ (k' = k ∨ k.near e = c ∧ k' = k.setNear e d) := by
  unfold imageEnd mergeId
  split
  · next hd =>
    have hback : k'.setNear e d = k' := by rw [← hd, setNear_near]
    constructor
    · rintro rfl
      refine ⟨by simpa using hne, .inr ⟨near_setNear .., ?_⟩⟩
      rw [setNear_setNear, hback]
    · rintro ⟨hk, rfl | ⟨hc, hkey⟩⟩
      · exact absurd hd hk
      · rw [hkey, setNear_setNear, ← hc, setNear_near]
  · next hd =>
    rw [setNear_near]
    constructor
    · rintro rfl
      exact ⟨hd, .inl rfl⟩
    · rintro ⟨-, rfl | ⟨-, hkey⟩⟩
      · rfl
      · exact absurd (by rw [hkey, near_setNear]) hd

theorem foldWeights_greatest {c d : ℕ} (hne : c ≠ d) (e : End) {S : RelationKey → Set W}
    {w : RelationKey → Option W} (hw : ∀ k, Keyed.Greatest (S k) (w k)) (k : RelationKey) :
    Keyed.Greatest {v | ∃ k', k'.imageEnd c d e = k ∧ v ∈ S k'} (foldWeights c d e w k) := by
  unfold foldWeights
  by_cases hd : k.near e = d
  · rw [if_pos hd]
    refine Set.eq_empty_of_forall_notMem ?_
    rintro v ⟨k', hk', -⟩
    exact ((RelationKey.imageEnd_eq_iff hne e).mp hk').1 hd
  · rw [if_neg hd]
    by_cases hc : k.near e = c
    · have hunion : {v | ∃ k', k'.imageEnd c d e = k ∧ v ∈ S k'} = S k ∪ S (k.setNear e d) := by
        ext v
        simp only [Set.mem_ofPred_eq, RelationKey.imageEnd_eq_iff hne, Set.mem_union]
        constructor
        · rintro ⟨k', ⟨-, rfl | ⟨-, rfl⟩⟩, hv⟩
          · exact .inl hv
          · exact .inr hv
        · rintro (hv | hv)
          · exact ⟨k, ⟨hd, .inl rfl⟩, hv⟩
          · exact ⟨k.setNear e d, ⟨hd, .inr ⟨hc, rfl⟩⟩, hv⟩
      rw [if_pos hc, hunion]
      exact (hw k).merge (hw (k.setNear e d))
    · have hsame : {v | ∃ k', k'.imageEnd c d e = k ∧ v ∈ S k'} = S k := by
        ext v
        simp only [Set.mem_ofPred_eq, RelationKey.imageEnd_eq_iff hne]
        constructor
        · rintro ⟨k', ⟨-, rfl | ⟨hc', -⟩⟩, hv⟩
          · exact hv
          · exact absurd hc' hc
        · intro hv
          exact ⟨k, ⟨hd, .inl rfl⟩, hv⟩
      rw [if_neg hc, hsame]
      exact hw k

namespace Tables

variable {t : Tables V W} {tenantId : String} {c d : ℕ}

/-- The weights after both ends were folded: the greatest ones, without self-loops on the
canonical entity that were not there. -/
theorem repointBoth_some (tenantId : String) (hne : c ≠ d)
    (h : Keyed.Unique Relation.key t.relations) :
    ∃ t' t'', t.repointRelations tenantId c d .source = some t' ∧
      t'.repointRelations tenantId c d .target = some t'' ∧
      Keyed.Unique Relation.key t''.relations ∧ ∀ k, t''.weightAt k =
        if k.tenantId ≠ tenantId then t.weightAt k
        else if k.fromEntityId = c ∧ k.toEntityId = c ∧ t.weightAt k = none then none
        else foldWeights c d .target (foldWeights c d .source t.weightAt) k := by
  obtain ⟨t', ht', hunique', hweight'⟩ := repointRelations_some (e := .source) hne h
  obtain ⟨t'', ht'', hunique'', hweight''⟩ := repointRelations_some (e := .target) hne hunique'
  refine ⟨t', t'', ht', ht'', hunique'', fun k => ?_⟩
  -- the first fold leaves out the self-loops that were not there
  have hsource : ∀ k : RelationKey, k.tenantId = tenantId → t'.weightAt k =
      if k.fromEntityId = c ∧ k.toEntityId = c ∧ t.weightAt k = none then none
      else foldWeights c d .source t.weightAt k := by
    intro k htenant
    rw [hweight', if_neg (not_not.mpr htenant), foldWeights]
    show (if k.fromEntityId = d then none else if k.fromEntityId = c then
      if k.toEntityId = c ∧ t.weightAt k = none then none else _ else _) = _
    by_cases hd : k.fromEntityId = d
    · simp [hd, hne.symm, RelationKey.near]
    · by_cases hc : k.fromEntityId = c
      · simp [hc, hne, RelationKey.near]
      · simp [hd, hc, RelationKey.near]
  rw [hweight'']
  by_cases htenant : k.tenantId = tenantId
  · rw [if_neg (not_not.mpr htenant), if_neg (not_not.mpr htenant), foldWeights]
    show (if k.toEntityId = d then none else if k.toEntityId = c then
      if k.fromEntityId = c ∧ t'.weightAt k = none then none else _ else _) = _
    by_cases hd : k.toEntityId = d
    · simp [hd, hne.symm, RelationKey.near]
    · by_cases hc : k.toEntityId = c
      · -- no self-loop of the canonical entity is at the other key
        have hother : t'.weightAt (k.setNear .target d) =
            foldWeights c d .source t.weightAt (k.setNear .target d) := by
          rw [hsource (k.setNear .target d) htenant, if_neg fun h => hne.symm h.2.1]
        by_cases hloop : k.fromEntityId = c ∧ t.weightAt k = none
        · have hnone : t'.weightAt k = none := by
            rw [hsource k htenant, if_pos ⟨hloop.1, hc, hloop.2⟩]
          rw [if_neg hd, if_pos hc, if_pos ⟨hloop.1, hnone⟩, if_pos ⟨hloop.1, hc, hloop.2⟩]
        · have hsame : t'.weightAt k = foldWeights c d .source t.weightAt k := by
            rw [hsource k htenant, if_neg fun h => hloop ⟨h.1, h.2.2⟩]
          have hstays : ¬ (k.fromEntityId = c ∧ t'.weightAt k = none) := by
            rintro ⟨hfrom, hnone⟩
            have hnear : k.near .source = c := hfrom
            rw [hsame, foldWeights_eq_none_of_near hnear hne] at hnone
            exact hloop ⟨hfrom, hnone.1⟩
          have hd' : ¬ k.near .target = d := hd
          have hc' : k.near .target = c := hc
          rw [if_neg hd, if_pos hc, if_neg hstays, if_neg fun h => hloop ⟨h.1, h.2.2⟩, if_neg hd',
            if_pos hc', hsame, hother]
      · simp [hd, hc, hsource k htenant, RelationKey.near]
  · rw [if_pos htenant, if_pos htenant, hweight', if_pos htenant]

theorem repointRelations_eq {e : End} {t' : Tables V W}
    (h : t.repointRelations tenantId c d e = some t') :
    t' = { t with relations := ((t.keepWeights tenantId c d e).dropConflicts tenantId c d
      e).relations.map (repoint tenantId c d e) } := by
  unfold repointRelations repointEnd at h
  dsimp only at h
  split at h
  · exact (Option.some.inj h).symm
  · exact nomatch h

theorem repointBoth_frame {t' t'' : Tables V W}
    (h' : t.repointRelations tenantId c d .source = some t')
    (h'' : t'.repointRelations tenantId c d .target = some t'') :
    t''.entities = t.entities ∧ t''.memories = t.memories ∧ t''.links = t.links := by
  rw [repointRelations_eq h'', repointRelations_eq h']
  exact ⟨rfl, rfl, rfl⟩

def repointLink (tenantId : String) (c d : ℕ) (t : Tables V W) (l : MemoryEntityLink) :
    MemoryEntityLink :=
  if l.entityId = d && t.memoryOf tenantId l.memoryId then { l with entityId := c } else l

omit [LinearOrder W] in
theorem mem_dropDoubleLinks {l : MemoryEntityLink} :
    l ∈ (t.dropDoubleLinks tenantId c d).links ↔ l ∈ t.links ∧
      (l.entityId = d → t.memoryOf tenantId l.memoryId = true →
        ∀ mel ∈ t.links, mel.key ≠ (l.memoryId, c)) := by
  rw [dropDoubleLinks, List.mem_filter]
  refine and_congr_right fun hl => ?_
  rw [Bool.not_eq_true', ← Bool.not_eq_true, Bool.and_eq_true, not_and, decide_eq_true_eq]
  refine forall_congr' fun hd => ?_
  simp only [List.any_eq_true, Bool.and_eq_true, decide_eq_true_eq, MemoryEntityLink.key, ne_eq,
    Prod.mk.injEq, not_exists, not_and]
  constructor
  · intro h howned mel hmel hm hc
    exact h mel hmel ⟨hc, hm⟩ (hm ▸ howned)
  · intro h mel hmel hkey howned
    exact h (hkey.2 ▸ howned) mel hmel hkey.2 hkey.1

omit [LinearOrder W] in
theorem repointLinks_unique (h : Keyed.Unique MemoryEntityLink.key t.links) :
    Keyed.Unique MemoryEntityLink.key
      ((t.dropDoubleLinks tenantId c d).links.map (repointLink tenantId c d t)) := by
  have hkept : Keyed.Unique MemoryEntityLink.key (t.dropDoubleLinks tenantId c d).links :=
    h.filter _
  -- a moved link does not meet one that was there
  have hmeet : ∀ a ∈ (t.dropDoubleLinks tenantId c d).links, ∀ b ∈ t.links,
      (a.entityId = d && t.memoryOf tenantId a.memoryId) = true → (a.memoryId, c) ≠ b.key := by
    intro a ha b hb hmoved
    rw [Bool.and_eq_true, decide_eq_true_eq] at hmoved
    exact ((mem_dropDoubleLinks.mp ha).2 hmoved.1 hmoved.2 b hb).symm
  refine hkept.move fun a ha b hb hsame => ?_
  have ha' : a ∈ t.links := List.mem_of_mem_filter ha
  have hb' : b ∈ t.links := List.mem_of_mem_filter hb
  unfold repointLink at hsame
  split at hsame
  · next hamoved =>
    split at hsame
    · next hbmoved =>
      rw [Bool.and_eq_true, decide_eq_true_eq] at hamoved hbmoved
      exact Prod.ext (congrArg Prod.fst hsame : a.memoryId = b.memoryId)
        (hamoved.1.trans hbmoved.1.symm)
    · exact absurd hsame (hmeet a ha b hb' hamoved)
  · split at hsame
    · next hbmoved => exact absurd hsame.symm (hmeet b hb a ha' hbmoved)
    · exact hsame

omit [LinearOrder W] in
theorem repointLinks_eq (h : Keyed.Unique MemoryEntityLink.key t.links) :
    (t.dropDoubleLinks tenantId c d).repointLinks tenantId c d = some { t with
      links := (t.dropDoubleLinks tenantId c d).links.map (repointLink tenantId c d t) } :=
  if_pos (repointLinks_unique h)

omit [LinearOrder W] in
theorem entities_of_merge (t : Tables V W) (c d : ℕ) (attributes : Dict) :
    ((t.setAttributes c attributes).deleteEntity d).entities =
      (t.entities.filter fun e => e.id ≠ d).map fun e =>
        if e.id = c then { e with attributes := some attributes } else e := by
  show (t.entities.map _).filter _ = _
  rw [List.filter_map]
  refine congrArg (List.map _) (List.filter_congr fun e _ => ?_)
  show decide ((if e.id = c then _ else e).id ≠ d) = _
  split <;> rfl

end Tables

end Memclaw.Entities
