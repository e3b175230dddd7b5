import Mathlib.Data.List.Perm.Basic
import Memclaw.Contradiction.Edges

/-! The order in which a loop meets its conflicts: every order leads to the same marks and the same
edges of the candidates, and to an edge of the trigger to one older candidate or another. -/

namespace Memclaw.Contradiction

open Memclaw.Lib

def Memory.landed (updates : List RowUpdate) (m : Memory) : Memory :=
  match lookupUpdate updates m.id with
  | some u => m.updateStatus m.tenantId u
  | none => m

theorem Memory.landed_of_none {updates : List RowUpdate} {m : Memory}
    (h : lookupUpdate updates m.id = none) : m.landed updates = m := by
  unfold Memory.landed
  rw [h]

theorem Memory.landed_of_some {updates : List RowUpdate} {m : Memory} {status : Status}
    {edge : Option Uuid} (h : lookupUpdate updates m.id = some ⟨m.id, status, edge⟩) :
    m.landed updates = { m with status := status, supersedesId := edge <|> m.supersedesId } := by
  unfold Memory.landed
  rw [h]
  exact if_pos ⟨rfl, rfl⟩

theorem batchUpdateStatus_landed {updates : List RowUpdate}
    (hnodup : (updates.map (·.memoryId)).Nodup) (store : Store) {tenantId : String}
    (htenant : tenantId ≠ "") (hrows : ∀ m ∈ store.rows, m.tenantId = tenantId) :
    (store.batchUpdateStatus tenantId updates).rows = store.rows.map (Memory.landed updates) := by
  rw [batchUpdateStatus_rows hnodup store htenant]
  refine List.map_congr_left fun m hm => ?_
  have htenant := hrows m hm
  subst htenant
  unfold Memory.landed
  cases lookupUpdate updates m.id with
  | none => rfl
  | some u => rfl

theorem mem_memoryIds {updates : List RowUpdate} {id : Uuid} :
    id ∈ updates.map (·.memoryId) ↔ lookupUpdate updates id ≠ none := by
  unfold lookupUpdate
  rw [ne_eq, List.find?_eq_none]
  simp

section Loop

variable {rt : Runtime} {mark : Status} {newMemory : Memory} {conflicts : List Memory}

theorem flips_iff : flips rt newMemory conflicts = true ↔
    ∃ c ∈ conflicts, isOlder rt newMemory c = false := by
  simp [flips]

theorem firstOlder_eq_some {id : Uuid} (h : firstOlder rt newMemory conflicts = some id) :
    ∃ c ∈ conflicts, isOlder rt newMemory c = true ∧ c.id = id := by
  obtain ⟨c, hc, hid⟩ := Option.map_eq_some_iff.mp h
  exact ⟨c, List.mem_of_find?_eq_some hc, List.find?_some hc, hid⟩

theorem firstOlder_ne_none_iff : firstOlder rt newMemory conflicts ≠ none ↔
    ∃ c ∈ conflicts, isOlder rt newMemory c = true := by
  unfold firstOlder
  rw [ne_eq, Option.map_eq_none_iff, List.find?_eq_none]
  simp

section Rows

variable (hne : ∀ c ∈ conflicts, c.id ≠ newMemory.id) (hnodup : (conflicts.map (·.id)).Nodup)

include hne hnodup

theorem attributeAll_nodup :
    ((attributeAll rt mark newMemory conflicts).map (·.memoryId)).Nodup :=
  (loopInvariant_attributeAll conflicts hne hnodup).nodup

theorem lookupUpdate_trigger :
    lookupUpdate (attributeAll rt mark newMemory conflicts) newMemory.id =
      triggerUpdate rt mark newMemory conflicts :=
  (loopInvariant_attributeAll conflicts hne hnodup).trigger

theorem lookupUpdate_other {id : Uuid} (hid : id ≠ newMemory.id) :
    lookupUpdate (attributeAll rt mark newMemory conflicts) id =
      (conflicts.find? (·.id = id)).bind (candidateUpdate rt mark newMemory) :=
  (loopInvariant_attributeAll conflicts hne hnodup).candidate id hid

theorem lookupUpdate_candidate {c : Memory} (hc : c ∈ conflicts) :
    lookupUpdate (attributeAll rt mark newMemory conflicts) c.id =
      candidateUpdate rt mark newMemory c := by
  have hfind : conflicts.find? (·.id = c.id) = some c := by
    cases hfound : conflicts.find? (·.id = c.id) with
    | none =>
      rw [List.find?_eq_none] at hfound
      exact absurd (by simp) (hfound c hc)
    | some d =>
      have hid : d.id = c.id := by simpa using List.find?_some hfound
      rw [List.inj_on_of_nodup_map hnodup (List.mem_of_find?_eq_some hfound) hc hid]
  rw [lookupUpdate_other hne hnodup (hne c hc), hfind]
  rfl

theorem landed_older {c : Memory} (hc : c ∈ conflicts) (hold : isOlder rt newMemory c = true) :
    c.landed (attributeAll rt mark newMemory conflicts) = { c with status := mark } := by
  have hlookup : lookupUpdate (attributeAll rt mark newMemory conflicts) c.id = _ :=
    lookupUpdate_candidate hne hnodup hc
  rw [candidateUpdate, if_pos hold] at hlookup
  exact Memory.landed_of_some hlookup

theorem landed_newer {c : Memory} (hc : c ∈ conflicts) (hnew : isOlder rt newMemory c = false) :
    c.landed (attributeAll rt mark newMemory conflicts) =
      { c with supersedesId := c.supersedesId <|> some newMemory.id } := by
  have hlookup : lookupUpdate (attributeAll rt mark newMemory conflicts) c.id = _ :=
    lookupUpdate_candidate hne hnodup hc
  rw [candidateUpdate, if_neg (by simp [hnew])] at hlookup
  cases hsup : c.supersedesId with
  | some s =>
    rw [hsup] at hlookup
    rw [Memory.landed_of_none hlookup]
    exact (with_edge_eq hsup.symm).symm
  | none =>
    rw [hsup] at hlookup
    rw [Memory.landed_of_some hlookup, hsup]
    rfl

theorem landed_trigger :
    newMemory.landed (attributeAll rt mark newMemory conflicts) =
      { newMemory with
        status := if flips rt newMemory conflicts then mark else newMemory.status
        supersedesId := newMemory.supersedesId <|> firstOlder rt newMemory conflicts } := by
  have hlookup : lookupUpdate (attributeAll rt mark newMemory conflicts) newMemory.id = _ :=
    lookupUpdate_trigger hne hnodup
  unfold triggerUpdate at hlookup
  by_cases hwrite : flips rt newMemory conflicts ∨
      (newMemory.supersedesId = none ∧ firstOlder rt newMemory conflicts ≠ none)
  · rw [if_pos hwrite] at hlookup
    rw [Memory.landed_of_some hlookup]
    cases hsup : newMemory.supersedesId with
    | none => cases firstOlder rt newMemory conflicts <;> rfl
    | some s => rfl
  · rw [if_neg hwrite] at hlookup
    rw [Memory.landed_of_none hlookup]
    rw [not_or, not_and, not_not] at hwrite
    rw [if_neg hwrite.1]
    refine (with_edge_eq ?_).symm
    cases hsup : newMemory.supersedesId with
    | none => exact hwrite.2 hsup
    | some s => rfl

theorem touched_iff {id : Uuid} :
    id ∈ (attributeAll rt mark newMemory conflicts).map (·.memoryId) ↔
      (id = newMemory.id ∧ triggerUpdate rt mark newMemory conflicts ≠ none) ∨
        ∃ c ∈ conflicts, c.id = id ∧ candidateUpdate rt mark newMemory c ≠ none := by
  rw [mem_memoryIds]
  by_cases hid : id = newMemory.id
  · rw [hid, lookupUpdate_trigger hne hnodup]
    constructor
    · intro htrigger
      exact .inl ⟨rfl, htrigger⟩
    · rintro (⟨-, htrigger⟩ | ⟨c, hc, hcid, -⟩)
      · exact htrigger
      · exact absurd hcid (hne c hc)
  · rw [lookupUpdate_other hne hnodup hid]
    constructor
    · intro hsome
      obtain ⟨u, hu⟩ := Option.ne_none_iff_exists'.mp hsome
      obtain ⟨c, hfind, hupdate⟩ := Option.bind_eq_some_iff.mp hu
      have hcid : c.id = id := by simpa using List.find?_some hfind
      exact .inr ⟨c, List.mem_of_find?_eq_some hfind, hcid, by simp [hupdate]⟩
    · rintro (⟨htrigger, -⟩ | ⟨c, hc, rfl, hupdate⟩)
      · exact absurd htrigger hid
      · rw [← lookupUpdate_other hne hnodup hid, lookupUpdate_candidate hne hnodup hc]
        exact hupdate

end Rows

theorem triggerUpdate_ne_none_iff : triggerUpdate rt mark newMemory conflicts ≠ none ↔
    (∃ c ∈ conflicts, isOlder rt newMemory c = false) ∨
      (newMemory.supersedesId = none ∧ ∃ c ∈ conflicts, isOlder rt newMemory c = true) := by
  rw [← flips_iff, ← firstOlder_ne_none_iff]
  unfold triggerUpdate
  by_cases hwrite : flips rt newMemory conflicts ∨
      (newMemory.supersedesId = none ∧ firstOlder rt newMemory conflicts ≠ none)
  · rw [if_pos hwrite]
    exact iff_of_true (Option.some_ne_none _) hwrite
  · rw [if_neg hwrite]
    exact iff_of_false (fun hnone => hnone rfl) hwrite

end Loop

structure Marks (rt : Runtime) (mark : Status) (newMemory : Memory) (conflicts : List Memory)
    (updates : List RowUpdate) : Prop where
  once : (updates.map (·.memoryId)).Nodup
  touched : ∀ u ∈ updates, u.memoryId = newMemory.id ∨ ∃ c ∈ conflicts, u.memoryId = c.id
  older : ∀ c ∈ conflicts, isOlder rt newMemory c = true → (c.landed updates).status = mark
  newer : ∀ c ∈ conflicts, isOlder rt newMemory c = false → (c.landed updates).status = c.status
  linked : ∀ c ∈ conflicts, isOlder rt newMemory c = false → c.supersedesId = none →
    (c.landed updates).supersedesId = some newMemory.id
  trigger : (newMemory.landed updates).status = mark ↔
    newMemory.status = mark ∨ ∃ c ∈ conflicts, isOlder rt newMemory c = false
  edge : newMemory.supersedesId = none → (∃ c ∈ conflicts, isOlder rt newMemory c = true) →
    ∃ c ∈ conflicts, isOlder rt newMemory c = true ∧
      (newMemory.landed updates).supersedesId = some c.id

/-- Two payloads that differ at most in the older conflict that the trigger points to. -/
structure SameMarks (newMemory : Memory) (conflicts : List Memory)
    (updates updates' : List RowUpdate) : Prop where
  touched : (updates.map (·.memoryId)).Perm (updates'.map (·.memoryId))
  candidates : ∀ c ∈ conflicts, c.landed updates = c.landed updates'
  status : (newMemory.landed updates).status = (newMemory.landed updates').status
  linked : (newMemory.landed updates).supersedesId.isSome =
    (newMemory.landed updates').supersedesId.isSome

section Orders

variable {rt : Runtime} {mark : Status} {newMemory : Memory} {conflicts : List Memory}

theorem marks_attributeAll (hne : ∀ c ∈ conflicts, c.id ≠ newMemory.id)
    (hnodup : (conflicts.map (·.id)).Nodup) :
    Marks rt mark newMemory conflicts (attributeAll rt mark newMemory conflicts) where
  once := attributeAll_nodup hne hnodup
  touched := by
    intro u hu
    rcases (touched_iff hne hnodup).mp (List.mem_map_of_mem hu) with ⟨hid, -⟩ | ⟨c, hc, hid, -⟩
    · exact .inl hid
    · exact .inr ⟨c, hc, hid.symm⟩
  older := by
    intro c hc hold
    rw [landed_older hne hnodup hc hold]
  newer := by
    intro c hc hnew
    rw [landed_newer hne hnodup hc hnew]
  linked := by
    intro c hc hnew hsup
    rw [landed_newer hne hnodup hc hnew, hsup]
    rfl
  trigger := by
    rw [landed_trigger hne hnodup, ← flips_iff]
    split_ifs with hflips
    · exact iff_of_true rfl (.inr hflips)
    · exact (or_iff_left hflips).symm
  edge := by
    intro hsup hold
    obtain ⟨id, hfirst⟩ := Option.ne_none_iff_exists'.mp (firstOlder_ne_none_iff.mpr hold)
    obtain ⟨c, hc, hcold, rfl⟩ := firstOlder_eq_some hfirst
    refine ⟨c, hc, hcold, ?_⟩
    rw [landed_trigger hne hnodup, hsup, hfirst]
    rfl

/-- What a payload leaves for a list of conflicts it leaves for the list in another order. -/
theorem Marks.perm {updates : List RowUpdate} {order : List Memory} (hperm : order.Perm conflicts)
    (h : Marks rt mark newMemory order updates) : Marks rt mark newMemory conflicts updates where
  once := h.once
  touched := by simpa only [hperm.mem_iff] using h.touched
  older := by simpa only [hperm.mem_iff] using h.older
  newer := by simpa only [hperm.mem_iff] using h.newer
  linked := by simpa only [hperm.mem_iff] using h.linked
  trigger := by simpa only [hperm.mem_iff] using h.trigger
  edge := by simpa only [hperm.mem_iff] using h.edge

theorem sameMarks_perm (hne : ∀ c ∈ conflicts, c.id ≠ newMemory.id)
    (hnodup : (conflicts.map (·.id)).Nodup) {order : List Memory} (hperm : order.Perm conflicts) :
    SameMarks newMemory conflicts (attributeAll rt mark newMemory conflicts)
      (attributeAll rt mark newMemory order) := by
  have hne' : ∀ c ∈ order, c.id ≠ newMemory.id := fun c hc => hne c (hperm.mem_iff.mp hc)
  have hnodup' : (order.map (·.id)).Nodup := (hperm.map _).nodup_iff.mpr hnodup
  have hflips : flips rt newMemory order = flips rt newMemory conflicts := by
    rw [Bool.eq_iff_iff, flips_iff, flips_iff]
    simp only [hperm.mem_iff]
  have hfirst : firstOlder rt newMemory order = none ↔ firstOlder rt newMemory conflicts = none := by
    rw [← not_iff_not, ← ne_eq, ← ne_eq, firstOlder_ne_none_iff, firstOlder_ne_none_iff]
    simp only [hperm.mem_iff]
  constructor
  · rw [List.perm_ext_iff_of_nodup (attributeAll_nodup hne hnodup) (attributeAll_nodup hne' hnodup')]
    intro id
    rw [touched_iff hne hnodup, touched_iff hne' hnodup', triggerUpdate_ne_none_iff,
      triggerUpdate_ne_none_iff]
    simp only [hperm.mem_iff]
  · intro c hc
    have hc' : c ∈ order := hperm.mem_iff.mpr hc
    cases hold : isOlder rt newMemory c with
    | true => rw [landed_older hne hnodup hc hold, landed_older hne' hnodup' hc' hold]
    | false => rw [landed_newer hne hnodup hc hold, landed_newer hne' hnodup' hc' hold]
  · rw [landed_trigger hne hnodup, landed_trigger hne' hnodup', hflips]
  · rw [landed_trigger hne hnodup, landed_trigger hne' hnodup']
    cases newMemory.supersedesId with
    | some s => rfl
    | none =>
      cases hconflicts : firstOlder rt newMemory conflicts with
      | none => rw [hfirst.mpr hconflicts]
      | some id =>
        cases horder : firstOlder rt newMemory order with
        | none => exact absurd (hfirst.mp horder) (by simp [hconflicts])
        | some id' => rfl

end Orders

/-- The RDF loop marks with `outdated`, the semantic loop with `conflicted`. -/
theorem marks_in_every_order (rt : Runtime) (mark : Status) (newMemory : Memory)
    (conflicts : List Memory) (hne : ∀ c ∈ conflicts, c.id ≠ newMemory.id)
    (hnodup : (conflicts.map (·.id)).Nodup) (order : List Memory) (hperm : order.Perm conflicts) :
    Marks rt mark newMemory conflicts (attributeAll rt mark newMemory order) ∧
      SameMarks newMemory conflicts (attributeAll rt mark newMemory conflicts)
        (attributeAll rt mark newMemory order) := by
  have hne' : ∀ c ∈ order, c.id ≠ newMemory.id := fun c hc => hne c (hperm.mem_iff.mp hc)
  have hnodup' : (order.map (·.id)).Nodup := (hperm.map _).nodup_iff.mpr hnodup
  exact ⟨(marks_attributeAll hne' hnodup').perm hperm, sameMarks_perm hne hnodup hperm⟩

/-- A newer and an older conflict, in both orders. -/
theorem marks_in_every_order_mixed :
    Marks plainRuntime .outdated (sampleMemory 2 none) [sampleMemory 1 none, sampleMemory 3 none]
        (attributeAll plainRuntime .outdated (sampleMemory 2 none)
          [sampleMemory 3 none, sampleMemory 1 none]) ∧
      SameMarks (sampleMemory 2 none) [sampleMemory 1 none, sampleMemory 3 none]
        (attributeAll plainRuntime .outdated (sampleMemory 2 none)
          [sampleMemory 1 none, sampleMemory 3 none])
        (attributeAll plainRuntime .outdated (sampleMemory 2 none)
          [sampleMemory 3 none, sampleMemory 1 none]) :=
  marks_in_every_order plainRuntime .outdated (sampleMemory 2 none)
    [sampleMemory 1 none, sampleMemory 3 none] (by decide) (by decide)
    [sampleMemory 3 none, sampleMemory 1 none] (.swap _ _ _)

/-- A memory that was outdated before keeps that status, although its only conflict is older. -/
theorem outdated_without_newer_conflict :
    ¬ ∀ (rt : Runtime) (newMemory : Memory) (conflicts : List Memory),
      (∀ c ∈ conflicts, c.id ≠ newMemory.id) → (conflicts.map (·.id)).Nodup →
        ((newMemory.landed (attributeAll rt .outdated newMemory conflicts)).status = .outdated ↔
          ∃ c ∈ conflicts, isOlder rt newMemory c = false) := by
  intro h
  have hiff := h plainRuntime { sampleMemory 2 none with status := .outdated }
    [sampleMemory 1 none] (by decide) (by decide)
  obtain ⟨c, hc, hnewer⟩ := hiff.mp (by decide)
  rw [List.mem_singleton.mp hc] at hnewer
  exact absurd hnewer (by decide)

end Memclaw.Contradiction
