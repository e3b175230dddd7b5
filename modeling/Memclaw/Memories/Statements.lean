import Memclaw.Lib.Interleave
import Memclaw.Memories.TableDefs

/-! Runs of committed statements on the `memories` table, the rows that each rewrites, and
rows by their position. -/

namespace Memclaw.Memories

open Memclaw.Lib Memclaw.Lib.Interleave

variable {V : Type}

/-- A committed statement, whoever sent it and whenever its sender last read the row. -/
inductive Write (V : Type)
  | memoryAdd (data : NewMemory V) (now : ℕ)
  | softDeleteWhere (p : Memory V → Bool) (now : ℕ)
  | memoryUpdate (id : ℕ) (tenantId : String) (patch : Patch V)
  | memoryUpdateStatus (u : StatusUpdate)
  | retract (u : Retraction)
  | setSupersedes (id : ℕ) (tenantId : String) (supersedesId : ℕ)
  | insightsRestorePriors (tenantId : String) (priorIds : List ℕ)

def step (t : Table V) : Write V → Table V
  | .memoryAdd data now => t.memoryAdd data now
  | .softDeleteWhere p now => t.softDeleteWhere p now
  | .memoryUpdate id tenantId patch =>
    match t.memoryUpdate id tenantId patch with
    | some (_, t') => t'
    | none => t
  | .memoryUpdateStatus u => t.memoryUpdateStatus u
  | .retract u => t.retract u
  | .setSupersedes id tenantId supersedesId => t.setSupersedes id tenantId supersedesId
  | .insightsRestorePriors tenantId priorIds => t.insightsRestorePriors tenantId priorIds

def Write.touches (w : Write V) (m : Memory V) : Bool :=
  match w with
  | .memoryAdd _ _ => false
  | .softDeleteWhere p _ => p m
  | .memoryUpdate id tenantId _ => m.at id tenantId && m.live
  | .memoryUpdateStatus u => u.matches m
  | .retract u => u.matches m
  | .setSupersedes id tenantId _ => m.at id tenantId && m.supersedesId.isNone
  | .insightsRestorePriors tenantId priorIds =>
    priorIds.contains m.id && m.status = .outdated && m.tenantId = tenantId

def Write.rewrite (w : Write V) (m : Memory V) : Memory V :=
  match w with
  | .memoryAdd _ _ => m
  | .softDeleteWhere _ now => m.markDeleted now
  | .memoryUpdate _ _ patch => patch.apply m
  | .memoryUpdateStatus u => u.write m
  | .retract u => u.write m
  | .setSupersedes _ _ supersedesId => { m with supersedesId := some supersedesId }
  | .insightsRestorePriors _ _ => { m with status := .active }

theorem memoryUpdate_cases {t t' : Table V} {id : ℕ} {tenantId : String} {patch : Patch V}
    {found : Bool} (h : t.memoryUpdate id tenantId patch = some (found, t')) :
    t' = t ∨ patch.nullsRequired = false ∧
      t' = Rows.update (fun m => m.at id tenantId && m.live) patch.apply t := by
  unfold Table.memoryUpdate at h
  cases hfind : t.find? (Memory.at id tenantId) with
  | none =>
    simp only [hfind, Option.some.injEq, Prod.mk.injEq] at h
    exact .inl h.2.symm
  | some row =>
    simp only [hfind] at h
    split at h
    · simp only [Option.some.injEq, Prod.mk.injEq] at h
      exact .inl h.2.symm
    · split at h
      · exact nomatch h
      · next hnulls =>
        simp only [Option.some.injEq, Prod.mk.injEq] at h
        exact .inr ⟨by simpa using hnulls, h.2.symm⟩

theorem step_cases (t : Table V) (w : Write V) :
    (∃ data now, w = .memoryAdd data now ∧ step t w = t ++ [data.row t.length now]) ∨
      step t w = t ∨ step t w = Rows.update w.touches w.rewrite t := by
  cases w with
  | memoryAdd data now => exact .inl ⟨data, now, rfl, rfl⟩
  | memoryUpdate id tenantId patch =>
    refine .inr ?_
    simp only [step]
    cases h : t.memoryUpdate id tenantId patch with
    | none => exact .inl rfl
    | some result =>
      obtain ⟨found, t'⟩ := result
      rcases memoryUpdate_cases h with hsame | ⟨-, hrows⟩
      · exact .inl hsame
      · exact .inr hrows
  | softDeleteWhere p now => exact .inr (.inr rfl)
  | memoryUpdateStatus u => exact .inr (.inr rfl)
  | retract u => exact .inr (.inr rfl)
  | setSupersedes id tenantId supersedesId => exact .inr (.inr rfl)
  | insightsRestorePriors tenantId priorIds => exact .inr (.inr rfl)

def Table.Numbered (t : Table V) : Prop := ∀ (i : ℕ) (m : Memory V), t[i]? = some m → m.id = i

namespace Table.Numbered

variable {t : Table V}

theorem nil : Numbered ([] : Table V) := fun _ _ h => nomatch h

theorem append (ht : t.Numbered) {m : Memory V} (hid : m.id = t.length) :
    Numbered (t ++ [m]) := by
  intro i other hother
  rcases Nat.lt_trichotomy i t.length with hlt | heq | hgt
  · rw [List.getElem?_append_left hlt] at hother
    exact ht i other hother
  · subst heq
    rw [List.getElem?_concat_length] at hother
    exact (Option.some.inj hother) ▸ hid
  · have hlen : (t ++ [m]).length ≤ i := by
      rw [List.length_append, List.length_singleton]
      exact hgt
    rw [List.getElem?_eq_none hlen] at hother
    exact nomatch hother

theorem update (ht : t.Numbered) {p : Memory V → Bool} {f : Memory V → Memory V}
    (hf : ∀ m, (f m).id = m.id) : Numbered (Rows.update p f t) := by
  intro i m hm
  rw [Rows.getElem?_update, Option.map_eq_some_iff] at hm
  obtain ⟨old, hold, rfl⟩ := hm
  have hid := ht i old hold
  split
  · exact (hf old).trans hid
  · exact hid

theorem find (ht : t.Numbered) (i : ℕ) (p : Memory V → Bool) :
    t.find? (fun m => m.id = i && p m) = (t[i]?).filter p := by
  cases h : (t[i]?).filter p with
  | some m =>
    obtain ⟨hm, hp⟩ := Option.filter_eq_some_iff.mp h
    have hid := ht i m hm
    obtain ⟨hlt, hget⟩ := List.getElem?_eq_some_iff.mp hm
    refine List.find?_eq_some_iff_getElem.mpr ⟨by simp [hid, hp], i, hlt, hget, fun j hj => ?_⟩
    have hother := ht j t[j] (List.getElem?_eq_getElem (hj.trans hlt))
    simp [hother, Nat.ne_of_lt hj]
  | none =>
    refine List.find?_eq_none.mpr fun m hm hp => ?_
    obtain ⟨j, hj⟩ := List.getElem?_of_mem hm
    obtain ⟨hid, hpm⟩ := Bool.and_eq_true_iff.mp hp
    have hij : i = j := (of_decide_eq_true hid).symm.trans (ht j m hj)
    subst hij
    rw [hj, Option.filter_some, if_pos hpm] at h
    exact nomatch h

theorem get (ht : t.Numbered) (i : ℕ) : t.get i = t[i]? := by
  have h := ht.find i fun _ => true
  have hall : (t[i]?).filter (fun _ => true) = t[i]? := by cases t[i]? <;> rfl
  simpa only [Table.get, Bool.and_true, hall] using h

theorem eq_of_id (ht : t.Numbered) {i : ℕ} {row m : Memory V} (hrow : t[i]? = some row)
    (hm : m ∈ t) (hid : m.id = i) : m = row := by
  obtain ⟨j, hj⟩ := List.getElem?_of_mem hm
  have hij : j = i := (ht j m hj).symm.trans hid
  subst hij
  exact Option.some.inj (hj.symm.trans hrow)

theorem at_eq (ht : t.Numbered) {i : ℕ} {row m : Memory V} {tenantId : String}
    (hrow : t[i]? = some row) (hm : m ∈ t) (hat : m.at i tenantId = true) :
    m = row ∧ m.tenantId = tenantId := by
  obtain ⟨hid, htenant⟩ := Bool.and_eq_true_iff.mp hat
  exact ⟨ht.eq_of_id hrow hm (of_decide_eq_true hid), of_decide_eq_true htenant⟩

end Table.Numbered

theorem getForTenant_eq_some {t : Table V} (ht : t.Numbered) {id : ℕ} {tenantId : String}
    {m : Memory V} (h : t.getForTenant id tenantId = some m) :
    t[id]? = some m ∧ m.id = id ∧ m.tenantId = tenantId ∧ m.live = true := by
  obtain ⟨hget, hlive⟩ := Option.filter_eq_some_iff.mp h
  rw [ht.get] at hget
  simp only [Bool.and_eq_true, decide_eq_true_eq] at hlive
  exact ⟨hget, ht id m hget, hlive.1, hlive.2⟩

theorem step_numbered {t : Table V} (ht : t.Numbered) (w : Write V) : (step t w).Numbered := by
  rcases step_cases t w with ⟨data, now, rfl, hrows⟩ | hsame | hrows
  · rw [hrows]
    exact ht.append rfl
  · rw [hsame]
    exact ht
  · rw [hrows]
    refine ht.update fun m => ?_
    cases w <;> rfl

theorem run_numbered {t : Table V} (ht : t.Numbered) (writes : List (Write V)) :
    (run step t writes).Numbered := by
  induction writes generalizing t with
  | nil => exact ht
  | cons w writes ih => exact ih (step_numbered ht w)

theorem memoryUpdate_live {t : Table V} (ht : t.Numbered) {i : ℕ} {m : Memory V}
    (hm : t[i]? = some m) (hlive : m.live = true) {patch : Patch V}
    (hnulls : patch.nullsRequired = false) :
    t.memoryUpdate i m.tenantId patch =
      some (true, Rows.update (fun m' => m'.at i m.tenantId && m'.live) patch.apply t) := by
  have hfind : t.find? (Memory.at i m.tenantId) = some m := by
    have h := ht.find i fun m' => m'.tenantId = m.tenantId
    rw [hm, Option.filter_some, if_pos (decide_eq_true rfl)] at h
    exact h
  simp only [Table.memoryUpdate, hfind, hlive, hnulls]
  rfl

def sampleMemory : NewMemory ℕ where
  tenantId := "t"
  fleetId := none
  agentId := "a"
  memoryType := .fact
  title := none
  content := "the sky is blue"
  embedding := none
  weight := none
  sourceUri := none
  runId := none
  metadata := none
  contentHash := none
  expiresAt := none
  subjectEntityId := none
  predicate := none
  objectValue := none
  tsValidStart := none
  tsValidEnd := none
  status := .active
  visibility := .scopeTeam

end Memclaw.Memories
