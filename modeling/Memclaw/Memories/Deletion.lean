import Memclaw.Memories.Statements

/-! Soft deletion is written in two columns by several kinds of statement. The two agree, and
a deleted row keeps its status, in every run in which only a soft delete writes `deleted` to
a live row and no other status reaches a deleted one. -/

namespace Memclaw.Memories

open Memclaw.Lib Memclaw.Lib.Interleave
open Memclaw.Contradiction (Status Visibility)

variable {V : Type}

/-- `deleted_at` is set exactly when the status is `deleted`. -/
def Memory.Agrees (m : Memory V) : Prop := m.deletedAt.isSome = true ↔ m.status = .deleted

instance (m : Memory V) : Decidable m.Agrees := inferInstanceAs (Decidable (_ ↔ _))

def Final (m m' : Memory V) : Prop :=
  m'.id = m.id ∧ (m.deletedAt.isSome = true → m'.deletedAt.isSome = true ∧ m'.status = m.status)

theorem Final.refl (m : Memory V) : Final m m := ⟨rfl, fun h => ⟨h, rfl⟩⟩

theorem Final.trans {a b c : Memory V} (hab : Final a b) (hbc : Final b c) : Final a c := by
  refine ⟨hbc.1.trans hab.1, fun ha => ?_⟩
  obtain ⟨hb, hstatus⟩ := hab.2 ha
  obtain ⟨hc, hstatus'⟩ := hbc.2 hb
  exact ⟨hc, hstatus'.trans hstatus⟩

/-- A status write that agrees with `deleted_at` of the rows it reaches: `deleted` is left to
the soft deletes. -/
def Permitted (t : Table V) : Write V → Prop
  | .memoryAdd data _ => data.status ≠ .deleted
  | .memoryUpdate id tenantId patch =>
    ∀ m ∈ t, m.at id tenantId = true → m.live = true → patch.status ≠ some (some .deleted)
  | .memoryUpdateStatus u => ∀ m ∈ t, u.matches m = true →
    (u.status = .deleted ↔ m.deletedAt.isSome = true)
  | .retract u => ∀ m ∈ t, u.matches m = true →
    (u.status = .deleted ↔ m.deletedAt.isSome = true)
  | _ => True

instance Permitted.decidable (t : Table V) : ∀ w : Write V, Decidable (Permitted t w)
  | .memoryAdd data _ => inferInstanceAs (Decidable (data.status ≠ .deleted))
  | .memoryUpdate id tenantId patch => inferInstanceAs (Decidable (∀ m ∈ t,
      m.at id tenantId = true → m.live = true → patch.status ≠ some (some .deleted)))
  | .memoryUpdateStatus u => inferInstanceAs (Decidable (∀ m ∈ t, u.matches m = true →
      (u.status = .deleted ↔ m.deletedAt.isSome = true)))
  | .retract u => inferInstanceAs (Decidable (∀ m ∈ t, u.matches m = true →
      (u.status = .deleted ↔ m.deletedAt.isSome = true)))
  | .softDeleteWhere _ _ => .isTrue trivial
  | .setSupersedes _ _ _ => .isTrue trivial
  | .insightsRestorePriors _ _ => .isTrue trivial

theorem live_rewrite {m m' : Memory V} (hlive : m.deletedAt.isSome = false) (hid : m'.id = m.id)
    (hdeleted : m'.deletedAt = m.deletedAt) (hstatus : m'.status ≠ .deleted) :
    m'.Agrees ∧ Final m m' := by
  have hlive' : m'.deletedAt.isSome = false := by rw [hdeleted, hlive]
  refine ⟨?_, hid, fun h => ?_⟩
  · rw [Memory.Agrees, hlive']
    exact ⟨fun h => absurd h Bool.false_ne_true, fun h => absurd h hstatus⟩
  · rw [hlive] at h
    exact absurd h Bool.false_ne_true

theorem status_rewrite {m m' : Memory V} (hagree : m.Agrees) (hid : m'.id = m.id)
    (hdeleted : m'.deletedAt = m.deletedAt)
    (hok : m'.status = .deleted ↔ m.deletedAt.isSome = true) : m'.Agrees ∧ Final m m' := by
  have hset : m'.deletedAt.isSome = m.deletedAt.isSome := by rw [hdeleted]
  refine ⟨?_, hid, fun h => ⟨hset.trans h, ?_⟩⟩
  · rw [Memory.Agrees, hset]
    exact hok.symm
  · exact (hok.mpr h).trans (hagree.mp h).symm

theorem patch_status {patch : Patch V} {m : Memory V} (hpatch : patch.status ≠ some (some .deleted))
    (hstatus : m.status ≠ .deleted) : (patch.apply m).status ≠ .deleted := by
  intro h
  simp only [Patch.apply] at h
  rcases hp : patch.status with _ | _ | s
  · rw [hp] at h
    exact hstatus h
  · rw [hp] at h
    exact hstatus h
  · rw [hp] at h hpatch
    exact hpatch (congrArg (fun s => some (some s)) h)

theorem Permitted.rewrite {t : Table V} {w : Write V} (hok : Permitted t w) {m : Memory V}
    (hm : m ∈ t) (htouch : w.touches m = true) (hagree : m.Agrees) :
    (w.rewrite m).Agrees ∧ Final m (w.rewrite m) := by
  cases w with
  | memoryAdd data now => exact absurd htouch Bool.false_ne_true
  | softDeleteWhere p now =>
    -- a second delete moves `deleted_at`, not the status
    refine ⟨⟨fun _ => rfl, fun _ => rfl⟩, rfl, fun h => ⟨rfl, ?_⟩⟩
    exact (hagree.mp h).symm
  | memoryUpdate id tenantId patch =>
    obtain ⟨hat, hlive⟩ := Bool.and_eq_true_iff.mp htouch
    have hnone : m.deletedAt.isSome = false := by
      rw [Memory.live, Option.isNone_iff_eq_none] at hlive
      rw [hlive]
      rfl
    have hstatus : m.status ≠ .deleted := fun h =>
      Bool.false_ne_true (hnone.symm.trans (hagree.mpr h))
    exact live_rewrite hnone rfl rfl (patch_status (hok m hm hat hlive) hstatus)
  | memoryUpdateStatus u => exact status_rewrite hagree rfl rfl (hok m hm htouch)
  | retract u => exact status_rewrite hagree rfl rfl (hok m hm htouch)
  | setSupersedes id tenantId supersedesId => exact status_rewrite hagree rfl rfl hagree.symm
  | insightsRestorePriors tenantId priorIds =>
    -- an outdated row is not deleted
    have houtdated : m.status = .outdated := by
      simp only [Write.touches, Bool.and_eq_true, decide_eq_true_eq] at htouch
      exact htouch.1.2
    have hnone : m.deletedAt.isSome = false := by
      rw [Bool.eq_false_iff]
      intro h
      have hdeleted := hagree.mp h
      rw [houtdated] at hdeleted
      exact nomatch hdeleted
    exact live_rewrite hnone rfl rfl (by intro h; exact nomatch h)

theorem Permitted.kept {t : Table V} {w : Write V} (hok : Permitted t w)
    (hagree : ∀ m ∈ t, m.Agrees) :
    (∀ m ∈ step t w, m.Agrees) ∧ Rows.Evolves Final t (step t w) := by
  rcases step_cases t w with ⟨data, now, rfl, hrows⟩ | hsame | hrows
  · rw [hrows]
    have hnew : (data.row t.length now).Agrees :=
      ⟨fun h => absurd h Bool.false_ne_true, fun h => absurd h hok⟩
    exact ⟨Rows.forall_append hagree hnew, Rows.Evolves.append Final.refl t _⟩
  · rw [hsame]
    exact ⟨hagree, Rows.Evolves.refl Final.refl t⟩
  · rw [hrows]
    have hrow : ∀ m ∈ t, w.touches m = true → (w.rewrite m).Agrees ∧ Final m (w.rewrite m) :=
      fun m hm htouch => hok.rewrite hm htouch (hagree m hm)
    exact ⟨Rows.forall_update hagree fun m hm htouch _ => (hrow m hm htouch).1,
      Rows.Evolves.update Final.refl fun m hm htouch => (hrow m hm htouch).2⟩

theorem Permitted.kept_run {t : Table V} {writes : List (Write V)} (hagree : ∀ m ∈ t, m.Agrees)
    (hok : Along step Permitted t writes) :
    (∀ m ∈ run step t writes, m.Agrees) ∧ Rows.Evolves Final t (run step t writes) := by
  induction writes generalizing t with
  | nil => exact ⟨hagree, Rows.Evolves.refl Final.refl t⟩
  | cons w writes ih =>
    obtain ⟨hagree', hto⟩ := hok.1.kept hagree
    obtain ⟨hlast, hto'⟩ := ih hagree' hok.2
    exact ⟨hlast, Rows.Evolves.trans (R := Final) Final.trans hto hto'⟩

/-- The two columns agree after a run, and what was deleted then is deleted, under the same
status, after every longer run. -/
def DeletionFinal (past future : List (Write V)) : Prop :=
  (∀ m ∈ run step [] past, m.Agrees) ∧
    ∀ (i : ℕ) (m : Memory V), (run step [] past)[i]? = some m → m.deletedAt.isSome = true →
      ∃ m', (run step [] (past ++ future))[i]? = some m' ∧ m'.id = m.id ∧
        m'.deletedAt.isSome = true ∧ m'.status = m.status

theorem deletion_final {past future : List (Write V)}
    (hok : Along step Permitted [] (past ++ future)) : DeletionFinal past future := by
  obtain ⟨hpast, hfuture⟩ := Along.append.mp hok
  have hempty : ∀ m ∈ ([] : Table V), m.Agrees := fun m hm => absurd hm List.not_mem_nil
  obtain ⟨hagree, -⟩ := Permitted.kept_run hempty hpast
  obtain ⟨-, hto⟩ := Permitted.kept_run hagree hfuture
  refine ⟨hagree, fun i m hm hdeleted => ?_⟩
  rw [run_append]
  obtain ⟨m', hm', hid, hkept⟩ := hto i m hm
  exact ⟨m', hm', hid, hkept hdeleted⟩

/-- A verdict lands on a live row, which is then deleted and stays so. -/
theorem deletion_final_sample :
    DeletionFinal
      [.memoryAdd sampleMemory 1, .memoryUpdateStatus ⟨0, "t", .outdated, none, false, none⟩,
        .softDeleteWhere (fun m => m.id = 0) 2]
      [.insightsRestorePriors "t" [0]] :=
  deletion_final (by decide)

/-- The detector read the row before it was deleted and writes its verdict after; and a
`PATCH` may write `deleted` itself. -/
theorem deletion_not_final :
    ¬ DeletionFinal
        [.memoryAdd sampleMemory 1, .softDeleteWhere (fun m => m.id = 0) 2,
          .memoryUpdateStatus ⟨0, "t", .outdated, none, false, none⟩] [] ∧
      ¬ DeletionFinal
        [.memoryAdd sampleMemory 1,
          .memoryUpdate 0 "t" { status := some (some .deleted) }] [] := by
  refine ⟨fun h => ?_, fun h => ?_⟩
  · exact absurd h.1 (by decide)
  · exact absurd h.1 (by decide)

end Memclaw.Memories
