import Memclaw.Insights.Table
import Memclaw.Lib.Interleave

/-! Runs for one key that interleave their calls: when the active insights stay those of one
generation. -/

namespace Memclaw.Insights

open Memclaw.Lib
open Memclaw.Lib.Interleave (Along Pool run)
open Memclaw.Write (Existing Inserted NewRow Row Table WriteEnv)

def Answer.carriedOut : Answer → Bool
  | .ok | .lost => true
  | _ => false

namespace Stage

def priorIds : Stage → List ℕ
  | .superseded ids | .lookedUp ids _ | .failed ids => ids
  | _ => []

def inserts : Stage → Bool
  | .start | .superseded _ | .lookedUp _ _ => true
  | _ => false

def settled : Stage → Bool
  | .start | .failed _ | .finished .raised => true
  | .finished (.returned ids) => ids.all (·.isNone)
  | _ => false

def done : Stage → Bool
  | .finished _ => true
  | _ => false

end Stage

namespace Persist

variable {p : Persist} {env : WriteEnv} {answer : Answer} {store : Store}

theorem noIds_all : p.noIds.all (·.isNone) = true := by
  simp [noIds]

theorem settle_priorIds (priorIds : List ℕ) (ids : List (Option ℕ)) :
    (settle priorIds ids).priorIds ⊆ priorIds := by
  unfold settle
  split
  · exact List.Subset.refl _
  · exact List.nil_subset _

theorem settle_inserts (priorIds : List ℕ) (ids : List (Option ℕ)) :
    (settle priorIds ids).inserts = false := by
  unfold settle
  split <;> rfl

/-- What a call can do to the store, and to the run that makes it. -/
inductive Moves (env : WriteEnv) (p : Persist) (answer : Answer) (store : Store) :
    Stage → Stage × Store → Prop
  | idle {stage stage' : Stage} (hprior : stage'.priorIds ⊆ stage.priorIds)
      (hinserts : stage'.inserts = true → stage.inserts = true)
      (hsettled : stage.settled = true → stage'.settled = true) :
      Moves env p answer store stage (stage', store)
  | supersede {stage' : Stage} (hprior : stage'.priorIds ⊆ store.priorIds p.key) :
      Moves env p answer store .start (stage', (store.insightsSupersedePriors p.key).1)
  | create {priorIds : List ℕ} {existing : List (String × Existing)} {stage' : Stage}
      (hcarried : answer.carriedOut = true) (hprior : stage'.priorIds ⊆ priorIds)
      (hinserts : stage'.inserts = false) :
      Moves env p answer store (.lookedUp priorIds existing)
        (stage', store.inserted p (store.table.insertAll (p.pending env existing)).1)
  | restore {priorIds : List ℕ} {stage' : Stage} (hcarried : answer.carriedOut = true)
      (hprior : stage'.priorIds = []) (hinserts : stage'.inserts = false)
      (hsettled : stage'.settled = true) :
      Moves env p answer store (.failed priorIds)
        (stage', store.insightsRestorePriors p.key.tenantId priorIds)

theorem moves_supersede : Moves env p answer store .start (p.supersede answer store) := by
  have hnone : (Stage.finished (.returned p.noIds)).settled = true := noIds_all
  cases answer with
  | ok =>
    show Moves env p .ok store .start (if _ then _ else _)
    split
    · exact .supersede (List.nil_subset _)
    · exact .supersede (List.Subset.refl _)
  | refused => exact .idle (List.nil_subset _) (fun _ => rfl) fun _ => hnone
  | lost => exact .supersede (List.nil_subset _)
  | errorStatus => exact .idle (List.nil_subset _) (fun _ => rfl) fun _ => rfl

theorem moves_settle (stage : Stage) (ids : List (Option ℕ)) (hinserts : stage.inserts = true)
    (hsettled : stage.settled = false) :
    Moves env p answer store stage (settle stage.priorIds ids, store) := by
  refine .idle (settle_priorIds _ _) (fun _ => hinserts) fun h => ?_
  rw [hsettled] at h
  exact absurd h Bool.false_ne_true

theorem moves_lookUp (priorIds : List ℕ) :
    Moves env p answer store (.superseded priorIds) (p.lookUp env answer priorIds store) := by
  have hcaught : Moves env p answer store (.superseded priorIds) (settle priorIds p.noIds, store) :=
    moves_settle (.superseded priorIds) _ rfl rfl
  cases answer with
  | ok => exact .idle (List.Subset.refl _) (fun _ => rfl) fun h => absurd h Bool.false_ne_true
  | refused => exact hcaught
  | lost => exact hcaught
  | errorStatus => exact hcaught

theorem moves_create (priorIds : List ℕ) (existing : List (String × Existing)) :
    Moves env p answer store (.lookedUp priorIds existing)
      (p.create env answer priorIds existing store) := by
  have hcaught : ∀ ids, Moves env p answer store (.lookedUp priorIds existing)
      (settle priorIds ids, store) :=
    fun ids => moves_settle (.lookedUp priorIds existing) ids rfl rfl
  have hcreated : answer.carriedOut = true → ∀ ids, Moves env p answer store
      (.lookedUp priorIds existing) (settle priorIds ids,
        store.inserted p (store.table.insertAll (p.pending env existing)).1) :=
    fun hcarried ids => .create hcarried (settle_priorIds _ _) (settle_inserts _ _)
  unfold create
  rw [Write.bulkCommit_eq]
  dsimp only
  split
  · exact hcaught _
  · cases answer with
    | ok => exact hcreated rfl _
    | refused => exact hcaught _
    | lost => exact hcreated rfl _
    | errorStatus => exact hcaught _

theorem moves_restore (priorIds : List ℕ) :
    Moves env p answer store (.failed priorIds) (p.restore answer priorIds store) := by
  have hnone : (Stage.finished (.returned p.noIds)).settled = true := noIds_all
  cases answer with
  | ok => exact .restore rfl rfl rfl hnone
  | lost => exact .restore rfl rfl rfl hnone
  | refused => exact .idle (List.nil_subset _) (fun h => h) fun _ => hnone
  | errorStatus => exact .idle (List.nil_subset _) (fun h => h) fun _ => rfl

theorem moves_turn (stage : Stage) :
    Moves env p answer store stage (p.turn env answer stage store) := by
  cases stage with
  | start =>
    show Moves env p answer store .start (if _ then _ else _)
    split
    · exact .idle (List.nil_subset _) (fun _ => rfl) fun _ => rfl
    · exact moves_supersede
  | superseded priorIds => exact moves_lookUp priorIds
  | lookedUp priorIds existing => exact moves_create priorIds existing
  | failed priorIds => exact moves_restore priorIds
  | finished outcome => exact .idle (List.Subset.refl _) (fun h => h) fun h => h

end Persist

section Worlds

variable {ι : Type} [DecidableEq ι]

abbrev World (ι : Type) := Pool ι Store Stage

def World.start (store : Store) : World ι := ⟨store, fun _ => .start⟩

def step (env : WriteEnv) (runs : ι → Persist) (w : World ι) (event : ι × Answer) : World ι :=
  w.step ((runs event.1).turn env) event

/-- A row that no run inserted. -/
def Prior (runs : ι → Persist) (r : Row) : Prop := ∀ i, ¬ (runs i).Made r

def Alike (runs : ι → Persist) (r r' : Row) : Prop :=
  (Prior runs r ∧ Prior runs r') ∨ ∃ i, (runs i).Made r ∧ (runs i).Made r'

/-- The active insights of a key come from a single run, or were there before and every run that
has begun is left without an id. -/
def SingleGeneration (runs : ι → Persist) (key : Key) (w : World ι) : Prop :=
  (∃ i, ∀ r ∈ w.shared.generation key, (runs i).Made r) ∨
    (∀ r ∈ w.shared.generation key, Prior runs r) ∧ ∀ i, (w.parties i).settled = true

def Store.restored (store : Store) (key : Key) (priorIds : List ℕ) : List Row :=
  store.table.live.filter fun r =>
    store.ofKey key r && store.restores key.tenantId priorIds r.id

/-- An insert that is carried out adds an active insight only when none is active. A restore
brings rows back only beside rows of their generation, and rows of before the runs only when no
other run has an id or may still get one. -/
def Meets (env : WriteEnv) (runs : ι → Persist) (key : Key) (w : World ι) (event : ι × Answer) :
    Prop :=
  event.2.carriedOut = true →
    match w.parties event.1 with
    | .lookedUp _ existing =>
      (∃ n ∈ (runs event.1).pending env existing, ∃ k,
        n.clientRequestId = some ((runs event.1).requestId k) ∧
          ((runs event.1).columns k).status = .active) → w.shared.generation key = []
    | .failed priorIds => ∀ r ∈ w.shared.restored key priorIds,
      (∀ r' ∈ w.shared.generation key, Alike runs r r') ∧
        (Prior runs r → ∀ j, j ≠ event.1 → (w.parties j).settled = true)
    | _ => True

variable {runs : ι → Persist} {key : Key}

omit [DecidableEq ι] in
theorem Alike.symm {r r' : Row} (h : Alike runs r r') : Alike runs r' r :=
  h.imp And.symm fun ⟨i, hr, hr'⟩ => ⟨i, hr', hr⟩

def Single (runs : ι → Persist) (key : Key) (store : Store) : Prop :=
  ∀ r ∈ store.generation key, ∀ r' ∈ store.generation key, Alike runs r r'

/-- What a run may rely on: its own rows are still to come, the rows that it may restore are of
one generation, and while rows of before the runs are active it has no id and gets none. -/
structure Knows (runs : ι → Persist) (key : Key) (i : ι) (stage : Stage) (store : Store) :
    Prop where
  unmade : stage.inserts = true → ∀ r ∈ store.table.rows, ¬ (runs i).Made r
  known : ∀ id ∈ stage.priorIds, ∃ r ∈ store.table.rows, r.id = id
  alike : ∀ r ∈ store.table.rows, ∀ r' ∈ store.table.rows, r.id ∈ stage.priorIds →
    r'.id ∈ stage.priorIds → Alike runs r r'
  quiet : ∀ r ∈ store.generation key, Prior runs r → stage.settled = true

abbrev Sound (runs : ι → Persist) (key : Key) (w : World ι) : Prop :=
  w.Holds (Single runs key) (Knows runs key) fun _ _ => True

section Moves

variable {env : WriteEnv} {store : Store} {i : ι} {stage stage' : Stage}

omit [DecidableEq ι] in
theorem Knows.idle (h : Knows runs key i stage store) (hprior : stage'.priorIds ⊆ stage.priorIds)
    (hinserts : stage'.inserts = true → stage.inserts = true)
    (hsettled : stage.settled = true → stage'.settled = true) :
    Knows runs key i stage' store where
  unmade := fun hstage => h.unmade (hinserts hstage)
  known := fun id hid => h.known id (hprior hid)
  alike := fun r hr r' hr' hid hid' => h.alike r hr r' hr' (hprior hid) (hprior hid')
  quiet := fun r hr hold => hsettled (h.quiet r hr hold)

omit [DecidableEq ι] in
theorem Knows.frame (h : Knows runs key i stage store) {store' : Store}
    (htable : store'.table = store.table)
    (hquiet : ∀ r ∈ store'.generation key, Prior runs r → stage.settled = true) :
    Knows runs key i stage store' :=
  ⟨htable ▸ h.unmade, htable ▸ h.known, htable ▸ h.alike, hquiet⟩

omit [DecidableEq ι] in
theorem Knows.superseded (hstart : ∀ r ∈ store.table.rows, ¬ (runs i).Made r)
    (hsingle : Single runs key store) (hprior : stage.priorIds ⊆ store.priorIds key) :
    Knows runs key i stage (store.insightsSupersedePriors key).1 := by
  have hrow : ∀ r ∈ store.table.rows, r.id ∈ stage.priorIds → r ∈ store.generation key := by
    intro r hr hid
    obtain ⟨r', hr', hsame⟩ := Store.mem_priorIds.mp (hprior hid)
    have hold := (Write.Table.mem_live.mp (Store.mem_generation.mp hr').1).1
    rwa [← List.inj_on_of_nodup_map store.table.nodup hold hr hsame]
  refine ⟨fun _ => hstart, fun id hid => ?_, fun r hr r' hr' hid hid' => ?_, fun r hr => ?_⟩
  · obtain ⟨r, hr, hid⟩ := Store.mem_priorIds.mp (hprior hid)
    exact ⟨r, (Write.Table.mem_live.mp (Store.mem_generation.mp hr).1).1, hid⟩
  · exact hsingle r (hrow r hr hid) r' (hrow r' hr' hid')
  · rw [Store.generation_superseded] at hr
    exact absurd hr List.not_mem_nil

omit [DecidableEq ι] in
theorem Knows.created (h : Knows runs key i stage store) {p : Persist} {added : List Row}
    {table : Table} (hrows : table.rows = store.table.rows ++ added)
    (hprior : stage'.priorIds ⊆ stage.priorIds)
    (hinserts : stage'.inserts = true → stage.inserts = true ∧ ∀ r ∈ added, ¬ (runs i).Made r)
    (hquiet : ∀ r ∈ (store.inserted p table).generation key, Prior runs r →
      stage'.settled = true) : Knows runs key i stage' (store.inserted p table) := by
  -- The insert of a run, seen by a run whose rows it does not add.
  have hold : ∀ r ∈ table.rows, r.id ∈ stage'.priorIds → r ∈ store.table.rows := by
    intro r hr hid
    obtain ⟨r', hr', hsame⟩ := h.known r.id (hprior hid)
    have hmem : r' ∈ table.rows := hrows ▸ List.mem_append_left _ hr'
    rwa [← List.inj_on_of_nodup_map table.nodup hmem hr hsame]
  refine ⟨fun hstage r hr => ?_, fun id hid => ?_, fun r hr r' hr' hid hid' => ?_, hquiet⟩
  · have hmem : r ∈ store.table.rows ++ added := hrows ▸ hr
    rcases List.mem_append.mp hmem with hr | hnew
    · exact h.unmade (hinserts hstage).1 r hr
    · exact (hinserts hstage).2 r hnew
  · obtain ⟨r, hr, hsame⟩ := h.known id (hprior hid)
    exact ⟨r, hrows ▸ List.mem_append_left _ hr, hsame⟩
  · exact h.alike r (hold r hr hid) r' (hold r' hr' hid') (hprior hid) (hprior hid')

end Moves

section Steps

variable {env : WriteEnv} {w : World ι} {i : ι} {stage' : Stage}

omit [DecidableEq ι] in
theorem sound_created (hkey : (runs i).key = key)
    (hdistinct : ∀ i j, (runs i).bulkAttemptId = (runs j).bulkAttemptId → i = j)
    (h : Sound runs key w) {priorIds : List ℕ} {existing : List (String × Existing)}
    (hstage : w.parties i = .lookedUp priorIds existing)
    (hadds : (∃ n ∈ (runs i).pending env existing, ∃ k,
      n.clientRequestId = some ((runs i).requestId k) ∧ ((runs i).columns k).status = .active) →
        w.shared.generation key = [])
    (hprior : stage'.priorIds ⊆ priorIds) (hinserts : stage'.inserts = false) {store' : Store}
    (hstore : store' = w.shared.inserted (runs i)
      (w.shared.table.insertAll ((runs i).pending env existing)).1) :
    Single runs key store' ∧ Knows runs key i stage' store' ∧
      ∀ j, j ≠ i → Knows runs key j (w.parties j) store' := by
  subst hkey hstore
  obtain ⟨added, hadded⟩ := Write.exists_inserted w.shared.table ((runs i).pending env existing)
  have hmade : ∀ r ∈ added, (runs i).Made r := by
    intro r hr
    obtain ⟨k, -, hk⟩ := Persist.made_of_added hadded hr
    exact ⟨k, hk⟩
  have hnone : ∀ r ∈ added, ((runs i).columns ((runs i).indexOf r)).status = .active →
      w.shared.generation (runs i).key = [] := by
    intro r hr hactive
    obtain ⟨k, hlt, hk⟩ := Persist.made_of_added hadded hr
    rw [Persist.indexOf_eq hlt hk] at hactive
    exact hadds ⟨r.toNewRow, hadded.sublist.mem (List.mem_map_of_mem hr), k, hk, hactive⟩
  have hquiet : ∀ r ∈ (w.shared.inserted (runs i) (w.shared.table.insertAll
      ((runs i).pending env existing)).1).generation (runs i).key, ¬ Prior runs r := by
    intro r hr hold
    rcases (Persist.mem_generation_inserted hadded).mp hr with hbefore | ⟨hnew, -⟩
    · have hsettled := (h.own i).quiet r hbefore hold
      rw [hstage] at hsettled
      exact Bool.false_ne_true hsettled
    · exact hold i (hmade r hnew)
  refine ⟨fun r hr r' hr' => ?_, ?_, fun j hj => ?_⟩
  · rcases (Persist.mem_generation_inserted hadded).mp hr with hbefore | ⟨hnew, hactive⟩
    · rcases (Persist.mem_generation_inserted hadded).mp hr' with hbefore' | ⟨hnew', hactive'⟩
      · exact h.shared r hbefore r' hbefore'
      · rw [hnone r' hnew' hactive'] at hbefore
        exact absurd hbefore List.not_mem_nil
    · rcases (Persist.mem_generation_inserted hadded).mp hr' with hbefore' | ⟨hnew', -⟩
      · rw [hnone r hnew hactive] at hbefore'
        exact absurd hbefore' List.not_mem_nil
      · exact .inr ⟨i, hmade r hnew, hmade r' hnew'⟩
  · refine (hstage ▸ h.own i).created hadded.rows hprior (fun hstage' => ?_)
      fun r hr hold => absurd hold (hquiet r hr)
    rw [hinserts] at hstage'
    exact absurd hstage' Bool.false_ne_true
  · refine (h.own j).created hadded.rows (List.Subset.refl _) (fun hstage' => ⟨hstage', ?_⟩)
      fun r hr hold => absurd hold (hquiet r hr)
    rintro r hr ⟨k, hk⟩
    obtain ⟨k', hk'⟩ := hmade r hr
    exact hj (hdistinct j i (Persist.requestId_injective (Option.some.inj (hk.symm.trans hk'))).1)

omit [DecidableEq ι] in
theorem mem_restored {store : Store} {priorIds : List ℕ} {r : Row} :
    r ∈ store.restored key priorIds ↔ r ∈ store.table.live ∧ store.ofKey key r = true ∧
      store.restores key.tenantId priorIds r.id = true := by
  rw [Store.restored, List.mem_filter, Bool.and_eq_true]

omit [DecidableEq ι] in
theorem sound_restored (h : Sound runs key w) {priorIds : List ℕ}
    (hstage : w.parties i = .failed priorIds)
    (hok : ∀ r ∈ w.shared.restored key priorIds,
      (∀ r' ∈ w.shared.generation key, Alike runs r r') ∧
        (Prior runs r → ∀ j, j ≠ i → (w.parties j).settled = true))
    (hprior : stage'.priorIds = []) (hinserts : stage'.inserts = false)
    (hsettled : stage'.settled = true) {store' : Store}
    (hstore : store' = w.shared.insightsRestorePriors key.tenantId priorIds) :
    Single runs key store' ∧ Knows runs key i stage' store' ∧
      ∀ j, j ≠ i → Knows runs key j (w.parties j) store' := by
  subst hstore
  have hmem : ∀ r ∈ (w.shared.insightsRestorePriors key.tenantId priorIds).generation key,
      r ∈ w.shared.generation key ∨ r ∈ w.shared.restored key priorIds :=
    fun r hr => (Store.mem_generation_restored.mp hr).imp_right mem_restored.mpr
  have hback : ∀ r ∈ w.shared.restored key priorIds, r ∈ w.shared.table.rows ∧ r.id ∈ priorIds := by
    intro r hr
    obtain ⟨hlive, -, hrestores⟩ := mem_restored.mp hr
    rw [Store.restores, Bool.and_eq_true, Bool.and_eq_true] at hrestores
    exact ⟨(Write.Table.mem_live.mp hlive).1, List.contains_iff_mem.mp hrestores.1.1⟩
  refine ⟨fun r hr r' hr' => ?_, ?_, fun j hj => ?_⟩
  · rcases hmem r hr with hbefore | hrestored
    · rcases hmem r' hr' with hbefore' | hrestored'
      · exact h.shared r hbefore r' hbefore'
      · exact ((hok r' hrestored').1 r hbefore).symm
    · rcases hmem r' hr' with hbefore' | hrestored'
      · exact (hok r hrestored).1 r' hbefore'
      · obtain ⟨hrow, hid⟩ := hback r hrestored
        obtain ⟨hrow', hid'⟩ := hback r' hrestored'
        refine (h.own i).alike r hrow r' hrow' ?_ ?_
        · rwa [hstage]
        · rwa [hstage]
  · have hself : Knows runs key i stage' w.shared := by
      refine (h.own i).idle ?_ (fun hstage' => ?_) fun _ => hsettled
      · rw [hprior]
        exact List.nil_subset _
      · rw [hinserts] at hstage'
        exact absurd hstage' Bool.false_ne_true
    exact hself.frame rfl fun _ _ _ => hsettled
  · refine (h.own j).frame rfl fun r hr hold => ?_
    rcases hmem r hr with hbefore | hrestored
    · exact (h.own j).quiet r hbefore hold
    · exact (hok r hrestored).2 hold j hj

theorem sound_step (hkey : ∀ i, (runs i).key = key)
    (hdistinct : ∀ i j, (runs i).bulkAttemptId = (runs j).bulkAttemptId → i = j)
    (h : Sound runs key w) (event : ι × Answer) (hok : Meets env runs key w event) :
    Sound runs key (step env runs w event) := by
  obtain ⟨i, answer⟩ := event
  have hmoves : (runs i).Moves env answer w.shared (w.parties i) _ :=
    Persist.moves_turn (w.parties i)
  have hall : Single runs key ((runs i).turn env answer (w.parties i) w.shared).2 ∧
      Knows runs key i ((runs i).turn env answer (w.parties i) w.shared).1
        ((runs i).turn env answer (w.parties i) w.shared).2 ∧
      ∀ j, j ≠ i → Knows runs key j (w.parties j)
        ((runs i).turn env answer (w.parties i) w.shared).2 := by
    generalize hnext : (runs i).turn env answer (w.parties i) w.shared = next at hmoves ⊢
    generalize hstage : w.parties i = stage at hmoves
    cases hmoves with
    | idle hprior hinserts hsettled =>
      exact ⟨h.shared, (hstage ▸ h.own i).idle hprior hinserts hsettled, fun j _ => h.own j⟩
    | supersede hprior =>
      have hstart : ∀ r ∈ w.shared.table.rows, ¬ (runs i).Made r :=
        (h.own i).unmade (by rw [hstage]; rfl)
      rw [hkey i] at hprior ⊢
      have hnone : ∀ r, r ∉ (w.shared.insightsSupersedePriors key).1.generation key := by
        intro r
        rw [Store.generation_superseded]
        exact List.not_mem_nil
      exact ⟨fun r hr => absurd hr (hnone r), .superseded hstart h.shared hprior,
        fun j _ => (h.own j).frame rfl fun r hr => absurd hr (hnone r)⟩
    | create hcarried hprior hinserts =>
      have hadds := hok hcarried
      simp only [hstage] at hadds
      exact sound_created (hkey i) hdistinct h hstage hadds hprior hinserts rfl
    | restore hcarried hprior hinserts hsettled =>
      have hback := hok hcarried
      simp only [hstage] at hback
      rw [hkey i]
      exact sound_restored h hstage hback hprior hinserts hsettled rfl
  exact h.step (i, answer) _ rfl hall.1 hall.2.1 hall.2.2 fun _ _ => ⟨trivial, trivial⟩

theorem create_store {p : Persist} {answer : Answer} {priorIds : List ℕ}
    {existing : List (String × Existing)} {store : Store} (hcarried : answer.carriedOut = true)
    (hpending : p.pending env existing ≠ []) :
    (p.create env answer priorIds existing store).2 =
      store.inserted p (store.table.insertAll (p.pending env existing)).1 := by
  unfold Persist.create
  rw [Write.bulkCommit_eq]
  dsimp only
  rw [if_neg hpending]
  cases answer with
  | ok => rfl
  | lost => rfl
  | refused => exact absurd hcarried Bool.false_ne_true
  | errorStatus => exact absurd hcarried Bool.false_ne_true

theorem restore_store {p : Persist} {answer : Answer} {priorIds : List ℕ} {store : Store}
    (hcarried : answer.carriedOut = true) :
    (p.restore answer priorIds store).2 = store.insightsRestorePriors p.key.tenantId priorIds := by
  cases answer with
  | ok => rfl
  | lost => rfl
  | refused => exact absurd hcarried Bool.false_ne_true
  | errorStatus => exact absurd hcarried Bool.false_ne_true

omit [DecidableEq ι] in
theorem singleGeneration_of_sound
    (hdistinct : ∀ i j, (runs i).bulkAttemptId = (runs j).bulkAttemptId → i = j)
    (h : Sound runs key w) : SingleGeneration runs key w := by
  by_cases hactive : ∃ r, r ∈ w.shared.generation key
  · obtain ⟨r, hr⟩ := hactive
    by_cases hold : Prior runs r
    · refine .inr ⟨fun r' hr' => ?_, fun i => (h.own i).quiet r hr hold⟩
      rcases h.shared r hr r' hr' with ⟨-, hold'⟩ | ⟨i, hmade, -⟩
      · exact hold'
      · exact absurd hmade (hold i)
    · obtain ⟨i, hmade⟩ := not_forall_not.mp hold
      refine .inl ⟨i, fun r' hr' => ?_⟩
      rcases h.shared r hr r' hr' with ⟨hold', -⟩ | ⟨j, ⟨k, hk⟩, hmade'⟩
      · exact absurd hold' hold
      · obtain ⟨k', hk'⟩ := hmade
        have hsame := Persist.requestId_injective (Option.some.inj (hk.symm.trans hk'))
        rwa [← hdistinct j i hsame.1]
  · have hnone : ∀ r, r ∉ w.shared.generation key := not_exists.mp hactive
    rcases isEmpty_or_nonempty ι with hempty | ⟨⟨i⟩⟩
    · exact .inr ⟨fun r hr => absurd hr (hnone r), fun i => hempty.elim i⟩
    · exact .inl ⟨i, fun r hr => absurd hr (hnone r)⟩

omit [DecidableEq ι] in
theorem SingleGeneration.alike (h : SingleGeneration runs key w) {r r' : Row}
    (hr : r ∈ w.shared.generation key) (hr' : r' ∈ w.shared.generation key) : Alike runs r r' := by
  rcases h with ⟨i, hmade⟩ | ⟨hold, -⟩
  · exact .inr ⟨i, hmade r hr, hmade r' hr'⟩
  · exact .inl ⟨hold r hr, hold r' hr'⟩

/-- A step out of a sound world that leaves a single generation meets the condition. -/
theorem meets_of_single (hkey : ∀ i, (runs i).key = key)
    (hdistinct : ∀ i j, (runs i).bulkAttemptId = (runs j).bulkAttemptId → i = j)
    (h : Sound runs key w) (event : ι × Answer) (hafter : SingleGeneration runs key (step env runs w event)) :
    Meets env runs key w event := by
  obtain ⟨i, answer⟩ := event
  intro hcarried
  dsimp only
  cases hstage : w.parties i with
  | lookedUp priorIds existing =>
    rintro ⟨n, hn, k, hk, hactive⟩
    have hshared : (step env runs w (i, answer)).shared = w.shared.inserted (runs i)
        (w.shared.table.insertAll ((runs i).pending env existing)).1 := by
      show ((runs i).turn env answer (w.parties i) w.shared).2 = _
      rw [hstage]
      exact create_store hcarried (List.ne_nil_of_mem hn)
    obtain ⟨added, hadded⟩ :=
      Write.exists_inserted w.shared.table ((runs i).pending env existing)
    have hunmade : ∀ r ∈ w.shared.table.rows, ¬ (runs i).Made r :=
      (h.own i).unmade (by rw [hstage]; rfl)
    obtain ⟨new, hnew, rfl⟩ := Persist.exists_added hadded
      (fun r hr => hunmade r (Write.Table.mem_live.mp hr).1) hn
    have hinserted : ∀ r, r ∈ (step env runs w (i, answer)).shared.generation key ↔
        r ∈ w.shared.generation key ∨
          r ∈ added ∧ ((runs i).columns ((runs i).indexOf r)).status = .active := by
      intro r
      rw [hshared, ← hkey i]
      exact Persist.mem_generation_inserted hadded
    refine List.eq_nil_iff_forall_not_mem.mpr fun r hr => ?_
    have hindex : (runs i).indexOf new = k := by
      obtain ⟨k', hlt, hk'⟩ := Persist.made_of_added hadded hnew
      rw [Persist.indexOf_eq hlt hk']
      exact (Persist.requestId_injective (Option.some.inj (hk'.symm.trans hk))).2
    have hrow : r ∈ w.shared.table.rows :=
      (Write.Table.mem_live.mp (Store.mem_generation.mp hr).1).1
    rcases hafter.alike ((hinserted r).mpr (.inl hr))
      ((hinserted new).mpr (.inr ⟨hnew, hindex.symm ▸ hactive⟩)) with ⟨-, hold⟩ | ⟨j, hmade, hmade'⟩
    · exact hold i ⟨k, hk⟩
    · obtain ⟨k', hk'⟩ := hmade'
      obtain rfl := hdistinct j i
        (Persist.requestId_injective (Option.some.inj (hk'.symm.trans hk))).1
      exact hunmade r hrow hmade
  | failed priorIds =>
    have hshared : (step env runs w (i, answer)).shared =
        w.shared.insightsRestorePriors key.tenantId priorIds := by
      show ((runs i).turn env answer (w.parties i) w.shared).2 = _
      rw [hstage, ← hkey i]
      exact restore_store hcarried
    have hgeneration : ∀ r, r ∈ (step env runs w (i, answer)).shared.generation key ↔
        r ∈ w.shared.generation key ∨ r ∈ w.shared.restored key priorIds := by
      intro r
      rw [hshared, Store.mem_generation_restored, mem_restored]
    intro r hr
    have hafter' := (hgeneration r).mpr (.inr hr)
    refine ⟨fun r' hr' => hafter.alike hafter' ((hgeneration r').mpr (.inl hr')), ?_⟩
    intro hold j hj
    rcases hafter with ⟨i', hmade⟩ | ⟨-, hsettled⟩
    · exact absurd (hmade r hafter') (hold i')
    · rw [← hsettled j]
      exact congrArg Stage.settled (Pool.step_of_ne _ w hj answer).symm
  | start => trivial
  | superseded _ => trivial
  | finished _ => trivial

end Steps

/-- In a run of the calls of all, the active insights of the key are those of a single generation
at every point exactly when all inserts and restores meet the condition. -/
theorem single_generation_iff (env : WriteEnv) (runs : ι → Persist) (key : Key) (store : Store)
    (hkey : ∀ i, (runs i).key = key)
    (hdistinct : ∀ i j, (runs i).bulkAttemptId = (runs j).bulkAttemptId → i = j)
    (hfresh : ∀ r ∈ store.table.rows, Prior runs r) (events : List (ι × Answer)) :
    (∀ past, past <+: events →
      SingleGeneration runs key (run (step env runs) (World.start store) past)) ↔
      Along (step env runs) (Meets env runs key) (World.start store) events := by
  have hstart : Sound runs key (World.start store) := by
    refine ⟨fun r hr r' hr' => .inl ⟨?_, ?_⟩, fun i => ⟨?_, ?_, ?_, ?_⟩, fun _ _ _ => trivial⟩
    · exact hfresh r (Write.Table.mem_live.mp (Store.mem_generation.mp hr).1).1
    · exact hfresh r' (Write.Table.mem_live.mp (Store.mem_generation.mp hr').1).1
    · exact fun _ r hr => hfresh r hr i
    · exact fun id hid => absurd hid List.not_mem_nil
    · exact fun r _ r' _ hid => absurd hid List.not_mem_nil
    · exact fun _ _ _ => rfl
  rw [← Along.iff_prefix (singleGeneration_of_sound hdistinct hstart)]
  refine Along.iff_shown (I := Sound runs key) (fun w event h hok => ?_)
    (fun w h => singleGeneration_of_sound hdistinct h) (fun w event h hafter => ?_) hstart
  · exact sound_step hkey hdistinct h event hok
  · exact meets_of_single hkey hdistinct h event hafter

end Worlds

def priorRow : Row := ⟨⟨"t", none, "a", "Deploys fail", "", none⟩, 0, false⟩

def priorStore : Store where
  table := ⟨[priorRow], 1, by decide, by decide, List.pairwise_singleton _ _⟩
  columns := fun _ => ⟨.insight, .active, some "patterns", some "agent"⟩

theorem priorStore_prior : ∀ r ∈ priorStore.table.rows, Prior sampleRuns r := by
  rintro r hr i ⟨k, hk⟩
  rw [List.mem_singleton.mp hr] at hk
  cases hk

def successiveCalls : List (Bool × Answer) :=
  List.replicate 3 (false, .ok) ++ List.replicate 3 (true, .ok)

/-- Two runs after one another, over an insight of before. -/
theorem single_generation_iff_sample :
    (∀ past, past <+: successiveCalls → SingleGeneration sampleRuns sampleKey
      (run (step Write.plainEnv sampleRuns) (World.start priorStore) past)) ↔
      Along (step Write.plainEnv sampleRuns) (Meets Write.plainEnv sampleRuns sampleKey)
        (World.start priorStore) successiveCalls :=
  single_generation_iff Write.plainEnv sampleRuns sampleKey priorStore (fun _ => rfl)
    sampleRuns_distinct priorStore_prior _

def overlappingCalls : List (Bool × Answer) :=
  [(false, .ok), (true, .ok), (false, .ok), (true, .ok), (false, .ok), (true, .ok)]

theorem overlapping_runs_leave_two :
    ¬ ∀ (env : WriteEnv) (runs : Bool → Persist) (key : Key) (store : Store)
      (events : List (Bool × Answer)), (∀ i, (runs i).key = key) →
        (∀ i j, (runs i).bulkAttemptId = (runs j).bulkAttemptId → i = j) →
        (∀ r ∈ store.table.rows, Prior runs r) →
        (∀ i, ((run (step env runs) (World.start store) events).parties i).done = true) →
        SingleGeneration runs key (run (step env runs) (World.start store) events) := by
  intro h
  have hsingle := h Write.plainEnv sampleRuns sampleKey emptyStore overlappingCalls
    (fun _ => rfl) sampleRuns_distinct (fun _ hr => absurd hr List.not_mem_nil) (by decide)
  have hactive : ((run (step Write.plainEnv sampleRuns) (World.start emptyStore)
      overlappingCalls).shared.generation sampleKey).map (·.clientRequestId) =
        [some ((sampleRuns false).requestId 0), some ((sampleRuns true).requestId 0)] := by
    decide
  obtain ⟨r, hr, hid⟩ := List.mem_map.mp (hactive ▸ List.mem_cons_self)
  obtain ⟨r', hr', hid'⟩ := List.mem_map.mp
    (hactive ▸ List.mem_cons_of_mem _ List.mem_cons_self)
  rcases hsingle.alike hr hr' with ⟨hold, -⟩ | ⟨i, ⟨k, hk⟩, k', hk'⟩
  · exact hold false ⟨0, hid⟩
  · have hfirst := sampleRuns_distinct _ _
      (Persist.requestId_injective (Option.some.inj (hid.symm.trans hk))).1
    have hsecond := sampleRuns_distinct _ _
      (Persist.requestId_injective (Option.some.inj (hid'.symm.trans hk'))).1
    exact absurd (hfirst.trans hsecond.symm) Bool.false_ne_true

end Memclaw.Insights
