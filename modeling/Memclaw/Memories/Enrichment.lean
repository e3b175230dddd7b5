import Memclaw.Memories.EnrichDefs
import Memclaw.Memories.Statements

/-! Deliveries of enrich requests among the other writers of a memory. What a writer changed
stays as it is in every run whose deliveries agree with the changed columns that the agent left
open. -/

namespace Memclaw.Memories

open Memclaw.Lib Memclaw.Lib.Interleave
open Memclaw.Contradiction (Status Visibility)

variable {V : Type}

inductive ColumnValue
  | memoryType (v : MemoryType)
  | weight (v : Option ℚ)
  | status (v : Status)
  | bound (v : Option ℕ)
deriving DecidableEq

def Memory.column (m : Memory V) : Column → ColumnValue
  | .memoryType => .memoryType m.memoryType
  | .status => .status m.status
  | .tsValidEnd => .bound m.tsValidEnd
  | .tsValidStart => .bound m.tsValidStart
  | .weight => .weight m.weight

def Patch.column (patch : Patch V) : Column → Option ColumnValue
  | .memoryType => (patch.memoryType.getD none).map .memoryType
  | .status => (patch.status.getD none).map .status
  | .tsValidEnd => patch.tsValidEnd.map .bound
  | .tsValidStart => patch.tsValidStart.map .bound
  | .weight => patch.weight.map .weight

theorem Patch.apply_column (patch : Patch V) (m : Memory V) (c : Column) :
    (patch.apply m).column c = (patch.column c).getD (m.column c) := by
  cases c with
  | memoryType =>
    simp only [Memory.column, Patch.column, Patch.apply]
    cases patch.memoryType.getD none <;> rfl
  | status =>
    simp only [Memory.column, Patch.column, Patch.apply]
    cases patch.status.getD none <;> rfl
  | tsValidEnd =>
    simp only [Memory.column, Patch.column, Patch.apply]
    cases patch.tsValidEnd <;> rfl
  | tsValidStart =>
    simp only [Memory.column, Patch.column, Patch.apply]
    cases patch.tsValidStart <;> rfl
  | weight =>
    simp only [Memory.column, Patch.column, Patch.apply]
    cases patch.weight <;> rfl

inductive EnrichEvent (V : Type)
  | deliver (request : EnrichRequest) (e : EnrichmentResult)
  | write (w : Write V)

/-- The table, with the value that a writer other than the worker last changed a column of a
row to after it was created. -/
structure EnrichState (V : Type) where
  table : Table V
  changed : ℕ → Column → Option ColumnValue

def EnrichState.start : EnrichState V := ⟨[], fun _ _ => none⟩

def noteChanges (t t' : Table V) (changed : ℕ → Column → Option ColumnValue) :
    ℕ → Column → Option ColumnValue :=
  fun i c =>
    match t[i]?, t'[i]? with
    | some m, some m' => if m'.column c = m.column c then changed i c else some (m'.column c)
    | _, _ => changed i c

def enrichStep (s : EnrichState V) : EnrichEvent V → EnrichState V
  | .deliver request e => { s with table := handleEnrichRequest s.table request e }
  | .write w =>
    ⟨step s.table w, noteChanges s.table (step s.table w) s.changed⟩

/-- Every changed column holds what it was last changed to. -/
def EnrichState.Keeps (s : EnrichState V) : Prop :=
  ∀ (i : ℕ) (m : Memory V) (c : Column) (v : ColumnValue), s.table[i]? = some m →
    s.changed i c = some v → m.column c = v

/-- An answer's bound agrees with the stored one; the heuristic's silence says nothing. -/
def EnrichmentResult.BoundAgrees (e : EnrichmentResult) (bound stored : Option ℕ) : Prop :=
  (bound = none ∧ e.llmMs = 0) ∨ bound = stored

instance EnrichmentResult.decidableBoundAgrees (e : EnrichmentResult) (bound stored : Option ℕ) :
    Decidable (e.BoundAgrees bound stored) :=
  inferInstanceAs (Decidable (_ ∨ _))

def EnrichmentResult.Agrees (e : EnrichmentResult) (m : Memory V) : Column → Prop
  | .memoryType => e.memoryType = m.memoryType
  | .status => e.status = m.status
  | .tsValidEnd => e.BoundAgrees e.tsValidEnd m.tsValidEnd
  | .tsValidStart => e.BoundAgrees e.tsValidStart m.tsValidStart
  | .weight => some e.weight = m.weight

instance EnrichmentResult.decidableAgrees (e : EnrichmentResult) (m : Memory V) :
    ∀ c : Column, Decidable (e.Agrees m c)
  | .memoryType => inferInstanceAs (Decidable (_ = _))
  | .status => inferInstanceAs (Decidable (_ = _))
  | .tsValidEnd => inferInstanceAs (Decidable (e.BoundAgrees _ _))
  | .tsValidStart => inferInstanceAs (Decidable (e.BoundAgrees _ _))
  | .weight => inferInstanceAs (Decidable (_ = _))

/-- The delivery finds a live row each of whose changed columns was set by the agent at creation
or has by now what the model answered. -/
def Undisputed (s : EnrichState V) : EnrichEvent V → Prop
  | .deliver request e =>
    ∀ m ∈ s.table, m.at request.memoryId request.tenantId = true → m.live = true →
      ∀ c ∈ Column.all, s.changed m.id c = none ∨
        c ∈ request.agentProvidedFields.getD [] ∨ e.Agrees m c
  | .write _ => True

instance Undisputed.decidable (s : EnrichState V) :
    ∀ event : EnrichEvent V, Decidable (Undisputed s event)
  | .deliver request e => inferInstanceAs (Decidable (∀ m ∈ s.table,
      m.at request.memoryId request.tenantId = true → m.live = true →
        ∀ c ∈ Column.all, s.changed m.id c = none ∨
          c ∈ request.agentProvidedFields.getD [] ∨ e.Agrees m c))
  | .write _ => .isTrue trivial

theorem EnrichmentResult.tsPatch_agrees (e : EnrichmentResult) (bound stored : Option ℕ) :
    (((e.tsPatch bound).map ColumnValue.bound).getD (.bound stored) = .bound stored) ↔
      e.BoundAgrees bound stored := by
  cases bound with
  | some t => simp [tsPatch, BoundAgrees]
  | none => by_cases hreal : e.llmMs = 0 <;> simp [tsPatch, BoundAgrees, hreal]

/-- The worker's patch leaves a column of a row alone exactly where the agent set the column or
the answer agrees with the row. -/
theorem buildPatch_leaves_iff (e : EnrichmentResult) (fields : Option (List Column))
    (m : Memory V) (c : Column) :
    (((buildPatch e fields : Patch V).column c).getD (m.column c) = m.column c) ↔
      c ∈ fields.getD [] ∨ e.Agrees m c := by
  by_cases hskip : c ∈ fields.getD []
  · have hnone : (buildPatch e fields : Patch V).column c = none := by
      cases c <;> simp [Patch.column, buildPatch, hskip]
    simp [hnone, hskip]
  · simp only [hskip, false_or]
    cases c with
    | memoryType => simp [Patch.column, buildPatch, hskip, Memory.column, EnrichmentResult.Agrees]
    | status => simp [Patch.column, buildPatch, hskip, Memory.column, EnrichmentResult.Agrees]
    | weight => simp [Patch.column, buildPatch, hskip, Memory.column, EnrichmentResult.Agrees]
    | tsValidEnd =>
      have hcolumn : (buildPatch e fields : Patch V).column .tsValidEnd =
          (e.tsPatch e.tsValidEnd).map .bound := by
        simp [Patch.column, buildPatch, hskip]
      rw [hcolumn]
      exact e.tsPatch_agrees e.tsValidEnd m.tsValidEnd
    | tsValidStart =>
      have hcolumn : (buildPatch e fields : Patch V).column .tsValidStart =
          (e.tsPatch e.tsValidStart).map .bound := by
        simp [Patch.column, buildPatch, hskip]
      rw [hcolumn]
      exact e.tsPatch_agrees e.tsValidStart m.tsValidStart

theorem handleEnrichRequest_cases (t : Table V) (request : EnrichRequest) (e : EnrichmentResult) :
    handleEnrichRequest t request e = t ∨
      handleEnrichRequest t request e =
        Rows.update (fun m => m.at request.memoryId request.tenantId && m.live)
          (buildPatch e request.agentProvidedFields).apply t := by
  unfold handleEnrichRequest
  cases h : t.memoryUpdate request.memoryId request.tenantId
      (buildPatch e request.agentProvidedFields) with
  | none => exact .inl rfl
  | some result =>
    rcases memoryUpdate_cases h with hsame | ⟨-, hrows⟩
    · exact .inl hsame
    · exact .inr hrows

theorem Keeps.deliver {s : EnrichState V} (hn : s.table.Numbered) (h : s.Keeps)
    {request : EnrichRequest} {e : EnrichmentResult}
    (hok : Undisputed s (.deliver request e)) :
    (enrichStep s (.deliver request e)).Keeps := by
  intro i m c v hm hv
  simp only [enrichStep] at hm hv
  rcases handleEnrichRequest_cases s.table request e with hsame | hrows
  · rw [hsame] at hm
    exact h i m c v hm hv
  · rw [hrows, Rows.getElem?_update, Option.map_eq_some_iff] at hm
    obtain ⟨old, hold, rfl⟩ := hm
    have hkept := h i old c v hold hv
    split
    · next htouch =>
      obtain ⟨hat, hlive⟩ := Bool.and_eq_true_iff.mp htouch
      have hall : c ∈ Column.all := by cases c <;> decide
      rw [Patch.apply_column]
      rcases hok old (List.mem_of_getElem? hold) hat hlive c hall with hnone | hsame
      · rw [hn i old hold, hv] at hnone
        exact nomatch hnone
      · have hleft := (buildPatch_leaves_iff e request.agentProvidedFields old c).mpr hsame
        exact hleft.trans hkept
    · exact hkept

theorem Keeps.write {s : EnrichState V} (h : s.Keeps) (w : Write V)
    (hnew : ∀ i, s.table[i]? = none → ∀ c, s.changed i c = none) :
    (enrichStep s (.write w)).Keeps := by
  intro i m c v hm hv
  simp only [enrichStep, noteChanges] at hm hv
  cases hold : s.table[i]? with
  | none =>
    -- a row that was just created has not been changed
    rw [hold] at hv
    exact nomatch (hnew i hold c).symm.trans hv
  | some old =>
    rw [hold, hm] at hv
    simp only at hv
    split at hv
    · next hsame => exact hsame.trans (h i old c v hold hv)
    · exact Option.some.inj hv

theorem length_update (p : Memory V → Bool) (f : Memory V → Memory V) (t : Table V) :
    (Rows.update p f t).length = t.length := List.length_map ..

theorem length_le_step (t : Table V) (w : Write V) : t.length ≤ (step t w).length := by
  rcases step_cases t w with ⟨data, now, -, hrows⟩ | hsame | hrows
  · rw [hrows, List.length_append]
    exact Nat.le_add_right _ _
  · rw [hsame]
  · rw [hrows, length_update]

structure EnrichInv (s : EnrichState V) : Prop where
  numbered : s.table.Numbered
  keeps : s.Keeps
  fresh : ∀ i, s.table[i]? = none → ∀ c, s.changed i c = none

theorem EnrichInv.start : EnrichInv (EnrichState.start : EnrichState V) where
  numbered := Table.Numbered.nil
  keeps := fun _ _ _ _ _ hv => nomatch hv
  fresh := fun _ _ _ => rfl

theorem EnrichInv.step {s : EnrichState V} (h : EnrichInv s) {event : EnrichEvent V}
    (hok : Undisputed s event) : EnrichInv (enrichStep s event) := by
  cases event with
  | deliver request e =>
    have hlength : (handleEnrichRequest s.table request e).length = s.table.length := by
      rcases handleEnrichRequest_cases s.table request e with hsame | hrows
      · rw [hsame]
      · rw [hrows, length_update]
    refine ⟨?_, Keeps.deliver h.numbered h.keeps hok, fun i hi => h.fresh i ?_⟩
    · simp only [enrichStep]
      rcases handleEnrichRequest_cases s.table request e with hsame | hrows
      · rw [hsame]
        exact h.numbered
      · rw [hrows]
        exact h.numbered.update fun m => rfl
    · rw [List.getElem?_eq_none_iff] at hi ⊢
      exact hlength ▸ hi
  | write w =>
    refine ⟨step_numbered h.numbered w, Keeps.write h.keeps w h.fresh, fun i hi c => ?_⟩
    have hi' : (Memories.step s.table w)[i]? = none := hi
    have hold : s.table[i]? = none := by
      rw [List.getElem?_eq_none_iff] at hi' ⊢
      exact (length_le_step s.table w).trans hi'
    simp only [enrichStep, noteChanges, hold]
    exact h.fresh i hold c

theorem enrichment_keeps_changes {events : List (EnrichEvent V)}
    (hok : Along enrichStep Undisputed EnrichState.start events) :
    (run enrichStep EnrichState.start events).Keeps := by
  have hstep : ∀ (s : EnrichState V) (event : EnrichEvent V), EnrichInv s →
      Undisputed s event → EnrichInv (enrichStep s event) := fun _ _ h hevent => h.step hevent
  exact (hok.invariant hstep EnrichInv.start).keeps

/-- A delivery, a verdict, and a redelivery for which the model comes to the same status. -/
theorem enrichment_keeps_changes_sample :
    (run enrichStep EnrichState.start
      [.write (.memoryAdd sampleMemory 1), .deliver ⟨0, "t", "the sky is blue", none⟩ {},
        .write (.memoryUpdateStatus { id := 0, tenantId := "t", status := .outdated }),
        .deliver ⟨0, "t", "the sky is blue", none⟩ { status := .outdated }]).Keeps :=
  enrichment_keeps_changes (by decide +kernel)

/-- The agent set no status, so the worker's `active` replaces a verdict that came first. -/
theorem delivery_revives_outdated :
    ¬ (run enrichStep EnrichState.start
      [.write (.memoryAdd sampleMemory 1),
        .write (.memoryUpdateStatus { id := 0, tenantId := "t", status := .outdated }),
        .deliver ⟨0, "t", "the sky is blue", none⟩ {}]).Keeps := by
  intro h
  have hstatus := h 0 _ .status (.status .outdated) rfl rfl
  exact absurd hstatus (by decide)

end Memclaw.Memories
