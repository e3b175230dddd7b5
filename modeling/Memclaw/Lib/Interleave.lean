import Mathlib.Logic.Function.Basic

/-! Runs of a step function, and parties that take turns over a shared state. A party's
turn is one atomic step; between two of its turns any other party may move. -/

namespace Memclaw.Lib.Interleave

section Runs

variable {C E : Type} (step : C → E → C)

def run (c : C) (events : List E) : C := events.foldl step c

/-- A property of every step of a run, read in the configuration before the step. -/
def Along (Q : C → E → Prop) : C → List E → Prop
  | _, [] => True
  | c, e :: events => Q c e ∧ Along Q (step c e) events

instance Along.decidable (Q : C → E → Prop) [∀ c e, Decidable (Q c e)] :
    ∀ (c : C) (events : List E), Decidable (Along step Q c events)
  | _, [] => .isTrue trivial
  | c, e :: events =>
    have := Along.decidable Q (step c e) events
    inferInstanceAs (Decidable (Q c e ∧ Along step Q (step c e) events))

@[simp] theorem run_nil (c : C) : run step c [] = c := rfl

@[simp] theorem run_cons (c : C) (e : E) (events : List E) :
    run step c (e :: events) = run step (step c e) events := rfl

theorem run_append (c : C) (past future : List E) :
    run step c (past ++ future) = run step (run step c past) future := List.foldl_append

variable {step}

theorem Along.append {Q : C → E → Prop} {c : C} {past future : List E} :
    Along step Q c (past ++ future) ↔
      Along step Q c past ∧ Along step Q (run step c past) future := by
  induction past generalizing c with
  | nil => exact ⟨fun h => ⟨trivial, h⟩, fun h => h.2⟩
  | cons e past ih => exact (and_congr_right fun _ => ih).trans and_assoc.symm

theorem Along.invariant {P : C → Prop} {Ok : C → E → Prop}
    (hstep : ∀ c e, P c → Ok c e → P (step c e)) {c : C} {events : List E} (hP : P c)
    (h : Along step Ok c events) : P (run step c events) := by
  induction events generalizing c with
  | nil => exact hP
  | cons e events ih => exact ih (hstep c e hP h.1) h.2

/-- What holds of every permitted step out of an invariant holds along a permitted run. -/
theorem Along.mono {P : C → Prop} {Ok Q : C → E → Prop}
    (hstep : ∀ c e, P c → Ok c e → P (step c e)) (hQ : ∀ c e, P c → Ok c e → Q c e)
    {c : C} {events : List E} (hP : P c) (h : Along step Ok c events) :
    Along step Q c events := by
  induction events generalizing c with
  | nil => trivial
  | cons e events ih => exact ⟨hQ c e hP h.1, ih (hstep c e hP h.1) h.2⟩

theorem Along.congr {P : C → Prop} {Q Q' : C → E → Prop} {c : C} {events : List E} (hP : P c)
    (hstep : ∀ c, ∀ e ∈ events, P c → P (step c e))
    (h : ∀ c, ∀ e ∈ events, P c → (Q c e ↔ Q' c e)) :
    Along step Q c events ↔ Along step Q' c events := by
  induction events generalizing c with
  | nil => exact Iff.rfl
  | cons e events ih =>
    have hnext : P (step c e) := hstep c e List.mem_cons_self hP
    have hrest := ih hnext (fun c e he => hstep c e (List.mem_cons_of_mem _ he))
      fun c e he => h c e (List.mem_cons_of_mem _ he)
    exact and_congr (h c e List.mem_cons_self hP) hrest

/-- Where a step keeps an invariant exactly when it is permitted, a run passes through
states with the invariant exactly when all its steps are. -/
theorem Along.iff_kept {P : C → Prop} {Ok : C → E → Prop} {c : C} {events : List E}
    (hstep : ∀ c, ∀ e ∈ events, P c → (P (step c e) ↔ Ok c e)) (hP : P c) :
    Along step (fun c e => P (step c e)) c events ↔ Along step Ok c events := by
  induction events generalizing c with
  | nil => exact Iff.rfl
  | cons e events ih =>
    have hhead := hstep c e List.mem_cons_self hP
    have hrest := ih (c := step c e) fun c e he => hstep c e (List.mem_cons_of_mem _ he)
    constructor
    · rintro ⟨hkept, hlater⟩
      exact ⟨hhead.mp hkept, (hrest hkept).mp hlater⟩
    · rintro ⟨hok, hlater⟩
      have hkept := hhead.mpr hok
      exact ⟨hkept, (hrest hkept).mpr hlater⟩

/-- Where an invariant shows the property, is kept by permitted steps, and only permitted
steps out of it show the property again. -/
theorem Along.iff_shown {I P : C → Prop} {Ok : C → E → Prop}
    (hstep : ∀ c e, I c → Ok c e → I (step c e)) (hshow : ∀ c, I c → P c)
    (hok : ∀ c e, I c → P (step c e) → Ok c e) {c : C} {events : List E} (hI : I c) :
    Along step (fun c e => P (step c e)) c events ↔ Along step Ok c events := by
  constructor
  · intro h
    induction events generalizing c with
    | nil => trivial
    | cons e events ih =>
      have hpermitted : Ok c e := hok c e hI h.1
      exact ⟨hpermitted, ih (hstep c e hI hpermitted) h.2⟩
  · intro h
    exact h.mono hstep (fun c e hI hpermitted => hshow _ (hstep c e hI hpermitted)) hI

theorem Along.iff_prefix {P : C → Prop} {c : C} {events : List E} (hP : P c) :
    Along step (fun c e => P (step c e)) c events ↔
      ∀ past, past <+: events → P (run step c past) := by
  induction events generalizing c with
  | nil =>
    refine ⟨fun _ past hpast => ?_, fun _ => trivial⟩
    rw [List.prefix_nil.mp hpast]
    exact hP
  | cons e events ih =>
    constructor
    · rintro ⟨hhead, hrest⟩ past hpast
      rcases List.prefix_cons_iff.mp hpast with rfl | ⟨later, rfl, hlater⟩
      · exact hP
      · exact (ih hhead).mp hrest later hlater
    · intro h
      have hhead : P (step c e) := h [e] ⟨events, rfl⟩
      refine ⟨hhead, (ih hhead).mpr fun past hpast => ?_⟩
      exact h (e :: past) (List.cons_prefix_cons.mpr ⟨rfl, hpast⟩)

/-- Where a step leaves a property exactly when it was there and the step is permitted, a run leaves
it exactly when it was there and all steps are. -/
theorem Along.iff_run {I P : C → Prop} {Ok : C → E → Prop} (hI : ∀ c e, I c → I (step c e))
    (hstep : ∀ c e, I c → (P (step c e) ↔ P c ∧ Ok c e)) {c : C} {events : List E} (hc : I c) :
    P (run step c events) ↔ P c ∧ Along step Ok c events := by
  induction events generalizing c with
  | nil => exact (and_iff_left trivial).symm
  | cons e events ih =>
    have hrest := ih (hI c e hc)
    have hhead := hstep c e hc
    rw [run_cons, hrest, hhead, and_assoc]
    rfl

theorem Along.of_forall {Q : C → E → Prop} (h : ∀ c e, Q c e) (c : C) (events : List E) :
    Along step Q c events := by
  induction events generalizing c with
  | nil => trivial
  | cons e events ih => exact ⟨h c e, ih (step c e)⟩

theorem Along.of_mem {Q : E → Prop} {events : List E} (h : ∀ e ∈ events, Q e) {c : C} :
    Along step (fun _ e => Q e) c events := by
  induction events generalizing c with
  | nil => trivial
  | cons e events ih =>
    exact ⟨h e List.mem_cons_self, ih fun e' he' => h e' (List.mem_cons_of_mem _ he')⟩

theorem Along.forall_mem {Q : E → Prop} {c : C} {events : List E}
    (h : Along step (fun _ e => Q e) c events) : ∀ e ∈ events, Q e := by
  induction events generalizing c with
  | nil => exact List.forall_mem_nil _
  | cons e events ih => exact List.forall_mem_cons.mpr ⟨h.1, ih h.2⟩

end Runs

structure Pool (ι S L : Type) where
  shared : S
  parties : ι → L

section Pools

variable {ι S L A : Type} [DecidableEq ι]

def Pool.step (turn : A → L → S → L × S) (pool : Pool ι S L) (event : ι × A) : Pool ι S L where
  shared := (turn event.2 (pool.parties event.1) pool.shared).2
  parties := Function.update pool.parties event.1
    (turn event.2 (pool.parties event.1) pool.shared).1

theorem Pool.step_self (turn : A → L → S → L × S) (pool : Pool ι S L) (i : ι) (a : A) :
    (pool.step turn (i, a)).parties i = (turn a (pool.parties i) pool.shared).1 :=
  Function.update_self ..

theorem Pool.step_of_ne (turn : A → L → S → L × S) (pool : Pool ι S L) {i j : ι} (h : j ≠ i)
    (a : A) : (pool.step turn (i, a)).parties j = pool.parties j :=
  Function.update_of_ne h ..

/-- An invariant of the shared state, an assertion of each party about it, and a relation
between every two parties. -/
structure Pool.Holds (I : S → Prop) (J : ι → L → S → Prop) (K : L → L → Prop)
    (pool : Pool ι S L) : Prop where
  shared : I pool.shared
  own : ∀ i, J i (pool.parties i) pool.shared
  pair : ∀ i j, i ≠ j → K (pool.parties i) (pool.parties j)

variable {turn : A → L → S → L × S} {I : S → Prop} {J : ι → L → S → Prop} {K : L → L → Prop}

/-- A turn keeps the invariant when it establishes the mover's new assertion, disturbs no
assertion of another party, and keeps the mover related to every other party. -/
theorem Pool.Holds.step {pool : Pool ι S L} (h : pool.Holds I J K) (event : ι × A)
    (next : L × S) (hnext : turn event.2 (pool.parties event.1) pool.shared = next)
    (hI : I next.2) (hown : J event.1 next.1 next.2)
    (hother : ∀ j, j ≠ event.1 → J j (pool.parties j) next.2)
    (hpair : ∀ j, j ≠ event.1 → K next.1 (pool.parties j) ∧ K (pool.parties j) next.1) :
    (pool.step turn event).Holds I J K := by
  subst hnext
  refine ⟨hI, ?_, ?_⟩
  · intro j
    by_cases hj : j = event.1
    · subst hj
      simpa [Pool.step] using hown
    · simpa [Pool.step, Function.update_of_ne hj] using hother j hj
  · intro i j hij
    by_cases hi : i = event.1
    · subst hi
      have hj : j ≠ event.1 := hij.symm
      simpa [Pool.step, Function.update_of_ne hj] using (hpair j hj).1
    · by_cases hj : j = event.1
      · subst hj
        simpa [Pool.step, Function.update_of_ne hi] using (hpair i hi).2
      · simpa [Pool.step, Function.update_of_ne hi, Function.update_of_ne hj] using h.pair i j hij

end Pools

/-- What a remote call meets: it is carried out, it fails, or it is carried out and its
reply is lost. -/
inductive Reply
  | ok
  | refused
  | lost
deriving DecidableEq

end Memclaw.Lib.Interleave
