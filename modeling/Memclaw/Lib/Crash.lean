import Memclaw.Lib.Prog

/-! Programs over a store that outlives them. A program runs to its end, or its process dies
before a call or in the middle of one; then the store keeps what the call left there. -/

namespace Memclaw.Lib.Interleave.Prog

variable {C : Type} {A : C → Type} {R R' S : Type} (serve : (c : C) → S → A c × S)
  (torn : C → S → S → Prop)

def finish : Prog Empty C A R → S → R × S
  | done r, s => (r, s)
  | raise e, _ => e.elim
  | call c next, s => finish (next (serve c s).1) (serve c s).2

def trace : Prog Empty C A R → S → List C
  | done _, _ => []
  | raise e, _ => e.elim
  | call c next, s => c :: trace (next (serve c s).1) (serve c s).2

/-- The process dies: the calls that were complete by then, and the store that is left. -/
inductive Crashes : Prog Empty C A R → S → List C → S → Prop
  | before (p : Prog Empty C A R) (s : S) : Crashes p s [] s
  | during {c : C} {next : A c → Prog Empty C A R} {s s' : S} (h : torn c s s') :
      Crashes (call c next) s [] s'
  | after {c : C} {next : A c → Prog Empty C A R} {s s' : S} {calls : List C}
      (h : Crashes (next (serve c s).1) (serve c s).2 calls s') :
      Crashes (call c next) s (c :: calls) s'

variable {serve torn}

@[simp] theorem finish_done (r : R) (s : S) : finish serve (done r) s = (r, s) := rfl

@[simp] theorem trace_done (r : R) (s : S) : trace serve (done r) s = [] := rfl

@[simp] theorem finish_call {c : C} {next : A c → Prog Empty C A R} (s : S) :
    finish serve (call c next) s = finish serve (next (serve c s).1) (serve c s).2 := rfl

@[simp] theorem trace_call {c : C} {next : A c → Prog Empty C A R} (s : S) :
    trace serve (call c next) s = c :: trace serve (next (serve c s).1) (serve c s).2 := rfl

@[simp] theorem finish_ask (c : C) (s : S) : finish serve (ask c) s = serve c s := rfl

@[simp] theorem trace_ask (c : C) (s : S) : trace serve (ask c) s = [c] := rfl

@[simp] theorem finish_bind (p : Prog Empty C A R) (f : R → Prog Empty C A R') (s : S) :
    finish serve (p >>= f) s = finish serve (f (finish serve p s).1) (finish serve p s).2 := by
  induction p generalizing s with
  | done r => rfl
  | raise e => exact e.elim
  | call c next ih => exact ih _ _

@[simp] theorem trace_bind (p : Prog Empty C A R) (f : R → Prog Empty C A R') (s : S) :
    trace serve (p >>= f) s =
      trace serve p s ++ trace serve (f (finish serve p s).1) (finish serve p s).2 := by
  induction p generalizing s with
  | done r => rfl
  | raise e => exact e.elim
  | call c next ih =>
    rw [call_bind, trace_call, ih]
    rfl

theorem Crashes.of_done {r : R} {s s' : S} {calls : List C}
    (h : Crashes serve torn (done r) s calls s') : calls = [] ∧ s' = s := by
  cases h
  exact ⟨rfl, rfl⟩

theorem Crashes.of_call {c : C} {next : A c → Prog Empty C A R} {s s' : S} {calls : List C}
    (h : Crashes serve torn (call c next) s calls s') :
    calls = [] ∧ (s' = s ∨ torn c s s') ∨
      ∃ later, calls = c :: later ∧
        Crashes serve torn (next (serve c s).1) (serve c s).2 later s' := by
  cases h with
  | before => exact .inl ⟨rfl, .inl rfl⟩
  | during h => exact .inl ⟨rfl, .inr h⟩
  | after h => exact .inr ⟨_, rfl, h⟩

theorem Crashes.of_ask {c : C} {s s' : S} {calls : List C}
    (h : Crashes serve torn (ask c) s calls s') :
    calls = [] ∧ (s' = s ∨ torn c s s') ∨ calls = [c] ∧ s' = (serve c s).2 := by
  rcases h.of_call with hin | ⟨later, rfl, hlater⟩
  · exact .inl hin
  · obtain ⟨rfl, rfl⟩ := hlater.of_done
    exact .inr ⟨rfl, rfl⟩

/-- One program after another dies in the first, or in the second once the first is through. -/
theorem Crashes.of_bind {p : Prog Empty C A R} {f : R → Prog Empty C A R'} {s s' : S}
    {calls : List C} (h : Crashes serve torn (p >>= f) s calls s') :
    Crashes serve torn p s calls s' ∨
      ∃ later, calls = trace serve p s ++ later ∧
        Crashes serve torn (f (finish serve p s).1) (finish serve p s).2 later s' := by
  induction p generalizing s calls with
  | done r => exact .inr ⟨calls, rfl, h⟩
  | raise e => exact e.elim
  | call c next ih =>
    rcases h.of_call with ⟨rfl, rfl | htorn⟩ | ⟨later, rfl, hlater⟩
    · exact .inl (.before _ _)
    · exact .inl (.during htorn)
    · rcases ih _ hlater with hfirst | ⟨rest, rfl, hsecond⟩
      · exact .inl (.after hfirst)
      · exact .inr ⟨rest, rfl, hsecond⟩

/-- A program whose calls only read leaves the store as it was, wherever it dies. -/
theorem Crashes.of_reads {Ok : C → Prop} {Post : Option ((c : C) × A c) → R → Prop}
    (hserve : ∀ c s, Ok c → (serve c s).2 = s) (htorn : ∀ c s s', Ok c → ¬ torn c s s')
    {p : Prog Empty C A R} {last : Option ((c : C) × A c)} (hp : Safe Ok Post last p) {s s' : S}
    {calls : List C} (h : Crashes serve torn p s calls s') : s' = s ∧ ∀ c ∈ calls, Ok c := by
  induction p generalizing last calls with
  | done r =>
    obtain ⟨rfl, rfl⟩ := h.of_done
    exact ⟨rfl, by simp⟩
  | raise e => exact e.elim
  | call c next ih =>
    obtain ⟨hc, hnext⟩ := hp
    rcases h.of_call with ⟨rfl, rfl | hcut⟩ | ⟨later, rfl, hlater⟩
    · exact ⟨rfl, by simp⟩
    · exact absurd hcut (htorn c s s' hc)
    · rw [hserve c s hc] at hlater
      obtain ⟨rfl, hcalls⟩ := ih _ (hnext _) hlater
      exact ⟨rfl, List.forall_mem_cons.mpr ⟨hc, hcalls⟩⟩

end Memclaw.Lib.Interleave.Prog
