import Mathlib.Data.Nat.Notation
import Memclaw.Lib.Interleave

/-! Programs that call a shared service. What a program has left to do is a tree of calls;
a call with its answer is one turn, and other programs move in between. -/

namespace Memclaw.Lib.Interleave

/-- A program that calls `C`, is answered by `A`, and returns or raises. -/
inductive Prog (E C : Type) (A : C → Type) (R : Type)
  | done (r : R)
  | raise (e : E)
  | call (c : C) (next : A c → Prog E C A R)

namespace Prog

variable {E C : Type} {A : C → Type} {R R' : Type}

protected def bind : Prog E C A R → (R → Prog E C A R') → Prog E C A R'
  | done r, f => f r
  | raise e, _ => raise e
  | call c next, f => call c fun a => (next a).bind f

instance : Monad (Prog E C A) where
  pure := done
  bind := Prog.bind

@[simp] theorem pure_eq (r : R) : (pure r : Prog E C A R) = done r := rfl

@[simp] theorem done_bind (r : R) (f : R → Prog E C A R') : done r >>= f = f r := rfl

@[simp] theorem raise_bind (e : E) (f : R → Prog E C A R') :
    (raise e : Prog E C A R) >>= f = raise e := rfl

@[simp] theorem call_bind (c : C) (next : A c → Prog E C A R) (f : R → Prog E C A R') :
    call c next >>= f = call c fun a => next a >>= f := rfl

def ask (c : C) : Prog E C A (A c) := call c done

def turn {B S : Type} (serve : B → (c : C) → S → A c × S) (b : B) :
    Prog E C A R → S → Prog E C A R × S
  | call c next, s => (next (serve b c s).1, (serve b c s).2)
  | p, s => (p, s)

def alone {B S : Type} (serve : B → (c : C) → S → A c × S) :
    (ℕ → B) → Prog E C A R → S → Except E R × S
  | _, done r, s => (.ok r, s)
  | _, raise e, s => (.error e, s)
  | bs, call c next, s =>
    alone serve (fun n => bs (n + 1)) (next (serve (bs 0) c s).1) (serve (bs 0) c s).2

inductive Ends : Prog E C A R → List ((c : C) × A c) → Except E R → Prop
  | done (r : R) : Ends (done r) [] (.ok r)
  | raise (e : E) : Ends (raise e) [] (.error e)
  | call {c : C} {next : A c → Prog E C A R} {log : List ((c : C) × A c)} {out : Except E R} (a : A c)
      (h : Ends (next a) log out) : Ends (call c next) (⟨c, a⟩ :: log) out

def log {B S : Type} (serve : B → (c : C) → S → A c × S) :
    (ℕ → B) → Prog E C A R → S → List ((c : C) × A c)
  | _, done _, _ => []
  | _, raise _, _ => []
  | bs, call c next, s =>
    ⟨c, (serve (bs 0) c s).1⟩ ::
      log serve (fun n => bs (n + 1)) (next (serve (bs 0) c s).1) (serve (bs 0) c s).2

theorem alone_bind {B S : Type} (serve : B → (c : C) → S → A c × S) (bs : ℕ → B) (p : Prog E C A R)
    (f : R → Prog E C A R') (s : S) :
    alone serve bs (p >>= f) s =
      match alone serve bs p s with
      | (.ok r, s') => alone serve (fun n => bs (n + (log serve bs p s).length)) (f r) s'
      | (.error e, s') => (.error e, s') := by
  induction p generalizing bs s with
  | done r => rfl
  | raise e => rfl
  | call c next ih =>
    rw [call_bind, alone, ih, alone, log, List.length_cons]
    simp only [Nat.add_assoc]

theorem exists_ends (answer : (c : C) → A c) (p : Prog E C A R) :
    ∃ (log : List ((c : C) × A c)) (out : Except E R), Ends p log out := by
  induction p with
  | done r => exact ⟨_, _, .done r⟩
  | raise e => exact ⟨_, _, .raise e⟩
  | call c next ih =>
    obtain ⟨log, out, h⟩ := ih (answer c)
    exact ⟨_, _, .call _ h⟩

theorem Ends.of_done {r : R} {log : List ((c : C) × A c)} {out : Except E R}
    (h : Ends (Prog.done r) log out) : log = [] ∧ out = .ok r := by
  cases h
  exact ⟨rfl, rfl⟩

theorem Ends.of_call {c : C} {next : A c → Prog E C A R} {log : List ((c : C) × A c)}
    {out : Except E R} (h : Ends (Prog.call c next) log out) :
    ∃ a later, log = ⟨c, a⟩ :: later ∧ Ends (next a) later out := by
  cases h with
  | call a h => exact ⟨a, _, rfl, h⟩

/-- One program after another: the first raises, or the second goes on with what it returned. -/
theorem Ends.of_bind {p : Prog E C A R} {f : R → Prog E C A R'} {log : List ((c : C) × A c)}
    {out : Except E R'} (h : Ends (p >>= f) log out) :
    (∃ e, Ends p log (.error e) ∧ out = .error e) ∨
      ∃ before r after, log = before ++ after ∧ Ends p before (.ok r) ∧ Ends (f r) after out := by
  induction p generalizing log with
  | done r => exact .inr ⟨[], r, log, rfl, .done r, h⟩
  | raise e =>
    cases h
    exact .inl ⟨e, .raise e, rfl⟩
  | call c next ih =>
    obtain ⟨a, later, rfl, hlater⟩ := h.of_call
    rcases ih a hlater with ⟨e, hraise, rfl⟩ | ⟨before, r, after, rfl, hfirst, hsecond⟩
    · exact .inl ⟨e, .call a hraise, rfl⟩
    · exact .inr ⟨_, r, after, rfl, .call a hfirst, hsecond⟩

/-- Every call that the program can come to is allowed, and what it returns fits its last
call. -/
def Safe (Ok : C → Prop) (Post : Option ((c : C) × A c) → R → Prop) :
    Option ((c : C) × A c) → Prog E C A R → Prop
  | last, done r => Post last r
  | _, raise _ => True
  | _, call c next => Ok c ∧ ∀ a, Safe Ok Post (some ⟨c, a⟩) (next a)

variable {Ok : C → Prop}

theorem Safe.bind {Post : Option ((c : C) × A c) → R' → Prop} {p : Prog E C A R}
    {f : R → Prog E C A R'} {last : Option ((c : C) × A c)}
    (h : Safe Ok (fun last r => Safe Ok Post last (f r)) last p) :
    Safe Ok Post last (p >>= f) := by
  induction p generalizing last with
  | done r => exact h
  | raise e => trivial
  | call c next ih => exact ⟨h.1, fun a => ih a (h.2 a)⟩

theorem Safe.mono {Post Post' : Option ((c : C) × A c) → R → Prop} {p : Prog E C A R}
    {last : Option ((c : C) × A c)} (h : Safe Ok Post last p)
    (himp : ∀ last r, Post last r → Post' last r) : Safe Ok Post' last p := by
  induction p generalizing last with
  | done r => exact himp last r h
  | raise e => trivial
  | call c next ih => exact ⟨h.1, fun a => ih a (h.2 a)⟩

theorem Safe.imp {Ok Ok' : C → Prop} {Post : Option ((c : C) × A c) → R → Prop} {p : Prog E C A R}
    {last : Option ((c : C) × A c)} (h : Safe Ok Post last p) (himp : ∀ c, Ok c → Ok' c) :
    Safe Ok' Post last p := by
  induction p generalizing last with
  | done r => exact h
  | raise e => trivial
  | call c next ih => exact ⟨himp c h.1, fun a => ih a (h.2 a)⟩

/-- A program followed by another that is safe whatever was called last. -/
theorem Safe.andThen {Post : Option ((c : C) × A c) → R' → Prop} {p : Prog E C A R}
    {f : R → Prog E C A R'} {last : Option ((c : C) × A c)} (h : Safe Ok (fun _ _ => True) last p)
    (hf : ∀ last r, Safe Ok Post last (f r)) : Safe Ok Post last (p >>= f) :=
  Safe.bind (h.mono fun last r _ => hf last r)

section Informed

variable {K : Type} (learn : (c : C) → A c → List K) (Ok : List K → C → Prop)

/-- Every call that the program can come to is allowed by what it has learned until then from
the answers to its calls, and what it returns fits what it has learned in the end. -/
def Informed (Post : List K → R → Prop) : List K → Prog E C A R → Prop
  | known, done r => Post known r
  | _, raise _ => True
  | known, call c next => Ok known c ∧ ∀ a, Informed Post (known ++ learn c a) (next a)

variable {learn Ok}

theorem Informed.bind {Post : List K → R' → Prop} {p : Prog E C A R} {f : R → Prog E C A R'}
    {known : List K} (h : Informed learn Ok (fun known r => Informed learn Ok Post known (f r)) known p) :
    Informed learn Ok Post known (p >>= f) := by
  induction p generalizing known with
  | done r => exact h
  | raise e => trivial
  | call c next ih => exact ⟨h.1, fun a => ih a (h.2 a)⟩

theorem Informed.mono {Post Post' : List K → R → Prop} {p : Prog E C A R} {known : List K}
    (h : Informed learn Ok Post known p) (himp : ∀ known r, Post known r → Post' known r) :
    Informed learn Ok Post' known p := by
  induction p generalizing known with
  | done r => exact himp known r h
  | raise e => trivial
  | call c next ih => exact ⟨h.1, fun a => ih a (h.2 a)⟩

/-- A program followed by another that is allowed whatever has been learned. -/
theorem Informed.andThen {Post : List K → R' → Prop} {p : Prog E C A R} {f : R → Prog E C A R'}
    {known : List K} (h : Informed learn Ok (fun _ _ => True) known p)
    (hf : ∀ known r, Informed learn Ok Post known (f r)) : Informed learn Ok Post known (p >>= f) :=
  Informed.bind (h.mono fun known r _ => hf known r)

/-- A program whose calls are allowed whatever has been learned. -/
theorem Informed.of_safe {Ok' : C → Prop} {p : Prog E C A R} (last : Option ((c : C) × A c))
    {known : List K} (h : Safe Ok' (fun _ _ => True) last p)
    (himp : ∀ known c, Ok' c → Ok known c) : Informed learn Ok (fun _ _ => True) known p := by
  induction p generalizing last known with
  | done r => trivial
  | raise e => trivial
  | call c next ih => exact ⟨himp known c h.1, fun a => ih a _ (h.2 a)⟩

end Informed

def Next (P : C → Prop) : Prog E C A R → Prop
  | call c _ => P c
  | _ => True

instance Next.decidable (P : C → Prop) [∀ c, Decidable (P c)] :
    ∀ p : Prog E C A R, Decidable (p.Next P)
  | call c _ => inferInstanceAs (Decidable (P c))
  | done _ => .isTrue trivial
  | raise _ => .isTrue trivial

/-- What a pool asserts of a program: it is safe, and what it returned still counts. -/
def Runs {S : Type} (Ok : C → Prop) (Post : Option ((c : C) × A c) → R → Prop)
    (Kept : R → S → Prop) (p : Prog E C A R) (s : S) : Prop :=
  (∃ last, Safe Ok Post last p) ∧ ∀ r, p = done r → Kept r s

/-- What a service owes to the programs of a pool, while its calls are allowed and meet
their condition: it keeps its invariant, the last call of a program makes its result count,
and a result that counts goes on to count. -/
structure Rules {B S ι : Type} (serve : B → (c : C) → S → A c × S) (I : S → Prop)
    (Cond : B → C → S → Prop) (Ok : C → Prop) (Post : ι → Option ((c : C) × A c) → R → Prop)
    (Kept : ι → R → S → Prop) : Prop where
  keeps : ∀ {b c s}, I s → Ok c → Cond b c s → I (serve b c s).2
  settles : ∀ {i b c s r}, I s → Ok c → Cond b c s → Post i (some ⟨c, (serve b c s).1⟩) r →
    Kept i r (serve b c s).2
  stays : ∀ {i b c s r}, I s → Ok c → Cond b c s → Kept i r s → Kept i r (serve b c s).2

section Pools

variable {B S ι : Type} {serve : B → (c : C) → S → A c × S} {I : S → Prop}
  {Cond : B → C → S → Prop} {Post : ι → Option ((c : C) × A c) → R → Prop}
  {Kept : ι → R → S → Prop}

def Permitted (Cond : B → C → S → Prop) (pool : Pool ι S (Prog E C A R)) (event : ι × B) : Prop :=
  (pool.parties event.1).Next fun c => Cond event.2 c pool.shared

instance Permitted.decidable (Cond : B → C → S → Prop) [∀ b c s, Decidable (Cond b c s)]
    (pool : Pool ι S (Prog E C A R)) (event : ι × B) : Decidable (Permitted Cond pool event) :=
  Next.decidable (fun c => Cond event.2 c pool.shared) (pool.parties event.1)

theorem Rules.step [DecidableEq ι] (rules : Rules serve I Cond Ok Post Kept) {pool : Pool ι S (Prog E C A R)}
    (h : pool.Holds I (fun i => Runs Ok (Post i) (Kept i)) fun _ _ => True) {event : ι × B}
    (hcond : Permitted Cond pool event) :
    (pool.step (turn serve) event).Holds I (fun i => Runs Ok (Post i) (Kept i))
      fun _ _ => True := by
  obtain ⟨⟨last, hsafe⟩, hkept⟩ := h.own event.1
  cases hp : pool.parties event.1 with
  | done r =>
    -- a program that has ended takes empty turns
    refine h.step event (.done r, pool.shared) (by rw [hp]; rfl) h.shared ?_ ?_ ?_
    · exact ⟨⟨last, hp ▸ hsafe⟩, hp ▸ hkept⟩
    · exact fun j _ => h.own j
    · exact fun _ _ => ⟨trivial, trivial⟩
  | raise e =>
    refine h.step event (.raise e, pool.shared) (by rw [hp]; rfl) h.shared ?_ ?_ ?_
    · exact ⟨⟨last, trivial⟩, fun r hr => nomatch hr⟩
    · exact fun j _ => h.own j
    · exact fun _ _ => ⟨trivial, trivial⟩
  | call c next =>
    rw [hp] at hsafe
    rw [Permitted, hp] at hcond
    have hok : Ok c := hsafe.1
    have hcond : Cond event.2 c pool.shared := hcond
    refine h.step event (next (serve event.2 c pool.shared).1, (serve event.2 c pool.shared).2)
      (by rw [hp]; rfl) (rules.keeps h.shared hok hcond) ?_ ?_ ?_
    · -- the mover goes on with the answer, or ends with it
      have hnext := hsafe.2 (serve event.2 c pool.shared).1
      refine ⟨⟨_, hnext⟩, fun r hr => ?_⟩
      have hdone : next (serve event.2 c pool.shared).1 = .done r := hr
      rw [hdone] at hnext
      exact rules.settles h.shared hok hcond hnext
    · intro j _
      obtain ⟨hrun, hresult⟩ := h.own j
      exact ⟨hrun, fun r hr => rules.stays h.shared hok hcond (hresult r hr)⟩
    · exact fun _ _ => ⟨trivial, trivial⟩

theorem Rules.run [DecidableEq ι] (rules : Rules serve I Cond Ok Post Kept)
    {pool : Pool ι S (Prog E C A R)} {events : List (ι × B)}
    (h : pool.Holds I (fun i => Runs Ok (Post i) (Kept i)) fun _ _ => True)
    (hcond : Along (Pool.step (turn serve)) (Permitted Cond) pool events) :
    (run (Pool.step (turn serve)) pool events).Holds I (fun i => Runs Ok (Post i) (Kept i))
      fun _ _ => True := by
  have hstep : ∀ (p : Pool ι S (Prog E C A R)) (e : ι × B),
      p.Holds I (fun i => Runs Ok (Post i) (Kept i)) (fun _ _ => True) → Permitted Cond p e →
      (p.step (turn serve) e).Holds I (fun i => Runs Ok (Post i) (Kept i)) fun _ _ => True :=
    fun _ _ hp he => rules.step hp he
  exact hcond.invariant hstep h

/-- What a program of a pool learns in a run, in the order of its calls. -/
def learned [DecidableEq ι] {K : Type} (learn : (c : C) → A c → List K)
    (serve : B → (c : C) → S → A c × S) (i : ι) :
    Pool ι S (Prog E C A R) → List (ι × B) → List K
  | _, [] => []
  | pool, event :: events =>
    let later := learned learn serve i (pool.step (turn serve) event) events
    if event.1 = i then
      match pool.parties i with
      | call c _ => learn c (serve event.2 c pool.shared).1 ++ later
      | _ => later
    else later

theorem Informed.run [DecidableEq ι] {K : Type} {learn : (c : C) → A c → List K}
    {Known : List K → C → Prop} {After : List K → R → Prop} {i : ι} {known : List K}
    {pool : Pool ι S (Prog E C A R)} (h : Informed learn Known After known (pool.parties i))
    (events : List (ι × B)) :
    Informed learn Known After (known ++ learned learn serve i pool events)
      ((run (Pool.step (turn serve)) pool events).parties i) := by
  induction events generalizing known pool with
  | nil =>
    rw [learned, List.append_nil]
    exact h
  | cons event events ih =>
    obtain ⟨j, b⟩ := event
    rw [run_cons, learned]
    by_cases hj : j = i
    · subst hj
      have hnext := pool.step_self (turn serve) j b
      rw [if_pos rfl]
      cases hp : pool.parties j with
      | done r =>
        rw [hp] at h hnext
        exact ih (hnext ▸ h)
      | raise e =>
        rw [hp] at h hnext
        exact ih (hnext ▸ h)
      | call c next =>
        rw [hp] at h hnext
        dsimp only
        rw [← List.append_assoc]
        exact ih (hnext ▸ h.2 (serve b c pool.shared).1)
    · rw [if_neg hj]
      apply ih
      rw [pool.step_of_ne (turn serve) (Ne.symm hj)]
      exact h

theorem holds_start {parties : ι → Prog E C A R} {s : S} (hI : I s)
    (hsafe : ∀ i, Safe Ok (Post i) none (parties i))
    (hnone : ∀ i r, Post i none r → Kept i r s) :
    Pool.Holds I (fun i => Runs Ok (Post i) (Kept i)) (fun _ _ => True)
      (⟨s, parties⟩ : Pool ι S (Prog E C A R)) := by
  refine ⟨hI, fun i => ⟨⟨none, hsafe i⟩, fun r hr => ?_⟩, fun _ _ _ => trivial⟩
  have hpost := hsafe i
  rw [show parties i = .done r from hr] at hpost
  exact hnone i r hpost

end Pools

end Prog

end Memclaw.Lib.Interleave
