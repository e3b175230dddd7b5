/-! Computations that raise: what a sequence of them did before it ended, when a map over a list of
them has results, and what a program on a store leaves whether it returns or rejects. -/

namespace Memclaw.Lib

variable {ε α β : Type}

theorem bind_of_ok {first : Except ε α} {a : α} (h : first = .ok a) (rest : α → Except ε β) :
    (first >>= rest) = rest a := by
  rw [h]
  rfl

theorem ok_of_bind {first : Except ε α} {rest : α → Except ε β} {b : β}
    (h : (first >>= rest) = .ok b) : ∃ a, first = .ok a ∧ rest a = .ok b :=
  match first, h with
  | .ok a, hrest => ⟨a, rfl, hrest⟩

theorem error_of_bind {first : Except ε α} {rest : α → Except ε β} {e : ε}
    (h : (first >>= rest) = .error e) :
    first = .error e ∨ ∃ a, first = .ok a ∧ rest a = .error e := by
  cases first with
  | ok a => exact .inr ⟨a, rfl, h⟩
  | error raised => exact .inl (congrArg Except.error (Except.error.inj h))

theorem of_test_ok {c : Prop} [Decidable c] {e : ε}
    (h : (if c then .ok () else .error e : Except ε Unit) = .ok ()) : c := by
  by_cases hc : c
  · exact hc
  · rw [if_neg hc] at h
    exact absurd h (by simp)

theorem error_of_test {c : Prop} [Decidable c] {a : α} {e raised : ε}
    (h : (if c then .ok a else .error e : Except ε α) = .error raised) : e = raised := by
  by_cases hc : c
  · rw [if_pos hc] at h
    exact absurd h (by simp)
  · rw [if_neg hc] at h
    exact Except.error.inj h

theorem isSome_mapM_iff {f : α → Option β} {l : List α} :
    (l.mapM f).isSome = true ↔ ∀ a ∈ l, (f a).isSome = true := by
  induction l with
  | nil => exact ⟨fun _ a ha => absurd ha List.not_mem_nil, fun _ => rfl⟩
  | cons a l ih =>
    rw [List.forall_mem_cons, ← ih, List.mapM_cons]
    cases f a with
    | none => exact ⟨fun h => Bool.noConfusion h, fun h => Bool.noConfusion h.1⟩
    | some b =>
      cases l.mapM f with
      | none => exact ⟨fun h => Bool.noConfusion h, fun h => Bool.noConfusion h.2⟩
      | some bs => exact ⟨fun _ => ⟨rfl, rfl⟩, fun _ => rfl⟩

theorem map_of_mapM {κ : Type} {f : α → Option β} {key : β → κ} {g : α → κ}
    (h : ∀ a b, f a = some b → key b = g a) {l : List α} {bs : List β}
    (hbs : l.mapM f = some bs) : bs.map key = l.map g := by
  induction l generalizing bs with
  | nil =>
    cases hbs
    rfl
  | cons a l ih =>
    rw [List.mapM_cons] at hbs
    obtain ⟨b, hb, hbs⟩ := Option.bind_eq_some_iff.mp hbs
    obtain ⟨rest, hrest, heq⟩ := Option.bind_eq_some_iff.mp hbs
    cases heq
    rw [List.map_cons, List.map_cons, h a b hb, ih hrest]

end Memclaw.Lib

namespace Memclaw.Lib.Rejecting

variable {ε σ α β : Type}

abbrev Program (ε σ α : Type) := ExceptT ε (StateM σ) α

def outcome (x : Program ε σ α) (s : σ) : Except ε α × σ := StateT.run (ExceptT.run x) s

theorem outcome_bind_ok {x : Program ε σ α} {s s' : σ} {a : α} (h : outcome x s = (.ok a, s'))
    (f : α → Program ε σ β) : outcome (x >>= f) s = outcome (f a) s' := by
  have hrun : x s = (Except.ok a, s') := h
  show StateT.bind x (ExceptT.bindCont f) s = _
  unfold StateT.bind
  rw [hrun]
  rfl

theorem outcome_bind_error {x : Program ε σ α} {s s' : σ} {e : ε}
    (h : outcome x s = (.error e, s')) (f : α → Program ε σ β) :
    outcome (x >>= f) s = (.error e, s') := by
  have hrun : x s = (Except.error e, s') := h
  show StateT.bind x (ExceptT.bindCont f) s = _
  unfold StateT.bind
  rw [hrun]
  rfl

theorem outcome_tryCatch_ok {x : Program ε σ α} {s s' : σ} {a : α}
    (h : outcome x s = (.ok a, s')) (f : ε → Program ε σ α) :
    outcome (tryCatch x f) s = (.ok a, s') := by
  have hrun : x s = (Except.ok a, s') := h
  simp only [outcome, tryCatch, tryCatchThe, MonadExceptOf.tryCatch, ExceptT.tryCatch, ExceptT.run,
    ExceptT.mk, StateT.run, bind, StateT.bind, hrun]
  rfl

theorem outcome_tryCatch_error {x : Program ε σ α} {s s' : σ} {e : ε}
    (h : outcome x s = (.error e, s')) (f : ε → Program ε σ α) :
    outcome (tryCatch x f) s = outcome (f e) s' := by
  have hrun : x s = (Except.error e, s') := h
  simp only [outcome, tryCatch, tryCatchThe, MonadExceptOf.tryCatch, ExceptT.tryCatch, ExceptT.run,
    ExceptT.mk, StateT.run, bind, StateT.bind, hrun]

def Ended (Q : α → σ → Prop) (E : ε → σ → Prop) : Except ε α × σ → Prop
  | (.ok a, s) => Q a s
  | (.error e, s) => E e s

theorem Ended.imp {Q Q' : α → σ → Prop} {E E' : ε → σ → Prop} {out : Except ε α × σ}
    (h : Ended Q E out) (hok : ∀ a s, Q a s → Q' a s) (herror : ∀ e s, E e s → E' e s) :
    Ended Q' E' out := by
  obtain ⟨result, s⟩ := out
  cases result with
  | ok a => exact hok a s h
  | error e => exact herror e s h

def Meets (P : σ → Prop) (x : Program ε σ α) (Q : α → σ → Prop) (E : ε → σ → Prop) : Prop :=
  ∀ s, P s → Ended Q E (outcome x s)

section Rules

variable {P P' : σ → Prop} {x : Program ε σ α} {Q Q' : α → σ → Prop} {E E' : ε → σ → Prop}

theorem Meets.imp (h : Meets P x Q E) (hpre : ∀ s, P' s → P s) (hok : ∀ a s, Q a s → Q' a s)
    (herror : ∀ e s, E e s → E' e s) : Meets P' x Q' E' :=
  fun s hs => (h s (hpre s hs)).imp hok herror

theorem meets_pure {a : α} (h : ∀ s, P s → Q a s) : Meets P (pure a : Program ε σ α) Q E :=
  fun s hs => h s hs

theorem meets_throw {e : ε} (h : ∀ s, P s → E e s) : Meets P (throw e : Program ε σ α) Q E :=
  fun s hs => h s hs

theorem meets_get {Q : σ → σ → Prop} (h : ∀ s, P s → Q s s) :
    Meets P (get : Program ε σ σ) Q E := fun s hs => h s hs

theorem meets_modify {f : σ → σ} {Q : PUnit → σ → Prop} (h : ∀ s, P s → Q ⟨⟩ (f s)) :
    Meets P (modify f : Program ε σ PUnit) Q E := fun s hs => h s hs

theorem Meets.bind {f : α → Program ε σ β} {R : α → σ → Prop} {Q : β → σ → Prop}
    (h : Meets P x R E) (hf : ∀ a, Meets (R a) (f a) Q E) : Meets P (x >>= f) Q E := by
  intro s hs
  have hx := h s hs
  rcases hout : outcome x s with ⟨result, s'⟩
  rw [hout] at hx
  cases result with
  | ok a =>
    rw [outcome_bind_ok hout]
    exact hf a s' hx
  | error e =>
    rw [outcome_bind_error hout]
    exact hx

theorem Meets.tryCatch {f : ε → Program ε σ α} {R : ε → σ → Prop} (h : Meets P x Q R)
    (hf : ∀ e, Meets (R e) (f e) Q E) : Meets P (tryCatch x f) Q E := by
  intro s hs
  have hx := h s hs
  rcases hout : outcome x s with ⟨result, s'⟩
  rw [hout] at hx
  cases result with
  | ok a =>
    rw [outcome_tryCatch_ok hout]
    exact hx
  | error e =>
    rw [outcome_tryCatch_error hout]
    exact hf e s' hx

end Rules

end Memclaw.Lib.Rejecting
