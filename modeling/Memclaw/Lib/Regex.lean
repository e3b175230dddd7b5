import Memclaw.Lib.RegexDefs

/-! Matching stays inside the text, where a search finds nothing, and that a pattern which takes a
character finds nothing in the empty text. -/

namespace Memclaw.Lib

structure Cursor.Within (n : ℕ) (c : Cursor) : Prop where
  length : c.before.length + c.rest.length = n
  groups : ∀ g ∈ c.groups, g.2.2 ≤ n

theorem Cursor.Within.pos_le {n : ℕ} {c : Cursor} (h : c.Within n) : c.pos ≤ n := by
  have hlen := h.length
  rw [Cursor.pos]
  omega

namespace Regex

variable {chars : RegexChars} {P : Cursor → Prop} {step : Cursor → List Cursor}

theorem times_keeps (hstep : ∀ c, P c → ∀ d ∈ step c, P d) (n : ℕ) :
    ∀ c, P c → ∀ d ∈ times step n c, P d := by
  induction n with
  | zero =>
    intro c hc d hd
    rw [times, List.mem_singleton] at hd
    exact hd ▸ hc
  | succ n ih =>
    intro c hc d hd
    obtain ⟨e, he, hde⟩ := List.mem_flatMap.mp hd
    exact ih e (hstep c hc e he) d hde

theorem upTo_keeps (hstep : ∀ c, P c → ∀ d ∈ step c, P d) (n : ℕ) :
    ∀ c, P c → ∀ d ∈ upTo step n c, P d := by
  induction n with
  | zero =>
    intro c hc d hd
    rw [upTo, List.mem_singleton] at hd
    exact hd ▸ hc
  | succ n ih =>
    intro c hc d hd
    rcases List.mem_append.mp hd with hd | hd
    · obtain ⟨e, he, hde⟩ := List.mem_flatMap.mp hd
      exact ih e (hstep c hc e (List.mem_filter.mp he).1) d hde
    · rw [List.mem_singleton] at hd
      exact hd ▸ hc

theorem keeps_of_test {b : Bool} {c d : Cursor} (hc : P c) (hd : d ∈ if b then [c] else []) : P d := by
  cases b with
  | false => simp at hd
  | true =>
    rw [if_pos rfl, List.mem_singleton] at hd
    exact hd ▸ hc

/-- What a step over one character and the end of a group keep, a match keeps. -/
theorem run_keeps
    (hset : ∀ c x rest, c.rest = x :: rest → P c → P { c with before := x :: c.before, rest := rest })
    (hgroup : ∀ (c d : Cursor) (k : ℕ), P c → P d →
      P { d with groups := (k, c.pos, d.pos) :: d.groups }) (r : Regex) :
    ∀ c : Cursor, P c → ∀ d ∈ run chars r c, P d := by
  induction r with
  | empty =>
    intro c hc d hd
    rw [run, List.mem_singleton] at hd
    exact hd ▸ hc
  | set s =>
    intro c hc d hd
    simp only [run] at hd
    split at hd
    · rename_i x rest hrest
      split at hd
      · rw [List.mem_singleton] at hd
        subst hd
        exact hset c x rest hrest hc
      · simp at hd
    · simp at hd
  | seq a b iha ihb =>
    intro c hc d hd
    obtain ⟨e, he, hde⟩ := List.mem_flatMap.mp hd
    exact ihb e (iha c hc e he) d hde
  | alt a b iha ihb =>
    intro c hc d hd
    rcases List.mem_append.mp hd with hd | hd
    · exact iha c hc d hd
    · exact ihb c hc d hd
  | rep min max r ih =>
    intro c hc d hd
    obtain ⟨e, he, hde⟩ := List.mem_flatMap.mp hd
    exact upTo_keeps ih _ e (times_keeps ih _ c hc e he) d hde
  | group k r ih =>
    intro c hc d hd
    obtain ⟨e, he, rfl⟩ := List.mem_map.mp hd
    exact hgroup c e k hc (ih c hc e he)
  | notAhead r _ => exact fun c hc d hd => keeps_of_test hc hd
  | notBehind s =>
    intro c hc d hd
    simp only [run] at hd
    split at hd
    · simp at hd
    · rw [List.mem_singleton] at hd
      exact hd ▸ hc
  | wordBoundary => exact fun c hc d hd => keeps_of_test hc hd
  | lineStart multiline => exact fun c hc d hd => keeps_of_test hc hd
  | lineEnd multiline => exact fun c hc d hd => keeps_of_test hc hd

theorem run_within (n : ℕ) (r : Regex) :
    ∀ c : Cursor, c.Within n → ∀ d ∈ run chars r c, d.Within n := by
  refine run_keeps ?_ ?_ r
  · intro c x rest hrest hc
    have hlen := hc.length
    rw [hrest, List.length_cons] at hlen
    exact ⟨by simp only [List.length_cons]; omega, hc.groups⟩
  · intro c d k _ hd
    refine ⟨hd.length, ?_⟩
    intro g hg
    rcases List.mem_cons.mp hg with rfl | hg
    · exact hd.pos_le
    · exact hd.groups g hg

def consumes : Regex → Bool
  | .set _ => true
  | .seq a b => a.consumes || b.consumes
  | .alt a b => a.consumes && b.consumes
  | .rep min _ r => min ≠ 0 && r.consumes
  | .group _ r => r.consumes
  | .empty => false
  | .notAhead _ => false
  | .notBehind _ => false
  | .wordBoundary => false
  | .lineStart _ => false
  | .lineEnd _ => false

theorem run_rest_nil {r : Regex} {c d : Cursor} (hc : c.rest = []) (hd : d ∈ run chars r c) :
    d.rest = [] := by
  refine run_keeps (P := fun c => c.rest = []) ?_ (fun _ _ _ _ h => h) r c hc d hd
  intro c x rest hrest hnil
  rw [hnil] at hrest
  cases hrest

theorem run_of_consumes {r : Regex} (h : r.consumes = true) :
    ∀ c : Cursor, c.rest = [] → run chars r c = [] := by
  -- At the end of the text there is no character to take.
  induction r with
  | set s =>
    intro c hc
    simp only [run]
    rw [hc]
  | seq a b iha ihb =>
    intro c hc
    rw [consumes, Bool.or_eq_true] at h
    rw [run, List.flatMap_eq_nil_iff]
    intro d hd
    rcases h with h | h
    · rw [iha h c hc] at hd
      cases hd
    · exact ihb h d (run_rest_nil hc hd)
  | alt a b iha ihb =>
    intro c hc
    rw [consumes, Bool.and_eq_true] at h
    simp only [run, iha h.1 c hc, ihb h.2 c hc, List.append_nil]
  | rep min max r ih =>
    intro c hc
    rw [consumes, Bool.and_eq_true, decide_eq_true_iff] at h
    obtain ⟨n, rfl⟩ := Nat.exists_eq_succ_of_ne_zero h.1
    simp only [run, times, ih h.2 c hc, List.flatMap_nil]
  | group k r ih =>
    intro c hc
    simp only [run, ih h c hc, List.map_nil]
  | _ => cases h

theorem matchesAt_eq_nil {r : Regex} {c : Cursor} : matchesAt chars r c = [] ↔ run chars r c = [] := by
  unfold matchesAt
  dsimp only
  split
  · rename_i h
    exact iff_of_true rfl h
  · rename_i d ds h
    rw [h]
    refine iff_of_false (fun hnil => ?_) (List.cons_ne_nil _ _)
    split_ifs at hnil

theorem finditerFrom_eq_nil {r : Regex} (before rest : List Char) :
    finditerFrom chars r 0 before rest = [] ↔
      ∀ front back, rest = front ++ back → run chars r ⟨front.reverse ++ before, back, []⟩ = [] := by
  induction rest generalizing before with
  | nil =>
    rw [finditerFrom, if_neg (Nat.not_lt_zero _), matchesAt_eq_nil]
    constructor
    · intro h front back hnil
      obtain ⟨rfl, rfl⟩ := List.append_eq_nil_iff.mp hnil.symm
      exact h
    · exact fun h => h [] [] rfl
  | cons x rest ih =>
    rw [finditerFrom, if_neg (Nat.not_lt_zero _), List.append_eq_nil_iff, matchesAt_eq_nil]
    constructor
    · rintro ⟨hhere, hlater⟩ front back hsplit
      rw [matchesAt_eq_nil.mpr hhere, List.getLast?_nil, Option.map_none, Option.getD_none, ih] at hlater
      cases front with
      | nil =>
        rw [List.nil_append] at hsplit
        rw [← hsplit]
        exact hhere
      | cons y front =>
        obtain ⟨rfl, hrest⟩ := List.cons.inj hsplit
        have hrun := hlater front back hrest
        rw [List.reverse_cons, List.append_assoc]
        exact hrun
    · intro h
      have hhere := h [] (x :: rest) rfl
      refine ⟨hhere, ?_⟩
      rw [List.reverse_nil, List.nil_append] at hhere
      rw [matchesAt_eq_nil.mpr hhere, List.getLast?_nil, Option.map_none, Option.getD_none, ih]
      intro front back hsplit
      have hrun := h (x :: front) back (congrArg (List.cons x) hsplit)
      rw [List.reverse_cons, List.append_assoc] at hrun
      exact hrun

def Match.Within (n : ℕ) (m : Match) : Prop := m.stop ≤ n ∧ ∀ g ∈ m.groups, g.2.2 ≤ n

theorem matchesAt_within {n : ℕ} {r : Regex} {c : Cursor} (hc : c.Within n) :
    ∀ m ∈ matchesAt chars r c, m.Within n := by
  have hfound : ∀ d ∈ run chars r c, (⟨c.pos, d.pos, d.groups⟩ : Match).Within n := by
    intro d hd
    have hin := run_within n r c hc d hd
    exact ⟨hin.pos_le, hin.groups⟩
  intro m hm
  rw [matchesAt] at hm
  split at hm
  · simp at hm
  · rename_i d ds hrun
    rw [hrun] at hfound
    split at hm
    · rw [List.mem_singleton] at hm
      exact hm ▸ hfound d (by simp)
    · rcases List.mem_cons.mp hm with hm | hm
      · exact hm ▸ hfound d (by simp)
      · rw [Option.mem_toList, Option.map_eq_some_iff] at hm
        obtain ⟨e, he, rfl⟩ := hm
        exact hfound e (List.mem_cons_of_mem _ (List.mem_of_find?_eq_some he))

theorem finditerFrom_within {n : ℕ} {r : Regex} (resume : ℕ) (before rest : List Char)
    (hlen : before.length + rest.length = n) :
    ∀ m ∈ finditerFrom chars r resume before rest, m.Within n := by
  induction rest generalizing resume before with
  | nil =>
    intro m hm
    rw [finditerFrom] at hm
    split at hm
    · simp at hm
    · exact matchesAt_within ⟨hlen, by simp⟩ m hm
  | cons x rest ih =>
    intro m hm
    rw [finditerFrom] at hm
    rcases List.mem_append.mp hm with hm | hm
    · split at hm
      · simp at hm
      · exact matchesAt_within ⟨hlen, by simp⟩ m hm
    · refine ih _ _ ?_ m hm
      simp only [List.length_cons] at hlen ⊢
      omega

theorem finditer_span_le {r : Regex} {text : List Char} {m : Match} {group start stop : ℕ}
    (hm : m ∈ finditer chars r text) (hspan : m.span group = some (start, stop)) :
    stop ≤ text.length := by
  obtain ⟨hstop, hgroups⟩ := finditerFrom_within 0 [] text (Nat.zero_add _) m hm
  rw [Match.span] at hspan
  split at hspan
  · cases hspan
    exact hstop
  · obtain ⟨g, hg, heq⟩ := Option.map_eq_some_iff.mp hspan
    have hle := hgroups g (List.mem_of_find?_eq_some hg)
    rwa [heq] at hle

end Regex

namespace Pattern

variable {chars : RegexChars} {p : Pattern} {r : Regex}

theorem search_eq_none (hregex : p.regex = some r) (text : List Char) :
    p.search chars text = none ↔
      ∀ front back, text = front ++ back → r.run chars ⟨front.reverse, back, []⟩ = [] := by
  rw [search, hregex, Option.bind_some, List.head?_eq_none_iff, Regex.finditer,
    Regex.finditerFrom_eq_nil]
  simp only [List.append_nil]

theorem search_nil (h : p.regex.any Regex.consumes = true) : p.search chars [] = none := by
  obtain ⟨r, hregex, hconsumes⟩ := (Option.any_eq_true _ _).mp h
  rw [search_eq_none hregex]
  intro front back hnil
  obtain ⟨rfl, rfl⟩ := List.append_eq_nil_iff.mp hnil.symm
  exact Regex.run_of_consumes hconsumes _ rfl

end Pattern

end Memclaw.Lib
