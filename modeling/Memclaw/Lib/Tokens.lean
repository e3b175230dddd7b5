import Mathlib.Data.List.Infix
import Mathlib.Data.List.TakeWhile

/-! Tokens of a text, as markers are: each starts with a character that it does not hold again and
ends with a word. Where the first one stands in a text that is put together from parts. -/

namespace Memclaw.Lib.Tokens

variable {α β γ : Type}

section Search

def search (m : List α → Option (β × List α)) : List α → Option (List α × β × List α)
  | [] => none
  | a :: s =>
    match m (a :: s) with
    | some x => some ([], x)
    | none => (search m s).map fun x => (a :: x.1, x.2)

def block (m : List α → Option (β × List α)) (m' : List α → Option (γ × List α)) (s : List α) :
    Option ((β × γ) × List α) :=
  (m s).bind fun x => (search m' x.2).map fun y => ((x.1, y.2.1), y.2.2)

variable {m : List α → Option (β × List α)} {s t front : List α}

theorem search_of_match (hne : s ≠ []) {x : β × List α} (h : m s = some x) : search m s = some ([], x) := by
  obtain ⟨a, s, rfl⟩ := List.exists_cons_of_ne_nil hne
  rw [search, h]

theorem search_cons_of_none {a : α} (h : m (a :: s) = none) :
    search m (a :: s) = (search m s).map fun x => (a :: x.1, x.2) := by
  rw [search, h]

theorem search_skip (h : ∀ u ≠ [], u <:+ front → m (u ++ t) = none) :
    search m (front ++ t) = (search m t).map fun x => (front ++ x.1, x.2) := by
  induction front with
  | nil =>
    rw [List.nil_append]
    cases search m t with
    | none => rfl
    | some x => rfl
  | cons a front ih =>
    have hhere : m (a :: (front ++ t)) = none :=
      h (a :: front) (List.cons_ne_nil a front) List.suffix_rfl
    rw [List.cons_append, search_cons_of_none hhere,
      ih fun u hu hsuffix => h u hu (hsuffix.trans (List.suffix_cons a front)), Option.map_map]
    rfl

theorem search_eq_none_iff : search m s = none ↔ ∀ u ≠ [], u <:+ s → m u = none := by
  induction s with
  | nil => exact ⟨fun _ u hu hsuffix => absurd (List.suffix_nil.mp hsuffix) hu, fun _ => rfl⟩
  | cons a s ih =>
    rw [search]
    constructor
    · intro h u hu hsuffix
      cases hhere : m (a :: s) with
      | some x =>
        rw [hhere] at h
        cases h
      | none =>
        rw [hhere] at h
        rcases List.suffix_cons_iff.mp hsuffix with rfl | hsuffix
        · exact hhere
        · exact ih.mp (Option.map_eq_none_iff.mp h) u hu hsuffix
    · intro h
      rw [h (a :: s) (List.cons_ne_nil a s) List.suffix_rfl]
      exact Option.map_eq_none_iff.mpr
        (ih.mpr fun u hu hsuffix => h u hu (hsuffix.trans (List.suffix_cons a s)))

theorem search_suffix (h : search m s = none) (hsuffix : t <:+ s) : search m t = none :=
  search_eq_none_iff.mpr fun u hu hu' => search_eq_none_iff.mp h u hu (hu'.trans hsuffix)

end Search

/-- Each match is a token: it starts with `start`, which it does not hold again, it ends with
`stop`, and what stands behind it makes no difference. -/
structure Token (start stop : α) (m : List α → Option (β × List α)) : Prop where
  distinct : start ≠ stop
  shape : ∀ {s b r}, m s = some (b, r) → ∃ w, s = start :: (w ++ stop :: r) ∧
    start ∉ w ++ [stop] ∧ ∀ r', m (start :: (w ++ stop :: r')) = some (b, r')

/-- No token reaches from a text in front into this one. -/
def Cut (start stop : α) (t : List α) : Prop := ∀ front back, t = front ++ stop :: back → start ∈ front

section Token

variable {start stop : α} {m : List α → Option (β × List α)} {s t front : List α} {b : β}
  {r : List α}

theorem cut_of_start (hne : start ≠ stop) (t : List α) : Cut start stop (start :: t) := by
  intro front back h
  cases front with
  | nil => exact absurd (List.cons.inj h).1 hne
  | cons a front =>
    rw [(List.cons.inj h).1]
    exact List.mem_cons_self

theorem cut_of_no_stop (h : stop ∉ t) : Cut start stop t := by
  rintro front back rfl
  exact absurd (List.mem_append_right front List.mem_cons_self) h

theorem Cut.prepend (ht : Cut start stop t) (h : stop ∉ front) : Cut start stop (front ++ t) := by
  intro front' back heq
  rcases List.append_eq_append_iff.mp heq with ⟨a, rfl, ha⟩ | ⟨c, rfl, hc⟩
  · exact List.mem_append_right front (ht a back ha)
  · cases c with
    | nil => exact absurd (ht [] back hc.symm) List.not_mem_nil
    | cons x c =>
      obtain ⟨rfl, -⟩ := List.cons.inj hc
      exact absurd (List.mem_append_right front' List.mem_cons_self) h

namespace Token

variable (hm : Token start stop m)
include hm

theorem match_cons_of_ne {a : α} (h : a ≠ start) : m (a :: s) = none := by
  cases hs : m (a :: s) with
  | none => rfl
  | some x =>
    obtain ⟨w, heq, -⟩ := hm.shape hs
    exact absurd (List.cons.inj heq).1 h

theorem match_append (hfront : front ≠ []) (ht : Cut start stop t) :
    m (front ++ t) = (m front).map fun x => (x.1, x.2 ++ t) := by
  cases hpart : m front with
  | some x =>
    obtain ⟨w, rfl, -, hrest⟩ := hm.shape hpart
    rw [List.cons_append, List.append_assoc, List.cons_append, hrest]
    rfl
  | none =>
    cases hwhole : m (front ++ t) with
    | none => rfl
    | some x =>
      obtain ⟨w, heq, hw, hrest⟩ := hm.shape hwhole
      obtain ⟨a, front, rfl⟩ := List.exists_cons_of_ne_nil hfront
      obtain ⟨rfl, htail⟩ := List.cons.inj heq
      -- The token ends in the front, or its end in `t` has a start before it.
      rcases List.append_eq_append_iff.mp htail with ⟨c, rfl, hc⟩ | ⟨c, rfl, hc⟩
      · exact absurd (List.mem_append_left [stop] (List.mem_append_right front (ht c x.2 hc))) hw
      · cases c with
        | nil => exact absurd (ht [] x.2 hc.symm) List.not_mem_nil
        | cons y c =>
          obtain ⟨rfl, -⟩ := List.cons.inj hc
          rw [hrest c] at hpart
          cases hpart

theorem cut_of_match {x : β × List α} (h : m t = some x) : Cut start stop t := by
  obtain ⟨w, rfl, -⟩ := hm.shape h
  exact cut_of_start hm.distinct _

theorem ne_nil_of_match {x : β × List α} (h : m t = some x) : t ≠ [] := by
  obtain ⟨w, rfl, -⟩ := hm.shape h
  exact List.cons_ne_nil _ _

theorem search_eq_some_iff {x : β × List α} : search m s = some (front, x) ↔
    ∃ t, s = front ++ t ∧ m t = some x ∧ search m front = none := by
  constructor
  · intro h
    induction s generalizing front with
    | nil => cases h
    | cons a s ih =>
      cases hhere : m (a :: s) with
      | some y =>
        rw [search_of_match (List.cons_ne_nil a s) hhere] at h
        cases h
        exact ⟨a :: s, rfl, hhere, rfl⟩
      | none =>
        rw [search_cons_of_none hhere, Option.map_eq_some_iff] at h
        obtain ⟨⟨front, y⟩, hsearch, heq⟩ := h
        cases heq
        obtain ⟨t, rfl, ht, hfront⟩ := ih hsearch
        refine ⟨t, rfl, ht, ?_⟩
        rw [← List.cons_append, hm.match_append (List.cons_ne_nil a front) (hm.cut_of_match ht),
          Option.map_eq_none_iff] at hhere
        rw [search_cons_of_none hhere, hfront]
        rfl
  · rintro ⟨t, rfl, ht, hfront⟩
    rw [search_skip, search_of_match (hm.ne_nil_of_match ht) ht, Option.map_some, List.append_nil]
    intro u hu hsuffix
    rw [hm.match_append hu (hm.cut_of_match ht), search_eq_none_iff.mp hfront u hu hsuffix,
      Option.map_none]

theorem search_append_of_none (ht : Cut start stop t) (h : search m front = none) :
    search m (front ++ t) = (search m t).map fun x => (front ++ x.1, x.2) := by
  refine search_skip fun u hu hsuffix => ?_
  rw [hm.match_append hu ht, search_eq_none_iff.mp h u hu hsuffix, Option.map_none]

theorem search_append_of_some {front' : List α} (h : search m front = some (front', b, r))
    (t : List α) : search m (front ++ t) = some (front', b, r ++ t) := by
  obtain ⟨u, rfl, hu, hfront⟩ := hm.search_eq_some_iff.mp h
  obtain ⟨w, rfl, -, hrest⟩ := hm.shape hu
  refine hm.search_eq_some_iff.mpr ⟨_, List.append_assoc .., ?_, hfront⟩
  rw [List.cons_append, List.append_assoc, List.cons_append, hrest]

theorem search_skip_plain (h : start ∉ front) :
    search m (front ++ t) = (search m t).map fun x => (front ++ x.1, x.2) := by
  refine search_skip fun u hu hsuffix => ?_
  obtain ⟨a, u, rfl⟩ := List.exists_cons_of_ne_nil hu
  refine hm.match_cons_of_ne fun ha => h ?_
  exact ha ▸ hsuffix.mem List.mem_cons_self

theorem search_plain (h : start ∉ s) : search m s = none := by
  have hskip := hm.search_skip_plain (t := []) h
  rwa [List.append_nil] at hskip

theorem search_part {back : List α} (h : search m (front ++ s ++ back) = none) : search m s = none := by
  rw [List.append_assoc] at h
  refine search_eq_none_iff.mpr fun u hu hsuffix => ?_
  obtain ⟨v, rfl⟩ := hsuffix
  have hwhole : m (u ++ back) = none := by
    refine search_eq_none_iff.mp h _ (List.append_ne_nil_of_left_ne_nil hu back) ⟨front ++ v, ?_⟩
    simp only [List.append_assoc]
  cases hpart : m u with
  | none => rfl
  | some x =>
    obtain ⟨w, rfl, -, hrest⟩ := hm.shape hpart
    rw [List.cons_append, List.append_assoc, List.cons_append, hrest] at hwhole
    cases hwhole

theorem rest_suffix {x : β × List α} (h : m s = some x) : x.2 <:+ s := by
  obtain ⟨w, rfl, -⟩ := hm.shape h
  exact ⟨start :: (w ++ [stop]), by simp⟩

theorem later_suffix {a : α} {x y : β × List α} (h : m (a :: s) = some x) (hsuffix : t <:+ s)
    (ht : m t = some y) : t <:+ x.2 := by
  obtain ⟨w, heq, hw, -⟩ := hm.shape h
  obtain ⟨w', rfl, -⟩ := hm.shape ht
  obtain ⟨v, rfl⟩ := hsuffix
  have htail : v ++ start :: (w' ++ stop :: y.2) = (w ++ [stop]) ++ x.2 := by
    rw [(List.cons.inj heq).2, List.append_assoc, List.singleton_append]
  rcases List.append_eq_append_iff.mp htail with ⟨c, hc, hy⟩ | ⟨c, -, hc⟩
  · cases c with
    | nil => exact ⟨[], hy⟩
    | cons z c =>
      obtain ⟨rfl, -⟩ := List.cons.inj hy
      exact absurd (hc ▸ List.mem_append_right v List.mem_cons_self) hw
  · exact ⟨c, hc.symm⟩

/-- The first block begins with the first opener, since what closes a later one closes this one. -/
theorem search_block {m' : List α → Option (γ × List α)} : search (block m m') s =
    (search m s).bind fun x => (search m' x.2.2).map fun y => (x.1, (x.2.1, y.2.1), y.2.2) := by
  induction s with
  | nil => rfl
  | cons a s ih =>
    cases hhere : m (a :: s) with
    | none =>
      have hblock : block m m' (a :: s) = none := by rw [block, hhere, Option.bind_none]
      rw [search_cons_of_none hblock, search_cons_of_none hhere, ih]
      cases search m s with
      | none => rfl
      | some x =>
        rw [Option.bind_some, Option.map_some, Option.bind_some, Option.map_map]
        rfl
    | some x =>
      rw [search_of_match (List.cons_ne_nil a s) hhere, Option.bind_some]
      cases hclose : search m' x.2 with
      | some y =>
        have hblock : block m m' (a :: s) = some ((x.1, y.2.1), y.2.2) := by
          rw [block, hhere, Option.bind_some, hclose, Option.map_some]
        rw [search_of_match (List.cons_ne_nil a s) hblock, Option.map_some]
      | none =>
        rw [Option.map_none, search_eq_none_iff]
        intro u hu hsuffix
        cases hlater : m u with
        | none => rw [block, hlater, Option.bind_none]
        | some z =>
          have hrest : z.2 <:+ x.2 := by
            rcases List.suffix_cons_iff.mp hsuffix with rfl | hsuffix
            · rw [Option.some.inj (hlater.symm.trans hhere)]
            · exact (hm.rest_suffix hlater).trans (hm.later_suffix hhere hsuffix hlater)
          rw [block, hlater, Option.bind_some, search_suffix hclose hrest, Option.map_none]

end Token

end Token

/-- What a token is made of: a word, any characters of a class, or some, which are captured. The
characters of a class are all taken. -/
inductive Piece (α : Type)
  | word (w : List α)
  | star (p : α → Bool)
  | plus (p : α → Bool)

def Piece.Avoids (a : α) : Piece α → Prop
  | .word w => a ∉ w
  | .star p | .plus p => p a = false

section Pattern

theorem while_append {p : α → Bool} {u s : List α} (hu : ∀ a ∈ u, p a = true)
    (hs : s.head?.any p = false) : (u ++ s).takeWhile p = u ∧ (u ++ s).dropWhile p = s := by
  rw [List.takeWhile_append_of_pos hu, List.dropWhile_append_of_pos hu]
  cases s with
  | nil => exact ⟨List.append_nil u, rfl⟩
  | cons a s =>
    have ha : ¬ p a = true := Bool.eq_false_iff.mp hs
    rw [List.takeWhile_cons_of_neg ha, List.dropWhile_cons_of_neg ha, List.append_nil]
    exact ⟨rfl, rfl⟩

theorem while_swap {p : α → Bool} {s w r : List α} {stop : α} (h : s.dropWhile p = w ++ stop :: r)
    (r' : List α) :
    (s.takeWhile p ++ (w ++ stop :: r')).takeWhile p = s.takeWhile p ∧
      (s.takeWhile p ++ (w ++ stop :: r')).dropWhile p = w ++ stop :: r' := by
  -- The characters of a class stay those that they are where the text behind them changes.
  refine while_append (fun a ha => List.mem_takeWhile_imp ha) ?_
  have hnot := List.head?_dropWhile_not p s
  rw [h] at hnot
  cases w with
  | nil => simpa using hnot
  | cons a w => simpa using hnot

variable [DecidableEq α]

def afterWord : List α → List α → Option (List α)
  | [], s => some s
  | _ :: _, [] => none
  | a :: w, b :: s => if a = b then afterWord w s else none

theorem afterWord_eq_some_iff {w s r : List α} : afterWord w s = some r ↔ s = w ++ r := by
  induction w generalizing s with
  | nil =>
    cases s with
    | nil => exact ⟨fun h => Option.some.inj h, fun h => congrArg some h⟩
    | cons a s => exact ⟨fun h => Option.some.inj h, fun h => congrArg some h⟩
  | cons a w ih =>
    cases s with
    | nil => simp [afterWord]
    | cons b s =>
      rw [afterWord, List.cons_append, List.cons.injEq]
      split_ifs with hab
      · rw [ih]
        exact ⟨fun h => ⟨hab.symm, h⟩, fun h => h.2⟩
      · exact ⟨fun h => (by cases h), fun h => absurd h.1.symm hab⟩

def scan : List (Piece α) → List α → Option (List (List α) × List α)
  | [], s => some ([], s)
  | .word w :: ps, s => (afterWord w s).bind (scan ps)
  | .star p :: ps, s => scan ps (s.dropWhile p)
  | .plus p :: ps, s =>
    if s.takeWhile p = [] then none
    else (scan ps (s.dropWhile p)).map fun x => (s.takeWhile p :: x.1, x.2)

theorem scan_word (w s : List α) (ps : List (Piece α)) : scan (.word w :: ps) (w ++ s) = scan ps s := by
  rw [scan, afterWord_eq_some_iff.mpr rfl, Option.bind_some]

theorem scan_star {p : α → Bool} {u s : List α} (hu : ∀ a ∈ u, p a = true)
    (hs : s.head?.any p = false) (ps : List (Piece α)) : scan (.star p :: ps) (u ++ s) = scan ps s := by
  rw [scan, (while_append hu hs).2]

theorem scan_plus {p : α → Bool} {u s : List α} (hne : u ≠ []) (hu : ∀ a ∈ u, p a = true)
    (hs : s.head?.any p = false) (ps : List (Piece α)) :
    scan (.plus p :: ps) (u ++ s) = (scan ps s).map fun x => (u :: x.1, x.2) := by
  rw [scan, (while_append hu hs).1, (while_append hu hs).2, if_neg hne]

def tokenAt (start : α) (ps : List (Piece α)) : List α → Option (List (List α) × List α)
  | [] => none
  | a :: s => if a = start then scan ps s else none

theorem scan_shape {start stop : α} {front : List (Piece α)} {v : List α}
    (havoids : ∀ p ∈ front ++ [.word (v ++ [stop])], p.Avoids start) {s r : List α}
    {c : List (List α)} (h : scan (front ++ [.word (v ++ [stop])]) s = some (c, r)) :
    ∃ w, s = w ++ stop :: r ∧ start ∉ w ++ [stop] ∧
      ∀ r', scan (front ++ [.word (v ++ [stop])]) (w ++ stop :: r') = some (c, r') := by
  induction front generalizing s c with
  | nil =>
    rw [List.nil_append, scan, Option.bind_eq_some_iff] at h
    obtain ⟨u, hu, heq⟩ := h
    cases heq
    rw [afterWord_eq_some_iff, List.append_assoc, List.singleton_append] at hu
    refine ⟨v, hu, havoids _ List.mem_cons_self, fun r' => ?_⟩
    rw [List.nil_append, scan, afterWord_eq_some_iff.mpr (List.append_cons v stop r')]
    rfl
  | cons p front ih =>
    have hrest : ∀ q ∈ front ++ [.word (v ++ [stop])], q.Avoids start :=
      fun q hq => havoids q (List.mem_cons_of_mem p hq)
    have hp : p.Avoids start := havoids p List.mem_cons_self
    cases p with
    | word u =>
      rw [List.cons_append, scan, Option.bind_eq_some_iff] at h
      obtain ⟨s', hs', hscan⟩ := h
      obtain ⟨w, rfl, hw, hswap⟩ := ih hrest hscan
      rw [afterWord_eq_some_iff, ← List.append_assoc] at hs'
      refine ⟨u ++ w, hs', ?_, fun r' => ?_⟩
      · rw [List.append_assoc, List.mem_append, not_or]
        exact ⟨hp, hw⟩
      · rw [List.cons_append, scan, List.append_assoc, afterWord_eq_some_iff.mpr rfl, Option.bind_some,
          hswap]
    | star p =>
      rw [List.cons_append, scan] at h
      obtain ⟨w, hs', hw, hswap⟩ := ih hrest h
      refine ⟨s.takeWhile p ++ w, ?_, ?_, fun r' => ?_⟩
      · rw [List.append_assoc, ← hs', List.takeWhile_append_dropWhile]
      · rw [List.append_assoc, List.mem_append, not_or]
        exact ⟨fun hmem => Bool.false_ne_true (hp.symm.trans (List.mem_takeWhile_imp hmem)), hw⟩
      · rw [List.cons_append, scan, List.append_assoc, (while_swap hs' r').2, hswap]
    | plus p =>
      rw [List.cons_append, scan] at h
      split_ifs at h with hempty
      obtain ⟨⟨c, r⟩, hscan, heq⟩ := Option.map_eq_some_iff.mp h
      cases heq
      obtain ⟨w, hs', hw, hswap⟩ := ih hrest hscan
      refine ⟨s.takeWhile p ++ w, ?_, ?_, fun r' => ?_⟩
      · rw [List.append_assoc, ← hs', List.takeWhile_append_dropWhile]
      · rw [List.append_assoc, List.mem_append, not_or]
        exact ⟨fun hmem => Bool.false_ne_true (hp.symm.trans (List.mem_takeWhile_imp hmem)), hw⟩
      · rw [List.cons_append, scan, List.append_assoc, (while_swap hs' r').1, (while_swap hs' r').2,
          if_neg hempty, hswap]
        rfl

theorem tokenAt_start (start : α) (ps : List (Piece α)) (s : List α) :
    tokenAt start ps (start :: s) = scan ps s := by
  rw [tokenAt, if_pos rfl]

theorem token_tokenAt {start stop : α} (hne : start ≠ stop) (front : List (Piece α)) (v : List α)
    (havoids : ∀ p ∈ front ++ [.word (v ++ [stop])], p.Avoids start) :
    Token start stop (tokenAt start (front ++ [.word (v ++ [stop])])) where
  distinct := hne
  shape {s c r} h := by
    cases s with
    | nil => cases h
    | cons a s =>
      rw [tokenAt] at h
      split_ifs at h with ha
      obtain ⟨w, rfl, hw, hswap⟩ := scan_shape havoids h
      refine ⟨w, by rw [ha], hw, fun r' => ?_⟩
      rw [tokenAt_start, hswap]

end Pattern

end Memclaw.Lib.Tokens
