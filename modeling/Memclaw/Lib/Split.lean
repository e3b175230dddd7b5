import Mathlib.Algebra.Ring.Nat
import Mathlib.Data.List.Basic
import Mathlib.Data.List.Forall2
import Mathlib.Data.List.TakeWhile

/-! Lists cut at separators: how the pieces of two parts make up the pieces of the whole. -/

namespace Memclaw.Lib

variable {α : Type} {p : α → Bool}

theorem splitOnP_append (front : List α) : ∃ init last, front.splitOnP p = init ++ [last] ∧
    ∀ back head tail, List.splitOnP p back = head :: tail →
      (front ++ back).splitOnP p = init ++ (last ++ head) :: tail := by
  induction front with
  | nil => exact ⟨[], [], List.splitOnP_nil, fun back head tail h => h⟩
  | cons a front ih =>
    obtain ⟨init, last, hfront, hback⟩ := ih
    by_cases ha : p a = true
    · refine ⟨[] :: init, last, ?_, fun back head tail h => ?_⟩
      · rw [List.splitOnP_cons_eq_if_modifyHead, if_pos ha, hfront, List.cons_append]
      · rw [List.cons_append, List.splitOnP_cons_eq_if_modifyHead, if_pos ha, hback back head tail h,
          List.cons_append]
    · cases init with
      | nil =>
        refine ⟨[], a :: last, ?_, fun back head tail h => ?_⟩
        · rw [List.splitOnP_cons_eq_if_modifyHead, if_neg ha, hfront]
          rfl
        · rw [List.cons_append, List.splitOnP_cons_eq_if_modifyHead, if_neg ha,
            hback back head tail h]
          rfl
      | cons first init =>
        refine ⟨(a :: first) :: init, last, ?_, fun back head tail h => ?_⟩
        · rw [List.splitOnP_cons_eq_if_modifyHead, if_neg ha, hfront]
          rfl
        · rw [List.cons_append, List.splitOnP_cons_eq_if_modifyHead, if_neg ha,
            hback back head tail h]
          rfl

theorem splitOnP_pieces (cs : List α) : ∃ first rest, cs.splitOnP p = first :: rest ∧ first <+: cs ∧
    ∀ piece ∈ rest, ∃ front sep back, cs = front ++ sep :: (piece ++ back) ∧ p sep = true := by
  -- The first piece starts the list, and the others start behind a separator.
  induction cs with
  | nil => exact ⟨[], [], List.splitOnP_nil, List.nil_prefix, fun _ h => absurd h List.not_mem_nil⟩
  | cons a cs ih =>
    obtain ⟨first, rest, hsplit, hfirst, hrest⟩ := ih
    have hlater : ∀ piece ∈ rest, ∃ front sep back,
        a :: cs = front ++ sep :: (piece ++ back) ∧ p sep = true := by
      intro piece hpiece
      obtain ⟨front, sep, back, hcs, hsep⟩ := hrest piece hpiece
      exact ⟨a :: front, sep, back, congrArg (List.cons a) hcs, hsep⟩
    rw [List.splitOnP_cons_eq_if_modifyHead, hsplit]
    by_cases ha : p a = true
    · rw [if_pos ha]
      refine ⟨[], first :: rest, rfl, List.nil_prefix, fun piece hpiece => ?_⟩
      rcases List.mem_cons.mp hpiece with rfl | hpiece
      · obtain ⟨back, rfl⟩ := hfirst
        exact ⟨[], a, back, rfl, ha⟩
      · exact hlater piece hpiece
    · rw [if_neg ha]
      exact ⟨a :: first, rest, rfl, List.cons_prefix_cons.mpr ⟨rfl, hfirst⟩, hlater⟩

theorem splitOnP_congr {cs ds : List α}
    (h : List.Forall₂ (fun a b => a = b ∨ p a = true ∧ p b = true) cs ds) :
    cs.splitOnP p = ds.splitOnP p := by
  induction h with
  | nil => rfl
  | cons hab _ ih =>
    rw [List.splitOnP_cons_eq_if_modifyHead, List.splitOnP_cons_eq_if_modifyHead, ih]
    rcases hab with rfl | ⟨ha, hb⟩
    · rfl
    · rw [if_pos ha, if_pos hb]

theorem not_sep_of_mem_splitOnP {cs piece : List α} (h : piece ∈ cs.splitOnP p) :
    ∀ c ∈ piece, p c = false := by
  induction cs generalizing piece with
  | nil =>
    rw [List.splitOnP_nil, List.mem_singleton] at h
    rw [h]
    exact fun c hc => absurd hc List.not_mem_nil
  | cons a cs ih =>
    obtain ⟨first, rest, hsplit, -, -⟩ := splitOnP_pieces (p := p) cs
    rw [hsplit] at ih
    rw [List.splitOnP_cons_eq_if_modifyHead, hsplit] at h
    split_ifs at h with ha
    · rcases List.mem_cons.mp h with rfl | h
      · exact fun c hc => absurd hc List.not_mem_nil
      · exact ih h
    · rcases List.mem_cons.mp h with rfl | h
      · intro c hc
        rcases List.mem_cons.mp hc with rfl | hc
        · exact Bool.eq_false_iff.mpr ha
        · exact ih List.mem_cons_self c hc
      · exact ih (List.mem_cons_of_mem first h)

theorem cut_first {x : α} {front front' back back' : List α} (hfront : x ∉ front)
    (hfront' : x ∉ front') (h : front ++ x :: back = front' ++ x :: back') :
    front = front' ∧ back = back' := by
  induction front generalizing front' with
  | nil =>
    cases front' with
    | nil => exact ⟨rfl, (List.cons.inj h).2⟩
    | cons a front' => exact absurd (List.cons.inj h).1 (List.ne_of_not_mem_cons hfront')
  | cons a front ih =>
    cases front' with
    | nil => exact absurd (List.cons.inj h).1.symm (List.ne_of_not_mem_cons hfront)
    | cons b front' =>
      obtain ⟨rfl, htail⟩ := List.cons.inj h
      obtain ⟨rfl, hback⟩ := ih (List.not_mem_of_not_mem_cons hfront)
        (List.not_mem_of_not_mem_cons hfront') htail
      exact ⟨rfl, hback⟩

theorem cut_last {x : α} {front front' back back' : List α} (hback : x ∉ back) (hback' : x ∉ back')
    (h : front ++ x :: back = front' ++ x :: back') : front = front' ∧ back = back' := by
  have hrev : back.reverse ++ x :: front.reverse = back'.reverse ++ x :: front'.reverse := by
    have hreverse := congrArg List.reverse h
    simpa using hreverse
  obtain ⟨hb, hf⟩ := cut_first (fun hx => hback (List.mem_reverse.mp hx))
    (fun hx => hback' (List.mem_reverse.mp hx)) hrev
  exact ⟨List.reverse_injective hf, List.reverse_injective hb⟩

theorem length_splitOnP (cs : List α) :
    ((cs.splitOnP p).map fun piece => piece.length + 1).sum = cs.length + 1 := by
  induction cs with
  | nil => rfl
  | cons a cs ih =>
    obtain ⟨first, rest, hsplit, -, -⟩ := splitOnP_pieces (p := p) cs
    rw [List.splitOnP_cons_eq_if_modifyHead]
    rw [hsplit] at ih ⊢
    rw [List.map_cons, List.sum_cons] at ih
    split_ifs
    · rw [List.map_cons, List.sum_cons, List.map_cons, List.sum_cons, List.length_nil, ih,
        List.length_cons]
      omega
    · rw [List.modifyHead_cons, List.map_cons, List.sum_cons, List.length_cons, List.length_cons]
      omega

def segments (p : α → Bool) (cs : List α) : List (List α) :=
  (cs.splitOnP p).filter fun piece => !piece.isEmpty

theorem of_mem_segments {cs piece : List α} (h : piece ∈ segments p cs) :
    piece ≠ [] ∧ ∀ c ∈ piece, p c = false := by
  obtain ⟨hmem, hne⟩ := List.mem_filter.mp h
  refine ⟨?_, not_sep_of_mem_splitOnP hmem⟩
  rintro rfl
  cases hne

theorem segments_nil : segments p [] = [] := by
  rw [segments, List.splitOnP_nil]
  rfl

theorem segments_cons_sep {sep : α} (hsep : p sep = true) (cs : List α) :
    segments p (sep :: cs) = segments p cs := by
  rw [segments, List.splitOnP_cons_eq_if_modifyHead, if_pos hsep]
  rfl

theorem segments_append_cons {sep : α} (hsep : p sep = true) (front back : List α) :
    segments p (front ++ sep :: back) = segments p front ++ segments p back := by
  rw [segments, List.splitOnP_append_cons front back hsep, List.filter_append]
  rfl

theorem segments_of_forall_sep {cs : List α} (h : ∀ c ∈ cs, p c = true) : segments p cs = [] := by
  induction cs with
  | nil => exact segments_nil
  | cons c cs ih =>
    rw [segments_cons_sep (h c List.mem_cons_self), ih fun d hd => h d (List.mem_cons_of_mem c hd)]

theorem segments_of_forall_not {cs : List α} (hne : cs ≠ []) (h : ∀ c ∈ cs, p c = false) :
    segments p cs = [cs] := by
  have hcs : cs.isEmpty = false := List.isEmpty_eq_false_iff.mpr hne
  rw [segments, List.splitOnP_eq_singleton h, List.filter_singleton, hcs]
  rfl

def Ended (p : α → Bool) (cs : List α) : Prop := cs.getLast?.all p = true

def Begun (p : α → Bool) (cs : List α) : Prop := cs.head?.all p = true

theorem segments_append {front back : List α} (h : Ended p front ∨ Begun p back) :
    segments p (front ++ back) = segments p front ++ segments p back := by
  rcases h with hfront | hback
  · rcases List.eq_nil_or_concat' front with rfl | ⟨init, sep, rfl⟩
    · rw [segments_nil, List.nil_append, List.nil_append]
    · rw [Ended, List.getLast?_concat, Option.all_some] at hfront
      rw [List.append_assoc, List.singleton_append, segments_append_cons hfront,
        segments_append_cons hfront, segments_nil, List.append_nil]
  · cases back with
    | nil => rw [segments_nil, List.append_nil, List.append_nil]
    | cons sep back =>
      rw [Begun, List.head?_cons, Option.all_some] at hback
      rw [segments_append_cons hback, segments_cons_sep hback]

theorem segments_flatMap {β : Type} {q : β → Bool} (spell : α → List β) (hne : ∀ c, spell c ≠ [])
    (hsep : ∀ c, p c = true → ∀ d ∈ spell c, q d = true) (cs : List α) :
    segments q (cs.flatMap spell) =
      (segments p cs).flatMap fun word => segments q (word.flatMap spell) := by
  -- The segments of a text of letters spelled out are those of its words, when separators are
  -- spelled with separators.
  obtain ⟨n, hn⟩ : ∃ n, cs.length = n := ⟨_, rfl⟩
  induction n using Nat.strong_induction_on generalizing cs with
  | _ n ih =>
    cases cs with
    | nil => rw [List.flatMap_nil, segments_nil, segments_nil, List.flatMap_nil]
    | cons c cs =>
      by_cases hc : p c = true
      · have hspell := hsep c hc
        have hended : Ended q (spell c) := by
          rw [Ended, Option.all_eq_true]
          exact fun d hd => hspell d (List.mem_of_mem_getLast? hd)
        rw [List.flatMap_cons, segments_append (.inl hended), segments_of_forall_sep hspell,
          List.nil_append, segments_cons_sep hc]
        exact ih cs.length (by rw [← hn]; exact Nat.lt_succ_self _) cs rfl
      · -- The word up to the next separator.
        set word := (c :: cs).takeWhile fun d => !p d with hword
        set rest := (c :: cs).dropWhile fun d => !p d with hrest
        have hsplit : c :: cs = word ++ rest := List.takeWhile_append_dropWhile.symm
        have hwordne : word ≠ [] := by
          rw [hword, List.takeWhile_cons_of_pos (by simpa using hc)]
          exact List.cons_ne_nil _ _
        have hplain : ∀ d ∈ word, p d = false := by
          intro d hd
          simpa using List.mem_takeWhile_imp hd
        have hbegun : Begun p rest := by
          rw [Begun, Option.all_eq_true]
          intro d hd
          have hnot := List.head?_dropWhile_not (fun d => !p d) (c :: cs)
          rw [← hrest, hd] at hnot
          simpa using hnot
        have hspelled : Begun q (rest.flatMap spell) := by
          cases hcase : rest with
          | nil => rfl
          | cons sep later =>
            rw [hcase, Begun, List.head?_cons, Option.all_some] at hbegun
            obtain ⟨d, ds, hd⟩ := List.exists_cons_of_ne_nil (hne sep)
            rw [Begun, List.flatMap_cons, hd, List.cons_append, List.head?_cons, Option.all_some]
            exact hsep sep hbegun d (hd ▸ List.mem_cons_self)
        have hlen : rest.length < n := by
          have hlens := congrArg List.length hsplit
          rw [hn, List.length_append] at hlens
          have hpos := List.length_pos_iff.mpr hwordne
          omega
        rw [hsplit, List.flatMap_append, segments_append (.inr hspelled),
          segments_append (.inr hbegun), List.flatMap_append, segments_of_forall_not hwordne hplain,
          ih rest.length hlen rest rfl, List.flatMap_singleton]

def opens : List (α → Bool) → List α → Bool
  | [], _ => true
  | _ :: _, [] => false
  | test :: tests, a :: rest => test a && opens tests rest

def occurrences (tests : List (α → Bool)) : List α → ℕ
  | [] => 0
  | a :: rest => (opens tests (a :: rest)).toNat + occurrences tests rest

section Occurrences

variable {tests : List (α → Bool)} {sep : α}

theorem opens_append_sep (h : ∀ test ∈ tests, test sep = false) (front back : List α) :
    opens tests (front ++ sep :: back) = opens tests front := by
  induction tests generalizing front with
  | nil => cases front <;> rfl
  | cons test tests ih =>
    cases front with
    | nil =>
      simp only [List.nil_append, opens, h test List.mem_cons_self, Bool.false_and]
    | cons a front =>
      rw [List.cons_append, opens, opens, ih fun t ht => h t (List.mem_cons_of_mem test ht)]

theorem opens_cons_of_not {a : α} (h : tests.head?.any (· a) = false) (hne : tests ≠ [])
    (rest : List α) : opens tests (a :: rest) = false := by
  obtain ⟨test, tests, rfl⟩ := List.exists_cons_of_ne_nil hne
  rw [List.head?_cons, Option.any_some] at h
  rw [opens, h, Bool.false_and]

theorem occurrences_append_sep (hne : tests ≠ []) (h : ∀ test ∈ tests, test sep = false)
    (front back : List α) :
    occurrences tests (front ++ sep :: back) = occurrences tests front + occurrences tests back := by
  -- Nothing that passes a test reaches past an item that passes none.
  induction front with
  | nil =>
    have hsep : opens tests (sep :: back) = false := by
      obtain ⟨test, tests, rfl⟩ := List.exists_cons_of_ne_nil hne
      exact opens_append_sep h [] back
    simp only [List.nil_append, occurrences, hsep, Bool.toNat_false]
  | cons a front ih =>
    rw [List.cons_append, occurrences, ← List.cons_append, opens_append_sep h, ih, occurrences,
      Nat.add_assoc]

theorem occurrences_eq_zero_of_head {cs : List α} (hne : tests ≠ [])
    (h : ∀ a ∈ cs, tests.head?.any (· a) = false) : occurrences tests cs = 0 := by
  induction cs with
  | nil => rfl
  | cons a cs ih =>
    rw [occurrences, opens_cons_of_not (h a List.mem_cons_self) hne, Bool.toNat_false, Nat.zero_add,
      ih fun b hb => h b (List.mem_cons_of_mem a hb)]

theorem occurrences_lines (hne : tests ≠ []) (h : ∀ test ∈ tests, test sep = false)
    (lines : List (List α)) :
    occurrences tests (lines.flatMap (· ++ [sep])) = (lines.map (occurrences tests)).sum := by
  induction lines with
  | nil => rfl
  | cons line lines ih =>
    rw [List.flatMap_cons, List.append_assoc, List.singleton_append, occurrences_append_sep hne h, ih,
      List.map_cons, List.sum_cons]

end Occurrences

theorem splitOn_lines [DecidableEq α] {sep : α} {lines : List (List α)}
    (h : ∀ line ∈ lines, sep ∉ line) : (lines.flatMap (· ++ [sep])).splitOn sep = lines ++ [[]] := by
  induction lines with
  | nil => exact List.splitOnP_nil
  | cons line lines ih =>
    have hline : line.splitOnP (· == sep) = [line] := by
      refine List.splitOnP_eq_singleton fun a ha => ?_
      rw [beq_eq_false_iff_ne]
      rintro rfl
      exact h line List.mem_cons_self ha
    have hrest := ih fun l hl => h l (List.mem_cons_of_mem line hl)
    rw [List.splitOn] at hrest
    rw [List.flatMap_cons, List.append_assoc, List.singleton_append, List.splitOn,
      List.splitOnP_append_cons (p := (· == sep)) line _ (beq_self_eq_true sep), hline, hrest]
    rfl

def trimEnd (p : α → Bool) (cs : List α) : List α := (cs.reverse.dropWhile p).reverse

def trim (p : α → Bool) (cs : List α) : List α := trimEnd p (cs.dropWhile p)

def ink (p : α → Bool) (cs : List α) : List α := cs.filter fun c => !p c

def Trimmed (p : α → Bool) (cs : List α) : Prop := cs.head?.all (!p ·) = true ∧ cs.getLast?.all (!p ·) = true

theorem ink_append (front back : List α) : ink p (front ++ back) = ink p front ++ ink p back :=
  List.filter_append ..

theorem ink_reverse (cs : List α) : ink p cs.reverse = (ink p cs).reverse := List.filter_reverse ..

theorem ink_dropWhile (cs : List α) : ink p (cs.dropWhile p) = ink p cs := by
  induction cs with
  | nil => rfl
  | cons c cs ih =>
    cases hc : p c with
    | true => rw [List.dropWhile_cons_of_pos hc, ih, ink, ink, List.filter_cons_of_neg (by simp [hc])]
    | false => rw [List.dropWhile_cons_of_neg (by simp [hc])]

theorem ink_trimEnd (cs : List α) : ink p (trimEnd p cs) = ink p cs := by
  rw [trimEnd, ink_reverse, ink_dropWhile, ink_reverse, List.reverse_reverse]

theorem ink_trim (cs : List α) : ink p (trim p cs) = ink p cs := by
  rw [trim, ink_trimEnd, ink_dropWhile]

theorem ink_flatten (pieces : List (List α)) : ink p pieces.flatten = pieces.flatMap (ink p) := by
  rw [ink, List.filter_flatten, List.flatMap_def]
  rfl

theorem ink_intercalate {sep : List α} (hsep : ink p sep = []) (parts : List (List α)) :
    ink p (sep.intercalate parts) = parts.flatMap (ink p) := by
  induction parts with
  | nil => rfl
  | cons part parts ih =>
    cases parts with
    | nil => rw [List.intercalate_singleton, List.flatMap_singleton]
    | cons next parts =>
      rw [List.intercalate_cons_cons, ink_append, ink_append, hsep, List.append_nil, ih]
      rfl

theorem trim_infix (cs : List α) : trim p cs <:+: cs := by
  have hprefix : trimEnd p (cs.dropWhile p) <+: cs.dropWhile p := by
    rw [trimEnd, ← List.reverse_suffix, List.reverse_reverse]
    exact List.dropWhile_suffix p
  exact hprefix.isInfix.trans (List.dropWhile_suffix p).isInfix

theorem trimEnd_eq_self {cs : List α} (h : cs.getLast?.all (!p ·) = true) : trimEnd p cs = cs := by
  rw [trimEnd]
  rcases List.eq_nil_or_concat' cs with rfl | ⟨init, c, rfl⟩
  · rfl
  · rw [List.getLast?_concat, Option.all_some] at h
    have hc : ¬ p c = true := by simpa using h
    rw [List.reverse_concat, List.dropWhile_cons_of_neg hc, List.reverse_cons, List.reverse_reverse]

theorem Trimmed.trim_eq {cs : List α} (h : Trimmed p cs) : trim p cs = cs := by
  have hdrop : cs.dropWhile p = cs := by
    cases cs with
    | nil => rfl
    | cons c cs =>
      have hhead := h.1
      rw [List.head?_cons, Option.all_some] at hhead
      exact List.dropWhile_cons_of_neg (by simpa using hhead)
  rw [trim, hdrop]
  exact trimEnd_eq_self h.2

theorem trimmed_trim (cs : List α) : Trimmed p (trim p cs) := by
  have hlast : ∀ ds : List α, (trimEnd p ds).getLast?.all (!p ·) = true := by
    intro ds
    rw [trimEnd, List.getLast?_reverse, Option.all_eq_true]
    intro d hd
    have hnot := List.head?_dropWhile_not p ds.reverse
    rw [hd] at hnot
    simpa using hnot
  refine ⟨?_, hlast _⟩
  rw [Option.all_eq_true]
  intro c hc
  -- The first character is that of the text behind the leading blanks.
  have hprefix : trimEnd p (cs.dropWhile p) <+: cs.dropWhile p := by
    rw [trimEnd, ← List.reverse_suffix, List.reverse_reverse]
    exact List.dropWhile_suffix p
  have hhead : (cs.dropWhile p).head? = some c := by
    obtain ⟨back, hback⟩ := hprefix
    rw [← hback, List.head?_append, show (trimEnd p (cs.dropWhile p)).head? = some c from hc]
    rfl
  have hnot := List.head?_dropWhile_not p cs
  rw [hhead] at hnot
  simpa using hnot

theorem Trimmed.append {front back : List α} (hfront : Trimmed p front) (hne : front ≠ [])
    (mid : List α) (hback : Trimmed p back) (hne' : back ≠ []) : Trimmed p (front ++ mid ++ back) := by
  obtain ⟨c, cs, rfl⟩ := List.exists_cons_of_ne_nil hne
  rcases List.eq_nil_or_concat' back with rfl | ⟨init, d, rfl⟩
  · exact absurd rfl hne'
  refine ⟨hfront.1, ?_⟩
  have hlast := hback.2
  rw [List.getLast?_concat] at hlast
  rw [← List.append_assoc, List.getLast?_concat]
  exact hlast

theorem ink_eq_nil_iff {cs : List α} : ink p cs = [] ↔ trim p cs = [] := by
  constructor
  · intro h
    rcases hcase : trim p cs with _ | ⟨c, rest⟩
    · rfl
    · have hc := (trimmed_trim (p := p) cs).1
      rw [hcase, List.head?_cons, Option.all_some] at hc
      have hink : ink p (c :: rest) = c :: ink p rest := List.filter_cons_of_pos hc
      rw [← ink_trim, hcase, hink] at h
      cases h
  · intro h
    rw [← ink_trim, h]
    rfl

end Memclaw.Lib
