import Mathlib.Data.List.Sort

/-! Insertion as a stable sort: it commutes with filters, and rows that come before all others
stay in front in their order. -/

namespace Memclaw.Lib.StableSort

variable {α : Type}

theorem mergeSort_congr {le : α → α → Bool} (htrans : ∀ a b c, le a b → le b c → le a c)
    (htotal : ∀ a b, le a b || le b a) (hantisymm : ∀ a b, le a b → le b a → a = b)
    {l l' : List α} (h : l.Perm l') : l.mergeSort le = l'.mergeSort le := by
  -- A sort by a strict order of the rows forgets the order in which they came.
  have hperm : (l.mergeSort le).Perm (l'.mergeSort le) :=
    ((List.mergeSort_perm l le).trans h).trans (List.mergeSort_perm l' le).symm
  exact hperm.eq_of_pairwise (fun a b _ _ => hantisymm a b)
    (List.pairwise_mergeSort htrans htotal l) (List.pairwise_mergeSort htrans htotal l')

theorem mem_take_iff [LinearOrder α] {l : List α} (h : l.Pairwise (· < ·)) {a : α} {n : ℕ} :
    a ∈ l.take n ↔ a ∈ l ∧ (l.filter (· < a)).length < n := by
  induction l generalizing n with
  | nil => simp
  | cons b l ih =>
    obtain ⟨hb, hl⟩ := List.pairwise_cons.mp h
    have hbelow : l.filter (· < b) = [] :=
      List.filter_eq_nil_iff.mpr fun c hc => by simpa using (hb c hc).le
    cases n with
    | zero => simp
    | succ n =>
      rw [List.take_succ_cons, List.mem_cons, List.mem_cons, ih hl]
      by_cases hab : a = b
      · subst hab
        simp [hbelow]
      · constructor
        · rintro (heq | ⟨ha, hcount⟩)
          · exact absurd heq hab
          · exact ⟨.inr ha, by simpa [hb a ha] using hcount⟩
        · rintro ⟨heq | ha, hcount⟩
          · exact absurd heq hab
          · exact .inr ⟨ha, by simpa [hb a ha] using hcount⟩

variable (r : α → α → Prop) [DecidableRel r]

theorem orderedInsert_of_forall {a : α} {l : List α} (h : ∀ b ∈ l, r a b) :
    l.orderedInsert r a = a :: l := by
  cases l with
  | nil => rfl
  | cons b l => exact List.orderedInsert_cons_of_le r l (h b List.mem_cons_self)

theorem insertionSort_append {front rest : List α} (h : ∀ a ∈ front, ∀ b ∈ front ++ rest, r a b) :
    (front ++ rest).insertionSort r = front ++ rest.insertionSort r := by
  induction front with
  | nil => rfl
  | cons a front ih =>
    have hrest : ∀ b ∈ front ++ rest, r a b :=
      fun b hb => h a List.mem_cons_self b (List.mem_cons_of_mem a hb)
    rw [List.cons_append, List.insertionSort_cons_of_forall_rel r hrest, ih, List.cons_append]
    exact fun a' ha' b hb => h a' (List.mem_cons_of_mem a ha') b (List.mem_cons_of_mem a hb)

variable [IsTrans α r]

theorem filter_orderedInsert {l : List α} (hl : l.Pairwise r) (p : α → Bool) (a : α) :
    (l.orderedInsert r a).filter p =
      if p a then (l.filter p).orderedInsert r a else l.filter p := by
  induction l with
  | nil => cases hp : p a <;> simp [hp]
  | cons b l ih =>
    obtain ⟨hb, hl⟩ := List.pairwise_cons.mp hl
    by_cases hab : r a b
    · have hbefore : ∀ x ∈ (b :: l).filter p, r a x := by
        intro x hx
        rcases List.mem_cons.mp (List.mem_of_mem_filter hx) with rfl | hx
        · exact hab
        · exact IsTrans.trans a b x hab (hb x hx)
      rw [List.orderedInsert_cons_of_le r l hab, orderedInsert_of_forall r hbefore]
      cases hp : p a <;> simp [hp]
    · rw [List.orderedInsert_of_not_le r l hab]
      cases hpb : p b
      · simpa [hpb] using ih hl
      · simp only [List.filter_cons, hpb, if_true, ih hl]
        cases hp : p a <;> simp [hab]

variable [Std.Total r]

/-- An element more stands before the elements that come after it. -/
theorem exists_insertionSort_insert (front rest : List α) (a : α) :
    ∃ s s', (front ++ rest).insertionSort r = s ++ s' ∧
      (front ++ a :: rest).insertionSort r = s ++ a :: s' := by
  induction front with
  | nil =>
    refine ⟨(rest.insertionSort r).takeWhile fun b => ¬r a b,
      (rest.insertionSort r).dropWhile fun b => ¬r a b, ?_, ?_⟩
    · exact List.takeWhile_append_dropWhile.symm
    · exact List.insertionSort_cons_eq_take_drop r a rest
  | cons x front ih =>
    obtain ⟨s, s', hs, hs'⟩ := ih
    have hafter : ∀ b ∈ s', r a b := by
      have hsorted : (s ++ a :: s').Pairwise r := hs' ▸ List.pairwise_insertionSort r _
      exact (List.pairwise_cons.mp (List.pairwise_append.mp hsorted).2.1).1
    rw [List.cons_append, List.cons_append, List.insertionSort_cons, List.insertionSort_cons,
      hs, hs']
    clear hs hs'
    induction s with
    | nil =>
      by_cases hxa : r x a
      · refine ⟨[x], s', ?_, List.orderedInsert_cons_of_le r _ hxa⟩
        exact orderedInsert_of_forall r fun b hb => IsTrans.trans x a b hxa (hafter b hb)
      · exact ⟨[], s'.orderedInsert r x, rfl, List.orderedInsert_of_not_le r _ hxa⟩
    | cons b s ih =>
      by_cases hxb : r x b
      · exact ⟨x :: b :: s, s', List.orderedInsert_cons_of_le r _ hxb,
          List.orderedInsert_cons_of_le r _ hxb⟩
      · obtain ⟨u, u', hu, hu'⟩ := ih
        refine ⟨b :: u, u', ?_, ?_⟩
        · exact (List.orderedInsert_of_not_le r _ hxb).trans (congrArg (b :: ·) hu)
        · exact (List.orderedInsert_of_not_le r _ hxb).trans (congrArg (b :: ·) hu')

theorem filter_insertionSort (l : List α) (p : α → Bool) :
    (l.insertionSort r).filter p = (l.filter p).insertionSort r := by
  induction l with
  | nil => rfl
  | cons a l ih =>
    rw [List.insertionSort_cons, filter_orderedInsert r (List.pairwise_insertionSort r l) p a, ih]
    cases hp : p a <;> simp [hp]

end Memclaw.Lib.StableSort
