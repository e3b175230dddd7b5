import Mathlib.Data.List.Perm.Subperm
import Memclaw.Governance.Mask

/-! What `_resolve_overlaps` keeps and what `mask` makes of it, for findings from anywhere. -/

namespace Memclaw.Governance

open Memclaw.Lib

def Finding.key (f : Finding) : ℕ × ℕ × Severity := (f.start, f.stop, f.severity)

def KeyLe (a b : ℕ × ℕ × Severity) : Prop :=
  a.1 < b.1 ∨ a.1 = b.1 ∧
    (b.2.1 < a.2.1 ∨ a.2.1 = b.2.1 ∧ severityRank b.2.2 ≤ severityRank a.2.2)

theorem severityRank_injective : Function.Injective severityRank := by
  intro s t h
  cases s <;> cases t <;> first | rfl | cases h

theorem keyLe_antisymm {a b : ℕ × ℕ × Severity} (hab : KeyLe a b) (hba : KeyLe b a) : a = b := by
  obtain ⟨start, stop, severity⟩ := a
  obtain ⟨start', stop', severity'⟩ := b
  simp only [KeyLe] at hab hba
  have hrank : severityRank severity = severityRank severity' := by omega
  have hstart : start = start' := by omega
  have hstop : stop = stop' := by omega
  rw [hstart, hstop, severityRank_injective hrank]

theorem Finding.keyLe_of_le {f g : Finding} (hf : f.start < f.stop) (hg : g.start < g.stop)
    (h : f.le g) : KeyLe f.key g.key := by
  simp only [Finding.le, Bool.or_eq_true, Bool.and_eq_true, decide_eq_true_eq, beq_iff_eq] at h
  simp only [KeyLe, Finding.key]
  omega

section Spans

variable {findings findings' : List Finding}

theorem ordered_perm : (ordered findings).Perm findings := List.perm_insertionSort _ findings

theorem ordered_key (hne : ∀ f ∈ findings, f.start < f.stop) :
    ((ordered findings).map Finding.key).Pairwise KeyLe := by
  have htotal : Std.Total fun f g : Finding => (f.le g : Prop) := ⟨Finding.le_total⟩
  have htrans : IsTrans Finding fun f g => f.le g := ⟨fun _ _ _ => Finding.le_trans⟩
  have hsorted := List.pairwise_insertionSort (fun f g : Finding => f.le g) findings
  rw [List.pairwise_map]
  refine hsorted.imp_of_mem ?_
  intro f g hf hg hle
  exact Finding.keyLe_of_le (hne f (mem_ordered.mp hf)) (hne g (mem_ordered.mp hg)) hle

theorem resolveOverlaps_key : (resolveOverlaps findings).map Finding.key =
    greedy Prod.fst (fun a => a.2.1) 0 ((ordered findings).map Finding.key) := by
  have hmap : (greedy (Prod.fst ∘ Finding.key)
      ((fun a : ℕ × ℕ × Severity => a.2.1) ∘ Finding.key) 0 (ordered findings)).map Finding.key =
        greedy Prod.fst (fun a => a.2.1) 0 ((ordered findings).map Finding.key) :=
    greedy_map Finding.key 0 (ordered findings)
  rw [resolveOverlaps_eq_greedy]
  exact hmap

theorem resolveOverlaps_perm (hne : ∀ f ∈ findings, f.start < f.stop)
    (hperm : findings'.Perm findings) :
    (resolveOverlaps findings').map Finding.key = (resolveOverlaps findings).map Finding.key := by
  have hne' : ∀ f ∈ findings', f.start < f.stop := fun f hf => hne f (hperm.mem_iff.mp hf)
  have hkeys : (ordered findings').map Finding.key = (ordered findings).map Finding.key := by
    refine List.Perm.eq_of_pairwise (fun _ _ _ _ => keyLe_antisymm) (ordered_key hne')
      (ordered_key hne) ?_
    exact ((ordered_perm.trans hperm).trans ordered_perm.symm).map Finding.key
  rw [resolveOverlaps_key, resolveOverlaps_key, hkeys]

theorem resolveOverlaps_subperm : (resolveOverlaps findings).Subperm findings := by
  rw [resolveOverlaps_eq_greedy]
  exact (greedy_sublist 0 _).subperm.trans ordered_perm.subperm

theorem resolveOverlaps_disjoint (hne : ∀ f ∈ findings, f.start < f.stop) :
    (resolveOverlaps findings).Pairwise fun f g => f.stop ≤ g.start := by
  rw [resolveOverlaps_eq_greedy]
  exact (greedy_disjoint 0 _ fun f hf => hne f (mem_ordered.mp hf)).2

def Overlap (f g : Finding) : Prop :=
  ∃ i, Covers Finding.start Finding.stop f i ∧ Covers Finding.start Finding.stop g i

theorem resolveOverlaps_maximal (hne : ∀ f ∈ findings, f.start < f.stop) :
    ∀ f ∈ findings, ∃ k ∈ resolveOverlaps findings, Overlap f k := by
  intro f hf
  obtain ⟨k, hk, hcover, -⟩ := exists_kept_zero (ordered_pairwise hne)
    (fun g hg => hne g (mem_ordered.mp hg)) (mem_ordered.mpr hf)
  rw [resolveOverlaps_eq_greedy]
  exact ⟨k, hk, f.start, ⟨le_rfl, hne f hf⟩, hcover⟩

end Spans

section Masking

variable {α : Type} {token : PIICategory → List α} {text : List α} {kept : List Finding}

theorem insertionSort_reverse (hstart : kept.Pairwise fun f g => f.start < g.start) :
    kept.insertionSort (fun f g => g.start ≤ f.start) = kept.reverse := by
  -- Sorted by decreasing start, findings in order are findings in reverse.
  have htotal : Std.Total fun f g : Finding => g.start ≤ f.start :=
    ⟨fun f g => le_total g.start f.start⟩
  have htrans : IsTrans Finding fun f g => g.start ≤ f.start := ⟨fun _ _ _ h h' => h'.trans h⟩
  have hnodup : (kept.map Finding.start).Nodup :=
    (List.pairwise_map.mpr hstart).imp fun h => h.ne
  refine List.Perm.eq_of_pairwise ?_ (List.pairwise_insertionSort _ kept)
    (List.pairwise_reverse.mpr (hstart.imp fun h => h.le))
    ((List.perm_insertionSort _ kept).trans kept.reverse_perm.symm)
  intro f g hf hg hfg hgf
  exact List.inj_on_of_nodup_map hnodup ((List.mem_insertionSort _).mp hf) (List.mem_reverse.mp hg)
    (le_antisymm hgf hfg)

theorem splice_eq_interleaved (hne : ∀ f ∈ kept, f.start < f.stop ∧ f.stop ≤ text.length)
    (hdisjoint : kept.Pairwise fun f g => f.stop ≤ g.start) :
    splice token text kept =
      interleaved Finding.start Finding.stop (fun f => token f.category) text 0 kept := by
  have hstart : kept.Pairwise fun f g => f.start < g.start :=
    hdisjoint.imp_of_mem fun hf _ h => (hne _ hf).1.trans_le h
  have hright : kept.foldr (replaced Finding.start Finding.stop fun f => token f.category) text =
      text.take 0 ++ interleaved Finding.start Finding.stop (fun f => token f.category) text 0 kept :=
    foldr_replaced (fun f _ => Nat.zero_le f.start) hdisjoint hne
  rw [splice]
  split
  · rename_i hempty
    rw [List.isEmpty_iff.mp hempty]
    rfl
  · have hcut : (fun (f : Finding) (out : List α) =>
        out.take f.start ++ token f.category ++ out.drop f.stop) =
          replaced Finding.start Finding.stop fun f => token f.category := by
      funext f out
      rw [replaced, List.append_assoc]
    rw [insertionSort_reverse hstart, List.foldl_reverse, hcut, hright, List.take_zero,
      List.nil_append]

end Masking

def Origin.position : Origin → Option ℕ
  | .text position => some position
  | .token _ => none

theorem range'_cut {a b c : ℕ} (hab : a ≤ b) (hbc : b ≤ c) :
    List.range' a (c - a) = List.range' a (b - a) ++ List.range' b (c - b) := by
  have hb : a + (b - a) = b := Nat.add_sub_cancel' hab
  have happend := List.range'_append_1 (s := a) (m := b - a) (n := c - b)
  rw [hb] at happend
  rw [happend]
  congr 1
  omega

theorem interleaved_positions {length front : ℕ} {kept : List Finding}
    (hfront : ∀ f ∈ kept, front ≤ f.start) (hdisjoint : kept.Pairwise fun f g => f.stop ≤ g.start)
    (hne : ∀ f ∈ kept, f.start < f.stop ∧ f.stop ≤ length) (hlength : front ≤ length) :
    (interleaved Finding.start Finding.stop
      (fun f => (redaction f.category).toList.map Origin.token)
      ((List.range length).map Origin.text) front kept).filterMap Origin.position =
        (List.range' front (length - front)).filter fun i =>
          ∀ k ∈ kept, ¬ (k.start ≤ i ∧ i < k.stop) := by
  -- The positions behind the front that no span covers.
  have hpositions : ∀ positions : List ℕ,
      (positions.map Origin.text).filterMap Origin.position = positions := by
    intro positions
    rw [List.filterMap_map]
    exact List.filterMap_some
  have htokens : ∀ token : List Char,
      (token.map Origin.token).filterMap Origin.position = [] := by
    intro token
    rw [List.filterMap_map]
    exact List.filterMap_eq_nil_iff.mpr fun _ _ => rfl
  induction kept generalizing front with
  | nil =>
    rw [interleaved, ← List.map_drop, hpositions, List.range_eq_range', List.drop_range']
    simp
  | cons f fs ih =>
    obtain ⟨hnext, hlater⟩ := List.pairwise_cons.mp hdisjoint
    obtain ⟨hspan, hstop⟩ := hne f List.mem_cons_self
    have hstart := hfront f List.mem_cons_self
    have hparts : List.range' front (length - front) = List.range' front (f.start - front) ++
        (List.range' f.start (f.stop - f.start) ++ List.range' f.stop (length - f.stop)) := by
      rw [range'_cut hstart (hspan.le.trans hstop), range'_cut hspan.le hstop]
    have hgap : ((List.range length).drop front).take (f.start - front) =
        List.range' front (f.start - front) := by
      rw [List.range_eq_range', List.drop_range', List.take_range'_of_length_ge (by omega)]
      congr 1
      omega
    have hkept : (List.range' front (f.start - front)).filter
        (fun i => ∀ k ∈ f :: fs, ¬ (k.start ≤ i ∧ i < k.stop)) =
          List.range' front (f.start - front) := by
      refine List.filter_eq_self.mpr fun i hi => decide_eq_true ?_
      rw [List.mem_range'_1] at hi
      rw [List.forall_mem_cons]
      refine ⟨by omega, fun k hk => ?_⟩
      have hbehind := hnext k hk
      omega
    have hcovered : (List.range' f.start (f.stop - f.start)).filter
        (fun i => ∀ k ∈ f :: fs, ¬ (k.start ≤ i ∧ i < k.stop)) = [] := by
      refine List.filter_eq_nil_iff.mpr fun i hi hfree => ?_
      rw [List.mem_range'_1] at hi
      exact of_decide_eq_true hfree f List.mem_cons_self (by omega)
    have hrest : (List.range' f.stop (length - f.stop)).filter
        (fun i => ∀ k ∈ f :: fs, ¬ (k.start ≤ i ∧ i < k.stop)) =
          (List.range' f.stop (length - f.stop)).filter
            fun i => ∀ k ∈ fs, ¬ (k.start ≤ i ∧ i < k.stop) := by
      refine List.filter_congr fun i hi => decide_eq_decide.mpr ?_
      rw [List.mem_range'_1] at hi
      rw [List.forall_mem_cons]
      exact and_iff_right (by omega)
    rw [interleaved, List.filterMap_append, List.filterMap_append, htokens, List.nil_append,
      ih hnext hlater (fun g hg => hne g (List.mem_cons_of_mem f hg)) hstop, ← List.map_drop,
      ← List.map_take, hpositions, hparts, List.filter_append, List.filter_append, hgap, hkept,
      hcovered, hrest, List.nil_append]

structure Resolved (text : List Char) (findings kept : List Finding) : Prop where
  subperm : kept.Subperm findings
  increasing : kept.Pairwise fun f g => f.start < g.start
  disjoint : kept.Pairwise fun f g => ¬ Overlap f g
  maximal : ∀ f ∈ findings, ∃ k ∈ kept, Overlap f k
  masked : mask text kept =
    interleaved Finding.start Finding.stop (fun f => (redaction f.category).toList) text 0 kept
  preserved : (trace text.length kept).filterMap Origin.position =
    (List.range text.length).filter fun i => ∀ k ∈ kept, ¬ (k.start ≤ i ∧ i < k.stop)

/-- Overlap resolution for every list of findings inside a text, in any order. -/
theorem resolveOverlaps_resolves (text : List Char) (findings findings' : List Finding)
    (hspans : ∀ f ∈ findings, f.start < f.stop ∧ f.stop ≤ text.length)
    (hperm : findings'.Perm findings) :
    Resolved text findings (resolveOverlaps findings) ∧
      (resolveOverlaps findings').map Finding.key = (resolveOverlaps findings).map Finding.key := by
  have hne : ∀ f ∈ findings, f.start < f.stop := fun f hf => (hspans f hf).1
  have hdisjoint := resolveOverlaps_disjoint hne
  have hbounds : ∀ f ∈ resolveOverlaps findings, f.start < f.stop ∧ f.stop ≤ text.length :=
    fun f hf => hspans f (resolveOverlaps_subperm.subset hf)
  refine ⟨?_, resolveOverlaps_perm hne hperm⟩
  refine {
    subperm := resolveOverlaps_subperm
    increasing := hdisjoint.imp_of_mem fun hf _ h => (hbounds _ hf).1.trans_le h
    disjoint := hdisjoint.imp ?_
    maximal := resolveOverlaps_maximal hne
    masked := splice_eq_interleaved hbounds hdisjoint
    preserved := ?_ }
  · rintro f g hbefore ⟨i, ⟨-, hif⟩, ⟨hig, -⟩⟩
    omega
  · have hlength : ((List.range text.length).map Origin.text).length = text.length := by
      rw [List.length_map, List.length_range]
    rw [trace, splice_eq_interleaved (fun f hf => by rw [hlength]; exact hbounds f hf) hdisjoint,
      interleaved_positions (fun f _ => Nat.zero_le f.start) hdisjoint hbounds (Nat.zero_le _),
      Nat.sub_zero, List.range_eq_range']

/-- Two overlapping findings and one behind them, in two orders. -/
theorem resolveOverlaps_resolves_phone :
    Resolved "ab 12345 x@y.z".toList
      [⟨.email, 9, 14, .low⟩, ⟨.phone, 3, 8, .medium⟩, ⟨.nationalId, 5, 8, .high⟩]
      (resolveOverlaps
        [⟨.email, 9, 14, .low⟩, ⟨.phone, 3, 8, .medium⟩, ⟨.nationalId, 5, 8, .high⟩]) ∧
    (resolveOverlaps
      [⟨.phone, 3, 8, .medium⟩, ⟨.email, 9, 14, .low⟩, ⟨.nationalId, 5, 8, .high⟩]).map Finding.key =
    (resolveOverlaps
      [⟨.email, 9, 14, .low⟩, ⟨.phone, 3, 8, .medium⟩, ⟨.nationalId, 5, 8, .high⟩]).map Finding.key :=
  resolveOverlaps_resolves _ _ _ (by decide) (List.Perm.swap _ _ _)

end Memclaw.Governance
