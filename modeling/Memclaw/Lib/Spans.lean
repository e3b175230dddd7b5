import Mathlib.Data.List.Pairwise
import Mathlib.Data.Set.Basic

/-! Spans of positions, the greedy choice of disjoint ones from the left, and when the
chosen spans cover all that the given ones do. -/

namespace Memclaw.Lib

section Spans

variable {α : Type} (start stop : α → ℕ)

def Covers (f : α) (i : ℕ) : Prop := start f ≤ i ∧ i < stop f

def greedy : ℕ → List α → List α
  | _, [] => []
  | front, f :: fs => if front ≤ start f then f :: greedy (stop f) fs else greedy front fs

def Earlier (f g : α) : Prop := start f < start g ∨ start f = start g ∧ stop g ≤ stop f

/-- The ends that a walk over the spans of `S` stops at: from an end it goes on to the first
start at or behind it, and to the end of the longest span there. -/
inductive Reached (S : Set α) : ℕ → Prop
  | zero : Reached S 0
  | next {e : ℕ} {f : α} (he : Reached S e) (hf : f ∈ S) (hle : e ≤ start f)
      (hfirst : ∀ g ∈ S, e ≤ start g → start f ≤ start g)
      (hlong : ∀ g ∈ S, start g = start f → stop g ≤ stop f) : Reached S (stop f)

def Continued (S : Set α) : Prop :=
  ∀ e, Reached start stop S e → (∃ f ∈ S, start f < e ∧ e < stop f) → ∃ f ∈ S, start f = e

variable {start stop}

theorem greedy_subset (front : ℕ) (fs : List α) : greedy start stop front fs ⊆ fs := by
  induction fs generalizing front with
  | nil => exact fun _ h => h
  | cons f fs ih =>
    intro k hk
    rw [greedy] at hk
    split at hk
    · rcases List.mem_cons.mp hk with rfl | hk
      · exact List.mem_cons_self
      · exact List.mem_cons_of_mem f (ih _ hk)
    · exact List.mem_cons_of_mem f (ih _ hk)

theorem greedy_sublist (front : ℕ) (fs : List α) : (greedy start stop front fs).Sublist fs := by
  induction fs generalizing front with
  | nil => exact .slnil
  | cons f fs ih =>
    rw [greedy]
    split
    · exact (ih _).cons_cons f
    · exact (ih _).cons f

theorem greedy_map {β : Type} (h : β → α) (front : ℕ) (fs : List β) :
    (greedy (start ∘ h) (stop ∘ h) front fs).map h = greedy start stop front (fs.map h) := by
  induction fs generalizing front with
  | nil => rfl
  | cons f fs ih =>
    rw [List.map_cons, greedy, greedy, Function.comp_apply, Function.comp_apply]
    split
    · rw [List.map_cons, ih]
    · exact ih front

theorem greedy_disjoint (front : ℕ) (fs : List α) (hne : ∀ f ∈ fs, start f < stop f) :
    (∀ k ∈ greedy start stop front fs, front ≤ start k) ∧
      (greedy start stop front fs).Pairwise fun k k' => stop k ≤ start k' := by
  induction fs generalizing front with
  | nil => simp [greedy]
  | cons f fs ih =>
    have hnef := hne f List.mem_cons_self
    have hrest := fun front => ih front fun g hg => hne g (List.mem_cons_of_mem f hg)
    rw [greedy]
    split
    · rename_i hle
      obtain ⟨hlow, hpair⟩ := hrest (stop f)
      refine ⟨?_, List.pairwise_cons.mpr ⟨hlow, hpair⟩⟩
      intro k hk
      rcases List.mem_cons.mp hk with rfl | hk
      · exact hle
      · exact (hle.trans hnef.le).trans (hlow k hk)
    · exact hrest front

theorem exists_kept (front : ℕ) {fs : List α} (hsorted : fs.Pairwise (Earlier start stop))
    (hne : ∀ f ∈ fs, start f < stop f) {f : α} (hf : f ∈ fs) :
    start f < front ∨ ∃ k ∈ greedy start stop front fs,
      Covers start stop k (start f) ∧ (start k = start f → stop f ≤ stop k) := by
  -- A span that is not kept starts inside one that is, and does not outlast it when both start
  -- together.
  induction fs generalizing front with
  | nil => simp at hf
  | cons g fs ih =>
    obtain ⟨hfirst, hsorted⟩ := List.pairwise_cons.mp hsorted
    have hrest := fun front hf =>
      ih front hsorted (fun g hg => hne g (List.mem_cons_of_mem _ hg)) hf
    rw [greedy]
    split
    · rename_i hle
      right
      rcases List.mem_cons.mp hf with rfl | hf
      · exact ⟨f, List.mem_cons_self, ⟨le_rfl, hne f List.mem_cons_self⟩, fun _ => le_rfl⟩
      · rcases hrest (stop g) hf with hlt | ⟨k, hk, hcover⟩
        · -- The new front is behind the start of `f`, so `g` covers it.
          rcases hfirst f hf with hbefore | ⟨heq, hlong⟩
          · exact ⟨g, List.mem_cons_self, ⟨hbefore.le, hlt⟩, fun h => absurd h hbefore.ne⟩
          · exact ⟨g, List.mem_cons_self, ⟨heq.le, hlt⟩, fun _ => hlong⟩
        · exact ⟨k, List.mem_cons_of_mem g hk, hcover⟩
    · rename_i hlt
      rcases List.mem_cons.mp hf with rfl | hf
      · exact Or.inl (not_le.mp hlt)
      · exact hrest front hf

theorem reached_of_kept {S : Set α} (front : ℕ) {fs : List α} (hfront : Reached start stop S front)
    (hsorted : fs.Pairwise (Earlier start stop)) (hsub : ∀ f ∈ fs, f ∈ S)
    (hleft : ∀ g ∈ S, front ≤ start g → g ∈ fs) (hne : ∀ f ∈ fs, start f < stop f) :
    ∀ k ∈ greedy start stop front fs, Reached start stop S (stop k) := by
  -- The ends of the kept spans are ends that the walk stops at.
  induction fs generalizing front with
  | nil => simp [greedy]
  | cons f fs ih =>
    obtain ⟨hfirst, hsorted⟩ := List.pairwise_cons.mp hsorted
    have hsub' : ∀ g ∈ fs, g ∈ S := fun g hg => hsub g (List.mem_cons_of_mem f hg)
    have hne' : ∀ g ∈ fs, start g < stop g := fun g hg => hne g (List.mem_cons_of_mem f hg)
    rw [greedy]
    split
    · rename_i hle
      have hstop : Reached start stop S (stop f) := by
        refine .next hfront (hsub f List.mem_cons_self) hle ?_ ?_
        · intro g hg hge
          rcases List.mem_cons.mp (hleft g hg hge) with rfl | hmem
          · exact le_rfl
          · rcases hfirst g hmem with hlt | ⟨heq, _⟩
            · exact hlt.le
            · exact heq.le
        · intro g hg heq
          rcases List.mem_cons.mp (hleft g hg (heq ▸ hle)) with rfl | hmem
          · exact le_rfl
          · rcases hfirst g hmem with hlt | ⟨_, hlong⟩
            · exact absurd heq.symm hlt.ne
            · exact hlong
      intro k hk
      rcases List.mem_cons.mp hk with rfl | hk
      · exact hstop
      · refine ih (stop f) hstop hsorted hsub' ?_ hne' k hk
        intro g hg hge
        have hnef := hne f List.mem_cons_self
        rcases List.mem_cons.mp (hleft g hg ((hle.trans hnef.le).trans hge)) with rfl | hmem
        · exact absurd hge (not_le.mpr hnef)
        · exact hmem
    · rename_i hlt
      refine ih front hfront hsorted hsub' ?_ hne'
      intro g hg hge
      rcases List.mem_cons.mp (hleft g hg hge) with rfl | hmem
      · exact absurd hge hlt
      · exact hmem

variable {spans : List α}

theorem kept_disjoint (hne : ∀ f ∈ spans, start f < stop f) {k k' : α}
    (hk : k ∈ greedy start stop 0 spans) (hk' : k' ∈ greedy start stop 0 spans) (hdiff : k ≠ k') :
    stop k ≤ start k' ∨ stop k' ≤ start k := by
  let R : α → α → Prop := fun a b => stop a ≤ start b ∨ stop b ≤ start a
  have hsymm : Std.Symm R := ⟨fun _ _ h => h.symm⟩
  have hpair : (greedy start stop 0 spans).Pairwise R :=
    (greedy_disjoint 0 spans hne).2.imp Or.inl
  exact hpair.forall hk hk' hdiff

theorem exists_kept_zero (hsorted : spans.Pairwise (Earlier start stop))
    (hne : ∀ f ∈ spans, start f < stop f) {f : α} (hf : f ∈ spans) :
    ∃ k ∈ greedy start stop 0 spans,
      Covers start stop k (start f) ∧ (start k = start f → stop f ≤ stop k) := by
  rcases exists_kept 0 hsorted hne hf with h | h
  · exact absurd h (Nat.not_lt_zero _)
  · exact h

theorem kept_of_reached (hsorted : spans.Pairwise (Earlier start stop))
    (hne : ∀ f ∈ spans, start f < stop f) {e : ℕ}
    (he : Reached start stop {f | f ∈ spans} e) :
    ∀ k ∈ greedy start stop 0 spans, stop k ≤ e ∨ e ≤ start k := by
  induction he with
  | zero => exact fun k _ => Or.inr (Nat.zero_le _)
  | @next e f _ hf hle hfirst hlong ih =>
    have hfne := hne f hf
    obtain ⟨t, ht, ⟨htf, hft⟩, htlong⟩ := exists_kept_zero hsorted hne hf
    have htS : t ∈ spans := greedy_subset 0 spans ht
    -- The span kept over the start of `f` starts there and ends with `f`.
    have hstart : start t = start f := by
      rcases ih t ht with hout | hin
      · omega
      · exact le_antisymm htf (hfirst t htS hin)
    have hstop : stop t = stop f := le_antisymm (hlong t htS hstart) (htlong hstart)
    intro k hk
    rcases ih k hk with hout | hin
    · left
      omega
    · have hkS := greedy_subset 0 spans hk
      have hfk := hfirst k hkS hin
      by_cases hkt : k = t
      · left
        rw [hkt, hstop]
      · rcases kept_disjoint hne hk ht hkt with hbefore | hbehind
        · -- A span kept in front of `t` could not start at or behind it.
          have hkne := hne k hkS
          omega
        · right
          omega

/-- The kept spans cover the positions of all spans exactly when the walk goes on wherever
it stops inside a span. -/
theorem greedy_covers_iff (hsorted : spans.Pairwise (Earlier start stop))
    (hne : ∀ f ∈ spans, start f < stop f) :
    (∀ f ∈ spans, ∀ i, Covers start stop f i →
        ∃ k ∈ greedy start stop 0 spans, Covers start stop k i) ↔
      Continued start stop {f | f ∈ spans} := by
  constructor
  · rintro hcover e he ⟨f, hf, hlt, hgt⟩
    obtain ⟨k, hk, hke, hek⟩ := hcover f hf e ⟨hlt.le, hgt⟩
    refine ⟨k, greedy_subset 0 spans hk, ?_⟩
    rcases kept_of_reached hsorted hne he k hk with hout | hin
    · omega
    · exact le_antisymm hke hin
  · intro hcont f hf i hfi
    obtain ⟨k, hk, hkf⟩ := exists_kept_zero hsorted hne hf
    -- From the span kept over the start of `f` go on, end by end, until one covers `i`.
    have hwalk : ∀ n, ∀ k ∈ greedy start stop 0 spans, start k ≤ i → start f < stop k →
        i < stop k + n → ∃ k ∈ greedy start stop 0 spans, Covers start stop k i := by
      intro n
      induction n with
      | zero => exact fun k hk hki _ hlt => ⟨k, hk, hki, hlt⟩
      | succ n ih =>
        intro k hk hki hfk hlt
        by_cases hik : i < stop k
        · exact ⟨k, hk, hki, hik⟩
        · have hend : stop k ≤ i := not_lt.mp hik
          have hstop : Reached start stop {f | f ∈ spans} (stop k) :=
            reached_of_kept 0 .zero hsorted (fun _ h => h) (fun _ h _ => h) hne k hk
          obtain ⟨g, hg, hgk⟩ := hcont (stop k) hstop ⟨f, hf, hfk, hend.trans_lt hfi.2⟩
          obtain ⟨k', hk', ⟨hstart, hbehind⟩, _⟩ := exists_kept_zero hsorted hne hg
          rw [hgk] at hstart hbehind
          exact ih k' hk' (hstart.trans hend) (hfk.trans hbehind) (by omega)
    exact hwalk (i + 1) k hk (hkf.1.1.trans hfi.1) hkf.1.2 (by omega)

section Interleaved

variable (start stop) {β : Type} (token : α → List β) (text : List β)

/-- What of the text is behind the front, with a token in the place of each span. -/
def interleaved : ℕ → List α → List β
  | front, [] => text.drop front
  | front, f :: fs =>
    (text.drop front).take (start f - front) ++ (token f ++ interleaved (stop f) fs)

def replaced (f : α) (out : List β) : List β :=
  out.take (start f) ++ (token f ++ out.drop (stop f))

variable {start stop token text}

theorem foldr_replaced {front : ℕ} {fs : List α} (hfront : ∀ f ∈ fs, front ≤ start f)
    (hdisjoint : fs.Pairwise fun f g => stop f ≤ start g)
    (hbounds : ∀ f ∈ fs, start f < stop f ∧ stop f ≤ text.length) :
    fs.foldr (replaced start stop token) text =
      text.take front ++ interleaved start stop token text front fs := by
  -- Replacing from the right: the offsets of the spans on the left stay valid.
  induction fs generalizing front with
  | nil => exact (List.take_append_drop front text).symm
  | cons f fs ih =>
    obtain ⟨hnext, hrest⟩ := List.pairwise_cons.mp hdisjoint
    obtain ⟨hne, hlength⟩ := hbounds f List.mem_cons_self
    have hright := ih hnext hrest fun g hg => hbounds g (List.mem_cons_of_mem f hg)
    have hstart : (text.take (stop f)).length = stop f := List.length_take_of_le hlength
    have hleft : text.take (start f) =
        text.take front ++ (text.drop front).take (start f - front) := by
      rw [← List.take_add, Nat.add_sub_cancel' (hfront f List.mem_cons_self)]
    rw [List.foldr_cons, hright, replaced, interleaved,
      List.take_append_of_le_length (by rw [hstart]; exact hne.le), List.take_take,
      Nat.min_eq_left hne.le, List.drop_left' hstart, hleft, List.append_assoc]

end Interleaved

end Spans

end Memclaw.Lib
