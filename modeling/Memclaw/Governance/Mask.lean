import Memclaw.Governance.PatternDefs
import Memclaw.Lib.Regex
import Memclaw.Lib.Spans

/-! Which characters of a text survive masking. Overlapping findings are dropped in favour
of those that start earlier, so the tail of a dropped finding may be left in the text. -/

namespace Memclaw.Governance

open Memclaw.Lib

section Accepted

variable {env : ScanEnv} {enabled : Option (List PIICategory)} {text : List Char} {f : Finding}

theorem Rule.finding_bounds {rule : Rule} {m : Regex.Match} {r : Regex}
    (hm : m ∈ r.finditer env.chars text) (hf : rule.finding env text m = some f) :
    f.start < f.stop ∧ f.stop ≤ text.length := by
  rw [Rule.finding] at hf
  split at hf
  · cases hf
  · rename_i start stop hspan
    simp only at hf
    split at hf
    · rename_i hok
      cases hf
      simp only [Bool.and_eq_true, decide_eq_true_eq] at hok
      exact ⟨hok.2, Regex.finditer_span_le hm hspan⟩
    · cases hf

theorem accepted_bounds (hf : f ∈ accepted env enabled text) :
    f.start < f.stop ∧ f.stop ≤ text.length := by
  obtain ⟨rule, _, hf⟩ := List.mem_flatMap.mp hf
  rw [Rule.findings] at hf
  split at hf
  · simp at hf
  · obtain ⟨m, hm, hf⟩ := List.mem_filterMap.mp hf
    exact Rule.finding_bounds hm hf

theorem accepted_nil : accepted env enabled [] = [] := by
  rw [List.eq_nil_iff_forall_not_mem]
  intro f hf
  have hbounds := accepted_bounds hf
  simp only [List.length_nil] at hbounds
  omega

theorem accepted_parts (env : ScanEnv) (text : List Char) (n : ℕ) :
    accepted env none text = (rules.take n).flatMap (Rule.findings env text) ++
      (rules.drop n).flatMap (Rule.findings env text) := by
  have hall : rules.filter (fun rule => allows none rule.category) = rules :=
    List.filter_eq_self.mpr fun _ _ => rfl
  rw [accepted, hall, ← List.flatMap_append, List.take_append_drop]

end Accepted

theorem Finding.earlier_of_le {f g : Finding} (hf : f.start < f.stop) (hg : g.start < g.stop)
    (h : f.le g) : Earlier Finding.start Finding.stop f g := by
  simp only [Finding.le, Bool.or_eq_true, Bool.and_eq_true, decide_eq_true_eq, beq_iff_eq] at h
  rw [Earlier]
  omega

theorem Finding.le_total (f g : Finding) : f.le g ∨ g.le f := by
  simp only [Finding.le, Bool.or_eq_true, Bool.and_eq_true, decide_eq_true_eq, beq_iff_eq]
  omega

theorem Finding.le_trans {f g h : Finding} (hfg : f.le g) (hgh : g.le h) : f.le h := by
  simp only [Finding.le, Bool.or_eq_true, Bool.and_eq_true, decide_eq_true_eq, beq_iff_eq] at *
  omega

theorem keepDisjoint_eq_greedy (lastEnd : ℕ) (findings : List Finding) :
    keepDisjoint lastEnd findings = greedy Finding.start Finding.stop lastEnd findings := by
  induction findings generalizing lastEnd with
  | nil => rfl
  | cons f fs ih => simp only [keepDisjoint, greedy, ih]

def ordered (findings : List Finding) : List Finding := findings.insertionSort fun f g => f.le g

theorem mem_ordered {findings : List Finding} {f : Finding} : f ∈ ordered findings ↔ f ∈ findings :=
  List.mem_insertionSort _

theorem ordered_pairwise {findings : List Finding} (hne : ∀ f ∈ findings, f.start < f.stop) :
    (ordered findings).Pairwise (Earlier Finding.start Finding.stop) := by
  have htotal : Std.Total fun f g : Finding => (f.le g : Prop) := ⟨Finding.le_total⟩
  have htrans : IsTrans Finding fun f g => f.le g := ⟨fun _ _ _ => Finding.le_trans⟩
  have hsorted := List.pairwise_insertionSort (fun f g : Finding => f.le g) findings
  refine hsorted.imp_of_mem ?_
  intro f g hf hg hle
  exact Finding.earlier_of_le (hne f (mem_ordered.mp hf)) (hne g (mem_ordered.mp hg)) hle

theorem resolveOverlaps_eq_greedy (findings : List Finding) :
    resolveOverlaps findings = greedy Finding.start Finding.stop 0 (ordered findings) := by
  rw [resolveOverlaps]
  split
  · rename_i hlen
    -- One finding is kept as it is, by the greedy pass too.
    match findings, hlen with
    | [], _ => rfl
    | [f], _ => rw [ordered, List.insertionSort, List.foldr, List.foldr, List.orderedInsert, greedy,
        if_pos (Nat.zero_le _), greedy]
  · exact keepDisjoint_eq_greedy 0 _

theorem scan_eq_greedy (env : ScanEnv) (enabled : Option (List PIICategory)) (text : List Char) :
    scan env enabled text =
      greedy Finding.start Finding.stop 0 (ordered (accepted env enabled text)) := by
  rw [scan]
  split
  · rename_i hempty
    rw [List.isEmpty_iff.mp hempty, accepted_nil]
    rfl
  · exact resolveOverlaps_eq_greedy _

inductive Origin
  | text (position : ℕ)
  | token (c : Char)
deriving DecidableEq

def trace (length : ℕ) (findings : List Finding) : List Origin :=
  splice (fun category => (redaction category).toList.map .token)
    ((List.range length).map .text) findings

def Origin.char (source : List Char) : Origin → Option Char
  | .text position => source[position]?
  | .token c => some c

theorem splice_map {α β : Type} (h : α → β) (token : PIICategory → List α) (text : List α)
    (findings : List Finding) :
    (splice token text findings).map h =
      splice (fun category => (token category).map h) (text.map h) findings := by
  rw [splice, splice]
  split
  · rfl
  · generalize findings.insertionSort (fun f g => g.start ≤ f.start) = fs
    induction fs generalizing text with
    | nil => rfl
    | cons f fs ih =>
      simp only [List.foldl_cons]
      rw [ih]
      simp only [List.map_append, List.map_take, List.map_drop]

theorem trace_char (text : List Char) (findings : List Finding) :
    (trace text.length findings).map (Origin.char text) = (mask text findings).map some := by
  have hsource : (List.range text.length).map (Origin.char text ∘ .text) = text.map some := by
    apply List.ext_getElem
    · simp
    · intro i hi hi'
      simp [Origin.char]
  rw [trace, mask, splice_map, splice_map]
  simp only [List.map_map, hsource]
  rfl

def cut {α : Type} (token : PIICategory → List α) (out : List α) (f : Finding) : List α :=
  out.take f.start ++ token f.category ++ out.drop f.stop

/-- Splicing from the right: what is left of a text of positions in front of `tail` is what
no finding covers. -/
theorem mem_foldl_cut (token : PIICategory → List Origin) {i : ℕ}
    (htoken : ∀ category, Origin.text i ∉ token category) (fs : List Finding)
    (hfs : fs.Pairwise fun f g => g.stop ≤ f.start) (p : ℕ)
    (hp : ∀ f ∈ fs, f.start < f.stop ∧ f.stop ≤ p) (tail : List Origin) :
    Origin.text i ∈ fs.foldl (cut token) ((List.range p).map .text ++ tail) ↔
      (i < p ∧ ∀ f ∈ fs, ¬ Covers Finding.start Finding.stop f i) ∨ Origin.text i ∈ tail := by
  induction fs generalizing p tail with
  | nil => simp
  | cons f fs ih =>
    obtain ⟨hfirst, hfs⟩ := List.pairwise_cons.mp hfs
    obtain ⟨hne, hfp⟩ := hp f List.mem_cons_self
    have hhead : ((List.range p).map Origin.text ++ tail).take f.start =
        (List.range f.start).map .text := by
      rw [List.take_append_of_le_length (by simp; omega), ← List.map_take, List.take_range,
        min_eq_left (by omega)]
    have hback : ((List.range p).map Origin.text ++ tail).drop f.stop =
        ((List.range p).drop f.stop).map .text ++ tail := by
      rw [List.drop_append_of_le_length (by simp; omega), ← List.map_drop]
    have hdropped : Origin.text i ∈ ((List.range p).drop f.stop).map .text ↔ f.stop ≤ i ∧ i < p := by
      rw [List.range_eq_range', List.drop_range']
      simp
      omega
    rw [List.foldl_cons, cut, hhead, hback, List.append_assoc,
      ih hfs f.start (fun g hg => ⟨(hp g (List.mem_cons_of_mem f hg)).1, hfirst g hg⟩)]
    simp only [List.mem_append, htoken, false_or, hdropped]
    constructor
    · rintro (⟨hlt, hnot⟩ | hbehind | htail)
      · left
        refine ⟨by omega, List.forall_mem_cons.mpr ⟨?_, hnot⟩⟩
        exact fun hcover => absurd hcover.1 (not_le.mpr hlt)
      · left
        refine ⟨hbehind.2, List.forall_mem_cons.mpr ⟨?_, ?_⟩⟩
        · exact fun hcover => absurd hcover.2 (not_lt.mpr hbehind.1)
        · -- The other findings end in front of `f`.
          intro g hg hcover
          have hgf := hfirst g hg
          have hig := hcover.2
          omega
      · exact Or.inr htail
    · rintro (⟨hlt, hnot⟩ | htail)
      · obtain ⟨hnotf, hnot⟩ := List.forall_mem_cons.mp hnot
        by_cases hstart : i < f.start
        · exact Or.inl ⟨hstart, hnot⟩
        · right
          left
          refine ⟨?_, hlt⟩
          by_contra hstop
          exact hnotf ⟨not_lt.mp hstart, not_le.mp hstop⟩
      · exact Or.inr (Or.inr htail)

theorem mem_trace {length i : ℕ} {findings : List Finding}
    (hdisjoint : findings.Pairwise fun f g => f.stop ≤ g.start)
    (hbounds : ∀ f ∈ findings, f.start < f.stop ∧ f.stop ≤ length) :
    Origin.text i ∈ trace length findings ↔
      i < length ∧ ∀ f ∈ findings, ¬ Covers Finding.start Finding.stop f i := by
  -- A position survives the masking of disjoint findings exactly when none covers it.
  rw [trace, splice]
  split
  · rename_i hempty
    simp [List.isEmpty_iff.mp hempty]
  · set fs := findings.insertionSort (fun f g => g.start ≤ f.start) with hfs
    have hmem : ∀ f, f ∈ fs ↔ f ∈ findings := fun f => List.mem_insertionSort _
    have hsorted : fs.Pairwise fun f g => g.start ≤ f.start := by
      have htotal : Std.Total fun f g : Finding => g.start ≤ f.start :=
        ⟨fun f g => le_total g.start f.start⟩
      have htrans : IsTrans Finding fun f g => g.start ≤ f.start := ⟨fun _ _ _ h h' => h'.trans h⟩
      exact List.pairwise_insertionSort _ findings
    have hapart : fs.Pairwise fun f g => f.stop ≤ g.start ∨ g.stop ≤ f.start := by
      exact (hdisjoint.imp Or.inl).perm (List.perm_insertionSort _ findings).symm fun h => h.symm
    have hback : fs.Pairwise fun f g => g.stop ≤ f.start := by
      refine (hsorted.and hapart).imp_of_mem ?_
      rintro f g hf _ ⟨hle, hbefore | hbehind⟩
      · have hne := (hbounds f ((hmem f).mp hf)).1
        omega
      · exact hbehind
    have hkeep := mem_foldl_cut (fun category => (redaction category).toList.map Origin.token)
      (i := i) (by simp) fs hback length (fun f hf => hbounds f ((hmem f).mp hf)) []
    simp only [List.append_nil, List.not_mem_nil, or_false, hmem] at hkeep
    exact hkeep

def Redacted (env : ScanEnv) (enabled : Option (List PIICategory)) (text : List Char) : Prop :=
  ∀ f ∈ accepted env enabled text, ∀ i, f.start ≤ i → i < f.stop →
    Origin.text i ∉ trace text.length (scan env enabled text)

theorem survives_iff {env : ScanEnv} {enabled : Option (List PIICategory)} {text : List Char}
    {i : ℕ} (hi : i < text.length) :
    Origin.text i ∈ trace text.length (scan env enabled text) ↔
      ∀ f ∈ scan env enabled text, ¬ Covers Finding.start Finding.stop f i := by
  have hsub : ∀ f ∈ scan env enabled text, f ∈ accepted env enabled text := by
    intro f hf
    rw [scan_eq_greedy] at hf
    exact mem_ordered.mp (greedy_subset _ _ hf)
  have hdisjoint : (scan env enabled text).Pairwise fun f g => f.stop ≤ g.start := by
    rw [scan_eq_greedy]
    exact (greedy_disjoint 0 _ fun f hf => (accepted_bounds (mem_ordered.mp hf)).1).2
  rw [mem_trace hdisjoint fun f hf => accepted_bounds (hsub f hf)]
  exact and_iff_right hi

/-- Masking covers the accepted spans exactly when every end that the walk over them stops
at inside a span is the start of another. -/
theorem redacted_iff_continued (env : ScanEnv) (enabled : Option (List PIICategory))
    (text : List Char) :
    Redacted env enabled text ↔
      Continued Finding.start Finding.stop {f | f ∈ accepted env enabled text} := by
  set spans := ordered (accepted env enabled text) with hspans
  have hne : ∀ f ∈ spans, f.start < f.stop := fun f hf => (accepted_bounds (mem_ordered.mp hf)).1
  have hsorted : spans.Pairwise (Earlier Finding.start Finding.stop) :=
    ordered_pairwise fun f hf => (accepted_bounds hf).1
  have hset : {f | f ∈ spans} = {f | f ∈ accepted env enabled text} := by
    ext f
    exact mem_ordered
  rw [← hset, ← greedy_covers_iff hsorted hne, hspans, ← scan_eq_greedy]
  constructor
  · intro hred f hf i hcover
    have hf := mem_ordered.mp hf
    have hi : i < text.length := hcover.2.trans_le (accepted_bounds hf).2
    have hgone := hred f hf i hcover.1 hcover.2
    rw [survives_iff hi] at hgone
    push Not at hgone
    exact hgone
  · intro hcover f hf i hstart hstop hleft
    have hi : i < text.length := hstop.trans_le (accepted_bounds hf).2
    obtain ⟨k, hk, hki⟩ := hcover f (mem_ordered.mpr hf) i ⟨hstart, hstop⟩
    exact (survives_iff hi).mp hleft k hk hki

def overlapText : List Char := "(212) 555-1234.bob@x.com".toList

theorem accepted_overlapText : accepted asciiEnv none overlapText =
    [⟨.email, 6, 24, .low⟩, ⟨.phone, 0, 14, .medium⟩] := by
  have hfront : (rules.take 12).flatMap (Rule.findings asciiEnv overlapText) =
      [⟨.email, 6, 24, .low⟩, ⟨.phone, 0, 14, .medium⟩] := by
    decide +kernel
  have hkeys : ((rules.drop 12).take 14).flatMap (Rule.findings asciiEnv overlapText) = [] := by
    decide +kernel
  have hrest : (rules.drop 26).flatMap (Rule.findings asciiEnv overlapText) = [] := by
    decide +kernel
  rw [accepted_parts asciiEnv overlapText 12, hfront, ← List.take_append_drop 14 (rules.drop 12),
    List.flatMap_append, hkeys, List.drop_drop, hrest]
  rfl

theorem scan_overlapText : scan asciiEnv none overlapText = [⟨.phone, 0, 14, .medium⟩] := by
  rw [scan, if_neg (by decide), accepted_overlapText]
  decide

/-- The telephone number starts first and the address inside it: the address is dropped, and
what of it is behind the number stays in the text. -/
theorem overlap_leaves_address :
    accepted asciiEnv none overlapText = [⟨.email, 6, 24, .low⟩, ⟨.phone, 0, 14, .medium⟩] ∧
      mask overlapText (scan asciiEnv none overlapText) = "«PHONE».bob@x.com".toList ∧
      ¬ Redacted asciiEnv none overlapText := by
  refine ⟨accepted_overlapText, ?_, ?_⟩
  · rw [scan_overlapText]
    decide
  · intro hred
    rw [Redacted, accepted_overlapText, scan_overlapText] at hred
    exact hred ⟨.email, 6, 24, .low⟩ (by simp) 15 (by decide) (by decide) (by decide)

end Memclaw.Governance
