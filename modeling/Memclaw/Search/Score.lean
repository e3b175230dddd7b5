import Mathlib.Algebra.Order.Field.Basic
import Mathlib.Algebra.Order.Field.Rat
import Mathlib.Tactic.GCongr
import Mathlib.Tactic.Linarith
import Mathlib.Tactic.NormNum
import Mathlib.Tactic.Ring

/-! The freshness and the recall boost of `memory_scored_search`, over exact rationals. Times are
seconds since the epoch. -/

namespace Memclaw.Search

def typeDecayDays : List (String × ℕ) := [
  ("preference", 365), ("decision", 180), ("fact", 120), ("semantic", 120), ("commitment", 120),
  ("outcome", 90), ("plan", 60), ("intention", 60), ("episode", 45), ("task", 30), ("action", 30),
  ("cancellation", 14), ("rule", 365), ("insight", 90)]

def recallBoostScale : ℕ := 10

structure ScoreProfile where
  freshnessFloor : ℚ
  freshnessDecayDays : ℕ
  recallBoostCap : ℚ
  recallDecayWindowDays : ℕ
  floorRange : 0 ≤ freshnessFloor ∧ freshnessFloor ≤ 1
  decayRange : 7 ≤ freshnessDecayDays ∧ freshnessDecayDays ≤ 730
  capRange : 1 ≤ recallBoostCap ∧ recallBoostCap ≤ 3
  windowRange : 7 ≤ recallDecayWindowDays ∧ recallDecayWindowDays ≤ 365

structure ScoreRow where
  memoryType : String
  createdAt : ℚ
  tsValidStart : Option ℚ
  tsValidEnd : Option ℚ
  lastRecalledAt : Option ℚ
  recallCount : ℕ

variable (p : ScoreProfile) (enabled : Bool) (now : ℚ) (row : ScoreRow)

def ScoreRow.anchor : ℚ := max row.createdAt (row.tsValidStart.getD row.createdAt)

def ScoreRow.ageDays : ℚ := (now - row.anchor) / 86400

def typeDecay : ℚ := ((typeDecayDays.lookup row.memoryType).getD p.freshnessDecayDays : ℕ)

/-- Without an end of validity the age is clamped at 0. -/
def freshness : ℚ :=
  match row.tsValidEnd with
  | some tsValidEnd => if tsValidEnd < now then p.freshnessFloor else 1
  | none =>
    if row.ageDays now < typeDecay p row then
      1 - (max 0 (row.ageDays now) / typeDecay p row) * (1 - p.freshnessFloor)
    else p.freshnessFloor

def ScoreRow.daysSinceRecall : ℚ := (now - row.lastRecalledAt.getD row.createdAt) / 86400

/-- The days are not clamped here. -/
def recencyFactor : ℚ := max 0 (1 - row.daysSinceRecall now / p.recallDecayWindowDays)

def recallBoost : ℚ :=
  if enabled then
    1 + (p.recallBoostCap - 1) * recencyFactor p now row * row.recallCount /
      (row.recallCount + recallBoostScale)
  else 1

def ScoreRow.touched : ScoreRow :=
  { row with createdAt := now, tsValidStart := none, lastRecalledAt := some now }

variable {p now row}

theorem typeDecay_pos : 0 < typeDecay p row := by
  have hall : ∀ entry ∈ typeDecayDays, 0 < entry.2 := by decide
  rw [typeDecay, Nat.cast_pos]
  cases hlookup : typeDecayDays.lookup row.memoryType with
  | none => exact lt_of_lt_of_le (by decide) p.decayRange.1
  | some days =>
    obtain ⟨front, back, hsplit, -⟩ := List.lookup_eq_some_iff.mp hlookup
    exact hall (row.memoryType, days) (by rw [hsplit]; simp)

theorem freshness_of_open (h : row.tsValidEnd = none) :
    freshness p now row = 1 - min 1 (max 0 (row.ageDays now) / typeDecay p row) *
      (1 - p.freshnessFloor) := by
  have hpos : 0 < typeDecay p row := typeDecay_pos
  rw [freshness, h]
  dsimp only
  split
  · next hage =>
    have hle : max 0 (row.ageDays now) / typeDecay p row ≤ 1 :=
      (div_le_one hpos).mpr (max_le hpos.le hage.le)
    rw [min_eq_right hle]
  · next hage =>
    have hge : 1 ≤ max 0 (row.ageDays now) / typeDecay p row :=
      (one_le_div hpos).mpr ((not_lt.mp hage).trans (le_max_right _ _))
    rw [min_eq_left hge]
    ring

theorem freshness_range : p.freshnessFloor ≤ freshness p now row ∧ freshness p now row ≤ 1 := by
  obtain ⟨hfloor, hone⟩ := p.floorRange
  cases hend : row.tsValidEnd with
  | some tsValidEnd =>
    rw [freshness, hend]
    dsimp only
    split
    · exact ⟨le_rfl, hone⟩
    · exact ⟨hone, le_rfl⟩
  | none =>
    have hpos : 0 < typeDecay p row := typeDecay_pos
    have hshare : 0 ≤ min 1 (max 0 (row.ageDays now) / typeDecay p row) :=
      le_min zero_le_one (div_nonneg (le_max_left _ _) hpos.le)
    have hle : min 1 (max 0 (row.ageDays now) / typeDecay p row) ≤ 1 := min_le_left _ _
    rw [freshness_of_open hend]
    constructor
    · nlinarith
    · nlinarith

theorem freshness_antitone {other : ScoreRow} (htype : other.memoryType = row.memoryType)
    (hend : other.tsValidEnd = row.tsValidEnd) (hage : row.ageDays now ≤ other.ageDays now) :
    freshness p now other ≤ freshness p now row := by
  have hdecay : typeDecay p other = typeDecay p row := by rw [typeDecay, typeDecay, htype]
  cases hrow : row.tsValidEnd with
  | some tsValidEnd =>
    rw [freshness, freshness, hend, hrow]
  | none =>
    have hpos : 0 < typeDecay p row := typeDecay_pos
    have hfloor : 0 ≤ 1 - p.freshnessFloor := sub_nonneg.mpr p.floorRange.2
    rw [freshness_of_open hrow, freshness_of_open (hend.trans hrow), hdecay]
    gcongr

theorem freshness_le_touched (p : ScoreProfile) (now : ℚ) (row : ScoreRow) :
    freshness p now row ≤ freshness p now (row.touched now) := by
  -- A row is never fresher than one written just now.
  cases hend : row.tsValidEnd with
  | some tsValidEnd =>
    have hend' : (row.touched now).tsValidEnd = some tsValidEnd := hend
    rw [freshness, freshness, hend, hend']
  | none =>
    have hend' : (row.touched now).tsValidEnd = none := hend
    have hage : (row.touched now).ageDays now = 0 := by
      show (now - max now now) / 86400 = 0
      rw [max_self, sub_self, zero_div]
    rw [freshness_of_open hend', hage, max_self, zero_div, min_eq_right zero_le_one, zero_mul,
      sub_zero]
    exact freshness_range.2

theorem recallBoost_disabled : recallBoost p false now row = 1 := if_neg Bool.false_ne_true

theorem recallBoost_eq (p : ScoreProfile) (now : ℚ) (row : ScoreRow) :
    recallBoost p true now row = 1 + (p.recallBoostCap - 1) * recencyFactor p now row *
      (row.recallCount / (row.recallCount + recallBoostScale)) := by
  rw [recallBoost, if_pos rfl]
  ring

theorem window_pos (p : ScoreProfile) : (0 : ℚ) < p.recallDecayWindowDays := by
  exact_mod_cast lt_of_lt_of_le (by decide : 0 < 7) p.windowRange.1

theorem count_share_mono {m n : ℕ} (h : m ≤ n) :
    (m : ℚ) / (m + recallBoostScale) ≤ n / (n + recallBoostScale) := by
  have hle : (m : ℚ) ≤ n := by exact_mod_cast h
  have hm : (0 : ℚ) ≤ m := Nat.cast_nonneg m
  have hscale : (recallBoostScale : ℚ) = 10 := rfl
  rw [hscale, div_le_div_iff₀ (by linarith) (by linarith)]
  nlinarith

theorem count_share_range (n : ℕ) :
    (0 : ℚ) ≤ n / (n + recallBoostScale) ∧ (n : ℚ) / (n + recallBoostScale) ≤ 1 := by
  have hn : (0 : ℚ) ≤ n := Nat.cast_nonneg n
  have hscale : (0 : ℚ) ≤ recallBoostScale := Nat.cast_nonneg _
  exact ⟨div_nonneg hn (add_nonneg hn hscale),
    div_le_one_of_le₀ (le_add_of_nonneg_right hscale) (add_nonneg hn hscale)⟩

theorem recencyFactor_antitone {other : ScoreRow}
    (h : row.daysSinceRecall now ≤ other.daysSinceRecall now) :
    recencyFactor p now other ≤ recencyFactor p now row := by
  have hpos : (0 : ℚ) < p.recallDecayWindowDays := window_pos p
  unfold recencyFactor
  gcongr

theorem recencyFactor_touched (p : ScoreProfile) (now : ℚ) (row : ScoreRow) :
    recencyFactor p now (row.touched now) = 1 := by
  have hdays : (row.touched now).daysSinceRecall now = 0 := by
    show (now - now) / 86400 = 0
    rw [sub_self, zero_div]
  rw [recencyFactor, hdays, zero_div, sub_zero]
  exact max_eq_right zero_le_one

theorem recencyFactor_le_one_iff (p : ScoreProfile) (now : ℚ) (row : ScoreRow) :
    recencyFactor p now row ≤ 1 ↔ 0 ≤ row.daysSinceRecall now := by
  have hpos : (0 : ℚ) < p.recallDecayWindowDays := window_pos p
  rw [recencyFactor, max_le_iff, sub_le_self_iff, div_nonneg_iff]
  constructor
  · rintro ⟨-, ⟨h, -⟩ | ⟨-, h⟩⟩
    · exact h
    · exact absurd h (not_le.mpr hpos)
  · exact fun h => ⟨zero_le_one, .inl ⟨h, hpos.le⟩⟩

/-- What the two factors of a row promise. -/
structure FactorsInRange (p : ScoreProfile) (enabled : Bool) (now : ℚ) (row : ScoreRow) :
    Prop where
  freshness : p.freshnessFloor ≤ freshness p now row ∧ freshness p now row ≤ 1
  older : ∀ other : ScoreRow, other.memoryType = row.memoryType →
    other.tsValidEnd = row.tsValidEnd → row.ageDays now ≤ other.ageDays now →
      Search.freshness p now other ≤ Search.freshness p now row
  recalled : 1 ≤ recallBoost p enabled now row ∧ recallBoost p enabled now row ≤ p.recallBoostCap
  counted : ∀ n, row.recallCount ≤ n →
    recallBoost p enabled now row ≤ recallBoost p enabled now { row with recallCount := n }
  longer : ∀ other : ScoreRow, other.recallCount = row.recallCount →
    row.daysSinceRecall now ≤ other.daysSinceRecall now →
      recallBoost p enabled now other ≤ recallBoost p enabled now row
  touched : Search.freshness p now row ≤ Search.freshness p now (row.touched now) ∧
    recallBoost p enabled now row ≤ recallBoost p enabled now (row.touched now)

/-- The factors of all rows, but for the upper bound of the recall boost. -/
theorem factorsInRange_of_recall (h : recallBoost p enabled now row ≤
      recallBoost p enabled now (row.touched now)) : FactorsInRange p enabled now row := by
  have hcap : 0 ≤ p.recallBoostCap - 1 := sub_nonneg.mpr p.capRange.1
  have hrecency : ∀ other : ScoreRow, 0 ≤ recencyFactor p now other := fun _ => le_max_left _ _
  have hone : ∀ other : ScoreRow, 1 ≤ recallBoost p enabled now other := by
    intro other
    cases enabled with
    | false => exact le_rfl
    | true =>
      rw [recallBoost_eq]
      exact le_add_of_nonneg_right (mul_nonneg (mul_nonneg hcap (hrecency other))
        (count_share_range _).1)
  have htouched : recallBoost p enabled now (row.touched now) ≤ p.recallBoostCap := by
    cases enabled with
    | false => exact p.capRange.1
    | true =>
      rw [recallBoost_eq, recencyFactor_touched, mul_one]
      have hshare := (count_share_range (row.touched now).recallCount).2
      nlinarith
  refine ⟨freshness_range, fun other htype hend hage => freshness_antitone htype hend hage,
    ⟨hone row, h.trans htouched⟩, fun n hn => ?_, fun other hcount hdays => ?_,
    freshness_le_touched p now row, h⟩
  · cases enabled with
    | false => exact le_rfl
    | true =>
      rw [recallBoost_eq, recallBoost_eq]
      have hshare := count_share_mono hn
      have hsame : recencyFactor p now { row with recallCount := n } =
          recencyFactor p now row := rfl
      rw [hsame]
      exact add_le_add_right (mul_le_mul_of_nonneg_left hshare (mul_nonneg hcap (hrecency row))) 1
  · cases enabled with
    | false => exact le_rfl
    | true =>
      rw [recallBoost_eq, recallBoost_eq, hcount]
      have hless : recencyFactor p now other ≤ recencyFactor p now row :=
        recencyFactor_antitone hdays
      exact add_le_add_right (mul_le_mul_of_nonneg_right (mul_le_mul_of_nonneg_left hless hcap)
        (count_share_range _).1) 1

/-- The factors stay in range exactly where the boost is off or worth nothing, or the last recall
(or else the creation) is not in the future. -/
theorem factorsInRange_iff (p : ScoreProfile) (enabled : Bool) (now : ℚ) (row : ScoreRow) :
    FactorsInRange p enabled now row ↔ enabled = false ∨ p.recallBoostCap = 1 ∨
      row.recallCount = 0 ∨ row.lastRecalledAt.getD row.createdAt ≤ now := by
  have hdays : 0 ≤ row.daysSinceRecall now ↔ row.lastRecalledAt.getD row.createdAt ≤ now := by
    rw [ScoreRow.daysSinceRecall, ← sub_nonneg (b := row.lastRecalledAt.getD row.createdAt)]
    constructor
    · intro h
      by_contra hneg
      exact absurd h (not_le.mpr (div_neg_of_neg_of_pos (not_le.mp hneg) (by norm_num)))
    · exact fun h => div_nonneg h (by norm_num)
  have htouched : recallBoost p true now (row.touched now) = 1 + (p.recallBoostCap - 1) *
      (row.recallCount / (row.recallCount + recallBoostScale)) := by
    have hcount : (row.touched now).recallCount = row.recallCount := rfl
    rw [recallBoost_eq, recencyFactor_touched, mul_one, hcount]
  constructor
  · intro h
    by_contra hnot
    rw [not_or, not_or, not_or] at hnot
    obtain ⟨henabled, hcap, hcount, hfuture⟩ := hnot
    have hle := h.touched.2
    rw [Bool.not_eq_false] at henabled
    have hcap' : 0 < p.recallBoostCap - 1 :=
      sub_pos.mpr (lt_of_le_of_ne p.capRange.1 (Ne.symm hcap))
    have hcount' : (0 : ℚ) < row.recallCount := Nat.cast_pos.mpr (Nat.pos_of_ne_zero hcount)
    have hscale : (0 : ℚ) ≤ recallBoostScale := Nat.cast_nonneg _
    have hshare : (0 : ℚ) < row.recallCount / (row.recallCount + recallBoostScale) :=
      div_pos hcount' (add_pos_of_pos_of_nonneg hcount' hscale)
    have hrecency : 1 < recencyFactor p now row :=
      not_le.mp fun hle => hfuture (hdays.mp ((recencyFactor_le_one_iff p now row).mp hle))
    rw [henabled, htouched, recallBoost_eq] at hle
    have hless : (p.recallBoostCap - 1) * 1 < (p.recallBoostCap - 1) * recencyFactor p now row :=
      mul_lt_mul_of_pos_left hrecency hcap'
    have hmore := mul_lt_mul_of_pos_right hless hshare
    rw [mul_one] at hmore
    exact absurd (le_of_add_le_add_left hle) (not_le.mpr hmore)
  · intro h
    refine factorsInRange_of_recall enabled ?_
    cases enabled with
    | false => rw [recallBoost_disabled, recallBoost_disabled]
    | true =>
      rw [htouched, recallBoost_eq]
      rcases h with h | h | h | h
      · exact absurd h (by decide)
      · rw [h, sub_self, zero_mul, zero_mul]
      · rw [h, Nat.cast_zero, zero_div, mul_zero, mul_zero]
      · have hless : recencyFactor p now row ≤ 1 :=
          (recencyFactor_le_one_iff p now row).mpr (hdays.mpr h)
        have hcap : 0 ≤ p.recallBoostCap - 1 := sub_nonneg.mpr p.capRange.1
        have hshare := (count_share_range row.recallCount).1
        have hfactor := mul_le_mul_of_nonneg_left hless hcap
        rw [mul_one] at hfactor
        exact add_le_add_right (mul_le_mul_of_nonneg_right hfactor hshare) 1

def futureRow : ScoreRow := ⟨"fact", 0, none, none, some 6048000, 10⟩

theorem capThree_ranges : (0 : ℚ) ≤ 0 ∧ (0 : ℚ) ≤ 1 ∧ (1 : ℚ) ≤ 3 ∧ (3 : ℚ) ≤ 3 := by norm_num

theorem capThree_days : (7 ≤ 30 ∧ 30 ≤ 730) ∧ 7 ≤ 7 ∧ 7 ≤ 365 := by decide

def capThree : ScoreProfile where
  freshnessFloor := 0
  freshnessDecayDays := 30
  recallBoostCap := 3
  recallDecayWindowDays := 7
  floorRange := ⟨capThree_ranges.1, capThree_ranges.2.1⟩
  decayRange := capThree_days.1
  capRange := capThree_ranges.2.2
  windowRange := capThree_days.2

/-- Its boost is 12, against a cap of 3. -/
theorem not_factorsInRange_future : ¬FactorsInRange capThree true 0 futureRow := by
  intro h
  have hboost : recallBoost capThree true 0 futureRow = 12 := by decide +kernel
  have hle : (12 : ℚ) ≤ 3 := hboost.symm.trans_le h.recalled.2
  exact absurd hle (by norm_num)

end Memclaw.Search
