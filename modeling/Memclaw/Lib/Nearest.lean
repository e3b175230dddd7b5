import Memclaw.Lib.Binary64

/-! Rationals rounded to binary64, ties to even. The rounding is monotone over the whole range, from
the subnormal numbers to those that overflow. -/

namespace Memclaw.Lib.Binary64

/-- An overflow gives infinity, which is above every finite number; so is the first power of 2 that
the format does not have, and it stands for it. -/
def infinity : ℚ := 2 ^ 1024

def magnitude (n d : ℕ) : ℚ :=
  match ofFrac false n d with
  | some x => x.num / x.den
  | none => infinity

def nearest (q : ℚ) : ℚ :=
  if q < 0 then -magnitude q.num.natAbs q.den else magnitude q.num.natAbs q.den

theorem le_roundQuot {k p q : ℕ} (hq : 0 < q) (h : k * q ≤ p) : k ≤ roundQuot p q := by
  have hdiv : k ≤ p / q := (Nat.le_div_iff_mul_le hq).mpr h
  unfold roundQuot
  split_ifs <;> omega

theorem roundQuot_le_succ (p q : ℕ) : roundQuot p q ≤ p / q + 1 := by
  unfold roundQuot
  split_ifs <;> omega

theorem roundQuot_mono {p q p' q' : ℕ} (hq : 0 < q) (hq' : 0 < q') (h : p * q' ≤ p' * q) :
    roundQuot p q ≤ roundQuot p' q' := by
  have hdiv : p / q ≤ p' / q' := by
    rw [Nat.le_div_iff_mul_le hq']
    refine Nat.le_of_mul_le_mul_right ?_ hq
    calc p / q * q' * q = p / q * q * q' := Nat.mul_right_comm _ _ _
      _ ≤ p * q' := Nat.mul_le_mul_right q' (Nat.div_mul_le_self p q)
      _ ≤ p' * q := h
  rcases hdiv.lt_or_eq with hlt | heq
  · calc roundQuot p q ≤ p / q + 1 := roundQuot_le_succ p q
      _ ≤ p' / q' := hlt
      _ ≤ roundQuot p' q' := le_roundQuot hq' (Nat.div_mul_le_self p' q')
  · -- With the same whole part, the fractions decide, and a tie goes the same way.
    have hmod : (p % q) * q' ≤ (p' % q') * q := by
      have hp := Nat.div_add_mod p q
      have hp' := Nat.div_add_mod p' q'
      rw [← heq] at hp'
      nlinarith
    have hup : q ≤ 2 * (p % q) → q' ≤ 2 * (p' % q') := by
      intro hhalf
      refine Nat.le_of_mul_le_mul_right ?_ hq
      nlinarith
    have hover : q < 2 * (p % q) → q' < 2 * (p' % q') := by
      intro hhalf
      refine Nat.lt_of_mul_lt_mul_right (a := q) ?_
      nlinarith
    unfold roundQuot
    rw [← heq]
    split_ifs <;> omega

def targetExp (n d : ℕ) : ℤ := max (-1074) (floorLog2 n d - 52)

def significand (n d : ℕ) : ℕ :=
  roundQuot (n * 2 ^ (-targetExp n d).toNat) (d * 2 ^ (targetExp n d).toNat)

variable {n d n' d' : ℕ}

section

variable (hn : 0 < n) (hd : 0 < d)

include hd in
theorem scaled_div (e : ℤ) :
    ((n * 2 ^ (-e).toNat : ℕ) : ℚ) / (d * 2 ^ e.toNat : ℕ) = (n : ℚ) / d / 2 ^ e := by
  have hz := zpow_eq_toNat_div 2 e
  have hdq : (0 : ℚ) < d := by exact_mod_cast hd
  push_cast at hz ⊢
  rw [hz]
  field_simp

include hn hd in
theorem significand_le : significand n d ≤ 2 ^ 53 := by
  have hq : (0 : ℚ) < (n : ℚ) / d := by positivity
  have hlog : Int.log 2 ((n : ℚ) / d) < targetExp n d + 53 := by
    rw [targetExp, floorLog2_eq_log hn hd]
    omega
  have hlt : (n : ℚ) / d < 2 ^ (targetExp n d + 53) := by
    exact_mod_cast (Int.lt_zpow_iff_log_lt (by decide) hq).mpr hlog
  have hscaled : ((n * 2 ^ (-targetExp n d).toNat : ℕ) : ℚ) / (d * 2 ^ (targetExp n d).toNat : ℕ) <
      (2 ^ 53 : ℕ) := by
    rw [scaled_div hd, div_lt_iff₀ (by positivity)]
    calc (n : ℚ) / d < 2 ^ (targetExp n d + 53) := hlt
      _ = (2 ^ 53 : ℕ) * 2 ^ targetExp n d := by
        rw [zpow_add₀ (by norm_num), mul_comm]
        norm_cast
  have hden : 0 < d * 2 ^ (targetExp n d).toNat := Nat.mul_pos hd (Nat.two_pow_pos _)
  rw [div_lt_iff₀ (by exact_mod_cast hden)] at hscaled
  have hnat : n * 2 ^ (-targetExp n d).toNat < 2 ^ 53 * (d * 2 ^ (targetExp n d).toNat) := by
    exact_mod_cast hscaled
  have hquot := (Nat.div_lt_iff_lt_mul hden).mpr hnat
  exact (roundQuot_le_succ _ _).trans hquot

include hn hd in
theorem le_significand (h : -1074 < targetExp n d) : 2 ^ 52 ≤ significand n d := by
  have hq : (0 : ℚ) < (n : ℚ) / d := by positivity
  have hlog : targetExp n d + 52 ≤ Int.log 2 ((n : ℚ) / d) := by
    rw [targetExp, floorLog2_eq_log hn hd] at h ⊢
    omega
  have hle : (2 : ℚ) ^ (targetExp n d + 52) ≤ (n : ℚ) / d := by
    exact_mod_cast (Int.zpow_le_iff_le_log (by decide) hq).mpr hlog
  have hden : 0 < d * 2 ^ (targetExp n d).toNat := Nat.mul_pos hd (Nat.two_pow_pos _)
  refine le_roundQuot hden ?_
  have hscaled : ((2 ^ 52 : ℕ) : ℚ) ≤
      ((n * 2 ^ (-targetExp n d).toNat : ℕ) : ℚ) / (d * 2 ^ (targetExp n d).toNat : ℕ) := by
    rw [scaled_div hd, le_div_iff₀ (by positivity)]
    calc ((2 ^ 52 : ℕ) : ℚ) * 2 ^ targetExp n d = 2 ^ (targetExp n d + 52) := by
          rw [zpow_add₀ (by norm_num), mul_comm]
          norm_cast
      _ ≤ (n : ℚ) / d := hle
  rw [le_div_iff₀ (by exact_mod_cast hden)] at hscaled
  exact_mod_cast hscaled

end

theorem num_div_den (x : Binary64) : (x.num : ℚ) / x.den = x.mant * 2 ^ x.exp := by
  have hz := zpow_eq_toNat_div 2 x.exp
  push_cast at hz
  rw [hz]
  simp only [num, den]
  push_cast
  ring

theorem finite_eq {m : ℕ} {e : ℤ} (hm : m < 2 ^ 53) (he : -1074 ≤ e)
    (hcanonical : 2 ^ 52 ≤ m ∨ e = -1074) :
    (match mk? false m e with
      | some x => (x.num : ℚ) / x.den
      | none => infinity) = min ((m : ℚ) * 2 ^ e) infinity := by
  by_cases hmax : e ≤ 971
  · rw [mk?, dif_pos ⟨hm, he, hmax, hcanonical⟩]
    dsimp only
    rw [num_div_den, min_eq_left]
    calc (m : ℚ) * 2 ^ e ≤ 2 ^ 53 * 2 ^ (971 : ℤ) := by
          refine mul_le_mul (by exact_mod_cast hm.le) ?_ (by positivity) (by positivity)
          exact zpow_le_zpow_right₀ (by norm_num) hmax
      _ = infinity := by
        rw [infinity, ← zpow_natCast, ← zpow_natCast, ← zpow_add₀ (by norm_num)]
        norm_num
  · have hfull : 2 ^ 52 ≤ m := hcanonical.resolve_right (by omega)
    rw [mk?, dif_neg fun h => hmax h.2.2.1]
    dsimp only
    rw [min_eq_right]
    calc infinity = 2 ^ 52 * 2 ^ (972 : ℤ) := by
          rw [infinity, ← zpow_natCast, ← zpow_natCast, ← zpow_add₀ (by norm_num)]
          norm_num
      _ ≤ (m : ℚ) * 2 ^ e := by
        refine mul_le_mul (by exact_mod_cast hfull) ?_ (by positivity) (by positivity)
        exact zpow_le_zpow_right₀ (by norm_num) (by omega)

theorem magnitude_eq (hn : 0 < n) (hd : 0 < d) :
    magnitude n d = min ((significand n d : ℚ) * 2 ^ targetExp n d) infinity := by
  have hle := significand_le hn hd
  have hmin : -1074 ≤ targetExp n d := le_max_left _ _
  have hfrac : ofFrac false n d = if significand n d = 2 ^ 53 then
      mk? false (2 ^ 52) (targetExp n d + 1) else mk? false (significand n d) (targetExp n d) :=
    if_neg hn.ne'
  rw [magnitude, hfrac]
  split_ifs with htop
  · rw [finite_eq (by norm_num) (by omega) (.inl le_rfl), htop, zpow_add₀ (by norm_num)]
    congr 1
    push_cast
    ring
  · refine finite_eq (by omega) hmin ?_
    rcases hmin.lt_or_eq with hlt | heq
    · exact .inl (le_significand hn hd hlt)
    · exact .inr heq.symm

theorem magnitude_zero (d : ℕ) : magnitude 0 d = 0 := by
  have hfrac : ofFrac false 0 d = mk? false 0 (-1074) := if_pos rfl
  rw [magnitude, hfrac, finite_eq (by norm_num) (by norm_num) (.inr rfl), Nat.cast_zero, zero_mul]
  exact min_eq_left (by unfold infinity; positivity)

theorem magnitude_nonneg (n : ℕ) (hd : 0 < d) : 0 ≤ magnitude n d := by
  rcases Nat.eq_zero_or_pos n with rfl | hn
  · exact (magnitude_zero d).ge
  · rw [magnitude_eq hn hd]
    exact le_min (by positivity) (by unfold infinity; positivity)

theorem targetExp_mono (hn : 0 < n) (hd : 0 < d) (hn' : 0 < n') (hd' : 0 < d')
    (h : n * d' ≤ n' * d) : targetExp n d ≤ targetExp n' d' := by
  have hq : (n : ℚ) / d ≤ n' / d' := by
    rw [div_le_div_iff₀ (by exact_mod_cast hd) (by exact_mod_cast hd')]
    exact_mod_cast h
  have hlog := Int.log_mono_right (b := 2) (by positivity : (0 : ℚ) < n / d) hq
  rw [targetExp, targetExp, floorLog2_eq_log hn hd, floorLog2_eq_log hn' hd']
  omega

theorem rounded_mono (hn : 0 < n) (hd : 0 < d) (hn' : 0 < n') (hd' : 0 < d')
    (h : n * d' ≤ n' * d) : (significand n d : ℚ) * 2 ^ targetExp n d ≤
      significand n' d' * 2 ^ targetExp n' d' := by
  rcases (targetExp_mono hn hd hn' hd' h).lt_or_eq with hlt | heq
  · -- The binades differ: the first significand is at most full, the second at least.
    have hfull := le_significand hn' hd' ((le_max_left _ _).trans_lt hlt)
    calc (significand n d : ℚ) * 2 ^ targetExp n d ≤ 2 ^ 53 * 2 ^ targetExp n d := by
          gcongr
          exact_mod_cast significand_le hn hd
      _ = 2 ^ 52 * 2 ^ (targetExp n d + 1) := by
        rw [zpow_add₀ (by norm_num)]
        ring
      _ ≤ significand n' d' * 2 ^ targetExp n' d' := by
        refine mul_le_mul (by exact_mod_cast hfull) ?_ (by positivity) (by positivity)
        exact zpow_le_zpow_right₀ (by norm_num) hlt
  · have hmono : significand n d ≤ significand n' d' := by
      unfold significand
      rw [← heq]
      refine roundQuot_mono (by positivity) (by positivity) ?_
      calc n * 2 ^ (-targetExp n d).toNat * (d' * 2 ^ (targetExp n d).toNat)
          = n * d' * (2 ^ (-targetExp n d).toNat * 2 ^ (targetExp n d).toNat) := by ring
        _ ≤ n' * d * (2 ^ (-targetExp n d).toNat * 2 ^ (targetExp n d).toNat) := by gcongr
        _ = n' * 2 ^ (-targetExp n d).toNat * (d * 2 ^ (targetExp n d).toNat) := by ring
    rw [heq]
    gcongr

theorem magnitude_mono (hd : 0 < d) (hd' : 0 < d') (h : n * d' ≤ n' * d) :
    magnitude n d ≤ magnitude n' d' := by
  rcases Nat.eq_zero_or_pos n with rfl | hn
  · rw [magnitude_zero]
    exact magnitude_nonneg n' hd'
  · have hn' : 0 < n' := Nat.pos_of_mul_pos_right ((Nat.mul_pos hn hd').trans_le h)
    rw [magnitude_eq hn hd, magnitude_eq hn' hd']
    exact min_le_min_right _ (rounded_mono hn hd hn' hd' h)

theorem nearest_nonneg {q : ℚ} (h : 0 ≤ q) : nearest q = magnitude q.num.natAbs q.den :=
  if_neg (not_lt.mpr h)

theorem nearest_neg {q : ℚ} (h : q < 0) : nearest q = -magnitude q.num.natAbs q.den := if_pos h

theorem nearest_mono : Monotone nearest := by
  intro q q' h
  have hcross : q.num * q'.den ≤ q'.num * q.den := (Rat.le_iff q q').mp h
  have hnonneg := magnitude_nonneg q.num.natAbs q.pos
  have hnonneg' := magnitude_nonneg q'.num.natAbs q'.pos
  rcases lt_or_ge q 0 with hq | hq
  · rcases lt_or_ge q' 0 with hq' | hq'
    · rw [nearest_neg hq, nearest_neg hq', neg_le_neg_iff]
      refine magnitude_mono q'.pos q.pos ?_
      zify
      rw [abs_of_neg (Rat.num_neg.mpr hq), abs_of_neg (Rat.num_neg.mpr hq')]
      linarith
    · rw [nearest_neg hq, nearest_nonneg hq']
      linarith
  · rw [nearest_nonneg hq, nearest_nonneg (hq.trans h)]
    refine magnitude_mono q.pos q'.pos ?_
    zify
    rwa [abs_of_nonneg (Rat.num_nonneg.mpr hq), abs_of_nonneg (Rat.num_nonneg.mpr (hq.trans h))]

end Memclaw.Lib.Binary64
