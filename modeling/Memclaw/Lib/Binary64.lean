import Mathlib.Data.Int.Log
import Mathlib.Data.Rat.Floor
import Mathlib.Tactic
import Memclaw.Lib.Binary64Defs

/-! Soundness of the decimal conversions: every finite number is read back from
the text `repr` prints for it, and rounding depends on the ratio alone. -/

namespace Memclaw.Lib.Binary64

theorem zpow_eq_toNat_div (b : ℕ) (k : ℤ) :
    (b : ℚ) ^ k = (b : ℚ) ^ k.toNat / (b : ℚ) ^ (-k).toNat := by
  rcases le_total 0 k with hk | hk
  · obtain ⟨n, rfl⟩ := Int.eq_ofNat_of_zero_le hk
    simp
  · obtain ⟨n, hn⟩ := Int.eq_ofNat_of_zero_le (neg_nonneg.mpr hk)
    have hkn : k = -(n : ℤ) := by omega
    subst hkn
    simp

theorem scaled_le_iff (n d : ℕ) (hd : 0 < d) (k : ℤ) :
    d * 2 ^ k.toNat ≤ n * 2 ^ (-k).toNat ↔ (2 : ℚ) ^ k ≤ (n : ℚ) / d := by
  have hz := zpow_eq_toNat_div 2 k
  have hdq : (0 : ℚ) < d := by exact_mod_cast hd
  have hpow : (0 : ℚ) < 2 ^ (-k).toNat := by positivity
  push_cast at hz
  rw [hz, div_le_div_iff₀ hpow hdq]
  constructor
  · intro h
    have hq : ((d * 2 ^ k.toNat : ℕ) : ℚ) ≤ ((n * 2 ^ (-k).toNat : ℕ) : ℚ) := by exact_mod_cast h
    push_cast at hq
    linarith
  · intro h
    have hq : (d : ℚ) * 2 ^ k.toNat ≤ n * 2 ^ (-k).toNat := by linarith
    exact_mod_cast hq

theorem floorLog2_eq_log {n d : ℕ} (hn : 0 < n) (hd : 0 < d) :
    floorLog2 n d = Int.log 2 ((n : ℚ) / d) := by
  have hq : (0 : ℚ) < (n : ℚ) / d := by positivity
  have hdq : (0 : ℚ) < d := by exact_mod_cast hd
  have hnlo : (2 : ℚ) ^ n.log2 ≤ n := by exact_mod_cast Nat.log2_self_le hn.ne'
  have hnhi : (n : ℚ) < 2 ^ (n.log2 + 1) := by exact_mod_cast Nat.lt_log2_self
  have hdlo : (2 : ℚ) ^ d.log2 ≤ d := by exact_mod_cast Nat.log2_self_le hd.ne'
  have hdhi : (d : ℚ) < 2 ^ (d.log2 + 1) := by exact_mod_cast Nat.lt_log2_self
  set k : ℤ := (n.log2 : ℤ) - d.log2 with hk
  -- the estimate is off by at most one, in one direction
  have hlow : (2 : ℚ) ^ (k - 1) ≤ (n : ℚ) / d := by
    rw [le_div_iff₀ hdq]
    calc (2 : ℚ) ^ (k - 1) * d ≤ 2 ^ (k - 1) * 2 ^ (d.log2 + 1) := by gcongr
      _ = 2 ^ n.log2 := by
        rw [← zpow_natCast, ← zpow_natCast, ← zpow_add₀ (by norm_num)]
        congr 1
        push_cast
        omega
      _ ≤ n := hnlo
  have hhigh : (n : ℚ) / d < 2 ^ (k + 1) := by
    rw [div_lt_iff₀ hdq]
    calc (n : ℚ) < 2 ^ (n.log2 + 1) := hnhi
      _ = 2 ^ (k + 1) * 2 ^ d.log2 := by
        rw [← zpow_natCast, ← zpow_natCast, ← zpow_add₀ (by norm_num)]
        congr 1
        push_cast
        omega
      _ ≤ 2 ^ (k + 1) * d := by gcongr
  have hlt : Int.log 2 ((n : ℚ) / d) < k + 1 :=
    (Int.lt_zpow_iff_log_lt (by decide) hq).mp (by exact_mod_cast hhigh)
  have hge : k - 1 ≤ Int.log 2 ((n : ℚ) / d) :=
    (Int.zpow_le_iff_le_log (by decide) hq).mp (by exact_mod_cast hlow)
  have hiff : d * 2 ^ k.toNat ≤ n * 2 ^ (-k).toNat ↔ k ≤ Int.log 2 ((n : ℚ) / d) := by
    rw [scaled_le_iff n d hd k, ← Int.zpow_le_iff_le_log (by decide) hq]
    norm_cast
  unfold floorLog2
  simp only [← hk]
  split_ifs with h
  · have := hiff.mp h
    omega
  · have := mt hiff.mpr h
    omega

theorem floorLog2_congr {n d n' d' : ℕ} (hn : 0 < n) (hd : 0 < d) (hn' : 0 < n') (hd' : 0 < d')
    (h : n * d' = n' * d) : floorLog2 n d = floorLog2 n' d' := by
  rw [floorLog2_eq_log hn hd, floorLog2_eq_log hn' hd']
  congr 1
  rw [div_eq_div_iff (by positivity) (by positivity)]
  exact_mod_cast h

theorem roundQuot_congr {p q p' q' : ℕ} (hq : 0 < q) (hq' : 0 < q') (h : p * q' = p' * q) :
    roundQuot p q = roundQuot p' q' := by
  have hdiv : p / q = p' / q' := by
    rw [← Nat.mul_div_mul_right p q hq', h, Nat.mul_comm q q', Nat.mul_div_mul_right p' q' hq]
  have hmod : (p % q) * q' = (p' % q') * q := by
    have hp : (p % q) * q' = p * q' - q * (p / q) * q' := by
      rw [← Nat.sub_mul, Nat.mod_eq_sub]
    have hp' : (p' % q') * q = p' * q - q' * (p' / q') * q := by
      rw [← Nat.sub_mul, Nat.mod_eq_sub]
    rw [hp, hp', h, hdiv]
    congr 1
    ring
  have hlt : 2 * (p % q) < q ↔ 2 * (p' % q') < q' := by
    constructor
    · intro hl
      have : 2 * (p' % q') * q < q' * q := by nlinarith
      exact Nat.lt_of_mul_lt_mul_right this
    · intro hl
      have : 2 * (p % q) * q' < q * q' := by nlinarith
      exact Nat.lt_of_mul_lt_mul_right this
  have hgt : q < 2 * (p % q) ↔ q' < 2 * (p' % q') := by
    constructor
    · intro hl
      have : q' * q < 2 * (p' % q') * q := by nlinarith
      exact Nat.lt_of_mul_lt_mul_right this
    · intro hl
      have : q * q' < 2 * (p % q) * q' := by nlinarith
      exact Nat.lt_of_mul_lt_mul_right this
  unfold roundQuot
  simp only [hlt, hgt, hdiv]

/-- Rounding sees the fraction only through its value. -/
theorem ofFrac_congr (neg : Bool) {n d n' d' : ℕ} (hd : 0 < d) (hd' : 0 < d')
    (h : n * d' = n' * d) : ofFrac neg n d = ofFrac neg n' d' := by
  have hzero : n = 0 ↔ n' = 0 := by
    constructor
    · rintro rfl
      have : n' * d = 0 := by omega
      exact (Nat.mul_eq_zero.mp this).resolve_right hd.ne'
    · rintro rfl
      have : n * d' = 0 := by omega
      exact (Nat.mul_eq_zero.mp this).resolve_right hd'.ne'
  unfold ofFrac
  by_cases hn : n = 0
  · rw [if_pos hn, if_pos (hzero.mp hn)]
  · have hn' : n' ≠ 0 := fun h0 => hn (hzero.mpr h0)
    have hlog := floorLog2_congr (Nat.pos_of_ne_zero hn) hd (Nat.pos_of_ne_zero hn') hd' h
    rw [if_neg hn, if_neg hn', hlog]
    have hround : ∀ e : ℤ, roundQuot (n * 2 ^ (-e).toNat) (d * 2 ^ e.toNat) =
        roundQuot (n' * 2 ^ (-e).toNat) (d' * 2 ^ e.toNat) := by
      intro e
      apply roundQuot_congr (by positivity) (by positivity)
      calc n * 2 ^ (-e).toNat * (d' * 2 ^ e.toNat)
          = n * d' * (2 ^ (-e).toNat * 2 ^ e.toNat) := by ring
        _ = n' * d * (2 ^ (-e).toNat * 2 ^ e.toNat) := by rw [h]
        _ = n' * 2 ^ (-e).toNat * (d * 2 ^ e.toNat) := by ring
    simp only [hround]

theorem den_pos (x : Binary64) : 0 < x.den := Nat.two_pow_pos _

theorem roundQuot_mul (m q : ℕ) (hq : 0 < q) : roundQuot (m * q) q = m := by
  unfold roundQuot
  rw [Nat.mul_mod_left, if_pos (by omega), Nat.mul_div_cancel m hq]

theorem floorLog2_self (x : Binary64) (hm : x.mant ≠ 0) :
    floorLog2 x.num x.den = x.mant.log2 + x.exp := by
  have hmant : 0 < x.mant := Nat.pos_of_ne_zero hm
  have hnum : 0 < x.num := Nat.mul_pos hmant (Nat.two_pow_pos _)
  have hval : (x.num : ℚ) / x.den = x.mant * 2 ^ x.exp := by
    have hz := zpow_eq_toNat_div 2 x.exp
    push_cast at hz
    rw [hz]
    simp only [num, den]
    push_cast
    ring
  have hlo : (2 : ℚ) ^ x.mant.log2 ≤ x.mant := by exact_mod_cast Nat.log2_self_le hm
  have hhi : (x.mant : ℚ) < 2 ^ (x.mant.log2 + 1) := by exact_mod_cast Nat.lt_log2_self
  have hexp : (0 : ℚ) < 2 ^ x.exp := by positivity
  rw [floorLog2_eq_log hnum x.den_pos, hval]
  have hpos : (0 : ℚ) < x.mant * 2 ^ x.exp := by positivity
  have hge : (x.mant.log2 : ℤ) + x.exp ≤ Int.log 2 ((x.mant : ℚ) * 2 ^ x.exp) := by
    refine (Int.zpow_le_iff_le_log (by decide) hpos).mp ?_
    push_cast
    rw [zpow_add₀ (by norm_num), zpow_natCast]
    exact mul_le_mul_of_nonneg_right hlo hexp.le
  have hlt : Int.log 2 ((x.mant : ℚ) * 2 ^ x.exp) < (x.mant.log2 : ℤ) + x.exp + 1 := by
    refine (Int.lt_zpow_iff_log_lt (by decide) hpos).mp ?_
    push_cast
    rw [show (x.mant.log2 : ℤ) + x.exp + 1 = ((x.mant.log2 + 1 : ℕ) : ℤ) + x.exp by push_cast; ring,
      zpow_add₀ (by norm_num), zpow_natCast]
    exact mul_lt_mul_of_pos_right hhi hexp
  omega

theorem target_exp_self (x : Binary64) (hm : x.mant ≠ 0) :
    max (-1074) (floorLog2 x.num x.den - 52) = x.exp := by
  obtain ⟨hlt, hmin, -, hfull | hsub⟩ := x.canonical
  · have h1 : 52 ≤ x.mant.log2 := (Nat.le_log2 hm).mpr hfull
    have h2 : x.mant.log2 < 53 := (Nat.log2_lt hm).mpr hlt
    rw [floorLog2_self x hm]
    omega
  · have h2 : x.mant.log2 < 53 := (Nat.log2_lt hm).mpr hlt
    rw [floorLog2_self x hm]
    omega

theorem ofFrac_self (x : Binary64) : ofFrac x.neg x.num x.den = some x := by
  have hcan := x.canonical
  unfold ofFrac
  by_cases hm : x.mant = 0
  · have hexp : x.exp = -1074 := by
      rcases hcan.2.2.2 with h | h
      · omega
      · exact h
    rw [if_pos (by simp [num, hm]), mk?, dif_pos (by norm_num)]
    obtain ⟨neg, mant, exp, can⟩ := x
    subst hm hexp
    rfl
  · have hnum : x.num ≠ 0 := (Nat.mul_pos (Nat.pos_of_ne_zero hm) (Nat.two_pow_pos _)).ne'
    rw [if_neg hnum]
    simp only [target_exp_self x hm]
    have hround : roundQuot (x.num * 2 ^ (-x.exp).toNat) (x.den * 2 ^ x.exp.toNat) = x.mant := by
      have hreorder : x.num * 2 ^ (-x.exp).toNat = x.mant * (x.den * 2 ^ x.exp.toNat) := by
        simp only [num, den]
        ring
      rw [hreorder]
      exact roundQuot_mul _ _ (Nat.mul_pos x.den_pos (Nat.two_pow_pos _))
    rw [hround, if_neg (by omega), mk?, dif_pos hcan]

theorem candidate_rounds {x : Binary64} {k : ℤ} {digits : ℕ} (h : candidate x k = some digits) :
    ofDecimal x.neg digits k = some x := by
  unfold candidate at h
  simp only at h
  split_ifs at h with hboth hbelow habove
  · -- the nearer of two neighbours is one of them
    obtain ⟨hb, ha⟩ := hboth
    rw [← Option.some.inj h]
    unfold roundQuot
    split_ifs
    · exact hb
    · exact ha
    · rcases Nat.mod_two_eq_zero_or_one
        (x.num * 10 ^ (-k).toNat / (x.den * 10 ^ k.toNat)) with h0 | h1
      · rw [h0]; exact hb
      · rw [h1]; exact ha
  · rw [← Option.some.inj h]; exact hbelow
  · rw [← Option.some.inj h]; exact habove

theorem searchShortest_rounds (x : Binary64) (fuel : ℕ) (k : ℤ) :
    ofDecimal x.neg (searchShortest x fuel k).1 (searchShortest x fuel k).2 = some x := by
  induction fuel generalizing k with
  | zero =>
    rw [← ofFrac_self x]
    simp only [searchShortest, ofDecimal]
    apply ofFrac_congr x.neg (by positivity) x.den_pos
    simp only [num, den, Int.neg_neg, Int.toNat_natCast]
    rw [show (-((-x.exp).toNat : ℤ)).toNat = 0 by omega,
      show (10 : ℕ) ^ (-x.exp).toNat = 2 ^ (-x.exp).toNat * 5 ^ (-x.exp).toNat by
        rw [← Nat.mul_pow]]
    ring
  | succ fuel ih =>
    simp only [searchShortest]
    cases hc : candidate x k with
    | none => exact ih (k - 1)
    | some digits => exact candidate_rounds hc

theorem shortest_rounds (x : Binary64) : ofDecimal x.neg x.shortest.1 x.shortest.2 = some x := by
  unfold shortest
  split_ifs with hm
  · rw [← ofFrac_self x]
    apply ofFrac_congr x.neg (by norm_num) x.den_pos
    simp [num, hm]
  · exact searchShortest_rounds x _ _

theorem ofDecimal_congr (neg : Bool) {d d' : ℕ} {k k' : ℤ}
    (h : (d : ℚ) * 10 ^ k = d' * 10 ^ k') : ofDecimal neg d k = ofDecimal neg d' k' := by
  apply ofFrac_congr neg (by positivity) (by positivity)
  have hz := zpow_eq_toNat_div 10 k
  have hz' := zpow_eq_toNat_div 10 k'
  push_cast at hz hz'
  rw [hz, hz', ← mul_div_assoc, ← mul_div_assoc, div_eq_div_iff (by positivity) (by positivity)] at h
  exact_mod_cast h

def numberChars : List Char := ['0', '1', '2', '3', '4', '5', '6', '7', '8', '9', '.', 'e', '+', '-']

def AllDigits (cs : List Char) : Prop := ∀ c ∈ cs, c.isDigit = true

theorem mem_numberChars_of_isDigit {c : Char} (h : c.isDigit = true) : c ∈ numberChars := by
  simp only [Char.isDigit, Bool.and_eq_true, decide_eq_true_eq] at h
  have hlo : 48 ≤ c.val.toNat := UInt32.le_iff_toNat_le.mp h.1
  have hhi : c.val.toNat ≤ 57 := UInt32.le_iff_toNat_le.mp h.2
  have hc : c = Char.ofNat c.toNat := (Char.ofNat_toNat c).symm
  have hval : c.toNat = c.val.toNat := rfl
  rw [hc, hval]
  generalize c.val.toNat = n at hlo hhi
  interval_cases n <;> decide

theorem AllDigits.notMem {cs : List Char} (h : AllDigits cs) {c : Char} (hc : c.isDigit = false) :
    c ∉ cs := by
  intro hmem
  rw [h c hmem] at hc
  cases hc

theorem allDigits_toDigits (n : ℕ) : AllDigits (Nat.toDigits 10 n) := fun _ hc =>
  Nat.isDigit_of_mem_toDigits (by decide) (by decide) hc

theorem AllDigits.append {as bs : List Char} (ha : AllDigits as) (hb : AllDigits bs) :
    AllDigits (as ++ bs) := by
  intro c hc
  rcases List.mem_append.mp hc with h | h
  · exact ha c h
  · exact hb c h

theorem allDigits_replicate (n : ℕ) : AllDigits (List.replicate n '0') := by
  intro c hc
  rw [List.eq_of_mem_replicate hc]
  rfl

theorem takeWhile_split {c : Char} {as : List Char} (bs : List Char) (h : c ∉ as) :
    (as ++ c :: bs).takeWhile (· ≠ c) = as ∧ (as ++ c :: bs).dropWhile (· ≠ c) = c :: bs := by
  have hall : ∀ a ∈ as, decide (a ≠ c) = true := by
    intro a ha
    simpa using fun heq : a = c => h (heq ▸ ha)
  rw [List.takeWhile_append_of_pos hall, List.dropWhile_append_of_pos hall]
  simp

theorem takeWhile_all {c : Char} {as : List Char} (h : c ∉ as) :
    as.takeWhile (· ≠ c) = as ∧ as.dropWhile (· ≠ c) = [] := by
  have hall : ∀ a ∈ as, decide (a ≠ c) = true := by
    intro a ha
    simpa using fun heq : a = c => h (heq ▸ ha)
  rw [← List.append_nil as, List.takeWhile_append_of_pos hall, List.dropWhile_append_of_pos hall]
  simp

theorem readDecimal_fixed {whole fraction : List Char} (hw : AllDigits whole)
    (hf : AllDigits fraction) :
    readDecimal (whole ++ '.' :: fraction) =
      (Nat.ofDigitChars 10 (whole ++ fraction) 0, -(fraction.length : ℤ)) := by
  have hnoE : 'e' ∉ whole ++ '.' :: fraction := by
    simp only [List.mem_append, List.mem_cons, not_or]
    exact ⟨hw.notMem rfl, by decide, hf.notMem rfl⟩
  obtain ⟨ht, hd⟩ := takeWhile_all hnoE
  obtain ⟨hi, hr⟩ := takeWhile_split fraction (hw.notMem (c := '.') rfl)
  simp only [readDecimal, ht, hd, hi, hr, List.tail_nil, List.tail_cons, readExponent,
    Nat.ofDigitChars_nil]
  simp

theorem ofDigitChars_zeros_append (n : ℕ) (ds : List Char) :
    Nat.ofDigitChars 10 (List.replicate n '0' ++ ds) 0 = Nat.ofDigitChars 10 ds 0 := by
  rw [Nat.ofDigitChars_append, Nat.ofDigitChars_replicate_zero, Nat.mul_zero]

theorem readExponent_formatExponent (e : ℤ) : readExponent (formatExponent e) = e := by
  have hval : Nat.ofDigitChars 10
      (if (Nat.toDigits 10 e.natAbs).length < 2 then '0' :: Nat.toDigits 10 e.natAbs
        else Nat.toDigits 10 e.natAbs) 0 = e.natAbs := by
    split_ifs
    · rw [show '0' :: Nat.toDigits 10 e.natAbs = List.replicate 1 '0' ++ Nat.toDigits 10 e.natAbs
        from rfl, ofDigitChars_zeros_append, Nat.ofDigitChars_ten_toDigits]
    · exact Nat.ofDigitChars_ten_toDigits
  simp only [formatExponent]
  by_cases he : 0 ≤ e
  · rw [if_pos he]
    simp only [readExponent, hval]
    omega
  · rw [if_neg he]
    simp only [readExponent, hval]
    omega

theorem readDecimal_scientific {head fraction exponent : List Char} (hh : AllDigits head)
    (hf : AllDigits fraction) :
    readDecimal (head ++ (if fraction = [] then [] else '.' :: fraction) ++ 'e' :: exponent) =
      (Nat.ofDigitChars 10 (head ++ fraction) 0, readExponent exponent - fraction.length) := by
  by_cases hnil : fraction = []
  · subst hnil
    obtain ⟨ht, hd⟩ := takeWhile_split exponent (hh.notMem (c := 'e') rfl)
    obtain ⟨hi, hr⟩ := takeWhile_all (hh.notMem (c := '.') rfl)
    simp only [if_true, List.append_nil, readDecimal, ht, hd, hi, hr, List.tail_nil, List.tail_cons]
  · have hnoE : 'e' ∉ head ++ '.' :: fraction := by
      simp only [List.mem_append, List.mem_cons, not_or]
      exact ⟨hh.notMem rfl, by decide, hf.notMem rfl⟩
    obtain ⟨ht, hd⟩ := takeWhile_split exponent hnoE
    obtain ⟨hi, hr⟩ := takeWhile_split fraction (hh.notMem (c := '.') rfl)
    simp only [if_neg hnil, readDecimal, ht, hd, hi, hr, List.tail_cons]

theorem readDecimal_formatRepr {digits : List Char} (hd : AllDigits digits) (hne : digits ≠ [])
    (point : ℤ) :
    ((readDecimal (formatRepr digits point)).1 : ℚ) * 10 ^ (readDecimal (formatRepr digits point)).2 =
      Nat.ofDigitChars 10 digits 0 * 10 ^ (point - digits.length) := by
  have hlen : 0 < digits.length := List.length_pos_iff.mpr hne
  unfold formatRepr
  split_ifs with hfix hsmall hlarge
  · -- `0.000ddd`
    have hz : AllDigits (List.replicate (-point).toNat '0' ++ digits) :=
      (allDigits_replicate _).append hd
    have hone : AllDigits ['0'] := allDigits_replicate 1
    rw [show '0' :: '.' :: (List.replicate (-point).toNat '0' ++ digits) =
        ['0'] ++ '.' :: (List.replicate (-point).toNat '0' ++ digits) from rfl,
      readDecimal_fixed hone hz]
    simp only
    rw [show ['0'] ++ (List.replicate (-point).toNat '0' ++ digits) =
        List.replicate (1 + (-point).toNat) '0' ++ digits by
          rw [List.replicate_add, List.append_assoc]; rfl,
      ofDigitChars_zeros_append]
    congr 2
    simp only [List.length_append, List.length_replicate]
    push_cast
    omega
  · -- `ddd000.0`
    have hz : AllDigits (digits ++ List.replicate (point.toNat - digits.length) '0') :=
      hd.append (allDigits_replicate _)
    have hone : AllDigits ['0'] := allDigits_replicate 1
    rw [show digits ++ List.replicate (point.toNat - digits.length) '0' ++ ['.', '0'] =
        (digits ++ List.replicate (point.toNat - digits.length) '0') ++ '.' :: ['0'] from rfl,
      readDecimal_fixed hz hone]
    simp only
    rw [List.append_assoc, show List.replicate (point.toNat - digits.length) '0' ++ ['0'] =
        List.replicate (point.toNat - digits.length + 1) '0' by
          rw [List.replicate_add]; rfl,
      Nat.ofDigitChars_append, Nat.ofDigitChars_replicate_zero]
    have hexp : point - digits.length = ((point.toNat - digits.length + 1 : ℕ) : ℤ) + -1 := by
      push_cast
      omega
    rw [hexp, zpow_add₀ (by norm_num), zpow_natCast]
    push_cast
    simp only [List.length_singleton, Nat.cast_one]
    ring
  · -- `dd.dd`
    have htake : AllDigits (digits.take point.toNat) := fun c hc => hd c (List.mem_of_mem_take hc)
    have hdrop : AllDigits (digits.drop point.toNat) := fun c hc => hd c (List.mem_of_mem_drop hc)
    rw [readDecimal_fixed htake hdrop]
    simp only [List.take_append_drop]
    congr 2
    rw [List.length_drop]
    omega
  · -- `d.ddde±xx`
    have htake : AllDigits (digits.take 1) := fun c hc => hd c (List.mem_of_mem_take hc)
    have hdrop : AllDigits (digits.drop 1) := fun c hc => hd c (List.mem_of_mem_drop hc)
    simp only [formatScientific]
    rw [readDecimal_scientific htake hdrop]
    simp only [List.take_append_drop, readExponent_formatExponent]
    congr 2
    rw [List.length_drop]
    omega

/-- What `repr` prints, read as a decimal and rounded, is the number again. -/
theorem printed_rounds (x : Binary64) : ofDecimal x.neg x.printed.1 x.printed.2 = some x := by
  rw [← shortest_rounds x]
  apply ofDecimal_congr
  have h := readDecimal_formatRepr (allDigits_toDigits x.shortest.1) Nat.toDigits_ne_nil
    ((Nat.toDigits 10 x.shortest.1).length + x.shortest.2)
  rw [add_sub_cancel_left, Nat.ofDigitChars_ten_toDigits] at h
  exact h

theorem formatExponent_chars (e : ℤ) : ∀ c ∈ formatExponent e, c ∈ numberChars := by
  intro c hc
  simp only [formatExponent] at hc
  rcases List.mem_cons.mp hc with rfl | hc
  · split_ifs <;> decide
  · split_ifs at hc
    · rcases List.mem_cons.mp hc with rfl | hc
      · decide
      · exact mem_numberChars_of_isDigit (allDigits_toDigits _ c hc)
    · exact mem_numberChars_of_isDigit (allDigits_toDigits _ c hc)

theorem formatScientific_chars {digits : List Char} (hd : AllDigits digits) (e : ℤ) :
    ∀ c ∈ formatScientific digits e, c ∈ numberChars := by
  intro c hc
  simp only [formatScientific, List.mem_append, List.mem_cons] at hc
  rcases hc with (hc | hc) | rfl | hc
  · exact mem_numberChars_of_isDigit (hd c (List.mem_of_mem_take hc))
  · split_ifs at hc
    · simp at hc
    · rcases List.mem_cons.mp hc with rfl | hc
      · decide
      · exact mem_numberChars_of_isDigit (hd c (List.mem_of_mem_drop hc))
  · decide
  · exact formatExponent_chars e c hc

theorem formatRepr_chars {digits : List Char} (hd : AllDigits digits) (point : ℤ) :
    ∀ c ∈ formatRepr digits point, c ∈ numberChars := by
  have hdig : ∀ {cs : List Char}, AllDigits cs → ∀ c ∈ cs, c ∈ numberChars :=
    fun hcs c hc => mem_numberChars_of_isDigit (hcs c hc)
  intro c hc
  unfold formatRepr at hc
  split_ifs at hc
  · simp only [List.mem_append, List.mem_cons] at hc
    rcases hc with rfl | rfl | hc | hc
    · decide
    · decide
    · exact hdig (allDigits_replicate _) c hc
    · exact hdig hd c hc
  · simp only [List.mem_append, List.mem_cons, List.not_mem_nil, or_false] at hc
    rcases hc with (hc | hc) | rfl | rfl
    · exact hdig hd c hc
    · exact hdig (allDigits_replicate _) c hc
    · decide
    · decide
  · simp only [List.mem_append, List.mem_cons] at hc
    rcases hc with hc | rfl | hc
    · exact hdig hd c (List.mem_of_mem_take hc)
    · decide
    · exact hdig hd c (List.mem_of_mem_drop hc)
  · exact formatScientific_chars hd _ c hc

/-- A float's text always shows that it is not an integer's. -/
theorem formatRepr_mark (digits : List Char) (point : ℤ) :
    '.' ∈ formatRepr digits point ∨ 'e' ∈ formatRepr digits point := by
  unfold formatRepr
  split_ifs
  · exact Or.inl (by simp)
  · exact Or.inl (by simp)
  · exact Or.inl (by simp)
  · exact Or.inr (by simp [formatScientific])

theorem formatRepr_head {digits : List Char} (hd : AllDigits digits) (hne : digits ≠ [])
    (point : ℤ) : ∀ cs, formatRepr digits point ≠ '-' :: cs := by
  intro cs h
  obtain ⟨d, ds, rfl⟩ := List.exists_cons_of_ne_nil hne
  have hdash : d ≠ '-' := by
    rintro rfl
    have := hd '-' (List.mem_cons_self ..)
    simp at this
  unfold formatRepr at h
  split_ifs at h with h1 h2 h3
  · simp at h
  · exact hdash (List.cons.inj h).1
  · obtain ⟨n, hn⟩ : ∃ n, point.toNat = n + 1 := ⟨point.toNat - 1, by omega⟩
    rw [hn, List.take_succ_cons] at h
    exact hdash (List.cons.inj h).1
  · exact hdash (List.cons.inj h).1

theorem ofText_repr (x : Binary64) : ofText x.repr = some x := by
  have hp := printed_rounds x
  have hhead := formatRepr_head (allDigits_toDigits x.shortest.1) Nat.toDigits_ne_nil
    ((Nat.toDigits 10 x.shortest.1).length + x.shortest.2)
  unfold repr
  cases hneg : x.neg with
  | true =>
    rw [hneg] at hp
    exact hp
  | false =>
    rw [hneg] at hp
    simp only [Bool.false_eq_true, if_false]
    unfold ofText
    split
    · rename_i cs hcs
      exact absurd hcs (hhead cs)
    · exact hp

theorem repr_chars (x : Binary64) : ∀ c ∈ x.repr, c ∈ numberChars := by
  intro c hc
  unfold repr at hc
  have hmag := formatRepr_chars (allDigits_toDigits x.shortest.1)
    ((Nat.toDigits 10 x.shortest.1).length + x.shortest.2)
  split_ifs at hc
  · rcases List.mem_cons.mp hc with rfl | hc
    · decide
    · exact hmag c hc
  · exact hmag c hc

theorem repr_mark (x : Binary64) : '.' ∈ x.repr ∨ 'e' ∈ x.repr := by
  have h := formatRepr_mark (Nat.toDigits 10 x.shortest.1)
    ((Nat.toDigits 10 x.shortest.1).length + x.shortest.2)
  unfold repr
  split_ifs
  · exact h.imp (List.mem_cons_of_mem _) (List.mem_cons_of_mem _)
  · exact h

theorem mk?_eq_some {neg : Bool} {m : ℕ} {e : ℤ} {x : Binary64} (h : mk? neg m e = some x) :
    x.neg = neg ∧ x.mant = m ∧ x.exp = e := by
  unfold mk? at h
  split_ifs at h
  rw [← Option.some.inj h]
  exact ⟨rfl, rfl, rfl⟩

theorem isInteger_of_exp_nonneg {x : Binary64} (h : 0 ≤ x.exp) : x.isInteger = true := by
  have hd : x.den = 1 := by
    simp only [den]
    rw [show (-x.exp).toNat = 0 by omega, pow_zero]
  simp only [isInteger, hd, Nat.mod_one, beq_self_eq_true]

theorem ofFrac_nat_isInteger {neg : Bool} {n : ℕ} {x : Binary64} (h : ofFrac neg n 1 = some x) :
    x.isInteger = true := by
  unfold ofFrac at h
  by_cases hn : n = 0
  · rw [if_pos hn] at h
    obtain ⟨-, hm, -⟩ := mk?_eq_some h
    simp [isInteger, num, hm]
  · rw [if_neg hn] at h
    simp only at h
    set e : ℤ := max (-1074) (floorLog2 n 1 - 52) with he
    by_cases hpos : 0 ≤ e
    · split_ifs at h
      · exact isInteger_of_exp_nonneg (by rw [(mk?_eq_some h).2.2]; omega)
      · exact isInteger_of_exp_nonneg (by rw [(mk?_eq_some h).2.2]; exact hpos)
    · -- below `2 ^ 53` the grid is finer than the integers and nothing is rounded
      have hround : roundQuot (n * 2 ^ (-e).toNat) (1 * 2 ^ e.toNat) = n * 2 ^ (-e).toNat := by
        rw [show e.toNat = 0 by omega, show 1 * 2 ^ 0 = 1 from rfl]
        have := roundQuot_mul (n * 2 ^ (-e).toNat) 1 (by decide)
        rwa [Nat.mul_one] at this
      rw [hround] at h
      have hsmall : ∀ y : Binary64, y.mant = n * 2 ^ (-e).toNat → y.exp = e → y.isInteger = true := by
        intro y hm hy
        simp [isInteger, num, den, hm, hy, show e.toNat = 0 by omega]
      split_ifs at h with htop
      · obtain ⟨-, hm, hy⟩ := mk?_eq_some h
        by_cases hlast : e = -1
        · exact isInteger_of_exp_nonneg (by omega)
        · -- a significand that rounds up to `2 ^ 53` is still a multiple of the grid
          have hdiv : (2 : ℕ) ^ (-(e + 1)).toNat ∣ 2 ^ 52 := by
            have hfac : (2 : ℕ) ^ (-e).toNat ∣ 2 ^ 53 := ⟨n, by rw [← htop]; ring⟩
            have hle : (-e).toNat ≤ 53 := (Nat.pow_dvd_pow_iff_le_right (by decide)).mp hfac
            exact Nat.pow_dvd_pow 2 (by omega)
          simp only [isInteger, num, den, hm, hy]
          rw [show (e + 1).toNat = 0 by omega, pow_zero, Nat.mul_one, Nat.mod_eq_zero_of_dvd hdiv]
          rfl
      · obtain ⟨-, hm, hy⟩ := mk?_eq_some h
        exact hsmall x hm hy

theorem isInteger_of_printed_nonneg {x : Binary64} (h : 0 ≤ x.printed.2) : x.isInteger = true := by
  have hp := printed_rounds x
  unfold ofDecimal at hp
  rw [show (-x.printed.2).toNat = 0 by omega, pow_zero] at hp
  exact ofFrac_nat_isInteger hp

end Memclaw.Lib.Binary64
