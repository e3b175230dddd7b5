import Mathlib.Algebra.Order.Ring.Nat
import Mathlib.Tactic.Common
import Memclaw.Lib.FixedWidthDefs

/-! Fixed-width texts determine their values, and reading them gives these back. -/

namespace Memclaw.Lib

@[simp] theorem padDigits_length (base width n : ℕ) : (padDigits base width n).length = width := by
  induction width generalizing n with
  | zero => rfl
  | succ width ih => rw [padDigits, List.length_append, ih, List.length_singleton]

theorem digitChar_inj : ∀ m < 16, ∀ n < 16, Nat.digitChar m = Nat.digitChar n → m = n := by
  decide

theorem padDigits_inj {base width m n : ℕ} (hbase : 0 < base) (hbase' : base ≤ 16)
    (hm : m < base ^ width) (hn : n < base ^ width)
    (h : padDigits base width m = padDigits base width n) : m = n := by
  induction width generalizing m n with
  | zero =>
    rw [pow_zero, Nat.lt_one_iff] at hm hn
    rw [hm, hn]
  | succ width ih =>
    have hquot : ∀ k, k < base ^ (width + 1) → k / base < base ^ width := fun k hk =>
      Nat.div_lt_of_lt_mul (by rwa [pow_succ'] at hk)
    have hrem : ∀ k, k % base < 16 := fun k => (Nat.mod_lt k hbase).trans_le hbase'
    obtain ⟨hhigh, hlow⟩ := List.append_inj' h rfl
    have hdiv := ih (hquot m hm) (hquot n hn) hhigh
    have hmod := digitChar_inj _ (hrem m) _ (hrem n) (List.cons.inj hlow).1
    rw [← Nat.div_add_mod m base, ← Nat.div_add_mod n base, hdiv, hmod]

theorem decimal_append_inj {width m n : ℕ} {r s : List Char} (hm : m < 10 ^ width)
    (hn : n < 10 ^ width) (h : padDigits 10 width m ++ r = padDigits 10 width n ++ s) :
    m = n ∧ r = s := by
  obtain ⟨hdigits, hrest⟩ := List.append_inj h (by simp only [padDigits_length])
  exact ⟨padDigits_inj (by decide) (by decide) hm hn hdigits, hrest⟩

theorem padDigits_mem {base width n : ℕ} (hbase : 0 < base) {c : Char}
    (hc : c ∈ padDigits base width n) : ∃ d < base, c = Nat.digitChar d := by
  induction width generalizing n with
  | zero => exact absurd hc List.not_mem_nil
  | succ width ih =>
    rw [padDigits, List.mem_append, List.mem_singleton] at hc
    rcases hc with hc | rfl
    · exact ih hc
    · exact ⟨n % base, Nat.mod_lt n hbase, rfl⟩

theorem foldl_padDigits {base width n : ℕ} (value : Char → ℕ) (hbase : 0 < base)
    (hvalue : ∀ d < base, value (Nat.digitChar d) = d) (hn : n < base ^ width) :
    (padDigits base width n).foldl (fun n c => base * n + value c) 0 = n := by
  induction width generalizing n with
  | zero =>
    rw [pow_zero, Nat.lt_one_iff] at hn
    exact hn.symm
  | succ width ih =>
    have hquot : n / base < base ^ width := Nat.div_lt_of_lt_mul (by rwa [pow_succ'] at hn)
    rw [padDigits, List.foldl_append, ih hquot, List.foldl_cons, List.foldl_nil,
      hvalue _ (Nat.mod_lt n hbase), Nat.div_add_mod]

namespace Uuid

theorem value_inj {u v : Uuid} (h : u.value = v.value) : u = v := by
  cases u
  cases v
  simpa using h

theorem text_filter (u : Uuid) : u.text.take 8 ++ (u.text.drop 9).take 4 ++
    (u.text.drop 14).take 4 ++ (u.text.drop 19).take 4 ++ u.text.drop 24 =
      padDigits 16 32 u.value := by
  obtain ⟨hex, hhex⟩ : ∃ hex, hex = padDigits 16 32 u.value := ⟨_, rfl⟩
  have hlen : hex.length = 32 := by rw [hhex, padDigits_length]
  unfold text
  rw [← hhex]
  iterate 32 (obtain _ | ⟨_, hex⟩ := hex; · simp at hlen)
  obtain rfl : hex = [] := by simpa using hlen
  rfl

theorem text_injective : Function.Injective text := by
  intro u v h
  have hdigits : padDigits 16 32 u.value = padDigits 16 32 v.value := by
    rw [← text_filter u, ← text_filter v, h]
  have hu : u.value < 16 ^ 32 := by simpa using u.bound
  have hv : v.value < 16 ^ 32 := by simpa using v.bound
  cases u
  cases v
  simpa using padDigits_inj (by decide) (by decide) hu hv hdigits

theorem removeAll_of_notMem {c : Char} {pattern : List Char} {cs : List Char} (h : c ∉ cs) :
    removeAll (c :: pattern) 0 cs = cs := by
  induction cs with
  | nil => rfl
  | cons d cs ih =>
    have hne : c ≠ d := fun heq => h (by rw [heq]; exact List.mem_cons_self)
    have hprefix : (c :: pattern).isPrefixOf (d :: cs) = false := by
      simp [List.isPrefixOf, hne]
    rw [removeAll, hprefix, if_neg Bool.false_ne_true, ih (List.not_mem_of_not_mem_cons h)]

theorem stripChars_of_forall {chars cs : List Char} (h : ∀ c ∈ cs, c ∉ chars) :
    stripChars chars cs = cs := by
  have hdrop : ∀ ds : List Char, (∀ c ∈ ds, c ∉ chars) → ds.dropWhile (· ∈ chars) = ds := by
    intro ds hds
    cases ds with
    | nil => rfl
    | cons d ds => exact List.dropWhile_cons_of_neg (by simpa using hds d List.mem_cons_self)
  rw [stripChars, hdrop cs h, hdrop _ fun c hc => h c (List.mem_reverse.mp hc),
    List.reverse_reverse]

theorem hexDigit_digitChar : ∀ d < 16, hexDigit (Nat.digitChar d) = some d := by decide

theorem digitChar_ne_underscore : ∀ d < 16, Nat.digitChar d ≠ '_' := by decide

theorem digitChar_plain : ∀ d < 16, (Nat.digitChar d).toNat < 127 ∧ Nat.digitChar d ∉ asciiSpace ∧
    Nat.digitChar d ≠ '+' ∧ Nat.digitChar d ≠ 'x' ∧ Nat.digitChar d ≠ 'X' ∧
    Nat.digitChar d ≠ 'u' ∧ Nat.digitChar d ≠ '-' ∧ Nat.digitChar d ∉ ['\x7b', '\x7d'] := by
  decide

theorem scanHex_digits {cs : List Char} (acc : ℕ) {after : Bool} (hcs : cs ≠ [] ∨ after = true)
    (hdigits : ∀ c ∈ cs, ∃ d < 16, c = Nat.digitChar d) :
    scanHex acc after cs = some (cs.foldl (fun n c => 16 * n + (hexDigit c).getD 0) acc, []) := by
  induction cs generalizing acc after with
  | nil =>
    have hafter : after = true := hcs.resolve_left (absurd rfl)
    rw [scanHex, if_pos hafter, List.foldl_nil]
  | cons c cs ih =>
    obtain ⟨d, hd, rfl⟩ := hdigits c List.mem_cons_self
    rw [scanHex, if_neg (digitChar_ne_underscore d hd), hexDigit_digitChar d hd, List.foldl_cons, hexDigit_digitChar d hd]
    exact ih _ (Or.inr rfl) fun c hc => hdigits c (List.mem_cons_of_mem _ hc)

theorem unsigned_eq (cs : List Char) : '+' ∉ cs →
    (match cs with
      | '+' :: rest => rest
      | rest => rest) = cs := by
  intro h
  split
  · exact absurd List.mem_cons_self h
  · rfl

theorem intBase16_digits (chars : CharData) {cs : List Char} (hcs : cs ≠ [])
    (hdigits : ∀ c ∈ cs, ∃ d < 16, c = Nat.digitChar d) :
    intBase16 chars cs = some (cs.foldl (fun n c => 16 * n + (hexDigit c).getD 0) 0) := by
  have hplain : ∀ c ∈ cs, c.toNat < 127 ∧ c ∉ asciiSpace ∧ c ≠ '+' ∧ c ≠ 'x' ∧ c ≠ 'X' := by
    intro c hc
    obtain ⟨d, hd, rfl⟩ := hdigits c hc
    have h := digitChar_plain d hd
    exact ⟨h.1, h.2.1, h.2.2.1, h.2.2.2.1, h.2.2.2.2.1⟩
  have hmap : ∀ f : Char → Char, (∀ c ∈ cs, f c = c) → cs.map f = cs := by
    intro f hf
    conv_rhs => rw [← List.map_id cs]
    exact List.map_congr_left hf
  have hspace : cs.dropWhile (· ∈ asciiSpace) = cs := by
    cases cs with
    | nil => rfl
    | cons c cs =>
      exact List.dropWhile_cons_of_neg (by simpa using (hplain c List.mem_cons_self).2.1)
  unfold intBase16
  dsimp only
  rw [hmap _ fun c hc => if_pos (hplain c hc).1, hspace]
  have hscan : ∀ cs', cs' = cs → scanHex 0 false cs' =
      some (cs.foldl (fun n c => 16 * n + (hexDigit c).getD 0) 0, []) := by
    rintro _ rfl
    exact scanHex_digits 0 (Or.inl hcs) hdigits
  rw [hscan]
  · rfl
  have hmark : ∀ c ∈ cs, c ≠ 'x' ∧ c ≠ 'X' := fun c hc => (hplain c hc).2.2.2
  have hunsigned := unsigned_eq cs fun h => (hplain '+' h).2.2.1 rfl
  split
  case h_5 => exact hunsigned
  all_goals
    next heq =>
    rw [hunsigned.symm.trans heq] at hmark
    exact absurd hmark (by simp)

theorem mem_text {u : Uuid} {c : Char} (hc : c ∈ u.text) :
    c = '-' ∨ ∃ d < 16, c = Nat.digitChar d := by
  have hhex : ∀ c ∈ padDigits 16 32 u.value, ∃ d < 16, c = Nat.digitChar d := fun c =>
    padDigits_mem (by decide)
  simp only [text, List.mem_append, List.mem_cons] at hc
  rcases hc with hc | rfl | hc | rfl | hc | rfl | hc | rfl | hc
  · exact Or.inr (hhex c (List.mem_of_mem_take hc))
  · exact Or.inl rfl
  · exact Or.inr (hhex c (List.mem_of_mem_drop (List.mem_of_mem_take hc)))
  · exact Or.inl rfl
  · exact Or.inr (hhex c (List.mem_of_mem_drop (List.mem_of_mem_take hc)))
  · exact Or.inl rfl
  · exact Or.inr (hhex c (List.mem_of_mem_drop (List.mem_of_mem_take hc)))
  · exact Or.inl rfl
  · exact Or.inr (hhex c (List.mem_of_mem_drop hc))

theorem text_hex (u : Uuid) : u.text.filter (· ≠ '-') = padDigits 16 32 u.value := by
  have hhex : ∀ l : List Char, l ⊆ padDigits 16 32 u.value → l.filter (· ≠ '-') = l := by
    intro l hl
    rw [List.filter_eq_self]
    intro c hc
    obtain ⟨d, hd, rfl⟩ := padDigits_mem (by decide) (hl hc)
    exact decide_eq_true (digitChar_plain d hd).2.2.2.2.2.2.1
  have htake : ∀ m n, ((padDigits 16 32 u.value).drop m).take n ⊆ padDigits 16 32 u.value :=
    fun m n c hc => List.mem_of_mem_drop (List.mem_of_mem_take hc)
  simp only [text, List.filter_append, List.filter_cons, ne_eq, not_true_eq_false, decide_false,
    Bool.false_eq_true, if_false]
  rw [hhex _ (htake 8 4), hhex _ (htake 12 4), hhex _ (htake 16 4), hhex _ (List.drop_subset _ _),
    hhex _ (List.take_subset _ _), ← List.drop_drop (i := 4) (j := 16), List.take_append_drop,
    ← List.drop_drop (i := 4) (j := 12), List.take_append_drop,
    ← List.drop_drop (i := 4) (j := 8), List.take_append_drop, List.take_append_drop]

theorem ofText_text (chars : CharData) (u : Uuid) : ofText chars u.text = some u := by
  have hno : ∀ c ∈ u.text, c ≠ 'u' ∧ c ∉ ['\x7b', '\x7d'] := by
    intro c hc
    rcases mem_text hc with rfl | ⟨d, hd, rfl⟩
    · decide
    · have h := digitChar_plain d hd
      exact ⟨h.2.2.2.2.2.1, h.2.2.2.2.2.2.2⟩
  have hu : 'u' ∉ u.text := fun h => (hno 'u' h).1 rfl
  have hbound : u.value < 16 ^ 32 := by simpa using u.bound
  have hne : padDigits 16 32 u.value ≠ [] := List.ne_nil_of_length_pos (by simp)
  have hvalue : (padDigits 16 32 u.value).foldl (fun n c => 16 * n + (hexDigit c).getD 0) 0 =
      u.value := foldl_padDigits (fun c => (hexDigit c).getD 0) (by decide)
    (fun d hd => by rw [hexDigit_digitChar d hd]; rfl) hbound
  unfold ofText
  dsimp only
  rw [removeAll_of_notMem hu, removeAll_of_notMem hu, stripChars_of_forall fun c hc => (hno c hc).2,
    text_hex, if_pos (padDigits_length 16 32 u.value),
    intBase16_digits chars hne fun c => padDigits_mem (by decide), hvalue]
  exact dif_pos u.bound

end Uuid

namespace DateTime

theorem daysInMonth_le (year month : ℕ) : daysInMonth year month ≤ 31 := by
  unfold daysInMonth
  split_ifs <;> omega

theorem micros_injective : Function.Injective micros := by
  intro s t h
  obtain ⟨-, sy, -, smo, -, sd, sh, smi, ss, sus⟩ := s.valid
  obtain ⟨-, ty, -, tmo, -, td, th, tmi, ts, tus⟩ := t.valid
  have sd' := sd.trans (daysInMonth_le _ _)
  have td' := td.trans (daysInMonth_le _ _)
  simp only [micros, seconds, List.append_assoc, List.cons_append] at h
  obtain ⟨hyear, h⟩ := decimal_append_inj (by omega) (by omega) h
  obtain ⟨hmonth, h⟩ := decimal_append_inj (by omega) (by omega) (List.cons.inj h).2
  obtain ⟨hday, h⟩ := decimal_append_inj (by omega) (by omega) (List.cons.inj h).2
  obtain ⟨hhour, h⟩ := decimal_append_inj (by omega) (by omega) (List.cons.inj h).2
  obtain ⟨hminute, h⟩ := decimal_append_inj (by omega) (by omega) (List.cons.inj h).2
  obtain ⟨hsecond, h⟩ := decimal_append_inj (by omega) (by omega) (List.cons.inj h).2
  have hmicro := padDigits_inj (by decide) (by decide) (by omega) (by omega) (List.cons.inj h).2
  cases s
  cases t
  simp only [mk.injEq]
  exact ⟨hyear, hmonth, hday, hhour, hminute, hsecond, hmicro⟩

end DateTime

end Memclaw.Lib
