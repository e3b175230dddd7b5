import Memclaw.Lib.FloatText
import Memclaw.Lib.Binary64
import Memclaw.Lib.JsonText
import Memclaw.Lib.Split

/-! `JSON.stringify` of values of any depth: what is written is read back, its text has no part behind
a colon that is itself such a text, and it has no lone surrogate. -/

namespace Memclaw.Lib

namespace JsonText

def zeros (n : ℕ) : Utf16 := List.replicate n 48

def magnitudeText (d : ℕ) (k : ℤ) : Utf16 :=
  let ds := digits d
  let point := ds.length + k
  if ds.length ≤ point ∧ point ≤ 21 then ds ++ zeros (point - ds.length).toNat
  else if 0 < point ∧ point ≤ 21 then ds.take point.toNat ++ 46 :: ds.drop point.toNat
  else if -6 < point ∧ point ≤ 0 then 48 :: 46 :: (zeros (-point).toNat ++ ds)
  else
    ds.take 1 ++ (if ds.drop 1 = [] then [] else 46 :: ds.drop 1) ++
      101 :: (if 0 < point then 43 else 45) :: digits (point - 1).natAbs

def numberText (x : Binary64) : Utf16 :=
  if x.mant = 0 then digits 0
  else (if x.neg then [45] else []) ++ magnitudeText x.shortest.1 x.shortest.2

/-- A value that `JSON.parse` can return; the members of an object in the order of enumeration. -/
inductive Js
  | null
  | bool (b : Bool)
  | number (x : PyFloat)
  | string (s : Utf16)
  | array (items : List Js)
  | object (members : List (Utf16 × Js))

mutual

def Js.written : Js → Value
  | .null => .null
  | .bool b => .bool b
  | .number (.finite x) => .number (numberText x)
  | .number _ => .null
  | .string s => .string s
  | .array items => .array (writtenItems items)
  | .object members => .object (writtenMembers members)

def writtenItems : List Js → List Value
  | [] => []
  | v :: items => v.written :: writtenItems items

def writtenMembers : List (Utf16 × Js) → List (Utf16 × Value)
  | [] => []
  | (k, v) :: members => (k, v.written) :: writtenMembers members

end

mutual

def Value.text : Value → Utf16
  | .null => utf16 "null"
  | .bool b => utf16 (if b then "true" else "false")
  | .number literal => literal
  | .string s => quote s
  | .array items => 91 :: (itemsText items ++ [93])
  | .object members => 123 :: (membersText members ++ [125])

def itemsText : List Value → Utf16
  | [] => []
  | v :: items => v.text ++ moreItems items

def moreItems : List Value → Utf16
  | [] => []
  | v :: items => 44 :: (v.text ++ moreItems items)

def membersText : List (Utf16 × Value) → Utf16
  | [] => []
  | (k, v) :: members => quote k ++ 58 :: (v.text ++ moreMembers members)

def moreMembers : List (Utf16 × Value) → Utf16
  | [] => []
  | (k, v) :: members => 44 :: (quote k ++ 58 :: (v.text ++ moreMembers members))

end

def Js.stringify (v : Js) : Utf16 := v.written.text

def unsigned (x : Binary64) : Binary64 := if x.mant = 0 then .zero else x

mutual

/-- What `JSON.parse` gives for the text of a value: infinities and NaN are null, and zero has no
sign. -/
def Js.reread : Js → Js
  | .null => .null
  | .bool b => .bool b
  | .number (.finite x) => .number (.finite (unsigned x))
  | .number _ => .null
  | .string s => .string s
  | .array items => .array (rereadItems items)
  | .object members => .object (rereadMembers members)

def rereadItems : List Js → List Js
  | [] => []
  | v :: items => v.reread :: rereadItems items

def rereadMembers : List (Utf16 × Js) → List (Utf16 × Js)
  | [] => []
  | (k, v) :: members => (k, v.reread) :: rereadMembers members

end

structure Place where
  inString : Bool
  escaped : Bool
  depth : ℤ

def Place.step (p : Place) (u : UInt16) : Place :=
  if p.escaped then { p with escaped := false }
  else if u = 92 then { p with escaped := true }
  else if u = 34 then { p with inString := !p.inString }
  else if p.inString then p
  else if u = 123 || u = 91 then { p with depth := p.depth + 1 }
  else if u = 125 || u = 93 then { p with depth := p.depth - 1 }
  else p

def Place.run (p : Place) (s : Utf16) : Place := s.foldl Place.step p

def outsideAt (d : ℤ) : Place := ⟨false, false, d⟩

def Guarded (m : ℤ) : Place → Utf16 → Prop
  | _, [] => True
  | p, u :: s => (u = 58 → p.inString = true ∨ m ≤ p.depth) ∧ Guarded m (p.step u) s

/-- A text that ends outside of strings where it started, with its colons in strings or so many levels
further down. -/
structure Nested (k : ℤ) (s : Utf16) : Prop where
  closed : ∀ d, (outsideAt d).run s = outsideAt d
  guarded : ∀ d, Guarded (d + k) (outsideAt d) s

theorem run_append (p : Place) (s t : Utf16) : p.run (s ++ t) = (p.run s).run t := List.foldl_append

theorem guarded_append {m : ℤ} {p : Place} {s t : Utf16} :
    Guarded m p (s ++ t) ↔ Guarded m p s ∧ Guarded m (p.run s) t := by
  induction s generalizing p with
  | nil => exact (and_iff_right trivial).symm
  | cons u s ih => rw [List.cons_append, Guarded, Guarded, ih, and_assoc]; rfl

theorem Guarded.mono {m m' : ℤ} (h : m' ≤ m) {p : Place} {s : Utf16} (hs : Guarded m p s) :
    Guarded m' p s := by
  induction s generalizing p with
  | nil => trivial
  | cons u s ih => exact ⟨fun hu => (hs.1 hu).imp id (Int.le_trans h), ih hs.2⟩

theorem nested_nil (k : ℤ) : Nested k [] := ⟨fun _ => rfl, fun _ => trivial⟩

theorem Nested.append {k : ℤ} {s t : Utf16} (hs : Nested k s) (ht : Nested k t) :
    Nested k (s ++ t) where
  closed d := by rw [run_append, hs.closed, ht.closed]
  guarded d := guarded_append.mpr ⟨hs.guarded d, by rw [hs.closed]; exact ht.guarded d⟩

theorem Nested.mono {k k' : ℤ} (h : k' ≤ k) {s : Utf16} (hs : Nested k s) : Nested k' s where
  closed := hs.closed
  guarded d := (hs.guarded d).mono (Int.add_le_add_left h d)

theorem nested_colon : Nested 0 [58] where
  closed _ := rfl
  guarded d := ⟨fun _ => .inr (Int.le_of_eq (Int.add_zero d)), trivial⟩

def marks : List UInt16 := [34, 58, 91, 92, 93, 123, 125]

theorem nested_plain (k : ℤ) {s : Utf16} (h : ∀ u ∈ s, u ∉ marks) : Nested k s := by
  have hstep : ∀ u ∉ marks, ∀ d, (outsideAt d).step u = outsideAt d := by
    intro u hu d
    simp only [marks, List.mem_cons, List.not_mem_nil, or_false, not_or] at hu
    obtain ⟨hquote, -, hopen, hback, hclose, hopen', hclose'⟩ := hu
    simp [Place.step, outsideAt, hquote, hopen, hback, hclose, hopen', hclose']
  induction s with
  | nil => exact nested_nil k
  | cons u s ih =>
    have hu := h u List.mem_cons_self
    have hs := ih fun v hv => h v (List.mem_cons_of_mem u hv)
    refine ⟨fun d => ?_, fun d => ⟨fun hcolon => absurd (hcolon ▸ hu) (by decide), ?_⟩⟩
    · change ((outsideAt d).step u).run s = _
      rw [hstep u hu, hs.closed]
    · rw [hstep u hu]
      exact hs.guarded d

theorem Nested.wrap {s : Utf16} (hs : Nested 0 s) {o c : UInt16} (ho : o = 123 ∨ o = 91)
    (hc : c = 125 ∨ c = 93) : Nested 1 (o :: (s ++ [c])) := by
  have hopen : ∀ d, (outsideAt d).step o = outsideAt (d + 1) := by
    rcases ho with rfl | rfl <;> exact fun d => rfl
  have hclose : ∀ d, (outsideAt (d + 1)).step c = outsideAt d := by
    have hback : ∀ d : ℤ, outsideAt (d + 1 - 1) = outsideAt d := fun d => by
      rw [Int.add_sub_cancel]
    rcases hc with rfl | rfl <;> exact fun d => hback d
  have hnocolon : o ≠ 58 ∧ c ≠ 58 := by
    rcases ho with rfl | rfl <;> rcases hc with rfl | rfl <;> decide
  refine ⟨fun d => ?_, fun d => ⟨fun h => absurd h hnocolon.1, ?_⟩⟩
  · change (((outsideAt d).step o).run (s ++ [c])) = _
    rw [hopen, run_append, hs.closed]
    exact hclose d
  · rw [hopen, guarded_append, hs.closed]
    refine ⟨?_, fun h => absurd h hnocolon.2, trivial⟩
    have hin := hs.guarded (d + 1)
    rwa [Int.add_zero] at hin

structure Inside (s : Utf16) : Prop where
  stays : ∀ d, (Place.mk true false d).run s = ⟨true, false, d⟩
  guarded : ∀ m d, Guarded m ⟨true, false, d⟩ s

theorem Inside.append {s t : Utf16} (hs : Inside s) (ht : Inside t) : Inside (s ++ t) where
  stays d := by rw [run_append, hs.stays, ht.stays]
  guarded m d := guarded_append.mpr ⟨hs.guarded m d, by rw [hs.stays]; exact ht.guarded m d⟩

theorem inside_nil : Inside [] := ⟨fun _ => rfl, fun _ _ => trivial⟩

theorem inside_unit {u : UInt16} (hquote : u ≠ 34) (hback : u ≠ 92) : Inside [u] := by
  have hstep : ∀ d, (Place.mk true false d).step u = ⟨true, false, d⟩ := fun d => by
    simp [Place.step, hquote, hback]
  exact ⟨fun d => hstep d, fun m d => ⟨fun _ => .inl rfl, trivial⟩⟩

theorem inside_escaped (u : UInt16) : Inside [92, u] :=
  ⟨fun _ => rfl, fun _ _ => ⟨fun _ => .inl rfl, fun _ => .inl rfl, trivial⟩⟩

theorem inside_hexUnit {n : ℕ} (hn : n < 16) : Inside [hexUnit n] := by
  have hall : ∀ n < 16, hexUnit n ≠ 34 ∧ hexUnit n ≠ 92 := by decide
  exact inside_unit (hall n hn).1 (hall n hn).2

theorem inside_unicodeEscape (u : UInt16) : Inside (unicodeEscape u) := by
  have hu : u.toNat < 65536 := u.toNat_lt
  exact (inside_escaped 117).append ((inside_hexUnit (by omega)).append ((inside_hexUnit
    (Nat.mod_lt _ (by decide))).append ((inside_hexUnit (Nat.mod_lt _ (by decide))).append
      (inside_hexUnit (Nat.mod_lt _ (by decide))))))

theorem inside_escapeUnit (u : UInt16) : Inside (escapeUnit u) := by
  rw [escapeUnit]
  split_ifs with h8 h9 h10 h12 h13 h34 h92
  all_goals first
    | exact inside_escaped _
    | exact inside_unicodeEscape u
    | exact inside_unit h34 h92

theorem surrogate_plain {u : UInt16} (hu : isHigh u = true ∨ isLow u = true) : u ≠ 34 ∧ u ≠ 92 := by
  constructor <;> rintro rfl <;> rcases hu with hu | hu <;> cases hu

theorem inside_escape (s : Utf16) {paired : Bool} (hpaired : paired = true → startsLow s = true) :
    Inside (escape paired s) := by
  induction s generalizing paired with
  | nil => exact inside_nil
  | cons u s ih =>
    rw [escape]
    split_ifs with hpair hhigh
    · have hlow : isLow u = true := hpaired hpair
      obtain ⟨hquote, hback⟩ := surrogate_plain (.inr hlow)
      exact (inside_unit hquote hback).append (ih fun h => absurd h Bool.false_ne_true)
    · rw [Bool.and_eq_true] at hhigh
      obtain ⟨hquote, hback⟩ := surrogate_plain (.inl hhigh.1)
      exact (inside_unit hquote hback).append (ih fun _ => hhigh.2)
    · exact (inside_escapeUnit u).append (ih fun h => absurd h Bool.false_ne_true)

theorem nested_quote (k : ℤ) (s : Utf16) : Nested k (quote s) := by
  have hin : Inside (escape false s) := inside_escape s fun h => absurd h Bool.false_ne_true
  refine ⟨fun d => ?_, fun d => ⟨fun h => absurd h (by decide), ?_⟩⟩
  · change (Place.mk true false d).run (escape false s ++ [34]) = _
    rw [run_append, hin.stays]
    rfl
  · change Guarded _ ⟨true, false, d⟩ (escape false s ++ [34])
    rw [guarded_append, hin.stays]
    exact ⟨hin.guarded _ d, fun h => absurd h (by decide), trivial⟩

structure Decimal (whole rest : Utf16) : Prop where
  digits : ∀ u ∈ whole, isDigit u = true
  ne_nil : whole ≠ []
  lead : whole.length = 1 ∨ whole.head? ≠ some 48
  units : ∀ u ∈ rest, isNumberUnit u = true
  stops : rest.head?.any isDigit = false
  valid : validFraction rest = true

theorem takeWhile_stops {p : UInt16 → Bool} {s t : Utf16} (hs : ∀ u ∈ s, p u = true)
    (ht : t.head?.any p = false) : (s ++ t).takeWhile p = s ∧ (s ++ t).dropWhile p = t := by
  rw [List.takeWhile_append_of_pos hs, List.dropWhile_append_of_pos hs]
  cases t with
  | nil => exact ⟨List.append_nil s, rfl⟩
  | cons u t =>
    have hu : ¬ p u = true := Bool.eq_false_iff.mp ht
    rw [List.takeWhile_cons_of_neg hu, List.dropWhile_cons_of_neg hu, List.append_nil]
    exact ⟨rfl, rfl⟩

theorem isNumberUnit_of_isDigit {u : UInt16} (h : isDigit u = true) : isNumberUnit u = true := by
  simp only [isNumberUnit, h, Bool.true_or]

section Decimal

variable {whole rest : Utf16}

theorem Decimal.head (h : Decimal whole rest) : ∃ u s, whole ++ rest = u :: s ∧ isDigit u = true := by
  obtain ⟨u, s, rfl⟩ := List.exists_cons_of_ne_nil h.ne_nil
  exact ⟨u, s ++ rest, rfl, h.digits u List.mem_cons_self⟩

theorem Decimal.validNumber (h : Decimal whole rest) (neg : Bool) :
    validNumber ((if neg then [45] else []) ++ (whole ++ rest)) = true := by
  have hsign : dropSign [45] ((if neg then [45] else []) ++ (whole ++ rest)) = whole ++ rest := by
    cases neg with
    | true => rfl
    | false =>
      obtain ⟨u, s, hus, hu⟩ := h.head
      have hminus : u ∉ [45] := by
        rw [List.mem_singleton]
        rintro rfl
        cases hu
      change dropSign [45] (whole ++ rest) = _
      rw [hus, dropSign, if_neg hminus]
  obtain ⟨htake, hdrop⟩ := takeWhile_stops h.digits h.stops
  rw [JsonText.validNumber, hsign, htake, hdrop]
  simp only [Bool.and_eq_true, decide_eq_true_eq, Bool.or_eq_true]
  exact ⟨⟨h.ne_nil, h.lead⟩, h.valid⟩

theorem Decimal.all_units (h : Decimal whole rest) (neg : Bool) :
    ∀ u ∈ (if neg then [45] else []) ++ (whole ++ rest), isNumberUnit u = true := by
  intro u hu
  rw [List.mem_append, List.mem_append] at hu
  rcases hu with hu | hu | hu
  · cases neg with
    | true => rw [List.mem_singleton.mp hu]; rfl
    | false => cases hu
  · exact isNumberUnit_of_isDigit (h.digits u hu)
  · exact h.units u hu

end Decimal

theorem digits_zeros (n : ℕ) : ∀ u ∈ zeros n, isDigit u = true := by
  intro u hu
  rw [List.eq_of_mem_replicate hu]
  rfl

theorem decimal_whole {s : Utf16} (hs : ∀ u ∈ s, isDigit u = true) (hne : s ≠ [])
    (hlead : s.length = 1 ∨ s.head? ≠ some 48) : Decimal s [] :=
  ⟨hs, hne, hlead, fun _ hu => absurd hu List.not_mem_nil, rfl, rfl⟩

theorem valid_exponent (sign : UInt16) (hsign : sign = 43 ∨ sign = 45) (n : ℕ) :
    validExponent (101 :: sign :: digits n) = true ∧
      ∀ u ∈ 101 :: sign :: digits n, isNumberUnit u = true := by
  have hdrop : dropSign [43, 45] (sign :: digits n) = digits n := by
    rcases hsign with rfl | rfl <;> rfl
  constructor
  · rw [validExponent, hdrop]
    simp only [Bool.and_eq_true, decide_eq_true_eq, List.all_eq_true]
    exact ⟨⟨rfl, digits_ne_nil n⟩, fun u hu => (mem_digits hu).1⟩
  · intro u hu
    rcases List.mem_cons.mp hu with rfl | hu
    · rfl
    · rcases List.mem_cons.mp hu with rfl | hu
      · rcases hsign with rfl | rfl <;> rfl
      · exact (mem_digits hu).2

theorem decimal_fraction {whole fraction back : Utf16} (hw : ∀ u ∈ whole, isDigit u = true)
    (hne : whole ≠ []) (hlead : whole.length = 1 ∨ whole.head? ≠ some 48)
    (hf : ∀ u ∈ fraction, isDigit u = true) (hfne : fraction ≠ [])
    (hback : back = [] ∨ ∃ sign n, (sign = 43 ∨ sign = 45) ∧ back = 101 :: sign :: digits n) :
    Decimal whole (46 :: (fraction ++ back)) := by
  have hexp : validExponent back = true ∧ (∀ u ∈ back, isNumberUnit u = true) ∧
      back.head?.any isDigit = false := by
    rcases hback with rfl | ⟨sign, n, hsign, rfl⟩
    · exact ⟨rfl, fun _ hu => absurd hu List.not_mem_nil, rfl⟩
    · exact ⟨(valid_exponent sign hsign n).1, (valid_exponent sign hsign n).2, rfl⟩
  obtain ⟨htake, hdrop⟩ := takeWhile_stops hf hexp.2.2
  refine ⟨hw, hne, hlead, fun u hu => ?_, rfl, ?_⟩
  · rcases List.mem_cons.mp hu with rfl | hu
    · rfl
    · rcases List.mem_append.mp hu with hu | hu
      · exact isNumberUnit_of_isDigit (hf u hu)
      · exact hexp.2.1 u hu
  · rw [validFraction, if_pos rfl, htake, hdrop]
    simp only [Bool.and_eq_true, decide_eq_true_eq]
    exact ⟨hfne, hexp.1⟩

theorem decimal_magnitude {d : ℕ} (hd : 0 < d) (k : ℤ) :
    ∃ whole rest, magnitudeText d k = whole ++ rest ∧ Decimal whole rest := by
  have hds : ∀ u ∈ digits d, isDigit u = true := fun u hu => (mem_digits hu).1
  have hne : digits d ≠ [] := digits_ne_nil d
  have hhead : (digits d).head? ≠ some 48 := digits_head_of_pos hd
  have htake : ∀ n, ∀ u ∈ (digits d).take n, isDigit u = true :=
    fun n u hu => hds u (List.mem_of_mem_take hu)
  have hdrop : ∀ n, ∀ u ∈ (digits d).drop n, isDigit u = true :=
    fun n u hu => hds u (List.mem_of_mem_drop hu)
  have hlead : ∀ n, 0 < n → (digits d).take n ≠ [] ∧ ((digits d).take n).head? ≠ some 48 := by
    intro n hn
    obtain ⟨u, s, hus⟩ := List.exists_cons_of_ne_nil hne
    obtain ⟨n, rfl⟩ : ∃ m, n = m + 1 := ⟨n - 1, by omega⟩
    rw [hus] at hhead ⊢
    exact ⟨List.cons_ne_nil _ _, hhead⟩
  obtain ⟨sign, hsign, hsign'⟩ : ∃ sign : UInt16,
      (if 0 < ((digits d).length : ℤ) + k then (43 : UInt16) else 45) = sign ∧
        (sign = 43 ∨ sign = 45) := by
    refine ⟨_, rfl, ?_⟩
    split_ifs <;> decide
  rw [magnitudeText, hsign]
  split_ifs with hint hpoint hsmall hone
  · -- all digits in front of the point
    refine ⟨_, [], (List.append_nil _).symm, decimal_whole ?_ ?_ (.inr ?_)⟩
    · intro u hu
      rcases List.mem_append.mp hu with hu | hu
      · exact hds u hu
      · exact digits_zeros _ u hu
    · exact List.append_ne_nil_of_left_ne_nil hne _
    · rwa [List.head?_append, Option.or_of_isSome (List.isSome_head?.mpr hne)]
  · -- the point among the digits
    obtain ⟨htne, hthead⟩ := hlead ((digits d).length + k).toNat (by omega)
    refine ⟨(digits d).take ((digits d).length + k).toNat,
      46 :: ((digits d).drop ((digits d).length + k).toNat ++ []), by rw [List.append_nil],
      decimal_fraction (htake _) htne (.inr hthead) (hdrop _) ?_ (.inl rfl)⟩
    rw [ne_eq, List.drop_eq_nil_iff]
    omega
  · -- zeros behind the point
    refine ⟨[48], 46 :: (zeros (-((digits d).length + k)).toNat ++ digits d ++ []), by simp,
      decimal_fraction ?_ (List.cons_ne_nil _ _) (.inl rfl) ?_ ?_ (.inl rfl)⟩
    · intro u hu
      rw [List.mem_singleton.mp hu]
      rfl
    · intro u hu
      rcases List.mem_append.mp hu with hu | hu
      · exact digits_zeros _ u hu
      · exact hds u hu
    · exact List.append_ne_nil_of_right_ne_nil _ hne
  · -- an exponent behind one digit
    obtain ⟨htne, hthead⟩ := hlead 1 Nat.one_pos
    have hexp := valid_exponent sign hsign' (((digits d).length : ℤ) + k - 1).natAbs
    refine ⟨(digits d).take 1, _, by rw [List.append_nil], htake 1, htne, .inr hthead, hexp.2, rfl, ?_⟩
    rw [validFraction, if_neg (by decide)]
    exact hexp.1
  · -- an exponent behind a fraction
    obtain ⟨htne, hthead⟩ := hlead 1 Nat.one_pos
    refine ⟨(digits d).take 1, 46 :: ((digits d).drop 1 ++ _), by
      rw [List.append_assoc, List.cons_append],
      decimal_fraction (htake 1) htne (.inr hthead) (hdrop 1) hone (.inr ⟨_, _, hsign', rfl⟩)⟩

theorem shortest_pos {x : Binary64} (hx : x.mant ≠ 0) : 0 < x.shortest.1 := by
  rcases Nat.eq_zero_or_pos x.shortest.1 with hzero | hpos
  · have hrounds := Binary64.shortest_rounds x
    rw [hzero, Binary64.ofDecimal, Nat.zero_mul, Binary64.ofFrac, if_pos rfl] at hrounds
    exact absurd (Binary64.mk?_eq_some hrounds).2.1 hx
  · exact hpos

theorem decimal_numberText (x : Binary64) : ∃ (neg : Bool) (whole rest : Utf16),
    numberText x = (if neg then [45] else []) ++ (whole ++ rest) ∧ Decimal whole rest := by
  rw [numberText]
  by_cases hzero : x.mant = 0
  · rw [if_pos hzero]
    exact ⟨false, digits 0, [], rfl, decimal_whole (fun u hu => (mem_digits hu).1)
      (digits_ne_nil 0) (digits_head 0)⟩
  · obtain ⟨whole, rest, htext, hdecimal⟩ := decimal_magnitude (shortest_pos hzero) x.shortest.2
    rw [if_neg hzero, htext]
    exact ⟨x.neg, whole, rest, rfl, hdecimal⟩

theorem numberText_units (x : Binary64) : ∀ u ∈ numberText x, isNumberUnit u = true := by
  obtain ⟨neg, whole, rest, htext, hdecimal⟩ := decimal_numberText x
  rw [htext]
  exact hdecimal.all_units neg

def Closes (s : Utf16) : Prop := s.head?.all (fun u => u = 44 || u = 93 || u = 125) = true

theorem Closes.not_number {s : Utf16} (h : Closes s) : s.head?.any isNumberUnit = false := by
  cases s with
  | nil => rfl
  | cons u s =>
    rw [Closes, List.head?_cons, Option.all_some, Bool.or_eq_true, Bool.or_eq_true,
      decide_eq_true_eq, decide_eq_true_eq, decide_eq_true_eq] at h
    rcases h with (rfl | rfl) | rfl <;> rfl

theorem parseNumber_numberText (x : Binary64) {rest : Utf16} (hrest : Closes rest) :
    parseNumber (numberText x ++ rest) = some (.number (numberText x), rest) := by
  obtain ⟨neg, whole, back, htext, hdecimal⟩ := decimal_numberText x
  obtain ⟨htake, hdrop⟩ := takeWhile_stops (numberText_units x) hrest.not_number
  have hvalid := hdecimal.validNumber neg
  rw [← htext] at hvalid
  rw [parseNumber, htake, hdrop, hvalid, if_pos rfl]

theorem parseValue_cons {n : ℕ} {u : UInt16} (hu : isSpace u = false) (s : Utf16) :
    parseValue (n + 1) (u :: s) =
      if u = 34 then (parseString s).map fun r => (.string r.1, r.2)
      else if u = 123 then parseObject n s
      else if u = 91 then parseArray n s
      else parseAtom u s := by
  rw [parseValue, skip_cons hu]

theorem number_not_space {u : UInt16} (h : isNumberUnit u = true) : isSpace u = false := by
  simp only [isSpace, Bool.or_eq_false_iff, decide_eq_false_iff_not]
  refine ⟨⟨⟨?_, ?_⟩, ?_⟩, ?_⟩
  all_goals
    rintro rfl
    cases h

theorem parseValue_numberText (n : ℕ) (x : Binary64) {rest : Utf16} (hrest : Closes rest) :
    parseValue (n + 1) (numberText x ++ rest) = some (.number (numberText x), rest) := by
  have hparse := parseNumber_numberText x hrest
  obtain ⟨u, s, hus⟩ : ∃ u s, numberText x = u :: s := by
    obtain ⟨neg, whole, back, htext, hdecimal⟩ := decimal_numberText x
    obtain ⟨u, s, hus, -⟩ := hdecimal.head
    cases neg with
    | true => exact ⟨45, whole ++ back, htext⟩
    | false => exact ⟨u, s, htext.trans hus⟩
  have hnumber := numberText_units x u (hus ▸ List.mem_cons_self)
  have hne : ∀ w : UInt16, isNumberUnit w = false → u ≠ w := by
    rintro w hw rfl
    rw [hnumber] at hw
    cases hw
  rw [hus, List.cons_append] at hparse ⊢
  rw [parseValue_cons (number_not_space hnumber), if_neg (hne 34 rfl), if_neg (hne 123 rfl),
    if_neg (hne 91 rfl), parseAtom, if_neg (hne 110 rfl), if_neg (hne 116 rfl), if_neg (hne 102 rfl), hparse]

theorem parseValue_word {n : ℕ} {u : UInt16} {w rest : Utf16} {v : Value} (hu : isSpace u = false)
    (hplain : u ≠ 34 ∧ u ≠ 123 ∧ u ≠ 91) (hatom : parseAtom u (w ++ rest) = some (v, rest)) :
    parseValue (n + 1) (u :: w ++ rest) = some (v, rest) := by
  rw [List.cons_append, parseValue_cons hu, if_neg hplain.1, if_neg hplain.2.1, if_neg hplain.2.2, hatom]

theorem closes_comma (s : Utf16) : Closes (44 :: s) := rfl
theorem closes_bracket (s : Utf16) : Closes (93 :: s) := rfl
theorem closes_brace (s : Utf16) : Closes (125 :: s) := rfl

theorem text_pos (v : Js) : 0 < v.written.text.length := by
  cases v with
  | null => decide
  | bool b => cases b <;> decide
  | number x =>
    cases x with
    | finite x =>
      obtain ⟨neg, whole, rest, htext, hdecimal⟩ := decimal_numberText x
      have hwhole := List.length_pos_iff.mpr hdecimal.ne_nil
      simp only [Js.written, Value.text, htext, List.length_append]
      omega
    | infinite neg => exact Nat.succ_pos _
    | nan => exact Nat.succ_pos _
  | string s => exact Nat.succ_pos _
  | array items => exact Nat.succ_pos _
  | object members => exact Nat.succ_pos _

theorem text_head (v : Js) : ∃ u s, v.written.text = u :: s ∧ isSpace u = false ∧ u ≠ 93 := by
  -- A value starts with no blank and no closing bracket.
  cases v with
  | null => exact ⟨110, utf16 "ull", rfl, rfl, by decide⟩
  | bool b =>
    cases b with
    | true => exact ⟨116, utf16 "rue", rfl, rfl, by decide⟩
    | false => exact ⟨102, utf16 "alse", rfl, rfl, by decide⟩
  | number x =>
    cases x with
    | finite x =>
      obtain ⟨u, s, hus⟩ := List.exists_cons_of_length_pos (text_pos (.number (.finite x)))
      have hnumber := numberText_units x u (List.mem_of_mem_head? (by
        rw [Js.written, Value.text] at hus
        rw [hus]
        rfl))
      refine ⟨u, s, hus, number_not_space hnumber, ?_⟩
      rintro rfl
      cases hnumber
    | infinite neg => exact ⟨110, utf16 "ull", rfl, rfl, by decide⟩
    | nan => exact ⟨110, utf16 "ull", rfl, rfl, by decide⟩
  | string s => exact ⟨34, _, rfl, rfl, by decide⟩
  | array items => exact ⟨91, _, rfl, rfl, by decide⟩
  | object members => exact ⟨123, _, rfl, rfl, by decide⟩

theorem quote_length (s : Utf16) : 2 ≤ (quote s).length := by
  rw [quote, List.length_cons, List.length_append, List.length_singleton]
  omega

mutual

theorem parseValue_text : ∀ (v : Js) {n : ℕ} (rest : Utf16), 2 * v.written.text.length ≤ n + 2 →
    Closes rest → parseValue (n + 2) (v.written.text ++ rest) = some (v.written, rest)
  | .null, n, rest, _, _ => parseValue_word (w := utf16 "ull") rfl (by decide) rfl
  | .bool true, n, rest, _, _ => parseValue_word (w := utf16 "rue") rfl (by decide) rfl
  | .bool false, n, rest, _, _ => parseValue_word (w := utf16 "alse") rfl (by decide) rfl
  | .number (.finite x), n, rest, _, hrest => parseValue_numberText (n + 1) x hrest
  | .number (.infinite _), n, rest, _, _ => parseValue_word (w := utf16 "ull") rfl (by decide) rfl
  | .number .nan, n, rest, _, _ => parseValue_word (w := utf16 "ull") rfl (by decide) rfl
  | .string s, n, rest, _, _ => by
    obtain ⟨body, hbody, hparse⟩ := parseString_quote s rest
    rw [Js.written, Value.text, hbody, parseValue_cons (by decide), if_pos rfl, hparse]
    rfl
  | .array [], n, rest, _, _ => by
    change parseValue (n + 2) (91 :: 93 :: rest) = _
    rw [parseValue_cons (by decide), if_neg (by decide), if_neg (by decide), if_pos rfl, parseArray,
      skip_cons (by decide)]
    rfl
  | .array (v :: items), n, rest, hn, _ => by
    have hpos := text_pos v
    simp only [Js.written, Value.text, writtenItems, itemsText, List.length_cons, List.length_append,
      List.length_nil] at hn
    obtain ⟨n, rfl⟩ : ∃ m, n = m + 3 := ⟨n - 3, by omega⟩
    have hitems := parseItems_text (v :: items) (n := n) rest (List.cons_ne_nil v items)
      (by rw [writtenItems, itemsText, List.length_append]; omega)
    have htext : (Js.array (v :: items)).written.text ++ rest =
        91 :: (itemsText (writtenItems (v :: items)) ++ 93 :: rest) := by
      rw [Js.written, Value.text, List.cons_append, List.append_assoc, List.singleton_append]
    obtain ⟨u, s, hus, hu⟩ := text_head v
    rw [htext, parseValue_cons (by decide), if_neg (by decide), if_neg (by decide), if_pos rfl,
      parseArray, hitems]
    rw [writtenItems, itemsText, hus, List.cons_append, List.cons_append, skip_cons hu.1]
    dsimp only
    rw [if_neg hu.2]
    rfl
  | .object [], n, rest, _, _ => by
    change parseValue (n + 2) (123 :: 125 :: rest) = _
    rw [parseValue_cons (by decide), if_neg (by decide), if_pos rfl, parseObject, skip_cons (by decide)]
    rfl
  | .object ((k, v) :: members), n, rest, hn, _ => by
    have hquote := quote_length k
    simp only [Js.written, Value.text, writtenMembers, membersText, List.length_cons,
      List.length_append, List.length_nil] at hn
    obtain ⟨n, rfl⟩ : ∃ m, n = m + 3 := ⟨n - 3, by omega⟩
    have hmembers := parseMembers_text ((k, v) :: members) (n := n) rest (List.cons_ne_nil _ _)
      (by rw [writtenMembers, membersText]; simp only [List.length_cons, List.length_append]; omega)
    have htext : (Js.object ((k, v) :: members)).written.text ++ rest =
        123 :: (membersText (writtenMembers ((k, v) :: members)) ++ 125 :: rest) := by
      rw [Js.written, Value.text, List.cons_append, List.append_assoc, List.singleton_append]
    rw [htext, parseValue_cons (by decide), if_neg (by decide), if_pos rfl, parseObject, hmembers]
    rw [writtenMembers, membersText, quote, List.cons_append, List.cons_append, skip_cons (by decide)]
    rfl

theorem parseItems_text : ∀ (items : List Js) {n : ℕ} (rest : Utf16), items ≠ [] →
    2 * (itemsText (writtenItems items)).length + 1 ≤ n + 3 →
    parseItems (n + 3) (itemsText (writtenItems items) ++ 93 :: rest) =
      some (writtenItems items, rest)
  | [], _, _, hne, _ => absurd rfl hne
  | [v], n, rest, _, hn => by
    simp only [writtenItems, itemsText, moreItems, List.append_nil] at hn ⊢
    have hvalue := parseValue_text v (n := n) (93 :: rest) (by omega) (closes_bracket rest)
    rw [parseItems, hvalue]
    dsimp only
    rw [skip_cons (by decide)]
    dsimp only
    rw [if_neg (by decide), if_pos rfl]
  | v :: w :: items, n, rest, _, hn => by
    have hpos := text_pos v
    have hpos' := text_pos w
    have htext : itemsText (writtenItems (v :: w :: items)) =
        v.written.text ++ 44 :: itemsText (writtenItems (w :: items)) := by
      simp only [writtenItems, itemsText, moreItems]
    have hlen : (itemsText (writtenItems (w :: items))).length =
        w.written.text.length + (moreItems (writtenItems items)).length := by
      rw [writtenItems, itemsText, List.length_append]
    rw [htext, List.length_append, List.length_cons, hlen] at hn
    have hvalue := parseValue_text v (n := n)
      (44 :: (itemsText (writtenItems (w :: items)) ++ 93 :: rest)) (by omega) (closes_comma _)
    obtain ⟨n, rfl⟩ : ∃ m, n = m + 1 := ⟨n - 1, by omega⟩
    have hmore := parseItems_text (w :: items) (n := n) rest (List.cons_ne_nil w items)
      (by rw [hlen]; omega)
    rw [htext, List.append_assoc, List.cons_append, parseItems, hvalue]
    dsimp only
    rw [skip_cons (by decide)]
    dsimp only
    rw [if_pos rfl, hmore]
    rfl

theorem parseMembers_text : ∀ (members : List (Utf16 × Js)) {n : ℕ} (rest : Utf16), members ≠ [] →
    2 * (membersText (writtenMembers members)).length ≤ n + 3 →
    parseMembers (n + 3) (membersText (writtenMembers members) ++ 125 :: rest) =
      some (writtenMembers members, rest)
  | [], _, _, hne, _ => absurd rfl hne
  | [(k, v)], n, rest, _, hn => by
    simp only [writtenMembers, membersText, moreMembers, List.append_nil, List.length_append,
      List.length_cons, List.append_assoc, List.cons_append] at hn ⊢
    have hvalue := parseValue_text v (n := n) (125 :: rest) (by omega) (closes_brace rest)
    obtain ⟨body, hbody, hparse⟩ := parseString_quote k (58 :: (v.written.text ++ 125 :: rest))
    rw [hbody, parseMembers, skip_cons (by decide)]
    dsimp only
    rw [if_pos rfl, hparse]
    dsimp only
    rw [skip_cons (by decide)]
    dsimp only
    rw [if_pos rfl, hvalue]
    dsimp only
    rw [skip_cons (by decide)]
    dsimp only
    rw [if_neg (by decide), if_pos rfl]
  | (k, v) :: (l, w) :: members, n, rest, _, hn => by
    have hquote := quote_length l
    have hpos := text_pos v
    have htext : membersText (writtenMembers ((k, v) :: (l, w) :: members)) =
        quote k ++ 58 :: (v.written.text ++ 44 :: membersText (writtenMembers ((l, w) :: members))) := by
      simp only [writtenMembers, membersText, moreMembers]
    have hlen : 2 ≤ (membersText (writtenMembers ((l, w) :: members))).length := by
      rw [writtenMembers, membersText, List.length_append]
      omega
    rw [htext] at hn
    simp only [List.length_append, List.length_cons] at hn
    have hvalue := parseValue_text v (n := n)
      (44 :: (membersText (writtenMembers ((l, w) :: members)) ++ 125 :: rest)) (by omega)
      (closes_comma _)
    obtain ⟨n, rfl⟩ : ∃ m, n = m + 1 := ⟨n - 1, by omega⟩
    have hmore := parseMembers_text ((l, w) :: members) (n := n) rest (List.cons_ne_nil _ _) (by omega)
    obtain ⟨body, hbody, hparse⟩ := parseString_quote k
      (58 :: (v.written.text ++ 44 :: (membersText (writtenMembers ((l, w) :: members)) ++ 125 :: rest)))
    rw [htext, List.append_assoc, List.cons_append, List.append_assoc, List.cons_append, hbody,
      parseMembers, skip_cons (by decide)]
    dsimp only
    rw [if_pos rfl, hparse]
    dsimp only
    rw [skip_cons (by decide)]
    dsimp only
    rw [if_pos rfl, hvalue]
    dsimp only
    rw [skip_cons (by decide)]
    dsimp only
    rw [if_pos rfl, hmore]
    rfl

end

theorem parse_text (v : Js) : parse v.stringify = some v.written := by
  have hvalue := parseValue_text v (n := 2 * v.stringify.length) [] (Nat.le_add_right _ 2) rfl
  rw [List.append_nil, ← Js.stringify] at hvalue
  rw [parse, hvalue]
  rfl

theorem written_eq_of_stringify {v w : Js} (h : v.stringify = w.stringify) :
    v.written = w.written := by
  have hparse := parse_text v
  rw [h, parse_text] at hparse
  exact (Option.some.inj hparse).symm

def charOf (u : UInt16) : Char := Char.ofNat u.toNat

theorem toNat_ofNat_char {n : ℕ} (h : n < 0xD800 ∨ 0xDFFF < n ∧ n < 0x110000) :
    (Char.ofNat n).toNat = n := by
  rw [Char.ofNat, dif_pos h]
  rfl

theorem map_digits (n : ℕ) : (digits n).map charOf = Nat.toDigits 10 n := by
  have hdigit : ∀ k < 10, charOf (UInt16.ofNat (Nat.digitChar k).toNat) = Nat.digitChar k := by decide
  rw [digits, List.map_map]
  refine (List.map_congr_left fun c hc => ?_).trans (List.map_id _)
  obtain ⟨k, hk, rfl⟩ := toDigits_cases hc
  exact hdigit k hk

theorem map_zeros (n : ℕ) : (zeros n).map charOf = List.replicate n '0' := List.map_replicate

theorem readDecimal_digits {ds : List Char} (hd : Binary64.AllDigits ds) :
    Binary64.readDecimal ds = (Nat.ofDigitChars 10 ds 0, 0) := by
  obtain ⟨ht, hr⟩ := Binary64.takeWhile_all (hd.notMem (c := 'e') rfl)
  obtain ⟨hi, hf⟩ := Binary64.takeWhile_all (hd.notMem (c := '.') rfl)
  simp only [Binary64.readDecimal, ht, hr, hi, hf, List.tail_nil, List.append_nil,
    Binary64.readExponent, Nat.ofDigitChars_nil]
  rfl

theorem readExponent_signed (e : ℤ) : Binary64.readExponent
    ((if 0 ≤ e then '+' else '-') :: Nat.toDigits 10 e.natAbs) = e := by
  split_ifs with he
  · rw [Binary64.readExponent, Nat.ofDigitChars_ten_toDigits]
    omega
  · rw [Binary64.readExponent, Nat.ofDigitChars_ten_toDigits]
    omega

theorem readDecimal_magnitude (d : ℕ) (k : ℤ) :
    ((Binary64.readDecimal ((magnitudeText d k).map charOf)).1 : ℚ) *
      10 ^ (Binary64.readDecimal ((magnitudeText d k).map charOf)).2 = d * 10 ^ k := by
  have hds := Binary64.allDigits_toDigits d
  have hvalue : Nat.ofDigitChars 10 (Nat.toDigits 10 d) 0 = d := Nat.ofDigitChars_ten_toDigits
  have hlen : (digits d).length = (Nat.toDigits 10 d).length := by
    rw [← map_digits, List.length_map]
  have htake : ∀ n, Binary64.AllDigits ((Nat.toDigits 10 d).take n) :=
    fun n c hc => hds c (List.mem_of_mem_take hc)
  have hdrop : ∀ n, Binary64.AllDigits ((Nat.toDigits 10 d).drop n) :=
    fun n c hc => hds c (List.mem_of_mem_drop hc)
  have hfraction : (if (digits d).drop 1 = [] then [] else 46 :: (digits d).drop 1).map charOf =
      if (Nat.toDigits 10 d).drop 1 = [] then [] else '.' :: (Nat.toDigits 10 d).drop 1 := by
    have hmap : (Nat.toDigits 10 d).drop 1 = ((digits d).drop 1).map charOf := by
      rw [List.map_drop, map_digits]
    rw [hmap]
    generalize (digits d).drop 1 = fraction
    cases fraction <;> rfl
  rw [magnitudeText, hlen]
  generalize hpoint : ((Nat.toDigits 10 d).length : ℤ) + k = point
  have hsign : charOf (if 0 < point then 43 else 45) = if 0 ≤ point - 1 then '+' else '-' := by
    by_cases hpos : 0 < point
    · rw [if_pos hpos, if_pos (Int.le_sub_one_of_lt hpos)]
      rfl
    · rw [if_neg hpos, if_neg (by omega)]
      rfl
  by_cases hint : (Nat.toDigits 10 d).length ≤ point ∧ point ≤ 21
  · rw [if_pos hint, List.map_append, map_digits, map_zeros,
      readDecimal_digits (hds.append (Binary64.allDigits_replicate _)), Nat.ofDigitChars_append,
      Nat.ofDigitChars_replicate_zero, hvalue]
    have hk : k = ((point - (Nat.toDigits 10 d).length).toNat : ℤ) := by omega
    rw [hk, zpow_natCast, zpow_zero, mul_one]
    push_cast
    ring
  rw [if_neg hint]
  by_cases hmiddle : 0 < point ∧ point ≤ 21
  · rw [if_pos hmiddle, List.map_append, List.map_cons, List.map_take, List.map_drop, map_digits]
    change ((Binary64.readDecimal (_ ++ '.' :: _)).1 : ℚ) * 10 ^ (Binary64.readDecimal (_ ++ '.' :: _)).2 = _
    rw [Binary64.readDecimal_fixed (htake _) (hdrop _), List.take_append_drop, hvalue]
    congr 2
    rw [List.length_drop]
    omega
  rw [if_neg hmiddle]
  by_cases hsmall : -6 < point ∧ point ≤ 0
  · have hz := (Binary64.allDigits_replicate (-point).toNat).append hds
    rw [if_pos hsmall, List.map_cons, List.map_cons, List.map_append, map_zeros, map_digits]
    have hone : Binary64.AllDigits ['0'] := Binary64.allDigits_replicate 1
    change ((Binary64.readDecimal (['0'] ++ '.' :: _)).1 : ℚ) *
      10 ^ (Binary64.readDecimal (['0'] ++ '.' :: _)).2 = _
    rw [Binary64.readDecimal_fixed hone hz]
    dsimp only
    rw [← List.append_assoc, show ['0'] = List.replicate 1 '0' from rfl, ← List.replicate_add,
      Binary64.ofDigitChars_zeros_append, hvalue]
    congr 2
    rw [List.length_append, List.length_replicate]
    push_cast
    omega
  · rw [if_neg hsmall, List.map_append, List.map_append, List.map_take, hfraction, List.map_cons,
      List.map_cons, map_digits, hsign]
    change ((Binary64.readDecimal (_ ++ 'e' :: _)).1 : ℚ) * 10 ^ (Binary64.readDecimal (_ ++ 'e' :: _)).2 = _
    rw [Binary64.readDecimal_scientific (htake 1) (hdrop 1), map_digits, readExponent_signed,
      List.take_append_drop, hvalue]
    congr 2
    rw [List.length_drop]
    have hpos : 0 < (Nat.toDigits 10 d).length := List.length_pos_iff.mpr Nat.toDigits_ne_nil
    omega

theorem ofText_numberText (x : Binary64) :
    Binary64.ofText ((numberText x).map charOf) = some (unsigned x) := by
  rw [numberText, unsigned]
  by_cases hzero : x.mant = 0
  · rw [if_pos hzero, if_pos hzero]
    rfl
  · rw [if_neg hzero, if_neg hzero, List.map_append]
    have hrounds := Binary64.shortest_rounds x
    have hread : ∀ neg, Binary64.ofDecimal neg
        (Binary64.readDecimal ((magnitudeText x.shortest.1 x.shortest.2).map charOf)).1
        (Binary64.readDecimal ((magnitudeText x.shortest.1 x.shortest.2).map charOf)).2 =
        Binary64.ofDecimal neg x.shortest.1 x.shortest.2 :=
      fun neg => Binary64.ofDecimal_congr neg (readDecimal_magnitude _ _)
    cases hneg : x.neg with
    | true =>
      rw [hneg] at hrounds
      exact (hread true).trans hrounds
    | false =>
      rw [hneg] at hrounds
      obtain ⟨whole, rest, htext, hdecimal⟩ :=
        decimal_magnitude (shortest_pos hzero) x.shortest.2
      obtain ⟨u, s, hus, hu⟩ := hdecimal.head
      rw [← htext] at hus
      have hminus : ∀ cs, (magnitudeText x.shortest.1 x.shortest.2).map charOf ≠ '-' :: cs := by
        intro cs hcs
        rw [hus, List.map_cons] at hcs
        have hchar : (charOf u).toNat = 45 := congrArg Char.toNat (List.cons.inj hcs).1
        simp only [isDigit, Bool.and_eq_true, decide_eq_true_eq, UInt16.le_iff_toNat_le] at hu
        have hlow : 48 ≤ u.toNat := hu.1
        have hhigh : u.toNat ≤ 57 := hu.2
        rw [charOf, toNat_ofNat_char (by omega)] at hchar
        omega
      rw [← hrounds, ← hread false]
      simp only [Bool.false_eq_true, if_false, List.map_nil, List.nil_append]
      unfold Binary64.ofText
      split
      · next cs hcs => exact absurd hcs (hminus cs)
      · rfl

/-- The number that a literal stands for; too large ones are infinite. -/
def numberOf (literal : Utf16) : PyFloat :=
  match Binary64.ofText (literal.map charOf) with
  | some x => .finite x
  | none => .infinite (literal.head? = some 45)

mutual

def Value.js : Value → Js
  | .null => .null
  | .bool b => .bool b
  | .number literal => .number (numberOf literal)
  | .string s => .string s
  | .array items => .array (jsItems items)
  | .object members => .object (jsMembers members)

def jsItems : List Value → List Js
  | [] => []
  | v :: items => v.js :: jsItems items

def jsMembers : List (Utf16 × Value) → List (Utf16 × Js)
  | [] => []
  | (k, v) :: members => (k, v.js) :: jsMembers members

end

theorem numberOf_numberText (x : Binary64) : numberOf (numberText x) = .finite (unsigned x) := by
  rw [numberOf, ofText_numberText]

mutual

theorem js_written : ∀ v : Js, v.written.js = v.reread
  | .null => rfl
  | .bool _ => rfl
  | .number (.finite x) => congrArg Js.number (numberOf_numberText x)
  | .number (.infinite _) => rfl
  | .number .nan => rfl
  | .string _ => rfl
  | .array items => congrArg Js.array (js_items items)
  | .object members => congrArg Js.object (js_members members)

theorem js_items : ∀ items : List Js, jsItems (writtenItems items) = rereadItems items
  | [] => rfl
  | v :: items => congrArg₂ List.cons (js_written v) (js_items items)

theorem js_members : ∀ members : List (Utf16 × Js),
    jsMembers (writtenMembers members) = rereadMembers members
  | [] => rfl
  | (k, v) :: members =>
    congrArg₂ List.cons (congrArg (Prod.mk k) (js_written v)) (js_members members)

end

theorem reread_eq_of_stringify {v w : Js} (h : v.stringify = w.stringify) : v.reread = w.reread := by
  rw [← js_written, ← js_written, written_eq_of_stringify h]

theorem number_plain {u : UInt16} (h : isNumberUnit u = true) : u ∉ marks := by
  intro hu
  simp only [marks, List.mem_cons, List.not_mem_nil, or_false] at hu
  rcases hu with rfl | rfl | rfl | rfl | rfl | rfl | rfl <;> cases h

theorem nested_word {s : Utf16} (h : s.all (fun u => u ∉ marks) = true) : Nested 1 s :=
  nested_plain 1 fun u hu => of_decide_eq_true (List.all_eq_true.mp h u hu)

mutual

theorem nested_text : ∀ v : Js, Nested 1 v.written.text
  | .null => nested_word rfl
  | .bool true => nested_word rfl
  | .bool false => nested_word rfl
  | .number (.finite x) => nested_plain 1 fun u hu => number_plain (numberText_units x u hu)
  | .number (.infinite _) => nested_word rfl
  | .number .nan => nested_word rfl
  | .string s => nested_quote 1 s
  | .array items => by
    rw [Js.written, Value.text]
    exact (nested_items items).1.wrap (.inr rfl) (.inr rfl)
  | .object members => by
    rw [Js.written, Value.text]
    exact (nested_members members).1.wrap (.inl rfl) (.inl rfl)

theorem nested_items : ∀ items : List Js, Nested 0 (itemsText (writtenItems items)) ∧
    Nested 0 (moreItems (writtenItems items))
  | [] => ⟨nested_nil 0, nested_nil 0⟩
  | v :: items => by
    have hall := ((nested_text v).mono (by decide : (0 : ℤ) ≤ 1)).append (nested_items items).2
    have hcomma : Nested 0 [44] := (nested_word rfl).mono (by decide)
    rw [writtenItems, itemsText, moreItems]
    exact ⟨hall, hcomma.append hall⟩

theorem nested_members : ∀ members : List (Utf16 × Js),
    Nested 0 (membersText (writtenMembers members)) ∧ Nested 0 (moreMembers (writtenMembers members))
  | [] => ⟨nested_nil 0, nested_nil 0⟩
  | (k, v) :: members => by
    have hvalue := ((nested_text v).mono (by decide : (0 : ℤ) ≤ 1)).append (nested_members members).2
    have hall := (nested_quote 0 k).append (nested_colon.append hvalue)
    have hcomma : Nested 0 [44] := (nested_word rfl).mono (by decide)
    rw [writtenMembers, membersText, moreMembers]
    exact ⟨hall, hcomma.append hall⟩

end

theorem step_inString (p : Place) (u : UInt16) : (p.step u).inString =
    if p.escaped = false ∧ u = 34 then !p.inString else p.inString := by
  rw [Place.step]
  cases p.escaped with
  | true => simp
  | false =>
    by_cases hback : u = 92
    · subst hback
      simp
    · by_cases hquote : u = 34
      · simp [hquote]
      · simp only [hback, hquote, Bool.false_eq_true, if_false, and_false]
        split_ifs <;> rfl

theorem step_escaped (p : Place) (u : UInt16) :
    (p.step u).escaped = (!p.escaped && decide (u = 92)) := by
  rw [Place.step]
  cases hp : p.escaped with
  | true => simp
  | false =>
    by_cases hback : u = 92
    · simp [hback]
    · simp only [hback, Bool.false_eq_true, if_false, decide_false, Bool.and_false]
      split_ifs <;> first | exact hp | rfl

theorem run_opposite (s : Utf16) {p q : Place} (hin : p.inString = !q.inString)
    (hescaped : p.escaped = q.escaped) : (p.run s).inString = !(q.run s).inString := by
  induction s generalizing p q with
  | nil => exact hin
  | cons u s ih =>
    refine ih ?_ ?_
    · rw [step_inString, step_inString, hin, hescaped]
      split_ifs <;> rfl
    · rw [step_escaped, step_escaped, hescaped]

theorem step_colon (p : Place) : p.step 58 = ⟨p.inString, false, p.depth⟩ := by
  obtain ⟨inString, escaped, depth⟩ := p
  cases inString <;> cases escaped <;> rfl

theorem Nested.ne_append {k : ℤ} {s t x : Utf16} (hs : Nested 1 s) (ht : Nested k t) :
    s ≠ x ++ 58 :: t := by
  -- The part behind a colon is no such text: it starts inside a string, or further down.
  rintro rfl
  have hguarded := hs.guarded 0
  have hclosed := hs.closed 0
  rw [guarded_append] at hguarded
  rw [run_append] at hclosed
  generalize (outsideAt 0).run x = p at hguarded hclosed
  change (p.step 58).run t = _ at hclosed
  rw [step_colon] at hclosed
  rcases hguarded.2.1 rfl with hin | hdepth
  · have hopposite := run_opposite t (p := ⟨p.inString, false, p.depth⟩) (q := outsideAt 0) hin rfl
    rw [hclosed, ht.closed] at hopposite
    exact Bool.false_ne_true hopposite
  · cases hin : p.inString with
    | true =>
      have hopposite := run_opposite t (p := ⟨p.inString, false, p.depth⟩) (q := outsideAt 0) hin rfl
      rw [hclosed, ht.closed] at hopposite
      exact Bool.false_ne_true hopposite
    | false =>
      rw [hin] at hclosed
      have hdown : p.depth = 0 := congrArg Place.depth ((ht.closed p.depth).symm.trans hclosed)
      omega

def unitsOf (c : Char) : Utf16 :=
  if c.toNat < 0x10000 then [UInt16.ofNat c.toNat]
  else [UInt16.ofNat (0xD800 + (c.toNat - 0x10000) / 0x400),
    UInt16.ofNat (0xDC00 + (c.toNat - 0x10000) % 0x400)]

def ofChars (cs : List Char) : Utf16 := cs.flatMap unitsOf

def Paired (s : Utf16) : Prop := ∃ cs, ofChars cs = s

theorem isHigh_iff {u : UInt16} : isHigh u = true ↔ 0xD800 ≤ u.toNat ∧ u.toNat < 0xDC00 := by
  simp only [isHigh, Bool.and_eq_true, decide_eq_true_eq, UInt16.le_iff_toNat_le,
    UInt16.lt_iff_toNat_lt]
  rfl

theorem isLow_iff {u : UInt16} : isLow u = true ↔ 0xDC00 ≤ u.toNat ∧ u.toNat < 0xE000 := by
  simp only [isLow, Bool.and_eq_true, decide_eq_true_eq, UInt16.le_iff_toNat_le,
    UInt16.lt_iff_toNat_lt]
  rfl

theorem toChars_cons {u : UInt16} (hu : isHigh u = false) (s : Utf16) :
    toChars (u :: s) = toChar u :: toChars s := by
  cases s with
  | nil => rfl
  | cons v s => rw [toChars, hu, Bool.false_and, if_neg Bool.false_ne_true]

theorem toChars_pair {u v : UInt16} (hu : isHigh u = true) (hv : isLow v = true) (s : Utf16) :
    toChars (u :: v :: s) =
      Char.ofNat (0x10000 + (u.toNat - 0xD800) * 0x400 + (v.toNat - 0xDC00)) :: toChars s := by
  rw [toChars, hu, hv, Bool.and_self, if_pos rfl]

theorem toChars_unitsOf (c : Char) (s : Utf16) : toChars (unitsOf c ++ s) = c :: toChars s := by
  have hvalid : c.toNat < 0xD800 ∨ 0xDFFF < c.toNat ∧ c.toNat < 0x110000 := c.valid
  rw [unitsOf]
  split_ifs with hsmall
  · have hnat : (UInt16.ofNat c.toNat).toNat = c.toNat := UInt16.toNat_ofNat_of_lt hsmall
    have hhigh : isHigh (UInt16.ofNat c.toNat) = false := by
      rw [Bool.eq_false_iff, ne_eq, isHigh_iff, hnat]
      omega
    have hlow : isLow (UInt16.ofNat c.toNat) = false := by
      rw [Bool.eq_false_iff, ne_eq, isLow_iff, hnat]
      omega
    rw [List.singleton_append, toChars_cons hhigh, toChar, hhigh, hlow, Bool.or_self,
      if_neg Bool.false_ne_true, hnat, Char.ofNat_toNat]
  · have hfirst : (UInt16.ofNat (0xD800 + (c.toNat - 0x10000) / 0x400)).toNat =
        0xD800 + (c.toNat - 0x10000) / 0x400 := UInt16.toNat_ofNat_of_lt (by unfold UInt16.size; omega)
    have hsecond : (UInt16.ofNat (0xDC00 + (c.toNat - 0x10000) % 0x400)).toNat =
        0xDC00 + (c.toNat - 0x10000) % 0x400 := UInt16.toNat_ofNat_of_lt (by unfold UInt16.size; omega)
    have hchar : 0x10000 + (0xD800 + (c.toNat - 0x10000) / 0x400 - 0xD800) * 0x400 +
        (0xDC00 + (c.toNat - 0x10000) % 0x400 - 0xDC00) = c.toNat := by omega
    rw [List.cons_append, List.singleton_append,
      toChars_pair (isHigh_iff.mpr (by rw [hfirst]; omega)) (isLow_iff.mpr (by rw [hsecond]; omega)),
      hfirst, hsecond, hchar, Char.ofNat_toNat]

theorem toChars_ofChars (cs : List Char) : toChars (ofChars cs) = cs := by
  induction cs with
  | nil => rfl
  | cons c cs ih => rw [ofChars, List.flatMap_cons, toChars_unitsOf, ← ofChars, ih]

theorem Paired.ofChars_toChars {s : Utf16} (hs : Paired s) : ofChars (toChars s) = s := by
  obtain ⟨cs, rfl⟩ := hs
  rw [toChars_ofChars]

theorem ofChars_append (cs ds : List Char) : ofChars (cs ++ ds) = ofChars cs ++ ofChars ds :=
  List.flatMap_append

theorem paired_nil : Paired [] := ⟨[], rfl⟩

theorem Paired.append {s t : Utf16} (hs : Paired s) (ht : Paired t) : Paired (s ++ t) := by
  obtain ⟨cs, rfl⟩ := hs
  obtain ⟨ds, rfl⟩ := ht
  exact ⟨cs ++ ds, ofChars_append cs ds⟩

theorem paired_unit {u : UInt16} (hu : isHigh u = false) (hv : isLow u = false) : Paired [u] := by
  have hbound : u.toNat < 65536 := u.toNat_lt
  rw [Bool.eq_false_iff, ne_eq, isHigh_iff] at hu
  rw [Bool.eq_false_iff, ne_eq, isLow_iff] at hv
  refine ⟨[Char.ofNat u.toNat], ?_⟩
  rw [ofChars, List.flatMap_singleton, unitsOf, toNat_ofNat_char (by omega), if_pos hbound,
    UInt16.ofNat_toNat]

theorem paired_pair {u v : UInt16} (hu : isHigh u = true) (hv : isLow v = true) : Paired [u, v] := by
  rw [isHigh_iff] at hu
  rw [isLow_iff] at hv
  refine ⟨[Char.ofNat (0x10000 + (u.toNat - 0xD800) * 0x400 + (v.toNat - 0xDC00))], ?_⟩
  have hfirst : 0xD800 + (0x10000 + (u.toNat - 0xD800) * 0x400 + (v.toNat - 0xDC00) - 0x10000) / 0x400 =
      u.toNat := by omega
  have hsecond : 0xDC00 + (0x10000 + (u.toNat - 0xD800) * 0x400 + (v.toNat - 0xDC00) - 0x10000) % 0x400 =
      v.toNat := by omega
  rw [ofChars, List.flatMap_singleton, unitsOf, toNat_ofNat_char (by omega), if_neg (by omega), hfirst,
    hsecond, UInt16.ofNat_toNat, UInt16.ofNat_toNat]

theorem toChars_colon : ∀ s t : Utf16, toChars (s ++ 58 :: t) = toChars s ++ ':' :: toChars t
  | [], t => toChars_cons rfl t
  | [u], t => by
    have hcolon : toChars (58 :: t) = ':' :: toChars t := toChars_cons rfl t
    have hlow : isLow 58 = false := rfl
    change toChars (u :: 58 :: t) = toChar u :: ':' :: toChars t
    rw [toChars, hlow, Bool.and_false, if_neg Bool.false_ne_true, hcolon]
  | u :: v :: s, t => by
    rw [List.cons_append, List.cons_append, toChars, toChars]
    split_ifs
    · rw [toChars_colon s t, List.cons_append]
    · rw [← List.cons_append, toChars_colon (v :: s) t, List.cons_append]

theorem paired_plain {s : Utf16} (h : ∀ u ∈ s, isHigh u = false ∧ isLow u = false) : Paired s := by
  induction s with
  | nil => exact paired_nil
  | cons u s ih =>
    have hu := h u List.mem_cons_self
    exact (paired_unit hu.1 hu.2).append (ih fun v hv => h v (List.mem_cons_of_mem u hv))

theorem paired_word {s : Utf16} (h : s.all (fun u => !isHigh u && !isLow u) = true) : Paired s :=
  paired_plain fun u hu => by
    have hboth := List.all_eq_true.mp h u hu
    rwa [Bool.and_eq_true, Bool.not_eq_true', Bool.not_eq_true'] at hboth

theorem paired_hexUnit {n : ℕ} (hn : n < 16) : Paired [hexUnit n] := by
  have hall : ∀ n < 16, isHigh (hexUnit n) = false ∧ isLow (hexUnit n) = false := by decide
  exact paired_unit (hall n hn).1 (hall n hn).2

theorem paired_unicodeEscape (u : UInt16) : Paired (unicodeEscape u) := by
  have hu : u.toNat < 65536 := u.toNat_lt
  have hfront : Paired [92, 117] := paired_word rfl
  exact hfront.append ((paired_hexUnit (by omega)).append ((paired_hexUnit
    (Nat.mod_lt _ (by decide))).append ((paired_hexUnit (Nat.mod_lt _ (by decide))).append
      (paired_hexUnit (Nat.mod_lt _ (by decide))))))

theorem paired_escapeUnit (u : UInt16) : Paired (escapeUnit u) := by
  rw [escapeUnit]
  split_ifs with h8 h9 h10 h12 h13 h34 h92 hcontrol
  all_goals first
    | exact paired_word rfl
    | exact paired_unicodeEscape u
    | skip
  rw [Bool.or_eq_true, Bool.or_eq_true, not_or, not_or] at hcontrol
  exact paired_unit (Bool.eq_false_iff.mpr hcontrol.1.2) (Bool.eq_false_iff.mpr hcontrol.2)

theorem paired_escape : ∀ s : Utf16, Paired (escape false s)
  | [] => paired_nil
  | [u] => by
    rw [escape, if_neg Bool.false_ne_true, startsLow, Bool.and_false, if_neg Bool.false_ne_true]
    exact (paired_escapeUnit u).append paired_nil
  | u :: v :: s => by
    rw [escape, if_neg Bool.false_ne_true, startsLow]
    split_ifs with hpair
    · rw [Bool.and_eq_true] at hpair
      rw [escape, if_pos rfl]
      exact (paired_pair hpair.1 hpair.2).append (paired_escape s)
    · exact (paired_escapeUnit u).append (paired_escape (v :: s))

theorem paired_quote (s : Utf16) : Paired (quote s) := by
  have hmark : Paired [34] := paired_word rfl
  exact hmark.append ((paired_escape s).append hmark)

theorem number_unpaired {u : UInt16} (h : isNumberUnit u = true) :
    isHigh u = false ∧ isLow u = false := by
  have hle : u.toNat ≤ 101 := by
    simp only [isNumberUnit, isDigit, Bool.or_eq_true, Bool.and_eq_true, decide_eq_true_eq,
      UInt16.le_iff_toNat_le] at h
    rcases h with ((((⟨-, h⟩ | rfl) | rfl) | rfl) | rfl) | rfl
    · exact Nat.le_trans h (by decide)
    all_goals decide
  rw [Bool.eq_false_iff, Bool.eq_false_iff, ne_eq, ne_eq, isHigh_iff, isLow_iff]
  omega

mutual

theorem paired_text : ∀ v : Js, Paired v.written.text
  | .null => paired_word rfl
  | .bool true => paired_word rfl
  | .bool false => paired_word rfl
  | .number (.finite x) => paired_plain fun u hu => number_unpaired (numberText_units x u hu)
  | .number (.infinite _) => paired_word rfl
  | .number .nan => paired_word rfl
  | .string s => paired_quote s
  | .array items => by
    have hopen : Paired [91] := paired_word rfl
    rw [Js.written, Value.text]
    exact hopen.append ((paired_items items).1.append (paired_word rfl))
  | .object members => by
    have hopen : Paired [123] := paired_word rfl
    rw [Js.written, Value.text]
    exact hopen.append ((paired_members members).1.append (paired_word rfl))

theorem paired_items : ∀ items : List Js, Paired (itemsText (writtenItems items)) ∧
    Paired (moreItems (writtenItems items))
  | [] => ⟨paired_nil, paired_nil⟩
  | v :: items => by
    have hall := (paired_text v).append (paired_items items).2
    have hcomma : Paired [44] := paired_word rfl
    rw [writtenItems, itemsText, moreItems]
    exact ⟨hall, hcomma.append hall⟩

theorem paired_members : ∀ members : List (Utf16 × Js),
    Paired (membersText (writtenMembers members)) ∧ Paired (moreMembers (writtenMembers members))
  | [] => ⟨paired_nil, paired_nil⟩
  | (k, v) :: members => by
    have hvalue := (paired_text v).append (paired_members members).2
    have hcolon : Paired [58] := paired_word rfl
    have hall := (paired_quote k).append (hcolon.append hvalue)
    have hcomma : Paired [44] := paired_word rfl
    rw [writtenMembers, membersText, moreMembers]
    exact ⟨hall, hcomma.append hall⟩

end

structure Sealed (s : Utf16) : Prop where
  nested : Nested 1 s
  paired : Paired s

theorem sealed_nil : Sealed [] := ⟨nested_nil 1, paired_nil⟩

theorem sealed_stringify (v : Js) : Sealed v.stringify := ⟨nested_text v, paired_text v⟩

theorem Sealed.no_part {s t : Utf16} (hs : Sealed s) (ht : Sealed t) {more : List Char}
    (h : ':' :: toChars s = more ++ ':' :: toChars t) : more = [] := by
  cases more with
  | nil => rfl
  | cons c more =>
    have htail : toChars s = more ++ ':' :: toChars t := (List.cons.inj h).2
    refine absurd ?_ (hs.nested.ne_append ht.nested (x := ofChars more))
    calc s = ofChars (toChars s) := hs.paired.ofChars_toChars.symm
      _ = ofChars more ++ 58 :: ofChars (toChars t) := by
        rw [htail, ofChars_append]
        rfl
      _ = ofChars more ++ 58 :: t := by rw [ht.paired.ofChars_toChars]

/-- Where the last field begins can be told, whatever stands in front of it. -/
theorem Sealed.cut_last {front front' s t : Utf16} (hs : Sealed s) (ht : Sealed t)
    (h : toChars (front ++ 58 :: s) = toChars (front' ++ 58 :: t)) :
    toChars front = toChars front' ∧ s = t := by
  have hback : toChars s = toChars t → s = t := fun hst => by
    rw [← hs.paired.ofChars_toChars, hst, ht.paired.ofChars_toChars]
  rw [toChars_colon, toChars_colon] at h
  rcases List.append_eq_append_iff.mp h with ⟨more, hfront, htail⟩ | ⟨more, hfront, htail⟩
  · obtain rfl := hs.no_part ht htail
    exact ⟨by rw [hfront, List.append_nil], hback (List.cons.inj htail).2⟩
  · obtain rfl := ht.no_part hs htail
    exact ⟨by rw [hfront, List.append_nil], hback (List.cons.inj htail).2.symm⟩

theorem Paired.cut_first {front front' s t : Utf16} (hfront : Paired front) (hfront' : Paired front')
    (hcolon : (58 : UInt16) ∉ front) (hcolon' : (58 : UInt16) ∉ front')
    (h : toChars (front ++ 58 :: s) = toChars (front' ++ 58 :: t)) :
    front = front' ∧ toChars s = toChars t := by
  have hnot : ∀ {w : Utf16}, Paired w → (58 : UInt16) ∉ w → ':' ∉ toChars w := fun hw h58 hmem => by
    rw [← hw.ofChars_toChars] at h58
    exact h58 (List.mem_flatMap.mpr ⟨':', hmem, List.mem_cons_self⟩)
  rw [toChars_colon, toChars_colon] at h
  obtain ⟨hchars, htail⟩ := Lib.cut_first (hnot hfront hcolon) (hnot hfront' hcolon') h
  refine ⟨?_, htail⟩
  rw [← hfront.ofChars_toChars, hchars, hfront'.ofChars_toChars]

end JsonText

end Memclaw.Lib
