import Mathlib.Data.List.TakeWhile
import Mathlib.Tactic.Common

/-! `JSON.stringify` of an object of scalars and `JSON.parse`, on the UTF-16 code units of
JavaScript strings. What is written is read back, and no part of it is. -/

namespace Memclaw.Lib

abbrev Utf16 := List UInt16

def utf16 (s : String) : Utf16 := s.toList.map fun c => UInt16.ofNat c.toNat

namespace JsonText

def isHigh (u : UInt16) : Bool := 0xD800 ≤ u && u < 0xDC00
def isLow (u : UInt16) : Bool := 0xDC00 ≤ u && u < 0xE000

def startsLow : Utf16 → Bool
  | [] => false
  | u :: _ => isLow u

def toChar (u : UInt16) : Char := if isHigh u || isLow u then '\uFFFD' else Char.ofNat u.toNat

def toChars : Utf16 → List Char
  | [] => []
  | [u] => [toChar u]
  | u :: v :: s =>
    if isHigh u && isLow v then
      Char.ofNat (0x10000 + (u.toNat - 0xD800) * 0x400 + (v.toNat - 0xDC00)) :: toChars s
    else toChar u :: toChars (v :: s)

def caseless (c : Char) (u : UInt16) : Bool :=
  u = UInt16.ofNat c.toNat || u = UInt16.ofNat c.toUpper.toNat

def hexUnit (n : ℕ) : UInt16 := UInt16.ofNat (if n < 10 then 48 + n else 87 + n)

def unicodeEscape (u : UInt16) : Utf16 :=
  [92, 117, hexUnit (u.toNat / 4096), hexUnit (u.toNat / 256 % 16), hexUnit (u.toNat / 16 % 16),
    hexUnit (u.toNat % 16)]

def escapeUnit (u : UInt16) : Utf16 :=
  if u = 8 then [92, 98]
  else if u = 9 then [92, 116]
  else if u = 10 then [92, 110]
  else if u = 12 then [92, 102]
  else if u = 13 then [92, 114]
  else if u = 34 then [92, 34]
  else if u = 92 then [92, 92]
  else if u < 32 || isHigh u || isLow u then unicodeEscape u
  else [u]

/-- A surrogate stays as it is only in a pair; `paired` says that the one before was kept. -/
def escape (paired : Bool) : Utf16 → Utf16
  | [] => []
  | u :: s =>
    if paired then u :: escape false s
    else if isHigh u && startsLow s then u :: escape true s
    else escapeUnit u ++ escape false s

def quote (s : Utf16) : Utf16 := 34 :: (escape false s ++ [34])

inductive Scalar
  | null
  | number (n : ℕ)
  | string (s : Utf16)
deriving DecidableEq

def digits (n : ℕ) : Utf16 := (Nat.toDigits 10 n).map fun c => UInt16.ofNat c.toNat

def Scalar.stringify : Scalar → Utf16
  | .null => utf16 "null"
  | .number n => digits n
  | .string s => quote s

abbrev Field := Utf16 × Scalar

def stringifyMore : List Field → Utf16
  | [] => [125]
  | (k, v) :: fields => 44 :: (quote k ++ 58 :: (v.stringify ++ stringifyMore fields))

def stringify : List Field → Utf16
  | [] => [123, 125]
  | (k, v) :: fields => 123 :: (quote k ++ 58 :: (v.stringify ++ stringifyMore fields))

inductive Value
  | null
  | bool (b : Bool)
  | number (literal : Utf16)
  | string (s : Utf16)
  | array (items : List Value)
  | object (members : List (Utf16 × Value))

/-- A property of an object; of two with one name the later counts. -/
def Value.get (key : Utf16) : Value → Option Value
  | .object members => (members.reverse.find? fun m => m.1 = key).map Prod.snd
  | _ => none

def isSpace (u : UInt16) : Bool := u = 32 || u = 9 || u = 10 || u = 13

def skip (s : Utf16) : Utf16 := s.dropWhile isSpace

def hexValue (u : UInt16) : Option ℕ :=
  if 48 ≤ u ∧ u ≤ 57 then some (u.toNat - 48)
  else if 97 ≤ u ∧ u ≤ 102 then some (u.toNat - 87)
  else if 65 ≤ u ∧ u ≤ 70 then some (u.toNat - 55)
  else none

def unescape (u : UInt16) : Option UInt16 :=
  if u = 34 ∨ u = 92 ∨ u = 47 then some u
  else if u = 98 then some 8
  else if u = 116 then some 9
  else if u = 110 then some 10
  else if u = 102 then some 12
  else if u = 114 then some 13
  else none

def hex4 (a b c d : UInt16) : Option UInt16 :=
  match hexValue a, hexValue b, hexValue c, hexValue d with
  | some w, some x, some y, some z => some (UInt16.ofNat (((w * 16 + x) * 16 + y) * 16 + z))
  | _, _, _, _ => none

def parseString : Utf16 → Option (Utf16 × Utf16)
  | [] => none
  | u :: s =>
    if u = 34 then some ([], s)
    else if u = 92 then
      match s with
      | [] => none
      | e :: s =>
        if e = 117 then
          match s with
          | a :: b :: c :: d :: s =>
            match hex4 a b c d with
            | none => none
            | some v => (parseString s).map fun r => (v :: r.1, r.2)
          | _ => none
        else
          match unescape e with
          | none => none
          | some v => (parseString s).map fun r => (v :: r.1, r.2)
    else if u < 32 then none
    else (parseString s).map fun r => (u :: r.1, r.2)

def isDigit (u : UInt16) : Bool := 48 ≤ u && u ≤ 57

def isNumberUnit (u : UInt16) : Bool :=
  isDigit u || u = 45 || u = 43 || u = 46 || u = 101 || u = 69

def dropSign (signs : List UInt16) : Utf16 → Utf16
  | [] => []
  | u :: s => if u ∈ signs then s else u :: s

def validExponent : Utf16 → Bool
  | [] => true
  | u :: s => (u = 101 || u = 69) && dropSign [43, 45] s ≠ [] && (dropSign [43, 45] s).all isDigit

def validFraction : Utf16 → Bool
  | [] => true
  | u :: s =>
    if u = 46 then s.takeWhile isDigit ≠ [] && validExponent (s.dropWhile isDigit)
    else validExponent (u :: s)

/-- `-?(0|[1-9]\d*)(\.\d+)?([eE][+-]?\d+)?` -/
def validNumber (literal : Utf16) : Bool :=
  let s := dropSign [45] literal
  let whole := s.takeWhile isDigit
  whole ≠ [] && (whole.length = 1 || whole.head? ≠ some 48) && validFraction (s.dropWhile isDigit)

def parseNumber (s : Utf16) : Option (Value × Utf16) :=
  let literal := s.takeWhile isNumberUnit
  if validNumber literal then some (.number literal, s.dropWhile isNumberUnit) else none

def parseWord (word : Utf16) (v : Value) (s : Utf16) : Option (Value × Utf16) :=
  if s.take word.length = word then some (v, s.drop word.length) else none

def parseAtom (u : UInt16) (s : Utf16) : Option (Value × Utf16) :=
  if u = 110 then parseWord (utf16 "null") .null (u :: s)
  else if u = 116 then parseWord (utf16 "true") (.bool true) (u :: s)
  else if u = 102 then parseWord (utf16 "false") (.bool false) (u :: s)
  else parseNumber (u :: s)

mutual

def parseValue : ℕ → Utf16 → Option (Value × Utf16)
  | 0, _ => none
  | n + 1, s =>
    match skip s with
    | [] => none
    | u :: s =>
      if u = 34 then (parseString s).map fun r => (.string r.1, r.2)
      else if u = 123 then parseObject n s
      else if u = 91 then parseArray n s
      else parseAtom u s

def parseObject : ℕ → Utf16 → Option (Value × Utf16)
  | 0, _ => none
  | n + 1, s =>
    match skip s with
    | [] => none
    | u :: rest =>
      if u = 125 then some (.object [], rest)
      else (parseMembers n s).map fun r => (.object r.1, r.2)

def parseMembers : ℕ → Utf16 → Option (List (Utf16 × Value) × Utf16)
  | 0, _ => none
  | n + 1, s =>
    match skip s with
    | [] => none
    | u :: s =>
      if u = 34 then
        match parseString s with
        | none => none
        | some (k, s) =>
          match skip s with
          | [] => none
          | u :: s =>
            if u = 58 then
              match parseValue n s with
              | none => none
              | some (v, s) =>
                match skip s with
                | [] => none
                | u :: s =>
                  if u = 44 then (parseMembers n s).map fun r => ((k, v) :: r.1, r.2)
                  else if u = 125 then some ([(k, v)], s)
                  else none
            else none
      else none

def parseArray : ℕ → Utf16 → Option (Value × Utf16)
  | 0, _ => none
  | n + 1, s =>
    match skip s with
    | [] => none
    | u :: rest =>
      if u = 93 then some (.array [], rest)
      else (parseItems n s).map fun r => (.array r.1, r.2)

def parseItems : ℕ → Utf16 → Option (List Value × Utf16)
  | 0, _ => none
  | n + 1, s =>
    match parseValue n s with
    | none => none
    | some (v, s) =>
      match skip s with
      | [] => none
      | u :: s =>
        if u = 44 then (parseItems n s).map fun r => (v :: r.1, r.2)
        else if u = 93 then some ([v], s)
        else none

end

/-- `JSON.parse`; nothing where it throws. Every level of nesting takes two characters, so the
length of the text bounds the recursion. -/
def parse (s : Utf16) : Option Value :=
  match parseValue (2 * s.length + 2) s with
  | none => none
  | some (v, rest) => if skip rest = [] then some v else none

theorem hexValue_hexUnit : ∀ n < 16, hexValue (hexUnit n) = some n := by decide

theorem hex4_unicodeEscape (u : UInt16) :
    hex4 (hexUnit (u.toNat / 4096)) (hexUnit (u.toNat / 256 % 16)) (hexUnit (u.toNat / 16 % 16))
      (hexUnit (u.toNat % 16)) = some u := by
  have hu := u.toNat_lt
  have hsum : ((u.toNat / 4096 * 16 + u.toNat / 256 % 16) * 16 + u.toNat / 16 % 16) * 16 +
      u.toNat % 16 = u.toNat := by omega
  rw [hex4, hexValue_hexUnit _ (by omega), hexValue_hexUnit _ (by omega),
    hexValue_hexUnit _ (by omega), hexValue_hexUnit _ (by omega)]
  dsimp only
  rw [hsum, UInt16.ofNat_toNat]

theorem parseString_unicodeEscape (u : UInt16) (s : Utf16) :
    parseString (unicodeEscape u ++ s) = (parseString s).map fun r => (u :: r.1, r.2) := by
  show parseString (92 :: 117 :: _ :: _ :: _ :: _ :: s) = _
  rw [parseString.eq_def]
  dsimp only
  rw [if_neg (by decide), if_pos rfl, if_pos rfl, hex4_unicodeEscape]

theorem parseString_plain {u : UInt16} (hquote : u ≠ 34) (hbackslash : u ≠ 92) (hcontrol : ¬ u < 32)
    (s : Utf16) : parseString (u :: s) = (parseString s).map fun r => (u :: r.1, r.2) := by
  rw [parseString.eq_def]
  dsimp only
  rw [if_neg hquote, if_neg hbackslash, if_neg hcontrol]

theorem parseString_escaped {e v : UInt16} (he : e ≠ 117) (hv : unescape e = some v) (s : Utf16) :
    parseString (92 :: e :: s) = (parseString s).map fun r => (v :: r.1, r.2) := by
  rw [parseString.eq_def]
  dsimp only
  rw [if_neg (by decide), if_pos rfl, if_neg he, hv]

theorem parseString_escapeUnit (u : UInt16) (s : Utf16) :
    parseString (escapeUnit u ++ s) = (parseString s).map fun r => (u :: r.1, r.2) := by
  unfold escapeUnit
  split_ifs with h8 h9 h10 h12 h13 h34 h92 hcontrol
  · rw [h8]; exact parseString_escaped (by decide) (by decide) s
  · rw [h9]; exact parseString_escaped (by decide) (by decide) s
  · rw [h10]; exact parseString_escaped (by decide) (by decide) s
  · rw [h12]; exact parseString_escaped (by decide) (by decide) s
  · rw [h13]; exact parseString_escaped (by decide) (by decide) s
  · rw [h34]; exact parseString_escaped (by decide) (by decide) s
  · rw [h92]; exact parseString_escaped (by decide) (by decide) s
  · exact parseString_unicodeEscape u s
  · simp only [Bool.or_eq_true, decide_eq_true_eq, not_or] at hcontrol
    exact parseString_plain h34 h92 hcontrol.1.1 s

theorem parseString_surrogate {u : UInt16} (hu : (0xD800 : UInt16) ≤ u) (s : Utf16) :
    parseString (u :: s) = (parseString s).map fun r => (u :: r.1, r.2) := by
  rw [UInt16.le_iff_toNat_le] at hu
  have hnat : 55296 ≤ u.toNat := hu
  refine parseString_plain ?_ ?_ ?_ s
  · rintro rfl; exact absurd hnat (by decide)
  · rintro rfl; exact absurd hnat (by decide)
  · rw [UInt16.lt_iff_toNat_lt]
    exact Nat.not_lt.mpr (Nat.le_trans (by decide) hnat)

theorem parseString_escape (s : Utf16) (rest : Utf16) {paired : Bool}
    (hpaired : paired = true → startsLow s = true) :
    parseString (escape paired s ++ 34 :: rest) = some (s, rest) := by
  induction s generalizing paired with
  | nil =>
    rw [escape, List.nil_append, parseString.eq_def]
    exact if_pos rfl
  | cons u s ih =>
    rw [escape]
    split_ifs with hlow hhigh
    · have hu : isLow u = true := hpaired hlow
      simp only [isLow, Bool.and_eq_true, decide_eq_true_eq] at hu
      rw [List.cons_append, parseString_surrogate (UInt16.le_trans (by decide) hu.1),
        ih (by simp), Option.map_some]
    · simp only [isHigh, Bool.and_eq_true, decide_eq_true_eq] at hhigh
      rw [List.cons_append, parseString_surrogate hhigh.1.1, ih fun _ => hhigh.2, Option.map_some]
    · rw [List.append_assoc, parseString_escapeUnit, ih (by simp), Option.map_some]

theorem parseString_quote (s rest : Utf16) :
    ∃ body, quote s ++ rest = 34 :: body ∧ parseString body = some (s, rest) := by
  refine ⟨escape false s ++ 34 :: rest, ?_, parseString_escape s rest (by simp)⟩
  rw [quote, List.cons_append, List.append_assoc]
  rfl

theorem digit_cases {c : Char} (h : c.isDigit = true) : ∃ k < 10, c = Nat.digitChar k := by
  have hall : ∀ k ≤ 57, 48 ≤ k → ∃ j < 10, Char.ofNat k = Nat.digitChar j := by decide
  simp only [Char.isDigit, Bool.and_eq_true, decide_eq_true_eq] at h
  have hrange : 48 ≤ c.toNat ∧ c.toNat ≤ 57 := h
  rw [← Char.ofNat_toNat c]
  exact hall c.toNat hrange.2 hrange.1

theorem toDigits_cases {n : ℕ} {c : Char} (hc : c ∈ Nat.toDigits 10 n) :
    ∃ k < 10, c = Nat.digitChar k :=
  digit_cases (Nat.isDigit_of_mem_toDigits (by decide) (by decide) hc)

theorem mem_digits {n : ℕ} {u : UInt16} (hu : u ∈ digits n) :
    isDigit u = true ∧ isNumberUnit u = true := by
  obtain ⟨c, hc, rfl⟩ := List.mem_map.mp hu
  obtain ⟨k, hk, rfl⟩ := toDigits_cases hc
  have hall : ∀ k < 10, isDigit (UInt16.ofNat (Nat.digitChar k).toNat) = true ∧
      isNumberUnit (UInt16.ofNat (Nat.digitChar k).toNat) = true := by decide
  exact hall k hk

theorem digits_ne_nil (n : ℕ) : digits n ≠ [] := by
  rw [digits, ne_eq, List.map_eq_nil_iff]
  exact Nat.toDigits_ne_nil

theorem toDigits_head {n : ℕ} (hn : 0 < n) : (Nat.toDigits 10 n).head? ≠ some '0' := by
  induction n using Nat.strongRecOn with
  | ind n ih =>
    by_cases hsmall : n < 10
    · rw [Nat.toDigits_of_lt_base hsmall]
      have hall : ∀ k < 10, 0 < k → [Nat.digitChar k].head? ≠ some '0' := by decide
      exact hall n hsmall hn
    · rw [Nat.toDigits_of_base_le (by decide) (Nat.le_of_not_lt hsmall),
        List.head?_append, Option.or_of_isSome (List.isSome_head?.mpr Nat.toDigits_ne_nil)]
      exact ih (n / 10) (by omega) (by omega)

theorem digits_head_of_pos {n : ℕ} (hn : 0 < n) : (digits n).head? ≠ some 48 := by
  intro h
  refine toDigits_head hn ?_
  rw [digits, List.head?_map, Option.map_eq_some_iff] at h
  obtain ⟨c, hc, hunit⟩ := h
  obtain ⟨k, hk, rfl⟩ := toDigits_cases (List.mem_of_mem_head? hc)
  have hzero : ∀ k < 10, UInt16.ofNat (Nat.digitChar k).toNat = 48 → Nat.digitChar k = '0' := by
    decide
  rw [hc, hzero k hk hunit]

theorem digits_head (n : ℕ) : (digits n).length = 1 ∨ (digits n).head? ≠ some 48 := by
  rcases Nat.eq_zero_or_pos n with rfl | hn
  · exact Or.inl (by decide)
  · exact Or.inr (digits_head_of_pos hn)

theorem validNumber_digits (n : ℕ) : validNumber (digits n) = true := by
  have hall : ∀ u ∈ digits n, isDigit u = true := fun u hu => (mem_digits hu).1
  have hsign : dropSign [45] (digits n) = digits n := by
    cases hdigits : digits n with
    | nil => rfl
    | cons u s =>
      have hu := hall u (by rw [hdigits]; exact List.mem_cons_self)
      rw [dropSign, if_neg]
      rintro h
      rw [List.mem_singleton.mp h] at hu
      exact absurd hu (by decide)
  have htake : (digits n).takeWhile isDigit = digits n := by
    rw [← List.append_nil (digits n), List.takeWhile_append_of_pos hall]
    rfl
  have hdrop : (digits n).dropWhile isDigit = [] := by
    rw [← List.append_nil (digits n), List.dropWhile_append_of_pos hall]
    rfl
  rw [validNumber, hsign, htake, hdrop]
  simp only [Bool.and_eq_true, decide_eq_true_eq, Bool.or_eq_true]
  exact ⟨⟨digits_ne_nil n, digits_head n⟩, rfl⟩

def Ends (s : Utf16) : Prop := ∀ u ∈ s.head?, u = 44 ∨ u = 125

theorem parseNumber_digits (n : ℕ) {rest : Utf16} (hrest : Ends rest) :
    parseNumber (digits n ++ rest) = some (.number (digits n), rest) := by
  have hall : ∀ u ∈ digits n, isNumberUnit u = true := fun u hu => (mem_digits hu).2
  have hstop : rest.takeWhile isNumberUnit = [] ∧ rest.dropWhile isNumberUnit = rest := by
    cases rest with
    | nil => exact ⟨rfl, rfl⟩
    | cons u s =>
      have hu : isNumberUnit u = false := by
        rcases hrest u rfl with rfl | rfl <;> decide
      exact ⟨List.takeWhile_cons_of_neg (by rw [hu]; decide),
        List.dropWhile_cons_of_neg (by rw [hu]; decide)⟩
  rw [parseNumber, List.takeWhile_append_of_pos hall, List.dropWhile_append_of_pos hall, hstop.1, hstop.2,
    List.append_nil, validNumber_digits, if_pos rfl]

def natOf (literal : Utf16) : Option ℕ :=
  if literal ≠ [] ∧ literal.all isDigit then
    some (Nat.ofDigitChars 10 (literal.map fun u => Char.ofNat u.toNat) 0)
  else none

theorem natOf_digits (n : ℕ) : natOf (digits n) = some n := by
  have hall : (digits n).all isDigit = true := List.all_eq_true.mpr fun u hu => (mem_digits hu).1
  have hchars : (digits n).map (fun u => Char.ofNat u.toNat) = Nat.toDigits 10 n := by
    rw [digits, List.map_map]
    conv_rhs => rw [← List.map_id (Nat.toDigits 10 n)]
    refine List.map_congr_left fun c hc => ?_
    obtain ⟨k, hk, rfl⟩ := toDigits_cases hc
    have hall : ∀ k < 10, Char.ofNat (UInt16.ofNat (Nat.digitChar k).toNat).toNat =
        Nat.digitChar k := by decide
    exact hall k hk
  rw [natOf, if_pos ⟨digits_ne_nil n, hall⟩, hchars, Nat.ofDigitChars_ten_toDigits]

def Scalar.value : Scalar → Value
  | .null => .null
  | .number n => .number (digits n)
  | .string s => .string s

theorem skip_cons {u : UInt16} (hu : isSpace u = false) (s : Utf16) : skip (u :: s) = u :: s :=
  List.dropWhile_cons_of_neg (by rw [hu]; decide)

theorem parseValue_scalar (v : Scalar) (n : ℕ) {rest : Utf16} (hrest : Ends rest) :
    parseValue (n + 1) (v.stringify ++ rest) = some (v.value, rest) := by
  cases v with
  | null =>
    show parseValue (n + 1) (110 :: 117 :: 108 :: 108 :: rest) = _
    rw [parseValue, skip_cons (by decide)]
    rfl
  | number k =>
    show parseValue (n + 1) (digits k ++ rest) = _
    obtain ⟨u, s, hus⟩ := List.exists_cons_of_ne_nil (digits_ne_nil k)
    have hdigit : isDigit u = true := (mem_digits (hus ▸ List.mem_cons_self)).1
    have hne : ∀ w : UInt16, isDigit w = false → u ≠ w := fun w hw h => by
      rw [← h, hdigit] at hw
      exact absurd hw (by decide)
    have hspace : isSpace u = false := by
      simp only [isSpace, Bool.or_eq_false_iff, decide_eq_false_iff_not]
      exact ⟨⟨⟨hne 32 (by decide), hne 9 (by decide)⟩, hne 10 (by decide)⟩, hne 13 (by decide)⟩
    have hnumber := parseNumber_digits k hrest
    rw [hus, List.cons_append] at hnumber
    rw [hus, List.cons_append, parseValue, skip_cons hspace]
    dsimp only
    rw [if_neg (hne 34 (by decide)), if_neg (hne 123 (by decide)), if_neg (hne 91 (by decide)),
      parseAtom, if_neg (hne 110 (by decide)), if_neg (hne 116 (by decide)), if_neg (hne 102 (by decide)),
      hnumber, Scalar.value, hus]
  | string s =>
    obtain ⟨body, hbody, hparse⟩ := parseString_quote s rest
    show parseValue (n + 1) (quote s ++ rest) = _
    rw [hbody, parseValue, skip_cons (by decide)]
    dsimp only
    rw [if_pos rfl, hparse]
    rfl

def member (field : Field) : Utf16 × Value := (field.1, field.2.value)

theorem parseMembers_stringify (field : Field) (fields : List Field) {n : ℕ}
    (hn : fields.length + 2 ≤ n) (rest : Utf16) :
    parseMembers n (quote field.1 ++ 58 :: (field.2.stringify ++ stringifyMore fields) ++ rest) =
      some ((field :: fields).map member, rest) := by
  induction fields generalizing field n with
  | nil =>
    obtain ⟨n, rfl⟩ : ∃ m, n = m + 2 := ⟨n - 2, by simp at hn; omega⟩
    obtain ⟨body, hbody, hparse⟩ := parseString_quote field.1
      (58 :: (field.2.stringify ++ 125 :: rest))
    have htext : quote field.1 ++ 58 :: (field.2.stringify ++ stringifyMore []) ++ rest =
        quote field.1 ++ 58 :: (field.2.stringify ++ 125 :: rest) := by
      simp [stringifyMore]
    have hends : Ends (125 :: rest) := by
      rintro u ⟨⟩
      exact Or.inr rfl
    rw [htext, hbody, parseMembers, skip_cons (by decide)]
    dsimp only
    rw [if_pos rfl, hparse]
    dsimp only
    rw [skip_cons (by decide)]
    dsimp only
    rw [if_pos rfl, parseValue_scalar _ _ hends]
    dsimp only
    rw [skip_cons (by decide)]
    dsimp only
    rw [if_neg (by decide), if_pos rfl]
    rfl
  | cons next fields ih =>
    obtain ⟨n, rfl⟩ : ∃ m, n = m + 2 := ⟨n - 2, by simp at hn; omega⟩
    obtain ⟨more, hmore⟩ : ∃ more, more = quote next.1 ++
      58 :: (next.2.stringify ++ stringifyMore fields) ++ rest := ⟨_, rfl⟩
    obtain ⟨body, hbody, hparse⟩ := parseString_quote field.1
      (58 :: (field.2.stringify ++ 44 :: more))
    have htext : quote field.1 ++ 58 :: (field.2.stringify ++ stringifyMore (next :: fields)) ++
        rest = quote field.1 ++ 58 :: (field.2.stringify ++ 44 :: more) := by
      rw [hmore]
      simp [stringifyMore]
    have hends : Ends (44 :: more) := by
      rintro u ⟨⟩
      exact Or.inl rfl
    rw [htext, hbody, parseMembers, skip_cons (by decide)]
    dsimp only
    rw [if_pos rfl, hparse]
    dsimp only
    rw [skip_cons (by decide)]
    dsimp only
    rw [if_pos rfl, parseValue_scalar _ _ hends]
    dsimp only
    rw [skip_cons (by decide)]
    dsimp only
    rw [if_pos rfl, hmore, ih next (by simp at hn; omega)]
    rfl

theorem parseValue_stringify (fields : List Field) {n : ℕ} (hn : fields.length + 3 ≤ n)
    (rest : Utf16) :
    parseValue n (stringify fields ++ rest) = some (.object (fields.map member), rest) := by
  obtain ⟨n, rfl⟩ : ∃ m, n = m + 2 := ⟨n - 2, by omega⟩
  cases fields with
  | nil =>
    show parseValue (n + 2) (123 :: 125 :: rest) = _
    rw [parseValue, skip_cons (by decide)]
    dsimp only
    rw [if_neg (by decide), if_pos rfl, parseObject, skip_cons (by decide)]
    rfl
  | cons field fields =>
    have hmembers := parseMembers_stringify field fields
      (n := n) (by simp only [List.length_cons] at hn; omega) rest
    obtain ⟨body, hbody, -⟩ := parseString_quote field.1
      (58 :: (field.2.stringify ++ stringifyMore fields) ++ rest)
    have htext : stringify (field :: fields) ++ rest =
        123 :: (quote field.1 ++ 58 :: (field.2.stringify ++ stringifyMore fields) ++ rest) := by
      simp [stringify]
    rw [List.append_assoc, hbody] at hmembers
    rw [htext, List.append_assoc, hbody, parseValue, skip_cons (by decide)]
    dsimp only
    rw [if_neg (by decide), if_pos rfl, parseObject, skip_cons (by decide)]
    dsimp only
    rw [if_neg (by decide), hmembers]
    rfl

theorem length_stringifyMore (fields : List Field) :
    fields.length < (stringifyMore fields).length := by
  induction fields with
  | nil => decide
  | cons field fields ih =>
    simp only [stringifyMore, List.length_cons, List.length_append]
    omega

theorem length_stringify (fields : List Field) : fields.length < (stringify fields).length := by
  cases fields with
  | nil => decide
  | cons field fields =>
    have := length_stringifyMore fields
    simp only [stringify, List.length_cons, List.length_append]
    omega

/-- What is written is read back. -/
theorem parse_stringify (fields : List Field) :
    parse (stringify fields) = some (.object (fields.map member)) := by
  have hlength := length_stringify fields
  have hparse := parseValue_stringify fields (n := 2 * (stringify fields).length + 2)
    (by omega) []
  rw [List.append_nil] at hparse
  rw [parse, hparse]
  rfl

theorem map_read_iff {α β : Type} {read : Option (α × Utf16)} {f : α → β} {b : β} {r : Utf16} :
    (read.map fun p => (f p.1, p.2)) = some (b, r) ↔ ∃ a, read = some (a, r) ∧ b = f a := by
  constructor
  · intro h
    obtain ⟨⟨a, r'⟩, hread, heq⟩ := Option.map_eq_some_iff.mp h
    obtain ⟨rfl, rfl⟩ := Prod.mk.inj heq
    exact ⟨a, hread, rfl⟩
  · rintro ⟨a, rfl, rfl⟩
    rfl

section Inversion

variable {n : ℕ} {s r : Utf16}

theorem parseValue_iff {v : Value} : parseValue (n + 1) s = some (v, r) ↔
    ∃ u s', skip s = u :: s' ∧
      ((u = 34 ∧ ∃ k, parseString s' = some (k, r) ∧ v = .string k) ∨
        (u = 123 ∧ parseObject n s' = some (v, r)) ∨
        (u = 91 ∧ parseArray n s' = some (v, r)) ∨
        (u ≠ 34 ∧ u ≠ 123 ∧ u ≠ 91 ∧ parseAtom u s' = some (v, r))) := by
  rw [parseValue]
  cases hskip : skip s with
  | nil => simp
  | cons u s' =>
    dsimp only
    split_ifs <;> try simp only [map_read_iff]
    all_goals grind

theorem parseObject_iff {v : Value} : parseObject (n + 1) s = some (v, r) ↔
    ∃ u s', skip s = u :: s' ∧ ((u = 125 ∧ s' = r ∧ v = .object []) ∨
      (u ≠ 125 ∧ ∃ members, parseMembers n s = some (members, r) ∧ v = .object members)) := by
  rw [parseObject]
  cases hskip : skip s with
  | nil => simp
  | cons u s' =>
    dsimp only
    split_ifs <;> try simp only [map_read_iff]
    all_goals grind

theorem parseArray_iff {v : Value} : parseArray (n + 1) s = some (v, r) ↔
    ∃ u s', skip s = u :: s' ∧ ((u = 93 ∧ s' = r ∧ v = .array []) ∨
      (u ≠ 93 ∧ ∃ items, parseItems n s = some (items, r) ∧ v = .array items)) := by
  rw [parseArray]
  cases hskip : skip s with
  | nil => simp
  | cons u s' =>
    dsimp only
    split_ifs <;> try simp only [map_read_iff]
    all_goals grind

theorem parseItems_iff {items : List Value} : parseItems (n + 1) s = some (items, r) ↔
    ∃ v s₁ u s₂, parseValue n s = some (v, s₁) ∧ skip s₁ = u :: s₂ ∧
      ((u = 44 ∧ ∃ more, parseItems n s₂ = some (more, r) ∧ items = v :: more) ∨
        (u = 93 ∧ s₂ = r ∧ items = [v])) := by
  rw [parseItems]
  cases hvalue : parseValue n s with
  | none => simp
  | some read =>
    obtain ⟨v, s₁⟩ := read
    dsimp only
    cases hskip : skip s₁ with
    | nil => grind
    | cons u s₂ =>
      dsimp only
      split_ifs <;> try simp only [map_read_iff]
      all_goals grind

theorem parseMembers_iff {members : List (Utf16 × Value)} :
    parseMembers (n + 1) s = some (members, r) ↔
    ∃ s₁ k s₂ s₃ v s₄ u s₅, skip s = 34 :: s₁ ∧ parseString s₁ = some (k, s₂) ∧
      skip s₂ = 58 :: s₃ ∧ parseValue n s₃ = some (v, s₄) ∧ skip s₄ = u :: s₅ ∧
        ((u = 44 ∧ ∃ more, parseMembers n s₅ = some (more, r) ∧ members = (k, v) :: more) ∨
          (u = 125 ∧ s₅ = r ∧ members = [(k, v)])) := by
  rw [parseMembers]
  cases hskip : skip s with
  | nil => simp
  | cons w s₁ =>
    dsimp only
    split_ifs with hquote
    · cases hstring : parseString s₁ with
      | none => grind
      | some read =>
        obtain ⟨k, s₂⟩ := read
        dsimp only
        cases hcolon : skip s₂ with
        | nil => grind
        | cons w s₃ =>
          dsimp only
          split_ifs with hcolon'
          · cases hvalue : parseValue n s₃ with
            | none => grind
            | some read =>
              obtain ⟨v, s₄⟩ := read
              dsimp only
              cases hnext : skip s₄ with
              | nil => grind
              | cons u s₅ =>
                dsimp only
                split_ifs <;> try simp only [map_read_iff]
                all_goals grind
          · grind
    · grind

end Inversion

theorem skip_append {s s' : Utf16} {u : UInt16} (h : skip s = u :: s') (t : Utf16) :
    skip (s ++ t) = u :: (s' ++ t) := by
  unfold skip at h ⊢
  rw [List.dropWhile_append, h]
  rfl

theorem skip_suffix (s : Utf16) : ∃ c, s = c ++ skip s :=
  ⟨s.takeWhile isSpace, List.takeWhile_append_dropWhile.symm⟩

theorem parseString_cons {u : UInt16} {read : Option (Utf16 × Utf16)} {v r : Utf16}
    (h : (read.map fun p => (u :: p.1, p.2)) = some (v, r)) :
    ∃ w, read = some (w, r) ∧ v = u :: w :=
  (map_read_iff (f := (u :: ·))).mp h

theorem parseString_append {s v r : Utf16} (h : parseString s = some (v, r)) (t : Utf16) :
    parseString (s ++ t) = some (v, r ++ t) := by
  fun_induction parseString s generalizing v r with
  | case1 => exact absurd h (by simp)
  | case2 s =>
    obtain ⟨rfl, rfl⟩ := Prod.mk.inj (Option.some.inj h)
    rw [List.cons_append, parseString.eq_def]
    exact if_pos rfl
  | case3 => exact absurd h (by simp)
  | case4 => exact absurd h (by simp)
  | case5 a b c d s u hhex hquote ih =>
    obtain ⟨w, hw, rfl⟩ := parseString_cons h
    show parseString (92 :: 117 :: a :: b :: c :: d :: (s ++ t)) = _
    rw [parseString.eq_def]
    dsimp only
    rw [if_neg hquote, if_pos rfl, if_pos rfl, hhex]
    dsimp only
    rw [ih hw]
    rfl
  | case6 => exact absurd h (by simp)
  | case7 => exact absurd h (by simp)
  | case8 e s he u hu hquote ih =>
    obtain ⟨w, hw, rfl⟩ := parseString_cons h
    rw [List.cons_append, List.cons_append, parseString_escaped he hu, ih hw]
    rfl
  | case9 => exact absurd h (by simp)
  | case10 u s hquote hbackslash hcontrol ih =>
    obtain ⟨w, hw, rfl⟩ := parseString_cons h
    rw [List.cons_append, parseString_plain hquote hbackslash hcontrol, ih hw]
    rfl

theorem parseString_suffix {s v r : Utf16} (h : parseString s = some (v, r)) : ∃ c, s = c ++ r := by
  fun_induction parseString s generalizing v r with
  | case1 => exact absurd h (by simp)
  | case2 s =>
    obtain ⟨rfl, rfl⟩ := Prod.mk.inj (Option.some.inj h)
    exact ⟨[34], rfl⟩
  | case3 => exact absurd h (by simp)
  | case4 => exact absurd h (by simp)
  | case5 a b c d s u hhex hquote ih =>
    obtain ⟨w, hw, -⟩ := parseString_cons h
    obtain ⟨front, rfl⟩ := ih hw
    exact ⟨92 :: 117 :: a :: b :: c :: d :: front, rfl⟩
  | case6 => exact absurd h (by simp)
  | case7 => exact absurd h (by simp)
  | case8 e s he u hu hquote ih =>
    obtain ⟨w, hw, -⟩ := parseString_cons h
    obtain ⟨front, rfl⟩ := ih hw
    exact ⟨92 :: e :: front, rfl⟩
  | case9 => exact absurd h (by simp)
  | case10 u s hquote hbackslash hcontrol ih =>
    obtain ⟨w, hw, -⟩ := parseString_cons h
    obtain ⟨front, rfl⟩ := ih hw
    exact ⟨u :: front, rfl⟩

def Value.isNumber : Value → Bool
  | .number _ => true
  | _ => false

theorem parseWord_append {word s r : Utf16} {w v : Value} (h : parseWord word w s = some (v, r))
    (t : Utf16) : parseWord word w (s ++ t) = some (v, r ++ t) := by
  unfold parseWord at h ⊢
  split_ifs at h with hword
  obtain ⟨rfl, rfl⟩ := Prod.mk.inj (Option.some.inj h)
  have hlength : word.length ≤ s.length := by
    rw [← hword, List.length_take]
    exact Nat.min_le_right _ _
  rw [List.take_append_of_le_length hlength, if_pos hword, List.drop_append_of_le_length hlength]

theorem parseWord_suffix {word s r : Utf16} {w v : Value} (h : parseWord word w s = some (v, r)) :
    ∃ c, s = c ++ r := by
  unfold parseWord at h
  split_ifs at h with hword
  obtain ⟨-, rfl⟩ := Prod.mk.inj (Option.some.inj h)
  exact ⟨s.take word.length, (List.take_append_drop _ _).symm⟩

theorem parseNumber_append {s r : Utf16} {v : Value} (h : parseNumber s = some (v, r)) :
    v.isNumber = true ∧ ∀ t, r ≠ [] → parseNumber (s ++ t) = some (v, r ++ t) := by
  -- A number is complete only when something follows it.
  unfold parseNumber at h
  dsimp only at h
  split_ifs at h with hvalid
  obtain ⟨rfl, rfl⟩ := Prod.mk.inj (Option.some.inj h)
  refine ⟨rfl, fun t hrest => ?_⟩
  have hdrop : (s ++ t).dropWhile isNumberUnit = s.dropWhile isNumberUnit ++ t := by
    rw [List.dropWhile_append]
    exact if_neg (by simpa using hrest)
  have htake : (s ++ t).takeWhile isNumberUnit = s.takeWhile isNumberUnit := by
    rw [List.takeWhile_append]
    refine if_neg fun hall => hrest (List.length_eq_zero_iff.mp ?_)
    have hlength := congrArg List.length (List.takeWhile_append_dropWhile (p := isNumberUnit) (l := s))
    rw [List.length_append, hall] at hlength
    omega
  rw [parseNumber, htake, hdrop, if_pos hvalid]

theorem parseNumber_suffix {s r : Utf16} {v : Value} (h : parseNumber s = some (v, r)) :
    ∃ c, s = c ++ r := by
  unfold parseNumber at h
  dsimp only at h
  split_ifs at h with hvalid
  obtain ⟨-, rfl⟩ := Prod.mk.inj (Option.some.inj h)
  exact ⟨s.takeWhile isNumberUnit, List.takeWhile_append_dropWhile.symm⟩

theorem parseAtom_append {u : UInt16} {s r : Utf16} {v : Value} (h : parseAtom u s = some (v, r))
    (hend : r = [] → v.isNumber = false) (t : Utf16) : parseAtom u (s ++ t) = some (v, r ++ t) := by
  unfold parseAtom at h ⊢
  split_ifs at h ⊢
  · exact parseWord_append h t
  · exact parseWord_append h t
  · exact parseWord_append h t
  · obtain ⟨hnumber, happend⟩ := parseNumber_append h
    refine happend t fun hr => ?_
    rw [hend hr] at hnumber
    exact absurd hnumber (by decide)

theorem parseAtom_suffix {u : UInt16} {s r : Utf16} {v : Value} (h : parseAtom u s = some (v, r)) :
    ∃ c, u :: s = c ++ r := by
  unfold parseAtom at h
  split_ifs at h
  · exact parseWord_suffix h
  · exact parseWord_suffix h
  · exact parseWord_suffix h
  · exact parseNumber_suffix h

structure Extends (n : ℕ) : Prop where
  value : ∀ s v r, parseValue n s = some (v, r) → (r = [] → v.isNumber = false) →
    ∀ m ≥ n, ∀ t, parseValue m (s ++ t) = some (v, r ++ t)
  object : ∀ s v r, parseObject n s = some (v, r) → ∀ m ≥ n, ∀ t,
    parseObject m (s ++ t) = some (v, r ++ t)
  members : ∀ s ms r, parseMembers n s = some (ms, r) → ∀ m ≥ n, ∀ t,
    parseMembers m (s ++ t) = some (ms, r ++ t)
  array : ∀ s v r, parseArray n s = some (v, r) → ∀ m ≥ n, ∀ t,
    parseArray m (s ++ t) = some (v, r ++ t)
  items : ∀ s vs r, parseItems n s = some (vs, r) → ∀ m ≥ n, ∀ t,
    parseItems m (s ++ t) = some (vs, r ++ t)

theorem not_nil_of_skip {s s' : Utf16} {u : UInt16} (h : skip s = u :: s') : s ≠ [] := by
  rintro rfl
  exact absurd h (by simp [skip])

theorem extends_all (n : ℕ) : Extends n := by
  induction n with
  | zero =>
    constructor
    · exact fun s v r h => absurd h (by simp [parseValue])
    · exact fun s v r h => absurd h (by simp [parseObject])
    · exact fun s v r h => absurd h (by simp [parseMembers])
    · exact fun s v r h => absurd h (by simp [parseArray])
    · exact fun s v r h => absurd h (by simp [parseItems])
  | succ n ih =>
    constructor
    · intro s v r h hend m hm t
      obtain ⟨m, rfl⟩ : ∃ k, m = k + 1 := ⟨m - 1, by omega⟩
      obtain ⟨u, s', hskip, hcase⟩ := parseValue_iff.mp h
      refine parseValue_iff.mpr ⟨u, s' ++ t, skip_append hskip t, ?_⟩
      rcases hcase with ⟨hu, k, hk, rfl⟩ | ⟨hu, hobject⟩ | ⟨hu, harray⟩ | ⟨h34, h123, h91, hatom⟩
      · exact Or.inl ⟨hu, k, parseString_append hk t, rfl⟩
      · exact Or.inr (Or.inl ⟨hu, ih.object _ _ _ hobject m (by omega) t⟩)
      · exact Or.inr (Or.inr (Or.inl ⟨hu, ih.array _ _ _ harray m (by omega) t⟩))
      · exact Or.inr (Or.inr (Or.inr ⟨h34, h123, h91, parseAtom_append hatom hend t⟩))
    · intro s v r h m hm t
      obtain ⟨m, rfl⟩ : ∃ k, m = k + 1 := ⟨m - 1, by omega⟩
      obtain ⟨u, s', hskip, hcase⟩ := parseObject_iff.mp h
      refine parseObject_iff.mpr ⟨u, s' ++ t, skip_append hskip t, ?_⟩
      rcases hcase with ⟨hu, rfl, rfl⟩ | ⟨hu, members, hmembers, rfl⟩
      · exact Or.inl ⟨hu, rfl, rfl⟩
      · exact Or.inr ⟨hu, members, ih.members _ _ _ hmembers m (by omega) t, rfl⟩
    · intro s ms r h m hm t
      obtain ⟨m, rfl⟩ : ∃ k, m = k + 1 := ⟨m - 1, by omega⟩
      obtain ⟨s₁, k, s₂, s₃, v, s₄, u, s₅, hquote, hk, hcolon, hv, hnext, hcase⟩ :=
        parseMembers_iff.mp h
      have hvalue := ih.value _ _ _ hv (fun hnil => absurd hnil (not_nil_of_skip hnext)) m
        (by omega) t
      refine parseMembers_iff.mpr ⟨s₁ ++ t, k, s₂ ++ t, s₃ ++ t, v, s₄ ++ t, u, s₅ ++ t,
        skip_append hquote t, parseString_append hk t, skip_append hcolon t, hvalue,
        skip_append hnext t, ?_⟩
      rcases hcase with ⟨hu, more, hmore, rfl⟩ | ⟨hu, rfl, rfl⟩
      · exact Or.inl ⟨hu, more, ih.members _ _ _ hmore m (by omega) t, rfl⟩
      · exact Or.inr ⟨hu, rfl, rfl⟩
    · intro s v r h m hm t
      obtain ⟨m, rfl⟩ : ∃ k, m = k + 1 := ⟨m - 1, by omega⟩
      obtain ⟨u, s', hskip, hcase⟩ := parseArray_iff.mp h
      refine parseArray_iff.mpr ⟨u, s' ++ t, skip_append hskip t, ?_⟩
      rcases hcase with ⟨hu, rfl, rfl⟩ | ⟨hu, items, hitems, rfl⟩
      · exact Or.inl ⟨hu, rfl, rfl⟩
      · exact Or.inr ⟨hu, items, ih.items _ _ _ hitems m (by omega) t, rfl⟩
    · intro s vs r h m hm t
      obtain ⟨m, rfl⟩ : ∃ k, m = k + 1 := ⟨m - 1, by omega⟩
      obtain ⟨v, s₁, u, s₂, hv, hnext, hcase⟩ := parseItems_iff.mp h
      have hvalue := ih.value _ _ _ hv (fun hnil => absurd hnil (not_nil_of_skip hnext)) m
        (by omega) t
      refine parseItems_iff.mpr ⟨v, s₁ ++ t, u, s₂ ++ t, hvalue, skip_append hnext t, ?_⟩
      rcases hcase with ⟨hu, more, hmore, rfl⟩ | ⟨hu, rfl, rfl⟩
      · exact Or.inl ⟨hu, more, ih.items _ _ _ hmore m (by omega) t, rfl⟩
      · exact Or.inr ⟨hu, rfl, rfl⟩

structure Consumes (n : ℕ) : Prop where
  value : ∀ s v r, parseValue n s = some (v, r) → ∃ c, s = c ++ r
  object : ∀ s v r, parseObject n s = some (v, r) → ∃ c, s = c ++ 125 :: r
  members : ∀ s ms r, parseMembers n s = some (ms, r) → ∃ c, s = c ++ 125 :: r
  array : ∀ s v r, parseArray n s = some (v, r) → ∃ c, s = c ++ r
  items : ∀ s vs r, parseItems n s = some (vs, r) → ∃ c, s = c ++ r

theorem consumes_of_skip {s s' : Utf16} {u : UInt16} (h : skip s = u :: s') :
    ∃ c, s = c ++ u :: s' := by
  obtain ⟨c, hc⟩ := skip_suffix s
  rw [h] at hc
  exact ⟨c, hc⟩

theorem consumes_all (n : ℕ) : Consumes n := by
  induction n with
  | zero =>
    constructor
    · exact fun s v r h => absurd h (by simp [parseValue])
    · exact fun s v r h => absurd h (by simp [parseObject])
    · exact fun s v r h => absurd h (by simp [parseMembers])
    · exact fun s v r h => absurd h (by simp [parseArray])
    · exact fun s v r h => absurd h (by simp [parseItems])
  | succ n ih =>
    constructor
    · intro s v r h
      obtain ⟨u, s', hskip, hcase⟩ := parseValue_iff.mp h
      obtain ⟨c, rfl⟩ := consumes_of_skip hskip
      rcases hcase with ⟨-, k, hk, -⟩ | ⟨-, hobject⟩ | ⟨-, harray⟩ | ⟨-, -, -, hatom⟩
      · obtain ⟨c', rfl⟩ := parseString_suffix hk
        exact ⟨c ++ u :: c', by simp⟩
      · obtain ⟨c', rfl⟩ := ih.object _ _ _ hobject
        exact ⟨c ++ u :: (c' ++ [125]), by simp⟩
      · obtain ⟨c', rfl⟩ := ih.array _ _ _ harray
        exact ⟨c ++ u :: c', by simp⟩
      · obtain ⟨c', hc'⟩ := parseAtom_suffix hatom
        exact ⟨c ++ c', by rw [hc', List.append_assoc]⟩
    · intro s v r h
      obtain ⟨u, s', hskip, hcase⟩ := parseObject_iff.mp h
      obtain ⟨c, hc⟩ := consumes_of_skip hskip
      rcases hcase with ⟨rfl, rfl, -⟩ | ⟨-, members, hmembers, -⟩
      · exact ⟨c, hc⟩
      · exact ih.members _ _ _ hmembers
    · intro s ms r h
      obtain ⟨s₁, k, s₂, s₃, v, s₄, u, s₅, hquote, hk, hcolon, hv, hnext, hcase⟩ :=
        parseMembers_iff.mp h
      obtain ⟨c₁, rfl⟩ := consumes_of_skip hquote
      obtain ⟨c₂, rfl⟩ := parseString_suffix hk
      obtain ⟨c₃, rfl⟩ := consumes_of_skip hcolon
      obtain ⟨c₄, rfl⟩ := ih.value _ _ _ hv
      obtain ⟨c₅, rfl⟩ := consumes_of_skip hnext
      rcases hcase with ⟨-, more, hmore, -⟩ | ⟨rfl, rfl, -⟩
      · obtain ⟨c₆, rfl⟩ := ih.members _ _ _ hmore
        exact ⟨c₁ ++ 34 :: (c₂ ++ (c₃ ++ 58 :: (c₄ ++ (c₅ ++ u :: c₆)))), by simp⟩
      · exact ⟨c₁ ++ 34 :: (c₂ ++ (c₃ ++ 58 :: (c₄ ++ c₅))), by simp⟩
    · intro s v r h
      obtain ⟨u, s', hskip, hcase⟩ := parseArray_iff.mp h
      obtain ⟨c, hc⟩ := consumes_of_skip hskip
      rcases hcase with ⟨-, rfl, -⟩ | ⟨-, items, hitems, -⟩
      · exact ⟨c ++ [u], by rw [hc]; simp⟩
      · exact ih.items _ _ _ hitems
    · intro s vs r h
      obtain ⟨v, s₁, u, s₂, hv, hnext, hcase⟩ := parseItems_iff.mp h
      obtain ⟨c₁, rfl⟩ := ih.value _ _ _ hv
      obtain ⟨c₂, rfl⟩ := consumes_of_skip hnext
      rcases hcase with ⟨-, more, hmore, -⟩ | ⟨-, rfl, -⟩
      · obtain ⟨c₃, rfl⟩ := ih.items _ _ _ hmore
        exact ⟨c₁ ++ (c₂ ++ u :: c₃), by simp⟩
      · exact ⟨c₁ ++ (c₂ ++ [u]), by simp⟩

theorem parse_some {s : Utf16} {v : Value} (h : parse s = some v) :
    ∃ r, parseValue (2 * s.length + 2) s = some (v, r) ∧ skip r = [] := by
  unfold parse at h
  split at h
  · exact absurd h (by simp)
  · next w r hvalue =>
    split_ifs at h with hrest
    rw [← Option.some.inj h]
    exact ⟨r, hvalue, hrest⟩

theorem parseObject_of_brace {n : ℕ} {s r : Utf16} {v : Value}
    (h : parseValue n (123 :: s) = some (v, r)) :
    v.isNumber = false ∧ ∃ c, s = c ++ 125 :: r := by
  cases n with
  | zero => exact absurd h (by simp [parseValue])
  | succ n =>
    obtain ⟨u, s', hskip, hcase⟩ := parseValue_iff.mp h
    rw [skip_cons (by decide)] at hskip
    obtain ⟨rfl, rfl⟩ := List.cons.inj hskip
    rcases hcase with ⟨h34, -⟩ | ⟨-, hobject⟩ | ⟨h91, -⟩ | ⟨-, h123, -⟩
    · exact absurd h34 (by decide)
    · refine ⟨?_, (consumes_all n).object _ _ _ hobject⟩
      cases n with
      | zero => exact absurd hobject (by simp [parseObject])
      | succ n =>
        obtain ⟨u, s', -, hcase⟩ := parseObject_iff.mp hobject
        rcases hcase with ⟨-, -, rfl⟩ | ⟨-, members, -, rfl⟩ <;> rfl
    · exact absurd h91 (by decide)
    · exact absurd rfl h123

theorem stringify_cons (fields : List Field) : ∃ s, stringify fields = 123 :: s := by
  cases fields with
  | nil => exact ⟨[125], rfl⟩
  | cons field fields => exact ⟨_, rfl⟩

/-- No proper part of an object is JSON. -/
theorem parse_part {fields : List Field} {s t : Utf16} (h : stringify fields = s ++ t)
    (ht : t ≠ []) : parse s = none := by
  cases s with
  | nil => decide
  | cons u s =>
    obtain ⟨body, hbody⟩ := stringify_cons fields
    obtain rfl : u = 123 := (List.cons.inj (h.symm.trans hbody)).1
    rw [Option.eq_none_iff_forall_ne_some]
    intro v hv
    obtain ⟨r, hvalue, -⟩ := parse_some hv
    obtain ⟨hnumber, -⟩ := parseObject_of_brace hvalue
    have hmore := (extends_all _).value _ _ _ hvalue (fun _ => hnumber)
      (2 * (123 :: s).length + 2 + (fields.length + 3)) (Nat.le_add_right _ _) t
    have hwhole := parseValue_stringify fields
      (Nat.le_add_left (fields.length + 3) (2 * (123 :: s).length + 2)) []
    rw [List.append_nil, h, hmore] at hwhole
    have hempty : r ++ t = [] := (Prod.mk.inj (Option.some.inj hwhole)).2
    exact ht (List.append_eq_nil_iff.mp hempty).2

/-- Nor is an object with a foreign character behind its part. -/
theorem parse_spoiled {u : UInt16} (hspace : isSpace u = false) (hbrace : u ≠ 125) (s : Utf16) :
    parse (123 :: s ++ [u]) = none := by
  rw [Option.eq_none_iff_forall_ne_some]
  intro v hv
  obtain ⟨r, hvalue, hrest⟩ := parse_some hv
  obtain ⟨-, c, hc⟩ := parseObject_of_brace hvalue
  rcases List.eq_nil_or_concat r with rfl | ⟨front, w, rfl⟩
  · have hlast := (List.append_inj' hc rfl).2
    exact hbrace (List.cons.inj hlast).1
  · have hparts : s ++ [u] = c ++ 125 :: front.concat w := hc
    have hsplit : s ++ [u] = (c ++ 125 :: front) ++ [w] := by
      simpa using hparts
    have hlast : u = w := (List.cons.inj (List.append_inj' hsplit rfl).2).1
    have hmem := List.dropWhile_eq_nil_iff.mp hrest w (by simp)
    rw [← hlast, hspace] at hmem
    exact absurd hmem (by decide)

theorem newline_notMem_escapeUnit (u : UInt16) : (10 : UInt16) ∉ escapeUnit u := by
  have hhex : ∀ n < 16, hexUnit n ≠ 10 := by decide
  have hu := u.toNat_lt
  unfold escapeUnit
  split_ifs with h8 h9 h10 h12 h13 h34 h92 hcontrol
  · decide
  · decide
  · decide
  · decide
  · decide
  · decide
  · decide
  · simp only [unicodeEscape, List.mem_cons, List.not_mem_nil, or_false, not_or]
    exact ⟨by decide, by decide, (hhex _ (by omega)).symm, (hhex _ (by omega)).symm,
      (hhex _ (by omega)).symm, (hhex _ (by omega)).symm⟩
  · exact fun h => h10 (List.mem_singleton.mp h).symm

theorem newline_notMem_escape (s : Utf16) {paired : Bool}
    (hpaired : paired = true → startsLow s = true) : (10 : UInt16) ∉ escape paired s := by
  induction s generalizing paired with
  | nil => exact List.not_mem_nil
  | cons u s ih =>
    rw [escape]
    split_ifs with hlow hhigh
    · have hu : isLow u = true := hpaired hlow
      rw [List.mem_cons, not_or]
      refine ⟨?_, ih (by simp)⟩
      rintro rfl
      exact absurd hu (by decide)
    · simp only [Bool.and_eq_true] at hhigh
      rw [List.mem_cons, not_or]
      refine ⟨?_, ih fun _ => hhigh.2⟩
      rintro rfl
      exact absurd hhigh.1 (by decide)
    · rw [List.mem_append, not_or]
      exact ⟨newline_notMem_escapeUnit u, ih (by simp)⟩

theorem newline_notMem_quote (s : Utf16) : (10 : UInt16) ∉ quote s := by
  rw [quote, List.mem_cons, List.mem_append, List.mem_singleton, not_or, not_or]
  exact ⟨by decide, newline_notMem_escape s (by simp), by decide⟩

theorem newline_notMem_scalar (v : Scalar) : (10 : UInt16) ∉ v.stringify := by
  cases v with
  | null => decide
  | number n =>
    intro h
    exact absurd (mem_digits h).1 (by decide)
  | string s => exact newline_notMem_quote s

theorem newline_notMem_more (fields : List Field) : (10 : UInt16) ∉ stringifyMore fields := by
  induction fields with
  | nil => decide
  | cons field fields ih =>
    simp only [stringifyMore, List.mem_cons, List.mem_append, not_or]
    exact ⟨by decide, newline_notMem_quote _, by decide, newline_notMem_scalar _, ih⟩

theorem newline_notMem_stringify (fields : List Field) : (10 : UInt16) ∉ stringify fields := by
  cases fields with
  | nil => decide
  | cons field fields =>
    simp only [stringify, List.mem_cons, List.mem_append, not_or]
    exact ⟨by decide, newline_notMem_quote _, by decide, newline_notMem_scalar _,
      newline_notMem_more _⟩

end JsonText

end Memclaw.Lib
