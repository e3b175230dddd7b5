import Memclaw.Lib.FixedWidthDefs
import Memclaw.Lib.Split

/-! `str.lower`: every character is replaced by its lower-case characters, and a capital sigma by
one of two letters, which its neighbours choose. -/

namespace Memclaw.Lib

structure CaseChars extends CharData where
  lowerFull : Char → List Char
  cased : Char → Bool
  caseIgnorable : Char → Bool
  lower_ne_nil : ∀ c, lowerFull c ≠ []
  lower_ascii : ∀ c, c.toNat < 128 → lowerFull c = [c.toLower]
  letter_cased : ∀ c, c.isAlpha = true → cased c = true ∧ caseIgnorable c = false
  letter_not_space : ∀ c, c.isAlpha = true → space c = false

namespace CaseChars

theorem lt_of_isAlpha {c : Char} (h : c.isAlpha = true) : 65 ≤ c.toNat ∧ c.toNat < 128 := by
  have hval : c.val.toNat = c.toNat := rfl
  have hletter : (c.isUpper || c.isLower) = true := h
  rw [Bool.or_eq_true] at hletter
  rcases hletter with hupper | hlower
  · have hbounds : 65 ≤ c.val ∧ c.val ≤ 90 := of_decide_eq_true hupper
    rw [UInt32.le_iff_toNat_le, UInt32.le_iff_toNat_le, hval] at hbounds
    simp at hbounds
    omega
  · have hbounds : (decide (97 ≤ c.val) && decide (c.val ≤ 122)) = true := hlower
    rw [Bool.and_eq_true, decide_eq_true_iff, decide_eq_true_iff, UInt32.le_iff_toNat_le,
      UInt32.le_iff_toNat_le, hval] at hbounds
    simp at hbounds
    omega

theorem not_ignorable {c : Char} (h : c.isAlpha = true) :
    ['\'', '.', ':', '^', '`'].contains c = false := by
  rw [Bool.eq_false_iff]
  intro hmem
  simp only [List.contains_iff_mem, List.mem_cons, List.not_mem_nil, or_false] at hmem
  rcases hmem with rfl | rfl | rfl | rfl | rfl
  all_goals cases h

def ascii : CaseChars where
  toCharData := CharData.ascii
  lowerFull c := [c.toLower]
  cased := Char.isAlpha
  caseIgnorable c := ['\'', '.', ':', '^', '`'].contains c
  lower_ne_nil c := List.cons_ne_nil _ _
  lower_ascii c _ := rfl
  letter_cased c h := ⟨h, not_ignorable h⟩
  letter_not_space c h := by
    have hlow := (lt_of_isAlpha h).1
    simp only [CharData.ascii, Bool.or_eq_false_iff, Bool.and_eq_false_iff, decide_eq_false_iff_not]
    omega

variable (chars : CaseChars)

/-- A capital sigma behind a letter and in front of none ends a word. -/
def finalSigma (before rest : List Char) : Bool :=
  (before.dropWhile chars.caseIgnorable).head?.any chars.cased &&
    !(rest.dropWhile chars.caseIgnorable).head?.any chars.cased

def lowerFrom (before : List Char) : List Char → List Char
  | [] => []
  | c :: rest =>
    (if c = 'Σ' then [if chars.finalSigma before rest then 'ς' else 'σ'] else chars.lowerFull c) ++
      lowerFrom (c :: before) rest

def lower (text : List Char) : List Char := chars.lowerFrom [] text

def strip (text : List Char) : List Char :=
  ((text.dropWhile chars.space).reverse.dropWhile chars.space).reverse

def plain (c : Char) : List Char := if c = 'Σ' then ['σ'] else chars.lowerFull c

theorem plain_ne_nil (c : Char) : chars.plain c ≠ [] := by
  unfold plain
  split_ifs
  · exact List.cons_ne_nil _ _
  · exact chars.lower_ne_nil c

theorem plain_ascii {c : Char} (h : c.toNat < 128) : chars.plain c = [c.toLower] := by
  have hne : c ≠ 'Σ' := by
    rintro rfl
    exact absurd h (by decide)
  rw [plain, if_neg hne, chars.lower_ascii c h]

theorem lowerFrom_forall₂ {p : Char → Bool} (hfinal : p 'ς' = true) (hinner : p 'σ' = true)
    (before text : List Char) :
    List.Forall₂ (fun a b => a = b ∨ p a = true ∧ p b = true) (chars.lowerFrom before text)
      (text.flatMap chars.plain) := by
  -- Where both sigmas are separators, a lowered text has the pieces of its plain characters.
  induction text generalizing before with
  | nil => exact .nil
  | cons c rest ih =>
    have hsame : ∀ cs : List Char, List.Forall₂ (fun a b => a = b ∨ p a = true ∧ p b = true) cs cs :=
      fun cs => List.forall₂_same.mpr fun _ _ => .inl rfl
    rw [lowerFrom, List.flatMap_cons]
    refine List.rel_append ?_ (ih (c :: before))
    unfold plain
    split_ifs
    · exact .cons (.inr ⟨hfinal, hinner⟩) .nil
    · exact hsame _
    · exact hsame _

theorem segments_lower {p : Char → Bool} (hfinal : p 'ς' = true) (hinner : p 'σ' = true)
    (text : List Char) : segments p (chars.lower text) = segments p (text.flatMap chars.plain) := by
  rw [segments, segments, lower, splitOnP_congr (chars.lowerFrom_forall₂ hfinal hinner [] text)]

def SameButCase : List Char → List Char → Prop :=
  List.Forall₂ fun c d => c = d ∨ c.isAlpha = true ∧ d.isAlpha = true ∧ c.toLower = d.toLower

variable {chars} {cs ds before before' : List Char}

theorem SameButCase.plain (h : SameButCase cs ds) :
    cs.flatMap chars.plain = ds.flatMap chars.plain := by
  induction h with
  | nil => rfl
  | cons hcd _ ih =>
    rw [List.flatMap_cons, List.flatMap_cons, ih]
    rcases hcd with rfl | ⟨hc, hd, hlower⟩
    · rfl
    · rw [chars.plain_ascii (lt_of_isAlpha hc).2, chars.plain_ascii (lt_of_isAlpha hd).2, hlower]

theorem SameButCase.dropWhile {p : Char → Bool} (hp : ∀ c, c.isAlpha = true → p c = false)
    (h : SameButCase cs ds) : SameButCase (cs.dropWhile p) (ds.dropWhile p) := by
  induction h with
  | nil => exact .nil
  | @cons c d cs ds hcd hrest ih =>
    have hsame : p c = p d := by
      rcases hcd with rfl | ⟨hc, hd, -⟩
      · rfl
      · rw [hp c hc, hp d hd]
    rw [List.dropWhile_cons, List.dropWhile_cons, hsame]
    split
    · exact ih
    · exact .cons hcd hrest

theorem SameButCase.head_cased (h : SameButCase cs ds) :
    (cs.dropWhile chars.caseIgnorable).head?.any chars.cased =
      (ds.dropWhile chars.caseIgnorable).head?.any chars.cased := by
  have hrest := h.dropWhile fun c hc => (chars.letter_cased c hc).2
  generalize cs.dropWhile chars.caseIgnorable = cs, ds.dropWhile chars.caseIgnorable = ds at hrest ⊢
  cases hrest with
  | nil => rfl
  | cons hcd _ =>
    rw [List.head?_cons, List.head?_cons, Option.any_some, Option.any_some]
    rcases hcd with rfl | ⟨hc, hd, -⟩
    · rfl
    · rw [(chars.letter_cased _ hc).1, (chars.letter_cased _ hd).1]

theorem SameButCase.lowerFrom (h : SameButCase cs ds) (hbefore : SameButCase before before') :
    chars.lowerFrom before cs = chars.lowerFrom before' ds := by
  induction h generalizing before before' with
  | nil => rfl
  | @cons c d cs ds hcd hrest ih =>
    rw [CaseChars.lowerFrom, CaseChars.lowerFrom, ih (.cons hcd hbefore)]
    rcases hcd with rfl | ⟨hc, hd, hlower⟩
    · rw [finalSigma, finalSigma, hbefore.head_cased, SameButCase.head_cased hrest]
    · have hne : ∀ x : Char, x.isAlpha = true → x ≠ 'Σ' := by
        rintro x hx rfl
        cases hx
      rw [if_neg (hne c hc), if_neg (hne d hd), chars.lower_ascii c (lt_of_isAlpha hc).2,
        chars.lower_ascii d (lt_of_isAlpha hd).2, hlower]

theorem SameButCase.lower (h : SameButCase cs ds) : chars.lower cs = chars.lower ds :=
  SameButCase.lowerFrom h .nil

theorem SameButCase.reverse (h : SameButCase cs ds) : SameButCase cs.reverse ds.reverse :=
  List.forall₂_reverse_iff.mpr h

theorem SameButCase.strip (h : SameButCase cs ds) :
    SameButCase (chars.strip cs) (chars.strip ds) := by
  have hspace : ∀ c : Char, c.isAlpha = true → chars.space c = false := chars.letter_not_space
  exact ((h.dropWhile hspace).reverse.dropWhile hspace).reverse

theorem dropWhile_append_of_forall {p : Char → Bool} (h : ∀ c ∈ cs, p c = true) :
    (cs ++ ds).dropWhile p = ds.dropWhile p := by
  rw [List.dropWhile_append, List.dropWhile_eq_nil_iff.mpr h]
  rfl

theorem strip_outer {front back : List Char} (hfront : ∀ c ∈ front, chars.space c = true)
    (hback : ∀ c ∈ back, chars.space c = true) : chars.strip (front ++ cs ++ back) = chars.strip cs := by
  unfold strip
  rw [List.append_assoc, dropWhile_append_of_forall hfront, List.dropWhile_append]
  split_ifs with hempty
  · rw [List.isEmpty_iff] at hempty
    rw [List.dropWhile_eq_nil_iff.mpr hback, hempty]
  · rw [List.reverse_append, dropWhile_append_of_forall]
    exact fun c hc => hback c (List.mem_reverse.mp hc)

end CaseChars

end Memclaw.Lib
