import Mathlib.Data.List.TakeWhile
import Mathlib.Order.RelClasses
import Memclaw.Fleet.CommandDefs
import Memclaw.Lib.Fallible
import Memclaw.Lib.Split
import Memclaw.Lib.ZeroPad

/-! The two readers of a plugin version: `_semver_lt`, by which the auto-upgrade goes, and
`is_plugin_outdated` of `version_compat.py`, by which the warning goes. -/

namespace Memclaw.Fleet

open Memclaw.Lib

section Outdated

structure VersionChars extends CharData where
  isdigit : Char → Bool

def VersionChars.ascii : VersionChars where
  toCharData := CharData.ascii
  isdigit c := c.isDigit || c = '²'

variable (chars : VersionChars)

def VersionChars.isdigitText (seg : List Char) : Bool := seg ≠ [] && seg.all chars.isdigit

/-- `v.split("-", 1)[0].split("+", 1)[0]`. -/
def versionCore (v : List Char) : List Char := (v.takeWhile (· ≠ '-')).takeWhile (· ≠ '+')

def leadingSegments (v : String) : List (List Char) :=
  ((versionCore v.toList).splitOn '.').takeWhile chars.isdigitText

def parse (v : String) : Option (List Int) := (leadingSegments chars v).mapM (parseInt chars.toCharData)

def isPluginOutdated (reported : Option String) : Option Bool :=
  match reported with
  | none => some false
  | some v =>
    if v = "" then some false
    else do
      let r ← parse chars v
      let m ← parse chars minRecommendedPluginVersion
      some (if r = [] || m = [] then false else intsLt r m)

end Outdated

structure VersionChars.Standard (chars : VersionChars) : Prop where
  ascii : ∀ c : Char, c.isDigit = true → chars.decimal c = some (c.toNat - 48)
  decimal : ∀ c, (chars.decimal c).isSome = true → chars.isdigit c = true
  space : ∀ c, chars.isdigit c = true → chars.space c = false
  plain : ∀ c ∈ ['-', '+', '.', '_'], chars.isdigit c = false ∧ chars.space c = false

variable {chars : VersionChars}

section Numbers

variable {seg : List Char}

def VersionChars.readable (chars : VersionChars) (seg : List Char) : Bool :=
  seg.all (fun c => (chars.decimal c).isSome) && seg.length ≤ 4300

theorem scanDecimal_decimals (hstd : chars.Standard)
    (hall : ∀ c ∈ seg, (chars.decimal c).isSome = true) (acc count : ℕ) (afterDigit : Bool)
    (h : seg ≠ [] ∨ afterDigit = true) :
    ∃ n, scanDecimal chars.toCharData acc count afterDigit seg = some ((n, count + seg.length), []) := by
  induction seg generalizing acc count afterDigit with
  | nil =>
    rcases h with h | rfl
    · exact absurd rfl h
    · exact ⟨acc, rfl⟩
  | cons c seg ih =>
    obtain ⟨hc, hseg⟩ := List.forall_mem_cons.mp hall
    obtain ⟨d, hd⟩ := Option.isSome_iff_exists.mp hc
    have hunderscore : c ≠ '_' := by
      rintro rfl
      have hdigit := hstd.decimal '_' hc
      rw [(hstd.plain '_' (by simp)).1] at hdigit
      exact Bool.noConfusion hdigit
    obtain ⟨n, hn⟩ := ih hseg (10 * acc + d) (count + 1) true (.inr rfl)
    refine ⟨n, ?_⟩
    rw [scanDecimal, if_neg hunderscore, hd]
    dsimp only
    rw [hn, List.length_cons, Nat.add_right_comm, Nat.add_assoc]

theorem scanDecimal_stuck (hstd : chars.Standard) {seg : List Char} (rest : List Char) {c : Char}
    (hdigits : ∀ c ∈ seg, chars.isdigit c = true) (hdecimal : chars.decimal c = none)
    (hspace : chars.space c = false) (hunderscore : c ≠ '_') (acc count : ℕ) (afterDigit : Bool) :
    ∀ result, scanDecimal chars.toCharData acc count afterDigit (seg ++ c :: rest) = some result →
      result.2.all (intSpace chars.toCharData) = false := by
  -- Digits that are not decimal, or a sign, end the digits in something that is not space.
  induction seg generalizing acc count afterDigit with
  | nil =>
    intro result hresult
    rw [List.nil_append, scanDecimal, if_neg hunderscore, hdecimal] at hresult
    dsimp only at hresult
    split at hresult
    · obtain rfl := Option.some.inj hresult
      rw [List.all_cons, intSpace, hspace, Bool.false_and, Bool.false_and]
    · cases hresult
  | cons d seg ih =>
    obtain ⟨hd, hseg⟩ := List.forall_mem_cons.mp hdigits
    have hunderscore' : d ≠ '_' := by
      rintro rfl
      rw [(hstd.plain '_' (by simp)).1] at hd
      exact Bool.noConfusion hd
    intro result hresult
    rw [List.cons_append, scanDecimal, if_neg hunderscore'] at hresult
    cases hdec : chars.decimal d with
    | some n =>
      rw [hdec] at hresult
      exact ih hseg _ _ _ result hresult
    | none =>
      rw [hdec] at hresult
      dsimp only at hresult
      split at hresult
      · obtain rfl := Option.some.inj hresult
        rw [List.all_cons, intSpace, hstd.space d hd, Bool.false_and, Bool.false_and]
      · cases hresult

theorem parseInt_eq (hstd : chars.Standard) {c : Char} (hc : chars.isdigit c = true)
    (rest : List Char) : parseInt chars.toCharData (c :: rest) =
      (scanDecimal chars.toCharData 0 0 false (c :: rest)).bind fun scanned =>
        if scanned.2.all (intSpace chars.toCharData) && decide (scanned.1.2 ≤ 4300) then some (scanned.1.1 : Int)
        else none := by
  -- A text that starts with a digit has neither space nor sign to skip.
  have hspace : intSpace chars.toCharData c = false := by
    rw [intSpace, hstd.space c hc, Bool.false_and]
  have hminus : c ≠ '-' := by
    rintro rfl
    rw [(hstd.plain '-' (by simp)).1] at hc
    exact Bool.noConfusion hc
  have hplus : c ≠ '+' := by
    rintro rfl
    rw [(hstd.plain '+' (by simp)).1] at hc
    exact Bool.noConfusion hc
  have hdrop : (c :: rest).dropWhile (intSpace chars.toCharData) = c :: rest :=
    List.dropWhile_cons_of_neg (by rw [hspace]; exact Bool.false_ne_true)
  unfold parseInt
  dsimp only
  rw [hdrop]
  simp only [hminus, hplus, imp_false, not_false_eq_true, List.cons.injEq, false_and, implies_true]
  cases scanDecimal chars.toCharData 0 0 false (c :: rest) <;> rfl

theorem parseInt_isSome_iff (hstd : chars.Standard) (hdigits : chars.isdigitText seg = true) :
    (parseInt chars.toCharData seg).isSome = true ↔ chars.readable seg = true := by
  rw [VersionChars.isdigitText, Bool.and_eq_true, decide_eq_true_iff] at hdigits
  obtain ⟨hne, hall⟩ := hdigits
  have hall := List.all_eq_true.mp hall
  have hparse : parseInt chars.toCharData seg =
      (scanDecimal chars.toCharData 0 0 false seg).bind fun scanned =>
        if scanned.2.all (intSpace chars.toCharData) && decide (scanned.1.2 ≤ 4300) then some (scanned.1.1 : Int)
        else none := by
    cases seg with
    | nil => exact absurd rfl hne
    | cons c rest => exact parseInt_eq hstd (hall c List.mem_cons_self) rest
  rw [hparse, VersionChars.readable, Bool.and_eq_true, List.all_eq_true, decide_eq_true_iff]
  by_cases hdecimal : ∀ c ∈ seg, (chars.decimal c).isSome = true
  · obtain ⟨n, hn⟩ := scanDecimal_decimals hstd hdecimal 0 0 false (.inl hne)
    rw [hn, Option.bind_some, List.all_nil, Bool.true_and, Nat.zero_add]
    by_cases hlength : seg.length ≤ 4300
    · rw [decide_eq_true hlength, if_pos rfl]
      exact ⟨fun _ => ⟨hdecimal, hlength⟩, fun _ => rfl⟩
    · rw [decide_eq_false hlength, if_neg Bool.false_ne_true]
      exact ⟨fun h => Bool.noConfusion h, fun h => absurd h.2 hlength⟩
  · have hdecimal' := hdecimal
    push Not at hdecimal'
    obtain ⟨c, hc, hnone⟩ := hdecimal'
    have hnone : chars.decimal c = none := by simpa using hnone
    obtain ⟨front, back, rfl⟩ := List.append_of_mem hc
    have hunderscore : c ≠ '_' := by
      rintro rfl
      have hdigit := hall '_' hc
      rw [(hstd.plain '_' (by simp)).1] at hdigit
      exact Bool.noConfusion hdigit
    have hstuck := scanDecimal_stuck hstd back
      (fun d hd => hall d (List.mem_append_left _ hd)) hnone (hstd.space c (hall c hc)) hunderscore
      0 0 false
    constructor
    · intro hsome
      cases hscan : scanDecimal chars.toCharData 0 0 false (front ++ c :: back) with
      | none =>
        rw [hscan] at hsome
        exact Bool.noConfusion hsome
      | some result =>
        rw [hscan, Option.bind_some, hstuck result hscan, Bool.false_and] at hsome
        exact Bool.noConfusion hsome
    · intro h
      exact absurd h.1 hdecimal

theorem parseInt_sign (hstd : chars.Standard) (hdigits : chars.isdigitText seg = true) {c : Char}
    (hc : c = '-' ∨ c = '+') (rest : List Char) :
    parseInt chars.toCharData (seg ++ c :: rest) = none := by
  -- A sign behind digits is nothing that `int` reads.
  rw [VersionChars.isdigitText, Bool.and_eq_true, decide_eq_true_iff] at hdigits
  obtain ⟨hne, hall⟩ := hdigits
  have hall := List.all_eq_true.mp hall
  have hsign : c ∈ ['-', '+', '.', '_'] := by
    rcases hc with rfl | rfl <;> simp
  obtain ⟨hdigit, hspace⟩ := hstd.plain c hsign
  have hnone : chars.decimal c = none := by
    cases hdec : chars.decimal c with
    | none => rfl
    | some d =>
      have hsome := hstd.decimal c (by rw [hdec]; rfl)
      rw [hdigit] at hsome
      exact Bool.noConfusion hsome
  have hunderscore : c ≠ '_' := by
    rcases hc with rfl | rfl <;> decide
  have hstuck := scanDecimal_stuck hstd rest hall hnone hspace hunderscore 0 0 false
  cases seg with
  | nil => exact absurd rfl hne
  | cons d seg =>
    rw [List.cons_append, parseInt_eq hstd (hall d List.mem_cons_self)]
    cases hscan : scanDecimal chars.toCharData 0 0 false (d :: (seg ++ c :: rest)) with
    | none => rfl
    | some result =>
      rw [Option.bind_some, hstuck result hscan, Bool.false_and]
      rfl

end Numbers

theorem intsLt_iff_padded {as bs : List Int} (h : as.length = bs.length) :
    intsLt as bs = true ↔ padded 0 as < padded 0 bs := by
  induction as generalizing bs with
  | nil =>
    obtain rfl := List.eq_nil_of_length_eq_zero h.symm
    exact ⟨fun h => Bool.noConfusion h, fun h => absurd h (lt_irrefl _)⟩
  | cons a as ih =>
    cases bs with
    | nil => exact absurd h (Nat.succ_ne_zero _)
    | cons b bs =>
      rw [intsLt, Bool.or_eq_true, Bool.and_eq_true, decide_eq_true_iff, decide_eq_true_iff,
        ih (Nat.succ.inj h), padded.cons_lt_cons]

def Parses (chars : VersionChars) (v : String) (parts : List Int) : Prop :=
  versionParts chars.toCharData v = some parts ∧ parts ≠ []

theorem Parses.ne_empty {v : String} {parts : List Int} (h : Parses chars v parts) : v ≠ "" := by
  rintro rfl
  obtain ⟨hparts, hne⟩ := h
  exact hne (Option.some.inj hparts).symm

theorem semverLt_iff {a b : String} {as bs : List Int} (ha : Parses chars a as)
    (hb : Parses chars b bs) :
    semverLt chars.toCharData a b = true ↔ padded 0 as < padded 0 bs := by
  have hempty : ¬ (decide (a = "") || decide (b = "")) = true := by
    simp [ha.ne_empty, hb.ne_empty]
  have hnil : ¬ (decide (as = []) || decide (bs = [])) = true := by
    simp [ha.2, hb.2]
  have hlength : (as ++ List.replicate (max as.length bs.length - as.length) 0).length =
      (bs ++ List.replicate (max as.length bs.length - bs.length) 0).length := by
    rw [List.length_append, List.length_append, List.length_replicate, List.length_replicate]
    omega
  rw [semverLt, if_neg hempty, ha.1, hb.1]
  dsimp only
  rw [if_neg hnil, intsLt_iff_padded hlength, padded.append_replicate, padded.append_replicate]

def Version (chars : VersionChars) := {v : String // ∃ parts, Parses chars v parts}

def Version.key (v : Version chars) : Lex (ℕ → Int) :=
  padded 0 ((versionParts chars.toCharData v.1).getD [])

theorem semverLt_iff_key (a b : Version chars) :
    semverLt chars.toCharData a.1 b.1 = true ↔ a.key < b.key := by
  obtain ⟨a, as, ha⟩ := a
  obtain ⟨b, bs, hb⟩ := b
  rw [semverLt_iff ha hb]
  simp only [Version.key, ha.1, hb.1, Option.getD_some]

theorem strictWeakOrder (chars : VersionChars) : IsStrictWeakOrder (Version chars)
    fun a b => semverLt chars.toCharData a.1 b.1 = true := by
  have hkey : (fun a b : Version chars => semverLt chars.toCharData a.1 b.1 = true) =
      Function.onFun (· < ·) Version.key := by
    funext a b
    exact propext (semverLt_iff_key a b)
  have horder : IsStrictWeakOrder (Lex (ℕ → Int)) (· < ·) := isStrictWeakOrder_of_isOrderConnected
  rw [hkey]
  infer_instance

theorem semverLt_trailing {a b : String} {parts : List Int} (n : ℕ) (ha : Parses chars a parts)
    (hb : Parses chars b (parts ++ List.replicate n 0)) :
    semverLt chars.toCharData a b = false ∧ semverLt chars.toCharData b a = false := by
  have hsame : padded 0 (parts ++ List.replicate n 0) = padded 0 parts :=
    padded.append_replicate parts n
  rw [Bool.eq_false_iff, Bool.eq_false_iff, Ne, Ne, semverLt_iff ha hb, semverLt_iff hb ha, hsame]
  exact ⟨lt_irrefl _, lt_irrefl _⟩

theorem versionCore_append (cs : List Char) : ∃ tail, cs = versionCore cs ++ tail ∧
    ∀ c rest, tail = c :: rest → c = '-' ∨ c = '+' := by
  induction cs with
  | nil => exact ⟨[], rfl, fun c rest h => absurd h (List.cons_ne_nil c rest).symm⟩
  | cons c cs ih =>
    by_cases hminus : c = '-'
    · refine ⟨c :: cs, ?_, fun d rest h => .inl ((List.cons.inj h).1.symm.trans hminus)⟩
      rw [versionCore, List.takeWhile_cons_of_neg (by simp [hminus])]
      rfl
    · by_cases hplus : c = '+'
      · refine ⟨c :: cs, ?_, fun d rest h => .inr ((List.cons.inj h).1.symm.trans hplus)⟩
        rw [versionCore, List.takeWhile_cons_of_pos (by simp [hminus]),
          List.takeWhile_cons_of_neg (by simp [hplus])]
        rfl
      · obtain ⟨tail, htail, hsign⟩ := ih
        refine ⟨tail, ?_, hsign⟩
        rw [versionCore, List.takeWhile_cons_of_pos (by simp [hminus]),
          List.takeWhile_cons_of_pos (by simp [hplus]), ← versionCore, List.cons_append, ← htail]

theorem ne_nil_of_isdigitText {seg : List Char} (h : chars.isdigitText seg = true) : seg ≠ [] := by
  rw [VersionChars.isdigitText, Bool.and_eq_true, decide_eq_true_iff] at h
  exact h.1

theorem leadingSegments_prefix (hstd : chars.Standard) {v : String} {parts : List Int}
    (hparts : versionParts chars.toCharData v = some parts) :
    leadingSegments chars v <+: (v.toList.splitOn '.').filter (· ≠ []) := by
  -- Where `_semver_lt` reads a version, the leading segments of digits are its first components.
  obtain ⟨tail, htail, hsign⟩ := versionCore_append v.toList
  obtain ⟨init, last, hcore, hback⟩ :=
    splitOnP_append (p := (· == '.')) (versionCore v.toList)
  obtain ⟨head, more, htailSplit⟩ := List.exists_cons_of_ne_nil
    (List.splitOnP_ne_nil (· == '.') tail)
  have hwhole : v.toList.splitOn '.' = init ++ (last ++ head) :: more := by
    rw [List.splitOn_eq_splitOnP]
    exact htail ▸ hback tail head more htailSplit
  have hleading : leadingSegments chars v = (init ++ [last]).takeWhile chars.isdigitText := by
    rw [leadingSegments, List.splitOn_eq_splitOnP, hcore]
  rw [hleading, hwhole]
  by_cases hall : ∀ seg ∈ init ++ [last], chars.isdigitText seg = true
  · cases tail with
    | nil =>
      obtain ⟨rfl, rfl⟩ := List.cons.inj (htailSplit.symm.trans List.splitOnP_nil)
      have hne : ∀ seg ∈ init ++ [last], decide (seg ≠ []) = true := fun seg hseg =>
        decide_eq_true (ne_nil_of_isdigitText (hall seg hseg))
      rw [List.append_nil, List.filter_eq_self.mpr hne]
      exact List.takeWhile_prefix _
    | cons c rest =>
      -- the core was cut within a segment, and `int` does not read the sign
      have hc := hsign c rest rfl
      have hdot : ¬ (c == '.') = true := by
        rcases hc with rfl | rfl <;> decide
      rw [List.splitOnP_cons_eq_if_modifyHead, if_neg hdot] at htailSplit
      obtain ⟨back, backs, hrest⟩ := List.exists_cons_of_ne_nil
        (List.splitOnP_ne_nil (· == '.') rest)
      rw [hrest] at htailSplit
      obtain ⟨rfl, rfl⟩ := List.cons.inj htailSplit
      have hlast : chars.isdigitText last = true := hall last (by simp)
      have hmem : last ++ c :: back ∈ (v.toList.splitOn '.').filter (· ≠ []) := by
        rw [hwhole]
        exact List.mem_filter.mpr ⟨by simp, by simp⟩
      have hsome := isSome_mapM_iff.mp (by rw [← versionParts, hparts]; rfl) _ hmem
      rw [parseInt_sign hstd hlast hc] at hsome
      exact Bool.noConfusion hsome
  · have htake : (init ++ [last]).takeWhile chars.isdigitText = init.takeWhile chars.isdigitText := by
      rw [List.takeWhile_append]
      split
      · next hlength =>
        have hinit : init.takeWhile chars.isdigitText = init :=
          (List.takeWhile_prefix _).eq_of_length hlength
        have hlast : ¬ chars.isdigitText last = true := by
          intro hlast
          refine hall fun seg hseg => ?_
          rcases List.mem_append.mp hseg with hseg | hseg
          · exact List.takeWhile_eq_self_iff.mp hinit seg hseg
          · rw [List.mem_singleton.mp hseg]
            exact hlast
        rw [List.takeWhile_cons_of_neg hlast, List.append_nil, hinit]
      · rfl
    have hne : ∀ seg ∈ init.takeWhile chars.isdigitText, decide (seg ≠ []) = true := fun seg hseg =>
      decide_eq_true (ne_nil_of_isdigitText (List.mem_takeWhile_imp hseg))
    obtain ⟨rest, hinit⟩ := List.takeWhile_prefix (l := init) chars.isdigitText
    rw [htake, List.filter_append]
    nth_rewrite 2 [← hinit]
    rw [List.filter_append, List.filter_eq_self.mpr hne, List.append_assoc]
    exact List.prefix_append _ _

theorem parse_prefix (hstd : chars.Standard) {v : String} {parts : List Int}
    (hparts : versionParts chars.toCharData v = some parts) :
    ∃ r rest, parse chars v = some r ∧ parts = r ++ rest := by
  obtain ⟨segs, hsegs⟩ := leadingSegments_prefix hstd hparts
  rw [versionParts, ← hsegs, List.mapM_append] at hparts
  obtain ⟨r, hr, hrest⟩ := Option.bind_eq_some_iff.mp hparts
  obtain ⟨rest, -, hparts⟩ := Option.bind_eq_some_iff.mp hrest
  exact ⟨r, rest, hr, (Option.some.inj hparts).symm⟩

/-- A version whose first components are `r` and whose others are `rest` falls on the side of `m`
on which `r` falls: no matter what the two are where `r` and `m` differ; where one of them is a
beginning of the other, by what is left of it. -/
structure SameSide (m r rest : List Int) : Prop where
  short : ∀ back, m = r ++ back → back ≠ [] → padded 0 rest < padded 0 back
  long : ∀ more, r = m ++ more → ¬ padded 0 (more ++ rest) < padded 0 []

theorem sameSide_cons {x : Int} {m r rest : List Int} :
    SameSide (x :: m) (x :: r) rest ↔ SameSide m r rest := by
  constructor
  · intro h
    exact ⟨fun back hback => h.short back (by rw [hback, List.cons_append]),
      fun more hmore => h.long more (by rw [hmore, List.cons_append])⟩
  · intro h
    exact ⟨fun back hback => h.short back (List.cons.inj hback).2,
      fun more hmore => h.long more (List.cons.inj hmore).2⟩

theorem sameSide_of_ne {x y : Int} (hxy : x ≠ y) {m r rest : List Int} :
    SameSide (y :: m) (x :: r) rest :=
  ⟨fun _ hback => absurd (List.cons.inj hback).1.symm hxy,
    fun _ hmore => absurd (List.cons.inj hmore).1 hxy⟩

theorem sameSide_iff {m r rest : List Int} :
    (intsLt r m = true ↔ padded 0 (r ++ rest) < padded 0 m) ↔ SameSide m r rest := by
  induction r generalizing m with
  | nil =>
    cases m with
    | nil =>
      constructor
      · intro h
        refine ⟨fun back hback hne => absurd (List.nil_eq_append_iff.mp hback).2 hne, ?_⟩
        intro more hmore hlt
        obtain rfl := (List.nil_eq_append_iff.mp hmore).2
        exact Bool.noConfusion (h.mpr hlt)
      · intro h
        exact ⟨fun hlt => Bool.noConfusion hlt, fun hlt => absurd hlt (h.long [] rfl)⟩
    | cons y m =>
      constructor
      · intro h
        refine ⟨fun back hback _ => ?_, fun more hmore => ?_⟩
        · rw [← List.nil_append back, ← hback]
          exact h.mp rfl
        · exact absurd hmore (List.cons_ne_nil y _).symm
      · intro h
        exact ⟨fun _ => h.short (y :: m) rfl (List.cons_ne_nil y m), fun _ => rfl⟩
  | cons x r ih =>
    cases m with
    | nil =>
      constructor
      · intro h
        refine ⟨fun back hback => absurd hback (List.cons_ne_nil x _).symm, fun more hmore hlt => ?_⟩
        rw [← List.nil_append more, ← hmore] at hlt
        exact Bool.noConfusion (h.mpr hlt)
      · intro h
        exact ⟨fun hlt => Bool.noConfusion hlt, fun hlt => absurd hlt (h.long (x :: r) rfl)⟩
    | cons y m =>
      rw [intsLt, Bool.or_eq_true, Bool.and_eq_true, decide_eq_true_iff, decide_eq_true_iff,
        List.cons_append, padded.cons_lt_cons]
      by_cases hxy : x = y
      · subst hxy
        rw [sameSide_cons, ← ih]
        simp
      · simp [hxy, sameSide_of_ne hxy]

def minParts : List Int := [2, 14, 0]

theorem parseInt_ascii (hstd : chars.Standard) :
    parseInt chars.toCharData ['2'] = some 2 ∧ parseInt chars.toCharData ['1', '4'] = some 14 ∧
      parseInt chars.toCharData ['0'] = some 0 := by
  have hdecimal : ∀ c : Char, c.isDigit = true → chars.isdigit c = true := by
    intro c hc
    refine hstd.decimal c ?_
    rw [hstd.ascii c hc]
    rfl
  refine ⟨?_, ?_, ?_⟩
  · rw [parseInt_eq hstd (hdecimal '2' rfl)]
    simp only [scanDecimal, hstd.ascii '2' rfl]
    rfl
  · rw [parseInt_eq hstd (hdecimal '1' rfl)]
    simp only [scanDecimal, hstd.ascii '1' rfl, hstd.ascii '4' rfl]
    rfl
  · rw [parseInt_eq hstd (hdecimal '0' rfl)]
    simp only [scanDecimal, hstd.ascii '0' rfl]
    rfl

theorem parses_min (hstd : chars.Standard) : Parses chars minRecommendedPluginVersion minParts := by
  obtain ⟨htwo, hfourteen, hzero⟩ := parseInt_ascii hstd
  have hsegs : (minRecommendedPluginVersion.toList.splitOn '.').filter (· ≠ []) =
      [['2'], ['1', '4'], ['0']] := by decide
  refine ⟨?_, List.cons_ne_nil 2 [14, 0]⟩
  rw [versionParts, hsegs, List.mapM_cons, htwo, List.mapM_cons, hfourteen, List.mapM_cons, hzero]
  rfl

theorem parse_min (hstd : chars.Standard) :
    parse chars minRecommendedPluginVersion = some minParts := by
  obtain ⟨hparts, -⟩ := parses_min hstd
  have hdigit : ∀ c : Char, c.isDigit = true → chars.isdigit c = true := by
    intro c hc
    refine hstd.decimal c ?_
    rw [hstd.ascii c hc]
    rfl
  have hsegs : (versionCore minRecommendedPluginVersion.toList).splitOn '.' =
      [['2'], ['1', '4'], ['0']] := by decide
  have hall : (minRecommendedPluginVersion.toList.splitOn '.').filter (· ≠ []) =
      [['2'], ['1', '4'], ['0']] := by decide
  have hleading : leadingSegments chars minRecommendedPluginVersion =
      [['2'], ['1', '4'], ['0']] := by
    rw [leadingSegments, hsegs, List.takeWhile_eq_self_iff]
    simp [VersionChars.isdigitText, hdigit]
  rw [parse, hleading, ← hall]
  exact hparts

theorem isPluginOutdated_eq (hstd : chars.Standard) (v : String) : isPluginOutdated chars (some v) =
    (parse chars v).map fun r => decide (r ≠ []) && intsLt r minParts := by
  rw [isPluginOutdated]
  by_cases hv : v = ""
  · subst hv
    rfl
  · rw [if_neg hv, parse_min hstd]
    cases parse chars v with
    | none => rfl
    | some r => cases r <;> rfl

/-- What `is_plugin_outdated` can read: no digit that is not decimal, no number that is too long. -/
def Readable (chars : VersionChars) (v : String) : Prop :=
  ∀ seg ∈ leadingSegments chars v, chars.readable seg = true

theorem isSome_isPluginOutdated (hstd : chars.Standard) (v : String) :
    (isPluginOutdated chars (some v)).isSome = true ↔ Readable chars v := by
  rw [isPluginOutdated_eq hstd, Option.isSome_map, parse, isSome_mapM_iff]
  refine forall₂_congr fun seg hseg => ?_
  exact parseInt_isSome_iff hstd (List.mem_takeWhile_imp hseg)

/-- Neither reader raises, and where both read a version they agree on whether it is below the
recommended one. -/
structure Agree (chars : VersionChars) (v : String) : Prop where
  reads : (isPluginOutdated chars (some v)).isSome = true
  agree : ∀ r parts, parse chars v = some r → r ≠ [] → Parses chars v parts →
    (isPluginOutdated chars (some v) = some true ↔
      semverLt chars.toCharData v minRecommendedPluginVersion = true)

/-- Neither reader raises, and a node is reported as outdated exactly when the auto-upgrade considers
it, also where only one of them reads its version. -/
structure Considered (chars : VersionChars) (v : String) : Prop where
  reads : (isPluginOutdated chars (some v)).isSome = true
  agree : isPluginOutdated chars (some v) = some true ↔
    semverLt chars.toCharData v minRecommendedPluginVersion = true

def SameVerdict (chars : VersionChars) (v : String) : Prop :=
  ∀ r rest, parse chars v = some r → r ≠ [] → Parses chars v (r ++ rest) → SameSide minParts r rest

/-- What only one of the readers reads is not below the recommended version. -/
structure OneReader (chars : VersionChars) (v : String) : Prop where
  outdated : ∀ r, parse chars v = some r → r ≠ [] → (∀ parts, ¬ Parses chars v parts) →
    intsLt r minParts = false
  semver : ∀ parts, parse chars v = some [] → Parses chars v parts →
    ¬ padded 0 parts < padded 0 minParts

theorem outdated_iff (hstd : chars.Standard) {v : String} {r : List Int}
    (hr : parse chars v = some r) :
    isPluginOutdated chars (some v) = some true ↔ r ≠ [] ∧ intsLt r minParts = true := by
  rw [isPluginOutdated_eq hstd, hr, Option.map_some, Option.some.injEq, Bool.and_eq_true,
    decide_eq_true_iff]

theorem semverLt_of_not_parses {v : String} (b : String) (h : ∀ parts, ¬ Parses chars v parts) :
    semverLt chars.toCharData v b = false := by
  unfold semverLt
  split
  · rfl
  · split
    · next as bs has _ =>
      by_cases hne : as = []
      · simp [hne]
      · exact absurd ⟨has, hne⟩ (h as)
    · rfl

theorem agree_iff (hstd : chars.Standard) (v : String) :
    Agree chars v ↔ Readable chars v ∧ SameVerdict chars v := by
  constructor
  · intro h
    refine ⟨(isSome_isPluginOutdated hstd v).mp h.reads, fun r rest hr hne hparts => ?_⟩
    have hagree := h.agree r (r ++ rest) hr hne hparts
    rw [outdated_iff hstd hr, semverLt_iff hparts (parses_min hstd)] at hagree
    exact sameSide_iff.mp ((and_iff_right hne).symm.trans hagree)
  · rintro ⟨hreads, hverdict⟩
    refine ⟨(isSome_isPluginOutdated hstd v).mpr hreads, fun r parts hr hne hparts => ?_⟩
    obtain ⟨r', rest, hr', rfl⟩ := parse_prefix hstd hparts.1
    obtain rfl := Option.some.inj (hr'.symm.trans hr)
    rw [outdated_iff hstd hr, semverLt_iff hparts (parses_min hstd)]
    exact (and_iff_right hne).trans (sameSide_iff.mpr (hverdict r' rest hr hne hparts))

theorem considered_iff (hstd : chars.Standard) (v : String) :
    Considered chars v ↔ Readable chars v ∧ SameVerdict chars v ∧ OneReader chars v := by
  constructor
  · intro h
    obtain ⟨hreads, hverdict⟩ := (agree_iff hstd v).mp ⟨h.reads, fun _ _ _ _ _ => h.agree⟩
    refine ⟨hreads, hverdict, fun r hr hne hnone => ?_, fun parts hr hparts hlt => ?_⟩
    · have hsemver := semverLt_of_not_parses minRecommendedPluginVersion hnone
      rw [Bool.eq_false_iff]
      intro hbelow
      have hconsidered := h.agree.mp ((outdated_iff hstd hr).mpr ⟨hne, hbelow⟩)
      exact Bool.noConfusion (hsemver.symm.trans hconsidered)
    · have hsemver := (semverLt_iff hparts (parses_min hstd)).mpr hlt
      exact ((outdated_iff hstd hr).mp (h.agree.mpr hsemver)).1 rfl
  · rintro ⟨hreads, hverdict, hone⟩
    have hsome := (isSome_isPluginOutdated hstd v).mpr hreads
    refine ⟨hsome, ?_⟩
    rw [isPluginOutdated_eq hstd, Option.isSome_map] at hsome
    obtain ⟨r, hr⟩ := Option.isSome_iff_exists.mp hsome
    by_cases hparts : ∃ parts, Parses chars v parts
    · obtain ⟨parts, hparts⟩ := hparts
      by_cases hne : r = []
      · rw [outdated_iff hstd hr, semverLt_iff hparts (parses_min hstd)]
        subst hne
        exact ⟨fun h => absurd rfl h.1, fun h => absurd h (hone.semver parts hr hparts)⟩
      · exact ((agree_iff hstd v).mpr ⟨hreads, hverdict⟩).agree r parts hr hne hparts
    · have hparts : ∀ parts, ¬ Parses chars v parts := fun parts h => hparts ⟨parts, h⟩
      rw [outdated_iff hstd hr, semverLt_of_not_parses _ hparts]
      refine ⟨fun h => ?_, fun h => Bool.noConfusion h⟩
      rw [hone.outdated r hr h.1 hparts] at h
      exact Bool.noConfusion h.2

/-- `_semver_lt` orders the versions that it parses, up to trailing zeros; and when the two readers
agree. -/
theorem plugin_versions_iff (hstd : chars.Standard) :
    (IsStrictWeakOrder (Version chars) fun a b => semverLt chars.toCharData a.1 b.1 = true) ∧
      (∀ a b parts n, Parses chars a parts → Parses chars b (parts ++ List.replicate n 0) →
        semverLt chars.toCharData a b = false ∧ semverLt chars.toCharData b a = false) ∧
      ∀ v, (Agree chars v ↔ Readable chars v ∧ SameVerdict chars v) ∧
        (Considered chars v ↔ Readable chars v ∧ SameVerdict chars v ∧ OneReader chars v) :=
  ⟨strictWeakOrder chars, fun _ _ _ n ha hb => semverLt_trailing n ha hb,
    fun v => ⟨agree_iff hstd v, considered_iff hstd v⟩⟩

theorem standard_ascii : VersionChars.ascii.Standard where
  ascii c hc := if_pos hc
  decimal c hc := by
    by_cases hdigit : c.isDigit = true
    · exact Bool.or_eq_true_iff.mpr (.inl hdigit)
    · have hnone : VersionChars.ascii.decimal c = none := if_neg hdigit
      rw [hnone] at hc
      exact Bool.noConfusion hc
  space c hc := by
    rcases Bool.or_eq_true_iff.mp hc with hdigit | hsquare
    · have hbounds : 48 ≤ c.toNat ∧ c.toNat ≤ 57 := by
        rw [Char.isDigit, Bool.and_eq_true, decide_eq_true_iff, decide_eq_true_iff] at hdigit
        exact hdigit
      simp only [VersionChars.ascii, CharData.ascii]
      have hne : ∀ n, n < 48 → c.toNat ≠ n := fun n hn => by omega
      simp only [hne 32 (by decide), decide_false, Bool.false_or, Bool.or_eq_false_iff,
        Bool.and_eq_false_iff, decide_eq_false_iff_not]
      omega
    · rw [of_decide_eq_true hsquare]
      decide
  plain c hc := by
    simp only [List.mem_cons, List.not_mem_nil, or_false] at hc
    rcases hc with rfl | rfl | rfl | rfl
    all_goals exact ⟨rfl, rfl⟩

theorem plugin_versions_iff_ascii :
    (IsStrictWeakOrder (Version .ascii) fun a b =>
        semverLt VersionChars.ascii.toCharData a.1 b.1 = true) ∧
      (∀ a b parts n, Parses .ascii a parts → Parses .ascii b (parts ++ List.replicate n 0) →
        semverLt VersionChars.ascii.toCharData a b = false ∧
          semverLt VersionChars.ascii.toCharData b a = false) ∧
      ∀ v, (Agree .ascii v ↔ Readable .ascii v ∧ SameVerdict .ascii v) ∧
        (Considered .ascii v ↔ Readable .ascii v ∧ SameVerdict .ascii v ∧ OneReader .ascii v) :=
  plugin_versions_iff standard_ascii

/-- Without its last component the recommended version is outdated and not upgraded; a superscript
digit ends the heartbeat. -/
theorem not_agree_short : ¬ Agree .ascii "2.14" ∧ ¬ Agree .ascii "2.²" := by
  constructor
  · intro h
    have hparse : parse .ascii "2.14" = some [2, 14] := by decide
    have hparts : versionParts VersionChars.ascii.toCharData "2.14" = some [2, 14] := by
      decide
    have houtdated : isPluginOutdated .ascii (some "2.14") = some true := by decide
    have hsemver : semverLt VersionChars.ascii.toCharData "2.14" minRecommendedPluginVersion =
        false := by
      decide
    have hlt := (h.agree [2, 14] [2, 14] hparse (by decide) ⟨hparts, by decide⟩).mp houtdated
    exact Bool.noConfusion (hsemver.symm.trans hlt)
  · intro h
    have hraises : isPluginOutdated .ascii (some "2.²") = none := by decide
    have hreads := h.reads
    rw [hraises] at hreads
    exact Bool.noConfusion hreads

end Memclaw.Fleet
