import Mathlib.Logic.Relation
import Memclaw.Forge.FingerprintDefs

/-! What leaves the canonical form of a cluster as it is: a text counts by its words, the goal by the
set of them, the domain without its case and outer white space, and the entities by the first five
of their ranking. -/

namespace Memclaw.Forge

open Memclaw.Lib Memclaw.Lib.CaseChars

variable (chars : CaseChars)

def kept (tokens : List (List Char)) : List String :=
  ((tokens.map String.ofList).filter fun t => !stopwords.contains t).map stripSimplePlural

theorem kept_append (ts us : List (List Char)) : kept (ts ++ us) = kept ts ++ kept us := by
  simp only [kept, List.map_append, List.filter_append]

def tokensOf (text : List Char) : List (List Char) := segments separator (text.flatMap chars.plain)

theorem wordsOf_eq (text : String) : wordsOf chars text = kept (tokensOf chars text.toList) := by
  unfold wordsOf tokenize
  split_ifs with hempty
  · rw [hempty]
    have hnil : tokensOf chars "".toList = [] := segments_nil
    rw [hnil]
    rfl
  · rw [chars.segments_lower rfl rfl]
    rfl

theorem tokensOf_append {front back : List Char}
    (h : Ended separator (front.flatMap chars.plain) ∨ Begun separator (back.flatMap chars.plain)) :
    tokensOf chars (front ++ back) = tokensOf chars front ++ tokensOf chars back := by
  rw [tokensOf, List.flatMap_append, segments_append h]
  rfl

def Closed (text : List Char) : Prop := Ended separator (text.flatMap chars.plain)

def Opened (text : List Char) : Prop := Begun separator (text.flatMap chars.plain)

def Blank (text : List Char) : Prop := ∀ d ∈ text.flatMap chars.plain, separator d = true

def lowered (word : List Char) : String := String.ofList (word.flatMap chars.plain)

structure Countable (word : List Char) : Prop where
  letters : ∀ d ∈ word.flatMap chars.plain, alphanumeric d = true
  length : 4 ≤ (lowered chars word).length
  no_stopword : lowered chars word ∉ stopwords
  no_s : endsWith (lowered chars word) "s" = false
  no_u : endsWith (lowered chars word) "u" = false
  no_ie : endsWith (lowered chars word) "ie" = false

/-- A text and the text with other case, more punctuation, one more stopword or a plural. -/
inductive TextChange : List Char → List Char → Prop
  | letterCase (text text' : List Char) (h : SameButCase text text') : TextChange text text'
  | punctuation (front mark back : List Char) (hbetween : Closed chars front ∨ Opened chars back)
      (hmark : Blank chars mark) : TextChange (front ++ back) (front ++ (mark ++ back))
  | stopword (front word back : List Char) (hfront : Closed chars front) (hback : Opened chars back)
      (hword : lowered chars word ∈ stopwords) : TextChange (front ++ back) (front ++ (word ++ back))
  | plural (front word back : List Char) (hfront : Closed chars front) (hback : Opened chars back)
      (hword : Countable chars word) :
      TextChange (front ++ (word ++ back)) (front ++ (word ++ ['s'] ++ back))

variable {chars}

theorem ended_of_forall {cs : List Char} (h : ∀ c ∈ cs, separator c = true) : Ended separator cs := by
  rw [Ended, Option.all_eq_true]
  exact fun c hc => h c (List.mem_of_mem_getLast? hc)

theorem begun_of_forall {cs : List Char} (h : ∀ c ∈ cs, separator c = true) : Begun separator cs := by
  rw [Begun, Option.all_eq_true]
  exact fun c hc => h c (List.mem_of_mem_head? hc)

theorem tokensOf_word {word : List Char} (hne : word.flatMap chars.plain ≠ [])
    (hword : ∀ d ∈ word.flatMap chars.plain, alphanumeric d = true) :
    tokensOf chars word = [word.flatMap chars.plain] := by
  refine segments_of_forall_not hne fun d hd => ?_
  rw [separator, hword d hd]
  rfl

theorem tokensOf_between {front word back : List Char} (hfront : Closed chars front)
    (hback : Opened chars back) : tokensOf chars (front ++ (word ++ back)) =
      tokensOf chars front ++ (tokensOf chars word ++ tokensOf chars back) := by
  rw [tokensOf_append chars (.inl hfront), tokensOf_append chars (.inr hback)]

theorem stopword_chars : ∀ t ∈ stopwords, t.toList ≠ [] ∧ t.toList.all alphanumeric = true := by
  decide

theorem kept_stopword {word : List Char} (hword : lowered chars word ∈ stopwords) :
    kept (tokensOf chars word) = [] := by
  obtain ⟨hne, halnum⟩ := stopword_chars _ hword
  rw [lowered, String.toList_ofList] at hne
  rw [lowered, String.toList_ofList, List.all_eq_true] at halnum
  rw [tokensOf_word hne halnum, kept, List.map_singleton, List.filter_singleton]
  have hcontains : stopwords.contains (String.ofList (word.flatMap chars.plain)) = true :=
    List.contains_iff_mem.mpr hword
  rw [hcontains]
  rfl

theorem endsWith_ofList {token : List Char} {ending : String} :
    endsWith (String.ofList token) ending = true ↔ ending.toList <:+ token := by
  rw [endsWith, String.toList_ofList, List.isSuffixOf_iff_suffix]

theorem suffix_concat {init token : List Char} {c : Char} :
    init ++ [c] <:+ token ++ [c] ↔ init <:+ token := by
  constructor
  · rintro ⟨front, hfront⟩
    rw [← List.append_assoc] at hfront
    exact ⟨front, (List.append_inj' hfront rfl).1⟩
  · rintro ⟨front, rfl⟩
    exact ⟨front, (List.append_assoc _ _ _).symm⟩

theorem length_le_of_stopword : ∀ t ∈ stopwords, 4 < t.length → endsWith t "s" = false := by
  decide

theorem stripSimplePlural_concat {token : List Char} (hlength : 4 ≤ token.length)
    (hs : endsWith (String.ofList token) "s" = false)
    (hu : endsWith (String.ofList token) "u" = false)
    (hie : endsWith (String.ofList token) "ie" = false) :
    stripSimplePlural (String.ofList (token ++ ['s'])) = stripSimplePlural (String.ofList token) := by
  -- The singular of a word and of its plural.
  have hsuffix : ∀ ending : String, endsWith (String.ofList token) ending = false →
      ¬ ending.toList <:+ token := by
    intro ending h hsuffix
    rw [endsWith_ofList.mpr hsuffix] at h
    cases h
  have hplural : ∀ ending : String, endsWith (String.ofList token) ending = false →
      endsWith (String.ofList (token ++ ['s'])) (ending ++ "s") = false := by
    intro ending h
    rw [Bool.eq_false_iff]
    intro hends
    rw [endsWith_ofList, String.toList_append] at hends
    exact hsuffix ending h (suffix_concat.mp hends)
  have hss : endsWith (String.ofList (token ++ ['s'])) "ss" = false := hplural "s" hs
  have hus : endsWith (String.ofList (token ++ ['s'])) "us" = false := hplural "u" hu
  have hies : endsWith (String.ofList (token ++ ['s'])) "ies" = false := hplural "ie" hie
  have hends : endsWith (String.ofList (token ++ ['s'])) "s" = true :=
    endsWith_ofList.mpr ⟨token, rfl⟩
  have hlong : ¬ (String.ofList (token ++ ['s'])).length ≤ 4 := by
    rw [String.length_ofList, List.length_append, List.length_singleton]
    omega
  have hsingular : stripSimplePlural (String.ofList (token ++ ['s'])) = String.ofList token := by
    have hdrop : dropEnd (String.ofList (token ++ ['s'])) 1 = String.ofList token := by
      rw [dropEnd, String.length_ofList, String.toList_ofList, List.length_append,
        List.length_singleton, Nat.add_sub_cancel, List.take_left' rfl]
    rw [stripSimplePlural, if_neg hlong, hss, hus, hies, hends, hdrop]
    rfl
  -- A word that does not end in `s` is its own singular.
  have hself : stripSimplePlural (String.ofList token) = String.ofList token := by
    have hno : ∀ init : List Char, ¬ init ++ ['s'] <:+ token := by
      rintro init ⟨front, rfl⟩
      exact hsuffix "s" hs ⟨front ++ init, by simp⟩
    have hnot : ∀ ending : String, (∃ init, ending.toList = init ++ ['s']) →
        endsWith (String.ofList token) ending = false := by
      rintro ending ⟨init, hinit⟩
      rw [Bool.eq_false_iff]
      intro hends
      rw [endsWith_ofList, hinit] at hends
      exact hno init hends
    rw [stripSimplePlural, hnot "ss" ⟨['s'], rfl⟩, hnot "us" ⟨['u'], rfl⟩,
      hnot "ies" ⟨['i', 'e'], rfl⟩, hs]
    simp
  rw [hsingular, hself]

theorem kept_singleton {token : List Char} (h : String.ofList token ∉ stopwords) :
    kept [token] = [stripSimplePlural (String.ofList token)] := by
  have hcontains : stopwords.contains (String.ofList token) = false := by
    rw [Bool.eq_false_iff]
    exact fun hmem => h (List.contains_iff_mem.mp hmem)
  rw [kept, List.map_singleton, List.filter_singleton, hcontains]
  rfl

theorem Countable.kept_plural {word : List Char} (h : Countable chars word) :
    kept (tokensOf chars (word ++ ['s'])) = kept (tokensOf chars word) := by
  obtain ⟨hword, hlength, hstop, hs, hu, hie⟩ := h
  unfold lowered at hlength hstop hs hu hie
  have hplain : (word ++ ['s']).flatMap chars.plain = word.flatMap chars.plain ++ ['s'] := by
    rw [List.flatMap_append, List.flatMap_singleton, chars.plain_ascii (by decide)]
    rfl
  rw [String.length_ofList] at hlength
  have hne : word.flatMap chars.plain ≠ [] := by
    rintro hnil
    rw [hnil] at hlength
    cases hlength
  have hplural : ∀ d ∈ (word ++ ['s']).flatMap chars.plain, alphanumeric d = true := by
    intro d hd
    rw [hplain, List.mem_append, List.mem_singleton] at hd
    rcases hd with hd | rfl
    · exact hword d hd
    · rfl
  have hnostop : String.ofList (word.flatMap chars.plain ++ ['s']) ∉ stopwords := by
    intro hmem
    have hshort := length_le_of_stopword _ hmem (by
      rw [String.length_ofList, List.length_append, List.length_singleton]
      omega)
    have hends : endsWith (String.ofList (word.flatMap chars.plain ++ ['s'])) "s" = true :=
      endsWith_ofList.mpr ⟨_, rfl⟩
    rw [hends] at hshort
    cases hshort
  rw [tokensOf_word (by rw [hplain]; simp) hplural, tokensOf_word hne hword, hplain,
    kept_singleton hnostop, kept_singleton hstop, stripSimplePlural_concat hlength hs hu hie]

theorem TextChange.kept_eq {text text' : List Char} (h : TextChange chars text text') :
    kept (tokensOf chars text') = kept (tokensOf chars text) := by
  cases h with
  | letterCase text text' hcase => rw [tokensOf, tokensOf, hcase.plain]
  | punctuation front mark back hbetween hmark =>
    have hnone : tokensOf chars mark = [] := segments_of_forall_sep hmark
    have hmiddle : tokensOf chars (mark ++ back) = tokensOf chars back := by
      rw [tokensOf_append chars (.inl (ended_of_forall hmark)), hnone, List.nil_append]
    rcases hbetween with hfront | hback
    · rw [tokensOf_append chars (.inl hfront), hmiddle, tokensOf_append chars (.inl hfront)]
    · rw [← List.append_assoc, tokensOf_append chars (.inr hback),
        tokensOf_append chars (.inr (begun_of_forall hmark)), hnone, List.append_nil,
        tokensOf_append chars (.inr hback)]
  | stopword front word back hfront hback hword =>
    rw [tokensOf_between hfront hback, kept_append, kept_append, kept_stopword hword, List.nil_append,
      tokensOf_append chars (.inl hfront), kept_append]
  | plural front word back hfront hback hword =>
    rw [tokensOf_between hfront hback, tokensOf_between hfront hback]
    simp only [kept_append, hword.kept_plural]

theorem TextChange.wordsOf_eq {text text' : String}
    (h : TextChange chars text.toList text'.toList) : wordsOf chars text' = wordsOf chars text := by
  rw [Forge.wordsOf_eq, Forge.wordsOf_eq, h.kept_eq]

theorem canonicalGoalPhrase_eq (text : String) : canonicalGoalPhrase chars text =
    joined ' ' ((SortedSet.sorted (· ≤ ·) (wordsOf chars text)).take goalPhraseTopK) := by
  unfold canonicalGoalPhrase
  split_ifs with hempty
  · rw [hempty]
    rfl
  · rfl

theorem canonicalGoalPhrase_congr {text text' : String}
    (h : ∀ w, w ∈ wordsOf chars text' ↔ w ∈ wordsOf chars text) :
    canonicalGoalPhrase chars text' = canonicalGoalPhrase chars text := by
  rw [canonicalGoalPhrase_eq, canonicalGoalPhrase_eq, SortedSet.sorted_congr h]

theorem mem_wordsOf {isSep : Char → Bool} (hsep : ∀ c, isSep c = true → Blank chars [c]) {w : String}
    (text : String) : w ∈ wordsOf chars text ↔
      ∃ piece ∈ segments isSep text.toList, w ∈ kept (tokensOf chars piece) := by
  have hpieces : tokensOf chars text.toList =
      (segments isSep text.toList).flatMap (tokensOf chars) := by
    refine segments_flatMap chars.plain chars.plain_ne_nil (fun c hc d hd => ?_) text.toList
    exact hsep c hc d (by rwa [List.flatMap_singleton])
  have hkept : ∀ pieces : List (List Char),
      kept (pieces.flatMap (tokensOf chars)) = pieces.flatMap fun p => kept (tokensOf chars p) := by
    intro pieces
    induction pieces with
    | nil => rfl
    | cons p pieces ih => rw [List.flatMap_cons, kept_append, ih, List.flatMap_cons]
  rw [wordsOf_eq, hpieces, hkept, List.mem_flatMap]

inductive DomainChange (chars : CaseChars) : List Char → List Char → Prop
  | letterCase (domain domain' : List Char) (h : SameButCase domain domain') :
      DomainChange chars domain domain'
  | outer (front domain back : List Char) (hfront : ∀ c ∈ front, chars.space c = true)
      (hback : ∀ c ∈ back, chars.space c = true) : DomainChange chars domain (front ++ domain ++ back)

theorem DomainChange.canonical_eq {domain domain' : String}
    (h : DomainChange chars domain.toList domain'.toList) :
    canonicalDomain chars domain' = canonicalDomain chars domain := by
  have hstrip : ∀ d d' : List Char, DomainChange chars d d' →
      chars.lower (chars.strip d') = chars.lower (chars.strip d) := by
    intro d d' h
    cases h with
    | letterCase _ _ hcase => exact hcase.strip.lower.symm
    | outer front _ back hfront hback => rw [strip_outer hfront hback]
  rw [canonicalDomain, canonicalDomain, hstrip _ _ h]

section Ranked

variable {score score' : String → ℚ}

instance : IsTrans String (Ranked score) where
  trans a b c hab hbc := by
    rcases hab with hab | ⟨hab, hle⟩
    · rcases hbc with hbc | ⟨hbc, -⟩
      · exact .inl (hab.trans hbc)
      · exact .inl (hbc ▸ hab)
    · rcases hbc with hbc | ⟨hbc, hle'⟩
      · exact .inl (hab ▸ hbc)
      · exact .inr ⟨hab.trans hbc, hle.trans hle'⟩

instance : Std.Total (Ranked score) where
  total a b := by
    rcases lt_trichotomy (-score a) (-score b) with hlt | heq | hgt
    · exact .inl (.inl hlt)
    · rcases le_total a b with hle | hle
      · exact .inl (.inr ⟨heq, hle⟩)
      · exact .inr (.inr ⟨heq.symm, hle⟩)
    · exact .inr (.inl hgt)

instance : Std.Antisymm (Ranked score) where
  antisymm a b hab hba := by
    rcases hab with hab | ⟨hab, hle⟩
    · rcases hba with hba | ⟨hba, -⟩
      · exact absurd hba hab.asymm
      · exact absurd hba hab.ne'
    · rcases hba with hba | ⟨-, hle'⟩
      · exact absurd hab hba.ne'
      · exact le_antisymm hle hle'

end Ranked

def scoreOf (centralities : Option (List (String × ℚ))) : String → ℚ :=
  centrality (centralities.getD [])

theorem sorted_unscored (entityIds : List String) :
    SortedSet.sorted (· ≤ ·) entityIds = SortedSet.sorted (Ranked (centrality [])) entityIds := by
  refine SortedSet.sorted_congr_order fun a _ b _ => ?_
  constructor
  · exact fun h => .inr ⟨rfl, h⟩
  · rintro (hlt | ⟨-, hle⟩)
    · exact absurd hlt (lt_irrefl _)
    · exact hle

theorem canonicalEntities_eq (entityIds : List String)
    (centralities : Option (List (String × ℚ))) : canonicalEntities entityIds centralities =
      ((SortedSet.sorted (Ranked (scoreOf centralities)) entityIds).take entityTopK).insertionSort
        (· ≤ ·) := by
  unfold canonicalEntities
  split_ifs with hempty
  · rw [List.isEmpty_iff.mp hempty]
    rfl
  · unfold topEntities
    split
    · rfl
    · rename_i hnone
      have hscore : scoreOf centralities = centrality [] := by
        rcases centralities with _ | _ | ⟨first, rest⟩
        · rfl
        · rfl
        · exact absurd rfl (hnone first rest)
      rw [hscore, sorted_unscored]

inductive InputChange (chars : CaseChars) (i : ClusterFingerprintInputs) :
    ClusterFingerprintInputs → Prop
  /-- The same entities in another order and number. -/
  | entityIds (ids : List String) (h : ∀ a, a ∈ ids ↔ a ∈ i.entityIds) :
      InputChange chars i { i with entityIds := ids }
  /-- One more entity, that five others precede. -/
  | entity (e : String) (ids : List String) (centralities : Option (List (String × ℚ)))
      (hids : ∀ a, a ∈ ids ↔ a = e ∨ a ∈ i.entityIds)
      (hscore : ∀ a ∈ i.entityIds, scoreOf centralities a = scoreOf i.entityCentralities a)
      (hrank : entityTopK ≤ SortedSet.rank (Ranked (scoreOf centralities)) i.entityIds e) :
      InputChange chars i { i with entityIds := ids, entityCentralities := centralities }
  /-- The same words of the goal in another order and number. -/
  | goalWords (goal : String) (isSep : Char → Bool) (hsep : ∀ c, isSep c = true → Blank chars [c])
      (h : ∀ w, w ∈ segments isSep goal.toList ↔ w ∈ segments isSep i.goalPhrase.toList) :
      InputChange chars i { i with goalPhrase := goal }
  | goalText (goal : String) (h : TextChange chars i.goalPhrase.toList goal.toList) :
      InputChange chars i { i with goalPhrase := goal }
  | stepText (front : List String) (step step' : String) (back : List String)
      (hsteps : i.stepSkeleton = front ++ step :: back)
      (h : TextChange chars step.toList step'.toList) :
      InputChange chars i { i with stepSkeleton := front ++ step' :: back }
  | domain (domain : String) (h : DomainChange chars i.domain.toList domain.toList) :
      InputChange chars i { i with domain := domain }

theorem canonicalEntities_insert {e : String} {entityIds ids : List String}
    {centralities centralities' : Option (List (String × ℚ))}
    (hids : ∀ a, a ∈ ids ↔ a = e ∨ a ∈ entityIds)
    (hscore : ∀ a ∈ entityIds, scoreOf centralities' a = scoreOf centralities a)
    (hrank : entityTopK ≤ SortedSet.rank (Ranked (scoreOf centralities')) entityIds e) :
    canonicalEntities ids centralities' = canonicalEntities entityIds centralities := by
  have hsub : entityIds ⊆ ids := fun a ha => (hids a).mpr (.inr ha)
  have htake := (SortedSet.take_sorted_eq_iff (r := Ranked (scoreOf centralities')) hsub).mpr (by
    intro a ha hnew
    rcases (hids a).mp ha with rfl | hold
    · exact hrank
    · exact absurd hold hnew)
  have horder : SortedSet.sorted (Ranked (scoreOf centralities')) entityIds =
      SortedSet.sorted (Ranked (scoreOf centralities)) entityIds := by
    refine SortedSet.sorted_congr_order fun a ha b hb => ?_
    rw [Ranked, Ranked, hscore a ha, hscore b hb]
  rw [canonicalEntities_eq, canonicalEntities_eq, htake, horder]

theorem InputChange.render_eq {i i' : ClusterFingerprintInputs} (h : InputChange chars i i') :
    renderCanonicalForm chars i' = renderCanonicalForm chars i := by
  unfold renderCanonicalForm
  cases h with
  | entityIds ids hids =>
    rw [canonicalEntities_eq, canonicalEntities_eq, SortedSet.sorted_congr hids]
  | entity e ids centralities hids hscore hrank =>
    rw [canonicalEntities_insert hids hscore hrank]
  | goalWords goal isSep hsep hwords =>
    have hgoal : canonicalGoalPhrase chars goal = canonicalGoalPhrase chars i.goalPhrase := by
      refine canonicalGoalPhrase_congr fun w => ?_
      rw [mem_wordsOf hsep, mem_wordsOf hsep]
      simp only [hwords]
    rw [hgoal]
  | goalText goal htext =>
    rw [canonicalGoalPhrase_eq, canonicalGoalPhrase_eq, htext.wordsOf_eq]
  | stepText front step step' back hsteps htext =>
    rw [hsteps, canonicalStepSkeleton, canonicalStepSkeleton]
    simp only [List.map_append, List.map_cons, htext.wordsOf_eq]
  | domain domain hdomain => rw [hdomain.canonical_eq]

/-- Any number of such changes leaves the canonical form as it is. -/
theorem canonical_form_stable {i i' : ClusterFingerprintInputs}
    (h : Relation.ReflTransGen (InputChange chars) i i') :
    renderCanonicalForm chars i' = renderCanonicalForm chars i := by
  induction h with
  | refl => rfl
  | tail _ hchange ih => rw [hchange.render_eq, ih]

/-- A plural in the goal, a capital in a step and a sixth entity. -/
theorem canonical_form_stable_deploys :
    let scores := some [("a", (1 : ℚ)), ("b", 1), ("c", 1), ("d", 1), ("e", 1)]
    renderCanonicalForm CaseChars.ascii
        ⟨"deploys hang", "devops", ["f", "a", "b", "c", "d", "e"], ["Run tests"], scores⟩ =
      renderCanonicalForm CaseChars.ascii
        ⟨"deploy hang", "devops", ["a", "b", "c", "d", "e"], ["run tests"], scores⟩ := by
  intro scores
  have hword : Countable CaseChars.ascii ['d', 'e', 'p', 'l', 'o', 'y'] :=
    { letters := List.all_eq_true.mp (by decide)
      length := by decide
      no_stopword := by decide
      no_s := by decide
      no_u := by decide
      no_ie := by decide }
  have hback : Opened CaseChars.ascii [' ', 'h', 'a', 'n', 'g'] := by
    unfold Opened Begun
    decide
  have htext : TextChange CaseChars.ascii "deploy hang".toList "deploys hang".toList := by
    have hfrom : "deploy hang".toList =
        [] ++ (['d', 'e', 'p', 'l', 'o', 'y'] ++ [' ', 'h', 'a', 'n', 'g']) := by
      decide
    have hto : "deploys hang".toList =
        [] ++ (['d', 'e', 'p', 'l', 'o', 'y'] ++ ['s'] ++ [' ', 'h', 'a', 'n', 'g']) := by
      decide
    rw [hfrom, hto]
    exact .plural _ _ _ rfl hback hword
  have hgoal : InputChange CaseChars.ascii
      ⟨"deploy hang", "devops", ["a", "b", "c", "d", "e"], ["run tests"], scores⟩
      ⟨"deploys hang", "devops", ["a", "b", "c", "d", "e"], ["run tests"], scores⟩ :=
    .goalText "deploys hang" htext
  have hstep : InputChange CaseChars.ascii
      ⟨"deploys hang", "devops", ["a", "b", "c", "d", "e"], ["run tests"], scores⟩
      ⟨"deploys hang", "devops", ["a", "b", "c", "d", "e"], ["Run tests"], scores⟩ := by
    refine .stepText [] "run tests" "Run tests" [] rfl (.letterCase _ _ ?_)
    exact .cons (.inr ⟨rfl, rfl, rfl⟩) (List.forall₂_same.mpr fun _ _ => .inl rfl)
  have hentity : InputChange CaseChars.ascii
      ⟨"deploys hang", "devops", ["a", "b", "c", "d", "e"], ["Run tests"], scores⟩
      ⟨"deploys hang", "devops", ["f", "a", "b", "c", "d", "e"], ["Run tests"], scores⟩ :=
    .entity "f" _ _ (fun a => List.mem_cons) (fun _ _ => rfl) (by decide)
  exact canonical_form_stable (((Relation.ReflTransGen.single hgoal).tail hstep).tail hentity)

end Memclaw.Forge
