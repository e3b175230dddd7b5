import Memclaw.Interview.BufferDefs
import Memclaw.Lib.JsonDefs
import Memclaw.Lib.Split
import Memclaw.Lib.Tokens

/-! The fenced block of the plugin in a workspace file (`educate.ts`): where it is found, how it is
replaced, and which text of the user's a run of writes keeps. -/

namespace Memclaw.Plugin.Education

open Memclaw.Lib Memclaw.Lib.Tokens
open Memclaw.Lib.JsonText (toChars caseless)
open Memclaw.Interview (isWhite newline)

inductive Marker
  | tools
  | agents

def Marker.tag : Marker → Utf16
  | tools => utf16 "memclaw:tools"
  | agents => utf16 "memclaw:agents"

def lt : UInt16 := 60
def gt : UInt16 := 62

def isHex (u : UInt16) : Bool := (48 ≤ u && u ≤ 57) || (97 ≤ u && u ≤ 102)

def opener (marker : Marker) : Utf16 → Option (List Utf16 × Utf16) :=
  tokenAt lt ([.word (utf16 "!--"), .star isWhite, .word marker.tag, .plus isWhite, .word (utf16 "v="),
    .plus isHex, .star isWhite] ++ [.word (utf16 "--" ++ [gt])])

def closer (marker : Marker) : Utf16 → Option (List Utf16 × Utf16) :=
  tokenAt lt ([.word (utf16 "!--"), .star isWhite, .word (utf16 "/" ++ marker.tag), .star isWhite] ++
    [.word (utf16 "--" ++ [gt])])

def dropNewline : Utf16 → Utf16
  | [] => []
  | u :: s => if u = newline then s else u :: s

structure Fence where
  front : Utf16
  version : Utf16
  back : Utf16

def fenceMatch (marker : Marker) (existing : Utf16) : Option Fence :=
  (search (block (opener marker) (closer marker)) existing).map fun x =>
    ⟨x.1, x.2.1.1.getD 1 [], dropNewline x.2.2⟩

def blockHash (content : Utf16) : Utf16 :=
  (utf16 (Sha256.hexdigest (Sha256.sha256 (encodeUtf8 (toChars content))))).take 8

def openMarker (marker : Marker) (version : Utf16) : Utf16 :=
  lt :: (utf16 "!--" ++ [32] ++ marker.tag ++ [32] ++ utf16 "v=" ++ version ++ [32] ++
    (utf16 "--" ++ [gt]))

def closeMarker (marker : Marker) : Utf16 :=
  lt :: (utf16 "!--" ++ [32] ++ (utf16 "/" ++ marker.tag) ++ [32] ++ (utf16 "--" ++ [gt]))

/-- `newBlock.replace(/^\n+|\n+$/g, "")` -/
def innerContent (newBlock : Utf16) : Utf16 := trim (· = newline) newBlock

def fenced (marker : Marker) (inner : Utf16) : Utf16 :=
  openMarker marker (blockHash inner) ++ newline ::
    (inner ++ newline :: (closeMarker marker ++ [newline]))

def stripCR (s : Utf16) : Utf16 := if s.getLast? = some 13 then s.dropLast else s

def skipBlanks (lines : List Utf16) : ℕ → ℕ
  | 0 => 0
  | n + 1 => if trim isWhite (lines.getD n []) = [] then skipBlanks lines n else n + 1

def sectionStart (lines : List Utf16) (h : ℕ) : ℕ :=
  match skipBlanks lines h with
  | 0 => h
  | probe + 1 => if trim isWhite (lines.getD probe []) = utf16 "---" then probe else h

def sectionEnd (lines : List Utf16) (h : ℕ) : ℕ :=
  h + 1 + (lines.drop (h + 1)).findIdx fun l => (utf16 "## ").isPrefixOf l

def offset (lines : List Utf16) (n : ℕ) : ℕ := ((lines.take n).map fun l => l.length + 1).sum

def mentionsMemclaw (s : Utf16) : Bool := 0 < occurrences ("memclaw_".toList.map caseless) s

def findLegacyRange (legacyPrefix content : Utf16) : Option (ℕ × ℕ) :=
  let lines := content.splitOn newline
  match lines.findIdx? fun l => legacyPrefix.isPrefixOf (stripCR l) with
  | none => none
  | some h =>
    let start := offset lines (sectionStart lines h)
    let stop := min (offset lines (sectionEnd lines h)) content.length
    if mentionsMemclaw ((content.take stop).drop start) then some (start, stop) else none

structure SpliceResult where
  content : Utf16
  updated : Bool
  backedUp : Bool

/-- One call on a file: the section, `force`, and whether a backup is asked for, is not there yet
and can be written. -/
structure Call where
  newBlock : Utf16
  force : Bool
  canBackUp : Bool

def separator (existing : Utf16) : Utf16 :=
  if existing.length = 0 then []
  else if [newline, newline].isSuffixOf existing then []
  else if [newline].isSuffixOf existing then [newline]
  else [newline, newline]

variable (marker : Marker) (legacyPrefix : Utf16)

def spliceFencedBlock (existing : Utf16) (c : Call) : SpliceResult :=
  let inner := innerContent c.newBlock
  match fenceMatch marker existing with
  | some fence =>
    if !c.force && fence.version == blockHash inner then ⟨existing, false, false⟩
    else ⟨fence.front ++ fenced marker inner ++ fence.back, true, c.canBackUp⟩
  | none =>
    match findLegacyRange legacyPrefix existing with
    | some range =>
      ⟨existing.take range.1 ++ fenced marker inner ++ existing.drop range.2, true, c.canBackUp⟩
    | none => ⟨existing ++ separator existing ++ fenced marker inner, true, false⟩

def write (existing : Utf16) (c : Call) : Utf16 :=
  let result := spliceFencedBlock marker legacyPrefix existing c
  if result.updated then result.content else existing

def outside (existing : Utf16) : Utf16 × Utf16 :=
  match fenceMatch marker existing with
  | some fence => (fence.front, fence.back)
  | none =>
    match findLegacyRange legacyPrefix existing with
    | some range => (existing.take range.1, existing.drop range.2)
    | none => (existing, [])

/-- A section without fence markers. -/
def Unmarked (newBlock : Utf16) : Prop :=
  search (opener marker) newBlock = none ∧ search (closer marker) newBlock = none

/-- A second call with the same section changes nothing, a call changes nothing outside the range
that it replaces, and no run of calls takes away text outside the first range. -/
structure Lasting (existing : Utf16) : Prop where
  idempotent : ∀ newBlock a b, Unmarked marker newBlock →
    let result := spliceFencedBlock marker legacyPrefix existing ⟨newBlock, false, a⟩
    spliceFencedBlock marker legacyPrefix result.content ⟨newBlock, false, b⟩ =
      ⟨result.content, false, false⟩
  replaces : ∀ c : Call, ∃ old new,
    existing = (outside marker legacyPrefix existing).1 ++ old ++
      (outside marker legacyPrefix existing).2 ∧
    (spliceFencedBlock marker legacyPrefix existing c).content =
      (outside marker legacyPrefix existing).1 ++ new ++ (outside marker legacyPrefix existing).2
  keeps : ∀ calls : List Call, (∀ c ∈ calls, Unmarked marker c.newBlock) → ∃ mid,
    calls.foldl (write marker legacyPrefix) existing =
      (outside marker legacyPrefix existing).1 ++ mid ++ (outside marker legacyPrefix existing).2

section Markers

variable {marker}

variable (marker) in
theorem tag_head : ∃ s, marker.tag = 109 :: s := by
  cases marker with
  | tools => exact ⟨utf16 "emclaw:tools", by decide⟩
  | agents => exact ⟨utf16 "emclaw:agents", by decide⟩

theorem lt_notMem_tag : lt ∉ marker.tag := by cases marker <;> decide

theorem token_opener : Token lt gt (opener marker) := by
  refine token_tokenAt (by decide) _ _ ?_
  intro p hp
  simp only [List.cons_append, List.nil_append, List.mem_cons, List.not_mem_nil, or_false] at hp
  rcases hp with rfl | rfl | rfl | rfl | rfl | rfl | rfl | rfl
  · change lt ∉ utf16 "!--"
    decide
  · rfl
  · exact lt_notMem_tag
  · rfl
  · change lt ∉ utf16 "v="
    decide
  · rfl
  · rfl
  · change lt ∉ utf16 "--" ++ [gt]
    decide

theorem token_closer : Token lt gt (closer marker) := by
  refine token_tokenAt (by decide) _ _ ?_
  intro p hp
  simp only [List.cons_append, List.nil_append, List.mem_cons, List.not_mem_nil, or_false] at hp
  rcases hp with rfl | rfl | rfl | rfl | rfl
  · change lt ∉ utf16 "!--"
    decide
  · rfl
  · change lt ∉ utf16 "/" ++ marker.tag
    rw [List.mem_append, not_or]
    exact ⟨by decide, lt_notMem_tag⟩
  · rfl
  · change lt ∉ utf16 "--" ++ [gt]
    decide

theorem isWhite_blank : ∀ u ∈ ([32] : Utf16), isWhite u = true := by
  intro u hu
  rw [List.mem_singleton.mp hu]
  rfl

theorem opener_openMarker {version : Utf16} (hne : version ≠ []) (hhex : ∀ u ∈ version, isHex u = true)
    (rest : Utf16) :
    opener marker (openMarker marker version ++ rest) = some ([[32], version], rest) := by
  obtain ⟨s, hs⟩ := tag_head marker
  have htag : ∀ t : Utf16, (marker.tag ++ t).head?.any isWhite = false := fun t => by
    rw [hs]
    rfl
  have hv : ∀ t : Utf16, (utf16 "v=" ++ t).head?.any isWhite = false := fun t => rfl
  have hdash : ∀ t : Utf16, (utf16 "--" ++ ([gt] ++ t)).head?.any isWhite = false := fun t => rfl
  have hend : scan [.word (utf16 "--" ++ [gt])] (utf16 "--" ++ ([gt] ++ rest)) = some ([], rest) := by
    rw [← List.append_assoc, scan_word, scan]
  rw [opener, openMarker]
  simp only [List.cons_append, List.nil_append, List.append_assoc, tokenAt_start]
  change scan (_ :: _) (utf16 "!--" ++ ([32] ++ (marker.tag ++ ([32] ++ (utf16 "v=" ++ (version ++
    ([32] ++ (utf16 "--" ++ ([gt] ++ rest))))))))) = _
  rw [scan_word, scan_star isWhite_blank (htag _), scan_word,
    scan_plus (List.cons_ne_nil _ _) isWhite_blank (hv _), scan_word, scan_plus hne hhex rfl,
    scan_star isWhite_blank (hdash _), hend]
  rfl

theorem closer_closeMarker (rest : Utf16) :
    closer marker (closeMarker marker ++ rest) = some ([], rest) := by
  have hslash : ∀ t : Utf16, (utf16 "/" ++ (marker.tag ++ t)).head?.any isWhite = false := fun t => rfl
  have hdash : ∀ t : Utf16, (utf16 "--" ++ ([gt] ++ t)).head?.any isWhite = false := fun t => rfl
  rw [closer, closeMarker]
  simp only [List.cons_append, List.nil_append, List.append_assoc, tokenAt_start]
  change scan (_ :: _) (utf16 "!--" ++ ([32] ++ (utf16 "/" ++ (marker.tag ++ ([32] ++ (utf16 "--" ++
    ([gt] ++ rest))))))) = _
  rw [scan_word, scan_star isWhite_blank (hslash _), ← List.append_assoc (utf16 "/"), scan_word,
    scan_star isWhite_blank (hdash _), ← List.append_assoc, scan_word, scan]

variable (marker) in
theorem closer_openMarker (version rest : Utf16) :
    closer marker (openMarker marker version ++ rest) = none := by
  obtain ⟨s, hs⟩ := tag_head marker
  have htag : ∀ t : Utf16, (marker.tag ++ t).head?.any isWhite = false := fun t => by
    rw [hs]
    rfl
  rw [closer, openMarker]
  simp only [List.cons_append, List.nil_append, List.append_assoc, tokenAt_start]
  change scan (_ :: _) (utf16 "!--" ++ ([32] ++ (marker.tag ++ _))) = _
  rw [scan_word, scan_star isWhite_blank (htag _), hs]
  rfl

variable (marker) in
theorem lt_notMem_openMarker {version : Utf16} (hhex : ∀ u ∈ version, isHex u = true) :
    ∃ s, openMarker marker version = lt :: s ∧ lt ∉ s := by
  refine ⟨_, rfl, ?_⟩
  have hversion : lt ∉ version := fun h => Bool.false_ne_true (hhex lt h)
  simp only [List.mem_append, not_or]
  refine ⟨⟨⟨⟨⟨⟨⟨?_, ?_⟩, lt_notMem_tag⟩, ?_⟩, ?_⟩, hversion⟩, ?_⟩, ?_, ?_⟩ <;> decide

theorem blockHash_hex (content : Utf16) :
    blockHash content ≠ [] ∧ ∀ u ∈ blockHash content, isHex u = true := by
  have hdigit : ∀ k < 16, isHex (UInt16.ofNat (Nat.digitChar k).toNat) = true := by decide
  have hlen : (Sha256.sha256 (encodeUtf8 (toChars content))).length = 32 := Sha256.sha256_length _
  generalize hbytes : Sha256.sha256 (encodeUtf8 (toChars content)) = bytes at hlen
  rw [blockHash, hbytes, utf16, Sha256.hexdigest, String.toList_ofList]
  constructor
  · obtain ⟨b, bytes, rfl⟩ := List.exists_cons_of_length_pos (Nat.lt_of_lt_of_eq (by decide) hlen.symm)
    exact List.cons_ne_nil _ _
  · intro u hu
    obtain ⟨c, hc, rfl⟩ := List.mem_map.mp (List.mem_of_mem_take hu)
    obtain ⟨b, -, hb⟩ := List.mem_flatMap.mp hc
    have hbyte : b.toNat < 256 := b.toNat_lt
    rcases List.mem_cons.mp hb with rfl | hb
    · exact hdigit _ (by omega)
    · rw [List.mem_singleton.mp hb]
      exact hdigit _ (by omega)

end Markers

section Fenced

variable {marker} {front sep inner back : Utf16}

theorem search_closer_inner (hinner : search (closer marker) inner = none) (rest : Utf16) :
    ∃ x, search (closer marker) (newline :: (inner ++ newline :: (closeMarker marker ++ rest))) =
      some (x, [], rest) := by
  have hline : lt ∉ [newline] := by decide
  refine ⟨newline :: (inner ++ [newline]), token_closer.search_eq_some_iff.mpr
    ⟨closeMarker marker ++ rest, by simp, closer_closeMarker rest, ?_⟩⟩
  rw [← List.singleton_append, token_closer.search_skip_plain hline,
    token_closer.search_append_of_none (cut_of_no_stop (by decide)) hinner,
    token_closer.search_plain hline]
  rfl

theorem fenced_append (inner back : Utf16) : fenced marker inner ++ back =
    openMarker marker (blockHash inner) ++ newline :: (inner ++ newline :: (closeMarker marker ++
      newline :: back)) := by
  simp only [fenced, List.append_assoc, List.cons_append, List.nil_append]

theorem search_closer_fenced (hinner : search (closer marker) inner = none) (back : Utf16) :
    ∃ x, search (closer marker) (fenced marker inner ++ back) = some (x, [], newline :: back) := by
  obtain ⟨s, hs, hlt⟩ := lt_notMem_openMarker marker (blockHash_hex inner).2
  obtain ⟨x, hx⟩ := search_closer_inner hinner (newline :: back)
  have hnone := closer_openMarker marker (blockHash inner)
    (newline :: (inner ++ newline :: (closeMarker marker ++ newline :: back)))
  rw [fenced_append]
  rw [hs, List.cons_append] at hnone ⊢
  rw [search_cons_of_none hnone, token_closer.search_skip_plain hlt, hx]
  exact ⟨_, rfl⟩

theorem cut_fenced (hsep : ∀ u ∈ sep, u = newline) : Cut lt gt (sep ++ (fenced marker inner ++ back)) :=
  (cut_of_start (by decide) _).prepend fun h => absurd (hsep gt h) (by decide)

theorem lt_notMem_sep (hsep : ∀ u ∈ sep, u = newline) : lt ∉ sep :=
  fun h => absurd (hsep lt h) (by decide)

theorem gt_notMem_sep (hsep : ∀ u ∈ sep, u = newline) : gt ∉ sep :=
  fun h => absurd (hsep gt h) (by decide)

theorem fenceMatch_written (hfront : search (opener marker) front = none)
    (hinner : search (closer marker) inner = none) (hsep : ∀ u ∈ sep, u = newline) (back : Utf16) :
    fenceMatch marker (front ++ (sep ++ (fenced marker inner ++ back))) =
      some ⟨front ++ sep, blockHash inner, back⟩ := by
  obtain ⟨hne, hhex⟩ := blockHash_hex inner
  obtain ⟨x, hx⟩ := search_closer_inner hinner (newline :: back)
  have hopen : search (opener marker) (front ++ sep ++ (fenced marker inner ++ back)) =
      some (front ++ sep, [[32], blockHash inner], newline :: (inner ++ newline :: (closeMarker marker ++
        newline :: back))) := by
    refine token_opener.search_eq_some_iff.mpr ⟨_, rfl, ?_, ?_⟩
    · rw [fenced_append, opener_openMarker hne hhex]
    · rw [token_opener.search_append_of_none (cut_of_no_stop (gt_notMem_sep hsep)) hfront,
        token_opener.search_plain (lt_notMem_sep hsep), Option.map_none]
  rw [← List.append_assoc, fenceMatch, token_opener.search_block, hopen, Option.bind_some, hx,
    Option.map_some, Option.map_some, dropNewline, if_pos rfl, List.getD_cons_succ, List.getD_cons_zero]

theorem fenceMatch_stray {start rest : Utf16} {captures : List Utf16}
    (hfront : search (opener marker) front = some (start, captures, rest))
    (hrest : search (closer marker) rest = none) (hinner : search (closer marker) inner = none)
    (hsep : ∀ u ∈ sep, u = newline) (back : Utf16) :
    fenceMatch marker (front ++ (sep ++ (fenced marker inner ++ back))) =
      some ⟨start, captures.getD 1 [], back⟩ := by
  obtain ⟨x, hx⟩ := search_closer_fenced hinner back
  rw [fenceMatch, token_opener.search_block, token_opener.search_append_of_some hfront,
    Option.bind_some, token_closer.search_append_of_none (cut_fenced hsep) hrest,
    token_closer.search_skip_plain (lt_notMem_sep hsep), hx]
  simp only [Option.map_some, dropNewline, if_pos]

end Fenced

section Range

variable {marker} {legacyPrefix existing : Utf16}

theorem skipBlanks_le (lines : List Utf16) (n : ℕ) : skipBlanks lines n ≤ n := by
  induction n with
  | zero => exact Nat.le_refl 0
  | succ n ih =>
    rw [skipBlanks]
    split_ifs
    · exact Nat.le_succ_of_le ih
    · exact Nat.le_refl _

theorem sectionStart_le (lines : List Utf16) (h : ℕ) : sectionStart lines h ≤ h := by
  have hskip := skipBlanks_le lines h
  rw [sectionStart]
  split
  · exact Nat.le_refl h
  · rename_i probe heq
    rw [heq] at hskip
    split_ifs
    · exact Nat.le_of_succ_le hskip
    · exact Nat.le_refl h

theorem offset_mono (lines : List Utf16) {m n : ℕ} (h : m ≤ n) : offset lines m ≤ offset lines n := by
  obtain ⟨k, rfl⟩ := Nat.exists_eq_add_of_le h
  rw [offset, offset, List.take_add, List.map_append, List.sum_append]
  exact Nat.le_add_right _ _

theorem offset_le_length {content : Utf16} {n : ℕ} (h : n < (content.splitOn newline).length) :
    offset (content.splitOn newline) n ≤ content.length := by
  have htotal : offset (content.splitOn newline) (content.splitOn newline).length =
      content.length + 1 := by
    rw [offset, List.take_length]
    exact length_splitOnP content
  have hstep : offset (content.splitOn newline) n + 1 ≤ offset (content.splitOn newline) (n + 1) := by
    rw [offset, offset, List.take_succ_eq_append_getElem h, List.map_append, List.sum_append,
      List.map_singleton, List.sum_singleton]
    omega
  have hmono : offset (content.splitOn newline) (n + 1) ≤
      offset (content.splitOn newline) (content.splitOn newline).length := offset_mono _ h
  omega

theorem findLegacyRange_le {content : Utf16} {range : ℕ × ℕ}
    (h : findLegacyRange legacyPrefix content = some range) : range.1 ≤ range.2 := by
  rw [findLegacyRange] at h
  dsimp only at h
  split at h
  · cases h
  · rename_i n hfind
    split_ifs at h
    cases h
    obtain ⟨hn, -⟩ := List.findIdx?_eq_some_iff_getElem.mp hfind
    have hstart := sectionStart_le (content.splitOn newline) n
    refine Nat.le_min.mpr ⟨offset_mono _ ?_, offset_le_length (Nat.lt_of_le_of_lt hstart hn)⟩
    rw [sectionEnd]
    omega

theorem fenceMatch_parts {fence : Fence} (h : fenceMatch marker existing = some fence) :
    search (opener marker) fence.front = none ∧ ∃ old, existing = fence.front ++ old ++ fence.back := by
  rw [fenceMatch, token_opener.search_block] at h
  obtain ⟨x, hx, rfl⟩ := Option.map_eq_some_iff.mp h
  obtain ⟨⟨front, c, rest⟩, hopen, hblock⟩ := Option.bind_eq_some_iff.mp hx
  obtain ⟨⟨inside, c', after⟩, hclose, rfl⟩ := Option.map_eq_some_iff.mp hblock
  obtain ⟨t, rfl, ht, hfront⟩ := token_opener.search_eq_some_iff.mp hopen
  obtain ⟨t', hrest, ht', -⟩ := token_closer.search_eq_some_iff.mp hclose
  dsimp only at hrest
  refine ⟨hfront, ?_⟩
  have hdrop : dropNewline after <:+ after := by
    cases after with
    | nil => exact List.suffix_rfl
    | cons u after =>
      rw [dropNewline]
      split_ifs
      · exact List.suffix_cons u after
      · exact List.suffix_rfl
  have hafter : after <:+ t' := token_closer.rest_suffix ht'
  have hrest' : rest <:+ t := token_opener.rest_suffix ht
  have hback : dropNewline after <:+ t :=
    ((hdrop.trans hafter).trans (hrest ▸ List.suffix_append inside t')).trans hrest'
  obtain ⟨old, rfl⟩ := hback
  exact ⟨old, (List.append_assoc ..).symm⟩

variable (marker) (legacyPrefix existing) in
theorem outside_parts : ∃ old, existing = (outside marker legacyPrefix existing).1 ++ old ++
    (outside marker legacyPrefix existing).2 := by
  rw [outside]
  split
  · rename_i fence hfence
    exact (fenceMatch_parts hfence).2
  · split
    · rename_i range hrange
      refine ⟨(existing.take range.2).drop range.1, ?_⟩
      have hle := findLegacyRange_le hrange
      have htake : existing.take range.1 = (existing.take range.2).take range.1 := by
        rw [List.take_take, Nat.min_eq_left hle]
      dsimp only
      rw [htake, List.take_append_drop, List.take_append_drop]
    · exact ⟨[], by simp⟩

variable (marker) (legacyPrefix existing) in
theorem splice_cases (c : Call) :
    spliceFencedBlock marker legacyPrefix existing c = ⟨existing, false, false⟩ ∧
        (fenceMatch marker existing).isSome ∨
      ∃ sep backedUp, (∀ u ∈ sep, u = newline) ∧ spliceFencedBlock marker legacyPrefix existing c =
        ⟨(outside marker legacyPrefix existing).1 ++ (sep ++ (fenced marker (innerContent c.newBlock) ++
          (outside marker legacyPrefix existing).2)), true, backedUp⟩ := by
  -- A call leaves the file, or writes a block between the two parts of it.
  rw [spliceFencedBlock, outside]
  cases hfence : fenceMatch marker existing with
  | some fence =>
    dsimp only
    split_ifs
    · exact .inl ⟨rfl, rfl⟩
    · refine .inr ⟨[], c.canBackUp, fun u hu => absurd hu List.not_mem_nil, ?_⟩
      rw [List.nil_append, List.append_assoc]
  | none =>
    refine .inr ?_
    dsimp only
    cases findLegacyRange legacyPrefix existing with
    | some range =>
      refine ⟨[], c.canBackUp, fun u hu => absurd hu List.not_mem_nil, ?_⟩
      dsimp only
      rw [List.nil_append, List.append_assoc]
    | none =>
      refine ⟨separator existing, false, ?_, ?_⟩
      · intro u hu
        rw [separator] at hu
        split_ifs at hu
        · cases hu
        · cases hu
        · exact List.mem_singleton.mp hu
        · simpa using hu
      · dsimp only
        rw [List.append_nil, List.append_assoc]

end Range

section Runs

variable {marker} {legacyPrefix existing : Utf16}

theorem splice_of_fence {content : Utf16} {fence : Fence} (h : fenceMatch marker content = some fence)
    (c : Call) : spliceFencedBlock marker legacyPrefix content c =
      if !c.force && fence.version == blockHash (innerContent c.newBlock) then ⟨content, false, false⟩
      else ⟨fence.front ++ fenced marker (innerContent c.newBlock) ++ fence.back, true, c.canBackUp⟩ := by
  rw [spliceFencedBlock, h]

theorem Unmarked.inner {newBlock : Utf16} (h : Unmarked marker newBlock) :
    search (closer marker) (innerContent newBlock) = none := by
  obtain ⟨front, back, hparts⟩ : innerContent newBlock <:+: newBlock := trim_infix newBlock
  exact token_closer.search_part (hparts.symm ▸ h.2)

def Kept (marker : Marker) (legacyPrefix existing content : Utf16) : Prop :=
  content = existing ∨ ∃ sep inner, (∀ u ∈ sep, u = newline) ∧ search (closer marker) inner = none ∧
    content = (outside marker legacyPrefix existing).1 ++ (sep ++ (fenced marker inner ++
      (outside marker legacyPrefix existing).2))

theorem Kept.parts {content : Utf16} (h : Kept marker legacyPrefix existing content) : ∃ mid,
    content = (outside marker legacyPrefix existing).1 ++ mid ++
      (outside marker legacyPrefix existing).2 := by
  rcases h with rfl | ⟨sep, inner, -, -, rfl⟩
  · exact outside_parts marker legacyPrefix content
  · exact ⟨sep ++ fenced marker inner, by simp only [List.append_assoc]⟩

variable (hfront : search (opener marker) (outside marker legacyPrefix existing).1 = none)
include hfront

theorem Kept.step {content : Utf16} (h : Kept marker legacyPrefix existing content) {c : Call}
    (hc : Unmarked marker c.newBlock) :
    Kept marker legacyPrefix existing (write marker legacyPrefix content c) := by
  rcases h with rfl | ⟨sep, inner, hsep, hinner, rfl⟩
  · rcases splice_cases marker legacyPrefix content c with
      ⟨hsame, -⟩ | ⟨sep, backedUp, hsep, hsplice⟩
    · rw [write, hsame]
      exact .inl rfl
    · rw [write, hsplice]
      exact .inr ⟨sep, _, hsep, hc.inner, rfl⟩
  · have hfence := fenceMatch_written hfront hinner hsep
      (outside marker legacyPrefix existing).2
    rw [write, splice_of_fence hfence]
    cases !c.force && blockHash inner == blockHash (innerContent c.newBlock) with
    | true => exact .inr ⟨sep, inner, hsep, hinner, rfl⟩
    | false =>
      refine .inr ⟨sep, innerContent c.newBlock, hsep, hc.inner, ?_⟩
      change _ ++ fenced marker (innerContent c.newBlock) ++ _ = _
      rw [List.append_assoc, List.append_assoc]

theorem kept_run (calls : List Call) (hcalls : ∀ c ∈ calls, Unmarked marker c.newBlock) :
    Kept marker legacyPrefix existing (calls.foldl (write marker legacyPrefix) existing) := by
  induction calls using List.reverseRecOn with
  | nil => exact .inl rfl
  | append_singleton calls c ih =>
    rw [List.foldl_concat]
    exact (ih fun c hc => hcalls c (List.mem_append_left _ hc)).step hfront
      (hcalls c (List.mem_append_right _ List.mem_cons_self))

theorem idempotent_of_front {newBlock : Utf16} (hblock : Unmarked marker newBlock) (a b : Bool) :
    spliceFencedBlock marker legacyPrefix
        (spliceFencedBlock marker legacyPrefix existing ⟨newBlock, false, a⟩).content
        ⟨newBlock, false, b⟩ =
      ⟨(spliceFencedBlock marker legacyPrefix existing ⟨newBlock, false, a⟩).content, false,
        false⟩ := by
  rcases splice_cases marker legacyPrefix existing ⟨newBlock, false, a⟩ with
    ⟨hsame, hfence⟩ | ⟨sep, backedUp, hsep, hsplice⟩
  · obtain ⟨fence, hfence⟩ := Option.isSome_iff_exists.mp hfence
    have hversion := hsame
    rw [splice_of_fence hfence] at hversion
    rw [hsame, splice_of_fence hfence]
    split_ifs at hversion ⊢
    · rfl
    · cases congrArg SpliceResult.updated hversion
  · have hfence := fenceMatch_written hfront hblock.inner hsep
      (outside marker legacyPrefix existing).2
    rw [hsplice, splice_of_fence hfence, beq_self_eq_true]
    rfl

end Runs

theorem blockHash_ne : blockHash [] ≠ blockHash [97] := by decide +kernel

theorem exists_version_ne (version : Utf16) : ∃ newBlock, Unmarked marker newBlock ∧
    blockHash (innerContent newBlock) ≠ version := by
  by_cases h : blockHash [] = version
  · refine ⟨[97], ⟨by cases marker <;> rfl, by cases marker <;> rfl⟩, fun ha => blockHash_ne ?_⟩
    exact h.trans ha.symm
  · exact ⟨[], ⟨rfl, rfl⟩, h⟩

theorem stray_replaced {legacyPrefix existing start rest : Utf16} {captures : List Utf16}
    (hfence : fenceMatch marker existing = none)
    (hstray : search (opener marker) (outside marker legacyPrefix existing).1 =
      some (start, captures, rest))
    {newBlock : Utf16} (hblock : Unmarked marker newBlock)
    (hversion : blockHash (innerContent newBlock) ≠ captures.getD 1 []) (a b : Bool) :
    spliceFencedBlock marker legacyPrefix
        (spliceFencedBlock marker legacyPrefix existing ⟨newBlock, false, a⟩).content
        ⟨newBlock, false, b⟩ =
      ⟨start ++ fenced marker (innerContent newBlock) ++ (outside marker legacyPrefix existing).2, true,
        b⟩ := by
  -- With an opener in front of the place where a block goes, the next block of another version goes
  -- in the place of all that stands behind the opener.
  have hrest : search (closer marker) rest = none := by
    obtain ⟨old, hold⟩ := outside_parts marker legacyPrefix existing
    have hopen := token_opener.search_append_of_some hstray
      (old ++ (outside marker legacyPrefix existing).2)
    rw [← List.append_assoc, ← hold] at hopen
    rw [fenceMatch, token_opener.search_block, hopen, Option.bind_some, Option.map_eq_none_iff,
      Option.map_eq_none_iff] at hfence
    have hclose : search (closer marker) ([] ++ rest ++
        (old ++ (outside marker legacyPrefix existing).2)) = none := hfence
    exact token_closer.search_part hclose
  rcases splice_cases marker legacyPrefix existing ⟨newBlock, false, a⟩ with
    ⟨-, hsome⟩ | ⟨sep, backedUp, hsep, hsplice⟩
  · rw [hfence] at hsome
    cases hsome
  · have hmatch := fenceMatch_stray hstray hrest hblock.inner hsep
      (outside marker legacyPrefix existing).2
    have hne : (captures.getD 1 [] == blockHash (innerContent newBlock)) = false :=
      beq_eq_false_iff_ne.mpr (Ne.symm hversion)
    rw [hsplice, splice_of_fence hmatch, hne]
    rfl

theorem education_lasting_iff (existing : Utf16) : Lasting marker legacyPrefix existing ↔
    search (opener marker) (outside marker legacyPrefix existing).1 = none := by
  constructor
  · intro h
    cases hfence : fenceMatch marker existing with
    | some fence =>
      rw [outside, hfence]
      exact (fenceMatch_parts hfence).1
    | none =>
      cases hstray : search (opener marker) (outside marker legacyPrefix existing).1 with
      | none => rfl
      | some x =>
        obtain ⟨start, captures, rest⟩ := x
        obtain ⟨newBlock, hblock, hversion⟩ := exists_version_ne marker (captures.getD 1 [])
        have hreplaced := stray_replaced marker hfence hstray hblock hversion false false
        have hsame := h.idempotent newBlock false false hblock
        dsimp only at hsame
        rw [hreplaced] at hsame
        cases congrArg SpliceResult.updated hsame
  · intro hfront
    refine ⟨fun newBlock a b hblock => idempotent_of_front hfront hblock a b, fun c => ?_,
      fun calls hcalls => (kept_run hfront calls hcalls).parts⟩
    obtain ⟨old, hold⟩ := outside_parts marker legacyPrefix existing
    rcases splice_cases marker legacyPrefix existing c with
      ⟨hsame, -⟩ | ⟨sep, backedUp, -, hsplice⟩
    · rw [hsame]
      exact ⟨old, old, hold, hold⟩
    · rw [hsplice]
      exact ⟨old, sep ++ fenced marker (innerContent c.newBlock), hold, by simp only [List.append_assoc]⟩

def strayFile : Utf16 := utf16 "<!-- memclaw:tools v=0 -->\nMy notes\n"

theorem stray_opener_not_lasting : ¬ Lasting .tools (utf16 "## MemClaw —") strayFile := by
  intro h
  have hfence : fenceMatch .tools strayFile = none := Option.isNone_iff_eq_none.mp (by decide)
  have hlegacy : findLegacyRange (utf16 "## MemClaw —") strayFile = none := by decide
  have hstray : search (opener .tools) (outside .tools (utf16 "## MemClaw —") strayFile).1 =
      some ([], [[32], [48]], utf16 "\nMy notes\n") := by
    rw [outside, hfence, hlegacy]
    decide
  obtain ⟨newBlock, hblock, hversion⟩ := exists_version_ne .tools [48]
  have hreplaced := stray_replaced .tools hfence hstray hblock hversion false false
  have hsame := h.idempotent newBlock false false hblock
  dsimp only at hsame
  rw [hreplaced] at hsame
  cases congrArg SpliceResult.updated hsame

end Memclaw.Plugin.Education
