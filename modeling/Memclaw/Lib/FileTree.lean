import Mathlib.Data.List.Dedup
import Mathlib.Data.List.Induction
import Mathlib.Tactic.Common

/-! Trees of directories and files, and what the file operations change of them. Paths are
lists of names from the root on, which is always there. -/

namespace Memclaw.Lib

abbrev Path := List String

inductive FileEntry
  | dir
  | file (text : String)
deriving DecidableEq

namespace FileTree

def lookup (entries : List (Path × FileEntry)) (p : Path) : Option FileEntry :=
  if p = [] then some .dir else (entries.find? fun e => e.1 = p).map Prod.snd

theorem lookup_cons (p : Path) (e : FileEntry) (entries : List (Path × FileEntry)) {q : Path}
    (hq : q ≠ []) :
    lookup ((p, e) :: entries) q = if q = p then some e else lookup entries q := by
  rw [lookup, lookup, if_neg hq, if_neg hq, List.find?_cons]
  by_cases hqp : q = p
  · rw [if_pos hqp, hqp]
    simp
  · rw [if_neg hqp]
    simp [Ne.symm hqp]

theorem lookup_filter (p : Path) (entries : List (Path × FileEntry)) {q : Path} (hq : q ≠ []) :
    lookup (entries.filter fun e => !p.isPrefixOf e.1) q =
      if p <+: q then none else lookup entries q := by
  rw [lookup, lookup, if_neg hq, if_neg hq, List.find?_filter]
  split_ifs with hpq
  · rw [Option.map_eq_none_iff, List.find?_eq_none]
    rintro ⟨r, e⟩ _ h
    obtain ⟨hnot, heq⟩ := of_decide_eq_true h
    have hr : r = q := of_decide_eq_true heq
    subst hr
    rw [List.isPrefixOf_iff_prefix.mpr hpq] at hnot
    exact absurd hnot (by simp)
  · congr 2
    funext e
    rw [Bool.eq_iff_iff]
    simp only [decide_eq_true_eq]
    refine ⟨fun h => h.2, fun he => ⟨?_, he⟩⟩
    rw [Bool.not_eq_true', Bool.eq_false_iff, he]
    exact fun h => hpq (List.isPrefixOf_iff_prefix.mp h)

end FileTree

structure FileTree where
  entries : List (Path × FileEntry)
  closed : ∀ p name, FileTree.lookup entries (p ++ [name]) ≠ none →
    FileTree.lookup entries p = some .dir

namespace FileTree

def get (t : FileTree) (p : Path) : Option FileEntry := lookup t.entries p

def has (t : FileTree) (p : Path) : Bool := (t.get p).isSome

@[simp] theorem get_nil (t : FileTree) : t.get [] = some .dir := rfl

def empty : FileTree where
  entries := []
  closed p name h := absurd (by simp [lookup]) h

theorem dir_of_child {t : FileTree} {p : Path} {name : String} (h : t.get (p ++ [name]) ≠ none) :
    t.get p = some .dir := t.closed p name h

theorem child_none {t : FileTree} {p : Path} (h : t.get p = none) (name : String) :
    t.get (p ++ [name]) = none := by
  by_contra hchild
  rw [dir_of_child hchild] at h
  exact absurd h (by simp)

theorem dir_of_below {t : FileTree} {p q : Path} (hpq : p <+: q) (hne : p ≠ q)
    (h : t.get q ≠ none) : t.get p = some .dir := by
  obtain ⟨rest, rfl⟩ := hpq
  induction rest using List.reverseRecOn with
  | nil => exact absurd (List.append_nil p).symm hne
  | append_singleton rest name ih =>
    rw [← List.append_assoc] at h
    have hdir := dir_of_child h
    cases rest with
    | nil => rwa [List.append_nil] at hdir
    | cons n rest =>
      refine ih (fun heq => ?_) (by rw [hdir]; simp)
      simpa using congrArg List.length heq

theorem closed_insert (t : FileTree) {base : Path} {name : String} {e : FileEntry}
    (hbase : t.get base = some .dir) (hkind : t.get (base ++ [name]) = some .dir → e = .dir)
    (p : Path) (n : String) (h : lookup ((base ++ [name], e) :: t.entries) (p ++ [n]) ≠ none) :
    lookup ((base ++ [name], e) :: t.entries) p = some .dir := by
  rcases eq_or_ne p [] with rfl | hp
  · rfl
  rw [lookup_cons _ _ _ (by simp)] at h
  rw [lookup_cons _ _ _ hp]
  split_ifs at h with heq
  · obtain ⟨rfl, -⟩ := List.append_inj' heq rfl
    have hother : p ≠ p ++ [name] := fun h => by simpa using congrArg List.length h
    rw [if_neg hother]
    exact hbase
  · have hdir : t.get p = some .dir := t.closed p n h
    split_ifs with hp'
    · rw [hkind (hp' ▸ hdir)]
    · exact hdir

def insert (t : FileTree) (base : Path) (name : String) (e : FileEntry)
    (hbase : t.get base = some .dir) (hkind : t.get (base ++ [name]) = some .dir → e = .dir) :
    FileTree := ⟨(base ++ [name], e) :: t.entries, closed_insert t hbase hkind⟩

theorem get_insert {t : FileTree} {base : Path} {name : String} {e : FileEntry}
    {hbase : t.get base = some .dir} {hkind : t.get (base ++ [name]) = some .dir → e = .dir}
    (q : Path) :
    (t.insert base name e hbase hkind).get q =
      if q = base ++ [name] then some e else t.get q := by
  rcases eq_or_ne q [] with rfl | hq
  · rw [if_neg (by simp)]
    rfl
  · exact lookup_cons _ _ _ hq

theorem closed_remove (t : FileTree) {p : Path} (q : Path) (n : String)
    (h : lookup (t.entries.filter fun e => !p.isPrefixOf e.1) (q ++ [n]) ≠ none) :
    lookup (t.entries.filter fun e => !p.isPrefixOf e.1) q = some .dir := by
  rcases eq_or_ne q [] with rfl | hq
  · rfl
  rw [lookup_filter _ _ (by simp)] at h
  rw [lookup_filter _ _ hq]
  split_ifs at h with hpq
  · exact absurd rfl h
  · rw [if_neg fun hp => hpq (hp.trans (List.prefix_append q [n]))]
    exact t.closed q n h

def remove (t : FileTree) (p : Path) : FileTree :=
  ⟨t.entries.filter fun e => !p.isPrefixOf e.1, closed_remove t⟩

theorem get_remove {t : FileTree} {p : Path} (hp : p ≠ []) (q : Path) :
    (t.remove p).get q = if p <+: q then none else t.get q := by
  rcases eq_or_ne q [] with rfl | hq
  · rw [if_neg fun h => hp (List.prefix_nil.mp h)]
    rfl
  · exact lookup_filter _ _ hq

def mkdir (t : FileTree) (base : Path) (name : String) : Option FileTree :=
  if h : t.get base = some .dir ∧ t.get (base ++ [name]) = none then
    some (t.insert base name .dir h.1 fun _ => rfl)
  else none

def mkdirs (t : FileTree) (base : Path) : List String → Option FileTree
  | [] => some t
  | name :: rest =>
    match t.get (base ++ [name]) with
    | some .dir => t.mkdirs (base ++ [name]) rest
    | some (.file _) => none
    | none =>
      match t.mkdir base name with
      | none => none
      | some t => t.mkdirs (base ++ [name]) rest

def write (t : FileTree) (base : Path) (name text : String) : Option FileTree :=
  if h : t.get base = some .dir ∧ t.get (base ++ [name]) ≠ some .dir then
    some (t.insert base name (.file text) h.1 fun hdir => absurd hdir h.2)
  else none

def childName (root p : Path) : Option String :=
  match p.drop root.length with
  | [name] => if root ++ [name] = p then some name else none
  | _ => none

def dirs (t : FileTree) (root : Path) : List String :=
  ((t.entries.filterMap fun e => childName root e.1).dedup).filter fun name =>
    t.get (root ++ [name]) = some .dir

theorem childName_eq_some {root p : Path} {name : String} :
    childName root p = some name ↔ p = root ++ [name] := by
  unfold childName
  constructor
  · intro h
    split at h
    · split_ifs at h with heq
      rw [← Option.some.inj h]
      exact heq.symm
    · exact absurd h (by simp)
  · rintro rfl
    rw [List.drop_left]
    exact if_pos rfl

theorem mem_dirs {t : FileTree} {root : Path} {name : String} :
    name ∈ t.dirs root ↔ t.get (root ++ [name]) = some .dir := by
  rw [dirs, List.mem_filter, decide_eq_true_eq, and_iff_right_iff_imp, List.mem_dedup,
    List.mem_filterMap]
  intro h
  rw [get, lookup, if_neg (by simp), Option.map_eq_some_iff] at h
  obtain ⟨⟨p, e⟩, hfind, -⟩ := h
  have hp : p = root ++ [name] := by simpa using List.find?_some hfind
  exact ⟨(p, e), List.mem_of_find?_eq_some hfind, childName_eq_some.mpr hp⟩

theorem nodup_dirs (t : FileTree) (root : Path) : (t.dirs root).Nodup :=
  (List.nodup_dedup _).filter _

theorem get_mkdir {t t' : FileTree} {base : Path} {name : String} (h : t.mkdir base name = some t')
    (q : Path) : t'.get q = if q = base ++ [name] then some .dir else t.get q := by
  unfold mkdir at h
  split_ifs at h
  rw [← Option.some.inj h]
  exact get_insert q

theorem mkdir_isSome {t : FileTree} {base : Path} {name : String} (hbase : t.get base = some .dir)
    (hnew : t.get (base ++ [name]) = none) : ∃ t', t.mkdir base name = some t' :=
  ⟨_, dif_pos ⟨hbase, hnew⟩⟩

theorem get_write {t t' : FileTree} {base : Path} {name text : String}
    (h : t.write base name text = some t') (q : Path) :
    t'.get q = if q = base ++ [name] then some (.file text) else t.get q := by
  unfold write at h
  split_ifs at h
  rw [← Option.some.inj h]
  exact get_insert q

theorem write_isSome {t : FileTree} {base : Path} {name text : String}
    (hbase : t.get base = some .dir) (hfile : t.get (base ++ [name]) ≠ some .dir) :
    ∃ t', t.write base name text = some t' := ⟨_, dif_pos ⟨hbase, hfile⟩⟩

structure Grown (t : FileTree) (p : Path) (t' : FileTree) : Prop where
  kept : ∀ q e, t.get q = some e → t'.get q = some e
  elsewhere : ∀ q, ¬ q <+: p → t'.get q = t.get q

theorem Grown.refl (t : FileTree) (p : Path) : t.Grown p t := ⟨fun _ _ h => h, fun _ _ => rfl⟩

theorem grown_mkdirs {t t' : FileTree} {base : Path} {rest : List String}
    (hbase : t.get base = some .dir) (h : t.mkdirs base rest = some t') :
    t.Grown (base ++ rest) t' ∧ t'.get (base ++ rest) = some .dir := by
  induction rest generalizing t base with
  | nil =>
    rw [mkdirs] at h
    rw [← Option.some.inj h, List.append_nil]
    exact ⟨.refl t base, hbase⟩
  | cons name rest ih =>
    have hpath : base ++ name :: rest = (base ++ [name]) ++ rest := by simp
    rw [mkdirs] at h
    rw [hpath]
    split at h
    · rename_i hdir
      exact ih hdir h
    · exact absurd h (by simp)
    · rename_i hnone
      split at h
      · exact absurd h (by simp)
      · rename_i t₁ hmkdir
        have hget := get_mkdir hmkdir
        obtain ⟨⟨hkept, helse⟩, hdir⟩ := ih (by rw [hget, if_pos rfl]) h
        refine ⟨⟨fun q e hq => hkept q e ?_, fun q hq => ?_⟩, hdir⟩
        · rw [hget, if_neg, hq]
          rintro rfl
          exact absurd hq (by simp [hnone])
        · rw [helse q hq, hget, if_neg]
          rintro rfl
          exact hq (List.prefix_append _ _)

theorem dir_of_prefix {t : FileTree} {p q : Path} (hqp : q <+: p) (hp : t.get p = some .dir) :
    t.get q = some .dir := by
  rcases eq_or_ne q p with rfl | hne
  · exact hp
  · exact dir_of_below hqp hne (by simp [hp])

theorem get_mkdirs_child {t t' : FileTree} {p : Path} {name : String} (hp : t.get p = some .dir)
    (h : t.mkdirs [] (p ++ [name]) = some t') (q : Path) :
    t'.get q = if q = p ++ [name] then some .dir else t.get q := by
  obtain ⟨hgrown, hdir⟩ := grown_mkdirs (get_nil t) h
  rw [List.nil_append] at hgrown hdir
  split_ifs with hq
  · rw [hq, hdir]
  · by_cases hqp : q <+: p
    · have hold := dir_of_prefix hqp hp
      rw [hgrown.kept q .dir hold, hold]
    · refine hgrown.elsewhere q fun h => ?_
      rcases List.prefix_concat_iff.mp h with h | h
      · exact hq h
      · exact hqp h

theorem mkdirs_isSome {t : FileTree} {base : Path} {rest : List String}
    (hbase : t.get base = some .dir)
    (hway : ∀ q text, q <+: base ++ rest → t.get q ≠ some (.file text)) :
    ∃ t', t.mkdirs base rest = some t' := by
  -- Where no file is on the way, directories can be made.
  induction rest generalizing t base with
  | nil => exact ⟨t, rfl⟩
  | cons name rest ih =>
    have hpath : base ++ name :: rest = (base ++ [name]) ++ rest := by simp
    rw [hpath] at hway
    rw [mkdirs]
    split
    · rename_i hdir
      exact ih hdir hway
    · rename_i text hfile
      exact absurd hfile (hway _ text (List.prefix_append _ _))
    · rename_i hnone
      obtain ⟨t₁, hmkdir⟩ := mkdir_isSome hbase hnone
      have hget := get_mkdir hmkdir
      rw [hmkdir]
      refine ih (by rw [hget, if_pos rfl]) fun q text hq => ?_
      rw [hget]
      split_ifs
      · simp
      · exact hway q text hq

end FileTree

end Memclaw.Lib
