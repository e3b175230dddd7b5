import Memclaw.Lib.Split

/-! Paths under the rules of POSIX and of Windows: where a path leads from a directory, and which
paths lead below it from every directory. -/

namespace Memclaw.Lib.PathRules

abbrev Name := List Char

def step (here : List Name) (name : Name) : List Name :=
  if name = ['.'] then here else if name = ['.', '.'] then here.dropLast else here ++ [name]

/-- Where the names of a path lead from a place. At the root `..` stays. -/
def walk (here : List Name) (names : List Name) : List Name := names.foldl step here

/-- Strictly inside a directory, and behind no hidden name from there. -/
def Below (dir place : List Name) : Prop :=
  ∃ names, names ≠ [] ∧ place = dir ++ names ∧ ∀ name ∈ names, name.head? ≠ some '.'

def slash (c : Char) : Bool := c = '/'

def posixResolve (dir : List Name) (path : List Char) : List Name :=
  walk (if path.head?.any slash then [] else dir) (segments slash path)

abbrev Drive := Fin 26

def Drive.ofChar (c : Char) : Option Drive :=
  if c.isUpper then some (Fin.ofNat 26 (c.toNat - 65))
  else if c.isLower then some (Fin.ofNat 26 (c.toNat - 97))
  else none

inductive Volume
  | drive (d : Drive)
  | share (server name : Name)
deriving DecidableEq

structure WindowsPlace where
  volume : Volume
  names : List Name

def windowsSep (c : Char) : Bool := c = '/' || c = '\\'

def rooted (path : List Char) : Bool := path.head?.any windowsSep

def driveOf : List Char → Option (Drive × List Char)
  | c :: ':' :: rest => (Drive.ofChar c).map fun d => (d, rest)
  | _ => none

/-- A directory joined with a path, resolved. A path on another drive that is not rooted leads
from the current directory of that drive. -/
def windowsResolve (current : Drive → List Name) (dir : WindowsPlace) (path : List Char) :
    WindowsPlace :=
  let names := segments windowsSep path
  if rooted path then
    if rooted path.tail then
      ⟨.share (names.getD 0 []) (names.getD 1 []), walk [] (names.drop 2)⟩
    else ⟨dir.volume, walk [] names⟩
  else match driveOf path with
    | some (d, rest) =>
      let here :=
        if rooted rest then [] else if dir.volume = .drive d then dir.names else current d
      ⟨.drive d, walk here (segments windowsSep rest)⟩
    | none => ⟨dir.volume, walk dir.names names⟩

/-- From every directory the path leads below the directory. -/
structure Confined (path : List Char) : Prop where
  posix : ∀ dir, Below dir (posixResolve dir path)
  windows : ∀ current dir, (windowsResolve current dir path).volume = dir.volume ∧
    Below dir.names (windowsResolve current dir path).names

def Undotted (isSep : Char → Bool) (path : List Char) : Prop :=
  ∀ front back, path = front ++ '.' :: back → ∃ init c, front = init ++ [c] ∧ isSep c = false

section Undotted

variable {isSep : Char → Bool} {path : List Char}

theorem head_of_mem_splitOnP (h : Undotted isSep path) :
    ∀ name ∈ path.splitOnP isSep, name.head? ≠ some '.' := by
  obtain ⟨first, rest, hsplit, hfirst, hrest⟩ := splitOnP_pieces (p := isSep) path
  have hdot : ∀ name : Name, name.head? = some '.' → ∃ tail, name = '.' :: tail := by
    intro name hname
    obtain ⟨tail, rfl⟩ := List.head?_eq_some_iff.mp hname
    exact ⟨tail, rfl⟩
  rw [hsplit]
  intro name hname hhead
  obtain ⟨tail, rfl⟩ := hdot name hhead
  rcases List.mem_cons.mp hname with rfl | hname
  · obtain ⟨back, hback⟩ := hfirst
    obtain ⟨init, c, hnil, -⟩ := h [] (tail ++ back) hback.symm
    simp at hnil
  · obtain ⟨front, sep, back, hpath, hsep⟩ := hrest _ hname
    obtain ⟨init, c, hfront, hc⟩ := h (front ++ [sep]) (tail ++ back) (by simpa using hpath)
    obtain ⟨-, hlast⟩ := List.append_inj' hfront rfl
    rw [← List.cons.inj hlast |>.1, hsep] at hc
    cases hc

theorem head_of_mem_segments (h : Undotted isSep path) :
    ∀ name ∈ segments isSep path, name.head? ≠ some '.' :=
  fun name hname => head_of_mem_splitOnP h name (List.mem_filter.mp hname).1

theorem segments_ne_nil (hne : path ≠ []) (hhead : path.head?.any isSep = false) :
    segments isSep path ≠ [] := by
  obtain ⟨c, rest, rfl⟩ := List.exists_cons_of_ne_nil hne
  have hc : ¬ isSep c = true := by
    rw [List.head?_cons, Option.any_some] at hhead
    rw [hhead]
    exact Bool.false_ne_true
  obtain ⟨first, later, hsplit, -, -⟩ := splitOnP_pieces (p := isSep) rest
  rw [segments, List.splitOnP_cons_eq_if_modifyHead, if_neg hc, hsplit]
  exact List.cons_ne_nil _ _

theorem walk_eq (here : List Name) {names : List Name} (h : ∀ name ∈ names, name.head? ≠ some '.') :
    walk here names = here ++ names := by
  induction names generalizing here with
  | nil => exact (List.append_nil here).symm
  | cons name names ih =>
    have hname := h name List.mem_cons_self
    have hstep : step here name = here ++ [name] := by
      rw [step, if_neg, if_neg]
      · rintro rfl
        exact hname rfl
      · rintro rfl
        exact hname rfl
    show walk (step here name) names = _
    rw [hstep, ih _ fun other hother => h other (List.mem_cons_of_mem _ hother), List.append_assoc]
    rfl

theorem below_walk (dir : List Name) (h : Undotted isSep path) (hne : path ≠ [])
    (hhead : path.head?.any isSep = false) : Below dir (walk dir (segments isSep path)) :=
  ⟨_, segments_ne_nil hne hhead, walk_eq dir (head_of_mem_segments h), head_of_mem_segments h⟩

end Undotted

section Confined

variable {path : List Char}

theorem windowsSep_of_slash {c : Char} (h : windowsSep c = false) : slash c = false := by
  rw [windowsSep, Bool.or_eq_false_iff] at h
  exact h.1

theorem confined_of_relative (hdots : Undotted windowsSep path) (hne : path ≠ [])
    (hroot : rooted path = false) (hdrive : driveOf path = none) : Confined path := by
  have hslash : path.head?.any slash = false := by
    obtain ⟨c, rest, rfl⟩ := List.exists_cons_of_ne_nil hne
    exact windowsSep_of_slash hroot
  constructor
  · intro dir
    have hposix : Undotted slash path := by
      intro front back hpath
      obtain ⟨init, c, hfront, hc⟩ := hdots front back hpath
      exact ⟨init, c, hfront, windowsSep_of_slash hc⟩
    have hresolve : posixResolve dir path = walk dir (segments slash path) := by
      rw [posixResolve, hslash, if_neg Bool.false_ne_true]
    rw [hresolve]
    exact below_walk dir hposix hne hslash
  · intro current dir
    have hresolve : windowsResolve current dir path =
        ⟨dir.volume, walk dir.names (segments windowsSep path)⟩ := by
      rw [windowsResolve, hroot, if_neg Bool.false_ne_true, hdrive]
    rw [hresolve]
    exact ⟨rfl, below_walk dir.names hdots hne hroot⟩

theorem exists_not_below (place : List Name) : ∃ dir, ¬ Below dir place := by
  refine ⟨['x' :: place.headD []], ?_⟩
  rintro ⟨names, -, hplace, -⟩
  have hhead := congrArg (fun p => List.headD p []) hplace
  have hlen := congrArg List.length hhead
  simp at hlen

theorem not_rooted_of_confined (h : Confined path) : rooted path = false := by
  rw [Bool.eq_false_iff]
  intro hroot
  by_cases htail : rooted path.tail = true
  · -- A share is on no drive.
    have hvolume := (h.windows (fun _ => []) ⟨.drive 2, []⟩).1
    rw [windowsResolve, hroot, htail] at hvolume
    cases hvolume
  · obtain ⟨dir, hdir⟩ := exists_not_below (walk [] (segments windowsSep path))
    have hbelow := (h.windows (fun _ => []) ⟨.drive 2, dir⟩).2
    rw [windowsResolve, hroot, Bool.eq_false_iff.mpr htail] at hbelow
    exact hdir hbelow

theorem no_drive_of_confined (h : Confined path) : driveOf path = none := by
  cases hdrive : driveOf path with
  | none => rfl
  | some found =>
    -- A drive is no share.
    have hvolume := (h.windows (fun _ => []) ⟨.share ['s'] ['d'], []⟩).1
    rw [windowsResolve, not_rooted_of_confined h, if_neg Bool.false_ne_true, hdrive] at hvolume
    cases hvolume

theorem confined_iff (hdots : Undotted windowsSep path) (hne : path ≠ []) :
    Confined path ↔ rooted path = false ∧ driveOf path = none := by
  constructor
  · exact fun h => ⟨not_rooted_of_confined h, no_drive_of_confined h⟩
  · exact fun h => confined_of_relative hdots hne h.1 h.2

theorem ofChar_isSome (c : Char) : (Drive.ofChar c).isSome = c.isAlpha := by
  have halpha : c.isAlpha = (c.isUpper || c.isLower) := rfl
  rw [Drive.ofChar, halpha]
  cases c.isUpper with
  | true => rfl
  | false => cases c.isLower <;> rfl

theorem driveOf_isSome :
    (driveOf path).isSome = true ↔ ∃ c rest, path = c :: ':' :: rest ∧ c.isAlpha = true := by
  unfold driveOf
  split
  · rename_i c rest
    rw [Option.isSome_map, ofChar_isSome]
    constructor
    · exact fun h => ⟨c, rest, rfl, h⟩
    · rintro ⟨c', rest', hpath, halpha⟩
      rw [(List.cons.inj hpath).1]
      exact halpha
  · rename_i hother
    refine iff_of_false Bool.false_ne_true ?_
    rintro ⟨c, rest, hpath, -⟩
    exact hother c rest hpath

end Confined

end Memclaw.Lib.PathRules
