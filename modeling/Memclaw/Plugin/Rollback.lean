import Mathlib.Data.Nat.Find
import Memclaw.Plugin.DeployDefs

/-! The rollback of a deploy from the manifest: its snapshot holds the listed files that were there,
and what else the begun writes and the build have touched stays. -/

namespace Memclaw.Plugin

open Memclaw.Lib Memclaw.Lib.Interleave

def Content.isText : Content → Bool
  | .text _ => true
  | .raw _ => false

section Rollback

variable {env : DeployEnv} {files : Files}

theorem text_read_iff (c : Content) : Content.text (c.read env) = c ↔ c.isText = true := by
  cases c with
  | text t => exact iff_of_true rfl rfl
  | raw bytes => exact iff_of_false Content.noConfusion Bool.noConfusion

theorem leave_none (w : Write) (q : Path) :
    w.leave .none files q = if q = w.path then some (.text w.text) else files q :=
  Function.update_apply ..

theorem leave_of_ne (w : Write) (fault : Fault) {q : Path} (h : q ≠ w.path) :
    w.leave fault files q = files q := by
  cases fault with
  | none => exact Function.update_of_ne h ..
  | intact => rfl
  | torn left => exact Function.update_of_ne h ..

theorem restore_apply (paths : List Path) (broken : Files) (q : Path) :
    restore (paths.filterMap fun p => (files p).map fun c => ⟨p, c.read env⟩) broken q =
      if q ∈ paths ∧ (files q).isSome = true then (files q).map fun c => .text (c.read env)
      else broken q := by
  -- What is restored holds what its snapshot read, and all else is as it was left.
  induction paths generalizing broken with
  | nil =>
    rw [if_neg fun h => nomatch h.1]
    rfl
  | cons p paths ih =>
    cases hp : files p with
    | none =>
      have hskip : (p :: paths).filterMap (fun p => (files p).map fun c => (⟨p, c.read env⟩ : Write)) =
          paths.filterMap fun p => (files p).map fun c => ⟨p, c.read env⟩ := by
        rw [List.filterMap_cons, hp]
        rfl
      rw [hskip, ih]
      by_cases hq : q = p
      · have hout : ∀ ps : List Path, ¬ (p ∈ ps ∧ (none : Option Content).isSome = true) :=
          fun ps h => Bool.noConfusion h.2
        rw [hq, hp, if_neg (hout _), if_neg (hout _)]
      · simp only [List.mem_cons, hq, false_or]
    | some c =>
      have hkeep : (p :: paths).filterMap (fun p => (files p).map fun c => (⟨p, c.read env⟩ : Write)) =
          ⟨p, c.read env⟩ :: paths.filterMap fun p => (files p).map fun c => ⟨p, c.read env⟩ := by
        rw [List.filterMap_cons, hp]
        rfl
      have hcons : ∀ backups, restore (⟨p, c.read env⟩ :: backups) broken =
          restore backups (Write.leave ⟨p, c.read env⟩ .none broken) := fun backups => rfl
      rw [hkeep, hcons, ih, leave_none]
      by_cases hq : q = p
      · have hin : p ∈ p :: paths ∧ (some c).isSome = true := ⟨List.mem_cons_self, rfl⟩
        rw [hq, hp, if_pos hin, if_pos rfl]
        split <;> rfl
      · rw [if_neg hq]
        simp only [List.mem_cons, hq, false_or]

/-- A deploy that reports failure leaves every file but its books as it was. -/
def Restores (files : Files) (outcome : Outcome) : Prop :=
  ∀ after, outcome = .failed after → ∀ p, isBookkeeping p = false → after p = files p

theorem restores_failed {after : Files} : Restores files (.failed after) ↔
    ∀ p, isBookkeeping p = false → after p = files p := by
  constructor
  · exact fun h => h after rfl
  · intro h after' hsame
    obtain rfl := Outcome.failed.inj hsame
    exact h

/-- The write at this place is the first that throws. -/
def FailsAt (fault : ℕ → Fault) (n : ℕ) : Prop :=
  (fault n).throws = true ∧ ∀ m < n, (fault m).throws = false

def Fault.left (fault : Fault) (text : Text) (before : Option Content) : Option Content :=
  match fault with
  | .none => some (.text text)
  | .intact => before
  | .torn left => some left

def overlay (writes : List Write) (files : Files) : Files := fun p =>
  match writes.reverse.find? (·.path = p) with
  | some w => some (.text w.text)
  | none => files p

theorem leave_apply (w : Write) (fault : Fault) (q : Path) :
    w.leave fault files q = if q = w.path then fault.left w.text (files q) else files q := by
  by_cases h : q = w.path
  · rw [if_pos h, h]
    cases fault with
    | none => exact Function.update_self ..
    | intact => rfl
    | torn left => exact Function.update_self ..
  · rw [if_neg h, leave_of_ne w fault h]

theorem overlay_of_notMem {writes : List Write} {p : Path} (h : ∀ w ∈ writes, w.path ≠ p) :
    overlay writes files p = files p := by
  have hnone : writes.reverse.find? (·.path = p) = none := by
    refine List.find?_eq_none.mpr fun w hw => ?_
    simpa using h w (List.mem_reverse.mp hw)
  rw [overlay, hnone]

theorem overlay_of_mem {writes : List Write} {p : Path} (h : ∃ w ∈ writes, w.path = p) :
    (overlay writes files p).isSome = true := by
  obtain ⟨w, hw, hp⟩ := h
  have hsome : (writes.reverse.find? (·.path = p)).isSome = true :=
    List.find?_isSome.mpr ⟨w, List.mem_reverse.mpr hw, by simpa using hp⟩
  obtain ⟨v, hv⟩ := Option.isSome_iff_exists.mp hsome
  rw [overlay, hv]
  rfl

theorem overlay_concat (writes : List Write) (w : Write) (files : Files) :
    overlay (writes ++ [w]) files = w.leave .none (overlay writes files) := by
  funext p
  rw [leave_none, overlay, List.reverse_append, List.reverse_singleton, List.singleton_append,
    List.find?_cons]
  by_cases h : p = w.path
  · simp [h]
  · simp only [h, if_false, decide_eq_false (Ne.symm h)]
    rfl

theorem overlay_cons (w : Write) (writes : List Write) (files : Files) :
    overlay (w :: writes) files = overlay writes (w.leave .none files) := by
  funext p
  rw [overlay, overlay, List.reverse_cons, List.find?_append, leave_none]
  cases writes.reverse.find? (·.path = p) with
  | some v => rfl
  | none =>
    by_cases h : p = w.path
    · simp [h]
    · simp [h, Ne.symm h]

theorem Fault.eq_none_of_throws {fault : Fault} (h : fault.throws = false) : fault = .none := by
  cases fault with
  | none => rfl
  | intact => cases h
  | torn left => cases h

theorem writeAll_throws {fault : ℕ → Fault} (h : (fault 0).throws = true) (w : Write)
    (writes : List Write) :
    writeAll (w :: writes) fault files = (w.leave (fault 0) files, false) := if_pos h

theorem writeAll_goes {fault : ℕ → Fault} (h : (fault 0).throws = false) (w : Write)
    (writes : List Write) :
    writeAll (w :: writes) fault files =
      writeAll writes (fun n => fault (n + 1)) (w.leave .none files) := by
  rw [writeAll, if_neg (by rw [h]; exact Bool.false_ne_true), Fault.eq_none_of_throws h]

theorem writeAll_through {writes : List Write} {fault : ℕ → Fault}
    (h : ∀ n < writes.length, (fault n).throws = false) :
    writeAll writes fault files = (overlay writes files, true) := by
  induction writes generalizing fault files with
  | nil => rfl
  | cons w writes ih =>
    have hfirst : (fault 0).throws = false := h 0 (Nat.succ_pos _)
    rw [writeAll_goes hfirst, ih fun n hn => h (n + 1) (Nat.succ_lt_succ hn), overlay_cons]

theorem writeAll_failsAt {writes : List Write} {fault : ℕ → Fault} {n : ℕ} {w : Write}
    (hw : writes[n]? = some w) (h : FailsAt fault n) :
    writeAll writes fault files = (w.leave (fault n) (overlay (writes.take n) files), false) := by
  -- Where a write throws, those before it are in the files, and it leaves what its fault does.
  induction writes generalizing fault files n with
  | nil => cases hw
  | cons v writes ih =>
    cases n with
    | zero =>
      rw [List.getElem?_cons_zero] at hw
      rw [Option.some.inj hw]
      exact writeAll_throws h.1 w writes
    | succ n =>
      have hfirst : (fault 0).throws = false := h.2 0 (Nat.succ_pos _)
      have hlater : FailsAt (fun m => fault (m + 1)) n :=
        ⟨h.1, fun m hm => h.2 (m + 1) (Nat.succ_lt_succ hm)⟩
      rw [writeAll_goes hfirst, ih (by rwa [List.getElem?_cons_succ] at hw) hlater,
        List.take_succ_cons, overlay_cons]

theorem through_or_failsAt (writes : List Write) (fault : ℕ → Fault) :
    (∀ n < writes.length, (fault n).throws = false) ∨
      ∃ n w, writes[n]? = some w ∧ FailsAt fault n := by
  by_cases h : ∃ n, n < writes.length ∧ (fault n).throws = true
  · right
    classical
    obtain ⟨hlt, hthrows⟩ := Nat.find_spec h
    refine ⟨Nat.find h, writes[Nat.find h], List.getElem?_eq_getElem hlt, hthrows, fun m hm => ?_⟩
    by_contra hno
    exact Nat.find_min h hm ⟨hm.trans hlt, Bool.eq_true_of_not_eq_false hno⟩
  · left
    intro n hn
    by_contra hno
    exact h ⟨n, hn, Bool.eq_true_of_not_eq_false hno⟩

theorem FailsAt.unique {fault : ℕ → Fault} {m n : ℕ} (hm : FailsAt fault m) (hn : FailsAt fault n) :
    m = n := by
  rcases Nat.lt_trichotomy m n with hlt | rfl | hlt
  · exact absurd ((hn.2 m hlt).symm.trans hm.1) Bool.false_ne_true
  · rfl
  · exact absurd ((hm.2 n hlt).symm.trans hn.1) Bool.false_ne_true

def ManifestDeploy.Snapshot (d : ManifestDeploy) (files : Files) (p : Path) : Prop :=
  p ∈ d.listed ∧ (files p).isSome = true

instance (d : ManifestDeploy) (files : Files) (p : Path) : Decidable (d.Snapshot files p) :=
  inferInstanceAs (Decidable (_ ∧ _))

def ManifestDeploy.writeCount (d : ManifestDeploy) (fetched : List (Path × Text)) : ℕ :=
  fetched.length + if d.manifestVersion.isSome then 1 else 0

/-- What was there of the listed files can be read and written back. -/
def ManifestDeploy.Texts (d : ManifestDeploy) (files : Files) : Prop :=
  ∀ p ∈ d.listed, isBookkeeping p = false → ∀ c, files p = some c → c.isText = true

/-- Up to the write that throws no file is written that was missing, and a stamp that is cut short
leaves what was there. -/
def ManifestDeploy.WritesSpare (d : ManifestDeploy) (fetched : List (Path × Text)) (files : Files)
    (n : ℕ) : Prop :=
  (∀ m file, fetched[m]? = some file → m < n ∨ m = n ∧ d.fault n ≠ .intact →
      isBookkeeping file.1 = false → (files file.1).isSome = true) ∧
    ∀ left, n = fetched.length → d.fault n = .torn left → ¬ d.Snapshot files versionPath →
      files versionPath = some left

/-- The directory that the build meets: the fetched files, and with a version the stamp and the new
`package.json`. -/
def ManifestDeploy.release (env : DeployEnv) (d : ManifestDeploy) (fetched : List (Path × Text))
    (files : Files) : Files :=
  let texts := overlay (fetched.map fun file => ⟨file.1, file.2⟩) files
  match d.manifestVersion with
  | none => texts
  | some version =>
    let stamped := Function.update texts versionPath (some (.text (versionTs version)))
    match stamped packagePath with
    | none => stamped
    | some pkg =>
      match env.bumpVersion version (pkg.read env) with
      | none => stamped
      | some text => Function.update stamped packagePath
          ((d.fault (fetched.length + 1)).left text (some pkg))

/-- Outside of the snapshot the build leaves what was there: by what it does itself, or where it does
nothing, by a file that was not fetched, a stamp that `version.ts` had and a `package.json` that was
of this version. -/
def ManifestDeploy.BuildSpares (env : DeployEnv) (d : ManifestDeploy) (fetched : List (Path × Text))
    (files : Files) (changes : Changes) : Prop :=
  ∀ p, isBookkeeping p = false → ¬ d.Snapshot files p →
    match changes p with
    | some c => c = files p
    | none => p ∉ fetched.map Prod.fst ∧
        (p = versionPath → ∀ version, d.manifestVersion = some version →
          files p = some (.text (versionTs version))) ∧
        (p = packagePath → ∀ version pkg text, d.manifestVersion = some version →
          files p = some pkg → env.bumpVersion version (pkg.read env) = some text →
          (d.fault (fetched.length + 1)).left text (some pkg) = some pkg)

/-- A deploy that comes to its writes can be rolled back where it fails. -/
def ManifestDeploy.Covered (env : DeployEnv) (d : ManifestDeploy) (files : Files) : Prop :=
  ∀ fetched, d.begins env = some fetched →
    (∀ n < d.writeCount fetched, FailsAt d.fault n → d.Texts files ∧ d.WritesSpare fetched files n) ∧
      ((∀ n < d.writeCount fetched, (d.fault n).throws = false) →
        ∀ changes, d.build (d.release env fetched files) = some changes →
          d.Texts files ∧ d.BuildSpares env fetched files changes)

theorem mem_of_upsert {k : Path} {f : Option Text → Text} {fetched : List (Path × Text)} {p : Path}
    (h : p ∈ (Groups.upsert k f fetched).map Prod.fst) : p = k ∨ p ∈ fetched.map Prod.fst := by
  rw [Groups.keys_upsert] at h
  split at h
  · exact .inr h
  · rcases List.mem_append.mp h with hold | hnew
    · exact .inr hold
    · exact .inl (List.mem_singleton.mp hnew)

theorem mem_of_fetchStep {d : ManifestDeploy} {fetched next : List (Path × Text)} {file : Path × ℕ}
    (h : d.fetchStep env fetched file = some next) {p : Path} (hp : p ∈ next.map Prod.fst) :
    p = file.1 ∨ p ∈ fetched.map Prod.fst := by
  unfold ManifestDeploy.fetchStep at h
  split at h
  · split at h
    · obtain rfl := Option.some.inj h
      exact mem_of_upsert hp
    · cases h
  · obtain rfl := Option.some.inj h
    exact .inr hp
  · cases h

theorem mem_of_fetches {d : ManifestDeploy} (todo : List (Path × ℕ)) {fetched next : List (Path × Text)}
    (h : todo.foldlM (d.fetchStep env) fetched = some next) {p : Path} (hp : p ∈ next.map Prod.fst) :
    p ∈ todo.map Prod.fst ∨ p ∈ fetched.map Prod.fst := by
  induction todo generalizing fetched with
  | nil =>
    obtain rfl := Option.some.inj h
    exact .inr hp
  | cons file todo ih =>
    rw [List.foldlM_cons] at h
    obtain ⟨middle, hstep, hrest⟩ := Option.bind_eq_some_iff.mp h
    rcases ih hrest with hlater | hmiddle
    · exact .inl (List.mem_cons_of_mem _ hlater)
    · rcases mem_of_fetchStep hstep hmiddle with rfl | hold
      · exact .inl List.mem_cons_self
      · exact .inr hold

theorem listed_of_begins {d : ManifestDeploy} {fetched : List (Path × Text)}
    (h : d.begins env = some fetched) {p : Path} (hp : p ∈ fetched.map Prod.fst) : p ∈ d.listed := by
  unfold ManifestDeploy.begins at h
  split_ifs at h
  rcases mem_of_fetches _ h hp with hlisted | hnone
  · rwa [List.zipIdx_map_fst] at hlisted
  · exact absurd hnone List.not_mem_nil

section Manifest

variable {d : ManifestDeploy} {fetched : List (Path × Text)}

/-- The rollback brings back what is text of the snapshot, and leaves the rest. -/
theorem restored_iff (broken : Files) :
    (∀ p, isBookkeeping p = false → restore (d.backups env files) broken p = files p) ↔
      d.Texts files ∧
        ∀ p, isBookkeeping p = false → ¬ d.Snapshot files p → broken p = files p := by
  have hin : ∀ p, d.Snapshot files p →
      (restore (d.backups env files) broken p = files p ↔ ∀ c, files p = some c → c.isText = true) := by
    intro p hp
    obtain ⟨c, hc⟩ := Option.isSome_iff_exists.mp hp.2
    unfold ManifestDeploy.Snapshot at hp
    rw [ManifestDeploy.backups, restore_apply, if_pos hp, hc, Option.map_some, Option.some_inj,
      text_read_iff]
    exact ⟨fun h c' hc' => Option.some.inj hc' ▸ h, fun h => h c rfl⟩
  have hout : ∀ p, ¬ d.Snapshot files p → restore (d.backups env files) broken p = broken p := by
    intro p hp
    rw [ManifestDeploy.backups, restore_apply]
    exact if_neg hp
  constructor
  · intro h
    refine ⟨fun p hlisted hp c hc => ?_, fun p hp hno => (hout p hno).symm.trans (h p hp)⟩
    exact (hin p ⟨hlisted, by rw [hc]; rfl⟩).mp (h p hp) c hc
  · rintro ⟨htexts, hothers⟩ p hp
    by_cases hs : d.Snapshot files p
    · exact (hin p hs).mpr (htexts p hs.1 hp)
    · rw [hout p hs]
      exact hothers p hp hs

theorem length_writes : (d.writes fetched).length = d.writeCount fetched := by
  unfold ManifestDeploy.writes ManifestDeploy.writeCount
  cases d.manifestVersion <;> simp

theorem missing_of_fetched (hlisted : ∀ p ∈ fetched.map Prod.fst, p ∈ d.listed) {p : Path}
    (hp : p ∈ fetched.map Prod.fst) (hs : ¬ d.Snapshot files p) : files p = none :=
  Option.not_isSome_iff_eq_none.mp fun hsome => hs ⟨hlisted p hp, hsome⟩

theorem writes_getElem? {n : ℕ} {w : Write} (hw : (d.writes fetched)[n]? = some w) :
    (∃ file, fetched[n]? = some file ∧ w = ⟨file.1, file.2⟩) ∨
      n = fetched.length ∧ ∃ version, d.manifestVersion = some version ∧
        w = ⟨versionPath, versionTs version⟩ := by
  unfold ManifestDeploy.writes at hw
  rcases Nat.lt_or_ge n fetched.length with hlt | hge
  · rw [List.getElem?_append_left (by rwa [List.length_map]), List.getElem?_map] at hw
    obtain ⟨file, hfile, rfl⟩ := Option.map_eq_some_iff.mp hw
    exact .inl ⟨file, hfile, rfl⟩
  · rw [List.getElem?_append_right (by rwa [List.length_map]), List.length_map] at hw
    cases hversion : d.manifestVersion with
    | none =>
      rw [hversion] at hw
      cases hw
    | some version =>
      rw [hversion] at hw
      have hzero : n - fetched.length = 0 := by
        have hlt := (List.getElem?_eq_some_iff.mp hw).1
        simp only [Option.map_some, Option.toList_some, List.length_singleton] at hlt
        omega
      rw [hzero] at hw
      exact .inr ⟨by omega, version, rfl, (Option.some.inj hw).symm⟩

theorem Fault.left_isSome (fault : Fault) (text : Text) {before : Option Content}
    (h : before.isSome = true) : (fault.left text before).isSome = true := by
  cases fault with
  | none => rfl
  | intact => exact h
  | torn left => rfl

theorem le_length_of_write {n : ℕ} {w : Write} (hw : (d.writes fetched)[n]? = some w) :
    n ≤ fetched.length := by
  rcases writes_getElem? hw with ⟨file, hfile, -⟩ | ⟨rfl, -⟩
  · exact (List.getElem?_eq_some_iff.mp hfile).1.le
  · exact le_rfl

theorem take_writes {n : ℕ} (hle : n ≤ fetched.length) :
    (d.writes fetched).take n = (fetched.take n).map fun file => ⟨file.1, file.2⟩ := by
  unfold ManifestDeploy.writes
  rw [List.take_append_of_le_length (by rwa [List.length_map]), List.map_take]

/-- A begun write leaves a file where it writes. -/
theorem begun_isSome {m n : ℕ} {w : Write} {file : Path × Text}
    (hw : (d.writes fetched)[n]? = some w) (hfile : fetched[m]? = some file)
    (hbegun : m < n ∨ m = n ∧ d.fault n ≠ .intact) :
    (w.leave (d.fault n) (overlay ((d.writes fetched).take n) files) file.1).isSome = true := by
  rw [take_writes (le_length_of_write hw), leave_apply]
  rcases hbegun with hlt | ⟨rfl, hopened⟩
  · have hmem : file ∈ fetched.take n :=
      List.mem_of_getElem? ((List.getElem?_take_of_lt hlt).trans hfile)
    have hthere : (overlay ((fetched.take n).map fun file => ⟨file.1, file.2⟩) files
        file.1).isSome = true :=
      overlay_of_mem ⟨⟨file.1, file.2⟩, List.mem_map_of_mem hmem, rfl⟩
    split_ifs
    · exact (d.fault n).left_isSome w.text hthere
    · exact hthere
  · rcases writes_getElem? hw with ⟨file', hfile', rfl⟩ | ⟨hm, -⟩
    · obtain rfl := Option.some.inj (hfile.symm.trans hfile')
      rw [if_pos rfl]
      cases hfault : d.fault m with
      | intact => exact absurd hfault hopened
      | none => rfl
      | torn left => rfl
    · have hlen := (List.getElem?_eq_some_iff.mp hfile).1
      omega

theorem overlay_take {n : ℕ} {p : Path} (hle : n ≤ fetched.length)
    (hnot : ∀ m file, fetched[m]? = some file → m < n → file.1 ≠ p) :
    overlay ((d.writes fetched).take n) files p = files p := by
  rw [take_writes hle]
  refine overlay_of_notMem fun v hv => ?_
  obtain ⟨file, hfile, rfl⟩ := List.mem_map.mp hv
  obtain ⟨m, hm, rfl⟩ := List.mem_take_iff_getElem.mp hfile
  exact hnot m _ (List.getElem?_eq_getElem (by omega)) (by omega)

/-- Of the begun writes only those to the snapshot can be rolled back. -/
theorem writes_spare_iff (hlisted : ∀ p ∈ fetched.map Prod.fst, p ∈ d.listed) {n : ℕ} {w : Write}
    (hw : (d.writes fetched)[n]? = some w) (hfails : FailsAt d.fault n) :
    (∀ p, isBookkeeping p = false → ¬ d.Snapshot files p →
        w.leave (d.fault n) (overlay ((d.writes fetched).take n) files) p = files p) ↔
      d.WritesSpare fetched files n := by
  constructor
  · intro h
    refine ⟨fun m file hfile hbegun hbook => ?_, fun left hn hfault hs => ?_⟩
    · by_contra hmissing
      have hsame := h file.1 hbook fun hs => hmissing hs.2
      exact hmissing (hsame ▸ begun_isSome hw hfile hbegun)
    · rcases writes_getElem? hw with ⟨file, hfile, -⟩ | ⟨-, version, -, rfl⟩
      · exact absurd (List.getElem?_eq_some_iff.mp hfile).1 (by omega)
      · have hsame := h versionPath (by decide) hs
        rw [leave_apply, if_pos rfl, hfault] at hsame
        exact hsame.symm
  · rintro ⟨hexisting, hstamp⟩ p hbook hs
    have hnot : ∀ m file, fetched[m]? = some file → m < n ∨ m = n ∧ d.fault n ≠ .intact →
        file.1 ≠ p := by
      rintro m file hfile hbegun rfl
      have hmem : file.1 ∈ fetched.map Prod.fst :=
        List.mem_map_of_mem (List.mem_of_getElem? hfile)
      exact hs ⟨hlisted _ hmem, hexisting m file hfile hbegun hbook⟩
    rw [leave_apply, overlay_take (le_length_of_write hw)
      fun m file hfile hlt => hnot m file hfile (.inl hlt)]
    split_ifs with hpath
    · cases hfault : d.fault n with
      | none =>
        have hthrows := hfails.1
        rw [hfault] at hthrows
        cases hthrows
      | intact => rfl
      | torn left =>
        rcases writes_getElem? hw with ⟨file, hfile, rfl⟩ | ⟨hn, version, -, rfl⟩
        · have hopened : d.fault n ≠ .intact := by
            rw [hfault]
            exact Fault.noConfusion
          exact absurd hpath.symm (hnot n file hfile (.inr ⟨rfl, hopened⟩))
        · rw [hpath]
          have hpath : p = versionPath := hpath
          rw [hpath] at hs
          exact (hstamp left hn hfault hs).symm
    · rfl

/-- Where all writes go through, the build meets the release. -/
theorem bump_overlay : d.bump env (d.fault (d.writes fetched).length)
    (overlay (d.writes fetched) files) = d.release env fetched files := by
  unfold ManifestDeploy.bump ManifestDeploy.release
  cases hversion : d.manifestVersion with
  | none =>
    unfold ManifestDeploy.writes
    rw [hversion, Option.map_none, Option.toList_none, List.append_nil]
  | some version =>
    have hstamped : overlay (d.writes fetched) files =
        Function.update (overlay (fetched.map fun file => ⟨file.1, file.2⟩) files) versionPath
          (some (.text (versionTs version))) := by
      unfold ManifestDeploy.writes
      rw [hversion, Option.map_some, Option.toList_some, overlay_concat]
      rfl
    have hlength : (d.writes fetched).length = fetched.length + 1 := by
      rw [length_writes, ManifestDeploy.writeCount, hversion]
      rfl
    dsimp only
    rw [hstamped, hlength]
    generalize Function.update _ versionPath _ = stamped
    cases hpkg : stamped packagePath with
    | none => rfl
    | some pkg =>
      dsimp only
      cases env.bumpVersion version (pkg.read env) with
      | none => rfl
      | some text =>
        funext p
        dsimp only
        rw [leave_apply, Function.update_apply]
        split_ifs with hp
        · rw [hp, hpkg]
        · rfl

theorem release_of_ne {p : Path} (hp : p ≠ packagePath) :
    d.release env fetched files p =
      match d.manifestVersion with
      | none => overlay (fetched.map fun file => ⟨file.1, file.2⟩) files p
      | some version => if p = versionPath then some (.text (versionTs version))
        else overlay (fetched.map fun file => ⟨file.1, file.2⟩) files p := by
  unfold ManifestDeploy.release
  cases d.manifestVersion with
  | none => rfl
  | some version =>
    dsimp only
    rw [← Function.update_apply]
    generalize Function.update _ versionPath _ = stamped
    cases stamped packagePath with
    | none => rfl
    | some pkg =>
      dsimp only
      cases env.bumpVersion version (pkg.read env) with
      | none => rfl
      | some text => exact Function.update_of_ne hp ..

theorem release_package :
    d.release env fetched files packagePath =
      match d.manifestVersion,
        overlay (fetched.map fun file => ⟨file.1, file.2⟩) files packagePath with
      | some version, some pkg =>
        match env.bumpVersion version (pkg.read env) with
        | none => some pkg
        | some text => (d.fault (fetched.length + 1)).left text (some pkg)
      | _, before => before := by
  unfold ManifestDeploy.release
  cases d.manifestVersion with
  | none => rfl
  | some version =>
    dsimp only
    rw [Function.update_of_ne (by decide)]
    cases hpkg : overlay (fetched.map fun file => ⟨file.1, file.2⟩) files packagePath with
    | none =>
      dsimp only
      rw [Function.update_of_ne (by decide), hpkg]
    | some pkg =>
      dsimp only
      cases env.bumpVersion version (pkg.read env) with
      | none =>
        dsimp only
        rw [Function.update_of_ne (by decide), hpkg]
      | some text => exact Function.update_self ..

theorem release_apply {p : Path} (hp : p ∉ fetched.map Prod.fst) :
    d.release env fetched files p = files p ↔
      (p = versionPath → ∀ version, d.manifestVersion = some version →
          files p = some (.text (versionTs version))) ∧
        (p = packagePath → ∀ version pkg text, d.manifestVersion = some version →
          files p = some pkg → env.bumpVersion version (pkg.read env) = some text →
          (d.fault (fetched.length + 1)).left text (some pkg) = some pkg) := by
  have htexts : overlay (fetched.map fun file => ⟨file.1, file.2⟩) files p = files p := by
    refine overlay_of_notMem fun w hw hpath => hp ?_
    obtain ⟨file, hfile, rfl⟩ := List.mem_map.mp hw
    exact hpath ▸ List.mem_map_of_mem hfile
  by_cases hpackage : p = packagePath
  · have hversion : p ≠ versionPath := hpackage ▸ by decide
    rw [hpackage] at htexts ⊢
    rw [release_package, htexts]
    cases d.manifestVersion with
    | none => exact iff_of_true rfl ⟨fun h => absurd h (by decide), fun _ _ _ _ h => nomatch h⟩
    | some version =>
      cases hfiles : files packagePath with
      | none =>
        exact iff_of_true rfl ⟨fun h => absurd h (by decide), fun _ _ _ _ _ h => nomatch h⟩
      | some pkg =>
        dsimp only
        cases hbump : env.bumpVersion version (pkg.read env) with
        | none =>
          refine iff_of_true rfl ⟨fun h => absurd h (by decide), fun _ _ _ _ hv hpkg hsome => ?_⟩
          rw [← Option.some.inj hv, ← Option.some.inj hpkg, hbump] at hsome
          cases hsome
        | some text =>
          constructor
          · refine fun h => ⟨fun h => absurd h (by decide), fun _ _ _ _ hv hpkg hsome => ?_⟩
            rw [← Option.some.inj hv, ← Option.some.inj hpkg, hbump] at hsome
            rw [← Option.some.inj hpkg, ← Option.some.inj hsome]
            exact h
          · exact fun h => h.2 rfl version pkg text rfl rfl hbump
  · rw [release_of_ne hpackage, htexts]
    cases d.manifestVersion with
    | none => exact iff_of_true rfl ⟨fun _ _ h => (nomatch h), fun h => absurd h hpackage⟩
    | some version =>
      dsimp only
      split_ifs with hversion
      · constructor
        · exact fun h => ⟨fun _ _ hv => Option.some.inj hv ▸ h.symm, fun h => absurd h hpackage⟩
        · exact fun h => (h.1 hversion version rfl).symm
      · exact iff_of_true rfl ⟨fun h => absurd h hversion, fun h => absurd h hpackage⟩

theorem release_of_mem {p : Path} (hp : p ∈ fetched.map Prod.fst) :
    (d.release env fetched files p).isSome = true := by
  -- A fetched file is in the release.
  have htexts : (overlay (fetched.map fun file => ⟨file.1, file.2⟩) files p).isSome = true := by
    obtain ⟨file, hfile, rfl⟩ := List.mem_map.mp hp
    exact overlay_of_mem ⟨⟨file.1, file.2⟩, List.mem_map_of_mem hfile, rfl⟩
  by_cases hpackage : p = packagePath
  · rw [hpackage] at htexts ⊢
    obtain ⟨pkg, hpkg⟩ := Option.isSome_iff_exists.mp htexts
    rw [release_package, hpkg]
    cases d.manifestVersion with
    | none => rfl
    | some version =>
      dsimp only
      cases env.bumpVersion version (pkg.read env) with
      | none => rfl
      | some text => exact Fault.left_isSome _ _ rfl
  · rw [release_of_ne hpackage]
    cases d.manifestVersion with
    | none => exact htexts
    | some version =>
      dsimp only
      split_ifs
      · rfl
      · exact htexts

theorem build_spares_iff (hlisted : ∀ p ∈ fetched.map Prod.fst, p ∈ d.listed) (changes : Changes) :
    (∀ p, isBookkeeping p = false → ¬ d.Snapshot files p →
        changes.apply (d.release env fetched files) p = files p) ↔
      d.BuildSpares env fetched files changes := by
  refine forall₃_congr fun p _ hs => ?_
  unfold Changes.apply
  cases changes p with
  | some c => exact Iff.rfl
  | none =>
    show d.release env fetched files p = files p ↔ _
    by_cases hp : p ∈ fetched.map Prod.fst
    · refine iff_of_false (fun hsame => ?_) fun h => h.1 hp
      have hthere := @release_of_mem env files d fetched p hp
      rw [hsame, missing_of_fetched hlisted hp hs] at hthere
      cases hthere
    · rw [release_apply hp]
      exact (and_iff_right hp).symm

theorem manifest_restores_iff (d : ManifestDeploy) :
    Restores files (d.process env files) ↔ d.Covered env files := by
  unfold ManifestDeploy.process ManifestDeploy.Covered
  cases hbegins : d.begins env with
  | none => exact iff_of_true (restores_failed.mpr fun p _ => rfl) fun fetched h => nomatch h
  | some fetched =>
    have hlisted : ∀ p ∈ fetched.map Prod.fst, p ∈ d.listed := fun p => listed_of_begins hbegins
    have hone : ∀ P : List (Path × Text) → Prop, (∀ fetched', some fetched = some fetched' → P fetched') ↔
        P fetched := fun P => ⟨fun h => h fetched rfl, fun h _ hsame => Option.some.inj hsame ▸ h⟩
    rw [hone]
    dsimp only
    unfold ManifestDeploy.broken
    rw [← length_writes]
    rcases through_or_failsAt (d.writes fetched) d.fault with hthrough | ⟨n, w, hw, hfails⟩
    · rw [writeAll_through hthrough, if_pos rfl, bump_overlay]
      have hnone : ∀ n < (d.writes fetched).length, FailsAt d.fault n →
          d.Texts files ∧ d.WritesSpare fetched files n := by
        intro n hn hfails
        have hthrows := hfails.1
        rw [hthrough n hn] at hthrows
        cases hthrows
      rw [and_iff_right hnone]
      dsimp only
      cases hbuild : d.build (d.release env fetched files) with
      | none => exact iff_of_true (fun after h => nomatch h) fun _ changes h => nomatch h
      | some changes =>
        rw [Option.map_some, restores_failed, restored_iff, build_spares_iff hlisted]
        constructor
        · exact fun h _ changes' hsame => Option.some.inj hsame ▸ h
        · exact fun h => h hthrough changes rfl
    · rw [writeAll_failsAt hw hfails, if_neg Bool.false_ne_true, restores_failed, restored_iff,
        writes_spare_iff hlisted hw hfails]
      have hn : n < (d.writes fetched).length := (List.getElem?_eq_some_iff.mp hw).1
      constructor
      · refine fun h => ⟨fun m hm hfails' => ?_, fun hthrough => ?_⟩
        · rwa [FailsAt.unique hfails' hfails]
        · have hthrows := hfails.1
          rw [hthrough n hn] at hthrows
          cases hthrows
      · exact fun h => h.1 n hn hfails

end Manifest

end Rollback

end Memclaw.Plugin
