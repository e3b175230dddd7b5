import Memclaw.Lib.Dict
import Memclaw.Skills.Scan

/-! When the scan of a value answers, and what the answer counts. -/

namespace Memclaw.Skills

open Memclaw.Lib

/-- A `ScanResult` with the state that only a value which is not a dict has. -/
structure AnyScanResult where
  state : String
  scannedAt : String
  critical : ℕ
  warn : ℕ
  info : ℕ
  findings : List ScanFinding

def ScanResult.any (r : ScanResult) : AnyScanResult :=
  ⟨r.state.name, r.scannedAt, r.critical, r.warn, r.info, r.findings⟩

def TextOrFalse (j : Json) : Prop := j.truthy = true → ∃ s, j = .str s

theorem textOrFalse_isSome {j : Json} : j.textOrFalse.isSome = true ↔ TextOrFalse j := by
  unfold TextOrFalse
  cases j with
  | str s => exact iff_of_true rfl fun _ => ⟨s, rfl⟩
  | _ =>
    rw [Json.textOrFalse]
    · split_ifs with htruthy
      · exact iff_of_false Bool.noConfusion fun h => by
          obtain ⟨s, hs⟩ := h htruthy
          cases hs
      · exact iff_of_true rfl fun h => absurd h htruthy
    · simp

def naturalFields : List String := ["content", "description", "summary", "goal"]

def sizedFields : List String := ["content", "description"]

def Encodable (env : TextEnv) (j : Json) : Prop := ∀ s, j = .str s → env.encodes s = true

/-- The fields that regular expressions read, and the roles, are texts where they are not false,
and the texts that are measured have no lone surrogate. -/
structure Scannable (env : TextEnv) (data : Dict) : Prop where
  fields : ∀ field ∈ naturalFields, TextOrFalse (Dict.get data field)
  roles : ∀ items, Dict.get data "support_files" = .arr items →
    ∀ sf, .obj sf ∈ items → TextOrFalse (Dict.get sf "role")
  sizes : ∀ field ∈ sizedFields, Encodable env (Dict.get data field)

section Entries

variable {env : TextEnv} {Q : Json → Prop} {check : ℕ → Json → Option (List ScanFinding)}

theorem scanField_isSome {data : Dict} {field : String} :
    (scanField env data field).isSome = true ↔ TextOrFalse (Dict.get data field) := by
  rw [scanField, Option.isSome_map, textOrFalse_isSome]

theorem roleOf_isSome {sf : Dict} :
    (roleOf env sf).isSome = true ↔ TextOrFalse (Dict.get sf "role") := by
  rw [roleOf, Option.isSome_map, textOrFalse_isSome]

theorem scanEach_isSome (h : ∀ i sf, (check i sf).isSome = true ↔ Q sf) (i : ℕ) (items : List Json) :
    (scanEach check i items).isSome = true ↔ ∀ sf ∈ items, Q sf := by
  induction items generalizing i with
  | nil => exact iff_of_true rfl fun _ hsf => absurd hsf List.not_mem_nil
  | cons sf items ih =>
    rw [List.forall_mem_cons, ← h i sf, ← ih (i + 1), scanEach]
    cases check i sf with
    | none => exact iff_of_false Bool.noConfusion fun hboth => Bool.noConfusion hboth.1
    | some here =>
      cases scanEach check (i + 1) items with
      | none => exact iff_of_false Bool.noConfusion fun hboth => Bool.noConfusion hboth.2
      | some later => exact iff_of_true rfl ⟨rfl, rfl⟩

/-- A role that `lower` does not take. -/
def RoleOk (sf : Json) : Prop := ∀ fields, sf = .obj fields → TextOrFalse (Dict.get fields "role")

theorem scanSupportFile_isSome (i : ℕ) (sf : Json) :
    (scanSupportFile env i sf).isSome = true ↔ RoleOk sf := by
  cases sf with
  | obj fields =>
    have hrole : RoleOk (.obj fields) ↔ (roleOf env fields).isSome = true := by
      rw [roleOf_isSome]
      exact ⟨fun h => h fields rfl, fun h fields' heq => Json.obj.inj heq ▸ h⟩
    rw [hrole, scanSupportFile]
    cases roleOf env fields with
    | none => exact Iff.rfl
    | some role =>
      refine iff_of_true ?_ rfl
      dsimp only [Option.bind_eq_bind, Option.bind_some]
      split
      · split_ifs <;> rfl
      · rfl
  | _ => exact iff_of_true rfl fun fields heq => by cases heq

theorem scanPath_isSome {i : ℕ} {sf : Json} (h : RoleOk sf) : (scanPath env i sf).isSome = true := by
  cases sf with
  | obj fields =>
    obtain ⟨role, hrole⟩ := Option.isSome_iff_exists.mp (roleOf_isSome.mpr (h fields rfl))
    rw [scanPath]
    split
    · split_ifs
      · rfl
      · rw [hrole]
        rfl
    · rfl
  | _ => rfl

theorem scanEach_isSome_of (h : ∀ i sf, Q sf → (check i sf).isSome = true) (i : ℕ)
    {items : List Json} (hitems : ∀ sf ∈ items, Q sf) : (scanEach check i items).isSome = true := by
  induction items generalizing i with
  | nil => rfl
  | cons sf items ih =>
    obtain ⟨hsf, hrest⟩ := List.forall_mem_cons.mp hitems
    obtain ⟨here, hhere⟩ := Option.isSome_iff_exists.mp (h i sf hsf)
    obtain ⟨later, hlater⟩ := Option.isSome_iff_exists.mp (ih (i + 1) hrest)
    rw [scanEach, hhere, hlater]
    rfl

theorem scanSupportFiles_isSome {files : Json} : (scanSupportFiles env files).isSome = true ↔
    ∀ items, files = .arr items → ∀ sf ∈ items, RoleOk sf := by
  cases files with
  | arr items =>
    have hbodies : (scanEach (scanSupportFile env) 0 items).isSome = true ↔ ∀ sf ∈ items, RoleOk sf :=
      scanEach_isSome scanSupportFile_isSome 0 items
    have hitems : (∀ items', Json.arr items = .arr items' → ∀ sf ∈ items', RoleOk sf) ↔
        ∀ sf ∈ items, RoleOk sf :=
      ⟨fun h => h items rfl, fun h items' heq => Json.arr.inj heq ▸ h⟩
    rw [hitems, ← hbodies, scanSupportFiles]
    cases hscan : scanEach (scanSupportFile env) 0 items with
    | none => exact Iff.rfl
    | some bodies =>
      rw [hscan] at hbodies
      have hroles := hbodies.mp rfl
      have hpath : ∀ i sf, RoleOk sf → (scanPath env i sf).isSome = true :=
        fun i sf h => scanPath_isSome h
      obtain ⟨paths, hpaths⟩ := Option.isSome_iff_exists.mp (scanEach_isSome_of hpath 0 hroles)
      rw [hpaths]
      exact Iff.rfl
  | _ => exact iff_of_true rfl fun items heq => by cases heq

end Entries

variable {env : TextEnv} {caps : Caps}

theorem utf8Len_isSome {j : Json} : (utf8Len env j).isSome = true ↔ Encodable env j := by
  cases j with
  | str s =>
    have hself : Encodable env (.str s) ↔ env.encodes s = true :=
      ⟨fun h => h s rfl, fun h s' heq => Json.str.inj heq ▸ h⟩
    rw [hself, utf8Len]
    cases env.encodes s <;> simp
  | _ => exact iff_of_true rfl fun s heq => by cases heq

theorem scanSizes_isSome {data : Dict} : (scanSizes env caps data).isSome = true ↔
    ∀ field ∈ sizedFields, Encodable env (Dict.get data field) := by
  simp only [sizedFields, List.forall_mem_cons, List.not_mem_nil, false_imp_iff, implies_true,
    and_true, ← utf8Len_isSome]
  unfold scanSizes
  cases utf8Len env (Dict.get data "content") <;>
    cases utf8Len env (Dict.get data "description") <;> simp

variable (env caps) in
theorem scanFindings_isSome {data : Dict} :
    (scanFindings env caps data).isSome = true ↔ Scannable env data := by
  have hparts : (scanFindings env caps data).isSome = true ↔
      (∀ field ∈ naturalFields, (scanField env data field).isSome = true) ∧
        (scanSupportFiles env (Dict.get data "support_files")).isSome = true ∧
          (scanSizes env caps data).isSome = true := by
    simp only [naturalFields, List.forall_mem_cons, List.not_mem_nil, false_imp_iff, implies_true,
      and_true]
    unfold scanFindings
    cases scanField env data "content" <;> cases scanField env data "description" <;>
      cases scanField env data "summary" <;> cases scanField env data "goal" <;>
        cases scanSupportFiles env (Dict.get data "support_files") <;>
          cases scanSizes env caps data <;> simp
  rw [hparts, scanSupportFiles_isSome, scanSizes_isSome]
  constructor
  · rintro ⟨hfields, hroles, hsizes⟩
    exact ⟨fun field hfield => scanField_isSome.mp (hfields field hfield),
      fun items hitems sf hsf => hroles items hitems (.obj sf) hsf sf rfl, hsizes⟩
  · rintro ⟨hfields, hroles, hsizes⟩
    refine ⟨fun field hfield => scanField_isSome.mpr (hfields field hfield), ?_, hsizes⟩
    rintro items hitems sf hsf fields rfl
    exact hroles items hitems fields hsf

/-- The counts are those of the findings, and a clean state says that none condemns. -/
structure AnyScanResult.Faithful (r : AnyScanResult) : Prop where
  critical : r.critical = r.findings.countP fun f => f.severity = .critical
  warn : r.warn = r.findings.countP fun f => f.severity = .warn
  info : r.info = r.findings.countP fun f => f.severity = .info
  clean : r.state = "clean" ↔ ∀ f ∈ r.findings, f.severity ≠ .critical ∧ f.fatal = false

theorem ofFindings_clean_iff {scannedAt : String} {findings : List ScanFinding} :
    (ScanResult.ofFindings scannedAt findings).state = .clean ↔
      ∀ f ∈ findings, f.severity ≠ .critical ∧ f.fatal = false := by
  have hcount : 0 < countSeverity .critical findings ↔ ∃ f ∈ findings, f.severity = .critical := by
    rw [countSeverity, List.countP_pos_iff]
    simp only [decide_eq_true_iff]
  simp only [ScanResult.ofFindings]
  split_ifs with hworst
  · refine iff_of_false (fun h => by cases h) fun hnone => ?_
    rw [Bool.or_eq_true, List.any_eq_true, decide_eq_true_iff, hcount] at hworst
    rcases hworst with ⟨f, hf, hfatal⟩ | ⟨f, hf, hcritical⟩
    · rw [(hnone f hf).2] at hfatal
      cases hfatal
    · exact (hnone f hf).1 hcritical
  · refine iff_of_true rfl fun f hf => ?_
    rw [Bool.or_eq_true, List.any_eq_true, decide_eq_true_iff, hcount, not_or] at hworst
    refine ⟨fun hcritical => hworst.2 ⟨f, hf, hcritical⟩, ?_⟩
    exact Bool.eq_false_iff.mpr fun hfatal => hworst.1 ⟨f, hf, hfatal⟩

end Memclaw.Skills
