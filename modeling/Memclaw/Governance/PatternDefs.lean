import Mathlib.Algebra.BigOperators.Group.List.Defs
import Mathlib.Algebra.Ring.Nat
import Mathlib.Data.List.Dedup
import Mathlib.Data.List.Sort
import Memclaw.Lib.RegexDefs

/-! The deterministic pattern library for personal data and secrets, and its two primitives:
`scan` finds sensitive spans in a text and `mask` redacts them. -/

namespace Memclaw.Governance

open Memclaw.Lib

inductive PIICategory
  | email
  | phone
  | creditCard
  | iban
  | nationalId
  | apiKey
  | secret
deriving DecidableEq

inductive Severity
  | low
  | medium
  | high
deriving DecidableEq

structure Finding where
  category : PIICategory
  start : ℕ
  stop : ℕ
  severity : Severity
deriving DecidableEq

/-- What the scan takes from the interpreter: the character database, and whether the
Shannon entropy of a value, a sum of floating-point logarithms, is at least `3.0`. -/
structure ScanEnv where
  chars : RegexChars
  highEntropy : List Char → Bool

/-- `_luhn_ok`. A match of `\d` has decimal digits only, so `int` never fails on one. -/
def luhnOk (env : ScanEnv) (value : List Char) : Bool :=
  let digits := value.filterMap env.chars.decimal
  let weigh := fun (d, i) =>
    if i % 2 = 1 then (if 9 < 2 * d then 2 * d - 9 else 2 * d) else d
  13 ≤ digits.length && ((digits.reverse.zipIdx.map weigh).sum % 10 == 0)

def ibanDigits (env : ScanEnv) (c : Char) : Option (List ℕ) :=
  match env.chars.decimal c with
  | some d => some [d]
  | none =>
    if 'A'.toNat ≤ c.toNat ∧ c.toNat ≤ 'Z'.toNat then
      some [(c.toNat - 55) / 10, (c.toNat - 55) % 10]
    else none

def ibanMod97Ok (env : ScanEnv) (value : List Char) : Bool :=
  let s := (value.filter fun c => !env.chars.space c).map Char.toUpper
  if s.length < 15 ∨ 34 < s.length then false
  else match (s.drop 4 ++ s.take 4).mapM (ibanDigits env) with
    | some digits => digits.flatten.foldl (fun n d => 10 * n + d) 0 % 97 == 1
    | none => false

def entropyOk (env : ScanEnv) (value : List Char) : Bool :=
  16 ≤ value.length && env.highEntropy value

structure Rule where
  category : PIICategory
  severity : Severity
  pattern : String
  flags : Regex.Flags := .none
  validator : ScanEnv → List Char → Bool := fun _ _ => true
  group : ℕ := 0

def rules : List Rule :=
  [{ category := .email, severity := .low,
     pattern := r"\b[A-Za-z0-9._%+-]+@[A-Za-z0-9.-]+\.[A-Za-z]{2,}\b" },
   -- Phone numbers: international, North American, and British.
   { category := .phone, severity := .medium,
     pattern := r"\+\d{1,3}[\s.-]?(?:\(?\d{1,4}\)?[\s.-]?){2,5}\d{2,4}" },
   { category := .phone, severity := .medium,
     pattern := r"(?<!\d)(?:\(\d{3}\)\s?|\d{3}[-.\s])\d{3}[-.\s]\d{4}\b" },
   { category := .phone, severity := .medium,
     pattern := r"\b0\d{3,4}\s?\d{5,6}\b" },
   { category := .creditCard, severity := .high,
     pattern := String.append r"\b(?:4\d{3}|5[1-5]\d{2}|2[2-7]\d{2}|3[47]\d{2}|6(?:011|5\d{2})|"
       r"3(?:0[0-5]|[68]\d)\d)(?:[-\s]?\d){9,15}\b",
     validator := luhnOk },
   { category := .iban, severity := .high,
     pattern := r"\b[A-Z]{2}\d{2}(?:[\s]?[A-Z0-9]{4}){2,7}(?:[\s]?[A-Z0-9]{1,3})?\b",
     validator := ibanMod97Ok },
   -- National identifiers: SSN, National Insurance, ITIN, and DNI.
   { category := .nationalId, severity := .high,
     pattern := r"\b(?!000|666|9\d\d)\d{3}[- ]?(?!00)\d{2}[- ]?(?!0000)\d{4}\b" },
   { category := .nationalId, severity := .high,
     pattern := r"\b[ABCEGHJ-PRSTW-Z]{2}\s?\d{2}\s?\d{2}\s?\d{2}\s?[A-D]\b" },
   { category := .nationalId, severity := .high,
     pattern := r"\b9\d{2}[- ]?[78]\d[- ]?\d{4}\b" },
   { category := .nationalId, severity := .high,
     pattern := r"\b\d{8}[- ]?[A-HJ-NP-TV-Z]\b" },
   -- Keys of providers, by their prefixes.
   { category := .apiKey, severity := .high,
     pattern := r"\b(?:AKIA|ASIA|AGPA|AIDA|AROA|ANPA)[0-9A-Z]{16}\b" },
   { category := .apiKey, severity := .high, pattern := r"\bAIza[0-9A-Za-z_\-]{35}\b" },
   { category := .apiKey, severity := .high, pattern := r"\bya29\.[0-9A-Za-z_\-]+" },
   { category := .apiKey, severity := .high, pattern := r"\bgh[pousr]_[0-9A-Za-z]{36}\b" },
   { category := .apiKey, severity := .high, pattern := r"\bgithub_pat_[0-9A-Za-z_]{82}\b" },
   { category := .apiKey, severity := .high, pattern := r"\bglpat-[0-9A-Za-z_\-]{20}\b" },
   { category := .apiKey, severity := .high, pattern := r"\bxox[baprs]-[0-9A-Za-z-]{10,}\b" },
   { category := .apiKey, severity := .high, pattern := r"\bxapp-\d-[0-9A-Za-z-]{20,}\b" },
   { category := .apiKey, severity := .high,
     pattern := r"\b(?:sk|rk|pk)_(?:live|test)_[0-9A-Za-z]{16,}\b" },
   { category := .apiKey, severity := .high, pattern := r"\bsk-ant-[0-9A-Za-z_\-]{20,}\b" },
   { category := .apiKey, severity := .high, pattern := r"\bsk-[0-9A-Za-z]{20,}\b" },
   { category := .apiKey, severity := .high,
     pattern := r"\bSG\.[0-9A-Za-z_\-]{22}\.[0-9A-Za-z_\-]{43}\b" },
   { category := .apiKey, severity := .high, pattern := r"\bSK[0-9a-fA-F]{32}\b" },
   { category := .apiKey, severity := .high, pattern := r"\bAC[0-9a-fA-F]{32}\b" },
   { category := .apiKey, severity := .high, pattern := r"\bnpm_[0-9A-Za-z]{36}\b" },
   { category := .apiKey, severity := .high, pattern := r"\bdop_v1_[0-9a-f]{64}\b" },
   { category := .apiKey, severity := .high, pattern := r"\bpypi-[0-9A-Za-z_\-]{16,}\b" },
   { category := .apiKey, severity := .high,
     pattern := r"\bsq0(?:atp|csp)-[0-9A-Za-z_\-]{22,}\b" },
   { category := .apiKey, severity := .high,
     pattern := r"\bshp(?:at|ss|pa|ca)_[0-9a-fA-F]{32}\b" },
   { category := .apiKey, severity := .high, pattern := r"\bkey-[0-9a-zA-Z]{32}\b" },
   { category := .apiKey, severity := .high, pattern := r"\b\d{8,10}:AA[0-9A-Za-z_\-]{33}\b" },
   { category := .apiKey, severity := .high, pattern := r"\bEAACEdEose0cBA[0-9A-Za-z]+" },
   -- Secrets. The last two rules redact the value of an assignment and keep its key.
   { category := .secret, severity := .high,
     pattern := r"-----BEGIN (?:RSA |EC |DSA |OPENSSH |PGP )?PRIVATE KEY-----" },
   { category := .secret, severity := .high,
     pattern := r"\beyJ[A-Za-z0-9_\-]{8,}\.[A-Za-z0-9_\-]{8,}\.[A-Za-z0-9_\-]{8,}\b" },
   { category := .secret, severity := .high,
     pattern := r"\bBearer\s+[A-Za-z0-9_\-.=]{20,}",
     flags := .ignorecase },
   { category := .secret, severity := .high,
     pattern := r#"(?i)aws_secret_access_key\s*[:=]\s*['\"]?([A-Za-z0-9/+=]{40})['\"]?"#,
     validator := entropyOk, group := 1 },
   { category := .secret, severity := .high,
     pattern := String.append
       r"(?i)\b(?:secret|token|api[_-]?key|access[_-]?token|auth[_-]?token|"
       r#"client[_-]?secret|password|passwd|pwd)\b\s*[:=]\s*['\"]?([A-Za-z0-9+/_\-]{16,})['\"]?"#,
     validator := entropyOk, group := 1 }]

def Rule.regex (rule : Rule) : Option Regex := Regex.compile rule.flags rule.pattern

theorem rules_compile : ∀ rule ∈ rules, rule.regex.isSome := by
  -- The patterns are read a dozen at a time.
  have hfirst : ∀ rule ∈ rules.take 12, rule.regex.isSome := by decide
  have hsecond : ∀ rule ∈ (rules.drop 12).take 12, rule.regex.isSome := by decide
  have hrest : ∀ rule ∈ rules.drop 24, rule.regex.isSome := by decide +kernel
  intro rule hrule
  rw [← List.take_append_drop 12 rules, List.mem_append] at hrule
  rcases hrule with hrule | hrule
  · exact hfirst rule hrule
  · rw [← List.take_append_drop 12 (rules.drop 12), List.mem_append, List.drop_drop] at hrule
    exact hrule.elim (hsecond rule) (hrest rule)

def Rule.finding (env : ScanEnv) (text : List Char) (rule : Rule) (m : Regex.Match) :
    Option Finding :=
  match m.span rule.group with
  | none => none
  | some (start, stop) =>
    let value := (text.drop start).take (stop - start)
    if rule.validator env value && start < stop then
      some ⟨rule.category, start, stop, rule.severity⟩
    else none

def Rule.findings (env : ScanEnv) (text : List Char) (rule : Rule) : List Finding :=
  match rule.regex with
  | none => []
  | some r => (r.finditer env.chars text).filterMap (rule.finding env text)

def allows (enabled : Option (List PIICategory)) (category : PIICategory) : Bool :=
  enabled.all fun categories => category ∈ categories

def accepted (env : ScanEnv) (enabled : Option (List PIICategory)) (text : List Char) :
    List Finding :=
  (rules.filter fun rule => allows enabled rule.category).flatMap (Rule.findings env text)

def severityRank : Severity → ℕ
  | .low => 0
  | .medium => 1
  | .high => 2

def Finding.le (f g : Finding) : Bool :=
  f.start < g.start ||
    (f.start == g.start &&
      (g.stop - g.start < f.stop - f.start ||
        (f.stop - f.start == g.stop - g.start && severityRank g.severity ≤ severityRank f.severity)))

/-- The greedy pass of `_resolve_overlaps`. Its `last_end` starts below every offset, as
zero does here. -/
def keepDisjoint : ℕ → List Finding → List Finding
  | _, [] => []
  | lastEnd, f :: fs =>
    if lastEnd ≤ f.start then f :: keepDisjoint f.stop fs else keepDisjoint lastEnd fs

def resolveOverlaps (findings : List Finding) : List Finding :=
  if findings.length ≤ 1 then findings
  else keepDisjoint 0 (findings.insertionSort fun f g => f.le g)

def scan (env : ScanEnv) (enabled : Option (List PIICategory)) (text : List Char) :
    List Finding :=
  if text.isEmpty then [] else resolveOverlaps (accepted env enabled text)

def redaction : PIICategory → String
  | .email => "«EMAIL»"
  | .phone => "«PHONE»"
  | .creditCard => "«CARD»"
  | .iban => "«IBAN»"
  | .nationalId => "«ID»"
  | .apiKey => "«API_KEY»"
  | .secret => "«SECRET»"

def splice {α : Type} (token : PIICategory → List α) (text : List α) (findings : List Finding) :
    List α :=
  if findings.isEmpty then text
  else (findings.insertionSort fun f g => g.start ≤ f.start).foldl
    (fun out f => out.take f.start ++ token f.category ++ out.drop f.stop) text

def mask (text : List Char) (findings : List Finding) : List Char :=
  splice (fun category => (redaction category).toList) text findings

def threeBits (counts : List ℕ) : Bool :=
  let n := counts.sum
  8 ^ n * (counts.map fun c => c ^ c).prod ≤ n ^ n

def asciiEnv : ScanEnv where
  chars := RegexChars.ascii
  highEntropy value := threeBits (value.dedup.map fun c => value.count c)

end Memclaw.Governance
