import Mathlib.Algebra.Order.Ring.Unbundled.Rat
import Mathlib.Data.String.Basic
import Memclaw.Lib.JsonDefs
import Memclaw.Lib.Lower
import Memclaw.Lib.SortedSet

/-! The fingerprint of a cluster of `fingerprint.py`: the hash of a text of four lines, each of
them a part of the cluster in canonical form. -/

namespace Memclaw.Forge

open Memclaw.Lib

def fingerprintFormulaVersion : String := "v1"
def entityTopK : ℕ := 5
def goalPhraseTopK : ℕ := 6
def stepWordsCap : ℕ := 4

def stopwords : List String :=
  ["the", "a", "an", "is", "are", "was", "were", "be", "been", "being", "in", "on", "at", "by", "for",
    "to", "of", "with", "into", "this", "that", "these", "those", "and", "or", "but", "it", "its", "do",
    "did", "does", "as"]

/-- The centralities are numbers from 0 to 1, the entries of a dictionary. -/
structure ClusterFingerprintInputs where
  goalPhrase : String
  domain : String
  entityIds : List String
  stepSkeleton : List String
  entityCentralities : Option (List (String × ℚ))

structure Fingerprint where
  fp : String
  canonicalForm : String
deriving DecidableEq

def joined (separator : Char) (parts : List String) : String :=
  String.ofList ([separator].intercalate (parts.map String.toList))

def alphanumeric (c : Char) : Bool := c.isLower || c.isDigit

def separator (c : Char) : Bool := !alphanumeric c

def tokenize (chars : CaseChars) (text : String) : List String :=
  if text = "" then []
  else (segments separator (chars.lower text.toList)).map String.ofList

def endsWith (token ending : String) : Bool := ending.toList.isSuffixOf token.toList

def dropEnd (token : String) (n : ℕ) : String :=
  String.ofList (token.toList.take (token.length - n))

def stripSimplePlural (token : String) : String :=
  if token.length ≤ 4 then token
  else if endsWith token "ss" || endsWith token "us" then token
  else if endsWith token "ies" then dropEnd token 3 ++ "y"
  else if endsWith token "s" then dropEnd token 1
  else token

def wordsOf (chars : CaseChars) (text : String) : List String :=
  ((tokenize chars text).filter fun t => !stopwords.contains t).map stripSimplePlural

def canonicalGoalPhrase (chars : CaseChars) (text : String) : String :=
  if text = "" then ""
  else joined ' ' ((SortedSet.sorted (· ≤ ·) (wordsOf chars text)).take goalPhraseTopK)

def canonicalDomain (chars : CaseChars) (domain : String) : String :=
  String.ofList (chars.lower (chars.strip domain.toList))

def centrality (centralities : List (String × ℚ)) (eid : String) : ℚ :=
  (centralities.lookup eid).getD 0

def Ranked (score : String → ℚ) (a b : String) : Prop :=
  -score a < -score b ∨ -score a = -score b ∧ a ≤ b

instance (score : String → ℚ) : DecidableRel (Ranked score) :=
  fun a b => inferInstanceAs (Decidable (-score a < -score b ∨ -score a = -score b ∧ a ≤ b))

def topEntities (entityIds : List String) : Option (List (String × ℚ)) → List String
  | some (first :: rest) =>
    (SortedSet.sorted (Ranked (centrality (first :: rest))) entityIds).take entityTopK
  | _ => (SortedSet.sorted (· ≤ ·) entityIds).take entityTopK

def canonicalEntities (entityIds : List String) (centralities : Option (List (String × ℚ))) :
    List String :=
  if entityIds.isEmpty then []
  else (topEntities entityIds centralities).insertionSort (· ≤ ·)

def canonicalStepSkeleton (chars : CaseChars) (steps : List String) : List String :=
  steps.map fun raw => joined ' ' ((wordsOf chars raw).take stepWordsCap)

def renderCanonicalForm (chars : CaseChars) (inputs : ClusterFingerprintInputs) : String :=
  "goal=" ++ canonicalGoalPhrase chars inputs.goalPhrase ++
    "\ndomain=" ++ canonicalDomain chars inputs.domain ++
    "\nentities=" ++ joined ',' (canonicalEntities inputs.entityIds inputs.entityCentralities) ++
    "\nsteps=" ++ joined '|' (canonicalStepSkeleton chars inputs.stepSkeleton)

def computeFingerprint (chars : CaseChars) (inputs : ClusterFingerprintInputs) : Fingerprint :=
  let canonical := renderCanonicalForm chars inputs
  let h := Sha256.hexdigest (Sha256.sha256 (encodeUtf8 canonical.toList))
  { fp := "fp:" ++ fingerprintFormulaVersion ++ ":" ++ h
    canonicalForm := canonical }

end Memclaw.Forge
