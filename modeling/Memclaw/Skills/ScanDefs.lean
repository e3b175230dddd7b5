import Memclaw.Lib.DictDefs
import Memclaw.Lib.RegexDefs

/-! The Sentinel scanner of `sentinel_scan.py`: eight checks of a skill document, one
finding for each hit. -/

namespace Memclaw.Skills

open Memclaw.Lib

/-- What the scanner takes from the interpreter: the character database, `str.isprintable`
of a character and `str.lower`. A text may hold lone surrogates, which `Char` does not have:
characters that are not used otherwise stand for them, and `surrogate` says which. -/
structure TextEnv where
  chars : RegexChars
  printable : Char → Bool
  lower : String → String
  surrogate : Char → Bool

def TextEnv.ascii : TextEnv where
  chars := RegexChars.ascii
  printable c := 32 ≤ c.toNat && c.toNat < 127
  lower s := String.ofList (s.toList.map Char.toLower)
  surrogate _ := false

def TextEnv.repr (env : TextEnv) (text : String) : String :=
  String.ofList (Json.reprText env.printable text.toList)

structure Caps where
  bodyMaxBytes : Int
  descriptionMaxBytes : Int
deriving DecidableEq

def maxMemoryIdsBeforeWarn : ℕ := 20

inductive ScanState
  | clean
  | quarantined
deriving DecidableEq

def ScanState.name : ScanState → String
  | .clean => "clean"
  | .quarantined => "quarantined"

inductive Severity
  | critical
  | warn
  | info
deriving DecidableEq

def Severity.name : Severity → String
  | .critical => "critical"
  | .warn => "warn"
  | .info => "info"

structure ScanFinding where
  code : String
  severity : Severity
  message : String
  fatal : Bool := false
  locator : String
deriving DecidableEq

structure ScanResult where
  state : ScanState
  scannedAt : String
  critical : ℕ
  warn : ℕ
  info : ℕ
  findings : List ScanFinding

def ScanFinding.asDocField (f : ScanFinding) : Json :=
  .obj ([("code", .str f.code), ("severity", .str f.severity.name), ("message", .str f.message),
    ("fatal", .bool f.fatal)] ++ if f.locator = "" then [] else [("locator", .str f.locator)])

def ScanResult.asDocField (r : ScanResult) : Json :=
  .obj [("state", .str r.state.name), ("scanned_at", .str r.scannedAt), ("critical", .int r.critical),
    ("warn", .int r.warn), ("info", .int r.info),
    ("findings", .arr (r.findings.map ScanFinding.asDocField))]

def ScanResult.anyFatal (r : ScanResult) : Bool := r.findings.any ScanFinding.fatal

def evidenceRecurseMaxDepth : ℕ := 4

mutual

def iterEvidenceStrings (locator : String) (depth : ℕ) : Json → List (String × String)
  | .str s => if evidenceRecurseMaxDepth < depth then [] else [(locator, s)]
  | .obj fields =>
    if evidenceRecurseMaxDepth < depth then [] else iterEvidenceFields locator (depth + 1) fields
  | .arr items =>
    if evidenceRecurseMaxDepth < depth then [] else iterEvidenceItems locator (depth + 1) 0 items
  | _ => []

def iterEvidenceFields (locator : String) (depth : ℕ) : Dict → List (String × String)
  | [] => []
  | (k, v) :: fields =>
    iterEvidenceStrings (locator ++ "." ++ k) depth v ++ iterEvidenceFields locator depth fields

def iterEvidenceItems (locator : String) (depth i : ℕ) : List Json → List (String × String)
  | [] => []
  | v :: items =>
    iterEvidenceStrings (locator ++ "[" ++ toString i ++ "]") depth v ++
      iterEvidenceItems locator depth (i + 1) items

end

def dropStart (start text : String) : String :=
  if start.toList.isPrefixOf text.toList then String.ofList (text.toList.drop start.length) else text

def firstMatch (env : TextEnv) (patterns : List Pattern) (text : String) : Option Regex.Match :=
  patterns.findSome? fun p => p.search env.chars text.toList

def groupZero (m : Regex.Match) (text : String) : String := String.ofList (m.text text.toList)

def spanText (m : Regex.Match) : String := "[" ++ toString m.start ++ ":" ++ toString m.stop ++ "]"

def promptInjectionPatterns : List Pattern :=
  [⟨r"\bignore\s+(?:all\s+)?(?:the\s+)?(?:previous|above|prior)\s+(?:instructions?|prompts?)\b",
      .ignorecase⟩,
    ⟨r"\bdisregard\s+(?:the\s+)?(?:above|previous|prior)\s+(?:instructions?|prompts?|context)\b",
      .ignorecase⟩,
    ⟨r"\bforget\s+(?:everything|all)\s+(?:above|prior|previously)\b", .ignorecase⟩,
    ⟨r"^\s*system\s*:\s*(?:you\s+(?:are|must|will)|ignore|act\s+as|disregard|forget|override)\b",
      .ignorecaseMultilined⟩,
    ⟨"\\\x7b\\\x7b\\s*system\\s*\\\x7d\\\x7d", .ignorecase⟩,
    ⟨r"<\|im_start\|>\s*system", .ignorecase⟩,
    ⟨r"\b(?:jailbreak|DAN\s+mode|developer\s+mode\s+enabled)\b", .ignorecase⟩,
    ⟨r"\boverride\s+(?:the\s+)?(?:safety|guardrails?|filters?)\b", .ignorecase⟩,
    ⟨r"\byou\s+are\s+now\s+a?\s*(?:new|different)\s+(?:assistant|ai|model)\b", .ignorecase⟩,
    ⟨r"\bact\s+as\s+(?:if\s+you\s+(?:are|were)\s+)?(?:an?\s+)?unrestricted\b", .ignorecase⟩]

def scanPromptInjection (env : TextEnv) (text fieldName : String) : List ScanFinding :=
  match firstMatch env promptInjectionPatterns text with
  | some m =>
    [{ code := "PROMPT_INJECTION"
       severity := .critical
       message := "prompt-injection marker detected in data." ++ fieldName ++ ": " ++
         env.repr (groupZero m text)
       locator := "data." ++ fieldName ++ spanText m }]
  | none => []

def scriptRoles : List String := ["command", "exec", "script", "scripts"]

def shellInjectionPatterns : List Pattern :=
  [⟨r"\brm\s+-(?:rf|fr)\s+/(?!tmp\b)", .ignorecase⟩,
    ⟨r"\$\(\s*rm\s", .ignorecase⟩,
    ⟨r"(?:^|[;&|`])\s*rm\s+-(?:rf|fr)\s", .ignorecaseMultilined⟩,
    ⟨":\\(\\s*\\)\\s*\\\x7b\\s*:\\|:&\\s*\\\x7d\\s*;\\s*:", .multilined⟩,
    ⟨r"\bdd\s+if=/dev/(?:zero|random|urandom)\b", .ignorecase⟩,
    ⟨r"\bmkfs\.[a-z0-9]+\s", .ignorecase⟩,
    ⟨r"\bchmod\s+(?:-R\s+)?[0-7]*7{2,3}\b", .none⟩,
    ⟨r"\b(?:cat|less|more|head|tail)\s+/etc/(?:passwd|shadow|sudoers)\b", .ignorecase⟩,
    ⟨r"(?:curl|wget)\s[^|]*\|\s*(?:sh|bash|zsh|sudo\s+sh)\b", .ignorecase⟩,
    ⟨r"\beval\s*\(\s*(?:base64_decode|atob|fromCharCode)", .ignorecase⟩,
    ⟨r#"\bexec\s*\(\s*['\"]?(?:cmd|powershell|sh|bash)\b"#, .ignorecase⟩]

def scanShellInjection (env : TextEnv) (body locatorPrefix : String) : List ScanFinding :=
  match firstMatch env shellInjectionPatterns body with
  | some m =>
    [{ code := "SHELL_INJECTION"
       severity := .critical
       message := "shell-injection pattern detected: " ++ env.repr (groupZero m body)
       locator := locatorPrefix ++ spanText m }]
  | none => []

def urlExfilPatterns : List Pattern :=
  [⟨r"(?:curl|wget|http[sx]?\.post|fetch)\s*[^,\n]*POST[^,\n]*(?:webhook|hooks?\.|paste\.|requestbin|ngrok|pipedream)",
      .ignorecase⟩,
    ⟨r"(?:curl|wget)\s+(?:-X\s+POST\s+)?[^|>\n]*https?://(?:[^/\s]+\.)?(?:requestbin|webhook\.site|hookbin|interactsh|burpcollaborator)",
      .ignorecase⟩,
    ⟨r"https?://(?:[a-z0-9-]+\.)?(?:pastebin\.com|paste\.ee|hastebin\.com|0x0\.st|transfer\.sh)/",
      .ignorecase⟩,
    ⟨r"base64\s*-d\s*\|\s*(?:curl|wget|sh|bash)", .ignorecase⟩]

def scanUrlExfil (env : TextEnv) (body locatorPrefix : String) : List ScanFinding :=
  match firstMatch env urlExfilPatterns body with
  | some m =>
    [{ code := "URL_EXFILTRATION"
       severity := .warn
       message := "suspicious outbound network pattern: " ++
         env.repr (String.ofList ((m.text body.toList).take 120))
       locator := locatorPrefix ++ spanText m }]
  | none => []

def roleOf (env : TextEnv) (sf : Dict) : Option String :=
  (Dict.get sf "role").textOrFalse.map fun text => env.lower (text.getD "")

/-- `sf.get("content") or sf.get("body") or ""`. -/
def bodyOf (sf : Dict) : Json :=
  let content := Dict.get sf "content"
  let body := Dict.get sf "body"
  if content.truthy then content else if body.truthy then body else .str ""

def scanSupportFile (env : TextEnv) (i : ℕ) (sf : Json) : Option (List ScanFinding) :=
  match sf with
  | .obj fields => do
    let role ← roleOf env fields
    let locator := "data.support_files[" ++ toString i ++ "].content"
    match (bodyOf fields).asStr with
    | some body =>
      if body = "" then some []
      else some (scanShellInjection env body locator ++
        if scriptRoles.contains role then scanUrlExfil env body locator else [])
    | none => some []
  | _ => some []

def pathTraversalRe : Pattern := ⟨r"(?:^|[\\/])\.{2}(?:[\\/]|$)", .none⟩
def hiddenSegmentRe : Pattern := ⟨r"(?:^|[\\/])\.[^\\/]", .none⟩
def scriptExtRe : Pattern := ⟨r"\.(?:sh|bash|zsh|ps1|bat|cmd)\b", .ignorecase⟩
def binaryExtRe : Pattern := ⟨r"\.(?:exe|dll|so|dylib)\b", .ignorecase⟩
def windowsAbsRe : Pattern := ⟨r"^[a-zA-Z]:\\", .ignorecase⟩
def forbiddenAbsPrefixes : List (List Char) := [['/'], ['~'], ['\\', '\\']]

def pathViolation (i : ℕ) (what : String) : ScanFinding where
  code := "PATH_VIOLATION"
  severity := .critical
  message := "support_files[" ++ toString i ++ "].path" ++ what
  fatal := true
  locator := "data.support_files[" ++ toString i ++ "].path"

def pathProblem (env : TextEnv) (path role : String) : Option String :=
  let cs := path.toList
  let found (p : Pattern) : Bool := (p.search env.chars cs).isSome
  let named := "=" ++ env.repr path
  if cs.any fun c => 128 ≤ c.toNat then some (named ++ " contains non-ASCII characters")
  else if forbiddenAbsPrefixes.any (·.isPrefixOf cs) || windowsAbsRe.matches env.chars cs then
    some (named ++ " is absolute or targets a system path")
  else if found pathTraversalRe then some (named ++ " contains '..' traversal")
  else if found hiddenSegmentRe then some (named ++ " contains a hidden segment")
  else if ((cs.map fun c => if c = '\\' then '/' else c).splitOn '/').any (· = ['.']) then
    some (named ++ " contains a bare '.' component")
  else if found binaryExtRe then
    some (named ++ " has a binary executable extension " ++
      "and cannot be safety-audited; only text scripts are permitted")
  else if found scriptExtRe && !scriptRoles.contains role then
    some (named ++ " has an executable extension but role=" ++ env.repr role ++
      " (not in ['command', 'exec', 'script', 'scripts']). Move to role='scripts' or rename.")
  else none

def scanPath (env : TextEnv) (i : ℕ) (sf : Json) : Option (List ScanFinding) :=
  match sf with
  | .obj fields =>
    match (Dict.get fields "path").asStr with
    | some path =>
      if path = "" then some [pathViolation i " missing or not a string"]
      else do
        let role ← roleOf env fields
        some (((pathProblem env path role).map (pathViolation i)).toList)
    | none => some [pathViolation i " missing or not a string"]
  | _ =>
    some [{ code := "PATH_VIOLATION"
            severity := .critical
            message := "support_files[" ++ toString i ++ "] is not a dict"
            fatal := true
            locator := "data.support_files[" ++ toString i ++ "]" }]

def piiPatterns : List (String × Pattern) :=
  [("SSN", ⟨r"\b(?!000|666|9\d\d)\d{3}[- ]?(?!00)\d{2}[- ]?(?!0000)\d{4}\b", .none⟩),
    ("CC", ⟨r"\b(?:4\d{3}|5[1-5]\d{2}|3[47]\d{2}|6011)[- ]?\d{4}[- ]?\d{4}[- ]?\d{1,4}\b", .none⟩),
    ("PHONE", ⟨r"(?:^|[^\d])(?:\(\d{3}\)\s?|\d{3}[- .])\d{3}[- .]\d{4}\b", .none⟩),
    ("EMAIL", ⟨r"\b[A-Za-z0-9._%+-]+@[A-Za-z0-9.-]+\.[A-Za-z]{2,}\b", .none⟩)]

def scanPii (env : TextEnv) (text fieldName : String) : List ScanFinding :=
  piiPatterns.filterMap fun (kind, p) =>
    (p.search env.chars text.toList).map fun m =>
      { code := "PII_" ++ kind
        severity := .warn
        message := "possible PII (" ++ kind ++ ") in data." ++ fieldName
        locator := "data." ++ fieldName ++ spanText m }

def strItems : Json → Option (List String)
  | .arr items => some (items.filterMap Json.asStr)
  | _ => none

def memoryIds : Json → Option (List String)
  | .obj fields => strItems (Dict.get fields "memory_ids")
  | _ => none

def scanMemoryIdStuffing (evidence : Json) : List ScanFinding :=
  match memoryIds evidence with
  | some mids =>
    let unique := mids.eraseDups.length
    if maxMemoryIdsBeforeWarn < unique then
      [{ code := "MEMORY_ID_STUFFING"
         severity := .warn
         message := "evidence.memory_ids has " ++ toString unique ++ " unique cites (> " ++
           toString maxMemoryIdsBeforeWarn ++ " cap); inbox renderer will truncate"
         locator := "data.evidence.memory_ids" }]
    else []
  | none => []

def bytesLen (text : String) : ℕ := (encodeUtf8 text.toList).length

/-- A text without lone surrogates; the codec refuses the others. -/
def TextEnv.encodes (env : TextEnv) (text : String) : Bool := !text.toList.any env.surrogate

def byteSize : Json → ℕ
  | .str s => bytesLen s
  | _ => 0

def utf8Len (env : TextEnv) : Json → Option ℕ
  | .str s => if env.encodes s then some (bytesLen s) else none
  | _ => some 0

def sizeFinding (code name : String) (size : ℕ) (cap : Int) : List ScanFinding :=
  if cap < size then
    [{ code := code
       severity := .critical
       message := "data." ++ name ++ " size " ++ toString size ++ " bytes exceeds cap " ++
         toString cap ++ "; refuse the write"
       fatal := true
       locator := "data." ++ name }]
  else []

def scanSizes (env : TextEnv) (caps : Caps) (data : Dict) : Option (List ScanFinding) := do
  let bodySize ← utf8Len env (Dict.get data "content")
  let descSize ← utf8Len env (Dict.get data "description")
  some (sizeFinding "BODY_TOO_LARGE" "content" bodySize caps.bodyMaxBytes ++
    sizeFinding "DESCRIPTION_TOO_LARGE" "description" descSize caps.descriptionMaxBytes)

def scanText (env : TextEnv) (text fieldName : String) : List ScanFinding :=
  if text = "" then [] else scanPromptInjection env text fieldName ++ scanPii env text fieldName

/-- The text checks of a field; a value that is neither a text nor false raises. -/
def scanField (env : TextEnv) (data : Dict) (fieldName : String) : Option (List ScanFinding) :=
  (Dict.get data fieldName).textOrFalse.map fun text => scanText env (text.getD "") fieldName

def scanEvidence (env : TextEnv) (evidence : Json) : List ScanFinding :=
  match evidence with
  | .str text => scanText env text "evidence"
  | .obj fields =>
    (iterEvidenceStrings "evidence" 0 (.obj fields)).flatMap fun (locator, text) =>
      scanText env text (dropStart "evidence." locator)
  | _ => []

def scanEach (check : ℕ → Json → Option (List ScanFinding)) : ℕ → List Json → Option (List ScanFinding)
  | _, [] => some []
  | i, sf :: rest => do
    let here ← check i sf
    let later ← scanEach check (i + 1) rest
    some (here ++ later)

def scanSupportFiles (env : TextEnv) (supportFiles : Json) : Option (List ScanFinding) :=
  match supportFiles with
  | .arr items => do
    let bodies ← scanEach (scanSupportFile env) 0 items
    let paths ← scanEach (scanPath env) 0 items
    some (bodies ++ paths)
  | _ => some []

/-- The findings of the eight checks in their order; nothing where the scan raises. -/
def scanFindings (env : TextEnv) (caps : Caps) (data : Dict) : Option (List ScanFinding) := do
  let content ← scanField env data "content"
  let description ← scanField env data "description"
  let summary ← scanField env data "summary"
  let goal ← scanField env data "goal"
  let supportFiles ← scanSupportFiles env (Dict.get data "support_files")
  let sizes ← scanSizes env caps data
  let evidence := Dict.get data "evidence"
  some (content ++ description ++ summary ++ goal ++ scanEvidence env evidence ++ supportFiles ++
    scanMemoryIdStuffing evidence ++ sizes)

def countSeverity (severity : Severity) (findings : List ScanFinding) : ℕ :=
  findings.countP fun f => f.severity = severity

def ScanResult.ofFindings (scannedAt : String) (findings : List ScanFinding) : ScanResult where
  state :=
    if findings.any ScanFinding.fatal || 0 < countSeverity .critical findings then .quarantined
    else .clean
  scannedAt := scannedAt
  critical := countSeverity .critical findings
  warn := countSeverity .warn findings
  info := countSeverity .info findings
  findings := findings

def scanSkillDoc (env : TextEnv) (caps : Caps) (scannedAt : String) (data : Dict) :
    Option ScanResult :=
  (scanFindings env caps data).map (ScanResult.ofFindings scannedAt)

end Memclaw.Skills
