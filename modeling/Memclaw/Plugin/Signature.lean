import Memclaw.Lib.Json
import Memclaw.Lib.JsonTree

/-! Signatures of the commands that a heartbeat brings: what one signature can stand for. -/

namespace Memclaw.Plugin.Signature

open Lib JsonText

def isSafeUnit (u : UInt16) : Bool :=
  isDigit u || (65 ≤ u && u ≤ 90) || (97 ≤ u && u ≤ 122) || u = 95 || u = 45

def isValidSafeId (value : Utf16) : Bool :=
  1 ≤ value.length && value.length ≤ 128 && value.all isSafeUnit

def knownCommands : List Utf16 :=
  [utf16 "deploy", utf16 "update_plugin", utf16 "educate", utf16 "interview_request", utf16 "ping",
    utf16 "restart"]

def utf8 (s : Utf16) : Sha256.Bytes := encodeUtf8 (toChars s)

/-- `createHmac("sha256", key).update(message).digest()` -/
def createHmac (key message : Sha256.Bytes) : Sha256.Bytes :=
  let key := if 64 < key.length then Sha256.sha256 key else key
  let block := key ++ List.replicate (64 - key.length) 0
  Sha256.sha256 (block.map (· ^^^ 0x5c) ++ Sha256.sha256 (block.map (· ^^^ 0x36) ++ message))

def toHex (bytes : Sha256.Bytes) : Utf16 :=
  bytes.flatMap fun b => [hexUnit (b.toNat / 16), hexUnit (b.toNat % 16)]

def fromHex : Utf16 → Sha256.Bytes
  | a :: b :: s =>
    match hexValue a, hexValue b with
    | some x, some y => UInt8.ofNat (x * 16 + y) :: fromHex s
    | _, _ => []
  | _ => []

structure Command where
  id : Utf16
  command : Utf16
  payload : Option Js
  timestamp : Option Utf16
  signature : Option Utf16

def truthy : Js → Bool
  | .null => false
  | .bool b => b
  | .number (.finite x) => x.mant ≠ 0
  | .number (.infinite _) => true
  | .number .nan => false
  | .string s => s ≠ []
  | .array _ => true
  | .object _ => true

def given (s : Option Utf16) : Option Utf16 := s.filter (· ≠ [])

section Command

variable (cmd : Command)

def Command.sent : Option Js := cmd.payload.filter truthy

def Command.payloadStr : Utf16 := (cmd.sent.map Js.stringify).getD []

def Command.hmacInput (timestamp : Utf16) : Utf16 :=
  cmd.id ++ 58 :: (cmd.command ++ 58 :: (timestamp ++ 58 :: cmd.payloadStr))

end Command

structure Verdict where
  valid : Bool
  reason : Option String
deriving DecidableEq

def rejected (reason : String) : Verdict := ⟨false, some reason⟩

def COMMAND_SIGNATURE_MAX_AGE_MS : ℤ := 120000

/-- `verifyCommandSignature` at the time `now`; `getTime` is what `new Date(text).getTime()` gives,
nothing where it is NaN. -/
def verifyCommandSignature (getTime : Utf16 → Option ℤ) (now : ℤ) (cmd : Command) (secretKey : Utf16)
    (requireSigned : Bool) : Verdict :=
  if secretKey = [] then
    if (given cmd.signature).isSome then rejected "no_secret_configured_but_signature_present"
    else ⟨true, some "no_secret_configured"⟩
  else
    match given cmd.signature with
    | none =>
      if requireSigned then rejected "missing_signature"
      else ⟨true, some "unsigned_accepted_permissive"⟩
    | some signature =>
      match given cmd.timestamp with
      | none => rejected "missing_timestamp"
      | some timestamp =>
        match getTime timestamp with
        | none => rejected "invalid_timestamp"
        | some cmdTime =>
          if COMMAND_SIGNATURE_MAX_AGE_MS < |now - cmdTime| then rejected "expired_timestamp"
          else
            let expected := toHex (createHmac (utf8 secretKey) (utf8 (cmd.hmacInput timestamp)))
            if fromHex signature = fromHex expected then ⟨true, none⟩
            else rejected "invalid_signature"

theorem fromHex_toHex (bytes : Sha256.Bytes) : fromHex (toHex bytes) = bytes := by
  induction bytes with
  | nil => rfl
  | cons b bytes ih =>
    have hb : b.toNat < 256 := b.toNat_lt
    have hsum : b.toNat / 16 * 16 + b.toNat % 16 = b.toNat := by omega
    rw [toHex, List.flatMap_cons, ← toHex]
    change fromHex (hexUnit (b.toNat / 16) :: hexUnit (b.toNat % 16) :: toHex bytes) = _
    rw [fromHex, hexValue_hexUnit _ (by omega), hexValue_hexUnit _ (by omega)]
    dsimp only
    rw [hsum, UInt8.ofNat_toNat, ih]

theorem createHmac_length (key message : Sha256.Bytes) : (createHmac key message).length = 32 :=
  Sha256.sha256_length _

theorem toHex_ne_nil {bytes : Sha256.Bytes} (h : 0 < bytes.length) : toHex bytes ≠ [] := by
  obtain ⟨b, bytes, rfl⟩ := List.exists_cons_of_length_pos h
  exact List.cons_ne_nil _ _

theorem given_eq_some {s : Option Utf16} {t : Utf16} : given s = some t ↔ s = some t ∧ t ≠ [] := by
  rw [given, Option.filter_eq_some_iff, decide_eq_true_eq]

section Accepted

variable {getTime : Utf16 → Option ℤ} {now : ℤ} {cmd : Command} {secretKey signature : Utf16}
  {requireSigned : Bool}

theorem verify_valid_iff (hsignature : cmd.signature = some signature) (hne : signature ≠ []) :
    (verifyCommandSignature getTime now cmd secretKey requireSigned).valid = true ↔
      secretKey ≠ [] ∧ ∃ timestamp cmdTime, cmd.timestamp = some timestamp ∧ timestamp ≠ [] ∧
        getTime timestamp = some cmdTime ∧ |now - cmdTime| ≤ COMMAND_SIGNATURE_MAX_AGE_MS ∧
        fromHex signature = createHmac (utf8 secretKey) (utf8 (cmd.hmacInput timestamp)) := by
  rw [verifyCommandSignature, given_eq_some.mpr ⟨hsignature, hne⟩]
  by_cases hkey : secretKey = []
  · rw [if_pos hkey, if_pos Option.isSome_some]
    exact ⟨fun h => absurd h Bool.false_ne_true, fun h => absurd hkey h.1⟩
  rw [if_neg hkey]
  dsimp only
  constructor
  · intro h
    refine ⟨hkey, ?_⟩
    cases htimestamp : given cmd.timestamp with
    | none =>
      rw [htimestamp] at h
      cases h
    | some timestamp =>
      obtain ⟨hsome, htext⟩ := given_eq_some.mp htimestamp
      rw [htimestamp] at h
      cases htime : getTime timestamp with
      | none =>
        simp only [htime] at h
        cases h
      | some cmdTime =>
        simp only [htime] at h
        split_ifs at h with hage hmac
        · cases h
        · rw [fromHex_toHex] at hmac
          exact ⟨timestamp, cmdTime, hsome, htext, htime, Int.not_lt.mp hage, hmac⟩
        · cases h
  · rintro ⟨-, timestamp, cmdTime, hsome, htext, htime, hage, hmac⟩
    rw [given_eq_some.mpr ⟨hsome, htext⟩]
    simp only [htime]
    rw [if_neg (Int.not_lt.mpr hage), fromHex_toHex, if_pos hmac]

end Accepted

theorem sealed_payloadStr (cmd : Command) : Sealed cmd.payloadStr := by
  rw [Command.payloadStr]
  cases cmd.sent with
  | none => exact sealed_nil
  | some v => exact sealed_stringify v

theorem stringify_ne_nil (v : Js) : v.stringify ≠ [] := List.ne_nil_of_length_pos (text_pos v)

theorem payloadStr_inj {a b : Command} (h : a.payloadStr = b.payloadStr) :
    a.sent.map Js.reread = b.sent.map Js.reread := by
  rw [Command.payloadStr, Command.payloadStr] at h
  cases ha : a.sent with
  | none =>
    cases hb : b.sent with
    | none => rfl
    | some w =>
      rw [ha, hb] at h
      exact absurd h.symm (stringify_ne_nil w)
  | some v =>
    cases hb : b.sent with
    | none =>
      rw [ha, hb] at h
      exact absurd h (stringify_ne_nil v)
    | some w =>
      rw [ha, hb] at h
      exact congrArg some (reread_eq_of_stringify h)

/-- A text of units that neither pair up nor separate fields. -/
def Field (s : Utf16) : Prop := s.all (fun u => !isHigh u && !isLow u && u ≠ 58) = true

theorem Field.paired {s : Utf16} (h : Field s) : Paired s :=
  paired_plain fun u hu => by
    have hall := List.all_eq_true.mp h u hu
    simp only [Bool.and_eq_true, Bool.not_eq_true'] at hall
    exact hall.1

theorem Field.no_colon {s : Utf16} (h : Field s) : (58 : UInt16) ∉ s := fun hmem => by
  have hall := List.all_eq_true.mp h 58 hmem
  cases hall

theorem field_of_safe {s : Utf16} (h : isValidSafeId s = true) : Field s := by
  rw [isValidSafeId, Bool.and_eq_true, List.all_eq_true] at h
  refine List.all_eq_true.mpr fun u hu => ?_
  have hunit := h.2 u hu
  have hrange : (48 ≤ u.toNat ∧ u.toNat ≤ 57) ∨ u.toNat = 45 ∨ (65 ≤ u.toNat ∧ u.toNat ≤ 122) := by
    simp only [isSafeUnit, isDigit, Bool.or_eq_true, Bool.and_eq_true, decide_eq_true_eq,
      UInt16.le_iff_toNat_le] at hunit
    rcases hunit with (((hdigit | hupper) | hlower) | rfl) | rfl
    · exact .inl hdigit
    · exact .inr (.inr ⟨hupper.1, Nat.le_trans hupper.2 (by decide)⟩)
    · exact .inr (.inr ⟨Nat.le_trans (by decide) hlower.1, hlower.2⟩)
    · exact .inr (.inr (by decide))
    · exact .inr (.inl rfl)
  have hcolon : u ≠ 58 := by
    rintro rfl
    revert hrange
    decide
  have hplain : isHigh u = false ∧ isLow u = false := by
    rw [Bool.eq_false_iff, Bool.eq_false_iff, ne_eq, ne_eq, isHigh_iff, isLow_iff]
    omega
  rw [hplain.1, hplain.2, decide_eq_true hcolon]
  rfl

theorem field_of_known {s : Utf16} (h : s ∈ knownCommands) : Field s := by
  have hall : knownCommands.all (fun s => s.all fun u => !isHigh u && !isLow u && u ≠ 58) = true := by
    decide
  exact List.all_eq_true.mp hall s h

theorem hmacInput_inj {a b : Command} {t t' : Utf16} (hida : Field a.id) (hidb : Field b.id)
    (hca : Field a.command) (hcb : Field b.command)
    (h : utf8 (a.hmacInput t) = utf8 (b.hmacInput t')) :
    a.id = b.id ∧ a.command = b.command ∧ toChars t = toChars t' ∧
      a.sent.map Js.reread = b.sent.map Js.reread := by
  have hchars : toChars (a.hmacInput t) = toChars (b.hmacInput t') := encodeUtf8_injective h
  obtain ⟨hid, hrest⟩ := hida.paired.cut_first hidb.paired hida.no_colon hidb.no_colon hchars
  obtain ⟨hcommand, hrest⟩ := hca.paired.cut_first hcb.paired hca.no_colon hcb.no_colon hrest
  obtain ⟨htimestamp, hpayload⟩ := (sealed_payloadStr a).cut_last (sealed_payloadStr b) hrest
  exact ⟨hid, hcommand, htimestamp, payloadStr_inj hpayload⟩

/-- Two messages with one code under a key are one message. -/
def NoCollision (key message message' : Sha256.Bytes) : Prop :=
  createHmac key message = createHmac key message' → message = message'

section Binding

variable (getTime : Utf16 → Option ℤ) (now : ℤ) (secretKey : Utf16) (requireSigned : Bool)
  (signature : Utf16)

/-- A command that `processCommand` acts on for its signature. -/
structure Accepted (cmd : Command) : Prop where
  carries : cmd.signature = some signature
  ne_nil : signature ≠ []
  safe : isValidSafeId cmd.id = true
  known : cmd.command ∈ knownCommands
  valid : (verifyCommandSignature getTime now cmd secretKey requireSigned).valid = true

variable {getTime now secretKey requireSigned signature} {now' : ℤ} {requireSigned' : Bool}
  {a b : Command}

/-- Two commands with one signature are the same up to what is lost in writing a payload or a
timestamp: the sign of a zero, which numbers are not finite, and which lone surrogates there are. -/
theorem signature_binds (ha : Accepted getTime now secretKey requireSigned signature a)
    (hb : Accepted getTime now' secretKey requireSigned' signature b)
    (hmac : ∀ t ∈ a.timestamp, ∀ t' ∈ b.timestamp,
      NoCollision (utf8 secretKey) (utf8 (a.hmacInput t)) (utf8 (b.hmacInput t'))) :
    a.id = b.id ∧ a.command = b.command ∧ a.timestamp.map toChars = b.timestamp.map toChars ∧
      a.sent.map Js.reread = b.sent.map Js.reread := by
  obtain ⟨-, t, -, ht, -, -, -, hmaca⟩ := (verify_valid_iff ha.carries ha.ne_nil).mp ha.valid
  obtain ⟨-, t', -, ht', -, -, -, hmacb⟩ := (verify_valid_iff hb.carries hb.ne_nil).mp hb.valid
  have htext := hmac t ht t' ht' (hmaca.symm.trans hmacb)
  obtain ⟨hid, hcommand, htimestamp, hpayload⟩ := hmacInput_inj (field_of_safe ha.safe)
    (field_of_safe hb.safe) (field_of_known ha.known) (field_of_known hb.known) htext
  refine ⟨hid, hcommand, ?_, hpayload⟩
  rw [ht, ht', Option.map_some, Option.map_some, htimestamp]

end Binding

section Lost

def secret : Utf16 := utf16 "key"

def newYear : ℤ := 1767225600000

def deployOf (payload : Js) (timestamp : Utf16) : Command :=
  ⟨utf16 "cmd-1", utf16 "deploy", some payload, some timestamp, none⟩

def signatureOf (payload : Js) (timestamp : Utf16) : Utf16 :=
  toHex (createHmac (utf8 secret) (utf8 ((deployOf payload timestamp).hmacInput timestamp)))

def signed (payload : Js) (timestamp : Utf16) : Command :=
  { deployOf payload timestamp with signature := some (signatureOf payload timestamp) }

theorem accepted_signed (payload : Js) {timestamp : Utf16} (htext : timestamp ≠ []) :
    Accepted (fun _ => some newYear) newYear secret true (signatureOf payload timestamp)
      (signed payload timestamp) := by
  have hne : signatureOf payload timestamp ≠ [] := toHex_ne_nil (by rw [createHmac_length]; decide)
  have hsafe : isValidSafeId (utf16 "cmd-1") = true := by decide
  refine ⟨rfl, hne, hsafe, List.mem_cons_self, (verify_valid_iff rfl hne).mpr
    ⟨by decide, timestamp, newYear, rfl, htext, rfl, ?_, fromHex_toHex _⟩⟩
  rw [Int.sub_self]
  decide

def infinitePayload : Js := .object [(utf16 "n", .number (.infinite false))]

def nullPayload : Js := .object [(utf16 "n", .null)]

def plainDate : Utf16 := utf16 "2026-01-01T00:00:00Z"

def commentedDate (comment : UInt16) : Utf16 :=
  utf16 "Thu, 01 Jan 2026 00:00:00 GMT (" ++ [comment, 41]

/-- One signature serves two payloads, and one serves two timestamps. -/
theorem payload_and_timestamp_lost :
    (∃ signature, Accepted (fun _ => some newYear) newYear secret true signature
        (signed infinitePayload plainDate) ∧
      Accepted (fun _ => some newYear) newYear secret true signature (signed nullPayload plainDate) ∧
      (signed infinitePayload plainDate).sent ≠ (signed nullPayload plainDate).sent) ∧
    ∃ signature, Accepted (fun _ => some newYear) newYear secret true signature
        (signed nullPayload (commentedDate 0xD800)) ∧
      Accepted (fun _ => some newYear) newYear secret true signature
        (signed nullPayload (commentedDate 0xDBFF)) ∧
      (signed nullPayload (commentedDate 0xD800)).timestamp ≠
        (signed nullPayload (commentedDate 0xDBFF)).timestamp := by
  have hpayload : signatureOf infinitePayload plainDate = signatureOf nullPayload plainDate := by
    rw [signatureOf, signatureOf]
    rfl
  have htimestamp : signatureOf nullPayload (commentedDate 0xD800) =
      signatureOf nullPayload (commentedDate 0xDBFF) := by
    have hchars : toChars ((deployOf nullPayload (commentedDate 0xD800)).hmacInput
        (commentedDate 0xD800)) = toChars ((deployOf nullPayload (commentedDate 0xDBFF)).hmacInput
          (commentedDate 0xDBFF)) := by decide
    rw [signatureOf, signatureOf, utf8, utf8, utf8, hchars]
  refine ⟨⟨_, accepted_signed infinitePayload (by decide), ?_, ?_⟩,
    ⟨_, accepted_signed nullPayload (by decide), ?_, by decide⟩⟩
  · rw [hpayload]
    exact accepted_signed nullPayload (by decide)
  · intro h
    cases h
  · rw [htimestamp]
    exact accepted_signed nullPayload (by decide)

/-- The two payloads are one when they are read again. -/
theorem signature_binds_payloads :
    (signed infinitePayload plainDate).id = (signed nullPayload plainDate).id ∧
    (signed infinitePayload plainDate).command = (signed nullPayload plainDate).command ∧
    (signed infinitePayload plainDate).timestamp.map toChars =
      (signed nullPayload plainDate).timestamp.map toChars ∧
    (signed infinitePayload plainDate).sent.map Js.reread =
      (signed nullPayload plainDate).sent.map Js.reread := by
  have hsignature : signatureOf nullPayload plainDate = signatureOf infinitePayload plainDate := by
    rw [signatureOf, signatureOf]
    rfl
  have hnull := accepted_signed nullPayload (by decide : plainDate ≠ [])
  rw [hsignature] at hnull
  refine signature_binds (accepted_signed infinitePayload (by decide)) hnull fun t ht t' ht' _ => ?_
  obtain rfl := Option.some.inj ht
  obtain rfl := Option.some.inj ht'
  rfl

end Lost

end Memclaw.Plugin.Signature
