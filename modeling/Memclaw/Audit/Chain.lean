import Mathlib.Data.Set.Function
import Memclaw.Audit.StoreDefs
import Memclaw.Lib.FixedWidth
import Memclaw.Lib.Json

/-! What the canonical bytes of an event determine, and what survives the trip of
its values through the database columns. -/

namespace Memclaw.Audit

open Memclaw.Lib Memclaw.Lib.Sha256

structure SameCanonical (chars : CharData) (f g : EventFields) : Prop where
  tenantId : f.tenantId = g.tenantId
  seq : f.seq = g.seq
  agentId : f.agentId = g.agentId
  action : f.action = g.action
  resourceType : f.resourceType = g.resourceType
  resourceId : canonicalResourceId chars f.resourceId = canonicalResourceId chars g.resourceId
  detail : (normaliseNumbers f.detail).sortKeys = (normaliseNumbers g.detail).sortKeys
  createdAtIso : f.createdAtIso = g.createdAtIso

theorem optionalStr_injective : Function.Injective optionalStr := by
  intro a b h
  cases a <;> cases b <;> simp_all [optionalStr]

theorem sortKeys_optionalStr (s : Option String) : (optionalStr s).sortKeys = optionalStr s := by
  cases s <;> rfl

theorem sortKeys_eventObject (chars : CharData) (f : EventFields) :
    (eventObject chars f).sortKeys = .obj [
      ("action", .str f.action),
      ("agent_id", optionalStr f.agentId),
      ("created_at", .str f.createdAtIso),
      ("detail", (normaliseNumbers f.detail).sortKeys),
      ("resource_id", optionalStr (canonicalResourceId chars f.resourceId)),
      ("resource_type", .str f.resourceType),
      ("seq", .int f.seq),
      ("tenant_id", .str f.tenantId)] := by
  simp [eventObject, Json.sortKeys, Json.sortFields, Json.insertByKey, Json.textLt,
    sortKeys_optionalStr]

theorem canonicalEvent_eq_iff (chars : CharData) (f g : EventFields) :
    canonicalEvent chars f = canonicalEvent chars g ↔ SameCanonical chars f g := by
  have hbytes : canonicalEvent chars f = canonicalEvent chars g ↔
      (eventObject chars f).sortKeys = (eventObject chars g).sortKeys :=
    ⟨fun h => Json.render_injective (encodeUtf8_injective h), fun h => by
      rw [canonicalEvent, canonicalEvent, Json.dumps, Json.dumps, h]⟩
  rw [hbytes, sortKeys_eventObject, sortKeys_eventObject]
  constructor
  · intro h
    simp only [Json.obj.injEq, List.cons.injEq, Prod.mk.injEq, Json.str.injEq, Json.int.injEq,
      true_and, and_true, optionalStr_injective.eq_iff] at h
    obtain ⟨haction, hagent, hcreated, hdetail, hid, htype, hseq, htenant⟩ := h
    exact ⟨htenant, hseq, hagent, haction, htype, hid, hdetail, hcreated⟩
  · intro h
    rw [h.action, h.agentId, h.createdAtIso, h.detail, h.resourceId, h.resourceType, h.seq,
      h.tenantId]

@[simp] theorem genesisPrevHash_length : genesisPrevHash.length = 32 := rfl

@[simp] theorem computeEventHash_length (canonical prevHash : Bytes) :
    (computeEventHash canonical prevHash).length = 32 := sha256_length _

/-- The previous hash has a fixed width, so the hashed bytes split in one way only. -/
theorem computeEventHash_binds {s : Set Bytes} (hinj : Set.InjOn sha256 s) {c c' p p' : Bytes}
    (hmem : c ++ p ∈ s) (hmem' : c' ++ p' ∈ s) (hlen : p.length = p'.length)
    (h : computeEventHash c p = computeEventHash c' p') : c = c' ∧ p = p' :=
  List.append_inj' (hinj hmem hmem' h) hlen

/-- The decimal that `repr` printed without a fraction is the float itself, not only the
shortest decimal that rounds to it. -/
def PrintedExactly (x : Binary64) : Prop :=
  0 ≤ x.printed.2 → x.printed.1 * 10 ^ x.printed.2.toNat = x.natAbs

instance (x : Binary64) : Decidable (PrintedExactly x) :=
  inferInstanceAs
    (Decidable (0 ≤ x.printed.2 → x.printed.1 * 10 ^ x.printed.2.toNat = x.natAbs))

def JsonbExact (detail : Json) : Prop :=
  ∀ x, .finite x ∈ detail.floatLeaves → PrintedExactly x

theorem sortKeys_normaliseFloat (x : PyFloat) : (normaliseFloat x).sortKeys = normaliseFloat x := by
  unfold normaliseFloat
  split
  · split_ifs <;> rfl
  · rfl

theorem isInteger_of_mant_eq_zero {x : Binary64} (h : x.mant = 0) :
    x.isInteger = true ∧ x.toInt = 0 := by
  have hnum : x.num = 0 := by simp [Binary64.num, h]
  simp [Binary64.isInteger, Binary64.toInt, Binary64.natAbs, hnum]

theorem mant_eq_zero_of_ofDecimal {neg : Bool} {k : ℤ} {x : Binary64}
    (h : Binary64.ofDecimal neg 0 k = some x) : x.mant = 0 := by
  simp only [Binary64.ofDecimal, zero_mul, Binary64.ofFrac, if_true] at h
  exact (Binary64.mk?_eq_some h).2.1

theorem normalise_jsonbFloat {x : Binary64} (hexact : PrintedExactly x) :
    (Json.jsonbFloat x).mapFloats normaliseFloat = normaliseFloat (.finite x) := by
  have hround := Binary64.printed_rounds x
  by_cases hk : 0 ≤ x.printed.2
  · -- an int comes back, and it is the one the float stands for
    have hint := Binary64.isInteger_of_printed_nonneg hk
    have habs := hexact hk
    simp only [Json.jsonbFloat, if_pos hk, Json.mapFloats, normaliseFloat, hint, if_true, habs,
      Binary64.toInt, Json.int.injEq]
    by_cases hzero : x.printed.1 = 0
    · rw [hzero, zero_mul] at habs
      simp [← habs]
    · simp [hzero]
  · -- the same float comes back, except for the sign of a zero
    by_cases hzero : x.printed.1 = 0
    · rw [hzero] at hround
      obtain ⟨hint, htoInt⟩ := isInteger_of_mant_eq_zero (mant_eq_zero_of_ofDecimal hround)
      simp only [Json.jsonbFloat, if_neg hk, hzero, bne_self_eq_false, Bool.and_false,
        normaliseFloat, hint, if_true, htoInt]
      split
      · rename_i y hy
        obtain ⟨hint', htoInt'⟩ := isInteger_of_mant_eq_zero (mant_eq_zero_of_ofDecimal hy)
        simp only [Json.mapFloats, normaliseFloat, hint', if_true, htoInt']
      · simp only [Json.mapFloats, normaliseFloat, hint, if_true, htoInt]
    · have hneg : (x.neg && x.printed.1 != 0) = x.neg := by simp [hzero]
      simp only [Json.jsonbFloat, if_neg hk, hneg, hround, Json.mapFloats]

theorem normalise_jsonbNumbers {detail : Json} (hexact : JsonbExact detail) :
    normaliseNumbers detail.jsonbNumbers = normaliseNumbers detail := by
  rw [normaliseNumbers, normaliseNumbers, Json.jsonbNumbers, Json.mapFloats_mapFloats]
  apply Json.mapFloats_congr
  intro x hx
  cases x with
  | finite x => exact normalise_jsonbFloat (hexact x hx)
  | infinite neg => rfl
  | nan => rfl

/-- What the columns promise of a value they accept: a UUID column stores the UUID that
its text denotes, and a JSONB column gives the document back, its numbers as `numeric`
prints them and its keys in an order of its own. -/
structure Columns.Documented (chars : CharData) (columns : Columns) : Prop where
  uuid : ∀ s u, columns.uuid s = some u → Uuid.ofText chars s.toList = some u
  jsonb : ∀ j j', columns.jsonb j = some j' → j'.sortKeys = j.jsonbNumbers.sortKeys

variable {chars : CharData} {columns : Columns}

theorem Columns.Documented.detail (hdoc : columns.Documented chars) {j j' : Json}
    (hstore : columns.jsonb j = some j') (hexact : JsonbExact j) :
    (normaliseNumbers j').sortKeys = (normaliseNumbers j).sortKeys := by
  calc
    (normaliseNumbers j').sortKeys = normaliseNumbers j'.sortKeys :=
      Json.sortKeys_mapFloats sortKeys_normaliseFloat j'
    _ = normaliseNumbers j.jsonbNumbers.sortKeys := by rw [hdoc.jsonb j j' hstore]
    _ = (normaliseNumbers j.jsonbNumbers).sortKeys :=
      (Json.sortKeys_mapFloats sortKeys_normaliseFloat _).symm
    _ = (normaliseNumbers j).sortKeys := by rw [normalise_jsonbNumbers hexact]

theorem Columns.Documented.resourceId (hdoc : columns.Documented chars) {r r' : Option ResourceId}
    (hstore : columns.storeResourceId r = some r') :
    canonicalResourceId chars r' = canonicalResourceId chars r := by
  unfold storeResourceId at hstore
  split at hstore
  · cases hstore; rfl
  · cases hstore; rfl
  · rename_i s
    obtain ⟨u, hu, rfl⟩ := Option.map_eq_some_iff.mp hstore
    have htext := hdoc.uuid s u hu
    have hne : s ≠ "" := by
      rintro rfl
      cases htext
    simp only [canonicalResourceId, if_neg hne, htext]

theorem Columns.store_eq_some {row stored : AuditLog} (h : columns.store row = some stored) :
    columns.storesTexts row = true ∧ ∃ r d, columns.storeResourceId row.resourceId = some r ∧
      columns.jsonb row.detail = some d ∧ stored = { row with resourceId := r, detail := d } := by
  unfold store at h
  split_ifs at h with htext
  split at h
  · exact ⟨htext, _, _, ‹_›, ‹_›, (Option.some.inj h).symm⟩
  · cases h

/-- A stored row hashes to what its event hashed to. -/
theorem Columns.Documented.canonicalEvent (hdoc : columns.Documented chars) {row stored : AuditLog}
    (hstore : columns.store row = some stored) (hexact : JsonbExact row.detail) (seq : ℤ) :
    canonicalEvent chars (stored.fields seq) = canonicalEvent chars (row.fields seq) := by
  obtain ⟨-, r, d, hr, hd, rfl⟩ := store_eq_some hstore
  rw [canonicalEvent_eq_iff]
  exact ⟨rfl, rfl, rfl, rfl, rfl, hdoc.resourceId hr, hdoc.detail hd hexact, rfl⟩

end Memclaw.Audit
