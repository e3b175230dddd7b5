import Memclaw.Lib.Interleave
import Memclaw.Lib.JsonTree
import Memclaw.Plugin.Keystones

/-! The cache in front of the keystone rules (`keystones.ts`): calls for one identity share a fetch,
an invalidation starts a new generation, and what a fetch gave is kept for a while, a failure for a
shorter one. -/

namespace Memclaw.Plugin.KeystoneCache

open Memclaw.Lib Memclaw.Lib.JsonText
open Memclaw.Plugin.Keystones (KeystoneRow formatKeystones)

variable {W : Type} [LinearOrder W] [Zero W]

structure CacheConfig where
  enabled : Bool
  ttlMs : ℤ
  tokenCap : ℕ

def FAILURE_BACKOFF_MS : ℤ := 15000

structure Opts where
  agentId : Utf16
  fleetId : Option Utf16
deriving DecidableEq

def keyOf (first : Utf16) (opts : Opts) : Utf16 :=
  (Js.array
    [.string first, .string opts.agentId, (opts.fleetId.map Js.string).getD .null]).stringify

def cacheKey (tenantId : Utf16) (opts : Opts) : Utf16 := keyOf tenantId opts

def tenantFail : Utf16 := 0 :: utf16 "tenantFail"

def tenantFailKey (opts : Opts) : Utf16 := keyOf tenantFail opts

def keystonesQuery (tenantId : Utf16) (opts : Opts) : List (String × Utf16) :=
  ("tenant_id", tenantId) ::
    match opts.fleetId with
    | none => []
    | some fleetId =>
      if fleetId = [] then []
      else ("fleet_id", fleetId) :: if opts.agentId = [] then [] else [("agent_id", opts.agentId)]

/-- What becomes of a request; `failed` is all that `_fetchAndCache` catches. -/
inductive Answer (W : Type)
  | list (rows : List (KeystoneRow W))
  | payload (rules : Option (List (KeystoneRow W)))
  | failed

def Answer.rows : Answer W → Option (List (KeystoneRow W))
  | .list rows => some rows
  | .payload rules => some (rules.getD [])
  | .failed => none

def Answer.text (cfg : CacheConfig) (answer : Answer W) : Utf16 :=
  (answer.rows.map (formatKeystones cfg.tokenCap)).getD []

structure CacheEntry where
  text : Utf16
  ts : ℤ

def negativeCacheTs (cfg : CacheConfig) (now : ℤ) : ℤ := now - cfg.ttlMs + FAILURE_BACKOFF_MS

def Answer.entry (cfg : CacheConfig) (now : ℤ) (answer : Answer W) : CacheEntry :=
  ⟨answer.text cfg, if answer.rows.isSome then now else negativeCacheTs cfg now⟩

/-- A run of `_fetchAndCache`, with the time at which the cache was found without its answer, and
the answer once it is there. -/
structure Fetch (W : Type) where
  tenantId : Utf16
  opts : Opts
  generation : ℕ
  issued : ℤ
  settled : Option (Answer W × ℤ)

def Fetch.cacheKey (f : Fetch W) : Utf16 := KeystoneCache.cacheKey f.tenantId f.opts

def Fetch.query (f : Fetch W) : List (String × Utf16) := keystonesQuery f.tenantId f.opts

/-- Where a call waits, for `ensureTenantId` or for a fetch, or what it returned. -/
inductive Stage
  | resolving
  | waiting (tenantId : Utf16) (fetch : ℕ) (owner : Bool)
  | returned (tenantId : Option Utf16) (text : Utf16)
deriving DecidableEq

/-- A call, with the number of invalidations before it. -/
structure Call where
  opts : Opts
  since : ℕ
  stage : Stage
deriving DecidableEq

/-- `MEMCLAW_TENANT_ID`, the two maps and `_cacheGeneration`, with all fetches and calls so far. -/
structure Cache (W : Type) where
  tenantId : Utf16
  entries : Utf16 → Option CacheEntry
  inflight : Utf16 → Option ℕ
  generation : ℕ
  fetches : List (Fetch W)
  calls : List Call

def Cache.start (W : Type) : Cache W := ⟨[], fun _ => none, fun _ => none, 0, [], []⟩

structure Readings where
  tenantFail : ℤ
  cached : ℤ
  sweep : ℤ

def Readings.toList (now : Readings) : List ℤ := [now.tenantFail, now.cached, now.sweep]

namespace Cache

variable (cfg : CacheConfig) (s : Cache W)

def lookup (key : Utf16) (now : ℤ) : Option Utf16 :=
  (s.entries key).bind fun e => if now - e.ts < cfg.ttlMs then some e.text else none

def store (key : Utf16) (entry : CacheEntry) : Cache W :=
  { s with entries := Function.update s.entries key (some entry) }

def sweep (now : ℤ) : Cache W :=
  { s with entries := fun key => (s.entries key).filter fun e => ¬ cfg.ttlMs < now - e.ts }

def join (tenantId : Utf16) (opts : Opts) (now : ℤ) : Cache W × Stage :=
  match s.inflight (cacheKey tenantId opts) with
  | some flying => (s, .waiting tenantId flying false)
  | none =>
    ({ s with
        inflight := Function.update s.inflight (cacheKey tenantId opts) (some s.fetches.length)
        fetches := s.fetches ++ [⟨tenantId, opts, s.generation, now, none⟩] },
      .waiting tenantId s.fetches.length true)

def proceed (tenantId : Utf16) (opts : Opts) (now : Readings) : Cache W × Stage :=
  match s.lookup cfg (cacheKey tenantId opts) now.cached with
  | some text => (s, .returned (some tenantId) text)
  | none => (s.sweep cfg now.sweep).join tenantId opts now.cached

def fetchKeystonesBlock (opts : Opts) (now : Readings) : Cache W × Stage :=
  if cfg.enabled then
    match s.lookup cfg (tenantFailKey opts) now.tenantFail with
    | some text => (s, .returned none text)
    | none => if s.tenantId = [] then (s, .resolving) else s.proceed cfg s.tenantId opts now
  else (s, .returned none [])

def resolved (tenant : Option Utf16) (opts : Opts) (now : Readings) : Cache W × Stage :=
  if tenant.getD [] = [] then
    (s.store (tenantFailKey opts) ⟨[], negativeCacheTs cfg now.tenantFail⟩, .returned none [])
  else s.proceed cfg (tenant.getD []) opts now

/-- `_fetchAndCache` behind its request: only a fetch of this generation may write. -/
def settle (n : ℕ) (f : Fetch W) (answer : Answer W) (now : ℤ) : Cache W :=
  let s' := { s with fetches := s.fetches.set n { f with settled := some (answer, now) } }
  if f.generation = s.generation then s'.store f.cacheKey (answer.entry cfg now) else s'

def release (key : Utf16) (n : ℕ) : Cache W :=
  if s.inflight key = some n then { s with inflight := Function.update s.inflight key none } else s

def invalidate : Cache W :=
  { s with generation := s.generation + 1, entries := fun _ => none, inflight := fun _ => none }

def setCall (i : ℕ) (c : Call) (next : Cache W × Stage) : Cache W :=
  { next.1 with calls := s.calls.set i { c with stage := next.2 } }

end Cache

/-- A turn of the plugin. Between its turns a call waits, and anything else may happen. -/
inductive Event (W : Type)
  | call (opts : Opts) (now : Readings)
  | resolved (i : ℕ) (tenant : Option Utf16) (now : Readings)
  | settle (n : ℕ) (answer : Answer W) (now : ℤ)
  | finish (i : ℕ)
  | invalidate
  | tenantKnown (tenantId : Utf16)

def Cache.step (cfg : CacheConfig) (s : Cache W) : Event W → Cache W
  | .call opts now =>
    { (s.fetchKeystonesBlock cfg opts now).1 with
      calls := s.calls ++ [⟨opts, s.generation, (s.fetchKeystonesBlock cfg opts now).2⟩] }
  | .resolved i tenant now =>
    match s.calls[i]? with
    | some ⟨opts, since, .resolving⟩ =>
      s.setCall i ⟨opts, since, .resolving⟩ (s.resolved cfg tenant opts now)
    | _ => s
  | .settle n answer now =>
    match s.fetches[n]? with
    | some f => if f.settled.isSome then s else s.settle cfg n f answer now
    | none => s
  | .finish i =>
    match s.calls[i]? with
    | some ⟨opts, since, .waiting tenantId n owner⟩ =>
      match (s.fetches[n]?).bind Fetch.settled with
      | some (answer, _) =>
        s.setCall i ⟨opts, since, .waiting tenantId n owner⟩
          (if owner then s.release (cacheKey tenantId opts) n else s,
            .returned (some tenantId) (answer.text cfg))
      | none => s
    | _ => s
  | .invalidate => s.invalidate
  | .tenantKnown tenantId => { s with tenantId := tenantId }

def runCache (cfg : CacheConfig) (events : List (Event W)) : Cache W :=
  Interleave.run (Cache.step cfg) (.start W) events

theorem keyOf_inj {a b : Utf16} {o o' : Opts} (h : keyOf a o = keyOf b o') : a = b ∧ o = o' := by
  obtain ⟨agent, fleet⟩ := o
  obtain ⟨agent', fleet'⟩ := o'
  have hwritten := written_eq_of_stringify h
  cases fleet with
  | none =>
    cases fleet' with
    | none =>
      injection hwritten with hitems
      injection hitems with hfirst hrest
      injection hrest with hagent
      exact ⟨Value.string.inj hfirst, congrArg (Opts.mk · none) (Value.string.inj hagent)⟩
    | some fleet' =>
      injection hwritten with hitems
      injection hitems with _ hrest
      injection hrest with _ hlast
      injection hlast with hfleet
      cases hfleet
  | some fleet =>
    cases fleet' with
    | none =>
      injection hwritten with hitems
      injection hitems with _ hrest
      injection hrest with _ hlast
      injection hlast with hfleet
      cases hfleet
    | some fleet' =>
      injection hwritten with hitems
      injection hitems with hfirst hrest
      injection hrest with hagent hlast
      injection hlast with hfleet
      exact ⟨Value.string.inj hfirst,
        congrArg₂ (fun x y => Opts.mk x (some y)) (Value.string.inj hagent)
          (Value.string.inj hfleet)⟩

section Lists

variable {α : Type} {l : List α} {a b c : α} {n m : ℕ}

theorem at_append : (l ++ [a])[n]? = some b ↔ l[n]? = some b ∨ n = l.length ∧ b = a := by
  rw [List.getElem?_append]
  split_ifs with hn
  · exact ⟨.inl, fun h => h.elim id fun h => absurd h.1 (Nat.ne_of_lt hn)⟩
  · have hnone : l[n]? = none := List.getElem?_eq_none (Nat.le_of_not_lt hn)
    rw [hnone, List.getElem?_singleton]
    constructor
    · intro h
      split_ifs at h with hzero
      exact .inr ⟨by omega, (Option.some.inj h).symm⟩
    · rintro (h | ⟨rfl, rfl⟩)
      · cases h
      · rw [if_pos (Nat.sub_self _)]

theorem at_set (ha : l[n]? = some a) :
    (l.set n b)[m]? = some c ↔ m ≠ n ∧ l[m]? = some c ∨ m = n ∧ c = b := by
  have hlt : n < l.length := (List.getElem?_eq_some_iff.mp ha).1
  by_cases hm : m = n
  · rw [hm, List.getElem?_set_self hlt]
    exact ⟨fun h => .inr ⟨rfl, (Option.some.inj h).symm⟩,
      fun h => h.elim (fun h => absurd rfl h.1) fun h => congrArg some h.2.symm⟩
  · rw [List.getElem?_set_ne fun h => hm h.symm]
    exact ⟨fun h => .inl ⟨hm, h⟩, fun h => h.elim And.right fun h => absurd h.1 hm⟩

end Lists

def Kept (fetches fetches' : List (Fetch W)) : Prop :=
  ∀ (n : ℕ) (f : Fetch W), fetches[n]? = some f → ∃ f', fetches'[n]? = some f' ∧
    f'.cacheKey = f.cacheKey ∧ f'.generation = f.generation ∧
      ∀ settled, f.settled = some settled → f'.settled = some settled

omit [LinearOrder W] [Zero W] in
theorem Kept.refl (fetches : List (Fetch W)) : Kept fetches fetches :=
  fun _ f hf => ⟨f, hf, rfl, rfl, fun _ h => h⟩

def Given (cfg : CacheConfig) (fetches : List (Fetch W)) (key : Utf16) (since : ℕ) (text : Utf16) :
    Prop :=
  ∃ f ∈ fetches, f.cacheKey = key ∧ since ≤ f.generation ∧
    ∃ answer now, f.settled = some (answer, now) ∧ answer.text cfg = text

section Given

variable {cfg : CacheConfig} {fetches fetches' : List (Fetch W)} {key text : Utf16} {since : ℕ}

theorem Given.kept (h : Given cfg fetches key since text) (hkept : Kept fetches fetches') :
    Given cfg fetches' key since text := by
  obtain ⟨f, hf, hkey, hsince, answer, now, hsettled, htext⟩ := h
  obtain ⟨n, hn⟩ := List.mem_iff_getElem?.mp hf
  obtain ⟨f', hn', hkey', hgeneration, hsettled'⟩ := hkept n f hn
  exact ⟨f', List.mem_of_getElem? hn', hkey'.trans hkey, hgeneration ▸ hsince, answer, now,
    hsettled' _ hsettled, htext⟩

theorem Given.since_le (h : Given cfg fetches key since text) {since' : ℕ} (hle : since' ≤ since) :
    Given cfg fetches key since' text := by
  obtain ⟨f, hf, hkey, hsince, hgave⟩ := h
  exact ⟨f, hf, hkey, hle.trans hsince, hgave⟩

end Given

/-- What a call that began in this generation has to show for its stage. -/
def Stage.Justified (cfg : CacheConfig) (fetches : List (Fetch W)) (opts : Opts) (since : ℕ) :
    Stage → Prop
  | .resolving => True
  | .waiting tenantId n _ => ∃ f, fetches[n]? = some f ∧ f.cacheKey = cacheKey tenantId opts ∧
      since ≤ f.generation
  | .returned none text => text = []
  | .returned (some tenantId) text =>
    text = [] ∨ Given cfg fetches (cacheKey tenantId opts) since text

theorem Stage.Justified.kept {cfg : CacheConfig} {fetches fetches' : List (Fetch W)} {opts : Opts}
    {since : ℕ} {stage : Stage} (h : stage.Justified cfg fetches opts since)
    (hkept : Kept fetches fetches') : stage.Justified cfg fetches' opts since := by
  cases stage with
  | resolving => trivial
  | waiting tenantId n owner =>
    obtain ⟨f, hf, hkey, hsince⟩ := h
    obtain ⟨f', hf', hkey', hgeneration, _⟩ := hkept n f hf
    exact ⟨f', hf', hkey'.trans hkey, hgeneration ▸ hsince⟩
  | returned tenantId text =>
    cases tenantId with
    | none => exact h
    | some tenantId => exact h.imp id fun hgiven => hgiven.kept hkept

/-- Entries and flights belong to the current generation, and of two fetches for one key in one
generation the first had settled. -/
structure Sound (cfg : CacheConfig) (s : Cache W) : Prop where
  tenant : s.tenantId ≠ tenantFail
  fetched : ∀ f ∈ s.fetches, f.tenantId ≠ tenantFail ∧ f.generation ≤ s.generation
  entry : ∀ key e, s.entries key = some e →
    e.text = [] ∨ Given cfg s.fetches key s.generation e.text
  flying : ∀ key n, s.inflight key = some n →
    ∃ f, s.fetches[n]? = some f ∧ f.cacheKey = key ∧ f.generation = s.generation
  running : ∀ (n : ℕ) (f : Fetch W), s.fetches[n]? = some f → f.settled = none →
    f.generation = s.generation → s.inflight f.cacheKey = some n
  alone : ∀ (n m : ℕ) (f f' : Fetch W), n < m → s.fetches[n]? = some f → s.fetches[m]? = some f' →
    f.cacheKey = f'.cacheKey → f.generation = f'.generation → f.settled ≠ none

structure Reached (cfg : CacheConfig) (s : Cache W) (opts : Opts) (next : Cache W × Stage) :
    Prop where
  sound : Sound cfg next.1
  kept : Kept s.fetches next.1.fetches
  generation : next.1.generation = s.generation
  stage : ∀ since ≤ s.generation, next.2.Justified cfg next.1.fetches opts since

section Sound

variable {cfg : CacheConfig} {s : Cache W} {opts : Opts} {tenantId : Utf16} {now : Readings}

theorem Sound.store (h : Sound cfg s) {key : Utf16} {entry : CacheEntry}
    (hentry : entry.text = [] ∨ Given cfg s.fetches key s.generation entry.text) :
    Sound cfg (s.store key entry) := by
  refine { h with entry := fun key' e he => ?_ }
  by_cases hkey : key' = key
  · obtain rfl : entry = e := by
      rw [Cache.store, hkey] at he
      simpa using he
    exact hkey ▸ hentry
  · rw [Cache.store] at he
    exact h.entry key' e (by simpa [hkey] using he)

theorem Sound.sweep (h : Sound cfg s) (time : ℤ) : Sound cfg (s.sweep cfg time) :=
  { h with entry := fun key e he => h.entry key e (Option.filter_eq_some_iff.mp he).1 }

theorem lookup_given (h : Sound cfg s) {key text : Utf16} {time : ℤ}
    (hlookup : s.lookup cfg key time = some text) :
    text = [] ∨ Given cfg s.fetches key s.generation text := by
  obtain ⟨e, he, hfresh⟩ := Option.bind_eq_some_iff.mp hlookup
  split_ifs at hfresh
  exact Option.some.inj hfresh ▸ h.entry key e he

theorem lookup_tenantFail (h : Sound cfg s) {text : Utf16} {time : ℤ}
    (hlookup : s.lookup cfg (tenantFailKey opts) time = some text) : text = [] := by
  rcases lookup_given h hlookup with hnil | ⟨f, hf, hkey, _⟩
  · exact hnil
  · exact absurd (keyOf_inj hkey).1 (h.fetched f hf).1

theorem reached_join (h : Sound cfg s) (htenant : tenantId ≠ tenantFail) (issued : ℤ) :
    Reached cfg s opts (s.join tenantId opts issued) := by
  rw [Cache.join]
  cases hflying : s.inflight (cacheKey tenantId opts) with
  | some n =>
    obtain ⟨f, hf, hkey, hgeneration⟩ := h.flying _ n hflying
    exact ⟨h, .refl _, rfl, fun since hsince => ⟨f, hf, hkey, hsince.trans_eq hgeneration.symm⟩⟩
  | none =>
    dsimp only
    have hkept : Kept s.fetches (s.fetches ++ [⟨tenantId, opts, s.generation, issued, none⟩]) :=
      fun n f hf => ⟨f, at_append.mpr (.inl hf), rfl, rfl, fun _ h => h⟩
    have hnew : (s.fetches ++ [⟨tenantId, opts, s.generation, issued, none⟩])[s.fetches.length]? =
      some ⟨tenantId, opts, s.generation, issued, none⟩ := at_append.mpr (.inr ⟨rfl, rfl⟩)
    refine ⟨⟨h.tenant, fun f hf => ?_, fun key e he => ?_, fun key n hn => ?_,
      fun n f hf hsettled hgeneration => ?_, fun n m f f' hlt hf hf' hkey hgeneration => ?_⟩,
      hkept, rfl, fun since hsince => ⟨_, hnew, rfl, hsince⟩⟩
    · rcases List.mem_append.mp hf with hold | hlast
      · exact h.fetched f hold
      · rw [List.mem_singleton.mp hlast]
        exact ⟨htenant, le_rfl⟩
    · exact (h.entry key e he).imp id fun hgiven => hgiven.kept hkept
    · dsimp only at hn ⊢
      by_cases hkey : key = cacheKey tenantId opts
      · rw [hkey, Function.update_self] at hn
        exact ⟨⟨tenantId, opts, s.generation, issued, none⟩, Option.some.inj hn ▸ hnew, hkey.symm,
          rfl⟩
      · rw [Function.update_of_ne hkey] at hn
        obtain ⟨f, hf, hrest⟩ := h.flying key n hn
        exact ⟨f, at_append.mpr (.inl hf), hrest⟩
    · dsimp only at hgeneration ⊢
      rcases at_append.mp hf with hold | ⟨rfl, rfl⟩
      · have hmap := h.running n f hold hsettled hgeneration
        have hne : f.cacheKey ≠ cacheKey tenantId opts := fun hkey => by
          rw [hkey, hflying] at hmap
          cases hmap
        rw [Function.update_of_ne hne, hmap]
      · exact Function.update_self ..
    · rcases at_append.mp hf' with hold' | ⟨rfl, rfl⟩
      · have hlength := (List.getElem?_eq_some_iff.mp hold').1
        rcases at_append.mp hf with hold | ⟨rfl, _⟩
        · exact h.alone n m f f' hlt hold hold' hkey hgeneration
        · exact absurd (hlt.trans hlength) (Nat.lt_irrefl _)
      · rcases at_append.mp hf with hold | ⟨rfl, _⟩
        · intro hrunning
          have hmap := h.running n f hold hrunning hgeneration
          rw [hkey] at hmap
          exact absurd (hflying.symm.trans hmap) (by simp)
        · exact absurd hlt (Nat.lt_irrefl _)

theorem reached_proceed (h : Sound cfg s) (htenant : tenantId ≠ tenantFail) :
    Reached cfg s opts (s.proceed cfg tenantId opts now) := by
  rw [Cache.proceed]
  cases hlookup : s.lookup cfg (cacheKey tenantId opts) now.cached with
  | some text =>
    exact ⟨h, .refl _, rfl, fun since hsince =>
      (lookup_given h hlookup).imp id fun hgiven => hgiven.since_le hsince⟩
  | none =>
    have hjoin : Reached cfg (s.sweep cfg now.sweep) opts
        ((s.sweep cfg now.sweep).join tenantId opts now.cached) :=
      reached_join (h.sweep now.sweep) htenant now.cached
    exact ⟨hjoin.sound, hjoin.kept, hjoin.generation, hjoin.stage⟩

theorem reached_call (h : Sound cfg s) :
    Reached cfg s opts (s.fetchKeystonesBlock cfg opts now) := by
  rw [Cache.fetchKeystonesBlock]
  split_ifs with henabled htenant
  · cases hlookup : s.lookup cfg (tenantFailKey opts) now.tenantFail with
    | some text => exact ⟨h, .refl _, rfl, fun _ _ => lookup_tenantFail h hlookup⟩
    | none => exact ⟨h, .refl _, rfl, fun _ _ => trivial⟩
  · cases hlookup : s.lookup cfg (tenantFailKey opts) now.tenantFail with
    | some text => exact ⟨h, .refl _, rfl, fun _ _ => lookup_tenantFail h hlookup⟩
    | none => exact reached_proceed h h.tenant
  · exact ⟨h, .refl _, rfl, fun _ _ => rfl⟩

theorem reached_resolved (h : Sound cfg s) {tenant : Option Utf16}
    (htenant : tenant ≠ some tenantFail) :
    Reached cfg s opts (s.resolved cfg tenant opts now) := by
  rw [Cache.resolved]
  split_ifs with hempty
  · exact ⟨h.store (.inl rfl), .refl _, rfl, fun _ _ => rfl⟩
  · refine reached_proceed h fun heq => htenant ?_
    cases tenant with
    | none => exact absurd rfl hempty
    | some tenantId => exact congrArg some heq

end Sound

section Turns

variable {cfg : CacheConfig} {s : Cache W}

theorem Sound.settle (h : Sound cfg s) {n : ℕ} {f : Fetch W} (hf : s.fetches[n]? = some f)
    (hrunning : f.settled = none) (answer : Answer W) (now : ℤ) :
    Sound cfg (s.settle cfg n f answer now) ∧
      Kept s.fetches (s.settle cfg n f answer now).fetches := by
  have hkept : Kept s.fetches (s.fetches.set n { f with settled := some (answer, now) }) :=
    fun m g hg => by
      by_cases hm : m = n
      · obtain rfl : f = g := Option.some.inj (hf.symm.trans (hm ▸ hg))
        exact ⟨_, (at_set hf).mpr (.inr ⟨hm, rfl⟩), rfl, rfl, fun r hr => by
          rw [hrunning] at hr
          cases hr⟩
      · exact ⟨g, (at_set hf).mpr (.inl ⟨hm, hg⟩), rfl, rfl, fun _ h => h⟩
  have hsettled : Sound cfg
      { s with fetches := s.fetches.set n { f with settled := some (answer, now) } } := by
    refine ⟨h.tenant, fun g hg => ?_, fun key e he => ?_, fun key m hm => ?_,
      fun m g hg hgrunning hgeneration => ?_, fun m m' g g' hlt hg hg' hkey hgeneration => ?_⟩
    · obtain ⟨m, hm⟩ := List.mem_iff_getElem?.mp hg
      rcases (at_set hf).mp hm with ⟨_, hold⟩ | ⟨_, rfl⟩
      · exact h.fetched g (List.mem_of_getElem? hold)
      · exact h.fetched f (List.mem_of_getElem? hf)
    · exact (h.entry key e he).imp id fun hgiven => hgiven.kept hkept
    · obtain ⟨g, hg, hkey, hgeneration⟩ := h.flying key m hm
      obtain ⟨g', hg', hkey', hgeneration', _⟩ := hkept m g hg
      exact ⟨g', hg', hkey'.trans hkey, hgeneration'.trans hgeneration⟩
    · rcases (at_set hf).mp hg with ⟨_, hold⟩ | ⟨_, rfl⟩
      · exact h.running m g hold hgrunning hgeneration
      · cases hgrunning
    · rcases (at_set hf).mp hg with ⟨_, hold⟩ | ⟨_, rfl⟩
      · rcases (at_set hf).mp hg' with ⟨_, hold'⟩ | ⟨rfl, rfl⟩
        · exact h.alone m m' g g' hlt hold hold' hkey hgeneration
        · exact h.alone m m' g f hlt hold hf hkey hgeneration
      · exact Option.some_ne_none _
  rw [Cache.settle]
  split_ifs with hgeneration
  · refine ⟨hsettled.store (.inr ?_), hkept⟩
    exact ⟨_, List.mem_of_getElem? ((at_set hf).mpr (.inr ⟨rfl, rfl⟩)), rfl, hgeneration.ge,
      answer, now, rfl, rfl⟩
  · exact ⟨hsettled, hkept⟩

omit [LinearOrder W] [Zero W] in
theorem release_fetches (s : Cache W) (key : Utf16) (n : ℕ) :
    (s.release key n).fetches = s.fetches ∧ (s.release key n).generation = s.generation := by
  rw [Cache.release]
  split_ifs <;> exact ⟨rfl, rfl⟩

theorem Sound.release (h : Sound cfg s) {key : Utf16} {n : ℕ} {f : Fetch W}
    (hf : s.fetches[n]? = some f) (hsettled : f.settled ≠ none) : Sound cfg (s.release key n) := by
  rw [Cache.release]
  split_ifs with hours
  · refine { h with
      flying := fun key' m hm => ?_
      running := fun m g hg hgrunning hgeneration => ?_ }
    · dsimp only at hm
      by_cases hkey : key' = key
      · rw [hkey, Function.update_self] at hm
        cases hm
      · rw [Function.update_of_ne hkey] at hm
        exact h.flying key' m hm
    · have hmap := h.running m g hg hgrunning hgeneration
      have hkey : g.cacheKey ≠ key := fun heq => by
        rw [heq, hours] at hmap
        obtain rfl : n = m := Option.some.inj hmap
        exact hsettled (Option.some.inj (hf.symm.trans hg) ▸ hgrunning)
      exact (Function.update_of_ne hkey ..).trans hmap
  · exact h

theorem Sound.invalidate (h : Sound cfg s) : Sound cfg s.invalidate where
  tenant := h.tenant
  fetched f hf := ⟨(h.fetched f hf).1, (h.fetched f hf).2.trans (Nat.le_succ _)⟩
  entry _ _ he := nomatch he
  flying _ _ hn := nomatch hn
  running _ f hf _ hgeneration :=
    absurd (h.fetched f (List.mem_of_getElem? hf)).2 (hgeneration ▸ Nat.not_succ_le_self _)
  alone := h.alone

structure Invariant (cfg : CacheConfig) (s : Cache W) : Prop where
  sound : Sound cfg s
  calls : ∀ c ∈ s.calls, c.since ≤ s.generation ∧ c.stage.Justified cfg s.fetches c.opts c.since

theorem Invariant.of_kept (h : Invariant cfg s) {s' : Cache W} (hsound : Sound cfg s')
    (hkept : Kept s.fetches s'.fetches) (hgeneration : s.generation ≤ s'.generation)
    (hcalls : s'.calls = s.calls) : Invariant cfg s' := by
  refine ⟨hsound, fun c hc => ?_⟩
  rw [hcalls] at hc
  exact ⟨(h.calls c hc).1.trans hgeneration, (h.calls c hc).2.kept hkept⟩

theorem Invariant.setCall (h : Invariant cfg s) {i : ℕ} {c : Call} (hc : c ∈ s.calls)
    {next : Cache W × Stage} (hsound : Sound cfg next.1) (hkept : Kept s.fetches next.1.fetches)
    (hgeneration : next.1.generation = s.generation)
    (hstage : next.2.Justified cfg next.1.fetches c.opts c.since) :
    Invariant cfg (s.setCall i c next) := by
  have hnext : Sound cfg (s.setCall i c next) := { hsound with }
  refine ⟨hnext, fun c' hc' => ?_⟩
  rcases List.mem_or_eq_of_mem_set hc' with hold | rfl
  · exact ⟨hgeneration ▸ (h.calls c' hold).1, (h.calls c' hold).2.kept hkept⟩
  · exact ⟨hgeneration ▸ (h.calls c hc).1, hstage⟩

/-- Tenants are identifiers that the server issues; none of them is the one for failures. -/
def Event.Issued : Event W → Prop
  | .resolved _ tenant _ => tenant ≠ some tenantFail
  | .tenantKnown tenantId => tenantId ≠ tenantFail
  | _ => True

theorem Invariant.step (h : Invariant cfg s) {event : Event W} (hevent : event.Issued) :
    Invariant cfg (s.step cfg event) := by
  cases event with
  | call opts now =>
    have hnext : Reached cfg s opts (s.fetchKeystonesBlock cfg opts now) := reached_call h.sound
    have hsound : Sound cfg (s.step cfg (.call opts now)) := { hnext.sound with }
    refine ⟨hsound, fun c hc => ?_⟩
    rcases List.mem_append.mp hc with hold | hnew
    · exact ⟨hnext.generation ▸ (h.calls c hold).1, (h.calls c hold).2.kept hnext.kept⟩
    · rw [List.mem_singleton.mp hnew]
      exact ⟨hnext.generation.ge, hnext.stage s.generation le_rfl⟩
  | resolved i tenant now =>
    rw [Cache.step]
    split
    · rename_i opts since hc
      have hmem := List.mem_of_getElem? hc
      have hnext : Reached cfg s opts (s.resolved cfg tenant opts now) :=
        reached_resolved h.sound hevent
      exact h.setCall hmem hnext.sound hnext.kept hnext.generation
        (hnext.stage since (h.calls _ hmem).1)
    · exact h
  | settle n answer now =>
    rw [Cache.step]
    split
    · rename_i f hf
      split_ifs with hsettled
      · exact h
      · have hnext := h.sound.settle hf (Option.not_isSome_iff_eq_none.mp hsettled) answer now
        refine h.of_kept hnext.1 hnext.2 ?_ ?_
        · rw [Cache.settle]
          split_ifs <;> exact le_rfl
        · rw [Cache.settle]
          split_ifs <;> rfl
    · exact h
  | finish i =>
    rw [Cache.step]
    split
    · rename_i opts since tenantId n owner hc
      split
      · rename_i answer time hanswer
        obtain ⟨f, hf, hsettled⟩ := Option.bind_eq_some_iff.mp hanswer
        obtain ⟨f', hf', hkey, hsince⟩ := (h.calls _ (List.mem_of_getElem? hc)).2
        obtain rfl : f = f' := Option.some.inj (hf.symm.trans hf')
        have hgiven : Given cfg s.fetches (cacheKey tenantId opts) since (answer.text cfg) :=
          ⟨f, List.mem_of_getElem? hf, hkey, hsince, answer, time, hsettled, rfl⟩
        have hne : f.settled ≠ none := fun hnone => by
          rw [hnone] at hsettled
          cases hsettled
        have hreleased : Sound cfg (s.release (cacheKey tenantId opts) n) := h.sound.release hf hne
        have hsame := release_fetches s (cacheKey tenantId opts) n
        have hmem := List.mem_of_getElem? hc
        cases owner with
        | true =>
          have hnext : Invariant cfg (s.setCall i ⟨opts, since, .waiting tenantId n true⟩
              (s.release (cacheKey tenantId opts) n,
                .returned (some tenantId) (answer.text cfg))) :=
            h.setCall hmem hreleased (hsame.1 ▸ .refl _) hsame.2 (.inr (hsame.1.symm ▸ hgiven))
          exact hnext
        | false =>
          have hnext : Invariant cfg (s.setCall i ⟨opts, since, .waiting tenantId n false⟩
              (s, .returned (some tenantId) (answer.text cfg))) :=
            h.setCall hmem h.sound (.refl _) rfl (.inr hgiven)
          exact hnext
      · exact h
    · exact h
  | invalidate => exact h.of_kept h.sound.invalidate (.refl _) (Nat.le_succ _) rfl
  | tenantKnown tenantId => exact h.of_kept { h.sound with tenant := hevent } (.refl _) le_rfl rfl

end Turns

theorem invariant_start (cfg : CacheConfig) : Invariant cfg (.start W) where
  sound :=
    { tenant := (List.cons_ne_nil 0 (utf16 "tenantFail")).symm
      fetched := fun _ hf => absurd hf List.not_mem_nil
      entry := fun _ _ he => nomatch he
      flying := fun _ _ hn => nomatch hn
      running := fun _ _ hf => nomatch hf
      alone := fun _ _ _ _ _ hf => nomatch hf }
  calls _ hc := absurd hc List.not_mem_nil

theorem invariant_run {cfg : CacheConfig} {events : List (Event W)}
    (hevents : ∀ event ∈ events, event.Issued) : Invariant cfg (runCache cfg events) :=
  Interleave.Along.invariant (fun _ _ h he => h.step he) (invariant_start cfg)
    (Interleave.Along.of_mem hevents)

/-- Every block that a call returns is laid out from the answer to a query for the identity of the
call, and that query was sent behind every invalidation before the call. -/
theorem keystones_fresh {cfg : CacheConfig} {events : List (Event W)}
    (hevents : ∀ event ∈ events, event.Issued) {c : Call} (hc : c ∈ (runCache cfg events).calls)
    {tenant : Option Utf16} {text : Utf16} (hstage : c.stage = .returned tenant text)
    (hne : text ≠ []) :
    ∃ tenantId, tenant = some tenantId ∧ ∃ f ∈ (runCache cfg events).fetches,
      f.query = keystonesQuery tenantId c.opts ∧ c.since ≤ f.generation ∧
      ∃ answer now rows, f.settled = some (answer, now) ∧ answer.rows = some rows ∧
        text = formatKeystones cfg.tokenCap rows := by
  have hjustified := ((invariant_run hevents).calls c hc).2
  rw [hstage] at hjustified
  cases tenant with
  | none => exact absurd hjustified hne
  | some tenantId =>
    obtain ⟨f, hf, hkey, hsince, answer, now, hsettled, htext⟩ := hjustified.resolve_left hne
    obtain ⟨htenant, hopts⟩ := keyOf_inj hkey
    refine ⟨tenantId, rfl, f, hf, by rw [Fetch.query, htenant, hopts], hsince, answer, now, ?_⟩
    cases hrows : answer.rows with
    | none =>
      rw [Answer.text, hrows] at htext
      exact absurd htext.symm hne
    | some rows =>
      rw [Answer.text, hrows] at htext
      exact ⟨rows, hsettled, rfl, htext.symm⟩

section Example

def defaultConfig : CacheConfig := ⟨true, 300000, 1500⟩

def agent : Opts := ⟨utf16 "a", some (utf16 "f")⟩

def toneRule : KeystoneRow ℤ :=
  ⟨utf16 "tone", some ⟨some (utf16 "Tone"), some (utf16 "Be brief."), none⟩⟩

def moment (time : ℤ) : Readings := ⟨time, time, time⟩

def served : List (Event ℤ) :=
  [.tenantKnown (utf16 "t"), .call agent (moment 0), .settle 0 (.list [toneRule]) 1, .finish 0,
    .call agent (moment 2)]

def answered : Call := ⟨agent, 0, .returned (some (utf16 "t")) (formatKeystones 1500 [toneRule])⟩

theorem answered_mem : answered ∈ (runCache defaultConfig served).calls := by
  decide +kernel

theorem issued_cons {time : Readings} {events : List (Event ℤ)}
    (h : ∀ event ∈ events, event.Issued) :
    ∀ event ∈ .tenantKnown (utf16 "t") :: .call agent time :: events, event.Issued :=
  List.forall_mem_cons.mpr ⟨by unfold Event.Issued; decide, List.forall_mem_cons.mpr ⟨trivial, h⟩⟩

theorem keystones_fresh_cached : ∃ f ∈ (runCache defaultConfig served).fetches,
    f.query = [("tenant_id", utf16 "t"), ("fleet_id", utf16 "f"), ("agent_id", utf16 "a")] ∧
      f.settled.isSome := by
  have hissued : ∀ event ∈ served, event.Issued := issued_cons fun event hevent => by
    simp only [List.mem_cons, List.not_mem_nil, or_false] at hevent
    rcases hevent with rfl | rfl | rfl <;> trivial
  obtain ⟨tenantId, htenant, f, hf, hquery, _, _, _, _, hsettled, _⟩ :=
    keystones_fresh hissued answered_mem rfl (by decide +kernel)
  obtain rfl : utf16 "t" = tenantId := Option.some.inj htenant
  exact ⟨f, hf, hquery.trans (by decide), Option.isSome_of_eq_some hsettled⟩

end Example

def Answer.pause (cfg : CacheConfig) (answer : Answer W) : ℤ :=
  if answer.rows.isSome then cfg.ttlMs else FAILURE_BACKOFF_MS

/-- Within a generation a fetch waits for the pause behind the one before it; until the pause is
over an entry stands for the answer. -/
structure Timed (cfg : CacheConfig) (s : Cache W) (past : List ℤ) : Prop where
  issued : ∀ f ∈ s.fetches, f.issued ∈ past
  covered : ∀ f ∈ s.fetches, f.generation = s.generation → ∀ answer time,
    f.settled = some (answer, time) →
      (∃ e, s.entries f.cacheKey = some e ∧ time + answer.pause cfg ≤ e.ts + cfg.ttlMs) ∨
        ∃ r ∈ past, time + answer.pause cfg ≤ r
  spaced : ∀ (n m : ℕ) (f f' : Fetch W), n < m → s.fetches[n]? = some f → s.fetches[m]? = some f' →
    f.cacheKey = f'.cacheKey → f.generation = f'.generation → ∀ answer time,
      f.settled = some (answer, time) → time + answer.pause cfg ≤ f'.issued

section Timed

variable {cfg : CacheConfig} {s : Cache W} {past : List ℤ} {opts : Opts} {tenantId : Utf16}

section Parts

omit [LinearOrder W] [Zero W]

theorem Timed.later (h : Timed cfg s past) (more : List ℤ) : Timed cfg s (past ++ more) where
  issued f hf := List.mem_append_left _ (h.issued f hf)
  covered f hf hgeneration answer time hsettled :=
    (h.covered f hf hgeneration answer time hsettled).imp id fun ⟨r, hr, hle⟩ =>
      ⟨r, List.mem_append_left _ hr, hle⟩
  spaced := h.spaced

theorem Timed.of_eq (h : Timed cfg s past) {s' : Cache W} (hfetches : s'.fetches = s.fetches)
    (hentries : s'.entries = s.entries) (hgeneration : s'.generation = s.generation) :
    Timed cfg s' past := by
  constructor
  · rw [hfetches]
    exact h.issued
  · rw [hfetches, hentries, hgeneration]
    exact h.covered
  · rw [hfetches]
    exact h.spaced

theorem Timed.store (h : Timed cfg s past) {key : Utf16} (hkey : ∀ f ∈ s.fetches, f.cacheKey ≠ key)
    (entry : CacheEntry) : Timed cfg (s.store key entry) past :=
  { h with
    covered := fun f hf hgeneration answer time hsettled => by
      have hsame : (s.store key entry).entries f.cacheKey = s.entries f.cacheKey :=
        Function.update_of_ne (hkey f hf) ..
      rw [hsame]
      exact h.covered f hf hgeneration answer time hsettled }

theorem Timed.sweep (h : Timed cfg s past) {now : ℤ} (hnow : now ∈ past) :
    Timed cfg (s.sweep cfg now) past :=
  { h with
    covered := fun f hf hgeneration answer time hsettled => by
      rcases h.covered f hf hgeneration answer time hsettled with ⟨e, he, hle⟩ | hpast
      · by_cases hold : cfg.ttlMs < now - e.ts
        · exact .inr ⟨now, hnow, by omega⟩
        · refine .inl ⟨e, ?_, hle⟩
          exact Option.filter_eq_some_iff.mpr ⟨he, decide_eq_true hold⟩
      · exact .inr hpast }

def Clear (cfg : CacheConfig) (s : Cache W) (key : Utf16) (time : ℤ) : Prop :=
  ∀ f ∈ s.fetches, f.cacheKey = key → f.generation = s.generation → ∀ answer settled,
    f.settled = some (answer, settled) → settled + answer.pause cfg ≤ time

theorem Timed.clear (h : Timed cfg s past) {key : Utf16} {now : ℤ}
    (hlookup : s.lookup cfg key now = none) (hnow : ∀ r ∈ past, r ≤ now) : Clear cfg s key now := by
  intro f hf hkey hgeneration answer settled hsettled
  rcases h.covered f hf hgeneration answer settled hsettled with ⟨e, he, hle⟩ | ⟨r, hr, hle⟩
  · rw [Cache.lookup, ← hkey, he, Option.bind_some] at hlookup
    split_ifs at hlookup with hfresh
    omega
  · exact hle.trans (hnow r hr)

theorem Timed.join (h : Timed cfg s past) {issued : ℤ} (hissued : issued ∈ past)
    (hclear : Clear cfg s (cacheKey tenantId opts) issued) :
    Timed cfg (s.join tenantId opts issued).1 past := by
  rw [Cache.join]
  cases hflying : s.inflight (cacheKey tenantId opts) with
  | some n => exact h
  | none =>
    refine ⟨fun f hf => ?_, fun f hf hgeneration answer time hsettled => ?_,
      fun n m f f' hlt hf hf' hkey hgeneration answer time hsettled => ?_⟩
    · rcases List.mem_append.mp hf with hold | hnew
      · exact h.issued f hold
      · rw [List.mem_singleton.mp hnew]
        exact hissued
    · rcases List.mem_append.mp hf with hold | hnew
      · exact h.covered f hold hgeneration answer time hsettled
      · rw [List.mem_singleton.mp hnew] at hsettled
        cases hsettled
    · rcases at_append.mp hf with hold | ⟨rfl, rfl⟩
      · rcases at_append.mp hf' with hold' | ⟨_, rfl⟩
        · exact h.spaced n m f f' hlt hold hold' hkey hgeneration answer time hsettled
        · exact hclear f (List.mem_of_getElem? hold) hkey hgeneration answer time hsettled
      · cases hsettled

end Parts

theorem Timed.settle (h : Timed cfg s past) (hsound : Sound cfg s) {n : ℕ} {f : Fetch W}
    (hf : s.fetches[n]? = some f) (hrunning : f.settled = none) (answer : Answer W) (now : ℤ) :
    Timed cfg (s.settle cfg n f answer now) past := by
  have hfetches : (s.settle cfg n f answer now).fetches =
      s.fetches.set n { f with settled := some (answer, now) } := by
    rw [Cache.settle]
    split_ifs <;> rfl
  have hgenerations : (s.settle cfg n f answer now).generation = s.generation := by
    rw [Cache.settle]
    split_ifs <;> rfl
  refine ⟨fun g hg => ?_, fun g hg hgeneration answer' time hsettled => ?_,
    fun m m' g g' hlt hg hg' hkey hgeneration answer' time hsettled => ?_⟩
  · rw [hfetches] at hg
    rcases List.mem_or_eq_of_mem_set hg with hold | rfl
    · exact h.issued g hold
    · exact h.issued f (List.mem_of_getElem? hf)
  · rw [hgenerations] at hgeneration
    rw [hfetches] at hg
    obtain ⟨m, hm⟩ := List.mem_iff_getElem?.mp hg
    rw [Cache.settle]
    rcases (at_set hf).mp hm with ⟨hne, hold⟩ | ⟨rfl, rfl⟩
    · have hcovered := h.covered g (List.mem_of_getElem? hold) hgeneration answer' time hsettled
      split_ifs with hours
      · by_cases hkey : g.cacheKey = f.cacheKey
        · -- The entry is overwritten, but this fetch was issued behind the pause of the other.
          rcases Nat.lt_or_gt_of_ne hne with hlt | hlt
          · exact .inr ⟨f.issued, h.issued f (List.mem_of_getElem? hf), h.spaced m n g f hlt hold hf
              hkey (hgeneration.trans hours.symm) answer' time hsettled⟩
          · exact absurd hrunning (hsound.alone n m f g hlt hf hold hkey.symm
              (hours.trans hgeneration.symm))
        · have hsame :
              Function.update s.entries f.cacheKey (some (answer.entry cfg now)) g.cacheKey =
                s.entries g.cacheKey := Function.update_of_ne hkey ..
          exact hcovered.imp (fun ⟨e, he, hle⟩ => ⟨e, hsame.trans he, hle⟩) id
      · exact hcovered
    · rw [if_pos hgeneration]
      obtain ⟨rfl, rfl⟩ := Prod.mk.inj (Option.some.inj hsettled)
      refine .inl ⟨_, Function.update_self .., ?_⟩
      rw [Answer.pause, Answer.entry, negativeCacheTs]
      split_ifs
      · exact le_rfl
      · dsimp only
        omega
  · rw [hfetches] at hg hg'
    rcases (at_set hf).mp hg with ⟨_, hold⟩ | ⟨rfl, rfl⟩
    · rcases (at_set hf).mp hg' with ⟨_, hold'⟩ | ⟨rfl, rfl⟩
      · exact h.spaced m m' g g' hlt hold hold' hkey hgeneration answer' time hsettled
      · exact h.spaced m m' g f hlt hold hf hkey hgeneration answer' time hsettled
    · rcases (at_set hf).mp hg' with ⟨_, hold'⟩ | ⟨rfl, _⟩
      · exact absurd hrunning (hsound.alone m m' f g' hlt hf hold' hkey hgeneration)
      · exact absurd hlt (Nat.lt_irrefl _)

omit [LinearOrder W] [Zero W] in
theorem Timed.proceed (h : Timed cfg s past) {now : Readings}
    (hsorted : (past ++ now.toList).Pairwise (· ≤ ·)) :
    Timed cfg (s.proceed cfg tenantId opts now).1 (past ++ now.toList) := by
  rw [Cache.proceed]
  have hpast : ∀ r ∈ past, r ≤ now.cached := fun r hr =>
    (List.pairwise_append.mp hsorted).2.2 r hr now.cached (by simp [Readings.toList])
  cases hlookup : s.lookup cfg (cacheKey tenantId opts) now.cached with
  | some text => exact h.later _
  | none =>
    have hswept : Timed cfg (s.sweep cfg now.sweep) (past ++ now.toList) :=
      (h.later _).sweep (by simp [Readings.toList])
    exact hswept.join (by simp [Readings.toList]) (h.clear hlookup hpast)

def Event.readings : Event W → List ℤ
  | .call _ now => now.toList
  | .resolved _ _ now => now.toList
  | .settle _ _ now => [now]
  | _ => []

theorem Timed.step (h : Timed cfg s past) (hi : Invariant cfg s) {event : Event W}
    (hsorted : (past ++ event.readings).Pairwise (· ≤ ·)) :
    Timed cfg (s.step cfg event) (past ++ event.readings) := by
  cases event with
  | call opts now =>
    have hnext : Timed cfg (s.fetchKeystonesBlock cfg opts now).1 (past ++ now.toList) := by
      rw [Cache.fetchKeystonesBlock]
      split_ifs with henabled htenant
      · split <;> exact h.later _
      · split
        · exact h.later _
        · exact h.proceed hsorted
      · exact h.later _
    exact hnext.of_eq rfl rfl rfl
  | resolved i tenant now =>
    rw [Cache.step]
    split
    · rename_i opts since hc
      have hnext : Timed cfg (s.resolved cfg tenant opts now).1 (past ++ now.toList) := by
        rw [Cache.resolved]
        split_ifs
        · refine (h.later _).store (fun f hf hkey => ?_) _
          exact (hi.sound.fetched f hf).1 (keyOf_inj hkey).1
        · exact h.proceed hsorted
      exact hnext.of_eq rfl rfl rfl
    · exact h.later _
  | settle n answer now =>
    rw [Cache.step]
    split
    · rename_i f hf
      split_ifs with hsettled
      · exact h.later _
      · exact (h.later _).settle hi.sound hf (Option.not_isSome_iff_eq_none.mp hsettled) answer now
    · exact h.later _
  | finish i =>
    have hreleased : ∀ key n, Timed cfg (s.release key n) (past ++ []) := fun key n => by
      rw [Cache.release]
      split_ifs
      · exact (h.later _).of_eq rfl rfl rfl
      · exact h.later _
    rw [Cache.step]
    split
    · rename_i opts since tenantId n owner hc
      split
      · cases owner with
        | true => exact (hreleased (cacheKey tenantId opts) n).of_eq rfl rfl rfl
        | false => exact (h.later _).of_eq rfl rfl rfl
      · exact h.later _
    · exact h.later _
  | invalidate =>
    refine ⟨(h.later _).issued, fun f hf hgeneration => ?_, h.spaced⟩
    exact absurd (hi.sound.fetched f hf).2 (hgeneration ▸ Nat.not_succ_le_self _)
  | tenantKnown tenantId => exact (h.later _).of_eq rfl rfl rfl

theorem timed_run (h : Timed cfg s past) (hi : Invariant cfg s) {events : List (Event W)}
    (hevents : ∀ event ∈ events, event.Issued)
    (hsorted : (past ++ events.flatMap Event.readings).Pairwise (· ≤ ·)) :
    Timed cfg (Interleave.run (Cache.step cfg) s events)
      (past ++ events.flatMap Event.readings) := by
  induction events generalizing s past with
  | nil => exact h.later _
  | cons event events ih =>
    obtain ⟨hevent, hrest⟩ := List.forall_mem_cons.mp hevents
    rw [List.flatMap_cons, ← List.append_assoc] at hsorted ⊢
    exact ih (h.step hi (List.pairwise_append.mp hsorted).1) (hi.step hevent) hrest hsorted

end Timed

/-- Of two fetches for one identity in one generation, the second was only issued when the answer to
the first had been there for its pause: calls never fetch side by side, and an outage costs a
request in fifteen seconds. -/
theorem keystones_spaced {cfg : CacheConfig} {events : List (Event W)}
    (hevents : ∀ event ∈ events, event.Issued)
    (hclock : (events.flatMap Event.readings).Pairwise (· ≤ ·)) {n m : ℕ} (hlt : n < m)
    {f f' : Fetch W} (hf : (runCache cfg events).fetches[n]? = some f)
    (hf' : (runCache cfg events).fetches[m]? = some f') (htenant : f.tenantId = f'.tenantId)
    (hopts : f.opts = f'.opts) (hgeneration : f.generation = f'.generation) :
    ∃ answer settled, f.settled = some (answer, settled) ∧
      settled + answer.pause cfg ≤ f'.issued := by
  have hkey : f.cacheKey = f'.cacheKey := by
    rw [Fetch.cacheKey, htenant, hopts, Fetch.cacheKey]
  have hstart : Timed cfg (Cache.start W) [] := ⟨fun _ hf => absurd hf List.not_mem_nil,
    fun _ hf => absurd hf List.not_mem_nil, fun _ _ _ _ _ hf => nomatch hf⟩
  have htimed := timed_run hstart (invariant_start cfg) hevents hclock
  cases hsettled : f.settled with
  | none =>
    exact absurd hsettled ((invariant_run hevents).sound.alone n m f f' hlt hf hf' hkey hgeneration)
  | some settled =>
    exact ⟨settled.1, settled.2, rfl,
      htimed.spaced n m f f' hlt hf hf' hkey hgeneration settled.1 settled.2 hsettled⟩

def outage : List (Event ℤ) :=
  [.tenantKnown (utf16 "t"), .call agent (moment 0), .settle 0 .failed 1, .finish 0,
    .call agent (moment 15001)]

theorem keystones_spaced_outage : ∃ f f', (runCache defaultConfig outage).fetches = [f, f'] ∧
    ∃ answer settled, f.settled = some (answer, settled) ∧
      settled + answer.pause defaultConfig ≤ f'.issued := by
  have hissued : ∀ event ∈ outage, event.Issued := issued_cons fun event hevent => by
    simp only [List.mem_cons, List.not_mem_nil, or_false] at hevent
    rcases hevent with rfl | rfl | rfl <;> trivial
  have hrun : (runCache defaultConfig outage).fetches =
      [⟨utf16 "t", agent, 0, 0, some (.failed, 1)⟩, ⟨utf16 "t", agent, 0, 15001, none⟩] := rfl
  exact ⟨_, _, hrun, keystones_spaced hissued (by decide) (n := 0) (m := 1) Nat.zero_lt_one
    (by rw [hrun]; rfl) (by rw [hrun]; rfl) rfl rfl rfl⟩

end Memclaw.Plugin.KeystoneCache
