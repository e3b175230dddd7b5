import Memclaw.Plugin.DeployDefs

/-! `apiCall` of the plugin (`transport.ts`) with the broker of agent keys (`agent-auth.ts`): a call
answered 401 on an agent key evicts the key and calls again without its `agentId`. That is one
retry, on the tenant key, unless the body or the query names an agent that gets a key again. -/

namespace Memclaw.Plugin

structure ApiConfig where
  apiPrefix : Text
  tenantKey : Text

structure ApiRequest where
  path : Text
  agentId : Option Text
  bodyAgentId : Option Text
  queryAgentId : Option Text

inductive ApiError
  | prefixedPath
  | storeFailed
  | fetchFailed
  | unreadable
  | status (code : ℕ)
deriving DecidableEq

/-- How a write of the secrets file ends. A torn file does not parse, and reads as an empty one. -/
inductive StoreWrite
  | done
  | intact
  | torn
deriving DecidableEq

inductive Response
  | rejected
  | answered (status : ℕ) (readable : Bool)
deriving DecidableEq

/-- What one round of a call meets: the answer to provisioning with its `raw_key`, the writes of the
secrets file, and the answer to the request. -/
structure RoundAnswers where
  provision : Option Text
  stores : StoreWrite
  evicts : StoreWrite
  resource : Response

structure Broker where
  cache : Text → Option Text
  secrets : Text → Option Text

def Broker.empty : Broker := ⟨fun _ => none, fun _ => none⟩

def Broker.writeSecretsFile (b : Broker) (write : StoreWrite) (secrets : Text → Option Text) :
    Broker :=
  match write with
  | .done => { b with secrets := secrets }
  | .intact => b
  | .torn => { b with secrets := fun _ => none }

def truthy (text : Option Text) : Option Text := text.filter (· ≠ [])

/-- An empty id, and the ids of callers that are no agents. -/
def synthetic (agentId : Text) : Bool :=
  agentId = [] || agentId = "unknown-agent".toList || agentId = "__health_check__".toList

def resolveAgentKey (cfg : ApiConfig) (a : RoundAnswers) (b : Broker) (agentId : Text) :
    Broker × Except ApiError (Option Text) :=
  if cfg.tenantKey = [] || synthetic agentId then (b, .ok none)
  else match truthy (b.cache agentId) with
    | some key => (b, .ok (some key))
    | none =>
      match truthy (b.secrets agentId) with
      | some key => ({ b with cache := Function.update b.cache agentId (some key) }, .ok (some key))
      | none =>
        match a.provision with
        | none => (b, .ok none)
        | some key =>
          let written := b.writeSecretsFile a.stores (Function.update b.secrets agentId (some key))
          -- A write that throws is not caught here.
          if a.stores = .done then
            ({ written with cache := Function.update b.cache agentId (some key) }, .ok (some key))
          else (written, .error .storeFailed)

def evictAgentKey (a : RoundAnswers) (b : Broker) (agentId : Text) : Broker :=
  let b := { b with cache := Function.update b.cache agentId none }
  if (b.secrets agentId).isSome then
    b.writeSecretsFile a.evicts (Function.update b.secrets agentId none)
  else b

/-- `agentId || body.agent_id || query.agent_id`. -/
def ApiRequest.effectiveAgentId (c : ApiRequest) : Option Text :=
  truthy c.agentId <|> truthy c.bodyAgentId <|> truthy c.queryAgentId

def ApiRequest.prefixed (cfg : ApiConfig) (c : ApiRequest) : Bool :=
  let normalized := if c.path.head? = some '/' then c.path else '/' :: c.path
  (cfg.apiPrefix ++ ['/']).isPrefixOf normalized || normalized = cfg.apiPrefix

def effectiveKey (cfg : ApiConfig) (a : RoundAnswers) (b : Broker) :
    Option Text → Broker × Except ApiError Text
  | none => (b, .ok cfg.tenantKey)
  | some agentId =>
    let resolved := resolveAgentKey cfg a b agentId
    (resolved.1, resolved.2.map fun key => (truthy key).getD cfg.tenantKey)

structure Sent where
  key : Text
  answer : Response
deriving DecidableEq

/-- One round: nothing is sent, or the request that ends the call, or one after whose eviction the
call is made again. -/
inductive Round
  | unsent (error : ApiError)
  | ended (sent : Sent) (reply : Except ApiError ℕ)
  | refused (sent : Sent) (evicted : Broker)

def ended (status : ℕ) (readable : Bool) : Except ApiError ℕ :=
  if status < 200 ∨ 300 ≤ status then .error (if readable then .status status else .unreadable)
  else if status = 204 || readable then .ok status
  else .error .unreadable

def round (cfg : ApiConfig) (a : RoundAnswers) (c : ApiRequest) (b : Broker) : Round :=
  if c.prefixed cfg then .unsent .prefixedPath
  else
    let resolved := effectiveKey cfg a b c.effectiveAgentId
    match resolved.2 with
    | .error e => .unsent e
    | .ok key =>
      match a.resource with
      | .rejected => .ended ⟨key, .rejected⟩ (.error .fetchFailed)
      | .answered status readable =>
        match c.effectiveAgentId with
        | some agentId =>
          if status = 401 ∧ key ≠ cfg.tenantKey then
            .refused ⟨key, .answered status readable⟩ (evictAgentKey a resolved.1 agentId)
          else .ended ⟨key, .answered status readable⟩ (ended status readable)
        | none => .ended ⟨key, .answered status readable⟩ (ended status readable)

/-- `apiCall`: the requests sent within a number of rounds, and the reply if they are enough. -/
def apiCallWithin (cfg : ApiConfig) :
    ℕ → (ℕ → RoundAnswers) → ApiRequest → Broker → List Sent × Option (Except ApiError ℕ)
  | 0, _, _, _ => ([], none)
  | rounds + 1, answers, c, b =>
    match round cfg (answers 0) c b with
    | .unsent e => ([], some (.error e))
    | .ended sent reply => ([sent], some reply)
    | .refused sent evicted =>
      let rest := apiCallWithin cfg rounds (fun i => answers (i + 1)) { c with agentId := none }
        evicted
      (sent :: rest.1, rest.2)

section Retry

variable (cfg : ApiConfig) (answers : ℕ → RoundAnswers) (c : ApiRequest) (b : Broker)

/-- The call ends after at most two requests, the second one on the tenant key and only where the
first was answered 401 on an agent key. -/
def RetriedOnce : Prop :=
  ∃ rounds sent reply, apiCallWithin cfg rounds answers c b = (sent, some reply) ∧
    sent.length ≤ 2 ∧ ∀ first second, sent = [first, second] →
      (∃ readable, first.answer = .answered 401 readable) ∧ first.key ≠ cfg.tenantKey ∧
        second.key = cfg.tenantKey

/-- An agent that a request is made for, with the agent key that the broker has for it. -/
structure AgentKeyed (a : RoundAnswers) (c : ApiRequest) (b : Broker) (agentId key : Text) :
    Prop where
  agent : c.effectiveAgentId = some agentId
  resolved : (resolveAgentKey cfg a b agentId).2 = .ok (some key)
  nonempty : key ≠ []
  not_tenant : key ≠ cfg.tenantKey

/-- The request is answered 401 on an agent key, and when that key is evicted the agent that the
body or the query names has one again. -/
def KeyedAgain : Prop :=
  c.prefixed cfg = false ∧ (∃ readable, (answers 0).resource = .answered 401 readable) ∧
    ∃ agentId key, AgentKeyed cfg (answers 0) c b agentId key ∧
      ∃ named key', AgentKeyed cfg (answers 1) { c with agentId := none }
        (evictAgentKey (answers 0) (resolveAgentKey cfg (answers 0) b agentId).1 agentId) named key'

variable {cfg answers c b}

theorem truthy_eq_some {text : Option Text} {t : Text} :
    truthy text = some t ↔ text = some t ∧ t ≠ [] := by
  rw [truthy, Option.filter_eq_some_iff, decide_eq_true_eq]

theorem effectiveKey_agent {a : RoundAnswers} {agentId key : Text} :
    (effectiveKey cfg a b (some agentId)).2 = .ok key ∧ key ≠ cfg.tenantKey ↔
      (resolveAgentKey cfg a b agentId).2 = .ok (some key) ∧ key ≠ [] ∧ key ≠ cfg.tenantKey := by
  -- A key other than the tenant's is one that the broker has for the agent.
  unfold effectiveKey
  dsimp only
  cases (resolveAgentKey cfg a b agentId).2 with
  | error e => simp [Except.map]
  | ok found =>
    simp only [Except.map, Except.ok.injEq]
    cases htruthy : truthy found with
    | none =>
      -- Without a key of the agent the tenant's is taken.
      constructor
      · rintro ⟨hkey, hne⟩
        exact absurd hkey.symm hne
      · rintro ⟨rfl, hnonempty, -⟩
        rw [truthy_eq_some.mpr ⟨rfl, hnonempty⟩] at htruthy
        exact nomatch htruthy
    | some k =>
      obtain ⟨rfl, hk⟩ := truthy_eq_some.mp htruthy
      constructor
      · rintro ⟨rfl, hne⟩
        exact ⟨rfl, hk, hne⟩
      · rintro ⟨hkey, -, hne⟩
        exact ⟨Option.some.inj hkey, hne⟩

theorem AgentKeyed.effectiveKey {a : RoundAnswers} {agentId key : Text}
    (h : AgentKeyed cfg a c b agentId key) :
    effectiveKey cfg a b c.effectiveAgentId =
      ((resolveAgentKey cfg a b agentId).1, .ok key) := by
  rw [h.agent]
  exact Prod.ext rfl (effectiveKey_agent.mpr ⟨h.resolved, h.nonempty, h.not_tenant⟩).1

theorem exists_agentKeyed {a : RoundAnswers} {key : Text}
    (h : (Plugin.effectiveKey cfg a b c.effectiveAgentId).2 = .ok key)
    (hne : key ≠ cfg.tenantKey) :
    ∃ agentId, AgentKeyed cfg a c b agentId key := by
  cases hagent : c.effectiveAgentId with
  | none =>
    rw [hagent] at h
    exact absurd (Except.ok.inj h).symm hne
  | some agentId =>
    rw [hagent] at h
    obtain ⟨hkey, hnonempty, -⟩ := effectiveKey_agent.mp ⟨h, hne⟩
    exact ⟨agentId, hagent, hkey, hnonempty, hne⟩

theorem AgentKeyed.round {a : RoundAnswers} {agentId key : Text}
    (h : AgentKeyed cfg a c b agentId key) (hpath : c.prefixed cfg = false) {readable : Bool}
    (hresource : a.resource = .answered 401 readable) :
    round cfg a c b = .refused ⟨key, a.resource⟩
      (evictAgentKey a (resolveAgentKey cfg a b agentId).1 agentId) := by
  have hkey := h.effectiveKey
  rw [h.agent] at hkey
  unfold Plugin.round
  simp only [hpath, hkey, hresource, h.agent, h.not_tenant, ne_eq, not_false_eq_true, and_self,
    if_true, Bool.false_eq_true, if_false]

/-- A call is made again only for a 401 on an agent key. -/
theorem agentKeyed_of_refused {a : RoundAnswers} {sent : Sent} {evicted : Broker}
    (h : round cfg a c b = .refused sent evicted) :
    c.prefixed cfg = false ∧ ∃ readable, a.resource = .answered 401 readable ∧
      ∃ agentId, AgentKeyed cfg a c b agentId sent.key := by
  unfold round at h
  dsimp only at h
  split at h
  · exact nomatch h
  · next hpath =>
    split at h
    · exact nomatch h
    · next key hkey =>
      split at h
      · exact nomatch h
      · next status readable hresource =>
        split at h
        · split at h
          · next hrefused =>
            obtain ⟨rfl, -⟩ := Round.refused.inj h
            obtain ⟨rfl, hne⟩ := hrefused
            exact ⟨Bool.eq_false_iff.mpr hpath, readable, hresource, exists_agentKeyed hkey hne⟩
          · exact nomatch h
        · exact nomatch h

theorem sent_key {a : RoundAnswers} {key : Text}
    (hkey : (Plugin.effectiveKey cfg a b c.effectiveAgentId).2 = .ok key)
    (hpath : c.prefixed cfg = false) :
    (∃ sent reply, round cfg a c b = .ended sent reply ∧ sent.key = key) ∨
      ∃ sent evicted, round cfg a c b = .refused sent evicted ∧ sent.key = key := by
  unfold round
  simp only [hpath, hkey, Bool.false_eq_true, if_false]
  cases a.resource with
  | rejected => exact .inl ⟨_, _, rfl, rfl⟩
  | answered status readable =>
    cases c.effectiveAgentId with
    | none => exact .inl ⟨_, _, rfl, rfl⟩
    | some agentId =>
      dsimp only
      split
      · exact .inr ⟨_, _, rfl, rfl⟩
      · exact .inl ⟨_, _, rfl, rfl⟩

theorem key_eq_tenant {a : RoundAnswers} (h : ∀ agentId key, ¬ AgentKeyed cfg a c b agentId key)
    {sent : Sent} {reply : Except ApiError ℕ} (hround : round cfg a c b = .ended sent reply) :
    sent.key = cfg.tenantKey := by
  have hpath : c.prefixed cfg = false := by
    by_contra hprefixed
    rw [round, if_pos (Bool.eq_true_of_not_eq_false hprefixed)] at hround
    exact nomatch hround
  cases hkey : (Plugin.effectiveKey cfg a b c.effectiveAgentId).2 with
  | error e =>
    unfold round at hround
    simp only [hpath, hkey, Bool.false_eq_true, if_false] at hround
    exact nomatch hround
  | ok key =>
    rcases sent_key hkey hpath with ⟨sent', reply', hended, hsent⟩ | ⟨_, _, hrefused, -⟩
    · obtain ⟨rfl, -⟩ := Round.ended.inj (hended.symm.trans hround)
      rw [hsent]
      by_contra hne
      obtain ⟨agentId, hkeyed⟩ := exists_agentKeyed hkey hne
      exact h agentId key hkeyed
    · exact nomatch hrefused.symm.trans hround

theorem apiCallWithin_refused {sent : Sent} {evicted : Broker}
    (h : round cfg (answers 0) c b = .refused sent evicted) (rounds : ℕ) :
    apiCallWithin cfg (rounds + 1) answers c b =
      let rest := apiCallWithin cfg rounds (fun i => answers (i + 1)) { c with agentId := none }
        evicted
      (sent :: rest.1, rest.2) := by
  rw [apiCallWithin, h]

theorem AgentKeyed.sent_first (answers : ℕ → RoundAnswers) {agentId key : Text}
    (h : AgentKeyed cfg (answers 0) c b agentId key) (hpath : c.prefixed cfg = false)
    {rounds : ℕ} {sent : List Sent} {reply : Except ApiError ℕ}
    (hrun : apiCallWithin cfg rounds answers c b = (sent, some reply)) :
    ∃ first rest, sent = first :: rest ∧ first.key = key := by
  have hkey : (Plugin.effectiveKey cfg (answers 0) b c.effectiveAgentId).2 = .ok key := by
    rw [h.effectiveKey]
  cases rounds with
  | zero => exact nomatch (Prod.mk.inj hrun).2
  | succ rounds =>
    rcases sent_key hkey hpath with ⟨first, reply', hround, hsent⟩ | ⟨first, evicted, hround, hsent⟩
    · rw [apiCallWithin, hround] at hrun
      exact ⟨first, [], (Prod.mk.inj hrun).1.symm, hsent⟩
    · rw [apiCallWithin_refused hround] at hrun
      exact ⟨first, _, (Prod.mk.inj hrun).1.symm, hsent⟩

theorem ends_unkeyed (answers : ℕ → RoundAnswers)
    (h : ∀ agentId key, ¬ AgentKeyed cfg (answers 0) c b agentId key) :
    ∃ sent reply, apiCallWithin cfg 1 answers c b = (sent, some reply) ∧ sent.length ≤ 1 ∧
      ∀ s ∈ sent, s.key = cfg.tenantKey := by
  -- A call for which no agent has a key ends with its first round, and what it sends is on the
  -- tenant key.
  cases hround : round cfg (answers 0) c b with
  | unsent e =>
    refine ⟨[], .error e, ?_, Nat.zero_le 1, fun s hs => absurd hs List.not_mem_nil⟩
    rw [apiCallWithin, hround]
  | refused sent evicted =>
    obtain ⟨-, -, -, agentId, hkeyed⟩ := agentKeyed_of_refused hround
    exact absurd hkeyed (h agentId sent.key)
  | ended sent reply =>
    refine ⟨[sent], reply, ?_, le_rfl, fun s hs => ?_⟩
    · rw [apiCallWithin, hround]
    · rw [List.mem_singleton.mp hs]
      exact key_eq_tenant h hround

/-- Exactly the calls whose evicted agent key comes back through the body or the query are not
retried once and on the tenant key. -/
theorem retriedOnce_iff (cfg : ApiConfig) (answers : ℕ → RoundAnswers) (c : ApiRequest)
    (b : Broker) :
    RetriedOnce cfg answers c b ↔ ¬ KeyedAgain cfg answers c b := by
  constructor
  · rintro ⟨rounds, sent, reply, hrun, hlength, hsecond⟩
      ⟨hpath, ⟨readable, hresource⟩, agentId, key, hkeyed, named, key', hkeyed'⟩
    cases rounds with
    | zero => exact nomatch (Prod.mk.inj hrun).2
    | succ rounds =>
      rw [apiCallWithin_refused (hkeyed.round hpath hresource)] at hrun
      obtain ⟨hsent, hreply⟩ := Prod.mk.inj hrun
      obtain ⟨second, rest, hrest, hkey⟩ :=
        AgentKeyed.sent_first (fun i => answers (i + 1)) hkeyed' hpath (Prod.ext rfl hreply)
      have hsent : _ :: second :: rest = sent := (congrArg (List.cons _) hrest).symm.trans hsent
      have hnil : rest = [] := by
        rw [← hsent, List.length_cons, List.length_cons] at hlength
        exact List.length_eq_zero_iff.mp (by omega)
      rw [hnil] at hsent
      exact hkeyed'.not_tenant (hkey.symm.trans (hsecond _ _ hsent.symm).2.2)
  · intro hnot
    cases hround : round cfg (answers 0) c b with
    | unsent e =>
      refine ⟨1, [], .error e, ?_, Nat.zero_le 2, fun _ _ h => nomatch h⟩
      rw [apiCallWithin, hround]
    | ended sent reply =>
      refine ⟨1, [sent], reply, ?_, Nat.le_succ 1, fun _ _ h => nomatch h⟩
      rw [apiCallWithin, hround]
    | refused sent evicted =>
      obtain ⟨hpath, readable, hresource, agentId, hkeyed⟩ := agentKeyed_of_refused hround
      have hfirst := hkeyed.round hpath hresource
      obtain ⟨hsent, rfl⟩ := Round.refused.inj (hfirst.symm.trans hround)
      -- Nobody is keyed in the second round, or the key would have come back.
      have hunkeyed : ∀ named key', ¬ AgentKeyed cfg (answers 1) { c with agentId := none }
          (evictAgentKey (answers 0) (resolveAgentKey cfg (answers 0) b agentId).1 agentId)
          named key' := fun named key' hkeyed' =>
        hnot ⟨hpath, ⟨readable, hresource⟩, agentId, _, hkeyed, named, key', hkeyed'⟩
      obtain ⟨rest, reply, hrun, hlength, htenant⟩ :=
        ends_unkeyed (fun i => answers (i + 1)) hunkeyed
      refine ⟨2, sent :: rest, reply, ?_, Nat.succ_le_succ hlength, fun first second hboth => ?_⟩
      · rw [apiCallWithin_refused hround, hrun]
      · obtain ⟨rfl, rfl⟩ := List.cons.inj hboth
        have hanswer : sent.answer = (answers 0).resource := by rw [← hsent]
        exact ⟨⟨readable, hanswer.trans hresource⟩, hkeyed.not_tenant,
          htenant second List.mem_cons_self⟩

end Retry

def sampleConfig : ApiConfig := ⟨"/api/v1".toList, ['t']⟩

def bodyCall : ApiRequest := ⟨"/memories".toList, none, some ['a'], none⟩

/-- The server provisions a key at every round and never takes it. -/
def refusing : ℕ → RoundAnswers := fun _ => ⟨some ['k'], .done, .done, .answered 401 true⟩

structure Broker.Unkeyed (b : Broker) : Prop where
  cache : b.cache ['a'] = none
  secrets : b.secrets ['a'] = none

theorem bodyCall_refused {b : Broker} (h : b.Unkeyed) : ∃ evicted : Broker, evicted.Unkeyed ∧
    round sampleConfig (refusing 0) bodyCall b = .refused ⟨['k'], .answered 401 true⟩ evicted := by
  have hresolved : resolveAgentKey sampleConfig (refusing 0) b ['a'] =
      (⟨Function.update b.cache ['a'] (some ['k']), Function.update b.secrets ['a'] (some ['k'])⟩,
        .ok (some ['k'])) := by
    unfold resolveAgentKey
    rw [if_neg (by decide), h.cache, h.secrets]
    rfl
  have hkeyed : AgentKeyed sampleConfig (refusing 0) bodyCall b ['a'] ['k'] :=
    ⟨by decide, by rw [hresolved], by decide, by decide⟩
  refine ⟨_, ?_, hkeyed.round (by decide) rfl⟩
  rw [hresolved]
  unfold evictAgentKey
  rw [if_pos (by simp)]
  have hgone : ∀ keys : Text → Option Text, Function.update keys ['a'] none ['a'] = none :=
    fun keys => Function.update_self ..
  exact ⟨hgone (Function.update b.cache ['a'] (some ['k'])),
    hgone (Function.update b.secrets ['a'] (some ['k']))⟩

theorem bodyCall_endless (rounds : ℕ) (b : Broker) (h : b.Unkeyed) :
    (apiCallWithin sampleConfig rounds refusing bodyCall b).2 = none := by
  induction rounds generalizing b with
  | zero => rfl
  | succ rounds ih =>
    obtain ⟨evicted, hevicted, hround⟩ := bodyCall_refused h
    rw [apiCallWithin_refused hround]
    exact ih evicted hevicted

theorem retries_without_end :
    ¬ ∀ (cfg : ApiConfig) (answers : ℕ → RoundAnswers) (c : ApiRequest) (b : Broker),
      RetriedOnce cfg answers c b := by
  intro h
  obtain ⟨rounds, sent, reply, hrun, -⟩ := h sampleConfig refusing bodyCall Broker.empty
  have hnone := bodyCall_endless rounds Broker.empty ⟨rfl, rfl⟩
  rw [hrun] at hnone
  exact nomatch hnone

end Memclaw.Plugin
