import Memclaw.Write.ServiceDefs
import Memclaw.Write.Table

/-! The first loop of a bulk write: which items it queues, and what its lookup knows. -/

namespace Memclaw.Write

open Memclaw.Lib

theorem append_separator_inj {c : Char} {l₁ l₂ d₁ d₂ : List Char} (h₁ : c ∉ d₁) (h₂ : c ∉ d₂)
    (h : d₁ ++ c :: l₁ = d₂ ++ c :: l₂) : d₁ = d₂ ∧ l₁ = l₂ := by
  induction d₁ generalizing d₂ with
  | nil =>
    cases d₂ with
    | nil => exact ⟨rfl, (List.cons.inj h).2⟩
    | cons d d₂ => exact absurd (by rw [(List.cons.inj h).1]; simp) h₂
  | cons d d₁ ih =>
    cases d₂ with
    | nil => exact absurd (by rw [← (List.cons.inj h).1]; simp) h₁
    | cons d' d₂ =>
      obtain ⟨rfl, htail⟩ := List.cons.inj h
      obtain ⟨rfl, hrest⟩ := ih (fun hc => h₁ (List.mem_cons_of_mem _ hc))
        (fun hc => h₂ (List.mem_cons_of_mem _ hc)) htail
      exact ⟨rfl, hrest⟩

theorem toDigits_injective {m n : ℕ} (h : Nat.toDigits 10 m = Nat.toDigits 10 n) : m = n := by
  have hread := congrArg (Nat.ofDigitChars 10 · 0) h
  simpa only [Nat.ofDigitChars_ten_toDigits] using hread

theorem colon_notMem_toDigits (n : ℕ) : ':' ∉ Nat.toDigits 10 n := fun hc =>
  absurd (Nat.isDigit_of_mem_toDigits (by decide) (by decide) hc) (by decide)

theorem itemRequestId_injective {a b : String} {i j : ℕ}
    (h : itemRequestId a i = itemRequestId b j) : a = b ∧ i = j := by
  have hlist : a.toList ++ ':' :: Nat.toDigits 10 i = b.toList ++ ':' :: Nat.toDigits 10 j := by
    have htext := congrArg String.toList h
    simpa [itemRequestId, Nat.repr] using htext
  have hreverse := congrArg List.reverse hlist
  simp only [List.reverse_append, List.reverse_cons, List.append_assoc, List.singleton_append]
    at hreverse
  obtain ⟨hdigits, htext⟩ := append_separator_inj
    (fun hc => colon_notMem_toDigits i (List.mem_reverse.mp hc))
    (fun hc => colon_notMem_toDigits j (List.mem_reverse.mp hc)) hreverse
  exact ⟨String.toList_inj.mp (List.reverse_injective htext),
    toDigits_injective (List.reverse_injective hdigits)⟩

theorem itemRequestId_ne_empty (a : String) (i : ℕ) : itemRequestId a i ≠ "" := by
  simp [itemRequestId]

theorem dictGet_eq_none {α : Type} {pairs : List (String × α)} {key : String}
    (h : dictGet pairs key = none) : ∀ p ∈ pairs, p.1 ≠ key := by
  unfold dictGet at h
  rw [Option.map_eq_none_iff, List.getLast?_eq_none_iff, List.filter_eq_nil_iff] at h
  simpa using h

theorem dictGet_mem {α : Type} {pairs : List (String × α)} {key : String} {a : α}
    (h : dictGet pairs key = some a) : (key, a) ∈ pairs := by
  unfold dictGet at h
  obtain ⟨p, hp, rfl⟩ := Option.map_eq_some_iff.mp h
  have hmem := List.mem_filter.mp (List.mem_of_getLast? hp)
  have hkey : p.1 = key := by simpa using hmem.2
  rw [← hkey]
  exact hmem.1

section

variable {env : WriteEnv} {t : Table} {req : BulkRequest}

theorem mem_bulkLookup {h : String} {found : Existing} (hmem : (h, found) ∈ bulkLookup env t req) :
    ∃ r ∈ t.live, hashMatches req.tenantId req.fleetId (some req.agentId) h r = true ∧
      found = ⟨r.id, r.clientRequestId⟩ := by
  unfold bulkLookup at hmem
  split_ifs at hmem
  · exact absurd hmem List.not_mem_nil
  · obtain ⟨r, hr, heq⟩ := List.mem_map.mp hmem
    obtain ⟨hlive, hwhere⟩ := List.mem_filter.mp ((env.order_perm _).mem_iff.mp hr)
    rw [Bool.and_eq_true] at hwhere
    obtain ⟨rfl, rfl⟩ := Prod.mk.inj heq
    exact ⟨r, hlive, hwhere.2, rfl⟩

theorem bulkLookup_complete {h : String} (hh : h ∈ bulkHashes env req) {r : Row} (hr : r ∈ t.live)
    (hwhere : hashMatches req.tenantId req.fleetId (some req.agentId) h r = true) :
    (h, ⟨r.id, r.clientRequestId⟩) ∈ bulkLookup env t req := by
  have hhash : r.contentHash = h := by
    simp only [hashMatches, Bool.and_eq_true, decide_eq_true_eq] at hwhere
    exact hwhere.1.1.2
  unfold bulkLookup
  rw [if_neg (List.ne_nil_of_mem hh)]
  refine List.mem_map.mpr ⟨r, (env.order_perm _).mem_iff.mpr (List.mem_filter.mpr ⟨hr, ?_⟩), ?_⟩
  · rw [Bool.and_eq_true, hhash]
    exact ⟨List.contains_iff_mem.mpr hh, hwhere⟩
  · rw [hhash]

theorem mem_bulkHashes {i : ℕ} {content : String}
    (hitem : (req.items.map (screen env req.tenantId))[i]? = some (.kept content)) :
    contentHash req.tenantId req.fleetId content ∈ bulkHashes env req := by
  rw [List.getElem?_map, Option.map_eq_some_iff] at hitem
  obtain ⟨item, hget, hscreen⟩ := hitem
  refine List.mem_map.mpr ⟨item, List.mem_of_getElem? hget, ?_⟩
  rw [hscreen]
  rfl

end

section

variable {req : BulkRequest} {bulkAttemptId : String} {existing : List (String × Existing)}

theorem slotOf_queued {seen : List (String × ℕ)} {i : ℕ} {item : Screened} {n : NewRow}
    (h : slotOf req bulkAttemptId existing seen i item = .queued n) :
    ∃ content, item = .kept content ∧ n = itemRow req bulkAttemptId i content ∧
      dictGet existing n.contentHash = none ∧ ∀ entry ∈ seen, entry.1 ≠ n.contentHash := by
  unfold slotOf at h
  cases item with
  | short => cases h
  | dropped => cases h
  | kept content =>
    simp only [] at h
    cases hfound : dictGet existing (itemRow req bulkAttemptId i content).contentHash with
    | some found =>
      rw [hfound] at h
      simp only [] at h
      split_ifs at h
    | none =>
      rw [hfound] at h
      simp only [] at h
      cases hseen : seen.find? (·.1 = (itemRow req bulkAttemptId i content).contentHash) with
      | some entry =>
        rw [hseen] at h
        cases h
      | none =>
        rw [hseen] at h
        cases h
        refine ⟨content, rfl, rfl, hfound, fun entry hentry heq => ?_⟩
        rw [List.find?_eq_none] at hseen
        exact hseen entry hentry (by simpa using heq)

/-- The rows of the insert: each for a kept item whose hash the lookup did not find, with
distinct hashes that are not in `seen`. -/
theorem slots_pending (req : BulkRequest) (bulkAttemptId : String)
    (existing : List (String × Existing)) (i : ℕ) (seen : List (String × ℕ))
    (items : List Screened) :
    (((slots req bulkAttemptId existing i seen items).filterMap Slot.pending).map
        (·.contentHash)).Nodup ∧
      ∀ n ∈ (slots req bulkAttemptId existing i seen items).filterMap Slot.pending,
        (∀ entry ∈ seen, entry.1 ≠ n.contentHash) ∧ dictGet existing n.contentHash = none ∧
          ∃ k content, items[k]? = some (.kept content) ∧
            n = itemRow req bulkAttemptId (i + k) content := by
  induction items generalizing i seen with
  | nil => exact ⟨List.nodup_nil, fun n hn => absurd hn List.not_mem_nil⟩
  | cons item items ih =>
    obtain ⟨hnodup, hrows⟩ := ih (i + 1)
      (seen ++ (slotOf req bulkAttemptId existing seen i item).seen i)
    have htail : ∀ n ∈ (slots req bulkAttemptId existing (i + 1)
        (seen ++ (slotOf req bulkAttemptId existing seen i item).seen i) items).filterMap Slot.pending,
        (∀ entry ∈ seen, entry.1 ≠ n.contentHash) ∧ dictGet existing n.contentHash = none ∧
          ∃ k content, (item :: items)[k]? = some (.kept content) ∧
            n = itemRow req bulkAttemptId (i + k) content := by
      intro n hn
      obtain ⟨hseen, hnone, k, content, hget, hrow⟩ := hrows n hn
      refine ⟨fun entry hentry => hseen entry (List.mem_append_left _ hentry), hnone,
        k + 1, content, by simpa using hget, ?_⟩
      rw [hrow, show i + 1 + k = i + (k + 1) by omega]
    unfold slots
    cases hslot : slotOf req bulkAttemptId existing seen i item with
    | done result =>
      rw [hslot] at hnodup htail
      exact ⟨hnodup, htail⟩
    | repeated first =>
      rw [hslot] at hnodup htail
      exact ⟨hnodup, htail⟩
    | queued n =>
      obtain ⟨content, rfl, hrow, hnone, hnew⟩ := slotOf_queued hslot
      rw [hslot] at hnodup htail hrows
      refine ⟨?_, fun m hm => ?_⟩
      · refine List.nodup_cons.mpr ⟨fun hmem => ?_, hnodup⟩
        obtain ⟨m, hm, heq⟩ := List.mem_map.mp hmem
        exact (hrows m hm).1 (n.contentHash, i) (by simp [Slot.seen]) heq.symm
      · rcases List.mem_cons.mp hm with rfl | hm
        · exact ⟨hnew, hnone, 0, content, rfl, hrow⟩
        · exact htail m hm

/-- What the first loop decides about a kept item: its content was found, is repeated in
the batch, or is queued. -/
inductive KeptSlot (req : BulkRequest) (bulkAttemptId : String) (existing : List (String × Existing))
    (all : List Slot) (i : ℕ) (content : String) : Slot → Prop
  | found {e : Existing} (he : dictGet existing (contentHash req.tenantId req.fleetId content) = some e) :
    KeptSlot req bulkAttemptId existing all i content (.done
      (if e.clientRequestId = some (itemRequestId bulkAttemptId i) then
        ⟨i, itemRequestId bulkAttemptId i, .duplicateAttempt, some e.id, none, none⟩
      else ⟨i, itemRequestId bulkAttemptId i, .duplicateContent, some e.id, some e.id, none⟩))
  | repeated {first : ℕ} {n : NewRow} (hfirst : all[first]? = some (.queued n))
      (hhash : n.contentHash = contentHash req.tenantId req.fleetId content) :
    KeptSlot req bulkAttemptId existing all i content (.repeated first)
  | queued : KeptSlot req bulkAttemptId existing all i content
      (.queued (itemRow req bulkAttemptId i content))

theorem slotOf_kept {seen : List (String × ℕ)} {i : ℕ} {content : String} {all : List Slot}
    (hseen : ∀ entry ∈ seen, ∃ n, all[entry.2]? = some (.queued n) ∧ n.contentHash = entry.1) :
    KeptSlot req bulkAttemptId existing all i content
      (slotOf req bulkAttemptId existing seen i (.kept content)) := by
  unfold slotOf
  simp only []
  cases hfound : dictGet existing (itemRow req bulkAttemptId i content).contentHash with
  | some e =>
    have hslot : KeptSlot req bulkAttemptId existing all i content _ := .found hfound
    simp only []
    split_ifs at hslot ⊢ with hown
    · exact hslot
    · exact hslot
  | none =>
    simp only []
    cases hfind : seen.find? (·.1 = (itemRow req bulkAttemptId i content).contentHash) with
    | none => exact .queued
    | some entry =>
      obtain ⟨n, hget, hhash⟩ := hseen entry (List.mem_of_find?_eq_some hfind)
      have hentry : entry.1 = (itemRow req bulkAttemptId i content).contentHash := by
        simpa using List.find?_some hfind
      exact .repeated hget (hhash.trans hentry)

def ItemSlot (req : BulkRequest) (bulkAttemptId : String) (existing : List (String × Existing))
    (all : List Slot) (i : ℕ) : Screened → Slot → Prop
  | .kept content, slot => KeptSlot req bulkAttemptId existing all i content slot
  | _, slot => ∃ result, slot = .done result ∧ result.id = none

theorem slotOf_item {seen : List (String × ℕ)} {i : ℕ} {all : List Slot}
    (hseen : ∀ entry ∈ seen, ∃ n, all[entry.2]? = some (.queued n) ∧ n.contentHash = entry.1)
    (item : Screened) :
    ItemSlot req bulkAttemptId existing all i item (slotOf req bulkAttemptId existing seen i item) := by
  cases item with
  | short => exact ⟨_, rfl, rfl⟩
  | dropped => exact ⟨_, rfl, rfl⟩
  | kept content => exact slotOf_kept hseen

theorem slots_getElem? (pre : List Slot) (seen : List (String × ℕ)) (items : List Screened)
    (hseen : ∀ entry ∈ seen, ∃ n, pre[entry.2]? = some (.queued n) ∧ n.contentHash = entry.1)
    {k : ℕ} {item : Screened} (hitem : items[k]? = some item) :
    ∃ slot, (slots req bulkAttemptId existing pre.length seen items)[k]? = some slot ∧
      ItemSlot req bulkAttemptId existing
        (pre ++ slots req bulkAttemptId existing pre.length seen items) (pre.length + k) item slot := by
  induction items generalizing pre seen k with
  | nil => simp at hitem
  | cons first items ih =>
    have hbefore : ∀ rest : List Slot, ∀ entry ∈ seen,
        ∃ n, (pre ++ rest)[entry.2]? = some (.queued n) ∧ n.contentHash = entry.1 := by
      intro rest entry hentry
      obtain ⟨n, hget, hhash⟩ := hseen entry hentry
      refine ⟨n, ?_, hhash⟩
      rw [List.getElem?_append_left (List.getElem?_eq_some_iff.mp hget).1]
      exact hget
    cases k with
    | zero =>
      rw [List.getElem?_cons_zero, Option.some.injEq] at hitem
      subst hitem
      exact ⟨_, rfl, slotOf_item (hbefore _) first⟩
    | succ k =>
      have hseen' : ∀ entry ∈ seen ++ (slotOf req bulkAttemptId existing seen pre.length first).seen
          pre.length, ∃ n, (pre ++ [slotOf req bulkAttemptId existing seen pre.length first])[entry.2]? =
            some (.queued n) ∧ n.contentHash = entry.1 := by
        intro entry hentry
        rcases List.mem_append.mp hentry with hold | hnew
        · exact hbefore _ entry hold
        · cases hslot : slotOf req bulkAttemptId existing seen pre.length first with
          | done result =>
            rw [hslot] at hnew
            exact absurd hnew List.not_mem_nil
          | repeated j =>
            rw [hslot] at hnew
            exact absurd hnew List.not_mem_nil
          | queued n =>
            rw [hslot] at hnew
            rw [List.mem_singleton.mp hnew]
            exact ⟨n, by simp, rfl⟩
      obtain ⟨slot, hget, hslot⟩ := ih
        (pre ++ [slotOf req bulkAttemptId existing seen pre.length first]) _ hseen'
        (by simpa using hitem)
      simp only [List.length_append, List.length_singleton, List.append_assoc, List.singleton_append]
        at hget hslot
      refine ⟨slot, ?_, ?_⟩
      · simpa [slots] using hget
      · rw [show pre.length + (k + 1) = pre.length + 1 + k by omega]
        exact hslot

end

section

variable {env : WriteEnv} {req : BulkRequest} {bulkAttemptId : String}
  {existing : List (String × Existing)}

theorem bulkSlots_item {i : ℕ} {item : Screened}
    (hitem : (req.items.map (screen env req.tenantId))[i]? = some item) :
    ∃ slot, (bulkSlots env req bulkAttemptId existing)[i]? = some slot ∧
      ItemSlot req bulkAttemptId existing (bulkSlots env req bulkAttemptId existing) i item slot := by
  have hslots : ∃ slot, (slots req bulkAttemptId existing ([] : List Slot).length [] _)[i]? =
      some slot ∧ _ := slots_getElem? [] [] _ (fun _ h => absurd h List.not_mem_nil) hitem
  rw [List.length_nil, Nat.zero_add, List.nil_append] at hslots
  exact hslots

theorem slots_length (i : ℕ) (seen : List (String × ℕ)) (items : List Screened) :
    (slots req bulkAttemptId existing i seen items).length = items.length := by
  induction items generalizing i seen with
  | nil => rfl
  | cons item items ih => rw [slots, List.length_cons, List.length_cons, ih]

theorem bulkSlots_length :
    (bulkSlots env req bulkAttemptId existing).length = req.items.length := by
  rw [bulkSlots, slots_length, List.length_map]

theorem mem_pendingRows {n : NewRow} (hn : n ∈ pendingRows env req bulkAttemptId existing) :
    ∃ i content, (req.items.map (screen env req.tenantId))[i]? = some (.kept content) ∧
      n = itemRow req bulkAttemptId i content ∧ dictGet existing n.contentHash = none := by
  obtain ⟨-, hnone, i, content, hitem, hrow⟩ :=
    (slots_pending req bulkAttemptId existing 0 [] (req.items.map (screen env req.tenantId))).2 n hn
  rw [Nat.zero_add] at hrow
  exact ⟨i, content, hitem, hrow, hnone⟩

theorem pendingRows_hash_nodup :
    ((pendingRows env req bulkAttemptId existing).map (·.contentHash)).Nodup :=
  (slots_pending req bulkAttemptId existing 0 [] (req.items.map (screen env req.tenantId))).1

theorem queued_mem_pendingRows {i : ℕ} {n : NewRow}
    (h : (bulkSlots env req bulkAttemptId existing)[i]? = some (.queued n)) :
    n ∈ pendingRows env req bulkAttemptId existing :=
  List.mem_filterMap.mpr ⟨_, List.mem_of_getElem? h, rfl⟩

theorem pendingRows_eq_of_request {m n : NewRow}
    (hm : m ∈ pendingRows env req bulkAttemptId existing)
    (hn : n ∈ pendingRows env req bulkAttemptId existing)
    (h : m.clientRequestId = n.clientRequestId) : m = n := by
  obtain ⟨i, c, hi, rfl, -⟩ := mem_pendingRows hm
  obtain ⟨j, d, hj, rfl, -⟩ := mem_pendingRows hn
  obtain ⟨-, rfl⟩ := itemRequestId_injective (Option.some.inj h)
  rw [hi] at hj
  cases hj
  rfl

theorem bulkCommit_eq (t : Table) :
    bulkCommit env t req bulkAttemptId existing =
      some ((t.insertAll (pendingRows env req bulkAttemptId existing)).1,
        (bulkSlots env req bulkAttemptId existing).mapIdx (resolve
          ((pendingRows env req bulkAttemptId existing).map
            (storageResult (t.insertAll (pendingRows env req bulkAttemptId existing))))
          bulkAttemptId (bulkSlots env req bulkAttemptId existing))) := by
  have hrequest : ∀ n ∈ pendingRows env req bulkAttemptId existing,
      n.clientRequestId.getD "" ≠ "" := by
    intro n hn
    obtain ⟨i, content, -, rfl, -⟩ := mem_pendingRows hn
    exact itemRequestId_ne_empty bulkAttemptId i
  have hscope : ∀ n ∈ pendingRows env req bulkAttemptId existing,
      ∀ m ∈ pendingRows env req bulkAttemptId existing,
        n.tenantId = m.tenantId ∧ n.fleetId = m.fleetId := by
    intro n hn m hm
    obtain ⟨i, content, -, rfl, -⟩ := mem_pendingRows hn
    obtain ⟨j, content', -, rfl, -⟩ := mem_pendingRows hm
    exact ⟨rfl, rfl⟩
  rw [bulkCommit, t.memoryAddAll_accepts hrequest hscope]

theorem storageResult_request (inserted : Table × List (Option String × ℕ)) (n : NewRow) :
    (storageResult inserted n).clientRequestId = n.clientRequestId := by
  unfold storageResult
  split <;> rfl

theorem resolveQueued_eq {n : NewRow} (hn : n ∈ pendingRows env req bulkAttemptId existing)
    (inserted : Table × List (Option String × ℕ)) (i : ℕ) :
    resolveQueued ((pendingRows env req bulkAttemptId existing).map (storageResult inserted)) i n =
      match storageResult inserted n with
      | ⟨_, some id, true⟩ => ⟨i, n.clientRequestId.getD "", .created, some id, none, none⟩
      | ⟨_, some id, false⟩ => ⟨i, n.clientRequestId.getD "", .duplicateAttempt, some id, none, none⟩
      | _ => ⟨i, n.clientRequestId.getD "", .error, none, none,
          some "storage did not return an id for this item"⟩ := by
  -- The storage result of a queued row is the one for its own request id.
  have hfind : ((pendingRows env req bulkAttemptId existing).map (storageResult inserted)).find?
      (·.clientRequestId = n.clientRequestId) = some (storageResult inserted n) := by
    rw [List.find?_map]
    simp only [Function.comp_def, storageResult_request]
    cases hown : (pendingRows env req bulkAttemptId existing).find?
        (fun m => m.clientRequestId = n.clientRequestId) with
    | none =>
      rw [List.find?_eq_none] at hown
      exact absurd (by simp) (hown n hn)
    | some m =>
      have hrequest : m.clientRequestId = n.clientRequestId := by simpa using List.find?_some hown
      rw [pendingRows_eq_of_request (List.mem_of_find?_eq_some hown) hn hrequest]
      rfl
  unfold resolveQueued
  rw [hfind]
  rcases storageResult inserted n with ⟨request, _ | id, _ | _⟩ <;> rfl

/-- A queued row was inserted, or its attempt was taken and the re-read decides. -/
theorem resolveQueued_cases {t : Table} {added : List Row}
    (hadded : Inserted t (pendingRows env req bulkAttemptId existing) added) {n : NewRow}
    (hn : n ∈ pendingRows env req bulkAttemptId existing) (i : ℕ) :
    (∃ r ∈ added, r.toNewRow = n ∧ resolveQueued ((pendingRows env req bulkAttemptId existing).map
        (storageResult (t.insertAll (pendingRows env req bulkAttemptId existing)))) i n =
          ⟨i, n.clientRequestId.getD "", .created, some r.id, none, none⟩) ∨
      ((∃ y ∈ (t.insertAll (pendingRows env req bulkAttemptId existing)).1.live,
          SameAttempt y.toNewRow n) ∧
        ∀ id, (t.insertAll (pendingRows env req bulkAttemptId existing)).1.findAttempt n = some id →
          resolveQueued ((pendingRows env req bulkAttemptId existing).map
            (storageResult (t.insertAll (pendingRows env req bulkAttemptId existing)))) i n =
              ⟨i, n.clientRequestId.getD "", .duplicateAttempt, some id, none, none⟩) := by
  rw [resolveQueued_eq hn]
  unfold storageResult
  cases hfind : (t.insertAll (pendingRows env req bulkAttemptId existing)).2.find?
      (·.1 = n.clientRequestId) with
  | some entry =>
    refine .inl ?_
    rw [hadded.returned] at hfind
    obtain ⟨r, hr, rfl⟩ := List.mem_map.mp (List.mem_of_find?_eq_some hfind)
    have hrequest : r.clientRequestId = n.clientRequestId := by simpa using List.find?_some hfind
    have hpending : r.toNewRow ∈ pendingRows env req bulkAttemptId existing :=
      hadded.sublist.mem (List.mem_map_of_mem hr)
    exact ⟨r, hr, pendingRows_eq_of_request hpending hn hrequest, rfl⟩
  | none =>
    refine .inr ⟨?_, fun id hid => ?_⟩
    · rcases hadded.swallowed n hn with ⟨r, hr, rfl⟩ | htaken
      · rw [hadded.returned, List.find?_eq_none] at hfind
        exact absurd (by simp) (hfind _ (List.mem_map_of_mem hr))
      · exact htaken
    · rw [hid]

end

end Memclaw.Write
