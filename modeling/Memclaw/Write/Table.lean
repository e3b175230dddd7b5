import Memclaw.Write.TableDefs

/-! Inserts and lookups of the memories table: what an insert adds, and that distinct
dedup keys stay distinct. -/

namespace Memclaw.Write

theorem Table.mem_live {t : Table} {r : Row} : r ∈ t.live ↔ r ∈ t.rows ∧ r.deleted = false := by
  simp [Table.live]

theorem Table.attemptTaken_iff {t : Table} {n : NewRow} :
    t.attemptTaken n = true ↔ ∃ r ∈ t.live, SameAttempt r.toNewRow n := by
  simp [Table.attemptTaken]

theorem Table.insert_eq_none {t : Table} {n : NewRow} :
    t.insert n = none ↔ t.attemptTaken n = true := by
  unfold Table.insert
  split_ifs with htaken <;> simp [htaken]

theorem Table.insert_eq_some {t t' : Table} {n : NewRow} (h : t.insert n = some t') :
    t.attemptTaken n = false ∧ t'.rows = t.rows ++ [⟨n, t.nextId, false⟩] ∧
      t'.nextId = t.nextId + 1 := by
  unfold Table.insert at h
  split_ifs at h with htaken
  rw [← Option.some.inj h]
  exact ⟨by simpa using htaken, rfl, rfl⟩

theorem Table.insert_live {t t' : Table} {n : NewRow} (h : t.insert n = some t') :
    t'.live = t.live ++ [⟨n, t.nextId, false⟩] := by
  rw [Table.live, (Table.insert_eq_some h).2.1, List.filter_append]
  rfl

theorem Table.insert_of_no_request {t : Table} {n : NewRow} (hn : n.clientRequestId = none) :
    ∃ t', t.insert n = some t' := by
  cases h : t.insert n with
  | some t' => exact ⟨t', rfl⟩
  | none =>
    obtain ⟨r, -, -, -, hsome, heq⟩ := Table.attemptTaken_iff.mp (Table.insert_eq_none.mp h)
    exact absurd (heq.trans hn) hsome

/-- What a multi-row insert does: it appends live rows for the items whose attempt is not
taken, and returns their ids. -/
structure Inserted (t : Table) (items : List NewRow) (added : List Row) : Prop where
  rows : (t.insertAll items).1.rows = t.rows ++ added
  sublist : (added.map (·.toNewRow)).Sublist items
  live : ∀ r ∈ added, r.deleted = false
  returned : (t.insertAll items).2 = added.map fun r => (r.clientRequestId, r.id)
  free : ∀ r ∈ added, ∀ s ∈ t.live, ¬ SameAttempt s.toNewRow r.toNewRow
  swallowed : ∀ n ∈ items, (∃ r ∈ added, r.toNewRow = n) ∨
    ∃ y ∈ (t.insertAll items).1.live, SameAttempt y.toNewRow n

theorem exists_inserted (t : Table) (items : List NewRow) : ∃ added, Inserted t items added := by
  induction items generalizing t with
  | nil =>
    refine ⟨[], by simp [Table.insertAll], List.Sublist.slnil, ?_, rfl, ?_, ?_⟩
    all_goals exact fun _ h => absurd h List.not_mem_nil
  | cons n items ih =>
    cases hinsert : t.insert n with
    | none =>
      obtain ⟨added, hadded⟩ := ih t
      have hstep : t.insertAll (n :: items) = t.insertAll items := by
        rw [Table.insertAll, hinsert]
      refine ⟨added, ?_, hadded.sublist.cons n, hadded.live, ?_, hadded.free, ?_⟩
      · rw [hstep]
        exact hadded.rows
      · rw [hstep]
        exact hadded.returned
      · rw [hstep]
        intro m hm
        rcases List.mem_cons.mp hm with rfl | hrest
        · obtain ⟨y, hy, hsame⟩ := Table.attemptTaken_iff.mp (Table.insert_eq_none.mp hinsert)
          obtain ⟨hrows, hlive⟩ := Table.mem_live.mp hy
          refine .inr ⟨y, Table.mem_live.mpr ⟨?_, hlive⟩, hsame⟩
          rw [hadded.rows]
          exact List.mem_append_left _ hrows
        · exact hadded.swallowed m hrest
    | some t' =>
      obtain ⟨added, hadded⟩ := ih t'
      obtain ⟨htaken, hrows, -⟩ := Table.insert_eq_some hinsert
      have hstep : t.insertAll (n :: items) =
          ((t'.insertAll items).1, (n.clientRequestId, t.nextId) :: (t'.insertAll items).2) := by
        rw [Table.insertAll, hinsert]
      refine ⟨⟨n, t.nextId, false⟩ :: added, ?_, hadded.sublist.cons_cons n, ?_, ?_, ?_, ?_⟩
      · rw [hstep, hadded.rows, hrows, List.append_assoc]
        rfl
      · intro r hr
        rcases List.mem_cons.mp hr with rfl | hr
        · rfl
        · exact hadded.live r hr
      · rw [hstep, hadded.returned]
        rfl
      · intro r hr y hy hsame
        rcases List.mem_cons.mp hr with rfl | hr
        · rw [Table.attemptTaken_iff.mpr ⟨y, hy, hsame⟩] at htaken
          cases htaken
        · refine hadded.free r hr y ?_ hsame
          rw [Table.insert_live hinsert]
          exact List.mem_append_left _ hy
      · rw [hstep]
        intro m hm
        rcases List.mem_cons.mp hm with rfl | hrest
        · exact .inl ⟨⟨m, t.nextId, false⟩, by simp, rfl⟩
        · rcases hadded.swallowed m hrest with ⟨r, hr, hrow⟩ | htaken'
          · exact .inl ⟨r, List.mem_cons_of_mem _ hr, hrow⟩
          · exact .inr htaken'

theorem Table.memoryAddAll_accepts (t : Table) {items : List NewRow}
    (hrequest : ∀ n ∈ items, n.clientRequestId.getD "" ≠ "")
    (hscope : ∀ n ∈ items, ∀ m ∈ items, n.tenantId = m.tenantId ∧ n.fleetId = m.fleetId) :
    t.memoryAddAll items =
      some ((t.insertAll items).1, items.map (storageResult (t.insertAll items))) := by
  cases items with
  | nil => rfl
  | cons first rest =>
    have hids : ¬ (first :: rest).any (fun n => n.clientRequestId.getD "" = "") = true := by
      rw [List.any_eq_true]
      rintro ⟨n, hn, hempty⟩
      exact hrequest n hn (by simpa using hempty)
    have hsame : ¬ (first :: rest).any (fun n =>
        n.tenantId ≠ first.tenantId || n.fleetId ≠ first.fleetId) = true := by
      rw [List.any_eq_true]
      rintro ⟨n, hn, hother⟩
      have hboth := hscope n hn first (by simp)
      simp [hboth.1, hboth.2] at hother
    exact (if_neg hids).trans (if_neg hsame)

def NewRow.key (n : NewRow) : String × Option String × String × String :=
  (n.tenantId, n.fleetId, n.agentId, n.contentHash)

def UniqueLive (t : Table) : Prop := ∀ r ∈ t.live, ∀ s ∈ t.live, r.key = s.key → r = s

def KeysFree (t : Table) (items : List NewRow) : Prop :=
  (items.map NewRow.key).Nodup ∧ ∀ n ∈ items, ∀ r ∈ t.live, r.key ≠ n.key

theorem uniqueLive_empty : UniqueLive Table.empty := fun _ hr => absurd hr List.not_mem_nil

theorem uniqueLive_insert {t t' : Table} {n : NewRow} (h : t.insert n = some t') (hu : UniqueLive t)
    (hfree : ∀ r ∈ t.live, r.key ≠ n.key) : UniqueLive t' := by
  intro r hr s hs hkey
  rw [Table.insert_live h, List.mem_append, List.mem_singleton] at hr hs
  rcases hr with hr | rfl
  · rcases hs with hs | rfl
    · exact hu r hr s hs hkey
    · exact absurd hkey (hfree r hr)
  · rcases hs with hs | rfl
    · exact absurd hkey.symm (hfree s hs)
    · rfl

theorem KeysFree.insert {t t' : Table} {n : NewRow} {items : List NewRow}
    (hfree : KeysFree t (n :: items)) (h : t.insert n = some t') : KeysFree t' items := by
  obtain ⟨hnodup, hnew⟩ := hfree
  rw [List.map_cons, List.nodup_cons] at hnodup
  refine ⟨hnodup.2, fun m hm r hr => ?_⟩
  rw [Table.insert_live h, List.mem_append, List.mem_singleton] at hr
  rcases hr with hold | rfl
  · exact hnew m (List.mem_cons_of_mem _ hm) r hold
  · exact fun hkey => hnodup.1 (List.mem_map.mpr ⟨m, hm, hkey.symm⟩)

theorem KeysFree.head {t : Table} {n : NewRow} {items : List NewRow}
    (hfree : KeysFree t (n :: items)) : ∀ r ∈ t.live, r.key ≠ n.key :=
  hfree.2 n List.mem_cons_self

theorem uniqueLive_insertAll {t : Table} (hu : UniqueLive t) {items : List NewRow}
    (hfree : KeysFree t items) : UniqueLive (t.insertAll items).1 := by
  induction items generalizing t with
  | nil => exact hu
  | cons n items ih =>
    unfold Table.insertAll
    cases hinsert : t.insert n with
    | none =>
      have hrest : KeysFree t items :=
        ⟨(List.nodup_cons.mp hfree.1).2, fun m hm => hfree.2 m (List.mem_cons_of_mem _ hm)⟩
      exact ih hu hrest
    | some t' => exact ih (uniqueLive_insert hinsert hu hfree.head) (hfree.insert hinsert)

theorem uniqueLive_memoryAddAll {t : Table} (hu : UniqueLive t) {items : List NewRow}
    (hfree : KeysFree t items) {added : Table × List StorageResult}
    (h : t.memoryAddAll items = some added) : UniqueLive added.1 := by
  unfold Table.memoryAddAll at h
  split at h
  · rw [← Option.some.inj h]
    exact hu
  · split_ifs at h
    rw [← Option.some.inj h]
    exact uniqueLive_insertAll hu hfree

theorem Table.live_of_softDelete {t : Table} {id : ℕ} {r : Row} (hr : r ∈ (t.softDelete id).live) :
    r ∈ t.live := by
  obtain ⟨hmem, hnot⟩ := Table.mem_live.mp hr
  obtain ⟨r', hr', rfl⟩ := List.mem_map.mp hmem
  unfold Row.softDelete at hnot ⊢
  split_ifs at hnot ⊢
  exact Table.mem_live.mpr ⟨hr', hnot⟩

theorem uniqueLive_softDelete {t : Table} (hu : UniqueLive t) (id : ℕ) :
    UniqueLive (t.softDelete id) :=
  fun r hr s hs => hu r (Table.live_of_softDelete hr) s (Table.live_of_softDelete hs)

theorem Table.mem_live_setContent {t : Table} {id : ℕ} {tenantId content contentHash : String}
    {r : Row} (hr : r ∈ (t.setContent id tenantId content contentHash).live) :
    (r ∈ t.live ∧ ¬ (r.id = id ∧ r.tenantId = tenantId)) ∨
      ∃ m ∈ t.live, m.id = id ∧ m.tenantId = tenantId ∧
        r = { m with content := content, contentHash := contentHash } := by
  obtain ⟨hmem, hnot⟩ := Table.mem_live.mp hr
  obtain ⟨m, hm, rfl⟩ := List.mem_map.mp hmem
  unfold Row.setContent at hnot ⊢
  split_ifs at hnot ⊢ with hchange
  · exact .inr ⟨m, Table.mem_live.mpr ⟨hm, hnot⟩, hchange.1, hchange.2.1, rfl⟩
  · exact .inl ⟨Table.mem_live.mpr ⟨hm, hnot⟩, fun h => hchange ⟨h.1, h.2, hnot⟩⟩

theorem Table.eq_of_id_eq {t : Table} {r s : Row} (hr : r ∈ t.live) (hs : s ∈ t.live)
    (h : r.id = s.id) : r = s :=
  List.inj_on_of_nodup_map t.nodup (Table.mem_live.mp hr).1 (Table.mem_live.mp hs).1 h

theorem uniqueLive_setContent {t : Table} (hu : UniqueLive t) {mem : Row} (hmem : mem ∈ t.live)
    {content contentHash : String}
    (hfree : ∀ r ∈ t.live, r.id ≠ mem.id →
      r.key ≠ (mem.tenantId, mem.fleetId, mem.agentId, contentHash)) :
    UniqueLive (t.setContent mem.id mem.tenantId content contentHash) := by
  intro r hr s hs hkey
  rcases Table.mem_live_setContent hr with ⟨hrlive, hrne⟩ | ⟨m, hm, hid, -, rfl⟩
  · have hrid : r.id ≠ mem.id := fun h =>
      hrne ⟨h, by rw [Table.eq_of_id_eq hrlive hmem h]⟩
    rcases Table.mem_live_setContent hs with ⟨hslive, -⟩ | ⟨m', hm', hid', -, rfl⟩
    · exact hu r hrlive s hslive hkey
    · obtain rfl := Table.eq_of_id_eq hm' hmem hid'
      exact absurd hkey (hfree r hrlive hrid)
  · obtain rfl := Table.eq_of_id_eq hm hmem hid
    rcases Table.mem_live_setContent hs with ⟨hslive, hsne⟩ | ⟨m', hm', hid', -, rfl⟩
    · have hsid : s.id ≠ m.id := fun h => hsne ⟨h, by rw [Table.eq_of_id_eq hslive hm h]⟩
      exact absurd hkey.symm (hfree s hslive hsid)
    · rw [Table.eq_of_id_eq hm' hm hid']

theorem scalarOneOrNone_none {rows : List Row} (h : scalarOneOrNone rows = .none) : rows = [] := by
  unfold scalarOneOrNone at h
  split at h <;> simp_all

theorem scalarOneOrNone_one {rows : List Row} {r : Row} (h : scalarOneOrNone rows = .one r) :
    rows = [r] := by
  unfold scalarOneOrNone at h
  split at h <;> simp_all

theorem scalarOneOrNone_of_subsingleton {rows : List Row} (hnodup : rows.Nodup)
    (hone : ∀ r ∈ rows, ∀ s ∈ rows, r = s) : scalarOneOrNone rows ≠ .multiple := by
  unfold scalarOneOrNone
  split
  · simp
  · simp
  · next hnil hsingle =>
    rcases rows with _ | ⟨r, _ | ⟨s, rest⟩⟩
    · exact absurd rfl hnil
    · exact absurd rfl (hsingle r)
    · have heq : r = s := hone r (by simp) s (by simp)
      simp [heq] at hnodup

theorem Table.live_nodup (t : Table) : t.live.Nodup := (List.Nodup.of_map _ t.nodup).filter _

theorem fleetMatches_iff {fleetId : Option String} (hfleet : fleetId ≠ some "") (r : Row) :
    fleetMatches fleetId r = true ↔ r.fleetId = fleetId := by
  unfold fleetMatches
  cases fleetId with
  | none => simp
  | some fleet =>
    have hset : fleet ≠ "" := fun h => hfleet (by rw [h])
    simp [hset]

theorem hashMatches_iff {tenantId : String} {fleetId : Option String} (hfleet : fleetId ≠ some "")
    {agentId hash : String} (r : Row) :
    hashMatches tenantId fleetId (some agentId) hash r = true ↔
      r.key = (tenantId, fleetId, agentId, hash) := by
  simp only [hashMatches, Bool.and_eq_true, decide_eq_true_eq, fleetMatches_iff hfleet,
    Option.isNone_some, Bool.false_or, Option.some.injEq, NewRow.key, Prod.mk.injEq]
  tauto

theorem findByContentHash_ne_multiple {t : Table} (hu : UniqueLive t)
    (tenantId contentHash : String) (fleetId : Option String) (agentId : String) :
    t.findByContentHash tenantId contentHash fleetId (some agentId) ≠ .multiple := by
  -- With unique keys a lookup for one agent finds at most one row.
  refine scalarOneOrNone_of_subsingleton (t.live_nodup.filter _) ?_
  intro r hr s hs
  obtain ⟨hr, hrm⟩ := List.mem_filter.mp hr
  obtain ⟨hs, hsm⟩ := List.mem_filter.mp hs
  refine hu r hr s hs ?_
  have hfleet : r.fleetId = s.fleetId := by
    simp only [hashMatches, Bool.and_eq_true, fleetMatches] at hrm hsm
    split_ifs at hrm hsm <;> simp_all
  simp only [hashMatches, Bool.and_eq_true, decide_eq_true_eq, Option.isNone_some, Bool.false_or,
    Option.some.injEq] at hrm hsm
  simp [NewRow.key, hrm, hsm, hfleet]

end Memclaw.Write
