import Memclaw.Memories.PagingDefs

/-! Following `next_cursor` down either list shows every row that stays exactly once: the cursor
text carries its position unchanged, and one request is one keyset page. -/

namespace Memclaw.Memories

open Memclaw.Lib Memclaw.Api

variable {V : Type}

theorem rsplitColon_append (front : List Char) {back : List Char} (hback : ':' ∉ back) :
    rsplitColon (front ++ ':' :: back) = some (front, back) := by
  have hreverse : (front ++ ':' :: back).reverse = back.reverse ++ ':' :: front.reverse := by
    simp only [List.reverse_append, List.reverse_cons, List.append_assoc, List.singleton_append]
  have hne : ∀ c ∈ back.reverse, decide (c ≠ ':') = true := fun c hc =>
    decide_eq_true fun h => hback (h ▸ List.mem_reverse.mp hc)
  rw [rsplitColon, hreverse, List.dropWhile_append_of_pos hne, List.takeWhile_append_of_pos hne,
    List.dropWhile_cons_of_neg (by decide), List.takeWhile_cons_of_neg (by decide)]
  simp only [List.append_nil, List.reverse_reverse]

theorem colon_notMem_text (id : Uuid) : ':' ∉ id.text := by
  intro h
  have hdigit : ∀ d < 16, Nat.digitChar d ≠ ':' := by decide
  rcases Uuid.mem_text h with h | ⟨d, hd, h⟩
  · exact absurd h (by decide)
  · exact hdigit d hd h.symm

theorem readTimestamp_isoformat (naive : DateTime → Option Timestamp) (t : Timestamp) :
    readTimestamp naive t.isoformat = some t := by
  rw [readTimestamp, Timestamp.fromisoformat_isoformat]
  exact dif_pos t.bound

theorem decodeCursor_encodeCursor (chars : CharData) (t : Timestamp) (id : Uuid) :
    decodeCursor chars (encodeCursor t id) = some (t, id) := by
  rw [decodeCursor, encodeCursor, Base64.decode_encode]
  simp only [Option.bind_eq_bind, Option.bind_some, decodeUtf8_encodeUtf8,
    rsplitColon_append _ (colon_notMem_text id), readTimestamp_isoformat, Uuid.ofText_text,
    Option.pure_def]

theorem encodeCursor_ne_nil (t : Timestamp) (id : Uuid) : encodeCursor t id ≠ [] := by
  intro h
  obtain ⟨raw, hraw⟩ : ∃ raw, raw = t.isoformat ++ ':' :: id.text := ⟨_, rfl⟩
  have hdecode := Base64.decode_encode (encodeUtf8 raw)
  rw [encodeCursor, ← hraw] at h
  rw [h] at hdecode
  have hempty : encodeUtf8 raw = encodeUtf8 [] := (Option.some.inj hdecode).symm
  have : raw = [] := encodeUtf8_injective hempty
  rw [hraw] at this
  exact absurd this (by simp)

namespace Listed

def out (r : Listed V) : MemoryOut V := ⟨r.id, .utc r.createdAt, r.memory⟩

def position (r : Listed V) : Timestamp × Uuid := (.utc r.createdAt, r.id)

end Listed

def MemoryOut.key (out : MemoryOut V) : Key := cursorKey out.createdAt out.id

theorem isoformat_utc (t : DateTime) : t.isoformat = (Timestamp.utc t).isoformat := by
  have hoffset : Timestamp.formatOffset 0 = ['+', '0', '0', ':', '0', '0'] := by decide
  show _ = t.seconds ++ Timestamp.fraction t.microsecond ++ Timestamp.formatOffset 0
  rw [DateTime.isoformat, Timestamp.fraction, hoffset]
  split_ifs with hzero
  · rw [List.append_nil]
  · rfl

theorem memoryToOut_ormToDict (chars : CharData) (r : Listed V) :
    memoryToOut chars (ormToDict r) = .ok r.out := by
  rw [memoryToOut, ormToDict, readAware, isoformat_utc, readTimestamp_isoformat, Uuid.ofText_text]
  rfl

theorem read_of (chars : CharData) (position : Option (Timestamp × Uuid)) :
    CursorFields.read chars (position.map .of) = .ok position := by
  cases position with
  | none => rfl
  | some position =>
    have hts : readAware (CursorFields.of position).cursorTs = some position.1 :=
      readTimestamp_isoformat (fun _ => none) position.1
    have hid : Uuid.ofText chars (CursorFields.of position).cursorId = some position.2 :=
      Uuid.ofText_text chars position.2
    rw [Option.map_some, CursorFields.read, hts, hid]

theorem mapM_ok {α β ε : Type} {f : α → Except ε β} {g : α → β} (h : ∀ a, f a = .ok (g a))
    (l : List α) : l.mapM f = .ok (l.map g) := by
  induction l with
  | nil => rfl
  | cons a l ih =>
    rw [List.mapM_cons, h, ih]
    rfl

def lastRow (limit : ℕ) (rows : List (Listed V)) : Option (Listed V) :=
  if limit < rows.length then rows[limit - 1]? else none

theorem paginate_ormToDict (chars : CharData) {limit : ℕ} (hlimit : 0 < limit)
    (rows : List (Listed V)) :
    paginate chars limit (rows.map ormToDict) =
      .ok ⟨(rows.take limit).map Listed.out,
        (lastRow limit rows).map fun r => encodeCursor (.utc r.createdAt) r.id⟩ := by
  have hitems : ((rows.map ormToDict).take limit).mapM (memoryToOut chars) =
      .ok ((rows.take limit).map Listed.out) := by
    rw [← List.map_take, List.mapM_map]
    exact mapM_ok (memoryToOut_ormToDict chars) _
  rw [paginate, bind_of_ok hitems, List.length_map, lastRow]
  by_cases hmore : limit < rows.length
  · obtain ⟨last, hlast⟩ : ∃ last, rows[limit - 1]? = some last :=
      ⟨_, List.getElem?_eq_getElem (by omega)⟩
    have hne : (rows.take limit).map Listed.out ≠ [] :=
      List.ne_nil_of_length_pos (by rw [List.length_map, List.length_take]; omega)
    rw [if_pos ⟨hmore, hne⟩, if_pos hmore, List.getElem?_map, hlast]
    exact bind_of_ok (memoryToOut_ormToDict chars last) _
  · rw [if_neg fun h => hmore h.1, if_neg hmore]
    rfl

def boundOf (position : Option (Timestamp × Uuid)) : Option Key :=
  position.map fun c => cursorKey c.1 c.2

def cursorOf (position : Option (Timestamp × Uuid)) : Option (List Char) :=
  position.map fun c => encodeCursor c.1 c.2

def requestAt (q : ListQuery) {limit : ℕ} (bounds : 1 ≤ limit ∧ limit ≤ maxListLimit)
    (position : Option (Timestamp × Uuid)) : ListRequest :=
  { ListRequest.first q limit bounds with cursor := cursorOf position }

@[simp] theorem boundOf_none : boundOf none = none := rfl

@[simp] theorem boundOf_some (t : Timestamp) (id : Uuid) :
    boundOf (some (t, id)) = some (cursorKey t id) := rfl

def rowsBehind (admits : Memory V → Bool) (position : Option (Timestamp × Uuid))
    (rows : List (Listed V)) : List (Listed V) :=
  Keyset.eligible Listed.key (fun r => admits r.memory) (boundOf position) rows

def responseBehind (limit : ℕ) (admits : Memory V → Bool) (position : Option (Timestamp × Uuid))
    (rows : List (Listed V)) : PaginatedMemoryResponse V :=
  let eligible := rowsBehind admits position rows
  ⟨(eligible.take limit).map Listed.out,
    (lastRow limit eligible).map fun r => encodeCursor (.utc r.createdAt) r.id⟩

theorem lastRow_take {limit : ℕ} (hlimit : 0 < limit) (rows : List (Listed V)) :
    lastRow limit (rows.take (limit + 1)) = lastRow limit rows := by
  have hlength : limit < (rows.take (limit + 1)).length ↔ limit < rows.length := by
    rw [List.length_take]
    omega
  rw [lastRow, lastRow, List.getElem?_take_of_lt (by omega)]
  simp only [hlength]

theorem paginate_behind (chars : CharData) {limit : ℕ} (hlimit : 0 < limit)
    (admits : Memory V → Bool) (position : Option (Timestamp × Uuid)) (rows : List (Listed V)) :
    paginate chars limit (((rowsBehind admits position rows).take (limit + 1)).map ormToDict) =
      .ok (responseBehind limit admits position rows) := by
  rw [paginate_ormToDict chars hlimit, List.take_take, Nat.min_eq_left (Nat.le_succ limit),
    lastRow_take hlimit]
  rfl

theorem readCursor_first (chars : CharData) (q : ListQuery) {limit : ℕ}
    (bounds : 1 ≤ limit ∧ limit ≤ maxListLimit) (position : Option (Timestamp × Uuid)) :
    ListRequest.readCursor chars (requestAt q bounds position) = .ok position := by
  cases position with
  | none => rfl
  | some position =>
    obtain ⟨t, id⟩ := position
    obtain ⟨c, cs, hcursor⟩ := List.exists_cons_of_ne_nil (encodeCursor_ne_nil t id)
    have hdecode := decodeCursor_encodeCursor chars t id
    rw [hcursor] at hdecode
    have hposition : (requestAt q bounds (some (t, id))).cursor = some (c :: cs) :=
      congrArg some hcursor
    rw [ListRequest.readCursor, hposition]
    dsimp only
    rw [hdecode]
    rfl

theorem ordered_behind (columns : Columns V) (admits : Memory V → Bool)
    (position : Option (Timestamp × Uuid)) (behind : Listed V → Bool)
    (hbehind : ∀ r, behind r = decide (Keyset.Behind
      (boundOf position) r.key)) (rows : List (Listed V)) :
    paginatedOrderBy columns "created_at" .desc
      (rows.filter fun r => admits r.memory && behind r) =
      rowsBehind admits position rows := by
  rw [paginatedOrderBy, if_pos rfl]
  simp only [hbehind]
  rfl

def listGate (reader : Reader) (agents : Agents.Table) (q : ListQuery) :
    Except HTTPException Unit := do
  let tenantId ← q.tenant reader
  q.fleetGate reader agents tenantId (orText reader.auth.agentId q.agentId)
  if tenantId = "" then .error serverError
  else if (orText q.memoryType none).any (q.excludeMemoryTypes.contains ·) then .error serverError
  else .ok ()

def listAdmits (reader : Reader) (q : ListQuery) (m : Memory V) : Bool :=
  match q.tenant reader with
  | .error _ => false
  | .ok tenantId => q.matchesIn tenantId (q.widened reader)
      (orText reader.auth.agentId q.agentId) m

theorem paging_behind {sort : String} {limit offset : ℕ} (position : Option (Timestamp × Uuid))
    (r : Listed V) : Paging.behind ⟨sort, .desc, limit, offset, position⟩ r =
      decide (Keyset.Behind (boundOf position) r.key) := by
  cases position with
  | none => simp [Paging.behind, Keyset.Behind]
  | some position =>
    obtain ⟨t, id⟩ := position
    simp [Paging.behind, Keyset.Behind]

theorem admin_behind {sort : String} {order : Order} {limit offset : ℕ}
    (position : Option (Timestamp × Uuid)) (r : Listed V) :
    Paging.adminBehind ⟨sort, order, limit, offset, position⟩ r =
      decide (Keyset.Behind (boundOf position) r.key) := by
  cases position with
  | none => simp [Paging.adminBehind, Keyset.Behind]
  | some position =>
    obtain ⟨t, id⟩ := position
    simp [Paging.adminBehind, Keyset.Behind]

theorem start_zero {sort : String} {order : Order} {limit : ℕ}
    (position : Option (Timestamp × Uuid)) :
    Paging.start ⟨sort, order, limit, 0, position⟩ = 0 := by
  cases position <;> rfl

section Request

variable (chars : CharData) (columns : Columns V) (reader : Reader) (q : ListQuery) {limit : ℕ}
  (bounds : 1 ≤ limit ∧ limit ≤ maxListLimit)

theorem listPage_first (db : Database V) (position : Option (Timestamp × Uuid)) :
    listPage chars columns reader db (requestAt q bounds position) =
      (listGate reader db.agents q).map fun _ =>
        responseBehind limit (listAdmits reader q) position db.rows := by
  have hclamp : max 1 (min limit 5000) = limit := by
    have := bounds.2
    unfold maxListLimit at this
    omega
  have hcursor := readCursor_first chars q bounds position
  obtain ⟨agentId, hagent⟩ : ∃ agentId, agentId = orText reader.auth.agentId q.agentId := ⟨_, rfl⟩
  unfold listPage listGate
  dsimp only [requestAt, ListRequest.first] at hcursor ⊢
  rw [← hagent]
  cases htenant : q.tenant reader with
  | error e => rfl
  | ok tenantId =>
    cases hfleet : q.fleetGate reader db.agents tenantId agentId with
    | error e =>
      show (q.fleetGate reader db.agents tenantId agentId >>= _) =
        Except.map _ (q.fleetGate reader db.agents tenantId agentId >>= _)
      rw [hfleet]
      rfl
    | ok u =>
      show (q.fleetGate reader db.agents tenantId agentId >>= _) =
        Except.map _ (q.fleetGate reader db.agents tenantId agentId >>= _)
      rw [hfleet, bind_of_ok rfl, bind_of_ok rfl, bind_of_ok hcursor, storageList]
      split_ifs with hempty hexcluded
      · rfl
      · rw [read_of]
        rfl
      · rw [read_of]
        dsimp only
        have hadmits : (listAdmits reader q : Memory V → Bool) =
            q.matchesIn tenantId (q.widened reader) agentId := by
          funext m
          rw [listAdmits, htenant, hagent]
        rw [bind_of_ok rfl, memoryListByFilters, start_zero, List.drop_zero, hclamp,
          ordered_behind columns (q.matchesIn tenantId (q.widened reader) agentId)
            position _ (paging_behind position), ← hadmits]
        exact paginate_behind chars bounds.1 _ _ _

theorem adminListPage_first (hadmin : reader.auth.isAdmin = true) (db : Database V)
    (position : Option (Timestamp × Uuid)) :
    adminListPage chars columns reader db (requestAt q bounds position) =
      .ok (responseBehind limit q.matchesAll position db.rows) := by
  have hcursor := readCursor_first chars q bounds position
  unfold adminListPage
  dsimp only [requestAt, ListRequest.first] at hcursor ⊢
  rw [if_pos hadmin, bind_of_ok hcursor, storageAdminList, read_of]
  dsimp only
  rw [bind_of_ok rfl, memoryAdminList, start_zero, List.drop_zero,
    ordered_behind columns q.matchesAll position _ (admin_behind position)]
  exact paginate_behind chars bounds.1 _ _ _

end Request

section Follow

variable {page : Database V → ListRequest → Except HTTPException (PaginatedMemoryResponse V)}
  {q : ListQuery} {limit : ℕ} {bounds : 1 ≤ limit ∧ limit ≤ maxListLimit}
  {admits : Memory V → Bool}

theorem request_with_cursor (position : Option (Timestamp × Uuid)) :
    { ListRequest.first q limit bounds with cursor := cursorOf position } =
      requestAt q bounds position := rfl

theorem keyset_page (hlimit : 0 < limit) (position : Option (Timestamp × Uuid))
    (rows : List (Listed V)) :
    (Keyset.page Listed.key limit (fun r => admits r.memory)
      (boundOf position) rows).next =
      (lastRow limit (rowsBehind admits position rows)).map Listed.key := by
  rw [Keyset.page_next hlimit, lastRow, ← rowsBehind]
  split_ifs <;> rfl

theorem walk_succ (hlimit : 0 < limit) (n : ℕ) (dbs : ℕ → Database V)
    (position : Option (Timestamp × Uuid)) :
    Keyset.walk Listed.key limit (fun r => admits r.memory) (n + 1) (fun j => (dbs j).rows)
      (boundOf position) =
      match lastRow limit (rowsBehind admits position (dbs 0).rows) with
      | none => some [(rowsBehind admits position (dbs 0).rows).take limit]
      | some last => (Keyset.walk Listed.key limit (fun r => admits r.memory) n
          (fun j => (dbs (j + 1)).rows)
          (boundOf (some last.position))).map
            ((rowsBehind admits position (dbs 0).rows).take limit :: ·) := by
  rw [Keyset.walk, keyset_page hlimit, Keyset.page_items]
  cases lastRow limit (rowsBehind admits position (dbs 0).rows) <;> rfl

theorem follow_succ {n : ℕ} {dbs : ℕ → Database V} {position : Option (Timestamp × Uuid)}
    (hpage : page (dbs 0) (requestAt q bounds position) =
        .ok (responseBehind limit admits position (dbs 0).rows)) :
    follow page (ListRequest.first q limit bounds) (n + 1) dbs
      (cursorOf position) =
      match lastRow limit (rowsBehind admits position (dbs 0).rows) with
      | none => some (.ok [((rowsBehind admits position (dbs 0).rows).take limit).map Listed.out])
      | some last => (follow page (ListRequest.first q limit bounds) n (fun j => dbs (j + 1))
          (cursorOf (some last.position))).map
            fun rest => rest.map (((rowsBehind admits position (dbs 0).rows).take limit).map
                Listed.out :: ·) := by
  rw [follow, request_with_cursor, hpage]
  dsimp only [responseBehind]
  cases lastRow limit (rowsBehind admits position (dbs 0).rows) <;> rfl

/-- A client that ends well has walked through the store. -/
theorem walk_of_follow
    (hpage : ∀ db position response, page db (requestAt q bounds position) = .ok response →
        response = responseBehind limit admits position db.rows)
    {n : ℕ} {dbs : ℕ → Database V} (position : Option (Timestamp × Uuid))
    {pages : List (List (MemoryOut V))}
    (h : follow page (ListRequest.first q limit bounds) n dbs
      (cursorOf position) = some (.ok pages)) :
    ∃ shown, Keyset.walk Listed.key limit (fun r => admits r.memory) n (fun j => (dbs j).rows)
      (boundOf position) = some shown ∧
        pages = shown.map (·.map Listed.out) := by
  induction n generalizing dbs position pages with
  | zero => exact absurd h (by simp [follow])
  | succ n ih =>
    cases hfirst : page (dbs 0) (requestAt q bounds position) with
    | error e =>
      rw [follow, request_with_cursor, hfirst] at h
      exact absurd (Option.some.inj h) (by simp)
    | ok response =>
      obtain rfl := hpage _ _ _ hfirst
      rw [follow_succ hfirst] at h
      rw [walk_succ bounds.1]
      cases hlast : lastRow limit (rowsBehind admits position (dbs 0).rows) with
      | none =>
        rw [hlast] at h
        exact ⟨_, rfl, (Except.ok.inj (Option.some.inj h)).symm⟩
      | some last =>
        rw [hlast] at h
        obtain ⟨result, hrest, hresult⟩ := Option.map_eq_some_iff.mp h
        cases result with
        | error e => exact absurd hresult (by simp [Except.map])
        | ok rest =>
          obtain ⟨shown, hwalk, rfl⟩ := ih (some last.position) hrest
          exact ⟨_, Option.map_eq_some_iff.mpr ⟨shown, hwalk, rfl⟩, (Except.ok.inj hresult).symm⟩

theorem follow_of_walk
    (hpage : ∀ j position, page ((dbs : ℕ → Database V) j) (requestAt q bounds position) =
        .ok (responseBehind limit admits position (dbs j).rows))
    {n : ℕ} (position : Option (Timestamp × Uuid)) {shown : List (List (Listed V))}
    (h : Keyset.walk Listed.key limit (fun r => admits r.memory) n (fun j => (dbs j).rows)
      (boundOf position) = some shown) :
    follow page (ListRequest.first q limit bounds) n dbs
      (cursorOf position) =
        some (.ok (shown.map (·.map Listed.out))) := by
  induction n generalizing dbs position shown with
  | zero => exact absurd h (by simp [Keyset.walk])
  | succ n ih =>
    rw [walk_succ bounds.1] at h
    rw [follow_succ (hpage 0 position)]
    cases hlast : lastRow limit (rowsBehind admits position (dbs 0).rows) with
    | none =>
      rw [hlast] at h
      obtain rfl := Option.some.inj h
      rfl
    | some last =>
      rw [hlast] at h
      obtain ⟨rest, hrest, rfl⟩ := Option.map_eq_some_iff.mp h
      dsimp only
      rw [ih (fun j => hpage (j + 1)) (some last.position) hrest]
      rfl

end Follow

/-- A store while a client pages through it: rows come, go and change, but an id keeps its
creation time. -/
structure History (V : Type) where
  dbs : ℕ → Database V
  immutable : ∀ i j, ∀ a ∈ (dbs i).rows, ∀ b ∈ (dbs j).rows, a.id = b.id →
    a.createdAt = b.createdAt

/-- What a complete enumeration shows: rows of the list as they were, in strictly descending
order, and each row that was there for every page once. -/
structure Enumerates (dbs : ℕ → Database V) (admits : Memory V → Bool)
    (pages : List (List (MemoryOut V))) : Prop where
  descending : pages.flatten.Pairwise fun a b => b.key < a.key
  sound : ∀ i, (hi : i < pages.length) → ∀ out ∈ pages[i], ∃ r ∈ (dbs i).rows,
    admits r.memory = true ∧ out = r.out
  complete : ∀ id, (∀ j < pages.length, ∃ r ∈ (dbs j).rows, r.id = id ∧ admits r.memory = true) →
    (pages.flatten.map (·.id)).count id = 1

theorem Database.key_nodup (db : Database V) : (db.rows.map Listed.key).Nodup := by
  have hids : (db.rows.map (fun r => r.id)).Nodup := db.unique
  refine List.Nodup.of_map (fun k : Key => (ofLex k).2) ?_
  rw [List.map_map]
  have hvalue : (fun r : Listed V => r.id.value) = (fun id : Uuid => id.value) ∘ fun r => r.id := rfl
  show (db.rows.map fun r => r.id.value).Nodup
  rw [hvalue, ← List.map_map]
  exact hids.map fun a b h => Uuid.value_inj h

theorem id_eq_of_key {a b : Listed V} (h : a.key = b.key) : a.id = b.id :=
  Uuid.value_inj (congrArg (fun k : Key => (ofLex k).2) h)

theorem History.key_eq (h : History V) {i j : ℕ} {a b : Listed V} (ha : a ∈ (h.dbs i).rows)
    (hb : b ∈ (h.dbs j).rows) (hid : a.id = b.id) : a.key = b.key := by
  rw [Listed.key, Listed.key, h.immutable i j a ha b hb hid, hid]

theorem enumerates_of_walk (h : History V) {n limit : ℕ} {admits : Memory V → Bool}
    (hlimit : 0 < limit) {shown : List (List (Listed V))}
    (hwalk : Keyset.walk Listed.key limit (fun r => admits r.memory) n (fun j => (h.dbs j).rows)
      none = some shown) :
    Enumerates h.dbs admits (shown.map (·.map Listed.out)) := by
  have hnodup : ∀ j, ((h.dbs j).rows.map Listed.key).Nodup := fun j => (h.dbs j).key_nodup
  have hflatten : (shown.map (·.map Listed.out)).flatten = shown.flatten.map Listed.out :=
    List.map_flatten.symm
  have hmem : ∀ r ∈ shown.flatten, ∃ j, r ∈ (h.dbs j).rows := by
    intro r hr
    obtain ⟨page, hpage, hr⟩ := List.mem_flatten.mp hr
    obtain ⟨j, hj, rfl⟩ := List.mem_iff_getElem.mp hpage
    exact ⟨j, (Keyset.walk_mem hwalk hj hr).1⟩
  have hpairwise := Keyset.walk_pairwise hlimit hnodup hwalk
  -- rows of one id have one key, wherever they are from, and a key is shown once
  have hids : (shown.flatten.map fun r => r.id).Nodup := by
    rw [List.Nodup, List.pairwise_map]
    refine hpairwise.imp_of_mem fun ha hb hlt hid => ?_
    obtain ⟨i, ha⟩ := hmem _ ha
    obtain ⟨j, hb⟩ := hmem _ hb
    exact absurd (h.key_eq ha hb hid) (ne_of_gt hlt)
  constructor
  · rw [hflatten, List.pairwise_map]
    exact hpairwise
  · intro i hi out hout
    have hi' : i < shown.length := by rwa [List.length_map] at hi
    rw [List.getElem_map] at hout
    obtain ⟨r, hr, rfl⟩ := List.mem_map.mp hout
    have hr' := Keyset.walk_mem hwalk hi' hr
    exact ⟨r, hr'.1, hr'.2, rfl⟩
  · intro id hall
    rw [List.length_map] at hall
    obtain ⟨first, hfirst, hid, -⟩ := hall 0 (Keyset.walk_length_pos hwalk)
    have hkey : first.key ∈ shown.flatten.map Listed.key := by
      refine Keyset.walk_complete hlimit hnodup hwalk (fun b hb => absurd hb (by simp))
        fun j hj => ?_
      obtain ⟨r, hr, hrid, hadmits⟩ := hall j hj
      exact ⟨r, hr, hadmits, h.key_eq hr hfirst (hrid.trans hid.symm)⟩
    obtain ⟨r, hr, hrkey⟩ := List.mem_map.mp hkey
    rw [hflatten, List.map_map]
    exact List.count_eq_one_of_mem hids
      (List.mem_map.mpr ⟨r, hr, (id_eq_of_key hrkey).trans hid⟩)

theorem walk_ends (h : History V) (admits : Memory V → Bool) {limit : ℕ} (hlimit : 0 < limit)
    (ids : Finset Uuid) (hids : ∀ j, ∀ r ∈ (h.dbs j).rows, r.id ∈ ids) :
    ∃ shown, Keyset.walk Listed.key limit (fun r => admits r.memory) (ids.card + 1)
      (fun j => (h.dbs j).rows) none = some shown := by
  classical
  let keyOf (id : Uuid) : Key :=
    if hid : ∃ r, (∃ j, r ∈ (h.dbs j).rows) ∧ r.id = id then hid.choose.key else toLex (0, 0)
  have hkeyOf : ∀ j, ∀ r ∈ (h.dbs j).rows, r.key = keyOf r.id := by
    intro j r hr
    have hid : ∃ r', (∃ j, r' ∈ (h.dbs j).rows) ∧ r'.id = r.id := ⟨r, ⟨j, hr⟩, rfl⟩
    obtain ⟨⟨i, hchosen⟩, hchosenId⟩ := hid.choose_spec
    have hkey : keyOf r.id = hid.choose.key := dif_pos hid
    exact (h.key_eq hr hchosen hchosenId.symm).trans hkey.symm
  refine Keyset.walk_total hlimit (fun j => (h.dbs j).key_nodup) (ids.image keyOf)
    (fun j r hr => Finset.mem_image.mpr ⟨r.id, hids j r hr, (hkeyOf j r hr).symm⟩) ?_
  exact Nat.lt_succ_of_le ((Finset.card_filter_le _ _).trans Finset.card_image_le)

abbrev PageSize := {limit : ℕ // 1 ≤ limit ∧ limit ≤ maxListLimit}

/-- A client that follows the cursors sees every row that stays exactly once, in descending order,
and with finitely many ids it reaches the last page; the admin list is the same without a gate. -/
theorem cursor_enumerates (chars : CharData) (columns : Columns V) (reader : Reader)
    (q : ListQuery) (limit : PageSize) (h : History V) :
    (∀ t id, decodeCursor chars (encodeCursor t id) = some (t, id)) ∧
      (∀ n pages, follow (listPage chars columns reader) (.first q limit.1 limit.2) n h.dbs none =
        some (.ok pages) → Enumerates h.dbs (listAdmits reader q) pages) ∧
      (∀ ids : Finset Uuid, (∀ j, ∀ r ∈ (h.dbs j).rows, r.id ∈ ids) →
        (∀ j, listGate reader (h.dbs j).agents q = .ok ()) →
          ∃ pages, follow (listPage chars columns reader) (.first q limit.1 limit.2)
            (ids.card + 1) h.dbs none = some (.ok pages)) ∧
      (∀ n pages, follow (adminListPage chars columns reader) (.first q limit.1 limit.2) n h.dbs
        none = some (.ok pages) → Enumerates h.dbs q.matchesAll pages) ∧
      ∀ ids : Finset Uuid, (∀ j, ∀ r ∈ (h.dbs j).rows, r.id ∈ ids) →
        reader.auth.isAdmin = true →
          ∃ pages, follow (adminListPage chars columns reader) (.first q limit.1 limit.2)
            (ids.card + 1) h.dbs none = some (.ok pages) := by
  obtain ⟨limit, bounds⟩ := limit
  have hlist : ∀ db position response,
      listPage chars columns reader db (requestAt q bounds position) = .ok response →
        response = responseBehind limit (listAdmits reader q) position db.rows := by
    intro db position response hresponse
    rw [listPage_first] at hresponse
    cases hgate : listGate reader db.agents q with
    | error e => rw [hgate] at hresponse; exact absurd hresponse (by simp [Except.map])
    | ok u => rw [hgate] at hresponse; exact (Except.ok.inj hresponse).symm
  have hadmin : ∀ db position response,
      adminListPage chars columns reader db (requestAt q bounds position) = .ok response →
        response = responseBehind limit q.matchesAll position db.rows := by
    intro db position response hresponse
    by_cases his : reader.auth.isAdmin = true
    · rw [adminListPage_first chars columns reader q bounds his] at hresponse
      exact (Except.ok.inj hresponse).symm
    · unfold adminListPage at hresponse
      rw [if_neg his] at hresponse
      exact absurd hresponse (by simp)
  refine ⟨decodeCursor_encodeCursor chars, fun n pages hfollow => ?_, fun ids hids hgate => ?_,
    fun n pages hfollow => ?_, fun ids hids his => ?_⟩
  · obtain ⟨shown, hwalk, rfl⟩ := walk_of_follow hlist none hfollow
    exact enumerates_of_walk h bounds.1 hwalk
  · obtain ⟨shown, hwalk⟩ := walk_ends h (listAdmits reader q) bounds.1 ids hids
    refine ⟨_, follow_of_walk (fun j position => ?_) none hwalk⟩
    rw [listPage_first, hgate j]
    rfl
  · obtain ⟨shown, hwalk, rfl⟩ := walk_of_follow hadmin none hfollow
    exact enumerates_of_walk h bounds.1 hwalk
  · obtain ⟨shown, hwalk⟩ := walk_ends h q.matchesAll bounds.1 ids hids
    exact ⟨_, follow_of_walk (fun j position =>
      adminListPage_first chars columns reader q bounds his _ position) none hwalk⟩

def listedOn (day : Fin 28) : Listed ℕ where
  memory := ⟨day, "t", none, "a", .fact, none, "", none, none, none, none, none, none,
    DateTime.micro ⟨2026, 11, day + 1, 8, 0, 0, 0, by revert day; decide⟩, none, none, none, none,
    none, none, .active, .scopeTeam, none, 0, none⟩
  id := ⟨day, day.isLt.trans (by decide)⟩
  createdAt := ⟨2026, 11, day + 1, 8, 0, 0, 0, by revert day; decide⟩
  id_value := rfl
  createdAt_micro := rfl

/-- Behind the first page the newest row goes and a newer one comes; behind the second, the oldest
goes. -/
def daysListed : ℕ → List (Fin 28)
  | 0 => [3, 1, 4, 2]
  | 1 => [3, 1, 5, 2]
  | _ => [3, 5, 2]

def changing : History ℕ where
  dbs j :=
    { rows := (daysListed j).map listedOn
      agents := fun _ _ => none
      unique := by
        match j with
        | 0 => decide
        | 1 => decide
        | j + 2 =>
          change (([3, 5, 2].map listedOn).map (·.id)).Nodup
          decide }
  immutable i j a ha b hb hid := by
    obtain ⟨day, -, rfl⟩ := List.mem_map.mp ha
    obtain ⟨day', -, rfl⟩ := List.mem_map.mp hb
    obtain rfl : day = day' := Fin.ext (congrArg Uuid.value hid)
    rfl

def tenantReader : Reader := ⟨.ofTenant "t", []⟩

def listAll : ListQuery := ⟨none, none, none, none, [], none, none, none, none, false⟩

/-- Page after page of one row; the row of the third day stays and is shown once. -/
theorem cursor_enumerates_changing :
    ∃ n pages, follow (listPage .ascii (fun _ _ _ => true) tenantReader)
        (.first listAll 1 (by decide)) n changing.dbs none = some (.ok pages) ∧
      Enumerates changing.dbs (listAdmits tenantReader listAll) pages ∧
      (pages.flatten.map (·.id)).count (listedOn 2).id = 1 := by
  obtain ⟨-, hsound, hends, -⟩ := cursor_enumerates .ascii (fun _ _ _ => true) tenantReader listAll
    ⟨1, by decide⟩ changing
  have hids : ∀ j, ∀ r ∈ (changing.dbs j).rows,
      r.id ∈ Finset.univ.image fun day => (listedOn day).id := by
    intro j r hr
    obtain ⟨day, -, rfl⟩ := List.mem_map.mp hr
    exact Finset.mem_image_of_mem _ (Finset.mem_univ day)
  obtain ⟨pages, hfollow⟩ := hends _ hids fun _ => rfl
  have hpages := hsound _ pages hfollow
  refine ⟨_, pages, hfollow, hpages, hpages.complete _ fun j _ => ⟨listedOn 2, ?_, rfl, rfl⟩⟩
  refine List.mem_map_of_mem ?_
  match j with
  | 0 => decide
  | 1 => decide
  | j + 2 =>
    change 2 ∈ [3, 5, 2]
    decide

end Memclaw.Memories
