import Mathlib.Algebra.Order.Field.Rat
import Mathlib.Tactic.Linarith
import Memclaw.Lib.Json
import Memclaw.Stm.BackendDefs

/-! What the getters of short-term memory return. A call works on one list, which the joined text of
the tenant and the scope names: a getter depends on the operations under the same text. Of the posts
since the last clear, the process returns those younger than the TTL; Redis returns those
that a next post, and for the newest one the getter, followed within the TTL. -/

namespace Memclaw.Stm

open Memclaw.Lib

section Slices

variable {α β : Type} (xs : List α) (k : ℤ)

theorem map_sliceTo (f : α → β) : (sliceTo xs k).map f = sliceTo (xs.map f) k := by
  unfold sliceTo
  split <;> simp

theorem length_sliceTo :
    (sliceTo xs k).length = if k < 0 then (xs.length + k).toNat else min k.toNat xs.length := by
  unfold sliceTo
  split
  · rw [List.length_take]
    omega
  · exact List.length_take

end Slices

theorem range_zero (items : List String) (k : ℤ) :
    Redis.range items 0 (k - 1) = if k = 0 then items else sliceTo items k := by
  unfold Redis.range sliceTo
  rcases lt_trichotomy k 0 with hneg | rfl | hpos
  · have hstop : k - 1 < 0 := by omega
    have hcount : ((items.length : ℤ) + (k - 1) + 1 - 0).toNat = (items.length + k).toNat := by
      omega
    simp only [hstop, hneg, hneg.ne, hcount, if_true, if_false, lt_self_iff_false, max_self,
      Int.toNat_zero, List.drop_zero]
  · simp
  · have hstop : ¬ k - 1 < 0 := by omega
    have hcount : (k - 1 + 1 - 0).toNat = k.toNat := by omega
    simp only [hstop, hpos.not_gt, hpos.ne', hcount, if_false, lt_self_iff_false, max_self,
      Int.toNat_zero, List.drop_zero]

def Limits.maxEntries (limits : Limits) : Board → ℤ
  | .notes => limits.notesMaxEntries
  | .bulletin => limits.bulletinMaxEntries

def Limits.ttl (limits : Limits) : Board → ℤ
  | .notes => limits.notesTtl
  | .bulletin => limits.bulletinTtl

/-- A backend whose calls read and write one list, under the joined text of their tenant
and scope. -/
structure Slots (b : Backend) where
  Cell : Type
  cell : b.State → Board → String → Cell
  turn : ℚ → Board → Method → Cell → Cell × Option (List Entry)
  call_self : ∀ now state board tenantId scopeId method,
    (cell (b.call now state board tenantId scopeId method).1 board
        (InMemorySTM.key tenantId scopeId),
      (b.call now state board tenantId scopeId method).2) =
      turn now board method (cell state board (InMemorySTM.key tenantId scopeId))
  call_other : ∀ now state board tenantId scopeId method other key,
    (other, key) ≠ (board, InMemorySTM.key tenantId scopeId) →
    cell (b.call now state board tenantId scopeId method).1 other key = cell state other key

namespace InMemorySTM

def dict (stm : InMemorySTM) : Board → String → Option Aged
  | .notes => stm.notes
  | .bulletin => stm.bulletins

@[simp] theorem dict_empty (board : Board) (key : String) : empty.dict board key = none := by
  cases board <;> rfl

def turn (limits : Limits) (now : ℚ) (board : Board) (method : Method) (cell : Option Aged) :
    Option Aged × Option (List Entry) :=
  match method with
  | .get limit =>
    let entries := prune now (cell.getD []) (limits.ttl board)
    (if entries.isEmpty then none else some entries, some ((sliceTo entries limit).map Prod.fst))
  | .post entry =>
    (some (sliceTo (prune now ((entry, now) :: cell.getD []) (limits.ttl board))
      (limits.maxEntries board)), none)
  | .clear => (none, none)

end InMemorySTM

def inMemorySlots (limits : Limits) : Slots (inMemory limits) where
  Cell := Option Aged
  cell := InMemorySTM.dict
  turn := InMemorySTM.turn limits
  call_self now stm board tenantId scopeId method := by
    cases method <;> cases board <;> exact Prod.ext (Function.update_self ..) rfl
  call_other now stm board tenantId scopeId method other key hne := by
    have hkey : board = other → key ≠ InMemorySTM.key tenantId scopeId := by
      rintro rfl rfl
      exact hne rfl
    cases method <;> cases board <;> cases other
    all_goals first
      | rfl
      | exact Function.update_of_ne (hkey rfl) ..

namespace RedisSTM

def listKey : Board → String → String
  | .notes, key => "stm:notes:" ++ key
  | .bulletin, key => "stm:bul:" ++ key

theorem notesKey_eq (tenantId agentId : String) :
    notesKey tenantId agentId = listKey .notes (InMemorySTM.key tenantId agentId) := by
  simp only [notesKey, listKey, InMemorySTM.key, String.append_assoc]

theorem bulletinKey_eq (tenantId fleetId : String) :
    bulletinKey tenantId fleetId = listKey .bulletin (InMemorySTM.key tenantId fleetId) := by
  simp only [bulletinKey, listKey, InMemorySTM.key, String.append_assoc]

theorem listKey_injective {board other : Board} {key key' : String}
    (h : listKey board key = listKey other key') : (board, key) = (other, key') := by
  have htext := congrArg String.toList h
  cases board <;> cases other <;>
    simp only [listKey, String.toList_append] at htext
  · rw [String.toList_injective (List.append_cancel_left htext)]
  · exact absurd (congrArg (List.head? ∘ List.drop 4) htext) (by simp)
  · exact absurd (congrArg (List.head? ∘ List.drop 4) htext) (by simp)
  · rw [String.toList_injective (List.append_cancel_left htext)]

variable (codec : JsonCodec) (limits : Limits)

def items (now : ℚ) (cell : Option RedisList) : List String :=
  ((cell.filter fun list => list.expireAt.all (now ≤ ·)).elim [] RedisList.items)

def posted (now : ℚ) (ttl maxEntries : ℤ) (cell : Option RedisList) (entry : Entry) :
    Option RedisList :=
  let kept := Redis.range (codec.dumps entry :: items now cell) 0 (maxEntries - 1)
  if kept.isEmpty || ttl ≤ 0 then none else some ⟨kept, some (now + ttl)⟩

def turn (now : ℚ) (board : Board) (method : Method) (cell : Option RedisList) :
    Option RedisList × Option (List Entry) :=
  match method with
  | .get limit =>
    (cell, some (((Redis.range (items now cell) 0 (limit - 1)).mapM codec.loads).getD []))
  | .post entry => (posted codec now (limits.ttl board) (limits.maxEntries board) cell entry, none)
  | .clear => (none, none)

variable (now : ℚ) (db : Redis) (key : String)

theorem range_nil (start stop : ℤ) : Redis.range [] start stop = [] := by
  simp only [Redis.range, List.drop_nil, List.take_nil]

theorem lrange_eq (start stop : ℤ) :
    Redis.lrange now db key start stop = Redis.range (items now (db key)) start stop := by
  unfold Redis.lrange items Redis.live
  cases (db key).filter fun list => list.expireAt.all (now ≤ ·) with
  | none => exact (range_nil start stop).symm
  | some list => rfl

theorem exists_lpush (item : String) : ∃ expireAt : Option ℚ, expireAt.all (now ≤ ·) = true ∧
    Redis.lpush now db key item = Redis.put db key (item :: items now (db key)) expireAt := by
  unfold Redis.lpush items Redis.live
  cases hlive : (db key).filter fun list => list.expireAt.all (now ≤ ·) with
  | none => exact ⟨none, rfl, rfl⟩
  | some list => exact ⟨list.expireAt, (Option.filter_eq_some_iff.mp hlive).2, rfl⟩

theorem live_put {kept : List String} {expireAt : Option ℚ} (h : expireAt.all (now ≤ ·) = true) :
    Redis.live now (Redis.put db key kept expireAt) key =
      if kept.isEmpty then none else some ⟨kept, expireAt⟩ := by
  unfold Redis.live Redis.put
  rw [Function.update_self]
  split
  · rfl
  · exact Option.filter_some_pos h

theorem put_put (kept kept' : List String) (expireAt expireAt' : Option ℚ) :
    Redis.put (Redis.put db key kept expireAt) key kept' expireAt' =
      Redis.put db key kept' expireAt' := by
  simp only [Redis.put, Function.update_idem]

theorem postAt_eq (ttl maxEntries : ℤ) (entry : Entry) :
    postAt codec now db ttl maxEntries key entry =
      Function.update db key (posted codec now ttl maxEntries (db key) entry) := by
  obtain ⟨expireAt, hlive, hpush⟩ := exists_lpush now db key (codec.dumps entry)
  unfold postAt posted
  rw [hpush]
  generalize codec.dumps entry :: items now (db key) = pushed
  have htrim : Redis.ltrim now (Redis.put db key pushed expireAt) key 0 (maxEntries - 1) =
      Redis.put db key (Redis.range pushed 0 (maxEntries - 1)) expireAt := by
    unfold Redis.ltrim
    rw [live_put now db key hlive]
    cases pushed with
    | nil => simp [range_nil]
    | cons item older => simp only [List.isEmpty_cons, Bool.false_eq_true, if_false, put_put]
  dsimp only
  rw [htrim]
  unfold Redis.expire
  rw [live_put now db key hlive]
  by_cases hempty : (Redis.range pushed 0 (maxEntries - 1)).isEmpty
  · simp [hempty, Redis.put]
  · by_cases httl : ttl ≤ 0
    · simp [hempty, httl, Redis.put]
    · simp [hempty, httl, Redis.put]

end RedisSTM

def redisSlots (codec : JsonCodec) (limits : Limits) : Slots (redis codec limits) where
  Cell := Option RedisList
  cell db board key := db (RedisSTM.listKey board key)
  turn := RedisSTM.turn codec limits
  call_self now (db : Redis) board tenantId scopeId method := by
    cases method <;> cases board <;>
      simp only [redis, RedisSTM.turn, RedisSTM.getNotes, RedisSTM.getBulletin, RedisSTM.getAt,
        RedisSTM.lrange_eq, RedisSTM.postNote, RedisSTM.postBulletin, RedisSTM.postAt_eq,
        RedisSTM.clearNotes, RedisSTM.clearBulletin, Redis.delete, RedisSTM.notesKey_eq,
        RedisSTM.bulletinKey_eq, Function.update_self, Limits.ttl, Limits.maxEntries]
  call_other now (db : Redis) board tenantId scopeId method other key hne := by
    have hkey : RedisSTM.listKey other key ≠
        RedisSTM.listKey board (InMemorySTM.key tenantId scopeId) :=
      fun h => hne (RedisSTM.listKey_injective h)
    cases method <;> cases board <;>
      simp only [redis, RedisSTM.postNote, RedisSTM.postBulletin, RedisSTM.postAt_eq,
        RedisSTM.clearNotes, RedisSTM.clearBulletin, Redis.delete, RedisSTM.notesKey_eq,
        RedisSTM.bulletinKey_eq, Function.update_of_ne hkey]

def Method.posts (now : ℚ) (posts : Aged) : Method → Aged
  | .get _ => posts
  | .post entry => (entry, now) :: posts
  | .clear => []

/-- The clock after a run, with the posts on a list since its last clear, the newest first. -/
def postsAfter (board : Board) (key : String) : ℚ → Aged → List Op → ℚ × Aged
  | now, posts, [] => (now, posts)
  | now, posts, .advance seconds :: ops => postsAfter board key (now + seconds) posts ops
  | now, posts, .call other tenantId scopeId method :: ops =>
    postsAfter board key now
      (if (board, key) = (other, InMemorySTM.key tenantId scopeId) then method.posts now posts
      else posts) ops

/-- What every turn of a list keeps, and time, holds of the list after a run. -/
theorem Slots.kept {b : Backend} (slots : Slots b) (board : Board) (key : String)
    {Kept : ℚ → Aged → slots.Cell → Prop}
    (hadvance : ∀ now seconds posts cell, 0 ≤ seconds → Kept now posts cell →
      Kept (now + seconds) posts cell)
    (hturn : ∀ now method posts cell, Kept now posts cell →
      Kept now (method.posts now posts) (slots.turn now board method cell).1)
    (ops : List Op) (now : ℚ) (posts : Aged) (state : b.State)
    (h : Kept now posts (slots.cell state board key)) :
    (b.after now state ops).1 = (postsAfter board key now posts ops).1 ∧
      Kept (postsAfter board key now posts ops).1 (postsAfter board key now posts ops).2
        (slots.cell (b.after now state ops).2 board key) := by
  induction ops generalizing now posts state with
  | nil => exact ⟨rfl, h⟩
  | cons op ops ih =>
    cases op with
    | advance seconds => exact ih _ _ _ (hadvance now seconds posts _ seconds.2 h)
    | call other tenantId scopeId method =>
      rw [Backend.after, postsAfter]
      apply ih
      split
      · next heq =>
        obtain ⟨rfl, rfl⟩ := Prod.mk.inj heq
        have hself := congrArg Prod.fst (slots.call_self now state board tenantId scopeId method)
        dsimp only at hself
        rw [hself]
        exact hturn now method posts _ h
      · next hne =>
        rw [slots.call_other now state other tenantId scopeId method board key hne]
        exact h

def Backend.got (b : Backend) (now : ℚ) (past : List Op) (board : Board) (tenantId scopeId : String)
    (limit : ℤ) : Option (List Entry) :=
  let reached := b.after now b.start past
  (b.call reached.1 reached.2 board tenantId scopeId (.get limit)).2

theorem Slots.got_eq {b : Backend} (slots : Slots b) (now : ℚ) (past : List Op) (board : Board)
    (tenantId scopeId : String) (limit : ℤ) :
    b.got now past board tenantId scopeId limit =
      (slots.turn (b.after now b.start past).1 board (.get limit)
        (slots.cell (b.after now b.start past).2 board (InMemorySTM.key tenantId scopeId))).2 :=
  congrArg Prod.snd (slots.call_self _ _ board tenantId scopeId (.get limit))

def capped (maxEntries : ℤ) (posts : Aged) : Aged :=
  if maxEntries < 0 then [] else posts.take maxEntries.toNat

/-- The posts that were each followed within the TTL, by the next post or by the present. -/
def renewed (ttl : ℤ) : ℚ → Aged → Aged
  | _, [] => []
  | now, post :: posts =>
    if 0 < ttl ∧ now - post.2 ≤ ttl then post :: renewed ttl post.2 posts else []

def NewestFirst (now : ℚ) (posts : Aged) : Prop := (now :: posts.map Prod.snd).Pairwise (· ≥ ·)

section Age

variable {now later : ℚ} {ttl maxEntries : ℤ} {post : Entry × ℚ} {posts : Aged}

theorem newestFirst_cons :
    NewestFirst now (post :: posts) ↔ post.2 ≤ now ∧ NewestFirst post.2 posts := by
  unfold NewestFirst
  rw [List.map_cons, List.pairwise_cons]
  constructor
  · rintro ⟨hnow, hposts⟩
    exact ⟨hnow _ List.mem_cons_self, hposts⟩
  · rintro ⟨hnow, hposts⟩
    refine ⟨fun time htime => ?_, hposts⟩
    rcases List.mem_cons.mp htime with rfl | hmem
    · exact hnow
    · exact (List.rel_of_pairwise_cons hposts hmem).trans hnow

theorem NewestFirst.mono (h : NewestFirst now posts) (hlater : now ≤ later) :
    NewestFirst later posts := by
  refine List.pairwise_cons.mpr ⟨fun time htime => ?_, h.tail⟩
  exact (List.rel_of_pairwise_cons h htime).trans hlater

theorem NewestFirst.turn (h : NewestFirst now posts) (method : Method) :
    NewestFirst now (method.posts now posts) := by
  cases method with
  | get limit => exact h
  | post entry => exact newestFirst_cons.mpr ⟨le_rfl, h⟩
  | clear => exact List.pairwise_singleton _ _

theorem prune_cons (h : NewestFirst now (post :: posts)) :
    InMemorySTM.prune later (post :: posts) ttl =
      if later - post.2 < ttl then post :: InMemorySTM.prune later posts ttl else [] := by
  -- Once a post is too old, all behind it are.
  split
  · next hyoung => exact List.filter_cons_of_pos (by simpa using hyoung)
  · next hold =>
    apply List.filter_eq_nil_iff.mpr
    intro other hother
    have hle : other.2 ≤ post.2 := by
      rcases List.mem_cons.mp hother with rfl | hmem
      · exact le_rfl
      · exact List.rel_of_pairwise_cons (newestFirst_cons.mp h).2 (List.mem_map_of_mem hmem)
    rw [decide_eq_true_eq]
    linarith

theorem prune_take (h : NewestFirst now posts) (k : ℕ) :
    InMemorySTM.prune later (posts.take k) ttl = (InMemorySTM.prune later posts ttl).take k := by
  induction posts generalizing now k with
  | nil => rw [List.take_nil, InMemorySTM.prune, List.filter_nil, List.take_nil]
  | cons post posts ih =>
    cases k with
    | zero => rw [List.take_zero, List.take_zero, InMemorySTM.prune, List.filter_nil]
    | succ k =>
      have hposts := (newestFirst_cons.mp h).2
      have htaken : NewestFirst now (post :: posts.take k) :=
        h.sublist (((List.take_sublist k posts).cons_cons post).map Prod.snd |>.cons_cons now)
      rw [List.take_succ_cons, prune_cons htaken, prune_cons h]
      split
      · rw [List.take_succ_cons, ih hposts]
      · exact List.take_nil.symm

theorem prune_prune (hlater : now ≤ later) :
    InMemorySTM.prune later (InMemorySTM.prune now posts ttl) ttl =
      InMemorySTM.prune later posts ttl := by
  unfold InMemorySTM.prune
  rw [List.filter_filter]
  apply List.filter_congr
  intro post _
  rw [Bool.and_eq_left_iff_imp]
  simp only [decide_eq_true_eq]
  intro hyoung
  linarith

theorem prune_capped (h : NewestFirst now posts) :
    InMemorySTM.prune later (capped maxEntries posts) ttl =
      capped maxEntries (InMemorySTM.prune later posts ttl) := by
  unfold capped
  split
  · rfl
  · exact prune_take h _

theorem sliceTo_cons_capped :
    sliceTo (post :: capped maxEntries posts) maxEntries = capped maxEntries (post :: posts) := by
  -- A cap below zero cuts from the end, and leaves nothing of a list that it has kept empty.
  unfold sliceTo capped
  split
  · next hneg =>
    apply List.length_eq_zero_iff.mp
    rw [List.length_take, List.length_singleton]
    omega
  · next hpos =>
    cases hmax : maxEntries.toNat with
    | zero => rfl
    | succ k =>
      rw [List.take_succ_cons, List.take_succ_cons, List.take_take, min_eq_left (Nat.le_succ k)]

theorem renewed_eq_nil (httl : ttl ≤ 0) : renewed ttl now posts = [] := by
  cases posts with
  | nil => rfl
  | cons post posts => exact if_neg fun h => absurd h.1 (not_lt.mpr httl)

theorem renewed_start : renewed ttl now posts <+: posts := by
  induction posts generalizing now with
  | nil => exact List.prefix_rfl
  | cons post posts ih =>
    unfold renewed
    split
    · exact (List.prefix_cons_inj post).mpr ih
    · exact List.nil_prefix

theorem NewestFirst.sublist {some : Aged} (h : NewestFirst now posts) (hsome : some.Sublist posts) :
    NewestFirst now some := List.Pairwise.sublist ((hsome.map Prod.snd).cons_cons now) h

theorem prune_renewed (h : NewestFirst now posts) (hlater : now ≤ later) :
    InMemorySTM.prune later (renewed ttl now posts) ttl = InMemorySTM.prune later posts ttl := by
  induction posts generalizing now with
  | nil => rfl
  | cons post posts ih =>
    obtain ⟨hle, hposts⟩ := newestFirst_cons.mp h
    rw [renewed]
    split
    · have hrenewed : NewestFirst now (post :: renewed ttl post.2 posts) :=
        h.sublist (renewed_start.sublist.cons_cons post)
      rw [prune_cons hrenewed, prune_cons h, ih hposts (hle.trans hlater)]
    · next hold =>
      -- What is young behind the present was young before it.
      rw [prune_cons h, if_neg]
      · rfl
      · intro hyoung
        have hpos : (0 : ℚ) < ttl := by linarith
        exact hold ⟨by exact_mod_cast hpos, by linarith⟩

end Age

section Answers

variable {limits : Limits} {board : Board} {now : ℚ} {posts : Aged}

def InMemoryKept (limits : Limits) (board : Board) (now : ℚ) (posts : Aged) (cell : Option Aged) :
    Prop :=
  NewestFirst now posts ∧ ∀ later, now ≤ later →
    InMemorySTM.prune later (cell.getD []) (limits.ttl board) =
      capped (limits.maxEntries board) (InMemorySTM.prune later posts (limits.ttl board))

theorem InMemoryKept.turn {cell : Option Aged} (h : InMemoryKept limits board now posts cell)
    (method : Method) :
    InMemoryKept limits board now (method.posts now posts)
      (InMemorySTM.turn limits now board method cell).1 := by
  obtain ⟨hposts, hkept⟩ := h
  refine ⟨hposts.turn method, fun later hlater => ?_⟩
  cases method with
  | get limit =>
    have hcell : (InMemorySTM.turn limits now board (.get limit) cell).1.getD [] =
        InMemorySTM.prune now (cell.getD []) (limits.ttl board) := by
      unfold InMemorySTM.turn
      dsimp only
      split
      · next hempty => exact (List.isEmpty_iff.mp hempty).symm
      · rfl
    rw [hcell, prune_prune hlater]
    exact hkept later hlater
  | post entry =>
    have hall : NewestFirst now ((entry, now) :: posts) := newestFirst_cons.mpr ⟨le_rfl, hposts⟩
    have hstored : sliceTo (InMemorySTM.prune now ((entry, now) :: cell.getD []) (limits.ttl board))
        (limits.maxEntries board) =
        capped (limits.maxEntries board)
          (InMemorySTM.prune now ((entry, now) :: posts) (limits.ttl board)) := by
      rw [prune_cons hall]
      by_cases hyoung : now - now < limits.ttl board
      · have hcons : InMemorySTM.prune now ((entry, now) :: cell.getD []) (limits.ttl board) =
            (entry, now) :: InMemorySTM.prune now (cell.getD []) (limits.ttl board) :=
          List.filter_cons_of_pos (by simpa using hyoung)
        rw [hcons, hkept now le_rfl, if_pos hyoung, sliceTo_cons_capped]
      · have hcons : InMemorySTM.prune now ((entry, now) :: cell.getD []) (limits.ttl board) =
            InMemorySTM.prune now (cell.getD []) (limits.ttl board) :=
          List.filter_cons_of_neg (by simpa using hyoung)
        have hnone : InMemorySTM.prune now posts (limits.ttl board) = [] := by
          cases posts with
          | nil => rfl
          | cons post posts =>
            have hle := (newestFirst_cons.mp hposts).1
            rw [prune_cons hposts, if_neg (by linarith)]
        rw [hcons, hkept now le_rfl, hnone, if_neg hyoung]
        simp [capped, sliceTo]
    rw [InMemorySTM.turn, Option.getD_some, hstored, ← prune_capped hall, prune_prune hlater,
      prune_capped hall]
    rfl
  | clear => simp [InMemorySTM.turn, Method.posts, InMemorySTM.prune, capped]

def redisList (codec : JsonCodec) (ttl maxEntries : ℤ) : Aged → Option RedisList
  | [] => none
  | post :: posts =>
    let kept := capped maxEntries (post :: renewed ttl post.2 posts)
    if kept.isEmpty || ttl ≤ 0 then none
    else some ⟨kept.map fun post => codec.dumps post.1, some (post.2 + ttl)⟩

variable {codec : JsonCodec} {ttl maxEntries : ℤ}

theorem items_redisList :
    RedisSTM.items now (redisList codec ttl maxEntries posts) =
      (capped maxEntries (renewed ttl now posts)).map fun post => codec.dumps post.1 := by
  cases posts with
  | nil => simp [RedisSTM.items, redisList, renewed, capped]
  | cons post posts =>
    unfold redisList
    dsimp only
    split
    · next hnone =>
      rw [Bool.or_eq_true, List.isEmpty_iff, decide_eq_true_eq] at hnone
      have hempty : capped maxEntries (renewed ttl now (post :: posts)) = [] := by
        rcases hnone with hkept | httl
        · rw [renewed]
          split
          · exact hkept
          · simp [capped]
        · rw [renewed_eq_nil httl]
          simp [capped]
      rw [hempty]
      rfl
    · next hsome =>
      have hpos : 0 < ttl := by
        rw [Bool.or_eq_true, decide_eq_true_eq, not_or] at hsome
        exact not_le.mp hsome.2
      rw [RedisSTM.items, renewed, Option.filter_some, Option.all_some]
      by_cases hyoung : now - post.2 ≤ ttl
      · have hheld : 0 < ttl ∧ now - post.2 ≤ ttl := ⟨hpos, hyoung⟩
        have hlive : decide (now ≤ post.2 + ttl) = true := decide_eq_true (by linarith)
        rw [if_pos hheld, if_pos hlive]
        rfl
      · have hold : ¬ (0 < ttl ∧ now - post.2 ≤ ttl) := fun h => hyoung h.2
        have hgone : ¬ decide (now ≤ post.2 + ttl) = true := by
          rw [decide_eq_true_eq]
          exact fun h => hyoung (by linarith)
        rw [if_neg hold, if_neg hgone]
        simp [capped]

theorem posted_redisList (hmax : maxEntries ≠ 0) (entry : Entry) :
    RedisSTM.posted codec now ttl maxEntries (redisList codec ttl maxEntries posts) entry =
      redisList codec ttl maxEntries ((entry, now) :: posts) := by
  have hkept : Redis.range (codec.dumps entry ::
      RedisSTM.items now (redisList codec ttl maxEntries posts)) 0 (maxEntries - 1) =
      (capped maxEntries ((entry, now) :: renewed ttl now posts)).map
        fun post => codec.dumps post.1 := by
    rw [range_zero, if_neg hmax, items_redisList, ← sliceTo_cons_capped, map_sliceTo,
      List.map_cons]
  unfold RedisSTM.posted
  dsimp only
  rw [hkept, List.isEmpty_map]
  rfl

def RedisKept (codec : JsonCodec) (limits : Limits) (board : Board) (posts : Aged)
    (cell : Option RedisList) : Prop :=
  cell = redisList codec (limits.ttl board) (limits.maxEntries board) posts

theorem RedisKept.turn {cell : Option RedisList} (h : RedisKept codec limits board posts cell)
    (hmax : limits.maxEntries board ≠ 0) (now : ℚ) (method : Method) :
    RedisKept codec limits board (method.posts now posts)
      (RedisSTM.turn codec limits now board method cell).1 := by
  obtain rfl := h
  cases method with
  | get limit => rfl
  | post entry => exact posted_redisList hmax entry
  | clear => rfl

theorem loads_dumps_all (codec : JsonCodec) (entries : List Entry) :
    (entries.map codec.dumps).mapM codec.loads = some entries := by
  induction entries with
  | nil => rfl
  | cons entry entries ih => simp [codec.loads_dumps, ih]

theorem newestFirst_nil : NewestFirst now [] := List.pairwise_singleton _ _

theorem le_advance {seconds : ℚ} (h : 0 ≤ seconds) : now ≤ now + seconds :=
  le_add_of_nonneg_right h

theorem newestFirst_postsAfter (past : List Op) (key : String) (h : NewestFirst now posts) :
    NewestFirst (postsAfter board key now posts past).1
      (postsAfter board key now posts past).2 := by
  induction past generalizing now posts with
  | nil => exact h
  | cons op past ih =>
    cases op with
    | advance seconds => exact ih (h.mono (le_advance seconds.2))
    | call other tenantId scopeId method =>
      apply ih
      split
      · exact h.turn method
      · exact h

variable (now) (past : List Op) (board) (tenantId scopeId : String) (limit : ℤ)

theorem inMemory_got (limits : Limits) :
    let reached := postsAfter board (InMemorySTM.key tenantId scopeId) now [] past
    (inMemory limits).got now past board tenantId scopeId limit =
      some ((sliceTo (capped (limits.maxEntries board)
        (InMemorySTM.prune reached.1 reached.2 (limits.ttl board))) limit).map Prod.fst) := by
  have hstart : InMemoryKept limits board now []
      (InMemorySTM.dict .empty board (InMemorySTM.key tenantId scopeId)) :=
    ⟨newestFirst_nil, fun later _ => by simp [InMemorySTM.prune, capped]⟩
  have hadvance : ∀ now seconds posts cell, 0 ≤ seconds → InMemoryKept limits board now posts cell →
      InMemoryKept limits board (now + seconds) posts cell := by
    intro now seconds posts cell hpos h
    exact ⟨h.1.mono (le_advance hpos),
      fun later hlater => h.2 later ((le_advance hpos).trans hlater)⟩
  obtain ⟨hclock, -, hkept⟩ := (inMemorySlots limits).kept board (InMemorySTM.key tenantId scopeId)
    hadvance (fun now method posts cell h => h.turn method) past now [] .empty hstart
  rw [(inMemorySlots limits).got_eq]
  dsimp only
  rw [← hkept _ le_rfl, ← hclock]
  rfl

theorem redis_got (codec : JsonCodec) (limits : Limits) (hmax : limits.maxEntries board ≠ 0) :
    let reached := postsAfter board (InMemorySTM.key tenantId scopeId) now [] past
    let held := capped (limits.maxEntries board) (renewed (limits.ttl board) reached.1 reached.2)
    (redis codec limits).got now past board tenantId scopeId limit =
      some ((if limit = 0 then held else sliceTo held limit).map Prod.fst) := by
  have hadvance : ∀ (now seconds : ℚ) posts cell, 0 ≤ seconds →
      RedisKept codec limits board posts cell → RedisKept codec limits board posts cell :=
    fun _ _ _ _ _ h => h
  obtain ⟨hclock, hcell⟩ := (redisSlots codec limits).kept board
    (InMemorySTM.key tenantId scopeId) hadvance
    (fun now method posts cell h => h.turn hmax now method) past now [] (redis codec limits).start
    rfl
  unfold RedisKept at hcell
  intro reached held
  have hitems : RedisSTM.items reached.1 (redisList codec (limits.ttl board)
      (limits.maxEntries board) reached.2) = (held.map Prod.fst).map codec.dumps :=
    items_redisList.trans List.map_map.symm
  have hanswer : ∀ texts : List Entry, ((texts.map codec.dumps).mapM codec.loads).getD [] = texts :=
    fun texts => by rw [loads_dumps_all, Option.getD_some]
  rw [(redisSlots codec limits).got_eq, hclock, hcell]
  change some (((Redis.range (RedisSTM.items reached.1 _) 0 (limit - 1)).mapM
    codec.loads).getD []) = _
  rw [hitems, range_zero, ← map_sliceTo, ← apply_ite (List.map codec.dumps), hanswer,
    apply_ite (List.map Prod.fst), map_sliceTo]

/-- The young posts are a first part of those held. After a cut they are all of it when nothing
is left of either, or when no old one counts for the cut. -/
theorem sliceTo_prune_eq_iff {held : Aged} (hheld : NewestFirst now held) (hlimit : limit ≠ 0) :
    (sliceTo (InMemorySTM.prune now held ttl) limit).map Prod.fst =
        (sliceTo held limit).map Prod.fst ↔
      sliceTo held limit = [] ∨
        ∀ post ∈ if limit < 0 then held else sliceTo held limit, now - post.2 < ttl := by
  have hall : ∀ posts : Aged, InMemorySTM.prune now posts ttl = posts ↔
      ∀ post ∈ posts, now - post.2 < ttl := by
    intro posts
    unfold InMemorySTM.prune
    rw [List.filter_eq_self]
    simp only [decide_eq_true_eq]
  have hle : (InMemorySTM.prune now held ttl).length ≤ held.length := List.length_filter_le _ _
  rcases lt_or_gt_of_ne hlimit with hneg | hpos
  · rw [if_pos hneg, ← hall]
    constructor
    · intro heq
      have hlength := congrArg List.length heq
      rw [List.length_map, List.length_map, length_sliceTo, length_sliceTo, if_pos hneg,
        if_pos hneg] at hlength
      by_cases hnone : held.length + limit ≤ 0
      · left
        apply List.length_eq_zero_iff.mp
        rw [length_sliceTo, if_pos hneg]
        omega
      · right
        have hcount : (InMemorySTM.prune now held ttl).length = held.length := by omega
        exact List.filter_sublist.eq_of_length hcount
    · rintro (hnil | heq)
      · have hyoung : sliceTo (InMemorySTM.prune now held ttl) limit = [] := by
          have hlength := congrArg List.length hnil
          rw [length_sliceTo, if_pos hneg, List.length_nil] at hlength
          apply List.length_eq_zero_iff.mp
          rw [length_sliceTo, if_pos hneg]
          omega
        rw [hyoung, hnil]
      · rw [heq]
  · have hcut : sliceTo (InMemorySTM.prune now held ttl) limit =
        InMemorySTM.prune now (sliceTo held limit) ttl := by
      unfold sliceTo
      rw [if_neg hpos.not_gt, if_neg hpos.not_gt]
      exact (prune_take hheld _).symm
    rw [hcut, if_neg hpos.not_gt, ← hall]
    constructor
    · intro heq
      have hlength := congrArg List.length heq
      rw [List.length_map, List.length_map] at hlength
      exact .inr (List.filter_sublist.eq_of_length hlength)
    · rintro (hnil | heq)
      · rw [hnil]
        rfl
      · rw [heq]

/-- The two answers: of the list that Redis holds, and of its young posts. -/
theorem backends_answer (codec : JsonCodec) (limits : Limits) (hmax : limits.maxEntries board ≠ 0)
    (hlimit : limit ≠ 0) :
    let reached := postsAfter board (InMemorySTM.key tenantId scopeId) now [] past
    let held := capped (limits.maxEntries board) (renewed (limits.ttl board) reached.1 reached.2)
    let young := InMemorySTM.prune reached.1 held (limits.ttl board)
    let server := (redis codec limits).got now past board tenantId scopeId limit
    let process := (inMemory limits).got now past board tenantId scopeId limit
    server = some ((sliceTo held limit).map Prod.fst) ∧
      process = some ((sliceTo young limit).map Prod.fst) ∧
      (process = server ↔ sliceTo held limit = [] ∨
        ∀ post ∈ if limit < 0 then held else sliceTo held limit,
          reached.1 - post.2 < limits.ttl board) := by
  intro reached held young server process
  have hsorted : NewestFirst reached.1 reached.2 := newestFirst_postsAfter past _ newestFirst_nil
  have hrenewed : NewestFirst reached.1 (renewed (limits.ttl board) reached.1 reached.2) :=
    hsorted.sublist renewed_start.sublist
  have hheld : NewestFirst reached.1 held := by
    refine hrenewed.sublist ?_
    unfold held capped
    split
    · exact List.nil_sublist _
    · exact List.take_sublist _ _
  have hserver : server = some ((sliceTo held limit).map Prod.fst) := by
    have hgot := redis_got board now past tenantId scopeId limit codec limits hmax
    dsimp only at hgot
    rwa [if_neg hlimit] at hgot
  have hprocess : process = some ((sliceTo young limit).map Prod.fst) := by
    have hyoung : young = capped (limits.maxEntries board)
        (InMemorySTM.prune reached.1 reached.2 (limits.ttl board)) := by
      rw [← prune_renewed hsorted le_rfl, ← prune_capped hrenewed]
    rw [hyoung]
    exact inMemory_got board now past tenantId scopeId limit limits
  refine ⟨hserver, hprocess, ?_⟩
  rw [hserver, hprocess, Option.some_inj]
  exact sliceTo_prune_eq_iff reached.1 limit hheld hlimit

end Answers

noncomputable def compactCodec : JsonCodec where
  dumps entry := String.ofList (Json.obj entry.1).render
  loads := Function.partialInv fun entry : Entry => String.ofList (Json.obj entry.1).render
  loads_dumps := Function.partialInv_left fun _ _ h =>
    Subtype.ext (Json.obj.inj (Json.render_injective (String.ofList_injective h)))

def noFields : Entry := ⟨[], rfl⟩

def dayOfNotes : List Op :=
  [.call .notes "acme" "writer" (.post noFields), .advance 50000,
    .call .notes "acme" "writer" (.post noFields), .advance 50000]

theorem postsAfter_dayOfNotes :
    postsAfter .notes (InMemorySTM.key "acme" "writer") 0 [] dayOfNotes =
      (100000, [(noFields, 50000), (noFields, 0)]) := by
  simp only [dayOfNotes, postsAfter, Method.posts, if_true, zero_add]
  norm_num

theorem backends_answer_dayOfNotes :
    let reached := postsAfter .notes (InMemorySTM.key "acme" "writer") 0 [] dayOfNotes
    let held := capped 50 (renewed 86400 reached.1 reached.2)
    let young := InMemorySTM.prune reached.1 held 86400
    let server := (redis compactCodec .default).got 0 dayOfNotes .notes "acme" "writer" 10
    let process := (inMemory .default).got 0 dayOfNotes .notes "acme" "writer" 10
    server = some ((sliceTo held 10).map Prod.fst) ∧
      process = some ((sliceTo young 10).map Prod.fst) ∧
      (process = server ↔ sliceTo held 10 = [] ∨
        ∀ post ∈ if (10 : ℤ) < 0 then held else sliceTo held 10,
          reached.1 - post.2 < (86400 : ℤ)) :=
  backends_answer .notes 0 dayOfNotes "acme" "writer" 10 compactCodec .default (by decide)
    (by decide)

/-- The second post renews the list of Redis, which still holds the first note. -/
theorem old_note_renewed : ¬ ∀ (codec : JsonCodec) (limits : Limits) (now : ℚ) (past : List Op)
    (board : Board) (tenantId scopeId : String) (limit : ℤ),
    (inMemory limits).got now past board tenantId scopeId limit =
      (redis codec limits).got now past board tenantId scopeId limit := by
  intro h
  have hsame := h compactCodec .default 0 dayOfNotes .notes "acme" "writer" 10
  have hserver := redis_got .notes 0 dayOfNotes "acme" "writer" 10 compactCodec .default (by decide)
  have hprocess := inMemory_got .notes 0 dayOfNotes "acme" "writer" 10 .default
  rw [postsAfter_dayOfNotes] at hserver hprocess
  rw [hserver, hprocess] at hsame
  norm_num [capped, renewed, sliceTo, InMemorySTM.prune, Limits.maxEntries, Limits.ttl,
    Limits.default] at hsame
  exact absurd (congrArg List.length hsame) (by decide)

section Isolation

variable (b : Backend) (board : Board) (tenantId scopeId : String)

def Op.own : Op → Bool
  | .advance _ => true
  | .call other tenantId' scopeId' _ => (other, tenantId', scopeId') = (board, tenantId, scopeId)

def Answer.own (answer : Answer) : Bool :=
  (answer.board, answer.tenantId, answer.scopeId) = (board, tenantId, scopeId)

def Backend.answersTo (now : ℚ) (ops : List Op) : List Answer :=
  (b.answers now b.start ops).filter (Answer.own board tenantId scopeId)

/-- They answer as if the other calls of the run were not made. -/
def Isolated (now : ℚ) (ops : List Op) : Prop :=
  b.answersTo board tenantId scopeId now ops =
    b.answersTo board tenantId scopeId now (ops.filter (Op.own board tenantId scopeId))

/-- A call for another tenant or scope whose joined text is the same. -/
def Op.collides : Op → Bool
  | .advance _ => false
  | .call other tenantId' scopeId' _ =>
    other = board && InMemorySTM.key tenantId' scopeId' = InMemorySTM.key tenantId scopeId &&
      (tenantId', scopeId') ≠ (tenantId, scopeId)

variable {b board tenantId scopeId}

/-- Two runs that agree on the list agree on its answers, when the second one leaves out calls on
other lists. -/
theorem Slots.answers_own (slots : Slots b) {ops : List Op}
    (hops : ∀ op ∈ ops, op.collides board tenantId scopeId = false) (now : ℚ)
    (state state' : b.State)
    (hcell : slots.cell state board (InMemorySTM.key tenantId scopeId) =
      slots.cell state' board (InMemorySTM.key tenantId scopeId)) :
    (b.answers now state ops).filter (Answer.own board tenantId scopeId) =
      (b.answers now state' (ops.filter (Op.own board tenantId scopeId))).filter
        (Answer.own board tenantId scopeId) := by
  induction ops generalizing now state state' with
  | nil => rfl
  | cons op ops ih =>
    have hrest := fun op' hop' => hops op' (List.mem_cons_of_mem _ hop')
    have hop := hops op List.mem_cons_self
    cases op with
    | advance seconds => exact ih hrest _ state state' hcell
    | call other tenantId' scopeId' method =>
      by_cases hown : (other, tenantId', scopeId') = (board, tenantId, scopeId)
      · obtain ⟨rfl, rfl, rfl⟩ : other = board ∧ tenantId' = tenantId ∧ scopeId' = scopeId := by
          simpa using hown
        have hself := slots.call_self now state other tenantId' scopeId' method
        have hself' := slots.call_self now state' other tenantId' scopeId' method
        rw [hcell, ← hself'] at hself
        obtain ⟨hnext, hanswer⟩ := Prod.mk.inj hself
        rw [List.filter_cons_of_pos (by simp [Op.own]), Backend.answers, Backend.answers,
          List.filter_append, List.filter_append, hanswer, ih hrest now _ _ hnext]
      · have hother : (board, InMemorySTM.key tenantId scopeId) ≠
            (other, InMemorySTM.key tenantId' scopeId') := by
          intro heq
          obtain ⟨rfl, hkey⟩ := Prod.mk.inj heq
          have hpair : (tenantId', scopeId') ≠ (tenantId, scopeId) := fun h => hown (by rw [h])
          simp [Op.collides, hkey, hpair] at hop
        have hnext := slots.call_other now state other tenantId' scopeId' method board
          (InMemorySTM.key tenantId scopeId) hother
        have hforeign : ∀ answer ∈ ((b.call now state other tenantId' scopeId' method).2.map
            (Answer.mk other tenantId' scopeId')).toList,
            ¬ answer.own board tenantId scopeId = true := by
          intro answer hanswer
          obtain ⟨entries, -, rfl⟩ := by simpa using hanswer
          simpa [Answer.own] using hown
        rw [List.filter_cons_of_neg (by simpa [Op.own] using hown), Backend.answers,
          List.filter_append, List.filter_eq_nil_iff.mpr hforeign, List.nil_append]
        exact ih hrest now _ state' (hnext.trans hcell)

theorem Slots.isolated (slots : Slots b) {ops : List Op}
    (hops : ∀ op ∈ ops, op.collides board tenantId scopeId = false) (now : ℚ) :
    Isolated b board tenantId scopeId now ops :=
  slots.answers_own hops now b.start b.start rfl

theorem filter_own (entries : Option (List Entry)) :
    (entries.map (Answer.mk board tenantId scopeId)).toList.filter
      (Answer.own board tenantId scopeId) =
      (entries.map (Answer.mk board tenantId scopeId)).toList := by
  cases entries with
  | none => rfl
  | some entries => exact List.filter_cons_of_pos (by simp [Answer.own])

theorem filter_foreign {tenantId' scopeId' : String}
    (hpair : (tenantId', scopeId') ≠ (tenantId, scopeId)) (entries : Option (List Entry)) :
    (entries.map (Answer.mk board tenantId' scopeId')).toList.filter
      (Answer.own board tenantId scopeId) = [] := by
  cases entries with
  | none => rfl
  | some entries => exact List.filter_cons_of_neg (by simpa [Answer.own] using hpair)

theorem answers_inj {entries entries' : Option (List Entry)}
    (h : (entries.map (Answer.mk board tenantId scopeId)).toList =
      (entries'.map (Answer.mk board tenantId scopeId)).toList) : entries = entries' := by
  cases entries <;> cases entries' <;> simp_all

def Slots.Shown {b : Backend} (slots : Slots b) (board : Board) (now : ℚ) (cell : slots.Cell) :
    Prop :=
  (slots.turn now board (.get 1) (slots.turn now board (.post noFields) cell).1).2 ≠
    (slots.turn now board (.get 1) cell).2

theorem Slots.not_isolated (slots : Slots b) {tenantId' scopeId' : String}
    (hkey : InMemorySTM.key tenantId' scopeId' = InMemorySTM.key tenantId scopeId)
    (hpair : (tenantId', scopeId') ≠ (tenantId, scopeId)) (now : ℚ)
    (hshown : slots.Shown board now
      (slots.cell b.start board (InMemorySTM.key tenantId scopeId))) :
    ¬ Isolated b board tenantId scopeId now
      [.call board tenantId' scopeId' (.post noFields), .call board tenantId scopeId (.get 1)] := by
  -- A post under the same text shows in the answer.
  intro h
  have hposted := congrArg Prod.fst
    (slots.call_self now b.start board tenantId' scopeId' (.post noFields))
  have hgot := congrArg Prod.snd (slots.call_self now
    (b.call now b.start board tenantId' scopeId' (.post noFields)).1 board tenantId scopeId (.get 1))
  have halone := congrArg Prod.snd (slots.call_self now b.start board tenantId scopeId (.get 1))
  dsimp only at hposted hgot halone
  rw [hkey] at hposted
  rw [hposted] at hgot
  unfold Isolated Backend.answersTo at h
  rw [List.filter_cons_of_neg (by simpa [Op.own] using hpair),
    List.filter_cons_of_pos (by simp [Op.own]), List.filter_nil] at h
  simp only [Backend.answers, List.append_nil, List.filter_append, filter_own, List.nil_append,
    filter_foreign hpair] at h
  have hsame := answers_inj h
  rw [hgot, halone] at hsame
  exact hshown hsame

theorem toList_key : (InMemorySTM.key tenantId scopeId).toList =
    tenantId.toList ++ ':' :: scopeId.toList := by
  simp [InMemorySTM.key]

theorem key_inj (htenant : ':' ∉ tenantId.toList) (hscope : ':' ∉ scopeId.toList)
    {tenantId' scopeId' : String}
    (h : InMemorySTM.key tenantId' scopeId' = InMemorySTM.key tenantId scopeId) :
    tenantId' = tenantId ∧ scopeId' = scopeId := by
  -- One colon in the text leaves one way to read it.
  have htext := congrArg String.toList h
  rw [toList_key, toList_key] at htext
  have hcount := congrArg (List.count ':') htext
  simp only [List.count_append, List.count_cons_self, List.count_eq_zero_of_not_mem htenant,
    List.count_eq_zero_of_not_mem hscope] at hcount
  have htenant' : ':' ∉ tenantId'.toList := List.count_eq_zero.mp (by omega)
  have hscope' : ':' ∉ scopeId'.toList := List.count_eq_zero.mp (by omega)
  obtain ⟨ht, -, hs⟩ := (List.append_cons_inj_of_notMem htenant' hscope').mp htext
  exact ⟨String.toList_injective ht, String.toList_injective hs⟩

theorem exists_collision (h : ':' ∈ tenantId.toList ∨ ':' ∈ scopeId.toList) :
    ∃ tenantId' scopeId', (tenantId', scopeId') ≠ (tenantId, scopeId) ∧
      InMemorySTM.key tenantId' scopeId' = InMemorySTM.key tenantId scopeId := by
  rcases h with h | h
  · obtain ⟨before, after, hsplit⟩ := List.append_of_mem h
    refine ⟨String.ofList before, String.ofList after ++ ":" ++ scopeId, ?_, ?_⟩
    · intro heq
      have hlength := congrArg (fun pair => pair.1.toList.length) heq
      simp [hsplit] at hlength
    · apply String.toList_injective
      simp [toList_key, hsplit]
  · obtain ⟨before, after, hsplit⟩ := List.append_of_mem h
    refine ⟨tenantId ++ ":" ++ String.ofList before, String.ofList after, ?_, ?_⟩
    · intro heq
      have hlength := congrArg (fun pair => pair.2.toList.length) heq
      simp only [hsplit, String.toList_ofList, List.length_append, List.length_cons] at hlength
      omega
    · apply String.toList_injective
      simp [toList_key, hsplit]

def oneEntry : Limits := ⟨1, 1, 1, 1⟩

theorem inMemory_shown (now : ℚ) (key : String) :
    (inMemorySlots oneEntry).Shown board now (InMemorySTM.empty.dict board key) := by
  rw [InMemorySTM.dict_empty]
  unfold Slots.Shown inMemorySlots
  cases board <;> norm_num [InMemorySTM.turn, InMemorySTM.prune, Limits.ttl, Limits.maxEntries,
    oneEntry, sliceTo]

theorem redis_shown (codec : JsonCodec) (now : ℚ) :
    (redisSlots codec oneEntry).Shown board now none := by
  unfold Slots.Shown redisSlots
  cases board <;> norm_num [RedisSTM.turn, RedisSTM.posted, RedisSTM.items, Limits.ttl,
    Limits.maxEntries, oneEntry, Redis.range, codec.loads_dumps, Option.filter_some]

theorem colonFree_of_isolated {family : Limits → Backend} (slots : ∀ limits, Slots (family limits))
    (hshown : (slots oneEntry).Shown board 0
      ((slots oneEntry).cell (family oneEntry).start board (InMemorySTM.key tenantId scopeId)))
    (h : ∀ limits now ops, Isolated (family limits) board tenantId scopeId now ops) :
    ':' ∉ tenantId.toList ∧ ':' ∉ scopeId.toList := by
  by_contra hfree
  have hcolon : ':' ∈ tenantId.toList ∨ ':' ∈ scopeId.toList := by
    by_contra hnone
    exact hfree (not_or.mp hnone)
  obtain ⟨tenantId', scopeId', hpair, hkey⟩ := exists_collision hcolon
  exact (slots oneEntry).not_isolated hkey hpair 0 hshown (h oneEntry 0 _)

theorem collides_eq_false (htenant : ':' ∉ tenantId.toList) (hscope : ':' ∉ scopeId.toList)
    (op : Op) : op.collides board tenantId scopeId = false := by
  cases op with
  | advance seconds => rfl
  | call other tenantId' scopeId' method =>
    by_contra hcollides
    simp only [Op.collides, Bool.not_eq_false, Bool.and_eq_true, decide_eq_true_eq] at hcollides
    obtain ⟨⟨-, hkey⟩, hpair⟩ := hcollides
    obtain ⟨rfl, rfl⟩ := key_inj htenant hscope hkey
    exact hpair rfl

variable (board tenantId scopeId)

/-- A run isolates the list of a tenant and scope when no call of it has another pair with
their text; all runs do, on either backend, when and only when neither name has a colon. -/
theorem stm_isolated (codec : JsonCodec) :
    (∀ limits now ops, (∀ op ∈ ops, op.collides board tenantId scopeId = false) →
      Isolated (inMemory limits) board tenantId scopeId now ops ∧
        Isolated (redis codec limits) board tenantId scopeId now ops) ∧
    ((∀ limits now ops, Isolated (inMemory limits) board tenantId scopeId now ops) ↔
      ':' ∉ tenantId.toList ∧ ':' ∉ scopeId.toList) ∧
    ((∀ limits now ops, Isolated (redis codec limits) board tenantId scopeId now ops) ↔
      ':' ∉ tenantId.toList ∧ ':' ∉ scopeId.toList) := by
  refine ⟨fun limits now ops hops => ?_, ⟨fun h => ?_, fun ⟨htenant, hscope⟩ limits now ops => ?_⟩,
    ⟨fun h => ?_, fun ⟨htenant, hscope⟩ limits now ops => ?_⟩⟩
  · exact ⟨(inMemorySlots limits).isolated hops now, (redisSlots codec limits).isolated hops now⟩
  · exact colonFree_of_isolated inMemorySlots
      (inMemory_shown 0 (InMemorySTM.key tenantId scopeId)) h
  · exact (inMemorySlots limits).isolated (fun op _ => collides_eq_false htenant hscope op) now
  · exact colonFree_of_isolated (redisSlots codec) (redis_shown codec 0) h
  · exact (redisSlots codec limits).isolated (fun op _ => collides_eq_false htenant hscope op) now

end Isolation

/-- An agent of another tenant posts under the text of a broker's agent. -/
theorem broker_notes_shared : ¬ Isolated (inMemory oneEntry) .notes "acme" "broker:i1" 0
    [.call .notes "acme:broker" "i1" (.post noFields), .call .notes "acme" "broker:i1" (.get 1)] :=
  (inMemorySlots oneEntry).not_isolated (by decide) (by decide) 0
    (inMemory_shown 0 (InMemorySTM.key "acme" "broker:i1"))

theorem stm_isolated_broker :
    Isolated (inMemory .default) .notes "acme" "broker:i1" 0
        [.call .notes "acme" "i1" (.post noFields), .call .notes "acme" "broker:i1" (.get 1)] ∧
      Isolated (redis compactCodec .default) .notes "acme" "broker:i1" 0
        [.call .notes "acme" "i1" (.post noFields), .call .notes "acme" "broker:i1" (.get 1)] :=
  (stm_isolated .notes "acme" "broker:i1" compactCodec).1 .default 0 _ (by decide)

end Memclaw.Stm
